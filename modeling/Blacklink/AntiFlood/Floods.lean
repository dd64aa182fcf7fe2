import Blacklink.AntiFlood.IpBans

/-!
# Which requests are stopped

`HubRequestCounters::addRequest` (`client/AntiFlood.cpp:110-149`) stops the request of an address
that is banned or that floods. The mark of the hub outlives the ban: when the ban has left the
table, by a request after its end, by `removeBan` or by the sweep, a new flood of the address finds
the mark and no ban, and is let through. These are the only requests that are treated wrongly.
-/

namespace Blacklink.AntiFlood

open Blacklink.Base

namespace IpBans

/-- The address is protected. -/
def Protected (bans : IpBans) (key : IpPortKey) : Prop :=
  ∃ info, bans key = some info ∧ info.dontBan = true

/-- A ban of the address has not ended. -/
def Running (bans : IpBans) (key : IpPortKey) (timestamp : Int) : Prop :=
  ∃ info, bans key = some info ∧ info.dontBan = false ∧ timestamp ≤ info.unbanTime

variable {bans : IpBans} {key : IpPortKey} {timestamp : Int}

theorem checkBan_eq_dontBan_iff (timestamp : Int) :
    bans.checkBan key timestamp = .dontBan ↔ bans.Protected key := by
  unfold checkBan Protected
  cases bans key with
  | none => simp
  | some info =>
    cases h : info.dontBan
    · simp only [h, Bool.false_eq_true, if_false, Option.some.injEq, exists_eq_left', iff_false]
      split <;> exact BanState.noConfusion
    · simp [h]

theorem checkBan_eq_banActive_iff :
    bans.checkBan key timestamp = .banActive ↔ bans.Running key timestamp := by
  unfold checkBan Running
  cases bans key with
  | none => simp
  | some info => cases h : info.dontBan <;> simp [h]

theorem checkBan_eq_noBan_iff (timestamp : Int) :
    bans.checkBan key timestamp = .noBan ↔ bans key = none := by
  unfold checkBan
  cases bans key with
  | none => simp
  | some info =>
    cases h : info.dontBan
    · simp only [h, Bool.false_eq_true, if_false, reduceCtorEq, iff_false]
      split <;> exact BanState.noConfusion
    · simp [h]

theorem protected_iff :
    bans.Protected key ↔ (bans key).any BanInfo.dontBan = true := by
  unfold Protected
  cases bans key <;> simp

/-- An entry that is changed stays what it is. -/
theorem protected_update {bans' : IpBans} {key' : IpPortKey} {info : Option BanInfo}
    (h : ∀ k, bans' k = if k = key' then info else bans k)
    (hinfo : info.any BanInfo.dontBan = (bans key').any BanInfo.dontBan) :
    bans'.Protected key ↔ bans.Protected key := by
  rw [protected_iff, protected_iff, h]
  split
  · next heq => rw [hinfo, heq]
  · rfl

end IpBans

namespace IpItem

variable {settings : AntiFloodSettings} {bans : IpBans} {item : IpItem} {key : IpPortKey}
  {timestamp : Int} {url : String}

/-- The address floods with this request. -/
def Floods (settings : AntiFloodSettings) (item : IpItem) (timestamp : Int) : Prop :=
  (item.rq.add timestamp).isFlood settings = true

/-- What each answer of the table leads to. -/
theorem addRequest_result :
    (item.addRequest settings bans key timestamp url).result =
      match bans.checkBan key timestamp with
      | .noBan => !(item.rq.add timestamp).isFlood settings || item.banned
      | .banActive => false
      | .banExpired => !(item.rq.add timestamp).isFlood settings
      | .dontBan => true := by
  unfold addRequest
  dsimp only
  cases bans.checkBan key timestamp <;> cases (item.rq.add timestamp).isFlood settings <;>
    cases item.banned <;> rfl

/-- A request leaves every address protected or not, as it is. -/
theorem protected_addRequest {key' : IpPortKey} :
    (item.addRequest settings bans key' timestamp url).bans.Protected key ↔
      bans.Protected key := by
  unfold addRequest
  dsimp only
  generalize (item.rq.add timestamp).isFlood settings = flood
  cases hcheck : bans.checkBan key' timestamp with
  | dontBan => cases flood <;> cases item.banned <;> rfl
  | _ =>
    have hnot : (bans key').any BanInfo.dontBan = false := by
      rw [← Bool.not_eq_true, ← IpBans.protected_iff, ← IpBans.checkBan_eq_dontBan_iff timestamp,
        hcheck]
      simp
    cases flood <;> cases item.banned <;> first
      | rfl
      | exact IpBans.protected_update (fun _ => Function.update_apply ..)
          (by simp [hnot, Option.any_filter])

end IpItem

namespace FloodState

variable {Hub : Type} [DecidableEq Hub] {settings : AntiFloodSettings} {s : FloodState Hub}

/-- A request is stopped exactly if its address is not protected, and a ban of it is running or the
counted requests are a flood. -/
def Stops (settings : AntiFloodSettings) (s : FloodState Hub) : FloodEvent Hub → Prop
  | .addRequest hub ip port timestamp url =>
    (s.addRequest settings hub (.setIP ip port) timestamp url).1 = false ↔
      ¬ s.bans.Protected (.setIP ip port) ∧
        (s.bans.Running (.setIP ip port) timestamp ∨
          (s.counters hub (.setIP ip port)).Floods settings timestamp)
  | _ => True

/-- The request is not a flood of an address that has no entry in the table and that the hub has
marked as banned. -/
def Condition (settings : AntiFloodSettings) (s : FloodState Hub) : FloodEvent Hub → Prop
  | .addRequest hub ip port timestamp _ =>
    ¬ (s.bans (.setIP ip port) = none ∧ (s.counters hub (.setIP ip port)).banned = true ∧
      (s.counters hub (.setIP ip port)).Floods settings timestamp)
  | _ => True

/-- A request is treated as it should be if and only if the condition holds. -/
theorem stops_iff (settings : AntiFloodSettings) (s : FloodState Hub) (e : FloodEvent Hub) :
    s.Stops settings e ↔ s.Condition settings e := by
  cases e with
  | addRequest hub ip port timestamp url =>
    unfold Stops Condition addRequest
    dsimp only
    generalize IpPortKey.setIP ip port = key
    rw [IpItem.addRequest_result, ← IpBans.checkBan_eq_dontBan_iff timestamp,
      ← IpBans.checkBan_eq_banActive_iff, ← IpBans.checkBan_eq_noBan_iff timestamp]
    unfold IpItem.Floods
    cases s.bans.checkBan key timestamp <;>
      cases ((s.counters hub key).rq.add timestamp).isFlood settings <;>
      cases (s.counters hub key).banned <;> decide
  | protect ip port enable => exact Iff.rfl
  | removeBan ip port => exact Iff.rfl
  | removeExpired timestamp => exact Iff.rfl

/-- In every history every request is treated as it should be if and only if no request is a flood
of an address that has no entry in the table and that its hub has marked as banned. -/
theorem stops_run_iff (settings : AntiFloodSettings) (es : List (FloodEvent Hub)) :
    Within (Stops settings) (step settings) (init Hub) es ↔
      Within (Condition settings) (step settings) (init Hub) es :=
  within_congr (fun _ => True) (fun _ _ _ => True.intro) (fun s e _ => stops_iff settings s e)
    True.intro es

/-- One hub, and an address that floods, waits for the end of its ban and floods again. -/
def secondFlood : List (FloodEvent Unit) :=
  [.addRequest () (.v4 0) 0 0 "", .addRequest () (.v4 0) 0 1000 "",
    .addRequest () (.v4 0) 0 400000 "", .addRequest () (.v4 0) 0 401000 ""]

/-- The second flood of the address is not stopped. -/
theorem not_stops_second_flood :
    ¬ Within (Stops ⟨1, 1, 1⟩) (step ⟨1, 1, 1⟩) (init Unit) secondFlood := by
  rintro ⟨-, -, -, hstops, -⟩
  let s := run (step ⟨1, 1, 1⟩) (init Unit) (secondFlood.take 3)
  have hfree : s.bans (.setIP (.v4 0) 0) = none := by rfl
  have hunprotected : ¬ s.bans.Protected (.setIP (.v4 0) 0) := by
    rintro ⟨info, hinfo, -⟩
    cases hfree.symm.trans hinfo
  have hflood : ((s.counters () (.setIP (.v4 0) 0)).rq.add 401000).isFlood ⟨1, 1, 1⟩ = true := by
    decide +kernel
  have hpassed : (s.addRequest ⟨1, 1, 1⟩ () (.setIP (.v4 0) 0) 401000 "").1 = true := by
    decide +kernel
  exact Bool.noConfusion (hpassed.symm.trans (hstops.mpr ⟨hunprotected, .inr hflood⟩))

/-! ### Protected addresses -/

/-- What a call of `protect` for the address says. -/
def protects (key : IpPortKey) : FloodEvent Hub → Option Bool
  | .protect ip port enable => if key = .setIP ip port then some enable else none
  | _ => none

theorem protected_step (key : IpPortKey) (e : FloodEvent Hub) :
    (s.step settings e).bans.Protected key ↔
      (protects key e).elim (s.bans.Protected key) (· = true) := by
  cases e with
  | addRequest => exact IpItem.protected_addRequest
  | protect ip port enable =>
    have hval : s.bans.protect (.setIP ip port) enable key =
        if key = .setIP ip port then
          if enable then some ⟨0, 0, [], true⟩ else (s.bans (.setIP ip port)).filter (!·.dontBan)
        else s.bans key := Function.update_apply ..
    unfold step protects
    dsimp only
    rw [IpBans.protected_iff, hval]
    split
    · cases enable <;> simp [Option.any_filter]
    · exact IpBans.protected_iff.symm
  | removeBan =>
    exact IpBans.protected_update (fun _ => Function.update_apply ..) (by simp [Option.any_filter])
  | removeExpired timestamp =>
    simp only [step, IpBans.removeExpired, protects, IpBans.protected_iff, Option.any_filter,
      Option.elim]
    cases s.bans key <;> simp +contextual

/-- In every history an address is protected exactly if the last call of `protect` for it has
enabled this, and then no hub stops a request of it. -/
theorem protected_run_iff (settings : AntiFloodSettings) (es : List (FloodEvent Hub))
    (key : IpPortKey) :
    ((run (step settings) (init Hub) es).bans.Protected key ↔
        (es.filterMap (protects key)).getLast? = some true) ∧
      ((es.filterMap (protects key)).getLast? = some true → ∀ hub timestamp url,
        ((run (step settings) (init Hub) es).addRequest settings hub key timestamp url).1 =
          true) := by
  have hiff : (run (step settings) (init Hub) es).bans.Protected key ↔
      (es.filterMap (protects key)).getLast? = some true := by
    induction es using List.reverseRecOn with
    | nil => simp [IpBans.Protected, init]
    | append_singleton es e ih =>
      rw [run_append, run_cons, run_nil, protected_step, List.filterMap_append, ih]
      cases h : protects key e <;> simp [h]
  refine ⟨hiff, fun h hub timestamp url => ?_⟩
  rw [addRequest, IpItem.addRequest_result,
    (IpBans.checkBan_eq_dontBan_iff timestamp).mpr (hiff.mpr h)]

end FloodState

end Blacklink.AntiFlood
