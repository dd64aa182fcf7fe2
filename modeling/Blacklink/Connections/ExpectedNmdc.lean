import Mathlib.Algebra.Group.Nat.Defs
import Mathlib.Data.List.Nodup
import Mathlib.Data.List.Pairwise
import Mathlib.Data.List.Perm.Basic
import Mathlib.Data.Nat.Basic
import Blacklink.Base.Run

/-!
# Expected NMDC connections

Model of `ExpectedNmdcMap` (`client/ConnectionManager.h:99-131`,
`client/ConnectionManager.cpp:152-234, 263-292`): the nicks a connection is expected from. Only one
connection of a nick is expected at a time; the other ones wait, and when the active one is gone
the oldest of them is handed back to be connected next. `removeToken` does so also when the entry
it removes was a waiting one, where `remove` and `removeExpired` look at this first.
-/

namespace Blacklink.Connections

open Blacklink.Base

/-- `UINT64_MAX`. -/
def uint64Max : Nat := 2 ^ 64 - 1

/-- `ExpectedNmdcMap::ExpectedData`. -/
structure ExpectedData where
  myNick : String
  hubUrl : String
  token : String
  encoding : Int
  id : Nat
  expires : Nat
  waiting : Bool
  deriving DecidableEq

/-- An element of the multimap. -/
structure Expected where
  nick : String
  data : ExpectedData
  deriving DecidableEq

/-- `ExpectedNmdcMap::NextConnectionInfo`. -/
structure NextConnectionInfo where
  nick : String
  hubUrl : String
  token : String
  deriving DecidableEq

/-- `ExpectedNmdcMap`. The elements of the multimap are in the order of its iterators. -/
structure ExpectedNmdcMap where
  expectedConnections : List Expected
  id : Nat

namespace Expected

/-- A connection for a download has a token. -/
def isDownload (e : Expected) : Bool := !e.data.token.isEmpty

/-- What is handed back for an element; `toUtf8` is `Text::toUtf8`. -/
def nextInfo (toUtf8 : String → Int → String) (e : Expected) : NextConnectionInfo :=
  ⟨toUtf8 e.nick e.data.encoding, e.data.hubUrl, e.data.token⟩

end Expected

/-- The loop over `minId`: the waiting element with the least id. -/
def nextWaiting (l : List Expected) : Option Expected :=
  l.foldl
    (fun next e =>
      if e.data.waiting = true ∧ e.data.id < (next.map (·.data.id)).getD uint64Max then some e
      else next)
    none

/-- The last element that satisfies `p` is changed by `f`. -/
def modifyLast (p : Expected → Bool) (f : Expected → Expected) : List Expected → List Expected
  | [] => []
  | e :: l => if l.any p then e :: modifyLast p f l else if p e then f e :: l else e :: l

/-- The last element that satisfies `p` is erased. -/
def eraseLast (p : Expected → Bool) : List Expected → List Expected
  | [] => []
  | e :: l => if l.any p then e :: eraseLast p l else if p e then l else e :: l

namespace ExpectedNmdcMap

/-- `expectedConnections.equal_range(nick)`. -/
def equalRange (m : ExpectedNmdcMap) (nick : String) : List Expected :=
  m.expectedConnections.filter fun e => e.nick = nick

/-- `ExpectedNmdcMap::add`. -/
def add (m : ExpectedNmdcMap) (nick myNick hubUrl token : String) (encoding : Int)
    (expires : Nat) : Bool × ExpectedNmdcMap :=
  let isDownload := !token.isEmpty
  let same := fun e : Expected =>
    decide (e.nick = nick ∧ e.data.hubUrl = hubUrl ∧ e.isDownload = isDownload)
  let result := (m.equalRange nick).all (·.data.waiting)
  if m.expectedConnections.any same = false then
    let id := (m.id + 1) % 2 ^ 64
    (result,
      { expectedConnections := m.expectedConnections ++
          [⟨nick, myNick, hubUrl, token, encoding, id, expires, !result⟩]
        id := id })
  else if result then
    (result,
      { m with
        expectedConnections := modifyLast same
          (fun e =>
            { e with
              data := { e.data with
                waiting := false, token := token, encoding := encoding, expires := expires } })
          m.expectedConnections })
  else (result, m)

/-- `ExpectedNmdcMap::remove`: the data of the active element, or `none` for `false`, and what is
written to `nci`. -/
def remove (toUtf8 : String → Int → String) (m : ExpectedNmdcMap) (nick : String) :
    (Option ExpectedData × Option NextConnectionInfo) × ExpectedNmdcMap :=
  let active := fun e : Expected => decide (e.nick = nick ∧ e.data.waiting = false)
  let res := ((m.expectedConnections.filter active).getLast?).map (·.data)
  let nci := (nextWaiting (m.equalRange nick)).map (·.nextInfo toUtf8)
  ((res, nci), { m with expectedConnections := eraseLast active m.expectedConnections })

/-- `ExpectedNmdcMap::removeToken`: the result, and what is written to `nci`. -/
def removeToken (toUtf8 : String → Int → String) (m : ExpectedNmdcMap) (token : String) :
    (Bool × Option NextConnectionInfo) × ExpectedNmdcMap :=
  match m.expectedConnections.find? (·.data.token = token) with
  | none => ((false, none), m)
  | some e =>
    let m := { m with expectedConnections := m.expectedConnections.eraseP (·.data.token = token) }
    ((true, (nextWaiting (m.equalRange e.nick)).map (·.nextInfo toUtf8)), m)

/-- `ExpectedNmdcMap::removeExpired`: `vnci`. -/
def removeExpired (toUtf8 : String → Int → String) (m : ExpectedNmdcMap) (now : Nat) :
    List NextConnectionInfo × ExpectedNmdcMap :=
  let tmp := (m.expectedConnections.filter fun e =>
    e.data.expires < now ∧ e.data.waiting = false).map (·.nick)
  let m :=
    { m with expectedConnections := m.expectedConnections.filter fun e => ¬ e.data.expires < now }
  (tmp.filterMap fun nick => (nextWaiting (m.equalRange nick)).map (·.nextInfo toUtf8), m)

end ExpectedNmdcMap

/-- The operations on the map. The order of an unordered multimap may be any, and change. -/
inductive ExpectedEvent where
  | add (nick myNick hubUrl token : String) (encoding : Int) (expires : Nat)
  | remove (nick : String)
  | removeToken (token : String)
  | removeExpired (now : Nat)
  | rehash (order : List Expected)

namespace ExpectedNmdcMap

variable (toUtf8 : String → Int → String)

/-- An empty map. -/
def init : ExpectedNmdcMap := ⟨[], 0⟩

/-- The map after an operation. -/
def step (m : ExpectedNmdcMap) : ExpectedEvent → ExpectedNmdcMap
  | .add nick myNick hubUrl token encoding expires =>
    (m.add nick myNick hubUrl token encoding expires).2
  | .remove nick => (m.remove toUtf8 nick).2
  | .removeToken token => (m.removeToken toUtf8 token).2
  | .removeExpired now => (m.removeExpired toUtf8 now).2
  | .rehash order =>
    if order.isPerm m.expectedConnections then { m with expectedConnections := order } else m

/-- The connections an operation hands back. When `remove` gives `false` its caller returns at once
(`client/ConnectionManager.cpp:1181-1186`). -/
def handedBack (m : ExpectedNmdcMap) : ExpectedEvent → List NextConnectionInfo
  | .remove nick =>
    match (m.remove toUtf8 nick).1 with
    | (some _, nci) => nci.toList
    | (none, _) => []
  | .removeToken token => (m.removeToken toUtf8 token).1.2.toList
  | .removeExpired now => (m.removeExpired toUtf8 now).1
  | _ => []

/-! ### What the map ensures -/

/-- At most one element of a nick is active, and a nick has one element for each hub and
direction. -/
structure Expects (m : ExpectedNmdcMap) : Prop where
  active : m.expectedConnections.Pairwise fun a b =>
    a.nick = b.nick → a.data.waiting = true ∨ b.data.waiting = true
  unique : m.expectedConnections.Pairwise fun a b =>
    a.nick = b.nick → a.data.hubUrl = b.data.hubUrl → a.isDownload ≠ b.isDownload

/-- The element was the active one of the nick and is gone. -/
def RemovedActive (m m' : ExpectedNmdcMap) (nick : String) : Prop :=
  ∃ a ∈ m.expectedConnections, a.nick = nick ∧ a.data.waiting = false ∧
    a ∉ m'.expectedConnections

/-- The element is the oldest of those that wait for its nick. -/
def Oldest (m : ExpectedNmdcMap) (e : Expected) : Prop :=
  e ∈ m.expectedConnections ∧ e.data.waiting = true ∧
    ∀ x ∈ m.expectedConnections, x.nick = e.nick → x.data.waiting = true → e.data.id ≤ x.data.id

/-- An operation hands back a connection for each nick whose active element it removes and that has
waiting elements left, and no other: the oldest of these. -/
def HandsOver (m : ExpectedNmdcMap) (e : ExpectedEvent) : Prop :=
  ∃ chosen : List Expected, m.handedBack toUtf8 e = chosen.map (·.nextInfo toUtf8) ∧
    (chosen.map (·.nick)).Nodup ∧
    ∀ x, x ∈ chosen ↔
      (m.step toUtf8 e).Oldest x ∧ RemovedActive m (m.step toUtf8 e) x.nick

/-! ### Lists -/

private theorem modifyLast_split {p : Expected → Bool} (f : Expected → Expected)
    {l : List Expected} (h : l.any p = true) :
    ∃ l₁ e l₂, l = l₁ ++ e :: l₂ ∧ p e = true ∧ modifyLast p f l = l₁ ++ f e :: l₂ := by
  induction l with
  | nil => cases h
  | cons e l ih =>
    rw [modifyLast]
    split
    · next hl =>
      obtain ⟨l₁, x, l₂, hsplit, hx, hmodify⟩ := ih hl
      exact ⟨e :: l₁, x, l₂, by rw [hsplit]; rfl, hx, by rw [hmodify]; rfl⟩
    · next hl =>
      have he : p e = true := by simpa [hl] using h
      rw [if_pos he]
      exact ⟨[], e, l, rfl, he, rfl⟩

private theorem eraseLast_split {p : Expected → Bool} {l : List Expected} (h : l.any p = true) :
    ∃ l₁ e l₂, l = l₁ ++ e :: l₂ ∧ p e = true ∧ eraseLast p l = l₁ ++ l₂ := by
  induction l with
  | nil => cases h
  | cons e l ih =>
    rw [eraseLast]
    split
    · next hl =>
      obtain ⟨l₁, x, l₂, hsplit, hx, herase⟩ := ih hl
      exact ⟨e :: l₁, x, l₂, by rw [hsplit]; rfl, hx, by rw [herase]; rfl⟩
    · next hl =>
      have he : p e = true := by simpa [hl] using h
      rw [if_pos he]
      exact ⟨[], e, l, rfl, he, rfl⟩

private theorem eraseLast_none {p : Expected → Bool} {l : List Expected} (h : l.any p = false) :
    eraseLast p l = l := by
  induction l with
  | nil => rfl
  | cons e l ih =>
    rw [List.any_cons, Bool.or_eq_false_iff] at h
    rw [eraseLast, if_neg (by simp [h.2]), if_neg (by simp [h.1])]

/-- One step of the loop over `minId`. -/
private theorem nextWaiting_concat (l : List Expected) (e : Expected) :
    nextWaiting (l ++ [e]) =
      if e.data.waiting = true ∧ e.data.id < ((nextWaiting l).map (·.data.id)).getD uint64Max then
        some e
      else nextWaiting l := List.foldl_concat ..

/-- The loop finds a waiting element when there is one, and no other has a lesser id. -/
private theorem nextWaiting_spec {l : List Expected} (hid : ∀ e ∈ l, e.data.id < uint64Max) :
    (∀ e, nextWaiting l = some e → e ∈ l ∧ e.data.waiting = true) ∧
      ∀ x ∈ l, x.data.waiting = true →
        ∃ e, nextWaiting l = some e ∧ e.data.id ≤ x.data.id := by
  induction l using List.reverseRecOn with
  | nil => simp [nextWaiting]
  | append_singleton l e ih =>
    obtain ⟨hmem, hle⟩ := ih fun x hx => hid x (List.mem_append_left _ hx)
    rw [nextWaiting_concat]
    split
    · next hless =>
      refine ⟨?_, ?_⟩
      · rintro x ⟨rfl⟩
        exact ⟨by simp, hless.1⟩
      · intro x hx hwaiting
        refine ⟨e, rfl, ?_⟩
        rcases List.mem_append.mp hx with hx | hx
        · obtain ⟨y, hy, hyx⟩ := hle x hx hwaiting
          rw [hy] at hless
          exact le_trans (le_of_lt hless.2) hyx
        · rw [List.mem_singleton.mp hx]
    · next hnot =>
      refine ⟨fun x hx => ⟨List.mem_append_left _ (hmem x hx).1, (hmem x hx).2⟩, ?_⟩
      intro x hx hwaiting
      rcases List.mem_append.mp hx with hx | hx
      · exact hle x hx hwaiting
      · rw [List.mem_singleton] at hx
        subst hx
        cases hnext : nextWaiting l with
        | none =>
          rw [hnext] at hnot
          exact absurd ⟨hwaiting, hid x (by simp)⟩ hnot
        | some y =>
          refine ⟨y, rfl, ?_⟩
          rw [hnext] at hnot
          exact not_lt.mp fun hlt => hnot ⟨hwaiting, hlt⟩

/-! ### The invariant -/

/-- The ids of the elements are different and below the last one given. -/
structure Inv (m : ExpectedNmdcMap) : Prop extends Expects m where
  ids : m.expectedConnections.Pairwise fun a b => a.data.id ≠ b.data.id
  bound : ∀ e ∈ m.expectedConnections, e.data.id ≤ m.id
  id : m.id < uint64Max

variable {m : ExpectedNmdcMap}

private theorem inv_init : Inv init where
  active := .nil
  unique := .nil
  ids := .nil
  bound := by simp [init]
  id := by decide

/-- Elements may be removed. -/
private theorem Inv.sublist (h : Inv m) {l : List Expected} (hl : l.Sublist m.expectedConnections) :
    Inv { m with expectedConnections := l } where
  active := h.active.sublist hl
  unique := h.unique.sublist hl
  ids := h.ids.sublist hl
  bound e he := h.bound e (hl.subset he)
  id := h.id

/-- The elements may be reordered. -/
private theorem Inv.perm (h : Inv m) {l : List Expected} (hl : l.Perm m.expectedConnections) :
    Inv { m with expectedConnections := l } where
  active := (hl.pairwise_iff fun hab heq => (hab heq.symm).symm).mpr h.active
  unique := (hl.pairwise_iff fun hab heq hurl => (hab heq.symm hurl.symm).symm).mpr h.unique
  ids := (hl.pairwise_iff Ne.symm).mpr h.ids
  bound e he := h.bound e (hl.subset he)
  id := h.id

/-- The ids tell the elements apart. -/
private theorem Inv.eq_of_id (h : Inv m) {a b : Expected} (ha : a ∈ m.expectedConnections)
    (hb : b ∈ m.expectedConnections) (hid : a.data.id = b.data.id) : a = b := by
  have hsymm : Std.Symm fun a b : Expected => a.data.id ≠ b.data.id := ⟨fun _ _ => Ne.symm⟩
  by_contra hne
  exact h.ids.forall ha hb hne hid

/-- The element the loop finds is the oldest. -/
private theorem Inv.mem_nextWaiting (h : Inv m) (nick : String) (x : Expected) :
    x ∈ (nextWaiting (m.equalRange nick)).toList ↔ x.nick = nick ∧ m.Oldest x := by
  have hid : ∀ e ∈ m.equalRange nick, e.data.id < uint64Max := fun e he =>
    lt_of_le_of_lt (h.bound e (List.mem_of_mem_filter he)) h.id
  have hmem : ∀ e, e ∈ m.equalRange nick ↔ e ∈ m.expectedConnections ∧ e.nick = nick := by
    intro e
    simp [equalRange]
  obtain ⟨hfound, hle⟩ := nextWaiting_spec hid
  rw [Option.mem_toList]
  constructor
  · intro hx
    obtain ⟨hrange, hwaiting⟩ := hfound x hx
    obtain ⟨hin, hnick⟩ := (hmem x).mp hrange
    refine ⟨hnick, hin, hwaiting, fun y hy hynick hywaiting => ?_⟩
    obtain ⟨z, hz, hzy⟩ := hle y ((hmem y).mpr ⟨hy, hynick.trans hnick⟩) hywaiting
    rw [hx] at hz
    cases hz
    exact hzy
  · rintro ⟨hnick, hin, hwaiting, hleast⟩
    obtain ⟨z, hz, hzx⟩ := hle x ((hmem x).mpr ⟨hin, hnick⟩) hwaiting
    obtain ⟨hzrange, hzwaiting⟩ := hfound z hz
    obtain ⟨hzin, hznick⟩ := (hmem z).mp hzrange
    have hxz := hleast z hzin (hznick.trans hnick.symm) hzwaiting
    rw [hz, h.eq_of_id hzin hin (le_antisymm hzx hxz)]

/-- An element that stays alone in its place: what the invariant asks of the others. -/
private theorem Inv.of_split {l₁ l₂ : List Expected} {e : Expected} {id : Nat}
    (h : Inv ⟨l₁ ++ l₂, id⟩) (hid : e.data.id ≤ id)
    (hactive : ∀ x ∈ l₁ ++ l₂, e.nick = x.nick → e.data.waiting = true ∨ x.data.waiting = true)
    (hunique : ∀ x ∈ l₁ ++ l₂, e.nick = x.nick → e.data.hubUrl = x.data.hubUrl →
      e.isDownload ≠ x.isDownload)
    (hids : ∀ x ∈ l₁ ++ l₂, e.data.id ≠ x.data.id) : Inv ⟨l₁ ++ e :: l₂, id⟩ := by
  have hcons : Inv ⟨e :: (l₁ ++ l₂), id⟩ :=
    { active := .cons hactive h.active
      unique := .cons hunique h.unique
      ids := .cons hids h.ids
      bound := by
        intro x hx
        rcases List.mem_cons.mp hx with rfl | hx
        · exact hid
        · exact h.bound x hx
      id := h.id }
  exact hcons.perm List.perm_middle

/-- Where no element of the nick is active, one may become active. -/
private theorem Inv.activate {l₁ l₂ : List Expected} {e e' : Expected} {id : Nat}
    (h : Inv ⟨l₁ ++ e :: l₂, id⟩) (hnick : e'.nick = e.nick)
    (hurl : e'.data.hubUrl = e.data.hubUrl) (hdownload : e'.isDownload = e.isDownload)
    (hid : e'.data.id = e.data.id)
    (hwaiting : ∀ x ∈ l₁ ++ l₂, x.nick = e.nick → x.data.waiting = true) :
    Inv ⟨l₁ ++ e' :: l₂, id⟩ := by
  have hcons := h.perm (m := ⟨l₁ ++ e :: l₂, id⟩) List.perm_middle.symm
  have hrest := hcons.sublist (List.sublist_cons_self e (l₁ ++ l₂))
  have hunique := (List.pairwise_cons.mp hcons.unique).1
  have hids := (List.pairwise_cons.mp hcons.ids).1
  apply hrest.of_split
  · rw [hid]
    exact h.bound e (by simp)
  · intro x hx heq
    exact .inr (hwaiting x hx (heq.symm.trans hnick))
  · intro x hx heq hxurl
    rw [hdownload]
    exact hunique x hx (hnick.symm.trans heq) (hurl.symm.trans hxurl)
  · intro x hx
    rw [hid]
    exact hids x hx

private theorem inv_add (h : Inv m) {nick myNick hubUrl token : String} {encoding : Int}
    {expires : Nat} (hid : m.id + 1 < uint64Max) :
    Inv (m.add nick myNick hubUrl token encoding expires).2 := by
  have hwaiting : (m.equalRange nick).all (·.data.waiting) = true →
      ∀ x ∈ m.expectedConnections, x.nick = nick → x.data.waiting = true := by
    intro hall x hx hnick
    exact List.all_eq_true.mp hall x (by simp [equalRange, hx, hnick])
  have hmod : (m.id + 1) % 2 ^ 64 = m.id + 1 := Nat.mod_eq_of_lt (by
    rw [uint64Max] at hid
    omega)
  rw [add]
  dsimp only
  split
  · next hnone =>
    rw [hmod]
    have hold : Inv ⟨m.expectedConnections ++ [], m.id + 1⟩ := by
      rw [List.append_nil]
      exact { h with bound := fun e he => Nat.le_succ_of_le (h.bound e he), id := hid }
    have hnosame : ∀ x ∈ m.expectedConnections,
        ¬ (x.nick = nick ∧ x.data.hubUrl = hubUrl ∧ x.isDownload = !token.isEmpty) := by
      intro x hx hsame
      have hany := List.any_eq_false.mp hnone x hx
      exact hany (decide_eq_true hsame)
    apply hold.of_split
    · exact le_rfl
    · intro x hx heq
      rw [List.append_nil] at hx
      by_cases hall : (m.equalRange nick).all (·.data.waiting) = true
      · exact .inr (hwaiting hall x hx heq.symm)
      · left
        simpa using hall
    · intro x hx heq hurl hdownload
      rw [List.append_nil] at hx
      exact hnosame x hx ⟨heq.symm, hurl.symm, hdownload.symm⟩
    · intro x hx heq
      rw [List.append_nil] at hx
      have hle := h.bound x hx
      dsimp only at heq
      omega
  · next hsome =>
    split
    · next hall =>
      rw [Bool.not_eq_false] at hsome
      obtain ⟨l₁, e, l₂, hsplit, he, hmodify⟩ := modifyLast_split
        (fun e => { e with data := { e.data with
          waiting := false, token := token, encoding := encoding, expires := expires } }) hsome
      rw [hmodify]
      have hsame := of_decide_eq_true he
      obtain ⟨l, id⟩ := m
      dsimp only at hsplit h hwaiting ⊢
      subst hsplit
      refine h.activate rfl rfl hsame.2.2.symm rfl ?_
      intro x hx heq
      apply hwaiting hall x _ (heq.trans hsame.1)
      rcases List.mem_append.mp hx with hx | hx
      · simp [hx]
      · simp [hx]
    · exact h

private theorem eraseLast_sublist (p : Expected → Bool) (l : List Expected) :
    (eraseLast p l).Sublist l := by
  induction l with
  | nil => exact .slnil
  | cons e l ih =>
    rw [eraseLast]
    split_ifs
    · exact ih.cons_cons e
    · exact List.sublist_cons_self e l
    · exact .refl _

private theorem removeToken_sublist (token : String) :
    ∃ l, l.Sublist m.expectedConnections ∧
      (m.removeToken toUtf8 token).2 = { m with expectedConnections := l } := by
  rw [removeToken]
  split
  · exact ⟨_, .refl _, rfl⟩
  · exact ⟨_, List.eraseP_sublist, rfl⟩

/-- The ids of the map are still below the largest number. -/
def Room (m : ExpectedNmdcMap) : ExpectedEvent → Prop
  | .add .. => m.id + 1 < uint64Max
  | _ => True

private theorem inv_step (h : Inv m) {e : ExpectedEvent} (hroom : Room m e) :
    Inv (m.step toUtf8 e) := by
  cases e with
  | add nick myNick hubUrl token encoding expires => exact inv_add h hroom
  | remove nick => exact h.sublist (eraseLast_sublist _ _)
  | removeToken token =>
    obtain ⟨l, hl, heq⟩ := removeToken_sublist toUtf8 (m := m) token
    rw [step, heq]
    exact h.sublist hl
  | removeExpired now => exact h.sublist List.filter_sublist
  | rehash order =>
    rw [step]
    split
    · next hperm => exact h.perm (List.isPerm_iff.mp hperm)
    · exact h

/-! ### Handing over -/

/-- The active element of a nick is gone when it was the one that was removed. -/
private theorem removedActive_split {m' : ExpectedNmdcMap} (h : Inv m) {l₁ l₂ : List Expected}
    {a : Expected} (hm : m.expectedConnections = l₁ ++ a :: l₂)
    (hm' : m'.expectedConnections = l₁ ++ l₂) (nick : String) :
    RemovedActive m m' nick ↔ a.nick = nick ∧ a.data.waiting = false := by
  have hids := (List.perm_middle.pairwise_iff (R := fun x y : Expected => x.data.id ≠ y.data.id)
    Ne.symm).mp (hm ▸ h.ids)
  have hgone : a ∉ l₁ ++ l₂ := fun ha => (List.pairwise_cons.mp hids).1 a ha rfl
  constructor
  · rintro ⟨x, hx, hnick, hactive, hnot⟩
    rw [hm] at hx
    rw [hm'] at hnot
    rcases List.mem_cons.mp (List.perm_middle.mem_iff.mp hx) with rfl | hx
    · exact ⟨hnick, hactive⟩
    · exact absurd hx hnot
  · rintro ⟨hnick, hactive⟩
    refine ⟨a, ?_, hnick, hactive, ?_⟩
    · rw [hm]
      simp
    · rwa [hm']

private theorem handsOver_add (nick myNick hubUrl token : String) (encoding : Int)
    (expires : Nat) :
    HandsOver toUtf8 m (.add nick myNick hubUrl token encoding expires) := by
  refine ⟨[], rfl, by simp, fun x => ⟨fun hx => absurd hx (by simp), ?_⟩⟩
  rintro ⟨-, a, ha, -, hactive, hnot⟩
  refine absurd ?_ hnot
  rw [step, add]
  dsimp only
  split
  · simp [ha]
  · next hsome =>
    split
    · next hall =>
      rw [Bool.not_eq_false] at hsome
      obtain ⟨l₁, e, l₂, hsplit, he, hmodify⟩ := modifyLast_split
        (fun e => { e with data := { e.data with
          waiting := false, token := token, encoding := encoding, expires := expires } }) hsome
      rw [hmodify]
      have hne : a ≠ e := by
        rintro rfl
        have hwaiting := List.all_eq_true.mp hall a
          (by simp [equalRange, ha, (of_decide_eq_true he).1])
        rw [hactive] at hwaiting
        cases hwaiting
      rw [hsplit] at ha
      rcases List.mem_append.mp ha with ha | ha
      · simp [ha]
      · rcases List.mem_cons.mp ha with rfl | ha
        · exact absurd rfl hne
        · simp [ha]
    · exact ha

private theorem handsOver_remove (h : Inv m) (nick : String) :
    HandsOver toUtf8 m (.remove nick) := by
  cases hany : m.expectedConnections.any
      fun e => decide (e.nick = nick ∧ e.data.waiting = false) with
  | false =>
    have hnone : m.expectedConnections.filter
        (fun e => decide (e.nick = nick ∧ e.data.waiting = false)) = [] := by
      rw [List.filter_eq_nil_iff]
      exact List.any_eq_false.mp hany
    refine ⟨[], ?_, by simp, fun x => ⟨fun hx => absurd hx (by simp), ?_⟩⟩
    · simp only [handedBack, remove, hnone, List.getLast?_nil, Option.map_none, List.map_nil]
    · rintro ⟨-, a, ha, -, -, hnot⟩
      simp only [step, remove, eraseLast_none hany] at hnot
      exact absurd ha hnot
  | true =>
    obtain ⟨l₁, a, l₂, hsplit, ha, herase⟩ := eraseLast_split hany
    have ha' := of_decide_eq_true ha
    have hmem : a ∈ m.expectedConnections.filter
        fun e => decide (e.nick = nick ∧ e.data.waiting = false) := by
      rw [List.mem_filter, hsplit]
      exact ⟨by simp, ha⟩
    have hafter : (m.step toUtf8 (.remove nick)).expectedConnections = l₁ ++ l₂ := herase
    refine ⟨(nextWaiting (m.equalRange nick)).toList, ?_, ?_, ?_⟩
    · have hlast := List.getLast?_eq_getLast_of_ne_nil (List.ne_nil_of_mem hmem)
      simp only [handedBack, remove, hlast, Option.map_some]
      cases nextWaiting (m.equalRange nick) <;> rfl
    · cases nextWaiting (m.equalRange nick) <;> simp
    · intro x
      -- the loop runs before the element is erased, over the same waiting elements
      have hwaiting : ∀ y : Expected, y.data.waiting = true →
          (y ∈ m.expectedConnections ↔ y ∈ (m.step toUtf8 (.remove nick)).expectedConnections) := by
        intro y hy
        rw [hafter, hsplit, List.perm_middle.mem_iff, List.mem_cons, or_iff_right]
        rintro rfl
        rw [ha'.2] at hy
        cases hy
      have holdest : m.Oldest x ↔ (m.step toUtf8 (.remove nick)).Oldest x := by
        constructor
        · rintro ⟨hx, hxw, hle⟩
          exact ⟨(hwaiting x hxw).mp hx, hxw,
            fun y hy hnick hyw => hle y ((hwaiting y hyw).mpr hy) hnick hyw⟩
        · rintro ⟨hx, hxw, hle⟩
          exact ⟨(hwaiting x hxw).mpr hx, hxw,
            fun y hy hnick hyw => hle y ((hwaiting y hyw).mp hy) hnick hyw⟩
      rw [h.mem_nextWaiting, removedActive_split h hsplit hafter, holdest, and_comm]
      constructor
      · rintro ⟨hold, hnick⟩
        exact ⟨hold, ha'.1.trans hnick.symm, ha'.2⟩
      · rintro ⟨hold, hnick, -⟩
        exact ⟨hold, hnick.symm.trans ha'.1⟩

/-- The element that `removeToken` removes is active, or no other element of its nick waits. -/
def TokenActive (m : ExpectedNmdcMap) (token : String) : Prop :=
  ∀ e, m.expectedConnections.find? (·.data.token = token) = some e → e.data.waiting = true →
    ∀ x ∈ m.expectedConnections.eraseP (·.data.token = token), x.nick = e.nick →
      x.data.waiting = false

private theorem handsOver_removeToken (h : Inv m) {token : String} (htoken : TokenActive m token) :
    HandsOver toUtf8 m (.removeToken token) := by
  have hinv := inv_step toUtf8 h (e := .removeToken token) trivial
  rw [HandsOver, step] at *
  cases hfind : m.expectedConnections.find? (·.data.token = token) with
  | none =>
    refine ⟨[], ?_, by simp, fun x => ⟨fun hx => absurd hx (by simp), ?_⟩⟩
    · simp only [handedBack, removeToken, hfind]
      rfl
    · rintro ⟨-, a, ha, -, -, hnot⟩
      simp only [removeToken, hfind] at hnot
      exact absurd ha hnot
  | some a =>
    have hmap : (m.removeToken toUtf8 token).2 =
        { m with expectedConnections := m.expectedConnections.eraseP (·.data.token = token) } := by
      simp only [removeToken, hfind]
    obtain ⟨ha, l₁, l₂, hsplit, hbefore⟩ := List.find?_eq_some_iff_append.mp hfind
    have hafter : m.expectedConnections.eraseP (·.data.token = token) = l₁ ++ l₂ := by
      rw [hsplit, List.eraseP_append_right _ (fun b hb => by simpa using hbefore b hb),
        List.eraseP_cons_of_pos (p := fun e : Expected => decide (e.data.token = token)) ha]
    refine ⟨(nextWaiting ((m.removeToken toUtf8 token).2.equalRange a.nick)).toList, ?_, ?_, ?_⟩
    · simp only [handedBack, removeToken, hfind]
      cases nextWaiting (equalRange _ a.nick) <;> rfl
    · cases nextWaiting (equalRange _ a.nick) <;> simp
    · intro x
      rw [hinv.mem_nextWaiting, removedActive_split h hsplit (by rw [hmap]; exact hafter), and_comm]
      constructor
      · rintro ⟨hold, hnick⟩
        refine ⟨hold, hnick.symm, ?_⟩
        by_contra hwaiting
        rw [Bool.not_eq_false] at hwaiting
        have hx := hold.1
        rw [hmap] at hx
        have hfalse := htoken a hfind hwaiting x hx hnick
        rw [hold.2.1] at hfalse
        cases hfalse
      · rintro ⟨hold, hnick, -⟩
        exact ⟨hold, hnick.symm⟩

/-- The nicks whose active element has expired are different. -/
private theorem Inv.nodup_expired (h : Inv m) (now : Nat) :
    ((m.expectedConnections.filter fun e =>
      e.data.expires < now ∧ e.data.waiting = false).map (·.nick)).Nodup := by
  rw [List.Nodup, List.pairwise_map]
  apply (h.active.sublist List.filter_sublist).imp_of_mem
  intro a b ha hb hab heq
  have ha' := of_decide_eq_true (List.mem_filter.mp ha).2
  have hb' := of_decide_eq_true (List.mem_filter.mp hb).2
  rcases hab heq with hwaiting | hwaiting
  · rw [ha'.2] at hwaiting
    cases hwaiting
  · rw [hb'.2] at hwaiting
    cases hwaiting

private theorem handsOver_removeExpired (h : Inv m) (now : Nat) :
    HandsOver toUtf8 m (.removeExpired now) := by
  have hinv := inv_step toUtf8 h (e := .removeExpired now) trivial
  let next := fun nick => nextWaiting ((m.step toUtf8 (.removeExpired now)).equalRange nick)
  let tmp := (m.expectedConnections.filter fun e =>
    e.data.expires < now ∧ e.data.waiting = false).map (·.nick)
  have hnext : ∀ nick x, next nick = some x ↔
      x.nick = nick ∧ (m.step toUtf8 (.removeExpired now)).Oldest x := by
    intro nick x
    rw [← hinv.mem_nextWaiting, Option.mem_toList]
  refine ⟨tmp.filterMap next, ?_, ?_, ?_⟩
  · rw [List.map_filterMap]
    rfl
  · rw [List.map_filterMap]
    apply (h.nodup_expired now).filterMap
    intro nick nick' found hfound hfound'
    obtain ⟨x, hx, rfl⟩ := Option.map_eq_some_iff.mp hfound
    obtain ⟨y, hy, hxy⟩ := Option.map_eq_some_iff.mp hfound'
    rw [← ((hnext nick x).mp hx).1, ← ((hnext nick' y).mp hy).1]
    exact hxy.symm
  · intro x
    rw [List.mem_filterMap]
    constructor
    · rintro ⟨nick, hnick, hx⟩
      obtain ⟨rfl, hold⟩ := (hnext nick x).mp hx
      obtain ⟨a, ha, hanick⟩ := List.mem_map.mp hnick
      obtain ⟨hmem, hexpired⟩ := List.mem_filter.mp ha
      have hexpired' := of_decide_eq_true hexpired
      refine ⟨hold, a, hmem, hanick, hexpired'.2, ?_⟩
      intro hin
      exact of_decide_eq_true (List.mem_filter.mp hin).2 hexpired'.1
    · rintro ⟨hold, a, ha, hnick, hactive, hnot⟩
      refine ⟨x.nick, ?_, (hnext x.nick x).mpr ⟨rfl, hold⟩⟩
      rw [List.mem_map]
      refine ⟨a, List.mem_filter.mpr ⟨ha, ?_⟩, hnick⟩
      rw [decide_eq_true_iff]
      refine ⟨?_, hactive⟩
      by_contra hlater
      exact hnot (List.mem_filter.mpr ⟨ha, decide_eq_true hlater⟩)

/-- The operations within which the hand-over is right: the ids do not run out, and `removeToken`
removes an active element, or one of a nick without other waiting elements. -/
def Condition (m : ExpectedNmdcMap) : ExpectedEvent → Prop
  | .removeToken token => TokenActive m token
  | e => Room m e

private theorem Condition.room {e : ExpectedEvent} (h : Condition m e) : Room m e := by
  cases e <;> first | exact h | trivial

private theorem handsOver_step (h : Inv m) {e : ExpectedEvent} (hcond : Condition m e) :
    HandsOver toUtf8 m e := by
  cases e with
  | add nick myNick hubUrl token encoding expires =>
    exact handsOver_add toUtf8 nick myNick hubUrl token encoding expires
  | remove nick => exact handsOver_remove toUtf8 h nick
  | removeToken token => exact handsOver_removeToken toUtf8 h hcond
  | removeExpired now => exact handsOver_removeExpired toUtf8 h now
  | rehash order =>
    refine ⟨[], rfl, by simp, fun x => ⟨fun hx => absurd hx (by simp), ?_⟩⟩
    rintro ⟨-, a, ha, -, -, hnot⟩
    refine absurd ?_ hnot
    rw [step]
    split
    · next hperm => exact (List.isPerm_iff.mp hperm).mem_iff.mpr ha
    · exact ha

/-- In every run within the condition, at most one element of a nick is active, a nick has one
element for each hub and direction, and every operation hands back what it has to. -/
theorem handsOver_run (es : List ExpectedEvent) (e : ExpectedEvent)
    (h : Within Condition (step toUtf8) init (es ++ [e])) :
    Expects (run (step toUtf8) init (es ++ [e])) ∧
      HandsOver toUtf8 (run (step toUtf8) init es) e := by
  obtain ⟨hes, he, -⟩ := (within_append ..).mp h
  have hinv : Inv (run (step toUtf8) init es) :=
    hes.invariant Inv (fun _ _ hm hcond => inv_step toUtf8 hm hcond.room) inv_init
  refine ⟨?_, handsOver_step toUtf8 hinv he⟩
  rw [run_append]
  exact (inv_step toUtf8 hinv he.room).toExpects

/-- A user is expected from two hubs, then the first connection comes. -/
theorem handsOver_run_two_hubs :
    Within Condition (step fun nick _ => nick) init
        ([ExpectedEvent.add "user" "me" "hub1" "t1" 0 100, .add "user" "me" "hub2" "t2" 0 100] ++
          [ExpectedEvent.remove "user"]) ∧
      Expects (run (step fun nick _ => nick) init
        ([ExpectedEvent.add "user" "me" "hub1" "t1" 0 100, .add "user" "me" "hub2" "t2" 0 100] ++
          [ExpectedEvent.remove "user"])) ∧
      HandsOver (fun nick _ => nick) (run (step fun nick _ => nick) init
        [.add "user" "me" "hub1" "t1" 0 100, .add "user" "me" "hub2" "t2" 0 100])
        (.remove "user") := by
  have hwithin : Within Condition (step fun nick _ => nick) init
      ([ExpectedEvent.add "user" "me" "hub1" "t1" 0 100, .add "user" "me" "hub2" "t2" 0 100] ++
        [ExpectedEvent.remove "user"]) := by
    refine ⟨?_, ?_, trivial, trivial⟩
    · show 1 < uint64Max
      decide
    · show 2 < uint64Max
      decide
  exact ⟨hwithin, handsOver_run (fun nick _ => nick) _ _ hwithin⟩

/-- A user is expected from three hubs, and the token of the second connection, which waits, is
removed: the third one is handed back though the first one is still expected. -/
theorem not_handsOver_waiting_token :
    ¬ HandsOver (fun nick _ => nick) (run (step fun nick _ => nick) init
        [.add "user" "me" "hub1" "t1" 0 100, .add "user" "me" "hub2" "t2" 0 100,
          .add "user" "me" "hub3" "t3" 0 100])
        (.removeToken "t2") := by
  rintro ⟨chosen, hback, -, hchosen⟩
  have hlength := congrArg List.length hback
  cases chosen with
  | nil =>
    revert hlength
    decide
  | cons x chosen =>
    obtain ⟨-, a, ha, -, hactive, hnot⟩ := (hchosen x).mp (by simp)
    revert a
    decide

end ExpectedNmdcMap

end Blacklink.Connections
