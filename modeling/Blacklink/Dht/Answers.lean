import Blacklink.Dht.Packets

/-!
# Responses and requests

Every response that `checkFlood` (`client/dht/Utils.cpp:72-129`) accepts takes one request out of
`sentPackets`. The requests are numbered by their places in the run, and a ledger keeps the numbers
of those still in the table. The age of a request is looked at when another packet is sent, and not
when it is answered.
-/

namespace Blacklink.Dht

open Blacklink.Adc Blacklink.Base

namespace Packets

/-- The first request in the table that the response can answer. -/
def oldest (t : Packets) (ip : UInt32) (cmd : AdcCommand) : Option OutPacket :=
  t.sentPackets.find? (OutPacket.isRequest ip (CommandName.requestCmd cmd.cmdChar))

/-- The command is a response that is accepted. -/
def Answered (t : Packets) (ip : UInt32) (cmd : AdcCommand) : Prop :=
  CommandName.IsResponse cmd.cmdChar ∧ (t.checkFlood ip cmd).1 = true

/-- `m` takes the place of each accepted response to the place of the request it uses up. -/
structure Matches (es : List PacketEvent) (m : Nat → Nat) : Prop where
  request : ∀ pre ip cmd tick, pre ++ [.received ip cmd tick] <+: es →
    (run step init pre).Answered ip cmd →
      ∃ request now, pre[m pre.length]? = some (.sent ip request now) ∧
        request.cmdChar = CommandName.requestCmd cmd.cmdChar ∧
        (run step init pre).oldest ip cmd = some ⟨ip, now, request.cmdChar⟩
  distinct : ∀ pre ip cmd tick pre' ip' cmd' tick',
    pre ++ [.received ip cmd tick] <+: es → (run step init pre).Answered ip cmd →
    pre' ++ [.received ip' cmd' tick'] <+: es → (run step init pre').Answered ip' cmd' →
    m pre.length = m pre'.length → pre.length = pre'.length

/-- Every accepted response comes no later than `TIME_FOR_RESPONSE` after its request. -/
def InTime (es : List PacketEvent) (m : Nat → Nat) : Prop :=
  ∀ pre ip cmd tick request now, pre ++ [.received ip cmd tick] <+: es →
    (run step init pre).Answered ip cmd → pre[m pre.length]? = some (.sent ip request now) →
      tick.toNat ≤ now.toNat + timeForResponse.toNat

/-- The first request in the table that a received response can answer is not too old. -/
def Condition (t : Packets) : PacketEvent → Prop
  | .received ip cmd tick =>
    CommandName.IsResponse cmd.cmdChar → cmd.parameters ≠ [] →
      ∀ p, t.oldest ip cmd = some p → tick.toNat ≤ p.time.toNat + timeForResponse.toNat
  | _ => True

/-- The requests in the table with their places in the run. -/
structure Ledger (es : List PacketEvent) (m : Nat → Nat) (book : List (Nat × OutPacket)) :
    Prop where
  answers : Matches es m
  tracked : book.map Prod.snd = (run step init es).sentPackets
  sent : ∀ entry ∈ book, ∃ request, es[entry.1]? = some (.sent entry.2.ip request entry.2.time) ∧
    request.cmdChar = entry.2.cmd
  nodup : (book.map Prod.fst).Nodup
  unused : ∀ pre ip cmd tick, pre ++ [.received ip cmd tick] <+: es →
    (run step init pre).Answered ip cmd → m pre.length ∉ book.map Prod.fst

/-! ### The ledger -/

variable {es : List PacketEvent} {e : PacketEvent} {m : Nat → Nat} {book : List (Nat × OutPacket)}

private theorem prefix_concat_cases {pre : List PacketEvent} {x : PacketEvent}
    (h : pre ++ [x] <+: es ++ [e]) : (pre = es ∧ x = e) ∨ pre ++ [x] <+: es := by
  rcases List.prefix_concat_iff.mp h with heq | h
  · exact .inl (List.append_singleton_inj.mp heq)
  · exact .inr h

private theorem length_lt_of_init {pre : List PacketEvent} {x : PacketEvent}
    (h : pre ++ [x] <+: es) : pre.length < es.length := by
  have hle := h.length_le
  rw [List.length_append] at hle
  exact hle

private theorem lt_of_getElem? {pre : List PacketEvent} {i : Nat} {x : PacketEvent}
    (h : pre[i]? = some x) : i < pre.length := (List.getElem?_eq_some_iff.mp h).1

/-- The response that is not accepted, or that is none. -/
def NotAnswered (t : Packets) (e : PacketEvent) : Prop :=
  ∀ ip cmd tick, e = .received ip cmd tick → ¬ t.Answered ip cmd

private theorem Matches.unanswered (h : Matches es m)
    (hnot : (run step init es).NotAnswered e) : Matches (es ++ [e]) m := by
  constructor
  · intro pre ip cmd tick hpre hanswered
    rcases prefix_concat_cases hpre with ⟨rfl, heq⟩ | hpre
    · exact absurd hanswered (hnot ip cmd tick heq.symm)
    · exact h.request pre ip cmd tick hpre hanswered
  · intro pre ip cmd tick pre' ip' cmd' tick' hpre hanswered hpre' hanswered' hm
    rcases prefix_concat_cases hpre with ⟨rfl, heq⟩ | hpre
    · exact absurd hanswered (hnot ip cmd tick heq.symm)
    rcases prefix_concat_cases hpre' with ⟨rfl, heq⟩ | hpre'
    · exact absurd hanswered' (hnot ip' cmd' tick' heq.symm)
    exact h.distinct pre ip cmd tick pre' ip' cmd' tick' hpre hanswered hpre' hanswered' hm

/-- An entry is a request sent before. -/
theorem Ledger.lt_length (h : Ledger es m book) {entry : Nat × OutPacket} (he : entry ∈ book) :
    entry.1 < es.length := by
  obtain ⟨_, hsent, -⟩ := h.sent entry he
  exact lt_of_getElem? hsent

/-- Without an accepted response the ledger loses entries, or gets the packet that is sent. -/
theorem Ledger.unanswered (h : Ledger es m book) (hnot : (run step init es).NotAnswered e)
    {book' : List (Nat × OutPacket)}
    (htracked : book'.map Prod.snd = (run step init (es ++ [e])).sentPackets)
    (hentries : ∀ entry ∈ book', entry ∈ book ∨
      entry.1 = es.length ∧ ∃ request, e = .sent entry.2.ip request entry.2.time ∧
        request.cmdChar = entry.2.cmd)
    (hnodup : (book'.map Prod.fst).Nodup) : Ledger (es ++ [e]) m book' := by
  refine ⟨h.answers.unanswered hnot, htracked, ?_, hnodup, ?_⟩
  · intro entry hentry
    rcases hentries entry hentry with hold | ⟨hplace, request, rfl, hcmd⟩
    · obtain ⟨request, hsent, hcmd⟩ := h.sent entry hold
      refine ⟨request, ?_, hcmd⟩
      rw [List.getElem?_append_left (h.lt_length hold)]
      exact hsent
    · refine ⟨request, ?_, hcmd⟩
      rw [hplace, List.getElem?_concat_length]
  · intro pre ip cmd tick hpre hanswered hmem
    rcases prefix_concat_cases hpre with ⟨rfl, heq⟩ | hpre
    · exact hnot ip cmd tick heq.symm hanswered
    obtain ⟨entry, hentry, hplace⟩ := List.mem_map.mp hmem
    rcases hentries entry hentry with hold | ⟨hnew, -⟩
    · exact h.unused pre ip cmd tick hpre hanswered (List.mem_map.mpr ⟨entry, hold, hplace⟩)
    · obtain ⟨_, _, hrequest, -⟩ := h.answers.request pre ip cmd tick hpre hanswered
      have hlt := lt_of_getElem? hrequest
      have hlength := length_lt_of_init hpre
      omega

/-- A response is accepted if it has parameters and a request that it can answer is in the
table. -/
theorem answered_iff {t : Packets} {ip : UInt32} {cmd : AdcCommand} :
    t.Answered ip cmd ↔ CommandName.IsResponse cmd.cmdChar ∧ cmd.parameters ≠ [] ∧
      (t.oldest ip cmd).isSome = true := by
  refine and_congr_right fun hresponse => ?_
  have hsta : cmd.cmdChar ≠ CommandName.sta := by
    intro heq
    rw [heq] at hresponse
    revert hresponse
    decide
  unfold checkFlood oldest
  rw [if_neg hsta, if_pos hresponse]
  by_cases hparams : cmd.parameters = []
  · rw [if_pos hparams]
    exact iff_of_false Bool.noConfusion fun h => h.1 hparams
  · rw [if_neg hparams, List.find?_isSome, ← List.any_eq_true]
    dsimp only
    split
    · next hany => exact iff_of_true rfl ⟨hparams, hany⟩
    · next hany => exact iff_of_false Bool.noConfusion fun h => hany h.2

private theorem sentPackets_of_answered {t : Packets} {ip : UInt32} {cmd : AdcCommand}
    (h : t.Answered ip cmd) (tick : UInt64) :
    (t.step (.received ip cmd tick)).sentPackets =
      t.sentPackets.eraseP (OutPacket.isRequest ip (CommandName.requestCmd cmd.cmdChar)) := by
  have hsome := (answered_iff.mp h).2.2
  rw [step]
  rcases t.checkFlood_cases ip cmd with ⟨_, heq, hsta⟩ | ⟨-, -, -, heq⟩ | ⟨hnot, -⟩
  · have hcmd := h.1
    have htrue := h.2
    rw [heq] at htrue
    rw [hsta htrue] at hcmd
    exact absurd hcmd (by decide)
  · rw [heq]
  · exact absurd h.1 hnot

private theorem sentPackets_of_not_answered {t : Packets} {e : PacketEvent}
    (h : t.NotAnswered e) (hsent : ∀ ip cmd now, e ≠ .sent ip cmd now) :
    (t.step e).sentPackets = t.sentPackets := by
  cases e with
  | received ip cmd tick =>
    rw [step]
    rcases t.checkFlood_cases ip cmd with ⟨_, heq, -⟩ | ⟨hresponse, -, -, heq⟩ | ⟨-, heq⟩
    · rw [heq]
    · exact absurd ⟨hresponse, congrArg Prod.fst heq⟩ (h ip cmd tick rfl)
    · rw [heq]
  | sent ip cmd now => exact absurd rfl (hsent ip cmd now)
  | cleanFlood => rfl

/-- An accepted response takes its entry out of the ledger. -/
theorem Ledger.answered (h : Ledger es m book) {ip : UInt32} {cmd : AdcCommand} {tick : UInt64}
    (hanswered : (run step init es).Answered ip cmd) :
    ∃ m' book', Ledger (es ++ [.received ip cmd tick]) m' book' := by
  have herased := sentPackets_of_answered hanswered tick
  obtain ⟨packet, hpacket⟩ := Option.isSome_iff_exists.mp (answered_iff.mp hanswered).2.2
  obtain ⟨hmatch, ls, rs, hsplit, hbefore⟩ := List.find?_eq_some_iff_append.mp hpacket
  have hsplit' := h.tracked.trans hsplit
  obtain ⟨before, rest, hbook, hls, hrest⟩ := List.map_eq_append_iff.mp hsplit'
  obtain ⟨entry, behind, hcons, hentry, hrs⟩ := List.map_eq_cons_iff.mp hrest
  rw [hcons] at hbook
  have hmem : entry ∈ book := by
    rw [hbook]
    exact List.mem_append_right _ List.mem_cons_self
  have hsub : (before ++ behind).Sublist book := by
    rw [hbook]
    exact (List.sublist_cons_self _ _).append_left _
  have hmissing : entry.1 ∉ (before ++ behind).map Prod.fst := by
    have hnodup := h.nodup
    rw [hbook, List.map_append, List.map_cons, List.nodup_middle] at hnodup
    rw [List.map_append]
    exact (List.nodup_cons.mp hnodup).1
  have hplace : entry.1 ∈ book.map Prod.fst := List.mem_map_of_mem hmem
  obtain ⟨request, hsent, hcmd⟩ := h.sent entry hmem
  rw [hentry] at hsent hcmd
  obtain ⟨hname, hip⟩ := Bool.and_eq_true_iff.mp hmatch
  have hname := of_decide_eq_true hname
  have hip : packet.ip = ip := of_decide_eq_true hip
  have hold : ∀ pre x, pre ++ [x] <+: es →
      Function.update m es.length entry.1 pre.length = m pre.length :=
    fun pre x hpre => Function.update_of_ne (Nat.ne_of_lt (length_lt_of_init hpre)) _ _
  refine ⟨Function.update m es.length entry.1, before ++ behind, ⟨?_, ?_⟩, ?_, ?_, ?_, ?_⟩
  · intro pre ip' cmd' tick' hpre hanswered'
    rcases prefix_concat_cases hpre with ⟨rfl, heq⟩ | hpre
    · cases heq
      rw [Function.update_self]
      refine ⟨request, packet.time, hip ▸ hsent, hcmd.trans hname, hpacket.trans ?_⟩
      rw [hcmd, ← hip]
    · rw [hold pre _ hpre]
      exact h.answers.request pre ip' cmd' tick' hpre hanswered'
  · intro pre ip₁ cmd₁ tick₁ pre' ip₂ cmd₂ tick₂ hpre hanswered₁ hpre' hanswered₂ hm
    rcases prefix_concat_cases hpre with ⟨hes, -⟩ | hpre <;>
      rcases prefix_concat_cases hpre' with ⟨hes', -⟩ | hpre'
    · rw [hes, hes']
    · rw [hes, Function.update_self, hold pre' _ hpre'] at hm
      rw [hm] at hplace
      refine absurd hplace ?_
      exact h.unused pre' ip₂ cmd₂ tick₂ hpre' hanswered₂
    · rw [hes', Function.update_self, hold pre _ hpre] at hm
      rw [← hm] at hplace
      refine absurd hplace ?_
      exact h.unused pre ip₁ cmd₁ tick₁ hpre hanswered₁
    · rw [hold pre _ hpre, hold pre' _ hpre'] at hm
      exact h.answers.distinct pre ip₁ cmd₁ tick₁ pre' ip₂ cmd₂ tick₂ hpre hanswered₁ hpre'
        hanswered₂ hm
  · have hnone : ∀ b ∈ ls, ¬ OutPacket.isRequest ip (CommandName.requestCmd cmd.cmdChar) b = true :=
      fun b hb => Bool.not_eq_true _ ▸ Bool.not_eq_true' _ ▸ hbefore b hb
    rw [run_append, run_cons, run_nil, herased, hsplit, List.eraseP_append_right _ hnone,
      List.eraseP_cons_of_pos hmatch, List.map_append, hls, hrs]
  · intro other hother
    obtain ⟨request', hsent', hcmd'⟩ := h.sent other (hsub.subset hother)
    refine ⟨request', ?_, hcmd'⟩
    rw [List.getElem?_append_left (h.lt_length (hsub.subset hother))]
    exact hsent'
  · exact h.nodup.sublist (hsub.map _)
  · intro pre ip' cmd' tick' hpre hanswered'
    rcases prefix_concat_cases hpre with ⟨hes, -⟩ | hpre
    · rw [hes, Function.update_self]
      exact hmissing
    · rw [hold pre _ hpre]
      exact fun hin => h.unused pre ip' cmd' tick' hpre hanswered' ((hsub.map _).subset hin)

/-- A packet that is sent enters the ledger, and the oldest entries may leave it. -/
theorem Ledger.tracked_sent (h : Ledger es m book) (ip : UInt32) (cmd : AdcCommand)
    (now : UInt64) : ∃ book', Ledger (es ++ [.sent ip cmd now]) m book' := by
  have hnot : (run step init es).NotAnswered (.sent ip cmd now) := by
    intro _ _ _ heq
    cases heq
  have hrun : (run step init (es ++ [.sent ip cmd now])).sentPackets =
      ((run step init es).trackOutgoingPacket ip cmd now).sentPackets := by
    rw [run_append]
    rfl
  have hfull : ∃ full : List (Nat × OutPacket),
      full.map Prod.snd =
          (if CommandName.IsTracked cmd.cmdChar then
            (run step init es).sentPackets ++ [⟨ip, now, cmd.cmdChar⟩]
          else (run step init es).sentPackets) ∧
        (∀ entry ∈ full, entry ∈ book ∨ entry = (es.length, ⟨ip, now, cmd.cmdChar⟩)) ∧
        (full.map Prod.fst).Nodup := by
    split
    · refine ⟨book ++ [(es.length, ⟨ip, now, cmd.cmdChar⟩)], ?_, ?_, ?_⟩
      · rw [List.map_append, h.tracked]
        rfl
      · intro entry hentry
        rcases List.mem_append.mp hentry with hold | hnew
        · exact .inl hold
        · exact .inr (List.mem_singleton.mp hnew)
      · rw [List.map_append, List.nodup_append]
        refine ⟨h.nodup, List.nodup_singleton _, ?_⟩
        intro place hplace place' hplace'
        obtain ⟨entry, hentry, rfl⟩ := List.mem_map.mp hplace
        rw [List.mem_singleton.mp hplace']
        exact Nat.ne_of_lt (h.lt_length hentry)
    · exact ⟨book, h.tracked, fun entry hentry => .inl hentry, h.nodup⟩
  obtain ⟨full, htracked, hentries, hnodup⟩ := hfull
  obtain ⟨dropped, hdropped⟩ := List.dropWhile_suffix (l := full.map Prod.snd)
    fun p => decide (timeForResponse ≤ now - p.time)
  obtain ⟨front, back, rfl, -, hback⟩ := List.map_eq_append_iff.mp hdropped.symm
  refine ⟨back, h.unanswered hnot ?_ ?_ ?_⟩
  · rw [hrun, hback, htracked]
    rfl
  · intro entry hentry
    rcases hentries entry (List.mem_append_right _ hentry) with hold | rfl
    · exact .inl hold
    · exact .inr ⟨rfl, cmd, rfl, rfl⟩
  · exact hnodup.sublist ((List.sublist_append_right _ _).map _)

/-- Every event keeps a ledger. -/
theorem Ledger.step (h : Ledger es m book) (e : PacketEvent) :
    ∃ m' book', Ledger (es ++ [e]) m' book' := by
  by_cases hsent : ∃ ip cmd now, e = .sent ip cmd now
  · obtain ⟨ip, cmd, now, rfl⟩ := hsent
    exact ⟨m, h.tracked_sent ip cmd now⟩
  by_cases hnot : (run Packets.step init es).NotAnswered e
  · refine ⟨m, book, h.unanswered hnot ?_ (fun entry hentry => .inl hentry) h.nodup⟩
    rw [run_append, run_cons, run_nil, sentPackets_of_not_answered hnot, h.tracked]
    exact fun ip cmd now heq => hsent ⟨ip, cmd, now, heq⟩
  · unfold NotAnswered at hnot
    push Not at hnot
    obtain ⟨ip, cmd, tick, rfl, hanswered⟩ := hnot
    exact h.answered hanswered

theorem exists_ledger (es : List PacketEvent) : ∃ m book, Ledger es m book := by
  induction es using List.reverseRecOn with
  | nil =>
    have hnone : ∀ pre (x : PacketEvent), ¬ pre ++ [x] <+: [] := fun pre x h =>
      List.append_ne_nil_of_right_ne_nil pre (List.cons_ne_nil x []) (List.prefix_nil.mp h)
    refine ⟨id, [], ⟨?_, ?_⟩, rfl, ?_, List.nodup_nil, ?_⟩
    · exact fun pre _ _ _ h => absurd h (hnone pre _)
    · exact fun pre _ _ _ _ _ _ _ h => absurd h (hnone pre _)
    · exact fun entry h => absurd h List.not_mem_nil
    · exact fun pre _ _ _ h => absurd h (hnone pre _)
  | append_singleton es e ih =>
    obtain ⟨m, book, h⟩ := ih
    exact h.step e

/-- The responses are in time if and only if no request has become too old when it is used. -/
theorem Matches.inTime_iff (h : Matches es m) :
    InTime es m ↔ Within Condition step init es := by
  rw [within_iff_forall_init]
  constructor
  · intro htime pre e hpre
    cases e with
    | received ip cmd tick =>
      intro hresponse hparams p hp
      have hanswered : (run step init pre).Answered ip cmd :=
        answered_iff.mpr ⟨hresponse, hparams, Option.isSome_iff_exists.mpr ⟨p, hp⟩⟩
      obtain ⟨request, now, hrequest, -, hused⟩ := h.request pre ip cmd tick hpre hanswered
      cases hp.symm.trans hused
      exact htime pre ip cmd tick request now hpre hanswered hrequest
    | sent ip cmd now => exact True.intro
    | cleanFlood => exact True.intro
  · intro hok pre ip cmd tick request now hpre hanswered hrequest
    obtain ⟨hresponse, hparams, -⟩ := answered_iff.mp hanswered
    obtain ⟨request', now', hrequest', -, hused⟩ := h.request pre ip cmd tick hpre hanswered
    cases hrequest.symm.trans hrequest'
    exact hok pre _ hpre hresponse hparams _ hused

/-- In every run the accepted requests keep their limits between two clean-ups, and every accepted
response uses up a request of its own, which was sent to the address of the response. They all come
in time if and only if no response is received while the first request in the table that it can
answer is older than `TIME_FOR_RESPONSE`. -/
theorem accepted_run_iff (es : List PacketEvent) :
    (∀ ip name pre window, pre ++ window <+: es → PacketEvent.cleanFlood ∉ window →
        name ≠ CommandName.sta → ¬ name.IsResponse →
        accepted ip name (run step init pre) window ≤ name.maxAllowedPacketsPerMinute) ∧
      ∃ m, Matches es m ∧ (InTime es m ↔ Within Condition step init es) := by
  constructor
  · intro ip name pre window _ hclean hsta hresponse
    exact (accepted_le_sub hsta hresponse _ hclean).trans (Nat.sub_le _ _)
  · obtain ⟨m, book, h⟩ := exists_ledger es
    exact ⟨m, h.answers, h.answers.inTime_iff⟩

/-- A command with the name and one parameter. -/
def oneParameter (name : CommandName) : AdcCommand :=
  { AdcCommand.empty with type := .udp, cmdChar := name, parameters := [[65]] }

/-- A request, and a response that comes one millisecond too late. -/
def lateResponse : List PacketEvent :=
  [.sent 0x08080808 (oneParameter .get) 0, .received 0x08080808 (oneParameter .snd) 180001]

/-- The late response is accepted. -/
theorem not_inTime_late_response : ¬ ∃ m, Matches lateResponse m ∧ InTime lateResponse m := by
  rintro ⟨m, hmatches, htime⟩
  obtain ⟨-, hage, -⟩ := hmatches.inTime_iff.mp htime
  have hlate := hage (by decide) (by decide) ⟨0x08080808, 0, .get⟩ (by decide)
  revert hlate
  decide

end Packets

end Blacklink.Dht
