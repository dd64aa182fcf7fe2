import Blacklink.Stream.OutputStream

/-!
# A streaming decoder

What `UnZFilter::operator()` (`client/ZUtils.cpp`) does with the library's `inflate`, which is a
parameter: a call takes some of the input and puts out some of the text that the input taken so far
decodes to. It stops where the input or the room for the output is used up, so that with room left
nothing of the text is held back.
-/

namespace Blacklink.Stream

/-- A decoder with its calls, and what a state has taken and put out. `text` is what the beginning
of a stream decodes to. -/
structure Inflater (φ : Type) where
  start : φ
  apply : φ → List UInt8 → Nat → FilterResult φ
  seen : φ → List UInt8
  given : φ → Nat
  text : List UInt8 → List UInt8

namespace Inflater

variable {φ : Type} (F : Inflater φ)

/-- What a call with input and room does that does not fail. -/
structure Effect (st : φ) (input : List UInt8) (room : Nat) (r : FilterResult φ) : Prop where
  taken : r.consumed ≤ input.length
  seen : F.seen r.next = F.seen st ++ input.take r.consumed
  given : F.given r.next = F.given st + r.out.length
  out : r.out <+: (F.text (F.seen r.next)).drop (F.given st)
  fits : r.out.length ≤ room
  flushed : r.status = .more → r.out.length < room →
    r.consumed = input.length ∧ (F.text (F.seen r.next)).length ≤ F.given r.next
  ended : r.status = .ended → (F.text (F.seen r.next)).length ≤ F.given r.next ∧
    ∀ rest, F.text (F.seen r.next ++ rest) = F.text (F.seen r.next)
  progress : r.status = .more → 0 < r.consumed ∨ r.out ≠ []

/-- The documented behaviour of `inflate`. -/
structure Correct : Prop where
  seen_start : F.seen F.start = []
  given_start : F.given F.start = 0
  text_nil : F.text [] = []
  text_append : ∀ p q, F.text p <+: F.text (p ++ q)
  effect : ∀ st input room, input ≠ [] → 0 < room → (F.apply st input room).status ≠ .error →
    F.Effect st input room (F.apply st input room)

/-! ### A decoder for one stream -/

/-- The bytes of a stream, each with the text that it completes. -/
abbrev Pieces := List (UInt8 × List UInt8)

namespace Pieces

/-- How many bytes of a text are those of the stream. -/
def common : Pieces → List UInt8 → Nat
  | (b, _) :: z, c :: p => if b = c then common z p + 1 else 0
  | _, _ => 0

/-- The text of the first bytes. -/
def textOf (z : Pieces) (n : Nat) : List UInt8 := (z.take n).flatMap Prod.snd

/-- The decoder that knows the stream. It takes the bytes at once and holds the text back; a state
is what it has taken and how much it has put out. -/
def inflater (z : Pieces) : Inflater (List UInt8 × Nat) where
  start := ([], 0)
  seen := Prod.fst
  given := Prod.snd
  text p := textOf z (common z p)
  apply st input room :=
    let consumed := min input.length (z.length - st.1.length)
    let p := st.1 ++ input.take consumed
    let out := ((textOf z p.length).drop st.2).take room
    let next := (p, st.2 + out.length)
    { consumed := consumed
      out := out
      next := next
      status :=
        if common z p ≠ p.length ∨ (textOf z p.length).length < st.2 ∨ consumed = 0 ∧ out = [] then
          .error
        else if p.length = z.length ∧ (textOf z p.length).length = next.2 then .ended
        else .more }

theorem common_le (z : Pieces) (p : List UInt8) : common z p ≤ z.length := by
  induction z generalizing p with
  | nil => exact Nat.zero_le _
  | cons e z ih =>
    cases p with
    | nil => exact Nat.zero_le _
    | cons c p =>
      rw [common, List.length_cons]
      split
      · exact Nat.succ_le_succ (ih p)
      · exact Nat.zero_le _

theorem common_append (z : Pieces) (p q : List UInt8) : common z p ≤ common z (p ++ q) := by
  induction z generalizing p with
  | nil => exact Nat.zero_le _
  | cons e z ih =>
    cases p with
    | nil => exact Nat.zero_le _
    | cons c p =>
      rw [List.cons_append, common, common]
      split
      · exact Nat.succ_le_succ (ih p)
      · exact Nat.le_refl _

theorem textOf_prefix (z : Pieces) {m n : Nat} (h : m ≤ n) : textOf z m <+: textOf z n := by
  have htake : z.take n = z.take m ++ (z.drop m).take (n - m) := by
    rw [← List.take_add, Nat.add_sub_cancel' h]
  rw [textOf, textOf, htake, List.flatMap_append]
  exact List.prefix_append _ _

theorem correct_inflater (z : Pieces) : (inflater z).Correct where
  seen_start := rfl
  given_start := rfl
  text_nil := by
    cases z <;> rfl
  text_append p q := textOf_prefix z (common_append z p q)
  effect st input room _ _ := by
    intro hstatus
    change (if _ then FilterStatus.error else _) ≠ _ at hstatus
    let consumed := min input.length (z.length - st.1.length)
    let p := st.1 ++ input.take consumed
    let out := ((textOf z p.length).drop st.2).take room
    by_cases hbad : common z p ≠ p.length ∨ (textOf z p.length).length < st.2 ∨
        consumed = 0 ∧ out = []
    · exact absurd (if_pos hbad) hstatus
    · have hstat : ((inflater z).apply st input room).status =
          if p.length = z.length ∧ (textOf z p.length).length = st.2 + out.length then .ended
          else .more := if_neg hbad
      rw [not_or, not_or, not_not, Nat.not_lt, not_and_or] at hbad
      obtain ⟨hcommon, hle, hprogress⟩ := hbad
      have hlen : p.length = st.1.length + consumed := by
        rw [List.length_append, List.length_take, Nat.min_eq_left (Nat.min_le_left _ _)]
      have hpz : p.length ≤ z.length := hcommon ▸ common_le z p
      have htext : (inflater z).text p = textOf z p.length := by
        rw [← hcommon]
        rfl
      have hout : out.length = min room ((textOf z p.length).length - st.2) := by
        rw [List.length_take, List.length_drop]
      have hall : p.length = z.length → ∀ rest,
          (inflater z).text (p ++ rest) = (inflater z).text p := by
        intro hfull rest
        have hlow := common_append z p rest
        have hhigh := common_le z (p ++ rest)
        change textOf z (common z (p ++ rest)) = textOf z (common z p)
        rw [show common z (p ++ rest) = common z p by omega]
      constructor
      · exact Nat.min_le_left _ _
      · rfl
      · rfl
      · change out <+: ((inflater z).text p).drop st.2
        rw [htext]
        exact List.take_prefix _ _
      · change out.length ≤ room
        omega
      · intro hmore hroom
        have hnot : ¬ (p.length = z.length ∧
            (textOf z p.length).length = st.2 + out.length) := by
          intro hend
          rw [hstat, if_pos hend] at hmore
          cases hmore
        have hconsumed : consumed = min input.length (z.length - st.1.length) := rfl
        change out.length < room at hroom
        change consumed = input.length ∧ ((inflater z).text p).length ≤ st.2 + out.length
        rw [htext]
        omega
      · intro hended
        have hend : p.length = z.length ∧
            (textOf z p.length).length = st.2 + out.length := by
          by_contra hnot
          rw [hstat, if_neg hnot] at hended
          cases hended
        refine ⟨?_, hall hend.1⟩
        change ((inflater z).text p).length ≤ st.2 + out.length
        rw [htext, hend.2]
      · intro _
        rcases hprogress with hc | ho
        · exact .inl (Nat.pos_of_ne_zero hc)
        · exact .inr ho

end Pieces

end Inflater

end Blacklink.Stream
