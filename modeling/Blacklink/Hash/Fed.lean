import Blacklink.Hash.TreeHash

/-!
# What a tree is that was fed in any pieces

Pieces that are not whole base blocks are hashed all the same, each up to its end. Without
collisions the leaves are those of the whole string only when all pieces but the last are whole.
-/

namespace Blacklink.Hash

open Blacklink.Base

variable {V : Type}

/-- A base block and a node, and nodes of different children, never have the same hash. -/
structure Hasher.CollisionFree (H : Hasher V) : Prop where
  hashBlock : Function.Injective H.hashBlock
  combine : Function.Injective2 H.combine
  apart : ∀ data a b, H.hashBlock data ≠ H.combine a b

/-- A hash without collisions: the string itself, and bytes that say where they end. -/
def Hasher.plain : Hasher (List UInt8) where
  digest := id
  data := fun a => a.flatMap (fun b => [1, b]) ++ [0]
  zero := []

private theorem plain_data_append {a b x y : List UInt8}
    (h : Hasher.plain.data a ++ x = Hasher.plain.data b ++ y) : a = b ∧ x = y := by
  induction a generalizing b with
  | nil =>
    cases b with
    | nil => exact ⟨rfl, (List.cons.inj h).2⟩
    | cons d b => exact absurd (List.cons.inj h).1 (by decide)
  | cons c a ih =>
    cases b with
    | nil => exact absurd (List.cons.inj h).1 (by decide)
    | cons d b =>
      obtain ⟨rfl, htail⟩ := List.cons.inj (List.cons.inj h).2
      obtain ⟨rfl, hrest⟩ := ih htail
      exact ⟨rfl, hrest⟩

theorem Hasher.plain_collisionFree : Hasher.plain.CollisionFree := by
  constructor
  · intro a b h
    exact (List.cons.inj h).2
  · intro a b c d h
    obtain ⟨hac, hbd⟩ := plain_data_append (List.cons.inj h).2
    refine ⟨hac, ?_⟩
    rw [← List.append_nil (Hasher.plain.data c), ← List.append_nil (Hasher.plain.data d)] at hbd
    exact (plain_data_append hbd).1
  · intro data a b h
    exact absurd (List.cons.inj h).1 (by decide)

variable {H : Hasher V}

/-! ### Trees without collisions -/

/-- A list of two or more as a full tree and one that is no higher. -/
private theorem exists_split {hs : List V} (h : 1 < hs.length) :
    ∃ l m k, hs = l ++ m ∧ l.length = 2 ^ k ∧ m ≠ [] ∧ m.length ≤ 2 ^ k := by
  have hk : 2 ^ Nat.log2 (hs.length - 1) ≤ hs.length - 1 := Nat.log2_self_le (by omega)
  have hlt : hs.length - 1 < 2 ^ (Nat.log2 (hs.length - 1) + 1) := Nat.lt_log2_self
  rw [Nat.pow_succ] at hlt
  generalize Nat.log2 (hs.length - 1) = k at hk hlt
  refine ⟨hs.take (2 ^ k), hs.drop (2 ^ k), k, (List.take_append_drop _ _).symm, ?_, ?_, ?_⟩
  · rw [List.length_take]
    omega
  · rw [← List.length_pos_iff, List.length_drop]
    omega
  · rw [List.length_drop]
    omega

/-- Without collisions the root over base blocks determines them, and how many there are. -/
theorem treeRoot_hashBlocks_injective (hH : H.CollisionFree) {bs bs' : List (List UInt8)}
    (hne : bs ≠ []) (hne' : bs' ≠ [])
    (h : treeRoot H.combine H.zero (bs.map H.hashBlock) =
      treeRoot H.combine H.zero (bs'.map H.hashBlock)) : bs = bs' := by
  have hsplit : ∀ {bs : List (List UInt8)}, 1 < bs.length → ∃ l m, bs = l ++ m ∧ l ≠ [] ∧ m ≠ [] ∧
      l.length < bs.length ∧ m.length < bs.length ∧
      treeRoot H.combine H.zero (bs.map H.hashBlock) =
        H.combine (treeRoot H.combine H.zero (l.map H.hashBlock))
          (treeRoot H.combine H.zero (m.map H.hashBlock)) := by
    intro bs hbs
    obtain ⟨l, m, k, rfl, hl, hm, hle⟩ := exists_split hbs
    have hlne : l ≠ [] := by
      rw [← List.length_pos_iff, hl]
      exact Nat.two_pow_pos k
    have hlpos := List.length_pos_iff.mpr hlne
    have hmpos := List.length_pos_iff.mpr hm
    refine ⟨l, m, rfl, hlne, hm, ?_, ?_, ?_⟩
    · rw [List.length_append]
      omega
    · rw [List.length_append]
      omega
    · rw [List.map_append, treeRoot_append H.combine H.zero (k := k)]
      · rw [List.length_map, hl]
      · exact fun hnil => hm (List.map_eq_nil_iff.mp hnil)
      · rwa [List.length_map]
  induction hlen : bs.length using Nat.strong_induction_on generalizing bs bs' with
  | _ n ih =>
    subst hlen
    have hpos := List.length_pos_iff.mpr hne
    have hpos' := List.length_pos_iff.mpr hne'
    by_cases hone : bs.length = 1
    · obtain ⟨b, rfl⟩ := List.length_eq_one_iff.mp hone
      by_cases hone' : bs'.length = 1
      · obtain ⟨b', rfl⟩ := List.length_eq_one_iff.mp hone'
        rw [List.map_singleton, List.map_singleton, treeRoot_singleton, treeRoot_singleton] at h
        rw [hH.hashBlock h]
      · obtain ⟨l, m, -, -, -, -, -, hroot⟩ := hsplit (show 1 < bs'.length by omega)
        rw [List.map_singleton, treeRoot_singleton, hroot] at h
        exact absurd h (hH.apart _ _ _)
    · obtain ⟨l, m, heq, hl, hm, hltl, hltm, hroot⟩ := hsplit (show 1 < bs.length by omega)
      by_cases hone' : bs'.length = 1
      · obtain ⟨b', rfl⟩ := List.length_eq_one_iff.mp hone'
        rw [List.map_singleton, treeRoot_singleton, hroot] at h
        exact absurd h.symm (hH.apart _ _ _)
      · obtain ⟨l', m', heq', hl', hm', -, -, hroot'⟩ := hsplit (show 1 < bs'.length by omega)
        rw [hroot, hroot'] at h
        obtain ⟨hleft, hright⟩ := hH.combine h
        rw [heq, heq', ih _ hltl hl hl' hleft rfl, ih _ hltm hm hm' hright rfl]

/-- So do the roots over groups of base blocks. -/
theorem map_treeRoot_injective (hH : H.CollisionFree) {gs gs' : List (List (List UInt8))}
    (hne : ∀ g ∈ gs, g ≠ []) (hne' : ∀ g ∈ gs', g ≠ [])
    (h : (gs.map fun bs => treeRoot H.combine H.zero (bs.map H.hashBlock)) =
      gs'.map fun bs => treeRoot H.combine H.zero (bs.map H.hashBlock)) : gs = gs' := by
  induction gs generalizing gs' with
  | nil => exact (List.map_eq_nil_iff.mp h.symm).symm
  | cons g gs ih =>
    cases gs' with
    | nil => cases h
    | cons g' gs' =>
      obtain ⟨hhead, htail⟩ := List.cons.inj h
      rw [treeRoot_hashBlocks_injective hH (hne g List.mem_cons_self)
          (hne' g' List.mem_cons_self) hhead,
        ih (fun g hg => hne g (List.mem_cons_of_mem _ hg))
          (fun g hg => hne' g (List.mem_cons_of_mem _ hg)) htail]

/-! ### Pieces -/

/-- The base blocks that are hashed when the pieces are fed. -/
def fedBlocks (ps : List (List UInt8)) : List (List UInt8) := ps.flatMap (pieces baseBlockSize)

theorem fedBlocks_ne_nil {ps : List (List UInt8)} (hne : ps ≠ []) : fedBlocks ps ≠ [] := by
  cases ps with
  | nil => exact absurd rfl hne
  | cons p ps =>
    rw [fedBlocks, List.flatMap_cons]
    exact fun h => pieces_ne_nil _ _ (List.append_eq_nil_iff.mp h).1

/-- All base blocks but the last are whole. -/
private theorem length_of_mem_dropLast_pieces {n : Nat} (hn : 0 < n) {l g : List UInt8}
    (h : g ∈ (pieces n l).dropLast) : g.length = n := by
  induction hlen : l.length using Nat.strong_induction_on generalizing l with
  | _ len ih =>
    subst hlen
    by_cases hle : l.length ≤ n
    · rw [pieces_of_length_le hle] at h
      cases h
    · rw [pieces_of_lt hn (by omega), List.dropLast_cons_of_ne_nil (pieces_ne_nil _ _)] at h
      rcases List.mem_cons.mp h with rfl | h
      · rw [List.length_take]
        omega
      · refine ih _ ?_ h rfl
        rw [List.length_drop]
        omega

theorem ne_nil_of_mem_pieces {n : Nat} (hn : 0 < n) {α : Type*} {l g : List α} (hl : l ≠ [])
    (h : g ∈ pieces n l) : g ≠ [] := by
  induction hlen : l.length using Nat.strong_induction_on generalizing l with
  | _ len ih =>
    subst hlen
    have hpos := List.length_pos_iff.mpr hl
    by_cases hle : l.length ≤ n
    · rw [pieces_of_length_le hle, List.mem_singleton] at h
      rwa [h]
    · rw [pieces_of_lt hn (by omega)] at h
      rcases List.mem_cons.mp h with rfl | h
      · rw [← List.length_pos_iff, List.length_take]
        omega
      · refine ih _ ?_ ?_ h rfl
        · rw [List.length_drop]
          omega
        · rw [← List.length_pos_iff, List.length_drop]
          omega

private theorem dvd_length_flatten {n : Nat} {gs : List (List UInt8)}
    (h : ∀ g ∈ gs, g.length = n) : n ∣ gs.flatten.length := by
  induction gs with
  | nil => exact Nat.dvd_zero n
  | cons g gs ih =>
    rw [List.flatten_cons, List.length_append, h g List.mem_cons_self]
    exact Nat.dvd_add (Nat.dvd_refl n) (ih fun g hg => h g (List.mem_cons_of_mem _ hg))

/-- The base blocks of the pieces are those of the string exactly when the pieces are aligned. -/
theorem fedBlocks_eq_iff {ps : List (List UInt8)} (hne : ps ≠ []) (hps : ∀ p ∈ ps, p ≠ []) :
    fedBlocks ps = pieces baseBlockSize ps.flatten ↔ Aligned ps := by
  induction ps with
  | nil => exact absurd rfl hne
  | cons p ps ih =>
    cases ps with
    | nil =>
      refine iff_of_true ?_ fun _ h => absurd h List.not_mem_nil
      rw [fedBlocks, List.flatMap_cons, List.flatMap_nil, List.append_nil, List.flatten_cons,
        List.flatten_nil, List.append_nil]
    | cons q ps =>
      have hp := hps p List.mem_cons_self
      have hq := hps q (List.mem_cons_of_mem _ List.mem_cons_self)
      have hrest : (q :: ps).flatten ≠ [] := fun h => hq (List.append_eq_nil_iff.mp h).1
      have ih := ih (List.cons_ne_nil q ps) fun r hr => hps r (List.mem_cons_of_mem _ hr)
      have hcons : fedBlocks (p :: q :: ps) = pieces baseBlockSize p ++ fedBlocks (q :: ps) := rfl
      rw [hcons, List.flatten_cons]
      constructor
      · intro h
        have hdvd : baseBlockSize ∣ p.length := by
          rw [← flatten_pieces baseBlockSize p]
          apply dvd_length_flatten
          intro g hg
          apply length_of_mem_dropLast_pieces baseBlockSize_pos (l := p ++ (q :: ps).flatten)
          rw [← h, List.dropLast_append_of_ne_nil (fedBlocks_ne_nil (List.cons_ne_nil q ps))]
          exact List.mem_append_left _ hg
        rw [pieces_append_of_dvd baseBlockSize_pos hdvd hp hrest] at h
        have haligned := ih.mp (List.append_cancel_left h)
        intro r hr
        rw [List.dropLast_cons_of_ne_nil (List.cons_ne_nil q ps)] at hr
        rcases List.mem_cons.mp hr with rfl | hr
        · exact hdvd
        · exact haligned r hr
      · intro h
        rw [pieces_append_of_dvd baseBlockSize_pos (h.head (List.cons_ne_nil q ps)) hp hrest,
          ih.mpr h.tail]

namespace MerkleTree

/-- Pieces that are not empty add the base blocks they are hashed in. -/
theorem Holds.feed {m : Nat} {pre hs : List V} {t : MerkleTree V} {ps : List (List UInt8)}
    (h : Holds H m pre t hs) (hps : ∀ p ∈ ps, p ≠ []) :
    Holds H m pre (ps.foldl (fun t p ↦ t.update H p) t) (hs ++ (fedBlocks ps).map H.hashBlock) := by
  induction ps generalizing t hs with
  | nil =>
    rw [fedBlocks, List.flatMap_nil, List.map_nil, List.append_nil]
    exact h
  | cons p ps ih =>
    have hrest := ih (h.update p (.inl (hps p List.mem_cons_self)))
      fun q hq => hps q (List.mem_cons_of_mem _ hq)
    rw [List.foldl_cons, fedBlocks, List.flatMap_cons, List.map_append, ← List.append_assoc]
    exact hrest

theorem fileSize_feed (t : MerkleTree V) (ps : List (List UInt8)) :
    (ps.foldl (fun t p => t.update H p) t).fileSize = t.fileSize + ps.flatten.length := by
  induction ps generalizing t with
  | nil => rfl
  | cons p ps ih =>
    rw [List.foldl_cons, ih, update_fileSize, List.flatten_cons, List.length_append, Nat.add_assoc]

end MerkleTree

end Blacklink.Hash
