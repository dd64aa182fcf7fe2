import Blacklink.Hash.TreeHash
import Blacklink.Stream.MerkleCheckOutputStream

/-!
# What the verifying stream accepts

The state between writes is determined by the bytes written so far (`Staged`): the tree has
hashed the full base blocks, the staging buffer holds the remainder. Hence a session is
accepted or not by its concatenation alone (`session_iff`), and an accepted one has compared
every complete block with its leaf.
-/

namespace Blacklink.Stream.MerkleCheckOutputStream

open Blacklink.Base Blacklink.Hash Blacklink.Hash.MerkleTree

variable {V : Type} (H : Hasher V)

/-- The leaves `cur` starts with. -/
def skipped (tree : MerkleTree V) (start : Nat) : List V :=
  if start / tree.blockSize > tree.leaves.length then []
  else tree.leaves.take (start / tree.blockSize)

/-- The leaves of `cur` after the bytes `d`: those skipped and the full blocks. -/
def fullLeaves (tree : MerkleTree V) (start : Nat) (d : List UInt8) : List V :=
  skipped tree start ++ (fullPieces tree.blockSize d).map (treeHash H)

/-- The leaves of `cur` after the final flush. -/
def finalLeaves (tree : MerkleTree V) (start : Nat) (d : List UInt8) : List V :=
  if d = [] ∧ skipped tree start ≠ [] then skipped tree start
  else skipped tree start ++ blockHashes H tree.blockSize d

/-- The state after the bytes `d`. -/
structure Staged (tree : MerkleTree V) (start m : Nat) (s : MerkleCheckOutputStream V)
    (d : List UInt8) : Prop where
  real : s.real = tree
  held : Holds H m (skipped tree start) s.cur ((fullPieces baseBlockSize d).map H.hashBlock)
  buf : s.buf = remainder baseBlockSize d
  fileSize : s.cur.fileSize + s.buf.length = start + d.length

variable {H} {tree : MerkleTree V} {start m : Nat}

theorem skipped_isPrefixOf (tree : MerkleTree V) (start : Nat) :
    skipped tree start <+: tree.leaves := by
  rw [skipped]
  split
  · exact List.nil_prefix
  · exact List.take_prefix _ _

/-! ### Staging -/

private theorem new_eq (tree : MerkleTree V) (start : Nat) :
    new H tree start =
      ⟨tree, ⟨[], skipped tree start, start, tree.blockSize, H.zero, tree.blockSize_pos⟩, 0,
        []⟩ := by
  by_cases h : start / tree.blockSize > tree.leaves.length
  · simp only [new, skipped, MerkleTree.new, if_pos h]
  · simp only [new, skipped, MerkleTree.new, if_neg h]

theorem staged_new (start : Nat) (hm : tree.blockSize = baseBlockSize * 2 ^ m) :
    Staged H tree start m (new H tree start) [] := by
  rw [new_eq]
  refine ⟨rfl, ⟨hm, by simp, [], [], ?_, by simp, by simp, .nil⟩, ?_, rfl⟩
  · rw [fullPieces_of_length_lt baseBlockSize_pos]
    rfl
  · rw [remainder_of_length_lt baseBlockSize_pos]

-- hashing whole base blocks while the staging buffer is empty
private theorem Staged.update_whole {s : MerkleCheckOutputStream V} {d b : List UInt8}
    (h : Staged H tree start m s d) (hd : remainder baseBlockSize d = [])
    (hb : baseBlockSize ∣ b.length) (hne : b ≠ []) :
    Staged H tree start m { s with cur := s.cur.update H b } (d ++ b) := by
  have hbuf : s.buf = [] := h.buf.trans hd
  have hheld := h.held.update b (.inl hne)
  rw [pieces_eq_fullPieces baseBlockSize_pos hb hne, ← List.map_append] at hheld
  refine ⟨h.real, ?_, ?_, ?_⟩
  · rw [fullPieces_append baseBlockSize_pos, hd]
    exact hheld
  · rw [remainder_append baseBlockSize_pos, hd, List.nil_append]
    have hrem := length_remainder baseBlockSize b
    rw [Nat.mod_eq_zero_of_dvd hb] at hrem
    rw [List.length_eq_zero_iff.mp hrem, hbuf]
  · have := h.fileSize
    simp only [update_fileSize, List.length_append]
    omega

-- staging less than a base block into the empty buffer
private theorem Staged.stage {s : MerkleCheckOutputStream V} {d b : List UInt8}
    (h : Staged H tree start m s d) (hd : remainder baseBlockSize d = [])
    (hb : b.length < baseBlockSize) :
    Staged H tree start m { s with buf := b } (d ++ b) := by
  have hbuf : s.buf = [] := h.buf.trans hd
  refine ⟨h.real, ?_, ?_, ?_⟩
  · rw [fullPieces_append baseBlockSize_pos, hd, List.nil_append, fullPieces_of_length_lt hb,
      List.append_nil]
    exact h.held
  · rw [remainder_append baseBlockSize_pos, hd, List.nil_append, remainder_of_length_lt hb]
  · have := h.fileSize
    rw [hbuf, List.length_nil] at this
    rw [List.length_append]
    simp only
    omega

private theorem Staged.commitRest {s : MerkleCheckOutputStream V} {d b : List UInt8}
    (h : Staged H tree start m s d) (hd : remainder baseBlockSize d = []) :
    Staged H tree start m (s.commitRest H b) (d ++ b) := by
  have hmod := Nat.mod_lt b.length baseBlockSize_pos
  have hdiv := Nat.div_add_mod b.length baseBlockSize
  have hpart : b.length - b.length % baseBlockSize =
      baseBlockSize * (b.length / baseBlockSize) := by omega
  unfold MerkleCheckOutputStream.commitRest
  simp only [hpart]
  split
  · next h0 =>
    have htake : (b.take (baseBlockSize * (b.length / baseBlockSize))).length =
        baseBlockSize * (b.length / baseBlockSize) := by
      rw [List.length_take]
      omega
    have hdvd : baseBlockSize ∣ (b.take (baseBlockSize * (b.length / baseBlockSize))).length := by
      rw [htake]
      exact Nat.dvd_mul_right _ _
    have hup := h.update_whole hd hdvd (List.length_pos_iff.mp (by omega))
    have hrem : remainder baseBlockSize
        (d ++ b.take (baseBlockSize * (b.length / baseBlockSize))) = [] := by
      rw [← List.length_eq_zero_iff, remainder_append baseBlockSize_pos, hd, List.nil_append,
        length_remainder, Nat.mod_eq_zero_of_dvd hdvd]
    have hstage := hup.stage (b := b.drop (baseBlockSize * (b.length / baseBlockSize))) hrem
      (by rw [List.length_drop]; omega)
    rwa [List.append_assoc, List.take_append_drop] at hstage
  · next h0 =>
    exact h.stage hd (by omega)

-- completing the base block in the buffer
private theorem Staged.complete {s : MerkleCheckOutputStream V} {d b : List UInt8}
    (h : Staged H tree start m s d) (hb : (s.buf ++ b).length = baseBlockSize) :
    Staged H tree start m { s with cur := s.cur.update H (s.buf ++ b), buf := [] } (d ++ b) ∧
      remainder baseBlockSize (d ++ b) = [] := by
  have hne : s.buf ++ b ≠ [] := by
    rw [← List.length_pos_iff, hb]
    exact baseBlockSize_pos
  have hdvd : baseBlockSize ∣ (s.buf ++ b).length := hb ▸ Nat.dvd_refl _
  have hrem : remainder baseBlockSize (d ++ b) = [] := by
    rw [← List.length_eq_zero_iff, remainder_append baseBlockSize_pos, ← h.buf,
      length_remainder, Nat.mod_eq_zero_of_dvd hdvd]
  have hheld := h.held.update (s.buf ++ b) (.inl hne)
  rw [pieces_eq_fullPieces baseBlockSize_pos hdvd hne, ← List.map_append] at hheld
  refine ⟨⟨h.real, ?_, hrem.symm, ?_⟩, hrem⟩
  · rw [fullPieces_append baseBlockSize_pos, ← h.buf]
    exact hheld
  · have := h.fileSize
    simp only [update_fileSize, List.length_append, List.length_nil]
    omega

/-- `commitBytes` stages the bytes. -/
theorem Staged.commitBytes {s : MerkleCheckOutputStream V} {d : List UInt8}
    (h : Staged H tree start m s d) (b : List UInt8) :
    Staged H tree start m (s.commitBytes H b) (d ++ b) := by
  have hlen : s.buf.length < baseBlockSize := by
    rw [h.buf, length_remainder]
    exact Nat.mod_lt _ baseBlockSize_pos
  unfold MerkleCheckOutputStream.commitBytes fillBuffer
  by_cases hbuf : s.buf = []
  · simp only [hbuf, ne_eq, not_true_eq_false, if_false, List.drop_zero]
    split
    · exact h.commitRest (h.buf ▸ hbuf)
    · next h0 =>
      have hnil : b = [] := List.length_eq_zero_iff.mp (by omega)
      rw [hnil, List.append_nil]
      exact h
  · simp only [ne_eq, hbuf, not_false_eq_true, if_true]
    by_cases hfull :
        (s.buf ++ b.take (min (baseBlockSize - s.buf.length) b.length)).length = baseBlockSize
    · obtain ⟨hst, hrem⟩ := h.complete hfull
      rw [if_pos hfull]
      simp only
      split
      · have hrest := hst.commitRest (b := b.drop (min (baseBlockSize - s.buf.length) b.length))
          hrem
        rwa [List.append_assoc, List.take_append_drop] at hrest
      · rwa [List.take_of_length_le (by omega)] at hst ⊢
    · -- the block stays incomplete, so the write ends inside it
      have hshort : s.buf.length + b.length < baseBlockSize := by
        simp only [List.length_append, List.length_take] at hfull
        omega
      rw [if_neg hfull]
      simp only
      rw [if_neg (by omega), List.take_of_length_le (by omega)]
      refine ⟨h.real, ?_, ?_, ?_⟩
      · rw [fullPieces_append baseBlockSize_pos, ← h.buf,
          fullPieces_of_length_lt (l := s.buf ++ b) (by rw [List.length_append]; omega),
          List.append_nil]
        exact h.held
      · rw [remainder_append baseBlockSize_pos, ← h.buf,
          remainder_of_length_lt (by rw [List.length_append]; omega)]
      · have := h.fileSize
        simp only [List.length_append]
        omega

/-- The leaves between writes. -/
theorem Staged.leaves_eq {s : MerkleCheckOutputStream V} {d : List UInt8}
    (h : Staged H tree start m s d) (hm : tree.blockSize = baseBlockSize * 2 ^ m) :
    s.cur.leaves = fullLeaves H tree start d := by
  rw [h.held.leaves_eq, fullLeaves, hm, map_treeHash_fullPieces]

/-- More bytes only add leaves. -/
theorem fullLeaves_mono (tree : MerkleTree V) (start : Nat) (d b : List UInt8) :
    fullLeaves H tree start d <+: fullLeaves H tree start (d ++ b) := by
  rw [fullLeaves, fullLeaves, fullPieces_append tree.blockSize_pos, List.map_append,
    ← List.append_assoc]
  exact List.prefix_append _ _

/-! ### Comparing leaves -/

section Compare

variable [DecidableEq V]

/-- When the leaves before `verified` agree, the rest is compared equal exactly when all of
`cur` agrees with `real`; then all of `cur` has been compared. -/
theorem checkLeaves_iff {cur real : List V} {v : Nat} (hle : v ≤ cur.length)
    (hagree : cur.take v <+: real) :
    ((checkLeaves cur real v).2 = true ↔ cur <+: real) ∧
      ((checkLeaves cur real v).2 = true → (checkLeaves cur real v).1 = cur.length) := by
  induction v using checkLeaves.induct cur real with
  | case1 v hv hbad =>
    rw [checkLeaves, if_pos hv, if_pos hbad]
    simp only [Bool.false_eq_true, false_iff, false_implies, and_true]
    intro hpre
    rcases hbad with hlong | hdiff
    · exact absurd hpre.length_le (by omega)
    · rw [List.prefix_iff_getElem?.mp hpre v hv, List.getElem?_eq_getElem hv] at hdiff
      exact hdiff rfl
  | case2 v hv hok ih =>
    rw [checkLeaves, if_pos hv, if_neg hok]
    apply ih hv
    have hnext : cur[v]? = real[v]? := by
      by_contra hne
      exact hok (.inr hne)
    have htake : cur.take v = real.take v := by
      have := List.prefix_iff_eq_take.mp hagree
      rwa [List.length_take, Nat.min_eq_left hle] at this
    rw [List.take_add_one, hnext, htake, ← List.take_add_one]
    exact List.take_prefix _ _
  | case3 v hv =>
    rw [checkLeaves, if_neg hv]
    rw [List.take_of_length_le (by omega)] at hagree
    exact ⟨by simp [hagree], fun _ => by omega⟩

variable (H) in
/-- What the final flush requires of the bytes `d`. -/
def Accepts (tree : MerkleTree V) (start : Nat) (d : List UInt8) : Prop :=
  fullLeaves H tree start d <+: tree.leaves ∧
    if (finalLeaves H tree start d).length = tree.leaves.length then
      getHash H { tree with leaves := finalLeaves H tree start d } 0 (start + d.length) = tree.root
    else finalLeaves H tree start d <+: tree.leaves

/-- A state no comparison has failed in. -/
structure Sound (tree : MerkleTree V) (start m : Nat) (s : MerkleCheckOutputStream V)
    (d : List UInt8) : Prop where
  staged : Staged H tree start m s d
  agrees : fullLeaves H tree start d <+: tree.leaves
  verified_le : s.verified ≤ (fullLeaves H tree start d).length

omit [DecidableEq V] in
/-- Staging does not touch the counter. -/
theorem commitBytes_verified (s : MerkleCheckOutputStream V) (b : List UInt8) :
    (s.commitBytes H b).verified = s.verified := by
  have hfill : (s.fillBuffer H b).1.verified = s.verified := by
    unfold fillBuffer
    split
    · simp only
      split <;> rfl
    · rfl
  have hrest : ∀ (s : MerkleCheckOutputStream V) (b : List UInt8),
      (s.commitRest H b).verified = s.verified := by
    intro s b
    unfold commitRest
    simp only
    split <;> rfl
  unfold commitBytes
  simp only
  split
  · rw [hrest, hfill]
  · exact hfill

omit [DecidableEq V] in
private theorem take_prefix_of_agree {l l' real : List V} {v : Nat} (hgrow : l <+: l')
    (hagree : l <+: real) (hv : v ≤ l.length) : l'.take v <+: real := by
  have hshort : l'.take v <+: l :=
    List.prefix_of_prefix_length_le (List.take_prefix v l') hgrow
      (by rw [List.length_take]; omega)
  exact hshort.trans hagree

/-- A write compares the leaves of the bytes so far. -/
theorem write_eq (hm : tree.blockSize = baseBlockSize * 2 ^ m)
    {s : MerkleCheckOutputStream V} {d : List UInt8} (h : Staged H tree start m s d)
    (b : List UInt8) :
    s.write H b = ({ s.commitBytes H b with
        verified := (checkLeaves (fullLeaves H tree start (d ++ b)) tree.leaves s.verified).1 },
      (checkLeaves (fullLeaves H tree start (d ++ b)) tree.leaves s.verified).2) := by
  have hst := h.commitBytes b
  simp only [write, checkTrees, hst.leaves_eq hm, hst.real, commitBytes_verified]

/-- A write returns exactly when the leaves it completes agree. -/
theorem write_iff (hm : tree.blockSize = baseBlockSize * 2 ^ m)
    {s : MerkleCheckOutputStream V} {d : List UInt8} (h : Sound (H := H) tree start m s d)
    (b : List UInt8) :
    ((s.write H b).2 = true ↔ fullLeaves H tree start (d ++ b) <+: tree.leaves) ∧
      ((s.write H b).2 = true → Sound (H := H) tree start m (s.write H b).1 (d ++ b) ∧
        (s.write H b).1.verified = (fullLeaves H tree start (d ++ b)).length) := by
  have hst := h.staged.commitBytes b
  have hgrow := fullLeaves_mono (H := H) tree start d b
  have hle : s.verified ≤ (fullLeaves H tree start (d ++ b)).length :=
    h.verified_le.trans hgrow.length_le
  have hagree := take_prefix_of_agree hgrow h.agrees h.verified_le
  obtain ⟨hiff, hcount⟩ := checkLeaves_iff hle hagree
  rw [write_eq hm h.staged]
  refine ⟨hiff, ?_⟩
  intro hret
  have hpre := hiff.mp hret
  exact ⟨⟨⟨hst.real, hst.held, hst.buf, hst.fileSize⟩, hpre, (hcount hret).le⟩, hcount hret⟩

/-- The writes return exactly when the leaves of all their bytes agree. -/
theorem writeAll_iff (hm : tree.blockSize = baseBlockSize * 2 ^ m)
    {s : MerkleCheckOutputStream V} {d : List UInt8} (h : Sound (H := H) tree start m s d)
    (bs : List (List UInt8)) :
    ((s.writeAll H bs).2 = true ↔ fullLeaves H tree start (d ++ bs.flatten) <+: tree.leaves) ∧
      ((s.writeAll H bs).2 = true →
        Sound (H := H) tree start m (s.writeAll H bs).1 (d ++ bs.flatten) ∧
        (bs ≠ [] → (s.writeAll H bs).1.verified =
          (fullLeaves H tree start (d ++ bs.flatten)).length)) := by
  induction bs generalizing s d with
  | nil =>
    rw [writeAll, List.flatten_nil, List.append_nil]
    exact ⟨by simp [h.agrees], fun _ => ⟨h, by simp⟩⟩
  | cons b bs ih =>
    obtain ⟨hiff, hnext⟩ := write_iff hm h b
    rw [writeAll, List.flatten_cons, ← List.append_assoc]
    by_cases hret : (s.write H b).2 = true
    · obtain ⟨hsound, hver⟩ := hnext hret
      obtain ⟨hiff', hnext'⟩ := ih hsound
      simp only [hret, if_true]
      refine ⟨hiff', ?_⟩
      intro hall
      obtain ⟨hs, hv⟩ := hnext' hall
      refine ⟨hs, fun _ => ?_⟩
      by_cases hbs : bs = []
      · subst hbs
        rwa [List.flatten_nil, List.append_nil, writeAll]
      · exact hv hbs
    · simp only [hret, Bool.false_eq_true, if_false, false_iff, false_implies, and_true]
      intro hpre
      exact hret (hiff.mpr ((fullLeaves_mono tree start _ _).trans hpre))

/-! ### The final flush -/

omit [DecidableEq V] in
-- the tree after the staged bytes are hashed and the tree is finalized
private theorem Staged.finalize {s : MerkleCheckOutputStream V} {d : List UInt8}
    (h : Staged H tree start m s d) (hm : tree.blockSize = baseBlockSize * 2 ^ m)
    {cur : MerkleTree V} (hcur : cur = if s.buf ≠ [] then s.cur.update H s.buf else s.cur) :
    (cur.finalize H).leaves = finalLeaves H tree start d ∧
      (cur.finalize H).blockSize = tree.blockSize ∧
      (cur.finalize H).fileSize = start + d.length := by
  have hsize : cur.fileSize = start + d.length := by
    have := h.fileSize
    rw [hcur]
    split
    · rw [update_fileSize, this]
    · next hbuf =>
      rw [not_not.mp hbuf, List.length_nil] at this
      exact this
  have hblock : cur.blockSize = tree.blockSize := by
    rw [hcur, hm, ← h.held.blockSize]
    split <;> simp
  refine ⟨?_, by rw [(finalize_blockSize H cur).1, hblock], by
    rw [(finalize_blockSize H cur).2, hsize]⟩
  by_cases hd : d = []
  · subst hd
    have hbuf : s.buf = [] := h.buf.trans (remainder_of_length_lt baseBlockSize_pos)
    have hheld := h.held
    rw [fullPieces_of_length_lt baseBlockSize_pos, List.map_nil] at hheld
    rw [hcur, if_neg (by simp [hbuf]), hheld.finalize_leaves_nil, finalLeaves, hm]
    by_cases hpre : skipped tree start = []
    · simp [hpre]
    · simp [hpre]
  · have hheld : Holds H m (skipped tree start) cur
        ((pieces baseBlockSize d).map H.hashBlock) := by
      rw [pieces_eq baseBlockSize_pos hd, List.map_append, ← h.buf, hcur]
      by_cases hbuf : s.buf = []
      · simpa [hbuf] using h.held
      · have hup := h.held.update s.buf (.inl hbuf)
        rw [pieces_of_length_le] at hup
        · simpa [hbuf] using hup
        · rw [h.buf, length_remainder]
          exact (Nat.mod_lt _ baseBlockSize_pos).le
    rw [hheld.finalize_leaves (by simp [pieces_ne_nil]), finalLeaves, if_neg (by simp [hd]), hm,
      blockHashes_eq]

omit [DecidableEq V] in
private theorem fullLeaves_le_final (tree : MerkleTree V) (start : Nat) (d : List UInt8) :
    fullLeaves H tree start d <+: finalLeaves H tree start d := by
  rw [fullLeaves, finalLeaves]
  split
  · next h =>
    rewrite [h.1, fullPieces_of_length_lt tree.blockSize_pos, List.map_nil, List.append_nil]
    exact List.prefix_rfl
  · apply (List.prefix_append_right_inj _).mpr
    by_cases hd : d = []
    · rw [hd, fullPieces_of_length_lt tree.blockSize_pos]
      exact List.nil_prefix
    · rw [blockHashes, pieces_eq tree.blockSize_pos hd, List.map_append]
      exact List.prefix_append _ _

/-- The final flush returns exactly on accepted bytes, and stands for all their leaves. -/
theorem flushBuffers_iff (hm : tree.blockSize = baseBlockSize * 2 ^ m)
    {s : MerkleCheckOutputStream V} {d : List UInt8} (h : Sound (H := H) tree start m s d) :
    ((s.flushBuffers H).2 = true ↔ Accepts H tree start d) ∧
      ((s.flushBuffers H).2 = true →
        (s.flushBuffers H).1.comparedLeaves true = (finalLeaves H tree start d).length) ∧
      (s.flushBuffers H).1.verifiedBytes =
        min tree.fileSize (tree.blockSize * (finalLeaves H tree start d).length) := by
  obtain ⟨hleaves, hblock, hsize⟩ := h.staged.finalize hm rfl
  have hroot := finalize_root_eq H (if s.buf ≠ [] then s.cur.update H s.buf else s.cur)
  rw [hsize, getHash_congr H { tree with leaves := finalLeaves H tree start d } hleaves
    hblock] at hroot
  have hgrow := fullLeaves_le_final (H := H) tree start d
  obtain ⟨hiff, hcount⟩ := checkLeaves_iff (h.verified_le.trans hgrow.length_le)
    (take_prefix_of_agree hgrow h.agrees h.verified_le)
  unfold flushBuffers Accepts
  simp only [hleaves, h.staged.real, hroot, h.agrees, true_and]
  split
  · next hlen =>
    simp only [decide_eq_true_eq, comparedLeaves, hleaves, hlen, and_self, if_true,
      implies_true, verifiedBytes, hblock]
  · next hlen =>
    simp only [checkTrees, hleaves, comparedLeaves, hlen, and_false, if_false, verifiedBytes,
      hblock, and_true]
    exact ⟨hiff, hcount⟩

omit [DecidableEq V] in
theorem sound_new (start : Nat) (hm : tree.blockSize = baseBlockSize * 2 ^ m) :
    Sound (H := H) tree start m (new H tree start) [] := by
  refine ⟨staged_new start hm, ?_, ?_⟩
  · rw [fullLeaves, fullPieces_of_length_lt tree.blockSize_pos, List.map_nil, List.append_nil]
    exact skipped_isPrefixOf tree start
  · rw [new_eq]
    exact Nat.zero_le _

/-- A session is accepted or not by the concatenation of its writes alone. -/
theorem session_iff (start : Nat) (hm : tree.blockSize = baseBlockSize * 2 ^ m)
    (bs : List (List UInt8)) :
    ((session H tree start bs).2 = true ↔ Accepts H tree start bs.flatten) ∧
      ((session H tree start bs).2 = true →
        (session H tree start bs).1.comparedLeaves true =
            (finalLeaves H tree start bs.flatten).length ∧
          (session H tree start bs).1.verifiedBytes =
            min tree.fileSize (tree.blockSize * (finalLeaves H tree start bs.flatten).length)) := by
  obtain ⟨hiff, hnext⟩ := writeAll_iff hm (sound_new (H := H) start hm) bs
  rw [List.nil_append] at hiff hnext
  unfold session
  by_cases hret : ((new H tree start).writeAll H bs).2 = true
  · obtain ⟨hacc, hcount, hbytes⟩ := flushBuffers_iff hm (hnext hret).1
    simp only [hret, if_true]
    exact ⟨hacc, fun h => ⟨hcount h, hbytes⟩⟩
  · simp only [hret, Bool.false_eq_true, if_false, false_iff, false_implies, and_true]
    exact fun hacc => hret (hiff.mpr hacc.1)

/-! ### What an accepted session has verified -/

omit [DecidableEq V] in
variable (H) in
/-- Every complete block of `d` has the hash of its leaf. -/
def BlocksMatch (tree : MerkleTree V) (start : Nat) (d : List UInt8) : Prop :=
  ∀ i, i < d.length / tree.blockSize → tree.leaves[start / tree.blockSize + i]? =
    some (treeHash H ((d.drop (tree.blockSize * i)).take tree.blockSize))

omit [DecidableEq V] in
variable (H) in
/-- A short last block of `d` has the hash of its leaf. -/
def LastBlockMatches (tree : MerkleTree V) (start : Nat) (d : List UInt8) : Prop :=
  remainder tree.blockSize d ≠ [] →
    tree.leaves[start / tree.blockSize + d.length / tree.blockSize]? =
      some (treeHash H (remainder tree.blockSize d))

omit [DecidableEq V] in
private theorem length_skipped (hstart : start / tree.blockSize ≤ tree.leaves.length) :
    (skipped tree start).length = start / tree.blockSize := by
  rw [skipped, if_neg (by omega), List.length_take]
  omega

omit [DecidableEq V] in
theorem blocksMatch_of_agree {d : List UInt8}
    (hstart : start / tree.blockSize ≤ tree.leaves.length)
    (h : fullLeaves H tree start d <+: tree.leaves) : BlocksMatch H tree start d := by
  intro i hi
  obtain ⟨rest, hrest⟩ := h
  have hlen := length_fullPieces tree.blockSize_pos d
  rw [← hrest, fullLeaves, List.append_assoc, List.getElem?_append_right
    (by rw [length_skipped hstart]; omega), length_skipped hstart, Nat.add_sub_cancel_left,
    List.getElem?_append_left (by rw [List.length_map]; omega), List.getElem?_map,
    getElem?_fullPieces tree.blockSize_pos d i hi]
  rfl

omit [DecidableEq V] in
private theorem finalLeaves_eq {d : List UInt8} (hd : d ≠ []) :
    finalLeaves H tree start d =
      skipped tree start ++ (pieces tree.blockSize d).map (treeHash H) := by
  rw [finalLeaves, if_neg (by simp [hd])]
  rfl

omit [DecidableEq V] in
theorem lastBlockMatches_of_agree {d : List UInt8}
    (hstart : start / tree.blockSize ≤ tree.leaves.length)
    (h : finalLeaves H tree start d <+: tree.leaves) : LastBlockMatches H tree start d := by
  intro hrem
  have hd : d ≠ [] := by
    rintro rfl
    exact hrem (by simp [remainder])
  obtain ⟨rest, hrest⟩ := h
  have hlen := length_fullPieces tree.blockSize_pos d
  rw [← hrest, finalLeaves_eq hd, pieces_eq tree.blockSize_pos hd, if_neg hrem, List.map_append,
    List.append_assoc, List.getElem?_append_right (by rw [length_skipped hstart]; omega),
    length_skipped hstart, Nat.add_sub_cancel_left, List.append_assoc,
    List.getElem?_append_right (by rw [List.length_map, hlen]), List.length_map, hlen,
    Nat.sub_self]
  rfl

omit [DecidableEq V] in
/-- After the final flush there are as many leaves as the bytes up to there have blocks. -/
theorem length_finalLeaves {d : List UInt8} (hdvd : tree.blockSize ∣ start)
    (hstart : start / tree.blockSize ≤ tree.leaves.length) (hd : d ≠ []) :
    (finalLeaves H tree start d).length =
      max 1 ((start + d.length + tree.blockSize - 1) / tree.blockSize) := by
  obtain ⟨n, rfl⟩ := hdvd
  have hpos := tree.blockSize_pos
  rw [Nat.mul_div_cancel_left n hpos] at hstart
  have hge : 1 ≤ (d.length + tree.blockSize - 1) / tree.blockSize := by
    rw [Nat.le_div_iff_mul_le hpos]
    have := List.length_pos_iff.mpr hd
    omega
  have hskip : (skipped tree (tree.blockSize * n)).length = n := by
    rw [length_skipped (by rwa [Nat.mul_div_cancel_left n hpos]),
      Nat.mul_div_cancel_left n hpos]
  rw [finalLeaves_eq hd, List.length_append, hskip, List.length_map, length_pieces hpos,
    show tree.blockSize * n + d.length + tree.blockSize - 1 =
      d.length + tree.blockSize - 1 + tree.blockSize * n by omega,
    Nat.add_mul_div_left _ _ hpos]
  omega

omit [DecidableEq V] in
/-- The root comparison of the final flush, without collisions: the leaves agree. -/
theorem finalLeaves_prefix_of_root {d : List UInt8} (hdvd : tree.blockSize ∣ start)
    (hstart : start / tree.blockSize ≤ tree.leaves.length) (hd : d ≠ [])
    (hlen : (finalLeaves H tree start d).length = tree.leaves.length)
    (hroot : getHash H { tree with leaves := finalLeaves H tree start d } 0
      (start + d.length) = tree.root)
    (hinj : Function.Injective2 H.combine)
    (hwf : tree.root = treeRoot H.combine H.zero tree.leaves) :
    finalLeaves H tree start d <+: tree.leaves := by
  rw [getHash_zero H _ _ (length_finalLeaves hdvd hstart hd), hwf] at hroot
  rewrite [treeRoot_injective H.zero hinj hlen hroot]
  exact List.prefix_rfl

omit [DecidableEq V] in
/-- A short last block that is accepted has the hash of its leaf, unless it was compared by a root
that does not decide it. -/
theorem lastBlockMatches_of_accepts {d : List UInt8} (hdvd : tree.blockSize ∣ start)
    (hstart : start / tree.blockSize ≤ tree.leaves.length) (h : Accepts H tree start d)
    (hcond : Function.Injective2 H.combine ∧ tree.root = treeRoot H.combine H.zero tree.leaves ∨
      (finalLeaves H tree start d).length ≠ tree.leaves.length) :
    LastBlockMatches H tree start d := by
  obtain ⟨-, hflush⟩ := h
  intro hrem
  have hd : d ≠ [] := by
    rintro rfl
    exact hrem (by simp [remainder])
  refine lastBlockMatches_of_agree hstart ?_ hrem
  split at hflush
  · next hlen =>
    rcases hcond with ⟨hinj, hwf⟩ | hne
    · exact finalLeaves_prefix_of_root hdvd hstart hd hlen hflush hinj hwf
    · exact absurd hlen hne
  · exact hflush

variable (H) in
/-- The outcome of a session, and the leaves an accepted one has compared, depend only on the
concatenation of its writes. When the start lies inside the tree, every complete block written
without an exception has the hash of its leaf; so does a short last block after the final
flush, which compares it by its leaf or, when the leaves are as many as the tree's, by the
root. The verified bytes are never more than the compared leaves cover. -/
theorem session_spec (tree : MerkleTree V) (m start : Nat)
    (hm : tree.blockSize = baseBlockSize * 2 ^ m) (hdvd : tree.blockSize ∣ start)
    (bs : List (List UInt8)) :
    (∀ bs' : List (List UInt8), bs'.flatten = bs.flatten →
      (session H tree start bs').2 = (session H tree start bs).2 ∧
      ((session H tree start bs).2 = true →
        (session H tree start bs').1.comparedLeaves true =
          (session H tree start bs).1.comparedLeaves true)) ∧
    (start / tree.blockSize ≤ tree.leaves.length →
      (((new H tree start).writeAll H bs).2 = true →
        BlocksMatch H tree start bs.flatten ∧
        (bs ≠ [] → ((new H tree start).writeAll H bs).1.verifiedBytes ≤ min tree.fileSize
          (tree.blockSize * ((new H tree start).writeAll H bs).1.comparedLeaves false))) ∧
      ((session H tree start bs).2 = true →
        BlocksMatch H tree start bs.flatten ∧
        (Function.Injective2 H.combine ∧
            tree.root = treeRoot H.combine H.zero tree.leaves ∨
          (finalLeaves H tree start bs.flatten).length ≠ tree.leaves.length →
          LastBlockMatches H tree start bs.flatten) ∧
        (session H tree start bs).1.verifiedBytes ≤ min tree.fileSize
          (tree.blockSize * (session H tree start bs).1.comparedLeaves true))) := by
  obtain ⟨hiff, hdone⟩ := session_iff (H := H) start hm bs
  refine ⟨?_, fun hstart => ⟨?_, ?_⟩⟩
  · intro bs' heq
    obtain ⟨hiff', hdone'⟩ := session_iff (H := H) start hm bs'
    rw [heq] at hiff' hdone'
    refine ⟨Bool.eq_iff_iff.mpr (hiff'.trans hiff.symm), ?_⟩
    intro hret
    rw [(hdone hret).1, (hdone' (hiff'.mpr (hiff.mp hret))).1]
  · intro hret
    obtain ⟨hpre, hnext⟩ := writeAll_iff hm (sound_new (H := H) start hm) bs
    obtain ⟨hsound, hver⟩ := hnext hret
    rw [List.nil_append] at hpre hsound hver
    refine ⟨blocksMatch_of_agree hstart (hpre.mp hret), ?_⟩
    intro hne
    rw [verifiedBytes, hsound.staged.real, hsound.staged.leaves_eq hm,
      hsound.staged.held.blockSize, ← hm, comparedLeaves, if_neg (by simp), hver hne]
  · intro hret
    obtain ⟨hagree, hflush⟩ := hiff.mp hret
    obtain ⟨hcompared, hbytes⟩ := hdone hret
    refine ⟨blocksMatch_of_agree hstart hagree, ?_, by rw [hbytes, hcompared]⟩
    exact lastBlockMatches_of_accepts hdvd hstart ⟨hagree, hflush⟩

end Compare

/-- Two bytes written together or apart, against the tree of a one-byte file. -/
theorem session_spec_two_bytes :
    (session (⟨id, id, []⟩ : Hasher (List UInt8))
      ⟨[], [[0, 7]], 1, baseBlockSize * 2 ^ 0, [0, 7], by decide⟩ 0 [[7], [8]]).2 =
    (session (⟨id, id, []⟩ : Hasher (List UInt8))
      ⟨[], [[0, 7]], 1, baseBlockSize * 2 ^ 0, [0, 7], by decide⟩ 0 [[7, 8]]).2 :=
  ((session_spec _ ⟨[], [[0, 7]], 1, baseBlockSize * 2 ^ 0, [0, 7], by decide⟩ 0 0 rfl
    (Nat.dvd_zero _) [[7, 8]]).1 [[7], [8]] rfl).1

private theorem write_of_too_long {V : Type} [DecidableEq V] {H : Hasher V}
    {tree : MerkleTree V} {start m : Nat} (hm : tree.blockSize = baseBlockSize * 2 ^ m)
    {s : MerkleCheckOutputStream V} {d b : List UInt8} (h : Staged H tree start m s d)
    (hv : s.verified < (fullLeaves H tree start (d ++ b)).length)
    (hlong : tree.leaves.length < (fullLeaves H tree start (d ++ b)).length) :
    (s.write H b).2 = false ∧ (s.write H b).1.verified = s.verified := by
  rw [write_eq hm h, checkLeaves, if_pos hv, if_pos (.inl hlong)]
  exact ⟨rfl, rfl⟩

/-- Which leaves have been compared when a session throws does depend on the writes: two base
blocks against a tree of one leaf, in one write, throw before any comparison; in two writes the
first block is compared before the second is too much. -/
theorem verified_depends_on_writes :
    ¬∀ (H : Hasher Unit) (tree : MerkleTree Unit) (m start : Nat) (bs bs' : List (List UInt8)),
      tree.blockSize = baseBlockSize * 2 ^ m → tree.blockSize ∣ start →
      bs'.flatten = bs.flatten →
      (session H tree start bs').1.verified = (session H tree start bs).1.verified := by
  intro hall
  let H : Hasher Unit := ⟨fun _ => (), fun _ => [], ()⟩
  let tree : MerkleTree Unit := ⟨[], [()], 1024, baseBlockSize * 2 ^ 0, (), by decide⟩
  have hm : tree.blockSize = baseBlockSize * 2 ^ 0 := rfl
  let z : List UInt8 := List.replicate baseBlockSize 0
  have hz : z.length = baseBlockSize := List.length_replicate
  have hfull : ∀ d : List UInt8,
      (fullLeaves H tree 0 d).length = d.length / baseBlockSize := by
    intro d
    rw [fullLeaves, List.length_append, List.length_map, length_fullPieces tree.blockSize_pos]
    simp [skipped, tree]
  have hsound := sound_new (H := H) 0 hm
  have hver0 : (new H tree 0).verified = 0 := rfl
  have hzz : (fullLeaves H tree 0 ([] ++ (z ++ z))).length = 2 := by
    rw [hfull, List.nil_append, List.length_append, hz]
    rfl
  -- one write
  obtain ⟨hthrow, hverified⟩ := write_of_too_long hm hsound.staged (b := z ++ z)
    (by rw [hzz, hver0]; omega) (by rw [hzz]; decide)
  -- two writes
  have hone : fullLeaves H tree 0 ([] ++ z) <+: tree.leaves := by
    have hlen : (fullLeaves H tree 0 ([] ++ z)).length = 1 := by
      rw [hfull, List.nil_append, hz]
      rfl
    obtain ⟨u, hu⟩ := List.length_eq_one_iff.mp hlen
    rewrite [hu]
    exact List.prefix_rfl
  obtain ⟨hiff, hnext⟩ := write_iff hm hsound z
  obtain ⟨hsound1, hver1⟩ := hnext (hiff.mpr hone)
  rw [hfull, List.nil_append, hz] at hver1
  obtain ⟨hthrow2, hverified2⟩ := write_of_too_long hm hsound1.staged (b := z)
    (by rw [List.nil_append, hver1]; exact hzz ▸ (by decide))
    (by rw [List.nil_append]; exact hzz ▸ (by decide))
  have heq := hall H tree 0 0 [z ++ z] [z, z] hm (Nat.dvd_zero _) (by simp)
  simp only [session, writeAll, hthrow, hiff.mpr hone, hthrow2, if_true, Bool.false_eq_true,
    if_false, hverified, hverified2, hver1, hver0] at heq
  exact absurd heq (by decide)

end Blacklink.Stream.MerkleCheckOutputStream
