import Blacklink.Hash.TreeHash

/-!
# A tree behind a buffer

Model of `BufferedTigerTreeHasher` (`client/ShareManager.cpp:1771-1819`). The tree takes whole
buffers, except at the end, so it does not see where the pieces of the string begin and end.
-/

namespace Blacklink.Hash

open Blacklink.Base MerkleTree

/-- `BUF_SIZE`. -/
def hasherBufferSize : Nat := 64 * 1024

/-- `BufferedTigerTreeHasher`. `buf` are the first `bufSize` bytes of the buffer, which is not full
between two calls. -/
structure BufferedTigerTreeHasher (V : Type) where
  buf : List UInt8
  tree : MerkleTree V
  buf_lt : buf.length < hasherBufferSize

namespace BufferedTigerTreeHasher

variable {V : Type} (H : Hasher V)

/-- `BufferedTigerTreeHasher()`. The block size is `1ll << 40`. -/
def new : BufferedTigerTreeHasher V :=
  ⟨[], MerkleTree.new H (baseBlockSize * 2 ^ 30) (by decide), by decide⟩

/-- The loop of `update` and what is copied behind it. -/
def updateLoop (tree : MerkleTree V) (data : List UInt8) : BufferedTigerTreeHasher V :=
  if h : hasherBufferSize ≤ data.length then
    updateLoop (tree.update H (data.take hasherBufferSize)) (data.drop hasherBufferSize)
  else ⟨data, tree, not_le.mp h⟩
termination_by data.length
decreasing_by
  rw [List.length_drop]
  simp only [hasherBufferSize] at *
  omega

/-- `update`. -/
def update (b : BufferedTigerTreeHasher V) (data : List UInt8) : BufferedTigerTreeHasher V :=
  if b.buf = [] then updateLoop H b.tree data
  else if h : b.buf.length + data.length ≤ hasherBufferSize then
    if hfull : (b.buf ++ data).length = hasherBufferSize then
      ⟨[], b.tree.update H (b.buf ++ data), by decide⟩
    else ⟨b.buf ++ data, b.tree, by rw [List.length_append] at hfull ⊢; omega⟩
  else
    let part := hasherBufferSize - b.buf.length
    updateLoop H (b.tree.update H (b.buf ++ data.take part)) (data.drop part)

/-- `finalize`. -/
def finalize (b : BufferedTigerTreeHasher V) : V :=
  ((if b.buf = [] then b.tree else b.tree.update H b.buf).finalize H).root

variable {H}

/-- The tree has been fed whole buffers; they and the bytes in the buffer are the string. -/
def Holds (H : Hasher V) (b : BufferedTigerTreeHasher V) (data : List UInt8) : Prop :=
  ∃ ps : List (List UInt8), (∀ p ∈ ps, p.length = hasherBufferSize) ∧
    b.tree = ps.foldl (fun t p => t.update H p) (new H).tree ∧ ps.flatten ++ b.buf = data

theorem holds_new : Holds H (new H) [] := ⟨[], nofun, rfl, rfl⟩

/-- One buffer more. -/
private theorem feed_buffer {ps : List (List UInt8)} {p : List UInt8} {tree : MerkleTree V}
    (hps : ∀ p ∈ ps, p.length = hasherBufferSize) (hp : p.length = hasherBufferSize)
    (htree : tree = ps.foldl (fun t p => t.update H p) (new H).tree) :
    (∀ q ∈ ps ++ [p], q.length = hasherBufferSize) ∧
      tree.update H p = (ps ++ [p]).foldl (fun t p => t.update H p) (new H).tree := by
  constructor
  · intro q hq
    rcases List.mem_append.mp hq with hq | hq
    · exact hps q hq
    · rw [List.mem_singleton.mp hq, hp]
  · rw [htree, List.foldl_append]
    rfl

theorem holds_updateLoop {tree : MerkleTree V} {ps : List (List UInt8)}
    (hps : ∀ p ∈ ps, p.length = hasherBufferSize)
    (htree : tree = ps.foldl (fun t p => t.update H p) (new H).tree) (data : List UInt8) :
    Holds H (updateLoop H tree data) (ps.flatten ++ data) := by
  fun_induction updateLoop H tree data generalizing ps with
  | case1 tree data h ih =>
    obtain ⟨hps', htree'⟩ := feed_buffer hps (List.length_take_of_le h) htree
    have hloop := ih hps' htree'
    rwa [List.flatten_append, List.flatten_singleton, List.append_assoc,
      List.take_append_drop] at hloop
  | case2 tree data h => exact ⟨ps, hps, htree, rfl⟩

/-- A piece of any length. -/
theorem Holds.update {b : BufferedTigerTreeHasher V} {fed : List UInt8} (h : Holds H b fed)
    (data : List UInt8) : Holds H (b.update H data) (fed ++ data) := by
  obtain ⟨ps, hps, htree, rfl⟩ := h
  have hlt := b.buf_lt
  unfold BufferedTigerTreeHasher.update
  split
  · next hbuf =>
    rw [hbuf, List.append_nil]
    exact holds_updateLoop hps htree data
  split
  · split
    · next hfull =>
      obtain ⟨hps', htree'⟩ := feed_buffer hps hfull htree
      refine ⟨_, hps', htree', ?_⟩
      rw [List.flatten_append, List.flatten_singleton, List.append_nil, List.append_assoc]
    · exact ⟨ps, hps, htree, (List.append_assoc _ _ _).symm⟩
  · next hmore =>
    have hpart : (b.buf ++ data.take (hasherBufferSize - b.buf.length)).length =
        hasherBufferSize := by
      rw [List.length_append, List.length_take]
      omega
    obtain ⟨hps', htree'⟩ := feed_buffer hps hpart htree
    have hloop := holds_updateLoop hps' htree' (data.drop (hasherBufferSize - b.buf.length))
    rwa [List.flatten_append, List.flatten_singleton, List.append_assoc, List.append_assoc,
      List.take_append_drop, ← List.append_assoc] at hloop

/-- The root is the one of the whole string. -/
theorem Holds.finalize {b : BufferedTigerTreeHasher V} {data : List UInt8} (h : Holds H b data) :
    b.finalize H = treeHash H data := by
  obtain ⟨ps, hps, htree, rfl⟩ := h
  have hdvd : baseBlockSize ∣ hasherBufferSize := by decide
  have hne : ∀ p ∈ ps, p ≠ [] := by
    rintro _ hp rfl
    exact absurd (hps [] hp) (by decide)
  unfold BufferedTigerTreeHasher.finalize
  split
  · next hbuf =>
    have haligned : Aligned ps := by
      intro p hp
      rw [hps p ((List.dropLast_sublist ps).subset hp)]
      exact hdvd
    have hfirst : StartsProperly ps := fun hnil => absurd rfl (hne [] (List.mem_of_head? hnil))
    have hroot := (hashPieces_eq H 30 (by decide) ps haligned hfirst).2.1
    rw [hbuf, List.append_nil, ← hroot, htree]
    rfl
  · next hbuf =>
    have haligned : Aligned (ps ++ [b.buf]) := by
      intro p hp
      rw [List.dropLast_concat] at hp
      rw [hps p hp]
      exact hdvd
    have hfirst : StartsProperly (ps ++ [b.buf]) := by
      intro hnil
      rcases List.mem_append.mp (List.mem_of_head? hnil) with hp | hp
      · exact absurd rfl (hne [] hp)
      · exact absurd (List.mem_singleton.mp hp).symm hbuf
    have hroot := (hashPieces_eq H 30 (by decide) (ps ++ [b.buf]) haligned hfirst).2.1
    rw [List.flatten_append, List.flatten_singleton] at hroot
    rw [← hroot, htree, hashPieces, List.foldl_append]
    rfl

theorem holds_foldl {b : BufferedTigerTreeHasher V} {fed : List UInt8} (h : Holds H b fed)
    (ps : List (List UInt8)) :
    Holds H (ps.foldl (fun b p => b.update H p) b) (fed ++ ps.flatten) := by
  induction ps generalizing b fed with
  | nil => rwa [List.flatten_nil, List.append_nil]
  | cons p ps ih =>
    rw [List.foldl_cons, List.flatten_cons, ← List.append_assoc]
    exact ih (h.update p)

end BufferedTigerTreeHasher
end Blacklink.Hash
