import Blacklink.Hash.Fed
import Blacklink.HashManager.Hashing

/-!
# When the reported tree is the one of the file

What `fastHash` and `slowHash` feed into the tree depends on the reads alone. The tree is right when
it was empty before, when everything has been read, and when all reads but the last gave whole base
blocks (`client/HashManager.cpp:292-467, 544-626`). None of this is checked.
-/

namespace Blacklink.HashManager

open Blacklink.Base Blacklink.Hash

/-! ### Reads -/

/-- How the reads of a file end. -/
inductive ReadEnd where
  | complete
  | endOfFile
  | error
  | fileSkipped
  | stopped
  deriving DecidableEq

/-- What is fed into the tree, and how the reads end. -/
structure Reads where
  fed : List (List UInt8)
  ended : ReadEnd

/-- A piece is fed before the rest. -/
def Reads.cons (p : List UInt8) (r : Reads) : Reads := ⟨p :: r.fed, r.ended⟩

/-- The reads of the loop of `slowHash`. -/
def slowReads (rest : List UInt8) (fileSize : Nat) : List Turn → Reads
  | [] => ⟨[], if fileSize = 0 then .complete else .error⟩
  | t :: ts =>
    if fileSize = 0 then ⟨[], .complete⟩
    else if t.stopFlag then ⟨[], .stopped⟩
    else
      match t.read with
      | none => ⟨[], .error⟩
      | some n =>
        let buf := rest.take (min n (min slowHashBufSize fileSize))
        if buf = [] then ⟨[], .endOfFile⟩
        else if t.skipFile then ⟨[], .fileSkipped⟩
        else .cons buf (slowReads (rest.drop buf.length) (fileSize - buf.length) ts)

/-- The reads of the loop of `fastHash`. -/
def fastLoopReads (hbuf rest : List UInt8) (fileSize : Nat) : List Turn → Reads
  | [] => ⟨[hbuf], if fileSize = 0 then .complete else .error⟩
  | t :: ts =>
    if fileSize = 0 then ⟨[hbuf], .complete⟩
    else if t.stopFlag then ⟨[], .stopped⟩
    else
      match overlappedRead rest t.read with
      | none => ⟨[hbuf], .error⟩
      | some data =>
        let rbuf := data.take fileSize
        if t.skipFile then ⟨[hbuf], .fileSkipped⟩
        else .cons hbuf (fastLoopReads rbuf (rest.drop rbuf.length) (fileSize - rbuf.length) ts)

/-- The reads of `fastHash`, of a file that could be opened. -/
def fastReads (content : List UInt8) (fileSize : Nat) (turns : List Turn) : Reads :=
  if fileSize = 0 then ⟨[], .complete⟩
  else
    match turns with
    | [] => ⟨[], .error⟩
    | t :: ts =>
      match overlappedRead content t.read with
      | none => ⟨[], .error⟩
      | some data =>
        let hbuf := data.take fileSize
        fastLoopReads hbuf (content.drop hbuf.length) (fileSize - hbuf.length) ts

/-- What the reads of a file of some size are like. -/
structure Reads.Of (r : Reads) (content : List UInt8) (fileSize : Nat) (turns : List Turn) :
    Prop where
  ne_nil : ∀ p ∈ r.fed, p ≠ []
  complete : r.ended = .complete →
    r.fed.flatten = content.take fileSize ∧ r.fed.flatten.length = fileSize
  endOfFile : r.ended = .endOfFile → r.fed.flatten.length < fileSize
  fileSkipped : r.ended = .fileSkipped → ∃ t ∈ turns, t.skipFile
  stopped : r.ended = .stopped → ∃ t ∈ turns, t.stopFlag

theorem overlappedRead_eq_some {rest data : List UInt8} {read : Option Nat}
    (h : overlappedRead rest read = some data) : data ≠ [] ∧ data <+: rest := by
  obtain ⟨n, -, h⟩ := Option.bind_eq_some_iff.mp h
  dsimp only at h
  split at h
  · cases h
  · next hne =>
    cases h
    exact ⟨hne, List.take_prefix _ _⟩

private theorem take_of_prefix {p l : List UInt8} {n : Nat} (h : p <+: l) (hp : p.length ≤ n) :
    l.take n = p ++ (l.drop p.length).take (n - p.length) := by
  obtain ⟨m, rfl⟩ := h
  rw [List.drop_left, List.take_append, List.take_of_length_le hp]

/-- A piece before the rest. -/
theorem Reads.Of.cons {r : Reads} {content p : List UInt8} {fileSize : Nat} {t : Turn}
    {ts : List Turn} (hp : p ≠ []) (hstart : p <+: content) (hle : p.length ≤ fileSize)
    (h : r.Of (content.drop p.length) (fileSize - p.length) ts) :
    (r.cons p).Of content fileSize (t :: ts) := by
  constructor
  · intro q hq
    rcases List.mem_cons.mp hq with rfl | hq
    · exact hp
    · exact h.ne_nil q hq
  · intro hend
    obtain ⟨hflat, hlen⟩ := h.complete hend
    have hcons : (r.cons p).fed.flatten = p ++ r.fed.flatten := rfl
    rw [hcons, List.length_append, hlen, hflat, take_of_prefix hstart hle]
    exact ⟨rfl, by omega⟩
  · intro hend
    have hlt := h.endOfFile hend
    have hcons : (r.cons p).fed.flatten = p ++ r.fed.flatten := rfl
    rw [hcons, List.length_append]
    omega
  · intro hend
    obtain ⟨t', ht', hskip⟩ := h.fileSkipped hend
    exact ⟨t', List.mem_cons_of_mem _ ht', hskip⟩
  · intro hend
    obtain ⟨t', ht', hstop⟩ := h.stopped hend
    exact ⟨t', List.mem_cons_of_mem _ ht', hstop⟩

theorem reads_of_error (content : List UInt8) (fileSize : Nat) (turns : List Turn) :
    Reads.Of ⟨[], .error⟩ content fileSize turns :=
  ⟨fun _ h => absurd h List.not_mem_nil, nofun, nofun, nofun, nofun⟩

private theorem of_complete (content : List UInt8) (turns : List Turn) :
    Reads.Of ⟨[], .complete⟩ content 0 turns :=
  ⟨fun _ h => absurd h List.not_mem_nil, fun _ => ⟨rfl, rfl⟩, nofun, nofun, nofun⟩

theorem slowReads_of (content : List UInt8) (fileSize : Nat) (turns : List Turn) :
    (slowReads content fileSize turns).Of content fileSize turns := by
  induction turns generalizing content fileSize with
  | nil =>
    rw [slowReads]
    split
    · next h =>
      rw [h]
      exact of_complete content []
    · exact reads_of_error content fileSize []
  | cons t ts ih =>
    rw [slowReads]
    split
    · next h =>
      rw [h]
      exact of_complete content _
    · next hsize =>
      split
      · next hstop =>
        exact ⟨fun _ h => absurd h List.not_mem_nil, nofun, nofun, nofun,
          fun _ => ⟨t, List.mem_cons_self, hstop⟩⟩
      · split
        · exact reads_of_error content fileSize _
        · next n _ =>
          dsimp only
          split
          · exact ⟨fun _ h => absurd h List.not_mem_nil, nofun, fun _ => Nat.pos_of_ne_zero hsize,
              nofun, nofun⟩
          · next hne =>
            split
            · next hskip =>
              exact ⟨fun _ h => absurd h List.not_mem_nil, nofun, nofun,
                fun _ => ⟨t, List.mem_cons_self, hskip⟩, nofun⟩
            · apply Reads.Of.cons hne (List.take_prefix _ _) _ (ih _ _)
              rw [List.length_take]
              omega

/-- Here the piece that has been read is fed before the next one is looked at. -/
private theorem fastLoopReads_of {content hbuf : List UInt8} {fileSize : Nat} (t : Turn)
    (turns : List Turn) (hne : hbuf ≠ []) (hstart : hbuf <+: content)
    (hle : hbuf.length ≤ fileSize) :
    (fastLoopReads hbuf (content.drop hbuf.length) (fileSize - hbuf.length) turns).Of content
      fileSize (t :: turns) := by
  induction turns generalizing content hbuf fileSize t with
  | nil =>
    rw [fastLoopReads]
    split
    · next h =>
      apply Reads.Of.cons (r := ⟨[], .complete⟩) hne hstart hle
      rw [h]
      exact of_complete _ []
    · exact Reads.Of.cons (r := ⟨[], .error⟩) hne hstart hle (reads_of_error _ _ [])
  | cons t' ts ih =>
    rw [fastLoopReads]
    split
    · next h =>
      apply Reads.Of.cons (r := ⟨[], _⟩) hne hstart hle
      rw [h]
      exact of_complete _ _
    · next hsize =>
      split
      · next hstop =>
        exact ⟨fun _ h => absurd h List.not_mem_nil, nofun, nofun, nofun,
          fun _ => ⟨t', List.mem_cons_of_mem _ List.mem_cons_self, hstop⟩⟩
      · split
        · exact Reads.Of.cons (r := ⟨[], _⟩) hne hstart hle (reads_of_error _ _ _)
        · next data hdata =>
          obtain ⟨hdne, hdprefix⟩ := overlappedRead_eq_some hdata
          dsimp only
          split
          · next hskip =>
            apply Reads.Of.cons (r := ⟨[], _⟩) hne hstart hle
            exact ⟨fun _ h => absurd h List.not_mem_nil, nofun, nofun,
              fun _ => ⟨t', List.mem_cons_self, hskip⟩, nofun⟩
          · apply Reads.Of.cons hne hstart hle
            apply ih
            · rw [Ne, List.take_eq_nil_iff]
              exact fun h => h.elim hsize hdne
            · exact (List.take_prefix _ _).trans hdprefix
            · rw [List.length_take]
              omega

theorem fastReads_of (content : List UInt8) (fileSize : Nat) (turns : List Turn) :
    (fastReads content fileSize turns).Of content fileSize turns := by
  unfold fastReads
  split
  · next h =>
    rw [h]
    exact of_complete content turns
  · next hsize =>
    cases turns with
    | nil => exact reads_of_error content fileSize []
    | cons t ts =>
      dsimp only
      split
      · exact reads_of_error content fileSize _
      · next data hdata =>
        obtain ⟨hdne, hdprefix⟩ := overlappedRead_eq_some hdata
        apply fastLoopReads_of
        · rw [Ne, List.take_eq_nil_iff]
          exact fun h => h.elim hsize hdne
        · exact (List.take_prefix _ _).trans hdprefix
        · rw [List.length_take]
          omega

/-- `fastHash` does not take the end of the file for the end. -/
theorem fastReads_ended (content : List UInt8) (fileSize : Nat) (turns : List Turn) :
    (fastReads content fileSize turns).ended ≠ .endOfFile := by
  have hloop : ∀ (turns : List Turn) (hbuf rest : List UInt8) (fileSize : Nat),
      (fastLoopReads hbuf rest fileSize turns).ended ≠ .endOfFile := by
    intro turns
    induction turns with
    | nil =>
      intro hbuf rest fileSize
      rw [fastLoopReads]
      split <;> nofun
    | cons t ts ih =>
      intro hbuf rest fileSize
      rw [fastLoopReads]
      split
      · nofun
      · split
        · nofun
        · split
          · nofun
          · dsimp only
            split
            · nofun
            · exact ih _ _ _
  unfold fastReads
  split
  · nofun
  · split
    · nofun
    · split
      · nofun
      · exact hloop _ _ _ _

/-! ### What the reads make of a tree -/

/-- What is returned for reads that end so. -/
def ReadEnd.result : ReadEnd → Result
  | .complete | .endOfFile => .ok
  | .error => .error
  | .fileSkipped => .fileSkipped
  | .stopped => .stopped

section

variable {V : Type} (H : Hasher V)

/-- The tree after pieces have been fed. -/
def feed (tree : MerkleTree V) (ps : List (List UInt8)) : MerkleTree V :=
  ps.foldl (fun t p => t.update H p) tree

/-- What is returned is what the reads make of the tree. -/
structure Hashes (tree : MerkleTree V) (r : Reads) (h : Hashing V) : Prop where
  result : h.result = r.ended.result
  complete : r.ended = .complete → h.tree = (feed H tree r.fed).finalize H ∧ h.fileSize = 0
  endOfFile : r.ended = .endOfFile → 0 < h.fileSize
  error : r.ended = .error → h.tree = feed H tree r.fed

variable {H}

theorem Hashes.cons {tree : MerkleTree V} {p : List UInt8} {r : Reads} {h : Hashing V}
    (hr : Hashes H (tree.update H p) r h) : Hashes H tree (r.cons p) h :=
  ⟨hr.result, hr.complete, hr.endOfFile, hr.error⟩

theorem hashes_error (tree : MerkleTree V) (n : Nat) :
    Hashes H tree ⟨[], .error⟩ ⟨.error, tree, n⟩ := ⟨rfl, nofun, nofun, fun _ => rfl⟩

private theorem hashes_complete (tree : MerkleTree V) :
    Hashes H tree ⟨[], .complete⟩ ⟨.ok, tree.finalize H, 0⟩ :=
      ⟨rfl, fun _ => ⟨rfl, rfl⟩, nofun, nofun⟩

theorem hashes_slowLoop (tree : MerkleTree V) (content : List UInt8) (fileSize : Nat)
    (turns : List Turn) :
    Hashes H tree (slowReads content fileSize turns)
      (slowLoop H tree content fileSize turns) := by
  induction turns generalizing tree content fileSize with
  | nil =>
    rw [slowReads, slowLoop]
    split
    · exact hashes_complete tree
    · exact hashes_error tree fileSize
  | cons t ts ih =>
    rw [slowReads, slowLoop]
    split
    · exact hashes_complete tree
    · next hsize =>
      split
      · exact ⟨rfl, nofun, nofun, nofun⟩
      · cases t.read with
        | none => exact hashes_error tree fileSize
        | some n =>
          dsimp only
          split
          · exact ⟨rfl, nofun, fun _ => Nat.pos_of_ne_zero hsize, nofun⟩
          · split
            · exact ⟨rfl, nofun, nofun, nofun⟩
            · exact (ih _ _ _).cons

theorem hashes_fastLoop (tree : MerkleTree V) (hbuf rest : List UInt8) (fileSize : Nat)
    (turns : List Turn) :
    Hashes H tree (fastLoopReads hbuf rest fileSize turns)
      (fastLoop H tree hbuf rest fileSize turns) := by
  induction turns generalizing tree hbuf rest fileSize with
  | nil =>
    rw [fastLoopReads, fastLoop]
    split
    · exact (hashes_complete _).cons
    · exact (hashes_error _ _).cons
  | cons t ts ih =>
    rw [fastLoopReads, fastLoop]
    split
    · exact (hashes_complete _).cons
    · split
      · exact ⟨rfl, nofun, nofun, nofun⟩
      · dsimp only
        cases overlappedRead rest t.read with
        | none => exact (hashes_error _ _).cons
        | some data =>
          dsimp only
          split
          · exact Hashes.cons (r := ⟨[], .fileSkipped⟩) ⟨rfl, nofun, nofun, nofun⟩
          · exact (ih _ _ _ _).cons

/-- The reads of `fastHash`. -/
theorem hashes_fastHash (content : List UInt8) (fileSize : Nat) (tree : MerkleTree V)
    (turns : List Turn) :
    Hashes H tree (fastReads content fileSize turns)
      (fastHash H true content fileSize tree turns) := by
  unfold fastReads fastHash
  rw [Bool.not_true, if_neg Bool.false_ne_true]
  split
  · exact hashes_complete tree
  · cases turns with
    | nil => exact hashes_error tree fileSize
    | cons t ts =>
      dsimp only
      cases overlappedRead content t.read with
      | none => exact hashes_error tree fileSize
      | some data => exact hashes_fastLoop _ _ _ _ _

end

/-! ### The tree of a file -/

section

variable {V : Type} (H : Hasher V)

/-- The reference tree of the data. -/
structure IsTigerTree (data : List UInt8) (t : MerkleTree V) : Prop where
  blockSize : t.blockSize = getMaxBlockSize data.length
  fileSize : t.fileSize = data.length
  leaves : t.leaves = blockHashes H t.blockSize data
  root : t.root = treeHash H data

variable {H}

theorem fileSize_feed (tree : MerkleTree V) (ps : List (List UInt8)) :
    ((feed H tree ps).finalize H).fileSize = tree.fileSize + ps.flatten.length := by
  rw [(MerkleTree.finalize_blockSize H _).2, feed, MerkleTree.fileSize_feed]

theorem blockSize_feed (tree : MerkleTree V) (ps : List (List UInt8)) :
    ((feed H tree ps).finalize H).blockSize = tree.blockSize := by
  rw [(MerkleTree.finalize_blockSize H _).1]
  induction ps generalizing tree with
  | nil => rfl
  | cons p ps ih => exact (ih _).trans (MerkleTree.update_blockSize H tree p)

private theorem holds_clearTree (tree : MerkleTree V) {m fileSize : Nat}
    (hm : getMaxBlockSize fileSize = baseBlockSize * 2 ^ m) :
    MerkleTree.Holds H m [] (clearTree tree fileSize) [] :=
  ⟨hm, fun _ h => absurd h List.not_mem_nil, [], [], rfl, fun _ h => absurd h List.not_mem_nil, rfl,
    .nil⟩

/-- The leaves are those over the blocks that were hashed. -/
private theorem leaves_feed (tree : MerkleTree V) {m fileSize : Nat}
    (hm : getMaxBlockSize fileSize = baseBlockSize * 2 ^ m) {ps : List (List UInt8)} (hne : ps ≠ [])
    (hps : ∀ p ∈ ps, p ≠ []) :
    ((feed H (clearTree tree fileSize) ps).finalize H).leaves =
      (pieces (2 ^ m) (fedBlocks ps)).map fun bs =>
        treeRoot H.combine H.zero (bs.map H.hashBlock) := by
  have hholds := (holds_clearTree (H := H) tree hm).feed hps
  have hfed : (fedBlocks ps).map H.hashBlock ≠ [] :=
    fun h => fedBlocks_ne_nil hne (List.map_eq_nil_iff.mp h)
  rw [List.nil_append] at hholds
  rw [feed, hholds.finalize_leaves hfed, List.nil_append, pieces_map, List.map_map]
  rfl

/-- The root is that over the leaves, when these are as many as the file has blocks. -/
private theorem isTigerTree_of_leaves (tree : MerkleTree V) {ps : List (List UInt8)}
    (h : ((feed H (clearTree tree ps.flatten.length) ps).finalize H).leaves =
      blockHashes H (getMaxBlockSize ps.flatten.length) ps.flatten) :
    IsTigerTree H ps.flatten ((feed H (clearTree tree ps.flatten.length) ps).finalize H) := by
  have hblock := blockSize_feed (H := H) (clearTree tree ps.flatten.length) ps
  have hsize := fileSize_feed (H := H) (clearTree tree ps.flatten.length) ps
  change _ = getMaxBlockSize ps.flatten.length at hblock
  rw [show (clearTree tree ps.flatten.length).fileSize = 0 from rfl, Nat.zero_add] at hsize
  obtain ⟨m, hm⟩ := getMaxBlockSize_eq ps.flatten.length
  refine ⟨hblock, hsize, by rw [h, hblock], ?_⟩
  rw [MerkleTree.finalize_root, h, hm, treeRoot_blockHashes]
  rw [(MerkleTree.finalize_blockSize H _).1] at hblock
  rw [(MerkleTree.finalize_blockSize H _).2] at hsize
  rw [h, blockHashes, List.length_map, length_pieces (getMaxBlockSize_pos _), hblock, hsize]

/-- Pieces that are aligned make the tree of the whole string. -/
theorem isTigerTree_feed (tree : MerkleTree V) {ps : List (List UInt8)} (hps : ∀ p ∈ ps, p ≠ [])
    (ha : Aligned ps) :
    IsTigerTree H ps.flatten ((feed H (clearTree tree ps.flatten.length) ps).finalize H) := by
  obtain ⟨m, hm⟩ := getMaxBlockSize_eq ps.flatten.length
  apply isTigerTree_of_leaves
  by_cases hne : ps = []
  · subst hne
    have hleaves := (holds_clearTree (H := H) tree hm).finalize_leaves_nil
    rw [hm]
    exact hleaves
  · rw [leaves_feed tree hm hne hps, (fedBlocks_eq_iff hne hps).mpr ha, hm, blockHashes_eq,
      pieces_map, List.map_map]
    rfl

/-- Without collisions no other pieces do. -/
theorem aligned_of_isTigerTree (hH : H.CollisionFree) {tree : MerkleTree V}
    {ps : List (List UInt8)} (hps : ∀ p ∈ ps, p ≠ [])
    (h : IsTigerTree H ps.flatten
      ((feed H (clearTree tree ps.flatten.length) ps).finalize H)) : Aligned ps := by
  by_cases hne : ps = []
  · rw [hne]
    exact fun _ h => absurd h List.not_mem_nil
  · obtain ⟨m, hm⟩ := getMaxBlockSize_eq ps.flatten.length
    have hleaves := h.leaves
    rw [leaves_feed tree hm hne hps, h.blockSize, hm, blockHashes_eq, pieces_map,
      List.map_map] at hleaves
    have hpieces : pieces (2 ^ m) (fedBlocks ps) =
        pieces (2 ^ m) (pieces baseBlockSize ps.flatten) := by
      apply map_treeRoot_injective hH _ _ hleaves
      · exact fun g hg => ne_nil_of_mem_pieces (Nat.two_pow_pos m) (fedBlocks_ne_nil hne) hg
      · exact fun g hg => ne_nil_of_mem_pieces (Nat.two_pow_pos m) (pieces_ne_nil _ _) hg
    rw [← fedBlocks_eq_iff hne hps, ← flatten_pieces (2 ^ m) (fedBlocks ps), hpieces,
      flatten_pieces]

end

end Blacklink.HashManager
