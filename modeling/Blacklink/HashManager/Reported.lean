import Blacklink.HashManager.FileReads

/-!
# Reports of the hasher

A file may be reported as hashed only with the tree of its first `size` bytes, all of which have
been read (`client/HashManager.cpp:292-467, 544-626`). It may be reported with another tree when the
file has become shorter, when `fastHash` fails on the way, when the tree in the stream is loaded but
is not taken, and when a read gives part of a base block.
-/

namespace Blacklink.HashManager

open Blacklink.Base Blacklink.Hash

namespace HashInput

variable {V : Type} (input : HashInput V)

/-- What `fastHash` reads, when it comes to that. -/
def fast : Reads :=
  if input.optSaveTree ∧ input.fastOpened then
    fastReads input.content input.fileSize input.fastTurns
  else ⟨[], .error⟩

/-- What `slowHash` reads. -/
def slow : Reads :=
  if input.slowOpened then slowReads input.content input.fileSize input.slowTurns
  else ⟨[], .error⟩

/-- A report that is allowed: a tree is that of the first bytes, all of which have been read; and
unless the thread was told to skip the file or to stop, there is a report. -/
def Sound (H : Hasher V) : Report V → Prop
  | .fileHashed tree left => left = 0 ∧ IsTigerTree H (input.content.take input.fileSize) tree
  | .hashingError => True
  | .fileSkipped => ∃ t ∈ input.fastTurns ++ input.slowTurns, t.skipFile
  | .stopped => ∃ t ∈ input.fastTurns ++ input.slowTurns, t.stopFlag

/-- The tree in the stream is taken for that of the file. -/
def takesStream [DecidableEq V] (H : Hasher V) : Bool :=
  input.loadableLeaves.any fun loadable =>
    decide (loadable.1.blockSize = (MerkleTree.load H input.fileSize loadable.2).blockSize ∧
      (MerkleTree.load H input.fileSize loadable.2).root = loadable.1.root)

/-- If the reads of `fastHash` or, after an error, those of `slowHash` come to an end, all bytes
have been read, in whole base blocks but for the last read, into a tree into which neither the
stream nor `fastHash` has put anything before. -/
def ReadsEndWell : Prop :=
  match input.fast.ended with
  | .complete => input.loadableLeaves = none ∧ Aligned input.fast.fed
  | .error =>
    match input.slow.ended with
    | .complete => input.loadableLeaves = none ∧ input.fast.fed = [] ∧ Aligned input.slow.fed
    | .endOfFile => False
    | _ => True
  | _ => True

/-- The condition, on a file that has the size it was queued with: its tree is not taken from the
stream, and its reads end well. -/
def ReadsWell [DecidableEq V] (H : Hasher V) : Prop :=
  input.size = some input.fileSize → input.takesStream H = false ∧ input.ReadsEndWell

/-! ### The reads of a file -/

theorem fast_of : input.fast.Of input.content input.fileSize input.fastTurns := by
  rw [fast]
  split
  · exact fastReads_of _ _ _
  · exact reads_of_error _ _ _

theorem slow_of : input.slow.Of input.content input.fileSize input.slowTurns := by
  rw [slow]
  split
  · exact slowReads_of _ _ _
  · exact reads_of_error _ _ _

theorem fast_ended : input.fast.ended ≠ .endOfFile := by
  rw [fast]
  split
  · exact fastReads_ended _ _ _
  · nofun

variable {V : Type} {input : HashInput V} {H : Hasher V}

/-- What `fastHash` returns, or the error where it is not called. -/
def fastHashing (input : HashInput V) (H : Hasher V) (tree : MerkleTree V) : Hashing V :=
  if input.optSaveTree then
    fastHash H input.fastOpened input.content input.fileSize tree input.fastTurns
  else ⟨.error, tree, input.fileSize⟩

theorem hashes_fastHashing (tree : MerkleTree V) :
    Hashes H tree input.fast (input.fastHashing H tree) := by
  rw [fast, fastHashing]
  cases input.optSaveTree with
  | false => exact hashes_error tree _
  | true =>
    cases input.fastOpened with
    | false => exact hashes_error tree _
    | true => exact hashes_fastHash _ _ _ _

theorem hashes_slowHash (H : Hasher V) (input : HashInput V) (tree : MerkleTree V) :
    Hashes H tree input.slow
      (slowHash H input.slowOpened input.content input.fileSize tree input.slowTurns) := by
  rw [slow, slowHash]
  cases input.slowOpened with
  | false => exact hashes_error tree _
  | true => exact hashes_slowLoop _ _ _ _

/-! ### What is reported for reads that end so -/

section

variable {r : Reads} {turns : List Turn} {tree : MerkleTree V} {h : Hashing V}

/-- All has been read into an empty tree. -/
theorem sound_complete (hr : r.Of input.content input.fileSize turns) (tree₀ : MerkleTree V)
    (hh : Hashes H (clearTree tree₀ input.fileSize) r h) (hend : r.ended = .complete) :
    (Aligned r.fed → input.Sound H h.report) ∧
      (H.CollisionFree → input.Sound H h.report → Aligned r.fed) := by
  obtain ⟨hflat, hlen⟩ := hr.complete hend
  obtain ⟨htree, hleft⟩ := hh.complete hend
  have hresult := hh.result
  rw [hend] at hresult
  rw [Hashing.report, hresult]
  change (_ → _ = 0 ∧ IsTigerTree H _ _) ∧ (_ → _ = 0 ∧ IsTigerTree H _ _ → _)
  rw [htree, ← hflat, ← hlen]
  constructor
  · exact fun ha => ⟨hleft, isTigerTree_feed tree₀ hr.ne_nil ha⟩
  · exact fun hH hsound => aligned_of_isTigerTree hH hr.ne_nil hsound.2

/-- All has been read into a tree where something was before. -/
theorem not_sound_of_fileSize (hr : r.Of input.content input.fileSize turns)
    (hh : Hashes H tree r h) (hend : r.ended = .complete) (htree : 0 < tree.fileSize) :
    ¬ input.Sound H h.report := by
  obtain ⟨hflat, hlen⟩ := hr.complete hend
  have hresult := hh.result
  rw [hend] at hresult
  rw [Hashing.report, hresult]
  rintro ⟨-, hsound⟩
  have hsize := hsound.fileSize
  rw [(hh.complete hend).1, fileSize_feed, hflat] at hsize
  omega

/-- The file has become shorter. -/
theorem not_sound_of_endOfFile (hh : Hashes H tree r h) (hend : r.ended = .endOfFile) :
    ¬ input.Sound H h.report := by
  have hresult := hh.result
  rw [hend] at hresult
  rw [Hashing.report, hresult]
  rintro ⟨hleft, -⟩
  exact absurd hleft (Nat.ne_of_gt (hh.endOfFile hend))

/-- Nothing is reported as hashed. -/
theorem sound_of_ended (hr : r.Of input.content input.fileSize turns) (hh : Hashes H tree r h)
    (hturns : turns ⊆ input.fastTurns ++ input.slowTurns) (hcomplete : r.ended ≠ .complete)
    (heof : r.ended ≠ .endOfFile) : input.Sound H h.report := by
  have hresult := hh.result
  rw [Hashing.report, hresult]
  cases hend : r.ended with
  | complete => exact absurd hend hcomplete
  | endOfFile => exact absurd hend heof
  | error => trivial
  | fileSkipped =>
    obtain ⟨t, ht, hskip⟩ := hr.fileSkipped hend
    exact ⟨t, hturns ht, hskip⟩
  | stopped =>
    obtain ⟨t, ht, hstop⟩ := hr.stopped hend
    exact ⟨t, hturns ht, hstop⟩

end

/-- What is reported when the tree in the stream is not taken. -/
def readReport (input : HashInput V) (H : Hasher V) (tree : MerkleTree V) : Report V :=
  if (input.fastHashing H tree).result = .error then
    (slowHash H input.slowOpened input.content input.fileSize (input.fastHashing H tree).tree
      input.slowTurns).report
  else (input.fastHashing H tree).report

/-- The reads alone decide whether the report is allowed. -/
theorem sound_readReport {tree : MerkleTree V} (hempty : input.loadableLeaves = none →
      ∃ tree₀, tree = clearTree tree₀ input.fileSize)
    (hloaded : input.loadableLeaves ≠ none → 0 < tree.fileSize) :
    (input.ReadsEndWell → input.Sound H (input.readReport H tree)) ∧
      (H.CollisionFree → input.Sound H (input.readReport H tree) → input.ReadsEndWell) := by
  have hfast : Hashes H tree input.fast (input.fastHashing H tree) := hashes_fastHashing tree
  have hslow := hashes_slowHash H input (input.fastHashing H tree).tree
  have hresult := hfast.result
  unfold readReport ReadsEndWell
  cases hend : input.fast.ended with
  | complete =>
    rw [hend] at hresult
    rw [hresult, if_neg (by decide)]
    by_cases hload : input.loadableLeaves = none
    · obtain ⟨tree₀, rfl⟩ := hempty hload
      obtain ⟨hif, honly⟩ := sound_complete input.fast_of tree₀ hfast hend
      exact ⟨fun h => hif h.2, fun hH h => ⟨hload, honly hH h⟩⟩
    · have hnot := not_sound_of_fileSize input.fast_of hfast hend (hloaded hload)
      exact ⟨fun h => absurd h.1 hload, fun _ h => absurd h hnot⟩
  | endOfFile => exact absurd hend input.fast_ended
  | fileSkipped | stopped =>
    rw [hend] at hresult
    rw [hresult, if_neg (by decide)]
    refine ⟨fun _ => ?_, fun _ _ => trivial⟩
    apply sound_of_ended input.fast_of hfast (List.subset_append_left _ _)
    · rw [hend]
      decide
    · rw [hend]
      decide
  | error =>
    rw [hend] at hresult
    rw [hresult, if_pos (show ReadEnd.error.result = Result.error from rfl)]
    have htree := hfast.error hend
    cases hslowEnd : input.slow.ended with
    | complete =>
      dsimp only
      by_cases hclean : input.loadableLeaves = none ∧ input.fast.fed = []
      · obtain ⟨tree₀, rfl⟩ := hempty hclean.1
        rw [hclean.2] at htree
        rw [htree] at hslow
        obtain ⟨hif, honly⟩ := sound_complete input.slow_of tree₀ hslow hslowEnd
        rw [htree]
        exact ⟨fun h => hif h.2.2, fun hH h => ⟨hclean.1, hclean.2, honly hH h⟩⟩
      · have hpos : 0 < (input.fastHashing H tree).tree.fileSize := by
          rw [htree, feed, MerkleTree.fileSize_feed]
          by_cases hload : input.loadableLeaves = none
          · have hfed : input.fast.fed ≠ [] := fun h => hclean ⟨hload, h⟩
            obtain ⟨p, ps, hps⟩ := List.exists_cons_of_ne_nil hfed
            have hp := input.fast_of.ne_nil p (by rw [hps]; exact List.mem_cons_self)
            rw [hps, List.flatten_cons, List.length_append]
            have := List.length_pos_iff.mpr hp
            omega
          · have := hloaded hload
            omega
        have hnot := not_sound_of_fileSize input.slow_of hslow hslowEnd hpos
        exact ⟨fun h => absurd ⟨h.1, h.2.1⟩ hclean, fun _ h => absurd h hnot⟩
    | endOfFile => exact ⟨False.elim, fun _ => not_sound_of_endOfFile hslow hslowEnd⟩
    | error | fileSkipped | stopped =>
      refine ⟨fun _ => ?_, fun _ _ => trivial⟩
      apply sound_of_ended input.slow_of hslow (List.subset_append_right _ _)
      · rw [hslowEnd]
        decide
      · rw [hslowEnd]
        decide

/-! ### The tree in the stream -/

theorem fileSize_pos_of_loadable (h : input.loadableLeaves ≠ none) : 0 < input.fileSize := by
  obtain ⟨x, hx⟩ := Option.ne_none_iff_exists'.mp h
  obtain ⟨st, -, hst⟩ := Option.bind_eq_some_iff.mp hx
  dsimp only at hst
  split at hst
  · next hcond => exact hcond.1
  · cases hst

variable [DecidableEq V]

theorem doLoadTree_fst (tree : MerkleTree V) :
    (input.doLoadTree H tree).1 = input.takesStream H := by
  rw [doLoadTree, takesStream]
  cases input.loadableLeaves <;> rfl

theorem doLoadTree_of_none (h : input.loadableLeaves = none) (tree : MerkleTree V) :
    (input.doLoadTree H tree).2 = tree := by
  rw [doLoadTree, h]

theorem fileSize_doLoadTree (h : input.loadableLeaves ≠ none) (tree : MerkleTree V) :
    (input.doLoadTree H tree).2.fileSize = input.fileSize := by
  obtain ⟨x, hx⟩ := Option.ne_none_iff_exists'.mp h
  rw [doLoadTree, hx]
  rfl

theorem hash_of_size (hsize : input.size = some input.fileSize) (tree : MerkleTree V) :
    input.hash H tree =
      if input.takesStream H then
        .fileHashed (input.doLoadTree H (clearTree tree input.fileSize)).2 input.fileSize
      else input.readReport H (input.doLoadTree H (clearTree tree input.fileSize)).2 := by
  rw [hash, hsize, ← doLoadTree_fst (clearTree tree input.fileSize)]
  dsimp only
  rw [if_neg (fun h => h rfl)]
  rfl

theorem hash_of_size_ne (hsize : input.size ≠ some input.fileSize) (tree : MerkleTree V) :
    input.hash H tree = .hashingError := by
  rw [hash]
  cases h : input.size with
  | none => rfl
  | some size =>
    rw [h] at hsize
    exact if_pos fun heq => hsize (congrArg some heq)

/-- What is reported for a file is allowed when the reads meet the condition, and, if the hash has
no collisions, only then. -/
theorem sound_hash_iff (H : Hasher V) (input : HashInput V) (tree : MerkleTree V) :
    (input.ReadsWell H → input.Sound H (input.hash H tree)) ∧
      (H.CollisionFree → input.Sound H (input.hash H tree) → input.ReadsWell H) := by
  by_cases hsize : input.size = some input.fileSize
  · rw [hash_of_size hsize]
    cases htakes : input.takesStream H with
    | true =>
      have hpos : 0 < input.fileSize := by
        apply fileSize_pos_of_loadable
        intro hnone
        rw [takesStream, hnone] at htakes
        cases htakes
      rw [if_pos rfl]
      constructor
      · intro hwell
        have hfalse := (hwell hsize).1
        rw [htakes] at hfalse
        cases hfalse
      · exact fun _ hsound => absurd hsound.1 (Nat.ne_of_gt hpos)
    | false =>
      rw [if_neg Bool.false_ne_true]
      have hempty : input.loadableLeaves = none → ∃ tree₀,
          (input.doLoadTree H (clearTree tree input.fileSize)).2 =
            clearTree tree₀ input.fileSize :=
        fun hnone => ⟨tree, doLoadTree_of_none hnone _⟩
      have hloaded : input.loadableLeaves ≠ none →
          0 < (input.doLoadTree H (clearTree tree input.fileSize)).2.fileSize := by
        intro hsome
        rw [fileSize_doLoadTree hsome]
        exact fileSize_pos_of_loadable hsome
      obtain ⟨hif, honly⟩ := sound_readReport (H := H) hempty hloaded
      exact ⟨fun hwell => hif (hwell hsize).2, fun hH hsound _ => ⟨htakes, honly hH hsound⟩⟩
  · rw [hash_of_size_ne hsize]
    exact ⟨fun _ => trivial, fun _ _ h => absurd h hsize⟩

/-- A file of two bytes that is not in the stream. -/
def twoBytes (content : List UInt8) (fastTurns slowTurns : List Turn) :
    HashInput (List UInt8) where
  fileSize := 2
  content := content
  attributes := some ⟨2, false⟩
  linkSize := none
  optSaveTree := !fastTurns.isEmpty
  timeStamp := 1
  stream := none
  fastOpened := true
  fastTurns := fastTurns
  slowOpened := true
  slowTurns := slowTurns

/-- A turn that reads some bytes. -/
def reading (n : Nat) : Turn := ⟨false, some n, false⟩

/-- The file is read at once. -/
theorem sound_hash_twoBytes (tree : MerkleTree (List UInt8)) :
    Hasher.plain.CollisionFree ∧
      (twoBytes [7, 8] [] [reading 2]).ReadsWell .plain ∧
      (twoBytes [7, 8] [] [reading 2]).Sound .plain
        ((twoBytes [7, 8] [] [reading 2]).hash .plain tree) := by
  have hwell : (twoBytes [7, 8] [] [reading 2]).ReadsWell .plain := by
    refine fun _ => ⟨rfl, rfl, rfl, ?_⟩
    exact fun _ h => absurd h List.not_mem_nil
  have hsound := (sound_hash_iff .plain (twoBytes [7, 8] [] [reading 2]) tree).1 hwell
  exact ⟨Hasher.plain_collisionFree,
    (sound_hash_iff .plain _ tree).2 Hasher.plain_collisionFree hsound,
    hsound⟩

/-- The file has become shorter. -/
def shortened : HashInput (List UInt8) := twoBytes [7] [] [reading 2, reading 2]

/-- `fastHash` fails after the first byte. -/
def failing : HashInput (List UInt8) :=
  twoBytes [7, 8] [reading 1, ⟨false, none, false⟩] [reading 2]

/-- Both are reported as hashed, with other trees. -/
theorem not_sound_hash_twoBytes :
    (∀ tree, ¬ shortened.Sound .plain (shortened.hash .plain tree)) ∧
      ∀ tree, ¬ failing.Sound .plain (failing.hash .plain tree) := by
  constructor
  · intro tree
    have hend : shortened.slow.ended = .endOfFile := rfl
    rw [hash_of_size rfl]
    exact not_sound_of_endOfFile (hashes_slowHash _ _ _) hend
  · intro tree
    have hend : failing.slow.ended = .complete := rfl
    have hfast := (@hashes_fastHashing _ failing .plain (clearTree tree 2)).error rfl
    rw [hash_of_size rfl]
    apply not_sound_of_fileSize (slow_of _) (hashes_slowHash _ _ _) hend
    change 0 < (failing.fastHashing .plain (clearTree tree 2)).tree.fileSize
    rw [hfast, feed, MerkleTree.fileSize_feed]
    change 0 < 0 + failing.fast.fed.flatten.length
    decide

end HashInput

end Blacklink.HashManager
