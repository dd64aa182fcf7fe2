import Blacklink.Hash.BufferedTree
import Blacklink.Hash.Fed
import Blacklink.Share.ShareManager
import Blacklink.Stream.OutputStream

/-!
# Size and hash of a file list

Model of `FileListFilter` and `BZFilter` (`client/ShareManager.cpp:1821-1837`,
`client/BZUtils.cpp:39-69`) in the `FilteredOutputStream` through which a file list is written
(`client/ShareManager.cpp:2009-2035, 3661-3673`). The compressor takes as much of the text as it
wants in one call and puts out as much as it wants; the filter counts and hashes both.
-/

namespace Blacklink.Share

open Blacklink.Hash Blacklink.Stream

/-- What `BZ2_bzCompress` returns. -/
inductive BZStatus where
  | runOk
  | finishOk
  | streamEnd
  | error
  deriving DecidableEq

/-- The effect of one call of `BZ2_bzCompress`. -/
structure BZResult (φ : Type) where
  err : BZStatus
  consumed : Nat
  out : List UInt8
  next : φ

/-- `BZ2_bzCompress` with `BZ_RUN` and `BZ_FINISH`. It returns `BZ_RUN_OK` and `BZ_FINISH_OK` only
when it has made progress: it has taken input, or has put out some of the bytes it still holds,
which `rank` bounds (`handle_compress` in `bzip2/bzlib.c`). -/
structure BZ2 (φ : Type) where
  run : φ → List UInt8 → BZResult φ
  finish : φ → BZResult φ
  rank : φ → Nat
  consumed_le : ∀ zs inp, (run zs inp).consumed ≤ inp.length
  run_progress : ∀ zs inp, (run zs inp).err = .runOk →
    0 < (run zs inp).consumed ∨ rank (run zs inp).next < rank zs ∧ (run zs inp).consumed = 0
  finish_progress : ∀ zs, (finish zs).err = .finishOk → rank (finish zs).next < rank zs

variable {φ V : Type}

/-- `BZFilter::operator()`. There is always room for output. -/
def BZ2.filter (B : BZ2 φ) (zs : φ) (inp : List UInt8) : FilterResult φ :=
  if inp = [] then
    let r := B.finish zs
    if r.err = .finishOk then ⟨0, r.out, .more, r.next⟩
    else if r.err = .streamEnd then ⟨0, r.out, .ended, r.next⟩
    else ⟨0, [], .error, r.next⟩
  else
    let r := B.run zs inp
    if r.err = .runOk then ⟨r.consumed, r.out, .more, r.next⟩
    else ⟨0, [], .error, r.next⟩

theorem BZ2.filter_consumed_le (B : BZ2 φ) (zs : φ) (inp : List UInt8) :
    (B.filter zs inp).consumed ≤ inp.length := by
  unfold BZ2.filter
  split
  · dsimp only
    split
    · exact Nat.zero_le _
    split <;> exact Nat.zero_le _
  · dsimp only
    split
    · exact B.consumed_le zs inp
    · exact Nat.zero_le _

theorem BZ2.filter_progress (B : BZ2 φ) (zs : φ) (inp : List UInt8)
    (h : (B.filter zs inp).status = .more) :
    0 < (B.filter zs inp).consumed ∧ inp ≠ [] ∨
      B.rank (B.filter zs inp).next < B.rank zs ∧ (B.filter zs inp).consumed = 0 := by
  unfold BZ2.filter at h ⊢
  split at h
  · next hinp =>
    rw [if_pos hinp]
    dsimp only at h ⊢
    split at h
    · next hok =>
      rw [if_pos hok]
      exact .inr ⟨B.finish_progress zs hok, rfl⟩
    · split at h <;> cases h
  · next hinp =>
    rw [if_neg hinp]
    dsimp only at h ⊢
    split at h
    · next hok =>
      rw [if_pos hok]
      rcases B.run_progress zs inp hok with hpos | hrank
      · exact .inl ⟨hpos, hinp⟩
      · exact .inr hrank
    · cases h

/-- `FileListFilter`. -/
structure FileListFilter (φ V : Type) where
  bzipper : φ
  treeOriginal : BufferedTigerTreeHasher V
  treeCompressed : BufferedTigerTreeHasher V
  sizeOriginal : Nat
  sizeCompressed : Nat

namespace FileListFilter

/-- `FileListFilter()`. -/
def new (H : Hasher V) (zs : φ) : FileListFilter φ V := ⟨zs, .new H, .new H, 0, 0⟩

/-- `operator()`. Nothing is counted when the compressor throws. -/
def apply (H : Hasher V) (B : BZ2 φ) (f : FileListFilter φ V) (inp : List UInt8) :
    FilterResult (FileListFilter φ V) :=
  let r := B.filter f.bzipper inp
  if r.status = .error then ⟨r.consumed, r.out, .error, { f with bzipper := r.next }⟩
  else
    ⟨r.consumed, r.out, r.status,
      { bzipper := r.next
        treeOriginal := f.treeOriginal.update H (inp.take r.consumed)
        treeCompressed := f.treeCompressed.update H r.out
        sizeOriginal := f.sizeOriginal + r.consumed
        sizeCompressed := f.sizeCompressed + r.out.length }⟩

theorem apply_consumed (H : Hasher V) (B : BZ2 φ) (f : FileListFilter φ V) (inp : List UInt8) :
    (f.apply H B inp).consumed = (B.filter f.bzipper inp).consumed := by
  unfold apply
  dsimp only
  split <;> rfl

/-- The filter as the stream takes it. -/
def filter (H : Hasher V) (B : BZ2 φ) :
    Blacklink.Stream.Filter (FileListFilter φ V) where
  apply := apply H B
  rank f := B.rank f.bzipper
  progress f inp h := by
    rw [apply_consumed]
    unfold apply at h ⊢
    dsimp only at h ⊢
    split at h
    · cases h
    · next hok =>
      rw [if_neg hok]
      exact B.filter_progress f.bzipper inp h

end FileListFilter

/-- `FilteredOutputStream<FileListFilter, false>` on the file. `File::write` writes everything or
throws. -/
abbrev FileListStream (H : Hasher V) (B : BZ2 φ) :=
  FilteredOutputStream (FileListFilter.filter H B) TargetFile

/-- The calls of `write`; there is no stream when one has thrown. -/
def writeTexts {H : Hasher V} {B : BZ2 φ} (t : FileListStream H B) :
    List (List UInt8) → Option (FileListStream H B)
  | [] => some t
  | text :: texts =>
    let r := write t text
    if r.2.isSome then writeTexts r.1 texts else none

/-- The attributes `FILE_ATTR_FILES_XML` and `FILE_ATTR_FILES_BZ_XML` of a list that is made of the
texts, and the bytes in its file. The `n`-th write to the file succeeds when `succeeds n`. -/
def writeFileList (H : Hasher V) (B : BZ2 φ) (zs : φ) (succeeds : Nat → Bool)
    (texts : List (List UInt8)) : Option ((FileAttr V × FileAttr V) × List UInt8) := do
  let newXmlFile : FileListStream H B := ⟨⟨succeeds, 0, []⟩, .new H zs, true, false⟩
  let t ← writeTexts newXmlFile texts
  let r := flushBuffers t
  if r.2 then
    let f := r.1.state
    some ((⟨f.treeOriginal.finalize H, f.sizeOriginal⟩,
      ⟨f.treeCompressed.finalize H, f.sizeCompressed⟩), r.1.f.data)
  else none

/-! ### What is counted and hashed -/

/-- The filter has seen the text, and what it has put out is in the file. -/
structure ListAccounts {H : Hasher V} {B : BZ2 φ} (t : FileListStream H B) (text : List UInt8) :
    Prop where
  original : BufferedTigerTreeHasher.Holds H t.state.treeOriginal text
  sizeOriginal : t.state.sizeOriginal = text.length
  compressed : BufferedTigerTreeHasher.Holds H t.state.treeCompressed t.f.data
  sizeCompressed : t.state.sizeCompressed = t.f.data.length

namespace ListAccounts

variable {H : Hasher V} {B : BZ2 φ} {t : FileListStream H B} {text : List UInt8}

/-- One call of the filter, and what it has put out is written. -/
theorem step (h : ListAccounts t text) {inp : List UInt8} {f : TargetFile}
    (hok : (t.state.apply H B inp).status ≠ .error)
    (hf : f.data = t.f.data ++ (t.state.apply H B inp).out) (more flushed : Bool) :
    ListAccounts (⟨f, (t.state.apply H B inp).next, more, flushed⟩ : FileListStream H B)
      (text ++ inp.take (t.state.apply H B inp).consumed) := by
  have hle := B.filter_consumed_le t.state.bzipper inp
  unfold FileListFilter.apply at hok hf ⊢
  dsimp only at hok hf ⊢
  split at hok
  · exact absurd rfl hok
  · next herror =>
    rw [if_neg herror] at hf ⊢
    refine ⟨h.original.update _, ?_, ?_, ?_⟩
    · show t.state.sizeOriginal + _ = _
      rw [h.sizeOriginal, List.length_append, List.length_take, Nat.min_eq_left hle]
    · show BufferedTigerTreeHasher.Holds H _ f.data
      rw [hf]
      exact h.compressed.update _
    · show t.state.sizeCompressed + _ = f.data.length
      rw [h.sizeCompressed, hf, List.length_append]

end ListAccounts

/-- A write to the file that returns has written all of it. -/
theorem data_write {f : TargetFile} {out : List UInt8} (h : (write f out).2.isSome) :
    (write f out).1.data = f.data ++ out := by
  by_cases hcall : f.succeeds f.calls = true
  · show (if f.succeeds f.calls = true then _ else _ : TargetFile × Option Nat).1.data = _
    rw [if_pos hcall]
  · change ((if f.succeeds f.calls = true then _ else _ : TargetFile × Option Nat).2).isSome at h
    rw [if_neg hcall] at h
    cases h

/-- The stream does not write nothing. -/
private theorem data_write_some {f : TargetFile} {out : List UInt8}
    (h : (if out = [] then (f, some 0) else write f out).2.isSome) :
    (if out = [] then (f, some 0) else write f out).1.data = f.data ++ out := by
  split at h
  · next hout => rw [if_pos hout, hout, List.append_nil]
  · next hout =>
    rw [if_neg hout]
    exact data_write h

namespace ListAccounts

variable {H : Hasher V} {B : BZ2 φ} {t : FileListStream H B} {text : List UInt8}

/-- The loop of `write`, when it returns. -/
theorem writeLoop (h : ListAccounts t text) {b : List UInt8} {written : Nat}
    (hok : (t.writeLoop b written).2.isSome) :
    ListAccounts (t.writeLoop b written).1 (text ++ b) := by
  fun_induction FilteredOutputStream.writeLoop t b written generalizing text
  case case1 t written => rwa [List.append_nil]
  case case2 t b written hb r herror => cases hok
  case case3 t b written hb r herror w t' hwritten hmore ih =>
    have hnext := ih (h.step herror (data_write_some hwritten) _ _) hok
    rw [List.append_assoc] at hnext
    change ListAccounts _ (text ++ (b.take r.consumed ++ b.drop r.consumed)) at hnext
    rwa [List.take_append_drop] at hnext
  case case4 t b written hb r herror w t' hwritten hended hall =>
    have hnext := h.step herror (data_write_some hwritten) (decide (r.status = .more)) t.flushed
    have htake : b.take r.consumed = b := by
      rw [← List.append_nil (b.take r.consumed), ← hall, List.take_append_drop]
    rw [← htake]
    exact hnext
  case case5 t b written hb r herror w t' hwritten hended hgarbage => cases hok
  case case6 t b written hb r herror w t' hfailed => cases hok

/-- The loop of `flushBuffers`, when it returns. -/
theorem flushLoop (h : ListAccounts t text) (hok : t.flushLoop.2 = true) :
    ListAccounts t.flushLoop.1 text := by
  fun_induction FilteredOutputStream.flushLoop t with
  | case1 t r herror => cases hok
  | case2 t r herror w t' hwritten hmore ih =>
    have hnext := h.step herror (data_write hwritten) (decide (r.status = .more)) t.flushed
    rw [List.take_nil, List.append_nil] at hnext
    exact ih hnext hok
  | case3 t r herror w t' hwritten hended f =>
    have hnext := h.step herror (data_write hwritten) (decide (r.status = .more)) t.flushed
    rwa [List.take_nil, List.append_nil] at hnext
  | case4 t r herror w t' hfailed => cases hok

theorem writeTexts (h : ListAccounts t text) {texts : List (List UInt8)} {t' : FileListStream H B}
    (hok : writeTexts t texts = some t') : ListAccounts t' (text ++ texts.flatten) := by
  induction texts generalizing t text with
  | nil =>
    cases hok
    rwa [List.flatten_nil, List.append_nil]
  | cons b texts ih =>
    rw [Share.writeTexts] at hok
    split at hok
    · next hwritten =>
      have hstream : ListAccounts (write t b).1 (text ++ b) := by
        change (if t.flushed = true then (t, none) else t.writeLoop b 0).2.isSome at hwritten
        show ListAccounts (if t.flushed = true then (t, none) else t.writeLoop b 0).1 _
        split at hwritten
        · cases hwritten
        · next hflushed =>
          rw [if_neg hflushed]
          exact h.writeLoop hwritten
      have hall := ih hstream hok
      rwa [List.append_assoc, ← List.flatten_cons] at hall
    · cases hok

end ListAccounts

/-- However a string is split into pieces, the hasher gives the hash of the whole string; and
whatever pieces the compressor takes and puts out, the sizes and hashes of a list are those of its
text and of the bytes in the file. -/
theorem fileList_attributes (H : Hasher V) :
    (∀ ps : List (List UInt8), (ps.foldl (fun b p => b.update H p)
      (BufferedTigerTreeHasher.new H)).finalize H = treeHash H ps.flatten) ∧
      ∀ (B : BZ2 φ) (zs : φ) (succeeds : Nat → Bool) (texts : List (List UInt8)),
        ∀ r ∈ writeFileList H B zs succeeds texts,
          r.1 = (⟨treeHash H texts.flatten, texts.flatten.length⟩,
            ⟨treeHash H r.2, r.2.length⟩) := by
  constructor
  · intro ps
    exact (BufferedTigerTreeHasher.holds_foldl BufferedTigerTreeHasher.holds_new ps).finalize
  · intro B zs succeeds texts r hr
    have hstart :
        ListAccounts (⟨⟨succeeds, 0, []⟩, .new H zs, true, false⟩ : FileListStream H B) [] :=
      ⟨BufferedTigerTreeHasher.holds_new, rfl, BufferedTigerTreeHasher.holds_new, rfl⟩
    obtain ⟨t, htexts, hr⟩ := Option.bind_eq_some_iff.mp hr
    have ht := hstart.writeTexts htexts
    dsimp only at hr
    split at hr
    · next hflushed =>
      have hend : ListAccounts (flushBuffers t).1 texts.flatten := by
        change (if t.flushed = true then (t, true)
          else FilteredOutputStream.flushLoop { t with flushed := true }).2 = true at hflushed
        show ListAccounts (if t.flushed = true then (t, true)
          else FilteredOutputStream.flushLoop { t with flushed := true }).1 _
        split at hflushed
        · next hdone =>
          rw [if_pos hdone]
          exact ht
        · next hdone =>
          rw [if_neg hdone]
          exact ListAccounts.flushLoop
            ⟨ht.original, ht.sizeOriginal, ht.compressed, ht.sizeCompressed⟩ hflushed
      cases hr
      rw [hend.original.finalize, hend.sizeOriginal, hend.compressed.finalize, hend.sizeCompressed]
    · cases hr

/-- A compressor that holds back its output until the end, for one text. -/
def BZ2.ofText (text out : List UInt8) : BZ2 (List UInt8) where
  run zs inp :=
    if inp = [] then ⟨.error, 0, [], zs⟩ else ⟨.runOk, inp.length, [], zs ++ inp⟩
  finish zs := if zs = text then ⟨.streamEnd, 0, out, zs⟩ else ⟨.error, 0, [], zs⟩
  rank _ := 0
  consumed_le zs inp := by
    split
    · exact Nat.zero_le _
    · exact le_rfl
  run_progress zs inp h := by
    split at h
    · cases h
    · next hinp =>
      rw [if_neg hinp]
      exact .inl (List.length_pos_iff.mpr hinp)
  finish_progress zs h := by
    split at h <;> cases h

/-- `"a"`, compressed. -/
def compressedText : List UInt8 :=
  [0x42, 0x5a, 0x68, 0x39, 0x31, 0x41, 0x59, 0x26, 0x53, 0x59, 0x19, 0x93, 0x9b, 0x6b, 0, 0, 0, 1,
    0, 0x20, 0, 0x20, 0, 0x21, 0x18, 0x46, 0x82, 0xee, 0x48, 0xa7, 0x0a, 0x12, 0x03, 0x32, 0x73,
    0x6d, 0x60]

/-- The compressor for that text. -/
def oneByteCompressor : BZ2 (List UInt8) := .ofText [0x61] compressedText

private def oneByteStream : FileListStream Hasher.plain oneByteCompressor :=
  ⟨⟨fun _ => true, 0, []⟩, .new Hasher.plain [], true, false⟩

private theorem oneByteStream_write : write oneByteStream [0x61] =
    ({ oneByteStream with
        state := (oneByteStream.state.apply Hasher.plain oneByteCompressor [0x61]).next },
      some 0) := by
  show oneByteStream.writeLoop [0x61] 0 = _
  rw [FilteredOutputStream.writeLoop, if_neg (List.cons_ne_nil _ _)]
  exact (FilteredOutputStream.writeLoop.eq_1 _ [] _).trans (if_pos rfl)

private theorem oneByteStream_flush : ∃ t,
    flushBuffers (write oneByteStream [0x61]).1 = (t, true) ∧ t.f.data = compressedText := by
  rw [oneByteStream_write]
  refine ⟨_, (FilteredOutputStream.flushLoop.eq_1 _).trans rfl, rfl⟩

/-- A list of one byte. -/
theorem fileList_attributes_oneByte :
    ∃ attr, writeFileList Hasher.plain oneByteCompressor [] (fun _ => true)
        [[0x61]] = some (attr, compressedText) ∧
      attr = (⟨treeHash Hasher.plain [0x61], 1⟩, ⟨treeHash Hasher.plain compressedText, 37⟩) := by
  obtain ⟨t, hflush, hdata⟩ := oneByteStream_flush
  have htexts : writeTexts oneByteStream [[0x61]] = some (write oneByteStream [0x61]).1 := by
    rw [writeTexts, oneByteStream_write]
    rfl
  have hwrite : writeFileList Hasher.plain oneByteCompressor [] (fun _ => true)
      [[0x61]] = some (((⟨t.state.treeOriginal.finalize Hasher.plain, t.state.sizeOriginal⟩,
        ⟨t.state.treeCompressed.finalize Hasher.plain, t.state.sizeCompressed⟩)),
        compressedText) := by
    rw [writeFileList]
    change (writeTexts oneByteStream [[0x61]] >>= _) = _
    rw [htexts, Option.bind_eq_bind, Option.bind_some, hflush]
    exact congrArg (fun data => some (_, data)) hdata
  exact ⟨_, hwrite, (fileList_attributes Hasher.plain).2 oneByteCompressor []
    (fun _ => true) [[0x61]] _ hwrite⟩

end Blacklink.Share
