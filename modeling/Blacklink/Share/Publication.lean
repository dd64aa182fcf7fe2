import Blacklink.Share.Heads

/-!
# What a publication makes of the list

The loop of the publication goes through the list and takes the elements of `newShares` away as it
finds them. As no two shares have the same path, what it does with one share depends on the copy of
that share alone (`client/ShareManager.cpp:3045-3088`).
-/

namespace Blacklink.Share

theorem Env.lowerName_eq (env : Env) (name : List UInt8) :
    env.lowerName name = env.toLower name := by
  unfold Env.lowerName
  split
  · next h =>
    rw [h]
    exact Text.toLower_eq_nil.mp h
  · rfl

/-- Two elements have the same path. -/
def samePath (env : Env) (i j : ShareListItem) : Prop :=
  env.lowerName i.realPath = env.lowerName j.realPath

instance (env : Env) (i : ShareListItem) : DecidablePred (samePath env i) :=
  fun _ => inferInstanceAs (Decidable (_ = _))

instance (env : Env) : Std.Symm fun i j => ¬ samePath env i j := ⟨fun _ _ h h' => h h'.symm⟩

/-- The element of `newShares` with the path of a share. -/
def copyOf (env : Env) (newShares : List ShareListItem) (i : ShareListItem) :
    Option ShareListItem := newShares.find? fun j => samePath env i j

/-- A share whose tree is replaced by the copy. -/
def takeCopy (i j : ShareListItem) : ShareListItem :=
  { i with
    tree := j.tree, dir := j.dir, totalFiles := j.totalFiles
    version := if j.flags.added || j.flags.removed then i.version + 1 else i.version }

/-- What the publication makes of a share. -/
def publishOne (env : Env) (newShares : List ShareListItem) (i : ShareListItem) : ShareListItem :=
  match copyOf env newShares i with
  | none => i
  | some j => if i.version = j.version then takeCopy i j else i

/-- No two elements have the same path. -/
def DistinctPaths (env : Env) (is : List ShareListItem) : Prop :=
  is.Pairwise fun i j => ¬ samePath env i j

/-- A step of the loop for a share keeps its path, and takes the number of its copy if any. -/
theorem publishOne_cases (env : Env) (newShares : List ShareListItem) (i : ShareListItem) :
    publishOne env newShares i = i ∨ ∃ j, copyOf env newShares i = some j ∧
      i.version = j.version ∧ publishOne env newShares i = takeCopy i j := by
  unfold publishOne
  cases hcopy : copyOf env newShares i with
  | none => exact .inl rfl
  | some j =>
    by_cases hversion : i.version = j.version
    · exact .inr ⟨j, rfl, hversion, if_pos hversion⟩
    · exact .inl (if_neg hversion)

theorem copyOf_mem {env : Env} {newShares : List ShareListItem} {i j : ShareListItem}
    (h : copyOf env newShares i = some j) : j ∈ newShares ∧ samePath env i j :=
  ⟨List.mem_of_find?_eq_some h, by simpa using List.find?_some h⟩

theorem realPath_publishOne (env : Env) (newShares : List ShareListItem) (i : ShareListItem) :
    (publishOne env newShares i).realPath = i.realPath := by
  rcases publishOne_cases env newShares i with h | ⟨j, -, -, h⟩
  · rw [h]
  · rw [h]
    rfl

section

variable {env : Env} {is js : List ShareListItem} {upd : Bool}

/-- A copy that is taken away is not the one of a share with another path. -/
theorem copyOf_eraseP {i k : ShareListItem} (h : ¬ samePath env i k) :
    copyOf env (js.eraseP fun j => samePath env i j) k = copyOf env js k := by
  induction js with
  | nil => rfl
  | cons j js ih =>
    by_cases hj : samePath env i j
    · have hkj : ¬ samePath env k j := fun hk => h (hj.trans hk.symm)
      rw [List.eraseP_cons_of_pos (by simpa using hj), copyOf, copyOf,
        List.find?_cons_of_neg (by simpa using hkj)]
    · rw [List.eraseP_cons_of_neg (by simpa using hj), copyOf, copyOf, List.find?_cons,
        List.find?_cons]
      split
      · rfl
      · exact ih

theorem publishOne_eraseP {i k : ShareListItem} (h : ¬ samePath env i k) :
    publishOne env (js.eraseP fun j => samePath env i j) k = publishOne env js k := by
  rw [publishOne, publishOne, copyOf_eraseP h]

theorem distinctPaths_tail {i : ShareListItem} (hremoved : i.removed = false)
    (h : DistinctPaths env (live (i :: is))) :
    (∀ k ∈ live is, ¬ samePath env i k) ∧ DistinctPaths env (live is) := by
  rw [live_cons hremoved] at h
  exact List.pairwise_cons.mp h

/-- The shares after the publication. -/
theorem publishShares_shares (h : DistinctPaths env (live is)) :
    (publishShares env is js upd).shares = (live is).map (publishOne env js) := by
  induction is generalizing js upd with
  | nil => rfl
  | cons i is ih =>
    cases hremoved : i.removed with
    | true =>
      rw [publishShares, hremoved, live_cons_removed hremoved]
      rw [live_cons_removed hremoved] at h
      exact ih h
    | false =>
      obtain ⟨hne, htail⟩ := distinctPaths_tail hremoved h
      have herase : (live is).map (publishOne env (js.eraseP fun j => samePath env i j)) =
          (live is).map (publishOne env js) :=
        List.map_congr_left fun k hk => publishOne_eraseP (hne k hk)
      rw [publishShares, hremoved, live_cons hremoved, List.map_cons]
      change Published.shares (match copyOf env js i with
        | none => _
        | some j => _) = publishOne env js i :: _
      rw [publishOne]
      cases copyOf env js i with
      | none => exact congrArg (i :: ·) (ih htail)
      | some j =>
        dsimp only
        split
        · exact congrArg (takeCopy i j :: ·) ((ih htail).trans herase)
        · exact congrArg (i :: ·) ((ih htail).trans herase)

/-- A share has another version than its copy. -/
def Outdated (env : Env) (newShares : List ShareListItem) (i : ShareListItem) : Prop :=
  ∃ j, copyOf env newShares i = some j ∧ i.version ≠ j.version

/-- The index is built anew, and the list has changed, when a share has changed since its copy. -/
theorem publishShares_updateIndex (js : List ShareListItem) (upd : Bool)
    (h : DistinctPaths env (live is)) :
    (publishShares env is js upd).updateIndex = true ↔
      upd = true ∨ ∃ i ∈ live is, Outdated env js i := by
  induction is generalizing js upd with
  | nil =>
    constructor
    · exact Or.inl
    · rintro (h | ⟨i, hi, -⟩)
      · exact h
      · cases hi
  | cons i is ih =>
    cases hremoved : i.removed with
    | true =>
      rw [publishShares, hremoved, live_cons_removed hremoved]
      rw [live_cons_removed hremoved] at h
      exact ih _ _ h
    | false =>
      obtain ⟨hne, htail⟩ := distinctPaths_tail hremoved h
      have herase : (∃ k ∈ live is, Outdated env (js.eraseP fun j => samePath env i j) k) ↔
          ∃ k ∈ live is, Outdated env js k := by
        apply exists_congr
        intro k
        apply and_congr_right
        intro hk
        rw [Outdated, Outdated, copyOf_eraseP (hne k hk)]
      rw [publishShares, hremoved, live_cons hremoved, List.exists_mem_cons_iff]
      change Published.updateIndex (match copyOf env js i with
        | none => _
        | some j => _) = true ↔ _
      cases hcopy : copyOf env js i with
      | none =>
        have hi : ¬ Outdated env js i := by
          rintro ⟨j, hj, -⟩
          rw [hcopy] at hj
          cases hj
        rw [or_iff_right hi]
        exact ih _ _ htail
      | some j =>
        dsimp only
        split
        · next hversion =>
          have hi : ¬ Outdated env js i := by
            rintro ⟨k, hk, hne⟩
            rw [hcopy] at hk
            cases hk
            exact hne hversion
          rw [or_iff_right hi, ← herase]
          exact ih _ _ htail
        · next hversion =>
          have hi : Outdated env js i := ⟨j, hcopy, hversion⟩
          have hrest := (ih (js.eraseP fun j => samePath env i j) true htail).mpr
            (.inl rfl)
          exact iff_of_true hrest (.inr (.inl hi))

end

theorem scanPublish_of_publishing (env : Env) {TTH : Type} {s : ShareManager TTH} {sc : Scan TTH}
    (h : s.publishing = some sc) :
    s.scan = some sc ∧ s.scanPublish env = s.publish env sc := by
  obtain ⟨hsc, hready⟩ := Option.filter_eq_some_iff.mp h
  refine ⟨hsc, ?_⟩
  unfold ShareManager.scanPublish
  rw [hsc]
  exact if_pos hready

theorem scanPublish_of_not_publishing {env : Env} {TTH : Type} {s : ShareManager TTH}
    (h : s.publishing = none) : s.scanPublish env = s := by
  unfold ShareManager.scanPublish
  split
  · rfl
  · next sc hsc =>
    rw [ShareManager.publishing, hsc, Option.filter_some, ite_eq_right_iff] at h
    rw [if_neg fun hready => by cases h hready]

end Blacklink.Share
