import Blacklink.Share.SharedDir

/-!
# Trees with an open directory

While a directory of a tree is filled, it and those above it are not as they will be. `Along` says
what holds of such a tree: something of every directory on the path, with a label for each, and
something else of the directory at its end.
-/

namespace Blacklink.Share

namespace SharedDir

/-! ### One subdirectory -/

variable {k : List UInt8} {f : SharedDir → SharedDir} {ds : List SharedDir} {c : SharedDir}

/-- The keys of subdirectories. -/
def keys (ds : List SharedDir) : List (List UInt8) := ds.map fun c => c.node.key

theorem keys_modifyChild (hc : (ds.find? fun c => c.node.key = k) = some c)
    (hkey : (f c).node.key = c.node.key) : keys (modifyChild k f ds) = keys ds := by
  induction ds with
  | nil => cases hc
  | cons d ds ih =>
    rw [modifyChild]
    by_cases hd : d.node.key = k
    · rw [List.find?_cons_of_pos (by simpa using hd)] at hc
      cases hc
      rw [if_pos hd, keys, keys, List.map_cons, List.map_cons, hkey]
    · rw [List.find?_cons_of_neg (by simpa using hd)] at hc
      rw [if_neg hd, keys, keys, List.map_cons, List.map_cons]
      exact congrArg _ (ih hc)

theorem find?_modifyChild_of_find? (hc : (ds.find? fun c => c.node.key = k) = some c)
    (hkey : (f c).node.key = c.node.key) :
    ((modifyChild k f ds).find? fun c => c.node.key = k) = some (f c) := by
  induction ds with
  | nil => cases hc
  | cons d ds ih =>
    rw [modifyChild]
    by_cases hd : d.node.key = k
    · rw [List.find?_cons_of_pos (by simpa using hd)] at hc
      cases hc
      rw [if_pos hd, List.find?_cons_of_pos]
      simpa using hkey.trans hd
    · rw [List.find?_cons_of_neg (by simpa using hd)] at hc
      rw [if_neg hd, List.find?_cons_of_neg (by simpa using hd), ih hc]

/-- A subdirectory that is there after a change is the changed one or has another key. -/
theorem mem_modifyChild (hnodup : (keys ds).Nodup)
    (hc : (ds.find? fun c => c.node.key = k) = some c) {e : SharedDir}
    (he : e ∈ modifyChild k f ds) : e = f c ∨ e ∈ ds ∧ e.node.key ≠ k := by
  induction ds with
  | nil => cases hc
  | cons d ds ih =>
    obtain ⟨hnot, hnodup⟩ := List.nodup_cons.mp hnodup
    rw [modifyChild] at he
    by_cases hd : d.node.key = k
    · rw [List.find?_cons_of_pos (by simpa using hd)] at hc
      cases hc
      rw [if_pos hd] at he
      rcases List.mem_cons.mp he with rfl | he
      · exact .inl rfl
      · refine .inr ⟨List.mem_cons_of_mem _ he, ?_⟩
        intro hek
        exact hnot (List.mem_map.mpr ⟨e, he, hek.trans hd.symm⟩)
    · rw [List.find?_cons_of_neg (by simpa using hd)] at hc
      rw [if_neg hd] at he
      rcases List.mem_cons.mp he with rfl | he
      · exact .inr ⟨List.mem_cons_self, hd⟩
      · exact (ih hnodup hc he).imp_right fun h => ⟨List.mem_cons_of_mem _ h.1, h.2⟩

theorem mem_modifyChild_of_ne {e : SharedDir} (he : e ∈ ds) (hek : e.node.key ≠ k) :
    e ∈ modifyChild k f ds := by
  induction ds with
  | nil => cases he
  | cons d ds ih =>
    rw [modifyChild]
    rcases List.mem_cons.mp he with rfl | he
    · rw [if_neg hek]
      exact List.mem_cons_self
    · split
      · exact List.mem_cons_of_mem _ he
      · exact List.mem_cons_of_mem _ (ih he)

/-- Where a change does nothing, the tree stays. -/
theorem modifyAt_eq_self {f : SharedDir → SharedDir} (hf : ∀ c, f c = c) (p : DirPath)
    (d : SharedDir) : modifyAt p f d = d := by
  induction p generalizing d with
  | nil => exact hf d
  | cons k p ih =>
    cases d with
    | mk n ds =>
      rw [modifyAt, mapDirs]
      congr 1
      induction ds with
      | nil => rfl
      | cons d ds ihs =>
        rw [modifyChild, ih, ihs, ite_self]

theorem keys_insertDir (c : SharedDir) (ds : List SharedDir) :
    (keys (insertDir c ds)).Perm (c.node.key :: keys ds) := by
  induction ds with
  | nil => exact List.Perm.refl _
  | cons d ds ih =>
    rw [insertDir]
    split
    · exact List.Perm.refl _
    · exact (ih.cons d.node.key).trans (List.Perm.swap _ _ _)

/-- A new subdirectory is found under its key. -/
theorem find?_insertDir (hnone : (ds.find? fun d => d.node.key = c.node.key) = none) :
    ((insertDir c ds).find? fun d => d.node.key = c.node.key) = some c := by
  induction ds with
  | nil => exact List.find?_cons_of_pos (by simp)
  | cons d ds ih =>
    rw [List.find?_eq_none] at hnone
    have hd := hnone d List.mem_cons_self
    rw [insertDir]
    split
    · exact List.find?_cons_of_pos (by simp)
    · rw [List.find?_cons_of_neg (by simpa using hd)]
      exact ih (List.find?_eq_none.mpr fun e he => hnone e (List.mem_cons_of_mem d he))

theorem mem_of_child? {d : SharedDir} (hc : d.child? k = some c) : c ∈ d.dirs ∧ c.node.key = k :=
  ⟨List.mem_of_find?_eq_some hc, by simpa using List.find?_some hc⟩

/-- With the keys apart, the subdirectory with a key is the one that is found. -/
theorem eq_of_child? {d e : SharedDir} (hnodup : (keys d.dirs).Nodup) (hc : d.child? k = some c)
    (he : e ∈ d.dirs) (hkey : e.node.key = k) : e = c := by
  obtain ⟨hmem, hck⟩ := mem_of_child? hc
  exact List.inj_on_of_nodup_map hnodup he hmem (hkey.trans hck.symm)

/-! ### The path -/

variable {ι : Type} {L L' : ι → List UInt8 → SharedDir → Prop} {I I' : SharedDir → Prop}

/-- `L` holds of every directory on the path with its label and the key of the next one, and `I` of
the one at the end. -/
def Along (L : ι → List UInt8 → SharedDir → Prop) (I : SharedDir → Prop) :
    List (ι × List UInt8) → SharedDir → Prop
  | [], d => I d
  | (l, k) :: ls, d => L l k d ∧ ∃ c, d.child? k = some c ∧ Along L I ls c

/-- The path of the open directory. -/
def pathOf (ls : List (ι × List UInt8)) : DirPath := ls.map Prod.snd

theorem along_append (ls ls' : List (ι × List UInt8)) (d : SharedDir) :
    Along L I (ls ++ ls') d ↔ Along L (Along L I ls') ls d := by
  induction ls generalizing d with
  | nil => rfl
  | cons lk ls ih => simp only [List.cons_append, Along, ih]

theorem Along.imp {ls : List (ι × List UInt8)} {d : SharedDir} (h : Along L I ls d)
    (hL : ∀ lk ∈ ls, ∀ d, L lk.1 lk.2 d → L' lk.1 lk.2 d) (hI : ∀ c, I c → I' c) :
    Along L' I' ls d := by
  induction ls generalizing d with
  | nil => exact hI d h
  | cons lk ls ih =>
    obtain ⟨hd, c, hc, h⟩ := h
    exact ⟨hL lk List.mem_cons_self d hd, c, hc,
      ih h fun lk hlk => hL lk (List.mem_cons_of_mem _ hlk)⟩

/-- The open directory is found at its path. -/
theorem Along.find? {ls : List (ι × List UInt8)} {d : SharedDir} (h : Along L I ls d) :
    ∃ c, d.find? (pathOf ls) = some c ∧ I c := by
  induction ls generalizing d with
  | nil => exact ⟨d, rfl, h⟩
  | cons lk ls ih =>
    obtain ⟨-, c, hc, h⟩ := h
    obtain ⟨e, he, hI⟩ := ih h
    refine ⟨e, ?_, hI⟩
    change (d.child? lk.2).bind (SharedDir.find? (pathOf ls)) = some e
    rw [hc]
    exact he

theorem Along.found {ls : List (ι × List UInt8)} {d : SharedDir} (h : Along L I ls d) :
    Along L (fun c => I c ∧ d.find? (pathOf ls) = some c) ls d := by
  induction ls generalizing d with
  | nil => exact ⟨h, rfl⟩
  | cons lk ls ih =>
    obtain ⟨hd, c, hc, h⟩ := h
    refine ⟨hd, c, hc, (ih h).imp (fun _ _ _ h => h) ?_⟩
    rintro e ⟨hI, he⟩
    refine ⟨hI, ?_⟩
    change (d.child? lk.2).bind (SharedDir.find? (pathOf ls)) = some e
    rw [hc]
    exact he

/-- What `L` says of a directory stays when a subdirectory on the path is replaced by one of which
`R` holds with respect to it. -/
def Replaces (L : ι → List UInt8 → SharedDir → Prop) (R : DirNode → DirNode → Prop) : Prop :=
  ∀ l k n ds c (f : SharedDir → SharedDir), L l k (.mk n ds) →
    (SharedDir.mk n ds).child? k = some c → (f c).node.key = c.node.key → R c.node (f c).node →
      L l k (.mk n (modifyChild k f ds))

/-- The open directory is changed, and more directories may be opened below it. -/
theorem Along.modifyAt {R : DirNode → DirNode → Prop} (hR : Replaces L R) (hrefl : ∀ n, R n n)
    {ls : List (ι × List UInt8)} {d : SharedDir} (h : Along L I ls d)
    (ls' : List (ι × List UInt8))
    (hf : ∀ c, I c → (f c).node.key = c.node.key ∧ R c.node (f c).node ∧ Along L I' ls' (f c)) :
    Along L I' (ls ++ ls') (modifyAt (pathOf ls) f d) ∧
      (SharedDir.modifyAt (pathOf ls) f d).node.key = d.node.key ∧
      R d.node (SharedDir.modifyAt (pathOf ls) f d).node := by
  induction ls generalizing d with
  | nil =>
    obtain ⟨hkey, hnode, halong⟩ := hf d h
    exact ⟨halong, hkey, hnode⟩
  | cons lk ls ih =>
    obtain ⟨hd, c, hc, h⟩ := h
    obtain ⟨halong, hkey, hnode⟩ := ih h
    cases d with
    | mk n ds =>
      exact ⟨⟨hR _ _ _ _ c _ hd hc hkey hnode, _, find?_modifyChild_of_find? hc hkey, halong⟩, rfl,
        hrefl n⟩

end SharedDir

end Blacklink.Share
