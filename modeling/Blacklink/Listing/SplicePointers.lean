import Blacklink.Listing.Objects
import Blacklink.Listing.SpliceFrame

/-!
# Merging a partial list keeps the links

`spliceTree` on the `Directory` objects (`client/DirectoryListing.cpp:1118-1215`) does what it does
on the tree, and afterwards all pointers to parents are right. What it does in a directory is what
it does in one of its directories, or in a new one, and then a turn of the loop of `updateInfo`.
-/

namespace Blacklink.Listing

open Blacklink.Base Blacklink.Text

/-- A tree of directories with their addresses. -/
abbrev Linked := RoseTree (Ptr × DirInfo)

/-- A tree of `Directory` objects, each of them once. -/
structure Heap.Has (h : Heap) (t : Linked) (parent : Option Ptr) : Prop where
  holds : t.Holds h.objects parent
  nodup : t.addrs.Nodup
  used : ∀ p ∈ t.addrs, p < h.unused

/-- One tree has become another at the same place, which has got the objects of `src` and new ones.
Nothing else has changed. -/
structure Changed (h : Heap) (t src : Linked) (parent : Option Ptr) (h' : Heap) (t' : Linked) :
    Prop where
  has : h'.Has t' parent
  addr : t'.addr = t.addr
  addrs : ∀ p ∈ t'.addrs, p ∈ t.addrs ∨ p ∈ src.addrs ∨ h.unused ≤ p
  frame : ∀ p < h.unused, p ∉ t.addrs → p ∉ src.addrs → h'.objects p = h.objects p
  unused_le : h.unused ≤ h'.unused

/-! ### The loop of `updateInfo` -/

theorem updatePass_fuelMono : FuelMono updatePass := fun _ _ _ _ _ h => h

/-- Only the objects of the directories themselves are looked at. -/
theorem updateInfo_congr {d : DirInfo} {dirs dirs' : List Directory} (isRoot : Bool)
    (h : dirs.map RoseTree.value = dirs'.map RoseTree.value) :
    d.updateInfo isRoot dirs = d.updateInfo isRoot dirs' := by
  have hsub : ∀ d : DirInfo, d.updateSubDirs dirs = d.updateSubDirs dirs' := by
    intro d
    rw [DirInfo.updateSubDirs, DirInfo.updateSubDirs, h]
  rw [DirInfo.updateInfo, DirInfo.updateInfo, hsub]

theorem filterMap_objects {h : Heap} {ts : List Linked} {parent : Option Ptr}
    (hts : ∀ t ∈ ts, t.Holds h.objects parent) :
    ((ts.map RoseTree.addr).filterMap h.objects).map LinkedNode.value =
      ts.map fun t => t.value.2 := by
  induction ts with
  | nil => rfl
  | cons t ts ih =>
    rw [List.forall_mem_cons] at hts
    obtain ⟨children, ht⟩ := hts.1.root
    rw [List.map_cons, List.filterMap_cons_some ht, List.map_cons, ih hts.2, List.map_cons]

theorem updatePass_eq {h : Heap} {cur p : Ptr} {o : LinkedNode DirInfo} {d : DirInfo}
    {ts : List Linked} {parent : Option Ptr} (hcur : h.objects cur = some o)
    (ho : o.parent = some p) (hp : h.objects p = some ⟨d, ts.map RoseTree.addr, parent⟩)
    (hts : ∀ t ∈ ts, t.Holds h.objects (some p)) :
    let u := d.updateInfo parent.isNone (ts.map RoseTree.plain)
    let h' := h.write p ⟨u.1, ts.map RoseTree.addr, parent⟩
    updatePass 0 (h, cur) = some (if u.2 then .again (h', p) else .done h') := by
  intro u h'
  have hu : d.updateInfo parent.isNone (((ts.map RoseTree.addr).filterMap h.objects).map
      fun o => .node o.value []) = u := by
    apply updateInfo_congr
    rw [List.map_map, List.map_map]
    have hvalues := filterMap_objects hts
    simp only [Function.comp_def, RoseTree.value_plain]
    exact hvalues
  show (h.objects cur >>= fun _ => _) = _
  rw [hcur, Option.bind_eq_bind, Option.bind_some, ho]
  show (h.objects p >>= fun _ => _) = _
  rw [hp, Option.bind_eq_bind, Option.bind_some]
  dsimp only
  rw [hu]

/-- Where a directory has got the tree `x` among its directories the loop of `updateInfo` makes a
turn there, if it goes on behind `x`. -/
theorem ends_withDirs {h : Heap} {p : Ptr} {d : DirInfo} {A B : List Linked} {x : Linked}
    {parent : Option Ptr} (update : Bool)
    (hp : h.objects p = some ⟨d, (A ++ x :: B).map RoseTree.addr, parent⟩)
    (hts : ∀ t ∈ A ++ x :: B, t.Holds h.objects (some p)) :
    ∃ h' d', h'.objects p = some ⟨d', (A ++ x :: B).map RoseTree.addr, parent⟩ ∧
      (∀ q ≠ p, h'.objects q = h.objects q) ∧ h'.unused = h.unused ∧
      RoseTree.node d' ((A ++ x :: B).map RoseTree.plain) =
        (withDirs parent.isNone update d ((A ++ x :: B).map RoseTree.plain)).1 ∧
      ∀ out,
        (if (withDirs parent.isNone update d ((A ++ x :: B).map RoseTree.plain)).2 then
          Ends (loop updatePass) (h', p) out else out = h') →
        if update then Ends (loop updatePass) (h, x.addr) out else out = h := by
  cases update with
  | false => exact ⟨h, d, hp, fun _ _ => rfl, rfl, rfl, fun out hout => hout⟩
  | true =>
    obtain ⟨children, hx⟩ := (hts x (List.mem_append_right _ List.mem_cons_self)).root
    have hpass := updatePass_eq hx rfl hp hts
    dsimp only at hpass
    refine ⟨h.write p _, _, objects_write_self _ _ _, fun q hq => objects_write_of_ne _ _ hq,
      rfl, rfl, fun out hout => ?_⟩
    rw [if_pos rfl]
    rw [withDirs, if_pos rfl] at hout
    by_cases hu : (d.updateInfo parent.isNone ((A ++ x :: B).map RoseTree.plain)).2 = true
    · rw [if_pos hu] at hout hpass
      exact Ends.again updatePass_fuelMono ⟨0, hpass⟩ hout
    · rw [if_neg hu] at hout hpass
      subst hout
      exact Ends.done ⟨0, hpass⟩

/-- What is done among the directories of a directory, which are those before except the one for
which there is `x`, and the turn of the loop of `updateInfo` after it. -/
theorem changed_withDirs {h₀ h : Heap} {p : Ptr} {d d' : DirInfo} {ts A B : List Linked}
    {x src : Linked} {parent : Option Ptr} (update : Bool)
    (hhas : h₀.Has (.node (p, d) ts) parent) (hsub : (A ++ B).Sublist ts)
    (hdisjoint : ∀ q ∈ src.addrs, q ∉ (RoseTree.node (p, d) ts).addrs)
    (hx : h.Has x (some p))
    (hxaddrs : ∀ q ∈ x.addrs, (q ∈ ts.flatMap RoseTree.addrs ∧
      q ∉ (A ++ B).flatMap RoseTree.addrs) ∨ q ∈ src.addrs ∨ h₀.unused ≤ q)
    (hp : h.objects p = some ⟨d', (A ++ x :: B).map RoseTree.addr, parent⟩)
    (hframe : ∀ q < h₀.unused, q ≠ p → q ∉ src.addrs →
      (q ∈ ts.flatMap RoseTree.addrs → q ∈ (A ++ B).flatMap RoseTree.addrs) →
        h.objects q = h₀.objects q) (hunused : h₀.unused ≤ h.unused) :
    ∃ h' t', Changed h₀ (.node (p, d) ts) src parent h' t' ∧
      t'.plain = (withDirs parent.isNone update d' ((A ++ x :: B).map RoseTree.plain)).1 ∧
      ∀ out,
        (if (withDirs parent.isNone update d' ((A ++ x :: B).map RoseTree.plain)).2 then
          Ends (loop updatePass) (h', p) out else out = h') →
        if update then Ends (loop updatePass) (h, x.addr) out else out = h := by
  obtain ⟨hholds, hnodup, hused⟩ := hhas
  rw [RoseTree.addrs_node] at hnodup hused hdisjoint
  obtain ⟨-, hchildren⟩ := RoseTree.holds_node.mp hholds
  obtain ⟨hpnot, hnodup⟩ := List.nodup_cons.mp hnodup
  have hrest := (hsub.flatMap RoseTree.addrs).subset
  have hothers : ∀ t ∈ A ++ B, ∀ q ∈ t.addrs, h.objects q = h₀.objects q := by
    intro t ht q hq
    have hmem : q ∈ (A ++ B).flatMap RoseTree.addrs := List.mem_flatMap_of_mem ht hq
    have hts := hrest hmem
    apply hframe q (hused q (List.mem_cons_of_mem _ hts)) _ _ fun _ => hmem
    · rintro rfl
      exact hpnot hts
    · exact fun hq => hdisjoint q hq (List.mem_cons_of_mem _ hts)
  have hmem : ∀ t, t ∈ A ++ x :: B ↔ t = x ∨ t ∈ A ++ B := by
    intro t
    simp only [List.mem_append, List.mem_cons]
    tauto
  have hholds' : ∀ t ∈ A ++ x :: B, t.Holds h.objects (some p) := by
    intro t ht
    rcases (hmem t).mp ht with rfl | ht
    · exact hx.holds
    · exact (hchildren t (hsub.subset ht)).congr (hothers t ht)
  obtain ⟨h', d'', hp', hframe', hunused', hplain, hends⟩ := ends_withDirs update hp hholds'
  have haddrs : ∀ q, q ∈ (A ++ x :: B).flatMap RoseTree.addrs ↔
      q ∈ x.addrs ∨ q ∈ (A ++ B).flatMap RoseTree.addrs := by
    intro q
    simp only [List.flatMap_append, List.flatMap_cons, List.mem_append]
    tauto
  have hxnot : ∀ q ∈ x.addrs, q ≠ p ∧ q ∉ (A ++ B).flatMap RoseTree.addrs := by
    intro q hq
    rcases hxaddrs q hq with ⟨hts, hnot⟩ | hq | hq
    · refine ⟨?_, hnot⟩
      rintro rfl
      exact hpnot hts
    · have := hdisjoint q hq
      refine ⟨?_, fun hmem => this (List.mem_cons_of_mem _ (hrest hmem))⟩
      rintro rfl
      exact this List.mem_cons_self
    · refine ⟨?_, fun hmem => ?_⟩
      · rintro rfl
        exact absurd (hused _ List.mem_cons_self) (Nat.not_lt.mpr hq)
      · exact absurd (hused q (List.mem_cons_of_mem _ (hrest hmem))) (Nat.not_lt.mpr hq)
  have hpout : p ∉ (A ++ x :: B).flatMap RoseTree.addrs := by
    rw [haddrs, not_or]
    exact ⟨fun hq => (hxnot p hq).1 rfl, fun hq => hpnot (hrest hq)⟩
  refine ⟨h', .node (p, d'') (A ++ x :: B), ⟨⟨?_, ?_, ?_⟩, rfl, ?_, ?_, ?_⟩, ?_, hends⟩
  · refine RoseTree.holds_node.mpr ⟨hp', fun t ht => (hholds' t ht).congr fun q hq => ?_⟩
    apply hframe'
    rintro rfl
    exact hpout (List.mem_flatMap_of_mem ht hq)
  · have hperm := (@List.perm_middle _ x A B).flatMap_right RoseTree.addrs
    rw [RoseTree.addrs_node, List.nodup_cons]
    refine ⟨hpout, hperm.nodup_iff.mpr ?_⟩
    rw [List.flatMap_cons, List.nodup_append']
    exact ⟨hx.nodup, hnodup.sublist (hsub.flatMap _), fun q hq => (hxnot q hq).2⟩
  · intro q hq
    rw [hunused']
    rw [RoseTree.addrs_node, List.mem_cons, haddrs] at hq
    rcases hq with rfl | hq | hq
    · exact Nat.lt_of_lt_of_le (hused _ List.mem_cons_self) hunused
    · exact hx.used q hq
    · exact Nat.lt_of_lt_of_le (hused q (List.mem_cons_of_mem _ (hrest hq))) hunused
  · intro q hq
    rw [RoseTree.addrs_node, List.mem_cons, haddrs] at hq
    rw [RoseTree.addrs_node, List.mem_cons]
    rcases hq with rfl | hq | hq
    · exact .inl (.inl rfl)
    · exact (hxaddrs q hq).imp (fun h => .inr h.1) id
    · exact .inl (.inr (hrest hq))
  · intro q hlt hq hqsrc
    rw [RoseTree.addrs_node, List.mem_cons, not_or] at hq
    rw [hframe' q hq.1, hframe q hlt hq.1 hqsrc fun h => absurd h hq.2]
  · exact hunused'.symm ▸ hunused
  · rw [RoseTree.plain_node]
    exact hplain

/-! ### Putting the partial list into a directory -/

/-- The tree with another name at its root. -/
def renamed (name : List UInt8) : Linked → Linked
  | .node a ts => .node (a.1, { a.2 with name }) ts

theorem addrs_renamed (name : List UInt8) (t : Linked) : (renamed name t).addrs = t.addrs := by
  cases t with
  | node a ts => rw [renamed, RoseTree.addrs_node, RoseTree.addrs_node]

theorem addr_renamed (name : List UInt8) (t : Linked) : (renamed name t).addr = t.addr := by
  cases t
  rfl

theorem plain_renamed (name : List UInt8) (t : Linked) :
    (renamed name t).plain = rename name t.plain := by
  cases t with
  | node a ts => rw [renamed, RoseTree.plain_node, RoseTree.plain_node, rename]

/-- A tree whose objects have not changed. -/
theorem Heap.Has.congr {h h' : Heap} {t : Linked} {parent : Option Ptr} (ht : h.Has t parent)
    (heq : ∀ p ∈ t.addrs, h'.objects p = h.objects p) (hunused : h.unused ≤ h'.unused) :
    h'.Has t parent :=
  ⟨ht.holds.congr heq, ht.nodup, fun p hp => Nat.lt_of_lt_of_le (ht.used p hp) hunused⟩

/-- Linked to another parent, and with another name, the tree is still there. -/
theorem Heap.Has.renamed {h : Heap} {t : Linked} {parent : Option Ptr} (ht : h.Has t parent)
    (name : List UInt8) (parent' : Option Ptr) :
    ∃ o, h.objects t.addr = some o ∧
      (h.write t.addr { o with value.name := name, parent := parent' }).Has (renamed name t)
        parent' := by
  cases t with
  | node a ts =>
    obtain ⟨hholds, hnodup, hused⟩ := ht
    obtain ⟨hroot, hts⟩ := RoseTree.holds_node.mp hholds
    have hnot := hnodup
    rw [RoseTree.addrs_node, List.nodup_cons] at hnot
    refine ⟨_, hroot, RoseTree.holds_node.mpr ⟨?_, fun t ht => ?_⟩, ?_, ?_⟩
    · exact objects_write_self _ _ _
    · refine (hts t ht).congr fun q hq => objects_write_of_ne _ _ ?_
      rintro rfl
      exact hnot.1 (List.mem_flatMap_of_mem ht hq)
    · rwa [addrs_renamed]
    · rwa [addrs_renamed]

theorem findDirectory_eq {h : Heap} {ts : List Linked} {parent : Option Ptr}
    (hts : ∀ t ∈ ts, t.Holds h.objects parent) (name : List UInt8) :
    h.findDirectory name (ts.map RoseTree.addr) =
      (ts.find? fun t => t.value.2.name = name).map RoseTree.addr := by
  induction ts with
  | nil => rfl
  | cons t ts ih =>
    rw [List.forall_mem_cons] at hts
    obtain ⟨children, ht⟩ := hts.1.root
    have ih := ih hts.2
    rw [Heap.findDirectory] at ih ⊢
    rw [List.map_cons, List.find?_cons, List.find?_cons, ht, Option.any_some, ih]
    cases decide (t.value.2.name = name) with
    | true => rfl
    | false => rfl

theorem findDirectory_of_found {h : Heap} {A B : List Linked} {c : Linked} {parent : Option Ptr}
    {name : List UInt8} (hts : ∀ t ∈ A ++ c :: B, t.Holds h.objects parent)
    (hA : ∀ a ∈ A, a.value.2.name ≠ name) (hc : c.value.2.name = name) :
    h.findDirectory name ((A ++ c :: B).map RoseTree.addr) = some c.addr := by
  rw [findDirectory_eq hts, List.find?_append, List.find?_eq_none.mpr (by simpa using hA),
    Option.none_or, List.find?_cons_of_pos (by simpa using hc), Option.map_some]

theorem findDirectory_of_new {h : Heap} {ts : List Linked} {parent : Option Ptr}
    {name : List UInt8} (hts : ∀ t ∈ ts, t.Holds h.objects parent)
    (hnew : ∀ t ∈ ts, t.value.2.name ≠ name) :
    h.findDirectory name (ts.map RoseTree.addr) = none := by
  rw [findDirectory_eq hts, List.find?_eq_none.mpr (by simpa using hnew), Option.map_none]

/-- What is deleted are the objects of the tree. -/
theorem delete_eq {h : Heap} {t : Linked} {parent : Option Ptr} (ht : h.Has t parent) :
    ∃ fuel h', h.delete fuel t.addr = some h' ∧ h'.unused = h.unused ∧
      ∀ q, q ∉ t.addrs → h'.objects q = h.objects q := by
  have hnodup : ([t].flatMap RoseTree.addrs).Nodup := by
    rw [List.flatMap_singleton]
    exact ht.nodup
  obtain ⟨m, ⟨fuel, hm⟩, hframe⟩ := ends_free (List.forall_mem_singleton.mpr ⟨_, ht.holds⟩) hnodup
  refine ⟨fuel, { h with objects := m }, ?_, rfl, fun q hq => hframe q ?_⟩
  · rw [Heap.delete]
    exact congrArg _ hm
  · rwa [List.flatMap_singleton]

/-- A directory of a directory. -/
theorem Heap.Has.child {h : Heap} {p : Ptr} {d : DirInfo} {ts : List Linked}
    {parent : Option Ptr} (hhas : h.Has (.node (p, d) ts) parent) {t : Linked} (ht : t ∈ ts) :
    h.Has t (some p) ∧ p ∉ t.addrs := by
  obtain ⟨hholds, hnodup, hused⟩ := hhas
  rw [RoseTree.addrs_node] at hnodup hused
  obtain ⟨hp, hnodup⟩ := List.nodup_cons.mp hnodup
  have hmem : ∀ q ∈ t.addrs, q ∈ ts.flatMap RoseTree.addrs := fun q hq =>
    List.mem_flatMap_of_mem ht hq
  exact ⟨⟨(RoseTree.holds_node.mp hholds).2 t ht, (List.nodup_flatMap.mp hnodup).1 t ht,
    fun q hq => hused q (List.mem_cons_of_mem _ (hmem q hq))⟩, fun h => hp (hmem p h)⟩

/-- The addresses of the other directories. -/
theorem Heap.Has.others {h : Heap} {p : Ptr} {d : DirInfo} {A B : List Linked} {c : Linked}
    {parent : Option Ptr} (hhas : h.Has (.node (p, d) (A ++ c :: B)) parent) :
    ∀ q ∈ c.addrs, q ∉ (A ++ B).flatMap RoseTree.addrs := by
  have hnodup := hhas.nodup
  rw [RoseTree.addrs_node, List.nodup_cons] at hnodup
  have hperm := (@List.perm_middle _ c A B).flatMap_right RoseTree.addrs
  have hnodup := hperm.nodup_iff.mp hnodup.2
  rw [List.flatMap_cons, List.nodup_append'] at hnodup
  exact hnodup.2.2

/-- The directory with the name is replaced. -/
theorem put_of_found {h : Heap} {p : Ptr} {d : DirInfo} {A B : List Linked} {c src : Linked}
    {parent srcParent : Option Ptr} {dirName : List UInt8}
    (hhas : h.Has (.node (p, d) (A ++ c :: B)) parent) (hsrc : h.Has src srcParent)
    (hdisjoint : ∀ q ∈ src.addrs, q ∉ (RoseTree.node (p, d) (A ++ c :: B)).addrs)
    (hA : ∀ a ∈ A, a.value.2.name ≠ dirName) (hc : c.value.2.name = dirName) :
    ∃ fuel h', h.put fuel src.addr p dirName = some h' ∧ h'.unused = h.unused ∧
      h'.objects p = some ⟨d, (A ++ renamed dirName src :: B).map RoseTree.addr, parent⟩ ∧
      h'.Has (renamed dirName src) (some p) ∧
      ∀ q ≠ p, q ∉ src.addrs → q ∉ c.addrs → h'.objects q = h.objects q := by
  obtain ⟨hp, hts⟩ := RoseTree.holds_node.mp hhas.holds
  obtain ⟨hchas, hpc⟩ := hhas.child (List.mem_append_right A List.mem_cons_self)
  have hcA : c.addr ∉ A.map RoseTree.addr := by
    intro hmem
    obtain ⟨a, ha, heq⟩ := List.mem_map.mp hmem
    apply hhas.others c.addr c.addr_mem_addrs
    exact List.mem_flatMap_of_mem (List.mem_append_left B ha) (heq ▸ a.addr_mem_addrs)
  have hreplace : ((A ++ c :: B).map RoseTree.addr).replace c.addr src.addr =
      (A ++ renamed dirName src :: B).map RoseTree.addr := by
    rw [List.map_append, List.map_cons, List.replace_append_right hcA, List.replace_cons_self,
      List.map_append, List.map_cons, addr_renamed]
  have hsrcout : ∀ q ∈ src.addrs, q ≠ p ∧ q ∉ c.addrs := by
    intro q hq
    have hnot := hdisjoint q hq
    rw [RoseTree.addrs_node, List.mem_cons, not_or] at hnot
    exact ⟨hnot.1, fun hqc => hnot.2
      (List.mem_flatMap_of_mem (List.mem_append_right A List.mem_cons_self) hqc)⟩
  -- the pointer is written, then what it pointed to before is deleted
  let h₁ := h.write p ⟨d, (A ++ renamed dirName src :: B).map RoseTree.addr, parent⟩
  have hwrite : ∀ q ≠ p, h₁.objects q = h.objects q := fun q hq => objects_write_of_ne h _ hq
  have hkept : ∀ q ∈ c.addrs, h₁.objects q = h.objects q := by
    intro q hq
    apply hwrite
    rintro rfl
    exact hpc hq
  have hchas₁ : h₁.Has c (some p) := hchas.congr hkept (Nat.le_refl _)
  obtain ⟨fuel, h₂, hdelete, hunused, hframe⟩ := delete_eq hchas₁
  have hsrc₂ : h₂.Has src srcParent := by
    apply hsrc.congr _ (Nat.le_of_eq hunused.symm)
    intro q hq
    rw [hframe q (hsrcout q hq).2, hwrite q (hsrcout q hq).1]
  obtain ⟨o, ho, hrenamed⟩ := hsrc₂.renamed dirName (some p)
  refine ⟨fuel, h₂.write src.addr { o with value.name := dirName, parent := p }, ?_, hunused, ?_,
    hrenamed, fun q hq hqsrc hqc => ?_⟩
  · show (h.objects p >>= fun _ => _) = _
    rw [hp, Option.bind_eq_bind, Option.bind_some]
    dsimp only
    rw [findDirectory_of_found hts hA hc]
    dsimp only
    rw [hreplace, hdelete]
    show (h₂.objects src.addr >>= fun _ => _) = _
    rw [ho]
    rfl
  · have hne : p ≠ src.addr := fun heq => (hsrcout _ src.addr_mem_addrs).1 heq.symm
    rw [objects_write_of_ne _ _ hne, hframe p hpc]
    exact objects_write_self _ _ _
  · have hne : q ≠ src.addr := fun heq => hqsrc (heq ▸ src.addr_mem_addrs)
    rw [objects_write_of_ne _ _ hne, hframe q hqc, hwrite q hq]

/-- There is one more directory. -/
theorem put_of_new {h : Heap} {p : Ptr} {d : DirInfo} {ts : List Linked} {src : Linked}
    {parent srcParent : Option Ptr} {dirName : List UInt8}
    (hhas : h.Has (.node (p, d) ts) parent) (hsrc : h.Has src srcParent)
    (hdisjoint : ∀ q ∈ src.addrs, q ∉ (RoseTree.node (p, d) ts).addrs)
    (hnew : ∀ t ∈ ts, t.value.2.name ≠ dirName) (fuel : Nat) :
    ∃ h', h.put fuel src.addr p dirName = some h' ∧ h'.unused = h.unused ∧
      h'.objects p = some ⟨d, (ts ++ [renamed dirName src]).map RoseTree.addr, parent⟩ ∧
      h'.Has (renamed dirName src) (some p) ∧
      ∀ q ≠ p, q ∉ src.addrs → h'.objects q = h.objects q := by
  obtain ⟨hp, hts⟩ := RoseTree.holds_node.mp hhas.holds
  have hpsrc : p ∉ src.addrs := by
    intro hmem
    apply hdisjoint p hmem
    rw [RoseTree.addrs_node]
    exact List.mem_cons_self
  obtain ⟨o, ho, hrenamed⟩ := hsrc.renamed dirName (some p)
  have hne : p ≠ src.addr := fun heq => hpsrc (heq ▸ src.addr_mem_addrs)
  have hp₁ : (h.write src.addr { o with value.name := dirName, parent := p }).objects p =
      some ⟨d, ts.map RoseTree.addr, parent⟩ := by
    rw [objects_write_of_ne _ _ hne]
    exact hp
  refine ⟨(h.write src.addr { o with value.name := dirName, parent := p }).write p
    ⟨d, (ts ++ [renamed dirName src]).map RoseTree.addr, parent⟩, ?_, rfl,
    objects_write_self _ _ _, ?_, fun q hq hqsrc => ?_⟩
  · show (h.objects p >>= fun _ => _) = _
    rw [hp, Option.bind_eq_bind, Option.bind_some]
    dsimp only
    rw [findDirectory_of_new hts hnew]
    show (h.objects src.addr >>= fun _ => _) = _
    rw [ho, Option.bind_eq_bind, Option.bind_some]
    show (Heap.objects _ p >>= fun _ => _) = _
    rw [hp₁, List.map_append, List.map_singleton, addr_renamed]
    rfl
  · refine hrenamed.congr (fun q hq => objects_write_of_ne _ _ ?_) (Nat.le_refl _)
    rintro rfl
    rw [addrs_renamed] at hq
    exact hpsrc hq
  · have hne : q ≠ src.addr := fun heq => hqsrc (heq ▸ src.addr_mem_addrs)
    rw [objects_write_of_ne _ _ hq, objects_write_of_ne _ _ hne]

/-! ### The way to the directory -/

/-- What the loops over the tokens and what follows them make of the objects, from a directory. The
partial list is put into `last`. -/
def Heap.Puts (h : Heap) (root src : Ptr) (dirName : List UInt8) (tokens : List (List UInt8))
    (p last : Ptr) (h' : Heap) : Prop :=
  ∃ dir rest h₁ fuel, h.enter tokens p = some (dir, rest) ∧
    h.create root rest dir = some (h₁, last) ∧ h₁.put fuel src last dirName = some h'

theorem Heap.Puts.of_found {h h' : Heap} {root src p c last : Ptr} {dirName token : List UInt8}
    {tokens : List (List UInt8)} {o : LinkedNode DirInfo} (hp : h.objects p = some o)
    (hfind : h.findDirectory token o.children = some c)
    (hputs : h.Puts root src dirName tokens c last h') :
    h.Puts root src dirName (token :: tokens) p last h' := by
  obtain ⟨dir, rest, h₁, fuel, henter, hcreate, hput⟩ := hputs
  refine ⟨dir, rest, h₁, fuel, ?_, hcreate, hput⟩
  rw [Heap.enter, hp, Option.bind_eq_bind, Option.bind_some, hfind]
  exact henter

/-- The objects when there is a new directory in the one at `p`. -/
def Heap.withNew (h : Heap) (root p : Ptr) (token : List UInt8) (o : LinkedNode DirInfo) : Heap :=
  (h.newDirectory p token false).1.write p
    ⟨if p = root then { o.value with complete := false } else o.value,
      o.children ++ [h.unused], o.parent⟩

theorem objects_withNew {h : Heap} {root p q : Ptr} {token : List UInt8}
    {o : LinkedNode DirInfo} (hp : q ≠ p) (hq : q ≠ h.unused) :
    (h.withNew root p token o).objects q = h.objects q := by
  rw [Heap.withNew, objects_write_of_ne _ _ hp]
  exact objects_write_of_ne _ _ hq

theorem Heap.Puts.of_new {h h' : Heap} {root src p last : Ptr} {dirName token : List UInt8}
    {tokens : List (List UInt8)} {o : LinkedNode DirInfo} (hp : h.objects p = some o)
    (hlt : p < h.unused) (hfind : h.findDirectory token o.children = none)
    (hputs : (h.withNew root p token o).Puts root src dirName tokens h.unused last h') :
    h.Puts root src dirName (token :: tokens) p last h' := by
  obtain ⟨dir, rest, h₁, fuel, henter, hcreate, hput⟩ := hputs
  have hne : p ≠ h.unused := Nat.ne_of_lt hlt
  have hnew : (h.withNew root p token o).objects h.unused =
      some ⟨.new token false, [], some p⟩ := by
    rw [Heap.withNew, objects_write_of_ne _ _ hne.symm]
    exact objects_write_self _ _ _
  have hstay : (h.withNew root p token o).enter tokens h.unused = some (h.unused, tokens) := by
    cases tokens with
    | nil => rfl
    | cons next tokens =>
      rw [Heap.enter, hnew]
      rfl
  rw [hstay] at henter
  cases henter
  refine ⟨p, token :: tokens, h₁, fuel, ?_, ?_, hput⟩
  · rw [Heap.enter, hp, Option.bind_eq_bind, Option.bind_some, hfind]
  · have hp₁ : (h.newDirectory p token false).1.objects p = some o := by
      rw [← hp]
      exact objects_write_of_ne _ _ hne
    rw [Heap.create]
    show ((h.newDirectory p token false).1.objects p >>= fun _ => _) = _
    rw [hp₁]
    exact hcreate

/-- What is there before `spliceTree` enters a directory: the tree below it, and the partial list
apart from it. -/
structure Heap.Ready (h : Heap) (root : Ptr) (src t : Linked) (parent : Option Ptr) : Prop where
  has : h.Has t parent
  has_src : ∃ srcParent, h.Has src srcParent
  disjoint : ∀ q ∈ src.addrs, q ∉ t.addrs
  root_eq : parent = none → t.addr = root
  root_not_mem : parent ≠ none → root ∉ t.addrs
  root_used : root < h.unused

/-- From a directory the partial list is put where `spliceDir` puts it, and then the loop of
`updateInfo` comes to this directory if `spliceDir` goes on. -/
def Heap.SplicesAs (h : Heap) (root : Ptr) (src : Linked) (dirName : List UInt8)
    (tokens : List (List UInt8)) (t : Linked) (parent : Option Ptr) : Prop :=
  ∃ last h₂ h' t', h.Puts root src.addr dirName tokens t.addr last h₂ ∧
    (parent ≠ none ∨ tokens ≠ [] → last ≠ root) ∧ Changed h t src parent h' t' ∧
    t'.plain = (spliceDir src.plain dirName parent.isNone tokens t.plain).1 ∧
    ∀ out,
      (if (spliceDir src.plain dirName parent.isNone tokens t.plain).2 then
        Ends (loop updatePass) (h', t.addr) out else out = h') →
      Ends (loop updatePass) (h₂, src.addr) out

theorem names_plain {ts : List Linked} {name : List UInt8}
    (h : ∀ t ∈ ts, t.value.2.name ≠ name) :
    ∀ dir ∈ ts.map RoseTree.plain, dir.value.name ≠ name := by
  intro dir hdir
  obtain ⟨t, ht, rfl⟩ := List.mem_map.mp hdir
  rw [RoseTree.value_plain]
  exact h t ht

theorem splicesAs_nil {h : Heap} {root : Ptr} {src t : Linked} {parent : Option Ptr}
    (dirName : List UInt8) (hready : h.Ready root src t parent) :
    h.SplicesAs root src dirName [] t parent := by
  obtain ⟨hhas, ⟨srcParent, hsrc⟩, hdisjoint, -, hnotroot, -⟩ := hready
  cases t with
  | node a ts =>
    obtain ⟨p, d⟩ := a
    have hlast : parent ≠ none ∨ ([] : List (List UInt8)) ≠ [] → p ≠ root := by
      rintro (hparent | h) rfl
      · exact hnotroot hparent (RoseTree.addr_mem_addrs _)
      · exact h rfl
    have hxaddrs : ∀ {P : Ptr → Prop}, ∀ q ∈ (renamed dirName src).addrs,
        P q ∨ q ∈ src.addrs ∨ h.unused ≤ q := fun q hq =>
      .inr (.inl (addrs_renamed dirName src ▸ hq))
    rw [Heap.SplicesAs, RoseTree.plain_node, spliceDir_nil]
    rcases exists_first (fun t : Linked => t.value.2.name = dirName) ts with
      hnew | ⟨A, c, B, rfl, hA, hc⟩
    · obtain ⟨h₂, hput, hunused, hp, hx, hframe⟩ := put_of_new hhas hsrc hdisjoint hnew 0
      have hsub : (ts ++ []).Sublist ts := by rw [List.append_nil]
      obtain ⟨h', t', hchanged, hplain, hends⟩ := changed_withDirs true hhas hsub hdisjoint hx
        hxaddrs hp (fun q _ hqp hqsrc _ => hframe q hqp hqsrc) (Nat.le_of_eq hunused.symm)
      rw [List.map_append, List.map_cons, plain_renamed, List.map_nil] at hplain hends
      rw [addr_renamed] at hends
      rw [putDir_of_new (names_plain hnew)]
      exact ⟨p, h₂, h', t', ⟨p, [], h, 0, rfl, rfl, hput⟩, hlast, hchanged, hplain, hends⟩
    · obtain ⟨fuel, h₂, hput, hunused, hp, hx, hframe⟩ :=
        put_of_found hhas hsrc hdisjoint hA hc
      have hsub : (A ++ B).Sublist (A ++ c :: B) :=
        List.Sublist.append_left (List.sublist_cons_self c B) A
      have hrest : ∀ q < h.unused, q ≠ p → q ∉ src.addrs →
          (q ∈ (A ++ c :: B).flatMap RoseTree.addrs → q ∈ (A ++ B).flatMap RoseTree.addrs) →
            h₂.objects q = h.objects q := by
        intro q _ hqp hqsrc hq
        refine hframe q hqp hqsrc fun hqc => hhas.others q hqc (hq ?_)
        exact List.mem_flatMap_of_mem (List.mem_append_right A List.mem_cons_self) hqc
      obtain ⟨h', t', hchanged, hplain, hends⟩ := changed_withDirs true hhas hsub hdisjoint hx
        hxaddrs hp hrest (Nat.le_of_eq hunused.symm)
      rw [List.map_append, List.map_cons, plain_renamed] at hplain hends
      rw [addr_renamed] at hends
      rw [List.map_append, List.map_cons, putDir_of_found (names_plain hA)
        ((congrArg _ (RoseTree.value_plain c)).trans hc)]
      exact ⟨p, h₂, h', t', ⟨p, [], h, fuel, rfl, rfl, hput⟩, hlast, hchanged, hplain, hends⟩

/-- On the way through a directory that there is. -/
theorem splicesAs_of_found {h : Heap} {root p : Ptr} {src c : Linked} {d : DirInfo}
    {A B : List Linked} {parent : Option Ptr} {dirName token : List UInt8}
    {tokens : List (List UInt8)} (hready : h.Ready root src (.node (p, d) (A ++ c :: B)) parent)
    (hA : ∀ a ∈ A, a.value.2.name ≠ token) (hc : c.value.2.name = token)
    (hsplices : h.SplicesAs root src dirName tokens c (some p)) :
    h.SplicesAs root src dirName (token :: tokens) (.node (p, d) (A ++ c :: B)) parent := by
  obtain ⟨hhas, ⟨srcParent, hsrc⟩, hdisjoint, -, -, -⟩ := hready
  obtain ⟨last, h₂, h₃, c', hputs, hlast, hchanged, hplain, hends⟩ := hsplices
  obtain ⟨hp, hts⟩ := RoseTree.holds_node.mp hhas.holds
  obtain ⟨-, hpc⟩ := hhas.child (List.mem_append_right A List.mem_cons_self)
  have hmem : ∀ q ∈ c.addrs, q ∈ (A ++ c :: B).flatMap RoseTree.addrs := fun q hq =>
    List.mem_flatMap_of_mem (List.mem_append_right A List.mem_cons_self) hq
  have hpin : p ∈ (RoseTree.node (p, d) (A ++ c :: B)).addrs := RoseTree.addr_mem_addrs _
  have hpsrc : p ∉ src.addrs := fun hq => hdisjoint p hq hpin
  have hp₃ : h₃.objects p = some ⟨d, (A ++ c' :: B).map RoseTree.addr, parent⟩ := by
    rw [hchanged.frame p (hhas.used p hpin) hpc hpsrc, hp, List.map_append, List.map_cons,
      List.map_append, List.map_cons, hchanged.addr]
  have hxaddrs : ∀ q ∈ c'.addrs, (q ∈ (A ++ c :: B).flatMap RoseTree.addrs ∧
      q ∉ (A ++ B).flatMap RoseTree.addrs) ∨ q ∈ src.addrs ∨ h.unused ≤ q := fun q hq =>
    (hchanged.addrs q hq).imp_left fun hqc => ⟨hmem q hqc, hhas.others q hqc⟩
  have hrest : ∀ q < h.unused, q ≠ p → q ∉ src.addrs →
      (q ∈ (A ++ c :: B).flatMap RoseTree.addrs → q ∈ (A ++ B).flatMap RoseTree.addrs) →
        h₃.objects q = h.objects q := fun q hq _ hqsrc hin =>
    hchanged.frame q hq (fun hqc => hhas.others q hqc (hin (hmem q hqc))) hqsrc
  have hsub : (A ++ B).Sublist (A ++ c :: B) :=
    List.Sublist.append_left (List.sublist_cons_self c B) A
  obtain ⟨h', t', hchanged', hplain', hends'⟩ := changed_withDirs
    (spliceDir src.plain dirName false tokens c.plain).2 hhas hsub hdisjoint hchanged.has hxaddrs
    hp₃ hrest hchanged.unused_le
  have hname : c.plain.value.name = token := by rw [RoseTree.value_plain, hc]
  have hfalse : (some p).isNone = false := rfl
  rw [hfalse] at hplain hends
  rw [List.map_append, List.map_cons, hplain] at hplain' hends'
  rw [hchanged.addr] at hends'
  rw [Heap.SplicesAs, RoseTree.plain_node, List.map_append, List.map_cons,
    spliceDir_of_found (names_plain hA) hname]
  refine ⟨last, h₂, h', t', hputs.of_found hp (findDirectory_of_found hts hA hc), ?_, hchanged',
    hplain', fun out hout => hends out (hends' out hout)⟩
  exact fun _ => hlast (.inl (Option.some_ne_none p))

/-- On the way through a new directory. -/
theorem splicesAs_of_new {h : Heap} {root p : Ptr} {src : Linked} {d : DirInfo}
    {ts : List Linked} {parent : Option Ptr} {dirName token : List UInt8}
    {tokens : List (List UInt8)} (hready : h.Ready root src (.node (p, d) ts) parent)
    (hnew : ∀ t ∈ ts, t.value.2.name ≠ token)
    (hsplices : (h.withNew root p token ⟨d, ts.map RoseTree.addr, parent⟩).SplicesAs root src
      dirName tokens (.node (h.unused, .new token false) []) (some p)) :
    h.SplicesAs root src dirName (token :: tokens) (.node (p, d) ts) parent := by
  obtain ⟨hhas, ⟨srcParent, hsrc⟩, hdisjoint, hroot, hnotroot, -⟩ := hready
  obtain ⟨last, h₂, h₃, c', hputs, hlast, hchanged, hplain, hends⟩ := hsplices
  obtain ⟨hp, hts⟩ := RoseTree.holds_node.mp hhas.holds
  have hpin : p ∈ (RoseTree.node (p, d) ts).addrs := RoseTree.addr_mem_addrs _
  have hpsrc : p ∉ src.addrs := fun hq => hdisjoint p hq hpin
  have hlt := hhas.used p hpin
  have haddrs : (RoseTree.node (h.unused, DirInfo.new token false) []).addrs = [h.unused] := by
    rw [RoseTree.addrs_node, List.flatMap_nil]
  have hunused : h.unused ≤
      (h.withNew root p token ⟨d, ts.map RoseTree.addr, parent⟩).unused := Nat.le_succ _
  have hroot' : p = root ↔ parent.isNone = true := by
    rw [Option.isNone_iff_eq_none]
    refine ⟨?_, fun h => hroot h⟩
    rintro rfl
    by_contra hne
    exact hnotroot hne hpin
  have hp₃ : h₃.objects p = some ⟨if parent.isNone then { d with complete := false } else d,
      (ts ++ c' :: []).map RoseTree.addr, parent⟩ := by
    have hpnew : p ∉ (RoseTree.node (h.unused, DirInfo.new token false) []).addrs := by
      rw [haddrs, List.mem_singleton]
      exact Nat.ne_of_lt hlt
    rw [hchanged.frame p (Nat.lt_of_lt_of_le hlt hunused) hpnew hpsrc, Heap.withNew,
      objects_write_self, List.map_append, List.map_singleton, hchanged.addr]
    simp only [hroot']
    rfl
  have hxaddrs : ∀ q ∈ c'.addrs, (q ∈ ts.flatMap RoseTree.addrs ∧
      q ∉ (ts ++ []).flatMap RoseTree.addrs) ∨ q ∈ src.addrs ∨ h.unused ≤ q := by
    intro q hq
    rcases hchanged.addrs q hq with hq | hq | hq
    · rw [haddrs, List.mem_singleton] at hq
      exact .inr (.inr (Nat.le_of_eq hq.symm))
    · exact .inr (.inl hq)
    · exact .inr (.inr (Nat.le_trans hunused hq))
  have hrest : ∀ q < h.unused, q ≠ p → q ∉ src.addrs →
      (q ∈ ts.flatMap RoseTree.addrs → q ∈ (ts ++ []).flatMap RoseTree.addrs) →
        h₃.objects q = h.objects q := by
    intro q hq hqp hqsrc _
    have hne := Nat.ne_of_lt hq
    have hqnew : q ∉ (RoseTree.node (h.unused, DirInfo.new token false) []).addrs := by
      rwa [haddrs, List.mem_singleton]
    rw [hchanged.frame q (Nat.lt_of_lt_of_le hq hunused) hqnew hqsrc, objects_withNew hqp hne]
  have hsub : (ts ++ []).Sublist ts := by rw [List.append_nil]
  obtain ⟨h', t', hchanged', hplain', hends'⟩ := changed_withDirs
    (spliceDir src.plain dirName false tokens (.node (.new token false) [])).2 hhas hsub hdisjoint
    hchanged.has hxaddrs hp₃ hrest (Nat.le_trans hunused hchanged.unused_le)
  have hfalse : (some p).isNone = false := rfl
  rw [hfalse, RoseTree.plain_node] at hplain hends
  rw [List.map_append, List.map_singleton, hplain] at hplain' hends'
  rw [hchanged.addr] at hends'
  rw [Heap.SplicesAs, RoseTree.plain_node, spliceDir_of_new (names_plain hnew)]
  refine ⟨last, h₂, h', t', hputs.of_new hp hlt (findDirectory_of_new hts hnew), ?_, hchanged',
    hplain', fun out hout => hends out (hends' out hout)⟩
  exact fun _ => hlast (.inl (Option.some_ne_none p))

theorem Heap.Ready.child {h : Heap} {root p : Ptr} {src c : Linked} {d : DirInfo}
    {ts : List Linked} {parent : Option Ptr} (h' : h.Ready root src (.node (p, d) ts) parent)
    (hc : c ∈ ts) : h.Ready root src c (some p) := by
  obtain ⟨hhas, hsrc, hdisjoint, hroot, hnotroot, hlt⟩ := h'
  obtain ⟨hchas, hpc⟩ := hhas.child hc
  have hmem : ∀ q ∈ c.addrs, q ∈ (RoseTree.node (p, d) ts).addrs := by
    intro q hq
    rw [RoseTree.addrs_node]
    exact List.mem_cons_of_mem _ (List.mem_flatMap_of_mem hc hq)
  refine ⟨hchas, hsrc, fun q hq hqc => hdisjoint q hq (hmem q hqc), nofun, fun _ hq => ?_, hlt⟩
  by_cases hparent : parent = none
  · obtain rfl : p = root := hroot hparent
    exact hpc hq
  · exact hnotroot hparent (hmem root hq)

theorem Heap.Ready.withNew {h : Heap} {root p : Ptr} {src : Linked} {d : DirInfo}
    {ts : List Linked} {parent : Option Ptr} (h' : h.Ready root src (.node (p, d) ts) parent)
    (token : List UInt8) :
    (h.withNew root p token ⟨d, ts.map RoseTree.addr, parent⟩).Ready root src
      (.node (h.unused, .new token false) []) (some p) := by
  obtain ⟨hhas, ⟨srcParent, hsrc⟩, hdisjoint, -, -, hlt⟩ := h'
  have hpin : p ∈ (RoseTree.node (p, d) ts).addrs := RoseTree.addr_mem_addrs _
  have haddrs : (RoseTree.node (h.unused, DirInfo.new token false) []).addrs = [h.unused] := by
    rw [RoseTree.addrs_node, List.flatMap_nil]
  have hne : h.unused ≠ p := Nat.ne_of_gt (hhas.used p hpin)
  refine ⟨⟨?_, ?_, ?_⟩, ⟨srcParent, hsrc.congr ?_ (Nat.le_succ _)⟩, ?_, nofun, fun _ hq => ?_,
    Nat.lt_succ_of_lt hlt⟩
  · refine RoseTree.holds_node.mpr ⟨?_, nofun⟩
    rw [Heap.withNew, objects_write_of_ne _ _ hne]
    exact objects_write_self _ _ _
  · rw [haddrs]
    exact List.nodup_singleton _
  · rw [haddrs]
    exact List.forall_mem_singleton.mpr (Nat.lt_succ_self _)
  · intro q hq
    apply objects_withNew
    · rintro rfl
      exact hdisjoint _ hq hpin
    · exact Nat.ne_of_lt (hsrc.used q hq)
  · intro q hq
    rw [haddrs, List.mem_singleton]
    exact Nat.ne_of_lt (hsrc.used q hq)
  · rw [haddrs, List.mem_singleton] at hq
    exact absurd hq (Nat.ne_of_lt hlt)

/-- The objects are changed as the tree is. -/
theorem splicesAs {h : Heap} {root : Ptr} {src t : Linked} {parent : Option Ptr}
    (dirName : List UInt8) (tokens : List (List UInt8)) (hready : h.Ready root src t parent) :
    h.SplicesAs root src dirName tokens t parent := by
  induction tokens generalizing h t parent with
  | nil => exact splicesAs_nil dirName hready
  | cons token tokens ih =>
    cases t with
    | node a ts =>
      obtain ⟨p, d⟩ := a
      rcases exists_first (fun t : Linked => t.value.2.name = token) ts with
        hnew | ⟨A, c, B, rfl, hA, hc⟩
      · exact splicesAs_of_new hready hnew (ih (hready.withNew token))
      · apply splicesAs_of_found hready hA hc
        exact ih (hready.child (List.mem_append_right A List.mem_cons_self))

/-! ### The whole of `spliceTree` -/

theorem delete_mono {h h' : Heap} {p : Ptr} {m n : Nat} (hmn : m ≤ n)
    (hdelete : h.delete m p = some h') : h.delete n p = some h' := by
  rw [Heap.delete, Option.map_eq_some_iff] at hdelete ⊢
  obtain ⟨objects, hloop, heq⟩ := hdelete
  exact ⟨objects, loop_fuelMono freePass_fuelMono hmn hloop, heq⟩

theorem put_mono {h h' : Heap} {src dir : Ptr} {dirName : List UInt8} {m n : Nat} (hmn : m ≤ n)
    (hput : h.put m src dir dirName = some h') : h.put n src dir dirName = some h' := by
  rw [Heap.put, Option.bind_eq_bind, Option.bind_eq_some_iff] at hput ⊢
  obtain ⟨o, ho, hput⟩ := hput
  refine ⟨o, ho, ?_⟩
  cases hfind : h.findDirectory dirName o.children with
  | none =>
    rw [hfind] at hput
    exact hput
  | some dest =>
    rw [hfind] at hput
    dsimp only at hput ⊢
    rw [Option.bind_eq_bind, Option.bind_eq_some_iff] at hput ⊢
    obtain ⟨h₁, hdelete, hput⟩ := hput
    exact ⟨h₁, delete_mono hmn hdelete, hput⟩

/-- `spliceTree` makes of the objects what it makes of the tree. -/
theorem spliceTree_objects {h : Heap} {t s : Linked} {l tree : DirectoryListing}
    (ht : h.Has t none) (hs : h.Has s none) (hdisjoint : ∀ q ∈ s.addrs, q ∉ t.addrs)
    (hl : l.root = t.plain) (htree : tree.root = s.plain) :
    ∃ fuel h' t', h.spliceTree fuel t.addr s.addr tree.basePath = some (h', t'.addr) ∧
      h'.Has t' none ∧ t'.plain = (l.spliceTree tree).root := by
  rw [DirectoryListing.spliceTree, hl, htree]
  unfold Heap.spliceTree
  generalize takeDirName tree.basePath = path
  obtain ⟨path, dirName⟩ := path
  dsimp only
  generalize pathTokens [] path = tokens
  by_cases hwhole : tokens = [] ∧ dirName = []
  · obtain ⟨rfl, rfl⟩ := hwhole
    obtain ⟨fuel, h₁, hdelete, hunused, hframe⟩ := delete_eq ht
    have hs₁ : h₁.Has s none :=
      hs.congr (fun q hq => hframe q (hdisjoint q hq)) (Nat.le_of_eq hunused.symm)
    obtain ⟨children, ho⟩ := hs₁.holds.root
    refine ⟨fuel, h₁.write s.addr ⟨s.value.2, children, none⟩, s, ?_,
      hs₁.congr (fun q hq => ?_) (Nat.le_refl _), by rw [if_pos ⟨rfl, rfl⟩]⟩
    · show (if t.addr = t.addr ∧ ([] : List UInt8) = [] then _ else _) = _
      rw [if_pos ⟨rfl, rfl⟩, hdelete]
      show (h₁.objects s.addr >>= fun _ => _) = _
      rw [ho]
      rfl
    · by_cases hq : q = s.addr
      · rw [hq, objects_write_self, ho]
      · exact objects_write_of_ne _ _ hq
  · have hready : h.Ready t.addr s t none :=
      ⟨ht, ⟨none, hs⟩, hdisjoint, fun _ => rfl, fun h => absurd rfl h, ht.used _ t.addr_mem_addrs⟩
    obtain ⟨last, h₂, h', t', ⟨dir, rest, h₁, fuel, henter, hcreate, hput⟩, hlast, hchanged,
      hplain, hends⟩ := splicesAs dirName tokens hready
    have hdone : Ends (loop updatePass) (h', t.addr) h' := by
      obtain ⟨children, ho⟩ := hchanged.has.holds.root
      refine Ends.done ⟨0, ?_⟩
      show (h'.objects t.addr >>= fun _ => _) = _
      rw [← hchanged.addr, ho]
      rfl
    obtain ⟨fuel', hloop⟩ := hends h' (by split <;> first | exact hdone | rfl)
    have hnot : ¬ (last = t.addr ∧ dirName = []) := by
      rintro ⟨heq, rfl⟩
      exact hlast (.inr fun htokens => hwhole ⟨htokens, rfl⟩) heq
    refine ⟨max fuel fuel', h', t', ?_, hchanged.has, by rw [hplain, if_neg hwhole]; rfl⟩
    rw [henter]
    show (h.create t.addr rest dir >>= fun _ => _) = _
    rw [hcreate]
    show (if last = t.addr ∧ dirName = [] then _ else _) = _
    rw [if_neg hnot, put_mono (Nat.le_max_left fuel fuel') hput]
    show (loop updatePass _ (h₂, s.addr) >>= fun _ => _) = _
    rw [loop_fuelMono updatePass_fuelMono (Nat.le_max_right fuel fuel') hloop, hchanged.addr]
    rfl

/-- After `spliceTree` the listing is that before with the partial list at its base path, and every
directory is linked to the one it is in. -/
theorem spliceTree_spliced {h : Heap} {t s : Linked} {basePath : List UInt8}
    (ht : h.Has t none) (hs : h.Has s none) (hdisjoint : ∀ q ∈ s.addrs, q ∉ t.addrs)
    (hbase : ∀ c ∈ basePath.head?, c = '/'.toUInt8) :
    ∃ fuel h' t', h.spliceTree fuel t.addr s.addr basePath = some (h', t'.addr) ∧
      h'.Has t' none ∧
      Spliced ((pathTokens [] basePath).getLast?.elim s.plain fun name => rename name s.plain)
        (pathTokens [] basePath) t.plain t'.plain := by
  let l : DirectoryListing := { DirectoryListing.new with root := t.plain }
  let tree : DirectoryListing := { DirectoryListing.new with root := s.plain, basePath }
  have hl : l.root = t.plain := rfl
  have htree : tree.root = s.plain := rfl
  have hspliced : Spliced _ (pathTokens [] tree.basePath) l.root (l.spliceTree tree).root :=
    spliced_spliceTree hbase
  obtain ⟨fuel, h', t', hends, hhas, hplain⟩ := spliceTree_objects ht hs hdisjoint hl htree
  rw [← hplain] at hspliced
  exact ⟨fuel, h', t', hends, hhas, hspliced⟩

/-- A listing with the directory `a`, and an empty partial list. -/
def sampleHeap : Heap where
  objects p := [⟨.new [] true, [1], none⟩, ⟨.new (ascii "a") true, [], some 0⟩,
    ⟨.new [] true, [], none⟩][p]?
  unused := 3

def sampleListing : Linked := .node (0, .new [] true) [.node (1, .new (ascii "a") true) []]

def samplePartial : Linked := .node (2, .new [] true) []

theorem has_sampleListing : sampleHeap.Has sampleListing none where
  holds := by
    refine RoseTree.holds_node.mpr ⟨rfl, List.forall_mem_singleton.mpr ?_⟩
    exact RoseTree.holds_node.mpr ⟨rfl, nofun⟩
  nodup := by decide
  used := by decide

theorem has_samplePartial : sampleHeap.Has samplePartial none where
  holds := RoseTree.holds_node.mpr ⟨rfl, nofun⟩
  nodup := by decide
  used := by decide

/-- The directory `b` is made in `a`. -/
theorem spliceTree_spliced_sample :
    ∃ fuel h' t', sampleHeap.spliceTree fuel 0 2 (ascii "/a//b/") = some (h', t'.addr) ∧
      h'.Has t' none ∧
      Spliced ((pathTokens [] (ascii "/a//b/")).getLast?.elim samplePartial.plain
          fun name => rename name samplePartial.plain)
        (pathTokens [] (ascii "/a//b/")) sampleListing.plain t'.plain :=
  spliceTree_spliced has_sampleListing has_samplePartial (by decide) (by decide +kernel)

end Blacklink.Listing
