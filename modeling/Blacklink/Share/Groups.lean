import Blacklink.Share.Search

/-!
# Share groups

Model of what changes the share groups (`client/ShareManager.cpp:313-356, 1075-1160, 3251-3268`).
What the code throws for changes nothing. The sizes of a group are left out.
-/

namespace Blacklink.Share

/-- `stricmp(a, b) == 0`. -/
def stricmpEq (a b : List UInt8) : Bool := a.length = b.length && strnicmpEq a b a.length

/-- Something that changes the share groups. `attr` are `attrComp` and `attrUncomp`, when these have
been read from a file, and `outId` is a number that was not used before. -/
inductive GroupOp (TTH : Type) where
  | load (name : List UInt8) (id : CID) (dirs : List (List UInt8))
      (attr : Option (FileAttr TTH × FileAttr TTH))
  | initDefault (attr : FileAttr TTH × FileAttr TTH)
  | add (name : List UInt8) (shareList : List (List UInt8)) (outId : CID)
  | remove (id : CID)
  | update (id : CID) (name : List UInt8) (shareList : List (List UInt8))

namespace ShareManager

variable {TTH : Type} [Inhabited TTH] (env : Env) (s : ShareManager TTH)

/-- `addShareGroupL`. -/
def addShareGroupL (name : List UInt8) (id : CID) (shareList : List (List UInt8))
    (attr : Option (FileAttr TTH × FileAttr TTH)) : ShareManager TTH :=
  if name = [] ∧ id ≠ .zero then s
  else if s.shareGroups.any fun sg => sg.id = id || stricmpEq name sg.name then s
  else
    let unknown : FileAttr TTH := ⟨default, -1⟩
    let attr := (attr.filter fun a => 0 ≤ a.1.size && 0 ≤ a.2.size).getD (unknown, unknown)
    { s with shareGroups := s.shareGroups ++ [⟨id, name, shareList, attr.1, attr.2, []⟩] }

/-- `loadShareList` for one group. -/
def loadShareGroup (name : List UInt8) (id : CID) (dirs : List (List UInt8))
    (attr : Option (FileAttr TTH × FileAttr TTH)) : ShareManager TTH :=
  let dirs := (dirs.map appendPathSeparator).filter fun dir => (s.getByRealL env dir).isSome
  addShareGroupL s name id dirs (if id = .zero then none else attr)

/-- `initDefaultShareGroupL`. -/
def initDefaultShareGroupL (attr : FileAttr TTH × FileAttr TTH) : ShareManager TTH :=
  if s.shareGroups.any fun sg => sg.id = .zero then
    { s with
      shareGroups := s.shareGroups.map fun sg =>
        if sg.id = .zero then { sg with attrComp := attr.1, attrUncomp := attr.2 } else sg }
  else
    { s with
      shareGroups := s.shareGroups ++
        [⟨.zero, [], s.shares.map ShareListItem.realPath, attr.1, attr.2, []⟩] }

/-- `addShareGroup`. -/
def addShareGroup (name : List UInt8) (shareList : List (List UInt8)) (outId : CID) :
    ShareManager TTH :=
  addShareGroupL s name outId shareList none

/-- `removeShareGroup`. -/
def removeShareGroup (id : CID) : ShareManager TTH :=
  if id = .zero then s else { s with shareGroups := s.shareGroups.filter fun sg => sg.id ≠ id }

/-- `updateShareGroup`. -/
def updateShareGroup (id : CID) (name : List UInt8) (shareList : List (List UInt8)) :
    ShareManager TTH :=
  match s.findGroup id with
  | none => s
  | some old =>
    if id ≠ .zero ∧ name ≠ old.name ∧
        (s.shareGroups.any fun sg => sg.id ≠ id && stricmpEq sg.name name) then s
    else
      let shares := shareList.filter fun path => (s.getByRealL env (env.lowerName path)).isSome
      { s with
        shareGroups := s.shareGroups.map fun sg =>
          if sg.id = id then { sg with name := name, shares := shares } else sg }

/-- What a change of the share groups does. -/
def performGroup : GroupOp TTH → ShareManager TTH
  | .load name id dirs attr => loadShareGroup env s name id dirs attr
  | .initDefault attr => initDefaultShareGroupL s attr
  | .add name shareList outId => addShareGroup s name shareList outId
  | .remove id => removeShareGroup s id
  | .update id name shareList => updateShareGroup env s id name shareList

/-- Nothing but the groups is changed. -/
theorem performGroup_eq (g : GroupOp TTH) :
    ∃ groups, performGroup env s g = { s with shareGroups := groups } := by
  have hadd : ∀ name id shareList attr,
      ∃ groups, addShareGroupL s name id shareList attr = { s with shareGroups := groups } := by
    intro name id shareList attr
    unfold addShareGroupL
    split
    · exact ⟨s.shareGroups, rfl⟩
    split
    · exact ⟨s.shareGroups, rfl⟩
    · exact ⟨_, rfl⟩
  cases g with
  | load name id dirs attr => exact hadd name id _ _
  | initDefault attr =>
    rw [performGroup]
    unfold initDefaultShareGroupL
    split
    · exact ⟨_, rfl⟩
    · exact ⟨_, rfl⟩
  | add name shareList outId => exact hadd name outId shareList none
  | remove id =>
    rw [performGroup]
    unfold removeShareGroup
    split
    · exact ⟨s.shareGroups, rfl⟩
    · exact ⟨_, rfl⟩
  | update id name shareList =>
    rw [performGroup]
    unfold updateShareGroup
    split
    · exact ⟨s.shareGroups, rfl⟩
    split
    · exact ⟨s.shareGroups, rfl⟩
    · exact ⟨_, rfl⟩

end ShareManager

end Blacklink.Share
