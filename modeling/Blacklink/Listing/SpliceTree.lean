import Mathlib.Data.List.DropRight
import Blacklink.Listing.ListLoader
import Blacklink.Text.Split

/-!
# Merging a partial list

Model of `DirectoryListing::spliceTree` (`client/DirectoryListing.cpp:1118-1215`) without its
`SpliceTreeResult`. The directories on the path are entered, or made, one after the other, and
`updateInfo` goes through them on the way back.
-/

namespace Blacklink.Listing

open Blacklink.Base Blacklink.Text

/-- The tokens of a path that `getNextNonEmptyToken` gives, `token` being read. -/
def pathTokens : List UInt8 → List UInt8 → List (List UInt8)
  | token, [] => if token = [] then [] else [token]
  | token, c :: s =>
    if c = '/'.toUInt8 then
      if token = [] then pathTokens [] s else token :: pathTokens [] s
    else pathTokens (token ++ [c]) s

/-- The loop that takes the last name from a path, behind which there may be slashes: the path
before it, and the name. -/
def takeDirName (path : List UInt8) : List UInt8 × List UInt8 :=
  match splitLast '/'.toUInt8 (path.rdropWhile (· = '/'.toUInt8)) with
  | none => (path.rdropWhile (· = '/'.toUInt8), [])
  | some p => p

/-- The directory under another name. -/
def rename (name : List UInt8) : Directory → Directory
  | .node d dirs => .node { d with name } dirs

/-- The first directory with the name is replaced, or there is one more. -/
def putDir (src : Directory) (name : List UInt8) : List Directory → List Directory
  | [] => [src]
  | dir :: dirs => if dir.value.name = name then src :: dirs else dir :: putDir src name dirs

/-- What a function makes of the first directory with the name, or of a new one. The second part
is what the function gives. -/
def inDir (f : Directory → Directory × Bool) (name : List UInt8) : List Directory →
    List Directory × Bool
  | [] =>
    let r := f (.node (.new name false) [])
    ([r.1], r.2)
  | dir :: dirs =>
    if dir.value.name = name then
      let r := f dir
      (r.1 :: dirs, r.2)
    else
      let r := inDir f name dirs
      (dir :: r.1, r.2)

/-- The directory `src` is put under the name into the directory that the tokens lead to from
`dir`. The second part tells whether `updateInfo` goes on with the parent. -/
def spliceDir (src : Directory) (dirName : List UInt8) :
    Bool → List (List UInt8) → Directory → Directory × Bool
  | isRoot, [], .node d dirs =>
    let dirs := putDir (rename dirName src) dirName dirs
    let u := d.updateInfo isRoot dirs
    (.node u.1 dirs, u.2)
  | isRoot, token :: tokens, .node d dirs =>
    let isNew := dirs.all fun dir => dir.value.name ≠ token
    let d := if isRoot && isNew then { d with complete := false } else d
    let r := inDir (spliceDir src dirName false tokens) token dirs
    if r.2 then
      let u := d.updateInfo isRoot r.1
      (.node u.1 r.1, u.2)
    else (.node d r.1, false)

/-- `spliceTree` of a listing that was loaded for itself. -/
def DirectoryListing.spliceTree (l tree : DirectoryListing) : DirectoryListing :=
  let path := takeDirName tree.basePath
  let tokens := pathTokens [] path.1
  if tokens = [] ∧ path.2 = [] then { l with root := tree.root }
  else { l with root := (spliceDir tree.root path.2 true tokens l.root).1 }

end Blacklink.Listing
