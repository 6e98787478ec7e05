import Lox.Bindings

/-! # Paths

A path is followed from the working directory, part by part: a dot or nothing stays in a folder,
two dots leave it again, and a name goes on from it. Nothing above the working directory is known.
-/
namespace Lox.Console

/-- Where a path leads: the names passed on the way, last one first. -/
abbrev Location := List String

namespace Location

/-- Follows the parts of a path. Only a folder can be stayed in or left. -/
def follow (isFolder : Location → Bool) (here : Location) : List String → Option Location
  | [] => some here
  | part :: rest =>
    if part = "" || part = "." then
      if isFolder here then follow isFolder here rest else none
    else if part = ".." then
      match here with
      | [] => none
      | _ :: outer => if isFolder here then follow isFolder outer rest else none
    else follow isFolder (part :: here) rest

def ofPath? (isFolder : Location → Bool) (path : String) : Option Location :=
  if path.startsWith "/" then none else follow isFolder [] (path.splitOn "/")

/-- Whether some of these locations lie inside another one. -/
def holdsOne (files : List Location) (folder : Location) : Bool :=
  files.any fun file => folder.length < file.length && folder.isSuffixOf file

end Location

/-- What a path finds among files under relative paths of their own. The last of two files with
one location counts. -/
def findFile {α : Type} (files : Bindings α) (path : String) : Option α := do
  let located := files.entries.filterMap fun (name,x) =>
    (Location.ofPath? (fun _ => true) name).map (·,x)
  let isFolder (here : Location) := here.isEmpty || Location.holdsOne (located.map (·.1)) here
  let target ← Location.ofPath? isFolder path
  let (_,x) ← located.reverse.find? fun (location,_) => location = target
  return x

/-- No path holds the null character. -/
def isPath (path : String) : Bool := !path.toList.contains '\x00'

end Lox.Console
