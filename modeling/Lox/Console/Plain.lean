import Lox.Console.Item

/-! # Plain layout

Items as lines of plain text: the columns of a table are as wide as their widest cell, and each
level of an outline is indented by two spaces.
-/
namespace Lox.Console

namespace Table

/-- The width that each column needs. -/
def widths (rows : List (List String)) : List Nat :=
  rows.foldl (fun ws row =>
    (List.range (max ws.length row.length)).map fun i =>
      max (ws.getD i 0) (row.getD i "").length) []

def padded (width : Nat) (cell : String) : String :=
  cell ++ String.ofList (List.replicate (width - cell.length) ' ')

def lines (t : Table) : List String :=
  let ws := widths (t.columns :: t.rows)
  t.title :: (t.columns :: t.rows).map fun row =>
    "  ".intercalate ((ws.zip row).map fun (w,cell) => padded w cell)

end Table

mutual

def outlineLines (depth : Nat) (o : Outline) : List String :=
  (String.ofList (List.replicate (2 * depth) ' ') ++ o.label.plain) :: match o with
  | .node _ _ entries | .list _ entries => entryLines (depth + 1) entries
  | .field _ _ | .item _ => []
termination_by structural o

def entryLines (depth : Nat) : List Outline → List String
  | [] => []
  | o :: rest => outlineLines depth o ++ entryLines depth rest
termination_by structural os => os

end

def Item.plain : Item → String
  | styled text => text.plain ++ "\n"
  | report text => text ++ "\n"
  | table t => String.join (t.lines.map (· ++ "\n"))
  | panel title body => String.join ((title.plain :: outlineLines 0 body).map (· ++ "\n"))
  | prompt text => text.plain

end Lox.Console
