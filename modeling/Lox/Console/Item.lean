import Lox.Ast.Outline
import Lox.Run

/-! # Items

What a console shows, item by item, on one of its two channels.
-/
namespace Lox.Console
open Text (Styled)

inductive Channel
  | out
  | err
deriving DecidableEq, Repr

structure Table where
  title : String
  columns : List String
  rows : List (List String)
deriving DecidableEq, Repr

/-- Time is measured anew with every run and is shown as a mark. -/
def Table.time : String := "*"

inductive Item
  | styled (text : Styled)
  /-- Text that is shown as it is. -/
  | report (text : String)
  | table (t : Table)
  | panel (title : Styled) (body : Outline)
  | prompt (text : Styled)

abbrev Shown := Channel × Item

/-- What a heap has done so far. -/
def heapTable (h : Heap Value) : Table where
  title := "Heap"
  columns := ["Metric","Value"]
  rows :=
    [["live",toString h.liveCount],["peak_live",toString h.peakLive],
      ["total_allocated",toString h.allocated],["total_freed",toString h.freed],
      ["collections",toString h.collections],["next_gc",toString h.nextThreshold]] ++
    h.kindCounts.map (fun (k,n) => [s!"live {k.noun}",toString n]) ++ [["gc_time",Table.time]]

def tokenTable (tokens : List Token) : Table where
  title := "Tokens"
  columns := ["Type","Lexeme","Line","Column"]
  rows := tokens.map fun t =>
    [t.kind.label,t.lexeme,toString t.pos.line,toString t.pos.column]

end Lox.Console
