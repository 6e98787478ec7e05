/-! # Lines of a text

A text falls into lines at line feeds, carriage returns and the other line boundaries of Unicode.
A carriage return with a line feed after it is one boundary, and a boundary at the end of the
text opens no further line.
-/
namespace Lox.Text

def isLineEnd (c : Char) : Bool :=
  ['\n', '\r', '\x0b', '\x0c', '\x1c', '\x1d', '\x1e', '\u0085', '\u2028', '\u2029'].contains c

/-- The lines of a text whose first line already has the given characters, last one first. -/
def linesFrom (line : List Char) : List Char → List String
  | [] => if line.isEmpty then [] else [String.ofList line.reverse]
  | '\r' :: '\n' :: cs => String.ofList line.reverse :: linesFrom [] cs
  | c :: cs =>
    if isLineEnd c then String.ofList line.reverse :: linesFrom [] cs else linesFrom (c :: line) cs

def lines (s : String) : List String := linesFrom [] s.toList

theorem lines_empty : lines "" = [] := rfl

/-- Writes every line end that starts with a carriage return as a line feed. -/
def joinLineEnds : List Char → List Char
  | [] => []
  | '\r' :: '\n' :: cs => '\n' :: joinLineEnds cs
  | c :: cs => (if c = '\r' then '\n' else c) :: joinLineEnds cs

def withLineFeeds (s : String) : String := String.ofList (joinLineEnds s.toList)

theorem not_mem_joinLineEnds (cs : List Char) : '\r' ∉ joinLineEnds cs := by
  fun_induction joinLineEnds cs with
  | case1 => simp
  | case2 cs ih => simpa using ih
  | case3 c cs _ ih =>
    simp only [List.mem_cons, not_or]
    exact ⟨by split <;> simp_all [eq_comm],ih⟩

end Lox.Text
