import Lox.Bindings
import Lox.Diagnostic
import Lox.Text.Lines

/-! # Reports

A report names an error and, when its source is known, quotes the line with a caret under the
column. Sources are known by file name; a later text under a name replaces the earlier one.
-/
namespace Lox

/-- What is reported: a static error before a program runs, or a kind of error while it runs. -/
inductive Report.Heading
  | static (place : String)
  | runtime (kind : String)
deriving DecidableEq, Repr

structure Report where
  heading : Report.Heading
  message : String
  line : Option Int
  column : Option Int
  /-- The file that the error itself names. -/
  file : Option String := none
deriving DecidableEq, Repr

/-- The report of an error in a file, which scan errors name themselves. -/
def Diagnostic.report (d : Diagnostic) (file : String) : Report where
  heading := .static d.place.text
  message := d.message
  line := some d.pos.line
  column := some d.pos.column
  file := match d.cause with
    | .scan _ => some file
    | _ => none

/-- The lines of the sources seen so far. -/
structure Sources where
  lines : Bindings (List String) := {}

namespace Sources

def register (s : Sources) (file text : String) : Sources :=
  ⟨s.lines.set file (Text.lines text)⟩

def files (s : Sources) : List String := s.lines.names

def line? (s : Sources) (file : String) (line : Option Int) : Option String := do
  let lines ← s.lines.get? file
  let n ← line
  if n < 1 then none else lines[n.toNat - 1]?

end Sources

namespace Report

def standardFile : String := "<stdin>"

def lineText : Option Int → String
  | some n => toString n
  | none => "None"

def header (r : Report) : String :=
  match r.heading with
  | .runtime kind =>
    s!"{kind}: {r.message}" ++ match r.line with
      | some n => s!"\n[line {n}]"
      | none => ""
  | .static place => s!"[line {lineText r.line}] Error{place}: {r.message}"

/-- The space in front of a quoted line, with the line's number. -/
def gutter (line : Int) : String :=
  let number := toString line
  String.ofList (List.replicate (4 - number.length) ' ') ++ number ++ " | "

def caret (gutter : String) (column : Option Int) : String :=
  match column with
  | none | some 0 => ""
  | some c => "\n" ++ String.ofList (List.replicate (gutter.length + c - 1).toNat ' ') ++ "^"

/-- The file whose line is quoted: the one given, else the one that the error names. -/
def quotedFile (r : Report) (file : Option String) : String :=
  match file with
  | none | some "" => r.file.getD standardFile
  | some f => f

def text (r : Report) (sources : Sources) (file : Option String) : String :=
  match r.line, sources.line? (r.quotedFile file) r.line with
  | some n, some quoted =>
    s!"{r.header}\n{gutter n}{quoted}" ++ caret (gutter n) r.column
  | _, _ => r.header

end Report
end Lox
