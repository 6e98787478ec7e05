import Lox.Ast.Parser
import Lox.Run
import Lox.Scope.Rules

/-! # Sessions

A session runs sources one after another on one machine, so that later sources see the globals and
objects of earlier ones. A source with static errors is not run. The texts of the sources are
kept for reports.
-/
namespace Lox

structure Compiled where
  program : Program
  errors : List Diagnostic
  /-- How many statements were parsed, and with how many errors. -/
  parsed : Nat × Nat

/-- A program with all depths in place, or the errors that keep it from running. -/
def compile (source : String) : Compiled :=
  let parsed := parse source
  let counts := (parsed.program.length,parsed.errors.length)
  if parsed.errors.isEmpty then
    ⟨parsed.program.resolve,parsed.program.scopeErrors,counts⟩
  else ⟨parsed.program,parsed.errors,counts⟩

/-- What a source came to. -/
structure RunResult where
  staticErrors : List Diagnostic := []
  runtimeError : Option RuntimeError := none
  /-- The file that the runtime error names. -/
  errorFile : Option String := none
deriving DecidableEq, Repr

namespace RunResult

def ok (r : RunResult) : Bool := r.staticErrors.isEmpty && r.runtimeError.isNone

def messages (r : RunResult) : List String :=
  r.staticErrors.map (·.message) ++ (r.runtimeError.map (·.message)).toList

def exitStatic : Nat := 65
def exitRuntime : Nat := 70

def exitCode (r : RunResult) : Nat :=
  if !r.staticErrors.isEmpty then exitStatic
  else if r.runtimeError.isSome then exitRuntime
  else 0

def reports (r : RunResult) (file : String) : List Report :=
  r.staticErrors.map (·.report file) ++ (r.runtimeError.map (·.report r.errorFile)).toList

def description (r : RunResult) : String :=
  let runtime := match r.runtimeError with
    | some e => e.description
    | none => "None"
  s!"RunResult(static={r.staticErrors.length}, runtime={runtime})"

end RunResult

structure Session where
  machine : Machine
  sources : Sources := {}

namespace Session

/-- The outcome of a source: a result, or none because of a fault or for want of steps. -/
inductive Ending
  | result (r : RunResult)
  | fault (f : Fault)
  | cut
deriving DecidableEq, Repr

/-- The ending of a run whose errors name the given file, or none. -/
def Ending.ofOutcome (file : Option String) : Outcome → Ending
  | .done => .result {}
  | .error e => .result { runtimeError := some e, errorFile := file }
  | .fault f => .fault f
  | .cut => .cut

def start (s : Settings) (clock : Float) : Except Machine.StartError Session := do
  let machine ← Machine.start s clock
  return { machine }

def logMessage (s : Session) (text : String) : Session :=
  { s with machine := s.machine.logMessage text }

/-- Registers and compiles a source. -/
def compileSource (s : Session) (source file : String) : Compiled × Session :=
  let compiled := compile source
  let s := { s with sources := s.sources.register file source }
  let (statements,errors) := compiled.parsed
  if s.machine.level.logs .verbose then
    (compiled,s.logMessage s!"parsed {statements} statements, {errors} errors")
  else (compiled,s)

def runMachine (s : Session) (file : Option String) (f : Machine → Outcome × Machine) :
    Ending × Session :=
  let (outcome,machine) := f s.machine
  (.ofOutcome file outcome,{ s with machine })

/-- Runs a source in the globals for at most so many steps. -/
def run (s : Session) (source file : String) (steps : Nat := Machine.plenty) : Ending × Session :=
  let (compiled,s) := s.compileSource source file
  if compiled.errors.isEmpty then s.runMachine (some file) (·.run steps compiled.program)
  else
    let s := s.logMessage s!"{file}: {compiled.errors.length} static errors"
    (.result { staticErrors := compiled.errors },s)

/-- Runs a source in an environment of its own. Its runtime error names no file. -/
def runIn (s : Session) (env : Ref) (source file : String) (steps : Nat := Machine.plenty) :
    Ending × Session :=
  let (compiled,s) := s.compileSource source file
  if compiled.errors.isEmpty then s.runMachine none (·.runIn steps env compiled.program)
  else (.result { staticErrors := compiled.errors },s)

/-- A new environment that the heap does not own yet. -/
def newEnvironment (s : Session) : Ref × Session :=
  match Heap.create (.environment {} none) s.machine.heap with
  | .ok r heap => (r,{ s with machine := { s.machine with heap } })
  | .error _ heap => (⟨0⟩,{ s with machine := { s.machine with heap } })

/-- Takes what was printed since the last time. -/
def takeOutput (s : Session) : String × Session :=
  (s.machine.output,{ s with machine := { s.machine with output := "" } })

/-- Takes the messages logged since the last time, in order. -/
def takeLog (s : Session) : List String × Session :=
  (s.machine.log.reverse,{ s with machine := { s.machine with log := [] } })

end Session
end Lox
