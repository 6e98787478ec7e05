import Lox.CallDepth
import Lox.Heap.Collect
import Lox.Settings.Basic
import Lox.Value

/-! # The machine

The state in which programs are evaluated and the primitive operations on it. What an evaluation
holds only for a while is on one of three stacks, so that it is a root of the heap: the
environments to return to, the values in use and the callees. Operations that push on a stack
are written around the computation that needs it and restore the stack however it ends.
-/
namespace Lox

structure Machine where
  heap : Heap Value
  globals : Ref
  current : Ref
  /-- The environments that have been the globals of a run, in order. -/
  worlds : List Ref
  /-- The environments to return to, innermost first. -/
  saved : List Ref := []
  /-- The values in use, newest first. -/
  temps : List Value := []
  /-- The callees of the active calls, innermost first. -/
  frames : List Value := []
  calls : CallDepth
  level : Level
  /-- How many evaluation steps are left. -/
  steps : Nat
  /-- The time that the next reading of the clock gives, in seconds. -/
  clock : Float
  output : String := ""
  /-- The messages logged, last one first. -/
  log : List String := []

/-- Why an evaluation ended without a result. -/
inductive Halt
  | error (e : RuntimeError)
  | fault (f : Fault)
  /-- There were no steps left. -/
  | cut
deriving DecidableEq, Repr

/-- An evaluation. The machine it leaves behind matters however it ends. -/
abbrev Exec := EStateM Halt Machine

def Failure.halt (pos : Pos) : Failure → Halt
  | fault f => .fault f
  | cause c => .error ⟨c,pos⟩

namespace Machine

/-- Everything the heap has to keep. -/
def roots (m : Machine) : List Ref :=
  m.globals :: m.current :: m.worlds ++ m.saved.reverse ++ m.frames.reverse.flatMap Holder.refs ++
    m.temps.reverse.flatMap Holder.refs

/-- Moves what the heap did to the log. -/
def logJournal (m : Machine) : Machine :=
  match m.heap.journal with
  | [] => m
  | events =>
    { m with heap := { m.heap with journal := [] }, log := events.map (·.message) ++ m.log }

/-- The end of a run, whatever its outcome: nothing is in use any more. -/
def settle (m : Machine) : Machine :=
  { m with current := m.globals, saved := [], temps := [], frames := [], calls := m.calls.reset }

end Machine

namespace Exec
variable {α : Type}

def halt (h : Halt) : Exec α := throw h

def raise (pos : Pos) (c : RuntimeError.Cause) : Exec α := throw (.error ⟨c,pos⟩)

def fault (f : Fault) : Exec α := throw (.fault f)

/-- Uses up a step. -/
def tick : Exec Unit := fun m =>
  match m.steps with
  | 0 => .error .cut m
  | steps + 1 => .ok () { m with steps }

/-- Changes the machine behind a computation, however it ended. -/
@[inline] def afterwards (x : Exec α) (f : Machine → Machine) : Exec α := fun m =>
  match x m with
  | .ok a m => .ok a (f m)
  | .error e m => .error e (f m)

/-- Logs a message if the chosen level includes its level. -/
def trace (level : Level) (message : Unit → String) : Exec Unit := fun m =>
  if m.level.logs level then .ok () { m with log := message () :: m.log } else .ok () m

def traceNode (name : String) : Exec Unit := trace .verbose fun _ => "eval_node: " ++ name

/-- An operation on the heap, whose runtime errors are at a position. -/
@[inline] def onHeap (pos : Pos) (x : HeapM Value α) : Exec α := fun m =>
  match x m.heap with
  | .ok a heap => .ok a { m with heap }
  | .error e heap => .error (e.halt pos) { m with heap }

def reading (pos : Pos) (f : Heap Value → Except Failure α) : Exec α := fun m =>
  match f m.heap with
  | .ok a => .ok a m
  | .error e => .error (e.halt pos) m

/-- Registers an object. A collection may run first, and its roots are those of this moment. -/
def registerObject (r : Ref) : Exec Nat := fun m =>
  let roots := if m.heap.due then m.roots else []
  match Heap.register r roots m.heap with
  | .ok slot heap => .ok slot (Machine.logJournal { m with heap })
  | .error e heap => .error (e.halt .start) (Machine.logJournal { m with heap })

/-- Creates and registers an object. -/
def allocate (o : Object Value) : Exec Ref := do
  let r ← onHeap .start (Heap.create o)
  let _ ← registerObject r
  return r

def newEnvironment (enclosing : Option Ref) : Exec Ref := allocate (.environment {} enclosing)

/-- Binds a name in an environment. -/
def define (r : Ref) (name : String) (x : Value) : Exec Unit :=
  onHeap .start (Heap.define r name x)

def currentEnvironment : Exec Ref := fun m => .ok m.current m

/-- Keeps a value in use, up to the end of the enclosing `releasing`. -/
def keep (x : Value) : Exec Unit := fun m => .ok () { m with temps := x :: m.temps }

/-- Ends the use of all values that a computation keeps. -/
@[inline] def releasing (x : Exec α) : Exec α := fun m =>
  let temps := m.temps
  afterwards x (fun m => { m with temps }) m

/-- Keeps a value in use during a computation. -/
@[inline] def keeping (v : Value) (x : Exec α) : Exec α := releasing do
  keep v
  x

/-- Runs a computation in an environment. -/
@[inline] def inEnvironment (r : Ref) (x : Exec α) : Exec α := fun m =>
  let current := m.current
  let saved := m.saved
  afterwards x (fun m => { m with current, saved })
    { m with current := r, saved := current :: saved }

/-- Enters a call, unless calls nest too deep. -/
def enterCall (pos : Pos) : Exec Unit := fun m =>
  match m.calls.enter with
  | (some _,calls) => .error (.error ⟨.tooDeep,pos⟩) { m with calls }
  | (none,calls) => .ok () { m with calls }

/-- Runs the body of a call that has been entered. -/
@[inline] def inCall (callee : Value) (x : Exec α) : Exec α := fun m =>
  let frames := m.frames
  afterwards x (fun m => { m with frames, calls := m.calls.exit })
    { m with frames := callee :: frames }

def print (text : String) : Exec Unit := fun m => .ok () { m with output := m.output ++ text }

/-- The clock moves on by a microsecond with every reading. -/
def readClock : Exec Value := fun m => .ok (.number m.clock) { m with clock := m.clock + 0.000001 }

end Exec
end Lox
