import Lox.Eval

/-! # Runs

A machine runs one program after another. Each run starts with the globals as its environment and
leaves nothing in use, however it ends. A run may take another environment for its globals; that
environment then stays alive with the machine.
-/
namespace Lox

inductive Outcome
  | done
  | error (e : RuntimeError)
  | fault (f : Fault)
  /-- The run was cut short after its last step. -/
  | cut
deriving DecidableEq, Repr

namespace Machine

/-- More steps than any run takes. -/
def plenty : Nat := 100000000000000000

/-- A bound on nested calls that is not met in so many steps. -/
def nesting (steps : Nat) : Nat := 8 * steps + 8

/-- Call depths beyond this are refused. -/
def greatestCallDepth : Nat := 42949652

/-- Binds the natives in an environment that does not bind their names. -/
def installNatives (env : Ref) : List Native → Exec Unit
  | [] => return ()
  | f :: rest => do
    let (values,_) ← Exec.reading .start (·.environment env)
    if !values.contains f.name then Exec.define env f.name (.native f)
    installNatives env rest

/-- A machine before it has globals. -/
def blank (s : Settings) (clock : Float) : Machine where
  heap := { rules := ⟨s.threshold,s.growth,s.stress,true,s.stress⟩ }
  globals := ⟨0⟩
  current := ⟨0⟩
  worlds := []
  calls := { limit := s.maxCallDepth }
  level := s.debugLevel
  steps := plenty
  clock

/-- Makes the first environment, which nothing else keeps yet. -/
def firstEnvironment : Exec Unit := do
  let r ← Exec.onHeap .start (Heap.create (.environment {} none))
  let _ ← Exec.onHeap .start (Heap.register r [])
  fun m => .ok () { m.logJournal with globals := r, current := r, worlds := [r] }
  installNatives r Native.all

/-- Why a machine does not start, with the messages logged until then, in order. -/
structure StartError where
  fault : Fault
  log : List String := []
deriving DecidableEq, Repr

/-- A machine with its globals. -/
def start (s : Settings) (clock : Float) : Except StartError Machine :=
  match firstEnvironment (blank s clock) with
  | .ok _ m =>
    if greatestCallDepth < s.maxCallDepth then .error ⟨.callDepth,m.log.reverse⟩ else .ok m
  | .error (.fault f) m => .error ⟨f,m.log.reverse⟩
  | .error _ m => .error ⟨.noObject,m.log.reverse⟩

/-- Takes an environment for the globals and keeps it alive from now on. -/
def enterWorld (env : Ref) : Exec Unit := fun m =>
  if env = m.globals then .ok () m
  else
    (do
      let _ ← Exec.reading .start (·.live env)
      if !m.heap.isRegistered env then
        let _ ← Exec.registerObject env
      fun m =>
        .ok () (if m.worlds.contains env then m else { m with worlds := m.worlds ++ [env] })
      installNatives env Native.all
      fun m => .ok () { m with globals := env } : Exec Unit) m

def logMessage (m : Machine) (text : String) : Machine := { m with log := text :: m.log }

/-- Runs a program in the globals for at most so many steps. -/
def run (steps : Nat) (p : Program) (m : Machine) : Outcome × Machine :=
  let body : Exec Unit := do
    Exec.trace .normal fun _ => s!"run: {p.length} statements"
    executeProgram (nesting steps) p
  match body { m with current := m.globals, steps } with
  | .ok _ m => (.done,m.settle)
  | .error (.error e) m =>
    (.error e,(m.logMessage s!"execution aborted: {e.kind.label}: {e.message}").settle)
  | .error (.fault f) m => (.fault f,m.settle)
  | .error .cut m => (.cut,m.settle)

/-- Runs a program in an environment of its own. -/
def runIn (steps : Nat) (env : Ref) (p : Program) (m : Machine) : Outcome × Machine :=
  match enterWorld env m with
  | .ok _ m => m.run steps p
  | .error (.error e) m => (.error e,m)
  | .error (.fault f) m => (.fault f,m)
  | .error .cut m => (.cut,m)

/-- Runs a collection with the roots of this moment. -/
def collect : Exec Nat := fun m =>
  let roots := m.roots
  match Heap.collect roots m.heap with
  | .ok freed heap => .ok freed (logJournal { m with heap })
  | .error e heap => .error (e.halt .start) (logJournal { m with heap })

/-- The names and texts of the globals, in the order of their definition. -/
def globalTexts (m : Machine) : Except Failure (List (String × String)) := do
  let values := match m.heap.object? m.globals with
    | some (.environment values _) => values.entries
    | _ => []
  values.mapM fun (name,x) => return (name,← x.inspect m.heap)

/-- An object as the heap lists it: its slot, its kind, its text and the slots it refers to. -/
structure Listed where
  slot : Option Nat
  kind : ObjectKind
  text : String
  references : List (Option Nat)

def listed (h : Heap Value) (r : Ref) : Except Failure Listed := do
  let text ← match h.kindOf r with
    | .environment => h.environmentText r
    | _ => h.inspect r
  return ⟨h.slotOf r,h.kindOf r,text,(h.referencesOf r).map h.slotOf⟩

def listing (m : Machine) : Except Failure (List Listed) :=
  m.heap.registered.toList.mapM (listed m.heap)

end Machine
end Lox
