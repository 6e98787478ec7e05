import Lox.Proofs.Eval.Stages
import Lox.Proofs.Session.Reached

/-! # Balanced stacks

Every node leaves the stacks of the machine as it found them, however its evaluation ends. While a
program is run, the stacks hold what is in progress and nothing else.
-/
namespace Lox
open Machine Exec

/-- A node of a program. -/
def Task.IsNode : Task → Prop
  | .evaluate _ | .execute _ => True
  | _ => False

/-- Two machines have the same environment, the same ones to return to, the same values and callees in
use and the same depth of calls. -/
structure Machine.SameStacks (m k : Machine) : Prop where
  current : k.current = m.current
  saved : k.saved = m.saved
  temps : k.temps = m.temps
  frames : k.frames = m.frames
  depth : k.calls.depth = m.calls.depth

theorem Machine.Resumes.sameStacks {m k : Machine} (h : Resumes m k) : m.SameStacks k :=
  ⟨h.current,h.saved,h.temps_eq,h.frames,h.depth⟩

/-- A program that a session runs, with the machine on which it does: a source that compiles, in the
globals or in an environment of its own. -/
inductive Session.Runs (s : Session) : Program → Machine → Prop
  | run {source file} : (compile source).errors = [] →
      Runs s (compile source).program (s.compileSource source file).2.machine
  | runIn {env source file m} : (compile source).errors = [] →
      enterWorld env (s.compileSource source file).2.machine = .ok () m →
      Runs s (compile source).program m

/-! ## Machines that run programs -/

/-- A run resumes the machine, and settles it when it is over. -/
theorem Machine.resumes_run (steps : Nat) (p : Program) (m : Machine) :
    ∃ k log, Resumes { m with current := m.globals, steps } k ∧ (m.run steps p).2 = settle { k with log } := by
  have resumes : Resumes _ _ := Leads.bind (leads_trace .normal fun _ => s!"run: {p.length} statements")
    (fun _ => leads_executeProgram (nesting steps) p) { m with current := m.globals, steps }
  rw [Comparison.run_eq]
  generalize (do trace .normal _; executeProgram _ p : Exec Unit) _ = x at resumes
  rcases x with ⟨_,k⟩ | ⟨_ | _ | _,k⟩ <;> exact ⟨k,_,resumes,rfl⟩

theorem Machine.limit_run (steps : Nat) (p : Program) (m : Machine) :
    (m.run steps p).2.calls.limit = m.calls.limit := by
  obtain ⟨k,log,resumes,same⟩ := resumes_run steps p m
  rw [same]
  exact resumes.limit

theorem Machine.grows_run (steps : Nat) (p : Program) (m : Machine) :
    m.heap.Grows (m.run steps p).2.heap := by
  obtain ⟨k,log,resumes,same⟩ := resumes_run steps p m
  rw [same]
  exact resumes.heap

theorem Machine.limit_runIn (steps : Nat) (env : Ref) (p : Program) (m : Machine) :
    (m.runIn steps env p).2.calls.limit = m.calls.limit := by
  have entered : KeepsLimit m (stateAfter (enterWorld env m)) := leads_enterWorld env m
  exact after_runIn (P := KeepsLimit m) entered fun k entered => (limit_run steps p k).trans entered

theorem Machine.limit_start {settings : Settings} {clock : Float} {m : Machine}
    (h : Machine.start settings clock = .ok m) : m.calls.limit = settings.maxCallDepth := by
  have made : KeepsLimit _ (stateAfter (firstEnvironment (blank settings clock))) :=
    leads_firstEnvironment _
  rw [start_eq_ok h] at made
  exact made

namespace Session
variable {s : Session}

/-- The limit on nested calls never changes. -/
theorem Reached.limit (reached : s.Reached) : 0 ≤ s.machine.calls.limit := by
  induction reached with
  | start h =>
    rw [limit_start (machine_of_start h)]
    exact Int.natCast_nonneg _
  | @run s source file steps _ ih =>
    obtain ⟨m,log,rfl,-,e⟩ := s.run_eq source file steps
    rw [e]
    split
    · rwa [limit_run]
    · exact ih
  | @runIn s env source file steps _ ih =>
    obtain ⟨m,log,rfl,-,-,e⟩ := s.runIn_eq env source file steps
    rw [e]
    split
    · rwa [limit_runIn]
    · exact ih
  | newEnvironment _ ih | takeOutput _ ih | takeLog _ ih => exact ih
  | @collect s _ ih => exact le_of_le_of_eq ih (leads_collect s.machine).limit.symm

/-- A machine on which a session runs a program is idle. -/
theorem Runs.idle {p : Program} {m : Machine} (runs : s.Runs p m) (reached : s.Reached) :
    m.Idle ∧ m.calls.limit = s.machine.calls.limit := by
  have compiled : ∀ source file, (s.compileSource source file).2.machine.Idle ∧
      (s.compileSource source file).2.machine.calls.limit = s.machine.calls.limit := by
    intro source file
    obtain ⟨log,e⟩ := s.compileSource_machine source file
    rw [e]
    exact ⟨⟨reached.idle.saved,reached.idle.temps,reached.idle.frames,reached.idle.depth⟩,rfl⟩
  cases runs with
  | run => exact compiled _ _
  | @runIn env source file m _ entered =>
    obtain ⟨idle,limit⟩ := compiled source file
    have stays : StaysIdle _ (stateAfter _) := leads_enterWorld env (s.compileSource source file).2.machine
    have keeps : KeepsLimit _ (stateAfter _) := leads_enterWorld env (s.compileSource source file).2.machine
    rw [entered] at stays keeps
    exact ⟨stays idle,keeps.trans limit⟩

/-- When a node is reached in a run, the stacks hold what is in progress. -/
theorem Runs.stacks {p : Program} {m : Machine} (runs : s.Runs p m) (reached : s.Reached) {steps : Nat}
    {stages : List Stage} {stage : Stage} (progress : m.Progress steps p stages stage)
    (node : stage.task.IsNode) :
    stage.machine.frames = Stage.callees stages ∧
      stage.machine.calls.depth = stage.machine.frames.length ∧
      stage.machine.calls.depth ≤ stage.machine.calls.limit ∧
      stage.machine.calls.limit = s.machine.calls.limit ∧
      stage.machine.saved = Stage.lefts stages := by
  obtain ⟨idle,limit⟩ := runs.idle reached
  obtain ⟨t,j,resumes,active⟩ := progress.resumes
  obtain ⟨saved,frames,depth,kept,within⟩ := active.stacks rfl
  have outside : Stage.callees (stage :: stages) = Stage.callees stages := by
    obtain ⟨n,u,k⟩ := stage
    cases u with
    | evaluate | execute => rfl
    | _ => exact node.elim
  have idle : j.Idle := Idle.resumes (m := { m with current := m.globals, steps })
    ⟨idle.saved,idle.temps,idle.frames,idle.depth⟩ resumes
  have none : j.frames = [] := idle.frames
  have zero : j.calls.depth = 0 := idle.depth
  have same : j.calls.limit = s.machine.calls.limit := resumes.limit.trans limit
  rw [none,List.append_nil,outside] at frames
  rw [zero,Nat.add_zero,outside] at depth
  refine ⟨frames,by rw [depth,frames],within ?_,kept.trans same,?_⟩
  · show (j.calls.depth : Int) ≤ j.calls.limit
    rw [zero,same]
    exact reached.limit
  · have none : j.saved = [] := idle.saved
    rw [saved,none,List.append_nil]

end Session

/-- A method that calls itself inside a block. -/
def recursive : String :=
  "class A \x7b m(n) \x7b if (n) \x7b return this.m(nil); \x7d \x7d \x7d A().m(true);"

end Lox
