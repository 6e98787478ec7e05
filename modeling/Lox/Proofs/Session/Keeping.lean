import Lox.Proofs.Eval.Keeping
import Lox.Proofs.Session.Stacks

/-! # Invariants of sessions

An invariant of the heap that the sources of sessions keep holds in every session that can be reached,
and at every stage of every run.
-/
namespace Lox
open Machine Exec

/-- An invariant that a session has from its start. -/
structure Enduring (I : Heap Value → Prop) (ready : Task → Prop) : Prop extends
    Kept I ready fun t m => t.Founded m where
  empty (rules : Heap.Rules) : I { rules }
  native (f : Native) : Heap.Bindable I f.name

/-- An invariant that a session keeps from its start, for tasks of all sources that compile. -/
structure Lasting (I : Heap Value → Prop) (ready : Task → Prop) : Prop extends Enduring I ready where
  compiled {source : String} : (compile source).errors = [] →
    ∀ s ∈ (compile source).program, ready (.execute s)

section
variable {I : Heap Value → Prop} {ready : Task → Prop} (kept : Kept I ready fun t m => t.Founded m)
include kept

/-- Statements in order keep the invariant. -/
theorem Kept.executeProgram {n : Nat} {p : Program} {m : Machine} (readies : ∀ s ∈ p, ready (.execute s))
    (holds : I m.heap) : I (stateAfter (executeProgram n p m)).heap := by
  induction p generalizing m with
  | nil => exact holds
  | cons s p ih =>
    obtain ⟨first,others⟩ := List.forall_mem_cons.mp readies
    have after := kept.stays n first trivial holds
    simp only [Lox.executeProgram,Bind.bind,EStateM.bind]
    rw [show evaluator n (.execute s) = execute n s from rfl] at after
    cases e : execute n s m with
    | ok a k =>
      rw [e] at after
      exact ih others after
    | error t k =>
      rw [e] at after
      exact after

theorem Kept.begins {n : Nat} {p : Program} {m j : Machine} {s : Stmt} (begins : Begins n p m s j)
    (readies : ∀ s ∈ p, ready (.execute s)) (holds : I m.heap) : ready (.execute s) ∧ I j.heap := by
  induction begins with
  | first => exact ⟨readies _ List.mem_cons_self,holds⟩
  | @later _ t _ _ _ _ _ executed _ ih =>
    have after := kept.stays n (readies t List.mem_cons_self) trivial holds
    rw [show evaluator n (.execute t) _ = _ from executed] at after
    exact ih (fun s hs => readies s (List.mem_cons_of_mem _ hs)) after

theorem Kept.run {p : Program} {m : Machine} (readies : ∀ s ∈ p, ready (.execute s)) (holds : I m.heap)
    (steps : Nat) : I (m.run steps p).2.heap := by
  obtain ⟨log,traced⟩ := trace_eq .normal (fun _ => s!"run: {p.length} statements")
    { m with current := m.globals, steps }
  have after := kept.executeProgram (n := nesting steps) (m := { m with current := m.globals, steps, log })
    readies holds
  rw [Comparison.run_eq]
  simp only [Bind.bind,EStateM.bind,traced]
  cases e : Lox.executeProgram (nesting steps) p { m with current := m.globals, steps, log } with
  | ok _ k =>
    rw [e] at after
    exact after
  | error t k =>
    rw [e] at after
    cases t <;> exact after

/-- A stage of a run of a program whose statements are as asked for. -/
theorem Kept.progress {steps : Nat} {p : Program} {m : Machine} {stages : List Stage} {stage : Stage}
    (progress : m.Progress steps p stages stage) (readies : ∀ s ∈ p, ready (.execute s))
    (holds : I m.heap) : ready stage.task ∧ stage.task.Founded stage.machine ∧ I stage.machine.heap ∧
      ∀ s ∈ stages, ready s.task ∧ I s.machine.heap := by
  obtain ⟨k,s,j,traced,begins,active⟩ := progress
  obtain ⟨log,e⟩ := trace_eq .normal (fun _ => s!"run: {p.length} statements")
    { m with current := m.globals, steps }
  cases traced.symm.trans e
  obtain ⟨isReady,holds⟩ := kept.begins begins readies holds
  exact kept.active active isReady trivial holds

end

/-! ## Between runs -/

/-- What is done to a heap between runs of programs keeps an invariant. -/
structure Heap.Hostable (I : Heap Value → Prop) : Prop where
  stable : Heap.Stable I
  native : ∀ f ∈ Native.all, Heap.Bindable I f.name

namespace Heap.Hostable
variable {I J : Heap Value → Prop} (hostable : Heap.Hostable I) {m : Machine}
include hostable

theorem and (other : Heap.Hostable J) : Heap.Hostable fun h => I h ∧ J h where
  stable h k tidied holds := ⟨hostable.stable h k tidied holds.1,other.stable h k tidied holds.2⟩
  native f hf := Heap.Bindable.and (hostable.native f hf) (other.native f hf)

theorem installNatives {E : Evaluator} (env : Ref) {fs : List Native} (known : ∀ f ∈ fs, f ∈ Native.all) :
    Keeps I E fun _ => installNatives env fs := by
  have q := quiet_keeps I E
  induction fs with
  | nil => exact q.pure ()
  | cons f rest ih =>
    obtain ⟨first,others⟩ := List.forall_mem_cons.mp known
    refine (q.looking .start fun h => Heap.plain_environment h env).bind fun values => ?_
    dsimp only
    split
    · exact (keeps_define (hostable.native f first) env (.native f)).bind fun _ => ih others
    · exact ih others

theorem enterWorld (env : Ref) (holds : I m.heap) : I (stateAfter (enterWorld env m)).heap := by
  have q := quiet_keeps I (evaluator 0)
  simp only [Machine.enterWorld]
  split
  · exact holds
  · have rest : Keeps I (evaluator 0) fun _ => (do
        (fun m => .ok () (if m.worlds.contains env then m else { m with worlds := m.worlds ++ [env] }))
        Machine.installNatives env Native.all
        fun m => .ok () { m with globals := env } : Exec Unit) := by
      refine (keeps_of_heap_eq fun m => ?_).bind fun _ => (hostable.installNatives env fun _ => id).bind
        fun _ => keeps_of_heap_eq fun _ => rfl
      simp only [stateAfter]
      split <;> rfl
    refine Keeps.state ((q.looking .start fun h => Heap.plain_live h env).bind fun _ => ?_) holds
    split
    · exact (hostable.stable.registerObject env).bind fun _ => rest
    · exact rest

theorem collect (holds : I m.heap) : I (stateAfter (Machine.collect m)).heap := by
  rw [stateAfter_collect]
  exact hostable.stable.logJournal (hostable.stable _ _ (Heap.tidied_collect m.roots m.heap) holds)

/-- The first environment is a new object, and the natives are bound in it. -/
theorem start {settings : Settings} {clock : Float}
    (made : I (stateAfter (Heap.create (.environment {} none) (blank settings clock).heap)))
    (h : Machine.start settings clock = .ok m) : I m.heap := by
  have rest : Keeps I (evaluator 0) fun _ => (do
      let _ ← onHeap .start (Heap.register ⟨0⟩ [])
      fun m => .ok () { m.logJournal with globals := ⟨0⟩, current := ⟨0⟩, worlds := [⟨0⟩] }
      Machine.installNatives ⟨0⟩ Native.all : Exec Unit) := by
    refine (keeps_onHeap .start fun h => hostable.stable _ _ (Heap.tidied_register ⟨0⟩ [] h)).bind
      fun _ => (keeps_const fun m holds => ?_).bind fun _ => hostable.installNatives ⟨0⟩ fun _ => id
    exact hostable.stable.logJournal (m := m) holds
  have after : I (stateAfter (firstEnvironment (blank settings clock))).heap := rest.state
    (m := { (blank settings clock) with
      heap := stateAfter (Heap.create (.environment {} none) (blank settings clock).heap) }) made
  rwa [start_eq_ok h] at after

end Heap.Hostable

section
variable {I : Heap Value → Prop} {ready : Task → Prop} (enduring : Enduring I ready)
include enduring

theorem Enduring.hostable : Heap.Hostable I := ⟨enduring.tidied,fun f _ => enduring.native f⟩

theorem Enduring.start {settings : Settings} {clock : Float} {m : Machine}
    (h : Machine.start settings clock = .ok m) : I m.heap :=
  enduring.hostable.start (enduring.environment none (enduring.empty _)) h

theorem Enduring.runIn {p : Program} {m : Machine} (readies : ∀ s ∈ p, ready (.execute s))
    (holds : I m.heap) (steps : Nat) (env : Ref) : I (m.runIn steps env p).2.heap :=
  Machine.after_runIn (P := fun k => I k.heap) (enduring.hostable.enterWorld env holds)
    fun _ entered => enduring.run readies entered steps

end

section
variable {I : Heap Value → Prop} {ready : Task → Prop} (lasting : Lasting I ready)
include lasting

/-- The invariant holds in every session that can be reached. -/
theorem Lasting.reached {s : Session} (reached : s.Reached) : I s.machine.heap := by
  induction reached with
  | start h => exact lasting.start (Session.machine_of_start h)
  | @run s source file steps _ ih =>
    obtain ⟨m,log,same,-,e⟩ := s.run_eq source file steps
    have holds : I m.heap := same ▸ ih
    rw [e]
    split
    · next clean => exact lasting.run (lasting.compiled (List.isEmpty_iff.mp clean)) holds steps
    · exact holds
  | @runIn s env source file steps _ ih =>
    obtain ⟨m,log,same,-,-,e⟩ := s.runIn_eq env source file steps
    have holds : I m.heap := same ▸ ih
    rw [e]
    split
    · next clean => exact lasting.runIn (lasting.compiled (List.isEmpty_iff.mp clean)) holds steps env
    · exact holds
  | newEnvironment _ ih => exact lasting.environment none ih
  | takeOutput _ ih | takeLog _ ih => exact ih
  | collect _ ih => exact lasting.hostable.collect ih

/-- The invariant holds on a machine on which a session runs a program. -/
theorem Lasting.runs {s : Session} (reached : s.Reached) {p : Program} {m : Machine} (runs : s.Runs p m) :
    (∀ t ∈ p, ready (.execute t)) ∧ I m.heap := by
  have compiled : ∀ source file, I (s.compileSource source file).2.machine.heap := by
    intro source file
    obtain ⟨log,e⟩ := s.compileSource_machine source file
    rw [e]
    exact lasting.reached reached
  cases runs with
  | run clean => exact ⟨lasting.compiled clean,compiled _ _⟩
  | @runIn env source file m clean entered =>
    have after := lasting.hostable.enterWorld env (compiled source file)
    rw [entered] at after
    exact ⟨lasting.compiled clean,after⟩

/-- The invariant holds at every stage of every run. -/
theorem Lasting.progress {s : Session} (reached : s.Reached) {p : Program} {m : Machine}
    (runs : s.Runs p m) {steps : Nat} {stages : List Stage} {stage : Stage}
    (progress : m.Progress steps p stages stage) :
    ready stage.task ∧ stage.task.Founded stage.machine ∧ I stage.machine.heap ∧
      ∀ s ∈ stages, ready s.task ∧ I s.machine.heap := by
  obtain ⟨readies,holds⟩ := lasting.runs reached runs
  exact lasting.toKept.progress progress readies holds

end
end Lox
