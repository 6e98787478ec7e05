import Lox.Proofs.Session.Hosting
import Lox.Proofs.Session.Keeping
import Lox.Proofs.Session.Settings

/-! # Along all that hosts do

A relation of heaps that holds along runs, collections and all that is done between runs holds up to each
task that is performed. What is kept by sources of a kind therefore holds wherever a host runs such sources.
-/
namespace Lox
open Machine Exec

/-- A relation of heaps that holds along all that hosts do between and in their runs of sources of a kind. -/
structure Heap.Along (G : String → Prop) (R : Heap Value → Heap Value → Prop) : Prop where
  refl (h : Heap Value) : R h h
  trans {f g h : Heap Value} : R f g → R g h → R f h
  make (h : Heap Value) : R h (stateAfter (Heap.create (.environment {} none) h))
  enterWorld (env : Ref) (m : Machine) : R m.heap (stateAfter (Machine.enterWorld env m)).heap
  collect (m : Machine) : R m.heap (stateAfter (Machine.collect m)).heap
  run {source : String} (given : G source) (clean : (compile source).errors = []) (steps : Nat) (m : Machine) :
    R m.heap (m.run steps (compile source).program).2.heap

namespace Heap.Along
variable {G : String → Prop} {R : Heap Value → Heap Value → Prop} (along : Heap.Along G R)
include along

theorem runIn {source : String} (given : G source) (clean : (compile source).errors = []) (steps : Nat)
    (env : Ref) (m : Machine) : R m.heap (m.runIn steps env (compile source).program).2.heap :=
  Machine.after_runIn (P := fun k => R m.heap k.heap) (along.enterWorld env m)
    fun k entered => along.trans entered (along.run given clean steps k)

theorem act (h : Host) {d : Deed} (given : ∀ e ∈ d.entry?, G e.source) :
    R h.machine.heap (h.act d).2.machine.heap := by
  cases d with
  | make => exact along.make _
  | collect => exact along.collect _
  | run clock e =>
    obtain ⟨m,log,rfl,-,after⟩ := (h.timed clock).run_eq e.source e.file e.steps
    show R _ ((h.timed clock).run e.source e.file e.steps).2.machine.heap
    rw [after]
    split
    · next clean =>
      exact along.run (given e rfl) (List.isEmpty_iff.mp clean) e.steps { h.machine with clock, log }
    · exact along.refl _
  | runIn i clock e =>
    simp only [Host.act]
    cases h.made[i]? with
    | none => exact along.refl _
    | some env =>
      obtain ⟨m,log,rfl,-,-,after⟩ := (h.timed clock).runIn_eq env e.source e.file e.steps
      show R _ ((h.timed clock).runIn env e.source e.file e.steps).2.machine.heap
      rw [after]
      split
      · next clean =>
        exact along.runIn (given e rfl) (List.isEmpty_iff.mp clean) e.steps env { h.machine with clock, log }
      · exact along.refl _

/-- A machine on which a host runs a source. -/
theorem runs {h : Host} {d : Deed} (given : ∀ e ∈ d.entry?, G e.source) {steps : Nat} {p : Program} {m : Machine}
    (runs : h.Runs d steps p m) : ∃ source, G source ∧ (compile source).errors = [] ∧
      p = (compile source).program ∧ R h.machine.heap m.heap := by
  cases runs with
  | @run clock e clean =>
    obtain ⟨log,same⟩ := (h.timed clock).compileSource_machine e.source e.file
    exact ⟨_,given e rfl,clean,rfl,same ▸ along.refl _⟩
  | @runIn i clock e env _ found clean entered =>
    obtain ⟨log,same⟩ := (h.timed clock).compileSource_machine e.source e.file
    have enters := along.enterWorld env ((h.timed clock).compileSource e.source e.file).2.machine
    rw [entered,same] at enters
    exact ⟨_,given e rfl,clean,rfl,enters⟩

theorem performs {h : Host} {deeds : List Deed} (given : ∀ d ∈ deeds, ∀ e ∈ d.entry?, G e.source) {l : Nat}
    {u : Task} {k : Machine} (performs : h.Performs deeds l u k) : ∃ source steps m, G source ∧
      (compile source).errors = [] ∧ R h.machine.heap m.heap ∧
      Machine.Performs steps (compile source).program m l u k := by
  induction deeds generalizing h with
  | nil => exact performs.elim
  | cons d rest ih =>
    obtain ⟨first,others⟩ := List.forall_mem_cons.mp given
    rcases performs with ⟨steps,p,m,runs,performed⟩ | later
    · obtain ⟨source,here,clean,rfl,before⟩ := along.runs first runs
      exact ⟨source,steps,m,here,clean,before,performed⟩
    · obtain ⟨source,steps,m,here,clean,before,performed⟩ := ih others later
      exact ⟨source,steps,m,here,clean,along.trans (along.act h first) before,performed⟩

end Heap.Along

/-! ## What is performed and the stages of runs -/

theorem Arises.active {n l : Nat} {t u : Task} {m k : Machine} (arises : Arises n t m l u k) :
    ∃ stages, Stage.Active ⟨n,t,m⟩ stages ⟨l,u,k⟩ := by
  induction arises with
  | itself => exact ⟨_,.itself⟩
  | asked _ asks ih =>
    obtain ⟨stages,active⟩ := ih
    exact ⟨_,.asked active asks⟩

theorem Machine.Executes.begins {bound l : Nat} {p : Program} {m k : Machine} {u : Task}
    (executes : Machine.Executes bound p m l u k) : ∃ s j stages, Machine.Begins bound p m s j ∧
      Stage.Active ⟨bound,.execute s,j⟩ stages ⟨l,u,k⟩ := by
  induction p generalizing m with
  | nil => exact executes.elim
  | cons s rest ih =>
    rcases executes with arises | ⟨a,m',executed,later⟩
    · obtain ⟨stages,active⟩ := arises.active
      exact ⟨s,m,stages,.first,active⟩
    · obtain ⟨t,j,stages,begins,active⟩ := ih later
      exact ⟨t,j,stages,.later executed begins,active⟩

/-- What is performed is a stage of the run. -/
theorem Machine.Performs.progress {steps l : Nat} {p : Program} {m k : Machine} {u : Task}
    (performs : Machine.Performs steps p m l u k) : ∃ stages, m.Progress steps p stages ⟨l,u,k⟩ := by
  obtain ⟨m',traced,executes⟩ := performs
  obtain ⟨s,j,stages,begins,active⟩ := executes.begins
  exact ⟨stages,m',s,j,traced,begins,active⟩

theorem Stage.Active.arises {start stage : Stage} {stages : List Stage} (active : start.Active stages stage) :
    Arises start.bound start.task start.machine stage.bound stage.task stage.machine := by
  induction active with
  | itself => exact .itself
  | asked _ asks ih => exact .asked ih asks

theorem Machine.Begins.executes {bound l : Nat} {p : Program} {m j k : Machine} {s : Stmt} {u : Task}
    (begins : Machine.Begins bound p m s j) (arises : Arises bound (.execute s) j l u k) :
    Machine.Executes bound p m l u k := by
  induction begins with
  | first => exact .inl arises
  | later executed _ ih => exact .inr ⟨_,_,executed,ih arises⟩

/-- A stage of the run is performed. -/
theorem Machine.Progress.performs {steps : Nat} {p : Program} {m : Machine} {stages : List Stage} {stage : Stage}
    (progress : m.Progress steps p stages stage) :
    Machine.Performs steps p m stage.bound stage.task stage.machine := by
  obtain ⟨k,s,j,traced,begins,active⟩ := progress
  exact ⟨k,traced,begins.executes active.arises⟩

/-! ## Invariants and growth -/

section
variable {I : Heap Value → Prop} {ready : Task → Prop} (enduring : Enduring I ready) {G : String → Prop}
  (compiled : ∀ {source}, G source → (compile source).errors = [] →
    ∀ s ∈ (compile source).program, ready (.execute s))
include enduring compiled

theorem Enduring.along : Heap.Along G fun g h => I g → I h where
  refl _ := id
  trans first second := second ∘ first
  make _ := enduring.environment none
  enterWorld env _ := enduring.hostable.enterWorld env
  collect _ := enduring.hostable.collect
  run given clean steps _ holds := enduring.run (compiled given clean) holds steps

/-- What a host performs is of the kind that keeps the invariant, and the invariant holds. -/
theorem Enduring.performs {h : Host} {deeds : List Deed} (given : ∀ d ∈ deeds, ∀ e ∈ d.entry?, G e.source)
    {l : Nat} {u : Task} {k : Machine} (holds : I h.machine.heap) (performs : h.Performs deeds l u k) :
    ready u ∧ I k.heap := by
  obtain ⟨source,steps,m,here,clean,before,performed⟩ := (enduring.along compiled).performs given performs
  obtain ⟨stages,progress⟩ := performed.progress
  obtain ⟨isReady,-,holds,-⟩ := enduring.toKept.progress progress (compiled here clean) (before holds)
  exact ⟨isReady,holds⟩

end

theorem Lasting.performs {I : Heap Value → Prop} {ready : Task → Prop} (lasting : Lasting I ready) {h : Host}
    {deeds : List Deed} {l : Nat} {u : Task} {k : Machine} (holds : I h.machine.heap)
    (performs : h.Performs deeds l u k) : ready u ∧ I k.heap :=
  lasting.toEnduring.performs (G := fun _ => True) (fun _ => lasting.compiled) (fun _ _ _ _ => trivial) holds
    performs

theorem along_grows : Heap.Along (fun _ => True) Heap.Grows where
  refl := Heap.grows_refl
  trans first second := IsTrans.trans _ _ _ first second
  make := Heap.grows_create _
  enterWorld env m := @leads_enterWorld (fun m k : Machine => m.heap.Grows k.heap) inferInstance env m
  collect m := (leads_collect m).heap
  run _ _ steps m := Machine.grows_run steps _ m

theorem Host.Performs.grows {h : Host} {deeds : List Deed} {l : Nat} {u : Task} {k : Machine}
    (performs : h.Performs deeds l u k) : h.machine.heap.Grows k.heap := by
  obtain ⟨source,steps,m,-,-,before,performed⟩ :=
    along_grows.performs (fun _ _ _ _ => trivial) performs
  obtain ⟨stages,progress⟩ := performed.progress
  obtain ⟨s,j,resumes,active⟩ := progress.resumes
  exact IsTrans.trans _ _ _ (IsTrans.trans _ _ _ before resumes.heap) active.grows

end Lox
