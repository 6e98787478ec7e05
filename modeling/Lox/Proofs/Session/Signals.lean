import Lox.Proofs.Eval.Consumption
import Mathlib

/-! # Signals stay where they belong

In every run of a program without static errors a jump ends in the innermost loop of its routine and a
return in the innermost call. Nothing is done on the way: each statement around the signal leaves the
machine as the signal left it, but for the environment that it goes back to. A signal is no value: only
statements answer with one, so it is never bound, stored, passed or kept as a root.
-/
namespace Lox
open Machine Exec

theorem Session.Runs.compiled {s : Session} {p : Program} {m : Machine} (runs : s.Runs p m) :
    ∃ source, (compile source).errors = [] ∧ p = (compile source).program := by
  cases runs with
  | run clean => exact ⟨_,clean,rfl⟩
  | runIn clean _ => exact ⟨_,clean,rfl⟩

theorem Machine.Begins.mem {n : Nat} {p : Program} {m j : Machine} {s : Stmt} (begins : Begins n p m s j) :
    s ∈ p := by
  induction begins with
  | first => exact List.mem_cons_self
  | later _ _ ih => exact List.mem_cons_of_mem _ ih

/-- A stage of a run is in progress below a statement of the program, in which no jump stands outside a
loop and no return outside a routine. -/
theorem Session.Runs.obeys {s : Session} {p : Program} {m : Machine} (runs : s.Runs p m)
    (reached : s.Reached) {steps : Nat} {stages : List Stage} {stage : Stage}
    (progress : m.Progress steps p stages stage) : ∃ t j, t.Obeys false false ∧ j.heap.Obeys ∧
      Stage.Active ⟨nesting steps,.execute t,j⟩ stages stage := by
  obtain ⟨source,clean,rfl⟩ := runs.compiled
  obtain ⟨readies,holds⟩ := lasting_obeys.runs reached runs
  obtain ⟨k,t,j,traced,begins,active⟩ := progress
  obtain ⟨log,e⟩ := trace_eq .normal (fun _ => s!"run: {(compile source).program.length} statements")
    { m with current := m.globals, steps }
  cases traced.symm.trans e
  obtain ⟨-,heap⟩ := kept_obeys.begins begins readies holds
  exact ⟨t,j,(obeys_of_compile clean).mem begins.mem,heap,active⟩

/-- Signals stay where they belong. A jump is consumed by the innermost loop around it within the same
call, and a return by the innermost call. On the way every statement ends with the signal and leaves
the machine as the signal left it, but for the environment: not a step is used, so nothing is evaluated
or executed, nothing is bound or stored and nothing is kept in use. A loop that is told to go on runs
its increment once and then starts its next round. No jump reaches a call, and no statement of the
program itself ends with a signal. -/
theorem signals_stay {s : Session} (reached : s.Reached) {p : Program} {m : Machine} (runs : s.Runs p m)
    {steps : Nat} {stages : List Stage} {stage : Stage} (progress : m.Progress steps p stages stage) :
    (∀ σ k, σ = .leave ∨ σ = .next → stage.Ends (some σ) k → Stage.EndsInLoop stages σ k) ∧
      (∀ x k, stage.Ends (some (.return x)) k → Stage.EndsInCall stages x k) ∧
      (∀ t outer, stages = t :: outer → t.task.RunsRoutine → ∀ σ k, stage.Ends (some σ) k →
        ∃ x, σ = .return x) ∧
      (stages = [] → ∀ a k, stage.Ends a k → a = none) := by
  obtain ⟨t,j,obeys,holds,active⟩ := runs.obeys reached progress
  have surrounded := active.obeys obeys trivial holds
  refine ⟨fun σ k jump ends => ?_,fun x k ends => ?_,fun t outer same call σ k ends => ?_,
    fun none a k ends => ?_⟩
  · exact active.jumps obeys trivial holds jump ends
  · exact active.returns obeys ends
  · subst same
    obtain ⟨n,u,m⟩ := t
    cases u with
    | invoke =>
      have admitted := ends.admitted surrounded
      cases σ with
      | «return» x => exact ⟨x,rfl⟩
      | _ => cases admitted
    | _ => exact call.elim
  · subst none
    cases a with
    | none => rfl
    | some σ =>
      have admitted := ends.admitted surrounded
      cases σ <;> cases admitted

/-! ## A loop that is left at once -/

theorem beginNode_eq (name : String) {m : Machine} {left : Nat} (h : m.steps = left + 1) :
    ∃ log, beginNode name m = .ok () { m with steps := left, log } := by
  obtain ⟨log,traced⟩ := trace_eq .verbose (fun _ => "eval_node: " ++ name) { m with steps := left }
  refine ⟨log,?_⟩
  rw [beginNode,tick_bind_of_eq_succ _ h]
  exact traced

theorem asks_of_begun {α : Type} {name : String} {x : Evaluator → Exec α} {E : Evaluator} {u : Task}
    {m k j : Machine} (begun : beginNode name m = .ok () k) (asks : Asks (fun E => x E k) E u j) :
    Asks (fun E => (do tick; traceNode name; x E) m) E u j := by
  obtain ⟨_,_,ticked,traced⟩ := bind_eq_ok.mp begun
  exact Asks.bind_right (.const _) ticked (Asks.bind_right (.const _) traced asks)

/-- A statement that leaves the loop whose body it is, on a machine with three steps left. -/
theorem leaves_at_once (n left : Nat) {m : Machine} (h : m.steps = left + 3) (p q r : Pos) :
    ∃ stages j k, Stage.Active ⟨n + 3,.execute (.loop p .plain (.literal (.bool true) q) (.jump r .leave) none),m⟩
        stages ⟨n + 1,.execute (.jump r .leave),j⟩ ∧
      Stage.Ends ⟨n + 1,.execute (.jump r .leave),j⟩ (some .leave) k := by
  obtain ⟨log,looped⟩ := beginNode_eq "WhileStatement" h
  obtain ⟨log',tested⟩ := beginNode_eq "Literal" (m := { m with steps := left + 2, log }) rfl
  obtain ⟨log'',jumped⟩ := beginNode_eq "BreakStatement" (m := { m with steps := left + 1, log := log' }) rfl
  have holds : evaluator (n + 1) (.evaluate (.literal (.bool true) q)) { m with steps := left + 2, log } =
      .ok (.bool true) { m with steps := left + 1, log := log' } := by
    rw [evaluator_succ]
    exact begun_eq_ok tested rfl
  refine ⟨_,{ m with steps := left + 1, log := log' },{ m with steps := left, log := log'' },
    .asked (.asked .itself (asks_of_begun looped (asks_give _ _ _))) ?_,?_⟩
  · exact Asks.bind_right (.give _) holds (Asks.bind_left (asks_give _ _ _))
  · show evaluator (n + 1) (.execute (.jump r .leave)) _ = _
    rw [evaluator_succ]
    exact begun_eq_ok jumped rfl

/-- A loop that is left at once. -/
def onceAround : String := "while (true) break;"

theorem signals_stay_onceAround : ∃ s, Session.start {} 0 = .ok s ∧ s.Reached ∧
    ∃ m, s.Runs (compile onceAround).program m ∧ ∃ stages stage k,
      m.Progress 9 (compile onceAround).program stages stage ∧ stage.Ends (some .leave) k ∧
        Stage.EndsInLoop stages .leave k := by
  have clean : (compile onceAround).errors = [] := by decide +kernel
  have program : (compile onceAround).program =
      [.loop ⟨1,1⟩ .plain (.literal (.bool true) ⟨1,8⟩) (.jump ⟨1,14⟩ .leave) none] := by cbv
  obtain ⟨s,start⟩ : ∃ s, Session.start {} 0 = .ok s := ⟨_,rfl⟩
  have reached : s.Reached := .start start
  have runs : s.Runs (compile onceAround).program (s.compileSource onceAround "").2.machine := .run clean
  obtain ⟨log,traced⟩ := trace_eq .normal (fun _ => s!"run: {(compile onceAround).program.length} statements")
    { (s.compileSource onceAround "").2.machine with
      current := (s.compileSource onceAround "").2.machine.globals, steps := 9 }
  obtain ⟨stages,j,k,active,ends⟩ := leaves_at_once 77 6 (m :=
    { (s.compileSource onceAround "").2.machine with
      current := (s.compileSource onceAround "").2.machine.globals, steps := 9, log }) rfl ⟨1,1⟩ ⟨1,8⟩ ⟨1,14⟩
  have progress : Machine.Progress 9 (compile onceAround).program (s.compileSource onceAround "").2.machine
      stages ⟨78,.execute (.jump ⟨1,14⟩ .leave),j⟩ :=
    ⟨_,_,_,traced,by rw [program]; exact .first,active⟩
  obtain ⟨jumps,-,-,-⟩ := signals_stay reached runs progress
  exact ⟨s,start,reached,_,runs,stages,_,k,progress,ends,jumps .leave k (.inl rfl) ends⟩

end Lox
