import Lox.Proofs.Heap.Parallel
import Lox.Proofs.Session.Compilation
import Lox.Proofs.Session.Reached

/-! # Sessions are incremental

Running two sources one after the other is running the text of both, if the first one comes to its
end. Between runs nothing is in use, so that the second program finds the machine as the first one
left it in the middle of the joint run.
-/
namespace Lox
open Machine Exec Comparison Heap

theorem executeProgram_append (n : Nat) (p q : Program) (m : Machine) :
    executeProgram n (p ++ q) m = (do executeProgram n p; executeProgram n q) m := by
  induction p generalizing m with
  | nil => rfl
  | cons s p ih =>
    simp only [List.cons_append,executeProgram,Bind.bind,EStateM.bind] at ih ⊢
    cases execute n s m with
    | error _ _ => rfl
    | ok _ k => exact ih k

theorem BodyAlike.split {P : Pos → Pos → Prop} {p q r : List Stmt} (like : BodyAlike P (p ++ q) r) :
    ∃ p' q', r = p' ++ q' ∧ BodyAlike P p p' ∧ BodyAlike P q q' := by
  induction p generalizing r with
  | nil => exact ⟨[],r,rfl,.nil,like⟩
  | cons s p ih =>
    cases like with
    | cons first rest =>
      obtain ⟨p',q',rfl,left,right⟩ := ih rest
      exact ⟨_ :: p',q',rfl,.cons first left,right⟩

theorem concluded_eq_done {x : EStateM.Result Halt Machine Unit} {m : Machine}
    (h : concluded x = (.done,m)) : ∃ k, x = .ok () k ∧ k.settle = m := by
  rcases x with ⟨_,k⟩ | ⟨_ | _ | _,k⟩
  · exact ⟨k,rfl,(Prod.mk.inj h).2⟩
  all_goals cases (Prod.mk.inj h).1

theorem Heap.Parallel.refl {P : Pos → Pos → Prop} [Std.Refl P] (h : Heap Value) : Parallel P h h := by
  refine ⟨fun i => ?_,rfl⟩
  cases h.cells[i]? with
  | none => exact .none
  | some c => exact .some ⟨⟨.same _,rfl,rfl⟩,rfl⟩

section
variable {P : Pos → Pos → Prop} [Std.Refl P] {m k : Machine}

/-- Parallel heaps as a comparison for a relation that is known to be reflexive. -/
abbrev paralleling (P : Pos → Pos → Prop) [Std.Refl P] : Comparison := parallel P Std.Refl.refl

/-- A run behind another one that came to its end goes as the second half of a run of both. -/
theorem run_append (idle : m.Idle) {p q r : Program} (like : BodyAlike P (p ++ q) r) {steps : Nat}
    (done : m.run steps p = (.done,k)) (log log' : List String) :
    (paralleling P).Outcomes (run k.steps q { k with log }).1 (run steps r { m with log := log' }).1 ∧
      (paralleling P).Twins [] (run k.steps q { k with log }).2
        (run steps r { m with log := log' }).2 := by
  obtain ⟨p',q',rfl,left,right⟩ := like.split
  obtain ⟨log₁,first⟩ := run_eq_concluded steps p m
  obtain ⟨a,ended,rfl⟩ := concluded_eq_done (first.symm.trans done)
  have resumes := (leads_executeProgram _ p).ok ended
  have back : a.current = a.globals := resumes.current.trans resumes.globals.symm
  have unchanged : a.settle = a := by
    have idle : ({ m with current := m.globals, steps, log := log₁ } : Machine).Idle :=
      ⟨idle.saved,idle.temps,idle.frames,idle.depth⟩
    exact (idle.resumes resumes).settle_eq back
  rw [unchanged]
  obtain ⟨log₂,second⟩ := run_eq_concluded a.steps q { a with log }
  obtain ⟨log₃,joint⟩ := run_eq_concluded steps (p' ++ q') { m with log := log' }
  have here : { a with current := a.globals, steps := a.steps, log := log₂ } =
      { a with log := log₂ } := by rw [← back]
  have start : (paralleling P).Twins [] { m with current := m.globals, steps, log := log₁ }
      { m with current := m.globals, steps, log := log₃ } := ⟨m.heap,log₃,rfl,.refl m.heap⟩
  have enough : 8 * steps ≤ nesting steps := by simp only [nesting]; omega
  have half := ends_executeProgram left enough enough start
  have fewer : a.steps ≤ steps := resumes.steps
  dsimp only at second joint
  rw [second,here,joint,executeProgram_append]
  simp only [Bind.bind,EStateM.bind]
  rw [ended] at half
  generalize executeProgram (nesting steps) p' _ = y at half
  cases half with
  | spoiled lax _ => exact lax.elim
  | ok _ tw =>
    obtain ⟨heap,log₄,rfl,held⟩ := tw
    have tw : (paralleling P).Twins [] { a with log := log₂ } { a with heap, log := log₄ } :=
      ⟨heap,log₄,rfl,held⟩
    refine (concluded_ends (ends_executeProgram right ?_ ?_ tw)).resolve_right fun h => h.1.elim
    · simp only [nesting]
      omega
    · simp only [nesting]
      omega

end

/-! ## Sources -/

/-- Two endings are the same up to the position of a runtime error. -/
inductive Session.Ending.Alike (P : Pos → Pos → Prop) : Session.Ending → Session.Ending → Prop
  | done : Alike P (.result {}) (.result {})
  | error {c p q file} : P p q →
      Alike P (.result { runtimeError := some ⟨c,p⟩, errorFile := file })
        (.result { runtimeError := some ⟨c,q⟩, errorFile := file })
  | fault (f : Fault) : Alike P (.fault f) (.fault f)
  | cut : Alike P .cut .cut

theorem Comparison.Outcomes.alike {C : Comparison} {o p : Outcome} (h : C.Outcomes o p)
    (file : Option String) : Session.Ending.Alike C.pos (.ofOutcome file o) (.ofOutcome file p) := by
  cases h with
  | done => exact .done
  | error pos => exact .error pos
  | fault _ => exact .fault _
  | cut => exact .cut

theorem eq_done_of_ofOutcome {file : Option String} {o : Outcome}
    (h : Session.Ending.ofOutcome file o = .result {}) : o = .done := by
  cases o with
  | done => rfl
  | _ => cases h

/-- Two sources have ended in the same way and have left the same output, the same globals and the
same heap, up to the positions in routines. -/
structure Session.SameEnd (P : Pos → Pos → Prop) (x y : Session.Ending × Session) : Prop where
  ending : Session.Ending.Alike P x.1 y.1
  output : y.2.machine.output = x.2.machine.output
  globals : y.2.machine.globalTexts = x.2.machine.globalTexts
  heap : Parallel P x.2.machine.heap y.2.machine.heap
  rest : ∃ log, y.2.machine = { x.2.machine with heap := y.2.machine.heap, log }

/-- Two sources: a function that counts, and a use of it that fails inside the function. -/
def counter : String := "var n = 0; fun next(k) \x7b n = n + k; return n; \x7d print next(1);"
def misuse : String := "print next(2);\nnext(nil).more;"

/-- Whether a source comes to its end in a new session, as a test. -/
def comesToEnd (source : String) (steps : Nat) : Bool :=
  match Session.start {} 0 with
  | .ok s => (s.run source "a.lox" steps).1 = .result {}
  | .error _ => false

end Lox
