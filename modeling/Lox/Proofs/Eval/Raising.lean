import Lox.Proofs.Ast.Built
import Lox.Proofs.Eval.Blame
import Lox.Proofs.Session.Keeping

/-! # Where runtime errors are raised

A node raises an error at the token that it has for its operator, its name or its closing parenthesis. Each
error of an evaluation is raised by one node, the innermost that fails, and all that surrounds it fails with
the same error.
-/
namespace Lox
open Machine Exec

/-! ## Responsible tokens -/

/-- A token is the one that answers for an error that a node raises: it is the operator, the identifier, the
name of the property or of the method, the closing parenthesis of the call or the name of the superclass. -/
inductive Token.Responsible (token : Token) : Task → RuntimeError → Prop
  | operand {right} : token.kind = .minus →
      Responsible token (.evaluate (.unary .minus token.pos right)) ⟨.operandNotNumber,token.pos⟩
  | summands {left right} : token.kind = .plus →
      Responsible token (.evaluate (.binary left .plus token.pos right)) ⟨.operandsNotAddable,token.pos⟩
  | operands {left op right} : op ≠ .plus → token.kind = op.kind →
      Responsible token (.evaluate (.binary left op token.pos right)) ⟨.operandsNotNumbers,token.pos⟩
  | divisor {left right} : token.kind = .slash →
      Responsible token (.evaluate (.binary left .divide token.pos right)) ⟨.divisionByZero,token.pos⟩
  | variable {depth} : token.kind = .identifier →
      Responsible token (.evaluate (.var ⟨⟨token.lexeme,token.pos⟩,depth⟩))
        ⟨.undefinedVariable token.lexeme,token.pos⟩
  | target {depth value} : token.kind = .identifier →
      Responsible token (.evaluate (.assign ⟨⟨token.lexeme,token.pos⟩,depth⟩ value))
        ⟨.undefinedVariable token.lexeme,token.pos⟩
  | property {object} : token.kind = .identifier →
      Responsible token (.evaluate (.get object ⟨token.lexeme,token.pos⟩))
        ⟨.undefinedProperty token.lexeme,token.pos⟩
  | method {pos depth} : token.kind = .identifier →
      Responsible token (.evaluate (.super pos ⟨token.lexeme,token.pos⟩ depth))
        ⟨.undefinedProperty token.lexeme,token.pos⟩
  | properties {object} : token.kind = .identifier →
      Responsible token (.evaluate (.get object ⟨token.lexeme,token.pos⟩)) ⟨.noProperties,token.pos⟩
  | fields {object value} : token.kind = .identifier →
      Responsible token (.evaluate (.set object ⟨token.lexeme,token.pos⟩ value)) ⟨.noFields,token.pos⟩
  | callee {callee args} : token.kind = .rightParen →
      Responsible token (.evaluate (.call callee token.pos args)) ⟨.notCallable,token.pos⟩
  | arity {callee args n k} : token.kind = .rightParen →
      Responsible token (.evaluate (.call callee token.pos args)) ⟨.wrongArity n k,token.pos⟩
  | depth {callee args} : token.kind = .rightParen →
      Responsible token (.evaluate (.call callee token.pos args)) ⟨.tooDeep,token.pos⟩
  | superclass {name depth methods} : token.kind = .identifier →
      Responsible token (.execute (.klass name (some ⟨⟨token.lexeme,token.pos⟩,depth⟩) methods))
        ⟨.superclassNotClass,token.pos⟩

theorem Token.Responsible.pos {token : Token} {t : Task} {e : RuntimeError} (h : token.Responsible t e) :
    e.pos = token.pos := by
  cases h <;> rfl

/-! ## Tasks that are built of tokens -/

section
variable (T : Token → Prop)

/-- What a task takes from tokens is there. Functions bring their own. -/
def Task.Built : Task → Prop
  | .evaluate e => e.Built T
  | .evaluateAll es => ArgumentsBuilt T es
  | .invoke r _ _ => r.Built T
  | .execute s => s.Built T
  | .executeAll ss => BodyBuilt T ss
  | .loop e s i => e.Built T ∧ s.Built T ∧ ∀ d ∈ i, d.Built T
  | .declareClass _ _ rs => MethodsBuilt T rs
  | .call _ _ | .callFunction _ _ | .callBound _ _ _ | .instantiate _ _ => True

end

section
variable {T : Token → Prop}

theorem Name.Built.exists_token {name : Name} (built : name.Built T) :
    ∃ token, T token ∧ token.kind = .identifier ∧ name = ⟨token.lexeme,token.pos⟩ := by
  obtain ⟨token,there,kind,text,pos⟩ := built
  obtain ⟨_,_⟩ := name
  cases text
  cases pos
  exact ⟨token,there,kind,rfl⟩

/-- The errors of a node other than `super` stand at the token that answers for them. -/
theorem Expr.Built.raisesIn {e : Expr} (built : e.Built T)
    (other : ∀ pos method depth, e ≠ .super pos method depth) :
    e.RaisesIn fun f => ∃ token, T token ∧ token.Responsible (.evaluate e) f := by
  cases e with
  | var r =>
    obtain ⟨name,depth⟩ := r
    obtain ⟨token,there,kind,rfl⟩ := Name.Built.exists_token built
    exact ⟨token,there,.variable kind⟩
  | assign r value =>
    obtain ⟨name,depth⟩ := r
    obtain ⟨token,there,kind,rfl⟩ := built.1.exists_token
    exact ⟨token,there,.target kind⟩
  | unary op pos right =>
    obtain ⟨⟨token,there,kind,rfl⟩,-⟩ := built
    rintro rfl
    exact ⟨token,there,.operand kind⟩
  | binary left op pos right =>
    obtain ⟨⟨token,there,kind,rfl⟩,-⟩ := built
    refine ⟨?_,fun differs => ⟨token,there,.operands differs kind⟩,?_⟩
    · rintro rfl
      exact ⟨token,there,.summands kind⟩
    · rintro rfl
      exact ⟨token,there,.divisor kind⟩
  | call callee paren args =>
    obtain ⟨⟨token,there,kind,rfl⟩,-⟩ := built
    exact ⟨⟨token,there,.callee kind⟩,fun n k => ⟨token,there,.arity kind⟩,⟨token,there,.depth kind⟩⟩
  | get object name =>
    obtain ⟨token,there,kind,rfl⟩ := built.1.exists_token
    exact ⟨⟨token,there,.properties kind⟩,⟨token,there,.property kind⟩⟩
  | set object name value =>
    obtain ⟨token,there,kind,rfl⟩ := built.1.exists_token
    exact ⟨token,there,.fields kind⟩
  | super pos method depth => exact absurd rfl (other pos method depth)
  | literal | grouping | logical | this => trivial

theorem Task.Built.raisesIn {t : Task} (built : t.Built T)
    (other : ∀ pos method depth, t ≠ .evaluate (.super pos method depth)) :
    t.RaisesIn fun e => ∃ token, T token ∧ token.Responsible t e := by
  unfold Task.RaisesIn
  split
  · exact Expr.Built.raisesIn built fun pos method depth same => other pos method depth (same ▸ rfl)
  · next r _ =>
    obtain ⟨name,depth⟩ := r
    obtain ⟨token,there,kind,rfl⟩ := (built.2.1 _ rfl).exists_token
    exact ⟨token,there,.superclass kind⟩
  · trivial

/-- The tasks that a task asks for are built of its tokens, or of those of a routine on the heap. -/
theorem Task.Gives.built {E : Evaluator} {t u : Task} {m j : Machine} (gives : t.Gives E m u j)
    (holds : m.heap.Routines (Routine.Built T)) (built : t.Built T) : u.Built T := by
  cases gives with
  | plain found | method found => exact holds _ _ (Heap.function_eq_ok found) _ _ rfl
  | content => exact Routine.Built.body built
  | rounds => exact ⟨built.1,built.2.1,built.2.2.2⟩
  | @condition _ _ _ _ _ no => cases no <;> exact built.1
  | @yes _ _ _ _ _ no => cases no <;> exact built.2.1
  | no => exact built.2.2.2.1
  | inner | expression | printed | block | again | incremented => exact built
  | first | argument | statement | test => exact built.1
  | assigned | operand | second | object | furtherArguments | furtherStatements => exact built.2
  | left | callee | target | body => exact built.2.1
  | right | arguments | value | declared | derived => exact built.2.2
  | superclass => exact built.2.1 _ rfl
  | initial | returned => exact built.2 _ rfl
  | increment => exact built.2.2 _ rfl
  | entered | bound | klass | function | initializer => trivial

/-- Evaluation puts routines on the heap that are built of the tokens of the tasks. -/
theorem enduring_built (T : Token → Prop) : Enduring (Heap.Routines (Routine.Built T)) (Task.Built T) where
  toStays := stays_routines id fun built hr => built.mem hr
  gives gives holds built := gives.built holds built
  asked _ _ _ asks := (gives_of_asks asks).founded
  empty := Heap.every_empty
  native f := bindable_routines _ f.name

end

/-! ## The innermost stage that fails -/

/-- A stage ends in a runtime error. -/
def Stage.Fails (s : Stage) (e : RuntimeError) : Prop :=
  ∃ k, evaluator s.bound s.task s.machine = .error (.error e) k

/-- A stage raises a runtime error by itself: all that it asks for comes to an end with a result. -/
structure Stage.Raises (s : Stage) (e : RuntimeError) : Prop where
  fails : s.Fails e
  answered {n u j} : s.bound = n + 1 → Asks (fun E => s.task.perform E s.machine) (evaluator n) u j →
    ∃ a k, evaluator n u j = .ok a k

section
variable {n : Nat} {t u : Task} {m j : Machine} {e : RuntimeError}

/-- What asks for a task breaks off as the task does. -/
theorem evaluator_breaks (asks : Asks (fun E => t.perform E m) (evaluator n) u j) {h : Halt} {k : Machine}
    (broken : evaluator n u j = .error h k) : ∃ l, evaluator (n + 1) t m = .error h l := by
  obtain ⟨l,passed⟩ := (orderly_perform t m).breaks asks broken
  rw [evaluator_succ]
  exact ⟨l,passed⟩

/-- No stage in progress gets in the way of an error. -/
theorem Stage.Active.fails {start stage : Stage} {stages : List Stage} (active : start.Active stages stage)
    (fails : stage.Fails e) : ∀ s ∈ stages, s.Fails e := by
  induction active with
  | itself => exact fun _ hs => absurd hs List.not_mem_nil
  | asked _ asks ih =>
    obtain ⟨k,broken⟩ := fails
    have passed := evaluator_breaks asks broken
    exact List.forall_mem_cons.mpr ⟨passed,ih passed⟩

/-- Within what fails there is a stage that raises the error by itself. -/
theorem Stage.Fails.raised (fails : Stage.Fails ⟨n,t,m⟩ e) :
    ∃ stages l u k, Stage.Active ⟨n,t,m⟩ stages ⟨l + 1,u,k⟩ ∧ Stage.Raises ⟨l + 1,u,k⟩ e := by
  induction n generalizing t m with
  | zero =>
    obtain ⟨k,failed⟩ := fails
    cases t with
    | declareClass name base rs =>
      have blames := (uniform_blames (fun _ => False) (evaluator 0)).declareClass name base rs
      rcases blames.blames failed with none | ⟨_,_,_,asks,-⟩
      · exact none.elim
      · exact absurd asks (not_asks_const _)
    | _ => cases failed
  | succ n ih =>
    by_cases answered : ∀ u j, Asks (fun E => t.perform E m) (evaluator n) u j →
        ∃ a k, evaluator n u j = .ok a k
    · refine ⟨[],n,t,m,.itself,fails,?_⟩
      rintro _ u j ⟨⟩ asks
      exact answered u j asks
    · push Not at answered
      obtain ⟨u,j,asks,unanswered⟩ := answered
      cases broken : evaluator n u j with
      | ok a k => exact absurd broken (unanswered a k)
      | error h k =>
        -- What breaks off the task breaks off what asks for it, so it is the same error.
        obtain ⟨l,passed⟩ := evaluator_breaks asks broken
        obtain ⟨_,failed⟩ := fails
        cases passed.symm.trans failed
        obtain ⟨stages,l,v,k,active,raises⟩ := ih ⟨_,broken⟩
        obtain ⟨before,active⟩ := active.under asks
        exact ⟨before,l,v,k,active,raises⟩

/-- What a stage raises by itself is an error of its own task. -/
theorem Stage.Raises.own {F : RuntimeError → Prop} (raises : Stage.Raises ⟨n + 1,t,m⟩ e)
    (here : t.RaisesIn F) : F e := by
  obtain ⟨k,failed⟩ := raises.fails
  rw [show evaluator (n + 1) t m = _ from congrFun (evaluator_succ n t) m] at failed
  rcases (blames_perform here).blames failed with own | ⟨u,j,l,asks,broken⟩
  · exact own
  · obtain ⟨_,_,done⟩ := raises.answered rfl asks
    cases done.symm.trans broken

end

end Lox
