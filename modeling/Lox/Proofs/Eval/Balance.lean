import Lox.Proofs.Eval.Tasks
import Lox.Proofs.Machine.Balance

/-! # Balance of the evaluator

Every expression and statement resumes its machine, and one that comes to an end has used up a step.
The proof is an induction on the bound for nested calls, for all the evaluator's functions at once.
-/
namespace Lox
open Machine Exec

/-! ## The operations of single nodes -/

theorem leads_readVariable (r : Reference) : Leads Resumes (readVariable r) := by
  rw [readVariable]
  split
  · exact fun m => leads_reading _ _ m
  · exact fun m => leads_reading _ _ m

theorem leads_assignVariable (r : Reference) (x : Value) :
    Leads Resumes (assignVariable r x) := by
  rw [assignVariable]
  split
  · exact fun m => leads_onHeap _ (Heap.grows_assignAt _ _ _ x) m
  · exact fun m => leads_onHeap _ (Heap.grows_assign _ _ x) m

theorem leads_instance? (x : Value) : Leads Resumes (instance? x) := .of_eq fun m => by
  simp only [instance?]
  split <;> rfl

theorem leads_class? (x : Value) : Leads Resumes (class? x) := .of_eq fun m => by
  simp only [class?]
  split <;> rfl

theorem leads_getProperty (object : Value) (name : Name) :
    Leads Resumes (getProperty object name) := by
  refine .bind (leads_instance? object) fun o => ?_
  cases o with
  | none => exact .throw _
  | some r =>
    refine .bind (leads_reading _ _) fun p => ?_
    cases p with
    | field x => exact .pure x
    | method f => exact .pure _

theorem leads_readThis (pos : Pos) (depth : Option Nat) : Leads Resumes (readThis pos depth) := by
  cases depth with
  | none => exact .throw _
  | some d => exact fun m => leads_reading pos (fun h => h.lookupAt m.current d "this") m

theorem leads_readSuper (pos : Pos) (method : Name) (depth : Option Nat) :
    Leads Resumes (readSuper pos method depth) := by
  cases depth with
  | none => exact .throw _
  | some d =>
    refine .bind leads_currentEnvironment fun env => .bind (leads_reading _ _) fun s =>
      .bind (leads_reading _ _) fun receiver => .bind (leads_class? s) fun c => ?_
    split
    · exact .throw _
    · refine .bind (leads_reading _ _) fun f => ?_
      split
      · exact .pure _
      · exact .throw _
    · exact .throw _

theorem leads_addValues (pos : Pos) (x y : Value) : Leads Resumes (addValues pos x y) := by
  rw [addValues.eq_def]
  split
  · exact .pure _
  · exact .pure _
  · exact .throw _

theorem leads_onNumbers (pos : Pos) (x y : Value) {f : Float → Float → Exec Value}
    (h : ∀ a b, Leads Resumes (f a b)) : Leads Resumes (onNumbers pos x y f) := by
  rw [onNumbers]
  split
  · exact h _ _
  · exact .throw _

theorem leads_divide (pos : Pos) (x y : Float) : Leads Resumes (divide pos x y) := by
  rw [divide]
  split
  · exact .throw _
  · exact .pure _

theorem leads_applyBinary (op : BinaryOp) (pos : Pos) (x y : Value) :
    Leads Resumes (applyBinary op pos x y) := by
  cases op with
  | equal | notEqual => exact .pure _
  | plus => exact leads_addValues pos x y
  | divide => exact leads_onNumbers pos x y (leads_divide pos)
  | minus | times | less | lessEqual | greater | greaterEqual =>
    exact leads_onNumbers pos x y fun _ _ => .pure _

theorem leads_applyUnary (op : UnaryOp) (pos : Pos) (x : Value) :
    Leads Resumes (applyUnary op pos x) := by
  rw [applyUnary.eq_def]
  split
  · exact .pure _
  · exact .throw _
  · exact .pure _

theorem leads_traceBinary (op : BinaryOp) (x y : Value) : Leads Resumes (traceBinary op x y) :=
  fun m => by
    simp only [traceBinary]
    split
    · split
      · exact leads_trace _ _ m
      · exact .refl m
      · exact .refl m
    · exact .refl m

theorem leads_checkCall (pos : Pos) (f : Value) (count : Nat) :
    Leads Resumes (checkCall pos f count) := .of_eq fun m => by
  simp only [checkCall]
  split
  · split
    · rfl
    · split <;> rfl
  · rfl

theorem leads_traceCall (f : Value) : Leads Resumes (traceCall f) := fun m => by
  simp only [traceCall]
  split
  · split
    · exact leads_trace _ _ m
    · exact .refl m
  · exact .refl m

theorem leads_bindParameters (env : Ref) (ps : List Name) (xs : List Value) :
    Leads Resumes (bindParameters env ps xs) := by
  induction ps generalizing xs with
  | nil => exact .pure ()
  | cons p ps ih =>
    cases xs with
    | nil => exact .pure ()
    | cons x xs => exact .bind (leads_define env p.text x) fun _ => ih xs

theorem leads_newMethods (closure : Ref) (rs : List Routine) (made : Bindings Ref) :
    Leads Carries (newMethods closure rs made) := by
  induction rs generalizing made with
  | nil => exact .pure made
  | cons r rs ih =>
    exact .bind (leads_allocate _).carries fun f => .bind (leads_keep _) fun _ => ih _

theorem leads_methodEnvironment (superclass : Option Ref) :
    Leads Carries (methodEnvironment superclass) := by
  refine .bind leads_currentEnvironment.carries fun env => ?_
  cases superclass with
  | none => exact .pure env
  | some c =>
    exact .bind (leads_allocate _).carries fun inner => .bind (leads_define _ _ _).carries fun _ =>
      .bind (leads_keep _) fun _ => .pure inner

theorem leads_declareClass (name : Name) (superclass : Option Ref) (methods : List Routine) :
    Leads Carries (declareClass name superclass methods) :=
  .bind (leads_methodEnvironment superclass) fun closure =>
    .bind (leads_newMethods closure methods {}) fun _ => .bind (leads_allocate _).carries fun _ =>
      .bind leads_currentEnvironment.carries fun _ => (leads_define _ _ _).carries

theorem leads_declareFunction (r : Routine) : Leads Resumes (declareFunction r) :=
  .bind leads_currentEnvironment fun _ => .bind (leads_allocate _) fun _ => leads_define _ _ _

theorem leads_checkSuperclass (r : Reference) (x : Value) :
    Leads Carries (checkSuperclass r x) := by
  refine .bind (leads_class? x).carries fun c => ?_
  cases c with
  | none => exact .throw _
  | some c => exact .bind (leads_keep x) fun _ => .pure c

/-! ## The evaluator -/

/-- A computation that resumes the machine, with fewer steps left unless it breaks off. -/
structure Exec.Spends {α : Type} (x : Exec α) : Prop where
  resumes : Leads Resumes x
  fewer : ∀ {m k : Machine} {a : α}, x m = .ok a k → k.steps < m.steps

theorem Machine.carries_steps {m : Machine} {s : Nat} (h : s ≤ m.steps) :
    Resumes m { m with steps := s } := ⟨{ Carries.refl m with steps := h },rfl⟩

theorem Exec.spends_tick {α : Type} {x : Exec α} (h : Leads Resumes x) :
    Spends (do tick; x) where
  resumes m := by
    cases hs : m.steps with
    | zero => rw [tick_bind_of_eq_zero x hs]; exact .refl m
    | succ s =>
      rw [tick_bind_of_eq_succ x hs]
      exact (carries_steps (by omega)).trans (h _)
  fewer := by
    intro m k a e
    cases hs : m.steps with
    | zero => rw [tick_bind_of_eq_zero x hs] at e; cases e
    | succ s =>
      rw [tick_bind_of_eq_succ x hs] at e
      have left : k.steps ≤ s := (h.ok e).steps
      omega

/-- What the tasks of an evaluator do to a machine. -/
structure Balanced (E : Evaluator) : Prop where
  evaluate : ∀ e, Spends (E (.evaluate e))
  evaluateAll : ∀ es, Leads Carries (E (.evaluateAll es))
  /-- Arguments are in use, last one first. -/
  arguments : ∀ {es m xs k}, E (.evaluateAll es) m = .ok xs k → k.temps = xs.reverse ++ m.temps
  call : ∀ f xs, Leads Resumes (E (.call f xs))
  callFunction : ∀ f xs, Leads Resumes (E (.callFunction f xs))
  callBound : ∀ f receiver xs, Leads Resumes (E (.callBound f receiver xs))
  instantiate : ∀ c xs, Leads Resumes (E (.instantiate c xs))
  invoke : ∀ r enclosing xs, Leads Resumes (E (.invoke r enclosing xs))
  execute : ∀ s, Spends (E (.execute s))
  executeAll : ∀ ss, Leads Resumes (E (.executeAll ss))
  loop : ∀ e s i, Leads Resumes (E (.loop e s i))
  declareClass : ∀ name base rs, Leads Carries (E (.declareClass name base rs))

theorem Exec.spends_cut {α : Type} : Spends (halt .cut : Exec α) where
  resumes := .throw _
  fewer e := by cases e

theorem leads_declareVariable (name : String) (x : Value) : Leads Resumes (declareVariable name x) :=
  .bind leads_currentEnvironment fun env => .bind (leads_define env name x) fun _ => .pure _

section
variable {E : Evaluator} (h : Balanced E)
include h

theorem Balanced.entered (f : Value) (xs : List Value) :
    Leads Carries (do traceCall f; E (.call f xs)) :=
  .bind (leads_traceCall f).carries fun _ => (h.call f xs).carries

theorem Balanced.called (callee : Expr) (paren : Pos) (args : List Expr) :
    Leads Carries (E.performCall callee paren args) :=
  .bind (h.evaluate callee).resumes.carries fun f => .bind (leads_keep f) fun _ =>
    .bind (h.evaluateAll args) fun xs => .bind (leads_trace _ _).carries fun _ =>
    .bind (leads_checkCall _ _ _).carries fun _ => .entering paren f (h.entered f xs)

theorem Balanced.evaluate_perform (e : Expr) : Spends ((Task.evaluate e).perform E) := by
  refine spends_tick (.bind (leads_trace _ _) fun _ => ?_)
  have sub := fun e => (h.evaluate e).resumes
  cases e with
  | literal c _ => exact .pure _
  | grouping _ inner => exact sub inner
  | var r => exact leads_readVariable r
  | assign r value =>
    exact .bind (sub value) fun x => .bind (leads_assignVariable r x) fun _ => .pure x
  | unary op pos right => exact .bind (sub right) fun x => leads_applyUnary op pos x
  | binary left op pos right =>
    exact .bind (sub left) fun x => .bind (.keeping x (sub right).carries) fun y =>
      .bind (leads_traceBinary op x y) fun _ => leads_applyBinary op pos x y
  | logical left op _ right =>
    cases op with
    | or =>
      refine .bind (sub left) fun x => ?_
      split
      · exact .pure x
      · exact sub right
    | and =>
      refine .bind (sub left) fun x => ?_
      split
      · exact sub right
      · exact .pure x
  | call callee paren args =>
    exact .bind (leads_trace _ _) fun _ => .releasing (h.called callee paren args)
  | get object name => exact .bind (sub object) fun x => leads_getProperty x name
  | set object name value =>
    refine .bind (sub object) fun target => .bind (leads_instance? target) fun o => ?_
    cases o with
    | none => exact .throw _
    | some r =>
      exact .bind (.keeping target (sub value).carries) fun x =>
        .bind (leads_onHeap _ (Heap.grows_setField r name.text x)) fun _ => .pure x
  | this pos depth => exact leads_readThis pos depth
  | super pos method depth => exact leads_readSuper pos method depth

theorem Balanced.evaluateAll_perform (es : List Expr) :
    Leads Carries ((Task.evaluateAll es).perform E) := by
  cases es with
  | nil => exact .pure _
  | cons e es =>
    exact .bind (h.evaluate e).resumes.carries fun x => .bind (leads_keep x) fun _ =>
      .bind (h.evaluateAll es) fun _ => .pure _

theorem Balanced.arguments_perform {es : List Expr} {m k : Machine} {xs : List Value}
    (e : (Task.evaluateAll es).perform E m = .ok xs k) : k.temps = xs.reverse ++ m.temps := by
  cases es with
  | nil =>
    cases e
    rfl
  | cons e' es =>
    obtain ⟨x,l,hx,e⟩ := bind_eq_ok.mp e
    obtain ⟨_,l',hl,e⟩ := bind_eq_ok.mp e
    obtain ⟨ys,l'',hys,e⟩ := bind_eq_ok.mp e
    cases e
    rw [h.arguments hys]
    cases hl
    rw [List.reverse_cons,List.append_assoc,← ((h.evaluate e').resumes.ok hx).temps_eq]
    rfl

theorem Balanced.call_perform (f : Value) (xs : List Value) :
    Leads Resumes ((Task.call f xs).perform E) := by
  cases f with
  | native _ => exact leads_readClock
  | bound f receiver => exact h.callBound f receiver xs
  | object r =>
    intro m
    by_cases kind : m.heap.kindOf r = .klass
    · rw [perform_call_of_class E xs kind]
      exact h.instantiate r xs m
    · rw [perform_call_of_not_class E xs kind]
      exact h.callFunction r xs m
  | nil | bool _ | number _ | string _ => exact .throw _

theorem Balanced.callFunction_perform (f : Ref) (xs : List Value) :
    Leads Resumes ((Task.callFunction f xs).perform E) := by
  exact .bind (leads_reading _ _) fun p => h.invoke p.1 p.2 xs

theorem Balanced.callBound_perform (f receiver : Ref) (xs : List Value) :
    Leads Resumes ((Task.callBound f receiver xs).perform E) := by
  exact .bind (leads_reading _ _) fun p => .bind (leads_allocate _) fun env =>
    .bind (leads_define _ _ _) fun _ => h.invoke p.1 (some env) xs

theorem Balanced.instantiate_perform (c : Ref) (xs : List Value) :
    Leads Resumes ((Task.instantiate c xs).perform E) := by
  refine .bind (leads_reading _ _) fun _ => .bind (leads_allocate _) fun r =>
    .bind (leads_reading _ _) fun init => ?_
  cases init with
  | none => exact .pure _
  | some f => exact .bind (.keeping _ (h.callBound f r xs).carries) fun _ => .pure _

theorem Balanced.invoke_perform (r : Routine) (enclosing : Option Ref) (xs : List Value) :
    Leads Resumes ((Task.invoke r enclosing xs).perform E) := by
  refine .bind (leads_allocate _) fun env => .bind (leads_bindParameters env _ xs) fun _ =>
    .bind (.inEnvironment env (h.executeAll r.body)) fun signal => ?_
  split <;> exact .pure _

theorem Balanced.execute_perform (s : Stmt) : Spends ((Task.execute s).perform E) := by
  refine spends_tick (.bind (leads_trace _ _) fun _ => ?_)
  have sub := fun e => (h.evaluate e).resumes
  cases s with
  | expression e => exact .bind (sub e) fun _ => .pure _
  | print pos e =>
    exact .bind (sub e) fun x => .bind (leads_reading _ _) fun _ =>
      .bind (leads_print _) fun _ => .pure _
  | var name init =>
    cases init with
    | none => exact leads_declareVariable name.text .nil
    | some e => exact .bind (sub e) (leads_declareVariable name.text)
  | block _ _ body =>
    exact .bind (leads_trace _ _) fun _ => .bind leads_currentEnvironment fun _ =>
      .bind (leads_allocate _) fun env => .inEnvironment env (h.executeAll body)
  | branch _ condition yes no =>
    refine .bind (sub condition) fun x => ?_
    split
    · exact (h.execute yes).resumes
    · split
      · exact (h.execute _).resumes
      · exact .pure _
  | loop _ _ condition body increment => exact h.loop condition body increment
  | jump _ j => cases j <;> exact .pure _
  | leave _ value =>
    cases value with
    | none => exact .pure _
    | some e => exact .bind (sub e) fun _ => .pure _
  | function r =>
    exact .bind (leads_trace _ _) fun _ => .bind (leads_declareFunction r) fun _ => .pure _
  | klass name superclass methods =>
    refine .bind (leads_trace _ _) fun _ => .releasing ?_
    have rest : ∀ base, Leads Carries (do
        E (.declareClass name base methods)
        return (none : Option Signal)) := fun base =>
      .bind (h.declareClass name base methods) fun _ => .pure _
    cases superclass with
    | none => exact rest none
    | some r =>
      exact .bind (h.evaluate (.var r)).resumes.carries fun x =>
        .bind (.map some (leads_checkSuperclass r x)) rest

theorem Balanced.executeAll_perform (ss : List Stmt) :
    Leads Resumes ((Task.executeAll ss).perform E) := by
  cases ss with
  | nil => exact .pure _
  | cons s ss =>
    refine .bind (h.execute s).resumes fun signal => ?_
    cases signal with
    | none => exact h.executeAll ss
    | some signal => exact .pure _

theorem Balanced.loop_perform (e : Expr) (s : Stmt) (i : Option Expr) :
    Leads Resumes ((Task.loop e s i).perform E) := by
  refine .bind (h.evaluate e).resumes fun x => ?_
  split
  · refine .bind (h.execute s).resumes fun signal => ?_
    split
    · exact .pure _
    · exact .pure _
    · cases i with
      | none => exact h.loop e s none
      | some i =>
        exact .bind (h.execute (.expression i)).resumes fun _ => h.loop e s (some i)
  · exact .pure _

end

theorem Balanced.perform {E : Evaluator} (h : Balanced E) : Balanced fun t => t.perform E :=
  ⟨h.evaluate_perform,h.evaluateAll_perform,h.arguments_perform,h.call_perform,h.callFunction_perform,
    h.callBound_perform,h.instantiate_perform,h.invoke_perform,h.execute_perform,
    h.executeAll_perform,h.loop_perform,leads_declareClass⟩

theorem balanced (n : Nat) : Balanced (evaluator n) := by
  induction n with
  | zero =>
    constructor
    case evaluate => exact fun _ => spends_cut
    case execute => exact fun _ => spends_cut
    case declareClass => exact leads_declareClass
    case arguments => exact fun e => by cases e
    all_goals intros; exact .throw _
  | succ n ih =>
    rw [show evaluator (n + 1) = fun t => t.perform (evaluator n) from funext (evaluator_succ n)]
    exact ih.perform

theorem leads_executeProgram (n : Nat) (p : Program) : Leads Resumes (executeProgram n p) := by
  induction p with
  | nil => exact .pure ()
  | cons s p ih => exact .bind ((balanced n).execute s).resumes fun _ => ih

end Lox
