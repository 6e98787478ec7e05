import Lox.Proofs.Eval.CopiedNodes
import Lox.Proofs.Eval.Tasks

/-! # The evaluator on copies

A task that fits the environment at hand ends as the respelled task does on the copy. Behind a
statement the environment provides what the statement has declared. One step of the argument takes
an evaluator that answers so to the next one; a task that opens an environment has to be allowed to.
-/
namespace Lox
open Machine Exec

/-- A task is not cut short at once. -/
def Task.Starts (n : Nat) (m : Machine) : Task → Prop
  | .evaluate _ | .execute _ => 0 < n ∧ 0 < m.steps
  | .declareClass _ _ _ => True
  | _ => 0 < n

/-- What a task that starts at a machine opens an environment for, before it gives out any other
task. -/
def Task.opens (m : Machine) : Task → Option Origin
  | .execute (.block pos form body) => some (.block pos form body)
  | .invoke r _ _ => some (.routine r)
  | .callBound f _ _ => (m.heap.function f).toOption.map fun p => .receiver p.1
  | .declareClass name (some _) _ => some (.superclass name)
  | _ => none

namespace Copying
variable (C : Copying)

/-- A signal and its copy. -/
inductive Signalled (W : World) : Option Signal → Option Signal → Prop
  | none : Signalled W none none
  | leave : Signalled W (some .leave) (some .leave)
  | next : Signalled W (some .next) (some .next)
  | return {x y} : C.Copied W x y → Signalled W (some (.return x)) (some (.return y))

def CopiedAll (W : World) (xs ys : List Value) : Prop :=
  (∀ x ∈ xs, W.Holds x) ∧ ys = xs.map C.value

/-- An environment may be made now for what a task opens it for. -/
def Allows (t : Task) (m : Machine) : Prop :=
  ∀ o ∈ t.opens m, C.made ⟨m.heap.cells.size⟩ o

/-- An evaluator ends alike on copies when it performs tasks that fit. -/
structure Faithful (E : Evaluator) : Prop where
  evaluate {W Γ e m k} : e.Fits (C.use Γ) Γ → C.Pair W Γ m k →
    C.Ends W C.Copied (fun _ => Γ) (E (.evaluate e) m)
      (E (.evaluate (e.respell C.spelling Γ.origins)) k)
  evaluateAll {W Γ es m k} : ArgumentsFit (C.use Γ) Γ es → C.Pair W Γ m k →
    C.Ends W C.CopiedAll (fun _ => Γ) (E (.evaluateAll es) m)
      (E (.evaluateAll (respellArguments C.spelling Γ.origins es)) k)
  call {W Γ f xs m k} : W.Holds f → (∀ x ∈ xs, W.Holds x) → W.Takes f xs.length →
    C.Pair W Γ m k → C.Ends W C.Copied (fun _ => Γ) (E (.call f xs) m)
      (E (.call (C.value f) (xs.map C.value)) k)
  callFunction {W Γ f xs m k} : W.IsFunction f xs.length → (∀ x ∈ xs, W.Holds x) →
    C.Pair W Γ m k → C.Ends W C.Copied (fun _ => Γ) (E (.callFunction f xs) m)
      (E (.callFunction (C.ref f) (xs.map C.value)) k)
  callBound {W Γ f r xs m k} : W.IsMethod f xs.length → W.IsObject r → (∀ x ∈ xs, W.Holds x) →
    C.Pair W Γ m k → C.Ends W C.Copied (fun _ => Γ) (E (.callBound f r xs) m)
      (E (.callBound (C.ref f) (C.ref r) (xs.map C.value)) k)
  instantiate {W Γ c xs m k} : W.IsClass c xs.length → (∀ x ∈ xs, W.Holds x) →
    C.Pair W Γ m k → C.Ends W C.Copied (fun _ => Γ) (E (.instantiate c xs) m)
      (E (.instantiate (C.ref c) (xs.map C.value)) k)
  invoke {W Γ Θ r closure xs m k} : W.Provides closure Θ →
    r.Fits C.spelling C.use (Θ.ofRoutine r) → r.arity = xs.length → (∀ x ∈ xs, W.Holds x) →
    C.Pair W Γ m k → C.Ends W C.Copied (fun _ => Γ) (E (.invoke r (some closure) xs) m)
      (E (.invoke (r.respell C.spelling (.routine r :: Θ.origins)) (some (C.ref closure))
        (xs.map C.value)) k)
  execute {W Γ s m k} : s.Fits C.spelling C.use Γ → C.Pair W Γ m k →
    C.Ends W C.Signalled (fun _ => Γ.afterStmt s) (E (.execute s) m)
      (E (.execute (s.respell C.spelling Γ.origins)) k)
  executeAll {W Γ ss m k} : BodyFits C.spelling C.use Γ ss → C.Pair W Γ m k →
    C.Ends W C.Signalled (fun _ => Γ) (E (.executeAll ss) m)
      (E (.executeAll (respellAll C.spelling Γ.origins ss)) k)
  loop {W Γ e s i m k} : e.Fits (C.use Γ) Γ → s.Fits C.spelling C.use Γ →
    (∀ e ∈ i, e.Fits (C.use Γ) Γ) → C.Pair W Γ m k →
    C.Ends W C.Signalled (fun _ => Γ) (E (.loop e s i) m)
      (E (.loop (e.respell C.spelling Γ.origins) (s.respell C.spelling Γ.origins)
        (i.map (·.respell C.spelling Γ.origins))) k)
  declareClass {W Γ name superclass rs m k} :
    C.spelling.own Γ.origins name.text = name.text →
    MethodsFit C.spelling C.use ((Γ.declare name.text).ofClass name superclass) rs →
    (∀ c ∈ superclass, ∃ n, W.IsClass c n) → C.Pair W Γ m k →
    C.Ends W (fun _ _ _ => True) (fun _ => Γ.declare name.text)
      (E (.declareClass name superclass rs) m)
      (E (.declareClass name (superclass.map C.ref)
        (respellMethods C.spelling (classOrigins Γ.origins name superclass) rs)) k)

variable {C} {W V : World} {Γ : Context} {m k : Machine}

theorem heap_of_trace {level : Level} {s : Unit → String} {x : Unit} (e : trace level s m = .ok x k) :
    k.heap = m.heap := by
  simp only [trace] at e
  split at e <;> cases e <;> rfl

theorem heap_of_reading {α : Type} {pos : Pos} {f : Heap Value → Except Failure α} {a : α}
    (e : reading pos f m = .ok a k) : f m.heap = .ok a ∧ k = m := by
  simp only [reading] at e
  split at e
  · next ok =>
    cases e
    exact ⟨ok,rfl⟩
  · cases e

theorem ends_readClock (pair : C.Pair W Γ m k) :
    C.Ends W C.Copied (fun _ => Γ) (readClock m) (readClock k) := by
  have clock := pair.clock_eq
  simp only [readClock]
  rw [clock]
  exact .ok (.refl W) ⟨trivial,rfl⟩ { pair with clock_eq := rfl }

theorem holds_constantValue (c : Constant) : W.Holds (constantValue c) := by cases c <;> trivial

theorem move_constantValue (c : Constant) : C.value (constantValue c) = constantValue c := by
  cases c <;> rfl

theorem ends_declareVariable (name : String) {x : Value} (hx : W.Holds x) (pair : C.Pair W Γ m k) :
    C.Ends W C.Signalled (fun _ => Γ.declare name) (declareVariable name x m)
      (declareVariable (C.spelling.own Γ.origins name) (C.value x) k) :=
  Ends.bind (f := fun _ => pure none) (g := fun _ => pure none)
    (ends_define_here pair name fun _ up _ => up.holds hx)
      fun _ _ _ _ _ _ _ _ pair => .pure .none pair

namespace Faithful
variable {E : Evaluator} (h : C.Faithful E)
include h

theorem called {callee : Expr} {paren : Pos} {args : List Expr} (fits : callee.Fits (C.use Γ) Γ)
    (fit : ArgumentsFit (C.use Γ) Γ args) (pair : C.Pair W Γ m k) :
    C.Ends W C.Copied (fun _ => Γ) (E.performCall callee paren args m)
      (E.performCall (callee.respell C.spelling Γ.origins) paren
        (respellArguments C.spelling Γ.origins args) k) := by
  refine (h.evaluate fits pair).bind fun V f _ m k _ _ ⟨hf,same⟩ pair => ?_
  subst same
  refine (ends_keep pair f).bind fun V _ _ m k _ up _ pair => ?_
  have hf := up.holds hf
  refine (h.evaluateAll fit pair).bind fun V xs _ m k _ up ⟨hxs,same⟩ pair => ?_
  subst same
  have hf := up.holds hf
  refine (ends_trace pair _ fun _ => by rw [List.length_map]).bind fun V _ _ m k _ up _ pair => ?_
  have hf := up.holds hf
  have hxs := fun x hx => up.holds (hxs x hx)
  rw [List.length_map]
  refine (ends_checkCall paren xs.length hf pair).bind fun V _ _ m k _ up takes pair => ?_
  have hf := up.holds hf
  have hxs := fun x hx => up.holds (hxs x hx)
  refine .entering pair fun m k _ pair => ?_
  refine (ends_traceCall hf pair).bind fun V _ _ m k _ up _ pair => ?_
  exact h.call (up.holds hf) (fun x hx => up.holds (hxs x hx)) (up.takes takes) pair

theorem evaluate_perform {e : Expr} (fits : e.Fits (C.use Γ) Γ) (pair : C.Pair W Γ m k) :
    C.Ends W C.Copied (fun _ => Γ) ((Task.evaluate e).perform E m)
      ((Task.evaluate (e.respell C.spelling Γ.origins)).perform E k) := by
  refine .tick pair fun _ _ pair => (ends_trace pair _ fun same => by rw [same.2,Expr.respell_asWritten]).bind fun W _ _ m k _ _ _ pair => ?_
  cases e with
  | literal c _ => exact .pure ⟨holds_constantValue c,(move_constantValue c).symm⟩ pair
  | grouping _ inner => exact h.evaluate (e := inner) fits pair
  | var r => exact ends_readVariable fits.2 pair
  | assign r value =>
    obtain ⟨used,reaches,fits⟩ := fits
    refine (h.evaluate fits pair).bind fun V x _ m k _ _ ⟨hx,same⟩ pair => ?_
    subst same
    refine (ends_assignVariable (C.assigned used) reaches pair hx).bind fun V _ _ m k _ up _ pair => ?_
    exact .pure ⟨up.holds hx,rfl⟩ pair
  | unary op pos right =>
    refine (h.evaluate (e := right) fits pair).bind fun V x _ m k _ _ ⟨_,same⟩ pair => ?_
    subst same
    exact ends_applyUnary op pos x pair
  | binary left op pos right =>
    obtain ⟨first,second⟩ := fits
    refine (h.evaluate first pair).bind fun V x _ m k _ _ ⟨hx,same⟩ pair => ?_
    subst same
    refine (Ends.keeping pair x fun m k _ pair => h.evaluate second pair).bind
      fun V y _ m k _ up ⟨hy,same⟩ pair => ?_
    subst same
    refine (ends_traceBinary op (up.holds hx) hy pair).bind fun V _ _ m k _ _ _ pair => ?_
    exact ends_applyBinary op pos x y pair
  | logical left op _ right =>
    obtain ⟨first,second⟩ := fits
    cases op with
    | or =>
      refine (h.evaluate first pair).bind fun V x _ m k _ _ ⟨hx,same⟩ pair => ?_
      subst same
      rw [Value.isTruthy_move]
      split
      · exact .pure ⟨hx,rfl⟩ pair
      · exact h.evaluate second pair
    | and =>
      refine (h.evaluate first pair).bind fun V x _ m k _ _ ⟨hx,same⟩ pair => ?_
      subst same
      rw [Value.isTruthy_move]
      split
      · exact h.evaluate second pair
      · exact .pure ⟨hx,rfl⟩ pair
  | call callee paren args =>
    refine (ends_trace pair _ fun same => by rw [same.2,Expr.respell_asWritten]).bind fun V _ _ m k _ _ _ pair => .releasing pair ?_
    exact h.called fits.1 fits.2 pair
  | get object name =>
    refine (h.evaluate (e := object) fits pair).bind fun V x _ m k _ _ ⟨hx,same⟩ pair => ?_
    subst same
    exact ends_getProperty pair hx name
  | set object name value =>
    obtain ⟨first,second⟩ := fits
    refine (h.evaluate first pair).bind fun V x _ m k _ _ ⟨hx,same⟩ pair => ?_
    subst same
    refine (ends_instance? pair hx).bind fun V o _ m k _ up ⟨same,object⟩ pair => ?_
    subst same
    cases o with
    | none => exact ends_raise name.pos _ pair
    | some r =>
      obtain ⟨rfl,role⟩ := object r rfl
      refine (Ends.keeping pair (.object r) fun m k _ pair => h.evaluate second pair).bind
        fun V y _ m k _ up ⟨hy,same⟩ pair => ?_
      subst same
      have writes := writes_setField pair.heaps (up.instanceOf role) name.text hy
      refine (ends_onHeap name.pos pair (.refl V) pair.here writes).bind
        fun U _ _ m k _ up _ pair => ?_
      exact .pure ⟨up.holds hy,rfl⟩ pair
  | this pos depth =>
    obtain ⟨-,d,rfl,binds⟩ := fits
    exact ends_readThis pos binds pair
  | super pos method depth =>
    obtain ⟨-,d,rfl,super,this⟩ := fits
    exact ends_readSuper pos method super this pair

theorem evaluateAll_perform {es : List Expr} (fit : ArgumentsFit (C.use Γ) Γ es)
    (pair : C.Pair W Γ m k) :
    C.Ends W C.CopiedAll (fun _ => Γ) ((Task.evaluateAll es).perform E m)
      ((Task.evaluateAll (respellArguments C.spelling Γ.origins es)).perform E k) := by
  cases es with
  | nil => exact .pure ⟨fun _ hx => absurd hx List.not_mem_nil,rfl⟩ pair
  | cons e es =>
    refine (h.evaluate fit.1 pair).bind fun V x _ m k _ _ ⟨hx,same⟩ pair => ?_
    subst same
    refine (ends_keep pair x).bind fun V _ _ m k _ up _ pair => ?_
    have hx := up.holds hx
    refine (h.evaluateAll fit.2 pair).bind fun V xs _ m k _ up ⟨hxs,same⟩ pair => ?_
    subst same
    exact .pure ⟨List.forall_mem_cons.mpr ⟨up.holds hx,hxs⟩,rfl⟩ pair

theorem call_perform {f : Value} {xs : List Value} (hf : W.Holds f) (hxs : ∀ x ∈ xs, W.Holds x)
    (takes : W.Takes f xs.length) (pair : C.Pair W Γ m k) :
    C.Ends W C.Copied (fun _ => Γ) ((Task.call f xs).perform E m)
      ((Task.call (C.value f) (xs.map C.value)).perform E k) := by
  cases f with
  | native _ => exact ends_readClock pair
  | bound f r =>
    obtain ⟨⟨n,method⟩,object⟩ := hf
    obtain ⟨closure,Θ,role,provides⟩ := id method
    obtain ⟨R,role',arity⟩ := takes
    cases role.symm.trans role'
    cases arity
    exact h.callBound method object hxs pair
  | object r =>
    obtain ⟨R,role,arity⟩ := takes
    obtain ⟨left,right⟩ := kindOf_eq pair.heaps role
    cases hf with
    | function function =>
      obtain ⟨closure,Θ,role',provides⟩ := id function
      cases role.symm.trans role'
      cases arity
      have left := perform_call_of_not_class E xs (m := m) (by rw [left]; simp [Role.kind])
      have right := perform_call_of_not_class E (xs.map C.value) (m := k)
        (by rw [right]; simp [Role.kind])
      have ends := h.callFunction function hxs pair
      rw [← left,← right] at ends
      exact ends
    | klass klass =>
      obtain ⟨superclass,methods,role',callable⟩ := id klass
      cases role.symm.trans role'
      cases arity
      have left := perform_call_of_class E xs left
      have right := perform_call_of_class E (xs.map C.value) right
      have ends := h.instantiate klass hxs pair
      rw [← left,← right] at ends
      exact ends
    | instanceOf role' =>
      cases role.symm.trans role'
      cases arity
  | _ => exact takes.elim

theorem callFunction_perform {f : Ref} {xs : List Value} (function : W.IsFunction f xs.length)
    (hxs : ∀ x ∈ xs, W.Holds x) (pair : C.Pair W Γ m k) :
    C.Ends W C.Copied (fun _ => Γ) ((Task.callFunction f xs).perform E m)
      ((Task.callFunction (C.ref f) (xs.map C.value)).perform E k) := by
  obtain ⟨closure,Θ,role,provides⟩ := function
  refine (ends_reading .start pair (answers_function pair.heaps role)).bind
    fun V a b m k _ up ⟨closed,arity,fits,same⟩ pair => ?_
  obtain ⟨r,closure⟩ := a
  subst same closed
  have ends := h.invoke (up.provides provides) fits arity (fun x hx => up.holds (hxs x hx)) pair
  rw [origins_ofFunction]
  exact ends

theorem callBound_perform {f r : Ref} {xs : List Value} (method : W.IsMethod f xs.length)
    (object : W.IsObject r) (hxs : ∀ x ∈ xs, W.Holds x) (allows : C.Allows (.callBound f r xs) m)
    (pair : C.Pair W Γ m k) :
    C.Ends W C.Copied (fun _ => Γ) ((Task.callBound f r xs).perform E m)
      ((Task.callBound (C.ref f) (C.ref r) (xs.map C.value)).perform E k) := by
  obtain ⟨closure,Θ,role,provides⟩ := method
  refine (ends_reading .start pair (answers_function pair.heaps role)).bind
    fun V a b m' k' e up ⟨closed,arity,fits,same⟩ pair' => ?_
  obtain ⟨s,closure⟩ := a
  subst same closed
  obtain ⟨found,rfl⟩ := heap_of_reading e
  have made : C.made ⟨m'.heap.cells.size⟩ (.receiver s) :=
    allows _ (by simp [Task.opens,found,Except.toOption])
  refine (ends_newEnvironment (up.provides provides) made pair').bind
    fun U env _ m k _ up' ⟨inside,same,_⟩ pair => ?_
  subst same
  have object := up'.isObject (up.isObject object)
  have defines := ends_define pair inside "this" (x := .object r) fun T more _ => more.holds object
  rw [show C.spelling.own (Context.origins (⟨.receiver s,[]⟩ :: Θ)) "this" = "this" from
    C.this (.receiver s)] at defines
  refine defines.bind fun T _ _ m k _ more inside pair => ?_
  have ends := h.invoke inside fits arity
    (fun x hx => more.holds (up'.holds (up.holds (hxs x hx)))) pair
  rw [origins_ofFunction]
  exact ends

theorem instantiate_perform {c : Ref} {xs : List Value} (klass : W.IsClass c xs.length)
    (hxs : ∀ x ∈ xs, W.Holds x) (pair : C.Pair W Γ m k) :
    C.Ends W C.Copied (fun _ => Γ) ((Task.instantiate c xs).perform E m)
      ((Task.instantiate (C.ref c) (xs.map C.value)).perform E k) := by
  obtain ⟨superclass,methods,role,-⟩ := id klass
  refine (ends_reading .start pair (answers_live pair.heaps role)).bind fun V _ _ m k _ up _ pair => ?_
  have klass := up.isClass klass
  have grown := World.grows_put_new (fresh pair.heaps) .instanceOf
  refine (ends_allocate pair (R := .instanceOf) (.instanceOf (grown.isClass klass)
    fun _ hx => absurd hx List.not_mem_nil)).bind fun U r _ m k _ up' ⟨_,role,same⟩ pair => ?_
  subst same
  have klass := up'.isClass klass
  refine (ends_reading .start pair (answers_findMethod pair.heaps klass "init")).bind
    fun T init _ m k _ up₃ ⟨_,initializes,same⟩ pair => ?_
  subst same
  have role := up₃.instanceOf role
  have hxs := fun x hx => up₃.holds (up'.holds (up.holds (hxs x hx)))
  cases init with
  | none => exact .pure ⟨.instanceOf role,rfl⟩ pair
  | some f =>
    have method := up₃.isMethod (initializes rfl)
    refine (Ends.keeping pair (.object r) fun m k _ pair =>
      h.callBound method (.instanceOf role) hxs pair).bind fun S _ _ m k _ more _ pair => ?_
    exact .pure ⟨.instanceOf (more.instanceOf role),rfl⟩ pair

theorem invoke_perform {Θ : Context} {r : Routine} {closure : Ref} {xs : List Value}
    (around : W.Provides closure Θ) (fits : r.Fits C.spelling C.use (Θ.ofRoutine r))
    (arity : r.arity = xs.length) (hxs : ∀ x ∈ xs, W.Holds x)
    (allows : C.Allows (.invoke r (some closure) xs) m) (pair : C.Pair W Γ m k) :
    C.Ends W C.Copied (fun _ => Γ) ((Task.invoke r (some closure) xs).perform E m)
      ((Task.invoke (r.respell C.spelling (.routine r :: Θ.origins)) (some (C.ref closure))
        (xs.map C.value)).perform E k) := by
  refine (ends_newEnvironment around (allows _ rfl) pair).bind
    fun V env _ m k _ up ⟨inside,same,_⟩ pair => ?_
  subst same
  have fitting := fits
  obtain ⟨name,params,body⟩ := r
  refine (ends_bindParameters inside arity (fun x hx => up.holds (hxs x hx)) pair).bind
    fun U _ _ m k _ _ inside pair => ?_
  have body_ends := fun {m' k'} (pair : C.Pair U (Θ.ofRoutine ⟨name,params,body⟩) m' k') =>
    h.executeAll (show BodyFits C.spelling C.use _ body from fits) pair
  rw [Context.origins_ofRoutine] at body_ends
  refine (Ends.inEnvironment pair inside fun m k _ pair => body_ends pair).bind
    fun T signal _ m k _ _ copied pair => ?_
  cases copied with
  | «return» copied => exact .pure copied pair
  | _ => exact .pure ⟨trivial,rfl⟩ pair

theorem execute_perform {s : Stmt} (fits : s.Fits C.spelling C.use Γ)
    (allows : 0 < m.steps → C.Allows (.execute s) m) (pair : C.Pair W Γ m k) :
    C.Ends W C.Signalled (fun _ => Γ.afterStmt s) ((Task.execute s).perform E m)
      ((Task.execute (s.respell C.spelling Γ.origins)).perform E k) := by
  refine .tick pair fun steps left pair => (ends_trace pair _ fun same => by rw [same.2,Stmt.respell_asWritten]).bind
    fun W _ _ m' k e _ _ pair => ?_
  have allows := allows (left ▸ Nat.succ_pos steps)
  have same := heap_of_trace e
  clear e
  cases s with
  | expression e => exact (h.evaluate fits pair).bind fun V _ _ m k _ _ _ pair => .pure .none pair
  | print pos e =>
    refine (h.evaluate (e := e) fits pair).bind fun V x _ m k _ _ ⟨hx,same⟩ pair => ?_
    subst same
    refine (ends_reading pos pair (answers_inspect pair.heaps hx)).bind
      fun V text _ m k _ _ same pair => ?_
    subst same
    exact (ends_print pair _).bind fun V _ _ m k _ _ _ pair => .pure .none pair
  | var name init =>
    cases init with
    | none => exact ends_declareVariable name.text (x := .nil) trivial pair
    | some e =>
      refine (h.evaluate (fits e rfl) pair).bind fun V x _ m k _ _ ⟨hx,same⟩ pair => ?_
      subst same
      exact ends_declareVariable name.text hx pair
  | block pos form body =>
    refine (ends_trace pair _ fun same => by rw [same.2,respellAll_asWritten]).bind fun V _ _ m₂ k e _ _ pair => ?_
    have same := (heap_of_trace e).trans same
    refine (ends_currentEnvironment pair).bind fun V outer _ m₃ k e _ ⟨here,copied⟩ pair => ?_
    subst copied
    cases e
    have made : C.made ⟨m₂.heap.cells.size⟩ (.block pos form body) := same ▸ allows _ rfl
    refine (ends_newEnvironment here made pair).bind fun V env _ m k _ up ⟨inside,copied,_⟩ pair => ?_
    subst copied
    exact Ends.inEnvironment pair inside fun m k _ pair => h.executeAll fits pair
  | branch pos condition yes no =>
    cases no with
    | none =>
      refine (h.evaluate fits.1 pair).bind fun V x _ m k _ _ ⟨hx,same⟩ pair => ?_
      subst same
      rw [Value.isTruthy_move]
      split
      · exact (h.execute fits.2 pair).imp fun V _ _ m k _ signal pair => ⟨signal,pair.of_afterStmt⟩
      · exact .pure .none pair
    | some no =>
      refine (h.evaluate fits.1 pair).bind fun V x _ m k _ _ ⟨hx,same⟩ pair => ?_
      subst same
      rw [Value.isTruthy_move]
      split
      · exact (h.execute fits.2.1 pair).imp fun V _ _ m k _ signal pair => ⟨signal,pair.of_afterStmt⟩
      · exact (h.execute fits.2.2 pair).imp fun V _ _ m k _ signal pair => ⟨signal,pair.of_afterStmt⟩
  | loop _ _ condition body increment => exact h.loop fits.1 fits.2.1 fits.2.2 pair
  | jump _ j =>
    cases j with
    | leave => exact .pure .leave pair
    | next => exact .pure .next pair
  | leave _ value =>
    cases value with
    | none => exact .pure (.return ⟨trivial,rfl⟩) pair
    | some e =>
      exact (h.evaluate (fits e rfl) pair).bind fun V x _ m k _ _ copied pair =>
        .pure (.return copied) pair
  | function r =>
    refine (ends_trace pair _ fun _ => by rw [Guise.name_respell]).bind fun V _ _ m k _ _ _ pair => ?_
    exact (ends_declareFunction fits.1 fits.2 pair).bind fun V _ _ m k _ _ _ pair => .pure .none pair
  | klass name superclass methods =>
    obtain ⟨keeps,uses,fit⟩ := fits
    refine (ends_trace pair _ fun _ => rfl).bind fun V _ _ m k _ _ _ pair => .releasing pair ?_
    cases superclass with
    | none =>
      have classes : ∀ c ∈ (none : Option Ref), ∃ n, V.IsClass c n := nofun
      exact (h.declareClass keeps (by exact fit) classes pair).bind
        fun V _ _ m k _ _ _ pair => .pure .none pair
    | some r =>
      refine (h.evaluate (uses r rfl) pair).bind fun V x _ m k _ _ ⟨hx,same⟩ pair => ?_
      subst same
      have check : C.Ends V (fun V a b => ∃ c, a = some c ∧ b = some (C.ref c) ∧ ∃ n, V.IsClass c n)
          (fun _ => Γ) ((some <$> checkSuperclass r x) m)
          ((some <$> checkSuperclass (r.respell C.spelling Γ.origins) (C.value x)) k) :=
        (ends_checkSuperclass r hx pair).map some fun V c _ m k _ ⟨same,klass⟩ pair =>
          ⟨⟨c,rfl,congrArg some same,klass⟩,pair⟩
      refine check.bind fun V _ _ m k e _ ⟨c,same,same',klass⟩ pair => ?_
      subst same same'
      have classes : ∀ b ∈ some c, ∃ n, V.IsClass b n := fun b hb =>
        Option.mem_some_iff.mp hb ▸ klass
      exact (h.declareClass keeps (by exact fit) classes pair).bind
        fun V _ _ m k _ _ _ pair => .pure .none pair

theorem executeAll_perform {ss : List Stmt} (fit : BodyFits C.spelling C.use Γ ss)
    (pair : C.Pair W Γ m k) :
    C.Ends W C.Signalled (fun _ => Γ) ((Task.executeAll ss).perform E m)
      ((Task.executeAll (respellAll C.spelling Γ.origins ss)).perform E k) := by
  cases ss with
  | nil => exact .pure .none pair
  | cons s ss =>
    obtain ⟨fits,fit⟩ := fit
    refine (h.execute fits pair).bind fun V _ _ m k _ _ signal pair => ?_
    cases signal with
    | none =>
      have ends := h.executeAll fit pair
      rw [Context.origins_afterStmt] at ends
      exact ends.imp fun V _ _ m k _ signal pair => ⟨signal,pair.of_afterStmt⟩
    | leave => exact .pure .leave pair.of_afterStmt
    | next => exact .pure .next pair.of_afterStmt
    | «return» copied => exact .pure (.return copied) pair.of_afterStmt

/-- What a loop does after a round that did not end it. -/
theorem next_round {e : Expr} {s : Stmt} {i : Option Expr} :
    e.Fits (C.use Γ) Γ → s.Fits C.spelling C.use Γ → (∀ e ∈ i, e.Fits (C.use Γ) Γ) →
    C.Pair W Γ m k → C.Ends W C.Signalled (fun _ => Γ)
      ((match i with
        | some d => do
          let _ ← E (.execute (.expression d))
          E (.loop e s i)
        | none => E (.loop e s i) : Exec (Option Signal)) m)
      ((match i.map (·.respell C.spelling Γ.origins) with
        | some d => do
          let _ ← E (.execute (.expression d))
          E (.loop (e.respell C.spelling Γ.origins) (s.respell C.spelling Γ.origins)
            (i.map (·.respell C.spelling Γ.origins)))
        | none => E (.loop (e.respell C.spelling Γ.origins) (s.respell C.spelling Γ.origins)
            (i.map (·.respell C.spelling Γ.origins))) : Exec (Option Signal)) k) := by
  intro condition body increment pair
  cases i with
  | none => exact h.loop condition body increment pair
  | some d =>
    refine (h.execute (s := .expression d) (increment d rfl) pair).bind fun V _ _ m k _ _ _ pair => ?_
    exact h.loop condition body increment pair

theorem loop_perform {e : Expr} {s : Stmt} {i : Option Expr} (condition : e.Fits (C.use Γ) Γ)
    (body : s.Fits C.spelling C.use Γ) (increment : ∀ e ∈ i, e.Fits (C.use Γ) Γ)
    (pair : C.Pair W Γ m k) :
    C.Ends W C.Signalled (fun _ => Γ) ((Task.loop e s i).perform E m)
      ((Task.loop (e.respell C.spelling Γ.origins) (s.respell C.spelling Γ.origins)
        (i.map (·.respell C.spelling Γ.origins))).perform E k) := by
  refine (h.evaluate condition pair).bind fun V x _ m k _ _ ⟨_,same⟩ pair => ?_
  subst same
  rw [Value.isTruthy_move]
  split
  · refine (h.execute body pair).bind fun V _ _ m k _ _ signal pair => ?_
    have pair := pair.of_afterStmt
    cases signal with
    | none => exact h.next_round condition body increment pair
    | leave => exact .pure .none pair
    | next => exact h.next_round condition body increment pair
    | «return» copied => exact .pure (.return copied) pair
  · exact .pure .none pair

theorem perform (all : ∀ r o, C.made r o) : C.Faithful fun t => t.perform E where
  evaluate := h.evaluate_perform
  evaluateAll := h.evaluateAll_perform
  call := h.call_perform
  callFunction := h.callFunction_perform
  callBound method object hxs := h.callBound_perform method object hxs fun _ _ => all _ _
  instantiate := h.instantiate_perform
  invoke around fits arity hxs := h.invoke_perform around fits arity hxs fun _ _ => all _ _
  execute fits := h.execute_perform fits fun _ _ _ => all _ _
  executeAll := h.executeAll_perform
  loop := h.loop_perform
  declareClass keeps fit classes := ends_declareClass keeps fit classes fun _ => all _ _

end Faithful

/-- The evaluator ends alike on copies, if environments may be made for all constructs. -/
theorem faithful (all : ∀ r o, C.made r o) (n : Nat) : C.Faithful (evaluator n) := by
  induction n with
  | zero =>
    constructor
    case declareClass => exact fun keeps fit classes => ends_declareClass keeps fit classes fun _ => all _ _
    all_goals
      intros
      exact .error (.refl _) .cut ‹_›
  | succ n ih =>
    rw [show evaluator (n + 1) = fun t => t.perform (evaluator n) from funext (evaluator_succ n)]
    exact ih.perform all

end Copying
end Lox
