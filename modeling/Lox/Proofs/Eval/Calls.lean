import Lox.Proofs.Eval.Dispatch
import Lox.Proofs.Scope.Parameters
import Lox.Proofs.Session.Keeping

/-! # Calls

A call evaluates its callee and its arguments before anything else is done. Then either the callee is not
callable, or it takes another number of arguments, or calls nest too deep, or the callee is performed. A
function binds each parameter to the argument in its place, and a class makes its instance and has it
initialized.
-/
namespace Lox
open Machine Exec

/-! ## Parameters -/

/-- What a task executes breaks no rule of scope where it stands. -/
def Task.Flawless : Task → Prop
  | .invoke r _ _ => r.Flawless
  | .execute s => s.Flawless
  | .executeAll ss => BodyFlawless ss
  | .loop _ s i => s.Flawless ∧ ∀ e ∈ i, e.Flawless
  | .declareClass _ _ rs => ∀ r ∈ rs, r.Flawless
  | _ => True

theorem Task.Gives.flawless {E : Evaluator} {t u : Task} {m j : Machine} (gives : t.Gives E m u j)
    (heap : m.heap.Routines Routine.Flawless) (flawless : t.Flawless) : u.Flawless := by
  cases gives with
  | plain found | method found => exact heap _ _ (Heap.function_eq_ok found) _ _ rfl
  | content => exact Routine.Flawless.body flawless
  | yes => exact Stmt.Flawless.yes flawless
  | no =>
    obtain ⟨s,none⟩ := flawless
    exact ⟨s,(List.append_eq_nil_iff.mp none).2⟩
  | rounds => exact Stmt.Flawless.loop flawless
  | block =>
    obtain ⟨s,none⟩ := flawless
    exact ⟨_,none⟩
  | declared | derived => exact Stmt.Flawless.klass flawless
  | statement => exact (BodyFlawless.cons flawless).1
  | furtherStatements => exact (BodyFlawless.cons flawless).2
  | _ => first | trivial | exact flawless | exact flawless.1 | exact flawless.2 _ rfl

theorem lasting_flawless : Lasting (Heap.Routines Routine.Flawless) Task.Flawless where
  toStays := stays_routines (fun ⟨_,quiet⟩ => ⟨_,(List.append_eq_nil_iff.mp quiet).2⟩)
    fun flawless hr => flawless _ hr
  gives gives heap := gives.flawless heap
  asked _ _ _ asks := (gives_of_asks asks).founded
  empty := Heap.every_empty
  native f := bindable_routines _ f.name
  compiled clean _ hs := (flawless_of_compile clean).mem hs

theorem Bindings.set_of_notMem {α : Type} {b : Bindings α} {name : String} (new : name ∉ b.names) (x : α) :
    b.set name x = ⟨b.entries ++ [(name,x)]⟩ := by
  obtain ⟨l⟩ := b
  refine congrArg Bindings.mk ?_
  induction l with
  | nil => rfl
  | cons p l ih =>
    obtain ⟨other,later⟩ := not_or.mp (mt List.mem_cons.mpr new)
    rw [put,if_neg (Ne.symm other),List.cons_append]
    exact congrArg _ (ih later)

/-- Each parameter is bound to the argument in its place, and nothing else is bound. -/
theorem bindParameters_eq_ok {env : Ref} {ps : List Name} {xs : List Value} {m k : Machine}
    {values : Bindings Value} {outer : Option Ref} (bound : bindParameters env ps xs m = .ok () k)
    (found : m.heap.environment env = .ok (values,outer)) (same : xs.length = ps.length)
    (differ : (values.names ++ ps.map (·.text)).Nodup) :
    k.heap.environment env = .ok (⟨values.entries ++ (ps.map (·.text)).zip xs⟩,outer) := by
  induction ps generalizing xs m values with
  | nil =>
    cases bound
    rw [found,List.map_nil,List.zip_nil_left,List.append_nil]
  | cons p ps ih =>
    cases xs with
    | nil => cases same
    | cons x xs =>
      obtain ⟨_,l,defined,later⟩ := bind_eq_ok.mp bound
      obtain ⟨heap,wrote,rfl⟩ := onHeap_eq_ok defined
      obtain ⟨_,_,found',-,written⟩ := Heap.define_eq_ok wrote
      cases found.symm.trans found'
      have new : p.text ∉ values.names := fun again =>
        (List.nodup_append.mp differ).2.2 _ again _ List.mem_cons_self rfl
      rw [Bindings.set_of_notMem new] at written
      have split : values.names ++ (p :: ps).map (·.text) =
          Bindings.names ⟨values.entries ++ [(p.text,x)]⟩ ++ ps.map (·.text) := by
        simp [Bindings.names]
      rw [ih later written (Nat.succ.inj same) (split ▸ differ)]
      simp

/-- A new environment can be read. -/
theorem newEnvironment_eq_ok {enclosing : Option Ref} {env : Ref} {m k : Machine}
    (sec : Heap.Secure m.roots m.heap) (owned : ∀ e ∈ enclosing, m.heap.isRegistered e)
    (made : newEnvironment enclosing m = .ok env k) : k.heap.environment env = .ok ({},enclosing) := by
  have held : Heap.Secure (m.roots ++ (Object.environment (ν := Value) {} enclosing).references) m.heap := by
    refine ⟨sec.coherent,sec.closed,fun r hr => ?_⟩
    rcases List.mem_append.mp hr with hr | hr
    · exact sec.owned r hr
    · refine owned r ?_
      simpa [Object.references,Bindings.values] using hr
  rw [newEnvironment,allocate_eq] at made
  rcases held.place with ⟨h,e,placed⟩ | spoiled
  · rw [e] at made
    cases made
    rw [logJournal_eq]
    exact Heap.environment_of_cell (r := ⟨m.heap.cells.size⟩) placed.cell rfl rfl
  · cases e : Heap.place (.environment {} enclosing) m.roots m.heap with
    | ok r h =>
      rw [e] at spoiled
      exact spoiled.elim
    | error f h =>
      rw [e] at made
      cases made

/-- The body of a routine runs in an environment that binds its parameters to the arguments. -/
theorem environment_of_asks {r : Routine} {closure : Option Ref} {xs : List Value} {n : Nat} {k j : Machine}
    {u : Task} (safe : (Task.invoke r closure xs).Safe (n + 1) k) (flawless : r.Flawless)
    (same : xs.length = r.params.length)
    (asks : Asks (fun E => (Task.invoke r closure xs).perform E k) (evaluator n) u j) :
    u = .executeAll r.body ∧
      j.heap.environment j.current = .ok (⟨(r.params.map (·.text)).zip xs⟩,closure) := by
  obtain ⟨K,sec,held,-⟩ := safe.held
  have owned : ∀ e ∈ closure, k.heap.isRegistered e := fun e he =>
    sec.owned e (List.mem_append.mpr (held e he))
  cases gives_of_asks asks with
  | content made bound =>
    exact ⟨rfl,bindParameters_eq_ok bound (newEnvironment_eq_ok safe.secure owned made) same flawless.differ⟩

/-! ## Calls -/

/-- Behind a result the machine is changed, however it has been reached. -/
def behind {α : Type} (f : Machine → Machine) : EStateM.Result Halt Machine α → EStateM.Result Halt Machine α
  | .ok a m => .ok a (f m)
  | .error h m => .error h (f m)

theorem afterwards_eq {α : Type} (x : Exec α) (f : Machine → Machine) (m : Machine) :
    afterwards x f m = behind f (x m) := by
  simp only [afterwards]
  cases x m <;> rfl

/-- Arguments are evaluated from left to right, each while those before it are in use. -/
inductive InOrder : Nat → List Expr → Machine → List Value → Machine → Prop
  | none {n m} : InOrder (n + 1) [] m [] m
  | next {n e es m x k xs j} : evaluate n e m = .ok x k →
      InOrder n es { k with temps := x :: k.temps } xs j → InOrder (n + 1) (e :: es) m (x :: xs) j

theorem inOrder_of_evaluateAll {n : Nat} {es : List Expr} {m k : Machine} {xs : List Value}
    (evaluated : evaluateAll n es m = .ok xs k) : InOrder n es m xs k := by
  induction n generalizing es m xs with
  | zero => cases evaluated
  | succ n ih =>
    cases es with
    | nil =>
      cases evaluated
      exact .none
    | cons e es =>
      obtain ⟨x,l,first,later⟩ := bind_eq_ok.mp evaluated
      obtain ⟨_,_,kept,later⟩ := bind_eq_ok.mp later
      cases kept
      obtain ⟨xs,_,rest,done⟩ := bind_eq_ok.mp later
      cases done
      exact .next first (ih rest)

/-- The evaluation of a call has begun. -/
def Calling (callee : Expr) (paren : Pos) (args : List Expr) (m k : Machine) : Prop :=
  ∃ l, beginNode (Expr.call callee paren args).nodeName m = .ok () l ∧
    trace .verbose (fun _ => "  Call node: " ++ callee.description) l = .ok () k

/-- What is done with a callee and its arguments once they have been evaluated. -/
inductive Applied (n : Nat) (paren : Pos) (f : Value) (xs : List Value) (m : Machine) :
    EStateM.Result Halt Machine Value → Prop
  | notCallable : f.isCallable m.heap = false → Applied n paren f xs m (.error (.error ⟨.notCallable,paren⟩) m)
  | wrongArity {arity} : f.isCallable m.heap → f.arity m.heap = .ok arity → xs.length ≠ arity →
      Applied n paren f xs m (.error (.error ⟨.wrongArity arity xs.length,paren⟩) m)
  | tooDeep {refused calls} : f.isCallable m.heap → f.arity m.heap = .ok xs.length →
      m.calls.enter = (some refused,calls) →
      Applied n paren f xs m (.error (.error ⟨.tooDeep,paren⟩) { m with calls })
  | called {calls log} : f.isCallable m.heap → f.arity m.heap = .ok xs.length →
      m.calls.enter = (none,calls) →
      Applied n paren f xs m (behind (fun l => { l with frames := m.frames, calls := l.calls.exit })
        (call n f xs { m with frames := f :: m.frames, calls, log }))

/-- How the evaluation of a call ends: it is cut off, or the callee or its arguments break it off, or it is
applied to them. -/
inductive CallEnds (n : Nat) (callee : Expr) (paren : Pos) (args : List Expr) (m : Machine) :
    EStateM.Result Halt Machine Value → Prop
  | cut : m.steps = 0 → CallEnds n callee paren args m (.error .cut m)
  | callee {k h l} : Calling callee paren args m k → evaluate n callee k = .error h l →
      CallEnds n callee paren args m (.error h { l with temps := m.temps })
  | arguments {k f l h j} : Calling callee paren args m k → evaluate n callee k = .ok f l →
      evaluateAll n args { l with temps := f :: l.temps } = .error h j →
      CallEnds n callee paren args m (.error h { j with temps := m.temps })
  | applied {k f l xs j i x} : Calling callee paren args m k → evaluate n callee k = .ok f l →
      InOrder n args { l with temps := f :: l.temps } xs j →
      trace .verbose (fun _ => s!"  Arguments evaluated: count: {xs.length}") j = .ok () i →
      Applied n paren f xs i x → CallEnds n callee paren args m (behind ({ · with temps := m.temps }) x)

/-- What takes some number of arguments can be logged. -/
theorem Heap.inspect_of_arity {h : Heap Value} {r : Ref} {n : Nat} (arity : h.arity r = .ok n) :
    ∃ text, h.inspect r = .ok text := by
  have kind : h.kindOf r = ((h.object? r).map Object.kind).getD .plain := by
    simp only [kindOf,object?,Option.map_map]
    rfl
  rw [Heap.arity,kind,routine] at arity
  rw [inspect]
  cases object : h.object? r with
  | none =>
    rw [object] at arity
    cases arity
  | some o =>
    rw [object] at arity
    cases o with
    | function | klass => exact ⟨_,rfl⟩
    | _ => cases arity

theorem inspect_of_arity {f : Value} {h : Heap Value} {n : Nat} (arity : f.arity h = .ok n) :
    ∃ text, f.inspect h = .ok text := by
  cases f with
  | native => exact ⟨_,rfl⟩
  | bound f _ => exact Heap.inspect_of_arity arity
  | object r => exact Heap.inspect_of_arity arity
  | _ => cases arity

theorem traceCall_eq {f : Value} {m : Machine} {text : String} (inspected : f.inspect m.heap = .ok text) :
    ∃ log, traceCall f m = .ok () { m with log } := by
  simp only [traceCall,inspected]
  split
  · exact trace_eq _ _ m
  · exact ⟨m.log,rfl⟩

/-- A callee whose arity is known is applied to its arguments or refused. -/
theorem applied (n : Nat) (paren : Pos) {f : Value} (xs : List Value) {m : Machine}
    (known : f.isCallable m.heap → ∃ arity, f.arity m.heap = .ok arity) :
    Applied n paren f xs m ((do checkCall paren f xs.length; (evaluator n).enter paren f xs) m) := by
  simp only [Bind.bind,EStateM.bind,checkCall]
  cases callable : f.isCallable m.heap with
  | false => exact .notCallable callable
  | true =>
    obtain ⟨arity,takes⟩ := known callable
    simp only [if_true,takes]
    by_cases same : xs.length = arity
    · rw [if_pos same]
      subst same
      simp only [Evaluator.enter,Bind.bind,EStateM.bind,enterCall]
      cases entered : m.calls.enter with
      | mk refused calls =>
        cases refused with
        | some o => exact .tooDeep callable takes entered
        | none =>
          obtain ⟨text,inspected⟩ := inspect_of_arity takes
          obtain ⟨log,traced⟩ := traceCall_eq (m := { m with calls, frames := f :: m.frames }) inspected
          simp only [inCall,afterwards_eq,EStateM.bind,traced]
          exact .called callable takes entered
    · rw [if_neg same]
      exact .wrongArity callable takes same

/-- A call ends in one of these ways, if all callees tell how many arguments they take. -/
theorem callEnds {n : Nat} {callee : Expr} {paren : Pos} {args : List Expr} {m : Machine}
    (known : ∀ k f l xs j, Calling callee paren args m k → evaluate n callee k = .ok f l →
      evaluateAll n args { l with temps := f :: l.temps } = .ok xs j → f.isCallable j.heap →
      ∃ arity, f.arity j.heap = .ok arity) :
    CallEnds n callee paren args m (evaluate (n + 1) (.call callee paren args) m) := by
  have performs : evaluate (n + 1) (.call callee paren args) m =
      (Task.evaluate (.call callee paren args)).perform (evaluator n) m :=
    congrFun (evaluator_succ n (.evaluate (.call callee paren args))) m
  cases left : m.steps with
  | zero =>
    rw [performs,show (Task.evaluate (.call callee paren args)).perform (evaluator n) m = _ from
      tick_bind_of_eq_zero _ left]
    exact .cut left
  | succ steps =>
    obtain ⟨log,begun⟩ := trace_eq .verbose
      (fun _ => "eval_node: " ++ (Expr.call callee paren args).nodeName) { m with steps }
    obtain ⟨log',called⟩ := trace_eq .verbose (fun _ => "  Call node: " ++ callee.description)
      { m with steps, log }
    have calling : Calling callee paren args m { m with steps, log := log' } :=
      ⟨_,(tick_bind_of_eq_succ _ left).trans begun,called⟩
    rw [performs,perform_call,tick_bind_of_eq_succ _ left]
    simp only [Evaluator.prepare_bind]
    simp only [traceNode,Bind.bind,EStateM.bind,begun,called,releasing,afterwards_eq,keep]
    rw [show evaluator n (.evaluate callee) = evaluate n callee from rfl]
    cases evaluated : evaluate n callee { m with steps, log := log' } with
    | error h l => exact .callee calling evaluated
    | ok f l =>
      dsimp only
      rw [show evaluator n (.evaluateAll args) = evaluateAll n args from rfl]
      cases all : evaluateAll n args { l with temps := f :: l.temps } with
      | error h j => exact .arguments calling evaluated all
      | ok xs j =>
        obtain ⟨log,counted⟩ := trace_eq .verbose
          (fun _ => s!"  Arguments evaluated: count: {xs.length}") j
        dsimp only
        rw [counted]
        exact .applied calling evaluated (inOrder_of_evaluateAll all) counted
          (applied n paren xs (m := { j with log }) (known _ f l xs j calling evaluated all))

/-! ## The callee -/

namespace Calling
variable {callee : Expr} {paren : Pos} {args : List Expr} {m k : Machine}

theorem eq (calling : Calling callee paren args m k) : ∃ steps log, k = { m with steps, log } := by
  obtain ⟨l,begun,called⟩ := calling
  obtain ⟨_,i,ticked,traced⟩ := bind_eq_ok.mp begun
  simp only [tick] at ticked
  split at ticked
  · cases ticked
  · next steps left =>
    cases ticked
    obtain ⟨log,same⟩ := trace_eq .verbose
      (fun _ => "eval_node: " ++ (Expr.call callee paren args).nodeName) { m with steps }
    cases traced.symm.trans same
    obtain ⟨log',same⟩ := trace_eq .verbose (fun _ => "  Call node: " ++ callee.description)
      { m with steps, log }
    cases called.symm.trans same
    exact ⟨steps,log',rfl⟩

variable {n : Nat} {f : Value} {l : Machine}

/-- What a call asks for when it prepares its callee and its arguments. -/
theorem asks (calling : Calling callee paren args m k) {u : Task} {j : Machine}
    (prepares : Asks (fun E => E.prepare callee paren args k) (evaluator n) u j) :
    Asks (fun E => (Task.evaluate (.call callee paren args)).perform E m) (evaluator n) u j := by
  obtain ⟨i,begun,called⟩ := calling
  obtain ⟨_,_,ticked,traced⟩ := bind_eq_ok.mp begun
  simp only [perform_call]
  exact Asks.bind_right (.const _) ticked (Asks.bind_right (.const _) traced
    (Asks.bind_right (.const _) called (Asks.afterwards (Asks.bind_left prepares))))

theorem asks_callee (calling : Calling callee paren args m k) :
    Asks (fun E => (Task.evaluate (.call callee paren args)).perform E m) (evaluator n)
      (.evaluate callee) k :=
  calling.asks (Asks.bind_left (asks_give _ _ _))

theorem asks_arguments (calling : Calling callee paren args m k) (evaluated : evaluate n callee k = .ok f l) :
    Asks (fun E => (Task.evaluate (.call callee paren args)).perform E m) (evaluator n)
      (.evaluateAll args) { l with temps := f :: l.temps } :=
  calling.asks (Asks.bind_right (.give (.evaluate callee)) evaluated
    (Asks.bind_right (.const (keep f)) rfl (Asks.bind_left (asks_give _ _ _))))

end Calling

namespace Copying
variable {use : Context → Expr → Prop} {made : Ref → Origin → Prop} {W : World} {Γ : Context}
  {H : Nat → Task → Machine → Prop}

/-- What a task in a history answers is known to be what it has to be. -/
theorem History.answered (history : History use made H) {n : Nat} {t : Task} {m k : Machine} {a : t.Answer}
    (arose : H (n + 1) t m) (fits : t.Fits (known use made) W Γ) (pair : (known use made).Pair W Γ m m)
    (answers : evaluator (n + 1) t m = .ok a k) :
    ∃ V b, W.Grows V ∧ t.Copied (known use made) V a b ∧ (known use made).Pair V (t.leaves Γ) k k := by
  have faithful := history.faithful_within n
  have same := (history.confines faithful ⟨W,Γ,fits,pair⟩ arose).1
  have ends := faithful.ends_perform fits (history.allows arose) pair
  rw [← same,answers] at ends
  cases ends with
  | ok up copied pair => exact ⟨_,_,up,copied,pair⟩

/-- Whatever can be called takes some number of arguments, if classes can be searched. -/
theorem arity_of_holds {C : Copying} {h g : Heap Value} (held : C.heaps W h g) {f : Value} (holds : W.Holds f)
    (callable : f.isCallable h)
    (searched : ∀ c, f = .object c → h.kindOf c = .klass → ∃ init, h.findMethod c "init" = .ok init) :
    ∃ arity, f.arity h = .ok arity := by
  cases f with
  | native f => exact ⟨f.arity,rfl⟩
  | bound f r =>
    obtain ⟨⟨n,_,_,role,-⟩,-⟩ := holds
    exact ⟨n,(answers_arity_function held role).1⟩
  | object r =>
    cases holds with
    | @function n function =>
      obtain ⟨_,_,role,-⟩ := function
      exact ⟨n,(answers_arity_function held role).1⟩
    | @klass n klass =>
      have answers := answers_findMethod held klass "init"
      obtain ⟨_,_,role,-⟩ := klass
      have kind := (kindOf_eq held role).1
      obtain ⟨init,found⟩ := searched r rfl kind
      simp only [Value.arity,Heap.arity,kind,Role.kind,found,Bind.bind,Except.bind]
      rw [found] at answers
      cases init with
      | none => exact ⟨0,rfl⟩
      | some init =>
        generalize g.findMethod (C.ref r) "init" = other at answers
        cases answers with
        | ok both =>
          obtain ⟨k,_,_,role,-⟩ := both.1 init rfl
          obtain ⟨a,read,-⟩ := routine_eq held role
          exact ⟨a.arity,by simp only [read]; rfl⟩
    | instanceOf role => simp [Value.isCallable,(kindOf_eq held role).1,Role.kind] at callable
  | _ => cases callable

end Copying

/-! ## Instances -/

/-- What a class call that has come to an end has done. -/
structure Constructed (n : Nat) (c : Ref) (xs : List Value) (m : Machine) (r : Ref) (k : Machine) : Prop where
  own : k.heap.isRegistered r
  klass : ∃ fields, k.heap.object? r = some (.instanceOf (some c) fields)
  slot : k.heap.slotOf r = some m.heap.nextSlot
  /-- All objects ever made, released or not, have had other slots. -/
  new : ∀ q i, m.heap.slotOf q = some i → i < m.heap.nextSlot
  /-- The instance is made, and then the initializer of the nearest class on the chain is called on it. -/
  initialized : ∃ cs l, m.heap.Lineage c cs ∧ allocate (.instanceOf (some c) {}) m = .ok r l ∧
    match cs.findSome? (m.heap.methodOf · "init") with
    | none => k = l
    | some f => ∃ y j, callBound n f r xs { l with temps := .object r :: l.temps } = .ok y j ∧
        k = { j with temps := l.temps }

theorem slotOf_of_allocate {o : Object Value} {r : Ref} {m k : Machine} (made : allocate o m = .ok r k) :
    k.heap.slotOf r = some m.heap.nextSlot := by
  rw [allocate_eq,Heap.place_eq] at made
  cases e : Heap.register ⟨m.heap.cells.size⟩ m.roots { m.heap with cells := m.heap.cells.push { object := o } } with
  | error f h =>
    rw [e] at made
    cases made
  | ok slot h =>
    rw [e] at made
    cases made
    rw [logJournal_eq]
    have slot := Heap.slotOf_register e
    exact slot

theorem instantiate_eq_ok {n : Nat} {c : Ref} {xs : List Value} {m k : Machine} {x : Value}
    (done : instantiate (n + 1) c xs m = .ok x k) : ∃ r l init,
      allocate (.instanceOf (some c) {}) m = .ok r l ∧ l.heap.findMethod c "init" = .ok init ∧ x = .object r ∧
      match init with
      | none => k = l
      | some f => ∃ y j, callBound n f r xs { l with temps := .object r :: l.temps } = .ok y j ∧
          k = { j with temps := l.temps } := by
  obtain ⟨_,_,live,rest⟩ := bind_eq_ok.mp done
  obtain ⟨-,rfl⟩ := reading_eq_ok live
  obtain ⟨r,_,made,rest⟩ := bind_eq_ok.mp rest
  obtain ⟨init,l,read,rest⟩ := bind_eq_ok.mp rest
  obtain ⟨found,rfl⟩ := reading_eq_ok read
  refine ⟨r,l,init,made,found,?_⟩
  cases init with
  | none =>
    cases rest
    exact ⟨rfl,rfl⟩
  | some f =>
    obtain ⟨y,j,initialized,rest⟩ := bind_eq_ok.mp rest
    cases rest
    refine ⟨rfl,y,?_⟩
    simp only [keeping,releasing,afterwards_eq,keep,Bind.bind,EStateM.bind] at initialized
    cases called : callBound n f r xs { l with temps := .object r :: l.temps } with
    | error h o =>
      rw [called] at initialized
      cases initialized
    | ok y' o =>
      rw [called] at initialized
      cases initialized
      exact ⟨o,rfl,rfl⟩

/-- What a class call returns is the heap's own. -/
theorem Task.Safe.registered {n : Nat} {c : Ref} {xs : List Value} {m k : Machine} {x : Value}
    (safe : (Task.instantiate c xs).Safe n m) (done : Lox.instantiate n c xs m = .ok x k) :
    ∀ r ∈ Holder.refs x, k.heap.isRegistered r := by
  obtain ⟨bound,K,sec,hc,hxs⟩ := safe
  have ends := (simulates Heap.selfsame n n).instantiate bound bound hc hxs (twins_self sec).drop
  rw [show evaluator n (.instantiate c xs) m = _ from done] at ends
  cases ends with
  | ok _ tw =>
    obtain ⟨_,_,-,-,sec⟩ := tw
    exact fun r hr => sec.owned r (List.mem_append_right _ hr)
  | spoiled lax => exact lax.elim

/-- A class call that comes to an end returns a new instance of the class, in the next slot. -/
theorem constructed {n : Nat} {c : Ref} {xs : List Value} {m k : Machine} {x : Value}
    (safe : (Task.instantiate c xs).Safe (n + 1) m) (proper : m.heap.Proper) (kind : m.heap.kindOf c = .klass)
    (slotted : m.heap.Slotted) (done : instantiate (n + 1) c xs m = .ok x k) :
    ∃ r, x = .object r ∧ Constructed n c xs m r k := by
  obtain ⟨r,l,init,made,found,rfl,rest⟩ := instantiate_eq_ok done
  obtain rfl := allocate_eq_ok made
  obtain ⟨K,sec,hc,hxs⟩ := safe.held
  have owned : m.heap.isRegistered c := sec.owned c (List.mem_append_left K hc)
  obtain ⟨cs,lineage,-,-⟩ := proper.classed.lineage sec.closed owned kind
  have searched := proper.classed.findMethod lineage "init"
  -- The initializer is looked up behind the allocation, which has not changed the chain of the class.
  have allocates : Keeps (fun h => h.Ordinary ∧ m.heap.Lasts h) (evaluator 0)
      fun _ => allocate (.instanceOf (some c) {}) := (stays_ordinary_lasts m.heap).tidied.allocate fun h holds =>
    ⟨.make (by simp [Object.kind]) holds.1,holds.2.trans (Heap.lasts_create (.instanceOf (some c) {}) h)⟩
  have kept := allocates.state (m := m) ⟨proper.ordinary,.refl _⟩
  obtain ⟨cell,hcell,-,object⟩ := allocate_cell (.instanceOf (some c) {}) m
  rw [made] at kept hcell
  obtain ⟨ordinary,lasts⟩ := kept
  obtain rfl := lasts.findMethod searched found
  have own : k.heap.isRegistered ⟨m.heap.cells.size⟩ :=
    safe.registered done _ (List.mem_singleton_self _)
  have later : l.heap.Grows k.heap ∧ l.heap.Lasts k.heap := by
    cases init : cs.findSome? (m.heap.methodOf · "init") with
    | none =>
      simp only [init] at rest
      rw [rest]
      exact ⟨Heap.grows_refl _,.refl _⟩
    | some f =>
      simp only [init] at rest
      obtain ⟨y,j,called,rfl⟩ := rest
      have stays := ((kept_lasts l.heap).stays n (t := .callBound f ⟨m.heap.cells.size⟩ xs)
        (m := { l with temps := .object ⟨m.heap.cells.size⟩ :: l.temps }) trivial trivial ⟨ordinary,.refl _⟩).2
      have grows := (((balanced n).callBound f ⟨m.heap.cells.size⟩ xs).ok called).heap
      rw [show evaluator n (.callBound f ⟨m.heap.cells.size⟩ xs) _ = _ from called] at stays
      exact ⟨grows,stays⟩
  refine ⟨_,rfl,own,?_,later.1.slots.kept (slotOf_of_allocate made),slotted,cs,l,lineage,made,rest⟩
  obtain ⟨d,hd,same⟩ := later.2 _ cell hcell
  obtain ⟨d',live⟩ := Heap.live_of_isRegistered own
  obtain ⟨hd',live⟩ := Heap.live_eq_ok live
  cases hd.symm.trans hd'
  obtain ⟨live,object'⟩ := same.object live
  rw [object live] at object'
  generalize e : d.object = o at object'
  cases object' with
  | same | instanceOf => exact ⟨_,(Heap.object?_eq_some hd).trans (congrArg some e)⟩

end Lox
