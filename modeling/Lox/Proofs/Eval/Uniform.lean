import Lox.Proofs.Ast.Likeness
import Lox.Proofs.Eval.Asking
import Lox.Proofs.Heap.Failures
import Lox.Run

/-! # Uniform properties of the evaluator

A property that single operations have and that sequences and brackets keep is one of every task,
if it is one of the tasks that are asked for. Entering a call is left to the property itself: it is
the only operation that looks at the depth of calls.
-/
namespace Lox
open Machine Exec

/-- What operations see of a machine. -/
structure Machine.Sight where
  heap : Heap Value
  level : Level
  frames : List Value
  current : Ref
  globals : Ref

/-- What was read from the heap, or the error at a position. -/
def Exec.answering {α : Type} (pos : Pos) : Except Failure α → Exec α
  | .ok a => pure a
  | .error e => throw (e.halt pos)

def Machine.sight (m : Machine) : Machine.Sight := ⟨m.heap,m.level,m.frames,m.current,m.globals⟩

/-- The positions in a task are in a set. Functions bring their own. -/
def Task.Within (S : Pos → Prop) : Task → Prop
  | .evaluate e => e.Within S
  | .evaluateAll es => ArgumentsWithin S es
  | .invoke r _ _ => r.Within S
  | .execute s => s.Within S
  | .executeAll ss => BodyWithin S ss
  | .loop e s i => e.Within S ∧ s.Within S ∧ OptionWithin S i
  | .declareClass _ _ rs => RoutinesWithin S rs
  | .call _ _ | .callFunction _ _ | .callBound _ _ _ | .instantiate _ _ => True

/-- The runtime errors that a node raises by itself are in a set. Each stands at the operator, the name or
the closing parenthesis of the node. -/
def Expr.RaisesIn (F : RuntimeError → Prop) : Expr → Prop
  | .var r | .assign r _ => F ⟨.undefinedVariable r.name.text,r.name.pos⟩
  | .unary op pos _ => op = .minus → F ⟨.operandNotNumber,pos⟩
  | .binary _ op pos _ => (op = .plus → F ⟨.operandsNotAddable,pos⟩) ∧
    (op ≠ .plus → F ⟨.operandsNotNumbers,pos⟩) ∧ (op = .divide → F ⟨.divisionByZero,pos⟩)
  | .call _ paren _ => F ⟨.notCallable,paren⟩ ∧ (∀ n k, F ⟨.wrongArity n k,paren⟩) ∧ F ⟨.tooDeep,paren⟩
  | .get _ name => F ⟨.noProperties,name.pos⟩ ∧ F ⟨.undefinedProperty name.text,name.pos⟩
  | .set _ name _ => F ⟨.noFields,name.pos⟩
  | .super pos method _ => F ⟨.superclassNotClass,pos⟩ ∧ F ⟨.undefinedProperty method.text,method.pos⟩
  | .literal _ _ | .grouping _ _ | .logical _ _ _ _ | .this _ _ => True

/-- The runtime errors that a task raises by itself are in a set. Only nodes raise any. -/
def Task.RaisesIn (F : RuntimeError → Prop) : Task → Prop
  | .evaluate e => e.RaisesIn F
  | .execute (.klass _ (some r) _) => F ⟨.superclassNotClass,r.name.pos⟩
  | _ => True

theorem Expr.raisesIn_all (e : Expr) : e.RaisesIn fun _ => True := by
  cases e <;> simp [Expr.RaisesIn]

theorem Task.raisesIn_all (t : Task) : t.RaisesIn fun _ => True := by
  unfold Task.RaisesIn
  split
  · exact Expr.raisesIn_all _
  · trivial
  · trivial

theorem Expr.raisesIn_of_within {S : Pos → Prop} {e : Expr} (here : e.Within S) :
    e.RaisesIn fun e => S e.pos := by
  cases here with
  | var name | assign name _ => exact name.name.pos
  | unary pos _ => exact fun _ => pos
  | binary _ pos _ => exact ⟨fun _ => pos,fun _ => pos,fun _ => pos⟩
  | call _ paren _ => exact ⟨paren,fun _ _ => paren,paren⟩
  | get _ name => exact ⟨name.pos,name.pos⟩
  | set _ name _ => exact name.pos
  | super pos method => exact ⟨pos,method.pos⟩
  | _ => trivial

/-- A task whose positions are in a set raises errors there. -/
theorem Task.Within.raisesIn {S : Pos → Prop} {t : Task} (here : t.Within S) : t.RaisesIn fun e => S e.pos := by
  unfold Task.RaisesIn
  split
  · exact Expr.raisesIn_of_within here
  · cases here with
    | klass _ base _ =>
      cases base with
      | some base => exact base.name.pos
  · trivial

/-- A property of computations that operations have which leave the heap alone and raise errors of a set,
and that sequences and brackets keep. -/
structure Exec.Quiet (F : RuntimeError → Prop) (Holds : ∀ {α : Type}, (Evaluator → Exec α) → Prop) : Prop where
  pure {α : Type} (a : α) : Holds fun _ => (Pure.pure a : Exec α)
  raise {α : Type} {pos : Pos} {c : RuntimeError.Cause} : F ⟨c,pos⟩ → c ≠ .tooDeep →
    Holds fun _ => (Exec.raise pos c : Exec α)
  fault {α : Type} (f : Fault) : f.isArithmetic = false → Holds fun _ => (Exec.fault f : Exec α)
  bind {α β : Type} {x : Evaluator → Exec α} {f : Evaluator → α → Exec β} : Holds x →
    (∀ a, Holds fun E => f E a) → Holds fun E => x E >>= f E
  seeing {α : Type} {x : Sight → Evaluator → Exec α} : (∀ v, Holds (x v)) →
    Holds fun E m => x m.sight E m
  tick : Holds fun _ => Exec.tick
  log (message : String) : Holds fun _ => (fun m => .ok () { m with log := message :: m.log } : Exec Unit)
  keep (x : Value) : Holds fun _ => Exec.keep x
  print (text : String) : Holds fun _ => Exec.print text
  clock : Holds fun _ => readClock
  releasing {α : Type} {x : Evaluator → Exec α} : Holds x → Holds fun E => Exec.releasing (x E)
  inEnvironment {α : Type} (r : Ref) {x : Evaluator → Exec α} : Holds x →
    Holds fun E => Exec.inEnvironment r (x E)

/-- The environment of a call on a receiver. -/
def receiverEnvironment (closure : Option Ref) (receiver : Ref) : Exec Ref := do
  let env ← newEnvironment closure
  define env "this" (.object receiver)
  return env

/-- A method is called in an environment that binds `this`. -/
theorem perform_callBound (E : Evaluator) (f receiver : Ref) (xs : List Value) :
    (Task.callBound f receiver xs).perform E = (Exec.reading .start (·.function f) >>= fun p =>
      receiverEnvironment p.2 receiver >>= fun env => E (.invoke p.1 (some env) xs)) := by
  simp only [receiverEnvironment,bind_assoc,pure_bind]
  rfl

/-- A property of what a task writes to the heap. -/
structure Exec.Writes (Holds : ∀ {α : Type}, (Evaluator → Exec α) → Prop) (t : Task) : Prop where
  assign {r e} (x : Value) : t = .evaluate (.assign r e) → Holds fun _ => assignVariable r x
  set (pos : Pos) (r : Ref) (name : String) (x : Value) :
    Holds fun _ => Exec.onHeap pos (Heap.setField r name x)
  environment (enclosing : Option Ref) : Holds fun _ => newEnvironment enclosing
  instanceOf {c xs} : t = .instantiate c xs → Holds fun _ => Exec.allocate (.instanceOf (some c) {})
  receiver (closure : Option Ref) (receiver : Ref) : Holds fun _ => receiverEnvironment closure receiver
  parameters {r closure xs} (env : Ref) : t = .invoke r closure xs →
    Holds fun _ => bindParameters env r.params xs
  var {name init} (env : Ref) (x : Value) : t = .execute (.var name init) →
    Holds fun _ => Exec.define env name.text x
  function {r} : t = .execute (.function r) → Holds fun _ => declareFunction r
  declared {name superclass methods} : t = .declareClass name superclass methods →
    Holds fun _ => declareClass name superclass methods

/-- A property of computations that single operations have and that sequences and brackets keep. Operations
may blame the program for errors of a set. -/
structure Exec.Uniform (F : RuntimeError → Prop) (Holds : ∀ {α : Type}, (Evaluator → Exec α) → Prop) : Prop extends
    Exec.Quiet F @Holds where
  onHeap {α : Type} (pos : Pos) {op : HeapM Value α} :
    Heap.TameM (fun c => F ⟨c,pos⟩ ∧ c ≠ .tooDeep) op → Holds fun _ => Exec.onHeap pos op
  register (r : Ref) : Holds fun _ => registerObject r

namespace Exec.Quiet
variable {F : RuntimeError → Prop} {Holds : ∀ {α : Type}, (Evaluator → Exec α) → Prop} (u : Quiet F @Holds)
  {α : Type}
include u

theorem keeping (v : Value) {x : Evaluator → Exec α} (hx : Holds x) :
    Holds fun E => Exec.keeping v (x E) := u.releasing (u.bind (u.keep v) fun _ => hx)

/-- What was read without blaming the program. -/
theorem telling (pos : Pos) {r : Except Failure α} (plain : Heap.Plain r) :
    Holds fun _ => Exec.answering pos r := by
  cases r with
  | ok a => exact u.pure a
  | error e =>
    cases plain e rfl with
    | fault f calm => exact u.fault f calm

theorem answering {pos : Pos} {r : Except Failure α}
    (tame : Heap.Tame (fun c => F ⟨c,pos⟩ ∧ c ≠ .tooDeep) r) : Holds fun _ => Exec.answering pos r := by
  cases r with
  | ok a => exact u.pure a
  | error e =>
    cases tame e rfl with
    | fault f calm => exact u.fault f calm
    | cause allowed => exact u.raise allowed.1 allowed.2

theorem reads {pos : Pos} {f : Heap Value → Except Failure α}
    (answers : ∀ h, Holds fun _ => Exec.answering pos (f h)) : Holds fun _ => Exec.reading pos f := by
  have same : Exec.reading pos f = fun m => Exec.answering pos (f m.sight.heap) m := by
    funext m
    simp only [Exec.reading,sight]
    cases f m.heap <;> rfl
  rw [same]
  exact u.seeing (x := fun v _ => Exec.answering pos (f v.heap)) fun v => answers v.heap

theorem reading {pos : Pos} {f : Heap Value → Except Failure α}
    (tame : ∀ h, Heap.Tame (fun c => F ⟨c,pos⟩ ∧ c ≠ .tooDeep) (f h)) : Holds fun _ => Exec.reading pos f :=
  u.reads fun h => u.answering (tame h)

/-- A reading without blaming the program. -/
theorem looking (pos : Pos) {f : Heap Value → Except Failure α} (plain : ∀ h, Heap.Plain (f h)) :
    Holds fun _ => Exec.reading pos f := u.reads fun h => u.telling pos (plain h)

theorem trace (level : Level) (message : Unit → String) : Holds fun _ => Exec.trace level message := by
  have same : Exec.trace level message = fun m => (bif m.sight.level.logs level then
      fun m => .ok () { m with log := message () :: m.log } else Pure.pure () : Exec Unit) m := by
    funext m
    show (if m.level.logs level then _ else _) = (bif m.level.logs level then _ else _ : Exec Unit) m
    cases m.level.logs level <;> rfl
  rw [same]
  refine u.seeing (x := fun v _ => bif v.level.logs level then
    fun m => .ok () { m with log := message () :: m.log } else Pure.pure ()) fun v => ?_
  cases v.level.logs level with
  | false => exact u.pure ()
  | true => exact u.log _

theorem currentEnvironment : Holds fun _ => Exec.currentEnvironment :=
  u.seeing (x := fun v _ => Pure.pure v.current) fun v => u.pure v.current

theorem readVariable {r : Reference} (here : F ⟨.undefinedVariable r.name.text,r.name.pos⟩) :
    Holds fun _ => Lox.readVariable r := by
  obtain ⟨name,depth⟩ := r
  cases depth with
  | some d =>
    exact u.seeing (x := fun v _ => Exec.reading name.pos fun h => h.lookupAt v.current d name.text)
      fun v => u.looking name.pos fun h => Heap.plain_lookupAt h v.current d name.text
  | none =>
    exact u.seeing (x := fun v _ => Exec.reading name.pos fun h => h.lookup v.globals name.text)
      fun v => u.reading fun h => Heap.tame_lookup h v.globals ⟨here,nofun⟩

theorem instance? (x : Value) : Holds fun _ => Lox.instance? x := by
  cases x with
  | object r =>
    exact u.seeing (x := fun v _ => Pure.pure (if v.heap.kindOf r = .instanceOf then some r else none))
      fun v => u.pure _
  | _ => exact u.pure none

theorem class? (x : Value) : Holds fun _ => Lox.class? x := by
  cases x with
  | object r =>
    exact u.seeing (x := fun v _ => Pure.pure (if v.heap.kindOf r = .klass then some r else none))
      fun v => u.pure _
  | _ => exact u.pure none

theorem getProperty (object : Value) {name : Name} (refused : F ⟨.noProperties,name.pos⟩)
    (missing : F ⟨.undefinedProperty name.text,name.pos⟩) : Holds fun _ => Lox.getProperty object name := by
  refine u.bind (u.instance? object) fun o => ?_
  cases o with
  | none => exact u.raise refused (by simp)
  | some r =>
    refine u.bind (u.reading fun h => Heap.tame_property h r ⟨missing,nofun⟩) fun p => ?_
    cases p <;> exact u.pure _

theorem readThis (pos : Pos) (depth : Option Nat) : Holds fun _ => Lox.readThis pos depth := by
  cases depth with
  | none => exact u.fault _ rfl
  | some d =>
    exact u.seeing (x := fun v _ => Exec.reading pos fun h => h.lookupAt v.current d "this")
      fun v => u.looking pos fun h => Heap.plain_lookupAt h v.current d "this"

theorem readSuper {pos : Pos} (here : F ⟨.superclassNotClass,pos⟩) {method : Name}
    (there : F ⟨.undefinedProperty method.text,method.pos⟩) (depth : Option Nat) :
    Holds fun _ => Lox.readSuper pos method depth := by
  cases depth with
  | none => exact u.fault _ rfl
  | some d =>
    refine u.bind u.currentEnvironment fun env =>
      u.bind (u.looking pos fun h => Heap.plain_lookupAt h env d "super") fun s =>
      u.bind (u.looking pos fun h => Heap.plain_lookupAt h env (d - 1) "this") fun receiver =>
      u.bind (u.class? s) fun c => ?_
    split
    · exact u.raise here (by simp)
    · refine u.bind (u.looking pos fun h => Heap.plain_findMethod h _ method.text) fun f => ?_
      cases f with
      | none => exact u.raise there (by simp)
      | some f => exact u.pure _
    · exact u.fault _ rfl

theorem onNumbers {pos : Pos} (here : F ⟨.operandsNotNumbers,pos⟩) (x y : Value) {f : Float → Float → Exec Value}
    (h : ∀ a b, Holds fun _ => f a b) : Holds fun _ => Lox.onNumbers pos x y f := by
  simp only [Lox.onNumbers]
  split
  · exact h _ _
  · exact u.raise here (by simp)

theorem addValues {pos : Pos} (here : F ⟨.operandsNotAddable,pos⟩) (x y : Value) :
    Holds fun _ => Lox.addValues pos x y := by
  simp only [Lox.addValues.eq_def]
  split
  · exact u.pure _
  · exact u.pure _
  · exact u.raise here (by simp)

theorem divide {pos : Pos} (here : F ⟨.divisionByZero,pos⟩) (x y : Float) :
    Holds fun _ => Lox.divide pos x y := by
  simp only [Lox.divide]
  split
  · exact u.raise here (by simp)
  · exact u.pure _

theorem applyBinary {left right : Expr} {op : BinaryOp} {pos : Pos}
    (here : (Expr.binary left op pos right).RaisesIn F) (x y : Value) :
    Holds fun _ => Lox.applyBinary op pos x y := by
  obtain ⟨summands,operands,divisor⟩ := here
  cases op with
  | equal | notEqual => exact u.pure _
  | plus => exact u.addValues (summands rfl) x y
  | divide => exact u.onNumbers (operands nofun) x y (u.divide (divisor rfl))
  | minus | times | less | lessEqual | greater | greaterEqual =>
    exact u.onNumbers (operands nofun) x y fun _ _ => u.pure _

theorem applyUnary {op : UnaryOp} {pos : Pos} (here : op = .minus → F ⟨.operandNotNumber,pos⟩) (x : Value) :
    Holds fun _ => Lox.applyUnary op pos x := by
  simp only [Lox.applyUnary.eq_def]
  split
  · exact u.pure _
  · exact u.raise (here rfl) (by simp)
  · exact u.pure _

/-- A message about a value that is logged, or else not even made. -/
theorem described {x : Value} {y : String → Sight → Exec Unit} (hy : ∀ text v, Holds fun _ => y text v) :
    Holds fun _ => (fun m => if m.level.logs .verbose then
      match x.inspect m.heap with
      | .ok text => y text m.sight m
      | .error e => .error (e.halt .start) m
      else .ok () m : Exec Unit) := by
  have same : (fun m => if m.level.logs .verbose then
      match x.inspect m.heap with
      | .ok text => y text m.sight m
      | .error e => .error (e.halt .start) m
      else .ok () m : Exec Unit) = fun m => (bif m.sight.level.logs .verbose then
        Exec.answering .start (x.inspect m.sight.heap) >>= fun text => y text m.sight
        else Pure.pure () : Exec Unit) m := by
    funext m
    show _ = (bif m.level.logs .verbose then Exec.answering .start (x.inspect m.heap) >>= fun text =>
      y text m.sight else Pure.pure () : Exec Unit) m
    generalize m.level.logs .verbose = b
    cases b with
    | false => rfl
    | true => cases x.inspect m.heap <;> rfl
  rw [same]
  refine u.seeing (x := fun v _ => bif v.level.logs .verbose then
    Exec.answering .start (x.inspect v.heap) >>= fun text => y text v else Pure.pure ()) fun v => ?_
  cases v.level.logs .verbose with
  | false => exact u.pure ()
  | true => exact u.bind (u.telling .start (Heap.plain_inspect_value v.heap x)) fun text => hy text v

theorem traceCall (f : Value) : Holds fun _ => Lox.traceCall f :=
  u.described fun text v =>
    u.trace .verbose fun _ => s!"apply_function: Calling {text} (depth {v.frames.length})"

theorem traceBinary (op : BinaryOp) (x y : Value) : Holds fun _ => Lox.traceBinary op x y := by
  have same : Lox.traceBinary op x y = fun m => if m.level.logs .verbose then
      match x.inspect m.heap with
      | .ok l => (fun m => if m.level.logs .verbose then
          match y.inspect m.heap with
          | .ok r => Exec.trace .verbose (fun _ => s!"  Binary: {l} {op.symbol} {r}") m
          | .error e => .error (e.halt .start) m
          else .ok () m : Exec Unit) m
      | .error e => .error (e.halt .start) m
      else .ok () m := by
    funext m
    simp only [Lox.traceBinary]
    split
    · cases x.inspect m.heap <;> cases y.inspect m.heap <;> rfl
    · rfl
  rw [same]
  exact u.described fun l _ => u.described fun r _ =>
    u.trace .verbose fun _ => s!"  Binary: {l} {op.symbol} {r}"

theorem checkCall {pos : Pos} (refused : F ⟨.notCallable,pos⟩) (differs : ∀ n k, F ⟨.wrongArity n k,pos⟩)
    (f : Value) (count : Nat) : Holds fun _ => Lox.checkCall pos f count := by
  have same : Lox.checkCall pos f count = fun m => (bif f.isCallable m.sight.heap then
      Exec.answering pos (f.arity m.sight.heap) >>= fun arity =>
        bif count = arity then Pure.pure () else Exec.raise pos (.wrongArity arity count)
      else Exec.raise pos .notCallable : Exec Unit) m := by
    funext m
    show _ = (bif f.isCallable m.heap then Exec.answering pos (f.arity m.heap) >>= fun arity =>
      bif count = arity then Pure.pure () else Exec.raise pos (.wrongArity arity count)
      else Exec.raise pos .notCallable : Exec Unit) m
    simp only [Lox.checkCall]
    generalize f.isCallable m.heap = b
    cases b with
    | false => rfl
    | true =>
      cases f.arity m.heap with
      | error e => rfl
      | ok arity =>
        show (if count = arity then _ else _) = (bif count = arity then _ else _ : Exec Unit) m
        by_cases h : count = arity <;> simp only [h,decide_true,decide_false,if_true,if_false] <;> rfl
  rw [same]
  refine u.seeing (x := fun v _ => bif f.isCallable v.heap then
    Exec.answering pos (f.arity v.heap) >>= fun arity =>
      bif count = arity then Pure.pure () else Exec.raise pos (.wrongArity arity count)
    else Exec.raise pos .notCallable) fun v => ?_
  cases f.isCallable v.heap with
  | false => exact u.raise refused (by simp)
  | true =>
    refine u.bind (u.telling pos (Heap.plain_arity_value v.heap f)) fun arity => ?_
    cases decide (count = arity) with
    | true => exact u.pure ()
    | false => exact u.raise (differs _ _) (by simp)

theorem checkSuperclass {r : Reference} (here : F ⟨.superclassNotClass,r.name.pos⟩) (x : Value) :
    Holds fun _ => Lox.checkSuperclass r x := by
  refine u.bind (u.class? x) fun c => ?_
  cases c with
  | none => exact u.raise here (by simp)
  | some c => exact u.bind (u.keep x) fun _ => u.pure c

/-! ## Tasks -/

section
variable (give : ∀ t, Holds fun E => E t)
include give

/-- Everything that a call needs before it is entered. -/
theorem prepare {callee : Expr} {paren : Pos} {args : List Expr}
    (here : (Expr.call callee paren args).RaisesIn F) : Holds fun E => E.prepare callee paren args :=
  u.bind (give (.evaluate callee)) fun f => u.bind (u.keep f) fun _ =>
    u.bind (give (.evaluateAll args)) fun _ => u.bind (u.trace _ _) fun _ =>
    u.bind (u.checkCall here.1 here.2.1 _ _) fun _ => u.pure _

theorem perform_evaluate {e : Expr} (here : e.RaisesIn F) (w : Writes @Holds (.evaluate e))
    (other : ∀ callee paren args, e ≠ .call callee paren args) :
    Holds fun E => (Task.evaluate e).perform E := by
  refine u.bind u.tick fun _ => u.bind (u.trace _ _) fun _ => ?_
  cases e with
  | literal c _ => exact u.pure _
  | grouping _ inner => exact give (.evaluate inner)
  | var r => exact u.readVariable here
  | assign r value =>
    exact u.bind (give (.evaluate value)) fun x => u.bind (w.assign x rfl) fun _ => u.pure x
  | unary op pos right => exact u.bind (give (.evaluate right)) fun x => u.applyUnary here x
  | binary left op pos right =>
    exact u.bind (give (.evaluate left)) fun x => u.bind (u.keeping x (give (.evaluate right))) fun y =>
      u.bind (u.traceBinary op x y) fun _ => u.applyBinary here x y
  | logical left op _ right =>
    cases op with
    | or =>
      refine u.bind (give (.evaluate left)) fun x => ?_
      split
      · exact u.pure x
      · exact give (.evaluate right)
    | and =>
      refine u.bind (give (.evaluate left)) fun x => ?_
      split
      · exact give (.evaluate right)
      · exact u.pure x
  | call callee paren args => exact absurd rfl (other callee paren args)
  | get object name => exact u.bind (give (.evaluate object)) fun x => u.getProperty x here.1 here.2
  | set object name value =>
    refine u.bind (give (.evaluate object)) fun target => u.bind (u.instance? target) fun o => ?_
    cases o with
    | none => exact u.raise here (by simp)
    | some r =>
      exact u.bind (u.keeping target (give (.evaluate value))) fun x =>
        u.bind (w.set name.pos r name.text x) fun _ => u.pure x
  | this pos depth => exact u.readThis pos depth
  | super pos method depth => exact u.readSuper here.1 here.2 depth

theorem perform_execute {s : Stmt} (here : (Task.execute s).RaisesIn F) (w : Writes @Holds (.execute s)) :
    Holds fun E => (Task.execute s).perform E := by
  refine u.bind u.tick fun _ => u.bind (u.trace _ _) fun _ => ?_
  cases s with
  | expression e => exact u.bind (give (.evaluate e)) fun _ => u.pure _
  | print pos e =>
    exact u.bind (give (.evaluate e)) fun x =>
      u.bind (u.looking pos fun h => Heap.plain_inspect_value h x) fun _ =>
      u.bind (u.print _) fun _ => u.pure _
  | var name init =>
    have rest : ∀ x, Holds fun _ => (do
        let env ← Exec.currentEnvironment
        Exec.define env name.text x
        return (none : Option Signal)) := fun x =>
      u.bind u.currentEnvironment fun env => u.bind (w.var env x rfl) fun _ => u.pure _
    cases init with
    | none => exact rest .nil
    | some e => exact u.bind (give (.evaluate e)) rest
  | block _ _ body =>
    exact u.bind (u.trace _ _) fun _ => u.bind u.currentEnvironment fun _ =>
      u.bind (w.environment _) fun env => u.inEnvironment env (give (.executeAll body))
  | branch _ condition yes no =>
    refine u.bind (give (.evaluate condition)) fun x => ?_
    split
    · exact give (.execute yes)
    · cases no with
      | none => exact u.pure _
      | some no => exact give (.execute no)
  | loop _ _ condition body increment => exact give (.loop condition body increment)
  | jump _ j => cases j <;> exact u.pure _
  | leave _ value =>
    cases value with
    | none => exact u.pure _
    | some e => exact u.bind (give (.evaluate e)) fun _ => u.pure _
  | function r => exact u.bind (u.trace _ _) fun _ => u.bind (w.function rfl) fun _ => u.pure _
  | klass name superclass methods =>
    refine u.bind (u.trace _ _) fun _ => u.releasing ?_
    have rest : ∀ base, Holds fun E => (do
        E (.declareClass name base methods)
        return (none : Option Signal)) := fun base =>
      u.bind (give (.declareClass name base methods)) fun _ => u.pure _
    cases superclass with
    | none => exact rest none
    | some r =>
      refine u.bind (give (.evaluate (.var r))) fun x => u.bind ?_ rest
      have mapped : (fun _ : Evaluator => some <$> Lox.checkSuperclass r x) =
          fun _ => Lox.checkSuperclass r x >>= fun c => Pure.pure (some c) :=
        funext fun _ => map_eq_pure_bind _ _
      rw [mapped]
      exact u.bind (u.checkSuperclass here x) fun c => u.pure _

theorem perform_loop (e : Expr) (s : Stmt) (i : Option Expr) :
    Holds fun E => (Task.loop e s i).perform E := by
  refine u.bind (give (.evaluate e)) fun x => ?_
  split
  · refine u.bind (give (.execute s)) fun signal => ?_
    split
    · exact u.pure _
    · exact u.pure _
    · cases i with
      | none => exact give (.loop e s none)
      | some i => exact u.bind (give (.execute (.expression i))) fun _ => give (.loop e s (some i))
  · exact u.pure _

/-- A property of the tasks that are asked for and of what a task writes is one of the task, if it is no
call. -/
theorem perform_other {t : Task} (here : t.RaisesIn F) (w : Writes @Holds t)
    (other : ∀ callee paren args, t ≠ .evaluate (.call callee paren args)) :
    Holds fun E => t.perform E := by
  cases t with
  | evaluate e =>
    exact u.perform_evaluate give here w fun callee paren args same => other callee paren args (same ▸ rfl)
  | evaluateAll es =>
    cases es with
    | nil => exact u.pure _
    | cons e es =>
      exact u.bind (give (.evaluate e)) fun x => u.bind (u.keep x) fun _ =>
        u.bind (give (.evaluateAll es)) fun _ => u.pure _
  | call f xs =>
    cases f with
    | native _ => exact u.clock
    | bound f receiver => exact give (.callBound f receiver xs)
    | object r =>
      have same : (fun E : Evaluator => (Task.call (.object r) xs).perform E) = fun E m =>
          (bif m.sight.heap.kindOf r = .klass then E (.instantiate r xs) else E (.callFunction r xs)) m := by
        funext E m
        by_cases kind : m.heap.kindOf r = .klass
        · rw [perform_call_of_class E xs kind]
          simp only [sight,kind,decide_true,cond_true]
        · rw [perform_call_of_not_class E xs kind]
          simp only [sight,kind,decide_false,cond_false]
      rw [same]
      refine u.seeing (x := fun v E =>
        bif v.heap.kindOf r = .klass then E (.instantiate r xs) else E (.callFunction r xs)) fun v => ?_
      cases decide (v.heap.kindOf r = .klass) with
      | true => exact give (.instantiate r xs)
      | false => exact give (.callFunction r xs)
    | nil | bool _ | number _ | string _ => exact u.fault _ rfl
  | callFunction f xs =>
    exact u.bind (u.looking .start fun h => Heap.plain_function h f) fun p => give (.invoke p.1 p.2 xs)
  | callBound f receiver xs =>
    simp only [perform_callBound]
    exact u.bind (u.looking .start fun h => Heap.plain_function h f) fun p =>
      u.bind (w.receiver p.2 receiver) fun env => give (.invoke p.1 (some env) xs)
  | instantiate c xs =>
    refine u.bind (u.looking .start fun h => Heap.plain_live h c) fun _ => u.bind (w.instanceOf rfl) fun r =>
      u.bind (u.looking .start fun h => Heap.plain_findMethod h c "init") fun init => ?_
    cases init with
    | none => exact u.pure _
    | some f => exact u.bind (u.keeping _ (give (.callBound f r xs))) fun _ => u.pure _
  | invoke r enclosing xs =>
    refine u.bind (w.environment _) fun env => u.bind (w.parameters env rfl) fun _ =>
      u.bind (u.inEnvironment env (give (.executeAll r.body))) fun signal => ?_
    split <;> exact u.pure _
  | execute s => exact u.perform_execute give here w
  | executeAll ss =>
    cases ss with
    | nil => exact u.pure _
    | cons s ss =>
      refine u.bind (give (.execute s)) fun signal => ?_
      cases signal with
      | none => exact give (.executeAll ss)
      | some signal => exact u.pure _
  | loop e s i => exact u.perform_loop give e s i
  | declareClass name superclass methods => exact w.declared rfl

end

end Exec.Quiet

namespace Exec.Uniform
variable {F : RuntimeError → Prop} {Holds : ∀ {α : Type}, (Evaluator → Exec α) → Prop} (u : Uniform F @Holds)
  {α : Type}
include u

/-! ## Writing -/

/-- An operation that fails by a fault alone. -/
theorem touching (pos : Pos) {op : HeapM Value α} (plain : Heap.PlainM op) :
    Holds fun _ => Exec.onHeap pos op := u.onHeap pos plain.tame

theorem allocate (o : Object Value) : Holds fun _ => Exec.allocate o :=
  u.bind (u.touching .start (Heap.plainM_create o)) fun r => u.bind (u.register r) fun _ => u.pure r

theorem define (r : Ref) (name : String) (x : Value) : Holds fun _ => Exec.define r name x :=
  u.touching .start (Heap.plainM_define r name x)

theorem assignVariable {r : Reference} (here : F ⟨.undefinedVariable r.name.text,r.name.pos⟩) (x : Value) :
    Holds fun _ => Lox.assignVariable r x := by
  obtain ⟨name,depth⟩ := r
  cases depth with
  | some d =>
    exact u.seeing (x := fun v _ => Exec.onHeap name.pos (Heap.assignAt v.current d name.text x))
      fun v => u.onHeap name.pos (Heap.tameM_assignAt v.current d ⟨here,nofun⟩ x)
  | none =>
    exact u.seeing (x := fun v _ => Exec.onHeap name.pos (Heap.assign v.globals name.text x))
      fun v => u.onHeap name.pos (Heap.tameM_assign v.globals ⟨here,nofun⟩ x)

theorem bindParameters (env : Ref) (ps : List Name) (xs : List Value) :
    Holds fun _ => Lox.bindParameters env ps xs := by
  induction ps generalizing xs with
  | nil => exact u.pure ()
  | cons p ps ih =>
    cases xs with
    | nil => exact u.pure ()
    | cons x xs => exact u.bind (u.define env p.text x) fun _ => ih xs

theorem newMethods (closure : Ref) (rs : List Routine) (made : Bindings Ref) :
    Holds fun _ => Lox.newMethods closure rs made := by
  induction rs generalizing made with
  | nil => exact u.pure made
  | cons r rs ih =>
    exact u.bind (u.allocate _) fun f => u.bind (u.keep (.object f)) fun _ => ih _

theorem methodEnvironment (superclass : Option Ref) :
    Holds fun _ => Lox.methodEnvironment superclass := by
  refine u.bind u.currentEnvironment fun env => ?_
  cases superclass with
  | none => exact u.pure env
  | some c =>
    exact u.bind (u.allocate _) fun inner => u.bind (u.define inner "super" _) fun _ =>
      u.bind (u.keep _) fun _ => u.pure inner

theorem declareClass (name : Name) (superclass : Option Ref) (methods : List Routine) :
    Holds fun _ => Lox.declareClass name superclass methods :=
  u.bind (u.methodEnvironment superclass) fun closure => u.bind (u.newMethods closure methods {}) fun _ =>
    u.bind (u.allocate _) fun _ => u.bind u.currentEnvironment fun _ => u.define _ _ _

theorem declareFunction (r : Routine) : Holds fun _ => Lox.declareFunction r :=
  u.bind u.currentEnvironment fun _ => u.bind (u.allocate _) fun _ => u.define _ _ _

theorem writes {t : Task} (here : t.RaisesIn F) : Writes @Holds t where
  assign x same := by
    subst same
    exact u.assignVariable here x
  set pos r name x := u.touching pos (Heap.plainM_setField r name x)
  environment _ := u.allocate _
  instanceOf _ := u.allocate _
  receiver _ r := u.bind (u.allocate _) fun env => u.bind (u.define env "this" (.object r)) fun _ => u.pure env
  parameters env _ := u.bindParameters env _ _
  var env x _ := u.define env _ x
  function _ := u.declareFunction _
  declared _ := u.declareClass _ _ _

/-! ## Other globals -/

theorem installNatives (env : Ref) (fs : List Native) : Holds fun _ => Machine.installNatives env fs := by
  induction fs with
  | nil => exact u.pure ()
  | cons f rest ih =>
    refine u.bind (u.looking .start fun h => Heap.plain_environment h env) fun values => ?_
    dsimp only
    split
    · exact u.bind (u.define env f.name (.native f)) fun _ => ih
    · exact ih

/-- A uniform property of what leaves the heap alone is one of taking an environment for the globals. -/
theorem enterWorld (moves : ∀ f : Machine → Machine, (∀ m, (f m).heap = m.heap) →
    Holds fun _ => (fun m => .ok () (f m) : Exec Unit)) (env : Ref) : Holds fun _ => Machine.enterWorld env := by
  have rest : Holds fun _ => (do
      (fun m => .ok () (if m.worlds.contains env then m else { m with worlds := m.worlds ++ [env] }))
      Machine.installNatives env Native.all
      fun m => .ok () { m with globals := env } : Exec Unit) := by
    refine u.bind (moves _ fun m => ?_) fun _ => u.bind (u.installNatives env _) fun _ => moves _ fun _ => rfl
    split <;> rfl
  have same : Machine.enterWorld env = fun m => (bif env = m.sight.globals then Pure.pure () else do
      let _ ← Exec.reading .start (·.live env)
      if !m.sight.heap.isRegistered env then
        let _ ← registerObject env
      (fun m => .ok () (if m.worlds.contains env then m else { m with worlds := m.worlds ++ [env] }))
      Machine.installNatives env Native.all
      fun m => .ok () { m with globals := env } : Exec Unit) m := by
    funext m
    by_cases here : env = m.globals
    · simp only [Machine.enterWorld,sight,here,if_true,decide_true,cond_true]
      rfl
    · simp only [Machine.enterWorld,sight,here,if_false,decide_false,cond_false]
      rfl
  rw [same]
  refine u.seeing (x := fun v _ => bif env = v.globals then Pure.pure () else do
    let _ ← Exec.reading .start (·.live env)
    if !v.heap.isRegistered env then
      let _ ← registerObject env
    (fun m => .ok () (if m.worlds.contains env then m else { m with worlds := m.worlds ++ [env] }))
    Machine.installNatives env Native.all
    fun m => .ok () { m with globals := env }) fun v => ?_
  cases decide (env = v.globals) with
  | true => exact u.pure ()
  | false =>
    refine u.bind (u.looking .start fun h => Heap.plain_live h env) fun _ => ?_
    split
    · exact u.bind (u.register env) fun _ => rest
    · exact rest

section
variable (give : ∀ t, Holds fun E => E t)
include give

/-- A uniform property of the tasks that are asked for is one of every task but calls. -/
theorem perform_other {t : Task} (here : t.RaisesIn F)
    (other : ∀ callee paren args, t ≠ .evaluate (.call callee paren args)) :
    Holds fun E => t.perform E := u.toQuiet.perform_other give here (u.writes here) other

theorem perform {t : Task} (here : t.RaisesIn F) (calls : ∀ callee paren args,
    (Expr.call callee paren args).RaisesIn F →
      Holds fun E => (Task.evaluate (.call callee paren args)).perform E) : Holds fun E => t.perform E := by
  by_cases call : ∃ callee paren args, t = .evaluate (.call callee paren args)
  · obtain ⟨callee,paren,args,rfl⟩ := call
    exact calls callee paren args here
  · exact u.perform_other give here fun callee paren args same => call ⟨callee,paren,args,same⟩

end

end Exec.Uniform
end Lox
