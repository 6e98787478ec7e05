import Lox.Proofs.Eval.Balance
import Lox.Proofs.Eval.Tasks

/-! # What tasks ask for

Which tasks a task gives to the evaluator, and on which machines. `gives_of_asks` says it once, with
one case for each place where the evaluator calls itself. Whatever holds all along an evaluation
follows by cases.
-/
namespace Lox
open Machine Exec

/-! ## Computations that ask -/

section
variable {α β : Type} {E : Evaluator} {t u : Task} {m j : Machine}

/-- A computation that does not ask for a task does not depend on how that task breaks off. -/
theorem Sequential.asks_or {F : Evaluator → EStateM.Result Halt Machine α} (seq : Sequential F)
    (E : Evaluator) (t : Task) (m : Machine) : Asks F E t m ∨ ∀ h, F (E.failing t m h) = F E := by
  induction seq with
  | done x => exact .inr fun _ => rfl
  | @ask u k G breaks _ ih =>
    by_cases same : u = t ∧ k = m
    · obtain ⟨rfl,rfl⟩ := same
      refine .inl fun h => ?_
      obtain ⟨l,e⟩ := breaks h k
      refine ⟨l,?_⟩
      show G (E.failing u k h u k) _ = _
      rw [E.failing_self,e]
    · have other : ∀ h, G (E.failing t m h u k) (E.failing t m h) = G (E u k) (E.failing t m h) :=
        fun h => by rw [E.failing_other h same]
      cases answered : E u k with
      | error h' k' =>
        obtain ⟨l,e⟩ := breaks h' k'
        refine .inr fun h => (other h).trans ?_
        show G (E u k) _ = G (E u k) E
        rw [answered,e,e]
      | ok a k' =>
        rw [answered] at other
        rcases ih a k' with asks | same
        · refine .inl fun h => ?_
          obtain ⟨l,e⟩ := asks h
          exact ⟨l,(other h).trans e⟩
        · refine .inr fun h => (other h).trans ((same h).trans ?_)
          show G _ E = G (E u k) E
          rw [answered]

/-- A computation breaks off if a task does for which it asks. -/
theorem Sequential.breaks {F : Evaluator → EStateM.Result Halt Machine α} (seq : Sequential F)
    {h : Halt} {k : Machine} (asks : Asks F E t m) (broken : E t m = .error h k) :
    ∃ l, F E = .error h l := by
  induction seq with
  | done x =>
    obtain ⟨_,e⟩ := asks .cut
    obtain ⟨_,e'⟩ := asks (.fault .unresolved)
    exact nomatch e.symm.trans e'
  | @ask u i G breaks _ ih =>
    by_cases same : u = t ∧ i = m
    · obtain ⟨rfl,rfl⟩ := same
      obtain ⟨l,e⟩ := breaks h k
      exact ⟨l,by dsimp only; rw [broken,e]⟩
    · have other : ∀ h, G (E.failing t m h u i) (E.failing t m h) = G (E u i) (E.failing t m h) :=
        fun h => by rw [E.failing_other h same]
      cases answered : E u i with
      | error h' k' =>
        obtain ⟨l,e⟩ := breaks h' k'
        rw [answered] at other
        obtain ⟨_,a⟩ := asks .cut
        obtain ⟨_,b⟩ := asks (.fault .unresolved)
        have a := (e _).symm.trans ((other _).symm.trans a)
        have b := (e _).symm.trans ((other _).symm.trans b)
        cases a
        cases b
      | ok a k' =>
        rw [answered] at other
        refine (ih a k' fun h => ?_).imp fun l e => by dsimp only; rw [answered]; exact e
        obtain ⟨l,e⟩ := asks h
        exact ⟨l,(other h).symm.trans e⟩

theorem not_asks_const (x : EStateM.Result Halt Machine α) : ¬Asks (fun _ => x) E t m := by
  intro asks
  obtain ⟨_,e⟩ := asks .cut
  obtain ⟨_,e'⟩ := asks (.fault .unresolved)
  exact nomatch e.symm.trans e'

theorem eq_of_asks {k : Machine} (asks : Asks (fun E => E t k) E u j) : u = t ∧ j = k := by
  by_cases same : t = u ∧ k = j
  · exact ⟨same.1.symm,same.2.symm⟩
  · refine absurd (fun h => ?_) (not_asks_const (E t k) (E := E) (t := u) (m := j))
    obtain ⟨l,e⟩ := asks h
    exact ⟨l,(E.failing_other h same).symm.trans e⟩

theorem bind_eq_error {x : Exec α} {f : α → Exec β} {k : Machine} {h : Halt}
    (e : (x >>= f) m = .error h k) :
    x m = .error h k ∨ ∃ a l, x m = .ok a l ∧ f a l = .error h k := by
  simp only [Bind.bind,EStateM.bind] at e
  cases first : x m with
  | ok a l => exact .inr ⟨a,l,rfl,by rwa [first] at e⟩
  | error h' l =>
    rw [first] at e
    cases e
    exact .inl rfl

theorem map_eq_ok {x : Exec α} {f : α → β} {k : Machine} {b : β} (e : (f <$> x) m = .ok b k) :
    ∃ a, x m = .ok a k ∧ b = f a := by
  simp only [Functor.map,EStateM.map] at e
  cases first : x m with
  | ok a l =>
    rw [first] at e
    cases e
    exact ⟨a,rfl,rfl⟩
  | error h l =>
    rw [first] at e
    cases e

/-- What a sequence asks for, its first or its second part does. -/
theorem Asks.of_bind {x : Evaluator → Exec α} {f : Evaluator → α → Exec β} (hx : Orderly x)
    (asks : Asks (fun E => (x E >>= f E) m) E t j) :
    Asks (fun E => x E m) E t j ∨ ∃ a k, x E m = .ok a k ∧ Asks (fun E => f E a k) E t j := by
  rcases (hx m).asks_or E t j with first | same
  · exact .inl first
  · have later : ∀ h, ∃ l, (x E m = .error h l) ∨
        ∃ a k, x E m = .ok a k ∧ f (E.failing t j h) a k = .error h l := fun h => by
      obtain ⟨l,e⟩ := asks h
      refine ⟨l,?_⟩
      rw [← same h]
      exact bind_eq_error e
    cases first : x E m with
    | error h' l' =>
      rw [first] at later
      obtain ⟨_,a | ⟨_,_,a,_⟩⟩ := later .cut
      · obtain ⟨_,b | ⟨_,_,b,_⟩⟩ := later (.fault .unresolved)
        · cases a
          cases b
        · cases b
      · cases a
    | ok a k =>
      rw [first] at later
      refine .inr ⟨a,k,rfl,fun h => ?_⟩
      obtain ⟨l,e | ⟨_,_,e,broken⟩⟩ := later h
      · cases e
      · cases e
        exact ⟨l,broken⟩

theorem Asks.of_const_bind {x : Exec α} {f : Evaluator → α → Exec β}
    (asks : Asks (fun E => (x >>= f E) m) E t j) :
    ∃ a k, x m = .ok a k ∧ Asks (fun E => f E a k) E t j :=
  (Asks.of_bind (.const x) asks).resolve_left (not_asks_const _)

theorem Asks.of_give_bind {f : Evaluator → t.Answer → Exec β}
    (asks : Asks (fun E => (E t >>= f E) m) E u j) :
    (u = t ∧ j = m) ∨ ∃ a k, E t m = .ok a k ∧ Asks (fun E => f E a k) E u j :=
  (Asks.of_bind (.give t) asks).imp_left eq_of_asks

theorem Asks.of_afterwards {x : Evaluator → Exec α} {g : Machine → Machine}
    (asks : Asks (fun E => afterwards (x E) g m) E t j) : Asks (fun E => x E m) E t j := by
  intro h
  obtain ⟨l,e⟩ := asks h
  simp only [afterwards] at e
  split at e
  · cases e
  · next h' k e' =>
    cases e
    exact ⟨k,e'⟩

theorem Asks.of_releasing {x : Evaluator → Exec α}
    (asks : Asks (fun E => releasing (x E) m) E t j) : Asks (fun E => x E m) E t j := asks.of_afterwards

theorem Asks.of_keeping {v : Value} {x : Evaluator → Exec α}
    (asks : Asks (fun E => keeping v (x E) m) E t j) :
    Asks (fun E => x E { m with temps := v :: m.temps }) E t j := by
  obtain ⟨_,_,e,asks⟩ := asks.of_releasing.of_const_bind
  cases e
  exact asks

theorem Asks.of_inEnvironment {r : Ref} {x : Evaluator → Exec α}
    (asks : Asks (fun E => inEnvironment r (x E) m) E t j) :
    Asks (fun E => x E { m with current := r, saved := m.current :: m.saved }) E t j :=
  asks.of_afterwards

theorem Asks.of_inCall {f : Value} {x : Evaluator → Exec α}
    (asks : Asks (fun E => inCall f (x E) m) E t j) :
    Asks (fun E => x E { m with frames := f :: m.frames }) E t j := asks.of_afterwards

end

/-! ## Asking in a sequence -/

section
variable {α β : Type} {E : Evaluator} {t : Task} {m k j : Machine} {x : Evaluator → Exec α}
  {f : Evaluator → α → Exec β}

theorem asks_give (E : Evaluator) (t : Task) (m : Machine) : Asks (fun E => E t m) E t m := by
  intro h
  exact ⟨m,E.failing_self t m h⟩

theorem Asks.bind_left (asks : Asks (fun E => x E m) E t j) : Asks (fun E => (x E >>= f E) m) E t j := by
  intro h
  obtain ⟨l,e⟩ := asks h
  refine ⟨l,?_⟩
  simp only [Bind.bind,EStateM.bind,e]

theorem Asks.bind_right (hx : Orderly x) {a : α} (answered : x E m = .ok a k)
    (asks : Asks (fun E => f E a k) E t j) : Asks (fun E => (x E >>= f E) m) E t j := by
  rcases (hx m).asks_or E t j with first | same
  · exact first.bind_left
  · intro h
    obtain ⟨l,e⟩ := asks h
    refine ⟨l,?_⟩
    simp only [Bind.bind,EStateM.bind]
    rw [same h,answered]
    exact e

theorem Asks.afterwards {g : Machine → Machine} (asks : Asks (fun E => x E m) E t j) :
    Asks (fun E => afterwards (x E) g m) E t j := by
  intro h
  obtain ⟨l,e⟩ := asks h
  refine ⟨g l,?_⟩
  simp only [Exec.afterwards,e]

end

/-! ## The tasks that are asked for -/

/-- A node is counted and logged when its evaluation starts. -/
def beginNode (name : String) : Exec Unit := do
  tick
  traceNode name

section
variable (E : Evaluator)

/-- The callee and the arguments of a call that may start. -/
def Evaluator.prepare (callee : Expr) (paren : Pos) (args : List Expr) : Exec (Value × List Value) := do
  let f ← E (.evaluate callee)
  keep f
  let xs ← E (.evaluateAll args)
  trace .verbose fun _ => s!"  Arguments evaluated: count: {xs.length}"
  checkCall paren f xs.length
  return (f,xs)

/-- The call of a callee on its arguments. -/
def Evaluator.enter (paren : Pos) (f : Value) (xs : List Value) : Exec Value := do
  enterCall paren
  inCall f do
    traceCall f
    E (.call f xs)

/-- The tasks that a task gives to the evaluator, each with the machine it is performed on. -/
inductive Task.Gives : Task → Machine → Task → Machine → Prop
  | inner {m k pos e} : beginNode (Expr.grouping pos e).nodeName m = .ok () k →
      Gives (.evaluate (.grouping pos e)) m (.evaluate e) k
  | assigned {m k r e} : beginNode (Expr.assign r e).nodeName m = .ok () k →
      Gives (.evaluate (.assign r e)) m (.evaluate e) k
  | operand {m k op pos e} : beginNode (Expr.unary op pos e).nodeName m = .ok () k →
      Gives (.evaluate (.unary op pos e)) m (.evaluate e) k
  | left {m k op pos d e} : beginNode (Expr.binary d op pos e).nodeName m = .ok () k →
      Gives (.evaluate (.binary d op pos e)) m (.evaluate d) k
  | right {m k op pos d e x j} : beginNode (Expr.binary d op pos e).nodeName m = .ok () k →
      E (.evaluate d) k = .ok x j →
      Gives (.evaluate (.binary d op pos e)) m (.evaluate e) { j with temps := x :: j.temps }
  | first {m k op pos d e} : beginNode (Expr.logical d op pos e).nodeName m = .ok () k →
      Gives (.evaluate (.logical d op pos e)) m (.evaluate d) k
  | second {m k op pos d e x j} : beginNode (Expr.logical d op pos e).nodeName m = .ok () k →
      E (.evaluate d) k = .ok x j →
      Gives (.evaluate (.logical d op pos e)) m (.evaluate e) j
  | callee {m k i callee paren args} : beginNode (Expr.call callee paren args).nodeName m = .ok () k →
      trace .verbose (fun _ => "  Call node: " ++ callee.description) k = .ok () i →
      Gives (.evaluate (.call callee paren args)) m (.evaluate callee) i
  | arguments {m k i j callee paren args f} :
      beginNode (Expr.call callee paren args).nodeName m = .ok () k →
      trace .verbose (fun _ => "  Call node: " ++ callee.description) k = .ok () i →
      E (.evaluate callee) i = .ok f j →
      Gives (.evaluate (.call callee paren args)) m (.evaluateAll args) { j with temps := f :: j.temps }
  | entered {m k i j l o callee paren args f xs} :
      beginNode (Expr.call callee paren args).nodeName m = .ok () k →
      trace .verbose (fun _ => "  Call node: " ++ callee.description) k = .ok () i →
      E.prepare callee paren args i = .ok (f,xs) j → enterCall paren j = .ok () l →
      traceCall f { l with frames := f :: l.frames } = .ok () o →
      Gives (.evaluate (.call callee paren args)) m (.call f xs) o
  | object {m k e name} : beginNode (Expr.get e name).nodeName m = .ok () k →
      Gives (.evaluate (.get e name)) m (.evaluate e) k
  | target {m k d name e} : beginNode (Expr.set d name e).nodeName m = .ok () k →
      Gives (.evaluate (.set d name e)) m (.evaluate d) k
  | value {m k d name e x j} : beginNode (Expr.set d name e).nodeName m = .ok () k →
      E (.evaluate d) k = .ok x j →
      Gives (.evaluate (.set d name e)) m (.evaluate e) { j with temps := x :: j.temps }
  | argument {m e es} : Gives (.evaluateAll (e :: es)) m (.evaluate e) m
  | furtherArguments {m e es x k} : E (.evaluate e) m = .ok x k →
      Gives (.evaluateAll (e :: es)) m (.evaluateAll es) { k with temps := x :: k.temps }
  | bound {m f r xs} : Gives (.call (.bound f r) xs) m (.callBound f r xs) m
  | klass {m c xs} : m.heap.kindOf c = .klass → Gives (.call (.object c) xs) m (.instantiate c xs) m
  | function {m f xs} : m.heap.kindOf f ≠ .klass →
      Gives (.call (.object f) xs) m (.callFunction f xs) m
  | plain {m f xs routine closure} : m.heap.function f = .ok (routine,closure) →
      Gives (.callFunction f xs) m (.invoke routine closure xs) m
  | method {m f r xs routine closure env k j} : m.heap.function f = .ok (routine,closure) →
      newEnvironment closure m = .ok env k → define env "this" (.object r) k = .ok () j →
      Gives (.callBound f r xs) m (.invoke routine (some env) xs) j
  | initializer {m c xs r k f} : allocate (.instanceOf (some c) {}) m = .ok r k →
      k.heap.findMethod c "init" = .ok (some f) →
      Gives (.instantiate c xs) m (.callBound f r xs) { k with temps := .object r :: k.temps }
  | content {m routine enclosing xs env k j} : newEnvironment enclosing m = .ok env k →
      bindParameters env routine.params xs k = .ok () j →
      Gives (.invoke routine enclosing xs) m (.executeAll routine.body)
        { j with current := env, saved := j.current :: j.saved }
  | expression {m k e} : beginNode (Stmt.expression e).nodeName m = .ok () k →
      Gives (.execute (.expression e)) m (.evaluate e) k
  | printed {m k pos e} : beginNode (Stmt.print pos e).nodeName m = .ok () k →
      Gives (.execute (.print pos e)) m (.evaluate e) k
  | initial {m k name e} : beginNode (Stmt.var name (some e)).nodeName m = .ok () k →
      Gives (.execute (.var name (some e))) m (.evaluate e) k
  | block {m k pos form body i env j} : beginNode (Stmt.block pos form body).nodeName m = .ok () k →
      trace .verbose (fun _ => s!"eval_block_statement: len={body.length}") k = .ok () i →
      newEnvironment (some i.current) i = .ok env j →
      Gives (.execute (.block pos form body)) m (.executeAll body)
        { j with current := env, saved := j.current :: j.saved }
  | condition {m k pos e yes no} : beginNode (Stmt.branch pos e yes no).nodeName m = .ok () k →
      Gives (.execute (.branch pos e yes no)) m (.evaluate e) k
  | yes {m k pos e yes no x j} : beginNode (Stmt.branch pos e yes no).nodeName m = .ok () k →
      E (.evaluate e) k = .ok x j → x.isTruthy = true →
      Gives (.execute (.branch pos e yes no)) m (.execute yes) j
  | no {m k pos e yes no x j} : beginNode (Stmt.branch pos e yes (some no)).nodeName m = .ok () k →
      E (.evaluate e) k = .ok x j → x.isTruthy = false →
      Gives (.execute (.branch pos e yes (some no))) m (.execute no) j
  | rounds {m k pos form e s i} : beginNode (Stmt.loop pos form e s i).nodeName m = .ok () k →
      Gives (.execute (.loop pos form e s i)) m (.loop e s i) k
  | returned {m k pos e} : beginNode (Stmt.leave pos (some e)).nodeName m = .ok () k →
      Gives (.execute (.leave pos (some e))) m (.evaluate e) k
  | superclass {m k name r methods i} :
      beginNode (Stmt.klass name (some r) methods).nodeName m = .ok () k →
      trace .verbose (fun _ => "  ClassStatement node: " ++ name.text) k = .ok () i →
      Gives (.execute (.klass name (some r) methods)) m (.evaluate (.var r)) i
  | declared {m k name methods i} : beginNode (Stmt.klass name none methods).nodeName m = .ok () k →
      trace .verbose (fun _ => "  ClassStatement node: " ++ name.text) k = .ok () i →
      Gives (.execute (.klass name none methods)) m (.declareClass name none methods) i
  | derived {m k name r methods i x j c l} :
      beginNode (Stmt.klass name (some r) methods).nodeName m = .ok () k →
      trace .verbose (fun _ => "  ClassStatement node: " ++ name.text) k = .ok () i →
      E (.evaluate (.var r)) i = .ok x j → checkSuperclass r x j = .ok c l →
      Gives (.execute (.klass name (some r) methods)) m (.declareClass name (some c) methods) l
  | statement {m s rest} : Gives (.executeAll (s :: rest)) m (.execute s) m
  | furtherStatements {m s rest k} : E (.execute s) m = .ok none k →
      Gives (.executeAll (s :: rest)) m (.executeAll rest) k
  | test {m e s i} : Gives (.loop e s i) m (.evaluate e) m
  | body {m e s i x k} : E (.evaluate e) m = .ok x k → x.isTruthy = true →
      Gives (.loop e s i) m (.execute s) k
  | increment {m e s i x k a j} : E (.evaluate e) m = .ok x k → x.isTruthy = true →
      E (.execute s) k = .ok a j → a = none ∨ a = some .next →
      Gives (.loop e s (some i)) m (.execute (.expression i)) j
  | again {m e s x k a j} : E (.evaluate e) m = .ok x k → x.isTruthy = true →
      E (.execute s) k = .ok a j → a = none ∨ a = some .next →
      Gives (.loop e s none) m (.loop e s none) j
  | incremented {m e s i x k a j b l} : E (.evaluate e) m = .ok x k → x.isTruthy = true →
      E (.execute s) k = .ok a j → a = none ∨ a = some .next →
      E (.execute (.expression i)) j = .ok b l →
      Gives (.loop e s (some i)) m (.loop e s (some i)) l

end

section
variable {α : Type} {E : Evaluator} {t u : Task} {m j : Machine}

theorem Asks.of_beginNode {name : String} {x : Evaluator → Exec α}
    (asks : Asks (fun E => (do tick; traceNode name; x E) m) E u j) :
    ∃ k, beginNode name m = .ok () k ∧ Asks (fun E => x E k) E u j := by
  obtain ⟨_,_,ticked,asks⟩ := asks.of_const_bind
  obtain ⟨_,k,traced,asks⟩ := asks.of_const_bind
  exact ⟨k,bind_eq_ok.mpr ⟨_,_,ticked,traced⟩,asks⟩

theorem Evaluator.prepare_bind (callee : Expr) (paren : Pos) (args : List Expr)
    (g : Value × List Value → Exec α) : (E.prepare callee paren args >>= g) = (do
      let f ← E (.evaluate callee)
      keep f
      let xs ← E (.evaluateAll args)
      trace .verbose fun _ => s!"  Arguments evaluated: count: {xs.length}"
      checkCall paren f xs.length
      g (f,xs)) := by
  simp only [Evaluator.prepare,bind_assoc,pure_bind]

theorem perform_call (callee : Expr) (paren : Pos) (args : List Expr) :
    (Task.evaluate (.call callee paren args)).perform E = (do
      tick
      traceNode (Expr.call callee paren args).nodeName
      trace .verbose fun _ => "  Call node: " ++ callee.description
      releasing do
        let p ← E.prepare callee paren args
        E.enter paren p.1 p.2) := by
  rw [E.prepare_bind]
  rfl

theorem orderly_prepare (callee : Expr) (paren : Pos) (args : List Expr) :
    Orderly fun E => E.prepare callee paren args :=
  .bind (.give _) fun _ => .bind (.const _) fun _ => .bind (.give _) fun _ => .bind (.const _) fun _ =>
    .bind (.const _) fun _ => .const _

theorem gives_of_asks_call {callee : Expr} {paren : Pos} {args : List Expr}
    (asks : Asks (fun E => (Task.evaluate (.call callee paren args)).perform E m) E u j) :
    (Task.evaluate (.call callee paren args)).Gives E m u j := by
  simp only [perform_call] at asks
  obtain ⟨k,begun,asks⟩ := asks.of_beginNode
  obtain ⟨_,i,traced,asks⟩ := asks.of_const_bind
  rcases Asks.of_bind (orderly_prepare callee paren args) asks.of_releasing with
    asks | ⟨⟨f,xs⟩,l,prepared,asks⟩
  · rcases asks.of_give_bind with ⟨rfl,rfl⟩ | ⟨f,l,evaluated,asks⟩
    · exact .callee begun traced
    obtain ⟨_,_,kept,asks⟩ := asks.of_const_bind
    cases kept
    rcases asks.of_give_bind with ⟨rfl,rfl⟩ | ⟨xs,o,-,asks⟩
    · exact .arguments begun traced evaluated
    · exact absurd asks (not_asks_const _)
  · obtain ⟨_,o,entered,asks⟩ := asks.of_const_bind
    obtain ⟨_,_,logged,asks⟩ := asks.of_inCall.of_const_bind
    obtain ⟨rfl,rfl⟩ := eq_of_asks asks
    exact .entered begun traced prepared entered logged

theorem gives_of_asks_evaluate {e : Expr} (asks : Asks (fun E => (Task.evaluate e).perform E m) E u j) :
    (Task.evaluate e).Gives E m u j := by
  cases e with
  | call callee paren args => exact gives_of_asks_call asks
  | literal | var | this | super =>
    obtain ⟨k,-,asks⟩ := asks.of_beginNode
    exact absurd asks (not_asks_const _)
  | grouping pos e =>
    obtain ⟨k,begun,asks⟩ := asks.of_beginNode
    obtain ⟨rfl,rfl⟩ := eq_of_asks asks
    exact .inner begun
  | assign r e =>
    obtain ⟨k,begun,asks⟩ := asks.of_beginNode
    rcases asks.of_give_bind with ⟨rfl,rfl⟩ | ⟨x,l,-,asks⟩
    · exact .assigned begun
    · exact absurd asks (not_asks_const _)
  | unary op pos e =>
    obtain ⟨k,begun,asks⟩ := asks.of_beginNode
    rcases asks.of_give_bind with ⟨rfl,rfl⟩ | ⟨x,l,-,asks⟩
    · exact .operand begun
    · exact absurd asks (not_asks_const _)
  | binary d op pos e =>
    obtain ⟨k,begun,asks⟩ := asks.of_beginNode
    rcases asks.of_give_bind with ⟨rfl,rfl⟩ | ⟨x,l,evaluated,asks⟩
    · exact .left begun
    rcases Asks.of_bind (.keeping x (.give _)) asks with asks | ⟨_,_,-,asks⟩
    · obtain ⟨rfl,rfl⟩ := eq_of_asks asks.of_keeping
      exact .right begun evaluated
    · exact absurd asks (not_asks_const _)
  | logical d op pos e =>
    cases op with
    | or =>
      obtain ⟨k,begun,asks⟩ := asks.of_beginNode
      rcases asks.of_give_bind with ⟨rfl,rfl⟩ | ⟨x,l,evaluated,asks⟩
      · exact .first begun
      cases truthy : x.isTruthy with
      | true =>
        simp only [truthy,if_true] at asks
        exact absurd asks (not_asks_const _)
      | false =>
        simp only [truthy,Bool.false_eq_true,if_false] at asks
        obtain ⟨rfl,rfl⟩ := eq_of_asks asks
        exact .second begun evaluated
    | and =>
      obtain ⟨k,begun,asks⟩ := asks.of_beginNode
      rcases asks.of_give_bind with ⟨rfl,rfl⟩ | ⟨x,l,evaluated,asks⟩
      · exact .first begun
      cases truthy : x.isTruthy with
      | true =>
        simp only [truthy,if_true] at asks
        obtain ⟨rfl,rfl⟩ := eq_of_asks asks
        exact .second begun evaluated
      | false =>
        simp only [truthy,Bool.false_eq_true,if_false] at asks
        exact absurd asks (not_asks_const _)
  | get e name =>
    obtain ⟨k,begun,asks⟩ := asks.of_beginNode
    rcases asks.of_give_bind with ⟨rfl,rfl⟩ | ⟨x,l,-,asks⟩
    · exact .object begun
    · exact absurd asks (not_asks_const _)
  | set d name e =>
    obtain ⟨k,begun,asks⟩ := asks.of_beginNode
    rcases asks.of_give_bind with ⟨rfl,rfl⟩ | ⟨x,l,evaluated,asks⟩
    · exact .target begun
    obtain ⟨r,o,found,asks⟩ := asks.of_const_bind
    have same : o = l := by
      cases x <;> cases found <;> rfl
    cases r with
    | none => exact absurd asks (not_asks_const _)
    | some r =>
      rcases Asks.of_bind (.keeping x (.give _)) asks with asks | ⟨_,_,-,asks⟩
      · obtain ⟨rfl,rfl⟩ := eq_of_asks asks.of_keeping
        exact .value begun (same ▸ evaluated)
      · exact absurd asks (not_asks_const _)

theorem gives_of_asks_execute {s : Stmt} (asks : Asks (fun E => (Task.execute s).perform E m) E u j) :
    (Task.execute s).Gives E m u j := by
  obtain ⟨k,begun,asks⟩ := Asks.of_beginNode asks
  cases s with
  | expression e =>
    rcases asks.of_give_bind with ⟨rfl,rfl⟩ | ⟨x,l,-,asks⟩
    · exact .expression begun
    · exact absurd asks (not_asks_const _)
  | print pos e =>
    rcases asks.of_give_bind with ⟨rfl,rfl⟩ | ⟨x,l,-,asks⟩
    · exact .printed begun
    · exact absurd asks (not_asks_const _)
  | var name init =>
    cases init with
    | none => exact absurd asks (not_asks_const _)
    | some e =>
      rcases asks.of_give_bind with ⟨rfl,rfl⟩ | ⟨x,l,-,asks⟩
      · exact .initial begun
      · exact absurd asks (not_asks_const _)
  | block pos form body =>
    obtain ⟨_,i,traced,asks⟩ := asks.of_const_bind
    obtain ⟨_,_,here,asks⟩ := asks.of_const_bind
    cases here
    obtain ⟨env,l,made,asks⟩ := asks.of_const_bind
    obtain ⟨rfl,rfl⟩ := eq_of_asks asks.of_inEnvironment
    exact .block begun traced made
  | branch pos e yes no =>
    rcases asks.of_give_bind with ⟨rfl,rfl⟩ | ⟨x,l,evaluated,asks⟩
    · exact .condition begun
    cases truthy : x.isTruthy with
    | true =>
      simp only [truthy,if_true] at asks
      obtain ⟨rfl,rfl⟩ := eq_of_asks asks
      exact .yes begun evaluated truthy
    | false =>
      simp only [truthy,Bool.false_eq_true,if_false] at asks
      cases no with
      | none => exact absurd asks (not_asks_const _)
      | some no =>
        obtain ⟨rfl,rfl⟩ := eq_of_asks asks
        exact .no begun evaluated truthy
  | loop pos form e s i =>
    obtain ⟨rfl,rfl⟩ := eq_of_asks asks
    exact .rounds begun
  | jump pos way => cases way <;> exact absurd asks (not_asks_const _)
  | leave pos value =>
    cases value with
    | none => exact absurd asks (not_asks_const _)
    | some e =>
      rcases asks.of_give_bind with ⟨rfl,rfl⟩ | ⟨x,l,-,asks⟩
      · exact .returned begun
      · exact absurd asks (not_asks_const _)
  | function routine => exact absurd asks (not_asks_const _)
  | klass name superclass methods =>
    obtain ⟨_,i,traced,asks⟩ := asks.of_const_bind
    have asks := asks.of_releasing
    cases superclass with
    | none =>
      obtain ⟨_,_,here,asks⟩ := asks.of_const_bind
      cases here
      rcases asks.of_give_bind with ⟨rfl,rfl⟩ | ⟨x,l,-,asks⟩
      · exact .declared begun traced
      · exact absurd asks (not_asks_const _)
    | some r =>
      rcases asks.of_give_bind with ⟨rfl,rfl⟩ | ⟨x,l,evaluated,asks⟩
      · exact .superclass begun traced
      obtain ⟨_,o,mapped,asks⟩ := asks.of_const_bind
      obtain ⟨c,checked,rfl⟩ := map_eq_ok mapped
      rcases asks.of_give_bind with ⟨rfl,rfl⟩ | ⟨x,l,-,asks⟩
      · exact .derived begun traced evaluated checked
      · exact absurd asks (not_asks_const _)

theorem gives_of_asks_loop {e : Expr} {s : Stmt} {i : Option Expr}
    (asks : Asks (fun E => (Task.loop e s i).perform E m) E u j) : (Task.loop e s i).Gives E m u j := by
  rcases Asks.of_give_bind asks with ⟨rfl,rfl⟩ | ⟨x,k,evaluated,asks⟩
  · exact .test
  cases truthy : x.isTruthy with
  | false =>
    simp only [truthy,Bool.false_eq_true,if_false] at asks
    exact absurd asks (not_asks_const _)
  | true =>
    simp only [truthy,if_true] at asks
    rcases asks.of_give_bind with ⟨rfl,rfl⟩ | ⟨a,l,executed,asks⟩
    · exact .body evaluated truthy
    have further : a = none ∨ a = some .next → (Task.loop e s i).Gives E m u j := fun goes => by
      cases i with
      | none =>
        have asks : Asks (fun E => E (.loop e s none) l) E u j := by
          rcases goes with rfl | rfl <;> exact asks
        obtain ⟨rfl,rfl⟩ := eq_of_asks asks
        exact .again evaluated truthy executed goes
      | some i =>
        have asks : Asks (fun E => (E (.execute (.expression i)) >>= fun _ => E (.loop e s (some i))) l)
            E u j := by
          rcases goes with rfl | rfl <;> exact asks
        rcases asks.of_give_bind with ⟨rfl,rfl⟩ | ⟨b,o,incremented,asks⟩
        · exact .increment evaluated truthy executed goes
        · obtain ⟨rfl,rfl⟩ := eq_of_asks asks
          exact .incremented evaluated truthy executed goes incremented
    rcases a with _ | _ | _ | _
    case none => exact further (.inl rfl)
    case some.next => exact further (.inr rfl)
    all_goals exact absurd asks (not_asks_const _)

theorem reading_eq_ok {α : Type} {pos : Pos} {f : Heap Value → Except Failure α} {k : Machine} {a : α}
    (h : reading pos f m = .ok a k) : f m.heap = .ok a ∧ k = m := by
  simp only [reading] at h
  split at h
  · next e =>
    cases h
    exact ⟨e,rfl⟩
  · cases h

theorem gives_of_asks_call_of {f : Value} {xs : List Value}
    (asks : Asks (fun E => (Task.call f xs).perform E m) E u j) : (Task.call f xs).Gives E m u j := by
  cases f with
  | bound f r =>
    obtain ⟨rfl,rfl⟩ := eq_of_asks asks
    exact .bound
  | object r =>
    by_cases kind : m.heap.kindOf r = .klass
    · simp only [perform_call_of_class _ _ kind] at asks
      obtain ⟨rfl,rfl⟩ := eq_of_asks asks
      exact .klass kind
    · simp only [perform_call_of_not_class _ _ kind] at asks
      obtain ⟨rfl,rfl⟩ := eq_of_asks asks
      exact .function kind
  | _ => exact absurd asks (not_asks_const _)

theorem gives_of_asks (asks : Asks (fun E => t.perform E m) E u j) : t.Gives E m u j := by
  cases t with
  | evaluate e => exact gives_of_asks_evaluate asks
  | evaluateAll es =>
    cases es with
    | nil => exact absurd asks (not_asks_const _)
    | cons e es =>
      rcases Asks.of_give_bind asks with ⟨rfl,rfl⟩ | ⟨x,k,evaluated,asks⟩
      · exact .argument
      obtain ⟨_,_,kept,asks⟩ := asks.of_const_bind
      cases kept
      rcases asks.of_give_bind with ⟨rfl,rfl⟩ | ⟨xs,l,-,asks⟩
      · exact .furtherArguments evaluated
      · exact absurd asks (not_asks_const _)
  | call f xs => exact gives_of_asks_call_of asks
  | callFunction f xs =>
    obtain ⟨⟨routine,closure⟩,k,read,rest⟩ := Asks.of_const_bind asks
    obtain ⟨found,rfl⟩ := reading_eq_ok read
    obtain ⟨rfl,rfl⟩ := eq_of_asks rest
    exact .plain found
  | callBound f r xs =>
    obtain ⟨⟨routine,closure⟩,k,read,rest⟩ := Asks.of_const_bind asks
    obtain ⟨found,rfl⟩ := reading_eq_ok read
    obtain ⟨env,l,made,rest⟩ := rest.of_const_bind
    obtain ⟨_,o,defined,rest⟩ := rest.of_const_bind
    obtain ⟨rfl,rfl⟩ := eq_of_asks rest
    exact .method found made defined
  | instantiate c xs =>
    obtain ⟨_,k,live,rest⟩ := Asks.of_const_bind asks
    obtain ⟨-,rfl⟩ := reading_eq_ok live
    obtain ⟨r,l,made,rest⟩ := rest.of_const_bind
    obtain ⟨init,o,read,rest⟩ := rest.of_const_bind
    obtain ⟨found,rfl⟩ := reading_eq_ok read
    cases init with
    | none => exact absurd rest (not_asks_const _)
    | some f =>
      rcases Asks.of_bind (.keeping _ (.give _)) rest with rest | ⟨_,_,-,rest⟩
      · obtain ⟨rfl,rfl⟩ := eq_of_asks rest.of_keeping
        exact .initializer made found
      · exact absurd rest (not_asks_const _)
  | invoke routine enclosing xs =>
    obtain ⟨env,k,made,asks⟩ := Asks.of_const_bind asks
    obtain ⟨_,l,boundTo,asks⟩ := asks.of_const_bind
    rcases Asks.of_bind (.inEnvironment env (.give _)) asks with asks | ⟨a,_,-,asks⟩
    · obtain ⟨rfl,rfl⟩ := eq_of_asks asks.of_inEnvironment
      exact .content made boundTo
    · rcases a with _ | _ | _ | _ <;> exact absurd asks (not_asks_const _)
  | execute s => exact gives_of_asks_execute asks
  | executeAll ss =>
    cases ss with
    | nil => exact absurd asks (not_asks_const _)
    | cons s rest =>
      rcases Asks.of_give_bind asks with ⟨rfl,rfl⟩ | ⟨a,k,executed,asks⟩
      · exact .statement
      cases a with
      | none =>
        obtain ⟨rfl,rfl⟩ := eq_of_asks asks
        exact .furtherStatements executed
      | some signal => exact absurd asks (not_asks_const _)
  | loop e s i => exact gives_of_asks_loop asks
  | declareClass name superclass methods => exact absurd asks (not_asks_const _)

end

end Lox
