import Lox.Proofs.Heap.History
import Lox.Eval

/-! # Tasks of the evaluator

The calls of the evaluator's functions as tasks. Performing a task gives other tasks to an
evaluator; under a bound on nested calls that is the evaluator with the next smaller bound. A task
is asked for if the whole breaks off whenever that task does. Since nothing else than the answers
to what is asked for can matter, what holds of every evaluator that answers well holds of the
evaluator itself, and then it was asked for nothing it was not made for.
-/
namespace Lox
open Exec

inductive Task
  | evaluate (e : Expr)
  | evaluateAll (es : List Expr)
  | call (f : Value) (xs : List Value)
  | callFunction (f : Ref) (xs : List Value)
  | callBound (f receiver : Ref) (xs : List Value)
  | instantiate (c : Ref) (xs : List Value)
  | invoke (routine : Routine) (closure : Option Ref) (xs : List Value)
  | execute (s : Stmt)
  | executeAll (ss : List Stmt)
  | loop (condition : Expr) (body : Stmt) (increment : Option Expr)
  | declareClass (name : Name) (superclass : Option Ref) (methods : List Routine)

@[reducible]
def Task.Answer : Task → Type
  | evaluate _ | call _ _ | callFunction _ _ | callBound _ _ _ | instantiate _ _ | invoke _ _ _ =>
    Value
  | evaluateAll _ => List Value
  | execute _ | executeAll _ | loop _ _ _ => Option Signal
  | declareClass _ _ _ => Unit

abbrev Evaluator := (t : Task) → Exec t.Answer

/-- The evaluator under a bound on nested calls. -/
def evaluator (n : Nat) : Evaluator
  | .evaluate e => evaluate n e
  | .evaluateAll es => evaluateAll n es
  | .call f xs => call n f xs
  | .callFunction f xs => callFunction n f xs
  | .callBound f receiver xs => callBound n f receiver xs
  | .instantiate c xs => instantiate n c xs
  | .invoke routine closure xs => invoke n routine closure xs
  | .execute s => execute n s
  | .executeAll ss => executeAll n ss
  | .loop condition body increment => Lox.loop n condition body increment
  | .declareClass name superclass methods => Lox.declareClass name superclass methods

/-- The work on a call, behind its own trace: the callee and the arguments, then what is called. -/
def Evaluator.performCall (E : Evaluator) (callee : Expr) (paren : Pos) (args : List Expr) : Exec Value := do
  let f ← E (.evaluate callee)
  keep f
  let xs ← E (.evaluateAll args)
  trace .verbose fun _ => s!"  Arguments evaluated: count: {xs.length}"
  checkCall paren f xs.length
  enterCall paren
  inCall f do
    traceCall f
    E (.call f xs)

/-- The end of a declaration of a variable: its value is bound where the machine stands. -/
def declareVariable (name : String) (x : Value) : Exec (Option Signal) := do
  let env ← currentEnvironment
  define env name x
  return none

/-- The work on a task, in which an evaluator performs other tasks. -/
def Task.perform (E : Evaluator) : (t : Task) → Exec t.Answer
  | .evaluate e => do
    tick
    traceNode e.nodeName
    match e with
    | .literal value _ => return constantValue value
    | .grouping _ inner => E (.evaluate inner)
    | .var r => readVariable r
    | .assign target value =>
      let x ← E (.evaluate value)
      assignVariable target x
      return x
    | .unary op pos right =>
      let x ← E (.evaluate right)
      applyUnary op pos x
    | .binary left op pos right =>
      let x ← E (.evaluate left)
      let y ← keeping x (E (.evaluate right))
      traceBinary op x y
      applyBinary op pos x y
    | .logical left .or _ right =>
      let x ← E (.evaluate left)
      if x.isTruthy then return x else E (.evaluate right)
    | .logical left .and _ right =>
      let x ← E (.evaluate left)
      if x.isTruthy then E (.evaluate right) else return x
    | .call callee paren args =>
      trace .verbose fun _ => "  Call node: " ++ callee.description
      releasing do
        let f ← E (.evaluate callee)
        keep f
        let xs ← E (.evaluateAll args)
        trace .verbose fun _ => s!"  Arguments evaluated: count: {xs.length}"
        checkCall paren f xs.length
        enterCall paren
        inCall f do
          traceCall f
          E (.call f xs)
    | .get object name =>
      let x ← E (.evaluate object)
      getProperty x name
    | .set object name value =>
      let target ← E (.evaluate object)
      match ← instance? target with
      | none => raise name.pos .noFields
      | some r =>
        let x ← keeping target (E (.evaluate value))
        onHeap name.pos (Heap.setField r name.text x)
        return x
    | .this pos depth => readThis pos depth
    | .super pos method depth => readSuper pos method depth
  | .evaluateAll [] => return []
  | .evaluateAll (e :: es) => do
    let x ← E (.evaluate e)
    keep x
    let xs ← E (.evaluateAll es)
    return x :: xs
  | .call callee xs => do
    match callee with
    | .native _ => readClock
    | .bound f receiver => E (.callBound f receiver xs)
    | .object r => fun m =>
      if m.heap.kindOf r = .klass then E (.instantiate r xs) m else E (.callFunction r xs) m
    | _ => fault .wrongKind
  | .callFunction f xs => do
    let (routine,closure) ← reading .start (·.function f)
    E (.invoke routine closure xs)
  | .callBound f receiver xs => do
    let (routine,closure) ← reading .start (·.function f)
    let env ← newEnvironment closure
    define env "this" (.object receiver)
    E (.invoke routine (some env) xs)
  | .instantiate c xs => do
    let _ ← reading .start (·.live c)
    let r ← allocate (.instanceOf (some c) {})
    match ← reading .start (·.findMethod c "init") with
    | none => return .object r
    | some init =>
      let _ ← keeping (.object r) (E (.callBound init r xs))
      return .object r
  | .invoke routine enclosing xs => do
    let env ← newEnvironment enclosing
    bindParameters env routine.params xs
    match ← inEnvironment env (E (.executeAll routine.body)) with
    | some (.return x) => return x
    | _ => return .nil
  | .execute s => do
    tick
    traceNode s.nodeName
    match s with
    | .expression e =>
      let _ ← E (.evaluate e)
      return none
    | .print pos e =>
      let x ← E (.evaluate e)
      let text ← reading pos x.inspect
      print (text ++ "\n")
      return none
    | .var name init =>
      let x ← match init with
        | some e => E (.evaluate e)
        | none => pure .nil
      let env ← currentEnvironment
      define env name.text x
      return none
    | .block _ _ body =>
      trace .verbose fun _ => s!"eval_block_statement: len={body.length}"
      let outer ← currentEnvironment
      let env ← newEnvironment (some outer)
      inEnvironment env (E (.executeAll body))
    | .branch _ condition yes no =>
      let x ← E (.evaluate condition)
      if x.isTruthy then E (.execute yes)
      else match no with
        | some s => E (.execute s)
        | none => return none
    | .loop _ _ condition body increment => E (.loop condition body increment)
    | .jump _ .leave => return some .leave
    | .jump _ .next => return some .next
    | .leave _ value =>
      match value with
      | some e =>
        let x ← E (.evaluate e)
        return some (.return x)
      | none => return some (.return .nil)
    | .function r =>
      trace .verbose fun _ => "  FunctionStatement node: " ++ r.name.text
      declareFunction r
      return none
    | .klass name superclass methods =>
      trace .verbose fun _ => "  ClassStatement node: " ++ name.text
      releasing do
        let base ← match superclass with
          | some r => do
            let x ← E (.evaluate (.var r))
            some <$> checkSuperclass r x
          | none => pure none
        E (.declareClass name base methods)
        return none
  | .executeAll [] => return none
  | .executeAll (s :: rest) => do
    match ← E (.execute s) with
    | some signal => return some signal
    | none => E (.executeAll rest)
  | .loop condition body increment => do
    let x ← E (.evaluate condition)
    if x.isTruthy then
      match ← E (.execute body) with
      | some (.return x) => return some (.return x)
      | some .leave => return none
      | _ =>
        match increment with
        | some e =>
          let _ ← E (.execute (.expression e))
          E (.loop condition body increment)
        | none => E (.loop condition body increment)
    else return none
  | .declareClass name superclass methods => Lox.declareClass name superclass methods

theorem evaluator_succ (n : Nat) (t : Task) : evaluator (n + 1) t = t.perform (evaluator n) := by
  have chain : ∀ {α β : Type} (x : Exec α) {f g : α → Exec β}, (∀ a, f a = g a) →
      (x >>= f) = (x >>= g) := fun x f g h => by rw [funext h]
  cases t with
  | evaluateAll es => cases es <;> rfl
  | executeAll ss =>
    cases ss with
    | nil => rfl
    | cons s rest => exact chain (execute n s) fun a => by cases a <;> rfl
  | invoke r closure xs =>
    exact chain _ fun env => chain _ fun _ => chain _ fun a => by rcases a with _ | _ | _ | _ <;> rfl
  | loop condition body increment =>
    refine chain (evaluate n condition) fun x => ?_
    cases x.isTruthy with
    | false => rfl
    | true =>
      refine chain (execute n body) fun a => ?_
      rcases a with _ | _ | _ | _ <;> cases increment <;> rfl
  | _ => rfl

theorem perform_call_of_class (E : Evaluator) {r : Ref} (xs : List Value) {m : Machine}
    (h : m.heap.kindOf r = .klass) :
    (Task.call (.object r) xs).perform E m = E (.instantiate r xs) m := if_pos h

theorem perform_call_of_not_class (E : Evaluator) {r : Ref} (xs : List Value) {m : Machine}
    (h : m.heap.kindOf r ≠ .klass) :
    (Task.call (.object r) xs).perform E m = E (.callFunction r xs) m := if_neg h

/-! ## What a computation asks for -/

open Classical in
/-- The same evaluator, except that it breaks off when it is given one task at one machine. -/
noncomputable def Evaluator.failing (E : Evaluator) (t : Task) (m : Machine) (h : Halt) : Evaluator :=
  fun u k => if u = t ∧ k = m then .error h k else E u k

section
variable {α β : Type}

/-- A computation asks for a task at a machine: it breaks off, however that task breaks off. -/
def Asks (F : Evaluator → EStateM.Result Halt Machine α) (E : Evaluator) (t : Task) (m : Machine) :
    Prop :=
  ∀ h, ∃ k, F (E.failing t m h) = .error h k

/-- A computation that gives tasks to an evaluator one after another, until one breaks off. -/
inductive Sequential : (Evaluator → EStateM.Result Halt Machine α) → Prop
  | done (x) : Sequential fun _ => x
  | ask (t m) {G : EStateM.Result Halt Machine t.Answer → Evaluator → EStateM.Result Halt Machine α} :
      (∀ h k, ∃ l, ∀ E, G (.error h k) E = .error h l) →
      (∀ a k, Sequential (G (.ok a k))) → Sequential fun E => G (E t m) E

theorem Evaluator.failing_self (E : Evaluator) (t : Task) (m : Machine) (h : Halt) :
    E.failing t m h t m = .error h m := if_pos ⟨rfl,rfl⟩

theorem Evaluator.failing_other (E : Evaluator) {t u : Task} {m k : Machine} (h : Halt)
    (other : ¬(u = t ∧ k = m)) : E.failing t m h u k = E u k := if_neg other

/-- What is asked for behind the first answer is asked for by the whole. -/
theorem Asks.later {t u : Task} {m k : Machine} {E : Evaluator}
    {G : EStateM.Result Halt Machine t.Answer → Evaluator → EStateM.Result Halt Machine α}
    (breaks : ∀ h k, ∃ l, ∀ E, G (.error h k) E = .error h l) (asks : Asks (G (E t m)) E u k) :
    Asks (fun E => G (E t m) E) E u k := by
  intro h
  by_cases same : t = u ∧ m = k
  · obtain ⟨rfl,rfl⟩ := same
    obtain ⟨l,e⟩ := breaks h m
    refine ⟨l,?_⟩
    show G (E.failing t m h t m) _ = _
    rw [E.failing_self,e]
  · show ∃ l, G (E.failing u k h t m) _ = _
    rw [E.failing_other h same]
    exact asks h

/-- An evaluator that breaks off in one way where it should not be asked, and else answers what is
asked for like another one, is asked only where it should be if the whole does not break off so. -/
theorem Sequential.agree {F : Evaluator → EStateM.Result Halt Machine α} (seq : Sequential F)
    {E D : Evaluator} {ready : Task → Machine → Prop} {h : Halt} (unbroken : ∀ k, F D ≠ .error h k)
    (same : ∀ t m, Asks F E t m → (ready t m ∧ D t m = E t m) ∨ D t m = .error h m) :
    F D = F E ∧ ∀ t m, Asks F E t m → ready t m := by
  induction seq with
  | done x =>
    refine ⟨rfl,fun t m asks => ?_⟩
    obtain ⟨k,e⟩ := asks .cut
    obtain ⟨l,e'⟩ := asks (.fault .unresolved)
    exact absurd (e.symm.trans e') (by simp)
  | @ask t m G breaks _ ih =>
    have asked : Asks (fun E => G (E t m) E) E t m := fun h => by
      obtain ⟨l,e⟩ := breaks h m
      refine ⟨l,?_⟩
      show G (E.failing t m h t m) _ = _
      rw [E.failing_self,e]
    rcases same t m asked with ⟨here,answer⟩ | broken
    · dsimp only at unbroken ⊢
      rw [answer] at unbroken ⊢
      have rest : ∀ u k, Asks (fun E => G (E t m) E) E u k → (u = t ∧ k = m) ∨ Asks (G (E t m)) E u k := by
        intro u k asks
        by_cases e : t = u ∧ m = k
        · exact .inl ⟨e.1.symm,e.2.symm⟩
        · refine .inr fun h => ?_
          have := asks h
          dsimp only at this
          rwa [E.failing_other h e] at this
      have later : ∀ u k, Asks (G (E t m)) E u k → Asks (fun E => G (E t m) E) E u k :=
        fun u k => Asks.later breaks
      cases answered : E t m with
      | error h' k =>
        obtain ⟨l,e⟩ := breaks h' k
        refine ⟨by rw [e,e],fun u j asks => ?_⟩
        rcases rest u j asks with ⟨rfl,rfl⟩ | asks
        · exact here
        · rw [answered] at asks
          obtain ⟨a,ha⟩ := asks .cut
          obtain ⟨b,hb⟩ := asks (.fault .unresolved)
          rw [e] at ha hb
          cases ha
          cases hb
      | ok a k =>
        rw [answered] at unbroken rest later
        obtain ⟨equal,fine⟩ := ih a k unbroken fun u j asks => same u j (later u j asks)
        refine ⟨equal,fun u j asks => ?_⟩
        rcases rest u j asks with ⟨rfl,rfl⟩ | asks
        · exact here
        · exact fine u j asks
    · obtain ⟨l,e⟩ := breaks h m
      exact absurd (by dsimp only; rw [broken,e]) (unbroken l)

open Classical in
/-- The same evaluator as far as it is asked, if it breaks off in one way where it should not be. -/
noncomputable def Evaluator.confined (E : Evaluator) (asked ready : Task → Machine → Prop)
    (h : Halt) : Evaluator :=
  fun t m => if ready t m then if asked t m then E t m else .error .cut m else .error h m

/-- An evaluator is asked only where it should be if its confinement does not break off. -/
theorem Sequential.confined {F : Evaluator → EStateM.Result Halt Machine α} (seq : Sequential F)
    {E : Evaluator} {asked ready : Task → Machine → Prop} {h : Halt}
    (sub : ∀ t m, Asks F E t m → asked t m) (unbroken : ∀ k, F (E.confined asked ready h) ≠ .error h k) :
    F (E.confined asked ready h) = F E ∧ ∀ t m, Asks F E t m → ready t m := by
  refine seq.agree unbroken fun t m asks => ?_
  by_cases here : ready t m
  · exact .inl ⟨here,(if_pos here).trans (if_pos (sub t m asks))⟩
  · exact .inr (if_neg here)

/-! ## Tasks are sequential -/

/-- From every machine the computation is sequential. -/
def Orderly (x : Evaluator → Exec α) : Prop := ∀ m, Sequential fun E => x E m

theorem Orderly.const (x : Exec α) : Orderly fun _ => x := fun m => .done (x m)

theorem Orderly.give (t : Task) : Orderly fun E => E t := fun m =>
  .ask t m (G := fun r _ => r) (fun _ k => ⟨k,fun _ => rfl⟩) fun _ _ => .done _

theorem Sequential.andThen {F : Evaluator → EStateM.Result Halt Machine α} (seq : Sequential F)
    {f : Evaluator → EStateM.Result Halt Machine α → EStateM.Result Halt Machine β}
    (breaks : ∀ h k, ∃ l, ∀ E, f E (.error h k) = .error h l)
    (next : ∀ a k, Sequential fun E => f E (.ok a k)) : Sequential fun E => f E (F E) := by
  induction seq with
  | done x =>
    cases x with
    | ok a k => exact next a k
    | error h k =>
      obtain ⟨l,e⟩ := breaks h k
      simp only [e]
      exact .done _
  | @ask t m G broken _ ih =>
    refine .ask t m (G := fun r E => f E (G r E)) (fun h k => ?_) ih
    obtain ⟨l,e⟩ := broken h k
    obtain ⟨l',e'⟩ := breaks h l
    exact ⟨l',fun E => by rw [e,e']⟩

theorem Orderly.bind {x : Evaluator → Exec α} {f : Evaluator → α → Exec β} (hx : Orderly x)
    (hf : ∀ a, Orderly fun E => f E a) : Orderly fun E => x E >>= f E := fun m =>
  (hx m).andThen (f := fun E r => EStateM.bind (fun _ => r) (f E) m)
    (fun _ k => ⟨k,fun _ => rfl⟩) fun a k => hf a k

theorem Orderly.afterwards {x : Evaluator → Exec α} (hx : Orderly x) (g : Machine → Machine) :
    Orderly fun E => afterwards (x E) g := fun m =>
  (hx m).andThen (f := fun _ r => Exec.afterwards (fun _ => r) g m)
    (fun _ k => ⟨g k,fun _ => rfl⟩) fun _ _ => .done _

theorem Orderly.releasing {x : Evaluator → Exec α} (hx : Orderly x) :
    Orderly fun E => releasing (x E) := fun m => hx.afterwards _ m

theorem Orderly.keeping (v : Value) {x : Evaluator → Exec α} (hx : Orderly x) :
    Orderly fun E => keeping v (x E) := .releasing (.bind (.const _) fun _ => hx)

theorem Orderly.inEnvironment (r : Ref) {x : Evaluator → Exec α} (hx : Orderly x) :
    Orderly fun E => inEnvironment r (x E) := fun _ => hx.afterwards _ _

theorem Orderly.inCall (f : Value) {x : Evaluator → Exec α} (hx : Orderly x) :
    Orderly fun E => inCall f (x E) := fun _ => hx.afterwards _ _

theorem orderly_evaluate (e : Expr) : Orderly fun E => (Task.evaluate e).perform E := by
  refine .bind (.const _) fun _ => .bind (.const _) fun _ => ?_
  cases e with
  | literal _ _ | var _ | this _ _ | super _ _ _ => exact .const _
  | grouping _ inner => exact .give _
  | assign _ _ => exact .bind (.give _) fun _ => .const _
  | unary _ _ _ => exact .bind (.give _) fun _ => .const _
  | binary _ _ _ _ =>
    exact .bind (.give _) fun _ => .bind (.keeping _ (.give _)) fun _ => .const _
  | logical left op _ right =>
    cases op with
    | or =>
      refine .bind (.give _) fun x => ?_
      cases x.isTruthy
      · exact .give _
      · exact .const _
    | and =>
      refine .bind (.give _) fun x => ?_
      cases x.isTruthy
      · exact .const _
      · exact .give _
  | call callee paren args =>
    exact .bind (.const _) fun _ => .releasing <| .bind (.give _) fun _ => .bind (.const _) fun _ =>
      .bind (.give _) fun _ => .bind (.const _) fun _ => .bind (.const _) fun _ =>
      .bind (.const _) fun _ => .inCall _ <| .bind (.const _) fun _ => .give _
  | get _ _ => exact .bind (.give _) fun _ => .const _
  | set _ _ _ =>
    refine .bind (.give _) fun target => .bind (.const _) fun o => ?_
    cases o with
    | none => exact .const _
    | some r => exact .bind (.keeping _ (.give _)) fun _ => .const _

theorem orderly_execute (s : Stmt) : Orderly fun E => (Task.execute s).perform E := by
  refine .bind (.const _) fun _ => .bind (.const _) fun _ => ?_
  cases s with
  | expression _ => exact .bind (.give _) fun _ => .const _
  | print _ _ => exact .bind (.give _) fun _ => .const _
  | var _ init =>
    cases init with
    | none => exact .const _
    | some e => exact .bind (.give _) fun _ => .const _
  | block _ _ _ =>
    exact .bind (.const _) fun _ => .bind (.const _) fun _ => .bind (.const _) fun _ =>
      .inEnvironment _ (.give _)
  | branch _ _ _ no =>
    refine .bind (.give _) fun x => ?_
    cases x.isTruthy
    · cases no with
      | none => exact .const _
      | some s => exact .give _
    · exact .give _
  | loop _ _ _ _ _ => exact .give _
  | jump _ j => cases j <;> exact .const _
  | leave _ value =>
    cases value with
    | none => exact .const _
    | some e => exact .bind (.give _) fun _ => .const _
  | function _ => exact .const _
  | klass name superclass methods =>
    refine .bind (.const _) fun _ => .releasing ?_
    cases superclass with
    | none => exact .bind (.const _) fun _ => .bind (.give _) fun _ => .const _
    | some r =>
      exact .bind (.give _) fun _ => .bind (.const _) fun _ => .bind (.give _) fun _ => .const _

theorem orderly_perform (t : Task) : Orderly fun E => t.perform E := by
  cases t with
  | evaluate e => exact orderly_evaluate e
  | evaluateAll es =>
    cases es with
    | nil => exact .const _
    | cons e es =>
      exact .bind (.give _) fun _ => .bind (.const _) fun _ => .bind (.give _) fun _ => .const _
  | call f xs =>
    cases f with
    | bound f r => exact .give _
    | object r =>
      intro m
      by_cases kind : m.heap.kindOf r = .klass
      · simpa only [perform_call_of_class _ _ kind] using Orderly.give (.instantiate r xs) m
      · simpa only [perform_call_of_not_class _ _ kind] using Orderly.give (.callFunction r xs) m
    | _ => exact .const _
  | callFunction f xs => exact .bind (.const _) fun p => .give (.invoke p.1 p.2 xs)
  | callBound f r xs =>
    exact .bind (.const _) fun p => .bind (.const _) fun env => .bind (.const _) fun _ =>
      .give (.invoke p.1 (some env) xs)
  | instantiate c xs =>
    refine .bind (.const _) fun _ => .bind (.const _) fun _ => .bind (.const _) fun init => ?_
    cases init with
    | none => exact .const _
    | some f => exact .bind (.keeping _ (.give _)) fun _ => .const _
  | invoke _ _ _ =>
    exact .bind (.const _) fun _ => .bind (.const _) fun _ =>
      .bind (.inEnvironment _ (.give _)) fun _ => .const _
  | execute s => exact orderly_execute s
  | executeAll ss =>
    cases ss with
    | nil => exact .const _
    | cons s rest =>
      refine .bind (.give _) fun a => ?_
      cases a with
      | none => exact .give _
      | some _ => exact .const _
  | loop condition body increment =>
    refine .bind (.give _) fun x => ?_
    cases x.isTruthy with
    | false => exact .const _
    | true =>
      refine .bind (.give _) fun a => ?_
      rcases a with _ | _ | _ | _
      case none | some.next =>
        cases increment with
        | none => exact .give _
        | some e => exact .bind (.give _) fun _ => .give _
      all_goals exact .const _
  | declareClass _ _ _ => exact .const _

end

/-! ## Tasks that arise -/

/-- The tasks given to the evaluator while it performs a task, with their bounds and machines. -/
inductive Arises (n : Nat) (t : Task) (m : Machine) : Nat → Task → Machine → Prop
  | itself : Arises n t m n t m
  | asked {l u k v j} : Arises n t m (l + 1) u k → Asks (fun E => u.perform E k) (evaluator l) v j →
      Arises n t m l v j

end Lox
