import Lox.Proofs.Eval.Simulation
import Lox.Proofs.Eval.UnfoldedNodes

/-! # Tasks of unfolded programs

The evaluator performs the tasks of an unfolded program as it performs those of the program itself. The
bounds on nested calls differ, since there are more statements around statements in the unfolded program.
The induction is on the bound for the program, for all bounds for the unfolded program at once: the body
of a `for` is one statement in a loop, and its counterpart is two in a block in a loop.
-/
namespace Lox
open Machine Exec

/-- A signal and its counterpart. Only some statements ask for the next round of a loop around them. -/
inductive Layout.Signals (L : Layout) : Bool → Option Signal → Option Signal → Prop
  | none {b} : Signals L b none none
  | leave {b} : Signals L b (some .leave) (some .leave)
  | next : Signals L true (some .next) (some .next)
  | return {b x y} : L.Same x y → Signals L b (some (.return x)) (some (.return y))

theorem Layout.Signals.weaken {L : Layout} {b c : Bool} {a a' : Option Signal} (signals : L.Signals b a a')
    (more : b = true → c = true) : L.Signals c a a' := by
  cases signals with
  | none => exact .none
  | leave => exact .leave
  | next =>
    obtain rfl := more rfl
    exact .next
  | «return» same => exact .return same

/-- A statement and its counterpart in an unfolded program, where the block that a `for` becomes may be
around it already. -/
inductive Stmt.Follows (π : Strata) : Stmt → Stmt → Prop
  | unfolds {s t} : s.Unfolds π t → Follows π s t
  | loop {p c s i t} : LoopUnfolds π c s i t → Follows π (.loop p .clauses c s i) t

theorem BodyUnfolds.follow {π : Strata} {ss ts : List Stmt} (unfold : BodyUnfolds π ss ts) :
    List.Forall₂ (Stmt.Follows π) ss ts := by
  induction ss generalizing ts with
  | nil =>
    cases unfold
    exact .nil
  | cons s ss ih =>
    cases unfold with
    | cons unfolds rest => exact .cons (.unfolds unfolds) (ih rest)

/-! ## Rounds of a loop -/

def increment (E : Evaluator) : Option Expr → Exec (Option Signal)
  | some e => do
    let _ ← E (.execute (.expression e))
    return none
  | none => return none

/-- The body of a loop and its increment, unless the body leaves the loop. -/
def round (E : Evaluator) (s : Stmt) (i : Option Expr) : Exec (Option Signal) := do
  match ← E (.execute s) with
  | some (.return x) => return some (.return x)
  | some .leave => return some .leave
  | _ => increment E i

/-- What a loop does with the signal of a round. -/
def goOn (again : Exec (Option Signal)) : Option Signal → Exec (Option Signal)
  | some (.return x) => return some (.return x)
  | some .leave => return none
  | _ => again

theorem perform_loop (E : Evaluator) (c : Expr) (s : Stmt) (i : Option Expr) :
    (Task.loop c s i).perform E = do
      let x ← E (.evaluate c)
      if x.isTruthy then round E s i >>= goOn (E (.loop c s i)) else return none := by
  refine bind_congr fun x => ?_
  cases x.isTruthy with
  | false => rfl
  | true =>
    simp only [round,bind_assoc]
    refine bind_congr fun a => ?_
    rcases a with _ | _ | _ | _ <;> cases i <;> simp only [increment,bind_assoc,pure_bind] <;> rfl

theorem perform_while (E : Evaluator) (c : Expr) (s : Stmt) :
    (Task.loop c s none).perform E = do
      let x ← E (.evaluate c)
      if x.isTruthy then E (.execute s) >>= goOn (E (.loop c s none)) else return none := by
  refine bind_congr fun x => ?_
  cases x.isTruthy with
  | false => rfl
  | true => exact bind_congr fun a => by rcases a with _ | _ | _ | _ <;> rfl

/-- A condition that is left out is true. -/
theorem evaluate_orTrue (n : Nat) (c : Expr) : evaluate n c.orTrue = evaluate n c := by
  cases n with
  | zero => rfl
  | succ n =>
    cases c with
    | literal value => cases value <;> rfl
    | _ => rfl

theorem Layout.ends_goOn {L : Layout} {π : Strata} {c d : Nat} {m k : Machine} {b : Bool} {a a' : Option Signal}
    {again again' : Exec (Option Signal)} (pair : L.Pair π m k) (signals : L.Signals b a a') (less : d ≤ c)
    (ends : L.Ends π c d (·.Signals false) again again' m k) :
    L.Ends π c d (·.Signals false) (goOn again a) (goOn again' a') m k := by
  have done {x y : Option Signal} (signals : L.Signals false x y) :
      L.Ends π c d (·.Signals false) (pure x) (pure y) m k :=
    .adjust (.pure pair signals) (Nat.le_refl c) (by omega)
  cases signals with
  | none | next => exact ends
  | leave => exact done .none
  | «return» same => exact done (.return same)

theorem Layout.ends_declareVariable {L : Layout} {π : Strata} {c : Nat} {x y : Value} {m k : Machine}
    (pair : L.Pair π m k) (own : π.Own) (name : String) (same : L.Same x y) :
    L.Ends π c c (·.Signals false) (declareVariable name x) (declareVariable name y) m k := by
  refine (ends_currentEnvironment pair).bind fun M e f m k up pair _ chained => ?_
  refine (ends_define pair (chained.twin own) name (same.grows up)).bind fun N _ _ m k _ pair _ _ => ?_
  exact .pure pair .none

/-! ## The evaluator -/

/-- Under these bounds on nested calls, the evaluator performs the tasks of an unfolded program as it
performs those of the program itself. -/
structure Unrolls (n n' : Nat) : Prop where
  evaluate {L : Layout} {π d e m k} : L.Pair π m k → d.Deepens π e → 8 * m.steps ≤ n → 24 * m.steps ≤ n' →
    L.Ends π 0 1 Layout.Same (evaluator n (.evaluate d)) (evaluator n' (.evaluate e)) m k
  evaluateAll {L : Layout} {π ds es m k} : L.Pair π m k → ArgumentsDeepen π ds es → 8 * m.steps + 1 ≤ n →
    24 * m.steps + 1 ≤ n' → L.Ends π 0 0 (fun M => List.Forall₂ M.Same) (evaluator n (.evaluateAll ds))
      (evaluator n' (.evaluateAll es)) m k
  call {L : Layout} {π f g xs ys m k} : L.Pair π m k → L.Same f g → List.Forall₂ L.Same xs ys →
    8 * m.steps + 5 ≤ n → 24 * m.steps + 5 ≤ n' →
    L.Ends π 0 0 Layout.Same (evaluator n (.call f xs)) (evaluator n' (.call g ys)) m k
  callFunction {L : Layout} {π f g xs ys m k} : L.Pair π m k → L.twin f g → List.Forall₂ L.Same xs ys →
    8 * m.steps + 3 ≤ n → 24 * m.steps + 3 ≤ n' →
    L.Ends π 0 0 Layout.Same (evaluator n (.callFunction f xs)) (evaluator n' (.callFunction g ys)) m k
  callBound {L : Layout} {π f g r s xs ys m k} : L.Pair π m k → L.method f g → L.twin r s →
    List.Forall₂ L.Same xs ys → 8 * m.steps + 3 ≤ n → 24 * m.steps + 3 ≤ n' →
    L.Ends π 0 0 Layout.Same (evaluator n (.callBound f r xs)) (evaluator n' (.callBound g s ys)) m k
  instantiate {L : Layout} {π r s xs ys m k} : L.Pair π m k → L.twin r s → List.Forall₂ L.Same xs ys →
    8 * m.steps + 4 ≤ n → 24 * m.steps + 4 ≤ n' →
    L.Ends π 0 0 Layout.Same (evaluator n (.instantiate r xs)) (evaluator n' (.instantiate s ys)) m k
  invoke {L : Layout} {π ρ r s e f xs ys m k} : L.Pair π m k → RoutineUnfolds ρ r s → L.Chained ρ e f →
    List.Forall₂ L.Same xs ys → 8 * m.steps + 2 ≤ n → 24 * m.steps + 2 ≤ n' →
    L.Ends π 0 0 Layout.Same (evaluator n (.invoke r (some e) xs)) (evaluator n' (.invoke s (some f) ys)) m k
  execute {L : Layout} {π s t m k} : L.Pair π m k → s.Follows π t → 8 * m.steps ≤ n → 24 * m.steps ≤ n' →
    L.Ends π 0 1 (·.Signals s.continues) (evaluator n (.execute s)) (evaluator n' (.execute t)) m k
  executeAll {L : Layout} {π ss ts m k} : L.Pair π m k → List.Forall₂ (Stmt.Follows π) ss ts →
    8 * m.steps + 1 ≤ n → 24 * m.steps + 1 ≤ n' →
    L.Ends π 0 0 (·.Signals (anyContinues ss)) (evaluator n (.executeAll ss)) (evaluator n' (.executeAll ts)) m k
  loop {L : Layout} {π d e s t i j m k} : L.Pair π m k → d.Deepens π e → s.Unfolds π t →
    Option.Rel (Expr.Deepens π) i j → 8 * m.steps + 1 ≤ n → 24 * m.steps + 1 ≤ n' →
    L.Ends π 0 0 (·.Signals false) (evaluator n (.loop d s i)) (evaluator n' (.loop e t j)) m k
  unfolded {L : Layout} {π p q c d s t i j m k} : L.Pair π m k →
    LoopUnfolds π c s i (.loop p .plain d (.block q .plain (t :: j)) none) → 8 * m.steps + 1 ≤ n →
    24 * m.steps + 1 ≤ n' → L.Ends π 0 0 (·.Signals false) (evaluator n (.loop c s i))
      (evaluator n' (.loop d (.block q .plain (t :: j)) none)) m k

namespace Unrolls
variable {n n' : Nat} (h : Unrolls n n') {L : Layout} {π ρ : Strata} {m k : Machine} {xs ys : List Value}
include h

theorem called {c : Nat} {d e : Expr} {p : Pos} {ds es : List Expr} (pair : L.Pair π m k) (callee : d.Deepens π e)
    (args : ArgumentsDeepen π ds es) (hn : 8 * m.steps + 7 ≤ n) (hn' : 24 * m.steps + 7 ≤ n') :
    L.Ends π c c Layout.Same ((evaluator n).performCall d p ds) ((evaluator n').performCall e p es) m k := by
  refine (h.evaluate pair callee (by omega) (by omega)).carry.bind fun M f g m k _ pair first same => ?_
  refine (Layout.ends_keep pair f g).bind fun N _ _ m k up pair kept _ => ?_
  have same := same.grows up
  refine (h.evaluateAll pair args (by omega) (by omega)).carry.bind fun M xs ys m k up pair rest all => ?_
  have same := same.grows up
  refine (Layout.ends_trace pair _ _ _).bind fun N _ _ m k up pair traced _ => ?_
  have same := same.grows up
  have all := all.imp fun _ _ => Layout.Same.grows up
  refine (Layout.ends_checkCall pair p same all.length_eq.symm).bind fun M _ _ m k up pair checked _ => ?_
  have same := same.grows up
  have all := all.imp fun _ _ => Layout.Same.grows up
  refine .entering pair p fun m' k' pair steps => ?_
  refine (Layout.ends_traceCall pair same).bind fun N _ _ m k up pair called _ => ?_
  exact (h.call pair (same.grows up) (all.imp fun _ _ => Layout.Same.grows up) (by omega) (by omega)).carry

theorem evaluate_perform {d e : Expr} (pair : L.Pair π m k) (deepens : d.Deepens π e)
    (hn : 8 * m.steps ≤ n + 1) (hn' : 24 * m.steps ≤ n' + 1) :
    L.Ends π 0 1 Layout.Same ((Task.evaluate d).perform (evaluator n)) ((Task.evaluate e).perform (evaluator n'))
      m k := by
  refine .tick pair fun s hs => .adjust (c := 1) (d := 1) ?_ (by omega) (by omega)
  refine (Layout.ends_trace (pair.give s) _ _ _).bind fun M _ _ m k _ pair traced _ => ?_
  have left : m.steps ≤ s := by
    rw [steps_given] at traced
    omega
  have sub {L : Layout} {d e : Expr} {m k : Machine} (pair : L.Pair π m k) (deepens : d.Deepens π e) (left : m.steps ≤ s) :
      L.Ends π 1 1 Layout.Same (evaluator n (.evaluate d)) (evaluator n' (.evaluate e)) m k :=
    (h.evaluate pair deepens (by omega) (by omega)).carry
  cases deepens with
  | @literal c _ => exact .pure pair (.plain (by cases c <;> rfl))
  | grouping deepens => exact sub pair deepens left
  | var reference => exact Layout.ends_readVariable pair reference
  | assign target value =>
    refine (sub pair value left).bind fun N x y m k _ pair _ same => ?_
    refine (Layout.ends_assignVariable pair target same).bind fun O _ _ m k up pair _ _ => ?_
    exact .pure pair (same.grows up)
  | unary right =>
    refine (sub pair right left).bind fun N x y m k _ pair _ same => ?_
    exact Layout.ends_applyUnary pair _ _ same
  | binary first second =>
    refine (sub pair first left).bind fun N x y m k _ pair less same => ?_
    have both := Layout.Ends.keeping pair x y fun m k pair steps => sub pair second (by omega)
    refine both.bind fun O u v m k up pair _ same' => ?_
    refine (Layout.ends_traceBinary pair _ (same.grows up) same').bind fun P _ _ m k up' pair _ _ => ?_
    exact Layout.ends_applyBinary pair _ _ (same.grows (up.trans up')) (same'.grows up')
  | @logical op _ _ _ _ _ first second =>
    cases op with
    | or =>
      refine (sub pair first left).bind fun N x y m k _ pair less same => ?_
      simp only [same.isTruthy_eq]
      split
      · exact .pure pair same
      · exact sub pair second (by omega)
    | and =>
      refine (sub pair first left).bind fun N x y m k _ pair less same => ?_
      simp only [same.isTruthy_eq]
      split
      · exact sub pair second (by omega)
      · exact .pure pair same
  | call callee args =>
    refine (Layout.ends_trace pair _ _ _).bind fun N _ _ m k _ pair less _ => .releasing ?_
    exact h.called pair callee args (by omega) (by omega)
  | get object =>
    refine (sub pair object left).bind fun N x y m k _ pair _ same => ?_
    exact Layout.ends_getProperty pair same _
  | set object value =>
    refine (sub pair object left).bind fun N x y m k _ pair less same => ?_
    refine (Layout.ends_instance? pair same).bind fun O a b m k up pair less' twins => ?_
    cases twins with
    | none => exact .raise pair _ _
    | some twin =>
      have evaluated := Layout.Ends.keeping pair x y fun m k pair steps => sub pair value (by omega)
      refine evaluated.bind fun P u v m k up pair _ same => ?_
      refine (Layout.ends_onHeap pair _ (pair.heaps.writes_setField (up.paired twin) _ same)).bind
        fun Q _ _ m k up pair _ _ => ?_
      exact .pure pair (same.grows up)
  | this depth => exact Layout.ends_readThis pair _ depth
  | super depth => exact Layout.ends_readSuper pair _ _ depth

theorem evaluateAll_perform {ds es : List Expr} (pair : L.Pair π m k) (deepen : ArgumentsDeepen π ds es)
    (hn : 8 * m.steps + 1 ≤ n + 1) (hn' : 24 * m.steps + 1 ≤ n' + 1) :
    L.Ends π 0 0 (fun M => List.Forall₂ M.Same) ((Task.evaluateAll ds).perform (evaluator n))
      ((Task.evaluateAll es).perform (evaluator n')) m k := by
  cases deepen with
  | nil => exact .pure pair .nil
  | cons deepens rest =>
    refine (h.evaluate pair deepens (by omega) (by omega)).bind fun M x y m k _ pair first same => ?_
    refine (Layout.ends_keep pair x y).bind fun N _ _ m k up pair kept _ => ?_
    have same := same.grows up
    refine (h.evaluateAll pair rest (by omega) (by omega)).carry.bind fun O xs ys m k up pair _ all => ?_
    exact .adjust (.pure pair (.cons (same.grows up) all)) (Nat.le_refl 1) (by omega)

theorem call_perform {f g : Value} (pair : L.Pair π m k) (same : L.Same f g) (all : List.Forall₂ L.Same xs ys)
    (hn : 8 * m.steps + 5 ≤ n + 1) (hn' : 24 * m.steps + 5 ≤ n' + 1) :
    L.Ends π 0 0 Layout.Same ((Task.call f xs).perform (evaluator n)) ((Task.call g ys).perform (evaluator n'))
      m k := by
  cases same with
  | plain scalar =>
    cases f with
    | native => exact Layout.ends_readClock pair
    | object | bound => cases scalar
    | _ => exact .throw pair (.fault .wrongKind)
  | bound method receiver => exact h.callBound pair method receiver all (by omega) (by omega)
  | @object r s twin =>
    have kind : k.heap.kindOf s = m.heap.kindOf r := pair.heaps.kindOf_eq twin
    by_cases klass : m.heap.kindOf r = .klass
    · exact (h.instantiate pair twin all (by omega) (by omega)).congr (perform_call_of_class _ xs klass)
        fun j => perform_call_of_class (m := k.given j) _ ys (kind.trans klass)
    · exact (h.callFunction pair twin all (by omega) (by omega)).congr (perform_call_of_not_class _ xs klass)
        fun j => perform_call_of_not_class (m := k.given j) _ ys (kind ▸ klass)

theorem callFunction_perform {r s : Ref} (pair : L.Pair π m k) (twin : L.twin r s)
    (all : List.Forall₂ L.Same xs ys) (hn : 8 * m.steps + 3 ≤ n + 1) (hn' : 24 * m.steps + 3 ≤ n' + 1) :
    L.Ends π 0 0 Layout.Same ((Task.callFunction r xs).perform (evaluator n))
      ((Task.callFunction s ys).perform (evaluator n')) m k := by
  refine (Layout.ends_function pair .start twin).bind fun M a b m k up pair less found => ?_
  obtain ⟨routine,closure⟩ := a
  obtain ⟨routine',closure'⟩ := b
  obtain ⟨ρ,e,f,unfolds,rfl,rfl,chained⟩ := found
  exact h.invoke pair unfolds chained (all.imp fun _ _ => Layout.Same.grows up) (by omega) (by omega)

theorem callBound_perform {f g r s : Ref} (pair : L.Pair π m k) (method : L.method f g) (twin : L.twin r s)
    (all : List.Forall₂ L.Same xs ys) (hn : 8 * m.steps + 3 ≤ n + 1) (hn' : 24 * m.steps + 3 ≤ n' + 1) :
    L.Ends π 0 0 Layout.Same ((Task.callBound f r xs).perform (evaluator n))
      ((Task.callBound g s ys).perform (evaluator n')) m k := by
  refine (Layout.ends_method pair .start method).bind fun M a b m k up pair less found => ?_
  obtain ⟨routine,closure⟩ := a
  obtain ⟨routine',closure'⟩ := b
  obtain ⟨ρ,c,d,unfolds,rfl,rfl,chained⟩ := found
  refine (Layout.ends_newEnvironment pair chained).bind fun N e e' m k up' pair less' inner => ?_
  have up := up.trans up'
  refine (Layout.ends_define pair (inner.twin trivial) "this" (.object (up.paired twin))).bind
    fun O _ _ m k up' pair less'' _ => ?_
  exact h.invoke pair unfolds (inner.grows up') (all.imp fun _ _ => Layout.Same.grows (up.trans up')) (by omega)
    (by omega)

theorem instantiate_perform {r s : Ref} (pair : L.Pair π m k) (twin : L.twin r s)
    (all : List.Forall₂ L.Same xs ys) (hn : 8 * m.steps + 4 ≤ n + 1) (hn' : 24 * m.steps + 4 ≤ n' + 1) :
    L.Ends π 0 0 Layout.Same ((Task.instantiate r xs).perform (evaluator n))
      ((Task.instantiate s ys).perform (evaluator n')) m k := by
  refine (Layout.ends_live pair .start twin).bind fun M _ _ m k up pair less _ => ?_
  have twin := up.paired twin
  have made : M.Ends π 0 0 (fun N => N.twin) (allocate (.instanceOf (some r) {}))
      (allocate (.instanceOf (some s) {})) m k := Layout.ends_allocate pair (.instanceOf (.some twin) .empty)
  refine made.bind fun N o p m k up' pair less' made => ?_
  have up := up.trans up'
  refine (Layout.ends_findMethod pair .start (up'.paired twin) "init").bind fun O a b m k up' pair less'' found => ?_
  have made := up'.paired made
  cases found with
  | none => exact .pure pair (.object made)
  | some method =>
    have initialized := Layout.Ends.keeping pair (.object o) (.object p) fun m k pair steps =>
      h.callBound pair method made (all.imp fun _ _ => Layout.Same.grows (up.trans up')) (by omega) (by omega)
    refine initialized.bind fun P _ _ m k up pair _ _ => ?_
    exact .pure pair (.object (up.paired made))

theorem invoke_perform {r s : Routine} {e f : Ref} (pair : L.Pair π m k) (unfolds : RoutineUnfolds ρ r s)
    (chained : L.Chained ρ e f) (all : List.Forall₂ L.Same xs ys) (hn : 8 * m.steps + 2 ≤ n + 1)
    (hn' : 24 * m.steps + 2 ≤ n' + 1) :
    L.Ends π 0 0 Layout.Same ((Task.invoke r (some e) xs).perform (evaluator n))
      ((Task.invoke s (some f) ys).perform (evaluator n')) m k := by
  refine (Layout.ends_newEnvironment pair chained).bind fun M e f m k up pair less inner => ?_
  rw [unfolds.params]
  refine (Layout.ends_bindParameters pair (inner.twin trivial) r.params
    (all.imp fun _ _ => Layout.Same.grows up)).bind fun N _ _ m k up pair less' _ => ?_
  have inside : N.Pair (.shared :: ρ) { m with current := e, saved := m.current :: m.saved }
      { k with current := f, saved := k.current :: k.saved } := { pair with here := inner.grows up }
  have body := Layout.Ends.inEnvironment pair
    (h.executeAll inside unfolds.body.follow (by simp only; omega) (by simp only; omega))
  refine body.bind fun O a b m k _ pair _ signals => ?_
  generalize anyContinues r.body = next at signals
  cases signals with
  | none | leave | next => exact .pure pair (.plain rfl)
  | «return» same => exact .pure pair same

theorem executeAll_perform {ss ts : List Stmt} (pair : L.Pair π m k) (follow : List.Forall₂ (Stmt.Follows π) ss ts)
    (hn : 8 * m.steps + 1 ≤ n + 1) (hn' : 24 * m.steps + 1 ≤ n' + 1) :
    L.Ends π 0 0 (·.Signals (anyContinues ss)) ((Task.executeAll ss).perform (evaluator n))
      ((Task.executeAll ts).perform (evaluator n')) m k := by
  cases follow with
  | nil => exact .pure pair .none
  | @cons s t ss ts follows rest =>
    refine (h.execute pair follows (by omega) (by omega)).bind fun M a b m k _ pair less signals => ?_
    have signals := signals.weaken (c := anyContinues (s :: ss)) fun next => by simp [anyContinues,next]
    generalize hb : anyContinues (s :: ss) = next at signals
    have later : M.Ends π 1 0 (·.Signals next) (evaluator n (.executeAll ss)) (evaluator n' (.executeAll ts)) m k :=
      ((h.executeAll pair rest (by omega) (by omega)).imp fun N _ _ signals => signals.weaken fun next => by
        simp [← hb,anyContinues,next]).adjust (Nat.zero_le 1) (by omega)
    have done {a b} (signals : M.Signals next a b) : M.Ends π 1 0 (·.Signals next) (pure a) (pure b) m k :=
      .adjust (.pure pair signals) (Nat.le_refl 1) (by omega)
    cases signals with
    | none => exact later
    | leave => exact done .leave
    | next => exact done .next
    | «return» same => exact done (.return same)

/-- The statements of a block. -/
theorem inside {c : Nat} {ss ts : List Stmt} (pair : L.Pair π m k)
    (follow : List.Forall₂ (Stmt.Follows (.shared :: π)) ss ts) (hn : 8 * m.steps + 1 ≤ n)
    (hn' : 24 * m.steps + 1 ≤ n') :
    L.Ends π c c (·.Signals (anyContinues ss))
      (do
        trace .verbose fun _ => s!"eval_block_statement: len={ss.length}"
        let outer ← currentEnvironment
        let env ← newEnvironment (some outer)
        inEnvironment env (evaluator n (.executeAll ss)))
      (do
        trace .verbose fun _ => s!"eval_block_statement: len={ts.length}"
        let outer ← currentEnvironment
        let env ← newEnvironment (some outer)
        inEnvironment env (evaluator n' (.executeAll ts))) m k := by
  refine (Layout.ends_trace pair _ _ _).bind fun M _ _ m k _ pair traced _ => ?_
  refine (Layout.ends_currentEnvironment pair).bind fun N r s m k _ pair found chained => ?_
  refine (Layout.ends_newEnvironment pair chained).bind fun O e f m k _ pair made inner => ?_
  have inside : O.Pair (.shared :: π) { m with current := e, saved := m.current :: m.saved }
      { k with current := f, saved := k.current :: k.saved } := { pair with here := inner }
  exact .inEnvironment pair (h.executeAll inside follow (by simp only; omega) (by simp only; omega)).carry

theorem ends_increment {i j : Option Expr} (pair : L.Pair π m k) (deepens : Option.Rel (Expr.Deepens π) i j)
    (hn : 8 * m.steps ≤ n) (hn' : 24 * m.steps ≤ n') :
    L.Ends π 0 0 (·.Signals false) (increment (evaluator n) i) (increment (evaluator n') j) m k := by
  cases deepens with
  | none => exact .pure pair .none
  | some deepens =>
    exact (h.execute pair (.unfolds (.expression deepens)) hn hn').carry.bind fun M _ _ m k _ pair _ _ =>
      .pure pair .none

theorem ends_round {s t : Stmt} {i j : Option Expr} (pair : L.Pair π m k) (body : s.Unfolds π t)
    (deepens : Option.Rel (Expr.Deepens π) i j) (hn : 8 * m.steps ≤ n) (hn' : 24 * m.steps ≤ n') :
    L.Ends π 0 0 (·.Signals false) (round (evaluator n) s i) (round (evaluator n') t j) m k := by
  refine (h.execute pair (.unfolds body) hn hn').carry.bind fun M a b m k _ pair less signals => ?_
  generalize s.continues = next at signals
  cases signals with
  | none | next => exact h.ends_increment pair deepens (by omega) (by omega)
  | leave => exact .pure pair .leave
  | «return» same => exact .pure pair (.return same)

theorem loop_perform {d e : Expr} {s t : Stmt} {i j : Option Expr} (pair : L.Pair π m k)
    (condition : d.Deepens π e) (body : s.Unfolds π t) (increment : Option.Rel (Expr.Deepens π) i j)
    (hn : 8 * m.steps + 1 ≤ n + 1) (hn' : 24 * m.steps + 1 ≤ n' + 1) :
    L.Ends π 0 0 (·.Signals false) ((Task.loop d s i).perform (evaluator n))
      ((Task.loop e t j).perform (evaluator n')) m k := by
  rw [perform_loop,perform_loop]
  refine (h.evaluate pair condition (by omega) (by omega)).bind fun M x y m k _ pair less same => ?_
  simp only [same.isTruthy_eq]
  split
  · refine (h.ends_round pair body increment (by omega) (by omega)).carry.bind fun N a b m k _ pair less signals => ?_
    exact Layout.ends_goOn pair signals (Nat.zero_le 1)
      ((h.loop pair condition body increment (by omega) (by omega)).adjust (Nat.zero_le 1) (by omega))
  · exact .adjust (.pure pair .none) (Nat.le_refl 1) (by omega)

end Unrolls

/-! ## Unfolded loops -/

section
variable {n n' : Nat} {L : Layout} {π : Strata} {m k : Machine}

theorem evaluator_executeAll_nil (n : Nat) : evaluator (n + 1) (.executeAll []) = (pure none : Exec (Option Signal)) :=
  evaluator_succ n _

theorem execute_expression_eq_ok {e : Expr} {a : Option Signal} (done : execute n (.expression e) m = .ok a k) :
    a = none := by
  cases n with
  | zero => cases done
  | succ n =>
    obtain ⟨_,_,_,done⟩ := bind_eq_ok.mp done
    obtain ⟨_,_,_,done⟩ := bind_eq_ok.mp done
    obtain ⟨_,_,_,done⟩ := bind_eq_ok.mp done
    cases done
    rfl

/-- The increment of a `for`, and the statements of a block behind its first. -/
theorem ends_unfolded_increment {i j : Option Expr} (ih : ∀ n', Unrolls n n') (pair : L.Pair π m k)
    (deepens : Option.Rel (Expr.Deepens π) i j) (hn : 8 * m.steps ≤ n) (hn' : 24 * m.steps + 2 ≤ n') :
    L.Ends π 0 0 (·.Signals false) (increment (evaluator n) i)
      (evaluator n' (.executeAll (j.map Stmt.expression).toList)) m k := by
  obtain ⟨l,rfl⟩ : ∃ l, n' = l + 2 := ⟨n' - 2,by omega⟩
  cases deepens with
  | none =>
    dsimp only [Option.map_none,Option.toList_none]
    rw [evaluator_executeAll_nil]
    exact .pure pair .none
  | some deepens =>
    rw [evaluator_succ]
    refine ((ih (l + 1)).execute pair (.unfolds (.expression deepens)) hn (by omega)).known.carry.bind
      fun M a b m k _ pair _ ⟨signals,_,done⟩ => ?_
    obtain rfl := execute_expression_eq_ok done
    cases signals
    dsimp only
    rw [evaluator_executeAll_nil]
    exact .pure pair .none

/-- The body of a `for` and its increment, and the block of both. -/
theorem ends_unfolded_round {q : Pos} {s t : Stmt} {i j : Option Expr} (ih : ∀ n', Unrolls n n')
    (pair : L.Pair π m k) (single : s.continues = false) (body : s.Unfolds (.extra :: π) t)
    (deepens : Option.Rel (Expr.Deepens (.extra :: π)) i j) (hn : 8 * m.steps ≤ n)
    (hn' : 24 * m.steps + 4 ≤ n') :
    L.Ends π 1 0 (·.Signals false) (round (evaluator n) s i)
      (evaluator n' (.execute (.block q .plain (t :: (j.map Stmt.expression).toList)))) m k := by
  obtain ⟨l,rfl⟩ : ∃ l, n' = l + 4 := ⟨n' - 4,by omega⟩
  rw [evaluator_succ]
  refine .tick_right (.trace_right pair fun k pair => .trace_right pair fun k pair =>
    .newEnvironment_right pair fun M f k up pair chained => .inEnvironment_right (ρ := .extra :: π) pair ?_)
  have inside : M.Pair (.extra :: π) m { k with current := f, saved := k.current :: k.saved } :=
    { pair with here := chained }
  rw [evaluator_succ]
  refine ((ih (l + 2)).execute inside (.unfolds body) hn (by omega)).carry.bind fun N a b m k _ pair less signals => ?_
  rw [single] at signals
  cases signals with
  | leave => exact .pure pair .leave
  | «return» same => exact .pure pair (.return same)
  | none => exact ends_unfolded_increment ih pair deepens (by omega) (by omega)

theorem unfolded_perform {p q : Pos} {c d : Expr} {s t : Stmt} {i : Option Expr} {j : List Stmt}
    (ih : ∀ n', Unrolls n n') (pair : L.Pair π m k)
    (unfolds : LoopUnfolds π c s i (.loop p .plain d (.block q .plain (t :: j)) none))
    (hn : 8 * m.steps + 1 ≤ n + 1) (hn' : 24 * m.steps + 1 ≤ n' + 1) :
    L.Ends π 0 0 (·.Signals false) ((Task.loop c s i).perform (evaluator n))
      ((Task.loop d (.block q .plain (t :: j)) none).perform (evaluator n')) m k := by
  have again := unfolds
  cases unfolds with
  | mk condition single body deepens =>
    rw [perform_loop,perform_while]
    have evaluated := (ih n').evaluate pair condition (by omega) (by omega)
    rw [show evaluator n (.evaluate c.orTrue) = evaluator n (.evaluate c) from evaluate_orTrue n c] at evaluated
    refine evaluated.bind fun M x y m k _ pair less same => ?_
    simp only [same.isTruthy_eq]
    split
    · refine (ends_unfolded_round ih pair single body deepens (by omega) (by omega)).bind
        fun N a b m k _ pair less signals => ?_
      exact Layout.ends_goOn pair signals (Nat.le_refl 0) ((ih n').unfolded pair again (by omega) (by omega))
    · exact .adjust (.pure pair .none) (Nat.le_refl 1) (by omega)

/-- A `for` without an initializer, and the statements of its block. -/
theorem ends_bare {c : Expr} {s t : Stmt} {i : Option Expr} (ih : ∀ n', Unrolls n n') (pair : L.Pair π m k)
    (unfolds : LoopUnfolds π c s i t) (hn : 8 * m.steps + 1 ≤ n) (hn' : 24 * m.steps + 4 ≤ n') :
    L.Ends π 1 0 (·.Signals false) (evaluator n (.loop c s i)) (evaluator n' (.executeAll [t])) m k := by
  obtain ⟨l,rfl⟩ : ∃ l, n' = l + 2 := ⟨n' - 2,by omega⟩
  have again := unfolds
  cases unfolds with
  | @mk _ p q _ d _ t _ j =>
    have loops : L.Ends π 1 0 (·.Signals false) (evaluator n (.loop c s i)) (evaluator (l + 1)
        (.execute (.loop p .plain d (.block q .plain (t :: (j.map Stmt.expression).toList)) none))) m k := by
      rw [evaluator_succ]
      exact .tick_right (.trace_right pair fun k pair => (ih l).unfolded pair again hn (by omega))
    rw [evaluator_succ (l + 1),← bind_pure (evaluator n (.loop c s i))]
    refine loops.bind fun M a b m k _ pair _ signals => ?_
    cases signals with
    | leave => exact .pure pair .leave
    | «return» same => exact .pure pair (.return same)
    | none =>
      dsimp only
      rw [evaluator_executeAll_nil]
      exact .pure pair .none

end

/-! ## The induction -/

namespace Unrolls
variable {n n' : Nat} (ih : ∀ n', Unrolls n n') {L : Layout} {π : Strata} {m k : Machine}
include ih

theorem execute_unfolds {s t : Stmt} (pair : L.Pair π m k) (unfolds : s.Unfolds π t)
    (hn : 8 * m.steps ≤ n + 1) (hn' : 24 * m.steps ≤ n' + 1) :
    L.Ends π 0 1 (·.Signals s.continues) ((Task.execute s).perform (evaluator n))
      ((Task.execute t).perform (evaluator n')) m k := by
  refine .tick pair fun u hs => ?_
  refine (Layout.ends_trace (pair.give u) _ _ _).bind fun M _ _ m k _ pair traced _ => ?_
  have left : m.steps ≤ u := by
    rw [steps_given] at traced
    omega
  have sub {L : Layout} {d e : Expr} {m k : Machine} (pair : L.Pair π m k) (deepens : d.Deepens π e)
      (left : m.steps ≤ u) :
      L.Ends π 2 2 Layout.Same (evaluator n (.evaluate d)) (evaluator n' (.evaluate e)) m k :=
    ((ih n').evaluate pair deepens (by omega) (by omega)).carry
  have done {L : Layout} {b : Bool} {m k : Machine} {x y : Option Signal} (pair : L.Pair π m k)
      (signals : L.Signals b x y) : L.Ends π 2 1 (·.Signals b) (pure x) (pure y) m k :=
    .adjust (.pure pair signals) (Nat.le_refl 2) (by omega)
  have pass {L : Layout} {b b' : Bool} {d : Nat} {m k : Machine} {x y : Exec (Option Signal)}
      (ends : L.Ends π 0 d (·.Signals b) x y m k) (more : b = true → b' = true) :
      L.Ends π 2 1 (·.Signals b') x y m k :=
    (ends.imp fun _ _ _ signals => signals.weaken more).adjust (Nat.zero_le 2) (by omega)
  cases unfolds with
  | expression deepens =>
    refine (sub pair deepens left).bind fun N _ _ m k _ pair _ _ => done pair .none
  | print deepens =>
    refine (sub pair deepens left).bind fun N x y m k _ pair _ same => ?_
    refine (Layout.ends_inspect pair _ same).bind fun O text _ m k _ pair _ same => ?_
    subst same
    refine (Layout.ends_print pair _).bind fun P _ _ m k _ pair _ _ => done pair .none
  | @var _ name _ _ own value =>
    have rest {L : Layout} {x y : Value} {m k : Machine} (pair : L.Pair π m k) (same : L.Same x y) :
        L.Ends π 2 1 (·.Signals false) (declareVariable name.text x) (declareVariable name.text y) m k :=
      .adjust (Layout.ends_declareVariable pair own name.text same) (Nat.le_refl 2) (by omega)
    cases value with
    | none => exact rest pair (.plain rfl)
    | some deepens => exact (sub pair deepens left).bind fun N x y m k _ pair _ same => rest pair same
  | block body => exact pass ((ih n').inside pair body.follow (by omega) (by omega)) (by simp [Stmt.continues])
  | clauses init condition body increment =>
    exact pass ((ih n').inside pair (.cons (.unfolds init) (.cons (.unfolds (.loop condition body increment)) .nil))
      (by omega) (by omega)) (by simp [Stmt.continues])
  | branch condition yes =>
    refine (sub pair condition left).bind fun N x y m k _ pair less same => ?_
    simp only [same.isTruthy_eq]
    split
    · exact pass ((ih n').execute pair (.unfolds yes) (by omega) (by omega)) (by simp [Stmt.continues])
    · exact done pair .none
  | branchElse condition yes no =>
    refine (sub pair condition left).bind fun N x y m k _ pair less same => ?_
    simp only [same.isTruthy_eq]
    split
    · exact pass ((ih n').execute pair (.unfolds yes) (by omega) (by omega)) (by simp +contextual [Stmt.continues])
    · exact pass ((ih n').execute pair (.unfolds no) (by omega) (by omega)) (by simp +contextual [Stmt.continues])
  | loop condition body increment =>
    exact pass ((ih n').loop pair condition body increment (by omega) (by omega)) (by simp [Stmt.continues])
  | @jump _ _ way =>
    cases way with
    | leave => exact done pair .leave
    | next => exact done pair .next
  | function own unfolds =>
    refine (Layout.ends_trace pair _ _ _).bind fun N _ _ m k _ pair _ _ => ?_
    exact (Layout.ends_declareFunction pair own unfolds).bind fun O _ _ m k _ pair _ _ => done pair .none
  | leave value =>
    cases value with
    | none => exact done pair (.return (.plain rfl))
    | some deepens =>
      exact (sub pair deepens left).bind fun N x y m k _ pair _ same => done pair (.return same)
  | @klass _ name b b' rs ss own superclass methods =>
    refine (Layout.ends_trace pair _ _ _).bind fun N _ _ m k _ pair traced _ => .releasing ?_
    have declares {L : Layout} {base base' : Option Ref} {m k : Machine} (pair : L.Pair π m k)
        (twins : Option.Rel L.twin base base') (same : base.isSome = b.isSome) :
        L.Ends π 2 1 (·.Signals false)
          (do
            evaluator n (.declareClass name base rs)
            return (none : Option Signal))
          (do
            evaluator n' (.declareClass name base' ss)
            return (none : Option Signal)) m k :=
      (Layout.ends_declareClass pair own name twins same methods).bind fun O _ _ m k _ pair _ _ => done pair .none
    cases superclass with
    | none => exact declares pair .none rfl
    | some deepens =>
      simp only [map_eq_pure_bind,bind_assoc,pure_bind]
      refine (sub pair (.var deepens) (by omega)).bind fun O x y m k _ pair _ same => ?_
      exact (Layout.ends_checkSuperclass pair deepens same).bind fun P r s m k _ pair _ twin =>
        declares pair (.some twin) rfl
  | bare loop =>
    refine .adjust (c := 1) (d := 0) (.trace_right pair fun k pair => .newEnvironment_right pair
      fun N f k up pair chained => .inEnvironment_right (ρ := .extra :: π) pair ?_) (Nat.le_succ 1) (by omega)
    have inside : N.Pair (.extra :: π) m { k with current := f, saved := k.current :: k.saved } :=
      { pair with here := chained }
    exact ends_bare ih inside loop (by omega) (by omega)
  | initial init loop =>
    exact pass ((ih n').inside pair (.cons (.unfolds init) (.cons (.loop loop) .nil)) (by omega) (by omega))
      (by simp [Stmt.continues])

theorem execute_perform {s t : Stmt} (pair : L.Pair π m k) (follows : s.Follows π t) (hn : 8 * m.steps ≤ n + 1)
    (hn' : 24 * m.steps ≤ n' + 1) :
    L.Ends π 0 1 (·.Signals s.continues) ((Task.execute s).perform (evaluator n))
      ((Task.execute t).perform (evaluator n')) m k := by
  cases follows with
  | unfolds unfolds => exact execute_unfolds ih pair unfolds hn hn'
  | loop unfolds =>
    have again := unfolds
    cases unfolds with
    | mk =>
      refine .tick pair fun u hs => .adjust (c := 2) (d := 2) ?_ (Nat.le_refl 2) (by omega)
      refine (Layout.ends_trace (pair.give u) _ _ _).bind fun M _ _ m k _ pair traced _ => ?_
      rw [steps_given] at traced
      exact ((ih n').unfolded pair again (by omega) (by omega)).carry

theorem perform : Unrolls (n + 1) (n' + 1) := by
  have h := ih n'
  constructor <;> intros
  all_goals rw [evaluator_succ,evaluator_succ]
  case evaluate pair deepens hn hn' => exact h.evaluate_perform pair deepens hn hn'
  case evaluateAll pair deepen hn hn' => exact h.evaluateAll_perform pair deepen hn hn'
  case call pair same all hn hn' => exact h.call_perform pair same all hn hn'
  case callFunction pair twin all hn hn' => exact h.callFunction_perform pair twin all hn hn'
  case callBound pair method twin all hn hn' => exact h.callBound_perform pair method twin all hn hn'
  case instantiate pair twin all hn hn' => exact h.instantiate_perform pair twin all hn hn'
  case invoke pair unfolds chained all hn hn' => exact h.invoke_perform pair unfolds chained all hn hn'
  case execute pair follows hn hn' => exact execute_perform ih pair follows hn hn'
  case executeAll pair follow hn hn' => exact h.executeAll_perform pair follow hn hn'
  case loop pair condition body increment hn hn' => exact h.loop_perform pair condition body increment hn hn'
  case unfolded pair unfolds hn hn' => exact unfolded_perform ih pair unfolds hn hn'

end Unrolls

/-- The evaluator performs the tasks of an unfolded program as it performs those of the program itself, under
all bounds that are not met before the steps are. -/
theorem unrolls (n n' : Nat) : Unrolls n n' := by
  have expressions {L : Layout} {π : Strata} {d e : Expr} {m k : Machine} (n n' : Nat) (pair : L.Pair π m k)
      (none : m.steps = 0) :
      L.Ends π 0 1 Layout.Same (evaluator n (.evaluate d)) (evaluator n' (.evaluate e)) m k :=
    .cut (evaluate_of_no_steps n d none) (evaluate_of_no_steps n' e rfl) (needs_zero _ k) pair.output
      (Nat.le_of_eq none) (Nat.zero_le _)
  have statements {L : Layout} {π : Strata} {s t : Stmt} {m k : Machine} (n n' : Nat) (pair : L.Pair π m k)
      (none : m.steps = 0) :
      L.Ends π 0 1 (·.Signals s.continues) (evaluator n (.execute s)) (evaluator n' (.execute t)) m k :=
    .cut (execute_of_no_steps n s none) (execute_of_no_steps n' t rfl) (needs_zero _ k) pair.output
      (Nat.le_of_eq none) (Nat.zero_le _)
  induction n generalizing n' with
  | zero =>
    constructor
    case evaluate => exact fun pair _ hn _ => expressions 0 n' pair (by omega)
    case execute => exact fun pair _ hn _ => statements 0 n' pair (by omega)
    all_goals intros; omega
  | succ n ih =>
    cases n' with
    | zero =>
      constructor
      case evaluate => exact fun pair _ _ hn' => expressions (n + 1) 0 pair (by omega)
      case execute => exact fun pair _ _ hn' => statements (n + 1) 0 pair (by omega)
      all_goals intros; omega
    | succ n' => exact Unrolls.perform ih

end Lox
