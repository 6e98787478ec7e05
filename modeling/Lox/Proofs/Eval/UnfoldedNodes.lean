import Lox.Proofs.Machine.Unfolding

/-! # Single nodes of unfolded programs

What the operations behind single nodes do in a machine and in the one that runs the unfolded program,
with corresponding values and with depths that lead to the same scopes.
-/
namespace Lox
open Machine Exec

namespace Layout
variable {L : Layout} {π ρ : Strata} {c : Nat} {m k : Machine} {u u' v v' : Value}

/-! ## Variables and properties -/

theorem ends_findMethod {r s : Ref} (pair : L.Pair π m k) (pos : Pos) (twin : L.twin r s) (name : String) :
    L.Ends π c c (fun M => Option.Rel M.method) (reading pos (·.findMethod r name))
      (reading pos (·.findMethod s name)) m k :=
  ends_reading pair pos (pair.heaps.answers_findMethod twin name)

theorem ends_readVariable {r s : Reference} (pair : L.Pair π m k) (deepens : r.Deepens π s) :
    L.Ends π c c Same (readVariable r) (readVariable s) m k := by
  have depth := deepens.depth
  simp only [readVariable,deepens.name]
  generalize r.depth = d,s.depth = e at depth
  cases depth with
  | none =>
    exact (ends_answers pair _ (pair.heaps.answers_lookup pair.globals _)).congr rfl fun _ => rfl
  | some leads =>
    exact (ends_answers pair _ (pair.heaps.answers_lookupAt pair.here leads _)).congr rfl fun _ => rfl

theorem ends_assignVariable {r s : Reference} (pair : L.Pair π m k) (deepens : r.Deepens π s)
    (same : L.Same u v) : L.Ends π c c (fun _ _ _ => True) (assignVariable r u) (assignVariable s v) m k := by
  have depth := deepens.depth
  simp only [assignVariable,deepens.name]
  generalize r.depth = d,s.depth = e at depth
  cases depth with
  | none =>
    exact (ends_writes pair _ (pair.heaps.writes_assign pair.globals _ same)).congr rfl fun _ => rfl
  | some leads =>
    exact (ends_writes pair _ (pair.heaps.writes_assignAt pair.here leads _ same)).congr rfl fun _ => rfl

theorem ends_instance? (pair : L.Pair π m k) (same : L.Same u v) :
    L.Ends π c c (fun M => Option.Rel M.twin) (instance? u) (instance? v) m k := by
  cases same with
  | @object r s twin =>
    have right (j : Nat) : instance? (.object s) (k.given j) =
        .ok (if m.heap.kindOf r = .instanceOf then some s else none) (k.given j) := by
      rw [← pair.heaps.kindOf_eq twin]
      rfl
    refine .of_ok rfl right (.refl L) pair rfl rfl ?_
    split
    · exact .some twin
    · exact .none
  | bound => exact .of_ok (b := none) rfl (fun _ => rfl) (.refl L) pair rfl rfl .none
  | plain scalar =>
    cases u with
    | object | bound => cases scalar
    | _ => exact .of_ok (b := none) rfl (fun _ => rfl) (.refl L) pair rfl rfl .none

theorem ends_class? (pair : L.Pair π m k) (same : L.Same u v) :
    L.Ends π c c (fun M => Option.Rel M.twin) (class? u) (class? v) m k := by
  cases same with
  | @object r s twin =>
    have right (j : Nat) : class? (.object s) (k.given j) =
        .ok (if m.heap.kindOf r = .klass then some s else none) (k.given j) := by
      rw [← pair.heaps.kindOf_eq twin]
      rfl
    refine .of_ok rfl right (.refl L) pair rfl rfl ?_
    split
    · exact .some twin
    · exact .none
  | bound => exact .of_ok (b := none) rfl (fun _ => rfl) (.refl L) pair rfl rfl .none
  | plain scalar =>
    cases u with
    | object | bound => cases scalar
    | _ => exact .of_ok (b := none) rfl (fun _ => rfl) (.refl L) pair rfl rfl .none

theorem ends_getProperty (pair : L.Pair π m k) (same : L.Same u v) (name : Name) :
    L.Ends π c c Same (getProperty u name) (getProperty v name) m k := by
  refine (ends_instance? pair same).bind fun M a b m k up pair _ twins => ?_
  cases twins with
  | none => exact .raise pair name.pos .noProperties
  | some twin =>
    refine (ends_reading pair name.pos (pair.heaps.answers_property twin name.text)).bind
      fun N a b m k up pair _ properties => ?_
    cases properties with
    | field same => exact .pure pair same
    | method function => exact .pure pair (.bound function (up.paired twin))

theorem ends_readThis {d e : Option Nat} (pair : L.Pair π m k) (pos : Pos) (depth : Option.Rel π.Leads d e) :
    L.Ends π c c Same (readThis pos d) (readThis pos e) m k := by
  cases depth with
  | none => exact .throw pair (.fault .unresolved)
  | some leads =>
    exact (ends_answers pair pos (pair.heaps.answers_lookupAt pair.here leads "this")).congr rfl fun _ => rfl

theorem ends_readSuper {d e : Option Nat} (pair : L.Pair π m k) (pos : Pos) (method : Name)
    (depth : Option.Rel π.Descends d e) :
    L.Ends π c c Same (readSuper pos method d) (readSuper pos method e) m k := by
  cases depth with
  | none => exact .throw pair (.fault .unresolved)
  | some descends =>
    obtain ⟨outer,inner⟩ := descends
    refine (ends_currentEnvironment pair).bind fun M r s m k _ pair _ chained => ?_
    refine (ends_reading pair pos (pair.heaps.answers_lookupAt chained outer "super")).bind
      fun N superclass superclass' m k up pair _ super => ?_
    have chained := chained.grows up
    have back (n : Nat) : ((n + 1 : Nat) : Int) - 1 = n := by omega
    simp only [back]
    refine (ends_reading pair pos (pair.heaps.answers_lookupAt chained inner "this")).bind
      fun O this this' m k up pair _ receiver => ?_
    refine (ends_class? pair (super.grows up)).bind fun P a b m k up pair _ twins => ?_
    cases twins with
    | none => exact .raise pair pos .superclassNotClass
    | some twin =>
      cases receiver with
      | plain scalar =>
        cases this with
        | object | bound => cases scalar
        | _ => exact .throw pair (.fault .wrongKind)
      | bound => exact .throw pair (.fault .wrongKind)
      | object receiver =>
        refine (ends_findMethod pair pos twin method.text).bind fun Q a b m k up' pair _ found => ?_
        cases found with
        | none => exact .raise pair method.pos (.undefinedProperty method.text)
        | some function => exact .pure pair (.bound function (up'.paired (up.paired receiver)))

/-! ## Operators -/

theorem Same.numbers?_eq (left : L.Same u u') (right : L.Same v v') : numbers? u' v' = numbers? u v := by
  cases left with
  | plain scalar =>
    cases right with
    | plain => rfl
    | object | bound => cases u <;> rfl
  | object | bound => rfl

theorem ends_addValues (pair : L.Pair π m k) (pos : Pos) (left : L.Same u u') (right : L.Same v v') :
    L.Ends π c c Same (addValues pos u v) (addValues pos u' v') m k := by
  have refused : L.Ends π c c Same (raise pos .operandsNotAddable) (raise pos .operandsNotAddable) m k :=
    .raise pair pos .operandsNotAddable
  cases left with
  | object | bound => exact refused
  | plain scalar =>
    cases right with
    | object | bound => cases u <;> exact refused
    | plain scalar' =>
      rw [addValues.eq_def]
      split
      · exact .pure pair (.plain rfl)
      · exact .pure pair (.plain rfl)
      · exact refused

theorem ends_onNumbers (pair : L.Pair π m k) (pos : Pos) (left : L.Same u u') (right : L.Same v v')
    {f : Float → Float → Exec Value} (ends : ∀ a b, L.Ends π c c Same (f a b) (f a b) m k) :
    L.Ends π c c Same (onNumbers pos u v f) (onNumbers pos u' v' f) m k := by
  rw [onNumbers,onNumbers,left.numbers?_eq right]
  cases numbers? u v with
  | none => exact .raise pair pos .operandsNotNumbers
  | some both => exact ends both.1 both.2

theorem ends_divide (pair : L.Pair π m k) (pos : Pos) (a b : Float) :
    L.Ends π c c Same (divide pos a b) (divide pos a b) m k := by
  rw [divide]
  split
  · exact .raise pair pos .divisionByZero
  · exact .pure pair (.plain rfl)

theorem ends_applyBinary (pair : L.Pair π m k) (op : BinaryOp) (pos : Pos) (left : L.Same u u')
    (right : L.Same v v') : L.Ends π c c Same (applyBinary op pos u v) (applyBinary op pos u' v') m k := by
  cases op with
  | equal | notEqual =>
    simp only [applyBinary,pair.heaps.equal_eq left right]
    exact .pure pair (.plain rfl)
  | plus => exact ends_addValues pair pos left right
  | divide => exact ends_onNumbers pair pos left right (ends_divide pair pos)
  | minus | times | less | lessEqual | greater | greaterEqual =>
    exact ends_onNumbers pair pos left right fun _ _ => .pure pair (.plain rfl)

theorem ends_applyUnary (pair : L.Pair π m k) (op : UnaryOp) (pos : Pos) (same : L.Same u v) :
    L.Ends π c c Same (applyUnary op pos u) (applyUnary op pos v) m k := by
  cases op with
  | not =>
    simp only [applyUnary,same.isTruthy_eq]
    exact .pure pair (.plain rfl)
  | minus =>
    cases same with
    | object | bound => exact .raise pair pos .operandNotNumber
    | plain scalar =>
      cases u with
      | number x => exact .pure pair (.plain rfl)
      | _ => exact .raise pair pos .operandNotNumber

theorem ends_inspect (pair : L.Pair π m k) (pos : Pos) (same : L.Same u v) :
    L.Ends π c c (fun _ => Eq) (reading pos u.inspect) (reading pos v.inspect) m k :=
  ends_reading pair pos (.of_eq (pair.heaps.inspect_eq same))

/-- What is done only when everything is logged. -/
theorem ends_logging {x y : Exec Unit} (pair : L.Pair π m k)
    (ends : L.Ends π c c (fun _ _ _ => True) x y m k) :
    L.Ends π c c (fun _ _ _ => True) (fun m => if m.level.logs .verbose then x m else .ok () m)
      (fun k => if k.level.logs .verbose then y k else .ok () k) m k := by
  have same (j : Nat) : (k.given j).level = m.level := pair.level
  by_cases logs : m.level.logs .verbose
  · exact ends.congr (if_pos logs) fun j => if_pos (by rwa [same])
  · exact .of_ok (b := ()) (if_neg logs) (fun j => if_neg (by rwa [same])) (.refl L) pair rfl rfl trivial

theorem ends_traceBinary (pair : L.Pair π m k) (op : BinaryOp) (left : L.Same u u') (right : L.Same v v') :
    L.Ends π c c (fun _ _ _ => True) (traceBinary op u v) (traceBinary op u' v') m k := by
  have texts {u v : Value} : traceBinary op u v = fun m => if m.level.logs .verbose then
      (do
        let l ← reading .start u.inspect
        let r ← reading .start v.inspect
        trace .verbose fun _ => s!"  Binary: {l} {op.symbol} {r}" : Exec Unit) m
      else .ok () m := by
    funext m
    simp only [traceBinary,Bind.bind,EStateM.bind,reading]
    cases u.inspect m.heap with
    | error => cases v.inspect m.heap <;> rfl
    | ok text => cases right : v.inspect m.heap <;> simp only [right]
  rw [texts,texts]
  refine ends_logging pair ?_
  refine (ends_inspect pair .start left).bind fun M _ _ m k up pair _ _ => ?_
  refine (ends_inspect pair .start (right.grows up)).bind
    fun N _ _ m k _ pair _ _ => ?_
  exact ends_trace pair _ _ _

/-! ## Calls -/

theorem ends_checkCall (pair : L.Pair π m k) (pos : Pos) (same : L.Same u v) {count count' : Nat}
    (counts : count' = count) :
    L.Ends π c c (fun _ _ _ => True) (checkCall pos u count) (checkCall pos v count') m k := by
  subst counts
  have checks {u : Value} {m : Machine} {count : Nat} : checkCall pos u count m = if u.isCallable m.heap then
      (do
        let arity ← reading pos u.arity
        if count = arity then return () else raise pos (.wrongArity arity count) : Exec Unit) m
      else raise pos .notCallable m := by
    simp only [checkCall,Bind.bind,EStateM.bind,reading]
    split
    · cases u.arity m.heap with
      | error => rfl
      | ok arity =>
        dsimp only
        split <;> rfl
    · rfl
  have callable : v.isCallable k.heap = u.isCallable m.heap := pair.heaps.isCallable_eq same
  by_cases called : u.isCallable m.heap
  · refine Ends.congr ?_ (checks.trans (if_pos called)) fun j =>
      checks.trans (if_pos (callable.trans called))
    have arity : L.Ends π c c (fun _ => Eq) (reading pos u.arity) (reading pos v.arity) m k :=
      ends_reading pair pos (pair.heaps.answers_arity_value same)
    refine arity.bind fun M a b m k _ pair _ same => ?_
    subst same
    split
    · exact .pure pair trivial
    · exact .raise pair pos _
  · exact Ends.congr (.raise pair pos .notCallable) (checks.trans (if_neg called)) fun j =>
      checks.trans (if_neg (callable ▸ called))

theorem ends_traceCall (pair : L.Pair π m k) (same : L.Same u v) :
    L.Ends π c c (fun _ _ _ => True) (traceCall u) (traceCall v) m k := by
  have texts {u : Value} : traceCall u = fun m => if m.level.logs .verbose then
      (do
        let text ← reading .start u.inspect
        fun m => trace .verbose (fun _ => s!"apply_function: Calling {text} (depth {m.frames.length})") m :
          Exec Unit) m
      else .ok () m := by
    funext m
    simp only [traceCall,Bind.bind,EStateM.bind,reading]
    cases u.inspect m.heap <;> rfl
  rw [texts,texts]
  refine ends_logging pair ?_
  refine (ends_inspect pair .start same).bind fun M text shown m k _ pair _ _ => ?_
  exact (ends_trace pair .verbose
    (fun _ => s!"apply_function: Calling {text} (depth {m.frames.length})")
    fun _ => s!"apply_function: Calling {shown} (depth {k.frames.length})").congr rfl fun _ => rfl

theorem ends_function {r s : Ref} (pair : L.Pair π m k) (pos : Pos) (twin : L.twin r s) :
    L.Ends π c c (fun M a b => ∃ ρ e f, RoutineUnfolds ρ a.1 b.1 ∧ a.2 = some e ∧ b.2 = some f ∧ M.Chained ρ e f)
      (reading pos (·.function r)) (reading pos (·.function s)) m k :=
  ends_reading pair pos (pair.heaps.answers_function twin)

theorem ends_method {r s : Ref} (pair : L.Pair π m k) (pos : Pos) (method : L.method r s) :
    L.Ends π c c (fun M a b => ∃ ρ e f, RoutineUnfolds (.shared :: ρ) a.1 b.1 ∧ a.2 = some e ∧ b.2 = some f ∧
      M.Chained ρ e f) (reading pos (·.function r)) (reading pos (·.function s)) m k :=
  ends_reading pair pos (pair.heaps.answers_method method)

theorem ends_live {r s : Ref} (pair : L.Pair π m k) (pos : Pos) (twin : L.twin r s) :
    L.Ends π c c (fun M a b => M.Matches false a.object b.object) (reading pos (·.live r))
      (reading pos (·.live s)) m k :=
  ends_reading pair pos (pair.heaps.answers_live twin)

theorem ends_bindParameters {r s : Ref} (pair : L.Pair π m k) (twin : L.twin r s) (ps : List Name)
    {xs ys : List Value} (same : List.Forall₂ L.Same xs ys) :
    L.Ends π c c (fun _ _ _ => True) (bindParameters r ps xs) (bindParameters s ps ys) m k := by
  induction ps generalizing L xs ys m k with
  | nil => exact .pure pair trivial
  | cons p ps ih =>
    cases same with
    | nil => exact .pure pair trivial
    | cons first rest =>
      refine (ends_define pair twin p.text first).bind fun M _ _ m k up pair _ _ => ?_
      exact ih pair (up.paired twin) (rest.imp fun _ _ => Same.grows up)

/-! ## Declarations -/

theorem ends_newMethods {rs ss : List Routine} {e f : Ref} {made made' : Bindings Ref} (pair : L.Pair π m k)
    (unfold : RoutinesUnfold (.shared :: ρ) rs ss) (chained : L.Chained ρ e f) (same : made.Rel L.method made') :
    L.Ends π c c (fun M => Bindings.Rel M.method) (newMethods e rs made) (newMethods f ss made') m k := by
  induction rs generalizing L ss made made' m k with
  | nil =>
    cases unfold
    exact .pure pair same
  | cons r rs ih =>
    cases unfold with
    | @cons _ _ s _ ss unfolds rest =>
      simp only [newMethods,unfolds.name]
      have made : L.Ends π c c (fun M => M.method) (newFunction r e) (newFunction s f) m k :=
        ends_allocate pair (.method unfolds chained)
      refine made.bind fun M g g' m k up pair _ method => ?_
      refine (ends_keep pair (.object g) (.object g')).bind fun N _ _ m k up' pair _ _ => ?_
      have up := up.trans up'
      exact ih pair rest (chained.grows up) ((same.imp fun _ _ => up.paired).set _ (up'.paired method))

/-- The environment of the methods is one inside that of the class if there is a superclass. -/
theorem ends_methodEnvironment {b b' : Option Ref} (pair : L.Pair π m k) (base : Option.Rel L.twin b b') :
    L.Ends π c c (fun M => M.Chained (if b.isSome then .shared :: π else π)) (methodEnvironment b)
      (methodEnvironment b') m k := by
  refine (ends_currentEnvironment pair).bind fun M e f m k up pair _ chained => ?_
  cases base with
  | none => exact .pure pair chained
  | @some t u twin =>
    refine (ends_newEnvironment pair chained).bind fun N g g' m k up' pair _ inner => ?_
    refine (ends_define pair (inner.twin trivial) "super" (.object ((up.trans up').paired twin))).bind
      fun O _ _ m k up pair _ _ => ?_
    refine (ends_keep pair (.object g) (.object g')).bind fun P _ _ m k up' pair _ _ => ?_
    exact .pure pair (inner.grows (up.trans up'))

theorem ends_declareClass {rs ss : List Routine} {b b' : Option Ref} {o : Option Reference} (pair : L.Pair π m k)
    (own : π.Own) (name : Name) (base : Option.Rel L.twin b b') (same : b.isSome = o.isSome)
    (unfold : RoutinesUnfold (π.ofClass o) rs ss) :
    L.Ends π c c (fun _ _ _ => True) (declareClass name b rs) (declareClass name b' ss) m k := by
  have methods : RoutinesUnfold (.shared :: (if b.isSome then .shared :: π else π)) rs ss := by
    rw [same]
    cases o <;> exact unfold
  refine (ends_methodEnvironment pair base).bind fun M e f m k up pair _ chained => ?_
  refine (ends_newMethods pair methods chained .empty).bind fun N table table' m k up' pair _ tables => ?_
  have base : Option.Rel N.twin b b' := by
    cases base with
    | none => exact .none
    | some twin => exact .some ((up.trans up').paired twin)
  have made : N.Ends π c c (fun O => O.twin) (allocate (.klass name.text b table))
      (allocate (.klass name.text b' table')) m k := ends_allocate pair (.klass base tables)
  refine made.bind fun O t u m k _ pair _ twin => ?_
  refine (ends_currentEnvironment pair).bind fun P e f m k up pair _ chained => ?_
  exact ends_define pair (chained.twin own) name.text (.object (up.paired twin))

theorem ends_declareFunction {r s : Routine} (pair : L.Pair π m k) (own : π.Own) (unfolds : RoutineUnfolds π r s) :
    L.Ends π c c (fun _ _ _ => True) (declareFunction r) (declareFunction s) m k := by
  simp only [declareFunction,unfolds.name]
  refine (ends_currentEnvironment pair).bind fun M e f m k _ pair _ chained => ?_
  have made : M.Ends π c c (fun N => N.twin) (newFunction r e) (newFunction s f) m k :=
    ends_allocate pair (.function unfolds chained)
  refine made.bind fun N t u m k up pair _ twin => ?_
  exact ends_define pair ((chained.grows up).twin own) r.name.text (.object twin)

theorem ends_checkSuperclass {r s : Reference} (pair : L.Pair π m k) (deepens : r.Deepens π s)
    (same : L.Same u v) : L.Ends π c c (fun M => M.twin) (checkSuperclass r u) (checkSuperclass s v) m k := by
  simp only [checkSuperclass,deepens.name]
  refine (ends_class? pair same).bind fun M a b m k _ pair _ twins => ?_
  cases twins with
  | none => exact .raise pair r.name.pos .superclassNotClass
  | some twin =>
    refine (ends_keep pair u v).bind fun N _ _ m k up pair _ _ => ?_
    exact .pure pair (up.paired twin)

end Layout
end Lox
