import Lox.Proofs.Ast.Unfolding
import Lox.Proofs.Scope.Sites

/-! # Scopes of unfolded programs

Extra scopes hold no names. So an unfolded program breaks no rule of scope that the program itself keeps,
and the depths of its names lead past the extra scopes to the same places.
-/
namespace Lox

/-- The scopes around a place in a program and around that place in the unfolded program. A superclass is
held by the scope around that of the receiver, and by no other. -/
inductive Spreads : Strata → Scopes → Scopes → Prop
  | nil : Spreads [] [] []
  | shared {π Γ Δ names} : "super" ∉ names → Spreads π Γ Δ →
      Spreads (.shared :: π) (names :: Γ) (names :: Δ)
  | derived {π Γ Δ names} : "super" ∉ names → Spreads π Γ Δ →
      Spreads (.shared :: .shared :: π) (names :: ["super"] :: Γ) (names :: ["super"] :: Δ)
  | extra {π Γ Δ} : Spreads π Γ Δ → Spreads (.extra :: π) Γ ([] :: Δ)

namespace Spreads
variable {π : Strata} {Γ Δ : Scopes}

theorem depth? (spreads : Spreads π Γ Δ) (name : String) :
    Option.Rel π.Leads (Γ.depth? name) (Δ.depth? name) := by
  have scope : ∀ {π : Strata} {Γ Δ : Scopes} (names : List String),
      Option.Rel π.Leads (Γ.depth? name) (Δ.depth? name) →
      Option.Rel (Strata.Leads (.shared :: π)) (Scopes.depth? (names :: Γ) name)
        (Scopes.depth? (names :: Δ) name) := by
    intro π Γ Δ names outer
    simp only [Scopes.depth?]
    split
    · exact .some .here
    · generalize Γ.depth? name = d,Δ.depth? name = e at outer
      cases outer with
      | none => exact .none
      | some leads => exact .some leads.shared
  induction spreads with
  | nil => exact .none
  | shared _ _ ih => exact scope _ ih
  | derived _ _ ih => exact scope _ (scope _ ih)
  | @extra π Γ Δ _ ih =>
    have empty : Scopes.depth? ([] :: Δ) name = (Δ.depth? name).map (· + 1) := rfl
    rw [empty]
    generalize Γ.depth? name = d,Δ.depth? name = e at ih
    cases ih with
    | none => exact .none
    | some leads => exact .some leads.extra

theorem depth?_super (spreads : Spreads π Γ Δ) :
    Option.Rel π.Descends (Γ.depth? "super") (Δ.depth? "super") := by
  induction spreads with
  | nil => exact .none
  | @shared π Γ Δ names other _ ih =>
    have past : ∀ Γ : Scopes, Scopes.depth? (names :: Γ) "super" = (Γ.depth? "super").map (· + 1) :=
      fun Γ => if_neg (by simpa using other)
    rw [past,past]
    generalize Γ.depth? "super" = d,Δ.depth? "super" = e at ih
    cases ih with
    | none => exact .none
    | some descends =>
      obtain ⟨outer,inner⟩ := descends
      exact .some (.succ outer.shared inner.shared)
  | @derived π Γ Δ names other =>
    have one : ∀ Γ : Scopes, Scopes.depth? (names :: ["super"] :: Γ) "super" = some 1 :=
      fun Γ => if_neg (by simpa using other)
    rw [one,one]
    exact .some (.succ (.shared .here) .here)
  | @extra π Γ Δ _ ih =>
    have past : Scopes.depth? ([] :: Δ) "super" = (Δ.depth? "super").map (· + 1) := rfl
    rw [past]
    generalize Γ.depth? "super" = d,Δ.depth? "super" = e at ih
    cases ih with
    | none => exact .none
    | some descends =>
      obtain ⟨outer,inner⟩ := descends
      exact .some (.succ outer.extra inner.extra)

theorem declare (spreads : Spreads π Γ Δ) (own : π.Own) {name : String} (ordinary : Ordinary name) :
    Spreads π (Γ.declare name) (Δ.declare name) := by
  cases spreads with
  | nil => exact .nil
  | shared other rest => exact .shared (by simp [other,Ne.symm ordinary.2]) rest
  | derived other rest => exact .derived (by simp [other,Ne.symm ordinary.2]) rest
  | extra => exact own.elim

theorem block (spreads : Spreads π Γ Δ) : Spreads (.shared :: π) ([] :: Γ) ([] :: Δ) :=
  .shared List.not_mem_nil spreads

theorem declareAll {ps : List Name} (ordinary : ∀ p ∈ ps, Ordinary p.text) (own : π.Own)
    (spreads : Spreads π Γ Δ) : Spreads π (Γ.declareAll ps) (Δ.declareAll ps) := by
  induction ps generalizing Γ Δ with
  | nil => exact spreads
  | cons p ps ih =>
    obtain ⟨first,rest⟩ := List.forall_mem_cons.mp ordinary
    exact ih rest (spreads.declare own first)

theorem ofClass (spreads : Spreads π Γ Δ) {b c : Option Reference}
    (base : Option.Rel (Reference.Deepens π) b c) :
    Spreads (π.ofClass b) (Γ.ofClass b) (Δ.ofClass c) := by
  cases base with
  | none => exact .shared (by decide) spreads
  | some _ => exact .derived (by decide) spreads

theorem isEmpty_eq (spreads : Spreads π Γ Δ) (own : π.Own) : Δ.isEmpty = Γ.isEmpty := by
  cases spreads with
  | extra => exact own.elim
  | _ => rfl

theorem declarationErrors_eq (spreads : Spreads π Γ Δ) (own : π.Own) (name : Name) :
    declarationErrors Δ name = declarationErrors Γ name := by
  cases spreads with
  | extra => exact own.elim
  | _ => rfl

theorem parameterErrors_eq (spreads : Spreads π Γ Δ) (own : π.Own) {ps : List Name}
    (ordinary : ∀ p ∈ ps, Ordinary p.text) : parameterErrors Δ ps = parameterErrors Γ ps := by
  induction ps generalizing Γ Δ with
  | nil => rfl
  | cons p ps ih =>
    obtain ⟨first,rest⟩ := List.forall_mem_cons.mp ordinary
    rw [parameterErrors,parameterErrors,spreads.declarationErrors_eq own,ih (spreads.declare own first) rest]

end Spreads

variable {π : Strata} {Γ Δ : Scopes}

theorem Expr.orTrue_resolve (e : Expr) : (e.resolve Γ).orTrue = e.orTrue.resolve Γ := by
  cases e with
  | literal value _ => cases value <;> rfl
  | _ => rfl

mutual

theorem Stmt.continues_resolve (Γ : Scopes) : (s : Stmt) → (s.resolve Γ).continues = s.continues
  | .jump _ _ | .expression _ | .print _ _ | .var _ _ | .loop _ _ _ _ _ | .function _ | .leave _ _
  | .klass _ _ _ => rfl
  | .block _ _ body => anyContinues_resolve ([] :: Γ) body
  | .branch _ _ yes none => yes.continues_resolve Γ
  | .branch _ _ yes (some no) => by
    rw [Stmt.resolve,Stmt.continues,Stmt.continues,yes.continues_resolve Γ,no.continues_resolve Γ]

theorem anyContinues_resolve (Γ : Scopes) : (ss : List Stmt) → anyContinues (resolveAll Γ ss) = anyContinues ss
  | [] => rfl
  | s :: rest => by
    rw [resolveAll,anyContinues,anyContinues,s.continues_resolve Γ,anyContinues_resolve _ rest]

end

theorem Stmt.Unfolds.declared?_eq {s t : Stmt} (unfolds : s.Unfolds π t) : t.declared? = s.declared? := by
  cases unfolds with
  | function _ routine => simp only [Stmt.declared?,routine.name]
  | _ => rfl

theorem Stmt.Unfolds.afterStmt {s t : Stmt} (unfolds : s.Unfolds π t) (named : s.Named Ordinary)
    (spreads : Spreads π Γ Δ) : Spreads π (Γ.afterStmt s) (Δ.afterStmt t) := by
  have ordinary := s.ordinary_declared? named
  simp only [Scopes.afterStmt,unfolds.declared?_eq]
  cases unfolds with
  | var own | function own | klass own => exact spreads.declare own (ordinary _ rfl)
  | _ => exact spreads

/-! ## Resolution -/

theorem Reference.Deepens.resolve {r s : Reference} (deepens : r.Deepens π s) (spreads : Spreads π Γ Δ) :
    (r.resolve Γ).Deepens π (s.resolve Δ) := by
  refine ⟨deepens.name,?_⟩
  simp only [Reference.resolve,deepens.name]
  exact spreads.depth? _

theorem Reference.Deepens.resolve_option {b c : Option Reference}
    (deepens : Option.Rel (Reference.Deepens π) b c) (spreads : Spreads π Γ Δ) :
    Option.Rel (Reference.Deepens π) (b.map (·.resolve Γ)) (c.map (·.resolve Δ)) := by
  cases deepens with
  | none => exact .none
  | some deepens => exact .some (deepens.resolve spreads)

mutual

theorem Expr.Deepens.resolve (spreads : Spreads π Γ Δ) : ∀ {d e : Expr}, d.Deepens π e →
    (d.resolve Γ).Deepens π (e.resolve Δ)
  | _, _, .literal => .literal
  | _, _, .grouping deepens => .grouping (Expr.Deepens.resolve spreads deepens)
  | _, _, .var reference => .var (reference.resolve spreads)
  | _, _, .assign reference deepens =>
    .assign (reference.resolve spreads) (Expr.Deepens.resolve spreads deepens)
  | _, _, .unary deepens => .unary (Expr.Deepens.resolve spreads deepens)
  | _, _, .binary left right =>
    .binary (Expr.Deepens.resolve spreads left) (Expr.Deepens.resolve spreads right)
  | _, _, .logical left right =>
    .logical (Expr.Deepens.resolve spreads left) (Expr.Deepens.resolve spreads right)
  | _, _, .call callee args =>
    .call (Expr.Deepens.resolve spreads callee) (ArgumentsDeepen.resolve spreads args)
  | _, _, .get object => .get (Expr.Deepens.resolve spreads object)
  | _, _, .set object value =>
    .set (Expr.Deepens.resolve spreads object) (Expr.Deepens.resolve spreads value)
  | _, _, .this _ => .this (spreads.depth? _)
  | _, _, .super _ => .super spreads.depth?_super

theorem ArgumentsDeepen.resolve (spreads : Spreads π Γ Δ) : ∀ {ds es : List Expr}, ArgumentsDeepen π ds es →
    ArgumentsDeepen π (resolveArguments Γ ds) (resolveArguments Δ es)
  | _, _, .nil => .nil
  | _, _, .cons deepens rest =>
    .cons (Expr.Deepens.resolve spreads deepens) (ArgumentsDeepen.resolve spreads rest)

end

theorem Expr.Deepens.resolve_option (spreads : Spreads π Γ Δ) {d e : Option Expr}
    (deepens : Option.Rel (Expr.Deepens π) d e) :
    Option.Rel (Expr.Deepens π) (d.map (·.resolve Γ)) (e.map (·.resolve Δ)) := by
  cases deepens with
  | none => exact .none
  | some deepens => exact .some (deepens.resolve spreads)

mutual

/-- What unfolds as something unfolds as that also behind the resolution of both. -/
theorem Stmt.Unfolds.resolve : ∀ {π : Strata} {Γ Δ : Scopes} {s t : Stmt}, s.Unfolds π t →
    s.Named Ordinary → Spreads π Γ Δ → (s.resolve Γ).Unfolds π (t.resolve Δ)
  | _, _, _, _, _, .expression deepens, _, spreads => .expression (deepens.resolve spreads)
  | _, _, _, _, _, .print deepens, _, spreads => .print (deepens.resolve spreads)
  | _, _, _, _, _, .var own init, named, spreads =>
    .var own (Expr.Deepens.resolve_option (spreads.declare own named.1) init)
  | _, _, _, _, _, .block body, named, spreads => .block (BodyUnfolds.resolve body named spreads.block)
  | _, _, _, _, _, .clauses init condition body increment, named, spreads => by
    obtain ⟨hi,⟨-,hb,-,-⟩,-⟩ := named
    have inner := init.afterStmt hi spreads.block
    exact .clauses (Stmt.Unfolds.resolve init hi spreads.block) (condition.resolve inner)
      (Stmt.Unfolds.resolve body hb inner) (Expr.Deepens.resolve_option inner increment)
  | _, _, _, _, _, .branch condition yes, named, spreads =>
    .branch (condition.resolve spreads) (Stmt.Unfolds.resolve yes named.2.1 spreads)
  | _, _, _, _, _, .branchElse condition yes no, named, spreads =>
    .branchElse (condition.resolve spreads) (Stmt.Unfolds.resolve yes named.2.1 spreads)
      (Stmt.Unfolds.resolve no named.2.2.2.1 spreads)
  | _, _, _, _, _, .loop condition body increment, named, spreads =>
    .loop (condition.resolve spreads) (Stmt.Unfolds.resolve body named.2.1 spreads)
      (Expr.Deepens.resolve_option spreads increment)
  | _, _, _, _, _, .jump, _, _ => .jump
  | _, _, _, _, _, .function own routine, named, spreads => by
    rw [Stmt.resolve,Stmt.resolve,routine.name]
    have inner := spreads.declare own (Stmt.ordinary_declared? (.function _) named _ rfl)
    exact .function own (RoutineUnfolds.resolve routine named inner)
  | _, _, _, _, _, .leave value, _, spreads => .leave (Expr.Deepens.resolve_option spreads value)
  | _, Γ, _, _, _, .klass (n := n) (b := b) own base methods, named, spreads => by
    have inner := spreads.declare own named.1
    have resolved := RoutinesUnfold.resolve methods named.2.2 (inner.ofClass base)
    rw [← Strata.ofClass_map _ (·.resolve (Γ.declare n.text)) b] at resolved
    exact .klass own (Reference.Deepens.resolve_option base inner) resolved
  | _, _, _, _, _, .bare loop, named, spreads =>
    .bare (LoopUnfolds.resolve loop named.2.1 named.2.2.1 spreads.extra)
  | _, _, _, _, _, .initial init loop, named, spreads => by
    obtain ⟨hi,⟨-,hb,plain,-⟩,-⟩ := named
    exact .initial (Stmt.Unfolds.resolve init hi spreads.block)
      (LoopUnfolds.resolve loop hb plain (init.afterStmt hi spreads.block))

theorem LoopUnfolds.resolve : ∀ {π : Strata} {Γ Δ : Scopes} {c : Expr} {s : Stmt} {i : Option Expr}
    {t : Stmt}, LoopUnfolds π c s i t → s.Named Ordinary → s.declared? = none → Spreads π Γ Δ →
    LoopUnfolds π (c.resolve Γ) (s.resolve Γ) (i.map (·.resolve Γ)) (t.resolve Δ)
  | _, Γ, Δ, _, _, _, _, .mk (t := t) (j := j) condition goes body increment, named, plain, spreads => by
    have here : Scopes.afterStmt ([] :: Δ) t = [] :: Δ := by
      simp only [Scopes.afterStmt,body.declared?_eq,plain]
    have parts : resolveAll ([] :: Δ) (t :: (j.map Stmt.expression).toList) =
        t.resolve ([] :: Δ) :: ((j.map (·.resolve ([] :: Δ))).map Stmt.expression).toList := by
      rw [resolveAll,here]
      cases j <;> rfl
    have condition := condition.resolve spreads
    rw [← Expr.orTrue_resolve] at condition
    show LoopUnfolds _ _ _ _ (.loop _ .plain _ (.block _ .plain (resolveAll ([] :: Δ) _)) none)
    rw [parts]
    exact .mk condition ((Stmt.continues_resolve Γ _).trans goes)
      (Stmt.Unfolds.resolve body named spreads.extra) (Expr.Deepens.resolve_option spreads.extra increment)

theorem BodyUnfolds.resolve : ∀ {π : Strata} {Γ Δ : Scopes} {ss ts : List Stmt}, BodyUnfolds π ss ts →
    BodyNamed Ordinary ss → Spreads π Γ Δ → BodyUnfolds π (resolveAll Γ ss) (resolveAll Δ ts)
  | _, _, _, _, _, .nil, _, _ => .nil
  | _, _, _, _, _, .cons unfolds rest, named, spreads =>
    .cons (Stmt.Unfolds.resolve unfolds named.1 spreads)
      (BodyUnfolds.resolve rest named.2 (unfolds.afterStmt named.1 spreads))

theorem RoutineUnfolds.resolve : ∀ {π : Strata} {Γ Δ : Scopes} {r s : Routine}, RoutineUnfolds π r s →
    r.Named Ordinary → Spreads π Γ Δ → RoutineUnfolds π (r.resolve Γ) (s.resolve Δ)
  | _, _, _, _, _, .mk body, named, spreads =>
    .mk (BodyUnfolds.resolve body named.2.2 (spreads.block.declareAll named.2.1 trivial))

theorem RoutinesUnfold.resolve : ∀ {π : Strata} {Γ Δ : Scopes} {rs ss : List Routine},
    RoutinesUnfold π rs ss → MethodsNamed Ordinary rs → Spreads π Γ Δ →
    RoutinesUnfold π (resolveMethods Γ rs) (resolveMethods Δ ss)
  | _, _, _, _, _, .nil, _, _ => .nil
  | _, _, _, _, _, .cons routine rest, named, spreads =>
    .cons (RoutineUnfolds.resolve routine named.1 spreads) (RoutinesUnfold.resolve rest named.2 spreads)

end

/-! ## Errors -/

/-- What surrounds a place in a program and that place in the unfolded program. -/
structure Surroundings.Spreads (π : Strata) (s t : Surroundings) : Prop where
  scopes : Lox.Spreads π s.scopes t.scopes
  inRoutine : t.inRoutine = s.inRoutine
  inLoop : t.inLoop = s.inLoop
  klass : t.klass = s.klass
  initializing : t.initializing = s.initializing

namespace Surroundings.Spreads
variable {s t : Surroundings} (spreads : Surroundings.Spreads π s t)
include spreads

theorem block : Surroundings.Spreads (.shared :: π) s.openScope t.openScope :=
  { spreads with scopes := spreads.scopes.block }

theorem extra : Surroundings.Spreads (.extra :: π) s t.openScope :=
  { spreads with scopes := spreads.scopes.extra }

theorem looping : Surroundings.Spreads π { s with inLoop := true } { t with inLoop := true } :=
  { spreads with inLoop := rfl }

theorem declare (own : π.Own) {name : String} (ordinary : Ordinary name) :
    Surroundings.Spreads π (s.declare name) (t.declare name) :=
  { spreads with scopes := spreads.scopes.declare own ordinary }

theorem initializer (own : π.Own) {name : String} (ordinary : Ordinary name) :
    Surroundings.Spreads π (s.initializer name) (t.initializer name) :=
  { spreads with
    scopes := spreads.scopes.declare own ordinary
    initializing := by simp only [Surroundings.initializer,spreads.scopes.isEmpty_eq own] }

theorem routine {ps : List Name} (ordinary : ∀ p ∈ ps, Ordinary p.text) :
    Surroundings.Spreads (.shared :: π) { s.routine with scopes := s.routine.scopes.declareAll ps }
      { t.routine with scopes := t.routine.scopes.declareAll ps } :=
  { spreads with
    scopes := spreads.scopes.block.declareAll ordinary trivial
    inRoutine := rfl
    inLoop := rfl }

theorem afterStmt {a b : Stmt} (unfolds : a.Unfolds π b) (named : a.Named Ordinary) :
    Surroundings.Spreads π (s.afterStmt a) (t.afterStmt b) :=
  { spreads with scopes := unfolds.afterStmt named spreads.scopes }

theorem classBody {b c : Option Reference} (base : Option.Rel (Reference.Deepens π) b c) :
    Surroundings.Spreads (π.ofClass b) (s.classBody b) (t.classBody c) :=
  { spreads with
    scopes := spreads.scopes.ofClass base
    klass := by cases base <;> rfl }

end Surroundings.Spreads

mutual

theorem Expr.Deepens.scopeErrors {s t : Surroundings} (spreads : s.Spreads π t) : ∀ {d e : Expr},
    d.Deepens π e → e.scopeErrors t = d.scopeErrors s
  | _, _, .literal => rfl
  | _, _, .grouping deepens | _, _, .unary deepens | _, _, .assign _ deepens | _, _, .get deepens => by
    rw [Expr.scopeErrors,Expr.scopeErrors,Expr.Deepens.scopeErrors spreads deepens]
  | _, _, .var reference => by
    rw [Expr.scopeErrors,Expr.scopeErrors,reference.name,spreads.initializing]
  | _, _, .binary left right | _, _, .logical left right | _, _, .set left right => by
    rw [Expr.scopeErrors,Expr.scopeErrors,Expr.Deepens.scopeErrors spreads left,
      Expr.Deepens.scopeErrors spreads right]
  | _, _, .call callee args => by
    rw [Expr.scopeErrors,Expr.scopeErrors,Expr.Deepens.scopeErrors spreads callee,
      ArgumentsDeepen.scopeErrors spreads args]
  | _, _, .this _ | _, _, .super _ => by rw [Expr.scopeErrors,Expr.scopeErrors,spreads.klass]

theorem ArgumentsDeepen.scopeErrors {s t : Surroundings} (spreads : s.Spreads π t) : ∀ {ds es : List Expr},
    ArgumentsDeepen π ds es → argumentErrors t es = argumentErrors s ds
  | _, _, .nil => rfl
  | _, _, .cons deepens rest => by
    rw [argumentErrors,argumentErrors,Expr.Deepens.scopeErrors spreads deepens,
      ArgumentsDeepen.scopeErrors spreads rest]

end

theorem Expr.Deepens.optionErrors {s t : Surroundings} (spreads : s.Spreads π t) {d e : Option Expr}
    (deepens : Option.Rel (Expr.Deepens π) d e) : Expr.optionErrors t e = Expr.optionErrors s d := by
  cases deepens with
  | none => rfl
  | some deepens => exact deepens.scopeErrors spreads

theorem Expr.scopeErrors_orTrue (s : Surroundings) (e : Expr) : e.orTrue.scopeErrors s = e.scopeErrors s := by
  cases e with
  | literal value _ => cases value <;> rfl
  | _ => rfl

mutual

/-- An unfolded statement breaks the same rules of scope in the same places. -/
theorem Stmt.Unfolds.scopeErrors : ∀ {π : Strata} {a b : Stmt} {s t : Surroundings}, a.Unfolds π b →
    a.Named Ordinary → s.Spreads π t → b.scopeErrors t = a.scopeErrors s
  | _, _, _, _, _, .expression deepens, _, spreads | _, _, _, _, _, .print deepens, _, spreads => by
    rw [Stmt.scopeErrors,Stmt.scopeErrors,deepens.scopeErrors spreads]
  | _, _, _, _, _, .var own init, named, spreads => by
    rw [Stmt.scopeErrors,Stmt.scopeErrors,spreads.scopes.declarationErrors_eq own,
      Expr.Deepens.optionErrors (spreads.initializer own named.1) init]
  | _, _, _, _, _, .block body, named, spreads => BodyUnfolds.scopeErrors body named spreads.block
  | _, _, _, _, _, .clauses init condition body increment, named, spreads => by
    obtain ⟨hi,⟨-,hb,-,-⟩,-⟩ := named
    have inner := spreads.block.afterStmt init hi
    simp only [Stmt.scopeErrors,blockErrors]
    rw [Stmt.Unfolds.scopeErrors init hi spreads.block,condition.scopeErrors inner,
      Stmt.Unfolds.scopeErrors body hb inner.looping,Expr.Deepens.optionErrors inner.looping increment]
  | _, _, _, _, _, .branch condition yes, named, spreads => by
    rw [Stmt.scopeErrors,Stmt.scopeErrors,condition.scopeErrors spreads,
      Stmt.Unfolds.scopeErrors yes named.2.1 spreads]
  | _, _, _, _, _, .branchElse condition yes no, named, spreads => by
    rw [Stmt.scopeErrors,Stmt.scopeErrors,condition.scopeErrors spreads,
      Stmt.Unfolds.scopeErrors yes named.2.1 spreads,Stmt.Unfolds.scopeErrors no named.2.2.2.1 spreads]
  | _, _, _, _, _, .loop condition body increment, named, spreads => by
    rw [Stmt.scopeErrors,Stmt.scopeErrors,condition.scopeErrors spreads,
      Stmt.Unfolds.scopeErrors body named.2.1 spreads.looping,
      Expr.Deepens.optionErrors spreads.looping increment]
  | _, _, _, _, _, .jump, _, spreads => by rw [Stmt.scopeErrors,Stmt.scopeErrors,spreads.inLoop]
  | _, _, _, _, _, .function own routine, named, spreads => by
    have inner := spreads.declare own (Stmt.ordinary_declared? (.function _) named _ rfl)
    rw [Stmt.scopeErrors,Stmt.scopeErrors,routine.name,spreads.scopes.declarationErrors_eq own,
      RoutineUnfolds.scopeErrors routine named inner]
  | _, _, _, _, _, .leave value, _, spreads => by
    rw [Stmt.scopeErrors,Stmt.scopeErrors,spreads.inRoutine,Expr.Deepens.optionErrors spreads value]
  | _, _, _, _, _, .klass (n := n) (b := b) (c := c) own base methods, named, spreads => by
    have same : superclassErrors n c = superclassErrors n b := by
      cases base with
      | none => rfl
      | some reference => simp only [superclassErrors,reference.name]
    rw [Stmt.scopeErrors,Stmt.scopeErrors,spreads.scopes.declarationErrors_eq own,same,
      RoutinesUnfold.scopeErrors methods named.2.2 ((spreads.declare own named.1).classBody base)]
  | _, _, _, _, _, .bare loop, named, spreads => by
    rw [Stmt.scopeErrors,Stmt.scopeErrors,blockErrors,blockErrors,List.append_nil]
    exact LoopUnfolds.scopeErrors loop named.2.1 named.2.2.1 spreads.extra
  | _, _, _, _, _, .initial init loop, named, spreads => by
    obtain ⟨hi,⟨-,hb,plain,-⟩,-⟩ := named
    simp only [Stmt.scopeErrors,blockErrors]
    rw [Stmt.Unfolds.scopeErrors init hi spreads.block,
      LoopUnfolds.scopeErrors loop hb plain (spreads.block.afterStmt init hi)]

theorem LoopUnfolds.scopeErrors : ∀ {π : Strata} {c : Expr} {a b : Stmt} {i : Option Expr}
    {s t : Surroundings}, LoopUnfolds π c a i b → a.Named Ordinary → a.declared? = none → s.Spreads π t →
    b.scopeErrors t = c.scopeErrors s ++ a.scopeErrors { s with inLoop := true } ++
      Expr.optionErrors { s with inLoop := true } i
  | _, _, _, _, _, _, t, .mk (t := b) (j := j) condition goes body increment, named, plain, spreads => by
    have inner := spreads.looping.extra
    have parts : ∀ u : Surroundings, blockErrors u (b :: (j.map Stmt.expression).toList) =
        b.scopeErrors u ++ Expr.optionErrors u j := by
      intro u
      have here : u.afterStmt b = u := by
        simp only [Surroundings.afterStmt,Scopes.afterStmt,body.declared?_eq,plain]
      cases j with
      | none => rfl
      | some e => rw [blockErrors,here]; exact congrArg _ (List.append_nil _)
    rw [← Stmt.Unfolds.scopeErrors body named inner,← Expr.Deepens.optionErrors inner increment,
      List.append_assoc,← parts,← Expr.scopeErrors_orTrue,← condition.scopeErrors spreads]
    exact List.append_nil _

theorem BodyUnfolds.scopeErrors : ∀ {π : Strata} {as bs : List Stmt} {s t : Surroundings},
    BodyUnfolds π as bs → BodyNamed Ordinary as → s.Spreads π t → blockErrors t bs = blockErrors s as
  | _, _, _, _, _, .nil, _, _ => rfl
  | _, _, _, _, _, .cons unfolds rest, named, spreads => by
    rw [blockErrors,blockErrors,Stmt.Unfolds.scopeErrors unfolds named.1 spreads,
      BodyUnfolds.scopeErrors rest named.2 (spreads.afterStmt unfolds named.1)]

theorem RoutineUnfolds.scopeErrors : ∀ {π : Strata} {a b : Routine} {s t : Surroundings},
    RoutineUnfolds π a b → a.Named Ordinary → s.Spreads π t → b.scopeErrors t = a.scopeErrors s
  | _, _, _, _, _, .mk body, named, spreads => by
    rw [Routine.scopeErrors,Routine.scopeErrors,BodyUnfolds.scopeErrors body named.2.2 (spreads.routine named.2.1)]
    exact congrArg (· ++ _) (spreads.scopes.block.parameterErrors_eq trivial named.2.1)

theorem RoutinesUnfold.scopeErrors : ∀ {π : Strata} {as bs : List Routine} {s t : Surroundings},
    RoutinesUnfold π as bs → MethodsNamed Ordinary as → s.Spreads π t → methodErrors t bs = methodErrors s as
  | _, _, _, _, _, .nil, _, _ => rfl
  | _, _, _, _, _, .cons routine rest, named, spreads => by
    rw [methodErrors,methodErrors,RoutineUnfolds.scopeErrors routine named.1 spreads,
      RoutinesUnfold.scopeErrors rest named.2 spreads]

end

end Lox
