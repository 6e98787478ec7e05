import Lox.Ast.Grammar
import Mathlib.Data.Option.Basic

/-! # Unfolded `for` loops

A `for` loop is written out as a block with the initializer and a `while` loop, whose block holds the
body and behind it the increment. These blocks open scopes that the program itself does not have, and the
depths of what is in them lead past those. Strata say which scopes around a place are the program's own,
and so relate programs with and without their depths.
-/
namespace Lox

/-! ## Strata -/

/-- A scope: one of the program's own, or an extra one around a part of a loop that is unfolded. -/
inductive Stratum
  | shared
  | extra
deriving DecidableEq

/-- The scopes around a place in an unfolded program, innermost first. -/
abbrev Strata := List Stratum

namespace Strata

/-- A depth in the program, and the one in the unfolded program that leads to the same scope. -/
inductive Leads : Strata → Nat → Nat → Prop
  | here {π} : Leads (.shared :: π) 0 0
  | shared {π d e} : Leads π d e → Leads (.shared :: π) (d + 1) (e + 1)
  | extra {π d e} : Leads π d e → Leads (.extra :: π) d (e + 1)

/-- Depths of a scope and of the one inside it, which both lead to the same. -/
inductive Descends (π : Strata) : Nat → Nat → Prop
  | succ {d e} : π.Leads (d + 1) (e + 1) → π.Leads d e → Descends π (d + 1) (e + 1)

/-- The innermost scope, if there is any, is one of the program's own. -/
def Own : Strata → Prop
  | .extra :: _ => False
  | _ => True

/-- Around the methods of a class. -/
def ofClass {α : Type} (π : Strata) : Option α → Strata
  | some _ => .shared :: .shared :: π
  | none => .shared :: π

theorem ofClass_map {α β : Type} (π : Strata) (f : α → β) (o : Option α) :
    π.ofClass (o.map f) = π.ofClass o := by cases o <;> rfl

end Strata

/-! ## Expressions -/

/-- The condition of a `for`, with `true` for one that is left out. -/
def Expr.orTrue : Expr → Expr
  | .literal .always pos => .literal (.bool true) pos
  | e => e

section
variable (π : Strata)

structure Reference.Deepens (r s : Reference) : Prop where
  name : s.name = r.name
  depth : Option.Rel π.Leads r.depth s.depth

mutual

/-- The same expression, with depths that lead to the same scopes. -/
inductive Expr.Deepens : Expr → Expr → Prop
  | literal {c p} : Expr.Deepens (.literal c p) (.literal c p)
  | grouping {p d e} : Expr.Deepens d e → Expr.Deepens (.grouping p d) (.grouping p e)
  | var {r s} : Reference.Deepens π r s → Expr.Deepens (.var r) (.var s)
  | assign {r s d e} : Reference.Deepens π r s → Expr.Deepens d e → Expr.Deepens (.assign r d) (.assign s e)
  | unary {op p d e} : Expr.Deepens d e → Expr.Deepens (.unary op p d) (.unary op p e)
  | binary {op p d d' e e'} : Expr.Deepens d e → Expr.Deepens d' e' →
      Expr.Deepens (.binary d op p d') (.binary e op p e')
  | logical {op p d d' e e'} : Expr.Deepens d e → Expr.Deepens d' e' →
      Expr.Deepens (.logical d op p d') (.logical e op p e')
  | call {p d e ds es} : Expr.Deepens d e → ArgumentsDeepen ds es → Expr.Deepens (.call d p ds) (.call e p es)
  | get {n d e} : Expr.Deepens d e → Expr.Deepens (.get d n) (.get e n)
  | set {n d d' e e'} : Expr.Deepens d e → Expr.Deepens d' e' → Expr.Deepens (.set d n d') (.set e n e')
  | this {p d e} : Option.Rel π.Leads d e → Expr.Deepens (.this p d) (.this p e)
  | super {p n d e} : Option.Rel π.Descends d e → Expr.Deepens (.super p n d) (.super p n e)

inductive ArgumentsDeepen : List Expr → List Expr → Prop
  | nil : ArgumentsDeepen [] []
  | cons {d e ds es} : Expr.Deepens d e → ArgumentsDeepen ds es → ArgumentsDeepen (d :: ds) (e :: es)

end

end

/-! ## Statements -/

mutual

/-- Whether a statement has a `continue` of the loop that it is the body of. -/
def Stmt.continues : Stmt → Bool
  | .jump _ .next => true
  | .block _ _ body => anyContinues body
  | .branch _ _ yes none => yes.continues
  | .branch _ _ yes (some no) => yes.continues || no.continues
  | _ => false
termination_by structural s => s

def anyContinues : List Stmt → Bool
  | [] => false
  | s :: rest => s.continues || anyContinues rest
termination_by structural ss => ss

end

mutual

/-- The same statement, except that any number of `for` loops in it are unfolded. None of them has a body
with a `continue` of its own. -/
inductive Stmt.Unfolds : Strata → Stmt → Stmt → Prop
  | expression {π d e} : d.Deepens π e → Stmt.Unfolds π (.expression d) (.expression e)
  | print {π p d e} : d.Deepens π e → Stmt.Unfolds π (.print p d) (.print p e)
  | var {π n d e} : π.Own → Option.Rel (Expr.Deepens π) d e → Stmt.Unfolds π (.var n d) (.var n e)
  | block {π p ss ts} : BodyUnfolds (.shared :: π) ss ts →
      Stmt.Unfolds π (.block p .plain ss) (.block p .plain ts)
  | clauses {π p q a b c d s t i j} : Stmt.Unfolds (.shared :: π) a b → c.Deepens (.shared :: π) d →
      Stmt.Unfolds (.shared :: π) s t → Option.Rel (Expr.Deepens (.shared :: π)) i j →
      Stmt.Unfolds π (.block p .clauses [a,.loop q .clauses c s i]) (.block p .clauses [b,.loop q .clauses d t j])
  | branch {π p d e s t} : d.Deepens π e → Stmt.Unfolds π s t →
      Stmt.Unfolds π (.branch p d s none) (.branch p e t none)
  | branchElse {π p d e s s' t t'} : d.Deepens π e → Stmt.Unfolds π s t → Stmt.Unfolds π s' t' →
      Stmt.Unfolds π (.branch p d s (some s')) (.branch p e t (some t'))
  | loop {π p f d e s t i j} : d.Deepens π e → Stmt.Unfolds π s t → Option.Rel (Expr.Deepens π) i j →
      Stmt.Unfolds π (.loop p f d s i) (.loop p f e t j)
  | jump {π p way} : Stmt.Unfolds π (.jump p way) (.jump p way)
  | function {π r s} : π.Own → RoutineUnfolds π r s → Stmt.Unfolds π (.function r) (.function s)
  | leave {π p d e} : Option.Rel (Expr.Deepens π) d e → Stmt.Unfolds π (.leave p d) (.leave p e)
  | klass {π n b c rs ss} : π.Own → Option.Rel (Reference.Deepens π) b c →
      RoutinesUnfold (π.ofClass b) rs ss → Stmt.Unfolds π (.klass n b rs) (.klass n c ss)
  /-- A `for` without an initializer. -/
  | bare {π p q c s i t} : LoopUnfolds (.extra :: π) c s i t →
      Stmt.Unfolds π (.loop p .clauses c s i) (.block q .plain [t])
  /-- A `for` with an initializer. -/
  | initial {π p p' q a b c s i t} : Stmt.Unfolds (.shared :: π) a b → LoopUnfolds (.shared :: π) c s i t →
      Stmt.Unfolds π (.block p .clauses [a,.loop p' .clauses c s i]) (.block q .plain [b,t])

/-- The condition, the body and the increment of a `for` as a `while` loop. -/
inductive LoopUnfolds : Strata → Expr → Stmt → Option Expr → Stmt → Prop
  | mk {π p q c d s t i j} : c.orTrue.Deepens π d → s.continues = false → Stmt.Unfolds (.extra :: π) s t →
      Option.Rel (Expr.Deepens (.extra :: π)) i j →
      LoopUnfolds π c s i (.loop p .plain d (.block q .plain (t :: (j.map Stmt.expression).toList)) none)

inductive BodyUnfolds : Strata → List Stmt → List Stmt → Prop
  | nil {π} : BodyUnfolds π [] []
  | cons {π s t ss ts} : Stmt.Unfolds π s t → BodyUnfolds π ss ts → BodyUnfolds π (s :: ss) (t :: ts)

inductive RoutineUnfolds : Strata → Routine → Routine → Prop
  | mk {π n ps ss ts} : BodyUnfolds (.shared :: π) ss ts → RoutineUnfolds π ⟨n,ps,ss⟩ ⟨n,ps,ts⟩

inductive RoutinesUnfold : Strata → List Routine → List Routine → Prop
  | nil {π} : RoutinesUnfold π [] []
  | cons {π r s rs ss} : RoutineUnfolds π r s → RoutinesUnfold π rs ss → RoutinesUnfold π (r :: rs) (s :: ss)

end

variable {π : Strata}

namespace RoutineUnfolds
variable {r s : Routine}

theorem name (unfolds : RoutineUnfolds π r s) : s.name = r.name := by cases unfolds; rfl

theorem params (unfolds : RoutineUnfolds π r s) : s.params = r.params := by cases unfolds; rfl

theorem body (unfolds : RoutineUnfolds π r s) : BodyUnfolds (.shared :: π) r.body s.body := by
  cases unfolds
  assumption

theorem arity (unfolds : RoutineUnfolds π r s) : s.arity = r.arity := congrArg List.length unfolds.params

end RoutineUnfolds

theorem ArgumentsDeepen.length_eq {ds es : List Expr} (deepen : ArgumentsDeepen π ds es) :
    es.length = ds.length := by
  induction ds generalizing es with
  | nil => cases deepen; rfl
  | cons d ds ih =>
    cases deepen with
    | cons _ rest => simp [ih rest]

/-! ## The grammar -/

theorem Expr.Deepens.level {d e : Expr} (deepens : d.Deepens π e) : e.level = d.level := by
  cases deepens <;> rfl

mutual

theorem Expr.Deepens.grammatical : ∀ {d e : Expr}, d.Deepens π e → d.Grammatical → e.Grammatical
  | _, _, .literal, h => h
  | _, _, .grouping deepens, h => by
    rw [Expr.Grammatical] at h ⊢
    exact Expr.Deepens.grammatical deepens h
  | _, _, .var _, h => h
  | _, _, .assign _ deepens, h => by
    rw [Expr.Grammatical] at h ⊢
    exact Expr.Deepens.grammatical deepens h
  | _, _, .unary deepens, h => ⟨Expr.Deepens.grammatical deepens h.1,deepens.level ▸ h.2⟩
  | _, _, .binary left right, h =>
    ⟨Expr.Deepens.grammatical left h.1,Expr.Deepens.grammatical right h.2.1,left.level ▸ h.2.2.1,
      right.level ▸ h.2.2.2⟩
  | _, _, .logical left right, h =>
    ⟨Expr.Deepens.grammatical left h.1,Expr.Deepens.grammatical right h.2.1,left.level ▸ h.2.2.1,
      right.level ▸ h.2.2.2⟩
  | _, _, .call callee args, h =>
    ⟨Expr.Deepens.grammatical callee h.1,callee.level ▸ h.2.1,ArgumentsDeepen.grammatical args h.2.2.1,
      args.length_eq ▸ h.2.2.2⟩
  | _, _, .get object, h => ⟨Expr.Deepens.grammatical object h.1,object.level ▸ h.2⟩
  | _, _, .set object value, h =>
    ⟨Expr.Deepens.grammatical object h.1,object.level ▸ h.2.1,Expr.Deepens.grammatical value h.2.2⟩
  | _, _, .this _, h => h
  | _, _, .super _, h => h

theorem ArgumentsDeepen.grammatical : ∀ {ds es : List Expr}, ArgumentsDeepen π ds es →
    Expr.GrammaticalArguments ds → Expr.GrammaticalArguments es
  | _, _, .nil, h => h
  | _, _, .cons deepens deepen, h =>
    ⟨Expr.Deepens.grammatical deepens h.1,ArgumentsDeepen.grammatical deepen h.2⟩

end

theorem Expr.GrammaticalOption.deepens {d e : Option Expr} (deepens : Option.Rel (Expr.Deepens π) d e)
    (h : Expr.GrammaticalOption d) : Expr.GrammaticalOption e := by
  cases deepens with
  | none => trivial
  | some deepens => exact deepens.grammatical h

theorem Expr.GrammaticalClause.orTrue {e : Expr} (h : e.GrammaticalClause) : e.orTrue.Grammatical := by
  unfold Expr.orTrue
  split
  · trivial
  · next plain =>
    unfold Expr.GrammaticalClause at h
    split at h
    · exact absurd rfl (plain _)
    · exact h

theorem Expr.GrammaticalClause.deepens {d e : Expr} (deepens : d.Deepens π e) (h : d.GrammaticalClause) :
    e.GrammaticalClause := by
  cases deepens with
  | literal => exact h
  | _ => exact Expr.Deepens.grammatical (by constructor <;> assumption) h

/-- What is no declaration is unfolded as no declaration. -/
theorem Stmt.Unfolds.isDeclaration {s t : Stmt} (unfolds : s.Unfolds π t) :
    t.IsDeclaration ↔ s.IsDeclaration := by cases unfolds <;> rfl

theorem Stmt.Unfolds.isInitializer {s t : Stmt} (unfolds : s.Unfolds π t) (h : s.IsInitializer) :
    t.IsInitializer := by cases unfolds <;> trivial

/-- A loop that is unfolded takes no `else`. -/
theorem Stmt.Unfolds.takesElse : ∀ {π : Strata} {s t : Stmt}, s.Unfolds π t → t.TakesElse → s.TakesElse
  | _, _, _, .branch _ _, _ => trivial
  | _, _, _, .branchElse _ _ no, h => by
    rw [Stmt.TakesElse] at h ⊢
    exact Stmt.Unfolds.takesElse no h
  | _, _, _, .loop _ body _, h => by
    rw [Stmt.TakesElse] at h ⊢
    exact Stmt.Unfolds.takesElse body h
  | _, _, _, .clauses _ _ body _, h => by
    have last := Stmt.Unfolds.takesElse body
    exact last h

mutual

theorem Stmt.Unfolds.grammatical : ∀ {π : Strata} {s t : Stmt}, s.Unfolds π t → s.Grammatical → t.Grammatical
  | _, _, _, .expression deepens, h => deepens.grammatical h
  | _, _, _, .print deepens, h => deepens.grammatical h
  | _, _, _, .var _ init, h => Expr.GrammaticalOption.deepens init h
  | _, _, _, .block body, h => BodyUnfolds.grammatical body h
  | _, _, _, .clauses init condition body increment, h =>
    ⟨Stmt.Unfolds.grammatical init h.1,init.isInitializer h.2.1,
      Expr.GrammaticalClause.deepens condition h.2.2.1,Stmt.Unfolds.grammatical body h.2.2.2.1,
      mt body.isDeclaration.mp h.2.2.2.2.1,Expr.GrammaticalOption.deepens increment h.2.2.2.2.2⟩
  | _, _, _, .branch condition yes, h =>
    ⟨condition.grammatical h.1,Stmt.Unfolds.grammatical yes h.2.1,mt yes.isDeclaration.mp h.2.2⟩
  | _, _, _, .branchElse condition yes no, h =>
    ⟨condition.grammatical h.1,Stmt.Unfolds.grammatical yes h.2.1,mt yes.isDeclaration.mp h.2.2.1,
      mt yes.takesElse h.2.2.2.1,Stmt.Unfolds.grammatical no h.2.2.2.2.1,mt no.isDeclaration.mp h.2.2.2.2.2⟩
  | _, _, _, .loop (f := .plain) condition body increment, h => by
    obtain ⟨hc,hb,statement,none⟩ := h
    subst none
    cases increment
    exact ⟨condition.grammatical hc,Stmt.Unfolds.grammatical body hb,mt body.isDeclaration.mp statement,rfl⟩
  | _, _, _, .loop (f := .clauses) condition body increment, h =>
    ⟨Expr.GrammaticalClause.deepens condition h.1,Stmt.Unfolds.grammatical body h.2.1,
      mt body.isDeclaration.mp h.2.2.1,Expr.GrammaticalOption.deepens increment h.2.2.2⟩
  | _, _, _, .jump, h => h
  | _, _, _, .function _ routine, h => RoutineUnfolds.grammatical routine h
  | _, _, _, .leave value, h => Expr.GrammaticalOption.deepens value h
  | _, _, _, .klass _ _ methods, h => RoutinesUnfold.grammatical methods h
  | _, _, _, .bare loop, h => ⟨LoopUnfolds.grammatical loop h.1 h.2.1 h.2.2.1 h.2.2.2,trivial⟩
  | _, _, _, .initial init loop, h =>
    ⟨Stmt.Unfolds.grammatical init h.1,
      LoopUnfolds.grammatical loop h.2.2.1 h.2.2.2.1 h.2.2.2.2.1 h.2.2.2.2.2,trivial⟩

theorem LoopUnfolds.grammatical : ∀ {π : Strata} {c : Expr} {s : Stmt} {i : Option Expr} {t : Stmt},
    LoopUnfolds π c s i t → c.GrammaticalClause → s.Grammatical → ¬s.IsDeclaration →
      Expr.GrammaticalOption i → t.Grammatical
  | _, _, _, _, _, .mk condition _ body increment, hc, hs, _, hi => by
    refine ⟨condition.grammatical hc.orTrue,?_,id,rfl⟩
    have first := Stmt.Unfolds.grammatical body hs
    cases increment with
    | none => exact ⟨first,trivial⟩
    | some deepens => exact ⟨first,deepens.grammatical hi,trivial⟩

theorem BodyUnfolds.grammatical : ∀ {π : Strata} {ss ts : List Stmt}, BodyUnfolds π ss ts →
    GrammaticalList ss → GrammaticalList ts
  | _, _, _, .nil, h => h
  | _, _, _, .cons unfolds rest, h => ⟨Stmt.Unfolds.grammatical unfolds h.1,BodyUnfolds.grammatical rest h.2⟩

theorem RoutineUnfolds.grammatical : ∀ {π : Strata} {r s : Routine}, RoutineUnfolds π r s →
    r.Grammatical → s.Grammatical
  | _, _, _, .mk body, h => ⟨h.1,BodyUnfolds.grammatical body h.2⟩

theorem RoutinesUnfold.grammatical : ∀ {π : Strata} {rs ss : List Routine}, RoutinesUnfold π rs ss →
    GrammaticalMethods rs → GrammaticalMethods ss
  | _, _, _, .nil, h => h
  | _, _, _, .cons routine rest, h =>
    ⟨RoutineUnfolds.grammatical routine h.1,RoutinesUnfold.grammatical rest h.2⟩

end

end Lox
