import Lox.Heap.Object
import Lox.Value
import Mathlib.Data.List.Forall2

/-! # Likeness

Syntax trees are alike when they differ in nothing but their positions, and each position stands
in a given relation to the one it is compared with. Objects are alike when the routines of
functions are. A tree is like itself under every reflexive relation.
-/
namespace Lox
variable (P : Pos → Pos → Prop)

structure Name.Alike (a b : Name) : Prop where
  text : a.text = b.text
  pos : P a.pos b.pos

structure Reference.Alike (a b : Reference) : Prop where
  name : Name.Alike P a.name b.name
  depth : a.depth = b.depth

mutual

inductive Expr.Alike : Expr → Expr → Prop
  | literal {c p q} : P p q → Expr.Alike (.literal c p) (.literal c q)
  | grouping {p q d e} : P p q → Expr.Alike d e → Expr.Alike (.grouping p d) (.grouping q e)
  | var {r s} : Reference.Alike P r s → Expr.Alike (.var r) (.var s)
  | assign {r s d e} : Reference.Alike P r s → Expr.Alike d e → Expr.Alike (.assign r d) (.assign s e)
  | unary {op p q d e} : P p q → Expr.Alike d e → Expr.Alike (.unary op p d) (.unary op q e)
  | binary {op p q d d' e e'} : Expr.Alike d e → P p q → Expr.Alike d' e' →
      Expr.Alike (.binary d op p d') (.binary e op q e')
  | logical {op p q d d' e e'} : Expr.Alike d e → P p q → Expr.Alike d' e' →
      Expr.Alike (.logical d op p d') (.logical e op q e')
  | call {p q d e ds es} : Expr.Alike d e → P p q → ArgumentsAlike ds es →
      Expr.Alike (.call d p ds) (.call e q es)
  | get {n m d e} : Expr.Alike d e → Name.Alike P n m → Expr.Alike (.get d n) (.get e m)
  | set {n m d d' e e'} : Expr.Alike d e → Name.Alike P n m → Expr.Alike d' e' →
      Expr.Alike (.set d n d') (.set e m e')
  | this {p q depth} : P p q → Expr.Alike (.this p depth) (.this q depth)
  | super {p q n m depth} : P p q → Name.Alike P n m →
      Expr.Alike (.super p n depth) (.super q m depth)

inductive ArgumentsAlike : List Expr → List Expr → Prop
  | nil : ArgumentsAlike [] []
  | cons {d e ds es} : Expr.Alike d e → ArgumentsAlike ds es → ArgumentsAlike (d :: ds) (e :: es)

end

mutual

inductive Stmt.Alike : Stmt → Stmt → Prop
  | expression {d e} : Expr.Alike P d e → Stmt.Alike (.expression d) (.expression e)
  | print {p q d e} : P p q → Expr.Alike P d e → Stmt.Alike (.print p d) (.print q e)
  | var {n m d e} : Name.Alike P n m → Option.Rel (Expr.Alike P) d e → Stmt.Alike (.var n d) (.var m e)
  | block {p q form ss ts} : P p q → BodyAlike ss ts → Stmt.Alike (.block p form ss) (.block q form ts)
  | branch {p q d e s t} : P p q → Expr.Alike P d e → Stmt.Alike s t →
      Stmt.Alike (.branch p d s none) (.branch q e t none)
  | branchElse {p q d e s s' t t'} : P p q → Expr.Alike P d e → Stmt.Alike s t → Stmt.Alike s' t' →
      Stmt.Alike (.branch p d s (some s')) (.branch q e t (some t'))
  | loop {p q form d e s t i j} : P p q → Expr.Alike P d e → Stmt.Alike s t →
      Option.Rel (Expr.Alike P) i j → Stmt.Alike (.loop p form d s i) (.loop q form e t j)
  | jump {p q j} : P p q → Stmt.Alike (.jump p j) (.jump q j)
  | function {r s} : RoutineAlike r s → Stmt.Alike (.function r) (.function s)
  | leave {p q d e} : P p q → Option.Rel (Expr.Alike P) d e → Stmt.Alike (.leave p d) (.leave q e)
  | klass {n m b c rs ss} : Name.Alike P n m → Option.Rel (Reference.Alike P) b c →
      RoutinesAlike rs ss → Stmt.Alike (.klass n b rs) (.klass m c ss)

inductive BodyAlike : List Stmt → List Stmt → Prop
  | nil : BodyAlike [] []
  | cons {s t ss ts} : Stmt.Alike s t → BodyAlike ss ts → BodyAlike (s :: ss) (t :: ts)

inductive RoutineAlike : Routine → Routine → Prop
  | mk {n m ps qs ss ts} : Name.Alike P n m → List.Forall₂ (Name.Alike P) ps qs →
      BodyAlike ss ts → RoutineAlike ⟨n,ps,ss⟩ ⟨m,qs,ts⟩

inductive RoutinesAlike : List Routine → List Routine → Prop
  | nil : RoutinesAlike [] []
  | cons {r s rs ss} : RoutineAlike r s → RoutinesAlike rs ss → RoutinesAlike (r :: rs) (s :: ss)

end

/-- The objects of two heaps correspond: only the routines of functions may differ in positions. -/
inductive Object.Alike : Object Value → Object Value → Prop
  | same (o : Object Value) : Object.Alike o o
  | function {r s closure} : RoutineAlike P r s →
      Object.Alike (.function r closure) (.function s closure)

variable {P}

namespace Object.Alike
variable {o p : Object Value}

theorem references (like : Alike P o p) : p.references = o.references := by cases like <;> rfl

theorem kind (like : Alike P o p) : p.kind = o.kind := by cases like <;> rfl

theorem emptied (like : Alike P o p) : Alike P o.emptied p.emptied := by
  cases like with
  | same => exact .same _
  | function like => exact .function like

end Object.Alike

namespace RoutineAlike
variable {r s : Routine}

theorem name (like : RoutineAlike P r s) : Name.Alike P r.name s.name := by cases like; assumption

theorem params (like : RoutineAlike P r s) : List.Forall₂ (Name.Alike P) r.params s.params := by
  cases like
  assumption

theorem body (like : RoutineAlike P r s) : BodyAlike P r.body s.body := by cases like; assumption

theorem arity (like : RoutineAlike P r s) : s.arity = r.arity := like.params.length_eq.symm

end RoutineAlike

theorem ArgumentsAlike.length_eq {ds es : List Expr} (like : ArgumentsAlike P ds es) :
    ds.length = es.length := by
  induction ds generalizing es with
  | nil => cases like; rfl
  | cons d ds ih =>
    cases like with
    | cons _ rest => simp [ih rest]

theorem BodyAlike.length_eq {ss ts : List Stmt} (like : BodyAlike P ss ts) :
    ss.length = ts.length := by
  induction ss generalizing ts with
  | nil => cases like; rfl
  | cons s ss ih =>
    cases like with
    | cons _ rest => simp [ih rest]

theorem BodyAlike.append {ss ss' ts ts' : List Stmt} (first : BodyAlike P ss ts)
    (second : BodyAlike P ss' ts') : BodyAlike P (ss ++ ss') (ts ++ ts') := by
  induction ss generalizing ts with
  | nil => cases first; exact second
  | cons s ss ih =>
    cases first with
    | cons like rest => exact .cons like (ih rest)

/-! ## Reflexivity -/

theorem Option.Rel.refl_of {α : Type} {R : α → α → Prop} (same : ∀ a, R a a) :
    ∀ o : Option α, Option.Rel R o o
  | none => .none
  | some a => .some (same a)

theorem Name.Alike.refl (same : ∀ p, P p p) (n : Name) : Name.Alike P n n := ⟨rfl,same _⟩

theorem Reference.Alike.refl (same : ∀ p, P p p) (r : Reference) :
    Reference.Alike P r r := ⟨.refl same _,rfl⟩

mutual

theorem Expr.Alike.refl (same : ∀ p, P p p) : ∀ e : Expr, Expr.Alike P e e
  | .literal _ _ => .literal (same _)
  | .grouping _ e => .grouping (same _) (Expr.Alike.refl same e)
  | .var _ => .var (.refl same _)
  | .assign _ e => .assign (.refl same _) (Expr.Alike.refl same e)
  | .unary _ _ e => .unary (same _) (Expr.Alike.refl same e)
  | .binary d _ _ e => .binary (Expr.Alike.refl same d) (same _) (Expr.Alike.refl same e)
  | .logical d _ _ e => .logical (Expr.Alike.refl same d) (same _) (Expr.Alike.refl same e)
  | .call d _ es => .call (Expr.Alike.refl same d) (same _) (ArgumentsAlike.refl same es)
  | .get e _ => .get (Expr.Alike.refl same e) (.refl same _)
  | .set d _ e => .set (Expr.Alike.refl same d) (.refl same _) (Expr.Alike.refl same e)
  | .this _ _ => .this (same _)
  | .super _ _ _ => .super (same _) (.refl same _)
termination_by structural e => e

theorem ArgumentsAlike.refl (same : ∀ p, P p p) : ∀ es : List Expr, ArgumentsAlike P es es
  | [] => .nil
  | e :: es => .cons (Expr.Alike.refl same e) (ArgumentsAlike.refl same es)
termination_by structural es => es

end

mutual

theorem Stmt.Alike.refl (same : ∀ p, P p p) : ∀ s : Stmt, Stmt.Alike P s s
  | .expression e => .expression (.refl same e)
  | .print _ e => .print (same _) (.refl same e)
  | .var _ e => .var (.refl same _) (Option.Rel.refl_of (.refl same) e)
  | .block _ _ ss => .block (same _) (BodyAlike.refl same ss)
  | .branch _ e s none => .branch (same _) (.refl same e) (Stmt.Alike.refl same s)
  | .branch _ e s (some t) =>
    .branchElse (same _) (.refl same e) (Stmt.Alike.refl same s) (Stmt.Alike.refl same t)
  | .loop _ _ e s i =>
    .loop (same _) (.refl same e) (Stmt.Alike.refl same s) (Option.Rel.refl_of (.refl same) i)
  | .jump _ _ => .jump (same _)
  | .function r => .function (RoutineAlike.refl same r)
  | .leave _ e => .leave (same _) (Option.Rel.refl_of (.refl same) e)
  | .klass _ b rs =>
    .klass (.refl same _) (Option.Rel.refl_of (.refl same) b) (RoutinesAlike.refl same rs)
termination_by structural s => s

theorem BodyAlike.refl (same : ∀ p, P p p) : ∀ ss : List Stmt, BodyAlike P ss ss
  | [] => .nil
  | s :: ss => .cons (Stmt.Alike.refl same s) (BodyAlike.refl same ss)
termination_by structural ss => ss

theorem RoutineAlike.refl (same : ∀ p, P p p) : ∀ r : Routine, RoutineAlike P r r
  | ⟨_,_,ss⟩ =>
    .mk (.refl same _) (List.forall₂_same.mpr fun p _ => .refl same p) (BodyAlike.refl same ss)
termination_by structural r => r

theorem RoutinesAlike.refl (same : ∀ p, P p p) : ∀ rs : List Routine, RoutinesAlike P rs rs
  | [] => .nil
  | r :: rs => .cons (RoutineAlike.refl same r) (RoutinesAlike.refl same rs)
termination_by structural rs => rs

end

/-! ## Likeness in equal positions -/

theorem Name.Alike.eq {n m : Name} (like : Name.Alike Eq n m) : n = m := by
  cases n
  cases m
  obtain ⟨rfl,rfl⟩ := like
  rfl

theorem Reference.Alike.eq {r s : Reference} (like : Reference.Alike Eq r s) : r = s := by
  cases r
  cases s
  obtain ⟨name,rfl⟩ := like
  cases name.eq
  rfl

theorem Option.Rel.eq_of {α : Type} {R : α → α → Prop} (eq : ∀ {a b}, R a b → a = b) :
    ∀ {o p : Option α}, Option.Rel R o p → o = p
  | _, _, .none => rfl
  | _, _, .some ab => by rw [eq ab]

theorem Name.Alike.eq_all {ns ms : List Name} (like : List.Forall₂ (Name.Alike Eq) ns ms) : ns = ms := by
  induction like with
  | nil => rfl
  | cons like _ ih => rw [like.eq,ih]

mutual

theorem Expr.Alike.eq : ∀ {d e : Expr}, Expr.Alike Eq d e → d = e
  | _, _, .literal pos => by rw [pos]
  | _, _, .grouping pos like => by rw [pos,Expr.Alike.eq like]
  | _, _, .var like => by rw [like.eq]
  | _, _, .assign ref like => by rw [ref.eq,Expr.Alike.eq like]
  | _, _, .unary pos like => by rw [pos,Expr.Alike.eq like]
  | _, _, .binary left pos right => by rw [Expr.Alike.eq left,pos,Expr.Alike.eq right]
  | _, _, .logical left pos right => by rw [Expr.Alike.eq left,pos,Expr.Alike.eq right]
  | _, _, .call callee pos args => by rw [Expr.Alike.eq callee,pos,ArgumentsAlike.eq args]
  | _, _, .get object name => by rw [Expr.Alike.eq object,name.eq]
  | _, _, .set object name value => by rw [Expr.Alike.eq object,name.eq,Expr.Alike.eq value]
  | _, _, .this pos => by rw [pos]
  | _, _, .super pos name => by rw [pos,name.eq]

theorem ArgumentsAlike.eq : ∀ {ds es : List Expr}, ArgumentsAlike Eq ds es → ds = es
  | _, _, .nil => rfl
  | _, _, .cons like rest => by rw [Expr.Alike.eq like,ArgumentsAlike.eq rest]

end

mutual

theorem Stmt.Alike.eq : ∀ {s t : Stmt}, Stmt.Alike Eq s t → s = t
  | _, _, .expression like => by rw [like.eq]
  | _, _, .print pos like => by rw [pos,like.eq]
  | _, _, .var name value => by rw [name.eq,Option.Rel.eq_of Expr.Alike.eq value]
  | _, _, .block pos like => by rw [pos,BodyAlike.eq like]
  | _, _, .branch pos condition yes => by rw [pos,condition.eq,Stmt.Alike.eq yes]
  | _, _, .branchElse pos condition yes no => by
    rw [pos,condition.eq,Stmt.Alike.eq yes,Stmt.Alike.eq no]
  | _, _, .loop pos condition body increment => by
    rw [pos,condition.eq,Stmt.Alike.eq body,Option.Rel.eq_of Expr.Alike.eq increment]
  | _, _, .jump pos => by rw [pos]
  | _, _, .function like => by rw [RoutineAlike.eq like]
  | _, _, .leave pos value => by rw [pos,Option.Rel.eq_of Expr.Alike.eq value]
  | _, _, .klass name base methods => by
    rw [name.eq,Option.Rel.eq_of Reference.Alike.eq base,RoutinesAlike.eq methods]

theorem BodyAlike.eq : ∀ {ss ts : List Stmt}, BodyAlike Eq ss ts → ss = ts
  | _, _, .nil => rfl
  | _, _, .cons like rest => by rw [Stmt.Alike.eq like,BodyAlike.eq rest]

theorem RoutineAlike.eq : ∀ {r s : Routine}, RoutineAlike Eq r s → r = s
  | _, _, .mk name params body => by rw [name.eq,Name.Alike.eq_all params,BodyAlike.eq body]

theorem RoutinesAlike.eq : ∀ {rs ss : List Routine}, RoutinesAlike Eq rs ss → rs = ss
  | _, _, .nil => rfl
  | _, _, .cons like rest => by rw [RoutineAlike.eq like,RoutinesAlike.eq rest]

end

theorem Object.Alike.eq {o p : Object Value} (like : Object.Alike Eq o p) : o = p := by
  cases like with
  | same => rfl
  | function like => rw [like.eq]

section
variable (S : Pos → Prop)

/-! ## Trees within a set of positions

A tree has all its positions in a set if it is like itself there. -/

abbrev Name.Within (n : Name) : Prop := Name.Alike (fun p _ => S p) n n

abbrev Reference.Within (r : Reference) : Prop := Reference.Alike (fun p _ => S p) r r

abbrev Expr.Within (e : Expr) : Prop := Expr.Alike (fun p _ => S p) e e

abbrev ArgumentsWithin (es : List Expr) : Prop := ArgumentsAlike (fun p _ => S p) es es

abbrev OptionWithin (e : Option Expr) : Prop := Option.Rel (Expr.Alike fun p _ => S p) e e

abbrev Stmt.Within (s : Stmt) : Prop := Stmt.Alike (fun p _ => S p) s s

abbrev BodyWithin (ss : List Stmt) : Prop := BodyAlike (fun p _ => S p) ss ss

abbrev Routine.Within (r : Routine) : Prop := RoutineAlike (fun p _ => S p) r r

abbrev RoutinesWithin (rs : List Routine) : Prop := RoutinesAlike (fun p _ => S p) rs rs

end

end Lox
