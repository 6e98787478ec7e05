import Lox.Proofs.Ast.Unfolding
import Lox.Proofs.Heap.Apart
import Lox.Proofs.Heap.Permanence

/-! # Heaps of unfolded programs

The heap of an unfolded program holds what the heap of the program itself holds, in the same order, and
among that the environments of the extra scopes. A layout says where the objects stand and which
environments are inside which. Reading or writing an object and its counterpart gives the same, however
many extra environments there are around. Neither heap collects of its own accord.
-/
namespace Lox
open Heap

/-! ## Bindings -/

namespace Bindings
variable {α β : Type} {R S : α → β → Prop} {b : Bindings α} {c : Bindings β}

/-- The same names in the same order, for related values. -/
def Rel (R : α → β → Prop) (b : Bindings α) (c : Bindings β) : Prop :=
  List.Forall₂ (fun e f => f.1 = e.1 ∧ R e.2 f.2) b.entries c.entries

theorem Rel.empty : Rel R {} {} := .nil

theorem Rel.imp (rel : Rel R b c) (weaker : ∀ x y, R x y → S x y) : Rel S b c :=
  List.Forall₂.imp (fun _ _ both => ⟨both.1,weaker _ _ both.2⟩) rel

theorem Rel.get? (rel : Rel R b c) (name : String) : Option.Rel R (b.get? name) (c.get? name) := by
  obtain ⟨l⟩ := b
  obtain ⟨k⟩ := c
  simp only [Rel,Bindings.get?] at rel ⊢
  induction rel with
  | nil => exact .none
  | @cons e f l k both _ ih =>
    obtain ⟨n,x⟩ := e
    obtain ⟨n',y⟩ := f
    obtain ⟨rfl,xy⟩ : n' = n ∧ R x y := both
    simp only [find]
    split
    · exact .some xy
    · exact ih

theorem Rel.contains_eq (rel : Rel R b c) (name : String) : c.contains name = b.contains name := by
  have found := rel.get? name
  simp only [contains]
  generalize b.get? name = x,c.get? name = y at found
  cases found <;> rfl

theorem Rel.set (rel : Rel R b c) (name : String) {x : α} {y : β} (xy : R x y) :
    Rel R (b.set name x) (c.set name y) := by
  obtain ⟨l⟩ := b
  obtain ⟨k⟩ := c
  simp only [Rel,Bindings.set] at rel ⊢
  induction rel with
  | nil => exact .cons ⟨rfl,xy⟩ .nil
  | @cons e f l k both rest ih =>
    obtain ⟨n,z⟩ := e
    obtain ⟨n',w⟩ := f
    obtain ⟨rfl,zw⟩ : n' = n ∧ R z w := both
    simp only [put]
    split
    · exact .cons ⟨rfl,xy⟩ rest
    · exact .cons ⟨rfl,zw⟩ ih

end Bindings

/-! ## What a heap has -/

namespace Heap
variable {h k : Heap Value} {r s : Ref} {o p : Object Value}

/-- An object that has not been released, with what it holds. -/
def Has (h : Heap Value) (r : Ref) (o : Object Value) : Prop :=
  ∃ c, h.cells[r.index]? = some c ∧ c.freed = false ∧ c.object = o

theorem Has.live (has : h.Has r o) : ∃ c, h.live r = .ok c ∧ c.object = o := by
  obtain ⟨c,cell,live,object⟩ := has
  exact ⟨c,by simp only [Heap.live,cell,live,Bool.false_eq_true,if_false],object⟩

theorem Has.object? (has : h.Has r o) : h.object? r = some o := by
  obtain ⟨c,cell,-,object⟩ := has
  simp only [Heap.object?,cell,Option.map_some,object]

theorem Has.kindOf (has : h.Has r o) : h.kindOf r = o.kind := by
  obtain ⟨c,cell,-,object⟩ := has
  simp only [Heap.kindOf,cell,Option.map_some,Option.getD_some,object]

theorem Has.environment {values : Bindings Value} {enclosing : Option Ref}
    (has : h.Has r (.environment values enclosing)) : h.environment r = .ok (values,enclosing) := by
  obtain ⟨c,cell,live,object⟩ := has
  exact environment_of_cell cell live object

theorem Has.lt (has : h.Has r o) : r.index < h.cells.size := by
  obtain ⟨c,cell,-⟩ := has
  exact (Array.getElem?_eq_some_iff.mp cell).1

theorem Has.unique (has : h.Has r o) (has' : h.Has r p) : o = p :=
  Option.some.inj (has.object?.symm.trans has'.object?)

theorem Has.congr (has : h.Has r o) (same : k.cells = h.cells) : k.Has r o := by
  rwa [Has,same]

theorem Has.setObject_self (has : h.Has r o) (p : Object Value) : (h.setObject r p).Has r p := by
  obtain ⟨c,cell,live,-⟩ := has
  exact ⟨{ c with object := p },by rw [getElem?_setObject,if_pos rfl,cell]; rfl,live,rfl⟩

theorem Has.setObject_of_ne (has : h.Has r o) (ne : s.index ≠ r.index) (p : Object Value) :
    (h.setObject s p).Has r o := by
  obtain ⟨c,cell,live,object⟩ := has
  exact ⟨c,by rwa [getElem?_setObject,if_neg ne],live,object⟩

theorem Has.placed (has : h.Has r o) (p : Object Value) : (h.placed p).Has r o := by
  have other := Nat.ne_of_lt has.lt
  obtain ⟨c,cell,live,object⟩ := has
  exact ⟨c,by rwa [getElem?_placed_of_ne h p other],live,object⟩

theorem has_placed (h : Heap Value) (o : Object Value) : (h.placed o).Has ⟨h.cells.size⟩ o :=
  ⟨_,getElem?_placed_size h o,rfl,rfl⟩

/-- An environment inside another one. -/
def Inside (h : Heap Value) (r s : Ref) : Prop := ∃ values, h.Has r (.environment values (some s))

theorem Inside.congr (inside : h.Inside r s) (same : k.cells = h.cells) : k.Inside r s :=
  inside.imp fun _ has => has.congr same

theorem Inside.placed (inside : h.Inside r s) (p : Object Value) : (h.placed p).Inside r s :=
  inside.imp fun _ has => has.placed p

/-- Environments stay inside others if the object that is written stays inside its own. -/
theorem Inside.setObject {t : Ref} (inside : h.Inside r s) (has : h.Has t o)
    (keeps : ∀ values e, o = .environment values (some e) → ∃ values, p = .environment values (some e)) :
    (h.setObject t p).Inside r s := by
  obtain ⟨values,here⟩ := inside
  by_cases e : t.index = r.index
  · obtain rfl : t = r := congrArg Ref.mk e
    obtain ⟨values,rfl⟩ := keeps _ _ (has.unique here)
    exact ⟨values,has.setObject_self _⟩
  · exact ⟨values,here.setObject_of_ne e p⟩

end Heap

/-! ## Layouts -/

/-- Where the objects of a heap have their counterparts, and which environments are known to be inside
which, in the one heap and in the other. The functions that are methods are apart from all other objects,
since no value is one of them. -/
structure Layout where
  paired : Bool → Ref → Ref → Prop
  inside : Ref → Ref → Prop
  within : Ref → Ref → Prop

namespace Layout

/-- An object that is no method, and its counterpart. -/
abbrev twin (L : Layout) : Ref → Ref → Prop := L.paired false

/-- A method and its counterpart. -/
abbrev method (L : Layout) : Ref → Ref → Prop := L.paired true

/-- More is known, and what was known stays so. -/
structure Grows (L M : Layout) : Prop where
  paired {b r s} : L.paired b r s → M.paired b r s
  inside {r s} : L.inside r s → M.inside r s
  within {r s} : L.within r s → M.within r s

theorem Grows.refl (L : Layout) : L.Grows L := ⟨id,id,id⟩

theorem Grows.trans {L M N : Layout} (lm : L.Grows M) (mn : M.Grows N) : L.Grows N :=
  ⟨mn.paired ∘ lm.paired,mn.inside ∘ lm.inside,mn.within ∘ lm.within⟩

/-- One more object with its counterpart. -/
def put (L : Layout) (b : Bool) (r s : Ref) : Layout :=
  { L with paired := fun c t u => L.paired c t u ∨ c = b ∧ t = r ∧ u = s }

theorem grows_put (L : Layout) (b : Bool) (r s : Ref) : L.Grows (L.put b r s) := ⟨.inl,id,id⟩

theorem paired_put (L : Layout) (b : Bool) (r s : Ref) : (L.put b r s).paired b r s := .inr ⟨rfl,rfl,rfl⟩

/-- One more environment that is inside another one, on either side. -/
def nest (L : Layout) (r r' s s' : Ref) : Layout :=
  { L with
    inside := fun t t' => L.inside t t' ∨ t = r ∧ t' = r'
    within := fun u u' => L.within u u' ∨ u = s ∧ u' = s' }

theorem grows_nest (L : Layout) (r r' s s' : Ref) : L.Grows (L.nest r r' s s') := ⟨id,.inl,.inl⟩

/-- One more environment on the side of the unfolded program. -/
def wrap (L : Layout) (s s' : Ref) : Layout := { L with within := fun u u' => L.within u u' ∨ u = s ∧ u' = s' }

theorem grows_wrap (L : Layout) (s s' : Ref) : L.Grows (L.wrap s s') := ⟨id,id,.inl⟩

section
variable (L : Layout)

/-- An environment and its counterpart, and so all environments around them, up to the extra ones. -/
inductive Chained : Strata → Ref → Ref → Prop
  | nil {e f} : L.twin e f → Chained [] e f
  | shared {π e e' f f'} : L.twin e f → L.inside e e' → L.within f f' → Chained π e' f' →
      Chained (.shared :: π) e f
  | extra {π e f f'} : L.within f f' → Chained π e f' → Chained (.extra :: π) e f

/-- A value and its counterpart. -/
inductive Same : Value → Value → Prop
  | plain {x} : Holder.refs x = [] → Same x x
  | object {r s} : L.twin r s → Same (.object r) (.object s)
  | bound {f g r s} : L.method f g → L.twin r s → Same (.bound f r) (.bound g s)

/-- What an object and its counterpart hold. The environment of a method is inside one for the receiver. -/
inductive Matches : Bool → Object Value → Object Value → Prop
  | environment {xs ys e f} : xs.Rel L.Same ys → Matches false (.environment xs e) (.environment ys f)
  | function {π r s c d} : RoutineUnfolds π r s → L.Chained π c d →
      Matches false (.function r (some c)) (.function s (some d))
  | method {π r s c d} : RoutineUnfolds (.shared :: π) r s → L.Chained π c d →
      Matches true (.function r (some c)) (.function s (some d))
  | klass {name b c xs ys} : Option.Rel L.twin b c → xs.Rel L.method ys →
      Matches false (.klass name b xs) (.klass name c ys)
  | instanceOf {b c xs ys} : Option.Rel L.twin b c → xs.Rel L.Same ys →
      Matches false (.instanceOf b xs) (.instanceOf c ys)

/-- Heaps as a layout describes them. Counterparts stand in the same order. -/
structure Heaps (h g : Heap Value) : Prop where
  left : h.Manual
  right : g.Manual
  ordered {b r s r' s'} : L.paired b r s → L.paired b r' s' → (s.index < s'.index ↔ r.index < r'.index)
  pairs {b r s} : L.paired b r s → ∃ o p, h.Has r o ∧ g.Has s p ∧ L.Matches b o p
  inside {r s} : L.inside r s → h.Inside r s
  within {r s} : L.within r s → g.Inside r s

end

variable {L M : Layout} {h g : Heap Value} {π : Strata} {r s e f : Ref} {x y : Value} {o p : Object Value}
  {b : Bool}

theorem Chained.grows (up : L.Grows M) (chained : L.Chained π e f) : M.Chained π e f := by
  induction chained with
  | nil twin => exact .nil (up.paired twin)
  | shared twin inside within _ ih => exact .shared (up.paired twin) (up.inside inside) (up.within within) ih
  | extra within _ ih => exact .extra (up.within within) ih

theorem Chained.twin (chained : L.Chained π e f) (own : π.Own) : L.twin e f := by
  cases chained with
  | nil twin => exact twin
  | shared twin _ _ _ => exact twin
  | extra => exact own.elim

theorem Same.grows (up : L.Grows M) (same : L.Same x y) : M.Same x y := by
  cases same with
  | plain none => exact .plain none
  | object twin => exact .object (up.paired twin)
  | bound method receiver => exact .bound (up.paired method) (up.paired receiver)

theorem Matches.grows (up : L.Grows M) (matching : L.Matches b o p) : M.Matches b o p := by
  have base {b c : Option Ref} (rel : Option.Rel L.twin b c) : Option.Rel M.twin b c := by
    cases rel with
    | none => exact .none
    | some twin => exact .some (up.paired twin)
  cases matching with
  | environment values => exact .environment (values.imp fun _ _ => Same.grows up)
  | function unfolds chained => exact .function unfolds (chained.grows up)
  | method unfolds chained => exact .method unfolds (chained.grows up)
  | klass superclass methods => exact .klass (base superclass) (methods.imp fun _ _ => up.paired)
  | instanceOf klass fields => exact .instanceOf (base klass) (fields.imp fun _ _ => Same.grows up)

theorem Matches.kind (matching : L.Matches b o p) : p.kind = o.kind := by cases matching <;> rfl

theorem Same.isTruthy_eq (same : L.Same x y) : y.isTruthy = x.isTruthy := by cases same <;> rfl

/-! ## Answers -/

end Layout

/-- The same failure, up to the depth at which a name is missing. -/
inductive Failure.Near : Failure → Failure → Prop
  | refl (f) : Near f f
  | missing (name d e) : Near (.fault (.missingName name d)) (.fault (.missingName name e))

namespace Layout
variable {α β γ δ : Type}

/-- What two readings give. -/
inductive Answers (rel : α → β → Prop) : Except Failure α → Except Failure β → Prop
  | ok {a b} : rel a b → Answers rel (.ok a) (.ok b)
  | error {e f} : Failure.Near e f → Answers rel (.error e) (.error f)

variable {rel : α → β → Prop} {rel' : γ → δ → Prop}

theorem Answers.bind {x : Except Failure α} {y : Except Failure β} {u : α → Except Failure γ}
    {v : β → Except Failure δ} (first : Answers rel x y) (next : ∀ a b, rel a b → Answers rel' (u a) (v b)) :
    Answers rel' (x >>= u) (y >>= v) := by
  cases first with
  | ok ab => exact next _ _ ab
  | error near => exact .error near

theorem Answers.wrongKind : Answers rel Heap.wrongKind Heap.wrongKind := .error (.refl _)

theorem Answers.of_eq {x y : Except Failure α} (same : y = x) : Answers Eq x y := by
  subst same
  cases y with
  | ok a => exact .ok rfl
  | error e => exact .error (.refl e)

namespace Heaps
variable {L M : Layout} {h g k l : Heap Value} {π : Strata} {r s e f : Ref} {x y : Value} {o p : Object Value}
  {b : Bool} (heaps : L.Heaps h g)
include heaps

theorem eq_iff {t u : Ref} (rs : L.paired b r s) (tu : L.paired b t u) : s = u ↔ r = t := by
  have less := heaps.ordered rs tu
  have more := heaps.ordered tu rs
  have index {a b : Ref} : a = b ↔ a.index = b.index := ⟨congrArg _,congrArg Ref.mk⟩
  rw [index,index]
  omega

theorem kindOf_eq (twin : L.paired b r s) : g.kindOf s = h.kindOf r := by
  obtain ⟨o,p,left,right,matching⟩ := heaps.pairs twin
  rw [left.kindOf,right.kindOf,matching.kind]

theorem equal_eq {x' y' : Value} (first : L.Same x y) (second : L.Same x' y') :
    y.equal y' = x.equal x' := by
  have same {b : Bool} {r s r' s' : Ref} (rs : L.paired b r s) (rs' : L.paired b r' s') : decide (s = s') = decide (r = r') :=
    decide_eq_decide.mpr (heaps.eq_iff rs rs')
  cases first with
  | plain none =>
    cases second with
    | plain none' => rfl
    | object | bound => cases x <;> first | rfl | cases none
  | object rs =>
    cases second with
    | plain none' => cases x' <;> first | rfl | cases none'
    | object rs' => exact same rs rs'
    | bound => rfl
  | bound fg rs =>
    cases second with
    | plain none' => cases x' <;> first | rfl | cases none'
    | object => rfl
    | bound fg' rs' => exact congrArg₂ and (same fg fg') (same rs rs')

theorem answers_live (twin : L.paired b r s) :
    Answers (fun c d => L.Matches b c.object d.object) (h.live r) (g.live s) := by
  obtain ⟨o,p,left,right,matching⟩ := heaps.pairs twin
  obtain ⟨c,hc,rfl⟩ := left.live
  obtain ⟨d,hd,rfl⟩ := right.live
  rw [hc,hd]
  exact .ok matching

/-! ### Environments -/

theorem answers_environment (twin : L.twin r s) :
    Answers (fun a b => a.1.Rel L.Same b.1) (h.environment r) (g.environment s) := by
  refine (heaps.answers_live twin).bind fun c d matching => ?_
  generalize c.object = o,d.object = p at matching
  cases matching with
  | environment values => exact .ok values
  | _ => exact .wrongKind

theorem answers_lookup (twin : L.twin e f) (name : String) :
    Answers L.Same (h.lookup e name) (g.lookup f name) := by
  refine (heaps.answers_environment twin).bind fun a b values => ?_
  have found := values.get? name
  dsimp only
  generalize a.1.get? name = x,b.1.get? name = y at found
  cases found with
  | none => exact .error (.refl _)
  | some same => exact .ok same

/-- Depths that lead to the same scope lead to an environment and its counterpart. -/
theorem hop_eq (chained : L.Chained π e f) {d d' : ℕ} (leads : π.Leads d d') (n n' : Int) :
    ∃ r s, h.hop n d e = .ok r ∧ g.hop n' d' f = .ok s ∧ L.twin r s := by
  induction leads generalizing e f with
  | here =>
    cases chained with
    | shared twin _ _ _ =>
      obtain ⟨o,p,left,right,-⟩ := heaps.pairs twin
      obtain ⟨c,hc,-⟩ := left.live
      obtain ⟨d,hd,-⟩ := right.live
      exact ⟨e,f,by simp only [hop,hc]; rfl,by simp only [hop,hd]; rfl,twin⟩
  | shared _ ih =>
    cases chained with
    | shared _ inside within outer =>
      obtain ⟨r,s,hr,hs,twin⟩ := ih outer
      obtain ⟨_,left⟩ := heaps.inside inside
      obtain ⟨_,right⟩ := heaps.within within
      refine ⟨r,s,?_,?_,twin⟩
      · simp only [hop,left.environment]
        exact hr
      · simp only [hop,right.environment]
        exact hs
  | extra _ ih =>
    cases chained with
    | extra within outer =>
      obtain ⟨r,s,hr,hs,twin⟩ := ih outer
      obtain ⟨_,right⟩ := heaps.within within
      refine ⟨r,s,hr,?_,twin⟩
      simp only [hop,right.environment]
      exact hs

theorem ancestor_eq (chained : L.Chained π e f) {d d' : ℕ} (leads : π.Leads d d') :
    ∃ r s, h.ancestor e d = .ok r ∧ g.ancestor f d' = .ok s ∧ L.twin r s := by
  simp only [ancestor,Int.toNat_natCast]
  exact heaps.hop_eq chained leads d d'

theorem answers_lookupAt (chained : L.Chained π e f) {d d' : ℕ} (leads : π.Leads d d') (name : String) :
    Answers L.Same (h.lookupAt e d name) (g.lookupAt f d' name) := by
  obtain ⟨r,s,left,right,twin⟩ := heaps.ancestor_eq chained leads
  simp only [lookupAt,left,right]
  refine (heaps.answers_environment twin).bind fun a b values => ?_
  have found := values.get? name
  generalize a.1.get? name = x,b.1.get? name = y at found
  cases found with
  | none => exact .error (.missing name d d')
  | some same => exact .ok same

/-! ### Functions, classes and instances -/

theorem answers_function (twin : L.twin r s) :
    Answers (fun a b => ∃ π c d, RoutineUnfolds π a.1 b.1 ∧ a.2 = some c ∧ b.2 = some d ∧ L.Chained π c d)
      (h.function r) (g.function s) := by
  refine (heaps.answers_live twin).bind fun c d matching => ?_
  generalize c.object = o,d.object = p at matching
  cases matching with
  | function unfolds chained => exact .ok ⟨_,_,_,unfolds,rfl,rfl,chained⟩
  | _ => exact .wrongKind

theorem answers_method (twin : L.method r s) :
    Answers (fun a b => ∃ π c d, RoutineUnfolds (.shared :: π) a.1 b.1 ∧ a.2 = some c ∧ b.2 = some d ∧
      L.Chained π c d) (h.function r) (g.function s) := by
  refine (heaps.answers_live twin).bind fun c d matching => ?_
  generalize c.object = o,d.object = p at matching
  cases matching with
  | method unfolds chained => exact .ok ⟨_,_,_,unfolds,rfl,rfl,chained⟩

theorem answers_routine (twin : L.paired b r s) :
    Answers (fun a b => b.arity = a.arity) (h.routine r) (g.routine s) := by
  obtain ⟨o,p,left,right,matching⟩ := heaps.pairs twin
  simp only [routine,left.object?,right.object?]
  cases matching with
  | function unfolds _ | method unfolds _ => exact .ok unfolds.arity
  | _ => exact .wrongKind

theorem answers_findMethod (twin : L.twin r s) (name : String) :
    Answers (Option.Rel L.method) (h.findMethod r name) (g.findMethod s name) := by
  induction hn : r.index using Nat.strongRecOn generalizing r s with
  | ind n ih =>
    rw [Comparison.findMethod_eq h,Comparison.findMethod_eq g]
    refine (heaps.answers_live twin).bind fun c d matching => ?_
    generalize c.object = o,d.object = p at matching
    cases matching with
    | @klass _ _ _ xs ys superclass methods =>
      have found := methods.get? name
      dsimp only
      generalize xs.get? name = a,ys.get? name = b at found
      cases found with
      | some method => exact .ok (.some method)
      | none =>
        cases superclass with
        | none => exact .ok .none
        | @some t u above =>
          have order := heaps.ordered above twin
          simp only [order]
          split
          · next lt => exact ih t.index (hn ▸ lt) above rfl
          · exact .error (.refl _)
    | _ => exact .wrongKind

end Heaps

/-- A property and its counterpart. -/
inductive Properties (L : Layout) : Property Value → Property Value → Prop
  | field {x y} : L.Same x y → Properties L (.field x) (.field y)
  | method {f g} : L.method f g → Properties L (.method f) (.method g)

namespace Heaps
variable {L M : Layout} {h g k l : Heap Value} {π : Strata} {r s e f : Ref} {x y : Value} {o p : Object Value}
  {b : Bool} (heaps : L.Heaps h g)
include heaps

theorem answers_property (twin : L.twin r s) (name : String) :
    Answers L.Properties (h.property r name) (g.property s name) := by
  refine (heaps.answers_live twin).bind fun c d matching => ?_
  generalize c.object = o,d.object = p at matching
  cases matching with
  | @instanceOf _ _ xs ys klass fields =>
    have found := fields.get? name
    dsimp only
    generalize xs.get? name = a,ys.get? name = b at found
    cases found with
    | some same => exact .ok (.field same)
    | none =>
      cases klass with
      | none => exact .wrongKind
      | some twin =>
        refine (heaps.answers_findMethod twin name).bind fun a b found => ?_
        cases found with
        | none => exact .error (.refl _)
        | some method => exact .ok (.method method)
  | _ => exact .wrongKind

theorem answers_arity (twin : L.paired b r s) : Answers Eq (h.arity r) (g.arity s) := by
  have function {b : Bool} {r s : Ref} (twin : L.paired b r s) : Answers Eq (do return (← h.routine r).arity)
      (do return (← g.routine s).arity) :=
    (heaps.answers_routine twin).bind fun a b same => .ok same.symm
  simp only [Heap.arity,heaps.kindOf_eq twin]
  cases kind : h.kindOf r with
  | klass =>
    have twin : L.twin r s := by
      obtain ⟨o,p,left,-,matching⟩ := heaps.pairs twin
      rw [left.kindOf] at kind
      cases matching with
      | method => cases kind
      | _ => exact twin
    refine (heaps.answers_findMethod twin "init").bind fun a b found => ?_
    cases found with
    | none => exact .ok rfl
    | some method => exact function method
  | _ => exact function twin

/-! ### Texts -/

theorem declaredName_eq (twin : L.paired b r s) : g.declaredName s = h.declaredName r := by
  obtain ⟨o,p,left,right,matching⟩ := heaps.pairs twin
  simp only [declaredName,left.object?,right.object?]
  cases matching with
  | function unfolds _ | method unfolds _ => simp only [unfolds.name]
  | _ => rfl

theorem inspect_object_eq (twin : L.paired b r s) : g.inspect s = h.inspect r := by
  obtain ⟨o,p,left,right,matching⟩ := heaps.pairs twin
  simp only [Heap.inspect,left.object?,right.object?]
  cases matching with
  | function unfolds _ | method unfolds _ => simp only [unfolds.name]
  | instanceOf klass _ =>
    cases klass with
    | none => rfl
    | some twin => simp only [heaps.declaredName_eq twin]
  | _ => rfl

theorem inspect_eq (same : L.Same x y) : y.inspect g = x.inspect h := by
  cases same with
  | object twin => exact heaps.inspect_object_eq twin
  | bound function _ => exact heaps.inspect_object_eq function
  | plain none =>
    cases x with
    | object | bound => cases none
    | bool b => cases b <;> rfl
    | _ => rfl

theorem isCallable_eq (same : L.Same x y) : y.isCallable g = x.isCallable h := by
  cases same with
  | object twin => simp only [Value.isCallable,heaps.kindOf_eq twin]
  | bound => rfl
  | plain none =>
    cases x with
    | object | bound => cases none
    | _ => rfl

theorem answers_arity_value (same : L.Same x y) : Answers Eq (x.arity h) (y.arity g) := by
  cases same with
  | object twin => exact heaps.answers_arity twin
  | bound function _ => exact heaps.answers_arity function
  | plain none =>
    cases x with
    | native f => exact .ok rfl
    | object | bound => cases none
    | _ => exact .wrongKind

/-! ### Growth -/

theorem congr (left : k.cells = h.cells) (rules : k.rules = h.rules) (right : l.cells = g.cells)
    (rules' : l.rules = g.rules) : L.Heaps k l where
  left := by rw [Manual,rules]; exact heaps.left
  right := by rw [Manual,rules']; exact heaps.right
  ordered := heaps.ordered
  pairs twin := by
    obtain ⟨o,p,has,has',matching⟩ := heaps.pairs twin
    exact ⟨o,p,has.congr left,has'.congr right,matching⟩
  inside inside := (heaps.inside inside).congr left
  within within := (heaps.within within).congr right

theorem nest {r' s' : Ref} (inside : h.Inside r r') (within : g.Inside s s') : (L.nest r r' s s').Heaps h g :=
  { heaps with
    pairs := fun twin => by
      obtain ⟨o,p,left,right,matching⟩ := heaps.pairs twin
      exact ⟨o,p,left,right,matching.grows (L.grows_nest r r' s s')⟩
    inside := fun known => known.elim heaps.inside fun ⟨here,there⟩ => here ▸ there ▸ inside
    within := fun known => known.elim heaps.within fun ⟨here,there⟩ => here ▸ there ▸ within }

theorem wrap {s' : Ref} (within : g.Inside s s') : (L.wrap s s').Heaps h g :=
  { heaps with
    pairs := fun twin => by
      obtain ⟨o,p,left,right,matching⟩ := heaps.pairs twin
      exact ⟨o,p,left,right,matching.grows (L.grows_wrap s s')⟩
    within := fun known => known.elim heaps.within fun ⟨here,there⟩ => here ▸ there ▸ within }

/-- A new object and its counterpart come behind all others. -/
theorem placed (matching : (L.put b ⟨h.cells.size⟩ ⟨g.cells.size⟩).Matches b o p) :
    (L.put b ⟨h.cells.size⟩ ⟨g.cells.size⟩).Heaps (h.placed o) (g.placed p) where
  left := heaps.left
  right := heaps.right
  ordered {c r s r' s'} twin twin' := by
    have before {r s : Ref} (twin : L.paired c r s) : r.index < h.cells.size ∧ s.index < g.cells.size := by
      obtain ⟨_,_,left,right,-⟩ := heaps.pairs twin
      exact ⟨left.lt,right.lt⟩
    rcases twin with twin | ⟨rfl,rfl,rfl⟩ <;> rcases twin' with twin' | ⟨-,rfl,rfl⟩
    · exact heaps.ordered twin twin'
    · exact iff_of_true (before twin).2 (before twin).1
    · exact iff_of_false (Nat.lt_asymm (before twin').2) (Nat.lt_asymm (before twin').1)
    · exact iff_of_false (Nat.lt_irrefl _) (Nat.lt_irrefl _)
  pairs {b r s} twin := by
    rcases twin with twin | ⟨rfl,rfl,rfl⟩
    · obtain ⟨o',p',left,right,matching⟩ := heaps.pairs twin
      exact ⟨o',p',left.placed o,right.placed p,matching.grows (L.grows_put _ _ _)⟩
    · exact ⟨o,p,has_placed h o,has_placed g p,matching⟩
  inside inside := (heaps.inside inside).placed o
  within within := (heaps.within within).placed p

/-- A new object of the unfolded program alone. -/
theorem placed_right (p : Object Value) : L.Heaps h (g.placed p) :=
  { heaps with
    right := heaps.right
    pairs := fun twin => by
      obtain ⟨o,p',left,right,matching⟩ := heaps.pairs twin
      exact ⟨o,p',left,right.placed p,matching⟩
    within := fun within => (heaps.within within).placed p }

/-! ### Writes -/

/-- An object and its counterpart are written, and both stay inside the environments they are inside. -/
theorem written {o' p' : Object Value} (twin : L.twin r s) (left : h.Has r o) (right : g.Has s p)
    (matching : L.Matches false o' p') (kinds : o.kind ≠ .function ∧ p.kind ≠ .function)
    (inside : ∀ values e, o = .environment values (some e) → ∃ values, o' = .environment values (some e))
    (within : ∀ values e, p = .environment values (some e) → ∃ values, p' = .environment values (some e)) :
    L.Heaps (h.setObject r o') (g.setObject s p') where
  left := heaps.left
  right := heaps.right
  ordered := heaps.ordered
  pairs {b t u} twin' := by
    cases b with
    | true =>
      obtain ⟨a,b,ha,hb,matching⟩ := heaps.pairs twin'
      have other {h : Heap Value} {r t : Ref} {o a : Object Value} (left : h.Has r o) (right : h.Has t a)
          (plain : o.kind ≠ .function) (function : a.kind = .function) : r.index ≠ t.index := by
        intro same
        obtain rfl : r = t := congrArg Ref.mk same
        exact plain (left.unique right ▸ function)
      have function : a.kind = .function := by cases matching; rfl
      exact ⟨a,b,ha.setObject_of_ne (other left ha kinds.1 function) o',
        hb.setObject_of_ne (other right hb kinds.2 (matching.kind.trans function)) p',matching⟩
    | false =>
    by_cases same : r = t
    · obtain rfl := same
      obtain rfl := (heaps.eq_iff twin twin').mpr rfl
      exact ⟨o',p',left.setObject_self o',right.setObject_self p',matching⟩
    · obtain ⟨a,b,ha,hb,matching⟩ := heaps.pairs twin'
      have other : s ≠ u := mt (heaps.eq_iff twin twin').mp same
      exact ⟨a,b,ha.setObject_of_ne (Ref.index_ne same) o',hb.setObject_of_ne (Ref.index_ne other) p',matching⟩
  inside known := (heaps.inside known).setObject left inside
  within known := (heaps.within known).setObject right within

end Heaps

/-- What two writes give: heaps of the layout, or the same failure and nothing written. -/
inductive Writes (L : Layout) (h g : Heap Value) : EStateM.Result Failure (Heap Value) Unit →
    EStateM.Result Failure (Heap Value) Unit → Prop
  | ok {k l} : L.Heaps k l → Writes L h g (.ok () k) (.ok () l)
  | error {e} : Writes L h g (.error e h) (.error e g)

namespace Heaps
variable {L : Layout} {h g : Heap Value} {π : Strata} {r s e f : Ref} {x y : Value} (heaps : L.Heaps h g)
include heaps

theorem writes_define (twin : L.twin e f) (name : String) (same : L.Same x y) :
    L.Writes h g (define e name x h) (define f name y g) := by
  obtain ⟨o,p,left,right,matching⟩ := heaps.pairs twin
  obtain ⟨c,hc,ho⟩ := left.live
  obtain ⟨d,hd,hp⟩ := right.live
  simp only [define,Heap.environment,hc,hd,Bind.bind,Except.bind,ho,hp]
  cases matching with
  | environment values =>
    refine .ok (heaps.written twin left right (.environment (values.set name same)) ⟨by rintro ⟨⟩,by rintro ⟨⟩⟩ ?_ ?_) <;>
    · rintro _ _ ⟨⟩
      exact ⟨_,rfl⟩
  | _ => exact .error

theorem writes_assign (twin : L.twin e f) (name : String) (same : L.Same x y) :
    L.Writes h g (assign e name x h) (assign f name y g) := by
  obtain ⟨o,p,left,right,matching⟩ := heaps.pairs twin
  obtain ⟨c,hc,ho⟩ := left.live
  obtain ⟨d,hd,hp⟩ := right.live
  simp only [assign,Heap.environment,hc,hd,Bind.bind,Except.bind,ho,hp]
  cases matching with
  | environment values =>
    simp only [Pure.pure,Except.pure,values.contains_eq name]
    split
    · refine .ok (heaps.written twin left right (.environment (values.set name same)) ⟨by rintro ⟨⟩,by rintro ⟨⟩⟩ ?_ ?_) <;>
      · rintro _ _ ⟨⟩
        exact ⟨_,rfl⟩
    · exact .error
  | _ => exact .error

theorem writes_assignAt (chained : L.Chained π e f) {d d' : ℕ} (leads : π.Leads d d') (name : String)
    (same : L.Same x y) : L.Writes h g (assignAt e d name x h) (assignAt f d' name y g) := by
  obtain ⟨r,s,left,right,twin⟩ := heaps.ancestor_eq chained leads
  simp only [assignAt,left,right]
  exact heaps.writes_assign twin name same

theorem writes_setField (twin : L.twin r s) (name : String) (same : L.Same x y) :
    L.Writes h g (setField r name x h) (setField s name y g) := by
  obtain ⟨o,p,left,right,matching⟩ := heaps.pairs twin
  obtain ⟨c,hc,ho⟩ := left.live
  obtain ⟨d,hd,hp⟩ := right.live
  simp only [setField,hc,hd,ho,hp]
  cases matching with
  | instanceOf klass fields =>
    refine .ok (heaps.written twin left right (.instanceOf klass (fields.set name same)) ⟨by rintro ⟨⟩,by rintro ⟨⟩⟩ ?_ ?_) <;>
    · rintro _ _ ⟨⟩
  | _ => exact .error

end Heaps
end Layout
end Lox
