import Lox.Proofs.Scope.Context
import Lox.Value
import Mathlib.Data.List.Basic

/-! # Worlds

What is known of the objects of a heap. A world gives a role to each object that programs deal with:
an environment has been opened for a construct, inside another environment, and binds certain names;
a function has been made in an environment for a context. What is known only grows.
-/
namespace Lox

/-- What is known of an environment. -/
structure Frame where
  origin : Origin
  parent : Option Ref
  /-- Names that it binds, among others. -/
  names : List String := []

inductive Role
  | environment (f : Frame)
  /-- A function made in an environment, which has to provide a context when it is called. -/
  | function (method : Bool) (closure : Ref) (around : Context) (arity : Nat)
  | klass (superclass : Option Ref) (methods : Bindings Ref) (arity : Nat)
  | instanceOf

namespace Role

def kind : Role → ObjectKind
  | environment _ => .environment
  | function .. => .function
  | klass .. => .klass
  | instanceOf => .instanceOf

/-- The number of arguments that a call takes. -/
def arity? : Role → Option Nat
  | function _ _ _ n | klass _ _ n => some n
  | _ => none

/-- More is known: of an environment, that it binds more names. -/
inductive Grows : Role → Role → Prop
  | refl (R : Role) : Grows R R
  | environment {f : Frame} {names : List String} : f.names ⊆ names →
      Grows (.environment f) (.environment { f with names })

theorem Grows.trans {R S T : Role} (first : Grows R S) (second : Grows S T) : Grows R T := by
  cases first with
  | refl => exact second
  | environment sub =>
    cases second with
    | refl => exact .environment sub
    | environment sub' => exact .environment (List.Subset.trans sub sub')

theorem Grows.kind {R S : Role} (grows : Grows R S) : S.kind = R.kind := by cases grows <;> rfl

end Role

/-- The roles of objects. -/
def World := Ref → Option Role

namespace World
variable (W : World)

/-- The environment and those around it are what is asked for by a context. The one behind all
scopes binds globals. -/
def Provides : Ref → Context → Prop
  | e, [] => ∃ f, W e = some (.environment f) ∧ f.origin = .world
  | e, layer :: Γ => ∃ f outer, W e = some (.environment f) ∧ f.origin = layer.origin ∧
      layer.names ⊆ f.names ∧ f.parent = some outer ∧ Provides outer Γ

/-- A method that can be called on so many arguments. -/
def IsMethod (r : Ref) (arity : Nat) : Prop :=
  ∃ closure Γ, W r = some (.function true closure Γ arity) ∧ W.Provides closure Γ

def IsEnvironment (r : Ref) : Prop := ∃ f, W r = some (.environment f)

/-- A class whose methods can be called. -/
def IsClass (r : Ref) (arity : Nat) : Prop :=
  ∃ superclass methods, W r = some (.klass superclass methods arity) ∧
    ∀ f ∈ methods.values, ∃ n, W.IsMethod f n

def IsFunction (r : Ref) (arity : Nat) : Prop :=
  ∃ closure Γ, W r = some (.function false closure Γ arity) ∧ W.Provides closure Γ

/-- An object that a program can have as a value. -/
inductive IsObject (r : Ref) : Prop
  | function {n} : W.IsFunction r n → IsObject r
  | klass {n} : W.IsClass r n → IsObject r
  | instanceOf : W r = some .instanceOf → IsObject r

/-- A value that a program can have. -/
def Holds : Value → Prop
  | .object r => W.IsObject r
  | .bound f r => (∃ n, W.IsMethod f n) ∧ W.IsObject r
  | _ => True

/-- A call of the value takes so many arguments. -/
def Takes : Value → Nat → Prop
  | .native f, n => f.arity = n
  | .bound f _, n | .object f, n => ∃ R, W f = some R ∧ R.arity? = some n
  | _, _ => False

/-- More is known. -/
def Grows (V : World) : Prop := ∀ r R, W r = some R → ∃ S, V r = some S ∧ R.Grows S

/-- The role of an object is settled. -/
def put (r : Ref) (R : Role) : World := fun s => if s = r then some R else W s

variable {W} {V U : World}

@[simp] theorem put_self (r : Ref) (R : Role) : W.put r R r = some R := if_pos rfl

theorem put_of_ne {r s : Ref} (h : s ≠ r) (R : Role) : W.put r R s = W s := if_neg h

theorem Grows.refl (W : World) : W.Grows W := fun _ R h => ⟨R,h,.refl R⟩

theorem Grows.trans (first : W.Grows V) (second : V.Grows U) : W.Grows U := fun r R h => by
  obtain ⟨S,hS,grows⟩ := first r R h
  obtain ⟨T,hT,grows'⟩ := second r S hS
  exact ⟨T,hT,grows.trans grows'⟩

theorem grows_put_new {r : Ref} (fresh : W r = none) (R : Role) : W.Grows (W.put r R) :=
  fun s S h => by
    have ne : s ≠ r := by rintro rfl; simp [fresh] at h
    exact ⟨S,(put_of_ne ne R).trans h,.refl S⟩

theorem grows_put {r : Ref} {R S : Role} (role : W r = some R) (grows : R.Grows S) :
    W.Grows (W.put r S) := fun s T h => by
  by_cases e : s = r
  · subst e
    cases h.symm.trans role
    exact ⟨S,put_self s S,grows⟩
  · exact ⟨T,(put_of_ne e S).trans h,.refl T⟩

section
variable (up : W.Grows V)
include up

theorem Grows.environment {e : Ref} {f : Frame} (h : W e = some (.environment f)) :
    ∃ names, f.names ⊆ names ∧ V e = some (.environment { f with names }) := by
  obtain ⟨S,hS,grows⟩ := up e _ h
  cases grows with
  | refl => exact ⟨f.names,List.Subset.refl _,hS⟩
  | environment sub => exact ⟨_,sub,hS⟩

theorem Grows.function {r closure : Ref} {method : Bool} {Γ : Context} {n : Nat}
    (h : W r = some (.function method closure Γ n)) : V r = some (.function method closure Γ n) := by
  obtain ⟨S,hS,grows⟩ := up r _ h
  cases grows
  exact hS

theorem Grows.klass {r : Ref} {superclass : Option Ref} {methods : Bindings Ref} {n : Nat}
    (h : W r = some (.klass superclass methods n)) : V r = some (.klass superclass methods n) := by
  obtain ⟨S,hS,grows⟩ := up r _ h
  cases grows
  exact hS

theorem Grows.instanceOf {r : Ref} (h : W r = some .instanceOf) : V r = some .instanceOf := by
  obtain ⟨S,hS,grows⟩ := up r _ h
  cases grows
  exact hS

theorem Grows.provides {e : Ref} {Γ : Context} (h : W.Provides e Γ) : V.Provides e Γ := by
  induction Γ generalizing e with
  | nil =>
    obtain ⟨f,hf,world⟩ := h
    obtain ⟨names,-,hf⟩ := up.environment hf
    exact ⟨_,hf,world⟩
  | cons layer Γ ih =>
    obtain ⟨f,outer,hf,origin,sub,parent,rest⟩ := h
    obtain ⟨names,more,hf⟩ := up.environment hf
    exact ⟨_,outer,hf,origin,List.Subset.trans sub more,parent,ih rest⟩

theorem Grows.isEnvironment {r : Ref} (h : W.IsEnvironment r) : V.IsEnvironment r := by
  obtain ⟨f,hf⟩ := h
  obtain ⟨names,-,hf⟩ := up.environment hf
  exact ⟨_,hf⟩

theorem Grows.isMethod {r : Ref} {n : Nat} (h : W.IsMethod r n) : V.IsMethod r n := by
  obtain ⟨closure,Γ,role,provides⟩ := h
  exact ⟨closure,Γ,up.function role,up.provides provides⟩

theorem Grows.isFunction {r : Ref} {n : Nat} (h : W.IsFunction r n) : V.IsFunction r n := by
  obtain ⟨closure,Γ,role,provides⟩ := h
  exact ⟨closure,Γ,up.function role,up.provides provides⟩

theorem Grows.isClass {r : Ref} {n : Nat} (h : W.IsClass r n) : V.IsClass r n := by
  obtain ⟨superclass,methods,role,callable⟩ := h
  exact ⟨superclass,methods,up.klass role,fun f hf => (callable f hf).imp fun _ => up.isMethod⟩

theorem Grows.isObject {r : Ref} (h : W.IsObject r) : V.IsObject r := by
  cases h with
  | function h => exact .function (up.isFunction h)
  | klass h => exact .klass (up.isClass h)
  | instanceOf h => exact .instanceOf (up.instanceOf h)

theorem Grows.holds {x : Value} (h : W.Holds x) : V.Holds x := by
  cases x with
  | object r => exact up.isObject h
  | bound f r => exact ⟨h.1.imp fun _ => up.isMethod,up.isObject h.2⟩
  | _ => trivial

theorem Grows.takes {x : Value} {n : Nat} (h : W.Takes x n) : V.Takes x n := by
  have role : ∀ {r : Ref}, (∃ R, W r = some R ∧ R.arity? = some n) →
      ∃ R, V r = some R ∧ R.arity? = some n := by
    rintro r ⟨R,hR,arity⟩
    obtain ⟨S,hS,grows⟩ := up r R hR
    cases grows with
    | refl => exact ⟨R,hS,arity⟩
    | environment => cases arity
  cases x with
  | object r | bound f r => exact role h
  | _ => exact h

end

/-- A context that asks for less. -/
theorem Provides.of_declare {e : Ref} {Γ : Context} {name : String}
    (h : W.Provides e (Γ.declare name)) : W.Provides e Γ := by
  cases Γ with
  | nil => exact h
  | cons layer Γ =>
    obtain ⟨f,outer,hf,origin,sub,rest⟩ := h
    exact ⟨f,outer,hf,origin,fun n hn => sub (List.mem_cons_of_mem _ hn),rest⟩

theorem Provides.isEnvironment {e : Ref} {Γ : Context} (h : W.Provides e Γ) : W.IsEnvironment e := by
  cases Γ with
  | nil => exact ⟨h.choose,h.choose_spec.1⟩
  | cons layer Γ =>
    obtain ⟨f,-,hf,-⟩ := h
    exact ⟨f,hf⟩

/-- Another context may be provided by the environment around. -/
theorem Provides.within {e outer : Ref} {layer : Layer} {Γ Δ : Context} {f : Frame}
    (h : W.Provides e (layer :: Γ)) (role : W e = some (.environment f)) (parent : f.parent = some outer)
    (around : W.Provides outer Δ) : W.Provides e (layer :: Δ) := by
  obtain ⟨f',-,role',origin,sub,-⟩ := h
  cases role.symm.trans role'
  exact ⟨f,outer,role,origin,sub,parent,around⟩

/-- An environment that binds one more name provides it. -/
theorem Provides.declare {e : Ref} {Γ : Context} {f : Frame} (h : W.Provides e Γ)
    (role : W e = some (.environment f)) (name : String) :
    (W.put e (.environment { f with names := name :: f.names })).Provides e (Γ.declare name) := by
  have up : W.Grows (W.put e (.environment { f with names := name :: f.names })) :=
    grows_put role (.environment (List.subset_cons_self name f.names))
  cases Γ with
  | nil => exact up.provides h
  | cons layer Γ =>
    obtain ⟨f',outer,hf,origin,sub,parent,rest⟩ := h
    obtain rfl : f = f' := Role.environment.inj (Option.some.inj (role.symm.trans hf))
    exact ⟨_,outer,put_self e _,origin,List.cons_subset_cons name sub,parent,up.provides rest⟩

end World
end Lox
