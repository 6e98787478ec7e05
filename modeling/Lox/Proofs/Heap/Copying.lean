import Lox.Proofs.Heap.Comparison
import Lox.Proofs.Heap.World
import Mathlib.Order.Monotone.Basic

/-! # Copies

A heap can hold copies of the objects of another heap that have a role in a world. Copies stand in
other places and their names are spelled in another way. What a program does with an object is done
to its copy by the program as it is respelled, and with the same result. A way of copying says what
the copies look like and is asked once for what this takes: what an object with a role contains, and
that writes and allocations on both sides keep the copies.
-/
namespace Lox
open Heap

/-! ## Moving and spelling -/

def Ref.move (f : Nat → Nat) (r : Ref) : Ref := ⟨f r.index⟩

def Value.move (f : Nat → Nat) : Value → Value
  | .object r => .object (r.move f)
  | .bound g r => .bound (g.move f) (r.move f)
  | x => x

namespace Bindings
variable {α β : Type}

def transport (f : String → String) (g : α → β) (b : Bindings α) : Bindings β :=
  ⟨b.entries.map fun e => (f e.1,g e.2)⟩

theorem values_transport (f : String → String) (g : α → β) (b : Bindings α) :
    (b.transport f g).values = b.values.map g := by
  simp only [values,transport,List.map_map]
  rfl

@[simp] theorem transport_id (b : Bindings α) : b.transport id id = b := by simp [transport]

variable (f : Equiv.Perm String) (g : α → β) (b : Bindings α)

theorem get?_transport (name : String) : (b.transport f g).get? (f name) = (b.get? name).map g := by
  simp only [get?,transport]
  induction b.entries with
  | nil => rfl
  | cons e l ih =>
    by_cases h : e.1 = name
    · simp [find,h]
    · simp [find,h,ih]

theorem contains_transport (name : String) :
    (b.transport f g).contains (f name) = b.contains name := by
  rw [contains,get?_transport,Option.isSome_map]
  rfl

theorem set_transport (name : String) (x : α) :
    (b.transport f g).set (f name) (g x) = (b.set name x).transport f g := by
  simp only [set,transport,mk.injEq]
  induction b.entries with
  | nil => rfl
  | cons e l ih =>
    by_cases h : e.1 = name
    · simp [put,h]
    · simp [put,h,ih]

end Bindings

theorem Value.equal_move {f : Nat → Nat} (inj : Function.Injective f) (x y : Value) :
    (x.move f).equal (y.move f) = x.equal y := by
  have same : ∀ r s : Ref, (r.move f = s.move f) = (r = s) := fun r s => by
    simp only [Ref.move,Ref.mk.injEq,inj.eq_iff]
    cases r
    cases s
    simp
  cases x <;> cases y <;> simp only [Value.move,Value.equal,same]

@[simp] theorem Value.isTruthy_move (f : Nat → Nat) (x : Value) :
    (x.move f).isTruthy = x.isTruthy := by cases x <;> rfl

/-! ## What copies look like -/

/-- The context in which the body of a function is, if its declaration is in a given one. -/
def Context.ofFunction (Γ : Context) (method : Bool) (r : Routine) : Context :=
  if method then (Γ.ofMethod r).ofRoutine r else Γ.ofRoutine r

namespace Role

/-- What an object with a role has, even when it has been released. -/
def Shape : Role → Object Value → Prop
  | function _ _ _ n, o => ∃ routine closure, o = .function routine closure ∧ routine.arity = n
  | R, o => o.kind = R.kind

theorem Shape.kind {R : Role} {o : Object Value} (shape : R.Shape o) : o.kind = R.kind := by
  cases R with
  | function =>
    obtain ⟨routine,closure,rfl,-⟩ := shape
    rfl
  | _ => exact shape

theorem Shape.emptied {R : Role} {o : Object Value} (shape : R.Shape o) : R.Shape o.emptied := by
  cases R with
  | function =>
    obtain ⟨routine,closure,rfl,arity⟩ := shape
    exact ⟨routine,none,rfl,arity⟩
  | _ => exact (Object.kind_emptied o).trans shape

theorem Shape.grows {R S : Role} {o : Object Value} (grows : R.Grows S) (shape : R.Shape o) :
    S.Shape o := by
  cases grows with
  | refl => exact shape
  | environment => exact shape

end Role

/-- A class has an initializer with so many parameters, of its own or inherited, or it has none and
takes no arguments. -/
def World.Initializes (W : World) (superclass : Option Ref) (methods : Bindings Ref) (n : Nat) : Prop :=
  match methods.get? "init", superclass with
  | some f, _ => ∃ closure Γ, W f = some (.function true closure Γ n)
  | none, some c => ∃ s ms, W c = some (.klass s ms n)
  | none, none => n = 0

/-- How copies look, and what is asked for of the programs in them. -/
structure Guise where
  move : Nat → Nat
  ascending : StrictMono move
  spelling : Spelling
  plain (name : String) : spelling.inScope .world name = name
  this (o : Origin) : spelling.inScope o "this" = "this"
  super (o : Origin) : spelling.inScope o "super" = "super"
  /-- The uses of scopes that may occur in a context. -/
  use : Context → Expr → Prop
  /-- The names that are assigned to. -/
  named : String → Prop
  assigned {Γ r e} : use Γ (.assign r e) → named r.name.text
  /-- The environments that may have been made for a construct. -/
  made : Ref → Origin → Prop

namespace Guise
variable (G : Guise)

abbrev ref (r : Ref) : Ref := r.move G.move

abbrev value (x : Value) : Value := x.move G.move

/-- An object with a role as it is copied. -/
def copy : Role → Object Value → Object Value
  | .environment f, .environment values enclosing =>
    .environment (values.transport (G.spelling.inScope f.origin) G.value) (enclosing.map G.ref)
  | .function method _ Γ _, .function r closure =>
    .function (r.respell G.spelling (Γ.ofFunction method r).origins) (closure.map G.ref)
  | .klass .., .klass name superclass methods =>
    .klass name (superclass.map G.ref) (methods.transport id G.ref)
  | .instanceOf, .instanceOf base fields =>
    .instanceOf (base.map G.ref) (fields.transport id G.value)
  | _, o => o

/-- What an object with a role contains. -/
inductive Content (W : World) (r : Ref) : Role → Object Value → Prop
  | environment {f values} : (∀ n ∈ f.names, values.contains n) → (∀ x ∈ values.values, W.Holds x) →
      (∀ e ∈ f.parent, W.IsEnvironment e) → G.made r f.origin →
      Content W r (.environment f) (.environment values f.parent)
  | function {method closure Γ n routine} : routine.arity = n → W.IsEnvironment closure →
      routine.Fits G.spelling G.use (Γ.ofFunction method routine) →
      Content W r (.function method closure Γ n) (.function routine (some closure))
  | klass {name superclass methods n} : (∀ c ∈ superclass, ∃ k, W.IsClass c k) →
      (∀ f ∈ methods.values, ∃ closure Γ k, W f = some (.function true closure Γ k)) →
      W.Initializes superclass methods n →
      Content W r (.klass superclass methods n) (.klass name superclass methods)
  | instanceOf {c n fields} : W.IsClass c n → (∀ x ∈ fields.values, W.Holds x) →
      Content W r .instanceOf (.instanceOf (some c) fields)

/-- A cell and the one that holds its copy. -/
structure Copied (W : World) (r : Ref) (R : Role) (c d : Cell Value) : Prop where
  object : d.object = G.copy R c.object
  freed : d.freed = c.freed
  slot : c.freed → d.slot = c.slot
  emptied : c.freed → c.object.emptied = c.object
  shape : R.Shape c.object
  content : c.freed = false → G.Content W r R c.object

variable {G} {W V : World} {r : Ref} {R S : Role} {o : Object Value}

theorem kind_copy (R : Role) (o : Object Value) : (G.copy R o).kind = o.kind := by
  cases R <;> cases o <;> rfl

theorem name_respell (s : Spelling) (os : List Origin) (r : Routine) :
    (r.respell s os).name = r.name := by cases r; rfl

theorem arity_respell (s : Spelling) (os : List Origin) (r : Routine) :
    (r.respell s os).arity = r.arity := by
  cases r
  simp [Routine.respell,Routine.arity]

theorem copy_emptied (R : Role) (o : Object Value) : G.copy R o.emptied = (G.copy R o).emptied := by
  cases R <;> cases o <;> rfl

theorem Content.shape (content : G.Content W r R o) : R.Shape o := by
  cases content with
  | function arity _ _ => exact ⟨_,_,rfl,arity⟩
  | _ => rfl

theorem Content.grows (up : W.Grows V) (content : G.Content W r R o) : G.Content V r R o := by
  cases content with
  | environment binds holds parent made =>
    exact .environment binds (fun x hx => up.holds (holds x hx))
      (fun e he => up.isEnvironment (parent e he)) made
  | function arity closure fits => exact .function arity (up.isEnvironment closure) fits
  | @klass name superclass methods n classes functions init =>
    refine .klass (fun c hc => (classes c hc).imp fun _ => up.isClass) (fun f hf => ?_) ?_
    · obtain ⟨closure,Γ,k,role⟩ := functions f hf
      exact ⟨closure,Γ,k,up.function role⟩
    · simp only [World.Initializes] at init ⊢
      split at init
      · obtain ⟨closure,Γ,role⟩ := init
        exact ⟨closure,Γ,up.function role⟩
      · obtain ⟨s,ms,role⟩ := init
        exact ⟨s,ms,up.klass role⟩
      · exact init
  | instanceOf klass holds => exact .instanceOf (up.isClass klass) fun x hx => up.holds (holds x hx)

theorem Copied.grows (up : W.Grows V) {c d : Cell Value} (copied : G.Copied W r R c d) :
    G.Copied V r R c d :=
  { copied with content := fun live => (copied.content live).grows up }

end Guise

/-- Whether a fault shows that a depth does not lead to the environment of a scope. -/
def Fault.isScoping : Fault → Bool
  | chainTooShort _ | missingName _ _ | unresolved => true
  | _ => false

namespace Guise
variable (G : Guise) {α β : Type}

/-- The failures of an operation and of the one on copies. -/
inductive Fails : Failure → Failure → Prop
  | fault {f : Fault} : f.isScoping = false → Fails (.fault f) (.fault f)
  | cause (c : RuntimeError.Cause) : Fails (.cause c) (.cause c)
  | undefined {name : String} (o : Origin) : G.named name → Fails (.cause (.undefinedVariable name))
      (.cause (.undefinedVariable (G.spelling.inScope o name)))

/-- What an operation and the one on copies give. -/
inductive Answers (rel : α → α → Prop) : Except Failure α → Except Failure α → Prop
  | ok {a b} : rel a b → Answers rel (.ok a) (.ok b)
  | error {e f} : G.Fails e f → Answers rel (.error e) (.error f)

variable {G} {rel : α → α → Prop} {rel' : β → β → Prop}

theorem Answers.bind {x y : Except Failure α} {u v : α → Except Failure β}
    (first : G.Answers rel x y) (next : ∀ a b, x = .ok a → rel a b → G.Answers rel' (u a) (v b)) :
    G.Answers rel' (x >>= u) (y >>= v) := by
  cases first with
  | ok ab => exact next _ _ rfl ab
  | error fails => exact .error fails

theorem Answers.imp {rel' : α → α → Prop} {x y : Except Failure α} (h : G.Answers rel x y)
    (weaker : ∀ a b, x = .ok a → rel a b → rel' a b) : G.Answers rel' x y := by
  cases h with
  | ok ab => exact .ok (weaker _ _ rfl ab)
  | error fails => exact .error fails

theorem Answers.wrongKind : G.Answers rel Heap.wrongKind Heap.wrongKind := .error (.fault rfl)

end Guise

/-- A way of copying. The copies are kept by writes to an object and its copy, which may tell more
of the object, and by allocations of an object and its copy. In tight copying all objects stay where
they are, and the machines on both sides have the same roots. -/
structure Copying extends Guise where
  heaps : World → Heap Value → Heap Value → Prop
  tight : Prop
  stays (i : Nat) : tight → move i = i
  cell {W h g r R} : heaps W h g → W r = some R → ∃ c d, h.cells[r.index]? = some c ∧
    g.cells[move r.index]? = some d ∧ toGuise.Copied W r R c d
  write {W h g r R S c o} : heaps W h g → W r = some R → R.Grows S → h.cells[r.index]? = some c →
    c.freed = false → toGuise.Content (W.put r S) r S o →
    heaps (W.put r S) (h.setObject r o) (g.setObject (toGuise.ref r) (toGuise.copy S o))
  journal {W h g} : tight → heaps W h g → g.journal = h.journal
  flush {W h g} : heaps W h g → heaps W { h with journal := [] } { g with journal := [] }
  place {W h g R o roots others} : heaps W h g → (tight → others = roots) →
    toGuise.Content (W.put ⟨h.cells.size⟩ R) ⟨h.cells.size⟩ R o →
    (∃ h' g', Heap.place o roots h = .ok ⟨h.cells.size⟩ h' ∧
      Heap.place (toGuise.copy R o) others g = .ok ⟨move h.cells.size⟩ g' ∧
      heaps (W.put ⟨h.cells.size⟩ R) h' g') ∨
    ∃ V f h' g', Heap.place o roots h = .error (.fault f) h' ∧
      Heap.place (toGuise.copy R o) others g = .error (.fault f) g' ∧ f.isScoping = false ∧
      W.Grows V ∧ heaps V h' g'

namespace Copying
variable {C : Copying} {W : World} {h g : Heap Value}

section
variable (held : C.heaps W h g) {r : Ref} {R : Role}
include held

theorem kindOf_eq (role : W r = some R) : h.kindOf r = R.kind ∧ g.kindOf (C.ref r) = R.kind := by
  obtain ⟨c,d,hc,hd,copied⟩ := C.cell held role
  have kind := copied.shape.kind
  simp only [kindOf,Ref.move,hc,hd,Option.map_some,Option.getD_some,copied.object,
    Guise.kind_copy,kind,and_self]

theorem fresh : W ⟨h.cells.size⟩ = none := by
  cases role : W ⟨h.cells.size⟩ with
  | none => rfl
  | some R =>
    obtain ⟨c,d,hc,-⟩ := C.cell held role
    simp at hc

theorem answers_live (role : W r = some R) :
    C.Answers (fun c d => h.cells[r.index]? = some c ∧ c.freed = false ∧ C.Copied W r R c d)
      (h.live r) (g.live (C.ref r)) := by
  obtain ⟨c,d,hc,hd,copied⟩ := C.cell held role
  simp only [Heap.live,Ref.move,hc,hd,copied.freed]
  cases freed : c.freed with
  | true =>
    simp only [if_true,copied.object,Guise.kind_copy,copied.slot freed]
    exact .error (.fault rfl)
  | false => exact .ok ⟨rfl,freed,copied⟩

/-! ## Environments -/

theorem answers_environment {f : Frame} (role : W r = some (.environment f)) :
    C.Answers (fun a b => C.Content W r (.environment f) (.environment a.1 a.2) ∧
        b = (a.1.transport (C.spelling.inScope f.origin) C.value,a.2.map C.ref))
      (h.environment r) (g.environment (C.ref r)) := by
  refine (answers_live held role).bind fun c d _ ⟨_,live,copied⟩ => ?_
  have content := copied.content live
  rw [copied.object]
  generalize c.object = o at content
  cases content with
  | environment binds holds parent made => exact .ok ⟨.environment binds holds parent made,rfl⟩

theorem answers_get {f : Frame} (role : W r = some (.environment f)) (name : String) :
    C.Answers (fun a b => a.2 = f.parent ∧ (∀ n ∈ f.names, a.1.contains n) ∧
        b.1.get? (C.spelling.inScope f.origin name) = (a.1.get? name).map C.value ∧
        ∀ x ∈ a.1.get? name, W.Holds x)
      (h.environment r) (g.environment (C.ref r)) :=
  (answers_environment held role).imp fun a b _ ⟨content,same⟩ => by
    obtain ⟨values,enclosing⟩ := a
    subst same
    cases content with
    | environment binds holds parent made =>
      exact ⟨rfl,binds,values.get?_transport _ _ name,fun x hx => holds x (values.mem_values_of_get? hx)⟩

/-- Global names are spelled alike. -/
theorem answers_lookup {e : Ref} (globals : W.Provides e []) (name : String) :
    C.Answers (fun x y => W.Holds x ∧ y = C.value x) (h.lookup e name) (g.lookup (C.ref e) name) := by
  obtain ⟨f,role,origin⟩ := globals
  refine (answers_get held role name).bind fun a b _ ⟨_,_,same,holds⟩ => ?_
  rw [origin,C.plain] at same
  dsimp only
  rw [same]
  cases e : a.1.get? name with
  | none => exact .error (.cause _)
  | some x => exact .ok ⟨holds x e,rfl⟩

theorem answers_hop {e : Ref} {Γ : Context} (provides : W.Provides e Γ) (distance : Int) {d : Nat}
    (reaches : d < Γ.length) :
    C.Answers (fun a b => W.Provides a (Γ.drop d) ∧ b = C.ref a) (h.hop distance d e)
      (g.hop distance d (C.ref e)) := by
  induction d generalizing e Γ with
  | zero =>
    obtain ⟨f,role⟩ := provides.isEnvironment
    exact (answers_live held role).bind fun _ _ _ _ => .ok ⟨provides,rfl⟩
  | succ d ih =>
    cases Γ with
    | nil => exact absurd reaches (Nat.not_lt_zero _)
    | cons layer Γ =>
      obtain ⟨f,outer,role,-,-,parent,provides⟩ := provides
      refine (answers_environment held role).bind fun a b _ ⟨content,same⟩ => ?_
      obtain ⟨values,enclosing⟩ := a
      subst same
      have link : enclosing = some outer := by
        cases content
        exact parent
      subst link
      exact ih provides (Nat.lt_of_succ_lt_succ reaches)

theorem answers_ancestor {e : Ref} {Γ : Context} (provides : W.Provides e Γ) {d : Nat}
    (reaches : d < Γ.length) :
    C.Answers (fun a b => W.Provides a (Γ.drop d) ∧ b = C.ref a) (h.ancestor e d)
      (g.ancestor (C.ref e) d) := answers_hop held provides d reaches

theorem answers_lookupAt {e : Ref} {Γ : Context} (provides : W.Provides e Γ) {d : Nat} {layer : Layer}
    (at_depth : Γ[d]? = some layer) {name : String} (bound : name ∈ layer.names) :
    C.Answers (fun x y => W.Holds x ∧ y = C.value x) (h.lookupAt e d name)
      (g.lookupAt (C.ref e) d (C.spelling.inScope layer.origin name)) := by
  obtain ⟨reaches,rfl⟩ := List.getElem?_eq_some_iff.mp at_depth
  refine (answers_ancestor held provides reaches).bind fun a b _ ⟨provides,same⟩ => ?_
  subst same
  rw [List.drop_eq_getElem_cons reaches] at provides
  obtain ⟨f,outer,role,origin,sub,-,-⟩ := provides
  refine (answers_get held role name).bind fun a b _ ⟨_,binds,same,holds⟩ => ?_
  have present := binds name (sub bound)
  rw [origin] at same
  dsimp only
  rw [same]
  cases e : a.1.get? name with
  | none => simp [Bindings.contains,e] at present
  | some x => exact .ok ⟨holds x e,rfl⟩

/-! ## Functions, classes and instances -/

theorem answers_function {method : Bool} {closure : Ref} {Γ : Context} {n : Nat}
    (role : W r = some (.function method closure Γ n)) :
    C.Answers (fun a b => a.2 = some closure ∧ a.1.arity = n ∧
        a.1.Fits C.spelling C.use (Γ.ofFunction method a.1) ∧
        b = (a.1.respell C.spelling (Γ.ofFunction method a.1).origins,some (C.ref closure)))
      (h.function r) (g.function (C.ref r)) := by
  refine (answers_live held role).bind fun c d _ ⟨_,live,copied⟩ => ?_
  have content := copied.content live
  rw [copied.object]
  generalize c.object = o at content
  cases content with
  | function arity closure fits => exact .ok ⟨rfl,arity,fits,rfl⟩

theorem routine_eq {method : Bool} {closure : Ref} {Γ : Context} {n : Nat}
    (role : W r = some (.function method closure Γ n)) :
    ∃ a, h.routine r = .ok a ∧ a.arity = n ∧
      g.routine (C.ref r) = .ok (a.respell C.spelling (Γ.ofFunction method a).origins) := by
  obtain ⟨c,d,hc,hd,copied⟩ := C.cell held role
  obtain ⟨a,closure,object,arity⟩ := copied.shape
  refine ⟨a,?_,arity,?_⟩
  · simp only [routine,object?,hc,Option.map_some,object]
  · simp only [routine,object?,Ref.move,hd,Option.map_some,copied.object,object,Guise.copy]

theorem answers_findMethod {n : Nat} (klass : W.IsClass r n) (name : String) :
    C.Answers (fun a b => (∀ f ∈ a, ∃ k, W.IsMethod f k) ∧ (name = "init" → match a with
          | some f => W.IsMethod f n
          | none => n = 0) ∧ b = a.map C.ref)
      (h.findMethod r name) (g.findMethod (C.ref r) name) := by
  induction hn : r.index using Nat.strongRecOn generalizing r n with
  | ind i ih =>
    obtain ⟨superclass,methods,role,callable⟩ := klass
    rw [Comparison.findMethod_eq h,Comparison.findMethod_eq g]
    refine (answers_live held role).bind fun c d _ both => ?_
    obtain ⟨-,live,copied⟩ := both
    have content := copied.content live
    rw [copied.object]
    generalize c.object = o at content
    cases content with
    | @klass _ _ _ _ classes functions init =>
      have found := methods.get?_transport (Equiv.refl String) C.ref name
      simp only [Guise.copy] at found ⊢
      rw [show (methods.transport id C.ref).get? name = (methods.get? name).map C.ref from found]
      cases e : methods.get? name with
      | some f =>
        obtain ⟨k,method⟩ := callable f (methods.mem_values_of_get? e)
        refine .ok ⟨?_,?_,rfl⟩
        · intro f' hf
          obtain rfl := Option.mem_some_iff.mp hf
          exact ⟨k,method⟩
        · rintro rfl
          simp only [World.Initializes,e] at init
          obtain ⟨closure,Γ,role⟩ := init
          obtain ⟨closure',Γ',role',provides⟩ := method
          cases role.symm.trans role'
          exact ⟨closure,Γ,role,provides⟩
      | none =>
        cases superclass with
        | none =>
          refine .ok ⟨fun _ hf => absurd hf (by simp),?_,rfl⟩
          rintro rfl
          simpa only [World.Initializes,e] using init
        | some c =>
          obtain ⟨k,klass⟩ := classes c rfl
          have order : (C.ref c).index < (C.ref r).index ↔ c.index < r.index :=
            C.ascending.lt_iff_lt
          simp only [Option.map_some,Option.map_none,order]
          split
          · next lt =>
            refine (ih c.index (hn ▸ lt) klass rfl).imp fun a b _ both => ?_
            obtain ⟨methods,inits,same⟩ := both
            refine ⟨methods,fun is_init => ?_,same⟩
            subst is_init
            simp only [World.Initializes,e] at init
            obtain ⟨s,ms,role⟩ := init
            obtain ⟨s',ms',role',-⟩ := klass
            cases role.symm.trans role'
            exact inits rfl
          · exact .error (.fault rfl)

/-- A property and the one of the copy. -/
def PropertyCopied (C : Copying) (W : World) : Property Value → Property Value → Prop
  | .field x, p => W.Holds x ∧ p = .field (C.value x)
  | .method f, p => (∃ n, W.IsMethod f n) ∧ p = .method (C.ref f)

theorem answers_property (role : W r = some .instanceOf) (name : String) :
    C.Answers (PropertyCopied C W) (h.property r name) (g.property (C.ref r) name) := by
  refine (answers_live held role).bind fun c d _ ⟨_,live,copied⟩ => ?_
  have content := copied.content live
  rw [copied.object]
  generalize c.object = o at content
  cases content with
  | @instanceOf c n fields klass holds =>
    have found := fields.get?_transport (Equiv.refl String) C.value name
    simp only [Guise.copy,Option.map_some] at found ⊢
    rw [show (fields.transport id C.value).get? name = (fields.get? name).map C.value from found]
    cases e : fields.get? name with
    | some x => exact .ok ⟨holds x (fields.mem_values_of_get? e),rfl⟩
    | none =>
      refine (answers_findMethod held klass name).bind fun a b _ ⟨methods,_,same⟩ => ?_
      subst same
      cases a with
      | none => exact .error (.cause _)
      | some f => exact .ok ⟨methods f rfl,rfl⟩

/-! ## Texts and arities -/

theorem declaredName_eq {superclass : Option Ref} {methods : Bindings Ref} {n : Nat}
    (role : W r = some (.klass superclass methods n)) :
    ∃ name, h.declaredName r = .ok name ∧ g.declaredName (C.ref r) = .ok name := by
  obtain ⟨c,d,hc,hd,copied⟩ := C.cell held role
  have kind := copied.shape.kind
  have object := copied.object
  generalize ho : c.object = o at kind object
  cases o with
  | klass name _ _ =>
    refine ⟨name,?_,?_⟩
    · simp only [declaredName,object?,hc,Option.map_some,ho]
    · simp only [declaredName,object?,Ref.move,hd,Option.map_some,object,Guise.copy]
  | _ => cases kind

theorem answers_inspect_object (object : W.IsObject r) :
    C.Answers Eq (h.inspect r) (g.inspect (C.ref r)) := by
  cases object with
  | function h' =>
    obtain ⟨closure,Γ,role,-⟩ := h'
    obtain ⟨c,d,hc,hd,copied⟩ := C.cell held role
    obtain ⟨a,closure,object,-⟩ := copied.shape
    simp only [inspect,object?,Ref.move,hc,hd,Option.map_some,copied.object,object,Guise.copy,
      Guise.name_respell]
    exact .ok rfl
  | klass h' =>
    obtain ⟨superclass,methods,role,-⟩ := h'
    obtain ⟨c,d,hc,hd,copied⟩ := C.cell held role
    have kind := copied.shape.kind
    have object := copied.object
    generalize ho : c.object = o at kind object
    cases o with
    | klass name _ _ =>
      simp only [inspect,object?,Ref.move,hc,hd,Option.map_some,ho,object,Guise.copy]
      exact .ok rfl
    | _ => cases kind
  | instanceOf role =>
    obtain ⟨c,d,hc,hd,copied⟩ := C.cell held role
    simp only [inspect,object?,Ref.move,hc,hd,Option.map_some,copied.object]
    cases freed : c.freed with
    | true =>
      have kind := copied.shape.kind
      have empty := copied.emptied freed
      generalize c.object = o at kind empty
      cases o with
      | instanceOf base fields =>
        obtain ⟨rfl,-⟩ := Object.instanceOf.inj empty
        exact .wrongKind
      | _ => cases kind
    | false =>
      have content := copied.content freed
      generalize c.object = o at content
      cases content with
      | instanceOf klass _ =>
        obtain ⟨superclass,methods,role,-⟩ := klass
        obtain ⟨name,left,right⟩ := declaredName_eq held role
        simp only [Guise.copy,Option.map_some,left,right]
        exact .ok rfl

theorem answers_inspect {x : Value} (hx : W.Holds x) :
    C.Answers Eq (x.inspect h) ((C.value x).inspect g) := by
  cases x with
  | object r => exact answers_inspect_object held hx
  | bound f r =>
    obtain ⟨⟨n,closure,Γ,role,-⟩,-⟩ := hx
    obtain ⟨c,d,hc,hd,copied⟩ := C.cell held role
    obtain ⟨a,closure,object,-⟩ := copied.shape
    simp only [Value.inspect,Value.move,inspect,object?,Ref.move,hc,hd,Option.map_some,
      copied.object,object,Guise.copy,Guise.name_respell]
    exact .ok rfl
  | bool b => cases b <;> exact .ok rfl
  | _ => exact .ok rfl

theorem isCallable_eq {x : Value} (hx : W.Holds x) :
    (C.value x).isCallable g = x.isCallable h := by
  cases x with
  | object r =>
    have same : ∀ {R}, W r = some R → g.kindOf (C.ref r) = h.kindOf r := fun role => by
      rw [(kindOf_eq held role).1,(kindOf_eq held role).2]
    have kind : g.kindOf (C.ref r) = h.kindOf r := by
      cases hx with
      | function h' => exact same h'.choose_spec.choose_spec.1
      | klass h' => exact same h'.choose_spec.choose_spec.1
      | instanceOf role => exact same role
    simp only [Value.move,Value.isCallable,kind]
  | _ => rfl

theorem answers_arity_function {method : Bool} {closure : Ref} {Γ : Context} {n : Nat}
    (role : W r = some (.function method closure Γ n)) :
    h.arity r = .ok n ∧ g.arity (C.ref r) = .ok n := by
  obtain ⟨left,right⟩ := kindOf_eq held role
  obtain ⟨a,ha,arity,hb⟩ := routine_eq held role
  simp only [Heap.arity,left,right,Role.kind,ha,hb,Bind.bind,Except.bind,Pure.pure,Except.pure,
    Guise.arity_respell,arity,and_self]

theorem answers_arity {x : Value} (hx : W.Holds x) (callable : x.isCallable h) :
    C.Answers (fun a b => b = a ∧ W.Takes x a) (x.arity h) ((C.value x).arity g) := by
  cases x with
  | native f => exact .ok ⟨rfl,rfl⟩
  | bound f r =>
    obtain ⟨⟨n,closure,Γ,role,-⟩,-⟩ := hx
    obtain ⟨left,right⟩ := answers_arity_function held role
    simp only [Value.arity,Value.move,left,right]
    exact .ok ⟨rfl,_,role,rfl⟩
  | object r =>
    cases hx with
    | function h' =>
      obtain ⟨closure,Γ,role,-⟩ := h'
      obtain ⟨left,right⟩ := answers_arity_function held role
      simp only [Value.arity,Value.move,left,right]
      exact .ok ⟨rfl,_,role,rfl⟩
    | @klass n klass =>
      obtain ⟨superclass,methods,role,-⟩ := id klass
      obtain ⟨left,right⟩ := kindOf_eq held role
      simp only [Value.arity,Value.move,Heap.arity,left,right,Role.kind]
      refine (answers_findMethod held klass "init").bind fun a b _ both => ?_
      obtain ⟨-,init,rfl⟩ := both
      have init := init rfl
      cases a with
      | none =>
        obtain rfl : n = 0 := init
        exact .ok ⟨rfl,_,role,rfl⟩
      | some f =>
        obtain ⟨closure,Γ,role',-⟩ := init
        obtain ⟨a,ha,arity,hb⟩ := routine_eq held role'
        simp only [Option.map_some,ha,hb,Bind.bind,Except.bind,Pure.pure,Except.pure,
          Guise.arity_respell,arity]
        exact .ok ⟨rfl,_,role,rfl⟩
    | instanceOf role =>
      simp [Value.isCallable,(kindOf_eq held role).1,Role.kind] at callable
  | _ => simp [Value.isCallable] at callable

end

/-! ## Writes -/

variable (C W) in
/-- Two changes of heaps: both succeed, and then more is known, or both fail. -/
inductive Writes (V : World) : EStateM.Result Failure (Heap Value) Unit →
    EStateM.Result Failure (Heap Value) Unit → Prop
  | ok {k l} : C.heaps V k l → Writes V (.ok () k) (.ok () l)
  | error {e f k l} : C.Fails e f → C.heaps W k l → Writes V (.error e k) (.error f l)

theorem put_eq_self {r : Ref} {R : Role} (role : W r = some R) : W.put r R = W := by
  funext s
  by_cases e : s = r
  · rw [e,World.put_self,role]
  · exact World.put_of_ne e R

section
variable (held : C.heaps W h g)
include held

/-- An environment that binds a name is known to bind it. -/
theorem writes_define {e : Ref} {f : Frame} (role : W e = some (.environment f)) (name : String)
    {x : Value} (hx : (W.put e (.environment { f with names := name :: f.names })).Holds x) :
    C.Writes W (W.put e (.environment { f with names := name :: f.names })) (define e name x h)
      (define (C.ref e) (C.spelling.inScope f.origin name) (C.value x) g) := by
  have grows : Role.Grows (.environment f) (.environment { f with names := name :: f.names }) :=
    .environment (List.subset_cons_self name f.names)
  have up := World.grows_put role grows
  have live := answers_live held role
  simp only [define,Heap.environment]
  generalize h.live e = u,g.live (C.ref e) = v at live
  cases live with
  | error fails => exact .error fails held
  | @ok c d cell =>
    obtain ⟨hc,freed,copied⟩ := cell
    have content := copied.content freed
    have object := copied.object
    simp only [Bind.bind,Except.bind,object]
    generalize c.object = o at content
    cases content with
    | @environment _ values binds holds parent made =>
      refine .ok ?_
      rw [Bindings.set_transport]
      refine C.write held role grows hc freed (.environment (fun n hn => ?_) (fun y hy => ?_)
        (fun s hs => up.isEnvironment (parent s hs)) made)
      · rw [Bindings.contains,values.get?_set]
        split
        · rfl
        · next ne => exact binds n ((List.mem_cons.mp hn).resolve_left (Ne.symm ne))
      · rcases values.eq_or_mem_of_mem_values_set name x hy with rfl | hy
        · exact hx
        · exact up.holds (holds y hy)

/-- An assignment fails if the environment does not bind the name. -/
theorem writes_assign {e : Ref} {f : Frame} (role : W e = some (.environment f)) {name : String}
    (named : C.named name) {x : Value} (hx : W.Holds x) :
    C.Writes W W (assign e name x h)
      (assign (C.ref e) (C.spelling.inScope f.origin name) (C.value x) g) := by
  have live := answers_live held role
  simp only [assign,Heap.environment]
  generalize h.live e = u,g.live (C.ref e) = v at live
  cases live with
  | error fails => exact .error fails held
  | @ok c d cell =>
    obtain ⟨hc,freed,copied⟩ := cell
    have content := copied.content freed
    have object := copied.object
    simp only [Bind.bind,Except.bind,object]
    generalize c.object = o at content
    cases content with
    | @environment _ values binds holds parent made =>
      simp only [Guise.copy,Pure.pure,Except.pure]
      rw [Bindings.contains_transport]
      split
      · refine .ok ?_
        have same := put_eq_self role
        rw [Bindings.set_transport]
        have written := C.write held role (.refl _) hc freed
          (o := .environment (values.set name x) f.parent) (by
            rw [same]
            refine .environment (fun n hn => ?_) (fun y hy => ?_) parent made
            · rw [Bindings.contains,values.get?_set]
              split
              · rfl
              · exact binds n hn
            · rcases values.eq_or_mem_of_mem_values_set name x hy with rfl | hy
              · exact hx
              · exact holds y hy)
        rwa [same] at written
      · exact .error (.undefined f.origin named) held

theorem writes_assignAt {e : Ref} {Γ : Context} (provides : W.Provides e Γ) {d : Nat} {layer : Layer}
    (at_depth : Γ[d]? = some layer) {name : String} (named : C.named name) {x : Value}
    (hx : W.Holds x) :
    C.Writes W W (assignAt e d name x h)
      (assignAt (C.ref e) d (C.spelling.inScope layer.origin name) (C.value x) g) := by
  obtain ⟨reaches,rfl⟩ := List.getElem?_eq_some_iff.mp at_depth
  have reads := answers_ancestor held provides reaches
  simp only [assignAt]
  generalize h.ancestor e d = u,g.ancestor (C.ref e) d = v at reads
  cases reads with
  | error fails => exact .error fails held
  | ok same =>
    obtain ⟨provides,rfl⟩ := same
    rw [List.drop_eq_getElem_cons reaches] at provides
    obtain ⟨f,outer,role,origin,-⟩ := provides
    rw [← origin]
    exact writes_assign held role named hx

/-- Global names are spelled alike. -/
theorem writes_assign_global {e : Ref} (globals : W.Provides e []) {name : String}
    (named : C.named name) {x : Value} (hx : W.Holds x) : C.Writes W W (assign e name x h) (assign (C.ref e) name (C.value x) g) := by
  obtain ⟨f,role,origin⟩ := globals
  have written := writes_assign held role named hx
  rwa [origin,C.plain] at written

theorem writes_setField {r : Ref} (role : W r = some .instanceOf) (name : String) {x : Value}
    (hx : W.Holds x) :
    C.Writes W W (setField r name x h) (setField (C.ref r) name (C.value x) g) := by
  have live := answers_live held role
  simp only [setField]
  generalize h.live r = u,g.live (C.ref r) = v at live
  cases live with
  | error fails => exact .error fails held
  | @ok c d cell =>
    obtain ⟨hc,freed,copied⟩ := cell
    have content := copied.content freed
    have object := copied.object
    simp only [object]
    generalize c.object = o at content
    cases content with
    | @instanceOf base n fields klass holds =>
      refine .ok ?_
      have same := put_eq_self role
      have set := fields.set_transport (Equiv.refl String) C.value name x
      have written := C.write held role (.refl _) hc freed
        (o := .instanceOf (some base) (fields.set name x)) (by
          rw [same]
          refine .instanceOf klass fun y hy => ?_
          rcases fields.eq_or_mem_of_mem_values_set name x hy with rfl | hy
          · exact hx
          · exact holds y hy)
      rw [same] at written
      simp only [Guise.copy] at written set ⊢
      rw [show (fields.transport id C.value).set name (C.value x) =
        (fields.set name x).transport id C.value from set]
      exact written

end

end Copying
end Lox
