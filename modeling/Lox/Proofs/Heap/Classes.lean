import Lox.Proofs.Heap.Permanence

/-! # Classes

A class is younger than its superclass, and its methods are functions made in an environment that binds
`super` to the superclass, if there is one, and to nothing else. So a chain of superclasses ends, and the
walk along it finds the method of the nearest class that has one.
-/
namespace Lox.Heap
variable {h k : Heap Value}

/-- An environment that binds `super` to what is given, or does not bind it. -/
def Supers (h : Heap Value) (e : Ref) (x : Option Value) : Prop :=
  ∃ c, h.cells[e.index]? = some c ∧ c.object.kind = .environment ∧
    (c.freed = false → ∀ values enclosing, c.object = .environment values enclosing →
      values.get? "super" = x)

/-- A function that has been made in an environment. -/
def MadeIn (h : Heap Value) (f closure : Ref) : Prop :=
  ∃ c, h.cells[f.index]? = some c ∧ c.object.kind = .function ∧
    (c.freed = false → ∃ r, c.object = .function r (some closure))

/-- What is asked for of the links of an object. -/
def Linked (h : Heap Value) (i : Nat) : Object Value → Prop
  | .environment values _ => (∀ x, values.get? "super" = some x → ∃ s, x = .object s ∧ h.kindOf s = .klass) ∧
      ∀ x, values.get? "this" = some x → ∃ r, x = .object r
  | .klass _ superclass methods => (∀ s ∈ superclass, s.index < i ∧ h.kindOf s = .klass) ∧
      ∀ f ∈ methods.values, ∃ closure, h.MadeIn f closure ∧ h.Supers closure (superclass.map .object)
  | .instanceOf base _ => ∃ c, base = some c ∧ h.kindOf c = .klass
  | _ => True

/-- The links of all objects that have not been released are as is asked for. -/
def Classed (h : Heap Value) : Prop :=
  ∀ i c, h.cells[i]? = some c → c.freed = false → h.Linked i c.object

/-! ## What lasts -/

theorem Lasts.kindOf (lasts : h.Lasts k) {r : Ref} {kind : ObjectKind} (other : kind ≠ .plain)
    (known : h.kindOf r = kind) : k.kindOf r = kind := by
  simp only [Heap.kindOf] at known ⊢
  cases hc : h.cells[r.index]? with
  | none =>
    rw [hc] at known
    exact absurd known.symm other
  | some c =>
    obtain ⟨d,hd,same⟩ := lasts r.index c hc
    rw [hc] at known
    rw [hd]
    exact same.kind.trans known

theorem Supers.lasts {e : Ref} {x : Option Value} (supers : h.Supers e x) (lasts : h.Lasts k) :
    k.Supers e x := by
  obtain ⟨c,hc,kind,binds⟩ := supers
  obtain ⟨d,hd,same⟩ := lasts e.index c hc
  refine ⟨d,hd,same.kind.trans kind,fun live values enclosing object => ?_⟩
  obtain ⟨live,same⟩ := same.object live
  have binds := binds live
  rw [object] at same
  generalize c.object = o at same binds kind
  cases same with
  | same => exact binds values enclosing rfl
  | environment this super => exact super.trans (binds _ _ rfl)

theorem MadeIn.lasts {f closure : Ref} (made : h.MadeIn f closure) (lasts : h.Lasts k) :
    k.MadeIn f closure := by
  obtain ⟨c,hc,kind,object⟩ := made
  obtain ⟨d,hd,same⟩ := lasts f.index c hc
  refine ⟨d,hd,same.kind.trans kind,fun live => ?_⟩
  obtain ⟨live,same⟩ := same.object live
  obtain ⟨r,object⟩ := object live
  rw [object] at same
  generalize d.object = o at same
  cases same
  exact ⟨r,rfl⟩

theorem Linked.lasts {i : Nat} {o p : Object Value} (linked : h.Linked i o) (lasts : h.Lasts k)
    (same : o.Lasts p) : k.Linked i p := by
  have klass : ∀ {s}, h.kindOf s = .klass → k.kindOf s = .klass := lasts.kindOf nofun
  cases same with
  | same =>
    cases o with
    | environment values enclosing =>
      exact ⟨fun x hx => (linked.1 x hx).imp fun s hs => ⟨hs.1,klass hs.2⟩,linked.2⟩
    | klass name superclass methods =>
      refine ⟨fun s hs => ⟨(linked.1 s hs).1,klass (linked.1 s hs).2⟩,fun f hf => ?_⟩
      obtain ⟨closure,made,supers⟩ := linked.2 f hf
      exact ⟨closure,made.lasts lasts,supers.lasts lasts⟩
    | instanceOf => exact linked.imp fun c hc => ⟨hc.1,klass hc.2⟩
    | _ => trivial
  | environment this super =>
    refine ⟨fun x hx => ?_,fun x hx => linked.2 x (this ▸ hx)⟩
    exact (linked.1 x (super ▸ hx)).imp fun s hs => ⟨hs.1,klass hs.2⟩
  | instanceOf => exact linked.imp fun c hc => ⟨hc.1,klass hc.2⟩

/-- Links stay as they are asked for if what lasts is the same and new objects are linked. -/
theorem Classed.lasts (classed : h.Classed) (lasts : h.Lasts k)
    (new : ∀ i c, h.cells.size ≤ i → k.cells[i]? = some c → c.freed = false → k.Linked i c.object) :
    k.Classed := by
  intro i d hd live
  by_cases inside : i < h.cells.size
  · obtain ⟨e,he,same⟩ := lasts i _ (Array.getElem?_eq_getElem inside)
    obtain rfl : d = e := Option.some.inj (hd.symm.trans he)
    obtain ⟨live,same⟩ := same.object live
    exact (classed i _ (Array.getElem?_eq_getElem inside) live).lasts lasts same
  · exact new i d (Nat.le_of_not_lt inside) hd live

theorem Classed.of_size (classed : h.Classed) (lasts : h.Lasts k) (size : k.cells.size = h.cells.size) :
    k.Classed := classed.lasts lasts fun i c outside hc => by
  have inside := (Array.getElem?_eq_some_iff.mp hc).1
  omega

theorem Classed.tidied (classed : h.Classed) (tidied : Tidied h.cells k.cells) : k.Classed :=
  classed.of_size (lasts_of_tidied tidied) tidied.size

theorem Classed.create (classed : h.Classed) {o : Object Value}
    (linked : (stateAfter (Heap.create o h)).Linked h.cells.size o) : (stateAfter (Heap.create o h)).Classed := by
  refine classed.lasts (lasts_create o h) fun i c outside hc live => ?_
  have inside := (Array.getElem?_eq_some_iff.mp hc).1
  simp only [stateAfter,Heap.create,Array.size_push] at inside
  obtain rfl : i = h.cells.size := by omega
  simp only [stateAfter,Heap.create,Array.getElem?_push_size] at hc
  cases hc
  exact linked

theorem Classed.setObject (classed : h.Classed) {r : Ref} {o : Object Value}
    (same : ∀ c, h.cells[r.index]? = some c → c.object.Lasts o) : (h.setObject r o).Classed :=
  classed.of_size (lasts_setObject same) (by simp [Heap.setObject])

/-! ## Chains of superclasses -/

/-- A class that has not been released, with its superclass and its methods. -/
def IsClass (h : Heap Value) (r : Ref) (superclass : Option Ref) (methods : Bindings Ref) : Prop :=
  ∃ c name, h.live r = .ok c ∧ c.object = .klass name superclass methods

/-- The classes from which a class inherits, itself first. -/
inductive Lineage (h : Heap Value) : Ref → List Ref → Prop
  | base {r methods} : h.IsClass r none methods → Lineage h r [r]
  | derived {r s methods rs} : h.IsClass r (some s) methods → Lineage h s rs → Lineage h r (r :: rs)

/-- The method that a class has under a name, of its own. -/
def methodOf (h : Heap Value) (r : Ref) (name : String) : Option Ref :=
  match h.object? r with
  | some (.klass _ _ methods) => methods.get? name
  | _ => none

theorem IsClass.methodOf {r : Ref} {superclass : Option Ref} {methods : Bindings Ref}
    (klass : h.IsClass r superclass methods) (name : String) : h.methodOf r name = methods.get? name := by
  obtain ⟨c,_,live,object⟩ := klass
  simp only [Heap.methodOf,object?_eq_some (live_eq_ok live).1,object]

section
variable (classed : h.Classed) (closed : h.Closed)
include classed closed

/-- Every chain of superclasses ends, for each superclass is older. -/
theorem Classed.lineage {r : Ref} (owned : h.isRegistered r) (kind : h.kindOf r = .klass) :
    ∃ rs, h.Lineage r rs ∧ rs.Pairwise (fun c s => s.index < c.index) ∧
      ∀ c ∈ rs, h.isRegistered c ∧ c.index ≤ r.index := by
  induction hn : r.index using Nat.strongRecOn generalizing r with
  | ind n ih =>
    obtain ⟨c,live⟩ := live_of_isRegistered owned
    obtain ⟨hc,kept⟩ := live_eq_ok live
    have linked := classed r.index c hc kept
    have refs := closed r owned
    simp only [kindOf,referencesOf,hc,Option.map_some,Option.getD_some] at kind refs
    generalize object : c.object = o at linked kind refs
    cases o with
    | klass name superclass methods =>
      have klass : h.IsClass r superclass methods := ⟨c,name,live,object⟩
      cases superclass with
      | none =>
        refine ⟨[r],.base klass,List.pairwise_singleton _ _,fun s hs => ?_⟩
        obtain rfl := List.mem_singleton.mp hs
        exact ⟨owned,Nat.le_of_eq hn⟩
      | some s =>
        obtain ⟨older,kind⟩ := linked.1 s rfl
        obtain ⟨rs,lineage,sorted,inside⟩ := ih s.index (hn ▸ older)
          (refs s (List.mem_append_left _ (List.mem_singleton_self s))) kind rfl
        refine ⟨r :: rs,.derived klass lineage,List.pairwise_cons.mpr ⟨fun c hc => ?_,sorted⟩,
          List.forall_mem_cons.mpr ⟨⟨owned,Nat.le_of_eq hn⟩,fun c hc => ?_⟩⟩
        · exact Nat.lt_of_le_of_lt (inside c hc).2 older
        · exact ⟨(inside c hc).1,Nat.le_of_lt (hn ▸ Nat.lt_of_le_of_lt (inside c hc).2 older)⟩
    | _ => cases kind

omit closed in
/-- The walk along the chain finds the method of the nearest class that has one. -/
theorem Classed.findMethod {r : Ref} {rs : List Ref} (lineage : h.Lineage r rs) (name : String) :
    h.findMethod r name = .ok (rs.findSome? (h.methodOf · name)) := by
  induction lineage with
  | @base r methods klass =>
    have own := klass.methodOf name
    obtain ⟨c,_,live,object⟩ := klass
    rw [Heap.findMethod,live]
    simp only [object]
    cases found : methods.get? name <;> simp [own,found]
  | @derived r s methods rs klass _ ih =>
    have own := klass.methodOf name
    obtain ⟨c,_,live,object⟩ := klass
    obtain ⟨hc,kept⟩ := live_eq_ok live
    have linked := classed r.index c hc kept
    rw [object] at linked
    rw [Heap.findMethod,live]
    simp only [object]
    cases found : methods.get? name with
    | some f => simp [own,found]
    | none => simp [own,found,linked.1 s rfl,ih]

/-- A method of a class has been made in an environment that binds `super` to the superclass, if there is
one, and does not bind it otherwise. -/
theorem Classed.methods {r f : Ref} {superclass : Option Ref} {methods : Bindings Ref}
    (owned : h.isRegistered r) (klass : h.IsClass r superclass methods) (hf : f ∈ methods.values) :
    ∃ routine closure values outer, h.function f = .ok (routine,some closure) ∧
      h.environment closure = .ok (values,outer) ∧ values.get? "super" = superclass.map .object := by
  obtain ⟨c,name,live,object⟩ := klass
  obtain ⟨cell,kept⟩ := live_eq_ok live
  have linked := classed r.index c cell kept
  have refs := closed r owned
  simp only [referencesOf,cell,object,Option.map_some,Option.getD_some] at linked refs
  obtain ⟨closure,made,supers⟩ := linked.2 f hf
  obtain ⟨d,hd⟩ := live_of_isRegistered (refs f (List.mem_append_right _ hf))
  obtain ⟨cell,kept⟩ := live_eq_ok hd
  obtain ⟨d',hd',-,function⟩ := made
  obtain rfl : d = d' := Option.some.inj (cell.symm.trans hd')
  obtain ⟨routine,same⟩ := function kept
  have inner := closed f (refs f (List.mem_append_right _ hf))
  simp only [referencesOf,cell,same,Option.map_some,Option.getD_some] at inner
  obtain ⟨e,he⟩ := live_of_isRegistered (inner closure (List.mem_singleton_self _))
  obtain ⟨cell,kept⟩ := live_eq_ok he
  obtain ⟨e',he',kind,binds⟩ := supers
  obtain rfl : e = e' := Option.some.inj (cell.symm.trans he')
  cases environment : e.object with
  | environment values outer =>
    refine ⟨routine,closure,values,outer,?_,environment_of_cell cell kept environment,
      binds kept values outer environment⟩
    simp only [Heap.function,hd,same,Bind.bind,Except.bind]
    rfl
  | _ =>
    rw [environment] at kind
    cases kind

/-- What a property of an instance is, for the classes from which the instance inherits. -/
def propertyAmong (h : Heap Value) (fields : Bindings Value) (rs : List Ref) (name : String) :
    Except Failure (Property Value) :=
  match fields.get? name, rs.findSome? (h.methodOf · name) with
  | some x, _ => .ok (.field x)
  | none, some f => .ok (.method f)
  | none, none => .error (.cause (.undefinedProperty name))

/-- A property is the field, if there is one, and else the method of the nearest class that has one. -/
theorem Classed.property {r : Ref} {c : Cell Value} {base : Option Ref} {fields : Bindings Value}
    (owned : h.isRegistered r) (live : h.live r = .ok c) (object : c.object = .instanceOf base fields) :
    ∃ b rs, base = some b ∧ h.Lineage b rs ∧
      ∀ name, h.property r name = h.propertyAmong fields rs name := by
  obtain ⟨cell,kept⟩ := live_eq_ok live
  have linked := classed r.index c cell kept
  have refs := closed r owned
  simp only [referencesOf,cell,object,Option.map_some,Option.getD_some] at linked refs
  obtain ⟨b,rfl,kind⟩ := linked
  obtain ⟨rs,lineage,-⟩ := classed.lineage closed
    (refs b (List.mem_append_left _ (List.mem_singleton_self b))) kind
  refine ⟨b,rs,rfl,lineage,fun name => ?_⟩
  have found := classed.findMethod lineage name
  simp only [Heap.property,propertyAmong,live,object,Bind.bind,Except.bind]
  cases fields.get? name with
  | some x => rfl
  | none =>
    simp only [found]
    cases rs.findSome? (h.methodOf · name) <;> rfl

end

/-! ## What two heaps tell -/

/-- What two heaps tell of a class, a function and an environment of methods is the same. -/
structure Concurs (h k : Heap Value) : Prop where
  klass {c superclass superclass' methods methods'} : h.IsClass c superclass methods →
    k.IsClass c superclass' methods' → superclass' = superclass ∧ methods' = methods
  function {f p q} : h.function f = .ok p → k.function f = .ok q → q = p
  super {e values values' outer outer'} : h.environment e = .ok (values,outer) →
    k.environment e = .ok (values',outer') → outer' = outer ∧ values'.get? "super" = values.get? "super"

theorem Concurs.symm (concurs : h.Concurs k) : k.Concurs h where
  klass a b := (concurs.klass b a).imp Eq.symm Eq.symm
  function a b := (concurs.function b a).symm
  super a b := (concurs.super b a).imp Eq.symm Eq.symm

theorem function_cell {f : Ref} {p : Routine × Option Ref} (found : h.function f = .ok p) :
    ∃ c, h.live f = .ok c ∧ c.object = .function p.1 p.2 := by
  simp only [Heap.function] at found
  cases hc : h.live f with
  | error e =>
    rw [hc] at found
    cases found
  | ok c =>
    rw [hc] at found
    refine ⟨c,rfl,?_⟩
    rcases c with ⟨_ | _ | _ | _ | _,_,_,_⟩ <;> cases found
    rfl

theorem Lasts.live (lasts : h.Lasts k) {r : Ref} {c d : Cell Value} (before : h.live r = .ok c)
    (after : k.live r = .ok d) : c.object.Lasts d.object := by
  obtain ⟨hc,-⟩ := live_eq_ok before
  obtain ⟨hd,live⟩ := live_eq_ok after
  obtain ⟨e,he,same⟩ := lasts r.index c hc
  obtain rfl : d = e := Option.some.inj (hd.symm.trans he)
  exact (same.object live).2

/-- What is found in a later heap was found before, if both can be searched. -/
theorem Lasts.findMethod (lasts : h.Lasts k) {c : Ref} {name : String} {o p : Option Ref}
    (before : h.findMethod c name = .ok o) (after : k.findMethod c name = .ok p) : p = o := by
  induction hn : c.index using Nat.strongRecOn generalizing c with
  | ind n ih =>
    rw [Heap.findMethod] at before after
    cases live : h.live c with
    | error e =>
      rw [live] at before
      cases before
    | ok cell =>
      cases live' : k.live c with
      | error e =>
        rw [live'] at after
        cases after
      | ok cell' =>
        have same := lasts.live live live'
        rw [live] at before
        rw [live'] at after
        simp only at before after
        generalize cell.object = object,cell'.object = object' at same before after
        cases same with
        | environment | instanceOf => cases before
        | same =>
          cases object with
          | klass _ superclass methods =>
            simp only at before after
            cases own : methods.get? name with
            | some f =>
              simp only [own] at before after
              exact (Except.ok.inj after).symm.trans (Except.ok.inj before)
            | none =>
              cases superclass with
              | none =>
                simp only [own] at before after
                exact (Except.ok.inj after).symm.trans (Except.ok.inj before)
              | some s =>
                simp only [own] at before after
                split at before
                · next older =>
                  rw [if_pos older] at after
                  exact ih s.index (hn ▸ older) before after rfl
                · cases before
          | _ => cases before

theorem Lasts.concurs (lasts : h.Lasts k) : h.Concurs k where
  klass := by
    rintro r s t ms ns ⟨c,_,before,same⟩ ⟨d,_,after,same'⟩
    have object := lasts.live before after
    rw [same,same'] at object
    cases object
    exact ⟨rfl,rfl⟩
  function := by
    intro f p q before after
    obtain ⟨c,live,same⟩ := function_cell before
    obtain ⟨d,live',same'⟩ := function_cell after
    have object := lasts.live live live'
    rw [same,same'] at object
    cases p
    cases q
    cases object
    rfl
  super := by
    intro e values values' outer outer' before after
    obtain ⟨c,hc,live,same⟩ := environment_eq_ok before
    obtain ⟨d,hd,live',same'⟩ := environment_eq_ok after
    have object := lasts.live (r := e) (c := c) (d := d) (by simp [Heap.live,hc,live])
      (by simp [Heap.live,hd,live'])
    rw [same,same'] at object
    cases object with
    | same => exact ⟨rfl,rfl⟩
    | environment _ super => exact ⟨rfl,super⟩

end Lox.Heap
