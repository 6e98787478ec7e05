import Lox.Proofs.Heap.Tidying
import Lox.Proofs.Scope.Sites

/-! # What lasts

What programs cannot change of an object: where an environment stands and what it binds to `this` and
`super`, the declaration of a function and where it was made, the superclass and the methods of a class,
the class of an instance. All of it lasts until the object is released.
-/
namespace Lox

/-- What a program cannot change of an object is the same. -/
inductive Object.Lasts : Object Value → Object Value → Prop
  | same (o : Object Value) : Lasts o o
  | environment {values others : Bindings Value} {enclosing : Option Ref} :
      others.get? "this" = values.get? "this" → others.get? "super" = values.get? "super" →
      Lasts (.environment values enclosing) (.environment others enclosing)
  | instanceOf {base : Option Ref} {fields others : Bindings Value} :
      Lasts (.instanceOf base fields) (.instanceOf base others)

theorem Object.Lasts.trans {o p q : Object Value} (first : o.Lasts p) (second : p.Lasts q) : o.Lasts q := by
  cases first with
  | same => exact second
  | environment this super =>
    cases second with
    | same => exact .environment this super
    | environment this' super' => exact .environment (this'.trans this) (super'.trans super)
  | instanceOf =>
    cases second with
    | same | instanceOf => exact .instanceOf

theorem Object.Lasts.kind {o p : Object Value} (lasts : o.Lasts p) : p.kind = o.kind := by
  cases lasts <;> rfl

/-- An object that has not been released has lost nothing. -/
structure Cell.Lasts (c d : Cell Value) : Prop where
  kind : d.object.kind = c.object.kind
  object : d.freed = false → c.freed = false ∧ c.object.Lasts d.object

namespace Cell.Lasts
variable {c d e : Cell Value}

theorem refl (c : Cell Value) : c.Lasts c := ⟨rfl,fun live => ⟨live,.same _⟩⟩

theorem trans (first : c.Lasts d) (second : d.Lasts e) : c.Lasts e where
  kind := second.kind.trans first.kind
  object live := by
    obtain ⟨live,later⟩ := second.object live
    obtain ⟨live,earlier⟩ := first.object live
    exact ⟨live,earlier.trans later⟩

theorem of_tidied (tidied : c.Tidied d) : c.Lasts d where
  kind := tidied.kind
  object live := by
    rcases tidied with ⟨object,freed⟩ | ⟨-,freed⟩
    · exact ⟨freed.symm.trans live,object ▸ .same _⟩
    · cases freed.symm.trans live

end Cell.Lasts

namespace Heap

/-- No object of a heap is lost in a later one, and all that lasts is the same. -/
def Lasts (h k : Heap Value) : Prop :=
  ∀ (i : Nat) (c : Cell Value), h.cells[i]? = some c → ∃ d, k.cells[i]? = some d ∧ c.Lasts d

theorem Lasts.refl (h : Heap Value) : h.Lasts h := fun _ c hc => ⟨c,hc,.refl c⟩

theorem Lasts.trans {h k l : Heap Value} (first : h.Lasts k) (second : k.Lasts l) : h.Lasts l := by
  intro i c hc
  obtain ⟨d,hd,earlier⟩ := first i c hc
  obtain ⟨e,he,later⟩ := second i d hd
  exact ⟨e,he,earlier.trans later⟩

theorem Lasts.of_cells {h k l : Heap Value} (lasts : h.Lasts k) (same : l.cells = k.cells) : h.Lasts l := by
  intro i c hc
  rw [same]
  exact lasts i c hc

theorem Lasts.size {h k : Heap Value} (lasts : h.Lasts k) : h.cells.size ≤ k.cells.size := by
  by_contra smaller
  obtain ⟨d,hd,-⟩ := lasts k.cells.size _ (Array.getElem?_eq_getElem (by omega))
  simp at hd

theorem lasts_of_tidied {h k : Heap Value} (tidied : Tidied h.cells k.cells) : h.Lasts k := by
  intro i c hc
  have related := tidied i
  rw [hc] at related
  generalize k.cells[i]? = d at related
  cases related with
  | some related => exact ⟨_,rfl,.of_tidied related⟩

theorem lasts_create (o : Object Value) (h : Heap Value) : h.Lasts (stateAfter (create o h)) := by
  intro i c hc
  refine ⟨c,?_,.refl c⟩
  have inside := (Array.getElem?_eq_some_iff.mp hc).1
  simp only [stateAfter,create,Array.getElem?_push]
  rw [if_neg (by omega),hc]

/-- A write that changes nothing that lasts. -/
theorem lasts_setObject {h : Heap Value} {r : Ref} {o : Object Value}
    (lasts : ∀ c, h.cells[r.index]? = some c → c.object.Lasts o) : h.Lasts (h.setObject r o) := by
  intro i c hc
  simp only [setObject,Array.getElem?_modify]
  split
  · next same =>
    subst same
    have lasts := lasts c hc
    rw [hc]
    exact ⟨_,rfl,lasts.kind,fun live => ⟨live,lasts⟩⟩
  · exact ⟨c,hc,.refl c⟩

/-- A write to an object that was not there. -/
theorem Lasts.setObject_new {h k : Heap Value} (lasts : h.Lasts k) {r : Ref} (new : h.cells.size ≤ r.index)
    (o : Object Value) : h.Lasts (k.setObject r o) := by
  intro i c hc
  have inside := (Array.getElem?_eq_some_iff.mp hc).1
  simp only [setObject,Array.getElem?_modify]
  rw [if_neg (by omega)]
  exact lasts i c hc

theorem environment_eq_ok {h : Heap Value} {r : Ref} {values : Bindings Value} {enclosing : Option Ref}
    (found : h.environment r = .ok (values,enclosing)) :
    ∃ c, h.cells[r.index]? = some c ∧ c.freed = false ∧ c.object = .environment values enclosing := by
  simp only [environment] at found
  cases hc : h.live r with
  | error e =>
    rw [hc] at found
    cases found
  | ok c =>
    obtain ⟨cell,live⟩ := live_eq_ok hc
    rw [hc] at found
    refine ⟨c,cell,live,?_⟩
    rcases c with ⟨_ | _ | _ | _ | _,_,_,_⟩ <;> cases found
    rfl

theorem environment_of_cell {h : Heap Value} {r : Ref} {c : Cell Value} (cell : h.cells[r.index]? = some c)
    (live : c.freed = false) {values : Bindings Value} {enclosing : Option Ref}
    (object : c.object = .environment values enclosing) : h.environment r = .ok (values,enclosing) := by
  simp only [environment,Heap.live,cell,live,Bool.false_eq_true,if_false,Bind.bind,Except.bind,object]
  rfl

/-- Whoever can read an environment can bind names in it, and then read it again. -/
theorem define_isOk {h : Heap Value} {r : Ref} (reads : ∃ e, h.environment r = .ok e) (name : String)
    (x : Value) : ∃ k, define r name x h = .ok () k ∧ ∃ e, k.environment r = .ok e := by
  obtain ⟨⟨values,enclosing⟩,read⟩ := reads
  obtain ⟨c,cell,live,-⟩ := environment_eq_ok read
  refine ⟨h.setObject r (.environment (values.set name x) enclosing),by simp only [define,read],
    (values.set name x,enclosing),?_⟩
  have written : (h.setObject r (.environment (values.set name x) enclosing)).cells[r.index]? =
      some { c with object := .environment (values.set name x) enclosing } := by
    simp only [setObject,Array.getElem?_modify,if_pos,cell,Option.map_some]
  exact environment_of_cell written live rfl

theorem object?_eq_some {h : Heap Value} {r : Ref} {c : Cell Value} (hc : h.cells[r.index]? = some c) :
    h.object? r = some c.object := by simp only [object?,hc,Option.map_some]

end Heap

/-- Binding a name that stands for no receiver and no superclass. -/
theorem Ordinary.lasts {name : String} (ordinary : Ordinary name) (values : Bindings Value)
    (enclosing : Option Ref) (x : Value) :
    Object.Lasts (.environment values enclosing) (.environment (values.set name x) enclosing) :=
  .environment (values.get?_set_of_ne ordinary.1 x) (values.get?_set_of_ne ordinary.2 x)

end Lox
