import Lox.Proofs.Heap.Allocation
import Lox.Proofs.Heap.Copying

/-! # Heaps that hold others

A heap that never collects of its own accord can hold the objects of a smaller one as copies, among
others that have nothing to do with them. What is made in the smaller heap is made in the larger one at
its end, and what is written to one of its objects is written to the copy. All else that was there to
begin with stays as it was.
-/
namespace Lox
open Heap

namespace Heap
variable {ν : Type} {h : Heap ν} {r : Ref} {c : Cell ν}

/-- A heap that never collects of its own accord. -/
def Manual (h : Heap ν) : Prop := h.rules.automatic = false

theorem Manual.not_due (manual : h.Manual) : h.due = false := by
  rw [due,show h.rules.automatic = false from manual]
  rfl

theorem Manual.register [Holder ν] (manual : h.Manual) (cell : h.cells[r.index]? = some c) (new : c.slot = none)
    (roots : List Ref) : Heap.register r roots h = .ok h.nextSlot (h.enroll r) := by
  rw [register_new cell new,manual.not_due,if_neg Bool.false_ne_true]

theorem getElem?_enroll (h : Heap ν) (r : Ref) (i : Nat) : (h.enroll r).cells[i]? =
    if r.index = i then h.cells[i]?.map fun c => { c with slot := some h.nextSlot } else h.cells[i]? := by
  simp only [enroll,Array.getElem?_modify]

theorem getElem?_setObject (h : Heap ν) (r : Ref) (o : Object ν) (i : Nat) : (h.setObject r o).cells[i]? =
    if r.index = i then h.cells[i]?.map fun c => { c with object := o } else h.cells[i]? := by
  simp only [setObject,Array.getElem?_modify]

/-- A new object leaves the others where they are. -/
theorem getElem?_create (h : Heap ν) (o : Object ν) {i : Nat} (inside : i < h.cells.size) :
    (stateAfter (create o h)).cells[i]? = h.cells[i]? := by
  simp only [stateAfter,create,Array.getElem?_push,if_neg (Nat.ne_of_lt inside)]

/-- A heap with one more object, which it owns. -/
def placed (h : Heap ν) (o : Object ν) : Heap ν :=
  enroll { h with cells := h.cells.push { object := o } } ⟨h.cells.size⟩

theorem Manual.place [Holder ν] (manual : h.Manual) (o : Object ν) (roots : List Ref) :
    Heap.place o roots h = .ok ⟨h.cells.size⟩ (h.placed o) := by
  have manual : Manual { h with cells := h.cells.push { object := o } } := manual
  rw [place_eq,manual.register (c := { object := o }) (by simp) rfl]
  rfl

theorem size_placed (h : Heap ν) (o : Object ν) : (h.placed o).cells.size = h.cells.size + 1 := by
  simp [placed,enroll]

theorem getElem?_placed_size (h : Heap ν) (o : Object ν) :
    (h.placed o).cells[h.cells.size]? = some { object := o, slot := some h.nextSlot } := by
  rw [placed,getElem?_enroll,if_pos rfl]
  simp

theorem getElem?_placed_of_ne (h : Heap ν) (o : Object ν) {i : Nat} (other : i ≠ h.cells.size) :
    (h.placed o).cells[i]? = h.cells[i]? := by
  rw [placed,getElem?_enroll,if_neg (Ne.symm other),Array.getElem?_push,if_neg other]

/-! ## What stays as it was -/

namespace Untouched
variable {k l : Heap ν}

theorem of_cell (same : k.cells[r.index]? = h.cells[r.index]?) : Untouched h k r := by
  rw [Untouched,same]

theorem symm (same : Untouched h k r) : Untouched k h r := Eq.symm same

theorem trans (first : Untouched h k r) (second : Untouched k l r) : Untouched h l r :=
  Eq.trans second first

theorem isRegistered_eq (same : Untouched h k r) : k.isRegistered r = h.isRegistered r := by
  have owned := congrArg (Option.map Cell.isRegistered) same
  simp only [Option.map_map,Function.comp_def,Cell.unmark,Cell.isRegistered] at owned
  simp only [isRegistered,Cell.isRegistered,owned]

theorem referencesOf_eq [Holder ν] (same : Untouched h k r) : k.referencesOf r = h.referencesOf r := by
  have objects := congrArg (Option.map fun c : Cell ν => c.object.references) same
  simp only [Option.map_map,Function.comp_def,Cell.unmark] at objects
  simp only [referencesOf,objects]

end Untouched
end Heap

theorem Ref.index_ne {r s : Ref} (ne : r ≠ s) : r.index ≠ s.index := by
  cases r
  cases s
  simpa using ne

theorem Cell.freed_of_isRegistered {c : Cell Value} (owned : c.isRegistered) : c.freed = false := by
  simp only [Cell.isRegistered,Bool.and_eq_true,Bool.not_eq_true'] at owned
  exact owned.2

/-! ## What known objects refer to -/

namespace World
variable {W : World} {r : Ref} {n : Nat}

theorem IsMethod.known (h : W.IsMethod r n) : W r ≠ none := by
  obtain ⟨_,_,role,-⟩ := h
  simp [role]

theorem IsClass.known (h : W.IsClass r n) : W r ≠ none := by
  obtain ⟨_,_,role,-⟩ := h
  simp [role]

theorem IsObject.known (h : W.IsObject r) : W r ≠ none := by
  cases h with
  | function h =>
    obtain ⟨_,_,role,-⟩ := h
    simp [role]
  | klass h => exact h.known
  | instanceOf role => simp [role]

theorem Holds.known {x : Value} (h : W.Holds x) : ∀ r ∈ Holder.refs x, W r ≠ none := by
  intro r hr
  cases x with
  | object s =>
    obtain rfl := List.mem_singleton.mp hr
    exact IsObject.known h
  | bound f s =>
    obtain ⟨⟨n,method⟩,object⟩ := h
    rcases List.mem_cons.mp hr with rfl | hr
    · exact method.known
    · obtain rfl := List.mem_singleton.mp hr
      exact object.known
  | _ => cases hr

end World

namespace Guise
variable {G H : Guise} {W : World} {r s : Ref} {R : Role} {o : Object Value}

/-- An object refers to known objects alone. -/
theorem Content.known (content : G.Content W r R o) (hs : s ∈ o.references) : W s ≠ none := by
  have held : ∀ {values : Bindings Value}, (∀ x ∈ values.values, W.Holds x) →
      s ∈ values.values.flatMap Holder.refs → W s ≠ none := by
    intro values holds hs
    obtain ⟨x,hx,hs⟩ := List.mem_flatMap.mp hs
    exact (holds x hx).known s hs
  cases content with
  | environment _ holds parent _ =>
    rcases List.mem_append.mp hs with hs | hs
    · obtain ⟨_,role⟩ := parent s (Option.mem_toList.mp hs)
      simp [role]
    · exact held holds hs
  | function _ closure _ =>
    obtain rfl := List.mem_singleton.mp hs
    obtain ⟨_,role⟩ := closure
    simp [role]
  | klass classes functions _ =>
    rcases List.mem_append.mp hs with hs | hs
    · obtain ⟨_,klass⟩ := classes s (Option.mem_toList.mp hs)
      exact klass.known
    · obtain ⟨_,_,_,role⟩ := functions s hs
      simp [role]
  | instanceOf klass holds =>
    rcases List.mem_cons.mp hs with rfl | hs
    · exact klass.known
    · exact held holds hs

theorem refs_value (x : Value) : Holder.refs (G.value x) = (Holder.refs x).map G.ref := by cases x <;> rfl

/-- A copy refers to the copies of what the object refers to. -/
theorem Content.references_copy (content : G.Content W r R o) :
    (G.copy R o).references = o.references.map G.ref := by
  have values : ∀ xs : List Value, (xs.map G.value).flatMap Holder.refs =
      (xs.flatMap Holder.refs).map G.ref := fun xs => by
    rw [List.flatMap_map,List.map_flatMap]
    exact congrArg xs.flatMap (funext refs_value)
  cases content with
  | environment | instanceOf =>
    simp only [copy,Object.references,Bindings.values_transport,values,List.map_append]
    simp [Option.toList_map]
  | function => rfl
  | klass =>
    simp only [copy,Object.references,Bindings.values_transport,List.map_append]
    simp [Option.toList_map]

theorem transport_congr {α β : Type} (f : String → String) {g g' : α → β} {b : Bindings α}
    (same : ∀ x ∈ b.values, g x = g' x) : b.transport f g = b.transport f g' := by
  simp only [Bindings.transport,Bindings.mk.injEq]
  refine List.map_congr_left fun e he => ?_
  rw [same e.2 (List.mem_map_of_mem he)]

/-- Copies depend on where the objects are moved that the original refers to. -/
theorem Content.copy_congr (content : G.Content W r R o) (spelled : H.spelling = G.spelling)
    (moved : ∀ s ∈ o.references, H.move s.index = G.move s.index) : H.copy R o = G.copy R o := by
  have ref : ∀ s ∈ o.references, H.ref s = G.ref s := fun s hs => congrArg Ref.mk (moved s hs)
  have value : ∀ x : Value, (∀ s ∈ Holder.refs x, s ∈ o.references) → H.value x = G.value x := by
    intro x sub
    cases x with
    | object s => exact congrArg Value.object (ref s (sub s (by simp [Holder.refs])))
    | bound f s =>
      exact congrArg₂ Value.bound (ref f (sub f (by simp [Holder.refs])))
        (ref s (sub s (by simp [Holder.refs])))
    | _ => rfl
  have link : ∀ link : Option Ref,
      (∀ s ∈ link, s ∈ o.references) → link.map H.ref = link.map G.ref := by
    intro link sub
    cases link with
    | none => rfl
    | some s => exact congrArg some (ref s (sub s rfl))
  cases content with
  | @environment f values =>
    simp only [copy,spelled]
    rw [link _ fun s hs => by simp [Object.references,Option.mem_def.mp hs],
      transport_congr _ fun x hx => value x fun s hs => ?_]
    exact List.mem_append_right _ (List.mem_flatMap.mpr ⟨x,hx,hs⟩)
  | function =>
    simp only [copy,spelled]
    rw [link _ fun s hs => by simp [Object.references,Option.mem_def.mp hs]]
  | @klass name superclass methods =>
    simp only [copy]
    rw [link _ fun s hs => by simp [Object.references,Option.mem_def.mp hs],
      transport_congr id fun s hs => ref s (List.mem_append_right _ hs)]
  | @instanceOf c n fields =>
    simp only [copy]
    rw [link _ fun s hs => by simp [Object.references,Option.mem_def.mp hs],
      transport_congr id fun x hx => value x fun s hs => ?_]
    exact List.mem_append_right _ (List.mem_flatMap.mpr ⟨x,hx,hs⟩)

end Guise

/-! ## Embeddings -/

theorem Spelling.inScope_asWritten (name : String) (o : Origin) : asWritten.inScope o name = name := rfl

theorem Spelling.plain_asWritten (name : String) : asWritten.inScope .world name = name := rfl

/-- Where the objects of a heap are found in a larger one. -/
structure Embedding where
  move : Nat → Nat
  ascending : StrictMono move

namespace Embedding

/-- Copies that look like the originals. Programs may use scopes in any way. -/
def guise (e : Embedding) : Guise where
  move := e.move
  ascending := e.ascending
  spelling := .asWritten
  plain := Spelling.plain_asWritten
  this := Spelling.inScope_asWritten "this"
  super := Spelling.inScope_asWritten "super"
  use _ _ := True
  named _ := True
  assigned _ := trivial
  made _ _ := True

/-- The places where objects are found. -/
def places (e : Embedding) (old : Ref → Prop) (n : Nat) : Prop := ∃ r, old r ∧ e.move r.index = n

/-- What comes behind the first objects is found behind so many. -/
def beyond (e : Embedding) (n m : Nat) (size : e.move n ≤ m) : Embedding where
  move k := if k < n then e.move k else m + (k - n)
  ascending := by
    intro a b less
    have ascends := e.ascending less
    dsimp only
    split
    · next left =>
      split
      · exact ascends
      · have := e.ascending left
        omega
    · split <;> omega

/-- An object that a heap owns and its copy, which another heap owns. -/
structure Linked (e : Embedding) (W : World) (r : Ref) (R : Role) (c d : Cell Value) : Prop where
  object : d.object = e.guise.copy R c.object
  content : e.guise.Content W r R c.object
  left : c.isRegistered
  right : d.isRegistered

/-- A heap and a larger one that holds its known objects, neither of which collects. -/
structure Holds (e : Embedding) (W : World) (h g : Heap Value) : Prop where
  manual : h.Manual
  manual' : g.Manual
  ahead (n : Nat) : e.move (h.cells.size + n) = g.cells.size + n
  linked {r : Ref} {R : Role} : W r = some R → ∃ c d, h.cells[r.index]? = some c ∧
    g.cells[e.move r.index]? = some d ∧ e.Linked W r R c d

variable {e e' : Embedding} {W V : World} {r : Ref} {R : Role} {c d : Cell Value} {h g : Heap Value}

namespace Linked

theorem copied (linked : e.Linked W r R c d) : e.guise.Copied W r R c d := by
  have live := Cell.freed_of_isRegistered linked.left
  have live' := Cell.freed_of_isRegistered linked.right
  exact
    { object := linked.object
      freed := live'.trans live.symm
      slot := fun freed => absurd freed (by simp [live])
      emptied := fun freed => absurd freed (by simp [live])
      shape := linked.content.shape
      content := fun _ => linked.content }

theorem grows (up : W.Grows V) (linked : e.Linked W r R c d) : e.Linked V r R c d :=
  { linked with content := linked.content.grows up }

/-- What is known may be found somewhere else in a larger heap, if the known objects are not. -/
theorem change (moved : ∀ s, W s ≠ none → e'.move s.index = e.move s.index)
    (linked : e.Linked W r R c d) : e'.Linked W r R c d where
  object := by
    rw [linked.object]
    exact (linked.content.copy_congr (H := e'.guise) rfl fun s hs => moved s (linked.content.known hs)).symm
  content := by
    have content := linked.content
    generalize c.object = o at content ⊢
    cases content with
    | environment binds holds parent made => exact .environment binds holds parent made
    | function arity closure fits => exact .function arity closure fits
    | klass classes functions init => exact .klass classes functions init
    | instanceOf klass holds => exact .instanceOf klass holds
  left := linked.left
  right := linked.right

end Linked

namespace Holds
variable (holds : e.Holds W h g)
include holds

theorem move_size : e.move h.cells.size = g.cells.size := holds.ahead 0

theorem inside (role : W r ≠ none) : r.index < h.cells.size ∧ e.move r.index < g.cells.size := by
  obtain ⟨R,role⟩ := Option.ne_none_iff_exists'.mp role
  obtain ⟨c,d,hc,hd,-⟩ := holds.linked role
  exact ⟨(Array.getElem?_eq_some_iff.mp hc).1,(Array.getElem?_eq_some_iff.mp hd).1⟩

theorem fresh : W ⟨h.cells.size⟩ = none := by
  by_contra role
  exact Nat.lt_irrefl _ (holds.inside role).1

/-- The copy of a known object refers to copies of known objects. -/
theorem known_of_reference {s t : Ref} (known : W s ≠ none) (ht : t ∈ g.referencesOf (s.move e.move)) :
    ∃ u, W u ≠ none ∧ t = u.move e.move := by
  obtain ⟨R,role⟩ := Option.ne_none_iff_exists'.mp known
  obtain ⟨c,d,-,hd,linked⟩ := holds.linked role
  have hd : g.cells[(s.move e.move).index]? = some d := hd
  have among : t ∈ c.object.references.map e.guise.ref := by
    rw [← linked.content.references_copy,← linked.object]
    simpa [referencesOf,hd] using ht
  obtain ⟨u,hu,rfl⟩ := List.mem_map.mp among
  exact ⟨u,linked.content.known hu,rfl⟩

/-- An object that both heaps make without owning it yet. -/
theorem create (o p : Object Value) :
    e.Holds W (stateAfter (Heap.create o h)) (stateAfter (Heap.create p g)) where
  manual := holds.manual
  manual' := holds.manual'
  ahead n := by
    have := holds.ahead (n + 1)
    simp only [stateAfter,Heap.create,Array.size_push]
    rw [show h.cells.size + 1 + n = h.cells.size + (n + 1) by omega,this]
    omega
  linked {r R} role := by
    obtain ⟨c,d,hc,hd,linked⟩ := holds.linked role
    obtain ⟨left,right⟩ := holds.inside (r := r) (by simp [role])
    exact ⟨c,d,(getElem?_create h o left).trans hc,(getElem?_create g p right).trans hd,linked⟩

/-- The larger heap goes on alone, without touching what it holds of the other one. -/
theorem shift {k : Heap Value} (manual : k.Manual) (size : g.cells.size ≤ k.cells.size)
    (still : ∀ r, W r ≠ none → k.cells[e.move r.index]? = g.cells[e.move r.index]?) :
    ∃ e' : Embedding, (∀ n < h.cells.size, e'.move n = e.move n) ∧ e'.Holds W h k := by
  have ends : e.move h.cells.size ≤ k.cells.size := Nat.le_trans (Nat.le_of_eq holds.move_size) size
  have same : ∀ n < h.cells.size, (e.beyond h.cells.size k.cells.size ends).move n = e.move n :=
    fun n less => if_pos less
  refine ⟨_,same,holds.manual,manual,fun n => ?_,fun {r R} role => ?_⟩
  · simp only [beyond]
    rw [if_neg (by omega)]
    omega
  · have known : W r ≠ none := by simp [role]
    obtain ⟨c,d,hc,hd,linked⟩ := holds.linked role
    refine ⟨c,d,hc,?_,linked.change fun s hs => same _ (holds.inside hs).1⟩
    rw [same _ (holds.inside known).1,still r known,hd]

end Holds
end Embedding

/-! ## Copies among other objects -/

/-- An embedding of heaps that change, with the larger one to begin with and the objects that are known
then. -/
structure Stretch extends Embedding where
  base : Heap Value
  old : Ref → Prop
  /-- The place of the first object that is new. -/
  first : Nat
  start : base.cells.size ≤ move first

namespace Stretch

/-- What has been there to begin with is as it was, unless it is a copy of a known object. -/
structure Holds (t : Stretch) (W : World) (h g : Heap Value) : Prop extends t.toEmbedding.Holds W h g where
  known {r : Ref} : W r ≠ none → t.old r ∨ t.first ≤ r.index
  begun : t.first ≤ h.cells.size
  size : t.base.cells.size ≤ g.cells.size
  still {i : Nat} : i < t.base.cells.size → (∀ r, t.old r → t.move r.index ≠ i) →
    g.cells[i]? = t.base.cells[i]?

variable {t : Stretch} {W : World} {h g : Heap Value}

theorem getElem?_setCopy (g : Heap Value) (r : Ref) (o : Object Value) (i : Nat) :
    (g.setObject (t.guise.ref r) o).cells[i]? =
      if t.move r.index = i then g.cells[i]?.map fun c => { c with object := o } else g.cells[i]? :=
  getElem?_setObject g _ o i

namespace Holds
variable (holds : t.Holds W h g)
include holds

/-- The copy of a known object is not among those that stay as they were. -/
theorem apart {r : Ref} (role : W r ≠ none) {i : Nat} (inside : i < t.base.cells.size)
    (others : ∀ r, t.old r → t.move r.index ≠ i) : t.move r.index ≠ i := by
  rcases holds.known role with old | new
  · exact others r old
  · have := Nat.le_trans t.start (t.ascending.monotone new)
    omega

theorem write {r : Ref} {R S : Role} {o : Object Value} (role : W r = some R)
    (grows : R.Grows S) (content : t.guise.Content (W.put r S) r S o) :
    t.Holds (W.put r S) (h.setObject r o) (g.setObject (t.guise.ref r) (t.guise.copy S o)) := by
  have known : W r ≠ none := by simp [role]
  constructor
  case known =>
    intro s hs
    by_cases same : s = r
    · exact same ▸ holds.known known
    · exact holds.known (by rwa [World.put_of_ne same] at hs)
  case begun => simpa [setObject] using holds.begun
  case size => simpa [setObject] using holds.size
  case still =>
    intro i inside others
    rw [getElem?_setCopy,if_neg (holds.apart known inside others)]
    exact holds.still inside others
  refine ⟨holds.manual,holds.manual',fun n => by simpa [setObject] using holds.ahead n,fun {s T} hs => ?_⟩
  by_cases same : s = r
  · subst same
    obtain rfl : S = T := Option.some.inj ((World.put_self s S).symm.trans hs)
    obtain ⟨c,d,hc,hd,linked⟩ := holds.linked role
    refine ⟨{ c with object := o },{ d with object := t.guise.copy S o },?_,?_,
      rfl,content,linked.left,linked.right⟩
    · rw [getElem?_setObject,if_pos rfl,hc]
      rfl
    · rw [getElem?_setCopy,if_pos rfl,hd]
      rfl
  · obtain ⟨c,d,hc,hd,linked⟩ := holds.linked ((World.put_of_ne same S).symm.trans hs)
    have apart : r.index ≠ s.index := Ref.index_ne (Ne.symm same)
    refine ⟨c,d,?_,?_,linked.grows (World.grows_put role grows)⟩
    · rw [getElem?_setObject,if_neg apart,hc]
    · rw [getElem?_setCopy,if_neg (t.ascending.injective.ne apart),hd]

theorem place {R : Role} {o : Object Value}
    (content : t.guise.Content (W.put ⟨h.cells.size⟩ R) ⟨h.cells.size⟩ R o) :
    t.Holds (W.put ⟨h.cells.size⟩ R) (h.placed o) (g.placed (t.guise.copy R o)) := by
  have ends := holds.move_size
  have fresh := holds.fresh
  constructor
  case known =>
    intro s hs
    by_cases same : s = ⟨h.cells.size⟩
    · exact .inr (same ▸ holds.begun)
    · exact holds.known (by rwa [World.put_of_ne same] at hs)
  case begun =>
    rw [size_placed]
    exact Nat.le_succ_of_le holds.begun
  case size =>
    rw [size_placed]
    exact Nat.le_succ_of_le holds.size
  case still =>
    intro i inside others
    rw [getElem?_placed_of_ne g _ (Nat.ne_of_lt (Nat.lt_of_lt_of_le inside holds.size))]
    exact holds.still inside others
  refine ⟨holds.manual,holds.manual',fun n => ?_,fun {s S} hs => ?_⟩
  · have := holds.ahead (n + 1)
    rw [size_placed,size_placed,show h.cells.size + 1 + n = h.cells.size + (n + 1) by omega,this]
    omega
  · by_cases same : s = ⟨h.cells.size⟩
    · subst same
      obtain rfl : R = S := Option.some.inj ((World.put_self _ R).symm.trans hs)
      have made := getElem?_placed_size g (t.guise.copy R o)
      rw [← ends] at made
      exact ⟨_,_,getElem?_placed_size h o,made,⟨rfl,content,rfl,rfl⟩⟩
    · obtain ⟨c,d,hc,hd,linked⟩ := holds.linked ((World.put_of_ne same R).symm.trans hs)
      have apart : s.index ≠ h.cells.size := Ref.index_ne same
      refine ⟨c,d,?_,?_,linked.grows (World.grows_put_new fresh R)⟩
      · rw [getElem?_placed_of_ne h o apart,hc]
      · rw [getElem?_placed_of_ne g _ (ends ▸ t.ascending.injective.ne apart),hd]

end Holds

/-- Copies among other objects, in heaps that never collect. -/
def copying (t : Stretch) : Copying where
  toGuise := t.guise
  heaps := t.Holds
  tight := False
  stays _ := False.elim
  cell holds role := by
    obtain ⟨c,d,hc,hd,linked⟩ := holds.linked role
    exact ⟨c,d,hc,hd,linked.copied⟩
  write holds role grows _ _ content := holds.write role grows content
  journal := False.elim
  flush holds := { holds with }
  place {W h g R o roots others} holds _ content := by
    refine .inl ⟨h.placed o,g.placed _,holds.manual.place o roots,?_,holds.place content⟩
    rw [holds.manual'.place _ others,show t.guise.move h.cells.size = g.cells.size from holds.ahead 0]

end Stretch

/-- Both heaps go on from an embedding. -/
def Embedding.Holds.stretch {e : Embedding} {W : World} {h g : Heap Value} (holds : e.Holds W h g) :
    Stretch :=
  { e with
    base := g
    old := fun r => W r ≠ none
    first := h.cells.size
    start := Nat.le_of_eq holds.move_size.symm }

theorem Embedding.Holds.begin {e : Embedding} {W : World} {h g : Heap Value} (holds : e.Holds W h g) :
    holds.stretch.Holds W h g :=
  { holds with
    known := fun role => .inl role
    begun := Nat.le_refl _
    size := Nat.le_refl _
    still := fun _ _ => rfl }

end Lox
