import Lox.Proofs.Heap.Failures
import Lox.Proofs.Heap.Requests

/-! # Heaps without their marks

Nothing that can be asked of a heap shows a mark, and a collection forgets all marks before it sets
its own. So heaps that are the same but for marks give the same answers to whatever is asked of
them, and are again the same but for marks behind it.
-/
namespace Lox

@[simp] theorem Cell.unmark_unmark {ν : Type} (c : Cell ν) : c.unmark.unmark = c.unmark := rfl

namespace Heap
variable {ν : Type}

/-- A heap with no object marked. -/
def unmarked (h : Heap ν) : Heap ν := { h with cells := h.cells.map Cell.unmark }

@[simp] theorem getElem?_unmarked (h : Heap ν) (i : Nat) :
    h.unmarked.cells[i]? = h.cells[i]?.map Cell.unmark := by
  simp [unmarked]

@[simp] theorem unmarked_unmarked (h : Heap ν) : h.unmarked.unmarked = h.unmarked := by
  simp only [unmarked,Array.map_map]
  rfl

theorem recolored_unmarked (h : Heap ν) : Recolored h.cells h.unmarked.cells := by
  simp only [Recolored,unmarked,Array.map_map]
  rfl

/-- Heaps that are the same but for marks differ in how their cells are coloured. -/
theorem unmarked_eq_iff {h k : Heap ν} : k.unmarked = h.unmarked ↔
    k = { h with cells := k.cells } ∧ Recolored h.cells k.cells := by
  constructor
  · intro same
    obtain ⟨_,_,_,_,_,_,_,_,_,_,_,_⟩ := h
    obtain ⟨_,_,_,_,_,_,_,_,_,_,_,_⟩ := k
    simp only [unmarked,mk.injEq] at same
    obtain ⟨rfl,cells,rfl,rfl,rfl,rfl,rfl,rfl,rfl,rfl,rfl,rfl⟩ := same
    exact ⟨rfl,cells⟩
  · rintro ⟨rest,cells⟩
    rw [rest,unmarked,unmarked]
    exact congrArg (fun cells => { h with cells }) cells

/-! ## Reading -/

section
variable (h : Heap ν) (r : Ref)

@[simp] theorem object?_unmarked : h.unmarked.object? r = h.object? r := by
  simp only [object?,getElem?_unmarked,Option.map_map]
  rfl

@[simp] theorem slotOf_unmarked : h.unmarked.slotOf r = h.slotOf r := by
  simp only [slotOf,getElem?_unmarked]
  cases h.cells[r.index]? <;> rfl

@[simp] theorem kindOf_unmarked : h.unmarked.kindOf r = h.kindOf r := by
  simp only [kindOf,getElem?_unmarked,Option.map_map]
  rfl

@[simp] theorem isRegistered_unmarked : h.unmarked.isRegistered r = h.isRegistered r := by
  simp only [isRegistered,getElem?_unmarked,Option.map_map]
  rfl

@[simp] theorem referencesOf_unmarked [Holder ν] : h.unmarked.referencesOf r = h.referencesOf r := by
  simp only [referencesOf,getElem?_unmarked,Option.map_map]
  rfl

theorem live_unmarked : h.unmarked.live r = (h.live r).map Cell.unmark := by
  simp only [live,getElem?_unmarked]
  cases h.cells[r.index]? with
  | none => rfl
  | some c =>
    obtain ⟨object,slot,marked,freed⟩ := c
    cases freed <;> rfl

/-- What is read off a live object but its mark is read off it without its mark. -/
theorem live_unmarked_bind {α : Type} {f : Cell ν → Except Failure α} (blind : ∀ c, f c.unmark = f c) :
    h.unmarked.live r >>= f = h.live r >>= f := by
  rw [live_unmarked]
  cases h.live r with
  | error e => rfl
  | ok c => exact blind c

@[simp] theorem environment_unmarked : h.unmarked.environment r = h.environment r :=
  h.live_unmarked_bind r fun _ => rfl

@[simp] theorem lookup_unmarked (name : String) : h.unmarked.lookup r name = h.lookup r name := by
  simp only [lookup,environment_unmarked]

@[simp] theorem hop_unmarked (distance : Int) (hops : Nat) :
    h.unmarked.hop distance hops r = h.hop distance hops r := by
  induction hops generalizing r with
  | zero => exact h.live_unmarked_bind r fun _ => rfl
  | succ hops ih => simp only [hop,environment_unmarked,ih]

@[simp] theorem ancestor_unmarked (distance : Int) : h.unmarked.ancestor r distance = h.ancestor r distance :=
  h.hop_unmarked r distance _

@[simp] theorem lookupAt_unmarked (distance : Int) (name : String) :
    h.unmarked.lookupAt r distance name = h.lookupAt r distance name := by
  simp only [lookupAt,ancestor_unmarked,environment_unmarked]

@[simp] theorem routine_unmarked : h.unmarked.routine r = h.routine r := by
  simp only [routine,object?_unmarked]

@[simp] theorem findMethod_unmarked (name : String) : h.unmarked.findMethod r name = h.findMethod r name := by
  fun_induction findMethod h r name with
  | case1 r e dead =>
    rw [findMethod,live_unmarked,dead]
    rfl
  | case2 r c live text superclass methods object m found =>
    rw [findMethod,live_unmarked,live]
    simp only [Except.map,Cell.unmark,object,found]
  | case3 r c live text methods object missing =>
    rw [findMethod,live_unmarked,live]
    simp only [Except.map,Cell.unmark,object,missing]
  | case4 r c live text methods s missing before object ih =>
    rw [findMethod,live_unmarked,live]
    simp only [Except.map,Cell.unmark,object,missing,if_pos before,ih]
  | case5 r c live text methods s missing behind object =>
    rw [findMethod,live_unmarked,live]
    simp only [Except.map,Cell.unmark,object,missing,if_neg behind]
  | case6 r c live other =>
    rw [findMethod,live_unmarked,live]
    simp only [Except.map,Cell.unmark]

@[simp] theorem property_unmarked (name : String) : h.unmarked.property r name = h.property r name := by
  simp only [property,findMethod_unmarked]
  exact h.live_unmarked_bind r fun _ => rfl

@[simp] theorem arity_unmarked : h.unmarked.arity r = h.arity r := by
  simp only [arity,kindOf_unmarked,findMethod_unmarked,routine_unmarked]

@[simp] theorem inspect_unmarked : h.unmarked.inspect r = h.inspect r := by
  simp only [inspect,declaredName,object?_unmarked]

@[simp] theorem environmentText_unmarked : h.unmarked.environmentText r = h.environmentText r := by
  simp only [environmentText,object?_unmarked,slotOf_unmarked]

@[simp] theorem verify_unmarked [Holder ν] : h.unmarked.verify = h.verify := by
  have stray : h.unmarked.strayReference? = h.strayReference? := by
    funext r
    simp only [strayReference?,referencesOf_unmarked,isRegistered_unmarked,kindOf_unmarked,slotOf_unmarked]
  rw [verify,verify,stray]
  rfl

@[simp] theorem books_unmarked : h.unmarked.books = h.books := by
  have counts : h.unmarked.countOf = h.countOf := by
    funext k
    simp only [countOf,kindOf_unmarked]
    rfl
  simp only [books,kindCounts,counts,slotOf_unmarked,kindOf_unmarked]
  rfl

end

/-! ## Changing -/

theorem setObject_unmarked (h : Heap ν) (r : Ref) (o : Object ν) :
    h.unmarked.setObject r o = (h.setObject r o).unmarked := by
  simp only [setObject,unmarked]
  congr 1
  apply Array.ext_getElem?
  intro i
  simp only [Array.getElem?_modify,Array.getElem?_map]
  split
  · cases h.cells[i]? <;> rfl
  · rfl

theorem enroll_unmarked (h : Heap ν) (r : Ref) : h.unmarked.enroll r = (h.enroll r).unmarked := by
  simp only [enroll,unmarked]
  congr 1
  apply Array.ext_getElem?
  intro i
  simp only [Array.getElem?_modify,Array.getElem?_map]
  split
  · cases h.cells[i]? <;> rfl
  · rfl

/-- What an operation gives and leaves behind, without the marks. -/
def withoutMarks {α : Type} : EStateM.Result Failure (Heap ν) α → EStateM.Result Failure (Heap ν) α
  | .ok x h => .ok x h.unmarked
  | .error e h => .error e h.unmarked

/-- An operation goes the same way on the heap without its marks. -/
def Blind {α : Type} (op : HeapM ν α) (h : Heap ν) : Prop :=
  withoutMarks (op h.unmarked) = withoutMarks (op h)

theorem Blind.map {α β : Type} {op : HeapM ν α} {h : Heap ν} (blind : Blind op h) (f : α → β) :
    Blind (f <$> op) h := by
  simp only [Blind,Functor.map,EStateM.map] at blind ⊢
  generalize op h.unmarked = x,op h = y at blind ⊢
  cases x <;> cases y <;> simp_all [withoutMarks]

theorem blind_reading {α : Type} {f : Heap ν → Except Failure α} {h : Heap ν} (blind : f h.unmarked = f h) :
    Blind (reading f) h := by
  simp only [Blind,reading,blind]
  cases f h with
  | ok x => exact congrArg (EStateM.Result.ok x) h.unmarked_unmarked
  | error e => exact congrArg (EStateM.Result.error e) h.unmarked_unmarked

theorem blind_create (o : Object ν) (h : Heap ν) : Blind (create o) h := by
  have size : h.unmarked.cells.size = h.cells.size := by simp [unmarked]
  simp only [Blind,create,withoutMarks,size]
  simp [unmarked,Function.comp_def]

theorem blind_define (r : Ref) (name : String) (x : ν) (h : Heap ν) : Blind (define r name x) h := by
  simp only [Blind,define,environment_unmarked]
  split <;> simp only [withoutMarks,unmarked_unmarked,setObject_unmarked]

theorem blind_assign (r : Ref) (name : String) (x : ν) (h : Heap ν) : Blind (assign r name x) h := by
  simp only [Blind,assign,environment_unmarked]
  split
  · simp only [withoutMarks,unmarked_unmarked]
  · split <;> simp only [withoutMarks,unmarked_unmarked,setObject_unmarked]

theorem blind_assignAt (r : Ref) (distance : Int) (name : String) (x : ν) (h : Heap ν) :
    Blind (assignAt r distance name x) h := by
  simp only [Blind,assignAt,ancestor_unmarked]
  split
  · simp only [withoutMarks,unmarked_unmarked]
  · exact blind_assign _ name x h

theorem blind_setField (r : Ref) (name : String) (x : ν) (h : Heap ν) : Blind (setField r name x) h := by
  simp only [Blind,setField,live_unmarked]
  cases h.live r with
  | error e => simp only [Except.map,withoutMarks,unmarked_unmarked]
  | ok c =>
    simp only [Except.map,Cell.unmark]
    split <;> simp only [withoutMarks,unmarked_unmarked,setObject_unmarked]

theorem blind_enclose (r : Ref) (enclosing : Option Ref) (h : Heap ν) : Blind (enclose r enclosing) h := by
  simp only [Blind,enclose,object?_unmarked]
  split <;> simp only [withoutMarks,unmarked_unmarked,setObject_unmarked]

section
variable [Holder ν] {h : Heap ν}

theorem blind_audit (h : Heap ν) : Blind audit h := by
  simp only [Blind,audit,verify_unmarked]
  have audited : ({ h.unmarked with audits := h.unmarked.audits + 1 } : Heap ν) =
      unmarked { h with audits := h.audits + 1 } := rfl
  split <;> simp only [withoutMarks,audited,unmarked_unmarked]

omit [Holder ν] in
theorem Coherent.unmarked (own : h.Coherent) : h.unmarked.Coherent :=
  own.recolor (recolored_unmarked h) fun r hr => by
    rw [marks,Array.getElem?_map] at hr
    cases hc : h.cells[r.index]? <;> simp [hc,Cell.unmark] at hr

omit [Holder ν] in
/-- What is registered is all that has marks. -/
theorem Coherent.unmarkAll_eq (own : h.Coherent) : h.unmarkAll = h.unmarked := by
  simp only [Heap.unmarked]
  rw [show h.unmarkAll = { h with cells := h.unmarkAll.cells } from rfl]
  congr 1
  exact Array.ext_getElem? fun i => by rw [own.getElem?_unmarkAll,Array.getElem?_map]

/-- A collection sets its own marks and looks at no others. -/
theorem Coherent.collect_unmarked (own : h.Coherent) (roots : List Ref) :
    Heap.collect roots h.unmarked = Heap.collect roots h := by
  have marked : h.unmarked.markFrom roots = h.markFrom roots := by
    rw [Heap.markFrom,Heap.markFrom,own.unmarked.unmarkAll_eq,own.unmarkAll_eq,unmarked_unmarked]
  rw [Heap.collect,Heap.collect,marked]

theorem Coherent.blind_collect (own : h.Coherent) (roots : List Ref) : Blind (Heap.collect roots) h :=
  congrArg withoutMarks (own.collect_unmarked roots)

theorem Coherent.blind_register (own : h.Coherent) (r : Ref) (roots : List Ref) :
    Blind (Heap.register r roots) h := by
  simp only [Blind,Heap.register,getElem?_unmarked]
  cases h.cells[r.index]? with
  | none => simp only [Option.map_none,withoutMarks,unmarked_unmarked]
  | some c =>
    simp only [Option.map_some,Cell.unmark]
    cases c.slot with
    | some slot => simp only [withoutMarks,unmarked_unmarked]
    | none =>
      dsimp only
      rw [show h.unmarked.due = h.due from rfl,own.collect_unmarked]
      split
      · rfl
      · rw [enroll_unmarked]
        exact congrArg (EStateM.Result.ok _) (h.enroll r).unmarked_unmarked

/-- No request sees a mark. -/
theorem Coherent.blind (own : h.Coherent) (q : Request ν) : Blind q.perform h := by
  cases q with
  | create o => exact (blind_create o h).map _
  | register r roots => exact (own.blind_register r roots).map _
  | collect roots => exact (own.blind_collect roots).map _
  | write r o =>
    exact congrArg (EStateM.Result.ok _) (by rw [setObject_unmarked,unmarked_unmarked])
  | enclose r enclosing => exact (blind_enclose r enclosing h).map _
  | define r name x => exact (blind_define r name x h).map _
  | assign r name x => exact (blind_assign r name x h).map _
  | assignAt r distance name x => exact (blind_assignAt r distance name x h).map _
  | setField r name x => exact (blind_setField r name x h).map _
  | audit => exact (blind_audit h).map _
  | check r => exact blind_reading (h.live_unmarked_bind r fun _ => rfl)
  | look r =>
    rw [Request.perform]
    apply blind_reading
    rw [getElem?_unmarked,Option.map_map]
    rfl
  | _ =>
    rw [Request.perform]
    apply blind_reading
    simp

/-- A request is answered the same way for the heap without its marks, and leaves the same behind
but for marks. -/
theorem Coherent.next_unmarked (own : h.Coherent) (q : Request ν) :
    answerOf (q.perform h.unmarked) = answerOf (q.perform h) ∧
      (h.unmarked.next q).unmarked = (h.next q).unmarked := by
  have blind := own.blind q
  simp only [Blind,Heap.next] at blind ⊢
  generalize q.perform h.unmarked = x,q.perform h = y at blind ⊢
  cases x <;> cases y <;> simp_all [answerOf,stateAfter,withoutMarks]

/-- Two heaps that are the same but for marks cannot be told apart by what is asked of them. -/
theorem Coherent.indistinguishable {k : Heap ν} (own : h.Coherent) (other : k.Coherent)
    (same : k.unmarked = h.unmarked) (later : List (Request ν)) :
    k.answers later = h.answers later ∧ (k.after later).unmarked = (h.after later).unmarked := by
  induction later generalizing h k with
  | nil => exact ⟨rfl,same⟩
  | cons q rest ih =>
    obtain ⟨answer,left⟩ := own.next_unmarked q
    obtain ⟨answer',left'⟩ := other.next_unmarked q
    have now : answerOf (q.perform k) = answerOf (q.perform h) := by rw [← answer,← answer',same]
    have then' : (k.next q).unmarked = (h.next q).unmarked := by rw [← left,← left',same]
    obtain ⟨answers,behind⟩ := ih (own.next q) (other.next q) then'
    exact ⟨congrArg₂ List.cons now answers,behind⟩

end

end Heap
end Lox
