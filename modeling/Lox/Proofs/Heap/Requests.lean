import Lox.Proofs.Heap.Growth

/-! # Requests

All that can be asked of a heap and of its objects, with what is answered. A request may be refused
and may put any contents in any object; what it leaves behind is a heap whose books are in order.
-/
namespace Lox

/-- What an operation gives, whatever state it leaves. -/
def answerOf {ε σ α : Type} : EStateM.Result ε σ α → Except ε α
  | .ok x _ => .ok x
  | .error e _ => .error e

namespace Heap
variable {ν : Type}

/-- How many objects a collection has released in all, if an event is its end. -/
def Event.released? : Event → Option Nat
  | cycle _ freed _ _ => some freed
  | release .. => none

/-- How many objects each completed collection has released, the first one first. -/
def cycles (h : Heap ν) : List Nat := h.journal.reverse.filterMap Event.released?

/-- What a heap tells about itself. -/
structure Books where
  live : Nat
  kinds : List (ObjectKind × Nat)
  peakLive : Nat
  allocated : Nat
  freed : Nat
  collections : Nat
  lastFreed : Nat
  nextThreshold : Nat
  stress : Bool
  audits : Nat
  cycles : List Nat
  /-- The registered objects with their slots and kinds, in the order of the heap's list. -/
  listing : List (Ref × Option Nat × ObjectKind)

def books (h : Heap ν) : Books where
  live := h.liveCount
  kinds := h.kindCounts
  peakLive := h.peakLive
  allocated := h.allocated
  freed := h.freed
  collections := h.collections
  lastFreed := h.lastFreed
  nextThreshold := h.nextThreshold
  stress := h.rules.stress
  audits := h.audits
  cycles := h.cycles
  listing := h.registered.toList.map fun r => (r,h.slotOf r,h.kindOf r)

inductive Request (ν : Type)
  | create (o : Object ν)
  | register (r : Ref) (roots : List Ref)
  | collect (roots : List Ref)
  /-- Puts contents in an object without any check. -/
  | write (r : Ref) (o : Object ν)
  | enclose (r : Ref) (enclosing : Option Ref)
  | define (r : Ref) (name : String) (x : ν)
  | assign (r : Ref) (name : String) (x : ν)
  | assignAt (r : Ref) (distance : Int) (name : String) (x : ν)
  | setField (r : Ref) (name : String) (x : ν)
  | lookup (r : Ref) (name : String)
  | lookupAt (r : Ref) (distance : Int) (name : String)
  | ancestor (r : Ref) (distance : Int)
  | findMethod (r : Ref) (name : String)
  | property (r : Ref) (name : String)
  | arity (r : Ref)
  | inspect (r : Ref)
  | environmentText (r : Ref)
  /-- Whether an object has been released. -/
  | check (r : Ref)
  | isRegistered (r : Ref)
  /-- All there is to an object but its mark. -/
  | look (r : Ref)
  | verify
  | audit
  | books

inductive Answer (ν : Type)
  | done
  | made (r : Ref)
  | slot (n : Nat)
  | released (n : Nat)
  | value (x : ν)
  | environment (r : Ref)
  | method (r : Option Ref)
  | property (p : Property ν)
  | arity (n : Nat)
  | text (s : String)
  | holds (b : Bool)
  | cell (c : Option (Object ν × Option Nat × Bool))
  | verdict (f : Option Fault)
  | books (b : Books)

def Request.perform [Holder ν] : Request ν → HeapM ν (Answer ν)
  | create o => .made <$> Heap.create o
  | register r roots => .slot <$> Heap.register r roots
  | collect roots => .released <$> Heap.collect roots
  | write r o => fun h => .ok .done (h.setObject r o)
  | enclose r enclosing => (fun _ => .done) <$> Heap.enclose r enclosing
  | define r name x => (fun _ => .done) <$> Heap.define r name x
  | assign r name x => (fun _ => .done) <$> Heap.assign r name x
  | assignAt r distance name x => (fun _ => .done) <$> Heap.assignAt r distance name x
  | setField r name x => (fun _ => .done) <$> Heap.setField r name x
  | lookup r name => reading fun h => .value <$> h.lookup r name
  | lookupAt r distance name => reading fun h => .value <$> h.lookupAt r distance name
  | ancestor r distance => reading fun h => .environment <$> h.ancestor r distance
  | findMethod r name => reading fun h => .method <$> h.findMethod r name
  | property r name => reading fun h => .property <$> h.property r name
  | arity r => reading fun h => .arity <$> h.arity r
  | inspect r => reading fun h => .text <$> h.inspect r
  | environmentText r => reading fun h => .text <$> h.environmentText r
  | check r => reading fun h => (fun _ => .done) <$> h.live r
  | isRegistered r => reading fun h => .ok (.holds (h.isRegistered r))
  | look r => reading fun h => .ok (.cell (h.cells[r.index]?.map fun c => (c.object,c.slot,c.freed)))
  | verify => reading fun h => .ok (.verdict h.verify)
  | audit => (fun _ => .done) <$> Heap.audit
  | books => reading fun h => .ok (.books h.books)

section
variable [Holder ν]

/-- The heap that a request leaves behind, also when it is refused. -/
def next (h : Heap ν) (q : Request ν) : Heap ν := stateAfter (q.perform h)

/-- The heap behind a history of requests. -/
def after (h : Heap ν) (history : List (Request ν)) : Heap ν := history.foldl next h

/-- What is answered to the requests of a history. -/
def answers (h : Heap ν) : List (Request ν) → List (Except Failure (Answer ν))
  | [] => []
  | q :: rest => answerOf (q.perform h) :: (h.next q).answers rest

/-- The heaps that requests make of an empty one. -/
def Made (h : Heap ν) : Prop :=
  ∃ (rules : Rules) (history : List (Request ν)), h = after { rules } history

end

theorem stateAfter_map {ε σ α β : Type} (f : α → β) (op : EStateM ε σ α) (s : σ) :
    stateAfter ((f <$> op) s) = stateAfter (op s) := by
  simp only [Functor.map,EStateM.map]
  cases op s <;> rfl

theorem answerOf_map {ε σ α β : Type} (f : α → β) (op : EStateM ε σ α) (s : σ) :
    answerOf ((f <$> op) s) = f <$> answerOf (op s) := by
  simp only [Functor.map,EStateM.map]
  cases op s <;> rfl

theorem stateAfter_reading {α : Type} (f : Heap ν → Except Failure α) (h : Heap ν) :
    stateAfter (reading f h) = h := by
  simp only [reading]
  split <;> rfl

/-! ## What a request changes -/

variable [Holder ν]

/-- Of all requests five kinds change anything but contents. -/
theorem next_cases {P : Heap ν → Prop} (h : Heap ν) (q : Request ν)
    (create : ∀ o, q = .create o → P (stateAfter (Heap.create o h)))
    (register : ∀ r roots, q = .register r roots → P (stateAfter (Heap.register r roots h)))
    (collect : ∀ roots, q = .collect roots → P (stateAfter (Heap.collect roots h)))
    (audit : P (stateAfter (Heap.audit h)))
    (rewrite : ∀ k, Rewrites h k → P k) : P (h.next q) := by
  cases q with
  | create o => simpa only [next,Request.perform,stateAfter_map] using create o rfl
  | register r roots => simpa only [next,Request.perform,stateAfter_map] using register r roots rfl
  | collect roots => simpa only [next,Request.perform,stateAfter_map] using collect roots rfl
  | audit => simpa only [next,Request.perform,stateAfter_map] using audit
  | write r o => exact rewrite _ (.inr ⟨r,o,rfl⟩)
  | enclose r enclosing =>
    simpa only [next,Request.perform,stateAfter_map] using rewrite _ (rewrites_enclose r enclosing h)
  | define r name x =>
    simpa only [next,Request.perform,stateAfter_map] using rewrite _ (rewrites_define r name x h)
  | assign r name x =>
    simpa only [next,Request.perform,stateAfter_map] using rewrite _ (rewrites_assign r name x h)
  | assignAt r distance name x =>
    simpa only [next,Request.perform,stateAfter_map] using
      rewrite _ (rewrites_assignAt r distance name x h)
  | setField r name x =>
    simpa only [next,Request.perform,stateAfter_map] using rewrite _ (rewrites_setField r name x h)
  | _ => simpa only [next,Request.perform,stateAfter_reading] using rewrite _ (.inl rfl)

theorem Coherent.audit {h : Heap ν} (own : h.Coherent) : (stateAfter (Heap.audit h)).Coherent := by
  simp only [Heap.audit]
  cases h.verify <;> exact own.congr rfl rfl

theorem Coherent.next {h : Heap ν} (own : h.Coherent) (q : Request ν) : (h.next q).Coherent := by
  apply next_cases (P := Coherent) h q
  · exact fun o _ => own.create o
  · exact fun r roots _ => own.register r roots
  · exact fun roots _ => own.collect roots
  · exact own.audit
  · rintro k (rfl | ⟨r,o,rfl⟩)
    · exact own
    · exact own.setObject r o

theorem Coherent.after {h : Heap ν} (own : h.Coherent) (history : List (Request ν)) :
    (h.after history).Coherent := by
  induction history generalizing h with
  | nil => exact own
  | cons q rest ih => exact ih (own.next q)

theorem Made.coherent {h : Heap ν} (made : h.Made) : h.Coherent := by
  obtain ⟨rules,history,rfl⟩ := made
  exact (coherent_empty rules).after history

end Heap
end Lox
