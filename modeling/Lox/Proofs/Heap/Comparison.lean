import Lox.Proofs.Ast.Likeness
import Lox.Proofs.Heap.Growth

/-! # Comparison of heaps

A comparison relates two heaps as they are seen from objects that are held. The same operation on
held objects gives the same result on both sides, and leaves heaps that compare. What is needed for
that is asked of a comparison once: objects correspond, what a held object refers to can be
held as well, and writes and allocations keep the relation. In a safe comparison held objects
have not been released, and a lax one lets either side break off when its next threshold is no
integer.
-/
namespace Lox
open Heap

/-- Whether a fault shows that an object was released too early or that a reference is stray. -/
def Fault.isMemory : Fault → Bool
  | released .. | alreadyRegistered .. | strayReachable .. | strayReference .. | noObject => true
  | _ => false

def Failure.isMemory : Failure → Bool
  | fault f => f.isMemory
  | cause _ => false

/-- Cells correspond. Marks are of no account. -/
structure Cell.Alike (P : Pos → Pos → Prop) (c d : Cell Value) : Prop where
  object : Object.Alike P c.object d.object
  slot : d.slot = c.slot
  freed : d.freed = c.freed

namespace Heap

/-- An allocation as one operation on the heap. -/
def place {ν : Type} [Holder ν] (o : Object ν) (roots : List Ref) : HeapM ν Ref := do
  let r ← create o
  let _ ← register r roots
  return r

/-- A failure because the next threshold is no integer. -/
def Spoiled {ν α : Type} : EStateM.Result Failure (Heap ν) α → Prop
  | .ok _ _ => False
  | .error f h => ∃ n, f = .fault (.threshold n) ∧ grownThreshold h.rules h.liveCount = .error n

end Heap

structure Comparison where
  pos : Pos → Pos → Prop
  heaps : List Ref → Heap Value → Heap Value → Prop
  safe : Prop
  lax : Prop
  refl (p) : pos p p
  less {K L h g} : heaps K h g → (∀ r ∈ L, r ∈ K) → heaps L h g
  cell {K h g r} : heaps K h g → r ∈ K →
    Option.Rel (Cell.Alike pos) h.cells[r.index]? g.cells[r.index]?
  live {K h g r} : safe → heaps K h g → r ∈ K → h.isRegistered r
  follow {K h g r} : heaps K h g → r ∈ K → heaps (h.referencesOf r ++ K) h g
  write {K h g r o p} : heaps K h g → r ∈ K → Object.Alike pos o p → (∀ s ∈ o.references, s ∈ K) →
    heaps K (h.setObject r o) (g.setObject r p)
  flush {K h g} : heaps K h g → heaps K { h with journal := [] } { g with journal := [] }
  place {K roots h g o p} : heaps K h g → Object.Alike pos o p → (∀ s ∈ o.references, s ∈ K) →
    (∀ s ∈ roots, s ∈ K) →
    (∃ r h' g', Heap.place o roots h = .ok r h' ∧ Heap.place p roots g = .ok r g' ∧
      heaps (r :: roots) h' g') ∨
    (∃ f h' g', Heap.place o roots h = .error f h' ∧ Heap.place p roots g = .error f g' ∧
      (safe → f.isMemory = false) ∧ heaps roots h' g') ∨
    lax ∧ (Spoiled (Heap.place o roots h) ∨ Spoiled (Heap.place p roots g))

theorem mem_refs_of_mem_set (b : Bindings Value) (name : String) (x : Value) {r : Ref}
    (h : r ∈ (b.set name x).values.flatMap Holder.refs) :
    r ∈ Holder.refs x ∨ r ∈ b.values.flatMap Holder.refs := by
  obtain ⟨y,hy,hr⟩ := List.mem_flatMap.mp h
  rcases b.eq_or_mem_of_mem_values_set name x hy with rfl | hy
  · exact .inl hr
  · exact .inr (List.mem_flatMap.mpr ⟨y,hy,hr⟩)

namespace Comparison
variable (C : Comparison) {α β : Type}

/-- Two readings agree: with the same sort of result, whose references can be held, or with the
same failure. -/
inductive Reads (K : List Ref) (h g : Heap Value) (rel : α → α → Prop) (kept : α → List Ref) :
    Except Failure α → Except Failure α → Prop
  | ok {a b} : rel a b → C.heaps (kept a ++ K) h g → Reads K h g rel kept (.ok a) (.ok b)
  | error {f} : (C.safe → f.isMemory = false) → Reads K h g rel kept (.error f) (.error f)

/-- Two changes of heaps agree: with the same result, or with the same failure. -/
inductive Writes (K : List Ref) : EStateM.Result Failure (Heap Value) Unit →
    EStateM.Result Failure (Heap Value) Unit → Prop
  | ok {h g} : C.heaps K h g → Writes K (.ok () h) (.ok () g)
  | error {f h g} : (C.safe → f.isMemory = false) → C.heaps K h g →
      Writes K (.error f h) (.error f g)

variable {C} {K : List Ref} {h g : Heap Value}

section
variable {rel : α → α → Prop} {rel' : β → β → Prop} {kept : α → List Ref} {kept' : β → List Ref}

theorem Reads.less {L : List Ref} {x y : Except Failure α} (sub : ∀ r ∈ L, r ∈ K)
    (reads : C.Reads K h g rel kept x y) : C.Reads L h g rel kept x y := by
  cases reads with
  | ok ab held =>
    refine .ok ab (C.less held fun r hr => ?_)
    rcases List.mem_append.mp hr with hr | hr
    · exact List.mem_append_left _ hr
    · exact List.mem_append_right _ (sub r hr)
  | error safe => exact .error safe

theorem Reads.eq {x y : Except Failure α} (reads : C.Reads K h g Eq kept x y) : x = y := by
  cases reads with
  | ok same _ => rw [same]
  | error _ => rfl

theorem Reads.bind {x y : Except Failure α} {u v : α → Except Failure β}
    (first : C.Reads K h g rel kept x y)
    (next : ∀ a b, rel a b → C.heaps (kept a ++ K) h g →
      C.Reads (kept a ++ K) h g rel' kept' (u a) (v b)) :
    C.Reads K h g rel' kept' (x >>= u) (y >>= v) := by
  cases first with
  | error safe => exact .error safe
  | ok ab held => exact (next _ _ ab held).less fun r hr => List.mem_append_right _ hr

theorem Reads.pure {a b : α} (ab : rel a b) (held : C.heaps K h g) (sub : ∀ r ∈ kept a, r ∈ K) :
    C.Reads K h g rel kept (pure a) (pure b) :=
  .ok ab (C.less held fun r hr => (List.mem_append.mp hr).elim (sub r) id)

theorem Writes.less {L : List Ref} {x y : EStateM.Result Failure (Heap Value) Unit}
    (sub : ∀ r ∈ L, r ∈ K) (writes : C.Writes K x y) : C.Writes L x y := by
  cases writes with
  | ok held => exact .ok (C.less held sub)
  | error safe held => exact .error safe (C.less held sub)

theorem Reads.map {x y : Except Failure α} (f : α → β)
    (reads : C.Reads K h g Eq (fun _ => []) x y) :
    C.Reads K h g Eq (fun _ => []) (x.map f) (y.map f) := by
  cases reads with
  | ok same held => exact .ok (congrArg f same) held
  | error safe => exact .error safe

theorem Reads.wrongKind : C.Reads K h g rel kept Heap.wrongKind Heap.wrongKind :=
  .error fun _ => rfl

end

section
variable (held : C.heaps K h g)
include held

theorem kindOf_eq {r : Ref} (hr : r ∈ K) : g.kindOf r = h.kindOf r := by
  have like := C.cell held hr
  simp only [kindOf]
  generalize h.cells[r.index]? = c,g.cells[r.index]? = d at like
  cases like with
  | none => rfl
  | some like => exact like.object.kind

theorem object?_rel {r : Ref} (hr : r ∈ K) :
    Option.Rel (Object.Alike C.pos) (h.object? r) (g.object? r) := by
  have like := C.cell held hr
  simp only [object?]
  generalize h.cells[r.index]? = c,g.cells[r.index]? = d at like
  cases like with
  | none => exact .none
  | some like => exact .some like.object

theorem mem_held {r : Ref} {o : Object Value} (hr : r ∈ K) (ho : h.object? r = some o) :
    C.heaps (o.references ++ K) h g := by
  have more := C.follow held hr
  rw [object?,Option.map_eq_some_iff] at ho
  obtain ⟨c,hc,rfl⟩ := ho
  simpa only [referencesOf,hc,Option.map_some,Option.getD_some] using more

theorem reads_live {r : Ref} (hr : r ∈ K) :
    C.Reads K h g (Cell.Alike C.pos) (fun c => c.object.references) (h.live r) (g.live r) := by
  have like := C.cell held hr
  have more := C.follow held hr
  have live := fun safe => C.live safe held hr
  simp only [referencesOf,isRegistered] at more live
  simp only [Heap.live]
  generalize h.cells[r.index]? = c,g.cells[r.index]? = d at like more live
  cases like with
  | none => exact .error fun safe => absurd (live safe) Bool.false_ne_true
  | @some c d like =>
    dsimp only
    rw [like.freed,like.slot,like.object.kind]
    cases freed : c.freed with
    | true =>
      refine .error fun safe => absurd (live safe) ?_
      simp [Cell.isRegistered,freed]
    | false => exact .ok like more

/-! ## Environments -/

theorem reads_environment {r : Ref} (hr : r ∈ K) :
    C.Reads K h g Eq (fun e => (Object.environment e.1 e.2).references)
      (h.environment r) (g.environment r) := by
  refine (reads_live held hr).bind fun c d like more => ?_
  obtain ⟨like,-,-⟩ := like
  generalize c.object = o,d.object = p at like more
  cases like with
  | function _ => exact .wrongKind
  | same =>
    cases o with
    | environment values enclosing =>
      exact .pure rfl more fun r hr => List.mem_append_left _ hr
    | _ => exact .wrongKind

theorem reads_lookup {r : Ref} (hr : r ∈ K) (name : String) :
    C.Reads K h g Eq Holder.refs (h.lookup r name) (g.lookup r name) := by
  refine (reads_environment held hr).bind fun a b same more => ?_
  subst same
  dsimp only
  cases e : a.1.get? name with
  | none => exact .error fun _ => rfl
  | some x =>
    refine .pure rfl more fun r hr => List.mem_append_left _ (List.mem_append_right _ ?_)
    exact List.mem_flatMap.mpr ⟨x,a.1.mem_values_of_get? e,hr⟩

theorem reads_hop (distance : Int) (hops : Nat) {r : Ref} (hr : r ∈ K) :
    C.Reads K h g Eq (fun r => [r]) (h.hop distance hops r) (g.hop distance hops r) := by
  induction hops generalizing r K with
  | zero =>
    refine (reads_live held hr).bind fun _ _ _ more => ?_
    exact .pure rfl more fun s hs => List.mem_append_right _ (by simp_all)
  | succ hops ih =>
    refine (reads_environment held hr).bind fun a b same more => ?_
    subst same
    obtain ⟨values,enclosing⟩ := a
    cases enclosing with
    | none => exact .error fun _ => rfl
    | some r => exact ih more (by simp [Object.references])

theorem reads_lookupAt {r : Ref} (hr : r ∈ K) (distance : Int) (name : String) :
    C.Reads K h g Eq Holder.refs (h.lookupAt r distance name) (g.lookupAt r distance name) := by
  refine (reads_hop held distance distance.toNat hr).bind fun r _ same more => ?_
  subst same
  refine (reads_environment more (by simp)).bind fun a b same more => ?_
  subst same
  dsimp only
  cases e : a.1.get? name with
  | none => exact .error fun _ => rfl
  | some x =>
    refine .pure rfl more fun r hr => List.mem_append_left _ (List.mem_append_right _ ?_)
    exact List.mem_flatMap.mpr ⟨x,a.1.mem_values_of_get? e,hr⟩

/-! ## Functions, classes and instances -/

theorem reads_function {r : Ref} (hr : r ∈ K) :
    C.Reads K h g (fun a b => RoutineAlike C.pos a.1 b.1 ∧ b.2 = a.2) (fun a => a.2.toList)
      (h.function r) (g.function r) := by
  refine (reads_live held hr).bind fun c d like more => ?_
  obtain ⟨like,-,-⟩ := like
  generalize c.object = o,d.object = p at like more
  cases like with
  | function like =>
    exact .pure ⟨like,rfl⟩ more fun r hr => List.mem_append_left _ hr
  | same =>
    cases o with
    | function routine closure =>
      exact .pure ⟨.refl C.refl routine,rfl⟩ more fun r hr => List.mem_append_left _ hr
    | _ => exact .wrongKind

theorem reads_routine {r : Ref} (hr : r ∈ K) :
    C.Reads K h g (RoutineAlike C.pos) (fun _ => []) (h.routine r) (g.routine r) := by
  have like := object?_rel held hr
  simp only [routine]
  generalize h.object? r = o,g.object? r = p at like
  cases like with
  | none => exact .wrongKind
  | @some o _ like =>
    cases like with
    | function like => exact .ok like held
    | same =>
      cases o with
      | function routine _ => exact .ok (.refl C.refl routine) held
      | _ => exact .wrongKind

omit held in
theorem findMethod_eq (h : Heap Value) (r : Ref) (name : String) : h.findMethod r name = (do
    match (← h.live r).object with
    | .klass _ superclass methods =>
      match methods.get? name, superclass with
      | some m, _ => return some m
      | none, none => return none
      | none, some s => if s.index < r.index then h.findMethod s name else .error (.fault .classOrder)
    | _ => wrongKind) := by
  rw [findMethod]
  cases h.live r with
  | error f => rfl
  | ok c =>
    simp only [Bind.bind,Except.bind]
    cases c.object <;> rfl

theorem reads_findMethod {r : Ref} (hr : r ∈ K) (name : String) :
    C.Reads K h g Eq Option.toList (h.findMethod r name) (g.findMethod r name) := by
  induction hn : r.index using Nat.strongRecOn generalizing r K with
  | ind n ih =>
    rw [findMethod_eq h,findMethod_eq g]
    refine (reads_live held hr).bind fun c d like more => ?_
    obtain ⟨like,-,-⟩ := like
    generalize c.object = o,d.object = p at like more
    cases like with
    | function _ => exact .wrongKind
    | same =>
      cases o with
      | klass _ superclass methods =>
        dsimp only
        cases e : methods.get? name with
        | some m =>
          refine .pure rfl more fun s hs => List.mem_append_left _ (List.mem_append_right _ ?_)
          obtain rfl : s = m := by simpa using hs
          exact methods.mem_values_of_get? e
        | none =>
          cases superclass with
          | none => exact .pure rfl more fun s hs => absurd hs (by simp)
          | some s =>
            dsimp only
            split
            · next lt => exact ih s.index (hn ▸ lt) more (by simp [Object.references]) rfl
            · exact .error fun _ => rfl
      | _ => exact .wrongKind

/-- The object that a property keeps alive. -/
def propertyRefs : Property Value → List Ref
  | .field x => Holder.refs x
  | .method f => [f]

theorem reads_property {r : Ref} (hr : r ∈ K) (name : String) :
    C.Reads K h g Eq propertyRefs (h.property r name) (g.property r name) := by
  refine (reads_live held hr).bind fun c d like more => ?_
  obtain ⟨like,-,-⟩ := like
  generalize c.object = o,d.object = p at like more
  cases like with
  | function _ => exact .wrongKind
  | same =>
    cases o with
    | instanceOf base fields =>
      dsimp only
      cases e : fields.get? name with
      | some x =>
        refine .pure rfl more fun s hs => List.mem_append_left _ (List.mem_append_right _ ?_)
        exact List.mem_flatMap.mpr ⟨x,fields.mem_values_of_get? e,hs⟩
      | none =>
        cases base with
        | none => exact .wrongKind
        | some c =>
          refine (reads_findMethod more (by simp [Object.references]) name).bind ?_
          intro m _ same more
          subst same
          cases m with
          | none => exact .error fun _ => rfl
          | some m => exact .pure rfl more (by simp [propertyRefs])
    | _ => exact .wrongKind

theorem reads_arity {r : Ref} (hr : r ∈ K) :
    C.Reads K h g Eq (fun _ => []) (h.arity r) (g.arity r) := by
  have routine : C.Reads K h g Eq (fun _ => []) (do return (← h.routine r).arity)
      (do return (← g.routine r).arity) :=
    (reads_routine held hr).bind fun a b like more => .pure like.arity.symm more (by simp)
  simp only [arity,kindOf_eq held hr]
  cases h.kindOf r with
  | klass =>
    refine (reads_findMethod held hr "init").bind fun m _ same more => ?_
    subst same
    cases m with
    | none => exact .pure rfl more (by simp)
    | some m =>
      exact (reads_routine more (by simp)).bind fun a b like more =>
        .pure like.arity.symm more (by simp)
  | _ => exact routine

/-! ## Texts -/

theorem reads_declaredName {r : Ref} (hr : r ∈ K) :
    C.Reads K h g Eq (fun _ => []) (h.declaredName r) (g.declaredName r) := by
  have like := object?_rel held hr
  simp only [declaredName]
  generalize h.object? r = o,g.object? r = p at like
  cases like with
  | none => exact .wrongKind
  | @some o _ like =>
    cases like with
    | function like => exact .ok (by rw [like.name.text]) held
    | same =>
      cases o with
      | function _ _ | klass _ _ _ => exact .ok rfl held
      | _ => exact .wrongKind

theorem reads_inspect {r : Ref} (hr : r ∈ K) :
    C.Reads K h g Eq (fun _ => []) (h.inspect r) (g.inspect r) := by
  have like := object?_rel held hr
  have more := fun o => mem_held held hr (o := o)
  simp only [inspect]
  generalize h.object? r = o,g.object? r = p at like more
  cases like with
  | none => exact .wrongKind
  | @some o _ like =>
    cases like with
    | function like => exact .ok (by rw [like.name.text]) held
    | same =>
      cases o with
      | function _ _ | klass _ _ _ => exact .ok rfl held
      | plain | environment _ _ => exact .wrongKind
      | instanceOf base fields =>
        cases base with
        | none => exact .wrongKind
        | some c =>
          have name := reads_declaredName (more _ rfl) (r := c) (by simp [Object.references])
          exact (name.map _).less fun s hs => List.mem_append_right _ hs

/-! ## Values -/

theorem reads_inspect_value {x : Value} (hx : ∀ r ∈ Holder.refs x, r ∈ K) :
    C.Reads K h g Eq (fun _ => []) (x.inspect h) (x.inspect g) := by
  cases x with
  | object r => exact reads_inspect held (hx r (by simp [Holder.refs]))
  | bound f r => exact reads_inspect held (hx f (by simp [Holder.refs]))
  | bool b => cases b <;> exact .ok rfl held
  | _ => exact .ok rfl held

theorem reads_arity_value {x : Value} (hx : ∀ r ∈ Holder.refs x, r ∈ K) :
    C.Reads K h g Eq (fun _ => []) (x.arity h) (x.arity g) := by
  cases x with
  | object r => exact reads_arity held (hx r (by simp [Holder.refs]))
  | bound f r => exact reads_arity held (hx f (by simp [Holder.refs]))
  | native f => exact .ok rfl held
  | _ => exact .wrongKind

theorem isCallable_eq {x : Value} (hx : ∀ r ∈ Holder.refs x, r ∈ K) :
    x.isCallable g = x.isCallable h := by
  cases x with
  | object r => rw [Value.isCallable,Value.isCallable,kindOf_eq held (hx r (by simp [Holder.refs]))]
  | _ => rfl

/-! ## Writes -/

omit held in
theorem write_environment {r : Ref} {values : Bindings Value} {enclosing : Option Ref} (hr : r ∈ K)
    (more : C.heaps ((Object.environment values enclosing).references ++ K) h g) (name : String)
    {x : Value} (hx : ∀ s ∈ Holder.refs x, s ∈ K) :
    C.heaps K (h.setObject r (.environment (values.set name x) enclosing))
      (g.setObject r (.environment (values.set name x) enclosing)) := by
  refine C.less (C.write more (List.mem_append_right _ hr) (.same _) ?_) ?_
  · intro s hs
    rcases List.mem_append.mp hs with hs | hs
    · exact List.mem_append_left _ (List.mem_append_left _ hs)
    · rcases mem_refs_of_mem_set values name x hs with hs | hs
      · exact List.mem_append_right _ (hx s hs)
      · exact List.mem_append_left _ (List.mem_append_right _ hs)
  · exact fun s hs => List.mem_append_right _ hs

theorem writes_define {r : Ref} (hr : r ∈ K) (name : String) {x : Value}
    (hx : ∀ s ∈ Holder.refs x, s ∈ K) :
    C.Writes K (define r name x h) (define r name x g) := by
  have reads := reads_environment held hr
  simp only [define]
  generalize h.environment r = a,g.environment r = b at reads
  cases reads with
  | error safe => exact .error safe held
  | ok same more =>
    subst same
    exact .ok (write_environment hr more name hx)

theorem writes_assign {r : Ref} (hr : r ∈ K) (name : String) {x : Value}
    (hx : ∀ s ∈ Holder.refs x, s ∈ K) :
    C.Writes K (assign r name x h) (assign r name x g) := by
  have reads := reads_environment held hr
  simp only [assign]
  generalize h.environment r = a,g.environment r = b at reads
  cases reads with
  | error safe => exact .error safe held
  | ok same more =>
    subst same
    dsimp only
    split
    · exact .ok (write_environment hr more name hx)
    · exact .error (fun _ => rfl) held

theorem writes_assignAt {r : Ref} (hr : r ∈ K) (distance : Int) (name : String) {x : Value}
    (hx : ∀ s ∈ Holder.refs x, s ∈ K) :
    C.Writes K (assignAt r distance name x h) (assignAt r distance name x g) := by
  have reads := reads_hop held distance distance.toNat hr
  simp only [assignAt,ancestor]
  generalize h.hop distance distance.toNat r = a,g.hop distance distance.toNat r = b at reads
  cases reads with
  | error safe => exact .error safe held
  | ok same more =>
    subst same
    refine (writes_assign more List.mem_cons_self name fun s hs => ?_).less fun s hs => ?_
    · exact List.mem_append_right _ (hx s hs)
    · exact List.mem_append_right _ hs

theorem writes_setField {r : Ref} (hr : r ∈ K) (name : String) {x : Value}
    (hx : ∀ s ∈ Holder.refs x, s ∈ K) :
    C.Writes K (setField r name x h) (setField r name x g) := by
  have reads := reads_live held hr
  simp only [setField]
  generalize h.live r = a,g.live r = b at reads
  cases reads with
  | error safe => exact .error safe held
  | @ok c d like more =>
    obtain ⟨like,-,-⟩ := like
    dsimp only
    generalize c.object = o,d.object = p at like more
    cases like with
    | function _ => exact .error (fun _ => rfl) held
    | same =>
      cases o with
      | instanceOf base fields =>
        refine .ok (C.less (C.write more (List.mem_append_right _ hr) (.same _) ?_) ?_)
        · intro s hs
          rcases List.mem_append.mp hs with hs | hs
          · exact List.mem_append_left _ (List.mem_append_left _ hs)
          · rcases mem_refs_of_mem_set fields name x hs with hs | hs
            · exact List.mem_append_right _ (hx s hs)
            · exact List.mem_append_left _ (List.mem_append_right _ hs)
        · exact fun s hs => List.mem_append_right _ hs
      | _ => exact .error (fun _ => rfl) held

end

end Comparison
end Lox
