import Lox.Proofs.Eval.Keeping
import Lox.Proofs.Heap.Released
import Lox.Proofs.Machine.Twins

/-! # Calls of released objects

An object that has been released stays so, whatever is asked of the heap and whatever is evaluated. A call
that needs it is refused before anything else happens, and a class whose initializer it stands in the way of
cannot even be asked for the number of its arguments.
-/
namespace Lox
open Machine Exec

/-! ## Released for ever -/

/-- An invariant that no change of contents concerns is kept by all operations. -/
theorem stays_of_contents {I : Heap Value → Prop} {ready : Task → Prop} {apt : Task → Machine → Prop}
    (stable : Heap.Stable I) (create : ∀ (o : Object Value) {h : Heap Value}, I h →
      I (stateAfter (Heap.create o h)))
    (write : ∀ (r : Ref) (o : Object Value) {h : Heap Value}, I h → I (h.setObject r o)) :
    Stays I ready apt := by
  have q := quiet_keeps I (evaluator 0)
  have bindable : ∀ name, Heap.Bindable I name := fun _ _ _ _ _ _ _ => write _ _
  have binding : ∀ enclosing name x, Keeps I (evaluator 0) fun _ => (do
      let env ← newEnvironment enclosing
      define env name x
      return env : Exec Ref) := fun enclosing name x =>
    (stable.allocate fun _ => create _).bind fun env =>
      (keeps_define (bindable name) env x).bind fun _ => q.pure env
  refine
    { tidied := stable
      environment := fun _ => create _
      instanceOf := fun _ _ => create _
      field := fun _ _ _ _ => write _ _
      receiver := fun closure r _ => (binding closure "this" (.object r)).state
      var := fun _ => bindable _
      assigned := fun _ => bindable _
      parameter := fun _ _ => bindable _
      function := fun _ => ⟨bindable _,fun _ _ => create _⟩
      declared := fun {name superclass rs m} _ _ => ?_ }
  have closure : Keeps I (evaluator 0) fun _ => methodEnvironment superclass := by
    refine q.currentEnvironment.bind fun env => ?_
    cases superclass with
    | none => exact q.pure env
    | some c =>
      exact (stable.allocate fun _ => create _).bind fun inner =>
        (keeps_define (bindable "super") inner _).bind fun _ => (q.keep _).bind fun _ => q.pure inner
  exact (closure.bind fun env => (stable.newMethods (fun _ _ _ => create _) {}).bind fun _ =>
    (stable.allocate fun _ => create _).bind fun _ =>
    q.currentEnvironment.bind fun env => keeps_define (bindable name.text) env _).state

namespace Heap
variable {h : Heap Value} {r : Ref}

theorem isFreed_create (o : Object Value) (gone : h.isFreed r) : (stateAfter (create o h)).isFreed r := by
  simpa only [next,Request.perform,stateAfter_map] using isFreed_next gone (.create o)

end Heap

/-- Whatever is evaluated, a released object stays released. -/
theorem kept_freed (r : Ref) : Kept (fun h => h.isFreed r) (fun _ => True) fun _ _ => True where
  toStays := stays_of_contents (fun _ _ tidied => tidied.isFreed) (fun o _ => Heap.isFreed_create o)
    fun s o _ gone => Heap.isFreed_next gone (.write s o)
  gives _ _ _ := trivial
  asked _ _ _ _ := trivial

/-! ## Calls -/

section
variable {m : Machine} {r : Ref}

/-- A value that is called through an object: the object itself, or a method that is the object bound. -/
inductive Value.Through (r : Ref) : Value → Prop
  | object : Through r (.object r)
  | bound (receiver : Ref) : Through r (.bound r receiver)

theorem callFunction_released (gone : m.heap.isFreed r) (n : Nat) (xs : List Value) :
    callFunction (n + 1) r xs m = .error ((m.heap.refusal r).halt .start) m := by
  simp only [callFunction,Bind.bind,EStateM.bind,reading,Heap.function_of_isFreed gone]

theorem callBound_released (gone : m.heap.isFreed r) (n : Nat) (receiver : Ref) (xs : List Value) :
    callBound (n + 1) r receiver xs m = .error ((m.heap.refusal r).halt .start) m := by
  simp only [callBound,Bind.bind,EStateM.bind,reading,Heap.function_of_isFreed gone]

theorem instantiate_released (gone : m.heap.isFreed r) (n : Nat) (xs : List Value) :
    instantiate (n + 1) r xs m = .error ((m.heap.refusal r).halt .start) m := by
  simp only [instantiate,Bind.bind,EStateM.bind,reading,Heap.live_of_isFreed gone]

/-- A call through a released object is refused before anything else happens. -/
theorem call_released (gone : m.heap.isFreed r) {f : Value} (through : f.Through r) (n : Nat)
    (xs : List Value) : call (n + 2) f xs m = .error ((m.heap.refusal r).halt .start) m := by
  cases through with
  | bound receiver => exact callBound_released gone n receiver xs
  | object =>
    show (if m.heap.kindOf r = .klass then instantiate (n + 1) r xs m else callFunction (n + 1) r xs m) = _
    split
    · exact instantiate_released gone n xs
    · exact callFunction_released gone n xs

/-- Before a class is called it is asked for its arity, and that is already refused. -/
theorem checkCall_released (gone : m.heap.isFreed r) {c : Ref} (kind : m.heap.kindOf c = .klass)
    (way : m.heap.Ascends "init" c r) (pos : Pos) (count : Nat) :
    checkCall pos (.object c) count m = .error ((m.heap.refusal r).halt pos) m := by
  have callable : Value.isCallable m.heap (.object c) := by simp [Value.isCallable,kind]
  have arity : Value.arity m.heap (.object c) = .error (m.heap.refusal r) := way.arity_refused gone kind
  simp only [checkCall,callable,if_true,arity]

/-! ## Instances of classes that cannot be searched -/

/-- What a call leaves of a heap if it breaks off for want of an initializer: no object has changed. -/
def Heap.Spared (h k : Heap Value) : Prop := ∀ s : Ref, s.index < h.cells.size → Heap.Untouched h k s

/-- A class can be made an instance of although its initializer cannot be found. If the heap has to be collected
for the instance, the collection is led astray; otherwise the search is refused behind the new instance. -/
theorem instantiate_unsearchable (own : m.heap.Coherent) (gone : m.heap.isFreed r) {c : Ref}
    (way : m.heap.Ascends "init" c r) (other : c ≠ r) (n : Nat) (xs : List Value) :
    ∃ f k, instantiate (n + 1) c xs m = .error (.fault f) k ∧ m.heap.Spared k.heap ∧
      (m.heap.due ∧ f.isCorruption ∨ ¬m.heap.due ∧ .fault f = m.heap.refusal r) := by
  obtain ⟨cell,live⟩ : ∃ cell, m.heap.live c = .ok cell := by
    cases way with
    | here => exact absurd rfl other
    | up live => exact ⟨_,live⟩
  simp only [instantiate,Bind.bind,EStateM.bind,reading,live,allocate_eq]
  cases due : m.heap.due with
  | true =>
    have strays : m.heap.Strays (m.roots ++ (Object.instanceOf (some c) {} : Object Value).references) :=
      way.strays gone (.root (List.mem_append_right _ (List.mem_cons_self)))
    obtain ⟨f,k,failed,corrupt,same⟩ := own.place_stray due strays
    simp only [failed]
    exact ⟨f,_,rfl,by rw [logJournal_eq]; exact same,.inl ⟨trivial,corrupt⟩⟩
  | false =>
    have inside := Heap.inside_of_isFreed gone
    simp only [Heap.place_of_not_due due]
    have old : ∀ i < m.heap.cells.size,
        (logJournal { m with heap := m.heap.placed (.instanceOf (some c) {}) }).heap.cells[i]? =
          m.heap.cells[i]? := by
      intro i hi
      rw [logJournal_eq]
      exact Heap.getElem?_placed_of_ne _ _ (Nat.ne_of_lt hi)
    generalize logJournal { m with heap := m.heap.placed (.instanceOf (some c) {}) } = k at old ⊢
    have released : k.heap.isFreed r := by rwa [Heap.isFreed_of_cells (old r.index inside)]
    have search : k.heap.Ascends "init" c r := by
      refine way.mono fun {s cell} live => ?_
      have there := (Array.getElem?_eq_some_iff.mp (Heap.live_eq_ok live).1).1
      simp only [Heap.live] at live ⊢
      rwa [old s.index there]
    simp only [search.findMethod_refused released,Heap.refusal_of_cells (old r.index inside)]
    exact ⟨_,k,rfl,fun s hs => Heap.Untouched.of_cell (old s.index hs),.inr ⟨Bool.false_ne_true,rfl⟩⟩

end

/-! ## Refusal -/

/-- Whoever uses an object is refused for its sake, and changes nothing. -/
structure Heap.Refuses (h : Heap Value) (r : Ref) : Prop where
  requests : ∀ q, h.Uses r q → q.perform h = .error (h.refusal r) h
  calls : ∀ m : Machine, m.heap = h → ∀ f : Value, f.Through r → ∀ n xs,
    call (n + 2) f xs m = .error ((h.refusal r).halt .start) m
  /-- A call of a class whose initializer cannot be found is not entered. -/
  checks : ∀ m : Machine, m.heap = h → ∀ c, h.kindOf c = .klass → h.Ascends "init" c r → ∀ pos count,
    checkCall pos (.object c) count m = .error ((h.refusal r).halt pos) m

theorem Heap.refuses_of_isFreed {h : Heap Value} {r : Ref} (gone : h.isFreed r) : h.Refuses r where
  requests _ uses := uses.refused gone
  calls m same f through n xs := by
    subst same
    exact call_released gone through n xs
  checks m same c kind way pos count := by
    subst same
    exact checkCall_released gone kind way pos count

/-- A released object refuses all use, in every state behind its release: each request that needs it, also
because it is met on the way, each call, and each check of a call. A class that is made an instance of without
such a check changes no object either, but may be refused by a collection. The one operation that does not look
whether its object has been released is printing: an instance without its class fails there for another
reason. -/
theorem released_refuses {h : Heap Value} (made : h.Made) {r : Ref} (gone : h.isFreed r) :
    (∀ later : List (Heap.Request Value), let k := h.after later
      (k.isFreed r ∧ ¬k.isRegistered r ∧ k.Refuses r) ∧
      (∀ m : Machine, m.heap = k → ∀ c, k.Ascends "init" c r → c ≠ r → ∀ n xs,
        ∃ f l, instantiate (n + 1) c xs m = .error (.fault f) l ∧ k.Spared l.heap ∧
          (k.due ∧ f.isCorruption ∨ ¬k.due ∧ .fault f = k.refusal r)) ∧
      ∀ fields, k.object? r = some (.instanceOf none fields) →
        (Heap.Request.inspect r).perform k = .error (.fault .wrongKind) k) ∧
    ∀ (m : Machine), m.heap = h → ∀ (n : Nat) (t : Task), let k := (stateAfter (evaluator n t m)).heap
      k.isFreed r ∧ k.Refuses r := by
  refine ⟨fun later => ?_,fun m same n t => ?_⟩
  · have still := Heap.isFreed_after gone later
    refine ⟨⟨still,Heap.not_isRegistered_of_isFreed still,Heap.refuses_of_isFreed still⟩,?_,?_⟩
    · rintro m same c way other n xs
      have own : m.heap.Coherent := same ▸ made.coherent.after later
      rw [← same] at still way ⊢
      exact instantiate_unsearchable own still way other n xs
    · intro fields emptied
      exact Heap.reading_map_error (f := (·.inspect r)) _ (Heap.inspect_emptied emptied)
  · have still := (kept_freed r).stays n (t := t) trivial trivial (same ▸ gone)
    exact ⟨still,Heap.refuses_of_isFreed still⟩

/-- A class whose superclass is released while it waits for its own registration, with an instance, and an
environment inside a released one. -/
def bereft : Heap Value :=
  Heap.after {}
    [.create (.klass "A" none {}),.register ⟨0⟩ [],.create (.klass "B" (some ⟨0⟩) {}),
      .create (.instanceOf (some ⟨1⟩) {}),.create (.environment {} none),.register ⟨3⟩ [],
      .create (.environment {} (some ⟨3⟩)),.collect []]

theorem released_refuses_bereft :
    bereft.Made ∧ bereft.isFreed ⟨0⟩ ∧ bereft.isFreed ⟨3⟩ ∧
    (Heap.Request.property ⟨2⟩ "m").perform bereft = .error (.fault (.released .klass (some 1))) bereft ∧
    (Heap.Request.arity ⟨1⟩).perform bereft = .error (.fault (.released .klass (some 1))) bereft ∧
    (Heap.Request.lookupAt ⟨4⟩ 1 "x").perform bereft =
      .error (.fault (.released .environment (some 2))) bereft := by
  have made : bereft.Made := ⟨_,_,rfl⟩
  have class_gone : bereft.isFreed ⟨0⟩ := by decide +kernel
  have environment_gone : bereft.isFreed ⟨3⟩ := by decide +kernel
  obtain ⟨⟨-,-,class_refuses⟩,-⟩ := (released_refuses made class_gone).1 []
  obtain ⟨⟨-,-,environment_refuses⟩,-⟩ := (released_refuses made environment_gone).1 []
  have derived : bereft.live ⟨1⟩ = .ok { object := .klass "B" (some ⟨0⟩) {} } := by with_unfolding_all rfl
  have instance_live : bereft.live ⟨2⟩ = .ok { object := .instanceOf (some ⟨1⟩) {} } := by
    with_unfolding_all rfl
  have inner : bereft.environment ⟨4⟩ = .ok ({},some ⟨3⟩) := by with_unfolding_all rfl
  have above : ∀ name, bereft.Ascends name ⟨1⟩ ⟨0⟩ := fun name => .up derived rfl rfl (by decide) (.here _)
  have kind : bereft.kindOf ⟨1⟩ = .klass := by decide +kernel
  have superclass : bereft.refusal ⟨0⟩ = .fault (.released .klass (some 1)) := by decide +kernel
  have enclosing : bereft.refusal ⟨3⟩ = .fault (.released .environment (some 2)) := by decide +kernel
  rw [← superclass,← enclosing]
  refine ⟨made,class_gone,environment_gone,?_,?_,?_⟩
  · exact class_refuses.requests _ (.inherited instance_live rfl rfl (above "m"))
  · exact class_refuses.requests _ (.arity kind (above "init"))
  · exact environment_refuses.requests _ (.lookupAt "x" (.hop inner (.here _)) (by decide))

/-- A released instance of a released class does not say that it has been released when it is printed. -/
theorem released_instance_prints_otherwise :
    let h : Heap Value := Heap.after {}
      [.create (.klass "A" none {}),.register ⟨0⟩ [],.create (.instanceOf (some ⟨0⟩) {}),.register ⟨1⟩ [],
        .collect []]
    h.Made ∧ h.isFreed ⟨1⟩ ∧ h.inspect ⟨1⟩ = .error (.fault .wrongKind) ∧
      h.inspect ⟨1⟩ ≠ .error (h.refusal ⟨1⟩) := by
  exact ⟨⟨_,_,rfl⟩,by decide +kernel,by decide +kernel,by decide +kernel⟩

end Lox
