import Lox.Proofs.Heap.Comparison
import Lox.Proofs.Machine.Balance

/-! # Twins

Two machines that agree in everything but their heaps and logs, and whose heaps compare as seen from
the roots and from what is held besides. Twins that run alike programs stay twins: they end alike,
with the same value or with errors at corresponding positions, or one of them breaks off at a
threshold. There is one rule for each way to put computations together.
-/
namespace Lox
open Machine Exec

theorem Machine.mem_roots {m : Machine} {r : Ref} : r ∈ m.roots ↔ r = m.globals ∨ r = m.current ∨
    r ∈ m.worlds ∨ r ∈ m.saved ∨ (∃ x ∈ m.frames, r ∈ Holder.refs x) ∨
    ∃ x ∈ m.temps, r ∈ Holder.refs x := by
  simp [roots]

/-- What is in use stays so. -/
theorem Machine.Carries.mem_roots {m k : Machine} (h : Carries m k) {r : Ref} (hr : r ∈ m.roots) :
    r ∈ k.roots := by
  rw [Machine.mem_roots] at hr ⊢
  rw [h.globals,h.current,h.worlds,h.saved,h.frames]
  obtain hr | hr | hr | hr | hr | ⟨x,hx,hr⟩ := hr
  · exact .inl hr
  · exact .inr (.inl hr)
  · exact .inr (.inr (.inl hr))
  · exact .inr (.inr (.inr (.inl hr)))
  · exact .inr (.inr (.inr (.inr (.inl hr))))
  · exact .inr (.inr (.inr (.inr (.inr ⟨x,h.temps.subset hx,hr⟩))))

theorem Machine.Resumes.roots_eq {m k : Machine} (h : Resumes m k) : k.roots = m.roots := by
  simp only [roots,h.globals,h.current,h.worlds,h.saved,h.frames,h.temps_eq]

/-- The objects that a value stands for are roots. -/
def Machine.Rooted (m : Machine) (x : Value) : Prop := ∀ r ∈ Holder.refs x, r ∈ m.roots

/-- The objects that a value stands for are roots or held besides. -/
def Machine.Holds (m : Machine) (K : List Ref) (x : Value) : Prop :=
  ∀ r ∈ Holder.refs x, r ∈ m.roots ∨ r ∈ K

theorem Machine.Rooted.holds {m : Machine} {K : List Ref} {x : Value} (hx : m.Rooted x) :
    m.Holds K x := fun r hr => .inl (hx r hr)

theorem Machine.holds_refs (m : Machine) (x : Value) : m.Holds (Holder.refs x) x := fun _ => .inr

theorem Machine.Carries.rooted {m k : Machine} (h : Carries m k) {x : Value} (hx : m.Rooted x) :
    k.Rooted x := fun r hr => h.mem_roots (hx r hr)

theorem Machine.current_mem (m : Machine) : m.current ∈ m.roots := mem_roots.mpr (.inr (.inl rfl))

theorem Machine.globals_mem (m : Machine) : m.globals ∈ m.roots := mem_roots.mpr (.inl rfl)

theorem Machine.rooted_of_mem {m : Machine} {x : Value} (hx : x ∈ m.temps) : m.Rooted x :=
  fun _ hr => mem_roots.mpr (.inr (.inr (.inr (.inr (.inr ⟨x,hx,hr⟩)))))

theorem Machine.logJournal_eq (m : Machine) : m.logJournal =
    { m with heap := { m.heap with journal := [] }, log := m.heap.journal.map (·.message) ++ m.log } := by
  rw [logJournal]
  split
  · next e =>
    obtain ⟨⟨⟩⟩ := m
    cases e
    rfl
  · rfl

theorem Machine.logJournal_heap (m : Machine) : ∃ log, m.logJournal =
    { m with heap := { m.heap with journal := [] }, log } := ⟨_,m.logJournal_eq⟩

theorem Machine.mem_roots_keep {m : Machine} {v : Value} {r : Ref} :
    r ∈ { m with temps := v :: m.temps }.roots ↔ r ∈ Holder.refs v ∨ r ∈ m.roots := by
  simp only [mem_roots,List.mem_cons,exists_eq_or_imp]
  grind

theorem Machine.mem_roots_enter {m : Machine} {e r : Ref} :
    r ∈ { m with current := e, saved := m.current :: m.saved }.roots ↔ r = e ∨ r ∈ m.roots := by
  simp only [mem_roots,List.mem_cons]
  grind

theorem Machine.mem_roots_call {m : Machine} {calls : CallDepth} {v : Value} {r : Ref} :
    r ∈ { m with calls, frames := v :: m.frames }.roots ↔ r ∈ Holder.refs v ∨ r ∈ m.roots := by
  simp only [mem_roots,List.mem_cons,exists_eq_or_imp]
  grind

namespace Exec
variable {α β : Type}

/-- A computation broke off because the next threshold is no integer. -/
def Spoiled : EStateM.Result Halt Machine α → Prop
  | .ok _ _ => False
  | .error t m => ∃ n, t = .fault (.threshold n) ∧
      Heap.grownThreshold m.heap.rules m.heap.liveCount = .error n

theorem Spoiled.bind {x : Exec α} {m : Machine} (h : Spoiled (x m)) (f : α → Exec β) :
    Spoiled ((x >>= f) m) := by
  simp only [Bind.bind,EStateM.bind]
  cases e : x m with
  | ok a k => rw [e] at h; exact h.elim
  | error t k => rw [e] at h; exact h

theorem Spoiled.afterwards {x : Exec α} {m : Machine} (h : Spoiled (x m)) {f : Machine → Machine}
    (keeps : ∀ m, (f m).heap = m.heap) : Spoiled (afterwards x f m) := by
  simp only [Exec.afterwards]
  cases e : x m with
  | ok a k => rw [e] at h; exact h.elim
  | error t k =>
    rw [e] at h
    simpa only [Spoiled,keeps] using h

end Exec

/-- The roots given to a registration matter only when a collection is due. -/
theorem register_roots (r : Ref) (roots : List Ref) (h : Heap Value) :
    Heap.register r (if h.due then roots else []) h = Heap.register r roots h := by
  cases due : h.due with
  | true => rfl
  | false =>
    simp only [Heap.register,due]
    rfl

/-- An allocation is one operation on the heap, and what it did is logged. -/
theorem allocate_eq (o : Object Value) (m : Machine) : allocate o m =
    match Heap.place o m.roots m.heap with
    | .ok r heap => .ok r (logJournal { m with heap })
    | .error f heap => .error (f.halt .start) (logJournal { m with heap }) := by
  have roots : ∀ heap, { m with heap }.roots = m.roots := fun _ => rfl
  simp only [allocate,Heap.place,Bind.bind,EStateM.bind,onHeap,Heap.create,registerObject,roots,
    register_roots]
  generalize (Heap.register _ _ _ : EStateM.Result Failure (Heap Value) Nat) = x
  cases x <;> rfl

namespace Comparison
variable (C : Comparison) {α β : Type}

def Twins (K : List Ref) (m k : Machine) : Prop :=
  ∃ heap log, k = { m with heap, log } ∧ C.heaps (m.roots ++ K) m.heap heap

inductive Halts : Halt → Halt → Prop
  | error {c p q} : C.pos p q → Halts (.error ⟨c,p⟩) (.error ⟨c,q⟩)
  | fault {f} : (C.safe → f.isMemory = false) → Halts (.fault f) (.fault f)
  | cut : Halts .cut .cut

/-- Two computations end alike. -/
inductive Ends (rel : α → α → Prop) (kept : α → List Ref) :
    EStateM.Result Halt Machine α → EStateM.Result Halt Machine α → Prop
  | ok {a b m k} : rel a b → C.Twins (kept a) m k → Ends rel kept (.ok a m) (.ok b k)
  | error {s t m k} : C.Halts s t → C.Twins [] m k → Ends rel kept (.error s m) (.error t k)
  | spoiled {x y} : C.lax → (Spoiled x ∨ Spoiled y) → Ends rel kept x y

variable {C} {K L : List Ref} {m k : Machine} {rel : α → α → Prop} {kept : α → List Ref}
  {rel' : β → β → Prop} {kept' : β → List Ref}

theorem Twins.less (tw : C.Twins K m k) (sub : ∀ r ∈ L, r ∈ m.roots ∨ r ∈ K) : C.Twins L m k := by
  obtain ⟨heap,log,rfl,held⟩ := tw
  refine ⟨heap,log,rfl,C.less held fun r hr => ?_⟩
  rcases List.mem_append.mp hr with hr | hr
  · exact List.mem_append_left _ hr
  · exact List.mem_append.mpr (sub r hr)

theorem Twins.drop (tw : C.Twins K m k) : C.Twins [] m k :=
  tw.less fun _ hr => absurd hr List.not_mem_nil

theorem Twins.steps_eq (tw : C.Twins K m k) : k.steps = m.steps := by
  obtain ⟨heap,log,rfl,-⟩ := tw
  rfl

/-- Twins stay twins when both change in the same way, to roots that were held. -/
theorem Twins.change (tw : C.Twins K m k) (f : Machine → Machine)
    (keeps : (f m).heap = m.heap)
    (same : ∀ heap log, f { m with heap, log } = { f m with heap, log })
    (sub : ∀ r, r ∈ (f m).roots ∨ r ∈ L → r ∈ m.roots ∨ r ∈ K) : C.Twins L (f m) (f k) := by
  obtain ⟨heap,log,rfl,held⟩ := tw
  refine ⟨heap,log,same heap log,?_⟩
  rw [keeps]
  exact C.less held fun r hr => List.mem_append.mpr (sub r (List.mem_append.mp hr))

/-! ## Putting computations together -/

theorem Ends.weaken {rel' : α → α → Prop} {kept' : α → List Ref}
    {x y : EStateM.Result Halt Machine α} (h : C.Ends rel kept x y)
    (weaker : ∀ a b, rel a b → rel' a b)
    (sub : ∀ a b m k, x = .ok a m → y = .ok b k → rel a b →
      ∀ r ∈ kept' a, r ∈ m.roots ∨ r ∈ kept a) :
    C.Ends rel' kept' x y := by
  cases h with
  | ok ab tw => exact .ok (weaker _ _ ab) (tw.less (sub _ _ _ _ rfl rfl ab))
  | error halts tw => exact .error halts tw
  | spoiled lax h => exact .spoiled lax h

/-- What was held before a reading can be let go. -/
theorem Ends.drop {x y : EStateM.Result Halt Machine α}
    (h : C.Ends rel (fun a => kept a ++ K) x y) : C.Ends rel kept x y :=
  h.weaken (fun _ _ => id) fun _ _ _ _ _ _ _ _ hr => .inr (List.mem_append_left K hr)

theorem Ends.bind {x y : Exec α} {f g : α → Exec β} (first : C.Ends rel kept (x m) (y k))
    (next : ∀ a b m' k', x m = .ok a m' → rel a b → C.Twins (kept a) m' k' →
      C.Ends rel' kept' (f a m') (g b k')) :
    C.Ends rel' kept' ((x >>= f) m) ((y >>= g) k) := by
  generalize ex : x m = s,ey : y k = t at first
  cases first with
  | ok ab tw =>
    simpa only [Bind.bind,EStateM.bind,ex,ey] using next _ _ _ _ ex ab tw
  | error halts tw =>
    simp only [Bind.bind,EStateM.bind,ex,ey]
    exact .error halts tw
  | spoiled lax h =>
    subst ex ey
    exact .spoiled lax (h.imp (·.bind f) (·.bind g))

theorem Ends.map {x y : Exec α} (f : α → β) (h : C.Ends Eq kept (x m) (y k))
    (sub : ∀ a, ∀ r ∈ kept' (f a), r ∈ kept a) : C.Ends Eq kept' ((f <$> x) m) ((f <$> y) k) := by
  have spoil : ∀ {x : Exec α} {m : Machine}, Spoiled (x m) → Spoiled ((f <$> x) m) := by
    intro x m h
    simp only [Functor.map,EStateM.map]
    cases e : x m with
    | ok a k => rw [e] at h; exact h.elim
    | error t k => rw [e] at h; exact h
  generalize ex : x m = s,ey : y k = t at h
  cases h with
  | ok ab tw =>
    simp only [Functor.map,EStateM.map,ex,ey]
    exact .ok (congrArg f ab) (tw.less fun r hr => .inr (sub _ r hr))
  | error halts tw =>
    simp only [Functor.map,EStateM.map,ex,ey]
    exact .error halts tw
  | spoiled lax h =>
    subst ex ey
    exact .spoiled lax (h.imp spoil spoil)

theorem Ends.pure {a b : α} (ab : rel a b) (tw : C.Twins K m k)
    (sub : ∀ r ∈ kept a, r ∈ m.roots ∨ r ∈ K) :
    C.Ends rel kept ((pure a : Exec α) m) ((pure b : Exec α) k) := .ok ab (tw.less sub)

theorem Ends.throw {s t : Halt} (halts : C.Halts s t) (tw : C.Twins K m k) :
    C.Ends rel kept ((throw s : Exec α) m) ((throw t : Exec α) k) :=
  .error halts (tw.less fun _ hr => absurd hr List.not_mem_nil)

theorem Ends.afterwards {x y : Exec α} {f g : Machine → Machine} {kept' : α → List Ref}
    (h : C.Ends rel kept (x m) (y k)) (left : ∀ m, (f m).heap = m.heap)
    (right : ∀ m, (g m).heap = m.heap)
    (ok : ∀ a m' k', stateAfter (x m) = m' → C.Twins (kept a) m' k' →
      C.Twins (kept' a) (f m') (g k'))
    (error : ∀ m' k', stateAfter (x m) = m' → C.Twins [] m' k' → C.Twins [] (f m') (g k')) :
    C.Ends rel kept' (afterwards x f m) (afterwards y g k) := by
  generalize ex : x m = s,ey : y k = t at h
  cases h with
  | ok ab tw =>
    simp only [Exec.afterwards,ex,ey]
    exact .ok ab (ok _ _ _ (by rw [ex]; rfl) tw)
  | error halts tw =>
    simp only [Exec.afterwards,ex,ey]
    exact .error halts (error _ _ (by rw [ex]; rfl) tw)
  | spoiled lax h =>
    subst ex ey
    exact .spoiled lax (h.imp (·.afterwards left) (·.afterwards right))

theorem Ends.tick {x y : Exec α} (tw : C.Twins K m k)
    (next : ∀ s, m.steps = s + 1 → C.Twins K { m with steps := s } { k with steps := s } →
      C.Ends rel kept (x { m with steps := s }) (y { k with steps := s })) :
    C.Ends rel kept ((do tick; x) m) ((do tick; y) k) := by
  have same := tw.steps_eq
  cases hs : m.steps with
  | zero =>
    rw [tick_bind_of_eq_zero x hs,tick_bind_of_eq_zero y (same.trans hs)]
    exact .error .cut (tw.less fun _ hr => absurd hr List.not_mem_nil)
  | succ s =>
    rw [tick_bind_of_eq_succ x hs,tick_bind_of_eq_succ y (same.trans hs)]
    exact next s hs (tw.change (fun m => { m with steps := s }) rfl (fun _ _ => rfl) fun _ => id)

theorem Ends.releasing {x y : Exec α} (tw : C.Twins K m k) (leads : Leads Carries x)
    (h : C.Ends rel kept (x m) (y k)) : C.Ends rel kept (releasing x m) (releasing y k) := by
  obtain ⟨heap,log,rfl,-⟩ := tw
  have restore : ∀ L m' k', stateAfter (x m) = m' → C.Twins L m' k' →
      C.Twins L { m' with temps := m.temps } { k' with temps := m.temps } := by
    intro L m' k' e tw
    have suffix : m.temps <:+ m'.temps := e ▸ (leads m).temps
    have fewer : Carries { m' with temps := m.temps } m' := { Carries.refl m' with temps := suffix }
    exact tw.change (fun k => { k with temps := m.temps }) rfl (fun _ _ => rfl)
      fun r hr => hr.imp fewer.mem_roots id
  exact h.afterwards (fun _ => rfl) (fun _ => rfl) (fun a => restore (kept a)) (restore [])

theorem Ends.keeping {x y : Exec α} {v : Value} (tw : C.Twins K m k)
    (hv : m.Holds K v) (leads : Leads Resumes x)
    (h : ∀ m' k', (∀ r ∈ m.roots, r ∈ m'.roots) → m'.Rooted v → m'.steps = m.steps →
      C.Twins K m' k' → C.Ends rel kept (x m') (y k')) :
    C.Ends rel (fun a => Holder.refs v ++ kept a) (keeping v x m) (keeping v y k) := by
  refine .releasing tw (.bind (leads_keep v) fun _ => leads.carries) ?_
  have rooted : { m with temps := v :: m.temps }.Rooted v :=
    fun r hr => mem_roots_keep.mpr (.inl hr)
  have more : C.Twins K { m with temps := v :: m.temps } { k with temps := v :: k.temps } := by
    refine tw.change (fun m => { m with temps := v :: m.temps }) rfl (fun _ _ => rfl) ?_
    rintro r (hr | hr)
    · exact (mem_roots_keep.mp hr).elim (hv r) .inl
    · exact .inr hr
  have ends := h _ _ (fun r hr => mem_roots_keep.mpr (.inr hr)) rooted rfl more
  refine ends.weaken (fun _ _ => id) fun a b m' k' e _ _ r hr => ?_
  exact (List.mem_append.mp hr).imp ((leads.ok e).rooted rooted r) id

theorem Ends.inEnvironment {x y : Exec α} {e : Ref} (tw : C.Twins K m k)
    (he : e ∈ m.roots ∨ e ∈ K) (leads : Leads Resumes x)
    (h : ∀ m' k', (∀ r ∈ m.roots, r ∈ m'.roots) → m'.steps = m.steps → C.Twins [] m' k' →
      C.Ends rel kept (x m') (y k')) :
    C.Ends rel kept (inEnvironment e x m) (inEnvironment e y k) := by
  obtain ⟨heap,log,rfl,held⟩ := tw
  have restore : ∀ L m' k',
      stateAfter (x { m with current := e, saved := m.current :: m.saved }) = m' →
      C.Twins L m' k' → C.Twins L { m' with current := m.current, saved := m.saved }
        { k' with current := m.current, saved := m.saved } := by
    intro L m' k' same tw
    have resumes := leads { m with current := e, saved := m.current :: m.saved }
    rw [same] at resumes
    have back : { ({ m' with current := m.current, saved := m.saved } : Machine) with
        current := e, saved := m.current :: m.saved } = m' := by
      rw [← show m'.current = e from resumes.current,
        ← show m'.saved = m.current :: m.saved from resumes.saved]
    refine tw.change (fun k => { k with current := m.current, saved := m.saved }) rfl
      (fun _ _ => rfl) fun r hr => hr.imp (fun hr => ?_) id
    rw [← back]
    exact mem_roots_enter.mpr (.inr hr)
  refine Ends.afterwards (h _ _ (fun r hr => mem_roots_enter.mpr (.inr hr)) rfl ?_) (fun _ => rfl)
    (fun _ => rfl) (fun a => restore (kept a)) (restore [])
  refine Twins.change ⟨heap,log,rfl,held⟩
    (fun m => { m with current := e, saved := m.current :: m.saved }) rfl (fun _ _ => rfl) ?_
  rintro r (hr | hr)
  · rcases mem_roots_enter.mp hr with rfl | hr
    · exact he
    · exact .inl hr
  · exact absurd hr List.not_mem_nil

theorem Ends.entering {p q : Pos} {x y : Exec α} {v : Value} (pos : C.pos p q) (tw : C.Twins K m k)
    (hv : m.Rooted v) (leads : Leads Carries x)
    (h : ∀ m' k', (∀ r ∈ m.roots, r ∈ m'.roots) → m'.steps = m.steps → C.Twins [] m' k' →
      C.Ends rel kept (x m') (y k')) :
    C.Ends rel kept ((do enterCall p; inCall v x) m) ((do enterCall q; inCall v y) k) := by
  obtain ⟨heap,log,rfl,held⟩ := tw
  cases e : m.calls.enter with
  | mk refused calls =>
    cases refused with
    | some o =>
      have left : (do enterCall p; inCall v x) m = .error (.error ⟨.tooDeep,p⟩) { m with calls } := by
        simp only [Bind.bind,EStateM.bind,enterCall,e]
      have right : (do enterCall q; inCall v y) { m with heap, log } =
          .error (.error ⟨.tooDeep,q⟩) { m with heap, log, calls } := by
        simp only [Bind.bind,EStateM.bind,enterCall,e]
      rw [left,right]
      refine .error (.error pos) (Twins.change ⟨heap,log,rfl,held⟩ (fun m => { m with calls }) rfl
        (fun _ _ => rfl) fun r hr => hr.imp id (absurd · List.not_mem_nil))
    | none =>
      have left : (do enterCall p; inCall v x) m = inCall v x { m with calls } := by
        simp only [Bind.bind,EStateM.bind,enterCall,e]
      have right : (do enterCall q; inCall v y) { m with heap, log } =
          inCall v y { m with heap, log, calls } := by
        simp only [Bind.bind,EStateM.bind,enterCall,e]
      rw [left,right]
      have restore : ∀ L m' k', stateAfter (x { m with calls, frames := v :: m.frames }) = m' →
          C.Twins L m' k' → C.Twins L { m' with frames := m.frames, calls := m'.calls.exit }
            { k' with frames := m.frames, calls := k'.calls.exit } := by
        intro L m' k' same tw
        have carries := leads { m with calls, frames := v :: m.frames }
        rw [same] at carries
        have back : { ({ m' with frames := m.frames, calls := m'.calls.exit } : Machine) with
            calls := m'.calls, frames := v :: m.frames } = m' := by
          rw [← show m'.frames = v :: m.frames from carries.frames]
        refine tw.change (fun k => { k with frames := m.frames, calls := k.calls.exit }) rfl
          (fun _ _ => rfl) fun r hr => hr.imp (fun hr => ?_) id
        rw [← back]
        exact mem_roots_call.mpr (.inr hr)
      refine Ends.afterwards (h _ _ (fun r hr => mem_roots_call.mpr (.inr hr)) rfl ?_)
        (fun _ => rfl) (fun _ => rfl) (fun a => restore (kept a)) (restore [])
      refine Twins.change ⟨heap,log,rfl,held⟩ (fun m => { m with calls, frames := v :: m.frames }) rfl
        (fun _ _ => rfl) ?_
      rintro r (hr | hr)
      · exact .inl ((mem_roots_call.mp hr).elim (hv r) id)
      · exact absurd hr List.not_mem_nil

/-! ## Single operations -/

theorem ends_trace (tw : C.Twins K m k) (level : Level) (s t : Unit → String) :
    C.Ends (fun _ _ => True) (fun _ => K) (trace level s m) (trace level t k) := by
  obtain ⟨heap,log,rfl,held⟩ := tw
  simp only [trace]
  split
  · exact .ok trivial ⟨heap,t () :: log,rfl,held⟩
  · exact .ok trivial ⟨heap,log,rfl,held⟩

theorem ends_keep (tw : C.Twins K m k) {v : Value} (hv : m.Holds K v) :
    C.Ends (fun _ _ => True) (fun _ => K) (keep v m) (keep v k) := by
  refine .ok trivial (tw.change (fun m => { m with temps := v :: m.temps }) rfl (fun _ _ => rfl) ?_)
  rintro r (hr | hr)
  · exact (mem_roots_keep.mp hr).elim (hv r) .inl
  · exact .inr hr

theorem ends_print (tw : C.Twins K m k) (text : String) :
    C.Ends (fun _ _ => True) (fun _ => K) (print text m) (print text k) :=
  .ok trivial (tw.change (fun m => { m with output := m.output ++ text }) rfl (fun _ _ => rfl)
    fun _ => id)

theorem ends_readClock (tw : C.Twins K m k) :
    C.Ends Eq Holder.refs (readClock m) (readClock k) := by
  obtain ⟨heap,log,rfl,held⟩ := tw
  exact .ok rfl (Twins.change ⟨heap,log,rfl,held⟩ (fun m => { m with clock := m.clock + 0.000001 })
    rfl (fun _ _ => rfl) fun r hr => hr.imp id (absurd · List.not_mem_nil))

theorem ends_currentEnvironment (tw : C.Twins K m k) :
    C.Ends (fun e f => e = f ∧ e = m.current) (fun _ => K) (currentEnvironment m)
      (currentEnvironment k) := by
  obtain ⟨heap,log,rfl,held⟩ := tw
  exact .ok ⟨rfl,rfl⟩ ⟨heap,log,rfl,held⟩

theorem halts_of {p q : Pos} (pos : C.pos p q) {f : Failure} (safe : C.safe → f.isMemory = false) :
    C.Halts (f.halt p) (f.halt q) := by
  cases f with
  | fault f => exact .fault safe
  | cause c => exact .error pos

theorem ends_reading {p q : Pos} (pos : C.pos p q) (tw : C.Twins K m k)
    {u v : Heap Value → Except Failure α}
    (reads : ∀ h g, C.heaps (m.roots ++ K) h g →
      C.Reads (m.roots ++ K) h g rel kept (u h) (v g)) :
    C.Ends rel (fun a => kept a ++ K) (reading p u m) (reading q v k) := by
  obtain ⟨heap,log,rfl,held⟩ := tw
  have reads := reads _ _ held
  simp only [reading]
  generalize u m.heap = s,v heap = t at reads
  cases reads with
  | ok ab more =>
    refine .ok ab ⟨heap,log,rfl,C.less more fun r hr => ?_⟩
    simp only [List.mem_append] at hr ⊢
    tauto
  | error safe =>
    exact .error (halts_of pos safe) ⟨heap,log,rfl,C.less held fun r hr =>
      List.mem_append_left _ ((List.mem_append.mp hr).elim id (absurd · List.not_mem_nil))⟩

theorem ends_onHeap {p q : Pos} (pos : C.pos p q) (tw : C.Twins K m k) {u v : HeapM Value Unit}
    (writes : ∀ h g, C.heaps (m.roots ++ K) h g → C.Writes (m.roots ++ K) (u h) (v g)) :
    C.Ends (fun _ _ => True) (fun _ => K) (onHeap p u m) (onHeap q v k) := by
  obtain ⟨heap,log,rfl,held⟩ := tw
  have writes := writes _ _ held
  simp only [onHeap]
  generalize u m.heap = s,v heap = t at writes
  cases writes with
  | ok held => exact .ok trivial ⟨_,log,rfl,held⟩
  | error safe held =>
    exact .error (halts_of pos safe) ⟨_,log,rfl,C.less held fun r hr =>
      List.mem_append_left _ ((List.mem_append.mp hr).elim id (absurd · List.not_mem_nil))⟩

theorem ends_define (tw : C.Twins K m k) {e : Ref} (he : e ∈ m.roots ∨ e ∈ K) (name : String)
    {x : Value} (hx : m.Holds K x) :
    C.Ends (fun _ _ => True) (fun _ => K) (define e name x m) (define e name x k) :=
  ends_onHeap (C.refl _) tw fun _ _ held =>
    writes_define held (List.mem_append.mpr he) name fun r hr => List.mem_append.mpr (hx r hr)

theorem Twins.logJournal (tw : C.Twins K m k) : C.Twins K m.logJournal k.logJournal := by
  obtain ⟨heap,log,rfl,held⟩ := tw
  obtain ⟨log',e⟩ := logJournal_heap m
  obtain ⟨log'',e'⟩ := logJournal_heap { m with heap, log }
  rw [e,e']
  exact ⟨_,log'',rfl,C.flush held⟩

theorem ends_allocate (tw : C.Twins K m k) {o p : Object Value} (like : Object.Alike C.pos o p)
    (sub : ∀ s ∈ o.references, s ∈ m.roots ∨ s ∈ K) :
    C.Ends Eq (fun r => [r]) (allocate o m) (allocate p k) := by
  obtain ⟨heap,log,rfl,held⟩ := tw
  have same : { m with heap, log }.roots = m.roots := rfl
  have spoil : ∀ {o : Object Value} {m : Machine}, Heap.Spoiled (Heap.place o m.roots m.heap) →
      Spoiled (allocate o m) := by
    intro o m h
    rw [allocate_eq]
    cases e : Heap.place o m.roots m.heap with
    | ok r heap => rw [e] at h; exact h.elim
    | error f heap =>
      rw [e] at h
      obtain ⟨n,rfl,hn⟩ := h
      obtain ⟨log,e⟩ := logJournal_heap { m with heap }
      exact ⟨n,rfl,by rw [e]; exact hn⟩
  rcases C.place held like (fun s hs => List.mem_append.mpr (sub s hs))
    (fun s hs => List.mem_append_left K hs) with
    ⟨r,h,g,hr,gr,held⟩ | ⟨f,h,g,hf,gf,safe,held⟩ | ⟨lax,spoiled⟩
  · rw [allocate_eq,allocate_eq,same,hr,gr]
    refine .ok rfl (Twins.logJournal ⟨g,log,rfl,C.less held fun s hs => ?_⟩)
    exact (List.mem_append.mp hs).elim (List.mem_cons_of_mem r) (by simp +contextual)
  · rw [allocate_eq,allocate_eq,same,hf,gf]
    refine .error (halts_of (C.refl _) safe) (Twins.logJournal ⟨g,log,rfl,C.less held fun s hs => ?_⟩)
    exact (List.mem_append.mp hs).elim id (absurd · List.not_mem_nil)
  · exact .spoiled lax (spoiled.imp spoil spoil)

end Comparison
end Lox
