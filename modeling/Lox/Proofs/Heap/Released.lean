import Lox.Proofs.Heap.Accounts
import Lox.Proofs.Heap.Apart

/-! # Released objects

A released object keeps its kind and its slot and refuses to be used. So does everything that has to go
through it: a walk along environments that meets it, and a search for a method along a chain of classes.
-/
namespace Lox.Heap
variable {ν : Type} {h : Heap ν} {r : Ref}

/-- What is said when a released object is used. -/
def refusal (h : Heap ν) (r : Ref) : Failure := .fault (.released (h.kindOf r) (h.slotOf r))

/-- So many links lead out from one environment to another, none of them out of a released one. -/
inductive Outwards (h : Heap ν) : Nat → Ref → Ref → Prop
  | here (r : Ref) : Outwards h 0 r r
  | hop {n : Nat} {e s r : Ref} {values : Bindings ν} : h.environment e = .ok (values,some s) →
      Outwards h n s r → Outwards h (n + 1) e r

/-- The search for a method gets from one class up to another: the classes before have not been released and
do not have the method themselves. -/
inductive Ascends (h : Heap ν) (name : String) : Ref → Ref → Prop
  | here (c : Ref) : Ascends h name c c
  | up {c s r : Ref} {cell : Cell ν} {title : String} {methods : Bindings Ref} : h.live c = .ok cell →
      cell.object = .klass title (some s) methods → methods.get? name = none → s.index < c.index →
      Ascends h name s r → Ascends h name c r

/-- The requests that use an object, be it that they are met with it on their way. -/
inductive Uses (h : Heap ν) (r : Ref) : Request ν → Prop
  | check : Uses h r (.check r)
  | define (name : String) (x : ν) : Uses h r (.define r name x)
  | assign (name : String) (x : ν) : Uses h r (.assign r name x)
  | lookup (name : String) : Uses h r (.lookup r name)
  | ancestor {n : Nat} {e : Ref} {distance : Int} : h.Outwards n e r → n ≤ distance.toNat →
      Uses h r (.ancestor e distance)
  | lookupAt {n : Nat} {e : Ref} {distance : Int} (name : String) : h.Outwards n e r →
      n ≤ distance.toNat → Uses h r (.lookupAt e distance name)
  | assignAt {n : Nat} {e : Ref} {distance : Int} (name : String) (x : ν) : h.Outwards n e r →
      n ≤ distance.toNat → Uses h r (.assignAt e distance name x)
  | property (name : String) : Uses h r (.property r name)
  /-- A property that is no field of an instance is looked for in its class. -/
  | inherited {i c : Ref} {cell : Cell ν} {fields : Bindings ν} {name : String} : h.live i = .ok cell →
      cell.object = .instanceOf (some c) fields → fields.get? name = none → h.Ascends name c r →
      Uses h r (.property i name)
  | setField (name : String) (x : ν) : Uses h r (.setField r name x)
  | findMethod {c : Ref} {name : String} : h.Ascends name c r → Uses h r (.findMethod c name)
  /-- The arity of a class is that of its initializer. -/
  | arity {c : Ref} : h.kindOf c = .klass → h.Ascends "init" c r → Uses h r (.arity c)

theorem reading_map_error {α β : Type} {f : Heap ν → Except Failure α} {e : Failure} (g : α → β)
    (failed : f h = .error e) : reading (fun h => g <$> f h) h = .error e h := by
  simp only [reading,failed]
  rfl

section
variable (gone : h.isFreed r)
include gone

theorem live_of_isFreed : h.live r = .error (h.refusal r) := by
  simp only [isFreed] at gone
  simp only [live,refusal,kindOf,slotOf]
  cases cell : h.cells[r.index]? with
  | none => simp [cell] at gone
  | some c =>
    have freed : c.freed := by simpa [cell] using gone
    simp [freed]

theorem environment_of_isFreed : h.environment r = .error (h.refusal r) := by
  simp only [environment,live_of_isFreed gone]
  rfl

theorem function_of_isFreed : h.function r = .error (h.refusal r) := by
  simp only [function,live_of_isFreed gone]
  rfl

/-- A walk that has as many hops to make as it takes to get to a released environment gets no further. -/
theorem Outwards.hop_refused {n hops : Nat} {e : Ref} (way : h.Outwards n e r) (far : n ≤ hops)
    (distance : Int) : h.hop distance hops e = .error (h.refusal r) := by
  induction way generalizing hops with
  | here r =>
    cases hops with
    | zero =>
      simp only [Heap.hop,live_of_isFreed gone]
      rfl
    | succ hops =>
      simp only [Heap.hop,environment_of_isFreed gone]
      rfl
  | hop found _ ih =>
    obtain ⟨hops,rfl⟩ := Nat.exists_eq_add_of_lt far
    simp only [Heap.hop,found]
    exact ih gone (Nat.le_add_right _ _)

theorem Outwards.ancestor_refused {n : Nat} {e : Ref} {distance : Int} (way : h.Outwards n e r)
    (far : n ≤ distance.toNat) : h.ancestor e distance = .error (h.refusal r) :=
  way.hop_refused gone far distance

/-- A search that gets as far as a released class gets no further. -/
theorem Ascends.findMethod_refused {c : Ref} {name : String} (way : h.Ascends name c r) :
    h.findMethod c name = .error (h.refusal r) := by
  induction way with
  | here c => rw [Heap.findMethod,live_of_isFreed gone]
  | up live object absent older _ ih =>
    rw [Heap.findMethod,live]
    simp only [object,absent,if_pos older,ih gone]

theorem Ascends.arity_refused {c : Ref} (kind : h.kindOf c = .klass) (way : h.Ascends "init" c r) :
    h.arity c = .error (h.refusal r) := by
  simp only [Heap.arity,kind,way.findMethod_refused gone]
  rfl

theorem property_of_isFreed (name : String) : h.property r name = .error (h.refusal r) := by
  simp only [Heap.property,live_of_isFreed gone]
  rfl

theorem Ascends.property_refused {i c : Ref} {cell : Cell ν} {fields : Bindings ν} {name : String}
    (live : h.live i = .ok cell) (object : cell.object = .instanceOf (some c) fields)
    (absent : fields.get? name = none) (way : h.Ascends name c r) :
    h.property i name = .error (h.refusal r) := by
  simp only [Heap.property,live,object,Bind.bind,Except.bind,absent,way.findMethod_refused gone]

theorem lookup_of_isFreed (name : String) : h.lookup r name = .error (h.refusal r) := by
  simp only [Heap.lookup,environment_of_isFreed gone]
  rfl

theorem Outwards.lookupAt_refused {n : Nat} {e : Ref} {distance : Int} (way : h.Outwards n e r)
    (far : n ≤ distance.toNat) (name : String) : h.lookupAt e distance name = .error (h.refusal r) := by
  simp only [Heap.lookupAt,way.ancestor_refused gone far]
  rfl

variable [Holder ν]

/-- Whatever uses a released object is refused for its sake and changes nothing at all. -/
theorem Uses.refused {q : Request ν} (uses : h.Uses r q) : q.perform h = .error (h.refusal r) h := by
  cases uses with
  | check => exact reading_map_error (f := (·.live r)) _ (live_of_isFreed gone)
  | lookup name => exact reading_map_error (f := (·.lookup r name)) _ (lookup_of_isFreed gone name)
  | ancestor way far => exact reading_map_error (f := (·.ancestor _ _)) _ (way.ancestor_refused gone far)
  | lookupAt name way far => exact reading_map_error (f := (·.lookupAt _ _ name)) _ (way.lookupAt_refused gone far name)
  | property name => exact reading_map_error (f := (·.property r name)) _ (property_of_isFreed gone name)
  | inherited live object absent way =>
    exact reading_map_error (f := (·.property _ _)) _ (way.property_refused gone live object absent)
  | findMethod way => exact reading_map_error (f := (·.findMethod _ _)) _ (way.findMethod_refused gone)
  | arity kind way => exact reading_map_error (f := (·.arity _)) _ (way.arity_refused gone kind)
  | define | assign =>
    simp only [Request.perform,Functor.map,EStateM.map,Heap.define,Heap.assign,environment_of_isFreed gone]
  | assignAt name x way far =>
    simp only [Request.perform,Functor.map,EStateM.map,Heap.assignAt,way.ancestor_refused gone far]
  | setField name x =>
    simp only [Request.perform,Functor.map,EStateM.map,Heap.setField,live_of_isFreed gone]

end

/-- An instance that has lost its class cannot be printed, and it is not said why. -/
theorem inspect_emptied {fields : Bindings ν} (emptied : h.object? r = some (.instanceOf none fields)) :
    h.inspect r = .error (.fault .wrongKind) := by
  simp only [inspect,emptied,wrongKind]

/-! ## Chains that lead to released objects -/

theorem isFreed_of_cells {k : Heap ν} (same : k.cells[r.index]? = h.cells[r.index]?) :
    k.isFreed r = h.isFreed r := by simp only [isFreed,same]

theorem refusal_of_cells {k : Heap ν} (same : k.cells[r.index]? = h.cells[r.index]?) :
    k.refusal r = h.refusal r := by simp only [refusal,kindOf,slotOf,same]

theorem inside_of_isFreed (gone : h.isFreed r) : r.index < h.cells.size := by
  by_contra outside
  rw [isFreed,Array.getElem?_eq_none (Nat.le_of_not_lt outside)] at gone
  cases gone

/-- A search gets as far in every heap in which no class on its way has changed. -/
theorem Ascends.mono {k : Heap ν} {c : Ref} {name : String} (way : h.Ascends name c r)
    (kept : ∀ {s cell}, h.live s = .ok cell → k.live s = .ok cell) : k.Ascends name c r := by
  induction way with
  | here c => exact .here c
  | up live object absent older _ ih => exact .up (kept live) object absent older ih

section
variable [Holder ν] {roots : List Ref} {o : Object ν}

/-- Whoever can reach a class can be led astray by a search that gets to a released one. -/
theorem Ascends.strays {c : Ref} {name : String} (way : h.Ascends name c r) (gone : h.isFreed r)
    (trail : h.Trail roots c) : h.Strays roots := by
  induction way with
  | here c => exact ⟨c,trail,not_isRegistered_of_isFreed gone⟩
  | @up c s r cell title methods live object _ _ _ ih =>
    by_cases owned : h.isRegistered c
    · refine ih gone (.step trail owned ?_)
      simp [referencesOf,(live_eq_ok live).1,object,Object.references]
    · exact ⟨c,trail,owned⟩

/-- What leads astray still does when there is one more object. -/
theorem Strays.push (strays : h.Strays roots) (o : Object ν) :
    Strays { h with cells := h.cells.push { object := o } } roots := by
  obtain ⟨r,trail,stray⟩ := strays
  refine ⟨r,?_,by rwa [isRegistered_push]⟩
  clear stray
  induction trail with
  | root m => exact .root m
  | @step r s _ owned m ih =>
    refine .step ih (by rwa [isRegistered_push]) ?_
    rwa [referencesOf,getElem?_push_of_isRegistered o owned]

/-- An allocation that need not collect adds one object. -/
theorem place_of_not_due (spare : h.due = false) (o : Object ν) (roots : List Ref) :
    Heap.place o roots h = .ok ⟨h.cells.size⟩ (h.placed o) := by
  have spare : due { h with cells := h.cells.push { object := o } } = false := spare
  have cell : (h.cells.push { object := o })[h.cells.size]? = some { object := o } := by simp
  rw [place_eq,register_new cell rfl,spare,if_neg Bool.false_ne_true]
  rfl

/-- An allocation that has to collect and is led astray breaks off, and only marks have changed. -/
theorem Coherent.place_stray (own : h.Coherent) (due : h.due) (strays : h.Strays (roots ++ o.references)) :
    ∃ f k, Heap.place o roots h = .error (.fault f) k ∧ f.isCorruption ∧
      ∀ s : Ref, s.index < h.cells.size → Untouched h k s := by
  have cell : (h.cells.push { object := o })[h.cells.size]? = some { object := o } := by simp
  have coherent : Coherent { h with cells := h.cells.push { object := o } } := own.create o
  obtain ⟨f,k,failed,corrupt⟩ := coherent.register_stray (r := ⟨h.cells.size⟩) cell rfl due (strays.push o)
  obtain ⟨-,-,same⟩ := coherent.register_corrupt (r := ⟨h.cells.size⟩) cell rfl failed corrupt
  refine ⟨f,k,by rw [place_eq,failed],corrupt,fun s inside => ?_⟩
  have others := congrArg (fun l : Heap ν => l.cells[s.index]?) same
  simpa only [Untouched,getElem?_unmarked,Array.getElem?_push,if_neg (Nat.ne_of_lt inside)] using others

end
end Lox.Heap
