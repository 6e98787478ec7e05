import Lox.Proofs.Eval.Stages
import Lox.Proofs.Eval.Uniform
import Lox.Proofs.Heap.Tidying

/-! # Invariants of the heap

An invariant of the heap that every operation keeps, as far as the tasks at hand use it, holds at every
stage of an evaluation. `Kept` says what is asked for: what happens to single objects, and that the
tasks that are asked for are again of the kind whose operations keep the invariant.
-/
namespace Lox
open Machine Exec

/-- A name can be bound in any environment. -/
def Heap.Bindable (I : Heap Value → Prop) (name : String) : Prop :=
  ∀ {h : Heap Value} {r : Ref} {values : Bindings Value} {enclosing : Option Ref} (x : Value),
    h.environment r = .ok (values,enclosing) → I h →
      I (h.setObject r (.environment (values.set name x) enclosing))

/-- Registering and collecting keep the invariant. -/
def Heap.Stable (I : Heap Value → Prop) : Prop :=
  ∀ h k : Heap Value, Heap.Tidied h.cells k.cells → I h → I k

/-- A class is declared over a class, and what is made an instance of is one. -/
def Task.Founded (m : Machine) : Task → Prop
  | .declareClass _ (some c) _ | .instantiate c _ => m.heap.kindOf c = .klass
  | _ => True

/-- The operations of some tasks keep an invariant of the heap. Whether a class can be declared may depend
on the machine. -/
structure Stays (I : Heap Value → Prop) (ready : Task → Prop) (apt : Task → Machine → Prop) : Prop where
  tidied : Heap.Stable I
  environment (enclosing : Option Ref) {h : Heap Value} : I h →
    I (stateAfter (Heap.create (.environment {} enclosing) h))
  instanceOf {c xs m} : ready (.instantiate c xs) → apt (.instantiate c xs) m → I m.heap →
    I (stateAfter (Heap.create (.instanceOf (some c) {}) m.heap))
  field {h : Heap Value} {r : Ref} {c : Cell Value} {base fields} (name : String) (x : Value) :
    h.live r = .ok c → c.object = .instanceOf base fields → I h →
      I (h.setObject r (.instanceOf base (fields.set name x)))
  receiver (closure : Option Ref) (receiver : Ref) {m : Machine} : I m.heap →
    I (stateAfter (receiverEnvironment closure receiver m)).heap
  var {name init} : ready (.execute (.var name init)) → Heap.Bindable I name.text
  assigned {r e} : ready (.evaluate (.assign r e)) → Heap.Bindable I r.name.text
  parameter {r closure xs p} : ready (.invoke r closure xs) → p ∈ r.params → Heap.Bindable I p.text
  function {r} : ready (.execute (.function r)) → Heap.Bindable I r.name.text ∧
    ∀ (closure : Ref) {h : Heap Value}, I h → I (stateAfter (Heap.create (.function r (some closure)) h))
  declared {name superclass methods m} : ready (.declareClass name superclass methods) →
    apt (.declareClass name superclass methods) m → I m.heap →
      I (stateAfter (declareClass name superclass methods m)).heap

/-- An invariant of the heap that the operations of some tasks keep, and those of the tasks that these
ask for. -/
structure Kept (I : Heap Value → Prop) (ready : Task → Prop)
    (apt : Task → Machine → Prop) : Prop extends Stays I ready apt where
  gives {E t m u j} : t.Gives E m u j → I m.heap → ready t → ready u
  asked {n t m u j} : I m.heap → ready t → apt t m →
    Asks (fun E => t.perform E m) (evaluator n) u j → apt u j

theorem Heap.Bindable.and {I J : Heap Value → Prop} {name : String} (left : Heap.Bindable I name)
    (right : Heap.Bindable J name) : Heap.Bindable (fun h => I h ∧ J h) name :=
  fun x found holds => ⟨left x found holds.1,right x found holds.2⟩

/-- Two invariants at once. -/
theorem Stays.and {I J : Heap Value → Prop} {ready : Task → Prop} {apt : Task → Machine → Prop}
    (left : Stays I ready apt) (right : Stays J ready apt) : Stays (fun h => I h ∧ J h) ready apt where
  tidied h k tidied holds := ⟨left.tidied h k tidied holds.1,right.tidied h k tidied holds.2⟩
  environment enclosing _ holds := ⟨left.environment enclosing holds.1,right.environment enclosing holds.2⟩
  instanceOf isReady isApt holds :=
    ⟨left.instanceOf isReady isApt holds.1,right.instanceOf isReady isApt holds.2⟩
  field name x live same holds := ⟨left.field name x live same holds.1,right.field name x live same holds.2⟩
  receiver closure r _ holds := ⟨left.receiver closure r holds.1,right.receiver closure r holds.2⟩
  var isReady := Heap.Bindable.and (left.var isReady) (right.var isReady)
  assigned isReady := Heap.Bindable.and (left.assigned isReady) (right.assigned isReady)
  parameter isReady hp := Heap.Bindable.and (left.parameter isReady hp) (right.parameter isReady hp)
  function isReady := by
    obtain ⟨bindable,made⟩ := left.function isReady
    obtain ⟨bindable',made'⟩ := right.function isReady
    exact ⟨Heap.Bindable.and bindable bindable',fun closure _ holds => ⟨made closure holds.1,made' closure holds.2⟩⟩
  declared isReady isApt holds :=
    ⟨left.declared isReady isApt holds.1,right.declared isReady isApt holds.2⟩

/-! ## Computations that keep an invariant -/

section
variable {I : Heap Value → Prop} {E : Evaluator} {α β : Type}

/-- From a machine where the invariant holds, the computation asks for tasks only where it holds, and
leaves it in place if they do. -/
def Exec.KeepsAt (I : Heap Value → Prop) (E : Evaluator) (x : Evaluator → Exec α) (m : Machine) : Prop :=
  (∀ u j, Asks (fun E => x E m) E u j → I j.heap → I (stateAfter (E u j)).heap) → I m.heap →
    I (stateAfter (x E m)).heap ∧ ∀ u j, Asks (fun E => x E m) E u j → I j.heap

structure Exec.Keeps (I : Heap Value → Prop) (E : Evaluator) (x : Evaluator → Exec α) : Prop where
  orderly : Orderly x
  keeps (m : Machine) : KeepsAt I E x m

theorem keepsAt_const {x : Exec α} {m : Machine} (h : I m.heap → I (stateAfter (x m)).heap) :
    KeepsAt I E (fun _ => x) m :=
  fun _ holds => ⟨h holds,fun _ _ asks => absurd asks (not_asks_const _)⟩

theorem keeps_const {x : Exec α} (h : ∀ m, I m.heap → I (stateAfter (x m)).heap) :
    Keeps I E fun _ => x := ⟨.const x,fun m => keepsAt_const (h m)⟩

theorem Exec.Keeps.state {x : Exec α} (h : Keeps I E fun _ => x) {m : Machine} (holds : I m.heap) :
    I (stateAfter (x m)).heap := (h.keeps m (fun _ _ asks => absurd asks (not_asks_const _)) holds).1

theorem keeps_of_heap_eq {x : Exec α} (h : ∀ m, (stateAfter (x m)).heap = m.heap) :
    Keeps I E fun _ => x := keeps_const fun m holds => by rwa [h m]

theorem keeps_give (t : Task) : Keeps I E fun E => E t where
  orderly := .give t
  keeps m given holds := by
    refine ⟨given t m (asks_give E t m) holds,fun u j asks => ?_⟩
    obtain ⟨rfl,rfl⟩ := eq_of_asks asks
    exact holds

theorem Exec.KeepsAt.bind {x : Evaluator → Exec α} {f : Evaluator → α → Exec β} {m : Machine}
    (orderly : Orderly x) (hx : KeepsAt I E x m)
    (hf : ∀ a k, x E m = .ok a k → KeepsAt I E (fun E => f E a) k) :
    KeepsAt I E (fun E => x E >>= f E) m := by
  intro given holds
  obtain ⟨after,asked⟩ := hx (fun u j asks => given u j asks.bind_left) holds
  cases first : x E m with
  | error h k =>
    rw [first] at after
    simp only [Bind.bind,EStateM.bind,first]
    refine ⟨after,fun u j asks => ?_⟩
    rcases Asks.of_bind orderly asks with asks | ⟨_,_,e,_⟩
    · exact asked u j asks
    · cases first.symm.trans e
  | ok a k =>
    rw [first] at after
    obtain ⟨after,later⟩ := hf a k first (fun u j asks => given u j (asks.bind_right orderly first)) after
    simp only [Bind.bind,EStateM.bind,first]
    refine ⟨after,fun u j asks => ?_⟩
    rcases Asks.of_bind orderly asks with asks | ⟨_,_,e,asks⟩
    · exact asked u j asks
    · cases first.symm.trans e
      exact later u j asks

theorem Exec.Keeps.bind {x : Evaluator → Exec α} {f : Evaluator → α → Exec β} (hx : Keeps I E x)
    (hf : ∀ a, Keeps I E fun E => f E a) : Keeps I E fun E => x E >>= f E where
  orderly := .bind hx.orderly fun a => (hf a).orderly
  keeps m := .bind hx.orderly (hx.keeps m) fun a k _ => (hf a).keeps k

/-- A bracket that leaves the heap alone. -/
theorem Exec.Keeps.bracket {x : Evaluator → Exec α} (h : Keeps I E x) (into : Machine → Machine)
    {back : Machine → Machine → Machine} (inside : ∀ m, (into m).heap = m.heap)
    (behind : ∀ m k, (back m k).heap = k.heap) : Keeps I E fun E m => afterwards (x E) (back m) (into m) where
  orderly m := h.orderly.afterwards _ _
  keeps m given holds := by
    obtain ⟨after,asked⟩ := h.keeps (into m) (fun u j asks => given u j asks.afterwards) (by rwa [inside])
    refine ⟨?_,fun u j asks => asked u j asks.of_afterwards⟩
    rw [stateAfter_afterwards,behind]
    exact after

theorem quiet_keeps (I : Heap Value → Prop) (E : Evaluator) :
    Quiet (fun _ => True) fun {α} (x : Evaluator → Exec α) => Keeps I E x where
  pure _ := keeps_of_heap_eq fun _ => rfl
  raise _ _ := keeps_of_heap_eq fun _ => rfl
  fault _ _ := keeps_of_heap_eq fun _ => rfl
  bind := .bind
  seeing h := ⟨fun m => (h m.sight).orderly m,fun m => (h m.sight).keeps m⟩
  tick := keeps_of_heap_eq fun m => by
    simp only [tick]
    split <;> rfl
  log _ := keeps_of_heap_eq fun _ => rfl
  keep _ := keeps_of_heap_eq fun _ => rfl
  print _ := keeps_of_heap_eq fun _ => rfl
  clock := keeps_of_heap_eq fun _ => rfl
  releasing h := h.bracket id (fun _ => rfl) fun _ _ => rfl
  inEnvironment r _ h := h.bracket (fun m => { m with current := r, saved := m.current :: m.saved })
    (fun _ => rfl) fun _ _ => rfl

theorem keeps_onHeap (pos : Pos) {op : HeapM Value α} (h : ∀ heap, I heap → I (stateAfter (op heap))) :
    Keeps I E fun _ => onHeap pos op := keeps_const fun m holds => by
  have after := h m.heap holds
  simp only [onHeap]
  cases e : op m.heap with
  | ok a heap => rwa [e] at after
  | error f heap => rwa [e] at after

end

/-! ## Writing -/

section
variable {I : Heap Value → Prop} {h : Heap Value} {name : String} (bindable : Heap.Bindable I name)
include bindable

theorem Heap.Bindable.define (r : Ref) (x : Value) (holds : I h) :
    I (stateAfter (Heap.define r name x h)) := by
  simp only [Heap.define]
  split
  · exact holds
  · exact bindable x ‹_› holds

theorem Heap.Bindable.assign (r : Ref) (x : Value) (holds : I h) :
    I (stateAfter (Heap.assign r name x h)) := by
  simp only [Heap.assign]
  split
  · exact holds
  · split
    · exact bindable x ‹_› holds
    · exact holds

theorem Heap.Bindable.assignAt (r : Ref) (distance : Int) (x : Value) (holds : I h) :
    I (stateAfter (Heap.assignAt r distance name x h)) := by
  simp only [Heap.assignAt]
  split
  · exact holds
  · exact bindable.assign _ x holds

end

section
variable {I : Heap Value → Prop} {E : Evaluator}

theorem keeps_define {name : String} (bindable : Heap.Bindable I name) (r : Ref) (x : Value) :
    Keeps I E fun _ => define r name x := keeps_onHeap .start fun _ => bindable.define r x

theorem keeps_assignVariable {r : Reference} (bindable : Heap.Bindable I r.name.text) (x : Value) :
    Keeps I E fun _ => assignVariable r x := by
  obtain ⟨name,depth⟩ := r
  have q := quiet_keeps I E
  cases depth with
  | some d =>
    exact q.seeing (x := fun v _ => onHeap name.pos (Heap.assignAt v.current d name.text x)) fun v =>
      keeps_onHeap name.pos fun _ => bindable.assignAt v.current d x
  | none =>
    exact q.seeing (x := fun v _ => onHeap name.pos (Heap.assign v.globals name.text x)) fun v =>
      keeps_onHeap name.pos fun _ => bindable.assign v.globals x

theorem keeps_bindParameters {ps : List Name} (bindable : ∀ p ∈ ps, Heap.Bindable I p.text) (env : Ref)
    (xs : List Value) : Keeps I E fun _ => bindParameters env ps xs := by
  induction ps generalizing xs with
  | nil => exact (quiet_keeps I E).pure ()
  | cons p ps ih =>
    obtain ⟨first,others⟩ := List.forall_mem_cons.mp bindable
    cases xs with
    | nil => exact (quiet_keeps I E).pure ()
    | cons x xs => exact (keeps_define first env x).bind fun _ => ih others xs

section
variable (stable : Heap.Stable I)
include stable

theorem Heap.Stable.cells {h k : Heap Value} (same : k.cells = h.cells) (holds : I h) : I k :=
  stable h k (same ▸ Heap.Tidied.refl h.cells) holds

theorem Heap.Stable.logJournal {m : Machine} (holds : I m.heap) : I m.logJournal.heap := by
  simp only [Machine.logJournal]
  split
  · exact holds
  · exact stable.cells (h := m.heap) rfl holds

theorem Heap.Stable.registerObject (r : Ref) : Keeps I E fun _ => registerObject r := by
  refine keeps_const fun m holds => ?_
  have after := stable _ _ (Heap.tidied_register r (if m.heap.due then m.roots else []) m.heap) holds
  simp only [Exec.registerObject]
  cases e : Heap.register r (if m.heap.due then m.roots else []) m.heap with
  | ok slot heap =>
    rw [e] at after
    exact stable.logJournal (m := { m with heap }) after
  | error f heap =>
    rw [e] at after
    exact stable.logJournal (m := { m with heap }) after

theorem Heap.Stable.allocate {o : Object Value}
    (h : ∀ heap, I heap → I (stateAfter (Heap.create o heap))) : Keeps I E fun _ => allocate o :=
  (keeps_onHeap .start h).bind fun r => (stable.registerObject r).bind fun _ => (quiet_keeps I E).pure r

theorem Heap.Stable.newMethods {rs : List Routine} {closure : Ref}
    (h : ∀ r ∈ rs, ∀ heap, I heap → I (stateAfter (Heap.create (.function r (some closure)) heap)))
    (made : Bindings Ref) : Keeps I E fun _ => newMethods closure rs made := by
  induction rs generalizing made with
  | nil => exact (quiet_keeps I E).pure made
  | cons r rs ih =>
    obtain ⟨first,others⟩ := List.forall_mem_cons.mp h
    exact (stable.allocate first).bind fun f => ((quiet_keeps I E).keep (.object f)).bind fun _ =>
      ih others _

end

variable {ready : Task → Prop} {apt : Task → Machine → Prop} (kept : Stays I ready apt)
include kept

theorem Stays.newEnvironment (enclosing : Option Ref) : Keeps I E fun _ => newEnvironment enclosing :=
  kept.tidied.allocate fun _ => kept.environment enclosing

theorem Stays.setField (pos : Pos) (r : Ref) (name : String) (x : Value) :
    Keeps I E fun _ => onHeap pos (Heap.setField r name x) := keeps_onHeap pos fun h holds => by
  simp only [Heap.setField]
  split
  · exact holds
  · split
    · exact kept.field name x ‹_› ‹_› holds
    · exact holds

/-! ## Tasks -/

theorem Stays.declareFunction {r : Routine} (ready : ready (.execute (.function r))) :
    Keeps I E fun _ => declareFunction r := by
  obtain ⟨bindable,function⟩ := kept.function ready
  exact (quiet_keeps I E).currentEnvironment.bind fun env =>
    (kept.tidied.allocate fun _ => function env).bind fun f => keeps_define bindable env (.object f)

theorem Stays.writes {t : Task} (isReady : ready t)
    (other : ∀ name superclass methods, t ≠ .declareClass name superclass methods)
    (other' : ∀ c xs, t ≠ .instantiate c xs) :
    Writes (fun {α} (x : Evaluator → Exec α) => Keeps I E x) t where
  assign x same := keeps_assignVariable (kept.assigned (same ▸ isReady)) x
  set := kept.setField
  environment := kept.newEnvironment
  instanceOf same := absurd same (other' _ _)
  receiver closure r := keeps_const fun _ => kept.receiver closure r
  parameters env same := keeps_bindParameters (fun _ => kept.parameter (same ▸ isReady)) env _
  var env x same := keeps_define (kept.var (same ▸ isReady)) env x
  function same := kept.declareFunction (same ▸ isReady)
  declared same := absurd same (other _ _ _)

/-- An instance is made of what is read before. -/
theorem Stays.instantiate {c : Ref} {xs : List Value} {m : Machine} (isReady : ready (.instantiate c xs))
    (isApt : apt (.instantiate c xs) m) : KeepsAt I E (fun E => (Task.instantiate c xs).perform E) m := by
  have q := quiet_keeps I E
  have looks : ∀ m, KeepsAt I E (fun _ => reading .start (·.live c)) m :=
    (q.looking .start fun h => Heap.plain_live h c).keeps
  refine KeepsAt.bind (.const _) (looks m) fun _ k read => ?_
  obtain rfl : k = m := by
    simp only [reading] at read
    split at read
    · cases read
      rfl
    · cases read
  refine KeepsAt.bind (.const _) ?_ fun r k _ => ?_
  · refine KeepsAt.bind (.const _) (keepsAt_const fun holds => ?_) fun r k _ =>
      ((kept.tidied.registerObject r).bind fun _ => q.pure r).keeps k
    have made := kept.instanceOf isReady isApt holds
    exact made
  · refine ((q.looking .start fun h => Heap.plain_findMethod h c "init").bind fun init => ?_).keeps k
    cases init with
    | none => exact q.pure _
    | some f => exact (q.keeping _ (keeps_give (.callBound f r xs))).bind fun _ => q.pure _

/-- The work on a task keeps the invariant, if the tasks do that are asked for. -/
theorem Stays.perform {t : Task} {m : Machine} (isReady : ready t) (isApt : apt t m) :
    KeepsAt I E (fun E => t.perform E) m := by
  have q := quiet_keeps I E
  by_cases declares : ∃ name superclass methods, t = .declareClass name superclass methods
  · obtain ⟨name,superclass,methods,rfl⟩ := declares
    exact keepsAt_const (kept.declared isReady isApt)
  by_cases makes : ∃ c xs, t = .instantiate c xs
  · obtain ⟨c,xs,rfl⟩ := makes
    exact kept.instantiate isReady isApt
  by_cases call : ∃ callee paren args, t = .evaluate (.call callee paren args)
  · obtain ⟨callee,paren,args,rfl⟩ := call
    have entered : ∀ p : Value × List Value, Keeps I E fun E => E.enter paren p.1 p.2 := fun p => by
      refine (keeps_of_heap_eq fun m => ?_).bind fun _ => ?_
      · simp only [enterCall]
        split <;> rfl
      · exact ((q.traceCall p.1).bind fun _ => keeps_give (.call p.1 p.2)).bracket
          (fun m => { m with frames := p.1 :: m.frames }) (fun _ => rfl) fun _ _ => rfl
    simp only [perform_call]
    exact (q.tick.bind fun _ => (q.trace _ _).bind fun _ => (q.trace _ _).bind fun _ =>
      q.releasing ((q.prepare keeps_give (Expr.raisesIn_all _)).bind entered)).keeps m
  · refine (q.perform_other keeps_give t.raisesIn_all (kept.writes isReady (fun _ _ _ e => declares ⟨_,_,_,e⟩)
      fun _ _ e => makes ⟨_,_,e⟩) fun _ _ _ e => call ⟨_,_,_,e⟩).keeps m

end

theorem checkSuperclass_kind {r : Reference} {x : Value} {m k : Machine} {c : Ref}
    (h : checkSuperclass r x m = .ok c k) : k.heap.kindOf c = .klass := by
  obtain ⟨o,l,found,h⟩ := bind_eq_ok.mp h
  cases o with
  | none => cases h
  | some d =>
    cases h
    cases x with
    | object s =>
      simp only [class?] at found
      split at found
      · cases found
        assumption
      · cases found
    | _ => cases found

theorem Task.Gives.founded {E : Evaluator} {t u : Task} {m j : Machine} (gives : t.Gives E m u j) :
    u.Founded j := by
  cases gives with
  | derived _ _ _ checked => exact checkSuperclass_kind checked
  | klass kind => exact kind
  | _ => trivial

section
variable {I : Heap Value → Prop} {ready : Task → Prop} {apt : Task → Machine → Prop}
  (kept : Kept I ready apt) {t u : Task} {m j : Machine}
include kept

/-- However an evaluation ends, it leaves the invariant in place. -/
theorem Kept.stays (n : Nat) (isReady : ready t) (isApt : apt t m) (holds : I m.heap) :
    I (stateAfter (evaluator n t m)).heap := by
  induction n generalizing t m with
  | zero =>
    cases t with
    | declareClass => exact kept.declared isReady isApt holds
    | _ => exact holds
  | succ n ih =>
    rw [evaluator_succ]
    refine (kept.perform isReady isApt (fun u j asks holding => ?_) holds).1
    exact ih (kept.gives (gives_of_asks asks) holds isReady) (kept.asked holds isReady isApt asks) holding

/-- The invariant holds where a task is asked for, and the task is of the same kind. -/
theorem Kept.asks {n : Nat} (isReady : ready t) (isApt : apt t m) (holds : I m.heap)
    (asks : Asks (fun E => t.perform E m) (evaluator n) u j) : ready u ∧ apt u j ∧ I j.heap := by
  have keeps : KeepsAt I (Lox.evaluator n) (fun E => t.perform E) m := kept.perform isReady isApt
  obtain ⟨-,asked⟩ := keeps (fun v l asks holding =>
    kept.stays n (kept.gives (gives_of_asks asks) holds isReady) (kept.asked holds isReady isApt asks)
      holding) holds
  exact ⟨kept.gives (gives_of_asks asks) holds isReady,kept.asked holds isReady isApt asks,asked u j asks⟩

/-- The invariant holds at every stage. -/
theorem Kept.active {start stage : Stage} {stages : List Stage} (active : start.Active stages stage)
    (isReady : ready start.task) (isApt : apt start.task start.machine) (holds : I start.machine.heap) :
    ready stage.task ∧ apt stage.task stage.machine ∧ I stage.machine.heap ∧
      ∀ s ∈ stages, ready s.task ∧ I s.machine.heap := by
  induction active with
  | itself => exact ⟨isReady,isApt,holds,fun _ hs => absurd hs List.not_mem_nil⟩
  | asked _ asks ih =>
    obtain ⟨isReady,isApt,holds,behind⟩ := ih
    obtain ⟨isReady',isApt',holds'⟩ := kept.asks isReady isApt holds asks
    exact ⟨isReady',isApt',holds',List.forall_mem_cons.mpr ⟨⟨isReady,holds⟩,behind⟩⟩

end

/-! ## Invariants of routines -/

/-- The routines of functions are as is asked for. -/
abbrev Heap.Routines (P : Routine → Prop) (h : Heap Value) : Prop :=
  h.Every fun _ o => ∀ routine closure, o = .function routine closure → P routine

section
variable {P : Routine → Prop} {h : Heap Value} {o : Object Value}

theorem Heap.Routines.write {r : Ref} (other : o.kind ≠ .function) (holds : h.Routines P) :
    (h.setObject r o).Routines P := by
  refine Heap.Every.setObject (fun _ _ same => ?_) holds
  subst same
  exact absurd rfl other

theorem Heap.Routines.make (other : o.kind ≠ .function) (holds : h.Routines P) :
    (stateAfter (Heap.create o h)).Routines P := by
  refine Heap.Every.create (fun _ _ same => ?_) holds
  subst same
  exact absurd rfl other

theorem Heap.Routines.makeFunction {r : Routine} (allowed : P r) (closure : Option Ref)
    (holds : h.Routines P) : (stateAfter (Heap.create (.function r closure) h)).Routines P := by
  refine Heap.Every.create (fun _ _ same => ?_) holds
  cases same
  exact allowed

theorem stable_routines (P : Routine → Prop) : Heap.Stable (Heap.Routines P) := fun _ _ tidied =>
  Heap.Every.tidied (fun _ o holds => by
    rintro routine closure same
    cases o with
    | function r closure' =>
      cases same
      exact holds _ closure' rfl
    | _ => cases same) tidied

theorem bindable_routines (P : Routine → Prop) (name : String) : Heap.Bindable (Heap.Routines P) name :=
  fun _ _ => .write (by simp [Object.kind])

/-- Evaluation makes functions of nothing but the routines of the program. -/
theorem stays_routines {ready : Task → Prop} {apt : Task → Machine → Prop}
    (function : ∀ {r}, ready (.execute (.function r)) → P r)
    (methods : ∀ {name c rs r}, ready (.declareClass name c rs) → r ∈ rs → P r) :
    Stays (Heap.Routines P) ready apt where
  tidied := stable_routines P
  environment _ := .make (by simp [Object.kind])
  instanceOf _ _ := .make (by simp [Object.kind])
  field _ _ _ _ := .write (by simp [Object.kind])
  receiver closure r m holds := by
    have q := quiet_keeps (Heap.Routines P) (evaluator 0)
    exact (((stable_routines P).allocate fun _ => .make (by simp [Object.kind])).bind fun env =>
      (keeps_define (bindable_routines P "this") env (.object r)).bind fun _ => q.pure env).state holds
  var _ := bindable_routines P _
  assigned _ := bindable_routines P _
  parameter _ _ := bindable_routines P _
  function isReady := ⟨bindable_routines P _,fun closure _ => .makeFunction (function isReady) (some closure)⟩
  declared {name superclass rs m} isReady _ holds := by
    have q := quiet_keeps (Heap.Routines P) (evaluator 0)
    have closure : Keeps (Heap.Routines P) (evaluator 0) fun _ => methodEnvironment superclass := by
      refine q.currentEnvironment.bind fun env => ?_
      cases superclass with
      | none => exact q.pure env
      | some c =>
        exact ((stable_routines P).allocate fun _ => .make (by simp [Object.kind])).bind fun inner =>
          (keeps_define (bindable_routines P "super") inner _).bind fun _ =>
          (q.keep _).bind fun _ => q.pure inner
    exact (closure.bind fun env => ((stable_routines P).newMethods (fun r hr _ =>
      .makeFunction (methods isReady hr) (some env)) {}).bind fun _ =>
        ((stable_routines P).allocate fun _ => .make (by simp [Object.kind])).bind fun _ =>
        q.currentEnvironment.bind fun env => keeps_define (bindable_routines P name.text) env _).state holds

end
end Lox
