import Lox.Proofs.Eval.Permanence

/-! # Tasks in order

Of two tasks that are performed in the course of a third one, either the one is performed within the
other, or the one has ended when the other starts. So what lasts on the heap of the one can be found
on the heap of the other.
-/
namespace Lox
open Machine Exec

/-- Everything that a computation asks for happens between its start and its end, one thing after
another. -/
structure Exec.OrderedAt {α : Type} (E : Evaluator) (x : Evaluator → Exec α) (m : Machine) : Prop where
  ends : (stateAfter (x E m)).heap.Ordinary ∧ m.heap.Lasts (stateAfter (x E m)).heap
  starts {u j} : Asks (fun E => x E m) E u j → j.heap.Ordinary ∧ m.heap.Lasts j.heap
  behind {u j} : Asks (fun E => x E m) E u j →
    (stateAfter (E u j)).heap.Lasts (stateAfter (x E m)).heap
  sorted {u v j k} : Asks (fun E => x E m) E u j → Asks (fun E => x E m) E v k →
    (v = u ∧ k = j) ∨ (stateAfter (E u j)).heap.Lasts k.heap ∨ (stateAfter (E v k)).heap.Lasts j.heap

/-- A computation is ordered if all is that it asks for. -/
structure Exec.Ordered {α : Type} (E : Evaluator) (x : Evaluator → Exec α) : Prop where
  orderly : Orderly x
  ordered {m : Machine} : (∀ u j, Asks (fun E => x E m) E u j → j.heap.Ordinary →
      (stateAfter (E u j)).heap.Ordinary ∧ j.heap.Lasts (stateAfter (E u j)).heap) →
    m.heap.Ordinary → OrderedAt E x m

section
variable {α β : Type} {E : Evaluator}

theorem ordered_const {x : Exec α}
    (keeps : ∀ h : Heap Value, Keeps (fun k => k.Ordinary ∧ h.Lasts k) E fun _ => x) :
    Ordered E fun _ => x where
  orderly := .const x
  ordered {m} _ ordinary := by
    constructor
    case ends => exact (keeps m.heap).state ⟨ordinary,.refl _⟩
    all_goals
      intros
      exact absurd ‹_› (not_asks_const _)

theorem ordered_give (t : Task) : Ordered E fun E => E t where
  orderly := .give t
  ordered {m} given ordinary := by
    constructor
    · exact given t m (asks_give E t m) ordinary
    · intro u j asks
      obtain ⟨rfl,rfl⟩ := eq_of_asks asks
      exact ⟨ordinary,.refl _⟩
    · intro u j asks
      obtain ⟨rfl,rfl⟩ := eq_of_asks asks
      exact .refl _
    · intro u v j k asks asks'
      obtain ⟨rfl,rfl⟩ := eq_of_asks asks
      obtain ⟨rfl,rfl⟩ := eq_of_asks asks'
      exact .inl ⟨rfl,rfl⟩

theorem Exec.Ordered.bind {x : Evaluator → Exec α} {f : Evaluator → α → Exec β} (hx : Ordered E x)
    (hf : ∀ a, Ordered E fun E => f E a) : Ordered E fun E => x E >>= f E where
  orderly := .bind hx.orderly fun a => (hf a).orderly
  ordered {m} given ordinary := by
    have first := hx.ordered (fun u j asks => given u j asks.bind_left) ordinary
    have split := fun {u j} => Asks.of_bind (f := f) (E := E) (t := u) (m := m) (j := j) hx.orderly
    cases answered : x E m with
    | error h k =>
      have left : ∀ {u j}, Asks (fun E => (x E >>= f E) m) E u j → Asks (fun E => x E m) E u j := by
        intro u j asks
        rcases split asks with asks | ⟨_,_,e,_⟩
        · exact asks
        · cases answered.symm.trans e
      have last : stateAfter ((x E >>= f E) m) = stateAfter (x E m) := by
        simp only [Bind.bind,EStateM.bind,answered]
        rfl
      constructor
      · rw [last]
        exact first.ends
      · intro u j asks
        exact first.starts (left asks)
      · intro u j asks
        rw [last]
        exact first.behind (left asks)
      · intro u v j k asks asks'
        exact first.sorted (left asks) (left asks')
    | ok a k =>
      have ends := first.ends
      have behind := fun {u j} => first.behind (u := u) (j := j)
      rw [answered] at ends behind
      have second := (hf a).ordered (m := k)
        (fun u j asks => given u j (asks.bind_right hx.orderly answered)) ends.1
      have either : ∀ {u j}, Asks (fun E => (x E >>= f E) m) E u j → Asks (fun E => x E m) E u j ∨
          Asks (fun E => f E a k) E u j := by
        intro u j asks
        rcases split asks with asks | ⟨_,_,e,asks⟩
        · exact .inl asks
        · cases answered.symm.trans e
          exact .inr asks
      have last : stateAfter ((x E >>= f E) m) = stateAfter (f E a k) := by
        simp only [Bind.bind,EStateM.bind,answered]
      constructor
      · rw [last]
        exact ⟨second.ends.1,ends.2.trans second.ends.2⟩
      · intro u j asks
        rcases either asks with asks | asks
        · exact first.starts asks
        · obtain ⟨ordinary,lasts⟩ := second.starts asks
          exact ⟨ordinary,ends.2.trans lasts⟩
      · intro u j asks
        rw [last]
        rcases either asks with asks | asks
        · exact (behind asks).trans second.ends.2
        · exact second.behind asks
      · intro u v j l asks asks'
        rcases either asks with asks | asks <;> rcases either asks' with asks' | asks'
        · exact first.sorted asks asks'
        · exact .inr (.inl ((behind asks).trans (second.starts asks').2))
        · exact .inr (.inr ((behind asks').trans (second.starts asks).2))
        · exact second.sorted asks asks'

/-- A bracket that leaves the heap alone. -/
theorem Exec.Ordered.bracket {x : Evaluator → Exec α} (h : Ordered E x) (into : Machine → Machine)
    {back : Machine → Machine → Machine} (inside : ∀ m, (into m).heap = m.heap)
    (outside : ∀ m k, (back m k).heap = k.heap) :
    Ordered E fun E m => afterwards (x E) (back m) (into m) where
  orderly m := h.orderly.afterwards _ _
  ordered {m} given ordinary := by
    have within := h.ordered (m := into m) (fun u j asks => given u j asks.afterwards) (by rwa [inside])
    have last : (stateAfter (afterwards (x E) (back m) (into m))).heap =
        (stateAfter (x E (into m))).heap := by
      rw [stateAfter_afterwards,outside]
    constructor
    · rw [last,← inside m]
      exact within.ends
    · intro u j asks
      rw [← inside m]
      exact within.starts asks.of_afterwards
    · intro u j asks
      rw [last]
      exact within.behind asks.of_afterwards
    · intro u v j k asks asks'
      exact within.sorted asks.of_afterwards asks'.of_afterwards

theorem quiet_ordered (E : Evaluator) :
    Quiet (fun _ => True) fun {α} (x : Evaluator → Exec α) => Ordered E x where
  pure a := ordered_const fun _ => (quiet_keeps _ E).pure a
  raise here other := ordered_const fun _ => (quiet_keeps _ E).raise here other
  fault f calm := ordered_const fun _ => (quiet_keeps _ E).fault f calm
  bind := .bind
  seeing h := ⟨fun m => (h m.sight).orderly m,fun {m} given ordinary =>
    have seen := (h m.sight).ordered (m := m) given ordinary
    ⟨seen.ends,seen.starts,seen.behind,seen.sorted⟩⟩
  tick := ordered_const fun _ => (quiet_keeps _ E).tick
  log message := ordered_const fun _ => (quiet_keeps _ E).log message
  keep x := ordered_const fun _ => (quiet_keeps _ E).keep x
  print text := ordered_const fun _ => (quiet_keeps _ E).print text
  clock := ordered_const fun _ => (quiet_keeps _ E).clock
  releasing h := h.bracket id (fun _ => rfl) fun _ _ => rfl
  inEnvironment r _ h := h.bracket (fun m => { m with current := r, saved := m.current :: m.saved })
    (fun _ => rfl) fun _ _ => rfl

theorem stays_ordinary_lasts (h : Heap Value) :
    Stays (fun k => k.Ordinary ∧ h.Lasts k) (Task.Named Ordinary) fun _ _ => True :=
  (stays_ordinary _).and (stays_lasts h _)

theorem ordered_declareClass {name : Name} {superclass : Option Ref} {rs : List Routine}
    (named : (Task.declareClass name superclass rs).Named Ordinary) :
    Ordered E fun _ => declareClass name superclass rs :=
  ordered_const fun h => keeps_const fun _ => (stays_ordinary_lasts h).declared named trivial

theorem ordered_instantiate (c : Ref) (xs : List Value) :
    Ordered E fun E => (Task.instantiate c xs).perform E := by
  have q := quiet_ordered E
  have made : Ordered E fun _ => allocate (.instanceOf (some c) {}) := ordered_const fun h =>
    (stays_ordinary_lasts h).tidied.allocate fun k holds =>
      ⟨.make (by simp [Object.kind]) holds.1,holds.2.trans (Heap.lasts_create _ k)⟩
  refine (q.looking .start fun h => Heap.plain_live h c).bind fun _ => made.bind fun r =>
    (q.looking .start fun h => Heap.plain_findMethod h c "init").bind fun init => ?_
  cases init with
  | none => exact q.pure _
  | some f => exact (q.keeping _ (ordered_give (.callBound f r xs))).bind fun _ => q.pure _

theorem ordered_writes {t : Task} (named : t.Named Ordinary)
    (other : ∀ name superclass methods, t ≠ .declareClass name superclass methods)
    (other' : ∀ c xs, t ≠ .instantiate c xs) :
    Writes (fun {α} (x : Evaluator → Exec α) => Ordered E x) t := by
  have writes := fun h => (stays_ordinary_lasts h).writes (E := E) named other other'
  constructor
  case assign => exact fun x same => ordered_const fun h => (writes h).assign x same
  case set => exact fun pos r name x => ordered_const fun h => (writes h).set pos r name x
  case environment => exact fun enclosing => ordered_const fun h => (writes h).environment enclosing
  case instanceOf => exact fun same => ordered_const fun h => (writes h).instanceOf same
  case receiver => exact fun closure r => ordered_const fun h => (writes h).receiver closure r
  case parameters => exact fun env same => ordered_const fun h => (writes h).parameters env same
  case var => exact fun env x same => ordered_const fun h => (writes h).var env x same
  case function => exact fun same => ordered_const fun h => (writes h).function same
  case declared => exact fun same => absurd same (other _ _ _)

theorem ordered_perform {t : Task} (named : t.Named Ordinary) : Ordered E fun E => t.perform E := by
  have q := quiet_ordered E
  by_cases declares : ∃ name superclass methods, t = .declareClass name superclass methods
  · obtain ⟨name,superclass,methods,rfl⟩ := declares
    exact ordered_declareClass named
  by_cases makes : ∃ c xs, t = .instantiate c xs
  · obtain ⟨c,xs,rfl⟩ := makes
    exact ordered_instantiate c xs
  by_cases call : ∃ callee paren args, t = .evaluate (.call callee paren args)
  · obtain ⟨callee,paren,args,rfl⟩ := call
    have entered : ∀ p : Value × List Value, Ordered E fun E => E.enter paren p.1 p.2 := fun p => by
      have enter : Ordered E fun _ => enterCall paren := ordered_const fun h =>
        keeps_of_heap_eq fun m => by
          simp only [enterCall]
          split <;> rfl
      exact enter.bind fun _ => ((q.traceCall p.1).bind fun _ => ordered_give (.call p.1 p.2)).bracket
        (fun m => { m with frames := p.1 :: m.frames }) (fun _ => rfl) fun _ _ => rfl
    simp only [perform_call]
    exact q.tick.bind fun _ => (q.trace _ _).bind fun _ => (q.trace _ _).bind fun _ =>
      q.releasing ((q.prepare ordered_give (Expr.raisesIn_all _)).bind entered)
  · exact q.perform_other ordered_give t.raisesIn_all (ordered_writes named
      (fun _ _ _ e => declares ⟨_,_,_,e⟩) fun _ _ e => makes ⟨_,_,e⟩) fun _ _ _ e => call ⟨_,_,_,e⟩

end

/-! ## Tasks that arise -/

section
variable {n l i : Nat} {t u v : Task} {m j k : Machine}

/-- The work on a task with ordinary names is ordered. -/
theorem ordered_task (named : t.Named Ordinary) (ordinary : m.heap.Ordinary) :
    OrderedAt (evaluator n) (fun E => t.perform E) m := by
  refine (ordered_perform named).ordered (fun u j asks holding => ?_) ordinary
  exact (kept_lasts j.heap).stays n ((gives_of_asks asks).named ordinary named) trivial
    ⟨holding,.refl _⟩

/-- Either a task is performed itself, or one that it asks for leads to what is performed. -/
theorem Arises.head (arises : Arises n t m l u k) : (l = n ∧ u = t ∧ k = m) ∨
    ∃ d v j, n = d + 1 ∧ Asks (fun E => t.perform E m) (evaluator d) v j ∧ Arises d v j l u k := by
  induction arises with
  | itself => exact .inl ⟨rfl,rfl,rfl⟩
  | @asked l u k w o arises asks ih =>
    rcases ih with ⟨same,rfl,rfl⟩ | ⟨d,v,j,same,first,later⟩
    · exact .inr ⟨l,w,o,same.symm,asks,.itself⟩
    · exact .inr ⟨d,v,j,same,first,.asked later asks⟩

/-- What arises from a task that is asked for arises from the one that asks. -/
theorem Arises.under (asks : Asks (fun E => t.perform E m) (evaluator n) v j) (arises : Arises n v j l u k) :
    Arises (n + 1) t m l u k := by
  induction arises with
  | itself => exact .asked .itself asks
  | asked _ later ih => exact .asked ih later

/-- What is performed in the course of a task happens between its start and its end. -/
theorem Arises.lasts (arises : Arises n t m l u k) (named : t.Named Ordinary) (ordinary : m.heap.Ordinary) :
    u.Named Ordinary ∧ k.heap.Ordinary ∧ m.heap.Lasts k.heap ∧
      (stateAfter (evaluator l u k)).heap.Lasts (stateAfter (evaluator n t m)).heap := by
  induction arises with
  | itself => exact ⟨named,ordinary,.refl _,.refl _⟩
  | @asked l u k v j _ asks ih =>
    obtain ⟨named,ordinary,lasts,ends⟩ := ih
    have task : OrderedAt (evaluator l) (fun E => u.perform E) k := ordered_task named ordinary
    obtain ⟨ordinary',later⟩ := task.starts asks
    have behind := task.behind asks
    rw [evaluator_succ] at ends
    exact ⟨(gives_of_asks asks).named ordinary named,ordinary',lasts.trans later,behind.trans ends⟩

/-- Of two tasks in the course of a third, one is performed within the other or behind it. -/
theorem Arises.ordered (first : Arises n t m l u k) (second : Arises n t m i v j)
    (named : t.Named Ordinary) (ordinary : m.heap.Ordinary) :
    Arises l u k i v j ∨ Arises i v j l u k ∨
      (stateAfter (evaluator l u k)).heap.Lasts j.heap ∨
      (stateAfter (evaluator i v j)).heap.Lasts k.heap := by
  induction n generalizing t m with
  | zero =>
    rcases first.head with ⟨rfl,rfl,rfl⟩ | ⟨_,_,_,none,_⟩
    · exact .inl second
    · cases none
  | succ n ih =>
    rcases first.head with ⟨rfl,rfl,rfl⟩ | ⟨_,w,o,same,asks,first⟩
    · exact .inl second
    rcases second.head with ⟨rfl,rfl,rfl⟩ | ⟨_,w',o',same',asks',second⟩
    · cases same
      exact .inr (.inl (first.under asks))
    cases same
    cases same'
    have task : OrderedAt (evaluator n) (fun E => t.perform E) m := ordered_task named ordinary
    have named₁ := (gives_of_asks asks).named ordinary named
    have named₂ := (gives_of_asks asks').named ordinary named
    obtain ⟨-,-,start,ending⟩ := first.lasts named₁ (task.starts asks).1
    obtain ⟨-,-,start',ending'⟩ := second.lasts named₂ (task.starts asks').1
    rcases task.sorted asks asks' with ⟨rfl,rfl⟩ | later | later
    · exact ih first second named₁ (task.starts asks).1
    · exact .inr (.inr (.inl ((ending.trans later).trans start')))
    · exact .inr (.inr (.inr ((ending'.trans later).trans start)))

end
end Lox
