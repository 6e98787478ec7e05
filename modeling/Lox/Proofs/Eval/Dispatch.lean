import Lox.Proofs.Eval.Course

/-! # Environments of methods

A call of a method makes the environment of `this` before anything else is performed, and the declaration
of a class that of `super`. What such an environment binds and where it stands is the same on every later
heap.
-/
namespace Lox
open Machine Exec

section
variable {g h : Heap Value} {e : Ref} {enclosing outer : Option Ref} {name : String} {x y : Value}
  {values : Bindings Value}

/-- What is found later in an environment that has been made for `this` or `super`. -/
theorem Heap.Binding.found (binding : g.Binding e enclosing name x) (reserved : ¬Lox.Ordinary name)
    (lasts : g.Lasts h) (found : h.environment e = .ok (values,outer)) :
    outer = enclosing ∧ ∀ y, values.get? name = some y → y = x := by
  obtain ⟨c,cell,-,object⟩ := binding
  obtain ⟨d,hd,live,same⟩ := Heap.environment_eq_ok found
  obtain ⟨d',hd',later⟩ := lasts e.index c cell
  obtain rfl : d = d' := Option.some.inj (hd.symm.trans hd')
  obtain ⟨live,later⟩ := later.object live
  obtain ⟨old,made,either⟩ := object live
  have first : ∀ y, old.get? name = some y → y = x := by
    rintro y hy
    rcases either with rfl | rfl
    · cases hy
    · exact (Option.some.inj ((Bindings.get?_set_self {} name x).symm.trans hy)).symm
  rw [made,same] at later
  cases later with
  | same => exact ⟨rfl,first⟩
  | environment this super =>
    refine ⟨rfl,fun y hy => first y ?_⟩
    by_cases which : name = "this"
    · exact which ▸ this ▸ which ▸ hy
    · have which : name = "super" := by
        by_contra other
        exact reserved ⟨which,other⟩
      exact which ▸ super ▸ which ▸ hy

theorem Heap.hop_succ {r : Ref} {distance : Int} {d : Nat} (found : h.hop distance (d + 1) r = .ok e)
    (other : Int) : ∃ inner values, h.hop other d r = .ok inner ∧ h.environment inner = .ok (values,some e) := by
  induction d generalizing r with
  | zero =>
    rw [Heap.hop] at found
    cases read : h.environment r with
    | error f =>
      rw [read] at found
      cases found
    | ok p =>
      obtain ⟨values,_ | a⟩ := p
      · rw [read] at found
        cases found
      · rw [read] at found
        obtain ⟨c,cell,live,-⟩ := Heap.environment_eq_ok read
        have here : h.live r = .ok c := by simp only [Heap.live,cell,live,Bool.false_eq_true,if_false]
        have same : a = e := by
          simp only [Bind.bind,Except.bind,Heap.hop] at found
          cases there : h.live a with
          | error f =>
            rw [there] at found
            cases found
          | ok d =>
            rw [there] at found
            exact Except.ok.inj found
        subst same
        exact ⟨r,values,by rw [Heap.hop,here]; rfl,read⟩
  | succ d ih =>
    rw [Heap.hop] at found ⊢
    cases read : h.environment r with
    | error f =>
      rw [read] at found
      cases found
    | ok p =>
      obtain ⟨values,_ | a⟩ := p
      · rw [read] at found
        cases found
      · rw [read] at found
        exact ih found

/-- An environment stands within the one that is a hop further out. -/
theorem Heap.ancestor_succ {r : Ref} {d : Nat} (found : h.ancestor r (d + 1 : Nat) = .ok e) :
    ∃ inner values, h.ancestor r d = .ok inner ∧ h.environment inner = .ok (values,some e) :=
  Heap.hop_succ found d

theorem Heap.Closed.of_environment (closed : h.Closed) {r : Ref} (owned : h.isRegistered r)
    (found : h.environment r = .ok (values,outer)) :
    (∀ s ∈ outer, h.isRegistered s) ∧ ∀ name s, values.get? name = some (.object s) → h.isRegistered s := by
  obtain ⟨c,cell,-,object⟩ := Heap.environment_eq_ok found
  have refs := closed r owned
  simp only [Heap.referencesOf,cell,object,Option.map_some,Option.getD_some,Object.references] at refs
  refine ⟨fun s hs => refs s (List.mem_append_left _ (Option.mem_toList.mpr hs)),fun _ s hs => ?_⟩
  exact refs s (List.mem_append_right _ (List.mem_flatMap.mpr
    ⟨_,Bindings.mem_values_of_get? _ hs,List.mem_singleton_self s⟩))

theorem Heap.Closed.hop (closed : h.Closed) {r : Ref} {distance : Int} {d : Nat} (owned : h.isRegistered r)
    (found : h.hop distance d r = .ok e) : h.isRegistered e := by
  induction d generalizing r with
  | zero =>
    simp only [Heap.hop,Bind.bind,Except.bind] at found
    cases live : h.live r with
    | error f =>
      rw [live] at found
      cases found
    | ok c =>
      rw [live] at found
      cases found
      exact owned
  | succ d ih =>
    rw [Heap.hop] at found
    cases read : h.environment r with
    | error f =>
      rw [read] at found
      cases found
    | ok p =>
      obtain ⟨values,_ | a⟩ := p
      · rw [read] at found
        cases found
      · rw [read] at found
        exact ih ((closed.of_environment owned read).1 a rfl) found

end

/-- A task that makes a heap before it asks for anything. -/
structure Task.Makes (n : Nat) (t : Task) (m : Machine) (g : Heap Value) : Prop where
  ends : g.Lasts (t.after n m).heap
  arises {l u k} : Arises n t m l u k → u = t ∨ g.Lasts k.heap

/-- A method is called in an environment that binds `this` to the receiver. -/
theorem makes_callBound (n : Nat) (receiver : Ref) (xs : List Value) {f : Ref} {m : Machine}
    {routine : Routine} {closure : Option Ref} (found : m.heap.function f = .ok (routine,closure)) (ordinary : m.heap.Ordinary) :
    ∃ g, g.Binding ⟨m.heap.cells.size⟩ closure "this" (.object receiver) ∧
      (Task.callBound f receiver xs).Makes (n + 1) m g := by
  have performs : ∀ E : Evaluator, (Task.callBound f receiver xs).perform E m =
      (environmentWith closure "this" (.object receiver) >>= fun env =>
        E (.invoke routine (some env) xs)) m := by
    intro E
    rw [perform_callBound]
    simp only [Bind.bind,EStateM.bind,reading,found,receiverEnvironment_eq]
  have binding := (environmentWith_binding closure "this" (.object receiver) m).2
  have made := (stays_ordinary_lasts m.heap).receiver closure receiver ⟨ordinary,.refl _⟩
  rw [receiverEnvironment_eq] at made
  refine ⟨_,binding,?_⟩
  simp only [Bind.bind,EStateM.bind] at performs
  generalize environmentWith closure "this" (.object receiver) m = x at performs made
  cases x with
  | error h k =>
    refine ⟨?_,?_⟩
    · simp only [Task.after,evaluator_succ,performs]
      exact .refl _
    · intro l u j arises
      rcases arises.head with ⟨-,rfl,-⟩ | ⟨d,v,i,same,asks,-⟩
      · exact .inl rfl
      · simp only [performs] at asks
        exact absurd asks (not_asks_const _)
  | ok env k =>
    have named : (Task.invoke routine (some env) xs).Named Ordinary :=
      ordinary _ _ (Heap.function_eq_ok found) _ _ rfl
    refine ⟨?_,?_⟩
    · simp only [Task.after,evaluator_succ,performs]
      exact ((kept_lasts k.heap).stays n named trivial ⟨made.1,.refl _⟩).2
    · intro l u j arises
      rcases arises.head with ⟨-,rfl,-⟩ | ⟨d,v,i,same,asks,arises⟩
      · exact .inl rfl
      · simp only [performs] at asks
        obtain ⟨rfl,rfl⟩ := eq_of_asks asks
        exact .inr (arises.lasts named made.1).2.2.1

/-- What lasts behind the first part of a sequence lasts behind the second. -/
theorem lasts_bind {α β : Type} {x : Exec α} {f : α → Exec β}
    (keeps : ∀ (h : Heap Value) a, Keeps h.Lasts (evaluator 0) fun _ => f a) (m : Machine) :
    (stateAfter (x m)).heap.Lasts (stateAfter ((x >>= f) m)).heap := by
  simp only [Bind.bind,EStateM.bind]
  cases x m with
  | error h k => exact .refl _
  | ok a k => exact (keeps k.heap a).state (.refl _)

theorem declareClass_some (name : Name) (c : Ref) (rs : List Routine) (m : Machine) :
    declareClass name (some c) rs m = (environmentWith (some m.current) "super" (.object c) >>= fun inner => do
      keep (.object inner)
      let table ← newMethods inner rs {}
      let c ← allocate (.klass name.text (some c) table)
      let env ← currentEnvironment
      define env name.text (.object c)) m := by
  simp only [declareClass,methodEnvironment_some,bind_assoc,pure_bind]
  rfl

/-- A class with a superclass is declared in an environment that binds `super` to it. -/
theorem makes_declareClass (n : Nat) {name : Name} (c : Ref) (rs : List Routine) (m : Machine)
    (ordinary : Ordinary name.text) :
    ∃ g, g.Binding ⟨m.heap.cells.size⟩ (some m.current) "super" (.object c) ∧
      (Task.declareClass name (some c) rs).Makes n m g := by
  have binding := (environmentWith_binding (some m.current) "super" (.object c) m).2
  refine ⟨_,binding,?_,?_⟩
  · have declares : (Task.declareClass name (some c) rs).after n m = stateAfter (declareClass name (some c) rs m) := by
      cases n <;> rfl
    rw [declares,declareClass_some]
    refine lasts_bind (fun h inner => ?_) m
    have q := quiet_keeps h.Lasts (evaluator 0)
    exact (q.keep _).bind fun _ => (keeps_lasts_newMethods _ h inner rs {}).bind fun _ =>
      (keeps_lasts_allocate _ h _).bind fun _ => q.currentEnvironment.bind fun env =>
        keeps_define (bindable_lasts ordinary h) env _
  · intro l u k arises
    rcases arises.head with ⟨-,rfl,-⟩ | ⟨d,v,i,same,asks,-⟩
    · exact .inl rfl
    · exact absurd asks (not_asks_const _)

/-! ## Reading properties and methods -/

/-- A method that has been looked up, bound to a receiver. -/
def boundMethod (receiver : Ref) (name : Name) : Option Ref → Exec Value
  | some f => return .bound f receiver
  | none => raise name.pos (.undefinedProperty name.text)

section
variable {m : Machine} {r c receiver : Ref} {d : Nat}

/-- A property of an instance as a value: the field, or the method of the nearest class bound to it. -/
theorem getProperty_eq {fields : Bindings Value} {cs : List Ref} {name : Name}
    (kind : m.heap.kindOf r = .instanceOf)
    (property : m.heap.property r name.text = m.heap.propertyAmong fields cs name.text) :
    getProperty (.object r) name m =
      match fields.get? name.text with
      | some x => .ok x m
      | none => boundMethod r name (cs.findSome? (m.heap.methodOf · name.text)) m := by
  simp only [getProperty,instance?,kind,if_true,Bind.bind,EStateM.bind,reading,property,
    Heap.propertyAmong]
  cases fields.get? name.text with
  | some x => rfl
  | none => cases cs.findSome? (m.heap.methodOf · name.text) <;> rfl

/-- A method of a superclass is bound to the receiver one scope further in. -/
theorem readSuper_eq {pos : Pos} {method : Name} {found : Option Ref} (kind : m.heap.kindOf c = .klass)
    (super : m.heap.lookupAt m.current (d + 1 : Nat) "super" = .ok (.object c))
    (this : m.heap.lookupAt m.current d "this" = .ok (.object receiver))
    (looked : m.heap.findMethod c method.text = .ok found) :
    readSuper pos method (some (d + 1)) m = boundMethod receiver method found m := by
  have inner : ((d + 1 : Nat) : Int) - 1 = d := by omega
  simp only [readSuper,currentEnvironment,Bind.bind,EStateM.bind,reading,super,inner,this,class?,kind,
    if_true,looked]
  cases found <;> rfl

end

end Lox
