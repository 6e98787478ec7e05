import Lox.Proofs.Eval.Order
import Lox.Proofs.Heap.Classes

/-! # Evaluation keeps classes in order

Objects are linked as they are made, and programs with ordinary names do not change the links. A class
without a superclass is declared outside of environments that bind `super`, for no body is run in one.
-/
namespace Lox
open Machine Exec

/-! ## New objects -/

section
variable {m k : Machine} {o : Object Value} {r env c : Ref} {enclosing : Option Ref} {name : String}
  {x : Value}

/-- An allocation adds one object, and may collect. -/
theorem allocate_tidied (o : Object Value) (m : Machine) :
    Heap.Tidied (m.heap.cells.push { object := o }) (stateAfter (allocate o m)).heap.cells := by
  have registered := Heap.tidied_register ⟨m.heap.cells.size⟩ m.roots
    ({ m.heap with cells := m.heap.cells.push { object := o } } : Heap Value)
  rw [allocate_eq,Heap.place_eq]
  generalize (Heap.register _ _ _ : EStateM.Result Failure (Heap Value) Nat) = x at registered ⊢
  cases x with
  | ok n heap =>
    show Heap.Tidied _ (logJournal { m with heap }).heap.cells
    rw [logJournal_eq]
    exact registered
  | error f heap =>
    show Heap.Tidied _ (logJournal { m with heap }).heap.cells
    rw [logJournal_eq]
    exact registered

theorem allocate_size (o : Object Value) (m : Machine) :
    (stateAfter (allocate o m)).heap.cells.size = m.heap.cells.size + 1 := by
  rw [(allocate_tidied o m).size,Array.size_push]

theorem allocate_cell (o : Object Value) (m : Machine) :
    ∃ c, (stateAfter (allocate o m)).heap.cells[m.heap.cells.size]? = some c ∧
      c.object.kind = o.kind ∧ (c.freed = false → c.object = o) := by
  have related := allocate_tidied o m m.heap.cells.size
  rw [Array.getElem?_push_size] at related
  generalize (stateAfter (allocate o m)).heap.cells[m.heap.cells.size]? = d at related
  cases related with
  | @some _ c tidied =>
    refine ⟨c,rfl,tidied.kind,fun live => ?_⟩
    rcases tidied with ⟨object,-⟩ | ⟨-,freed⟩
    · exact object
    · cases freed.symm.trans live

/-- A new environment, which may have got the one name that it is made for. -/
def Heap.Binding (h : Heap Value) (e : Ref) (enclosing : Option Ref) (name : String) (x : Value) : Prop :=
  ∃ c, h.cells[e.index]? = some c ∧ c.object.kind = .environment ∧ (c.freed = false →
    ∃ values, c.object = .environment values enclosing ∧ (values = {} ∨ values = Bindings.set {} name x))

theorem onHeap_eq_ok {α : Type} {pos : Pos} {op : HeapM Value α} {a : α}
    (e : onHeap pos op m = .ok a k) : ∃ heap, op m.heap = .ok a heap ∧ k = { m with heap } := by
  simp only [onHeap] at e
  split at e
  · next heap same =>
    cases e
    exact ⟨heap,same,rfl⟩
  · cases e

theorem Heap.define_eq_ok {h g : Heap Value} (e : Heap.define r name x h = .ok () g) :
    ∃ values enclosing, h.environment r = .ok (values,enclosing) ∧ g.cells.size = h.cells.size ∧
      g.environment r = .ok (values.set name x,enclosing) := by
  simp only [Heap.define] at e
  split at e
  · cases e
  · next values enclosing found =>
    cases e
    obtain ⟨c,cell,live,-⟩ := Heap.environment_eq_ok found
    refine ⟨values,enclosing,found,Array.size_modify ..,
      Heap.environment_of_cell (c := { c with object := .environment _ enclosing }) ?_ live rfl⟩
    simp only [Heap.setObject,Array.getElem?_modify,if_pos,cell,Option.map_some]

theorem newEnvironment_of_environment {values : Bindings Value} {outer : Option Ref}
    (e : newEnvironment enclosing m = .ok env k) (found : k.heap.environment env = .ok (values,outer)) :
    values = {} ∧ outer = enclosing := by
  obtain rfl := allocate_eq_ok e
  obtain ⟨c,cell,-,object⟩ := allocate_cell (.environment {} enclosing) m
  rw [show allocate (.environment {} enclosing) m = _ from e] at cell
  obtain ⟨d,hd,live,same⟩ := Heap.environment_eq_ok found
  obtain rfl : c = d := Option.some.inj (cell.symm.trans hd)
  cases (object live).symm.trans same
  exact ⟨rfl,rfl⟩

theorem environmentWith_eq_ok (e : environmentWith enclosing name x m = .ok env k) :
    env = ⟨m.heap.cells.size⟩ ∧ k.heap.cells.size = m.heap.cells.size + 1 ∧
      k.heap.environment env = .ok (Bindings.set {} name x,enclosing) := by
  obtain ⟨_,l,made,e⟩ := bind_eq_ok.mp e
  obtain ⟨_,_,defined,e⟩ := bind_eq_ok.mp e
  cases e
  have size := allocate_size (.environment {} enclosing) m
  rw [show allocate (.environment {} enclosing) m = _ from made] at size
  obtain ⟨heap,wrote,rfl⟩ := onHeap_eq_ok defined
  obtain ⟨values,outer,found,same,bound⟩ := Heap.define_eq_ok wrote
  obtain ⟨rfl,rfl⟩ := newEnvironment_of_environment made found
  exact ⟨allocate_eq_ok made,same.trans size,bound⟩

/-- An environment with one name is the one new object. -/
theorem environmentWith_binding (enclosing : Option Ref) (name : String) (x : Value) (m : Machine) :
    (stateAfter (environmentWith enclosing name x m)).heap.cells.size = m.heap.cells.size + 1 ∧
      (stateAfter (environmentWith enclosing name x m)).heap.Binding ⟨m.heap.cells.size⟩ enclosing name x := by
  cases e : environmentWith enclosing name x m with
  | ok env k =>
    obtain ⟨rfl,size,bound⟩ := environmentWith_eq_ok e
    obtain ⟨c,cell,-,object⟩ := Heap.environment_eq_ok bound
    exact ⟨size,c,cell,object ▸ rfl,fun _ => ⟨_,object,.inr rfl⟩⟩
  | error t k =>
    have size := allocate_size (.environment {} enclosing) m
    obtain ⟨c,cell,kind,object⟩ := allocate_cell (.environment {} enclosing) m
    have same : (stateAfter (allocate (.environment {} enclosing) m)).heap = k.heap := by
      simp only [environmentWith,newEnvironment,Bind.bind,EStateM.bind] at e
      cases made : allocate (.environment {} enclosing) m with
      | error t' l =>
        rw [made] at e
        cases e
        rfl
      | ok env l =>
        rw [made] at e
        simp only [define,onHeap,Heap.define] at e
        cases found : l.heap.environment env with
        | error f =>
          rw [found] at e
          cases e
          rfl
        | ok found' =>
          rw [found] at e
          cases e
    rw [same] at size cell
    exact ⟨size,c,cell,kind,fun live => ⟨_,object live,.inl rfl⟩⟩

theorem Heap.supers_of_environment {h : Heap Value} {values : Bindings Value}
    (found : h.environment env = .ok (values,enclosing)) : h.Supers env (values.get? "super") := by
  obtain ⟨c,cell,-,object⟩ := Heap.environment_eq_ok found
  refine ⟨c,cell,object ▸ rfl,fun _ values' enclosing' same => ?_⟩
  cases object.symm.trans same
  rfl

/-- A new environment does not bind `super`. -/
theorem newEnvironment_supers (e : newEnvironment enclosing m = .ok env k) : k.heap.Supers env none := by
  obtain rfl := allocate_eq_ok e
  obtain ⟨c,cell,kind,object⟩ := allocate_cell (.environment {} enclosing) m
  rw [show allocate (.environment {} enclosing) m = _ from e] at cell
  refine ⟨c,cell,kind,fun live values outer same => ?_⟩
  cases (object live).symm.trans same
  rfl

theorem newFunction_madeIn {routine : Routine} {f : Ref} (e : newFunction routine env m = .ok f k) :
    k.heap.MadeIn f env := by
  obtain rfl := allocate_eq_ok e
  obtain ⟨c,cell,kind,object⟩ := allocate_cell (.function routine (some env)) m
  rw [show allocate (.function routine (some env)) m = _ from e] at cell
  exact ⟨c,cell,kind,fun live => ⟨routine,object live⟩⟩

end

/-! ## Classes -/

theorem Heap.index_lt_of_kindOf {h : Heap Value} {r : Ref} {kind : ObjectKind} (other : kind ≠ .plain)
    (known : h.kindOf r = kind) : r.index < h.cells.size := by
  by_contra outside
  simp only [Heap.kindOf,Array.getElem?_eq_none (Nat.le_of_not_lt outside)] at known
  exact other known.symm

/-- All methods of a table have been made in one environment. -/
theorem newMethods_madeIn {closure : Ref} {rs : List Routine} {made table : Bindings Ref} {m k : Machine}
    (known : ∀ f ∈ made.values, m.heap.MadeIn f closure) (e : newMethods closure rs made m = .ok table k) :
    ∀ f ∈ table.values, k.heap.MadeIn f closure := by
  induction rs generalizing made m with
  | nil =>
    cases e
    exact known
  | cons r rest ih =>
    obtain ⟨f,l,new,e⟩ := bind_eq_ok.mp e
    obtain ⟨_,_,kept,e⟩ := bind_eq_ok.mp e
    cases kept
    have lasts := (keeps_lasts_allocate (evaluator 0) m.heap (.function r (some closure))).state (.refl _)
    rw [show allocate (.function r (some closure)) m = .ok f l from new] at lasts
    have own : l.heap.MadeIn f closure := newFunction_madeIn new
    refine ih (fun g hg => ?_) e
    exact (Bindings.eq_or_mem_of_mem_values_set _ _ _ hg).elim (fun same => same ▸ own)
      fun hg => (known g hg).lasts lasts

theorem methodEnvironment_supers {superclass : Option Ref} {m k : Machine} {closure : Ref}
    (outside : m.heap.Supers m.current none) (e : methodEnvironment superclass m = .ok closure k) :
    k.heap.Supers closure (superclass.map .object) := by
  cases superclass with
  | none =>
    cases e
    exact outside
  | some c =>
    rw [methodEnvironment_some] at e
    obtain ⟨_,_,here,e⟩ := bind_eq_ok.mp e
    cases here
    obtain ⟨inner,l,made,e⟩ := bind_eq_ok.mp e
    obtain ⟨_,_,kept,e⟩ := bind_eq_ok.mp e
    cases kept
    cases e
    have supers := Heap.supers_of_environment (environmentWith_eq_ok made).2.2
    rwa [Bindings.get?_set_self] at supers

theorem stable_classed : Heap.Stable Heap.Classed := fun _ _ tidied classed => classed.tidied tidied

theorem bindable_classed {name : String} (ordinary : Ordinary name) : Heap.Bindable Heap.Classed name := by
  intro h r values enclosing x found classed
  obtain ⟨c,hc,-,object⟩ := Heap.environment_eq_ok found
  refine classed.setObject fun d hd => ?_
  cases hc.symm.trans hd
  rw [object]
  exact ordinary.lasts values enclosing x

/-- A new environment may bind what is allowed for its name. -/
theorem Heap.Classed.environmentWith {m : Machine} (classed : m.heap.Classed) {enclosing : Option Ref}
    {name : String} {x : Value} (linked : (stateAfter (environmentWith enclosing name x m)).heap.Linked
      m.heap.cells.size (.environment (Bindings.set {} name x) enclosing)) :
    (stateAfter (environmentWith enclosing name x m)).heap.Classed := by
  have lasts := (keeps_lasts_environmentWith (evaluator 0) m.heap enclosing name x).state (.refl _)
  obtain ⟨size,c,cell,-,object⟩ := environmentWith_binding enclosing name x m
  refine classed.lasts lasts fun i d outside hd live => ?_
  have inside := (Array.getElem?_eq_some_iff.mp hd).1
  obtain rfl : i = m.heap.cells.size := by omega
  obtain rfl : c = d := Option.some.inj (cell.symm.trans hd)
  obtain ⟨values,same,rfl | rfl⟩ := object live
  · rw [same]
    exact ⟨nofun,nofun⟩
  · rw [same]
    exact linked

theorem keepsAt_allocate {I : Heap Value → Prop} {E : Evaluator} (stable : Heap.Stable I)
    {o : Object Value} {m : Machine} (made : I m.heap → I (stateAfter (Heap.create o m.heap))) :
    KeepsAt I E (fun _ => allocate o) m :=
  KeepsAt.bind (.const _) (keepsAt_const made) fun r k _ =>
    ((stable.registerObject r).bind fun _ => (quiet_keeps I E).pure r).keeps k

/-- Where a class is declared, `super` is not bound in the innermost environment, and what it is said to
inherit from is a class. -/
def Task.Placed (t : Task) (m : Machine) : Prop := t.Founded m ∧ m.heap.Supers m.current none

theorem methodEnvironment_classed {superclass : Option Ref} {m : Machine}
    (founded : ∀ c ∈ superclass, m.heap.kindOf c = .klass) (classed : m.heap.Classed) :
    (stateAfter (methodEnvironment superclass m)).heap.Classed := by
  have q := quiet_keeps Heap.Classed (evaluator 0)
  cases superclass with
  | none => exact classed
  | some c =>
    rw [methodEnvironment_some]
    have keeps : KeepsAt Heap.Classed (evaluator 0) (fun _ => do
        let env ← currentEnvironment
        let inner ← Lox.environmentWith (some env) "super" (.object c)
        keep (.object inner)
        return inner) m := by
      refine KeepsAt.bind (.const _) (q.currentEnvironment.keeps m) fun env k here => ?_
      cases here
      refine KeepsAt.bind (.const _) (keepsAt_const fun classed => classed.environmentWith ?_) fun inner k _ =>
        ((q.keep _).bind fun _ => q.pure inner).keeps k
      have lasts := (keeps_lasts_environmentWith (evaluator 0) m.heap (some m.current) "super"
        (.object c)).state (.refl _)
      refine ⟨fun x hx => ?_,nofun⟩
      obtain rfl := Option.some.inj ((Bindings.get?_set_self {} "super" (Value.object c)).symm.trans hx)
      exact ⟨c,rfl,lasts.kindOf nofun (founded c rfl)⟩
    exact (keeps (fun _ _ asks => absurd asks (not_asks_const _)) classed).1

theorem declareClass_classed {name : Name} {superclass : Option Ref} {rs : List Routine} {m : Machine}
    (ordinary : Ordinary name.text) (placed : (Task.declareClass name superclass rs).Placed m)
    (classed : m.heap.Classed) : (stateAfter (declareClass name superclass rs m)).heap.Classed := by
  have q := quiet_keeps Heap.Classed (evaluator 0)
  have founded : ∀ c ∈ superclass, m.heap.kindOf c = .klass := by
    rintro c ⟨⟩
    exact placed.1
  have keeps : KeepsAt Heap.Classed (evaluator 0) (fun _ => declareClass name superclass rs) m := by
    refine KeepsAt.bind (.const _) (keepsAt_const (methodEnvironment_classed founded)) fun closure k
      surrounded => ?_
    have supers := methodEnvironment_supers placed.2 surrounded
    have first := (keeps_lasts_methodEnvironment (evaluator 0) m.heap superclass).state (m := m) (.refl _)
    rw [surrounded] at first
    have methods : Keeps Heap.Classed (evaluator 0) fun _ => newMethods closure rs {} :=
      stable_classed.newMethods (fun _ _ _ classed => classed.create trivial) {}
    refine KeepsAt.bind (.const _) (methods.keeps k) fun table l made => ?_
    have second := (keeps_lasts_newMethods (evaluator 0) k.heap closure rs {}).state (m := k) (.refl _)
    rw [made] at second
    refine KeepsAt.bind (.const _) (keepsAt_allocate stable_classed fun classed => classed.create ?_)
      fun c o _ => (q.currentEnvironment.bind fun env =>
        keeps_define (bindable_classed ordinary) env (.object c)).keeps o
    have third := Heap.lasts_create (.klass name.text superclass table) l.heap
    refine ⟨fun s hs => ?_,fun f hf => ⟨closure,?_,(supers.lasts second).lasts third⟩⟩
    · have kind : l.heap.kindOf s = .klass := (first.trans second).kindOf nofun (founded s hs)
      exact ⟨Heap.index_lt_of_kindOf (by decide) kind,third.kindOf nofun kind⟩
    · exact (newMethods_madeIn (fun _ hg => absurd hg List.not_mem_nil) made f hf).lasts third
  exact (keeps (fun _ _ asks => absurd asks (not_asks_const _)) classed).1

/-! ## Tasks -/

/-- Tasks with ordinary names keep classes in order. -/
theorem stays_classed : Stays Heap.Classed (Task.Named Ordinary) Task.Placed where
  tidied := stable_classed
  environment _ _ classed := classed.create ⟨nofun,nofun⟩
  instanceOf {c _ m} _ placed classed := classed.create
    ⟨c,rfl,(Heap.lasts_create (.instanceOf (some c) {}) m.heap).kindOf nofun placed.1⟩
  field name x live same classed := by
    obtain ⟨hc,-⟩ := Heap.live_eq_ok live
    refine classed.setObject fun d hd => ?_
    cases hc.symm.trans hd
    rw [same]
    exact .instanceOf
  receiver closure r _ classed := classed.environmentWith
    ⟨nofun,fun x hx => ⟨r,(Option.some.inj hx).symm⟩⟩
  var named := bindable_classed named.1
  assigned named := bindable_classed named.1
  parameter named hp := bindable_classed (Routine.Named.params named _ hp)
  function named := ⟨bindable_classed (Routine.Named.name named),fun _ _ classed => classed.create trivial⟩
  declared named placed classed := declareClass_classed named.1 placed classed

/-- Where a task is asked for, `super` is not bound in the innermost environment either. -/
theorem Task.Gives.placed {n : Nat} {t u : Task} {m j : Machine} (gives : t.Gives (evaluator n) m u j)
    (named : t.Named Ordinary) (lasts : m.heap.Lasts j.heap) (outside : m.heap.Supers m.current none) :
    u.Placed j := by
  refine ⟨gives.founded,?_⟩
  cases stays : t.left? m with
  | none =>
    rw [(gives.stacks (balanced n)).current stays]
    exact outside.lasts lasts
  | some env =>
    cases gives with
    | @content _ routine _ xs e k _ made bound =>
      have ordinary := Routine.Named.params named
      have lasts := (keeps_bindParameters (E := evaluator n)
        (fun p hp => bindable_lasts (ordinary p hp) k.heap) e xs).state (.refl k.heap)
      rw [bound] at lasts
      exact (newEnvironment_supers made).lasts lasts
    | block _ _ made =>
      have supers := newEnvironment_supers made
      exact supers
    | _ => cases stays

theorem kept_classed :
    Kept (fun h => h.Ordinary ∧ h.Classed) (Task.Named Ordinary) Task.Placed where
  toStays := (stays_ordinary _).and stays_classed
  gives gives holds := gives.named holds.1
  asked holds named placed asks :=
    (gives_of_asks asks).placed named ((ordered_task named holds.1).starts asks).2 placed.2

end Lox
