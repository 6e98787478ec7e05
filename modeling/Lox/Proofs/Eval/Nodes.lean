import Lox.Proofs.Eval.Balance
import Lox.Proofs.Machine.Twins

/-! # Single nodes on twins

What the operations behind single nodes do to twins that hold the values they work on.
-/
namespace Lox
open Machine Exec Comparison

namespace Comparison
variable {C : Comparison} {K : List Ref} {m k : Machine}

theorem ends_raise {α : Type} {rel : α → α → Prop} {kept : α → List Ref} {p q : Pos}
    (pos : C.pos p q) (c : RuntimeError.Cause) (tw : C.Twins K m k) :
    C.Ends rel kept (raise p c m) (raise q c k) := .throw (.error pos) tw

/-! ## Variables and properties -/

theorem ends_readVariable {r s : Reference} (like : Reference.Alike C.pos r s)
    (tw : C.Twins K m k) : C.Ends Eq Holder.refs (readVariable r m) (readVariable s k) := by
  obtain ⟨heap,log,rfl,held⟩ := tw
  simp only [readVariable,← like.depth,← like.name.text]
  cases r.depth with
  | none =>
    exact (ends_reading like.name.pos ⟨heap,log,rfl,held⟩ fun _ _ held =>
      reads_lookup held (List.mem_append_left K m.globals_mem) _).drop
  | some d =>
    exact (ends_reading like.name.pos ⟨heap,log,rfl,held⟩ fun _ _ held =>
      reads_lookupAt held (List.mem_append_left K m.current_mem) _ _).drop

theorem ends_assignVariable {r s : Reference} (like : Reference.Alike C.pos r s)
    (tw : C.Twins K m k) {x : Value} (hx : m.Holds K x) :
    C.Ends (fun _ _ => True) (fun _ => K) (assignVariable r x m) (assignVariable s x k) := by
  obtain ⟨heap,log,rfl,held⟩ := tw
  have holds : ∀ t ∈ Holder.refs x, t ∈ m.roots ++ K := fun t ht => List.mem_append.mpr (hx t ht)
  simp only [assignVariable,← like.depth,← like.name.text]
  cases r.depth with
  | none =>
    exact ends_onHeap like.name.pos ⟨heap,log,rfl,held⟩ fun _ _ held =>
      writes_assign held (List.mem_append_left K m.globals_mem) _ holds
  | some d =>
    exact ends_onHeap like.name.pos ⟨heap,log,rfl,held⟩ fun _ _ held =>
      writes_assignAt held (List.mem_append_left K m.current_mem) _ _ holds

theorem ends_instance? (tw : C.Twins K m k) {x : Value} (hx : m.Holds K x) :
    C.Ends (fun a b => a = b ∧ ∀ r, a = some r → x = .object r) (fun _ => K)
      (instance? x m) (instance? x k) := by
  obtain ⟨heap,log,rfl,held⟩ := tw
  cases x with
  | object r =>
    have kind := kindOf_eq held (List.mem_append.mpr (hx r (List.mem_singleton.mpr rfl)))
    simp only [instance?,kind]
    refine .ok ⟨rfl,fun s hs => ?_⟩ ⟨heap,log,rfl,held⟩
    split at hs
    · rw [Option.some.inj hs]
    · cases hs
  | _ => exact .ok ⟨rfl,fun _ e => by cases e⟩ ⟨heap,log,rfl,held⟩

theorem ends_class? (tw : C.Twins K m k) {x : Value} (hx : m.Holds K x) :
    C.Ends (fun a b => a = b ∧ ∀ r, a = some r → x = .object r) (fun _ => K)
      (class? x m) (class? x k) := by
  obtain ⟨heap,log,rfl,held⟩ := tw
  cases x with
  | object r =>
    have kind := kindOf_eq held (List.mem_append.mpr (hx r (List.mem_singleton.mpr rfl)))
    simp only [class?,kind]
    refine .ok ⟨rfl,fun s hs => ?_⟩ ⟨heap,log,rfl,held⟩
    split at hs
    · rw [Option.some.inj hs]
    · cases hs
  | _ => exact .ok ⟨rfl,fun _ e => by cases e⟩ ⟨heap,log,rfl,held⟩

theorem ends_getProperty {x : Value} {n n' : Name} (like : Name.Alike C.pos n n')
    (tw : C.Twins K m k) (hx : m.Holds K x) :
    C.Ends Eq Holder.refs (getProperty x n m) (getProperty x n' k) := by
  simp only [getProperty,← like.text]
  refine (ends_instance? tw hx).bind fun o _ m k e ⟨same,object⟩ tw => ?_
  subst same
  have hx : m.Holds K x := fun r hr =>
    (hx r hr).imp ((leads_instance? x).carries.ok e).mem_roots id
  cases o with
  | none => exact ends_raise like.pos _ tw
  | some r =>
    obtain rfl := object r rfl
    have hr := hx r (List.mem_singleton.mpr rfl)
    refine Ends.bind (ends_reading like.pos tw fun _ _ held =>
      reads_property held (List.mem_append.mpr hr) _) fun p _ m k e same tw => ?_
    subst same
    have hr := hr.imp ((leads_reading _ _).carries.ok e).mem_roots id
    cases p with
    | field y => exact .pure rfl tw fun s hs => .inr (List.mem_append_left K hs)
    | method f =>
      refine .pure rfl tw fun s hs => ?_
      simp only [Holder.refs,List.mem_cons,List.not_mem_nil,or_false] at hs
      rcases hs with rfl | rfl
      · exact .inr (List.mem_append_left K (List.mem_singleton.mpr rfl))
      · exact hr.imp id (List.mem_append_right _)

theorem ends_readThis {p q : Pos} (pos : C.pos p q) (depth : Option Nat) (tw : C.Twins K m k) :
    C.Ends Eq Holder.refs (readThis p depth m) (readThis q depth k) := by
  obtain ⟨heap,log,rfl,held⟩ := tw
  cases depth with
  | none => exact .throw (.fault fun _ => rfl) ⟨heap,log,rfl,held⟩
  | some d =>
    exact (ends_reading pos ⟨heap,log,rfl,held⟩ fun _ _ held =>
      reads_lookupAt held (List.mem_append_left K m.current_mem) d "this").drop

theorem ends_readSuper {p q : Pos} {n n' : Name} (pos : C.pos p q) (like : Name.Alike C.pos n n')
    (depth : Option Nat) (tw : C.Twins K m k) :
    C.Ends Eq Holder.refs (readSuper p n depth m) (readSuper q n' depth k) := by
  cases depth with
  | none => exact .throw (.fault fun _ => rfl) tw
  | some d =>
    simp only [readSuper,← like.text]
    refine (ends_currentEnvironment tw).bind fun env _ m k e ⟨same,here⟩ tw => ?_
    subst same
    have henv : env ∈ m.roots := by
      rw [here,← (leads_currentEnvironment.ok e).current]
      exact m.current_mem
    refine Ends.bind (ends_reading pos tw fun _ _ held =>
      reads_lookupAt held (List.mem_append_left K henv) _ _) fun s _ m k e same tw => ?_
    subst same
    have henv := ((leads_reading _ _).carries.ok e).mem_roots henv
    refine Ends.bind (ends_reading pos tw fun _ _ held =>
      reads_lookupAt held (List.mem_append_left _ henv) _ _) fun receiver _ m k e same tw => ?_
    subst same
    refine Ends.bind (ends_class? tw fun r hr => .inr ?_) fun c _ m k e ⟨same,object⟩ tw => ?_
    · exact List.mem_append_right _ (List.mem_append_left _ hr)
    · subst same
      cases c with
      | none => exact ends_raise pos _ tw
      | some c =>
        obtain rfl := object c rfl
        cases receiver with
        | object r =>
          refine Ends.bind (ends_reading pos tw fun _ _ held =>
            reads_findMethod held (by simp [Holder.refs]) _) fun f _ m k _ same tw => ?_
          subst same
          cases f with
          | none => exact ends_raise like.pos _ tw
          | some f =>
            refine .pure rfl tw fun s hs => .inr ?_
            simp only [Holder.refs,List.mem_append,List.mem_cons,List.not_mem_nil,or_false,
              Option.mem_toList] at hs ⊢
            tauto
        | _ => exact .throw (.fault fun _ => rfl) tw

/-! ## Operators -/

theorem ends_addValues {p q : Pos} (pos : C.pos p q) (x y : Value) (tw : C.Twins K m k) :
    C.Ends Eq Holder.refs (addValues p x y m) (addValues q x y k) := by
  rw [addValues.eq_def,addValues.eq_def]
  split
  · exact .pure rfl tw fun _ hr => absurd hr List.not_mem_nil
  · exact .pure rfl tw fun _ hr => absurd hr List.not_mem_nil
  · exact ends_raise pos _ tw

theorem ends_onNumbers {p q : Pos} (pos : C.pos p q) (x y : Value)
    {f g : Float → Float → Exec Value} (tw : C.Twins K m k)
    (h : ∀ a b, C.Ends Eq Holder.refs (f a b m) (g a b k)) :
    C.Ends Eq Holder.refs (onNumbers p x y f m) (onNumbers q x y g k) := by
  rw [onNumbers,onNumbers]
  cases numbers? x y with
  | some p => exact h p.1 p.2
  | none => exact ends_raise pos _ tw

theorem ends_divide {p q : Pos} (pos : C.pos p q) (x y : Float) (tw : C.Twins K m k) :
    C.Ends Eq Holder.refs (divide p x y m) (divide q x y k) := by
  rw [divide,divide]
  split
  · exact ends_raise pos _ tw
  · exact .pure rfl tw fun _ hr => absurd hr List.not_mem_nil

theorem ends_applyBinary {p q : Pos} (pos : C.pos p q) (op : BinaryOp) (x y : Value)
    (tw : C.Twins K m k) : C.Ends Eq Holder.refs (applyBinary op p x y m) (applyBinary op q x y k) := by
  cases op with
  | equal | notEqual => exact .pure rfl tw fun _ hr => absurd hr List.not_mem_nil
  | plus => exact ends_addValues pos x y tw
  | divide => exact ends_onNumbers pos x y tw fun a b => ends_divide pos a b tw
  | minus | times | less | lessEqual | greater | greaterEqual =>
    exact ends_onNumbers pos x y tw fun _ _ =>
      .pure rfl tw fun _ hr => absurd hr List.not_mem_nil

theorem ends_applyUnary {p q : Pos} (pos : C.pos p q) (op : UnaryOp) (x : Value)
    (tw : C.Twins K m k) : C.Ends Eq Holder.refs (applyUnary op p x m) (applyUnary op q x k) := by
  rw [applyUnary.eq_def,applyUnary.eq_def]
  split
  · exact .pure rfl tw fun _ hr => absurd hr List.not_mem_nil
  · exact ends_raise pos _ tw
  · exact .pure rfl tw fun _ hr => absurd hr List.not_mem_nil

theorem ends_traceBinary (op : BinaryOp) {x y : Value} (tw : C.Twins K m k) (hx : m.Holds K x)
    (hy : m.Holds K y) :
    C.Ends (fun _ _ => True) (fun _ => K) (traceBinary op x y m) (traceBinary op x y k) := by
  obtain ⟨heap,log,rfl,held⟩ := tw
  simp only [traceBinary]
  split
  · have left := reads_inspect_value held fun r hr => List.mem_append.mpr (hx r hr)
    have right := reads_inspect_value held fun r hr => List.mem_append.mpr (hy r hr)
    generalize x.inspect m.heap = a,x.inspect heap = a',y.inspect m.heap = b,
      y.inspect heap = b' at left right
    have lost : C.Twins [] m { m with heap, log } := Twins.less ⟨heap,log,rfl,held⟩ (by simp)
    cases left with
    | error safe => exact .error (halts_of (C.refl _) safe) lost
    | ok same _ =>
      cases right with
      | error safe => exact .error (halts_of (C.refl _) safe) lost
      | ok same' _ => exact ends_trace ⟨heap,log,rfl,held⟩ _ _ _
  · exact .ok trivial ⟨heap,log,rfl,held⟩

/-! ## Calls -/

theorem ends_checkCall {p q : Pos} (pos : C.pos p q) {f : Value} (count : Nat)
    (tw : C.Twins K m k) (hf : m.Holds K f) :
    C.Ends (fun _ _ => True) (fun _ => K) (checkCall p f count m) (checkCall q f count k) := by
  obtain ⟨heap,log,rfl,held⟩ := tw
  have hf := fun r hr => List.mem_append.mpr (hf r hr)
  have arity := reads_arity_value held hf
  have lost : C.Twins [] m { m with heap, log } := Twins.less ⟨heap,log,rfl,held⟩ (by simp)
  simp only [checkCall,isCallable_eq held hf]
  generalize f.arity m.heap = a,f.arity heap = b at arity
  split
  · cases arity with
    | error safe => exact .error (halts_of pos safe) lost
    | ok same _ =>
      subst same
      dsimp only
      split
      · exact .ok trivial ⟨heap,log,rfl,held⟩
      · exact .error (.error pos) lost
  · exact .error (.error pos) lost

theorem ends_traceCall {f : Value} (tw : C.Twins K m k) (hf : m.Holds K f) :
    C.Ends (fun _ _ => True) (fun _ => K) (traceCall f m) (traceCall f k) := by
  obtain ⟨heap,log,rfl,held⟩ := tw
  simp only [traceCall]
  split
  · have text := reads_inspect_value held fun r hr => List.mem_append.mpr (hf r hr)
    generalize f.inspect m.heap = a,f.inspect heap = b at text
    cases text with
    | error safe =>
      exact .error (halts_of (C.refl _) safe) (Twins.less ⟨heap,log,rfl,held⟩ (by simp))
    | ok _ _ => exact ends_trace ⟨heap,log,rfl,held⟩ _ _ _
  · exact .ok trivial ⟨heap,log,rfl,held⟩

theorem ends_bindParameters {env : Ref} {ps qs : List Name} (like : List.Forall₂ (Name.Alike C.pos) ps qs)
    {xs : List Value} (tw : C.Twins K m k) (henv : env ∈ m.roots ∨ env ∈ K)
    (hxs : ∀ x ∈ xs, m.Holds K x) :
    C.Ends (fun _ _ => True) (fun _ => K) (bindParameters env ps xs m) (bindParameters env qs xs k) := by
  induction like generalizing xs m k with
  | nil => exact .pure trivial tw fun _ => .inr
  | @cons p q ps qs like _ ih =>
    cases xs with
    | nil => exact .pure trivial tw fun _ => .inr
    | cons x xs =>
      simp only [bindParameters,← like.text]
      refine (ends_define tw henv p.text (hxs x List.mem_cons_self)).bind fun _ _ m k e _ tw => ?_
      have carries := (leads_define _ _ _).carries.ok e
      exact ih tw (henv.imp carries.mem_roots id) fun x hx r hr =>
        (hxs x (List.mem_cons_of_mem _ hx) r hr).imp carries.mem_roots id

/-! ## Declarations -/

theorem ends_newFunction {r s : Routine} (like : RoutineAlike C.pos r s) {closure : Ref}
    (tw : C.Twins K m k) (hc : closure ∈ m.roots) :
    C.Ends Eq (fun f => [f]) (newFunction r closure m) (newFunction s closure k) :=
  ends_allocate tw (.function like) fun t ht => .inl (by
    rw [show t = closure from List.mem_singleton.mp ht]
    exact hc)

theorem ends_newMethods {rs ss : List Routine} (like : RoutinesAlike C.pos rs ss) {closure : Ref}
    {made : Bindings Ref} (tw : C.Twins K m k) (hc : closure ∈ m.roots)
    (hmade : ∀ f ∈ made.values, f ∈ m.roots) :
    C.Ends Eq Bindings.values (newMethods closure rs made m) (newMethods closure ss made k) := by
  induction rs generalizing ss made m k K with
  | nil =>
    cases like
    exact .pure rfl tw fun f hf => .inl (hmade f hf)
  | cons r rs ih =>
    cases like with
    | cons like rest =>
      simp only [newMethods,← like.name.text]
      refine (ends_newFunction like tw hc).bind fun f _ m k e same tw => ?_
      subst same
      have made_mem := fun g hg => ((leads_allocate _).carries.ok e).mem_roots (hmade g hg)
      have hc := ((leads_allocate _).carries.ok e).mem_roots hc
      refine (ends_keep tw (m.holds_refs (.object f))).bind fun _ _ m k e _ tw => ?_
      have carries := (leads_keep _).ok e
      have kept : f ∈ m.roots := by
        cases e
        exact mem_roots_keep.mpr (.inl (List.mem_singleton.mpr rfl))
      refine ih rest tw (carries.mem_roots hc) fun g hg => ?_
      rcases made.eq_or_mem_of_mem_values_set _ _ hg with rfl | hg
      · exact kept
      · exact carries.mem_roots (made_mem g hg)

theorem methodEnvironment_mem {superclass : Option Ref} {env : Ref} {m k : Machine}
    (e : methodEnvironment superclass m = .ok env k) : env ∈ k.roots := by
  cases superclass with
  | none =>
    obtain ⟨env',l,e,e'⟩ := bind_eq_ok.mp e
    cases e
    cases e'
    exact m.current_mem
  | some c =>
    obtain ⟨outer,l,-,e⟩ := bind_eq_ok.mp e
    obtain ⟨inner,l,-,e⟩ := bind_eq_ok.mp e
    obtain ⟨-,l,-,e⟩ := bind_eq_ok.mp e
    obtain ⟨-,l',e,e'⟩ := bind_eq_ok.mp e
    cases e
    cases e'
    exact mem_roots_keep.mpr (.inl (List.mem_singleton.mpr rfl))

theorem ends_methodEnvironment {superclass : Option Ref} (tw : C.Twins K m k)
    (hs : ∀ c ∈ superclass, c ∈ m.roots) :
    C.Ends Eq (fun _ => []) (methodEnvironment superclass m) (methodEnvironment superclass k) := by
  refine (ends_currentEnvironment tw).bind fun env _ m k e ⟨same,here⟩ tw => ?_
  subst same
  have carries := (leads_currentEnvironment.carries.ok e)
  cases superclass with
  | none => exact .pure rfl tw fun _ hr => absurd hr List.not_mem_nil
  | some c =>
    have hc := carries.mem_roots (hs c rfl)
    have henv : env ∈ m.roots := by
      rw [here,← carries.current]
      exact m.current_mem
    refine (ends_allocate tw (.same _) fun s hs => .inl ?_).bind fun inner _ m k e same tw => ?_
    · rw [show s = env from List.mem_singleton.mp hs]
      exact henv
    · subst same
      have hc := ((leads_allocate _).carries.ok e).mem_roots hc
      refine (ends_define tw (.inr (List.mem_singleton.mpr rfl)) "super" fun s hs => .inl ?_).bind
        fun _ _ m k _ _ tw => ?_
      · rw [show s = c from List.mem_singleton.mp hs]
        exact hc
      · refine (ends_keep tw (m.holds_refs (.object inner))).bind fun _ _ m k _ _ tw => ?_
        exact .pure rfl tw fun _ hr => absurd hr List.not_mem_nil

theorem ends_declareClass {n n' : Name} (name : n.text = n'.text) {superclass : Option Ref}
    {rs ss : List Routine} (like : RoutinesAlike C.pos rs ss) (tw : C.Twins K m k)
    (hs : ∀ c ∈ superclass, c ∈ m.roots) :
    C.Ends (fun _ _ => True) (fun _ => []) (declareClass n superclass rs m)
      (declareClass n' superclass ss k) := by
  simp only [declareClass,← name]
  refine (ends_methodEnvironment tw hs).bind fun closure _ m k e same tw => ?_
  subst same
  have hclosure := methodEnvironment_mem e
  have hs := fun c hc => ((leads_methodEnvironment _).ok e).mem_roots (hs c hc)
  refine (ends_newMethods like tw hclosure fun f hf => absurd hf List.not_mem_nil).bind
    fun table _ m k e same tw => ?_
  subst same
  have hs := fun c hc => ((leads_newMethods _ _ _).ok e).mem_roots (hs c hc)
  refine (ends_allocate tw (.same _) fun s hsub => ?_).bind fun c _ m k _ same tw => ?_
  · exact (List.mem_append.mp hsub).imp (fun h => hs s (Option.mem_toList.mp h)) id
  · subst same
    refine (ends_currentEnvironment tw).bind fun env _ m k e ⟨same,here⟩ tw => ?_
    subst same
    refine (ends_define tw (.inl ?_) n.text (m.holds_refs (.object c))).weaken (fun _ _ => id)
      fun _ _ _ _ _ _ _ _ hr => absurd hr List.not_mem_nil
    rw [here,← (leads_currentEnvironment.ok e).current]
    exact m.current_mem

theorem ends_declareFunction {r s : Routine} (like : RoutineAlike C.pos r s) (tw : C.Twins K m k) :
    C.Ends (fun _ _ => True) (fun _ => []) (declareFunction r m) (declareFunction s k) := by
  simp only [declareFunction,← like.name.text]
  refine (ends_currentEnvironment tw).bind fun env _ m k e ⟨same,here⟩ tw => ?_
  subst same
  have henv : env ∈ m.roots := by
    rw [here,← (leads_currentEnvironment.ok e).current]
    exact m.current_mem
  refine (ends_newFunction like tw henv).bind fun f _ m k e same tw => ?_
  subst same
  exact (ends_define tw (.inl (((leads_allocate _).carries.ok e).mem_roots henv)) r.name.text
    (m.holds_refs (.object f))).weaken (fun _ _ => id)
      fun _ _ _ _ _ _ _ _ hr => absurd hr List.not_mem_nil

theorem checkSuperclass_mem {r : Reference} {x : Value} {c : Ref} {m k : Machine}
    (h : checkSuperclass r x m = .ok c k) : c ∈ k.roots := by
  obtain ⟨o,l,e,e'⟩ := bind_eq_ok.mp h
  cases o with
  | none => cases e'
  | some c' =>
    obtain ⟨-,l',e',e''⟩ := bind_eq_ok.mp e'
    cases e'
    cases e''
    cases x with
    | object t =>
      simp only [class?] at e
      split at e
      · cases e
        exact mem_roots_keep.mpr (.inl (List.mem_singleton.mpr rfl))
      · cases e
    | _ => cases e

theorem map_checkSuperclass_mem {r : Reference} {x : Value} {o : Option Ref} {m k : Machine}
    (h : (some <$> checkSuperclass r x) m = .ok o k) : ∀ c ∈ o, c ∈ k.roots := by
  simp only [Functor.map,EStateM.map] at h
  cases e : checkSuperclass r x m with
  | ok c l =>
    rw [e] at h
    cases h
    intro c' hc
    obtain rfl : c = c' := by simpa using hc
    exact checkSuperclass_mem e
  | error t l => rw [e] at h; cases h

theorem ends_checkSuperclass {r s : Reference} (like : Reference.Alike C.pos r s) {x : Value}
    (tw : C.Twins K m k) (hx : m.Holds K x) :
    C.Ends Eq (fun _ => []) (checkSuperclass r x m) (checkSuperclass s x k) := by
  refine (ends_class? tw hx).bind fun c _ m k e ⟨same,_⟩ tw => ?_
  subst same
  cases c with
  | none => exact ends_raise like.name.pos _ tw
  | some c =>
    refine (ends_keep tw fun r hr => ?_).bind fun _ _ m k _ _ tw => ?_
    · exact (hx r hr).imp ((leads_class? x).carries.ok e).mem_roots id
    · exact .pure rfl tw fun _ hr => absurd hr List.not_mem_nil

end Comparison
end Lox
