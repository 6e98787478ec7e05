import Lox.Proofs.Eval.Nodes

/-! # The evaluator on twins

Twins that evaluate alike syntax trees end alike. Their bounds on nested calls may differ, as long
as neither is met before the steps are used up: a step is worth eight nested calls. The
induction is on one of the bounds, for all the evaluator's functions at once.
-/
namespace Lox
open Machine Exec Comparison

/-- The objects that a signal carries. -/
def signalRefs : Option Signal → List Ref
  | some (.return x) => Holder.refs x
  | _ => []

theorem perform_evaluate_of_no_steps (E : Evaluator) (e : Expr) {m : Machine} (h : m.steps = 0) :
    (Task.evaluate e).perform E m = .error .cut m := tick_bind_of_eq_zero _ h

theorem perform_execute_of_no_steps (E : Evaluator) (s : Stmt) {m : Machine} (h : m.steps = 0) :
    (Task.execute s).perform E m = .error .cut m := tick_bind_of_eq_zero _ h

theorem evaluate_of_no_steps (n : Nat) (e : Expr) {m : Machine} (h : m.steps = 0) :
    evaluate n e m = .error .cut m := by
  cases n with
  | zero => rfl
  | succ n => exact perform_evaluate_of_no_steps (evaluator n) e h

theorem execute_of_no_steps (n : Nat) (s : Stmt) {m : Machine} (h : m.steps = 0) :
    execute n s m = .error .cut m := by
  cases n with
  | zero => rfl
  | succ n => exact perform_execute_of_no_steps (evaluator n) s h

@[simp] theorem refs_constantValue (c : Constant) : Holder.refs (constantValue c) = [] := by
  cases c <;> rfl

/-- With so many steps left, the callee and the arguments of a call are in use. -/
structure Machine.Ready (m : Machine) (s : Nat) (f : Value) (xs : List Value) : Prop where
  steps : m.steps ≤ s
  callee : m.Rooted f
  arguments : ∀ x ∈ xs, m.Rooted x

theorem Machine.Ready.carries {m k : Machine} {s : Nat} {f : Value} {xs : List Value}
    (ready : m.Ready s f xs) (h : Carries m k) : k.Ready s f xs :=
  ⟨Nat.le_trans h.steps ready.steps,h.rooted ready.callee,
    fun x hx => h.rooted (ready.arguments x hx)⟩

/-- Two evaluators end alike when they perform alike tasks under bounds on nested calls. -/
structure Simulates (C : Comparison) (n n' : Nat) (E D : Evaluator) : Prop where
  evaluate {d e m k} : Expr.Alike C.pos d e → 8 * m.steps ≤ n → 8 * m.steps ≤ n' →
    C.Twins [] m k → C.Ends Eq Holder.refs (E (.evaluate d) m) (D (.evaluate e) k)
  evaluateAll {ds es m k} : ArgumentsAlike C.pos ds es → 8 * m.steps + 1 ≤ n →
    8 * m.steps + 1 ≤ n' → C.Twins [] m k →
    C.Ends Eq (fun _ => []) (E (.evaluateAll ds) m) (D (.evaluateAll es) k)
  call {f xs m k} : 8 * m.steps + 5 ≤ n → 8 * m.steps + 5 ≤ n' → m.Rooted f →
    (∀ x ∈ xs, m.Rooted x) → C.Twins [] m k →
    C.Ends Eq Holder.refs (E (.call f xs) m) (D (.call f xs) k)
  callFunction {f xs m k} : 8 * m.steps + 3 ≤ n → 8 * m.steps + 3 ≤ n' → f ∈ m.roots →
    (∀ x ∈ xs, m.Rooted x) → C.Twins [] m k →
    C.Ends Eq Holder.refs (E (.callFunction f xs) m) (D (.callFunction f xs) k)
  callBound {f r xs K m k} : 8 * m.steps + 3 ≤ n → 8 * m.steps + 3 ≤ n' →
    f ∈ m.roots ∨ f ∈ K → r ∈ m.roots → (∀ x ∈ xs, m.Rooted x) → C.Twins K m k →
    C.Ends Eq Holder.refs (E (.callBound f r xs) m) (D (.callBound f r xs) k)
  instantiate {c xs m k} : 8 * m.steps + 4 ≤ n → 8 * m.steps + 4 ≤ n' → c ∈ m.roots →
    (∀ x ∈ xs, m.Rooted x) → C.Twins [] m k →
    C.Ends Eq Holder.refs (E (.instantiate c xs) m) (D (.instantiate c xs) k)
  invoke {r s closure xs K m k} : RoutineAlike C.pos r s → 8 * m.steps + 2 ≤ n →
    8 * m.steps + 2 ≤ n' → (∀ e ∈ closure, e ∈ m.roots ∨ e ∈ K) → (∀ x ∈ xs, m.Rooted x) →
    C.Twins K m k → C.Ends Eq Holder.refs (E (.invoke r closure xs) m) (D (.invoke s closure xs) k)
  execute {s t m k} : Stmt.Alike C.pos s t → 8 * m.steps ≤ n → 8 * m.steps ≤ n' →
    C.Twins [] m k → C.Ends Eq signalRefs (E (.execute s) m) (D (.execute t) k)
  executeAll {ss ts m k} : BodyAlike C.pos ss ts → 8 * m.steps + 1 ≤ n →
    8 * m.steps + 1 ≤ n' → C.Twins [] m k →
    C.Ends Eq signalRefs (E (.executeAll ss) m) (D (.executeAll ts) k)
  loop {d e s t i j m k} : Expr.Alike C.pos d e → Stmt.Alike C.pos s t →
    Option.Rel (Expr.Alike C.pos) i j → 8 * m.steps + 1 ≤ n → 8 * m.steps + 1 ≤ n' →
    C.Twins [] m k → C.Ends Eq signalRefs (E (.loop d s i) m) (D (.loop e t j) k)
  declareClass {name name' base rs ss m k} : Name.Alike C.pos name name' → RoutinesAlike C.pos rs ss →
    (∀ c ∈ base, c ∈ m.roots) → C.Twins [] m k →
    C.Ends (fun _ _ => True) (fun _ => []) (E (.declareClass name base rs) m)
      (D (.declareClass name' base ss) k)

theorem ends_declareVariable {C : Comparison} {name name' : String} {x : Value} {m k : Machine}
    (same : name = name') (tw : C.Twins (Holder.refs x) m k) :
    C.Ends Eq signalRefs (declareVariable name x m) (declareVariable name' x k) := by
  subst same
  refine (ends_currentEnvironment tw).bind fun env _ m k e ⟨same,here⟩ tw => ?_
  subst same
  refine (ends_define tw (.inl ?_) name (m.holds_refs x)).bind fun _ _ m k _ _ tw => ?_
  · rw [here,← (leads_currentEnvironment.ok e).current]
    exact m.current_mem
  · exact .pure rfl tw fun _ hr => absurd hr List.not_mem_nil

namespace Simulates
variable {C : Comparison} {n n' : Nat} {E D : Evaluator} (h : Simulates C n n' E D)
  (bal : Balanced E) {m k : Machine}
include h

include bal in
theorem called {d e : Expr} {p q : Pos} {ds es : List Expr} (callee : Expr.Alike C.pos d e)
    (paren : C.pos p q) (args : ArgumentsAlike C.pos ds es) (hn : 8 * m.steps + 7 ≤ n)
    (hn' : 8 * m.steps + 7 ≤ n') {K : List Ref} (tw : C.Twins K m k) :
    C.Ends Eq Holder.refs (E.performCall d p ds m) (D.performCall e q es k) := by
  obtain ⟨s,left⟩ : ∃ s, m.steps ≤ s ∧ 8 * s + 7 ≤ n ∧ 8 * s + 7 ≤ n' := ⟨_,Nat.le_refl _,hn,hn'⟩
  obtain ⟨left,hn,hn'⟩ := left
  refine (h.evaluate callee (by omega) (by omega) tw.drop).bind fun f _ m k e same tw => ?_
  subst same
  have left := Nat.le_trans ((bal.evaluate d).resumes.ok e).steps left
  refine (ends_keep tw (m.holds_refs f)).bind fun _ _ m k e _ tw => ?_
  have inUse : f ∈ m.temps := by
    cases e
    exact List.mem_cons_self
  have left := Nat.le_trans ((leads_keep f).ok e).steps left
  refine (h.evaluateAll args (by omega) (by omega) tw.drop).bind fun xs _ m k e same tw => ?_
  subst same
  have ready : m.Ready s f xs := by
    have temps := bal.arguments e
    refine ⟨Nat.le_trans ((bal.evaluateAll _).ok e).steps left,rooted_of_mem ?_,
      fun x hx => rooted_of_mem ?_⟩
    · rw [temps]
      exact List.mem_append_right _ inUse
    · rw [temps]
      exact List.mem_append_left _ (List.mem_reverse.mpr hx)
  refine (ends_trace tw _ _ _).bind fun _ _ m k e _ tw => ?_
  have ready := ready.carries ((leads_trace _ _).carries.ok e)
  refine (ends_checkCall paren _ tw ready.callee.holds).bind fun _ _ m k e _ tw => ?_
  have ready := ready.carries ((leads_checkCall _ _ _).carries.ok e)
  refine .entering paren tw ready.callee (bal.entered f xs) fun m' k' up steps tw => ?_
  have ready : m'.Ready s f xs :=
    ⟨steps ▸ ready.steps,fun r hr => up r (ready.callee r hr),
      fun x hx r hr => up r (ready.arguments x hx r hr)⟩
  refine (ends_traceCall tw ready.callee.holds).bind fun _ _ m k e _ tw => ?_
  obtain ⟨left,callee,arguments⟩ := ready.carries ((leads_traceCall f).carries.ok e)
  exact h.call (by omega) (by omega) callee arguments tw.drop

include bal in
theorem evaluate_perform {d e : Expr} (like : Expr.Alike C.pos d e) (hn : 8 * m.steps ≤ n + 1)
    (hn' : 8 * m.steps ≤ n' + 1) (tw : C.Twins [] m k) :
    C.Ends Eq Holder.refs ((Task.evaluate d).perform E m) ((Task.evaluate e).perform D k) := by
  cases hs : m.steps with
  | zero =>
    rw [perform_evaluate_of_no_steps E d hs,perform_evaluate_of_no_steps D e (tw.steps_eq.trans hs)]
    exact .error .cut tw
  | succ s =>
    refine .tick tw fun s' hs' tw => (ends_trace tw _ _ _).bind fun _ _ m k e _ tw => ?_
    have left : m.steps ≤ s := by
      have := ((leads_trace _ _).ok e).steps
      dsimp only at this
      omega
    clear e
    have sub : ∀ {d e : Expr} {m k : Machine} {K : List Ref}, Expr.Alike C.pos d e → m.steps ≤ s →
        C.Twins K m k → C.Ends Eq Holder.refs (E (.evaluate d) m) (D (.evaluate e) k) :=
      fun like left tw => h.evaluate like (by omega) (by omega) tw.drop
    have fewer : ∀ {d : Expr} {m k : Machine} {x : Value}, E (.evaluate d) m = .ok x k →
        Resumes m k := fun e => (bal.evaluate _).resumes.ok e
    cases like with
    | literal _ => exact .pure rfl tw fun r hr => by simp at hr
    | grouping _ like => exact sub like left tw
    | var like => exact ends_readVariable like tw
    | assign target value =>
      refine (sub value left tw).bind fun x _ m k _ same tw => ?_
      subst same
      refine (ends_assignVariable target tw (m.holds_refs x)).bind fun _ _ m k _ _ tw => ?_
      exact .pure rfl tw fun _ => .inr
    | unary pos right =>
      refine (sub right left tw).bind fun x _ m k _ same tw => ?_
      subst same
      exact ends_applyUnary pos _ x tw
    | @binary _ _ _ _ d₂ _ e₂ first pos second =>
      refine (sub first left tw).bind fun x _ m k e same tw => ?_
      subst same
      have left := Nat.le_trans (fewer e).steps left
      refine (Ends.keeping (y := D (.evaluate e₂)) tw (m.holds_refs x) (bal.evaluate d₂).resumes
        fun _ _ _ _ steps tw => sub second (by omega) tw).bind
          fun y _ m k _ same tw => ?_
      subst same
      refine (ends_traceBinary _ tw (fun _ hr => .inr (List.mem_append_left _ hr))
        fun _ hr => .inr (List.mem_append_right _ hr)).bind fun _ _ m k _ _ tw => ?_
      exact ends_applyBinary pos _ x y tw
    | @logical op p q d d' e e' first _ second =>
      cases op with
      | or =>
        refine (sub first left tw).bind fun x _ m k e same tw => ?_
        subst same
        have left := Nat.le_trans (fewer e).steps left
        split
        · exact .pure rfl tw fun _ => .inr
        · exact sub second left tw
      | and =>
        refine (sub first left tw).bind fun x _ m k e same tw => ?_
        subst same
        have left := Nat.le_trans (fewer e).steps left
        split
        · exact sub second left tw
        · exact .pure rfl tw fun _ => .inr
    | call callee paren args =>
      refine (ends_trace tw _ _ _).bind fun _ _ m k e _ tw =>
        .releasing tw (bal.called _ _ _) ?_
      have left := Nat.le_trans ((leads_trace _ _).ok e).steps left
      exact h.called bal callee paren args (by omega) (by omega) tw
    | get object name =>
      refine (sub object left tw).bind fun x _ m k _ same tw => ?_
      subst same
      exact ends_getProperty name tw (m.holds_refs x)
    | @set _ _ _ d₂ _ e₂ object name value =>
      refine (sub object left tw).bind fun target _ m k e same tw => ?_
      subst same
      have left := Nat.le_trans (fewer e).steps left
      refine (ends_instance? tw (m.holds_refs target)).bind fun o _ m k e ⟨same,object⟩ tw => ?_
      subst same
      have left := Nat.le_trans ((leads_instance? target).ok e).steps left
      cases o with
      | none => exact ends_raise name.pos _ tw
      | some r =>
        obtain rfl := object r rfl
        refine (Ends.keeping (y := D (.evaluate e₂)) tw (fun _ => .inr) (bal.evaluate d₂).resumes
          fun _ _ _ _ steps tw => sub value (by omega) tw).bind
            fun x _ m k _ same tw => ?_
        subst same
        refine Ends.bind (ends_onHeap name.pos tw fun _ _ held => ?_) fun _ _ m k _ _ tw => ?_
        · rw [← name.text]
          exact writes_setField held (by simp [Holder.refs]) _ (by simp +contextual)
        · exact .pure rfl tw fun _ hr => .inr (List.mem_append_right _ hr)
    | this pos => exact ends_readThis pos _ tw
    | super pos method => exact ends_readSuper pos method _ tw

include bal in
theorem evaluateAll_perform {ds es : List Expr} (like : ArgumentsAlike C.pos ds es)
    (hn : 8 * m.steps + 1 ≤ n + 1) (hn' : 8 * m.steps + 1 ≤ n' + 1) (tw : C.Twins [] m k) :
    C.Ends Eq (fun _ => []) ((Task.evaluateAll ds).perform E m) ((Task.evaluateAll es).perform D k) := by
  cases ds with
  | nil =>
    cases like
    exact .pure rfl tw fun _ hr => absurd hr List.not_mem_nil
  | cons d ds =>
    cases like with
    | cons like rest =>
      refine (h.evaluate like (by omega) (by omega) tw).bind fun x _ m k e same tw => ?_
      subst same
      have left := (bal.evaluate d).fewer e
      refine (ends_keep tw (m.holds_refs x)).bind fun _ _ m k e _ tw => ?_
      have left := Nat.lt_of_le_of_lt ((leads_keep x).ok e).steps left
      refine (h.evaluateAll rest (by omega) (by omega) tw.drop).bind fun xs _ m k _ same tw => ?_
      subst same
      exact .pure rfl tw fun _ hr => absurd hr List.not_mem_nil

theorem call_perform {f : Value} {xs : List Value} (hn : 8 * m.steps + 5 ≤ n + 1)
    (hn' : 8 * m.steps + 5 ≤ n' + 1) (hf : m.Rooted f) (hxs : ∀ x ∈ xs, m.Rooted x)
    (tw : C.Twins [] m k) :
    C.Ends Eq Holder.refs ((Task.call f xs).perform E m) ((Task.call f xs).perform D k) := by
  cases f with
  | native _ => exact ends_readClock tw
  | bound f r =>
    exact h.callBound (by omega) (by omega) (.inl (hf f (by simp [Holder.refs])))
      (hf r (by simp [Holder.refs])) hxs tw
  | object r =>
    have hr := hf r (List.mem_singleton.mpr rfl)
    have kind : k.heap.kindOf r = m.heap.kindOf r := by
      obtain ⟨heap,log,rfl,held⟩ := tw
      exact kindOf_eq held (List.mem_append_left _ hr)
    by_cases klass : m.heap.kindOf r = .klass
    · rw [perform_call_of_class E xs klass,perform_call_of_class D xs (kind.trans klass)]
      exact h.instantiate (by omega) (by omega) hr hxs tw
    · rw [perform_call_of_not_class E xs klass,perform_call_of_not_class D xs (kind ▸ klass)]
      exact h.callFunction (by omega) (by omega) hr hxs tw
  | nil | bool _ | number _ | string _ => exact .throw (.fault fun _ => rfl) tw

theorem callFunction_perform {f : Ref} {xs : List Value} (hn : 8 * m.steps + 3 ≤ n + 1)
    (hn' : 8 * m.steps + 3 ≤ n' + 1) (hf : f ∈ m.roots) (hxs : ∀ x ∈ xs, m.Rooted x)
    (tw : C.Twins [] m k) :
    C.Ends Eq Holder.refs ((Task.callFunction f xs).perform E m) ((Task.callFunction f xs).perform D k) := by
  refine Ends.bind (ends_reading (C.refl _) tw fun _ _ held =>
    reads_function held (List.mem_append_left _ hf)) fun a b m k e like tw => ?_
  obtain ⟨routine,closure⟩ := a
  obtain ⟨routine',closure'⟩ := b
  obtain ⟨like,rfl⟩ := like
  have resumes := (leads_reading _ _).ok e
  have left := resumes.steps
  exact h.invoke like (by omega) (by omega)
    (fun t ht => .inr (List.mem_append_left _ (Option.mem_toList.mpr ht)))
    (fun x hx => resumes.rooted (hxs x hx)) tw

theorem callBound_perform {f r : Ref} {xs : List Value} {K : List Ref} (hn : 8 * m.steps + 3 ≤ n + 1)
    (hn' : 8 * m.steps + 3 ≤ n' + 1) (hf : f ∈ m.roots ∨ f ∈ K) (hr : r ∈ m.roots)
    (hxs : ∀ x ∈ xs, m.Rooted x) (tw : C.Twins K m k) :
    C.Ends Eq Holder.refs ((Task.callBound f r xs).perform E m) ((Task.callBound f r xs).perform D k) := by
  obtain ⟨s,start,ready⟩ : ∃ s, s = m.steps ∧ m.Ready s (.object r) xs :=
    ⟨_,rfl,Nat.le_refl _,fun t ht => List.mem_singleton.mp ht ▸ hr,hxs⟩
  refine Ends.bind (ends_reading (C.refl _) tw fun _ _ held =>
    reads_function held (List.mem_append.mpr hf)) fun a b m k e like tw => ?_
  obtain ⟨routine,closure⟩ := a
  obtain ⟨routine',closure'⟩ := b
  obtain ⟨like,rfl⟩ := like
  have ready : m.Ready s (.object r) xs := ready.carries ((leads_reading _ _).carries.ok e)
  refine (ends_allocate tw (.same _) fun t ht => .inr ?_).bind fun env _ m k e same tw => ?_
  · exact List.mem_append_left _ (by simpa [Object.references,Bindings.values] using ht)
  · subst same
    have ready := ready.carries ((leads_allocate _).carries.ok e)
    refine (ends_define tw (.inr (List.mem_singleton.mpr rfl)) "this" ready.callee.holds).bind
      fun _ _ m k e _ tw => ?_
    obtain ⟨left,-,hxs⟩ := ready.carries ((leads_define _ _ _).carries.ok e)
    exact h.invoke like (by omega) (by omega) (fun t ht => .inr (by simp_all)) hxs tw

include bal in
theorem instantiate_perform {c : Ref} {xs : List Value} (hn : 8 * m.steps + 4 ≤ n + 1)
    (hn' : 8 * m.steps + 4 ≤ n' + 1) (hc : c ∈ m.roots) (hxs : ∀ x ∈ xs, m.Rooted x)
    (tw : C.Twins [] m k) :
    C.Ends Eq Holder.refs ((Task.instantiate c xs).perform E m) ((Task.instantiate c xs).perform D k) := by
  obtain ⟨s,start,ready⟩ : ∃ s, s = m.steps ∧ m.Ready s (.object c) xs :=
    ⟨_,rfl,Nat.le_refl _,fun t ht => List.mem_singleton.mp ht ▸ hc,hxs⟩
  have object : ∀ {m : Machine}, m.Ready s (.object c) xs → c ∈ m.roots :=
    fun ready => ready.callee c (List.mem_singleton.mpr rfl)
  refine Ends.bind (ends_reading (C.refl _) tw fun _ _ held =>
    reads_live held (List.mem_append_left _ hc)) fun _ _ m k e _ tw => ?_
  have ready := ready.carries ((leads_reading _ _).carries.ok e)
  refine (ends_allocate tw (.same _) fun t ht => .inl ?_).bind fun r _ m k e same tw => ?_
  · rw [show t = c by simpa [Object.references,Bindings.values] using ht]
    exact object ready
  · subst same
    have ready := ready.carries ((leads_allocate _).carries.ok e)
    refine Ends.bind (ends_reading (C.refl _) tw fun _ _ held =>
      reads_findMethod held (List.mem_append_left _ (object ready)) "init")
        fun init _ m k e same tw => ?_
    subst same
    have ready := ready.carries ((leads_reading _ _).carries.ok e)
    cases init with
    | none => exact .pure rfl tw fun t ht => .inr ht
    | some f =>
      have left := ready.steps
      refine (Ends.keeping (y := D _) tw (fun t ht => .inr (List.mem_append_right _ ht))
        (bal.callBound f r xs) fun m' k' up rooted steps tw =>
          h.callBound (by omega) (by omega) (.inr (by simp))
            (rooted r (List.mem_singleton.mpr rfl))
            (fun x hx t ht => up t (ready.arguments x hx t ht)) tw).bind
          fun _ _ m k _ _ tw => ?_
      exact .pure rfl tw fun t ht => .inr (List.mem_append_left _ ht)

include bal in
theorem invoke_perform {r s : Routine} {closure : Option Ref} {xs : List Value} {K : List Ref}
    (like : RoutineAlike C.pos r s) (hn : 8 * m.steps + 2 ≤ n + 1) (hn' : 8 * m.steps + 2 ≤ n' + 1)
    (hc : ∀ e ∈ closure, e ∈ m.roots ∨ e ∈ K) (hxs : ∀ x ∈ xs, m.Rooted x) (tw : C.Twins K m k) :
    C.Ends Eq Holder.refs ((Task.invoke r closure xs).perform E m) ((Task.invoke s closure xs).perform D k) := by
  refine (ends_allocate tw (.same _) fun t ht => ?_).bind fun env _ m k e same tw => ?_
  · exact hc t (by simpa [Object.references,Bindings.values] using ht)
  · subst same
    have first := (leads_allocate _).carries.ok e
    refine (ends_bindParameters like.params tw (.inr (List.mem_singleton.mpr rfl)) fun x hx =>
      (first.rooted (hxs x hx)).holds).bind fun _ _ m k e _ tw => ?_
    have left := Nat.le_trans ((leads_bindParameters _ _ _).ok e).steps first.steps
    refine (Ends.inEnvironment (y := D (.executeAll s.body)) tw (.inr (List.mem_singleton.mpr rfl))
      (bal.executeAll r.body) fun m' k' _ steps tw =>
        h.executeAll like.body (by omega) (by omega) tw).bind fun signal _ m k _ same tw => ?_
    subst same
    rcases signal with _ | ⟨_ | _ | x⟩
    · exact .pure rfl tw fun _ hr => absurd hr List.not_mem_nil
    · exact .pure rfl tw fun _ hr => absurd hr List.not_mem_nil
    · exact .pure rfl tw fun _ hr => absurd hr List.not_mem_nil
    · exact .pure rfl tw fun _ => .inr

include bal in
theorem execute_perform {s t : Stmt} (like : Stmt.Alike C.pos s t) (hn : 8 * m.steps ≤ n + 1)
    (hn' : 8 * m.steps ≤ n' + 1) (tw : C.Twins [] m k) :
    C.Ends Eq signalRefs ((Task.execute s).perform E m) ((Task.execute t).perform D k) := by
  cases hs : m.steps with
  | zero =>
    rw [perform_execute_of_no_steps E s hs,perform_execute_of_no_steps D t (tw.steps_eq.trans hs)]
    exact .error .cut tw
  | succ s =>
    refine .tick tw fun s' hs' tw => (ends_trace tw _ _ _).bind fun _ _ m k e _ tw => ?_
    have left : m.steps ≤ s := by
      have := ((leads_trace _ _).ok e).steps
      dsimp only at this
      omega
    clear e
    have sub : ∀ {d e : Expr} {m k : Machine} {K : List Ref}, Expr.Alike C.pos d e → m.steps ≤ s →
        C.Twins K m k → C.Ends Eq Holder.refs (E (.evaluate d) m) (D (.evaluate e) k) :=
      fun like left tw => h.evaluate like (by omega) (by omega) tw.drop
    have done : ∀ {K : List Ref} {m k : Machine}, C.Twins K m k →
        C.Ends Eq signalRefs ((pure none : Exec (Option Signal)) m) ((pure none : Exec _) k) :=
      fun tw => .pure rfl tw fun _ hr => absurd hr List.not_mem_nil
    cases like with
    | expression like => exact (sub like left tw).bind fun _ _ m k _ _ tw => done tw
    | print pos like =>
      refine (sub like left tw).bind fun x _ m k _ same tw => ?_
      subst same
      refine Ends.bind (ends_reading pos tw fun _ _ held =>
        reads_inspect_value held fun r hr => List.mem_append_right _ hr) fun text _ m k _ same tw => ?_
      subst same
      exact (ends_print tw _).bind fun _ _ m k _ _ tw => done tw
    | @var name name' init init' like value =>
      cases value with
      | none => exact ends_declareVariable like.text tw
      | some value =>
        refine (sub value left tw).bind fun x _ m k _ same tw => ?_
        subst same
        exact ends_declareVariable like.text tw
    | block _ like =>
      refine (ends_trace tw _ _ _).bind fun _ _ m k e _ tw => ?_
      have left := Nat.le_trans ((leads_trace _ _).ok e).steps left
      refine (ends_currentEnvironment tw).bind fun outer _ m k e ⟨same,here⟩ tw => ?_
      subst same
      have left := Nat.le_trans (leads_currentEnvironment.ok e).steps left
      refine (ends_allocate tw (.same _) fun r hr => .inl ?_).bind fun env _ m k e same tw => ?_
      · rw [show r = outer from List.mem_singleton.mp hr,here,
          ← (leads_currentEnvironment.ok e).current]
        exact current_mem _
      · subst same
        have left := Nat.le_trans ((leads_allocate _).ok e).steps left
        exact .inEnvironment tw (.inr (List.mem_singleton.mpr rfl)) (bal.executeAll _)
          fun m' k' _ steps tw => h.executeAll like (by omega) (by omega) tw
    | branch _ condition yes =>
      refine (sub condition left tw).bind fun x _ m k e same tw => ?_
      subst same
      have left := Nat.le_trans ((bal.evaluate _).resumes.ok e).steps left
      split
      · exact h.execute yes (by omega) (by omega) tw.drop
      · exact done tw
    | branchElse _ condition yes no =>
      refine (sub condition left tw).bind fun x _ m k e same tw => ?_
      subst same
      have left := Nat.le_trans ((bal.evaluate _).resumes.ok e).steps left
      split
      · exact h.execute yes (by omega) (by omega) tw.drop
      · exact h.execute no (by omega) (by omega) tw.drop
    | loop _ condition body increment =>
      exact h.loop condition body increment (by omega) (by omega) tw.drop
    | @jump p q j _ =>
      cases j with
      | leave => exact .pure rfl tw fun _ hr => absurd hr List.not_mem_nil
      | next => exact .pure rfl tw fun _ hr => absurd hr List.not_mem_nil
    | function like =>
      refine (ends_trace tw _ _ _).bind fun _ _ m k _ _ tw => ?_
      exact (ends_declareFunction like tw).bind fun _ _ m k _ _ tw => done tw
    | leave _ value =>
      cases value with
      | none => exact .pure rfl tw fun _ hr => absurd hr List.not_mem_nil
      | some like =>
        refine (sub like left tw).bind fun x _ m k _ same tw => ?_
        subst same
        exact .pure rfl tw fun _ => .inr
    | @klass name name' base base' rs ss like superclass methods =>
      refine (ends_trace tw _ _ _).bind fun _ _ m k e _ tw => ?_
      have left := Nat.le_trans ((leads_trace _ _).ok e).steps left
      have declares : ∀ base, Leads Carries (do
          E (.declareClass name base rs)
          return (none : Option Signal)) := fun base =>
        .bind (bal.declareClass name base rs) fun _ => .pure _
      cases superclass with
      | none =>
        refine .releasing tw (declares none) ?_
        exact (h.declareClass like methods (fun _ hc => absurd hc (by simp)) tw.drop).bind
          fun _ _ m k _ _ tw => done tw
      | some superclass =>
        refine .releasing tw (.bind (bal.evaluate _).resumes.carries fun x =>
          .bind (.map some (leads_checkSuperclass _ x)) declares) ?_
        refine (sub (.var superclass) left tw).bind fun x _ m k _ same tw => ?_
        subst same
        have check : C.Ends Eq (fun _ => []) ((some <$> checkSuperclass _ x) m)
            ((some <$> checkSuperclass _ x) k) :=
          .map some (ends_checkSuperclass superclass tw (m.holds_refs x)) fun _ _ => id
        refine check.bind fun c _ m k e same tw => ?_
        subst same
        have hc : ∀ b ∈ c, b ∈ m.roots := map_checkSuperclass_mem e
        exact (h.declareClass like methods hc tw.drop).bind fun _ _ m k _ _ tw => done tw

include bal in
theorem executeAll_perform {ss ts : List Stmt} (like : BodyAlike C.pos ss ts)
    (hn : 8 * m.steps + 1 ≤ n + 1) (hn' : 8 * m.steps + 1 ≤ n' + 1) (tw : C.Twins [] m k) :
    C.Ends Eq signalRefs ((Task.executeAll ss).perform E m) ((Task.executeAll ts).perform D k) := by
  cases ss with
  | nil =>
    cases like
    exact .pure rfl tw fun _ hr => absurd hr List.not_mem_nil
  | cons s ss =>
    cases like with
    | cons like rest =>
      refine (h.execute like (by omega) (by omega) tw).bind fun signal _ m k e same tw => ?_
      subst same
      have left := (bal.execute s).fewer e
      cases signal with
      | none => exact h.executeAll rest (by omega) (by omega) tw
      | some signal => exact .pure rfl tw fun _ => .inr

include bal in
/-- What a loop does after a round that did not end it. -/
theorem next_round {d e : Expr} {s t : Stmt} {i j : Option Expr} {K : List Ref}
    (condition : Expr.Alike C.pos d e) (body : Stmt.Alike C.pos s t) :
    Option.Rel (Expr.Alike C.pos) i j → 8 * m.steps + 1 ≤ n → 8 * m.steps + 1 ≤ n' →
    C.Twins K m k → C.Ends Eq signalRefs
      ((match i with
        | some e => do
          let _ ← E (.execute (.expression e))
          E (.loop d s i)
        | none => E (.loop d s i) : Exec (Option Signal)) m)
      ((match j with
        | some e' => do
          let _ ← D (.execute (.expression e'))
          D (.loop e t j)
        | none => D (.loop e t j) : Exec (Option Signal)) k) := by
  intro increment hn hn' tw
  cases increment with
  | none => exact h.loop condition body .none hn hn' tw.drop
  | some like =>
    refine (h.execute (.expression like) (by omega) (by omega) tw.drop).bind fun _ _ m k e₁ _ tw => ?_
    have left := (bal.execute _).fewer e₁
    exact h.loop condition body (.some like) (by omega) (by omega) tw.drop

include bal in
theorem loop_perform {d e : Expr} {s t : Stmt} {i j : Option Expr} (condition : Expr.Alike C.pos d e)
    (body : Stmt.Alike C.pos s t) (increment : Option.Rel (Expr.Alike C.pos) i j)
    (hn : 8 * m.steps + 1 ≤ n + 1) (hn' : 8 * m.steps + 1 ≤ n' + 1) (tw : C.Twins [] m k) :
    C.Ends Eq signalRefs ((Task.loop d s i).perform E m) ((Task.loop e t j).perform D k) := by
  refine (h.evaluate condition (by omega) (by omega) tw).bind fun x _ m k e₁ same tw => ?_
  subst same
  have left := (bal.evaluate d).fewer e₁
  split
  · refine (h.execute body (by omega) (by omega) tw.drop).bind fun signal _ m k e₁ same tw => ?_
    subst same
    have left := Nat.lt_trans ((bal.execute s).fewer e₁) left
    rcases signal with _ | ⟨_ | _ | x⟩
    · exact h.next_round bal condition body increment (by omega) (by omega) tw
    · exact .pure rfl tw fun _ hr => absurd hr List.not_mem_nil
    · exact h.next_round bal condition body increment (by omega) (by omega) tw
    · exact .pure rfl tw fun _ => .inr
  · exact .pure rfl tw fun _ hr => absurd hr List.not_mem_nil

include bal in
theorem perform : Simulates C (n + 1) (n' + 1) (fun t => t.perform E) fun t => t.perform D :=
  ⟨h.evaluate_perform bal,h.evaluateAll_perform bal,h.call_perform,h.callFunction_perform,
    h.callBound_perform,h.instantiate_perform bal,h.invoke_perform bal,h.execute_perform bal,
    h.executeAll_perform bal,h.loop_perform bal,fun name like hs tw => ends_declareClass name.text like tw hs⟩

end Simulates

/-- The evaluator ends alike on twins, under all bounds that are not met before the steps are. -/
theorem simulates (C : Comparison) (n n' : Nat) : Simulates C n n' (evaluator n) (evaluator n') := by
  have expressions : ∀ (n n' : Nat) {d e : Expr} {m k : Machine}, m.steps = 0 → C.Twins [] m k →
      C.Ends Eq Holder.refs (evaluate n d m) (evaluate n' e k) := by
    intro n n' d e m k left tw
    rw [evaluate_of_no_steps n d left,evaluate_of_no_steps n' e (tw.steps_eq.trans left)]
    exact .error .cut tw
  have statements : ∀ (n n' : Nat) {s t : Stmt} {m k : Machine}, m.steps = 0 → C.Twins [] m k →
      C.Ends Eq signalRefs (execute n s m) (execute n' t k) := by
    intro n n' s t m k left tw
    rw [execute_of_no_steps n s left,execute_of_no_steps n' t (tw.steps_eq.trans left)]
    exact .error .cut tw
  induction n generalizing n' with
  | zero =>
    constructor
    case evaluate =>
      intro d e m k _ hn _ tw
      exact expressions 0 n' (d := d) (e := e) (by omega) tw
    case execute =>
      intro s t m k _ hn _ tw
      exact statements 0 n' (s := s) (t := t) (by omega) tw
    case declareClass => exact fun name like hs tw => ends_declareClass name.text like tw hs
    all_goals intros; omega
  | succ n ih =>
    cases n' with
    | zero =>
      constructor
      case evaluate =>
        intro d e m k _ hn _ tw
        exact expressions (n + 1) 0 (d := d) (e := e) (by omega) tw
      case execute =>
        intro s t m k _ hn _ tw
        exact statements (n + 1) 0 (s := s) (t := t) (by omega) tw
      case declareClass => exact fun name like hs tw => ends_declareClass name.text like tw hs
      all_goals intros; omega
    | succ n' =>
      rw [show evaluator (n + 1) = fun t => t.perform (evaluator n) from funext (evaluator_succ n),
        show evaluator (n' + 1) = fun t => t.perform (evaluator n') from funext (evaluator_succ n')]
      exact (ih n').perform (balanced n)

end Lox
