import Lox.Proofs.Eval.Stages
import Lox.Proofs.Eval.Uniform

/-! # Limits on nested calls

The same program is run under two limits. As long as no call is refused under the lower one, both
runs are the same. Once a call is refused the run comes to its end, for nothing catches an error, while
the other run can only print more.
-/
namespace Lox
open Machine Exec

/-- The same machine under another limit on nested calls. -/
def Machine.withLimit (m : Machine) (limit : Int) : Machine :=
  { m with calls := { m.calls with limit } }

/-- What was printed stays. -/
def Machine.Prints (m k : Machine) : Prop := ∃ rest, k.output = m.output ++ rest

instance : IsPreorder Machine Prints where
  refl m := ⟨"",by simp⟩
  trans m k l := by
    rintro ⟨rest,e⟩ ⟨rest',e'⟩
    exact ⟨rest ++ rest',by rw [e',e,String.append_assoc]⟩

theorem Machine.prints_of_eq {m k : Machine} (output : k.output = m.output) : Prints m k :=
  ⟨"",by rw [output,String.append_empty]⟩

/-- What was printed stays, and so does the limit on nested calls. -/
structure Machine.Prolongs (m k : Machine) : Prop where
  limit : k.calls.limit = m.calls.limit
  prints : Prints m k

instance : IsPreorder Machine Prolongs where
  refl m := ⟨rfl,Std.Refl.refl m⟩
  trans m k l mk kl := ⟨kl.limit.trans mk.limit,IsTrans.trans m k l mk.prints kl.prints⟩

theorem Machine.prolongs_of_eq {m k : Machine} (limit : k.calls.limit = m.calls.limit)
    (output : k.output = m.output) : Prolongs m k := ⟨limit,prints_of_eq output⟩

theorem Machine.prolongs_logJournal (m : Machine) : Prolongs m m.logJournal := by
  simp only [logJournal]
  split
  · exact Std.Refl.refl m
  · exact prolongs_of_eq rfl rfl

theorem CallDepth.limit_enter (c : CallDepth) : c.enter.2.limit = c.limit := by
  simp only [enter]
  split <;> rfl

/-! ## Output only grows -/

section
variable {α : Type}

theorem leads_afterwards {R : Machine → Machine → Prop} {x : Exec α} {g : Machine → Machine} {m l : Machine}
    (h : R m (g (stateAfter (x l)))) : R m (stateAfter (afterwards x g l)) := by
  rwa [stateAfter_afterwards]

theorem prolongs_bracket {x : Exec α} (h : Leads Prolongs x) {m l : Machine} {g : Machine → Machine}
    (before : Prolongs m l) (after : ∀ k, Prolongs k (g k)) :
    Prolongs m (stateAfter (afterwards x g l)) :=
  leads_afterwards (IsTrans.trans _ _ _ before (IsTrans.trans _ _ _ (h l) (after _)))

theorem prolongs_enter {E : Evaluator} (give : ∀ t, Leads Prolongs (E t)) (paren : Pos) (f : Value)
    (xs : List Value) : Leads Prolongs (E.enter paren f xs) := by
  refine .bind (fun m => ?_) fun _ => fun m => ?_
  · have limit := CallDepth.limit_enter m.calls
    simp only [enterCall]
    cases e : m.calls.enter with
    | mk refused calls =>
      rw [e] at limit
      cases refused <;> exact prolongs_of_eq limit rfl
  · have inner : Leads Prolongs (do traceCall f; E (.call f xs)) := by
      refine .bind (fun m => ?_) fun _ => give (.call f xs)
      have resumes := leads_traceCall f m
      refine prolongs_of_eq resumes.limit ?_
      simp only [traceCall,trace]
      repeat' split
      all_goals rfl
    exact prolongs_bracket inner (prolongs_of_eq rfl rfl) fun k => prolongs_of_eq rfl rfl

theorem prolongs_onHeap (pos : Pos) (op : HeapM Value α) : Leads Prolongs (onHeap pos op) := fun m => by
  simp only [onHeap]
  split <;> exact prolongs_of_eq rfl rfl

theorem uniform_prolongs (E : Evaluator) :
    Uniform (fun _ => True) fun {α} (x : Evaluator → Exec α) => Leads Prolongs (x E) where
  pure a := .pure a
  raise _ _ := .throw _
  fault _ _ := .throw _
  bind hx hf := .bind hx hf
  seeing h m := h m.sight m
  onHeap pos op _ := prolongs_onHeap pos op
  register r m := by
    have moved : ∀ heap, Prolongs m ({ m with heap } : Machine).logJournal := fun heap =>
      IsTrans.trans m { m with heap } _ (prolongs_of_eq rfl rfl) (prolongs_logJournal _)
    simp only [registerObject]
    split <;> exact moved _
  tick m := by
    simp only [tick]
    split <;> exact prolongs_of_eq rfl rfl
  log _ _ := prolongs_of_eq rfl rfl
  keep _ _ := prolongs_of_eq rfl rfl
  print text _ := ⟨rfl,text,rfl⟩
  clock _ := prolongs_of_eq rfl rfl
  releasing h m := prolongs_bracket h (Std.Refl.refl m) fun _ => prolongs_of_eq rfl rfl
  inEnvironment r x h m := prolongs_bracket h (prolongs_of_eq rfl rfl) fun _ => prolongs_of_eq rfl rfl

theorem prolongs_perform {E : Evaluator} (give : ∀ t, Leads Prolongs (E t)) (t : Task) :
    Leads Prolongs (t.perform E) := by
  have u := uniform_prolongs E
  refine u.perform give t.raisesIn_all fun callee paren args here => ?_
  simp only [perform_call]
  have released : Leads Prolongs (releasing (E.prepare callee paren args >>= fun p =>
      E.enter paren p.1 p.2)) :=
    u.releasing (x := fun E => E.prepare callee paren args >>= fun p => E.enter paren p.1 p.2)
      (.bind (u.prepare give here) fun p => prolongs_enter give paren p.1 p.2)
  exact .bind u.tick fun _ => .bind (u.trace _ _) fun _ => .bind (u.trace _ _) fun _ => released

theorem prolongs (n : Nat) (t : Task) : Leads Prolongs (evaluator n t) := by
  induction n generalizing t with
  | zero =>
    cases t with
    | declareClass name base rs => exact (uniform_prolongs (evaluator 0)).declareClass name base rs
    | _ => exact .throw _
  | succ n ih =>
    rw [evaluator_succ]
    exact prolongs_perform ih t

end

/-! ## Two limits -/

/-- An evaluation under a limit and one under a higher limit `M` end alike, unless a call was refused
under the lower limit for the reason given. Then what was printed is the beginning of what is
printed under the higher one. -/
inductive Limited {α : Type} (M : Int) (reason : Prop) :
    EStateM.Result Halt Machine α → EStateM.Result Halt Machine α → Prop
  | ok (a : α) (k : Machine) : Limited M reason (.ok a k) (.ok a (k.withLimit M))
  | error {h : Halt} (k : Machine) : (∀ pos, h ≠ .error ⟨.tooDeep,pos⟩) →
      Limited M reason (.error h k) (.error h (k.withLimit M))
  | refused (pos : Pos) {k : Machine} {r} : reason → Prints k (stateAfter r) →
      Limited M reason (.error (.error ⟨.tooDeep,pos⟩) k) r

namespace Limited
variable {α β : Type} {M : Int} {reason reason' : Prop} {m : Machine}

theorem imp {r r' : EStateM.Result Halt Machine α} (h : reason → reason') (limited : Limited M reason r r') :
    Limited M reason' r r' := by
  cases limited with
  | ok a k => exact .ok a k
  | error k other => exact .error k other
  | refused pos why prints => exact .refused pos (h why) prints

theorem bind {x : Exec α} {f : α → Exec β} (first : Limited M reason (x m) (x (m.withLimit M)))
    (later : ∀ a, Leads Prolongs (f a))
    (rest : ∀ a k, x m = .ok a k → Limited M reason (f a k) (f a (k.withLimit M))) :
    Limited M reason ((x >>= f) m) ((x >>= f) (m.withLimit M)) := by
  simp only [Bind.bind,EStateM.bind]
  generalize x (m.withLimit M) = r' at first ⊢
  cases e : x m with
  | ok a k =>
    rw [e] at first
    cases first
    exact rest a k e
  | error h k =>
    rw [e] at first
    cases first with
    | error _ other => exact .error k other
    | refused pos why prints =>
      refine .refused pos why ?_
      cases r' with
      | ok a l => exact IsTrans.trans k l _ prints (later a l).prints
      | error h l => exact prints

theorem afterwards {x y : Exec α} {g : Machine → Machine} {l : Machine}
    (commutes : ∀ k : Machine, g (k.withLimit M) = (g k).withLimit M) (silent : ∀ k, (g k).output = k.output)
    (limited : Limited M reason (x m) (y l)) :
    Limited M reason (Exec.afterwards x g m) (Exec.afterwards y g l) := by
  simp only [Exec.afterwards]
  generalize x m = r,y l = r' at limited ⊢
  cases limited with
  | ok a k =>
    dsimp only
    rw [commutes]
    exact .ok a (g k)
  | error k other =>
    dsimp only
    rw [commutes]
    exact .error (g k) other
  | refused pos why prints =>
    refine .refused pos why ?_
    obtain ⟨rest,e⟩ := prints
    cases r' with
    | ok a l => exact ⟨rest,by rw [silent]; exact (silent l).trans e⟩
    | error h l => exact ⟨rest,by rw [silent]; exact (silent l).trans e⟩

end Limited

/-- A task in which a call is refused. -/
def Evaluator.Refuses (E : Evaluator) (t : Task) (m : Machine) : Prop :=
  ∃ pos l, E t m = .error (.error ⟨.tooDeep,pos⟩) l

/-- A computation in which no call is refused, unless one is in a task that is asked for. -/
structure Exec.Scales {α : Type} (M : Int) (E : Evaluator) (x : Evaluator → Exec α) : Prop where
  orderly : Orderly x
  prolongs : Leads Prolongs (x E)
  limited : ∀ m, m.calls.limit ≤ M → Limited M (∃ t k, Asks (fun E => x E m) E t k ∧ E.Refuses t k)
    (x E m) (x E (m.withLimit M))

section
variable {M : Int} {E : Evaluator} {α : Type}

/-- An operation that does not look at the limit. -/
theorem scales_const {x : Exec α} (prolongs : Leads Prolongs x)
    (blind : ∀ m, Limited M False (x m) (x (m.withLimit M))) : Scales M E fun _ => x where
  orderly := .const x
  prolongs := prolongs
  limited m _ := (blind m).imp False.elim

theorem withLimit_logJournal (m : Machine) (M : Int) :
    (m.withLimit M).logJournal = m.logJournal.withLimit M := by
  have heap : (m.withLimit M).heap = m.heap := rfl
  simp only [logJournal,heap]
  cases m.heap.journal <;> rfl

/-- Only calls nest too deep. -/
theorem scales_onHeap (pos : Pos) {op : HeapM Value α} (shallow : ∀ h k, op h ≠ .error (.cause .tooDeep) k) :
    Scales M E fun _ => onHeap pos op := by
  refine scales_const (prolongs_onHeap pos op) fun m => ?_
  have heap : (m.withLimit M).heap = m.heap := rfl
  simp only [onHeap,heap]
  cases e : op m.heap with
  | ok a heap => exact .ok a { m with heap }
  | error f heap =>
    refine .error { m with heap } fun pos' same => ?_
    cases f with
    | fault f => cases same
    | cause c =>
      cases same
      exact shallow _ _ e

theorem uniform_scales (M : Int) (E : Evaluator) :
    Uniform (fun _ => True) fun {α} (x : Evaluator → Exec α) => Scales M E x := by
  have p := uniform_prolongs E
  refine ⟨?_,?onHeap,?register⟩
  case onHeap =>
    intro α pos op tame
    refine scales_onHeap pos fun h k failed => ?_
    cases tame h _ k failed with
    | cause allowed => exact allowed.2 rfl
  case register =>
    intro r
    refine scales_const (p.register r) fun m => ?_
    have heap : (m.withLimit M).heap = m.heap := rfl
    have roots : (m.withLimit M).roots = m.roots := rfl
    simp only [registerObject,heap,roots]
    cases e : Heap.register r (if m.heap.due then m.roots else []) m.heap with
    | ok slot heap =>
      dsimp only
      rw [show ({ m.withLimit M with heap } : Machine) = ({ m with heap } : Machine).withLimit M from rfl,
        withLimit_logJournal]
      exact .ok slot _
    | error e heap =>
      dsimp only
      rw [show ({ m.withLimit M with heap } : Machine) = ({ m with heap } : Machine).withLimit M from rfl,
        withLimit_logJournal]
      refine .error _ fun pos same => ?_
      cases Heap.faultsM_register _ _ _ _ _ ‹_›
      cases same
  constructor
  case pure => exact fun a => scales_const (p.pure a) fun m => .ok a m
  case raise =>
    intro α pos c here shallow
    refine scales_const (p.raise here shallow) fun m => .error m fun pos same => ?_
    cases same
    exact shallow rfl
  case fault => exact fun f calm => scales_const (p.fault f calm) fun m => .error m fun _ same => (by cases same)
  case bind =>
    intro α β x f hx hf
    refine ⟨.bind hx.orderly fun a => (hf a).orderly,.bind hx.prolongs fun a => (hf a).prolongs,?_⟩
    intro m le
    refine .bind ((hx.limited m le).imp ?_) (fun a => (hf a).prolongs) fun a k first => ?_
    · rintro ⟨t,k,asks,refuses⟩
      exact ⟨t,k,asks.bind_left,refuses⟩
    · have le : k.calls.limit ≤ M := by rwa [(hx.prolongs.ok first).limit]
      refine ((hf a).limited k le).imp ?_
      rintro ⟨t,j,asks,refuses⟩
      exact ⟨t,j,asks.bind_right hx.orderly first,refuses⟩
  case seeing =>
    intro α x h
    exact ⟨fun m => (h m.sight).orderly m,p.seeing fun v => (h v).prolongs,
      fun m le => (h m.sight).limited m le⟩
  case tick =>
    refine scales_const p.tick fun m => ?_
    have steps : (m.withLimit M).steps = m.steps := rfl
    simp only [tick,steps]
    cases m.steps with
    | zero => exact .error m fun _ same => (by cases same)
    | succ s => exact .ok () { m with steps := s }
  case log => exact fun message => scales_const (p.log message) fun m => .ok () { m with log := message :: m.log }
  case keep => exact fun x => scales_const (p.keep x) fun m => .ok () { m with temps := x :: m.temps }
  case print =>
    exact fun text => scales_const (p.print text) fun m => .ok () { m with output := m.output ++ text }
  case clock =>
    exact scales_const p.clock fun m => .ok (Value.number m.clock) { m with clock := m.clock + 0.000001 }
  case releasing =>
    intro α x h
    refine ⟨.releasing h.orderly,p.releasing h.prolongs,fun m le => ?_⟩
    refine .afterwards (fun _ => rfl) (fun _ => rfl) ((h.limited m le).imp ?_)
    rintro ⟨t,k,asks,refuses⟩
    exact ⟨t,k,asks.afterwards,refuses⟩
  case inEnvironment =>
    intro α r x h
    refine ⟨.inEnvironment r h.orderly,p.inEnvironment r h.prolongs,fun m le => ?_⟩
    refine .afterwards (fun _ => rfl) (fun _ => rfl)
      ((h.limited { m with current := r, saved := m.current :: m.saved } le).imp ?_)
    rintro ⟨t,k,asks,refuses⟩
    exact ⟨t,k,asks.afterwards,refuses⟩

theorem Exec.Scales.blind {x : Exec α} {m : Machine} (h : Scales M E fun _ => x) (le : m.calls.limit ≤ M) :
    Limited M False (x m) (x (m.withLimit M)) := by
  refine (h.limited m le).imp ?_
  rintro ⟨t,k,asks,-⟩
  exact not_asks_const _ asks

/-! ## Calls -/

theorem enterCall_refused {pos : Pos} {m : Machine} (full : m.calls.limit < m.calls.depth + 1) :
    enterCall pos m = .error (.error ⟨.tooDeep,pos⟩)
      { m with calls := { m.calls with refused := m.calls.refused + 1 } } := by
  simp only [enterCall,CallDepth.enter,if_pos full]

theorem enterCall_entered {pos : Pos} {m : Machine} (room : ¬m.calls.limit < m.calls.depth + 1) :
    enterCall pos m = .ok () { m with calls := { m.calls with
      depth := m.calls.depth + 1, deepest := max m.calls.deepest (m.calls.depth + 1) } } := by
  simp only [enterCall,CallDepth.enter,if_neg room]

section
variable (give : ∀ t, Scales M E fun E => E t)
include give

/-- A call is refused where it is entered too deep, or else in what it runs. -/
theorem limited_enter (paren : Pos) (f : Value) (xs : List Value) {m : Machine} (le : m.calls.limit ≤ M) :
    Limited M ((∃ t k, Asks (fun E => E.enter paren f xs m) E t k ∧ E.Refuses t k) ∨
      m.calls.limit < m.calls.depth + 1) (E.enter paren f xs m) (E.enter paren f xs (m.withLimit M)) := by
  have u := uniform_scales M E
  by_cases full : m.calls.limit < m.calls.depth + 1
  · have broken : E.enter paren f xs m = .error (.error ⟨.tooDeep,paren⟩)
        { m with calls := { m.calls with refused := m.calls.refused + 1 } } := by
      simp only [Evaluator.enter,Bind.bind,EStateM.bind,enterCall_refused full]
    rw [broken]
    refine .refused paren (.inr full) ?_
    have later := prolongs_enter (fun t => (give t).prolongs) paren f xs (m.withLimit M)
    exact later.prints
  · have room : ¬(m.withLimit M).calls.limit < (m.withLimit M).calls.depth + 1 := by
      show ¬M < m.calls.depth + 1
      omega
    have inner : Scales M E fun E => (do traceCall f; E (.call f xs)) :=
      u.bind (u.traceCall f) fun _ => give (.call f xs)
    obtain ⟨k,entered,limit⟩ : ∃ k, enterCall paren m = .ok () k ∧ k.calls.limit = m.calls.limit :=
      ⟨_,enterCall_entered full,rfl⟩
    have both : enterCall paren (m.withLimit M) = .ok () (k.withLimit M) := by
      rw [enterCall_entered full] at entered
      cases entered
      exact enterCall_entered room
    have body := inner.limited { k with frames := f :: k.frames } (by rw [limit]; exact le)
    have left : E.enter paren f xs m = inCall f (do traceCall f; E (.call f xs)) k := by
      simp only [Evaluator.enter,Bind.bind,EStateM.bind,entered]
    have right : E.enter paren f xs (m.withLimit M) =
        inCall f (do traceCall f; E (.call f xs)) (k.withLimit M) := by
      simp only [Evaluator.enter,Bind.bind,EStateM.bind,both]
    rw [left,right]
    refine .afterwards (fun _ => rfl) (fun _ => rfl) (body.imp ?_)
    rintro ⟨t,j,asks,refuses⟩
    refine .inl ⟨t,j,?_,refuses⟩
    show Asks (fun E => (enterCall paren >>= fun _ => inCall f (do traceCall f; E (.call f xs))) m) E t j
    exact Asks.bind_right (.const _) entered asks.afterwards

/-- What may refuse a call: a task that is asked for, or the call itself. -/
theorem limited_call (callee : Expr) (paren : Pos) (args : List Expr) {m : Machine}
    (le : m.calls.limit ≤ M) :
    Limited M ((∃ t k, Asks (fun E => (Task.evaluate (.call callee paren args)).perform E m) E t k ∧
        E.Refuses t k) ∨
      ∃ k i p j, beginNode (Expr.call callee paren args).nodeName m = .ok () k ∧
        trace .verbose (fun _ => "  Call node: " ++ callee.description) k = .ok () i ∧
        E.prepare callee paren args i = .ok p j ∧ j.calls.limit < j.calls.depth + 1)
      ((Task.evaluate (.call callee paren args)).perform E m)
      ((Task.evaluate (.call callee paren args)).perform E (m.withLimit M)) := by
  have u := uniform_scales M E
  have keep := fun t => (give t).prolongs
  have prepared : Scales M E fun E => E.prepare callee paren args :=
    u.prepare give (Expr.raisesIn_all _)
  have rest : Leads Prolongs (releasing (E.prepare callee paren args >>= fun p => E.enter paren p.1 p.2)) :=
    (uniform_prolongs E).releasing
      (x := fun E => E.prepare callee paren args >>= fun p => E.enter paren p.1 p.2)
      (.bind prepared.prolongs fun p => prolongs_enter keep paren p.1 p.2)
  have traces : ∀ level message, Leads Prolongs (trace level message) := fun level message =>
    (u.trace level message).prolongs
  simp only [perform_call]
  refine .bind ((u.tick.blind le).imp False.elim) (fun _ => .bind (traces _ _) fun _ =>
    .bind (traces _ _) fun _ => rest) fun _ o ticked => ?_
  have le : o.calls.limit ≤ M := by rwa [(u.tick.prolongs.ok ticked).limit]
  refine .bind (((u.trace _ _).blind le).imp False.elim) (fun _ => .bind (traces _ _) fun _ => rest)
    fun _ k logged => ?_
  have le : k.calls.limit ≤ M := by rwa [((traces _ _).ok logged).limit]
  refine .bind (((u.trace _ _).blind le).imp False.elim) (fun _ => rest) fun _ i traced => ?_
  have le : i.calls.limit ≤ M := by rwa [((traces _ _).ok traced).limit]
  have lift : ∀ {t j}, Asks (fun E => (E.prepare callee paren args >>= fun p => E.enter paren p.1 p.2) i)
      E t j → Asks (fun E => (do
        tick
        traceNode (Expr.call callee paren args).nodeName
        trace .verbose fun _ => "  Call node: " ++ callee.description
        releasing (E.prepare callee paren args >>= fun p => E.enter paren p.1 p.2)) m) E t j := by
    intro t j asks
    exact Asks.bind_right (.const _) ticked (Asks.bind_right (.const _) logged
      (Asks.bind_right (.const _) traced asks.afterwards))
  refine .afterwards (fun _ => rfl) (fun _ => rfl) (.bind ((prepared.limited i le).imp ?_)
    (fun p => prolongs_enter keep paren p.1 p.2) fun p j ready => ?_)
  · rintro ⟨t,j,asks,refuses⟩
    exact .inl ⟨t,j,lift asks.bind_left,refuses⟩
  · have le : j.calls.limit ≤ M := by rwa [(prepared.prolongs.ok ready).limit]
    refine (limited_enter give paren p.1 p.2 le).imp ?_
    rintro (⟨t,j,asks,refuses⟩ | full)
    · exact .inl ⟨t,j,lift (asks.bind_right prepared.orderly ready),refuses⟩
    · exact .inr ⟨k,i,p,j,bind_eq_ok.mpr ⟨_,o,ticked,logged⟩,traced,ready,full⟩

end

end

/-! ## Refused calls -/

/-- The call of a stage has a callee and the arguments that it takes, and is to be entered at a machine. -/
inductive Stage.Attempts : Stage → Machine → Prop
  | call {n m k i j callee paren args p} :
      beginNode (Expr.call callee paren args).nodeName m = .ok () k →
      trace .verbose (fun _ => "  Call node: " ++ callee.description) k = .ok () i →
      (evaluator n).prepare callee paren args i = .ok p j →
      Attempts ⟨n + 1,.evaluate (.call callee paren args),m⟩ j

theorem Stage.Attempts.carries {stage : Stage} {j : Machine} (attempts : stage.Attempts j) :
    Carries stage.machine j := by
  cases attempts with
  | call begun traced prepared =>
    exact (((leads_beginNode _).carries.ok begun).trans ((leads_trace _ _).carries.ok traced)).trans
      (((balanced _).prepare _ _ _).ok prepared)

/-- A call that would be too deep is refused. -/
theorem Stage.Attempts.refused {stage : Stage} {j : Machine} (attempts : stage.Attempts j)
    (full : j.calls.limit < j.calls.depth + 1) :
    ∃ pos k, evaluator stage.bound stage.task stage.machine = .error (.error ⟨.tooDeep,pos⟩) k := by
  cases attempts with
  | @call n m k i j callee paren args p begun traced prepared =>
    obtain ⟨_,o,ticked,logged⟩ := bind_eq_ok.mp begun
    refine ⟨paren,{ j with calls := { j.calls with refused := j.calls.refused + 1 }, temps := i.temps },?_⟩
    show evaluator (n + 1) _ m = _
    rw [evaluator_succ,perform_call]
    simp only [Bind.bind,EStateM.bind,ticked,logged,traced,releasing,afterwards,prepared,Evaluator.enter,
      enterCall_refused full]

namespace Limited
variable {α : Type} {M : Int} {reason : Prop} {r r' : EStateM.Result Halt Machine α} {pos : Pos} {k : Machine}

theorem reason_of_refused (limited : Limited M reason r r') (refused : r = .error (.error ⟨.tooDeep,pos⟩) k) :
    reason := by
  cases limited with
  | ok => cases refused
  | error k other =>
    cases refused
    exact absurd rfl (other pos)
  | refused _ why _ => exact why

theorem itself (limited : Limited M reason r r') :
    Limited M (∃ pos k, r = .error (.error ⟨.tooDeep,pos⟩) k) r r' := by
  cases limited with
  | ok a k => exact .ok a k
  | error k other => exact .error k other
  | refused pos _ prints => exact .refused pos ⟨pos,_,rfl⟩ prints

end Limited

/-- A task ends alike under a higher limit, unless a call in it is to be entered as deep as the limit is. -/
theorem limited {M : Int} (n : Nat) (t : Task) {m : Machine} (le : m.calls.limit ≤ M) :
    Limited M (∃ stages stage j, Stage.Active ⟨n,t,m⟩ stages stage ∧ stage.Attempts j ∧
        j.calls.limit < j.calls.depth + 1)
      (evaluator n t m) (evaluator n t (m.withLimit M)) := by
  induction n generalizing t m with
  | zero =>
    cases t with
    | declareClass name base rs =>
      exact (((uniform_scales M (evaluator 0)).declareClass name base rs).blind le).imp False.elim
    | _ => exact .error m fun _ same => (by cases same)
  | succ n ih =>
    have give : ∀ t, Scales M (evaluator n) fun E => E t := fun t =>
      ⟨.give t,prolongs n t,fun m le => (ih t le).itself.imp fun refuses => ⟨t,m,asks_give _ t m,refuses⟩⟩
    -- the call that is refused in a task that is asked for
    have below : (∃ u k, Asks (fun E => t.perform E m) (evaluator n) u k ∧ (evaluator n).Refuses u k) →
        ∃ stages stage j, Stage.Active ⟨n + 1,t,m⟩ stages stage ∧ stage.Attempts j ∧
          j.calls.limit < j.calls.depth + 1 := by
      rintro ⟨u,k,asks,pos,l,refused⟩
      have le : k.calls.limit ≤ M := by
        rw [((gives_of_asks asks).stacks (balanced n)).limit]
        exact le
      obtain ⟨stages,stage,j,active,attempts,full⟩ := (ih u le).reason_of_refused refused
      obtain ⟨before,active⟩ := active.under asks
      exact ⟨before,stage,j,active,attempts,full⟩
    rw [evaluator_succ]
    by_cases call : ∃ callee paren args, t = .evaluate (.call callee paren args)
    · obtain ⟨callee,paren,args,rfl⟩ := call
      refine (limited_call give callee paren args le).imp ?_
      rintro (refuses | ⟨k,i,p,j,begun,traced,prepared,full⟩)
      · exact below refuses
      · exact ⟨[],_,j,.itself,.call begun traced prepared,full⟩
    · have other := (uniform_scales M (evaluator n)).perform_other give t.raisesIn_all
        fun callee paren args same => call ⟨callee,paren,args,same⟩
      exact (other.limited m le).imp below

end Lox
