import Lox.Proofs.Heap.Agreement
import Lox.Proofs.Session.Reached

/-! # Collections are invisible

Two sessions whose settings differ only in when they collect show the same for every sequence of
sources, and in neither is a released object used or a stray reference met. One of them may collect
at every allocation: what the rest of a run touches is then in reach of the roots and of the object
being allocated.
-/
namespace Lox
open Machine Exec Comparison Heap

/-- The live count times the growth factor is finite. -/
def Heap.Finite (h : Heap Value) : Prop := ∃ next, grownThreshold h.rules h.liveCount = .ok next

/-- A source to be run under the name of a file, for at most so many steps. -/
structure Entry where
  source : String
  file : String
  steps : Nat := Machine.plenty

/-- What a source shows: what it printed, how it ended and the globals behind it with their texts. -/
structure Shown where
  output : String
  ending : Session.Ending
  globals : Except Failure (List (String × String))

/-- Runs sources one after another, each with what it shows and the session that it leaves. -/
def Session.play (s : Session) : List Entry → List (Shown × Session)
  | [] => []
  | e :: rest =>
    let (ending,s) := s.run e.source e.file e.steps
    let (output,s) := s.takeOutput
    (⟨output,ending,s.machine.globalTexts⟩,s) :: s.play rest

/-! ## Twin sessions -/

namespace Comparison
variable {C : Comparison} {K : List Ref} {m k : Machine}

theorem ends_installNatives {env : Ref} (tw : C.Twins K m k) (henv : env ∈ m.roots) (fs : List Native) :
    C.Ends (fun _ _ => True) (fun _ => []) (installNatives env fs m) (installNatives env fs k) := by
  induction fs generalizing m k K with
  | nil => exact .pure trivial tw fun _ hr => absurd hr List.not_mem_nil
  | cons f rest ih =>
    refine Ends.bind (ends_reading (C.refl _) tw fun _ _ held =>
      reads_environment held (List.mem_append_left _ henv)) fun e _ m k ok same tw => ?_
    subst same
    have henv := ((leads_reading _ _).carries.ok ok).mem_roots henv
    dsimp only
    split
    · refine (ends_define tw (.inl henv) f.name fun r hr => absurd hr List.not_mem_nil).bind
        fun _ _ m k ok _ tw => ?_
      exact ih tw (((leads_define _ _ _).carries.ok ok).mem_roots henv)
    · exact ih tw henv

theorem firstEnvironment_eq (m : Machine) : firstEnvironment m =
    match Heap.place (.environment {} none) [] m.heap with
    | .ok r heap => installNatives r Native.all
        { ({ m with heap } : Machine).logJournal with globals := r, current := r, worlds := [r] }
    | .error f heap => .error (f.halt .start) { m with heap } := by
  simp only [firstEnvironment,Heap.place,Bind.bind,EStateM.bind,onHeap,Heap.create]
  generalize (Heap.register _ _ _ : EStateM.Result Failure (Heap Value) Nat) = x
  cases x <;> rfl

/-- Machines that start with comparable heaps are twins. -/
theorem start_twins {s t : Settings} {clock : Float} (depth : t.maxCallDepth = s.maxCallDepth)
    (level : t.debugLevel = s.debugLevel)
    (heaps : C.heaps [] (blank s clock).heap (blank t clock).heap)
    (hm : Machine.start s clock = .ok m) (hk : Machine.start t clock = .ok k) : C.Twins [] m k := by
  have hm := start_eq_ok hm
  have hk := start_eq_ok hk
  rw [firstEnvironment_eq] at hm hk
  have sub : ∀ u ∈ ([] : List Ref), u ∈ ([] : List Ref) := fun _ => id
  rcases C.place heaps (.same (.environment {} none)) sub sub with ⟨r,h,g,hr,gr,held⟩ | ⟨f,h,g,hf,gf,-,-⟩ | ⟨-,spoiled | spoiled⟩
  · rw [hr] at hm
    rw [gr] at hk
    have tw : C.Twins [] { (blank s clock) with heap := h, globals := r, current := r, worlds := [r] }
        { (blank t clock) with heap := g, globals := r, current := r, worlds := [r] } := by
      refine ⟨g,[],by simp only [blank,depth,level],C.less held fun u hu => ?_⟩
      simpa [mem_roots,blank] using hu
    obtain ⟨log,e⟩ := logJournal_heap { (blank s clock) with heap := h }
    obtain ⟨log',e'⟩ := logJournal_heap { (blank t clock) with heap := g }
    dsimp only at hm hk
    rw [e] at hm
    rw [e'] at hk
    have flushed : C.Twins []
        { (blank s clock) with
          heap := { h with journal := [] }, log, globals := r, current := r, worlds := [r] }
        { (blank t clock) with
          heap := { g with journal := [] }, log := log', globals := r, current := r,
          worlds := [r] } := by
      obtain ⟨heap,_,e,held⟩ := tw
      obtain rfl : g = heap := congrArg Machine.heap e
      exact ⟨_,log',by simp only [blank,depth,level],C.flush held⟩
    have ends := ends_installNatives flushed (mem_roots.mpr (.inl rfl)) Native.all
    rw [hm,hk] at ends
    cases ends with
    | ok _ tw => exact tw
    | spoiled _ h => exact (h.elim id id).elim
  · rw [hf] at hm
    cases hm
  · cases e : Heap.place (.environment {} none) [] (blank s clock).heap with
    | ok r h => rw [e] at spoiled; exact spoiled.elim
    | error f h => rw [e] at hm; cases hm
  · cases e : Heap.place (.environment {} none) [] (blank t clock).heap with
    | ok r h => rw [e] at spoiled; exact spoiled.elim
    | error f h => rw [e] at hk; cases hk

end Comparison

/-- Agreement of heaps whose objects are the same in all positions. -/
abbrev agreeing : Comparison := agreement Eq fun _ => rfl

/-- A step of a session broke off because the next threshold is no integer. -/
def Session.Strained (x : Session.Ending × Session) : Prop :=
  ∃ e, x.1 = .fault (.threshold e) ∧
    grownThreshold x.2.machine.heap.rules x.2.machine.heap.liveCount = .error e

theorem Comparison.Outcomes.eq {o p : Outcome} (h : agreeing.Outcomes o p) : o = p := by
  cases h with
  | error same => cases same; rfl
  | _ => rfl

theorem Comparison.Outcomes.not_memory {f : Fault} {p : Outcome} (h : agreeing.Outcomes (.fault f) p) :
    f.isMemory = false := by
  cases h with
  | fault safe => exact safe trivial

namespace Session
variable {s t : Session}

theorem run_agrees (tw : agreeing.Twins [] s.machine t.machine) (source file : String)
    (steps : Nat) :
    (s.run source file steps).1 = (t.run source file steps).1 ∧
        (∀ f, (s.run source file steps).1 = .fault f → f.isMemory = false) ∧
        agreeing.Twins [] (s.run source file steps).2.machine (t.run source file steps).2.machine ∨
      Strained (s.run source file steps) ∨ Strained (t.run source file steps) := by
  obtain ⟨m,log,hm,hs,hs'⟩ := s.run_eq source file steps
  obtain ⟨k,log',hk,ht,ht'⟩ := t.run_eq source file steps
  have logged : agreeing.Twins [] m k := by
    obtain ⟨heap,_,e,held⟩ := tw
    rw [hm,hk,e]
    exact ⟨heap,log',rfl,held⟩
  simp only [Strained,hs,hs',ht,ht']
  split
  · rcases run_twins (.refl (fun _ => rfl) (compile source).program) logged steps with
      ⟨ends,tw⟩ | ⟨-,strained⟩
    · left
      refine ⟨by rw [ends.eq],fun f hf => ?_,tw⟩
      generalize (m.run steps (compile source).program).1 = o at ends hf
      cases o with
      | fault g => cases hf; exact ends.not_memory
      | _ => cases hf
    · right
      refine strained.imp ?_ ?_
      · rintro ⟨e,he,hn⟩
        exact ⟨e,by rw [he]; rfl,hn⟩
      · rintro ⟨e,he,hn⟩
        exact ⟨e,by rw [he]; rfl,hn⟩
  · exact .inl ⟨rfl,fun f hf => (nomatch hf),logged⟩

theorem not_strained {x : Ending × Session} (finite : x.2.machine.heap.Finite) : ¬Strained x := by
  rintro ⟨e,-,spoiled⟩
  obtain ⟨next,fine⟩ := finite
  rw [fine] at spoiled
  cases spoiled

theorem play_agrees (tw : agreeing.Twins [] s.machine t.machine) (entries : List Entry)
    (fs : ∀ x ∈ s.play entries, x.2.machine.heap.Finite)
    (ft : ∀ x ∈ t.play entries, x.2.machine.heap.Finite) :
    (s.play entries).map (·.1) = (t.play entries).map (·.1) ∧
      ∀ x ∈ s.play entries, ∀ f, x.1.ending = .fault f → f.isMemory = false := by
  induction entries generalizing s t with
  | nil => exact ⟨rfl,fun _ hx => absurd hx List.not_mem_nil⟩
  | cons e rest ih =>
    simp only [play,List.mem_cons,forall_eq_or_imp] at fs ft ⊢
    rcases run_agrees tw e.source e.file e.steps with ⟨ends,safe,tw⟩ | strained | strained
    · have taken : agreeing.Twins [] (s.run e.source e.file e.steps).2.takeOutput.2.machine
          (t.run e.source e.file e.steps).2.takeOutput.2.machine :=
        tw.change (fun m => { m with output := "" }) rfl (fun _ _ => rfl) fun _ => id
      obtain ⟨same,rest⟩ := ih taken fs.2 ft.2
      have shown : (s.run e.source e.file e.steps).2.takeOutput.1 =
          (t.run e.source e.file e.steps).2.takeOutput.1 := (output_eq tw).symm
      refine ⟨?_,safe,rest⟩
      rw [List.map_cons,List.map_cons,same,ends,shown,globalTexts_eq taken]
    · exact absurd strained (not_strained fs.1)
    · exact absurd strained (not_strained ft.1)

end Session

theorem secure_empty (rules : Rules) : Secure [] ({ rules } : Heap Value) where
  coherent := coherent_empty rules
  closed r hr := by simp [Heap.isRegistered] at hr
  owned _ hr := absurd hr List.not_mem_nil

theorem agreement_empty {P : Pos → Pos → Prop} (refl : ∀ p, P p p) (rules rules' : Rules) :
    (agreement P refl).heaps [] { rules } { rules := rules' } where
  left := secure_empty rules
  right := secure_empty rules'
  size := rfl
  nextSlot := rfl
  cells r hr := by simp [Heap.isRegistered] at hr

theorem agree_empty (rules rules' : Rules) : agreeing.heaps [] { rules } { rules := rules' } :=
  agreement_empty _ rules rules'

/-- Sessions that differ only in when they collect show the same for all sources, each cut at any
number of steps, as long as the thresholds stay finite, and meet no fault of memory. -/
theorem collections_invisible (settings : Settings) (threshold : Nat) (growth : Float)
    (stress : Bool) (clock : Float) (entries : List Entry) {s t : Session}
    (hs : Session.start settings clock = .ok s)
    (ht : Session.start { settings with threshold, growth, stress } clock = .ok t)
    (fs : ∀ x ∈ s.play entries, x.2.machine.heap.Finite)
    (ft : ∀ x ∈ t.play entries, x.2.machine.heap.Finite) :
    (s.play entries).map (·.1) = (t.play entries).map (·.1) ∧
      ∀ x ∈ s.play entries ++ t.play entries, ∀ f, x.1.ending = .fault f → f.isMemory = false := by
  have tw : agreeing.Twins [] s.machine t.machine := by
    refine start_twins ?_ ?_ (agree_empty _ _) (Session.machine_of_start hs)
      (Session.machine_of_start ht) <;> rfl
  obtain ⟨same,safe⟩ := Session.play_agrees tw entries fs ft
  refine ⟨same,fun x hx f hf => ?_⟩
  rcases List.mem_append.mp hx with hx | hx
  · exact safe x hx f hf
  · have shown : x.1 ∈ (t.play entries).map (·.1) := List.mem_map_of_mem hx
    rw [← same] at shown
    obtain ⟨y,hy,e⟩ := List.mem_map.mp shown
    exact safe y hy f (e ▸ hf)

/-- A class with an initializer, garbage in a block, a runtime error and a run that is cut. -/
def threeSources : List Entry :=
  [⟨"class A \x7b init(n) \x7b this.n = n; \x7d \x7d var a = A(1);","a.lox",40⟩,
    ⟨"\x7b var b = A(2); \x7d print a.n; print a.m;","b.lox",40⟩,
    ⟨"while (true) A(a);","c.lox",20⟩]

/-- Whether a session can be started and its thresholds stay finite, as a test. -/
def staysFinite (settings : Settings) (entries : List Entry) : Bool :=
  match Session.start settings 0 with
  | .ok s => (s.play entries).all fun x =>
    (grownThreshold x.2.machine.heap.rules x.2.machine.heap.liveCount).toOption.isSome
  | .error _ => false

theorem finite_of_staysFinite (settings : Settings) (entries : List Entry)
    (h : staysFinite settings entries) : ∃ s, Session.start settings 0 = .ok s ∧
      ∀ x ∈ s.play entries, x.2.machine.heap.Finite := by
  simp only [staysFinite] at h
  cases e : Session.start settings 0 with
  | error f => rw [e] at h; cases h
  | ok s =>
    refine ⟨s,rfl,fun x hx => ?_⟩
    rw [e] at h
    have some := List.all_eq_true.mp h x hx
    cases n : grownThreshold x.2.machine.heap.rules x.2.machine.heap.liveCount with
    | error f => rw [n] at some; cases some
    | ok next => exact ⟨next,n⟩

theorem collections_invisible_threeSources : ∃ s t, Session.start {} 0 = .ok s ∧
    Session.start { threshold := 1, growth := 2, stress := true } 0 = .ok t ∧
    (∀ x ∈ s.play threeSources, x.2.machine.heap.Finite) ∧
    (∀ x ∈ t.play threeSources, x.2.machine.heap.Finite) ∧
    (s.play threeSources).map (·.1) = (t.play threeSources).map (·.1) := by
  obtain ⟨s,hs,fs⟩ := finite_of_staysFinite {} threeSources (by decide +kernel)
  obtain ⟨t,ht,ft⟩ := finite_of_staysFinite { threshold := 1, growth := 2, stress := true }
    threeSources (by decide +kernel)
  exact ⟨s,t,hs,ht,fs,ft,(collections_invisible {} 1 2 true 0 threeSources hs ht fs ft).1⟩

end Lox
