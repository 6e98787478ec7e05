import Lox.Proofs.Eval.Keeping

/-! # Where runtime errors are

A runtime error of a task is that of a task it asks for, or else it is at a position of its own. So an
error is at a position of the program that is run or of a routine that is on the heap, for these are all
the tasks that are asked for.
-/
namespace Lox
open Machine Exec

/-- A runtime error of a computation is in a set, or it is the error of a task that the computation asks
for. -/
structure Exec.Blames (F : RuntimeError → Prop) (E : Evaluator) {α : Type} (x : Evaluator → Exec α) : Prop where
  orderly : Orderly x
  blames {m e k} : x E m = .error (.error e) k →
    F e ∨ ∃ u j l, Asks (fun E => x E m) E u j ∧ E u j = .error (.error e) l

section
variable {F : RuntimeError → Prop} {E : Evaluator} {α β : Type}

theorem blames_const {x : Exec α} (h : ∀ m e k, x m = .error (.error e) k → F e) :
    Blames F E fun _ => x := ⟨.const x,fun failed => .inl (h _ _ _ failed)⟩

theorem blames_give (t : Task) : Blames F E fun E => E t :=
  ⟨.give t,fun failed => .inr ⟨t,_,_,asks_give E t _,failed⟩⟩

theorem Exec.Blames.bind {x : Evaluator → Exec α} {f : Evaluator → α → Exec β} (hx : Blames F E x)
    (hf : ∀ a, Blames F E fun E => f E a) : Blames F E fun E => x E >>= f E where
  orderly := .bind hx.orderly fun a => (hf a).orderly
  blames failed := by
    rcases bind_eq_error failed with first | ⟨a,l,first,later⟩
    · exact (hx.blames first).imp_right fun ⟨u,j,l,asks,broken⟩ => ⟨u,j,l,asks.bind_left,broken⟩
    · exact ((hf a).blames later).imp_right fun ⟨u,j,l,asks,broken⟩ =>
        ⟨u,j,l,asks.bind_right hx.orderly first,broken⟩

/-- A bracket blames as what stands in it does. -/
theorem Exec.Blames.bracket {x : Evaluator → Exec α} (h : Blames F E x) (into : Machine → Machine)
    (back : Machine → Machine → Machine) : Blames F E fun E m => afterwards (x E) (back m) (into m) where
  orderly m := h.orderly.afterwards _ _
  blames {m e k} failed := by
    simp only [afterwards] at failed
    split at failed
    · cases failed
    · next inner =>
      cases failed
      refine (h.blames inner).imp_right ?_
      rintro ⟨u,j,l,asks,broken⟩
      exact ⟨u,j,l,asks.afterwards,broken⟩

theorem uniform_blames (F : RuntimeError → Prop) (E : Evaluator) :
    Uniform F fun {α} (x : Evaluator → Exec α) => Blames F E x where
  pure _ := blames_const fun _ _ _ failed => nomatch failed
  raise here _ := blames_const fun _ _ _ failed => by
    cases failed
    exact here
  fault _ _ := blames_const fun _ _ _ failed => nomatch failed
  bind := .bind
  seeing h := ⟨fun m => (h m.sight).orderly m,fun {m _ _} failed => (h m.sight).blames failed⟩
  tick := blames_const fun m _ _ failed => by
    simp only [tick] at failed
    split at failed <;> cases failed
  log _ := blames_const fun _ _ _ failed => nomatch failed
  keep _ := blames_const fun _ _ _ failed => nomatch failed
  print _ := blames_const fun _ _ _ failed => nomatch failed
  clock := blames_const fun _ _ _ failed => nomatch failed
  releasing h := h.bracket id fun m k => { k with temps := m.temps }
  inEnvironment r _ h := h.bracket (fun m => { m with current := r, saved := m.current :: m.saved })
    fun m k => { k with current := m.current, saved := m.saved }
  onHeap pos op tame := blames_const fun m e k failed => by
    simp only [onHeap] at failed
    split at failed
    · cases failed
    · next f heap broken =>
      cases tame _ _ _ broken with
      | fault => cases failed
      | cause allowed =>
        cases failed
        exact allowed.1
  register r := blames_const fun m e k failed => by
    simp only [registerObject] at failed
    split at failed
    · cases failed
    · next f heap broken =>
      cases Heap.faultsM_register _ _ _ _ _ broken
      cases failed

theorem blames_enter {paren : Pos} (here : F ⟨.tooDeep,paren⟩) (f : Value) (xs : List Value) :
    Blames F E fun E => E.enter paren f xs := by
  have u := uniform_blames F E
  have entered : Blames F E fun _ => enterCall paren := blames_const fun m e k failed => by
    simp only [enterCall] at failed
    split at failed
    · cases failed
      exact here
    · cases failed
  exact entered.bind fun _ => ((u.traceCall f).bind fun _ => blames_give (.call f xs)).bracket
    (fun m => { m with frames := f :: m.frames })
    fun m k => { k with frames := m.frames, calls := k.calls.exit }

/-- A task blames itself or what it asks for. -/
theorem blames_perform {t : Task} (here : t.RaisesIn F) : Blames F E fun E => t.perform E := by
  have u := uniform_blames F E
  refine u.perform blames_give here fun callee paren args here => ?_
  simp only [perform_call]
  exact u.tick.bind fun _ => (u.trace _ _).bind fun _ => (u.trace _ _).bind fun _ =>
    u.releasing ((u.prepare blames_give here).bind fun p => blames_enter here.2.2 p.1 p.2)

end

/-! ## Routines of a program -/

mutual

/-- The routines that a statement declares, apart from those within them. -/
def Stmt.routines : Stmt → List Routine
  | .function r => [r]
  | .klass _ _ rs => rs
  | .block _ _ ss => bodyRoutines ss
  | .branch _ _ s none => s.routines
  | .branch _ _ s (some t) => s.routines ++ t.routines
  | .loop _ _ _ s _ => s.routines
  | .expression _ | .print _ _ | .var _ _ | .jump _ _ | .leave _ _ => []
termination_by structural s => s

def bodyRoutines : List Stmt → List Routine
  | [] => []
  | s :: ss => s.routines ++ bodyRoutines ss
termination_by structural ss => ss

end

theorem mem_bodyRoutines {ss : List Stmt} {s : Stmt} (hs : s ∈ ss) {r : Routine} (hr : r ∈ s.routines) :
    r ∈ bodyRoutines ss := by
  induction ss with
  | nil => exact absurd hs List.not_mem_nil
  | cons t ss ih =>
    rw [bodyRoutines,List.mem_append]
    rcases List.mem_cons.mp hs with rfl | hs
    · exact .inl hr
    · exact .inr (ih hs)

section
variable {S : Pos → Prop}

theorem RoutinesAlike.mem_within {rs : List Routine} (h : RoutinesWithin S rs) :
    ∀ r ∈ rs, r.Within S := by
  induction rs with
  | nil => exact fun _ hr => absurd hr List.not_mem_nil
  | cons s rs ih =>
    cases h with
    | cons first others => exact List.forall_mem_cons.mpr ⟨first,ih others⟩

mutual

theorem Stmt.routines_within : ∀ {s : Stmt}, s.Within S → ∀ r ∈ s.routines, r.Within S
  | .function _, .function h => by
    rw [Stmt.routines]
    exact List.forall_mem_singleton.mpr h
  | .klass _ _ _, .klass _ _ h => h.mem_within
  | .block _ _ _, .block _ h => by
    rw [Stmt.routines]
    exact bodyRoutines_within h
  | .branch _ _ s none, .branch _ _ h => Stmt.routines_within (s := s) h
  | .branch _ _ s (some t), .branchElse _ _ h h' => by
    rw [Stmt.routines]
    exact List.forall_mem_append.mpr ⟨Stmt.routines_within h,Stmt.routines_within h'⟩
  | .loop _ _ _ s _, .loop _ _ h _ => Stmt.routines_within (s := s) h
  | .expression _, _ | .print _ _, _ | .var _ _, _ | .jump _ _, _ | .leave _ _, _ =>
    fun _ hr => absurd hr List.not_mem_nil
termination_by structural s => s

theorem bodyRoutines_within : ∀ {ss : List Stmt}, BodyWithin S ss → ∀ r ∈ bodyRoutines ss, r.Within S
  | [], _ => fun _ hr => absurd hr List.not_mem_nil
  | _ :: _, .cons h hs => by
    rw [bodyRoutines]
    exact List.forall_mem_append.mpr ⟨Stmt.routines_within h,bodyRoutines_within hs⟩
termination_by structural ss => ss

end

variable (S) in
/-- The routines that a task can put on the heap have all their positions in a set. -/
def Task.Plants : Task → Prop
  | .invoke r _ _ => r.Within S
  | .execute s => ∀ r ∈ s.routines, r.Within S
  | .executeAll ss => ∀ r ∈ bodyRoutines ss, r.Within S
  | .loop _ s _ => ∀ r ∈ s.routines, r.Within S
  | .declareClass _ _ rs => ∀ r ∈ rs, r.Within S
  | .evaluate _ | .evaluateAll _ | .call _ _ | .callFunction _ _ | .callBound _ _ _ | .instantiate _ _ => True

theorem Task.Within.plants {t : Task} (h : t.Within S) : t.Plants S := by
  cases t with
  | invoke => exact h
  | execute s => exact Stmt.routines_within h
  | executeAll ss => exact bodyRoutines_within h
  | loop _ s _ => exact Stmt.routines_within h.2.1
  | declareClass => exact h.mem_within
  | _ => trivial

section
variable {E : Evaluator} {t u : Task} {m j : Machine} (gives : t.Gives E m u j)
  (holds : m.heap.Routines (Routine.Within S))
include gives holds

theorem Task.Gives.plants (h : t.Plants S) : u.Plants S := by
  cases gives with
  | plain found | method found => exact holds _ _ (Heap.function_eq_ok found) _ _ rfl
  | content => exact bodyRoutines_within (RoutineAlike.body h)
  | block => exact h
  | @yes _ _ _ _ _ no =>
    cases no with
    | none => exact h
    | some no => exact (List.forall_mem_append.mp h).1
  | no => exact (List.forall_mem_append.mp h).2
  | statement => exact (List.forall_mem_append.mp h).1
  | furtherStatements => exact (List.forall_mem_append.mp h).2
  | increment => exact fun _ hr => absurd hr List.not_mem_nil
  | rounds | derived | declared | body | again | incremented => exact h
  | _ => trivial

/-- The tasks that a task asks for have its positions, or those of a routine on the heap. -/
theorem Task.Gives.within (h : t.Within S) : u.Within S := by
  cases gives with
  | plain found | method found => exact holds _ _ (Heap.function_eq_ok found) _ _ rfl
  | content => exact RoutineAlike.body h
  | rounds =>
    cases h with
    | loop _ condition body increment => exact ⟨condition,body,increment⟩
  | test => exact h.1
  | body => exact h.2.1
  | increment =>
    cases h.2.2 with
    | some h => exact .expression h
  | again | incremented => exact h
  | superclass =>
    cases h with
    | klass _ base _ =>
      cases base with
      | some base => exact .var base
  | initial =>
    cases h with
    | var _ value =>
      cases value with
      | some value => exact value
  | returned =>
    cases h with
    | leave _ value =>
      cases value with
      | some value => exact value
  | entered | bound | klass | function | initializer => trivial
  | _ => cases h <;> assumption

end

/-- Evaluation puts routines on the heap that the tasks at hand or those on the heap declare. -/
theorem kept_within (S : Pos → Prop) :
    Kept (Heap.Routines (Routine.Within S)) (Task.Plants S) fun t m => t.Founded m where
  toStays := stays_routines (fun plants => plants _ (List.mem_singleton.mpr rfl)) fun plants hr => plants _ hr
  gives gives holds plants := gives.plants holds plants
  asked _ _ _ asks := (gives_of_asks asks).founded

/-! ## Errors of a run -/

/-- A runtime error of a task is at one of its positions, or at one of a routine on the heap. -/
theorem blamed {n : Nat} {t : Task} {m k : Machine} {e : RuntimeError} (here : t.Within S)
    (founded : t.Founded m) (holds : m.heap.Routines (Routine.Within S))
    (failed : evaluator n t m = .error (.error e) k) : S e.pos := by
  induction n generalizing t m k with
  | zero =>
    cases t with
    | declareClass name base rs =>
      have blames := (uniform_blames (fun e => S e.pos) (evaluator 0)).declareClass name base rs
      rcases blames.blames failed with here | ⟨u,j,l,asks,-⟩
      · exact here
      · exact absurd asks (not_asks_const _)
    | _ => cases failed
  | succ n ih =>
    rw [evaluator_succ] at failed
    rcases (blames_perform here.raisesIn).blames failed with here | ⟨u,j,l,asks,broken⟩
    · exact here
    · obtain ⟨-,founded,holds'⟩ := (kept_within S).asks here.plants founded holds asks
      exact ih ((gives_of_asks asks).within holds here) founded holds' broken

theorem blamed_executeProgram {n : Nat} {p : Program} {m k : Machine} {e : RuntimeError}
    (here : BodyWithin S p) (holds : m.heap.Routines (Routine.Within S))
    (failed : executeProgram n p m = .error (.error e) k) : S e.pos := by
  induction p generalizing m with
  | nil => cases failed
  | cons s p ih =>
    cases here with
    | cons first others =>
      have after := (kept_within S).stays n (t := .execute s) (Stmt.routines_within first) trivial holds
      rcases bind_eq_error failed with broken | ⟨a,l,ran,later⟩
      · exact blamed (t := .execute s) first trivial holds broken
      · rw [show evaluator n (.execute s) m = .ok a l from ran] at after
        exact ih others after later

end
end Lox
