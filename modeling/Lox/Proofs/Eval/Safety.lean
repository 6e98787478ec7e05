import Lox.Proofs.Eval.Simulation
import Lox.Proofs.Heap.Selfsame

/-! # Safety of tasks

Whenever a task is performed, the heap is secure for the machine that performs it and holds what
the task is about. A task that was asked for elsewhere would make the whole break off in a way in
which no safe task breaks off.
-/
namespace Lox
open Machine Exec Comparison Heap

/-- The bound that a task has to be given when so many steps are left, if it is not to be met. -/
def Task.need (steps : Nat) : Task → Nat
  | .evaluate _ | .execute _ => 8 * steps
  | .evaluateAll _ | .executeAll _ | .loop _ _ _ => 8 * steps + 1
  | .invoke _ _ _ => 8 * steps + 2
  | .callFunction _ _ | .callBound _ _ _ => 8 * steps + 3
  | .instantiate _ _ => 8 * steps + 4
  | .call _ _ => 8 * steps + 5
  | .declareClass _ _ _ => 0

/-- What a task is about is in use, but for some objects that are held besides. -/
def Task.Held (m : Machine) (K : List Ref) : Task → Prop
  | .call f xs => m.Rooted f ∧ ∀ x ∈ xs, m.Rooted x
  | .callFunction f xs => f ∈ m.roots ∧ ∀ x ∈ xs, m.Rooted x
  | .callBound f r xs => (f ∈ m.roots ∨ f ∈ K) ∧ r ∈ m.roots ∧ ∀ x ∈ xs, m.Rooted x
  | .instantiate c xs => c ∈ m.roots ∧ ∀ x ∈ xs, m.Rooted x
  | .invoke _ closure xs => (∀ e ∈ closure, e ∈ m.roots ∨ e ∈ K) ∧ ∀ x ∈ xs, m.Rooted x
  | .declareClass _ base _ => ∀ c ∈ base, c ∈ m.roots
  | _ => True

/-- A machine that can perform a task under a bound. -/
structure Task.Safe (n : Nat) (t : Task) (m : Machine) : Prop where
  bound : t.need m.steps ≤ n
  held : ∃ K, Secure (m.roots ++ K) m.heap ∧ t.Held m K

theorem Task.Safe.secure {n : Nat} {t : Task} {m : Machine} (safe : t.Safe n m) :
    Secure m.roots m.heap := by
  obtain ⟨K,sec,-⟩ := safe.held
  exact sec.less fun r hr => List.mem_append_left K hr

/-- Safety does not depend on the log. -/
theorem Task.Safe.relog {n : Nat} {t : Task} {m : Machine} (log : List String) (safe : t.Safe n m) :
    t.Safe n { m with log } := by
  obtain ⟨bound,K,sec,held⟩ := safe
  exact ⟨bound,K,sec,by cases t <;> exact held⟩

theorem twins_self {K : List Ref} {m : Machine} (sec : Secure (m.roots ++ K) m.heap) :
    selfsame.Twins K m m := ⟨m.heap,m.log,rfl,rfl,sec⟩

/-- A safe task ends as it does when it is performed again. -/
theorem Simulates.of_safe {n : Nat} {E : Evaluator} (h : Simulates selfsame n n E E) {t : Task}
    {m : Machine} (safe : t.Safe n m) :
    ∃ rel kept, selfsame.Ends rel kept (E t m) (E t m) := by
  obtain ⟨bound,K,sec,held⟩ := safe
  have tw := twins_self sec
  have same : ∀ p, selfsame.pos p p := fun _ => rfl
  cases t with
  | evaluate e => exact ⟨_,_,h.evaluate (.refl same e) bound bound tw.drop⟩
  | evaluateAll es => exact ⟨_,_,h.evaluateAll (.refl same es) bound bound tw.drop⟩
  | call f xs => exact ⟨_,_,h.call bound bound held.1 held.2 tw.drop⟩
  | callFunction f xs => exact ⟨_,_,h.callFunction bound bound held.1 held.2 tw.drop⟩
  | callBound f r xs => exact ⟨_,_,h.callBound bound bound held.1 held.2.1 held.2.2 tw⟩
  | instantiate c xs => exact ⟨_,_,h.instantiate bound bound held.1 held.2 tw.drop⟩
  | invoke r c xs => exact ⟨_,_,h.invoke (.refl same r) bound bound held.1 held.2 tw⟩
  | execute s => exact ⟨_,_,h.execute (.refl same s) bound bound tw.drop⟩
  | executeAll ss => exact ⟨_,_,h.executeAll (.refl same ss) bound bound tw.drop⟩
  | loop c b i =>
    exact ⟨_,_,h.loop (.refl same c) (.refl same b) (Option.Rel.refl_of (.refl same) i) bound bound
      tw.drop⟩
  | declareClass name base rs => exact ⟨_,_,h.declareClass (.refl same name) (.refl same rs) held tw.drop⟩

/-- A safe task leaves a secure heap, whether it gives a result or not. -/
theorem Task.Safe.after {n : Nat} {t : Task} {m : Machine} (safe : t.Safe n m) :
    Secure (stateAfter (evaluator n t m)).roots (stateAfter (evaluator n t m)).heap := by
  obtain ⟨_,_,ends⟩ := (simulates selfsame n n).of_safe safe
  generalize evaluator n t m = x at ends
  cases ends with
  | ok _ tw =>
    obtain ⟨_,_,-,-,sec⟩ := tw
    exact sec.less fun r hr => List.mem_append_left _ hr
  | error _ tw =>
    obtain ⟨_,_,-,-,sec⟩ := tw
    exact sec.less fun r hr => List.mem_append_left _ hr
  | spoiled lax => exact lax.elim

/-- The objects of a value that has been evaluated are the heap's own. -/
theorem Task.Safe.owned {n : Nat} {e : Expr} {m k : Machine} {x : Value} (safe : (Task.evaluate e).Safe n m)
    (answer : Lox.evaluate n e m = .ok x k) : ∀ r ∈ Holder.refs x, k.heap.isRegistered r := by
  obtain ⟨bound,K,sec,-⟩ := safe
  have ends := (simulates selfsame n n).evaluate (.refl (fun _ => rfl) e) bound bound (twins_self sec).drop
  rw [show evaluator n (.evaluate e) m = _ from answer] at ends
  cases ends with
  | ok _ tw =>
    obtain ⟨_,_,-,-,sec⟩ := tw
    exact fun r hr => sec.owned r (List.mem_append_right _ hr)
  | spoiled lax => exact lax.elim

/-! ## Confined evaluators -/

section
variable {E : Evaluator} (asked ready : Task → Machine → Prop) (h : Halt)

/-- A confined evaluator answers like the original, or leaves the machine as it was. -/
theorem confined_cases (t : Task) (m : Machine) : E.confined asked ready h t m = E t m ∨
    ∃ h', E.confined asked ready h t m = .error h' m := by
  by_cases hr : ready t m
  · by_cases ha : asked t m
    · exact .inl ((if_pos hr).trans (if_pos ha))
    · exact .inr ⟨.cut,(if_pos hr).trans (if_neg ha)⟩
  · exact .inr ⟨h,if_neg hr⟩

theorem leads_confined {R : Machine → Machine → Prop} [IsPreorder Machine R] {t : Task}
    (leads : Leads R (E t)) : Leads R (E.confined asked ready h t) := fun m => by
  rcases confined_cases asked ready h t m with e | ⟨h',e⟩
  · rw [e]
    exact leads m
  · rw [e]
    exact Std.Refl.refl m

theorem confined_ok {t : Task} {m k : Machine} {a : t.Answer}
    (ok : E.confined asked ready h t m = .ok a k) : E t m = .ok a k := by
  rcases confined_cases asked ready h t m with e | ⟨h',e⟩
  · exact e.symm.trans ok
  · rw [e] at ok
    cases ok

theorem Balanced.confined (bal : Balanced E) : Balanced (E.confined asked ready h) where
  evaluate e := ⟨leads_confined _ _ _ (bal.evaluate e).resumes,
    fun ok => (bal.evaluate e).fewer (confined_ok _ _ _ ok)⟩
  evaluateAll es := leads_confined _ _ _ (bal.evaluateAll es)
  arguments ok := bal.arguments (confined_ok _ _ _ ok)
  call f xs := leads_confined _ _ _ (bal.call f xs)
  callFunction f xs := leads_confined _ _ _ (bal.callFunction f xs)
  callBound f r xs := leads_confined _ _ _ (bal.callBound f r xs)
  instantiate c xs := leads_confined _ _ _ (bal.instantiate c xs)
  invoke r c xs := leads_confined _ _ _ (bal.invoke r c xs)
  execute s := ⟨leads_confined _ _ _ (bal.execute s).resumes,
    fun ok => (bal.execute s).fewer (confined_ok _ _ _ ok)⟩
  executeAll ss := leads_confined _ _ _ (bal.executeAll ss)
  loop c b i := leads_confined _ _ _ (bal.loop c b i)
  declareClass name base rs := leads_confined _ _ _ (bal.declareClass name base rs)

variable {asked} {n : Nat}

/-- Twins are asked alike. -/
theorem ends_confined (blind : ∀ t m log, asked t m → asked t { m with log }) {t : Task} {m k : Machine}
    {K : List Ref} {rel : t.Answer → t.Answer → Prop} {kept : t.Answer → List Ref} (safe : t.Safe n m)
    (tw : selfsame.Twins K m k) (ends : selfsame.Ends rel kept (E t m) (E t k)) :
    selfsame.Ends rel kept (E.confined asked (fun t m => t.Safe n m) h t m)
      (E.confined asked (fun t m => t.Safe n m) h t k) := by
  obtain ⟨heap,log,rfl,rfl,sec⟩ := tw
  have safe' : t.Safe n { m with log } := safe.relog log
  by_cases ha : asked t m
  · rw [show E.confined asked (fun t m => t.Safe n m) h t m = E t m from
        (if_pos safe).trans (if_pos ha),
      show E.confined asked (fun t m => t.Safe n m) h t { m with log } = E t { m with log } from
        (if_pos safe').trans (if_pos (blind t m log ha))]
    exact ends
  · rw [show E.confined asked (fun t m => t.Safe n m) h t m = .error .cut m from
        (if_pos safe).trans (if_neg ha),
      show E.confined asked (fun t m => t.Safe n m) h t { m with log } = .error .cut { m with log } from
        (if_pos safe').trans (if_neg fun hb => ha (blind t { m with log } m.log hb))]
    exact .error .cut (Twins.drop ⟨m.heap,log,rfl,rfl,sec⟩)

theorem Simulates.confined (sim : Simulates selfsame n n E E)
    (blind : ∀ t m log, asked t m → asked t { m with log }) :
    Simulates selfsame n n (E.confined asked (fun t m => t.Safe n m) h)
      (E.confined asked (fun t m => t.Safe n m) h) := by
  have secure : ∀ {K : List Ref} {m k : Machine}, selfsame.Twins K m k → Secure (m.roots ++ K) m.heap := by
    rintro K m k ⟨heap,log,rfl,rfl,sec⟩
    exact sec
  constructor
  case evaluate =>
    intro d e m k like bound _ tw
    cases like.eq
    exact ends_confined h blind (t := .evaluate d) ⟨bound,[],secure tw,trivial⟩ tw
      (sim.evaluate like bound bound tw)
  case evaluateAll =>
    intro ds es m k like bound _ tw
    cases like.eq
    exact ends_confined h blind (t := .evaluateAll ds) ⟨bound,[],secure tw,trivial⟩ tw
      (sim.evaluateAll like bound bound tw)
  case call =>
    intro f xs m k bound _ hf hxs tw
    exact ends_confined h blind ⟨bound,[],secure tw,hf,hxs⟩ tw (sim.call bound bound hf hxs tw)
  case callFunction =>
    intro f xs m k bound _ hf hxs tw
    exact ends_confined h blind ⟨bound,[],secure tw,hf,hxs⟩ tw (sim.callFunction bound bound hf hxs tw)
  case callBound =>
    intro f r xs K m k bound _ hf hr hxs tw
    exact ends_confined h blind ⟨bound,K,secure tw,hf,hr,hxs⟩ tw
      (sim.callBound bound bound hf hr hxs tw)
  case instantiate =>
    intro c xs m k bound _ hc hxs tw
    exact ends_confined h blind ⟨bound,[],secure tw,hc,hxs⟩ tw (sim.instantiate bound bound hc hxs tw)
  case invoke =>
    intro r s closure xs K m k like bound _ hc hxs tw
    cases like.eq
    exact ends_confined h blind ⟨bound,K,secure tw,hc,hxs⟩ tw (sim.invoke like bound bound hc hxs tw)
  case execute =>
    intro s t m k like bound _ tw
    cases like.eq
    exact ends_confined h blind (t := .execute s) ⟨bound,[],secure tw,trivial⟩ tw
      (sim.execute like bound bound tw)
  case executeAll =>
    intro ss ts m k like bound _ tw
    cases like.eq
    exact ends_confined h blind (t := .executeAll ss) ⟨bound,[],secure tw,trivial⟩ tw
      (sim.executeAll like bound bound tw)
  case loop =>
    intro d e s t i j m k condition body increment bound _ tw
    cases condition.eq
    cases body.eq
    cases Option.Rel.eq_of Expr.Alike.eq increment
    exact ends_confined h blind (t := .loop d s i) ⟨bound,[],secure tw,trivial⟩ tw
      (sim.loop condition body increment bound bound tw)
  case declareClass =>
    intro name name' base rs ss m k like methods hb tw
    cases like.eq
    cases methods.eq
    exact ends_confined h blind ⟨Nat.zero_le n,[],secure tw,hb⟩ tw (sim.declareClass like methods hb tw)

end

/-- A task that would be asked for with another log. -/
def AsksUnlogged {α : Type} (F : Evaluator → EStateM.Result Halt Machine α) (E : Evaluator) (t : Task)
    (m : Machine) : Prop :=
  ∃ log, Asks F E t { m with log }

theorem Comparison.Ends.unbroken {α : Type} {rel : α → α → Prop} {kept : α → List Ref}
    {x : EStateM.Result Halt Machine α} (ends : selfsame.Ends rel kept x x) (m : Machine) :
    x ≠ .error (.fault .noObject) m := by
  rintro rfl
  cases ends with
  | error halts _ =>
    cases halts with
    | fault safe => exact absurd (safe trivial) (by decide)
  | spoiled lax _ => exact lax

/-- What a safe task asks for is safe. -/
theorem safe_of_asks {n : Nat} {t u : Task} {m k : Machine} (safe : t.Safe (n + 1) m)
    (asks : Asks (fun E => t.perform E m) (evaluator n) u k) : u.Safe n k := by
  have blind : ∀ v j log, AsksUnlogged (fun E => t.perform E m) (evaluator n) v j →
      AsksUnlogged (fun E => t.perform E m) (evaluator n) v { j with log } := fun _ _ _ => id
  have sim := (simulates selfsame n n).confined (.fault .noObject) blind
  have bal := (balanced n).confined (AsksUnlogged (fun E => t.perform E m) (evaluator n))
    (fun v j => v.Safe n j) (.fault .noObject)
  obtain ⟨rel,kept,ends⟩ := (sim.perform bal).of_safe safe
  have sub : ∀ v j, Asks (fun E => t.perform E m) (evaluator n) v j →
      AsksUnlogged (fun E => t.perform E m) (evaluator n) v j := fun v j asks => ⟨j.log,asks⟩
  exact ((orderly_perform t m).confined sub fun j => ends.unbroken j).2 u k asks

theorem Arises.safe {n l : Nat} {t u : Task} {m k : Machine} (arises : Arises n t m l u k)
    (safe : t.Safe n m) : u.Safe l k := by
  induction arises with
  | itself => exact safe
  | asked _ asks ih => exact safe_of_asks ih asks

end Lox
