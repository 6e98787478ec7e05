import Lox.Proofs.Eval.Fitting
import Lox.Proofs.Machine.CopiedRuns

/-! # Tasks performed by programs

The tasks that the evaluator is given while the statements of a program are executed in order. If
the program fits then so does every task, and it is performed on a secure heap.
-/
namespace Lox
open Machine Exec Comparison Heap

/-- The tasks performed while statements are executed in order under a bound. -/
def Machine.Executes (bound : Nat) : Program → Machine → Nat → Task → Machine → Prop
  | [], _ => fun _ _ _ => False
  | s :: rest, m => fun l u k => Arises bound (.execute s) m l u k ∨
      ∃ a m', execute bound s m = .ok a m' ∧ Executes bound rest m' l u k

/-- The tasks performed when a machine runs a program. -/
def Machine.Performs (steps : Nat) (p : Program) (m : Machine) (l : Nat) (u : Task) (k : Machine) :
    Prop :=
  ∃ m', trace .normal (fun _ => s!"run: {p.length} statements")
      { m with current := m.globals, steps } = .ok () m' ∧ Machine.Executes (nesting steps) p m' l u k

namespace Copying
variable {use : Context → Expr → Prop} {made : Ref → Origin → Prop} {W : World} {Γ : Context}
  {m k : Machine} {t u : Task} {n l : Nat}

theorem within_eq {H : Nat → Task → Machine → Prop} (arose : H n t m) (ready : Ready use made t m) :
    within use made H n t m = evaluator n t m := (if_pos ready).trans (if_pos arose)

namespace History
variable {H : Nat → Task → Machine → Prop} (history : History use made H)
include history

theorem ready_of_arises (arises : Arises n t m l u k) (arose : H n t m) (ready : Ready use made t m) :
    Ready use made u k := by
  have both : H l u k ∧ Ready use made u k := by
    induction arises with
    | itself => exact ⟨arose,ready⟩
    | asked _ asks ih => exact ⟨history.asks ih.1 asks,history.ready_of_asks ih.1 ih.2 asks⟩
  exact both.2

theorem ends_execute {s : Stmt} (arose : H n (.execute s) m)
    (fits : s.Fits .asWritten use Γ) (pair : (known use made).Pair W Γ m m) :
    (known use made).Ends W (Signalled (known use made)) (fun _ => Γ.afterStmt s) (execute n s m)
      (execute n s m) := by
  have ends := (history.faithful_within n).execute fits pair
  rw [Stmt.respell_known,within_eq arose ⟨W,Γ,fits,pair⟩] at ends
  exact ends

/-- Whatever is performed while a program that fits is executed fits and is safe. -/
theorem executed {p : Program} (performs : ∀ l u k, Executes n p m l u k → H l u k)
    (fits : BodyFits .asWritten use [] p) (pair : (known use made).Pair W [] m m)
    (enough : 8 * m.steps ≤ n) (sec : Secure m.roots m.heap) :
    (∀ l u k, Executes n p m l u k → Ready use made u k ∧ u.Safe l k) ∧
      (known use made).Ends W (fun _ _ _ => True) (fun _ => []) (executeProgram n p m)
        (executeProgram n p m) := by
  induction p generalizing W m with
  | nil => exact ⟨fun _ _ _ h => h.elim,.pure trivial pair⟩
  | cons s rest ih =>
    have stays : Context.afterStmt [] s = [] := by
      rw [Context.afterStmt]
      split <;> rfl
    obtain ⟨first,fits⟩ := fits
    have arose : H n (.execute s) m := performs _ _ _ (.inl .itself)
    have safe : Task.Safe n (.execute s) m := ⟨enough,[],by rwa [List.append_nil],trivial⟩
    have ends := history.ends_execute arose first pair
    have behind : ∀ {V a m'}, (known use made).Pair V (Context.afterStmt [] s) m' m' →
        execute n s m = .ok a m' →
        (∀ l u k, Executes n rest m' l u k → Ready use made u k ∧ u.Safe l k) ∧
          (known use made).Ends V (fun _ _ _ => True) (fun _ => []) (executeProgram n rest m')
            (executeProgram n rest m') := by
      intro V a m' pair e
      have twins := (simulates selfsame n n).execute (.refl (fun _ => rfl) s) enough enough
        (twins_self (K := []) (by rwa [List.append_nil]))
      rw [show evaluator n (.execute s) m = _ from e] at twins
      cases twins with
      | ok _ twins =>
        obtain ⟨heap,log,-,-,sec⟩ := twins
        have fewer := ((balanced n).execute s).fewer e
        exact ih (fun l u k h => performs l u k (.inr ⟨a,m',e,h⟩)) (stays ▸ fits) (stays ▸ pair)
          (by omega) (sec.less fun r hr => List.mem_append_left _ hr)
      | spoiled lax _ => exact lax.elim
    constructor
    · rintro l u k (arises | ⟨a,m',e,h⟩)
      · exact ⟨history.ready_of_arises arises arose ⟨W,[],first,pair⟩,arises.safe safe⟩
      · rw [e] at ends
        cases ends with
        | ok _ _ pair => exact (behind pair e).1 l u k h
    · refine ends.bind fun V a b m' k' e _ _ pair => ?_
      obtain rfl := pair.eq_known
      exact (behind pair e).2

/-- A run of a program that fits leaves a machine of the same kind, and no depth leads astray. -/
theorem performed {steps : Nat} {p : Program} (performs : ∀ l u k, Performs steps p m l u k → H l u k)
    (fits : BodyFits .asWritten use [] p) (pair : (known use made).Pair W [] m m)
    (sec : Secure m.roots m.heap) :
    (∀ l u k, Performs steps p m l u k → Ready use made u k ∧ u.Safe l k) ∧
      (∀ f, (m.run steps p).1 = .fault f → f.isScoping = false) ∧
      (∃ V, W.Grows V ∧ (known use made).Pair V [] (m.run steps p).2 (m.run steps p).2) ∧
      Secure (m.run steps p).2.roots (m.run steps p).2.heap := by
  obtain ⟨log,traced⟩ := trace_eq .normal (fun _ => s!"run: {p.length} statements")
    { m with current := m.globals, steps }
  have twins : selfsame.Twins [] m m := twins_self (by rwa [List.append_nil])
  have running : (known use made).Pair W [] { m with current := m.globals, steps, log }
      { m with current := m.globals, steps, log } :=
    { pair.restart steps with log_eq := fun _ => rfl }
  obtain ⟨_,_,-,-,secure⟩ := twins.restart steps
  rw [List.append_nil] at secure
  obtain ⟨ready,ends⟩ := history.executed (fun l u k h => performs l u k ⟨_,traced,h⟩) fits running
    (by dsimp only [nesting]; omega) secure
  have run : m.run steps p = concluded
      (executeProgram (nesting steps) p { m with current := m.globals, steps, log }) := by
    rw [run_eq]
    simp only [Bind.bind,EStateM.bind,traced]
  obtain ⟨V,up,outcomes,pair⟩ := ends.concluded
  refine ⟨?_,fun f fault => ?_,⟨V,up,run ▸ pair⟩,?_⟩
  · rintro l u k ⟨m',traced',h⟩
    cases traced'.symm.trans traced
    exact ready l u k h
  · rw [← run,fault] at outcomes
    cases outcomes with
    | fault scoping => exact scoping
  · rcases run_twins (.refl (fun _ => rfl) p) twins steps with ⟨-,⟨_,_,-,-,sec⟩⟩ | ⟨lax,-⟩
    · rwa [List.append_nil] at sec
    · exact lax.elim

end History
end Copying
end Lox
