import Lox.Proofs.Heap.Failures
import Lox.Proofs.Heap.Growth
import Lox.Proofs.Number.Products

/-! # Thresholds

After a sweep the next threshold is fixed from the product of the live count and the growth factor. There
is one exactly if the product is finite, and nothing else on the heap does arithmetic.
-/
namespace Lox.Heap
variable {ν : Type}

/-- The product of the live count and the growth factor is not finite. -/
def Overgrown (h : Heap ν) : Prop := ¬(Float.ofNat h.liveCount * h.rules.growth).isFinite

theorem grownThreshold_isOk_iff (rules : Rules) (live : Nat) :
    (∃ next, grownThreshold rules live = .ok next) ↔ (Float.ofNat live * rules.growth).isFinite := by
  rw [← Number.truncate_isOk_iff,grownThreshold]
  cases Number.truncate (Float.ofNat live * rules.growth) with
  | ok n => exact ⟨fun _ => ⟨n,rfl⟩,fun _ => ⟨_,rfl⟩⟩
  | error e =>
    constructor
    · rintro ⟨_,⟨⟩⟩
    · rintro ⟨_,⟨⟩⟩

theorem overgrown_of_error {h : Heap ν} {e : Number.NotIntegral}
    (spoiled : grownThreshold h.rules h.liveCount = .error e) : h.Overgrown := by
  intro finite
  obtain ⟨next,fine⟩ := (grownThreshold_isOk_iff _ _).mpr finite
  rw [spoiled] at fine
  cases fine

variable [Holder ν]

/-- A collection that breaks off on arithmetic has swept the heap and left it overgrown. -/
theorem overgrown_collect {roots : List Ref} {h k : Heap ν} {f : Fault}
    (failed : collect roots h = .error (.fault f) k) (broken : f.isArithmetic) :
    (∃ e, f = .threshold e) ∧ k.Overgrown := by
  have ends := collects roots h
  rw [failed] at ends
  cases ends with
  | stray met => rcases fault_of_mark met with ⟨_,_,rfl⟩ | rfl <;> cases broken
  | boundless _ spoiled => exact ⟨⟨_,rfl⟩,overgrown_of_error spoiled⟩
  | corrupt _ _ _ met =>
    obtain ⟨_,_,_,rfl⟩ := fault_of_verify met
    cases broken

/-- A collection that completes has fixed the next threshold from what it has left. -/
theorem next_of_collect {roots : List Ref} {h k : Heap ν} {freed : Nat} (done : collect roots h = .ok freed k) :
    grownThreshold h.rules k.liveCount = .ok k.nextThreshold := by
  have ends := collects roots h
  rw [done] at ends
  cases ends with
  | done _ fixed => exact fixed

theorem overgrown_register {r : Ref} {roots : List Ref} {h k : Heap ν} {f : Fault}
    (failed : register r roots h = .error (.fault f) k) (broken : f.isArithmetic) :
    (∃ e, f = .threshold e) ∧ k.Overgrown := by
  have ends := registers r roots h
  rw [failed] at ends
  cases ends with
  | missing | again => cases broken
  | broken _ _ _ collected => exact overgrown_collect collected broken

/-- Only a heap that collects of its own accord breaks off a registration on arithmetic. -/
theorem automatic_of_register {r : Ref} {roots : List Ref} {h k : Heap ν} {f : Fault}
    (failed : register r roots h = .error (.fault f) k) (broken : f.isArithmetic) : h.rules.automatic := by
  have ends := registers r roots h
  rw [failed] at ends
  cases ends with
  | missing | again => cases broken
  | broken _ _ due => exact (Bool.and_eq_true _ _ ▸ due : _ ∧ _).1

end Lox.Heap
