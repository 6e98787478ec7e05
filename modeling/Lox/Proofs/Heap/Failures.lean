import Lox.Value
import Lox.Heap.Collect

/-! # Failures of the heap

An operation on the heap fails because a name is bound to nothing, or because of a fault. Every
other error is the evaluator's. Only collections do arithmetic.
-/
namespace Lox

/-- Whether a fault comes of a number that is too large or none at all. -/
def Fault.isArithmetic : Fault → Bool
  | threshold _ | callDepth => true
  | _ => false

/-- The failures of reading and writing a heap that a program may cause in some ways. -/
inductive Failure.OfHeap (C : RuntimeError.Cause → Prop) : Failure → Prop
  | fault (f : Fault) : f.isArithmetic = false → OfHeap C (.fault f)
  | cause {c : RuntimeError.Cause} : C c → OfHeap C (.cause c)

/-- The failures of reading and writing a heap that no program has caused. -/
inductive Failure.OfState : Failure → Prop
  | fault (f : Fault) : f.isArithmetic = false → OfState (.fault f)

/-- The failures that no program has caused. -/
inductive Failure.IsFault : Failure → Prop
  | fault (f : Fault) : IsFault (.fault f)

theorem Failure.OfState.ofHeap {C : RuntimeError.Cause → Prop} {e : Failure} (h : e.OfState) :
    e.OfHeap C := by
  cases h with
  | fault f calm => exact .fault f calm

namespace Heap
variable {ν α β : Type} {h : Heap ν} {r : Ref} {P : Failure → Prop}
  {C : RuntimeError.Cause → Prop}

/-- What is read from a heap, or a failure of a kind. -/
def Fails (P : Failure → Prop) (x : Except Failure α) : Prop := ∀ e, x = .error e → P e

/-- What is read from a heap, or a failure of the heap. -/
abbrev Tame (C : RuntimeError.Cause → Prop) (x : Except Failure α) : Prop := Fails (Failure.OfHeap C) x

/-- What is read from a heap, or a fault. -/
abbrev Plain (x : Except Failure α) : Prop := Fails Failure.OfState x

theorem fails_ok (a : α) : Fails P (.ok a) := fun _ e => nomatch e

theorem fails_error {e : Failure} (h : P e) : Fails P (.error e : Except Failure α) := by
  intro e' same
  cases same
  exact h

theorem plain_fault {f : Fault} (calm : f.isArithmetic = false) :
    Plain (.error (.fault f) : Except Failure α) := fails_error (.fault f calm)

theorem plain_wrongKind : Plain (wrongKind : Except Failure α) := plain_fault rfl

theorem Fails.bind {x : Except Failure α} {f : α → Except Failure β} (hx : Fails P x)
    (hf : ∀ a, Fails P (f a)) : Fails P (x >>= f) := by
  cases x with
  | ok a => exact hf a
  | error e => exact fails_error (hx e rfl)

theorem Fails.map (f : α → β) {x : Except Failure α} (hx : Fails P x) : Fails P (x.map f) := by
  cases x with
  | ok a => exact fails_ok _
  | error e => exact fails_error (hx e rfl)

theorem Fails.tame {x : Except Failure α} (h : Plain x) : Tame C x := fun e same => (h e same).ofHeap

/-! ## Reading -/

theorem plain_live (h : Heap ν) (r : Ref) : Plain (h.live r) := by
  rw [live]
  split
  · exact plain_fault rfl
  · split
    · exact plain_fault rfl
    · exact fails_ok _

theorem plain_environment (h : Heap ν) (r : Ref) : Plain (h.environment r) := by
  refine (plain_live h r).bind fun c => ?_
  split
  · exact fails_ok _
  · exact plain_wrongKind

theorem tame_lookup (h : Heap ν) (r : Ref) {name : String} (here : C (.undefinedVariable name)) :
    Tame C (h.lookup r name) := by
  refine (plain_environment h r).tame.bind fun values => ?_
  dsimp only
  split
  · exact fails_ok _
  · exact fails_error (.cause here)

theorem plain_hop (h : Heap ν) (distance : Int) (hops : Nat) (r : Ref) : Plain (h.hop distance hops r) := by
  induction hops generalizing r with
  | zero => exact (plain_live h r).bind fun _ => fails_ok r
  | succ hops ih =>
    refine (plain_environment h r).bind fun values => ?_
    dsimp only
    split
    · exact ih _
    · exact plain_fault rfl

theorem plain_ancestor (h : Heap ν) (r : Ref) (distance : Int) : Plain (h.ancestor r distance) :=
  plain_hop h distance distance.toNat r

theorem plain_lookupAt (h : Heap ν) (r : Ref) (distance : Int) (name : String) :
    Plain (h.lookupAt r distance name) := by
  refine (plain_ancestor h r distance).bind fun r => (plain_environment h r).bind fun values => ?_
  dsimp only
  split
  · exact fails_ok _
  · exact plain_fault rfl

theorem plain_routine (h : Heap ν) (r : Ref) : Plain (h.routine r) := by
  rw [routine]
  split
  · exact fails_ok _
  · exact plain_wrongKind

theorem plain_function (h : Heap ν) (r : Ref) : Plain (h.function r) := by
  refine (plain_live h r).bind fun c => ?_
  split
  · exact fails_ok _
  · exact plain_wrongKind

theorem plain_findMethod (h : Heap ν) (r : Ref) (name : String) : Plain (h.findMethod r name) := by
  fun_induction findMethod h r name with
  | case1 r e failed => exact fails_error (plain_live h r e failed)
  | case2 | case3 => exact fails_ok _
  | case4 _ _ _ _ _ _ _ _ _ ih => exact ih
  | case5 => exact plain_fault rfl
  | case6 => exact plain_wrongKind

theorem tame_property (h : Heap ν) (r : Ref) {name : String} (here : C (.undefinedProperty name)) :
    Tame C (h.property r name) := by
  refine (plain_live h r).tame.bind fun c => ?_
  split
  · split
    · exact fails_ok _
    · refine (plain_findMethod h _ name).tame.bind fun m => ?_
      split
      · exact fails_ok _
      · exact fails_error (.cause here)
    · exact plain_wrongKind.tame
  · exact plain_wrongKind.tame

theorem plain_arity (h : Heap ν) (r : Ref) : Plain (h.arity r) := by
  rw [arity]
  split
  · refine (plain_findMethod h r "init").bind fun m => ?_
    split
    · exact (plain_routine h _).bind fun _ => fails_ok _
    · exact fails_ok _
  · exact (plain_routine h r).bind fun _ => fails_ok _

theorem plain_declaredName (h : Heap ν) (r : Ref) : Plain (h.declaredName r) := by
  rw [declaredName]
  split
  · exact fails_ok _
  · exact fails_ok _
  · exact plain_wrongKind

theorem plain_inspect (h : Heap ν) (r : Ref) : Plain (h.inspect r) := by
  rw [inspect]
  split
  · exact fails_ok _
  · exact fails_ok _
  · exact (plain_declaredName h _).map _
  · exact plain_wrongKind

theorem plain_inspect_value (h : Heap ν) (x : Value) : Plain (x.inspect h) := by
  cases x with
  | object r | bound r _ => exact plain_inspect h r
  | bool b => cases b <;> exact fails_ok _
  | _ => exact fails_ok _

theorem plain_arity_value (h : Heap ν) (x : Value) : Plain (x.arity h) := by
  cases x with
  | object r | bound r _ => exact plain_arity h r
  | native f => exact fails_ok _
  | _ => exact plain_wrongKind

/-! ## Writing -/

/-- An operation that fails in a kind of way. -/
def FailsM (P : Failure → Prop) (op : HeapM ν α) : Prop := ∀ h e k, op h = .error e k → P e

/-- An operation that fails as the heap does. -/
abbrev TameM (C : RuntimeError.Cause → Prop) (op : HeapM ν α) : Prop := FailsM (Failure.OfHeap C) op

/-- An operation that fails by a fault alone. -/
abbrev PlainM (op : HeapM ν α) : Prop := FailsM Failure.OfState op

theorem FailsM.tame {op : HeapM ν α} (h : PlainM op) : TameM C op := fun m e k failed => (h m e k failed).ofHeap

theorem plainM_create (o : Object ν) : PlainM (create o) := fun _ _ _ e => nomatch e

theorem plainM_define (r : Ref) (name : String) (x : ν) : PlainM (define r name x) := by
  intro h e k failed
  rw [define] at failed
  split at failed
  · next read =>
    cases failed
    exact plain_environment h r e read
  · cases failed

theorem tameM_assign (r : Ref) {name : String} (here : C (.undefinedVariable name)) (x : ν) :
    TameM C (assign r name x) := by
  intro h e k failed
  rw [assign] at failed
  split at failed
  · next read =>
    cases failed
    exact (plain_environment h r e read).ofHeap
  · split at failed
    · cases failed
    · cases failed
      exact .cause here

theorem tameM_assignAt (r : Ref) (distance : Int) {name : String} (here : C (.undefinedVariable name))
    (x : ν) : TameM C (assignAt r distance name x) := by
  intro h e k failed
  rw [assignAt] at failed
  split at failed
  · next read =>
    cases failed
    exact (plain_ancestor h r distance e read).ofHeap
  · exact tameM_assign _ here x h e k failed

theorem plainM_setField (r : Ref) (name : String) (x : ν) : PlainM (setField r name x) := by
  intro h e k failed
  rw [setField] at failed
  split at failed
  · next read =>
    cases failed
    exact plain_live h r e read
  · split at failed
    · cases failed
    · cases failed
      exact .fault _ rfl

variable [Holder ν]

theorem faultsM_audit : FailsM Failure.IsFault (audit : HeapM ν Unit) := by
  intro h e k failed
  rw [audit] at failed
  split at failed
  · cases failed
    exact .fault _
  · cases failed

theorem faultsM_collect (roots : List Ref) : FailsM Failure.IsFault (collect roots : HeapM ν Nat) := by
  intro h e k failed
  rw [collect] at failed
  split at failed
  · cases failed
    exact .fault _
  · dsimp only at failed
    split at failed
    · cases failed
      exact .fault _
    · split at failed
      · simp only [SeqRight.seqRight,EStateM.seqRight] at failed
        split at failed
        · cases failed
        · next audited =>
          cases failed
          exact faultsM_audit _ _ _ audited
      · cases failed

theorem faultsM_register (r : Ref) (roots : List Ref) :
    FailsM Failure.IsFault (register r roots : HeapM ν Nat) := by
  intro h e k failed
  rw [register] at failed
  split at failed
  · cases failed
    exact .fault _
  · split at failed
    · cases failed
      exact .fault _
    · split at failed
      · split at failed
        · cases failed
        · next collected =>
          cases failed
          exact faultsM_collect _ _ _ _ collected
      · cases failed

end Heap
end Lox
