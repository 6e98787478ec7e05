import Lox.Proofs.Heap.Unfolding
import Lox.Proofs.Machine.Twins

/-! # Machines of unfolded programs

A machine that runs an unfolded program takes more steps and has more environments than the one that runs
the program itself. Their computations end alike: the unfolded program takes so many steps for what it
does, is cut when it is given fewer, and does not look at the steps that it is given besides. Each step
of the program pays for three of the unfolded program, and what is not spent yet is credit. There is one
rule for each way to put computations together.
-/
namespace Lox
open Machine Exec

/-- The machine with so many steps left. -/
def Machine.given (m : Machine) (steps : Nat) : Machine := { m with steps }

@[simp] theorem Machine.steps_given (m : Machine) (s : Nat) : (m.given s).steps = s := rfl

/-- The machine with one more object, if nothing is collected for it. -/
def Machine.placed (m : Machine) (o : Object Value) : Machine :=
  { m with
    heap := { m.heap.placed o with journal := [] }
    log := (m.heap.placed o).journal.map (·.message) ++ m.log }

/-- The same halt, up to the depth at which a name is missing. A cut is none of them. -/
inductive Halt.Near : Halt → Halt → Prop
  | error (e) : Near (.error e) (.error e)
  | fault (f) : Near (.fault f) (.fault f)
  | missing (name d e) : Near (.fault (.missingName name d)) (.fault (.missingName name e))

theorem Failure.Near.halt {e f : Failure} (near : e.Near f) (pos : Pos) : (e.halt pos).Near (f.halt pos) := by
  cases near with
  | refl =>
    cases e with
    | fault f => exact .fault f
    | cause c => exact .error ⟨c,pos⟩
  | missing name d e => exact .missing name d e

namespace Exec
variable {α β : Type} {y : Exec α} {g : α → Exec β} {k k' : Machine} {v w : Nat}

/-- A computation is cut when it is given fewer steps. -/
def Needs (y : Exec α) (k : Machine) (v : Nat) : Prop := ∀ w < v, ∃ l, y (k.given w) = .error .cut l

theorem needs_zero (y : Exec α) (k : Machine) : Needs y k 0 := fun _ less => absurd less (Nat.not_lt_zero _)

theorem Needs.bind (first : Needs y k v) (g : α → Exec β) : Needs (y >>= g) k v := fun w less => by
  obtain ⟨l,e⟩ := first w less
  exact ⟨l,by simp only [Bind.bind,EStateM.bind,e]⟩

theorem Needs.bind_ok {b : α} (first : Needs y k v) (ok : ∀ j, y (k.given (v + j)) = .ok b (k'.given j))
    (next : Needs (g b) k' w) : Needs (y >>= g) k (v + w) := fun u less => by
  by_cases below : u < v
  · exact first.bind g u below
  · obtain ⟨l,e⟩ := next (u - v) (by omega)
    have e' := ok (u - v)
    rw [Nat.add_sub_cancel' (Nat.le_of_not_lt below)] at e'
    exact ⟨l,by simp only [Bind.bind,EStateM.bind,e',e]⟩

theorem bind_given {b : α} (ok : ∀ j, y (k.given (v + j)) = .ok b (k'.given j)) (g : α → Exec β) (w : Nat) :
    (y >>= g) (k.given (v + w)) = g b (k'.given w) := by
  simp only [Bind.bind,EStateM.bind,ok]

theorem tick_bind_given (y : Exec α) (k : Machine) (w : Nat) : (do tick; y) (k.given (w + 1)) = y (k.given w) :=
  tick_bind_of_eq_succ y rfl

theorem tick_bind_given_add (y : Exec α) (k : Machine) (v j : Nat) :
    (do tick; y) (k.given (v + 1 + j)) = y (k.given (v + j)) := by
  rw [Nat.add_right_comm,tick_bind_given]

theorem Needs.tick (needs : Needs y k v) : Needs (do Exec.tick; y) k (v + 1) := fun w less => by
  cases w with
  | zero => exact ⟨_,tick_bind_of_eq_zero y rfl⟩
  | succ w =>
    rw [tick_bind_given]
    exact needs w (Nat.lt_of_succ_lt_succ less)

theorem Needs.afterwards (needs : Needs y k v) (f : Machine → Machine) : Needs (afterwards y f) k v :=
  fun w less => by
    obtain ⟨l,e⟩ := needs w less
    exact ⟨f l,by simp only [Exec.afterwards,e]⟩

end Exec

namespace Layout
variable {α β γ δ : Type}

/-- A machine and the one that runs the unfolded program. What is only kept in use is not compared, since
nothing is collected. -/
structure Pair (L : Layout) (π : Strata) (m k : Machine) : Prop where
  heaps : L.Heaps m.heap k.heap
  globals : L.twin m.globals k.globals
  here : L.Chained π m.current k.current
  calls : k.calls = m.calls
  level : k.level = m.level
  clock : k.clock = m.clock
  output : k.output = m.output

/-- What a computation leaves behind: a pair again, in the same environment, and a price that is paid. -/
structure Past (L M : Layout) (π : Strata) (c d v : Nat) (m m' k' : Machine) : Prop where
  up : L.Grows M
  pair : M.Pair π m' k'
  stays : m'.current = m.current
  least : m.steps ≤ v + m'.steps
  paid : v + d + 3 * m'.steps ≤ c + 3 * m.steps

/-- Two computations end alike, with some credit to begin with and some that is left. -/
inductive Ends (L : Layout) (π : Strata) (c d : Nat) (rel : Layout → α → β → Prop) (x : Exec α)
    (y : Exec β) (m k : Machine) : Prop
  | ok {M a b l n v} : x m = .ok a l → (∀ j, y (k.given (v + j)) = .ok b (n.given j)) → Needs y k v →
      L.Past M π c d v m l n → rel M a b → Ends L π c d rel x y m k
  | error {M s t l n v} : x m = .error s l → (∀ j, y (k.given (v + j)) = .error t (n.given j)) →
      Needs y k v → L.Past M π c 0 v m l n → s.Near t → Ends L π c d rel x y m k
  | cut {l n v} : x m = .error .cut l → y (k.given v) = .error .cut n → Needs y k v →
      n.output = l.output → m.steps ≤ v → v ≤ c + 3 * m.steps → Ends L π c d rel x y m k

variable {L M N : Layout} {π ρ : Strata} {b c d e v w : Nat} {m m' m'' k k' k'' : Machine}
  {rel : Layout → α → β → Prop} {rel' : Layout → γ → δ → Prop} {x : Exec α} {y : Exec β}

theorem Pair.give (pair : L.Pair π m k) (s : Nat) : L.Pair π (m.given s) k := { pair with }

theorem Past.refl (pair : L.Pair π m k) : L.Past L π c c 0 m m k :=
  ⟨.refl L,pair,rfl,Nat.le_add_left _ _,by omega⟩

theorem Past.trans (first : L.Past M π c d v m m' k') (next : M.Past N π d e w m' m'' k'') :
    L.Past N π c e (v + w) m m'' k'' := by
  have least := first.least
  have least' := next.least
  have paid := first.paid
  have paid' := next.paid
  exact ⟨first.up.trans next.up,next.pair,next.stays.trans first.stays,by omega,by omega⟩

theorem Past.tick {s : Nat} (past : L.Past M π (c + 2) d v (m.given s) m' k') (hs : m.steps = s + 1) :
    L.Past M π c d (v + 1) m m' k' := by
  have paid := past.paid
  have least := past.least
  simp only [steps_given] at paid least
  exact ⟨past.up,past.pair,past.stays,by omega,by omega⟩

theorem Past.tick_right (past : L.Past M π c d v m m' k') : L.Past M π (c + 1) d (v + 1) m m' k' := by
  have paid := past.paid
  have least := past.least
  exact ⟨past.up,past.pair,past.stays,by omega,by omega⟩

/-! ## Putting computations together -/

/-- Credit can be spent for nothing, and what is there besides stays there. -/
theorem Ends.adjust (ends : L.Ends π c d rel x y m k) (more : c ≤ b) (less : e + c ≤ d + b) :
    L.Ends π b e rel x y m k := by
  cases ends with
  | ok left right needs past ab =>
    have paid := past.paid
    exact .ok left right needs { past with paid := by omega } ab
  | error left right needs past near =>
    have paid := past.paid
    exact .error left right needs { past with paid := by omega } near
  | cut left right needs same least paid => exact .cut left right needs same least (by omega)

/-- What pays for itself leaves any credit as it is. -/
theorem Ends.carry (ends : L.Ends π 0 d rel x y m k) : L.Ends π c c rel x y m k :=
  ends.adjust (Nat.zero_le c) (by omega)

theorem Ends.imp {rel' : Layout → α → β → Prop} (ends : L.Ends π c d rel x y m k)
    (weaker : ∀ M a b, rel M a b → rel' M a b) : L.Ends π c d rel' x y m k := by
  cases ends with
  | ok left right needs past ab => exact .ok left right needs past (weaker _ _ _ ab)
  | error left right needs past near => exact .error left right needs past near
  | cut left right needs same least paid => exact .cut left right needs same least paid

/-- What is answered is the answer of the first computation. -/
theorem Ends.known (ends : L.Ends π c d rel x y m k) :
    L.Ends π c d (fun M a b => rel M a b ∧ ∃ l, x m = .ok a l) x y m k := by
  cases ends with
  | ok left right needs past ab => exact .ok left right needs past ⟨ab,_,left⟩
  | error left right needs past near => exact .error left right needs past near
  | cut left right needs same least paid => exact .cut left right needs same least paid

theorem Ends.bind {f : α → Exec γ} {g : β → Exec δ} (first : L.Ends π c d rel x y m k)
    (next : ∀ M a b m' k', L.Grows M → M.Pair π m' k' → 3 * m'.steps + d ≤ 3 * m.steps + c → rel M a b →
      M.Ends π d e rel' (f a) (g b) m' k') :
    L.Ends π c e rel' (x >>= f) (y >>= g) m k := by
  cases first with
  | @ok M a b m' k' v left right needs past ab =>
    have start : (x >>= f) m = f a m' := by simp only [Bind.bind,EStateM.bind,left]
    have paid := past.paid
    have least := past.least
    cases next M a b m' k' past.up past.pair (by omega) ab with
    | ok left' right' needs' past' cd =>
      refine .ok (start.trans left') (fun j => ?_) (needs.bind_ok right needs') (past.trans past') cd
      rw [Nat.add_assoc,bind_given right,right']
    | error left' right' needs' past' near =>
      refine .error (start.trans left') (fun j => ?_) (needs.bind_ok right needs') (past.trans past') near
      rw [Nat.add_assoc,bind_given right,right']
    | cut left' right' needs' same least' paid' =>
      exact .cut (start.trans left') ((bind_given right g _).trans right') (needs.bind_ok right needs') same
        (by omega) (by omega)
  | error left right needs past near =>
    exact .error (by simp only [Bind.bind,EStateM.bind,left])
      (fun j => by simp only [Bind.bind,EStateM.bind,right]) (needs.bind g) past near
  | cut left right needs same least paid =>
    exact .cut (by simp only [Bind.bind,EStateM.bind,left]) (by simp only [Bind.bind,EStateM.bind,right])
      (needs.bind g) same least paid

/-- Neither computation takes a step. -/
theorem Ends.of_ok {a : α} {b : β} {l n : Machine} (left : x m = .ok a l)
    (right : ∀ j, y (k.given j) = .ok b (n.given j)) (up : L.Grows M) (pair : M.Pair π l n)
    (stays : l.current = m.current) (steps : l.steps = m.steps)
    (ab : rel M a b) : L.Ends π c c rel x y m k :=
  .ok left (fun j => by rw [Nat.zero_add,right]) (needs_zero y k)
    ⟨up,pair,stays,by omega,by omega⟩ ab

theorem Ends.of_error {s t : Halt} {l n : Machine} (left : x m = .error s l)
    (right : ∀ j, y (k.given j) = .error t (n.given j)) (pair : L.Pair π l n)
    (stays : l.current = m.current) (steps : l.steps = m.steps) (near : s.Near t) :
    L.Ends π c d rel x y m k :=
  .error left (fun j => by rw [Nat.zero_add,right]) (needs_zero y k)
    ⟨.refl L,pair,stays,by omega,by omega⟩ near

theorem Ends.pure {a : α} {b : β} (pair : L.Pair π m k) (ab : rel L a b) :
    L.Ends π c c rel (pure a) (pure b) m k := .of_ok rfl (fun _ => rfl) (.refl L) pair rfl rfl ab

theorem Ends.throw {s t : Halt} (pair : L.Pair π m k) (near : s.Near t) :
    L.Ends π c d rel (throw s) (throw t) m k := .of_error rfl (fun _ => rfl) pair rfl rfl near

theorem Ends.raise (pair : L.Pair π m k) (pos : Pos) (cause : RuntimeError.Cause) :
    L.Ends π c d rel (raise pos cause) (raise pos cause) m k := .throw pair (.error _)

/-- A step of the program pays for one of the unfolded program and for two more. -/
theorem Ends.tick (pair : L.Pair π m k)
    (next : ∀ s, m.steps = s + 1 → L.Ends π (c + 2) d rel x y (m.given s) k) :
    L.Ends π c d rel (do Exec.tick; x) (do Exec.tick; y) m k := by
  cases hs : m.steps with
  | zero =>
    exact .cut (tick_bind_of_eq_zero x hs) (tick_bind_of_eq_zero (m := k.given 0) y rfl) (needs_zero _ k)
      pair.output (Nat.le_of_eq hs) (Nat.zero_le _)
  | succ s =>
    have left {r} (e : x (m.given s) = r) : (do Exec.tick; x) m = r := (tick_bind_of_eq_succ x hs).trans e
    cases next s hs with
    | ok left' right needs past ab =>
      exact .ok (left left') (fun j => (tick_bind_given_add y k _ j).trans (right j)) needs.tick (past.tick hs) ab
    | error left' right needs past near =>
      exact .error (left left') (fun j => (tick_bind_given_add y k _ j).trans (right j)) needs.tick
        (past.tick hs) near
    | cut left' right needs same least paid =>
      simp only [steps_given] at least paid
      exact .cut (left left') ((tick_bind_given y k _).trans right) needs.tick same (by omega) (by omega)

/-- A step of the unfolded program alone. -/
theorem Ends.tick_right (ends : L.Ends π c d rel x y m k) : L.Ends π (c + 1) d rel x (do Exec.tick; y) m k := by
  cases ends with
  | ok left right needs past ab =>
    exact .ok left (fun j => (tick_bind_given_add y k _ j).trans (right j)) needs.tick past.tick_right ab
  | error left right needs past near =>
    exact .error left (fun j => (tick_bind_given_add y k _ j).trans (right j)) needs.tick past.tick_right near
  | cut left right needs same least paid =>
    exact .cut left ((tick_bind_given y k _).trans right) needs.tick same (by omega) (by omega)

/-- What the unfolded program does without taking a step. -/
theorem Ends.right {z : Exec β} (ends : M.Ends π c d rel x z m k') (up : L.Grows M)
    (same : ∀ j, y (k.given j) = z (k'.given j)) : L.Ends π c d rel x y m k := by
  have needs {v : Nat} (needs : Needs z k' v) : Needs y k v := fun w less => by
    rw [same]
    exact needs w less
  cases ends with
  | ok left right needs' past ab =>
    exact .ok left (fun j => (same _).trans (right j)) (needs needs') { past with up := up.trans past.up } ab
  | error left right needs' past near =>
    exact .error left (fun j => (same _).trans (right j)) (needs needs') { past with up := up.trans past.up } near
  | cut left right needs' same' least paid =>
    exact .cut left ((same _).trans right) (needs needs') same' least paid

theorem Ends.congr {x' : Exec α} {y' : Exec β} (ends : L.Ends π c d rel x y m k) (left : x' m = x m)
    (right : ∀ j, y' (k.given j) = y (k.given j)) : L.Ends π c d rel x' y' m k := by
  cases ends.right (.refl L) right with
  | ok left' right needs past ab => exact .ok (left.trans left') right needs past ab
  | error left' right needs past near => exact .error (left.trans left') right needs past near
  | cut left' right needs same least paid => exact .cut (left.trans left') right needs same least paid

/-- What is done in front of two computations and behind them, without taking a step. -/
theorem Ends.around {x' : Exec α} {y' : Exec β} {f g : Machine → Machine} {l n : Machine}
    (ends : L.Ends ρ c d rel x y l n) (left : x' m = afterwards x f l)
    (right : ∀ j, y' (k.given j) = afterwards y g (n.given j)) (steps : l.steps = m.steps)
    (keeps : ∀ m, (f m).steps = m.steps ∧ (f m).output = m.output)
    (keeps' : ∀ k, (g k).output = k.output ∧ ∀ j, g (k.given j) = (g k).given j)
    (after : ∀ M m' k', L.Grows M → m'.current = l.current → M.Pair ρ m' k' →
      M.Pair π (f m') (g k') ∧ (f m').current = m.current) :
    L.Ends π c d rel x' y' m k := by
  have needs {v : Nat} (needs : Needs y n v) : Needs y' k v := fun w less => by
    rw [right]
    exact needs.afterwards g w less
  have past {M m' k' d v} (past : L.Past M ρ c d v l m' k') : L.Past M π c d v m (f m') (g k') := by
    obtain ⟨pair,stays⟩ := after M m' k' past.up past.stays past.pair
    have paid := past.paid
    have least := past.least
    rw [steps] at paid least
    exact ⟨past.up,pair,stays,by rwa [(keeps m').1],by rwa [(keeps m').1]⟩
  cases ends with
  | ok left' right' needs' past' ab =>
    refine .ok (left.trans ?_) (fun j => (right _).trans ?_) (needs needs') (past past') ab
    · simp only [Exec.afterwards,left']
    · simp only [Exec.afterwards,right',(keeps' _).2]
  | error left' right' needs' past' near =>
    refine .error (left.trans ?_) (fun j => (right _).trans ?_) (needs needs') (past past') near
    · simp only [Exec.afterwards,left']
    · simp only [Exec.afterwards,right',(keeps' _).2]
  | @cut m' k' _ left' right' needs' same least paid =>
    refine .cut (l := f m') (n := g k') (left.trans ?_) ((right _).trans ?_) (needs needs') ?_
      (steps ▸ least) (steps ▸ paid)
    · simp only [Exec.afterwards,left']
    · simp only [Exec.afterwards,right']
    · rw [(keeps _).2,(keeps' _).1,same]

theorem Ends.releasing (ends : L.Ends π c d rel x y m k) :
    L.Ends π c d rel (releasing x) (releasing y) m k :=
  ends.around (f := fun l => { l with temps := m.temps }) (g := fun l => { l with temps := k.temps }) rfl
    (fun _ => rfl) rfl (fun _ => ⟨rfl,rfl⟩) (fun _ => ⟨rfl,fun _ => rfl⟩)
    fun _ _ _ _ stays pair => ⟨{ pair with },stays⟩

theorem Ends.inEnvironment {r s : Ref} (pair : L.Pair π m k)
    (ends : L.Ends ρ c d rel x y { m with current := r, saved := m.current :: m.saved }
      { k with current := s, saved := k.current :: k.saved }) :
    L.Ends π c d rel (inEnvironment r x) (inEnvironment s y) m k :=
  ends.around (f := fun l => { l with current := m.current, saved := m.saved })
    (g := fun l => { l with current := k.current, saved := k.saved }) rfl (fun _ => rfl) rfl
    (fun _ => ⟨rfl,rfl⟩) (fun _ => ⟨rfl,fun _ => rfl⟩)
    fun _ _ _ up _ after => ⟨{ after with here := pair.here.grows up },rfl⟩

/-- An environment of the unfolded program alone. -/
theorem Ends.inEnvironment_right {s : Ref} (pair : L.Pair π m k)
    (ends : L.Ends ρ c d rel x y m { k with current := s, saved := k.current :: k.saved }) :
    L.Ends π c d rel x (Exec.inEnvironment s y) m k := by
  refine ends.around (f := id) (g := fun l => { l with current := k.current, saved := k.saved }) ?_
    (fun _ => rfl) rfl (fun _ => ⟨rfl,rfl⟩) (fun _ => ⟨rfl,fun _ => rfl⟩)
    fun _ _ _ up stays after => ⟨{ after with here := ?_ },stays⟩
  · simp only [Exec.afterwards]
    cases x m <;> rfl
  · rw [id,stays]
    exact pair.here.grows up

theorem Ends.entering {u v : Value} (pair : L.Pair π m k) (pos : Pos)
    (next : ∀ m' k', L.Pair π m' k' → m'.steps = m.steps → L.Ends π c d rel x y m' k') :
    L.Ends π c d rel (do enterCall pos; inCall u x) (do enterCall pos; inCall v y) m k := by
  cases e : m.calls.enter with
  | mk refused calls =>
    have e' (j : Nat) : (k.given j).calls.enter = (refused,calls) := by rw [← e,← pair.calls]; rfl
    cases refused with
    | some o =>
      refine .of_error (l := { m with calls }) (n := { k with calls }) (by
        simp only [Bind.bind,EStateM.bind,enterCall,e]
        rfl) (fun j => by
        simp only [Bind.bind,EStateM.bind,enterCall,e']
        rfl) { pair with calls := rfl } rfl rfl (.error _)
    | none =>
      refine Ends.around (next { m with calls, frames := u :: m.frames } { k with calls, frames := v :: k.frames }
          { pair with calls := rfl } rfl)
        (f := fun l => { l with frames := m.frames, calls := l.calls.exit })
        (g := fun l => { l with frames := k.frames, calls := l.calls.exit }) (by
          simp only [Bind.bind,EStateM.bind,enterCall,e]
          rfl) (fun j => by
          simp only [Bind.bind,EStateM.bind,enterCall,e']
          rfl) rfl (fun _ => ⟨rfl,rfl⟩) (fun _ => ⟨rfl,fun _ => rfl⟩)
        fun _ _ _ _ stays pair => ⟨{ pair with calls := congrArg CallDepth.exit pair.calls },stays⟩

/-! ## Single operations -/

theorem trace_given (level : Level) (t : Unit → String) (k : Machine) :
    ∃ log, ∀ j, trace level t (k.given j) = .ok () ({ k with log }.given j) := by
  simp only [trace]
  by_cases logs : k.level.logs level
  · exact ⟨t () :: k.log,fun j => if_pos logs⟩
  · exact ⟨k.log,fun j => if_neg logs⟩

theorem ends_trace (pair : L.Pair π m k) (level : Level) (s t : Unit → String) :
    L.Ends π c c (fun _ _ _ => True) (trace level s) (trace level t) m k := by
  obtain ⟨log,left⟩ := trace_given level s m
  obtain ⟨log',right⟩ := trace_given level t k
  exact .of_ok (left m.steps) right (.refl L) { pair with } rfl rfl trivial

/-- A message of the unfolded program alone. -/
theorem Ends.trace_right {level : Level} {t : Unit → String} (pair : L.Pair π m k)
    (next : ∀ k', L.Pair π m k' → L.Ends π c d rel x y m k') :
    L.Ends π c d rel x (do trace level t; y) m k := by
  obtain ⟨log,right⟩ := trace_given level t k
  refine .right (next { k with log } { pair with }) (.refl L) fun j => ?_
  simp only [Bind.bind,EStateM.bind,right]

theorem ends_keep (pair : L.Pair π m k) (x y : Value) :
    L.Ends π c c (fun _ _ _ => True) (keep x) (keep y) m k :=
  .of_ok (b := ()) (n := { k with temps := y :: k.temps }) rfl (fun _ => rfl) (.refl L) { pair with } rfl rfl
    trivial

theorem Ends.keeping (pair : L.Pair π m k) (u v : Value)
    (next : ∀ m' k', L.Pair π m' k' → m'.steps = m.steps → L.Ends π c d rel x y m' k') :
    L.Ends π c d rel (keeping u x) (keeping v y) m k :=
  (next { m with temps := u :: m.temps } { k with temps := v :: k.temps } { pair with } rfl).around
    (f := fun l => { l with temps := m.temps }) (g := fun l => { l with temps := k.temps }) rfl
    (fun _ => rfl) rfl (fun _ => ⟨rfl,rfl⟩) (fun _ => ⟨rfl,fun _ => rfl⟩)
    fun _ _ _ _ stays pair => ⟨{ pair with },stays⟩

theorem ends_print (pair : L.Pair π m k) (text : String) :
    L.Ends π c c (fun _ _ _ => True) (print text) (print text) m k :=
  .of_ok (b := ()) (n := { k with output := k.output ++ text }) rfl (fun _ => rfl) (.refl L)
    { pair with output := congrArg (· ++ text) pair.output } rfl rfl trivial

theorem ends_readClock (pair : L.Pair π m k) : L.Ends π c c Same readClock readClock m k := by
  refine .of_ok (b := .number k.clock) (n := { k with clock := k.clock + 0.000001 }) rfl (fun _ => rfl) (.refl L)
    { pair with clock := congrArg (· + 0.000001) pair.clock } rfl rfl ?_
  rw [pair.clock]
  exact .plain rfl

theorem ends_currentEnvironment (pair : L.Pair π m k) :
    L.Ends π c c (fun M r s => M.Chained π r s) currentEnvironment currentEnvironment m k :=
  .of_ok rfl (fun _ => rfl) (.refl L) pair rfl rfl pair.here

theorem ends_answers (pair : L.Pair π m k) (pos : Pos) {s : Except Failure α} {t : Except Failure β}
    (answers : Answers (rel L) s t) : L.Ends π c c rel (reading pos fun _ => s) (reading pos fun _ => t) m k := by
  cases answers with
  | ok ab => exact .of_ok rfl (fun _ => rfl) (.refl L) pair rfl rfl ab
  | @error e f near => exact .of_error (t := f.halt pos) rfl (fun _ => rfl) pair rfl rfl (near.halt pos)

theorem ends_reading (pair : L.Pair π m k) (pos : Pos) {u : Heap Value → Except Failure α}
    {v : Heap Value → Except Failure β} (answers : Answers (rel L) (u m.heap) (v k.heap)) :
    L.Ends π c c rel (reading pos u) (reading pos v) m k :=
  (ends_answers pair pos answers).congr rfl fun _ => rfl

theorem ends_writes (pair : L.Pair π m k) (pos : Pos) {s t : EStateM.Result Failure (Heap Value) Unit}
    (writes : L.Writes m.heap k.heap s t) :
    L.Ends π c c (fun _ _ _ => True) (onHeap pos fun _ => s) (onHeap pos fun _ => t) m k := by
  cases writes with
  | @ok h g heaps =>
    exact .of_ok (b := ()) (n := { k with heap := g }) rfl (fun _ => rfl) (.refl L) { pair with heaps } rfl rfl
      trivial
  | @error e =>
    exact .of_error (t := e.halt pos) (n := k) rfl (fun _ => rfl) pair rfl rfl (Failure.Near.halt (.refl e) pos)

theorem ends_onHeap (pair : L.Pair π m k) (pos : Pos) {u v : HeapM Value Unit}
    (writes : L.Writes m.heap k.heap (u m.heap) (v k.heap)) :
    L.Ends π c c (fun _ _ _ => True) (onHeap pos u) (onHeap pos v) m k :=
  (ends_writes pair pos writes).congr rfl fun _ => rfl

theorem ends_define {r s : Ref} {u v : Value} (pair : L.Pair π m k) (twin : L.twin r s) (name : String)
    (same : L.Same u v) : L.Ends π c c (fun _ _ _ => True) (define r name u) (define s name v) m k :=
  ends_onHeap pair .start (pair.heaps.writes_define twin name same)

/-! ## Allocations -/

theorem allocate_of_manual (manual : m.heap.Manual) (o : Object Value) :
    allocate o m = .ok ⟨m.heap.cells.size⟩ (m.placed o) := by
  rw [allocate_eq,manual.place]
  exact congrArg _ (logJournal_eq _)

theorem Pair.placed {o p : Object Value} {M : Layout} (pair : L.Pair π m k) (up : L.Grows M)
    (heaps : M.Heaps (m.heap.placed o) (k.heap.placed p)) : M.Pair π (m.placed o) (k.placed p) :=
  { pair with
    heaps := heaps.congr rfl rfl rfl rfl
    globals := up.paired pair.globals
    here := pair.here.grows up }

theorem ends_allocate {o p : Object Value} {b : Bool} (pair : L.Pair π m k) (matching : L.Matches b o p) :
    L.Ends π c c (fun M => M.paired b) (allocate o) (allocate p) m k := by
  have up := L.grows_put b ⟨m.heap.cells.size⟩ ⟨k.heap.cells.size⟩
  exact .of_ok (allocate_of_manual pair.heaps.left o)
    (fun j => allocate_of_manual (m := k.given j) pair.heaps.right p) up
    (pair.placed up (pair.heaps.placed (matching.grows up))) rfl rfl (L.paired_put _ _ _)

/-- An environment inside another one, and its counterpart inside that of the other. -/
theorem ends_newEnvironment {r s : Ref} (pair : L.Pair π m k) (chained : L.Chained ρ r s) :
    L.Ends π c c (fun M e f => M.Chained (.shared :: ρ) e f) (newEnvironment (some r)) (newEnvironment (some s))
      m k := by
  have up := L.grows_put false ⟨m.heap.cells.size⟩ ⟨k.heap.cells.size⟩
  have up' := (L.put false ⟨m.heap.cells.size⟩ ⟨k.heap.cells.size⟩).grows_nest ⟨m.heap.cells.size⟩ r
    ⟨k.heap.cells.size⟩ s
  have heaps := (pair.heaps.placed (.environment .empty)).nest ⟨_,Heap.has_placed m.heap (.environment {} (some r))⟩
    ⟨_,Heap.has_placed k.heap (.environment {} (some s))⟩
  have right (j : Nat) : newEnvironment (some s) (k.given j) =
      .ok ⟨k.heap.cells.size⟩ ((k.placed (.environment {} (some s))).given j) :=
    allocate_of_manual (m := k.given j) pair.heaps.right _
  exact .of_ok (allocate_of_manual pair.heaps.left (.environment {} (some r))) right (up.trans up')
    (pair.placed (up.trans up') heaps) rfl rfl
    (.shared (up'.paired (L.paired_put _ _ _)) (.inr ⟨rfl,rfl⟩) (.inr ⟨rfl,rfl⟩) (chained.grows (up.trans up')))

/-- An environment of the unfolded program alone. -/
theorem Ends.newEnvironment_right {z : Ref → Exec β} (pair : L.Pair π m k)
    (next : ∀ M s k', L.Grows M → M.Pair π m k' → M.Chained (.extra :: π) m.current s →
      M.Ends π c d rel x (z s) m k') :
    L.Ends π c d rel x (do let outer ← currentEnvironment; let s ← newEnvironment (some outer); z s) m k := by
  have up := L.grows_wrap ⟨k.heap.cells.size⟩ k.current
  have heaps := (pair.heaps.placed_right (.environment {} (some k.current))).wrap
    ⟨_,Heap.has_placed k.heap (.environment {} (some k.current))⟩
  refine .right (next _ ⟨k.heap.cells.size⟩ (k.placed (.environment {} (some k.current))) up ?_ ?_) up fun j => ?_
  · exact { pair with
      heaps := heaps.congr rfl rfl rfl rfl
      globals := up.paired pair.globals
      here := pair.here.grows up }
  · exact .extra (.inr ⟨rfl,rfl⟩) (pair.here.grows up)
  · have placed := allocate_of_manual (m := k.given j) pair.heaps.right (.environment {} (some k.current))
    simp only [Bind.bind,EStateM.bind,currentEnvironment,newEnvironment]
    rw [show (k.given j).current = k.current from rfl,placed]
    rfl

end Layout
end Lox
