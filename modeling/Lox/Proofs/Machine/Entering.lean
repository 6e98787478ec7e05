import Lox.Proofs.Heap.Blank
import Lox.Proofs.Heap.Tidying
import Lox.Proofs.Session.Invisibility
import Lox.Proofs.Session.Stacks

/-! # Entering environments

A program can be run in an environment of its own. At first use the environment is registered, and from
then on it is among the worlds of the machine, which are kept alive. Machines that compare and in which
the same environments wait enter an environment alike.
-/
namespace Lox
open Machine Exec

namespace Machine

/-- Makes an environment the globals, with the natives in it. -/
def govern (env : Ref) : Exec Unit := do
  installNatives env Native.all
  fun m => .ok () { m with globals := env }

/-- Lists an environment among those that are kept alive. -/
def enlist (m : Machine) (env : Ref) : Machine :=
  if m.worlds.contains env then m else { m with worlds := m.worlds ++ [env] }

/-- The environments that no program has been run in. -/
def waiting (m : Machine) (made : List Ref) : List Ref := made.filter (· ∉ m.worlds)

variable {m k : Machine} {env r : Ref} {made : List Ref}

theorem mem_waiting : r ∈ m.waiting made ↔ r ∈ made ∧ r ∉ m.worlds := by
  simp [waiting]

theorem waiting_congr (same : k.worlds = m.worlds) : k.waiting made = m.waiting made := by
  simp only [waiting,same]

theorem enlist_of_mem (known : env ∈ m.worlds) : m.enlist env = m := if_pos (by simpa using known)

theorem enlist_of_not_mem (new : env ∉ m.worlds) :
    m.enlist env = { m with worlds := m.worlds ++ [env] } := if_neg (by simpa using new)

theorem mem_worlds_enlist : r ∈ (m.enlist env).worlds ↔ r ∈ m.worlds ∨ r = env := by
  by_cases known : env ∈ m.worlds
  · rw [enlist_of_mem known]
    exact ⟨.inl,fun h => h.elim id fun e => e ▸ known⟩
  · rw [enlist_of_not_mem known]
    simp

/-- The globals of the machine are entered at once. -/
theorem enterWorld_globals : enterWorld m.globals m = .ok () m := if_pos rfl

/-- An environment that the heap owns is listed and made the globals. -/
theorem enterWorld_owned (other : env ≠ m.globals) (owned : m.heap.isRegistered env) :
    enterWorld env m = govern env (m.enlist env) := by
  obtain ⟨c,live⟩ := Heap.live_of_isRegistered owned
  simp only [enterWorld,if_neg other,Bind.bind,EStateM.bind,reading,live,owned,Bool.not_true,
    Bool.false_eq_true,if_false]
  rfl

/-- An environment that has been made is registered before. -/
theorem enterWorld_fresh (other : env ≠ m.globals) (new : env ∉ m.worlds)
    (cell : m.heap.cells[env.index]? = some .fresh) : enterWorld env m =
      match Heap.register env m.roots m.heap with
      | .ok _ heap => govern env { logJournal { m with heap } with worlds := m.worlds ++ [env] }
      | .error f heap => .error (f.halt .start) (logJournal { m with heap }) := by
  have live : m.heap.live env = .ok .fresh := by simp [Heap.live,cell]
  have free : m.heap.isRegistered env = false := by simp [Heap.isRegistered,cell,Cell.isRegistered]
  simp only [enterWorld,if_neg other,Bind.bind,EStateM.bind,reading,live,free,Bool.not_false,if_true,
    registerObject,register_roots]
  generalize (Heap.register _ _ _ : EStateM.Result Failure (Heap Value) Nat) = x
  cases x with
  | error f heap => rfl
  | ok n heap =>
    have absent : (logJournal { m with heap }).worlds.contains env = false := by
      rw [logJournal_eq]
      simpa using new
    dsimp only
    rw [absent,logJournal_eq]
    rfl

theorem spoiled_enter {next : Heap Value → EStateM.Result Halt Machine Unit}
    (spoiled : Heap.Spoiled (Heap.register env m.roots m.heap)) : Exec.Spoiled
      (match Heap.register env m.roots m.heap with
      | .ok _ heap => next heap
      | .error f heap => .error (f.halt .start) (logJournal { m with heap })) := by
  generalize Heap.register env m.roots m.heap = x at spoiled ⊢
  cases x with
  | ok n heap => exact spoiled.elim
  | error f heap =>
    obtain ⟨n,rfl,grown⟩ := spoiled
    exact ⟨n,rfl,by rw [logJournal_eq]; exact grown⟩

theorem mem_roots_list {heap : Heap Value} {log : List String} :
    r ∈ { m with heap, log, worlds := m.worlds ++ [env] }.roots ↔ r = env ∨ r ∈ m.roots := by
  simp only [mem_roots,List.mem_append,List.mem_singleton]
  grind

/-- A run stays in its globals. -/
theorem worlds_run (steps : Nat) (p : Program) (m : Machine) :
    (m.run steps p).2.worlds = m.worlds ∧ (m.run steps p).2.globals = m.globals := by
  obtain ⟨k,log,resumes,same⟩ := resumes_run steps p m
  rw [same]
  exact ⟨resumes.worlds,resumes.globals⟩

end Machine

namespace Comparison
variable {C : Comparison} (hosts : C.Hosts) {made : List Ref} {m k : Machine} {env : Ref}

/-- Twins that are used by a host. The environments that it has made wait to be entered or have been. -/
structure Hosts.Hosted (made : List Ref) (m k : Machine) : Prop where
  twins : (hosts.amid (m.waiting made)).Twins [] m k
  listed : m.globals ∈ m.worlds

/-- Two computations of machines used by a host end alike. -/
inductive Hosts.Enters {α : Type} (made : List Ref) (ok : Machine → Prop) :
    EStateM.Result Halt Machine α → EStateM.Result Halt Machine α → Prop
  | ok {a m k} : ok m → hosts.Hosted made m k → Enters made ok (.ok a m) (.ok a k)
  | error {s t m k} : C.Halts s t → hosts.Hosted made m k → Enters made ok (.error s m) (.error t k)
  | spoiled {x y} : C.lax → (Exec.Spoiled x ∨ Exec.Spoiled y) → Enters made ok x y

variable {hosts}

theorem Hosts.Hosted.govern (hosted : hosts.Hosted made m k) (known : env ∈ m.worlds) :
    hosts.Enters made (fun m => m.globals = env) (govern env m) (govern env k) := by
  have rooted : env ∈ m.roots := mem_roots.mpr (.inr (.inr (.inl known)))
  have ends := ends_installNatives hosted.twins rooted Native.all
  have resumes : Resumes m _ := leads_installNatives env Native.all m
  simp only [Machine.govern,Bind.bind,EStateM.bind]
  generalize installNatives env Native.all m = x,installNatives env Native.all k = y at ends resumes
  cases ends with
  | @ok _ _ m' k' _ tw =>
    have worlds : m'.worlds = m.worlds := resumes.worlds
    refine .ok rfl ⟨?_,worlds ▸ known⟩
    rw [waiting_congr (m := m) (k := { m' with globals := env }) worlds]
    refine tw.change (fun m => { m with globals := env }) rfl (fun _ _ => rfl) fun r hr => .inl ?_
    simp only [mem_roots,List.not_mem_nil,or_false] at hr ⊢
    rcases hr with rfl | hr
    · exact .inr (.inr (.inl (worlds ▸ known)))
    · exact .inr hr
  | @error s t m' k' halts tw =>
    have worlds : m'.worlds = m.worlds := resumes.worlds
    have globals : m'.globals = m.globals := resumes.globals
    refine .error ?_ ⟨waiting_congr (m := m) worlds ▸ tw,globals ▸ worlds ▸ hosted.listed⟩
    cases halts with
    | error pos => exact .error pos
    | fault safe => exact .fault safe
    | cut => exact .cut
  | spoiled lax spoiled =>
    refine .spoiled lax (spoiled.imp ?_ ?_)
    all_goals
      intro h
      cases x <;> cases y <;> first | exact h.elim | exact h

/-- Machines used by a host enter an environment alike, whether it has waited or not. -/
theorem Hosts.Hosted.enterWorld (hosted : hosts.Hosted made m k) (henv : env ∈ made) :
    hosts.Enters made (fun m => m.globals = env) (enterWorld env m) (enterWorld env k) := by
  obtain ⟨heap,log,rfl,held,left,right⟩ := id hosted.twins
  rw [List.append_nil] at held
  obtain ⟨sec,sec'⟩ := hosts.secure held
  by_cases same : env = m.globals
  · subst same
    rw [enterWorld_globals,
      show Machine.enterWorld m.globals { m with heap, log } = .ok () { m with heap, log } from if_pos rfl]
    exact .ok rfl hosted
  by_cases known : env ∈ m.worlds
  · have rooted : env ∈ m.roots := mem_roots.mpr (.inr (.inr (.inl known)))
    rw [enterWorld_owned same (sec.owned env rooted),enlist_of_mem known,
      enterWorld_owned (m := { m with heap, log }) same (sec'.owned env rooted),
      enlist_of_mem (m := { m with heap, log }) known]
    exact hosted.govern known
  have waits : env ∈ m.waiting made := mem_waiting.mpr ⟨henv,known⟩
  rw [enterWorld_fresh same known (left env waits),
    enterWorld_fresh (m := { m with heap, log }) same known (right env waits)]
  have still : ∀ {h : Heap Value}, Heap.Blank (m.waiting made) h → Heap.Secure m.roots h →
      Heap.Blank ((m.enlist env).waiting made) (stateAfter (Heap.register env m.roots h)) := by
    intro h blank sec
    have others : Heap.Blank ((m.enlist env).waiting made) h := blank.less fun r hr => by
      rw [mem_waiting,mem_worlds_enlist,not_or] at hr
      exact mem_waiting.mpr ⟨hr.1,hr.2.1⟩
    refine others.register (fun listed => ?_) (blank env waits) (sec.fresh fun _ => id)
    rw [mem_waiting,mem_worlds_enlist] at listed
    exact listed.2 (.inr rfl)
  have left' := still left sec
  have right' := still right sec'
  have listed : m.globals ∈ (m.enlist env).worlds := mem_worlds_enlist.mpr (.inl hosted.listed)
  rw [enlist_of_not_mem known] at left' right' listed
  rcases hosts.enroll held (fun _ => id) (left env waits) (right env waits) with
    ⟨n,h',g',e,e',after⟩ | ⟨f,h',g',e,e',safe,after⟩ | ⟨lax,spoiled⟩
  · rw [e] at left' ⊢
    rw [e'] at right'
    rw [show Heap.register env ({ m with heap, log } : Machine).roots heap = .ok n g' from e']
    dsimp only
    rw [logJournal_eq,logJournal_eq]
    refine Hosted.govern ⟨⟨_,_,rfl,?_,left',right'⟩,listed⟩ (by simp)
    refine C.flush (C.less after fun r hr => ?_)
    exact List.mem_cons.mpr (mem_roots_list.mp (List.append_nil _ ▸ hr))
  · have back := left.register_error (left env waits) rfl (sec.fresh fun _ => id) e
    have back' := right.register_error (right env waits) rfl (sec'.fresh fun _ => id) e'
    rw [e,show Heap.register env ({ m with heap, log } : Machine).roots heap = .error f g' from e']
    dsimp only
    rw [logJournal_eq,logJournal_eq]
    refine .error (halts_of (C.refl _) safe) ⟨⟨_,_,rfl,?_,back,back'⟩,hosted.listed⟩
    rw [List.append_nil]
    exact C.flush after
  · refine .spoiled lax (spoiled.imp ?_ ?_)
    · exact spoiled_enter
    · exact fun h => spoiled_enter (m := { m with heap, log }) h

/-- Changes of machines that hosts see nothing of. -/
theorem Hosts.Hosted.change (hosted : hosts.Hosted made m k) (log log' : List String) (clock : Float)
    (output : String) : hosts.Hosted made { m with log, clock, output } { k with log := log', clock, output } := by
  obtain ⟨heap,_,rfl,held⟩ := hosted.twins
  exact ⟨⟨heap,log',rfl,held⟩,hosted.listed⟩

theorem Hosts.Hosted.make (hosted : hosts.Hosted made m k) :
    hosts.Hosted (made ++ [⟨m.heap.cells.size⟩])
      { m with heap := stateAfter (Heap.create (.environment {} none) m.heap) }
      { k with heap := stateAfter (Heap.create (.environment {} none) k.heap) } := by
  obtain ⟨heap,log,rfl,held,left,right⟩ := hosted.twins
  have size := hosts.size held
  have blank : ∀ {h : Heap Value}, h.cells.size = m.heap.cells.size → Heap.Blank (m.waiting made) h →
      Heap.Blank (m.waiting (made ++ [⟨m.heap.cells.size⟩])) (stateAfter (Heap.create (.environment {} none) h)) := by
    intro h same blank r hr
    rw [mem_waiting,List.mem_append,List.mem_singleton] at hr
    rcases hr with ⟨hr | rfl,new⟩
    · exact blank.create _ r (mem_waiting.mpr ⟨hr,new⟩)
    · simp only [stateAfter,Heap.create,← same,Array.getElem?_push_size]
  exact ⟨⟨_,log,rfl,hosts.create _ held,blank rfl left,blank size right⟩,hosted.listed⟩

theorem Hosts.outcomes {F : List Ref} {o p : Outcome} (h : (hosts.amid F).Outcomes o p) :
    C.Outcomes o p := by
  cases h with
  | done => exact .done
  | error pos => exact .error pos
  | fault safe => exact .fault safe
  | cut => exact .cut

/-- Machines used by a host run programs alike. -/
theorem Hosts.Hosted.run (hosted : hosts.Hosted made m k) (steps : Nat) (p : Program) :
    C.Outcomes (m.run steps p).1 (k.run steps p).1 ∧
        hosts.Hosted made (m.run steps p).2 (k.run steps p).2 ∨
      C.lax ∧ (Strained (m.run steps p).1 (m.run steps p).2 ∨
        Strained (k.run steps p).1 (k.run steps p).2) := by
  obtain ⟨worlds,globals⟩ := worlds_run steps p m
  have ran := run_twins (C := hosts.amid (m.waiting made)) (.refl C.refl p) hosted.twins steps
  refine ran.imp_left fun ⟨outcomes,tw⟩ => ⟨Hosts.outcomes outcomes,waiting_congr worlds ▸ tw,?_⟩
  rw [worlds,globals]
  exact hosted.listed

theorem Hosts.Hosted.runIn (hosted : hosts.Hosted made m k) (henv : env ∈ made) (steps : Nat)
    (p : Program) :
    C.Outcomes (m.runIn steps env p).1 (k.runIn steps env p).1 ∧
        hosts.Hosted made (m.runIn steps env p).2 (k.runIn steps env p).2 ∨
      C.lax ∧ (Strained (m.runIn steps env p).1 (m.runIn steps env p).2 ∨
        Strained (k.runIn steps env p).1 (k.runIn steps env p).2) := by
  have strained : ∀ {m : Machine}, Exec.Spoiled (Machine.enterWorld env m) →
      Strained (m.runIn steps env p).1 (m.runIn steps env p).2 := by
    intro m spoiled
    simp only [Machine.runIn]
    generalize Machine.enterWorld env m = x at spoiled
    cases x with
    | ok _ _ => exact spoiled.elim
    | error t m =>
      obtain ⟨n,rfl,grown⟩ := spoiled
      exact ⟨n,rfl,grown⟩
  have entered := hosted.enterWorld henv
  generalize ex : Machine.enterWorld env m = x,ey : Machine.enterWorld env k = y at entered
  cases entered with
  | ok _ hosted =>
    simp only [Machine.runIn,ex,ey]
    exact hosted.run steps p
  | error halts hosted =>
    left
    simp only [Machine.runIn,ex,ey]
    cases halts with
    | error pos => exact ⟨.error pos,hosted⟩
    | fault safe => exact ⟨.fault safe,hosted⟩
    | cut => exact ⟨.cut,hosted⟩
  | spoiled lax spoiled =>
    refine .inr ⟨lax,spoiled.imp (fun h => strained (ex ▸ h)) fun h => strained (ey ▸ h)⟩

/-- Machines that start with comparable heaps can be used by a host. -/
theorem Hosts.hosted_start {s t : Settings} {clock : Float} (depth : t.maxCallDepth = s.maxCallDepth)
    (level : t.debugLevel = s.debugLevel) (heaps : C.heaps [] (blank s clock).heap (blank t clock).heap)
    (hm : Machine.start s clock = .ok m) (hk : Machine.start t clock = .ok k) : hosts.Hosted [] m k := by
  refine ⟨start_twins (C := hosts.amid []) depth level ⟨heaps,nofun,nofun⟩ hm hk,?_⟩
  have started := start_eq_ok hm
  rw [firstEnvironment_eq] at started
  split at started
  · next r heap _ =>
    have resumes := (leads_installNatives _ _).ok started
    rw [resumes.globals,resumes.worlds]
    exact List.mem_singleton_self r
  · cases started

/-- A machine used by a host can go on when it has collected, whether or not that failed. -/
theorem hosted_collect (hosted : Heap.hosts_selfsame.Hosted made m m) :
    Heap.hosts_selfsame.Hosted made (stateAfter (Machine.collect m)) (stateAfter (Machine.collect m)) := by
  obtain ⟨heap,log,e,⟨same,sec⟩,blank,-⟩ := hosted.twins
  rw [List.append_nil] at sec
  have blank := blank.collect sec
  rw [stateAfter_collect,logJournal_eq]
  refine ⟨⟨_,_,rfl,⟨rfl,?_⟩,blank,blank⟩,hosted.listed⟩
  rw [List.append_nil]
  exact sec.collect.flush

/-- A collection on one side only. -/
theorem Hosts.Hosted.collect {P : Pos → Pos → Prop} {refl : ∀ p, P p p}
    (hosted : (Heap.hosts_agreement P refl).Hosted made m k) :
    (∃ n m', Machine.collect m = .ok n m' ∧ (Heap.hosts_agreement P refl).Hosted made m' k) ∨
      Exec.Spoiled (Machine.collect m) := by
  obtain ⟨heap,log,rfl,agree,left,right⟩ := hosted.twins
  rw [List.append_nil] at agree
  have left : Heap.Blank (m.waiting made) (stateAfter (Heap.collect m.roots m.heap)) :=
    left.collect (Heap.Agree.left agree)
  rcases agree.collect with ⟨n,h,e,agree⟩ | spoiled
  · refine .inl ⟨n,logJournal { m with heap := h },by simp only [Machine.collect,e],?_⟩
    rw [e] at left
    rw [logJournal_eq]
    refine ⟨⟨heap,log,rfl,?_,left,right⟩,hosted.listed⟩
    rw [List.append_nil]
    exact ⟨agree.left.flush,agree.right,agree.size,agree.nextSlot,agree.cells⟩
  · right
    simp only [Machine.collect]
    generalize Heap.collect m.roots m.heap = x at spoiled
    cases x with
    | ok _ _ => exact spoiled.elim
    | error f h =>
      obtain ⟨n,rfl,grown⟩ := spoiled
      exact ⟨n,rfl,by rw [logJournal_eq]; exact grown⟩

end Comparison
end Lox
