import Lox.Proofs.Eval.Dispatch
import Lox.Proofs.Session.Course
import Lox.Proofs.Session.Performed

/-! # Dispatch

Properties, receivers and superclasses follow the text of the classes. A chain of superclasses ends, a
method keeps the superclass that its class was declared over, and `super` looks a name up from the
superclass of the class in whose text it stands, whatever the class of the receiver.
-/
namespace Lox
open Machine Exec Comparison Heap

/-! ## What a machine tells of its classes -/

/-- Classes, methods and properties of a machine. -/
structure Machine.Dispatches (m : Machine) : Prop where
  /-- The classes that a class inherits from, each older than the one before. -/
  chain {c} : m.heap.isRegistered c → m.heap.kindOf c = .klass →
    ∃ cs, m.heap.Lineage c cs ∧ cs.Pairwise fun c s => s.index < c.index
  methods {c superclass methods f} : m.heap.isRegistered c → m.heap.IsClass c superclass methods →
    f ∈ methods.values → ∃ routine closure values outer, m.heap.function f = .ok (routine,some closure) ∧
      m.heap.environment closure = .ok (values,outer) ∧ values.get? "super" = superclass.map .object
  property {r} : m.heap.isRegistered r → m.heap.kindOf r = .instanceOf → ∃ c fields cs,
    m.heap.object? r = some (.instanceOf (some c) fields) ∧ m.heap.Lineage c cs ∧
      ∀ name, getProperty (.object r) name m =
        match fields.get? name.text with
        | some x => .ok x m
        | none => boundMethod r name (cs.findSome? (m.heap.methodOf · name.text)) m

theorem dispatches {m : Machine} (classed : m.heap.Classed) (closed : m.heap.Closed) : m.Dispatches where
  chain owned kind := by
    obtain ⟨cs,lineage,sorted,-⟩ := classed.lineage closed owned kind
    exact ⟨cs,lineage,sorted⟩
  methods owned klass hf := classed.methods closed owned klass hf
  property {r} owned kind := by
    obtain ⟨c,live⟩ := live_of_isRegistered owned
    obtain ⟨cell,-⟩ := live_eq_ok live
    cases object : c.object with
    | instanceOf base fields =>
      obtain ⟨b,cs,rfl,lineage,found⟩ := classed.property closed owned live object
      exact ⟨b,fields,cs,object ▸ object?_eq_some cell,lineage,fun name => getProperty_eq kind (found name.text)⟩
    | _ =>
      simp only [kindOf,cell,object,Option.map_some,Option.getD_some] at kind
      cases kind

namespace Host
variable {h : Host} {deeds : List Deed} {l : Nat} {u : Task} {k m : Machine}

/-! ## What a host performs -/

/-- An environment has been opened for a construct, or a host runs sources in it. -/
def Opened (h : Host) (deeds : List Deed) (env : Ref) : Origin → Prop
  | .world => env = h.machine.globals ∨ env ∈ (h.after deeds).made
  | o => ∃ l u k, h.Performs deeds l u k ∧ u.Starts l k ∧ u.opens k = some o ∧ env = ⟨k.heap.cells.size⟩

/-- The sources that are run. -/
def entries (deeds : List Deed) : List Entry := deeds.filterMap Deed.entry?

theorem Performs.asks {n : Nat} {v : Task} {j : Machine} (performs : h.Performs deeds (n + 1) u k)
    (asks : Asks (fun E => u.perform E k) (evaluator n) v j) : h.Performs deeds n v j := by
  induction deeds generalizing h with
  | nil => exact performs.elim
  | cons d rest ih =>
    rcases performs with ⟨steps,p,m,runs,m',traced,executes⟩ | later
    · exact .inl ⟨steps,p,m,runs,m',traced,executes.asks asks⟩
    · exact .inr (ih later)

/-- What a host performs is a history. -/
theorem history (h : Host) (deeds : List Deed) :
    Copying.History (siteUse (entries deeds)) (h.Opened deeds) (h.Performs deeds) where
  asks performs asks := performs.asks asks
  opens {n t m} performs starts o ho := by
    have other := Task.opens_ne_world ho
    cases o with
    | world => exact absurd rfl other
    | _ => exact ⟨n,t,m,performs,starts,ho,rfl⟩

/-- Whatever a host performs fits the text of its sources. -/
theorem ready_of_start {settings : Settings} {clock : Float} {s : Session}
    (start : Session.start settings clock = .ok s) (performs : Host.Performs ⟨s,[]⟩ deeds l u k) :
    Copying.Ready (siteUse (entries deeds)) (Host.Opened ⟨s,[]⟩ deeds) u k ∧ u.Safe l k := by
  have machine := Session.machine_of_start start
  obtain ⟨W,pair⟩ := Copying.pair_start
    (C := .known (siteUse (entries deeds)) (Host.Opened ⟨s,[]⟩ deeds))
    (show Host.Opened ⟨s,[]⟩ deeds ⟨0⟩ .world from .inl (Copying.globals_start machine).symm)
    ⟨⟨fun i => by simp [Machine.blank],rfl⟩,(by rintro _ _ ⟨⟩)⟩ machine
  refine ready_of_performs (Host.history ⟨s,[]⟩ deeds) (fun _ _ _ => id) (fun d hd e he x hx Γ same => ?_)
    (fun env henv => .inr henv) ⟨W,pair,(by rintro _ ⟨⟩)⟩ (kept_start start) performs
  exact ⟨e,List.mem_filterMap.mpr ⟨d,hd,Option.mem_def.mp he⟩,x,hx,same,rfl⟩

theorem closed_of_meets {settings : Settings} {clock : Float} {s : Session}
    (start : Session.start settings clock = .ok s) (meets : Host.Meets ⟨s,[]⟩ deeds m) : m.heap.Closed := by
  cases meets with
  | between => exact ((kept_start start).after _).secure.closed
  | start performs => exact (ready_of_start start performs).2.secure.closed
  | ending performs => exact (ready_of_start start performs).2.after.closed

/-- What has been made before anything else was performed lasts wherever the new environment is found. -/
theorem Proper.lasts_of_makes (proper : h.Proper) {i : Nat} {v : Task} {j : Machine} {g : Heap Value}
    (makes : v.Makes i j g) (made : h.Performs deeds i v j) (performs : h.Performs deeds l u k)
    (other : u ≠ v) (quiet : ∀ {n w o}, ¬Asks (fun E => u.perform E k) (evaluator n) w o)
    (new : j.heap.cells.size < k.heap.cells.size) : g.Lasts k.heap := by
  have spans := (proper.spans performs).size
  rcases (proper.after deeds).1.ordered made performs with arises | arises | later | later
  · exact (makes.arises arises).resolve_left other
  · rcases arises.head with ⟨-,same,-⟩ | ⟨d,w,o,-,asks,-⟩
    · exact absurd same.symm other
    · exact absurd asks quiet
  · exact makes.ends.trans later
  · have before := later.size
    omega

/-- What has been bound before anything else was performed is what is found in the new environment. -/
theorem Proper.found_of_makes (proper : h.Proper) {i : Nat} {v : Task} {j : Machine} {g : Heap Value}
    {enclosing outer : Option Ref} {name : String} {x : Value} {values : Bindings Value}
    (binding : g.Binding ⟨j.heap.cells.size⟩ enclosing name x) (reserved : ¬Ordinary name)
    (makes : v.Makes i j g) (made : h.Performs deeds i v j) (performs : h.Performs deeds l u k)
    (other : u ≠ v) (quiet : ∀ {n w o}, ¬Asks (fun E => u.perform E k) (evaluator n) w o)
    (found : k.heap.environment ⟨j.heap.cells.size⟩ = .ok (values,outer)) :
    outer = enclosing ∧ ∀ y, values.get? name = some y → y = x := by
  obtain ⟨_,cell,-⟩ := Heap.environment_eq_ok found
  have new := (Array.getElem?_eq_some_iff.mp cell).1
  exact binding.found reserved (proper.lasts_of_makes makes made performs other quiet new) found

end Host

/-! ## Uses of superclasses -/

/-- A call of a method of a class that has a superclass. -/
structure MethodCall where
  method : Ref
  routine : Routine
  receiver : Ref
  /-- The environment in which the method has been made. -/
  closure : Ref
  klass : Name
  superclass : Ref

/-- A use of a scope stands in the text of a method, and has been reached in a call of it: so many
environments further out is the one of the call, and around it the one of the declaration of the class. -/
structure MethodCall.Around (c : MethodCall) (h : Host) (deeds : List Deed) (k : Machine) (e : Expr) (d : Nat) :
    Prop where
  text : ∃ a ∈ Host.entries deeds, ∃ Γ : Context, (Γ,e) ∈ a.sites ∧
    Γ.origins[d]? = some (.receiver c.routine) ∧ Γ.origins[d + 1]? = some (.superclass c.klass)
  called : ∃ l xs j, h.Performs deeds l (.callBound c.method c.receiver xs) j ∧
    j.heap.function c.method = .ok (c.routine,some c.closure) ∧
    k.heap.ancestor k.current d = .ok ⟨j.heap.cells.size⟩
  declared : ∃ l rs j, h.Performs deeds l (.declareClass c.klass (some c.superclass) rs) j ∧
    c.closure = ⟨j.heap.cells.size⟩ ∧ k.heap.ancestor k.current (d + 1 : Nat) = .ok c.closure
  /-- Any class that has the method inherits from the superclass. -/
  own {m r superclass methods} : h.Meets deeds m → m.heap.isRegistered r →
    m.heap.IsClass r superclass methods → c.method ∈ methods.values → superclass = some c.superclass

theorem Task.opens_receiver {u : Task} {k : Machine} {r : Routine} (opens : u.opens k = some (.receiver r)) :
    ∃ f receiver xs closure, u = .callBound f receiver xs ∧ k.heap.function f = .ok (r,closure) := by
  cases u with
  | callBound f receiver xs =>
    simp only [Task.opens] at opens
    obtain ⟨⟨routine,closure⟩,found,same⟩ := Option.map_eq_some_iff.mp opens
    cases same
    refine ⟨f,receiver,xs,closure,rfl,?_⟩
    cases read : k.heap.function f with
    | ok p =>
      rw [read] at found
      exact congrArg _ (Option.some.inj found)
    | error e =>
      rw [read] at found
      cases found
  | execute s => cases s <;> cases opens
  | declareClass _ superclass _ => cases superclass <;> cases opens
  | _ => cases opens

theorem Task.opens_superclass {u : Task} {k : Machine} {name : Name}
    (opens : u.opens k = some (.superclass name)) : ∃ c rs, u = .declareClass name (some c) rs := by
  cases u with
  | declareClass _ superclass rs =>
    cases superclass with
    | none => cases opens
    | some c =>
      cases opens
      exact ⟨c,rs,rfl⟩
  | callBound f =>
    simp only [Task.opens] at opens
    obtain ⟨_,_,same⟩ := Option.map_eq_some_iff.mp opens
    cases same
  | execute s => cases s <;> cases opens
  | _ => cases opens

theorem Entry.inherits_of_mem_sites {a : Entry} {x : Site} (hx : x ∈ a.sites) : x.1.Inherits := by
  obtain ⟨p,named,hx⟩ := Entry.named_of_mem_sites hx
  exact Program.inherits_of_mem_sites named x hx

theorem Heap.lookupAt_eq_ok {h : Heap Value} {r : Ref} {d : Int} {name : String} {x : Value}
    (found : h.lookupAt r d name = .ok x) : ∃ e values outer, h.ancestor r d = .ok e ∧
      h.environment e = .ok (values,outer) ∧ values.get? name = some x := by
  simp only [Heap.lookupAt,Bind.bind,Except.bind] at found
  cases walked : h.ancestor r d with
  | error f =>
    rw [walked] at found
    cases found
  | ok e =>
    rw [walked] at found
    cases read : h.environment e with
    | error f =>
      simp only [read] at found
      cases found
    | ok p =>
      obtain ⟨values,outer⟩ := p
      simp only [read] at found
      refine ⟨e,values,outer,rfl,read,?_⟩
      split at found
      · cases found
        assumption
      · cases found

section
variable {settings : Settings} {clock : Float} {s : Session} {deeds : List Deed} {l : Nat} {k : Machine}
  (start : Session.start settings clock = .ok s)
include start

theorem concurs_of_meets {m : Machine} (first : Host.Meets ⟨s,[]⟩ deeds k)
    (second : Host.Meets ⟨s,[]⟩ deeds m) : k.heap.Concurs m.heap :=
  ((Host.proper_start start).comparable first second).elim Lasts.concurs fun lasts => lasts.concurs.symm

/-- A class that has a method inherits from what `super` is bound to where the method has been made. -/
theorem superclass_of_meets {j m : Machine} {f closure K : Ref} {r : Routine} {values : Bindings Value}
    {methods : Bindings Ref} {outer superclass : Option Ref} (called : Host.Meets ⟨s,[]⟩ deeds j)
    (function : j.heap.function f = .ok (r,some closure)) (met : Host.Meets ⟨s,[]⟩ deeds k)
    (found : k.heap.environment closure = .ok (values,outer)) (meets : Host.Meets ⟨s,[]⟩ deeds m)
    (owned : m.heap.isRegistered K) (klass : m.heap.IsClass K superclass methods) (hf : f ∈ methods.values) :
    values.get? "super" = superclass.map .object := by
  have dispatches : m.Dispatches :=
    dispatches ((Host.proper_start start).meets meets).classed (Host.closed_of_meets start meets)
  obtain ⟨_,_,_,_,function',environment,binds⟩ := dispatches.methods owned klass hf
  cases (concurs_of_meets start called meets).function function function'
  rw [← binds,((concurs_of_meets start met meets).super found environment).2]

/-- A use of `super` that is evaluated stands in the text of a method that has been called, and reads what
the call and the declaration of the class have bound. -/
theorem around_super {pos : Pos} {method : Name} {depth : Option Nat}
    (performs : Host.Performs ⟨s,[]⟩ deeds l (.evaluate (.super pos method depth)) k) :
    ∃ (d : Nat) (c : MethodCall), depth = some (d + 1) ∧
      c.Around ⟨s,[]⟩ deeds k (.super pos method depth) d ∧
      k.heap.lookupAt k.current (d + 1 : Nat) "super" = .ok (.object c.superclass) ∧
      k.heap.lookupAt k.current d "this" = .ok (.object c.receiver) := by
  have proper := Host.proper_start start
  obtain ⟨⟨W,Γ,fits,pair⟩,safe⟩ := Host.ready_of_start start performs
  obtain ⟨a,ha,⟨Δ,_⟩,hx,same,rfl⟩ := Expr.Fits.used fits (Option.some_ne_none _)
  have sec := safe.secure
  have owned := sec.owned k.current (mem_roots.mpr (.inr (.inl rfl)))
  have reads := Expr.Fits.reads fits pair.heaps sec.closed pair.here owned
  obtain ⟨-,d,rfl,-,-⟩ := fits
  -- The site stands within a method of a class with a superclass.
  have found : some (d + 1) = Δ.scopes.depth? "super" := Entry.depth_of_mem_sites hx rfl
  obtain ⟨_,r,name,⟨⟩,receiver,klass⟩ := Entry.inherits_of_mem_sites hx _ found.symm
  dsimp only at same receiver klass
  have at_depth : ∀ {i : Nat} {o}, Δ.origins[i]? = some o → (Copying.chainOrigins Γ)[i]? = some o := by
    intro i o at_depth
    rw [same] at at_depth
    rw [Copying.chainOrigins,List.getElem?_append_left (List.getElem?_eq_some_iff.mp at_depth).1,at_depth]
  obtain ⟨inner,walked,l₀,u₀,k₀,called,starts,opens,rfl⟩ :=
    Copying.ancestor_made pair.heaps sec.closed pair.here owned (at_depth receiver)
  obtain ⟨outer,walked',l₁,u₁,k₁,declared,-,opens',rfl⟩ :=
    Copying.ancestor_made pair.heaps sec.closed pair.here owned (at_depth klass)
  obtain ⟨f,x,xs,closure,rfl,function⟩ := Task.opens_receiver opens
  obtain ⟨c,rs,rfl⟩ := Task.opens_superclass opens'
  obtain ⟨_,super⟩ := reads ("super",(d + 1 : Nat)) (List.mem_cons_self)
  obtain ⟨_,this⟩ := reads ("this",(d + 1 : Nat) - 1) (List.mem_cons_of_mem _ (List.mem_singleton_self _))
  rw [show ((d + 1 : Nat) : Int) - 1 = d by omega] at this
  obtain ⟨_,values,out,walked₀,found₀,got₀⟩ := Heap.lookupAt_eq_ok this
  obtain ⟨_,values',out',walked₁,found₁,got₁⟩ := Heap.lookupAt_eq_ok super
  cases walked.symm.trans walked₀
  cases walked'.symm.trans walked₁
  have course := (proper.after deeds).1
  have quiet : ∀ {n w o}, ¬Asks (fun E => (Task.evaluate (.super pos method (some (d + 1)))).perform E k)
      (evaluator n) w o := by
    intro n w o asks
    cases gives_of_asks asks
  -- The environment of the call binds `this` to the receiver, and stands in that of the declaration.
  obtain ⟨n,rfl⟩ : ∃ n, l₀ = n + 1 := Nat.exists_eq_succ_of_ne_zero (Nat.ne_of_gt starts)
  obtain ⟨g,binding,makes⟩ := makes_callBound n x xs function
    (course.proper called).1.ordinary
  obtain ⟨rfl,bound⟩ := proper.found_of_makes binding (by simp [Ordinary]) makes called performs
    (by rintro ⟨⟩) quiet found₀
  obtain ⟨_,_,walked₂,found₂⟩ := Heap.ancestor_succ walked'
  cases walked.symm.trans walked₂
  cases found₀.symm.trans found₂
  obtain rfl := bound _ got₀
  -- The environment of the declaration binds `super` to the superclass.
  obtain ⟨g',binding',makes'⟩ := makes_declareClass l₁ c rs k₁
    (course.placed declared).1.1
  obtain ⟨rfl,bound'⟩ := proper.found_of_makes binding' (by simp [Ordinary]) makes' declared performs
    (by rintro ⟨⟩) quiet found₁
  obtain rfl := bound' _ got₁
  refine ⟨d,⟨f,r,x,⟨k₁.heap.cells.size⟩,name,c⟩,rfl,⟨⟨a,ha,Δ,hx,receiver,klass⟩,
    ⟨_,xs,k₀,called,function,walked⟩,⟨_,rs,k₁,declared,rfl,walked'⟩,?_⟩,super,this⟩
  intro m K superclass methods meets owned klass hf
  have same := superclass_of_meets start (.start called) function (.start performs) found₁ meets owned klass hf
  rw [got₁] at same
  cases superclass with
  | none => cases same
  | some b =>
    cases same
    rfl

/-- What a use of `super` gives: the method of the nearest class from the superclass on, bound to the
receiver. -/
theorem evaluate_super_of_performs {pos : Pos} {method : Name} {d : Nat} {c receiver : Ref}
    (performs : Host.Performs ⟨s,[]⟩ deeds l (.evaluate (.super pos method (some (d + 1)))) k)
    (super : k.heap.lookupAt k.current (d + 1 : Nat) "super" = .ok (.object c))
    (this : k.heap.lookupAt k.current d "this" = .ok (.object receiver)) :
    ∃ cs, k.heap.Lineage c cs ∧ (evaluate l (.super pos method (some (d + 1))) k = .error .cut k ∨
      ∃ m, m.heap = k.heap ∧ evaluate l (.super pos method (some (d + 1))) k =
        boundMethod receiver method (cs.findSome? (k.heap.methodOf · method.text)) m) := by
  have classed := ((Host.proper_start start).meets (.start performs)).classed
  have sec := (Host.ready_of_start start performs).2.secure
  have owned := sec.owned k.current (mem_roots.mpr (.inr (.inl rfl)))
  obtain ⟨e,values,outer,walked,found,bound⟩ := Heap.lookupAt_eq_ok super
  have base := (sec.closed.of_environment (sec.closed.hop owned walked) found).2 _ c bound
  obtain ⟨cell,hc,live,object⟩ := Heap.environment_eq_ok found
  have linked := classed e.index cell hc live
  rw [object] at linked
  obtain ⟨_,⟨⟩,kind⟩ := linked.1 _ bound
  obtain ⟨cs,lineage,-⟩ := classed.lineage sec.closed base kind
  refine ⟨cs,lineage,?_⟩
  cases l with
  | zero => exact .inl rfl
  | succ n =>
    cases left : k.steps with
    | zero => exact .inl (perform_evaluate_of_no_steps (evaluator n) _ left)
    | succ steps =>
      obtain ⟨log,traced⟩ := trace_eq .verbose (fun _ => "eval_node: " ++
        (Expr.super pos method (some (d + 1))).nodeName) { k with steps }
      refine .inr ⟨{ k with steps, log },rfl,?_⟩
      have read : readSuper pos method (some (d + 1)) { k with steps, log } = _ := readSuper_eq kind super this
        (classed.findMethod lineage method.text)
      rw [← read]
      simp only [evaluate,Bind.bind,EStateM.bind,tick,left,traceNode,traced]

end

/-- Dispatch follows the text of the classes: in every state that a host reaches, each chain of
superclasses ends, a method stands in an environment of its class's superclass, and a property is the field
or the method of the nearest class. What is told of classes never changes. A use of `super` stands in a
method that has been called, and looks its name up from the superclass of that method's class. -/
theorem dispatch_follows_text (settings : Settings) (clock : Float) (deeds : List Deed) {s : Session}
    (start : Session.start settings clock = .ok s) :
    (∀ m, Host.Meets ⟨s,[]⟩ deeds m → m.Dispatches) ∧
      (∀ j k, Host.Meets ⟨s,[]⟩ deeds j → Host.Meets ⟨s,[]⟩ deeds k → j.heap.Concurs k.heap) ∧
      (∀ l e k x m, Host.Performs ⟨s,[]⟩ deeds l (.evaluate e) k → evaluate l e k = .ok x m →
        ∀ r ∈ Holder.refs x, m.heap.isRegistered r) ∧
      ∀ l pos method depth k,
        Host.Performs ⟨s,[]⟩ deeds l (.evaluate (.super pos method depth)) k →
        ∃ (d : Nat) (c : MethodCall), depth = some (d + 1) ∧
          c.Around ⟨s,[]⟩ deeds k (.super pos method depth) d ∧
          ∃ cs, k.heap.Lineage c.superclass cs ∧ (evaluate l (.super pos method depth) k = .error .cut k ∨
            ∃ m, m.heap = k.heap ∧ evaluate l (.super pos method depth) k =
              boundMethod c.receiver method (cs.findSome? (k.heap.methodOf · method.text)) m) := by
  refine ⟨fun m meets => ?_,fun j k => concurs_of_meets start,fun l e k x m performs answer => ?_,
    fun l pos method depth k performs => ?_⟩
  · exact dispatches ((Host.proper_start start).meets meets).classed (Host.closed_of_meets start meets)
  · exact (Host.ready_of_start start performs).2.owned answer
  · obtain ⟨d,c,rfl,around,super,this⟩ := around_super start performs
    exact ⟨d,c,rfl,around,evaluate_super_of_performs start performs super this⟩

/-- A class that overrides a method and calls the overridden one from a function nested in it. The name of
its superclass is bound anew before that. -/
def overriding : Entry :=
  ⟨"class A \x7b m() \x7b return \"A\"; \x7d \x7d
class B < A \x7b m() \x7b fun f() \x7b return super.m(); \x7d return f(); \x7d \x7d
class C < B \x7b \x7d var A = nil; print C().m();","a.lox",90⟩

theorem dispatch_follows_text_overriding : ∃ s, Session.start {} 0 = .ok s ∧
    (Host.act ⟨s,[]⟩ (.run 0 overriding)).1 = some (.result {},"A\n") ∧
    let deeds : List Deed := [.run 0 overriding,.make,.collect,.runIn 0 1 overriding]
    (∀ m, Host.Meets ⟨s,[]⟩ deeds m → m.Dispatches) ∧
      ∀ l pos method depth k, Host.Performs ⟨s,[]⟩ deeds l (.evaluate (.super pos method depth)) k →
        ∃ d c, depth = some (d + 1) ∧
          MethodCall.Around c ⟨s,[]⟩ deeds k (.super pos method depth) d := by
  obtain ⟨s,start,-⟩ := finite_of_staysFinite {} [] (by decide +kernel)
  have printed : (Session.start {} 0).toOption.map (fun s => (Host.act ⟨s,[]⟩ (.run 0 overriding)).1) =
      some (some (.result {},"A\n")) := by decide +kernel
  rw [start] at printed
  obtain ⟨met,-,-,used⟩ :=
    dispatch_follows_text {} 0 [.run 0 overriding,.make,.collect,.runIn 0 1 overriding] start
  refine ⟨s,start,Option.some.inj printed,met,fun l pos method depth k performs => ?_⟩
  obtain ⟨d,c,same,around,-⟩ := used l pos method depth k performs
  exact ⟨d,c,same,around⟩

end Lox
