import Lox.Proofs.Eval.Calls
import Lox.Proofs.Session.Along
import Lox.Proofs.Session.Dispatch

/-! # Calls

Whatever a host runs, a routine is invoked on as many arguments as it has parameters, a call is refused for
what its callee is and for nothing else, and a class call that comes to an end returns its own instance.
-/
namespace Lox
open Machine Exec

/-! ## Calls of a host -/

section
variable {settings : Settings} {clock : Float} {s : Session} {deeds : List Deed} {l : Nat} {k : Machine}
  (start : Session.start settings clock = .ok s)
include start

/-- When its arguments have been evaluated, a callee can tell how many it takes. -/
theorem arity_of_performs {n : Nat} {callee : Expr} {paren : Pos} {args : List Expr}
    (performs : Host.Performs ⟨s,[]⟩ deeds (n + 1) (.evaluate (.call callee paren args)) k) {i o j : Machine}
    {f : Value} {xs : List Value} (calling : Calling callee paren args k i)
    (evaluated : evaluate n callee i = .ok f o)
    (all : evaluateAll n args { o with temps := f :: o.temps } = .ok xs j) (callable : f.isCallable j.heap) :
    ∃ arity, f.arity j.heap = .ok arity := by
  cases n with
  | zero => cases evaluated
  | succ n =>
    have history := Host.history ⟨s,[]⟩ deeds
    have first := performs.asks calling.asks_callee
    have second := performs.asks (calling.asks_arguments evaluated)
    obtain ⟨⟨W,Γ,⟨fits,fit⟩,pair⟩,-⟩ := Host.ready_of_start start performs
    obtain ⟨steps,log,rfl⟩ := calling.eq
    -- The callee is a value that a program can have, and so it is when the arguments have been evaluated.
    obtain ⟨V,_,-,⟨holds,-⟩,pair⟩ := history.answered first fits
      { pair with steps_eq := rfl, log_eq := fun _ => rfl } evaluated
    obtain ⟨U,_,up,-,pair⟩ := history.answered second fit
      { pair with temps_eq := by rw [Copying.value_known,List.map_id] } all
    refine Copying.arity_of_holds pair.heaps (up.holds holds) callable ?_
    rintro c rfl kind
    have answered : evaluator (n + 1) (.evaluateAll args) { o with temps := .object c :: o.temps } = _ := all
    have meets := Host.Meets.ending second
    have secure := (Host.ready_of_start start second).2.after
    have carries := ((balanced (n + 1)).evaluateAll args).ok answered
    rw [Task.after,answered] at meets
    rw [answered] at secure
    have rooted : c ∈ j.roots := carries.rooted (rooted_of_mem List.mem_cons_self) c (List.mem_singleton_self c)
    obtain ⟨cs,lineage,-⟩ := ((Host.proper_start start).meets meets).classed.lineage secure.closed
      (secure.owned c rooted) kind
    exact ⟨_,((Host.proper_start start).meets meets).classed.findMethod lineage "init"⟩

end

/-- A routine is invoked on as many arguments as it has parameters, and its body is run where each of these is
bound to the argument in its place. A call whose callee and arguments have been evaluated, in this order, is
refused before anything is allocated for it if its callee cannot be called, takes another number of arguments
or would nest too deep, and is made in all other cases. A class call that comes to an end returns an instance
of the class in a slot that no object has had, on which the initializer, if there is one, has been called. -/
theorem calls_bind_and_construct (settings : Settings) (clock : Float) (deeds : List Deed) {s : Session}
    (start : Session.start settings clock = .ok s) :
    (∀ l r closure xs k, Host.Performs ⟨s,[]⟩ deeds l (.invoke r closure xs) k →
      xs.length = r.params.length ∧
        ∀ n u j, l = n + 1 → Asks (fun E => (Task.invoke r closure xs).perform E k) (evaluator n) u j →
          u = .executeAll r.body ∧
            j.heap.environment j.current = .ok (⟨(r.params.map (·.text)).zip xs⟩,closure)) ∧
      (∀ n callee paren args k,
        Host.Performs ⟨s,[]⟩ deeds (n + 1) (.evaluate (.call callee paren args)) k →
        CallEnds n callee paren args k (evaluate (n + 1) (.call callee paren args) k)) ∧
      ∀ n c xs k x j, Host.Performs ⟨s,[]⟩ deeds (n + 1) (.instantiate c xs) k →
        instantiate (n + 1) c xs k = .ok x j → ∃ r, x = .object r ∧ Constructed n c xs k r j := by
  have proper := Host.proper_start start
  have machine := Session.machine_of_start start
  refine ⟨fun l r closure xs k performs => ?_,fun n callee paren args k performs => ?_,
    fun n c xs k x j performs done => ?_⟩
  · obtain ⟨⟨W,Γ,⟨_,_,-,-,-,arity,-⟩,-⟩,safe⟩ := Host.ready_of_start start performs
    refine ⟨arity.symm,?_⟩
    rintro n u j rfl asks
    have flawless := (lasting_flawless.performs (lasting_flawless.start machine) performs).1
    exact environment_of_asks safe flawless arity.symm asks
  · exact callEnds fun _ _ _ _ _ calling evaluated all callable =>
      arity_of_performs start performs calling evaluated all callable
  · have safe := (Host.ready_of_start start performs).2
    have placed := ((proper.after deeds).1.placed performs).2.1
    have slotted := performs.grows.slots.slotted ((grows_start machine).slots.slotted fun r n given => by
      simp [blank,Heap.slotOf] at given)
    exact constructed safe (proper.meets (.start performs)) placed slotted done

/-- A class that inherits its initializer, which binds two parameters and returns on its own. -/
def inheriting : Entry :=
  ⟨"class A \x7b init(a, b) \x7b this.sum = a + b; return; \x7d \x7d class B < A \x7b \x7d
print B(1, 2).sum;","a.lox",60⟩

theorem calls_bind_and_construct_inheriting : ∃ s, Session.start {} 0 = .ok s ∧
    (Host.act ⟨s,[]⟩ (.run 0 inheriting)).1 = some (.result {},"3\n") ∧
    let deeds : List Deed := [.run 0 inheriting,.make,.collect,.runIn 0 1 inheriting]
    (∀ l r closure xs k, Host.Performs ⟨s,[]⟩ deeds l (.invoke r closure xs) k →
      xs.length = r.params.length) ∧
      ∀ n c xs k x j, Host.Performs ⟨s,[]⟩ deeds (n + 1) (.instantiate c xs) k →
        instantiate (n + 1) c xs k = .ok x j → ∃ r, x = .object r ∧ Constructed n c xs k r j := by
  obtain ⟨s,start⟩ : ∃ s, Session.start {} 0 = .ok s := ⟨_,rfl⟩
  have printed : (Session.start {} 0).toOption.map (fun s => (Host.act ⟨s,[]⟩ (.run 0 inheriting)).1) =
      some (some (.result {},"3\n")) := by decide +kernel
  rw [start] at printed
  obtain ⟨bound,-,made⟩ :=
    calls_bind_and_construct {} 0 [.run 0 inheriting,.make,.collect,.runIn 0 1 inheriting] start
  exact ⟨s,start,Option.some.inj printed,fun l r closure xs k performs => (bound l r closure xs k performs).1,made⟩

end Lox
