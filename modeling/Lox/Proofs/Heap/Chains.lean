import Lox.Heap.Reach
import Lox.Proofs.Heap.Copying

/-! # Chains of environments

An environment that provides a context is the first of a chain that has one environment for each
scope and ends with the globals. In a closed heap no environment of the chain has been released, so
that every depth that the context has leads somewhere.
-/
namespace Lox
open Heap

namespace Copying
variable {C : Copying} {W : World} {h g : Heap Value}

/-- What is asked for of the environments of a chain, from one that provides a context. -/
def chainOrigins (Γ : Context) : List Origin := Γ.origins ++ [.world]

section
variable (held : C.heaps W h g)
include held

theorem live_of_isRegistered {r : Ref} {R : Role} (role : W r = some R) (owned : h.isRegistered r) :
    ∃ c, h.live r = .ok c ∧ h.cells[r.index]? = some c ∧ C.Content W r R c.object := by
  obtain ⟨c,d,hc,-,copied⟩ := C.cell held role
  have live : c.freed = false := by
    simp only [isRegistered,hc,Option.map_some,Option.getD_some,Cell.isRegistered] at owned
    simpa using (Bool.and_eq_true_iff.mp owned).2
  refine ⟨c,?_,hc,copied.content live⟩
  simp only [Heap.live,hc,live,Bool.false_eq_true,if_false]

theorem environment_eq {e : Ref} {f : Frame} (role : W e = some (.environment f))
    (owned : h.isRegistered e) : ∃ values, h.environment e = .ok (values,f.parent) ∧
      (∀ n ∈ f.names, values.contains n) ∧ C.made e f.origin ∧
      ∀ s ∈ f.parent, s ∈ h.referencesOf e := by
  obtain ⟨c,live,hc,content⟩ := live_of_isRegistered held role owned
  simp only [Heap.environment,live,Bind.bind,Except.bind,referencesOf,hc,Option.map_some,
    Option.getD_some]
  generalize c.object = o at content
  cases content with
  | environment binds _ _ made =>
    refine ⟨_,rfl,binds,made,fun s hs => ?_⟩
    simp [Object.references,Option.mem_def.mp hs]

/-- Every hop of a chain leads to an environment of what the context asks for. -/
theorem hop_eq (closed : h.Closed) {e : Ref} {Γ : Context} (provides : W.Provides e Γ)
    (owned : h.isRegistered e) (distance : Int) {d : Nat} (reaches : d ≤ Γ.length) :
    ∃ a, h.hop distance d e = .ok a ∧ W.Provides a (Γ.drop d) ∧ h.isRegistered a := by
  induction d generalizing e Γ with
  | zero =>
    obtain ⟨f,role⟩ := provides.isEnvironment
    obtain ⟨c,live,-⟩ := live_of_isRegistered held role owned
    exact ⟨e,by simp only [hop,live]; rfl,provides,owned⟩
  | succ d ih =>
    cases Γ with
    | nil => exact absurd reaches (Nat.not_succ_le_zero d)
    | cons layer Γ =>
      obtain ⟨f,outer,role,-,-,parent,provides⟩ := provides
      obtain ⟨values,found,-,-,refs⟩ := environment_eq held role owned
      have owned := closed e owned outer (refs outer parent)
      obtain ⟨a,e,rest⟩ := ih provides owned (Nat.le_of_succ_le_succ reaches)
      refine ⟨a,?_,rest⟩
      simp only [hop,found,parent,Bind.bind,Except.bind]
      exact e

theorem made_of_provides {e : Ref} {Γ : Context} (provides : W.Provides e Γ)
    (owned : h.isRegistered e) {o : Origin} (first : (chainOrigins Γ)[0]? = some o) :
    C.made e o := by
  cases Γ with
  | nil =>
    obtain ⟨f,role,origin⟩ := provides
    obtain ⟨-,-,-,made,-⟩ := environment_eq held role owned
    cases first
    exact origin ▸ made
  | cons layer Γ =>
    obtain ⟨f,-,role,origin,-⟩ := provides
    obtain ⟨-,-,-,made,-⟩ := environment_eq held role owned
    cases first
    show C.made e layer.origin
    exact origin ▸ made

/-- The environments of a chain have been made for what the context asks for. -/
theorem ancestor_made (closed : h.Closed) {e : Ref} {Γ : Context} (provides : W.Provides e Γ)
    (owned : h.isRegistered e) {d : Nat} {o : Origin} (at_depth : (chainOrigins Γ)[d]? = some o) :
    ∃ a, h.ancestor e d = .ok a ∧ C.made a o := by
  have reaches : d ≤ Γ.length := by
    have lt := (List.getElem?_eq_some_iff.mp at_depth).1
    simpa [chainOrigins,Context.origins,Nat.lt_succ_iff] using lt
  obtain ⟨a,found,provides,owned⟩ := hop_eq held closed provides owned d reaches
  refine ⟨a,found,made_of_provides held provides owned ?_⟩
  have split : chainOrigins (Γ.drop d) = (chainOrigins Γ).drop d := by
    simp only [chainOrigins,Context.origins,List.map_drop]
    rw [List.drop_append_of_le_length (by simpa using reaches)]
  rw [split,List.getElem?_drop,Nat.add_zero]
  exact at_depth

/-- A name that a scope of the context holds is bound in its environment. -/
theorem lookupAt_eq (closed : h.Closed) {e : Ref} {Γ : Context} (provides : W.Provides e Γ)
    (owned : h.isRegistered e) {d : Nat} {name : String} (binds : Γ.Binds (some d) name) :
    ∃ x, h.lookupAt e d name = .ok x := by
  obtain ⟨layer,at_depth,bound⟩ := binds d rfl
  obtain ⟨lt,rfl⟩ := List.getElem?_eq_some_iff.mp at_depth
  obtain ⟨a,found,provides,owned⟩ := hop_eq held closed provides owned d (Nat.le_of_lt lt)
  rw [List.drop_eq_getElem_cons lt] at provides
  obtain ⟨f,-,role,-,sub,-⟩ := provides
  obtain ⟨values,inside,binds,-⟩ := environment_eq held role owned
  have present := binds name (sub bound)
  obtain ⟨x,hx⟩ := Option.isSome_iff_exists.mp present
  have found : h.ancestor e d = .ok a := found
  exact ⟨x,by simp only [Heap.lookupAt,found,inside,hx,Bind.bind,Except.bind]; rfl⟩

end

end Copying

end Lox
