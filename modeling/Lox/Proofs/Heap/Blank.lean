import Lox.Proofs.Heap.Selfsame

/-! # Environments in waiting

A host makes an environment before it runs a program in it. Until then the heap does not own the
environment, and neither programs nor collections do anything to it. So any comparison of secure heaps
is also one of heaps in which the same environments wait.
-/
namespace Lox

/-- An environment as a host makes it. -/
abbrev Cell.fresh : Cell Value := { object := .environment {} none }

namespace Heap
variable {h : Heap Value} {roots F : List Ref} {r s : Ref} {c : Cell Value}

theorem Secure.fresh {K : List Ref} (sec : Secure K h) (sub : ∀ s ∈ roots, s ∈ K) :
    Secure (roots ++ (Cell.fresh.object).references) h :=
  sec.less fun s hs => sub s (by simpa [Object.references,Bindings.values] using hs)

/-- Environments that no program has been run in are as they have been made. -/
def Blank (F : List Ref) (h : Heap Value) : Prop := ∀ r ∈ F, h.cells[r.index]? = some .fresh

namespace Blank
variable (blank : Blank F h)
include blank

theorem less {G : List Ref} (sub : ∀ r ∈ G, r ∈ F) : Blank G h := fun r hr => blank r (sub r hr)

theorem not_registered (hr : r ∈ F) : ¬h.isRegistered r := by
  simp [isRegistered,blank r hr,Cell.isRegistered]

/-- A change of one cell that does not wait. -/
theorem modify (free : s ∉ F) {k : Heap Value} (f : Cell Value → Cell Value)
    (cells : k.cells = h.cells.modify s.index f) : Blank F k := by
  intro r hr
  rw [cells,Array.getElem?_modify,if_neg,blank r hr]
  rintro same
  exact free (show s = r by cases s; cases r; cases same; rfl ▸ hr)

theorem setObject (owned : h.isRegistered s) (o : Object Value) : Blank F (h.setObject s o) :=
  blank.modify (fun hs => blank.not_registered hs owned) (fun c => { c with object := o }) rfl

theorem enroll (free : s ∉ F) : Blank F (h.enroll s) :=
  blank.modify free (fun c => { c with slot := some h.nextSlot }) rfl

theorem create (o : Object Value) : Blank F (stateAfter (Heap.create o h)) := by
  intro r hr
  have inside := (Array.getElem?_eq_some_iff.mp (blank r hr)).1
  simp only [stateAfter,Heap.create,Array.getElem?_push]
  rw [if_neg (by omega),blank r hr]

theorem not_mem_size : (⟨h.cells.size⟩ : Ref) ∉ F := fun hr => by
  have cell := blank _ hr
  simp at cell

theorem collect (sec : Secure roots h) : Blank F (stateAfter (Heap.collect roots h)) := fun r hr =>
  sec.coherent.getElem?_collect_new roots (blank r hr) rfl

theorem register (free : s ∉ F) (cell : h.cells[s.index]? = some c)
    (sec : Secure (roots ++ c.object.references) h) : Blank F (stateAfter (Heap.register s roots h)) := by
  have collected := blank.collect sec
  have ends := registers s roots h
  generalize Heap.register s roots h = x at ends ⊢
  cases ends with
  | missing | again => exact blank
  | spare => exact blank.enroll free
  | collected same _ _ done =>
    cases same.symm.trans cell
    rw [done] at collected
    exact collected.enroll free
  | broken same _ _ failed =>
    cases same.symm.trans cell
    rwa [failed] at collected

/-- A registration that fails has collected and done nothing else. -/
theorem register_error (cell : h.cells[s.index]? = some c) (new : c.slot = none)
    (sec : Secure (roots ++ c.object.references) h) {f : Failure} {k : Heap Value}
    (failed : Heap.register s roots h = .error f k) : Blank F k := by
  have collected := blank.collect sec
  rwa [(collect_of_register_error cell new failed).2] at collected

theorem place {o : Object Value} (sec : Secure (roots ++ o.references) h) :
    Blank F (stateAfter (Heap.place o roots h)) := by
  have cell : (h.cells.push { object := o })[h.cells.size]? = some { object := o } := by simp
  have registered := (blank.create o).register (s := ⟨h.cells.size⟩) (c := { object := o })
    blank.not_mem_size cell (sec.create o)
  rw [place_eq]
  simp only [stateAfter,Heap.create] at registered
  split <;> next e => rw [e] at registered; exact registered

end Blank
end Heap

namespace Comparison
open Heap

/-- What a host asks of a comparison: both heaps are secure and of one size, and a new environment can
be made and, later on, registered. -/
structure Hosts (C : Comparison) : Prop where
  secure {K h g} : C.heaps K h g → Secure K h ∧ Secure K g
  size {K h g} : C.heaps K h g → g.cells.size = h.cells.size
  create {K h g} (o : Object Value) : C.heaps K h g →
    C.heaps K (stateAfter (Heap.create o h)) (stateAfter (Heap.create o g))
  enroll {K roots h g r} : C.heaps K h g → (∀ s ∈ roots, s ∈ K) → h.cells[r.index]? = some .fresh →
    g.cells[r.index]? = some .fresh →
    (∃ n h' g', register r roots h = .ok n h' ∧ register r roots g = .ok n g' ∧
      C.heaps (r :: roots) h' g') ∨
    (∃ f h' g', register r roots h = .error f h' ∧ register r roots g = .error f g' ∧
      (C.safe → f.isMemory = false) ∧ C.heaps roots h' g') ∨
    C.lax ∧ (Heap.Spoiled (register r roots h) ∨ Heap.Spoiled (register r roots g))

variable {C : Comparison} (hosts : C.Hosts) (F : List Ref)

/-- Heaps that compare and in which the same environments wait. -/
def Hosts.amid : Comparison where
  pos := C.pos
  heaps K h g := C.heaps K h g ∧ Blank F h ∧ Blank F g
  safe := C.safe
  lax := C.lax
  refl := C.refl
  less held sub := ⟨C.less held.1 sub,held.2⟩
  cell held hr := C.cell held.1 hr
  live safe held hr := C.live safe held.1 hr
  follow held hr := ⟨C.follow held.1 hr,held.2⟩
  write := by
    rintro K h g r o p ⟨held,left,right⟩ hr like ho
    obtain ⟨sec,sec'⟩ := hosts.secure held
    exact ⟨C.write held hr like ho,left.setObject (sec.owned r hr) o,right.setObject (sec'.owned r hr) p⟩
  flush held := ⟨C.flush held.1,held.2⟩
  place := by
    rintro K roots h g o p ⟨held,left,right⟩ like ho hroots
    obtain ⟨sec,sec'⟩ := hosts.secure held
    have sub : ∀ s ∈ roots ++ o.references, s ∈ K := fun s hs =>
      (List.mem_append.mp hs).elim (hroots s) (ho s)
    have left := left.place (sec.less sub)
    have right := right.place (sec'.less (like.references ▸ sub))
    rcases C.place held like ho hroots with ⟨r,h',g',e,e',held⟩ | ⟨f,h',g',e,e',safe,held⟩ | spoiled
    · rw [e] at left
      rw [e'] at right
      exact .inl ⟨r,h',g',e,e',held,left,right⟩
    · rw [e] at left
      rw [e'] at right
      exact .inr (.inl ⟨f,h',g',e,e',safe,held,left,right⟩)
    · exact .inr (.inr spoiled)

end Comparison

namespace Heap

theorem hosts_selfsame : selfsame.Hosts where
  secure := fun ⟨same,sec⟩ => ⟨sec,same ▸ sec⟩
  size := fun ⟨same,_⟩ => by rw [same]
  create o := fun ⟨same,sec⟩ => ⟨by rw [same],sec.create o⟩
  enroll := by
    rintro K roots h g r ⟨rfl,sec⟩ sub cell -
    have sec := sec.fresh sub
    cases e : Heap.register r roots g with
    | ok n k =>
      rcases sec.register cell rfl with ⟨k',e',enrolled⟩ | spoiled
      · rw [e] at e'
        cases e'
        exact .inl ⟨_,k,k,rfl,rfl,rfl,enrolled.secure⟩
      · rw [e] at spoiled
        exact spoiled.elim
    | error f k =>
      obtain ⟨harmless,kept⟩ := sec.register_error cell rfl e
      exact .inr (.inl ⟨f,k,k,rfl,rfl,fun _ => harmless,rfl,kept⟩)

theorem hosts_agreement (P : Pos → Pos → Prop) (refl : ∀ p, P p p) : (agreement P refl).Hosts where
  secure agree := ⟨agree.left,agree.right⟩
  size agree := agree.size
  create {K h g} o agree := by
    refine ⟨agree.left.create o,agree.right.create o,?_,agree.nextSlot,fun r hr hr' => ?_⟩
    · simp only [stateAfter,Heap.create,Array.size_push,agree.size]
    · have old : h.isRegistered r := (isRegistered_push h o r).symm.trans hr
      have old' : g.isRegistered r := (isRegistered_push g o r).symm.trans hr'
      simp only [stateAfter,Heap.create]
      rw [getElem?_push_of_isRegistered o old,getElem?_push_of_isRegistered o old']
      exact agree.cells r old old'
  enroll := by
    intro K roots h g r agree sub left right
    rcases (agree.left.fresh sub).register left rfl with ⟨h',e,kept⟩ | spoiled
    · rcases (agree.right.fresh sub).register right rfl with ⟨g',e',kept'⟩ | spoiled
      · refine .inl ⟨_,h',g',e,agree.nextSlot ▸ e',kept.secure,kept'.secure,?_,?_,fun s hs hs' => ?_⟩
        · rw [kept.size,kept'.size,agree.size]
        · rw [kept.nextSlot,kept'.nextSlot,agree.nextSlot]
        · by_cases same : s = r
          · subst same
            rw [kept.cell,kept'.cell]
            exact .some ⟨.same _,congrArg some agree.nextSlot,rfl⟩
          · obtain ⟨old,left⟩ := kept.others s hs same
            obtain ⟨old',right⟩ := kept'.others s hs' same
            exact alike_of_untouched (agree.cells s old old') left right
      · exact .inr (.inr ⟨trivial,.inr spoiled⟩)
    · exact .inr (.inr ⟨trivial,.inl spoiled⟩)

/-- A collection on one side only. -/
theorem Agree.collect {P : Pos → Pos → Prop} {roots : List Ref} {h g : Heap Value}
    (agree : Agree P roots h g) :
    (∃ n k, Heap.collect roots h = .ok n k ∧ Agree P roots k g) ∨ Spoiled (Heap.collect roots h) := by
  have sound := agree.left.closed.sound agree.left.owned
  have sec := agree.left.collect
  have size := size_collect roots h
  rcases agree.left.coherent.collect_cases sound with ⟨n,k,e,done⟩ | ⟨f,k,e,-,-,spoiled,-⟩
  · rw [e] at sec size
    refine .inl ⟨n,k,e,sec,agree.right,agree.size.trans size.symm,?_,fun r hr hr' => ?_⟩
    · exact agree.nextSlot.trans done.unchanged.2.1.symm
    · obtain ⟨old,same⟩ := agree.left.untouched done hr
      exact alike_of_untouched (agree.cells r old hr') same rfl
  · rw [e]
    exact .inr ⟨f,rfl,spoiled⟩

end Heap
end Lox
