import Lox.Proofs.Heap.Growth
import Lox.Proofs.Heap.Unmarked

/-! # Stray objects

A collection breaks off when it meets an object that the heap does not own. That happens exactly if
the roots lead to one, and then nothing has changed but marks: whatever is asked of the heap later
is answered as if the collection had not been tried.
-/
namespace Lox

/-- Whether a fault says that an object is not where the books of the heap have it. -/
def Fault.isCorruption : Fault → Bool
  | alreadyRegistered .. | strayReachable .. | strayReference .. | noObject => true
  | _ => false

namespace Heap
variable {ν : Type} [Holder ν]

/-- What the roots lead to when references are followed out of the heap's own objects alone. -/
inductive Trail (h : Heap ν) (roots : List Ref) : Ref → Prop
  | root {r : Ref} : r ∈ roots → Trail h roots r
  | step {r s : Ref} : Trail h roots r → h.isRegistered r → s ∈ h.referencesOf r → Trail h roots s

/-- The roots lead to an object that has been released or has never been registered. -/
def Strays (h : Heap ν) (roots : List Ref) : Prop := ∃ r, h.Trail roots r ∧ ¬h.isRegistered r

omit [Holder ν] in
/-- What a collection says of a stray object. -/
def strayFault (h : Heap ν) (r : Ref) : Fault :=
  match h.cells[r.index]? with
  | some c => .strayReachable c.object.kind c.slot
  | none => .noObject

variable {h : Heap ν} {roots : List Ref} {r : Ref}

omit [Holder ν] in
theorem isCorruption_strayFault (h : Heap ν) (r : Ref) : (h.strayFault r).isCorruption := by
  rw [strayFault]
  split <;> rfl

theorem Trail.trans {others : List Ref} (all : ∀ s ∈ others, h.Trail roots s) (trail : h.Trail others r) :
    h.Trail roots r := by
  induction trail with
  | root m => exact all _ m
  | step _ owned m ih => exact .step ih owned m

theorem Trail.reach (trail : h.Trail roots r) : h.Reach roots r := by
  induction trail with
  | root m => exact .root m
  | step _ _ m ih => exact .step ih m

/-- Either all that the roots reach is the heap's own, or there is a first object that is not. -/
theorem sound_iff : h.Sound roots ↔ ¬h.Strays roots := by
  constructor
  · rintro sound ⟨r,trail,stray⟩
    exact stray (sound r trail.reach)
  · intro none r reach
    have owned : ∀ {s}, h.Trail roots s → h.isRegistered s := by
      intro s trail
      by_contra stray
      exact none ⟨s,trail,stray⟩
    suffices h.Trail roots r from owned this
    induction reach with
    | root m => exact .root m
    | step _ m ih => exact .step ih (owned ih) m

/-- A marking breaks off at a stray object that its work list leads to. -/
theorem stray_of_mark (h : Heap ν) {cells : Array (Cell ν)} {work : List Ref}
    (same : Recolored h.cells cells) {f : Fault} (failed : (mark cells work).1 = some f) :
    ∃ r, h.Trail work r ∧ ¬h.isRegistered r ∧ f = h.strayFault r := by
  fun_induction mark cells work with
  | case1 => cases failed
  | case2 _ r _ _ _ _ ih =>
    obtain ⟨s,trail,stray⟩ := ih same failed
    exact ⟨s,trail.trans fun t mt => .root (List.mem_cons_of_mem r mt),stray⟩
  | case3 cells r work inside c _ owned ih =>
    obtain ⟨s,trail,stray⟩ := ih (same.trans (.mark inside)) failed
    refine ⟨s,trail.trans fun t mt => ?_,stray⟩
    rw [List.mem_append,List.mem_reverse,same.referencesOf h inside] at mt
    rcases mt with mt | mt
    · exact .step (.root List.mem_cons_self) (same.isRegistered h inside ▸ owned) mt
    · exact .root (List.mem_cons_of_mem _ mt)
  | case4 cells r work inside c _ stray =>
    rw [same.isRegistered h inside] at stray
    refine ⟨r,.root List.mem_cons_self,stray,?_⟩
    have there : r.index < h.cells.size := same.size ▸ inside
    obtain ⟨m,hm⟩ := same.cell (Array.getElem?_eq_getElem there)
    rw [Array.getElem?_eq_getElem inside] at hm
    cases failed
    rw [strayFault,Array.getElem?_eq_getElem there,show c = _ from Option.some.inj hm]
  | case5 cells r work outside =>
    cases failed
    have gone : h.cells[r.index]? = none := by
      rw [Array.getElem?_eq_none_iff,← same.size]
      exact Nat.not_lt.mp outside
    refine ⟨r,.root List.mem_cons_self,?_,?_⟩
    · simp [isRegistered,gone]
    · rw [strayFault,gone]

theorem Trail.reverse (trail : h.Trail roots.reverse r) : h.Trail roots r :=
  trail.trans fun _ m => .root (List.mem_reverse.mp m)

/-- A marking that ends without a fault has met no stray object. -/
theorem Coherent.sound_of_marked (own : h.Coherent) (done : (h.markFrom roots).1 = none) : h.Sound roots := by
  intro r reach
  have owned := (own.markFrom roots).owned_of_marked r ((own.isMarked_markFrom done r).mpr reach)
  rwa [markFrom_eq,(own.recolored_markFrom h roots).isRegistered_with] at owned

/-- A collection whose roots lead to a stray object breaks off at one and has changed marks alone. -/
theorem Coherent.collect_stray (own : h.Coherent) (strays : h.Strays roots) :
    ∃ r k, h.Trail roots r ∧ ¬h.isRegistered r ∧
      Heap.collect roots h = .error (.fault (h.strayFault r)) k ∧ k.unmarked = h.unmarked := by
  have same : (h.markFrom roots).2.unmarked = h.unmarked :=
    unmarked_eq_iff.mpr ⟨markFrom_eq h roots,own.recolored_markFrom h roots⟩
  cases found : (h.markFrom roots).1 with
  | none => exact absurd strays (sound_iff.mp (own.sound_of_marked found))
  | some f =>
    obtain ⟨r,trail,stray,rfl⟩ := stray_of_mark h (own.recolored_unmarkAll h) found
    have ends := collects roots h
    generalize e : Heap.collect roots h = x at ends
    cases ends with
    | stray met =>
      cases met.symm.trans found
      exact ⟨r,_,trail.reverse,stray,rfl,same⟩
    | boundless sound | corrupt sound | done sound => cases sound.symm.trans found

theorem Coherent.collect_corrupt (own : h.Coherent) {f : Fault} {k : Heap ν}
    (failed : Heap.collect roots h = .error (.fault f) k) (corrupt : f.isCorruption) :
    h.Strays roots ∧ (∃ r, h.Trail roots r ∧ ¬h.isRegistered r ∧ f = h.strayFault r) ∧
      k.unmarked = h.unmarked := by
  by_cases strays : h.Strays roots
  · obtain ⟨r,l,trail,stray,e,same⟩ := own.collect_stray strays
    cases failed.symm.trans e
    exact ⟨strays,⟨r,trail,stray,rfl⟩,same⟩
  · exfalso
    rcases own.collect_cases (sound_iff.mpr strays) with ⟨_,_,e,-⟩ | ⟨_,_,e,-⟩
    · cases failed.symm.trans e
    · cases failed.symm.trans e
      exact Bool.noConfusion corrupt

/-- A registration breaks off at a stray object only when it collects first. -/
theorem Coherent.register_corrupt (own : h.Coherent) {c : Cell ν} (cell : h.cells[r.index]? = some c)
    (new : c.slot = none) {f : Fault} {k : Heap ν} (failed : Heap.register r roots h = .error (.fault f) k)
    (corrupt : f.isCorruption) :
    h.due ∧ h.Strays (roots ++ c.object.references) ∧ k.unmarked = h.unmarked := by
  obtain ⟨due,collected⟩ := collect_of_register_error cell new failed
  obtain ⟨strays,-,same⟩ := own.collect_corrupt collected corrupt
  exact ⟨due,strays,same⟩

theorem Coherent.register_stray (own : h.Coherent) {c : Cell ν} (cell : h.cells[r.index]? = some c)
    (new : c.slot = none) (due : h.due) (strays : h.Strays (roots ++ c.object.references)) :
    ∃ f k, Heap.register r roots h = .error (.fault f) k ∧ f.isCorruption := by
  obtain ⟨s,k,-,-,e,-⟩ := own.collect_stray strays
  refine ⟨h.strayFault s,k,?_,isCorruption_strayFault h s⟩
  rw [register_new cell new,if_pos due,e]

/-- A new object is registered as soon as nothing stray is in the way of a collection. -/
theorem Coherent.register_isOk (own : h.Coherent) {c : Cell ν} (cell : h.cells[r.index]? = some c)
    (new : c.slot = none) (sound : ¬h.Strays (roots ++ c.object.references))
    (finite : ∀ n ≤ h.liveCount, ∃ next, grownThreshold h.rules n = .ok next) :
    ∃ k, Heap.register r roots h = .ok h.nextSlot k ∧ k.isRegistered r := by
  rw [register_new cell new]
  cases h.due with
  | true =>
    obtain ⟨released,k,e,done⟩ := own.collect_collected (sound_iff.mpr sound) finite
    have kept := own.getElem?_collect_new (roots ++ c.object.references) cell new
    have tidy := own.collect (roots ++ c.object.references)
    rw [e] at kept tidy
    have tidy : k.Coherent := tidy
    refine ⟨k.enroll r,?_,?_⟩
    · simp only [if_true,e,done.unchanged.2.1]
    · rw [tidy.isRegistered_enroll kept new,decide_eq_true rfl,Bool.true_or]
  | false =>
    refine ⟨h.enroll r,rfl,?_⟩
    rw [own.isRegistered_enroll cell new,decide_eq_true rfl,Bool.true_or]

/-! ## What is left of a failed attempt -/

theorem grows_next (h : Heap ν) (q : Request ν) : Grows h (h.next q) := by
  refine next_cases h q (fun o _ => grows_create o h) (fun r roots _ => grows_register r roots h)
    (fun roots _ => grows_collect roots h) ?_ fun k rewrites => rewrites.grows
  simp only [audit]
  cases h.verify <;> exact ⟨Nat.le_refl _,rfl,id,slots_of_eq (fun _ => rfl) rfl⟩

theorem grows_after (h : Heap ν) (later : List (Request ν)) : Grows h (h.after later) := by
  induction later generalizing h with
  | nil => exact grows_refl h
  | cons q rest ih => exact IsTrans.trans _ _ _ (grows_next h q) (ih (h.next q))

/-- A heap behind an attempt that has changed nothing but marks. -/
structure Unscathed (h k : Heap ν) : Prop where
  /-- No object has been released, emptied or taken off the heap. -/
  cells : ∀ i : Nat, k.cells[i]?.map Cell.unmark = h.cells[i]?.map Cell.unmark
  /-- All counters are as they were, and nobody who listens for collections or audits has heard of one. -/
  books : k.books = h.books
  journal : k.journal = h.journal
  /-- Whatever is asked later is answered as if nothing had been tried. -/
  later : ∀ later, k.answers later = h.answers later ∧
    (k.after later).unmarked = (h.after later).unmarked

theorem Coherent.unscathed {k : Heap ν} (own : h.Coherent) (other : k.Coherent)
    (same : k.unmarked = h.unmarked) : h.Unscathed k where
  cells i := by rw [← getElem?_unmarked,← getElem?_unmarked,same]
  books := by rw [← books_unmarked,← h.books_unmarked,same]
  journal := by
    change k.unmarked.journal = h.unmarked.journal
    rw [same]
  later := own.indistinguishable other same

/-- A collection fails for want of order exactly if its roots lead to an object that the heap does not own,
and so does the collection before a registration. It has then changed nothing but marks, and the object
that was to be registered has no slot and can be registered at any later time. -/
theorem failed_collection_changes_nothing (made : h.Made) (roots : List Ref) :
    ((∃ f k, collect roots h = .error (.fault f) k ∧ f.isCorruption) ↔ h.Strays roots) ∧
    (∀ f k, collect roots h = .error (.fault f) k → f.isCorruption →
      (∃ r, h.Trail roots r ∧ ¬h.isRegistered r ∧ f = h.strayFault r) ∧ h.Unscathed k) ∧
    ∀ (r : Ref) (c : Cell ν), h.cells[r.index]? = some c → c.slot = none →
      ((∃ f k, register r roots h = .error (.fault f) k ∧ f.isCorruption) ↔
        h.due ∧ h.Strays (roots ++ c.object.references)) ∧
      ∀ f k, register r roots h = .error (.fault f) k → f.isCorruption →
        h.Unscathed k ∧ k.slotOf r = none ∧ ¬k.isRegistered r ∧
        ∀ later others, (k.after later).slotOf r = none →
          ¬(k.after later).Strays (others ++ (k.after later).referencesOf r) →
          (∀ n ≤ (k.after later).liveCount, ∃ next, grownThreshold h.rules n = .ok next) →
          ∃ l, register r others (k.after later) = .ok (k.after later).nextSlot l ∧ l.isRegistered r := by
  have own := made.coherent
  refine ⟨⟨?_,?_⟩,?_,fun r c cell new => ⟨⟨?_,?_⟩,?_⟩⟩
  · rintro ⟨f,k,failed,corrupt⟩
    exact (own.collect_corrupt failed corrupt).1
  · intro strays
    obtain ⟨r,k,-,-,e,-⟩ := own.collect_stray strays
    exact ⟨_,k,e,isCorruption_strayFault h r⟩
  · intro f k failed corrupt
    obtain ⟨-,found,same⟩ := own.collect_corrupt failed corrupt
    have other : k.Coherent := by simpa [failed,stateAfter] using own.collect roots
    exact ⟨found,own.unscathed other same⟩
  · rintro ⟨f,k,failed,corrupt⟩
    obtain ⟨due,strays,-⟩ := own.register_corrupt cell new failed corrupt
    exact ⟨due,strays⟩
  · rintro ⟨due,strays⟩
    exact own.register_stray cell new due strays
  · intro f k failed corrupt
    obtain ⟨-,-,same⟩ := own.register_corrupt cell new failed corrupt
    have other : k.Coherent := by simpa [failed,stateAfter] using own.register r roots
    have grows : Grows h k := by simpa [failed,stateAfter] using grows_register r roots h
    have unscathed := own.unscathed other same
    refine ⟨unscathed,?_,?_,fun later others unregistered sound finite => ?_⟩
    · rw [← slotOf_unmarked,same,slotOf_unmarked,slotOf,cell,Option.bind_some,new]
    · rw [← isRegistered_unmarked,same,isRegistered_unmarked,isRegistered,cell]
      simp [Cell.isRegistered,new]
    · have kept := grows_after k later
      have inside : r.index < (k.after later).cells.size :=
        Nat.lt_of_lt_of_le (Array.getElem?_eq_some_iff.mp cell).1 (Nat.le_trans grows.cells kept.cells)
      have there := Array.getElem?_eq_getElem inside
      rw [slotOf,there,Option.bind_some] at unregistered
      rw [referencesOf,there] at sound
      refine (other.after later).register_isOk there unregistered sound ?_
      rw [kept.rules,grows.rules]
      exact finite

/-- A heap in which a registered environment has been made to enclose a released one, with a function
that waits for its registration. -/
def dangling : Heap Value :=
  after { rules := { stress := true } }
    [.create (.environment {} none),.register ⟨0⟩ [],.create (.environment {} none),.register ⟨1⟩ [⟨0⟩],
      .collect [⟨0⟩],.enclose ⟨0⟩ (some ⟨1⟩),.create (.function default (some ⟨0⟩))]

theorem failed_collection_changes_nothing_dangling :
    dangling.Made ∧ (∃ f k, collect [⟨0⟩] dangling = .error (.fault f) k ∧ f.isCorruption ∧
      dangling.Unscathed k) ∧
    ∃ f k, register ⟨2⟩ [⟨0⟩] dangling = .error (.fault f) k ∧ f.isCorruption ∧
      dangling.Unscathed k ∧ k.slotOf ⟨2⟩ = none := by
  have made : dangling.Made := ⟨_,_,rfl⟩
  have strays : ∀ more, dangling.Strays (⟨0⟩ :: more) := by
    intro more
    refine ⟨⟨1⟩,.step (r := ⟨0⟩) (.root List.mem_cons_self) ?_ ?_,?_⟩
    · decide +kernel
    · decide +kernel
    · decide +kernel
  obtain ⟨fails,unscathed,registering⟩ := failed_collection_changes_nothing made [⟨0⟩]
  obtain ⟨f,k,failed,corrupt⟩ := fails.mpr (strays [])
  have waiting : dangling.cells[2]?.map (·.slot) = some none := by decide +kernel
  obtain ⟨c,cell,new⟩ := Option.map_eq_some_iff.mp waiting
  obtain ⟨refused,kept⟩ := registering ⟨2⟩ c cell new
  obtain ⟨f',k',failed',corrupt'⟩ := refused.mpr ⟨by decide +kernel,strays _⟩
  obtain ⟨unscathed',slot,-⟩ := kept f' k' failed' corrupt'
  exact ⟨made,⟨f,k,failed,corrupt,(unscathed f k failed corrupt).2⟩,f',k',failed',corrupt',unscathed',slot⟩

end Heap
end Lox
