import Lox.Session
import Lox.Proofs.Number.Products

/-! # Equality of values

Values are equal if they have the same content, where the two zeros are one number and so are all doubles
that are no number. So equality is an equivalence relation, and the type and the truth of a value depend on
its content alone. Objects and natives are equal to nothing but themselves, and a bound method is its function
and its receiver, no matter when it was fetched.
-/
namespace Lox
open Exec

/-! ## Doubles -/

namespace Number.Parts
open Float.Model Float.Model.UnpackedFloat

/-- The two zeros are one. -/
def merged : Parts → Parts
  | .finite _ 0 _ => .finite false 0 0
  | p => p

theorem same_iff_merged (p q : Parts) : p.same q ↔ p.merged = q.merged := by
  cases p with
  | nan =>
    cases q with
    | finite _ n _ => cases n <;> simp [same,merged]
    | _ => simp [same,merged]
  | infinite s =>
    cases q with
    | finite _ n _ => cases n <;> simp [same,merged]
    | _ => simp [same,merged]
  | finite s m e =>
    cases q with
    | finite t n f => cases m <;> cases n <;> simp [same,merged,and_assoc]
    | _ => cases m <;> simp [same,merged]

theorem same_ofUnpacked (u v : UnpackedFloat) :
    (ofUnpacked u).same (ofUnpacked v) ↔ u.beq v ∨ u.isNaN ∧ v.isNaN := by
  cases u with
  | notANumber => cases v <;> simp [ofUnpacked,same,UnpackedFloat.beq,UnpackedFloat.compare,UnpackedFloat.isNaN]
  | infinity s =>
    cases v with
    | infinity t => cases s <;> cases t <;> decide
    | _ => cases s <;> simp [ofUnpacked,same,UnpackedFloat.beq,UnpackedFloat.compare,UnpackedFloat.isNaN]
  | zero s =>
    cases v with
    | zero t => simp [ofUnpacked,same,UnpackedFloat.beq,UnpackedFloat.compare]
    | infinity t => cases t <;> simp [ofUnpacked,same,UnpackedFloat.beq,UnpackedFloat.compare,UnpackedFloat.isNaN]
    | notANumber => simp [ofUnpacked,same,UnpackedFloat.beq,UnpackedFloat.compare,UnpackedFloat.isNaN]
    | finite t n f pos =>
      have nonzero : n ≠ 0 := Nat.ne_of_gt pos
      cases t <;>
        simp [ofUnpacked,same,UnpackedFloat.beq,UnpackedFloat.compare,UnpackedFloat.isNaN,nonzero,Ne.symm nonzero]
  | finite s m e pos =>
    have nonzero : m ≠ 0 := Nat.ne_of_gt pos
    cases v with
    | zero t =>
      cases s <;> simp [ofUnpacked,same,UnpackedFloat.beq,UnpackedFloat.compare,UnpackedFloat.isNaN,nonzero]
    | infinity t => cases t <;> simp [ofUnpacked,same,UnpackedFloat.beq,UnpackedFloat.compare,UnpackedFloat.isNaN]
    | notANumber => simp [ofUnpacked,same,UnpackedFloat.beq,UnpackedFloat.compare,UnpackedFloat.isNaN]
    -- Numbers with the same sign are compared by their exponents first.
    | finite t n f pos' =>
      cases s <;> cases t <;>
        simp [ofUnpacked,same,UnpackedFloat.beq,UnpackedFloat.compare,UnpackedFloat.isNaN,nonzero,
          and_comm (a := m = n)]

/-- Doubles are the same if they compare as equal or if neither is a number. -/
theorem same_of_iff (x y : Float) : (of x).same (of y) ↔ x == y ∨ x.isNaN ∧ y.isNaN := by
  rw [of_eq,of_eq]
  exact same_ofUnpacked x.toModel.unpack y.toModel.unpack

end Number.Parts

/-! ## Contents -/

namespace Value

/-- What a value is compared by. -/
inductive Content
  | nil
  | bool (b : Bool)
  | number (p : Number.Parts)
  | string (s : String)
  | native (f : Native)
  | object (r : Ref)
  | bound (function receiver : Ref)

def content : Value → Content
  | .nil => .nil
  | .bool b => .bool b
  | .number x => .number (Number.Parts.of x).merged
  | .string s => .string s
  | .native f => .native f
  | .object r => .object r
  | .bound f r => .bound f r

theorem equal_iff_content (a b : Value) : a.equal b ↔ a.content = b.content := by
  cases a <;> cases b <;> simp [equal,content,Number.Parts.same_iff_merged]

theorem equal_equivalence : Equivalence fun a b : Value => a.equal b where
  refl a := (equal_iff_content a a).mpr rfl
  symm h := (equal_iff_content _ _).mpr ((equal_iff_content _ _).mp h).symm
  trans h k := (equal_iff_content _ _).mpr (((equal_iff_content _ _).mp h).trans ((equal_iff_content _ _).mp k))

theorem typeName_eq_of_equal {a b : Value} (h : a.equal b) (heap : Heap Value) :
    a.typeName heap = b.typeName heap := by
  rw [equal_iff_content] at h
  cases a <;> cases b <;> simp_all [content,typeName]

theorem isTruthy_eq_of_equal {a b : Value} (h : a.equal b) : a.isTruthy = b.isTruthy := by
  rw [equal_iff_content] at h
  cases a <;> cases b <;> simp_all [content,isTruthy]

end Value

/-! ## Fetched methods -/

theorem Heap.kindOf_of_property {h : Heap Value} {r : Ref} {name : String} {p : Heap.Property Value}
    (found : h.property r name = .ok p) : h.kindOf r = .instanceOf := by
  simp only [Heap.property,Heap.live] at found
  cases cell : h.cells[r.index]? with
  | none =>
    rw [cell] at found
    cases found
  | some c =>
    simp only [cell,Bind.bind,Except.bind] at found
    simp only [Heap.kindOf,cell,Option.map_some,Option.getD_some]
    cases freed : c.freed with
    | true =>
      simp only [freed,if_true] at found
      cases found
    | false =>
      simp only [freed,Bool.false_eq_true,if_false] at found
      generalize c.object = o at found
      cases o with
      | instanceOf _ _ => rfl
      | _ => cases found

/-- A method is fetched for a receiver: as a property of the receiver, or from its superclass. -/
inductive Machine.Fetches (m : Machine) (f r : Ref) : Exec Value → Prop
  | property {name : Name} : m.heap.property r name.text = .ok (.method f) →
      Fetches m f r (getProperty (.object r) name)
  | super {pos : Pos} {method : Name} {d : Nat} {c : Ref} :
      m.heap.lookupAt m.current d "super" = .ok (.object c) → m.heap.kindOf c = .klass →
      m.heap.lookupAt m.current (d - 1) "this" = .ok (.object r) →
      m.heap.findMethod c method.text = .ok (some f) → Fetches m f r (readSuper pos method (some d))

theorem Machine.Fetches.eq_bound {m : Machine} {f r : Ref} {x : Exec Value} (fetches : m.Fetches f r x) :
    x m = .ok (.bound f r) m := by
  cases fetches with
  | property found =>
    simp only [getProperty,instance?,Heap.kindOf_of_property found,if_true,Bind.bind,EStateM.bind,reading,found]
    rfl
  | super base kind receiver found =>
    simp only [readSuper,currentEnvironment,class?,Bind.bind,EStateM.bind,reading,base,receiver,kind,if_true,found]
    rfl

/-! ## Places -/

/-- A value in a place. A scalar may be in many places at once. -/
structure Value.Placed where
  place : Nat
  value : Value

/-- What is in one place is equal. Only what is not gets compared. -/
def Value.Placed.equal (a b : Value.Placed) : Bool := a.place = b.place || a.value.equal b.value

/-! ## The main statement -/

/-- Equality is an equivalence relation, equal values have the same type and the same truth, and it does not
matter in which places they are. Doubles are equal if they compare so or if neither is a number, and what has
an identity is equal to itself only. Methods that are fetched at any two times are equal if and only if they
are the same function of the same receiver. -/
theorem equality_lawful :
    (Equivalence fun a b : Value => a.equal b) ∧
    (∀ a b : Value.Placed, (a.place = b.place → a.value = b.value) → a.equal b = a.value.equal b.value) ∧
    (∀ (h : Heap Value) (a b : Value), a.equal b → a.typeName h = b.typeName h ∧ a.isTruthy = b.isTruthy) ∧
    (∀ x y : Float, (Value.number x).equal (.number y) ↔ x == y ∨ x.isNaN ∧ y.isNaN) ∧
    (∀ (r : Ref) (b : Value), (Value.object r).equal b ↔ b = .object r) ∧
    (∀ (f : Native) (b : Value), (Value.native f).equal b ↔ b = .native f) ∧
    (∀ (f r : Ref) (b : Value), (Value.bound f r).equal b ↔ b = .bound f r) ∧
    ∀ {m k : Machine} {f g r s : Ref} {x y : Exec Value}, m.Fetches f r x → k.Fetches g s y →
      ∃ a b, x m = .ok a m ∧ y k = .ok b k ∧ (a.equal b ↔ f = g ∧ r = s) := by
  refine ⟨Value.equal_equivalence,fun a b single => ?_,fun h a b same => ?_,Number.Parts.same_of_iff,fun r b => ?_,
    fun f b => ?_,fun f r b => ?_,fun {m k f g r s x y} left right => ?_⟩
  · by_cases same : a.place = b.place
    · simp [Value.Placed.equal,single same,Value.equal_equivalence.refl b.value]
    · simp [Value.Placed.equal,same]
  · exact ⟨Value.typeName_eq_of_equal same h,Value.isTruthy_eq_of_equal same⟩
  · cases b <;> simp [Value.equal,@eq_comm _ r]
  · cases b <;> simp [Value.equal,@eq_comm _ f]
  · cases b <;> simp [Value.equal,@eq_comm _ f,@eq_comm _ r]
  · exact ⟨.bound f r,.bound g s,left.eq_bound,right.eq_bound,by simp [Value.equal]⟩

/-- An instance with two methods, in a run with a call of the first. -/
def fetching : String := "class A \x7b f() \x7b\x7d g() \x7b\x7d \x7d var a = A(); a.f();"

/-- The function of a method that was looked up. -/
def methodOf? : Except Failure (Heap.Property Value) → Option Ref
  | .ok (.method f) => some f
  | _ => none

theorem eq_method_of_methodOf? {x : Except Failure (Heap.Property Value)} {f : Ref} (found : methodOf? x = some f) :
    x = .ok (.method f) := by
  cases x with
  | error _ => cases found
  | ok p =>
    cases p with
    | field _ => cases found
    | method _ =>
      cases found
      rfl

theorem equality_lawful_fetching : ∃ s, Session.start {} 0 = .ok s ∧
    ((Value.number 0.0).equal (.number (-0.0)) ∧
      (Value.number 0.0).typeName s.machine.heap = (Value.number (-0.0)).typeName s.machine.heap ∧
      (Value.number 0.0).isTruthy = (Value.number (-0.0)).isTruthy) ∧
    (Value.Placed.equal ⟨1,.bool true⟩ ⟨2,.bool true⟩ = (Value.bool true).equal (.bool true)) ∧
    let m := (s.run fetching "a.lox" 90).2.machine
    let k := (s.run (fetching ++ "a.f();") "a.lox" 90).2.machine
    m.heap.cells.size < k.heap.cells.size ∧
    m.Fetches ⟨1⟩ ⟨4⟩ (getProperty (.object ⟨4⟩) ⟨"f",⟨1,1⟩⟩) ∧
    k.Fetches ⟨1⟩ ⟨4⟩ (getProperty (.object ⟨4⟩) ⟨"f",⟨1,1⟩⟩) ∧
    k.Fetches ⟨2⟩ ⟨4⟩ (getProperty (.object ⟨4⟩) ⟨"g",⟨1,1⟩⟩) ∧
    (∃ a b, getProperty (.object ⟨4⟩) ⟨"f",⟨1,1⟩⟩ m = .ok a m ∧ getProperty (.object ⟨4⟩) ⟨"f",⟨1,1⟩⟩ k = .ok b k ∧
      a.equal b) ∧
    ∃ a b, getProperty (.object ⟨4⟩) ⟨"f",⟨1,1⟩⟩ m = .ok a m ∧ getProperty (.object ⟨4⟩) ⟨"g",⟨1,1⟩⟩ k = .ok b k ∧
      ¬a.equal b := by
  have found : (Session.start {} 0).toOption.map (fun s =>
      let m := (s.run fetching "a.lox" 90).2.machine
      let k := (s.run (fetching ++ "a.f();") "a.lox" 90).2.machine
      (decide (m.heap.cells.size < k.heap.cells.size),methodOf? (m.heap.property ⟨4⟩ "f"),
        methodOf? (k.heap.property ⟨4⟩ "f"),methodOf? (k.heap.property ⟨4⟩ "g"))) =
      some (true,some ⟨1⟩,some ⟨1⟩,some ⟨2⟩) := by decide +kernel
  obtain ⟨s,start⟩ : ∃ s, Session.start {} 0 = .ok s := ⟨_,rfl⟩
  simp only [start,Except.toOption,Option.map_some,Option.some.injEq,Prod.mk.injEq,decide_eq_true_eq] at found
  obtain ⟨larger,earlier,later,other⟩ := found
  obtain ⟨-,places,kinds,-,-,-,-,methods⟩ := equality_lawful
  have zeros : (Value.number 0.0).equal (.number (-0.0)) := by decide +kernel
  have first : Machine.Fetches _ ⟨1⟩ ⟨4⟩ (getProperty (.object ⟨4⟩) ⟨"f",⟨1,1⟩⟩) :=
    .property (eq_method_of_methodOf? earlier)
  have again : Machine.Fetches _ ⟨1⟩ ⟨4⟩ (getProperty (.object ⟨4⟩) ⟨"f",⟨1,1⟩⟩) :=
    .property (eq_method_of_methodOf? later)
  have second : Machine.Fetches _ ⟨2⟩ ⟨4⟩ (getProperty (.object ⟨4⟩) ⟨"g",⟨1,1⟩⟩) :=
    .property (eq_method_of_methodOf? other)
  obtain ⟨a,b,read,reread,same⟩ := methods first again
  obtain ⟨c,d,get,fetch,apart⟩ := methods first second
  exact ⟨s,start,⟨zeros,kinds _ _ _ zeros⟩,places _ _ (fun same => by cases same),larger,first,again,second,
    ⟨a,b,read,reread,same.mpr ⟨rfl,rfl⟩⟩,⟨c,d,get,fetch,fun h => absurd (apart.mp h).1 (by decide)⟩⟩

end Lox
