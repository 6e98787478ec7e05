/-! # Bindings

Values under names, in the order in which the names were first bound. Binding a name again
replaces its value and keeps its place.
-/
namespace Lox

structure Bindings (α : Type) where
  entries : List (String × α) := []
deriving Repr

namespace Bindings
variable {α : Type}

instance : Inhabited (Bindings α) := ⟨{}⟩

def names (b : Bindings α) : List String := b.entries.map (·.1)

def values (b : Bindings α) : List α := b.entries.map (·.2)

def find (name : String) : List (String × α) → Option α
  | [] => none
  | (n,x) :: rest => if n = name then some x else find name rest

def get? (b : Bindings α) (name : String) : Option α := find name b.entries

def contains (b : Bindings α) (name : String) : Bool := (b.get? name).isSome

def put (name : String) (x : α) : List (String × α) → List (String × α)
  | [] => [(name,x)]
  | (n,y) :: rest => if n = name then (n,x) :: rest else (n,y) :: put name x rest

def set (b : Bindings α) (name : String) (x : α) : Bindings α := ⟨put name x b.entries⟩

@[simp] theorem get?_empty (name : String) : ({} : Bindings α).get? name = none := rfl

theorem find_put (name other : String) (x : α) (l : List (String × α)) :
    find other (put name x l) = if name = other then some x else find other l := by
  induction l with
  | nil => simp [put,find]
  | cons p l ih =>
    obtain ⟨n,y⟩ := p
    by_cases h : n = name
    · subst h
      by_cases ho : n = other <;> simp [put,find,ho]
    · by_cases ho : n = other
      · subst ho
        simp [put,find,h,Ne.symm h]
      · simp [put,find,h,ho,ih]

theorem get?_set (b : Bindings α) (name other : String) (x : α) :
    (b.set name x).get? other = if name = other then some x else b.get? other :=
  find_put name other x b.entries

@[simp] theorem get?_set_self (b : Bindings α) (name : String) (x : α) :
    (b.set name x).get? name = some x := by simp [get?_set]

theorem get?_set_of_ne (b : Bindings α) {name other : String} (h : name ≠ other) (x : α) :
    (b.set name x).get? other = b.get? other := by simp [get?_set,h]

theorem find_isSome_iff (name : String) (l : List (String × α)) :
    (find name l).isSome ↔ name ∈ l.map (·.1) := by
  induction l with
  | nil => simp [find]
  | cons p l ih =>
    by_cases h : p.1 = name
    · simp [find,h]
    · rw [List.map_cons,List.mem_cons,find,if_neg h,ih]
      exact ⟨Or.inr,fun m => m.resolve_left (Ne.symm h)⟩

theorem mem_of_find {name : String} {x : α} {l : List (String × α)} (h : find name l = some x) :
    (name,x) ∈ l := by
  induction l with
  | nil => cases h
  | cons p l ih =>
    obtain ⟨n,y⟩ := p
    by_cases e : n = name
    · subst e
      simp_all [find]
    · rw [find,if_neg e] at h
      exact List.mem_cons_of_mem _ (ih h)

theorem mem_values_of_get? (b : Bindings α) {name : String} {x : α} (h : b.get? name = some x) :
    x ∈ b.values := List.mem_map_of_mem (mem_of_find h)

theorem contains_iff (b : Bindings α) (name : String) : b.contains name ↔ name ∈ b.names :=
  find_isSome_iff name b.entries

theorem values_put_subset (name : String) (x : α) (l : List (String × α)) :
    ∀ y ∈ (put name x l).map (·.2), y = x ∨ y ∈ l.map (·.2) := by
  induction l with
  | nil => simp [put]
  | cons p l ih =>
    intro y hy
    by_cases e : p.1 = name
    · simp only [put,e,if_true,List.map_cons,List.mem_cons] at hy ⊢
      exact hy.imp id .inr
    · simp only [put,e,if_false,List.map_cons,List.mem_cons] at hy ⊢
      rcases hy with rfl | hy
      · exact .inr (.inl rfl)
      · exact (ih y hy).imp id .inr

theorem eq_or_mem_of_mem_values_set (b : Bindings α) (name : String) (x : α) {y : α}
    (h : y ∈ (b.set name x).values) : y = x ∨ y ∈ b.values :=
  values_put_subset name x b.entries y h

theorem names_put (name : String) (x : α) (l : List (String × α)) :
    (put name x l).map (·.1) =
      if name ∈ l.map (·.1) then l.map (·.1) else l.map (·.1) ++ [name] := by
  induction l with
  | nil => rfl
  | cons p l ih =>
    by_cases h : p.1 = name
    · simp [put,h]
    · simp only [put,h,if_false,List.map_cons,ih,List.mem_cons,Ne.symm h,false_or]
      split <;> simp

theorem names_set (b : Bindings α) (name : String) (x : α) :
    (b.set name x).names = if b.contains name then b.names else b.names ++ [name] := by
  rw [names,set,names_put]
  simp only [contains_iff,names]

end Bindings
end Lox
