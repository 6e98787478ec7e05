import Lox.Proofs.Scope.Renaming

/-! # Spelled scopes

The names that the scopes of a context hold, as they are spelled when a variable has been renamed. A
use that is renamed with its declaration leads where it did, for the new name is in no scope yet: the
innermost scope that holds it is that of the declaration.
-/
namespace Lox

/-- Names are kept, but for one that becomes a new name in some scopes. -/
structure Spelling.Renames (spell : Spelling) (x y : String) : Prop where
  inScope (o : Origin) (n : String) : n ≠ y → spell.inScope o n = n ∨ n = x ∧ spell.inScope o n = y
  old : Ordinary x
  new : Ordinary y

theorem renames_swapping (pick : Origin → Bool) {x y : String} (old : Ordinary x) (new : Ordinary y) :
    (Spelling.swapping pick x y).Renames x y := by
  refine ⟨fun o n ne => ?_,old,new⟩
  by_cases other : n = x
  · simp only [Spelling.swapping]
    split
    · exact .inr ⟨other,other ▸ Equiv.swap_apply_left n y⟩
    · exact .inl rfl
  · exact .inl (inScope_swapping_of_ne (fun _ => other) ne)

/-- The names that the scopes of a context hold, as they are spelled. -/
def Context.spelled (spell : Spelling) (Γ : Context) : Scopes :=
  Γ.map fun layer => layer.names.map (spell.inScope layer.origin)

/-- A name that no scope holds. -/
def Context.Free (Γ : Context) (y : String) : Prop := ∀ layer ∈ Γ, y ∉ layer.names

/-! ## Scopes that are spelled -/

theorem classOrigins_map {α β : Type} (os : List Origin) (name : Name) (superclass : Option α)
    (f : α → β) : classOrigins os name (superclass.map f) = classOrigins os name superclass := by
  cases superclass <;> rfl

theorem Scopes.ofClass_map (scopes : Scopes) (superclass : Option Reference)
    (f : Reference → Reference) : scopes.ofClass (superclass.map f) = scopes.ofClass superclass := by
  cases superclass <;> rfl

section
variable {spell : Spelling} {Γ : Context}

theorem Context.spelled_declare (Γ : Context) (name : String) :
    (Γ.declare name).spelled spell = (Γ.spelled spell).declare (spell.own Γ.origins name) := by
  cases Γ <;> rfl

theorem Context.spelled_declareAll (Γ : Context) (ps : List Name) :
    (Γ.declareAll ps).spelled spell =
      (Γ.spelled spell).declareAll (ps.map fun p => { p with text := spell.own Γ.origins p.text }) := by
  induction ps generalizing Γ with
  | nil => rfl
  | cons p ps ih =>
    refine (ih (Γ.declare p.text)).trans ?_
    rw [origins_declare,spelled_declare]
    rfl

theorem Context.spelled_ofRoutine (Γ : Context) (r : Routine) : (Γ.ofRoutine r).spelled spell =
    Scopes.declareAll ([] :: Γ.spelled spell)
      (r.params.map fun p => { p with text := spell.own (.routine r :: Γ.origins) p.text }) :=
  spelled_declareAll (⟨.routine r,[]⟩ :: Γ) r.params

theorem Routine.name_respell (os : List Origin) (r : Routine) : (r.respell spell os).name = r.name := by
  cases r
  rfl

theorem Stmt.declared?_respell (os : List Origin) (t : Stmt) (keeps : t.Keeps spell os) :
    (t.respell spell os).declared? =
      t.declared?.map fun n => { n with text := spell.own os n.text } := by
  cases t with
  | var => rfl
  | branch _ _ _ no => cases no <;> rfl
  | function r =>
    cases r
    simp only [respell,Routine.respell,declared?,Option.map_some,keeps.1]
  | klass name => simp only [respell,declared?,Option.map_some,keeps.1]
  | _ => rfl

/-- What a statement declares is spelled as its scope spells it. -/
theorem Context.spelled_afterStmt (t : Stmt) (keeps : t.Keeps spell Γ.origins) :
    (Γ.afterStmt t).spelled spell =
      (Γ.spelled spell).afterStmt (t.respell spell Γ.origins) := by
  rw [afterStmt,Scopes.afterStmt,t.declared?_respell _ keeps]
  cases t.declared? with
  | none => rfl
  | some n => exact spelled_declare Γ n.text

end

/-! ## Names that are free -/

namespace Context
variable {Γ : Context} {y : String}

theorem Free.declare (free : Γ.Free y) {name : String} (ne : name ≠ y) : (Γ.declare name).Free y := by
  cases Γ with
  | nil => exact free
  | cons layer Γ =>
    obtain ⟨here,free⟩ := List.forall_mem_cons.mp free
    exact List.forall_mem_cons.mpr ⟨fun h => (List.mem_cons.mp h).elim (ne ·.symm) here,free⟩

theorem Free.declareAll (free : Γ.Free y) {ps : List Name} (ne : ∀ p ∈ ps, p.text ≠ y) :
    (Γ.declareAll ps).Free y := by
  induction ps generalizing Γ with
  | nil => exact free
  | cons p ps ih =>
    obtain ⟨first,rest⟩ := List.forall_mem_cons.mp ne
    exact ih (free.declare first) rest

theorem Free.cons (free : Γ.Free y) {layer : Layer} (absent : y ∉ layer.names) :
    Free (layer :: Γ) y := List.forall_mem_cons.mpr ⟨absent,free⟩

theorem Free.ofRoutine (free : Γ.Free y) {r : Routine} (ne : ∀ p ∈ r.params, p.text ≠ y) :
    (Γ.ofRoutine r).Free y := (free.cons List.not_mem_nil).declareAll ne

theorem Free.afterStmt (free : Γ.Free y) {t : Stmt} (ne : ∀ n ∈ t.declared?, n.text ≠ y) :
    (Γ.afterStmt t).Free y := by
  rw [Context.afterStmt]
  cases e : t.declared? with
  | none => exact free
  | some n => exact free.declare (ne n e)

end Context

/-! ## Depths of renamed uses -/

section
variable {spell : Spelling} {x y : String} (renames : spell.Renames x y)
include renames

theorem Spelling.Renames.along (os : List Origin) (depth : Option Nat) {n : String} (ne : n ≠ y) :
    spell.along os depth n = n ∨ n = x ∧ spell.along os depth n = y := by
  rw [Spelling.along]
  split
  · exact renames.inScope _ n ne
  · exact .inl rfl

/-- Names are spelled apart, whatever the scopes are that they are seen from. -/
theorem Spelling.Renames.eq_of_along {os us : List Origin} {c d : Option Nat} {n m : String}
    (hn : n ≠ y) (hm : m ≠ y) (same : spell.along os c n = spell.along us d m) : n = m := by
  rcases renames.along os c hn with e | ⟨rfl,e⟩ <;> rcases renames.along us d hm with e' | ⟨rfl,e'⟩
  · rwa [e,e'] at same
  · exact absurd ((e.symm.trans same).trans e') hn
  · exact absurd ((e'.symm.trans same.symm).trans e) hm
  · rfl

theorem Spelling.Renames.this (o : Origin) : spell.inScope o "this" = "this" :=
  (renames.inScope o "this" renames.new.1.symm).resolve_right fun e => renames.old.1 e.1.symm

theorem Spelling.Renames.super (o : Origin) : spell.inScope o "super" = "super" :=
  (renames.inScope o "super" renames.new.2.symm).resolve_right fun e => renames.old.2 e.1.symm

variable {Γ : Context}

theorem Context.spelled_ofMethod (r : Routine) :
    (Γ.ofMethod r).spelled spell = ["this"] :: Γ.spelled spell := by
  simp [ofMethod,spelled,renames.this]

theorem Context.spelled_ofClass (name : Name) (superclass : Option Reference) :
    ["this"] :: (Γ.ofClass name superclass).spelled spell =
      (Γ.spelled spell).ofClass superclass := by
  cases superclass with
  | none => rfl
  | some r => simp [ofClass,Scopes.ofClass,spelled,renames.super]

/-- Renamed uses lead where they did. -/
theorem Context.Free.depth? (free : Γ.Free y) {n : String} (ne : n ≠ y) :
    (Γ.spelled spell).depth? (spell.along Γ.origins (Γ.scopes.depth? n) n) = Γ.scopes.depth? n := by
  induction Γ with
  | nil => rfl
  | cons layer Γ ih =>
    obtain ⟨here,free⟩ := List.forall_mem_cons.mp free
    simp only [spelled,List.map_cons,scopes_cons,Scopes.depth?]
    by_cases held : n ∈ layer.names
    · rw [if_pos (List.contains_iff_mem.mpr held)]
      exact if_pos (List.contains_iff_mem.mpr (List.mem_map_of_mem held))
    · rw [if_neg (fun h => held (List.contains_iff_mem.mp h))]
      have outward : spell.along (origins (layer :: Γ)) ((scopes Γ |>.depth? n).map (· + 1)) n =
          spell.along (origins Γ) (scopes Γ |>.depth? n) n := by
        cases scopes Γ |>.depth? n <;> rfl
      rw [outward,if_neg]
      · exact congrArg _ (ih free)
      · intro there
        obtain ⟨m,hm,same⟩ := List.mem_map.mp (List.contains_iff_mem.mp there)
        have same : spell.along [layer.origin] (some 0) m = spell.along (origins Γ) (scopes Γ |>.depth? n) n :=
          same
        have apart : m ≠ y := fun e => here (e ▸ hm)
        exact held (renames.eq_of_along apart ne same ▸ hm)

theorem Spelling.Renames.along_this (os : List Origin) (depth : Option Nat) :
    spell.along os depth "this" = "this" := by
  rw [Spelling.along]
  split
  · exact renames.this _
  · rfl

theorem Spelling.Renames.along_super (os : List Origin) (depth : Option Nat) :
    spell.along os depth "super" = "super" := by
  rw [Spelling.along]
  split
  · exact renames.super _
  · rfl

theorem Context.Free.depth?_this (free : Γ.Free y) :
    (Γ.spelled spell).depth? "this" = Γ.scopes.depth? "this" := by
  have same := free.depth? renames renames.new.1.symm
  rwa [renames.along_this] at same

theorem Context.Free.depth?_super (free : Γ.Free y) :
    (Γ.spelled spell).depth? "super" = Γ.scopes.depth? "super" := by
  have same := free.depth? renames renames.new.2.symm
  rwa [renames.along_super] at same

end

end Lox
