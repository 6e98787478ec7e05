import Lox.Proofs.Scope.Sites

/-! # Renaming of variables

Some scopes that declare a variable are picked and the variable is given a new name there, together
with the uses that are resolved to it. In a program without errors of scope no function and no class
is renamed on the way, for a scope declares each name once.
-/
namespace Lox

/-- Whether a statement declares a variable of this name. -/
def Stmt.declares (x : String) : Stmt → Bool
  | .var name _ => name.text == x
  | _ => false

/-- Whether a scope declares a variable or a parameter of this name. -/
def Origin.declares (x : String) : Origin → Bool
  | .block _ _ body => body.any (·.declares x)
  | .routine r => r.params.any (·.text == x) || r.body.any (·.declares x)
  | _ => false

/-- A name has become another one in some scopes. -/
def Spelling.swapping (pick : Origin → Bool) (x y : String) : Spelling where
  inScope o := if pick o then Equiv.swap x y else Equiv.refl String

/-- A function or a class, whose name is printed. -/
def Stmt.title? : Stmt → Option Name
  | .function r => some r.name
  | .klass name _ _ => some name
  | _ => none

section
variable (spell : Spelling)

mutual

/-- Functions and classes keep their names. -/
def Stmt.Keeps (os : List Origin) : Stmt → Prop
  | .expression _ | .print _ _ | .var _ _ | .jump _ _ | .leave _ _ => True
  | .block pos form body => BodyKeeps (.block pos form body :: os) body
  | .branch _ _ yes none => yes.Keeps os
  | .branch _ _ yes (some no) => yes.Keeps os ∧ no.Keeps os
  | .loop _ _ _ body _ => body.Keeps os
  | .function r => spell.own os r.name.text = r.name.text ∧ r.Keeps (.routine r :: os)
  | .klass name superclass methods =>
    spell.own os name.text = name.text ∧ MethodsKeep (classOrigins os name superclass) methods
termination_by structural s => s

def Routine.Keeps (os : List Origin) : Routine → Prop
  | ⟨_,_,body⟩ => BodyKeeps os body
termination_by structural r => r

def BodyKeeps (os : List Origin) : List Stmt → Prop
  | [] => True
  | s :: rest => s.Keeps os ∧ BodyKeeps os rest
termination_by structural ss => ss

def MethodsKeep (os : List Origin) : List Routine → Prop
  | [] => True
  | r :: rest => r.Keeps (.routine r :: .receiver r :: os) ∧ MethodsKeep os rest
termination_by structural rs => rs

end

end

/-! ## Declarations in one scope -/

theorem Scopes.afterStmt_cons (scope : List String) (outer : Scopes) (t : Stmt) :
    Scopes.afterStmt (scope :: outer) t = (t.declared?.toList.map (·.text) ++ scope) :: outer := by
  rw [afterStmt]
  cases t.declared? <;> rfl

section
variable {s : Surroundings} {scope : List String} {outer : Scopes}

theorem not_mem_of_declarationErrors {name : Name} (same : s.scopes = scope :: outer)
    (clean : declarationErrors s.scopes name = []) : name.text ∉ scope := fun held => by
  simp [same,declarationErrors,held,scopeError] at clean

theorem Stmt.not_mem_of_scopeErrors {t : Stmt} (same : s.scopes = scope :: outer)
    (clean : t.scopeErrors s = []) : ∀ n ∈ t.declared?, n.text ∉ scope := by
  cases t with
  | var | function =>
    rintro _ ⟨⟩
    exact not_mem_of_declarationErrors same (List.append_eq_nil_iff.mp clean).1
  | klass =>
    rintro _ ⟨⟩
    exact not_mem_of_declarationErrors same
      (List.append_eq_nil_iff.mp (List.append_eq_nil_iff.mp clean).1).1
  | _ => exact nofun

/-- What is declared in a scope has not been declared in it before. -/
theorem not_mem_of_blockErrors {ss : List Stmt} (same : s.scopes = scope :: outer)
    (clean : blockErrors s ss = []) : ∀ t ∈ ss, ∀ n ∈ t.declared?, n.text ∉ scope := by
  induction ss generalizing s scope with
  | nil => exact nofun
  | cons t rest ih =>
    obtain ⟨first,clean⟩ := List.append_eq_nil_iff.mp clean
    have later := ih (by rw [Surroundings.afterStmt,same,Scopes.afterStmt_cons]) clean
    refine List.forall_mem_cons.mpr ⟨t.not_mem_of_scopeErrors same first,fun u hu n hn held => ?_⟩
    exact later u hu n hn (List.mem_append_right _ held)

/-- No name is declared twice in a scope. -/
theorem eq_of_blockErrors {ss : List Stmt} (same : s.scopes = scope :: outer)
    (clean : blockErrors s ss = []) {t u : Stmt} (ht : t ∈ ss) (hu : u ∈ ss) {n m : Name}
    (hn : n ∈ t.declared?) (hm : m ∈ u.declared?) (text : n.text = m.text) : t = u := by
  induction ss generalizing s scope with
  | nil => cases ht
  | cons v rest ih =>
    obtain ⟨-,clean⟩ := List.append_eq_nil_iff.mp clean
    have after : (s.afterStmt v).scopes = (v.declared?.toList.map (·.text) ++ scope) :: outer := by
      rw [Surroundings.afterStmt,same,Scopes.afterStmt_cons]
    have later := not_mem_of_blockErrors after clean
    have own : ∀ {n : Name}, n ∈ v.declared? → n.text ∈ v.declared?.toList.map (·.text) ++ scope :=
      fun hn => List.mem_append_left _ (List.mem_map_of_mem (Option.mem_toList.mpr hn))
    rcases List.mem_cons.mp ht with rfl | ht' <;> rcases List.mem_cons.mp hu with rfl | hu'
    · rfl
    · exact absurd (text ▸ own hn) (later u hu' m hm)
    · exact absurd (text ▸ own hm) (later t ht' n hn)
    · exact ih after clean ht' hu'

end

theorem Scopes.declareAll_cons (scope : List String) (outer : Scopes) (ps : List Name) :
    Scopes.declareAll (scope :: outer) ps = ((ps.map (·.text)).reverse ++ scope) :: outer := by
  induction ps generalizing scope with
  | nil => rfl
  | cons p ps ih => exact (ih (p.text :: scope)).trans (by simp)

theorem any_declares_resolveAll (x : String) (scopes : Scopes) (ss : List Stmt) :
    (resolveAll scopes ss).any (·.declares x) = ss.any (·.declares x) := by
  induction ss generalizing scopes with
  | nil => rfl
  | cons t rest ih =>
    have same : (t.resolve scopes).declares x = t.declares x := by
      cases t with
      | branch _ _ _ no => cases no <;> rfl
      | _ => rfl
    simp only [resolveAll,List.any_cons,same,ih]

/-- A variable is neither a function nor a class. -/
theorem Stmt.declares_iff {t : Stmt} {x : String} :
    t.declares x ↔ t.title? = none ∧ ∃ n ∈ t.declared?, n.text = x := by
  cases t <;> simp [declares,title?,declared?]

theorem Stmt.declared?_of_title? (t : Stmt) {n : Name} (h : n ∈ t.title?) : n ∈ t.declared? := by
  cases t <;> first
    | exact h
    | cases h

theorem Stmt.title?_of_declared? {P : Name → Prop} (t : Stmt) (h : t.declared? = none) :
    ∀ n ∈ t.title?, P n := fun n hn => by
  have declared := t.declared?_of_title? hn
  rw [h] at declared
  cases declared

/-! ## Names that are kept -/

section
variable {pick : Origin → Bool} {x y : String}

theorem inScope_swapping_of_ne {o : Origin} {n : String} (other : pick o → n ≠ x) (ne : n ≠ y) :
    (Spelling.swapping pick x y).inScope o n = n := by
  simp only [Spelling.swapping]
  split
  · next h => exact Equiv.swap_apply_of_ne_of_ne (other h) ne
  · rfl

theorem Stmt.ok_title? {ok : String → Prop} {t : Stmt} (named : t.Named ok) :
    ∀ n ∈ t.title?, ok n.text := by
  cases t with
  | klass =>
    rintro _ ⟨⟩
    exact named.1
  | function r =>
    rintro _ ⟨⟩
    cases r
    exact named.1
  | _ => exact nofun

/-- A scope that declares the variable declares no function or class of its name. -/
theorem keeps_title {s : Surroundings} {scope : List String} {outer : Scopes} {ss : List Stmt}
    {o : Origin} {os : List Origin} (same : s.scopes = scope :: outer) (clean : blockErrors s ss = [])
    (named : BodyNamed (· ≠ y) ss) (declares : pick o → x ∈ scope ∨ ss.any (·.declares x)) :
    ∀ t ∈ ss, ∀ n ∈ t.title?, (Spelling.swapping pick x y).own (o :: os) n.text = n.text := by
  intro t ht n hn
  refine inScope_swapping_of_ne (fun picked text => ?_) (Stmt.ok_title? (named.mem ht) n hn)
  rcases declares picked with held | declared
  · exact not_mem_of_blockErrors same clean t ht n (t.declared?_of_title? hn) (text ▸ held)
  · obtain ⟨v,hv,declares⟩ := List.any_eq_true.mp declared
    obtain ⟨untitled,m,hm,rfl⟩ := Stmt.declares_iff.mp declares
    obtain rfl := eq_of_blockErrors same clean ht hv (t.declared?_of_title? hn) hm text
    rw [untitled] at hn
    cases hn

mutual

theorem Stmt.keeps_resolve (declared : ∀ o, pick o → o.declares x) {s : Surroundings}
    {scopes : Scopes} {os : List Origin} : (t : Stmt) →
    t.Named (· ≠ y) → t.scopeErrors s = [] →
    (∀ n ∈ t.title?, (Spelling.swapping pick x y).own os n.text = n.text) →
    (t.resolve scopes).Keeps (.swapping pick x y) os
  | .expression _, _, _, _ | .print _ _, _, _, _ | .var _ _, _, _, _ | .jump _ _, _, _, _
  | .leave _ _, _, _, _ => trivial
  | .block pos form body, named, clean, _ =>
    bodyKeeps_resolve declared body named clean <| keeps_title rfl clean named fun picked =>
      .inr (by simpa [Origin.declares,any_declares_resolveAll] using declared _ picked)
  | .branch _ _ yes none, named, clean, _ =>
    yes.keeps_resolve declared named.2.1 (List.append_eq_nil_iff.mp clean).2 (yes.title?_of_declared? named.2.2)
  | .branch _ _ yes (some no), named, clean, _ => by
    obtain ⟨-,here,alone,there,alone'⟩ := named
    obtain ⟨clean,clean'⟩ := List.append_eq_nil_iff.mp clean
    exact ⟨yes.keeps_resolve declared here (List.append_eq_nil_iff.mp clean).2 (yes.title?_of_declared? alone),
      no.keeps_resolve declared there clean' (no.title?_of_declared? alone')⟩
  | .loop _ _ _ body _, named, clean, _ =>
    body.keeps_resolve declared named.2.1 (List.append_eq_nil_iff.mp (List.append_eq_nil_iff.mp clean).1).2
      (body.title?_of_declared? named.2.2.1)
  | .function r, named, clean, own => by
    have kept := own r.name rfl
    exact ⟨by rwa [Routine.name_resolve],
      r.keeps_resolve declared named (List.append_eq_nil_iff.mp clean).2⟩
  | .klass name superclass methods, named, clean, own => by
    have inner := (List.append_eq_nil_iff.mp clean).2
    exact ⟨own name rfl,methodsKeep_resolve declared methods named.2.2 inner⟩

theorem Routine.keeps_resolve (declared : ∀ o, pick o → o.declares x) {s : Surroundings}
    {scopes : Scopes} {os : List Origin} :
    (r : Routine) → r.Named (· ≠ y) → r.scopeErrors s = [] →
      (r.resolve scopes).Keeps (.swapping pick x y) (.routine (r.resolve scopes) :: os)
  | ⟨name,params,body⟩, named, clean =>
    have clean := (List.append_eq_nil_iff.mp clean).2
    bodyKeeps_resolve declared body named.2.2 clean <|
      keeps_title (Scopes.declareAll_cons [] s.scopes params) clean named.2.2 fun picked => by
        have declares := declared _ picked
        simp only [Origin.declares,Routine.resolve,any_declares_resolveAll,Bool.or_eq_true] at declares
        exact declares.imp (fun h => by simpa using h) id

theorem bodyKeeps_resolve (declared : ∀ o, pick o → o.declares x) {s : Surroundings}
    {scopes : Scopes} {os : List Origin} :
    (ss : List Stmt) → BodyNamed (· ≠ y) ss → blockErrors s ss = [] →
      (∀ t ∈ ss, ∀ n ∈ t.title?, (Spelling.swapping pick x y).own os n.text = n.text) →
      BodyKeeps (.swapping pick x y) os (resolveAll scopes ss)
  | [], _, _, _ => trivial
  | t :: rest, named, clean, own =>
    have clean := List.append_eq_nil_iff.mp clean
    have own := List.forall_mem_cons.mp own
    ⟨t.keeps_resolve declared named.1 clean.1 own.1,bodyKeeps_resolve declared rest named.2 clean.2 own.2⟩

theorem methodsKeep_resolve (declared : ∀ o, pick o → o.declares x) {s : Surroundings}
    {scopes : Scopes} {os : List Origin} :
    (rs : List Routine) → MethodsNamed (· ≠ y) rs → methodErrors s rs = [] →
      MethodsKeep (.swapping pick x y) os (resolveMethods scopes rs)
  | [], _, _ => trivial
  | r :: rest, named, clean =>
    have clean := List.append_eq_nil_iff.mp clean
    ⟨r.keeps_resolve declared named.1 clean.1,methodsKeep_resolve declared rest named.2 clean.2⟩

end

end

section
variable {spell : Spelling} {use : Context → Expr → Prop}

mutual

/-- A program fits in another spelling if that keeps the names of functions and classes. -/
theorem Stmt.fits_respelled {Γ : Context} : (t : Stmt) → t.Keeps spell Γ.origins →
    t.Fits .asWritten use Γ → t.Fits spell use Γ
  | .expression _, _, fits | .print _ _, _, fits | .var _ _, _, fits | .leave _ _, _, fits => fits
  | .jump _ _, _, _ => trivial
  | .block pos form body, keeps, fits =>
    bodyFits_respelled (Γ := ⟨.block pos form body,[]⟩ :: Γ) body keeps fits
  | .branch _ _ yes none, keeps, fits => ⟨fits.1,yes.fits_respelled keeps fits.2⟩
  | .branch _ _ yes (some no), keeps, fits =>
    ⟨fits.1,yes.fits_respelled keeps.1 fits.2.1,no.fits_respelled keeps.2 fits.2.2⟩
  | .loop _ _ _ body _, keeps, fits => ⟨fits.1,body.fits_respelled keeps fits.2.1,fits.2.2⟩
  | .function r, keeps, fits => ⟨keeps.1,r.fits_respelled (by simpa using keeps.2) fits.2⟩
  | .klass name superclass methods, keeps, fits =>
    ⟨keeps.1,fits.2.1,methodsFit_respelled methods (by simpa using keeps.2) fits.2.2⟩

theorem Routine.fits_respelled {Γ : Context} : (r : Routine) → r.Keeps spell Γ.origins →
    r.Fits .asWritten use Γ → r.Fits spell use Γ
  | ⟨_,_,body⟩, keeps, fits => bodyFits_respelled body keeps fits

theorem bodyFits_respelled {Γ : Context} : (ss : List Stmt) → BodyKeeps spell Γ.origins ss →
    BodyFits .asWritten use Γ ss → BodyFits spell use Γ ss
  | [], _, _ => trivial
  | t :: rest, keeps, fits =>
    ⟨t.fits_respelled keeps.1 fits.1,bodyFits_respelled rest (by simpa using keeps.2) fits.2⟩

theorem methodsFit_respelled {Γ : Context} : (rs : List Routine) → MethodsKeep spell Γ.origins rs →
    MethodsFit .asWritten use Γ rs → MethodsFit spell use Γ rs
  | [], _, _ => trivial
  | r :: rest, keeps, fits =>
    ⟨r.fits_respelled (by simpa using keeps.1) fits.1,methodsFit_respelled rest keeps.2 fits.2⟩

end

end

end Lox
