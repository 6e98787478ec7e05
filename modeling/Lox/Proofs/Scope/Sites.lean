import Lox.Proofs.Scope.Context
import Lox.Proofs.Scope.Naming
import Lox.Scope.Rules

/-! # Sites

The places of a resolved program where a scope is used, each with the scopes that are open there and
the names that they hold by then. The depth at a site leads to the innermost scope that holds the
name. A program without errors of scope fits the contexts of its sites: at run time the same names
are bound there, but for a variable in its own initializer and a class where its superclass is read.
-/
namespace Lox

/-- The name that a use of a scope is about, and its depth. -/
def Expr.sought : Expr → Option (String × Option Nat)
  | .var r | .assign r _ => some (r.name.text,r.depth)
  | .this _ depth => some ("this",depth)
  | .super _ _ depth => some ("super",depth)
  | _ => none

mutual

/-- The uses of scopes in an expression. -/
def Expr.uses : Expr → List Expr
  | .literal _ _ => []
  | .grouping _ e | .unary _ _ e | .get e _ => e.uses
  | .var r => [.var r]
  | .assign r e => .assign r e :: e.uses
  | .binary d _ _ e | .logical d _ _ e | .set d _ e => d.uses ++ e.uses
  | .call e _ es => e.uses ++ argumentUses es
  | .this pos depth => [.this pos depth]
  | .super pos method depth => [.super pos method depth]
termination_by structural e => e

def argumentUses : List Expr → List Expr
  | [] => []
  | e :: es => e.uses ++ argumentUses es
termination_by structural es => es

end

/-- A use of a scope, in the context of the names declared before it. -/
abbrev Site := Context × Expr

def Expr.sites (Γ : Context) (e : Expr) : List Site := e.uses.map (Γ,·)

def Expr.optionSites (Γ : Context) : Option Expr → List Site
  | none => []
  | some e => e.sites Γ

def superclassSites (Γ : Context) : Option Reference → List Site
  | none => []
  | some r => (Expr.var r).sites Γ

mutual

def Stmt.sites (Γ : Context) : Stmt → List Site
  | .expression e | .print _ e => e.sites Γ
  | .var name init => Expr.optionSites (Γ.declare name.text) init
  | .block pos form body => bodySites (⟨.block pos form body,[]⟩ :: Γ) body
  | .branch _ condition yes none => condition.sites Γ ++ yes.sites Γ
  | .branch _ condition yes (some no) => condition.sites Γ ++ yes.sites Γ ++ no.sites Γ
  | .loop _ _ condition body increment =>
    condition.sites Γ ++ body.sites Γ ++ Expr.optionSites Γ increment
  | .jump _ _ => []
  | .function r => r.sites ((Γ.declare r.name.text).ofRoutine r)
  | .leave _ value => Expr.optionSites Γ value
  | .klass name superclass methods =>
    superclassSites (Γ.declare name.text) superclass ++
      methodSites ((Γ.declare name.text).ofClass name superclass) methods
termination_by structural s => s

def Routine.sites (Γ : Context) : Routine → List Site
  | ⟨_,_,body⟩ => bodySites Γ body
termination_by structural r => r

def bodySites (Γ : Context) : List Stmt → List Site
  | [] => []
  | s :: rest => s.sites Γ ++ bodySites (Γ.afterStmt s) rest
termination_by structural ss => ss

def methodSites (Γ : Context) : List Routine → List Site
  | [] => []
  | r :: rest => r.sites ((Γ.ofMethod r).ofRoutine r) ++ methodSites Γ rest
termination_by structural rs => rs

end

/-- The sites of a resolved program. -/
def Program.sites (p : Program) : List Site := bodySites [] p

/-- The name of a variable that is used. -/
def Expr.Naming (ok : String → Prop) : Expr → Prop
  | .var r | .assign r _ => ok r.name.text
  | _ => True

/-- The depth of a use is that of the innermost scope that holds the name, and the name is as is
asked for. -/
structure Expr.Settled (ok : String → Prop) (scopes : Scopes) (e : Expr) : Prop where
  depth (name : String) (depth : Option Nat) : e.sought = some (name,depth) →
    depth = scopes.depth? name
  naming : e.Naming ok

namespace Scopes

theorem depth?_declare_of_ne (scopes : Scopes) {name other : String} (h : name ≠ other) :
    (scopes.declare name).depth? other = scopes.depth? other := by
  cases scopes with
  | nil => rfl
  | cons scope outer => simp [declare,depth?,h.symm]

theorem depth?_declareAll_of_ne (scopes : Scopes) {names : List Name} {other : String}
    (h : ∀ n ∈ names, n.text ≠ other) :
    (scopes.declareAll names).depth? other = scopes.depth? other := by
  induction names generalizing scopes with
  | nil => rfl
  | cons n names ih =>
    obtain ⟨first,rest⟩ := List.forall_mem_cons.mp h
    exact (ih (scopes.declare n.text) rest).trans (scopes.depth?_declare_of_ne first)

theorem depth?_open (scopes : Scopes) (name : String) :
    depth? ([] :: scopes) name = (scopes.depth? name).map (· + 1) := rfl

end Scopes

namespace Context
variable {Γ : Context} {name : String}

/-- The scope at the depth of a name holds it. -/
theorem binds_depth? : Γ.Binds (Γ.scopes.depth? name) name := by
  induction Γ with
  | nil => exact nofun
  | cons layer Γ ih =>
    intro d hd
    simp only [scopes,List.map_cons,Scopes.depth?] at hd
    split at hd
    · next held =>
      obtain rfl := Option.mem_some_iff.mp hd
      exact ⟨layer,rfl,by simpa using held⟩
    · obtain ⟨d,inner,rfl⟩ := Option.mem_map.mp hd
      exact ih d inner

/-- A name without a depth is in no scope. -/
theorem not_mem_of_depth?_eq_none (h : Γ.scopes.depth? name = none) :
    ∀ layer ∈ Γ, name ∉ layer.names := by
  induction Γ with
  | nil => exact nofun
  | cons layer Γ ih =>
    simp only [scopes,List.map_cons,Scopes.depth?] at h
    split at h
    · cases h
    · next absent =>
      refine List.forall_mem_cons.mpr ⟨by simpa using absent,ih ?_⟩
      simpa [scopes] using h

theorem Binds.reaches {depth : Option Nat} (h : Γ.Binds depth name) : Γ.Reaches depth := by
  intro d hd
  obtain ⟨layer,at_depth,-⟩ := h d hd
  exact (List.getElem?_eq_some_iff.mp at_depth).1

theorem length_eq {Δ : Context} (h : Δ.origins = Γ.origins) : Δ.length = Γ.length := by
  simpa [origins] using congrArg List.length h

theorem Reaches.of_origins {Δ : Context} {depth : Option Nat} (h : Δ.Reaches depth)
    (same : Δ.origins = Γ.origins) : Γ.Reaches depth := fun d hd =>
  length_eq same ▸ h d hd

@[simp] theorem scopes_cons (layer : Layer) (Γ : Context) :
    scopes (layer :: Γ) = layer.names :: Γ.scopes := rfl

@[simp] theorem scopes_ofRoutine (Γ : Context) (r : Routine) :
    (Γ.ofRoutine r).scopes = Scopes.declareAll ([] :: Γ.scopes) r.params :=
  scopes_declareAll _ r.params

@[simp] theorem scopes_ofMethod (Γ : Context) (r : Routine) :
    (Γ.ofMethod r).scopes = ["this"] :: Γ.scopes := rfl

@[simp] theorem afterStmt_resolve (Γ : Context) (scopes : Scopes) (s : Stmt) :
    Γ.afterStmt (s.resolve scopes) = Γ.afterStmt s := by
  rw [afterStmt,Stmt.declared?_resolve,afterStmt]

@[simp] theorem ofClass_resolve (Γ : Context) (name : Name) (superclass : Option Reference)
    (f : Reference → Reference) : Γ.ofClass name (superclass.map f) = Γ.ofClass name superclass := by
  cases superclass <;> rfl

theorem scopes_ofClass (Γ : Context) (name : Name) (superclass : Option Reference) :
    Γ.scopes.ofClass superclass = ["this"] :: (Γ.ofClass name superclass).scopes := by
  cases superclass <;> rfl

end Context

/-! ## Sites are resolved -/

section
variable {ok : String → Prop}

mutual

theorem Expr.settled_of_mem_uses (scopes : Scopes) : (e : Expr) → e.Named ok →
    ∀ d ∈ (e.resolve scopes).uses, d.Settled ok scopes
  | .literal _ _, _ => nofun
  | .grouping _ e, named | .unary _ _ e, named | .get e _, named => e.settled_of_mem_uses scopes named
  | .var r, named => List.forall_mem_singleton.mpr ⟨by rintro _ _ ⟨⟩; rfl,named⟩
  | .assign r e, named =>
    List.forall_mem_cons.mpr
      ⟨⟨by rintro _ _ ⟨⟩; rfl,named.1⟩,e.settled_of_mem_uses scopes named.2⟩
  | .binary d _ _ e, named | .logical d _ _ e, named | .set d _ e, named =>
    List.forall_mem_append.mpr
      ⟨d.settled_of_mem_uses scopes named.1,e.settled_of_mem_uses scopes named.2⟩
  | .call e _ es, named =>
    List.forall_mem_append.mpr
      ⟨e.settled_of_mem_uses scopes named.1,settled_of_mem_argumentUses scopes es named.2⟩
  | .this _ _, _ | .super _ _ _, _ =>
    List.forall_mem_singleton.mpr ⟨by rintro _ _ ⟨⟩; rfl,trivial⟩

theorem settled_of_mem_argumentUses (scopes : Scopes) : (es : List Expr) → ArgumentsNamed ok es →
    ∀ d ∈ argumentUses (resolveArguments scopes es), d.Settled ok scopes
  | [], _ => nofun
  | e :: es, named =>
    List.forall_mem_append.mpr
      ⟨e.settled_of_mem_uses scopes named.1,settled_of_mem_argumentUses scopes es named.2⟩

end

section
variable {Γ : Context}

theorem Expr.settled_of_mem_sites {e : Expr} (named : e.Named ok) :
    ∀ x ∈ (e.resolve Γ.scopes).sites Γ, x.2.Settled ok x.1.scopes := by
  intro x hx
  obtain ⟨d,hd,rfl⟩ := List.mem_map.mp hx
  exact e.settled_of_mem_uses Γ.scopes named d hd

theorem Expr.settled_of_mem_optionSites {e : Option Expr} (named : ∀ d ∈ e, d.Named ok) :
    ∀ x ∈ Expr.optionSites Γ (e.map (·.resolve Γ.scopes)), x.2.Settled ok x.1.scopes := by
  cases e with
  | none => exact nofun
  | some e => exact Expr.settled_of_mem_sites (named e rfl)

end

mutual

theorem Stmt.settled_of_mem_sites (Γ : Context) : (s : Stmt) → s.Named ok →
    ∀ x ∈ (s.resolve Γ.scopes).sites Γ, x.2.Settled ok x.1.scopes
  | .expression _, named | .print _ _, named => Expr.settled_of_mem_sites named
  | .var name init, named => by
    simp only [Stmt.resolve,Stmt.sites,← Context.scopes_declare]
    exact Expr.settled_of_mem_optionSites named.2
  | .block pos form body, named => settled_of_mem_bodySites (⟨.block pos form _,[]⟩ :: Γ) body named
  | .branch _ _ yes none, named =>
    List.forall_mem_append.mpr
      ⟨Expr.settled_of_mem_sites named.1,yes.settled_of_mem_sites Γ named.2.1⟩
  | .branch _ _ yes (some no), named =>
    List.forall_mem_append.mpr ⟨List.forall_mem_append.mpr
      ⟨Expr.settled_of_mem_sites named.1,yes.settled_of_mem_sites Γ named.2.1⟩,
      no.settled_of_mem_sites Γ named.2.2.2.1⟩
  | .loop _ _ _ body _, named =>
    List.forall_mem_append.mpr ⟨List.forall_mem_append.mpr
      ⟨Expr.settled_of_mem_sites named.1,body.settled_of_mem_sites Γ named.2.1⟩,
      Expr.settled_of_mem_optionSites named.2.2.2⟩
  | .jump _ _, _ => nofun
  | .function r, named => by
    simp only [Stmt.resolve,Stmt.sites,Routine.name_resolve,← Context.scopes_declare]
    exact r.settled_of_mem_sites (Γ.declare r.name.text) named
  | .leave _ _, named => Expr.settled_of_mem_optionSites named
  | .klass name superclass methods, named => by
    simp only [Stmt.resolve,Stmt.sites,← Context.scopes_declare,Context.ofClass_resolve,
      Context.scopes_ofClass _ name superclass]
    refine List.forall_mem_append.mpr ⟨?_,settled_of_mem_methodSites _ methods named.2.2⟩
    cases superclass with
    | none => exact nofun
    | some r => exact Expr.settled_of_mem_sites (e := .var r) (named.2.1 r rfl)

theorem Routine.settled_of_mem_sites (Γ : Context) : (r : Routine) → r.Named ok →
    ∀ x ∈ (r.resolve Γ.scopes).sites (Γ.ofRoutine (r.resolve Γ.scopes)),
      x.2.Settled ok x.1.scopes
  | ⟨name,params,body⟩, named => by
    have inner := settled_of_mem_bodySites
      (Γ.ofRoutine (Routine.resolve Γ.scopes ⟨name,params,body⟩)) body named.2.2
    rwa [Context.scopes_ofRoutine] at inner

theorem settled_of_mem_bodySites (Γ : Context) : (ss : List Stmt) → BodyNamed ok ss →
    ∀ x ∈ bodySites Γ (resolveAll Γ.scopes ss), x.2.Settled ok x.1.scopes
  | [], _ => nofun
  | s :: rest, named => by
    simp only [resolveAll,bodySites,Context.afterStmt_resolve,← Context.scopes_afterStmt]
    exact List.forall_mem_append.mpr ⟨s.settled_of_mem_sites Γ named.1,
      settled_of_mem_bodySites (Γ.afterStmt s) rest named.2⟩

theorem settled_of_mem_methodSites (Γ : Context) : (rs : List Routine) → MethodsNamed ok rs →
    ∀ x ∈ methodSites Γ (resolveMethods (["this"] :: Γ.scopes) rs), x.2.Settled ok x.1.scopes
  | [], _ => nofun
  | r :: rest, named =>
    List.forall_mem_append.mpr
      ⟨r.settled_of_mem_sites (Γ.ofMethod (r.resolve (["this"] :: Γ.scopes))) named.1,
        settled_of_mem_methodSites Γ rest named.2⟩

end

theorem Program.settled_of_mem_sites {p : Program} (named : BodyNamed ok p) :
    ∀ x ∈ p.resolve.sites, x.2.Settled ok x.1.scopes := settled_of_mem_bodySites [] p named

end

/-! ## Programs without errors of scope -/

/-- A name that does not stand for a receiver or a superclass. -/
def Ordinary (name : String) : Prop := name ≠ "this" ∧ name ≠ "super"

/-- Between expressions: in a class there is a scope of `this`, and in a subclass one of `super`
around it. -/
structure Surroundings.Sound (s : Surroundings) : Prop where
  settled : s.initializing = none
  this : s.klass ≠ .none → ∃ d, s.scopes.depth? "this" = some d
  super : s.klass = .derived → ∃ d, s.scopes.depth? "this" = some d ∧
    s.scopes.depth? "super" = some (d + 1)

theorem Routine.ordinary_name : (r : Routine) → r.Named Ordinary → Ordinary r.name.text
  | ⟨_,_,_⟩, named => named.1

theorem Stmt.ordinary_declared? (s : Stmt) (named : s.Named Ordinary) :
    ∀ n ∈ s.declared?, Ordinary n.text := by
  cases s with
  | var | klass =>
    rintro _ ⟨⟩
    exact named.1
  | function r =>
    rintro _ ⟨⟩
    exact r.ordinary_name named
  | _ => exact nofun

namespace Surroundings
variable {s : Surroundings} {name : String}

theorem sound_empty : ({} : Surroundings).Sound where
  settled := rfl
  this h := absurd rfl h
  super := nofun

theorem Sound.declare (sound : s.Sound) (ordinary : Ordinary name) : (s.declare name).Sound where
  settled := sound.settled
  this := by
    simp only [Surroundings.declare,s.scopes.depth?_declare_of_ne ordinary.1]
    exact sound.this
  super := by
    simp only [Surroundings.declare,s.scopes.depth?_declare_of_ne ordinary.1,
      s.scopes.depth?_declare_of_ne ordinary.2]
    exact sound.super

theorem Sound.afterStmt {stmt : Stmt} (sound : s.Sound)
    (ordinary : ∀ n ∈ stmt.declared?, Ordinary n.text) : (s.afterStmt stmt).Sound := by
  rw [Surroundings.afterStmt,Scopes.afterStmt]
  cases e : stmt.declared? with
  | none => exact sound
  | some n => exact sound.declare (ordinary n e)

theorem Sound.openScope (sound : s.Sound) : s.openScope.Sound where
  settled := sound.settled
  this klass := by
    obtain ⟨d,this⟩ := sound.this klass
    exact ⟨d + 1,by simp [Surroundings.openScope,Scopes.depth?_open,this]⟩
  super klass := by
    obtain ⟨d,this,super⟩ := sound.super klass
    exact ⟨d + 1,by simp [Surroundings.openScope,Scopes.depth?_open,this,super]⟩

theorem Sound.inLoop (sound : s.Sound) : { s with inLoop := true }.Sound := { sound with }

theorem Sound.routine (sound : s.Sound) {params : List Name}
    (ordinary : ∀ p ∈ params, Ordinary p.text) :
    { s.routine with scopes := s.routine.scopes.declareAll params }.Sound where
  settled := sound.settled
  this := by
    rw [Scopes.depth?_declareAll_of_ne _ fun p hp => (ordinary p hp).1]
    exact sound.openScope.this
  super := by
    rw [Scopes.depth?_declareAll_of_ne _ fun p hp => (ordinary p hp).1,
      Scopes.depth?_declareAll_of_ne _ fun p hp => (ordinary p hp).2]
    exact sound.openScope.super

theorem Sound.classBody (sound : s.Sound) (superclass : Option Reference) :
    (s.classBody superclass).Sound where
  settled := sound.settled
  this _ := ⟨0,by cases superclass <;> simp [Surroundings.classBody,Scopes.ofClass,Scopes.depth?]⟩
  super klass := by
    refine ⟨0,?_⟩
    cases superclass with
    | none => cases klass
    | some r => simp [Surroundings.classBody,Scopes.ofClass,Scopes.depth?]

end Surroundings

/-- What an expression may use: the names that are bound at run time, but not the variable that it
initializes. -/
structure Sees (s : Surroundings) (Δ Γ : Context) : Prop where
  origins : Δ.origins = Γ.origins
  binds name : s.initializing ≠ some name → Γ.Binds (Δ.scopes.depth? name) name
  this : s.klass ≠ .none → ∃ d, Δ.scopes.depth? "this" = some d ∧ Γ.Binds (some d) "this"
  super : s.klass = .derived → ∃ d, Δ.scopes.depth? "super" = some (d + 1) ∧
    Γ.Binds (some (d + 1)) "super" ∧ Γ.Binds (some d) "this"

section
variable {s : Surroundings} {Δ Γ : Context}

theorem Surroundings.Sound.sees (sound : s.Sound) (same : s.scopes = Γ.scopes) : Sees s Γ Γ where
  origins := rfl
  binds _ _ := Context.binds_depth?
  this klass := by
    obtain ⟨d,this⟩ := sound.this klass
    rw [same] at this
    exact ⟨d,this,this ▸ Context.binds_depth?⟩
  super klass := by
    obtain ⟨d,this,super⟩ := sound.super klass
    rw [same] at this super
    exact ⟨d,super,super ▸ Context.binds_depth?,this ▸ Context.binds_depth?⟩

theorem Surroundings.Sound.sees_initializer (sound : s.Sound) (same : s.scopes = Γ.scopes)
    {name : String} (ordinary : Ordinary name) : Sees (s.initializer name) (Γ.declare name) Γ where
  origins := Γ.origins_declare name
  binds other unlike := by
    rw [Context.scopes_declare]
    cases Γ with
    | nil => exact nofun
    | cons layer Γ =>
      have filled : s.scopes.isEmpty = false := by rw [same]; rfl
      have ne : name ≠ other := by simpa [Surroundings.initializer,filled] using unlike
      rw [Scopes.depth?_declare_of_ne _ ne]
      exact Context.binds_depth?
  this klass := by
    rw [Context.scopes_declare,Scopes.depth?_declare_of_ne _ ordinary.1]
    exact (sound.sees same).this klass
  super klass := by
    rw [Context.scopes_declare,Scopes.depth?_declare_of_ne _ ordinary.2]
    exact (sound.sees same).super klass

end

mutual

theorem Expr.fits_resolve {s : Surroundings} {Δ Γ : Context} {use : Expr → Prop} (sees : Sees s Δ Γ) :
    (e : Expr) → e.scopeErrors s = [] → (∀ d ∈ (e.resolve Δ.scopes).uses, use d) →
      (e.resolve Δ.scopes).Fits use Γ
  | .literal _ _, _, _ => trivial
  | .grouping _ e, clean, used => e.fits_resolve sees clean used
  | .unary _ _ e, clean, used => e.fits_resolve sees clean used
  | .get e _, clean, used => e.fits_resolve sees clean used
  | .var r, clean, used => by
    refine ⟨used _ List.mem_cons_self,sees.binds _ fun own => ?_⟩
    simp [Expr.scopeErrors,own,scopeError] at clean
  | .assign r e, clean, used =>
    have used := List.forall_mem_cons.mp used
    ⟨used.1,Context.binds_depth?.reaches.of_origins sees.origins,e.fits_resolve sees clean used.2⟩
  | .binary d _ _ e, clean, used | .logical d _ _ e, clean, used =>
    have clean := List.append_eq_nil_iff.mp clean
    have used := List.forall_mem_append.mp used
    ⟨d.fits_resolve sees clean.1 used.1,e.fits_resolve sees clean.2 used.2⟩
  | .set d _ e, clean, used =>
    have clean := List.append_eq_nil_iff.mp clean
    have used := List.forall_mem_append.mp used
    ⟨d.fits_resolve sees clean.2 used.1,e.fits_resolve sees clean.1 used.2⟩
  | .call e _ es, clean, used =>
    have clean := List.append_eq_nil_iff.mp clean
    have used := List.forall_mem_append.mp used
    ⟨e.fits_resolve sees clean.1 used.1,argumentsFit_resolve sees es clean.2 used.2⟩
  | .this pos depth, clean, used => by
    have klass : s.klass ≠ .none := fun outside => by
      simp [Expr.scopeErrors,outside,scopeError] at clean
    exact ⟨used _ List.mem_cons_self,sees.this klass⟩
  | .super pos method depth, clean, used => by
    have klass : s.klass = .derived := by
      cases e : s.klass with
      | derived => rfl
      | _ => simp [Expr.scopeErrors,e,scopeError] at clean
    exact ⟨used _ List.mem_cons_self,sees.super klass⟩

theorem argumentsFit_resolve {s : Surroundings} {Δ Γ : Context} {use : Expr → Prop}
    (sees : Sees s Δ Γ) : (es : List Expr) → argumentErrors s es = [] →
      (∀ d ∈ argumentUses (resolveArguments Δ.scopes es), use d) →
      ArgumentsFit use Γ (resolveArguments Δ.scopes es)
  | [], _, _ => trivial
  | e :: es, clean, used =>
    have clean := List.append_eq_nil_iff.mp clean
    have used := List.forall_mem_append.mp used
    ⟨e.fits_resolve sees clean.1 used.1,argumentsFit_resolve sees es clean.2 used.2⟩

end

section
variable {use : Context → Expr → Prop}

/-- The uses at the sites are as is asked for in any context of the same scopes. -/
def Covers (use : Context → Expr → Prop) (xs : List Site) : Prop :=
  ∀ x ∈ xs, ∀ Γ : Context, x.1.origins = Γ.origins → use Γ x.2

theorem covers_append {xs ys : List Site} : Covers use (xs ++ ys) ↔ Covers use xs ∧ Covers use ys :=
  List.forall_mem_append

theorem Covers.uses {Δ Γ : Context} {e : Expr} (covers : Covers use (e.sites Δ))
    (same : Δ.origins = Γ.origins) : ∀ d ∈ e.uses, use Γ d := fun _ hd =>
  covers _ (List.mem_map_of_mem hd) Γ same

theorem Expr.fits_of_sites {s : Surroundings} {Δ Γ : Context} {e : Expr} (sees : Sees s Δ Γ)
    (clean : e.scopeErrors s = []) (covers : Covers use ((e.resolve Δ.scopes).sites Δ)) :
    (e.resolve Δ.scopes).Fits (use Γ) Γ :=
  e.fits_resolve sees clean (covers.uses sees.origins)

theorem Expr.fits_of_optionSites {s : Surroundings} {Δ Γ : Context} {e : Option Expr}
    (sees : Sees s Δ Γ) (clean : Expr.optionErrors s e = [])
    (covers : Covers use (Expr.optionSites Δ (e.map (·.resolve Δ.scopes)))) :
    ∀ d ∈ e.map (·.resolve Δ.scopes), d.Fits (use Γ) Γ := by
  cases e with
  | none => exact nofun
  | some e =>
    intro d hd
    obtain rfl := Option.mem_some_iff.mp hd
    exact Expr.fits_of_sites sees clean covers

mutual

theorem Stmt.fits_resolve {s : Surroundings} {Γ : Context} (sound : s.Sound)
    (same : s.scopes = Γ.scopes) : (t : Stmt) → t.Named Ordinary → t.scopeErrors s = [] →
      Covers use ((t.resolve Γ.scopes).sites Γ) → (t.resolve Γ.scopes).Fits .asWritten use Γ
  | .expression e, _, clean, covers => Expr.fits_of_sites (sound.sees same) clean covers
  | .print _ e, _, clean, covers => Expr.fits_of_sites (sound.sees same) clean covers
  | .var name init, named, clean, covers => by
    have clean := (List.append_eq_nil_iff.mp clean).2
    simp only [Stmt.resolve,Stmt.sites,Stmt.Fits,← Context.scopes_declare] at covers ⊢
    exact Expr.fits_of_optionSites (sound.sees_initializer same named.1) clean covers
  | .block pos form body, named, clean, covers =>
    bodyFits_resolve (Γ := ⟨.block pos form _,[]⟩ :: Γ) sound.openScope (by simp [Surroundings.openScope,same])
      body named clean covers
  | .branch _ condition yes none, named, clean, covers =>
    have clean := List.append_eq_nil_iff.mp clean
    have covers := covers_append.mp covers
    ⟨Expr.fits_of_sites (sound.sees same) clean.1 covers.1,
      yes.fits_resolve sound same named.2.1 clean.2 covers.2⟩
  | .branch _ condition yes (some no), named, clean, covers => by
    obtain ⟨clean,clean'⟩ := List.append_eq_nil_iff.mp clean
    obtain ⟨covers,covers'⟩ := covers_append.mp covers
    have clean := List.append_eq_nil_iff.mp clean
    have covers := covers_append.mp covers
    exact ⟨Expr.fits_of_sites (sound.sees same) clean.1 covers.1,
      yes.fits_resolve sound same named.2.1 clean.2 covers.2,
      no.fits_resolve sound same named.2.2.2.1 clean' covers'⟩
  | .loop _ _ condition body increment, named, clean, covers => by
    obtain ⟨clean,clean'⟩ := List.append_eq_nil_iff.mp clean
    obtain ⟨covers,covers'⟩ := covers_append.mp covers
    have clean := List.append_eq_nil_iff.mp clean
    have covers := covers_append.mp covers
    exact ⟨Expr.fits_of_sites (sound.sees same) clean.1 covers.1,
      body.fits_resolve sound.inLoop same named.2.1 clean.2 covers.2,
      Expr.fits_of_optionSites (sound.inLoop.sees same) clean' covers'⟩
  | .jump _ _, _, _, _ => trivial
  | .function r, named, clean, covers => by
    have clean := (List.append_eq_nil_iff.mp clean).2
    simp only [Stmt.resolve,Stmt.sites,Stmt.Fits,Routine.name_resolve,← Context.scopes_declare]
      at covers ⊢
    exact ⟨Spelling.own_asWritten _ _,r.fits_resolve (sound.declare (r.ordinary_name named))
      (by simp [Surroundings.declare,same]) named clean covers⟩
  | .leave _ value, named, clean, covers =>
    Expr.fits_of_optionSites (sound.sees same) (List.append_eq_nil_iff.mp clean).2 covers
  | .klass name superclass methods, named, clean, covers => by
    obtain ⟨clean,inner⟩ := List.append_eq_nil_iff.mp clean
    have own := (List.append_eq_nil_iff.mp clean).2
    simp only [Stmt.resolve,Stmt.sites,Stmt.Fits,Context.ofClass_resolve,← Context.scopes_declare,
      Context.scopes_ofClass _ name superclass] at covers ⊢
    obtain ⟨base,covers⟩ := covers_append.mp covers
    refine ⟨Spelling.own_asWritten _ _,?_,methodsFit_resolve
      ((sound.declare named.1).classBody superclass) ?_ methods named.2.2 inner covers⟩
    · cases superclass with
      | none => exact nofun
      | some r =>
        intro r' hr
        obtain rfl := Option.mem_some_iff.mp hr
        have ne : name.text ≠ r.name.text := fun e => by
          simp [superclassErrors,e,scopeError] at own
        refine ⟨base.uses (Γ.origins_declare name.text) _ List.mem_cons_self,?_⟩
        simp only [Reference.resolve,Context.scopes_declare,Scopes.depth?_declare_of_ne _ ne]
        exact Context.binds_depth?
    · rw [← Context.scopes_ofClass,Surroundings.classBody,Surroundings.declare,same,
        Context.scopes_declare]

theorem Routine.fits_resolve {s : Surroundings} {Γ : Context} (sound : s.Sound)
    (same : s.scopes = Γ.scopes) : (r : Routine) → r.Named Ordinary → r.scopeErrors s = [] →
      Covers use ((r.resolve Γ.scopes).sites (Γ.ofRoutine (r.resolve Γ.scopes))) →
      (r.resolve Γ.scopes).Fits .asWritten use (Γ.ofRoutine (r.resolve Γ.scopes))
  | ⟨name,params,body⟩, named, clean, covers => by
    have inner := bodyFits_resolve
      (Γ := Γ.ofRoutine (Routine.resolve Γ.scopes ⟨name,params,body⟩)) (sound.routine named.2.1)
      (by simp [Surroundings.routine,same,Routine.resolve]) body named.2.2
      (List.append_eq_nil_iff.mp clean).2
    rw [Context.scopes_ofRoutine] at inner
    exact inner covers

theorem bodyFits_resolve {s : Surroundings} {Γ : Context} (sound : s.Sound)
    (same : s.scopes = Γ.scopes) : (ss : List Stmt) → BodyNamed Ordinary ss → blockErrors s ss = [] →
      Covers use (bodySites Γ (resolveAll Γ.scopes ss)) →
      BodyFits .asWritten use Γ (resolveAll Γ.scopes ss)
  | [], _, _, _ => trivial
  | t :: rest, named, clean, covers => by
    have clean := List.append_eq_nil_iff.mp clean
    simp only [resolveAll,bodySites,BodyFits,Context.afterStmt_resolve,← Context.scopes_afterStmt]
      at covers ⊢
    obtain ⟨first,covers⟩ := covers_append.mp covers
    exact ⟨t.fits_resolve sound same named.1 clean.1 first,
      bodyFits_resolve (sound.afterStmt (t.ordinary_declared? named.1))
        (by simp [Surroundings.afterStmt,same]) rest named.2 clean.2 covers⟩

theorem methodsFit_resolve {s : Surroundings} {Γ : Context} (sound : s.Sound)
    (same : s.scopes = ["this"] :: Γ.scopes) :
    (rs : List Routine) → MethodsNamed Ordinary rs → methodErrors s rs = [] →
      Covers use (methodSites Γ (resolveMethods (["this"] :: Γ.scopes) rs)) →
      MethodsFit .asWritten use Γ (resolveMethods (["this"] :: Γ.scopes) rs)
  | [], _, _, _ => trivial
  | r :: rest, named, clean, covers =>
    have clean := List.append_eq_nil_iff.mp clean
    have covers := covers_append.mp covers
    ⟨r.fits_resolve (Γ := Γ.ofMethod (r.resolve (["this"] :: Γ.scopes))) sound same named.1 clean.1
      covers.1,methodsFit_resolve sound same rest named.2 clean.2 covers.2⟩

end

/-- A program without errors of scope fits, if its sites are as is asked for. -/
theorem Program.fits_resolve {p : Program} (named : BodyNamed Ordinary p) (clean : p.scopeErrors = [])
    (covers : Covers use p.resolve.sites) : BodyFits .asWritten use [] p.resolve :=
  bodyFits_resolve (Γ := []) Surroundings.sound_empty rfl p named clean covers

end
end Lox
