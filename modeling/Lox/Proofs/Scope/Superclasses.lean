import Lox.Proofs.Scope.Sites

/-! # Uses of superclasses

The innermost scope of `super` around a place of a program is that of a class with a superclass, and
between it and the place stands the scope of a method. So a use of `super` leads to the class in whose
text it stands.
-/
namespace Lox

/-! ## Resolving keeps names -/

section
variable {ok : String → Prop}

mutual

theorem Expr.named_resolve (scopes : Scopes) : (e : Expr) → e.Named ok → (e.resolve scopes).Named ok
  | .literal _ _, _ | .this _ _, _ | .super _ _ _, _ => trivial
  | .grouping _ e, named | .unary _ _ e, named | .get e _, named => e.named_resolve scopes named
  | .var _, named => named
  | .assign _ e, named => ⟨named.1,e.named_resolve scopes named.2⟩
  | .binary d _ _ e, named | .logical d _ _ e, named | .set d _ e, named =>
    ⟨d.named_resolve scopes named.1,e.named_resolve scopes named.2⟩
  | .call e _ es, named =>
    ⟨e.named_resolve scopes named.1,argumentsNamed_resolve scopes es named.2⟩

theorem argumentsNamed_resolve (scopes : Scopes) : (es : List Expr) → ArgumentsNamed ok es →
    ArgumentsNamed ok (resolveArguments scopes es)
  | [], _ => trivial
  | e :: es, named => ⟨e.named_resolve scopes named.1,argumentsNamed_resolve scopes es named.2⟩

end

theorem Expr.named_map_resolve (scopes : Scopes) {e : Option Expr} (named : ∀ d ∈ e, d.Named ok) :
    ∀ d ∈ e.map (·.resolve scopes), d.Named ok := by
  intro d hd
  obtain ⟨e,he,rfl⟩ := Option.mem_map.mp hd
  exact e.named_resolve scopes (named e he)

mutual

theorem Stmt.named_resolve (scopes : Scopes) : (s : Stmt) → s.Named ok → (s.resolve scopes).Named ok
  | .expression e, named | .print _ e, named => e.named_resolve scopes named
  | .var _ _, named => ⟨named.1,Expr.named_map_resolve _ named.2⟩
  | .block _ _ body, named => bodyNamed_resolve _ body named
  | .branch _ e yes none, named =>
    ⟨e.named_resolve scopes named.1,yes.named_resolve scopes named.2.1,
      (yes.declared?_resolve scopes).trans named.2.2⟩
  | .branch _ e yes (some no), named =>
    ⟨e.named_resolve scopes named.1,yes.named_resolve scopes named.2.1,
      (yes.declared?_resolve scopes).trans named.2.2.1,no.named_resolve scopes named.2.2.2.1,
      (no.declared?_resolve scopes).trans named.2.2.2.2⟩
  | .loop _ _ e body _, named =>
    ⟨e.named_resolve scopes named.1,body.named_resolve scopes named.2.1,
      (body.declared?_resolve scopes).trans named.2.2.1,Expr.named_map_resolve scopes named.2.2.2⟩
  | .jump _ _, _ => trivial
  | .function r, named => r.named_resolve _ named
  | .leave _ _, named => Expr.named_map_resolve scopes named
  | .klass _ superclass methods, named => by
    refine ⟨named.1,fun r hr => ?_,methodsNamed_resolve _ methods named.2.2⟩
    obtain ⟨q,hq,rfl⟩ := Option.mem_map.mp hr
    exact named.2.1 q hq

theorem Routine.named_resolve (scopes : Scopes) : (r : Routine) → r.Named ok →
    (r.resolve scopes).Named ok
  | ⟨_,_,body⟩, named => ⟨named.1,named.2.1,bodyNamed_resolve _ body named.2.2⟩

theorem bodyNamed_resolve (scopes : Scopes) : (ss : List Stmt) → BodyNamed ok ss →
    BodyNamed ok (resolveAll scopes ss)
  | [], _ => trivial
  | s :: rest, named => ⟨s.named_resolve scopes named.1,bodyNamed_resolve _ rest named.2⟩

theorem methodsNamed_resolve (scopes : Scopes) : (rs : List Routine) → MethodsNamed ok rs →
    MethodsNamed ok (resolveMethods scopes rs)
  | [], _ => trivial
  | r :: rest, named => ⟨r.named_resolve scopes named.1,methodsNamed_resolve scopes rest named.2⟩

end

end

/-! ## The scope of `super` -/

/-- The innermost scope of `super` belongs to a class with a superclass, and the next scope further in
to a method. -/
def Context.Inherits (Γ : Context) : Prop :=
  ∀ d, Γ.scopes.depth? "super" = some d → ∃ (i : Nat) (r : Routine) (name : Name), d = i + 1 ∧
    Γ.origins[i]? = some (.receiver r) ∧ Γ.origins[d]? = some (.superclass name)

namespace Context.Inherits
variable {Γ : Context}

theorem empty : Inherits [] := nofun

theorem declare (inherits : Γ.Inherits) {name : String} (ordinary : Ordinary name) :
    (Γ.declare name).Inherits := by
  simpa only [Inherits,scopes_declare,origins_declare,Scopes.depth?_declare_of_ne _ ordinary.2]
    using inherits

theorem declareAll (inherits : Γ.Inherits) {names : List Name} (ordinary : ∀ n ∈ names, Ordinary n.text) :
    (Γ.declareAll names).Inherits := by
  simpa only [Inherits,scopes_declareAll,origins_declareAll,
    Scopes.depth?_declareAll_of_ne _ fun n hn => (ordinary n hn).2] using inherits

theorem afterStmt (inherits : Γ.Inherits) {s : Stmt} (named : s.Named Ordinary) :
    (Γ.afterStmt s).Inherits := by
  rw [Context.afterStmt]
  cases e : s.declared? with
  | none => exact inherits
  | some name => exact inherits.declare (s.ordinary_declared? named name e)

/-- A scope that does not hold `super`. -/
theorem cons (inherits : Γ.Inherits) (layer : Layer) (other : "super" ∉ layer.names) :
    Inherits (layer :: Γ) := by
  intro d found
  rw [scopes_cons,Scopes.depth?,if_neg (by simpa using other)] at found
  obtain ⟨e,outer,rfl⟩ := Option.map_eq_some_iff.mp found
  obtain ⟨i,r,name,rfl,receiver,superclass⟩ := inherits e outer
  exact ⟨i + 1,r,name,rfl,receiver,superclass⟩

theorem ofRoutine (inherits : Γ.Inherits) {r : Routine} (named : r.Named Ordinary) :
    (Γ.ofRoutine r).Inherits := by
  obtain ⟨name,params,body⟩ := r
  exact (inherits.cons ⟨.routine _,[]⟩ List.not_mem_nil).declareAll named.2.1

/-- The scopes around the methods of a class. -/
theorem ofMethod (inherits : Γ.Inherits) {α : Type} (name : Name) (superclass : Option α) (r : Routine) :
    ((Γ.ofClass name superclass).ofMethod r).Inherits := by
  cases superclass with
  | none => exact inherits.cons ⟨.receiver r,["this"]⟩ (by simp)
  | some _ =>
    intro d found
    obtain rfl : d = 1 := by
      simpa [Context.ofClass,Context.ofMethod,scopes,Scopes.depth?,eq_comm] using found
    exact ⟨0,r,name,rfl,rfl,rfl⟩

end Context.Inherits

section
variable {Γ : Context}

theorem Expr.inherits_of_mem_sites (inherits : Γ.Inherits) (e : Expr) :
    ∀ x ∈ e.sites Γ, x.1.Inherits := by
  intro x hx
  obtain ⟨d,-,rfl⟩ := List.mem_map.mp hx
  exact inherits

theorem Expr.inherits_of_mem_optionSites (inherits : Γ.Inherits) (e : Option Expr) :
    ∀ x ∈ Expr.optionSites Γ e, x.1.Inherits := by
  cases e with
  | none => exact nofun
  | some e => exact e.inherits_of_mem_sites inherits

end

mutual

theorem Stmt.inherits_of_mem_sites {Γ : Context} (inherits : Γ.Inherits) : (s : Stmt) →
    s.Named Ordinary → ∀ x ∈ s.sites Γ, x.1.Inherits
  | .expression e, _ | .print _ e, _ => e.inherits_of_mem_sites inherits
  | .var _ init, named => Expr.inherits_of_mem_optionSites (inherits.declare named.1) init
  | .block _ _ body, named => inherits_of_mem_bodySites (inherits.cons _ List.not_mem_nil) body named
  | .branch _ e yes none, named =>
    List.forall_mem_append.mpr
      ⟨e.inherits_of_mem_sites inherits,yes.inherits_of_mem_sites inherits named.2.1⟩
  | .branch _ e yes (some no), named =>
    List.forall_mem_append.mpr ⟨List.forall_mem_append.mpr
      ⟨e.inherits_of_mem_sites inherits,yes.inherits_of_mem_sites inherits named.2.1⟩,
      no.inherits_of_mem_sites inherits named.2.2.2.1⟩
  | .loop _ _ e body increment, named =>
    List.forall_mem_append.mpr ⟨List.forall_mem_append.mpr
      ⟨e.inherits_of_mem_sites inherits,body.inherits_of_mem_sites inherits named.2.1⟩,
      Expr.inherits_of_mem_optionSites inherits increment⟩
  | .jump _ _, _ => nofun
  | .function r, named =>
    r.inherits_of_mem_sites ((inherits.declare (r.ordinary_name named)).ofRoutine named) named
  | .leave _ value, _ => Expr.inherits_of_mem_optionSites inherits value
  | .klass name superclass methods, named => by
    refine List.forall_mem_append.mpr ⟨?_,inherits_of_mem_methodSites
      ((inherits.declare named.1).ofMethod name superclass) methods named.2.2⟩
    cases superclass with
    | none => exact nofun
    | some r => exact (Expr.var r).inherits_of_mem_sites (inherits.declare named.1)

theorem Routine.inherits_of_mem_sites {Γ : Context} (inherits : Γ.Inherits) : (r : Routine) →
    r.Named Ordinary → ∀ x ∈ r.sites Γ, x.1.Inherits
  | ⟨_,_,body⟩, named => inherits_of_mem_bodySites inherits body named.2.2

theorem inherits_of_mem_bodySites {Γ : Context} (inherits : Γ.Inherits) : (ss : List Stmt) →
    BodyNamed Ordinary ss → ∀ x ∈ bodySites Γ ss, x.1.Inherits
  | [], _ => nofun
  | s :: rest, named =>
    List.forall_mem_append.mpr ⟨s.inherits_of_mem_sites inherits named.1,
      inherits_of_mem_bodySites (inherits.afterStmt named.1) rest named.2⟩

theorem inherits_of_mem_methodSites {Γ : Context} (inherits : ∀ r, (Γ.ofMethod r).Inherits) :
    (rs : List Routine) → MethodsNamed Ordinary rs → ∀ x ∈ methodSites Γ rs, x.1.Inherits
  | [], _ => nofun
  | r :: rest, named =>
    List.forall_mem_append.mpr ⟨r.inherits_of_mem_sites ((inherits r).ofRoutine named.1) named.1,
      inherits_of_mem_methodSites inherits rest named.2⟩

end

theorem Program.inherits_of_mem_sites {p : Program} (named : BodyNamed Ordinary p) :
    ∀ x ∈ p.resolve.sites, x.1.Inherits :=
  inherits_of_mem_bodySites .empty _ (bodyNamed_resolve [] p named)

end Lox
