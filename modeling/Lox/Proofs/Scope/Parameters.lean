import Lox.Proofs.Scope.Naming
import Lox.Proofs.Session.Compilation

/-! # Parameters that differ

Resolution does not change what the rules of scope say of a program. A routine that stands in a program
without errors of scope breaks no rule where it stands, so its parameters differ from each other.
-/
namespace Lox

/-! ## Resolution and the rules of scope -/

mutual

theorem Expr.scopeErrors_resolve (scopes : Scopes) (s : Surroundings) :
    (e : Expr) → (e.resolve scopes).scopeErrors s = e.scopeErrors s
  | .literal _ _ | .var _ | .this _ _ | .super _ _ _ => rfl
  | .grouping _ e | .unary _ _ e | .get e _ | .assign _ e => e.scopeErrors_resolve scopes s
  | .binary d _ _ e | .logical d _ _ e =>
    congrArg₂ (· ++ ·) (d.scopeErrors_resolve scopes s) (e.scopeErrors_resolve scopes s)
  | .set d _ e => congrArg₂ (· ++ ·) (e.scopeErrors_resolve scopes s) (d.scopeErrors_resolve scopes s)
  | .call e _ es =>
    congrArg₂ (· ++ ·) (e.scopeErrors_resolve scopes s) (argumentErrors_resolve scopes s es)

theorem argumentErrors_resolve (scopes : Scopes) (s : Surroundings) :
    (es : List Expr) → argumentErrors s (resolveArguments scopes es) = argumentErrors s es
  | [] => rfl
  | e :: es => congrArg₂ (· ++ ·) (e.scopeErrors_resolve scopes s) (argumentErrors_resolve scopes s es)

end

theorem Expr.optionErrors_resolve (scopes : Scopes) (s : Surroundings) (e : Option Expr) :
    Expr.optionErrors s (e.map (·.resolve scopes)) = Expr.optionErrors s e := by
  cases e with
  | none => rfl
  | some e => exact e.scopeErrors_resolve scopes s

theorem Surroundings.afterStmt_resolve (scopes : Scopes) (s : Surroundings) (t : Stmt) :
    s.afterStmt (t.resolve scopes) = s.afterStmt t := by
  simp only [Surroundings.afterStmt,Scopes.afterStmt,Stmt.declared?_resolve]

mutual

theorem Stmt.scopeErrors_resolve (scopes : Scopes) (s : Surroundings) :
    (t : Stmt) → (t.resolve scopes).scopeErrors s = t.scopeErrors s
  | .expression e | .print _ e => e.scopeErrors_resolve scopes s
  | .var _ init | .leave _ init => congrArg (_ ++ ·) (Expr.optionErrors_resolve _ _ init)
  | .block _ _ body => blockErrors_resolve ([] :: scopes) s.openScope body
  | .branch _ condition yes none =>
    congrArg₂ (· ++ ·) (condition.scopeErrors_resolve scopes s) (yes.scopeErrors_resolve scopes s)
  | .branch _ condition yes (some no) =>
    congrArg₂ (· ++ ·) (congrArg₂ (· ++ ·) (condition.scopeErrors_resolve scopes s)
      (yes.scopeErrors_resolve scopes s)) (no.scopeErrors_resolve scopes s)
  | .loop _ _ condition body increment =>
    congrArg₂ (· ++ ·) (congrArg₂ (· ++ ·) (condition.scopeErrors_resolve scopes s)
      (body.scopeErrors_resolve scopes { s with inLoop := true })) (Expr.optionErrors_resolve scopes _ increment)
  | .jump _ _ => rfl
  | .function ⟨name,params,body⟩ =>
    congrArg (_ ++ ·) (Routine.scopeErrors_resolve (scopes.declare name.text) (s.declare name.text)
      ⟨name,params,body⟩)
  | .klass name none methods =>
    congrArg (_ ++ ·) (methodErrors_resolve _ ((s.declare name.text).classBody none) methods)
  | .klass name (some r) methods =>
    congrArg (_ ++ ·) (methodErrors_resolve _ ((s.declare name.text).classBody (some r)) methods)

theorem Routine.scopeErrors_resolve (scopes : Scopes) (s : Surroundings) :
    (r : Routine) → (r.resolve scopes).scopeErrors s = r.scopeErrors s
  | ⟨_,params,body⟩ => congrArg (_ ++ ·) (blockErrors_resolve (Scopes.declareAll ([] :: scopes) params)
      { s.routine with scopes := s.routine.scopes.declareAll params } body)

theorem blockErrors_resolve (scopes : Scopes) (s : Surroundings) :
    (ts : List Stmt) → blockErrors s (resolveAll scopes ts) = blockErrors s ts
  | [] => rfl
  | t :: rest => by
    rw [resolveAll,blockErrors,t.scopeErrors_resolve scopes s,s.afterStmt_resolve,
      blockErrors_resolve (scopes.afterStmt t) (s.afterStmt t) rest]
    rfl

theorem methodErrors_resolve (scopes : Scopes) (s : Surroundings) :
    (rs : List Routine) → methodErrors s (resolveMethods scopes rs) = methodErrors s rs
  | [] => rfl
  | r :: rest => congrArg₂ (· ++ ·) (r.scopeErrors_resolve scopes s) (methodErrors_resolve scopes s rest)

end

/-! ## Trees without errors -/

/-- Somewhere the statement breaks no rule of scope. -/
def Stmt.Flawless (t : Stmt) : Prop := ∃ s, t.scopeErrors s = []

def Expr.Flawless (e : Expr) : Prop := ∃ s, e.scopeErrors s = []

def Routine.Flawless (r : Routine) : Prop := ∃ s, r.scopeErrors s = []

def BodyFlawless (ts : List Stmt) : Prop := ∃ s, blockErrors s ts = []

theorem BodyFlawless.cons {t : Stmt} {rest : List Stmt} (flawless : BodyFlawless (t :: rest)) :
    t.Flawless ∧ BodyFlawless rest := by
  obtain ⟨s,none⟩ := flawless
  obtain ⟨first,later⟩ := List.append_eq_nil_iff.mp none
  exact ⟨⟨s,first⟩,⟨_,later⟩⟩

theorem BodyFlawless.mem {ts : List Stmt} (flawless : BodyFlawless ts) {t : Stmt} (ht : t ∈ ts) :
    t.Flawless := by
  induction ts with
  | nil => cases ht
  | cons u rest ih => exact (List.mem_cons.mp ht).elim (fun e => e ▸ flawless.cons.1) (ih flawless.cons.2)

theorem flawless_of_mem_methods {s : Surroundings} {rs : List Routine} (none : methodErrors s rs = [])
    {r : Routine} (hr : r ∈ rs) : r.Flawless := by
  induction rs with
  | nil => cases hr
  | cons q rest ih =>
    obtain ⟨first,later⟩ := List.append_eq_nil_iff.mp none
    exact (List.mem_cons.mp hr).elim (fun e => e ▸ ⟨s,first⟩) (ih later)

theorem Routine.Flawless.body {r : Routine} (flawless : r.Flawless) : BodyFlawless r.body := by
  obtain ⟨s,none⟩ := flawless
  cases r
  exact ⟨_,(List.append_eq_nil_iff.mp none).2⟩

theorem Stmt.Flawless.klass {name : Name} {superclass : Option Reference} {methods : List Routine}
    (flawless : (Stmt.klass name superclass methods).Flawless) : ∀ r ∈ methods, r.Flawless := by
  obtain ⟨s,none⟩ := flawless
  exact fun r hr => flawless_of_mem_methods (List.append_eq_nil_iff.mp none).2 hr

theorem Stmt.Flawless.loop {pos : Pos} {form : Form} {condition : Expr} {body : Stmt}
    {increment : Option Expr} (flawless : (Stmt.loop pos form condition body increment).Flawless) :
    body.Flawless ∧ ∀ e ∈ increment, e.Flawless := by
  obtain ⟨s,none⟩ := flawless
  obtain ⟨first,last⟩ := List.append_eq_nil_iff.mp none
  refine ⟨⟨_,(List.append_eq_nil_iff.mp first).2⟩,?_⟩
  rintro e ⟨⟩
  exact ⟨_,last⟩

theorem Stmt.Flawless.yes {pos : Pos} {condition : Expr} {yes : Stmt} {no : Option Stmt}
    (flawless : (Stmt.branch pos condition yes no).Flawless) : yes.Flawless := by
  obtain ⟨s,none⟩ := flawless
  cases no with
  | none => exact ⟨s,(List.append_eq_nil_iff.mp none).2⟩
  | some no => exact ⟨s,(List.append_eq_nil_iff.mp (List.append_eq_nil_iff.mp none).1).2⟩

theorem nodup_of_parameterErrors {scope : List String} {outer : Scopes} {params : List Name}
    (none : parameterErrors (scope :: outer) params = []) :
    (params.map (·.text)).Nodup ∧ ∀ p ∈ params, p.text ∉ scope := by
  induction params generalizing scope with
  | nil => exact ⟨List.nodup_nil,nofun⟩
  | cons p ps ih =>
    obtain ⟨first,later⟩ := List.append_eq_nil_iff.mp none
    obtain ⟨differ,others⟩ := ih later
    have new : p.text ∉ scope := by
      intro there
      simp only [declarationErrors,List.contains_iff_mem,if_pos there] at first
      cases first
    refine ⟨List.nodup_cons.mpr ⟨fun again => ?_,differ⟩,List.forall_mem_cons.mpr ⟨new,fun q hq there => ?_⟩⟩
    · obtain ⟨q,hq,same⟩ := List.mem_map.mp again
      exact others q hq (same ▸ List.mem_cons_self)
    · exact others q hq (List.mem_cons_of_mem _ there)

/-- The parameters of a routine without errors differ. -/
theorem Routine.Flawless.differ {r : Routine} (flawless : r.Flawless) : (r.params.map (·.text)).Nodup := by
  obtain ⟨s,none⟩ := flawless
  cases r
  exact (nodup_of_parameterErrors (List.append_eq_nil_iff.mp none).1).1

theorem flawless_of_compile {source : String} (clean : (compile source).errors = []) :
    BodyFlawless (compile source).program := by
  obtain ⟨-,quiet,program⟩ := compile_eq_nil clean
  rw [program]
  exact ⟨{},(blockErrors_resolve [] {} _).trans quiet⟩

end Lox
