import Lox.Proofs.Session.Compilation

/-! # Jumps and returns in programs

A program without errors of scope obeys two rules: every jump stands in a loop of the routine that it
is in, and every return in a routine. Routines are judged on their own, wherever they stand.
-/
namespace Lox

mutual

/-- Jumps stand in loops and returns in routines, if the statement itself may stand in one or not. -/
def Stmt.Obeys (inLoop inRoutine : Bool) : Stmt → Prop
  | .expression _ | .print _ _ | .var _ _ => True
  | .block _ _ body => BodyObeys inLoop inRoutine body
  | .branch _ _ yes none => yes.Obeys inLoop inRoutine
  | .branch _ _ yes (some no) => yes.Obeys inLoop inRoutine ∧ no.Obeys inLoop inRoutine
  | .loop _ _ _ body _ => body.Obeys true inRoutine
  | .jump _ _ => inLoop = true
  | .function r => r.Obeys
  | .leave _ _ => inRoutine = true
  | .klass _ _ methods => MethodsObey methods
termination_by structural s => s

def Routine.Obeys : Routine → Prop
  | ⟨_,_,body⟩ => BodyObeys false true body
termination_by structural r => r

def BodyObeys (inLoop inRoutine : Bool) : List Stmt → Prop
  | [] => True
  | s :: rest => s.Obeys inLoop inRoutine ∧ BodyObeys inLoop inRoutine rest
termination_by structural ss => ss

def MethodsObey : List Routine → Prop
  | [] => True
  | r :: rest => r.Obeys ∧ MethodsObey rest
termination_by structural rs => rs

end

theorem Routine.Obeys.body {r : Routine} (obeys : r.Obeys) : BodyObeys false true r.body := by
  cases r
  exact obeys

theorem MethodsObey.mem {rs : List Routine} (obey : MethodsObey rs) {r : Routine} (hr : r ∈ rs) :
    r.Obeys := by
  induction rs with
  | nil => cases hr
  | cons q rest ih => exact (List.mem_cons.mp hr).elim (fun e => e ▸ obey.1) (ih obey.2)

/-! ## Rules of scope -/

theorem holds_of_error {flag : Bool} {e : ScopeError} {pos : Pos} {lexeme : String}
    (h : (if flag then [] else scopeError e pos lexeme) = []) : flag = true := by
  cases flag with
  | true => rfl
  | false => cases h

mutual

theorem Stmt.obeys_of_scopeErrors (s : Surroundings) : (t : Stmt) → t.scopeErrors s = [] →
    t.Obeys s.inLoop s.inRoutine
  | .expression _, _ | .print _ _, _ | .var _ _, _ => trivial
  | .block _ _ body, clean => bodyObeys_of_scopeErrors s.openScope body clean
  | .branch _ _ yes none, clean => yes.obeys_of_scopeErrors s (List.append_eq_nil_iff.mp clean).2
  | .branch _ _ yes (some no), clean => by
    obtain ⟨first,second⟩ := List.append_eq_nil_iff.mp clean
    exact ⟨yes.obeys_of_scopeErrors s (List.append_eq_nil_iff.mp first).2,
      no.obeys_of_scopeErrors s second⟩
  | .loop _ _ _ body _, clean =>
    body.obeys_of_scopeErrors { s with inLoop := true }
      (List.append_eq_nil_iff.mp (List.append_eq_nil_iff.mp clean).1).2
  | .jump _ _, clean => holds_of_error clean
  | .function r, clean => r.obeys_of_scopeErrors _ (List.append_eq_nil_iff.mp clean).2
  | .leave _ _, clean => holds_of_error (List.append_eq_nil_iff.mp clean).1
  | .klass _ _ methods, clean => methodsObey_of_scopeErrors _ methods (List.append_eq_nil_iff.mp clean).2

theorem Routine.obeys_of_scopeErrors (s : Surroundings) : (r : Routine) → r.scopeErrors s = [] → r.Obeys
  | ⟨_,params,body⟩, clean =>
    bodyObeys_of_scopeErrors { s.routine with scopes := s.routine.scopes.declareAll params } body
      (List.append_eq_nil_iff.mp clean).2

theorem bodyObeys_of_scopeErrors (s : Surroundings) : (ss : List Stmt) → blockErrors s ss = [] →
    BodyObeys s.inLoop s.inRoutine ss
  | [], _ => trivial
  | t :: rest, clean => by
    obtain ⟨first,others⟩ := List.append_eq_nil_iff.mp clean
    exact ⟨t.obeys_of_scopeErrors s first,bodyObeys_of_scopeErrors (s.afterStmt t) rest others⟩

theorem methodsObey_of_scopeErrors (s : Surroundings) : (rs : List Routine) → methodErrors s rs = [] →
    MethodsObey rs
  | [], _ => trivial
  | r :: rest, clean => by
    obtain ⟨first,others⟩ := List.append_eq_nil_iff.mp clean
    exact ⟨r.obeys_of_scopeErrors s first,methodsObey_of_scopeErrors s rest others⟩

end

/-! ## Resolution -/

mutual

theorem Stmt.Obeys.resolve {a b : Bool} (scopes : Scopes) : (s : Stmt) → s.Obeys a b →
    (s.resolve scopes).Obeys a b
  | .expression _, _ | .print _ _, _ | .var _ _, _ => trivial
  | .block _ _ body, obeys => BodyObeys.resolve ([] :: scopes) body obeys
  | .branch _ _ yes none, obeys => Stmt.Obeys.resolve scopes yes obeys
  | .branch _ _ yes (some no), obeys =>
    ⟨Stmt.Obeys.resolve scopes yes obeys.1,Stmt.Obeys.resolve scopes no obeys.2⟩
  | .loop _ _ _ body _, obeys => Stmt.Obeys.resolve scopes body obeys
  | .jump _ _, obeys | .leave _ _, obeys => obeys
  | .function r, obeys => Routine.Obeys.resolve _ r obeys
  | .klass _ _ methods, obeys => MethodsObey.resolve _ methods obeys

theorem Routine.Obeys.resolve (scopes : Scopes) : (r : Routine) → r.Obeys → (r.resolve scopes).Obeys
  | ⟨_,_,body⟩, obeys => BodyObeys.resolve _ body obeys

theorem BodyObeys.resolve {a b : Bool} (scopes : Scopes) : (ss : List Stmt) → BodyObeys a b ss →
    BodyObeys a b (resolveAll scopes ss)
  | [], _ => trivial
  | s :: rest, obeys =>
    ⟨Stmt.Obeys.resolve scopes s obeys.1,BodyObeys.resolve (scopes.afterStmt s) rest obeys.2⟩

theorem MethodsObey.resolve (scopes : Scopes) : (rs : List Routine) → MethodsObey rs →
    MethodsObey (resolveMethods scopes rs)
  | [], _ => trivial
  | r :: rest, obeys => ⟨Routine.Obeys.resolve scopes r obeys.1,MethodsObey.resolve scopes rest obeys.2⟩

end

/-- The program of a source without static errors has no jump outside a loop and no return outside a
routine. -/
theorem obeys_of_compile {source : String} (clean : (compile source).errors = []) :
    BodyObeys false false (compile source).program := by
  obtain ⟨-,scopes,program⟩ := compile_eq_nil clean
  rw [program]
  exact BodyObeys.resolve [] _ (bodyObeys_of_scopeErrors {} _ scopes)

end Lox
