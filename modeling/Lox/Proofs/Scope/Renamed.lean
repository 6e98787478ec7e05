import Lox.Proofs.Scope.Spelled

/-! # Renamed programs

A program in which a variable has been renamed resolves to itself: the depth of each use is still
that of the innermost scope that holds the name. It has no errors of scope if the original had none.
All that is asked of the new name is that the original does not use it.
-/
namespace Lox

/-! ## Depths -/

section
variable {spell : Spelling} {x y : String}

theorem Reference.resolve_respell (renames : spell.Renames x y) {Γ : Context} (free : Γ.Free y)
    {r : Reference} (ne : r.name.text ≠ y) :
    ((r.resolve Γ.scopes).respell spell Γ.origins).resolve (Γ.spelled spell) =
      (r.resolve Γ.scopes).respell spell Γ.origins := by
  have same := free.depth? renames ne
  simp only [resolve,respell,same]

mutual

theorem Expr.resolve_respell (renames : spell.Renames x y) {Γ : Context} (free : Γ.Free y) :
    (e : Expr) → e.Named (· ≠ y) →
      ((e.resolve Γ.scopes).respell spell Γ.origins).resolve (Γ.spelled spell) =
        (e.resolve Γ.scopes).respell spell Γ.origins
  | .literal _ _, _ => rfl
  | .grouping _ e, named | .unary _ _ e, named | .get e _, named => by
    have same := e.resolve_respell renames free named
    simp only [Expr.resolve,Expr.respell,same]
  | .var r, named => congrArg Expr.var (Reference.resolve_respell renames free named)
  | .assign r e, named =>
    congrArg₂ Expr.assign (Reference.resolve_respell renames free named.1)
      (e.resolve_respell renames free named.2)
  | .binary d _ _ e, named | .logical d _ _ e, named | .set d _ e, named => by
    have left := d.resolve_respell renames free named.1
    have right := e.resolve_respell renames free named.2
    simp only [Expr.resolve,Expr.respell,left,right]
  | .call e _ es, named => by
    have callee := e.resolve_respell renames free named.1
    have args := resolveArguments_respell renames free es named.2
    simp only [Expr.resolve,Expr.respell,callee,args]
  | .this _ _, _ => by simp only [Expr.resolve,Expr.respell,free.depth?_this renames]
  | .super _ _ _, _ => by simp only [Expr.resolve,Expr.respell,free.depth?_super renames]

theorem resolveArguments_respell (renames : spell.Renames x y) {Γ : Context} (free : Γ.Free y) :
    (es : List Expr) → ArgumentsNamed (· ≠ y) es →
      resolveArguments (Γ.spelled spell)
          (respellArguments spell Γ.origins (resolveArguments Γ.scopes es)) =
        respellArguments spell Γ.origins (resolveArguments Γ.scopes es)
  | [], _ => rfl
  | e :: es, named =>
    congrArg₂ List.cons (e.resolve_respell renames free named.1)
      (resolveArguments_respell renames free es named.2)

end

theorem Expr.resolve_respell_option (renames : spell.Renames x y) {Γ : Context} (free : Γ.Free y)
    {e : Option Expr} (named : ∀ d ∈ e, d.Named (· ≠ y)) :
    ((e.map (·.resolve Γ.scopes)).map (·.respell spell Γ.origins)).map (·.resolve (Γ.spelled spell)) =
      (e.map (·.resolve Γ.scopes)).map (·.respell spell Γ.origins) := by
  cases e with
  | none => rfl
  | some e => exact congrArg some (e.resolve_respell renames free (named e rfl))

theorem Stmt.ok_declared? {ok : String → Prop} (t : Stmt) (named : t.Named ok) :
    ∀ n ∈ t.declared?, ok n.text := by
  cases t with
  | var | klass =>
    rintro _ ⟨⟩
    exact named.1
  | function r =>
    rintro _ ⟨⟩
    cases r
    exact named.1
  | _ => exact nofun

mutual

theorem Stmt.resolve_respell (renames : spell.Renames x y) {Γ : Context} (free : Γ.Free y) :
    (t : Stmt) → t.Named (· ≠ y) → (t.resolve Γ.scopes).Keeps spell Γ.origins →
      ((t.resolve Γ.scopes).respell spell Γ.origins).resolve (Γ.spelled spell) =
        (t.resolve Γ.scopes).respell spell Γ.origins
  | .expression e, named, _ => congrArg Stmt.expression (e.resolve_respell renames free named)
  | .print pos e, named, _ => congrArg (Stmt.print pos) (e.resolve_respell renames free named)
  | .var name init, named, _ => by
    have same := Expr.resolve_respell_option renames (free.declare named.1) named.2
    rw [Context.spelled_declare,Context.origins_declare,Context.scopes_declare] at same
    simp only [Stmt.resolve,Stmt.respell,same]
  | .block pos form body, named, keeps => by
    have inner : Context.Free (⟨.block pos form (resolveAll ([] :: Γ.scopes) body),[]⟩ :: Γ) y :=
      free.cons List.not_mem_nil
    have same := resolveAll_respell renames inner body named keeps
    exact congrArg (Stmt.block pos form) same
  | .branch _ condition yes none, named, keeps => by
    have test := condition.resolve_respell renames free named.1
    have here := yes.resolve_respell renames free named.2.1 keeps
    simp only [Stmt.resolve,Stmt.respell,test,here]
  | .branch _ condition yes (some no), named, keeps => by
    have test := condition.resolve_respell renames free named.1
    have here := yes.resolve_respell renames free named.2.1 keeps.1
    have there := no.resolve_respell renames free named.2.2.2.1 keeps.2
    simp only [Stmt.resolve,Stmt.respell,test,here,there]
  | .loop _ _ condition body increment, named, keeps => by
    have test := condition.resolve_respell renames free named.1
    have round := body.resolve_respell renames free named.2.1 keeps
    have step := Expr.resolve_respell_option renames free named.2.2.2
    simp only [Stmt.resolve,Stmt.respell,test,round,step]
  | .jump _ _, _, _ => rfl
  | .function r, named, keeps => by
    have ne : r.name.text ≠ y := (Stmt.function r).ok_declared? named _ rfl
    have same := r.resolve_respell renames (free.declare ne) named
    simp only [Stmt.resolve,Stmt.Keeps,Routine.name_resolve] at keeps
    rw [Context.spelled_declare,Context.origins_declare,Context.scopes_declare,keeps.1] at same
    simp only [Stmt.resolve,Stmt.respell,Routine.name_respell,Routine.name_resolve,same keeps.2]
  | .leave pos _, named, _ =>
    congrArg (Stmt.leave pos) (Expr.resolve_respell_option renames free named)
  | .klass name superclass methods, named, keeps => by
    have inner := free.declare named.1
    have open_ : ((Γ.declare name.text).ofClass name superclass).Free y := by
      cases superclass with
      | none => exact inner
      | some _ => exact inner.cons (by simpa using renames.new.2)
    have same := resolveMethods_respell renames open_ methods named.2.2
    have own : (Γ.declare name.text).spelled spell = (Γ.spelled spell).declare name.text := by
      rw [Context.spelled_declare,keeps.1]
    rw [← Context.scopes_ofClass,Context.spelled_ofClass renames,own,Context.origins_ofClass,
      Context.origins_declare,Context.scopes_declare] at same
    have keeps := keeps.2
    simp only [Stmt.resolve,Stmt.respell,classOrigins_map] at keeps ⊢
    rw [Scopes.ofClass_map,Scopes.ofClass_map,same keeps]
    cases superclass with
    | none => rfl
    | some r =>
      have base := Reference.resolve_respell renames inner (named.2.1 r rfl)
      rw [own,Context.origins_declare,Context.scopes_declare] at base
      simp only [Option.map_some,base]

theorem Routine.resolve_respell (renames : spell.Renames x y) {Γ : Context} (free : Γ.Free y) :
    (r : Routine) → r.Named (· ≠ y) →
      (r.resolve Γ.scopes).Keeps spell (.routine (r.resolve Γ.scopes) :: Γ.origins) →
      ((r.resolve Γ.scopes).respell spell (.routine (r.resolve Γ.scopes) :: Γ.origins)).resolve
          (Γ.spelled spell) =
        (r.resolve Γ.scopes).respell spell (.routine (r.resolve Γ.scopes) :: Γ.origins)
  | ⟨name,params,body⟩, named, keeps => by
    have same := resolveAll_respell (Γ := Γ.ofRoutine (Routine.resolve Γ.scopes ⟨name,params,body⟩))
      renames (free.ofRoutine named.2.1) body named.2.2
    rw [Context.scopes_ofRoutine,Context.origins_ofRoutine,Context.spelled_ofRoutine] at same
    have same := same keeps
    simp only [Routine.resolve,Routine.respell] at same ⊢
    rw [same]

theorem resolveAll_respell (renames : spell.Renames x y) {Γ : Context} (free : Γ.Free y) :
    (ss : List Stmt) → BodyNamed (· ≠ y) ss →
      BodyKeeps spell Γ.origins (resolveAll Γ.scopes ss) →
      resolveAll (Γ.spelled spell) (respellAll spell Γ.origins (resolveAll Γ.scopes ss)) =
        respellAll spell Γ.origins (resolveAll Γ.scopes ss)
  | [], _, _ => rfl
  | t :: rest, named, keeps => by
    have first := t.resolve_respell renames free named.1 keeps.1
    have later := resolveAll_respell renames (free.afterStmt (t.ok_declared? named.1)) rest named.2
    rw [Context.scopes_afterStmt,Context.origins_afterStmt] at later
    rw [← Context.afterStmt_resolve Γ Γ.scopes t,Context.spelled_afterStmt _ keeps.1] at later
    simp only [resolveAll,respellAll,first,later keeps.2]

theorem resolveMethods_respell (renames : spell.Renames x y) {Γ : Context} (free : Γ.Free y) :
    (rs : List Routine) → MethodsNamed (· ≠ y) rs →
      MethodsKeep spell Γ.origins (resolveMethods (["this"] :: Γ.scopes) rs) →
      resolveMethods (["this"] :: Γ.spelled spell)
          (respellMethods spell Γ.origins (resolveMethods (["this"] :: Γ.scopes) rs)) =
        respellMethods spell Γ.origins (resolveMethods (["this"] :: Γ.scopes) rs)
  | [], _, _ => rfl
  | r :: rest, named, keeps => by
    have first := r.resolve_respell (Γ := Γ.ofMethod (r.resolve (["this"] :: Γ.scopes))) renames
      (free.cons (by simpa using renames.new.1)) named.1 keeps.1
    rw [Context.spelled_ofMethod renames] at first
    exact congrArg₂ List.cons first (resolveMethods_respell renames free rest named.2 keeps.2)

end

/-! ## Errors of scope -/

theorem declarationErrors_spelled (spell : Spelling) (Γ : Context) {name : Name}
    (clean : declarationErrors Γ.scopes name = []) :
    declarationErrors (Γ.spelled spell) { name with text := spell.own Γ.origins name.text } = [] := by
  cases Γ with
  | nil => rfl
  | cons layer Γ =>
    have absent := not_mem_of_declarationErrors (s := { scopes := Context.scopes (layer :: Γ) }) rfl clean
    simp only [Context.spelled,List.map_cons,declarationErrors]
    exact if_neg (by simpa [Spelling.own,Spelling.along] using absent)

theorem parameterErrors_spelled (spell : Spelling) (Γ : Context) {ps : List Name}
    (clean : parameterErrors Γ.scopes ps = []) :
    parameterErrors (Γ.spelled spell)
      (ps.map fun p => { p with text := spell.own Γ.origins p.text }) = [] := by
  induction ps generalizing Γ with
  | nil => rfl
  | cons p ps ih =>
    obtain ⟨first,later⟩ := List.append_eq_nil_iff.mp clean
    rw [← Context.scopes_declare] at later
    have later := ih (Γ.declare p.text) later
    rw [Context.origins_declare,Context.spelled_declare] at later
    exact List.append_eq_nil_iff.mpr ⟨declarationErrors_spelled spell Γ first,later⟩

/-- Surroundings of a place in a program and in the renamed one. -/
structure Surroundings.Respelled (spell : Spelling) (y : String) (Γ : Context)
    (s s' : Surroundings) : Prop where
  scopes : s.scopes = Γ.scopes
  spelled : s'.scopes = Γ.spelled spell
  inRoutine : s'.inRoutine = s.inRoutine
  inLoop : s'.inLoop = s.inLoop
  klass : s'.klass = s.klass
  /-- A use is renamed to the variable that is being initialized only if it is that variable. -/
  initializing (os : List Origin) (depth : Option Nat) (n : String) : n ≠ y →
    s'.initializing = some (spell.along os depth n) → s.initializing = some n

namespace Surroundings.Respelled
variable {Γ : Context} {s s' : Surroundings} (like : Respelled spell y Γ s s')
include like

theorem declare (name : String) :
    Respelled spell y (Γ.declare name) (s.declare name) (s'.declare (spell.own Γ.origins name)) :=
  { like with
    scopes := by simp [Surroundings.declare,like.scopes]
    spelled := by simp [Surroundings.declare,like.spelled,Context.spelled_declare] }

theorem afterStmt {t : Stmt} {scopes : Scopes} (keeps : (t.resolve scopes).Keeps spell Γ.origins) :
    Respelled spell y (Γ.afterStmt t) (s.afterStmt t)
      (s'.afterStmt ((t.resolve scopes).respell spell Γ.origins)) :=
  { like with
    scopes := by simp [Surroundings.afterStmt,like.scopes]
    spelled := by
      rw [← Γ.afterStmt_resolve scopes,Context.spelled_afterStmt _ keeps,← like.spelled]
      rfl }

theorem openScope (o : Origin) : Respelled spell y (⟨o,[]⟩ :: Γ) s.openScope s'.openScope :=
  { like with
    scopes := by simp [Surroundings.openScope,like.scopes]
    spelled := by simp [Surroundings.openScope,like.spelled,Context.spelled] }

theorem insideLoop : Respelled spell y Γ { s with inLoop := true } { s' with inLoop := true } :=
  { like with inLoop := rfl }

theorem initializer (renames : spell.Renames x y) {name : String} (ne : name ≠ y) :
    Respelled spell y (Γ.declare name) (s.initializer name)
      (s'.initializer (spell.own Γ.origins name)) :=
  { like.declare name with
    initializing := by
      intro os depth n hn same
      have empty : s'.scopes.isEmpty = s.scopes.isEmpty := by
        rw [like.scopes,like.spelled]
        cases Γ <;> rfl
      simp only [Surroundings.initializer,empty] at same ⊢
      split at same
      · cases same
      · next inner =>
        rw [if_neg inner,renames.eq_of_along ne hn (Option.some.inj same)] }

/-- The methods of a class, and of the renamed one. -/
theorem classBody (renames : spell.Renames x y) (name : Name) (superclass : Option Reference)
    (f : Reference → Reference) (method : Routine) :
    Respelled spell y ((Γ.ofClass name superclass).ofMethod method) (s.classBody superclass)
      (s'.classBody (superclass.map f)) :=
  { like with
    scopes := by
      rw [Context.scopes_ofMethod,← Context.scopes_ofClass,Surroundings.classBody,like.scopes]
    spelled := by
      rw [Context.spelled_ofMethod renames,Context.spelled_ofClass renames,Surroundings.classBody,
        like.spelled,Scopes.ofClass_map]
    klass := by cases superclass <;> rfl }

theorem routine (r : Routine) : Respelled spell y (Γ.ofRoutine r)
    { s.routine with scopes := s.routine.scopes.declareAll r.params }
    { s'.routine with
      scopes := s'.routine.scopes.declareAll
        (r.params.map fun p => { p with text := spell.own (.routine r :: Γ.origins) p.text }) } :=
  { like with
    scopes := by simp [Surroundings.routine,like.scopes]
    spelled := by simp [Surroundings.routine,like.spelled,Context.spelled_ofRoutine]
    inRoutine := rfl
    inLoop := rfl }

end Surroundings.Respelled

mutual

theorem Expr.scopeErrors_respell {Γ : Context} {s s' : Surroundings}
    (like : Surroundings.Respelled spell y Γ s s') (scopes : Scopes) (os : List Origin) :
    (e : Expr) → e.Named (· ≠ y) → e.scopeErrors s = [] →
      ((e.resolve scopes).respell spell os).scopeErrors s' = []
  | .literal _ _, _, _ => rfl
  | .grouping _ e, named, clean | .unary _ _ e, named, clean | .get e _, named, clean =>
    e.scopeErrors_respell like scopes os named clean
  | .var r, named, clean => by
    have other : s.initializing ≠ some r.name.text := fun h => by
      simp [Expr.scopeErrors,h,scopeError] at clean
    exact if_neg fun h => other (like.initializing os _ _ named h)
  | .assign _ e, named, clean => e.scopeErrors_respell like scopes os named.2 clean
  | .binary d _ _ e, named, clean | .logical d _ _ e, named, clean =>
    have clean := List.append_eq_nil_iff.mp clean
    List.append_eq_nil_iff.mpr ⟨d.scopeErrors_respell like scopes os named.1 clean.1,
      e.scopeErrors_respell like scopes os named.2 clean.2⟩
  | .set d _ e, named, clean =>
    have clean := List.append_eq_nil_iff.mp clean
    List.append_eq_nil_iff.mpr ⟨e.scopeErrors_respell like scopes os named.2 clean.1,
      d.scopeErrors_respell like scopes os named.1 clean.2⟩
  | .call e _ es, named, clean =>
    have clean := List.append_eq_nil_iff.mp clean
    List.append_eq_nil_iff.mpr ⟨e.scopeErrors_respell like scopes os named.1 clean.1,
      argumentErrors_respell like scopes os es named.2 clean.2⟩
  | .this _ _, _, clean | .super _ _ _, _, clean => by
    simpa only [Expr.resolve,Expr.respell,Expr.scopeErrors,like.klass] using clean

theorem argumentErrors_respell {Γ : Context} {s s' : Surroundings}
    (like : Surroundings.Respelled spell y Γ s s') (scopes : Scopes) (os : List Origin) :
    (es : List Expr) → ArgumentsNamed (· ≠ y) es → argumentErrors s es = [] →
      argumentErrors s' (respellArguments spell os (resolveArguments scopes es)) = []
  | [], _, _ => rfl
  | e :: es, named, clean =>
    have clean := List.append_eq_nil_iff.mp clean
    List.append_eq_nil_iff.mpr ⟨e.scopeErrors_respell like scopes os named.1 clean.1,
      argumentErrors_respell like scopes os es named.2 clean.2⟩

end

theorem Expr.optionErrors_respell {Γ : Context} {s s' : Surroundings}
    (like : Surroundings.Respelled spell y Γ s s') (scopes : Scopes) (os : List Origin)
    {e : Option Expr} (named : ∀ d ∈ e, d.Named (· ≠ y)) (clean : Expr.optionErrors s e = []) :
    Expr.optionErrors s' ((e.map (·.resolve scopes)).map (·.respell spell os)) = [] := by
  cases e with
  | none => rfl
  | some e => exact e.scopeErrors_respell like scopes os (named e rfl) clean

/-- A class that is not its own superclass is not so either after the renaming. -/
theorem superclassErrors_respell (renames : spell.Renames x y) (scopes : Scopes) (os : List Origin)
    {name : Name} (ne : name.text ≠ y) {superclass : Option Reference}
    (named : ∀ r ∈ superclass, r.name.text ≠ y) (clean : superclassErrors name superclass = []) :
    superclassErrors name ((superclass.map (·.resolve scopes)).map (·.respell spell os)) = [] := by
  cases superclass with
  | none => rfl
  | some r =>
    have other : r.name.text ≠ name.text := fun h => by
      simp [superclassErrors,h,scopeError] at clean
    exact if_neg fun h => (renames.along os (scopes.depth? r.name.text) (named r rfl)).elim
      (fun e => other (e.symm.trans h)) fun e => ne (h.symm.trans e.2)

mutual

theorem Stmt.scopeErrors_respell (renames : spell.Renames x y) {Γ : Context} {s s' : Surroundings}
    (like : Surroundings.Respelled spell y Γ s s') :
    (t : Stmt) → t.Named (· ≠ y) → (t.resolve Γ.scopes).Keeps spell Γ.origins → t.scopeErrors s = [] →
      ((t.resolve Γ.scopes).respell spell Γ.origins).scopeErrors s' = []
  | .expression e, named, _, clean | .print _ e, named, _, clean =>
    e.scopeErrors_respell like _ _ named clean
  | .var name init, named, _, clean => by
    obtain ⟨fresh,clean⟩ := List.append_eq_nil_iff.mp clean
    rw [like.scopes] at fresh
    have inner := Expr.optionErrors_respell (like.initializer renames named.1)
      (Γ.scopes.declare name.text) Γ.origins named.2 clean
    refine List.append_eq_nil_iff.mpr ⟨?_,inner⟩
    rw [like.spelled]
    exact declarationErrors_spelled spell Γ fresh
  | .block pos form body, named, keeps, clean =>
    blockErrors_respell renames (like.openScope (.block pos form (resolveAll ([] :: Γ.scopes) body)))
      body named keeps clean
  | .branch _ condition yes none, named, keeps, clean =>
    have clean := List.append_eq_nil_iff.mp clean
    List.append_eq_nil_iff.mpr ⟨condition.scopeErrors_respell like _ _ named.1 clean.1,
      yes.scopeErrors_respell renames like named.2.1 keeps clean.2⟩
  | .branch _ condition yes (some no), named, keeps, clean => by
    obtain ⟨test,there⟩ := List.append_eq_nil_iff.mp clean
    obtain ⟨test,here⟩ := List.append_eq_nil_iff.mp test
    exact List.append_eq_nil_iff.mpr ⟨List.append_eq_nil_iff.mpr
      ⟨condition.scopeErrors_respell like _ _ named.1 test,
        yes.scopeErrors_respell renames like named.2.1 keeps.1 here⟩,
      no.scopeErrors_respell renames like named.2.2.2.1 keeps.2 there⟩
  | .loop _ _ condition body increment, named, keeps, clean => by
    obtain ⟨test,step⟩ := List.append_eq_nil_iff.mp clean
    obtain ⟨test,round⟩ := List.append_eq_nil_iff.mp test
    exact List.append_eq_nil_iff.mpr ⟨List.append_eq_nil_iff.mpr
      ⟨condition.scopeErrors_respell like _ _ named.1 test,
        body.scopeErrors_respell renames like.insideLoop named.2.1 keeps round⟩,
      Expr.optionErrors_respell like.insideLoop _ _ named.2.2.2 step⟩
  | .jump _ _, _, _, clean => by
    simpa only [Stmt.resolve,Stmt.respell,Stmt.scopeErrors,like.inLoop] using clean
  | .function r, named, keeps, clean => by
    obtain ⟨fresh,clean⟩ := List.append_eq_nil_iff.mp clean
    rw [like.scopes] at fresh
    have kept := keeps.1
    rw [Routine.name_resolve] at kept
    have inner := r.scopeErrors_respell renames (like.declare r.name.text) named
    rw [Context.origins_declare,Context.scopes_declare,kept] at inner
    have fresh := declarationErrors_spelled spell Γ fresh
    rw [kept,← like.spelled] at fresh
    simp only [Stmt.resolve,Stmt.respell,Stmt.scopeErrors,Routine.name_respell,Routine.name_resolve]
    exact List.append_eq_nil_iff.mpr ⟨fresh,inner keeps.2 clean⟩
  | .leave _ _, named, _, clean => by
    obtain ⟨here,clean⟩ := List.append_eq_nil_iff.mp clean
    refine List.append_eq_nil_iff.mpr ⟨?_,Expr.optionErrors_respell like _ _ named clean⟩
    rwa [like.inRoutine]
  | .klass name superclass methods, named, keeps, clean => by
    obtain ⟨fresh,clean⟩ := List.append_eq_nil_iff.mp clean
    obtain ⟨fresh,own⟩ := List.append_eq_nil_iff.mp fresh
    rw [like.scopes] at fresh
    have kept : spell.own Γ.origins name.text = name.text := keeps.1
    have fresh := declarationErrors_spelled spell Γ fresh
    rw [kept,← like.spelled] at fresh
    have declared := like.declare name.text
    rw [kept] at declared
    have inner := methodErrors_respell renames (declared.classBody renames name superclass
      fun r => (r.resolve (Γ.scopes.declare name.text)).respell spell Γ.origins) methods named.2.2
    have keeps := keeps.2
    rw [← Context.scopes_ofClass,Context.origins_ofClass,Context.origins_declare,
      Context.scopes_declare] at inner
    simp only [Stmt.resolve,Stmt.respell,Stmt.scopeErrors,classOrigins_map] at keeps ⊢
    rw [Option.map_map]
    refine List.append_eq_nil_iff.mpr ⟨List.append_eq_nil_iff.mpr ⟨fresh,?_⟩,inner keeps clean⟩
    rw [← Option.map_map]
    exact superclassErrors_respell renames _ _ named.1 named.2.1 own

theorem Routine.scopeErrors_respell (renames : spell.Renames x y) {Γ : Context} {s s' : Surroundings}
    (like : Surroundings.Respelled spell y Γ s s') :
    (r : Routine) → r.Named (· ≠ y) →
      (r.resolve Γ.scopes).Keeps spell (.routine (r.resolve Γ.scopes) :: Γ.origins) →
      r.scopeErrors s = [] →
      ((r.resolve Γ.scopes).respell spell (.routine (r.resolve Γ.scopes) :: Γ.origins)).scopeErrors s' =
        []
  | ⟨name,params,body⟩, named, keeps, clean => by
    obtain ⟨fresh,clean⟩ := List.append_eq_nil_iff.mp clean
    have inner := blockErrors_respell renames
      (like.routine (Routine.resolve Γ.scopes ⟨name,params,body⟩)) body named.2.2
    rw [Context.scopes_ofRoutine,Context.origins_ofRoutine] at inner
    refine List.append_eq_nil_iff.mpr ⟨?_,inner keeps clean⟩
    have opened := like.openScope (.routine (Routine.resolve Γ.scopes ⟨name,params,body⟩))
    have fresh : parameterErrors s.openScope.scopes params = [] := fresh
    rw [opened.scopes] at fresh
    have spelled := parameterErrors_spelled spell _ fresh
    rw [← opened.spelled] at spelled
    exact spelled

theorem blockErrors_respell (renames : spell.Renames x y) {Γ : Context} {s s' : Surroundings}
    (like : Surroundings.Respelled spell y Γ s s') :
    (ts : List Stmt) → BodyNamed (· ≠ y) ts → BodyKeeps spell Γ.origins (resolveAll Γ.scopes ts) →
      blockErrors s ts = [] →
      blockErrors s' (respellAll spell Γ.origins (resolveAll Γ.scopes ts)) = []
  | [], _, _, _ => rfl
  | t :: rest, named, keeps, clean => by
    obtain ⟨first,clean⟩ := List.append_eq_nil_iff.mp clean
    have later := blockErrors_respell renames (like.afterStmt keeps.1) rest named.2
    rw [Context.origins_afterStmt,Context.scopes_afterStmt] at later
    exact List.append_eq_nil_iff.mpr
      ⟨t.scopeErrors_respell renames like named.1 keeps.1 first,later keeps.2 clean⟩

theorem methodErrors_respell (renames : spell.Renames x y) {Γ : Context} {s s' : Surroundings}
    (like : ∀ r, Surroundings.Respelled spell y (Γ.ofMethod r) s s') :
    (rs : List Routine) → MethodsNamed (· ≠ y) rs →
      MethodsKeep spell Γ.origins (resolveMethods (["this"] :: Γ.scopes) rs) →
      methodErrors s rs = [] →
      methodErrors s' (respellMethods spell Γ.origins (resolveMethods (["this"] :: Γ.scopes) rs)) = []
  | [], _, _, _ => rfl
  | r :: rest, named, keeps, clean =>
    have clean := List.append_eq_nil_iff.mp clean
    List.append_eq_nil_iff.mpr ⟨r.scopeErrors_respell renames (like _) named.1 keeps.1 clean.1,
      methodErrors_respell renames like rest named.2 keeps.2 clean.2⟩

end

/-! ## Programs -/

section
variable (renames : spell.Renames x y) {p : Program} (named : BodyNamed (· ≠ y) p)
  (keeps : BodyKeeps spell [] p.resolve)
include renames named keeps

/-- The depths of a renamed program are right as they are. -/
theorem Program.resolve_respell :
    Program.resolve (respellAll spell [] p.resolve) = respellAll spell [] p.resolve :=
  resolveAll_respell (Γ := []) renames (fun _ h => absurd h List.not_mem_nil) p named keeps

theorem Program.scopeErrors_respell (clean : p.scopeErrors = []) :
    Program.scopeErrors (respellAll spell [] p.resolve) = [] :=
  blockErrors_respell (Γ := []) renames
    ⟨rfl,rfl,rfl,rfl,rfl,fun _ _ _ _ h => by cases h⟩ p named keeps clean

end

end

end Lox
