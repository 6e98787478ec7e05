import Lox.Proofs.Ast.Statements

/-! # Tokens of two programs

When the tokens of a program without errors are followed by those of another one, the parser reads
the first program and then the second. The second does not start with an `else`, for no program
without errors does.
-/
namespace Lox
namespace Parser
variable {P : Pos → Pos → Prop} [Std.Refl P] {us : List Token} {s s' t : State}

theorem declarations_of_end (n : Nat) (h : s.peek.kind = .eof) :
    declarations (n + 1) false s = .ok [] s := by
  rw [declarations]
  simp only [Bind.bind,EStateM.bind,peek,h]
  rfl

theorem declarations_of_more (n : Nat) (h : s.peek.kind ≠ .eof) :
    declarations (n + 1) false s =
      match declaration n s with
      | .ok (some d) t => ((d :: ·) <$> declarations n false) t
      | .ok none t => declarations n false t
      | .error e t => .error e t := by
  rw [declarations]
  simp only [Bind.bind,EStateM.bind,peek,h,Bool.false_and,Bool.or_false,decide_false,
    Bool.false_eq_true,if_false]
  cases declaration n s with
  | error _ _ => rfl
  | ok v t =>
    cases v with
    | none => rfl
    | some d =>
      simp only [Functor.map,EStateM.map,EStateM.bind]
      cases declarations n false t <;> rfl

/-- A parser of declarations at the top level goes on behind the tokens of a program. -/
theorem declarations_behind (fresh : Fresh us) {n n' : Nat} {p : Program} (hn : n ≤ n')
    (enough : 8 * s.rest.length + 4 ≤ n) (ended : s.Ended) (beside : Beside P us s s')
    (e : declarations n false s = .ok p t) (quiet : t.errors.length ≤ s.errors.length) :
    ∃ (p' : Program) (u : State) (m : Nat), BodyAlike P p p' ∧ u.rest = us ∧ u.errors = s'.errors ∧
      n' + 1 ≤ m + s.rest.length ∧
      declarations n' false s' = ((p' ++ ·) <$> declarations m false) u := by
  induction n generalizing n' s s' p with
  | zero => omega
  | succ n ih =>
    obtain ⟨n',rfl⟩ : ∃ l, n' = l + 1 := ⟨n' - 1,by omega⟩
    have pos := ended.pos
    by_cases kind : s.peek.kind = .eof
    · obtain ⟨ts,e',ts',rest,-,rest',like⟩ := beside
      obtain rfl : ts = [] := by simpa [rest] using ended.le_one kind
      cases like
      rw [declarations_of_end n kind] at e
      cases e
      refine ⟨[],s',n' + 1,.nil,rest',rfl,by omega,?_⟩
      simp only [Functor.map,EStateM.map]
      cases declarations (n' + 1) false s' <;> rfl
    · have two := ended.two_le kind
      have kind' : s'.peek.kind ≠ .eof := (beside.peek two).kind ▸ kind
      have step : InStep P us (max 1 (s.rest.length - 1)) 0 True (Option.Rel (Stmt.Alike P)) s
          (declaration n) (declaration n') :=
        (statementsInStep fresh n).declaration (by omega) (by omega) ended
      have gets := step.gets
      rw [declarations_of_more n kind] at e
      rw [declarations_of_more n' kind']
      cases ed : declaration n s with
      | error _ _ => rw [ed] at e; cases e
      | ok v t₁ =>
        rw [ed] at e gets
        cases gets with
        | ok on less =>
          have tail : ∃ q, declarations n false t₁ = .ok q t ∧ p = v.toList ++ q := by
            cases v with
            | none => exact ⟨p,e,rfl⟩
            | some d =>
              simp only [Functor.map,EStateM.map] at e
              cases eq : declarations n false t₁ with
              | error _ _ => rw [eq] at e; cases e
              | ok q t' =>
                rw [eq] at e
                cases e
                exact ⟨q,rfl,rfl⟩
          obtain ⟨q,eq,rfl⟩ := tail
          have rest : InStep P us t₁.rest.length 0 False (BodyAlike P) t₁ (declarations n false)
              (declarations n false) :=
            (statementsInStep fresh n).declarations (Nat.le_refl n) (by omega) on.ended
          have later := rest.gets
          rw [eq] at later
          cases later with
          | ok on' _ =>
            obtain ⟨w,t',ed',like,beside,silent⟩ := step.keeps beside ed
              (Nat.le_trans on'.errors_le quiet) (.inl trivial)
            obtain ⟨q',u,m,likes,rest,silent',bound,eq'⟩ := ih (show n ≤ n' by omega) (by omega) on.ended
              beside eq (Nat.le_trans quiet on.errors_le)
            rw [ed']
            refine ⟨w.toList ++ q',u,m,?_,rest,silent'.trans silent,by omega,?_⟩
            · cases like with
              | none => exact likes
              | some like => exact .cons like likes
            · cases w with
              | none => exact eq'
              | some d =>
                simp only [Functor.map,EStateM.map] at eq' ⊢
                rw [eq']
                cases declarations m false u <;> rfl

/-! ## The first token -/

theorem operand_else {n : Nat} (ended : s.Ended) (h : s.peek.kind = .kwElse) :
    ∃ t, operand (n + 1) s = .error .abort t ∧ s.errors.length < t.errors.length := by
  refine ⟨{ s.advance with
    errors := ⟨.parse .noExpression,s.peek.pos,place s.peek⟩ :: s.advance.errors },?_,?_⟩
  · rw [operand]
    simp only [Bind.bind,EStateM.bind,advance_eq ended,h,constant?]
    rfl
  · rw [errors_advance]
    exact Nat.lt_succ_self _

theorem declaration_else {n : Nat} (ended : s.Ended) (h : s.peek.kind = .kwElse) :
    ∃ t, declaration (n + 4) s = .ok none t ∧ s.errors.length < t.errors.length := by
  obtain ⟨t,e,grew⟩ := operand_else (n := n) ended h
  refine ⟨t.skipped,?_,grew⟩
  rw [declaration,recovering_eq]
  simp only [Bind.bind,EStateM.bind,peek,h]
  rw [statement]
  simp only [Bind.bind,EStateM.bind,peek,h,expressionStatement]
  rw [expression]
  simp only [Bind.bind,EStateM.bind,e]

/-- A program without errors does not start with an `else`. -/
theorem peek_ne_else {n : Nat} {p : Program} (enough : 8 * s.rest.length + 4 ≤ n) (ended : s.Ended)
    (e : declarations n false s = .ok p t) (quiet : t.errors.length ≤ s.errors.length) :
    s.peek.kind ≠ .kwElse := by
  intro h
  have two := ended.two_le (by simp [h])
  obtain ⟨n,rfl⟩ : ∃ l, n = l + 5 := ⟨n - 5,by omega⟩
  obtain ⟨u,ed,grew⟩ := declaration_else (n := n) ended h
  rw [declarations_of_more _ (by simp [h]),ed] at e
  obtain ⟨v,u',ed',on,less⟩ := declaration_eq_ok (n := n + 4) (by omega) ended
  rw [ed] at ed'
  cases ed'
  obtain ⟨q,t',e',on'⟩ := @declarations_eq_ok _ (n + 4) false (by omega) on.ended
  obtain ⟨-,rfl⟩ := EStateM.Result.ok.inj (e'.symm.trans e)
  exact absurd quiet (Nat.not_le_of_lt (Nat.lt_of_lt_of_le grew on'.errors_le))

/-! ## Programs -/

/-- The state in front of the tokens of a source. -/
def State.before (ts : List Token) : State := { last := default, rest := ts }

/-- The parser on the tokens of a source. -/
def whole (ts : List Token) : EStateM.Result Abort State Program :=
  declarations (enough ts.length) false (.before ts)

theorem enough_before (ts : List Token) :
    8 * (State.before ts).rest.length + 4 ≤ enough ts.length := by
  simp only [State.before,enough]
  omega

theorem Ended.kind {ts : List Token} {e : Token} (ended : Ended (ts ++ [e])) : e.kind = .eof := by
  obtain ⟨us,f,same,kind,-⟩ := ended
  obtain ⟨-,last⟩ := List.append_inj' same rfl
  cases last
  exact kind

omit [Std.Refl P] in
theorem beside_before {ts ts' : List Token} {e : Token} (ended : Ended (ts ++ [e]))
    (like : List.Forall₂ (Token.Alike P) ts ts') (h : s'.rest = ts' ++ us) :
    Beside P us (.before (ts ++ [e])) s' := ⟨ts,e,ts',rfl,ended.kind,h,like⟩

/-- The tokens of two programs without errors make up both programs. -/
theorem whole_joined {ts ts' us us' : List Token} {e f f' : Token} {p q : Program} {t u : State}
    (first : Ended (ts ++ [e])) (second : Ended (us ++ [f]))
    (left : List.Forall₂ (Token.Alike P) ts ts') (right : List.Forall₂ (Token.Alike P) us us')
    (last : Token.Alike P f f') (ep : whole (ts ++ [e]) = .ok p t) (quiet : t.errors = [])
    (eq : whole (us ++ [f]) = .ok q u) (quiet' : u.errors = []) :
    ∃ r v, whole (ts' ++ (us' ++ [f'])) = .ok r v ∧ v.errors = [] ∧ BodyAlike P (p ++ q) r := by
  have fresh : Fresh (us' ++ [f']) := by
    have other := peek_ne_else (enough_before _) second eq (by simp [quiet'])
    cases right with
    | nil => exact ⟨f',[],rfl,by simp [← last.kind,second.kind]⟩
    | cons like _ =>
      exact ⟨_,_,rfl,by simpa [State.peek,State.before,← like.kind] using other⟩
  have alone : Fresh [f'] := ⟨f',[],rfl,by simp [← last.kind,second.kind]⟩
  have size := left.length_eq
  have size' := right.length_eq
  have larger : enough (ts ++ [e]).length ≤ enough (ts' ++ (us' ++ [f'])).length := by
    simp only [enough,List.length_append,List.length_singleton]
    omega
  have beside : Beside P (us' ++ [f']) (.before (ts ++ [e])) (.before (ts' ++ (us' ++ [f']))) :=
    beside_before first left rfl
  obtain ⟨p',s',m,body,rest,silent,bound,e'⟩ := declarations_behind fresh larger (enough_before _) first
    beside ep (by simp [quiet])
  simp only [State.before,enough,List.length_append,List.length_singleton] at bound
  have left_over : enough (us ++ [f]).length ≤ m := by
    simp only [enough,List.length_append,List.length_singleton]
    omega
  obtain ⟨q',s'',m',body',rest',silent',bound',e''⟩ := declarations_behind alone left_over
    (enough_before _) second (beside_before second right rest) eq (by simp [quiet'])
  simp only [State.before,List.length_append,List.length_singleton] at bound'
  obtain ⟨m',rfl⟩ : ∃ l, m' = l + 1 := ⟨m' - 1,by omega⟩
  have finish : s''.peek.kind = .eof := by simp [State.peek,rest',← last.kind,second.kind]
  refine ⟨p' ++ (q' ++ []),s'',?_,?_,?_⟩
  · rw [whole,e']
    simp only [Functor.map,EStateM.map] at e'' ⊢
    rw [e'',declarations_of_end m' finish]
  · rw [silent',silent]
    rfl
  · rw [List.append_nil]
    exact body.append body'

end Parser
end Lox
