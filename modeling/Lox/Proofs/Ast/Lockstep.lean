import Lox.Proofs.Ast.Likeness
import Lox.Proofs.Ast.Parts

/-! # Parsers in lockstep

A parser that meets no error keeps step with itself on tokens that begin alike and go on where the
first ones end, as long as it has not looked at the end. On the way it moves forward: it never goes
back, records errors for good, and gives up only with an error of its own, unless the bound on
nested calls is met first. There is one rule for each way to put parsers together.
-/
namespace Lox

structure Token.Alike (P : Pos → Pos → Prop) (t u : Token) : Prop where
  kind : t.kind = u.kind
  lexeme : t.lexeme = u.lexeme
  literal : t.literal = u.literal
  pos : P t.pos u.pos

section
variable {P : Pos → Pos → Prop} [Std.Refl P]

theorem Pos.refl_of (p : Pos) : P p p := Std.Refl.refl p

instance : Std.Refl (Token.Alike P) := ⟨fun _ => ⟨rfl,rfl,rfl,Pos.refl_of _⟩⟩
instance : Std.Refl (Name.Alike P) := ⟨.refl Pos.refl_of⟩
instance : Std.Refl (Reference.Alike P) := ⟨.refl Pos.refl_of⟩
instance : Std.Refl (Expr.Alike P) := ⟨.refl Pos.refl_of⟩
instance : Std.Refl (ArgumentsAlike P) := ⟨.refl Pos.refl_of⟩
instance : Std.Refl (Stmt.Alike P) := ⟨.refl Pos.refl_of⟩
instance : Std.Refl (BodyAlike P) := ⟨.refl Pos.refl_of⟩
instance : Std.Refl (RoutineAlike P) := ⟨.refl Pos.refl_of⟩
instance : Std.Refl (RoutinesAlike P) := ⟨.refl Pos.refl_of⟩

instance optionRefl {α : Type} {R : α → α → Prop} [Std.Refl R] : Std.Refl (Option.Rel R) :=
  ⟨Option.Rel.refl_of Std.Refl.refl⟩

instance forall₂Refl {α : Type} {R : α → α → Prop} [Std.Refl R] : Std.Refl (List.Forall₂ R) :=
  ⟨fun _ => List.forall₂_same.mpr fun a _ => Std.Refl.refl a⟩

end

namespace Parser

/-! ## States -/

/-- Tokens that end with the token for the end, the only one of its kind. -/
def Ended (ts : List Token) : Prop := ∃ us e, ts = us ++ [e] ∧ e.kind = .eof ∧ ∀ u ∈ us, u.kind ≠ .eof

theorem Ended.cons {t : Token} {ts : List Token} (h : t.kind ≠ .eof) (ended : Ended ts) :
    Ended (t :: ts) := by
  obtain ⟨us,e,rfl,kind,others⟩ := ended
  exact ⟨t :: us,e,rfl,kind,List.forall_mem_cons.mpr ⟨h,others⟩⟩

/-- A suffix ends as the whole does. -/
theorem Ended.of_suffix {ts us : List Token} (ended : Ended ts) (suffix : us <:+ ts) (ne : us ≠ []) :
    Ended us := by
  obtain ⟨vs,e,rfl,kind,others⟩ := ended
  obtain ⟨ws,w,rfl⟩ := (List.eq_nil_or_concat' us).resolve_left ne
  obtain ⟨front,same⟩ := suffix
  rw [← List.append_assoc] at same
  obtain ⟨rfl,last⟩ := List.append_inj' same rfl
  cases last
  exact ⟨ws,_,rfl,kind,fun u hu => others u (List.mem_append_right front hu)⟩

/-- The tokens left end with the token for the end. -/
def State.Ended (s : State) : Prop := Parser.Ended s.rest

/-- A parser only moves forward and never takes an error back. -/
structure Onward (s t : State) : Prop where
  ended : t.Ended
  rest : t.rest <:+ s.rest
  errors : s.errors <:+ t.errors

variable {s t u : State}

theorem Onward.refl (ended : s.Ended) : Onward s s :=
  ⟨ended,List.suffix_refl _,List.suffix_refl _⟩

theorem Onward.trans (st : Onward s t) (tu : Onward t u) : Onward s u :=
  ⟨tu.ended,tu.rest.trans st.rest,st.errors.trans tu.errors⟩

theorem Onward.length_le (on : Onward s t) : t.rest.length ≤ s.rest.length := on.rest.length_le

theorem Onward.errors_le (on : Onward s t) : s.errors.length ≤ t.errors.length :=
  on.errors.length_le

theorem State.Ended.pos (ended : s.Ended) : 1 ≤ s.rest.length := by
  obtain ⟨ts,e,h,-,-⟩ := ended
  simp [h]

/-- No fuel at all is too little for what is left. -/
theorem State.Ended.unspent (ended : s.Ended) : ¬8 * s.rest.length ≤ 0 := by
  have := ended.pos
  omega

/-- Only the token for the end has nothing behind it. -/
theorem State.Ended.two_le (ended : s.Ended) (h : s.peek.kind ≠ .eof) : 2 ≤ s.rest.length := by
  obtain ⟨ts,e,rest,kind,-⟩ := ended
  cases ts with
  | nil => simp [State.peek,rest,kind] at h
  | cons t ts => simp [rest]

theorem State.Ended.peek_of_le (ended : s.Ended) (h : s.rest.length ≤ 1) : s.peek.kind = .eof := by
  obtain ⟨ts,e,rest,kind,-⟩ := ended
  cases ts with
  | nil => simpa [State.peek,rest] using kind
  | cons t ts => simp [rest] at h

theorem State.Ended.le_one (ended : s.Ended) (h : s.peek.kind = .eof) : s.rest.length ≤ 1 := by
  obtain ⟨ts,e,rest,-,others⟩ := ended
  cases ts with
  | nil => simp [rest]
  | cons t ts =>
    have := others t List.mem_cons_self
    simp_all [State.peek]

theorem rest_advance {t u : Token} {ts : List Token} (h : s.rest = t :: u :: ts) :
    s.advance = { s with last := t, rest := u :: ts } := by simp only [State.advance,h]

theorem advance_eq (ended : s.Ended) : Parser.advance s = .ok s.peek s.advance := by
  obtain ⟨ts,e,rest,-,-⟩ := ended
  have last : s.advance.last = s.peek := by
    rcases ts with _ | ⟨t,_ | ⟨u,ts⟩⟩ <;> simp [State.advance,State.peek,rest]
  simp only [Parser.advance,last]

theorem suffix_advance (s : State) : s.advance.rest <:+ s.rest := by
  simp only [State.advance]
  split
  · next e =>
    rw [e]
    exact List.suffix_cons _ _
  · exact List.suffix_refl _
  · exact List.suffix_refl _

theorem advance_ne_nil (h : s.rest ≠ []) : s.advance.rest ≠ [] := by
  simp only [State.advance]
  split
  · exact List.cons_ne_nil _ _
  · exact h
  · exact h

theorem length_advance (h : 2 ≤ s.rest.length) : s.advance.rest.length = s.rest.length - 1 := by
  match e : s.rest with
  | [] => simp [e] at h
  | [_] => simp [e] at h
  | t :: u :: ts => simp [rest_advance e]

theorem errors_advance (s : State) : s.advance.errors = s.errors := by
  simp only [State.advance]
  split <;> rfl

theorem onward_advance (ended : s.Ended) : Onward s s.advance := by
  have ne : s.rest ≠ [] := List.ne_nil_of_length_pos ended.pos
  refine ⟨ended.of_suffix (suffix_advance s) (advance_ne_nil ne),suffix_advance s,?_⟩
  exact (errors_advance s).symm ▸ List.suffix_refl s.errors

/-- Where a parser gets to: on success at most so many tokens are left, and when it gives up there
is a new error and at most so many other tokens are left. -/
inductive Gets {α : Type} (a b : Nat) (s : State) : EStateM.Result Abort State α → Prop
  | ok {v t} : Onward s t → t.rest.length ≤ a → Gets a b s (.ok v t)
  | error {e t} : Onward s t → s.errors.length < t.errors.length → t.rest.length ≤ b →
      Gets a b s (.error e t)

section
variable (P : Pos → Pos → Prop) (us : List Token)

/-- Two states have like tokens before them: up to the end on one side, up to `us` on the other. -/
def Beside (s s' : State) : Prop := ∃ ts e ts', s.rest = ts ++ [e] ∧ e.kind = .eof ∧
  s'.rest = ts' ++ us ∧ List.Forall₂ (Token.Alike P) ts ts'

/-- A parser gets on, and while it meets no error another one keeps step with it. One that is not
closed looks at a token which it does not use up. -/
structure InStep {α : Type} (a b : Nat) (closed : Prop) (rel : α → α → Prop) (s : State)
    (x y : Parser α) : Prop where
  gets : Gets a b s (x s)
  keeps : ∀ {s' v t}, Beside P us s s' → x s = .ok v t → t.errors.length ≤ s.errors.length →
    (closed ∨ 1 < t.rest.length) →
    ∃ w t', y s' = .ok w t' ∧ rel v w ∧ Beside P us t t' ∧ t'.errors = s'.errors

end

section
variable {P : Pos → Pos → Prop} {us : List Token} {α β : Type} {a b a' b' : Nat}
  {closed closed' : Prop} {rel : α → α → Prop} {rel' : β → β → Prop}

theorem Beside.peek {s' : State} (beside : Beside P us s s') (h : 1 < s.rest.length) :
    Token.Alike P s.peek s'.peek := by
  obtain ⟨ts,e,ts',rest,kind,rest',like⟩ := beside
  cases like with
  | nil => simp [rest] at h
  | cons like _ => simpa [State.peek,rest,rest'] using like

/-! ## Putting parsers together -/

theorem Gets.weaken {x : EStateM.Result Abort State α} (h : Gets a b s x) (ha : a ≤ a') (hb : b ≤ b') :
    Gets a' b' s x := by
  cases h with
  | ok on less => exact .ok on (Nat.le_trans less ha)
  | error on grew less => exact .error on grew (Nat.le_trans less hb)

theorem Gets.bind {x : Parser α} {f : α → Parser β} (first : Gets a b s (x s))
    (next : ∀ v t, x s = .ok v t → Onward s t → t.rest.length ≤ a → Gets a' b t (f v t)) :
    Gets a' b s ((x >>= f) s) := by
  simp only [Bind.bind,EStateM.bind]
  cases ex : x s with
  | error e t =>
    rw [ex] at first
    cases first with
    | error on grew short => exact .error on grew short
  | ok v t =>
    rw [ex] at first
    cases first with
    | ok on short =>
      have rest := next v t ex on short
      dsimp only
      cases ef : f v t with
      | ok w u =>
        rw [ef] at rest
        cases rest with
        | ok on' short' => exact .ok (on.trans on') short'
      | error e u =>
        rw [ef] at rest
        cases rest with
        | error on' grew short' =>
          exact .error (on.trans on') (Nat.lt_of_le_of_lt on.errors_le grew) short'

theorem Gets.map {x : Parser α} {f : α → β} (h : Gets a b s (x s)) : Gets a b s ((f <$> x) s) := by
  simp only [Functor.map,EStateM.map]
  cases ex : x s with
  | ok v t => rw [ex] at h; cases h with | ok on less => exact .ok on less
  | error e t => rw [ex] at h; cases h with | error on grew less => exact .error on grew less

theorem InStep.weaken {x y : Parser α} (h : InStep P us a b closed rel s x y) (ha : a ≤ a')
    (hb : b ≤ b') (hc : closed' → closed) : InStep P us a' b' closed' rel s x y :=
  ⟨h.gets.weaken ha hb,fun beside e quiet looked => h.keeps beside e quiet (looked.imp hc id)⟩

theorem InStep.within {x y : Parser α} (h : InStep P us a b closed rel s x y) (hb : b ≤ b') :
    InStep P us a b' closed rel s x y := h.weaken (Nat.le_refl a) hb id

theorem InStep.pure {v w : α} (ended : s.Ended) (vw : rel v w) (ha : s.rest.length ≤ a) :
    InStep P us a b closed rel s (pure v) (pure w) :=
  ⟨.ok (.refl ended) ha,fun beside e _ _ => by cases e; exact ⟨w,_,rfl,vw,beside,rfl⟩⟩

theorem InStep.chain [Std.Refl rel] {x y : Parser α} {f g : α → Parser β} {c : State → Nat}
    (first : InStep P us a b closed rel s x y)
    (next : ∀ v w t, x s = .ok v t → rel v w → Onward s t → t.rest.length ≤ a →
      InStep P us (c t) b closed' rel' t (f v) (g w))
    (less : ∀ t, t.rest.length ≤ a → c t ≤ a')
    (shut : closed' → closed ∨ ∀ t, 1 ≤ t.rest.length → c t < t.rest.length) :
    InStep P us a' b closed' rel' s (x >>= f) (y >>= g) := by
  obtain ⟨gets,keeps⟩ := first
  constructor
  · exact gets.bind fun v t ex on short =>
      (next v v t ex (Std.Refl.refl v) on short).gets.weaken (less t short) (Nat.le_refl b)
  · intro s' v u beside e quiet looked
    simp only [Bind.bind,EStateM.bind] at e ⊢
    cases ex : x s with
    | error _ _ => rw [ex] at e; cases e
    | ok m t =>
      rw [ex] at e gets
      dsimp only at e
      cases gets with
      | ok on short =>
        have rest := (next m m t ex (Std.Refl.refl m) on short).gets
        rw [e] at rest
        cases rest with
        | ok on' short' =>
          have early : closed ∨ 1 < t.rest.length := by
            rcases looked with c | long
            · refine (shut c).imp id fun moves => ?_
              have := moves t on.ended.pos
              have := on'.ended.pos
              omega
            · exact .inr (Nat.lt_of_lt_of_le long on'.length_le)
          obtain ⟨w,t',ey,mw,beside,silent⟩ :=
            keeps beside ex (Nat.le_trans on'.errors_le quiet) early
          obtain ⟨w',u',ey',vw,beside,silent'⟩ := (next m w t ex mw on short).keeps beside e
            (Nat.le_trans quiet on.errors_le) looked
          refine ⟨w',u',?_,vw,beside,silent'.trans silent⟩
          rw [ey]
          exact ey'

/-- What follows a closed parser may be anything. -/
theorem InStep.bind [Std.Refl rel] {x y : Parser α} {f g : α → Parser β}
    (first : InStep P us a b closed rel s x y)
    (next : ∀ v w t, x s = .ok v t → rel v w → Onward s t → t.rest.length ≤ a →
      InStep P us a' b closed' rel' t (f v) (g w)) (shut : closed' → closed) :
    InStep P us a' b closed' rel' s (x >>= f) (y >>= g) :=
  first.chain (c := fun _ => a') next (fun _ _ => Nat.le_refl a') fun c => .inl (shut c)

/-- What follows a parser that is not closed uses up the token that it has looked at. -/
theorem InStep.look [Std.Refl rel] {x y : Parser α} {f g : α → Parser β}
    (first : InStep P us a b closed rel s x y)
    (next : ∀ v w t, x s = .ok v t → rel v w → Onward s t → t.rest.length ≤ a →
      InStep P us (t.rest.length - 1) b closed' rel' t (f v) (g w)) :
    InStep P us (a - 1) b closed' rel' s (x >>= f) (y >>= g) :=
  first.chain (c := fun t => t.rest.length - 1) next (fun _ h => Nat.sub_le_sub_right h 1)
    fun _ => .inr fun _ h => Nat.sub_lt h Nat.one_pos

/-- A parser that only gives up. -/
theorem InStep.fail {x y : Parser α} {e : Abort} (h : x s = .error e t) (on : Onward s t)
    (grew : s.errors.length < t.errors.length) (hb : t.rest.length ≤ b) :
    InStep P us a b closed rel s x y :=
  ⟨h ▸ .error on grew hb,fun _ e _ _ => by rw [h] at e; cases e⟩

theorem InStep.map {x y : Parser α} {f g : α → β} (h : InStep P us a b closed rel s x y)
    (hf : ∀ v w, rel v w → rel' (f v) (g w)) :
    InStep P us a b closed rel' s (f <$> x) (g <$> y) := by
  obtain ⟨gets,keeps⟩ := h
  constructor
  · exact gets.map
  · intro s' v t beside e quiet looked
    simp only [Functor.map,EStateM.map] at e ⊢
    cases ex : x s with
    | error _ _ => rw [ex] at e; cases e
    | ok v t =>
      rw [ex] at e
      cases e
      obtain ⟨w,t',ey,vw,beside,silent⟩ := keeps beside ex quiet looked
      exact ⟨g w,t',by rw [ey],hf v w vw,beside,silent⟩

/-! ## Single operations -/

theorem inStep_peek (ended : s.Ended) :
    InStep P us s.rest.length b False (Token.Alike P) s peek peek :=
  ⟨.ok (.refl ended) (Nat.le_refl _),fun beside e _ looked => by
    cases e
    exact ⟨_,_,rfl,beside.peek (looked.resolve_left id),beside,rfl⟩⟩

theorem inStep_atKind (ended : s.Ended) (k : Token.Kind) :
    InStep P us s.rest.length b False Eq s (atKind k) (atKind k) :=
  ⟨.ok (.refl ended) (Nat.le_refl _),fun beside e _ looked => by
    cases e
    have like := (beside.peek (looked.resolve_left id)).kind
    exact ⟨_,_,rfl,by rw [like],beside,rfl⟩⟩

theorem inStep_advance [Std.Refl P] (ended : s.Ended) (h : 2 ≤ s.rest.length) (hus : us ≠ []) :
    InStep P us (s.rest.length - 1) b True (Token.Alike P) s advance advance := by
  constructor
  · rw [advance_eq ended]
    exact .ok (onward_advance ended) (Nat.le_of_eq (length_advance h))
  · rintro s' v t ⟨ts,e,ts',rest,kind,rest',like⟩ ex - -
    rw [advance_eq ended] at ex
    cases ex
    cases like with
    | nil => simp [rest] at h
    | @cons t t' ts ts' like likes =>
      obtain ⟨u,ws,e'⟩ : ∃ u ws, ts' ++ us = u :: ws := List.exists_cons_of_ne_nil (by simp [hus])
      obtain ⟨u',ws',e''⟩ : ∃ u ws, ts ++ [e] = u :: ws := List.exists_cons_of_ne_nil (by simp)
      have moved : s.advance = { s with last := t, rest := ts ++ [e] } := by
        rw [e'']
        exact rest_advance (by rw [rest,List.cons_append,e''])
      have moved' : s'.advance = { s' with last := t', rest := ts' ++ us } := by
        rw [e']
        exact rest_advance (by rw [rest',List.cons_append,e'])
      refine ⟨t',s'.advance,?_,?_,⟨ts,e,ts',?_,kind,?_,likes⟩,errors_advance s'⟩
      · simp [Parser.advance,moved']
      · simpa [State.peek,rest] using like
      · rw [moved]
      · rw [moved']

theorem inStep_giveUp (ended : s.Ended) (t t' : Token) (e : ParseError) (hb : s.rest.length ≤ b) :
    InStep P us a b closed rel s (Parser.fail t e) (Parser.fail t' e) := by
  refine .fail (e := .abort) (t := { s with errors := ⟨.parse e,t.pos,place t⟩ :: s.errors }) rfl
    ⟨ended,List.suffix_refl _,List.suffix_cons _ _⟩ (Nat.lt_succ_self _) hb

theorem inStep_expect [Std.Refl P] (ended : s.Ended) (hus : us ≠ []) {k : Token.Kind} (hk : k ≠ .eof)
    (e : ParseError) (hb : s.rest.length ≤ b) :
    InStep P us (s.rest.length - 1) b True (Token.Alike P) s (expect k e) (expect k e) := by
  refine (inStep_peek ended).look fun t u s' ex like on _ => ?_
  cases ex
  rw [← like.kind]
  split
  · next h => exact inStep_advance ended (ended.two_le fun h' => hk (h.symm.trans h')) hus
  · exact inStep_giveUp ended _ _ e hb

/-- A parser behind a token that has to come next. -/
theorem inStep_over [Std.Refl P] {x y : Parser α} (ended : s.Ended) (hus : us ≠ []) {k : Token.Kind}
    (hk : k ≠ .eof) (e : ParseError) (hb : s.rest.length ≤ b)
    (h : ∀ t : State, t.Ended → t.rest.length ≤ s.rest.length - 1 → InStep P us a b closed rel t x y) :
    InStep P us a b closed rel s (do let _ ← expect k e; x) (do let _ ← expect k e; y) :=
  (inStep_expect ended hus hk e hb).bind (fun _ _ t _ _ on less => h t on.ended less) fun _ => trivial

/-- A parser behind a token that has been looked at. -/
theorem inStep_past [Std.Refl P] {x y : Parser α} (ended : s.Ended) (two : 2 ≤ s.rest.length)
    (hus : us ≠ [])
    (h : ∀ t : State, t.Ended → t.rest.length ≤ s.rest.length - 1 → InStep P us a b closed rel t x y) :
    InStep P us a b closed rel s (do let _ ← advance; x) (do let _ ← advance; y) :=
  (inStep_advance ended two hus).bind (fun _ _ t _ _ on less => h t on.ended less) fun _ => trivial

theorem inStep_expectName [Std.Refl P] (ended : s.Ended) (hus : us ≠ []) (e : ParseError)
    (hb : s.rest.length ≤ b) :
    InStep P us (s.rest.length - 1) b True (Name.Alike P) s (expectName e) (expectName e) :=
  (inStep_expect ended hus (by decide) e hb).bind
    (fun _ _ _ _ like on less => .pure on.ended ⟨like.lexeme,like.pos⟩ less) id

/-- An error that does not end a declaration is one all the same. -/
theorem inStep_report (ended : s.Ended) (t t' : Token) (e : ParseError) :
    InStep P us s.rest.length b closed Eq s (report t e) (report t' e) := by
  have on : Onward s { s with errors := ⟨.parse e,t.pos,place t⟩ :: s.errors } :=
    ⟨ended,List.suffix_refl _,List.suffix_cons _ _⟩
  refine ⟨.ok on (Nat.le_refl _),fun _ ex quiet _ => ?_⟩
  cases ex
  exact absurd quiet (Nat.not_le_of_lt (Nat.lt_succ_self _))

theorem inStep_assignment [Std.Refl P] (ended : s.Ended) {t t' : Token} {d d' e e' : Expr}
    (target : Expr.Alike P d d') (value : Expr.Alike P e e') :
    InStep P us s.rest.length b True (Expr.Alike P) s (assignment t d e) (assignment t' d' e') := by
  have invalid : ∀ d d' : Expr, Expr.Alike P d d' → InStep P us s.rest.length b True (Expr.Alike P) s
      (do report t .invalidTarget; return d) (do report t' .invalidTarget; return d') :=
    fun d d' like => (inStep_report ended t t' _).bind
      (fun _ _ _ _ _ on less => .pure on.ended like less) id
  cases target with
  | var like => exact .pure ended (.assign like value) (Nat.le_refl _)
  | get like name => exact .pure ended (.set like name value) (Nat.le_refl _)
  | literal pos => exact invalid _ _ (.literal pos)
  | grouping pos like => exact invalid _ _ (.grouping pos like)
  | assign like like' => exact invalid _ _ (.assign like like')
  | unary pos like => exact invalid _ _ (.unary pos like)
  | binary like pos like' => exact invalid _ _ (.binary like pos like')
  | logical like pos like' => exact invalid _ _ (.logical like pos like')
  | call like pos likes => exact invalid _ _ (.call like pos likes)
  | set like name like' => exact invalid _ _ (.set like name like')
  | this pos => exact invalid _ _ (.this pos)
  | super pos name => exact invalid _ _ (.super pos name)

/-! ## Expressions -/

/-- What the parsers of expressions do under a bound on nested calls that is large enough. -/
structure ExpressionsInStep (P : Pos → Pos → Prop) (us : List Token) (n : Nat) : Prop where
  expression {n' lower : Nat} {s : State} : n ≤ n' → 8 * s.rest.length + 1 ≤ n → s.Ended →
    InStep P us (s.rest.length - 1) (max 1 (s.rest.length - 1)) False (Expr.Alike P) s
      (expression n lower) (expression n' lower)
  operand {n' : Nat} {s : State} : n ≤ n' → 8 * s.rest.length ≤ n → s.Ended →
    InStep P us (s.rest.length - 1) (max 1 (s.rest.length - 1)) False (Expr.Alike P) s
      (operand n) (operand n')
  operators {n' lower : Nat} {d d' : Expr} {s : State} : n ≤ n' → 8 * s.rest.length ≤ n →
    s.Ended → Expr.Alike P d d' →
    InStep P us s.rest.length s.rest.length False (Expr.Alike P) s
      (operators n lower d) (operators n' lower d')
  extend {n' : Nat} {t t' : Token} {d d' : Expr} {s : State} : n ≤ n' → 8 * s.rest.length + 2 ≤ n →
    s.Ended → Token.Alike P t t' → Expr.Alike P d d' →
    InStep P us s.rest.length s.rest.length False (Expr.Alike P) s
      (extend n t d) (extend n' t' d')
  arguments {n' count : Nat} {s : State} : n ≤ n' → 8 * s.rest.length ≤ n → s.Ended →
    InStep P us s.rest.length s.rest.length False (ArgumentsAlike P) s
      (arguments n count) (arguments n' count)

namespace ExpressionsInStep
variable [Std.Refl P] {n n' : Nat} (h : ExpressionsInStep P us n) (hus : us ≠ [])
include h

theorem expression_succ {lower : Nat} (hn : n + 1 ≤ n') (enough : 8 * s.rest.length + 1 ≤ n + 1)
    (ended : s.Ended) :
    InStep P us (s.rest.length - 1) (max 1 (s.rest.length - 1)) False (Expr.Alike P) s
      (Parser.expression (n + 1) lower) (Parser.expression n' lower) := by
  obtain ⟨n',rfl⟩ : ∃ l, n' = l + 1 := ⟨n' - 1,by omega⟩
  rw [Parser.expression,Parser.expression]
  refine (h.operand (by omega) (by omega) ended).bind (fun d d' t _ like on less => ?_) id
  exact (h.operators (by omega) (by omega) on.ended like).weaken less (by omega) id

include hus

theorem operand_succ (hn : n + 1 ≤ n') (enough : 8 * s.rest.length ≤ n + 1) (ended : s.Ended) :
    InStep P us (s.rest.length - 1) (max 1 (s.rest.length - 1)) False (Expr.Alike P) s
      (Parser.operand (n + 1)) (Parser.operand n') := by
  obtain ⟨n',rfl⟩ : ∃ l, n' = l + 1 := ⟨n' - 1,by omega⟩
  rw [Parser.operand,Parser.operand]
  rcases Nat.lt_or_ge s.rest.length 2 with short | two
  · -- At the end there is no operand, and the end is not used up.
    have kind := ended.peek_of_le (Nat.le_of_lt_succ short)
    have on := onward_advance ended
    refine .fail (e := .abort) (t := { s.advance with
      errors := ⟨.parse .noExpression,s.peek.pos,place s.peek⟩ :: s.advance.errors }) ?_
      ⟨on.ended,on.rest,on.errors.trans (List.suffix_cons _ _)⟩ ?_ ?_
    · simp only [Bind.bind,EStateM.bind,advance_eq ended,kind,constant?]
      rfl
    · exact Nat.lt_succ_of_le on.errors_le
    · have := on.length_le
      dsimp only
      omega
  · refine (inStep_advance ended two hus).bind (fun t u s' ex like on less => ?_) fun _ => trivial
    have value : constant? u = constant? t := by
      simp only [constant?,like.kind,like.lexeme,like.literal]
    have unary : ∀ op, InStep P us (s.rest.length - 1) (max 1 (s.rest.length - 1)) False
        (Expr.Alike P) s' (do return .unary op t.pos (← Parser.expression n unaryLevel))
        (do return .unary op u.pos (← Parser.expression n' unaryLevel)) := fun op =>
      ((h.expression (by omega) (by omega) on.ended).within (by omega)).bind
        (fun d e _ _ inner on' less' => .pure on'.ended (.unary like.pos inner) (by omega)) id
    rw [← like.kind]
    generalize t.kind = kind
    cases kind with
    | identifier => exact .pure on.ended (.var ⟨⟨like.lexeme,like.pos⟩,rfl⟩) less
    | kwThis => exact .pure on.ended (.this like.pos) less
    | kwSuper =>
      refine inStep_over on.ended hus (by decide) _ (by omega) fun s'' ended' less' => ?_
      refine (inStep_expectName ended' hus _ (by omega)).bind (fun _ _ _ _ name on'' less'' => ?_)
        fun _ => trivial
      exact .pure on''.ended (.super like.pos name) (by omega)
    | leftParen =>
      refine ((h.expression (by omega) (by omega) on.ended).within (by omega)).bind
        (fun d e s'' _ inner on' less' => ?_) id
      refine inStep_over on'.ended hus (by decide) _ (by omega) fun _ ended'' less'' => ?_
      exact .pure ended'' (.grouping like.pos inner) (by omega)
    | bang => exact unary .not
    | minus => exact unary .minus
    | _ =>
      rw [value]
      cases constant? t with
      | some value => exact .pure on.ended (.literal like.pos) less
      | none => exact inStep_giveUp on.ended _ _ _ (by omega)

theorem operators_succ {lower : Nat} {d d' : Expr} (hn : n + 1 ≤ n')
    (enough : 8 * s.rest.length ≤ n + 1) (ended : s.Ended) (like : Expr.Alike P d d') :
    InStep P us s.rest.length s.rest.length False (Expr.Alike P) s
      (Parser.operators (n + 1) lower d) (Parser.operators n' lower d') := by
  obtain ⟨n',rfl⟩ : ∃ l, n' = l + 1 := ⟨n' - 1,by omega⟩
  rw [Parser.operators,Parser.operators]
  refine (inStep_peek ended).bind (fun t u s' ex token on _ => ?_) id
  cases ex
  rw [← token.kind]
  split
  · next h' =>
    have two := ended.two_le fun e => by simp [e,level] at h'
    refine inStep_past ended two hus fun s' ended' less => ?_
    refine ((h.extend (by omega) (by omega) ended' token like).within (by omega)).bind
      (fun e e' s'' _ like on' less' => ?_) id
    exact (h.operators (by omega) (by omega) on'.ended like).weaken (by omega) (by omega) id
  · exact .pure ended like (Nat.le_refl _)

theorem arguments_succ {count : Nat} (hn : n + 1 ≤ n') (enough : 8 * s.rest.length ≤ n + 1)
    (ended : s.Ended) :
    InStep P us s.rest.length s.rest.length False (ArgumentsAlike P) s
      (Parser.arguments (n + 1) count) (Parser.arguments n' count) := by
  obtain ⟨n',rfl⟩ : ∃ l, n' = l + 1 := ⟨n' - 1,by omega⟩
  rw [arguments_eq,arguments_eq]
  refine (inStep_atKind ended .comma).bind (fun comma _ s' ex same on _ => ?_) id
  subst same
  cases ex
  split
  · next comma =>
    have two := ended.two_le fun e => by simp [e] at comma
    refine inStep_past ended two hus fun s' ended' less => ?_
    have rest : ∀ {s' : State}, s'.Ended → s'.rest.length ≤ s.rest.length - 1 →
        InStep P us s.rest.length s.rest.length False (ArgumentsAlike P) s' (furtherArguments n count)
          (furtherArguments n' count) := by
      intro s' ended' less
      refine ((h.expression (by omega) (by omega) ended').within (by omega)).bind
        (fun _ _ s'' _ head on less' => ?_) id
      refine ((h.arguments (by omega) (by omega) on.ended).within (by omega)).bind
        (fun _ _ _ _ others on' less'' => ?_) id
      exact .pure on'.ended (.cons head others) (by omega)
    split
    · refine (inStep_peek ended').bind (fun t u s'' _ _ on' less' => ?_) id
      refine (inStep_report on'.ended t u _).bind (fun _ _ _ _ _ on'' less'' => ?_) id
      exact rest on''.ended (by omega)
    · exact rest ended' less
  · exact .pure ended .nil (Nat.le_refl _)

theorem extend_succ {t t' : Token} {d d' : Expr} (hn : n + 1 ≤ n')
    (enough : 8 * s.rest.length + 2 ≤ n + 1) (ended : s.Ended) (token : Token.Alike P t t')
    (like : Expr.Alike P d d') :
    InStep P us s.rest.length s.rest.length False (Expr.Alike P) s
      (Parser.extend (n + 1) t d) (Parser.extend n' t' d') := by
  obtain ⟨n',rfl⟩ : ∃ l, n' = l + 1 := ⟨n' - 1,by omega⟩
  have pos := ended.pos
  have operand : ∀ lower, InStep P us (s.rest.length - 1) s.rest.length False (Expr.Alike P) s
      (Parser.expression n lower) (Parser.expression n' lower) := fun lower =>
    (h.expression (by omega) (by omega) ended).within (by omega)
  rw [Parser.extend,Parser.extend,← token.kind]
  split
  · refine (operand _).bind (fun _ _ _ _ right on less => ?_) id
    exact .pure on.ended (.binary like token.pos right) (by omega)
  · refine (operand _).bind (fun _ _ _ _ right on less => ?_) id
    exact .pure on.ended (.logical like token.pos right) (by omega)
  · refine (operand _).bind (fun _ _ _ _ right on less => ?_) id
    exact (inStep_assignment on.ended like right).weaken (by omega) (Nat.le_refl _) False.elim
  · refine (inStep_expectName ended hus _ (Nat.le_refl _)).bind
      (fun _ _ _ _ name on less => ?_) fun _ => trivial
    exact .pure on.ended (.get like name) (by omega)
  · refine (inStep_atKind ended .rightParen).bind (fun close _ s' ex same on _ => ?_) id
    subst same
    cases ex
    split
    · next close =>
      have two := ended.two_le fun e => by simp [e] at close
      refine (inStep_advance ended two hus).bind (fun _ _ _ _ close on less => ?_) fun _ => trivial
      exact .pure on.ended (.call like close.pos .nil) (by omega)
    · refine (operand _).bind (fun _ _ s' _ head on less => ?_) id
      refine ((h.arguments (by omega) (by omega) on.ended).within (by omega)).bind
        (fun _ _ s'' _ others on' less' => ?_) id
      refine (inStep_expect on'.ended hus (by decide) _ (by omega)).bind
        (fun _ _ _ _ close on'' less'' => ?_) fun _ => trivial
      exact .pure on''.ended (.call like close.pos (.cons head others)) (by omega)

end ExpressionsInStep

theorem expressionsInStep [Std.Refl P] (hus : us ≠ []) (n : Nat) : ExpressionsInStep P us n := by
  induction n with
  | zero =>
    constructor
    case operand => exact fun _ enough ended => absurd enough ended.unspent
    case operators => exact fun _ enough ended _ => absurd enough ended.unspent
    case arguments => exact fun _ enough ended => absurd enough ended.unspent
    all_goals intros; omega
  | succ n ih =>
    exact ⟨ih.expression_succ,ih.operand_succ hus,ih.operators_succ hus,ih.extend_succ hus,
      ih.arguments_succ hus⟩

end
end Parser
end Lox
