import Lox.Proofs.Ast.Precedence

/-! # Parsers on the track of the grammar

A parser is on the track of some continuations when the tokens read so far go on to a program exactly
with these, as far as the next token tells. It leaves the track at the first token that no program has
there, and with an error about that token. There is one rule for each operation on states.
-/
namespace Lox

/-- An error that gives a declaration up. -/
def ParseError.aborts : ParseError → Bool
  | invalidTarget | tooManyParameters | tooManyArguments => false
  | _ => true

def Diagnostic.aborts (d : Diagnostic) : Bool :=
  match d.cause with
  | .parse e => e.aborts
  | _ => false

/-- A literal has a value. -/
structure Token.Valued (t : Token) : Prop where
  number : t.kind = .number → ∃ x, t.literal = some (.number x)
  string : t.kind = .string → ∃ s, t.literal = some (.string s)

/-- Some tokens start a program, and with one more token they do not. -/
structure Offends (us : List Token) (t : Token) : Prop where
  before : ∃ w, us.map Token.kind ++ w ∈ Symbol.language [.program]
  behind : ∀ w, us.map Token.kind ++ t.kind :: w ∉ Symbol.language [.program]

/-- At most one token is the first with which no program starts. -/
theorem Offends.unique {us us' vs vs' : List Token} {t t' : Token} (h : Offends us t)
    (h' : Offends us' t') (same : us ++ t :: vs = us' ++ t' :: vs') : us = us' := by
  have shorter : ∀ {us us' vs vs' : List Token} {t t' : Token}, Offends us t → Offends us' t' →
      us ++ t :: vs = us' ++ t' :: vs' → us'.length ≤ us.length := by
    intro us us' vs vs' t t' h h' same
    by_contra longer
    have whole : us ++ [t] <+: us' ++ t' :: vs' := by
      rw [← same]
      exact ⟨vs,by simp⟩
    obtain ⟨ws,rfl⟩ : us ++ [t] <+: us' := by
      refine List.prefix_of_prefix_length_le whole (List.prefix_append _ _) ?_
      rw [List.length_append,List.length_singleton]
      omega
    obtain ⟨w,hw⟩ := h'.before
    exact h.behind (ws.map Token.kind ++ w) (by simpa using hw)
  have length := Nat.le_antisymm (shorter h' h same.symm) (shorter h h' same)
  exact (List.append_inj same length).1

namespace Parser
open Lox.Symbol

/-- The tokens up to a state go on to a program with the words of a language and, if the next token is
the first of them, with no others. There has been no error that gives up. -/
structure OnTrack (ts us : List Token) (K : Language Token.Kind) (s : State) : Prop where
  split : us ++ s.rest = ts
  some : ∃ w, w ∈ K
  into : ∀ w ∈ K, us.map Token.kind ++ w ∈ language [.program]
  back : ∀ w, us.map Token.kind ++ s.peek.kind :: w ∈ language [.program] → s.peek.kind :: w ∈ K
  quiet : ∀ d ∈ s.errors, d.aborts = false

/-- The first error that gave up is about the first token that no program has there, and the others
are not about tokens before it. -/
structure OffTrack (ts : List Token) (us : List Token) (t : Token) (vs : List Token) (s : State) :
    Prop where
  split : us ++ t :: vs = ts
  offends : Offends us t
  ahead : s.rest <:+ t :: vs
  first : ∃ later e quiet, s.errors = later ++ ⟨.parse e,t.pos,place t⟩ :: quiet ∧ e.aborts = true ∧
    (∀ d ∈ quiet, d.aborts = false) ∧
    ∀ d ∈ later, d.aborts = true → ∃ u ∈ t :: vs, d.pos = u.pos ∧ d.place = place u

section
variable (ts : List Token)

def Follows (K : Language Token.Kind) (s : State) : Prop := ∃ us, OnTrack ts us K s

def Strays (s : State) : Prop := ∃ us t vs, OffTrack ts us t vs s

/-- A parser gets to a state of a kind or leaves the track. -/
inductive Leads {α : Type} (Q : State → Prop) : EStateM.Result Abort State α → Prop
  | ok {v t} : Q t ∨ Strays ts t → Leads Q (.ok v t)
  | error {e t} : Strays ts t → Leads Q (.error e t)

end

section
variable {ts : List Token} {K K' : Language Token.Kind} {s t : State} {k : Token.Kind}
  {a : Symbol} {form ss : List Symbol}

/-! ## Leaving the track -/

theorem Strays.onward (h : Strays ts s) (rest : t.rest <:+ s.rest) (errors : t.errors = s.errors) :
    Strays ts t := by
  obtain ⟨us,u,vs,split,offends,ahead,first⟩ := h
  exact ⟨us,u,vs,split,offends,rest.trans ahead,errors ▸ first⟩

theorem Strays.error (h : Strays ts s) (rest : t.rest <:+ s.rest) {d : Diagnostic}
    (errors : t.errors = d :: s.errors)
    (about : d.aborts = true → ∃ u ∈ s.rest, d.pos = u.pos ∧ d.place = place u) :
    Strays ts t := by
  obtain ⟨us,u,vs,split,offends,ahead,later,e,quiet,same,aborts,silent,behind⟩ := h
  refine ⟨us,u,vs,split,offends,rest.trans ahead,d :: later,e,quiet,?_,aborts,silent,?_⟩
  · rw [errors,same,List.cons_append]
  · rw [List.forall_mem_cons]
    refine ⟨fun h => ?_,behind⟩
    obtain ⟨v,hv,same⟩ := about h
    exact ⟨v,ahead.subset hv,same⟩

theorem State.Ended.rest_eq (ended : s.Ended) : ∃ vs, s.rest = s.peek :: vs := by
  obtain ⟨us,e,rest,-,-⟩ := ended
  cases us with
  | nil => exact ⟨[],by simp [State.peek,rest]⟩
  | cons u us => exact ⟨us ++ [e],by simp [State.peek,rest]⟩

/-- The next token is one that no program has there. -/
theorem Follows.strays (h : Follows ts K s) (ended : s.Ended) (none : ∀ w, s.peek.kind :: w ∉ K)
    {e : ParseError} (aborts : e.aborts = true) (rest : t.rest <:+ s.rest)
    (errors : t.errors = ⟨.parse e,s.peek.pos,place s.peek⟩ :: s.errors) : Strays ts t := by
  obtain ⟨us,on⟩ := h
  obtain ⟨vs,ahead⟩ := ended.rest_eq
  obtain ⟨w,hw⟩ := on.some
  refine ⟨us,s.peek,vs,ahead ▸ on.split,⟨⟨w,on.into w hw⟩,?_⟩,ahead ▸ rest,?_⟩
  · intro w hw
    exact none w (on.back w hw)
  · exact ⟨[],e,s.errors,errors,aborts,on.quiet,List.forall_mem_nil _⟩

/-! ## Staying on it -/

theorem Follows.narrow (h : Follows ts K s) (some : ∃ w, w ∈ K') (less : K' ≤ K)
    (same : ∀ w, s.peek.kind :: w ∈ K → s.peek.kind :: w ∈ K') : Follows ts K' s := by
  obtain ⟨us,on⟩ := h
  exact ⟨us,on.split,some,fun w hw => on.into w (less hw),fun w hw => same w (on.back w hw),on.quiet⟩

theorem exists_mem_mul {L : Language Token.Kind} (h : ∃ w, w ∈ L) (h' : ∃ w, w ∈ K) :
    ∃ w, w ∈ L * K := by
  obtain ⟨v,hv⟩ := h
  obtain ⟨w,hw⟩ := h'
  exact ⟨v ++ w,Language.mem_mul.mpr ⟨v,hv,w,hw,rfl⟩⟩

theorem Follows.exists_right {L : Language Token.Kind} (h : Follows ts (L * K) s) : ∃ w, w ∈ K := by
  obtain ⟨us,on⟩ := h
  obtain ⟨w,hw⟩ := on.some
  obtain ⟨-,-,v,hv,-⟩ := Language.mem_mul.mp hw
  exact ⟨v,hv⟩

theorem Follows.mem (h : Follows ts K s) (ended : s.Ended) : s.peek ∈ ts := by
  obtain ⟨us,on⟩ := h
  obtain ⟨vs,ahead⟩ := ended.rest_eq
  rw [← on.split,ahead]
  exact List.mem_append_right us List.mem_cons_self

/-- A phrase takes the only form that the next token allows. -/
theorem Follows.choose (h : Follows ts (language (a :: ss) * K) s) (rule : Rule a form) (only : ∀ form' w, Rule a form' →
      s.peek.kind :: w ∈ language (form' ++ ss) * K → form' = form) :
    Follows ts (language (form ++ ss) * K) s := by
  refine h.narrow ?_ rule.le fun w hw => ?_
  · rw [language_cons_mul] at h
    rw [language_append,mul_assoc]
    exact exists_mem_mul (exists_mem_language rule.proper) h.exists_right
  · obtain ⟨form',rule',hw'⟩ := exists_form rule.phrase hw
    rwa [← only form' w rule' hw']

/-- A phrase that may be left out is there if the next token allows it. -/
theorem Follows.taken (h : Follows ts (language (a :: ss) * K) s) (opt : Optional a form)
    (absorbs : ∀ w, s.peek.kind :: w ∈ language ss * K → s.peek.kind :: w ∈ language (form ++ ss) * K) :
    Follows ts (language (form ++ ss) * K) s := by
  refine h.narrow ?_ opt.some.le fun w hw => ?_
  · rw [language_cons_mul] at h
    rw [language_append,mul_assoc]
    exact exists_mem_mul (exists_mem_language opt.some.proper) h.exists_right
  · obtain ⟨form',rule,hw'⟩ := exists_form opt.none.phrase hw
    rcases opt.only form' rule with rfl | rfl
    · exact absorbs w hw'
    · exact hw'

/-- A phrase that may be left out is not there if the next token does not start it. -/
theorem Follows.skipped (h : Follows ts (language (a :: ss) * K) s) (opt : Optional a form)
    (apart : ∀ w, s.peek.kind :: w ∉ language (form ++ ss) * K) : Follows ts (language ss * K) s := by
  refine h.choose opt.none fun form' w rule hw => ?_
  rcases opt.only form' rule with rfl | rfl
  · rfl
  · exact absurd hw (apart w)

theorem Follows.past (h : Follows ts K s) (ended : s.Ended) (more : s.peek.kind ≠ .eof)
    (some : ∃ w, w ∈ K') (step : ∀ w, s.peek.kind :: w ∈ K ↔ w ∈ K') : Follows ts K' s.advance := by
  obtain ⟨us,on⟩ := h
  obtain ⟨vs,ahead⟩ := ended.rest_eq
  have rest : s.rest = s.peek :: s.advance.rest := by
    have two := ended.two_le more
    rw [ahead] at two
    obtain ⟨v,vs',rfl⟩ := List.exists_cons_of_length_pos (Nat.lt_of_succ_le (Nat.le_of_succ_le_succ two))
    rw [rest_advance ahead]
    exact ahead
  have read : ∀ w, (us ++ [s.peek]).map Token.kind ++ w = us.map Token.kind ++ s.peek.kind :: w :=
    fun w => by simp
  refine ⟨us ++ [s.peek],?_,some,?_,?_,?_⟩
  · rw [← on.split,rest,List.append_assoc]
    rfl
  · intro w hw
    rw [read]
    exact on.into _ ((step w).mpr hw)
  · intro w hw
    rw [read] at hw
    exact (step _).mp (on.back _ hw)
  · rw [errors_advance]
    exact on.quiet

/-- The next token is the one that comes next in the grammar. -/
theorem Follows.advance (h : Follows ts (language (.token k :: ss) * K) s) (ended : s.Ended)
    (kind : s.peek.kind = k) (more : k ≠ .eof) : Follows ts (language ss * K) s.advance := by
  refine h.past ended (kind ▸ more) ?_ fun w => ?_
  · rw [language_cons_mul] at h
    exact h.exists_right
  · rw [cons_mem_token]
    exact and_iff_right kind

theorem Strays.advance (h : Strays ts s) : Strays ts s.advance :=
  h.onward (suffix_advance s) (errors_advance s)

/-! ## Operations of parsers -/

section
variable {α β : Type} {a b : ℕ} {Q Q' : State → Prop} {R : State → Prop} {x : Parser α} {f : α → Parser β}

theorem Leads.imp {r : EStateM.Result Abort State α} (h : Leads ts Q r) (hq : ∀ t, Q t → Q' t) :
    Leads ts Q' r := by
  cases h with
  | ok h => exact .ok (h.imp_left (hq _))
  | error h => exact .error h

theorem Leads.bind (first : Leads ts Q (x s)) (gets : Gets a b s (x s))
    (next : ∀ v t, Onward s t → t.rest.length ≤ a → Q t ∨ Strays ts t → Leads ts R (f v t)) :
    Leads ts R ((x >>= f) s) := by
  simp only [Bind.bind,EStateM.bind]
  cases ex : x s with
  | error _ t =>
    rw [ex] at first
    cases first with
    | error h => exact .error h
  | ok v t =>
    rw [ex] at first gets
    cases first with
    | ok h =>
      cases gets with
      | ok on less => exact next v t on less h

theorem Leads.map {f : α → β} (h : Leads ts Q (x s)) : Leads ts Q ((f <$> x) s) := by
  simp only [Functor.map,EStateM.map]
  cases ex : x s with
  | ok v t =>
    rw [ex] at h
    cases h with
    | ok h => exact .ok h
  | error e t =>
    rw [ex] at h
    cases h with
    | error h => exact .error h

theorem peek_bind (f : Token → Parser β) (s : State) : (peek >>= f) s = f s.peek s := rfl

theorem atKind_bind (k : Token.Kind) (f : Bool → Parser β) (s : State) :
    (atKind k >>= f) s = f (s.peek.kind = k) s := rfl

theorem advance_bind (f : Token → Parser β) (ended : s.Ended) :
    (Parser.advance >>= f) s = f s.peek s.advance := by
  simp only [Bind.bind,EStateM.bind,advance_eq ended]

/-- An error about the next token, which may have been read already. -/
theorem leads_fail {u : State} (h : (Follows ts K s ∧ ∀ w, s.peek.kind :: w ∉ K) ∨ Strays ts s)
    (ended : s.Ended) {e : ParseError} (aborts : e.aborts = true)
    (rest : u.rest <:+ s.rest) (errors : u.errors = s.errors) :
    Leads ts Q (fail (α := α) s.peek e u) := by
  have same : fail (α := α) s.peek e u = .error .abort
      { u with errors := ⟨.parse e,s.peek.pos,place s.peek⟩ :: u.errors } := rfl
  rw [same]
  refine .error ?_
  rcases h with ⟨h,none⟩ | h
  · exact h.strays ended none aborts rest (by rw [errors])
  · obtain ⟨vs,ahead⟩ := ended.rest_eq
    refine h.error rest (d := ⟨.parse e,s.peek.pos,place s.peek⟩) (by rw [errors]) fun _ => ?_
    exact ⟨s.peek,ahead ▸ List.mem_cons_self,rfl,rfl⟩

/-- An error that does not give up leaves a parser where it is. -/
theorem leads_report (ended : s.Ended) (u : Token) {e : ParseError} (quiet : e.aborts = false)
    (next : ∀ t : State, t.Ended → t.rest.length ≤ s.rest.length → t.peek = s.peek →
      (∀ K, Follows ts K s → Follows ts K t) → (Strays ts s → Strays ts t) → Leads ts Q (x t)) :
    Leads ts Q ((do report u e; x) s) := by
  refine next { s with errors := ⟨.parse e,u.pos,place u⟩ :: s.errors } ended le_rfl rfl ?_ ?_
  · rintro K ⟨us,on⟩
    exact ⟨us,on.split,on.some,on.into,on.back,List.forall_mem_cons.mpr ⟨quiet,on.quiet⟩⟩
  · refine fun h => h.error (List.suffix_refl _) rfl fun aborts => ?_
    rw [show Diagnostic.aborts ⟨.parse e,u.pos,place u⟩ = e.aborts from rfl,quiet] at aborts
    cases aborts

/-- The token that comes next in the grammar has to come next. -/
theorem leads_expect {f : Token → Parser β} (h : Follows ts (language (.token k :: ss) * K) s ∨ Strays ts s)
    (ended : s.Ended) (more : k ≠ .eof) {e : ParseError} (aborts : e.aborts = true)
    (next : ∀ v t, t.Ended → t.rest.length ≤ s.rest.length - 1 →
      Follows ts (language ss * K) t ∨ Strays ts t → Leads ts Q (f v t)) :
    Leads ts Q ((expect k e >>= f) s) := by
  rw [expect,bind_assoc,peek_bind]
  split
  · next kind =>
    rw [advance_bind f ended]
    refine next _ _ (onward_advance ended).ended ?_ ?_
    · exact (length_advance (ended.two_le (kind ▸ more))).le
    · exact h.imp (fun h => h.advance ended kind more) Strays.advance
  · next other =>
    have none : ∀ w, s.peek.kind :: w ∉ language (.token k :: ss) * K := fun w hw =>
      other (cons_mem_token.mp hw).1
    have failed : Leads ts Q (fail (α := Token) s.peek e s) :=
      leads_fail (h.imp_left fun h => ⟨h,none⟩) ended aborts (List.suffix_refl _) rfl
    refine failed.bind (a := 0) (b := s.rest.length) (gets_giveUp ended _ _ le_rfl) ?_
    intro v t on short
    exact absurd on.ended.pos (Nat.not_le_of_lt (Nat.lt_succ_of_le short))

theorem leads_expectName {f : Name → Parser β}
    (h : Follows ts (language (.token .identifier :: ss) * K) s ∨ Strays ts s) (ended : s.Ended)
    {e : ParseError} (aborts : e.aborts = true)
    (next : ∀ v t, t.Ended → t.rest.length ≤ s.rest.length - 1 →
      Follows ts (language ss * K) t ∨ Strays ts t → Leads ts Q (f v t)) :
    Leads ts Q ((expectName e >>= f) s) := by
  rw [expectName,bind_assoc]
  exact leads_expect h ended (by decide) aborts fun v t => next _ t

/-- A parser behind a token that has been looked at. -/
theorem leads_past {f : Token → Parser β} (h : Follows ts (language (.token k :: ss) * K) s ∨ Strays ts s)
    (ended : s.Ended) (kind : s.peek.kind = k) (more : k ≠ .eof)
    (next : ∀ v t, t.Ended → t.rest.length ≤ s.rest.length - 1 →
      Follows ts (language ss * K) t ∨ Strays ts t → Leads ts Q (f v t)) :
    Leads ts Q ((Parser.advance >>= f) s) := by
  rw [advance_bind f ended]
  refine next _ _ (onward_advance ended).ended ?_ ?_
  · exact (length_advance (ended.two_le (kind ▸ more))).le
  · exact h.imp (fun h => h.advance ended kind more) Strays.advance

/-- After giving up, a parser goes on off the track. -/
theorem leads_recovering {p : Parser Stmt} (h : Leads ts Q (p s)) : Leads ts Q (recovering p s) := by
  rw [recovering_eq]
  cases ex : p s with
  | ok v t =>
    rw [ex] at h
    cases h with
    | ok h => exact .ok h
  | error e t =>
    rw [ex] at h
    cases h with
    | error h => exact .ok (.inr (h.onward (skip_suffix t.last t.rest) rfl))

end

end
end Parser
end Lox
