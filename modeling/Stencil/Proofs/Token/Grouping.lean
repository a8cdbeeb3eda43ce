import Stencil.Token.Group
import Mathlib.Tactic

/-! Grouping tokens by their brackets keeps them all, in order, and succeeds exactly when the brackets pair up. Only
the kinds of the tokens count for that. -/

namespace Stencil.Token.Group

@[simp] theorem tokensOf_nil : tokensOf [] = [] := by rw [tokensOf]

@[simp] theorem tokensOf_cons (g : Group) (gs : List Group) : tokensOf (g :: gs) = g.tokens ++ tokensOf gs := by
  rw [tokensOf]

@[simp] theorem tokens_leaf (t : Token) : (leaf t).tokens = [t] := by rw [tokens]

@[simp] theorem tokens_pair (o : Token) (body : List Group) (c : Token) :
    (pair o body c).tokens = o :: (tokensOf body ++ [c]) := by
  rw [tokens]

@[simp] theorem tokensOf_append (gs hs : List Group) : tokensOf (gs ++ hs) = tokensOf gs ++ tokensOf hs := by
  induction gs with
  | nil => simp
  | cons g gs ih => simp [ih]

/-- The tokens that stand before the innermost open bracket, that bracket included. -/
def stackTokens : Stack → List Token
  | [] => []
  | (o, before) :: stack => stackTokens stack ++ tokensOf before.reverse ++ [o]

theorem build_tokens {stack : Stack} {done : List Group} {ts : List Token} {gs : List Group}
    (h : build stack done ts = .ok gs) :
    tokensOf gs = stackTokens stack ++ tokensOf done.reverse ++ ts := by
  fun_induction build stack done ts with
  | case1 done => cases h; simp [stackTokens]
  | case2 => cases h
  | case3 stack done t ts ho ih => simp [ih h, stackTokens]
  | case4 stack done t ts ho hc ih => simp [ih h]
  | case5 => cases h
  | case6 done t ts ho b hc o before stack hk ih => simp [ih h, stackTokens]
  | case7 => cases h

theorem ofTokens_tokens {ts : List Token} {gs : List Group} (h : ofTokens ts = .ok gs) : tokensOf gs = ts := by
  simpa [stackTokens] using build_tokens h

theorem opens_eq_curly {k : Kind} :
    k.opens = some .curly ↔ k = .lbrace ∨ k = .curlyOpen ∨ k = .dollarCurlyOpen := by
  cases k <;> simp [Kind.opens]

theorem opens_eq_none {k : Kind} {b : Bracket} (h : k.closes = some b) : k.opens = none := by
  cases k <;> simp_all [Kind.opens, Kind.closes]

theorem build_open {t : Token} {b : Bracket} (h : t.kind.opens = some b) (stack : Stack) (done : List Group)
    (ts : List Token) : build stack done (t :: ts) = build ((t, done) :: stack) [] ts := by
  rw [build.eq_def]
  simp [h]

theorem build_leaf {t : Token} (ho : t.kind.opens = none) (hc : t.kind.closes = none) (stack : Stack)
    (done : List Group) (ts : List Token) : build stack done (t :: ts) = build stack (.leaf t :: done) ts := by
  rw [build.eq_def]
  simp [ho, hc]

theorem build_close {o t : Token} {b : Bracket} (hc : t.kind.closes = some b) (ho : o.kind.opens = some b)
    (before : List Group) (stack : Stack) (done : List Group) (ts : List Token) :
    build ((o, before) :: stack) done (t :: ts) = build stack (.pair o done.reverse t :: before) ts := by
  rw [build.eq_def]
  simp [opens_eq_none hc, hc, ho]

/-- What one token does to the groups. -/
theorem build_cons {stack : Stack} {done : List Group} {t : Token} {ts : List Token} {gs : List Group}
    (h : build stack done (t :: ts) = .ok gs) :
    (t.kind.opens.isSome ∧ build ((t, done) :: stack) [] ts = .ok gs) ∨
      (t.kind.opens = none ∧ t.kind.closes = none ∧ build stack (.leaf t :: done) ts = .ok gs) ∨
      ∃ b o before stack', t.kind.closes = some b ∧ o.kind.opens = some b ∧ stack = (o, before) :: stack' ∧
        build stack' (.pair o done.reverse t :: before) ts = .ok gs := by
  rw [build.eq_def] at h
  simp only at h
  split_ifs at h with ho
  · exact .inl ⟨ho, h⟩
  · rw [Option.not_isSome_iff_eq_none] at ho
    split at h
    · next hc => exact .inr (.inl ⟨ho, hc, h⟩)
    · next b hc =>
      split at h
      · cases h
      · next o before stack =>
        split_ifs at h with hk
        exact .inr (.inr ⟨b, o, before, stack, hc, hk, rfl, h⟩)

/-- The brackets left open by tokens of these kinds, innermost first; `none` when one does not match. -/
def settle : List Bracket → List Kind → Option (List Bracket)
  | st, [] => some st
  | st, k :: ks =>
    match k.opens, k.closes, st with
    | some b, _, _ => settle (b :: st) ks
    | none, none, _ => settle st ks
    | none, some b, b' :: st => if b' = b then settle st ks else none
    | none, some _, [] => none

theorem settle_open {k : Kind} {b : Bracket} (h : k.opens = some b) (st : List Bracket) (ks : List Kind) :
    settle st (k :: ks) = settle (b :: st) ks := by
  simp only [settle, h]

theorem settle_other {k : Kind} (ho : k.opens = none) (hc : k.closes = none) (st : List Bracket) (ks : List Kind) :
    settle st (k :: ks) = settle st ks := by
  simp only [settle, ho, hc]

theorem settle_close {k : Kind} {b : Bracket} (h : k.closes = some b) (b' : Bracket) (st : List Bracket)
    (ks : List Kind) : settle (b' :: st) (k :: ks) = if b' = b then settle st ks else none := by
  simp only [settle, opens_eq_none h, h]

theorem settle_append (st : List Bracket) (ks ls : List Kind) :
    settle st (ks ++ ls) = (settle st ks).bind (settle · ls) := by
  fun_induction settle st ks <;> simp_all [settle]

/-- Grouping succeeds exactly when all brackets settle. -/
theorem exists_build_iff {stack : Stack} {st : List Bracket} (hst : stack.map (·.1.kind.opens) = st.map some)
    (done : List Group) (ts : List Token) :
    (∃ gs, build stack done ts = .ok gs) ↔ settle st (ts.map (·.kind)) = some [] := by
  induction ts generalizing stack st done with
  | nil =>
    rcases stack with _ | ⟨⟨o, before⟩, stack⟩ <;> rcases st with _ | ⟨b, st⟩ <;> simp [build, settle] at hst ⊢
  | cons t ts ih =>
    rw [build.eq_def, List.map_cons]
    simp only
    cases ho : t.kind.opens with
    | some b =>
      rw [if_pos Option.isSome_some, settle_open ho]
      exact ih (by simp [hst, ho]) _
    | none =>
      rw [if_neg (by simp)]
      cases hc : t.kind.closes with
      | none =>
        rw [settle_other ho hc]
        exact ih hst _
      | some b =>
        rcases stack with _ | ⟨⟨o, before⟩, stack⟩ <;> rcases st with _ | ⟨b', st⟩ <;>
          simp only [List.map_nil, List.map_cons, reduceCtorEq, List.cons.injEq] at hst
        · simp [settle, ho, hc]
        · rw [settle_close hc]
          simp only [hst.1, Option.some.injEq]
          split_ifs
          · exact ih hst.2 _
          · simp

theorem exists_ofTokens_iff {ts : List Token} :
    (∃ gs, ofTokens ts = .ok gs) ↔ settle [] (ts.map (·.kind)) = some [] :=
  exists_build_iff rfl [] ts

/-- Kinds whose brackets pair up among themselves. -/
def Neutral (ks : List Kind) : Prop := ∀ st, settle st ks = some st

/-- The brackets of each pair match, and both lie in a string or neither does. -/
inductive Coherent : Group → Prop where
  | leaf {t : Token} : t.kind.opens = none → t.kind.closes = none → Coherent (.leaf t)
  | pair {o c : Token} {b : Bracket} {body : List Group} : o.kind.opens = some b → c.kind.closes = some b →
      o.inString = c.inString → (∀ g ∈ body, Coherent g) → Coherent (.pair o body c)

theorem Neutral.append {ks ls : List Kind} (hk : Neutral ks) (hl : Neutral ls) : Neutral (ks ++ ls) := by
  intro st
  rw [settle_append, hk st]
  exact hl st

theorem neutral_tokensOf {gs : List Group} (h : ∀ g ∈ gs, Neutral (g.tokens.map (·.kind))) :
    Neutral ((tokensOf gs).map (·.kind)) := by
  induction gs with
  | nil => intro st; simp [settle]
  | cons g gs ih =>
    rw [List.forall_mem_cons] at h
    rw [tokensOf_cons, List.map_append]
    exact h.1.append (ih h.2)

theorem Coherent.neutral {g : Group} (h : g.Coherent) : Neutral (g.tokens.map (·.kind)) := by
  induction h with
  | leaf ho hc =>
    intro st
    rw [tokens_leaf, List.map_singleton, settle_other ho hc]
    rfl
  | @pair o c b body ho hc _ _ ih =>
    intro st
    rw [tokens_pair, List.map_cons, settle_open ho, List.map_append, settle_append, neutral_tokensOf ih]
    change settle (b :: st) [c.kind] = some st
    rw [settle_close hc, if_pos rfl]
    rfl

end Stencil.Token.Group
