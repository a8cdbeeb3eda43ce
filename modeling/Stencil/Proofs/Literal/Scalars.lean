import Stencil.Proofs.Literal.Grammar
import Stencil.Proofs.Reference.Plan

/-! Sources of scalars. A source that denotes a constant other than an array has no bracket and no variable, so its
plan is there and guards nothing. -/

namespace Stencil

namespace Token

/-- A token that is no bracket and no variable. -/
structure Lone (t : Token) : Prop where
  opens : t.kind.opens = none
  closes : t.kind.closes = none
  var : t.kind ≠ .var

theorem Lone.of_kind {t : Token} {k : Kind} (h : t.kind = k)
    (hk : k ∈ ([.string, .number, .operator, .ident, .whitespace, .comment] : List Kind)) : t.Lone := by
  subst h
  simp only [List.mem_cons, List.not_mem_nil, or_false] at hk
  rcases hk with h | h | h | h | h | h <;> exact ⟨by rw [h]; rfl, by rw [h]; rfl, by rw [h]; decide⟩

theorem Lone.of_trivia {t : Token} (h : t.isTrivia) : t.Lone := by
  simp only [isTrivia, Bool.or_eq_true, beq_iff_eq] at h
  rcases h with h | h
  · exact .of_kind h (by decide)
  · exact .of_kind h (by decide)

theorem Group.build_lone {ts : List Token} (h : ∀ t ∈ ts, t.Lone) (done : List Group) :
    build [] done ts = .ok (done.reverse ++ ts.map .leaf) := by
  induction ts generalizing done with
  | nil =>
    rw [build, List.map_nil, List.append_nil]
  | cons t ts ih =>
    obtain ⟨ht, hts⟩ := List.forall_mem_cons.mp h
    rw [build_leaf ht.opens ht.closes, ih hts, List.reverse_cons, List.map_cons, List.append_assoc, List.singleton_append]

end Token

namespace Literal

/-- What is no array is written without brackets. -/
theorem Forms.kinds {v : Value} {ps : List (Token.Kind × Bytes)} (h : Forms (.literal v) ps) (hv : v.isScalar) :
    ∀ p ∈ ps, p.1 ∈ ([.string, .number, .operator, .ident] : List Token.Kind) := by
  cases h with
  | brackets => cases hv
  | array => cases hv
  | _ => simp

theorem lone_of_evaluate {src : Bytes} {v : Value} (h : evaluate src = some v) (hv : v.isScalar) :
    ∃ ts, Token.tokenize src = .ok ts ∧ ∀ t ∈ ts, t.Lone := by
  obtain ⟨ts, hts, hforms⟩ := evaluate_eq_some_iff.mp h
  refine ⟨ts, hts, fun t ht => ?_⟩
  cases htrivia : t.isTrivia with
  | true => exact .of_trivia htrivia
  | false =>
    have hmem : t.piece ∈ significant (ts.map Token.piece) :=
      List.mem_filter.mpr ⟨List.mem_map_of_mem ht, by simpa [Token.isTrivia, Token.piece] using htrivia⟩
    have hall : ∀ k ∈ ([.string, .number, .operator, .ident] : List Token.Kind),
        k ∈ ([.string, .number, .operator, .ident, .whitespace, .comment] : List Token.Kind) := by decide
    exact .of_kind rfl (hall _ (hforms.kinds hv _ hmem))

end Literal

namespace Reference

theorem planFrom_lone {ts : List Token} (h : ∀ t ∈ ts, t.Lone) (exempt : Bool) (p : Place) :
    planFrom exempt p 0 (ts.map .leaf) = ts.map .plain := by
  induction ts generalizing p with
  | nil => rw [List.map_nil, List.map_nil, planFrom]
  | cons t ts ih =>
    obtain ⟨ht, hts⟩ := List.forall_mem_cons.mp h
    have hroot : isRoot p t = false := by simp [isRoot, ht.var]
    rw [List.map_cons, planFrom, if_neg (by simp [hroot]), ih hts, List.map_cons]

end Reference

end Stencil
