import Stencil.Proofs.Reference.Plan

/-! The accesses after a root. An access is a member after `->`, `?->` or `::`, or an index. The plan takes as many of them
as follow one another, and what stands behind them decides what becomes of the reference: it is left alone before an
assignment, `++`, `--` or `??`, and before a call it is guarded without its last access. -/

namespace Stencil.Reference

open Token (Kind Group)

/-- What can follow `->`, `?->` or `::`: a name, a variable or a name computed in braces. -/
def IsMember : Group → Prop
  | .leaf t => t.kind = .ident ∨ t.kind = .var
  | .pair o _ _ => o.kind = .lbrace

/-- One access: a member or an index, with the trivia before and inside it. -/
inductive Access : List Group → Prop where
  | member {sep sep' : List Group} {op : Token} {g : Group} : (∀ g ∈ sep, g.isTrivia) → isAccessOp op.kind →
      (∀ g ∈ sep', g.isTrivia) → IsMember g → Access (sep ++ .leaf op :: (sep' ++ [g]))
  | index {sep body : List Group} {o c : Token} : (∀ g ∈ sep, g.isTrivia) → o.kind = .lbracket →
      Access (sep ++ [.pair o body c])

theorem triviaCount_append {sep : List Group} {g : Group} (hsep : ∀ g ∈ sep, g.isTrivia) (hg : g.isTrivia = false)
    (rest : List Group) : triviaCount (sep ++ g :: rest) = sep.length := by
  rw [triviaCount, List.takeWhile_append_of_pos hsep, List.takeWhile_cons, if_neg (by simp [hg]), List.append_nil]

theorem isTrivia_leaf {t : Token} {k : Kind} (hk : t.kind = k) (h : k ≠ .whitespace ∧ k ≠ .comment) :
    (Group.leaf t).isTrivia = false := by
  simp [Group.isTrivia, Token.isTrivia, hk, h]

theorem isTrivia_accessOp {op : Token} (h : isAccessOp op.kind) : (Group.leaf op).isTrivia = false := by
  simp only [isAccessOp, Bool.or_eq_true, beq_iff_eq] at h
  rcases h with (hk | hk) | hk <;> exact isTrivia_leaf hk (by decide)

theorem IsMember.isTrivia {g : Group} (h : IsMember g) : g.isTrivia = false := by
  cases g with
  | leaf t => rcases h with hk | hk <;> exact isTrivia_leaf hk (by decide)
  | pair => rfl

theorem Access.segment?_append {a : List Group} (h : Access a) (rest : List Group) :
    segment? (a ++ rest) = some a.length := by
  cases h with
  | @member sep sep' op g hsep hop hsep' hg =>
    have hcount := triviaCount_append hsep (isTrivia_accessOp hop) (sep' ++ g :: rest)
    have hcount' := triviaCount_append hsep' hg.isTrivia rest
    have hsplit : sep ++ .leaf op :: (sep' ++ [g]) ++ rest = sep ++ .leaf op :: (sep' ++ g :: rest) := by simp
    have hlength : (sep ++ .leaf op :: (sep' ++ [g])).length = sep.length + 1 + sep'.length + 1 := by
      simp only [List.length_append, List.length_cons, List.length_nil]
      omega
    rw [hsplit, hlength, segment?]
    simp only [hcount, List.drop_left, hop, if_true, hcount']
    cases g with
    | leaf t => exact if_pos hg
    | pair o body c => exact if_pos hg
  | @index sep body o c hsep ho =>
    have hcount := @triviaCount_append sep (.pair o body c) hsep rfl rest
    rw [List.append_assoc, List.singleton_append]
    simp [segment?, hcount, ho]

theorem Access.length_pos {a : List Group} (h : Access a) : 0 < a.length := by
  cases h <;> simp

/-- The accesses after a root are found one by one, up to what is no access. -/
theorem segments_eq {as : List (List Group)} (has : ∀ a ∈ as, Access a) {rest : List Group}
    (hrest : segment? rest = none) {fuel : Nat} (hfuel : as.length ≤ fuel) :
    segments fuel (as.flatten ++ rest) = as.map List.length := by
  induction as generalizing fuel with
  | nil =>
    cases fuel with
    | zero => rfl
    | succ fuel => simp [segments, hrest]
  | cons a as ih =>
    obtain ⟨ha, has⟩ := List.forall_mem_cons.1 has
    obtain ⟨fuel, rfl⟩ : ∃ n, fuel = n + 1 := Nat.exists_eq_add_of_le' (by simp at hfuel; omega)
    rw [List.flatten_cons, List.append_assoc, segments, ha.segment?_append]
    simp only [List.drop_left, List.map_cons]
    rw [ih has (by simpa using hfuel)]

theorem extent_map_length (as : List (List Group)) : extent (as.map List.length) = as.flatten.length := by
  rw [List.length_flatten, List.sum_eq_foldr]
  rfl

theorem length_le_flatten {as : List (List Group)} (has : ∀ a ∈ as, Access a) : as.length ≤ as.flatten.length := by
  induction as with
  | nil => simp
  | cons a as ih =>
    obtain ⟨ha, has⟩ := List.forall_mem_cons.1 has
    have := ih has
    have := ha.length_pos
    simp only [List.flatten_cons, List.length_append, List.length_cons]
    omega

theorem exists_access {gs : List Group} {n : Nat} (h : segment? gs = some n) :
    ∃ a rest, Access a ∧ gs = a ++ rest ∧ a.length = n := by
  have hsplit (gs : List Group) : gs = gs.takeWhile Group.isTrivia ++ gs.drop (triviaCount gs) := by
    conv_lhs => rw [← List.take_append_drop (triviaCount gs) gs]
    rw [triviaCount, ← List.prefix_iff_eq_take.1 (List.takeWhile_prefix _)]
  have htrivia (gs : List Group) : ∀ g ∈ gs.takeWhile Group.isTrivia, g.isTrivia := List.all_eq_true.1 List.all_takeWhile
  simp only [segment?] at h
  have hgs := hsplit gs
  split at h
  next op rest hop =>
    split_ifs at h with hacc
    -- the operator, then trivia, then the member
    have hmember {g : Group} {tail : List Group} (hg : rest.drop (triviaCount rest) = g :: tail) (hm : IsMember g)
        (hn : triviaCount gs + 1 + triviaCount rest + 1 = n) : ∃ a rest, Access a ∧ gs = a ++ rest ∧ a.length = n := by
      refine ⟨_, tail, .member (htrivia gs) hacc (htrivia rest) hm, ?_, ?_⟩
      · have hrest := hsplit rest
        rw [hg] at hrest
        rw [hop, hrest] at hgs
        simpa using hgs
      · rw [← hn, triviaCount, triviaCount]
        simp only [List.length_append, List.length_cons, List.length_nil]
        omega
    split at h
    next t tail ht =>
      rw [Option.ite_none_right_eq_some] at h
      exact hmember ht h.1 (Option.some.inj h.2)
    next o body c tail ht =>
      rw [Option.ite_none_right_eq_some] at h
      exact hmember ht h.1 (Option.some.inj h.2)
    next => cases h
  next o body c tail hpair =>
    rw [Option.ite_none_right_eq_some] at h
    rw [hpair] at hgs
    refine ⟨_, tail, .index (htrivia gs) h.1, by simpa using hgs, ?_⟩
    rw [← Option.some.inj h.2, triviaCount, List.length_append, List.length_singleton]
  next => cases h

/-- The accesses `as` come first in `after`, and `rest`, which starts with no access, comes behind them. -/
structure Accesses (after : List Group) (as : List (List Group)) (rest : List Group) : Prop where
  split : after = as.flatten ++ rest
  each : ∀ a ∈ as, Access a
  maximal : ∀ a rest', Access a → rest ≠ a ++ rest'

theorem segment?_eq_none {rest : List Group} : segment? rest = none ↔ ∀ a rest', Access a → rest ≠ a ++ rest' := by
  constructor
  · rintro h a rest' ha rfl
    rw [ha.segment?_append] at h
    cases h
  · intro h
    cases hn : segment? rest with
    | none => rfl
    | some n =>
      obtain ⟨a, rest', ha, hrest, -⟩ := exists_access hn
      exact absurd hrest (h a rest' ha)

theorem exists_accesses (after : List Group) : ∃ as rest, Accesses after as rest := by
  induction hlength : after.length using Nat.strong_induction_on generalizing after with
  | _ length ih =>
    cases hn : segment? after with
    | none => exact ⟨[], after, rfl, by simp, segment?_eq_none.1 hn⟩
    | some n =>
      obtain ⟨a, rest, ha, rfl, -⟩ := exists_access hn
      have hlt : rest.length < length := by
        have := ha.length_pos
        rw [List.length_append] at hlength
        omega
      obtain ⟨as, rest', h⟩ := ih _ hlt rest rfl
      refine ⟨a :: as, rest', ?_, List.forall_mem_cons.2 ⟨ha, h.each⟩, h.maximal⟩
      rw [h.split, List.flatten_cons, List.append_assoc]

/-- An assignment operator, `++`, `--` or `??` comes next. -/
def IsKept (rest : List Group) : Prop :=
  ∃ t, nextSignificant rest = some (.leaf t) ∧ (t.kind = .assign ∨ t.kind = .incDec ∨ t.kind = .coalesce)

def IsCall (rest : List Group) : Prop :=
  ∃ o body c, nextSignificant rest = some (.pair o body c) ∧ o.kind = .lparen

/-- The accesses that are guarded with the root: all of them, but for the last one before a call. -/
inductive Guards (as : List (List Group)) (rest : List Group) : List Group → Prop where
  | whole : ¬ IsCall rest → Guards as rest as.flatten
  | call : IsCall rest → Guards as rest as.dropLast.flatten

theorem Accesses.fate_eq {after rest : List Group} {as : List (List Group)} (h : Accesses after as rest) :
    (IsKept rest ∧ fate after = .kept as.flatten.length) ∨
      (¬ IsKept rest ∧ ∃ gs, Guards as rest gs ∧ gs <+: after ∧ fate after = .guarded gs.length) := by
  have hfuel : as.length ≤ after.length := by
    have := length_le_flatten h.each
    rw [h.split, List.length_append]
    omega
  have hsegments : segments after.length after = as.map List.length := by
    conv_lhs => rw [h.split]
    exact segments_eq h.each (segment?_eq_none.2 h.maximal) (h.split ▸ hfuel)
  have hdrop : after.drop as.flatten.length = rest := by rw [h.split, List.drop_left]
  have hwhole : as.flatten <+: after := ⟨rest, h.split.symm⟩
  have hcall : as.dropLast.flatten <+: after := by
    obtain ⟨bs, hbs⟩ := List.dropLast_prefix as
    exact .trans ⟨bs.flatten, by rw [← List.flatten_append, hbs]⟩ hwhole
  simp only [fate, hsegments, extent_map_length, ← List.map_dropLast, hdrop]
  cases hnext : nextSignificant rest with
  | none => exact .inr ⟨by simp [IsKept, hnext], _, .whole (by simp [IsCall, hnext]), hwhole, rfl⟩
  | some g =>
    cases g with
    | leaf t =>
      by_cases ht : t.kind = .assign ∨ t.kind = .incDec ∨ t.kind = .coalesce
      · exact .inl ⟨⟨t, hnext, ht⟩, if_pos ht⟩
      · exact .inr ⟨by simpa [IsKept, hnext] using ht, _, .whole (by simp [IsCall, hnext]), hwhole, if_neg ht⟩
    | pair o body c =>
      by_cases ho : o.kind = .lparen
      · exact .inr ⟨by simp [IsKept, hnext], _, .call ⟨o, body, c, hnext, ho⟩, hcall, if_pos ho⟩
      · exact .inr ⟨by simp [IsKept, hnext], _, .whole (by simpa [IsCall, hnext] using ho), hwhole, if_neg ho⟩

end Stencil.Reference
