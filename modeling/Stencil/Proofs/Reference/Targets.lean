import Stencil.Proofs.Reference.Guarded
import Stencil.Proofs.Reference.Places

/-! Assignment targets. A variable with whole accesses after it that an assignment operator follows is written as it
is: its accesses are found one by one up to the operator, and every token stands at one place only, so that no guarded
range starts with the variable. -/

namespace Stencil.Token

/-- Each token starts after the one before it, so none comes twice. -/
theorem Covers.nodup {pos : Nat} {s : Bytes} {ts : List Token} (h : Covers pos s ts) :
    (∀ t ∈ ts, pos ≤ t.offset) ∧ ts.Nodup := by
  induction ts generalizing pos s with
  | nil => simp
  | cons t ts ih =>
    obtain ⟨hne, rfl, rest, rfl, h⟩ := h
    obtain ⟨hle, hnodup⟩ := ih h
    have hpos := List.length_pos_iff.2 hne
    refine ⟨List.forall_mem_cons.2 ⟨le_rfl, fun u hu => ?_⟩, List.nodup_cons.2 ⟨fun ht => ?_, hnodup⟩⟩
    · have := hle u hu
      omega
    · have := hle t ht
      omega

end Stencil.Token

namespace Stencil.Reference

open Token (Kind Group)

namespace Stands

variable {g : Group} {t : Token} {after after' gs : List Group}

theorem exists_sits (h : Stands g after gs) : ∃ spot, Sits g spot gs ∧ spot.after = after := by
  induction h with
  | here => exact ⟨_, .here [] after, rfl⟩
  | @inside o c body gs _ ih =>
    obtain ⟨spot, hsits, rfl⟩ := ih
    exact ⟨_, .inside [] o c gs hsits, rfl⟩
  | later _ ih =>
    obtain ⟨spot, hsits, rfl⟩ := ih
    exact hsits.later

theorem unique (hnodup : (Group.tokensOf gs).Nodup) (h : Stands (.leaf t) after gs) (h' : Stands (.leaf t) after' gs) :
    after = after' := by
  obtain ⟨spot, hsits, rfl⟩ := h.exists_sits
  obtain ⟨spot', hsits', rfl⟩ := h'.exists_sits
  rw [hsits.unique hnodup hsits']

end Stands

/-- Whole accesses and then an assignment operator. -/
def IsAssigned (after : List Group) : Prop :=
  ∃ (as : List (List Group)) (sep rest : List Group) (op : Token), (∀ a ∈ as, Access a) ∧
    (∀ g ∈ sep, g.isTrivia) ∧ op.kind = .assign ∧ after = as.flatten ++ (sep ++ .leaf op :: rest)

theorem IsAssigned.fate_eq_kept {after : List Group} (h : IsAssigned after) : ∃ n, fate after = .kept n := by
  obtain ⟨as, sep, rest, op, has, hsep, hop, rfl⟩ := h
  have htrivia : (Group.leaf op).isTrivia = false := isTrivia_leaf hop (by decide)
  have hnone : segment? (sep ++ .leaf op :: rest) = none := by
    simp [segment?, triviaCount_append hsep htrivia, isAccessOp, hop]
  have hnext : nextSignificant (sep ++ .leaf op :: rest) = some (.leaf op) := by
    rw [nextSignificant, List.dropWhile_append_of_pos hsep, List.dropWhile_cons, if_neg (by simp [htrivia])]
    rfl
  have haccesses : Accesses _ as (sep ++ .leaf op :: rest) := ⟨rfl, has, segment?_eq_none.1 hnone⟩
  rcases haccesses.fate_eq with ⟨-, hkept⟩ | ⟨hfree, -⟩
  · exact ⟨_, hkept⟩
  · exact absurd ⟨op, hnext, .inl hop⟩ hfree

theorem fate_of_guarded {exempt : Bool} {p : Place} {skip : Nat} {gs : List Group} {root : Token} {us : List Token}
    (h : .guarded (root :: us) ∈ planFrom exempt p skip gs) :
    ∃ after n, Stands (.leaf root) after gs ∧ fate after = .guarded n := by
  obtain ⟨root', after, n, hstands, -, -, hf, hts⟩ := exists_root_of_guarded h
  obtain rfl := (List.cons.inj hts).1
  exact ⟨after, n, hstands, hf⟩

/-- Where variables are not handled one by one, no guarded range starts with a variable that is assigned to, be it by
itself or through accesses. -/
theorem assigned_not_guarded {guard : Bytes → Bytes} {handlers : Handlers} {src out : Bytes}
    (h : guardAll guard handlers src = .ok out) (hhandlers : handlesVariables handlers = false) :
    ∃ gs ps, (Token.tokenize src).bind Group.ofTokens = .ok gs ∧ plan false src = .ok ps ∧
      out = ps.flatMap (Piece.write guard handlers) ∧
      ∀ root after, Stands (.leaf root) after gs → IsAssigned after → ∀ us, Piece.guarded (root :: us) ∉ ps := by
  obtain ⟨ps, hplan, hout⟩ := guardAll_eq_ok.1 h
  rw [hhandlers] at hplan
  obtain ⟨ts, gs, hts, hgs, hps⟩ := plan_eq_ok.1 hplan
  have hnodup : (Group.tokensOf gs).Nodup := by
    rw [Group.ofTokens_tokens hgs]
    exact (Token.tokenize_covers hts).nodup.2
  refine ⟨gs, ps, by rw [hts]; exact hgs, hplan, hout, fun root after hstands hassigned us hmem => ?_⟩
  rw [hps] at hmem
  obtain ⟨after', n, hstands', hguarded⟩ := fate_of_guarded hmem
  obtain rfl := hstands.unique hnodup hstands'
  obtain ⟨m, hkept⟩ := hassigned.fate_eq_kept
  rw [hkept] at hguarded
  cases hguarded

/-- An item of a member is assigned to; its index is left alone with it, and what is assigned is guarded. -/
theorem assigned_not_guarded_item :
    ∃ gs ps after, (Token.tokenize "$a->b[$c] .= $d").bind Group.ofTokens = .ok gs ∧
      plan false "$a->b[$c] .= $d" = .ok ps ∧ Stands (.leaf ⟨.var, "$a", 0, false⟩) after gs ∧ IsAssigned after ∧
      guardAll defaultGuard [] "$a->b[$c] .= $d" = .ok "$a->b[$c] .= (isset($d) ? $d : '')" ∧
      ∀ us, Piece.guarded (⟨.var, "$a", 0, false⟩ :: us) ∉ ps := by
  have h : guardAll defaultGuard [] "$a->b[$c] .= $d" = .ok "$a->b[$c] .= (isset($d) ? $d : '')" := by cbv
  have hread : (Token.tokenize "$a->b[$c] .= $d").bind Group.ofTokens =
      .ok [.leaf ⟨.var, "$a", 0, false⟩, .leaf ⟨.objectOp, "->", 2, false⟩, .leaf ⟨.ident, "b", 4, false⟩,
        .pair ⟨.lbracket, "[", 5, false⟩ [.leaf ⟨.var, "$c", 6, false⟩] ⟨.rbracket, "]", 8, false⟩,
        .leaf ⟨.whitespace, " ", 9, false⟩, .leaf ⟨.assign, ".=", 10, false⟩, .leaf ⟨.whitespace, " ", 12, false⟩,
        .leaf ⟨.var, "$d", 13, false⟩] := rfl
  have hmember : Access [.leaf ⟨.objectOp, "->", 2, false⟩, .leaf ⟨.ident, "b", 4, false⟩] :=
    @Access.member [] [] _ _ (by simp) rfl (by simp) (.inl rfl)
  have hindex : Access [.pair ⟨.lbracket, "[", 5, false⟩ [.leaf ⟨.var, "$c", 6, false⟩] ⟨.rbracket, "]", 8, false⟩] :=
    @Access.index [] _ _ _ (by simp) rfl
  have hassigned : IsAssigned [.leaf ⟨.objectOp, "->", 2, false⟩, .leaf ⟨.ident, "b", 4, false⟩,
      .pair ⟨.lbracket, "[", 5, false⟩ [.leaf ⟨.var, "$c", 6, false⟩] ⟨.rbracket, "]", 8, false⟩,
      .leaf ⟨.whitespace, " ", 9, false⟩, .leaf ⟨.assign, ".=", 10, false⟩, .leaf ⟨.whitespace, " ", 12, false⟩,
      .leaf ⟨.var, "$d", 13, false⟩] :=
    ⟨[_, _], [.leaf ⟨.whitespace, " ", 9, false⟩], _, ⟨.assign, ".=", 10, false⟩,
      List.forall_mem_cons.mpr ⟨hmember, List.forall_mem_singleton.mpr hindex⟩, List.forall_mem_singleton.mpr rfl, rfl, rfl⟩
  obtain ⟨gs, ps, hgs, hplan, -, hall⟩ := assigned_not_guarded h rfl
  obtain rfl := Except.ok.inj (hgs.symm.trans hread)
  exact ⟨_, ps, _, hread, hplan, .here, hassigned, h, hall _ _ .here hassigned⟩

/-- A variable in an array that is taken apart is an assignment target and guarded all the same. -/
theorem destructured_guarded :
    ∃ (o root c blank op : Token) (gs : List Group) (ps : List Piece),
      (Token.tokenize "[$a] = $b").bind Group.ofTokens =
        .ok (.pair o [.leaf root] c :: .leaf blank :: .leaf op :: gs) ∧
      o.kind = .lbracket ∧ root.kind = .var ∧ blank.isTrivia ∧ op.kind = .assign ∧ op.text = "=" ∧
      plan false "[$a] = $b" = .ok (.plain o :: .guarded [root] :: ps) ∧
      guardAll defaultGuard [] "[$a] = $b" = .ok "[(isset($a) ? $a : '')] = (isset($b) ? $b : '')" := by
  have hread : (Token.tokenize "[$a] = $b").bind Group.ofTokens =
      .ok [.pair ⟨.lbracket, "[", 0, false⟩ [.leaf ⟨.var, "$a", 1, false⟩] ⟨.rbracket, "]", 3, false⟩,
        .leaf ⟨.whitespace, " ", 4, false⟩, .leaf ⟨.assign, "=", 5, false⟩, .leaf ⟨.whitespace, " ", 6, false⟩,
        .leaf ⟨.var, "$b", 7, false⟩] := rfl
  have hplan : plan false "[$a] = $b" =
      .ok [.plain ⟨.lbracket, "[", 0, false⟩, .guarded [⟨.var, "$a", 1, false⟩], .plain ⟨.rbracket, "]", 3, false⟩,
        .plain ⟨.whitespace, " ", 4, false⟩, .plain ⟨.assign, "=", 5, false⟩, .plain ⟨.whitespace, " ", 6, false⟩,
        .guarded [⟨.var, "$b", 7, false⟩]] := by cbv
  have hout : guardAll defaultGuard [] "[$a] = $b" = .ok "[(isset($a) ? $a : '')] = (isset($b) ? $b : '')" := by cbv
  exact ⟨_, _, _, _, _, _, _, hread, rfl, rfl, rfl, rfl, rfl, hplan, hout⟩

end Stencil.Reference
