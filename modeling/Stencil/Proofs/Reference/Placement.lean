import Stencil.Proofs.Reference.Targets

/-! Which ranges a plan guards. Every guarded range is a root that may be guarded where it stands with all its accesses,
but for the last one before a call, and every variable outside of the guarded ranges is left alone for a reason: it is
exempt where it stands, or its reference is assigned to, counted or an operand of `??`. -/

namespace Stencil.Reference

open Token (Kind Group)

/-- The variable stands there and may be guarded. -/
structure IsRootAt (reads : Reading) (root : Token) (spot : Spot) (gs : List Group) : Prop where
  sits : Sits (.leaf root) spot gs
  kind : root.kind = .var
  free : ¬ Exempt reads root spot

/-- The range to guard for a root: all accesses go with it, but for the last one before a call. -/
def IsRange (root : Token) (after : List Group) (ts : List Token) : Prop :=
  ∃ as rest gs, Accesses after as rest ∧ ¬ IsKept rest ∧ Guards as rest gs ∧ ts = root :: Group.tokensOf gs

/-- The reference of a root that is left alone for what follows it. -/
def IsKeptRange (root : Token) (after : List Group) (ts : List Token) : Prop :=
  ∃ as rest, Accesses after as rest ∧ IsKept rest ∧ ts = root :: Group.tokensOf as.flatten

theorem isRange_of_fate {root : Token} {after : List Group} {n : Nat} (h : fate after = .guarded n) :
    IsRange root after (root :: Group.tokensOf (after.take n)) := by
  obtain ⟨as, rest, has⟩ := exists_accesses after
  rcases has.fate_eq with ⟨-, hkept⟩ | ⟨hfree, gs, hguards, hprefix, hguarded⟩
  · rw [h] at hkept
    cases hkept
  · obtain rfl := Fate.guarded.inj (h.symm.trans hguarded)
    rw [← List.prefix_iff_eq_take.1 hprefix]
    exact ⟨as, rest, gs, has, hfree, hguards, rfl⟩

theorem isKeptRange_of_fate {root : Token} {after : List Group} {n : Nat} (h : fate after = .kept n) :
    IsKeptRange root after (root :: Group.tokensOf (after.take n)) := by
  obtain ⟨as, rest, has⟩ := exists_accesses after
  rcases has.fate_eq with ⟨hrest, hkept⟩ | ⟨-, gs, -, -, hguarded⟩
  · obtain rfl := Fate.kept.inj (h.symm.trans hkept)
    conv in after.take _ => rw [has.split, List.take_left]
    exact ⟨as, rest, has, hrest, rfl⟩
  · rw [h] at hguarded
    cases hguarded

theorem isRoot_reach (pre after : List Group) {t : Token} :
    isRoot (reach (back pre)) t ↔ t.kind = .var ∧ ¬ Exempt folded t ⟨pre, after, []⟩ := by
  rw [Exempt, ← afterAccess_reach fun _ => isTrivia_of_mem_back, isRoot]
  simp [and_assoc]

theorem exempt_within {reads : Reading} {t : Token} {spot : Spot} {e : Enclosure} :
    Exempt reads t (spot.within e) ↔ NamesOnly reads e ∨ Exempt reads t spot := by
  simp only [Exempt, Spot.within, List.exists_mem_cons_iff, or_left_comm (a := NamesOnly reads e)]

theorem IsRootAt.inside {reads : Reading} {root o c : Token} {spot : Spot} {pre body gs : List Group}
    (h : IsRootAt reads root spot body) (hfree : ¬ NamesOnly reads ⟨pre, o⟩) :
    IsRootAt reads root (spot.within ⟨pre, o⟩) (pre ++ .pair o body c :: gs) :=
  ⟨.inside pre o c gs h.sits, h.kind, by rw [exempt_within]; exact not_or.2 ⟨hfree, h.free⟩⟩

/-- The groups of `pre` come before the ones that are planned. A guarded range is the range of a root that may be
guarded where it stands among them all. -/
theorem isRange_of_guarded {exempt : Bool} {p : Place} {skip : Nat} (pre : List Group) {gs : List Group}
    {ts : List Token} (hp : p = reach (back pre)) (h : .guarded ts ∈ planFrom exempt p skip gs) :
    exempt = false ∧ ∃ root spot, IsRootAt folded root spot (pre ++ gs) ∧ IsRange root spot.after ts := by
  fun_induction planFrom exempt p skip gs generalizing pre with
  | case1 => cases h
  | case2 exempt p skip g gs ih =>
    have := ih (pre ++ [g]) (by rw [hp, after_reach]) h
    rwa [List.append_assoc] at this
  | case3 exempt p o body c gs =>
    rename_i ihb ihg
    simp only [List.mem_cons, List.mem_append, reduceCtorEq, false_or] at h
    rcases h with h | h
    · obtain ⟨hexempt, root, spot, hroot, hrange⟩ := ihb [] rfl h
      rw [Bool.or_eq_false_iff, hp, ← Bool.not_eq_true (Place.exempts _ o), exempts_reach] at hexempt
      exact ⟨hexempt.1, root, _, hroot.inside hexempt.2, hrange⟩
    · have := ihg (pre ++ [.pair o body c]) (by rw [hp, ← after_reach]; rfl) h
      rwa [List.append_assoc] at this
  | case4 exempt p t gs hr n hf ih =>
    simp only [List.mem_append, List.mem_map, reduceCtorEq, and_false, exists_false, false_or] at h
    have := ih (pre ++ [.leaf t]) (by rw [hp, after_reach]) h
    rwa [List.append_assoc] at this
  | case5 exempt p t gs hr n hf ih =>
    simp only [List.mem_cons, Piece.guarded.injEq] at h
    rcases h with rfl | h
    · rw [Bool.and_eq_true, Bool.not_eq_true', hp, isRoot_reach pre gs] at hr
      exact ⟨hr.1, t, ⟨pre, gs, []⟩, ⟨.here pre gs, hr.2.1, hr.2.2⟩, isRange_of_fate hf⟩
    · have := ih (pre ++ [.leaf t]) (by rw [hp, after_reach]) h
      rwa [List.append_assoc] at this
  | case6 exempt p t gs hr ih =>
    simp only [List.mem_cons, reduceCtorEq, false_or] at h
    have := ih (pre ++ [.leaf t]) (by rw [hp, after_reach]) h
    rwa [List.append_assoc] at this

theorem var_of_mem_pair {o c t : Token} {body : List Group} (hco : (Group.pair o body c).Coherent) (hk : t.kind = .var)
    (ht : t ∈ (Group.pair o body c).tokens) : t ∈ Group.tokensOf body := by
  cases hco with
  | pair ho hc =>
    rw [Group.tokens_pair, List.mem_cons, List.mem_append, List.mem_singleton] at ht
    rcases ht with rfl | ht | rfl
    · rw [hk] at ho
      cases ho
    · exact ht
    · rw [hk] at hc
      cases hc

/-- Why a variable of a list of groups is where it is in a plan: in a guarded range, exempt or inside exempt groups, or in
a reference that is left alone. -/
def Explained (exempt : Bool) (t : Token) (gs : List Group) (ps : List Piece) : Prop :=
  (∃ ts, .guarded ts ∈ ps ∧ t ∈ ts) ∨
    (∃ spot, Sits (.leaf t) spot gs ∧ (exempt ∨ Exempt folded t spot)) ∨
    exempt = false ∧ ∃ root spot ts, IsRootAt folded root spot gs ∧ IsKeptRange root spot.after ts ∧ t ∈ ts

theorem Explained.mono {exempt : Bool} {t : Token} {gs : List Group} {ps qs : List Piece}
    (h : Explained exempt t gs ps) (hsub : ps ⊆ qs) : Explained exempt t gs qs :=
  h.imp_left fun ⟨ts, hts, ht⟩ => ⟨ts, hsub hts, ht⟩

theorem Explained.inside {exempt : Bool} {t o c : Token} {pre body gs : List Group} {ps : List Piece}
    (h : Explained (exempt || (reach (back pre)).exempts o) t body ps) :
    Explained exempt t (pre ++ .pair o body c :: gs) ps := by
  rcases h with h | ⟨spot, hsits, h⟩ | ⟨hexempt, root, spot, ts, hroot, hkept, ht⟩
  · exact .inl h
  · rw [Bool.or_eq_true, exempts_reach, or_assoc, ← exempt_within] at h
    exact .inr (.inl ⟨_, .inside pre o c gs hsits, h⟩)
  · rw [Bool.or_eq_false_iff, ← Bool.not_eq_true (Place.exempts _ o), exempts_reach] at hexempt
    exact .inr (.inr ⟨hexempt.1, root, _, ts, hroot.inside hexempt.2, hkept, ht⟩)

theorem mem_tokensOf_leaf {root t : Token} {gs : List Group} (n : Nat) (h : t ∈ Group.tokensOf (.leaf root :: gs)) :
    t ∈ root :: Group.tokensOf (gs.take n) ∨ t ∈ Group.tokensOf (gs.drop n) := by
  rwa [Group.tokensOf_cons, Group.tokens_leaf, ← List.take_append_drop n gs, Group.tokensOf_append, ← List.append_assoc,
    List.mem_append] at h

/-- Every variable among the groups that are planned is accounted for. -/
theorem explained_planFrom {exempt : Bool} {p : Place} {skip : Nat} (pre : List Group) {gs : List Group}
    (hp : p = reach (back pre)) (hco : ∀ g ∈ gs, g.Coherent) {t : Token} (ht : t ∈ Group.tokensOf (gs.drop skip))
    (hk : t.kind = .var) :
    Explained exempt t (pre ++ gs) (planFrom exempt p skip gs) := by
  fun_induction planFrom exempt p skip gs generalizing pre with
  | case1 => simp at ht
  | case2 exempt p skip g gs ih =>
    have := ih (pre ++ [g]) (by rw [hp, after_reach]) (List.forall_mem_cons.1 hco).2 ht
    rwa [List.append_assoc] at this
  | case3 exempt p o body c gs =>
    rename_i inner ihb ihg
    subst hp
    obtain ⟨hpair, hco⟩ := List.forall_mem_cons.1 hco
    rw [List.drop_zero, Group.tokensOf_cons, List.mem_append] at ht
    rcases ht with ht | ht
    · have hbody : ∀ g ∈ body, g.Coherent := by
        cases hpair with
        | pair _ _ _ hbody => exact hbody
      have := ihb [] rfl hbody (by simpa using var_of_mem_pair hpair hk ht)
      exact this.inside.mono fun q hq => by simp [inner, hq]
    · have := ihg (pre ++ [.pair o body c]) (by rw [← after_reach]; rfl) hco ht
      rw [List.append_assoc] at this
      exact this.mono fun q hq => by simp [hq]
  | case4 exempt p root gs hr n hf ih =>
    rcases mem_tokensOf_leaf n ht with ht | ht
    · rw [Bool.and_eq_true, Bool.not_eq_true', hp, isRoot_reach pre gs] at hr
      exact .inr (.inr ⟨hr.1, root, ⟨pre, gs, []⟩, _, ⟨.here pre gs, hr.2.1, hr.2.2⟩, isKeptRange_of_fate hf, ht⟩)
    · have := ih (pre ++ [.leaf root]) (by rw [hp, after_reach]) (List.forall_mem_cons.1 hco).2 ht
      rw [List.append_assoc] at this
      exact this.mono (by simp)
  | case5 exempt p root gs hr n hf ih =>
    rcases mem_tokensOf_leaf n ht with ht | ht
    · exact .inl ⟨_, List.mem_cons_self, ht⟩
    · have := ih (pre ++ [.leaf root]) (by rw [hp, after_reach]) (List.forall_mem_cons.1 hco).2 ht
      rw [List.append_assoc] at this
      exact this.mono (by simp)
  | case6 exempt p root gs hr ih =>
    rw [List.drop_zero, Group.tokensOf_cons, Group.tokens_leaf, List.singleton_append, List.mem_cons] at ht
    rcases ht with rfl | ht
    · refine .inr (.inl ⟨⟨pre, gs, []⟩, .here pre gs, ?_⟩)
      rw [Bool.and_eq_true, Bool.not_eq_true', hp, isRoot_reach pre gs] at hr
      by_contra hnot
      rw [not_or, Bool.not_eq_true] at hnot
      exact hr ⟨hnot.1, hk, hnot.2⟩
    · have := ih (pre ++ [.leaf root]) (by rw [hp, after_reach]) (List.forall_mem_cons.1 hco).2 ht
      rw [List.append_assoc] at this
      exact this.mono (by simp)

/-- Every guarded range is the range of a root that may be guarded where it stands, and ends with code. -/
def Sound (gs : List Group) (ps : List Piece) : Prop :=
  ∀ ts, .guarded ts ∈ ps → ∃ root spot, IsRootAt anyCase root spot gs ∧ IsRange root spot.after ts ∧
    ∀ t ∈ ts.getLast?, t.isTrivia = false

/-- Every variable is in a guarded range, exempt where it stands, or in a reference that is left alone for what follows
it. -/
def Complete (gs : List Group) (ps : List Piece) : Prop :=
  ∀ t ∈ Group.tokensOf gs, t.kind = .var →
    (∃ ts, .guarded ts ∈ ps ∧ t ∈ ts) ∨
      (∃ spot, Sits (.leaf t) spot gs ∧ Exempt anyCase t spot) ∨
      ∃ root spot ts, IsRootAt anyCase root spot gs ∧ IsKeptRange root spot.after ts ∧ t ∈ ts

theorem IsRootAt.spelled {root : Token} {spot : Spot} {gs : List Group} (h : IsRootAt folded root spot gs) :
    IsRootAt anyCase root spot gs :=
  ⟨h.sits, h.kind, fun hexempt => h.free hexempt.read⟩

/-- Where variables are not handled one by one, each token of a source stands at one place, the guarded ranges are all
ranges of roots that may be guarded, and unless a word is misread, every variable outside of them is left alone for a
reason. -/
theorem guardAll_placement {guard : Bytes → Bytes} {handlers : Handlers} {src out : Bytes}
    (h : guardAll guard handlers src = .ok out) (hhandlers : handlesVariables handlers = false) :
    ∃ gs ps, Token.tokenize src = .ok (Group.tokensOf gs) ∧ Group.ofTokens (Group.tokensOf gs) = .ok gs ∧
      plan false src = .ok ps ∧ out = ps.flatMap (Piece.write guard handlers) ∧
      ps.flatMap Piece.tokens = Group.tokensOf gs ∧
      (∀ t spot spot', Sits (.leaf t) spot gs → Sits (.leaf t) spot' gs → spot = spot') ∧
      Sound gs ps ∧ ((∀ t ∈ Group.tokensOf gs, ¬ Misread t.text) → Complete gs ps) := by
  obtain ⟨ps, hplan, hout⟩ := guardAll_eq_ok.1 h
  rw [hhandlers] at hplan
  obtain ⟨ts, gs, hts, hgs, hps⟩ := plan_eq_ok.1 hplan
  obtain rfl := Group.ofTokens_tokens hgs
  have hco := Token.ofTokens_coherent hts hgs
  have hnodup := (Token.tokenize_covers hts).nodup.2
  have htokens : ps.flatMap Piece.tokens = Group.tokensOf gs := by rw [hps, planFrom_tokens, List.drop_zero]
  refine ⟨gs, ps, hts, hgs, hplan, hout, htokens, fun t _ _ => Sits.unique hnodup, fun ts hmem => ?_,
    fun hplain t ht hk => ?_⟩
  · rw [hps] at hmem
    obtain ⟨-, root, spot, hroot, hrange⟩ := isRange_of_guarded [] rfl hmem
    exact ⟨root, spot, hroot.spelled, hrange, (isReference_of_guarded hco hmem).last⟩
  · have hexplained : Explained false t gs (planFrom false .start 0 gs) := explained_planFrom [] rfl hco ht hk
    subst hps
    rcases hexplained with hguarded | ⟨spot, hsits, hexempt⟩ | ⟨-, root, spot, ts, hroot, hkept, ht⟩
    · exact .inl hguarded
    · rw [Bool.false_eq_true, false_or] at hexempt
      exact .inr (.inl ⟨spot, hsits, hexempt.spelled hsits hplain⟩)
    · exact .inr (.inr ⟨root, spot, ts, hroot.spelled, hkept, ht⟩)

theorem not_misread_of_tokenize {src : Bytes} {ts : List Token} (hts : Token.tokenize src = .ok ts)
    (hsrc : ∀ c ∈ src, c < 0x80) : ∀ t ∈ ts, ¬ Misread t.text := by
  refine fun t ht => not_misread fun c hc => hsrc c ?_
  rw [← (Token.tokenize_covers hts).flatMap_text]
  exact List.mem_flatMap.2 ⟨t, ht, hc⟩

/-- The index before a call is left out and the variable in it guarded by itself; the parameter, the argument of `isset`,
the operand of `??` and `$this` are left alone. -/
theorem guardAll_placement_call :
    ∃ gs ps, Token.tokenize "fn($a) => $a->b[$c]($d) . isset($e) . $f->g ?? $this" = .ok (Group.tokensOf gs) ∧
      plan false "fn($a) => $a->b[$c]($d) . isset($e) . $f->g ?? $this" = .ok ps ∧
      guardAll (fun ref => "<" ++ ref ++ ">") [] "fn($a) => $a->b[$c]($d) . isset($e) . $f->g ?? $this" =
        .ok "fn($a) => <$a->b>[<$c>](<$d>) . isset($e) . $f->g ?? $this" ∧
      Sound gs ps ∧ Complete gs ps := by
  have h : guardAll (fun ref => "<" ++ ref ++ ">") [] "fn($a) => $a->b[$c]($d) . isset($e) . $f->g ?? $this" =
      .ok "fn($a) => <$a->b>[<$c>](<$d>) . isset($e) . $f->g ?? $this" := by cbv
  obtain ⟨gs, ps, hts, -, hplan, -, -, -, hsound, hcomplete⟩ := guardAll_placement h rfl
  exact ⟨gs, ps, hts, hplan, h, hsound, hcomplete (not_misread_of_tokenize hts (by decide +kernel))⟩

/-- A function whose name starts with a dotted capital i is read as `isset`, so its argument is not guarded. -/
theorem dotted_isset_not_complete :
    ∃ gs ps, Token.tokenize "İsset($x)" = .ok (Group.tokensOf gs) ∧ Group.ofTokens (Group.tokensOf gs) = .ok gs ∧
      plan false "İsset($x)" = .ok ps ∧ guardAll defaultGuard [] "İsset($x)" = .ok "İsset($x)" ∧ ¬ Complete gs ps := by
  let word : Token := ⟨.ident, "İsset", 0, false⟩
  let o : Token := ⟨.lparen, "(", 6, false⟩
  let root : Token := ⟨.var, "$x", 7, false⟩
  let c : Token := ⟨.rparen, ")", 9, false⟩
  refine ⟨[.leaf word, .pair o [.leaf root] c], [.plain word, .plain o, .plain root, .plain c], rfl, rfl, by cbv,
    by cbv, fun hcomplete => ?_⟩
  have hspot {spot : Spot} (h : Sits (.leaf root) spot [.leaf word, .pair o [.leaf root] c]) :
      spot = ⟨[], [], [⟨[.leaf word], o⟩]⟩ :=
    h.unique (by decide) (.inside [.leaf word] o c [] (.here [] []))
  rcases hcomplete root (by decide) rfl with ⟨ts, hts, -⟩ | ⟨spot, hsits, hexempt⟩ | ⟨root', spot, ts, hroot, hkept, -⟩
  · simp at hts
  · obtain rfl := hspot hsits
    have hword (words : List Bytes) (hwords : words ⊆ placeWords) : ¬ AfterWord anyCase words [.leaf word] := by
      rintro ⟨-, -, ⟨w, hw, hread⟩, -⟩
      have hall : ∀ w ∈ placeWords, ¬ anyCase w word.text := by decide
      exact hall w (hwords hw) hread
    obtain hin | hthis | hmark | ⟨e, he, -, hnames⟩ := hexempt
    · cases hin
    · exact absurd hthis (by decide)
    · cases hmark
    · obtain rfl := List.mem_singleton.1 he
      rcases hnames with (h | ⟨hk, -⟩) | ⟨-, h⟩ | h
      · exact hword functionWords (by decide) h
      · cases hk
      · cases h
      · exact hword argumentWords (by decide) h
  · obtain rfl : root' = root := by
      have hvar : ∀ t ∈ [word, o, root, c], t.kind = .var → t = root := by decide
      exact hvar root' hroot.sits.mem hroot.kind
    obtain rfl := hspot hroot.sits
    obtain ⟨as, rest, has, ⟨t, hnext, -⟩, -⟩ := hkept
    obtain rfl : rest = [] := (List.append_eq_nil_iff.1 has.split.symm).2
    cases hnext

end Stencil.Reference
