import Mathlib
import Stencil.Proofs.Token.Grouping
import Stencil.Proofs.Token.Partition
import Stencil.Reference

/-! A plan lists every token of the source once and in order, so writing it out replaces the guarded token
ranges and changes nothing else. -/

namespace Stencil.Reference

open Token (Group)

theorem flatMap_plain (ts : List Token) : (ts.map Piece.plain).flatMap Piece.tokens = ts := by
  simp [List.flatMap_map, Piece.tokens]

theorem planFrom_tokens (exempt : Bool) (p : Place) (skip : Nat) (gs : List Group) :
    (planFrom exempt p skip gs).flatMap Piece.tokens = Group.tokensOf (gs.drop skip) := by
  fun_induction planFrom exempt p skip gs with
  | case1 => simp
  | case2 exempt p skip g gs ih => simpa using ih
  | case3 exempt p o body c gs inner ihb ihg =>
    simp only [List.drop_zero] at ihb ihg
    simp [inner, Piece.tokens, ihb, ihg]
  | case4 exempt p t gs hr n hf ih =>
    rw [List.flatMap_append, flatMap_plain, ih, List.drop_zero, Group.tokensOf_cons, Group.tokens_leaf,
      List.cons_append, ← Group.tokensOf_append, List.take_append_drop, List.singleton_append]
  | case5 exempt p t gs hr n hf ih =>
    rw [List.flatMap_cons, ih, Piece.tokens, List.drop_zero, Group.tokensOf_cons, Group.tokens_leaf,
      List.cons_append, ← Group.tokensOf_append, List.take_append_drop, List.singleton_append]
  | case6 exempt p t gs hr ih => simpa [Piece.tokens] using ih

/-- The group `g` stands among the groups or inside one of them, with `after` behind it between the same brackets. -/
inductive Stands (g : Group) (after : List Group) : List Group → Prop where
  | here : Stands g after (g :: after)
  | inside {o c : Token} {body gs : List Group} : Stands g after body → Stands g after (.pair o body c :: gs)
  | later {h : Group} {gs : List Group} : Stands g after gs → Stands g after (h :: gs)

/-- A guarded range is a variable outside of strings with as many of the groups behind it as its fate takes. -/
theorem exists_root_of_guarded {exempt : Bool} {p : Place} {skip : Nat} {gs : List Group} {ts : List Token}
    (h : .guarded ts ∈ planFrom exempt p skip gs) :
    ∃ root after n, Stands (.leaf root) after gs ∧ root.kind = .var ∧ root.inString = false ∧
      fate after = .guarded n ∧ ts = root :: Group.tokensOf (after.take n) := by
  fun_induction planFrom exempt p skip gs with
  | case1 => simp at h
  | case2 exempt p skip g gs ih =>
    obtain ⟨root, after, n, hstands, hroot⟩ := ih h
    exact ⟨root, after, n, .later hstands, hroot⟩
  | case3 exempt p o body c gs inner ihb ihg =>
    simp only [List.mem_cons, List.mem_append, reduceCtorEq, false_or] at h
    rcases h with h | h
    · obtain ⟨root, after, n, hstands, hroot⟩ := ihb h
      exact ⟨root, after, n, .inside hstands, hroot⟩
    · obtain ⟨root, after, n, hstands, hroot⟩ := ihg h
      exact ⟨root, after, n, .later hstands, hroot⟩
  | case4 exempt p t gs hr n hf ih =>
    simp only [List.mem_append, List.mem_map, reduceCtorEq, and_false, exists_false, false_or] at h
    obtain ⟨root, after, n, hstands, hroot⟩ := ih h
    exact ⟨root, after, n, .later hstands, hroot⟩
  | case5 exempt p t gs hr n hf ih =>
    simp only [List.mem_cons, Piece.guarded.injEq] at h
    rcases h with rfl | h
    · simp only [isRoot, Bool.and_eq_true, Bool.not_eq_true', beq_iff_eq] at hr
      exact ⟨t, gs, n, .here, hr.2.1.1.1, hr.2.1.1.2, hf, rfl⟩
    · obtain ⟨root, after, n, hstands, hroot⟩ := ih h
      exact ⟨root, after, n, .later hstands, hroot⟩
  | case6 exempt p t gs hr ih =>
    simp only [List.mem_cons, reduceCtorEq, false_or] at h
    obtain ⟨root, after, n, hstands, hroot⟩ := ih h
    exact ⟨root, after, n, .later hstands, hroot⟩

theorem guarded_ne_nil {exempt : Bool} {p : Place} {skip : Nat} {gs : List Group} {ts : List Token}
    (h : .guarded ts ∈ planFrom exempt p skip gs) : ts ≠ [] := by
  obtain ⟨root, after, n, -, -, -, -, rfl⟩ := exists_root_of_guarded h
  simp

/-- The ranges of tokens that pieces guard, as first index and end, the first token standing at `pos`. -/
def ranges : (pos : Nat) → List Piece → List (Nat × Nat)
  | _, [] => []
  | pos, .plain _ :: ps => ranges (pos + 1) ps
  | pos, .guarded ts :: ps => (pos, pos + ts.length) :: ranges (pos + ts.length) ps

/-- The tokens from `pos` on with ranges of them guarded. -/
def splice (guard : Bytes → Bytes) (handlers : Handlers) (ts : List Token) :
    (pos : Nat) → List (Nat × Nat) → Bytes
  | pos, [] => tokenTexts handlers (ts.drop pos)
  | pos, (first, stop) :: rs =>
    tokenTexts handlers (ts.extract pos first) ++ guard (tokenTexts handlers (ts.extract first stop))
      ++ splice guard handlers ts stop rs

/-- The ranges are not empty, follow one another without overlap and lie among `count` tokens. -/
def InOrder (count : Nat) (rs : List (Nat × Nat)) : Prop :=
  rs.Pairwise (fun r q => r.2 ≤ q.1) ∧ ∀ r ∈ rs, r.1 < r.2 ∧ r.2 ≤ count

@[simp] theorem tokenTexts_append (handlers : Handlers) (ts us : List Token) :
    tokenTexts handlers (ts ++ us) = tokenTexts handlers ts ++ tokenTexts handlers us :=
  List.flatMap_append

@[simp] theorem tokenTexts_nil (handlers : Handlers) : tokenTexts handlers [] = [] := rfl

@[simp] theorem tokenTexts_singleton (handlers : Handlers) (t : Token) :
    tokenTexts handlers [t] = tokenText handlers t :=
  List.flatMap_singleton ..

theorem extract_append (pre mid post : List Token) :
    (pre ++ (mid ++ post)).extract pre.length (pre.length + mid.length) = mid := by
  simp [List.extract_eq_take_drop]

/-- The tokens of `plain` are read but not yet written: the next range may start right after them. -/
theorem splice_ranges (guard : Bytes → Bytes) (handlers : Handlers) (pre plain : List Token)
    (ps : List Piece) :
    splice guard handlers (pre ++ plain ++ ps.flatMap Piece.tokens) pre.length
        (ranges (pre.length + plain.length) ps) =
      tokenTexts handlers plain ++ ps.flatMap (Piece.write guard handlers) := by
  induction ps generalizing pre plain with
  | nil => simp [ranges, splice]
  | cons p ps ih =>
    cases p with
    | plain t =>
      have := ih pre (plain ++ [t])
      simpa [ranges, Piece.tokens, Piece.write, Nat.add_assoc] using this
    | guarded ts =>
      have hplain := extract_append pre plain (ts ++ ps.flatMap Piece.tokens)
      have hguarded := extract_append (pre ++ plain) ts (ps.flatMap Piece.tokens)
      have hrest := ih (pre ++ plain ++ ts) []
      rw [List.append_assoc, List.length_append] at hguarded
      simp only [List.append_assoc, List.length_append, List.append_nil, List.length_nil, Nat.add_zero,
        Nat.add_assoc, tokenTexts_nil, List.nil_append] at hguarded hrest
      simp only [ranges, splice, Piece.tokens, Piece.write, List.flatMap_cons, List.append_assoc,
        Nat.add_assoc, hplain, hguarded, hrest]

theorem inOrder_ranges {pos : Nat} {ps : List Piece} (hne : ∀ ts, .guarded ts ∈ ps → ts ≠ []) :
    InOrder (pos + (ps.flatMap Piece.tokens).length) (ranges pos ps) ∧ ∀ r ∈ ranges pos ps, pos ≤ r.1 := by
  induction ps generalizing pos with
  | nil => simp [ranges, InOrder]
  | cons p ps ih =>
    have hps : ∀ ts, .guarded ts ∈ ps → ts ≠ [] := fun ts h => hne ts (List.mem_cons_of_mem _ h)
    cases p with
    | plain t =>
      obtain ⟨ho, hge⟩ := @ih (pos + 1) hps
      refine ⟨?_, fun r hr => by have := hge r hr; omega⟩
      simpa [ranges, Piece.tokens, Nat.add_assoc, Nat.add_comm 1] using ho
    | guarded ts =>
      obtain ⟨ho, hge⟩ := @ih (pos + ts.length) hps
      have hts : 0 < ts.length := List.length_pos_iff.2 (hne ts (by simp))
      refine ⟨⟨?_, ?_⟩, ?_⟩
      · exact List.pairwise_cons.2 ⟨hge, ho.1⟩
      · refine List.forall_mem_cons.2 ⟨⟨by omega, ?_⟩, fun r hr => ⟨(ho.2 r hr).1, ?_⟩⟩
        · simp only [List.flatMap_cons, Piece.tokens, List.length_append]
          omega
        · have := (ho.2 r hr).2
          simpa only [List.flatMap_cons, Piece.tokens, List.length_append, Nat.add_assoc] using this
      · exact List.forall_mem_cons.2 ⟨le_rfl, fun r hr => by have := hge r hr; omega⟩

theorem plan_eq_ok {variablesHandled : Bool} {src : Bytes} {ps : List Piece} :
    plan variablesHandled src = .ok ps ↔ ∃ ts gs, Token.tokenize src = .ok ts ∧
      Group.ofTokens ts = .ok gs ∧ ps = planFrom variablesHandled .start 0 gs := by
  simp only [plan, bind, Except.bind, pure, Except.pure]
  cases Token.tokenize src with
  | error => simp
  | ok ts => cases h : Group.ofTokens ts <;> simp [h, eq_comm]

theorem guardAll_eq_ok {guard : Bytes → Bytes} {handlers : Handlers} {src out : Bytes} :
    guardAll guard handlers src = .ok out ↔ ∃ ps, plan (handlesVariables handlers) src = .ok ps ∧
      out = ps.flatMap (Piece.write guard handlers) := by
  simp only [guardAll, bind, Except.bind, pure, Except.pure]
  cases plan (handlesVariables handlers) src <;> simp [eq_comm]

theorem plan_tokens {variablesHandled : Bool} {src : Bytes} {ps : List Piece}
    (h : plan variablesHandled src = .ok ps) : Token.tokenize src = .ok (ps.flatMap Piece.tokens) := by
  obtain ⟨ts, gs, hts, hgs, rfl⟩ := plan_eq_ok.1 h
  rw [planFrom_tokens, List.drop_zero, Group.ofTokens_tokens hgs, hts]

theorem flatMap_write_id (handlers : Handlers) (ps : List Piece) :
    ps.flatMap (Piece.write id handlers) = tokenTexts handlers (ps.flatMap Piece.tokens) := by
  induction ps with
  | nil => rfl
  | cons p ps ih =>
    rw [List.flatMap_cons, List.flatMap_cons, tokenTexts_append, ih]
    cases p <;> simp [Piece.write, Piece.tokens]

/-- The guarded ranges of a source depend only on whether variables are handled, and under every guard the
result is the handled source with these ranges guarded. -/
theorem guardAll_eq_splice (src : Bytes) (variablesHandled : Bool) :
    ∃ rs : List (Nat × Nat), ∀ (handlers : Handlers) (guard₀ : Bytes → Bytes) (out₀ : Bytes),
      handlesVariables handlers = variablesHandled → guardAll guard₀ handlers src = .ok out₀ →
        ∃ ts, Token.tokenize src = .ok ts ∧ InOrder ts.length rs ∧
          (∀ guard, guardAll guard handlers src = .ok (splice guard handlers ts 0 rs)) ∧
          guardAll id handlers src = handleAll handlers src ∧
          (handlers = [] → guardAll id handlers src = .ok src) := by
  cases hplan : plan variablesHandled src with
  | error e =>
    refine ⟨[], fun handlers guard₀ out₀ hv h => ?_⟩
    obtain ⟨ps, hps, -⟩ := guardAll_eq_ok.1 h
    rw [hv, hplan] at hps
    cases hps
  | ok ps =>
    refine ⟨ranges 0 ps, fun handlers guard₀ out₀ hv _ => ?_⟩
    have hts := plan_tokens hplan
    have hall (guard : Bytes → Bytes) : guardAll guard handlers src =
        .ok (ps.flatMap (Piece.write guard handlers)) := guardAll_eq_ok.2 ⟨ps, hv ▸ hplan, rfl⟩
    refine ⟨_, hts, ?_, fun guard => ?_, ?_, ?_⟩
    · obtain ⟨_, gs, -, -, rfl⟩ := plan_eq_ok.1 hplan
      simpa using (@inOrder_ranges 0 _ fun ts h => guarded_ne_nil h).1
    · rw [hall guard]
      simpa using (splice_ranges guard handlers [] [] ps).symm
    · rw [hall, flatMap_write_id, handleAll, hts]
      rfl
    · rintro rfl
      rw [hall, flatMap_write_id]
      exact congrArg Except.ok (Token.tokenize_covers hts).flatMap_text

/-- A call guards the object and not the method, and its argument by itself. -/
theorem guardAll_eq_splice_call :
    ∃ rs ts, Token.tokenize "$a->b($c)" = .ok ts ∧ InOrder ts.length rs ∧
      guardAll (fun ref => "<" ++ ref ++ ">") [] "$a->b($c)" = .ok "<$a>->b(<$c>)" ∧
      (∀ guard, guardAll guard [] "$a->b($c)" = .ok (splice guard [] ts 0 rs)) ∧
      guardAll id [] "$a->b($c)" = .ok "$a->b($c)" := by
  have h : guardAll (fun ref => "<" ++ ref ++ ">") [] "$a->b($c)" = .ok "<$a>->b(<$c>)" := by cbv
  obtain ⟨rs, hrs⟩ := guardAll_eq_splice "$a->b($c)" false
  obtain ⟨ts, hts, ho, hall, -, hid⟩ := hrs [] _ _ rfl h
  exact ⟨rs, ts, hts, ho, h, hall, hid rfl⟩

end Stencil.Reference
