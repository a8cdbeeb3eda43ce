import Stencil.Proofs.Compile.Builtin
import Stencil.Proofs.Reference.Guarded
import Stencil.Proofs.Token.LineComment

/-! Displayed values. The built-in dialects put code into the call that escapes its value. The call is code again, unless
the code ends in a line comment: the comment takes the bracket that should close the call. -/

namespace Stencil

open Token (Kind Group Lexes)

namespace Reference

/-- The last token of the source is a comment to the end of its line. -/
def EndsInLineComment (src : Bytes) : Prop :=
  ∃ ts t, Token.tokenize src = .ok ts ∧ ts.getLast? = some t ∧ t.kind = .comment ∧ Token.Scan.isLineComment t.text = true

def escapeCall (code : Bytes) : Bytes := "htmlspecialchars(" ++ code ++ ")"

theorem lexes_escapeCall (z : Bytes) : Lexes "htmlspecialchars(" [.ident, .lparen] z := by
  have h₁ : Lexes "htmlspecialchars" [.ident] ([0x28] ++ z) := .single rfl
  have h₂ : Lexes [0x28] [.lparen] z := .single rfl
  exact h₁.append h₂

theorem lexes_rparen : Lexes ")" [.rparen] [] := .single rfl

theorem settle_escapeCall (ks : List Kind) : Group.settle [] ([.ident, .lparen] ++ ks) = Group.settle [.round] ks := rfl

variable {src : Bytes} {ps : List Piece}

theorem plan_reads (h : plan false src = .ok ps) :
    ∃ d, (Token.Cursor.ofSource src).Reads (ps.flatMap Piece.tokens) d ∧ d.rest = [] ∧ d.frames = [] :=
  Token.Cursor.tokenize_eq_ok.mp (plan_tokens h)

theorem plan_references (h : plan false src = .ok ps) : ∀ ts, .guarded ts ∈ ps → IsReference ts := by
  obtain ⟨ts, gs, hts, hgs, rfl⟩ := plan_eq_ok.mp h
  exact fun us hus => isReference_of_guarded (Token.ofTokens_coherent hts hgs) hus

theorem plan_neutral (h : plan false src = .ok ps) : Group.Neutral (ps.flatMap Piece.kinds) := by
  intro st
  obtain ⟨ts, gs, hts, hgs, -⟩ := plan_eq_ok.mp h
  have hneutral := Group.neutral_tokensOf fun g hg => (Token.ofTokens_coherent hts hgs g hg).neutral
  rw [settle_kinds (plan_references h), Except.ok.inj ((plan_tokens h).symm.trans hts), ← Group.ofTokens_tokens hgs]
  exact hneutral st

theorem plan_endsInLineComment (h : plan false src = .ok ps) : EndsInLineComment src ↔ ∃ t,
    (ps.flatMap Piece.tokens).getLast? = some t ∧ t.kind = .comment ∧ Token.Scan.isLineComment t.text = true := by
  refine ⟨fun ⟨ts, t, hts, ht⟩ => ?_, fun ⟨t, ht⟩ => ⟨_, t, plan_tokens h, ht⟩⟩
  rw [← Except.ok.inj (hts.symm.trans (plan_tokens h))]
  exact ⟨t, ht⟩

/-- Without a line comment at its end, the call is code whose brackets pair up. -/
theorem plan_escapeCall (h : plan false src = .ok ps) (hend : ¬ EndsInLineComment src) :
    ∃ ts gs, Token.tokenize (escapeCall (ps.flatMap (Piece.write defaultGuard []))) = .ok ts ∧
      Group.ofTokens ts = .ok gs := by
  obtain ⟨d, hd, hrest, hframes⟩ := plan_reads h
  have hparts : Token.Cursor.Parts ([] ++ ps.flatMap Piece.tokens) d.rest ")" := fun t ht _ =>
    ⟨fun c hc => Option.some.inj hc ▸ rfl, fun hk hline =>
      absurd ((plan_endsInLineComment h).mpr ⟨t, ht, hk, hline⟩) hend⟩
  have hcode : Lexes (ps.flatMap (Piece.write defaultGuard [])) (ps.flatMap Piece.kinds) (Bytes.ofString ")" ++ []) :=
    @lexes_pieces_before _ _ _ [] _ ps hd (.refl d) rfl hframes hframes [] ")" (List.nil_append _).symm
      (.inr ⟨.bracket 0x29 [] (.inr rfl), fun _ => hparts⟩) (plan_references h)
  obtain ⟨ts, hts, hkinds⟩ := ((lexes_escapeCall _).append (hcode.append lexes_rparen)).tokenize
  obtain ⟨gs, hgs⟩ : ∃ gs, Group.ofTokens ts = .ok gs := by
    rw [Group.exists_ofTokens_iff, hkinds, settle_escapeCall, Group.settle_append, plan_neutral h]
    rfl
  rw [← List.append_assoc] at hts
  exact ⟨ts, gs, hts, hgs⟩

theorem plan_concat_comment (h : plan false src = .ok ps) {t : Token} (ht : (ps.flatMap Piece.tokens).getLast? = some t)
    (hk : t.kind = .comment) : ∃ qs, ps = qs ++ [.plain t] := by
  rcases List.eq_nil_or_concat ps with rfl | ⟨qs, p, rfl⟩
  · cases ht
  rw [List.concat_eq_append] at h ht ⊢
  rw [List.flatMap_append, List.flatMap_singleton] at ht
  refine ⟨qs, ?_⟩
  cases p with
  | plain u =>
    obtain rfl : u = t := Option.some.inj (List.getLast?_concat.symm.trans ht)
    rfl
  | guarded ts =>
    have hts : IsReference ts := plan_references h ts (by simp)
    have hne : ts ≠ [] := by
      obtain ⟨root, gs, rfl, -⟩ := hts
      exact List.cons_ne_nil root _
    have hlast := hts.last t ((List.getLast?_append_of_ne_nil _ hne).symm.trans ht)
    rw [Token.isTrivia, hk] at hlast
    cases hlast

/-- A line comment at its end takes the bracket that should close the call. -/
theorem plan_escapeCall_open (h : plan false src = .ok ps) (hend : EndsInLineComment src) :
    ∃ ts, Token.tokenize (escapeCall (ps.flatMap (Piece.write defaultGuard []))) = .ok ts ∧
      ¬ ∃ gs, Group.ofTokens ts = .ok gs := by
  obtain ⟨t, ht, hk, hline⟩ := (plan_endsInLineComment h).mp hend
  obtain ⟨qs, rfl⟩ := plan_concat_comment h ht hk
  obtain ⟨d, hd, hrest, hframes⟩ := plan_reads h
  rw [List.flatMap_append, List.flatMap_singleton] at hd
  obtain ⟨e, hqs, hfe, ht⟩ := hd.before_comment .top hframes hk
  obtain ⟨htext, hcomment⟩ := ht.lexes_lineComment hfe hrest hline ")" (by decide)
  have hcode : Lexes (qs.flatMap (Piece.write defaultGuard [])) (qs.flatMap Piece.kinds)
      (t.text ++ Bytes.ofString ")" ++ []) := by
    have hrefs : ∀ ts, .guarded ts ∈ qs → IsReference ts := fun ts hts => plan_references h ts (List.mem_append_left _ hts)
    rw [List.append_nil]
    -- the comment is still to be read, so nothing needs to part from the tokens before it
    exact @lexes_pieces_before _ _ _ [] _ qs hqs ht rfl hfe hframes t.text ")" (by rw [hrest, List.append_nil, htext])
      (.inr ⟨.bracket 0x29 [] (.inr rfl), fun hnil => absurd hnil (List.cons_ne_nil t [])⟩) hrefs
  obtain ⟨ts, hts, hkinds⟩ := ((lexes_escapeCall _).append (hcode.append hcomment)).tokenize
  refine ⟨ts, ?_, fun hgs => ?_⟩
  · simpa [escapeCall, Piece.write, tokenText] using hts
  · have hneutral := plan_neutral h [.round]
    rw [List.flatMap_append, List.flatMap_singleton, Piece.kinds, hk] at hneutral
    rw [Group.exists_ofTokens_iff, hkinds, settle_escapeCall, hneutral] at hgs
    cases hgs

end Reference

namespace Session.Standard

variable {s : Session} {d : Dialect} (h : s.Standard d)
include h

theorem handlers (e : Element) (fallback : Bytes) : (s.environment e d fallback).handlers = [] :=
  congrArg (List.map _) (Dialect.tokenTemplates_of_builtin d h.dialect)

theorem dialect_cases : d = .basic ∨ d = .xml ∨ d = .html ∨ d = .xhtml := by
  simpa [Dialect.builtin] using h.dialect

/-- Earlier pages change nothing about the common patterns. -/
theorem patternTable_agree : Pattern.Agree (· ∈ commonPatterns) (s.patternTable d) (patternTable { settings := {} } d) := by
  have hagree := @Session.patternTable_agree s { settings := s.settings } h.producers rfl d
  rw [patternTable_eq { settings := s.settings }, producerTable] at hagree
  simp only [h.patterns, h.producers] at hagree
  exact hagree

theorem checked_variable {fallback : Bytes} (hfallback : Pattern.text (s.patternTable d) "empty_value" [] = .ok fallback)
    (ref : Bytes) : Pattern.text (s.patternTable d) "checked_variable" [ref, fallback] = .ok (Reference.defaultGuard ref) := by
  rw [h.fallback_eq hfallback, h.patternTable_agree.text (by decide)]
  exact Reference.text_checked_variable ref h.dialect_cases

theorem display_escaped (code : Bytes) : Pattern.render (s.patternTable d) "php_display_escaped" [code] =
    .ok ("<?= " ++ Reference.escapeCall code ++ " ?>") := by
  rw [h.patternTable_agree.render (by decide)]
  rcases h.dialect_cases with rfl | rfl | rfl | rfl <;> rfl

variable {fallback : Bytes} (hfallback : Pattern.text (s.patternTable d) "empty_value" [] = .ok fallback) (e : Element)
include hfallback

theorem piece_eq (site : Site) (p : Reference.Piece) :
    (s.environment e d fallback).piece site p = .ok (p.write Reference.defaultGuard []) := by
  have hhandlers : (s.environment e d fallback).handlers = [] := h.handlers e fallback
  cases p with
  | plain t => rw [Environment.piece, hhandlers, Reference.Piece.write]
  | guarded ts =>
    have htext := h.checked_variable hfallback (Reference.tokenTexts [] ts)
    rw [Environment.piece, hhandlers, Reference.Piece.write]
    exact congrArg (Except.mapError _) htext

theorem code_eq (site : Site) {source out : Bytes} (hout : Reference.guardAll Reference.defaultGuard [] source = .ok out) :
    (s.environment e d fallback).code site source true = .ok out := by
  obtain ⟨ps, hplan, rfl⟩ := Reference.guardAll_eq_ok.mp hout
  rw [Environment.code, if_pos rfl, h.handlers e fallback, hplan]
  change ps.mapM ((s.environment e d fallback).piece site) >>= _ = _
  rw [funext (h.piece_eq hfallback e site)]
  change ps.mapM (fun p => pure (p.write Reference.defaultGuard [])) >>= _ = _
  rw [List.mapM_pure]
  exact congrArg Except.ok (List.flatMap_def ..).symm

/-- Checked code that is escaped and not known before run time is displayed by the call. -/
theorem expression_eq {scope : Scope} {snippet : Snippet} (hchecked : snippet.checked = true)
    (hescape : snippet.escape = true) (hscalar : scope.scalar? snippet.source = none) {out : Bytes}
    (hout : Reference.guardAll Reference.defaultGuard [] snippet.source = .ok out) :
    Render.expression (s.environment e d fallback) scope snippet = .ok ("<?= " ++ Reference.escapeCall out ++ " ?>") := by
  have hcode := h.code_eq hfallback e snippet.site hout
  rw [Render.expression, hscalar]
  dsimp only
  rw [Environment.snippet, hchecked, hcode]
  change Environment.display _ _ snippet.escape out = _
  rw [hescape, Environment.display, if_pos rfl, Environment.pattern]
  change Except.mapError _ (Pattern.render (s.patternTable d) _ _) = _
  rw [h.display_escaped]
  rfl

/-- The brackets of the displayed code pair up unless the value's own code ends in a line comment. -/
theorem expression_escaped {scope : Scope} {snippet : Snippet} (hchecked : snippet.checked = true)
    (hescape : snippet.escape = true) (hscalar : scope.scalar? snippet.source = none) {out : Bytes}
    (hout : Reference.guardAll Reference.defaultGuard [] snippet.source = .ok out) :
    Render.expression (s.environment e d fallback) scope snippet =
        .ok ("<?= " ++ ("htmlspecialchars(" ++ out ++ ")") ++ " ?>") ∧
      ∃ ts, Token.tokenize ("htmlspecialchars(" ++ out ++ ")") = .ok ts ∧
        ((∃ gs, Group.ofTokens ts = .ok gs) ↔ ¬ Reference.EndsInLineComment snippet.source) := by
  refine ⟨h.expression_eq hfallback e hchecked hescape hscalar hout, ?_⟩
  obtain ⟨ps, hplan, rfl⟩ := Reference.guardAll_eq_ok.mp hout
  by_cases hend : Reference.EndsInLineComment snippet.source
  · obtain ⟨ts, hts, hopen⟩ := Reference.plan_escapeCall_open hplan hend
    exact ⟨ts, hts, fun hgs => (hopen hgs).elim, fun hnot => (hnot hend).elim⟩
  · obtain ⟨ts, gs, hts, hgs⟩ := Reference.plan_escapeCall hplan hend
    exact ⟨ts, hts, fun _ => hend, fun _ => ⟨gs, hgs⟩⟩

end Session.Standard

def displayed (source : Bytes) : Snippet := ⟨source, true, true, none⟩

/-- The environment of a page with nothing but that value. -/
def displaying (source : Bytes) : Environment :=
  Session.environment { settings := {} } (.node 0 none (.expression (displayed source)) []) .html "''"

theorem standard_displaying : Session.Standard { settings := {} } .html := ⟨rfl, rfl, by decide⟩

/-- After a block comment the call is closed. -/
theorem expression_escaped_block :
    Render.expression (displaying "$a /* b */") .outermost (displayed "$a /* b */") =
        .ok "<?= htmlspecialchars((isset($a) ? $a : '') /* b */) ?>" ∧
      ∃ ts gs, Token.tokenize "htmlspecialchars((isset($a) ? $a : '') /* b */)" = .ok ts ∧ Group.ofTokens ts = .ok gs := by
  have hout : Reference.guardAll Reference.defaultGuard [] (displayed "$a /* b */").source =
      .ok "(isset($a) ? $a : '') /* b */" := by cbv
  have hscalar : Scope.scalar? .outermost (displayed "$a /* b */").source = none := by cbv
  have hread : Token.tokenize "$a /* b */" =
      .ok [⟨.var, "$a", 0, false⟩, ⟨.whitespace, " ", 2, false⟩, ⟨.comment, "/* b */", 3, false⟩] := rfl
  have hend : ¬ Reference.EndsInLineComment "$a /* b */" := by
    rintro ⟨ts, t, hts, ht, -, hline⟩
    obtain rfl := Except.ok.inj (hread.symm.trans hts)
    obtain rfl := Option.some.inj ht
    revert hline
    decide
  obtain ⟨hexpression, ts, hts, hgroups⟩ := standard_displaying.expression_escaped (by rfl)
    (.node 0 none (.expression (displayed "$a /* b */")) []) rfl rfl hscalar hout
  obtain ⟨gs, hgs⟩ := hgroups.mpr hend
  exact ⟨hexpression, ts, gs, hts, hgs⟩

/-- A line comment takes the bracket that should close the call. -/
theorem expression_escaped_open :
    Reference.guardAll Reference.defaultGuard [] "$a // b" = .ok "(isset($a) ? $a : '') // b" ∧
    Render.expression (displaying "$a // b") .outermost (displayed "$a // b") =
      .ok "<?= htmlspecialchars((isset($a) ? $a : '') // b) ?>" ∧
    ∃ ts, Token.tokenize "htmlspecialchars((isset($a) ? $a : '') // b)" = .ok ts ∧ ∀ gs, Group.ofTokens ts ≠ .ok gs := by
  have hout : Reference.guardAll Reference.defaultGuard [] (displayed "$a // b").source =
      .ok "(isset($a) ? $a : '') // b" := by cbv
  have hscalar : Scope.scalar? .outermost (displayed "$a // b").source = none := by cbv
  have hexpression := standard_displaying.expression_eq (by rfl) (.node 0 none (.expression (displayed "$a // b")) []) rfl
    rfl hscalar hout
  refine ⟨hout, hexpression, _, rfl, fun gs hgs => ?_⟩
  cases hgs

end Stencil
