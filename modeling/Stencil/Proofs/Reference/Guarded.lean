import Stencil.Compile.Session
import Stencil.Proofs.Reference.Chain
import Stencil.Proofs.Token.Replay

/-! Guarded code is code again. The default guard writes a reference twice between fixed texts; each copy is read as it
was in its old place, and so is the code between the guarded ranges, so that the result has tokens and its brackets
pair up. -/

namespace Stencil.Reference

open Token (Kind Group Lexes)
open Ascii

/-- The guard of a session with the patterns of the basic dialect. -/
def defaultGuard (ref : Bytes) : Bytes :=
  Session.checkedVariable [(Dialect.basicPatterns.get? "test_value").getD []]
    [ref, (Dialect.basicPatterns.get? "empty_value").getD []]

theorem defaultGuard_eq (ref : Bytes) : defaultGuard ref = "(isset(" ++ ref ++ ") ? " ++ ref ++ " : '')" := by
  change Bytes.ofString "(" ++ (Bytes.ofString "isset(" ++ (ref ++ ")")) ++ " ? " ++ ref ++ " : " ++ "''" ++ ")" = _
  simp only [List.append_assoc]
  rfl

/-- The guard of every dialect, unless the settings change the patterns. -/
theorem text_checked_variable (ref : Bytes) {d : Dialect}
    (hd : d = .basic ∨ d = .xml ∨ d = .html ∨ d = .xhtml) :
    Pattern.text (Session.patternTable { settings := {} } d) "checked_variable"
      [ref, (Dialect.basicPatterns.get? "empty_value").getD []] = .ok (defaultGuard ref) := by
  rcases hd with rfl | rfl | rfl | rfl <;> rfl

def guardKinds (ks : List Kind) : List Kind :=
  [Kind.lparen, .ident, .lparen] ++ ks ++ [Kind.rparen, .whitespace, .operator, .whitespace] ++ ks ++
    [Kind.whitespace, .operator, .whitespace, .string, .rparen]

theorem lexes_opening (z : Bytes) : Lexes "(isset(" [.lparen, .ident, .lparen] z := by
  have h₁ : Lexes [0x28] [.lparen] (Bytes.ofString "isset(" ++ z) := .single rfl
  have h₂ : Lexes "isset" [.ident] ([0x28] ++ z) := .single rfl
  have h₃ : Lexes [0x28] [.lparen] z := .single rfl
  exact h₁.append (h₂.append h₃)

theorem lexes_middle {z : Bytes} (hz : z.head? = some dollar) :
    Lexes ") ? " [.rparen, .whitespace, .operator, .whitespace] z := by
  obtain ⟨r, rfl⟩ : ∃ r, z = dollar :: r := by
    cases z with
    | nil => cases hz
    | cons b r => exact ⟨r, by rw [Option.some.inj hz]⟩
  have h₁ : Lexes [0x29] [.rparen] (Bytes.ofString " ? " ++ dollar :: r) := .single rfl
  have h₂ : Lexes [space] [.whitespace] (Bytes.ofString "? " ++ dollar :: r) := .single rfl
  have h₃ : Lexes [0x3f] [.operator] ([space] ++ dollar :: r) := .single rfl
  have h₄ : Lexes [space] [.whitespace] (dollar :: r) := .single rfl
  exact h₁.append (h₂.append (h₃.append h₄))

theorem lexes_closing (z : Bytes) :
    Lexes " : '')" [.whitespace, .operator, .whitespace, .string, .rparen] z := by
  have h₁ : Lexes [space] [.whitespace] (Bytes.ofString ": '')" ++ z) := .single rfl
  have h₂ : Lexes [colon] [.operator] (Bytes.ofString " '')" ++ z) := .single rfl
  have h₃ : Lexes [space] [.whitespace] (Bytes.ofString "'')" ++ z) := .single rfl
  have h₄ : Lexes "''" [.string] ([0x29] ++ z) := .single rfl
  have h₅ : Lexes [0x29] [.rparen] z := .single rfl
  exact h₁.append (h₂.append (h₃.append (h₄.append h₅)))

/-- A reference that is read alike before all inert texts is so in both its places. -/
theorem lexes_defaultGuard {ref : Bytes} {ks : List Kind} (hd : ref.head? = some dollar)
    (h : ∀ z, Token.Scan.Inert z → Lexes ref ks z) (z : Bytes) : Lexes (defaultGuard ref) (guardKinds ks) z := by
  have h₁ : Lexes ref ks (Bytes.ofString " : '')" ++ z) := h _ (.spaced _)
  have h₂ := h₁.append (lexes_closing z)
  have h₃ := (lexes_middle (by simp [hd])).append h₂
  have h₄ : Lexes ref ks (Bytes.ofString ") ? " ++ (ref ++ Bytes.ofString " : '')") ++ z) :=
    h _ (.bracket _ _ (.inr rfl))
  have h₅ := (lexes_opening _).append (h₄.append h₃)
  simpa only [defaultGuard_eq, guardKinds, List.append_assoc] using h₅

def Piece.kinds : Piece → List Kind
  | .plain t => [t.kind]
  | .guarded ts => guardKinds (ts.map (·.kind))

/-- Pieces are read alike before what is left of the text and another end. The tokens `xs` are read and not yet written:
the next seam may be after more of them. -/
theorem lexes_pieces_before {c e d : Token.Cursor} {xs us : List Token} {ps : List Piece}
    (h : c.Reads (xs ++ ps.flatMap Piece.tokens) e) (hus : e.Reads us d) (hf : c.frames = []) (he : e.frames = [])
    (hd : d.frames = []) {r z : Bytes} (hr : e.rest = r ++ d.rest)
    (hz : d.rest = z ∨ Token.Scan.Inert z ∧ (us = [] → Token.Cursor.Parts (xs ++ ps.flatMap Piece.tokens) d.rest z))
    (hps : ∀ ts, .guarded ts ∈ ps → IsReference ts) :
    Lexes (xs.flatMap (·.text) ++ ps.flatMap (Piece.write defaultGuard [])) (xs.map (·.kind) ++ ps.flatMap Piece.kinds)
      (r ++ z) := by
  induction ps generalizing c xs with
  | nil =>
    simp only [List.flatMap_nil, List.append_nil] at h hz ⊢
    exact h.lexes_before hus hf he hd hr hz
  | cons p ps ih =>
    have hps' : ∀ ts, .guarded ts ∈ ps → IsReference ts := fun ts hts => hps ts (List.mem_cons_of_mem p hts)
    cases p with
    | plain t =>
      have := @ih c (xs ++ [t]) (by simpa [Piece.tokens] using h) hf (by simpa [Piece.tokens] using hz) hps'
      simpa [Piece.write, Piece.kinds, tokenText] using this
    | guarded ts =>
      have hts := hps ts (by simp)
      rw [List.flatMap_cons, Piece.tokens] at h hz
      obtain ⟨e₁, hxs, hf₁, hrest⟩ := h.before_reference (.of_nil hf) hts
      obtain ⟨hdollar, e₂, href, hf₂, hrest'⟩ := hrest.reference hf₁ hts
      -- A reference does not end in trivia, so nothing inert after it can be read as a part of it.
      have hlast : ∀ t ∈ ts.getLast?, t.isTrivia → False := fun t ht htriv => by
        rw [hts.last t ht] at htriv
        cases htriv
      have hinert : ∀ z, Token.Scan.Inert z → Lexes (ts.flatMap (·.text)) (ts.map (·.kind)) z := fun z hz =>
        href.lexes hf₁ hf₂ (.inr ⟨hz, fun t ht htriv => (hlast t ht htriv).elim⟩)
      have hguard := lexes_defaultGuard (href.head_texts hf₁ hts hdollar) hinert
      have hlater := hz.imp_right fun hz =>
        And.intro hz.1 fun hnil => (List.append_assoc xs ts _ ▸ hz.2 hnil).of_append
      have hpieces := @ih e₂ [] (by simpa using hrest') hf₂ hlater hps'
      have hbefore := hxs.lexes hf hf₁ (z := defaultGuard (ts.flatMap (·.text)) ++
        ps.flatMap (Piece.write defaultGuard []) ++ (r ++ z)) (.inr ⟨.bracket 0x28 _ (.inl rfl), fun _ _ _ =>
          ⟨fun c hc => Option.some.inj hc ▸ rfl, fun _ _ => hdollar⟩⟩)
      exact hbefore.append ((hguard _).append hpieces)

theorem lexes_pieces {c d : Token.Cursor} {xs : List Token} {ps : List Piece}
    (h : c.Reads (xs ++ ps.flatMap Piece.tokens) d) (hf : c.frames = []) (hd : d.frames = []) (hr : d.rest = [])
    (hps : ∀ ts, .guarded ts ∈ ps → IsReference ts) :
    Lexes (xs.flatMap (·.text) ++ ps.flatMap (Piece.write defaultGuard [])) (xs.map (·.kind) ++ ps.flatMap Piece.kinds)
      [] :=
  lexes_pieces_before h (.refl d) hf hd hd (List.nil_append _).symm (.inl hr) hps

theorem neutral_guardKinds {ks : List Kind} (h : Group.Neutral ks) : Group.Neutral (guardKinds ks) := by
  intro st
  simp only [guardKinds, Group.settle_append]
  change ((((some (.round :: .round :: st)).bind _).bind _).bind _).bind _ = some st
  rw [Option.bind_some, h, Option.bind_some]
  change ((some (.round :: st)).bind _).bind _ = some st
  rw [Option.bind_some, h]
  rfl

/-- A guarded range leaves as many brackets open as before: none. -/
theorem settle_kinds {ps : List Piece} (hps : ∀ ts, .guarded ts ∈ ps → IsReference ts) (st : List Token.Bracket) :
    Group.settle st (ps.flatMap Piece.kinds) = Group.settle st ((ps.flatMap Piece.tokens).map (·.kind)) := by
  induction ps generalizing st with
  | nil => rfl
  | cons p ps ih =>
    have ih := ih fun ts hts => hps ts (List.mem_cons_of_mem p hts)
    rw [List.flatMap_cons, List.flatMap_cons, List.map_append, Group.settle_append, Group.settle_append,
      funext ih]
    congr 1
    cases p with
    | plain t => rfl
    | guarded ts =>
      have hts := (hps ts (by simp)).neutral
      exact (neutral_guardKinds hts st).trans (hts st).symm

/-- Guarding never makes code that cannot be read or whose brackets do not pair up, so guarding the result
succeeds again, whatever the guard and the handlers. -/
theorem guardAll_relexes {src out : Bytes} (h : guardAll defaultGuard [] src = .ok out) :
    ∃ ts gs, Token.tokenize out = .ok ts ∧ Group.ofTokens ts = .ok gs ∧
      ∀ guard handlers, ∃ again, guardAll guard handlers out = .ok again := by
  obtain ⟨ps, hplan, rfl⟩ := guardAll_eq_ok.1 h
  obtain ⟨ts, gs, hts, hgs, hps⟩ := plan_eq_ok.1 hplan
  have href : ∀ ts, .guarded ts ∈ ps → IsReference ts := fun ts hmem =>
    isReference_of_guarded (Token.ofTokens_coherent hts hgs) (hps ▸ hmem)
  obtain rfl : ps.flatMap Piece.tokens = ts := by
    rw [plan_tokens hplan] at hts
    exact Except.ok.inj hts
  obtain ⟨d, hd, hrest, hframes⟩ := Token.Cursor.tokenize_eq_ok.1 hts
  obtain ⟨us, hus, hkinds⟩ := (@lexes_pieces _ _ [] ps hd rfl hframes hrest href).tokenize
  obtain ⟨gs', hgs'⟩ : ∃ gs', Group.ofTokens us = .ok gs' := by
    rw [Group.exists_ofTokens_iff, hkinds]
    exact (settle_kinds href []).trans (Group.exists_ofTokens_iff.1 ⟨gs, hgs⟩)
  refine ⟨us, gs', hus, hgs', fun guard handlers => ?_⟩
  exact ⟨_, guardAll_eq_ok.2 ⟨_, plan_eq_ok.2 ⟨us, gs', hus, hgs', rfl⟩, rfl⟩⟩

/-- A reference whose index holds a comment and a string with an interpolation. -/
theorem guardAll_relexes_index :
    ∃ out ts gs, guardAll defaultGuard [] "$a[/*(*/\"\x7b$b\x7d\"]" = .ok out ∧ Token.tokenize out = .ok ts ∧
      Group.ofTokens ts = .ok gs ∧ ∀ guard handlers, ∃ again, guardAll guard handlers out = .ok again := by
  have h : guardAll defaultGuard [] "$a[/*(*/\"\x7b$b\x7d\"]" =
      .ok "(isset($a[/*(*/\"\x7b$b\x7d\"]) ? $a[/*(*/\"\x7b$b\x7d\"] : '')" := by cbv
  obtain ⟨ts, gs, hts, hgs, hall⟩ := guardAll_relexes h
  exact ⟨_, ts, gs, h, hts, hgs, hall⟩

end Stencil.Reference
