import Stencil.Value.Literal
import Stencil.Proofs.Decimal
import Stencil.Proofs.Token.Replay

/-! The tokens of a printed literal. Each piece of it is read as one token of its own text wherever it is followed by
what the printer puts there: the end, a comma, a closing bracket or a space. -/

namespace Stencil.Token

open Ascii

def piece (t : Token) : Kind × Bytes := (t.kind, t.text)

/-- In top-level code before `z`, the texts are read as tokens of these kinds, back to top-level code. -/
def Spells (ps : List (Kind × Bytes)) (z : Bytes) : Prop :=
  ∀ c : Cursor, c.frames = [] → c.rest = ps.flatMap (·.2) ++ z →
    ∃ ts d, c.Reads ts d ∧ d.frames = [] ∧ d.rest = z ∧ ts.map piece = ps

namespace Spells

variable {ps qs : List (Kind × Bytes)} {b : UInt8} {s z : Bytes} {k : Kind}

theorem nil (z : Bytes) : Spells [] z := fun c hf hr => ⟨[], c, .refl c, hf, hr, rfl⟩

theorem append (hps : Spells ps (qs.flatMap (·.2) ++ z)) (hqs : Spells qs z) : Spells (ps ++ qs) z := by
  intro c hf hr
  obtain ⟨ts, d, hts, hd, hrest, rfl⟩ := hps c hf (by rw [hr, List.flatMap_append, List.append_assoc])
  obtain ⟨us, e, hus, he, hrest', rfl⟩ := hqs d hd hrest
  exact ⟨ts ++ us, e, hts.trans hus, he, hrest', List.map_append⟩

/-- One step of the lexer that stays in code and reads one token. -/
theorem single (hm : Scan.codeMove b (s ++ z) = .ok ⟨[(k, (b :: s).length)], .stay⟩) : Spells [(k, b :: s)] z := by
  intro c hf hr
  rw [List.flatMap_singleton] at hr
  have hmove : c.move b (s ++ z) = .ok ⟨[(k, (b :: s).length)], .stay⟩ := by
    rw [Cursor.move_code (.of_nil hf), hm]
  refine ⟨_, _, .step hr hmove (.refl _), ?_⟩
  rw [Cursor.perform_stay]
  refine ⟨hf, ?_, ?_⟩
  · change c.rest.drop (b :: s).length = z
    rw [hr, List.drop_left]
  · change [(k, c.rest.take (b :: s).length)] = _
    rw [hr, List.take_left]

theorem tokenize (h : Spells ps []) : ∃ ts, tokenize (ps.flatMap (·.2)) = .ok ts ∧ ts.map piece = ps := by
  obtain ⟨ts, d, hts, hf, hr, hps⟩ := h (.ofSource _) rfl (List.append_nil _).symm
  exact ⟨ts, Cursor.tokenize_eq_ok.2 ⟨d, hts, hr, hf⟩, hps⟩

end Spells

/-- What may follow a piece of a literal: nothing, a comma, a closing bracket or a space. -/
inductive Stops : Bytes → Prop
  | nil : Stops []
  | cons {c : UInt8} (z : Bytes) (h : c = comma ∨ c = rbracket ∨ c = space) : Stops (c :: z)

variable {z : Bytes}

def words : List Bytes := ["null", "true", "false"]

theorem spells_word {s : Bytes} (hs : s ∈ words) (hz : Stops z) : Spells [(.ident, s)] z := by
  rcases hz with _ | ⟨_, rfl | rfl | rfl⟩ <;> fin_cases hs <;> exact .single rfl

theorem spells_lbracket (z : Bytes) : Spells [(.lbracket, [lbracket])] z := .single rfl

theorem spells_rbracket (z : Bytes) : Spells [(.rbracket, [rbracket])] z := .single rfl

theorem spells_spaces {w : Bytes} (hne : w ≠ []) (hw : ∀ c ∈ w, isSpace c) (hz : ∀ c ∈ z.head?, isSpace c = false) :
    Spells [(.whitespace, w)] z := by
  have hcount : Bytes.countWhile isSpace (w ++ z) = w.length := by
    have hstop : z.takeWhile isSpace = [] := by
      cases z with
      | nil => rfl
      | cons c z => rw [List.takeWhile_cons_of_neg (by simp [hz c rfl])]
    rw [Bytes.countWhile, List.takeWhile_append_of_pos hw, hstop, List.append_nil]
  obtain ⟨b, s, rfl⟩ := List.exists_cons_of_ne_nil hne
  refine .single ?_
  rw [Scan.codeMove, if_pos (hw b List.mem_cons_self), ← List.cons_append, hcount]

theorem spells_space (hz : ∀ c ∈ z.head?, isSpace c = false) : Spells [(.whitespace, [space])] z :=
  spells_spaces (by simp) (by decide +kernel) hz

theorem spells_comma (hz : ∀ c ∈ z.head?, isSpace c = false) :
    Spells [(.comma, [comma]), (.whitespace, [space])] z := by
  have hcomma : Spells [(.comma, [comma])] ([space] ++ z) := .single rfl
  exact hcomma.append (spells_space hz)

theorem spells_arrow (hz : ∀ c ∈ z.head?, isSpace c = false) :
    Spells [(.whitespace, [space]), (.doubleArrow, [equals, greater]), (.whitespace, [space])] z := by
  have harrow : Spells [(.doubleArrow, [equals, greater])] ([space] ++ z) := .single rfl
  have hspace : Spells [(.whitespace, [space])] ([equals, greater] ++ ([space] ++ z)) :=
    spells_space fun c hc => by cases hc; rfl
  exact hspace.append (harrow.append (spells_space hz))

theorem singleQuoted_escape (s z : Bytes) :
    Scan.singleQuoted (Quoted.escape s ++ singleQuote :: z) = some ((Quoted.escape s).length + 1) := by
  induction s with
  | nil =>
    cases z with
    | nil => rfl
    | cons c z => rfl
  | cons c s ih =>
    obtain ⟨d, t, ht⟩ : ∃ d t, Quoted.escape s ++ singleQuote :: z = d :: t :=
      List.exists_cons_of_ne_nil (by simp)
    rw [Quoted.escape]
    split
    next => simp [Scan.singleQuoted, ih]
    next hc =>
      simp only [Bool.or_eq_true, beq_iff_eq, not_or] at hc
      rw [ht] at ih
      simp [Scan.singleQuoted, ht, ih, hc.1, hc.2]

theorem spells_string (s z : Bytes) : Spells [(.string, Quoted.encode s)] z := by
  refine .single ?_
  rw [List.append_assoc, List.singleton_append]
  simp only [Scan.codeMove, singleQuoted_escape, List.length_cons, List.length_append, List.length_nil]
  rfl

theorem numberFrom_digits {s : Bytes} (hs : ∀ c ∈ s, isDigit c) (hz : Stops z) (hex : Bool) (prev : Option UInt8) :
    Scan.numberFrom hex prev false (s ++ z) = s.length := by
  induction s generalizing prev with
  | nil =>
    rcases hz with _ | ⟨z, rfl | rfl | rfl⟩ <;> rfl
  | cons c s ih =>
    have hc : isNameChar c := by simp [isNameChar, hs c List.mem_cons_self]
    rw [List.cons_append, Scan.numberFrom, if_pos hc, ih fun d hd => hs d (List.mem_cons_of_mem _ hd)]
    rfl

theorem spells_number (n : Nat) (hz : Stops z) : Spells [(.number, Bytes.ofNat n)] z := by
  obtain ⟨d, s, hd, hs⟩ := Bytes.ofNat_eq_cons n
  have hlen : Scan.number (Bytes.digit d :: (s ++ z)) = (Bytes.digit d :: s).length := by
    rw [Scan.number, ← List.cons_append]
    exact numberFrom_digits (hs ▸ Bytes.isDigit_ofNat n) hz _ _
  have hother : ∀ d < 10, isSpace (Bytes.digit d) = false ∧ Bytes.digit d ≠ hash ∧ Bytes.digit d ≠ slash ∧
      Bytes.digit d ≠ dollar ∧ isNameStart (Bytes.digit d) = false ∧ Bytes.digit d ≠ backslash ∧
      isDigit (Bytes.digit d) := by decide
  obtain ⟨h₁, h₂, h₃, h₄, h₅, h₆, h₇⟩ := hother d hd
  rw [hs]
  refine .single ?_
  simp [Scan.codeMove, h₁, h₂, h₃, h₄, h₅, h₆, h₇, hlen]

theorem spells_minus {z : Bytes} (n : Nat) : Spells [(.operator, [minus])] (Bytes.ofNat n ++ z) := by
  obtain ⟨d, s, hd, hs⟩ := Bytes.ofNat_eq_cons n
  rw [hs]
  refine .single ?_
  interval_cases d <;> rfl

end Stencil.Token
