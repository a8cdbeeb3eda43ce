import Stencil.Token.Lexer
import Mathlib.Tactic

/-! Every lexeme is at least one byte long and ends within the source. Both bounds are read off the
scanning functions, one lemma for each. -/

namespace Stencil

namespace Bytes

theorem after?_eq_some {lead s r : Bytes} : after? lead s = some r ↔ s = lead ++ r := by
  induction lead generalizing s with
  | nil => simp [after?, eq_comm]
  | cons a lead ih =>
    cases s with
    | nil => simp [after?]
    | cons b s =>
      by_cases hab : a = b
      · simp [after?, hab, ih]
      · simp [after?, hab, Ne.symm hab]

theorem startsWith_eq_true {lead s : Bytes} : startsWith lead s = true ↔ lead <+: s := by
  rw [startsWith, Option.isSome_iff_exists]
  exact exists_congr fun r => after?_eq_some.trans eq_comm

theorem find?_le {needle s : Bytes} {n : Nat} (h : find? needle s = some n) :
    n + needle.length ≤ s.length := by
  induction s generalizing n with
  | nil =>
    simp only [find?, List.isEmpty_iff, Option.ite_none_right_eq_some, Option.some.injEq] at h
    simp [h.1, ← h.2]
  | cons c s ih =>
    rw [find?] at h
    split_ifs at h with hs
    · cases h
      simpa using (startsWith_eq_true.1 hs).length_le
    · obtain ⟨m, hm, rfl⟩ := Option.map_eq_some_iff.1 h
      have := ih hm
      simp only [List.length_cons]
      omega

theorem countWhile_le (q : UInt8 → Bool) (s : Bytes) : countWhile q s ≤ s.length :=
  (List.takeWhile_prefix q).length_le

theorem countWhile_cons (q : UInt8 → Bool) (c : UInt8) (s : Bytes) :
    countWhile q (c :: s) = if q c then countWhile q s + 1 else 0 := by
  by_cases hc : q c <;> simp [countWhile, hc]

end Bytes

namespace Token.Scan

open Ascii

theorem nameChars_le (s : Bytes) : nameChars s ≤ s.length := Bytes.countWhile_le _ s

theorem nameChars_pos {s : Bytes} (h : startsName s) : 0 < nameChars s := by
  cases s with
  | nil => simp [startsName] at h
  | cons c s =>
    have hc : isNameChar c = true := by
      simp only [startsName] at h
      simp [isNameChar, h]
    simp [nameChars, Bytes.countWhile_cons, hc]

theorem qualifiedName_le (s : Bytes) : qualifiedName s ≤ s.length := by
  induction s with
  | nil => simp [qualifiedName]
  | cons c s ih =>
    rw [qualifiedName]
    split_ifs <;> simp [ih]

theorem qualifiedName_pos {c : UInt8} {s : Bytes} (h : isNameStart c || (c == backslash && startsName s)) :
    0 < qualifiedName (c :: s) := by
  rw [qualifiedName, if_pos]
  · omega
  · simp only [Bool.or_eq_true] at h ⊢
    exact h.imp_left fun h => by simp [isNameChar, h]

theorem numberFrom_le (hex : Bool) (prev : Option UInt8) (pointSeen : Bool) (s : Bytes) :
    numberFrom hex prev pointSeen s ≤ s.length := by
  induction s generalizing prev pointSeen with
  | nil => simp [numberFrom]
  | cons c s ih =>
    rw [numberFrom]
    split_ifs <;> simp [ih]

theorem number_pos {c : UInt8} {s : Bytes} (h : isDigit c || (c == dot && startsDigit s)) :
    0 < number (c :: s) := by
  rw [number, numberFrom]
  by_cases hd : isDigit c
  · simp [isNameChar, hd]
  · simp only [hd, Bool.false_or, Bool.and_eq_true, beq_iff_eq] at h
    split_ifs <;> simp_all

theorem singleQuoted_le {s : Bytes} {n : Nat} (h : singleQuoted s = some n) : n ≤ s.length := by
  fun_induction singleQuoted s generalizing n with
  | case1 => simp at h
  | case2 c hc => simp_all
  | case3 c hc => simp at h
  | case4 c d s hc ih =>
    obtain ⟨m, hm, rfl⟩ := Option.map_eq_some_iff.1 h
    have := ih hm
    simp only [List.length_cons]
    omega
  | case5 c d s hc hq => simp_all
  | case6 c d s hc hq ih =>
    obtain ⟨m, hm, rfl⟩ := Option.map_eq_some_iff.1 h
    have := ih hm
    simp only [List.length_cons] at this ⊢
    omega

theorem quoted_le {delim : UInt8} {s : Bytes} {n : Nat} {b : Bool} (h : quoted delim s = some (n, b)) :
    n ≤ s.length := by
  fun_induction quoted delim s generalizing n b with
  | case1 => simp at h
  | case2 c hc => simp_all
  | case3 c hc => simp at h
  | case4 c d s hc ih =>
    obtain ⟨⟨m, b'⟩, hm, he⟩ := Option.map_eq_some_iff.1 h
    have := ih hm
    simp only [Prod.mk.injEq] at he
    simp only [List.length_cons]
    omega
  | case5 c d s hc hq => simp_all
  | case6 c d s hc hq ih =>
    obtain ⟨⟨m, b'⟩, hm, he⟩ := Option.map_eq_some_iff.1 h
    have := ih hm
    simp only [Prod.mk.injEq] at he
    simp only [List.length_cons] at this ⊢
    omega

/-- The line that opens a heredoc, part by part. -/
structure Opening where
  blanks : Bytes
  mark : Option UInt8
  label : Bytes
  lineEnd : Bytes
  blank : blanks.all isBlank
  quote : mark = none ∨ mark = some doubleQuote ∨ mark = some singleQuote
  name : isName label
  ending : lineEnd = [newline] ∨ lineEnd = [carriageReturn, newline]

namespace Opening

def text (o : Opening) : Bytes :=
  "<<<" ++ o.blanks ++ o.mark.toList ++ o.label ++ o.mark.toList ++ o.lineEnd

def header (o : Opening) : Header :=
  { label := o.label, nowdoc := o.mark == some singleQuote, length := o.text.length }

end Opening

theorem isName_takeWhile {s : Bytes} (h : startsName s) : isName (s.takeWhile isNameChar) := by
  cases s with
  | nil => simp [startsName] at h
  | cons c s =>
    have hc : isNameStart c = true := by simpa [startsName] using h
    have hn : isNameChar c = true := by simp [isNameChar, hc]
    simp [isName, hn, hc, List.all_takeWhile]

theorem lineEnd_split {s r : Bytes}
    (h : Bytes.after? [newline] (Bytes.dropLead [carriageReturn] s) = some r) :
    ∃ e, s = e ++ r ∧ (e = [newline] ∨ e = [carriageReturn, newline]) := by
  rw [Bytes.after?_eq_some, Bytes.dropLead] at h
  cases hc : Bytes.after? [carriageReturn] s with
  | none => exact ⟨[newline], by simpa [hc] using h, .inl rfl⟩
  | some t =>
    rw [Bytes.after?_eq_some] at hc
    subst hc
    refine ⟨[carriageReturn, newline], ?_, .inr rfl⟩
    simpa [Bytes.after?] using h

theorem opening_of_label {s₁ t s₅ s₆ : Bytes} (mark : Option UInt8)
    (hm : mark = none ∨ mark = some doubleQuote ∨ mark = some singleQuote)
    (hb : s₁.dropWhile isBlank = mark.toList ++ t) (hn : startsName t)
    (h₅ : t.dropWhile isNameChar = mark.toList ++ s₅)
    (h₆ : Bytes.after? [newline] (Bytes.dropLead [carriageReturn] s₅) = some s₆) :
    ∃ o : Opening, o.mark = mark ∧ o.label = t.takeWhile isNameChar ∧
      ("<<<" : Bytes) ++ s₁ = o.text ++ s₆ := by
  obtain ⟨e, rfl, he⟩ := lineEnd_split h₆
  refine ⟨⟨s₁.takeWhile isBlank, mark, t.takeWhile isNameChar, e, ?_, hm, isName_takeWhile hn, he⟩,
    rfl, rfl, ?_⟩
  · simp [List.all_takeWhile]
  · have hs : s₁ = s₁.takeWhile isBlank ++ (mark.toList ++ (t.takeWhile isNameChar ++
        (mark.toList ++ (e ++ s₆)))) := by
      rw [← h₅, List.takeWhile_append_dropWhile, ← hb, List.takeWhile_append_dropWhile]
    simp only [Opening.text, List.append_assoc]
    rw [← hs]

theorem dropWhile_append_of_all {q : UInt8 → Bool} {a b : Bytes} (ha : a.all q)
    (hb : b.head?.all (!q ·)) : (a ++ b).dropWhile q = b ∧ (a ++ b).takeWhile q = a := by
  induction a with
  | nil => cases b <;> simp_all
  | cons c a ih =>
    simp only [List.all_cons, Bool.and_eq_true] at ha
    simp [ha.1, ih ha.2]

theorem not_isBlank {c : UInt8} (h : isNameStart c) : isBlank c = false := by
  by_contra hb
  simp only [isBlank, Bool.not_eq_false, Bool.or_eq_true, beq_iff_eq] at hb
  rcases hb with rfl | rfl <;> exact absurd h (by decide)

theorem Opening.header?_text (o : Opening) (rest : Bytes) :
    header? (o.text ++ rest) = some o.header := by
  obtain ⟨blanks, mark, label, lineEnd, hb, hm, hl, he⟩ := o
  obtain ⟨c, l, rfl⟩ : ∃ c l, label = c :: l := by
    cases label with
    | nil => simp [isName] at hl
    | cons c l => exact ⟨c, l, rfl⟩
  obtain ⟨hs, ha⟩ : isNameStart c ∧ l.all isNameChar := by simpa [isName] using hl
  have hc : isNameChar c = true := by simp [isNameChar, hs]
  have hline : Bytes.after? [newline] (Bytes.dropLead [carriageReturn] (lineEnd ++ rest)) = some rest := by
    rcases he with rfl | rfl <;> rfl
  have hlead : Bytes.after? "<<<" (Opening.text ⟨blanks, mark, c :: l, lineEnd, hb, hm, hl, he⟩ ++ rest) =
      some (blanks ++ (mark.toList ++ (c :: (l ++ (mark.toList ++ (lineEnd ++ rest)))))) :=
    Bytes.after?_eq_some.2 (by simp [Opening.text])
  simp only [header?, hlead, Option.bind_eq_bind, Option.bind_some]
  cases mark with
  | none =>
    have h₁ := dropWhile_append_of_all hb (b := c :: (l ++ (lineEnd ++ rest))) (by simp [not_isBlank hs])
    have h₂ := dropWhile_append_of_all ha (b := lineEnd ++ rest) (by rcases he with rfl | rfl <;> rfl)
    have hq : ¬ (c = doubleQuote ∨ c = singleQuote) := by
      rintro (rfl | rfl) <;> exact absurd hs (by decide)
    simp [h₁, h₂, hq, startsName, hs, hc, hline, Opening.header]
  | some q =>
    have hq : q = doubleQuote ∨ q = singleQuote := by simpa using hm
    have hq' : isBlank q = false ∧ isNameChar q = false := by
      rcases hq with rfl | rfl <;> decide
    have h₁ := dropWhile_append_of_all hb (b := q :: c :: (l ++ q :: (lineEnd ++ rest))) (by simp [hq'.1])
    have h₂ := dropWhile_append_of_all ha (b := q :: (lineEnd ++ rest)) (by simp [hq'.2])
    simp [h₁, h₂, hq, startsName, hs, hc, hline, Opening.header, Bytes.after?]

theorem header?_eq_some {s : Bytes} {h : Header} :
    header? s = some h ↔ ∃ (o : Opening) (rest : Bytes), s = o.text ++ rest ∧ h = o.header := by
  constructor
  · intro hs
    simp only [header?, Option.bind_eq_bind, Option.bind_eq_some_iff] at hs
    obtain ⟨s₁, hs₁, hs⟩ := hs
    rw [Bytes.after?_eq_some] at hs₁
    subst hs₁
    rcases hd : s₁.dropWhile isBlank with _ | ⟨c, t⟩
    · simp [hd, startsName] at hs
    · by_cases hq : c = doubleQuote ∨ c = singleQuote
      · simp only [hd, beq_iff_eq, Bool.or_eq_true, hq, ↓reduceIte, guard, Option.pure_def,
          Option.failure_eq_none, Option.ite_none_right_eq_some, Option.bind_eq_some_iff,
          Option.some.injEq] at hs
        obtain ⟨_, ⟨hn, -⟩, s₅, h₅, s₆, h₆, rfl⟩ := hs
        obtain ⟨o, hm, ho, hs⟩ := opening_of_label (some c) (by simpa using hq) hd hn
          (Bytes.after?_eq_some.1 h₅) h₆
        exact ⟨o, s₆, hs, by simp [Opening.header, hm, ho, hs]⟩
      · simp only [hd, beq_iff_eq, Bool.or_eq_true, hq, ↓reduceIte, guard, Option.pure_def,
          Option.failure_eq_none, Option.ite_none_right_eq_some, Option.bind_eq_some_iff,
          Option.some.injEq] at hs
        obtain ⟨_, ⟨hn, -⟩, s₅, rfl, s₆, h₆, rfl⟩ := hs
        obtain ⟨o, hm, ho, hs⟩ := opening_of_label none (.inl rfl) hd hn rfl h₆
        exact ⟨o, s₆, hs, by simp [Opening.header, hm, ho, hs]⟩
  · rintro ⟨o, rest, rfl, rfl⟩
    exact o.header?_text rest

theorem isName_ne_nil {label : Bytes} (h : isName label) : label ≠ [] := by
  rintro rfl
  simp [isName] at h

theorem header?_bounds {s : Bytes} {h : Header} (hs : header? s = some h) :
    0 < h.length ∧ h.length ≤ s.length ∧ isName h.label := by
  obtain ⟨o, rest, rfl, rfl⟩ := header?_eq_some.1 hs
  have : 0 < o.label.length := List.length_pos_iff.2 (isName_ne_nil o.name)
  simp only [Opening.header, Opening.text, List.length_append, o.name, and_true]
  omega

theorem closingLabel?_eq_some {label s : Bytes} {n : Nat} (h : closingLabel? label s = some n) :
    ∃ blanks rest : Bytes, s = blanks ++ label ++ rest ∧ blanks.all isBlank ∧
      rest.head?.all (!isNameChar ·) ∧ n = blanks.length + label.length := by
  simp only [closingLabel?, Option.bind_eq_bind, Option.bind_eq_some_iff, guard, Option.pure_def,
    Option.failure_eq_none, Option.ite_none_right_eq_some, Option.some.injEq] at h
  obtain ⟨rest, hr, _, ⟨hn, -⟩, rfl⟩ := h
  rw [Bytes.after?_eq_some] at hr
  have hs : s = s.takeWhile isBlank ++ label ++ rest := by
    rw [List.append_assoc, ← hr, List.takeWhile_append_dropWhile]
  refine ⟨s.takeWhile isBlank, rest, hs, by simp [List.all_takeWhile], hn, ?_⟩
  have := congrArg List.length hs
  simp only [List.length_append] at this
  omega

theorem closingLabel?_bounds {label s : Bytes} {n : Nat} (h : closingLabel? label s = some n) :
    label.length ≤ n ∧ n ≤ s.length := by
  obtain ⟨blanks, rest, rfl, -, -, rfl⟩ := closingLabel?_eq_some h
  simp only [List.length_append]
  omega

theorem nowdocBody_le {label s : Bytes} {lineStart : Bool} {n : Nat}
    (h : nowdocBody label lineStart s = some n) : n ≤ s.length := by
  induction s generalizing lineStart n with
  | nil => simp [nowdocBody] at h
  | cons c s ih =>
    rw [nowdocBody] at h
    split at h
    · next m hm =>
      cases h
      split_ifs at hm
      exact (closingLabel?_bounds hm).2
    · obtain ⟨m, hm, rfl⟩ := Option.map_eq_some_iff.1 h
      simpa using ih hm

theorem literal_le (stop : Bool → Bytes → Bool) (lineStart : Bool) (s : Bytes) :
    literal stop lineStart s ≤ s.length := by
  fun_induction literal stop lineStart s <;> simp_all

theorem literal_pos {stop : Bool → Bytes → Bool} {lineStart : Bool} {c d : UInt8} {s : Bytes}
    (hs : stop lineStart (c :: d :: s) = false) (hi : startsInterpolation (c :: d :: s) = false) :
    0 < literal stop lineStart (c :: d :: s) := by
  rw [literal]
  split_ifs <;> simp_all

theorem indexKey?_bounds {s : Bytes} {kind : Kind} {n : Nat} (h : indexKey? s = some (kind, n)) :
    0 < n ∧ n < s.length ∧ (s.drop n).head? = some rbracket := by
  simp only [indexKey?] at h
  split at h
  · next k m hk =>
    simp only [Option.ite_none_right_eq_some, beq_iff_eq, Option.some.injEq, Prod.mk.injEq] at h
    obtain ⟨hb, rfl, rfl⟩ := h
    have hlt : m < s.length := by
      by_contra hge
      rw [List.drop_eq_nil_of_le (by omega)] at hb
      simp at hb
    refine ⟨?_, hlt, hb⟩
    cases s with
    | nil => simp at hlt
    | cons c t =>
      simp only at hk
      split_ifs at hk with h₁ h₂ h₃
      · cases hk; omega
      · cases hk; omega
      · cases hk; exact nameChars_pos (by simpa [startsName] using h₃)
  · simp at h

theorem operator_bounds {s : Bytes} (hs : s ≠ []) : 0 < (operator s).2 ∧ (operator s).2 ≤ s.length := by
  have hpos : ∀ op ∈ operators, 0 < op.1.length := by decide
  rw [operator]
  split
  · next text kind hf =>
    exact ⟨hpos _ (List.mem_of_find?_eq_some hf),
      (Bytes.startsWith_eq_true.1 (by simpa using List.find?_some hf)).length_le⟩
  · exact ⟨Nat.one_pos, List.length_pos_iff.2 hs⟩

/-- The lengths are positive and stay within the text, one after the other. -/
def Fits : Bytes → List (Kind × Nat) → Prop
  | _, [] => True
  | s, (_, n) :: ks => 0 < n ∧ n ≤ s.length ∧ Fits (s.drop n) ks

def total (ks : List (Kind × Nat)) : Nat := (ks.map (·.2)).sum

@[simp] theorem total_nil : total [] = 0 := rfl

@[simp] theorem total_cons (k : Kind × Nat) (ks : List (Kind × Nat)) : total (k :: ks) = k.2 + total ks := by
  simp [total]

theorem Fits.total_le {s : Bytes} {ks : List (Kind × Nat)} (h : Fits s ks) : total ks ≤ s.length := by
  induction ks generalizing s with
  | nil => simp
  | cons k ks ih =>
    have := ih h.2.2
    rw [List.length_drop] at this
    have := h.2.1
    rw [total_cons]
    omega

theorem Fits.total_pos {s : Bytes} {ks : List (Kind × Nat)} (h : Fits s ks) (hne : ks ≠ []) :
    0 < total ks := by
  cases ks with
  | nil => contradiction
  | cons k ks => rw [total_cons]; exact Nat.add_pos_left h.1 _

theorem fits_single {s : Bytes} {kind : Kind} {n : Nat} (hp : 0 < n) (hn : n ≤ s.length) :
    Fits s [(kind, n)] :=
  ⟨hp, hn, trivial⟩

theorem fits_access {op t : Bytes} {kind : Kind} (ho : op ≠ []) (ht : startsName t) :
    Fits (op ++ t) [(kind, op.length), (.ident, nameChars t)] := by
  refine ⟨List.length_pos_iff.2 ho, by simp, ?_, ?_, trivial⟩
  · exact nameChars_pos ht
  · simpa using nameChars_le t

theorem fits_simpleSuffix (s : Bytes) : Fits s (simpleSuffix s) := by
  cases s with
  | nil => trivial
  | cons c t =>
    rw [simpleSuffix]
    split_ifs with hc
    · split
      · next key hk =>
        obtain ⟨hp, hlt, -⟩ := indexKey?_bounds hk
        refine ⟨Nat.one_pos, by simp, hp, by simpa using hlt.le, Nat.one_pos, ?_, trivial⟩
        rw [List.length_drop, List.drop_one, List.tail_cons]
        omega
      · trivial
    · split
      · next t ht =>
        rw [Bytes.after?_eq_some.1 ht]
        split_ifs with hn
        · exact fits_access (by decide) hn
        · trivial
      · split
        · next t ht =>
          rw [Bytes.after?_eq_some.1 ht]
          split_ifs with hn
          · exact fits_access (by decide) hn
          · trivial
        · trivial

end Token.Scan

end Stencil
