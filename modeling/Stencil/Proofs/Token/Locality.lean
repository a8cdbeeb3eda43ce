import Stencil.Proofs.Token.Move

/-! A lexeme does not depend on what follows it, as long as what follows cannot continue it. Every scanning
function answers alike in front of two texts when its answer stays within what is common to both and the second
text is inert. -/

namespace Stencil

namespace Bytes

theorem startsWith_append {lead s : Bytes} (h : lead.length ≤ s.length) (z : Bytes) :
    startsWith lead (s ++ z) = startsWith lead s := by
  rw [Bool.eq_iff_iff, startsWith_eq_true, startsWith_eq_true]
  exact ⟨fun hp => List.prefix_of_prefix_length_le hp (List.prefix_append s z) h,
    fun hp => hp.trans (List.prefix_append s z)⟩

theorem find?_append {needle s z : Bytes} {n : Nat} (z' : Bytes) (h : find? needle (s ++ z) = some n)
    (hn : n + needle.length ≤ s.length) (hne : needle ≠ []) : find? needle (s ++ z') = some n := by
  have hpos := List.length_pos_iff.2 hne
  induction s generalizing n with
  | nil =>
    rw [List.length_nil] at hn
    omega
  | cons c s ih =>
    rw [List.cons_append, find?] at h ⊢
    rw [← List.cons_append, startsWith_append (by omega)] at h ⊢
    split_ifs at h ⊢ with hs
    · exact h
    · obtain ⟨m, hm, rfl⟩ := Option.map_eq_some_iff.1 h
      rw [List.length_cons] at hn
      rw [ih hm (by omega)]
      rfl

theorem countWhile_append {q : UInt8 → Bool} {s z z' : Bytes} (hn : countWhile q (s ++ z) ≤ s.length)
    (hz : countWhile q (s ++ z) = s.length → z'.head?.all (!q ·)) :
    countWhile q (s ++ z') = countWhile q (s ++ z) := by
  induction s with
  | nil =>
    have h₀ : countWhile q ([] ++ z) = 0 := Nat.le_zero.1 hn
    rw [h₀]
    have hz := hz h₀
    cases z' with
    | nil => rfl
    | cons c z' =>
      simp only [List.head?_cons, Option.all_some, Bool.not_eq_true'] at hz
      simp [countWhile_cons, hz]
  | cons c s ih =>
    simp only [List.cons_append, countWhile_cons, List.length_cons] at hn hz ⊢
    split_ifs at hn hz ⊢ with hc
    · rw [ih (by omega) (fun h => hz (by omega))]
    · rfl

theorem countWhile_stop {q : UInt8 → Bool} {x : UInt8} (hx : q x = false) (a y y' : Bytes) :
    countWhile q (a ++ x :: y) = countWhile q (a ++ x :: y') := by
  induction a with
  | nil => simp [countWhile_cons, hx]
  | cons c a ih => simp only [List.cons_append, countWhile_cons, ih]

theorem countWhile_stop_le {q : UInt8 → Bool} {x : UInt8} (hx : q x = false) (a y : Bytes) :
    countWhile q (a ++ x :: y) ≤ a.length := by
  induction a with
  | nil => simp [countWhile_cons, hx]
  | cons c a ih =>
    simp only [List.cons_append, countWhile_cons, List.length_cons]
    split_ifs <;> omega

theorem after?_stop {lead : Bytes} {x : UInt8} (hx : x ∉ lead) (a y : Bytes) :
    after? lead (a ++ x :: y) = (after? lead a).map (· ++ x :: y) := by
  induction lead generalizing a with
  | nil => rfl
  | cons b lead ih =>
    simp only [List.mem_cons, not_or] at hx
    cases a with
    | nil => simp [after?, Ne.symm hx.1]
    | cons c a =>
      simp only [List.cons_append, after?]
      split_ifs
      · exact ih hx.2 a
      · rfl

end Bytes

namespace Token.Scan

open Ascii

/-- Text that cannot continue what stands before it: a round bracket, possibly after a space, or a space before
a colon. -/
inductive Inert : Bytes → Prop where
  | bracket (b : UInt8) (s : Bytes) : b = 0x28 ∨ b = 0x29 → Inert (b :: s)
  | spaced (s : Bytes) : Inert (space :: colon :: s)

theorem Inert.head {z : Bytes} (hz : Inert z) : ∃ b s, z = b :: s ∧ (b = 0x28 ∨ b = 0x29 ∨ b = space) := by
  cases hz with
  | bracket b s hb => exact ⟨b, s, rfl, by tauto⟩
  | spaced s => exact ⟨space, colon :: s, rfl, by tauto⟩

theorem Inert.head_not {z : Bytes} (hz : Inert z) {q : UInt8 → Bool}
    (hq : q 0x28 = false ∧ q 0x29 = false ∧ q space = false) : z.head?.all (!q ·) := by
  obtain ⟨b, s, rfl, rfl | rfl | rfl⟩ := hz.head <;> simp [hq]

/-- What is asked about the next byte is answered alike when no inert text starts with such a byte and the
answer is not read off `y`. -/
theorem Inert.and_any_head {z : Bytes} (hz : Inert z) {q : UInt8 → Bool}
    (hq : q 0x28 = false ∧ q 0x29 = false ∧ q space = false) {s y : Bytes} {p : Bool}
    (h : p && (s ++ y).head?.any q → s ≠ []) : (p && (s ++ z).head?.any q) = (p && (s ++ y).head?.any q) := by
  cases s with
  | nil =>
    have hy : (p && y.head?.any q) = false := by simpa using h
    obtain ⟨b, t, rfl, rfl | rfl | rfl⟩ := hz.head <;> simp [hq, hy]
  | cons c s => rfl

/-- A text that neither holds a byte of an inert one, a space apart, nor ends in a space does not reach into it. -/
theorem Inert.prefix_of_append {p z t r : Bytes} (hz : Inert z) (h : p ++ z = t ++ r)
    (ht : ∀ c ∈ t, c ≠ 0x28 ∧ c ≠ 0x29 ∧ c ≠ colon) (hlast : t.getLast? ≠ some space) : t <+: p := by
  rcases List.append_eq_append_iff.1 h with ⟨u, rfl, rfl⟩ | ⟨u, rfl, -⟩
  · cases u with
    | nil => simp
    | cons c u =>
      exfalso
      have hc := ht c (by simp)
      generalize hv : c :: u ++ r = v at hz
      cases hz with
      | bracket b s hb => grind
      | spaced s =>
        cases u with
        | nil =>
          rw [List.getLast?_append] at hlast
          simp_all
        | cons d u =>
          have := ht d (by simp)
          simp_all
  · exact List.prefix_append t u

theorem head?_beq (s : Bytes) (c : UInt8) : (s.head? == some c) = s.head?.any (· == c) := by cases s <;> rfl

theorem startsName_eq (s : Bytes) : startsName s = s.head?.any isNameStart := by cases s <;> rfl

theorem startsDigit_eq (s : Bytes) : startsDigit s = s.head?.any isDigit := by cases s <;> rfl

theorem startsName_append {s z : Bytes} (hs : s ≠ []) (z' : Bytes) :
    startsName (s ++ z') = startsName (s ++ z) := by
  cases s with
  | nil => contradiction
  | cons c s => rfl

theorem startsDigit_append {s z : Bytes} (hs : s ≠ []) (z' : Bytes) :
    startsDigit (s ++ z') = startsDigit (s ++ z) := by
  cases s with
  | nil => contradiction
  | cons c s => rfl

theorem Inert.not_startsName {z : Bytes} (hz : Inert z) : startsName z = false := by
  obtain ⟨b, s, rfl, rfl | rfl | rfl⟩ := hz.head <;> rfl

theorem Inert.not_startsDigit {z : Bytes} (hz : Inert z) : startsDigit z = false := by
  obtain ⟨b, s, rfl, rfl | rfl | rfl⟩ := hz.head <;> rfl

theorem nameChars_append {s z z' : Bytes} (hz : Inert z') (hn : nameChars (s ++ z) ≤ s.length) :
    nameChars (s ++ z') = nameChars (s ++ z) :=
  Bytes.countWhile_append hn fun _ => hz.head_not (by decide)

theorem qualifiedName_append {s z z' : Bytes} (hz : Inert z') (hn : qualifiedName (s ++ z) ≤ s.length) :
    qualifiedName (s ++ z') = qualifiedName (s ++ z) := by
  induction s with
  | nil =>
    rw [Nat.le_zero.1 hn, List.nil_append]
    obtain ⟨b, s, rfl, rfl | rfl | rfl⟩ := hz.head <;> rfl
  | cons c s ih =>
    simp only [List.cons_append, qualifiedName, List.length_cons] at hn ⊢
    by_cases hc : isNameChar c
    · simp only [hc, Bool.true_or, if_true] at hn ⊢
      rw [ih (by omega)]
    simp only [hc, Bool.false_or] at hn ⊢
    cases s with
    | nil =>
      -- a separator before a name would take the first byte of `z` as well
      have hnot : (c == backslash && startsName z) = false := by
        by_contra h
        rw [Bool.not_eq_false] at h
        simp only [List.nil_append, h, if_true, List.length_nil] at hn
        simp only [Bool.and_eq_true] at h
        cases z with
        | nil => simp [startsName] at h
        | cons d z =>
          have : 0 < qualifiedName (d :: z) := qualifiedName_pos (by simpa [startsName] using Or.inl h.2)
          omega
      simp [hz.not_startsName, hnot]
    | cons d s =>
      rw [startsName_append (List.cons_ne_nil d s) (z := z)]
      by_cases h : c == backslash && startsName (d :: s ++ z)
      · rw [if_pos h] at hn ⊢
        rw [if_pos h, ih (by omega)]
      · rw [if_neg h, if_neg h]

theorem numberFrom_pos {s : Bytes} (h : startsDigit s) (hex : Bool) (prev : Option UInt8) (pointSeen : Bool) :
    0 < numberFrom hex prev pointSeen s := by
  cases s with
  | nil => simp [startsDigit] at h
  | cons d s =>
    have hd : isNameChar d = true := by simp_all [startsDigit, isNameChar]
    simp [numberFrom, hd]

theorem Inert.numberFrom_eq {z : Bytes} (hz : Inert z) (hex : Bool) (prev : Option UInt8) (pointSeen : Bool) :
    numberFrom hex prev pointSeen z = 0 := by
  obtain ⟨b, s, rfl, rfl | rfl | rfl⟩ := hz.head <;> rfl

theorem numberFrom_append {hex : Bool} {s z z' : Bytes} (hz : Inert z') {prev : Option UInt8} {pointSeen : Bool}
    (hn : numberFrom hex prev pointSeen (s ++ z) ≤ s.length) :
    numberFrom hex prev pointSeen (s ++ z') = numberFrom hex prev pointSeen (s ++ z) := by
  induction s generalizing prev pointSeen with
  | nil =>
    rw [Nat.le_zero.1 hn]
    exact hz.numberFrom_eq hex prev pointSeen
  | cons c s ih =>
    simp only [List.cons_append, numberFrom, List.length_cons] at hn ⊢
    by_cases hc : isNameChar c
    · rw [if_pos hc] at hn
      rw [if_pos hc, if_pos hc, ih (by omega)]
    rw [if_neg hc] at hn
    rw [if_neg hc, if_neg hc]
    cases s with
    | nil =>
      -- a point or a sign counts only before a digit, which would be the first byte of `z`
      simp only [List.nil_append, List.length_nil, hz.not_startsDigit] at hn ⊢
      by_cases h₁ : c == dot && startsDigit z && !pointSeen
      · rw [if_pos h₁] at hn
        simp only [Bool.and_eq_true] at h₁
        have := numberFrom_pos h₁.1.2 hex (some c) true
        omega
      rw [if_neg h₁] at hn ⊢
      by_cases h₂ : (c == plus || c == minus) && !hex && (prev == some 0x65 || prev == some 0x45) && startsDigit z
      · rw [if_pos h₂] at hn
        simp only [Bool.and_eq_true] at h₂
        have := numberFrom_pos h₂.2 hex (some c) pointSeen
        omega
      rw [if_neg h₂]
      simp
    | cons d s =>
      rw [startsDigit_append (List.cons_ne_nil d s) (z := z)]
      split_ifs at hn ⊢
      · rw [ih (by omega)]
      · rw [ih (by omega)]
      · rfl

theorem number_append {s z z' : Bytes} (hz : Inert z') (hn : number (s ++ z) ≤ s.length) :
    number (s ++ z') = number (s ++ z) := by
  unfold number at hn ⊢
  rcases s with _ | ⟨c, _ | ⟨d, s⟩⟩
  · rw [Nat.le_zero.1 hn]
    exact hz.numberFrom_eq ..
  · -- one byte is read alike whether or not the number is hexadecimal
    have hone (hex : Bool) : numberFrom hex none false ([c] ++ z') = if isNameChar c then 1 else 0 := by
      simp [numberFrom, hz.numberFrom_eq, hz.not_startsDigit]
    rw [← numberFrom_append hz hn, hone, hone]
  · exact numberFrom_append hz hn

theorem operator_append {s z z' : Bytes} (hz : Inert z') (hs : s ≠ []) (hn : (operator (s ++ z)).2 ≤ s.length) :
    operator (s ++ z') = operator (s ++ z) := by
  have hbytes : ∀ op ∈ operators, ∀ c ∈ op.1.drop 1, c ≠ 0x28 ∧ c ≠ 0x29 ∧ c ≠ space := by
    have hall : operators.all (fun op => (op.1.drop 1).all fun c => c != 0x28 && (c != 0x29 && c != space)) := rfl
    simpa only [List.all_eq_true, Bool.and_eq_true, bne_iff_ne] using hall
  -- no operator reaches into inert text
  have hshort (op : Bytes × Kind) (ho : op ∈ operators) (h : Bytes.startsWith op.1 (s ++ z')) : op.1 <+: s := by
    obtain ⟨r, hr⟩ := Bytes.startsWith_eq_true.1 h
    rcases List.append_eq_append_iff.1 hr with ⟨u, rfl, -⟩ | ⟨u, hu, rfl⟩
    · exact List.prefix_append ..
    · cases u with
      | nil => simp [hu]
      | cons c u =>
        exfalso
        obtain ⟨b, t, hb, hc⟩ := hz.head
        have := hbytes op ho c (by
          rw [hu, List.drop_append_of_le_length (List.length_pos_iff.2 hs)]
          simp)
        simp only [List.cons_append, List.cons.injEq] at hb
        grind
  have hlift (op : Bytes × Kind) (ho : op ∈ operators) (h : Bytes.startsWith op.1 (s ++ z')) :
      Bytes.startsWith op.1 (s ++ z) :=
    Bytes.startsWith_eq_true.2 ((hshort op ho h).trans (List.prefix_append ..))
  unfold operator at hn ⊢
  cases hf : operators.find? fun op => Bytes.startsWith op.1 (s ++ z) with
  | none =>
    have hnone : (operators.find? fun op => Bytes.startsWith op.1 (s ++ z')) = none := by
      rw [List.find?_eq_none] at hf ⊢
      exact fun op ho h => hf op ho (hlift op ho h)
    rw [hnone]
  | some op =>
    rw [hf] at hn
    obtain ⟨h, before, after, hops, hbefore⟩ := List.find?_eq_some_iff_append.1 hf
    have hsome : (operators.find? fun op => Bytes.startsWith op.1 (s ++ z')) = some op := by
      refine List.find?_eq_some_iff_append.2 ⟨?_, before, after, hops, fun o ho => ?_⟩
      · rw [Bytes.startsWith_append hn] at h ⊢
        exact h
      · have := hbefore o ho
        simp only [Bool.not_eq_true'] at this ⊢
        by_contra hc
        rw [hlift o (by simp [hops, ho]) (by simpa using hc)] at this
        cases this
    rw [hsome]

theorem quoted_pos {delim : UInt8} {s : Bytes} {n : Nat} {i : Bool} (h : quoted delim s = some (n, i)) :
    0 < n := by
  unfold quoted at h
  split at h
  · cases h
  · rw [Option.ite_none_right_eq_some] at h
    cases h.2
    omega
  · split_ifs at h
    · obtain ⟨⟨m, j⟩, -, hm⟩ := Option.map_eq_some_iff.1 h
      cases hm
      omega
    · cases h
      omega
    · obtain ⟨⟨m, j⟩, -, hm⟩ := Option.map_eq_some_iff.1 h
      cases hm
      omega

theorem quoted_append {delim : UInt8} {s : Bytes} {r : Nat × Bool} (hd : delim ≠ backslash)
    (h : quoted delim s = some r) (z : Bytes) : quoted delim (s ++ z) = some r := by
  fun_induction quoted delim s generalizing r with
  | case1 => cases h
  | case2 c hc =>
    have hb : (c == backslash) = false := by simp_all
    cases z <;> simp [quoted, hc, hb, ← h]
  | case3 => cases h
  | case4 c d s hc ih =>
    obtain ⟨m, hm, rfl⟩ := Option.map_eq_some_iff.1 h
    simp [quoted, hc, ih hm]
  | case5 c d s hc hq => simpa [quoted, hc, hq] using h
  | case6 c d s hc hq ih =>
    obtain ⟨m, hm, rfl⟩ := Option.map_eq_some_iff.1 h
    simp only [List.cons_append] at ih
    simp [quoted, hc, hq, ih hm, startsInterpolation]

theorem quoted_of_append {delim : UInt8} {s z : Bytes} {n : Nat} {i : Bool} (hd : delim ≠ backslash)
    (h : quoted delim (s ++ z) = some (n, i)) (hn : n ≤ s.length) : quoted delim s = some (n, i) := by
  fun_induction quoted delim s generalizing n i with
  | case1 => exact absurd (quoted_pos h) (by simpa using hn)
  | case2 c hc =>
    rw [← h]
    exact (quoted_append hd (by simp [quoted, hc]) z).symm
  | case3 c hc =>
    exfalso
    rw [List.length_singleton] at hn
    cases z with
    | nil => simp [quoted, hc] at h
    | cons d z =>
      rw [List.singleton_append, quoted, if_neg hc] at h
      split_ifs at h
      · obtain ⟨⟨m, j⟩, -, hm⟩ := Option.map_eq_some_iff.1 h
        cases hm
        omega
      · obtain ⟨⟨m, j⟩, hq, hm⟩ := Option.map_eq_some_iff.1 h
        cases hm
        have := quoted_pos hq
        omega
  | case4 c d s hc ih =>
    simp only [List.cons_append, quoted, hc, if_true] at h
    obtain ⟨⟨m, j⟩, hq, hm⟩ := Option.map_eq_some_iff.1 h
    cases hm
    simp only [List.length_cons] at hn
    rw [ih hq (by omega)]
    rfl
  | case5 c d s hc hq => simpa [quoted, hc, hq] using h
  | case6 c d s hc hq ih =>
    simp only [List.cons_append, quoted, hc, hq] at h ih
    obtain ⟨⟨m, j⟩, hq, hm⟩ := Option.map_eq_some_iff.1 h
    cases hm
    simp only [List.length_cons] at hn ih
    rw [ih hq (by omega)]
    rfl

theorem singleQuoted_eq (s : Bytes) : singleQuoted s = (quoted singleQuote s).map (·.1) := by
  fun_induction singleQuoted s <;> simp_all [quoted, Function.comp_def]

theorem singleQuoted_append {s z : Bytes} {n : Nat} (z' : Bytes) (h : singleQuoted (s ++ z) = some n)
    (hn : n ≤ s.length) : singleQuoted (s ++ z') = some n := by
  rw [singleQuoted_eq] at h ⊢
  obtain ⟨⟨m, i⟩, hq, rfl⟩ := Option.map_eq_some_iff.1 h
  rw [quoted_append (by decide) (quoted_of_append (by decide) hq hn) z']
  rfl

theorem isName_all {label : Bytes} (h : isName label) : ∀ c ∈ label, isNameChar c := by
  cases label with
  | nil => simp
  | cons d l =>
    simp only [isName, Bool.and_eq_true, List.all_eq_true] at h
    exact List.forall_mem_cons.2 ⟨by simp [isNameChar, h.1], h.2⟩

theorem ne_of_class {q : UInt8 → Bool} (hq : q 0x28 = false ∧ q 0x29 = false ∧ q colon = false) {c : UInt8}
    (hc : q c) : c ≠ 0x28 ∧ c ≠ 0x29 ∧ c ≠ colon := by
  refine ⟨?_, ?_, ?_⟩ <;> rintro rfl <;> simp [hq] at hc

def isOpeningByte (c : UInt8) : Bool :=
  isBlank c || isNameChar c || c == less || c == doubleQuote || c == singleQuote || c == carriageReturn ||
    c == newline

theorem Opening.forall_mem_text (o : Opening) : ∀ c ∈ o.text, c ≠ 0x28 ∧ c ≠ 0x29 ∧ c ≠ colon := by
  have hmark : ∀ c ∈ o.mark.toList, c = doubleQuote ∨ c = singleQuote := by
    rcases o.quote with h | h | h <;> simp [h]
  intro c hc
  refine ne_of_class (q := isOpeningByte) (by decide) ?_
  simp only [text, List.mem_append] at hc
  rcases hc with ((((hc | hc) | hc) | hc) | hc) | hc
  · rw [List.eq_of_mem_replicate (n := 3) hc]
    rfl
  · simp [isOpeningByte, List.all_eq_true.1 o.blank c hc]
  · rcases hmark c hc with rfl | rfl <;> rfl
  · simp [isOpeningByte, isName_all o.name c hc]
  · rcases hmark c hc with rfl | rfl <;> rfl
  · rcases o.ending with h | h <;> simp only [h, List.mem_cons, List.not_mem_nil, or_false] at hc
    · rw [hc]
      rfl
    · rcases hc with rfl | rfl <;> rfl

theorem Opening.getLast?_text (o : Opening) : o.text.getLast? = some newline := by
  unfold Opening.text
  rcases o.ending with h | h <;> simp [h]

theorem header?_append_none {s z z' : Bytes} (hz : Inert z') (h : header? (s ++ z) = none) :
    header? (s ++ z') = none := by
  by_contra hc
  obtain ⟨header, hh⟩ := Option.ne_none_iff_exists'.1 hc
  obtain ⟨o, r, hs, -⟩ := header?_eq_some.1 hh
  obtain ⟨u, rfl⟩ := hz.prefix_of_append hs o.forall_mem_text (by simp [o.getLast?_text]; decide)
  rw [List.append_assoc, o.header?_text] at h
  cases h

theorem header?_append {s z : Bytes} {h : Header} (z' : Bytes) (hs : header? (s ++ z) = some h)
    (hn : h.length ≤ s.length) : header? (s ++ z') = some h := by
  obtain ⟨o, r, ho, rfl⟩ := header?_eq_some.1 hs
  obtain ⟨u, rfl⟩ : o.text <+: s :=
    List.prefix_of_prefix_length_le ⟨r, ho.symm⟩ (List.prefix_append s z) hn
  rw [List.append_assoc, o.header?_text]

theorem closingLabel?_text {label blanks rest : Bytes} (hl : isName label) (hb : blanks.all isBlank)
    (hr : rest.head?.all (!isNameChar ·)) :
    closingLabel? label (blanks ++ label ++ rest) = some (blanks.length + label.length) := by
  have hhead : (label ++ rest).head?.all (!isBlank ·) := by
    cases label with
    | nil => simp [isName] at hl
    | cons c l =>
      simp only [isName, Bool.and_eq_true] at hl
      simp [not_isBlank hl.1]
  have hafter : Bytes.after? label ((blanks ++ label ++ rest).dropWhile isBlank) = some rest := by
    rw [List.append_assoc, (dropWhile_append_of_all hb hhead).1]
    exact Bytes.after?_eq_some.2 rfl
  simp only [closingLabel?, hafter, Option.bind_eq_bind, Option.bind_some, hr, guard, if_true, Option.pure_def,
    List.length_append, Nat.add_sub_cancel]

theorem forall_mem_closing {blanks label : Bytes} (hb : blanks.all isBlank) (hl : isName label) :
    ∀ c ∈ blanks ++ label, (isBlank c || isNameChar c) = true := by
  intro c hc
  rcases List.mem_append.1 hc with hc | hc
  · simp [List.all_eq_true.1 hb c hc]
  · simp [isName_all hl c hc]

theorem closingLabel?_append {label s z z' : Bytes} {n : Nat} (hl : isName label) (hz : Inert z')
    (h : closingLabel? label (s ++ z) = some n) (hn : n ≤ s.length) :
    closingLabel? label (s ++ z') = some n := by
  obtain ⟨blanks, rest, hs, hb, hr, rfl⟩ := closingLabel?_eq_some h
  obtain ⟨u, rfl⟩ : blanks ++ label <+: s :=
    List.prefix_of_prefix_length_le ⟨rest, hs.symm⟩ (List.prefix_append s z) (by simpa using hn)
  rw [List.append_assoc]
  refine closingLabel?_text hl hb ?_
  cases u with
  | nil => exact hz.head_not (by decide)
  | cons c u =>
    rw [List.append_assoc, List.append_cancel_left_eq] at hs
    simpa [← hs] using hr

/-- A label that ends where the inert text starts may be followed by a name byte in the other text; then it
is the last line. -/
theorem closingLabel?_append_none {label s z z' : Bytes} (hl : isName label) (hz : Inert z')
    (h : closingLabel? label (s ++ z) = none) (hline : newline ∈ s) : closingLabel? label (s ++ z') = none := by
  by_contra hc
  obtain ⟨n, hn⟩ := Option.ne_none_iff_exists'.1 hc
  obtain ⟨blanks, rest, hs, hb, hr, rfl⟩ := closingLabel?_eq_some hn
  have hclass := forall_mem_closing hb hl
  obtain ⟨u, rfl⟩ := hz.prefix_of_append hs
    (fun c hc => ne_of_class (q := fun c => isBlank c || isNameChar c) (by decide) (hclass c hc)) (by
      rw [List.getLast?_append_of_ne_nil _ (isName_ne_nil hl)]
      intro hlast
      exact absurd (isName_all hl _ (List.mem_of_getLast? hlast)) (by decide))
  cases u with
  | nil =>
    rw [List.append_nil] at hline
    exact absurd (hclass _ hline) (by decide)
  | cons c u =>
    rw [List.append_assoc, List.append_cancel_left_eq] at hs
    have hr' : (c :: u ++ z).head?.all (!isNameChar ·) := by simpa [← hs] using hr
    rw [List.append_assoc, closingLabel?_text hl hb hr'] at h
    cases h

theorem closingLabel?_le_of_newline {label s z : Bytes} {n : Nat} (hl : isName label)
    (h : closingLabel? label (s ++ z) = some n) (hline : newline ∈ s) : n ≤ s.length := by
  obtain ⟨blanks, rest, hs, hb, -, rfl⟩ := closingLabel?_eq_some h
  by_contra hlt
  have hpre : s <+: blanks ++ label := List.prefix_of_prefix_length_le (List.prefix_append s z) ⟨rest, hs.symm⟩
    (by rw [List.length_append]; omega)
  exact absurd (forall_mem_closing hb hl _ (hpre.subset hline)) (by decide)

theorem nowdocBody_pos {label s : Bytes} {lineStart : Bool} {n : Nat} (hl : isName label)
    (h : nowdocBody label lineStart s = some n) : 0 < n := by
  cases s with
  | nil => cases h
  | cons c s =>
    rw [nowdocBody] at h
    split at h
    · next m hm =>
      cases h
      split_ifs at hm
      exact (List.length_pos_iff.2 (isName_ne_nil hl)).trans_le (closingLabel?_bounds hm).1
    · obtain ⟨m, -, rfl⟩ := Option.map_eq_some_iff.1 h
      omega

/-- From inside a line, the closing label is on a later one. -/
theorem nowdocBody_newline {label s z : Bytes} {n : Nat} (hl : isName label)
    (h : nowdocBody label false (s ++ z) = some n) (hn : n ≤ s.length) : newline ∈ s := by
  induction s generalizing n with
  | nil => exact absurd (nowdocBody_pos hl h) (by simpa using hn)
  | cons c s ih =>
    simp only [List.cons_append, nowdocBody, Bool.false_eq_true, if_false] at h
    obtain ⟨m, hm, rfl⟩ := Option.map_eq_some_iff.1 h
    by_cases hc : c = newline
    · simp [hc]
    · rw [beq_false_of_ne hc] at hm
      exact List.mem_cons_of_mem c (ih hm (by simpa using hn))

theorem nowdocBody_append {label s z z' : Bytes} {lineStart : Bool} {n : Nat} (hl : isName label) (hz : Inert z')
    (h : nowdocBody label lineStart (s ++ z) = some n) (hn : n ≤ s.length) :
    nowdocBody label lineStart (s ++ z') = some n := by
  induction s generalizing lineStart n with
  | nil => exact absurd (nowdocBody_pos hl h) (by simpa using hn)
  | cons c s ih =>
    rw [List.cons_append, nowdocBody] at h ⊢
    split at h
    · next m hm =>
      cases h
      split_ifs at hm with hstart
      rw [if_pos hstart, ← List.cons_append, closingLabel?_append hl hz hm hn]
    · next hnone =>
      obtain ⟨m, hm, rfl⟩ := Option.map_eq_some_iff.1 h
      have hle : m ≤ s.length := by simpa using hn
      have hline : newline ∈ c :: s := by
        by_cases hc : c = newline
        · simp [hc]
        · rw [beq_false_of_ne hc] at hm
          exact List.mem_cons_of_mem c (nowdocBody_newline hl hm hle)
      have hnone' : (if lineStart then closingLabel? label (c :: (s ++ z')) else none) = none := by
        split_ifs at hnone ⊢
        · exact closingLabel?_append_none hl hz hnone hline
        · rfl
      rw [hnone']
      simp only [ih hm hle, Option.map_some]

/-- The literal text ends at the same place when no earlier place becomes a stop and the place itself remains
one. -/
theorem literal_append {stop : Bool → Bytes → Bool} {s z z' : Bytes} {lineStart : Bool}
    (hn : literal stop lineStart (s ++ z) < s.length)
    (hgo : ∀ i < literal stop lineStart (s ++ z), ∀ l, stop l (s.drop i ++ z) = false →
      stop l (s.drop i ++ z') = false)
    (hstop : ∀ l, stop l (s.drop (literal stop lineStart (s ++ z)) ++ z) = true →
      stop l (s.drop (literal stop lineStart (s ++ z)) ++ z') = true)
    (hlast : ∀ x, s.drop (literal stop lineStart (s ++ z)) = [x] → x ≠ dollar ∧ x ≠ lbrace) :
    literal stop lineStart (s ++ z') = literal stop lineStart (s ++ z) := by
  induction s using List.twoStepInduction generalizing lineStart with
  | nil => simp at hn
  | singleton c =>
    have hzero : literal stop lineStart ([c] ++ z) = 0 := Nat.lt_one_iff.1 hn
    rw [hzero] at hstop hlast ⊢
    have hx := hlast c rfl
    have hnot (y : Bytes) : startsInterpolation (c :: y) = false := by
      cases y <;> simp [startsInterpolation, hx]
    have hz : stop lineStart ([c] ++ z) = true := by
      by_contra hs
      rw [Bool.not_eq_true] at hs
      cases z with
      | nil => simp [literal] at hzero hs; simp [hs] at hzero
      | cons d z =>
        have := literal_pos hs (hnot (d :: z))
        simp only [List.singleton_append] at hzero
        omega
    have hz' : stop lineStart ([c] ++ z') = true := hstop lineStart hz
    cases z' <;> simp_all [literal]
  | cons_cons c d t ih₂ ih₁ =>
    have hi : startsInterpolation (c :: d :: (t ++ z')) = startsInterpolation (c :: d :: (t ++ z)) := rfl
    simp only [List.cons_append, literal] at hn hgo hstop hlast ⊢
    by_cases h₀ : stop lineStart (c :: d :: (t ++ z)) || startsInterpolation (c :: d :: (t ++ z))
    · rw [if_pos h₀] at hstop ⊢
      refine if_pos ?_
      simp only [Bool.or_eq_true, hi] at h₀ ⊢
      exact h₀.imp_left (hstop lineStart)
    rw [if_neg h₀] at hn hgo hstop hlast ⊢
    simp only [Bool.or_eq_true, not_or, Bool.not_eq_true] at h₀
    by_cases hb : c == backslash
    · rw [if_pos hb] at hn hgo hstop hlast ⊢
      have h₀' := hgo 0 (by omega) lineStart h₀.1
      simp only [List.drop_zero, List.cons_append] at h₀'
      rw [if_neg (by simp [h₀', hi, h₀.2]), if_pos hb]
      simp only [List.drop_succ_cons] at hstop hlast
      rw [ih₂ (by simpa using hn) (fun i hlt l => ?_) hstop hlast]
      simpa using hgo (i + 2) (by omega) l
    · rw [if_neg hb] at hn hgo hstop hlast ⊢
      have h₀' := hgo 0 (by omega) lineStart h₀.1
      simp only [List.drop_zero, List.cons_append] at h₀'
      rw [if_neg (by simp [h₀', hi, h₀.2]), if_neg hb]
      simp only [List.drop_succ_cons] at hstop hlast
      have := @ih₁ d (c == newline) (by simpa using hn) (fun i hlt l => ?_) hstop hlast
      · simpa using this
      · simpa using hgo (i + 1) (by simpa using hlt) l

def isSuffixByte (c : UInt8) : Bool :=
  isNameChar c || c == lbracket || c == rbracket || c == dollar || c == minus || c == greater || c == 0x3f

theorem startsName_stop (a y y' : Bytes) (x : UInt8) : startsName (a ++ x :: y) = startsName (a ++ x :: y') := by
  cases a <;> rfl

theorem head?_drop_stop {a : Bytes} {n : Nat} (hn : n ≤ a.length) (x : UInt8) (y y' : Bytes) :
    ((a ++ x :: y).drop n).head? = ((a ++ x :: y').drop n).head? := by
  rw [List.drop_append_of_le_length hn, List.drop_append_of_le_length hn]
  cases a.drop n <;> rfl

theorem indexKey?_stop {x : UInt8} (hx : isSuffixByte x = false) (a y y' : Bytes) :
    indexKey? (a ++ x :: y) = indexKey? (a ++ x :: y') := by
  simp only [isSuffixByte, isNameChar, Bool.or_eq_false_iff, beq_eq_false_iff_ne] at hx
  cases a with
  | nil => simp_all [indexKey?]
  | cons c a =>
    have hname : isNameChar x = false := by simp [isNameChar, hx]
    have hdigit : isDigit x = false := hx.1.1.1.1.1.1.2
    -- the key ends before `x`, so `x` or an earlier byte tells whether the bracket closes
    have hclose {n : Nat} (hn : n ≤ a.length + 1) : ((c :: (a ++ x :: y)).drop n).head? =
        ((c :: (a ++ x :: y')).drop n).head? := head?_drop_stop (a := c :: a) hn x y y'
    have hle₁ := Bytes.countWhile_stop_le hname a y'
    have hle₂ := Bytes.countWhile_stop_le hdigit a y'
    simp only [indexKey?, List.cons_append, startsName_stop a y y', nameChars, Bytes.countWhile_cons,
      Bytes.countWhile_stop hname a y y', Bytes.countWhile_stop hdigit a y y']
    split_ifs
    · simp only [hclose (Nat.succ_le_succ hle₁)]
    · simp only [hclose (Nat.succ_le_succ hle₂)]
    · simp only [hclose (Nat.succ_le_succ hle₁)]
    · simp only [hclose (Nat.zero_le _)]
    · rfl

theorem simpleSuffix_stop {x : UInt8} (hx : isSuffixByte x = false) (a y y' : Bytes) :
    simpleSuffix (a ++ x :: y) = simpleSuffix (a ++ x :: y') := by
  have hop {op : Bytes} (h : ∀ c ∈ op, isSuffixByte c) : x ∉ op := fun hmem => by simp [h x hmem] at hx
  have hname : isNameChar x = false := by
    simp only [isSuffixByte, Bool.or_eq_false_iff] at hx
    tauto
  have haccess (kind : Kind) (op : Nat) (t : Bytes) :
      (if startsName (t ++ x :: y) then [(kind, op), (.ident, nameChars (t ++ x :: y))] else []) =
        if startsName (t ++ x :: y') then [(kind, op), (.ident, nameChars (t ++ x :: y'))] else [] := by
    rw [startsName_stop t y y' x, nameChars, nameChars, Bytes.countWhile_stop hname t y y']
  have hafter (op : Bytes) (h : ∀ c ∈ op, isSuffixByte c) (y : Bytes) :
      Bytes.after? op (a ++ x :: y) = (Bytes.after? op a).map (· ++ x :: y) := Bytes.after?_stop (hop h) a y
  have h₁ := hafter "->" (List.all_eq_true.1 rfl)
  have h₂ := hafter "?->" (List.all_eq_true.1 rfl)
  cases a with
  | nil =>
    have hb : x ≠ lbracket := by rintro rfl; cases hx
    simp only [List.nil_append] at h₁ h₂
    simp only [simpleSuffix, List.nil_append, beq_false_of_ne hb, h₁, h₂]
    rfl
  | cons c a =>
    simp only [List.cons_append] at h₁ h₂
    simp only [simpleSuffix, List.cons_append, indexKey?_stop hx a y y', h₁, h₂]
    split_ifs
    · rfl
    · cases Bytes.after? "->" (c :: a) with
      | some t => exact haccess .objectOp 2 t
      | none =>
        cases Bytes.after? "?->" (c :: a) with
        | some t => exact haccess .nullsafeOp 3 t
        | none => rfl

end Token.Scan

end Stencil
