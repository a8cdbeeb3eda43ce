import Stencil.Proofs.Token.Closing

/-! A part of a source that starts and ends in top-level code is read alike wherever it stands. Each step of its
reading is made again in front of the other text; what a step needs to see further ahead lies within the
part, since the part closes all that it opens. -/

namespace Stencil.Token

open Ascii

namespace Scan

theorem two_le_lineComment {s : Bytes} (hs : s.head?.any (· == slash)) :
    2 ≤ Bytes.countWhile (· != newline) (slash :: s) := by
  have hslash : (slash != newline) = true := rfl
  cases s with
  | nil => simp at hs
  | cons c s =>
    have hc : c = slash := by simpa using hs
    simp [Bytes.countWhile_cons, hc, hslash]

theorem two_le_qualifiedName {s : Bytes} (hs : s.head?.any isNameStart) : 2 ≤ qualifiedName (backslash :: s) := by
  rw [← startsName_eq] at hs
  have : 0 < qualifiedName s := by
    cases s with
    | nil => simp [startsName] at hs
    | cons c s => exact qualifiedName_pos (by simpa [startsName] using Or.inl hs)
  rw [qualifiedName, if_pos (by simp [hs])]
  omega

theorem two_le_number {s : Bytes} (hs : s.head?.any isDigit) : 2 ≤ number (dot :: s) := by
  rw [← startsDigit_eq] at hs
  have hdot : isNameChar dot = false := rfl
  have : 0 < numberFrom (isHex (dot :: s)) (some dot) true s := numberFrom_pos hs ..
  rw [number, numberFrom, if_neg (by simp [hdot]), if_pos (by simp [hs])]
  omega

/-- A comment that ends before a variable would have to end inside its line. -/
theorem countWhile_lt_of_dollar {s z : Bytes} (hz : z.head? = some dollar) :
    Bytes.countWhile (· != newline) (s ++ z) ≠ s.length := by
  induction s with
  | nil =>
    cases z with
    | nil => simp at hz
    | cons c z =>
      cases (Option.some.inj hz)
      simp [Bytes.countWhile_cons, show (dollar != newline) = true from rfl]
  | cons c s ih =>
    simp only [List.cons_append, Bytes.countWhile_cons, List.length_cons]
    split_ifs <;> omega

def isLineComment : Bytes → Bool
  | b :: s => b == Ascii.hash || (b == slash && s.head?.any (· == slash))
  | [] => false

theorem isLineComment_of_append {b : UInt8} {s z : Bytes}
    (h : b == Ascii.hash || (b == slash && (s ++ z).head?.any (· == slash)))
    (hlen : Bytes.countWhile (· != newline) (b :: s ++ z) = (b :: s).length) : isLineComment (b :: s) := by
  rcases Bool.or_eq_true_iff.mp h with hb | hb
  · rw [isLineComment, hb, Bool.true_or]
  · obtain ⟨hslash, hnext⟩ := Bool.and_eq_true_iff.mp hb
    cases s with
    | nil =>
      have htwo := two_le_lineComment hnext
      rw [eq_of_beq hslash, List.singleton_append, List.length_singleton] at hlen
      rw [List.nil_append] at htwo
      omega
    | cons c s =>
      rw [isLineComment, hslash, Bool.true_and, Bool.or_eq_true]
      exact .inr hnext

theorem spaces_append {b : UInt8} {s z z' : Bytes} (hle : Bytes.countWhile isSpace (b :: (s ++ z)) ≤ (b :: s).length)
    (hends : Bytes.countWhile isSpace (b :: (s ++ z)) = (b :: s).length → ∀ c ∈ z'.head?, isSpace c = false) :
    Bytes.countWhile isSpace (b :: (s ++ z')) = Bytes.countWhile isSpace (b :: (s ++ z)) := by
  rw [← List.cons_append] at hle hends
  refine Bytes.countWhile_append hle fun hlen => ?_
  simpa [Option.all_eq_true] using hends hlen

theorem lineComment_append {b : UInt8} {s z : Bytes} (z' : Bytes)
    (hopen : b == Ascii.hash || (b == slash && (s ++ z).head?.any (· == slash)))
    (hle : Bytes.countWhile (· != newline) (b :: (s ++ z)) ≤ (b :: s).length)
    (hends : Bytes.countWhile (· != newline) (b :: (s ++ z)) = (b :: s).length → isLineComment (b :: s) →
      z.head? = some dollar) :
    Bytes.countWhile (· != newline) (b :: (s ++ z')) = Bytes.countWhile (· != newline) (b :: (s ++ z)) := by
  rw [← List.cons_append] at hle hends
  refine Bytes.countWhile_append hle fun hlen => ?_
  exact absurd hlen (countWhile_lt_of_dollar (hends hlen (isLineComment_of_append hopen hlen)))

theorem blockComment_append {s z : Bytes} (z' : Bytes) {n : Nat}
    (hn : Bytes.find? "*/" ((s ++ z).drop 1) = some n) (hle : n + 3 ≤ s.length) :
    Bytes.find? "*/" ((s ++ z').drop 1) = some n := by
  cases s with
  | nil => simp at hle
  | cons c s =>
    rw [List.cons_append, List.drop_one, List.tail_cons] at hn ⊢
    have hle : n + 2 ≤ s.length := by simpa using hle
    exact Bytes.find?_append z' hn hle (by decide)

/-- The move at a double quote or a backtick: the whole of a plain string, or the start of one that interpolates. -/
def quotedMove (b : UInt8) (s : Bytes) : Except Problem Move :=
  match quoted b s with
  | none => .error .unterminatedString
  | some (n, false) => .ok ⟨[(.string, n + 1)], .stay⟩
  | some (_, true) => .ok ⟨[(.quote, 1)], .enterQuoted b⟩

theorem quotedMove_append {b : UInt8} {s z : Bytes} (z' : Bytes) {m : Move} (hm : quotedMove b (s ++ z) = .ok m)
    (hb : b ≠ backslash) (hle : total m.tokens ≤ (b :: s).length)
    (hquote : ∀ delim, m.effect = .enterQuoted delim → (quoted delim s).isSome) : quotedMove b (s ++ z') = .ok m := by
  rw [quotedMove] at hm ⊢
  split at hm
  next => cases hm
  next n hn =>
    cases hm
    rw [quoted_append hb (quoted_of_append hb hn (by simpa using hle))]
  next n hn =>
    cases hm
    obtain ⟨r, hr⟩ := Option.isSome_iff_exists.1 (hquote b rfl)
    rw [quoted_append hb hr] at hn ⊢
    cases hn
    rfl

/-- The move at a header: the whole of a nowdoc, or the start of a heredoc. -/
def headerMove (header : Header) (s : Bytes) : Except Problem Move :=
  if header.nowdoc then
    match nowdocBody header.label true (s.drop header.length) with
    | some n => .ok ⟨[(.string, header.length + n)], .stay⟩
    | none => .error (.unterminatedNowdoc header.label)
  else .ok ⟨[(.heredocStart, header.length)], .enterHeredoc header.label⟩

theorem length_le_of_headerMove {header : Header} {s : Bytes} {m : Move} (hm : headerMove header s = .ok m) :
    header.length ≤ total m.tokens := by
  rw [headerMove] at hm
  split_ifs at hm
  · split at hm <;> cases hm
    simp
  · cases hm
    simp

theorem headerMove_append {header : Header} {s z z' : Bytes} {m : Move} (hm : headerMove header (s ++ z) = .ok m)
    (hname : isName header.label) (hle : total m.tokens ≤ s.length) (hz : Inert z') : headerMove header (s ++ z') = .ok m := by
  have hlen := (length_le_of_headerMove hm).trans hle
  rw [headerMove] at hm ⊢
  split_ifs at hm ⊢
  · rw [List.drop_append_of_le_length hlen] at hm ⊢
    split at hm
    next n hbody =>
      cases hm
      rw [nowdocBody_append hname hz hbody]
      rw [List.length_drop]
      simp only [total_cons, total_nil] at hle
      omega
    next => cases hm
  · exact hm

/-- The move at any other byte: a header, a brace or an operator. -/
def symbolMove (b : UInt8) (s : Bytes) : Except Problem Move :=
  match header? (b :: s) with
  | some header => headerMove header (b :: s)
  | none =>
    if b == lbrace then .ok ⟨[(.lbrace, 1)], .openBrace⟩
    else if b == rbrace then .ok ⟨[(.rbrace, 1)], .closeBrace⟩
    else .ok ⟨[operator (b :: s)], .stay⟩

theorem symbolMove_append {b : UInt8} {s z z' : Bytes} {m : Move} (hm : symbolMove b (s ++ z) = .ok m)
    (hle : total m.tokens ≤ (b :: s).length) (hz : Inert z') : symbolMove b (s ++ z') = .ok m := by
  rw [symbolMove, ← List.cons_append] at hm ⊢
  split at hm
  next header hheader =>
    rw [header?_append z' hheader ((length_le_of_headerMove hm).trans hle)]
    exact headerMove_append hm (header?_bounds hheader).2.2 hle hz
  next hheader =>
    rw [header?_append_none hz hheader]
    split_ifs at hm ⊢
    · exact hm
    · exact hm
    · cases hm
      rw [operator_append hz (List.cons_ne_nil b s) (by simpa using hle)]

/-- The bytes that look at the one behind them, and what they look for. -/
def lookaheads : List (UInt8 × (UInt8 → Bool)) :=
  [(slash, (· == slash)), (slash, (· == star)), (dollar, isNameStart), (backslash, isNameStart), (dot, isDigit)]

theorem two_le_of_lookahead {a : UInt8 × (UInt8 → Bool)} (ha : a ∈ lookaheads) {s : Bytes} {m : Move}
    (hnext : s.head?.any a.2) (hm : codeMove a.1 s = .ok m) : 2 ≤ total m.tokens := by
  have hskip := Bool.false_ne_true
  simp only [lookaheads, List.mem_cons, List.not_mem_nil, or_false] at ha
  rcases ha with rfl | rfl | rfl | rfl | rfl <;> dsimp only at hnext hm
  · have hopen : (slash == hash || (slash == slash && s.head? == some slash)) = true := by simpa [head?_beq] using .inr hnext
    rw [codeMove, if_neg (by exact hskip), if_pos hopen] at hm
    cases hm
    simpa using two_le_lineComment hnext
  · have hopen : (slash == slash && s.head? == some star) = true := by simpa [head?_beq] using hnext
    have hline : ¬ (slash == hash || (slash == slash && s.head? == some slash)) = true := by
      have hstar : s.head? = some star := by simpa using hopen
      rw [hstar]
      exact Bool.false_ne_true
    rw [codeMove, if_neg (by exact hskip), if_neg hline, if_pos hopen] at hm
    split at hm <;> cases hm
    simp
  · rw [← startsName_eq] at hnext
    rw [codeMove] at hm
    iterate 3 rw [if_neg (by exact hskip)] at hm
    rw [if_pos (by simpa using hnext)] at hm
    cases hm
    have := nameChars_pos hnext
    simp only [total_cons]
    omega
  · have hopen : (isNameStart backslash || (backslash == backslash && startsName s)) = true := by
      simpa [startsName_eq] using .inr hnext
    rw [codeMove] at hm
    iterate 4 rw [if_neg (by exact hskip)] at hm
    rw [if_pos hopen] at hm
    cases hm
    simpa using two_le_qualifiedName hnext
  · have hopen : (isDigit dot || (dot == dot && startsDigit s)) = true := by
      simpa [startsDigit_eq] using .inr hnext
    rw [codeMove] at hm
    iterate 5 rw [if_neg (by exact hskip)] at hm
    rw [if_pos hopen] at hm
    cases hm
    simpa using two_le_number hnext

/-- What a byte looks for stands behind it in front of both texts or of none. -/
theorem lookahead_append {b : UInt8} {s z z' : Bytes} {m : Move} (hm : codeMove b (s ++ z) = .ok m)
    (hle : total m.tokens ≤ (b :: s).length) (hz : Inert z') {a : UInt8 × (UInt8 → Bool)} (ha : a ∈ lookaheads) :
    (b == a.1 && (s ++ z').head?.any a.2) = (b == a.1 && (s ++ z).head?.any a.2) := by
  have hinert : a.2 0x28 = false ∧ a.2 0x29 = false ∧ a.2 space = false := by
    revert a
    simp only [lookaheads, List.forall_mem_cons]
    exact ⟨⟨rfl, rfl, rfl⟩, ⟨rfl, rfl, rfl⟩, ⟨rfl, rfl, rfl⟩, ⟨rfl, rfl, rfl⟩, ⟨rfl, rfl, rfl⟩, nofun⟩
  refine hz.and_any_head hinert fun h => ?_
  obtain ⟨hb, hnext⟩ := Bool.and_eq_true_iff.mp h
  obtain rfl := beq_iff_eq.mp hb
  have htwo := two_le_of_lookahead ha hnext hm
  rintro rfl
  rw [List.length_singleton] at hle
  omega

/-- A move in code is made again in front of inert text. A string that interpolates must be closed before, and
white space or a comment that ends the common text must end there for the other text as well. -/
theorem codeMove_append {b : UInt8} {s z z' : Bytes} {m : Move} (hm : codeMove b (s ++ z) = .ok m)
    (hle : total m.tokens ≤ (b :: s).length) (hz : Inert z')
    (hquote : ∀ delim, m.effect = .enterQuoted delim → (quoted delim s).isSome)
    (hspace : m.tokens = [(.whitespace, (b :: s).length)] → ∀ c ∈ z'.head?, isSpace c = false)
    (hline : m.tokens = [(.comment, (b :: s).length)] → isLineComment (b :: s) → z.head? = some dollar) :
    codeMove b (s ++ z') = .ok m := by
  have hlook := fun a ha => lookahead_append hm hle hz (a := a) ha
  simp only [lookaheads, List.forall_mem_cons] at hlook
  obtain ⟨hlineAhead, hblockAhead, hvarAhead, hnameAhead, hnumberAhead, -⟩ := hlook
  simp only [codeMove, head?_beq, startsName_eq, startsDigit_eq] at hm ⊢
  rw [hlineAhead, hblockAhead, hvarAhead, hnameAhead, hnumberAhead]
  by_cases hwhite : isSpace b
  · rw [if_pos hwhite] at hm ⊢
    cases hm
    rw [spaces_append (by simpa using hle) fun hlen => hspace (by rw [hlen])]
  rw [if_neg hwhite] at hm ⊢
  by_cases hcomment : b == Ascii.hash || (b == slash && (s ++ z).head?.any (· == slash))
  · rw [if_pos hcomment] at hm ⊢
    cases hm
    rw [lineComment_append z' hcomment (by simpa using hle) fun hlen => hline (by rw [hlen])]
  rw [if_neg hcomment] at hm ⊢
  by_cases hblock : b == slash && (s ++ z).head?.any (· == Ascii.star)
  · rw [if_pos hblock] at hm ⊢
    split at hm
    next n hn =>
      cases hm
      rw [blockComment_append z' hn (by simpa using hle)]
    next => cases hm
  rw [if_neg hblock] at hm ⊢
  by_cases hvar : b == dollar && (s ++ z).head?.any isNameStart
  · rw [if_pos hvar] at hm ⊢
    cases hm
    rw [nameChars_append hz (by simpa using hle)]
  rw [if_neg hvar] at hm ⊢
  by_cases hname : isNameStart b || (b == backslash && (s ++ z).head?.any isNameStart)
  · rw [if_pos hname] at hm ⊢
    cases hm
    rw [← List.cons_append, ← List.cons_append, qualifiedName_append hz (by simpa using hle)]
  rw [if_neg hname] at hm ⊢
  by_cases hnumber : isDigit b || (b == dot && (s ++ z).head?.any isDigit)
  · rw [if_pos hnumber] at hm ⊢
    cases hm
    rw [← List.cons_append, ← List.cons_append, number_append hz (by simpa using hle)]
  rw [if_neg hnumber] at hm ⊢
  by_cases hsingle : b == singleQuote
  · rw [if_pos hsingle] at hm ⊢
    split at hm
    next n hn =>
      cases hm
      rw [singleQuoted_append z' hn (by simpa using hle)]
    next => cases hm
  rw [if_neg hsingle] at hm ⊢
  by_cases hdouble : b == doubleQuote || b == backtick
  · rw [if_pos hdouble] at hm ⊢
    have hb : b ≠ backslash := by
      rintro rfl
      cases hdouble
    exact quotedMove_append z' hm hb hle hquote
  rw [if_neg hdouble] at hm ⊢
  exact symbolMove_append hm hle hz

theorem TextMove.eq {terminator : Kind} {closes : Bool → Bytes → Option Nat} {lineStart : Bool} {s : Bytes}
    {m : Move} (h : TextMove terminator closes lineStart s m) : textMove terminator closes lineStart s = m := by
  cases h with
  | close _ n hn => simp [textMove, hn]
  | var d t hn hd => simp [textMove, hn, hd]
  | curly t hn =>
    have : lbrace ≠ dollar := by decide
    simp [textMove, hn, this]
  | dollarCurly t hn =>
    have : isNameStart lbrace = false ∧ dollar ≠ lbrace := by decide
    simp [textMove, hn, this]
  | literal b d t hn hi =>
    simp only [startsInterpolation] at hi
    simp only [textMove, hn]
    split_ifs <;> simp_all
  | last b hn => simp [textMove, hn]

/-- The string goes on after the bytes `w` of the move `m`, also in front of the other text `z'`. -/
structure Stays (closes : Bool → Bytes → Option Nat) (lineStart : Bool) (m : Move) (w q z z' : Bytes) : Prop where
  none : closes lineStart (w ++ (q ++ z')) = none
  ne_nil : q ≠ []
  stop : ∃ x ∈ w ++ q, isSuffixByte x = false
  go : ∀ i < w.length, ∀ l, closes l (w.drop i ++ (q ++ z)) = .none → closes l (w.drop i ++ (q ++ z')) = .none
  ends : m.effect = .stay → ∀ l, (closes l (q ++ z)).isSome → (closes l (q ++ z')).isSome
  last : m.effect = .stay → ∀ x, q = [x] → x ≠ dollar ∧ x ≠ lbrace

/-- Text that ends where the string goes on ends there in front of another text as well. -/
theorem Stays.literal_eq {closes : Bool → Bytes → Option Nat} {lineStart : Bool} {m : Move} {w q z z' : Bytes}
    (h : Stays closes lineStart m w q z z') (hstay : m.effect = .stay)
    (hlit : literal (fun l t => (closes l t).isSome) lineStart (w ++ (q ++ z)) = w.length) :
    literal (fun l t => (closes l t).isSome) lineStart (w ++ (q ++ z')) = w.length := by
  have hdrop {i : Nat} (hi : i ≤ w.length) (y : Bytes) : (w ++ q).drop i ++ y = w.drop i ++ (q ++ y) := by
    rw [List.drop_append_of_le_length hi, List.append_assoc]
  have hpos := List.length_pos_iff.2 h.ne_nil
  rw [← List.append_assoc] at hlit ⊢
  rw [literal_append, hlit]
  · rw [hlit, List.length_append]
    omega
  · intro i hi l hgo
    rw [hlit] at hi
    rw [hdrop hi.le, Option.isSome_eq_false_iff] at hgo ⊢
    simpa using h.go i hi l (by simpa using hgo)
  · intro l hends
    rw [hlit, hdrop le_rfl, List.drop_length, List.nil_append] at hends ⊢
    exact h.ends hstay l hends
  · intro x hx
    rw [hlit, List.drop_left] at hx
    exact h.last hstay x hx

theorem nameChars_simpleSuffix_append {s z : Bytes} (z' : Bytes) (hn : nameChars (s ++ z) < s.length)
    (hx : ∃ x ∈ s, isSuffixByte x = false) :
    nameChars (s ++ z') = nameChars (s ++ z) ∧
      simpleSuffix ((s ++ z').drop (nameChars (s ++ z))) = simpleSuffix ((s ++ z).drop (nameChars (s ++ z))) := by
  refine ⟨Bytes.countWhile_append hn.le fun h => absurd h hn.ne, ?_⟩
  rw [List.drop_append_of_le_length hn.le, List.drop_append_of_le_length hn.le]
  obtain ⟨x, hx, hsx⟩ := hx
  have hmem : x ∈ s.drop (nameChars (s ++ z)) := by
    rw [← List.take_append_drop (nameChars (s ++ z)) s, List.mem_append] at hx
    refine hx.resolve_left fun hx => ?_
    have := all_nameChars (s ++ z) x (by rwa [List.take_append_of_le_length hn.le])
    simp [hsx] at this
  obtain ⟨a, y, hay⟩ := List.append_of_mem hmem
  rw [hay, List.append_assoc, List.append_assoc]
  exact simpleSuffix_stop hsx a _ _

/-- A move in the text of a string is made again in front of another text. -/
theorem TextMove.append {terminator : Kind} {closes : Bool → Bytes → Option Nat} {lineStart : Bool}
    {w q z z' : Bytes} {m : Move} (h : TextMove terminator closes lineStart (w ++ (q ++ z)) m)
    (hw : w.length = total m.tokens) (hne : w ≠ [])
    (hsome : ∀ n, closes lineStart (w ++ (q ++ z)) = some n → closes lineStart (w ++ (q ++ z')) = some n)
    (hstays : closes lineStart (w ++ (q ++ z)) = none → Stays closes lineStart m w q z z') :
    TextMove terminator closes lineStart (w ++ (q ++ z')) m := by
  -- while the string goes on, at least two bytes are left of it
  have htwo (hq : q ≠ []) : ∃ b d v, w ++ q = b :: d :: v := by
    obtain ⟨b, w, rfl⟩ := List.exists_cons_of_ne_nil hne
    obtain ⟨d, v, hv⟩ := List.exists_cons_of_ne_nil (List.append_ne_nil_of_right_ne_nil w hq)
    exact ⟨b, d, v, by rw [List.cons_append, hv]⟩
  generalize hr : w ++ (q ++ z) = r at h hsome hstays
  cases h with
  | close r n hn => exact .close _ n (hsome n hn)
  | var d t hn hd =>
    obtain ⟨hnone, hq, ⟨x, hx, hsx⟩, -, -, -⟩ := hstays hn
    obtain ⟨b, d', v, hv⟩ := htwo hq
    rw [← List.append_assoc, hv] at hr hnone ⊢
    obtain ⟨rfl, rfl, rfl⟩ : b = dollar ∧ d' = d ∧ v ++ z = t := by simpa using hr
    have hlen := congrArg List.length hv
    have hpos := List.length_pos_iff.2 hq
    rw [List.length_append, List.length_cons, List.length_cons] at hlen
    rw [total_cons] at hw
    have hxv : x ∈ d' :: v := by
      rw [hv, List.mem_cons] at hx
      refine hx.resolve_left ?_
      rintro rfl
      cases hsx
    obtain ⟨hname, hsuffix⟩ := @nameChars_simpleSuffix_append (d' :: v) z z' (by
      simp only [List.cons_append, List.length_cons]
      omega) ⟨x, hxv, hsx⟩
    simp only [List.cons_append] at hname hsuffix
    rw [← hsuffix, ← hname]
    exact .var d' (v ++ z') hnone hd
  | curly t hn =>
    obtain ⟨hnone, hq, -, -, -, -⟩ := hstays hn
    obtain ⟨b, d', v, hv⟩ := htwo hq
    rw [← List.append_assoc, hv] at hr hnone ⊢
    obtain ⟨rfl, rfl, rfl⟩ : b = lbrace ∧ d' = dollar ∧ v ++ z = t := by simpa using hr
    exact .curly _ hnone
  | dollarCurly t hn =>
    obtain ⟨hnone, hq, -, -, -, -⟩ := hstays hn
    obtain ⟨b, d', v, hv⟩ := htwo hq
    rw [← List.append_assoc, hv] at hr hnone ⊢
    obtain ⟨rfl, rfl, rfl⟩ : b = dollar ∧ d' = lbrace ∧ v ++ z = t := by simpa using hr
    exact .dollarCurly _ hnone
  | literal b d t hn hi =>
    have hstays := hstays hn
    have hnone := hstays.none
    obtain ⟨b', d', v, hv⟩ := htwo hstays.ne_nil
    have hlit : Scan.literal (fun l t => (closes l t).isSome) lineStart (w ++ (q ++ z)) = w.length := by
      rw [hr]
      simpa using hw.symm
    have hsame := (hstays.literal_eq rfl hlit).trans hlit.symm
    rw [← List.append_assoc, ← List.append_assoc, hv] at hsame
    rw [← List.append_assoc, hv] at hr hnone ⊢
    obtain ⟨rfl, rfl, rfl⟩ : b' = b ∧ d' = d ∧ v ++ z = t := by simpa using hr
    simp only [List.cons_append] at hsame
    rw [← hsame]
    exact .literal b' d' (v ++ z') hnone hi
  | last b hn =>
    obtain ⟨-, hq, -, -, -, -⟩ := hstays hn
    obtain ⟨b', d', v, hv⟩ := htwo hq
    rw [← List.append_assoc, hv] at hr
    cases hr

end Scan

namespace Cursor.Over

variable {c : Cursor} {m : Move} {w q z z' : Bytes} {start stop : Nat}

theorem head?_append_congr {w : Bytes} (hw : w ≠ []) (r r' : Bytes) : (w ++ r).head? = (w ++ r').head? := by
  obtain ⟨b, w, rfl⟩ := List.exists_cons_of_ne_nil hw
  rfl

theorem closesQuoted_append {w : Bytes} (hw : w ≠ []) (delim : UInt8) (lineStart : Bool) (r r' : Bytes) :
    closesQuoted delim lineStart (w ++ r) = closesQuoted delim lineStart (w ++ r') := by
  rw [closesQuoted, closesQuoted, head?_append_congr hw r r']

theorem frames_of_none {terminator : Kind} {closes : Bool → Bytes → Option Nat} {lineStart : Bool} {s : Bytes}
    (ht : Scan.TextMove terminator closes lineStart s m) (hn : closes lineStart s = none) (start stop : Nat)
    (fs : List Frame) : m.effect.frames start stop fs = fs ∨ m.effect.frames start stop fs = .nested stop 0 :: fs := by
  rcases ht.effect with he | he | he
  · obtain ⟨n, hn', -⟩ := ht.of_leave he
    simp [hn'] at hn
  · exact .inl (by rw [he]; rfl)
  · exact .inr (by rw [he]; rfl)

variable (h : Over c m w q z) (hz : Scan.Inert z') (hl : Layered true c.frames)
  (hq : Pending (m.effect.frames start stop c.frames) (w.getLast? == some newline) q z)

include h hl hq

theorem stays_quoted {o : Nat} {delim : UInt8} (hf : c.frames.head? = some (.quoted o delim))
    (hn : closesQuoted delim c.lineStart (w ++ (q ++ z)) = none) :
    Scan.Stays (closesQuoted delim) c.lineStart m w q z z' := by
  obtain ⟨hd, ht⟩ := h.text_quoted hf
  have hqne : q ≠ [] := by
    refine hq.ne_nil ?_
    rcases frames_of_none ht hn start stop c.frames with he | he <;> rw [he]
    · rintro hnil
      simp [hnil] at hf
    · simp
  refine ⟨?_, hqne, ⟨delim, (h.ends_innermost hq hf).mem, ?_⟩, fun i hi l hgo => ?_, fun _ l hends => ?_, fun he => ?_⟩
  · rw [← hn]
    exact closesQuoted_append h.ne_nil ..
  · rcases hd with rfl | rfl <;> rfl
  · rw [← hgo]
    exact closesQuoted_append (by simpa using hi) ..
  · rwa [closesQuoted_append hqne delim l z' z]
  · refine hq.last ?_
    rw [he]
    exact hl

include hz

theorem stays_heredoc {o : Nat} {label : Bytes} (hf : c.frames.head? = some (.heredoc o label))
    (hn : closesHeredoc label c.lineStart (w ++ (q ++ z)) = none) :
    Scan.Stays (closesHeredoc label) c.lineStart m w q z z' := by
  obtain ⟨hname, ht⟩ := h.text_heredoc hf
  have hmem : .heredoc o label ∈ m.effect.frames start stop c.frames := by
    have := List.mem_of_mem_head? hf
    rcases frames_of_none ht hn start stop c.frames with he | he <;> rw [he]
    · exact this
    · exact List.mem_cons_of_mem _ this
  have hnone {s : Bytes} (hs : newline ∈ s ++ q) {l : Bool} (hl : closesHeredoc label l (s ++ (q ++ z)) = none) :
      closesHeredoc label l (s ++ (q ++ z')) = none := by
    cases l with
    | false => rfl
    | true =>
      rw [← List.append_assoc] at hl ⊢
      exact Scan.closingLabel?_append_none hname hz hl hs
  refine ⟨hnone (newline_mem hq hmem) hn, hq.ne_nil (List.ne_nil_of_mem hmem), ⟨newline, newline_mem hq hmem, rfl⟩,
    fun i hi l hgo => hnone ?_ hgo, fun he l hends => ?_, fun he => ?_⟩
  · cases hline : w.getLast? == some newline with
    | true =>
      refine List.mem_append_left q (List.mem_of_getLast? ?_)
      rw [List.getLast?_drop, if_neg (by omega)]
      exact beq_iff_eq.1 hline
    | false => exact List.mem_append_right _ (hq.newline o label hmem hline)
  · cases l with
    | false => simp [closesHeredoc] at hends
    | true =>
      obtain ⟨n, hclose⟩ := Option.isSome_iff_exists.1 hends
      have hle : n ≤ q.length := by
        cases hline : w.getLast? == some newline with
        | true => exact hq.label o label (by rw [he]; exact hf) n (hline ▸ hclose)
        | false => exact Scan.closingLabel?_le_of_newline hname hclose (hq.newline o label hmem hline)
      exact Option.isSome_iff_exists.2 ⟨n, Scan.closingLabel?_append hname hz hclose hle⟩
  · refine hq.last ?_
    rw [he]
    exact hl

omit hl in

/-- The step is made again in front of inert text. -/
theorem move_append
    (hspace : q = [] → ∀ n, m.tokens = [(.whitespace, n)] → ∀ c ∈ z'.head?, isSpace c = false)
    (hline : q = [] → ∀ n, m.tokens = [(.comment, n)] → Scan.isLineComment w → z.head? = some dollar)
    {b : UInt8} {s : Bytes} (hs : b :: s = w ++ (q ++ z')) : c.move b s = .ok m := by
  obtain ⟨inText, hl⟩ := h.layered
  cases inText with
  | false =>
    obtain ⟨b', s', hs', hm⟩ := h.made
    obtain ⟨a, v, rfl⟩ := List.exists_cons_of_ne_nil h.ne_nil
    obtain ⟨rfl, rfl⟩ : b' = a ∧ s' = v ++ q ++ z := by simpa using hs'
    obtain ⟨rfl, rfl⟩ : b = b' ∧ s = v ++ q ++ z' := by simpa using hs
    have hlen := h.length
    have hall {kind : Kind} (hk : m.tokens = [(kind, (b :: (v ++ q)).length)]) : q = [] := by
      rw [hk] at hlen
      simpa using hlen
    rw [move_code hl] at hm ⊢
    refine Scan.codeMove_append hm ?_ hz ?_ (fun hk => hspace (hall hk) _ hk) fun hk hcomment => ?_
    · rw [← hlen]
      simp
    · intro delim he
      cases Scan.codeMove_cases hm with
      | quote =>
        cases he
        obtain rfl : v = [] := by simpa using hlen
        exact hq.innermost _ _ rfl
      | _ => cases he
    · have hq := hall hk
      subst hq
      exact hline rfl _ hk (by simpa using hcomment)
  | true =>
    have hl' := hl
    generalize hfs : c.frames = fs at hl'
    cases hl' with
    | @quoted o delim fs hd _ =>
      have hf : c.frames.head? = some (.quoted o delim) := by rw [hfs]; rfl
      have ht : Scan.TextMove .quote (closesQuoted delim) c.lineStart (w ++ (q ++ z')) m :=
        (h.text_quoted hf).2.append h.length h.ne_nil
          (fun n hn => by rw [← hn]; exact closesQuoted_append h.ne_nil ..) (h.stays_quoted hl hq hf)
      simp only [move, hfs, hs]
      exact congrArg _ ht.eq
    | @heredoc o label fs hname _ =>
      have hf : c.frames.head? = some (.heredoc o label) := by rw [hfs]; rfl
      have ht : Scan.TextMove .heredocEnd (closesHeredoc label) c.lineStart (w ++ (q ++ z')) m := by
        refine (h.text_heredoc hf).2.append h.length h.ne_nil (fun n hn => ?_) (h.stays_heredoc hz hl hq hf)
        have hlen := h.length
        rw [(h.text_heredoc hf).2.of_closes hn, Scan.total_cons, Scan.total_nil] at hlen
        obtain ⟨hline, hclose⟩ := closesHeredoc_eq_some.1 hn
        rw [← List.append_assoc] at hclose ⊢
        refine closesHeredoc_eq_some.2 ⟨hline, Scan.closingLabel?_append hname hz hclose ?_⟩
        rw [List.length_append]
        omega
      simp only [move, hfs, hs]
      exact congrArg _ ht.eq

end Cursor.Over

/-- A frame without the offsets, which serve reports only. -/
def Frame.shape : Frame → Frame
  | .nested _ depth => .nested 0 depth
  | .quoted _ delim => .quoted 0 delim
  | .heredoc _ label => .heredoc 0 label

theorem Effect.shape_frames (e : Effect) (start stop : Nat) (fs : List Frame) :
    (e.frames start stop fs).map Frame.shape = e.frames 0 0 (fs.map Frame.shape) := by
  rcases fs with _ | ⟨⟨o, _ | d⟩ | _ | _, fs⟩ <;> cases e <;> rfl

namespace Cursor

theorem Layered.of_shape {inText : Bool} {fs fs' : List Frame} (hl : Layered inText fs)
    (h : fs.map Frame.shape = fs'.map Frame.shape) : Layered inText fs' := by
  induction hl generalizing fs' with
  | top =>
    obtain rfl : fs' = [] := by simpa [eq_comm] using h
    exact .top
  | nested o d _ ih =>
    obtain ⟨_ | _ | _, fs', rfl, hf, hfs⟩ := List.map_eq_cons_iff.1 h.symm <;> cases hf
    exact .nested _ _ (ih hfs.symm)
  | quoted o hd _ ih =>
    obtain ⟨_ | _ | _, fs', rfl, hf, hfs⟩ := List.map_eq_cons_iff.1 h.symm <;> cases hf
    exact .quoted _ hd (ih hfs.symm)
  | heredoc o hn _ ih =>
    obtain ⟨_ | _ | _, fs', rfl, hf, hfs⟩ := List.map_eq_cons_iff.1 h.symm <;> cases hf
    exact .heredoc _ hn (ih hfs.symm)

/-- The cursors stand in the same constructs, possibly at different offsets. -/
structure Alike (c c' : Cursor) : Prop where
  shapes : c.frames.map Frame.shape = c'.frames.map Frame.shape
  lineStart : c.frames ≠ [] → c.lineStart = c'.lineStart

theorem Alike.move_eq {c c' : Cursor} (h : Alike c c') (b : UInt8) (s : Bytes) : c'.move b s = c.move b s := by
  obtain ⟨hs, hl⟩ := h
  unfold move
  rcases hf : c.frames with _ | ⟨_ | _ | _, fs⟩ <;> rcases hf' : c'.frames with _ | ⟨_ | _ | _, fs'⟩ <;>
    simp [hf, hf', Frame.shape] at hs hl ⊢
  · rw [hs.1, hl]
  · rw [hs.1, hl]

theorem emit_kinds (c : Cursor) (ks : List (Kind × Nat)) : (c.emit ks).1.map (·.kind) = ks.map (·.1) := by
  induction ks generalizing c with
  | nil => rfl
  | cons k ks ih => exact congrArg _ (ih (c.advance k.2))

theorem perform_kinds (c : Cursor) (m : Move) : (c.perform m).1.map (·.kind) = m.tokens.map (·.1) :=
  emit_kinds _ _

theorem Reads.eq_nil {c d : Cursor} {ts : List Token} (h : Reads c ts d) {inText : Bool}
    (hl : Layered inText c.frames) (hr : c.rest = d.rest) : ts = [] := by
  obtain ⟨⟨s, hs, hc⟩, -⟩ := h.covers hl
  obtain rfl : s = [] := by simpa [hr] using hs
  cases ts with
  | nil => rfl
  | cons t ts =>
    obtain ⟨hne, -, r, hr, -⟩ := hc
    simp [hne] at hr

/-- A last token that carries no code ends before `z'` as it did before `z`: no more white space follows, and a line
comment did not end before `z` at all. -/
def Parts (ts : List Token) (z z' : Bytes) : Prop :=
  ∀ t ∈ ts.getLast?, t.isTrivia →
    (∀ c ∈ z'.head?, isSpace c = false) ∧ (t.kind = .comment → Scan.isLineComment t.text → z.head? = some dollar)

theorem Parts.of_append {ts us : List Token} {z z' : Bytes} (h : Parts (ts ++ us) z z') : Parts us z z' := by
  refine fun t ht => h t ?_
  rw [List.getLast?_append, ht]
  rfl

/-- In the place of `z`, `z'` may follow the tokens `ts`: it is inert and parts from the last token. -/
def Seam (ts : List Token) (z z' : Bytes) : Prop := z = z' ∨ Scan.Inert z' ∧ Parts ts z z'

theorem Alike.after {c c' : Cursor} {inText : Bool} {b b' : UInt8} {s s' w r r' : Bytes} {m : Move}
    (ha : Alike c c') (hl : Layered inText c.frames) (hr : c.rest = b :: s) (hm : c.move b s = .ok m)
    (hr' : c'.rest = b' :: s') (hm' : c'.move b' s' = .ok m) (hs : b :: s = w ++ r) (hs' : b' :: s' = w ++ r')
    (hw : w.length = Scan.total m.tokens) :
    Alike (c.perform m).2 (c'.perform m).2 ∧ (c'.perform m).2.rest = r' := by
  obtain ⟨hf, hne⟩ := move_fits hl hm
  obtain ⟨hf', -⟩ := move_fits (hl.of_shape ha.shapes) hm'
  rw [← hr] at hf
  rw [← hr'] at hf'
  rw [perform_snd hf hne, perform_snd hf' hne]
  refine ⟨⟨?_, fun _ => ?_⟩, ?_⟩
  · change (m.effect.frames _ _ c.frames).map _ = (m.effect.frames _ _ c'.frames).map _
    rw [Effect.shape_frames, Effect.shape_frames, ha.shapes]
  · change ((c.rest.take _).getLast? == _) = ((c'.rest.take _).getLast? == _)
    rw [hr, hr', hs, hs', ← hw, List.take_left, List.take_left]
  · change c'.rest.drop _ = r'
    rw [hr', hs', ← hw, List.drop_left]

/-- The first part of a reading that ends in top-level code is made again wherever the text of the reading stands. What
follows the text must part from the last token only where nothing is left of the reading. -/
theorem Reads.replay {c e d : Cursor} {ts us : List Token} (h : Reads c ts e) (hus : Reads e us d) {inText : Bool}
    (hl : Layered inText c.frames) (hd : d.frames = []) {p r z' : Bytes} (hp : c.rest = p ++ e.rest)
    (hr : e.rest = r ++ d.rest) (hz : d.rest = z' ∨ Scan.Inert z' ∧ (us = [] → Parts ts d.rest z')) {c' : Cursor}
    (ha : Alike c c') (hc' : c'.rest = p ++ (r ++ z')) :
    ∃ ts' e', Reads c' ts' e' ∧ e'.rest = r ++ z' ∧ Alike e e' ∧ ts'.map (·.kind) = ts.map (·.kind) := by
  induction h generalizing inText p c' with
  | refl c =>
    obtain rfl : p = [] := by simpa using hp
    exact ⟨[], c', .refl c', hc', ha, rfl⟩
  | @step c e b s m rest hrest₀ hm hrest ih =>
    obtain ⟨w, q, hs, hover, hafter, hframes, hline⟩ := (hrest.trans hus).over hl hrest₀ hm
    obtain ⟨inText', hl'⟩ := hl.after hm c.pos (c.pos + Scan.total m.tokens)
    rw [← hframes] at hl'
    obtain ⟨⟨t, ht, -⟩, inText'', hl''⟩ := hrest.covers hl'
    have hq := (hrest.trans hus).pending hl' hd hafter
    rw [hframes, hline] at hq
    -- the text of the rest of this part, and the text that is left after it
    obtain rfl : q = t ++ r := by
      rw [hafter, hr, ← List.append_assoc, List.append_cancel_right_eq] at ht
      exact ht
    obtain rfl : p = w ++ t := by
      rw [hrest₀, hs, hr, ← List.append_assoc, ← List.append_assoc, ← List.append_assoc, List.append_cancel_right_eq,
        List.append_cancel_right_eq] at hp
      exact hp.symm
    obtain ⟨b', s', hs'⟩ : ∃ b' s', w ++ (t ++ r ++ z') = b' :: s' :=
      List.exists_cons_of_ne_nil (List.append_ne_nil_of_left_ne_nil hover.ne_nil _)
    have hm' : c'.move b' s' = .ok m := by
      rw [ha.move_eq]
      rcases hz with rfl | ⟨hz, hlast⟩
      · rw [← hs, List.cons.injEq] at hs'
        rwa [← hs'.1, ← hs'.2]
      · -- nothing is read after this token if no text is left, so it is the last one
        have hparts (hnil : t ++ r = []) (kind : Kind) (n : Nat) (hk : m.tokens = [(kind, n)])
            (hkind : kind = .whitespace ∨ kind = .comment) :
            (∀ c ∈ z'.head?, isSpace c = false) ∧ (kind = .comment → Scan.isLineComment w → d.rest.head? = some dollar) := by
          obtain ⟨rfl, rfl⟩ := List.append_eq_nil_iff.mp hnil
          obtain rfl := hrest.eq_nil hl' ht
          obtain rfl := hus.eq_nil hl'' hr
          have htext : c.rest.take n = w := by
            have hlength : w.length = n := by
              rw [hover.length, hk]
              rfl
            rw [hrest₀, hs, ← hlength, List.take_left]
          have hlast := hlast rfl ((c.withFrames (c.around m)).token kind n) (by simp [perform, hk, emit])
            (by rcases hkind with rfl | rfl <;> rfl)
          exact htext ▸ hlast
        refine hover.move_append hz hq (fun hnil n hk => (hparts hnil _ n hk (.inl rfl)).1)
          (fun hnil n hk => (hparts hnil _ n hk (.inr rfl)).2 rfl) hs'.symm
    rw [List.append_assoc, ← List.append_assoc t r z', hs'] at hc'
    obtain ⟨ha', hrest'⟩ := ha.after hl hrest₀ hm hc' hm' hs hs'.symm hover.length
    have hz' : d.rest = z' ∨ Scan.Inert z' ∧ (us = [] → Parts rest d.rest z') :=
      hz.imp_right fun hz => ⟨hz.1, fun hnil => (hz.2 hnil).of_append⟩
    obtain ⟨ts', e', hts', he', hae, hk'⟩ := ih hus hl' ht hr hz' ha' (by rw [hrest', List.append_assoc])
    refine ⟨_, e', .step hc' hm' hts', he', hae, ?_⟩
    rw [List.map_append, List.map_append, hk', perform_kinds, perform_kinds]

end Cursor

/-- In top-level code before `z`, the text is read as tokens of these kinds, back to top-level code. -/
def Lexes (s : Bytes) (ks : List Kind) (z : Bytes) : Prop :=
  ∀ c : Cursor, c.frames = [] → c.rest = s ++ z →
    ∃ ts d, c.Reads ts d ∧ d.frames = [] ∧ d.rest = z ∧ ts.map (·.kind) = ks

theorem Lexes.append {s t : Bytes} {ks ls : List Kind} {z : Bytes} (hs : Lexes s ks (t ++ z)) (ht : Lexes t ls z) :
    Lexes (s ++ t) (ks ++ ls) z := by
  intro c hf hr
  obtain ⟨ts, d, hts, hd, hrest, rfl⟩ := hs c hf (by rw [hr, List.append_assoc])
  obtain ⟨us, e, hus, he, hrest', rfl⟩ := ht d hd hrest
  exact ⟨ts ++ us, e, hts.trans hus, he, hrest', by simp⟩

theorem Lexes.single {b : UInt8} {s z : Bytes} {k : Kind}
    (hm : Scan.codeMove b (s ++ z) = .ok ⟨[(k, (b :: s).length)], .stay⟩) : Lexes (b :: s) [k] z := by
  intro c hf hr
  have hmove : c.move b (s ++ z) = .ok ⟨[(k, (b :: s).length)], .stay⟩ := by
    rw [Cursor.move_code (.of_nil hf), hm]
  refine ⟨_, _, .step hr hmove (.refl _), ?_⟩
  rw [Cursor.perform_stay]
  refine ⟨hf, ?_, rfl⟩
  change c.rest.drop (b :: s).length = z
  rw [hr, List.drop_left]

/-- The first part of a reading is read alike before what is left of the text and another end. -/
theorem Cursor.Reads.lexes_before {c e d : Cursor} {ts us : List Token} (h : Reads c ts e) (hus : Reads e us d)
    (hf : c.frames = []) (he : e.frames = []) (hd : d.frames = []) {r z : Bytes} (hr : e.rest = r ++ d.rest)
    (hz : d.rest = z ∨ Scan.Inert z ∧ (us = [] → Parts ts d.rest z)) :
    Lexes (ts.flatMap (·.text)) (ts.map (·.kind)) (r ++ z) := by
  intro c' hf' hr'
  obtain ⟨⟨s, hs, hc⟩, -⟩ := h.covers (.of_nil hf)
  rw [hc.flatMap_text] at hr'
  obtain ⟨ts', e', hts', hrest, halike, hk⟩ := h.replay hus (.of_nil hf) hd hs hr hz
    ⟨by rw [hf, hf'], fun hne => absurd hf hne⟩ hr'
  refine ⟨ts', e', hts', ?_, hrest, hk⟩
  simpa [he, eq_comm] using halike.shapes

theorem Cursor.Reads.lexes {c d : Cursor} {ts : List Token} (h : Reads c ts d) (hf : c.frames = [])
    (hd : d.frames = []) {z : Bytes} (hz : Seam ts d.rest z) : Lexes (ts.flatMap (·.text)) (ts.map (·.kind)) z :=
  h.lexes_before (.refl d) hf hd hd (List.nil_append _).symm (hz.imp_right fun hz => ⟨hz.1, fun _ => hz.2⟩)

theorem Lexes.tokenize {s : Bytes} {ks : List Kind} (h : Lexes s ks []) :
    ∃ ts, tokenize s = .ok ts ∧ ts.map (·.kind) = ks := by
  obtain ⟨ts, d, hts, hf, hr, hk⟩ := h (.ofSource s) rfl (by simp [Cursor.ofSource])
  exact ⟨ts, Cursor.tokenize_eq_ok.2 ⟨d, hts, hr, hf⟩, hk⟩

end Stencil.Token
