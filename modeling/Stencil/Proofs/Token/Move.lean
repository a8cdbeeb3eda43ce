import Stencil.Proofs.Token.Extent

/-! A step of the lexer as a move. What a step reads, and what it does to the open constructs, depends on the
innermost construct and on the text ahead; offsets only go into the tokens and the frames. -/

namespace Stencil.Token

open Ascii

/-- What a step does to the open constructs. -/
inductive Effect where
  | stay
  | enterQuoted (delim : UInt8)
  | enterHeredoc (label : Bytes)
  | enterCode
  | openBrace
  | closeBrace
  | leave
deriving DecidableEq

/-- The kinds and lengths of the tokens of a step, and its effect. -/
structure Move where
  tokens : List (Kind × Nat)
  effect : Effect
deriving DecidableEq

namespace Scan

/-- The move at byte `b` of code, followed by `s`. -/
def codeMove (b : UInt8) (s : Bytes) : Except Problem Move :=
  if isSpace b then .ok ⟨[(.whitespace, Bytes.countWhile isSpace (b :: s))], .stay⟩
  else if b == hash || (b == slash && s.head? == some slash) then
    .ok ⟨[(.comment, Bytes.countWhile (· != newline) (b :: s))], .stay⟩
  else if b == slash && s.head? == some star then
    match Bytes.find? "*/" (s.drop 1) with
    | some n => .ok ⟨[(.comment, n + 4)], .stay⟩
    | none => .error .unterminatedComment
  else if b == dollar && startsName s then .ok ⟨[(.var, nameChars s + 1)], .stay⟩
  else if isNameStart b || (b == backslash && startsName s) then
    .ok ⟨[(.ident, qualifiedName (b :: s))], .stay⟩
  else if isDigit b || (b == dot && startsDigit s) then .ok ⟨[(.number, number (b :: s))], .stay⟩
  else if b == singleQuote then
    match singleQuoted s with
    | some n => .ok ⟨[(.string, n + 1)], .stay⟩
    | none => .error .unterminatedString
  else if b == doubleQuote || b == backtick then
    match quoted b s with
    | none => .error .unterminatedString
    | some (n, false) => .ok ⟨[(.string, n + 1)], .stay⟩
    | some (_, true) => .ok ⟨[(.quote, 1)], .enterQuoted b⟩
  else match header? (b :: s) with
    | some header =>
      if header.nowdoc then
        match nowdocBody header.label true ((b :: s).drop header.length) with
        | some n => .ok ⟨[(.string, header.length + n)], .stay⟩
        | none => .error (.unterminatedNowdoc header.label)
      else .ok ⟨[(.heredocStart, header.length)], .enterHeredoc header.label⟩
    | none =>
      if b == lbrace then .ok ⟨[(.lbrace, 1)], .openBrace⟩
      else if b == rbrace then .ok ⟨[(.rbrace, 1)], .closeBrace⟩
      else .ok ⟨[operator (b :: s)], .stay⟩

/-- The move in the text of an interpolated string. -/
def textMove (terminator : Kind) (closes : Bool → Bytes → Option Nat) (lineStart : Bool) (s : Bytes) : Move :=
  match closes lineStart s with
  | some n => ⟨[(terminator, n)], .leave⟩
  | none =>
    match s with
    | b :: d :: t =>
      if b == dollar && isNameStart d then
        let n := nameChars (d :: t) + 1
        ⟨(.var, n) :: simpleSuffix (s.drop n), .stay⟩
      else if b == lbrace && d == dollar then ⟨[(.curlyOpen, 1)], .enterCode⟩
      else if b == dollar && d == lbrace then ⟨[(.dollarCurlyOpen, 2)], .enterCode⟩
      else ⟨[(.encapsed, literal (fun l t => (closes l t).isSome) lineStart s)], .stay⟩
    | _ => ⟨[(.encapsed, s.length)], .stay⟩

/-- The moves there are in code, each with what the source shows there. -/
inductive CodeMove (b : UInt8) (s : Bytes) : Move → Prop where
  | whitespace : isSpace b → CodeMove b s ⟨[(.whitespace, Bytes.countWhile isSpace (b :: s))], .stay⟩
  | lineComment : b = hash ∨ b = slash →
      CodeMove b s ⟨[(.comment, Bytes.countWhile (· != newline) (b :: s))], .stay⟩
  | blockComment (n : Nat) : b = slash → s.head? = some star → Bytes.find? "*/" (s.drop 1) = some n →
      CodeMove b s ⟨[(.comment, n + 4)], .stay⟩
  | var : b = dollar → startsName s → CodeMove b s ⟨[(.var, nameChars s + 1)], .stay⟩
  | name : isNameStart b || (b == backslash && startsName s) →
      CodeMove b s ⟨[(.ident, qualifiedName (b :: s))], .stay⟩
  | number : isDigit b || (b == dot && startsDigit s) →
      CodeMove b s ⟨[(.number, number (b :: s))], .stay⟩
  | single (n : Nat) : b = singleQuote → singleQuoted s = some n → CodeMove b s ⟨[(.string, n + 1)], .stay⟩
  | plain (n : Nat) : b = doubleQuote ∨ b = backtick → quoted b s = some (n, false) →
      CodeMove b s ⟨[(.string, n + 1)], .stay⟩
  | quote (n : Nat) : b = doubleQuote ∨ b = backtick → quoted b s = some (n, true) →
      CodeMove b s ⟨[(.quote, 1)], .enterQuoted b⟩
  | nowdoc (h : Header) (n : Nat) : header? (b :: s) = some h →
      nowdocBody h.label true ((b :: s).drop h.length) = some n →
      CodeMove b s ⟨[(.string, h.length + n)], .stay⟩
  | heredoc (h : Header) : header? (b :: s) = some h →
      CodeMove b s ⟨[(.heredocStart, h.length)], .enterHeredoc h.label⟩
  | lbrace : b = Ascii.lbrace → CodeMove b s ⟨[(.lbrace, 1)], .openBrace⟩
  | rbrace : b = Ascii.rbrace → CodeMove b s ⟨[(.rbrace, 1)], .closeBrace⟩
  | operator : CodeMove b s ⟨[operator (b :: s)], .stay⟩

theorem codeMove_cases {b : UInt8} {s : Bytes} {m : Move} (h : codeMove b s = .ok m) : CodeMove b s m := by
  unfold codeMove at h
  by_cases h₁ : isSpace b
  · rw [if_pos h₁] at h; cases h; exact .whitespace h₁
  rw [if_neg h₁] at h
  by_cases h₂ : b == hash || (b == slash && s.head? == some slash)
  · rw [if_pos h₂] at h; cases h
    simp only [Bool.or_eq_true, Bool.and_eq_true, beq_iff_eq] at h₂
    exact .lineComment (h₂.imp_right And.left)
  rw [if_neg h₂] at h
  by_cases h₃ : b == slash && s.head? == some star
  · rw [if_pos h₃] at h
    simp only [Bool.and_eq_true, beq_iff_eq] at h₃
    split at h
    · next n hn => cases h; exact .blockComment n h₃.1 h₃.2 hn
    · cases h
  rw [if_neg h₃] at h
  by_cases h₄ : b == dollar && startsName s
  · rw [if_pos h₄] at h; cases h
    simp only [Bool.and_eq_true, beq_iff_eq] at h₄
    exact .var h₄.1 h₄.2
  rw [if_neg h₄] at h
  by_cases h₅ : isNameStart b || (b == backslash && startsName s)
  · rw [if_pos h₅] at h; cases h; exact .name h₅
  rw [if_neg h₅] at h
  by_cases h₆ : isDigit b || (b == dot && startsDigit s)
  · rw [if_pos h₆] at h; cases h; exact .number h₆
  rw [if_neg h₆] at h
  by_cases h₇ : b == singleQuote
  · rw [if_pos h₇] at h
    split at h
    · next n hn => cases h; exact .single n (beq_iff_eq.1 h₇) hn
    · cases h
  rw [if_neg h₇] at h
  by_cases h₈ : b == doubleQuote || b == backtick
  · rw [if_pos h₈] at h
    simp only [Bool.or_eq_true, beq_iff_eq] at h₈
    split at h
    · cases h
    · next n hn => cases h; exact .plain n h₈ hn
    · next n hn => cases h; exact .quote n h₈ hn
  rw [if_neg h₈] at h
  split at h
  · next header hh =>
    split_ifs at h
    · split at h
      · next n hn => cases h; exact .nowdoc header n hh hn
      · cases h
    · cases h; exact .heredoc header hh
  · split_ifs at h with h₉ h₁₀
    · cases h; exact .lbrace (beq_iff_eq.1 h₉)
    · cases h; exact .rbrace (beq_iff_eq.1 h₁₀)
    · cases h; exact .operator

theorem CodeMove.fits {b : UInt8} {s : Bytes} {m : Move} (h : CodeMove b s m) :
    Fits (b :: s) m.tokens ∧ m.tokens ≠ [] := by
  cases h with
  | whitespace h =>
    refine ⟨fits_single ?_ (Bytes.countWhile_le _ _), by simp⟩
    simp [Bytes.countWhile_cons, h]
  | lineComment h =>
    have hb : (b != newline) = true := by rcases h with rfl | rfl <;> decide
    refine ⟨fits_single ?_ (Bytes.countWhile_le _ _), by simp⟩
    simp [Bytes.countWhile_cons, hb]
  | blockComment n _ hs hn =>
    have hle : n + 2 ≤ (s.drop 1).length := Bytes.find?_le hn
    have hpos : 0 < s.length := List.length_pos_iff.2 (by rintro rfl; simp at hs)
    rw [List.length_drop] at hle
    refine ⟨fits_single (by omega) ?_, by simp⟩
    rw [List.length_cons]
    omega
  | var h hs => exact ⟨fits_single (by omega) (by simpa using nameChars_le s), by simp⟩
  | name h => exact ⟨fits_single (qualifiedName_pos h) (qualifiedName_le _), by simp⟩
  | number h => exact ⟨fits_single (number_pos h) (numberFrom_le ..), by simp⟩
  | single n _ hn => exact ⟨fits_single (by omega) (by simpa using singleQuoted_le hn), by simp⟩
  | plain n _ hn => exact ⟨fits_single (by omega) (by simpa using quoted_le hn), by simp⟩
  | quote n _ hn => exact ⟨fits_single (by omega) (by simp), by simp⟩
  | nowdoc header n hh hn =>
    obtain ⟨hp, hle, -⟩ := header?_bounds hh
    have := nowdocBody_le hn
    rw [List.length_drop] at this
    exact ⟨fits_single (by omega) (by omega), by simp⟩
  | heredoc header hh =>
    obtain ⟨hp, hle, -⟩ := header?_bounds hh
    exact ⟨fits_single hp hle, by simp⟩
  | lbrace => exact ⟨fits_single (by omega) (by simp), by simp⟩
  | rbrace => exact ⟨fits_single (by omega) (by simp), by simp⟩
  | operator =>
    obtain ⟨hp, hle⟩ := operator_bounds (List.cons_ne_nil b s)
    exact ⟨fits_single hp hle, by simp⟩

/-- The moves there are in the text of an interpolated string. -/
inductive TextMove (terminator : Kind) (closes : Bool → Bytes → Option Nat) (lineStart : Bool) :
    Bytes → Move → Prop where
  | close (s : Bytes) (n : Nat) : closes lineStart s = some n →
      TextMove terminator closes lineStart s ⟨[(terminator, n)], .leave⟩
  | var (d : UInt8) (t : Bytes) : closes lineStart (dollar :: d :: t) = none → isNameStart d →
      TextMove terminator closes lineStart (dollar :: d :: t)
        ⟨(.var, nameChars (d :: t) + 1) :: simpleSuffix ((d :: t).drop (nameChars (d :: t))), .stay⟩
  | curly (t : Bytes) : closes lineStart (lbrace :: dollar :: t) = none →
      TextMove terminator closes lineStart (lbrace :: dollar :: t) ⟨[(.curlyOpen, 1)], .enterCode⟩
  | dollarCurly (t : Bytes) : closes lineStart (dollar :: lbrace :: t) = none →
      TextMove terminator closes lineStart (dollar :: lbrace :: t) ⟨[(.dollarCurlyOpen, 2)], .enterCode⟩
  | literal (b d : UInt8) (t : Bytes) : closes lineStart (b :: d :: t) = none →
      startsInterpolation (b :: d :: t) = false →
      TextMove terminator closes lineStart (b :: d :: t)
        ⟨[(.encapsed, literal (fun l t => (closes l t).isSome) lineStart (b :: d :: t))], .stay⟩
  | last (b : UInt8) : closes lineStart [b] = none →
      TextMove terminator closes lineStart [b] ⟨[(.encapsed, 1)], .stay⟩

theorem textMove_cases (terminator : Kind) (closes : Bool → Bytes → Option Nat) (lineStart : Bool)
    (b : UInt8) (s : Bytes) :
    TextMove terminator closes lineStart (b :: s) (textMove terminator closes lineStart (b :: s)) := by
  unfold textMove
  split
  · next n hn => exact .close _ n hn
  · next hn =>
    cases s with
    | nil => exact .last b hn
    | cons d t =>
      simp only
      split_ifs with h₁ h₂ h₃
      · simp only [Bool.and_eq_true, beq_iff_eq] at h₁
        obtain ⟨rfl, hd⟩ := h₁
        exact .var d t hn hd
      · simp only [Bool.and_eq_true, beq_iff_eq] at h₂
        obtain ⟨rfl, rfl⟩ := h₂
        exact .curly t hn
      · simp only [Bool.and_eq_true, beq_iff_eq] at h₃
        obtain ⟨rfl, rfl⟩ := h₃
        exact .dollarCurly t hn
      · refine .literal b d t hn ?_
        grind [startsInterpolation]

theorem TextMove.fits {terminator : Kind} {closes : Bool → Bytes → Option Nat} {lineStart : Bool} {s : Bytes}
    {m : Move} (h : TextMove terminator closes lineStart s m)
    (hc : ∀ n, closes lineStart s = some n → 0 < n ∧ n ≤ s.length) :
    Fits s m.tokens ∧ m.tokens ≠ [] := by
  cases h with
  | close _ n hn => exact ⟨fits_single (hc n hn).1 (hc n hn).2, by simp⟩
  | var d t _ hd =>
    refine ⟨⟨by omega, by simpa using nameChars_le (d :: t), ?_⟩, by simp⟩
    exact fits_simpleSuffix _
  | curly => exact ⟨fits_single (by omega) (by simp), by simp⟩
  | dollarCurly => exact ⟨fits_single (by omega) (by simp), by simp⟩
  | literal b d t hn hi =>
    exact ⟨fits_single (literal_pos (by simp [hn]) hi) (literal_le ..), by simp⟩
  | last => exact ⟨fits_single (by omega) (by simp), by simp⟩

end Scan

/-- The frames after a step from `start` to `stop`. -/
def Effect.frames (start stop : Nat) : Effect → List Frame → List Frame
  | .stay, fs => fs
  | .enterQuoted delim, fs => .quoted stop delim :: fs
  | .enterHeredoc label, fs => .heredoc start label :: fs
  | .enterCode, fs => .nested stop 0 :: fs
  | .openBrace, .nested opened depth :: fs => .nested opened (depth + 1) :: fs
  | .openBrace, fs => fs
  | .closeBrace, .nested _ 0 :: fs => fs
  | .closeBrace, .nested opened (depth + 1) :: fs => .nested opened depth :: fs
  | .closeBrace, fs => fs
  | .leave, fs => fs.tail

namespace Cursor

/-- The frames that the tokens of a move lie in: a terminator lies outside its string. -/
def around (c : Cursor) (m : Move) : List Frame := if m.effect = .leave then c.frames.tail else c.frames

def perform (c : Cursor) (m : Move) : List Token × Cursor :=
  let (ts, d) := (c.withFrames (c.around m)).emit m.tokens
  (ts, d.withFrames (m.effect.frames c.pos d.pos c.frames))

def move (c : Cursor) (b : UInt8) (s : Bytes) : Except Problem Move :=
  match c.frames with
  | .quoted _ delim :: _ => .ok (Scan.textMove .quote (closesQuoted delim) c.lineStart (b :: s))
  | .heredoc _ label :: _ => .ok (Scan.textMove .heredocEnd (closesHeredoc label) c.lineStart (b :: s))
  | _ => Scan.codeMove b s

theorem emit_frames (c : Cursor) (ks : List (Kind × Nat)) : (c.emit ks).2.frames = c.frames := by
  induction ks generalizing c with
  | nil => rfl
  | cons k ks ih => exact ih (c.advance k.2)

theorem perform_stay (c : Cursor) (ks : List (Kind × Nat)) : c.perform ⟨ks, .stay⟩ = c.emit ks := by
  change ((c.emit ks).1, (c.emit ks).2.withFrames c.frames) = c.emit ks
  rw [← c.emit_frames ks]
  rfl

def follow (c : Cursor) : Except Problem Move → Step
  | .ok m => .ok (c.perform m)
  | .error problem => c.fail problem

theorem openBrace_eq (c : Cursor) : c.openBrace = .ok (c.perform ⟨[(.lbrace, 1)], .openBrace⟩) := by
  obtain ⟨frames, pos, lineStart, rest⟩ := c
  rcases frames with _ | ⟨_ | _ | _, fs⟩ <;> rfl

theorem closeBrace_eq (c : Cursor) : c.closeBrace = .ok (c.perform ⟨[(.rbrace, 1)], .closeBrace⟩) := by
  obtain ⟨frames, pos, lineStart, rest⟩ := c
  rcases frames with _ | ⟨⟨_, _ | _⟩ | _ | _, fs⟩ <;> rfl

theorem code_eq {c : Cursor} {b : UInt8} {s : Bytes} (hr : c.rest = b :: s) :
    c.code b s = c.follow (Scan.codeMove b s) := by
  simp only [code, Scan.codeMove, hr]
  by_cases h₁ : isSpace b
  · rw [if_pos h₁, if_pos h₁]; rfl
  rw [if_neg h₁, if_neg h₁]
  by_cases h₂ : b == hash || (b == slash && s.head? == some slash)
  · rw [if_pos h₂, if_pos h₂]; rfl
  rw [if_neg h₂, if_neg h₂]
  by_cases h₃ : b == slash && s.head? == some star
  · rw [if_pos h₃, if_pos h₃]
    cases Bytes.find? "*/" (s.drop 1) <;> rfl
  rw [if_neg h₃, if_neg h₃]
  by_cases h₄ : b == dollar && Scan.startsName s
  · rw [if_pos h₄, if_pos h₄]; rfl
  rw [if_neg h₄, if_neg h₄]
  by_cases h₅ : isNameStart b || (b == backslash && Scan.startsName s)
  · rw [if_pos h₅, if_pos h₅]; rfl
  rw [if_neg h₅, if_neg h₅]
  by_cases h₆ : isDigit b || (b == dot && Scan.startsDigit s)
  · rw [if_pos h₆, if_pos h₆]; rfl
  rw [if_neg h₆, if_neg h₆]
  by_cases h₇ : b == singleQuote
  · rw [if_pos h₇, if_pos h₇]
    cases Scan.singleQuoted s <;> rfl
  rw [if_neg h₇, if_neg h₇]
  by_cases h₈ : b == doubleQuote || b == backtick
  · rw [if_pos h₈, if_pos h₈, openQuoted]
    rcases Scan.quoted b s with _ | ⟨n, _ | _⟩ <;> rfl
  rw [if_neg h₈, if_neg h₈]
  cases Scan.header? (b :: s) with
  | some header =>
    simp only [openHeredoc, hr]
    cases header.nowdoc with
    | true => cases Scan.nowdocBody header.label true ((b :: s).drop header.length) <;> rfl
    | false => rfl
  | none =>
    by_cases h₉ : b == lbrace
    · simp only [if_pos h₉]
      exact c.openBrace_eq
    by_cases h₁₀ : b == rbrace
    · simp only [if_neg h₉, if_pos h₁₀]
      exact c.closeBrace_eq
    · simp only [if_neg h₉, if_neg h₁₀]
      rfl

theorem encapsed_eq {c : Cursor} {b : UInt8} {s : Bytes} (hr : c.rest = b :: s) (terminator : Kind)
    (closes : Bool → Bytes → Option Nat) :
    c.encapsed c.frames.tail terminator closes =
      .ok (c.perform (Scan.textMove terminator closes c.lineStart (b :: s))) := by
  unfold encapsed Scan.textMove
  rw [hr]
  cases closes c.lineStart (b :: s) with
  | some n => rfl
  | none =>
    cases s with
    | nil => rfl
    | cons d t =>
      simp only
      split_ifs
      · rw [perform_stay]
      · rfl
      · rfl
      · rfl

theorem step_eq {c : Cursor} {b : UInt8} {s : Bytes} (hr : c.rest = b :: s) :
    c.step b s = c.follow (c.move b s) := by
  rcases hf : c.frames with _ | ⟨_ | ⟨o, delim⟩ | ⟨o, label⟩, fs⟩
  · simpa only [step, move, hf] using code_eq hr
  · simpa only [step, move, hf] using code_eq hr
  · simpa only [step, move, hf, follow, List.tail_cons] using encapsed_eq hr .quote (closesQuoted delim)
  · simpa only [step, move, hf, follow, List.tail_cons] using encapsed_eq hr .heredocEnd (closesHeredoc label)

/-- The frames are well layered: text lies directly in code and interpolated code directly in text. The
flag tells whether the innermost construct is text. -/
inductive Layered : (inText : Bool) → List Frame → Prop where
  | top : Layered false []
  | nested (opened depth : Nat) {fs : List Frame} : Layered true fs → Layered false (.nested opened depth :: fs)
  | quoted (opened : Nat) {delim : UInt8} {fs : List Frame} : delim = doubleQuote ∨ delim = backtick →
      Layered false fs → Layered true (.quoted opened delim :: fs)
  | heredoc (start : Nat) {label : Bytes} {fs : List Frame} : isName label → Layered false fs →
      Layered true (.heredoc start label :: fs)

theorem Layered.of_nil {fs : List Frame} (h : fs = []) : Layered false fs := h ▸ .top

theorem move_code {c : Cursor} {b : UInt8} {s : Bytes} (h : Layered false c.frames) :
    c.move b s = Scan.codeMove b s := by
  unfold move
  cases hf : c.frames with
  | nil => rfl
  | cons f fs =>
    rw [hf] at h
    cases h with
    | nested => rfl

theorem move_text {c : Cursor} {b : UInt8} {s : Bytes} {m : Move} (hl : Layered true c.frames)
    (h : c.move b s = .ok m) :
    ∃ terminator closes, (terminator = .quote ∨ terminator = .heredocEnd) ∧
      Scan.TextMove terminator closes c.lineStart (b :: s) m := by
  unfold move at h
  generalize c.frames = frames at hl h
  cases hl with
  | quoted => cases h; exact ⟨_, _, .inl rfl, Scan.textMove_cases ..⟩
  | heredoc => cases h; exact ⟨_, _, .inr rfl, Scan.textMove_cases ..⟩

theorem closesQuoted_bounds {delim : UInt8} {lineStart : Bool} {s : Bytes} {n : Nat}
    (h : closesQuoted delim lineStart s = some n) : n = 1 ∧ s.head? = some delim := by
  simp only [closesQuoted, Option.ite_none_right_eq_some, beq_iff_eq, Option.some.injEq] at h
  exact ⟨h.2.symm, h.1⟩

theorem closesHeredoc_eq_some {label : Bytes} {lineStart : Bool} {s : Bytes} {n : Nat} :
    closesHeredoc label lineStart s = some n ↔ lineStart ∧ Scan.closingLabel? label s = some n := by
  simp [closesHeredoc]

theorem move_fits {c : Cursor} {inText : Bool} {b : UInt8} {s : Bytes} {m : Move}
    (hl : Layered inText c.frames) (h : c.move b s = .ok m) :
    Scan.Fits (b :: s) m.tokens ∧ m.tokens ≠ [] := by
  cases inText with
  | false =>
    rw [move_code hl] at h
    exact (Scan.codeMove_cases h).fits
  | true =>
    unfold move at h
    generalize c.frames = frames at hl h
    cases hl with
    | quoted opened hd _ =>
      cases h
      refine (Scan.textMove_cases ..).fits fun n hn => ?_
      simp [(closesQuoted_bounds hn).1]
    | heredoc start hn _ =>
      cases h
      refine (Scan.textMove_cases ..).fits fun n hc => ?_
      have hb := Scan.closingLabel?_bounds (closesHeredoc_eq_some.1 hc).2
      exact ⟨(List.length_pos_iff.2 (Scan.isName_ne_nil hn)).trans_le hb.1, hb.2⟩

theorem Layered.after {c : Cursor} {inText : Bool} {b : UInt8} {s : Bytes} {m : Move}
    (hl : Layered inText c.frames) (h : c.move b s = .ok m) (start stop : Nat) :
    ∃ inText', Layered inText' (m.effect.frames start stop c.frames) := by
  cases inText with
  | false =>
    rw [move_code hl] at h
    cases Scan.codeMove_cases h with
    | quote n hb => exact ⟨true, .quoted _ hb hl⟩
    | heredoc header hh => exact ⟨true, .heredoc _ (Scan.header?_bounds hh).2.2 hl⟩
    | lbrace =>
      generalize c.frames = frames at hl
      cases hl with
      | top => exact ⟨false, .top⟩
      | nested opened depth ht => exact ⟨false, .nested _ _ ht⟩
    | rbrace =>
      generalize c.frames = frames at hl
      cases hl with
      | top => exact ⟨false, .top⟩
      | nested opened depth ht =>
        cases depth with
        | zero => exact ⟨true, ht⟩
        | succ depth => exact ⟨false, .nested _ _ ht⟩
    | _ => exact ⟨false, hl⟩
  | true =>
    obtain ⟨terminator, closes, -, ht⟩ := move_text hl h
    cases ht with
    | close =>
      generalize c.frames = frames at hl
      cases hl with
      | quoted _ _ hfs => exact ⟨false, hfs⟩
      | heredoc _ _ hfs => exact ⟨false, hfs⟩
    | curly => exact ⟨false, .nested _ _ hl⟩
    | dollarCurly => exact ⟨false, .nested _ _ hl⟩
    | _ => exact ⟨true, hl⟩

theorem advance_advance (c : Cursor) {n k : Nat} (hk : 0 < k) (hn : n + k ≤ c.rest.length) :
    (c.advance n).advance k = c.advance (n + k) := by
  simp only [advance, Cursor.mk.injEq, true_and, Nat.add_assoc, List.drop_drop, and_true]
  have hne : (c.rest.drop n).take k ≠ [] := by
    rw [← List.length_pos_iff, List.length_take, List.length_drop]
    omega
  rw [List.take_add, List.getLast?_append_of_ne_nil _ hne]

theorem emit_snd {c : Cursor} {ks : List (Kind × Nat)} (hf : Scan.Fits c.rest ks) (hne : ks ≠ []) :
    (c.emit ks).2 = c.advance (Scan.total ks) := by
  induction ks generalizing c with
  | nil => contradiction
  | cons k ks ih =>
    rw [emit, Scan.total_cons]
    cases ks with
    | nil => rfl
    | cons k' ks =>
      rw [ih hf.2.2 (by simp)]
      have hle := hf.2.2.total_le
      have := hf.2.1
      rw [List.length_drop] at hle
      exact advance_advance c (hf.2.2.total_pos (by simp)) (by omega)

theorem perform_snd {c : Cursor} {m : Move} (hf : Scan.Fits c.rest m.tokens) (hne : m.tokens ≠ []) :
    (c.perform m).2 = (c.advance (Scan.total m.tokens)).withFrames
      (m.effect.frames c.pos (c.pos + Scan.total m.tokens) c.frames) := by
  have h : ((c.withFrames (c.around m)).emit m.tokens).2 =
      (c.withFrames (c.around m)).advance (Scan.total m.tokens) := emit_snd hf hne
  simp only [perform, h]
  rfl

end Cursor

end Stencil.Token
