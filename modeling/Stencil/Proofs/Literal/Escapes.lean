import Stencil.Proofs.Literal.Grammar

/-! Escapes in double-quoted literals. `pieces` cuts the inside of a literal into bytes and escapes, each escape as long
as it goes, and `denoted?` is the text that these stand for. A literal without interpolation is a constant, and it is the
text denoted if and only if no escape gives a byte or a character by its number, `\0` apart: the others are kept as they
are written. -/

namespace Stencil.Literal

open Ascii

def isOctal (c : UInt8) : Bool := 0x30 ≤ c && c ≤ 0x37

def isHex (c : UInt8) : Bool := (digitValue? c).any (· < 16)

def numeral (base : Nat) (digits : Bytes) : Nat := Numeral.value base (digits.map fun d => (digitValue? d).getD 0)

def codeBytes (code : Nat) : Bytes :=
  if 0xd800 ≤ code ∧ code < 0xe000 then [0xed, UInt8.ofNat (0x80 + code / 64 % 64), UInt8.ofNat (0x80 + code % 64)]
  else Utf8.encode code

/-- The letters that stand for a byte after a backslash, with the byte. -/
def letters : List (UInt8 × UInt8) :=
  [(0x6e, 0x0a), (0x74, 0x09), (0x72, 0x0d), (0x76, 0x0b), (0x65, 0x1b), (0x66, 0x0c), (backslash, backslash),
    (dollar, dollar), (doubleQuote, doubleQuote)]

/-- A byte that stands for itself, or an escape. -/
inductive Piece where
  | byte (c : UInt8)
  | letter (c meaning : UInt8)
  | octal (digits : Bytes)
  | hex (digits : Bytes)
  | codePoint (digits : Bytes)

namespace Piece

def text : Piece → Bytes
  | byte c => [c]
  | letter c _ => [backslash, c]
  | octal digits => backslash :: digits
  | hex digits => backslash :: 0x78 :: digits
  | codePoint digits => backslash :: 0x75 :: lbrace :: (digits ++ [rbrace])

/-- The bytes a piece stands for; a code point past the last one stands for nothing. -/
def meaning? : Piece → Option Bytes
  | byte c => some [c]
  | letter _ meaning => some [meaning]
  | octal digits => some [UInt8.ofNat (numeral 8 digits)]
  | hex digits => some [UInt8.ofNat (numeral 16 digits)]
  | codePoint digits => if numeral 16 digits < 0x110000 then some (codeBytes (numeral 16 digits)) else none

def codePoint? : Bytes → Option Piece
  | c :: s =>
    if c = lbrace ∧ s.head?.any isHex ∧ (s.dropWhile isHex).head? = some rbrace then some (codePoint (s.takeWhile isHex))
    else none
  | [] => none

def escape? : Bytes → Option Piece
  | [] => none
  | d :: s =>
    match letters.lookup d with
    | some meaning => some (letter d meaning)
    | none =>
      if isOctal d then some (octal (d :: (s.take 2).takeWhile isOctal))
      else if d = 0x78 ∧ s.head?.any isHex then some (hex ((s.take 2).takeWhile isHex))
      else if d = 0x75 then codePoint? s
      else none

/-- The piece that starts with `c` and goes on in `s`. -/
def first (c : UInt8) (s : Bytes) : Piece :=
  if c = backslash then (escape? s).getD (byte c) else byte c

def piecesFrom : (skip : Nat) → Bytes → List Piece
  | _, [] => []
  | skip + 1, _ :: s => piecesFrom skip s
  | 0, c :: s => first c s :: piecesFrom ((first c s).text.length - 1) s

/-- What the evaluator makes of a piece. -/
def kept : Piece → Bytes
  | letter _ meaning => [meaning]
  | octal (0x30 :: digits) => 0x00 :: digits
  | p => p.text

/-- The piece gives nothing by its number, or is `\0`. -/
def Plain : Piece → Prop
  | byte _ => True
  | letter _ _ => True
  | octal digits => digits = [0x30]
  | _ => False

instance : DecidablePred Plain
  | byte _ => inferInstanceAs (Decidable True)
  | letter _ _ => inferInstanceAs (Decidable True)
  | octal digits => inferInstanceAs (Decidable (digits = [0x30]))
  | hex _ => inferInstanceAs (Decidable False)
  | codePoint _ => inferInstanceAs (Decidable False)

end Piece

/-- The pieces of the inside of a double-quoted literal. -/
def pieces (s : Bytes) : List Piece := Piece.piecesFrom 0 s

/-- The text that the inside of a double-quoted literal stands for. -/
def denoted? (s : Bytes) : Option Bytes := ((pieces s).mapM Piece.meaning?).map List.flatten

namespace Piece

variable {p : Piece} {c : UInt8} {s : Bytes}

/-- What the pieces of a text are like: a letter has its meaning, and a number at least one digit. -/
def Sound : Piece → Prop
  | byte _ => True
  | letter c meaning => letters.lookup c = some meaning
  | octal digits => digits ≠ [] ∧ ∀ d ∈ digits, isOctal d
  | hex digits => digits ≠ [] ∧ ∀ d ∈ digits, isHex d
  | codePoint digits => digits ≠ [] ∧ ∀ d ∈ digits, isHex d

theorem takeWhile_ne_nil {q : UInt8 → Bool} (h : s.head?.any q) : s.takeWhile q ≠ [] := by
  cases s with
  | nil => cases h
  | cons d s =>
    have hd : q d = true := h
    simp [hd]

theorem codePoint?_eq_some (h : codePoint? s = some p) :
    p.Sound ∧ (∀ c, p ≠ byte c) ∧ ∃ rest, backslash :: 0x75 :: s = p.text ++ rest := by
  cases s with
  | nil => cases h
  | cons c s =>
    rw [codePoint?, Option.ite_none_right_eq_some] at h
    obtain ⟨⟨rfl, hfirst, hlast⟩, heq⟩ := h
    cases heq
    obtain ⟨rest, hrest⟩ := List.head?_eq_some_iff.mp hlast
    refine ⟨⟨takeWhile_ne_nil hfirst, List.all_eq_true.mp List.all_takeWhile⟩, by simp, rest, ?_⟩
    simp only [text, List.cons_append, List.append_assoc, List.nil_append, ← hrest, List.takeWhile_append_dropWhile]

theorem escape?_eq_some (h : escape? s = some p) :
    p.Sound ∧ (∀ c, p ≠ byte c) ∧ ∃ rest, backslash :: s = p.text ++ rest := by
  have hstart (q : UInt8 → Bool) (s : Bytes) : (s.take 2).takeWhile q <+: s :=
    (List.takeWhile_prefix q).trans (List.take_prefix 2 s)
  cases s with
  | nil => cases h
  | cons d s =>
    rw [escape?] at h
    split at h
    next meaning hmeaning =>
      cases h
      exact ⟨hmeaning, by simp, s, rfl⟩
    next =>
      split_ifs at h with hoctal hhex hcode
      · cases h
        obtain ⟨rest, hrest⟩ := hstart isOctal s
        have hdigits : ∀ c ∈ d :: (s.take 2).takeWhile isOctal, isOctal c :=
          List.forall_mem_cons.mpr ⟨hoctal, List.all_eq_true.mp List.all_takeWhile⟩
        refine ⟨⟨List.cons_ne_nil _ _, hdigits⟩, by simp, rest, ?_⟩
        simp only [text, List.cons_append, hrest]
      · cases h
        obtain ⟨rest, hrest⟩ := hstart isHex s
        refine ⟨⟨takeWhile_ne_nil (by rw [List.head?_take, if_neg (by decide)]; exact hhex.2), List.all_eq_true.mp List.all_takeWhile⟩, by simp, rest, ?_⟩
        simp only [text, List.cons_append, hrest, hhex.1]
      · obtain ⟨hsound, hbyte, rest, hrest⟩ := codePoint?_eq_some h
        exact ⟨hsound, hbyte, rest, by rw [hcode, hrest]⟩

theorem escapeLetter?_eq (d : UInt8) :
    escapeLetter? d = (letters.lookup d).or (if d = 0x30 then some 0x00 else none) := by
  have hall : ∀ d : Fin 256, escapeLetter? (.ofFin d) =
      (letters.lookup (.ofFin d)).or (if UInt8.ofFin d = 0x30 then some 0x00 else none) := by decide +kernel
  exact hall d.toFin

theorem unescapeDouble_backslash (h : escape? s = none) : unescapeDouble (backslash :: s) = backslash :: unescapeDouble s := by
  cases s with
  | nil => rfl
  | cons d s =>
    have hd : escapeLetter? d = none := by
      rw [escape?] at h
      split at h
      next => cases h
      next hnone =>
        split_ifs at h with hoctal
        all_goals
          rw [escapeLetter?_eq, hnone, if_neg]
          · rfl
          · rintro rfl
            exact hoctal (by decide)
    simp [unescapeDouble, hd]

theorem unescapeDouble_cons (hc : c ≠ backslash) (s : Bytes) : unescapeDouble (c :: s) = c :: unescapeDouble s := by
  cases s with
  | nil => rfl
  | cons d s => simp [unescapeDouble, hc]

theorem unescapeDouble_append {digits : Bytes} (h : ∀ d ∈ digits, d ≠ backslash) (s : Bytes) :
    unescapeDouble (digits ++ s) = digits ++ unescapeDouble s := by
  induction digits with
  | nil => rfl
  | cons d digits ih =>
    obtain ⟨hd, h⟩ := List.forall_mem_cons.mp h
    rw [List.cons_append, unescapeDouble_cons hd, ih h]
    rfl

/-- An escape that is no letter is kept, with all that belongs to it. -/
theorem unescapeDouble_kept {d : UInt8} {more : Bytes} (hd : escapeLetter? d = none) (h : ∀ c ∈ d :: more, c ≠ backslash)
    (s : Bytes) : unescapeDouble (backslash :: d :: more ++ s) = backslash :: d :: more ++ unescapeDouble s := by
  have happend := unescapeDouble_append h s
  simp only [List.cons_append] at happend ⊢
  rw [unescapeDouble]
  simp [hd, happend]

theorem isOctal_ne {d : UInt8} (h : isOctal d) : d ≠ backslash ∧ (d ≠ 0x30 → escapeLetter? d = none) := by
  have hall : ∀ d : Fin 256, isOctal (.ofFin d) →
      UInt8.ofFin d ≠ backslash ∧ (UInt8.ofFin d ≠ 0x30 → escapeLetter? (.ofFin d) = none) := by decide +kernel
  exact hall d.toFin h

theorem isHex_ne {d : UInt8} (h : isHex d) : d ≠ backslash := by
  rintro rfl
  exact absurd h (by decide)

theorem Sound.unescapeDouble (h : p.Sound) (hbyte : ∀ c, p ≠ byte c) (s : Bytes) :
    unescapeDouble (p.text ++ s) = p.kept ++ unescapeDouble s := by
  cases p with
  | byte c => exact absurd rfl (hbyte c)
  | letter c meaning =>
    have hc : escapeLetter? c = some meaning := by
      rw [escapeLetter?_eq, show letters.lookup c = some meaning from h]
      rfl
    simp [text, kept, Literal.unescapeDouble, hc]
  | octal digits =>
    obtain ⟨hne, hdigits⟩ := h
    obtain ⟨d, digits, rfl⟩ := List.exists_cons_of_ne_nil hne
    obtain ⟨hd, hdigits⟩ := List.forall_mem_cons.mp hdigits
    have hplain : ∀ c ∈ digits, c ≠ backslash := fun c hc => (isOctal_ne (hdigits c hc)).1
    by_cases hzero : d = 0x30
    · subst hzero
      have hletter : escapeLetter? 0x30 = some 0x00 := by decide
      simp [text, kept, Literal.unescapeDouble, hletter, unescapeDouble_append hplain]
    · have hkept : (octal (d :: digits)).kept = (octal (d :: digits)).text := by simp [kept, hzero]
      rw [hkept]
      exact unescapeDouble_kept ((isOctal_ne hd).2 hzero) (List.forall_mem_cons.mpr ⟨(isOctal_ne hd).1, hplain⟩) s
  | hex digits =>
    have hdigits : ∀ c ∈ digits, c ≠ backslash := fun c hc => isHex_ne (h.2 c hc)
    exact unescapeDouble_kept (by decide) (List.forall_mem_cons.mpr ⟨by decide, hdigits⟩) s
  | codePoint digits =>
    have hdigits : ∀ c ∈ lbrace :: (digits ++ [rbrace]), c ≠ backslash := by
      simp only [List.forall_mem_cons, List.forall_mem_append, List.not_mem_nil]
      exact ⟨by decide, fun c hc => isHex_ne (h.2 c hc), by decide, by simp⟩
    exact unescapeDouble_kept (by decide) (List.forall_mem_cons.mpr ⟨by decide, hdigits⟩) s

theorem text_pos (p : Piece) : 0 < p.text.length := by
  cases p <;> simp [text]

theorem first_spec (c : UInt8) (s : Bytes) : (first c s).Sound ∧
    ∃ rest, c :: s = (first c s).text ++ rest ∧ unescapeDouble (c :: s) = (first c s).kept ++ unescapeDouble rest := by
  rw [first]
  split_ifs with hc
  · subst hc
    cases hp : escape? s with
    | none => exact ⟨trivial, s, rfl, unescapeDouble_backslash hp⟩
    | some p =>
      obtain ⟨hsound, hbyte, rest, hrest⟩ := escape?_eq_some hp
      exact ⟨hsound, rest, hrest, by rw [hrest, Option.getD_some, hsound.unescapeDouble hbyte]⟩
  · exact ⟨trivial, s, rfl, unescapeDouble_cons hc s⟩

/-- The pieces cover the text, and the evaluator makes of it what it makes of each. -/
theorem piecesFrom_spec (skip : Nat) (s : Bytes) : (∀ p ∈ piecesFrom skip s, p.Sound) ∧
    unescapeDouble (s.drop skip) = (piecesFrom skip s).flatMap kept := by
  fun_induction piecesFrom skip s with
  | case1 => simp [Literal.unescapeDouble]
  | case2 skip c s ih => exact ih
  | case3 c s ih =>
    obtain ⟨hsound, rest, hrest, heq⟩ := first_spec c s
    have hdrop : s.drop ((first c s).text.length - 1) = rest := by
      have hpos := (first c s).text_pos
      have hall : (c :: s).drop (first c s).text.length = rest := by rw [hrest, List.drop_left]
      rwa [← Nat.sub_add_cancel hpos, List.drop_succ_cons] at hall
    rw [hdrop] at ih
    refine ⟨List.forall_mem_cons.mpr ⟨hsound, ih.1⟩, ?_⟩
    rw [List.drop_zero, heq, ih.2, List.flatMap_cons]

theorem length_codeBytes (code : Nat) : (codeBytes code).length ≤ 4 := by
  rw [codeBytes, Utf8.encode]
  split_ifs <;> simp

/-- A piece stands for no more bytes than the evaluator makes of it, and for as many only if it is plain. -/
theorem Sound.length_le (h : p.Sound) {m : Bytes} (hm : p.meaning? = some m) :
    m.length ≤ p.kept.length ∧ (m.length = p.kept.length → p.Plain) := by
  cases p with
  | byte c =>
    cases hm
    exact ⟨Nat.le_refl _, fun _ => trivial⟩
  | letter c meaning =>
    cases hm
    exact ⟨Nat.le_refl _, fun _ => trivial⟩
  | octal digits =>
    cases hm
    obtain ⟨d, digits, rfl⟩ := List.exists_cons_of_ne_nil h.1
    by_cases hzero : d = 0x30
    · subst hzero
      refine ⟨by simp [kept], fun hlength => ?_⟩
      have hnil : digits = [] := by simpa [kept, eq_comm] using hlength
      rw [hnil]
      rfl
    · have hkept : (octal (d :: digits)).kept = backslash :: d :: digits := by simp [kept, text, hzero]
      rw [hkept]
      exact ⟨by simp, fun hlength => absurd hlength (by simp)⟩
  | hex digits =>
    cases hm
    exact ⟨by simp [kept, text], fun hlength => absurd hlength (by simp [kept, text])⟩
  | codePoint digits =>
    rw [meaning?, Option.ite_none_right_eq_some] at hm
    obtain ⟨-, hm⟩ := hm
    cases hm
    have hfour := length_codeBytes (numeral 16 digits)
    have hlength : (codePoint digits).kept.length = digits.length + 4 := by simp [kept, text]
    have hpos := List.length_pos_iff.mpr h.1
    exact ⟨by omega, fun _ => by omega⟩

theorem Plain.meaning (h : p.Plain) : p.meaning? = some p.kept := by
  cases p with
  | byte c => rfl
  | letter c meaning => rfl
  | octal digits =>
    obtain rfl : digits = [0x30] := h
    rfl
  | hex digits => cases h
  | codePoint digits => cases h

variable {ps : List Piece}

theorem mapM_meaning (h : ∀ p ∈ ps, p.Plain) : ps.mapM meaning? = some (ps.map kept) := by
  induction ps with
  | nil => rfl
  | cons p ps ih =>
    obtain ⟨hp, h⟩ := List.forall_mem_cons.mp h
    rw [List.mapM_cons, hp.meaning, ih h]
    rfl

theorem length_flatten_le (hsound : ∀ p ∈ ps, p.Sound) {ms : List Bytes} (h : ps.mapM meaning? = some ms) :
    ms.flatten.length ≤ (ps.flatMap kept).length ∧
      (ms.flatten.length = (ps.flatMap kept).length → ∀ p ∈ ps, p.Plain) := by
  induction ps generalizing ms with
  | nil => cases h; simp
  | cons p ps ih =>
    obtain ⟨hp, hsound⟩ := List.forall_mem_cons.mp hsound
    simp only [List.mapM_cons, Option.bind_eq_bind, Option.bind_eq_some_iff, Option.pure_def, Option.some.injEq] at h
    obtain ⟨m, hm, ms, hms, rfl⟩ := h
    obtain ⟨hle, hplain⟩ := hp.length_le hm
    obtain ⟨hle', hplain'⟩ := ih hsound hms
    rw [List.flatten_cons, List.flatMap_cons, List.length_append, List.length_append]
    refine ⟨by omega, fun hlength => List.forall_mem_cons.mpr ⟨hplain (by omega), hplain' (by omega)⟩⟩

end Piece

theorem unescapeDouble_eq (s : Bytes) : unescapeDouble s = (pieces s).flatMap Piece.kept := (Piece.piecesFrom_spec 0 s).2

theorem denoted?_eq_unescapeDouble_iff (s : Bytes) : denoted? s = some (unescapeDouble s) ↔ ∀ p ∈ pieces s, p.Plain := by
  rw [denoted?, unescapeDouble_eq]
  constructor
  · intro h
    obtain ⟨ms, hms, heq⟩ := Option.map_eq_some_iff.mp h
    exact (Piece.length_flatten_le (Piece.piecesFrom_spec 0 s).1 hms).2 (congrArg List.length heq)
  · intro h
    rw [Piece.mapM_meaning h, Option.map_some, List.flatMap_def]

theorem spells_double {body : Bytes} (h : Token.Scan.Inside doubleQuote false body) (z : Bytes) :
    Token.Spells [(.string, doubleQuote :: (body ++ [doubleQuote]))] z := by
  refine .single ?_
  rw [List.append_assoc, List.singleton_append]
  simp only [Token.Scan.codeMove, h.quoted (by decide), List.length_cons, List.length_append, List.length_nil]
  rfl

/-- A double-quoted literal without interpolation is a constant, whose text is what the evaluator makes of its pieces: a
letter is decoded, a zero becomes a null byte, and any other escape is kept. So it is the text denoted if and only if
all pieces are plain. -/
theorem evaluate_double {body : Bytes} (h : Token.Scan.Inside doubleQuote false body) :
    evaluate (doubleQuote :: (body ++ [doubleQuote])) = some (.string ((pieces body).flatMap Piece.kept)) ∧
      (evaluate (doubleQuote :: (body ++ [doubleQuote])) = (denoted? body).map .string ↔ ∀ p ∈ pieces body, p.Plain) := by
  have hvalue : evaluate (doubleQuote :: (body ++ [doubleQuote])) = some (.string (unescapeDouble body)) := by
    obtain ⟨ts, hts, hpieces⟩ := (spells_double h []).tokenize
    rw [List.flatMap_singleton] at hts
    refine evaluate_eq_some_iff.mpr ⟨ts, hts, ?_⟩
    rw [hpieces]
    exact .double body
  refine ⟨by rw [hvalue, unescapeDouble_eq], ?_⟩
  rw [hvalue, ← denoted?_eq_unescapeDouble_iff]
  constructor
  · intro heq
    obtain ⟨s, hs, hstring⟩ := Option.map_eq_some_iff.mp heq.symm
    cases hstring
    exact hs
  · intro heq
    rw [heq]
    rfl

/-- An escaped backslash before what would be a number, an escape of no meaning, and a null byte. -/
theorem evaluate_double_mixed : Token.Scan.Inside doubleQuote false "a\\n\\\\x41\\q\\0" ∧
    evaluate "\"a\\n\\\\x41\\q\\0\"" = some (.string [0x61, 0x0a, backslash, 0x78, 0x34, 0x31, backslash, 0x71, 0x00]) ∧
    evaluate "\"a\\n\\\\x41\\q\\0\"" = (denoted? "a\\n\\\\x41\\q\\0").map .string := by
  have hinside : Token.Scan.Inside doubleQuote false "a\\n\\\\x41\\q\\0" :=
    (Token.Scan.inside_iff (by decide)).mpr (by decide)
  have hpieces : pieces "a\\n\\\\x41\\q\\0" = [.byte 0x61, .letter 0x6e 0x0a, .letter backslash backslash, .byte 0x78,
      .byte 0x34, .byte 0x31, .byte backslash, .byte 0x71, .octal "0"] := by rfl
  obtain ⟨hvalue, hiff⟩ := evaluate_double hinside
  rw [hpieces] at hvalue hiff
  exact ⟨hinside, hvalue, hiff.mpr (by decide)⟩

/-- A byte given by its number is not decoded. -/
theorem hexadecimal_kept : evaluate "\"\\x41\"" = some (.string "\\x41") ∧ denoted? "\\x41" = some "A" := by
  refine ⟨?_, by rfl⟩
  rfl

end Stencil.Literal
