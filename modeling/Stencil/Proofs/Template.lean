import Stencil.Proofs.Decimal
import Stencil.Template

/-! Templates as they are meant. A template is put together from literal texts, in which percent signs are doubled, and
from places for arguments. However these are put together, none is read together with what stands next to it, and what is
filled in is not read at all. -/

namespace Stencil.Template

/-- The letter a place for an argument ends in; both letters fill in the same. -/
inductive Letter where
  | s
  | d
deriving DecidableEq, Repr

def Letter.byte : Letter → UInt8
  | .s => 0x73
  | .d => 0x64

/-- The number of an argument, counted from one; it fits 63 bits. -/
structure Ordinal where
  number : Nat
  pos : 1 ≤ number
  bound : number < 2 ^ 63
deriving DecidableEq, Repr

inductive Part where
  | literal (s : Bytes)
  | next (letter : Letter)
  | nth (n : Ordinal) (letter : Letter)
deriving DecidableEq, Repr

namespace Part

def write : Part → Bytes
  | .literal s => s.flatMap fun c => if c = Ascii.percent then [c, c] else [c]
  | .next letter => [Ascii.percent, letter.byte]
  | .nth n letter => Ascii.percent :: (Bytes.ofNat n.number ++ [Ascii.dollar, letter.byte])

def isNext : Part → Bool
  | .next _ => true
  | _ => false

/-- What the part stands for behind other parts: its own text, the argument after those that the parts before it have
taken in turn, or the argument with its number. A missing argument is empty. -/
def text (args : List Bytes) (before : List Part) : Part → Bytes
  | .literal s => s
  | .next _ => args.getD (before.countP isNext) []
  | .nth n _ => args.getD (n.number - 1) []

def pieces : Part → List Piece
  | .literal s => s.map .byte
  | .next _ => [.next]
  | .nth n _ => [.nth n.number]

end Part

variable {c d : UInt8} {s rest : Bytes} {n : Nat}

theorem length_positional? (h : positional? s = some (n, rest)) : rest.length ≤ s.length := by
  have hdrop := (List.dropWhile_sublist Ascii.isDigit (l := s)).length_le
  unfold positional? at h
  split at h
  next hs =>
    rw [hs, List.length_cons, List.length_cons] at hdrop
    split at h
    · split at h
      · split at h
        · cases h
          omega
        · cases h
      · cases h
    · cases h
  · cases h

theorem length_piece (c : UInt8) (s : Bytes) : (piece c s).2.length ≤ s.length := by
  unfold piece
  split
  · exact le_rfl
  · split
    · exact le_rfl
    next d rest =>
      split
      · exact Nat.le_succ _
      · split
        · exact Nat.le_succ _
        · split
          next hn => exact length_positional? hn
          next => exact le_rfl

theorem piecesFrom_succ (fuel : Nat) (c : UInt8) (s : Bytes) :
    piecesFrom (fuel + 1) (c :: s) = (piece c s).1 :: piecesFrom fuel (piece c s).2 := rfl

/-- As many steps as there are bytes are enough. -/
theorem piecesFrom_eq {fuel : Nat} (h : s.length ≤ fuel) : piecesFrom fuel s = Template.pieces s := by
  induction fuel using Nat.strongRecOn generalizing s with
  | ind fuel ih =>
    cases s with
    | nil => cases fuel <;> rfl
    | cons c s =>
      rw [List.length_cons] at h
      obtain ⟨fuel, rfl⟩ : ∃ n, fuel = n + 1 := ⟨fuel - 1, by omega⟩
      have hrest := length_piece c s
      have hfuel : piecesFrom fuel (piece c s).2 = Template.pieces (piece c s).2 := ih fuel (by omega) (by omega)
      have hlength : piecesFrom s.length (piece c s).2 = Template.pieces (piece c s).2 := ih s.length (by omega) hrest
      rw [Template.pieces, List.length_cons, piecesFrom_succ, piecesFrom_succ, hfuel, hlength]

theorem pieces_cons (c : UInt8) (s : Bytes) :
    Template.pieces (c :: s) = (piece c s).1 :: Template.pieces (piece c s).2 := by
  unfold Template.pieces
  rw [List.length_cons, piecesFrom_succ, piecesFrom_eq (length_piece c s)]
  rfl

theorem pieces_byte (h : c ≠ Ascii.percent) (s : Bytes) : Template.pieces (c :: s) = .byte c :: Template.pieces s := by
  have hpiece : piece c s = (.byte c, s) := if_pos (bne_iff_ne.mpr h)
  rw [pieces_cons, hpiece]

theorem pieces_percent (s : Bytes) :
    Template.pieces (Ascii.percent :: Ascii.percent :: s) = .byte Ascii.percent :: Template.pieces s := by
  rw [pieces_cons]
  rfl

theorem pieces_literal (text s : Bytes) :
    Template.pieces ((Part.literal text).write ++ s) = (Part.literal text).pieces ++ Template.pieces s := by
  rw [Part.write, Part.pieces]
  induction text with
  | nil => rfl
  | cons c text ih =>
    rw [List.flatMap_cons, List.map_cons, List.cons_append, List.append_assoc, ← ih]
    split
    next h =>
      subst h
      exact pieces_percent _
    next h => exact pieces_byte h _

theorem pieces_next (letter : Letter) (s : Bytes) :
    Template.pieces ((Part.next letter).write ++ s) = (Part.next letter).pieces ++ Template.pieces s := by
  rw [Part.write, Part.pieces, List.cons_append, pieces_cons]
  cases letter <;> rfl

theorem positional?_ofNat (n : Ordinal) (letter : Letter) (s : Bytes) :
    positional? (Bytes.ofNat n.number ++ Ascii.dollar :: letter.byte :: s) = some (n.number, s) := by
  have hdigits := Bytes.isDigit_ofNat n.number
  have hdollar : ¬ Ascii.isDigit Ascii.dollar := by decide
  have hdrop : (Bytes.ofNat n.number ++ Ascii.dollar :: letter.byte :: s).dropWhile Ascii.isDigit =
      Ascii.dollar :: letter.byte :: s := by
    rw [List.dropWhile_append_of_pos hdigits, List.dropWhile_cons_of_neg hdollar]
  have htake : (Bytes.ofNat n.number ++ Ascii.dollar :: letter.byte :: s).takeWhile Ascii.isDigit =
      Bytes.ofNat n.number := by
    rw [List.takeWhile_append_of_pos hdigits, List.takeWhile_cons_of_neg hdollar, List.append_nil]
  have hletter : isConversion letter.byte := by cases letter <;> rfl
  have hrange : 1 ≤ n.number ∧ n.number < Nat.pow 2 63 := ⟨n.pos, n.bound⟩
  rw [positional?, hdrop]
  dsimp only
  rw [htake, hletter, Bytes.toNat?_ofNat]
  simp only [beq_self_eq_true, Bool.and_self, if_true, hrange, and_self]

theorem pieces_nth (n : Ordinal) (letter : Letter) (s : Bytes) :
    Template.pieces ((Part.nth n letter).write ++ s) = (Part.nth n letter).pieces ++ Template.pieces s := by
  have hdigit : ∀ d < 10, Bytes.digit d ≠ Ascii.percent ∧ isConversion (Bytes.digit d) = false := by decide
  have hnumber := positional?_ofNat n letter s
  obtain ⟨d, digits, hd, hdigits⟩ := Bytes.ofNat_eq_cons n.number
  rw [hdigits, List.cons_append] at hnumber
  obtain ⟨hpercent, hletter⟩ := hdigit d hd
  have hpiece : piece Ascii.percent (Bytes.digit d :: (digits ++ Ascii.dollar :: letter.byte :: s)) = (.nth n.number, s) := by
    rw [piece, hletter, beq_false_of_ne hpercent, hnumber]
    rfl
  rw [Part.write, Part.pieces, hdigits]
  simp only [List.cons_append, List.append_assoc, List.nil_append]
  rw [pieces_cons, hpiece]

/-- No part is read together with what stands behind it. -/
theorem pieces_part (p : Part) (s : Bytes) : Template.pieces (p.write ++ s) = p.pieces ++ Template.pieces s := by
  cases p with
  | literal text => exact pieces_literal text s
  | next letter => exact pieces_next letter s
  | nth n letter => exact pieces_nth n letter s

theorem pieces_parts (parts : List Part) : Template.pieces (parts.flatMap Part.write) = parts.flatMap Part.pieces := by
  induction parts with
  | nil => rfl
  | cons p parts ih => rw [List.flatMap_cons, List.flatMap_cons, pieces_part, ih]

theorem fill_append (args : List Bytes) (used : Nat) (s : Bytes) (ps : List Piece) :
    fill args used (s.map .byte ++ ps) = s ++ fill args used ps := by
  induction s with
  | nil => rfl
  | cons c s ih => rw [List.map_cons, List.cons_append, fill, ih, List.cons_append]

/-- Behind some parts, the arguments taken so far are those of the parts that take the next one. -/
theorem fill_parts (args : List Bytes) (before parts : List Part) :
    fill args (before.countP Part.isNext) (parts.flatMap Part.pieces) =
      (parts.mapIdx fun i p => p.text args (before ++ parts.take i)).flatten := by
  induction parts generalizing before with
  | nil => rfl
  | cons p parts ih =>
    have hrest := ih (before ++ [p])
    simp only [List.append_assoc, List.singleton_append] at hrest
    rw [List.flatMap_cons, List.mapIdx_cons, List.flatten_cons]
    simp only [List.take_succ_cons, List.take_zero, List.append_nil]
    rw [← hrest, List.countP_append]
    cases p with
    | literal text => exact fill_append args _ text _
    | next letter => rfl
    | nth n letter => rfl

/-- A template gives the text that its parts stand for, one after the other. -/
theorem format_parts (parts : List Part) (args : List Bytes) :
    format (parts.flatMap Part.write) args = (parts.mapIdx fun i p => p.text args (parts.take i)).flatten := by
  rw [format, pieces_parts]
  exact fill_parts args [] parts

/-- A percent sign before a letter, a number before a digit, and arguments that look like templates. -/
example : format "%%s%s%2$s1%%%s%9$d" ["%2$s", "%%"] = "%s%2$s%%1%%%" := by decide

end Stencil.Template
