import Stencil.Decimal.Layout
import Stencil.Decimal.Numeral
import Mathlib.Tactic

/-! Decimal numbers as they are written, read again: the digits of a number, what they denote, and that there is no
zero in front of the others. Whatever its style, a number is written with digits, letters, signs and the dot. -/

namespace Stencil

namespace Bytes

def digit (d : Nat) : UInt8 := UInt8.ofNat (48 + d)

/-- The decimal digits of a number, the most significant first. -/
def digits (n : Nat) : List Nat := (Nat.toDigits 10 n).map fun c => c.toNat - '0'.toNat

theorem digits_eq_if (n : Nat) : digits n = if n < 10 then [n] else digits (n / 10) ++ [n % 10] := by
  have hdigit : ∀ d < 10, (Nat.digitChar d).toNat - '0'.toNat = d := by decide
  rw [digits, Nat.toDigits_eq_if (by decide)]
  split
  next hn => rw [List.map_singleton, hdigit n hn]
  next => rw [List.map_append, List.map_singleton, hdigit _ (Nat.mod_lt n (by decide)), digits]

theorem digits_lt (n : Nat) : ∀ d ∈ digits n, d < 10 := by
  induction n using Nat.strongRecOn with
  | ind n ih =>
    rw [digits_eq_if]
    split
    next hn => simpa using hn
    next hn => exact List.forall_mem_append.mpr ⟨ih _ (by omega), by simpa using Nat.mod_lt n (by decide)⟩

theorem digits_ne_nil (n : Nat) : digits n ≠ [] := by
  rw [digits_eq_if]
  split <;> simp

theorem head?_digits (n : Nat) (h : (digits n).head? = some 0) : n = 0 := by
  induction n using Nat.strongRecOn with
  | ind n ih =>
    rw [digits_eq_if] at h
    split at h
    next => simpa using h
    next hn =>
      rw [List.head?_append_of_ne_nil _ (digits_ne_nil _)] at h
      have := ih _ (by omega) h
      omega

theorem foldl_digits (n : Nat) : (digits n).foldl (fun m d => 10 * m + d) 0 = n := by
  rw [digits, List.foldl_map, ← Nat.ofDigitChars_eq_foldl]
  exact Nat.ofDigitChars_toDigits (by decide) (by decide)

theorem ofNat_eq (n : Nat) : ofNat n = (digits n).map digit := by
  rw [ofNat, digits, List.map_map]
  refine List.map_congr_left fun c hc => ?_
  have hdigit := Nat.isDigit_of_mem_toDigits (by decide) (by decide) hc
  rw [Char.isDigit_iff_toNat] at hdigit
  have hval : 48 + (c.toNat - '0'.toNat) = c.toNat := by
    have hlow : 48 ≤ c.toNat := hdigit.1
    have hzero : '0'.toNat = 48 := rfl
    omega
  rw [Function.comp, digit, hval]
  rfl

theorem isDigit_ofNat (n : Nat) : ∀ c ∈ ofNat n, Ascii.isDigit c := by
  have hdigit : ∀ d < 10, Ascii.isDigit (digit d) := by decide
  rw [ofNat_eq, List.forall_mem_map]
  exact fun d hd => hdigit d (digits_lt n d hd)

theorem numeral_ofInt (n : Int) : ∀ c ∈ ofInt n, Ascii.isDigit c ∨ c = Ascii.minus := by
  cases n with
  | ofNat n => exact fun c hc => .inl (isDigit_ofNat n c hc)
  | negSucc n => exact List.forall_mem_cons.mpr ⟨.inr rfl, fun c hc => .inl (isDigit_ofNat (n + 1) c hc)⟩

theorem ofNat_ne_nil (n : Nat) : ofNat n ≠ [] := by
  rw [ofNat_eq, Ne, List.map_eq_nil_iff]
  exact digits_ne_nil n

theorem toNat?_ofNat (n : Nat) : toNat? (ofNat n) = some n := by
  have hread : ∀ ds : List Nat, (∀ d ∈ ds, d < 10) → ∀ m,
      (ds.map digit).foldlM (fun n c => if 0x30 ≤ c ∧ c ≤ 0x39 then some (10 * n + (c - 0x30).toNat) else none) m =
        some (ds.foldl (fun m d => 10 * m + d) m) := by
    intro ds
    induction ds with
    | nil => exact fun _ _ => rfl
    | cons d ds ih =>
      intro hds m
      have hd : d < 10 := hds d List.mem_cons_self
      have hrange : ∀ d < 10, (0x30 ≤ digit d ∧ digit d ≤ 0x39) ∧ (digit d - 0x30).toNat = d := by decide
      rw [List.map_cons, List.foldlM_cons, if_pos (hrange d hd).1, (hrange d hd).2]
      exact ih (fun e he => hds e (List.mem_cons_of_mem _ he)) _
  rw [toNat?, if_neg (by simpa using ofNat_ne_nil n), ofNat_eq, hread _ (digits_lt n), foldl_digits]

theorem ofNat_eq_cons (n : Nat) : ∃ d s, d < 10 ∧ ofNat n = digit d :: s := by
  obtain ⟨d, ds, hds⟩ := List.exists_cons_of_ne_nil (digits_ne_nil n)
  exact ⟨d, ds.map digit, digits_lt n d (by simp [hds]), by rw [ofNat_eq, hds, List.map_cons]⟩

/-- A 64-bit number is read as it is written. -/
theorem toInt64?_ofInt (n : Int64) : toInt64? (ofInt n.toInt) = some n := by
  have hlow := n.le_toInt
  have hhigh := n.toInt_lt
  have hn := Int64.ofInt_toInt n
  cases hi : n.toInt with
  | ofNat m =>
    rw [hi] at hlow hhigh hn
    obtain ⟨d, s, hd, hs⟩ := ofNat_eq_cons m
    have hsign : ∀ d < 10, digit d ≠ 0x2d ∧ digit d ≠ 0x2b := by decide
    have hm := toNat?_ofNat m
    rw [hs] at hm
    have hlt : m < Nat.pow 2 63 := by
      have : Nat.pow 2 63 = 2 ^ 63 := rfl
      simp only [Int.ofNat_eq_natCast] at hhigh
      omega
    simp only [ofInt, toInt64?, hs, beq_iff_eq, hsign d hd, if_false, hm, Bool.false_eq_true, hlt, if_true]
    exact congrArg some hn
  | negSucc m =>
    rw [hi] at hlow hhigh hn
    have hle : m + 1 ≤ Nat.pow 2 63 := by
      have : Nat.pow 2 63 = 2 ^ 63 := rfl
      omega
    simp only [ofInt, toInt64?, beq_self_eq_true, if_true, toNat?_ofNat, hle]
    exact congrArg some hn

theorem isDigit_of_toNat? {s : Bytes} {n : Nat} (h : toNat? s = some n) : ∀ c ∈ s, Ascii.isDigit c := by
  have hread : ∀ (s : Bytes) (m : Nat), s.foldlM (fun n c => if 0x30 ≤ c ∧ c ≤ 0x39 then
      some (10 * n + (c - 0x30).toNat) else none) m = some n → ∀ c ∈ s, Ascii.isDigit c := by
    intro s
    induction s with
    | nil => simp
    | cons c s ih =>
      intro m h
      rw [List.foldlM_cons] at h
      split at h
      next hc => exact List.forall_mem_cons.mpr ⟨by simpa [Ascii.isDigit] using hc, ih _ h⟩
      next => cases h
  rw [toNat?] at h
  split at h
  · cases h
  · exact hread s 0 h

theorem toInt64?_of_mem {s : Bytes} {b : UInt8} (hdigit : ¬ Ascii.isDigit b) (hminus : b ≠ Ascii.minus)
    (hplus : b ≠ Ascii.plus) (h : b ∈ s) : toInt64? s = none := by
  have hnot {t : Bytes} (ht : b ∈ t) : toNat? t = none := by
    cases hn : toNat? t with
    | none => rfl
    | some n => exact absurd (isDigit_of_toNat? hn b ht) hdigit
  have hsign {c : UInt8} {t : Bytes} (hs : b ∈ c :: t) (hc : b ≠ c) : b ∈ t := (List.mem_cons.mp hs).resolve_left hc
  cases s with
  | nil => cases h
  | cons c t =>
    by_cases hc : c = 0x2d
    · subst hc
      simp [toInt64?, hnot (hsign h hminus)]
    by_cases hc' : c = 0x2b
    · subst hc'
      simp [toInt64?, hnot (hsign h hplus)]
    · simp [toInt64?, hc, hc', hnot h]

end Bytes

namespace Numeral

open Bytes (digit digits)

theorem digits?_map {ds : List Nat} (h : ∀ d ∈ ds, d < 10) : digits? 10 (ds.map digit) = some ds := by
  have hdigit : ∀ d < 10, (Ascii.digitValue? (digit d)).filter (· < 10) = some d := by decide
  induction ds with
  | nil => rfl
  | cons d ds ih =>
    rw [digits?] at ih ⊢
    rw [List.map_cons, List.mapM_cons, hdigit d (h d List.mem_cons_self), ih fun e he => h e (List.mem_cons_of_mem _ he)]
    rfl

theorem value_digits (n : Nat) : value 10 (digits n) = n := by
  have hcomm : (fun n d : Nat => n * 10 + d) = fun n d => 10 * n + d := by
    funext n d
    omega
  rw [value, hcomm, Bytes.foldl_digits]

/-- A number that is not zero announces no base, since it does not start with a zero. -/
theorem radix_ofNat {n : Nat} (h : n ≠ 0) : radix (Bytes.ofNat n) = (10, Bytes.ofNat n) := by
  have hzero : ∀ d < 10, digit d = Ascii.zero → d = 0 := by decide
  rw [Bytes.ofNat_eq]
  obtain ⟨d, ds, hds⟩ := List.exists_cons_of_ne_nil (Bytes.digits_ne_nil n)
  have hd : digit d ≠ Ascii.zero := by
    intro hd
    have hlt := Bytes.digits_lt n d (by simp [hds])
    exact h (Bytes.head?_digits n (by rw [hds, hzero d hlt hd]; rfl))
  rw [hds, List.map_cons]
  cases ds with
  | nil => simp [radix, hd]
  | cons e ds => simp [radix, hd]

theorem whole?_ofNat (negative : Bool) (n : Nat) : whole? negative (Bytes.ofNat n) =
    if negative then if n ≤ Nat.pow 2 63 then some (Int64.ofInt (-(n : Int))) else none
    else if n < Nat.pow 2 63 then some (Int64.ofInt n) else none := by
  by_cases hn : n = 0
  · subst hn
    cases negative <;> rfl
  · have hne : (!(Bytes.ofNat n).isEmpty) = true := by simpa using Bytes.ofNat_ne_nil n
    have hdigits : digits? 10 (Bytes.ofNat n) = some (digits n) := by
      rw [Bytes.ofNat_eq]
      exact digits?_map (Bytes.digits_lt n)
    simp only [whole?, guard, hne, if_true, radix_ofNat hn, hdigits, value_digits, Option.bind_eq_bind, Option.bind_some,
      Option.pure_def]
    cases negative <;> split_ifs <;> simp_all

end Numeral

/-- A byte of a written number: a digit, a letter, a sign or the dot. -/
def Ascii.isFigure (c : UInt8) : Bool :=
  isDigit c || isLower c || isUpper c || c == minus || c == plus || c == dot

theorem Bytes.figure_ofNat (n : Nat) : ∀ c ∈ ofNat n, Ascii.isFigure c := by
  intro c hc
  have hdigit : Ascii.isDigit c := isDigit_ofNat n c hc
  simp [Ascii.isFigure, hdigit]

theorem Bytes.figure_ofInt (n : Int) : ∀ c ∈ ofInt n, Ascii.isFigure c := by
  intro c hc
  rcases numeral_ofInt n c hc with hdigit | rfl
  · simp [Ascii.isFigure, hdigit]
  · decide

namespace Decimal

def Digits.Proper (d : Digits) : Prop := ∀ n ∈ d.digits, n < 10

variable {d : Digits}

theorem proper_ofUnits (n : Nat) (k : Int) : (ofUnits n k).Proper := by
  intro m hm
  refine Bytes.digits_lt n m ?_
  have hreverse := List.mem_reverse.mp hm
  exact List.mem_reverse.mp ((List.dropWhile_sublist _).subset hreverse)

theorem proper_significant (count num den : Nat) : (significant count num den).Proper := proper_ofUnits _ _

theorem proper_shortest (m : Nat) (q : Int) : (shortest m q).Proper := by
  rw [shortest]
  cases hfind : (List.range 17).findSome? fun n =>
      atCount? (interval m q) (pointOf (interval m q).value (interval m q).den) (n + 1) with
  | none => exact proper_significant _ _ _
  | some d =>
    obtain ⟨n, -, hn⟩ := List.exists_of_findSome?_eq_some hfind
    rw [atCount?] at hn
    dsimp only at hn
    split_ifs at hn
    all_goals
      cases hn
      exact proper_ofUnits _ _

theorem figure_digit {n : Nat} (h : n < 10) : Ascii.isFigure (digit n) := by
  have hall : ∀ n < 10, Ascii.isFigure (digit n) := by decide
  exact hall n h

theorem figure_digits {ns : List Nat} (h : ∀ n ∈ ns, n < 10) : ∀ c ∈ ns.map digit, Ascii.isFigure c :=
  List.forall_mem_map.mpr fun n hn => figure_digit (h n hn)

theorem Digits.Proper.figure_digitAt (h : d.Proper) (i : Nat) : Ascii.isFigure (digitAt d i) := by
  refine figure_digit ?_
  rw [List.getD_eq_getElem?_getD]
  cases hi : d.digits[i]? with
  | none => decide
  | some n => exact h n (List.mem_of_getElem? hi)

theorem Digits.Proper.figure_positional (h : d.Proper) : ∀ c ∈ positional d, Ascii.isFigure c := by
  have hwhole : ∀ c ∈ if d.point ≤ 0 then [Ascii.zero] else (List.range d.point.toNat).map (digitAt d), Ascii.isFigure c := by
    split
    · exact List.forall_mem_singleton.mpr (by decide)
    · exact List.forall_mem_map.mpr fun i _ => h.figure_digitAt i
  rw [positional]
  split
  · exact hwhole
  · refine List.forall_mem_append.mpr ⟨hwhole, List.forall_mem_cons.mpr ⟨by decide, List.forall_mem_append.mpr ⟨?_, ?_⟩⟩⟩
    · intro c hc
      rw [List.eq_of_mem_replicate hc]
      decide
    · exact figure_digits fun n hn => h n (List.mem_of_mem_drop hn)

theorem Digits.Proper.figure_scientific (h : d.Proper) {mark : UInt8} (hmark : Ascii.isFigure mark) :
    ∀ c ∈ scientific mark d, Ascii.isFigure c := by
  have hfraction : ∀ c ∈ if d.digits.length ≤ 1 then [] else Ascii.dot :: (d.digits.drop 1).map digit,
      Ascii.isFigure c := by
    split
    · exact List.forall_mem_nil _
    · exact List.forall_mem_cons.mpr ⟨by decide, figure_digits fun n hn => h n (List.mem_of_mem_drop hn)⟩
  have hpadded (n : Nat) : ∀ c ∈ if n < 10 then Ascii.zero :: Bytes.ofNat n else Bytes.ofNat n, Ascii.isFigure c := by
    split
    · exact List.forall_mem_cons.mpr ⟨by decide, Bytes.figure_ofNat n⟩
    · exact Bytes.figure_ofNat n
  rw [scientific]
  refine List.forall_mem_append.mpr ⟨List.forall_mem_cons.mpr ⟨h.figure_digitAt 0, hfraction⟩, ?_⟩
  refine List.forall_mem_cons.mpr ⟨hmark, List.forall_mem_cons.mpr ⟨?_, hpadded _⟩⟩
  split <;> decide

theorem figure_write {style : Style} (hmark : Ascii.isFigure style.mark) (x : Binary64) :
    ∀ c ∈ write style x, Ascii.isFigure c := by
  have hlayout {d : Digits} (h : d.Proper) : ∀ c ∈ layout style d, Ascii.isFigure c := by
    have hcases : layout style d = scientific style.mark d ∨ layout style d = positional d := by
      rw [layout]
      split_ifs <;> simp
    rcases hcases with hlayout | hlayout <;> rw [hlayout]
    · exact h.figure_scientific hmark
    · exact h.figure_positional
  have hsign : ∀ c ∈ if x.isNegative then [Ascii.minus] else [], Ascii.isFigure c := by
    split
    · exact List.forall_mem_singleton.mpr (by decide)
    · exact List.forall_mem_nil _
  rw [write]
  cases x.magnitude with
  | nan => exact List.all_eq_true.mp (by decide : ("NaN" : Bytes).all Ascii.isFigure)
  | infinite =>
    dsimp only
    split <;> exact List.all_eq_true.mp (by decide)
  | finite m q =>
    dsimp only
    split
    · exact List.forall_mem_append.mpr ⟨hsign, hlayout (List.forall_mem_nil _)⟩
    · split
      · exact List.forall_mem_append.mpr ⟨hsign, hlayout (proper_significant _ _ _)⟩
      · exact List.forall_mem_append.mpr ⟨hsign, hlayout (proper_shortest _ _)⟩

end Decimal

end Stencil
