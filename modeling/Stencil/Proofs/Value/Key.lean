import Stencil.Proofs.Decimal
import Stencil.Value.Basic

/-! The keys that values stand for. A text stands for an integer if it writes one of 64 bits in decimal, with no sign but
that of a negative number and no zero in front of other digits; every other text stands for itself. So no two texts have
the same key, and a key stands for itself. -/

namespace Stencil

namespace Bytes

/-- The text writes the number in decimal. -/
def Writes (s : Bytes) (n : Int) : Prop :=
  ∃ ds : List Nat, ds ≠ [] ∧ (∀ d ∈ ds, d < 10) ∧ (ds.head? = some 0 → ds = [0]) ∧
    ds.foldl (fun m d => 10 * m + d) 0 = n.natAbs ∧ s = (if n < 0 then [Ascii.minus] else []) ++ ds.map digit

/-- Digits without a zero in front of others are those of the number they denote. -/
theorem eq_digits_foldl {ds : List Nat} (hne : ds ≠ []) (hlt : ∀ d ∈ ds, d < 10) (hhead : ds.head? = some 0 → ds = [0]) :
    ds = digits (ds.foldl (fun m d => 10 * m + d) 0) := by
  induction ds using List.reverseRecOn with
  | nil => exact absurd rfl hne
  | append_singleton ds d ih =>
    obtain ⟨hds, hd⟩ := List.forall_mem_append.mp hlt
    have hd : d < 10 := hd d List.mem_cons_self
    rw [List.foldl_concat, digits_eq_if]
    by_cases hnil : ds = []
    · subst hnil
      rw [List.foldl_nil, if_pos (by omega)]
      simp
    · have hfront : ds.head? ≠ some 0 := by
        intro hzero
        rw [List.head?_append_of_ne_nil _ hnil] at hhead
        have hlength := congrArg List.length (hhead hzero)
        have hpos := List.length_pos_of_ne_nil hnil
        rw [List.length_append, List.length_singleton, List.length_singleton] at hlength
        omega
      have hrest := ih hnil hds fun hzero => absurd hzero hfront
      set m := ds.foldl (fun m d => 10 * m + d) 0
      have hpos : m ≠ 0 := by
        intro hzero
        rw [hzero] at hrest
        exact hfront (hrest ▸ rfl)
      have hdiv : (10 * m + d) / 10 = m := by omega
      have hmod : (10 * m + d) % 10 = d := by omega
      rw [if_neg (by omega), hdiv, hmod, ← hrest]

/-- Every number has one decimal form. -/
theorem writes_iff {s : Bytes} {n : Int} : s.Writes n ↔ s = ofInt n := by
  have hform : ofInt n = (if n < 0 then [Ascii.minus] else []) ++ (digits n.natAbs).map digit := by
    cases n with
    | ofNat m =>
      rw [if_neg (by simp), ofInt, ofNat_eq]
      rfl
    | negSucc m =>
      rw [if_pos (Int.negSucc_lt_zero m), ofInt, ofNat_eq]
      rfl
  constructor
  · rintro ⟨ds, hne, hlt, hhead, hvalue, rfl⟩
    rw [hform, ← hvalue, ← eq_digits_foldl hne hlt hhead]
  · intro h
    refine ⟨digits n.natAbs, digits_ne_nil _, digits_lt _, fun hzero => ?_, foldl_digits _, h.trans hform⟩
    rw [head?_digits _ hzero]
    rfl

end Bytes

namespace Key

/-- A text stands for an integer if it is its decimal form. -/
theorem ofText_eq_int_iff {s : Bytes} {n : Int64} : ofText s = .int n ↔ s.Writes n.toInt := by
  rw [Bytes.writes_iff]
  constructor
  · intro h
    unfold ofText at h
    split at h
    next m _ =>
      split at h
      next hs =>
        cases h
        exact (beq_iff_eq.mp hs).symm
      next => cases h
    next => cases h
  · intro h
    subst h
    rw [ofText, Bytes.toInt64?_ofInt]
    simp only [beq_self_eq_true, if_true]

theorem text_ofText (s : Bytes) : (Key.ofText s).toValue.text = s := by
  unfold ofText
  split
  next n _ =>
    split
    next h => exact beq_iff_eq.mp h
    next => rfl
  next => rfl

theorem ofValue_toValue_ofText (s : Bytes) : ofValue (ofText s).toValue = ofText s := by
  cases h : ofText s with
  | int n => rfl
  | name t =>
    have htext := text_ofText s
    rw [h] at htext
    have htext : t = s := htext
    rw [toValue, ofValue, htext, h, htext]

theorem ofValue_toValue_ofValue (v : Value) : ofValue (ofValue v).toValue = ofValue v := by
  cases v with
  | string s => exact ofValue_toValue_ofText s
  | null => exact ofValue_toValue_ofText []
  | array entries => exact ofValue_toValue_ofText "Array"
  | _ => rfl

end Key

end Stencil
