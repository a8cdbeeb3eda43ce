import Stencil.Proofs.Compile.Positions

/-! Where a rendered text may be cut. A mark is taken for one wherever it comes from, so that two texts put together may
hold a mark that neither of them does. None runs over a byte that no mark holds, nor over the end of a text without null
bytes. -/

namespace Stencil.Page

open Bytes (nullFree_cons)

variable {b : UInt8} {s t : Bytes}

def inMark (b : UInt8) : Bool := Ascii.isDigit b || b == Ascii.minus || b == Ascii.plus || b == markClose

theorem inMark_of_mem {id : Nat} {c : UInt8} (h : c ∈ mark id) : c = markOpen ∨ inMark c := by
  rcases List.mem_cons.mp h with rfl | h
  · exact .inl rfl
  rcases List.mem_append.mp h with h | h
  · rcases Bytes.numeral_ofInt _ c h with hdigit | rfl
    · exact .inr (by simp [inMark, hdigit])
    · exact .inr (by decide)
  · rw [List.mem_singleton.mp h]
    exact .inr (by decide)

theorem mark?_length {c : UInt8} {id : Int} {n : Nat} (h : mark? c s = some (id, n)) : n ≤ s.length := by
  unfold mark? at h
  split at h
  · dsimp only at h
    split at h
    next hlt =>
      obtain ⟨number, -, heq⟩ := Option.map_eq_some_iff.mp h
      cases heq
      exact hlt
    next => cases h
  · cases h

/-- Whether a mark starts at a byte is settled before the next byte that no mark holds. -/
theorem mark?_append_cons (hb : inMark b = false) (c : UInt8) (s t : Bytes) : mark? c (s ++ b :: t) = mark? c s := by
  simp only [inMark, Bool.or_eq_false_iff, beq_eq_false_iff_ne] at hb
  obtain ⟨⟨⟨hdigit, hminus⟩, hplus⟩, hclose⟩ := hb
  unfold mark?
  split
  case isFalse => rfl
  by_cases hmem : markClose ∈ s
  · obtain ⟨number, rest, rfl, hnumber⟩ := List.eq_append_cons_of_mem hmem
    have htake (u : Bytes) : (number ++ markClose :: u).takeWhile (· != markClose) = number := by
      rw [List.takeWhile_append_of_pos, List.takeWhile_cons_of_neg (by simp), List.append_nil]
      intro x hx
      exact bne_iff_ne.mpr fun heq => hnumber (heq ▸ hx)
    rw [List.append_assoc, List.cons_append]
    simp [htake]
  · have hall : ∀ x ∈ s, (x != markClose) = true := fun x hx => bne_iff_ne.mpr fun heq => hmem (heq ▸ hx)
    have hnone : Bytes.toInt64? ((s ++ b :: t).takeWhile (· != markClose)) = none := by
      rw [List.takeWhile_append_of_pos hall, List.takeWhile_cons_of_pos (by simpa using hclose)]
      refine Bytes.toInt64?_of_mem (by simp [hdigit]) hminus hplus ?_
      exact List.mem_append_right _ List.mem_cons_self
    simp [hnone, List.takeWhile_eq_self_iff.mpr hall]

theorem segments_append_cons (hb : inMark b = false) (s t : Bytes) :
    segments (s ++ b :: t) = segments s ++ segments (b :: t) := by
  induction hn : s.length using Nat.strongRecOn generalizing s with
  | ind n ih =>
    cases s with
    | nil => rfl
    | cons c s =>
      rw [List.cons_append, segments_cons, segments_cons, mark?_append_cons hb]
      cases hmark : mark? c s with
      | none =>
        dsimp only
        rw [ih s.length (by simp at hn; omega) s rfl, List.cons_append]
      | some m =>
        obtain ⟨id, k⟩ := m
        have hk := mark?_length hmark
        dsimp only
        rw [List.drop_append_of_le_length hk, ih _ (by simp at hn ⊢; omega) _ rfl, List.cons_append]

/-- No mark starts in the text and runs on into what stands behind it. -/
def Closed (s : Bytes) : Prop := ∀ t, segments (s ++ t) = segments s ++ segments t

theorem closed_nil : Closed [] := fun _ => rfl

theorem Closed.append (hs : Closed s) (ht : Closed t) : Closed (s ++ t) := by
  intro u
  rw [List.append_assoc, hs, ht, hs, List.append_assoc]

theorem closed_of_nullFree (h : s.NullFree) : Closed s := by
  induction s with
  | nil => exact closed_nil
  | cons c s ih =>
    obtain ⟨hc, hs⟩ := nullFree_cons.mp h
    intro t
    rw [List.cons_append, segments_cons_of_ne hc, segments_cons_of_ne hc, ih hs, List.cons_append]

theorem closed_mark (id : Nat) : Closed (mark id) := by
  intro t
  have hmark := segments_mark id []
  rw [List.append_nil] at hmark
  rw [segments_mark, hmark]
  rfl

def unmarked (s : Bytes) : Bytes := (segments s).flatMap Segment.text

theorem unmarked_nil : unmarked [] = [] := rfl

theorem unmarked_append_cons (hb : inMark b = false) (hzero : b ≠ 0) (s t : Bytes) :
    unmarked (s ++ b :: t) = unmarked s ++ b :: unmarked t := by
  rw [unmarked, segments_append_cons hb, segments_cons_of_ne hzero, List.flatMap_append, List.flatMap_cons]
  rfl

theorem Closed.unmarked_append (h : Closed s) (t : Bytes) : unmarked (s ++ t) = unmarked s ++ unmarked t := by
  rw [unmarked, h, List.flatMap_append]
  rfl

theorem unmarked_of_nullFree (h : s.NullFree) : unmarked s = s := by
  induction s with
  | nil => rfl
  | cons c s ih =>
    obtain ⟨hc, hs⟩ := nullFree_cons.mp h
    rw [unmarked, segments_cons_of_ne hc, List.flatMap_cons]
    exact congrArg (c :: ·) (ih hs)

theorem unmarked_subset (s : Bytes) : unmarked s ⊆ s := by
  induction hn : s.length using Nat.strongRecOn generalizing s with
  | ind n ih =>
    cases s with
    | nil => exact List.Subset.refl _
    | cons c s =>
      rw [unmarked, segments_cons]
      cases hmark : mark? c s with
      | none => exact List.cons_subset_cons c (ih s.length (by simp at hn; omega) s rfl)
      | some m =>
        have hrest : unmarked (s.drop m.2) ⊆ s.drop m.2 := ih _ (by simp at hn ⊢; omega) _ rfl
        exact fun x hx => List.mem_cons_of_mem c (List.mem_of_mem_drop (hrest hx))

end Stencil.Page
