import Mathlib.Data.List.Nodup

/-! Lists with each element once, at its first place. -/

namespace Stencil

variable {α β : Type} [BEq α] [LawfulBEq α] [BEq β] [LawfulBEq β]

theorem eraseDups_filter (p : α → Bool) (l : List α) : (l.filter p).eraseDups = l.eraseDups.filter p := by
  match l with
  | [] => rfl
  | a :: l =>
    have ih := eraseDups_filter p (l.filter fun b => !b == a)
    rw [List.eraseDups_cons]
    by_cases ha : p a
    · rw [List.filter_cons_of_pos ha, List.filter_cons_of_pos ha, List.eraseDups_cons, ← ih, List.filter_comm]
    · rw [List.filter_cons_of_neg ha, List.filter_cons_of_neg ha, ← ih, List.filter_filter]
      refine congrArg List.eraseDups (List.filter_congr fun b _ => ?_)
      by_cases hb : b = a
      · simp [hb, ha]
      · simp [hb]
termination_by l.length
decreasing_by
  have := List.length_filter_le (fun b => !b == a) l
  simp only [List.length_cons]
  omega

theorem nodup_eraseDups (l : List α) : l.eraseDups.Nodup := by
  match l with
  | [] => exact List.nodup_nil
  | a :: l =>
    rw [List.eraseDups_cons, List.nodup_cons]
    exact ⟨by simp, nodup_eraseDups _⟩
termination_by l.length
decreasing_by
  have := List.length_filter_le (fun b => !b == a) l
  simp only [List.length_cons]
  omega

theorem eraseDups_of_nodup {l : List α} (h : l.Nodup) : l.eraseDups = l := by
  induction l with
  | nil => rfl
  | cons a l ih =>
    obtain ⟨ha, hl⟩ := List.nodup_cons.mp h
    have hfilter : l.filter (fun b => !b == a) = l := by
      refine List.filter_eq_self.mpr fun b hb => ?_
      simpa using fun hba : b = a => ha (hba ▸ hb)
    rw [List.eraseDups_cons, hfilter, ih hl]

@[simp] theorem eraseDups_eraseDups (l : List α) : l.eraseDups.eraseDups = l.eraseDups :=
  eraseDups_of_nodup (nodup_eraseDups l)

theorem eraseDups_append_right (l m : List α) : (l ++ m.eraseDups).eraseDups = (l ++ m).eraseDups := by
  rw [List.eraseDups_append, List.eraseDups_append, List.removeAll, List.removeAll, ← eraseDups_filter,
    eraseDups_eraseDups]

theorem eraseDups_append_left (l m : List α) : (l.eraseDups ++ m).eraseDups = (l ++ m).eraseDups := by
  rw [List.eraseDups_append, List.eraseDups_append, eraseDups_eraseDups, List.removeAll, List.removeAll]
  congr 2
  refine List.filter_congr fun a _ => ?_
  simp [List.elem_eq_contains]

/-- Of distinct elements, those are added that are new. -/
theorem eraseDups_append_of_nodup {l m : List α} (hm : m.Nodup) :
    (l ++ m).eraseDups = l.eraseDups ++ m.removeAll l.eraseDups := by
  have hrest : (m.removeAll l.eraseDups).Nodup := hm.filter _
  rw [← eraseDups_append_left, List.eraseDups_append, eraseDups_eraseDups, eraseDups_of_nodup hrest]

theorem eraseDups_flatMap (f : α → List β) (l : List α) :
    (l.eraseDups.flatMap f).eraseDups = (l.flatMap f).eraseDups := by
  match l with
  | [] => rfl
  | a :: l =>
    have ih := eraseDups_flatMap f (l.filter fun b => !b == a)
    have hremove : ((l.filter fun b => !b == a).flatMap f).removeAll (f a) = (l.flatMap f).removeAll (f a) := by
      clear ih
      induction l with
      | nil => rfl
      | cons b l ihl =>
        simp only [List.removeAll] at ihl ⊢
        rw [List.flatMap_cons, List.filter_append, ← ihl]
        by_cases hb : b = a
        · subst hb
          simp
        · simp [hb]
    rw [List.eraseDups_cons, List.flatMap_cons, List.flatMap_cons, ← eraseDups_append_right, ih, eraseDups_append_right,
      List.eraseDups_append, hremove, ← List.eraseDups_append]
termination_by l.length
decreasing_by
  have := List.length_filter_le (fun b => !b == a) l
  simp only [List.length_cons]
  omega

end Stencil
