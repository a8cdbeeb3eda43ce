import Mathlib.Data.List.Chain
import Mathlib.Data.List.TakeWhile
import Mathlib.Data.List.Nodup

/-! Walks through a graph that pass no place twice. A search in depth is always on one: when it comes back to a place
it passed, the way since then is a cycle. -/

namespace Stencil

variable {α : Type} {R : α → α → Prop} {root a b : α} {passed inner : List α}

/-- `passed` are the places on the way from `root` to where the walk is. -/
inductive Walk (R : α → α → Prop) (root : α) : List α → α → Prop
  | start : Walk R root [] root
  | step {passed : List α} {a b : α} (hwalk : Walk R root passed a) (hnew : a ∉ passed) (hR : R a b) :
      Walk R root (passed ++ [a]) b

namespace Walk

theorem reflTransGen (h : Walk R root passed a) : Relation.ReflTransGen R root a := by
  induction h with
  | start => exact .refl
  | step _ _ hR ih => exact ih.tail hR

theorem nodup (h : Walk R root passed a) : passed.Nodup := by
  induction h with
  | start => exact List.nodup_nil
  | step _ hnew _ ih => exact ih.append (List.nodup_singleton _) (by simpa using hnew)

theorem isChain (h : Walk R root passed a) : (passed ++ [a]).IsChain R := by
  induction h with
  | start => exact .singleton _
  | step _ _ hR ih =>
    refine List.isChain_append.mpr ⟨ih, .singleton _, ?_⟩
    simpa using hR

/-- The walk went on from each place it passed. -/
theorem exists_step (h : Walk R root passed a) : ∀ b ∈ passed, ∃ c, R b c := by
  induction h with
  | start => exact List.forall_mem_nil _
  | step _ _ hR ih => exact List.forall_mem_append.mpr ⟨ih, by simpa using ⟨_, hR⟩⟩

/-- The way since a place that the walk comes back to. -/
theorem cycle [BEq α] [LawfulBEq α] (h : Walk R root passed a) (hback : a ∈ passed) :
    (passed.dropWhile (· != a) ++ [a]).IsChain R ∧ ∃ inner, passed.dropWhile (· != a) ++ [a] = a :: (inner ++ [a]) := by
  have hne : passed.dropWhile (· != a) ≠ [] := by
    rw [Ne, List.dropWhile_eq_nil_iff]
    exact fun hall => by simpa using hall a hback
  obtain ⟨first, inner, hdrop⟩ := List.exists_cons_of_ne_nil hne
  obtain rfl : first = a := by
    have hhead := List.head_dropWhile_not (p := (· != a)) (l := passed) hne
    simpa [hdrop] using hhead
  obtain ⟨before, hbefore⟩ : passed.dropWhile (· != first) <:+ passed := List.dropWhile_suffix _
  refine ⟨h.isChain.suffix ⟨before, ?_⟩, inner, ?_⟩
  · rw [← List.append_assoc, hbefore]
  · rw [hdrop, List.cons_append]

end Walk

theorem transGen_of_cycle (h : (a :: (inner ++ [a])).IsChain R) : Relation.TransGen R a a := by
  cases inner with
  | nil => exact .single (List.isChain_pair.mp h)
  | cons next rest =>
    obtain ⟨hfirst, hrest⟩ := List.isChain_cons_cons.mp h
    have hback : Relation.ReflTransGen R next a :=
      List.relationReflTransGen_of_exists_isChain_cons (rest ++ [a]) hrest (by simp)
    exact .head' hfirst hback

end Stencil
