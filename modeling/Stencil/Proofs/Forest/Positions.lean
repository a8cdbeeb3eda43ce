import Stencil.Proofs.Forest.Steps
import Mathlib.Data.List.Infix

/-! Positions. A node that is put in before an index comes to stand before the first other child at or behind that
index, wherever it was before, and a node that replaces a child comes to stand where that child was among the others.
Apart from that the child lists lose the moved node and nothing else. -/

namespace Stencil.Forest

variable {f g : Forest} {c p q old new : NodeId} {L : List NodeId} {index : Int}

theorem filter_ne_eq_erase (hL : L.Nodup) (c : NodeId) : L.filter (· ≠ c) = L.erase c := by
  rw [hL.erase_eq_filter]
  exact List.filter_congr fun x _ => by simp [bne, beq_eq_decide]

theorem length_filter_take (hL : L.Nodup) (n : Nat) (c : NodeId) :
    ((L.take n).filter (· ≠ c)).length =
      match L.idxOf? c with
      | some i => if i < n then min n L.length - 1 else n
      | none => min n L.length := by
  rw [filter_ne_eq_erase (hL.sublist (List.take_sublist n L))]
  cases hi : L.idxOf? c with
  | none =>
    have hc : c ∉ L.take n := fun hc => List.idxOf?_eq_none_iff.mp hi (List.mem_of_mem_take hc)
    rw [List.erase_of_not_mem hc, List.length_take]
  | some i =>
    obtain ⟨hlt, hget, hfirst⟩ := List.idxOf?_eq_some_iff.mp hi
    by_cases hin : i < n
    · have hc : c ∈ L.take n := List.mem_take_iff_getElem.mpr ⟨i, by omega, hget⟩
      rw [List.length_erase_of_mem hc, List.length_take]
      simp only [hin, if_true]
    · have hc : c ∉ L.take n := fun hc => by
        obtain ⟨j, hj, hjc⟩ := List.mem_take_iff_getElem.mp hc
        exact hfirst j (by omega) hjc
      rw [List.erase_of_not_mem hc, List.length_take]
      simp only [hin, if_false]
      omega

theorem insertIdx_length_append (before after : List NodeId) (c : NodeId) :
    (before ++ after).insertIdx before.length c = before ++ c :: after := by
  induction before with
  | nil => rfl
  | cons b before ih => rw [List.cons_append, List.length_cons, List.insertIdx_succ_cons, ih, List.cons_append]

theorem set_eq_replace {i : Nat} (h : L.idxOf? old = some i) : L.set i new = L.replace old new := by
  induction L generalizing i with
  | nil => cases h
  | cons x xs ih =>
    rw [List.idxOf?_cons] at h
    by_cases hx : x = old
    · rw [if_pos (by simpa using hx)] at h
      cases h
      rw [hx, List.replace_cons_self, List.set_cons_zero]
    · rw [if_neg (by simpa using hx)] at h
      obtain ⟨j, hj, rfl⟩ := Option.map_eq_some_iff.mp h
      have hbeq : (old == x) = false := by simpa using Ne.symm hx
      rw [List.set_cons_succ, ih hj, List.replace_cons, hbeq]

/-- The element other than `c` that is first at or behind an index; there is none behind a negative index. -/
def follower (L : List NodeId) (index : Int) (c : NodeId) : Option NodeId :=
  if index < 0 then none else (L.drop index.toNat).find? (· ≠ c)

/-- `M` is `L` without `c`, with `c` put in right before `next`, or at the end if there is none. -/
def PutBefore (L : List NodeId) (c : NodeId) (next : Option NodeId) (M : List NodeId) : Prop :=
  ∃ before after, L.filter (· ≠ c) = before ++ after ∧ M = before ++ c :: after ∧ after.head? = next

theorem putBefore_none (L : List NodeId) (c : NodeId) : PutBefore L c none (L.filter (· ≠ c) ++ [c]) :=
  ⟨L.filter (· ≠ c), [], (List.append_nil _).symm, rfl, rfl⟩

/-- The others before the index stay before `c`, the others from the index on come behind it. -/
theorem putBefore_find? (L : List NodeId) (c : NodeId) (n : Nat) :
    PutBefore L c ((L.drop n).find? (· ≠ c)) ((L.filter (· ≠ c)).insertIdx ((L.take n).filter (· ≠ c)).length c) := by
  have hsplit : L.filter (· ≠ c) = (L.take n).filter (· ≠ c) ++ (L.drop n).filter (· ≠ c) := by
    rw [← List.filter_append, List.take_append_drop]
  exact ⟨_, _, hsplit, by rw [hsplit, insertIdx_length_append], List.head?_filter ..⟩

theorem Planted.orderly (hf : f.Planted) : f.Orderly :=
  ⟨fun {p c} h => ((hf.mem_children_iff p c).mp h).1, hf.nodup_children, hf.acyclic⟩

namespace Orderly

variable (hf : f.Orderly)
include hf

theorem erase_children (c q : NodeId) : (f.children q).erase c = (f.children q).filter (· ≠ c) :=
  (filter_ne_eq_erase (hf.nodup q) c).symm

theorem filter_children (h : f.parent c ≠ some q) : (f.children q).filter (· ≠ c) = f.children q := by
  rw [← hf.erase_children, List.erase_of_not_mem fun hm => h (hf.parent_of_mem hm)]

/-- From an index that is not negative, as many others come to stand before a node as stood before the index. -/
theorem place_of_nonneg (n : Nat) (p c : NodeId) :
    f.place p n c = (((f.children p).take n).filter (· ≠ c)).length := by
  rw [place, hf.children_detach, length_filter_take (hf.nodup p)]
  cases hi : (f.children p).idxOf? c with
  | none =>
    rw [List.erase_of_not_mem (List.idxOf?_eq_none_iff.mp hi)]
    simp
  | some i =>
    obtain ⟨hlt, hget, -⟩ := List.idxOf?_eq_some_iff.mp hi
    have hmem : c ∈ f.children p := hget ▸ List.getElem_mem hlt
    rw [List.length_erase_of_mem hmem]
    simp only [hf.parent_of_mem hmem, true_and, Int.ofNat_lt]
    split
    next hin =>
      rw [if_neg (by omega)]
      omega
    next hin =>
      rw [if_neg (by omega)]
      omega

theorem place_of_neg (h : index < 0) (p c : NodeId) : f.place p index c = ((f.children p).erase c).length := by
  rw [place, hf.children_detach]
  split
  next i _ =>
    have hi : ¬ (i : Int) < index := by omega
    simp only [hi, and_false, if_false, h, if_true]
  next => rw [if_pos h]

theorem children_put_self (hp : p < f.size) (index : Int) (c : NodeId) :
    PutBefore (f.children p) c (follower (f.children p) index c) ((f.put p (f.place p index c) c).children p) := by
  rw [hf.children_put hp, if_pos rfl, follower]
  by_cases h : index < 0
  · rw [if_pos h, hf.place_of_neg h, List.insertIdx_length_self, hf.erase_children]
    exact putBefore_none ..
  · obtain ⟨n, rfl⟩ := Int.eq_ofNat_of_zero_le (Int.not_lt.mp h)
    rw [if_neg h, hf.place_of_nonneg, hf.erase_children]
    exact putBefore_find? ..

theorem children_swap_self (hp : p < f.size) {i : Nat} (hi : ((f.children p).erase new).idxOf? old = some i) :
    (f.swap p i old new).children p = ((f.children p).filter (· ≠ new)).replace old new := by
  rw [hf.children_swap hp, if_pos rfl, set_eq_replace hi, hf.erase_children]

end Orderly

/-- The child lists of `g` other than that of `p` are those of `f`, with `c` taken out of that of its parent. -/
structure KeepsOthers (f g : Forest) (p c : NodeId) : Prop where
  without : ∀ q, q ≠ p → g.children q = (f.children q).filter (· ≠ c)
  unchanged : ∀ q, q ≠ p → f.parent c ≠ some q → g.children q = f.children q

theorem Orderly.keepsOthers (hf : f.Orderly) (h : ∀ q, q ≠ p → g.children q = (f.children q).erase c) :
    f.KeepsOthers g p c where
  without q hq := by rw [h q hq, hf.erase_children]
  unchanged q hq hc := by rw [h q hq, hf.erase_children, hf.filter_children hc]

/-- Where a moved node comes to stand, and that all other nodes stay in their order. Consistent forests and grown trees
have orderly child lists. -/
theorem children_of_moved (hf : f.Orderly) (hp : p < f.size) :
    (∀ index c, ¬ f.Above c p →
      ∃ g, f.insertChild p index c = .ok g ∧ f.KeepsOthers g p c ∧
        PutBefore (f.children p) c (follower (f.children p) index c) (g.children p)) ∧
    ∀ old new, old ∈ f.children p → old ≠ new → ¬ f.Above new p →
      ∃ g, f.replaceChild p old new = (g, .done) ∧ f.KeepsOthers g p new ∧
        g.children p = ((f.children p).filter (· ≠ new)).replace old new := by
  refine ⟨fun index c habove => ?_, fun old new hold hne habove => ?_⟩
  · refine ⟨f.put p (f.place p index c) c, ?_, hf.keepsOthers fun q hq => ?_, hf.children_put_self hp index c⟩
    · rw [insertChild_eq, if_neg (by rwa [hf.acyclic.isAncestor_iff])]
    · rw [hf.children_put hp, if_neg hq]
  · obtain ⟨-, h⟩ | ⟨-, i, hi, hrun⟩ := hf.replaceChild_eq hold hne
    · exact absurd h habove
    · refine ⟨f.swap p i old new, hrun, hf.keepsOthers fun q hq => ?_, hf.children_swap_self hp hi⟩
      rw [hf.children_swap hp, if_neg hq]

/-- The first of three siblings moves to index 2, past the end, before itself and into the place of the last; a fourth
node leaves its parent for the front and, before the index -1, for the end. -/
theorem children_of_moved_siblings :
    let steps : List Step := [.make .document [], .make (.text { value := "a" }) [], .make (.text { value := "b" }) [],
      .make (.text { value := "c" }) [], .append 0 [1, 2, 3], .make (.text { value := "d" }) [], .make .block [4]]
    let f := steps.foldl Step.run .empty
    let after (index : Int) (c : NodeId) := (f.insertChild 0 index c).toOption.map fun g => (g.children 0, g.children 5)
    (after 2 1 = some ([2, 1, 3], [4]) ∧ after 9 1 = some ([2, 3, 1], [4]) ∧ after 1 1 = some ([1, 2, 3], [4]) ∧
      after 0 4 = some ([4, 1, 2, 3], []) ∧ after (-1) 4 = some ([1, 2, 3, 4], [])) ∧
    (∃ g, f.insertChild 0 2 1 = .ok g ∧ f.KeepsOthers g 0 1 ∧ PutBefore [1, 2, 3] 1 (some 3) (g.children 0)) ∧
    ∃ g, f.replaceChild 0 3 1 = (g, .done) ∧ g.children 0 = [2, 1] := by
  intro steps f after
  have hf : f.Consistent := by
    have hsteps : ∀ s ∈ steps, s.OnChildren := by simp [steps, Step.OnChildren]
    refine consistent_empty.trace hsteps ?_ f ?_
    · simp only [steps, Possible]
      decide
    · simp only [f, steps, trace]
      decide
  have habove : ¬ f.Above 1 0 := by
    rw [← hf.acyclic.isAncestor_iff]
    decide
  obtain ⟨hinsert, hreplace⟩ := children_of_moved hf.orderly (p := 0) (by decide)
  refine ⟨by decide, hinsert 2 1 habove, ?_⟩
  obtain ⟨g, hrun, -, hg⟩ := hreplace 3 1 (by decide) (by decide) habove
  exact ⟨g, hrun, hg⟩

end Stencil.Forest
