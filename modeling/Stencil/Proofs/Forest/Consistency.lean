import Stencil.Proofs.Forest.Links
import Mathlib.Data.List.Dedup
import Mathlib.Data.List.Perm.Basic

/-! Consistent forests: a node stands in the child list of its parent, once, and in no other, and no node is its own
ancestor. Every change of the child lists keeps a forest consistent. A change is refused just if it would hang a node
below itself, and then leaves the forest as it was. -/

namespace Stencil.Forest

variable {f g : Forest} {a c p q x : NodeId}

/-- `below` lists, once each, the nodes every node is the parent of, and no node is its own ancestor. -/
structure Linked (f : Forest) (below : NodeId → List NodeId) : Prop where
  mem_below : ∀ p c, c ∈ below p ↔ f.parent c = some p
  nodup : ∀ p, (below p).Nodup
  acyclic : f.Acyclic

/-- All links go through the child lists. -/
def Consistent (f : Forest) : Prop := f.Linked f.children

/-- A child hangs below the node that lists it, once, and no node is its own ancestor. Other nodes may hang below a node
without being listed. -/
structure Orderly (f : Forest) : Prop where
  parent_of_mem : ∀ {p c}, c ∈ f.children p → f.parent c = some p
  nodup : ∀ p, (f.children p).Nodup
  acyclic : f.Acyclic

theorem Consistent.orderly (hf : f.Consistent) : f.Orderly :=
  ⟨fun {p c} => (hf.mem_below p c).mp, hf.nodup, hf.acyclic⟩

section Linked

variable {below below' : NodeId → List NodeId} (hf : f.Linked below)
include hf

theorem Linked.congr (hp : ∀ x, g.parent x = f.parent x) (hb : ∀ x, below' x = below x) : g.Linked below' where
  mem_below p c := by rw [hb, hp, hf.mem_below]
  nodup p := by rw [hb]; exact hf.nodup p
  acyclic := hf.acyclic.of_cut fun x => .inr (hp x)

/-- Hanging nodes without a parent below one they do not stand above. -/
theorem Linked.hang {S : List NodeId} (hS : S.Nodup) (hroots : ∀ s ∈ S, f.parent s = none)
    (habove : ∀ s ∈ S, ¬ f.Above s p) (hparent : ∀ x, g.parent x = if x ∈ S then some p else f.parent x)
    (hp : (below' p).Perm (S ++ below p)) (hne : ∀ q, q ≠ p → below' q = below q) : g.Linked below' := by
  have hfree : ∀ s ∈ S, ∀ q, s ∉ below q := fun s hs q hm => by
    rw [hf.mem_below, hroots s hs] at hm
    cases hm
  refine ⟨fun q x => ?_, fun q => ?_, (acyclic_hang_iff hparent hf.acyclic).mpr habove⟩
  · rw [hparent]
    by_cases hx : x ∈ S
    · by_cases hq : q = p
      · simp [hq, hp.mem_iff, hx]
      · simp [hne q hq, hfree x hx, hx, Ne.symm hq]
    · by_cases hq : q = p
      · simp [hq, hp.mem_iff, hx, hf.mem_below]
      · simp [hne q hq, hx, hf.mem_below]
  · by_cases hq : q = p
    · rw [hq, hp.nodup_iff]
      exact hS.append (hf.nodup p) fun s hs => hfree s hs p
    · rw [hne q hq]
      exact hf.nodup q

end Linked

theorem consistent_empty : Consistent .empty :=
  ⟨fun _ _ => ⟨nofun, nofun⟩, fun _ => List.nodup_nil, acyclic_empty⟩

theorem Consistent.make (hf : f.Consistent) (content : Content) : (f.make content).1.Consistent :=
  hf.congr (parent_make f content) (children_make f content)

def detach (f : Forest) (c : NodeId) : Forest :=
  match f.parent c with
  | some p => (f.removeChild p c).1
  | none => f

theorem removeChild_of_mem (h : c ∈ f.children p) :
    f.removeChild p c = ((f.setChildren p ((f.children p).erase c)).setParent c none, true) := by
  rw [removeChild, if_pos (by simpa using h)]

theorem removeChild_of_not_mem (h : c ∉ f.children p) : f.removeChild p c = (f, false) := by
  rw [removeChild, if_neg (by simpa using h)]

theorem size_removeChild (f : Forest) (p c : NodeId) : (f.removeChild p c).1.size = f.size := by
  by_cases h : c ∈ f.children p
  · simp [removeChild_of_mem h]
  · simp [removeChild_of_not_mem h]

theorem parent_removeChild (f : Forest) (p c x : NodeId) :
    (f.removeChild p c).1.parent x = if x = c ∧ c ∈ f.children p then none else f.parent x := by
  by_cases h : c ∈ f.children p
  · simp [removeChild_of_mem h, parent_setParent_none, h]
  · simp [removeChild_of_not_mem h, h]

theorem children_removeChild (f : Forest) (p c q : NodeId) :
    (f.removeChild p c).1.children q = if q = p then (f.children q).erase c else f.children q := by
  by_cases h : c ∈ f.children p
  · rw [removeChild_of_mem h, children_setParent, children_setChildren _ (lt_size_of_mem_children h)]
    split
    next hq => rw [hq]
    next => rfl
  · rw [removeChild_of_not_mem h]
    split
    next hq => rw [hq, List.erase_of_not_mem h]
    next => rfl

theorem size_detach (f : Forest) (c : NodeId) : (f.detach c).size = f.size := by
  rw [detach]
  split
  · exact size_removeChild ..
  · rfl

theorem parent_removeChild_cut (f : Forest) (p c x : NodeId) :
    (f.removeChild p c).1.parent x = none ∨ (f.removeChild p c).1.parent x = f.parent x := by
  rw [parent_removeChild]
  split
  · exact .inl rfl
  · exact .inr rfl

theorem parent_detach_cut (f : Forest) (c x : NodeId) :
    (f.detach c).parent x = none ∨ (f.detach c).parent x = f.parent x := by
  rw [detach]
  split
  · exact parent_removeChild_cut ..
  · exact .inr rfl

theorem parent_detach_of_ne (h : x ≠ c) : (f.detach c).parent x = f.parent x := by
  rw [detach]
  split
  · rw [parent_removeChild, if_neg fun hx => h hx.1]
  · rfl

namespace Consistent

variable (hf : f.Consistent)
include hf

protected theorem removeChild (p c : NodeId) : (f.removeChild p c).1.Consistent where
  mem_below q x := by
    rw [children_removeChild, parent_removeChild]
    have hq := hf.mem_below q x
    by_cases hqp : q = p
    · subst hqp
      rw [if_pos rfl, (hf.nodup q).mem_erase_iff, hq]
      by_cases hx : x = c
      · subst hx
        simp [hq]
      · simp [hx]
    · rw [if_neg hqp, hq]
      by_cases hx : x = c ∧ c ∈ f.children p
      · obtain ⟨rfl, hx⟩ := hx
        rw [hf.mem_below] at hx
        simp [hx, Ne.symm hqp, hf.mem_below]
      · rw [if_neg hx]
  nodup q := by
    rw [children_removeChild]
    split
    · exact (hf.nodup q).erase c
    · exact hf.nodup q
  acyclic := hf.acyclic.of_cut (parent_removeChild_cut f p c)

protected theorem detach (c : NodeId) : (f.detach c).Consistent := by
  rw [Forest.detach]
  split
  · exact hf.removeChild _ c
  · exact hf

theorem parent_detach (c x : NodeId) : (f.detach c).parent x = if x = c then none else f.parent x := by
  by_cases hx : x = c
  · subst hx
    rw [if_pos rfl, Forest.detach]
    split
    next p hp => rw [parent_removeChild, if_pos ⟨rfl, (hf.mem_below p x).mpr hp⟩]
    next hp => exact hp
  · rw [parent_detach_of_ne hx, if_neg hx]

/-- Hanging a node without a parent below one it does not stand above. -/
theorem attach {siblings : List NodeId} (hc : c < f.size) (hp : p < f.size) (hnone : f.parent c = none)
    (habove : ¬ f.Above c p) (hperm : siblings.Perm (c :: f.children p)) :
    ((f.setChildren p siblings).setParent c (some p)).Consistent := by
  refine hf.hang (S := [c]) (List.nodup_singleton c) (by simpa using hnone) (by simpa using habove) (fun x => ?_) ?_
    fun q hq => ?_
  · rw [parent_setParent _ (by simpa using hc), parent_setChildren]
    simp
  · rw [children_setParent, children_setChildren _ hp, if_pos rfl]
    exact hperm
  · rw [children_setParent, children_setChildren _ hp, if_neg hq]

end Consistent

/-- A detached node is in no child list, and the others stay in their order. -/
theorem Orderly.children_detach (hf : f.Orderly) (c q : NodeId) :
    (f.detach c).children q = (f.children q).erase c := by
  have hne : f.parent c ≠ some q → (f.children q).erase c = f.children q := fun h =>
    List.erase_of_not_mem fun hm => h (hf.parent_of_mem hm)
  rw [Forest.detach]
  split
  next p hp =>
    rw [children_removeChild]
    split
    next => rfl
    next hqp => exact (hne fun h => hqp (Option.some.inj (h.symm.trans hp))).symm
  next hp => exact (hne (by rw [hp]; nofun)).symm

/-- The place in the child list of `p` that inserting `c` at an index means, once `c` has left its parent. -/
def place (f : Forest) (p : NodeId) (index : Int) (c : NodeId) : Nat :=
  let index := match (f.children p).idxOf? c with
    | some i => if f.parent c = some p ∧ (i : Int) < index then index - 1 else index
    | none => index
  let siblings := (f.detach c).children p
  if index < 0 then siblings.length else min index.toNat siblings.length

/-- The node leaves its parent and comes to stand at a place below `p`. -/
def put (f : Forest) (p : NodeId) (place : Nat) (c : NodeId) : Forest :=
  ((f.detach c).setChildren p (((f.detach c).children p).insertIdx place c)).setParent c (some p)

theorem insertChild_eq (f : Forest) (p : NodeId) (index : Int) (c : NodeId) :
    f.insertChild p index c = if f.isAncestor c p then .error .cycle else .ok (f.put p (f.place p index c) c) := rfl

theorem place_le (f : Forest) (p : NodeId) (index : Int) (c : NodeId) :
    f.place p index c ≤ ((f.detach c).children p).length := by
  have hle : ∀ (i : Int) (n : Nat), (if i < 0 then n else min i.toNat n) ≤ n := fun i n => by
    split <;> omega
  exact hle ..

theorem size_put (f : Forest) (p : NodeId) (place : Nat) (c : NodeId) : (f.put p place c).size = f.size := by
  rw [put, size_setParent, size_setChildren, size_detach]

theorem Orderly.children_put (hf : f.Orderly) (hp : p < f.size) (place : Nat) (c q : NodeId) :
    (f.put p place c).children q =
      if q = p then ((f.children p).erase c).insertIdx place c else (f.children q).erase c := by
  rw [put, children_setParent, children_setChildren _ (by rwa [size_detach]), hf.children_detach, hf.children_detach]

theorem parent_put (hc : c < f.size) (p : NodeId) (place : Nat) (x : NodeId) :
    (f.put p place c).parent x = if x ∈ [c] then some p else f.parent x := by
  rw [put, parent_setParent _ (by rwa [size_setChildren, size_detach]), parent_setChildren]
  by_cases hx : x = c
  · simp [hx]
  · simp [hx, parent_detach_of_ne]

namespace Consistent

variable (hf : f.Consistent)
include hf

/-- Inserting is refused just if the node would come to stand below itself. -/
theorem insertChild_eq_error_iff (p : NodeId) (index : Int) (c : NodeId) (e : Error) :
    f.insertChild p index c = .error e ↔ e = .cycle ∧ f.Above c p := by
  rw [insertChild_eq, ← hf.acyclic.isAncestor_iff]
  cases f.isAncestor c p with
  | true => simpa using eq_comm
  | false => simp

protected theorem put (hc : c < f.size) (hp : p < f.size) (habove : ¬ f.Above c p) {place : Nat}
    (hplace : place ≤ ((f.detach c).children p).length) : (f.put p place c).Consistent := by
  have hnone : (f.detach c).parent c = none := by rw [hf.parent_detach, if_pos rfl]
  exact (hf.detach c).attach (by rwa [size_detach]) (by rwa [size_detach]) hnone
    (fun h => habove (above_of_cut (parent_detach_cut f c) h)) (List.perm_insertIdx _ _ hplace)

theorem place_append (p c : NodeId) : f.place p (f.children p).length c = ((f.children p).erase c).length := by
  rw [place, hf.orderly.children_detach]
  cases h : (f.children p).idxOf? c with
  | none =>
    rw [List.erase_of_not_mem (List.idxOf?_eq_none_iff.mp h)]
    simp
  | some i =>
    obtain ⟨hi, hc, -⟩ := List.idxOf?_eq_some_iff.mp h
    have hmem : c ∈ f.children p := hc ▸ List.getElem_mem hi
    have hlength := List.length_erase_of_mem hmem
    have hint : (i : Int) < (f.children p).length := by omega
    simp only [(hf.mem_below p c).mp hmem, hint, and_self, if_true]
    rw [if_neg (by omega)]
    omega

theorem appendChild_eq (p c : NodeId) :
    f.appendChild p c =
      if f.isAncestor c p then .error .cycle else .ok (f.put p ((f.children p).erase c).length c) := by
  rw [appendChild, insertChild_eq, hf.place_append]

end Consistent

theorem replaceChild_of_not_mem {old new : NodeId} (h : old ∉ f.children p) :
    f.replaceChild p old new = (f, .notAChild) := by
  rw [replaceChild, if_pos (by simpa using h)]

/-- The forest with `new` at index `i` below `p` and `old` without a parent. -/
def swap (f : Forest) (p : NodeId) (i : Nat) (old new : NodeId) : Forest :=
  (((f.detach new).setChildren p (((f.detach new).children p).set i new)).setParent old none).setParent new (some p)

theorem replaceChild_of_mem {old new : NodeId} (h : old ∈ f.children p) :
    f.replaceChild p old new =
      if f.isAncestor new p then (f, .refused .cycle)
      else match ((f.detach new).children p).idxOf? old with
        | none => (f.detach new, .vanished)
        | some i => (f.swap p i old new, .done) := by
  rw [replaceChild, if_neg (by simpa using h)]
  rfl

theorem parent_swap {new : NodeId} (hnew : new < f.size) (p : NodeId) (i : Nat) (old x : NodeId) :
    (f.swap p i old new).parent x = if x ∈ [new] then some p else (f.setParent old none).parent x := by
  rw [swap, parent_setParent _ (by rwa [size_setParent, size_setChildren, size_detach]), parent_setParent_none,
    parent_setChildren, parent_setParent_none]
  by_cases hx : x = new
  · simp [hx]
  · simp [hx, parent_detach_of_ne]

namespace Orderly

variable (hf : f.Orderly)
include hf

/-- A child other than its replacement is still there when the replacement has left its parent. -/
theorem replaceChild_eq {old new : NodeId} (h : old ∈ f.children p) (hne : old ≠ new) :
    f.replaceChild p old new = (f, .refused .cycle) ∧ f.Above new p ∨
    ¬ f.Above new p ∧ ∃ i, ((f.children p).erase new).idxOf? old = some i ∧
      f.replaceChild p old new = (f.swap p i old new, .done) := by
  rw [replaceChild_of_mem h, hf.children_detach, ← hf.acyclic.isAncestor_iff]
  cases f.isAncestor new p with
  | true => exact .inl ⟨rfl, rfl⟩
  | false =>
    right
    obtain ⟨i, hi⟩ : ∃ i, ((f.children p).erase new).idxOf? old = some i := by
      rw [← Option.isSome_iff_exists, List.isSome_idxOf?]
      exact (hf.nodup p).mem_erase_iff.mpr ⟨hne, h⟩
    exact ⟨Bool.false_ne_true, i, hi, by rw [hi]; rfl⟩

theorem children_swap (hp : p < f.size) (i : Nat) (old new q : NodeId) :
    (f.swap p i old new).children q =
      if q = p then ((f.children p).erase new).set i new else (f.children q).erase new := by
  rw [swap, children_setParent, children_setParent, children_setChildren _ (by rwa [size_detach]), hf.children_detach,
    hf.children_detach]

end Orderly

namespace Consistent

variable (hf : f.Consistent)
include hf

protected theorem swap {old new : NodeId} {i : Nat} (hnew : new < f.size) (hne : old ≠ new)
    (habove : ¬ f.Above new p) (hi : ((f.children p).erase new).idxOf? old = some i) :
    (f.swap p i old new).Consistent := by
  obtain ⟨hlt, hget, -⟩ := List.idxOf?_eq_some_iff.mp hi
  have hmem : old ∈ (f.children p).erase new := hget ▸ List.getElem_mem hlt
  have hp : p < f.size := lt_size_of_mem_children (List.mem_of_mem_erase hmem)
  -- With both nodes detached, the new one is hung where the old one was.
  have hg := (hf.detach new).detach old
  have hsize : ((f.detach new).detach old).size = f.size := by rw [size_detach, size_detach]
  have hnone : ((f.detach new).detach old).parent new = none := by
    rw [parent_detach_of_ne hne.symm, hf.parent_detach, if_pos rfl]
  have hperm : (((f.children p).erase new).set i new).Perm (new :: ((f.detach new).detach old).children p) := by
    rw [(hf.detach new).orderly.children_detach, hf.orderly.children_detach]
    refine (List.set_perm_cons_eraseIdx hlt new).trans (.cons _ ?_)
    have hrest := (List.getElem_cons_eraseIdx_perm hlt).trans (List.perm_cons_erase hmem)
    rw [hget] at hrest
    exact hrest.cons_inv
  have habove' : ¬ ((f.detach new).detach old).Above new p := by
    intro h
    exact habove (above_of_cut (parent_detach_cut f new) (above_of_cut (parent_detach_cut _ old) h))
  refine (hg.attach (hsize ▸ hnew) (hsize ▸ hp) hnone habove' hperm).congr (fun x => ?_) fun q => ?_
  · rw [parent_swap hnew, parent_setParent_none, parent_setParent _ (by rw [size_setChildren, hsize]; exact hnew),
      parent_setChildren, (hf.detach new).parent_detach, hf.parent_detach]
    by_cases hx : x = new
    · simp [hx]
    · simp [hx]
  · rw [hf.orderly.children_swap hp, children_setParent, children_setChildren _ (hsize ▸ hp)]
    split
    · rfl
    next hq =>
      rw [(hf.detach new).orderly.children_detach, hf.orderly.children_detach, List.erase_of_not_mem (a := old)]
      intro hm
      have hpq := (hf.mem_below q old).mp (List.mem_of_mem_erase hm)
      rw [(hf.mem_below p old).mp (List.mem_of_mem_erase hmem)] at hpq
      exact hq (Option.some.inj hpq).symm

end Consistent

theorem appendChildren_append (f : Forest) (p : NodeId) (before after : List NodeId) :
    f.appendChildren p (before ++ after) =
      match f.appendChildren p before with
      | (g, none) => g.appendChildren p after
      | (g, some e) => (g, some e) := by
  induction before generalizing f with
  | nil => rfl
  | cons c cs ih =>
    rw [List.cons_append, appendChildren, appendChildren]
    cases f.appendChild p c with
    | ok g => exact ih g
    | error e => rfl

/-- `g` is `f` with the nodes `cs` moved below `p`, behind its other children, each at its last occurrence. -/
structure Appended (f : Forest) (p : NodeId) (cs : List NodeId) (g : Forest) : Prop where
  size_eq : g.size = f.size
  parent_eq : ∀ x, g.parent x = if x ∈ cs then some p else f.parent x
  children_eq : ∀ q, g.children q = (f.children q).filter (· ∉ cs) ++ if q = p then cs.dedup else []

theorem Appended.refl (f : Forest) (p : NodeId) : f.Appended p [] f where
  size_eq := rfl
  parent_eq _ := by simp
  children_eq q := by simp

namespace Consistent

variable (hf : f.Consistent)
include hf

theorem appended_put (hc : c < f.size) (hp : p < f.size) :
    f.Appended p [c] (f.put p ((f.children p).erase c).length c) where
  size_eq := size_put ..
  parent_eq x := parent_put hc p _ x
  children_eq q := by
    rw [hf.orderly.children_put hp]
    have hfilter : ∀ q, (f.children q).erase c = (f.children q).filter (· ∉ [c]) := fun q => by
      rw [(hf.nodup q).erase_eq_filter]
      exact List.filter_congr fun x _ => by simp [bne, beq_eq_decide]
    split
    next hq => rw [hq, List.insertIdx_length_self, hfilter]; rfl
    next => rw [hfilter, List.append_nil]

end Consistent

theorem Appended.cons {h : Forest} {cs : List NodeId} (hfg : f.Appended p [c] g) (hgh : g.Appended p cs h) :
    f.Appended p (c :: cs) h where
  size_eq := hgh.size_eq.trans hfg.size_eq
  parent_eq x := by
    rw [hgh.parent_eq, hfg.parent_eq]
    by_cases hx : x ∈ cs <;> by_cases hxc : x = c <;> simp [hx, hxc]
  children_eq q := by
    have hfilter : (f.children q).filter (· ∉ c :: cs) = ((f.children q).filter (· ∉ [c])).filter (· ∉ cs) := by
      rw [List.filter_filter]
      refine List.filter_congr fun x _ => ?_
      by_cases hx : x = c <;> simp [hx]
    rw [hgh.children_eq, hfg.children_eq, List.filter_append, List.append_assoc, hfilter]
    congr 1
    by_cases hq : q = p
    · by_cases hc : c ∈ cs
      · simp [hq, hc]
      · simp [hq, hc]
    · simp [hq]

namespace Consistent

variable (hf : f.Consistent)
include hf

/-- Nodes that do not stand above `p` are all appended to it. -/
theorem appendChildren_eq {cs : List NodeId} (hp : p < f.size) (hcs : ∀ c ∈ cs, c < f.size ∧ ¬ f.Above c p) :
    ∃ g, f.appendChildren p cs = (g, none) ∧ g.Consistent ∧ f.Appended p cs g := by
  induction cs generalizing f with
  | nil => exact ⟨f, rfl, hf, .refl f p⟩
  | cons c cs ih =>
    obtain ⟨⟨hc, habove⟩, hcs⟩ := List.forall_mem_cons.mp hcs
    have happ : f.appendChild p c = .ok (f.put p ((f.children p).erase c).length c) := by
      rw [hf.appendChild_eq, if_neg (by rwa [hf.acyclic.isAncestor_iff])]
    have hput := hf.appended_put hc hp
    obtain ⟨g, hg, hcons, happended⟩ := ih (hf.put hc hp habove (by rw [hf.orderly.children_detach]))
      (by rwa [size_put]) fun s hs => by
        rw [size_put, above_hang_iff (parent_put hc p _) (by simpa using habove)]
        exact hcs s hs
    exact ⟨g, by rw [appendChildren, happ]; exact hg, hcons, hput.cons happended⟩

/-- Appending stops at the first node that stands above `p`: the nodes before it are appended, the others are not. -/
theorem appendChildren_cases {cs : List NodeId} (hp : p < f.size) (hcs : ∀ c ∈ cs, c < f.size) :
    ∃ g before, g.Consistent ∧ f.Appended p before g ∧ (∀ b ∈ before, ¬ f.Above b p) ∧
      (cs = before ∧ f.appendChildren p cs = (g, none) ∨
        ∃ c after, cs = before ++ c :: after ∧ f.Above c p ∧ f.appendChildren p cs = (g, some .cycle)) := by
  cases hfind : cs.find? (f.isAncestor · p) with
  | none =>
    have hnone : ∀ c ∈ cs, ¬ f.Above c p := fun c hc => by
      rw [← hf.acyclic.isAncestor_iff]
      exact List.find?_eq_none.mp hfind c hc
    obtain ⟨g, hg, hcons, happended⟩ := hf.appendChildren_eq hp fun c hc => ⟨hcs c hc, hnone c hc⟩
    exact ⟨g, cs, hcons, happended, hnone, .inl ⟨rfl, hg⟩⟩
  | some c =>
    obtain ⟨hc, before, after, rfl, hbefore⟩ := List.find?_eq_some_iff_append.mp hfind
    rw [hf.acyclic.isAncestor_iff] at hc
    have hnone : ∀ b ∈ before, ¬ f.Above b p := fun b hb => by
      rw [← hf.acyclic.isAncestor_iff]
      simpa using hbefore b hb
    obtain ⟨g, hg, hcons, happended⟩ := hf.appendChildren_eq hp fun b hb =>
      ⟨hcs b (List.mem_append_left _ hb), hnone b hb⟩
    have herror : g.appendChild p c = .error .cycle :=
      (hcons.insertChild_eq_error_iff p _ c .cycle).mpr ⟨rfl, (above_hang_iff happended.parent_eq hnone).mpr hc⟩
    refine ⟨g, before, hcons, happended, hnone, .inr ⟨c, after, rfl, hc, ?_⟩⟩
    rw [appendChildren_append, hg]
    simp only [appendChildren, herror]

end Consistent

theorem removeAllChildren_eq (f : Forest) (p : NodeId) :
    f.removeAllChildren p = (f.relink (f.children p) none).setChildren p [] := rfl

theorem parent_removeAllChildren (f : Forest) (p x : NodeId) :
    (f.removeAllChildren p).parent x = if x ∈ f.children p then none else f.parent x := by
  rw [removeAllChildren_eq, parent_setChildren, parent_relink_none]

theorem parent_removeAllChildren_cut (f : Forest) (p x : NodeId) :
    (f.removeAllChildren p).parent x = none ∨ (f.removeAllChildren p).parent x = f.parent x := by
  rw [parent_removeAllChildren]
  split
  · exact .inl rfl
  · exact .inr rfl

theorem children_removeAllChildren (hp : p < f.size) (q : NodeId) :
    (f.removeAllChildren p).children q = if q = p then [] else f.children q := by
  rw [removeAllChildren_eq, children_setChildren _ (by rwa [size_relink]), children_relink]

protected theorem Consistent.removeAllChildren (hf : f.Consistent) (hp : p < f.size) :
    (f.removeAllChildren p).Consistent where
  mem_below q x := by
    rw [children_removeAllChildren hp, parent_removeAllChildren]
    by_cases hx : f.parent x = some p
    · by_cases hq : q = p
      · simp [hq, hf.mem_below, hx]
      · simp [hq, hf.mem_below, hx, Ne.symm hq]
    · by_cases hq : q = p
      · simp [hq, hf.mem_below, hx]
      · simp [hq, hf.mem_below, hx]
  nodup q := by
    rw [children_removeAllChildren hp]
    split
    · exact List.nodup_nil
    · exact hf.nodup q
  acyclic := hf.acyclic.of_cut (parent_removeAllChildren_cut f p)

end Stencil.Forest
