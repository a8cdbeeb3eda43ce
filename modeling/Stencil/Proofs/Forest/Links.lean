import Stencil.Forest.Mutation
import Mathlib.Data.Fintype.Card
import Mathlib.Logic.Relation

/-! Parent links. What every change of a forest does to the links is said once, node by node; links without a cycle stay
so when some are cut, and when nodes are hung below a node just if none of them stands above it. On such links a node
has fewer ancestors than there are nodes, so that looking for an ancestor finds it. -/

namespace Stencil.Forest

open Relation (TransGen ReflTransGen)

variable {f g : Forest} {a c p id x : NodeId}

theorem size_modify (f : Forest) (id : NodeId) (h : Node → Node) : (f.modify id h).size = f.size :=
  Array.size_modify ..

@[simp] theorem size_setParent (f : Forest) (id : NodeId) (q : Option NodeId) : (f.setParent id q).size = f.size :=
  size_modify ..

@[simp] theorem size_setChildren (f : Forest) (id : NodeId) (cs : List NodeId) : (f.setChildren id cs).size = f.size :=
  size_modify ..

@[simp] theorem size_setOrigin (f : Forest) (id : NodeId) (o : Option Origin) : (f.setOrigin id o).size = f.size :=
  size_modify ..

@[simp] theorem size_setBundle (f : Forest) (id : NodeId) (b : Bundle) : (f.setBundle id b).size = f.size :=
  size_modify ..

theorem get?_modify (f : Forest) (id x : NodeId) (h : Node → Node) :
    (f.modify id h).get? x = if x = id then (f.get? x).map h else f.get? x := by
  simp only [get?, modify, Array.getElem?_modify, eq_comm]

theorem get?_setParent (f : Forest) (c : NodeId) (q : Option NodeId) (x : NodeId) :
    (f.setParent c q).get? x = if x = c then (f.get? x).map ({ · with parent := q }) else f.get? x :=
  get?_modify ..

theorem lt_size_of_get? {n : Node} (h : f.get? x = some n) : x < f.size := by
  obtain ⟨hx, -⟩ := Array.getElem?_eq_some_iff.mp h
  exact hx

theorem exists_get? (h : x < f.size) : ∃ n, f.get? x = some n := ⟨_, Array.getElem?_eq_getElem h⟩

theorem lt_size_of_parent (h : f.parent c = some p) : c < f.size := by
  obtain ⟨n, hn, -⟩ := Option.bind_eq_some_iff.mp h
  exact lt_size_of_get? hn

theorem lt_size_of_mem_children (h : c ∈ f.children p) : p < f.size := by
  by_contra hp
  have hnone : f.get? p = none := Array.getElem?_eq_none (Nat.le_of_not_lt hp)
  simp [children, hnone] at h

theorem parent_setParent (q : Option NodeId) (h : c < f.size) (x : NodeId) :
    (f.setParent c q).parent x = if x = c then q else f.parent x := by
  rw [parent, setParent, get?_modify]
  by_cases hx : x = c
  · subst hx
    obtain ⟨n, hn⟩ := exists_get? h
    simp [hn]
  · simp [hx, parent]

/-- Setting a parent changes no other link, in range or not. -/
theorem parent_setParent_of_ne (q : Option NodeId) (h : x ≠ c) : (f.setParent c q).parent x = f.parent x := by
  rw [parent, setParent, get?_modify, if_neg h, parent]

theorem parent_setParent_none (f : Forest) (c x : NodeId) :
    (f.setParent c none).parent x = if x = c then none else f.parent x := by
  by_cases hx : x = c
  · subst hx
    rw [if_pos rfl, parent, setParent, get?_modify, if_pos rfl]
    cases f.get? x <;> rfl
  · rw [if_neg hx, parent_setParent_of_ne _ hx]

@[simp] theorem children_setParent (f : Forest) (c : NodeId) (q : Option NodeId) (x : NodeId) :
    (f.setParent c q).children x = f.children x := by
  rw [children, setParent, get?_modify, children]
  split
  · cases f.get? x <;> rfl
  · rfl

@[simp] theorem parent_setChildren (f : Forest) (p : NodeId) (cs : List NodeId) (x : NodeId) :
    (f.setChildren p cs).parent x = f.parent x := by
  rw [parent, setChildren, get?_modify, parent]
  split
  · cases f.get? x <;> rfl
  · rfl

theorem children_setChildren (cs : List NodeId) (h : p < f.size) (x : NodeId) :
    (f.setChildren p cs).children x = if x = p then cs else f.children x := by
  rw [children, setChildren, get?_modify]
  by_cases hx : x = p
  · subst hx
    obtain ⟨n, hn⟩ := exists_get? h
    simp [hn]
  · simp [hx, children]

@[simp] theorem parent_setBundle (f : Forest) (id : NodeId) (b : Bundle) (x : NodeId) :
    (f.setBundle id b).parent x = f.parent x := by
  rw [parent, setBundle, get?_modify, parent]
  split
  · cases f.get? x <;> rfl
  · rfl

@[simp] theorem children_setBundle (f : Forest) (id : NodeId) (b : Bundle) (x : NodeId) :
    (f.setBundle id b).children x = f.children x := by
  rw [children, setBundle, get?_modify, children]
  split
  · cases f.get? x <;> rfl
  · rfl

def relink (f : Forest) (S : List NodeId) (q : Option NodeId) : Forest := S.foldl (fun f s => f.setParent s q) f

theorem get?_relink (f : Forest) (S : List NodeId) (q : Option NodeId) (x : NodeId) :
    (f.relink S q).get? x = if x ∈ S then (f.get? x).map ({ · with parent := q }) else f.get? x := by
  induction S generalizing f with
  | nil => simp [relink]
  | cons s S ih =>
    have hcons : f.relink (s :: S) q = (f.setParent s q).relink S q := rfl
    rw [hcons, ih, get?_setParent]
    by_cases hs : x = s
    · subst hs
      cases f.get? x <;> simp
    · simp [hs]

@[simp] theorem size_relink (f : Forest) (S : List NodeId) (q : Option NodeId) : (f.relink S q).size = f.size := by
  induction S generalizing f with
  | nil => rfl
  | cons s S ih => exact (ih (f.setParent s q)).trans (size_setParent f s q)

theorem parent_relink {S : List NodeId} (hS : ∀ s ∈ S, s < f.size) (q : Option NodeId) (x : NodeId) :
    (f.relink S q).parent x = if x ∈ S then q else f.parent x := by
  rw [parent, get?_relink]
  split
  next hx =>
    obtain ⟨n, hn⟩ := exists_get? (hS x hx)
    simp [hn]
  next => rfl

theorem parent_relink_none (f : Forest) (S : List NodeId) (x : NodeId) :
    (f.relink S none).parent x = if x ∈ S then none else f.parent x := by
  rw [parent, get?_relink]
  split
  · cases f.get? x <;> rfl
  · rfl

@[simp] theorem children_relink (f : Forest) (S : List NodeId) (q : Option NodeId) (x : NodeId) :
    (f.relink S q).children x = f.children x := by
  rw [children, get?_relink, children]
  split
  · cases f.get? x <;> rfl
  · rfl

@[simp] theorem content?_relink (f : Forest) (S : List NodeId) (q : Option NodeId) (x : NodeId) :
    (f.relink S q).content? x = f.content? x := by
  rw [content?, get?_relink, content?]
  split
  · cases f.get? x <;> rfl
  · rfl

theorem content?_modify {h : Node → Node} (hh : ∀ n, (h n).content = n.content) (f : Forest) (id x : NodeId) :
    (f.modify id h).content? x = f.content? x := by
  rw [content?, get?_modify, content?]
  split
  · rw [Option.map_map]
    exact congrArg (Option.map · _) (funext hh)
  · rfl

@[simp] theorem content?_setParent (f : Forest) (c : NodeId) (q : Option NodeId) (x : NodeId) :
    (f.setParent c q).content? x = f.content? x :=
  content?_modify (by intro; rfl) ..

@[simp] theorem content?_setChildren (f : Forest) (p : NodeId) (cs : List NodeId) (x : NodeId) :
    (f.setChildren p cs).content? x = f.content? x :=
  content?_modify (by intro; rfl) ..

@[simp] theorem content?_setOrigin (f : Forest) (id : NodeId) (o : Option Origin) (x : NodeId) :
    (f.setOrigin id o).content? x = f.content? x :=
  content?_modify (by intro; rfl) ..

theorem size_make (f : Forest) (content : Content) : (f.make content).1.size = f.size + 1 := Array.size_push ..

theorem get?_make (f : Forest) (content : Content) (x : NodeId) :
    (f.make content).1.get? x = if x = f.size then some { content } else f.get? x := by
  rw [get?, make, Array.getElem?_push]
  rfl

theorem get?_size (f : Forest) : f.get? f.size = none := Array.getElem?_eq_none (Nat.le_refl _)

theorem parent_make (f : Forest) (content : Content) (x : NodeId) : (f.make content).1.parent x = f.parent x := by
  rw [parent, get?_make, parent]
  split
  next h => rw [h, get?_size]; rfl
  next => rfl

theorem children_make (f : Forest) (content : Content) (x : NodeId) :
    (f.make content).1.children x = f.children x := by
  rw [children, get?_make, children]
  split
  next h => rw [h, get?_size]; rfl
  next => rfl

theorem parent_size (f : Forest) : f.parent f.size = none := by rw [parent, get?_size]; rfl

theorem children_size (f : Forest) : f.children f.size = [] := by rw [children, get?_size]; rfl

def Up (f : Forest) (c p : NodeId) : Prop := f.parent c = some p

/-- `a` is `id` or one of its ancestors. -/
def Above (f : Forest) (a id : NodeId) : Prop := ReflTransGen f.Up id a

/-- No node is its own ancestor. -/
def Acyclic (f : Forest) : Prop := ∀ id, ¬ TransGen f.Up id id

theorem acyclic_empty : Acyclic .empty := by
  intro id h
  obtain ⟨p, hp, -⟩ := TransGen.head'_iff.mp h
  cases hp

theorem above_of_parent_none (h : f.parent id = none) : f.Above a id ↔ a = id := by
  refine ⟨fun ha => ?_, fun ha => ha ▸ .refl⟩
  rcases ReflTransGen.cases_head ha with rfl | ⟨p, hp, -⟩
  · rfl
  · rw [Up, h] at hp
    cases hp

section Cut

variable (hg : ∀ x, g.parent x = none ∨ g.parent x = f.parent x)
include hg

theorem up_of_cut (h : g.Up c p) : f.Up c p := by
  rcases hg c with hc | hc
  · rw [Up, hc] at h
    cases h
  · exact hc.symm.trans h

/-- Cutting links brings no node above another. -/
theorem above_of_cut (h : g.Above a id) : f.Above a id := h.lift (fun x => x) fun _ _ => up_of_cut hg

theorem Acyclic.of_cut (hf : f.Acyclic) : g.Acyclic := by
  intro id hid
  exact hf id (hid.lift (fun x => x) fun _ _ => up_of_cut hg)

end Cut

section Hang

variable {S : List NodeId} {owner : NodeId} (hg : ∀ x, g.parent x = if x ∈ S then some owner else f.parent x)
include hg

theorem up_of_mem (hx : x ∈ S) : g.Up x owner := by rw [Up, hg, if_pos hx]

theorem up_iff_of_not_mem (hx : x ∉ S) : g.Up x p ↔ f.Up x p := by rw [Up, hg, if_neg hx, Up]

/-- A path through a hung node starts with a path to one and ends with a path from the owner. -/
theorem trans_hang (h : TransGen g.Up x p) :
    TransGen f.Up x p ∨ ∃ s ∈ S, ReflTransGen g.Up x s ∧ ReflTransGen g.Up owner p := by
  induction h with
  | @single y hy =>
    by_cases hx : x ∈ S
    · obtain rfl : owner = y := Option.some.inj ((up_of_mem hg hx).symm.trans hy)
      exact .inr ⟨x, hx, .refl, .refl⟩
    · exact .inl (.single ((up_iff_of_not_mem hg hx).mp hy))
  | @tail y z hxy hz ih =>
    by_cases hy : y ∈ S
    · obtain rfl : owner = z := Option.some.inj ((up_of_mem hg hy).symm.trans hz)
      exact .inr ⟨y, hy, hxy.to_reflTransGen, .refl⟩
    · rcases ih with ih | ⟨s, hs, hxs, hys⟩
      · exact .inl (ih.tail ((up_iff_of_not_mem hg hy).mp hz))
      · exact .inr ⟨s, hs, hxs, hys.tail hz⟩

theorem above_of_hang (hS : ∀ s ∈ S, ¬ f.Above s owner) (h : g.Above a owner) : f.Above a owner := by
  induction h with
  | refl => exact .refl
  | @tail y z _ hz ih => exact ReflTransGen.tail ih ((up_iff_of_not_mem hg fun hy => hS y hy ih).mp hz)

/-- Hanging nodes below one they do not stand above leaves its ancestors as they were. -/
theorem above_hang_iff (hS : ∀ s ∈ S, ¬ f.Above s owner) : g.Above a owner ↔ f.Above a owner := by
  refine ⟨above_of_hang hg hS, fun h => ?_⟩
  induction h with
  | refl => exact .refl
  | @tail y z hy hz ih => exact ReflTransGen.tail ih ((up_iff_of_not_mem hg fun hm => hS y hm hy).mpr hz)

theorem cycle_of_hang (hx : x ∈ S) (h : f.Above x owner) : TransGen g.Up owner owner := by
  have hreach : ∀ y, f.Above y owner → g.Above y owner ∨ ∃ s ∈ S, g.Above s owner := by
    intro y hy
    induction hy with
    | refl => exact .inl .refl
    | @tail y z _ hz ih =>
      rcases ih with ih | ih
      · by_cases hm : y ∈ S
        · exact .inr ⟨y, hm, ih⟩
        · exact .inl (ReflTransGen.tail ih ((up_iff_of_not_mem hg hm).mpr hz))
      · exact .inr ih
  obtain ⟨s, hs, has⟩ : ∃ s ∈ S, g.Above s owner := by
    rcases hreach x h with hgx | hgs
    · exact ⟨x, hx, hgx⟩
    · exact hgs
  exact TransGen.tail' has (up_of_mem hg hs)

/-- Hanging nodes below one makes a cycle just if one of them stands above it. -/
theorem acyclic_hang_iff (hf : f.Acyclic) : g.Acyclic ↔ ∀ s ∈ S, ¬ f.Above s owner := by
  refine ⟨fun h s hs ha => h owner (cycle_of_hang hg hs ha), fun h id hid => ?_⟩
  rcases trans_hang hg hid with hid | ⟨s, hs, hids, howner⟩
  · exact hf id hid
  · exact h s hs (above_of_hang hg h (howner.trans hids))

end Hang

/-- The node `n` links above `id`. -/
def climb (f : Forest) : Nat → NodeId → Option NodeId
  | 0, id => some id
  | n + 1, id => (f.parent id).bind (f.climb n)

theorem climb_add (f : Forest) (m n : Nat) (id : NodeId) : f.climb (m + n) id = (f.climb m id).bind (f.climb n) := by
  induction m generalizing id with
  | zero => simp [climb]
  | succ m ih =>
    rw [Nat.succ_add, climb, climb]
    cases f.parent id with
    | none => rfl
    | some p => exact ih p

theorem above_iff_climb : f.Above a id ↔ ∃ n, f.climb n id = some a := by
  constructor
  · intro h
    induction h using ReflTransGen.head_induction_on with
    | refl => exact ⟨0, rfl⟩
    | @head x y hxy _ ih =>
      obtain ⟨n, hn⟩ := ih
      exact ⟨n + 1, by rw [climb, hxy]; exact hn⟩
  · rintro ⟨n, hn⟩
    induction n generalizing id with
    | zero =>
      obtain rfl := Option.some.inj hn
      exact .refl
    | succ n ih =>
      obtain ⟨p, hp, hn⟩ := Option.bind_eq_some_iff.mp hn
      exact ReflTransGen.head hp (ih hn)

theorem trans_of_climb {n : Nat} (h : f.climb (n + 1) id = some a) : TransGen f.Up id a := by
  obtain ⟨p, hp, hn⟩ := Option.bind_eq_some_iff.mp h
  exact TransGen.head' hp (above_iff_climb.mpr ⟨n, hn⟩)

/-- All nodes of a walk but the last have a parent and no two are the same, so it has no more links than the forest
has nodes. -/
theorem Acyclic.climb_lt (hf : f.Acyclic) {n : Nat} (h : f.climb (n + 1) id = some a) : n < f.size := by
  have hstep : ∀ i : Fin (n + 1), ∃ y, f.climb i id = some y ∧ y < f.size := by
    intro i
    have hsplit : f.climb (i + (n + 1 - i)) id = some a := by rw [Nat.add_sub_cancel' (by omega)]; exact h
    rw [climb_add] at hsplit
    obtain ⟨y, hy, hrest⟩ := Option.bind_eq_some_iff.mp hsplit
    obtain ⟨k, hk⟩ : ∃ k, n + 1 - i = k + 1 := ⟨n - i, by omega⟩
    rw [hk] at hrest
    obtain ⟨q, hq, -⟩ := Option.bind_eq_some_iff.mp hrest
    exact ⟨y, hy, lt_size_of_parent hq⟩
  choose y hy hlt using hstep
  have hne : ∀ i j : Fin (n + 1), i < j → y i ≠ y j := by
    intro i j hij heq
    have hsplit : f.climb (i + (j - i)) id = some (y j) := by rw [Nat.add_sub_cancel' hij.le]; exact hy j
    rw [climb_add, hy i, ← heq] at hsplit
    obtain ⟨k, hk⟩ : ∃ k, (j : Nat) - i = k + 1 := ⟨j - i - 1, by have : (i : Nat) < j := hij; omega⟩
    rw [hk] at hsplit
    exact hf _ (trans_of_climb hsplit)
  have hinj : Function.Injective fun i => (⟨y i, hlt i⟩ : Fin f.size) := by
    intro i j hij
    have heq : y i = y j := congrArg Fin.val hij
    rcases lt_trichotomy i j with hlt | heq' | hlt
    · exact absurd heq (hne i j hlt)
    · exact heq'
    · exact absurd heq.symm (hne j i hlt)
  have hcard := Fintype.card_le_of_injective _ hinj
  simp only [Fintype.card_fin] at hcard
  omega

theorem mem_ancestorsFrom {n : Nat} : a ∈ f.ancestorsFrom n id ↔ ∃ k < n, f.climb (k + 1) id = some a := by
  induction n generalizing id with
  | zero => simp [ancestorsFrom]
  | succ n ih =>
    rw [ancestorsFrom]
    cases hp : f.parent id with
    | none => simp [climb, hp]
    | some p =>
      simp only [List.mem_cons, ih]
      constructor
      · rintro (rfl | ⟨k, hk, hc⟩)
        · exact ⟨0, by omega, by simp [climb, hp]⟩
        · exact ⟨k + 1, by omega, by rw [climb, hp]; exact hc⟩
      · rintro ⟨k, hk, hc⟩
        rw [climb, hp] at hc
        cases k with
        | zero => exact .inl (Option.some.inj hc).symm
        | succ k => exact .inr ⟨k, by omega, hc⟩

theorem Acyclic.isAncestor_iff (hf : f.Acyclic) : f.isAncestor a id = true ↔ f.Above a id := by
  rw [isAncestor, Bool.or_eq_true, beq_iff_eq, List.contains_iff_mem, ancestors, mem_ancestorsFrom, above_iff_climb]
  constructor
  · rintro (rfl | ⟨k, -, hk⟩)
    · exact ⟨0, rfl⟩
    · exact ⟨k + 1, hk⟩
  · rintro ⟨n, hn⟩
    cases n with
    | zero => exact .inl (Option.some.inj hn).symm
    | succ n => exact .inr ⟨n, hf.climb_lt hn, hn⟩

/-- On links without a cycle every walk up ends within as many steps as there are nodes. -/
theorem Acyclic.climb_eq_none (hf : f.Acyclic) (id : NodeId) : f.climb (f.size + 1) id = none := by
  cases h : f.climb (f.size + 1) id with
  | none => rfl
  | some a => exact absurd (hf.climb_lt h) (Nat.lt_irrefl _)

/-- From a node that is its own ancestor the walk up never ends. -/
theorem climb_isSome_of_cycle (h : TransGen f.Up id id) (n : Nat) : (f.climb n id).isSome := by
  obtain ⟨p, hp, hpath⟩ := TransGen.head'_iff.mp h
  obtain ⟨m, hm⟩ := above_iff_climb.mp hpath
  have hround : f.climb (m + 1) id = some id := by rw [climb, hp]; exact hm
  have hrounds : ∀ k, f.climb ((m + 1) * k) id = some id := by
    intro k
    induction k with
    | zero => rfl
    | succ k ih => rw [Nat.mul_succ, climb_add, ih]; exact hround
  have hsplit : f.climb (n + ((m + 1) * n - n)) id = some id := by
    rw [Nat.add_sub_cancel' (Nat.le_mul_of_pos_left n (Nat.succ_pos m))]
    exact hrounds n
  rw [climb_add] at hsplit
  obtain ⟨y, hy, -⟩ := Option.bind_eq_some_iff.mp hsplit
  simp [hy]

end Stencil.Forest
