import Mathlib.Data.List.Perm.Basic
import Stencil.Proofs.Compile.Arguments

/-! A call matched against a mixin. Its arguments and its attributes are dealt out: each of them goes to one parameter or
to what is left over, in the order of the call. The attributes already given away are those of the parameters before. -/

namespace Stencil.Binding

variable {m : Mixin} {args : List Argument} {attributes : List Attribute} {used : List NodeId} {names : List Bytes}
  {runtime : Bool} {a : Attribute} {name : Bytes}

def bound (ps : List Parameter) : List Attribute := ps.filterMap (·.attr)

/-- The attributes that are still there once `used` are given away. -/
def unused (attributes : List Attribute) (used : List NodeId) : List Attribute :=
  attributes.filter fun a => !used.contains a.id

theorem mem_unused : a ∈ unused attributes used ↔ a ∈ attributes ∧ a.id ∉ used := by
  simp [unused]

theorem bindParams_arguments : (bindParams runtime attributes used args names).map (·.argument) =
    (args.take names.length).map some ++ List.replicate (names.length - args.length) none := by
  induction names generalizing used args with
  | nil => cases args <;> simp [bindParams]
  | cons name names ih =>
    cases args with
    | cons arg args =>
      rw [bindParams, List.map_cons, ih, List.length_cons, List.length_cons, List.take_succ_cons, List.map_cons,
        List.cons_append, Nat.add_sub_add_right]
    | nil =>
      have hrest (used : List NodeId) : (bindParams runtime attributes used [] names).map (·.argument) =
          List.replicate names.length none := by simpa using @ih [] used
      rw [bindParams]
      split
      all_goals
        rw [List.map_cons, hrest]
        rfl

theorem named?_eq_some (h : named? attributes used name = some a) :
    a ∈ unused attributes used ∧ a.staticName = some name := by
  have hmem := List.mem_of_find?_eq_some h
  have hname := List.find?_some h
  simp only [Bool.and_eq_true, beq_iff_eq, Bool.not_eq_true', List.contains_eq_mem, decide_eq_false_iff_not] at hname
  exact ⟨mem_unused.mpr ⟨hmem, hname.2⟩, hname.1⟩

theorem named?_eq_none (h : named? attributes used name = none) :
    ∀ a ∈ unused attributes used, a.staticName ≠ some name := by
  intro a ha hname
  obtain ⟨hmem, hused⟩ := mem_unused.mp ha
  have hfail := List.find?_eq_none.mp h a hmem
  simp [hname, hused] at hfail

/-- A parameter is bound to an attribute of its own name, and only if it has no argument. -/
theorem bindParams_attr {p : Parameter} (hp : p ∈ bindParams runtime attributes used args names) (ha : p.attr = some a) :
    runtime = false ∧ p.argument = none ∧ a.staticName = some p.name := by
  induction names generalizing used args with
  | nil => cases args <;> cases hp
  | cons name names ih =>
    cases args with
    | cons arg args =>
      rw [bindParams] at hp
      rcases List.mem_cons.mp hp with rfl | hp
      · cases ha
      · exact ih hp
    | nil =>
      rw [bindParams] at hp
      split at hp
      next b hb =>
        rcases List.mem_cons.mp hp with rfl | hp
        · cases runtime with
          | true => cases hb
          | false =>
            cases ha
            exact ⟨rfl, rfl, (named?_eq_some hb).2⟩
        · exact ih hp
      next =>
        rcases List.mem_cons.mp hp with rfl | hp
        · cases ha
        · exact ih hp

theorem unused_cons (hdistinct : (attributes.map (·.id)).Nodup) (ha : a ∈ unused attributes used) :
    (unused attributes used).Perm (a :: unused attributes (a.id :: used)) := by
  have hnodup : (unused attributes used).Nodup := hdistinct.of_map.filter _
  have herase : (unused attributes used).erase a = unused attributes (a.id :: used) := by
    rw [hnodup.erase_eq_filter, unused, List.filter_filter]
    refine List.filter_congr fun b hb => ?_
    have hid : b.id = a.id ↔ b = a :=
      ⟨fun h => List.inj_on_of_nodup_map hdistinct hb (mem_unused.mp ha).1 h, congrArg _⟩
    by_cases hba : b = a <;> simp [hid, hba]
  exact herase ▸ List.perm_cons_erase ha

/-- What was there is with the parameters or still there. -/
theorem bindParams_perm (hdistinct : (attributes.map (·.id)).Nodup) :
    (unused attributes used).Perm (bound (bindParams runtime attributes used args names) ++
      unused attributes ((bound (bindParams runtime attributes used args names)).map (·.id) ++ used)) := by
  induction names generalizing used args with
  | nil => cases args <;> exact .refl _
  | cons name names ih =>
    cases args with
    | cons arg args => exact ih
    | nil =>
      rw [bindParams]
      split
      next a ha =>
        have hmem : a ∈ unused attributes used := by
          cases runtime with
          | true => cases ha
          | false => exact (named?_eq_some ha).1
        have hbound (ps : List Parameter) : bound (⟨name, none, some a⟩ :: ps) = a :: bound ps := rfl
        have hsame (ids : List NodeId) : unused attributes (a.id :: (ids ++ used)) = unused attributes (ids ++ a.id :: used) := by
          refine List.filter_congr fun b _ => ?_
          simp only [List.contains_eq_mem, List.mem_cons, List.mem_append, or_left_comm]
        rw [hbound, List.map_cons, List.cons_append, List.cons_append, hsame]
        exact (unused_cons hdistinct hmem).trans (ih.cons a)
      next => exact ih

/-- A parameter is left without a value only if no attribute of its name is still there. -/
theorem bindParams_unbound (hruntime : runtime = false) {p : Parameter}
    (hp : p ∈ bindParams runtime attributes used args names) (hfree : p.isBound = false) :
    ∀ a ∈ unused attributes ((bound (bindParams runtime attributes used args names)).map (·.id) ++ used),
      a.staticName ≠ some p.name := by
  subst hruntime
  induction names generalizing used args with
  | nil => cases args <;> cases hp
  | cons name names ih =>
    cases args with
    | cons arg args =>
      rw [bindParams] at hp ⊢
      rcases List.mem_cons.mp hp with rfl | hp
      · cases hfree
      · exact ih hp
    | nil =>
      rw [bindParams] at hp ⊢
      split at hp
      next b hb =>
        rcases List.mem_cons.mp hp with rfl | hp
        · cases hfree
        · intro a ha
          obtain ⟨hmem, hout⟩ := mem_unused.mp ha
          refine ih hp a (mem_unused.mpr ⟨hmem, fun h => hout ?_⟩)
          have hbound (ps : List Parameter) : bound (⟨name, none, some b⟩ :: ps) = b :: bound ps := rfl
          simp only [hbound, List.map_cons, List.mem_append, List.mem_cons] at h ⊢
          tauto
      next hnone =>
        rcases List.mem_cons.mp hp with rfl | hp
        · intro a ha
          obtain ⟨hmem, hout⟩ := mem_unused.mp ha
          exact named?_eq_none hnone a (mem_unused.mpr ⟨hmem, fun h => hout (List.mem_append_right _ h)⟩)
        · exact ih hp

/-- The binding accounts for every argument and every attribute of the call. -/
structure Accounts (m : Mixin) (args : List Argument) (attributes : List Attribute) (b : Binding) : Prop where
  names : b.params.map (·.name) = m.params
  runtime : b.runtime = args.any (·.packed)
  /-- Without a packed argument, the arguments are those of the first parameters and then those left over. -/
  plain : (∀ arg ∈ args, arg.packed = false) →
    (b.params.take (min args.length m.params.length)).map (·.argument) ++ (b.rest ++ b.dropped).map some = args.map some ∧
      (∀ p ∈ b.params.drop (min args.length m.params.length), p.argument = none) ∧
      (m.variadic.isSome → b.dropped = []) ∧ (m.variadic = none → b.rest = [])
  /-- Of a call with a packed argument, only what stands before that argument is known. -/
  packed : ∀ before first after, args = before ++ first :: after → (∀ arg ∈ before, arg.packed = false) → first.packed →
    (b.params.take (min before.length m.params.length)).map (·.argument) = (before.take m.params.length).map some ∧
      (∀ p ∈ b.params.drop (min before.length m.params.length), p.argument = none) ∧
      (∀ p ∈ b.params, p.attr = none) ∧ b.rest = [] ∧ b.dropped = []
  /-- Each attribute is bound to one parameter, or it is one of those that bind to none. -/
  dealt : attributes.Perm (bound b.params ++ b.attributes)
  order : b.attributes.Sublist attributes
  named : ∀ p ∈ b.params, ∀ a, p.attr = some a → a.staticName = some p.name ∧ p.argument = none
  /-- A parameter stays without a value only if no attribute of its name is left. -/
  unbound : (∀ arg ∈ args, arg.packed = false) → ∀ p ∈ b.params, p.isBound = false →
    ∀ a ∈ b.attributes, a.staticName ≠ some p.name

theorem cut_arguments {ps : List Parameter} {n : Nat} (hps : ps.map (·.argument) =
    (args.take n).map some ++ List.replicate (n - args.length) none) :
    (ps.take (min args.length n)).map (·.argument) = (args.take n).map some ∧
      ∀ p ∈ ps.drop (min args.length n), p.argument = none := by
  have hlength : min args.length n = ((args.take n).map some).length := by simp [Nat.min_comm]
  refine ⟨by rw [List.map_take, hps, hlength, List.take_left], fun p hp => ?_⟩
  have hmem : p.argument ∈ (ps.drop (min args.length n)).map (·.argument) := List.mem_map_of_mem hp
  rw [List.map_drop, hps, hlength, List.drop_left] at hmem
  exact List.eq_of_mem_replicate hmem

theorem takeWhile_plain (h : ∀ arg ∈ args, arg.packed = false) : args.takeWhile (!·.packed) = args :=
  List.takeWhile_eq_self_iff.mpr fun arg harg => by simp [h arg harg]

theorem any_plain (h : ∀ arg ∈ args, arg.packed = false) : args.any (·.packed) = false :=
  List.any_eq_false.mpr fun arg harg => by simp [h arg harg]

/-- What no parameter takes is passed on or dropped, all of it. -/
theorem ofCall_leftover (m : Mixin) (args : List Argument) (attributes : List Attribute) :
    (ofCall m args attributes).rest ++ (ofCall m args attributes).dropped =
        (if args.any (·.packed) then [] else args.drop m.params.length) ∧
      (m.variadic.isSome → (ofCall m args attributes).dropped = []) ∧
      (m.variadic = none → (ofCall m args attributes).rest = []) := by
  simp only [ofCall]
  cases m.variadic <;> simp

/-- A call is bound without loss and without repetition, whatever names its attributes and the parameters share. -/
theorem ofCall_accounts (m : Mixin) (args : List Argument) (hdistinct : (attributes.map (·.id)).Nodup) :
    Accounts m args attributes (ofCall m args attributes) := by
  obtain ⟨hleftover, hdropped, hrest⟩ := ofCall_leftover m args attributes
  have harguments : (ofCall m args attributes).params.map (·.argument) =
      ((args.takeWhile (!·.packed)).take m.params.length).map some ++
        List.replicate (m.params.length - (args.takeWhile (!·.packed)).length) none := bindParams_arguments
  have hunused : (ofCall m args attributes).attributes =
      unused attributes ((bound (ofCall m args attributes).params).map (·.id) ++ []) := by
    rw [List.append_nil, bound, List.map_filterMap]
    rfl
  refine ⟨Expansion.bindParams_names .., rfl, fun h => ?_, fun before first after hargs hbefore hfirst => ?_, ?_,
    List.filter_sublist, fun p hp a ha => (bindParams_attr hp ha).2.symm, fun h p hp hfree => ?_⟩
  · rw [takeWhile_plain h] at harguments
    obtain ⟨htaken, hnone⟩ := cut_arguments harguments
    rw [any_plain h, if_neg Bool.false_ne_true] at hleftover
    refine ⟨?_, hnone, hdropped, hrest⟩
    rw [htaken, hleftover, ← List.map_append, List.take_append_drop]
  · have hany : args.any (·.packed) = true := List.any_eq_true.mpr ⟨first, by simp [hargs], hfirst⟩
    have htake : args.takeWhile (!·.packed) = before := by
      rw [hargs, List.takeWhile_append_of_pos fun arg harg => by simp [hbefore arg harg], List.takeWhile_cons,
        if_neg (by simp [hfirst]), List.append_nil]
    rw [htake] at harguments
    obtain ⟨htaken, hnone⟩ := cut_arguments harguments
    rw [if_pos hany] at hleftover
    refine ⟨htaken, hnone, fun p hp => ?_, List.append_eq_nil_iff.mp hleftover⟩
    cases hattr : p.attr with
    | none => rfl
    | some a =>
      have hruntime := (bindParams_attr hp hattr).1
      rw [hany] at hruntime
      cases hruntime
  · have hall : unused attributes [] = attributes := by simp [unused]
    rw [hunused]
    conv_lhs => rw [← hall]
    exact bindParams_perm hdistinct
  · rw [hunused]
    exact bindParams_unbound (any_plain h) hp hfree

/-- Two parameters and two attributes share a name, and an attribute has the name of a parameter with an argument. -/
theorem ofCall_accounts_shared :
    let card : Mixin := ⟨"card", ["a", "b", "b"], none⟩
    let args : List Argument := [⟨false, { source := "1", escape := false, checked := true }⟩]
    let attr (id : NodeId) (name : Bytes) : Attribute := ⟨id, name, none, .absent, none⟩
    let attributes := [attr 5 "a", attr 2 "b", attr 4 "c", attr 3 "b"]
    (attributes.map (·.id)).Nodup ∧
      (Binding.ofCall card args attributes).params.map (·.attr) = [none, some (attr 2 "b"), some (attr 3 "b")] ∧
      Accounts card args attributes (ofCall card args attributes) := by
  intro card args attr attributes
  have hdistinct : (attributes.map (·.id)).Nodup := by decide
  exact ⟨hdistinct, by decide, ofCall_accounts card args hdistinct⟩

end Stencil.Binding
