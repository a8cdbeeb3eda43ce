import Stencil.Forest.Snapshot
import Stencil.Proofs.Forest.Steps

/-! Cycles. Among all steps only those that hand a tag or a call an attribute or an assignment can make a node its own
ancestor, and they do so just if what they hand over stands above the owner: children are looked at before they are put
in, and what a new node takes cannot stand above it, but nothing looks at attributes and assignments. A run leaves all
walks to the root finite just if none of its steps does that. -/

namespace Stencil.Forest

open Relation (TransGen ReflTransGen)

variable {f g : Forest} {a c p x id owner : NodeId} {S : List NodeId}

theorem climb_ancestorsFrom (f : Forest) (n : Nat) (id : NodeId) :
    (f.ancestorsFrom n id).length = n ∨ f.climb ((f.ancestorsFrom n id).length + 1) id = none := by
  induction n generalizing id with
  | zero => exact .inl rfl
  | succ n ih =>
    rw [ancestorsFrom, climb]
    cases hp : f.parent id with
    | none => exact .inr rfl
    | some p =>
      rcases ih p with h | h
      · exact .inl (by rw [List.length_cons, h])
      · exact .inr h

/-- Without a cycle the walk to the root ends after the links that the depth counts. -/
theorem acyclic_iff_walks_end : f.Acyclic ↔ ∀ id, f.climb (f.depth id + 1) id = none := by
  constructor
  · intro hf id
    rcases climb_ancestorsFrom f f.size id with h | h
    · rw [depth, ancestors, h]
      exact hf.climb_eq_none id
    · exact h
  · intro h id hcycle
    have hsome := climb_isSome_of_cycle hcycle (f.depth id + 1)
    rw [h id] at hsome
    cases hsome

namespace Acyclic

variable (hf : f.Acyclic)
include hf

protected theorem make (content : Content) : (f.make content).1.Acyclic :=
  hf.of_cut fun x => .inr (parent_make f content x)

protected theorem insertChild {index : Int} (hc : c < f.size) (hrun : f.insertChild p index c = .ok g) :
    g.Acyclic ∧ g.size = f.size := by
  rw [insertChild_eq] at hrun
  split at hrun
  next => cases hrun
  next habove =>
    cases hrun
    rw [hf.isAncestor_iff] at habove
    exact ⟨(acyclic_hang_iff (parent_put hc p _) hf).mpr (by simpa using habove), size_put ..⟩

protected theorem appendChildren {cs : List NodeId} (hcs : ∀ c ∈ cs, c < f.size) :
    (f.appendChildren p cs).1.Acyclic := by
  induction cs generalizing f with
  | nil => exact hf
  | cons c cs ih =>
    obtain ⟨hc, hcs⟩ := List.forall_mem_cons.mp hcs
    rw [appendChildren]
    cases hrun : f.appendChild p c with
    | error e => exact hf
    | ok g =>
      obtain ⟨hg, hsize⟩ := hf.insertChild hc hrun
      exact ih hg (hsize ▸ hcs)

theorem foldl_appendChild {cs : List NodeId} (hcs : ∀ c ∈ cs, c < f.size) :
    (cs.foldl (fun f c => (f.appendChild p c).toOption.getD f) f).Acyclic := by
  induction cs generalizing f with
  | nil => exact hf
  | cons c cs ih =>
    obtain ⟨hc, hcs⟩ := List.forall_mem_cons.mp hcs
    rw [List.foldl_cons]
    cases hrun : f.appendChild p c with
    | error e => exact ih hf hcs
    | ok g =>
      obtain ⟨hg, hsize⟩ := hf.insertChild hc hrun
      exact ih hg (hsize ▸ hcs)

protected theorem replaceChild {old new : NodeId} (hnew : new < f.size) : (f.replaceChild p old new).1.Acyclic := by
  by_cases hold : old ∈ f.children p
  · rw [replaceChild_of_mem hold]
    split
    next => exact hf
    next habove =>
      rw [hf.isAncestor_iff] at habove
      split
      next => exact hf.of_cut (parent_detach_cut f new)
      next i _ =>
        have hcut : ∀ x, (f.setParent old none).parent x = none ∨ (f.setParent old none).parent x = f.parent x := by
          intro x
          rw [parent_setParent_none]
          split
          · exact .inl rfl
          · exact .inr rfl
        refine (acyclic_hang_iff (parent_swap hnew p i old) (hf.of_cut hcut)).mpr fun s hs hs' => ?_
        rw [List.mem_singleton.mp hs] at hs'
        exact habove (above_of_cut hcut hs')
  · rw [replaceChild_of_not_mem hold]
    exact hf

/-- What a new node takes does not stand above it. -/
theorem take (content : Content) (hS : ∀ s ∈ S, s < f.size) :
    ((f.make content).1.relink S (some f.size)).Acyclic := by
  have hvalid : ∀ s ∈ S, s < (f.make content).1.size := fun s hs => by
    rw [size_make]
    exact Nat.lt_succ_of_lt (hS s hs)
  refine (acyclic_hang_iff (parent_relink hvalid (some f.size)) (hf.make content)).mpr fun s hs habove => ?_
  rw [above_of_parent_none (by rw [parent_make]; exact parent_size f)] at habove
  exact Nat.ne_of_lt (hS s hs) habove

end Acyclic

theorem above_congr (h : ∀ x, g.parent x = f.parent x) : g.Above a id ↔ f.Above a id :=
  ⟨above_of_cut fun x => .inr (h x), above_of_cut fun x => .inr (h x).symm⟩

theorem bundle?_congr (h : g.content? p = f.content? p) : g.bundle? p = f.bundle? p := by
  rw [bundle?, h, bundle?]

theorem isSome_bundle?_setBundle (f : Forest) (owner : NodeId) (b : Bundle) :
    ((f.setBundle owner b).bundle? owner).isSome = (f.bundle? owner).isSome := by
  rw [bundle?, content?_setBundle, if_pos rfl, bundle?]
  cases f.content? owner with
  | none => rfl
  | some content => cases content <;> rfl

def Adds (add : Forest → NodeId → NodeId → Forest) : Prop :=
  ∀ f owner a, f.bundle? owner = none ∧ add f owner a = f ∨
    (f.bundle? owner).isSome ∧ ∃ b, add f owner a = (f.setParent a (some owner)).setBundle owner b

theorem adds_addAttribute : Adds addAttribute := by
  intro f owner a
  rw [addAttribute]
  cases hb : f.bundle? owner with
  | none => exact .inl ⟨rfl, rfl⟩
  | some b => exact .inr ⟨rfl, _, rfl⟩

theorem adds_addAssignment : Adds addAssignment := by
  intro f owner a
  rw [addAssignment]
  cases hb : f.bundle? owner with
  | none => exact .inl ⟨rfl, rfl⟩
  | some b => exact .inr ⟨rfl, _, rfl⟩

section Adds

variable {add : Forest → NodeId → NodeId → Forest} (hadd : Adds add)
include hadd

theorem parent_foldl_add (hb : (f.bundle? owner).isSome) (hS : ∀ s ∈ S, s < f.size) (x : NodeId) :
    (S.foldl (fun f a => add f owner a) f).parent x = if x ∈ S then some owner else f.parent x := by
  induction S generalizing f with
  | nil => simp
  | cons s S ih =>
    obtain ⟨hs, hS⟩ := List.forall_mem_cons.mp hS
    obtain ⟨hnone, -⟩ | ⟨-, b, heq⟩ := hadd f owner s
    · rw [hnone] at hb
      cases hb
    · have hb' : ((add f owner s).bundle? owner).isSome := by
        rw [heq, isSome_bundle?_setBundle, bundle?_congr (content?_setParent ..)]
        exact hb
      have hsize : (add f owner s).size = f.size := by rw [heq, size_setBundle, size_setParent]
      rw [List.foldl_cons, ih hb' (hsize ▸ hS), heq, parent_setBundle, parent_setParent _ hs]
      by_cases hx : x ∈ S <;> by_cases hxs : x = s <;> simp [hx, hxs]

theorem foldl_add_of_none (hb : f.bundle? owner = none) : S.foldl (fun f a => add f owner a) f = f := by
  induction S with
  | nil => rfl
  | cons s S ih =>
    obtain ⟨-, heq⟩ | ⟨hsome, -⟩ := hadd f owner s
    · rw [List.foldl_cons, heq, ih]
    · rw [hb] at hsome
      cases hsome

/-- Adding to a bundle closes a cycle just if something added stands above the owner. -/
theorem acyclic_foldl_add_iff (hf : f.Acyclic) (hS : ∀ s ∈ S, s < f.size) :
    (S.foldl (fun f a => add f owner a) f).Acyclic ↔ ¬ ((f.bundle? owner).isSome ∧ ∃ s ∈ S, f.Above s owner) := by
  cases hb : f.bundle? owner with
  | none => simpa [foldl_add_of_none hadd hb] using hf
  | some b =>
    rw [acyclic_hang_iff (parent_foldl_add hadd (by rw [hb]; rfl) hS) hf]
    simp

/-- Setting what a bundle holds first takes the parents of what it held. -/
theorem acyclic_set_iff (hf : f.Acyclic) (hS : ∀ s ∈ S, s < f.size) {b : Bundle} (hb : f.bundle? owner = some b)
    (held : Bundle → List NodeId) (b' : Bundle) :
    (S.foldl (fun f a => add f owner a) ((f.relink (held b) none).setBundle owner b')).Acyclic ↔
      ¬ ∃ b, f.bundle? owner = some b ∧ ∃ s ∈ S, (f.relink (held b) none).Above s owner := by
  have hcut : ∀ x, (f.relink (held b) none).parent x = none ∨ (f.relink (held b) none).parent x = f.parent x := by
    intro x
    rw [parent_relink_none]
    split
    · exact .inl rfl
    · exact .inr rfl
  have hparent : ∀ x, ((f.relink (held b) none).setBundle owner b').parent x = (f.relink (held b) none).parent x :=
    fun x => parent_setBundle ..
  have hsome : (((f.relink (held b) none).setBundle owner b').bundle? owner).isSome := by
    rw [isSome_bundle?_setBundle, bundle?_congr (content?_relink ..), hb]
    rfl
  rw [acyclic_foldl_add_iff hadd ((hf.of_cut hcut).of_cut fun x => .inr (hparent x)) (by simpa using hS)]
  simp [hsome, hb, above_congr hparent]

end Adds

/-- What a step puts into a bundle stands above the owner. -/
def Step.Closes (f : Forest) : Step → Prop
  | addAttributes owner new | addAssignments owner new => (f.bundle? owner).isSome ∧ ∃ a ∈ new, f.Above a owner
  | setAttributes owner new =>
    ∃ b, f.bundle? owner = some b ∧ ∃ a ∈ new, (f.relink b.attributes none).Above a owner
  | setAssignments owner new =>
    ∃ b, f.bundle? owner = some b ∧ ∃ a ∈ new, (f.relink b.assignments none).Above a owner
  | _ => False

/-- No step of the run closes a cycle. -/
def Careful (f : Forest) : List Step → Prop
  | [] => True
  | step :: steps => ¬ step.Closes f ∧ Careful (step.run f) steps

theorem Acyclic.step_iff (hf : f.Acyclic) {step : Step} (hvalid : ∀ id ∈ step.nodes, id < f.size) :
    (step.run f).Acyclic ↔ ¬ step.Closes f := by
  have hmake : ∀ content : Content, ∀ c < f.size, c < (f.make content).1.size := fun content c hc => by
    rw [size_make]
    exact Nat.lt_succ_of_lt hc
  cases step with
  | addAttributes owner new => exact acyclic_foldl_add_iff adds_addAttribute hf (List.forall_mem_cons.mp hvalid).2
  | addAssignments owner new => exact acyclic_foldl_add_iff adds_addAssignment hf (List.forall_mem_cons.mp hvalid).2
  | setAttributes owner new =>
    rw [Step.run, setAttributes]
    cases hb : f.bundle? owner with
    | none => simpa [Step.Closes, hb] using hf
    | some b => exact acyclic_set_iff adds_addAttribute hf (List.forall_mem_cons.mp hvalid).2 hb Bundle.attributes _
  | setAssignments owner new =>
    rw [Step.run, setAssignments]
    cases hb : f.bundle? owner with
    | none => simpa [Step.Closes, hb] using hf
    | some b => exact acyclic_set_iff adds_addAssignment hf (List.forall_mem_cons.mp hvalid).2 hb Bundle.assignments _
  | make content children =>
    refine iff_of_true ?_ not_false
    exact (hf.make content).appendChildren fun c hc => hmake content c (hvalid c hc)
  | makeAssignment name expressions =>
    refine iff_of_true ?_ not_false
    exact (hf.make _).foldl_appendChild fun c hc => hmake _ c (hvalid c hc)
  | makeMixin name params body =>
    refine iff_of_true ?_ not_false
    rw [Step.run, makeMixin]
    cases readParams name params with
    | error e => exact hf
    | ok params => exact (hf.make _).appendChildren fun c hc => hmake _ c (hvalid c hc)
  | makeDynamicMarkup nameExpr children =>
    refine iff_of_true ?_ not_false
    obtain ⟨hname, hvalid⟩ := List.forall_mem_cons.mp hvalid
    refine (hf.take (S := [nameExpr]) (.markup { nameExpr := some nameExpr }) (by simpa using hname)).appendChildren ?_
    intro c hc
    rw [size_relink]
    exact hmake _ c (hvalid c hc)
  | makeAttribute name value =>
    refine iff_of_true ?_ not_false
    cases value with
    | none => exact hf.take (S := []) _ hvalid
    | some v => exact hf.take (S := [v]) _ hvalid
  | makeDynamicAttribute nameExpr value =>
    refine iff_of_true ?_ not_false
    cases value with
    | none => exact hf.take (S := [nameExpr]) _ hvalid
    | some v => exact hf.take (S := [v, nameExpr]) _ (by simpa [Step.nodes, and_comm] using hvalid)
  | makeBinding name value =>
    refine iff_of_true ?_ not_false
    cases value with
    | none => exact hf.take (S := []) _ hvalid
    | some v => exact hf.take (S := [v]) _ hvalid
  | makeCall name args =>
    refine iff_of_true ?_ not_false
    have htake := hf.take (.call { name, args }) hvalid
    rw [Step.nodes, relink, List.foldl_map] at htake
    exact htake
  | append parent children =>
    refine iff_of_true ?_ not_false
    exact hf.appendChildren (List.forall_mem_cons.mp hvalid).2
  | insert parent index child =>
    refine iff_of_true ?_ not_false
    rw [Step.run]
    cases hrun : f.insertChild parent index child with
    | error e => exact hf
    | ok g => exact (hf.insertChild (hvalid child (by simp [Step.nodes])) hrun).1
  | remove parent child => exact iff_of_true (hf.of_cut (parent_removeChild_cut f parent child)) not_false
  | removeAll parent => exact iff_of_true (hf.of_cut (parent_removeAllChildren_cut f parent)) not_false
  | replace parent old new => exact iff_of_true (hf.replaceChild (hvalid new (by simp [Step.nodes]))) not_false

theorem Acyclic.trace_iff (hf : f.Acyclic) {steps : List Step} (hpossible : f.Possible steps) :
    (∀ g ∈ f.trace steps, g.Acyclic) ↔ f.Careful steps := by
  induction steps generalizing f with
  | nil => simpa [trace, Careful] using hf
  | cons step steps ih =>
    obtain ⟨hvalid, hpossible⟩ := hpossible
    rw [trace, Careful, ← hf.step_iff hvalid, List.forall_mem_cons]
    constructor
    · rintro ⟨-, hrest⟩
      have hstep : (step.run f).Acyclic := hrest _ (by cases steps <;> simp [trace])
      exact ⟨hstep, (ih hstep hpossible).mp hrest⟩
    · rintro ⟨hstep, hcareful⟩
      exact ⟨hf, (ih hstep hpossible).mpr hcareful⟩

/-- Along a run no node becomes its own ancestor, and every walk to the root ends after the links its depth counts, just
if no step puts an attribute or an assignment into the bundle of a node it stands above. -/
theorem walks_end_iff_careful (hf : f.Acyclic) {steps : List Step} (hpossible : f.Possible steps) :
    ((∀ g ∈ f.trace steps, ∀ id, ¬ TransGen g.Up id id) ↔ f.Careful steps) ∧
      ((∀ g ∈ f.trace steps, ∀ id, g.climb (g.depth id + 1) id = none) ↔ f.Careful steps) := by
  have htrace := hf.trace_iff hpossible
  refine ⟨htrace, ?_⟩
  simp only [← acyclic_iff_walks_end]
  exact htrace

/-- A tag below the value of an attribute does not keep the attribute from another tag. -/
theorem walks_end_iff_careful_other_owner :
    let steps : List Step := [.make (.markup { name := "a" }) [], .make (.expression { source := "$x" }) [],
      .append 1 [0], .makeAttribute "href" (some 1), .make (.markup { name := "p" }) [], .addAttributes 3 [2]]
    Possible .empty steps ∧ Careful .empty steps ∧ ∀ g ∈ trace .empty steps, ∀ id, g.climb (g.depth id + 1) id = none := by
  intro steps
  have hpossible : Possible .empty steps := by
    simp only [steps, Possible]
    decide
  have hcareful : Careful .empty steps := by
    simp only [steps, Careful, Step.Closes, not_false_iff, true_and, and_true, List.mem_singleton, exists_eq_left]
    rintro ⟨-, habove⟩
    rw [above_of_parent_none (by decide)] at habove
    cases habove
  exact ⟨hpossible, hcareful, (walks_end_iff_careful acyclic_empty hpossible).2.mpr hcareful⟩

/-- The same tag as the owner of the attribute is its own ancestor, and no walk from it ends. -/
theorem attribute_above_its_owner :
    let steps : List Step := [.make (.markup { name := "a" }) [], .make (.expression { source := "$x" }) [],
      .append 1 [0], .makeAttribute "href" (some 1), .addAttributes 0 [2]]
    let last := steps.foldl Step.run .empty
    Possible .empty steps ∧ last ∈ trace .empty steps ∧ TransGen last.Up 0 0 ∧ ∀ n, (last.climb n 0).isSome := by
  intro steps last
  have hpossible : Possible .empty steps := by
    simp only [steps, Possible]
    decide
  have hmem : last ∈ trace .empty steps := by
    simp only [steps, trace]
    decide
  have hround : last.climb 3 0 = some 0 := by decide
  have hcycle : TransGen last.Up 0 0 := trans_of_climb hround
  exact ⟨hpossible, hmem, hcycle, climb_isSome_of_cycle hcycle⟩

end Stencil.Forest
