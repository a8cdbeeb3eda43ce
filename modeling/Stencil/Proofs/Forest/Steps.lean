import Stencil.Proofs.Forest.Growth

/-! Runs of changes. A step makes a node or changes links; a run of steps on children keeps a consistent forest
consistent after every step, and each of its steps is refused just if it would hang a node below itself. -/

namespace Stencil.Forest

/-- One change of a forest. -/
inductive Step where
  | make (content : Content) (children : List NodeId)
  | makeAssignment (name : Bytes) (expressions : List NodeId)
  | makeMixin (name : Bytes) (params : List Bytes) (body : List NodeId)
  | makeDynamicMarkup (nameExpr : NodeId) (children : List NodeId)
  | makeAttribute (name : Bytes) (value : Option NodeId)
  | makeDynamicAttribute (nameExpr : NodeId) (value : Option NodeId)
  | makeBinding (name : Bytes) (value : Option NodeId)
  | makeCall (name : Bytes) (args : List Argument)
  | append (parent : NodeId) (children : List NodeId)
  | insert (parent : NodeId) (index : Int) (child : NodeId)
  | remove (parent child : NodeId)
  | removeAll (parent : NodeId)
  | replace (parent old new : NodeId)
  | addAttributes (owner : NodeId) (attributes : List NodeId)
  | setAttributes (owner : NodeId) (attributes : List NodeId)
  | addAssignments (owner : NodeId) (assignments : List NodeId)
  | setAssignments (owner : NodeId) (assignments : List NodeId)

namespace Step

/-- The forest after a step; a refused step leaves what it had done. -/
def run (f : Forest) : Step → Forest
  | make content children => (f.makeWith content children).1
  | makeAssignment name expressions => (f.makeAssignment name expressions).1
  | makeMixin name params body => ((f.makeMixin name params body).toOption.map (·.1)).getD f
  | makeDynamicMarkup nameExpr children => (f.makeDynamicMarkup nameExpr children).1
  | makeAttribute name value => (f.makeAttribute name value).1
  | makeDynamicAttribute nameExpr value => (f.makeDynamicAttribute nameExpr value).1
  | makeBinding name value => (f.makeBinding name value).1
  | makeCall name args => (f.makeCallWith name args).1
  | append parent children => (f.appendChildren parent children).1
  | insert parent index child => (f.insertChild parent index child).toOption.getD f
  | remove parent child => (f.removeChild parent child).1
  | removeAll parent => f.removeAllChildren parent
  | replace parent old new => (f.replaceChild parent old new).1
  | addAttributes owner attributes => f.addAttributes owner attributes
  | setAttributes owner attributes => f.setAttributes owner attributes
  | addAssignments owner assignments => f.addAssignments owner assignments
  | setAssignments owner assignments => f.setAssignments owner assignments

def nodes : Step → List NodeId
  | make _ children => children
  | makeAssignment _ expressions => expressions
  | makeMixin _ _ body => body
  | makeDynamicMarkup nameExpr children => nameExpr :: children
  | makeAttribute _ value => value.toList
  | makeDynamicAttribute nameExpr value => nameExpr :: value.toList
  | makeBinding _ value => value.toList
  | makeCall _ args => args.map (·.expression)
  | append parent children => parent :: children
  | insert parent _ child => [parent, child]
  | remove parent child => [parent, child]
  | removeAll parent => [parent]
  | replace parent old new => [parent, old, new]
  | addAttributes owner attributes => owner :: attributes
  | setAttributes owner attributes => owner :: attributes
  | addAssignments owner assignments => owner :: assignments
  | setAssignments owner assignments => owner :: assignments

/-- The steps that link nodes through child lists alone. A node does not replace itself. -/
def OnChildren : Step → Prop
  | make .. | makeAssignment .. | makeMixin .. | append .. | insert .. | remove .. | removeAll .. => True
  | replace _ old new => old ≠ new
  | _ => False

end Step

/-- The forests before, between and after the steps. -/
def trace (f : Forest) : List Step → List Forest
  | [] => [f]
  | step :: steps => f :: trace (step.run f) steps

def Possible (f : Forest) : List Step → Prop
  | [] => True
  | step :: steps => (∀ id ∈ step.nodes, id < f.size) ∧ Possible (step.run f) steps

variable {f g : Forest} {c p : NodeId}

namespace Consistent

variable (hf : f.Consistent)
include hf

theorem makeWith_eq (content : Content) {children : List NodeId} (hvalid : ∀ c ∈ children, c < f.size) :
    ∃ g, (f.make content).1.appendChildren f.size children = (g, none) ∧ g.Consistent := by
  have hroot : (f.make content).1.parent f.size = none := by
    rw [parent_make]
    exact parent_size f
  have hfree : ∀ c ∈ children, c < (f.make content).1.size ∧ ¬ (f.make content).1.Above c f.size := by
    intro c hc
    rw [size_make, above_of_parent_none hroot]
    exact ⟨Nat.lt_succ_of_lt (hvalid c hc), Nat.ne_of_lt (hvalid c hc)⟩
  obtain ⟨g, hg, hcons, -⟩ := (hf.make content).appendChildren_eq (by rw [size_make]; exact Nat.lt_succ_self _) hfree
  exact ⟨g, hg, hcons⟩

protected theorem makeWith (content : Content) {children : List NodeId} (hvalid : ∀ c ∈ children, c < f.size) :
    (f.makeWith content children).1.Consistent := by
  obtain ⟨g, hg, hcons⟩ := hf.makeWith_eq content hvalid
  have hmake : (f.makeWith content children).1 = g := congrArg Prod.fst hg
  rw [hmake]
  exact hcons

end Consistent

/-- Appending one by one does not stop, so it does what appending does that does not have to. -/
theorem foldl_appendChild {cs : List NodeId} (h : f.appendChildren p cs = (g, none)) :
    cs.foldl (fun f c => (f.appendChild p c).toOption.getD f) f = g := by
  induction cs generalizing f with
  | nil =>
    cases h
    rfl
  | cons c cs ih =>
    rw [appendChildren] at h
    rw [List.foldl_cons]
    cases hc : f.appendChild p c with
    | ok k =>
      rw [hc] at h
      exact ih h
    | error e =>
      rw [hc] at h
      cases h

theorem Consistent.step (hf : f.Consistent) {step : Step} (hchild : step.OnChildren)
    (hvalid : ∀ id ∈ step.nodes, id < f.size) : (step.run f).Consistent := by
  cases step with
  | make content children => exact hf.makeWith content hvalid
  | makeAssignment name expressions =>
    obtain ⟨g, hg, hcons⟩ := hf.makeWith_eq (.assignment name) hvalid
    have hmake : (Step.makeAssignment name expressions).run f = g := foldl_appendChild hg
    rw [hmake]
    exact hcons
  | makeMixin name params body =>
    rw [Step.run, makeMixin]
    cases readParams name params with
    | error e => exact hf
    | ok params => exact hf.makeWith _ hvalid
  | append parent children =>
    obtain ⟨hp, hcs⟩ := List.forall_mem_cons.mp hvalid
    obtain ⟨g, before, hcons, -, -, ⟨-, hg⟩ | ⟨_, _, -, -, hg⟩⟩ := hf.appendChildren_cases hp hcs
    · rw [Step.run, hg]
      exact hcons
    · rw [Step.run, hg]
      exact hcons
  | insert parent index child =>
    rw [Step.run, insertChild_eq]
    split
    next => exact hf
    next habove =>
      rw [hf.acyclic.isAncestor_iff] at habove
      exact hf.put (hvalid child (by simp [Step.nodes])) (hvalid parent (by simp [Step.nodes])) habove (place_le ..)
  | remove parent child => exact hf.removeChild parent child
  | removeAll parent => exact hf.removeAllChildren (hvalid parent (by simp [Step.nodes]))
  | replace parent old new =>
    rw [Step.run]
    by_cases hold : old ∈ f.children parent
    · obtain ⟨hrun, -⟩ | ⟨habove, i, hi, hrun⟩ := hf.orderly.replaceChild_eq hold hchild
      · rw [hrun]
        exact hf
      · rw [hrun]
        exact hf.swap (hvalid new (by simp [Step.nodes])) hchild habove hi
    · rw [replaceChild_of_not_mem hold]
      exact hf
  | _ => exact hchild.elim

/-- A run of steps on children keeps a consistent forest consistent. -/
theorem Consistent.trace (hf : f.Consistent) {steps : List Step} (hchild : ∀ s ∈ steps, s.OnChildren)
    (hpossible : f.Possible steps) : ∀ g ∈ f.trace steps, g.Consistent := by
  induction steps generalizing f with
  | nil =>
    intro g hg
    rw [List.mem_singleton.mp hg]
    exact hf
  | cons step steps ih =>
    obtain ⟨hstep, hchild⟩ := List.forall_mem_cons.mp hchild
    obtain ⟨hvalid, hpossible⟩ := hpossible
    intro g hg
    rcases List.mem_cons.mp hg with rfl | hg
    · exact hf
    · exact ih (hf.step hstep hvalid) hchild hpossible g hg

section Refused

variable (hf : f.Consistent)
include hf

theorem Consistent.insert_refused {index : Int} (habove : f.Above c p) : (Step.insert p index c).run f = f := by
  have herror := (hf.insertChild_eq_error_iff p index c .cycle).mpr ⟨rfl, habove⟩
  rw [Step.run, herror]
  rfl

/-- A child is replaced, or nothing changes because its replacement would come to stand below itself. -/
theorem Consistent.replaceChild_cases {old new : NodeId} (hold : old ∈ f.children p) (hne : old ≠ new) :
    f.Above new p ∧ f.replaceChild p old new = (f, .refused .cycle) ∨
      ¬ f.Above new p ∧ (f.replaceChild p old new).2 = .done := by
  obtain ⟨hrun, habove⟩ | ⟨habove, i, -, hrun⟩ := hf.orderly.replaceChild_eq hold hne
  · exact .inl ⟨habove, hrun⟩
  · exact .inr ⟨habove, by rw [hrun]⟩

end Refused

end Stencil.Forest
