import Stencil.Wire.Build
import Stencil.Proofs.Forest.Consistency
import Stencil.Proofs.Success

/-! Grown trees. A tree is grown from its wire form by making nodes and hanging them below new ones, so that every link
goes to a child or to a node the content names: a computed name, a value, an argument, an attribute, an assignment. -/

namespace Stencil.Forest

variable {f g h : Forest} {c p x id owner : NodeId} {R S : List NodeId}

/-- The nodes that hang below a node for its content and not as children. -/
def Content.owned : Content → List NodeId
  | .markup t => t.nameExpr.toList ++ (t.bundle.attributes ++ t.bundle.assignments)
  | .attr a => a.nameExpr.toList ++ a.value.toList
  | .call c => c.args.map (·.expression) ++ (c.bundle.attributes ++ c.bundle.assignments)
  | .binding _ value => value.toList
  | _ => []

def owned (f : Forest) (p : NodeId) : List NodeId := ((f.content? p).map Content.owned).getD []

def below (f : Forest) (p : NodeId) : List NodeId := f.children p ++ f.owned p

/-- All links go through the child lists and the contents. -/
def Planted (f : Forest) : Prop := f.Linked f.below

theorem planted_empty : Planted .empty := consistent_empty.congr (fun _ => rfl) fun _ => rfl

theorem Planted.mem_children_iff (hf : f.Planted) (p c : NodeId) :
    c ∈ f.children p ↔ f.parent c = some p ∧ c ∉ f.owned p := by
  have hmem := hf.mem_below p c
  have hdisjoint := (List.nodup_append'.mp (hf.nodup p)).2.2
  rw [below, List.mem_append] at hmem
  rw [← hmem]
  constructor
  · intro hc
    exact ⟨.inl hc, hdisjoint hc⟩
  · rintro ⟨hc | hc, hnot⟩
    · exact hc
    · exact absurd hc hnot

theorem Planted.nodup_children (hf : f.Planted) (p : NodeId) : (f.children p).Nodup :=
  (List.nodup_append'.mp (hf.nodup p)).1

theorem parent_own (content : Content) (hS : ∀ s ∈ S, s < f.size) (x : NodeId) :
    ((f.make content).1.relink S (some f.size)).parent x = if x ∈ S then some f.size else f.parent x := by
  rw [parent_relink, parent_make]
  intro s hs
  rw [size_make]
  exact Nat.lt_succ_of_lt (hS s hs)

theorem Planted.own (hf : f.Planted) {content : Content} (hS : S.Nodup) (hroot : ∀ s ∈ S, f.parent s = none)
    (hlt : ∀ s ∈ S, s < f.size) (howned : content.owned.Perm S) :
    ((f.make content).1.relink S (some f.size)).Planted := by
  refine hf.hang hS hroot ?_ (parent_own content hlt) ?_ ?_
  · intro s hs habove
    rw [above_of_parent_none (parent_size f)] at habove
    exact Nat.ne_of_lt (hlt s hs) habove
  · have hnone : f.below f.size = [] := by
      rw [below, children_size, owned, content?, get?_size]
      rfl
    rw [hnone, List.append_nil, below, children_relink, children_make, children_size, owned, content?_relink, content?,
      get?_make, if_pos rfl]
    exact howned
  · intro q hq
    rw [below, children_relink, children_make, below, owned, content?_relink, content?, get?_make, if_neg hq]
    rfl

/-- `g` has the nodes of `f` as they were, and among its new nodes those of `S`, which have no parent. -/
structure Seeds (f g : Forest) (S : List NodeId) : Prop where
  planted : g.Planted
  size_le : f.size ≤ g.size
  nodup : S.Nodup
  fresh : ∀ s ∈ S, f.size ≤ s ∧ s < g.size
  root : ∀ s ∈ S, g.parent s = none
  frame : ∀ x < f.size, g.get? x = f.get? x

namespace Seeds

theorem refl (hf : f.Planted) : f.Seeds f [] where
  planted := hf
  size_le := Nat.le_refl _
  nodup := List.nodup_nil
  fresh := nofun
  root := nofun
  frame _ _ := rfl

/-- Seeds may be forgotten, and taken in another order. -/
theorem mono (hg : f.Seeds g S) (hR : R.Nodup) (hsub : R ⊆ S) : f.Seeds g R where
  planted := hg.planted
  size_le := hg.size_le
  nodup := hR
  fresh s hs := hg.fresh s (hsub hs)
  root s hs := hg.root s (hsub hs)
  frame := hg.frame

/-- What grows later leaves the seeds sown before as they are. -/
theorem trans (hg : f.Seeds g R) (hh : g.Seeds h S) : f.Seeds h (R ++ S) where
  planted := hh.planted
  size_le := hg.size_le.trans hh.size_le
  nodup := by
    refine hg.nodup.append hh.nodup fun s hR hS => ?_
    have hlt := (hg.fresh s hR).2
    have hle := (hh.fresh s hS).1
    lia
  fresh s hs := by
    rcases List.mem_append.mp hs with hs | hs
    · have := hg.fresh s hs
      have := hh.size_le
      lia
    · have := hh.fresh s hs
      have := hg.size_le
      lia
  root s hs := by
    rcases List.mem_append.mp hs with hs | hs
    · rw [parent, hh.frame s (hg.fresh s hs).2]
      exact hg.root s hs
    · exact hh.root s hs
  frame x hx := by
    have := hg.size_le
    rw [hh.frame x (by lia), hg.frame x hx]

theorem own (hg : f.Seeds g (R ++ S)) (content : Content) (howned : content.owned.Perm S) :
    f.Seeds ((g.make content).1.relink S (some g.size)) (R ++ [g.size]) := by
  obtain ⟨hR, hS, hdisjoint⟩ := List.nodup_append'.mp hg.nodup
  have hlt : ∀ s ∈ R ++ S, s < g.size := fun s hs => (hg.fresh s hs).2
  have hltS : ∀ s ∈ S, s < g.size := fun s hs => hlt s (List.mem_append_right R hs)
  refine ⟨?_, ?_, ?_, ?_, ?_, ?_⟩
  · exact hg.planted.own hS (fun s hs => hg.root s (List.mem_append_right R hs)) hltS howned
  · rw [size_relink, size_make]
    have := hg.size_le
    lia
  · refine List.nodup_append'.mpr ⟨hR, List.nodup_singleton _, fun s hs hm => ?_⟩
    have := hlt s (List.mem_append_left S hs)
    have := List.mem_singleton.mp hm
    lia
  · intro s hs
    rw [size_relink, size_make]
    rcases List.mem_append.mp hs with hs | hs
    · have := hg.fresh s (List.mem_append_left S hs)
      lia
    · have := List.mem_singleton.mp hs
      have := hg.size_le
      lia
  · intro s hs
    rw [parent_own content hltS]
    rcases List.mem_append.mp hs with hs | hs
    · rw [if_neg (hdisjoint hs)]
      exact hg.root s (List.mem_append_left S hs)
    · rw [List.mem_singleton.mp hs, if_neg fun hs => Nat.lt_irrefl _ (hltS _ hs)]
      exact parent_size g
  · intro x hx
    have hxS : x ∉ S := fun hs => by
      have := (hg.fresh x (List.mem_append_right R hs)).1
      lia
    have := hg.size_le
    rw [get?_relink, if_neg hxS, get?_make, if_neg (by lia)]
    exact hg.frame x hx

theorem make (hg : f.Seeds g R) (content : Content) (howned : content.owned = []) :
    f.Seeds (g.make content).1 (R ++ [g.size]) := by
  rw [← List.append_nil R] at hg
  exact hg.own content (by rw [howned])

theorem hang (hg : f.Seeds g (R ++ [p, c])) (hsize : h.size = g.size)
    (hparent : ∀ x, h.parent x = if x ∈ [c] then some p else g.parent x)
    (hp : (h.below p).Perm (c :: g.below p)) (hbelow : ∀ q, q ≠ p → h.below q = g.below q)
    (hget : ∀ x, x ≠ p → x ≠ c → h.get? x = g.get? x) :
    f.Seeds h (R ++ [p]) := by
  have hsub : R ++ [p] ⊆ R ++ [p, c] := by simp
  obtain ⟨hR, hpc, hdisjoint⟩ := List.nodup_append'.mp hg.nodup
  have hne : p ≠ c := by simpa using hpc
  have hroot : ∀ s ∈ R ++ [p, c], g.parent s = none := hg.root
  have hc : c ∈ R ++ [p, c] := by simp
  have hcR : c ∉ R ++ [p] := by
    simpa [hne.symm] using fun hcR => hdisjoint hcR (by simp : c ∈ [p, c])
  refine ⟨?_, hsize ▸ hg.size_le, hg.nodup.sublist (by simp), fun s hs => hsize ▸ hg.fresh s (hsub hs), ?_, ?_⟩
  · refine hg.planted.hang (List.nodup_singleton c) (by simpa using hroot c hc) ?_ hparent hp hbelow
    intro s hs habove
    rw [above_of_parent_none (hroot p (by simp))] at habove
    exact hne (habove.symm.trans (List.mem_singleton.mp hs))
  · intro s hs
    have hsc : s ∉ [c] := fun hsc => hcR (List.mem_singleton.mp hsc ▸ hs)
    rw [hparent, if_neg hsc]
    exact hg.root s (hsub hs)
  · intro x hx
    have hfresh : ∀ s ∈ R ++ [p, c], x ≠ s := fun s hs => by
      have := (hg.fresh s hs).1
      lia
    rw [hget x (hfresh p (by simp)) (hfresh c hc)]
    exact hg.frame x hx

theorem append (hg : f.Seeds g (R ++ [p, c])) : ∃ h, g.appendChild p c = .ok h ∧ f.Seeds h (R ++ [p]) := by
  have hpc : p ≠ c := by simpa using (List.nodup_append'.mp hg.nodup).2.1
  have hp : p < g.size := (hg.fresh p (by simp)).2
  have hc : c < g.size := (hg.fresh c (by simp)).2
  have hnone : g.parent c = none := hg.root c (by simp)
  have hdetach : g.detach c = g := by rw [detach, hnone]
  have habove : ¬ g.Above c p := by
    rw [above_of_parent_none (hg.root p (by simp))]
    exact hpc.symm
  have hplace := place_le g p (g.children p).length c
  rw [hdetach] at hplace
  refine ⟨g.put p (g.place p (g.children p).length c) c, ?_, ?_⟩
  · rw [appendChild, insertChild_eq, if_neg]
    rwa [hg.planted.acyclic.isAncestor_iff]
  · have hbelow : ∀ q, (g.put p (g.place p (g.children p).length c) c).below q =
        (if q = p then (g.children p).insertIdx (g.place p (g.children p).length c) c else g.children q) ++ g.owned q := by
      intro q
      rw [put, hdetach, below, children_setParent, children_setChildren _ hp, owned, content?_setParent,
        content?_setChildren, owned]
    refine hg.hang (size_put ..) (parent_put hc p _) ?_ (fun q hq => ?_) fun x hxp hxc => ?_
    · rw [hbelow, if_pos rfl]
      exact (List.perm_insertIdx c _ hplace).append_right _
    · rw [hbelow, if_neg hq]
      rfl
    · rw [put, hdetach, get?_setParent, if_neg hxc, setChildren, get?_modify, if_neg hxp]

theorem setOrigin (hg : f.Seeds g S) (id : NodeId) (hid : id ∈ S) (o : Option Origin) : f.Seeds (g.setOrigin id o) S := by
  have hget : ∀ x, (g.setOrigin id o).get? x = if x = id then (g.get? x).map ({ · with origin := o }) else g.get? x :=
    fun x => get?_modify ..
  have hparent : ∀ x, (g.setOrigin id o).parent x = g.parent x := by
    intro x
    rw [parent, hget, parent]
    split
    · cases g.get? x <;> rfl
    · rfl
  have hchildren : ∀ x, (g.setOrigin id o).children x = g.children x := by
    intro x
    rw [children, hget, children]
    split
    · cases g.get? x <;> rfl
    · rfl
  refine ⟨hg.planted.congr hparent fun q => ?_, by simpa using hg.size_le, hg.nodup, by simpa using hg.fresh, ?_, ?_⟩
  · rw [below, hchildren, owned, content?_setOrigin]
    rfl
  · intro s hs
    rw [hparent]
    exact hg.root s hs
  · intro x hx
    have hne : x ≠ id := by
      have := (hg.fresh id hid).1
      lia
    rw [hget, if_neg hne]
    exact hg.frame x hx

end Seeds

def Content.withBundle (b : Bundle) : Content → Content
  | .markup t => .markup { t with bundle := b }
  | .call c => .call { c with bundle := b }
  | c => c

theorem setBundle_eq (f : Forest) (id : NodeId) (b : Bundle) :
    f.setBundle id b = f.modify id fun n => { n with content := n.content.withBundle b } := by
  refine congrArg (f.modify id) (funext fun n => ?_)
  cases h : n.content <;> rfl

theorem content?_setBundle (f : Forest) (id : NodeId) (b : Bundle) (x : NodeId) :
    (f.setBundle id b).content? x = if x = id then (f.content? x).map (Content.withBundle b) else f.content? x := by
  rw [setBundle_eq, content?, get?_modify, content?]
  split
  · cases f.get? x <;> rfl
  · rfl

/-- Besides the bundle a content names the same nodes whatever the bundle is. -/
theorem owned_of_bundle? {b : Bundle} (hb : f.bundle? p = some b) :
    ∃ content named, f.content? p = some content ∧ content.owned = named ++ (b.attributes ++ b.assignments) ∧
      ∀ b', (content.withBundle b').owned = named ++ (b'.attributes ++ b'.assignments) := by
  rw [bundle?] at hb
  split at hb
  next t ht =>
    cases hb
    exact ⟨_, _, ht, rfl, fun _ => rfl⟩
  next c hc =>
    cases hb
    exact ⟨_, _, hc, rfl, fun _ => rfl⟩
  next => cases hb

namespace Seeds

theorem bundle {b b' : Bundle} (hg : f.Seeds g (R ++ [owner, c])) (hb : g.bundle? owner = some b)
    (hperm : (b'.attributes ++ b'.assignments).Perm (c :: (b.attributes ++ b.assignments))) :
    f.Seeds ((g.setParent c (some owner)).setBundle owner b') (R ++ [owner]) := by
  obtain ⟨content, named, hcontent, howned, howned'⟩ := owned_of_bundle? hb
  have hc : c < g.size := (hg.fresh c (by simp)).2
  have hmiddle : (named ++ (b'.attributes ++ b'.assignments)).Perm (c :: content.owned) := by
    rw [howned]
    exact (hperm.append_left named).trans List.perm_middle
  refine hg.hang (by simp) (fun x => ?_) ?_ (fun q hq => ?_) fun x hx hxc => ?_
  · rw [parent_setBundle, parent_setParent _ hc]
    simp
  · rw [below, children_setBundle, children_setParent, owned, content?_setBundle, content?_setParent, if_pos rfl, below,
      owned, hcontent]
    exact ((howned' b').symm ▸ hmiddle.append_left _).trans List.perm_middle
  · rw [below, children_setBundle, children_setParent, owned, content?_setBundle, content?_setParent, if_neg hq]
    rfl
  · rw [setBundle_eq, get?_modify, if_neg hx, get?_setParent, if_neg hxc]

theorem addAttribute (hg : f.Seeds g (R ++ [owner, c])) : f.Seeds (g.addAttribute owner c) (R ++ [owner]) := by
  rw [Forest.addAttribute]
  split
  next b hb =>
    refine hg.bundle hb ?_
    rw [List.append_assoc]
    exact List.perm_middle
  next => exact hg.mono (hg.nodup.sublist (by simp)) (by simp)

theorem addAssignment (hg : f.Seeds g (R ++ [owner, c])) : f.Seeds (g.addAssignment owner c) (R ++ [owner]) := by
  rw [Forest.addAssignment]
  split
  next b hb =>
    refine hg.bundle hb ?_
    rw [← List.append_assoc]
    exact List.perm_append_singleton c _
  next => exact hg.mono (hg.nodup.sublist (by simp)) (by simp)

theorem makeAttribute {value : Option NodeId} (hg : f.Seeds g (R ++ value.toList)) (name : Bytes) :
    f.Seeds (g.makeAttribute name value).1 (R ++ [(g.makeAttribute name value).2]) := by
  cases value with
  | none => exact hg.own (.attr { name, value := none }) (.refl _)
  | some v => exact hg.own (.attr { name, value := some v }) (.refl _)

theorem makeDynamicAttribute {value : Option NodeId} {key : NodeId} (hg : f.Seeds g (R ++ (value.toList ++ [key]))) :
    f.Seeds (g.makeDynamicAttribute key value).1 (R ++ [(g.makeDynamicAttribute key value).2]) := by
  cases value with
  | none => exact hg.own (.attr { nameExpr := some key, value := none }) (.refl _)
  | some v => exact hg.own (.attr { nameExpr := some key, value := some v }) (.swap ..)

theorem makeBinding (hg : f.Seeds g (R ++ [c])) (name : Bytes) :
    f.Seeds (g.makeBinding name (some c)).1 (R ++ [(g.makeBinding name (some c)).2]) :=
  hg.own (.binding name (some c)) (.refl _)

theorem makeArguments (hg : f.Seeds g R) (srcs : List Bytes) :
    f.Seeds (g.makeArguments srcs).1 (R ++ (g.makeArguments srcs).2.map (·.expression)) := by
  induction srcs generalizing g R with
  | nil => simpa [Forest.makeArguments] using hg
  | cons src srcs ih =>
    have hmake := hg.make (.expression { source := (readArgument src).2 }) rfl
    have hrest := ih hmake
    rw [List.append_assoc] at hrest
    exact hrest

theorem makeCall (hg : f.Seeds g R) (name : Bytes) (srcs : List Bytes) :
    f.Seeds (g.makeCall name srcs).1 (R ++ [(g.makeCall name srcs).2]) := by
  have hargs := (hg.makeArguments srcs).own (.call { name, args := (g.makeArguments srcs).2 })
    (by simp [Content.owned])
  rw [relink, List.foldl_map] at hargs
  exact hargs

end Seeds

end Stencil.Forest

namespace Stencil.Wire

open Forest (Seeds)

variable {f g h : Forest} {R : List NodeId} {grow : Grow} {owner id : NodeId}

/-- Whatever `grow` grows is a seed. -/
def Sows (grow : Grow) : Prop := ∀ f n g id, f.Planted → grow f n = .ok (g, id) → f.Seeds g [id]

section

variable (hgrow : Sows grow)
include hgrow

theorem growExpression_seeds {n : Option Node} (hg : f.Seeds g R) (hrun : growExpression grow g n = .ok (h, id)) :
    f.Seeds h (R ++ [id]) := by
  obtain ⟨⟨g', id'⟩, hn, hrun⟩ := bind_eq_ok hrun
  have hseeds := hg.trans (hgrow g n g' id' hg.planted hn)
  dsimp only at hrun
  split at hrun
  · cases hrun
    exact hseeds
  · cases hrun

theorem growOptional_seeds {n : Option Node} {id : Option NodeId} (hg : f.Seeds g R)
    (hrun : growOptional grow g n = .ok (h, id)) : f.Seeds h (R ++ id.toList) := by
  cases n with
  | none =>
    cases hrun
    simpa using hg
  | some n =>
    obtain ⟨⟨g', id'⟩, hn, hrun⟩ := bind_eq_ok hrun
    cases hrun
    exact hg.trans (hgrow g (some n) _ id' hg.planted hn)

theorem growAttribute_seeds {a : AttributeFields Node} (hg : f.Seeds g [owner])
    (hrun : growAttribute grow owner g a = .ok h) : f.Seeds h [owner] := by
  obtain ⟨⟨g₁, value⟩, hvalue, hrun⟩ := bind_eq_ok hrun
  have hg₁ := growOptional_seeds hgrow hg (mapError_eq_ok hvalue)
  have hadd : ∀ {k : Forest} {id : NodeId}, f.Seeds k [owner, id] →
      f.Seeds ((k.setOrigin id a.origin).addAttribute owner id) [owner] := fun hk =>
    (hk.setOrigin _ (by simp) a.origin).addAttribute (R := [])
  dsimp only at hrun
  split at hrun
  next n hn =>
    obtain ⟨⟨g₂, key⟩, hkey, hrun⟩ := bind_eq_ok hrun
    have hg₂ := growExpression_seeds hgrow hg₁ hkey
    rw [List.append_assoc] at hg₂
    cases hrun
    exact hadd hg₂.makeDynamicAttribute
  next hn =>
    cases hrun
    exact hadd (hg₁.makeAttribute a.name)

theorem growAssignment_seeds {a : AssignmentFields Node} (hg : f.Seeds g [owner])
    (hrun : growAssignment grow owner g a = .ok h) : f.Seeds h [owner] := by
  obtain ⟨g₁, hfold, hrun⟩ := bind_eq_ok hrun
  have hid : f.Seeds (g.makeAssignment a.name []).1 [owner, g.size] := hg.make (.assignment a.name) rfl
  have hg₁ : f.Seeds g₁ [owner, g.size] := by
    refine foldlM_invariant (P := fun k => f.Seeds k [owner, g.size]) (fun k e k' _ hk hstep => ?_) hid hfold
    obtain ⟨⟨k₁, eid⟩, he, hstep⟩ := bind_eq_ok hstep
    obtain ⟨k₂, happend, hk₂⟩ := (growExpression_seeds hgrow hk (mapError_eq_ok he)).append (R := [owner])
    have hk' : k' = (k₁.appendChild g.size eid).toOption.getD k₁ := (Except.ok.inj hstep).symm
    rw [hk', happend]
    exact hk₂
  rw [← Except.ok.inj hrun]
  exact (hg₁.setOrigin g.size (by simp) a.origin).addAssignment (R := [])

theorem growBundle_seeds {n : Fields Node} (hg : f.Seeds g [owner])
    (hrun : growBundle grow owner n g = .ok h) : f.Seeds h [owner] := by
  obtain ⟨g₁, hattributes, hrun⟩ := bind_eq_ok hrun
  have hg₁ : f.Seeds g₁ [owner] :=
    foldlM_invariant (P := fun k => f.Seeds k [owner]) (fun _ _ _ _ hk => growAttribute_seeds hgrow hk) hg hattributes
  exact foldlM_invariant (P := fun k => f.Seeds k [owner]) (fun _ _ _ _ hk => growAssignment_seeds hgrow hk) hg₁ hrun

theorem growMarkup_seeds {n : Fields Node} (hf : f.Planted) (hrun : growMarkup grow f n = .ok (h, id)) :
    f.Seeds h [id] := by
  have hbundle : ∀ {k : Forest} (nameExpr : Option NodeId), f.Seeds k nameExpr.toList →
      growBundle grow k.size n (((k.make (.markup { name := n.name, nameExpr, autoClosed := n.autoClosed })).1).adopt
        k.size nameExpr) = .ok h → f.Seeds h [k.size] := by
    intro k nameExpr hk hrun
    refine growBundle_seeds hgrow ?_ hrun
    cases nameExpr with
    | none => exact hk.make _ rfl
    | some e => exact Seeds.own (R := []) hk _ (.refl _)
  rw [growMarkup] at hrun
  split at hrun
  next e he =>
    obtain ⟨⟨g₁, key⟩, hkey, hrun⟩ := bind_eq_ok hrun
    obtain ⟨_, ⟨⟩, hrun⟩ := bind_eq_ok hrun
    obtain ⟨g₂, hrest, hrun⟩ := bind_eq_ok hrun
    cases hrun
    exact hbundle (some key) (growExpression_seeds hgrow (.refl hf) hkey) hrest
  next he =>
    obtain ⟨_, ⟨⟩, hrun⟩ := bind_eq_ok hrun
    obtain ⟨g₂, hrest, hrun⟩ := bind_eq_ok hrun
    cases hrun
    exact hbundle none (.refl hf) hrest

theorem growContent_seeds {n : Fields Node} (hf : f.Planted) (hrun : growContent grow f n = .ok (h, id)) :
    f.Seeds h [id] := by
  have hmake : ∀ content : Forest.Content, content.owned = [] → f.make content = (h, id) → f.Seeds h [id] := by
    intro content howned heq
    have hseeds := (Seeds.refl hf).make content howned
    cases heq
    exact hseeds
  rw [growContent] at hrun
  rcases ite_eq_iff.mp hrun with ⟨-, hrun⟩ | ⟨-, hrun⟩
  · exact hmake _ rfl (Except.ok.inj hrun)
  rcases ite_eq_iff.mp hrun with ⟨-, hrun⟩ | ⟨-, hrun⟩
  · exact hmake _ rfl (Except.ok.inj hrun)
  rcases ite_eq_iff.mp hrun with ⟨-, hrun⟩ | ⟨-, hrun⟩
  · exact growMarkup_seeds hgrow hf hrun
  rcases ite_eq_iff.mp hrun with ⟨-, hrun⟩ | ⟨-, hrun⟩
  · exact hmake _ rfl (Except.ok.inj hrun)
  rcases ite_eq_iff.mp hrun with ⟨-, hrun⟩ | ⟨-, hrun⟩
  · exact hmake _ rfl (Except.ok.inj hrun)
  rcases ite_eq_iff.mp hrun with ⟨-, hrun⟩ | ⟨-, hrun⟩
  · exact hmake _ rfl (Except.ok.inj hrun)
  rcases ite_eq_iff.mp hrun with ⟨-, hrun⟩ | ⟨-, hrun⟩
  · obtain ⟨⟨params, variadic⟩, -, hrun⟩ := bind_eq_ok (mapError_eq_ok hrun)
    exact hmake (.mixin { name := n.name, params, variadic }) rfl (Except.ok.inj hrun)
  rcases ite_eq_iff.mp hrun with ⟨-, hrun⟩ | ⟨-, hrun⟩
  · obtain ⟨g₁, hbundle, hrun⟩ := bind_eq_ok hrun
    cases hrun
    exact growBundle_seeds hgrow ((Seeds.refl hf).makeCall n.name n.args.items) hbundle
  rcases ite_eq_iff.mp hrun with ⟨-, hrun⟩ | ⟨-, hrun⟩
  · exact hmake _ rfl (Except.ok.inj hrun)
  rcases ite_eq_iff.mp hrun with ⟨-, hrun⟩ | ⟨-, hrun⟩
  · obtain ⟨⟨g₁, value⟩, hvalue, hrun⟩ := bind_eq_ok hrun
    have hbinding := (growExpression_seeds hgrow (Seeds.refl hf) (mapError_eq_ok hvalue)).makeBinding (R := []) n.name
    cases hrun
    exact hbinding
  · cases hrun

end

/-- A node is grown with everything below it, over the depth of the wire form. -/
theorem sows_grow (depth : Nat) : Sows (Wire.grow depth) := by
  induction depth with
  | zero => exact fun f n g id _ hrun => by cases hrun
  | succ depth ih =>
    intro f n g id hf hrun
    cases n with
    | none => cases hrun
    | some n =>
      obtain ⟨⟨g₁, id₁⟩, hcontent, hrun⟩ := bind_eq_ok hrun
      obtain ⟨g₂, hchildren, hrun⟩ := bind_eq_ok hrun
      cases hrun
      have hg₁ := (growContent_seeds ih hf hcontent).setOrigin id (List.mem_singleton.mpr rfl) n.fields.origin
      refine foldlM_invariant (P := fun k => f.Seeds k [id]) (fun k c k' _ hk hstep => ?_) hg₁ hchildren
      obtain ⟨⟨k₁, cid⟩, hc, hstep⟩ := bind_eq_ok hstep
      obtain ⟨k₂, happend, hk₂⟩ := (hk.trans (ih k c k₁ cid hk.planted hc)).append (R := [])
      have hk' : k' = k₂ := by
        dsimp only at hstep
        rw [happend] at hstep
        exact (Except.ok.inj hstep).symm
      rw [hk']
      exact hk₂

theorem seeds_of_plantText {text : Bytes} {root : NodeId} (hrun : plantText .empty text = .ok (g, root)) :
    Forest.Seeds .empty g [root] := by
  obtain ⟨n, -, hrun⟩ := bind_eq_ok hrun
  exact sows_grow maxDepth .empty (some n) g root Forest.planted_empty (mapError_eq_ok hrun)

theorem planted_of_plantText {text : Bytes} {root : NodeId} (hrun : plantText .empty text = .ok (g, root)) :
    g.Planted ∧ g.parent root = none :=
  ⟨(seeds_of_plantText hrun).planted, (seeds_of_plantText hrun).root root (List.mem_singleton.mpr rfl)⟩

end Stencil.Wire
