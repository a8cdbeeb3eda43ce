import Stencil.Proofs.Compile.Builtin
import Stencil.Proofs.Compile.Independence
import Stencil.Proofs.Compile.Recast
import Stencil.Proofs.Compile.Seams

/-! Origins leave no trace in a page that is not for debugging. A tree without origins is rendered to the same text but
for the marks; where that has no null bytes, the marks are all there is to be taken out of the other, and what is left of
both is the same. -/

namespace Stencil

open Bytes (nullFree_nil nullFree_cons nullFree_append)

/-- The relocation to a tree that was written nowhere. -/
def Relocation.nowhere (number : NodeId → NodeId) : Relocation := ⟨fun _ => none, number⟩

/-- The trees differ at most in the origins of their nodes, and in how the nodes are numbered. -/
def Element.Alike (e e' : Element) : Prop :=
  ∃ number : NodeId → NodeId, number.Injective ∧ e.relocate (.nowhere number) = e'.relocate (.nowhere fun n => n)

def Failure.unplaced (f : Failure) : Failure := f.relocate (.nowhere fun n => n)

namespace Page

/-- The second text is the first without some of its marks. -/
inductive Sheds : Bytes → Bytes → Prop
  | nil : Sheds [] []
  | byte (c : UInt8) {s t : Bytes} (h : Sheds s t) : Sheds (c :: s) (c :: t)
  | mark (id : Nat) {s t : Bytes} (h : Sheds s t) : Sheds (mark id ++ s) t

variable {s s' t t' : Bytes}

theorem Sheds.refl (s : Bytes) : Sheds s s := by
  induction s with
  | nil => exact .nil
  | cons c s ih => exact .byte c ih

theorem Sheds.append (h : Sheds s s') (ht : Sheds t t') : Sheds (s ++ t) (s' ++ t') := by
  induction h with
  | nil => exact ht
  | byte c _ ih => exact .byte c ih
  | mark id _ ih =>
    rw [List.append_assoc]
    exact .mark id ih

theorem sheds_mark (id : Nat) : Sheds (mark id) [] := by
  have h := Sheds.mark id .nil
  rwa [List.append_nil] at h

/-- A text without null bytes is what the marks leave. -/
theorem Sheds.unmarked (h : Sheds s t) (ht : t.NullFree) : unmarked s = t := by
  induction h with
  | nil => rfl
  | @byte c s t _ ih =>
    obtain ⟨hc, ht⟩ := nullFree_cons.mp ht
    rw [Page.unmarked, segments_cons_of_ne hc, List.flatMap_cons]
    exact congrArg (c :: ·) (ih ht)
  | mark id _ ih =>
    rw [Page.unmarked, segments_mark, List.flatMap_cons]
    exact ih ht

def dropBreak : Bytes → Bytes
  | [] => []
  | c :: s => if c == Ascii.newline then s else c :: s

theorem text_dropLeadingBreak (ss : List Segment) :
    (dropLeadingBreak ss).flatMap Segment.text = dropBreak (ss.flatMap Segment.text) := by
  induction ss with
  | nil => rfl
  | cons a ss ih =>
    cases a with
    | byte c =>
      rw [dropLeadingBreak]
      split
      next hc =>
        rw [List.flatMap_cons, Segment.text, List.singleton_append, dropBreak, if_pos hc]
      next hc =>
        rw [List.flatMap_cons, Segment.text, List.singleton_append, dropBreak, if_neg hc]
    | fragment id => exact ih

/-- Without debugging, a page is the rendered text without its marks. -/
theorem body_unmarked {env : Environment} (hdebug : env.settings.debug = false) (site : Site) (fragments : Array Origin)
    (s : Bytes) : ∃ p, body env site fragments {} s = .ok p ∧
      p.text = if env.settings.pretty then dropBreak (unmarked s) else unmarked s := by
  obtain ⟨p, hp, htext⟩ := foldlM_step_text hdebug site fragments {}
    (if env.settings.pretty then dropLeadingBreak (segments s) else segments s)
  refine ⟨p, hp, htext.trans ?_⟩
  split
  · exact text_dropLeadingBreak _
  · rfl

end Page

def Kinship.unplaced (settings : Settings) (number : NodeId → NodeId) (hnumber : number.Injective) : Kinship :=
  { Kinship.apart settings with
    move := .nowhere number
    text := Page.Sheds
    injective := hnumber
    refl := .refl
    append := .append
    mark := fun h _ origin => by
      cases origin with
      | none => exact ⟨h, .nil⟩
      | some o => exact ⟨h, Page.sheds_mark _⟩
    attributes := fun h owner => h.attributes (.nowhere number) owner }

/-- The text is clean: besides its marks it has no null bytes. -/
def Page.Clean (t : Bytes) : Prop := ∃ u, Sheds t u ∧ u.NullFree

/-- From a tree without null bytes, all that is written is clean, and has no null bytes where no node has an origin. -/
def Environment.NullFree.gallery {env : Environment} (h : env.NullFree) (hplain : env.Plain) : Gallery env where
  shown es t _ := Page.Clean t ∧ (es = [] → t.NullFree)
  of_nullFree ht := ⟨⟨_, .refl _, ht⟩, fun _ => ht⟩
  append := by
    rintro es es' s t news more ⟨⟨u, hu, hfree⟩, hs⟩ ⟨⟨v, hv, hfree'⟩, ht⟩
    refine ⟨⟨u ++ v, hu.append hv, nullFree_append.mpr ⟨hfree, hfree'⟩⟩, fun hnil => ?_⟩
    obtain ⟨rfl, rfl⟩ := List.append_eq_nil_iff.mp hnil
    exact nullFree_append.mpr ⟨hs rfl, ht rfl⟩
  carry := by
    rintro name hname site es arg text news ⟨⟨u, hu, hfree⟩, harg⟩ hok
    have hrender {arg text : Bytes} (harg : arg.NullFree) (hok : Pattern.render env.patterns name [arg] = .ok text) :
        text.NullFree := h.render name (Session.carriers_common name hname) _ _ (List.forall_mem_singleton.mpr harg) hok
    have hok := mapError_eq_ok hok
    refine ⟨?_, fun hnil => hrender (harg hnil) hok⟩
    cases hp : env.patterns.get? name with
    | none =>
      rw [Pattern.render_of_missing hp] at hok
      cases hok
    | some p =>
      cases p with
      | producer inputs body => exact absurd hp (hplain.templates name hname inputs body)
      | template template =>
        rw [Pattern.render_of_template hp] at hok
        cases hok
        refine ⟨_, ?_, hrender hfree (Pattern.render_of_template hp _)⟩
        exact Kinship.fill (k := .unplaced env.settings (fun n => n) fun _ _ heq => heq) (.cons hu .nil) 0 _
  spot := by
    rintro s es news - ⟨⟨u, hu, hfree⟩, -⟩
    exact ⟨⟨u, .mark s.id hu, hfree⟩, nofun⟩

section Unplaced

variable {P S : Bytes → Prop} {g : Relocation}

theorem Attribute.Each.relocate {a : Attribute} (h : a.Each P S) : (a.relocate g).Each P S where
  name := h.name
  nameExpr := by
    intro s hs
    obtain ⟨s, hmem, rfl⟩ := Option.map_eq_some_iff.mp hs
    exact h.nameExpr s hmem
  value := by
    have hvalue := h.value
    rw [show (a.relocate g).value = a.value.relocate g from rfl]
    cases hv : a.value <;> rw [hv] at hvalue <;> exact hvalue

theorem Assignment.Each.relocate {a : Assignment} (h : a.Each P S) : (a.relocate g).Each P S :=
  ⟨h.name, List.forall_mem_map.mpr h.values⟩

theorem Element.Content.Each.relocate {content : Element.Content} (h : content.Each P S) :
    (content.relocate g).Each P S := by
  cases content with
  | markup t =>
    refine ⟨h.name, ?_, List.forall_mem_map.mpr fun a ha => (h.attributes a ha).relocate,
      List.forall_mem_map.mpr fun a ha => (h.assignments a ha).relocate⟩
    intro s hs
    obtain ⟨s, hmem, rfl⟩ := Option.map_eq_some_iff.mp hs
    exact h.nameExpr s hmem
  | call c =>
    exact ⟨h.name, List.forall_mem_map.mpr h.args, List.forall_mem_map.mpr fun a ha => (h.attributes a ha).relocate,
      List.forall_mem_map.mpr fun a ha => (h.assignments a ha).relocate⟩
  | binding name value =>
    refine ⟨h.1, fun s hs => ?_⟩
    obtain ⟨s, hmem, rfl⟩ := Option.map_eq_some_iff.mp hs
    exact h.2 s hmem
  | _ => exact h

theorem Element.Each.relocate {e : Element} (h : e.Each P S) : (e.relocate g).Each P S := by
  induction h with
  | node hcontent _ ih =>
    rw [Element.relocate, Element.relocateAll_eq]
    exact .node hcontent.relocate (List.forall_mem_map.mpr ih)

theorem Render.nodeOccurrences_nowhere (number : NodeId → NodeId) (mixins : List Element.Declaration) (budget : Nat)
    (e : Element) :
    nodeOccurrences (mixins.map (·.relocate (.nowhere number))) budget (e.relocate (.nowhere number)) = [] := by
  induction budget generalizing e with
  | zero => rfl
  | succ budget ih =>
    have hall (es : List Element) : (Element.relocateAll (.nowhere number) es).flatMap
        (nodeOccurrences (mixins.map (·.relocate (.nowhere number))) budget) = [] := by
      rw [Element.relocateAll_eq, List.flatMap_map, List.flatMap_eq_nil_iff]
      exact fun e _ => ih e
    obtain ⟨id, origin, content, children⟩ := e
    cases content with
    | call call =>
      have hfind : Element.findMixin? (mixins.map (·.relocate (.nowhere number))) (call.relocate (.nowhere number)).name =
          _ := Element.findMixin?_relocate (.nowhere number) mixins call.name
      rw [nodeOccurrences, contentOccurrences, Element.relocate]
      simp only [Element.content, Element.Content.relocate, Element.children, hfind, hall, List.append_nil]
      cases Element.findMixin? mixins call.name with
      | none => rfl
      | some d => exact (List.flatMap_singleton ..).trans (hall d.body)
    | markup t => exact hall children
    | document => exact hall children
    | code source => exact hall children
    | _ => rfl

end Unplaced

namespace Forest

def unplaced (f : Forest) : Forest := ⟨f.nodes.map fun n => { n with origin := none }⟩

variable (f : Forest)

theorem get?_unplaced (id : NodeId) : f.unplaced.get? id = (f.get? id).map fun n => { n with origin := none } :=
  Array.getElem?_map ..

theorem content?_unplaced (id : NodeId) : f.unplaced.content? id = f.content? id := by
  rw [content?, get?_unplaced, Option.map_map]
  rfl

theorem children_unplaced (id : NodeId) : f.unplaced.children id = f.children id := by
  rw [children, get?_unplaced, Option.map_map]
  rfl

theorem origin_unplaced (id : NodeId) : f.unplaced.origin id = none := by
  rw [origin, get?_unplaced]
  cases f.get? id <;> rfl

theorem isBlock_unplaced (id : NodeId) : f.unplaced.isBlock id = f.isBlock id := by
  have hparent (id : NodeId) : f.unplaced.parent id = f.parent id := by
    rw [parent, parent, get?_unplaced]
    cases f.get? id <;> rfl
  have hfrom (fuel : Nat) : f.unplaced.ancestorsFrom fuel id = f.ancestorsFrom fuel id := by
    induction fuel generalizing id with
    | zero => rfl
    | succ fuel ih =>
      rw [ancestorsFrom, ancestorsFrom, hparent]
      cases f.parent id with
      | none => rfl
      | some p => exact congrArg (p :: ·) (ih p)
  have hsize : f.unplaced.size = f.size := Array.size_map
  have htag : f.unplaced.tag? = f.tag? := funext fun id => by rw [tag?, tag?, content?_unplaced]
  rw [isBlock, isBlock, ancestors, ancestors, hfrom, hsize, htag]

theorem snippet?_unplaced (id : NodeId) :
    f.unplaced.snippet? id = (f.snippet? id).map (·.relocate (.nowhere fun n => n)) := by
  rw [snippet?, snippet?, content?_unplaced, origin_unplaced]
  cases f.content? id with
  | none => rfl
  | some c => cases c <;> rfl

theorem attributeValue_unplaced (value : Option NodeId) :
    f.unplaced.attributeValue value = (f.attributeValue value).relocate (.nowhere fun n => n) := by
  cases value with
  | none => rfl
  | some id =>
    rw [attributeValue, attributeValue, content?_unplaced, origin_unplaced]
    cases f.content? id with
    | none => rfl
    | some c => cases c <;> rfl

theorem attribute?_unplaced (id : NodeId) :
    f.unplaced.attribute? id = (f.attribute? id).map (·.relocate (.nowhere fun n => n)) := by
  rw [attribute?, attribute?, content?_unplaced, origin_unplaced]
  cases hc : f.content? id with
  | none => rfl
  | some c =>
    cases c with
    | attr a =>
      dsimp only
      rw [attributeValue_unplaced]
      cases hn : a.nameExpr with
      | none => rfl
      | some n =>
        rw [Option.bind_some, snippet?_unplaced]
        rfl
    | _ => rfl

theorem assignment?_unplaced (id : NodeId) :
    f.unplaced.assignment? id = (f.assignment? id).map (·.relocate (.nowhere fun n => n)) := by
  rw [assignment?, assignment?, content?_unplaced, origin_unplaced, children_unplaced,
    funext f.snippet?_unplaced, ← List.map_filterMap]
  cases f.content? id with
  | none => rfl
  | some c => cases c <;> rfl

theorem elementContent_unplaced (id : NodeId) (c : Content) :
    f.unplaced.elementContent id c = (f.elementContent id c).relocate (.nowhere fun n => n) := by
  have hsnippet (value : Option NodeId) : value.bind f.unplaced.snippet? =
      (value.bind f.snippet?).map (·.relocate (.nowhere fun n => n)) := by
    rw [Option.map_bind]
    exact congrArg _ (funext f.snippet?_unplaced)
  have hattributes (ids : List NodeId) : ids.filterMap f.unplaced.attribute? =
      (ids.filterMap f.attribute?).map (·.relocate (.nowhere fun n => n)) := by
    rw [List.map_filterMap]
    exact congrArg (List.filterMap · ids) (funext f.attribute?_unplaced)
  have hassignments (ids : List NodeId) : ids.filterMap f.unplaced.assignment? =
      (ids.filterMap f.assignment?).map (·.relocate (.nowhere fun n => n)) := by
    rw [List.map_filterMap]
    exact congrArg (List.filterMap · ids) (funext f.assignment?_unplaced)
  cases c with
  | markup t => simp only [elementContent, hsnippet, hattributes, hassignments, isBlock_unplaced]; rfl
  | call c =>
    simp only [elementContent, hattributes, hassignments, Element.Content.relocate, Call.relocate, List.map_filterMap,
      snippet?_unplaced, Option.map_map]
    rfl
  | binding name value => simp only [elementContent, hsnippet]; rfl
  | expression e => simp only [elementContent, origin_unplaced]; rfl
  | _ => rfl

theorem element_unplaced (id : NodeId) : f.unplaced.element id = (f.element id).relocate (.nowhere fun n => n) := by
  have hfrom (fuel : Nat) : ∀ id, f.unplaced.elementFrom fuel id =
      (f.elementFrom fuel id).relocate (.nowhere fun n => n) := by
    induction fuel with
    | zero => exact fun _ => rfl
    | succ fuel ih =>
      intro id
      rw [elementFrom, elementFrom, get?_unplaced]
      cases f.get? id with
      | none => rfl
      | some n =>
        rw [Element.relocate, Element.relocateAll_eq, List.map_map, ← elementContent_unplaced]
        exact congrArg _ (List.map_congr_left fun child _ => ih child)
  have hsize : f.unplaced.size = f.size := Array.size_map
  rw [element, element, hsize, hfrom]

/-- Forests that differ in nothing but origins have trees that differ in nothing but origins. -/
theorem element_alike {f f' : Forest} (h : f.unplaced = f'.unplaced) (id : NodeId) :
    (f.element id).Alike (f'.element id) :=
  ⟨fun n => n, fun _ _ h => h, by rw [← element_unplaced, ← element_unplaced, h]⟩

end Forest

/-- Without handlers and debugging, a page of a tree is that of the tree without origins, whatever was numbered before. -/
theorem Render.finished_unplaced {env : Environment} (h : env.Plain) (hdebug : env.settings.debug = false)
    {number : NodeId → NodeId} (hnumber : number.Injective) {pretty : Bool} {indent : Bytes}
    (hpretty : pretty = env.settings.pretty) (hindent : indent = env.settings.indent) {e : Element}
    (hfree : (env.recast (.nowhere number) pretty indent).NullFree) (he : (e.relocate (.nowhere number)).NullFree)
    {p p' : Progress} (hp : p.Kin (.unplaced env.settings number hnumber) p') :
    ((finished (env.recast (.nowhere number) pretty indent) (e.relocate (.nowhere number))).run p').1.map Page.text =
      (((finished env e).run p).1.map Page.text).mapError (Failure.relocate (.nowhere number)) := by
  subst hpretty hindent
  have hplain : (env.recast (.nowhere number) env.settings.pretty env.settings.indent).Plain := ⟨h.handlers, h.templates⟩
  have hnode := node_kin (k := .unplaced env.settings number hnumber) h.passes (fun _ _ => .refl _) env.settings.maxDepth
    .outermost e
  have hstart : p'.NullFree := by
    have hnone : p'.additions = [] := hp.added.2
    rw [Progress.NullFree, hnone]
    exact List.forall_mem_nil _
  have hdraws := node_draws hfree (hfree.gallery hplain) env.settings.maxDepth Scope.nullFree_outermost he
  rw [finished, finished, Rendering.run_bind, Rendering.run_bind]
  rcases hnode hp with ⟨f, q, q', hq, hq'⟩ | ⟨t, t', q, q', hq, hq', hsheds, -⟩
  · have hrun : (tree env e).run p = (.error f, q) := hq
    have hrun' : (tree (env.recast (.nowhere number) env.settings.pretty env.settings.indent)
        (e.relocate (.nowhere number))).run p' = (.error (f.relocate (.nowhere number)), q') := hq'
    rw [hrun, hrun']
    rfl
  · have hrun : (tree env e).run p = (.ok t, q) := hq
    have hrun' : (tree (env.recast (.nowhere number) env.settings.pretty env.settings.indent)
        (e.relocate (.nowhere number))).run p' = (.ok t', q') := hq'
    obtain ⟨-, news, -, -, hnone⟩ := hdraws hstart hq'
    have hfree' : t'.NullFree := hnone (nodeOccurrences_nowhere number env.mixins _ e)
    obtain ⟨page, hpage, htext⟩ := Page.body_unmarked hdebug e.site q.ledger.fragments t
    have hdebug' : (env.recast (.nowhere number) env.settings.pretty env.settings.indent).settings.debug = false := hdebug
    obtain ⟨page', hpage', htext'⟩ :=
      Page.body_unmarked hdebug' (e.relocate (.nowhere number)).site q'.ledger.fragments t'
    rw [hrun, hrun']
    dsimp only
    rw [page_run hdebug, page_run hdebug', hpage, hpage']
    refine congrArg Except.ok ?_
    rw [htext, htext', Page.Sheds.unmarked hsheds hfree', Page.unmarked_of_nullFree hfree']
    rfl

theorem Failure.relocate_nowhere (f : Failure) (number : NodeId → NodeId) : f.relocate (.nowhere number) = f.unplaced := by
  cases f <;> rfl

namespace Session

variable {s : Session}

theorem Undirected.attempt_unplaced (h : s.Undirected) (hequipped : s.ledger.Equipped) {number : NodeId → NodeId}
    (hnumber : number.Injective) {e : Element} {selector : Selector}
    (hfree : ∀ d, (s.select e selector).2 = .ok d → s.NullFree d) (he : (e.relocate (.nowhere number)).NullFree)
    (nextNode nextNode' : NodeId) :
    (s.attempt (e.relocate (.nowhere number)) nextNode' selector).result =
      (s.attempt e nextNode selector).result.mapError Failure.unplaced := by
  have hpage := attempt_recast (g := .nowhere number) s s rfl rfl (fun t => t) e nextNode nextNode' selector
  have hid (x : Except Failure Bytes) : x.map (fun t => t) = x := by cases x <;> rfl
  have hfailure : Failure.relocate (.nowhere number) = Failure.unplaced := funext fun f => f.relocate_nowhere number
  rw [hid, hid, hfailure] at hpage
  refine hpage fun d text l l' hd htext hl hl' => ?_
  have henv : ((s.environment e d text).recast (.nowhere number) s.settings.pretty s.settings.indent).NullFree := by
    rw [← environment_relocate s s rfl rfl]
    exact (hfree d hd).environment he htext
  refine (Render.finished_unplaced (h.plain e d text) h.debug hnumber rfl rfl henv he ?_).trans (by rw [← hfailure]; rfl)
  exact ⟨⟨hequipped.of_declared (congrArg _ hl.helpers.symm), hequipped.of_declared (congrArg _ hl'.helpers.symm)⟩,
    ⟨rfl, rfl⟩, rfl, rfl, rfl⟩

theorem form_nullFree (id : NodeId) : (form.element id).NullFree := by
  refine Forest.element_each (fun id n hn => ?_) id
  have hid : id < 6 := (Array.getElem?_eq_some_iff.mp hn).1
  interval_cases id <;> cases hn
  · refine ⟨by decide, fun _ h => (by cases h), List.forall_mem_singleton.mpr ?_, List.forall_mem_nil _⟩
    exact ⟨by decide, fun _ h => (by cases h), trivial⟩
  · trivial
  · trivial
  · exact (by decide : Bytes.NullFree "x")
  · exact ⟨by decide, fun _ h => (by cases h), List.forall_mem_nil _, List.forall_mem_nil _⟩
  · exact (by decide : Bytes.NullFree "y")

/-- The first tag has lost its origin, and the other has one. -/
def transcript : Forest := (form.setOrigin 0 none).setOrigin 4 (some ⟨"u.pug", 7, 2⟩)

/-- A text, and the rest of a mark behind it. -/
def remnant : Forest :=
  ⟨#[{ content := .document, children := [1, 2] },
     { content := .expression { source := "\"\\0\"" }, parent := some 0 },
     { content := .text { value := "5\x01" }, parent := some 0 }]⟩

end Session

end Stencil
