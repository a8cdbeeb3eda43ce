import Stencil.Proofs.Compile.Layout
import Stencil.Proofs.Compile.Weaving

/-! The renderer, function by function: what it writes from a tree without null bytes shows every node with an origin
that is rendered, once for each time it is, and in the order of the tree but for the children of a call, which stand
behind the body of the mixin. -/

namespace Stencil

open Bytes (nullFree_nil nullFree_cons nullFree_append nullFree_flatten nullFree_join nullFree_ofNat)
open Rendering (Draws Gives Grows Keeps)

variable {env : Environment} (h : env.NullFree)

/-- What is said of a rendered text, of the fragments that are numbered for it and of the nodes that stand there. -/
structure Gallery (env : Environment) where
  shown : List Element → Bytes → List (Nat × Element) → Prop
  of_nullFree : ∀ {t : Bytes}, t.NullFree → shown [] t []
  append : ∀ {es es' s t news more}, shown es s news → shown es' t more → shown (es ++ es') (s ++ t) (news ++ more)
  /-- Markup in a pattern. -/
  carry : ∀ {name}, name ∈ Session.carriers → ∀ {site es arg text news}, shown es arg news →
    env.pattern site name [arg] = .ok text → shown es text news
  /-- A node behind its mark. -/
  spot : ∀ {s : Spot} {es news}, s.Drawn env → shown es s.rest news →
    shown (s.element :: es) (Page.mark s.id ++ s.rest) (s.number :: news)

namespace Gallery

variable {g : Gallery env} {es : List Element} {s t : Bytes} {news : List (Nat × Element)}

theorem before (h : g.shown es t news) (hs : s.NullFree) : g.shown es (s ++ t) news := g.append (g.of_nullFree hs) h

theorem after (h : g.shown es s news) (ht : t.NullFree) : g.shown es (s ++ t) news := by
  have happend := g.append h (g.of_nullFree ht)
  rwa [List.append_nil, List.append_nil] at happend

theorem join {separator : Bytes} (hseparator : separator.NullFree) (h : g.shown es t news) {front back : List Bytes}
    (hfront : ∀ a ∈ front, Bytes.NullFree a) (hback : ∀ a ∈ back, Bytes.NullFree a) :
    g.shown es (Bytes.join separator (front ++ t :: back)) news := by
  induction front with
  | nil =>
    cases back with
    | nil => simpa [Bytes.join] using h
    | cons a back =>
      rw [List.nil_append, Bytes.join, List.intercalate_cons_cons, List.append_assoc]
      exact after h (nullFree_append.mpr ⟨hseparator, nullFree_join hseparator hback⟩)
  | cons a front ih =>
    obtain ⟨ha, hfront⟩ := List.forall_mem_cons.mp hfront
    have hrest := before (ih hfront) hseparator
    rw [List.cons_append, Bytes.join]
    cases front with
    | nil =>
      rw [List.nil_append, List.intercalate_cons_cons, List.append_assoc]
      exact before hrest ha
    | cons b front =>
      rw [List.cons_append, List.intercalate_cons_cons, List.append_assoc]
      exact before hrest ha

end Gallery

theorem Handler.Script.NullFree.each {script : Handler.Script} (h : script.NullFree) :
    script.Each Bytes.NullFree Literal.NullFree := by
  induction h with
  | finish taken => exact .finish taken
  | fail f => exact .fail f
  | add ha _ ih => exact .add ha ih
  | require hhelper _ ih => exact .require hhelper ih

theorem Settings.NullFree.each {settings : Settings} (h : settings.NullFree) :
    settings.Each Bytes.NullFree Literal.NullFree where
  indent := h.indent
  storage := h.storage
  accessor := h.accessor
  handlers g hg owner attributes a hattributes ha := (h.handlers g hg owner attributes a hattributes ha).each

theorem Environment.suits_self (env : Environment) :
    env.Suits ⟨[], fun _ => True⟩ env.patterns env.settings.storage.getter :=
  ⟨fun _ _ _ => rfl, fun _ _ _ => rfl, fun _ _ => rfl⟩

/-- What keeps to texts without null bytes, and numbers no fragments. -/
theorem Rendering.gives_of_keeps {α : Type} {R : α → Prop} {m : Rendering α}
    (hkeeps : Keeps (Progress.Each Bytes.NullFree Literal.NullFree) R m) (hgrows : Grows [] m) : Gives env R m := by
  intro p q a hp hrun
  obtain ⟨hq, ha⟩ := hkeeps hp hrun
  have hfragments := (hgrows p).2 a (by rw [hrun])
  rw [hrun, List.append_nil] at hfragments
  exact ⟨hq, [], .of_eq (Array.toList_inj.mp hfragments), ha, rfl⟩

theorem Rendering.attributesOf_draws (owner : NodeId) {attributes : List Attribute} (h : ∀ a ∈ attributes, a.NullFree) :
    Gives env (fun all => ∀ a ∈ all, Attribute.NullFree a) (attributesOf owner attributes) :=
  gives_of_keeps (attributesOf_each owner h) (attributesOf_follows (c := ⟨[], fun _ => True⟩) ..).grows

namespace Attributes

include h

theorem pending_draws {owner : NodeId} {attributes : List Attribute} (hattributes : ∀ a ∈ attributes, a.NullFree)
    {assignments : List Assignment} (hassignments : ∀ a ∈ assignments, a.NullFree) :
    Gives env (fun left => ∀ a ∈ left, Assignment.NullFree a) (pending env owner attributes assignments) :=
  Rendering.gives_of_keeps (pending_each h.settings.each hattributes hassignments) (pending_follows env.suits_self ..).grows

theorem merge_draws (site : Site) {cs : List Contribution} (hcs : ∀ c ∈ cs, c.NullFree) :
    Gives env Bytes.NullFree (merge env site cs) := by
  rw [merge]
  split
  next set hset => exact .gives_lift fun text hok => nullFree_entries h (Contribution.nullFree_merged? hcs hset) hok
  next =>
    refine .bind (Rendering.require_draws h _ (by decide)) fun accessor haccessor => .gives_lift fun text hok => ?_
    refine h.pattern (by decide) (List.forall_mem_singleton.mpr ?_) hok
    have hcodes : Bytes.NullFree (Bytes.join ", " (Contribution.codes cs)) :=
      nullFree_join (by decide) (Contribution.nullFree_codes hcs)
    exact nullFree_append.mpr ⟨nullFree_append.mpr ⟨nullFree_append.mpr ⟨haccessor, by decide⟩, hcodes⟩, by decide⟩

theorem bare_draws {a : Attribute} (ha : a.NullFree) : Gives env Bytes.NullFree (bare env a) := by
  rw [bare]
  split
  next => exact .gives_lift fun text hok => h.pattern (by decide) (by simp [ha.name]) hok
  next s hs =>
    refine .bind (.gives_lift fun _ => h.snippet (ha.nameExpr s hs)) fun code hcode => ?_
    refine .bind Rendering.freshKey_draws fun temporary htemporary => ?_
    have hassign : Bytes.NullFree (temporary ++ " = " ++ code ++ ";") :=
      nullFree_append.mpr ⟨nullFree_append.mpr ⟨nullFree_append.mpr ⟨htemporary, by decide⟩, hcode⟩, by decide⟩
    refine .bind (.gives_lift fun _ => h.pattern (by decide) (List.forall_mem_singleton.mpr hassign)) fun assign ha => ?_
    refine .bind (.gives_lift fun _ => h.pattern (by decide) (List.forall_mem_singleton.mpr htemporary)) fun key hkey => ?_
    refine .bind (.gives_lift fun _ => h.pattern (by decide) ?_) fun text htext => .gives_pure ?_
    · exact List.forall_mem_cons.mpr ⟨hkey, List.forall_mem_singleton.mpr hkey⟩
    · exact nullFree_append.mpr ⟨ha, htext⟩

theorem known_draws {a : Attribute} (ha : a.NullFree) (escape : Bool) {v : Value} (hv : v.NullFree) :
    Gives env Bytes.NullFree (known env a escape v) := by
  unfold known
  split
  · exact bare_draws h ha
  · exact .gives_pure nullFree_nil
  · exact .gives_pure nullFree_nil
  · refine .gives_lift fun text hok => nullFree_pair h ha ?_ hok
    split
    · exact Entity.nullFree_escape hv.text
    · exact hv.text

theorem single_draws {scope : Scope} (hscope : scope.NullFree) {a : Attribute} (ha : a.NullFree) :
    Gives env Bytes.NullFree (single env scope a) := by
  have hvalue := ha.value
  rw [single]
  split
  next => exact bare_draws h ha
  next value escape heq =>
    rw [heq] at hvalue
    refine .gives_lift fun text hok => nullFree_pair h ha ?_ hok
    split
    · exact Entity.nullFree_escape hvalue
    · exact hvalue
  next s heq =>
    rw [heq] at hvalue
    split
    next w _ => exact known_draws h ha s.escape (Value.each_nullFree.mp w.each_value)
    next =>
      split
      next v hv => exact known_draws h ha s.escape (hscope.scalar? hvalue hv)
      next =>
        refine .bind (.gives_lift fun _ => h.snippet hvalue) fun code hcode => ?_
        refine .bind (.gives_lift fun _ => h.display hcode) fun text htext => ?_
        exact .gives_lift fun _ => nullFree_pair h ha htext
  next => exact .throw _

theorem write_draws {scope : Scope} (hscope : scope.NullFree) (owner : NodeId) (site : Site) {attributes : List Attribute}
    (hattributes : ∀ a ∈ attributes, a.NullFree) {assignments : List Assignment}
    (hassignments : ∀ a ∈ assignments, a.NullFree) :
    Gives env Bytes.NullFree (write env scope owner site attributes assignments) := by
  rw [write]
  refine .bind (pending_draws h hattributes hassignments) fun left hleft => ?_
  refine .bind (Rendering.attributesOf_draws owner hattributes) fun all hall => ?_
  split
  · refine .bind (.gives_lift fun cs => Contribution.nullFree_collect h hscope hall hleft) fun cs hcs => ?_
    exact merge_draws h site hcs
  · refine .bind (.mapM fun a ha => single_draws h hscope (hall a ha)) fun texts htexts => .gives_pure ?_
    exact nullFree_flatten htexts

end Attributes

namespace Expansion

/-- The actual arguments show the nodes of the block and have no null bytes besides. -/
structure Actuals.Shown (g : Gallery env) (es : List Element) (a : Actuals) (news : List (Nat × Element)) : Prop where
  setup : a.setup.NullFree
  attributes : a.attributes.NullFree
  known : ∀ es, a.known = some es → NullFreeEntries es
  block : g.shown es a.block news
  args : ∀ c ∈ a.args, Bytes.NullFree c

theorem Actuals.each_iff_shown {g : Gallery env} {es : List Element} {a : Actuals} {news : List (Nat × Element)} :
    a.Each Texture.nullFree.Holds (g.shown es · news) ↔ a.Shown g es news := by
  have hentries {es : List (Key × Value)} : EachEntry Bytes.NullFree es ↔ NullFreeEntries es := by
    rw [← eachEntry_nullFree, Texture.holds_nullFree_eq]
  rw [Texture.holds_nullFree_eq]
  constructor
  · intro ha
    exact ⟨ha.setup, ha.attributes, fun es hes => hentries.mp (ha.known es hes), ha.block, ha.args⟩
  · intro ha
    exact ⟨ha.setup, ha.attributes, fun es hes => hentries.mpr (ha.known es hes), ha.block, ha.args⟩

include h

theorem attributes_draws {scope : Scope} (hscope : scope.NullFree) (id : NodeId) (site : Site) {call : Call}
    (hcall : call.Each Bytes.NullFree Literal.NullFree) (m : Mixin) {b : Binding} (hb : b.NullFree) :
    Gives env (fun r => r.1.NullFree ∧ ∀ es, r.2 = some es → NullFreeEntries es)
      (attributes env scope id site call m b) := by
  have hkeeps := attributes_holds h.weaves (Texture.holds_nullFree_eq ▸ h.settings.each) (Scope.each_nullFree.mpr hscope) id
    site (Texture.holds_nullFree_eq ▸ hcall) m hb.each
  rw [Texture.holds_nullFree_eq] at hkeeps
  refine Rendering.gives_of_keeps (hkeeps.mono fun r hr => ?_) (attributes_follows env.suits_self ..).grows
  exact ⟨hr.1, fun es hes => eachEntry_nullFree.mp (Texture.holds_nullFree_eq ▸ hr.2 es hes)⟩

theorem spreadArguments_draws {call : Call} (hcall : call.Each Bytes.NullFree Literal.NullFree) :
    Gives env (fun args => ∀ a ∈ args, Bytes.NullFree a) (spreadArguments env call) := by
  have hkeeps := spreadArguments_holds h.weaves hcall.args
  rw [Texture.holds_nullFree_eq] at hkeeps
  exact Rendering.gives_of_keeps hkeeps (spreadArguments_follows env.suits_self call).grows

theorem spreadAttributes_draws (site : Site) {call : Call} (hcall : call.Each Bytes.NullFree Literal.NullFree) (m : Mixin)
    {g : Gallery env} {a : Actuals} {es : List Element} {news : List (Nat × Element)} (ha : a.Shown g es news) :
    Gives env (fun a => a.Shown g es news) (spreadAttributes env site call m a) := by
  have hkeeps := spreadAttributes_each (B := Bytewise.nullFree) h.weaves site hcall.args m (Actuals.each_iff_shown.mpr ha)
  rw [show Bytewise.nullFree.texture.Holds = Bytes.NullFree from Texture.holds_nullFree_eq] at hkeeps
  refine Rendering.gives_of_keeps (hkeeps.mono fun b hb => ?_) (spreadAttributes_follows env.suits_self ..).grows
  exact Actuals.each_iff_shown.mp (Texture.holds_nullFree_eq ▸ hb)

end Expansion

/-- Markup in a pattern is passed on whole. -/
def Environment.Carries (env : Environment) : Prop :=
  ∀ name ∈ Session.carriers, ∃ lead tail : Bytes, lead.NullFree ∧ tail.NullFree ∧
    ∀ arg text, Pattern.render env.patterns name [arg] = .ok text → text = lead ++ (arg ++ tail)

def Environment.Carries.gallery (hc : env.Carries) : Gallery env where
  shown := Shown env
  of_nullFree := .of_nullFree
  append := .append
  carry hname _ _ arg text _ harg hok := by
    obtain ⟨lead, tail, hlead, htail, hrender⟩ := hc _ hname
    have hshown := (Shown.of_nullFree hlead).append (harg.append (.of_nullFree htail))
    rw [hrender arg text (mapError_eq_ok hok)]
    rwa [List.append_nil, List.append_nil] at hshown
  spot hdrawn hrest := by
    obtain ⟨spots, hlays, rfl, rfl⟩ := hrest
    exact ⟨_, Lays.single hdrawn hlays, rfl, rfl⟩

section Children

variable {g : Gallery env} {below : Element → List Element} {render : Expansion.Render}
  (hr : ∀ scope es, scope.NullFree → (∀ e ∈ es, Element.NullFree e) →
    Draws env (g.shown (es.flatMap below)) (render scope es))

namespace Expansion

theorem nullFree_formals {m : Mixin} (hm : m.Each Bytes.NullFree) : ∀ f ∈ formals m, Bytes.NullFree f := by
  rw [← Texture.holds_nullFree_eq] at hm ⊢
  exact holds_formals hm

include h hr

theorem block_draws {scope : Scope} (hscope : scope.NullFree) (site : Site) {children : List Element}
    (hchildren : ∀ e ∈ children, Element.NullFree e) :
    Draws env (fun r news => r.1.NullFree ∧ g.shown (children.flatMap below) r.2 news)
      (block env render scope site children) := by
  rw [block]
  split
  next hempty =>
    rw [List.isEmpty_iff.mp hempty]
    exact .pure ⟨nullFree_nil, g.of_nullFree (by decide)⟩
  next =>
    refine .followedBy (hr scope children hscope hchildren) fun body news hbody => ?_
    refine .bind Rendering.freshScope_draws fun n _ => ?_
    refine .bind (.gives_lift fun inner => g.carry (by decide) hbody) fun inner hinner => .gives_pure ?_
    have hsaved : Bytes.NullFree ("$__pug_scope_" ++ Bytes.ofNat n) := nullFree_append.mpr ⟨by decide, nullFree_ofNat n⟩
    have hcaptures := h.captures (List.forall_mem_singleton.mpr hsaved)
    refine ⟨nullFree_append.mpr ⟨hsaved, by decide⟩, Gallery.after (Gallery.before hinner ?_) (by decide)⟩
    simp only [nullFree_append, hcaptures, nullFree_ofNat, and_true]
    decide

theorem actuals_draws {scope : Scope} (hscope : scope.NullFree) (id : NodeId) (site : Site) {call : Call}
    (hcall : call.Each Bytes.NullFree Literal.NullFree) {children : List Element}
    (hchildren : ∀ e ∈ children, Element.NullFree e) (m : Mixin) {b : Binding} (hb : b.NullFree) :
    Draws env (Actuals.Shown g (children.flatMap below)) (actuals env render scope id site call children m b) := by
  rw [actuals]
  refine .followedBy (block_draws h hr hscope site hchildren) fun block news hblock => ?_
  refine .bind (attributes_draws h hscope id site hcall m hb) fun attributes hattributes => ?_
  have hplain {args : List Bytes} (hargs : ∀ a ∈ args, Bytes.NullFree a) :
      Actuals.Shown g (children.flatMap below) ⟨block.1, attributes.1, attributes.2, block.2, args⟩ news :=
    ⟨hblock.1, hattributes.1, hattributes.2, hblock.2, hargs⟩
  dsimp only
  split
  · refine .bind (spreadArguments_draws h hcall) fun args hargs => ?_
    split
    · exact spreadAttributes_draws h site hcall m (hplain hargs)
    · exact .gives_pure (hplain hargs)
  · refine .bind (.gives_lift fun args => nullFree_boundArguments h hscope hb) fun args hargs => ?_
    split
    · exact spreadAttributes_draws h site hcall m (hplain hargs)
    · exact .gives_pure (hplain hargs)

/-- The body of the mixin stands before the block of the call, although the block is rendered first. -/
theorem write_draws {scope : Scope} (hscope : scope.NullFree) (id : NodeId) (site : Site) {call : Call}
    (hcall : call.Each Bytes.NullFree Literal.NullFree) {children : List Element}
    (hchildren : ∀ e ∈ children, Element.NullFree e) :
    Draws env (g.shown ((Element.findMixin? env.mixins call.name).toList.flatMap (fun d => d.body.flatMap below) ++
      children.flatMap below)) (write env render scope id site call children) := by
  rw [write]
  cases hfind : Element.findMixin? env.mixins call.name with
  | none => exact .throw _
  | some d =>
    obtain ⟨hmixin, hbody⟩ := h.mixins d (Element.mem_of_findMixin? hfind)
    rw [Option.toList_some, List.flatMap_singleton]
    refine .bind (Rendering.attributesOf_draws id hcall.attributes) fun all hall => ?_
    have hb : (Binding.ofCall d.mixin call.args all).NullFree := Binding.nullFree_ofCall hcall.args hall
    dsimp only
    split
    on_goal 1 => refine .bind (Rendering.say_draws ..) fun _ _ => ?_
    all_goals
      refine .seq (actuals_draws h hr hscope id site hcall hchildren d.mixin hb) fun a news ha => ?_
      refine .bind (Rendering.say_draws ..) fun _ _ => ?_
      refine .followedBy (hr _ _ (hscope.entering ha.known) hbody) fun body more hshown => ?_
      refine .bind (.gives_lift fun inner => g.carry (by decide) hshown) fun inner hinner => ?_
      refine .gives_lift fun text hok => ⟨more ++ news, List.perm_append_comm, g.carry (by decide) ?_ hok⟩
      have hformals : Bytes.NullFree (Bytes.join ", " (formals d.mixin)) :=
        nullFree_join (by decide) (nullFree_formals hmixin)
      have hcaptures := h.captures (List.forall_mem_nil Bytes.NullFree)
      have hargs : g.shown (children.flatMap below) (Bytes.join ", " (a.attributes :: a.block :: a.args)) news :=
        Gallery.join (by decide) ha.block (List.forall_mem_singleton.mpr ha.attributes) ha.args
      refine Gallery.after (g.append (Gallery.after (Gallery.before hinner ?_) (by decide)) hargs) (by decide)
      simp only [nullFree_append, ha.setup, hformals, hcaptures, true_and, and_true]
      decide

end Expansion

namespace Render

def own (e : Element) : List Element := if e.origin.isSome then [e] else []

/-- The nodes with an origin that are written at a node, in the order of the output; `below` gives those of the nodes
inside it and of the bodies of mixins. -/
def contentOccurrences (mixins : List Element.Declaration) (below : Element → List Element) (e : Element) :
    List Element :=
  match e.content with
  | .mixin _ | .stray _ => []
  | .markup _ | .document | .code _ => own e ++ e.children.flatMap below
  | .call call =>
    own e ++ ((Element.findMixin? mixins call.name).toList.flatMap (fun d => d.body.flatMap below) ++
      e.children.flatMap below)
  | _ => own e

/-- The nodes with an origin that are written for a node and everything below it, at most `budget` nodes and expansions
deep. A node in the body of a mixin occurs once for each expansion. -/
def nodeOccurrences (mixins : List Element.Declaration) : (budget : Nat) → Element → List Element
  | 0, _ => []
  | budget + 1, e => contentOccurrences mixins (nodeOccurrences mixins budget) e

/-- The nodes with an origin that are written for a tree; a tree that is rendered is nowhere deeper than the limit. -/
def occurrences (settings : Settings) (e : Element) : List Element :=
  nodeOccurrences e.declarations settings.maxDepth e

/-- The text shows the nodes `es`; if the node `e` is the first of them, its mark stands at the start. -/
def Rooted (g : Gallery env) (scope : Scope) (e : Element) (es : List Element) (t : Bytes)
    (news : List (Nat × Element)) : Prop :=
  g.shown es t news ∨ ∃ lead id rest inner below, Spot.Lead env scope lead ∧ t = lead ++ (Page.mark id ++ rest) ∧
    news = (id, e) :: inner ∧ g.shown below rest inner ∧ es = e :: below

theorem setBlockSeen_draws (b : Bool) :
    Gives env (fun _ => True) (modify fun p => { p with blockSeen := b } : Rendering Unit) :=
  .modify (fun _ hp => hp) fun _ => rfl

theorem rooted_of_mark {scope : Scope} {lead mark text : Bytes} (hlead : Spot.Lead env scope lead) (hfree : lead.NullFree)
    {e : Element} {news more : List (Nat × Element)} (hmark : Spot.Marks e mark news) {es : List Element}
    (htext : g.shown es text more) : Rooted g scope e (own e ++ es) (lead ++ mark ++ text) (news ++ more) := by
  rw [List.append_assoc]
  rcases hmark with ⟨hnone, rfl, rfl⟩ | ⟨id, hsome, rfl, rfl⟩
  · left
    rw [own, hnone]
    exact Gallery.before htext hfree
  · right
    refine ⟨lead, id, text, more, es, hlead, rfl, rfl, htext, ?_⟩
    rw [own, if_pos hsome]
    rfl

theorem marked_draws (e : Element) (scope : Scope) {es : List Element} {text : Rendering Bytes}
    (ht : Draws env (g.shown es) text) : Draws env (Rooted g scope e (own e ++ es)) (marked env e.origin text) := by
  -- The node is numbered after those inside it, but its mark stands before theirs.
  refine .seq ht fun t news hshown => .followedBy (Rendering.mark_draws env e) fun mark more hmark => .gives_pure ?_
  exact ⟨more ++ news, List.perm_append_comm, rooted_of_mark (.inl rfl) nullFree_nil hmark hshown⟩

theorem draws_of_nullFree {e : Except Failure Bytes} (he : ∀ text, e = .ok text → text.NullFree) :
    Draws env (g.shown []) (liftM e : Rendering Bytes) := .lift fun text hok => g.of_nullFree (he text hok)

theorem leaf_draws (e : Element) (scope : Scope) {text : Rendering Bytes} (ht : Draws env (g.shown []) text) :
    Draws env (Rooted g scope e (own e)) (marked env e.origin text) := by
  have h := marked_draws e scope ht
  rwa [List.append_nil] at h

theorem nullFree_declaration? {value text : Bytes} (hvalue : value.NullFree) (h : Dialect.declaration? value = some text) :
    text.NullFree := by
  have hdoctypes : ∀ d ∈ Dialect.doctypes, d.2.NullFree := by decide +kernel
  rw [Dialect.declaration?] at h
  split at h
  · cases h
  · cases h
    rw [Dictionary.get?]
    cases hfind : Dialect.doctypes.find? (·.1 == Text.lower value) with
    | none => exact nullFree_append.mpr ⟨nullFree_append.mpr ⟨by decide, hvalue⟩, by decide⟩
    | some d => exact hdoctypes d (List.mem_of_find?_eq_some hfind)

section

include hr

theorem inner_draws {scope : Scope} (hscope : scope.NullFree) {children : List Element}
    (hchildren : ∀ e ∈ children, Element.NullFree e) :
    Draws env (fun r news => g.shown (children.flatMap below) r.1 news) (inner render scope children) := by
  refine .get fun p _ => .bind (setBlockSeen_draws false) fun _ _ => ?_
  refine .followedBy (hr scope children hscope hchildren) fun text news hshown => ?_
  refine .get fun q _ => .bind (setBlockSeen_draws _) fun _ _ => .gives_pure hshown

include h

theorem pair_draws {scope : Scope} (hscope : scope.NullFree) (site : Site) {name attributes : Bytes} (hname : name.NullFree)
    (hattributes : attributes.NullFree) (block : Bool) {children : List Element}
    (hchildren : ∀ e ∈ children, Element.NullFree e) :
    Draws env (g.shown (children.flatMap below)) (pair env render scope site name attributes block children) := by
  rw [pair]
  have hopening : ∀ a ∈ [name ++ attributes], Bytes.NullFree a :=
    List.forall_mem_singleton.mpr (nullFree_append.mpr ⟨hname, hattributes⟩)
  refine .bind (.gives_lift fun _ => h.pattern (by decide) hopening) fun opening hopening => ?_
  refine .bind (.gives_lift fun _ => h.pattern (by decide) (List.forall_mem_singleton.mpr hname)) fun closing hclosing => ?_
  have hinner : (if block then scope.indented else scope).NullFree := by
    split <;> exact hscope
  refine .followedBy (inner_draws hr hinner hchildren) fun r news hshown => .gives_pure ?_
  refine Gallery.after (Gallery.after (Gallery.before hshown hopening) ?_) hclosing
  split
  · exact h.indentation scope
  · exact nullFree_nil

theorem markup_draws {scope : Scope} (hscope : scope.NullFree) (id : NodeId) (origin : Option Origin) (site : Site)
    {tag : Tag} (htag : tag.Each Bytes.NullFree Literal.NullFree) {children : List Element}
    (hchildren : ∀ e ∈ children, Element.NullFree e) :
    Draws env (Rooted g scope (.node id origin (.markup tag) children)
        (own (.node id origin (.markup tag) children) ++ children.flatMap below))
      (markup env render scope id origin site tag children) := by
  have hname (text : Bytes) (hok : tagName env site tag = .ok text) : text.NullFree := by
    rw [tagName] at hok
    split at hok
    next =>
      cases hok
      exact htag.name
    next s hs =>
      obtain ⟨code, hcode, hok⟩ := bind_eq_ok hok
      exact h.pattern (by decide) (List.forall_mem_singleton.mpr (h.snippet (htag.nameExpr s hs) hcode)) hok
  have hlead (b : Bool) : Spot.Lead env scope (if env.settings.pretty && b then env.indentation scope else []) ∧
      Bytes.NullFree (if env.settings.pretty && b then env.indentation scope else []) := by
    split
    next hpretty => exact ⟨.inr ⟨(Bool.and_eq_true_iff.mp hpretty).1, rfl⟩, h.indentation scope⟩
    next => exact ⟨.inl rfl, nullFree_nil⟩
  rw [markup]
  refine .bind (.gives_lift hname) fun name hname => ?_
  dsimp only
  split
  next => exact .throw _
  next hclosed =>
    refine .bind (Attributes.write_draws h hscope id site htag.attributes htag.assignments) fun attributes hattributes => ?_
    -- A tag is numbered before the nodes inside it, unlike all other nodes.
    refine .seq (Rendering.mark_draws env (.node id origin (.markup tag) children)) fun mark news hmark => ?_
    obtain ⟨hlead, hfree⟩ := hlead (env.dialect.startsLine tag)
    split
    next hclosing =>
      obtain rfl : children = [] := by simpa [hclosing] using hclosed
      have hargs : ∀ a ∈ [name ++ attributes], Bytes.NullFree a :=
        List.forall_mem_singleton.mpr (nullFree_append.mpr ⟨hname, hattributes⟩)
      refine .bind (.gives_lift fun _ => h.pattern (by decide) hargs) fun text htext => ?_
      have hrooted := rooted_of_mark hlead hfree hmark (g.of_nullFree htext)
      split
      · exact .bind (setBlockSeen_draws true) fun _ _ => .pure ⟨_, .refl _, hrooted⟩
      · exact .pure ⟨_, .refl _, hrooted⟩
    next =>
      refine .followedBy (pair_draws h hr hscope site hname hattributes _ hchildren) fun text more htext => ?_
      have hrooted := rooted_of_mark hlead hfree hmark htext
      split
      · exact .bind (setBlockSeen_draws true) fun _ _ => .gives_pure ⟨_, .refl _, hrooted⟩
      · exact .gives_pure ⟨_, .refl _, hrooted⟩

theorem code_draws {scope : Scope} (hscope : scope.NullFree) (site : Site) {source : Bytes} (hsource : source.NullFree)
    {children : List Element} (hchildren : ∀ e ∈ children, Element.NullFree e) :
    Draws env (g.shown (children.flatMap below)) (code env render scope site source children) := by
  rw [code]
  refine .bind (.gives_lift fun _ => h.code hsource) fun code hcode => ?_
  split
  next hempty =>
    rw [List.isEmpty_iff.mp hempty]
    exact draws_of_nullFree fun _ => h.pattern (by decide) (List.forall_mem_singleton.mpr hcode)
  next =>
    refine .followedBy (hr scope children hscope hchildren) fun body news hbody => ?_
    split
    · refine .bind (.gives_lift fun inner => g.carry (by decide) hbody) fun inner hinner => ?_
      refine .bind (.gives_lift fun block => g.carry (by decide) hinner) fun block hblock => ?_
      exact .gives_lift fun _ => g.carry (by decide) (Gallery.before hblock hcode)
    · refine .bind (.gives_lift fun _ => h.pattern (by decide) (List.forall_mem_singleton.mpr hcode)) fun text htext => ?_
      exact .gives_pure (Gallery.before hbody htext)

theorem content_draws {scope : Scope} (hscope : scope.NullFree) {e : Element} (he : e.NullFree) :
    Draws env (Rooted g scope e (contentOccurrences env.mixins below e)) (content env render scope e) := by
  obtain @⟨id, origin, content, children, hcontent, hchildren⟩ := he
  cases content with
  | markup tag => exact markup_draws h hr hscope id origin _ hcontent hchildren
  | mixin m => exact .pure (.inl (g.of_nullFree nullFree_nil))
  | document => exact marked_draws (.node id origin .document children) scope (hr scope children hscope hchildren)
  | doctype value =>
    refine leaf_draws (.node id origin (.doctype value) children) scope (draws_of_nullFree fun text hok => ?_)
    rw [doctype] at hok
    split at hok
    next declaration hdeclaration =>
      cases hok
      exact nullFree_declaration? hcontent hdeclaration
    next => exact h.pattern (by decide) (List.forall_mem_nil _) hok
  | text value =>
    refine leaf_draws (.node id origin (.text value) children) scope (.pure (g.of_nullFree ?_))
    rw [text]
    split
    · exact Entity.nullFree_escape hcontent
    · exact hcontent
  | code source =>
    exact marked_draws (.node id origin (.code source) children) scope (code_draws h hr hscope _ hcontent hchildren)
  | expression s =>
    refine leaf_draws (.node id origin (.expression s) children) scope (draws_of_nullFree fun text hok => ?_)
    rw [expression] at hok
    split at hok
    next v hv =>
      have hv := hscope.scalar? hcontent hv
      cases hok
      split
      · exact Entity.nullFree_escape hv.text
      · exact hv.text
    next =>
      obtain ⟨code, hcode, hok⟩ := bind_eq_ok hok
      exact h.display (h.snippet hcontent hcode) hok
  | binding name value =>
    refine leaf_draws (.node id origin (.binding name value) children) scope (draws_of_nullFree fun text hok => ?_)
    cases value with
    | none => cases hok
    | some s =>
      obtain ⟨code, hcode, hok⟩ := bind_eq_ok hok
      refine h.pattern (by decide) (List.forall_mem_singleton.mpr ?_) hok
      exact nullFree_append.mpr ⟨nullFree_append.mpr ⟨hcontent.1, by decide⟩, h.snippet (hcontent.2 s rfl) hcode⟩
  | call call =>
    exact marked_draws (.node id origin (.call call) children) scope
      (Expansion.write_draws h hr hscope id _ hcontent hchildren)
  | block =>
    refine leaf_draws (.node id origin .block children) scope (draws_of_nullFree fun text hok => ?_)
    rw [block] at hok
    split at hok
    · cases hok
      exact nullFree_nil
    · exact h.pattern (by decide) (by decide) hok
  | stray kind => exact .throw _

end

end Render

end Children

namespace Render

theorem listFrom_draws {g : Gallery env} {one : Element → Rendering Bytes} {below : Element → List Element}
    {es : List Element} (ho : ∀ e ∈ es, Draws env (g.shown (below e)) (one e)) (before : Option Forest.Text) :
    Draws env (g.shown (es.flatMap below)) (listFrom one before es) := by
  induction es generalizing before with
  | nil => exact .pure (g.of_nullFree nullFree_nil)
  | cons e es ih =>
    obtain ⟨he, hes⟩ := List.forall_mem_cons.mp ho
    rw [listFrom]
    refine .seq he fun first news hfirst => .followedBy (ih hes _) fun rest more hrest => .gives_pure ?_
    refine ⟨news ++ more, .refl _, g.append (Gallery.before hfirst ?_) hrest⟩
    unfold separator
    split
    · split
      · decide
      · exact nullFree_nil
    · exact nullFree_nil

variable (g : Gallery env)
include h

/-- The text of a node shows the nodes with an origin that are written for it. -/
theorem node_draws (budget : Nat) {scope : Scope} (hscope : scope.NullFree) {e : Element} (he : e.NullFree) :
    Draws env (g.shown (nodeOccurrences env.mixins budget e)) (node env budget scope e) := by
  induction budget generalizing scope e with
  | zero => exact .throw _
  | succ budget ih =>
    intro p q t hp hrun
    have hcontent := content_draws h (fun scope es hscope hes => listFrom_draws (fun e he => ih hscope (hes e he)) none)
      hscope he
    obtain ⟨hq, news, hnews, hrooted⟩ := hcontent hp hrun
    refine ⟨hq, news, hnews, ?_⟩
    rw [nodeOccurrences]
    rcases hrooted with hshown | ⟨lead, id, rest, inner, below, hlead, rfl, rfl, hbelow, hes⟩
    · exact hshown
    · -- The run itself shows that the mark is the node's.
      have hdrawn : Spot.Drawn env ⟨id, e, rest⟩ := ⟨budget + 1, scope, p, q, lead, hlead, hrun⟩
      have hfree : lead.NullFree := by
        rcases hlead with rfl | ⟨-, rfl⟩
        · exact nullFree_nil
        · exact h.indentation scope
      rw [hes]
      exact Gallery.before (g.spot hdrawn hbelow) hfree

end Render

end Stencil
