import Stencil.Proofs.Compile.Builtin
import Stencil.Proofs.Compile.Covers
import Stencil.Proofs.Compile.History
import Stencil.Proofs.Forest.Growth

/-! The failures of a page. Where the options bring neither producers nor handlers and every dialect is made from a
built-in one, the patterns that pages are written with are always there, whatever the session did before. So a page
comes out unless no dialect could be built or something is wrong at a node of the tree, which the failure names. -/

namespace Stencil

namespace Forest

/-- A failure names a node by its kind and where it was written. -/
def Node.site (n : Node) : Site := ⟨n.content.kindName, n.origin⟩

/-- The node has no output of its own where it stands. -/
inductive Misplaced (f : Forest) (id : NodeId) : Content → Prop
  | attr (a : Attribute) : Misplaced f id (.attr a)
  | assignment (name : Bytes) : Misplaced f id (.assignment name)
  /-- The name is bound to no expression. -/
  | binding {name : Bytes} {value : Option NodeId} (h : value.bind f.snippet? = none) : Misplaced f id (.binding name value)
  /-- The node is the value of an attribute, and neither a text nor an expression. -/
  | value {content : Content} {owner : NodeId} {a : Attribute} (howner : f.content? owner = some (.attr a))
      (hvalue : a.value = some id) (htext : ∀ t, content ≠ .text t) (hexpression : ∀ e, content ≠ .expression e) :
      Misplaced f id content

/-- What is wrong at a node, where the mixins are `ds` and nodes nest at most `limit` deep. -/
inductive Wrong (f : Forest) (ds : List Element.Declaration) (limit : Nat) (id : NodeId) (n : Node) : Failure → Prop
  | expression {e : Expression} {fault : Fault} (hn : n.content = .expression e) (h : Unreadable e.source fault) :
      Wrong f ds limit id n (.badExpression n.site e.source fault)
  | code {source : Bytes} {fault : Fault} (hn : n.content = .code source) (h : Unreadable source fault) :
      Wrong f ds limit id n (.badExpression n.site source fault)
  | children {t : Tag} (hn : n.content = .markup t) (h : n.children ≠ []) :
      Wrong f ds limit id n (.incompatibleChildren n.site (((t.nameExpr.bind f.snippet?).map (·.source)).getD t.name))
  | assignment {name : Bytes} (hn : n.content = .assignment name) (h : Attributes.isBuiltin name = false) :
      Wrong f ds limit id n (.unhandledAssignment n.site name)
  | mixin {c : Call} (hn : n.content = .call c) (h : Element.findMixin? ds c.name = none) :
      Wrong f ds limit id n (.undeclaredMixin n.site c.name)
  | depth : Wrong f ds limit id n (.tooDeep n.site limit)
  | place (h : f.Misplaced id n.content) : Wrong f ds limit id n (.unexpectedNode n.site)

/-- The failure is about something that is wrong at a node of the tree. -/
def Blames (f : Forest) (root : NodeId) (ds : List Element.Declaration) (limit : Nat) (failure : Failure) : Prop :=
  ∃ id n, f.Above root id ∧ f.get? id = some n ∧ f.Wrong ds limit id n failure

variable {f : Forest} {root id c : NodeId} {n : Node} {ds : List Element.Declaration} {limit : Nat}

theorem Wrong.site? {failure : Failure} (h : f.Wrong ds limit id n failure) : failure.site? = some n.site := by
  cases h <;> rfl

theorem kindName_elementContent (f : Forest) (id : NodeId) (content : Content) :
    (f.elementContent id content).kindName = content.kindName := by
  cases content <;> rfl

theorem exists_get?_of_content? {content : Content} (h : f.content? id = some content) :
    ∃ n, f.get? id = some n ∧ n.content = content ∧ n.origin = f.origin id := by
  obtain ⟨n, hn, hcontent⟩ := Option.map_eq_some_iff.mp h
  exact ⟨n, hn, hcontent, by rw [origin, hn]; rfl⟩

theorem mem_below_of_mem_children (h : f.get? id = some n) (hc : c ∈ n.children) : c ∈ f.below id := by
  rw [below, children, h]
  exact List.mem_append_left _ hc

theorem mem_below_of_mem_owned {content : Content} (h : f.content? id = some content) (hc : c ∈ content.owned) :
    c ∈ f.below id := by
  rw [below, owned, h]
  exact List.mem_append_right _ hc

theorem Planted.above_of_mem_below (hf : f.Planted) (h : f.Above root id) (hc : c ∈ f.below id) : f.Above root c :=
  .head ((hf.mem_below id c).mp hc) h

variable {P : Failure → Prop} (hP : ∀ failure, f.Blames root ds limit failure → P failure)
include hP

theorem snippet_covered {s : Snippet} (h : f.Above root id) (hs : f.snippet? id = some s) :
    s.Covered P := by
  rw [snippet?] at hs
  split at hs
  next e he =>
    obtain ⟨n, hn, hcontent, horigin⟩ := exists_get?_of_content? he
    obtain rfl := Option.some.inj hs
    intro fault hfault
    have hwrong : f.Wrong ds limit id n _ := .expression hcontent hfault
    rw [Node.site, hcontent, horigin] at hwrong
    exact hP _ ⟨id, n, h, hn, hwrong⟩
  next => cases hs

variable (hf : f.Planted)
include hf

theorem attribute_covered {a : Stencil.Attribute} (h : f.Above root id) (ha : f.attribute? id = some a) :
    a.Covered P := by
  rw [attribute?] at ha
  split at ha
  next attr hattr =>
    obtain rfl := Option.some.inj ha
    have hbelow {c : NodeId} (hc : c ∈ attr.nameExpr.toList ++ attr.value.toList) : f.Above root c :=
      hf.above_of_mem_below h (mem_below_of_mem_owned hattr hc)
    have hvalue {c : NodeId} (hc : attr.value = some c) : f.Above root c := hbelow (by simp [hc])
    refine ⟨fun s hs => ?_, fun s hs => ?_, fun site hsite => ?_⟩
    · obtain ⟨c, hc, hs⟩ := Option.bind_eq_some_iff.mp hs
      exact snippet_covered hP (hbelow (by simp [hc])) hs
    · dsimp only at hs
      rw [attributeValue.eq_def] at hs
      split at hs
      next => cases hs
      next c hc =>
        split at hs <;> cases hs
        next e he => exact snippet_covered hP (hvalue hc) (by rw [snippet?, he])
    · dsimp only at hsite
      rw [attributeValue.eq_def] at hsite
      split at hsite
      next => cases hsite
      next c hc =>
        split at hsite <;> cases hsite
        next content htext hexpression hcontent =>
          obtain ⟨n, hn, rfl, horigin⟩ := exists_get?_of_content? hcontent
          rw [← horigin]
          exact hP _ ⟨c, n, hvalue hc, hn, .place (.value hattr hc htext hexpression)⟩
  next => cases ha

theorem assignment_covered {a : Assignment} (h : f.Above root id) (ha : f.assignment? id = some a) :
    a.Covered P := by
  rw [assignment?] at ha
  split at ha
  next name hname =>
    obtain rfl := Option.some.inj ha
    obtain ⟨n, hn, hcontent, horigin⟩ := exists_get?_of_content? hname
    refine ⟨fun s hs => ?_, fun hbuiltin => ?_⟩
    · obtain ⟨c, hc, hs⟩ := List.mem_filterMap.mp hs
      rw [children, hn] at hc
      exact snippet_covered hP (hf.above_of_mem_below h (mem_below_of_mem_children hn hc)) hs
    · have hwrong : f.Wrong ds limit id n _ := .assignment hcontent hbuiltin
      rw [Node.site, hcontent, horigin] at hwrong
      exact hP _ ⟨id, n, h, hn, hwrong⟩
  next => cases ha

theorem content_covered (h : f.Above root id) (hn : f.get? id = some n) {es : List Element}
    (hes : es ≠ [] → n.children ≠ []) :
    (f.elementContent id n.content).Covered P ds n.site es := by
  have hwrong {failure : Failure} (hw : f.Wrong ds limit id n failure) : P failure :=
    hP _ ⟨id, n, h, hn, hw⟩
  have hcontent : f.content? id = some n.content := by rw [content?, hn]; rfl
  have hbelow {c : NodeId} (hc : c ∈ n.content.owned) : f.Above root c :=
    hf.above_of_mem_below h (mem_below_of_mem_owned hcontent hc)
  have hself {s : Snippet} (hs : f.snippet? id = some s) : s.Covered P := snippet_covered hP h hs
  cases hc : n.content with
  | document | doctype | text | mixin | block => trivial
  | attr | assignment => exact hwrong (.place (hc ▸ by constructor))
  | code source => exact fun fault hfault => hwrong (.code hc hfault)
  | expression e => exact hself (by rw [snippet?, hcontent, hc])
  | binding name value =>
    refine ⟨fun hnone => hwrong (.place (hc ▸ .binding hnone)), fun s hs => ?_⟩
    obtain ⟨c, hvalue, hs⟩ := Option.bind_eq_some_iff.mp hs
    exact snippet_covered hP (hbelow (by simp [hc, Content.owned, hvalue])) hs
  | markup t =>
    refine ⟨fun s hs => ?_, fun a ha => ?_, fun a ha => ?_, fun hne => hwrong (.children hc (hes hne))⟩
    · obtain ⟨c, hname, hs⟩ := Option.bind_eq_some_iff.mp hs
      exact snippet_covered hP (hbelow (by simp [hc, Content.owned, hname])) hs
    · obtain ⟨c, hmem, ha⟩ := List.mem_filterMap.mp ha
      exact attribute_covered hP hf (hbelow (by simp [hc, Content.owned, hmem])) ha
    · obtain ⟨c, hmem, ha⟩ := List.mem_filterMap.mp ha
      exact assignment_covered hP hf (hbelow (by simp [hc, Content.owned, hmem])) ha
  | call call =>
    refine ⟨fun a ha => ?_, fun a ha => ?_, fun a ha => ?_, fun hnone => hwrong (.mixin hc hnone)⟩
    · obtain ⟨arg, hmem, ha⟩ := List.mem_filterMap.mp ha
      obtain ⟨s, hs, rfl⟩ := Option.map_eq_some_iff.mp ha
      exact snippet_covered hP (hbelow (by simpa [hc, Content.owned] using .inl ⟨arg, hmem, rfl⟩)) hs
    · obtain ⟨c, hmem, ha⟩ := List.mem_filterMap.mp ha
      exact attribute_covered hP hf (hbelow (by simp [hc, Content.owned, hmem])) ha
    · obtain ⟨c, hmem, ha⟩ := List.mem_filterMap.mp ha
      exact assignment_covered hP hf (hbelow (by simp [hc, Content.owned, hmem])) ha

/-- The fuel lasts as long as there are nodes: it and the way down from the root make up their number. -/
theorem elementFrom_covered (fuel : Nat) {k : Nat} (hfuel : fuel + k = f.size + 1) (hk : f.climb k id = some root)
    (hid : id < f.size) : (f.elementFrom fuel id).Covered P limit ds := by
  induction fuel generalizing k id with
  | zero =>
    rw [Nat.zero_add] at hfuel
    rw [hfuel, hf.acyclic.climb_eq_none] at hk
    cases hk
  | succ fuel ih =>
    obtain ⟨n, hn⟩ := exists_get? hid
    have habove : f.Above root id := above_iff_climb.mpr ⟨k, hk⟩
    rw [elementFrom, hn]
    dsimp only
    have hsite : (⟨(f.elementContent id n.content).kindName, n.origin⟩ : Site) = n.site := by
      rw [kindName_elementContent, Node.site]
    refine .node ?_ ?_ (List.forall_mem_map.mpr fun c hc => ?_)
    · rw [hsite]
      exact hP _ ⟨id, n, habove, hn, .depth⟩
    · rw [hsite]
      exact content_covered hP hf habove hn fun hne hnil => hne (by rw [hnil]; rfl)
    · have hparent : f.parent c = some id := (hf.mem_below id c).mp (mem_below_of_mem_children hn hc)
      refine ih (k := k + 1) (by omega) ?_ (lt_size_of_parent hparent)
      rw [climb, hparent]
      exact hk

theorem element_covered (hroot : root < f.size) : (f.element root).Covered P limit ds :=
  elementFrom_covered hP hf (f.size + 1) (k := 0) rfl rfl hroot

end Forest

theorem Element.Covered.declarations {P : Failure → Prop} {limit : Nat} {ds : List Element.Declaration} {e : Element}
    (h : e.Covered P limit ds) : ∀ d ∈ e.declarations, ∀ b ∈ d.body, b.Covered P limit ds := by
  refine forall_declarations (fun h => ?_) (fun h => ?_) e h
  · cases h with | node _ _ hchildren => exact hchildren
  · cases h with | node _ _ hchildren => exact hchildren

/-- The dialect brings every pattern that some built-in one brings, each with a text of its own. -/
def Dialect.Based (d : Dialect) : Prop := ∃ b ∈ builtin, ∀ name ∈ b.patterns.map (·.1), (d.patterns.get? name).isSome

theorem Dialect.based_of_builtin : ∀ d ∈ builtin, d.Based := fun d hd => ⟨d, hd, fun _ => Dictionary.get?_isSome.mpr⟩

theorem Dialect.Based.withPattern {d : Dialect} (h : d.Based) (name template : Bytes) :
    (d.withPattern name template).Based := by
  obtain ⟨b, hb, hall⟩ := h
  refine ⟨b, hb, fun other hother => ?_⟩
  have hget : (d.withPattern name template).patterns.get? other = if name == other then some template else
      d.patterns.get? other := Dictionary.get?_insert
  rw [hget]
  split
  · rfl
  · exact hall other hother

theorem Dialect.Based.required {d : Dialect} (h : d.Based) : ∀ name ∈ requiredPatterns, d.patterns.contains name = true := by
  obtain ⟨b, hb, hall⟩ := h
  have hbuiltin : ∀ b ∈ builtin, ∀ name ∈ requiredPatterns, name ∈ b.patterns.map (·.1) := by decide +kernel
  exact fun name hname => hall name (hbuiltin b hb name hname)

/-- A name, or a dialect made from a built-in one unless building it failed. -/
def Selector.Based : Selector → Prop
  | .auto | .named _ => True
  | .dialect d => d.Based
  | .factory d => ∀ b ∈ d, b.Based
  | .unsupported _ => False

/-- The option brings neither a producer nor a handler, and no dialect but those made from built-in ones. -/
def Setting.Based : Setting → Prop
  | .format _ dialect => ∀ built ∈ dialect, ∀ d ∈ built, d.Based
  | .producer .. => False
  | .handlers hs => hs = []
  | _ => True

structure Settings.Based (settings : Settings) : Prop where
  formats : ∀ name d, settings.formats.get? name = some (some d) → d.Based
  producers : settings.producers = []
  handlers : settings.handlers = []

theorem Settings.based_default : Settings.Based {} := ⟨nofun, rfl, rfl⟩

theorem Settings.Based.apply {s t : Settings} (hs : s.Based) {setting : Setting} (hsetting : setting.Based)
    (h : s.apply setting = .ok t) : t.Based := by
  cases setting with
  | producer name inputs body => exact hsetting.elim
  | handlers presented =>
    obtain rfl : presented = [] := hsetting
    cases h
    exact { hs with handlers := (List.append_nil _).trans hs.handlers }
  | format name dialect =>
    rw [Settings.apply.eq_def] at h
    dsimp only at h
    split at h
    next => cases h
    next =>
      cases dialect with
      | none => cases h
      | some built =>
        cases h
        refine { hs with formats := fun other d hd => ?_ }
        have hget := Dictionary.get?_insert.symm.trans hd
        split at hget
        · exact hsetting built rfl d (Option.some.inj hget)
        · exact hs.formats other d hget
  | pretty | debug | sourceFile =>
    cases h
    exact { hs with }
  | indent | storage | getter | defaultFormat | maxDepth | patterns =>
    rw [Settings.apply.eq_def] at h
    dsimp only at h
    split at h <;> cases h
    exact { hs with }

theorem Settings.Based.ofList {options : List Setting} (hoptions : ∀ option ∈ options, option.Based) {settings : Settings}
    (h : Settings.ofList options = .ok settings) : settings.Based :=
  foldlM_invariant (fun _ option _ hoption hs => hs.apply (hoptions option hoption)) based_default h

namespace Session

variable {s : Session} {d : Dialect}

theorem lookUp_based (h : s.settings.Based) (name : Bytes) :
    ∃ l d, s.lookUp name = ({ s with ledger := l }, d) ∧ l.helpers = s.ledger.helpers ∧ ∀ b ∈ d, b.Based := by
  rw [lookUp]
  split
  next d hd => exact ⟨s.ledger, d, rfl, rfl, fun b hb => h.formats _ b (hd.trans (congrArg some hb))⟩
  next =>
    split
    next d hd =>
      obtain ⟨entry, hentry, rfl⟩ := Option.map_eq_some_iff.mp hd
      have hbuiltin := Dialect.builtin_of_byName entry (List.mem_of_find?_eq_some hentry)
      exact ⟨s.ledger, some entry.2, rfl, rfl, fun b hb => Option.some.inj hb ▸ Dialect.based_of_builtin _ hbuiltin⟩
    next =>
      have hbasic : Dialect.basic.Based := Dialect.based_of_builtin _ List.mem_cons_self
      exact ⟨_, some Dialect.basic, rfl, rfl, fun b hb => Option.some.inj hb ▸ hbasic⟩

/-- No dialect could be built for the selector. -/
def BuildsNone (s : Session) (e : Element) (selector : Selector) (label : Bytes) : Prop :=
  ∃ t, s.choose e selector = .ok (t, none, label)

theorem select_based (h : s.settings.Based) (e : Element) {selector : Selector} (hselector : selector.Based) :
    ∃ l, l.helpers = s.ledger.helpers ∧ ((∃ d, s.select e selector = ({ s with ledger := l }, .ok d)) ∨
      ∃ label, s.BuildsNone e selector label ∧
        s.select e selector = ({ s with ledger := l }, .error (.invalidFormat e.site label "factory returned nil" []))) := by
  have hchoose : ∃ l d label, s.choose e selector = .ok ({ s with ledger := l }, d, label) ∧
      l.helpers = s.ledger.helpers ∧ ∀ b ∈ d, b.Based := by
    cases selector with
    | auto =>
      obtain ⟨l, d, hlookUp, hl, hd⟩ := lookUp_based h (s.autoName e)
      exact ⟨l, d, _, by rw [choose, hlookUp], hl, hd⟩
    | named name =>
      obtain ⟨l, d, hlookUp, hl, hd⟩ := lookUp_based h name
      exact ⟨l, d, _, by rw [choose, hlookUp], hl, hd⟩
    | dialect d => exact ⟨s.ledger, some d, _, rfl, rfl, fun b hb => Option.some.inj hb ▸ hselector⟩
    | factory d => exact ⟨s.ledger, d, _, rfl, rfl, hselector⟩
    | unsupported type => exact hselector.elim
  obtain ⟨l, d, label, hchoose, hl, hbased⟩ := hchoose
  rw [select, hchoose]
  cases d with
  | none => exact ⟨l, hl, .inr ⟨label, ⟨_, hchoose⟩, rfl⟩⟩
  | some d =>
    have hmissing : missingPatterns { s with ledger := l } d = [] := by
      refine List.filter_eq_nil_iff.mpr fun name hname => ?_
      rw [(hbased d rfl).required name hname]
      simp
    simp only [hmissing, List.isEmpty_nil, if_true]
    exact ⟨l.say .., hl, .inl ⟨d, rfl⟩⟩

theorem renderTree_answers {P : Failure → Prop} {env : Environment} (henv : env.Complete) (hs : s.ledger.Equipped) {e : Element}
    (he : e.Covered P env.settings.maxDepth env.mixins)
    (hmixins : ∀ d ∈ env.mixins, ∀ b ∈ d.body, b.Covered P env.settings.maxDepth env.mixins) (nextNode : NodeId) :
    Answers P (fun _ => True) (s.renderTree env e nextNode).result := by
  have hcovers : Rendering.Covers P (fun _ => True) (Render.finished env e) :=
    .bind (Render.node_covers henv hmixins _ _ he) fun body _ => Render.page_covers henv e.site body
  obtain ⟨l, m, -, heq, -⟩ := s.renderTree_eq env e nextNode
  have hready : Progress.Ready { ledger := s.ledger, nextNode } := ⟨rfl, hs⟩
  cases hrun : (Render.finished env e).run { ledger := s.ledger, nextNode } with
  | mk r q =>
    obtain ⟨-, hr⟩ := hcovers hready hrun
    rw [heq, hrun]
    cases r with
    | ok page => exact trivial
    | error f => exact hr

/-- A page comes out unless no dialect could be built, or a failure that the tree is covered for is met. -/
theorem attempt_answers (h : s.settings.Based) (hs : s.ledger.Equipped) {P : Failure → Prop} {e : Element}
    (he : e.Covered P s.settings.maxDepth e.declarations) (nextNode : NodeId) {selector : Selector}
    (hselector : selector.Based)
    (hnone : ∀ label, s.BuildsNone e selector label → P (.invalidFormat e.site label "factory returned nil" [])) :
    Answers P (fun _ => True) (s.attempt e nextNode selector).result := by
  obtain ⟨l, hl, ⟨d, hselect⟩ | ⟨label, hlabel, hselect⟩⟩ := select_based h e hselector
  · rw [attempt, hselect]
    dsimp only
    obtain ⟨forms, fallback, hinstall⟩ := install_ok (s := { s with ledger := l }) h.producers e d
    have hcomplete : (environment { s with ledger := l } e d fallback).Complete :=
      ⟨fun _ hname => patternTable_sound h.producers hname, h.handlers⟩
    rw [hinstall]
    have hequipped : l.Equipped := hs.of_declared (congrArg _ hl)
    exact renderTree_answers (s := installed { s with ledger := l } d forms) hcomplete hequipped he he.declarations nextNode
  · rw [attempt, hselect]
    exact hnone label hlabel

/-- What is reported for a tree: something that is wrong at one of its nodes, or at the root that no dialect could be
built. -/
def Documented (s : Session) (f : Forest) (root : NodeId) (selector : Selector) (failure : Failure) : Prop :=
  ∃ id n, f.Above root id ∧ f.get? id = some n ∧ failure.site? = some n.site ∧
    (f.Wrong (f.element root).declarations s.settings.maxDepth id n failure ∨
      id = root ∧ ∃ label, s.BuildsNone (f.element root) selector label ∧
        failure = .invalidFormat n.site label "factory returned nil" [])

theorem documented_of_blames {f : Forest} {root : NodeId} {selector : Selector} {failure : Failure}
    (h : f.Blames root (f.element root).declarations s.settings.maxDepth failure) :
    s.Documented f root selector failure := by
  obtain ⟨id, n, habove, hn, hwrong⟩ := h
  exact ⟨id, n, habove, hn, hwrong.site?, .inl hwrong⟩

theorem documented_of_none {f : Forest} {root : NodeId} (hroot : root < f.size) {selector : Selector} {label : Bytes}
    (h : s.BuildsNone (f.element root) selector label) :
    s.Documented f root selector (.invalidFormat (f.element root).site label "factory returned nil" []) := by
  obtain ⟨n, hn⟩ := Forest.exists_get? hroot
  have hsite : (f.element root).site = n.site := by
    rw [Forest.element, Forest.elementFrom, hn]
    exact congrArg (Site.mk · n.origin) (f.kindName_elementContent root n.content)
  rw [hsite]
  exact ⟨root, n, .refl, hn, rfl, .inr ⟨rfl, label, h, rfl⟩⟩

/-- Where the options bring neither producers nor handlers and every dialect is made from a built-in one, a decoded tree
becomes a page, unless something is wrong at one of its nodes or no dialect could be built: the failure names that node
and says just that. So no pattern or helper is ever missing, whatever the session did before. -/
theorem format_documented {options : List Setting} (hoptions : ∀ option ∈ options, option.Based) {settings : Settings}
    (hsettings : Settings.ofList options = .ok settings) (trees : Forest) (events : List Event) {text : Bytes} {f : Forest}
    {root : NodeId} (hf : Wire.plantText .empty text = .ok (f, root)) {selector : Selector} (hselector : selector.Based) :
    let s := ((Account.start settings trees).run events).desk.session
    (∃ page, (s.format f (some root) selector).2.2 = .ok page) ∨
      ∃ failure, (s.format f (some root) selector).2.2 = .error failure ∧ s.Documented f root selector failure := by
  intro s
  obtain ⟨hequipped, hsame⟩ := (Account.start settings trees).run_equipped equipped_start events
  have hsame : s.settings = settings := hsame
  have hbased : s.settings.Based := hsame ▸ Settings.Based.ofList hoptions hsettings
  have hseeds := Wire.seeds_of_plantText hf
  have hroot : root < f.size := (hseeds.fresh root (List.mem_singleton_self _)).2
  have hcovered : (f.element root).Covered (s.Documented f root selector) s.settings.maxDepth (f.element root).declarations :=
    Forest.element_covered (fun _ => documented_of_blames) hseeds.planted hroot
  have hanswers := attempt_answers hbased hequipped hcovered f.size hselector fun _ => documented_of_none hroot
  rw [format]
  dsimp only
  rw [result_formatElement]
  cases hr : (s.attempt (f.element root) f.size selector).result with
  | ok page => exact .inl ⟨page, rfl⟩
  | error failure =>
    rw [hr] at hanswers
    exact .inr ⟨failure, rfl, hanswers⟩

def billing : List Setting := [.patterns [("open_pair_tag", "<%s data-x>")], .format "void" (some none)]

def billText : Bytes :=
  "\x7b\"type\":\"document\",\"children\":[\x7b\"type\":\"markup\",\"name\":\"img\",\"autoClosed\":true,"
    ++ "\"children\":[\x7b\"type\":\"text\"\x7d]\x7d]\x7d"

/-- A page was written in between, and a helper declared anew by one that does not exist. -/
def billed : Session :=
  ((Account.start { patterns := [("open_pair_tag", "<%s data-x>")], formats := [("void", none)] } form).run
    [.call (.format (some 0) (.named "html")), .declare "merge_classes" (fun _ => []) ["lost"]]).desk.session

/-- The page fails of the tag, or of the dialect where none could be built. -/
theorem billed_documented :
    ∃ f, Wire.plantText .empty billText = .ok (f, 0) ∧
      (billed.format f (some 0) .auto).2.2 = .error (.incompatibleChildren ⟨"Markup", none⟩ "img") ∧
      billed.Documented f 0 .auto (.incompatibleChildren ⟨"Markup", none⟩ "img") ∧
      (billed.format f (some 0) (.named "void")).2.2 =
        .error (.invalidFormat ⟨"Document", none⟩ "void" "factory returned nil" []) ∧
      billed.Documented f 0 (.named "void") (.invalidFormat ⟨"Document", none⟩ "void" "factory returned nil" []) := by
  have hbased : ∀ option ∈ billing, option.Based := by
    simp [billing, Setting.Based]
  have hsettings : Settings.ofList billing =
      .ok { patterns := [("open_pair_tag", "<%s data-x>")], formats := [("void", none)] } := rfl
  generalize htext : billText = text
  have hresults : (Wire.plantText .empty text).toOption.map (fun r =>
      (r.2, (billed.format r.1 (some r.2) .auto).2.2, (billed.format r.1 (some r.2) (.named "void")).2.2)) =
      some (0, .error (.incompatibleChildren ⟨"Markup", none⟩ "img"),
        .error (.invalidFormat ⟨"Document", none⟩ "void" "factory returned nil" [])) := by
    subst htext
    decide +kernel
  cases hrun : Wire.plantText .empty text with
  | error e =>
    rw [hrun] at hresults
    cases hresults
  | ok r =>
    rw [hrun] at hresults
    obtain ⟨f, root⟩ := r
    simp only [Except.toOption, Option.map_some, Option.some.injEq, Prod.mk.injEq] at hresults
    obtain ⟨rfl, hauto, hvoid⟩ := hresults
    have hdocumented (selector : Selector) (hselector : selector.Based) {failure : Failure}
        (hfailure : (billed.format f (some 0) selector).2.2 = .error failure) : billed.Documented f 0 selector failure := by
      rcases format_documented hbased hsettings form _ hrun hselector with ⟨page, hpage⟩ | ⟨other, hother, h⟩
      · cases hfailure.symm.trans hpage
      · cases hfailure.symm.trans hother
        exact h
    exact ⟨f, rfl, hauto, hdocumented .auto trivial hauto, hvoid, hdocumented (.named "void") trivial hvoid⟩

end Session

end Stencil
