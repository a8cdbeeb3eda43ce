import Stencil.Compile.Session
import Stencil.Proofs.Compile.Following
import Stencil.Proofs.Pattern.Agreement

/-! A rendering depends on its pattern table only through the patterns that every page installs, on the getter only
through the helpers it requires, and never on the log. One lemma for each function of the renderer says that it follows
itself in an environment that suits it, and which fragments it numbers. -/

namespace Stencil

open Rendering (Follows)

/-- The patterns that every page installs. -/
def Session.commonPatterns : List Bytes := Dialect.basicPatterns.map (·.1) ++ derivedPatterns.map (·.1)

/-- The patterns that markup is put into. -/
def Session.carriers : List Bytes := ["php_nested_html", "php_block_code", "php_handle_code"]

theorem Session.carriers_common : ∀ name ∈ carriers, name ∈ commonPatterns := by decide

namespace Environment

variable {c : Rendering.Terms} {env : Environment} {t : Pattern.Table} {getter : Option (Bytes → Bytes → Bytes)}

abbrev variant (env : Environment) (t : Pattern.Table) (getter : Option (Bytes → Bytes → Bytes)) : Environment :=
  { env with patterns := t, settings := { env.settings with storage := { env.settings.storage with getter } } }

/-- The common patterns have the same texts in `t`, and the getter reads shared helpers by the same code. -/
structure Suits (c : Rendering.Terms) (env : Environment) (t : Pattern.Table)
    (getter : Option (Bytes → Bytes → Bytes)) : Prop where
  text : ∀ name ∈ Session.commonPatterns, ∀ args, Pattern.text t name args = Pattern.text env.patterns name args
  render : ∀ name ∈ Session.commonPatterns, ∀ args, Pattern.render t name args = Pattern.render env.patterns name args
  accessor : ∀ name, c.shared name →
    (env.variant t getter).settings.storage.accessor name = env.settings.storage.accessor name

namespace Suits

theorem pattern (h : env.Suits c t getter) {name : Bytes} (hn : name ∈ Session.commonPatterns) (site : Site)
    (args : List Bytes) : (env.variant t getter).pattern site name args = env.pattern site name args := by
  rw [Environment.pattern, Environment.pattern, h.render name hn]

theorem code (h : env.Suits c t getter) : (env.variant t getter).code = env.code := by
  funext site source checked
  have hpiece : (env.variant t getter).piece site = env.piece site := by
    funext piece
    cases piece with
    | plain token => rfl
    | guarded tokens =>
      rw [piece, piece, h.text "checked_variable" (by decide)]
      rfl
  rw [Environment.code, Environment.code, hpiece]
  rfl

theorem snippet (h : env.Suits c t getter) : (env.variant t getter).snippet = env.snippet := by
  funext s
  rw [Environment.snippet, Environment.snippet, h.code]

theorem nested (h : env.Suits c t getter) : (env.variant t getter).nested = env.nested := by
  funext site markup
  exact h.pattern (by decide) site [markup]

theorem display (h : env.Suits c t getter) : (env.variant t getter).display = env.display := by
  funext site escape code
  cases escape with
  | true => exact h.pattern (by decide) site [code]
  | false => exact h.pattern (by decide) site [code]

end Suits

end Environment

section Texts

variable {c : Rendering.Terms} {env : Environment} {t : Pattern.Table} {getter : Option (Bytes → Bytes → Bytes)}
  (h : env.Suits c t getter)
include h

namespace Contribution

theorem attributeValue_suits : attributeValue (env.variant t getter) = attributeValue env := by
  funext scope value
  cases value <;> simp only [attributeValue, h.snippet]

theorem keyCode_suits : keyCode (env.variant t getter) = keyCode env := by
  funext a
  simp only [keyCode, h.snippet]

theorem ofAssignment_suits : ofAssignment (env.variant t getter) = ofAssignment env := by
  funext scope name s
  simp only [ofAssignment, h.snippet]

theorem collect_suits : collect (env.variant t getter) = collect env := by
  have hattribute : ofAttribute (env.variant t getter) = ofAttribute env := by
    funext scope a
    simp only [ofAttribute, keyCode_suits h, attributeValue_suits h]
  have hassignments : ofAssignments (env.variant t getter) = ofAssignments env := by
    funext scope as
    induction as with
    | nil => rfl
    | cons a as ih => simp only [ofAssignments, ofAssignment_suits h, ih]
  funext scope attributes assignments
  simp only [collect, hattribute, hassignments]

end Contribution

namespace Attributes

theorem entries_suits : entries (env.variant t getter) = entries env := by
  have hentry : entry (env.variant t getter) = entry env := by
    funext site e
    simp (disch := decide) only [entry, h.pattern]
  funext site set
  simp only [entries, hentry]

theorem pair_suits : pair (env.variant t getter) = pair env := by
  have hkey : key (env.variant t getter) = key env := by
    funext a
    simp (disch := decide) only [key, h.snippet, h.pattern]
  funext a value
  simp (disch := decide) only [pair, hkey, h.pattern]

end Attributes

namespace Expansion

theorem sets_suits : sets (env.variant t getter) = sets env := by
  funext scope m b assignments
  simp only [sets, Contribution.collect_suits h, Contribution.ofAssignment_suits h]

theorem boundArguments_suits : boundArguments (env.variant t getter) = boundArguments env := by
  have hparameter : parameter (env.variant t getter) = parameter env := by
    funext scope p
    simp only [parameter, h.snippet, Contribution.attributeValue_suits h]
  funext scope m b
  simp only [boundArguments, hparameter, h.snippet]

theorem argumentCodes_suits : argumentCodes (env.variant t getter) = argumentCodes env := by
  funext call
  simp only [argumentCodes, h.code]

end Expansion

namespace Render

theorem tagName_suits : tagName (env.variant t getter) = tagName env := by
  funext site tag
  simp (disch := decide) only [tagName, h.snippet, h.pattern]

theorem doctype_suits : doctype (env.variant t getter) = doctype env := by
  funext site value
  simp (disch := decide) only [doctype, h.pattern]

theorem expression_suits : expression (env.variant t getter) = expression env := by
  funext scope s
  simp only [expression, h.snippet, h.display]

theorem binding_suits : binding (env.variant t getter) = binding env := by
  funext site name value
  cases value with
  | none => rfl
  | some s => simp (disch := decide) only [binding, h.snippet, h.pattern]

theorem block_suits : block (env.variant t getter) = block env := by
  funext scope site
  simp (disch := decide) only [block, h.pattern]

end Render

theorem Page.body_suits : Page.body (env.variant t getter) = Page.body env := by
  have hstep : Page.step (env.variant t getter) = Page.step env := by
    funext site fragments p segment
    cases segment with
    | byte c => rfl
    | fragment id => simp (disch := decide) only [Page.step, h.pattern]
  funext site fragments p rendered
  simp only [Page.body, hstep]

end Texts

section Renderings

variable {c : Rendering.Terms} {env : Environment} {t : Pattern.Table} {getter : Option (Bytes → Bytes → Bytes)}
  (h : env.Suits c t getter)

theorem Handler.Script.run_require (env : Environment) (owner : NodeId) (helper : Bytes)
    (next : Except Failure Bytes → Handler.Script) (p : Progress) :
    ((Script.require helper next).run env owner).run p = match p.ledger.require none helper with
      | .error f => ((next (.error f)).run env owner).run p
      | .ok ledger => ((next (.ok (env.settings.storage.accessor helper))).run env owner).run { p with ledger } := by
  rw [Script.run]
  change ExceptT.run (match p.ledger.require none helper with
    | .error f => (next (.error f)).run env owner
    | .ok ledger => _ : Rendering Bool) p = _
  cases p.ledger.require none helper <;> rfl

include h in
theorem Handler.Script.run_follows (script : Handler.Script) (owner : NodeId) :
    Follows c [] (script.run env owner) (script.run (env.variant t getter) owner) := by
  induction script with
  | finish taken => exact .pure taken
  | fail f => exact .throw f
  | add a next ih => exact .bind (Rendering.addAttribute_follows owner a) fun _ => ih
  | require helper next ih =>
    refine ⟨fun p => ?_, fun p p' hp => ?_⟩
    · rw [run_require]
      cases hr : p.ledger.require none helper with
      | error f => exact (ih (.error f)).grows p
      | ok ledger =>
        obtain ⟨hgrow, hfragments, -⟩ := Ledger.extends_require hr
        obtain ⟨hgrow', hmarks⟩ := (ih (.ok (env.settings.storage.accessor helper))).grows { p with ledger }
        rw [← hfragments]
        exact ⟨hgrow.trans hgrow', hmarks⟩
    · rw [run_require, run_require]
      rcases Ledger.require_ahead hp.ledger none helper with ⟨f, hf, hf'⟩ | ⟨r, r', hr, hr', hahead⟩
      · rw [hf, hf']
        exact (ih (.error f)).keeps hp
      · rw [hr, hr']
        by_cases hname : c.shared helper
        · rw [h.accessor helper hname]
          exact (ih _).keeps { hp with ledger := hahead }
        · have hgrow := ((ih (.ok (env.settings.storage.accessor helper))).grows { p with ledger := r }).1
          exact .inl ⟨helper, hgrow.required.subset (Ledger.extends_require hr).2.2, hname⟩

include h in
theorem Handler.run_follows (handler : Handler) (owner : NodeId) (attributes : List Attribute) (a : Assignment) :
    Follows c [] (handler.run env owner attributes a) (handler.run (env.variant t getter) owner attributes a) := by
  rw [run, run]
  split
  · exact .pure false
  · exact .bind (Rendering.attributesOf_follows ..) fun all => (handler.action.script owner all a).run_follows h owner

namespace Attributes

include h

theorem offer_follows (owner : NodeId) (attributes : List Attribute) (a : Assignment) (index : Nat)
    (handlers : List Handler) :
    Follows c [] (offer env owner attributes a index handlers)
      (offer (env.variant t getter) owner attributes a index handlers) := by
  induction handlers generalizing index with
  | nil => exact .pure false
  | cons handler handlers ih =>
    rw [offer, offer]
    refine .bind (handler.run_follows h owner attributes a) fun taken => ?_
    split
    · exact .bind (Rendering.say_follows ..) fun _ => .pure true
    · exact ih (index + 1)

theorem pending_follows (owner : NodeId) (attributes : List Attribute) (assignments : List Assignment) :
    Follows c [] (pending env owner attributes assignments)
      (pending (env.variant t getter) owner attributes assignments) := by
  induction assignments with
  | nil => exact .pure []
  | cons a rest ih =>
    rw [pending, pending]
    refine .bind (offer_follows h ..) fun taken => ?_
    split
    · exact ih
    · split
      · exact .bind ih fun _ => .pure _
      · exact .throw _

theorem merge_follows (site : Site) (cs : List Contribution) :
    Follows c [] (merge env site cs) (merge (env.variant t getter) site cs) := by
  rw [merge, merge, entries_suits h]
  split
  · exact .lift rfl
  · exact .bind (Rendering.require_follows h.accessor ..) fun accessor => .lift (h.pattern (by decide) ..)

theorem bare_follows (a : Attribute) : Follows c [] (bare env a) (bare (env.variant t getter) a) := by
  rw [bare, bare, h.snippet]
  split
  · exact .lift (h.pattern (by decide) ..)
  · refine .bind (.lift rfl) fun code => .bind Rendering.freshKey_follows fun temporary => ?_
    refine .bind (.lift (h.pattern (by decide) ..)) fun assign => ?_
    refine .bind (.lift (h.pattern (by decide) ..)) fun key => ?_
    exact .bind (.lift (h.pattern (by decide) ..)) fun _ => .pure _

theorem known_follows (a : Attribute) (escape : Bool) (v : Value) :
    Follows c [] (known env a escape v) (known (env.variant t getter) a escape v) := by
  unfold known
  split
  · exact bare_follows h a
  · exact .pure []
  · exact .pure []
  · exact .lift (by rw [pair_suits h])

theorem single_follows (scope : Scope) (a : Attribute) :
    Follows c [] (single env scope a) (single (env.variant t getter) scope a) := by
  rw [single, single, pair_suits h, h.snippet, h.display]
  split
  · exact bare_follows h a
  · exact .lift rfl
  · split
    · exact known_follows h ..
    · split
      · exact known_follows h ..
      · exact .bind (.lift rfl) fun code => .bind (.lift rfl) fun _ => .lift rfl
  · exact .throw _

theorem write_follows (scope : Scope) (owner : NodeId) (site : Site) (attributes : List Attribute)
    (assignments : List Assignment) :
    Follows c [] (write env scope owner site attributes assignments)
      (write (env.variant t getter) scope owner site attributes assignments) := by
  rw [write, write, Contribution.collect_suits h]
  refine .bind (pending_follows h ..) fun left => .bind (Rendering.attributesOf_follows ..) fun all => ?_
  split
  · exact .bind (.lift rfl) fun cs => merge_follows h site cs
  · exact .bind (.mapM (single_follows h scope) all) fun _ => .pure _

end Attributes

section Children

variable {below : Element → List Origin} {render render' : Expansion.Render}
  (hr : ∀ scope es, Follows c (es.flatMap below) (render scope es) (render' scope es))

namespace Expansion

theorem listCode_follows (call : Call) (codes : List (Argument × Bytes)) :
    Follows c [] (listCode call codes) (listCode call codes) := by
  refine .bind (.forM (fun code => ?_) codes) fun _ => .pure _
  obtain ⟨a, code⟩ := code
  by_cases ha : a.packed
  · simp only [ha, if_true]
    exact Rendering.say_follows ..
  · simp only [ha]
    exact .pure ()

include h

theorem attributes_follows (scope : Scope) (id : NodeId) (site : Site) (call : Call) (m : Mixin) (b : Binding) :
    Follows c [] (attributes env scope id site call m b) (attributes (env.variant t getter) scope id site call m b) := by
  rw [attributes, attributes, sets_suits h]
  refine .bind (Attributes.pending_follows h ..) fun assignments => .bind (.lift rfl) fun cs => ?_
  split
  · exact .pure _
  · split
    · split
      · exact .pure _
      · exact .bind (Rendering.require_follows h.accessor ..) fun _ => .pure _
    · exact .bind (Rendering.require_follows h.accessor ..) fun _ => .pure _

theorem spreadArguments_follows (call : Call) :
    Follows c [] (spreadArguments env call) (spreadArguments (env.variant t getter) call) := by
  rw [spreadArguments, spreadArguments, argumentCodes_suits h]
  refine .bind (.lift rfl) fun codes => ?_
  split
  · exact .bind (listCode_follows ..) fun _ => .pure _
  · exact .pure _

theorem spreadAttributes_follows (site : Site) (call : Call) (m : Mixin) (a : Actuals) :
    Follows c [] (spreadAttributes env site call m a) (spreadAttributes (env.variant t getter) site call m a) := by
  rw [spreadAttributes, spreadAttributes, argumentCodes_suits h]
  refine .bind (.lift rfl) fun codes => .bind (listCode_follows ..) fun list => ?_
  refine .bind Rendering.freshScope_follows fun n => .bind (Rendering.require_follows h.accessor ..) fun accessor => ?_
  exact .bind (Rendering.say_follows ..) fun _ => .pure _

include hr

theorem block_follows (scope : Scope) (site : Site) (children : List Element) :
    Follows c (children.flatMap below) (block env render scope site children)
      (block (env.variant t getter) render' scope site children) := by
  rw [block, block, h.nested]
  split
  next hempty =>
    rw [List.isEmpty_iff.mp hempty]
    exact .pure _
  next =>
    refine .then (hr scope children) fun body => .bind Rendering.freshScope_follows fun n => ?_
    exact .bind (.lift rfl) fun _ => .pure _

theorem actuals_follows (scope : Scope) (id : NodeId) (site : Site) (call : Call) (children : List Element)
    (m : Mixin) (b : Binding) :
    Follows c (children.flatMap below) (actuals env render scope id site call children m b)
      (actuals (env.variant t getter) render' scope id site call children m b) := by
  rw [actuals, actuals, boundArguments_suits h]
  refine .then (block_follows h hr ..) fun block => .bind (attributes_follows h ..) fun attributes => ?_
  dsimp only
  split
  · refine .bind (spreadArguments_follows h call) fun args => ?_
    split
    · exact spreadAttributes_follows h ..
    · exact .pure _
  · refine .bind (.lift rfl) fun args => ?_
    split
    · exact spreadAttributes_follows h ..
    · exact .pure _

theorem write_follows (scope : Scope) (id : NodeId) (site : Site) (call : Call) (children : List Element) :
    Follows c (children.flatMap below ++
        (Element.findMixin? env.mixins call.name).toList.flatMap fun d => d.body.flatMap below)
      (write env render scope id site call children)
      (write (env.variant t getter) render' scope id site call children) := by
  rw [write, write, h.nested, show (env.variant t getter).mixins = env.mixins from rfl]
  cases Element.findMixin? env.mixins call.name with
  | none => exact .throw _
  | some d =>
    rw [Option.toList_some, List.flatMap_singleton]
    refine .bind (Rendering.attributesOf_follows ..) fun all => ?_
    dsimp only
    split
    on_goal 1 => refine .bind (Rendering.say_follows ..) fun _ => ?_
    all_goals
      refine .seq (actuals_follows h hr ..) fun a => .bind (Rendering.say_follows ..) fun _ => ?_
      refine .then (hr ..) fun body => .bind (.lift rfl) fun inner => ?_
      exact .lift (h.pattern (by decide) ..)

end Expansion

namespace Render

/-- The fragments of the nodes written at a node, in the order of their numbers; `below` gives those of the nodes
inside it and of the bodies of mixins. -/
def contentFragments (settings : Settings) (mixins : List Element.Declaration) (below : Element → List Origin) :
    Element → List Origin
  | .node _ origin content children =>
    match content with
    | .markup _ => settings.fragment origin ++ children.flatMap below
    | .mixin _ | .stray _ => []
    | .document | .code _ => children.flatMap below ++ settings.fragment origin
    | .call call =>
      (children.flatMap below ++ (Element.findMixin? mixins call.name).toList.flatMap fun d => d.body.flatMap below)
        ++ settings.fragment origin
    | _ => settings.fragment origin

/-- The fragments of a node and everything below it, at most `budget` nodes and expansions deep. -/
def nodeFragments (settings : Settings) (mixins : List Element.Declaration) : (budget : Nat) → Element → List Origin
  | 0, _ => []
  | budget + 1, e => contentFragments settings mixins (nodeFragments settings mixins budget) e

def fragments (settings : Settings) (e : Element) : List Origin :=
  nodeFragments settings e.declarations settings.maxDepth e

theorem setBlockSeen_follows (b : Bool) :
    Follows c [] (modify fun p => { p with blockSeen := b } : Rendering Unit)
      (modify fun p => { p with blockSeen := b }) :=
  .modify (fun _ _ hp => { hp with blockSeen := rfl }) fun _ => .refl _

theorem marked_follows {text text' : Rendering Bytes} {marks : List Origin} (ht : Follows c marks text text')
    (origin : Option Origin) :
    Follows c (marks ++ env.settings.fragment origin) (marked env origin text)
      (marked (env.variant t getter) origin text') :=
  .seq ht fun _ => .then (Rendering.mark_follows rfl origin) fun _ => .pure _

include hr

theorem inner_follows (scope : Scope) (children : List Element) :
    Follows c (children.flatMap below) (inner render scope children) (inner render' scope children) := by
  refine .get fun p p' hp => ?_
  rw [hp.blockSeen]
  refine .bind (setBlockSeen_follows false) fun _ => .then (hr scope children) fun text => ?_
  refine .get fun q q' hq => ?_
  rw [hq.blockSeen]
  exact .bind (setBlockSeen_follows _) fun _ => .pure _

include h

theorem pair_follows (scope : Scope) (site : Site) (name attributes : Bytes) (block : Bool)
    (children : List Element) :
    Follows c (children.flatMap below) (pair env render scope site name attributes block children)
      (pair (env.variant t getter) render' scope site name attributes block children) := by
  rw [pair, pair]
  refine .bind (.lift (h.pattern (by decide) ..)) fun opening => ?_
  refine .bind (.lift (h.pattern (by decide) ..)) fun closing => ?_
  exact .then (inner_follows hr ..) fun _ => .pure _

theorem markup_follows (scope : Scope) (id : NodeId) (origin : Option Origin) (site : Site) (tag : Tag)
    (children : List Element) :
    Follows c (env.settings.fragment origin ++ children.flatMap below)
      (markup env render scope id origin site tag children)
      (markup (env.variant t getter) render' scope id origin site tag children) := by
  rw [markup, markup, tagName_suits h]
  refine .bind (.lift rfl) fun name => ?_
  dsimp only
  split
  next => exact .throw _
  next hchildren =>
    refine .bind (Attributes.write_follows h ..) fun attributes => .seq (Rendering.mark_follows rfl ..) fun mark => ?_
    split
    next hclosing =>
      obtain rfl : children = [] := by simpa [hclosing] using hchildren
      refine .bind (.lift (h.pattern (by decide) ..)) fun text => ?_
      split
      · exact .bind (setBlockSeen_follows true) fun _ => .pure _
      · exact .pure _
    next =>
      refine .then (pair_follows h hr ..) fun text => ?_
      split
      · exact .bind (setBlockSeen_follows true) fun _ => .pure _
      · exact .pure _

theorem code_follows (scope : Scope) (site : Site) (source : Bytes) (children : List Element) :
    Follows c (children.flatMap below) (code env render scope site source children)
      (code (env.variant t getter) render' scope site source children) := by
  rw [code, code, h.code, h.nested]
  refine .bind (.lift rfl) fun code => ?_
  split
  next hempty =>
    rw [List.isEmpty_iff.mp hempty]
    exact .lift (h.pattern (by decide) ..)
  next =>
    refine .then (hr scope children) fun body => ?_
    split
    · refine .bind (.lift rfl) fun inner => .bind (.lift (h.pattern (by decide) ..)) fun block => ?_
      exact .lift (h.pattern (by decide) ..)
    · exact .bind (.lift (h.pattern (by decide) ..)) fun _ => .pure _

theorem content_follows (scope : Scope) (e : Element) :
    Follows c (contentFragments env.settings env.mixins below e) (content env render scope e)
      (content (env.variant t getter) render' scope e) := by
  obtain ⟨id, origin, content, children⟩ := e
  cases content with
  | markup tag => exact markup_follows h hr ..
  | mixin m => exact .pure []
  | document => exact marked_follows (hr scope children) origin
  | doctype value => exact marked_follows (.lift (by rw [doctype_suits h])) origin
  | text value => exact marked_follows (.pure _) origin
  | code source => exact marked_follows (code_follows h hr ..) origin
  | expression s => exact marked_follows (.lift (by rw [expression_suits h])) origin
  | binding name value => exact marked_follows (.lift (by rw [binding_suits h])) origin
  | call call => exact marked_follows (Expansion.write_follows h hr ..) origin
  | block => exact marked_follows (.lift (by rw [block_suits h])) origin
  | stray kind => exact .throw _

end Render

end Children

namespace Render

def finished (env : Environment) (e : Element) : Rendering Page := do
  let body ← tree env e
  page env e.site body

theorem listFrom_follows {one one' : Element → Rendering Bytes} {below : Element → List Origin}
    (ho : ∀ e, Follows c (below e) (one e) (one' e)) (before : Option Forest.Text) (es : List Element) :
    Follows c (es.flatMap below) (listFrom one before es) (listFrom one' before es) := by
  induction es generalizing before with
  | nil => exact .pure []
  | cons e es ih =>
    rw [listFrom, listFrom]
    exact .seq (ho e) fun first => .then (ih _) fun _ => .pure _

include h

theorem node_follows (budget : Nat) (scope : Scope) (e : Element) :
    Follows c (nodeFragments env.settings env.mixins budget e) (node env budget scope e)
      (node (env.variant t getter) budget scope e) := by
  induction budget generalizing scope e with
  | zero => exact .throw _
  | succ budget ih =>
    rw [node, node]
    exact content_follows h (fun scope es => listFrom_follows (ih scope) none es) scope e

theorem tree_follows (e : Element) :
    Follows c (nodeFragments env.settings env.mixins env.settings.maxDepth e) (tree env e)
      (tree (env.variant t getter) e) := node_follows h ..

theorem page_follows (site : Site) (body : Bytes) :
    Follows c [] (page env site body) (page (env.variant t getter) site body) := by
  rw [page, page, Page.body_suits h]
  refine .get fun p p' hp => ?_
  rw [hp.ledger.fragments]
  dsimp only
  split
  · refine .bind (.lift (h.pattern (by decide) ..)) fun opening => .bind (.lift rfl) fun page => ?_
    refine .bind (Rendering.require_follows h.accessor ..) fun rethrow => ?_
    exact .bind (.lift (h.pattern (by decide) ..)) fun _ => .pure _
  · exact .lift rfl

theorem finished_follows (e : Element) :
    Follows c (nodeFragments env.settings env.mixins env.settings.maxDepth e) (finished env e)
      (finished (env.variant t getter) e) :=
  .then (tree_follows h e) fun body => page_follows h e.site body

end Render

end Renderings

end Stencil
