import Stencil.Proofs.Compile.Independence
import Stencil.Proofs.Compile.Texts
import Stencil.Proofs.Pattern.Resolution

/-! What a rendering can fail of. Where every pattern that is asked for has a text, the built-in helpers are declared and
no handler is asked, a failure is about something that is wrong in the tree: each part of the tree says which failures
may be reported for it, and rendering it reports no others. -/

namespace Stencil

def Unreadable (source : Bytes) (fault : Fault) : Prop :=
  Token.tokenize source = .error fault ∨
    ∃ ts, Token.tokenize source = .ok ts ∧ Token.Group.ofTokens ts = .error fault

section Covered

variable (P : Failure → Prop)

/-- `P` holds of all that the snippet may be reported for; and so on for whatever holds snippets. -/
def Snippet.Covered (s : Snippet) : Prop := ∀ fault, Unreadable s.source fault → P (.badExpression s.site s.source fault)

structure Attribute.Covered (a : Attribute) : Prop where
  nameExpr : ∀ s ∈ a.nameExpr, s.Covered P
  code : ∀ s, a.value = .code s → s.Covered P
  other : ∀ site, a.value = .other site → P (.unexpectedNode site)

structure Assignment.Covered (a : Assignment) : Prop where
  values : ∀ s ∈ a.values, s.Covered P
  name : Attributes.isBuiltin a.name = false → P (.unhandledAssignment a.site a.name)

structure Tag.Covered (site : Site) (children : List Element) (t : Tag) : Prop where
  nameExpr : ∀ s ∈ t.nameExpr, s.Covered P
  attributes : ∀ a ∈ t.attributes, a.Covered P
  assignments : ∀ a ∈ t.assignments, a.Covered P
  children : children ≠ [] → P (.incompatibleChildren site ((t.nameExpr.map (·.source)).getD t.name))

structure Call.Covered (ds : List Element.Declaration) (site : Site) (c : Call) : Prop where
  args : ∀ a ∈ c.args, a.code.Covered P
  attributes : ∀ a ∈ c.attributes, a.Covered P
  assignments : ∀ a ∈ c.assignments, a.Covered P
  name : Element.findMixin? ds c.name = none → P (.undeclaredMixin site c.name)

def Element.Content.Covered (ds : List Element.Declaration) (site : Site) (children : List Element) :
    Element.Content → Prop
  | .markup t => t.Covered P site children
  | .code source => ∀ fault, Unreadable source fault → P (.badExpression site source fault)
  | .expression s => s.Covered P
  | .call c => c.Covered P ds site
  | .binding _ value => (value = none → P (.unexpectedNode site)) ∧ ∀ s ∈ value, s.Covered P
  | .stray _ => P (.unexpectedNode site)
  | .document | .doctype _ | .text _ | .mixin _ | .block => True

/-- `P` holds of all that a node of the tree may be reported for where the mixins are `ds`. -/
inductive Element.Covered (limit : Nat) (ds : List Element.Declaration) : Element → Prop
  | node {id : NodeId} {origin : Option Origin} {content : Element.Content} {children : List Element}
      (hdeep : P (.tooDeep ⟨content.kindName, origin⟩ limit))
      (hcontent : content.Covered P ds ⟨content.kindName, origin⟩ children)
      (hchildren : ∀ e ∈ children, Element.Covered limit ds e) : Element.Covered limit ds (.node id origin content children)

end Covered

/-- A failure satisfies `P`, a result `R`. -/
def Answers {α : Type} (P : Failure → Prop) (R : α → Prop) : Except Failure α → Prop
  | .ok a => R a
  | .error f => P f

section Answers

variable {α β : Type} {P : Failure → Prop} {R : α → Prop} {S : β → Prop}

theorem Answers.bind {x : Except Failure α} {k : α → Except Failure β} (hx : Answers P R x)
    (hk : ∀ a, R a → Answers P S (k a)) : Answers P S (x >>= k) := by
  cases x with
  | ok a => exact hk a hx
  | error f => exact hx

theorem Answers.mono {R' : α → Prop} {x : Except Failure α} (hx : Answers P R x) (hR : ∀ a, R a → R' a) :
    Answers P R' x := by
  cases x with
  | ok a => exact hR a hx
  | error f => exact hx

theorem Answers.mapM {f : α → Except Failure β} {xs : List α} (h : ∀ x ∈ xs, Answers P S (f x)) :
    Answers P (fun ys => ∀ y ∈ ys, S y) (xs.mapM f) := by
  induction xs with
  | nil => exact List.forall_mem_nil _
  | cons x xs ih =>
    obtain ⟨hx, hxs⟩ := List.forall_mem_cons.mp h
    rw [List.mapM_cons]
    exact bind hx fun y hy => bind (ih hxs) fun ys hys => List.forall_mem_cons.mpr ⟨hy, hys⟩

theorem Answers.foldlM {step : β → α → Except Failure β} (h : ∀ b a, Answers P S (step b a)) {b : β} (hb : S b)
    (xs : List α) : Answers P S (xs.foldlM step b) := by
  induction xs generalizing b with
  | nil => exact hb
  | cons x xs ih =>
    rw [List.foldlM_cons]
    exact (h b x).bind fun _ hnext => ih hnext

end Answers

/-- No attributes were added, and the built-in helpers are declared. -/
structure Progress.Ready (p : Progress) : Prop where
  additions : p.additions = []
  equipped : p.ledger.Equipped

namespace Rendering

variable {α β : Type} {P : Failure → Prop} {R : α → Prop} {S : β → Prop} {m : Rendering α}

/-- From a state that is ready, a failure satisfies `P`, a result `R`, and the state stays ready. -/
def Covers (P : Failure → Prop) (R : α → Prop) (m : Rendering α) : Prop :=
  ∀ ⦃p q : Progress⦄ ⦃r : Except Failure α⦄, p.Ready → m.run p = (r, q) → q.Ready ∧ Answers P R r

namespace Covers

theorem pure {a : α} (h : R a) : Covers P R (Pure.pure a) := by
  intro p q r hp hrun
  cases hrun
  exact ⟨hp, h⟩

theorem throw {f : Failure} (h : P f) : Covers P R (throw f : Rendering α) := by
  intro p q r hp hrun
  cases hrun
  exact ⟨hp, h⟩

theorem lift {e : Except Failure α} (h : Answers P R e) : Covers P R (liftM e : Rendering α) := by
  intro p q r hp hrun
  cases e <;> cases hrun <;> exact ⟨hp, h⟩

theorem bind {k : α → Rendering β} (hm : Covers P R m) (hk : ∀ a, R a → Covers P S (k a)) : Covers P S (m >>= k) := by
  intro p q r hp hrun
  rw [run_bind] at hrun
  cases hfirst : m.run p with
  | mk r₁ q₁ =>
    obtain ⟨hq₁, hr₁⟩ := hm hp hfirst
    rw [hfirst] at hrun
    cases r₁ with
    | error f =>
      cases hrun
      exact ⟨hq₁, hr₁⟩
    | ok a => exact hk a hr₁ hq₁ hrun

theorem get {k : Progress → Rendering β} (hk : ∀ p : Progress, p.Ready → Covers P S (k p)) :
    Covers P S (MonadState.get >>= k) := fun p _ _ hp hrun => hk p hp hp hrun

theorem modify {u : Progress → Progress} (hu : ∀ p : Progress, p.Ready → (u p).Ready) :
    Covers P (fun _ => True) (modify u : Rendering Unit) := by
  intro p q r hp hrun
  cases hrun
  exact ⟨hu p hp, trivial⟩

theorem mapM {f : α → Rendering β} {xs : List α} (h : ∀ x ∈ xs, Covers P S (f x)) :
    Covers P (fun ys => ∀ y ∈ ys, S y) (xs.mapM f) := by
  induction xs with
  | nil => exact pure (List.forall_mem_nil _)
  | cons x xs ih =>
    obtain ⟨hx, hxs⟩ := List.forall_mem_cons.mp h
    rw [List.mapM_cons]
    exact bind hx fun y hy => bind (ih hxs) fun ys hys => pure (List.forall_mem_cons.mpr ⟨hy, hys⟩)

theorem forM {f : α → Rendering PUnit} {xs : List α} (h : ∀ x, Covers P (fun _ => True) (f x)) :
    Covers P (fun _ => True) (xs.forM f) := by
  induction xs with
  | nil => exact pure trivial
  | cons x xs ih => exact bind (h x) fun _ _ => ih

end Covers

theorem say_covers (topic : Topic) (line : Bytes) : Covers P (fun _ => True) (say topic line) :=
  .modify fun _ hp => ⟨hp.additions, hp.equipped⟩

theorem require_covers (env : Environment) (site : Option Site) {name : Bytes}
    (hname : name ∈ Preamble.builtin.map (·.1)) : Covers P (fun _ => True) (require env site name) := by
  intro p q r hp hrun
  rw [run_require] at hrun
  obtain ⟨l, hl, hequipped⟩ := hp.equipped.require site hname
  rw [hl] at hrun
  cases hrun
  exact ⟨⟨hp.additions, hequipped⟩, trivial⟩

theorem mark_covers (env : Environment) (origin : Option Origin) : Covers P (fun _ => True) (mark env origin) := by
  cases origin with
  | none => exact .pure trivial
  | some o => exact .bind (.modify fun _ hp => ⟨hp.additions, hp.equipped⟩) fun _ _ => .get fun _ _ => .pure trivial

theorem freshKey_covers : Covers P (fun _ => True) freshKey :=
  .get fun _ _ => .bind (.modify fun _ hp => ⟨hp.additions, hp.equipped⟩) fun _ _ => .pure trivial

theorem freshScope_covers : Covers P (fun _ => True) freshScope :=
  .get fun _ _ => .bind (.modify fun _ hp => ⟨hp.additions, hp.equipped⟩) fun _ _ => .pure trivial

theorem attributesOf_covers (owner : NodeId) (attributes : List Attribute) :
    Covers P (· = attributes) (attributesOf owner attributes) :=
  .get fun p hp => .pure (by rw [hp.additions]; exact List.append_nil _)

end Rendering

/-- Every pattern that is asked for has a text, and there are no handlers. -/
structure Environment.Complete (env : Environment) : Prop where
  patterns : ∀ name ∈ Session.commonPatterns, Pattern.Sound env.patterns name
  handlers : env.settings.handlers = []

section Writing

variable {P : Failure → Prop} {env : Environment} (h : env.Complete)
include h

namespace Environment.Complete

theorem pattern (site : Site) {name : Bytes} (hname : name ∈ Session.commonPatterns) (args : List Bytes) :
    Answers P (fun _ => True) (env.pattern site name args) := by
  obtain ⟨text, hrender⟩ := (h.patterns name hname).render args
  rw [Environment.pattern, hrender]
  exact trivial

theorem nested (site : Site) (markup : Bytes) : Answers P (fun _ => True) (env.nested site markup) :=
  h.pattern site (by decide) [markup]

theorem display (site : Site) (escape : Bool) (code : Bytes) :
    Answers P (fun _ => True) (env.display site escape code) := by
  cases escape with
  | true => exact h.pattern site (by decide) [code]
  | false => exact h.pattern site (by decide) [code]

theorem piece (site : Site) (p : Reference.Piece) : Answers P (fun _ => True) (env.piece site p) := by
  cases p with
  | plain t => exact trivial
  | guarded ts =>
    obtain ⟨text, hguard⟩ := (h.patterns "checked_variable" (by decide)).text
      [Reference.tokenTexts env.handlers ts, env.fallback]
    rw [Environment.piece, hguard]
    exact trivial

theorem code {site : Site} {source : Bytes} (hP : ∀ fault, Unreadable source fault → P (.badExpression site source fault))
    (checked : Bool) : Answers P (fun _ => True) (env.code site source checked) := by
  rw [Environment.code]
  cases checked with
  | true =>
    have hplan : Answers P (fun _ => True) ((Reference.plan (Reference.handlesVariables env.handlers) source).mapError
        (.badExpression site source)) := by
      rw [Reference.plan]
      cases htokens : Token.tokenize source with
      | error fault => exact hP fault (.inl htokens)
      | ok ts =>
        cases hgroups : Token.Group.ofTokens ts with
        | error fault =>
          simp only [bind, Except.bind, hgroups]
          exact hP fault (.inr ⟨ts, htokens, hgroups⟩)
        | ok gs =>
          simp only [bind, Except.bind, hgroups]
          exact trivial
    exact hplan.bind fun pieces _ => (Answers.mapM fun p _ => h.piece site p).bind fun _ _ => trivial
  | false =>
    rw [Reference.handleAll]
    cases htokens : Token.tokenize source with
    | error fault => exact hP fault (.inl htokens)
    | ok ts => exact trivial

theorem snippet {s : Snippet} (hs : s.Covered P) : Answers P (fun _ => True) (env.snippet s) := h.code hs s.checked

end Environment.Complete

namespace Contribution

theorem answers_attributeValue (scope : Scope) {a : Attribute} (ha : a.Covered P) :
    Answers P (fun _ => True) (attributeValue env scope a.value) := by
  cases hvalue : a.value with
  | absent => exact trivial
  | text value escape => exact trivial
  | code s =>
    rw [attributeValue]
    split
    next => exact trivial
    next => exact (h.snippet (ha.code s hvalue)).bind fun _ _ => trivial
  | other site => exact ha.other site hvalue

theorem answers_keyCode {a : Attribute} (ha : a.Covered P) : Answers P (fun _ => True) (keyCode env a) := by
  rw [keyCode]
  split
  next s hs => exact h.snippet (ha.nameExpr s hs)
  next => exact trivial

theorem answers_ofAttribute (scope : Scope) {a : Attribute} (ha : a.Covered P) :
    Answers P (fun _ => True) (ofAttribute env scope a) :=
  (answers_keyCode h ha).bind fun _ _ => (answers_attributeValue h scope ha).bind fun _ _ => trivial

theorem answers_ofAssignment (scope : Scope) (name : Bytes) {s : Snippet} (hs : s.Covered P) :
    Answers P (fun _ => True) (ofAssignment env scope name s) := by
  rw [ofAssignment]
  refine (h.snippet hs).bind fun code _ => ?_
  dsimp only
  split <;> exact trivial

theorem answers_ofAssignments (scope : Scope) {assignments : List Assignment}
    (hassignments : ∀ a ∈ assignments, a.Covered P) :
    Answers P (fun _ => True) (ofAssignments env scope assignments) := by
  induction assignments with
  | nil => exact trivial
  | cons a rest ih =>
    obtain ⟨ha, hrest⟩ := List.forall_mem_cons.mp hassignments
    rw [ofAssignments]
    exact (Answers.mapM fun s hs => answers_ofAssignment h scope a.name (ha.values s hs)).bind fun _ _ =>
      (ih hrest).bind fun _ _ => trivial

theorem answers_collect (scope : Scope) {attributes : List Attribute} (hattributes : ∀ a ∈ attributes, a.Covered P)
    {assignments : List Assignment} (hassignments : ∀ a ∈ assignments, a.Covered P) :
    Answers P (fun _ => True) (collect env scope attributes assignments) :=
  (Answers.mapM fun a ha => answers_ofAttribute h scope (hattributes a ha)).bind fun _ _ =>
    (answers_ofAssignments h scope hassignments).bind fun _ _ => trivial

end Contribution

open Rendering (Covers)

namespace Attributes

theorem pending_covers (owner : NodeId) (attributes : List Attribute) {assignments : List Assignment}
    (hassignments : ∀ a ∈ assignments, a.Covered P) :
    Covers P (fun left => ∀ a ∈ left, Assignment.Covered P a) (pending env owner attributes assignments) := by
  induction assignments with
  | nil => exact .pure (List.forall_mem_nil _)
  | cons a rest ih =>
    obtain ⟨ha, hrest⟩ := List.forall_mem_cons.mp hassignments
    rw [pending, h.handlers, offer, pure_bind]
    simp only [Bool.false_eq_true, if_false]
    split
    · exact .bind (ih hrest) fun left hleft => .pure (List.forall_mem_cons.mpr ⟨ha, hleft⟩)
    next hname => exact .throw (ha.name (by simpa using hname))

theorem answers_entry (site : Site) (e : Key × Value) : Answers P (fun _ => True) (entry env site e) := by
  obtain ⟨key, v⟩ := e
  unfold entry
  dsimp only
  split
  · exact trivial
  · exact trivial
  · exact h.pattern site (by decide) _
  · split
    · exact trivial
    · exact h.pattern site (by decide) _

theorem merge_covers (site : Site) (cs : List Contribution) : Covers P (fun _ => True) (merge env site cs) := by
  rw [merge]
  split
  next set _ =>
    exact .lift ((Answers.mapM fun e _ => answers_entry h site e).bind fun _ _ => trivial)
  next =>
    exact .bind (Rendering.require_covers env _ (by decide)) fun _ _ => .lift (h.pattern site (by decide) _)

theorem answers_pair {a : Attribute} (ha : a.Covered P) (value : Bytes) :
    Answers P (fun _ => True) (pair env a value) := by
  have hkey : Answers P (fun _ => True) (key env a) := by
    rw [key]
    split
    next => exact trivial
    next s hs => exact (h.snippet (ha.nameExpr s hs)).bind fun _ _ => h.pattern a.site (by decide) _
  exact hkey.bind fun _ _ => h.pattern a.site (by decide) _

theorem bare_covers {a : Attribute} (ha : a.Covered P) : Covers P (fun _ => True) (bare env a) := by
  rw [bare]
  split
  next => exact .lift (h.pattern a.site (by decide) _)
  next s hs =>
    refine .bind (.lift (h.snippet (ha.nameExpr s hs))) fun _ _ => .bind Rendering.freshKey_covers fun _ _ => ?_
    refine .bind (.lift (h.pattern a.site (by decide) _)) fun _ _ => ?_
    refine .bind (.lift (h.pattern a.site (by decide) _)) fun _ _ => ?_
    exact .bind (.lift (h.pattern a.site (by decide) _)) fun _ _ => .pure trivial

theorem known_covers {a : Attribute} (ha : a.Covered P) (escape : Bool) (v : Value) :
    Covers P (fun _ => True) (known env a escape v) := by
  rw [known.eq_def]
  split
  · exact bare_covers h ha
  · exact .pure trivial
  · exact .pure trivial
  · exact .lift (answers_pair h ha _)

theorem single_covers (scope : Scope) {a : Attribute} (ha : a.Covered P) :
    Covers P (fun _ => True) (single env scope a) := by
  rw [single]
  split
  next => exact bare_covers h ha
  next => exact .lift (answers_pair h ha _)
  next s hs =>
    split
    next => exact known_covers h ha ..
    next =>
      split
      next => exact known_covers h ha ..
      next =>
        refine .bind (.lift (h.snippet (ha.code s hs))) fun _ _ => ?_
        exact .bind (.lift (h.display s.site s.escape _)) fun _ _ => .lift (answers_pair h ha _)
  next site hsite => exact .throw (ha.other site hsite)

theorem write_covers (scope : Scope) (owner : NodeId) (site : Site) {attributes : List Attribute}
    (hattributes : ∀ a ∈ attributes, a.Covered P) {assignments : List Assignment}
    (hassignments : ∀ a ∈ assignments, a.Covered P) :
    Covers P (fun _ => True) (write env scope owner site attributes assignments) := by
  rw [write]
  refine .bind (pending_covers h owner attributes hassignments) fun left hleft => ?_
  refine .bind (Rendering.attributesOf_covers owner attributes) fun all hall => ?_
  subst hall
  split
  · exact .bind (.lift (Contribution.answers_collect h scope hattributes hleft)) fun _ _ => merge_covers h site _
  · exact .bind (.mapM fun a ha => single_covers h scope (hattributes a ha)) fun _ _ => .pure trivial

end Attributes

namespace Expansion

variable {render : Render} {call : Call} (hargs : ∀ a ∈ call.args, a.code.Covered P)
  (hattributes : ∀ a ∈ call.attributes, a.Covered P)

omit h in
theorem listCode_covers (call : Call) (codes : List (Argument × Bytes)) :
    Covers P (fun _ => True) (listCode call codes) := by
  have hsay (c : Argument × Bytes) : Covers P (fun _ => True)
      (if c.1.packed then Rendering.say .mixin (call.name ++ ": spreading " ++ c.1.code.source ++ " at runtime")
        else pure PUnit.unit) := by
    split
    · exact Rendering.say_covers ..
    · exact .pure trivial
  exact .bind (.forM hsay) fun _ _ => .pure trivial

include hargs

theorem answers_argumentCodes : Answers P (fun _ => True) (argumentCodes env call) := by
  refine (Answers.mapM (S := fun _ => True) fun a ha => ?_).mono fun _ _ => trivial
  exact (h.code (hargs a ha) _).bind fun _ _ => trivial

theorem spreadArguments_covers : Covers P (fun _ => True) (spreadArguments env call) := by
  rw [spreadArguments]
  refine .bind (.lift (answers_argumentCodes h hargs)) fun codes _ => ?_
  split
  · exact .bind (listCode_covers call codes) fun _ _ => .pure trivial
  · exact .pure trivial

theorem spreadAttributes_covers (site : Site) (m : Mixin) (a : Actuals) :
    Covers P (fun _ => True) (spreadAttributes env site call m a) := by
  rw [spreadAttributes]
  refine .bind (.lift (answers_argumentCodes h hargs)) fun codes _ => ?_
  refine .bind (listCode_covers call codes) fun _ _ => .bind Rendering.freshScope_covers fun _ _ => ?_
  exact .bind (Rendering.require_covers env _ (by decide)) fun _ _ => .bind (Rendering.say_covers ..) fun _ _ =>
    .pure trivial

include hattributes

variable {b : Binding} (hb : b.From call.args call.attributes)
include hb

theorem answers_boundArguments (scope : Scope) (m : Mixin) :
    Answers P (fun _ => True) (boundArguments env scope m b) := by
  have hparameter (p : Parameter) (hp : p ∈ b.params) : Answers P (fun _ => True) (parameter env scope p) := by
    rw [parameter]
    split
    next a ha => exact h.snippet (hargs a (hb.arguments p hp a ha))
    next =>
      split
      next a ha =>
        exact (Contribution.answers_attributeValue h scope (hattributes a (hb.attrs p hp a ha))).bind fun _ _ => trivial
      next => exact trivial
  rw [boundArguments]
  refine (Answers.mapM hparameter).bind fun bound _ => ?_
  split
  · exact trivial
  · exact (Answers.mapM fun a ha => h.snippet (hargs a (hb.rest a ha))).bind fun _ _ => trivial

variable (hassignments : ∀ a ∈ call.assignments, a.Covered P)
include hassignments

theorem attributes_covers (scope : Scope) (id : NodeId) (site : Site) (m : Mixin) :
    Covers P (fun _ => True) (attributes env scope id site call m b) := by
  have hsets {left : List Assignment} (hleft : ∀ a ∈ left, a.Covered P) :
      Answers P (fun _ => True) (sets env scope m b left) := by
    rw [sets]
    refine (Contribution.answers_collect h scope (fun a ha => hattributes a (hb.attributes a ha)) hleft).bind fun _ _ => ?_
    split
    · exact (Answers.mapM fun a ha => Contribution.answers_ofAssignment h scope "attributes" (hargs a (hb.rest a ha))).bind
        fun _ _ => trivial
    · exact trivial
  rw [attributes]
  refine .bind (Attributes.pending_covers h id call.attributes hassignments) fun left hleft => ?_
  refine .bind (.lift (hsets hleft)) fun cs _ => ?_
  split
  · exact .pure trivial
  · split
    · split
      · exact .pure trivial
      · exact .bind (Rendering.require_covers env _ (by decide)) fun _ _ => .pure trivial
    · exact .bind (Rendering.require_covers env _ (by decide)) fun _ _ => .pure trivial

theorem actuals_covers {scope : Scope} {children : List Element}
    (hrender : Covers P (fun _ => True) (render scope children)) (id : NodeId) (site : Site) (m : Mixin) :
    Covers P (fun _ => True) (actuals env render scope id site call children m b) := by
  have hblock : Covers P (fun _ => True) (block env render scope site children) := by
    rw [block]
    split
    · exact .pure trivial
    · exact .bind hrender fun _ _ => .bind Rendering.freshScope_covers fun _ _ =>
        .bind (.lift (h.nested site _)) fun _ _ => .pure trivial
  rw [actuals]
  refine .bind hblock fun _ _ => .bind (attributes_covers h hargs hattributes hb hassignments scope id site m) fun _ _ => ?_
  dsimp only
  split
  · refine .bind (spreadArguments_covers h hargs) fun _ _ => ?_
    split
    · exact spreadAttributes_covers h hargs site m _
    · exact .pure trivial
  · refine .bind (.lift (answers_boundArguments h hargs hattributes hb scope m)) fun _ _ => ?_
    split
    · exact spreadAttributes_covers h hargs site m _
    · exact .pure trivial

end Expansion

/-- A call is covered, and so is what it renders: its children and the bodies of mixins. -/
theorem Expansion.write_covers {render : Render} {scope : Scope} {id : NodeId} {site : Site} {call : Call}
    {children : List Element} (hcall : call.Covered P env.mixins site)
    (hrender : ∀ scope, Covers P (fun _ => True) (render scope children))
    (hbody : ∀ d ∈ env.mixins, ∀ scope, Covers P (fun _ => True) (render scope d.body)) :
    Covers P (fun _ => True) (write env render scope id site call children) := by
  rw [write]
  cases hfind : Element.findMixin? env.mixins call.name with
  | none => exact .throw (hcall.name hfind)
  | some d =>
    have hd : d ∈ env.mixins := Element.mem_of_findMixin? hfind
    refine .bind (Rendering.attributesOf_covers id call.attributes) fun all hall => ?_
    subst hall
    have hb := Binding.from_ofCall d.mixin call.args call.attributes
    dsimp only
    split
    on_goal 1 => refine .bind (Rendering.say_covers ..) fun _ _ => ?_
    all_goals
      refine .bind (actuals_covers h hcall.args hcall.attributes hb hcall.assignments (hrender scope) id site d.mixin)
        fun a _ => ?_
      refine .bind (Rendering.say_covers ..) fun _ _ => .bind (hbody d hd _) fun body _ => ?_
      exact .bind (.lift (h.nested site body)) fun _ _ => .lift (h.pattern site (by decide) _)

namespace Render

open Expansion (Render)

variable {render : Render} {scope : Scope} {site : Site} {children : List Element}

theorem pair_covers (hrender : ∀ scope, Covers P (fun _ => True) (render scope children)) (name attributes : Bytes)
    (block : Bool) : Covers P (fun _ => True) (pair env render scope site name attributes block children) := by
  have hinner (scope : Scope) : Covers P (fun _ => True) (inner render scope children) := by
    have hready {p : Progress} (seen : Bool) (hp : p.Ready) : ({ p with blockSeen := seen } : Progress).Ready :=
      ⟨hp.additions, hp.equipped⟩
    refine .get fun p _ => .bind (.modify fun _ => hready false) fun _ _ => .bind (hrender scope) fun _ _ => ?_
    exact .get fun q _ => .bind (.modify fun _ => hready p.blockSeen) fun _ _ => .pure trivial
  rw [pair]
  refine .bind (.lift (h.pattern site (by decide) _)) fun _ _ => ?_
  refine .bind (.lift (h.pattern site (by decide) _)) fun _ _ => .bind (hinner _) fun _ _ => .pure trivial

theorem markup_covers {id : NodeId} {origin : Option Origin} {t : Tag} (ht : t.Covered P site children)
    (hrender : ∀ scope, Covers P (fun _ => True) (render scope children)) :
    Covers P (fun _ => True) (markup env render scope id origin site t children) := by
  have hname : Answers P (fun _ => True) (tagName env site t) := by
    rw [tagName]
    split
    next => exact trivial
    next s hs => exact (h.snippet (ht.nameExpr s hs)).bind fun _ _ => h.pattern site (by decide) _
  rw [markup]
  refine .bind (.lift hname) fun name _ => ?_
  dsimp only
  split
  next hclosing => exact .throw (ht.children (by simpa using (Bool.and_eq_true_iff.mp hclosing).2))
  next =>
    refine .bind (Attributes.write_covers h scope id site ht.attributes ht.assignments) fun attributes _ => ?_
    refine .bind (Rendering.mark_covers env origin) fun mark _ => ?_
    have hfinish (text : Bytes) : Covers P (fun _ => True) (do
        if env.dialect.startsLine t then modify fun p => { p with blockSeen := true }
        return text) := by
      split
      · exact .bind (.modify fun _ hp => ⟨hp.additions, hp.equipped⟩) fun _ _ => .pure trivial
      · exact .pure trivial
    split
    · exact .bind (.lift (h.pattern site (by decide) _)) fun _ _ => hfinish _
    · exact .bind (pair_covers h hrender name attributes _) fun _ _ => hfinish _

theorem code_covers {source : Bytes} (hsource : ∀ fault, Unreadable source fault → P (.badExpression site source fault))
    (hrender : ∀ scope, Covers P (fun _ => True) (render scope children)) :
    Covers P (fun _ => True) (code env render scope site source children) := by
  rw [code]
  refine .bind (.lift (h.code hsource false)) fun _ _ => ?_
  split
  · exact .lift (h.pattern site (by decide) _)
  · refine .bind (hrender scope) fun body _ => ?_
    split
    · refine .bind (.lift (h.nested site body)) fun _ _ => .bind (.lift (h.pattern site (by decide) _)) fun _ _ => ?_
      exact .lift (h.pattern site (by decide) _)
    · exact .bind (.lift (h.pattern site (by decide) _)) fun _ _ => .pure trivial

theorem answers_expression {s : Snippet} (hs : s.Covered P) : Answers P (fun _ => True) (expression env scope s) := by
  rw [expression]
  split
  · exact trivial
  · exact (h.snippet hs).bind fun _ _ => h.display s.site s.escape _

theorem answers_binding {name : Bytes} {value : Option Snippet} (hmissing : value = none → P (.unexpectedNode site))
    (hvalue : ∀ s ∈ value, s.Covered P) : Answers P (fun _ => True) (binding env site name value) := by
  cases value with
  | none => exact hmissing rfl
  | some s => exact (h.snippet (hvalue s rfl)).bind fun _ _ => h.pattern site (by decide) _

theorem answers_block : Answers P (fun _ => True) (block env scope site) := by
  rw [block]
  split
  · exact trivial
  · exact h.pattern site (by decide) _

theorem answers_doctype (value : Bytes) : Answers P (fun _ => True) (doctype env site value) := by
  rw [doctype]
  split
  · exact trivial
  · exact h.pattern site (by decide) _

theorem content_covers {id : NodeId} {origin : Option Origin} {c : Element.Content}
    (hc : c.Covered P env.mixins ⟨c.kindName, origin⟩ children)
    (hrender : ∀ scope, Covers P (fun _ => True) (render scope children))
    (hbody : ∀ d ∈ env.mixins, ∀ scope, Covers P (fun _ => True) (render scope d.body)) :
    Covers P (fun _ => True) (content env render scope (.node id origin c children)) := by
  have hmarked {text : Rendering Bytes} (htext : Covers P (fun _ => True) text) :
      Covers P (fun _ => True) (marked env origin text) :=
    .bind htext fun _ _ => .bind (Rendering.mark_covers env origin) fun _ _ => .pure trivial
  cases c with
  | markup t => exact markup_covers h hc hrender
  | mixin m => exact .pure trivial
  | document => exact hmarked (hrender scope)
  | doctype value => exact hmarked (.lift (answers_doctype h value))
  | text t => exact hmarked (.pure trivial)
  | code source => exact hmarked (code_covers h hc hrender)
  | expression s => exact hmarked (.lift (answers_expression h hc))
  | binding name value => exact hmarked (.lift (answers_binding h hc.1 hc.2))
  | call call => exact hmarked (Expansion.write_covers h hc hrender hbody)
  | block => exact hmarked (.lift (answers_block h))
  | stray kind => exact .throw hc

omit h in
theorem listFrom_covers {one : Element → Rendering Bytes} {es : List Element}
    (hone : ∀ e ∈ es, Covers P (fun _ => True) (one e)) (before : Option Forest.Text) :
    Covers P (fun _ => True) (listFrom one before es) := by
  induction es generalizing before with
  | nil => exact .pure trivial
  | cons e es ih =>
    obtain ⟨he, hes⟩ := List.forall_mem_cons.mp hone
    exact .bind he fun _ _ => .bind (ih hes _) fun _ _ => .pure trivial

/-- The budget goes down with every node and every expansion, so a failure stays within the tree and its mixins. -/
theorem node_covers (hmixins : ∀ d ∈ env.mixins, ∀ e ∈ d.body, e.Covered P env.settings.maxDepth env.mixins) (budget : Nat)
    (scope : Scope) {e : Element} (he : e.Covered P env.settings.maxDepth env.mixins) :
    Covers P (fun _ => True) (node env budget scope e) := by
  induction budget generalizing scope e with
  | zero =>
    cases he with
    | node hdeep _ _ => exact .throw hdeep
  | succ budget ih =>
    cases he with
    | node _ hcontent hchildren =>
      refine content_covers h hcontent (fun scope => ?_) fun d hd scope => ?_
      · exact listFrom_covers (fun e he => ih scope (hchildren e he)) none
      · exact listFrom_covers (fun e he => ih scope (hmixins d hd e he)) none

theorem page_covers (site : Site) (body : Bytes) : Covers P (fun _ => True) (page env site body) := by
  have hbody (fragments : Array Origin) (p : Page) : Answers P (fun _ => True) (Page.body env site fragments p body) := by
    refine .foldlM (fun p segment => ?_) trivial _
    cases segment with
    | byte c => exact trivial
    | fragment id =>
      rw [Page.step]
      split
      · exact trivial
      · split
        · exact (h.pattern site (by decide) _).bind fun _ _ => trivial
        · exact trivial
  rw [page]
  refine .get fun p _ => ?_
  split
  · refine .bind (.lift (h.pattern site (by decide) _)) fun _ _ => .bind (.lift (hbody _ _)) fun _ _ => ?_
    exact .bind (Rendering.require_covers env _ (by decide)) fun _ _ =>
      .bind (.lift (h.pattern site (by decide) _)) fun _ _ => .pure trivial
  · exact .lift (hbody _ _)

end Render

end Writing

end Stencil
