import Stencil.Proofs.Compile.Relocation
import Stencil.Proofs.Compile.Rendering

/-! One tree rendered twice: from different ledgers, with the origins of its nodes changed, or laid out in another way.
The texts of the nodes are akin: what is written from the tree is the same in both, line breaks apart, and what was
written for nodes below is only passed on, whole, through patterns. Handlers that do the same in both renderings aside,
nothing else of a rendering looks at the ledger. -/

namespace Stencil

def Ledger.number (l : Ledger) : Option Origin → Ledger × Bytes
  | none => (l, [])
  | some o => (l.addFragment o, Page.mark (l.addFragment o).fragments.size)

/-- How the second rendering differs from the first: in the places its nodes come from, in its layout, in what its texts
and ledgers are like, and in the attributes added to it with the numbers left for more. -/
structure Kinship where
  move : Relocation
  pretty : Bool
  indent : Bytes
  text : Bytes → Bytes → Prop
  ledger : Ledger → Ledger → Prop
  added : List Addition × NodeId → List Addition × NodeId → Prop
  injective : move.number.Injective
  refl : ∀ s, text s s
  append : ∀ {s s' t t'}, text s s' → text t t' → text (s ++ t) (s' ++ t')
  say : ∀ {l l'}, ledger l l' → ∀ topic line, ledger (l.say topic line) (l'.say topic line)
  require : ∀ {l l'}, ledger l l' → ∀ site site', ∀ name ∈ Preamble.builtin.map (·.1),
    ∃ r r', l.require site name = .ok r ∧ l'.require site' name = .ok r' ∧ ledger r r'
  mark : ∀ {l l'}, ledger l l' → ∀ (complete : Origin → Origin) origin,
    ledger (l.number (origin.map complete)).1 (l'.number ((move.place origin).map complete)).1 ∧
    text (l.number (origin.map complete)).2 (l'.number ((move.place origin).map complete)).2
  attributes : ∀ {a a'}, added a a' → ∀ owner,
    (a'.1.filter (·.owner == move.number owner)).map Addition.toAttribute =
      ((a.1.filter (·.owner == owner)).map Addition.toAttribute).map (·.relocate move)

/-- Nothing was added in either rendering. -/
def Untouched (a a' : List Addition × NodeId) : Prop := a.1 = [] ∧ a'.1 = []

theorem Untouched.attributes {a a' : List Addition × NodeId} (h : Untouched a a') (g : Relocation) (owner : NodeId) :
    (a'.1.filter (·.owner == g.number owner)).map Addition.toAttribute =
      ((a.1.filter (·.owner == owner)).map Addition.toAttribute).map (·.relocate g) := by
  rw [h.1, h.2]
  rfl

namespace Kinship

variable {k : Kinship} {args args' parts parts' : List Bytes}

theorem getD (h : List.Forall₂ k.text args args') (n : Nat) : k.text (args.getD n []) (args'.getD n []) := by
  induction h generalizing n with
  | nil => exact k.refl _
  | cons hs _ ih =>
    cases n with
    | zero => exact hs
    | succ n => exact ih n

theorem fill (h : List.Forall₂ k.text args args') (used : Nat) (pieces : List Template.Piece) :
    k.text (Template.fill args used pieces) (Template.fill args' used pieces) := by
  induction pieces generalizing used with
  | nil => exact k.refl _
  | cons p pieces ih =>
    cases p with
    | byte c => exact k.append (k.refl [c]) (ih used)
    | next => exact k.append (getD h used) (ih (used + 1))
    | nth n => exact k.append (getD h (n - 1)) (ih used)

theorem join (h : List.Forall₂ k.text parts parts') (separator : Bytes) :
    k.text (Bytes.join separator parts) (Bytes.join separator parts') := by
  induction h with
  | nil => exact k.refl _
  | cons hs hrest ih =>
    cases hrest with
    | nil => simpa [Bytes.join] using hs
    | cons _ _ =>
      rw [Bytes.join, Bytes.join, List.intercalate_cons_cons, List.intercalate_cons_cons]
      exact k.append (k.append hs (k.refl separator)) ih

end Kinship

def Environment.kin (k : Kinship) (env : Environment) : Environment := env.recast k.move k.pretty k.indent

structure Progress.Kin (k : Kinship) (p p' : Progress) : Prop where
  ledger : k.ledger p.ledger p'.ledger
  added : k.added (p.additions, p.nextNode) (p'.additions, p'.nextNode)
  keys : p.keys = p'.keys
  scopes : p.scopes = p'.scopes
  blockSeen : p.blockSeen = p'.blockSeen

namespace Rendering

variable {α α' β β' : Type} {k : Kinship} {R : α → α' → Prop} {S : β → β' → Prop}

/-- From akin states, both fail alike or both succeed, with results related by `R` and akin states. -/
def Kin (k : Kinship) (R : α → α' → Prop) (m : Rendering α) (m' : Rendering α') : Prop :=
  ∀ ⦃p p' : Progress⦄, p.Kin k p' →
    (∃ f q q', m.run p = (.error f, q) ∧ m'.run p' = (.error (f.relocate k.move), q')) ∨
    ∃ a a' q q', m.run p = (.ok a, q) ∧ m'.run p' = (.ok a', q') ∧ R a a' ∧ q.Kin k q'

/-- From akin states, the renderings give the same result. -/
abbrev Steady (k : Kinship) (m m' : Rendering α) : Prop := Kin k Eq m m'

/-- The lists hold the same, but for the places. -/
abbrev Moved (k : Kinship) (f : Relocation → α → α) (xs xs' : List α) : Prop :=
  xs' = xs.map (f k.move)

namespace Kin

theorem pure {a : α} {a' : α'} (h : R a a') : Kin k R (Pure.pure a) (Pure.pure a') :=
  fun _ _ hp => .inr ⟨a, a', _, _, rfl, rfl, h, hp⟩

theorem throw (f : Failure) :
    Kin k R (throw f : Rendering α) (MonadExcept.throw (f.relocate k.move) : Rendering α') :=
  fun _ _ _ => .inl ⟨f, _, _, rfl, rfl⟩

theorem lift {e : Except Failure α} {e' : Except Failure α'}
    (h : (∃ f, e = .error f ∧ e' = .error (f.relocate k.move)) ∨ ∃ a a', e = .ok a ∧ e' = .ok a' ∧ R a a') :
    Kin k R (liftM e : Rendering α) (liftM e' : Rendering α') := by
  intro p p' hp
  rcases h with ⟨f, rfl, rfl⟩ | ⟨a, a', rfl, rfl, h⟩
  · exact .inl ⟨f, p, p', rfl, rfl⟩
  · exact .inr ⟨a, a', p, p', rfl, rfl, h, hp⟩

theorem same {e e' : Except Failure α} (h : e' = e.mapError (Failure.relocate k.move)) :
    Steady k (liftM e : Rendering α) (liftM e' : Rendering α) := by
  refine lift ?_
  subst h
  cases e with
  | error f => exact .inl ⟨f, rfl, rfl⟩
  | ok a => exact .inr ⟨a, a, rfl, rfl, rfl⟩

theorem seq {m : Rendering α} {m' : Rendering α'} {n : α → Rendering β} {n' : α' → Rendering β'} (hm : Kin k R m m')
    (hn : ∀ a a', R a a' → Kin k S (n a) (n' a')) : Kin k S (m >>= n) (m' >>= n') := by
  intro p p' hp
  rw [run_bind, run_bind]
  rcases hm hp with ⟨f, q, q', hq, hq'⟩ | ⟨a, a', q, q', hq, hq', ha, hstate⟩
  · rw [hq, hq']
    exact .inl ⟨f, q, q', rfl, rfl⟩
  · rw [hq, hq']
    exact hn a a' ha hstate

theorem bind {m m' : Rendering α} {n : α → Rendering β} {n' : α → Rendering β'} (hm : Steady k m m')
    (hn : ∀ a, Kin k S (n a) (n' a)) : Kin k S (m >>= n) (m' >>= n') :=
  seq hm fun a a' ha => by
    subst ha
    exact hn a

theorem mono {R' : α → α' → Prop} {m : Rendering α} {m' : Rendering α'} (h : Kin k R m m')
    (hR : ∀ a a', R a a' → R' a a') : Kin k R' m m' := by
  intro p p' hp
  rcases h hp with hfail | ⟨a, a', q, q', hq, hq', ha, hstate⟩
  · exact .inl hfail
  · exact .inr ⟨a, a', q, q', hq, hq', hR a a' ha, hstate⟩

/-- What is read from the state may depend on all of it but the ledger. -/
theorem get {n : Progress → Rendering β} {n' : Progress → Rendering β'}
    (hn : ∀ p p', p.Kin k p' → Kin k S (n p) (n' p')) : Kin k S (MonadState.get >>= n) (MonadState.get >>= n') :=
  fun p p' hp => hn p p' hp hp

theorem modify {u u' : Progress → Progress} (h : ∀ p p', p.Kin k p' → (u p).Kin k (u' p')) :
    Kin k Eq (modify u : Rendering Unit) (modify u') := fun p p' hp => .inr ⟨(), (), u p, u' p', rfl, rfl, rfl, h p p' hp⟩

theorem mapM {f : α → Rendering β} {f' : α' → Rendering β} {r : α → α'} (h : ∀ a, Steady k (f a) (f' (r a)))
    (xs : List α) : Steady k (xs.mapM f) ((xs.map r).mapM f') := by
  induction xs with
  | nil => exact pure rfl
  | cons x xs ih =>
    rw [List.map_cons, List.mapM_cons, List.mapM_cons]
    exact bind (h x) fun a => bind ih fun as => pure rfl

theorem forM {f : α → Rendering PUnit} (h : ∀ a, Steady k (f a) (f a)) (xs : List α) :
    Steady k (xs.forM f) (xs.forM f) := by
  induction xs with
  | nil => exact pure rfl
  | cons x xs ih => exact bind (h x) fun _ => ih

end Kin

theorem say_kin (topic : Topic) (line : Bytes) : Steady k (say topic line) (say topic line) :=
  .modify fun _ _ h => { h with ledger := k.say h.ledger topic line }

theorem require_kin (env : Environment) (site : Site) {name : Bytes} (hname : name ∈ Preamble.builtin.map (·.1)) :
    Steady k (require env (some site) name) (require (env.kin k) (some (site.relocate k.move)) name) := by
  intro p p' hp
  obtain ⟨r, r', hr, hr', hledger⟩ := k.require hp.ledger (some site) (some (site.relocate k.move)) name hname
  rw [run_require, run_require, hr, hr']
  exact .inr ⟨_, _, _, _, rfl, rfl, rfl, { hp with ledger := hledger }⟩

theorem run_mark (env : Environment) (origin : Option Origin) (p : Progress) :
    (mark env origin).run p = (.ok (p.ledger.number (origin.map env.settings.complete)).2,
      { p with ledger := (p.ledger.number (origin.map env.settings.complete)).1 }) := by
  cases origin <;> rfl

theorem mark_kin (env : Environment) (origin : Option Origin) :
    Kin k k.text (mark env origin) (mark (env.kin k) (k.move.place origin)) := by
  intro p p' hp
  obtain ⟨hledger, htext⟩ := k.mark hp.ledger env.settings.complete origin
  exact .inr ⟨_, _, _, _, run_mark .., run_mark .., htext, { hp with ledger := hledger }⟩

theorem freshKey_kin : Steady k freshKey freshKey := by
  refine .get fun p p' hp => ?_
  rw [hp.keys]
  exact .bind (.modify fun _ _ h => { h with keys := rfl }) fun _ => .pure rfl

theorem freshScope_kin : Steady k freshScope freshScope := by
  refine .get fun p p' hp => ?_
  rw [hp.scopes]
  exact .bind (.modify fun _ _ h => { h with scopes := rfl }) fun _ => .pure rfl

theorem attributesOf_kin (owner : NodeId) (attributes : List Attribute) :
    Kin k (Moved k Attribute.relocate) (attributesOf owner attributes)
      (attributesOf (k.move.number owner) (attributes.map (·.relocate k.move))) := by
  refine .get fun p p' hp => .pure ?_
  rw [k.attributes hp.added owner, Moved, List.map_append]

end Rendering

open Rendering (Kin Steady Moved)

/-- Handlers do the same in both renderings, and the patterns that markup is put into pass it on. -/
structure Environment.Passes (k : Kinship) (env : Environment) : Prop where
  offer : ∀ owner attributes a, Steady k (Attributes.offer env owner attributes a 0 env.settings.handlers)
    (Attributes.offer (env.kin k) (k.move.number owner) (attributes.map (·.relocate k.move)) (a.relocate k.move) 0
      env.settings.handlers)
  pattern : ∀ {name}, name ∈ Session.carriers → ∀ site {args args'}, List.Forall₂ k.text args args' →
    Kin k k.text (env.pattern site name args : Rendering Bytes)
      ((env.kin k).pattern (site.relocate k.move) name args' : Rendering Bytes)

/-- No handler takes part, and the patterns that markup is put into are templates. -/
structure Environment.Plain (env : Environment) : Prop where
  handlers : env.settings.handlers = []
  templates : ∀ name ∈ Session.carriers, ∀ inputs body,
    env.patterns.get? name ≠ some (.producer inputs body)

variable {k : Kinship} {env : Environment}

/-- Markup in a pattern, where producers are taken care of. -/
theorem Environment.pattern_kin {name : Bytes} (site : Site) {args args' : List Bytes} (hargs : List.Forall₂ k.text args args')
    (hproducer : ∀ inputs body, env.patterns.get? name = some (.producer inputs body) →
      Kin k k.text (env.pattern site name args : Rendering Bytes)
        ((env.kin k).pattern (site.relocate k.move) name args' : Rendering Bytes)) :
    Kin k k.text (env.pattern site name args : Rendering Bytes)
      ((env.kin k).pattern (site.relocate k.move) name args' : Rendering Bytes) := by
  cases hp : env.patterns.get? name with
  | none =>
    refine .lift ?_
    rw [pattern, pattern, show (env.kin k).patterns = env.patterns from rfl, Pattern.render_of_missing hp,
      Pattern.render_of_missing hp]
    exact .inl ⟨_, rfl, rfl⟩
  | some p =>
    cases p with
    | template text =>
      refine .lift ?_
      rw [pattern, pattern, show (env.kin k).patterns = env.patterns from rfl, Pattern.render_of_template hp,
        Pattern.render_of_template hp]
      exact .inr ⟨_, _, rfl, rfl, Kinship.fill hargs 0 _⟩
    | producer inputs body => exact hproducer inputs body hp

theorem Environment.Plain.passes (h : env.Plain) : env.Passes k where
  offer owner attributes a := by
    rw [h.handlers]
    exact .pure rfl
  pattern hname site _ _ hargs :=
    pattern_kin site hargs fun inputs body hp => absurd hp (h.templates _ hname inputs body)

open Environment (pattern_relocate code_relocate snippet_relocate display_relocate)

namespace Attributes

theorem pending_kin (h : env.Passes k) (owner : NodeId) (attributes : List Attribute) (assignments : List Assignment) :
    Kin k (Moved k Assignment.relocate) (pending env owner attributes assignments)
      (pending (env.kin k) (k.move.number owner) (attributes.map (·.relocate k.move))
        (assignments.map (·.relocate k.move))) := by
  induction assignments with
  | nil => exact .pure rfl
  | cons a rest ih =>
    rw [List.map_cons, pending, pending]
    refine .bind (h.offer owner attributes a) fun taken => ?_
    split
    · exact ih
    · rw [show (a.relocate k.move).name = a.name from rfl]
      split
      · refine .seq ih fun left left' hleft => .pure ?_
        rw [hleft, Moved, List.map_cons]
      · exact .throw _

theorem merge_kin (env : Environment) (site : Site) (cs : List Contribution) :
    Steady k (merge env site cs) (merge (env.kin k) (site.relocate k.move) cs) := by
  rw [merge, merge]
  split
  · exact .same (entries_relocate ..)
  · exact .bind (Rendering.require_kin env _ (by decide)) fun _ => .same (pattern_relocate ..)

theorem bare_kin (env : Environment) (a : Attribute) : Steady k (bare env a) (bare (env.kin k) (a.relocate k.move)) := by
  rw [bare, bare, show (a.relocate k.move).nameExpr = a.nameExpr.map (·.relocate k.move) from rfl]
  cases a.nameExpr with
  | none => exact .same (pattern_relocate a.site ..)
  | some s =>
    refine .bind (.same (snippet_relocate s)) fun code => .bind Rendering.freshKey_kin fun temporary => ?_
    refine .bind (.same (pattern_relocate a.site ..)) fun assign => .bind (.same (pattern_relocate a.site ..)) fun key => ?_
    exact .bind (.same (pattern_relocate a.site ..)) fun _ => .pure rfl

theorem known_kin (env : Environment) (a : Attribute) (escape : Bool) (v : Value) :
    Steady k (known env a escape v) (known (env.kin k) (a.relocate k.move) escape v) := by
  unfold known
  split
  · exact bare_kin env a
  · exact .pure rfl
  · exact .pure rfl
  · exact .same (pair_relocate ..)

theorem single_kin (env : Environment) (scope : Scope) (a : Attribute) :
    Steady k (single env scope a) (single (env.kin k) scope (a.relocate k.move)) := by
  rw [single, single, show (a.relocate k.move).value = a.value.relocate k.move from rfl]
  cases a.value with
  | absent => exact bare_kin env a
  | text value escape => exact .same (pair_relocate ..)
  | code s =>
    rw [Attribute.Value.relocate]
    dsimp only
    rw [show (s.relocate k.move).source = s.source from rfl]
    split
    · exact known_kin ..
    · split
      · exact known_kin ..
      · refine .bind (.same (snippet_relocate s)) fun code => ?_
        exact .bind (.same (display_relocate s.site ..)) fun _ => .same (pair_relocate ..)
  | other site => exact .throw _

theorem write_kin (h : env.Passes k) (scope : Scope) (owner : NodeId) (site : Site) (attributes : List Attribute)
    (assignments : List Assignment) :
    Steady k (write env scope owner site attributes assignments)
      (write (env.kin k) scope (k.move.number owner) (site.relocate k.move) (attributes.map (·.relocate k.move))
        (assignments.map (·.relocate k.move))) := by
  rw [write, write]
  refine .seq (pending_kin h ..) fun left left' hleft => .seq (Rendering.attributesOf_kin ..) fun all all' hall => ?_
  rw [hleft, hall, List.isEmpty_map, needMerge_relocate]
  split
  · exact .bind (.same (Contribution.collect_relocate ..)) fun cs => merge_kin env site cs
  · exact .bind (.mapM (single_kin env scope) all) fun _ => .pure rfl

end Attributes

namespace Expansion

theorem listCode_kin (call : Call) (codes : List (Argument × Bytes)) :
    Steady k (listCode call codes) (listCode call codes) := by
  refine .bind (.forM (fun code => ?_) codes) fun _ => .pure rfl
  obtain ⟨a, code⟩ := code
  by_cases ha : a.packed
  · simp only [ha, if_true]
    exact Rendering.say_kin ..
  · simp only [ha]
    exact .pure rfl

theorem attributes_kin (h : env.Passes k) (scope : Scope) (id : NodeId) (site : Site) (call : Call) (m : Mixin)
    (b : Binding) :
    Steady k (attributes env scope id site call m b)
      (attributes (env.kin k) scope (k.move.number id) (site.relocate k.move) (call.relocate k.move) m (b.relocate k.move)) := by
  rw [attributes, attributes]
  refine .seq (Attributes.pending_kin h ..) fun assignments assignments' hassignments => ?_
  rw [hassignments, show (b.relocate k.move).attributes.length = b.attributes.length from List.length_map ..]
  refine .bind (.same (sets_relocate ..)) fun cs => ?_
  split
  · exact .pure rfl
  · split
    · split
      · exact .pure rfl
      · exact .bind (Rendering.require_kin env _ (by decide)) fun _ => .pure rfl
    · exact .bind (Rendering.require_kin env _ (by decide)) fun _ => .pure rfl

theorem argumentCodes_kin (env : Environment) (call : Call) :
    Kin k (fun codes codes' => codes' = codes.map fun c => (c.1.relocate k.move, c.2))
      (argumentCodes env call : Rendering (List (Argument × Bytes))) (argumentCodes (env.kin k) (call.relocate k.move)) := by
  refine .lift ?_
  rw [show argumentCodes (env.kin k) (call.relocate k.move) = _ from argumentCodes_relocate call]
  cases argumentCodes env call with
  | error f => exact .inl ⟨f, rfl, rfl⟩
  | ok codes => exact .inr ⟨codes, _, rfl, rfl, rfl⟩

theorem spreadArguments_kin (env : Environment) (call : Call) :
    Steady k (spreadArguments env call) (spreadArguments (env.kin k) (call.relocate k.move)) := by
  rw [spreadArguments, spreadArguments, show (call.relocate k.move).args = call.args.map (·.relocate k.move) from rfl,
    isMixed_relocate]
  refine .seq (argumentCodes_kin env call) fun codes codes' hcodes => ?_
  rw [hcodes, listCode_relocate, List.map_map]
  split
  · exact .bind (listCode_kin ..) fun _ => .pure rfl
  · exact .pure rfl

/-- The actual arguments differ at most in the text of the block. -/
structure Actuals.Kin (k : Kinship) (a a' : Actuals) : Prop where
  setup : a.setup = a'.setup
  attributes : a.attributes = a'.attributes
  known : a.known = a'.known
  block : k.text a.block a'.block
  args : a.args = a'.args

theorem spreadAttributes_kin (env : Environment) (site : Site) (call : Call) (m : Mixin) {a a' : Actuals} (ha : a.Kin k a') :
    Kin k (Actuals.Kin k) (spreadAttributes env site call m a)
      (spreadAttributes (env.kin k) (site.relocate k.move) (call.relocate k.move) m a') := by
  rw [spreadAttributes, spreadAttributes]
  refine .seq (argumentCodes_kin env call) fun codes codes' hcodes => ?_
  rw [hcodes, listCode_relocate]
  refine .bind (listCode_kin ..) fun list => .bind Rendering.freshScope_kin fun n => ?_
  refine .bind (Rendering.require_kin env _ (by decide)) fun accessor => .bind (Rendering.say_kin ..) fun _ => .pure ?_
  exact ⟨by rw [ha.setup], by rw [ha.attributes], rfl, ha.block, rfl⟩

section Children

variable {render render' : Render} (h : env.Passes k)
  (hr : ∀ scope es, Kin k k.text (render scope es) (render' scope (es.map (·.relocate k.move))))
include h hr

theorem block_kin (scope : Scope) (site : Site) (children : List Element) :
    Kin k (fun b b' => b.1 = b'.1 ∧ k.text b.2 b'.2) (block env render scope site children)
      (block (env.kin k) render' scope (site.relocate k.move) (children.map (·.relocate k.move))) := by
  rw [block, block, List.isEmpty_map]
  split
  · exact .pure ⟨rfl, k.refl _⟩
  · refine .seq (hr scope children) fun body body' hbody => .bind Rendering.freshScope_kin fun n => ?_
    refine .seq (h.pattern (by decide) site (.cons hbody .nil)) fun inner inner' hinner => .pure ⟨rfl, ?_⟩
    exact k.append (k.append (k.refl _) hinner) (k.refl _)

theorem actuals_kin (scope : Scope) (id : NodeId) (site : Site) (call : Call) (children : List Element) (m : Mixin)
    (b : Binding) :
    Kin k (Actuals.Kin k) (actuals env render scope id site call children m b)
      (actuals (env.kin k) render' scope (k.move.number id) (site.relocate k.move) (call.relocate k.move)
        (children.map (·.relocate k.move)) m (b.relocate k.move)) := by
  rw [actuals, actuals, show (b.relocate k.move).runtime = b.runtime from rfl]
  refine .seq (block_kin h hr ..) fun block block' hblock => .bind (attributes_kin h ..) fun attributes => ?_
  have hplain (args : List Bytes) : Actuals.Kin k ⟨block.1, attributes.1, attributes.2, block.2, args⟩
      ⟨block'.1, attributes.1, attributes.2, block'.2, args⟩ := ⟨hblock.1, rfl, rfl, hblock.2, rfl⟩
  dsimp only
  split
  · refine .bind (spreadArguments_kin env call) fun args => ?_
    split
    · exact spreadAttributes_kin env site call m (hplain args)
    · exact .pure (hplain args)
  · refine .bind (.same (boundArguments_relocate ..)) fun args => ?_
    split
    · exact spreadAttributes_kin env site call m (hplain args)
    · exact .pure (hplain args)

theorem write_kin (scope : Scope) (id : NodeId) (site : Site) (call : Call) (children : List Element) :
    Kin k k.text (write env render scope id site call children)
      (write (env.kin k) render' scope (k.move.number id) (site.relocate k.move) (call.relocate k.move)
        (children.map (·.relocate k.move))) := by
  have hfind : Element.findMixin? (env.kin k).mixins (call.relocate k.move).name = _ :=
    Element.findMixin?_relocate k.move env.mixins call.name
  rw [write, write, hfind]
  cases Element.findMixin? env.mixins call.name with
  | none => exact .throw _
  | some d =>
    rw [Option.map_some]
    dsimp only
    refine .seq (Rendering.attributesOf_kin ..) fun all all' hall => ?_
    have hbinding : Binding.ofCall (d.relocate k.move).mixin (call.relocate k.move).args all' =
        (Binding.ofCall d.mixin call.args all).relocate k.move := by
      rw [hall]
      exact Binding.ofCall_relocate k.injective d.mixin call.args all
    have hdropped : ((Binding.ofCall d.mixin call.args all).relocate k.move).dropped =
        (Binding.ofCall d.mixin call.args all).dropped.map (·.relocate k.move) := rfl
    rw [hbinding, hdropped, List.isEmpty_map, List.length_map, show (call.relocate k.move).name = call.name from rfl,
      show (d.relocate k.move).body = Element.relocateAll k.move d.body from rfl, Element.relocateAll_eq]
    split
    on_goal 1 => refine .bind (Rendering.say_kin ..) fun _ => ?_
    all_goals
      refine .seq (actuals_kin h hr ..) fun a a' ha => .bind (Rendering.say_kin ..) fun _ => ?_
      rw [ha.known]
      refine .seq (hr ..) fun body body' hbody => ?_
      refine .seq (h.pattern (by decide) site (.cons hbody .nil)) fun inner inner' hinner => ?_
      refine h.pattern (by decide) site (.cons ?_ .nil)
      rw [ha.setup, ha.attributes, ha.args]
      have hargs : List.Forall₂ k.text (a'.attributes :: a.block :: a'.args) (a'.attributes :: a'.block :: a'.args) :=
        .cons (k.refl _) (.cons ha.block (List.forall₂_same.mpr fun s _ => k.refl s))
      exact k.append (k.append (k.append (k.append (k.refl _) hinner) (k.refl _)) (Kinship.join hargs _)) (k.refl _)

end Children

end Expansion

def Environment.lineBreak (env : Environment) (scope : Scope) (block : Bool) : Bytes :=
  if env.settings.pretty && block then env.indentation scope else []

namespace Render

theorem setBlockSeen_kin (b : Bool) :
    Steady k (modify fun p => { p with blockSeen := b } : Rendering Unit) (modify fun p => { p with blockSeen := b }) :=
  .modify fun _ _ h => { h with blockSeen := rfl }

theorem marked_kin {text text' : Rendering Bytes} (ht : Kin k k.text text text') (origin : Option Origin) :
    Kin k k.text (marked env origin text) (marked (env.kin k) (k.move.place origin) text') :=
  .seq ht fun _ _ htext => .seq (Rendering.mark_kin env origin) fun _ _ hmark => .pure (k.append hmark htext)

theorem kin_of_same {e e' : Except Failure Bytes} (h : e' = e.mapError (Failure.relocate k.move)) :
    Kin k k.text (liftM e : Rendering Bytes) (liftM e' : Rendering Bytes) :=
  .mono (.same h) fun a _ ha => ha ▸ k.refl a

section Children

variable {render render' : Expansion.Render}
  (hr : ∀ scope es, Kin k k.text (render scope es) (render' scope (es.map (·.relocate k.move))))
include hr

theorem inner_kin (scope : Scope) (children : List Element) :
    Kin k (fun t t' => k.text t.1 t'.1 ∧ t.2 = t'.2) (inner render scope children)
      (inner render' scope (children.map (·.relocate k.move))) := by
  refine .get fun p p' hp => ?_
  rw [hp.blockSeen]
  refine .bind (setBlockSeen_kin false) fun _ => .seq (hr scope children) fun text text' htext => ?_
  refine .get fun q q' hq => ?_
  rw [hq.blockSeen]
  exact .bind (setBlockSeen_kin _) fun _ => .pure ⟨htext, rfl⟩

variable (hbreak : ∀ scope block, k.text (env.lineBreak scope block) ((env.kin k).lineBreak scope block))
include hbreak

theorem pair_kin (scope : Scope) (site : Site) (name attributes : Bytes) (block : Bool) (children : List Element) :
    Kin k k.text (pair env render scope site name attributes block children)
      (pair (env.kin k) render' scope (site.relocate k.move) name attributes block
        (children.map (·.relocate k.move))) := by
  rw [pair, pair]
  refine .bind (.same (pattern_relocate ..)) fun opening => .bind (.same (pattern_relocate ..)) fun closing => ?_
  refine .seq (inner_kin hr ..) fun t t' ht => .pure ?_
  rw [ht.2]
  simp only [Bool.and_assoc]
  exact k.append (k.append (k.append (k.refl _) ht.1) (hbreak scope (block && t'.2))) (k.refl _)

variable (h : env.Passes k)
include h

theorem markup_kin (scope : Scope) (id : NodeId) (origin : Option Origin) (site : Site) (tag : Tag)
    (children : List Element) :
    Kin k k.text (markup env render scope id origin site tag children)
      (markup (env.kin k) render' scope (k.move.number id) (k.move.place origin) (site.relocate k.move) (tag.relocate k.move)
        (children.map (·.relocate k.move))) := by
  have hclosing (b : Bool) : (env.kin k).dialect.isSelfClosing (tag.relocate k.move) b = env.dialect.isSelfClosing tag b :=
    env.dialect.isSelfClosing_relocate k.move tag b
  have hblock : (env.kin k).dialect.startsLine (tag.relocate k.move) = env.dialect.startsLine tag := rfl
  have hname : ((tag.relocate k.move).nameExpr.map (·.source)).getD (tag.relocate k.move).name =
      (tag.nameExpr.map (·.source)).getD tag.name := congrArg (Option.getD · _) (Option.map_map ..)
  rw [markup, markup]
  refine .bind (.same (tagName_relocate ..)) fun name => ?_
  simp only [hclosing, hblock, hname, List.isEmpty_map]
  split
  · exact .throw _
  · refine .bind (Attributes.write_kin h ..) fun attributes => ?_
    refine .seq (Rendering.mark_kin env origin) fun mark mark' hmark => ?_
    have hlead := k.append (hbreak scope (env.dialect.startsLine tag)) hmark
    split
    · refine .bind (.same (pattern_relocate ..)) fun text => ?_
      split
      · exact .bind (setBlockSeen_kin true) fun _ => .pure (k.append hlead (k.refl _))
      · exact .pure (k.append hlead (k.refl _))
    · refine .seq (pair_kin hr hbreak ..) fun text text' htext => ?_
      split
      · exact .bind (setBlockSeen_kin true) fun _ => .pure (k.append hlead htext)
      · exact .pure (k.append hlead htext)

omit hbreak in
theorem code_kin (scope : Scope) (site : Site) (source : Bytes) (children : List Element) :
    Kin k k.text (code env render scope site source children)
      (code (env.kin k) render' scope (site.relocate k.move) source (children.map (·.relocate k.move))) := by
  rw [code, code, List.isEmpty_map]
  refine .bind (.same (code_relocate ..)) fun code => ?_
  split
  · exact kin_of_same (pattern_relocate ..)
  · refine .seq (hr scope children) fun body body' hbody => ?_
    split
    · refine .seq (h.pattern (by decide) site (.cons hbody .nil)) fun inner inner' hinner => ?_
      refine .seq (h.pattern (by decide) site (.cons hinner .nil)) fun block block' hblock => ?_
      exact h.pattern (by decide) site (.cons (k.append (k.refl _) hblock) .nil)
    · exact .bind (.same (pattern_relocate ..)) fun _ => .pure (k.append (k.refl _) hbody)

theorem content_kin (scope : Scope) (e : Element) :
    Kin k k.text (content env render scope e) (content (env.kin k) render' scope (e.relocate k.move)) := by
  obtain ⟨id, origin, content, children⟩ := e
  rw [Element.relocate, Element.relocateAll_eq]
  cases content with
  | markup tag => exact markup_kin hr hbreak h ..
  | mixin m => exact .pure (k.refl _)
  | document => exact marked_kin (hr scope children) origin
  | doctype value => exact marked_kin (kin_of_same (doctype_relocate ..)) origin
  | text value => exact marked_kin (.pure (k.refl _)) origin
  | code source => exact marked_kin (code_kin hr h ..) origin
  | expression s => exact marked_kin (kin_of_same (expression_relocate ..)) origin
  | binding name value => exact marked_kin (kin_of_same (binding_relocate ..)) origin
  | call call => exact marked_kin (Expansion.write_kin h hr ..) origin
  | block => exact marked_kin (kin_of_same (block_relocate ..)) origin
  | stray kind => exact .throw _

end Children

theorem text?_relocate (g : Relocation) (e : Element) : text? (e.relocate g) = text? e := by
  obtain ⟨id, origin, content, children⟩ := e
  cases content <;> rfl

theorem listFrom_kin {one one' : Element → Rendering Bytes} (ho : ∀ e, Kin k k.text (one e) (one' (e.relocate k.move)))
    (before : Option Forest.Text) (es : List Element) :
    Kin k k.text (listFrom one before es) (listFrom one' before (es.map (·.relocate k.move))) := by
  induction es generalizing before with
  | nil => exact .pure (k.refl _)
  | cons e es ih =>
    rw [List.map_cons, listFrom, listFrom, text?_relocate]
    refine .seq (ho e) fun first first' hfirst => .seq (ih _) fun rest rest' hrest => .pure ?_
    exact k.append (k.append (k.refl _) hfirst) hrest

/-- The texts of a node in the two renderings are akin. -/
theorem node_kin (h : env.Passes k)
    (hbreak : ∀ scope block, k.text (env.lineBreak scope block) ((env.kin k).lineBreak scope block)) (budget : Nat)
    (scope : Scope) (e : Element) :
    Kin k k.text (node env budget scope e) (node (env.kin k) budget scope (e.relocate k.move)) := by
  induction budget generalizing scope e with
  | zero =>
    rw [node, node, Element.site_relocate]
    exact .throw _
  | succ budget ih =>
    rw [node, node]
    exact content_kin (fun scope es => listFrom_kin (ih scope) none es) hbreak h scope e

end Render

end Stencil
