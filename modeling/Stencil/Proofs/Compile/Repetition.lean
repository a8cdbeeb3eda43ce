import Stencil.Proofs.Compile.Independence
import Stencil.Proofs.Compile.SourceMaps

/-! Trees rendered again. In the session that rendered a tree the ledger has grown and its patterns are in force, and
neither shows in a page without debugging: handlers see the attributes and the declared helpers alone, so they do the same
again. What handlers add stays in the tree, though, and the next rendering finds it there. -/

namespace Stencil

/-- Functions that markup is put into are blind to the numbers of its marks. -/
def Settings.Blind (settings : Settings) : Prop :=
  ∀ name inputs body, (name, inputs, body) ∈ settings.producers → name ∈ Session.carriers →
    ∀ texts args args', List.Forall₂ Page.Twin args args' → Page.Twin (body texts args) (body texts args')

theorem Ledger.require_alike {l l' : Ledger} (h : l'.helpers.declared = l.helpers.declared) (site : Option Site) (name : Bytes) :
    (∃ f, l.require site name = .error f ∧ l'.require site name = .error f) ∨
    ∃ r r', l.require site name = .ok r ∧ l'.require site name = .ok r' ∧ r.helpers.declared = l.helpers.declared ∧
      r'.helpers.declared = r.helpers.declared := by
  have hdeclared : l'.helpers.isDeclared name = l.helpers.isDeclared name := by
    rw [Helper.Registry.isDeclared, Helper.Registry.isDeclared, h]
  rcases l.require_cases site name with ⟨hnot, hr⟩ | ⟨hdone, r, hr, hhelpers, -⟩
  · rcases l'.require_cases site name with ⟨-, hr'⟩ | ⟨hdone', -⟩
    · exact .inl ⟨_, hr, hr'⟩
    · rw [hdeclared, hnot] at hdone'
      cases hdone'
  · rcases l'.require_cases site name with ⟨hnot', -⟩ | ⟨-, r', hr', hhelpers', -⟩
    · rw [hdeclared, hdone] at hnot'
      cases hnot'
    · exact .inr ⟨r, r', hr, hr', by rw [hhelpers], by rw [hhelpers, hhelpers', h]⟩

def Kinship.again (settings : Settings) : Kinship :=
  { Kinship.apart settings with
    ledger := fun l l' => l.Equipped ∧ l'.helpers.declared = l.helpers.declared
    added := Eq
    say := fun h _ _ => h
    require := fun h site site' name hname => by
      obtain ⟨r, hr, hequipped⟩ := h.1.require site hname
      obtain ⟨r', hr', -⟩ := (h.1.of_declared h.2).require site' hname
      refine ⟨r, r', hr, hr', hequipped, ?_⟩
      rw [(Ledger.extends_require hr').1.declared, h.2, (Ledger.extends_require hr).1.declared]
    mark := fun h _ origin => by
      cases origin with
      | none => exact ⟨h, .nil⟩
      | some o => exact ⟨h, Page.twin_mark _ _⟩
    attributes := by
      rintro a _ rfl owner
      have hstill : (fun a : Attribute => a.relocate .still) = id := funext Attribute.relocate_still
      exact (congrArg (List.map · _) hstill).symm ▸ (List.map_id _).symm }

open Rendering (Kin Steady)

variable {env : Environment} {settings : Settings}

theorem addAttribute_again (owner : NodeId) (a : Handler.NewAttribute) :
    Steady (.again settings) (Rendering.addAttribute owner a) (Rendering.addAttribute owner a) := by
  refine .modify fun p p' hp => { hp with added := ?_ }
  obtain ⟨hadditions, hnext⟩ := Prod.mk.inj hp.added
  rw [hadditions, hnext]
  rfl

theorem Handler.Script.run_again (owner : NodeId) (script : Handler.Script) :
    Steady (.again settings) (script.run env owner) (script.run env owner) := by
  induction script with
  | finish taken => exact .pure rfl
  | fail f =>
    have h := Rendering.Kin.throw (k := .again settings) (R := (Eq : Bool → Bool → Prop)) f
    rwa [show f.relocate (Kinship.again settings).move = f from f.relocate_still] at h
  | add a next ih => exact .bind (addAttribute_again owner a) fun _ => ih
  | require helper next ih =>
    rw [run]
    refine .get fun p p' hp => ?_
    rcases Ledger.require_alike hp.ledger.2 none helper with ⟨f, hf, hf'⟩ | ⟨r, r', hr, hr', hkept, hsame⟩
    · rw [hf, hf']
      exact ih _
    · rw [hr, hr']
      refine .bind (.modify fun q q' hq => { hq with ledger := ⟨hp.ledger.1.of_declared hkept, hsame⟩ }) fun _ => ih _

theorem map_relocate_again (attributes : List Attribute) :
    attributes.map (·.relocate (Kinship.again settings).move) = attributes :=
  (List.map_congr_left fun a _ => a.relocate_still).trans attributes.map_id

theorem Attributes.offer_again (owner : NodeId) (attributes : List Attribute) (a : Assignment) (index : Nat)
    (handlers : List Handler) :
    Steady (.again settings) (offer env owner attributes a index handlers) (offer env owner attributes a index handlers) := by
  induction handlers generalizing index with
  | nil => exact .pure rfl
  | cons h handlers ih =>
    have hattributes := Rendering.attributesOf_kin (k := .again settings) owner attributes
    rw [map_relocate_again] at hattributes
    have hrun : Steady (.again settings) (h.run env owner attributes a) (h.run env owner attributes a) := by
      rw [Handler.run]
      split
      · exact .pure rfl
      · refine .seq hattributes fun all all' hall => ?_
        obtain rfl : all' = all := hall.trans (map_relocate_again all)
        exact Handler.Script.run_again owner _
    refine .bind hrun fun taken => ?_
    split
    · exact .bind (Rendering.say_kin ..) fun _ => .pure rfl
    · exact ih _

theorem Pattern.render_of_producer {t : Table} {name : Bytes} {inputs : List Bytes} {body : Producer}
    (h : t.get? name = some (.producer inputs body)) :
    ∃ texts : Except Error (List Bytes), ∀ args, render t name args = texts.map fun texts => body texts args := by
  simp only [render]
  cases t.length with
  | zero => exact ⟨.error (.cyclic [name]), fun args => by simp [resolve, h, Except.map]⟩
  | succ fuel =>
    refine ⟨inputs.mapM fun i => resolve t fuel [name] false i [], fun args => ?_⟩
    rw [resolve, h]
    rfl

theorem Environment.passes_again (env : Environment)
    (hproducers : ∀ name ∈ Session.carriers, ∀ inputs body, env.patterns.get? name = some (.producer inputs body) →
      ∀ texts args args', List.Forall₂ Page.Twin args args' → Page.Twin (body texts args) (body texts args')) :
    env.Passes (.again env.settings) where
  offer owner attributes a := by
    rw [show env.kin (.again env.settings) = env from env.recast_still .., map_relocate_again,
      show a.relocate (Kinship.again env.settings).move = a from a.relocate_still]
    exact Attributes.offer_again owner attributes a 0 env.settings.handlers
  pattern := by
    intro name hname site args args' hargs
    refine pattern_kin site hargs fun inputs body hp => ?_
    obtain ⟨texts, htexts⟩ := Pattern.render_of_producer hp
    refine .lift ?_
    rw [Environment.pattern, Environment.pattern, show (env.kin (.again env.settings)).patterns = env.patterns from rfl,
      htexts, htexts]
    cases texts with
    | error e => exact .inl ⟨_, rfl, congrArg Except.error (Failure.relocate_still _).symm⟩
    | ok texts => exact .inr ⟨_, _, rfl, rfl, hproducers name hname inputs body hp texts args args' hargs⟩

namespace Render

/-- Without debugging, a page that comes out comes out again, and handlers add the same to its tree. -/
theorem finished_again (h : env.Passes (.again env.settings)) (hdebug : env.settings.debug = false) {e : Element} {page : Page}
    {p p' q : Progress} (hp : p.Kin (.again env.settings) p') (hrun : (finished env e).run p = (.ok page, q)) :
    ∃ page' q', (finished env e).run p' = (.ok page', q') ∧ page'.text = page.text ∧ q'.additions = q.additions := by
  have henv : env.kin (.again env.settings) = env := env.recast_still ..
  have hnode := node_kin h (fun _ _ => henv ▸ .refl _) env.settings.maxDepth .outermost e
  rw [henv, show e.relocate (Kinship.again env.settings).move = e from e.relocate_still] at hnode
  obtain ⟨body, r, htree, hpage⟩ := Rendering.bind_run_ok hrun
  rcases hnode hp with ⟨f, q, q', hq, -⟩ | ⟨t, t', r, r', ht, ht', htwin, hkin⟩
  · rw [tree, hq] at htree
    cases htree
  · rw [tree, ht] at htree
    cases htree
    rw [page_run hdebug] at hpage
    obtain ⟨hbody, rfl⟩ := Prod.mk.inj hpage
    obtain ⟨a, a', ha, ha', htext⟩ := Page.body_twin hdebug htwin e.site r.ledger.fragments r'.ledger.fragments
    obtain rfl : a = page := Except.ok.inj (ha.symm.trans hbody)
    refine ⟨a', r', ?_, htext.symm, (Prod.mk.inj hkin.added).1.symm⟩
    rw [finished, Rendering.run_bind, tree, ht']
    dsimp only
    rw [page_run hdebug, ha']

end Render

/-- Nothing was added to the owner in either state, and the same helpers are declared. -/
structure Progress.Quiet (owner : NodeId) (p p' : Progress) : Prop where
  none : p.additions.filter (·.owner == owner) = []
  none' : p'.additions.filter (·.owner == owner) = []
  declared : p'.ledger.helpers.declared = p.ledger.helpers.declared

namespace Rendering

variable {α β : Type} {owner : NodeId}

/-- Additions stay, and a run that adds nothing to the owner gives the same wherever nothing was added to it. -/
structure Repeats (owner : NodeId) (m : Rendering α) : Prop where
  grows : ∀ {p q a}, m.run p = (.ok a, q) → p.additions <+: q.additions
  again : ∀ {p p' q a}, p.Quiet owner p' → m.run p = (.ok a, q) → q.additions.filter (·.owner == owner) = [] →
    ∃ q', m.run p' = (.ok a, q') ∧ q.Quiet owner q'

namespace Repeats

theorem pure (a : α) : Repeats owner (Pure.pure a : Rendering α) where
  grows h := by
    cases h
    exact List.prefix_refl _
  again hp h _ := by
    cases h
    exact ⟨_, rfl, hp⟩

theorem throw (f : Failure) : Repeats owner (throw f : Rendering α) where
  grows h := by cases h
  again _ h := by cases h

theorem bind {m : Rendering α} {n : α → Rendering β} (hm : Repeats owner m) (hn : ∀ a, Repeats owner (n a)) :
    Repeats owner (m >>= n) where
  grows h := by
    obtain ⟨a, r, hr, h⟩ := bind_run_ok h
    exact (hm.grows hr).trans ((hn a).grows h)
  again hp h hnone := by
    obtain ⟨a, r, hr, h⟩ := bind_run_ok h
    have hbetween : r.additions.filter (·.owner == owner) = [] :=
      List.prefix_nil.mp (hnone ▸ ((hn a).grows h).filter _)
    obtain ⟨r', hr', hquiet⟩ := hm.again hp hr hbetween
    obtain ⟨q', hq', hquiet⟩ := (hn a).again hquiet h hnone
    refine ⟨q', ?_, hquiet⟩
    rw [run_bind, hr']
    exact hq'

theorem modify {u : Progress → Progress} (hadditions : ∀ p, (u p).additions = p.additions)
    (hdeclared : ∀ p, (u p).ledger.helpers.declared = p.ledger.helpers.declared) :
    Repeats owner (modify u : Rendering Unit) where
  grows h := by
    cases h
    rw [hadditions]
  again hp h _ := by
    cases h
    refine ⟨_, rfl, by rw [hadditions, hp.none], by rw [hadditions, hp.none'], ?_⟩
    rw [hdeclared, hdeclared, hp.declared]

end Repeats

theorem attributesOf_repeats (attributes : List Attribute) : Repeats owner (attributesOf owner attributes) where
  grows h := by
    cases h
    exact List.prefix_refl _
  again hp h _ := by
    cases h
    refine ⟨_, ?_, hp⟩
    change (Except.ok _, _) = _
    rw [hp.none, hp.none']

/-- Adding to the owner is no repetition: it does not leave the owner as it was. -/
theorem addAttribute_repeats (a : Handler.NewAttribute) : Repeats owner (addAttribute owner a) where
  grows h := by
    cases h
    exact List.prefix_append _ _
  again _ h hnone := by
    cases h
    simp [List.filter_append] at hnone

end Rendering

open Rendering (Repeats)

variable {owner : NodeId}

theorem Handler.Script.run_repeats (script : Handler.Script) : Repeats owner (script.run env owner) := by
  induction script with
  | finish taken => exact .pure taken
  | fail f => exact .throw f
  | add a next ih => exact .bind (Rendering.addAttribute_repeats a) fun _ => ih
  | require helper next ih =>
    have hget (p : Progress) : (get : Rendering Progress).run p = (.ok p, p) := rfl
    have herror {p : Progress} {f : Failure} (h : p.ledger.require none helper = .error f) :
        ((Handler.Script.require helper next).run env owner).run p = ((next (.error f)).run env owner).run p := by
      rw [run, Rendering.run_bind, hget]
      dsimp only
      rw [h]
    have hok {p : Progress} {l : Ledger} (h : p.ledger.require none helper = .ok l) :
        ((Handler.Script.require helper next).run env owner).run p =
          ((next (.ok (env.settings.storage.accessor helper))).run env owner).run { p with ledger := l } := by
      rw [run, Rendering.run_bind, hget]
      dsimp only
      rw [h]
      rfl
    refine ⟨fun {p q taken} h => ?_, fun {p p' q taken} hp h hnone => ?_⟩
    · cases hr : p.ledger.require none helper with
      | error f => exact (ih _).grows (herror hr ▸ h)
      | ok l =>
        have hgrows := (ih _).grows (hok hr ▸ h)
        exact hgrows
    · rcases Ledger.require_alike hp.declared none helper with ⟨f, hf, hf'⟩ | ⟨r, r', hr, hr', hkept, hsame⟩
      · rw [herror hf] at h
        rw [herror hf']
        exact (ih _).again hp h hnone
      · rw [hok hr] at h
        rw [hok hr']
        have hquiet : Progress.Quiet owner { p with ledger := r } { p' with ledger := r' } := ⟨hp.none, hp.none', hsame⟩
        exact (ih _).again hquiet h hnone

theorem Handler.run_repeats (h : Handler) (attributes : List Attribute) (a : Assignment) :
    Repeats owner (h.run env owner attributes a) := by
  rw [run]
  split
  · exact .pure false
  · exact .bind (Rendering.attributesOf_repeats attributes) fun _ => Handler.Script.run_repeats _

namespace Attributes

theorem offer_repeats (attributes : List Attribute) (a : Assignment) (index : Nat) (handlers : List Handler) :
    Repeats owner (offer env owner attributes a index handlers) := by
  induction handlers generalizing index with
  | nil => exact .pure false
  | cons h handlers ih =>
    refine .bind (h.run_repeats attributes a) fun taken => ?_
    split
    · exact .bind (.modify (fun _ => rfl) fun _ => rfl) fun _ => .pure true
    · exact ih _

theorem pending_repeats (attributes : List Attribute) (assignments : List Assignment) :
    Repeats owner (pending env owner attributes assignments) := by
  induction assignments with
  | nil => exact .pure []
  | cons a rest ih =>
    refine .bind (offer_repeats attributes a 0 _) fun taken => ?_
    split
    · exact ih
    · split
      · exact .bind ih fun _ => .pure _
      · exact .throw _

/-- What a tag is written from: the assignments that no handler takes, and its attributes with those handlers add. -/
def settle (env : Environment) (owner : NodeId) (attributes : List Attribute) (assignments : List Assignment) :
    Rendering (List Assignment × List Attribute) := do
  let left ← pending env owner attributes assignments
  return (left, ← Rendering.attributesOf owner attributes)

theorem settle_repeats (attributes : List Attribute) (assignments : List Assignment) :
    Repeats owner (settle env owner attributes assignments) :=
  .bind (pending_repeats attributes assignments) fun _ => .bind (Rendering.attributesOf_repeats attributes) fun _ => .pure _

/-- Handlers have no other part in the attributes of a tag. -/
theorem write_eq_settle (scope : Scope) (site : Site) (attributes : List Attribute) (assignments : List Assignment) :
    write env scope owner site attributes assignments = settle env owner attributes assignments >>= fun (left, all) => do
      if !left.isEmpty || needMerge scope [] all then merge env site (← Contribution.collect env scope all left)
      else return (← all.mapM (single env scope)).flatten := by
  simp only [write, settle, bind_assoc, pure_bind]

end Attributes

namespace Dictionary

variable {α : Type} {d d' more : Dictionary α} {name : Bytes}

theorem insertAll_append (a b : Dictionary α) : d.insertAll (a ++ b) = (d.insertAll a).insertAll b := List.foldl_append

theorem get?_insertAll_again (h : d' = d.insertAll more) : (d'.insertAll more).get? name = d'.get? name := by
  by_cases hname : name ∈ more.map (·.1)
  · rw [h]
    exact get?_insertAll_congr (.inl hname)
  · exact get?_insertAll_of_not_mem hname

end Dictionary

namespace Session

variable {s s' : Session}

theorem patternTable_again (hsettings : s'.settings = s.settings) {d : Dialect} (hpatterns : s'.patterns = s.patternTable d) :
    Pattern.Agree (fun _ => True) (s.patternTable d) (s'.patternTable d) where
  same name _ := by
    have hlayers (s : Session) : s.patternTable d = s.patterns.insertAll (templates Dialect.basicPatterns ++ derivedPatterns ++
        templates d.patterns ++ templates s.settings.patterns ++ producerTable s.settings) := by
      simp only [patternTable_eq, Dictionary.insertAll_append]
    rw [hlayers s] at hpatterns ⊢
    rw [hlayers s', hsettings, Dictionary.get?_insertAll_again hpatterns, hpatterns]
  closed _ _ _ _ _ _ _ := trivial

theorem blind_environment (h : s.settings.Blind) (e : Element) (d : Dialect) (fallback : Bytes) :
    (s.environment e d fallback).Passes (.again s.settings) := by
  refine (s.environment e d fallback).passes_again fun name hname inputs body hp => ?_
  rcases patternTable_producer hp with hm | hm | ⟨-, hnot⟩
  · exact h name inputs body hm hname
  · have hapart : ∀ n ∈ carriers, n ∉ derivedPatterns.map (·.1) := by decide
    exact absurd (List.mem_map_of_mem hm) (hapart name hname)
  · exact absurd (.inl (carriers_common name hname)) hnot

section Again

variable (hsettings : s'.settings = s.settings) (hdebug : s.settings.debug = false) (hblind : s.settings.Blind)
  (hequipped : s.ledger.Equipped) (hdeclared : s'.ledger.helpers.declared = s.ledger.helpers.declared)
  {d : Dialect} (hpatterns : s'.patterns = s.patternTable d) {e : Element} {nextNode : NodeId} {text : Bytes}
include hsettings hdebug hblind hequipped hdeclared hpatterns

theorem renderTree_again {forms forms' : Preamble.Forms} {fallback : Bytes}
    (h : ((s.installed d forms).renderTree (s.environment e d fallback) e nextNode).result = .ok text) :
    ((s'.installed d forms').renderTree (s'.environment e d fallback) e nextNode).result = .ok text ∧
      ((s'.installed d forms').renderTree (s'.environment e d fallback) e nextNode).additions =
        ((s.installed d forms).renderTree (s.environment e d fallback) e nextNode).additions := by
  have hagree := patternTable_again hsettings hpatterns
  have hsuits : (s.environment e d fallback).Suits sameTerms (s'.patternTable d) s.settings.storage.getter :=
    ⟨fun _ _ args => (hagree.text trivial args).symm, fun _ _ args => (hagree.render trivial args).symm, fun _ _ => rfl⟩
  have henv : s'.environment e d fallback =
      (s.environment e d fallback).variant (s'.patternTable d) s.settings.storage.getter := by
    rw [environment, environment, hsettings]
  have hstart : Progress.Kin (.again s.settings) { ledger := s.ledger, nextNode } { ledger := s'.ledger, nextNode } :=
    ⟨⟨hequipped, hdeclared⟩, rfl, rfl, rfl, rfl⟩
  have hsame : Progress.Ahead [] { ledger := s'.ledger, nextNode } { ledger := s'.ledger, nextNode } :=
    ⟨Ledger.ahead_nil_iff.mpr (.refl _), rfl, rfl, rfl, rfl, rfl⟩
  obtain ⟨_, _, -, hs, -⟩ := (s.installed d forms).renderTree_eq (s.environment e d fallback) e nextNode
  obtain ⟨_, _, -, hs', -⟩ := (s'.installed d forms').renderTree_eq (s'.environment e d fallback) e nextNode
  rw [hs] at h
  obtain ⟨page, hpage, htext⟩ := map_eq_ok h
  obtain ⟨page', q, hrun, htext', hadditions⟩ := Render.finished_again (blind_environment hblind e d fallback) hdebug hstart
    (Prod.ext hpage rfl)
  obtain ⟨r, p, p', hfollowed, hfollows, hahead, -⟩ := follows_runs (Render.finished_follows hsuits e) hsame
  rw [hrun] at hfollowed
  cases hfollowed
  rw [hs, hs', henv]
  have hresult : ((Render.finished ((s.environment e d fallback).variant (s'.patternTable d) s.settings.storage.getter) e).run
      { ledger := (s'.installed d forms').ledger, nextNode }) = (.ok page', p') := hfollows
  rw [hresult]
  exact ⟨congrArg Except.ok (htext'.trans htext), hahead.additions.symm.trans hadditions⟩

/-- A page that comes out comes out again where the same helpers are declared and its patterns are in force. -/
theorem attempt_again {selector : Selector} (hselect : (s.select e selector).2 = .ok d)
    (h : (s.attempt e nextNode selector).result = .ok text) :
    (s'.attempt e nextNode selector).result = .ok text ∧
      (s'.attempt e nextNode selector).additions = (s.attempt e nextNode selector).additions := by
  obtain ⟨l, l', r, hl, hl', hs, hs'⟩ := select_alike (akin_of_eq hsettings.symm) e selector
  rw [hs] at hselect
  obtain rfl : r = .ok d := hselect
  have hagree := patternTable_again hsettings hpatterns
  obtain ⟨update, r, -, hinstall, hinstall'⟩ := @install_congr { s with ledger := l } { s' with ledger := l' } d
    (fun _ _ => hagree.text trivial []) e
  cases r with
  | error f =>
    rw [attempt, hs] at h
    dsimp only at h
    rw [hinstall] at h
    cases h
  | ok fallback =>
    have hattempt : s.attempt e nextNode selector = (installed { s with ledger := l } d (update s.forms)).renderTree
        (s.environment e d fallback) e nextNode := by
      rw [attempt, hs]
      dsimp only
      rw [hinstall]
      rfl
    have hattempt' : s'.attempt e nextNode selector = (installed { s' with ledger := l' } d (update s'.forms)).renderTree
        (s'.environment e d fallback) e nextNode := by
      rw [attempt, hs']
      dsimp only
      rw [hinstall']
      rfl
    rw [hattempt] at h ⊢
    rw [hattempt']
    have hl : l.helpers.declared = s.ledger.helpers.declared := by rw [hl.helpers]
    have hl' : l'.helpers.declared = l.helpers.declared := by rw [← hl'.helpers, hdeclared, hl]
    exact @renderTree_again { s with ledger := l } { s' with ledger := l' } hsettings hdebug hblind (hequipped.of_declared hl)
      hl' d hpatterns e nextNode text _ _ fallback h

end Again

theorem patterns_of_attempt {e : Element} {nextNode : NodeId} {selector : Selector} {d : Dialect} {text : Bytes}
    (hselect : (s.select e selector).2 = .ok d) (h : (s.attempt e nextNode selector).result = .ok text) :
    (s.attempt e nextNode selector).session.patterns = s.patternTable d := by
  obtain ⟨l, forms, fallback, -, hattempt⟩ := attempt_of_ok hselect h
  obtain ⟨_, _, -, hs, -⟩ := renderTree_eq (installed { s with ledger := l } d forms) (s.environment e d fallback) e nextNode
  rw [hattempt, hs]
  rfl

/-- A tag with an assignment, in the body of a mixin called twice. -/
def chorus : Forest :=
  ⟨#[{ content := .document, children := [1, 5, 6] },
     { content := .mixin { name := "m" }, parent := some 0, children := [2] },
     { content := .markup { name := "p", bundle := ⟨[], [3]⟩ }, parent := some 1, origin := some ⟨"t.pug", 1, 0⟩ },
     { content := .assignment "data", parent := some 2, children := [4] },
     { content := .expression { source := "$x" }, parent := some 3 },
     { content := .call { name := "m" }, parent := some 0 },
     { content := .call { name := "m" }, parent := some 0 }]⟩

/-- A handler that needs a helper and adds nothing. -/
def choir : Settings := { handlers := [⟨some "data", ⟨fun _ _ _ => .require "merge_classes" fun _ => .finish true⟩⟩] }

def verse : Bytes := "<?php (function ($attributes, $__pug_children) use (&$pugModule) { ?><p></p><?php })([], null); ?>"

end Session

end Stencil
