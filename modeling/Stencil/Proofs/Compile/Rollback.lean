import Stencil.Proofs.Compile.Preamble
import Stencil.Proofs.Compile.Rendering

/-! Failed pages. After a failure the ledger is what it was before, but for its log; the dialect, its patterns and the
forms of attributes stay those of the failed page. -/

namespace Stencil

def Settings.Installs (settings : Settings) (name : Bytes) : Prop :=
  name ∈ Session.commonPatterns ∨ name ∈ settings.patterns.map (·.1) ∨ name ∈ settings.producers.map (·.1)

def Settings.Reads (settings : Settings) (name : Bytes) : Prop := ∃ p ∈ settings.producers, name ∈ p.2.1

namespace Session

variable {s s' : Session}

/-- Only the built-in helpers are declared, and producers stand only where every page installs a pattern. -/
structure Intact (s : Session) : Prop where
  declared : s.ledger.helpers.declared = Preamble.builtin
  producers : ∀ name inputs body, s.patterns.get? name = some (.producer inputs body) → s.settings.Installs name

/-- No later call can tell the sessions apart by its effect on the preamble. -/
structure Alike (s s' : Session) : Prop where
  settings : s.settings = s'.settings
  ledger : s.ledger.Alike s'.ledger
  forms : s.forms.Alike s'.forms
  inputs : ∀ name, s.settings.Reads name → s.settings.Installs name ∨ s.patterns.get? name = s'.patterns.get? name

theorem names_templates (d : Dictionary Bytes) : (templates d).map (·.1) = d.map (·.1) := by
  simp [templates, Function.comp_def]

theorem template_of_mem {d : Dictionary Bytes} {name : Bytes} {p : Pattern} (h : (name, p) ∈ templates d) :
    ∃ text, p = .template text := by
  obtain ⟨e, -, he⟩ := List.mem_map.mp h
  exact ⟨e.2, (Prod.mk.inj he).2.symm⟩

def producerTable (settings : Settings) : Pattern.Table :=
  settings.producers.map fun (name, inputs, body) => (name, .producer inputs body)

theorem patternTable_eq (s : Session) (d : Dialect) :
    s.patternTable d = ((((s.patterns.insertAll (templates Dialect.basicPatterns)).insertAll derivedPatterns).insertAll
      (templates d.patterns)).insertAll (templates s.settings.patterns)).insertAll (producerTable s.settings) := rfl

theorem names_producerTable (settings : Settings) :
    (producerTable settings).map (·.1) = settings.producers.map (·.1) := by
  simp [producerTable, Function.comp_def]

theorem patternTable_congr (hs : s.settings = s'.settings) {name : Bytes} (d : Dialect)
    (h : s.settings.Installs name ∨ s.patterns.get? name = s'.patterns.get? name) :
    (s.patternTable d).get? name = (s'.patternTable d).get? name := by
  rw [patternTable_eq, patternTable_eq, ← hs]
  by_cases hproducer : name ∈ s.settings.producers.map (·.1)
  · exact Dictionary.get?_insertAll_congr (.inl (by rwa [names_producerTable]))
  refine Dictionary.get?_insertAll_congr (.inr ?_)
  by_cases htemplate : name ∈ s.settings.patterns.map (·.1)
  · exact Dictionary.get?_insertAll_congr (.inl (by rwa [names_templates]))
  refine Dictionary.get?_insertAll_congr (.inr (Dictionary.get?_insertAll_congr (.inr ?_)))
  rcases h with (h | h | h) | h
  · rcases List.mem_append.mp h with h | h
    · exact Dictionary.get?_insertAll_congr (.inr (Dictionary.get?_insertAll_congr (.inl (by rwa [names_templates]))))
    · exact Dictionary.get?_insertAll_congr (.inl h)
  · exact absurd h htemplate
  · exact absurd h hproducer
  · exact Dictionary.get?_insertAll_congr (.inr (Dictionary.get?_insertAll_congr (.inr h)))

/-- A producer of a page is one of the settings, a derived one, or one of an earlier page that no page installs. -/
theorem patternTable_producer {d : Dialect} {name : Bytes} {inputs : List Bytes} {body : Producer}
    (h : (s.patternTable d).get? name = some (.producer inputs body)) :
    (name, inputs, body) ∈ s.settings.producers ∨ (name, .producer inputs body) ∈ derivedPatterns ∨
      s.patterns.get? name = some (.producer inputs body) ∧ ¬ s.settings.Installs name := by
  have hne {d : Dictionary Bytes} : (name, Pattern.producer inputs body) ∉ templates d := fun hm => by
    obtain ⟨text, ht⟩ := template_of_mem hm
    cases ht
  rw [patternTable_eq] at h
  rcases Dictionary.get?_insertAll_cases h with hm | ⟨hproducer, h⟩
  · obtain ⟨p, hp, he⟩ := List.mem_map.mp hm
    cases he
    exact .inl hp
  rcases Dictionary.get?_insertAll_cases h with hm | ⟨htemplate, h⟩
  · exact absurd hm hne
  rcases Dictionary.get?_insertAll_cases h with hm | ⟨-, h⟩
  · exact absurd hm hne
  rcases Dictionary.get?_insertAll_cases h with hm | ⟨hderived, h⟩
  · exact .inr (.inl hm)
  rcases Dictionary.get?_insertAll_cases h with hm | ⟨hbasic, h⟩
  · exact absurd hm hne
  refine .inr (.inr ⟨h, ?_⟩)
  rw [names_producerTable] at hproducer
  rw [names_templates] at htemplate hbasic
  rintro (hi | hi | hi)
  · exact (List.mem_append.mp hi).elim hbasic hderived
  · exact htemplate hi
  · exact hproducer hi

theorem derived_inputs {name : Bytes} {inputs : List Bytes} {body : Producer}
    (h : (name, .producer inputs body) ∈ derivedPatterns) :
    name ∈ commonPatterns ∧ ∀ i ∈ inputs, i ∈ commonPatterns := by
  simp only [derivedPatterns, List.mem_cons, List.not_mem_nil, or_false, Prod.mk.injEq, Pattern.producer.injEq] at h
  rcases h with ⟨rfl, rfl, -⟩ | ⟨rfl, rfl, -⟩ <;> decide

/-- Without producers in the settings, those of a page are the derived ones, whatever pages there were before. -/
theorem producer_derived (hproducers : s.settings.producers = []) {d : Dialect} {name : Bytes}
    (hname : name ∈ commonPatterns) {inputs : List Bytes} {body : Producer}
    (hp : (s.patternTable d).get? name = some (.producer inputs body)) :
    (name, .producer inputs body) ∈ derivedPatterns := by
  rcases patternTable_producer hp with hm | hm | ⟨-, hnot⟩
  · rw [hproducers] at hm
    cases hm
  · exact hm
  · exact absurd (.inl hname) hnot

theorem patternTable_agree (hproducers : s.settings.producers = []) (hsettings : s.settings = s'.settings) (d : Dialect) :
    Pattern.Agree (· ∈ commonPatterns) (s.patternTable d) (s'.patternTable d) where
  same _ hname := patternTable_congr hsettings d (.inl (.inl hname))
  closed _ _ _ hname hp := (derived_inputs (producer_derived hproducers hname hp)).2

theorem Alike.agree (h : s.Alike s') (hi : s.Intact) (d : Dialect) :
    Pattern.Agree (fun name => s.settings.Installs name ∨ s.settings.Reads name) (s.patternTable d)
      (s'.patternTable d) where
  same name hg := patternTable_congr h.settings d (hg.elim .inl (h.inputs name))
  closed name inputs body _ hp i hin := by
    rcases patternTable_producer hp with hm | hm | ⟨hold, hnot⟩
    · exact .inr ⟨_, hm, hin⟩
    · exact .inl (.inl ((derived_inputs hm).2 i hin))
    · exact absurd (hi.producers _ _ _ hold) hnot

theorem patternTable_intact (hi : s.Intact) {d : Dialect} {name : Bytes} {inputs : List Bytes} {body : Producer}
    (h : (s.patternTable d).get? name = some (.producer inputs body)) : s.settings.Installs name := by
  rcases patternTable_producer h with hm | hm | ⟨hold, -⟩
  · exact .inr (.inr (List.mem_map_of_mem hm))
  · exact .inl (derived_inputs hm).1
  · exact hi.producers _ _ _ hold

/-- The settings of the sessions differ at most in where helpers are kept and in how pages are laid out. -/
def Akin (s s' : Session) : Prop :=
  s'.settings = { s.settings with
    storage := s'.settings.storage, pretty := s'.settings.pretty, indent := s'.settings.indent }

theorem akin_of_eq (h : s.settings = s'.settings) : s.Akin s' := by rw [Akin, h]

theorem lookUp_alike (h : s.Akin s') (name : Bytes) :
    ∃ l l' d, s.ledger.Alike l ∧ s'.ledger.Alike l' ∧ s.lookUp name = ({ s with ledger := l }, d) ∧
      s'.lookUp name = ({ s' with ledger := l' }, d) := by
  have hformats : s'.settings.formats = s.settings.formats := by rw [h]
  rw [lookUp, lookUp, hformats]
  split
  · exact ⟨_, _, _, .refl _, .refl _, rfl, rfl⟩
  · split
    · exact ⟨_, _, _, .refl _, .refl _, rfl, rfl⟩
    · exact ⟨_, _, _, Ledger.alike_say .., Ledger.alike_say .., rfl, rfl⟩

theorem choose_alike (h : s.Akin s') (e : Element) (selector : Selector) :
    (∃ f, s.choose e selector = .error f ∧ s'.choose e selector = .error f) ∨
    ∃ l l' d label, s.ledger.Alike l ∧ s'.ledger.Alike l' ∧
      s.choose e selector = .ok ({ s with ledger := l }, d, label) ∧
      s'.choose e selector = .ok ({ s' with ledger := l' }, d, label) := by
  cases selector with
  | auto =>
    obtain ⟨l, l', d, hl, hl', hs, hs'⟩ := lookUp_alike h (s.autoName e)
    have hname : s'.autoName e = s.autoName e := by rw [autoName, autoName, h]
    exact .inr ⟨l, l', d, _, hl, hl', by rw [choose, hs], by rw [choose, hname, hs']⟩
  | named name =>
    obtain ⟨l, l', d, hl, hl', hs, hs'⟩ := lookUp_alike h name
    exact .inr ⟨l, l', d, _, hl, hl', by rw [choose, hs], by rw [choose, hs']⟩
  | dialect d => exact .inr ⟨_, _, _, _, .refl _, .refl _, rfl, rfl⟩
  | factory d => exact .inr ⟨_, _, _, _, .refl _, .refl _, rfl, rfl⟩
  | unsupported type => exact .inl ⟨_, rfl, rfl⟩

theorem select_alike (h : s.Akin s') (e : Element) (selector : Selector) :
    ∃ l l' r, s.ledger.Alike l ∧ s'.ledger.Alike l' ∧ s.select e selector = ({ s with ledger := l }, r) ∧
      s'.select e selector = ({ s' with ledger := l' }, r) := by
  rw [select, select]
  rcases choose_alike h e selector with ⟨f, hs, hs'⟩ | ⟨l, l', d, label, hl, hl', hs, hs'⟩
  · rw [hs, hs']
    exact ⟨_, _, _, .refl _, .refl _, rfl, rfl⟩
  · rw [hs, hs']
    cases d with
    | none => exact ⟨l, l', _, hl, hl', rfl, rfl⟩
    | some d =>
      have hmissing : missingPatterns { s' with ledger := l' } d = missingPatterns { s with ledger := l } d := by
        rw [missingPatterns, missingPatterns, h]
      dsimp only
      rw [hmissing]
      split
      · exact ⟨_, _, _, hl.trans (l.alike_say ..), hl'.trans (l'.alike_say ..), rfl, rfl⟩
      · exact ⟨l, l', _, hl, hl', rfl, rfl⟩

theorem readForm_alike {name : Bytes} (h : Pattern.text s.patterns name [] = Pattern.text s'.patterns name [])
    (site : Site) (set : Preamble.Forms → Bytes → Preamble.Forms) :
    ∃ text r, s.readForm site name set = ({ s with forms := set s.forms text }, r) ∧
      s'.readForm site name set = ({ s' with forms := set s'.forms text }, r) := by
  rw [readForm, readForm, h]
  split
  · exact ⟨_, _, rfl, rfl⟩
  · exact ⟨_, _, rfl, rfl⟩

/-- Reading the forms stops at the first that is unknown; those after it keep what they were. -/
theorem readForms_alike
    (h : ∀ name ∈ commonPatterns, Pattern.text s.patterns name [] = Pattern.text s'.patterns name []) (site : Site) :
    ∃ (update : Preamble.Forms → Preamble.Forms) (r : Except Failure Unit),
      (∀ f f', f.Alike f' → (update f).Alike (update f')) ∧
      s.readForms site = ({ s with forms := update s.forms }, r) ∧
      s'.readForms site = ({ s' with forms := update s'.forms }, r) := by
  rw [readForms, readForms]
  obtain ⟨pair, r₁, hs, hs'⟩ := readForm_alike (h "attribute_pattern" (by decide)) site fun f t => { f with pair := t }
  rw [hs, hs']
  cases r₁ with
  | error e => exact ⟨fun f => { f with pair }, _, fun _ _ hf => { hf with pair := rfl }, rfl, rfl⟩
  | ok _ =>
    have hflag := h "boolean_attribute_pattern" (by decide)
    obtain ⟨flag, r₂, hs, hs'⟩ := @readForm_alike { s with forms := { s.forms with pair } }
      { s' with forms := { s'.forms with pair } } _ hflag site fun f t => { f with flag := t }
    dsimp only
    rw [hs, hs']
    cases r₂ with
    | error e => exact ⟨fun f => { f with pair, flag }, _, fun _ _ hf => ⟨rfl, rfl, hf.escape⟩, rfl, rfl⟩
    | ok _ =>
      have hescape := h "html_expression_escape" (by decide)
      obtain ⟨escape, r₃, hs, hs'⟩ := @readForm_alike { s with forms := { s.forms with pair, flag } }
        { s' with forms := { s'.forms with pair, flag } } _ hescape site fun f t => { f with escape := t }
      dsimp only
      rw [hs, hs']
      exact ⟨fun _ => ⟨pair, flag, escape⟩, r₃, fun _ _ _ => .refl _, rfl, rfl⟩

def installed (s : Session) (d : Dialect) (forms : Preamble.Forms) : Session :=
  { s with dialect := some d, patterns := s.patternTable d, forms }

def environment (s : Session) (e : Element) (d : Dialect) (fallback : Bytes) : Environment :=
  { settings := s.settings, dialect := d, patterns := s.patternTable d, fallback, mixins := e.declarations }

/-- Installing a dialect depends on the session only through the texts of the common patterns. -/
theorem install_congr {d : Dialect} (htext : ∀ name ∈ commonPatterns,
      Pattern.text (s.patternTable d) name [] = Pattern.text (s'.patternTable d) name []) (e : Element) :
    ∃ (update : Preamble.Forms → Preamble.Forms) (r : Except Failure Bytes),
      (∀ f f', f.Alike f' → (update f).Alike (update f')) ∧
      s.install e d = (s.installed d (update s.forms), r.map (s.environment e d)) ∧
      s'.install e d = (s'.installed d (update s'.forms), r.map (s'.environment e d)) := by
  obtain ⟨update, r, hupdate, hs, hs'⟩ := @readForms_alike
    { s with dialect := some d, patterns := s.patternTable d }
    { s' with dialect := some d, patterns := s'.patternTable d } htext e.site
  rw [install, install, hs, hs']
  cases r with
  | error f => exact ⟨update, .error f, hupdate, rfl, rfl⟩
  | ok _ =>
    dsimp only
    rw [← htext "empty_value" (by decide)]
    cases Pattern.text (s.patternTable d) "empty_value" [] with
    | error f => exact ⟨update, .error (.ofPattern (some e.site) f), hupdate, rfl, rfl⟩
    | ok fallback => exact ⟨update, .ok fallback, hupdate, rfl, rfl⟩

theorem Alike.text (h : s.Alike s') (hi : s.Intact) (d : Dialect) :
    ∀ name ∈ commonPatterns, Pattern.text (s.patternTable d) name [] = Pattern.text (s'.patternTable d) name [] :=
  fun _ hn => (h.agree hi d).text (.inl (.inl hn)) []

def sameTerms : Rendering.Terms := ⟨[], fun _ => True⟩

theorem environment_suits (h : s.Alike s') (hi : s.Intact) (e : Element) (d : Dialect) (fallback : Bytes) :
    (s.environment e d fallback).Suits sameTerms (s'.patternTable d) s.settings.storage.getter where
  text _ hn args := ((h.agree hi d).text (.inl (.inl hn)) args).symm
  render _ hn args := ((h.agree hi d).render (.inl (.inl hn)) args).symm
  accessor _ _ := rfl

/-- Where all helpers are shared and none was required before, one rendering does what the other does. -/
theorem follows_runs {α : Type} {marks : List Origin} {m m' : Rendering α} (h : Rendering.Follows sameTerms marks m m')
    {p p' : Progress} (hp : p.Ahead [] p') :
    ∃ r q q', m.run p = (r, q) ∧ m'.run p' = (r, q') ∧ q.Ahead [] q' ∧ p.ledger.Extends q.ledger := by
  rcases h.keeps hp with ⟨name, -, hshared⟩ | ⟨hresult, hstate⟩
  · exact absurd trivial hshared
  · exact ⟨(m.run p).1, (m.run p).2, (m'.run p').2, rfl, Prod.ext hresult.symm rfl, hstate, (h.grows p).1⟩

/-- Rendering a tree leaves the session with the ledger of its progress, but for the log, and with another map. -/
theorem renderTree_eq (s : Session) (env : Environment) (e : Element) (nextNode : NodeId) :
    ∃ l m, ((Render.finished env e).run { ledger := s.ledger, nextNode }).2.ledger.Alike l ∧
      s.renderTree env e nextNode = ⟨{ s with ledger := l, sourceMap := m },
        ((Render.finished env e).run { ledger := s.ledger, nextNode }).2.additions,
        ((Render.finished env e).run { ledger := s.ledger, nextNode }).1.map Page.text⟩ ∧
      ∀ page, ((Render.finished env e).run { ledger := s.ledger, nextNode }).1 = .ok page →
        m = some (page.sourceMap s.settings.sourceFile) := by
  rw [Render.finished, Rendering.run_bind, renderTree]
  rcases (Render.tree env e).run { ledger := s.ledger, nextNode } with ⟨f | body, p⟩
  · exact ⟨_, _, p.ledger.alike_say .., rfl, fun _ h => by cases h⟩
  · dsimp only
    rcases (Render.page env e.site body).run p with ⟨f | page, q⟩
    · exact ⟨_, _, .refl _, rfl, fun _ h => by cases h⟩
    · exact ⟨_, _, q.ledger.alike_say .., rfl, fun _ h => by rw [Except.ok.inj h]⟩

theorem renderTree_alike (hl : s.ledger.Alike s'.ledger) {env : Environment} {t : Pattern.Table}
    {getter : Option (Bytes → Bytes → Bytes)} (henv : env.Suits sameTerms t getter) (e : Element) (nextNode : NodeId) :
    ∃ l l' m m' a r, l.Alike l' ∧ s.ledger.Extends l ∧
      s.renderTree env e nextNode = ⟨{ s with ledger := l, sourceMap := m }, a, r⟩ ∧
      s'.renderTree (env.variant t getter) e nextNode = ⟨{ s' with ledger := l', sourceMap := m' }, a, r⟩ := by
  have hstart : Progress.Ahead [] { ledger := s.ledger, nextNode } { ledger := s'.ledger, nextNode } :=
    ⟨Ledger.ahead_nil_iff.mpr hl, rfl, rfl, rfl, rfl, rfl⟩
  obtain ⟨r, p, p', hrun, hrun', hp, hgrow⟩ := follows_runs (Render.finished_follows henv e) hstart
  obtain ⟨l, m, hsame, hs, -⟩ := s.renderTree_eq env e nextNode
  obtain ⟨l', m', hsame', hs', -⟩ := s'.renderTree_eq (env.variant t getter) e nextNode
  rw [hrun] at hsame hs
  rw [hrun'] at hsame' hs'
  refine ⟨l, l', m, m', p.additions, r.map Page.text, ?_, hgrow.trans hsame.extends, hs, ?_⟩
  · exact (hsame.symm.trans (Ledger.ahead_nil_iff.mp hp.ledger)).trans hsame'
  · rw [hs', hp.additions]

/-- What formatting does before a failure is undone. -/
def attempt (s : Session) (e : Element) (nextNode : NodeId) (selector : Selector) : Outcome Bytes :=
  match s.select e selector with
  | (s, .error f) => { session := s, result := .error f }
  | (s, .ok d) =>
    match s.install e d with
    | (s, .error f) => { session := s, result := .error f }
    | (s, .ok env) => s.renderTree env e nextNode

theorem formatElement_eq (s : Session) (e : Element) (nextNode : NodeId) (selector : Selector) :
    s.formatElement e nextNode selector =
      match (s.attempt e nextNode selector).result with
      | .ok _ => s.attempt e nextNode selector
      | .error _ =>
        let outcome := s.attempt e nextNode selector
        { outcome with session := { outcome.session with ledger := outcome.session.ledger.rollback s.ledger } } := rfl

/-- The outcomes are alike, and from `s` the ledger was only added to. -/
structure Matched (s : Session) (o o' : Outcome Bytes) : Prop where
  result : o.result = o'.result
  additions : o.additions = o'.additions
  settings : o.session.settings = s.settings
  alike : o.session.Alike o'.session
  intact : o.session.Intact
  grow : s.ledger.Extends o.session.ledger

theorem attempt_alike (h : s.Alike s') (hi : s.Intact) (e : Element) (nextNode : NodeId) (selector : Selector) :
    s.Matched (s.attempt e nextNode selector) (s'.attempt e nextNode selector) := by
  obtain ⟨l, l', r, hl, hl', hs, hs'⟩ := select_alike (akin_of_eq h.settings) e selector
  have hselected : l.Alike l' := (hl.symm.trans h.ledger).trans hl'
  have h₁ : Alike { s with ledger := l } { s' with ledger := l' } := { h with ledger := hselected }
  have hi₁ : Intact { s with ledger := l } := { hi with declared := by rw [← hi.declared, hl.helpers] }
  rw [attempt, attempt, hs, hs']
  cases r with
  | error f => exact ⟨rfl, rfl, rfl, h₁, hi₁, hl.extends⟩
  | ok d =>
    obtain ⟨update, r, hupdate, hs, hs'⟩ := install_congr (h₁.text hi₁ d) e
    have h₂ : Alike (installed { s with ledger := l } d (update s.forms))
        (installed { s' with ledger := l' } d (update s'.forms)) := {
      settings := h.settings
      ledger := hselected
      forms := hupdate _ _ h.forms
      inputs := fun name hread => .inr ((h₁.agree hi₁ d).same name (.inr hread)) }
    have hi₂ : Intact (installed { s with ledger := l } d (update s.forms)) :=
      { hi₁ with producers := fun _ _ _ hp => patternTable_intact hi₁ hp }
    dsimp only
    rw [hs, hs']
    cases r with
    | error f => exact ⟨rfl, rfl, rfl, h₂, hi₂, hl.extends⟩
    | ok fallback =>
      have hsuits := environment_suits h₁ hi₁ e d fallback
      obtain ⟨k, k', m, m', a, r, hk, hgrow, hs, hs'⟩ := renderTree_alike h₂.ledger hsuits e nextNode
      have henv : environment { s' with ledger := l' } e d fallback =
          (environment { s with ledger := l } e d fallback).variant (patternTable { s' with ledger := l' } d)
            s.settings.storage.getter := by
        rw [environment, environment, ← h.settings]
      simp only [Except.map]
      rw [henv, hs, hs']
      exact ⟨rfl, rfl, rfl, { h₂ with ledger := hk }, { hi₂ with declared := hgrow.declared.trans hi₂.declared },
        hl.extends.trans hgrow⟩

/-- After a failure the ledger is as before, but for its log. -/
theorem formatElement_alike (h : s.Alike s') (hi : s.Intact) (e : Element) (nextNode : NodeId) (selector : Selector) :
    s.Matched (s.formatElement e nextNode selector) (s'.formatElement e nextNode selector) ∧
      ∀ f, (s.formatElement e nextNode selector).result = .error f →
        s.ledger.Alike (s.formatElement e nextNode selector).session.ledger := by
  have ha := attempt_alike h hi e nextNode selector
  rw [formatElement_eq, formatElement_eq, ← ha.result]
  cases hr : (s.attempt e nextNode selector).result with
  | ok text => exact ⟨ha, fun f hf => by rw [hr] at hf; cases hf⟩
  | error f =>
    have hback := ha.grow.rollback
    refine ⟨⟨ha.result, ha.additions, ha.settings, ?_, ?_, hback.extends⟩, fun _ _ => hback⟩
    · exact { ha.alike with ledger := ha.alike.ledger.rollback h.ledger }
    · exact { ha.intact with declared := by rw [← hback.helpers, hi.declared] }

end Session

end Stencil
