import Stencil.CommandLine.Options
import Stencil.Proofs.Compile.Positions
import Stencil.Proofs.Compile.Templates
import Stencil.Proofs.Pattern.Resolution
import Stencil.Proofs.Token.Locality

/-! The built-in dialects. Where the settings replace no patterns, a page in a built-in dialect is written with the
dialect's own templates, whatever pages there were before: they bring no null bytes into the page and pass markup on
whole. -/

namespace Stencil

def Dialect.builtin : List Dialect := [basic, xml, html, xhtml]

theorem Dialect.builtin_of_byName : ∀ e ∈ byName, e.2 ∈ builtin := by decide +kernel

theorem Dialect.nullFree_of_builtin {d : Dialect} (h : d ∈ builtin) : d.NullFree := by
  have hbuiltin : ∀ d ∈ builtin, (∀ e ∈ d.patterns, e.2.NullFree) ∧ ∀ e ∈ d.tokenTemplates, e.2.NullFree := by
    decide +kernel
  exact ⟨(hbuiltin d h).1, (hbuiltin d h).2⟩

theorem Dialect.tokenTemplates_of_builtin : ∀ d ∈ builtin, d.tokenTemplates = [] := by decide +kernel

/-- Every built-in dialect has this template under the name. -/
abbrev Dialect.Constant (name template : Bytes) : Prop :=
  ∀ d ∈ builtin, ∀ e ∈ basicPatterns ++ d.patterns, e.1 = name → e.2 = template

namespace Session

variable {s : Session} {d : Dialect}

/-- The settings replace no patterns, and the dialect is a built-in one. -/
structure Standard (s : Session) (d : Dialect) : Prop where
  patterns : s.settings.patterns = []
  producers : s.settings.producers = []
  dialect : d ∈ Dialect.builtin

/-- A derived pattern can be made from this template, since it is common to the built-in dialects. -/
structure Input (name template : Bytes) : Prop where
  common : name ∈ commonPatterns
  plain : name ∉ derivedPatterns.map (·.1)
  constant : Dialect.Constant name template

namespace Standard

variable (h : s.Standard d)
include h

theorem pattern_cases {name : Bytes} (hname : name ∈ commonPatterns) {p : Pattern}
    (hp : (s.patternTable d).get? name = some p) :
    (∃ text, p = .template text ∧ (name, text) ∈ d.patterns) ∨ (name, p) ∈ derivedPatterns := by
  cases p with
  | producer inputs body => exact .inr (producer_derived h.producers hname hp)
  | template text =>
    refine .inl ⟨text, rfl, ?_⟩
    rw [patternTable_eq, producerTable, h.patterns, h.producers] at hp
    -- The topmost layer that has the name decides; the two of the settings are empty.
    rcases Dictionary.get?_insertAll_cases hp with hm | ⟨-, hp⟩
    · cases hm
    rcases Dictionary.get?_insertAll_cases hp with hm | ⟨-, hp⟩
    · cases hm
    rcases Dictionary.get?_insertAll_cases hp with hm | ⟨hown, hp⟩
    · exact mem_templates hm
    rcases Dictionary.get?_insertAll_cases hp with hm | ⟨hderived, -⟩
    · simp [derivedPatterns] at hm
    -- Built-in dialects bring all basic patterns.
    have hbasic : ∀ d ∈ Dialect.builtin, ∀ name ∈ Dialect.basicPatterns.map (·.1), name ∈ d.patterns.map (·.1) := by
      decide +kernel
    rw [names_templates] at hown
    exact absurd hname fun hname => (List.mem_append.mp hname).elim (fun hb => hown (hbasic d h.dialect name hb)) hderived

theorem template_eq {name template : Bytes} (hname : name ∈ commonPatterns) (hderived : name ∉ derivedPatterns.map (·.1))
    (htemplate : ∀ e ∈ d.patterns, e.1 = name → e.2 = template) {p : Pattern}
    (hp : (s.patternTable d).get? name = some p) : p = .template template := by
  rcases h.pattern_cases hname hp with ⟨text, rfl, hm⟩ | hm
  · exact congrArg Pattern.template (htemplate _ hm rfl)
  · exact absurd (List.mem_map_of_mem hm) hderived

theorem render_eq {name template : Bytes} (hname : name ∈ commonPatterns) (hderived : name ∉ derivedPatterns.map (·.1))
    (htemplate : ∀ e ∈ d.patterns, e.1 = name → e.2 = template) {args : List Bytes} {text : Bytes}
    (hok : Pattern.render (s.patternTable d) name args = .ok text) :
    text = Template.format template args := by
  cases hp : (s.patternTable d).get? name with
  | none =>
    rw [Pattern.render_of_missing hp] at hok
    cases hok
  | some p =>
    rw [h.template_eq hname hderived htemplate hp] at hp
    rw [Pattern.render_of_template hp] at hok
    exact (Except.ok.inj hok).symm

theorem constant {name template : Bytes} (htemplate : Dialect.Constant name template) :
    ∀ e ∈ d.patterns, e.1 = name → e.2 = template :=
  fun e he => htemplate d h.dialect e (List.mem_append_right _ he)

theorem text_eq {name template : Bytes} (hname : name ∈ commonPatterns) (hderived : name ∉ derivedPatterns.map (·.1))
    (htemplate : ∀ e ∈ d.patterns, e.1 = name → e.2 = template) {fuel : Nat} {resolving : List Bytes} {text : Bytes}
    (hok : Pattern.resolve (s.patternTable d) fuel resolving false name [] = .ok text) : text = template := by
  rcases (Pattern.resolve_ok_cases hok).2 with ⟨_, hp, rfl⟩ | ⟨_, _, _, _, hp, -⟩
  · cases h.template_eq hname hderived htemplate hp
    rfl
  · cases h.template_eq hname hderived htemplate hp

theorem inputs_eq {inputs templates : List Bytes} (hinputs : List.Forall₂ Input inputs templates) {fuel : Nat}
    {resolving texts : List Bytes}
    (hok : (inputs.mapM fun i => Pattern.resolve (s.patternTable d) fuel resolving false i []) = .ok texts) :
    texts = templates := by
  have htexts := mapM_eq_ok_iff.mp hok
  clear hok
  induction hinputs generalizing texts with
  | nil =>
    cases htexts
    rfl
  | cons hinput _ ih =>
    cases htexts with
    | cons htext hrest => rw [h.text_eq hinput.common hinput.plain (h.constant hinput.constant) htext, ih hrest]

theorem producer_eq {name : Bytes} {inputs templates : List Bytes} {body : Producer}
    (hmem : (name, .producer inputs body) ∈ derivedPatterns)
    (hinputs : List.Forall₂ Input inputs templates)
    {fill : Bool} {fuel : Nat} {args : List Bytes} {text : Bytes}
    (hok : Pattern.resolve (s.patternTable d) fuel [] fill name args = .ok text) : text = body templates args := by
  have hname : name ∈ derivedPatterns.map (·.1) := List.mem_map_of_mem hmem
  have hbuiltin : ∀ d ∈ Dialect.builtin, ∀ name ∈ derivedPatterns.map (·.1), name ∉ d.patterns.map (·.1) := by
    decide +kernel
  have hunique (p : Pattern) (hp : (name, p) ∈ derivedPatterns) : p = .producer inputs body := by
    simp only [derivedPatterns, List.mem_cons, List.not_mem_nil, or_false, Prod.mk.injEq] at hmem hp
    rcases hmem with ⟨rfl, hbody⟩ | ⟨rfl, hbody⟩ <;> rcases hp with ⟨heq, rfl⟩ | ⟨heq, rfl⟩
    · exact hbody.symm
    · exact absurd heq (by decide)
    · exact absurd heq (by decide)
    · exact hbody.symm
  have hproducer {p : Pattern} (hp : (s.patternTable d).get? name = some p) : p = .producer inputs body := by
    rcases h.pattern_cases (List.mem_append_right _ hname) hp with ⟨text, -, hm⟩ | hm
    · exact absurd (List.mem_map_of_mem hm) (hbuiltin d h.dialect name hname)
    · exact hunique p hm
  rcases (Pattern.resolve_ok_cases hok).2 with ⟨_, hp, -⟩ | ⟨_, _, _, texts, hp, -, htexts, rfl⟩
  · cases hproducer hp
  · cases hproducer hp
    rw [h.inputs_eq hinputs htexts]

theorem handlesCode (e : Element) (fallback : Bytes) : (s.environment e d fallback).HandlesCode := by
  intro arg text hok
  have htext : text = Template.format "<?php %s ?>" [arg] :=
    h.render_eq (by decide) (by decide) (h.constant (by decide)) hok
  rw [htext, Page.code, List.append_assoc]
  rfl

theorem carries (e : Element) (fallback : Bytes) : (s.environment e d fallback).Carries := by
  have hapart : ∀ name ∈ carriers, name ∉ derivedPatterns.map (·.1) := by decide
  intro name hname
  have hcarrier : ∃ lead tail : Bytes, lead.NullFree ∧ tail.NullFree ∧ Dialect.Constant name (lead ++ ("%s" ++ tail)) ∧
      ∀ arg, Template.format (lead ++ ("%s" ++ tail)) [arg] = lead ++ (arg ++ tail) := by
    simp only [carriers, List.mem_cons, List.not_mem_nil, or_false] at hname
    rcases hname with rfl | rfl | rfl
    · exact ⟨" ?>", "<?php ", by decide, by decide, by decide, fun _ => rfl⟩
    · exact ⟨" \x7b", "\x7d", by decide, by decide, by decide, fun _ => rfl⟩
    · exact ⟨"<?php ", " ?>", by decide, by decide, by decide, fun _ => rfl⟩
  obtain ⟨lead, tail, hlead, htail, htemplate, hformat⟩ := hcarrier
  refine ⟨lead, tail, hlead, htail, fun arg text hok => ?_⟩
  rw [h.render_eq (carriers_common name hname) (hapart name hname) (h.constant htemplate) hok, hformat]

theorem fallback_eq {fallback : Bytes} (hok : Pattern.text (s.patternTable d) "empty_value" [] = .ok fallback) :
    fallback = "''" := by
  have htemplate : Dialect.Constant "empty_value" "''" := by decide +kernel
  exact h.text_eq (by decide) (by decide) (h.constant htemplate) hok

end Standard

/-- The settings replace no patterns and bring no null bytes, and the dialect is a built-in one. -/
structure Stock (s : Session) (d : Dialect) : Prop where
  patterns : s.settings.patterns = []
  producers : s.settings.producers = []
  settings : s.settings.NullFree
  dialect : d ∈ Dialect.builtin

namespace Stock

variable (h : s.Stock d)
include h

theorem standard : s.Standard d := ⟨h.patterns, h.producers, h.dialect⟩

theorem nullFree : s.NullFree d where
  producers := h.producers
  settings := h.settings
  templates := by
    rw [h.patterns]
    exact List.forall_mem_nil _
  dialect := Dialect.nullFree_of_builtin h.dialect

end Stock

variable {e : Element} {selector : Selector}

theorem lookUp_builtin (hformats : s.settings.formats = []) (name : Bytes) :
    ∃ l d, s.lookUp name = ({ s with ledger := l }, some d) ∧ d ∈ Dialect.builtin := by
  have hmissing : s.settings.formats.get? (Dialect.normalName name) = none := by
    rw [hformats]
    rfl
  rw [lookUp, hmissing]
  dsimp only
  split
  next d hd =>
    obtain ⟨entry, hentry, rfl⟩ := Option.map_eq_some_iff.mp hd
    exact ⟨s.ledger, entry.2, rfl, Dialect.builtin_of_byName entry (List.mem_of_find?_eq_some hentry)⟩
  next => exact ⟨_, Dialect.basic, rfl, List.mem_cons_self⟩

theorem select_builtin (hformats : s.settings.formats = []) (name : Bytes)
    (hselector : selector = .auto ∨ selector = .named name) (h : (s.select e selector).2 = .ok d) : d ∈ Dialect.builtin := by
  have hchoose : ∃ l d label, s.choose e selector = .ok ({ s with ledger := l }, some d, label) ∧ d ∈ Dialect.builtin := by
    rcases hselector with rfl | rfl
    · obtain ⟨l, d, hlookUp, hd⟩ := lookUp_builtin hformats (s.autoName e)
      exact ⟨l, d, _, by rw [choose, hlookUp], hd⟩
    · obtain ⟨l, d, hlookUp, hd⟩ := lookUp_builtin hformats name
      exact ⟨l, d, _, by rw [choose, hlookUp], hd⟩
  obtain ⟨l, d', label, hchoose, hd'⟩ := hchoose
  rw [select, hchoose] at h
  dsimp only at h
  split at h
  · obtain rfl : d' = d := Except.ok.inj h
    exact hd'
  · cases h

theorem isSome_patternTable {name : Bytes} (hname : name ∈ commonPatterns) : ((s.patternTable d).get? name).isSome := by
  rw [patternTable_eq]
  refine Dictionary.isSome_get?_insertAll (.inr (Dictionary.isSome_get?_insertAll (.inr
    (Dictionary.isSome_get?_insertAll (.inr ?_)))))
  rcases List.mem_append.mp hname with hbasic | hderived
  · exact Dictionary.isSome_get?_insertAll (.inr (Dictionary.isSome_get?_insertAll (.inl (by rwa [names_templates]))))
  · exact Dictionary.isSome_get?_insertAll (.inl hderived)

theorem derived_inputs_plain {name : Bytes} {inputs : List Bytes} {body : Producer}
    (h : (name, .producer inputs body) ∈ derivedPatterns) : ∀ i ∈ inputs, i ∉ derivedPatterns.map (·.1) := by
  simp only [derivedPatterns, List.mem_cons, List.not_mem_nil, or_false, Prod.mk.injEq, Pattern.producer.injEq] at h
  rcases h with ⟨rfl, rfl, -⟩ | ⟨rfl, rfl, -⟩ <;> decide

/-- Without producers in the settings all that pages are written with has a text: the basic patterns are templates, and
the derived ones are made from these or replaced by templates. -/
theorem patternTable_sound (hproducers : s.settings.producers = []) {name : Bytes} (hname : name ∈ commonPatterns) :
    Pattern.Sound (s.patternTable d) name := by
  have hplain (name : Bytes) (hname : name ∈ commonPatterns) (hderived : name ∉ derivedPatterns.map (·.1)) :
      Pattern.Sound (s.patternTable d) name := by
    obtain ⟨p, hp⟩ := Option.isSome_iff_exists.mp (isSome_patternTable hname)
    cases p with
    | template text => exact Pattern.sound_of_template hp
    | producer inputs body => exact absurd (List.mem_map_of_mem (producer_derived hproducers hname hp)) hderived
  obtain ⟨p, hp⟩ := Option.isSome_iff_exists.mp (isSome_patternTable hname)
  cases p with
  | template text => exact Pattern.sound_of_template hp
  | producer inputs body =>
    have hderived := producer_derived hproducers hname hp
    exact Pattern.sound_of_inputs hp fun i hi => hplain i ((derived_inputs hderived).2 i hi) (derived_inputs_plain hderived i hi)

/-- Where no function of the settings stands in for a pattern, every dialect can be put in force. -/
theorem install_ok (hproducers : s.settings.producers = []) (e : Element) (d : Dialect) :
    ∃ forms fallback, s.install e d = (s.installed d forms, .ok (s.environment e d fallback)) := by
  have htext (name : Bytes) (hname : name ∈ commonPatterns) := (patternTable_sound (d := d) hproducers hname).text []
  obtain ⟨pair, hpair⟩ := htext "attribute_pattern" (by decide)
  obtain ⟨flag, hflag⟩ := htext "boolean_attribute_pattern" (by decide)
  obtain ⟨escape, hescape⟩ := htext "html_expression_escape" (by decide)
  obtain ⟨fallback, hfallback⟩ := htext "empty_value" (by decide)
  refine ⟨⟨pair, flag, escape⟩, fallback, ?_⟩
  unfold install readForms readForm
  simp only [hpair, hflag, hescape, hfallback]
  rfl

end Session

/-- Settings that bring in nothing but an indentation and the name of the storage. -/
structure Settings.Bare (settings : Settings) : Prop where
  formats : settings.formats = []
  patterns : settings.patterns = []
  producers : settings.producers = []
  handlers : settings.handlers = []
  getter : settings.storage.getter = none
  indent : settings.indent.NullFree
  storage : settings.storage.name.NullFree

theorem Settings.Bare.nullFree {settings : Settings} (h : settings.Bare) : settings.NullFree where
  indent := h.indent
  storage := h.storage
  accessor name hname := by
    rw [Storage.accessor, h.getter]
    have hquoted := Quoted.nullFree_encode hname
    simp only [Bytes.nullFree_append, h.storage, hquoted, and_true]
    decide
  handlers := by
    rw [h.handlers]
    exact List.forall_mem_nil _

theorem Settings.Bare.stock {settings : Settings} (h : settings.Bare) {e : Element} {name : Bytes} {d : Dialect}
    (hd : (Session.select { settings } e (.named name)).2 = .ok d) : Session.Stock { settings } d :=
  ⟨h.patterns, h.producers, h.nullFree, Session.select_builtin h.formats name (.inr rfl) hd⟩

theorem Settings.bare_default : Settings.Bare {} := ⟨rfl, rfl, rfl, rfl, rfl, by decide, by decide⟩

/-- The option brings in no dialects, patterns, handlers or getters. -/
def Setting.Bare : Setting → Prop
  | .format .. | .patterns _ | .producer .. | .handlers _ | .getter _ => False
  | _ => True

theorem Settings.Bare.apply {s t : Settings} (hs : s.Bare) {setting : Setting} (hsetting : setting.Bare)
    (h : s.apply setting = .ok t) : t.Bare := by
  cases setting with
  | indent unit =>
    rw [Settings.apply] at h
    split at h
    next => cases h
    next hunit =>
      cases h
      simp only [Bool.or_eq_true, Bool.not_eq_eq_eq_not, Bool.not_true, not_or, Bool.not_eq_false, List.all_eq_true] at hunit
      exact { hs with indent := fun hzero => absurd (hunit.2 0 hzero) (by decide) }
  | storage name =>
    rw [Settings.apply] at h
    dsimp only at h
    split at h
    next hname =>
      cases h
      exact { hs with storage := fun hzero => absurd (Token.Scan.isName_all hname 0 hzero) (by decide) }
    next => cases h
  | pretty on | debug on | sourceFile path =>
    cases h
    exact { hs with }
  | defaultFormat name | maxDepth n =>
    rw [Settings.apply] at h
    split at h <;> cases h
    exact { hs with }
  | format | patterns | producer | handlers | getter => exact hsetting.elim

theorem Options.bare {o : Options} {source : Bytes} {settings : Settings}
    (h : Settings.ofList (o.settings source) = .ok settings) : settings.Bare := by
  have hbare : ∀ setting ∈ o.settings source, setting.Bare := by
    rw [Options.settings]
    refine List.forall_mem_append.mpr ⟨List.forall_mem_append.mpr ⟨?_, ?_⟩, ?_⟩
    · simp [Setting.Bare]
    · split <;> simp [Setting.Bare]
    · split <;> simp [Setting.Bare]
  exact foldlM_invariant (fun s setting t hsetting hs => hs.apply (hbare setting hsetting)) Settings.bare_default h

end Stencil
