import Stencil.Proofs.Compile.Drawing

/-! Patterns without null bytes. Whatever pages there were before, the common patterns of a page are templates of the
settings, of its dialect and of the basic dialect, and the two that are derived from others: where no template has a null
byte, none comes into the page. -/

namespace Stencil

open Bytes (nullFree_append nullFree_getD)

structure Dialect.NullFree (d : Dialect) : Prop where
  patterns : ∀ e ∈ d.patterns, e.2.NullFree
  tokens : ∀ e ∈ d.tokenTemplates, e.2.NullFree

namespace Session

variable {s : Session} {d : Dialect}

/-- No function of the settings stands in for a pattern, and what else the settings and the dialect bring into a page
has no null bytes. -/
structure NullFree (s : Session) (d : Dialect) : Prop where
  producers : s.settings.producers = []
  settings : s.settings.NullFree
  templates : ∀ e ∈ s.settings.patterns, e.2.NullFree
  dialect : d.NullFree

theorem mem_templates {d : Dictionary Bytes} {name text : Bytes} (h : (name, .template text) ∈ templates d) :
    (name, text) ∈ d := by
  obtain ⟨e, he, heq⟩ := List.mem_map.mp h
  cases heq
  exact he

theorem patternTable_template (hproducers : s.settings.producers = []) {name text : Bytes} (hname : name ∈ commonPatterns)
    (hp : (s.patternTable d).get? name = some (.template text)) :
    (name, text) ∈ s.settings.patterns ∨ (name, text) ∈ d.patterns ∨ (name, text) ∈ Dialect.basicPatterns := by
  rw [patternTable_eq, producerTable, hproducers] at hp
  rcases Dictionary.get?_insertAll_cases hp with hm | ⟨-, hp⟩
  · cases hm
  rcases Dictionary.get?_insertAll_cases hp with hm | ⟨-, hp⟩
  · exact .inl (mem_templates hm)
  rcases Dictionary.get?_insertAll_cases hp with hm | ⟨-, hp⟩
  · exact .inr (.inl (mem_templates hm))
  rcases Dictionary.get?_insertAll_cases hp with hm | ⟨hderived, hp⟩
  · simp [derivedPatterns] at hm
  rcases Dictionary.get?_insertAll_cases hp with hm | ⟨hbasic, -⟩
  · exact .inr (.inr (mem_templates hm))
  · -- Patterns of earlier pages keep no common name.
    rw [names_templates] at hbasic
    exact absurd hname fun hname => (List.mem_append.mp hname).elim hbasic hderived

theorem nullFree_derived {name : Bytes} {p : Pattern} (h : (name, p) ∈ derivedPatterns) : p.NullFree := by
  simp only [derivedPatterns, List.mem_cons, List.not_mem_nil, or_false, Prod.mk.injEq] at h
  rcases h with ⟨-, rfl⟩ | ⟨-, rfl⟩
  · intro inputs args hinputs hargs
    have htest := Template.nullFree_format (nullFree_getD hinputs 0) (List.forall_mem_singleton.mpr (nullFree_getD hargs 0))
    simp only [checkedVariable, nullFree_append, htest, nullFree_getD hargs, and_true]
    decide
  · intro inputs args hinputs hargs
    have hvalue := Template.nullFree_format (nullFree_getD hinputs 1) hargs
    exact Template.nullFree_format (nullFree_getD hinputs 0) (List.forall_mem_singleton.mpr hvalue)

theorem NullFree.of_eq {s' : Session} (h : s.NullFree d) (hsettings : s'.settings = s.settings) : s'.NullFree d :=
  ⟨hsettings ▸ h.producers, hsettings ▸ h.settings, hsettings ▸ h.templates, h.dialect⟩

namespace NullFree

variable (h : s.NullFree d)
include h

theorem pattern {name : Bytes} (hname : name ∈ commonPatterns) {p : Pattern}
    (hp : (s.patternTable d).get? name = some p) : p.NullFree := by
  have hbasic : ∀ e ∈ Dialect.basicPatterns, e.2.NullFree := by decide
  cases p with
  | producer inputs body => exact nullFree_derived (producer_derived h.producers hname hp)
  | template text =>
    rcases patternTable_template h.producers hname hp with hm | hm | hm
    · exact h.templates _ hm
    · exact h.dialect.patterns _ hm
    · exact hbasic _ hm

theorem text {name : Bytes} (hname : name ∈ commonPatterns) {args : List Bytes} {text : Bytes}
    (hargs : ∀ a ∈ args, Bytes.NullFree a) (hok : Pattern.text (s.patternTable d) name args = .ok text) : text.NullFree :=
  Pattern.nullFree_resolve (patternTable_agree h.producers rfl d) (fun _ _ hn hp => h.pattern hn hp) hname hargs hok

theorem render {name : Bytes} (hname : name ∈ commonPatterns) {args : List Bytes} {text : Bytes}
    (hargs : ∀ a ∈ args, Bytes.NullFree a) (hok : Pattern.render (s.patternTable d) name args = .ok text) : text.NullFree :=
  Pattern.nullFree_resolve (patternTable_agree h.producers rfl d) (fun _ _ hn hp => h.pattern hn hp) hname hargs hok

/-- Where a tree without null bytes is rendered, nothing has any. -/
theorem environment {e : Element} (he : e.NullFree) {fallback : Bytes}
    (hfallback : Pattern.text (s.patternTable d) "empty_value" [] = .ok fallback) :
    (s.environment e d fallback).NullFree where
  settings := h.settings
  tokens := h.dialect.tokens
  fallback := h.text (by decide) (List.forall_mem_nil _) hfallback
  text _ hname _ _ hargs hok := h.text hname hargs hok
  render _ hname _ _ hargs hok := h.render hname hargs hok
  mixins := he.declarations

end NullFree

end Session

end Stencil
