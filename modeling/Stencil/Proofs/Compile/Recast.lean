import Stencil.Proofs.Compile.Kinship
import Stencil.Proofs.Compile.Rollback

/-! One page in two sessions whose settings lay pages out in different ways, for a tree and for the tree relocated. Both
choose the same dialect and come to a page by the same steps, or fail at the same one, so that the pages are akin where
the renderings are. -/

namespace Stencil

variable {g : Relocation}

namespace Session

def fallback (t : Pattern.Table) (site : Site) : Except Failure Bytes :=
  Except.mapError (.ofPattern (some site)) do
    let _ ← Pattern.text t "attribute_pattern" []
    let _ ← Pattern.text t "boolean_attribute_pattern" []
    let _ ← Pattern.text t "html_expression_escape" []
    Pattern.text t "empty_value" []

theorem install_result (s : Session) (e : Element) (d : Dialect) :
    ∃ forms, s.install e d =
      (s.installed d forms, (fallback (s.patternTable d) e.site).map (s.environment e d)) := by
  rw [install, readForms, fallback]
  cases hpair : Pattern.text (s.patternTable d) "attribute_pattern" [] with
  | error f => exact ⟨{ s.forms with pair := [] }, by simp only [readForm, hpair]; rfl⟩
  | ok pair =>
    cases hflag : Pattern.text (s.patternTable d) "boolean_attribute_pattern" [] with
    | error f => exact ⟨{ s.forms with pair, flag := [] }, by simp only [readForm, hpair, hflag]; rfl⟩
    | ok flag =>
      cases hescape : Pattern.text (s.patternTable d) "html_expression_escape" [] with
      | error f => exact ⟨⟨pair, flag, []⟩, by simp only [readForm, hpair, hflag, hescape]; rfl⟩
      | ok escape =>
        refine ⟨⟨pair, flag, escape⟩, ?_⟩
        simp only [readForm, hpair, hflag, hescape]
        cases Pattern.text (s.patternTable d) "empty_value" [] <;> rfl

theorem text_of_fallback {t : Pattern.Table} {site : Site} {text : Bytes} (h : fallback t site = .ok text) :
    Pattern.text t "empty_value" [] = .ok text := by
  obtain ⟨_, _, h⟩ := bind_eq_ok (mapError_eq_ok h)
  obtain ⟨_, _, h⟩ := bind_eq_ok h
  obtain ⟨_, _, h⟩ := bind_eq_ok h
  exact h

theorem select_session (s : Session) (e : Element) (selector : Selector) :
    ∃ l, s.ledger.Alike l ∧ s.select e selector = ({ s with ledger := l }, (s.select e selector).2) := by
  obtain ⟨l, -, r, hl, -, hs, -⟩ := select_alike (akin_of_eq rfl : s.Akin s) e selector
  exact ⟨l, hl, by rw [hs]⟩

/-- What a page comes out as: a dialect is selected and put in force, and the tree is rendered. -/
theorem attempt_result (s : Session) (e : Element) (nextNode : NodeId) (selector : Selector) :
    ∃ l, s.ledger.Alike l ∧ (s.attempt e nextNode selector).result =
      (s.select e selector).2 >>= fun d => fallback (s.patternTable d) e.site >>= fun text =>
        ((Render.finished (s.environment e d text) e).run { ledger := l, nextNode }).1.map Page.text := by
  obtain ⟨l, hl, hselect⟩ := s.select_session e selector
  refine ⟨l, hl, ?_⟩
  rw [attempt, hselect]
  cases (s.select e selector).2 with
  | error f => rfl
  | ok d =>
    obtain ⟨forms, hinstall⟩ := install_result { s with ledger := l } e d
    change _ = fallback (s.patternTable d) e.site >>= fun text =>
      ((Render.finished (s.environment e d text) e).run { ledger := l, nextNode }).1.map Page.text
    dsimp only
    rw [hinstall, show patternTable { s with ledger := l } d = s.patternTable d from rfl]
    cases fallback (s.patternTable d) e.site with
    | error f => rfl
    | ok text =>
      obtain ⟨_, _, -, hrender, -⟩ :=
        renderTree_eq (installed { s with ledger := l } d forms) (s.environment e d text) e nextNode
      exact congrArg Outcome.result hrender

/-- Without producers a page depends on the session only through its settings and its ledger, but for the log. -/
theorem attempt_congr {s s' : Session} (hproducers : s.settings.producers = []) (hsettings : s.settings = s'.settings)
    (hl : s.ledger.Alike s'.ledger) (e : Element) (nextNode : NodeId) (selector : Selector) :
    (s.attempt e nextNode selector).result = (s'.attempt e nextNode selector).result := by
  obtain ⟨l, hk, hs⟩ := s.attempt_result e nextNode selector
  obtain ⟨l', hk', hs'⟩ := s'.attempt_result e nextNode selector
  obtain ⟨_, _, r, -, -, hselect, hselect'⟩ := select_alike (akin_of_eq hsettings) e selector
  rw [hs, hs', hselect, hselect']
  refine bind_congr fun d => ?_
  have hagree := patternTable_agree hproducers hsettings d
  have hfallback : fallback (s'.patternTable d) e.site = fallback (s.patternTable d) e.site := by
    rw [fallback, fallback, hagree.text (by decide), hagree.text (by decide), hagree.text (by decide),
      hagree.text (by decide)]
  rw [hfallback]
  refine bind_congr fun text => ?_
  have hsuits : (s.environment e d text).Suits sameTerms (s'.patternTable d) s.settings.storage.getter :=
    ⟨fun _ hn args => (hagree.text hn args).symm, fun _ hn args => (hagree.render hn args).symm, fun _ _ => rfl⟩
  have henv : s'.environment e d text =
      (s.environment e d text).variant (s'.patternTable d) s.settings.storage.getter := by
    rw [environment, environment, ← hsettings]
  have hstart : Progress.Ahead [] { ledger := l, nextNode } { ledger := l', nextNode } :=
    ⟨Ledger.ahead_nil_iff.mpr ((hk.symm.trans hl).trans hk'), rfl, rfl, rfl, rfl, rfl⟩
  obtain ⟨r, q, q', hrun, hrun', -⟩ := follows_runs (Render.finished_follows hsuits e) hstart
  rw [henv, hrun, hrun']

theorem fallback_relocate (t : Pattern.Table) (site : Site) :
    fallback t (site.relocate g) = (fallback t site).mapError (Failure.relocate g) := by
  have hpattern (x : Except Pattern.Error Bytes) : x.mapError (Failure.ofPattern (some (site.relocate g))) =
      (x.mapError (Failure.ofPattern (some site))).mapError (Failure.relocate g) := by
    rcases x with ⟨_ | _⟩ | _ <;> rfl
  exact hpattern _

theorem select_relocate (s : Session) (e : Element) (selector : Selector) :
    (s.select (e.relocate g) selector).2 = (s.select e selector).2.mapError (Failure.relocate g) := by
  have hchoose : s.choose (e.relocate g) selector = (s.choose e selector).mapError (Failure.relocate g) := by
    cases selector with
    | auto => rw [choose, choose, autoName, autoName, e.doctype?_relocate g]; rfl
    | unsupported type => rw [choose, choose, e.site_relocate g]; rfl
    | _ => rfl
  rw [select, select, hchoose]
  rcases s.choose e selector with f | ⟨s', _ | d, label⟩
  · rfl
  · rw [e.site_relocate g]
    rfl
  · simp only [Except.mapError, e.site_relocate g]
    split <;> rfl

section Layout

variable (s s' : Session)
  (hsettings : s'.settings = { s.settings with pretty := s'.settings.pretty, indent := s'.settings.indent })
  (hpatterns : s'.patterns = s.patterns)
include hsettings hpatterns

theorem environment_relocate (e : Element) (d : Dialect) (text : Bytes) :
    s'.environment (e.relocate g) d text =
      (s.environment e d text).recast g s'.settings.pretty s'.settings.indent := by
  have htable : s'.patternTable d = s.patternTable d := by rw [patternTable, patternTable, hsettings, hpatterns]
  rw [environment, environment, Environment.recast, htable, e.declarations_relocate g, ← hsettings]

/-- What holds of the renderings of a tree and of the relocated tree holds of their pages. -/
theorem attempt_recast {α : Type} (f : Bytes → α) (e : Element) (nextNode nextNode' : NodeId) (selector : Selector)
    (h : ∀ d text l l', (s.select e selector).2 = .ok d → Pattern.text (s.patternTable d) "empty_value" [] = .ok text →
      s.ledger.Alike l → s'.ledger.Alike l' →
      ((Render.finished ((s.environment e d text).recast g s'.settings.pretty s'.settings.indent) (e.relocate g)).run
          { ledger := l', nextNode := nextNode' }).1.map (f ∘ Page.text) =
        (((Render.finished (s.environment e d text) e).run { ledger := l, nextNode }).1.map (f ∘ Page.text)).mapError
          (Failure.relocate g)) :
    (s'.attempt (e.relocate g) nextNode' selector).result.map f =
      ((s.attempt e nextNode selector).result.map f).mapError (Failure.relocate g) := by
  obtain ⟨l, hl, hs⟩ := s.attempt_result e nextNode selector
  obtain ⟨l', hl', hs'⟩ := s'.attempt_result (e.relocate g) nextNode' selector
  have hakin : s.Akin s' := by
    rw [Akin]
    exact hsettings.trans (by rw [hsettings])
  obtain ⟨_, _, r, -, -, hselect, hselect'⟩ := select_alike hakin (e.relocate g) selector
  have hsame : (s'.select (e.relocate g) selector).2 = (s.select e selector).2.mapError (Failure.relocate g) := by
    rw [← s.select_relocate, hselect, hselect']
  rw [hs, hs', hsame]
  cases hd : (s.select e selector).2 with
  | error f => rfl
  | ok d =>
    have htable : s'.patternTable d = s.patternTable d := by rw [patternTable, patternTable, hsettings, hpatterns]
    change Except.map f (fallback (s'.patternTable d) (e.relocate g).site >>= _) =
      (Except.map f (fallback (s.patternTable d) e.site >>= _)).mapError _
    rw [htable, e.site_relocate, fallback_relocate]
    cases htext : fallback (s.patternTable d) e.site with
    | error f => rfl
    | ok text =>
      have hrun := h d text l l' hd (text_of_fallback htext) hl hl'
      rw [← environment_relocate s s' hsettings hpatterns] at hrun
      have hmap (x : Except Failure Page) : (x.map Page.text).map f = x.map (f ∘ Page.text) := by cases x <;> rfl
      exact (hmap _).trans (hrun.trans (congrArg (Except.mapError _) (hmap _)).symm)

end Layout

end Session

end Stencil
