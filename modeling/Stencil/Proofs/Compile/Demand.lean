import Stencil.Proofs.Compile.Rollback

/-! One page in two sessions. What a page requires and numbers does not depend on the helpers required before it, and
what it writes depends on the code that reads a helper only if it requires that helper. -/

namespace Stencil.Session

open Rendering (Terms)

variable {c : Terms} {s : Session} {l : Ledger} {getter : Option (Bytes → Bytes → Bytes)}

def variant (s : Session) (l : Ledger) (getter : Option (Bytes → Bytes → Bytes)) : Session :=
  { s with ledger := l, settings := { s.settings with storage := { s.settings.storage with getter } } }

/-- What an outcome does to the ledger `l`, and that the outcome of a variant is the same unless a helper is required
that the two do not share. -/
structure Compared (c : Terms) (l : Ledger) (marks : List Origin) (o o' : Outcome Bytes) : Prop where
  grow : l.Extends o.session.ledger
  marks : ∀ text, o.result = .ok text → o.session.ledger.fragments.toList = l.fragments.toList ++ marks
  keeps : (∃ name ∈ o.session.ledger.helpers.required, ¬ c.shared name) ∨
    o.result = o'.result ∧ o.session.ledger.Ahead c.base o'.session.ledger

theorem renderTree_compared {s s' : Session} (hl : s.ledger.Ahead c.base s'.ledger) {env : Environment}
    {t : Pattern.Table} (henv : env.Suits c t getter) (e : Element) (nextNode : NodeId) :
    Compared c s.ledger (Render.nodeFragments env.settings env.mixins env.settings.maxDepth e)
      (s.renderTree env e nextNode) (s'.renderTree (env.variant t getter) e nextNode) := by
  have hstart : Progress.Ahead c.base { ledger := s.ledger, nextNode } { ledger := s'.ledger, nextNode } :=
    ⟨hl, rfl, rfl, rfl, rfl, rfl⟩
  have hfollows := Render.finished_follows henv e
  obtain ⟨hgrow, hmarks⟩ := hfollows.grows { ledger := s.ledger, nextNode }
  obtain ⟨k, m, hsame, hs, -⟩ := s.renderTree_eq env e nextNode
  obtain ⟨k', m', hsame', hs', -⟩ := s'.renderTree_eq (env.variant t getter) e nextNode
  rw [hs, hs']
  refine ⟨hgrow.trans hsame.extends, fun text htext => ?_, ?_⟩
  · cases hr : ((Render.finished env e).run { ledger := s.ledger, nextNode }).1 with
    | error f =>
      rw [hr] at htext
      cases htext
    | ok page => rw [← hsame.fragments, hmarks page hr]
  · rcases hfollows.keeps hstart with ⟨name, hname, hshared⟩ | ⟨hresult, hahead⟩
    · exact .inl ⟨name, hsame.extends.required.subset hname, hshared⟩
    · exact .inr ⟨by rw [hresult], hahead.ledger.of_alike hsame hsame'⟩

/-- A page in a session and in its variant. -/
theorem attempt_compared (hl : s.ledger.Ahead c.base l) (hshared : ∀ name, c.shared name →
      (s.variant l getter).settings.storage.accessor name = s.settings.storage.accessor name)
    (e : Element) (nextNode : NodeId) (selector : Selector) :
    Compared c s.ledger (Render.fragments s.settings e) (s.attempt e nextNode selector)
      ((s.variant l getter).attempt e nextNode selector) := by
  obtain ⟨k, k', r, hk, hk', hs, hs'⟩ := @select_alike s (s.variant l getter) rfl e selector
  have hselected : k.Ahead c.base k' := hl.of_alike hk hk'
  rw [attempt, attempt, hs, hs']
  cases r with
  | error f => exact ⟨hk.extends, fun _ h => (by cases h), .inr ⟨rfl, hselected⟩⟩
  | ok d =>
    obtain ⟨update, r, -, hs, hs'⟩ := @install_congr { s with ledger := k } { s.variant l getter with ledger := k' } d
      (fun _ _ => rfl) e
    dsimp only
    rw [hs, hs']
    cases r with
    | error f => exact ⟨hk.extends, fun _ h => (by cases h), .inr ⟨rfl, hselected⟩⟩
    | ok fallback =>
      have hsuits : (environment { s with ledger := k } e d fallback).Suits c (s.patternTable d) getter :=
        ⟨fun _ _ _ => rfl, fun _ _ _ => rfl, hshared⟩
      have hpage := @renderTree_compared _ _ (installed { s with ledger := k } d (update s.forms))
        (installed { s.variant l getter with ledger := k' } d (update s.forms)) hselected _ _ hsuits e nextNode
      refine ⟨hk.extends.trans hpage.grow, fun text htext => ?_, hpage.keeps⟩
      have hmarks := hpage.marks text htext
      rwa [show (installed { s with ledger := k } d (update s.forms)).ledger.fragments = s.ledger.fragments from
        hk.fragments.symm] at hmarks

end Stencil.Session
