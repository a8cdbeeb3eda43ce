import Stencil.Proofs.Compile.Calls
import Stencil.Proofs.Compile.Demand
import Stencil.Proofs.Compile.Marks

/-! What one call does. A call that succeeds adds to the ledger the helpers that it requires on its own and the origins
of the nodes it renders, and every helper that its result reads is among those; any other call but a reset leaves the
ledger as it was. -/

namespace Stencil.Session

def bare (s : Session) : Session := { s with ledger := { s.ledger with helpers := s.ledger.helpers.reset } }

theorem bare_ahead (s : Session) : s.bare.ledger.Ahead s.ledger.helpers.required s.ledger :=
  ⟨rfl, (List.append_nil _).symm, rfl⟩

theorem attempt_grows (s : Session) (e : Element) (nextNode : NodeId) (selector : Selector) :
    s.ledger.Extends (s.attempt e nextNode selector).session.ledger ∧
      ∀ text, (s.attempt e nextNode selector).result = .ok text →
        (s.attempt e nextNode selector).session.ledger.fragments.toList =
          s.ledger.fragments.toList ++ Render.fragments s.settings e := by
  have h := attempt_compared (c := sameTerms) (Ledger.ahead_nil_iff.mpr (.refl s.ledger))
    (fun _ _ => rfl) e nextNode selector
  exact ⟨h.grow, h.marks⟩

/-- A page comes out the same where nothing was required before, and requires the same helpers. -/
theorem attempt_bare (s : Session) (e : Element) (nextNode : NodeId) (selector : Selector) :
    (s.bare.attempt e nextNode selector).result = (s.attempt e nextNode selector).result ∧
      (s.bare.attempt e nextNode selector).session.ledger.Ahead s.ledger.helpers.required
        (s.attempt e nextNode selector).session.ledger := by
  have h := attempt_compared (c := ⟨s.ledger.helpers.required, fun _ => True⟩) s.bare_ahead
    (fun _ _ => rfl) e nextNode selector
  rcases h.keeps with ⟨_, -, hshared⟩ | hsame
  · exact absurd trivial hshared
  · exact hsame

/-- A page whose text depends on the code that reads a helper requires the helper. -/
theorem attempt_reads {s : Session} {getter : Option (Bytes → Bytes → Bytes)} {name : Bytes}
    (hothers : ∀ other ≠ name, (s.variant s.ledger getter).settings.storage.accessor other =
      s.settings.storage.accessor other) (e : Element) (nextNode : NodeId) (selector : Selector) :
    name ∈ (s.bare.attempt e nextNode selector).session.ledger.helpers.required ∨
      ((s.variant s.ledger getter).attempt e nextNode selector).result = (s.attempt e nextNode selector).result := by
  have h := attempt_compared (c := ⟨[], (· ≠ name)⟩) (Ledger.ahead_nil_iff.mpr (.refl s.bare.ledger)) hothers e nextNode
    selector
  rcases h.keeps with ⟨other, hrequired, hother⟩ | ⟨hresult, -⟩
  · exact .inl (not_ne_iff.mp hother ▸ hrequired)
  · right
    rw [← (s.attempt_bare e nextNode selector).1, hresult]
    exact ((s.variant s.ledger getter).attempt_bare e nextNode selector).1.symm

theorem formatElement_of_ok {s : Session} {e : Element} {nextNode : NodeId} {selector : Selector} {text : Bytes}
    (h : (s.attempt e nextNode selector).result = .ok text) :
    s.formatElement e nextNode selector = s.attempt e nextNode selector := by
  rw [formatElement_eq, h]

theorem result_formatElement (s : Session) (e : Element) (nextNode : NodeId) (selector : Selector) :
    (s.formatElement e nextNode selector).result = (s.attempt e nextNode selector).result := by
  rw [formatElement_eq]
  split <;> rfl

namespace Desk

variable {d : Desk} {call : Call} {text : Bytes}

def result (d : Desk) : Call → Option Bytes
  | .format root selector => (d.session.format d.forest root selector).2.2.toOption
  | .require name => (d.session.require name).2.toOption
  | _ => none

def bare (d : Desk) : Desk := { d with session := d.session.bare }

def variant (d : Desk) (getter : Option (Bytes → Bytes → Bytes)) : Desk :=
  { d with session := d.session.variant d.session.ledger getter }

/-- The helpers that a call requires, in the order it first does. -/
def demand (d : Desk) (call : Call) : List Bytes := (d.bare.after call).session.ledger.helpers.required

/-- The origins of the nodes that a call renders, in the order they are done. -/
def origins (d : Desk) : Call → List Origin
  | .format (some id) _ => Render.fragments d.session.settings (d.forest.element id)
  | _ => []

/-- The code that reads the helper stands in what the call gives: with other code for this helper alone, the call
gives something else. -/
def Emits (d : Desk) (call : Call) (name : Bytes) : Prop :=
  ∃ getter, (∀ other ≠ name,
      (d.variant getter).session.settings.storage.accessor other = d.session.settings.storage.accessor other) ∧
    (d.variant getter).result call ≠ d.result call

/-- What a call that succeeds does to the ledger. -/
structure Delivers (d : Desk) (call : Call) : Prop where
  settings : (d.after call).session.settings = d.session.settings
  ahead : (d.bare.after call).session.ledger.Ahead d.session.ledger.helpers.required (d.after call).session.ledger
  grow : d.session.ledger.Extends (d.after call).session.ledger
  distinct : (d.demand call).Nodup
  origins : (d.after call).session.ledger.fragments.toList = d.session.ledger.fragments.toList ++ d.origins call
  emits : ∀ name, d.Emits call name → name ∈ d.demand call

theorem result_format (d : Desk) (id : NodeId) (selector : Selector) :
    d.result (.format (some id) selector) =
      (d.session.attempt (d.forest.element id) d.forest.size selector).result.toOption :=
  congrArg Except.toOption (d.session.result_formatElement ..)

theorem session_after_format {id : NodeId} {selector : Selector}
    (h : (d.session.attempt (d.forest.element id) d.forest.size selector).result = .ok text) :
    (d.after (.format (some id) selector)).session =
      (d.session.attempt (d.forest.element id) d.forest.size selector).session :=
  congrArg Outcome.session (formatElement_of_ok h)

theorem result_cases (h : d.result call = some text) :
    (∃ id selector, call = .format (some id) selector ∧
      (d.session.attempt (d.forest.element id) d.forest.size selector).result = .ok text) ∨
    ∃ name, call = .require name := by
  cases call with
  | format root selector =>
    cases root with
    | none => cases h
    | some id =>
      rw [result_format] at h
      exact .inl ⟨id, selector, rfl, ok_of_toOption h⟩
  | require name => exact .inr ⟨name, rfl⟩
  | reset => cases h
  | preamble => cases h
  | edit change => cases h

theorem format_delivers {id : NodeId} {selector : Selector}
    (hok : (d.session.attempt (d.forest.element id) d.forest.size selector).result = .ok text) :
    d.Delivers (.format (some id) selector) := by
  obtain ⟨hresult, hahead⟩ := d.session.attempt_bare (d.forest.element id) d.forest.size selector
  have hafter := session_after_format hok
  have hbare : (d.bare.after (.format (some id) selector)).session =
      (d.session.bare.attempt (d.forest.element id) d.forest.size selector).session :=
    session_after_format (hresult.trans hok)
  obtain ⟨hgrow, horigins⟩ := d.session.attempt_grows (d.forest.element id) d.forest.size selector
  obtain ⟨halone, -⟩ := d.session.bare.attempt_grows (d.forest.element id) d.forest.size selector
  refine ⟨?_, ?_, ?_, ?_, ?_, ?_⟩
  · rw [hafter]
    exact d.session.attempt_settings ..
  · rw [hafter, hbare]
    exact hahead
  · rw [hafter]
    exact hgrow
  · rw [demand, hbare]
    exact halone.distinct List.nodup_nil
  · rw [hafter]
    exact horigins text hok
  · rintro name ⟨getter, hothers, hdiffers⟩
    rw [demand, hbare]
    rcases attempt_reads hothers (d.forest.element id) d.forest.size selector with hrequired | hreads
    · exact hrequired
    · refine absurd ?_ hdiffers
      rw [result_format, result_format]
      exact congrArg Except.toOption hreads

theorem require_delivers {name : Bytes} (h : d.result (.require name) = some text) : d.Delivers (.require name) := by
  rcases Ledger.require_ahead d.session.bare_ahead none name with ⟨f, -, hr⟩ | ⟨r, r', hbare, hr, hahead⟩
  · rw [result, require, hr] at h
    cases h
  · have hafter : (d.after (.require name)).session = { d.session with ledger := r' } := by rw [after, require, hr]
    have hdemand : (d.bare.after (.require name)).session = { d.session.bare with ledger := r } := by
      rw [after, require, show d.bare.session = d.session.bare from rfl, hbare]
    obtain ⟨hgrow, hfragments, -⟩ := Ledger.extends_require hr
    obtain ⟨halone, -, hrequired⟩ := Ledger.extends_require hbare
    refine ⟨by rw [hafter], by rw [hafter, hdemand]; exact hahead, by rw [hafter]; exact hgrow, ?_, ?_, ?_⟩
    · rw [demand, hdemand]
      exact halone.distinct List.nodup_nil
    · rw [hafter]
      exact (congrArg Array.toList hfragments).trans (List.append_nil _).symm
    · rintro other ⟨getter, hothers, hdiffers⟩
      rw [demand, hdemand]
      by_cases hname : name = other
      · exact hname ▸ hrequired
      · refine absurd ?_ hdiffers
        rw [result, result, require, require, hr, show (d.variant getter).session.ledger = d.session.ledger from rfl, hr]
        exact congrArg some (hothers name hname)

theorem delivers (h : d.result call = some text) : d.Delivers call := by
  rcases result_cases h with ⟨id, selector, rfl, hok⟩ | ⟨name, rfl⟩
  · exact format_delivers hok
  · exact require_delivers h

/-- A call that gives nothing changes neither the ledger, but for the log, nor the settings. -/
theorem after_alike (h : d.result call = none) (hreset : call ≠ .reset) :
    d.session.ledger.Alike (d.after call).session.ledger ∧ (d.after call).session.settings = d.session.settings := by
  cases call with
  | format root selector =>
    cases root with
    | none => exact ⟨.refl _, rfl⟩
    | some id =>
      rw [result_format] at h
      obtain ⟨hgrow, -⟩ := d.session.attempt_grows (d.forest.element id) d.forest.size selector
      cases hr : (d.session.attempt (d.forest.element id) d.forest.size selector).result with
      | ok text =>
        rw [hr] at h
        cases h
      | error f =>
        rw [show (d.after (.format (some id) selector)).session =
          (d.session.formatElement (d.forest.element id) d.forest.size selector).session from rfl, formatElement_eq, hr]
        exact ⟨hgrow.rollback, d.session.attempt_settings ..⟩
  | require name =>
    rw [result, require] at h
    rw [after, require]
    cases hr : d.session.ledger.require none name with
    | error f => exact ⟨.refl _, rfl⟩
    | ok ledger =>
      rw [hr] at h
      cases h
  | reset => exact absurd rfl hreset
  | preamble =>
    rw [after, preamble]
    cases d.session.ledger.helpers.closure with
    | error e => exact ⟨.refl _, rfl⟩
    | ok helpers => exact ⟨Ledger.alike_say .., rfl⟩
  | edit change => exact ⟨.refl _, rfl⟩

end Desk

end Stencil.Session
