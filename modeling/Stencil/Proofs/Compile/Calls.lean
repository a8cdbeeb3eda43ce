import Stencil.Proofs.Compile.Rollback

/-! Sessions as sequences of calls. A failed page takes back its helpers and fragments but leaves its forms of
attributes behind; later preambles are what they would have been without it just if these forms are as before. -/

namespace Stencil.Session

/-- A call on a session, or a change that its caller makes to the trees. -/
inductive Call where
  | format (root : Option NodeId) (selector : Selector)
  | require (name : Bytes)
  | reset
  | preamble
  | edit (change : Forest → Forest)

/-- A session and the trees it is called with. -/
structure Desk where
  session : Session
  forest : Forest

namespace Desk

variable {d d' : Desk}

def start (settings : Settings) (forest : Forest) : Desk := ⟨{ settings }, forest⟩

def after (d : Desk) : Call → Desk
  | .format root selector =>
    ⟨(d.session.format d.forest root selector).1, (d.session.format d.forest root selector).2.1⟩
  | .require name => { d with session := (d.session.require name).1 }
  | .reset => { d with session := d.session.reset }
  | .preamble => { d with session := d.session.preamble.1 }
  | .edit change => { d with forest := change d.forest }

def run (d : Desk) (calls : List Call) : Desk := calls.foldl after d

def preambles (d : Desk) : List Call → List (Except Failure Bytes)
  | [] => []
  | .preamble :: calls => d.session.preamble.2 :: (d.after .preamble).preambles calls
  | call :: calls => (d.after call).preambles calls

structure Alike (d d' : Desk) : Prop where
  session : d.session.Alike d'.session
  intact : d.session.Intact
  forest : d.forest = d'.forest

theorem preamble_alike {s s' : Session} (h : s.Alike s') (hi : s.Intact) :
    s.preamble.2 = s'.preamble.2 ∧ s.preamble.1.Alike s'.preamble.1 ∧ s.preamble.1.Intact := by
  rw [preamble, preamble, ← h.ledger.helpers]
  split
  · exact ⟨rfl, h, hi⟩
  · refine ⟨?_, { h with ledger := h.ledger.say .. }, ⟨hi.declared, hi.producers⟩⟩
    rw [h.settings, h.ledger.fragments, h.forms.write]

theorem require_alike {s s' : Session} (h : s.Alike s') (hi : s.Intact) (name : Bytes) :
    (s.require name).1.Alike (s'.require name).1 ∧ (s.require name).1.Intact := by
  rw [require, require]
  rcases Ledger.require_ahead (Ledger.ahead_nil_iff.mpr h.ledger) none name with
    ⟨f, hf, hf'⟩ | ⟨l, l', hl, hl', hahead⟩
  · rw [hf, hf']
    exact ⟨h, hi⟩
  · rw [hl, hl']
    refine ⟨{ h with ledger := Ledger.ahead_nil_iff.mp hahead }, { hi with declared := ?_ }⟩
    exact (Ledger.extends_require hl).1.declared.trans hi.declared

theorem format_alike (h : d.Alike d') (root : Option NodeId) (selector : Selector) :
    (d.after (.format root selector)).Alike (d'.after (.format root selector)) := by
  cases root with
  | none => exact h
  | some id =>
    obtain ⟨session, forest⟩ := d
    obtain ⟨session', forest'⟩ := d'
    obtain rfl : forest = forest' := h.forest
    obtain ⟨hm, -⟩ := formatElement_alike h.session h.intact (forest.element id) forest.size selector
    exact ⟨hm.alike, hm.intact, congrArg (applyAdditions forest) hm.additions⟩

theorem Alike.after (h : d.Alike d') (call : Call) : (d.after call).Alike (d'.after call) := by
  cases call with
  | format root selector => exact format_alike h root selector
  | require name =>
    obtain ⟨halike, hintact⟩ := require_alike h.session h.intact name
    exact ⟨halike, hintact, h.forest⟩
  | reset =>
    refine ⟨{ h.session with ledger := ⟨?_, rfl⟩ }, ⟨h.intact.declared, h.intact.producers⟩, h.forest⟩
    exact congrArg Helper.Registry.reset h.session.ledger.helpers
  | preamble =>
    obtain ⟨-, halike, hintact⟩ := preamble_alike h.session h.intact
    exact ⟨halike, hintact, h.forest⟩
  | edit change => exact ⟨h.session, h.intact, congrArg change h.forest⟩

theorem Alike.preambles (h : d.Alike d') (calls : List Call) : d.preambles calls = d'.preambles calls := by
  induction calls generalizing d d' with
  | nil => rfl
  | cons call calls ih =>
    have hrest := ih (h.after call)
    cases call with
    | preamble => exact congrArg₂ List.cons (preamble_alike h.session h.intact).1 hrest
    | _ => exact hrest

theorem Alike.refl (h : d.session.Intact) : d.Alike d :=
  ⟨⟨rfl, .refl _, .refl _, fun _ _ => .inr rfl⟩, h, rfl⟩

theorem after_settings (hi : d.session.Intact) (call : Call) :
    (d.after call).session.settings = d.session.settings := by
  cases call with
  | format root selector =>
    cases root with
    | none => rfl
    | some id => exact (formatElement_alike (Alike.refl hi).session hi ..).1.settings
  | require name =>
    simp only [after, require]
    split <;> rfl
  | reset => rfl
  | preamble =>
    simp only [after, preamble]
    split <;> rfl
  | edit change => rfl

theorem run_intact (settings : Settings) (forest : Forest) (calls : List Call) :
    ((start settings forest).run calls).session.Intact ∧
      ((start settings forest).run calls).session.settings = settings := by
  suffices h : ∀ d : Desk, d.session.Intact →
      (d.run calls).session.Intact ∧ (d.run calls).session.settings = d.session.settings from
    h (start settings forest) ⟨rfl, fun _ _ _ hp => by cases hp⟩
  induction calls with
  | nil => exact fun _ hi => ⟨hi, rfl⟩
  | cons call calls ih =>
    intro d hi
    obtain ⟨hrun, hs⟩ := ih _ ((Alike.refl hi).after call).intact
    exact ⟨hrun, hs.trans (after_settings hi call)⟩

/-- A failed page leaves the ledger as it was, but for the log. -/
theorem after_failure (hi : d.session.Intact) {root : Option NodeId} {selector : Selector} {failure : Failure}
    (h : (d.session.format d.forest root selector).2.2 = .error failure) :
    d.session.ledger.Alike (d.after (.format root selector)).session.ledger := by
  cases root with
  | none => exact .refl _
  | some id => exact (formatElement_alike (Alike.refl hi).session hi ..).2 failure h

def attributeHelpers : Helper.Registry.Emitted Helper.Body :=
  [("merge_classes", ⟨.classes, []⟩), ("merge_styles", ⟨.styles, []⟩),
   ("merge_attributes", ⟨.attributes, ["merge_classes", "merge_styles"]⟩),
   ("attributes_assignment", ⟨.attributesText, ["merge_attributes"]⟩)]

/-- The calls after which the preamble shows the forms of attributes and nothing else of the session. -/
def probe : List Call := [.reset, .require "attributes_assignment", .preamble]

theorem preambles_probe (hi : d.session.Intact) :
    d.preambles probe =
      [.ok (Preamble.write d.session.settings.storage d.session.forms #[] attributeHelpers)] := by
  obtain ⟨⟨settings, ⟨⟨declared, required⟩, fragments, log⟩, dialect, patterns, forms, sourceMap⟩, forest⟩ := d
  obtain rfl : declared = Preamble.builtin := hi.declared
  rfl

theorem forms_alike_of_write {storage : Storage} {f f' : Preamble.Forms}
    (h : Preamble.write storage f #[] attributeHelpers = Preamble.write storage f' #[] attributeHelpers) :
    f.Alike f' := by
  have hall := List.append_cancel_left (List.append_cancel_right h)
  simp only [attributeHelpers, List.flatMap_cons, List.flatMap_nil] at hall
  -- Only the last of the four helpers is written with the forms.
  have hlast := List.append_cancel_left (List.append_cancel_left (List.append_cancel_left hall))
  exact Preamble.attributesTextCode_eq_iff.mp (List.append_cancel_left
    (List.append_cancel_right (List.append_cancel_right hlast)))

/-- The forms of attributes always show in some later preamble. -/
theorem forms_alike_of_preambles (hi : d.session.Intact) (hi' : d'.session.Intact)
    (hs : d'.session.settings = d.session.settings) (h : ∀ later, d'.preambles later = d.preambles later) :
    d'.session.forms.Alike d.session.forms := by
  have hprobe := h probe
  rw [preambles_probe hi, preambles_probe hi', hs] at hprobe
  exact forms_alike_of_write (Except.ok.inj (List.cons.inj hprobe).1)

/-- After a failed page that leaves what the producers read, later calls on any trees give the preambles that they
would have given without it just if the forms of attributes are as before. -/
theorem preambles_after_failure_iff (settings : Settings) (forest : Forest) (earlier : List Call)
    (root : Option NodeId) (selector : Selector) (failure : Failure) (d d' : Desk)
    (hd : d = (start settings forest).run earlier) (hd' : d' = d.after (.format root selector))
    (hfailure : (d.session.format d.forest root selector).2.2 = .error failure)
    (hinputs : ∀ name, settings.Reads name →
      settings.Installs name ∨ d'.session.patterns.get? name = d.session.patterns.get? name) (trees : Forest) :
    (∀ later, preambles ⟨d'.session, trees⟩ later = preambles ⟨d.session, trees⟩ later) ↔
      d'.session.forms.Alike d.session.forms := by
  obtain ⟨hi, hsettings⟩ : d.session.Intact ∧ d.session.settings = settings := by
    subst hd
    exact run_intact settings forest earlier
  have hi' : d'.session.Intact := hd' ▸ ((Alike.refl hi).after _).intact
  have hs : d'.session.settings = d.session.settings := hd' ▸ after_settings hi _
  have hledger : d.session.ledger.Alike d'.session.ledger := hd' ▸ after_failure hi hfailure
  refine ⟨@forms_alike_of_preambles ⟨d.session, trees⟩ ⟨d'.session, trees⟩ hi hi' hs, fun hforms => ?_⟩
  have hsession : d'.session.Alike d.session := by
    refine ⟨hs, hledger.symm, hforms, ?_⟩
    rw [hs, hsettings]
    exact hinputs
  exact Alike.preambles ⟨hsession, hi', rfl⟩

/-- A tag written as self-closing around a text, which no dialect can write, and another text. -/
def gallery : Forest :=
  ⟨#[{ content := .markup { name := "img", autoClosed := true }, children := [1] },
     { content := .text { value := "x" }, parent := some 0 }, { content := .text { value := "y" } }]⟩

def written : Desk := (start {} gallery).run [.format (some 2) (.named "basic")]

/-- A failed page in the dialect of the page before it does not show. -/
theorem preambles_after_failure_same_dialect :
    (written.after (.format (some 0) (.named "basic"))).preambles = written.preambles := by
  refine funext ((preambles_after_failure_iff {} gallery [.format (some 2) (.named "basic")] (some 0) (.named "basic")
    (.incompatibleChildren ⟨"Markup", none⟩ "img") written _ rfl rfl rfl ?_ gallery).mpr ⟨rfl, rfl, rfl⟩)
  rintro name ⟨_, h, -⟩
  cases h

/-- A failed page in another dialect shows: boolean attributes are now written without a value. -/
theorem failure_shows_in_preambles :
    ¬ ∀ (settings : Settings) (forest : Forest) (earlier : List Call) (root : Option NodeId) (selector : Selector)
      (failure : Failure) (d : Desk), d = (start settings forest).run earlier →
      (d.session.format d.forest root selector).2.2 = .error failure →
      ∀ later, (d.after (.format root selector)).preambles later = d.preambles later := by
  intro h
  have hsame := h {} gallery [.format (some 2) (.named "basic")] (some 0) (.named "html")
    (.incompatibleChildren ⟨"Markup", none⟩ "img") written rfl rfl
  obtain ⟨hi, -⟩ := run_intact {} gallery [.format (some 2) (.named "basic")]
  have hforms := forms_alike_of_preambles hi ((Alike.refl hi).after (.format (some 0) (.named "html"))).intact rfl hsame
  exact absurd hforms.flag (by decide)

end Desk

end Stencil.Session
