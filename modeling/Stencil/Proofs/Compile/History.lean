import Stencil.Proofs.Compile.Declared
import Stencil.Proofs.Compile.Delivery
import Stencil.Proofs.Distinct

/-! Histories of sessions. However calls that succeed and calls that fail follow each other, the ledger tells just what
those that succeeded since the last reset have asked for, and a preamble declares all that their pages read. -/

namespace Stencil.Session

/-- What happens to a session: a call, or the declaration of a helper. -/
inductive Event where
  | call (call : Call)
  | declare (name : Bytes) (code : List Bytes → Bytes) (dependencies : List Bytes)

/-- A call that succeeded, the desk it was made at, and what it gave. -/
structure Entry where
  desk : Desk
  call : Call
  text : Bytes
  given : desk.result call = some text

/-- A desk, and the calls since the last reset that succeeded. -/
structure Account where
  desk : Desk
  past : List Entry

namespace Account

def start (settings : Settings) (forest : Forest) : Account := ⟨.start settings forest, []⟩

def entry (d : Desk) (call : Call) : List Entry :=
  match h : d.result call with
  | some text => [⟨d, call, text, h⟩]
  | none => []

def next (a : Account) : Event → Account
  | .declare name code dependencies =>
    { a with desk := { a.desk with session := a.desk.session.declare name code dependencies } }
  | .call .reset => ⟨a.desk.after .reset, []⟩
  | .call call => ⟨a.desk.after call, a.past ++ entry a.desk call⟩

def run (a : Account) (events : List Event) : Account := events.foldl next a

/-- The helpers that the entries require, each where it is first required. -/
def demand (past : List Entry) : List Bytes := (past.flatMap fun e => e.desk.demand e.call).eraseDups

/-- The origins that the entries number. -/
def origins (past : List Entry) : List Origin := past.flatMap fun e => e.desk.origins e.call

variable {call : Call}

theorem entry_of_some {d : Desk} {text : Bytes} (h : d.result call = some text) : entry d call = [⟨d, call, text, h⟩] := by
  rw [entry]
  split
  next text' h' =>
    obtain rfl : text = text' := Option.some.inj (h.symm.trans h')
    rfl
  next h' =>
    rw [h] at h'
    cases h'

theorem entry_of_none {d : Desk} (h : d.result call = none) : entry d call = [] := by
  rw [entry]
  split
  next h' =>
    rw [h] at h'
    cases h'
  next => rfl

theorem next_call (a : Account) (hreset : call ≠ .reset) :
    a.next (.call call) = ⟨a.desk.after call, a.past ++ entry a.desk call⟩ := by
  cases call with
  | reset => exact absurd rfl hreset
  | _ => rfl

end Account

/-- The event declares no helper that every session starts with. -/
def Event.Fresh : Event → Prop
  | .call _ => True
  | .declare name _ _ => Preamble.builtin.get? name = none

namespace Account

variable {setup : Settings} {a : Account} {call : Call} {event : Event}

/-- What holds of an account whatever happens: the ledger tells what the entries asked for, and the fragments of each
entry are still those they were. -/
structure Balanced (setup : Settings) (a : Account) : Prop where
  settings : a.desk.session.settings = setup
  required : a.desk.session.ledger.helpers.required = demand a.past
  fragments : a.desk.session.ledger.fragments.toList = origins a.past
  kept : ∀ e ∈ a.past, e.desk.session.settings = setup ∧
    (e.desk.after e.call).session.ledger.fragments.toList <+: a.desk.session.ledger.fragments.toList
  builtin : ∀ name declaration, Preamble.builtin.get? name = some declaration →
    a.desk.session.ledger.helpers.declared.get? name = some declaration

theorem balanced_start (settings : Settings) (forest : Forest) : (start settings forest).Balanced settings :=
  ⟨rfl, rfl, rfl, by simp [start], fun _ _ h => h⟩

theorem Balanced.declare (h : a.Balanced setup) {name : Bytes} (hname : Preamble.builtin.get? name = none)
    (code : List Bytes → Bytes) (dependencies : List Bytes) :
    (a.next (.declare name code dependencies)).Balanced setup := by
  refine ⟨h.settings, h.required, h.fragments, h.kept, fun other declaration hother => ?_⟩
  have hne : (name == other) = false := by
    refine beq_eq_false_iff_ne.mpr fun heq => ?_
    rw [← heq, hname] at hother
    cases hother
  refine Dictionary.get?_insert.trans ?_
  rw [hne]
  exact h.builtin other declaration hother

theorem Balanced.reset (h : a.Balanced setup) : (a.next (.call .reset)).Balanced setup :=
  ⟨h.settings, rfl, rfl, by simp [next], h.builtin⟩

theorem Balanced.failure (h : a.Balanced setup) (hreset : call ≠ .reset) (hnone : a.desk.result call = none) :
    (a.next (.call call)).Balanced setup := by
  obtain ⟨halike, hsettings⟩ := Desk.after_alike hnone hreset
  rw [next_call a hreset, entry_of_none hnone, List.append_nil]
  refine ⟨hsettings.trans h.settings, ?_, ?_, ?_, ?_⟩
  · rw [← halike.helpers]
    exact h.required
  · rw [← halike.fragments]
    exact h.fragments
  · rw [← halike.fragments]
    exact h.kept
  · rw [← halike.helpers]
    exact h.builtin

theorem Balanced.success (h : a.Balanced setup) (hreset : call ≠ .reset) {text : Bytes}
    (hsome : a.desk.result call = some text) : (a.next (.call call)).Balanced setup := by
  have hcall := Desk.delivers hsome
  rw [next_call a hreset, entry_of_some hsome]
  refine ⟨hcall.settings.trans h.settings, ?_, ?_, ?_, ?_⟩
  · rw [hcall.ahead.required, h.required, demand, demand, List.flatMap_append, List.flatMap_singleton,
      eraseDups_append_of_nodup hcall.distinct]
    rfl
  · rw [hcall.origins, h.fragments, origins, origins, List.flatMap_append, List.flatMap_singleton]
  · intro e he
    rcases List.mem_append.mp he with he | he
    · obtain ⟨hsettings, hprefix⟩ := h.kept e he
      exact ⟨hsettings, hprefix.trans hcall.grow.fragments⟩
    · obtain rfl := List.mem_singleton.mp he
      exact ⟨h.settings, List.prefix_refl _⟩
  · rw [hcall.grow.declared]
    exact h.builtin

theorem Balanced.next (h : a.Balanced setup) (hevent : event.Fresh) : (a.next event).Balanced setup := by
  cases event with
  | declare name code dependencies => exact h.declare hevent code dependencies
  | call call =>
    by_cases hreset : call = .reset
    · rw [hreset]
      exact h.reset
    cases hresult : a.desk.result call with
    | none => exact h.failure hreset hresult
    | some text => exact h.success hreset hresult

theorem Balanced.run (h : a.Balanced setup) {events : List Event} (hevents : ∀ event ∈ events, event.Fresh) :
    (a.run events).Balanced setup := by
  induction events generalizing a with
  | nil => exact h
  | cons event events ih =>
    obtain ⟨hevent, hrest⟩ := List.forall_mem_cons.mp hevents
    exact ih (h.next hevent) hrest

end Account

/-- The fragments that the source map of an entry's page shows. -/
def Entry.mappings (e : Entry) : List Mapping :=
  match e.call with
  | .format _ _ => ((e.desk.after e.call).session.sourceMap.map SourceMap.mappings).getD []
  | _ => []

theorem Entry.exists_page (e : Entry) :
    ∃ page : Page, page.text = e.text ∧ page.mappings.reverse = e.mappings ∧
      page.Holds e.desk.session.settings.debug (e.desk.after e.call).session.patterns
        (e.desk.after e.call).session.ledger.fragments := by
  obtain ⟨d, call, text, given⟩ := e
  rcases Desk.result_cases given with ⟨id, selector, rfl, hok⟩ | ⟨name, rfl⟩
  · obtain ⟨page, htext, hmap, hholds, -⟩ := attempt_holds hok
    rw [← Desk.session_after_format hok] at hmap hholds
    refine ⟨page, htext, ?_, hholds⟩
    rw [Entry.mappings]
    dsimp only
    rw [hmap]
    rfl
  · refine ⟨Page.write {} text, Page.text_write {} text, ?_, Page.holds_empty.write text⟩
    rw [Page.mappings_write]
    rfl

/-- A page for debugging that shows fragments requires the helper that reports errors. -/
theorem Entry.reports (e : Entry) (hdebug : e.desk.session.settings.debug = true) {m : Mapping} (hm : m ∈ e.mappings) :
    ("debug_rethrow" : Bytes) ∈ e.desk.demand e.call := by
  obtain ⟨d, call, text, given⟩ := e
  rcases Desk.result_cases given with ⟨id, selector, rfl, hok⟩ | ⟨name, rfl⟩
  · have hbare := (d.session.attempt_bare (d.forest.element id) d.forest.size selector).1.trans hok
    obtain ⟨-, -, -, -, hrequired⟩ := attempt_holds hbare
    rw [Desk.demand, show (d.bare.after (.format (some id) selector)).session = _ from Desk.session_after_format hbare]
    exact hrequired hdebug
  · cases hm

namespace Account

open Helper.Registry (names DependsOn)

variable {setup : Settings} {a : Account}

/-- The ledger tells what the entries asked for. -/
structure Tells (a : Account) : Prop where
  required : a.desk.session.ledger.helpers.required = demand a.past
  distinct : a.desk.session.ledger.helpers.required.Nodup
  isRequired : ∀ name, a.desk.session.ledger.helpers.isRequired name = true ↔ name ∈ demand a.past
  fragments : a.desk.session.ledger.fragments.toList = origins a.past
  numbered : ∀ id, (Page.fragment? a.desk.session.ledger.fragments id).isSome ↔ 1 ≤ id ∧ id ≤ (origins a.past).length

/-- The text declares helpers by their codes, each once and after all that it depends on. What the entries read is among
them, and so is the table with the origin of every fragment that an entry makes the current one. -/
structure Covers (a : Account) (text : Bytes) (declared : List (Bytes × Bytes)) : Prop where
  written : Preamble.Declares a.desk.session.settings.storage declared text
  once : (declared.map (·.1)).Nodup
  ordered : ∀ before name code rest, declared = before ++ (name, code) :: rest →
    ∃ declaration, a.desk.session.ledger.helpers.declared.get? name = some declaration ∧
      code = Preamble.code a.desk.session.settings.storage.name a.desk.session.forms a.desk.session.ledger.fragments
        (declaration.dependencies.map a.desk.session.settings.storage.accessor) declaration.body ∧
      (∀ make, declaration.body = .custom make →
        code = make (declaration.dependencies.map a.desk.session.settings.storage.accessor)) ∧
      ∀ other, Relation.TransGen (DependsOn a.desk.session.ledger.helpers.declared) name other → other ∈ before.map (·.1)
  emitted : ∀ e ∈ a.past, ∀ name, e.desk.Emits e.call name → name ∈ declared.map (·.1)
  sets : a.desk.session.settings.debug = true → ∀ e ∈ a.past,
    Page.Sets (e.desk.after e.call).session.patterns e.text (e.mappings.map (·.id))
  rows : a.desk.session.settings.debug = true → ∀ e ∈ a.past, ∀ m ∈ e.mappings,
    Page.fragment? (origins a.past).toArray m.id = some m.origin ∧
    ∃ code, (("debug_map" : Bytes), code) ∈ declared ∧ Preamble.Lists code (origins a.past) m.id m.origin

theorem Balanced.tells (h : a.Balanced setup) : a.Tells where
  required := h.required
  distinct := by
    rw [h.required]
    exact nodup_eraseDups _
  isRequired name := by
    rw [← h.required]
    exact List.elem_iff
  fragments := h.fragments
  numbered id := by
    rw [← h.fragments]
    exact Page.isSome_fragment? _ id

theorem mem_demand {past : List Entry} {e : Entry} (he : e ∈ past) {name : Bytes} (hname : name ∈ e.desk.demand e.call) :
    name ∈ demand past :=
  List.mem_eraseDups.mpr (List.mem_flatMap.mpr ⟨e, he, hname⟩)

/-- The codes that a preamble of the account declares helpers by. -/
def declarations (a : Account) : Except Helper.Error (List (Bytes × Bytes)) :=
  a.desk.session.ledger.helpers.dependencies a.desk.session.settings.storage fun body dependencies =>
    Preamble.code a.desk.session.settings.storage.name a.desk.session.forms a.desk.session.ledger.fragments dependencies body

/-- The helper that reports errors brings the table with it. -/
theorem Balanced.debugMap_mem (h : a.Balanced setup) {declared : List (Bytes × Bytes)}
    (hdeclared : a.declarations = .ok declared) (hmem : ("debug_rethrow" : Bytes) ∈ declared.map (·.1)) :
    (("debug_map" : Bytes), Preamble.debugMapCode a.desk.session.ledger.fragments) ∈ declared := by
  obtain ⟨⟨name, code⟩, hentry, hname⟩ := List.mem_map.mp hmem
  obtain ⟨before, rest, hsplit⟩ := List.append_of_mem hentry
  obtain rfl : name = "debug_rethrow" := hname
  obtain ⟨-, -, -, hbefore⟩ := Helper.Registry.dependencies_split hdeclared hsplit
  have hdepends : DependsOn a.desk.session.ledger.helpers.declared "debug_rethrow" "debug_map" :=
    ⟨⟨.debugRethrow, ["debug_map"]⟩, h.builtin _ _ rfl, List.mem_singleton_self _⟩
  obtain ⟨⟨name, code⟩, hentry, hname⟩ := List.mem_map.mp (hbefore _ (.single hdepends))
  obtain rfl : name = "debug_map" := hname
  obtain ⟨before', rest', rfl⟩ := List.append_of_mem hentry
  obtain ⟨declaration, hget, hcode, -⟩ :=
    Helper.Registry.dependencies_split hdeclared (hsplit.trans (List.append_assoc before' _ _))
  obtain rfl : declaration = ⟨.debugMap, []⟩ := Option.some.inj (hget.symm.trans (h.builtin _ _ rfl))
  rw [hsplit, ← show code = Preamble.debugMapCode a.desk.session.ledger.fragments from hcode]
  simp

theorem Balanced.covers (h : a.Balanced setup) {declared : List (Bytes × Bytes)} {helpers : Helper.Registry.Emitted Helper.Body}
    (hdeclared : a.declarations = .ok declared) (hclosure : a.desk.session.ledger.helpers.closure = .ok helpers) :
    a.Covers (Preamble.write a.desk.session.settings.storage a.desk.session.forms a.desk.session.ledger.fragments helpers)
      declared := by
  obtain ⟨hordered, hrequired⟩ := Helper.Registry.closure_ordered hclosure
  rw [h.required] at hrequired
  have hnames : declared.map (·.1) = names helpers := by
    obtain ⟨helpers', hclosure', rfl⟩ := Helper.Registry.dependencies_eq_ok hdeclared
    obtain rfl : helpers = helpers' := Except.ok.inj (hclosure.symm.trans hclosure')
    rw [List.map_map]
    rfl
  refine ⟨Preamble.declares_write hclosure hdeclared, ?_, ?_, ?_, ?_, ?_⟩
  · rw [hnames]
    exact hordered.nodup
  · intro before name code rest hsplit
    obtain ⟨declaration, hget, hcode, hbefore⟩ := Helper.Registry.dependencies_split hdeclared hsplit
    refine ⟨declaration, hget, hcode, fun make hmake => ?_, hbefore⟩
    rw [hcode, hmake]
    rfl
  · intro e he name hemits
    rw [hnames]
    exact hrequired name (mem_demand he ((Desk.delivers e.given).emits name hemits))
  · intro hdebug e he
    obtain ⟨page, htext, hmappings, hholds⟩ := e.exists_page
    rw [h.settings, ← (h.kept e he).1] at hdebug
    rw [← htext, ← hmappings]
    exact hholds.sets hdebug
  · intro hdebug e he m hm
    rw [h.settings, ← (h.kept e he).1] at hdebug
    obtain ⟨page, -, hmappings, hholds⟩ := e.exists_page
    have horigin := hholds.origin m (List.mem_reverse.mp (hmappings ▸ hm))
    have hkept := Page.fragment?_of_prefix (h.kept e he).2 horigin
    rw [← h.fragments]
    refine ⟨hkept, _, h.debugMap_mem hdeclared ?_, Preamble.lists_debugMapCode hkept⟩
    rw [hnames]
    exact hrequired _ (mem_demand he (e.reports hdebug hm))

/-- Two texts to format, and a document whose first text is numbered before its tag fails. -/
def draft : Forest :=
  ⟨#[{ content := .text { value := "a" }, origin := some ⟨"t.pug", 1, 0⟩ },
     { content := .document, children := [2, 3] },
     { content := .text { value := "b" }, parent := some 1, origin := some ⟨"t.pug", 2, 0⟩ },
     { content := .markup { name := "img", autoClosed := true }, parent := some 1, children := [4] },
     { content := .text { value := "c" }, parent := some 3 },
     { content := .text { value := "d" }, origin := some ⟨"t.pug", 3, 0⟩ }]⟩

def sitting : List Event :=
  [.declare "shout" (fun dependencies => dependencies.getD 0 []) ["merge_classes"],
   .call (.format (some 0) (.named "basic")), .call (.format (some 1) (.named "basic")), .call (.require "shout"),
   .call (.format (some 5) (.named "basic"))]

theorem sitting_emits : ∃ e ∈ ((start { debug := true } draft).run sitting).past, e.desk.Emits e.call "debug_rethrow" := by
  refine ⟨((start { debug := true } draft).run sitting).past.head (by decide +kernel), List.head_mem _, ?_⟩
  refine ⟨some fun storage name => if name = "debug_rethrow" then [] else Storage.accessor ⟨storage, none⟩ name, ?_, ?_⟩
  · intro other hother
    exact if_neg hother
  · decide +kernel

theorem sitting_maps : ∃ e ∈ ((start { debug := true } draft).run sitting).past, ∃ m ∈ e.mappings,
    m.id = 2 ∧ m.origin = ⟨"t.pug", 3, 0⟩ := by decide +kernel

end Account

end Stencil.Session
