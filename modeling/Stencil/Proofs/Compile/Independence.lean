import Stencil.Proofs.Compile.History
import Stencil.Proofs.Compile.Kinship
import Stencil.Proofs.Decimal

/-! Pages do not depend on what the session did before. Earlier pages move the numbers of the fragments, and with them
the marks in a rendered text; without debugging the marks leave nothing in the page, whatever their numbers. They are
told apart from the text around them even where that holds the same control characters, since no text across the start
of a mark reads as a number. -/

namespace Stencil

namespace Page

inductive Twin : Bytes → Bytes → Prop
  | nil : Twin [] []
  | byte (c : UInt8) {s s' : Bytes} (h : Twin s s') : Twin (c :: s) (c :: s')
  | mark (i j : Nat) {s s' : Bytes} (h : Twin s s') : Twin (mark i ++ s) (mark j ++ s')

variable {s s' t t' : Bytes}

theorem Twin.refl (s : Bytes) : Twin s s := by
  induction s with
  | nil => exact .nil
  | cons c s ih => exact .byte c ih

theorem Twin.append (h : Twin s s') (ht : Twin t t') : Twin (s ++ t) (s' ++ t') := by
  induction h with
  | nil => exact ht
  | byte c _ ih => exact .byte c ih
  | mark i j _ ih =>
    rw [List.append_assoc, List.append_assoc]
    exact .mark i j ih

theorem twin_mark (i j : Nat) : Twin (mark i) (mark j) := by
  have h := Twin.mark i j .nil
  rwa [List.append_nil, List.append_nil] at h

theorem segmentsFrom_eq (n : Nat) (s : Bytes) : segmentsFrom n s = segmentsFrom 0 (s.drop n) := by
  induction s generalizing n with
  | nil => cases n <;> rfl
  | cons c s ih =>
    cases n with
    | zero => rfl
    | succ n => exact ih n

theorem segments_cons (c : UInt8) (s : Bytes) : segments (c :: s) = match mark? c s with
    | some (id, n) => .fragment id :: segments (s.drop n)
    | none => .byte c :: segments s := by
  rw [segments, segmentsFrom]
  cases mark? c s with
  | none => rfl
  | some m => exact congrArg _ (segmentsFrom_eq ..)

theorem segments_mark (id : Nat) (s : Bytes) :
    segments (mark id ++ s) = .fragment (Int64.ofNat id).toInt :: segments s := by
  have hdigits : ∀ c ∈ Bytes.ofInt (Int64.ofNat id).toInt, (c != markClose) = true := by
    intro c hc
    refine bne_iff_ne.mpr fun heq => ?_
    rcases Bytes.numeral_ofInt _ c hc with hdigit | hminus
    · rw [heq] at hdigit
      exact absurd hdigit (by decide)
    · rw [heq] at hminus
      exact absurd hminus (by decide)
  have htake : (Bytes.ofInt (Int64.ofNat id).toInt ++ ([markClose] ++ s)).takeWhile (· != markClose) =
      Bytes.ofInt (Int64.ofNat id).toInt := by
    rw [List.takeWhile_append_of_pos hdigits]
    simp
  rw [mark, List.cons_append, List.append_assoc, segments_cons, mark?, if_pos (beq_self_eq_true markOpen)]
  simp only [htake, Bytes.toInt64?_ofInt]
  simp

theorem length_lt_mark (id : Nat) (s : Bytes) : s.length < (mark id ++ s).length := by
  rw [mark, List.cons_append, List.length_cons, List.length_append]
  omega

/-- Where the number of a mark would end, the texts are twins again, unless a mark starts before. -/
theorem Twin.takeWhile (h : Twin s s') :
    (s.takeWhile (· != markClose) = s'.takeWhile (· != markClose) ∧
      ((s.takeWhile (· != markClose)).length < s.length ↔ (s'.takeWhile (· != markClose)).length < s'.length) ∧
      Twin (s.drop ((s.takeWhile (· != markClose)).length + 1)) (s'.drop ((s'.takeWhile (· != markClose)).length + 1))) ∨
    0 ∈ s.takeWhile (· != markClose) ∧ 0 ∈ s'.takeWhile (· != markClose) := by
  induction h with
  | nil => exact .inl ⟨rfl, .rfl, .nil⟩
  | byte c h ih =>
    by_cases hc : c = markClose
    · subst hc
      exact .inl (by simpa using h)
    · rw [List.takeWhile_cons_of_pos (by simpa using hc), List.takeWhile_cons_of_pos (by simpa using hc)]
      rcases ih with ⟨hsame, hlength, htwin⟩ | ⟨hzero, hzero'⟩
      · refine .inl ⟨by rw [hsame], by simpa using hlength, htwin⟩
      · exact .inr ⟨List.mem_cons_of_mem _ hzero, List.mem_cons_of_mem _ hzero'⟩
  | mark i j _ _ =>
    right
    rw [Page.mark, Page.mark, List.cons_append, List.cons_append, List.takeWhile_cons_of_pos rfl,
      List.takeWhile_cons_of_pos rfl]
    exact ⟨List.mem_cons_self, List.mem_cons_self⟩

theorem Twin.mark? (h : Twin s s') (c : UInt8) :
    Page.mark? c s = none ∧ Page.mark? c s' = none ∨
    ∃ id n, Page.mark? c s = some (id, n) ∧ Page.mark? c s' = some (id, n) ∧ Twin (s.drop n) (s'.drop n) := by
  rw [Page.mark?, Page.mark?]
  by_cases hc : c == markOpen
  · rw [if_pos hc, if_pos hc]
    dsimp only
    rcases h.takeWhile with ⟨hsame, hlength, htwin⟩ | ⟨hzero, hzero'⟩
    · rw [hsame] at htwin hlength ⊢
      rw [if_congr hlength rfl rfl]
      split
      next =>
        cases hn : Bytes.toInt64? (s'.takeWhile (· != markClose)) with
        | none => exact .inl ⟨rfl, rfl⟩
        | some id => exact .inr ⟨_, _, rfl, rfl, htwin⟩
      next => exact .inl ⟨rfl, rfl⟩
    · left
      rw [Bytes.toInt64?_of_mem (by decide) (by decide) (by decide) hzero,
        Bytes.toInt64?_of_mem (by decide) (by decide) (by decide) hzero']
      constructor <;> split <;> rfl
  · rw [if_neg hc, if_neg hc]
    exact .inl ⟨rfl, rfl⟩

def Segment.Twin : Segment → Segment → Prop
  | .byte c, .byte c' => c = c'
  | .fragment _, .fragment _ => True
  | _, _ => False

theorem Twin.segments (h : Twin s s') : List.Forall₂ Segment.Twin (segments s) (segments s') := by
  induction hn : s.length using Nat.strongRecOn generalizing s s' with
  | ind n ih =>
    cases h with
    | nil => exact .nil
    | @byte c s s' h =>
      rw [segments_cons, segments_cons]
      rcases h.mark? c with ⟨hnone, hnone'⟩ | ⟨id, n, hsome, hsome', hrest⟩
      · rw [hnone, hnone']
        exact .cons rfl (ih _ (by simp at hn; omega) h rfl)
      · rw [hsome, hsome']
        exact .cons trivial (ih _ (by simp at hn ⊢; omega) hrest rfl)
    | mark i j h =>
      rw [segments_mark, segments_mark]
      exact .cons trivial (ih _ (hn ▸ length_lt_mark i _) h rfl)

theorem dropLeadingBreak_twin {ss ss' : List Segment} (h : List.Forall₂ Segment.Twin ss ss') :
    List.Forall₂ Segment.Twin (dropLeadingBreak ss) (dropLeadingBreak ss') := by
  induction h with
  | nil => exact .nil
  | @cons a a' ss ss' ha hss ih =>
    match a, a', ha with
    | .byte c, .byte c', ha =>
      obtain rfl : c = c' := ha
      rw [dropLeadingBreak, dropLeadingBreak]
      split
      · exact hss
      · exact .cons rfl hss
    | .fragment _, .fragment _, _ => exact .cons trivial ih

/-- What a segment leaves in the text of a page. -/
def Segment.text : Segment → Bytes
  | .byte c => [c]
  | .fragment _ => []

theorem Segment.Twin.flatMap_text {ss ss' : List Segment} (h : List.Forall₂ Segment.Twin ss ss') :
    ss.flatMap Segment.text = ss'.flatMap Segment.text := by
  induction h with
  | nil => rfl
  | @cons a a' ss ss' ha _ ih =>
    rw [List.flatMap_cons, List.flatMap_cons, ih]
    match a, a', ha with
    | .byte c, .byte c', ha => rw [show c = c' from ha]
    | .fragment _, .fragment _, _ => rfl

variable {env : Environment} (hdebug : env.settings.debug = false)
include hdebug

theorem step_text (site : Site) (fragments : Array Origin) (p : Page) (segment : Segment) :
    ∃ q, step env site fragments p segment = .ok q ∧ q.text = p.text ++ segment.text := by
  cases segment with
  | byte c => exact ⟨_, rfl, text_writeByte p c⟩
  | fragment id =>
    rw [step]
    cases fragment? fragments id with
    | none => exact ⟨p, rfl, (List.append_nil _).symm⟩
    | some o => exact ⟨p.note id o, by simp [hdebug], (List.append_nil _).symm⟩

theorem foldlM_step_text (site : Site) (fragments : Array Origin) (p : Page) (ss : List Segment) :
    ∃ q, ss.foldlM (step env site fragments) p = .ok q ∧ q.text = p.text ++ ss.flatMap Segment.text := by
  induction ss generalizing p with
  | nil => exact ⟨p, rfl, (List.append_nil _).symm⟩
  | cons a ss ih =>
    obtain ⟨q, hq, htext⟩ := step_text hdebug site fragments p a
    obtain ⟨r, hr, hrest⟩ := ih q
    exact ⟨r, by rw [List.foldlM_cons, hq]; exact hr, by rw [hrest, htext, List.flatMap_cons, List.append_assoc]⟩

/-- Without debugging, the numbers of the marks leave nothing in the page. -/
theorem body_twin (h : Twin s s') (site : Site) (fragments fragments' : Array Origin) :
    ∃ p p', body env site fragments {} s = .ok p ∧ body env site fragments' {} s' = .ok p' ∧ p.text = p'.text := by
  have hkept : List.Forall₂ Segment.Twin
      (if env.settings.pretty then dropLeadingBreak (Page.segments s) else Page.segments s)
      (if env.settings.pretty then dropLeadingBreak (Page.segments s') else Page.segments s') := by
    split
    · exact dropLeadingBreak_twin h.segments
    · exact h.segments
  obtain ⟨p, hp, htext⟩ := foldlM_step_text hdebug site fragments {} _
  obtain ⟨p', hp', htext'⟩ := foldlM_step_text hdebug site fragments' {} _
  exact ⟨p, p', hp, hp', by rw [htext, htext', Segment.Twin.flatMap_text hkept]⟩

end Page

def Ledger.Equipped (l : Ledger) : Prop := ∀ name ∈ Preamble.builtin.map (·.1), l.helpers.isDeclared name

theorem Ledger.Equipped.require {l : Ledger} (h : l.Equipped) (site : Option Site) {name : Bytes}
    (hname : name ∈ Preamble.builtin.map (·.1)) : ∃ r, l.require site name = .ok r ∧ r.Equipped := by
  rcases l.require_cases site name with ⟨hnot, -⟩ | ⟨-, r, hr, hhelpers, -⟩
  · rw [h name hname] at hnot
    cases hnot
  · refine ⟨r, hr, fun n hn => ?_⟩
    rw [Helper.Registry.isDeclared, hhelpers]
    exact h n hn

/-- The renderings may differ in the numbers of the marks, whatever was required, declared and numbered before. -/
def Kinship.apart (settings : Settings) : Kinship where
  move := .still
  pretty := settings.pretty
  indent := settings.indent
  text := Page.Twin
  ledger l l' := l.Equipped ∧ l'.Equipped
  added := Untouched
  injective _ _ h := h
  refl := .refl
  append := .append
  say h _ _ := h
  require h site site' name hname := by
    obtain ⟨r, hr, hequipped⟩ := h.1.require site hname
    obtain ⟨r', hr', hequipped'⟩ := h.2.require site' hname
    exact ⟨r, r', hr, hr', hequipped, hequipped'⟩
  mark h _ origin := by
    cases origin with
    | none => exact ⟨h, .nil⟩
    | some o => exact ⟨h, Page.twin_mark _ _⟩
  attributes h owner := h.attributes .still owner

theorem Render.page_run {env : Environment} (hdebug : env.settings.debug = false) (site : Site) (body : Bytes)
    (p : Progress) : (Render.page env site body).run p = (Page.body env site p.ledger.fragments {} body, p) := by
  simp only [Render.page, hdebug, Bool.false_eq_true, if_false]
  rfl

/-- Without handlers and debugging, a page has the same text whatever was numbered before. -/
theorem Render.finished_text {env : Environment} (h : env.Plain) (hdebug : env.settings.debug = false) (e : Element)
    {p p' : Progress} (hp : p.Kin (.apart env.settings) p') :
    ((Render.finished env e).run p).1.map Page.text = ((Render.finished env e).run p').1.map Page.text := by
  have henv : env.kin (.apart env.settings) = env := env.recast_still ..
  have hnode := Render.node_kin (k := .apart env.settings) h.passes (fun _ _ => henv ▸ .refl _) env.settings.maxDepth .outermost e
  rw [henv, show e.relocate (Kinship.apart env.settings).move = e from e.relocate_still] at hnode
  rw [Render.finished, Rendering.run_bind, Rendering.run_bind]
  rcases hnode hp with ⟨f, q, q', hq, hq'⟩ | ⟨t, t', q, q', hq, hq', htwin, -⟩
  · rw [Render.tree, hq, hq', show f.relocate (Kinship.apart env.settings).move = f from f.relocate_still]
  · obtain ⟨page, page', hpage, hpage', htext⟩ := Page.body_twin hdebug htwin e.site q.ledger.fragments q'.ledger.fragments
    rw [Render.tree, hq, hq']
    dsimp only
    rw [page_run hdebug, page_run hdebug, hpage, hpage']
    exact congrArg Except.ok htext

theorem Ledger.Equipped.of_declared {l l' : Ledger} (h : l.Equipped)
    (hdeclared : l'.helpers.declared = l.helpers.declared) : l'.Equipped := by
  intro name hname
  rw [Helper.Registry.isDeclared, hdeclared]
  exact h name hname

namespace Session

variable {s s' : Session}

/-- The session was set up without debugging, handlers and producers. -/
structure Undirected (s : Session) : Prop where
  debug : s.settings.debug = false
  handlers : s.settings.handlers = []
  producers : s.settings.producers = []

theorem environment_plain (hhandlers : s.settings.handlers = []) (hproducers : s.settings.producers = []) (e : Element)
    (d : Dialect) (fallback : Bytes) : (s.environment e d fallback).Plain where
  handlers := hhandlers
  templates name hname inputs body hp := by
    have hapart : ∀ n ∈ carriers, n ∉ derivedPatterns.map (·.1) := by decide
    exact hapart name hname (List.mem_map_of_mem (producer_derived hproducers (carriers_common name hname) hp))

theorem Undirected.plain (h : s.Undirected) (e : Element) (d : Dialect) (fallback : Bytes) :
    (s.environment e d fallback).Plain := environment_plain h.handlers h.producers e d fallback

theorem Undirected.suits (h : s.Undirected) (hsettings : s.settings = s'.settings) (e : Element) (d : Dialect)
    (fallback : Bytes) :
    (s.environment e d fallback).Suits sameTerms (s'.patternTable d) s.settings.storage.getter where
  text _ hn args := ((patternTable_agree h.producers hsettings d).text hn args).symm
  render _ hn args := ((patternTable_agree h.producers hsettings d).render hn args).symm
  accessor _ _ := rfl

/-- The page does not depend on what was required and numbered, nor on the patterns of the pages before. -/
theorem Undirected.renderTree (h : s.Undirected) (hsettings : s.settings = s'.settings) (hl : s.ledger.Equipped)
    (hl' : s'.ledger.Equipped) (e : Element) (d : Dialect) (fallback : Bytes) (forms forms' : Preamble.Forms)
    (nextNode : NodeId) :
    ((s.installed d forms).renderTree (s.environment e d fallback) e nextNode).result =
      ((s'.installed d forms').renderTree (s'.environment e d fallback) e nextNode).result := by
  have hstart : Progress.Kin (.apart s.settings) { ledger := s.ledger, nextNode } { ledger := s'.ledger, nextNode } :=
    ⟨⟨hl, hl'⟩, ⟨rfl, rfl⟩, rfl, rfl, rfl⟩
  have hsame : Progress.Ahead [] { ledger := s'.ledger, nextNode } { ledger := s'.ledger, nextNode } :=
    ⟨Ledger.ahead_nil_iff.mpr (.refl _), rfl, rfl, rfl, rfl, rfl⟩
  have hledgers := Render.finished_text (h.plain e d fallback) h.debug e hstart
  obtain ⟨r, q, q', hrun, hrun', -⟩ := follows_runs (Render.finished_follows (h.suits hsettings e d fallback) e) hsame
  have henv : s'.environment e d fallback =
      (s.environment e d fallback).variant (s'.patternTable d) s.settings.storage.getter := by
    rw [environment, environment, ← hsettings]
  obtain ⟨_, _, -, hs, -⟩ := (s.installed d forms).renderTree_eq (s.environment e d fallback) e nextNode
  obtain ⟨_, _, -, hs', -⟩ := (s'.installed d forms').renderTree_eq (s'.environment e d fallback) e nextNode
  rw [hs, hs', henv]
  refine hledgers.trans ?_
  rw [hrun]
  exact congrArg (Except.map Page.text) (congrArg Prod.fst hrun').symm

theorem Undirected.attempt (h : s.Undirected) (hsettings : s.settings = s'.settings) (hl : s.ledger.Equipped)
    (hl' : s'.ledger.Equipped) (e : Element) (nextNode : NodeId) (selector : Selector) :
    (s.attempt e nextNode selector).result = (s'.attempt e nextNode selector).result := by
  obtain ⟨l, l', r, hk, hk', hs, hs'⟩ := select_alike (akin_of_eq hsettings) e selector
  rw [Session.attempt, Session.attempt, hs, hs']
  cases r with
  | error f => rfl
  | ok d =>
    have h₁ : Undirected { s with ledger := l } := ⟨h.debug, h.handlers, h.producers⟩
    obtain ⟨update, r, -, hs, hs'⟩ := @install_congr { s with ledger := l } { s' with ledger := l' } d
      (fun _ hn => (patternTable_agree h₁.producers hsettings d).text hn []) e
    dsimp only
    rw [hs, hs']
    cases r with
    | error f => rfl
    | ok fallback =>
      have hequipped : l.Equipped := hl.of_declared (congrArg _ hk.helpers.symm)
      have hequipped' : l'.Equipped := hl'.of_declared (congrArg _ hk'.helpers.symm)
      exact @Undirected.renderTree _ { s' with ledger := l' } h₁ hsettings hequipped hequipped' e d fallback _ _ nextNode

theorem Desk.after_equipped {d : Desk} (h : d.session.ledger.Equipped) (call : Call) :
    (d.after call).session.ledger.Equipped ∧ (d.after call).session.settings = d.session.settings := by
  by_cases hreset : call = .reset
  · subst hreset
    exact ⟨h.of_declared rfl, rfl⟩
  cases hresult : d.result call with
  | none =>
    obtain ⟨halike, hsettings⟩ := Desk.after_alike hresult hreset
    exact ⟨h.of_declared (congrArg _ halike.helpers.symm), hsettings⟩
  | some text =>
    have hcall := Desk.delivers hresult
    exact ⟨h.of_declared hcall.grow.declared, hcall.settings⟩

theorem equipped_declare (h : s.ledger.Equipped) (name : Bytes) (code : List Bytes → Bytes) (dependencies : List Bytes) :
    (s.declare name code dependencies).ledger.Equipped := by
  intro other hother
  change (Dictionary.get? (s.ledger.helpers.declared.insert name _) other).isSome
  rw [Dictionary.get?_insert]
  split
  · rfl
  · exact h other hother

namespace Account

theorem next_equipped {a : Account} (h : a.desk.session.ledger.Equipped) (event : Event) :
    (a.next event).desk.session.ledger.Equipped ∧ (a.next event).desk.session.settings = a.desk.session.settings := by
  cases event with
  | declare name code dependencies => exact ⟨equipped_declare h name code dependencies, rfl⟩
  | call call =>
    have hdesk : (a.next (.call call)).desk = a.desk.after call := by
      cases call <;> rfl
    rw [hdesk]
    exact Desk.after_equipped h call

theorem run_equipped (a : Account) (h : a.desk.session.ledger.Equipped) (events : List Event) :
    (a.run events).desk.session.ledger.Equipped ∧ (a.run events).desk.session.settings = a.desk.session.settings := by
  induction events generalizing a with
  | nil => exact ⟨h, rfl⟩
  | cons event events ih =>
    obtain ⟨hnext, hsettings⟩ := next_equipped h event
    obtain ⟨hrest, hrun⟩ := ih _ hnext
    exact ⟨hrest, hrun.trans hsettings⟩

end Account

theorem equipped_start : Ledger.Equipped .start := by
  rw [Ledger.Equipped]
  decide

/-- A page does not depend on what the session was asked before. -/
theorem Undirected.attempt_after {settings : Settings} (h : Undirected { settings }) (trees : Forest) (events : List Event)
    (e : Element) (nextNode : NodeId) (selector : Selector) :
    (((Account.start settings trees).run events).desk.session.attempt e nextNode selector).result =
      (Session.attempt { settings } e nextNode selector).result := by
  obtain ⟨hequipped, hsettings⟩ := (Account.start settings trees).run_equipped equipped_start events
  have hsettings : ((Account.start settings trees).run events).desk.session.settings = settings := hsettings
  exact (h.attempt hsettings.symm equipped_start hequipped e nextNode selector).symm

/-- A tag with an attribute without a value, and a tag written as self-closing around a text. -/
def form : Forest :=
  ⟨#[{ content := .markup { name := "input", bundle := ⟨[1], []⟩ }, origin := some ⟨"t.pug", 1, 0⟩ },
     { content := .attr { name := "checked" }, parent := some 0 },
     { content := .document, children := [3, 4] },
     { content := .text { value := "x" }, parent := some 2, origin := some ⟨"t.pug", 2, 0⟩ },
     { content := .markup { name := "img", autoClosed := true }, parent := some 2, children := [5] },
     { content := .text { value := "y" }, parent := some 4 }]⟩

def rehearsal : List Event :=
  [.call (.format (some 0) (.named "html")), .call (.format (some 2) (.named "html")),
   .declare "merge_classes" (fun _ => []) ["merge_classes"], .call (.require "attributes_assignment"), .call .preamble]

end Session

end Stencil
