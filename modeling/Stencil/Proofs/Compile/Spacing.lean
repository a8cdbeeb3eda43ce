import Stencil.Proofs.Compile.Origins

/-! Layout is all that pretty printing changes. The same tree laid out in two ways is rendered to texts that are the same
but for blanks and line breaks. None of these stands in a mark: where the texts have no null bytes besides their marks,
the pages are the same but for blanks and line breaks, too. -/

namespace Stencil

def Ascii.isInk (c : UInt8) : Bool := !(isBlank c || c == newline)

def Bytes.inked (s : Bytes) : Bytes := s.filter Ascii.isInk

open Bytes (inked nullFree_cons)
open Rendering (Kin)

theorem Bytes.inked_append (s t : Bytes) : inked (s ++ t) = inked s ++ inked t := List.filter_append ..

theorem Bytes.inked_flatten (ss : List Bytes) : inked ss.flatten = ss.flatMap inked := by
  induction ss with
  | nil => rfl
  | cons s ss ih => rw [List.flatten_cons, inked_append, ih, List.flatMap_cons]

theorem Bytes.inked_blank {s : Bytes} (h : s.all Ascii.isBlank) : inked s = [] := by
  refine List.filter_eq_nil_iff.mpr fun c hc => ?_
  rw [Ascii.isInk, List.all_eq_true.mp h c hc]
  exact Bool.false_ne_true

/-- Two runs that cannot be told apart by `f`, and what follows them cannot be told apart by `g` then. -/
theorem bind_map_congr {ε α β γ δ : Type} {x x' : Except ε α} {f : α → γ} {g : β → δ} {k k' : α → Except ε β}
    (hx : x.map f = x'.map f) (hk : ∀ a a', f a = f a' → (k a).map g = (k' a').map g) :
    (x >>= k).map g = (x' >>= k').map g := by
  cases x with
  | error e =>
    cases x' with
    | error e' => exact congrArg Except.error (Except.error.inj hx)
    | ok a' => cases hx
  | ok a =>
    cases x' with
    | error e' => cases hx
    | ok a' => exact hk a a' (Except.ok.inj hx)

namespace Page

def Segment.isInk : Segment → Bool
  | .byte c => Ascii.isInk c
  | .fragment _ => true

theorem inked_mark (id : Nat) : inked (mark id) = mark id := by
  have hclass (c : UInt8) (h : Ascii.isBlank c || c == Ascii.newline) : c ≠ markOpen ∧ inMark c = false := by
    simp only [Ascii.isBlank, Bool.or_eq_true, beq_iff_eq] at h
    rcases h with (rfl | rfl) | rfl <;> decide
  refine List.filter_eq_self.mpr fun c hc => ?_
  rw [Ascii.isInk, Bool.not_eq_true', Bool.eq_false_iff]
  intro hblank
  obtain ⟨hopen, hnot⟩ := hclass c hblank
  rcases inMark_of_mem hc with h | h
  · exact hopen h
  · rw [hnot] at h
    cases h

theorem Clean.segments_inked {t : Bytes} (h : Clean t) : segments (inked t) = (segments t).filter Segment.isInk := by
  obtain ⟨u, hsheds, hfree⟩ := h
  induction hsheds with
  | nil => rfl
  | @byte c s t _ ih =>
    obtain ⟨hc, hfree⟩ := nullFree_cons.mp hfree
    rw [segments_cons_of_ne hc, List.filter_cons, ← ih hfree, inked, List.filter_cons]
    by_cases hink : Ascii.isInk c
    · rw [if_pos hink, if_pos (show Segment.isInk (.byte c) from hink), segments_cons_of_ne hc]
      rfl
    · rw [if_neg hink, if_neg (show ¬ Segment.isInk (.byte c) from hink)]
      rfl
  | mark id _ ih => rw [Bytes.inked_append, inked_mark, segments_mark, segments_mark, ih hfree, List.filter_cons_of_pos rfl]

theorem filter_dropLeadingBreak (ss : List Segment) :
    (dropLeadingBreak ss).filter Segment.isInk = ss.filter Segment.isInk := by
  induction ss with
  | nil => rfl
  | cons a ss ih =>
    cases a with
    | byte c =>
      rw [dropLeadingBreak]
      split
      next hc =>
        rw [eq_of_beq hc]
        rfl
      next => rfl
    | fragment id => rw [dropLeadingBreak, List.filter_cons_of_pos rfl, List.filter_cons_of_pos rfl, ih]

variable {env : Environment} {site : Site} {fragments : Array Origin} {p p' : Page}

theorem step_inked (h : inked p.text = inked p'.text) (segment : Segment) :
    (step env site fragments p segment).map (inked ∘ text) = (step env site fragments p' segment).map (inked ∘ text) := by
  cases segment with
  | byte c =>
    simp only [step, Except.map, Function.comp_apply, text_writeByte, Bytes.inked_append, h]
  | fragment id =>
    rw [step, step]
    cases fragment? fragments id with
    | none => exact congrArg Except.ok h
    | some o =>
      dsimp only
      split
      · cases env.pattern site "php_handle_code" ["$__pug_debug_id = " ++ Bytes.ofInt id ++ ";"] with
        | error f => rfl
        | ok marker =>
          refine congrArg Except.ok ?_
          simp only [Function.comp_apply, text_write, Bytes.inked_append]
          exact congrArg (· ++ inked marker) h
      · exact congrArg Except.ok h

/-- Without layout, a page is what the segments leave that are not layout. -/
theorem foldlM_step_inked (h : inked p.text = inked p'.text) (ss : List Segment) :
    (ss.foldlM (step env site fragments) p).map (inked ∘ text) =
      ((ss.filter Segment.isInk).foldlM (step env site fragments) p').map (inked ∘ text) := by
  induction ss generalizing p p' with
  | nil => exact congrArg Except.ok h
  | cons a ss ih =>
    rw [List.foldlM_cons]
    by_cases hink : a.isInk
    · rw [List.filter_cons_of_pos hink, List.foldlM_cons]
      exact bind_map_congr (step_inked h a) fun q q' hq => ih hq
    · rw [List.filter_cons_of_neg hink]
      cases a with
      | byte c =>
        refine ih ?_
        rw [text_writeByte, Bytes.inked_append, h]
        simp only [Segment.isInk] at hink
        simp [inked, hink]
      | fragment id => exact absurd rfl hink

/-- The two texts are the same but for layout, and so are their pages. -/
theorem body_inked (env env' : Environment) (hsettings : env'.settings.debug = env.settings.debug)
    (hpatterns : env'.patterns = env.patterns) {s s' : Bytes} (hs : Clean s) (hs' : Clean s')
    (hinked : inked s = inked s') (h : inked p.text = inked p'.text) :
    (body env site fragments p s).map (inked ∘ text) = (body env' site fragments p' s').map (inked ∘ text) := by
  have hstep : step env' site fragments = step env site fragments := by
    funext p segment
    cases segment with
    | byte c => rfl
    | fragment id => rw [step, step, hsettings, Environment.pattern, Environment.pattern, hpatterns]
  have hkept (pretty : Bool) (ss : List Segment) :
      (if pretty then dropLeadingBreak ss else ss).filter Segment.isInk = ss.filter Segment.isInk := by
    split
    · exact filter_dropLeadingBreak ss
    · rfl
  rw [body, body, hstep]
  refine (foldlM_step_inked h _).trans (Eq.trans ?_ (foldlM_step_inked rfl _).symm)
  rw [hkept, hkept, ← hs.segments_inked, ← hs'.segments_inked, hinked]

end Page

/-- The same marks come from ledgers that differ in their logs alone. -/
theorem Ledger.Alike.number {l l' : Ledger} (h : l.Alike l') (origin : Option Origin) :
    (l.number origin).1.Alike (l'.number origin).1 ∧ (l'.number origin).2 = (l.number origin).2 := by
  cases origin with
  | none => exact ⟨h, rfl⟩
  | some o =>
    have hfragments : (l'.addFragment o).fragments = (l.addFragment o).fragments := by
      rw [addFragment, addFragment, h.fragments]
    exact ⟨⟨h.helpers, hfragments.symm⟩, by rw [Ledger.number, Ledger.number, hfragments]⟩

theorem Ledger.Equipped.number {l : Ledger} (h : l.Equipped) (origin : Option Origin) : (l.number origin).1.Equipped := by
  cases origin <;> exact h.of_declared rfl

theorem Ledger.Alike.required {l l' r r' : Ledger} (h : l.Alike l') {site site' : Option Site} {name : Bytes}
    (hr : l.require site name = .ok r) (hr' : l'.require site' name = .ok r') : r.Alike r' := by
  rcases l.require_cases site name with ⟨-, hfail⟩ | ⟨-, q, hq, hhelpers, hfragments⟩
  · rw [hr] at hfail
    cases hfail
  rcases l'.require_cases site' name with ⟨-, hfail⟩ | ⟨-, q', hq', hhelpers', hfragments'⟩
  · rw [hr'] at hfail
    cases hfail
  rw [hr] at hq
  rw [hr'] at hq'
  cases hq
  cases hq'
  exact ⟨by rw [hhelpers, hhelpers', h.helpers], by rw [hfragments, hfragments', h.fragments]⟩

def Kinship.relaid (pretty : Bool) (indent : Bytes) : Kinship where
  move := .still
  pretty := pretty
  indent := indent
  text s s' := inked s = inked s'
  ledger l l' := l.Alike l' ∧ l.Equipped
  added := Untouched
  injective _ _ h := h
  refl _ := rfl
  append hs ht := by rw [Bytes.inked_append, Bytes.inked_append, hs, ht]
  say h _ _ := ⟨⟨h.1.helpers, h.1.fragments⟩, h.2⟩
  require h site site' name hname := by
    obtain ⟨r, hr, hequipped⟩ := h.2.require site hname
    obtain ⟨r', hr', -⟩ := (h.2.of_declared (congrArg _ h.1.helpers.symm)).require site' hname
    exact ⟨r, r', hr, hr', h.1.required hr hr', hequipped⟩
  mark h complete origin := by
    obtain ⟨halike, hmark⟩ := h.1.number (origin.map complete)
    exact ⟨⟨halike, h.2.number _⟩, congrArg inked hmark.symm⟩
  attributes h owner := h.attributes .still owner

theorem Environment.inked_lineBreak {env : Environment} (h : env.settings.indent.all Ascii.isBlank) (scope : Scope)
    (block : Bool) : inked (env.lineBreak scope block) = [] := by
  rw [lineBreak]
  split
  · have hindent : ∀ unit ∈ List.replicate scope.level env.settings.indent, inked unit = [] := by
      intro unit hunit
      rw [List.eq_of_mem_replicate hunit]
      exact Bytes.inked_blank h
    rw [indentation, ← List.singleton_append, Bytes.inked_append, Bytes.inked_flatten, List.flatMap_eq_nil_iff.mpr hindent]
    rfl
  · rfl

namespace Render

variable {env : Environment} {pretty : Bool} {indent : Bytes}

theorem page_relaid (env : Environment) {s s' : Bytes} (hs : Page.Clean s) (hs' : Page.Clean s') (hinked : inked s = inked s') (site : Site) :
    Kin (.relaid pretty indent) (fun a a' => inked a.text = inked a'.text) (page env site s)
      (page (env.recast .still pretty indent) site s') := by
  have hbody (fragments : Array Origin) {a a' : Page} (ha : inked a.text = inked a'.text) :
      Kin (.relaid pretty indent) (fun a a' => inked a.text = inked a'.text) (liftM (Page.body env site fragments a s))
        (liftM (Page.body (env.recast .still pretty indent) site fragments a' s')) := by
    have hmap : (Page.body env site fragments a s).map (inked ∘ Page.text) =
        (Page.body (env.recast .still pretty indent) site fragments a' s').map (inked ∘ Page.text) :=
      Page.body_inked env (env.recast .still pretty indent) rfl rfl hs hs' hinked ha
    refine .lift ?_
    cases hx : Page.body env site fragments a s with
    | error f =>
      cases hx' : Page.body (env.recast .still pretty indent) site fragments a' s' <;> rw [hx, hx'] at hmap <;> cases hmap
      exact .inl ⟨f, rfl, congrArg _ f.relocate_still.symm⟩
    | ok q =>
      cases hx' : Page.body (env.recast .still pretty indent) site fragments a' s' <;> rw [hx, hx'] at hmap
      · cases hmap
      · exact .inr ⟨q, _, rfl, rfl, Except.ok.inj hmap⟩
  have hpattern (args : List Bytes) : Rendering.Steady (.relaid pretty indent)
      (liftM (env.pattern site "php_handle_code" args))
      (liftM ((env.recast .still pretty indent).pattern site "php_handle_code" args)) :=
    .same (Environment.pattern_relocate site ..)
  rw [page, page]
  refine .get fun p p' hp => ?_
  rw [hp.ledger.1.fragments, show (env.recast .still pretty indent).settings.debug = env.settings.debug from rfl]
  split
  · refine .bind (hpattern _) fun opening => .seq (hbody _ rfl) fun a a' ha => ?_
    refine .bind (Rendering.require_kin env site (by decide)) fun rethrow => .bind (hpattern _) fun closing => .pure ?_
    rw [Page.text_write, Page.text_write, Bytes.inked_append, Bytes.inked_append, ha]
  · exact hbody _ rfl

theorem finished_relaid (h : env.Plain) (hindent : env.settings.indent.all Ascii.isBlank)
    (hindent' : indent.all Ascii.isBlank) (hfree : env.NullFree) (hfree' : (env.recast .still pretty indent).NullFree)
    {e : Element} (he : e.NullFree) {p p' : Progress} (hp : p.Kin (.relaid pretty indent) p') :
    ((finished env e).run p).1.map (inked ∘ Page.text) =
      ((finished (env.recast .still pretty indent) e).run p').1.map (inked ∘ Page.text) := by
  have hplain : (env.recast .still pretty indent).Plain := ⟨h.handlers, h.templates⟩
  have hbreak (scope : Scope) (block : Bool) :
      inked (env.lineBreak scope block) = inked ((env.recast .still pretty indent).lineBreak scope block) := by
    rw [Environment.inked_lineBreak hindent, Environment.inked_lineBreak hindent']
  have hclean {env : Environment} (hfree : env.NullFree) (hplain : env.Plain) {p q : Progress} {t : Bytes}
      (hp : p.additions = []) (hrun : (tree env e).run p = (.ok t, q)) : Page.Clean t := by
    have hstart : p.NullFree := by
      rw [Progress.NullFree, hp]
      exact List.forall_mem_nil _
    obtain ⟨-, news, -, hclean, -⟩ :=
      node_draws hfree (hfree.gallery hplain) env.settings.maxDepth Scope.nullFree_outermost he hstart hrun
    exact hclean
  have hnode := node_kin (k := .relaid pretty indent) h.passes hbreak env.settings.maxDepth .outermost e
  rw [show e.relocate (Kinship.relaid pretty indent).move = e from e.relocate_still] at hnode
  rw [finished, finished, Rendering.run_bind, Rendering.run_bind]
  rcases hnode hp with ⟨f, q, q', hq, hq'⟩ | ⟨t, t', q, q', hq, hq', hinked, hkin⟩
  · have hrun : (tree env e).run p = (.error f, q) := hq
    have hrun' : (tree (env.recast .still pretty indent) e).run p' = (.error f, q') := f.relocate_still ▸ hq'
    rw [hrun, hrun']
  · have hrun : (tree env e).run p = (.ok t, q) := hq
    have hrun' : (tree (env.recast .still pretty indent) e).run p' = (.ok t', q') := hq'
    rw [hrun, hrun']
    have hs := hclean hfree h hp.added.1 hrun
    have hs' := hclean hfree' hplain hp.added.2 hrun'
    dsimp only
    rcases page_relaid env hs hs' hinked e.site hkin with ⟨f, r, r', hr, hr'⟩ | ⟨a, a', r, r', hr, hr', ha, -⟩
    · rw [hr, hr']
      exact congrArg Except.error f.relocate_still.symm
    · rw [hr, hr']
      exact congrArg Except.ok ha

end Render

theorem Settings.NullFree.relaid {settings : Settings} (h : settings.NullFree) {pretty : Bool} {indent : Bytes}
    (hindent : indent.all Ascii.isBlank) : Settings.NullFree { settings with pretty, indent } where
  indent := fun hzero => absurd (List.all_eq_true.mp hindent 0 hzero) (by decide)
  storage := h.storage
  accessor := h.accessor
  handlers := h.handlers

namespace Session

variable {s : Session} {pretty : Bool} {indent : Bytes}

def relaid (s : Session) (pretty : Bool) (indent : Bytes) : Session := { s with settings := { s.settings with pretty, indent } }

theorem NullFree.relaid {d : Dialect} (h : s.NullFree d) (hindent : indent.all Ascii.isBlank) :
    (s.relaid pretty indent).NullFree d :=
  ⟨h.producers, h.settings.relaid hindent, h.templates, h.dialect⟩

theorem attempt_relaid (hhandlers : s.settings.handlers = []) (hproducers : s.settings.producers = [])
    (hindent : s.settings.indent.all Ascii.isBlank) (hindent' : indent.all Ascii.isBlank) (hequipped : s.ledger.Equipped)
    {e : Element} (he : e.NullFree) {selector : Selector} (hfree : ∀ d, (s.select e selector).2 = .ok d → s.NullFree d)
    (nextNode : NodeId) :
    ((s.relaid pretty indent).attempt e nextNode selector).result.map inked =
      (s.attempt e nextNode selector).result.map inked := by
  have hstill {α : Type} (x : Except Failure α) : x.mapError (Failure.relocate .still) = x := by
    cases x with
    | error f => exact congrArg Except.error f.relocate_still
    | ok t => rfl
  have hpage := attempt_recast (g := .still) s (s.relaid pretty indent) rfl rfl inked e nextNode nextNode selector
  rw [e.relocate_still, hstill] at hpage
  refine hpage fun d text l l' hd htext hl hl' => ?_
  have hrecast := environment_relocate (g := .still) s (s.relaid pretty indent) rfl rfl e d text
  have henv := (hfree d hd).environment he htext
  have hfree' : (s.relaid pretty indent).NullFree d := (hfree d hd).relaid hindent'
  have henv' := hfree'.environment he htext
  rw [e.relocate_still] at hrecast
  rw [hrecast] at henv'
  rw [hstill]
  have hstart : Progress.Kin (.relaid pretty indent) { ledger := l, nextNode } { ledger := l', nextNode } :=
    ⟨⟨hl.symm.trans hl', hequipped.of_declared (congrArg _ hl.helpers.symm)⟩, ⟨rfl, rfl⟩, rfl, rfl, rfl⟩
  exact (Render.finished_relaid (environment_plain hhandlers hproducers e d text) hindent hindent' henv henv' he hstart).symm

def leaflet : Forest :=
  ⟨#[{ content := .markup { name := "div" }, children := [1, 3] },
     { content := .markup { name := "p" }, parent := some 0, children := [2], origin := some ⟨"t.pug", 2, 2⟩ },
     { content := .text { value := "a b" }, parent := some 1 },
     { content := .markup { name := "p" }, parent := some 0 }]⟩

theorem leaflet_nullFree : (leaflet.element 0).NullFree := by
  refine Forest.element_each (fun id n hn => ?_) 0
  have hid : id < 4 := (Array.getElem?_eq_some_iff.mp hn).1
  interval_cases id <;> cases hn
  · exact ⟨by decide, fun _ h => (by cases h), List.forall_mem_nil _, List.forall_mem_nil _⟩
  · exact ⟨by decide, fun _ h => (by cases h), List.forall_mem_nil _, List.forall_mem_nil _⟩
  · exact (by decide : Bytes.NullFree "a b")
  · exact ⟨by decide, fun _ h => (by cases h), List.forall_mem_nil _, List.forall_mem_nil _⟩

/-- A text, and a tag that reads as the rest of a mark where nothing is written around it. -/
def gap : Forest :=
  ⟨#[{ content := .document, children := [1, 2] },
     { content := .expression { source := "\"\\0\"" }, parent := some 0 },
     { content := .markup { name := "5\x01" }, parent := some 0 }]⟩

end Session

end Stencil
