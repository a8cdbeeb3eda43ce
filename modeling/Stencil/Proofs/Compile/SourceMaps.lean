import Stencil.CommandLine.Run
import Stencil.Proofs.Compile.Builtin

/-! Source maps. A page in a built-in dialect, from a tree and settings without null bytes, has one mapping for each node
with an origin that is written, in the order of the output and with a number of its own, at the place where the output
of the node starts; below a preamble the mappings are moved down by its lines. -/

namespace Stencil

open Page (segments cuts)

def Page.opening (settings : Settings) : Bytes :=
  if settings.debug then code "$__pug_debug_id = 0; try \x7b" else []

/-- The mapping stands where the output of the node starts: the rendered text is cut at the node's mark, and the mapping
has the position between what the text before the mark shows on the page and what the node does. -/
structure Mapping.Starts (env : Environment) (rendered lead text : Bytes) (m : Mapping) (s : Spot) : Prop where
  id : m.id = s.id
  origin : ∃ o, s.element.origin = some o ∧ m.origin = env.settings.complete o
  drawn : s.Drawn env
  place : ∃ before after leading leading' front own tail,
    rendered = before ++ (Page.mark s.id ++ (s.rest ++ after)) ∧
    Page.Shows env.settings.debug env.settings.pretty before leading front ∧
    Page.Shows env.settings.debug leading (Page.mark s.id ++ s.rest) leading' own ∧
    text = lead ++ (Page.opening env.settings ++ front) ++ (own ++ tail) ∧
    m.outputLine = (Page.position (lead ++ (Page.opening env.settings ++ front))).1 ∧
    m.outputColumn = (Page.position (lead ++ (Page.opening env.settings ++ front))).2

namespace SourceMap

/-- The map has a mapping for each of the nodes, in their order, in the text of a page behind `lead`. -/
structure Sound (env : Environment) (rendered lead : Bytes) (es : List Element) (text : Bytes) (map : SourceMap) : Prop where
  starts : ∃ spots, spots.map Spot.element = es ∧ List.Forall₂ (Mapping.Starts env rendered lead text) map.mappings spots
  distinct : (map.mappings.map (·.id)).Nodup
  ordered : map.mappings.Pairwise fun m m' => atOrBefore m.outputLine m.outputColumn m'.outputLine m'.outputColumn

/-- The map locates every node with an origin that is written for the tree, in the text of its page behind `lead`. -/
def Locates (env : Environment) (e : Element) (lead text : Bytes) (map : SourceMap) : Prop :=
  ∃ rendered p q, (Render.tree env e).run p = (.ok rendered, q) ∧
    map.Sound env rendered lead (Render.occurrences env.settings e) text

theorem mappings_shift (map : SourceMap) (count : Nat) :
    (map.shift count).mappings = map.mappings.map fun m => { m with outputLine := m.outputLine + count } := by
  obtain ⟨file, _ | ms⟩ := map <;> rfl

variable {env : Environment} {e : Element} {es : List Element} {rendered text : Bytes} {map : SourceMap}

/-- Below a whole number of lines the map stays sound if it is moved down by as many. -/
theorem Sound.shift (h : map.Sound env rendered [] es text) {lines : Bytes}
    (hlines : lines = [] ∨ ∃ s, lines = s ++ [Ascii.newline]) (tail : Bytes) :
    (map.shift (lines.count Ascii.newline)).Sound env rendered lines es (lines ++ text ++ tail) := by
  obtain ⟨spots, hspots, hstarts⟩ := h.starts
  refine ⟨⟨spots, hspots, ?_⟩, ?_, ?_⟩
  · rw [mappings_shift, List.forall₂_map_left_iff]
    refine hstarts.imp fun m s hm => ?_
    obtain ⟨before, after, leading, leading', front, own, rest, hrendered, hfront, hown, htext, hline, hcolumn⟩ := hm.place
    refine ⟨hm.id, hm.origin, hm.drawn, before, after, leading, leading', front, own, rest ++ tail, hrendered, hfront, hown,
      ?_, ?_, ?_⟩
    · rw [htext]
      simp only [List.nil_append, List.append_assoc]
    · rw [Page.position_append hlines]
      dsimp only
      rw [hline, List.nil_append]
      omega
    · rw [Page.position_append hlines]
      exact hcolumn
  · rw [mappings_shift, List.map_map]
    exact h.distinct
  · rw [mappings_shift, List.pairwise_map]
    refine h.ordered.imp fun {m m'} hm => ?_
    simp only [atOrBefore, Bool.or_eq_true, Bool.and_eq_true, decide_eq_true_eq, beq_iff_eq] at hm ⊢
    omega

theorem Locates.shift (h : map.Locates env e [] text) {lines : Bytes}
    (hlines : lines = [] ∨ ∃ s, lines = s ++ [Ascii.newline]) (tail : Bytes) :
    (map.shift (lines.count Ascii.newline)).Locates env e lines (lines ++ text ++ tail) := by
  obtain ⟨rendered, p, q, htree, hsound⟩ := h
  exact ⟨rendered, p, q, htree, hsound.shift hlines tail⟩

end SourceMap

theorem forall₂_compose {α β γ : Type} {R : α → γ → Prop} {S : β → γ → Prop} {as : List α} {bs : List β} {xs : List γ}
    (h : List.Forall₂ R as xs) (h' : List.Forall₂ S bs xs) : List.Forall₂ (fun a b => ∃ x, R a x ∧ S b x) as bs := by
  induction h generalizing bs with
  | nil =>
    cases h'
    exact .nil
  | cons hr _ ih =>
    cases h' with
    | cons hs h' => exact .cons ⟨_, hr, hs⟩ (ih h')

/-- A page is the rendered text between an opening and a closing, which are empty unless debugging. -/
theorem Render.page_run_ok {env : Environment} {site : Site} {rendered : Bytes} {p q : Progress} {page : Page}
    (h : (Render.page env site rendered).run p = (.ok page, q)) :
    q.ledger.fragments = p.ledger.fragments ∧ ∃ opening closing written,
      (env.settings.debug = true ∧
          Pattern.render env.patterns "php_handle_code" ["$__pug_debug_id = 0; try \x7b"] = .ok opening ∨
        env.settings.debug = false ∧ opening = []) ∧
      Page.body env site p.ledger.fragments (Page.write {} opening) rendered = .ok written ∧
      page = written.write closing := by
  rw [Render.page] at h
  obtain ⟨_, _, hget, h⟩ := Rendering.bind_run_ok h
  cases hget
  dsimp only at h
  split at h
  next hdebug =>
    obtain ⟨opening, _, hrun, h⟩ := Rendering.bind_run_ok h
    obtain ⟨hopening, rfl⟩ := Rendering.lift_run_ok hrun
    obtain ⟨written, _, hrun, h⟩ := Rendering.bind_run_ok h
    obtain ⟨hwritten, rfl⟩ := Rendering.lift_run_ok hrun
    obtain ⟨accessor, r, hrequire, h⟩ := Rendering.bind_run_ok h
    obtain ⟨closing, _, hrun, h⟩ := Rendering.bind_run_ok h
    obtain ⟨-, rfl⟩ := Rendering.lift_run_ok hrun
    cases h
    have hfragments := (Rendering.require_run_ok hrequire).2
    exact ⟨hfragments, opening, closing, written, .inl ⟨hdebug, mapError_eq_ok hopening⟩, hwritten, rfl⟩
  next hdebug =>
    obtain ⟨hwritten, rfl⟩ := Rendering.lift_run_ok h
    exact ⟨rfl, [], [], page, .inr ⟨Bool.eq_false_iff.mpr hdebug, rfl⟩, hwritten, rfl⟩

theorem Render.page_notes {env : Environment} (hcode : env.HandlesCode) {site : Site} {rendered : Bytes}
    {p q : Progress} {page : Page}
    (hknown : ∀ x ∈ cuts (segments rendered), (Page.fragment? p.ledger.fragments x.1).isSome)
    (h : (Render.page env site rendered).run p = (.ok page, q)) :
    (∃ closing, page.text = Page.opening env.settings ++
        Page.shown env.settings.debug (Page.kept env.settings.pretty (segments rendered)) ++ closing) ∧
      List.Forall₂ (fun m x => m.Notes p.ledger.fragments
          (Page.opening env.settings ++ Page.shown env.settings.debug x.2) x.1)
        page.mappings.reverse (cuts (Page.kept env.settings.pretty (segments rendered))) := by
  obtain ⟨-, opening, closing, written, hopening, hwritten, rfl⟩ := page_run_ok h
  have htext : (Page.write {} opening).text = Page.opening env.settings := by
    rw [Page.text_write]
    rcases hopening with ⟨hdebug, hopening⟩ | ⟨hdebug, rfl⟩
    · rw [hcode _ opening hopening, Page.opening, if_pos hdebug]
      rfl
    · rw [Page.opening, hdebug]
      rfl
  have hkept : ∀ x ∈ cuts (Page.kept env.settings.pretty (segments rendered)), (Page.fragment? p.ledger.fragments x.1).isSome := by
    rw [Page.cuts_kept]
    exact List.forall_mem_map.mpr hknown
  obtain ⟨-, hshown, ms, hms, hnotes⟩ := Page.foldlM_step_notes hcode hkept (Page.tracks_empty.write opening) hwritten
  rw [htext] at hshown hnotes
  refine ⟨⟨closing, by rw [Page.text_write, hshown]⟩, ?_⟩
  have hmappings : (written.write closing).mappings.reverse = ms := by
    rw [Page.mappings_write, hms, Page.mappings_write]
    exact (congrArg List.reverse (List.append_nil _)).trans ms.reverse_reverse
  rwa [hmappings]

theorem Mapping.Notes.starts {env : Environment} {fragments : Array Origin} {rendered text before after closing : Bytes}
    {m : Mapping} {s : Spot} {x : Int × List Page.Segment}
    (hm : m.Notes fragments
      (Page.opening env.settings ++ Page.shown env.settings.debug (Page.kept env.settings.pretty x.2)) x.1)
    (hcut : s.Cuts rendered x before after) (hdrawn : s.Drawn env) {o : Origin} (ho : s.element.origin = some o)
    (hfragment : Page.fragment? fragments s.id = some (env.settings.complete o))
    (htext : text = Page.opening env.settings ++
      Page.shown env.settings.debug (Page.kept env.settings.pretty (segments rendered)) ++ closing) :
    m.Starts env rendered [] text s := by
  obtain ⟨leading, leading', own, tail, hfront, hown, hshown⟩ := hcut.shown env.settings.debug env.settings.pretty
  have horigin : m.origin = env.settings.complete o := by
    have hnoted := hm.origin
    rw [hcut.id, hfragment] at hnoted
    exact (Option.some.inj hnoted).symm
  refine ⟨hm.id.trans hcut.id, ⟨o, ho, horigin⟩, hdrawn, before, after, leading, leading', _, own, tail ++ closing,
    hcut.text, hfront, hown, ?_, hm.line, hm.column⟩
  rw [htext, hshown]
  simp only [List.nil_append, List.append_assoc]

/-- The map of a page that comes out locates the nodes with an origin that are written on it. -/
theorem Render.finished_locates {env : Environment} (h : env.NullFree) (hc : env.Carries) (hcode : env.HandlesCode)
    {e : Element} (he : e.NullFree) (hmixins : env.mixins = e.declarations) {p q : Progress} (hp : p.NullFree)
    {page : Page} (hrun : (Render.finished env e).run p = (.ok page, q)) (hsmall : q.ledger.fragments.size < 2 ^ 63)
    (file : Bytes) : (page.sourceMap file).Locates env e [] page.text := by
  obtain ⟨rendered, r, htree, hpage⟩ := Rendering.bind_run_ok hrun
  obtain ⟨-, news, hnews, spots, hlays, rfl, hes⟩ := Render.node_draws h hc.gallery _ Scope.nullFree_outermost he hp htree
  -- Larger numbers would wrap around in the marks.
  have hid : ∀ s ∈ spots, s.id < 2 ^ 63 := by
    intro s hs
    have hle := hnews.le_size s.number (List.mem_map_of_mem hs)
    rw [(page_run_ok hpage).1] at hsmall
    exact hle.trans_lt hsmall
  have hcuts := hlays.cuts_spots hid
  have hids : spots.map (fun s => (s.id : Int)) = (cuts (segments rendered)).map (·.1) := by
    refine map_eq_of_forall₂ (hcuts.imp fun s x hcut => ?_)
    obtain ⟨_, _, hcut⟩ := hcut
    exact hcut.id.symm
  have horigin (s : Spot) (hs : s ∈ spots) : ∃ o, s.element.origin = some o ∧
      Page.fragment? r.ledger.fragments s.id = some (env.settings.complete o) :=
    hnews.origin s.number (List.mem_map_of_mem hs)
  have hknown : ∀ x ∈ cuts (segments rendered), (Page.fragment? r.ledger.fragments x.1).isSome := by
    intro x hx
    obtain ⟨s, hs, hx⟩ := List.mem_map.mp (hids ▸ List.mem_map_of_mem hx)
    obtain ⟨o, -, hfragment⟩ := horigin s hs
    rw [← hx, hfragment]
    rfl
  obtain ⟨⟨closing, htext⟩, hnotes⟩ := page_notes hcode hknown hpage
  have hordered := Mapping.Notes.ordered hnotes
  rw [Page.cuts_kept, List.forall₂_map_right_iff] at hnotes
  refine ⟨rendered, p, r, htree, ⟨spots, ?_, ?_⟩, ?_, hordered⟩
  · rw [occurrences, ← hmixins, ← hes, List.map_map]
    rfl
  · -- Mapping and spot are matched by the fragment that they stand for.
    have hspots := (List.forall₂_and_left _ _).mpr ⟨fun s hs => And.intro (hlays.drawn s hs) (horigin s hs), hcuts⟩
    refine (forall₂_compose hnotes hspots).imp fun m s hms => ?_
    obtain ⟨x, hm, ⟨hdrawn, o, ho, hfragment⟩, before, after, hcut⟩ := hms
    exact hm.starts hcut hdrawn ho hfragment htext
  · have hmapped : page.mappings.reverse.map (·.id) = spots.map fun s => (s.id : Int) :=
      (map_eq_of_forall₂ (hnotes.imp fun m x hm => hm.id)).trans hids.symm
    have hdistinct := hnews.distinct
    rw [List.map_map] at hdistinct
    have hcast := hdistinct.map (Nat.cast_injective : Function.Injective (Nat.cast : Nat → Int))
    rw [List.map_map] at hcast
    exact hmapped ▸ hcast

namespace Session

theorem install_cases (s : Session) (e : Element) (d : Dialect) : ∃ forms,
    (∃ f, s.install e d = (s.installed d forms, .error f)) ∨
    ∃ fallback, Pattern.text (s.patternTable d) "empty_value" [] = .ok fallback ∧
      s.install e d = (s.installed d forms, .ok (s.environment e d fallback)) := by
  obtain ⟨update, r, -, hs, -⟩ := @readForms_alike { s with dialect := some d, patterns := s.patternTable d }
    { s with dialect := some d, patterns := s.patternTable d } (fun _ _ => rfl) e.site
  refine ⟨update s.forms, ?_⟩
  rw [install, hs]
  cases r with
  | error f => exact .inl ⟨f, rfl⟩
  | ok _ =>
    dsimp only
    cases htext : Pattern.text (s.patternTable d) "empty_value" [] with
    | error f => exact .inl ⟨_, rfl⟩
    | ok fallback => exact .inr ⟨fallback, rfl, rfl⟩

theorem attempt_of_ok {s : Session} {e : Element} {nextNode : NodeId} {selector : Selector} {d : Dialect} {text : Bytes}
    (hselect : (s.select e selector).2 = .ok d) (h : (s.attempt e nextNode selector).result = .ok text) :
    ∃ l forms fallback, Pattern.text (s.patternTable d) "empty_value" [] = .ok fallback ∧
      s.attempt e nextNode selector =
        (installed { s with ledger := l } d forms).renderTree (s.environment e d fallback) e nextNode := by
  obtain ⟨l, -, r, -, -, hs, -⟩ := select_alike (akin_of_eq rfl : s.Akin s) e selector
  rw [hs] at hselect
  obtain rfl : r = .ok d := hselect
  rw [attempt, hs] at h ⊢
  dsimp only at h ⊢
  obtain ⟨forms, ⟨f, hinstall⟩ | ⟨fallback, htext, hinstall⟩⟩ := install_cases { s with ledger := l } e d
  · rw [hinstall] at h
    cases h
  · rw [hinstall]
    exact ⟨l, forms, fallback, htext, rfl⟩

theorem attempt_locates {s : Session} {d : Dialect} (hstock : s.Stock d) {e : Element} (he : e.NullFree)
    {nextNode : NodeId} {selector : Selector} (hselect : (s.select e selector).2 = .ok d) {text : Bytes}
    (h : (s.attempt e nextNode selector).result = .ok text)
    (hsmall : (s.attempt e nextNode selector).session.ledger.fragments.size < 2 ^ 63) :
    ∃ map, (s.attempt e nextNode selector).session.sourceMap = some map ∧
      map.Locates (s.environment e d "''") e [] text := by
  obtain ⟨l, forms, fallback, htext, hattempt⟩ := attempt_of_ok hselect h
  obtain rfl := hstock.standard.fallback_eq htext
  obtain ⟨k, m, hsame, hs, hmap⟩ := renderTree_eq (installed { s with ledger := l } d forms)
    (s.environment e d "''") e nextNode
  rw [hattempt, hs] at h hsmall ⊢
  rcases hrun : (Render.finished (s.environment e d "''") e).run { ledger := l, nextNode } with ⟨f | page, q⟩
  · rw [show (installed { s with ledger := l } d forms).ledger = l from rfl, hrun] at h
    cases h
  · rw [show (installed { s with ledger := l } d forms).ledger = l from rfl, hrun] at h hsame hmap
    obtain rfl : page.text = text := Except.ok.inj h
    refine ⟨page.sourceMap s.settings.sourceFile, hmap page rfl, ?_⟩
    have hq : q.ledger.fragments.size < 2 ^ 63 := by
      rw [hsame.fragments]
      exact hsmall
    have hstart : Progress.NullFree { ledger := l, nextNode } := List.forall_mem_nil _
    exact Render.finished_locates (hstock.nullFree.environment he htext) (hstock.standard.carries e _)
      (hstock.standard.handlesCode e _) he rfl
      hstart hrun hq _

/-- A preamble is empty or a number of whole lines. -/
theorem preamble_lines {s : Session} {preamble : Bytes} (h : s.preamble.2 = .ok preamble) :
    preamble = [] ∨ ∃ lines, preamble = lines ++ [Ascii.newline] := by
  rw [Session.preamble] at h
  cases hclosure : s.ledger.helpers.closure with
  | error e =>
    rw [hclosure] at h
    cases h
  | ok helpers =>
    rw [hclosure] at h
    obtain rfl := (Except.ok.inj h).symm
    rw [Preamble.write]
    split
    · exact .inl rfl
    · right
      have hend : ("?>\n" : Bytes) = "?>" ++ [Ascii.newline] := rfl
      rw [hend, ← List.append_assoc]
      exact ⟨_, rfl⟩

theorem attempt_of_format {s after : Session} {forest forest' : Forest} {root : NodeId} {selector : Selector} {text : Bytes}
    (h : s.format forest (some root) selector = (after, forest', .ok text)) :
    (s.attempt (forest.element root) forest.size selector).result = .ok text ∧
      (s.attempt (forest.element root) forest.size selector).session = after := by
  obtain ⟨hafter, hresult⟩ := Prod.mk.inj h
  have hok := (s.result_formatElement (forest.element root) forest.size selector).symm.trans (Prod.mk.inj hresult).2
  rw [formatElement_of_ok hok] at hafter
  exact ⟨hok, hafter⟩

theorem finished_of_format {s after : Session} {forest forest' : Forest} {root : NodeId} {selector : Selector} {d : Dialect}
    {text : Bytes} (hselect : (s.select (forest.element root) selector).2 = .ok d)
    (hformat : s.format forest (some root) selector = (after, forest', .ok text)) :
    ∃ l fallback page q, Pattern.text (s.patternTable d) "empty_value" [] = .ok fallback ∧
      (Render.finished (s.environment (forest.element root) d fallback) (forest.element root)).run
        { ledger := l, nextNode := forest.size } = (.ok page, q) ∧ page.text = text := by
  obtain ⟨hok, -⟩ := attempt_of_format hformat
  obtain ⟨l, forms, fallback, htext, hattempt⟩ := attempt_of_ok hselect hok
  obtain ⟨k, m, -, hs, -⟩ := renderTree_eq (installed { s with ledger := l } d forms)
    (s.environment (forest.element root) d fallback) (forest.element root) forest.size
  rw [hattempt, hs] at hok
  obtain ⟨page, hpage, rfl⟩ := map_eq_ok hok
  exact ⟨l, fallback, page, _, htext, Prod.ext hpage rfl, rfl⟩

theorem format_sourceMap {s after : Session} {forest forest' : Forest} {root : NodeId} {selector : Selector} {d : Dialect}
    {text : Bytes} (hfree : (forest.element root).NullFree)
    (hselect : (s.select (forest.element root) selector).2 = .ok d) (hstock : s.Stock d)
    (hformat : s.format forest (some root) selector = (after, forest', .ok text))
    (hsmall : after.ledger.fragments.size < 2 ^ 63) :
    ∃ map, after.sourceMap = some map ∧ map.Locates (s.environment (forest.element root) d "''") (forest.element root) [] text := by
  obtain ⟨hok, rfl⟩ := attempt_of_format hformat
  exact attempt_locates hstock hfree hselect hok hsmall

/-- The source map of a page in a built-in dialect, without patterns of the settings, locates every node with an origin
that is written; and moved down by the lines of the preamble it does so in the preamble, the page and a line break. -/
theorem format_locates {s after : Session} {forest forest' : Forest} {root : NodeId} {selector : Selector} {e : Element}
    {d : Dialect} {text : Bytes} (he : forest.element root = e) (hfree : e.NullFree)
    (hselect : (s.select e selector).2 = .ok d) (hstock : s.Stock d)
    (hformat : s.format forest (some root) selector = (after, forest', .ok text))
    (hsmall : after.ledger.fragments.size < 2 ^ 63) :
    ∃ map, after.sourceMap = some map ∧ map.Locates (s.environment e d "''") e [] text ∧
      ∀ preamble, after.preamble.2 = .ok preamble →
        (map.shift (preamble.count Ascii.newline)).Locates (s.environment e d "''") e preamble
          (preamble ++ text ++ [Ascii.newline]) := by
  subst he
  obtain ⟨map, hmap, hlocates⟩ := format_sourceMap hfree hselect hstock hformat hsmall
  exact ⟨map, hmap, hlocates, fun preamble hpreamble => hlocates.shift (preamble_lines hpreamble) _⟩

/-- A mixin with a tag, and two calls of it, the second with a text of its own. -/
def catalog : Forest :=
  ⟨#[{ content := .document, children := [1, 4, 5], origin := some ⟨"t.pug", 1, 0⟩ },
     { content := .mixin { name := "item" }, parent := some 0, children := [2], origin := some ⟨"t.pug", 1, 0⟩ },
     { content := .markup { name := "li" }, parent := some 1, children := [3], origin := some ⟨"t.pug", 2, 2⟩ },
     { content := .text { value := "a" }, parent := some 2, origin := some ⟨"t.pug", 2, 5⟩ },
     { content := .call { name := "item" }, parent := some 0, origin := some ⟨"t.pug", 3, 0⟩ },
     { content := .call { name := "item" }, parent := some 0, children := [6], origin := some ⟨"t.pug", 4, 0⟩ },
     { content := .text { value := "b" }, parent := some 5, origin := some ⟨"t.pug", 5, 2⟩ }]⟩

theorem catalog_nullFree : (catalog.element 0).NullFree := by
  refine Forest.element_each (fun id n hn => ?_) 0
  have hid : id < 7 := (Array.getElem?_eq_some_iff.mp hn).1
  interval_cases id <;> cases hn
  · trivial
  · exact ⟨by decide, List.forall_mem_nil _, fun _ h => by cases h⟩
  · exact ⟨by decide, fun _ h => (by cases h), List.forall_mem_nil _, List.forall_mem_nil _⟩
  · exact (by decide : Bytes.NullFree "a")
  · exact ⟨by decide, List.forall_mem_nil _, List.forall_mem_nil _, List.forall_mem_nil _⟩
  · exact ⟨by decide, List.forall_mem_nil _, List.forall_mem_nil _, List.forall_mem_nil _⟩
  · exact (by decide : Bytes.NullFree "b")

/-- The tag and its text are located twice, the mixin itself is not, and the preamble has its own lines before them. -/
theorem catalog_located :
    let s : Session := { settings := { pretty := true, debug := true } }
    let after := (s.format catalog (some 0) (.named "html")).1
    ∃ map text preamble, after.sourceMap = some map ∧ after.preamble.2 = .ok preamble ∧
      map.mappings.map (fun m => (m.id, m.outputLine, m.outputColumn)) =
        [(8, 0, 35), (3, 0, 64), (1, 1, 0), (2, 1, 33), (7, 1, 90), (5, 2, 0), (6, 2, 33), (4, 2, 175)] ∧
      map.Locates (s.environment (catalog.element 0) Dialect.html "''") (catalog.element 0) [] text ∧
      preamble.count Ascii.newline = 28 ∧
      (map.shift 28).Locates (s.environment (catalog.element 0) Dialect.html "''") (catalog.element 0) preamble
        (preamble ++ text ++ [Ascii.newline]) := by
  intro s after
  have hsettings : s.settings.Bare := { Settings.bare_default with }
  have hstock : s.Stock Dialect.html := ⟨rfl, rfl, hsettings.nullFree, by decide +kernel⟩
  have hsome : (s.format catalog (some 0) (.named "html")).2.2.toOption.isSome := by decide +kernel
  obtain ⟨text, htext⟩ := Option.isSome_iff_exists.mp hsome
  have hformat : s.format catalog (some 0) (.named "html") =
      (after, (s.format catalog (some 0) (.named "html")).2.1, .ok text) := by
    rw [← ok_of_toOption htext]
  obtain ⟨map, hmap, hlocates, hshifted⟩ := format_locates rfl catalog_nullFree rfl hstock hformat (by decide +kernel)
  have hlines : after.preamble.2.toOption.map (·.count Ascii.newline) = some 28 := by decide +kernel
  obtain ⟨preamble, hpreamble, hcount⟩ := Option.map_eq_some_iff.mp hlines
  have hplaces : after.sourceMap.map (fun map => map.mappings.map fun m => (m.id, m.outputLine, m.outputColumn)) =
      some [(8, 0, 35), (3, 0, 64), (1, 1, 0), (2, 1, 33), (7, 1, 90), (5, 2, 0), (6, 2, 33), (4, 2, 175)] := by
    decide +kernel
  rw [hmap] at hplaces
  have hpreamble := ok_of_toOption hpreamble
  refine ⟨map, text, preamble, hmap, hpreamble, Option.some.inj hplaces, hlocates, hcount, ?_⟩
  rw [← hcount]
  exact hshifted preamble hpreamble

/-- A text whose code has no null byte, but whose value has one, with the rest of a mark behind it. -/
def forgery : Forest :=
  ⟨#[{ content := .expression { source := "\"abc\\0+1\x01\"" }, origin := some ⟨"t.pug", 1, 0⟩ }]⟩

/-- It does not suffice that the tree has no null bytes: the value of a literal may forge the mark of a node. -/
theorem forgery_not_located : ¬ ∀ (s after : Session) (forest forest' : Forest) (root : NodeId) (selector : Selector)
    (e : Element) (d : Dialect) (text : Bytes), forest.element root = e → e.Each Bytes.NullFree Bytes.NullFree →
    (s.select e selector).2 = .ok d → s.Stock d → s.format forest (some root) selector = (after, forest', .ok text) →
    after.ledger.fragments.size < 2 ^ 63 →
    ∃ map, after.sourceMap = some map ∧ map.Locates (s.environment e d "''") e [] text := by
  intro h
  have hstock : Stock { settings := {} } Dialect.html := ⟨rfl, rfl, Settings.bare_default.nullFree, by decide +kernel⟩
  have hsource : Bytes.NullFree "\"abc\\0+1\x01\"" := by decide
  have htree : (forgery.element 0).Each Bytes.NullFree Bytes.NullFree := .node hsource (List.forall_mem_nil _)
  obtain ⟨map, hmap, rendered, p, q, -, hsound⟩ := h { settings := {} }
    (format { settings := {} } forgery (some 0) (.named "html")).1 forgery _ 0 (.named "html") _ Dialect.html "abc" rfl
    htree rfl hstock rfl (by decide +kernel)
  have hids : (format { settings := {} } forgery (some 0) (.named "html")).1.sourceMap.map (·.mappings.map (·.id)) =
      some [1, 1] := by decide +kernel
  rw [hmap] at hids
  have hids : map.mappings.map (·.id) = [1, 1] := Option.some.inj hids
  have hdistinct := hsound.distinct
  rw [hids] at hdistinct
  exact absurd hdistinct (by decide)

theorem select_of_ok {s : Session} {e : Element} {selector : Selector} {nextNode : NodeId} {text : Bytes} (h : (s.attempt e nextNode selector).result = .ok text) :
    ∃ d, (s.select e selector).2 = .ok d := by
  rw [attempt] at h
  rcases hselect : s.select e selector with ⟨s', f | d⟩
  · rw [hselect] at h
    cases h
  · exact ⟨d, rfl⟩

theorem sourceMap_preamble (s : Session) : s.preamble.1.sourceMap = s.sourceMap := by
  rw [preamble]
  split <;> rfl

end Session

namespace Run

/-- The source map of a compiled file locates every node with an origin that is written, in the text of the file. -/
theorem compile_locates {o : Options} {path data : Bytes} {log : Array Bytes} {page : Compiled} {forest : Forest}
    {root : NodeId} {settings : Settings} (hcompile : compile o path data = (log, .ok page))
    (hplant : Wire.plantText .empty data = .ok (forest, root))
    (hsettings : Settings.ofList (o.settings (Path.sourceOf path)) = .ok settings)
    (hfree : (forest.element root).NullFree)
    (hsmall : (Render.fragments settings (forest.element root)).length < 2 ^ 63) :
    ∃ d ∈ Dialect.builtin, ∃ (lead : Bytes) (map : SourceMap), page.map = map.write ∧
      map.Locates (Session.environment { settings } (forest.element root) d "''") (forest.element root) lead page.text := by
  rw [compile, hplant] at hcompile
  dsimp only at hcompile
  rw [hsettings] at hcompile
  dsimp only at hcompile
  rcases hformat : Session.format { settings } forest (some root)
    (if o.format.isEmpty then .auto else .named o.format) with ⟨after, forest', f | body⟩
  · rw [hformat] at hcompile
    cases hcompile
  rw [hformat] at hcompile
  dsimp only at hcompile
  rcases hpreamble : after.preamble with ⟨final, f | preamble⟩
  · rw [hpreamble] at hcompile
    cases hcompile
  rw [hpreamble] at hcompile
  cases hcompile
  have hfinal : final.sourceMap = after.sourceMap := by
    rw [← after.sourceMap_preamble, hpreamble]
  obtain ⟨hok, hafter⟩ := Session.attempt_of_format hformat
  obtain ⟨d, hselect⟩ := Session.select_of_ok hok
  have hbare := Options.bare hsettings
  have hd : d ∈ Dialect.builtin := by
    refine Session.select_builtin hbare.formats o.format ?_ hselect
    split
    · exact .inl rfl
    · exact .inr rfl
  have hfragments := (Session.attempt_grows { settings } (forest.element root) forest.size _).2 body hok
  rw [hafter] at hfragments
  have hcount : after.ledger.fragments.size < 2 ^ 63 := by
    rw [← Array.length_toList, hfragments]
    exact hsmall
  obtain ⟨map, hmap, hlocates⟩ :=
    Session.format_sourceMap hfree hselect ⟨hbare.patterns, hbare.producers, hbare.nullFree, hd⟩ hformat hcount
  refine ⟨d, hd, preamble, map.shift (preamble.count Ascii.newline), ?_, ?_⟩
  · rw [hfinal, hmap]
    rfl
  · exact hlocates.shift (Session.preamble_lines (by rw [hpreamble])) _

end Run

end Stencil
