import Stencil.Proofs.Compile.Origins
import Stencil.Proofs.Compile.SourceMaps

/-! Text is written as it is. A page that is neither laid out nor for debugging is the rendered text without the marks in
it. Where no node has an origin none was put there, but what a text or a literal of the tree brings may read as one, also
across the end of what one node is rendered to, and it is taken out all the same. -/

namespace Stencil

open Bytes (nullFree_append)

namespace Page

variable {c : UInt8} {s : Bytes}

/-- Somewhere in the text a null byte, a number of 64 bits and the closing byte of a mark follow each other. -/
def HoldsMark (s : Bytes) : Prop :=
  ∃ before number after, s = before ++ markOpen :: (number ++ markClose :: after) ∧ (Bytes.toInt64? number).isSome

/-- No number holds the byte that closes its mark. -/
theorem takeWhile_number {number : Bytes} (h : (Bytes.toInt64? number).isSome) (after : Bytes) :
    (number ++ markClose :: after).takeWhile (· != markClose) = number := by
  rw [List.takeWhile_append_of_pos, List.takeWhile_cons_of_neg (by simp), List.append_nil]
  intro b hb
  refine bne_iff_ne.mpr fun heq => ?_
  rw [heq] at hb
  rw [Bytes.toInt64?_of_mem (by decide) (by decide) (by decide) hb] at h
  cases h

theorem exists_after_of_takeWhile_lt (h : (s.takeWhile (· != markClose)).length < s.length) :
    ∃ after, s = s.takeWhile (· != markClose) ++ markClose :: after := by
  have hsplit := List.takeWhile_append_dropWhile (p := (· != markClose)) (l := s)
  have hhead := List.head?_dropWhile_not (· != markClose) s
  cases hrest : s.dropWhile (· != markClose) with
  | nil =>
    rw [hrest, List.append_nil] at hsplit
    rw [hsplit] at h
    exact absurd h (Nat.lt_irrefl _)
  | cons d after =>
    rw [hrest] at hhead hsplit
    obtain rfl : d = markClose := by simpa using hhead
    exact ⟨after, hsplit.symm⟩

theorem mark?_isSome_iff : (mark? c s).isSome ↔
    c = markOpen ∧ ∃ number after, s = number ++ markClose :: after ∧ (Bytes.toInt64? number).isSome := by
  by_cases hc : c = markOpen
  · unfold mark?
    rw [if_pos (beq_iff_eq.mpr hc)]
    dsimp only
    constructor
    · intro h
      refine ⟨hc, ?_⟩
      split at h
      next hlt =>
        obtain ⟨after, hs⟩ := exists_after_of_takeWhile_lt hlt
        exact ⟨_, after, hs, by rwa [Option.isSome_map] at h⟩
      next => cases h
    · rintro ⟨-, number, after, rfl, hnumber⟩
      rw [takeWhile_number hnumber, if_pos, Option.isSome_map]
      · exact hnumber
      · rw [List.length_append, List.length_cons]
        omega
  · unfold mark?
    rw [if_neg (by simpa using hc)]
    simp [hc]

theorem not_holdsMark_nil : ¬ HoldsMark [] := by
  rintro ⟨before, number, after, h, -⟩
  cases before <;> cases h

theorem holdsMark_cons : HoldsMark (c :: s) ↔ (mark? c s).isSome ∨ HoldsMark s := by
  rw [mark?_isSome_iff]
  constructor
  · rintro ⟨before, number, after, h, hnumber⟩
    cases before with
    | nil =>
      obtain ⟨rfl, rfl⟩ := List.cons_eq_cons.mp h
      exact .inl ⟨rfl, number, after, rfl, hnumber⟩
    | cons b before =>
      obtain ⟨rfl, rfl⟩ := List.cons_eq_cons.mp h
      exact .inr ⟨before, number, after, rfl, hnumber⟩
  · rintro (⟨rfl, number, after, rfl, hnumber⟩ | ⟨before, number, after, rfl, hnumber⟩)
    · exact ⟨[], number, after, rfl, hnumber⟩
    · exact ⟨c :: before, number, after, rfl, hnumber⟩

theorem unmarked_cons_of_none (h : mark? c s = none) : unmarked (c :: s) = c :: unmarked s := by
  unfold unmarked
  rw [segments_cons, h, List.flatMap_cons]
  rfl

theorem unmarked_cons_of_some {id : Int} {n : Nat} (h : mark? c s = some (id, n)) :
    unmarked (c :: s) = unmarked (s.drop n) := by
  unfold unmarked
  rw [segments_cons, h, List.flatMap_cons]
  rfl

theorem unmarked_sublist (s : Bytes) : (unmarked s).Sublist s := by
  induction hn : s.length using Nat.strongRecOn generalizing s with
  | ind n ih =>
    cases s with
    | nil => exact List.Sublist.refl _
    | cons c s =>
      rw [List.length_cons] at hn
      cases hmark : mark? c s with
      | none =>
        rw [unmarked_cons_of_none hmark]
        exact (ih s.length (by omega) s rfl).cons_cons c
      | some m =>
        rw [unmarked_cons_of_some hmark]
        have hlength : (s.drop m.2).length < n := by
          rw [List.length_drop]
          omega
        exact ((ih _ hlength _ rfl).trans (List.drop_sublist ..)).cons c

/-- A text is left as it is just if it holds no mark. -/
theorem unmarked_eq_self_iff : unmarked s = s ↔ ¬ HoldsMark s := by
  induction s with
  | nil => exact iff_of_true rfl not_holdsMark_nil
  | cons c s ih =>
    rw [holdsMark_cons]
    cases hmark : mark? c s with
    | none =>
      rw [unmarked_cons_of_none hmark, List.cons_inj_right, ih]
      simp
    | some m =>
      rw [unmarked_cons_of_some hmark]
      refine iff_of_false (fun heq => ?_) (by simp)
      have hle := (unmarked_sublist (s.drop m.2)).length_le
      rw [heq, List.length_cons, List.length_drop] at hle
      omega

instance (s : Bytes) : Decidable (HoldsMark s) := decidable_of_iff (unmarked s ≠ s) (by rw [Ne, unmarked_eq_self_iff, not_not])

end Page

namespace Render

/-- What nodes are rendered to, one after the other; a space stands between texts. -/
def strung : (before : Option Forest.Text) → List Element → List Bytes → Bytes
  | before, e :: es, piece :: pieces => separator before (text? e) ++ piece ++ strung (text? e) es pieces
  | _, _, _ => []

/-- The text of a list of nodes is put together from those of the nodes. -/
theorem listFrom_pieces {one : Element → Rendering Bytes} {before : Option Forest.Text} {es : List Element} {p q : Progress}
    {body : Bytes} (h : (listFrom one before es).run p = (.ok body, q)) :
    ∃ pieces, List.Forall₂ (fun e piece => ∃ p q, (one e).run p = (.ok piece, q)) es pieces ∧
      body = strung before es pieces := by
  induction es generalizing before p body with
  | nil =>
    cases h
    exact ⟨[], .nil, rfl⟩
  | cons e es ih =>
    rw [listFrom] at h
    obtain ⟨first, r, hfirst, h⟩ := Rendering.bind_run_ok h
    obtain ⟨rest, r', hrest, h⟩ := Rendering.bind_run_ok h
    cases h
    obtain ⟨pieces, hpieces, rfl⟩ := ih hrest
    exact ⟨first :: pieces, .cons ⟨p, r, hfirst⟩ hpieces, rfl⟩

end Render

/-- From a tree without null bytes, what is written has none where no node has an origin. -/
def Environment.NullFree.unmarked {env : Environment} (h : env.NullFree) : Gallery env where
  shown es t _ := es = [] → t.NullFree
  of_nullFree ht _ := ht
  append := by
    intro es es' s t news more hs ht hnil
    obtain ⟨rfl, rfl⟩ := List.append_eq_nil_iff.mp hnil
    exact nullFree_append.mpr ⟨hs rfl, ht rfl⟩
  carry := by
    intro name hname site es arg text news harg hok hnil
    exact h.render name (Session.carriers_common name hname) _ _ (List.forall_mem_singleton.mpr (harg hnil))
      (mapError_eq_ok hok)
  spot _ _ hnil := nomatch hnil

theorem Forest.unplaced_of_origin {f : Forest} (h : ∀ id, f.origin id = none) : f.unplaced = f := by
  obtain ⟨nodes⟩ := f
  unfold Forest.unplaced
  refine congrArg Forest.mk (Array.ext (by simp) fun i hi hi' => ?_)
  have horigin := h i
  unfold Forest.origin Forest.get? at horigin
  rw [Array.getElem?_eq_getElem hi', Option.bind_some] at horigin
  rw [Array.getElem_map]
  cases hn : nodes[i]
  rw [hn] at horigin
  exact congrArg _ horigin.symm

namespace Session

variable {s : Session} {e : Element} {nextNode : NodeId} {selector : Selector} {d : Dialect}

def rendered (s : Session) (e : Element) (nextNode : NodeId) (selector : Selector) : Except Failure Bytes :=
  match s.select e selector with
  | (_, .error f) => .error f
  | (s, .ok d) =>
    match s.install e d with
    | (_, .error f) => .error f
    | (s, .ok env) => ((Render.tree env e).run { ledger := s.ledger, nextNode }).1

theorem rendered_cases (s : Session) (e : Element) (nextNode : NodeId) (selector : Selector) :
    (∃ f, s.rendered e nextNode selector = .error f ∧ (s.attempt e nextNode selector).result = .error f) ∨
    ∃ d l forms fallback, (s.select e selector).2 = .ok d ∧
      Pattern.text (s.patternTable d) "empty_value" [] = .ok fallback ∧
      s.attempt e nextNode selector =
        (installed { s with ledger := l } d forms).renderTree (s.environment e d fallback) e nextNode ∧
      s.rendered e nextNode selector =
        ((Render.tree (s.environment e d fallback) e).run { ledger := l, nextNode }).1 := by
  obtain ⟨l, -, r, -, -, hselect, -⟩ := select_alike (akin_of_eq rfl : s.Akin s) e selector
  unfold rendered attempt
  rw [hselect]
  cases r with
  | error f => exact .inl ⟨f, rfl, rfl⟩
  | ok d =>
    dsimp only
    obtain ⟨forms, ⟨f, hinstall⟩ | ⟨fallback, htext, hinstall⟩⟩ := install_cases { s with ledger := l } e d
    · rw [hinstall]
      exact .inl ⟨f, rfl, rfl⟩
    · rw [hinstall]
      exact .inr ⟨d, l, forms, fallback, rfl, htext, rfl, rfl⟩

/-- A page that is neither laid out nor for debugging is the rendered text without its marks. -/
theorem attempt_unmarked (hcompact : s.settings.pretty = false) (hdebug : s.settings.debug = false) (e : Element)
    (nextNode : NodeId) (selector : Selector) :
    (s.attempt e nextNode selector).result = (s.rendered e nextNode selector).map Page.unmarked := by
  rcases s.rendered_cases e nextNode selector with ⟨f, hrendered, hresult⟩ | ⟨d, l, forms, fallback, -, -, hattempt, hrendered⟩
  · rw [hrendered, hresult]
    rfl
  · obtain ⟨_, _, -, hs, -⟩ := (installed { s with ledger := l } d forms).renderTree_eq (s.environment e d fallback) e nextNode
    have hdebug : (s.environment e d fallback).settings.debug = false := hdebug
    have hcompact : (s.environment e d fallback).settings.pretty = false := hcompact
    rw [hattempt, hs, hrendered, Render.finished, Rendering.run_bind]
    rcases hrun : (Render.tree (s.environment e d fallback) e).run { ledger := l, nextNode } with ⟨f | body, q⟩
    · rw [show (installed { s with ledger := l } d forms).ledger = l from rfl, hrun]
      rfl
    · rw [show (installed { s with ledger := l } d forms).ledger = l from rfl, hrun]
      dsimp only
      obtain ⟨page, hpage, htext⟩ := Page.body_unmarked hdebug e.site q.ledger.fragments body
      rw [hcompact] at htext
      rw [Render.page_run hdebug, hpage]
      exact congrArg Except.ok htext

/-- Without null bytes and origins, there is nothing in a rendered text that reads as a mark. -/
theorem rendered_nullFree {f : Forest} {root : NodeId} (horigins : ∀ id, f.origin id = none)
    (he : (f.element root).NullFree) (hfree : ∀ d, (s.select (f.element root) selector).2 = .ok d → s.NullFree d)
    {body : Bytes} (h : s.rendered (f.element root) nextNode selector = .ok body) : body.NullFree := by
  have hsame : (f.element root).relocate (.nowhere fun n => n) = f.element root := by
    rw [← Forest.element_unplaced, Forest.unplaced_of_origin horigins]
  rcases s.rendered_cases (f.element root) nextNode selector with
    ⟨g, hrendered, -⟩ | ⟨d, l, forms, fallback, hselect, htext, -, hrendered⟩
  · rw [hrendered] at h
    cases h
  · have henv := (hfree d hselect).environment he htext
    have hstart : Progress.NullFree { ledger := l, nextNode } := List.forall_mem_nil _
    obtain ⟨-, news, -, hbody⟩ := Render.node_draws henv henv.unmarked _ Scope.nullFree_outermost he hstart
      (Prod.ext (hrendered.symm.trans h) rfl)
    refine hbody ?_
    have hnone := Render.nodeOccurrences_nowhere (fun n => n) (f.element root).declarations s.settings.maxDepth
      (f.element root)
    rw [← Element.declarations_relocate, hsame] at hnone
    exact hnone

theorem select_of_choose {s' : Session} {label : Bytes} (h : s.choose e selector = .ok (s', some d, label))
    (hd : d ∈ Dialect.builtin) : (s.select e selector).2 = .ok d := by
  have hrequired : ∀ d ∈ Dialect.builtin, ∀ name ∈ Dialect.requiredPatterns, d.patterns.contains name := by
    decide +kernel
  have hmissing : s'.missingPatterns d = [] := by
    refine List.filter_eq_nil_iff.mpr fun name hname => ?_
    rw [hrequired d hd name hname]
    simp
  unfold select
  rw [h]
  dsimp only
  rw [hmissing]
  rfl

theorem rendered_text (hproducers : s.settings.producers = []) (hdepth : 0 < s.settings.maxDepth) {id : NodeId}
    {t : Forest.Text} {children : List Element} (he : e = .node id none (.text t) children)
    (hselect : (s.select e selector).2 = .ok d) : s.rendered e nextNode selector = .ok (Render.text t) := by
  obtain ⟨l, -, r, -, -, hs, -⟩ := select_alike (akin_of_eq rfl : s.Akin s) e selector
  rw [hs] at hselect
  obtain rfl : r = .ok d := hselect
  have hproducers : ({ s with ledger := l } : Session).settings.producers = [] := hproducers
  obtain ⟨forms, fallback, hinstall⟩ := install_ok hproducers e d
  obtain ⟨n, hn⟩ : ∃ n, s.settings.maxDepth = n + 1 := ⟨s.settings.maxDepth - 1, by omega⟩
  unfold rendered
  rw [hs]
  dsimp only
  rw [hinstall, he]
  dsimp only
  unfold Render.tree
  rw [show (environment { s with ledger := l } (.node id none (.text t) children) d fallback).settings.maxDepth = n + 1 from hn]
  rfl

theorem rendered_document {id : NodeId} {children : List Element} (he : e = .node id none .document children)
    {body : Bytes} (h : s.rendered e nextNode selector = .ok body) :
    ∃ d fallback pieces, (s.select e selector).2 = .ok d ∧ List.Forall₂ (fun child piece => ∃ p q,
        (Render.node (s.environment e d fallback) (s.settings.maxDepth - 1) .outermost child).run p = (.ok piece, q))
        children pieces ∧
      body = Render.strung none children pieces := by
  rcases s.rendered_cases e nextNode selector with ⟨f, hrendered, -⟩ | ⟨d, l, forms, fallback, hselect, -, -, hrendered⟩
  · rw [hrendered] at h
    cases h
  · refine ⟨d, fallback, ?_⟩
    rw [exists_and_left]
    refine ⟨hselect, ?_⟩
    set env := s.environment e d fallback
    have hrun : (Render.tree env e).run { ledger := l, nextNode } =
        (.ok body, ((Render.tree env e).run { ledger := l, nextNode }).2) := Prod.ext (hrendered.symm.trans h) rfl
    have hmax : env.settings.maxDepth = s.settings.maxDepth := rfl
    unfold Render.tree at hrun
    rw [hmax] at hrun
    cases hdepth : s.settings.maxDepth with
    | zero =>
      rw [hdepth] at hrun
      cases hrun
    | succ n =>
      rw [hdepth, he, Render.node] at hrun
      obtain ⟨text, q, htext, hrun⟩ := Rendering.bind_run_ok hrun
      obtain rfl : text = body := by
        obtain ⟨mark, q', hmark, hrun⟩ := Rendering.bind_run_ok hrun
        cases hmark
        exact Except.ok.inj (Prod.mk.inj hrun).1
      exact Render.listFrom_pieces htext

/-- Neither laid out nor for debugging, a page is what its tree is rendered to without what reads as a mark in it, and so
it is the same byte for byte just if that holds no mark. It holds none where there are no origins and no null bytes; what a
document is rendered to are its nodes one after the other, and a text that is not escaped is rendered to itself. -/
theorem format_verbatim {s : Session} (hcompact : s.settings.pretty = false) (hdebug : s.settings.debug = false)
    (forest : Forest) (root : NodeId) (selector : Selector) :
    let e := forest.element root
    let rendered := s.rendered e forest.size selector
    let page := (s.format forest (some root) selector).2.2
    page = rendered.map Page.unmarked ∧
    (∀ body, rendered = .ok body → (page = .ok body ↔ ¬ Page.HoldsMark body)) ∧
    ((∀ id, forest.origin id = none) → e.NullFree → (∀ d, (s.select e selector).2 = .ok d → s.NullFree d) →
      page = rendered) ∧
    (∀ id children body, e = .node id none .document children → rendered = .ok body →
      ∃ d fallback pieces, (s.select e selector).2 = .ok d ∧ List.Forall₂ (fun child piece => ∃ p q,
          (Render.node (s.environment e d fallback) (s.settings.maxDepth - 1) .outermost child).run p = (.ok piece, q))
          children pieces ∧
        body = Render.strung none children pieces) ∧
    (∀ id t children d, e = .node id none (.text t) children → t.escape = false → s.settings.producers = [] →
      0 < s.settings.maxDepth → (∃ s' label, s.choose e selector = .ok (s', some d, label)) → d ∈ Dialect.builtin →
      page = .ok (Page.unmarked t.value) ∧ (page = .ok t.value ↔ ¬ Page.HoldsMark t.value)) := by
  intro e rendered page
  have hpage : page = rendered.map Page.unmarked :=
    (result_formatElement ..).trans (attempt_unmarked hcompact hdebug e forest.size selector)
  have hexact (body : Bytes) (hbody : rendered = .ok body) : page = .ok body ↔ ¬ Page.HoldsMark body := by
    rw [hpage, hbody, ← Page.unmarked_eq_self_iff]
    exact ⟨Except.ok.inj, congrArg Except.ok⟩
  refine ⟨hpage, hexact, ?_, fun _ _ _ he h => rendered_document he h, ?_⟩
  · intro horigins he hfree
    rw [hpage]
    cases hbody : rendered with
    | error f => rfl
    | ok body =>
      have hclean := Page.unmarked_of_nullFree (rendered_nullFree horigins he hfree hbody)
      exact congrArg Except.ok hclean
  · rintro id t children d he hescape hproducers hdepth ⟨s', label, hchoose⟩ hd
    have htext : rendered = .ok t.value := by
      have htext : rendered = .ok (Render.text t) := rendered_text hproducers hdepth he (select_of_choose hchoose hd)
      rwa [Render.text, hescape] at htext
    refine ⟨?_, hexact _ htext⟩
    rw [hpage, htext]
    rfl

/-- Two texts that go on without a space; where they meet, there is a mark. -/
def margin : Forest :=
  ⟨#[{ content := .document, children := [1, 2] },
     { content := .text { value := "a\x00" }, parent := some 0 },
     { content := .text { value := "7\x01b", inline := true }, parent := some 0 }]⟩

/-- Each text is written as it is, and of both together the mark is taken out. -/
theorem margin_verbatim :
    (format { settings := {} } margin (some 1) (.named "html")).2.2 = .ok "a\x00" ∧
    (format { settings := {} } margin (some 2) (.named "html")).2.2 = .ok "7\x01b" ∧
    Page.HoldsMark "a\x007\x01b" ∧ (format { settings := {} } margin (some 0) (.named "html")).2.2 = .ok "ab" := by
  have hpage (root : NodeId) := @format_verbatim { settings := {} } rfl rfl margin root (.named "html")
  refine ⟨?_, ?_, by decide, ?_⟩
  · obtain ⟨-, -, -, -, htext⟩ := hpage 1
    exact (htext 1 _ [] Dialect.html rfl rfl rfl (by decide) ⟨_, _, rfl⟩ (by decide)).2.mpr (by decide)
  · obtain ⟨-, -, -, -, htext⟩ := hpage 2
    exact (htext 2 _ [] Dialect.html rfl rfl rfl (by decide) ⟨_, _, rfl⟩ (by decide)).2.mpr (by decide)
  · rw [(hpage 0).1]
    decide +kernel

/-- A text that reads as a mark is not written. -/
theorem mark_not_verbatim : ¬ ∀ (settings : Settings) (forest : Forest) (root : NodeId) (t : Forest.Text) (d : Dialect),
    settings.pretty = false → settings.debug = false → d ∈ Dialect.builtin → t.escape = false →
    forest.element root = .node root none (.text t) [] →
    (format { settings } forest (some root) (.dialect d)).2.2 = .ok t.value := by
  intro h
  have hpage := h {} ⟨#[{ content := .text { value := "\x001\x01" } }]⟩ 0 _ Dialect.html rfl rfl (by decide) rfl rfl
  revert hpage
  decide +kernel

end Session

end Stencil
