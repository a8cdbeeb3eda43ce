import Stencil.Proofs.Compile.Rollback
import Stencil.Proofs.Success

/-! Fragments on finished pages. Every mapping of a page tells the origin that the table has for its fragment, and a
page for debugging sets the current fragment once for each mapping, in their order. -/

namespace Stencil.Page

variable {patterns : Pattern.Table} {fragments : Array Origin} {p p' : Page} {s : Bytes} {ids : List Int}

def setter (id : Int) : Bytes := "$__pug_debug_id = " ++ Bytes.ofInt id ++ ";"

/-- The text has code for each of the fragments, one after the other, that makes it the current one. -/
inductive Sets (patterns : Pattern.Table) : Bytes → List Int → Prop
  | nil : Sets patterns [] []
  | byte {text : Bytes} {ids : List Int} (h : Sets patterns text ids) (c : UInt8) : Sets patterns (text ++ [c]) ids
  | fragment {text code : Bytes} {ids : List Int} (h : Sets patterns text ids) (id : Int)
      (hcode : Pattern.render patterns "php_handle_code" [setter id] = .ok code) :
      Sets patterns (text ++ code) (ids ++ [id])

theorem Sets.append (h : Sets patterns s ids) (t : Bytes) : Sets patterns (s ++ t) ids := by
  induction t generalizing s with
  | nil => rwa [List.append_nil]
  | cons c t ih =>
    have hnext := ih (h.byte c)
    rwa [List.append_assoc] at hnext

theorem text_writeByte (p : Page) (c : UInt8) : (p.writeByte c).text = p.text ++ [c] := by
  rw [writeByte]
  split <;> simp [text]

theorem mappings_writeByte (p : Page) (c : UInt8) : (p.writeByte c).mappings = p.mappings := by
  rw [writeByte]
  split <;> rfl

theorem text_write (p : Page) (s : Bytes) : (p.write s).text = p.text ++ s := by
  induction s generalizing p with
  | nil => exact (List.append_nil _).symm
  | cons c s ih => exact (ih (p.writeByte c)).trans (by rw [text_writeByte, List.append_assoc]; rfl)

theorem mappings_write (p : Page) (s : Bytes) : (p.write s).mappings = p.mappings := by
  induction s generalizing p with
  | nil => rfl
  | cons c s ih => exact (ih (p.writeByte c)).trans (mappings_writeByte p c)

/-- What a page holds while it is written: its mappings are fragments of the table, and when debugging its text sets
them. -/
structure Holds (debug : Bool) (patterns : Pattern.Table) (fragments : Array Origin) (p : Page) : Prop where
  origin : ∀ m ∈ p.mappings, fragment? fragments m.id = some m.origin
  sets : debug = true → Sets patterns p.text (p.mappings.reverse.map (·.id))

variable {debug : Bool}

theorem holds_empty : Holds debug patterns fragments {} := ⟨by simp, fun _ => .nil⟩

theorem Holds.write (h : Holds debug patterns fragments p) (s : Bytes) : Holds debug patterns fragments (p.write s) := by
  refine ⟨by rw [mappings_write]; exact h.origin, fun hdebug => ?_⟩
  rw [mappings_write, text_write]
  exact (h.sets hdebug).append s

theorem Holds.step {env : Environment} {site : Site} {segment : Segment}
    (h : Holds env.settings.debug env.patterns fragments p) (hrun : step env site fragments p segment = .ok p') :
    Holds env.settings.debug env.patterns fragments p' := by
  cases segment with
  | byte c =>
    obtain rfl : p.writeByte c = p' := Except.ok.inj hrun
    exact h.write [c]
  | fragment id =>
    rw [Page.step] at hrun
    split at hrun
    next =>
      obtain rfl : p = p' := Except.ok.inj hrun
      exact h
    next o ho =>
      have horigin : ∀ m ∈ (p.note id o).mappings, fragment? fragments m.id = some m.origin :=
        List.forall_mem_cons.mpr ⟨ho, h.origin⟩
      split at hrun
      next hdebug =>
        obtain ⟨code, hcode, hrun⟩ := bind_eq_ok hrun
        obtain rfl : (p.note id o).write code = p' := Except.ok.inj hrun
        refine ⟨by rw [mappings_write]; exact horigin, fun _ => ?_⟩
        rw [mappings_write, text_write, note, List.reverse_cons, List.map_append]
        exact (h.sets hdebug).fragment id (mapError_eq_ok hcode)
      next hdebug =>
        obtain rfl : p.note id o = p' := Except.ok.inj hrun
        exact ⟨horigin, fun h => absurd h hdebug⟩

theorem Holds.body {env : Environment} {site : Site} {rendered : Bytes}
    (h : Holds env.settings.debug env.patterns fragments p) (hrun : body env site fragments p rendered = .ok p') :
    Holds env.settings.debug env.patterns fragments p' :=
  foldlM_invariant (fun _ _ _ _ hp => hp.step) h hrun

end Page

namespace Rendering

variable {α β : Type} {m : Rendering α} {p q : Progress}

theorem bind_run_ok {k : α → Rendering β} {b : β} (h : (m >>= k).run p = (.ok b, q)) :
    ∃ a r, m.run p = (.ok a, r) ∧ (k a).run r = (.ok b, q) := by
  rw [run_bind] at h
  rcases hm : m.run p with ⟨f | a, r⟩
  · rw [hm] at h
    cases h
  · rw [hm] at h
    exact ⟨a, r, rfl, h⟩

theorem lift_run_ok {e : Except Failure α} {a : α} (h : (liftM e : Rendering α).run p = (.ok a, q)) :
    e = .ok a ∧ p = q := by
  cases e with
  | error f => cases h
  | ok b =>
    cases h
    exact ⟨rfl, rfl⟩

theorem require_run_ok {env : Environment} {site : Option Site} {name accessor : Bytes}
    (h : (require env site name).run p = (.ok accessor, q)) :
    name ∈ q.ledger.helpers.required ∧ q.ledger.fragments = p.ledger.fragments := by
  obtain ⟨-, ledger, hr, rfl⟩ := require_eq_ok h
  exact ⟨(Ledger.extends_require hr).2.2, (Ledger.extends_require hr).2.1⟩

end Rendering

open Rendering (bind_run_ok lift_run_ok require_run_ok)

/-- A page that is finished holds its fragments, and one for debugging has required the helper that reports errors. -/
theorem Render.page_holds {env : Environment} {site : Site} {body : Bytes} {page : Page} {p q : Progress}
    (h : (Render.page env site body).run p = (.ok page, q)) :
    page.Holds env.settings.debug env.patterns q.ledger.fragments ∧
      (env.settings.debug = true → ("debug_rethrow" : Bytes) ∈ q.ledger.helpers.required) := by
  rw [Render.page] at h
  obtain ⟨_, _, hget, h⟩ := bind_run_ok h
  cases hget
  dsimp only at h
  split at h
  next hdebug =>
    obtain ⟨opening, _, hopening, h⟩ := bind_run_ok h
    obtain ⟨-, rfl⟩ := lift_run_ok hopening
    obtain ⟨written, _, hwritten, h⟩ := bind_run_ok h
    obtain ⟨hbody, rfl⟩ := lift_run_ok hwritten
    obtain ⟨accessor, r, hrequire, h⟩ := bind_run_ok h
    obtain ⟨hrequired, hfragments⟩ := require_run_ok hrequire
    obtain ⟨closing, _, hclosing, h⟩ := bind_run_ok h
    obtain ⟨-, rfl⟩ := lift_run_ok hclosing
    cases h
    rw [hfragments]
    exact ⟨((Page.holds_empty.write opening).body hbody).write closing, fun _ => hrequired⟩
  next hdebug =>
    obtain ⟨hwritten, rfl⟩ := lift_run_ok h
    exact ⟨Page.holds_empty.body hwritten, fun h => absurd h hdebug⟩

theorem Render.finished_holds {env : Environment} {e : Element} {page : Page} {p q : Progress}
    (h : (Render.finished env e).run p = (.ok page, q)) :
    page.Holds env.settings.debug env.patterns q.ledger.fragments ∧
      (env.settings.debug = true → ("debug_rethrow" : Bytes) ∈ q.ledger.helpers.required) := by
  obtain ⟨body, r, -, hpage⟩ := bind_run_ok h
  exact Render.page_holds hpage

namespace Session

theorem attempt_cases (s : Session) (e : Element) (nextNode : NodeId) (selector : Selector) :
    (∃ s' f, s'.settings = s.settings ∧ s.attempt e nextNode selector = { session := s', result := .error f }) ∨
    ∃ l d forms fallback, s.attempt e nextNode selector =
      (installed { s with ledger := l } d forms).renderTree (s.environment e d fallback) e nextNode := by
  obtain ⟨l, -, r, -, -, hs, -⟩ := select_alike (akin_of_eq rfl : s.Akin s) e selector
  rw [attempt, hs]
  cases r with
  | error f => exact .inl ⟨{ s with ledger := l }, f, rfl, rfl⟩
  | ok d =>
    obtain ⟨update, r, -, hs, -⟩ := @install_congr { s with ledger := l } { s with ledger := l } d (fun _ _ => rfl) e
    dsimp only
    rw [hs]
    cases r with
    | error f => exact .inl ⟨installed { s with ledger := l } d (update s.forms), f, rfl, rfl⟩
    | ok fallback => exact .inr ⟨l, d, _, fallback, rfl⟩

theorem attempt_settings (s : Session) (e : Element) (nextNode : NodeId) (selector : Selector) :
    (s.attempt e nextNode selector).session.settings = s.settings := by
  rcases s.attempt_cases e nextNode selector with ⟨s', f, hsettings, h⟩ | ⟨l, d, forms, fallback, h⟩
  · rw [h]
    exact hsettings
  · obtain ⟨k, m, -, hs, -⟩ := renderTree_eq (installed { s with ledger := l } d forms) (s.environment e d fallback) e
      nextNode
    rw [h, hs]
    rfl

theorem attempt_holds {s : Session} {e : Element} {nextNode : NodeId} {selector : Selector} {text : Bytes}
    (h : (s.attempt e nextNode selector).result = .ok text) :
    ∃ page : Page, page.text = text ∧
      (s.attempt e nextNode selector).session.sourceMap = some (page.sourceMap s.settings.sourceFile) ∧
      page.Holds s.settings.debug (s.attempt e nextNode selector).session.patterns
        (s.attempt e nextNode selector).session.ledger.fragments ∧
      (s.settings.debug = true →
        ("debug_rethrow" : Bytes) ∈ (s.attempt e nextNode selector).session.ledger.helpers.required) := by
  rcases s.attempt_cases e nextNode selector with ⟨s', f, -, hattempt⟩ | ⟨l, d, forms, fallback, hattempt⟩
  · rw [hattempt] at h
    cases h
  · obtain ⟨k, m, hsame, hs, hmap⟩ := renderTree_eq (installed { s with ledger := l } d forms)
      (s.environment e d fallback) e nextNode
    rw [hattempt, hs] at h ⊢
    rcases hrun : (Render.finished (s.environment e d fallback) e).run { ledger := l, nextNode } with ⟨f | page, q⟩
    · rw [show (installed { s with ledger := l } d forms).ledger = l from rfl, hrun] at h
      cases h
    · rw [show (installed { s with ledger := l } d forms).ledger = l from rfl, hrun] at h hsame hmap
      obtain ⟨hholds, hrequired⟩ := Render.finished_holds hrun
      refine ⟨page, Except.ok.inj h, hmap page rfl, ?_, ?_⟩
      · rw [← hsame.fragments]
        exact hholds
      · rw [← hsame.helpers]
        exact hrequired

end Session

theorem Page.isSome_fragment? (fragments : Array Origin) (id : Int) :
    (Page.fragment? fragments id).isSome ↔ 1 ≤ id ∧ id ≤ fragments.size := by
  rw [Page.fragment?]
  split
  · simp only [Option.isSome_none, Bool.false_eq_true, false_iff]
    omega
  · rw [isSome_getElem?]
    omega

theorem Page.fragment?_of_prefix {fragments fragments' : Array Origin} (h : fragments.toList <+: fragments'.toList)
    {id : Int} {o : Origin} (ho : Page.fragment? fragments id = some o) : Page.fragment? fragments' id = some o := by
  rw [Page.fragment?] at ho ⊢
  split at ho
  · cases ho
  · rw [if_neg (by assumption)]
    rw [← Array.getElem?_toList] at ho ⊢
    obtain ⟨hlt, rfl⟩ := List.getElem?_eq_some_iff.mp ho
    obtain ⟨rest, hrest⟩ := h
    rw [← hrest, List.getElem?_append_left hlt, List.getElem?_eq_getElem hlt]

end Stencil
