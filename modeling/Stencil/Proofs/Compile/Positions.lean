import Stencil.Proofs.Compile.Independence
import Stencil.Proofs.Compile.Layout

/-! Positions on a finished page. Every mark of a rendered text is noted at the line and column of the end of what stands
before it, as that shows on the page: with code in place of the marks before it when debugging, and without the line
break at the start of a pretty page. -/

namespace Stencil

namespace Page

/-- The line and the column where a text ends. -/
def position (s : Bytes) : Nat × Nat :=
  (s.count Ascii.newline, (s.reverse.takeWhile (· != Ascii.newline)).length)

theorem position_snoc (s : Bytes) (c : UInt8) :
    position (s ++ [c]) =
      if c == Ascii.newline then ((position s).1 + 1, 0) else ((position s).1, (position s).2 + 1) := by
  rw [position, List.count_append, List.reverse_append, List.reverse_singleton, List.singleton_append]
  split
  next h =>
    rw [eq_of_beq h]
    simp [position]
  next h =>
    have hc : c ≠ Ascii.newline := by simpa using h
    simp [position, hc]

theorem position_le_of_prefix {s t : Bytes} (h : s <+: t) :
    SourceMap.atOrBefore (position s).1 (position s).2 (position t).1 (position t).2 := by
  obtain ⟨rest, rfl⟩ := h
  induction rest using List.reverseRecOn with
  | nil => simp [SourceMap.atOrBefore]
  | append_singleton rest c ih =>
    rw [← List.append_assoc, position_snoc]
    simp only [SourceMap.atOrBefore, Bool.or_eq_true, Bool.and_eq_true, decide_eq_true_eq, beq_iff_eq] at ih ⊢
    split <;> omega

/-- Behind a whole number of lines, the lines add up and the column stays. -/
theorem position_append {lines : Bytes} (h : lines = [] ∨ ∃ s, lines = s ++ [Ascii.newline]) (s : Bytes) :
    position (lines ++ s) = (lines.count Ascii.newline + (position s).1, (position s).2) := by
  rcases h with rfl | ⟨front, rfl⟩
  · simp [position]
  · rw [position, List.count_append, List.reverse_append, List.takeWhile_append]
    split
    next hall =>
      have hlines : (front ++ [Ascii.newline]).reverse.takeWhile (· != Ascii.newline) = [] := by simp
      rw [hlines, List.append_nil, ← hall]
      rfl
    next => rfl

def Tracks (p : Page) : Prop := (p.line, p.column) = position p.text

theorem tracks_empty : Tracks {} := rfl

theorem Tracks.writeByte {p : Page} (h : p.Tracks) (c : UInt8) : (p.writeByte c).Tracks := by
  rw [Tracks, text_writeByte, position_snoc, ← (h : _ = position p.text), Page.writeByte]
  split <;> rfl

theorem Tracks.write {p : Page} (h : p.Tracks) (s : Bytes) : (p.write s).Tracks := by
  induction s generalizing p with
  | nil => exact h
  | cons c s ih => exact ih (h.writeByte c)

def code (s : Bytes) : Bytes := "<?php " ++ s ++ " ?>"

/-- What stands in place of the mark of a fragment. -/
def marker (debug : Bool) (id : Int) : Bytes := if debug then code (setter id) else []

/-- How a rendered text shows on the page, if it starts while `leading` and ends while `leading'`: each mark leaves its
marker, and the first byte is left out if it is a line break and the text is leading. -/
inductive Shows (debug : Bool) : (leading : Bool) → Bytes → (leading' : Bool) → Bytes → Prop
  | nil (leading : Bool) : Shows debug leading [] leading []
  | dropped {leading' : Bool} {s t : Bytes} (h : Shows debug false s leading' t) :
      Shows debug true (Ascii.newline :: s) leading' t
  | byte {leading leading' : Bool} {c : UInt8} {s t : Bytes} (hc : c ≠ 0) (hkept : leading = true → c ≠ Ascii.newline)
      (h : Shows debug false s leading' t) : Shows debug leading (c :: s) leading' (c :: t)
  | mark {leading leading' : Bool} (id : Nat) {s t : Bytes} (h : Shows debug leading s leading' t) :
      Shows debug leading (mark id ++ s) leading' (marker debug id ++ t)

/-- What a segment leaves on the page, if its fragment is known. -/
def Segment.shown (debug : Bool) : Segment → Bytes
  | .byte c => [c]
  | .fragment id => marker debug id

def shown (debug : Bool) (ss : List Segment) : Bytes := ss.flatMap (Segment.shown debug)

def kept (leading : Bool) (ss : List Segment) : List Segment := if leading then dropLeadingBreak ss else ss

/-- The fragments among segments, each with the segments before it. -/
def cuts : List Segment → List (Int × List Segment)
  | [] => []
  | .byte c :: ss => (cuts ss).map fun x => (x.1, .byte c :: x.2)
  | .fragment id :: ss => (id, []) :: (cuts ss).map fun x => (x.1, .fragment id :: x.2)

theorem shown_cons (debug : Bool) (a : Segment) (ss : List Segment) : shown debug (a :: ss) = a.shown debug ++ shown debug ss :=
  List.flatMap_cons

theorem shown_append (debug : Bool) (ss ts : List Segment) : shown debug (ss ++ ts) = shown debug ss ++ shown debug ts :=
  List.flatMap_append

theorem cuts_append (ss ts : List Segment) : cuts (ss ++ ts) = cuts ss ++ (cuts ts).map fun x => (x.1, ss ++ x.2) := by
  induction ss with
  | nil => simp [cuts]
  | cons a ss ih => cases a <;> simp [cuts, ih, Function.comp_def]

theorem cuts_ordered (ss : List Segment) : (cuts ss).Pairwise fun x y => x.2 <+: y.2 := by
  induction ss with
  | nil => exact .nil
  | cons a ss ih =>
    have hmap : ((cuts ss).map fun x => (x.1, a :: x.2)).Pairwise fun x y => x.2 <+: y.2 := by
      rw [List.pairwise_map]
      exact ih.imp fun h => (List.prefix_cons_inj a).mpr h
    cases a with
    | byte c => exact hmap
    | fragment id => exact .cons (fun _ _ => List.nil_prefix) hmap

theorem kept_fragment (leading : Bool) (id : Int) (ss : List Segment) :
    kept leading (.fragment id :: ss) = .fragment id :: kept leading ss := by
  unfold kept
  split <;> rfl

theorem kept_byte {leading : Bool} {c : UInt8} (h : leading = true → c ≠ Ascii.newline) (ss : List Segment) :
    kept leading (.byte c :: ss) = .byte c :: ss := by
  unfold kept
  split
  next hleading =>
    rw [dropLeadingBreak, if_neg]
    simpa using h hleading
  next => rfl

theorem cuts_kept (leading : Bool) (ss : List Segment) :
    cuts (kept leading ss) = (cuts ss).map fun x => (x.1, kept leading x.2) := by
  induction ss with
  | nil => cases leading <;> rfl
  | cons a ss ih =>
    cases a with
    | fragment id =>
      rw [kept_fragment, cuts, cuts, ih]
      cases leading <;> simp [kept, dropLeadingBreak, Function.comp_def]
    | byte c =>
      by_cases hkept : leading = true → c ≠ Ascii.newline
      · rw [kept_byte hkept, cuts]
        simp only [List.map_map, Function.comp_def, kept_byte hkept]
      · obtain ⟨rfl, rfl⟩ : leading = true ∧ c = Ascii.newline := by simpa using hkept
        simp [kept, dropLeadingBreak, cuts, Function.comp_def]

theorem segments_cons_of_ne {c : UInt8} (hc : c ≠ 0) (s : Bytes) : segments (c :: s) = .byte c :: segments s := by
  have hopen : ¬ (c == markOpen) = true := fun h => hc (eq_of_beq h)
  rw [segments_cons, mark?, if_neg hopen]

theorem segments_mark_small {id : Nat} (hid : id < 2 ^ 63) (s : Bytes) :
    segments (mark id ++ s) = .fragment id :: segments s := by
  rw [segments_mark, Int64.toInt_ofNat_of_lt hid]

/-- A text of marks and bytes that are no part of marks. -/
inductive Marked : Bytes → Prop
  | nil : Marked []
  | byte {c : UInt8} {s : Bytes} (hc : c ≠ 0) (h : Marked s) : Marked (c :: s)
  | mark {id : Nat} {s : Bytes} (hid : id < 2 ^ 63) (h : Marked s) : Marked (mark id ++ s)

namespace Marked

variable {s t : Bytes}

theorem append (hs : Marked s) (ht : Marked t) : Marked (s ++ t) := by
  induction hs with
  | nil => exact ht
  | byte hc _ ih => exact .byte hc ih
  | mark hid _ ih =>
    rw [List.append_assoc]
    exact .mark hid ih

theorem segments_append (h : Marked s) (t : Bytes) : segments (s ++ t) = segments s ++ segments t := by
  induction h with
  | nil => rfl
  | byte hc _ ih => rw [List.cons_append, segments_cons_of_ne hc, segments_cons_of_ne hc, ih, List.cons_append]
  | mark hid _ ih =>
    rw [List.append_assoc, segments_mark_small hid, segments_mark_small hid, ih, List.cons_append]

/-- The segments of a marked text show what the text does, and leave a line break behind it as they should. -/
theorem shows (h : Marked s) (debug leading : Bool) :
    ∃ leading', Shows debug leading s leading' (shown debug (kept leading (segments s))) ∧
      ∀ ss, kept leading (segments s ++ ss) = kept leading (segments s) ++ kept leading' ss := by
  induction h generalizing leading with
  | nil =>
    refine ⟨leading, ?_, fun ss => ?_⟩
    · cases leading <;> exact .nil _
    · cases leading <;> rfl
  | @byte c s hc _ ih =>
    -- Any byte ends the lead, so that at most this one is left out.
    obtain ⟨leading', hshows, hkept⟩ := ih false
    rw [segments_cons_of_ne hc]
    refine ⟨leading', ?_, fun ss => ?_⟩
    · by_cases hleading : leading = true → c ≠ Ascii.newline
      · rw [kept_byte hleading]
        exact .byte hc hleading hshows
      · obtain ⟨rfl, rfl⟩ : leading = true ∧ c = Ascii.newline := by simpa using hleading
        exact .dropped hshows
    · by_cases hleading : leading = true → c ≠ Ascii.newline
      · rw [List.cons_append, kept_byte hleading, kept_byte hleading]
        exact congrArg _ (hkept ss)
      · obtain ⟨rfl, rfl⟩ : leading = true ∧ c = Ascii.newline := by simpa using hleading
        exact hkept ss
  | @mark id s hid _ ih =>
    obtain ⟨leading', hshows, hkept⟩ := ih leading
    rw [segments_mark_small hid]
    refine ⟨leading', ?_, fun ss => ?_⟩
    · rw [kept_fragment]
      exact .mark id hshows
    · rw [List.cons_append, kept_fragment, kept_fragment, hkept, List.cons_append]

end Marked

end Page

def Environment.HandlesCode (env : Environment) : Prop :=
  ∀ arg text, Pattern.render env.patterns "php_handle_code" [arg] = .ok text → text = Page.code arg

/-- The mapping is that of the fragment, at the position where the text ends. -/
structure Mapping.Notes (fragments : Array Origin) (text : Bytes) (fragment : Int) (m : Mapping) : Prop where
  id : m.id = fragment
  origin : Page.fragment? fragments fragment = some m.origin
  line : m.outputLine = (Page.position text).1
  column : m.outputColumn = (Page.position text).2

namespace Page

section Steps

variable {env : Environment} {site : Site} {fragments : Array Origin} {p q : Page} (hcode : env.HandlesCode)
include hcode

theorem step_notes {id : Int} (hid : (fragment? fragments id).isSome) (hp : p.Tracks)
    (h : step env site fragments p (.fragment id) = .ok q) :
    q.Tracks ∧ q.text = p.text ++ Segment.shown env.settings.debug (.fragment id) ∧
      ∃ m, m.Notes fragments p.text id ∧ q.mappings = m :: p.mappings := by
  obtain ⟨o, ho⟩ := Option.isSome_iff_exists.mp hid
  have hposition : p.line = (position p.text).1 ∧ p.column = (position p.text).2 := Prod.mk.inj hp
  have hnotes : Mapping.Notes fragments p.text id ⟨id, p.line, p.column, o.file, o.line, o.offset⟩ :=
    ⟨rfl, ho, congrArg _ hposition.1, congrArg _ hposition.2⟩
  have hnoted : (p.note id o).Tracks := hp
  rw [step, ho] at h
  dsimp only at h
  split at h
  next hdebug =>
    obtain ⟨text, htext, h⟩ := bind_eq_ok h
    obtain rfl : (p.note id o).write text = q := Except.ok.inj h
    refine ⟨hnoted.write text, ?_, _, hnotes, mappings_write ..⟩
    rw [text_write, hcode _ text (mapError_eq_ok htext), Segment.shown, marker, if_pos hdebug]
    rfl
  next hdebug =>
    obtain rfl : p.note id o = q := Except.ok.inj h
    refine ⟨hnoted, ?_, _, hnotes, rfl⟩
    rw [Segment.shown, marker, if_neg hdebug, List.append_nil]
    rfl

/-- A run over segments shows them all, and notes each fragment where the segments before it end. -/
theorem foldlM_step_notes {ss : List Segment} (hss : ∀ x ∈ cuts ss, (fragment? fragments x.1).isSome)
    (hp : p.Tracks) (h : ss.foldlM (step env site fragments) p = .ok q) :
    q.Tracks ∧ q.text = p.text ++ shown env.settings.debug ss ∧ ∃ ms, q.mappings = ms.reverse ++ p.mappings ∧
      List.Forall₂ (fun m x => m.Notes fragments (p.text ++ shown env.settings.debug x.2) x.1) ms (cuts ss) := by
  induction ss generalizing p with
  | nil =>
    obtain rfl : p = q := Except.ok.inj h
    exact ⟨hp, (List.append_nil _).symm, [], rfl, .nil⟩
  | cons a ss ih =>
    rw [List.foldlM_cons] at h
    obtain ⟨r, hstep, hrun⟩ := bind_eq_ok h
    cases a with
    | byte c =>
      have hrest := List.forall_mem_map.mp hss
      obtain rfl : p.writeByte c = r := Except.ok.inj hstep
      obtain ⟨hq, htext, ms, hms, hnotes⟩ := ih hrest (hp.writeByte c) hrun
      rw [text_writeByte] at htext hnotes
      refine ⟨hq, by rw [htext, shown_cons, List.append_assoc]; rfl, ms, by rw [hms, mappings_writeByte], ?_⟩
      rw [cuts, List.forall₂_map_right_iff]
      simpa only [shown_cons, Segment.shown, List.append_assoc] using hnotes
    | fragment id =>
      obtain ⟨hid, hrest⟩ := List.forall_mem_cons.mp hss
      have hrest := List.forall_mem_map.mp hrest
      obtain ⟨hr, htext', m, hm, hmappings⟩ := step_notes hcode hid hp hstep
      obtain ⟨hq, htext, ms, hms, hnotes⟩ := ih hrest hr hrun
      rw [htext'] at htext hnotes
      refine ⟨hq, by rw [htext, shown_cons, List.append_assoc], m :: ms, by rw [hms, hmappings]; simp, ?_⟩
      rw [cuts]
      refine .cons (by simpa [shown] using hm) ?_
      rw [List.forall₂_map_right_iff]
      simpa only [shown_cons, List.append_assoc] using hnotes

end Steps

end Page

theorem map_eq_of_forall₂ {α β γ : Type} {f : α → γ} {g : β → γ} {as : List α} {bs : List β}
    (h : List.Forall₂ (fun a b => f a = g b) as bs) : as.map f = bs.map g := by
  induction h with
  | nil => rfl
  | cons hab _ ih => rw [List.map_cons, List.map_cons, hab, ih]

/-- Mappings that are noted one after the other stand in the order of the page. -/
theorem Mapping.Notes.ordered {fragments : Array Origin} {lead : Bytes} {debug : Bool} {ms : List Mapping}
    {ss : List Page.Segment}
    (h : List.Forall₂ (fun m x => m.Notes fragments (lead ++ Page.shown debug x.2) x.1) ms (Page.cuts ss)) :
    ms.Pairwise fun m m' => SourceMap.atOrBefore m.outputLine m.outputColumn m'.outputLine m'.outputColumn := by
  have hplaces : ms.map (fun m => (m.outputLine, m.outputColumn)) = (Page.cuts ss).map fun x =>
      (((Page.position (lead ++ Page.shown debug x.2)).1 : Int), ((Page.position (lead ++ Page.shown debug x.2)).2 : Int)) :=
    map_eq_of_forall₂ (h.imp fun m x hm => by rw [hm.line, hm.column])
  have hordered : (ms.map fun m => (m.outputLine, m.outputColumn)).Pairwise fun a b =>
      SourceMap.atOrBefore a.1 a.2 b.1 b.2 := by
    rw [hplaces, List.pairwise_map]
    refine (Page.cuts_ordered ss).imp fun {x y} hxy => Page.position_le_of_prefix ?_
    obtain ⟨rest, hrest⟩ := hxy
    rw [← hrest, Page.shown_append, ← List.append_assoc]
    exact List.prefix_append _ _
  exact List.pairwise_map.mp hordered

open Page (segments cuts)

theorem Lays.marked {env : Environment} {t : Bytes} {spots : List Spot} (h : Lays env t spots)
    (hsmall : ∀ s ∈ spots, s.id < 2 ^ 63) : Page.Marked t := by
  induction h with
  | nil => exact .nil
  | byte hc _ ih => exact .byte hc (ih hsmall)
  | spot _ _ _ ihrest ih =>
    obtain ⟨hid, hbelow⟩ := List.forall_mem_cons.mp hsmall
    obtain ⟨hinner, hspots⟩ := List.forall_mem_append.mp hbelow
    exact .mark hid ((ihrest hinner).append (ih hspots))

/-- The text is cut at the mark of the spot: the fragment is the spot's, and the segments before it are those of the text
before the mark. -/
structure Spot.Cuts (t : Bytes) (s : Spot) (x : Int × List Page.Segment) (before after : Bytes) : Prop where
  id : x.1 = s.id
  text : t = before ++ (Page.mark s.id ++ (s.rest ++ after))
  segments : x.2 = segments before
  before : Page.Marked before
  own : Page.Marked (Page.mark s.id ++ s.rest)

theorem Lays.cuts_spots {env : Environment} {t : Bytes} {spots : List Spot} (h : Lays env t spots)
    (hsmall : ∀ s ∈ spots, s.id < 2 ^ 63) :
    List.Forall₂ (fun s x => ∃ before after, s.Cuts t x before after) spots (cuts (segments t)) := by
  induction h with
  | nil => exact .nil
  | @byte c s spots hc _ ih =>
    rw [Page.segments_cons_of_ne hc, cuts, List.forall₂_map_right_iff]
    refine (ih hsmall).imp fun spot x hcut => ?_
    obtain ⟨before, after, hcut⟩ := hcut
    refine ⟨c :: before, after, hcut.id, congrArg _ hcut.text, ?_, .byte hc hcut.before, hcut.own⟩
    rw [Page.segments_cons_of_ne hc, hcut.segments]
  | @spot spot s inner spots _ hrest h ihrest ih =>
    obtain ⟨hid, hbelow⟩ := List.forall_mem_cons.mp hsmall
    obtain ⟨hinner, hspots⟩ := List.forall_mem_append.mp hbelow
    have hmarked := hrest.marked hinner
    have hsegments (u : Bytes) : segments (Page.mark spot.id ++ (spot.rest ++ u)) =
        .fragment spot.id :: (segments spot.rest ++ segments u) := by
      rw [Page.segments_mark_small hid, hmarked.segments_append]
    rw [hsegments, cuts, Page.cuts_append, List.map_append, List.map_map]
    refine .cons ⟨[], s, rfl, rfl, rfl, .nil, .mark hid hmarked⟩ (List.rel_append ?_ ?_)
    · -- A spot inside: the mark of this one stands before it, and what follows this one after it.
      rw [List.forall₂_map_right_iff]
      refine (ihrest hinner).imp fun below x hcut => ?_
      obtain ⟨before, after, hcut⟩ := hcut
      refine ⟨Page.mark spot.id ++ before, after ++ s, hcut.id, ?_, ?_, .mark hid hcut.before, hcut.own⟩
      · rw [hcut.text]
        simp only [List.append_assoc]
      · rw [Page.segments_mark_small hid, hcut.segments]
    · rw [List.forall₂_map_right_iff]
      refine (ih hspots).imp fun below x hcut => ?_
      obtain ⟨before, after, hcut⟩ := hcut
      refine ⟨Page.mark spot.id ++ (spot.rest ++ before), after, hcut.id, ?_, ?_, ?_, hcut.own⟩
      · rw [hcut.text]
        simp only [List.append_assoc]
      · rw [hsegments, ← hcut.segments]
        rfl
      · exact .mark hid (hmarked.append hcut.before)

/-- What the spot shows follows what the text before its mark does. -/
theorem Spot.Cuts.shown {t before after : Bytes} {s : Spot} {x : Int × List Page.Segment} (h : s.Cuts t x before after)
    (debug leading : Bool) : ∃ leading₁ leading₂ own tail,
      Page.Shows debug leading before leading₁ (Page.shown debug (Page.kept leading x.2)) ∧
      Page.Shows debug leading₁ (Page.mark s.id ++ s.rest) leading₂ own ∧
      Page.shown debug (Page.kept leading (Page.segments t)) =
        Page.shown debug (Page.kept leading x.2) ++ (own ++ tail) := by
  obtain ⟨leading₁, hbefore, hsplit⟩ := h.before.shows debug leading
  obtain ⟨leading₂, hown, hsplit'⟩ := h.own.shows debug leading₁
  refine ⟨leading₁, leading₂, _, Page.shown debug (Page.kept leading₂ (Page.segments after)), h.segments ▸ hbefore, hown, ?_⟩
  have hsegments : Page.segments t =
      Page.segments before ++ (Page.segments (Page.mark s.id ++ s.rest) ++ Page.segments after) := by
    rw [h.text, h.before.segments_append, ← List.append_assoc (Page.mark s.id), h.own.segments_append]
  rw [hsegments, hsplit, hsplit', Page.shown_append, Page.shown_append, h.segments]

end Stencil
