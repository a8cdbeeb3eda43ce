import Stencil.Proofs.Compile.Seams
import Stencil.Proofs.Literal.Denotation
import Stencil.Proofs.Token.Extent

/-! How a page is read: as markup up to `<?php` or `<?=`, and from there on as code up to `?>`. Texts put together keep the
modes they are read in, as long as no bracket runs over the end of one of them. Marks keep them too, whatever is put in
their place that leaves markup as markup. -/

namespace Stencil

structure Bytes.Tagless (s : Bytes) : Prop where
  nullFree : s.NullFree
  less : Ascii.less ∉ s
  closing : ¬ [Ascii.question, Ascii.greater] <:+: s

/-- Code without brackets of code which denotes no null byte, if it is a literal. -/
structure Literal.Tagless (src : Bytes) : Prop where
  source : src.Tagless
  value : ∀ v, evaluate src = some v → v.NullFree

/-- Texts that neither open nor close code. -/
def Bytewise.tagless : Bytewise where
  ok c := c ≠ 0 ∧ c ≠ Ascii.less
  joins c d := c ≠ Ascii.question ∨ d ≠ Ascii.greater
  ok_of hzero hless := ⟨hzero, hless⟩
  joins_of h := h

/-- The same with null bytes, which escapes may bring into a constant. -/
def Bytewise.nullable : Bytewise where
  ok c := c ≠ Ascii.less
  joins := tagless.joins
  ok_of _ hless := hless
  joins_of := tagless.joins_of

def Texture.tagless : Texture := Bytewise.tagless.texture

theorem Texture.holds_tagless {s : Bytes} : Texture.tagless.Holds s ↔ s.Tagless := by
  constructor
  · rintro ⟨hok, hchain⟩
    refine ⟨fun hzero => (hok 0 hzero).1 rfl, fun hless => (hok _ hless).2 rfl, fun hclosing => ?_⟩
    have hjoins := hchain.infix hclosing
    simp [Bytewise.tagless] at hjoins
  · rintro ⟨hfree, hless, hclosing⟩
    refine ⟨fun c hc => ⟨fun heq => hfree (heq ▸ hc), fun heq => hless (heq ▸ hc)⟩, ?_⟩
    refine (List.isChain_isInfix s).imp fun c d hwithin => ?_
    by_contra hnot
    obtain ⟨rfl, rfl⟩ := not_or.mp hnot |>.imp not_not.mp not_not.mp
    exact hclosing hwithin

theorem Texture.holds_tagless_eq : Texture.tagless.Holds = Bytes.Tagless := funext fun _ => propext holds_tagless

theorem Literal.Tagless.each {src : Bytes} (h : Literal.Tagless src) {v : Value} (hv : evaluate src = some v) :
    v.Each Texture.tagless.Holds := by
  have htagless : Bytewise.tagless.Holds src := Texture.holds_tagless.mpr h.source
  have hsource : Bytewise.nullable.Holds src := ⟨fun c hc => (htagless.1 c hc).2, htagless.2⟩
  have hvalue : v.Each Bytewise.nullable.Holds := each_evaluate (show (0 : UInt8) ≠ Ascii.less by decide) hsource hv
  refine hvalue.both (fun s hs hfree => ?_) (Value.each_nullFree.mpr (h.value v hv))
  exact ⟨fun c hc => ⟨hfree.1 c hc, hs.1 c hc⟩, hs.2⟩

namespace Page

inductive Mode where
  | markup
  | code
deriving DecidableEq, Repr

/-- The mode at the end of a text that is read in a mode from its start; there is none if code is opened inside code. A
bracket is known at its first byte, and no other one starts before its end. -/
def scan : Mode → Bytes → Option Mode
  | mode, [] => some mode
  | .markup, c :: s =>
    scan (if Bytes.startsWith "<?php" (c :: s) || Bytes.startsWith "<?=" (c :: s) then .code else .markup) s
  | .code, c :: s =>
    if Bytes.startsWith "<?" (c :: s) then none
    else scan (if Bytes.startsWith "?>" (c :: s) then .markup else .code) s

/-- Code is opened in markup only, and closed again each time. -/
def Alternates (s : Bytes) : Prop := scan .markup s = some .markup

instance (s : Bytes) : Decidable (Alternates s) := inferInstanceAs (Decidable (_ = _))

/-- Read in the first mode, the text ends in the second one, whatever follows. -/
def Turns (m m' : Mode) (s : Bytes) : Prop := ∀ t, scan m (s ++ t) = scan m' t

variable {m m' m'' : Mode} {s t : Bytes} {c d : UInt8}

theorem turns_nil : Turns m m [] := fun _ => rfl

theorem Turns.append (hs : Turns m m' s) (ht : Turns m' m'' t) : Turns m m'' (s ++ t) := by
  intro u
  rw [List.append_assoc, hs, ht]

theorem Turns.alternates (h : Turns .markup .markup s) : Alternates s := by
  have hend := h []
  rwa [List.append_nil] at hend

theorem scan_markup_cons (h : c = Ascii.less → s.head? ≠ some Ascii.question) :
    scan .markup (c :: s) = scan .markup s := by
  rw [scan, if_neg]
  intro hopen
  rcases Bool.or_eq_true_iff.mp hopen with hopen | hopen
  all_goals
    obtain ⟨rest, hrest⟩ := Bytes.startsWith_eq_true.mp hopen
    obtain ⟨rfl, rfl⟩ := List.cons.inj hrest
    exact h rfl rfl

theorem scan_code_cons (hless : c ≠ Ascii.less) (h : c = Ascii.question → s.head? ≠ some Ascii.greater) :
    scan .code (c :: s) = scan .code s := by
  rw [scan, if_neg, if_neg]
  all_goals
    intro hbracket
    obtain ⟨rest, hrest⟩ := Bytes.startsWith_eq_true.mp hbracket
    obtain ⟨rfl, rfl⟩ := List.cons.inj hrest
  · exact h rfl rfl
  · exact hless rfl

theorem turns_markup (h : Ascii.less ∉ s) : Turns .markup .markup s := by
  intro t
  induction s with
  | nil => rfl
  | cons c s ih =>
    rw [List.mem_cons, not_or] at h
    rw [List.cons_append, scan_markup_cons fun heq => absurd heq.symm h.1]
    exact ih h.2

/-- Code without brackets goes on behind its end, unless a bracket may start with its last byte. -/
theorem turns_code (h : Bytewise.tagless.Holds s) (hlast : s.getLast? ≠ some Ascii.question) : Turns .code .code s := by
  intro t
  induction s with
  | nil => rfl
  | cons c s ih =>
    obtain ⟨⟨-, hless⟩, hjoins, hs⟩ := Bytewise.holds_cons.mp h
    cases s with
    | nil =>
      refine scan_code_cons hless fun hquestion => absurd ?_ hlast
      rw [hquestion]
      rfl
    | cons d s =>
      rw [List.cons_append, scan_code_cons hless fun hquestion => ?_]
      · exact ih hs (by rwa [List.getLast?_cons_cons] at hlast)
      · rintro hgreater
        exact (hjoins d rfl).elim (fun hne => hne hquestion) fun hne => hne (Option.some.inj hgreater)

theorem Turns.less (h : Turns .markup m s) (hne : s ≠ []) (hhead : s.head? ≠ some Ascii.question) :
    Turns .markup m (Ascii.less :: s) := by
  intro t
  rw [List.cons_append, scan_markup_cons fun _ => ?_, h]
  rwa [List.head?_append_of_ne_nil s hne]

theorem turns_php : Turns .markup .code "<?php " := fun _ => rfl

theorem turns_display : Turns .markup .code "<?= " := fun _ => rfl

theorem turns_closing : Turns .code .markup " ?>" := fun _ => rfl

theorem turns_end (h : Texture.tagless.Holds s) : Turns .code .markup (s ++ " ?>") := by
  have hspace : Turns .code .code (s ++ [Ascii.space]) :=
    turns_code (h.trail (by decide)) (by simp [Ascii.space, Ascii.question])
  have hend : Turns .code .markup "?>" := fun _ => rfl
  have hboth := hspace.append hend
  rwa [List.append_assoc] at hboth

/-- What a segment leaves where the mark of a fragment is painted over. -/
def Segment.painted (paint : Int → Bytes) : Segment → Bytes
  | .byte c => [c]
  | .fragment id => paint id

def painted (paint : Int → Bytes) (ss : List Segment) : Bytes := ss.flatMap (Segment.painted paint)

variable {paint : Int → Bytes}

theorem painted_append (ss ts : List Segment) : painted paint (ss ++ ts) = painted paint ss ++ painted paint ts :=
  List.flatMap_append

theorem painted_of_nullFree (h : s.NullFree) : painted paint (segments s) = s := by
  induction s with
  | nil => rfl
  | cons c s ih =>
    obtain ⟨hc, hs⟩ := Bytes.nullFree_cons.mp h
    rw [segments_cons_of_ne hc]
    exact congrArg (c :: ·) (ih hs)

/-- A rendered text that is read so, with its marks painted over. -/
structure Reads (paint : Int → Bytes) (m m' : Mode) (s : Bytes) : Prop where
  closed : Closed s
  turns : Turns m m' (painted paint (segments s))

/-- A rendered text that is markup from its start to its end. -/
abbrev Whole (paint : Int → Bytes) : Bytes → Prop := Reads paint .markup .markup

namespace Reads

theorem of_turns (hfree : s.NullFree) (h : Turns m m' s) : Reads paint m m' s :=
  ⟨closed_of_nullFree hfree, (painted_of_nullFree hfree).symm ▸ h⟩

theorem append (hs : Reads paint m m' s) (ht : Reads paint m' m'' t) : Reads paint m m'' (s ++ t) := by
  refine ⟨hs.closed.append ht.closed, ?_⟩
  rw [hs.closed, painted_append]
  exact hs.turns.append ht.turns

theorem mark (hpaint : ∀ id, Turns .markup .markup (paint id)) (id : Nat) : Reads paint .markup .markup (mark id) := by
  have hmark := segments_mark id []
  rw [List.append_nil] at hmark
  refine ⟨closed_mark id, ?_⟩
  rw [hmark]
  exact (hpaint _).append turns_nil

end Reads

theorem scan_dropLeadingBreak (hpaint : ∀ id, Turns .markup .markup (paint id)) (ss : List Segment) (t : Bytes) :
    scan .markup (painted paint (dropLeadingBreak ss) ++ t) = scan .markup (painted paint ss ++ t) := by
  induction ss with
  | nil => rfl
  | cons segment ss ih =>
    cases segment with
    | byte c =>
      rw [dropLeadingBreak]
      split
      next hbreak =>
        rw [eq_of_beq hbreak]
        exact (scan_markup_cons fun heq => absurd heq (by decide)).symm
      next => rfl
    | fragment id =>
      have hleft (ss : List Segment) : painted paint (.fragment id :: ss) = paint id ++ painted paint ss := rfl
      rw [dropLeadingBreak, hleft, hleft, List.append_assoc, List.append_assoc, hpaint, hpaint, ih]

end Page

end Stencil
