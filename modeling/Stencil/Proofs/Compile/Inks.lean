import Stencil.Proofs.Compile.Modes

/-! Where temporaries stand in a text. A text is put together from inks: generated pieces that neither begin nor end with a
byte of the name of a temporary, texts of the tree, marks, and the temporaries themselves. So a temporary stands nowhere but
where it was put, whatever else is written around it. -/

namespace Stencil

/-- What generated code keeps in a variable of its own: a key, the variables in scope, or a list of arguments. -/
inductive Temporary.Family where
  | key | scope | args
deriving DecidableEq, Repr

def Temporary.Family.stem : Family → Bytes
  | .key => "__pug_key_"
  | .scope => "__pug_scope_"
  | .args => "__pug_args_"

structure Temporary where
  family : Temporary.Family
  number : Nat
deriving DecidableEq, Repr

namespace Temporary

abbrev stem (v : Temporary) : Bytes := v.family.stem

def name (v : Temporary) : Bytes := Ascii.dollar :: (v.stem ++ Bytes.ofNat v.number)

/-- The places where the variable stands in a text, and for each whether it is assigned there. -/
def places (v : Temporary) : Bytes → List Bool
  | [] => []
  | c :: s =>
    match Bytes.after? v.name (c :: s) with
    | some rest => if rest.head?.any Ascii.isDigit then places v s else Bytes.startsWith " = " rest :: places v s
    | none => places v s

end Temporary

structure Bytes.Discreet (s : Bytes) : Prop where
  nullFree : s.NullFree
  mentions : Texture.mentions s = false

instance (s : Bytes) : Decidable s.Discreet :=
  decidable_of_iff (s.NullFree ∧ Texture.mentions s = false) ⟨fun h => ⟨h.1, h.2⟩, fun h => ⟨h.1, h.2⟩⟩

/-- Texts that mention no temporary however many of them stand one after the other, escaped or not, with numbers and other
constants between them. -/
structure Bytes.Aloof (P : Bytes → Prop) : Prop where
  append : ∀ {s t}, P s → P t → P (s ++ t)
  escape : ∀ {s}, P s → P (Entity.escape s)
  constant : ∀ {v : Value}, (∀ s, v ≠ .string s) → P v.text
  discreet : ∀ {s}, P s → s.Discreet

namespace Bytes

variable {w s t : Bytes}

theorem infix_or_of_getLast? (hlast : ∀ c ∈ s.getLast?, c ∉ w) (h : w <:+: s ++ t) : w <:+: s ∨ w <:+: t := by
  rcases List.infix_append_iff.mp h with h | h | ⟨a, b, rfl, ha, hb⟩
  · exact .inl h
  · exact .inr h
  · rcases List.eq_nil_or_concat a with rfl | ⟨a, c, rfl⟩
    · exact .inr hb.isInfix
    · obtain ⟨before, rfl⟩ := ha
      exact absurd (by simp) (hlast c (by simp))

theorem infix_or_of_head? (hhead : ∀ c ∈ t.head?, c ∉ w) (h : w <:+: s ++ t) : w <:+: s ∨ w <:+: t := by
  rcases List.infix_append_iff.mp h with h | h | ⟨a, b, rfl, ha, hb⟩
  · exact .inl h
  · exact .inr h
  · cases b with
    | nil => exact .inl (by simpa using ha.isInfix)
    | cons c b =>
      obtain ⟨after, rfl⟩ := hb
      exact absurd (by simp) (hhead c (by simp))

end Bytes

namespace Texture

variable {s t u stem : Bytes} {c : UInt8}

theorem not_mem_stem (hc : isForeign c) (hstem : stem ∈ stems) : c ∉ stem := by
  intro hmem
  have hflat : c ∈ stems.flatten := List.mem_flatten_of_mem hstem hmem
  rw [isForeign, List.contains_iff_mem.mpr hflat] at hc
  cases hc

theorem mentions_eq_false_iff : mentions s = false ↔ ∀ stem ∈ stems, ¬ stem <:+: s := by
  rw [← Bool.not_eq_true, mentions_iff]
  simp only [not_exists, not_and]

end Texture

namespace Bytes.Discreet

open Texture (isForeign mentions_eq_false_iff not_mem_stem)

variable {s t : Bytes}

theorem excerpt (ht : t.Discreet) (h : s <:+: t) : s.Discreet := by
  refine ⟨ht.nullFree.of_subset h.subset, mentions_eq_false_iff.mpr fun stem hstem hwithin => ?_⟩
  exact mentions_eq_false_iff.mp ht.mentions stem hstem (hwithin.trans h)

theorem behind (hs : s.Discreet) (hlast : ∀ c ∈ s.getLast?, isForeign c) (ht : t.Discreet) : (s ++ t).Discreet := by
  refine ⟨nullFree_append.mpr ⟨hs.nullFree, ht.nullFree⟩, mentions_eq_false_iff.mpr fun stem hstem hwithin => ?_⟩
  rcases infix_or_of_getLast? (fun c hc => not_mem_stem (hlast c hc) hstem) hwithin with h | h
  · exact mentions_eq_false_iff.mp hs.mentions stem hstem h
  · exact mentions_eq_false_iff.mp ht.mentions stem hstem h

theorem before (hs : s.Discreet) (ht : t.Discreet) (hhead : ∀ c ∈ t.head?, isForeign c) : (s ++ t).Discreet := by
  refine ⟨nullFree_append.mpr ⟨hs.nullFree, ht.nullFree⟩, mentions_eq_false_iff.mpr fun stem hstem hwithin => ?_⟩
  rcases infix_or_of_head? (fun c hc => not_mem_stem (hhead c hc) hstem) hwithin with h | h
  · exact mentions_eq_false_iff.mp hs.mentions stem hstem h
  · exact mentions_eq_false_iff.mp ht.mentions stem hstem h

theorem of_plain (h : Texture.Plain s) : s.Discreet := ⟨fun hzero => (h.1 0 hzero).1 rfl, h.2.2⟩

theorem of_isFigure (h : ∀ c ∈ s, Ascii.isFigure c) : s.Discreet := by
  refine ⟨fun hzero => absurd (h 0 hzero) (by decide), mentions_eq_false_iff.mpr fun stem hstem hwithin => ?_⟩
  have hscore : ∀ stem ∈ Texture.stems, Ascii.underscore ∈ stem := by decide
  exact absurd (h _ (hwithin.subset (hscore stem hstem))) (by decide)

end Bytes.Discreet

namespace Bytes.Aloof

variable {P : Bytes → Prop} (hP : Aloof P)
include hP

theorem nil : P [] := hP.constant (fun _ h => (by cases h) : ∀ s, Value.null ≠ .string s)

theorem escaped (escape : Bool) {s : Bytes} (hs : P s) : P (if escape then Entity.escape s else s) := by
  split
  · exact hP.escape hs
  · exact hs

theorem flatten {texts : List Bytes} (h : ∀ t ∈ texts, P t) : P texts.flatten :=
  flatten_induction hP.nil hP.append h

theorem text {v : Value} (h : v.Each P) : P v.text := by
  cases h with
  | string h => exact h
  | _ => exact hP.constant fun _ h => by cases h

end Bytes.Aloof

def Texture.discreet : Texture where
  Holds := Bytes.Discreet
  plain := .of_plain
  excerpt := .excerpt
  lead hs ht := .behind (.of_plain hs.1) (fun c hc => (hs.2 c hc).2) ht
  trail hs ht := .before hs (.of_plain ht.1) fun c hc => (ht.2 c hc).2
  part {s t u} hs ht hu := by
    refine .behind (.before hs (.of_plain ht.2.1.1) fun c hc => (ht.2.2.2 c hc).2) (fun c hc => ?_) hu
    rw [List.getLast?_append_of_ne_nil s ht.1] at hc
    exact (ht.2.1.2 c hc).2
  figure := .of_isFigure

/-- A generated text around which, and in which, no temporary can be read that was not put there. -/
structure Bytes.Framed (s : Bytes) : Prop where
  ne_nil : s ≠ []
  discreet : s.Discreet
  head : ∀ c ∈ s.head?, Texture.isForeign c
  last : ∀ c ∈ s.getLast?, Texture.isForeign c ∧ c ≠ Ascii.dollar

instance (s : Bytes) : Decidable s.Framed :=
  have : Decidable (∀ c ∈ s.head?, Texture.isForeign c) := Option.decidableForallMem _
  have : Decidable (∀ c ∈ s.getLast?, Texture.isForeign c ∧ c ≠ Ascii.dollar) := Option.decidableForallMem _
  decidable_of_iff (s ≠ [] ∧ s.Discreet ∧ (∀ c ∈ s.head?, Texture.isForeign c) ∧
    ∀ c ∈ s.getLast?, Texture.isForeign c ∧ c ≠ Ascii.dollar)
    ⟨fun ⟨hne, hdiscreet, hhead, hlast⟩ => ⟨hne, hdiscreet, hhead, hlast⟩, fun h => ⟨h.1, h.2, h.3, h.4⟩⟩

namespace Bytes.Framed

variable {s t u : Bytes}

theorem discreet_append (hs : s.Framed) (ht : t.Discreet) : (s ++ t).Discreet :=
  hs.discreet.behind (fun c hc => (hs.last c hc).1) ht

theorem append_discreet (hs : s.Discreet) (ht : t.Framed) : (s ++ t).Discreet := hs.before ht.discreet ht.head

theorem around (hs : s.Framed) (ht : t.Discreet) (hu : u.Framed) : (s ++ (t ++ u)).Framed where
  ne_nil := List.append_ne_nil_of_left_ne_nil hs.ne_nil _
  discreet := hs.discreet_append (append_discreet ht hu)
  head := by
    rw [List.head?_append_of_ne_nil s hs.ne_nil]
    exact hs.head
  last := by
    rw [← List.append_assoc, List.getLast?_append_of_ne_nil _ hu.ne_nil]
    exact hu.last

end Bytes.Framed

namespace Temporary

variable {v w : Temporary} {s t : Bytes}

theorem stem_mem (v : Temporary) : v.stem ∈ Texture.stems := by
  rw [stem]
  cases v.family <;> decide

theorem dollar_not_mem (v : Temporary) : Ascii.dollar ∉ v.stem := by
  rw [stem]
  cases v.family <;> decide

/-- The stems of two families part at their seventh byte. -/
theorem stem_injective {f g : Family} {s t : Bytes} (h : f.stem ++ s = g.stem ++ t) : f = g := by
  have hpart := congrArg (·[6]?) h
  cases f <;> cases g <;> first
    | rfl
    | (change some _ = some _ at hpart
       cases hpart)

theorem not_within (hs : s.Discreet) (v : Temporary) : ¬ v.stem <:+: s :=
  Texture.mentions_eq_false_iff.mp hs.mentions _ v.stem_mem

/-- Where no name begins in the first of two texts, the places are those in the second. -/
theorem places_append (h : ∀ u, u ≠ [] → u <:+ s → ¬ Ascii.dollar :: v.stem <+: u ++ t) :
    v.places (s ++ t) = v.places t := by
  induction s with
  | nil => rfl
  | cons c s ih =>
    have hnone : Bytes.after? v.name (c :: (s ++ t)) = none := by
      refine Option.eq_none_iff_forall_ne_some.mpr fun rest hrest => ?_
      refine h (c :: s) (by simp) List.suffix_rfl ⟨Bytes.ofNat v.number ++ rest, ?_⟩
      have htext := Bytes.after?_eq_some.mp hrest
      rw [name] at htext
      simpa using htext.symm
    rw [List.cons_append, places, hnone]
    exact ih fun u hne hu => h u hne (hu.trans (List.suffix_cons c s))

/-- The first part of a name that begins in a text without temporaries reaches to the end of that text. -/
theorem suffix_prefix (hs : s.Discreet) {u : Bytes} (hu : u <:+ s) (h : Ascii.dollar :: v.stem <+: u ++ t) :
    ∃ rest, Ascii.dollar :: v.stem = u ++ rest ∧ rest <+: t := by
  rcases List.prefix_or_prefix_of_prefix h (List.prefix_append u t) with hall | ⟨rest, hrest⟩
  · have hwithin : v.stem <:+: s := (List.suffix_cons _ _).isInfix.trans (hall.isInfix.trans hu.isInfix)
    exact absurd hwithin (not_within hs v)
  · refine ⟨rest, hrest.symm, ?_⟩
    rw [← hrest] at h
    exact (List.prefix_append_right_inj u).mp h

theorem places_of_discreet (hs : s.Discreet) : v.places s = [] := by
  have hall : v.places (s ++ []) = v.places [] := by
    refine places_append fun u hne hu h => ?_
    obtain ⟨rest, hrest, hnil⟩ := suffix_prefix hs hu h
    rw [List.prefix_nil.mp hnil, List.append_nil] at hrest
    refine not_within hs v ((List.suffix_cons Ascii.dollar v.stem).isInfix.trans ?_)
    rw [hrest]
    exact hu.isInfix
  rwa [List.append_nil] at hall

theorem places_behind (hs : s.Discreet) (ht : t.Framed) (u : Bytes) : v.places (s ++ (t ++ u)) = v.places u := by
  have hboth : (s ++ t).Discreet := Bytes.Framed.append_discreet hs ht
  rw [← List.append_assoc]
  refine places_append fun u hne hu h => ?_
  obtain ⟨rest, hrest, -⟩ := suffix_prefix hboth hu h
  have hlast : (s ++ t).getLast? = u.getLast? := by
    obtain ⟨before, hbefore⟩ := hu
    rw [← hbefore, List.getLast?_append_of_ne_nil before hne]
  obtain ⟨c, hc⟩ : ∃ c, u.getLast? = some c := ⟨_, List.getLast?_eq_some_getLast hne⟩
  rw [List.getLast?_append_of_ne_nil s ht.ne_nil, hc] at hlast
  obtain ⟨hforeign, hdollar⟩ := ht.last c hlast
  have hmem : c ∈ Ascii.dollar :: v.stem := by
    rw [hrest]
    exact List.mem_append_left _ (List.mem_of_getLast? hc)
  rcases List.mem_cons.mp hmem with rfl | hmem
  · exact hdollar rfl
  · exact Texture.not_mem_stem hforeign v.stem_mem hmem

theorem places_framed (hs : s.Framed) (t : Bytes) : v.places (s ++ t) = v.places t :=
  places_behind ⟨Bytes.nullFree_nil, rfl⟩ hs t

/-- A dollar sign goes on with nothing that stands before it. -/
theorem places_dollar (hs : s.Discreet) (t : Bytes) :
    v.places (s ++ Ascii.dollar :: t) = v.places (Ascii.dollar :: t) := by
  refine places_append fun u hne hu h => ?_
  obtain ⟨rest, hrest, hprefix⟩ := suffix_prefix hs hu h
  obtain ⟨a, u, rfl⟩ := List.exists_cons_of_ne_nil hne
  obtain ⟨-, hstem⟩ := List.cons.inj hrest
  cases rest with
  | nil =>
    refine not_within hs v ?_
    obtain rfl : v.stem = u := hstem.trans (List.append_nil u)
    exact (List.suffix_cons a _).isInfix.trans hu.isInfix
  | cons b rest =>
    obtain ⟨after, hafter⟩ := hprefix
    obtain ⟨rfl, -⟩ := List.cons.inj hafter
    exact dollar_not_mem v (by rw [hstem]; simp)

theorem places_plain (h : Ascii.dollar ∉ s) (t : Bytes) : v.places (s ++ t) = v.places t := by
  refine places_append fun u hne hu hprefix => ?_
  obtain ⟨a, u, rfl⟩ := List.exists_cons_of_ne_nil hne
  obtain ⟨rest, hrest⟩ := hprefix
  obtain ⟨rfl, -⟩ := List.cons.inj hrest
  exact h (hu.subset List.mem_cons_self)

/-- Before a text that begins with no digit, no name but its own begins with that of a temporary. -/
theorem eq_of_name_append (ht : t.head?.any Ascii.isDigit = false) (h : v.name ++ s = w.name ++ t) :
    v = w ∧ s = t ∨ s.head?.any Ascii.isDigit := by
  have hstems : v.stem ++ (Bytes.ofNat v.number ++ s) = w.stem ++ (Bytes.ofNat w.number ++ t) := by
    simpa [name] using h
  obtain ⟨family, n⟩ := v
  obtain ⟨family', m⟩ := w
  obtain rfl : family = family' := stem_injective hstems
  have hsame (hm : Bytes.ofNat m = Bytes.ofNat n ++ []) : n = m := by
    have hnumber := congrArg Bytes.toNat? hm
    rw [List.append_nil, Bytes.toNat?_ofNat, Bytes.toNat?_ofNat] at hnumber
    exact (Option.some.inj hnumber).symm
  rcases List.append_eq_append_iff.mp (List.append_cancel_left hstems) with ⟨more, hm, hs⟩ | ⟨more, hn, ht'⟩
  · cases more with
    | nil => exact .inl ⟨congrArg _ (hsame hm), hs⟩
    | cons d more =>
      right
      rw [hs]
      exact Bytes.isDigit_ofNat m d (by rw [hm]; simp)
  · cases more with
    | nil => exact .inl ⟨congrArg _ (hsame (by rw [hn, List.append_nil, List.append_nil])), ht'.symm⟩
    | cons d more =>
      have hdigit : Ascii.isDigit d = true := Bytes.isDigit_ofNat n d (by rw [hn]; simp)
      rw [ht'] at ht
      exact absurd (hdigit.symm.trans ht) (by decide)

/-- Where a name was put before a text that begins with no digit, its temporary stands, and no other one. -/
theorem places_name (ht : t.head?.any Ascii.isDigit = false) (v w : Temporary) :
    v.places (w.name ++ t) = (if w = v then [Bytes.startsWith " = " t] else []) ++ v.places t := by
  have hrest : v.places ((w.stem ++ Bytes.ofNat w.number) ++ t) = v.places t := by
    refine places_plain (fun hmem => ?_) t
    rcases List.mem_append.mp hmem with hmem | hmem
    · exact dollar_not_mem w hmem
    · exact absurd (Bytes.isDigit_ofNat w.number _ hmem) (by decide)
  have hname : w.name ++ t = Ascii.dollar :: ((w.stem ++ Bytes.ofNat w.number) ++ t) := rfl
  rw [hname, places, ← hname, hrest]
  cases hafter : Bytes.after? v.name (w.name ++ t) with
  | none =>
    have hne : w ≠ v := by
      rintro rfl
      rw [Bytes.after?_eq_some.mpr rfl] at hafter
      cases hafter
    rw [if_neg hne]
    rfl
  | some rest =>
    dsimp only
    rcases eq_of_name_append ht (Bytes.after?_eq_some.mp hafter).symm with ⟨rfl, rfl⟩ | hdigit
    · rw [ht, if_neg Bool.false_ne_true, if_pos rfl]
      rfl
    · have hne : w ≠ v := by
        rintro rfl
        rw [Bytes.after?_eq_some.mpr rfl] at hafter
        obtain rfl := Option.some.inj hafter
        rw [ht] at hdigit
        cases hdigit
      rw [if_pos hdigit, if_neg hne]
      rfl

end Temporary

/-- A piece of a rendered text: a generated one, a text of the tree, the mark of a fragment, or a temporary and the generated
text behind it. -/
inductive Ink where
  | own (s : Bytes)
  | user (s : Bytes)
  | mark (id : Nat)
  | temporary (v : Temporary) (assigned : Bool) (rest : Bytes)

namespace Ink

def text : Ink → Bytes
  | .own s | .user s => s
  | .mark id => Page.mark id
  | .temporary v _ rest => v.name ++ rest

/-- What the piece leaves where the mark of a fragment is painted over. -/
def painted (paint : Int → Bytes) : Ink → Bytes
  | .own s | .user s => s
  | .mark id => paint (Int64.ofNat id).toInt
  | .temporary v _ rest => v.name ++ rest

/-- The piece is as it is generated, and its texts of the tree satisfy `P`. -/
def Sound (P : Bytes → Prop) : Ink → Prop
  | .own s => s.Framed
  | .user s => P s
  | .mark _ => True
  | .temporary _ assigned rest => rest.Framed ∧ rest.head?.any Ascii.isDigit = false ∧
      ∀ t, Bytes.startsWith " = " (rest ++ t) = assigned

def place (v : Temporary) : Ink → Option Bool
  | .temporary w assigned _ => if w = v then some assigned else none
  | _ => none

def used : Ink → Option Temporary
  | .temporary v _ _ => some v
  | _ => none

def assigned : Ink → Option Temporary
  | .temporary v true _ => some v
  | _ => none

variable {P : Bytes → Prop} (hP : Bytes.Aloof P) {i : Ink} {inks : List Ink} {paint : Int → Bytes} {v : Temporary}

include hP

theorem Sound.closed (hi : i.Sound P) (paint : Int → Bytes) :
    Page.Closed i.text ∧ Page.painted paint (Page.segments i.text) = i.painted paint := by
  have hfree {s : Bytes} (hs : s.NullFree) : Page.Closed s ∧ Page.painted paint (Page.segments s) = s :=
    ⟨Page.closed_of_nullFree hs, Page.painted_of_nullFree hs⟩
  cases i with
  | own s => exact hfree (show s.Framed from hi).discreet.nullFree
  | user s => exact hfree (hP.discreet hi).nullFree
  | mark id =>
    have hmark := Page.segments_mark id []
    rw [List.append_nil] at hmark
    refine ⟨Page.closed_mark id, ?_⟩
    rw [text, hmark]
    exact List.append_nil _
  | temporary v assigned rest =>
    refine hfree (Bytes.nullFree_append.mpr ⟨?_, hi.1.discreet.nullFree⟩)
    have hstem : ∀ f : Temporary.Family, f.stem.NullFree := fun f => by cases f <;> decide
    exact Bytes.nullFree_cons.mpr ⟨by decide, Bytes.nullFree_append.mpr ⟨hstem _, Bytes.nullFree_ofNat _⟩⟩

theorem painted_segments (hinks : ∀ i ∈ inks, i.Sound P) :
    Page.painted paint (Page.segments (inks.flatMap text)) = inks.flatMap (painted paint) := by
  induction inks with
  | nil => rfl
  | cons i inks ih =>
    obtain ⟨hi, hinks⟩ := List.forall_mem_cons.mp hinks
    obtain ⟨hclosed, hpainted⟩ := hi.closed hP paint
    rw [List.flatMap_cons, List.flatMap_cons, hclosed, Page.painted_append, hpainted, ih hinks]

/-- Behind texts of the tree, the places in pieces put together are those in the pieces. -/
theorem places_painted (hpaint : ∀ id, paint id = [] ∨ (paint id).Framed) (hinks : ∀ i ∈ inks, i.Sound P) {s : Bytes}
    (hs : P s) : v.places (s ++ inks.flatMap (painted paint)) = inks.filterMap (place v) := by
  induction inks generalizing s with
  | nil =>
    rw [List.flatMap_nil, List.append_nil, Temporary.places_of_discreet (hP.discreet hs)]
    rfl
  | cons i inks ih =>
    obtain ⟨hi, hmore⟩ := List.forall_mem_cons.mp hinks
    rw [List.flatMap_cons]
    cases i with
    | own t =>
      have hbehind := Temporary.places_behind (v := v) (hP.discreet hs) hi (inks.flatMap (painted paint))
      exact hbehind.trans (ih hmore hP.nil)
    | user t =>
      rw [← List.append_assoc]
      exact ih hmore (hP.append hs hi)
    | mark id =>
      rw [painted]
      rcases hpaint (Int64.ofNat id).toInt with hempty | hframed
      · rw [hempty]
        exact ih hmore hs
      · rw [Temporary.places_behind (hP.discreet hs) hframed]
        exact ih hmore hP.nil
    | temporary w assigned rest =>
      obtain ⟨hframed, hdigit, hassigned⟩ := hi
      have hhead : (rest ++ inks.flatMap (painted paint)).head?.any Ascii.isDigit = false := by
        rw [List.head?_append_of_ne_nil rest hframed.ne_nil]
        exact hdigit
      have hdollar := Temporary.places_dollar (v := v) (hP.discreet hs)
        ((w.stem ++ Bytes.ofNat w.number) ++ (rest ++ inks.flatMap (painted paint)))
      have hmore : v.places (inks.flatMap (painted paint)) = inks.filterMap (place v) := ih hmore hP.nil
      have hname := Temporary.places_name hhead v w
      rw [hassigned, Temporary.places_framed hframed, hmore] at hname
      rw [painted, List.append_assoc]
      refine (hdollar.trans hname).trans ?_
      by_cases heq : w = v
      · have hplace : place v (temporary w assigned rest) = some assigned := if_pos heq
        rw [if_pos heq, List.filterMap_cons_some hplace]
        rfl
      · have hplace : place v (temporary w assigned rest) = none := if_neg heq
        rw [if_neg heq, List.filterMap_cons_none hplace]
        rfl

omit hP

theorem count_place (v : Temporary) (inks : List Ink) :
    (inks.filterMap (place v)).count true = (inks.filterMap assigned).count v := by
  induction inks with
  | nil => rfl
  | cons i inks ih =>
    cases i with
    | own _ | user _ | mark _ => exact ih
    | temporary w assigned rest =>
      by_cases heq : w = v <;> cases assigned <;> simp [place, Ink.assigned, List.filterMap_cons, heq, ih]

theorem used_of_place {v : Temporary} {inks : List Ink} (h : inks.filterMap (place v) ≠ []) : v ∈ inks.filterMap used := by
  obtain ⟨assigned, hassigned⟩ := List.exists_mem_of_ne_nil _ h
  obtain ⟨i, hi, hplace⟩ := List.mem_filterMap.mp hassigned
  refine List.mem_filterMap.mpr ⟨i, hi, ?_⟩
  cases i with
  | temporary w assigned rest =>
    rw [place] at hplace
    split at hplace
    next heq => exact congrArg some heq
    next => cases hplace
  | _ => cases hplace

end Ink

/-- A rendered text in which the temporaries of `A` are assigned, each as often as it is in the list, and none is used but
those of `U`. -/
def Inked (P : Bytes → Prop) (U A : List Temporary) (t : Bytes) : Prop :=
  ∃ inks : List Ink, (∀ i ∈ inks, i.Sound P) ∧ t = inks.flatMap Ink.text ∧ (inks.filterMap Ink.assigned).Perm A ∧
    inks.filterMap Ink.used ⊆ U

/-- The same of a text that begins with a generated piece. -/
def Opened (P : Bytes → Prop) (U A : List Temporary) (t : Bytes) : Prop :=
  ∃ lead rest, Bytes.Framed lead ∧ Inked P U A rest ∧ t = lead ++ rest

/-- The same of a text that stands between generated pieces. -/
def Woven (P : Bytes → Prop) (U A : List Temporary) (c : Bytes) : Prop :=
  ∀ ⦃lead : Bytes⦄ ⦃B : List Temporary⦄ ⦃rest : Bytes⦄, lead.Framed → Opened P U B rest → Opened P U (A ++ B) (lead ++ (c ++ rest))

/-- The same of a text that stands before a generated piece, where its own temporaries are at hand. -/
def Joins (P : Bytes → Prop) (V : List Temporary) (c : Bytes) : Prop :=
  ∀ ⦃U B : List Temporary⦄ ⦃rest : Bytes⦄, V ⊆ U → Opened P U B rest → Opened P U (V ++ B) (c ++ rest)

/-- No temporaries are used in the text but those assigned there. -/
abbrev Settled (P : Bytes → Prop) (V : List Temporary) : Bytes → Prop := Inked P V V

section Inks

variable {P : Bytes → Prop} {U U' A B : List Temporary} {l s t c d : Bytes} {v : Temporary}

namespace Inked

theorem of_ink {i : Ink} (hi : i.Sound P) (hused : i.used.toList ⊆ U) : Inked P U i.assigned.toList i.text := by
  refine ⟨[i], List.forall_mem_singleton.mpr hi, (List.append_nil _).symm, ?_, ?_⟩
  · cases hassigned : i.assigned <;> simp [hassigned]
  · cases hused' : i.used <;> simp_all

theorem nil : Inked P U [] [] := ⟨[], List.forall_mem_nil _, rfl, .refl _, List.nil_subset _⟩

theorem own (h : s.Framed) : Inked P U [] s := of_ink (show Ink.Sound P (.own s) from h) (List.nil_subset _)

theorem user (h : P s) : Inked P U [] s := of_ink (show Ink.Sound P (.user s) from h) (List.nil_subset _)

theorem mark (id : Nat) : Inked P U [] (Page.mark id) := of_ink (show Ink.Sound P (.mark id) from trivial) (List.nil_subset _)

theorem assign (hv : v ∈ U) (h : Bytes.Framed (Bytes.ofString " = " ++ s)) : Inked P U [v] (v.name ++ (Bytes.ofString " = " ++ s)) := by
  have hsound : Ink.Sound P (.temporary v true (Bytes.ofString " = " ++ s)) :=
    ⟨h, rfl, fun _ => rfl⟩
  exact of_ink hsound (List.cons_subset.mpr ⟨hv, List.nil_subset _⟩)

theorem use (hv : v ∈ U) (h : s.Framed) (hdigit : s.head?.any Ascii.isDigit = false)
    (hassign : ∀ t, Bytes.startsWith " = " (s ++ t) = false) : Inked P U [] (v.name ++ s) := by
  have hsound : Ink.Sound P (.temporary v false s) := ⟨h, hdigit, hassign⟩
  exact of_ink hsound (List.cons_subset.mpr ⟨hv, List.nil_subset _⟩)

theorem append (hs : Inked P U A s) (ht : Inked P U B t) : Inked P U (A ++ B) (s ++ t) := by
  obtain ⟨inks, hsound, rfl, hassigned, hused⟩ := hs
  obtain ⟨inks', hsound', rfl, hassigned', hused'⟩ := ht
  refine ⟨inks ++ inks', List.forall_mem_append.mpr ⟨hsound, hsound'⟩, List.flatMap_append.symm, ?_, ?_⟩
  · rw [List.filterMap_append]
    exact hassigned.append hassigned'
  · rw [List.filterMap_append]
    exact List.append_subset.mpr ⟨hused, hused'⟩

theorem mono (h : Inked P U A t) (hU : U ⊆ U') : Inked P U' A t := by
  obtain ⟨inks, hsound, htext, hassigned, hused⟩ := h
  exact ⟨inks, hsound, htext, hassigned, fun _ hv => hU (hused hv)⟩

theorem perm (h : Inked P U A t) (hperm : A.Perm B) : Inked P U B t := by
  obtain ⟨inks, hsound, htext, hassigned, hused⟩ := h
  exact ⟨inks, hsound, htext, hassigned.trans hperm, hused⟩

end Inked

namespace Opened

theorem inked (h : Opened P U A t) : Inked P U A t := by
  obtain ⟨lead, rest, hlead, hrest, rfl⟩ := h
  exact (Inked.own hlead).append hrest

theorem of_framed (h : s.Framed) : Opened P U [] s := ⟨s, [], h, .nil, (List.append_nil s).symm⟩

theorem append (hs : Opened P U A s) (ht : Inked P U B t) : Opened P U (A ++ B) (s ++ t) := by
  obtain ⟨lead, rest, hlead, hrest, rfl⟩ := hs
  exact ⟨lead, rest ++ t, hlead, hrest.append ht, List.append_assoc ..⟩

theorem front (hl : l.Framed) (hs : s.Discreet) (ht : Opened P U A t) : Opened P U A (l ++ (s ++ t)) := by
  obtain ⟨lead, rest, hlead, hrest, rfl⟩ := ht
  exact ⟨l ++ (s ++ lead), rest, hl.around hs hlead, hrest, by simp⟩

end Opened

namespace Woven

theorem of_discreet (h : c.Discreet) : Woven P U [] c := fun _ _ _ hlead hrest => .front hlead h hrest

theorem of_inked (h : Inked P U A c) : Woven P U A c :=
  fun lead _ rest hlead hrest => ⟨lead, c ++ rest, hlead, h.append hrest.inked, rfl⟩

theorem part (hc : Woven P U A c) (hs : s.Framed) (hd : Woven P U B d) : Woven P U (A ++ B) (c ++ (s ++ d)) := by
  intro lead C rest hlead hrest
  have hall := hc hlead (hd hs hrest)
  simpa only [List.append_assoc] using hall

theorem enclosed (hl : l.Framed) (hc : Woven P U A c) (hs : s.Framed) : Inked P U A (l ++ (c ++ s)) := by
  have hall := (hc hl (.of_framed hs)).inked
  rwa [List.append_nil] at hall

end Woven

namespace Joins

theorem nil : Joins P [] [] := fun _ _ _ _ hrest => hrest

theorem append (hs : Joins P A s) (ht : Joins P B t) : Joins P (A ++ B) (s ++ t) := by
  intro U C rest hU hrest
  obtain ⟨hA, hB⟩ := List.append_subset.mp hU
  have hall := hs hA (ht hB hrest)
  simpa only [List.append_assoc] using hall

theorem lead (hl : l.Framed) (hs : s.Discreet) : Joins P [] (l ++ s) := by
  intro U B rest _ hrest
  rw [List.append_assoc]
  exact hrest.front hl hs

theorem of_framed (hs : s.Framed) : Joins P [] s := by
  have hlead : Joins P [] (s ++ []) := .lead hs ⟨Bytes.nullFree_nil, rfl⟩
  rwa [List.append_nil] at hlead

theorem flatten {texts : List Bytes} (h : ∀ t ∈ texts, Joins P [] t) : Joins P [] texts.flatten :=
  Bytes.flatten_induction .nil .append h

end Joins

namespace Settled

theorem nil : Settled P [] [] := Inked.nil

theorem append (hs : Settled P A s) (ht : Settled P B t) : Settled P (A ++ B) (s ++ t) :=
  (Inked.mono hs (List.subset_append_left A B)).append (Inked.mono ht (List.subset_append_right A B))

theorem perm (h : Settled P A s) (hperm : A.Perm B) : Settled P B s := (Inked.mono h hperm.subset).perm hperm

end Settled

theorem Inked.closed (hP : Bytes.Aloof P) (h : Inked P U A t) : Page.Closed t := by
  obtain ⟨inks, hsound, rfl, -, -⟩ := h
  induction inks with
  | nil => exact Page.closed_nil
  | cons i inks ih =>
    obtain ⟨hi, hsound⟩ := List.forall_mem_cons.mp hsound
    exact (hi.closed hP fun _ => []).1.append (ih hsound)

/-- Each temporary that is put into a text is assigned there at one place, whatever the marks in it are painted over with
and whatever generated text comes last. -/
theorem Settled.places (hP : Bytes.Aloof P) {V : List Temporary} (hV : V.Nodup) (h : Settled P V t) {paint : Int → Bytes}
    (hpaint : ∀ id, paint id = [] ∨ (paint id).Framed) {last : Bytes} (hlast : last = [] ∨ last.Framed) (v : Temporary) :
    let text := Page.painted paint (Page.segments t) ++ last
    v.places text = [] ∨ (v.places text).count true = 1 := by
  have hend : Inked P V [] last := by
    rcases hlast with rfl | hlast
    · exact .nil
    · exact .own hlast
  have hfree : last.NullFree := by
    rcases hlast with rfl | hlast
    · exact Bytes.nullFree_nil
    · exact hlast.discreet.nullFree
  have hpainted : Page.painted paint (Page.segments (t ++ last)) = Page.painted paint (Page.segments t) ++ last := by
    rw [Inked.closed hP h, Page.painted_append, Page.painted_of_nullFree hfree]
  obtain ⟨inks, hsound, htext, hassigned, hused⟩ := Inked.append h hend
  have hplaces := Ink.places_painted hP hpaint hsound hP.nil (v := v)
  rw [List.nil_append, ← Ink.painted_segments hP hsound, ← htext, hpainted] at hplaces
  dsimp only
  rw [hplaces, Ink.count_place, hassigned.count_eq, List.append_nil]
  by_cases hne : inks.filterMap (Ink.place v) = []
  · exact .inl hne
  · exact .inr (List.count_eq_one_of_mem hV (hused (Ink.used_of_place hne)))

end Inks

end Stencil
