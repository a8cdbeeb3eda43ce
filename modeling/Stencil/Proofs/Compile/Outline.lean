import Stencil.Proofs.Compile.Keeps
import Stencil.Proofs.Compile.Seams
import Stencil.Proofs.Compile.SourceMaps
import Stencil.Proofs.Merge.Agreement
import Stencil.Proofs.Value.Key

/-! Pages of static markup have the tags of their tree. Whatever bytes the texts and the values of attributes hold, they
bring no angle brackets into the page, and what is taken for a mark in them takes out no part of a tag but of a value. -/

namespace Stencil

namespace Page

/-- The tags of a text, read from outside a tag or from `inside` one: what stands between their angle brackets. There
are none if a tag starts in another or does not end, or if an angle bracket closes nothing. -/
def tagsFrom : (inside : Option Bytes) → Bytes → Option (List Bytes)
  | none, [] => some []
  | some _, [] => none
  | none, c :: s =>
    if c == Ascii.less then tagsFrom (some []) s
    else if c == Ascii.greater then none
    else tagsFrom none s
  | some t, c :: s =>
    if c == Ascii.less then none
    else if c == Ascii.greater then (tagsFrom none s).map (t :: ·)
    else tagsFrom (some (t ++ [c])) s

def tags (s : Bytes) : Option (List Bytes) := tagsFrom none s

def Flat (s : Bytes) : Prop := ∀ c ∈ s, c ≠ Ascii.less ∧ c ≠ Ascii.greater

instance (s : Bytes) : Decidable (Flat s) :=
  decidable_of_iff (s.all fun c => c != Ascii.less && c != Ascii.greater) (by simp [Flat])

variable {s t : Bytes} {ts us : List Bytes}

theorem flat_append : Flat (s ++ t) ↔ Flat s ∧ Flat t := List.forall_mem_append

theorem Flat.unmarked (h : Flat s) : Flat (unmarked s) := fun c hc => h c (unmarked_subset s hc)

theorem tagsFrom_none_flat (h : Flat s) (t : Bytes) : tagsFrom none (s ++ t) = tagsFrom none t := by
  induction s with
  | nil => rfl
  | cons c s ih =>
    obtain ⟨⟨hless, hgreater⟩, hs⟩ := List.forall_mem_cons.mp h
    rw [List.cons_append, tagsFrom, beq_eq_false_iff_ne.mpr hless, beq_eq_false_iff_ne.mpr hgreater]
    exact ih hs

theorem tagsFrom_some_flat (h : Flat s) (inside t : Bytes) :
    tagsFrom (some inside) (s ++ Ascii.greater :: t) = (tagsFrom none t).map ((inside ++ s) :: ·) := by
  induction s generalizing inside with
  | nil => simp [tagsFrom, Ascii.less, Ascii.greater]
  | cons c s ih =>
    obtain ⟨⟨hless, hgreater⟩, hs⟩ := List.forall_mem_cons.mp h
    rw [List.cons_append, tagsFrom, beq_eq_false_iff_ne.mpr hless, beq_eq_false_iff_ne.mpr hgreater]
    simpa using ih hs (inside ++ [c])

/-- A rendered text made of flat texts and of tags. -/
inductive Tagged : Bytes → List Bytes → Prop
  | flat {s : Bytes} (h : Flat s) : Tagged s []
  | tag {s t rest : Bytes} {ts : List Bytes} (hs : Flat s) (ht : Flat t) (h : Tagged rest ts) :
      Tagged (s ++ Ascii.less :: (t ++ Ascii.greater :: rest)) (t :: ts)

namespace Tagged

theorem after (h : Tagged t ts) (hs : Flat s) : Tagged (s ++ t) ts := by
  cases h with
  | flat ht => exact .flat (flat_append.mpr ⟨hs, ht⟩)
  | tag hs' ht h =>
    rw [← List.append_assoc]
    exact .tag (flat_append.mpr ⟨hs, hs'⟩) ht h

theorem append (hs : Tagged s ts) (ht : Tagged t us) : Tagged (s ++ t) (ts ++ us) := by
  induction hs with
  | flat hs => exact ht.after hs
  | tag hs ht' _ ih =>
    rw [List.append_assoc, List.cons_append, List.append_assoc, List.cons_append]
    exact .tag hs ht' ih

theorem single (ht : Flat t) : Tagged (Ascii.less :: (t ++ [Ascii.greater])) [t] := .tag (s := []) nofun ht (.flat nofun)

/-- Marks are not taken out across angle brackets. -/
theorem tags_unmarked (h : Tagged s ts) : tags (unmarked s) = some (ts.map unmarked) := by
  induction h with
  | flat hs =>
    have hflat := tagsFrom_none_flat hs.unmarked []
    rwa [List.append_nil] at hflat
  | tag hs ht _ ih =>
    rw [unmarked_append_cons rfl (by decide), unmarked_append_cons rfl (by decide), tags,
      tagsFrom_none_flat hs.unmarked, tagsFrom, if_pos (beq_self_eq_true _), tagsFrom_some_flat ht.unmarked]
    exact congrArg (Option.map _) ih

end Tagged

end Page

/-- A tag as a reader of the page takes it. -/
inductive Tag.Shape where
  | opening (name : Bytes)
  | closing (name : Bytes)
  /-- A tag that is closed in itself. -/
  | lone (name : Bytes)
deriving DecidableEq, Repr

def Ascii.isWordByte (c : UInt8) : Bool := isNameChar c || c == minus

/-- Reads what stands between the angle brackets of a tag. -/
def Tag.Shape.read (t : Bytes) : Tag.Shape :=
  if t.head? = some Ascii.slash then .closing t.tail
  else if t.getLast? = some Ascii.slash then .lone (t.takeWhile Ascii.isWordByte)
  else .opening (t.takeWhile Ascii.isWordByte)

/-- A name as tags and attributes bear it. -/
structure Word (s : Bytes) : Prop where
  ne_nil : s ≠ []
  byte : ∀ c ∈ s, Ascii.isWordByte c

namespace Word

variable {s t : Bytes}

theorem not_mem (h : Word s) {c : UInt8} (hc : Ascii.isWordByte c = false) : c ∉ s := by
  intro hmem
  rw [h.byte c hmem] at hc
  cases hc

theorem nullFree (h : Word s) : s.NullFree := h.not_mem (by decide)

theorem flat (h : Word s) : Page.Flat s :=
  fun _ hc => ⟨fun heq => h.not_mem (c := Ascii.less) (by decide) (heq ▸ hc),
    fun heq => h.not_mem (c := Ascii.greater) (by decide) (heq ▸ hc)⟩

theorem head?_append (h : Word s) (t : Bytes) : (s ++ t).head? ≠ some Ascii.slash := by
  intro hhead
  obtain ⟨c, s, rfl⟩ := List.exists_cons_of_ne_nil h.ne_nil
  obtain rfl := Option.some.inj hhead
  exact h.not_mem (by decide) List.mem_cons_self

theorem getLast?_append (h : Word t) (s : Bytes) : (s ++ t).getLast? ≠ some Ascii.slash := by
  rw [List.getLast?_append_of_ne_nil s h.ne_nil]
  exact fun hlast => h.not_mem (by decide) (List.mem_of_getLast? hlast)

theorem takeWhile_append (h : Word s) (ht : t = [] ∨ ∃ u, t = Ascii.space :: u) :
    (s ++ t).takeWhile Ascii.isWordByte = s := by
  rw [List.takeWhile_append_of_pos h.byte]
  rcases ht with rfl | ⟨u, rfl⟩
  · exact List.append_nil s
  · rw [List.takeWhile_cons_of_neg (by decide), List.append_nil]

end Word

/-- What stands behind the name of a tag: attributes with words for names and values without quotes or angle brackets. -/
inductive Tag.Trail : Bytes → Prop
  | nil : Trail []
  | pair {t name value : Bytes} (ht : Trail t) (hname : Word name) (hvalue : Page.Flat value) :
      Trail (t ++ Ascii.space :: (name ++ "=\"" ++ value ++ [Ascii.doubleQuote]))
  | flag {t name : Bytes} (ht : Trail t) (hname : Word name) : Trail (t ++ Ascii.space :: name)

namespace Tag.Trail

variable {s t name : Bytes}

theorem append (hs : Trail s) (ht : Trail t) : Trail (s ++ t) := by
  induction ht with
  | nil => rwa [List.append_nil]
  | pair _ hname hvalue ih =>
    rw [← List.append_assoc]
    exact .pair ih hname hvalue
  | flag _ hname ih =>
    rw [← List.append_assoc]
    exact .flag ih hname

theorem flatten {texts : List Bytes} (h : ∀ t ∈ texts, Trail t) : Trail texts.flatten :=
  Bytes.flatten_induction .nil .append h

theorem flat (h : Trail t) : Page.Flat t := by
  induction h with
  | nil => exact nofun
  | pair _ hname hvalue ih =>
    have hopen : Page.Flat "=\"" := by decide
    have hclose : Page.Flat [Ascii.doubleQuote] := by decide
    refine Page.flat_append.mpr ⟨ih, List.forall_mem_cons.mpr ⟨by decide, ?_⟩⟩
    exact Page.flat_append.mpr ⟨Page.flat_append.mpr ⟨Page.flat_append.mpr ⟨hname.flat, hopen⟩, hvalue⟩, hclose⟩
  | flag _ hname ih => exact Page.flat_append.mpr ⟨ih, List.forall_mem_cons.mpr ⟨by decide, hname.flat⟩⟩

theorem unmarked_lead (h : Trail t) : Page.unmarked t = [] ∨ ∃ u, Page.unmarked t = Ascii.space :: u := by
  have hspace (t u : Bytes) (ht : Page.unmarked t = [] ∨ ∃ v, Page.unmarked t = Ascii.space :: v) :
      ∃ v, Page.unmarked (t ++ Ascii.space :: u) = Ascii.space :: v := by
    rw [Page.unmarked_append_cons rfl (by decide)]
    rcases ht with ht | ⟨v, ht⟩ <;> rw [ht]
    · exact ⟨_, rfl⟩
    · exact ⟨_, rfl⟩
  induction h with
  | nil => exact .inl rfl
  | pair _ _ _ ih => exact .inr (hspace _ _ ih)
  | flag _ _ ih => exact .inr (hspace _ _ ih)

/-- Behind a name, the text does not end as a tag that is closed in itself. -/
theorem unmarked_last (h : Trail t) (hname : Word name) : (name ++ Page.unmarked t).getLast? ≠ some Ascii.slash := by
  cases h with
  | nil =>
    rw [Page.unmarked_nil, List.append_nil]
    exact hname.getLast?_append []
  | @pair t key value _ _ _ =>
    rw [← List.cons_append, ← List.append_assoc, Page.unmarked_append_cons rfl (by decide), ← List.append_assoc]
    simp [Page.unmarked_nil, Ascii.doubleQuote, Ascii.slash]
  | @flag t key _ hkey =>
    rw [Page.unmarked_append_cons rfl (by decide), Page.unmarked_of_nullFree hkey.nullFree, ← List.append_assoc,
      List.append_cons]
    exact hkey.getLast?_append _

end Tag.Trail

namespace Tag.Shape

variable {name trail : Bytes}

theorem read_closing (h : Word name) : read (Page.unmarked (Ascii.slash :: name)) = .closing name := by
  have hfree : Bytes.NullFree (Ascii.slash :: name) := Bytes.nullFree_cons.mpr ⟨by decide, h.nullFree⟩
  rw [Page.unmarked_of_nullFree hfree]
  rfl

theorem read_opening (h : Word name) (ht : Trail trail) : read (Page.unmarked (name ++ trail)) = .opening name := by
  rw [(Page.closed_of_nullFree h.nullFree).unmarked_append, Page.unmarked_of_nullFree h.nullFree, read,
    if_neg (h.head?_append _), if_neg (ht.unmarked_last h), h.takeWhile_append ht.unmarked_lead]

theorem read_lone (h : Word name) (ht : Trail trail) :
    read (Page.unmarked (name ++ trail ++ [Ascii.space, Ascii.slash])) = .lone name := by
  have hlead : Page.unmarked trail ++ [Ascii.space, Ascii.slash] = [] ∨
      ∃ u, Page.unmarked trail ++ [Ascii.space, Ascii.slash] = Ascii.space :: u := by
    rcases ht.unmarked_lead with ht | ⟨u, ht⟩ <;> rw [ht]
    · exact .inr ⟨_, rfl⟩
    · exact .inr ⟨_, rfl⟩
  have hend : Page.unmarked [Ascii.slash] = [Ascii.slash] := rfl
  rw [Page.unmarked_append_cons rfl (by decide), hend, (Page.closed_of_nullFree h.nullFree).unmarked_append,
    Page.unmarked_of_nullFree h.nullFree, List.append_assoc, read, if_neg (h.head?_append _),
    h.takeWhile_append hlead, if_pos]
  simp

end Tag.Shape

/-- The attribute has a fixed name, and no value or an escaped text. -/
structure Attribute.Static (a : Attribute) : Prop where
  name : Word a.name
  nameExpr : a.nameExpr = none
  value : a.value = .absent ∨ ∃ text, a.value = .text text true

structure Tag.Static (t : Tag) : Prop where
  name : Word t.name
  nameExpr : t.nameExpr = none
  attributes : ∀ a ∈ t.attributes, a.Static
  assignments : t.assignments = []

/-- A tree of documents, static tags and escaped texts. -/
inductive Element.Static : Element → Prop
  | document {id : NodeId} {origin : Option Origin} {children : List Element} (h : ∀ e ∈ children, Static e) :
      Static (.node id origin .document children)
  | markup {id : NodeId} {origin : Option Origin} {t : Tag} {children : List Element} (ht : t.Static)
      (h : ∀ e ∈ children, Static e) : Static (.node id origin (.markup t) children)
  | text {id : NodeId} {origin : Option Origin} {t : Forest.Text} {children : List Element} (ht : t.escape = true) :
      Static (.node id origin (.text t) children)

mutual

/-- The tags of a tree in the order they are met: those of a tag around those inside it, and one for a tag without
children where the dialect leaves out the closing tag. -/
def Element.outline (d : Dialect) : Element → List Tag.Shape
  | .node _ _ (.markup t) children =>
    if children.isEmpty && d.isSelfClosing t false then [.lone t.name]
    else .opening t.name :: (outlines d children ++ [.closing t.name])
  | .node _ _ .document children => outlines d children
  | .node .. => []

def Element.outlines (d : Dialect) : List Element → List Tag.Shape
  | [] => []
  | e :: es => e.outline d ++ outlines d es

end

namespace Element

variable {d : Dialect} {id : NodeId} {origin : Option Origin} {t : Tag} {children : List Element}

theorem outline_lone (h : d.isSelfClosing t false = true) : outline d (.node id origin (.markup t) []) = [.lone t.name] := by
  rw [outline, if_pos]
  exact h

theorem outline_pair (h : d.isSelfClosing t (!children.isEmpty) = false) :
    outline d (.node id origin (.markup t) children) = .opening t.name :: (outlines d children ++ [.closing t.name]) := by
  rw [outline, if_neg]
  intro hboth
  obtain ⟨hempty, hlone⟩ := Bool.and_eq_true_iff.mp hboth
  rw [hempty, Bool.not_true, hlone] at h
  cases h

end Element

/-- Every closing tag closes the tag opened last, and all are closed. -/
def Tag.Shape.nests : (opened : List Bytes) → List Tag.Shape → Bool
  | opened, [] => opened.isEmpty
  | opened, .opening name :: shapes => nests (name :: opened) shapes
  | [], .closing _ :: _ => false
  | last :: opened, .closing name :: shapes => name == last && nests opened shapes
  | opened, .lone _ :: shapes => nests opened shapes

mutual

theorem Element.nests_outline (d : Dialect) (opened : List Bytes) (rest : List Tag.Shape) (e : Element) :
    Tag.Shape.nests opened (e.outline d ++ rest) = Tag.Shape.nests opened rest := by
  obtain ⟨id, origin, content, children⟩ := e
  cases content with
  | markup t =>
    rw [outline]
    split
    · rfl
    · rw [List.cons_append, List.append_assoc, Tag.Shape.nests, Element.nests_outlines d _ _ children]
      simp [Tag.Shape.nests]
  | document =>
    rw [outline]
    exact Element.nests_outlines d opened rest children
  | _ => rfl

theorem Element.nests_outlines (d : Dialect) (opened : List Bytes) (rest : List Tag.Shape) (es : List Element) :
    Tag.Shape.nests opened (outlines d es ++ rest) = Tag.Shape.nests opened rest := by
  cases es with
  | nil => rfl
  | cons e es => rw [outlines, List.append_assoc, Element.nests_outline d _ _ e, Element.nests_outlines d _ _ es]

end

def Dialect.slashes (d : Dialect) : Bool := d.patterns.get? "self_closing_tag" == some "<%s />"

/-- How a tag looks in the dialect. Without the slash, a tag that is closed in itself looks like an opening one. -/
def Dialect.seen (d : Dialect) : Tag.Shape → Tag.Shape
  | .lone name => if d.slashes then .lone name else .opening name
  | shape => shape

/-- Tags and attributes are written as in the built-in dialects. -/
structure Environment.Bracketed (env : Environment) : Prop where
  opening : ∀ {site : Site} {x t : Bytes}, env.pattern site "open_pair_tag" [x] = .ok t →
    t = Ascii.less :: (x ++ [Ascii.greater])
  closing : ∀ {site : Site} {x t : Bytes}, env.pattern site "close_pair_tag" [x] = .ok t →
    t = Ascii.less :: (Ascii.slash :: x ++ [Ascii.greater])
  lone : ∀ {site : Site} {x t : Bytes}, env.pattern site "self_closing_tag" [x] = .ok t →
    t = Ascii.less :: (x ++ (if env.dialect.slashes then [Ascii.space, Ascii.slash] else []) ++ [Ascii.greater])
  pair : ∀ {site : Site} {name value t : Bytes}, env.pattern site "attribute_pattern" [name, value] = .ok t →
    t = Ascii.space :: (name ++ "=\"" ++ value ++ [Ascii.doubleQuote])
  flag : ∀ {site : Site} {name t : Bytes}, env.pattern site "boolean_attribute_pattern" [name, name] = .ok t →
    t = if env.dialect.slashes then Ascii.space :: (name ++ "=\"" ++ name ++ [Ascii.doubleQuote])
      else Ascii.space :: name

theorem Session.Standard.bracketed {s : Session} {d : Dialect} (h : s.Standard d) (e : Element) (fallback : Bytes) :
    (s.environment e d fallback).Bracketed where
  opening hok := by
    have htemplate : Dialect.Constant "open_pair_tag" "<%s>" := by decide
    rw [h.render_eq (by decide) (by decide) (h.constant htemplate) (mapError_eq_ok hok)]
    rfl
  closing hok := by
    have htemplate : Dialect.Constant "close_pair_tag" "</%s>" := by decide
    rw [h.render_eq (by decide) (by decide) (h.constant htemplate) (mapError_eq_ok hok)]
    rfl
  lone hok := by
    have htemplate : ∀ d ∈ Dialect.builtin, ∀ e ∈ d.patterns, e.1 = "self_closing_tag" →
        e.2 = if d.slashes then "<%s />" else "<%s>" := by decide +kernel
    rw [h.render_eq (by decide) (by decide) (htemplate d h.dialect) (mapError_eq_ok hok)]
    change _ = Ascii.less :: (_ ++ (if d.slashes then _ else _) ++ _)
    rw [List.append_assoc]
    cases d.slashes <;> rfl
  pair hok := by
    have htemplate : Dialect.Constant "attribute_pattern" " %s=\"%s\"" := by decide
    rw [h.render_eq (by decide) (by decide) (h.constant htemplate) (mapError_eq_ok hok)]
    simp only [List.append_assoc]
    rfl
  flag hok := by
    have htemplate : ∀ d ∈ Dialect.builtin, ∀ e ∈ d.patterns, e.1 = "boolean_attribute_pattern" →
        e.2 = if d.slashes then " %s=\"%s\"" else " %s" := by decide +kernel
    rw [h.render_eq (by decide) (by decide) (htemplate d h.dialect) (mapError_eq_ok hok)]
    change _ = if d.slashes then _ else _
    simp only [List.append_assoc]
    cases d.slashes
    · exact congrArg (Ascii.space :: ·) (List.append_nil _)
    · rfl

theorem Page.flat_escape (s : Bytes) : Flat (Entity.escape s) := by
  intro c hc
  obtain ⟨b, -, hb⟩ := List.mem_flatMap.mp hc
  have hflat : Flat (Entity.encode b) := by
    by_cases hless : b = Ascii.less
    · subst hless
      decide
    by_cases hgreater : b = Ascii.greater
    · subst hgreater
      decide
    unfold Entity.encode
    split_ifs
    all_goals first | decide | exact List.forall_mem_singleton.mpr ⟨hless, hgreater⟩
  exact hflat c hb

theorem Merge.key_mem_attributes {sets : List (List (Key × Value))} {e : Key × Value} (he : e ∈ attributes sets) :
    ∃ set ∈ sets, ∃ v, (e.1, v) ∈ set := by
  have hfold (es : List (Key × Value)) : ∀ t : Table, e ∈ (es.foldl addEntry t).entries →
      e ∈ t.entries ∨ ∃ v, (e.1, v) ∈ es := by
    induction es with
    | nil => exact fun t h => .inl h
    | cons d es ih =>
      intro t h
      rcases ih _ h with h | ⟨v, hv⟩
      · rcases mem_setEntry h with rfl | h
        · exact .inr ⟨d.2, List.mem_cons_self⟩
        · exact .inl h
      · exact .inr ⟨v, List.mem_cons_of_mem d hv⟩
  rcases hfold _ _ he with h | ⟨v, hv⟩
  · cases h
  · obtain ⟨set, hset, hv⟩ := List.mem_flatten.mp hv
    exact ⟨set, hset, v, hv⟩

section Writing

variable {env : Environment} (hb : env.Bracketed)

open Rendering (Keeps Added)

abbrev Unadded : Progress → Prop := Added (· = [])

theorem Rendering.attributesOf_unadded (owner : NodeId) (attributes : List Attribute) :
    Keeps Unadded (· = attributes) (attributesOf owner attributes) := by
  refine .get fun p hp => .pure ?_
  rw [show p.additions = [] from hp]
  exact List.append_nil attributes

namespace Attributes

include hb

theorem trail_pair {site : Site} {name value text : Bytes} (hname : Word name) (hvalue : Page.Flat value)
    (hok : env.pattern site "attribute_pattern" [name, value] = .ok text) : Tag.Trail text := by
  rw [hb.pair hok]
  exact .pair .nil hname hvalue

theorem trail_flag {site : Site} {name text : Bytes} (hname : Word name)
    (hok : env.pattern site "boolean_attribute_pattern" [name, name] = .ok text) : Tag.Trail text := by
  rw [hb.flag hok]
  split
  · exact .pair .nil hname hname.flat
  · exact .flag .nil hname

theorem trail_entry {site : Site} {e : Key × Value} (hname : Word e.1.toValue.text) {text : Bytes}
    (hok : entry env site e = .ok text) : Tag.Trail text := by
  rcases entry_eq_ok hok with rfl | hok | hok
  · exact .nil
  · exact trail_flag hb hname hok
  · exact trail_pair hb hname (Page.flat_escape _) hok

omit hb in
theorem known_of_static {scope : Scope} {a : Attribute} (ha : a.Static) {c : Contribution}
    (hok : Contribution.ofAttribute env scope a = .ok c) : ∃ v, c.value = some [(Key.ofText a.name, v)] := by
  obtain ⟨key, -, hok⟩ := bind_eq_ok hok
  obtain ⟨⟨known, code⟩, hvalue, hok⟩ := bind_eq_ok hok
  have hknown : ∃ v, known = some v := by
    rcases ha.value with heq | ⟨text, heq⟩ <;> rw [heq] at hvalue <;> cases hvalue <;> exact ⟨_, rfl⟩
  obtain ⟨v, rfl⟩ := hknown
  cases hok
  rw [ha.nameExpr]
  exact ⟨v, rfl⟩

theorem merge_trail {site : Site} {scope : Scope} {attributes : List Attribute} (hstatic : ∀ a ∈ attributes, a.Static)
    {cs : List Contribution} (hok : Contribution.collect env scope attributes [] = .ok cs) :
    Keeps Unadded Tag.Trail (merge env site cs) := by
  obtain ⟨own, hown, hok⟩ := bind_eq_ok hok
  obtain ⟨none, hnone, hok⟩ := bind_eq_ok hok
  cases hnone
  cases hok
  have hvalues : ∀ c ∈ own ++ [], ∃ key v, c.value = some [(key, v)] ∧ Word key.toValue.text := by
    rw [List.append_nil]
    refine mapM_forall hown fun a ha c hc => ?_
    obtain ⟨v, hv⟩ := known_of_static (hstatic a ha) hc
    exact ⟨_, v, hv, (Key.text_ofText a.name).symm ▸ (hstatic a ha).name⟩
  have hsets : ∀ cs : List Contribution, (∀ c ∈ cs, ∃ key v, c.value = some [(key, v)] ∧ Word key.toValue.text) →
      ∃ sets, (cs.mapM fun c => c.value) = some sets ∧ ∀ set ∈ sets, ∀ e ∈ set, Word e.1.toValue.text := by
    intro cs hcs
    induction cs with
    | nil => exact ⟨[], rfl, List.forall_mem_nil _⟩
    | cons c cs ih =>
      obtain ⟨⟨key, v, hc, hword⟩, hcs⟩ := List.forall_mem_cons.mp hcs
      obtain ⟨sets, hsets, hwords⟩ := ih hcs
      refine ⟨[(key, v)] :: sets, by rw [List.mapM_cons, hc, hsets]; rfl, List.forall_mem_cons.mpr ⟨?_, hwords⟩⟩
      exact List.forall_mem_singleton.mpr hword
  obtain ⟨sets, hmerged, hwords⟩ := hsets _ hvalues
  have hset : Contribution.merged? (own ++ []) = some (Merge.attributes sets) := congrArg (Option.map _) hmerged
  rw [merge, hset]
  refine .lift fun text hok => ?_
  obtain ⟨texts, htexts, hok⟩ := bind_eq_ok hok
  cases hok
  refine Tag.Trail.flatten (mapM_forall htexts fun e he text hok => ?_)
  obtain ⟨set, hset, v, hv⟩ := Merge.key_mem_attributes he
  have hname : Word e.1.toValue.text := hwords set hset (e.1, v) hv
  exact trail_entry hb hname hok

theorem single_trail (scope : Scope) {a : Attribute} (ha : a.Static) : Keeps Unadded Tag.Trail (single env scope a) := by
  unfold single
  rcases ha.value with heq | ⟨text, heq⟩ <;> rw [heq] <;> dsimp only
  · rw [bare, ha.nameExpr]
    exact .lift fun text hok => trail_flag hb ha.name hok
  · refine .lift fun text hok => ?_
    obtain ⟨name, hname, hok⟩ := bind_eq_ok hok
    rw [key, ha.nameExpr] at hname
    cases hname
    exact trail_pair hb ha.name (Page.flat_escape _) hok

/-- Merged or not, static attributes are words with values without angle brackets. -/
theorem write_trail (scope : Scope) (owner : NodeId) (site : Site) {attributes : List Attribute}
    (hstatic : ∀ a ∈ attributes, a.Static) : Keeps Unadded Tag.Trail (write env scope owner site attributes []) := by
  unfold write
  have hpending : Keeps Unadded (· = []) (pending env owner attributes []) := .pure rfl
  refine .bind hpending fun left hleft => .bind (Rendering.attributesOf_unadded owner attributes) fun all hall => ?_
  subst hleft hall
  split
  · exact .bind (.lift fun cs hcs => hcs) fun cs hcs => merge_trail hb hstatic hcs
  · exact .bind (.mapM fun a ha => single_trail hb scope (hstatic a ha)) fun texts htexts => .pure (.flatten htexts)

end Attributes

def Page.Written (d : Dialect) (shapes : List Tag.Shape) (t : Bytes) : Prop :=
  ∃ tags, Tagged t tags ∧ (tags.map fun u => Tag.Shape.read (unmarked u)) = shapes.map d.seen

namespace Page.Written

variable {d : Dialect} {s t : Bytes} {shapes more : List Tag.Shape}

theorem flat (h : Flat t) : Written d [] t := ⟨[], .flat h, rfl⟩

theorem append (hs : Written d shapes s) (ht : Written d more t) : Written d (shapes ++ more) (s ++ t) := by
  obtain ⟨tags, htags, hshapes⟩ := hs
  obtain ⟨tags', htags', hmore⟩ := ht
  refine ⟨tags ++ tags', htags.append htags', ?_⟩
  rw [List.map_append, hshapes, hmore, List.map_append]

theorem single {shape : Tag.Shape} (ht : Flat t) (hread : Tag.Shape.read (unmarked t) = d.seen shape) :
    Written d [shape] (Ascii.less :: (t ++ [Ascii.greater])) := ⟨[t], .single ht, congrArg (fun shape => [shape]) hread⟩

end Page.Written

open Page (Written)

theorem Page.flat_mark (id : Nat) : Flat (mark id) := by
  intro c hc
  rcases inMark_of_mem hc with rfl | hmark
  · decide
  · constructor <;> (intro heq; subst heq; revert hmark; decide)

theorem Rendering.mark_flat (env : Environment) (origin : Option Origin) :
    Keeps Unadded Page.Flat (mark env origin) := by
  refine (mark_keeps env origin).mono fun t ht => ?_
  rcases ht with rfl | ⟨id, rfl⟩
  · exact nofun
  · exact Page.flat_mark id

namespace Render

theorem setBlockSeen_unadded (b : Bool) :
    Keeps Unadded (fun _ => True) (modify fun p => { p with blockSeen := b } : Rendering Unit) :=
  .modify fun _ hp => hp

theorem marked_written {d : Dialect} {shapes : List Tag.Shape} {text : Rendering Bytes}
    (ht : Keeps Unadded (Written d shapes) text) (origin : Option Origin) :
    Keeps Unadded (Written d shapes) (marked env origin text) := by
  refine .bind ht fun t ht => .bind (Rendering.mark_flat env origin) fun mark hmark => .pure ?_
  exact (Written.flat hmark).append ht

include hb in
theorem lone_written {site : Site} {name attributes text : Bytes} (hname : Word name)
    (hattributes : Tag.Trail attributes) (hok : env.pattern site "self_closing_tag" [name ++ attributes] = .ok text) :
    Written env.dialect [.lone name] text := by
  rw [hb.lone hok]
  have hflat := Page.flat_append.mpr ⟨hname.flat, hattributes.flat⟩
  cases hslashes : env.dialect.slashes with
  | false =>
    simp only [Bool.false_eq_true, if_false, List.append_nil]
    refine .single hflat ?_
    rw [Tag.Shape.read_opening hname hattributes, Dialect.seen, hslashes]
    rfl
  | true =>
    refine .single (Page.flat_append.mpr ⟨hflat, by decide⟩) ?_
    rw [Dialect.seen, hslashes]
    exact Tag.Shape.read_lone hname hattributes

section Children

variable (hcompact : env.settings.pretty = false) {render : Expansion.Render} {children : List Element}
  (hr : ∀ scope, Keeps Unadded (Written env.dialect (Element.outlines env.dialect children)) (render scope children))

include hr

theorem inner_written (scope : Scope) : Keeps Unadded
    (fun r => Written env.dialect (Element.outlines env.dialect children) r.1) (inner render scope children) := by
  unfold inner
  refine .get fun p _ => .bind (setBlockSeen_unadded false) fun _ _ => .bind (hr scope) fun text htext => ?_
  exact .get fun q _ => .bind (setBlockSeen_unadded _) fun _ _ => .pure htext

include hb hcompact

theorem pair_written (scope : Scope) (site : Site) {name attributes : Bytes} (hname : Word name)
    (hattributes : Tag.Trail attributes) (block : Bool) : Keeps Unadded
      (Written env.dialect (.opening name :: (Element.outlines env.dialect children ++ [.closing name])))
      (pair env render scope site name attributes block children) := by
  unfold pair
  refine .bind (.lift fun opening hok => hb.opening hok) fun opening hopening => ?_
  refine .bind (.lift fun closing hok => hb.closing hok) fun closing hclosing => ?_
  refine .bind (inner_written hr _) fun r htext => .pure ?_
  have hline : (if env.settings.pretty && block && r.2 then env.indentation scope else []) = [] := by
    rw [hcompact]
    rfl
  have hbegin : Written env.dialect [.opening name] opening := by
    rw [hopening]
    exact .single (Page.flat_append.mpr ⟨hname.flat, hattributes.flat⟩) (Tag.Shape.read_opening hname hattributes)
  have hend : Written env.dialect [.closing name] closing := by
    rw [hclosing]
    exact .single (List.forall_mem_cons.mpr ⟨by decide, hname.flat⟩) (Tag.Shape.read_closing hname)
  rw [hline, List.append_nil, List.append_assoc]
  exact hbegin.append (htext.append hend)

theorem markup_written (scope : Scope) (id : NodeId) (origin : Option Origin) (site : Site) {t : Tag} (ht : t.Static) :
    Keeps Unadded (Written env.dialect (Element.outline env.dialect (.node id origin (.markup t) children)))
      (markup env render scope id origin site t children) := by
  have hname : Keeps Unadded (· = t.name) (liftM (tagName env site t) : Rendering Bytes) := by
    rw [tagName, ht.nameExpr]
    exact .lift fun name hok => (Except.ok.inj hok).symm
  unfold markup
  refine .bind hname fun name heq => ?_
  subst heq
  dsimp only
  split
  next => exact .throw _
  next hclosed =>
    rw [ht.assignments]
    refine .bind (Attributes.write_trail hb scope id site ht.attributes) fun attributes hattributes => ?_
    refine .bind (Rendering.mark_flat env origin) fun mark hmark => ?_
    have hline : (if env.settings.pretty && env.dialect.startsLine t then env.indentation scope else []) = [] := by
      rw [hcompact]
      rfl
    have hfinish {shapes : List Tag.Shape} {text : Bytes} (htext : Written env.dialect shapes text) :
        Keeps Unadded (Written env.dialect shapes) (do
          if env.dialect.startsLine t then modify fun p => { p with blockSeen := true }
          return (if env.settings.pretty && env.dialect.startsLine t then env.indentation scope else []) ++ mark ++ text) := by
      rw [hline]
      split
      · exact .bind (setBlockSeen_unadded true) fun _ _ => .pure ((Written.flat hmark).append htext)
      · exact .pure ((Written.flat hmark).append htext)
    cases hself : env.dialect.isSelfClosing t (!children.isEmpty) with
    | true =>
      -- The check before leaves only tags without children here.
      obtain rfl : children = [] := by simpa [hself] using hclosed
      rw [Element.outline_lone hself, if_pos rfl]
      exact .bind (.lift fun text hok => lone_written hb ht.name hattributes hok) fun text htext => hfinish htext
    | false =>
      rw [Element.outline_pair hself, if_neg Bool.false_ne_true]
      exact .bind (pair_written hb hcompact hr scope site ht.name hattributes _) fun text htext => hfinish htext

end Children

theorem listFrom_written {d : Dialect} {one : Element → Rendering Bytes} {es : List Element}
    (ho : ∀ e ∈ es, Keeps Unadded (Written d (e.outline d)) (one e)) (before : Option Forest.Text) :
    Keeps Unadded (Written d (Element.outlines d es)) (listFrom one before es) := by
  induction es generalizing before with
  | nil => exact .pure (.flat nofun)
  | cons e es ih =>
    obtain ⟨he, hes⟩ := List.forall_mem_cons.mp ho
    rw [listFrom, Element.outlines]
    refine .bind he fun first hfirst => .bind (ih hes _) fun rest hrest => .pure ?_
    have hseparator : Page.Flat (separator before (text? e)) := by
      unfold separator
      split
      · split <;> decide
      · exact nofun
    exact ((Written.flat hseparator).append hfirst).append hrest

/-- The text of a static node has the tags of its outline. -/
theorem node_written (hb : env.Bracketed) (hcompact : env.settings.pretty = false) (budget : Nat) (scope : Scope)
    {e : Element} (he : e.Static) :
    Keeps Unadded (Written env.dialect (e.outline env.dialect)) (node env budget scope e) := by
  induction budget generalizing scope e with
  | zero => exact .throw _
  | succ budget ih =>
    rw [node]
    have hchildren {children : List Element} (h : ∀ e ∈ children, Element.Static e) (scope : Scope) :
        Keeps Unadded (Written env.dialect (Element.outlines env.dialect children))
          (listFrom (node env budget scope) none children) :=
      listFrom_written (fun e he => ih scope (h e he)) none
    cases he with
    | document h => exact marked_written (hchildren h scope) _
    | markup ht h => exact markup_written hb hcompact (hchildren h) scope _ _ _ ht
    | @text id origin t children ht =>
      refine marked_written (.pure ?_) origin
      rw [text, if_pos ht]
      exact .flat (Page.flat_escape t.value)

end Render

end Writing

namespace Session

/-- A page of static markup, in a built-in dialect and neither indented nor for debugging, has the tags of its tree in
the order of the tree, and these are nested in one another. -/
theorem format_outline {s after : Session} {forest forest' : Forest} {root : NodeId} {selector : Selector} {e : Element}
    {d : Dialect} {text : Bytes} (he : forest.element root = e) (hstatic : e.Static)
    (hselect : (s.select e selector).2 = .ok d) (hstandard : s.Standard d) (hcompact : s.settings.pretty = false)
    (hdebug : s.settings.debug = false) (hformat : s.format forest (some root) selector = (after, forest', .ok text)) :
    ∃ tags, Page.tags text = some tags ∧ tags.map Tag.Shape.read = (e.outline d).map d.seen ∧
      Tag.Shape.nests [] (e.outline d) := by
  subst he
  obtain ⟨l, fallback, page, q, -, hrun, rfl⟩ := finished_of_format hselect hformat
  obtain ⟨rendered, r, htree, hpage⟩ := Rendering.bind_run_ok hrun
  have hb := hstandard.bracketed (forest.element root) fallback
  have hstart : Unadded { ledger := l, nextNode := forest.size } := rfl
  obtain ⟨-, tags, htags, hshapes⟩ := Render.node_written hb hcompact _ .outermost hstatic hstart htree
  have hdebug : (s.environment (forest.element root) d fallback).settings.debug = false := hdebug
  have hcompact : (s.environment (forest.element root) d fallback).settings.pretty = false := hcompact
  obtain ⟨written, hwritten, htext⟩ := Page.foldlM_step_text hdebug (forest.element root).site r.ledger.fragments {}
    (Page.segments rendered)
  obtain rfl : written = page := by
    rw [Render.page_run hdebug, Page.body, hcompact] at hpage
    exact Except.ok.inj (hwritten.symm.trans (Prod.mk.inj hpage).1)
  have hnests := Element.nests_outline d [] [] (forest.element root)
  rw [List.append_nil] at hnests
  refine ⟨tags.map Page.unmarked, ?_, ?_, hnests⟩
  · rw [htext]
    exact htags.tags_unmarked
  · rw [List.map_map]
    exact hshapes

/-- A tag with two classes, one of them with an angle bracket, around a text with one and a tag without a closing tag. -/
def poster : Forest :=
  ⟨#[{ content := .markup { name := "div", bundle := ⟨[1, 3], []⟩ }, children := [5, 6] },
     { content := .attr { name := "class", value := some 2 }, parent := some 0 },
     { content := .text { value := "a", escape := true }, parent := some 1 },
     { content := .attr { name := "class", value := some 4 }, parent := some 0 },
     { content := .text { value := "b<", escape := true }, parent := some 3 },
     { content := .text { value := "1 < 2", escape := true }, parent := some 0, origin := some ⟨"t.pug", 2, 2⟩ },
     { content := .markup { name := "br" }, parent := some 0, origin := some ⟨"t.pug", 3, 2⟩ }]⟩

theorem poster_static : (poster.element 0).Static := by
  have hword (s : Bytes) (hs : s ≠ []) (hall : s.all Ascii.isWordByte = true) : Word s :=
    ⟨hs, fun c hc => List.all_eq_true.mp hall c hc⟩
  have hbr : Tag.Static ⟨"br", none, false, false, [], []⟩ :=
    ⟨hword _ (by decide) (by decide), rfl, List.forall_mem_nil _, rfl⟩
  have hclass (id : NodeId) (text : Bytes) : Attribute.Static ⟨id, "class", none, .text text true, none⟩ :=
    ⟨hword "class" (by decide) (by decide), rfl, .inr ⟨text, rfl⟩⟩
  refine .markup ⟨hword _ (by decide) (by decide), rfl, ?_, rfl⟩ ?_
  · exact List.forall_mem_cons.mpr ⟨hclass 1 "a", List.forall_mem_singleton.mpr (hclass 3 "b<")⟩
  · exact List.forall_mem_cons.mpr ⟨.text rfl, List.forall_mem_singleton.mpr (.markup hbr (List.forall_mem_nil _))⟩

/-- Where void tags have no slash, the line break is read as an opening tag. -/
theorem poster_outlined :
    let text : Bytes := "<div class=\"a b&lt;\">1 &lt; 2<br></div>"
    (Session.format { settings := {} } poster (some 0) (.named "html")).2.2 = .ok text ∧
    (poster.element 0).outline Dialect.html = [.opening "div", .lone "br", .closing "div"] ∧
    ∃ tags, Page.tags text = some tags ∧ tags.map Tag.Shape.read = [.opening "div", .opening "br", .closing "div"] ∧
      Tag.Shape.nests [] ((poster.element 0).outline Dialect.html) := by
  intro text
  have hok : (Session.format { settings := {} } poster (some 0) (.named "html")).2.2 = .ok text := by decide +kernel
  have houtline : (poster.element 0).outline Dialect.html = [.opening "div", .lone "br", .closing "div"] := by
    decide +kernel
  have hstandard : Standard { settings := {} } Dialect.html := ⟨rfl, rfl, by decide +kernel⟩
  obtain ⟨tags, htags, hread, hnests⟩ := format_outline rfl poster_static rfl hstandard rfl rfl
    (Prod.ext rfl (Prod.ext rfl hok))
  refine ⟨hok, houtline, tags, htags, ?_, hnests⟩
  rw [hread, houtline]
  decide +kernel

end Session

end Stencil
