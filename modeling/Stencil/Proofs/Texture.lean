import Mathlib.Data.Bool.AllAny
import Stencil.Entity
import Stencil.Merge
import Stencil.Proofs.Decimal
import Stencil.Proofs.Token.Extent
import Stencil.Proofs.Unicode.Characters
import Stencil.Value.Literal

/-! Textures: properties of texts that cutting a text keeps, and putting a fixed text before, behind or between others.
Escaping, quoting, numbers and merged attributes keep them too, since what they add stands for itself. Some textures look
at single bytes and their neighbours only. -/

namespace Stencil

def Ascii.question : UInt8 := 0x3f

namespace Texture

/-- What the names of temporaries begin with, behind the dollar sign. -/
def stems : List Bytes := ["__pug_key_", "__pug_scope_", "__pug_args_"]

/-- The text has one of these in it. -/
def mentions : Bytes → Bool
  | [] => false
  | c :: s => c == Ascii.underscore && stems.any (fun stem => Bytes.startsWith stem (c :: s)) || mentions s

def isForeign (c : UInt8) : Bool := !stems.flatten.contains c

/-- A fixed text that every texture has. -/
def Plain (s : Bytes) : Prop :=
  (∀ c ∈ s, c ≠ 0 ∧ c ≠ Ascii.less) ∧ s.IsChain (fun c d => c ≠ Ascii.question ∨ d ≠ Ascii.greater) ∧ mentions s = false

/-- A fixed text that may stand before any other. -/
def Leads (s : Bytes) : Prop := Plain s ∧ ∀ c ∈ s.getLast?, c ≠ Ascii.question ∧ isForeign c

/-- A fixed text that may stand after any other. -/
def Trails (s : Bytes) : Prop := Plain s ∧ ∀ c ∈ s.head?, c ≠ Ascii.greater ∧ isForeign c

/-- A fixed text that may stand between any two others. -/
def Parts (s : Bytes) : Prop := s ≠ [] ∧ Leads s ∧ Trails s

instance (s : Bytes) : Decidable (Plain s) :=
  have := List.decidableBAll (fun c : UInt8 => c ≠ 0 ∧ c ≠ Ascii.less) s
  inferInstanceAs (Decidable (_ ∧ _))

instance (s : Bytes) : Decidable (Leads s) :=
  have : Decidable (∀ c ∈ s.getLast?, c ≠ Ascii.question ∧ isForeign c) := Option.decidableForallMem _
  inferInstanceAs (Decidable (_ ∧ _))

instance (s : Bytes) : Decidable (Trails s) :=
  have : Decidable (∀ c ∈ s.head?, c ≠ Ascii.greater ∧ isForeign c) := Option.decidableForallMem _
  inferInstanceAs (Decidable (_ ∧ _))

instance (s : Bytes) : Decidable (Parts s) := inferInstanceAs (Decidable (_ ∧ _))

theorem mentions_iff {s : Bytes} : mentions s = true ↔ ∃ stem ∈ stems, stem <:+: s := by
  have hfirst : ∀ stem ∈ stems, stem.head? = some Ascii.underscore := by decide
  induction s with
  | nil =>
    refine ⟨nofun, fun ⟨stem, hstem, hwithin⟩ => ?_⟩
    have hhead := hfirst stem hstem
    rw [List.infix_nil.mp hwithin] at hhead
    cases hhead
  | cons c s ih =>
    have hstarts : (c == Ascii.underscore && stems.any fun stem => Bytes.startsWith stem (c :: s)) = true ↔
        ∃ stem ∈ stems, stem <+: c :: s := by
      rw [Bool.and_eq_true, List.any_eq_true, beq_iff_eq]
      simp only [Bytes.startsWith_eq_true]
      refine ⟨fun h => h.2, fun ⟨stem, hstem, hprefix⟩ => ⟨?_, stem, hstem, hprefix⟩⟩
      have hhead := hfirst stem hstem
      obtain ⟨rest, hrest⟩ := hprefix
      cases stem with
      | nil => cases hhead
      | cons a stem =>
        rw [← (List.cons.inj hrest).1]
        exact Option.some.inj hhead
    rw [mentions, Bool.or_eq_true]
    refine (or_congr hstarts ih).trans ?_
    constructor
    · rintro (⟨stem, hstem, h⟩ | ⟨stem, hstem, h⟩)
      · exact ⟨stem, hstem, h.isInfix⟩
      · exact ⟨stem, hstem, h.trans (List.suffix_cons c s).isInfix⟩
    · rintro ⟨stem, hstem, h⟩
      rcases List.infix_cons_iff.mp h with h | h
      · exact .inl ⟨stem, hstem, h⟩
      · exact .inr ⟨stem, hstem, h⟩

end Texture

/-- A property of texts that keeps to their parts, and that fixed texts neither take away nor bring in. -/
structure Texture where
  Holds : Bytes → Prop
  plain : ∀ {s}, Texture.Plain s → Holds s
  excerpt : ∀ {s t}, Holds t → s <:+: t → Holds s
  lead : ∀ {s t}, Texture.Leads s → Holds t → Holds (s ++ t)
  trail : ∀ {s t}, Holds s → Texture.Trails t → Holds (s ++ t)
  part : ∀ {s t u}, Holds s → Texture.Parts t → Holds u → Holds (s ++ t ++ u)
  figure : ∀ {s}, (∀ c ∈ s, Ascii.isFigure c) → Holds s

namespace Texture

variable {T : Texture} {s t u : Bytes} {c : UInt8} {parts : List Bytes}

theorem Plain.holds (h : Plain s) : T.Holds s := T.plain h

theorem holds_nil : T.Holds [] := Plain.holds (by decide)

namespace Holds

theorem excerpt (ht : T.Holds t) (h : s <:+: t) : T.Holds s := T.excerpt ht h

theorem lead (hs : Leads s) (ht : T.Holds t) : T.Holds (s ++ t) := T.lead hs ht

theorem trail (hs : T.Holds s) (ht : Trails t) : T.Holds (s ++ t) := T.trail hs ht

theorem part (hs : T.Holds s) (ht : Parts t) (hu : T.Holds u) : T.Holds (s ++ t ++ u) := T.part hs ht hu

theorem cons (hc : Leads [c]) (hs : T.Holds s) : T.Holds (c :: s) := .lead hc hs

theorem bracketed (hs : T.Holds s) : T.Holds (Ascii.lbracket :: (s ++ [Ascii.rbracket])) :=
  .cons (by decide) (hs.trail (by decide))

theorem join {separator : Bytes} (hseparator : Parts separator) (h : ∀ s ∈ parts, T.Holds s) :
    T.Holds (Bytes.join separator parts) := by
  induction parts with
  | nil => exact holds_nil
  | cons s parts ih =>
    obtain ⟨hs, hparts⟩ := List.forall_mem_cons.mp h
    cases parts with
    | nil => simpa [Bytes.join] using hs
    | cons t parts =>
      rw [Bytes.join, List.intercalate_cons_cons]
      exact hs.part hseparator (ih hparts)

theorem flatMap {f : UInt8 → Bytes} (hf : ∀ c, f c = [c] ∨ Parts (f c)) (h : T.Holds s) : T.Holds (s.flatMap f) := by
  -- The bytes kept since the last one that gave way stand before those to come.
  suffices hbehind : ∀ before, T.Holds (before ++ s) → T.Holds (before ++ s.flatMap f) from hbehind [] h
  clear h
  induction s with
  | nil => exact fun _ h => h
  | cons c s ih =>
    intro before h
    rw [List.flatMap_cons]
    rcases hf c with hkept | hparts
    · have hmore := ih (before ++ [c])
      rw [List.append_assoc, List.append_assoc] at hmore
      rw [hkept]
      exact hmore h
    · have hbefore : T.Holds before := h.excerpt (List.prefix_append before (c :: s)).isInfix
      have hrest : T.Holds ([] ++ s) := h.excerpt ⟨before ++ [c], [], by simp⟩
      rw [← List.append_assoc]
      exact hbefore.part hparts (ih [] hrest)

end Holds

end Texture

/-- Which bytes a text may hold, and which of them may follow one another. -/
structure Bytewise where
  ok : UInt8 → Prop
  joins : UInt8 → UInt8 → Prop
  ok_of : ∀ {c : UInt8}, c ≠ 0 → c ≠ Ascii.less → ok c
  joins_of : ∀ {c d : UInt8}, c ≠ Ascii.question ∨ d ≠ Ascii.greater → joins c d

namespace Bytewise

variable (B : Bytewise)

def Holds (s : Bytes) : Prop := (∀ c ∈ s, B.ok c) ∧ s.IsChain B.joins

variable {B} {s t u : Bytes} {c : UInt8}

theorem holds_cons : B.Holds (c :: s) ↔ B.ok c ∧ (∀ d ∈ s.head?, B.joins c d) ∧ B.Holds s := by
  rw [Holds, List.forall_mem_cons, List.isChain_cons, Holds]
  tauto

theorem holds_append :
    B.Holds (s ++ t) ↔ B.Holds s ∧ B.Holds t ∧ ∀ c ∈ s.getLast?, ∀ d ∈ t.head?, B.joins c d := by
  rw [Holds, List.forall_mem_append, List.isChain_append, Holds, Holds]
  tauto

/-- Neighbours do not matter where no two bytes of the text are the ends of `?>`. -/
theorem holds_of_mem (hok : ∀ c ∈ s, B.ok c) (hjoins : ∀ c ∈ s, ∀ d ∈ s, c ≠ Ascii.question ∨ d ≠ Ascii.greater) :
    B.Holds s := by
  induction s with
  | nil => exact ⟨nofun, .nil⟩
  | cons c s ih =>
    have hs := ih (fun d hd => hok d (List.mem_cons_of_mem c hd)) fun a ha b hb =>
      hjoins a (List.mem_cons_of_mem c ha) b (List.mem_cons_of_mem c hb)
    refine holds_cons.mpr ⟨hok c List.mem_cons_self, fun d hd => B.joins_of ?_, hs⟩
    exact hjoins c List.mem_cons_self d (List.mem_cons_of_mem c (List.mem_of_mem_head? hd))

theorem holds_name (h : s.all fun c => Ascii.isNameChar c || c == Ascii.dollar) : B.Holds s := by
  have hnot {b : UInt8} (hb : (Ascii.isNameChar b || b == Ascii.dollar) = false) : ∀ c ∈ s, c ≠ b := by
    rintro c hc rfl
    rw [List.all_eq_true.mp h c hc] at hb
    cases hb
  refine holds_of_mem (fun c hc => B.ok_of ?_ ?_) fun c hc _ _ => .inl ?_
  all_goals exact hnot (by decide) c hc

theorem holds_of_plain (h : Texture.Plain s) : B.Holds s :=
  ⟨fun c hc => B.ok_of (h.1 c hc).1 (h.1 c hc).2, h.2.1.imp fun _ _ => B.joins_of⟩

theorem Holds.excerpt (ht : B.Holds t) (h : s <:+: t) : B.Holds s := by
  refine ⟨fun c hc => ht.1 c (h.subset hc), ?_⟩
  obtain ⟨before, after, rfl⟩ := h
  exact ht.2.left_of_append.right_of_append

/-- A text that neither begins nor ends in the middle of `?>` has it nowhere between two others. -/
theorem Holds.part (hs : B.Holds s) (ht : B.Holds t) (hne : t ≠ []) (hhead : t.head? ≠ some Ascii.greater)
    (hlast : t.getLast? ≠ some Ascii.question) (hu : B.Holds u) : B.Holds (s ++ t ++ u) := by
  refine holds_append.mpr ⟨holds_append.mpr ⟨hs, ht, fun c _ d hd => B.joins_of (.inr ?_)⟩, hu, fun c hc d _ =>
    B.joins_of (.inl ?_)⟩
  · rintro rfl
    exact hhead hd
  · rintro rfl
    rw [List.getLast?_append_of_ne_nil s hne] at hc
    exact hlast hc

def texture (B : Bytewise) : Texture where
  Holds := B.Holds
  plain := holds_of_plain
  excerpt := Holds.excerpt
  lead hs ht := by
    refine holds_append.mpr ⟨holds_of_plain hs.1, ht, fun c hc d _ => B.joins_of (.inl ?_)⟩
    exact (hs.2 c hc).1
  trail hs ht := by
    refine holds_append.mpr ⟨hs, holds_of_plain ht.1, fun c _ d hd => B.joins_of (.inr ?_)⟩
    exact (ht.2 d hd).1
  part hs ht hu := by
    refine hs.part (holds_of_plain ht.2.1.1) ht.1 (fun hhead => ?_) (fun hlast => ?_) hu
    · exact (ht.2.2.2 _ hhead).1 rfl
    · exact (ht.2.1.2 _ hlast).1 rfl
  figure {s} h := by
    have hnot {b : UInt8} (hb : Ascii.isFigure b = false) : ∀ c ∈ s, c ≠ b := by
      rintro c hc rfl
      rw [h c hc] at hb
      cases hb
    refine holds_of_mem (fun c hc => B.ok_of ?_ ?_) fun c hc _ _ => .inl ?_
    all_goals exact hnot (by decide) c hc

theorem holds_numbered (h : s.all fun c => Ascii.isNameChar c || c == Ascii.dollar) (n : Nat) :
    B.Holds (s ++ Bytes.ofNat n) := by
  refine holds_name (List.all_append.trans (Bool.and_eq_true_iff.mpr ⟨h, List.all_eq_true.mpr fun c hc => ?_⟩))
  simp [Ascii.isNameChar, Bytes.isDigit_ofNat n c hc]

end Bytewise

open Texture (holds_nil)

variable {T : Texture}

theorem holds_of_isFigure {s : Bytes} (h : ∀ c ∈ s, Ascii.isFigure c) : T.Holds s := T.figure h

theorem Entity.holds_escape {s : Bytes} (h : T.Holds s) : T.Holds (escape s) := by
  refine h.flatMap fun c => ?_
  unfold encode
  split_ifs
  case neg => exact .inl rfl
  all_goals exact .inr (by decide)

namespace Quoted

variable {s : Bytes}

theorem escape_eq (s : Bytes) : escape s = s.flatMap fun c =>
    if c == Ascii.backslash || c == Ascii.singleQuote then [Ascii.backslash, c] else [c] := by
  induction s with
  | nil => rfl
  | cons c s ih =>
    rw [escape, List.flatMap_cons, ← ih]
    split <;> rfl

theorem holds_escape (h : T.Holds s) : T.Holds (escape s) := by
  rw [escape_eq]
  refine h.flatMap fun c => ?_
  split
  next hspecial =>
    right
    rcases Bool.or_eq_true_iff.mp hspecial with heq | heq <;> (rw [eq_of_beq heq]; decide)
  next => exact .inl rfl

theorem holds_encode (h : T.Holds s) : T.Holds (encode s) := .cons (by decide) ((holds_escape h).trail (by decide))

theorem head?_unescape {d : UInt8} (hd : d ∈ (unescape s).head?) : d ≠ Ascii.greater ∨ d ∈ s.head? := by
  unfold unescape at hd
  split at hd
  next c e s =>
    split at hd
    next hspecial =>
      left
      obtain rfl := Option.some.inj hd
      rcases Bool.or_eq_true_iff.mp (Bool.and_eq_true_iff.mp hspecial).2 with heq | heq <;> (rw [eq_of_beq heq]; decide)
    next => exact .inr hd
  next => exact .inr hd

theorem holds_unescape {B : Bytewise} (h : B.Holds s) : B.Holds (unescape s) := by
  fun_induction unescape s with
  | case1 c d s hspecial ih =>
    have hfixed : Texture.Leads [d] := by
      rcases Bool.or_eq_true_iff.mp (Bool.and_eq_true_iff.mp hspecial).2 with heq | heq <;> (rw [eq_of_beq heq]; decide)
    exact B.texture.lead hfixed (ih (Bytewise.holds_cons.mp (Bytewise.holds_cons.mp h).2.2).2.2)
  | case2 c d s _ ih =>
    obtain ⟨hc, hjoins, hs⟩ := Bytewise.holds_cons.mp h
    refine Bytewise.holds_cons.mpr ⟨hc, fun e he => ?_, ih hs⟩
    rcases head?_unescape he with hne | he
    · exact B.joins_of (.inr hne)
    · exact hjoins e he
  | case3 s => exact h

end Quoted

def Key.Each (P : Bytes → Prop) : Key → Prop
  | .int _ => True
  | .name s => P s

inductive Value.Each (P : Bytes → Prop) : Value → Prop
  | null : Each P .null
  | bool (b : Bool) : Each P (.bool b)
  | int (n : Int64) : Each P (.int n)
  | float (x : Binary64) : Each P (.float x)
  | string {s : Bytes} (h : P s) : Each P (.string s)
  | array {es : List (Key × Value)} (hkeys : ∀ e ∈ es, e.1.Each P) (hvalues : ∀ e ∈ es, Each P e.2) :
      Each P (.array es)

def EachEntry (P : Bytes → Prop) (es : List (Key × Value)) : Prop := ∀ e ∈ es, e.1.Each P ∧ e.2.Each P

variable {v : Value} {key : Key} {es : List (Key × Value)}

theorem Value.each_array {P : Bytes → Prop} : Value.Each P (.array es) ↔ EachEntry P es := by
  refine ⟨fun h => ?_, fun h => .array (fun e he => (h e he).1) fun e he => (h e he).2⟩
  cases h with
  | array hkeys hvalues => exact fun e he => ⟨hkeys e he, hvalues e he⟩

theorem Value.Each.both {P Q R : Bytes → Prop} (hR : ∀ s, P s → Q s → R s) (h : v.Each P) (h' : v.Each Q) : v.Each R := by
  induction h with
  | null => exact .null
  | bool b => exact .bool b
  | int n => exact .int n
  | float x => exact .float x
  | string hs =>
    cases h' with
    | string hs' => exact .string (hR _ hs hs')
  | array hkeys _ ih =>
    cases h' with
    | array hkeys' hvalues' =>
      refine .array (fun e he => ?_) fun e he => ih e he (hvalues' e he)
      have hkey := hkeys e he
      have hkey' := hkeys' e he
      revert hkey hkey'
      cases e.1 with
      | int n => exact fun _ _ => trivial
      | name s => exact hR s

theorem Value.Each.text (h : v.Each T.Holds) : T.Holds v.text := by
  cases h with
  | null => exact holds_nil
  | bool b =>
    cases b
    · exact holds_nil
    · exact Texture.Plain.holds (by decide : Texture.Plain "1")
  | int n => exact holds_of_isFigure (Bytes.figure_ofInt _)
  | float x => exact holds_of_isFigure (Decimal.figure_write (by decide) x)
  | string h => exact h
  | array _ _ => exact Texture.Plain.holds (by decide : Texture.Plain "Array")

theorem Key.Each.toValue {P : Bytes → Prop} (h : key.Each P) : key.toValue.Each P := by
  cases key with
  | int n => exact .int n
  | name s => exact .string h

theorem Key.each_ofText {P : Bytes → Prop} {s : Bytes} (h : P s) : (Key.ofText s).Each P := by
  rw [Key.ofText]
  split
  · split
    · trivial
    · exact h
  · exact h

theorem Key.each_ofValue (h : v.Each T.Holds) : (Key.ofValue v).Each T.Holds := by
  cases h with
  | null => exact holds_nil
  | bool b => trivial
  | int n => trivial
  | float x => trivial
  | string h => exact Key.each_ofText h
  | array _ _ => exact Texture.Plain.holds (by decide : Texture.Plain "Array")

theorem Literal.holds_writeKey (h : key.Each T.Holds) : T.Holds (writeKey key) := by
  cases key with
  | int n => exact holds_of_isFigure (Bytes.figure_ofInt _)
  | name s => exact Quoted.holds_encode h

theorem Literal.holds_write (h : v.Each T.Holds) : T.Holds (write v) := by
  induction h with
  | null => exact Texture.Plain.holds (by decide : Texture.Plain "null")
  | bool b =>
    cases b
    · exact Texture.Plain.holds (by decide : Texture.Plain "false")
    · exact Texture.Plain.holds (by decide : Texture.Plain "true")
  | int n => exact holds_of_isFigure (Bytes.figure_ofInt _)
  | float x => exact holds_of_isFigure (Decimal.figure_write (by decide) x)
  | string h => exact Quoted.holds_encode h
  | @array es hkeys _ ih =>
    have hentries : ∀ text ∈ writeEntries es, T.Holds text := by
      clear * - hkeys ih
      induction es with
      | nil => exact List.forall_mem_nil _
      | cons e es ihes =>
        obtain ⟨key, v⟩ := e
        obtain ⟨hkey, hkeys⟩ := List.forall_mem_cons.mp hkeys
        obtain ⟨hvalue, hvalues⟩ := List.forall_mem_cons.mp ih
        rw [writeEntries]
        exact List.forall_mem_cons.mpr ⟨(holds_writeKey hkey).part (by decide) hvalue, ihes hkeys hvalues⟩
    rw [write]
    exact (Texture.Holds.join (by decide) hentries).bracketed

namespace Merge

theorem holds_words (h : v.Each T.Holds) : ∀ w ∈ words v, T.Holds w :=
  fun _ hw => h.text.excerpt (Text.infix_of_mem_words hw)

theorem holds_valueClasses (h : v.Each T.Holds) : ∀ w ∈ valueClasses v, T.Holds w := by
  intro w hw
  cases h with
  | null => cases hw
  | bool b =>
    cases b with
    | false => cases hw
    | true => exact holds_words (.bool true) w hw
  | int n => exact holds_words (.int n) w hw
  | float x => exact holds_words (.float x) w hw
  | string h => exact holds_words (.string h) w hw
  | @array es hkeys hvalues =>
    obtain ⟨⟨key, v⟩, he, hw⟩ := List.mem_flatMap.mp hw
    have hvalue : v.Each T.Holds := hvalues _ he
    cases key with
    | name s =>
      have hname : T.Holds s := hkeys _ he
      rw [entryClasses] at hw
      split at hw
      · exact hname.excerpt (Text.infix_of_mem_words hw)
      · cases hw
    | int n =>
      cases hvalue with
      | array _ hitems =>
        obtain ⟨item, hitem, hw⟩ := List.mem_flatMap.mp hw
        exact holds_words (hitems item hitem) w hw
      | null => exact holds_words .null w hw
      | bool b => exact holds_words (.bool b) w hw
      | int m => exact holds_words (.int m) w hw
      | float x => exact holds_words (.float x) w hw
      | string h => exact holds_words (.string h) w hw

theorem infix_of_mem_declarations {s d : Bytes} (hd : d ∈ declarations s) : d <:+: s := by
  have hcut : Bytes.dropWhileRight (· == Ascii.semicolon) (Text.trim s) <:+: Text.trim s := by
    have hright := List.dropWhile_suffix (l := (Text.trim s).reverse) (· == Ascii.semicolon)
    have hkept := hright.isInfix.reverse
    rwa [List.reverse_reverse] at hkept
  rw [declarations] at hd
  split at hd
  · cases hd
  · rw [List.mem_singleton.mp hd]
    exact hcut.trans (Text.infix_trim s)

theorem holds_valueStyles (h : v.Each T.Holds) : ∀ d ∈ valueStyles v, T.Holds d := by
  cases h with
  | @array es hkeys hvalues =>
    intro d hd
    obtain ⟨⟨key, v⟩, he, hd⟩ := List.mem_flatMap.mp hd
    cases key with
    | int n => exact (hvalues _ he).text.excerpt (infix_of_mem_declarations hd)
    | name s =>
      have hname : T.Holds s := hkeys _ he
      rw [entryStyles] at hd
      split at hd
      · cases hd
      · rw [List.mem_singleton.mp hd, List.append_cons]
        exact hname.part (by decide) (hvalues _ he).text
  | null => exact fun d hd => Value.Each.null.text.excerpt (infix_of_mem_declarations hd)
  | bool b => exact fun d hd => (Value.Each.bool b).text.excerpt (infix_of_mem_declarations hd)
  | int n => exact fun d hd => (Value.Each.int n).text.excerpt (infix_of_mem_declarations hd)
  | float x => exact fun d hd => (Value.Each.float x).text.excerpt (infix_of_mem_declarations hd)
  | string h => exact fun d hd => h.excerpt (infix_of_mem_declarations hd)

theorem each_setEntry {P : Bytes → Prop} (hkey : key.Each P) (hv : v.Each P) (h : EachEntry P es) :
    EachEntry P (setEntry key v es) := by
  induction es with
  | nil => exact List.forall_mem_singleton.mpr ⟨hkey, hv⟩
  | cons e es ih =>
    obtain ⟨k, w⟩ := e
    obtain ⟨he, hes⟩ := List.forall_mem_cons.mp h
    rw [setEntry]
    split
    · exact List.forall_mem_cons.mpr ⟨⟨he.1, hv⟩, hes⟩
    · exact List.forall_mem_cons.mpr ⟨he, ih hes⟩

theorem each_combine {t : Table} (ht : EachEntry T.Holds t.entries) (hv : v.Each T.Holds) :
    (combine t key v).Each T.Holds := by
  have hprev : ((t.find? key).getD .null).Each T.Holds := by
    rw [Table.find?]
    cases hfind : t.entries.find? (·.1 = key) with
    | none => exact .null
    | some e => exact (ht e (List.mem_of_find?_eq_some hfind)).2
  have hboth : ∀ w ∈ [(t.find? key).getD .null, v], w.Each T.Holds := by simp [hprev, hv]
  rw [combine]
  split_ifs
  · refine .string (Texture.Holds.join (by decide) fun w hw => ?_)
    obtain ⟨u, hu, hw⟩ := List.mem_flatMap.mp (List.mem_eraseDups.mp hw)
    exact holds_valueClasses (hboth u hu) w hw
  · refine .string (Texture.Holds.join (by decide) fun d hd => ?_)
    obtain ⟨u, hu, hd⟩ := List.mem_flatMap.mp hd
    exact holds_valueStyles (hboth u hu) d hd
  · exact hv

theorem each_attributes {sets : List (List (Key × Value))} (h : ∀ set ∈ sets, EachEntry T.Holds set) :
    EachEntry T.Holds (attributes sets) := by
  have hall : EachEntry T.Holds sets.flatten := by
    intro e he
    obtain ⟨set, hset, he⟩ := List.mem_flatten.mp he
    exact h set hset e he
  suffices hfold : ∀ (es : List (Key × Value)) (t : Table), EachEntry T.Holds es → EachEntry T.Holds t.entries →
      EachEntry T.Holds (es.foldl addEntry t).entries from hfold _ _ hall (List.forall_mem_nil _)
  intro es
  induction es with
  | nil => exact fun _ _ ht => ht
  | cons e es ih =>
    intro t hes ht
    obtain ⟨he, hes⟩ := List.forall_mem_cons.mp hes
    exact ih _ hes (each_setEntry he.1 (each_combine ht he.2) ht)

end Merge

end Stencil
