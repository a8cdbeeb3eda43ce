import Stencil.Proofs.Literal.Grammar
import Stencil.Proofs.Texture

/-! The texts in the constant a literal denotes. They are cut out of its source but for the characters that escapes stand
for, and among these the null byte is the only one that a texture could leave out. -/

namespace Stencil.Literal

open Texture (holds_nil)
open Bytewise (holds_cons)

variable {T : Texture} {B : Bytewise} {s : Bytes}

theorem escapeLetter?_ne {c e : UInt8} (h : escapeLetter? c = some e) :
    e ≠ Ascii.less ∧ e ≠ Ascii.question ∧ e ≠ Ascii.greater := by
  have hall : ∀ c : Fin 256, (escapeLetter? (.ofFin c)).all fun e =>
      e ≠ Ascii.less ∧ e ≠ Ascii.question ∧ e ≠ Ascii.greater := by decide +kernel
  exact of_decide_eq_true ((Option.all_eq_true _ _).mp (hall c.toFin) e h)

theorem head?_unescapeDouble {d : UInt8} (hd : d ∈ (unescapeDouble s).head?) : d ≠ Ascii.greater ∨ d ∈ s.head? := by
  unfold unescapeDouble at hd
  split at hd
  next c e s =>
    split at hd
    · split at hd
      next letter hletter =>
        obtain rfl := Option.some.inj hd
        exact .inl (escapeLetter?_ne hletter).2.2
      next => exact .inr hd
    · exact .inr hd
  next => exact .inr hd

theorem holds_unescapeDouble (hzero : B.ok 0) (h : B.Holds s) : B.Holds (unescapeDouble s) := by
  have hkept {c : UInt8} {s : Bytes} (h : B.Holds (c :: s)) (ih : B.Holds (unescapeDouble s)) :
      B.Holds (c :: unescapeDouble s) := by
    obtain ⟨hc, hjoins, -⟩ := holds_cons.mp h
    refine holds_cons.mpr ⟨hc, fun d hd => ?_, ih⟩
    rcases head?_unescapeDouble hd with hne | hd
    · exact B.joins_of (.inr hne)
    · exact hjoins d hd
  fun_induction unescapeDouble s with
  | case1 c d s _ e hletter ih =>
    obtain ⟨hless, hquestion, -⟩ := escapeLetter?_ne hletter
    have hok : B.ok e := by
      by_cases he : e = 0
      · exact he ▸ hzero
      · exact B.ok_of he hless
    refine holds_cons.mpr ⟨hok, fun _ _ => B.joins_of (.inl hquestion), ih ?_⟩
    exact (holds_cons.mp (holds_cons.mp h).2.2).2.2
  | case2 c d s _ _ ih => exact hkept h (ih (holds_cons.mp h).2.2)
  | case3 c d s _ ih => exact hkept h (ih (holds_cons.mp h).2.2)
  | case4 s => exact h

theorem holds_unquote? (hzero : B.ok 0) {text : Bytes} (h : B.Holds text) (hs : unquote? text = some s) : B.Holds s := by
  unfold unquote? at hs
  split at hs
  next q c rest =>
    have hbody : B.Holds (c :: rest).dropLast :=
      (holds_cons.mp h).2.2.excerpt (List.dropLast_prefix (c :: rest)).isInfix
    split_ifs at hs
    · exact Option.some.inj hs ▸ Quoted.holds_unescape hbody
    · exact Option.some.inj hs ▸ holds_unescapeDouble hzero hbody
  next => cases hs

variable {v : Value} {P : Bytes → Prop}

theorem each_number? {text : Bytes} {negative : Bool} (h : number? text negative = some v) : v.Each P := by
  unfold number? at h
  dsimp only at h
  split at h
  · obtain rfl := Option.some.inj h
    exact .int _
  · obtain ⟨x, -, rfl⟩ := Option.map_eq_some_iff.mp h
    exact .float x

theorem each_constants : ∀ e ∈ constants, e.2.Each P := by
  simp only [constants, List.forall_mem_cons]
  exact ⟨.bool true, .bool false, .null, List.forall_mem_nil _⟩

theorem each_set {t : Table} (ht : EachEntry T.Holds t.entries) {w : Value} (hv : v.Each T.Holds) (hw : w.Each T.Holds) :
    EachEntry T.Holds (t.set v w).entries := Merge.each_setEntry (Key.each_ofValue hv) hw ht

theorem each_append {t : Table} (ht : EachEntry T.Holds t.entries) (hv : v.Each T.Holds) :
    EachEntry T.Holds (t.append v).entries :=
  have hkey : (Key.int t.next).Each T.Holds := trivial
  Merge.each_setEntry hkey hv ht

def Entry.Each (P : Bytes → Prop) (e : Entry) : Prop := (∀ key ∈ e.1, key.Each P) ∧ e.2.Each P

theorem Entry.Each.add {e : Entry} (he : e.Each T.Holds) {t : Table} (ht : EachEntry T.Holds t.entries) :
    EachEntry T.Holds (addEntry t e).entries := by
  obtain ⟨_ | key, v⟩ := e
  · exact each_append ht he.2
  · exact each_set ht (he.1 key rfl) he.2

theorem each_foldl {es : List Entry} (hes : ∀ e ∈ es, e.Each T.Holds) {t : Table} (ht : EachEntry T.Holds t.entries) :
    EachEntry T.Holds (es.foldl addEntry t).entries := by
  induction es generalizing t with
  | nil => exact ht
  | cons e es ih =>
    obtain ⟨he, hes⟩ := List.forall_mem_cons.mp hes
    exact ih hes (he.add ht)

theorem each_arrayOf {es : List Entry} (hes : ∀ e ∈ es, e.Each T.Holds) : (arrayOf es).Each T.Holds :=
  Value.each_array.mpr (each_foldl hes (List.forall_mem_nil _))

def Form.Each (P : Bytes → Prop) : Form → Prop
  | .literal v => v.Each P
  | .entry e => e.Each P
  | .entries es => ∀ e ∈ es, e.Each P

/-- What is denoted keeps the texture of the pieces. -/
theorem Forms.each (hzero : B.ok 0) {form : Form} {ps : List (Token.Kind × Bytes)} (h : Forms form ps)
    (hps : ∀ p ∈ ps, B.texture.Holds p.2) : form.Each B.texture.Holds := by
  induction h with
  | single body => exact .string (holds_unquote? hzero (hps _ List.mem_cons_self) (unquote?_quoted _ body))
  | double body => exact .string (holds_unquote? hzero (hps _ List.mem_cons_self) (unquote?_quoted _ body))
  | number h => exact each_number? h
  | plus h => exact each_number? h
  | minus h => exact each_number? h
  | word h => exact each_constants _ h
  | brackets _ ih =>
    obtain ⟨-, hps⟩ := List.forall_mem_cons.mp hps
    exact each_arrayOf (ih (List.forall_mem_append.mp hps).1)
  | array _ _ ih =>
    obtain ⟨-, -, hps⟩ := by simpa only [List.forall_mem_cons] using hps
    exact each_arrayOf (ih (List.forall_mem_append.mp hps).1)
  | plain _ ih => exact ⟨by simp, ih hps⟩
  | keyed _ _ _ ihkey ih =>
    obtain ⟨hks, hps⟩ := List.forall_mem_append.mp hps
    exact ⟨by rintro _ ⟨⟩; exact ihkey hks, ih (List.forall_mem_cons.mp hps).2⟩
  | nil => exact List.forall_mem_nil _
  | last _ ih => exact List.forall_mem_singleton.mpr (ih hps)
  | cons _ _ ihe ih =>
    obtain ⟨hps, hqs⟩ := List.forall_mem_append.mp hps
    exact List.forall_mem_cons.mpr ⟨ihe hps, ih (List.forall_mem_cons.mp hqs).2⟩

/-- Where null bytes are allowed, the constant has the texture of the source. -/
theorem each_evaluate (hzero : B.ok 0) {src : Bytes} (h : B.texture.Holds src) (hv : evaluate src = some v) : v.Each B.texture.Holds := by
  obtain ⟨ts, hts, hforms⟩ := evaluate_eq_some_iff.mp hv
  refine hforms.each hzero fun p hp => ?_
  obtain ⟨t, ht, rfl⟩ := List.mem_map.mp (List.mem_of_mem_filter hp)
  refine h.excerpt ?_
  rw [← (Token.tokenize_covers hts).flatMap_text]
  exact List.infix_of_mem_flatten (List.mem_map_of_mem ht)

end Stencil.Literal
