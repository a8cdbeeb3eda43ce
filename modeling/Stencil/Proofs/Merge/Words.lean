import Stencil.Merge
import Stencil.Proofs.Unicode.Characters

/-! Words of plain text. Bytes below 0x80 are characters of their own, so that plain text is trimmed and cut
into words byte by byte. -/

namespace Stencil

/-- A byte that means the same to every reader: below 0x80, and neither NUL nor form feed. -/
def Ascii.IsPlain (c : UInt8) : Prop := c < 0x80 ∧ c ≠ 0 ∧ c ≠ 0x0c

instance (c : UInt8) : Decidable (Ascii.IsPlain c) := inferInstanceAs (Decidable (_ ∧ _))

def Text.Plain (s : Bytes) : Prop := ∀ c ∈ s, Ascii.IsPlain c

instance (s : Bytes) : Decidable (Text.Plain s) := List.decidableBAll Ascii.IsPlain s

namespace Text

variable {s t w : Bytes} {l m : List Bytes} {c : UInt8}

theorem Plain.append (hs : Plain s) (ht : Plain t) : Plain (s ++ t) := by
  intro c hc
  rcases List.mem_append.mp hc with hc | hc
  · exact hs c hc
  · exact ht c hc

theorem Plain.of_subset (ht : Plain t) (h : s ⊆ t) : Plain s := fun c hc => ht c (h hc)

def single (c : UInt8) : Utf8.Chunk := ⟨some c.toNat, [c]⟩

theorem chunks_of_ascii (hs : ∀ c ∈ s, c < 0x80) : Utf8.chunks s = s.map single := by
  induction s with
  | nil => rfl
  | cons c s ih =>
    obtain ⟨hc, hs⟩ := List.forall_mem_cons.mp hs
    rw [Utf8.chunks_cons_ascii hc, ih hs]
    rfl

theorem chunks_eq (hs : Plain s) : Utf8.chunks s = s.map single := chunks_of_ascii fun c hc => (hs c hc).1

theorem isSpace_single (hc : c < 0x80) : isSpace (single c) = Ascii.isSpace c := by
  have hlt : c.toNat < 128 := UInt8.lt_iff_toNat_lt.mp hc
  rw [Bool.eq_iff_iff]
  simp only [isSpace, single, Option.any_some, isSpaceCode, Ascii.isSpace, Ascii.space, Ascii.tab, Ascii.carriageReturn,
    Bool.or_eq_true, Bool.and_eq_true, decide_eq_true_eq, beq_iff_eq, UInt8.le_iff_toNat_le, ← UInt8.toNat_inj]
  simp only [UInt8.reduceToNat]
  omega

theorem unchunk_map_single (s : Bytes) : Utf8.unchunk (s.map single) = s := by
  induction s with
  | nil => rfl
  | cons c s ih => exact congrArg (c :: ·) ih

/-- The words of plain text, with the bytes since the last space. -/
def wordsOf : (word : Bytes) → Bytes → List Bytes
  | word, [] => if word = [] then [] else [word]
  | word, c :: s =>
    if Ascii.isSpace c then (if word = [] then [] else [word]) ++ wordsOf [] s else wordsOf (word ++ [c]) s

theorem words_eq (hs : Plain s) : words s = wordsOf [] s := by
  have hfrom : ∀ w, wordsFrom w (s.map single) = wordsOf w s := by
    induction s with
    | nil =>
      intro w
      cases w <;> rfl
    | cons c s ih =>
      obtain ⟨hc, hs⟩ := List.forall_mem_cons.mp hs
      intro w
      rw [List.map_cons, wordsFrom, wordsOf, isSpace_single hc.1, ih hs, ih hs]
      cases w with
      | nil => simp [single]
      | cons a w => simp [single]
  rw [words, chunks_eq hs, hfrom]

theorem wordsOf_of_no_space (hs : ∀ c ∈ s, Ascii.isSpace c = false) (w : Bytes) :
    wordsOf w s = if w ++ s = [] then [] else [w ++ s] := by
  induction s generalizing w with
  | nil => simp [wordsOf]
  | cons c s ih =>
    obtain ⟨hc, hs⟩ := List.forall_mem_cons.mp hs
    rw [wordsOf, if_neg (by simp [hc]), ih hs]
    simp

theorem words_of_no_space (hs : Plain s) (hspace : ∀ c ∈ s, Ascii.isSpace c = false) :
    words s = if s = [] then [] else [s] := by
  rw [words_eq hs, wordsOf_of_no_space hspace, List.nil_append]

theorem Plain.join {separator : Bytes} (hsep : Plain separator) (hl : ∀ s ∈ l, Plain s) :
    Plain (Bytes.join separator l) := by
  induction l with
  | nil => exact fun c hc => by cases hc
  | cons s l ih =>
    obtain ⟨hs, hl⟩ := List.forall_mem_cons.mp hl
    cases l with
    | nil => simpa [Bytes.join] using hs
    | cons t l =>
      rw [Bytes.join, List.intercalate_cons_cons]
      exact (hs.append hsep).append (ih hl)

theorem plain_space : Plain [Ascii.space] := by decide

theorem trim_eq (hs : Plain s) : trim s = Bytes.dropWhileRight Ascii.isSpace (s.dropWhile Ascii.isSpace) := by
  have hdrop : ∀ t, Plain t → (t.map single).dropWhile isSpace = (t.dropWhile Ascii.isSpace).map single := by
    intro t ht
    rw [List.dropWhile_map]
    congr 1
    induction t with
    | nil => rfl
    | cons c t ih =>
      obtain ⟨hc, ht⟩ := List.forall_mem_cons.mp ht
      rw [List.dropWhile_cons, List.dropWhile_cons, Function.comp_apply, isSpace_single hc.1, ih ht]
  have hleft : Plain (s.dropWhile Ascii.isSpace).reverse := by
    intro c hc
    exact hs c ((List.dropWhile_sublist _).subset (List.mem_reverse.mp hc))
  rw [trim, chunks_eq hs, hdrop s hs, ← List.map_reverse, hdrop _ hleft, ← List.map_reverse, unchunk_map_single]
  rfl

end Text

end Stencil
