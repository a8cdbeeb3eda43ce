import Stencil.Ascii
import Stencil.Unicode.Space
import Mathlib.Data.List.DropRight
import Mathlib.Tactic

/-! Where a text may be cut. Before an ASCII byte, and at the ends of its characters, a text falls into parts that are
read apart as they are read together, whether they are valid or not. So words that are joined by spaces are read again
as they are, and trimming a text leaves its other characters. -/

namespace Stencil

namespace Utf8

variable {s t : Bytes} {a c : UInt8} {code n : Nat} {cs ds : List Chunk}

/-- Nothing past the bytes that a lead byte asks for matters. -/
theorem character?_congr {lead : Lead} (hlead : lead? a = some lead) (h : s.take lead.extra = t.take lead.extra) :
    character? a s = character? a t := by
  rw [character?, character?, hlead, Option.bind_eq_bind, Option.bind_some, Option.bind_eq_bind, Option.bind_some, h]

/-- A character takes the bytes its lead byte asks for, none of which is ASCII. -/
theorem character?_eq_some (h : character? a s = some (code, n)) :
    ∃ lead, lead? a = some lead ∧ n = lead.extra ∧ n ≤ s.length ∧ ∀ b ∈ s.take n, 0x80 ≤ b := by
  simp only [character?, Option.bind_eq_bind, Option.bind_eq_some_iff, Option.guard_eq_some', beq_iff_eq] at h
  obtain ⟨lead, hlead, -, hlength, -, hall, -, -, h⟩ := h
  obtain rfl : n = lead.extra := by
    simp only [Option.pure_def, Option.some.injEq, Prod.mk.injEq] at h
    exact h.2.symm
  refine ⟨lead, hlead, rfl, ?_, fun b hb => ?_⟩
  · rw [List.length_take] at hlength
    omega
  · have hb := List.all_eq_true.mp hall b hb
    simp only [Bool.and_eq_true, decide_eq_true_eq] at hb
    exact hb.1

theorem character?_append (h : character? a s = some (code, n)) (t : Bytes) : character? a (s ++ t) = some (code, n) := by
  obtain ⟨lead, hlead, rfl, hlength, -⟩ := character?_eq_some h
  rw [← h]
  exact character?_congr hlead (List.take_append_of_le_length hlength)

theorem character?_of_append (h : character? a (s ++ t) = some (code, n)) (hn : n ≤ s.length) :
    character? a s = some (code, n) := by
  obtain ⟨lead, hlead, rfl, -⟩ := character?_eq_some h
  rw [← h]
  exact character?_congr hlead (List.take_append_of_le_length hn).symm

theorem character?_ascii (hc : c < 0x80) (s : Bytes) : character? c s = some (c.toNat, 0) := by
  simp [character?, lead?, hc]

/-- No character goes on over an ASCII byte. -/
theorem character?_before_ascii (hc : c < 0x80) (s t : Bytes) : character? a (s ++ c :: t) = character? a s := by
  cases hs : character? a s with
  | some found => exact character?_append hs _
  | none =>
    refine Option.eq_none_iff_forall_ne_some.mpr fun ⟨code, n⟩ h => ?_
    have hn : n ≤ s.length := by
      obtain ⟨-, -, -, -, hall⟩ := character?_eq_some h
      by_contra hlt
      have hmem : c ∈ (s ++ c :: t).take n := by
        obtain ⟨k, hk⟩ : ∃ k, n - s.length = k + 1 := ⟨n - s.length - 1, by omega⟩
        rw [List.take_append, hk, List.take_succ_cons]
        exact List.mem_append_right _ List.mem_cons_self
      exact absurd hc (UInt8.not_lt.mpr (hall c hmem))
    rw [character?_of_append h hn] at hs
    cases hs

theorem chunksFrom_eq (skip : Nat) (s : Bytes) : chunksFrom skip s = chunks (s.drop skip) := by
  induction skip generalizing s with
  | zero => rfl
  | succ skip ih =>
    cases s with
    | nil => rfl
    | cons a s => rw [chunksFrom, ih, List.drop_succ_cons]

theorem chunks_cons_some (h : character? a s = some (code, n)) :
    chunks (a :: s) = ⟨some code, a :: s.take n⟩ :: chunks (s.drop n) := by
  rw [chunks, chunksFrom, h, ← chunksFrom_eq]

theorem chunks_cons_none (h : character? a s = none) : chunks (a :: s) = ⟨none, [a]⟩ :: chunks s := by
  rw [chunks, chunksFrom, h]
  rfl

theorem chunks_cons_ascii (hc : c < 0x80) (s : Bytes) : chunks (c :: s) = ⟨some c.toNat, [c]⟩ :: chunks s := by
  simpa using chunks_cons_some (character?_ascii hc s)

theorem flatMap_chunksFrom (skip : Nat) (s : Bytes) : (chunksFrom skip s).flatMap (·.bytes) = s.drop skip := by
  fun_induction chunksFrom skip s with
  | case1 skip => exact List.drop_nil.symm
  | case2 skip a s ih => exact ih
  | case3 a s code n _ ih =>
    rw [List.flatMap_cons, ih]
    exact congrArg (a :: ·) (List.take_append_drop n s)
  | case4 a s _ ih =>
    rw [List.flatMap_cons, ih]
    rfl

theorem flatMap_chunks (s : Bytes) : (chunks s).flatMap (·.bytes) = s := flatMap_chunksFrom 0 s

theorem unchunk_chunks (s : Bytes) : unchunk (chunks s) = s := flatMap_chunks s

theorem unchunk_append (cs ds : List Chunk) : unchunk (cs ++ ds) = unchunk cs ++ unchunk ds := List.flatMap_append

theorem chunks_append_ascii (hc : c < 0x80) (s t : Bytes) : chunks (s ++ c :: t) = chunks s ++ chunks (c :: t) := by
  suffices h : ∀ skip ≤ s.length, chunksFrom skip (s ++ c :: t) = chunksFrom skip s ++ chunks (c :: t) from
    h 0 (Nat.zero_le _)
  intro skip hskip
  fun_induction chunksFrom skip s with
  | case1 skip =>
    obtain rfl := Nat.le_zero.mp hskip
    rfl
  | case2 skip a s ih => exact ih (Nat.le_of_succ_le_succ hskip)
  | case3 a s code n h ih =>
    obtain ⟨-, -, -, hn, -⟩ := character?_eq_some h
    rw [List.cons_append, chunksFrom, character?_before_ascii hc, h]
    dsimp only
    rw [List.take_append_of_le_length hn, ih hn, List.cons_append]
  | case4 a s h ih =>
    rw [List.cons_append, chunksFrom, character?_before_ascii hc, h]
    dsimp only
    rw [ih (Nat.zero_le _), List.cons_append]

theorem chunks_split (h : chunks s = cs ++ ds) : chunks (unchunk cs) = cs ∧ chunks (unchunk ds) = ds := by
  induction cs generalizing s with
  | nil =>
    obtain rfl : chunks s = ds := h
    exact ⟨rfl, congrArg chunks (unchunk_chunks s)⟩
  | cons d cs ih =>
    cases s with
    | nil => cases h
    | cons a s =>
      cases hchar : character? a s with
      | none =>
        rw [chunks_cons_none hchar, List.cons_append, List.cons_eq_cons] at h
        obtain ⟨rfl, h⟩ := h
        obtain ⟨hcs, hds⟩ := ih h
        -- what cannot be read with all that follows cannot be read with a part of it
        have hshort : character? a (unchunk cs) = none := by
          rw [← unchunk_chunks s, h, unchunk_append] at hchar
          cases hfound : character? a (unchunk cs) with
          | none => rfl
          | some found => rw [character?_append hfound] at hchar; cases hchar
        exact ⟨(chunks_cons_none hshort).trans (congrArg _ hcs), hds⟩
      | some found =>
        obtain ⟨code, n⟩ := found
        rw [chunks_cons_some hchar, List.cons_append, List.cons_eq_cons] at h
        obtain ⟨rfl, h⟩ := h
        obtain ⟨hcs, hds⟩ := ih h
        obtain ⟨-, -, -, hn, -⟩ := character?_eq_some hchar
        have hlength : (s.take n).length = n := List.length_take_of_le hn
        have htake : character? a (s.take n) = some (code, n) :=
          character?_of_append (t := s.drop n) (by rw [List.take_append_drop]; exact hchar) hlength.ge
        have hwhole := chunks_cons_some (character?_append htake (unchunk cs))
        rw [List.take_left' hlength, List.drop_left' hlength, hcs] at hwhole
        exact ⟨hwhole, hds⟩

theorem chunks_unchunk (h : cs <:+: chunks s) : chunks (unchunk cs) = cs := by
  obtain ⟨before, after, h⟩ := h
  obtain ⟨hleft, -⟩ := chunks_split h.symm
  obtain ⟨-, hright⟩ := chunks_split hleft
  exact hright

end Utf8

namespace Text

variable {s t w : Bytes} {cs ds run : List Utf8.Chunk} {c : Utf8.Chunk} {l : List Bytes}

theorem wordsFrom_append (hc : isSpace c) (w : Bytes) (cs ds : List Utf8.Chunk) :
    wordsFrom w (cs ++ c :: ds) = wordsFrom w cs ++ wordsFrom [] ds := by
  induction cs generalizing w with
  | nil =>
    cases w with
    | nil => simp [wordsFrom, hc]
    | cons a w => simp [wordsFrom, hc]
  | cons d cs ih =>
    rw [List.cons_append, wordsFrom, wordsFrom]
    split
    · split
      · exact ih []
      · rw [ih, List.cons_append]
    · exact ih _

theorem words_append_space (s t : Bytes) : words (s ++ Ascii.space :: t) = words s ++ words t := by
  rw [words, Utf8.chunks_append_ascii (by decide), Utf8.chunks_cons_ascii (by decide), wordsFrom_append (by decide)]
  rfl

/-- Texts joined by spaces have the words of each. -/
theorem words_join (l : List Bytes) : words (Bytes.join [Ascii.space] l) = l.flatMap words := by
  induction l with
  | nil => rfl
  | cons s l ih =>
    cases l with
    | nil => simp [Bytes.join]
    | cons t l =>
      rw [List.flatMap_cons, ← ih, ← words_append_space, Bytes.join, List.intercalate_cons_cons, List.append_assoc]
      rfl

theorem wordsFrom_of_no_space (hrun : ∀ c ∈ run, isSpace c = false) (w : Bytes) :
    wordsFrom w run = if w ++ Utf8.unchunk run = [] then [] else [w ++ Utf8.unchunk run] := by
  induction run generalizing w with
  | nil =>
    cases w with
    | nil => rfl
    | cons a w => simp [wordsFrom, Utf8.unchunk]
  | cons c run ih =>
    obtain ⟨hc, hrun⟩ := List.forall_mem_cons.mp hrun
    rw [wordsFrom, if_neg (by simp [hc]), ih hrun, List.append_assoc]
    rfl

/-- A word is a run of characters without white space, and not empty. -/
theorem mem_wordsFrom (run : List Utf8.Chunk) (ht : t = Utf8.unchunk run) (hrun : ∀ c ∈ run, isSpace c = false)
    (h : w ∈ wordsFrom t cs) :
    w ≠ [] ∧ ∃ run', w = Utf8.unchunk run' ∧ run' <:+: run ++ cs ∧ ∀ c ∈ run', isSpace c = false := by
  induction cs generalizing t run with
  | nil =>
    cases t with
    | nil => cases h
    | cons a t =>
      obtain rfl := List.mem_singleton.mp h
      exact ⟨List.cons_ne_nil a t, run, ht, by simp, hrun⟩
  | cons c cs ih =>
    have hrest (h : w ∈ wordsFrom [] cs) :
        w ≠ [] ∧ ∃ run', w = Utf8.unchunk run' ∧ run' <:+: run ++ c :: cs ∧ ∀ c ∈ run', isSpace c = false := by
      obtain ⟨hne, run', hw, hinfix, hspace⟩ := ih [] rfl (List.forall_mem_nil _) h
      have hsuffix : cs <:+ run ++ c :: cs := ⟨run ++ [c], by simp⟩
      exact ⟨hne, run', hw, hinfix.trans hsuffix.isInfix, hspace⟩
    rw [wordsFrom] at h
    split at h
    next =>
      split at h
      next => exact hrest h
      next hne =>
        rcases List.mem_cons.mp h with rfl | h
        · exact ⟨by simpa using hne, run, ht, (List.prefix_append _ _).isInfix, hrun⟩
        · exact hrest h
    next hc =>
      have hmore : ∀ d ∈ run ++ [c], isSpace d = false :=
        List.forall_mem_append.mpr ⟨hrun, by simpa using hc⟩
      simpa using ih (run ++ [c]) (by simp [ht, Utf8.unchunk]) hmore h

/-- A word is the only word of itself. -/
theorem words_of_mem (h : w ∈ words s) : words w = [w] := by
  obtain ⟨hne, run, rfl, hinfix, hspace⟩ := mem_wordsFrom [] rfl (List.forall_mem_nil _) h
  rw [words, Utf8.chunks_unchunk hinfix, wordsFrom_of_no_space hspace, List.nil_append, if_neg hne]

theorem infix_of_mem_words (h : w ∈ words s) : w <:+: s := by
  obtain ⟨-, run, rfl, hinfix, -⟩ := mem_wordsFrom [] rfl (List.forall_mem_nil _) h
  have hbytes := hinfix.flatMap fun c : Utf8.Chunk => c.bytes
  rwa [List.nil_append, Utf8.flatMap_chunks] at hbytes

def Starts (s : Bytes) : Prop := ∀ c ∈ (Utf8.chunks s).head?, isSpace c = false

def Ends (s : Bytes) : Prop := ∀ c ∈ (Utf8.chunks s).getLast?, isSpace c = false

instance (s : Bytes) : Decidable (Starts s) := inferInstanceAs (Decidable (∀ c ∈ (Utf8.chunks s).head?, _))

instance (s : Bytes) : Decidable (Ends s) := inferInstanceAs (Decidable (∀ c ∈ (Utf8.chunks s).getLast?, _))

def inner (cs : List Utf8.Chunk) : List Utf8.Chunk := (cs.dropWhile isSpace).rdropWhile isSpace

theorem infix_inner (cs : List Utf8.Chunk) : inner cs <:+: cs :=
  (List.rdropWhile_prefix _ _).isInfix.trans (List.dropWhile_suffix _).isInfix

theorem trim_eq_unchunk (s : Bytes) : trim s = Utf8.unchunk (inner (Utf8.chunks s)) := rfl

theorem chunks_trim (s : Bytes) : Utf8.chunks (trim s) = inner (Utf8.chunks s) := Utf8.chunks_unchunk (infix_inner _)

theorem infix_trim (s : Bytes) : trim s <:+: s := by
  have hbytes := (infix_inner (Utf8.chunks s)).flatMap fun c : Utf8.Chunk => c.bytes
  rwa [Utf8.flatMap_chunks] at hbytes

theorem dropWhile_eq_self (h : ∀ c ∈ cs.head?, isSpace c = false) : cs.dropWhile isSpace = cs := by
  cases cs with
  | nil => rfl
  | cons c cs => exact List.dropWhile_cons_of_neg (by simp [h c rfl])

theorem rdropWhile_eq_self (h : ∀ c ∈ cs.getLast?, isSpace c = false) : cs.rdropWhile isSpace = cs := by
  rw [← List.head?_reverse] at h
  rw [List.rdropWhile, dropWhile_eq_self h, List.reverse_reverse]

theorem head?_dropWhile (cs : List Utf8.Chunk) : ∀ c ∈ (cs.dropWhile isSpace).head?, isSpace c = false := by
  intro c hc
  have hnot := List.head?_dropWhile_not isSpace cs
  rw [hc] at hnot
  exact hnot

theorem starts_trim (s : Bytes) : Starts (trim s) := by
  intro c hc
  rw [chunks_trim] at hc
  obtain ⟨rest, hrest⟩ : inner (Utf8.chunks s) <+: (Utf8.chunks s).dropWhile isSpace := List.rdropWhile_prefix _ _
  refine head?_dropWhile (Utf8.chunks s) c ?_
  rw [← hrest, List.head?_append, hc]
  rfl

theorem ends_trim (s : Bytes) : Ends (trim s) := by
  intro c hc
  rw [chunks_trim, inner, List.rdropWhile, List.getLast?_reverse] at hc
  exact head?_dropWhile _ c hc

/-- An ASCII byte that is no white space ends what stands before it and starts what stands after it. -/
theorem starts_append_ascii {a : UInt8} (ha : a < 0x80) (hspace : isSpaceCode a.toNat = false) (s t : Bytes) :
    Starts (s ++ a :: t) ↔ Starts s := by
  rw [Starts, Starts, Utf8.chunks_append_ascii ha, Utf8.chunks_cons_ascii ha]
  cases Utf8.chunks s with
  | nil => simp [isSpace, hspace]
  | cons c cs => rfl

theorem ends_append_ascii {a : UInt8} (ha : a < 0x80) (hspace : isSpaceCode a.toNat = false) (s t : Bytes) :
    Ends (s ++ a :: t) ↔ Ends t := by
  rw [Ends, Ends, Utf8.chunks_append_ascii ha, Utf8.chunks_cons_ascii ha]
  cases Utf8.chunks t using List.reverseRecOn with
  | nil => simp [isSpace, hspace]
  | append_singleton cs c => rw [← List.cons_append, ← List.append_assoc, List.getLast?_concat, List.getLast?_concat]

theorem trim_eq_self_iff : trim s = s ↔ Starts s ∧ Ends s := by
  refine ⟨fun h => ⟨h ▸ starts_trim s, h ▸ ends_trim s⟩, fun ⟨hstarts, hends⟩ => ?_⟩
  rw [trim_eq_unchunk, inner, dropWhile_eq_self hstarts, rdropWhile_eq_self hends, Utf8.unchunk_chunks]

end Text

end Stencil
