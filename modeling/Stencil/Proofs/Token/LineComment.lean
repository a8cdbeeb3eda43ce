import Mathlib.Data.List.TakeWhile
import Stencil.Proofs.Token.Nesting
import Stencil.Proofs.Token.Replay

/-! Line comments at the end of a source. What is written after such a source without a line break becomes a part of the
comment, so a bracket that should close there does not. -/

namespace Stencil.Token

open Ascii

namespace Scan

theorem codeMove_lineComment {b : UInt8} {s : Bytes} (h : isLineComment (b :: s)) :
    codeMove b s = .ok ⟨[(.comment, Bytes.countWhile (· != newline) (b :: s))], .stay⟩ := by
  have hcomment : (b == Ascii.hash || (b == slash && s.head? == some slash)) = true := by
    rw [head?_beq]
    exact h
  have hb : isSpace b = false := by
    rcases Bool.or_eq_true_iff.mp h with hhash | hslash
    · rw [eq_of_beq hhash]
      rfl
    · rw [eq_of_beq (Bool.and_eq_true_iff.mp hslash).1]
      rfl
  rw [codeMove, if_neg (by simp [hb]), if_pos hcomment]

theorem isLineComment_append {s : Bytes} (h : isLineComment s) (t : Bytes) : isLineComment (s ++ t) := by
  match s, h with
  | [b], h =>
    have hhash : (b == Ascii.hash) = true := by simpa [isLineComment] using h
    rw [List.singleton_append, isLineComment, hhash, Bool.true_or]
  | b :: c :: s, h => exact h

end Scan

namespace Cursor

theorem Reads.eq_of_nil {c d : Cursor} (h : Reads c [] d) {inText : Bool} (hl : Layered inText c.frames) : c = d := by
  generalize hts : ([] : List Token) = ts at h
  cases h with
  | refl => rfl
  | @step _ _ b s m us hr hm hus =>
    obtain ⟨hnone, -⟩ := List.append_eq_nil_iff.mp hts.symm
    have hkinds := c.perform_kinds m
    rw [hnone, List.map_nil] at hkinds
    exact absurd (List.map_eq_nil_iff.mp hkinds.symm) (move_fits hl hm).2

/-- A step that ends with a comment in top-level code is no more than that. -/
theorem perform_comment {c : Cursor} {inText : Bool} {b : UInt8} {s : Bytes} {m : Move} (hl : Layered inText c.frames)
    (hm : c.move b s = .ok m) {start stop : Nat} (hframes : m.effect.frames start stop c.frames = []) {xs : List Token}
    {t : Token} (ht : (c.perform m).1 = xs ++ [t]) (hk : t.kind = .comment) : xs = [] ∧ c.frames = [] := by
  have hkinds := c.perform_kinds m
  rw [ht, List.map_append, List.map_singleton, hk] at hkinds
  have hone {kind : Kind} {n : Nat} (htokens : m.tokens = [(kind, n)]) : xs = [] ∧ Kind.comment = kind := by
    rw [htokens] at hkinds
    simpa [List.append_eq_singleton_iff] using hkinds
  cases inText with
  | false =>
    rw [move_code hl] at hm
    have hcode := Scan.codeMove_cases hm
    obtain ⟨kind, n, htokens⟩ := hcode.tokens_eq
    obtain ⟨hnone, -⟩ := hone htokens
    refine ⟨hnone, ?_⟩
    cases hcode with
    | quote | heredoc => cases hframes
    | lbrace | rbrace => cases (hone rfl).2
    | _ => exact hframes
  | true =>
    exfalso
    obtain ⟨terminator, closes, hterm, htext⟩ := move_text hl hm
    rcases htext.effect with he | he | he
    · obtain ⟨n, -, rfl⟩ := htext.of_leave he
      rcases hterm with rfl | rfl <;> cases (hone rfl).2
    · rw [he] at hframes
      change c.frames = [] at hframes
      rw [hframes] at hl
      cases hl
    · rw [he] at hframes
      cases hframes

/-- A comment at the end of a reading is a step of its own, which begins in top-level code as it ends there. -/
theorem Reads.before_comment {c d : Cursor} {xs : List Token} {t : Token} (h : Reads c (xs ++ [t]) d) {inText : Bool}
    (hl : Layered inText c.frames) (hd : d.frames = []) (hk : t.kind = .comment) :
    ∃ e, Reads c xs e ∧ e.frames = [] ∧ Reads e [t] d := by
  generalize hts : xs ++ [t] = ts at h
  induction h generalizing inText xs with
  | refl => simp at hts
  | @step c e b s m us hr hm hus ih =>
    obtain ⟨w, q, -, -, -, hframes, -⟩ := hus.over hl hr hm
    obtain ⟨inText', hl'⟩ := hl.after hm c.pos (c.pos + Scan.total m.tokens)
    rw [← hframes] at hl'
    rcases List.eq_nil_or_concat us with rfl | ⟨ys, y, rfl⟩
    · rw [List.append_nil] at hts
      obtain rfl := hus.eq_of_nil hl'
      obtain ⟨rfl, hf⟩ := perform_comment hl hm (hframes.symm.trans hd) hts.symm hk
      refine ⟨c, .refl c, hf, ?_⟩
      have hstep := Reads.step hr hm hus
      rwa [List.append_nil, ← hts, List.nil_append] at hstep
    · rw [List.concat_eq_append, ← List.append_assoc] at hts
      obtain ⟨rfl, heq⟩ := List.append_inj' hts rfl
      obtain rfl : t = y := List.singleton_inj.mp heq
      obtain ⟨e₁, h₁, hf₁, h₂⟩ := ih hl' hd (List.concat_eq_append ..).symm
      exact ⟨e₁, .step hr hm h₁, hf₁, h₂⟩

/-- A line comment that ends the source takes what is written after it. -/
theorem Reads.lexes_lineComment {e d : Cursor} {t : Token} (h : Reads e [t] d) (hf : e.frames = []) (hd : d.rest = [])
    (hline : Scan.isLineComment t.text) (more : Bytes) (hmore : newline ∉ more) :
    e.rest = t.text ∧ Lexes (t.text ++ more) [.comment] [] := by
  obtain ⟨⟨s, hs, hcovers⟩, -⟩ := h.covers (.of_nil hf)
  have htext : e.rest = t.text := by
    rw [hs, hd, List.append_nil, ← hcovers.flatMap_text, List.flatMap_singleton]
  refine ⟨htext, ?_⟩
  obtain ⟨b, r, htr⟩ : ∃ b r, t.text = b :: r := List.exists_cons_of_ne_nil hcovers.1
  rw [htr] at htext hline
  -- the step takes the line up to its end, and that is the whole text
  have htake : (b :: r).take (Bytes.countWhile (· != newline) (b :: r)) = b :: r := by
    generalize hts : [t] = ts at h
    cases h with
    | refl => cases hts
    | @step _ _ b' s' m us hr hm hus =>
      obtain ⟨rfl, rfl⟩ : b' = b ∧ s' = r := List.cons_eq_cons.mp (hr.symm.trans htext)
      rw [move_code (.of_nil hf), Scan.codeMove_lineComment hline, Except.ok.injEq] at hm
      subst hm
      rw [perform_stay] at hts
      obtain ⟨rfl, -⟩ := List.cons_eq_cons.mp hts
      exact (congrArg (List.take _) htext.symm).trans htr
  have hall : ∀ c ∈ b :: (r ++ more), (c != newline) = true := by
    rw [← List.cons_append]
    refine List.forall_mem_append.mpr ⟨?_, fun c hc => ?_⟩
    · rw [← htake]
      exact Scan.all_take_countWhile _ _
    · exact bne_iff_ne.mpr fun heq => hmore (heq ▸ hc)
  have hmove : Scan.codeMove b (r ++ more ++ []) = .ok ⟨[(.comment, (b :: (r ++ more)).length)], .stay⟩ := by
    have hlonger : Scan.isLineComment (b :: (r ++ more)) := Scan.isLineComment_append hline more
    rw [List.append_nil, Scan.codeMove_lineComment hlonger, Bytes.countWhile, List.takeWhile_eq_self_iff.mpr hall]
  rw [htr]
  exact Lexes.single hmove

end Cursor

end Stencil.Token
