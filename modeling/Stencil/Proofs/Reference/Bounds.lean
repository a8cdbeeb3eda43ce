import Stencil.Reference
import Stencil.Proofs.Success
import Stencil.Proofs.Token.Progress

/-! Reading and guarding a source stay within it. Each step of the lexer goes forward and at most to the end of the source,
the reading halts where the source ends or a step fails, and every fault, also one of the brackets, is reported at an
offset of the source. -/

namespace Stencil

namespace Token

theorem Covers.end_le {pos : Nat} {s : Bytes} {ts : List Token} (h : Covers pos s ts) :
    ∀ t ∈ ts, t.offset + t.text.length ≤ pos + s.length := by
  induction ts generalizing pos s with
  | nil => simp
  | cons t ts ih =>
    obtain ⟨-, rfl, rest, rfl, h⟩ := h
    rw [List.forall_mem_cons, List.length_append]
    refine ⟨by omega, fun u hu => ?_⟩
    have hend := ih h u hu
    omega

/-- A fault of the brackets is reported at a bracket that is open or still to be read. -/
theorem Group.build_fault {stack : Stack} {done : List Group} {ts : List Token} {fault : Fault}
    (h : build stack done ts = .error fault) : fault.offset ∈ (stack.map (·.1) ++ ts).map (·.offset) := by
  fun_induction build stack done ts with
  | case1 => cases h
  | case2 =>
    cases h
    simp
  | case3 _ _ _ _ _ ih => simpa [or_left_comm] using ih h
  | case4 _ _ t _ _ _ ih =>
    have hlater := ih h
    rw [List.map_append, List.mem_append] at hlater ⊢
    exact hlater.imp_right (List.mem_cons_of_mem t.offset)
  | case5 =>
    cases h
    simp
  | case6 _ t _ _ _ _ o _ _ _ ih =>
    have hlater := ih h
    rw [List.map_append, List.mem_append] at hlater ⊢
    exact hlater.imp (List.mem_cons_of_mem o.offset) (List.mem_cons_of_mem t.offset)
  | case7 =>
    cases h
    simp

theorem tokenize_fault {src : Bytes} {fault : Fault} (h : tokenize src = .error fault) : fault.offset ≤ src.length := by
  obtain ⟨ts, c, hreads, hhalts⟩ := Cursor.exists_run_halts (c := .ofSource src) .top le_rfl
  exact hhalts.offset_le (hreads.stays (Cursor.in_ofSource src)) h

end Token

namespace Reference

open Token

theorem plan_fault {variablesHandled : Bool} {src : Bytes} {fault : Fault} (h : plan variablesHandled src = .error fault) :
    fault.offset ≤ src.length := by
  rcases bind_eq_error h with h | ⟨ts, hts, h⟩
  · exact tokenize_fault h
  · rcases bind_eq_error h with h | ⟨gs, -, h⟩
    · obtain ⟨t, ht, hoffset⟩ := List.mem_map.mp (Group.build_fault h)
      have hend := (tokenize_covers hts).end_le t ht
      omega
    · cases h

theorem guardAll_fault {guard : Bytes → Bytes} {handlers : Handlers} {src : Bytes} {fault : Fault}
    (h : guardAll guard handlers src = .error fault) : fault.offset ≤ src.length := by
  rcases bind_eq_error h with h | ⟨pieces, -, h⟩
  · exact plan_fault h
  · cases h

theorem handleAll_fault {handlers : Handlers} {src : Bytes} {fault : Fault} (h : handleAll handlers src = .error fault) :
    fault.offset ≤ src.length := by
  rcases bind_eq_error h with h | ⟨ts, -, h⟩
  · exact tokenize_fault h
  · cases h

/-- Whatever has been read of a source, the lexer stands in it, and its next step fails or goes forward in it and turns the
bytes that it passes into tokens. The reading halts where it fails or at the end, before it runs out of steps; and each
fault has an offset in the source, when references are guarded and when the tokens are handled one by one. -/
theorem reads_within_source (src : Bytes) :
    (∀ ts c, Cursor.Reads (.ofSource src) ts c → c.pos ≤ src.length ∧ c.rest = src.drop c.pos ∧ ∀ b s, c.rest = b :: s →
      (∃ fault, c.step b s = .error fault ∧ fault.offset ≤ c.pos) ∨
        ∃ us d, c.step b s = .ok (us, d) ∧ Cursor.Reads (.ofSource src) (ts ++ us) d ∧
          c.pos < d.pos ∧ d.pos ≤ src.length ∧ Covers c.pos (src.extract c.pos d.pos) us) ∧
    (∃ ts c, Cursor.Reads (.ofSource src) ts c ∧ c.Halts ts (tokenize src)) ∧
    (∀ fuel, src.length ≤ fuel → (Cursor.ofSource src).run fuel = tokenize src) ∧
    (∀ fault, tokenize src = .error fault → fault.offset ≤ src.length) ∧
    ∀ guard handlers fault, guardAll guard handlers src = .error fault ∨ handleAll handlers src = .error fault →
      fault.offset ≤ src.length := by
  refine ⟨fun ts c hreads => ?_, ?_, fun fuel hfuel => ?_, fun fault => tokenize_fault, fun guard handlers fault h => ?_⟩
  · have hin := hreads.stays (Cursor.in_ofSource src)
    refine ⟨hin.pos_le, hin.rest_eq, fun b s hr => ?_⟩
    rcases hin.step hr with hfault | ⟨m, hm, hstep, hnext, hlt, hcovers⟩
    · exact .inl hfault
    · have hone : Cursor.Reads c ((c.perform m).1 ++ []) (c.perform m).2 := .step hr hm (.refl _)
      rw [List.append_nil] at hone
      exact .inr ⟨_, _, hstep, hreads.trans hone, hlt, hnext.pos_le, hcovers⟩
  · exact Cursor.exists_run_halts .top le_rfl
  · exact Cursor.run_congr .top hfuel le_rfl
  · exact h.elim guardAll_fault handleAll_fault

/-- In a string that is cut off, the code of an interpolation has one of its own; and a bracket stays open. -/
theorem reads_within_source_truncated :
    (tokenize "\"\x7b$a['b\"" = .error ⟨5, .unterminatedString⟩ ∧ 5 ≤ ("\"\x7b$a['b\"" : Bytes).length) ∧
      guardAll id [] "$a(" = .error ⟨2, .unclosedBracket "("⟩ ∧ 2 ≤ ("$a(" : Bytes).length := by
  have hcut : tokenize "\"\x7b$a['b\"" = .error ⟨5, .unterminatedString⟩ := by decide +kernel
  have hopen : guardAll id [] "$a(" = .error ⟨2, .unclosedBracket "("⟩ := by decide +kernel
  exact ⟨⟨hcut, (reads_within_source _).2.2.2.1 _ hcut⟩, hopen, (reads_within_source _).2.2.2.2 _ _ _ (.inl hopen)⟩

end Reference

end Stencil
