import Stencil.Unicode.Lower
import Stencil.Proofs.Merge.Words

/-! Lower case and ASCII. A text of ASCII bytes is lowered byte by byte. Two characters outside of ASCII have an ASCII
letter as their lower case, the dotted capital i and the Kelvin sign; so a word without `i` and `k` is the lower case of
ASCII texts only. -/

namespace Stencil

variable {s w : Bytes}

namespace Utf8

/-- What a lead byte outside of ASCII announces: with what it and the first byte after it hold, the code point is past
0x7f. -/
theorem lead?_ge (a : UInt8) (ha : ¬ a < 0x80) : ∀ lead ∈ lead? a,
    (1 ≤ lead.extra ∧ 2 ≤ lead.bits) ∨ (2 ≤ lead.extra ∧ (2 ≤ lead.bits * 64 ∨ 0x90 ≤ lead.low)) := by
  have hall : ∀ a : Fin 256, ¬ UInt8.ofFin a < 0x80 → ∀ lead ∈ lead? (.ofFin a),
      (1 ≤ lead.extra ∧ 2 ≤ lead.bits) ∨ (2 ≤ lead.extra ∧ (2 ≤ lead.bits * 64 ∨ 0x90 ≤ lead.low)) := by
    decide +kernel
  exact hall a.toFin ha

theorem le_tail (tail : Bytes) (n : Nat) : n ≤ tail.foldl (fun n b => n * 64 + (b.toNat - 0x80)) n := by
  induction tail generalizing n with
  | nil => exact Nat.le_refl n
  | cons b tail ih =>
    have := ih (n * 64 + (b.toNat - 0x80))
    rw [List.foldl_cons]
    omega

theorem character?_ge {a : UInt8} {code n : Nat} (ha : ¬ a < 0x80) (h : character? a s = some (code, n)) :
    0x80 ≤ code := by
  simp only [character?, Option.bind_eq_bind, Option.bind_eq_some_iff, Option.guard_eq_some', beq_iff_eq] at h
  obtain ⟨lead, hlead, -, hlength, -, -, -, hfirst, h⟩ := h
  have hge := lead?_ge a ha lead hlead
  simp only [Option.pure_def, Option.some.injEq, Prod.mk.injEq] at h
  rw [← h.1]
  cases htail : s.take lead.extra with
  | nil =>
    rw [htail, List.length_nil] at hlength
    omega
  | cons b tail =>
    have hb : lead.low.toNat ≤ b.toNat := by
      rw [htail] at hfirst
      simp only [List.head?_cons, Option.all_some, Bool.and_eq_true, decide_eq_true_eq] at hfirst
      exact UInt8.le_iff_toNat_le.mp hfirst.1
    rw [List.foldl_cons]
    cases tail with
    | nil =>
      rw [htail, List.length_singleton] at hlength
      rw [List.foldl_nil]
      omega
    | cons d tail =>
      have := le_tail tail ((lead.bits * 64 + (b.toNat - 0x80)) * 64 + (d.toNat - 0x80))
      rw [List.foldl_cons]
      simp only [UInt8.le_iff_toNat_le, UInt8.reduceToNat] at hge
      omega

theorem chunk_ascii {skip : Nat} {c : Chunk} (hc : c ∈ chunksFrom skip s) {code : Nat} (hcode : c.code = some code)
    (h : code < 0x80) : ∃ b < 0x80, c.bytes = [b] := by
  fun_induction chunksFrom skip s with
  | case1 => cases hc
  | case2 _ _ _ ih => exact ih hc
  | case3 a s code' n hchar ih =>
    rcases List.mem_cons.mp hc with rfl | hc
    · obtain rfl : code' = code := Option.some.inj hcode
      by_cases ha : a < 0x80
      · rw [character?_ascii ha] at hchar
        obtain ⟨rfl, rfl⟩ : a.toNat = code' ∧ 0 = n := by simpa using hchar
        exact ⟨a, ha, rfl⟩
      · have := character?_ge ha hchar
        omega
    · exact ih hc
  | case4 a s hchar ih =>
    rcases List.mem_cons.mp hc with rfl | hc
    · cases hcode
    · exact ih hc

theorem encode_ascii {code : Nat} (h : ∀ b ∈ encode code, b < 0x80) : code < 0x80 := by
  by_contra hcode
  have hlead (n : Nat) : ¬ UInt8.ofNat (0x80 + n % 64) < 0x80 := by
    rw [UInt8.lt_iff_toNat_lt, UInt8.toNat_ofNat']
    have := Nat.mod_lt n (by decide : 64 > 0)
    simp
    omega
  simp only [encode, if_neg hcode] at h
  split_ifs at h
  · exact hlead code (h _ (by simp))
  · exact absurd (h 0xef (by simp)) (by decide)
  · exact hlead code (h _ (by simp))
  · exact hlead code (h _ (by simp))

end Utf8

namespace Text

theorem lowerCode_ascii {code : Nat} (h : lowerCode code < 0x80) : code < 0x80 ∨ code = 0x130 ∨ code = 0x212a := by
  -- a range whose characters go below 0x80 starts there, or is one of the two characters
  have hranges : ∀ r ∈ lowerRanges, (r.1 = 0x130 ∧ r.2.1 = 0x130) ∨ (r.1 = 0x212a ∧ r.2.1 = 0x212a) ∨
      0x80 ≤ (r.1 : Int) + r.2.2.2 := by decide +kernel
  by_contra hcode
  obtain ⟨hlow, hi, hk⟩ : ¬ code < 0x80 ∧ code ≠ 0x130 ∧ code ≠ 0x212a := by simpa only [not_or] using hcode
  rw [lowerCode, if_neg hlow] at h
  split at h
  next lo hi' step distance hfind =>
    have hin := List.find?_some hfind
    simp only [Bool.and_eq_true, decide_eq_true_eq] at hin
    have hrange := hranges _ (List.mem_of_find?_eq_some hfind)
    dsimp only at hrange
    omega
  next => exact hlow h

theorem lowerCode_toNat {b : UInt8} (hb : b < 0x80) : Utf8.encode (lowerCode b.toNat) = [Ascii.toLower b] := by
  have hall : ∀ b : Fin 256, UInt8.ofFin b < 0x80 →
      Utf8.encode (lowerCode (UInt8.ofFin b).toNat) = [Ascii.toLower (.ofFin b)] := by decide +kernel
  exact hall b.toFin hb

theorem lower_of_ascii (hs : ∀ c ∈ s, c < 0x80) : lower s = s.map Ascii.toLower := by
  rw [lower, chunks_of_ascii hs]
  induction s with
  | nil => rfl
  | cons c s ih =>
    obtain ⟨hc, hs⟩ := List.forall_mem_cons.mp hs
    rw [List.map_cons, List.flatMap_cons, ih hs, List.map_cons]
    exact congrArg (· ++ s.map Ascii.toLower) (lowerCode_toNat hc)

theorem ascii_of_map_toLower (hw : ∀ c ∈ w, c < 0x80) (h : s.map Ascii.toLower = w) : ∀ c ∈ s, c < 0x80 := by
  have hlower : ∀ c : Fin 256, Ascii.toLower (.ofFin c) < 0x80 → UInt8.ofFin c < 0x80 := by decide +kernel
  exact fun c hc => hlower c.toFin (hw _ (h ▸ List.mem_map_of_mem hc))

theorem lower_of_map_toLower (hw : ∀ c ∈ w, c < 0x80) (h : s.map Ascii.toLower = w) : lower s = w := by
  rw [lower_of_ascii (ascii_of_map_toLower hw h), h]

theorem spells_iff_of_ascii (hs : ∀ c ∈ s, c < 0x80) : spells w s ↔ s.map Ascii.toLower = w := by
  have hfold : ∀ c : Fin 256, UInt8.ofFin c < 0x80 →
      foldCode (UInt8.ofFin c).toNat = (Ascii.toLower (.ofFin c)).toNat := by decide +kernel
  have hcodes : (s.map single).map (fun c => c.code.map foldCode) =
      (s.map Ascii.toLower).map fun b => some b.toNat := by
    rw [List.map_map, List.map_map]
    exact List.map_congr_left fun c hc => congrArg some (hfold c.toFin (hs c hc))
  have hinjective : Function.Injective fun b : UInt8 => some b.toNat :=
    (Option.some_injective _).comp fun _ _ => UInt8.toNat_inj.mp
  rw [spells, chunks_of_ascii hs, beq_iff_eq, hcodes, (List.map_injective_iff.mpr hinjective).eq_iff]

/-- The text is a word in some mix of upper and lower case. -/
theorem lower_eq_iff (hw : ∀ c ∈ w, c < 0x80 ∧ c ≠ 0x69 ∧ c ≠ 0x6b) : lower s = w ↔ s.map Ascii.toLower = w := by
  refine ⟨?_, lower_of_map_toLower fun c hc => (hw c hc).1⟩
  rintro rfl
  have hs : ∀ c ∈ s, c < 0x80 := by
    intro b hb
    rw [← Utf8.flatMap_chunks s] at hb
    obtain ⟨c, hc, hb⟩ := List.mem_flatMap.mp hb
    have hbytes (b : UInt8) (hb : b ∈ Utf8.encode (lowerCode (c.code.getD Utf8.replacement))) :=
      hw b (List.mem_flatMap.mpr ⟨c, hc, hb⟩)
    have hlower := Utf8.encode_ascii fun b hb => (hbytes b hb).1
    -- the two characters that go below 0x80 become letters that the word lacks
    cases hcode : c.code with
    | none =>
      rw [hcode] at hlower
      exact absurd hlower (by decide +kernel)
    | some code =>
      rw [hcode, Option.getD_some] at hbytes hlower
      rcases lowerCode_ascii hlower with hlt | rfl | rfl
      · obtain ⟨d, hd, hc⟩ := Utf8.chunk_ascii hc hcode hlt
        obtain rfl : b = d := by simpa [hc] using hb
        exact hd
      · exact absurd rfl (hbytes 0x69 (by decide +kernel)).2.1
      · exact absurd rfl (hbytes 0x6b (by decide +kernel)).2.2
  exact (lower_of_ascii hs).symm

/-- A text that spells a word which starts with `u` is in lower case a text that starts with `u`. -/
theorem head?_lower_of_spells (h : spells (0x75 :: w) s) : (lower s).head? = some 0x75 := by
  simp only [spells, List.map_cons, beq_iff_eq, List.map_eq_cons_iff] at h
  obtain ⟨c, cs, hchunks, hfold, -⟩ := h
  obtain ⟨code, hcode, hfold⟩ := Option.map_eq_some_iff.mp hfold
  have hletter : code = 0x75 ∨ code = 0x55 := by
    simp only [foldCode, UInt8.reduceToNat] at hfold
    split_ifs at hfold <;> omega
  rw [lower, hchunks, List.flatMap_cons, hcode]
  rcases hletter with rfl | rfl <;> rfl

end Text

end Stencil
