import Stencil.Proofs.Token.Move

/-! The tokens of a source cut it into consecutive pieces. One step turns all the bytes it reads into tokens
that follow one another without gap; a whole reading does so by induction on its steps. -/

namespace Stencil.Token

open Ascii

/-- The tokens cut the text that starts at offset `pos` into consecutive pieces, none empty. -/
def Covers : (pos : Nat) → Bytes → List Token → Prop
  | _, s, [] => s = []
  | pos, s, t :: ts =>
    t.text ≠ [] ∧ t.offset = pos ∧ ∃ rest, s = t.text ++ rest ∧ Covers (pos + t.text.length) rest ts

namespace Covers

theorem append {pos : Nat} {s r : Bytes} {ts us : List Token} (h : Covers pos s ts)
    (hr : Covers (pos + s.length) r us) : Covers pos (s ++ r) (ts ++ us) := by
  induction ts generalizing pos s with
  | nil =>
    cases h
    simpa using hr
  | cons t ts ih =>
    obtain ⟨hne, ho, rest, rfl, h⟩ := h
    refine ⟨hne, ho, rest ++ r, by simp, ih h ?_⟩
    simpa [Nat.add_assoc] using hr

theorem flatMap_text {pos : Nat} {s : Bytes} {ts : List Token} (h : Covers pos s ts) :
    ts.flatMap (·.text) = s := by
  induction ts generalizing pos s with
  | nil => exact h.symm
  | cons t ts ih =>
    obtain ⟨-, -, rest, rfl, h⟩ := h
    rw [List.flatMap_cons, ih h]

theorem text_ne_nil {pos : Nat} {s : Bytes} {ts : List Token} (h : Covers pos s ts) :
    ∀ t ∈ ts, t.text ≠ [] := by
  induction ts generalizing pos s with
  | nil => simp
  | cons t ts ih =>
    obtain ⟨hne, -, rest, rfl, h⟩ := h
    exact List.forall_mem_cons.2 ⟨hne, ih h⟩

theorem offset_head {pos : Nat} {s : Bytes} {ts : List Token} (h : Covers pos s ts) :
    ∀ t ∈ ts.head?, t.offset = pos := by
  cases ts with
  | nil => simp
  | cons t ts => simpa using h.2.1

theorem isChain_offset {pos : Nat} {s : Bytes} {ts : List Token} (h : Covers pos s ts) :
    ts.IsChain fun t u => u.offset = t.offset + t.text.length := by
  induction ts generalizing pos s with
  | nil => exact .nil
  | cons t ts ih =>
    obtain ⟨-, rfl, rest, rfl, h⟩ := h
    exact List.isChain_cons.2 ⟨h.offset_head, ih h⟩

end Covers

namespace Cursor

theorem emit_covers {c : Cursor} {ks : List (Kind × Nat)} (h : Scan.Fits c.rest ks) :
    Covers c.pos (c.rest.take (Scan.total ks)) (c.emit ks).1 := by
  induction ks generalizing c with
  | nil => rfl
  | cons k ks ih =>
    obtain ⟨hp, hle, h⟩ := h
    have hlen : (c.rest.take k.2).length = k.2 := by simpa using hle
    refine ⟨?_, rfl, (c.rest.drop k.2).take (Scan.total ks), ?_, ?_⟩
    · refine List.length_pos_iff.1 ?_
      change 0 < (c.rest.take k.2).length
      omega
    · rw [Scan.total_cons, List.take_add]
      rfl
    · have := ih (c := c.advance k.2) h
      rwa [show c.pos + (c.token k.1 k.2).text.length = (c.advance k.2).pos by rw [← hlen]; simp [token, advance]]

/-- The tokens of any number of steps. -/
inductive Reads : Cursor → List Token → Cursor → Prop where
  | refl (c : Cursor) : Reads c [] c
  | step {c e : Cursor} {b : UInt8} {s : Bytes} {m : Move} {us : List Token} : c.rest = b :: s →
      c.move b s = .ok m → Reads (c.perform m).2 us e → Reads c ((c.perform m).1 ++ us) e

theorem Reads.trans {c d e : Cursor} {ts us : List Token} (h : Reads c ts d) (hu : Reads d us e) :
    Reads c (ts ++ us) e := by
  induction h with
  | refl => exact hu
  | step hr hm _ ih =>
    rw [List.append_assoc]
    exact .step hr hm (ih hu)

theorem perform_covers {c : Cursor} {m : Move} (hf : Scan.Fits c.rest m.tokens) (hne : m.tokens ≠ []) :
    Covers c.pos (c.rest.take (Scan.total m.tokens)) (c.perform m).1 ∧
      (c.perform m).2.rest = c.rest.drop (Scan.total m.tokens) ∧
      (c.perform m).2.pos = c.pos + Scan.total m.tokens := by
  rw [perform_snd hf hne]
  refine ⟨?_, rfl, rfl⟩
  exact emit_covers (c := c.withFrames (c.around m)) hf

theorem Reads.covers {c d : Cursor} {ts : List Token} (h : Reads c ts d) {inText : Bool}
    (hl : Layered inText c.frames) :
    (∃ s, c.rest = s ++ d.rest ∧ Covers c.pos s ts) ∧ ∃ inText', Layered inText' d.frames := by
  induction h generalizing inText with
  | refl c => exact ⟨⟨[], rfl, rfl⟩, inText, hl⟩
  | @step c e b s m us hr hm _ ih =>
    obtain ⟨hf, hne⟩ := move_fits hl hm
    rw [← hr] at hf
    obtain ⟨hc, hrest, hpos⟩ := perform_covers hf hne
    obtain ⟨inText', hl'⟩ := hl.after hm c.pos (c.pos + Scan.total m.tokens)
    have hlen : (c.rest.take (Scan.total m.tokens)).length = Scan.total m.tokens := by
      simpa using hf.total_le
    obtain ⟨⟨r, hr', hcr⟩, hd⟩ := ih (by rw [perform_snd hf hne]; exact hl')
    refine ⟨⟨c.rest.take (Scan.total m.tokens) ++ r, ?_, hc.append ?_⟩, hd⟩
    · rw [List.append_assoc, ← hr', hrest, List.take_append_drop]
    · rwa [hlen, ← hpos]

/-- The reading reaches the end of the source with every construct closed. -/
def Finishes (c : Cursor) (ts : List Token) : Prop := ∃ d, Reads c ts d ∧ d.rest = [] ∧ d.frames = []

theorem atEnd_eq_ok {c : Cursor} {ts : List Token} (hr : c.rest = []) : c.atEnd = .ok ts ↔ c.Finishes ts := by
  have hend : c.Finishes ts ↔ c.frames = [] ∧ ts = [] := by
    constructor
    · rintro ⟨d, hd, -, hf⟩
      cases hd with
      | refl => exact ⟨hf, rfl⟩
      | step hr' => simp [hr] at hr'
    · rintro ⟨hf, rfl⟩
      exact ⟨c, .refl c, hr, hf⟩
  rw [hend, atEnd]
  rcases c.frames with _ | ⟨_ | _ | _, fs⟩
  · simp [eq_comm]
  · simp
  · simp
  · simp

theorem finishes_cons {c : Cursor} {b : UInt8} {s : Bytes} (hr : c.rest = b :: s) {ts : List Token} :
    c.Finishes ts ↔
      ∃ m us, c.move b s = .ok m ∧ (c.perform m).2.Finishes us ∧ ts = (c.perform m).1 ++ us := by
  constructor
  · rintro ⟨d, hd, hend, hf⟩
    cases hd with
    | refl => simp [hr] at hend
    | @step _ _ b' s' m us hr' hm h =>
      rw [hr] at hr'
      cases hr'
      exact ⟨m, us, hm, ⟨d, h, hend, hf⟩, rfl⟩
  · rintro ⟨m, us, hm, ⟨d, h, hend, hf⟩, rfl⟩
    exact ⟨d, .step hr hm h, hend, hf⟩

/-- With a step for every byte, a run succeeds exactly when its reading finishes. -/
theorem run_eq_ok {c : Cursor} {fuel : Nat} {ts : List Token} {inText : Bool}
    (hl : Layered inText c.frames) (hfuel : c.rest.length ≤ fuel) :
    c.run fuel = .ok ts ↔ c.Finishes ts := by
  induction fuel generalizing c ts inText with
  | zero =>
    rw [run]
    exact atEnd_eq_ok (List.length_eq_zero_iff.1 (by omega))
  | succ fuel ih =>
    cases hr : c.rest with
    | nil =>
      rw [run, hr]
      exact atEnd_eq_ok hr
    | cons b s =>
      rw [finishes_cons hr, run, hr]
      simp only [step_eq hr]
      cases hm : c.move b s with
      | error problem => simp [follow, fail, bind, Except.bind]
      | ok m =>
        obtain ⟨hf, hne⟩ := move_fits hl hm
        rw [← hr] at hf
        obtain ⟨inText', hl'⟩ := hl.after hm c.pos (c.pos + Scan.total m.tokens)
        have hpos := hf.total_pos hne
        have hnext := perform_snd hf hne
        have hlen : (c.perform m).2.rest.length ≤ fuel := by
          rw [hnext]
          simp only [withFrames, advance, List.length_drop]
          omega
        have hih (us : List Token) : (c.perform m).2.run fuel = .ok us ↔ (c.perform m).2.Finishes us :=
          ih (by rw [hnext]; exact hl') hlen
        constructor
        · intro h
          cases hrun : (c.perform m).2.run fuel with
          | error e => simp [follow, bind, Except.bind, hrun] at h
          | ok us =>
            refine ⟨m, us, rfl, (hih us).1 hrun, ?_⟩
            simpa [follow, bind, Except.bind, pure, Except.pure, hrun, eq_comm] using h
        · rintro ⟨_, us, ⟨⟩, hus, rfl⟩
          simp [follow, bind, Except.bind, pure, Except.pure, (hih us).2 hus]

theorem tokenize_eq_ok {src : Bytes} {ts : List Token} :
    tokenize src = .ok ts ↔ (ofSource src).Finishes ts :=
  run_eq_ok .top le_rfl

end Cursor

theorem tokenize_covers {src : Bytes} {ts : List Token} (h : tokenize src = .ok ts) : Covers 0 src ts := by
  obtain ⟨d, hd, hrest, -⟩ := Cursor.tokenize_eq_ok.1 h
  obtain ⟨⟨s, hs, hc⟩, -⟩ := hd.covers .top
  have : src = s := by simpa [Cursor.ofSource, hrest] using hs
  exact this ▸ hc

/-- Nothing of the source is lost, repeated or moved. -/
theorem tokenize_partition {src : Bytes} {ts : List Token} (h : tokenize src = .ok ts) :
    (∀ t ∈ ts, t.text ≠ []) ∧ (∀ t ∈ ts.head?, t.offset = 0) ∧
      (ts.IsChain fun t u => u.offset = t.offset + t.text.length) ∧ ts.flatMap (·.text) = src := by
  have hc := tokenize_covers h
  exact ⟨hc.text_ne_nil, hc.offset_head, hc.isChain_offset, hc.flatMap_text⟩

/-- A string in an interpolation in a string. -/
theorem tokenize_partition_nested :
    ∃ ts, tokenize "\"x\x7b$a[\"k\"]\x7d\";" = .ok ts ∧ ts.length = 10 ∧ (∀ t ∈ ts, t.text ≠ []) ∧
      (∀ t ∈ ts.head?, t.offset = 0) ∧ (ts.IsChain fun t u => u.offset = t.offset + t.text.length) ∧
      ts.flatMap (·.text) = "\"x\x7b$a[\"k\"]\x7d\";" :=
  ⟨_, rfl, rfl, tokenize_partition rfl⟩

end Stencil.Token
