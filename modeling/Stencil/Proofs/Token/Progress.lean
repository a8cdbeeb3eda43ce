import Stencil.Proofs.Token.Partition

/-! The lexer goes forward and stays in its source. Every step reads at least one byte and none beyond the end, so a run
with a step for every byte of the source never runs out of steps. A fault lies at the cursor or where a construct around
it was opened. -/

namespace Stencil.Token

def Frame.offset : Frame → Nat
  | .nested opened _ => opened
  | .quoted opened _ => opened
  | .heredoc start _ => start

theorem Effect.offset_le (e : Effect) {start stop : Nat} (hle : start ≤ stop) {fs : List Frame}
    (hfs : ∀ f ∈ fs, f.offset ≤ start) : ∀ f ∈ e.frames start stop fs, f.offset ≤ stop := by
  have hold : ∀ f ∈ fs, f.offset ≤ stop := fun f hf => (hfs f hf).trans hle
  rcases fs with _ | ⟨g, fs⟩
  · cases e <;> simp [Effect.frames, Frame.offset, hle]
  · have htail : ∀ f ∈ fs, f.offset ≤ stop := fun f hf => hold f (List.mem_cons_of_mem g hf)
    have hhead : g.offset ≤ stop := hold g List.mem_cons_self
    cases e <;> rcases g with ⟨opened, _ | depth⟩ | _ | _ <;>
      simp_all [Effect.frames, Frame.offset]

namespace Cursor

/-- The cursor stands in the source, and what is open was opened before it. -/
structure In (src : Bytes) (c : Cursor) : Prop where
  layered : ∃ inText, Layered inText c.frames
  pos_le : c.pos ≤ src.length
  rest_eq : c.rest = src.drop c.pos
  opened : ∀ f ∈ c.frames, f.offset ≤ c.pos

theorem in_ofSource (src : Bytes) : (ofSource src).In src where
  layered := ⟨false, .top⟩
  pos_le := Nat.zero_le _
  rest_eq := rfl
  opened := by simp [ofSource]

theorem blame_offset {c : Cursor} {fault : Fault} (hfault : fault.offset ≤ c.pos) (hc : ∀ f ∈ c.frames, f.offset ≤ c.pos) :
    (c.blame fault).offset ≤ c.pos := by
  unfold blame
  generalize c.frames = fs at hc
  induction fs generalizing fault with
  | nil => exact hfault
  | cons f fs ih =>
    rw [List.forall_mem_cons] at hc
    rw [List.foldl_cons]
    apply ih _ hc.2
    cases f with
    | heredoc start label => exact hc.1
    | nested => exact hfault
    | quoted => exact hfault

theorem atEnd_offset {c : Cursor} (hc : ∀ f ∈ c.frames, f.offset ≤ c.pos) {fault : Fault} (h : c.atEnd = .error fault) :
    fault.offset ≤ c.pos := by
  unfold atEnd at h
  split at h
  · cases h
  · next opened depth fs hf =>
    cases h
    have hopened := hc (.nested opened depth) (by simp [hf])
    exact blame_offset hopened hc
  · next opened delim fs hf =>
    cases h
    have hopened := hc (.quoted opened delim) (by simp [hf])
    exact blame_offset hopened hc
  · next start label fs hf =>
    cases h
    have hstart := hc (.heredoc start label) (by simp [hf])
    exact blame_offset hstart hc

theorem step_cases {c : Cursor} {b : UInt8} {s : Bytes} (hr : c.rest = b :: s) :
    (∃ problem, c.move b s = .error problem ∧ c.step b s = .error (c.blame ⟨c.pos, problem⟩)) ∨
      ∃ m, c.move b s = .ok m ∧ c.step b s = .ok (c.perform m) := by
  rw [step_eq hr]
  cases hm : c.move b s with
  | error problem => exact .inl ⟨problem, rfl, rfl⟩
  | ok m => exact .inr ⟨m, rfl, rfl⟩

theorem step_shorter {c d : Cursor} {inText : Bool} {b : UInt8} {s : Bytes} {ts : List Token}
    (hl : Layered inText c.frames) (hr : c.rest = b :: s) (h : c.step b s = .ok (ts, d)) :
    d.rest.length < c.rest.length ∧ ∃ inText', Layered inText' d.frames := by
  rcases step_cases hr with ⟨problem, -, hstep⟩ | ⟨m, hm, hstep⟩
  · rw [hstep] at h
    cases h
  · rw [hstep] at h
    obtain ⟨hf, hne⟩ := move_fits hl hm
    rw [← hr] at hf
    have hpos := hf.total_pos hne
    have hle := hf.total_le
    have hd : d = (c.perform m).2 := (congrArg Prod.snd (Except.ok.inj h)).symm
    rw [hd, perform_snd hf hne]
    constructor
    · simp only [withFrames, advance, List.length_drop]
      omega
    · exact hl.after hm c.pos (c.pos + Scan.total m.tokens)

/-- A step in a source fails at an offset before the cursor, or goes forward within the source and turns the bytes that
it passes into tokens. -/
theorem In.step {src : Bytes} {c : Cursor} (h : c.In src) {b : UInt8} {s : Bytes} (hr : c.rest = b :: s) :
    (∃ fault, c.step b s = .error fault ∧ fault.offset ≤ c.pos) ∨
      ∃ m, c.move b s = .ok m ∧ c.step b s = .ok (c.perform m) ∧ (c.perform m).2.In src ∧
        c.pos < (c.perform m).2.pos ∧
        Covers c.pos (src.extract c.pos (c.perform m).2.pos) (c.perform m).1 := by
  obtain ⟨inText, hl⟩ := h.layered
  rcases step_cases hr with ⟨problem, -, hstep⟩ | ⟨m, hm, hstep⟩
  · exact .inl ⟨_, hstep, blame_offset le_rfl h.opened⟩
  · right
    obtain ⟨hf, hne⟩ := move_fits hl hm
    rw [← hr] at hf
    obtain ⟨hcovers, hrest, hpos⟩ := perform_covers hf hne
    have htotal := hf.total_pos hne
    have hle := hf.total_le
    rw [h.rest_eq, List.length_drop] at hle
    have hbound := h.pos_le
    refine ⟨m, hm, hstep, ⟨?_, ?_, ?_, ?_⟩, ?_, ?_⟩
    · rw [perform_snd hf hne]
      exact hl.after hm c.pos (c.pos + Scan.total m.tokens)
    · omega
    · rw [hrest, h.rest_eq, hpos, List.drop_drop]
    · rw [perform_snd hf hne]
      exact m.effect.offset_le (Nat.le_add_right _ _) h.opened
    · omega
    · rw [hpos, List.extract_eq_take_drop, Nat.add_sub_cancel_left, ← h.rest_eq]
      exact hcovers

theorem Reads.stays {src : Bytes} {c d : Cursor} {ts : List Token} (h : Reads c ts d) (hc : c.In src) : d.In src := by
  induction h with
  | refl => exact hc
  | @step _ e b s m us hr hm _ ih =>
    rcases hc.step hr with ⟨fault, hstep, -⟩ | ⟨m', hm', -, hin, -⟩
    · rw [step_eq hr, hm] at hstep
      cases hstep
    · rw [hm] at hm'
      cases hm'
      exact ih hin

theorem run_of_step {c d : Cursor} {b : UInt8} {s : Bytes} {ts : List Token} (hr : c.rest = b :: s)
    (hstep : c.step b s = .ok (ts, d)) (fuel : Nat) : c.run (fuel + 1) = (d.run fuel).map (ts ++ ·) := by
  rw [run, hr]
  simp only [hstep, bind, Except.bind, pure, Except.pure]
  cases d.run fuel <;> rfl

theorem run_of_fault {c : Cursor} {b : UInt8} {s : Bytes} {fault : Fault} (hr : c.rest = b :: s)
    (hstep : c.step b s = .error fault) (fuel : Nat) : c.run (fuel + 1) = .error fault := by
  rw [run, hr]
  simp only [hstep, bind, Except.bind]

theorem run_of_nil {c : Cursor} (hr : c.rest = []) (fuel : Nat) : c.run fuel = c.atEnd := by
  cases fuel with
  | zero => rfl
  | succ fuel => rw [run, hr]

/-- A reading of `ts` ends at the cursor, where the source ends or the next step fails. -/
inductive Halts (c : Cursor) (ts : List Token) : Except Fault (List Token) → Prop where
  | atEnd : c.rest = [] → Halts c ts (c.atEnd.map (ts ++ ·))
  | failed {b : UInt8} {s : Bytes} {fault : Fault} : c.rest = b :: s → c.step b s = .error fault →
      Halts c ts (.error fault)

theorem halts_of_nil {c : Cursor} (hr : c.rest = []) (fuel : Nat) : Halts c [] (c.run fuel) := by
  have hend : c.run fuel = c.atEnd.map ([] ++ ·) := by
    rw [run_of_nil hr]
    cases c.atEnd <;> rfl
  rw [hend]
  exact .atEnd hr

theorem Halts.after {d : Cursor} {ts : List Token} {r : Except Fault (List Token)} (us : List Token)
    (h : Halts d ts r) : Halts d (us ++ ts) (r.map (us ++ ·)) := by
  cases h with
  | atEnd hr =>
    have happend : (d.atEnd.map (ts ++ ·)).map (us ++ ·) = d.atEnd.map (us ++ ts ++ ·) := by
      cases d.atEnd <;> simp [Except.map]
    rw [happend]
    exact .atEnd hr
  | failed hr hstep => exact .failed hr hstep

theorem Halts.offset_le {src : Bytes} {c : Cursor} {ts : List Token} {r : Except Fault (List Token)} (h : Halts c ts r)
    (hc : c.In src) {fault : Fault} (hr : r = .error fault) : fault.offset ≤ src.length := by
  refine le_trans ?_ hc.pos_le
  cases h with
  | atEnd =>
    cases hend : c.atEnd with
    | ok => simp [hend, Except.map] at hr
    | error e =>
      simp only [hend, Except.map, Except.error.injEq] at hr
      exact hr ▸ atEnd_offset hc.opened hend
  | failed hrest hstep =>
    rcases hc.step hrest with ⟨fault', hstep', hle⟩ | ⟨m, -, hstep', -⟩
    · rw [hstep] at hstep'
      cases hstep'
      cases hr
      exact hle
    · rw [hstep] at hstep'
      cases hstep'

/-- With a step for every byte, a run goes on until it has read the source or a step fails. -/
theorem exists_run_halts {c : Cursor} {inText : Bool} (hl : Layered inText c.frames) {fuel : Nat}
    (hfuel : c.rest.length ≤ fuel) : ∃ ts d, Reads c ts d ∧ Halts d ts (c.run fuel) := by
  induction fuel generalizing c inText with
  | zero =>
    have hr : c.rest = [] := List.length_eq_zero_iff.mp (by omega)
    exact ⟨[], c, .refl c, halts_of_nil hr 0⟩
  | succ fuel ih =>
    cases hr : c.rest with
    | nil => exact ⟨[], c, .refl c, halts_of_nil hr (fuel + 1)⟩
    | cons b s =>
      rcases step_cases hr with ⟨problem, -, hstep⟩ | ⟨m, hm, hstep⟩
      · refine ⟨[], c, .refl c, ?_⟩
        rw [run_of_fault hr hstep]
        exact .failed hr hstep
      · obtain ⟨hlt, inText', hl'⟩ := step_shorter hl hr hstep
        obtain ⟨ts, d, hreads, hhalts⟩ := ih hl' (by omega)
        refine ⟨(c.perform m).1 ++ ts, d, .step hr hm hreads, ?_⟩
        rw [run_of_step hr hstep]
        exact hhalts.after _

/-- More steps than there are bytes change nothing. -/
theorem run_congr {c : Cursor} {inText : Bool} (hl : Layered inText c.frames) {fuel fuel' : Nat}
    (hfuel : c.rest.length ≤ fuel) (hfuel' : c.rest.length ≤ fuel') : c.run fuel = c.run fuel' := by
  induction fuel generalizing c inText fuel' with
  | zero =>
    have hr : c.rest = [] := List.length_eq_zero_iff.mp (by omega)
    rw [run_of_nil hr, run_of_nil hr]
  | succ fuel ih =>
    cases hr : c.rest with
    | nil => rw [run_of_nil hr, run_of_nil hr]
    | cons b s =>
      obtain ⟨k, rfl⟩ : ∃ k, fuel' = k + 1 := Nat.exists_eq_add_of_le' (by simp [hr] at hfuel'; omega)
      rcases step_cases hr with ⟨problem, -, hstep⟩ | ⟨m, -, hstep⟩
      · rw [run_of_fault hr hstep, run_of_fault hr hstep]
      · obtain ⟨hlt, inText', hl'⟩ := step_shorter hl hr hstep
        rw [run_of_step hr hstep, run_of_step hr hstep, @ih _ _ hl' k (by omega) (by omega)]

end Cursor

end Stencil.Token
