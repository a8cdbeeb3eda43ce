import Stencil.Proofs.Success
import Stencil.Proofs.Token.Progress
import Stencil.Proofs.Token.Strings

/-! The scan for the end of a string and the reading of its text. The scan takes the code of interpolations for text, so it
may stop at a delimiter inside of it. It tells all the same whether the text is read as one piece, and where that ends,
and where it finds no delimiter the reading finds none: outside of the code both pass the same escapes. -/

namespace Stencil.Token

open Ascii

namespace Scan

open Cursor (closesQuoted)

variable {delim : UInt8} {i : Bool} {body : Bytes}

theorem closes_isSome (lineStart : Bool) (s : Bytes) : (closesQuoted delim lineStart s).isSome = (s.head? == some delim) := by
  unfold closesQuoted
  split_ifs with h <;> simp [h]

theorem literal_cons {stop : Bool → Bytes → Bool} {c : UInt8} {s : Bytes} (hc : c ≠ backslash) (hs : s ≠ [])
    (lineStart : Bool) : literal stop lineStart (c :: s) =
      if stop lineStart (c :: s) || startsInterpolation (c :: s) then 0 else literal stop (c == newline) s + 1 := by
  cases s with
  | nil => exact absurd rfl hs
  | cons d s => simp only [literal, beq_iff_eq, if_neg hc]

theorem literal_of_starts {stop : Bool → Bytes → Bool} {lineStart : Bool} {s : Bytes} (hs : startsInterpolation s) :
    literal stop lineStart s = 0 := by
  rcases s with _ | ⟨c, _ | ⟨d, s⟩⟩
  · rfl
  · cases hs
  · rw [literal, hs, Bool.or_true, if_pos rfl]

theorem Inside.literal (hd : delim ∈ quotes) (h : Inside delim i body) (z : Bytes) (lineStart : Bool) :
    (i = false → Scan.literal (fun l t => (closesQuoted delim l t).isSome) lineStart (body ++ delim :: z) = body.length) ∧
      (i = true → startsInterpolation ((body ++ delim :: z).drop
        (Scan.literal (fun l t => (closesQuoted delim l t).isSome) lineStart (body ++ delim :: z)))) := by
  have hne : ∀ q ∈ quotes, q ≠ backslash := by decide +kernel
  induction h generalizing lineStart with
  | nil =>
    cases z <;> simp [Scan.literal, closes_isSome]
  | @pair d i s _ ih =>
    have hgo : ((backslash :: d :: (s ++ delim :: z)).head? == some delim) = false := by
      simpa using (hne delim hd).symm
    have hstart : startsInterpolation (backslash :: d :: (s ++ delim :: z)) = false := rfl
    obtain ⟨hplain, hinterpolates⟩ := ih (d == newline)
    rw [List.cons_append, List.cons_append, Scan.literal, closes_isSome, hgo, hstart]
    simp only [Bool.or_self, Bool.false_eq_true, if_false, beq_self_eq_true, if_true]
    exact ⟨fun hi => by simp [hplain hi], hinterpolates⟩
  | @byte c i s hc hdelim hs ih =>
    have hgo : ((c :: (s ++ delim :: z)).head? == some delim) = false := by simpa using hdelim
    obtain ⟨hplain, hinterpolates⟩ := ih (c == newline)
    rw [List.cons_append, literal_cons hc (by simp), closes_isSome, hgo, startsInterpolation_quote hd, Bool.false_or]
    cases hstart : startsInterpolation (c :: s) with
    | true =>
      rw [if_pos rfl, Bool.true_or]
      refine ⟨fun h => Bool.noConfusion h, fun _ => ?_⟩
      rw [List.drop_zero, startsInterpolation_quote hd, hstart]
    | false =>
      rw [if_neg (by simp), Bool.false_or]
      exact ⟨fun hi => by simp [hplain hi], hinterpolates⟩

theorem Inside.ne_head (hd : delim ∈ quotes) (h : Inside delim i body) (hne : body ≠ []) (z : Bytes) :
    (body ++ z).head? ≠ some delim := by
  cases h with
  | nil => exact absurd rfl hne
  | pair =>
    intro heq
    obtain rfl : backslash = delim := by simpa using heq
    exact absurd hd (by decide)
  | byte _ hdelim _ => simpa using hdelim

theorem Inside.ne_nil (h : Inside delim i body) (hi : i = true) : body ≠ [] := by
  cases h with
  | nil => cases hi
  | pair | byte => exact List.cons_ne_nil _ _

theorem codeMove_quote {s : Bytes} {n : Nat} (hdelim : delim = doubleQuote ∨ delim = backtick)
    (h : quoted delim s = some (n, true)) : codeMove delim s = .ok ⟨[(.quote, 1)], .enterQuoted delim⟩ := by
  rcases hdelim with rfl | rfl <;> simp +decide [codeMove, h]

theorem TextMove.of_starts {terminator : Kind} {closes : Bool → Bytes → Option Nat} {lineStart : Bool} {s : Bytes}
    {m : Move} (h : TextMove terminator closes lineStart s m) (hterm : terminator ≠ .encapsed)
    (hs : startsInterpolation s) : ∃ k ∈ m.tokens, k.1 ≠ .encapsed := by
  cases h with
  | close => exact ⟨_, List.mem_cons_self, hterm⟩
  | var => exact ⟨_, List.mem_cons_self, by simp⟩
  | curly => exact ⟨_, List.mem_cons_self, by simp⟩
  | dollarCurly => exact ⟨_, List.mem_cons_self, by simp⟩
  | literal _ _ _ _ hplain => simp [hplain] at hs
  | last => cases hs

theorem TextMove.of_plain {terminator : Kind} {closes : Bool → Bytes → Option Nat} {lineStart : Bool} {s : Bytes}
    {m : Move} (h : TextMove terminator closes lineStart s m) (hn : closes lineStart s = none)
    (hs : startsInterpolation s = false) :
    m = ⟨[(.encapsed, Scan.literal (fun l t => (closes l t).isSome) lineStart s)], .stay⟩ := by
  cases h with
  | close _ n hc => simp [hn] at hc
  | var d t _ hd => simp [startsInterpolation, hd] at hs
  | curly => simp [startsInterpolation] at hs
  | dollarCurly => simp [startsInterpolation] at hs
  | literal => rfl
  | last => simp [Scan.literal, hn]

end Scan

namespace Cursor

/-- Reads the text of a string up to its delimiter, with the code of its interpolations. -/
def readText (frames : List Frame) (delim : UInt8) : (fuel : Nat) → Cursor → Step
  | 0, c => c.atEnd.map (·, c)
  | fuel + 1, c =>
    if c.frames = frames ∧ c.rest.head? = some delim then .ok ([], c)
    else match c.rest with
      | [] => c.atEnd.map (·, c)
      | b :: s => do
        let (ts, d) ← c.step b s
        let (more, e) ← readText frames delim fuel d
        return (ts ++ more, e)

variable {frames fs : List Frame} {delim : UInt8} {fuel : Nat} {c d : Cursor} {b : UInt8} {s : Bytes} {ts : List Token}

theorem readText_of_delim (hf : c.frames = frames) (hr : c.rest = delim :: s) (fuel : Nat) :
    c.readText frames delim (fuel + 1) = .ok ([], c) := by
  rw [readText, if_pos ⟨hf, by rw [hr]; rfl⟩]

theorem readText_of_nil (hr : c.rest = []) (fuel : Nat) : c.readText frames delim fuel = c.atEnd.map (·, c) := by
  cases fuel with
  | zero => rfl
  | succ fuel =>
    rw [readText, if_neg (by simp [hr])]
    simp only [hr]

theorem readText_of_step (hgo : ¬ (c.frames = frames ∧ c.rest.head? = some delim)) (hr : c.rest = b :: s)
    (hstep : c.step b s = .ok (ts, d)) (fuel : Nat) :
    c.readText frames delim (fuel + 1) = (d.readText frames delim fuel).map fun p => (ts ++ p.1, p.2) := by
  rw [readText, if_neg hgo]
  simp only [hr, hstep, bind, Except.bind, pure, Except.pure]
  cases d.readText frames delim fuel <;> rfl

theorem readText_of_fault (hgo : ¬ (c.frames = frames ∧ c.rest.head? = some delim)) (hr : c.rest = b :: s)
    {fault : Fault} (hstep : c.step b s = .error fault) (fuel : Nat) :
    c.readText frames delim (fuel + 1) = .error fault := by
  rw [readText, if_neg hgo]
  simp only [hr, hstep, bind, Except.bind]

theorem of_atEnd (h : c.atEnd = .ok ts) : c.frames = [] ∧ ts = [] := by
  unfold atEnd at h
  split at h
  · next hf =>
    cases h
    exact ⟨hf, rfl⟩
  all_goals cases h

theorem run_eq_readText_of_nil (hr : c.rest = []) (fuel fuel' : Nat) :
    c.run fuel = do
      let (ts, d) ← c.readText frames delim fuel
      let more ← d.run fuel'
      return ts ++ more := by
  rw [run_of_nil hr, readText_of_nil hr]
  cases hend : c.atEnd with
  | error fault => rfl
  | ok us =>
    obtain ⟨-, rfl⟩ := of_atEnd hend
    simp [bind, Except.bind, pure, Except.pure, Except.map, run_of_nil hr, hend]

/-- A run reads the text and then goes on behind it. -/
theorem run_eq_readText {inText : Bool} {fuel' : Nat} (hl : Layered inText c.frames) (hfuel : c.rest.length ≤ fuel)
    (hfuel' : c.rest.length ≤ fuel') :
    c.run fuel = do
      let (ts, d) ← c.readText frames delim fuel
      let more ← d.run fuel'
      return ts ++ more := by
  induction fuel generalizing c inText with
  | zero => exact run_eq_readText_of_nil (List.length_eq_zero_iff.mp (by omega)) 0 fuel'
  | succ fuel ih =>
    cases hr : c.rest with
    | nil => exact run_eq_readText_of_nil hr (fuel + 1) fuel'
    | cons b s =>
      by_cases hstop : c.frames = frames ∧ c.rest.head? = some delim
      · obtain rfl : b = delim := by simpa [hr] using hstop.2
        rw [readText_of_delim hstop.1 hr, run_congr hl hfuel hfuel']
        simp only [bind, Except.bind, pure, Except.pure, List.nil_append]
        cases c.run fuel' <;> rfl
      · rcases step_cases hr with ⟨problem, -, hstep⟩ | ⟨m, -, hstep⟩
        · rw [run_of_fault hr hstep, readText_of_fault hstop hr hstep]
          rfl
        · obtain ⟨us, d, hd⟩ : ∃ us d, c.perform m = (us, d) := ⟨_, _, rfl⟩
          rw [hd] at hstep
          obtain ⟨hlt, inText', hl'⟩ := step_shorter hl hr hstep
          rw [run_of_step hr hstep, readText_of_step hstop hr hstep, ih hl' (by omega) (by omega)]
          simp only [bind, Except.bind, pure, Except.pure]
          cases d.readText frames delim fuel with
          | error fault => rfl
          | ok p =>
            simp only [Except.map]
            cases p.2.run fuel' <;> simp

/-- A step inside a string, when the delimiter is not next in its text, stays inside, whatever encloses the string. -/
theorem move_inside {o : Nat} {inner : List Frame} {m : Move} (hf : c.frames = inner ++ .quoted o delim :: fs)
    (hgo : ¬ (c.frames = .quoted o delim :: fs ∧ c.rest.head? = some delim)) (hr : c.rest = b :: s)
    (hm : c.move b s = .ok m) (start stop : Nat) :
    ∃ inner', ∀ fs', m.effect.frames start stop (inner ++ .quoted o delim :: fs') = inner' ++ .quoted o delim :: fs' := by
  cases inner with
  | nil =>
    rw [List.nil_append] at hf
    have hhead : c.rest.head? ≠ some delim := fun h => hgo ⟨hf, h⟩
    have hnone : closesQuoted delim c.lineStart (b :: s) = none := by
      rw [closesQuoted, if_neg (by simpa [hr] using hhead)]
    have ht : Scan.TextMove .quote (closesQuoted delim) c.lineStart (b :: s) m := by
      simp only [move, hf, Except.ok.injEq] at hm
      rw [← hm]
      exact Scan.textMove_cases ..
    have hstay : m.effect = .stay ∨ m.effect = .enterCode := by
      rcases ht.effect with hleave | hstay
      · obtain ⟨n, hn, -⟩ := ht.of_leave hleave
        rw [hnone] at hn
        cases hn
      · exact hstay
    rcases hstay with he | he
    · exact ⟨[], fun fs' => by rw [he]; rfl⟩
    · exact ⟨[.nested stop 0], fun fs' => by rw [he]; rfl⟩
  | cons f inner =>
    refine ⟨m.effect.frames start stop (f :: inner), fun fs' => ?_⟩
    cases m.effect <;> rcases f with ⟨_, _ | _⟩ | _ | _ <;> rfl

theorem move_withFrames {frames : List Frame} (h : frames.head? = c.frames.head?) :
    (c.withFrames frames).move b s = c.move b s := by
  rcases hc : c.frames with _ | ⟨f, fs⟩ <;> rcases frames with _ | ⟨g, gs⟩ <;>
    simp [hc] at h <;> simp [move, withFrames, hc]
  subst h
  cases g <;> rfl

theorem perform_withFrames {m : Move} (hf : Scan.Fits c.rest m.tokens) (hne : m.tokens ≠ []) (frames : List Frame) :
    ((c.withFrames frames).perform m).2 =
      (c.perform m).2.withFrames (m.effect.frames c.pos (c.pos + Scan.total m.tokens) frames) := by
  rw [perform_snd hf hne, perform_snd (c := c.withFrames frames) hf hne]
  rfl

/-- What is read of a string up to its delimiter is read in the same way when nothing encloses the string. -/
theorem readText_reads {o : Nat} {inner : List Frame} {inText : Bool} (hl : Layered inText c.frames)
    (hf : c.frames = inner ++ .quoted o delim :: fs) (h : c.readText (.quoted o delim :: fs) delim fuel = .ok (ts, d)) :
    d.frames = .quoted o delim :: fs ∧ d.rest.head? = some delim ∧
      ∃ us, Reads (c.withFrames (inner ++ [.quoted o delim])) us (d.withFrames [.quoted o delim]) := by
  have hend {c : Cursor} {inner : List Frame} (hf : c.frames = inner ++ .quoted o delim :: fs) {us : List Token}
      (h : c.atEnd.map (·, c) = .ok (us, d)) : False := by
    obtain ⟨vs, hclosed, -⟩ := map_eq_ok h
    simp [(of_atEnd hclosed).1] at hf
  induction fuel generalizing c inner inText ts with
  | zero => exact (hend hf h).elim
  | succ fuel ih =>
    by_cases hstop : c.frames = .quoted o delim :: fs ∧ c.rest.head? = some delim
    · rw [readText, if_pos hstop] at h
      cases h
      obtain rfl : inner = [] := by simpa [hstop.1] using hf
      exact ⟨hstop.1, hstop.2, [], .refl _⟩
    · cases hr : c.rest with
      | nil =>
        rw [readText_of_nil hr] at h
        exact (hend hf h).elim
      | cons b s =>
        rcases step_cases hr with ⟨problem, -, hstep⟩ | ⟨m, hm, hstep⟩
        · rw [readText_of_fault hstop hr hstep] at h
          cases h
        · obtain ⟨hfits, hne⟩ := move_fits hl hm
          rw [← hr] at hfits
          obtain ⟨inner', hinner⟩ := move_inside hf hstop hr hm c.pos (c.pos + Scan.total m.tokens)
          have hframes : (c.perform m).2.frames = inner' ++ .quoted o delim :: fs := by
            rw [perform_snd hfits hne, ← hinner, ← hf]
            rfl
          obtain ⟨us, next, hnext⟩ : ∃ us next, c.perform m = (us, next) := ⟨_, _, rfl⟩
          have htail := perform_withFrames hfits hne (inner ++ [.quoted o delim])
          rw [hnext] at hstep hframes htail
          dsimp only at hframes htail
          obtain ⟨-, inText', hl'⟩ := step_shorter hl hr hstep
          rw [readText_of_step hstop hr hstep] at h
          obtain ⟨⟨vs, e⟩, hmore, heq⟩ := map_eq_ok h
          cases heq
          obtain ⟨hd, hhead, ws, hws⟩ := ih hl' hframes hmore
          rw [← hinner, ← htail] at hws
          refine ⟨hd, hhead, _, .step hr ((move_withFrames ?_).trans hm) hws⟩
          rw [hf]
          cases inner <;> rfl

/-- The delimiter that a reading finds is also found by the scan. -/
theorem quoted_of_readText {o : Nat} (hdelim : delim = doubleQuote ∨ delim = backtick) (hfs : Layered false fs)
    (hf : c.frames = .quoted o delim :: fs) (h : c.readText c.frames delim fuel = .ok (ts, d)) :
    Scan.quoted delim c.rest ≠ none := by
  have hl : Layered true c.frames := hf ▸ .quoted o hdelim hfs
  have halone : Layered true [.quoted o delim] := .quoted o hdelim .top
  rw [hf] at h
  obtain ⟨-, hhead, us, hus⟩ := readText_reads hl (show c.frames = [] ++ .quoted o delim :: fs from hf) h
  obtain ⟨s, hr⟩ : ∃ s, d.rest = delim :: s := List.head?_eq_some_iff.mp hhead
  -- the closing delimiter leaves nothing open, so what is read before it keeps what the string promises
  have hclose : (d.withFrames [.quoted o delim]).move delim s = .ok ⟨[(.quote, 1)], .leave⟩ := by
    simp [move, withFrames, Scan.textMove, closesQuoted]
  have hwhole := hus.trans (.step hr hclose (.refl _))
  obtain ⟨⟨p, hp, -⟩, -⟩ := hwhole.covers halone
  have hends := (hwhole.pending halone rfl hp).innermost o delim rfl
  obtain ⟨r, hquoted⟩ := Option.isSome_iff_exists.mp hends
  have hne : delim ≠ backslash := by rcases hdelim with rfl | rfl <;> decide
  rw [show c.rest = p ++ _ from hp, Scan.quoted_append hne hquoted]
  exact Option.some_ne_none r

theorem step_text {o : Nat} (hf : c.frames = .quoted o delim :: fs) (hr : c.rest = b :: s) :
    ∃ m, Scan.TextMove .quote (closesQuoted delim) c.lineStart (b :: s) m ∧ c.step b s = .ok (c.perform m) := by
  refine ⟨_, Scan.textMove_cases .quote (closesQuoted delim) c.lineStart b s, ?_⟩
  rw [step_eq hr, move, hf]
  rfl

/-- A step in text that is not at the delimiter and at no interpolation reads all that is literal. -/
theorem step_literal {o : Nat} (hf : c.frames = .quoted o delim :: fs) (hr : c.rest = b :: s) (hb : b ≠ delim)
    (hs : Scan.startsInterpolation (b :: s) = false) :
    let n := Scan.literal (fun l t => (closesQuoted delim l t).isSome) c.lineStart (b :: s)
    c.step b s = .ok ([c.token .encapsed n], c.advance n) := by
  intro n
  obtain ⟨m, ht, hstep⟩ := step_text hf hr
  have hnone : closesQuoted delim c.lineStart (b :: s) = none := by simp [closesQuoted, hb]
  rw [hstep, ht.of_plain hnone hs, perform_stay]
  rfl

theorem step_interpolation {o : Nat} (hf : c.frames = .quoted o delim :: fs) (hr : c.rest = b :: s)
    (hs : Scan.startsInterpolation (b :: s)) (h : c.step b s = .ok (ts, d)) : ∃ t ∈ ts, t.kind ≠ .encapsed := by
  obtain ⟨m, ht, hstep⟩ := step_text hf hr
  obtain ⟨k, hk, hkind⟩ := ht.of_starts (by simp) hs
  have hts : (c.perform m).1 = ts := congrArg Prod.fst (Except.ok.inj (hstep.symm.trans h))
  have hmem : k.1 ∈ ts.map (·.kind) := by
    rw [← hts, perform_kinds]
    exact List.mem_map_of_mem hk
  obtain ⟨t, ht, heq⟩ := List.mem_map.mp hmem
  exact ⟨t, ht, heq ▸ hkind⟩

theorem readText_plain {o : Nat} {body z : Bytes} (hd : delim ∈ Scan.quotes) (hf : c.frames = .quoted o delim :: fs)
    (hbody : Scan.Inside delim false body) (hr : c.rest = body ++ delim :: z) (hfuel : c.rest.length ≤ fuel) :
    ∃ ts d, c.readText c.frames delim fuel = .ok (ts, d) ∧ d.pos = c.pos + body.length ∧
      (ts = [] ∨ ∃ t, ts = [t] ∧ t.kind = .encapsed) := by
  have hliteral := (hbody.literal hd z c.lineStart).1 rfl
  cases body with
  | nil =>
    rw [List.nil_append] at hr
    obtain ⟨fuel, rfl⟩ : ∃ k, fuel = k + 1 := Nat.exists_eq_add_of_le' (by simp [hr] at hfuel; omega)
    exact ⟨[], c, readText_of_delim rfl hr fuel, rfl, .inl rfl⟩
  | cons b body =>
    rw [List.cons_append] at hr hliteral
    obtain ⟨fuel, rfl⟩ : ∃ k, fuel = k + 2 := Nat.exists_eq_add_of_le' (by simp [hr] at hfuel; omega)
    have hb : b ≠ delim := by simpa using hbody.ne_head hd (List.cons_ne_nil b body) []
    have hs : Scan.startsInterpolation (b :: (body ++ delim :: z)) = false := by
      refine Bool.eq_false_iff.mpr fun hs => ?_
      rw [Scan.literal_of_starts hs] at hliteral
      cases hliteral
    have hstep := step_literal hf hr hb hs
    rw [hliteral] at hstep
    have hframes : (c.advance (b :: body).length).frames = c.frames := rfl
    have hnext : (c.advance (b :: body).length).rest = delim :: z := by simp [advance, hr]
    have hgo : ¬ (c.frames = c.frames ∧ c.rest.head? = some delim) := by simp [hr, hb]
    rw [readText_of_step hgo hr hstep, readText_of_delim hframes hnext]
    exact ⟨_, _, rfl, rfl, .inr ⟨_, rfl, rfl⟩⟩

theorem readText_interpolation {o : Nat} (hdelim : delim = doubleQuote ∨ delim = backtick)
    (hf : c.frames = .quoted o delim :: fs) (hs : Scan.startsInterpolation c.rest)
    (h : c.readText c.frames delim (fuel + 1) = .ok (ts, d)) : ∃ t ∈ ts, t.kind ≠ .encapsed := by
  cases hr : c.rest with
  | nil => simp [hr, Scan.startsInterpolation] at hs
  | cons b s =>
    rw [hr] at hs
    have hgo : ¬ (c.frames = c.frames ∧ c.rest.head? = some delim) := by
      rintro ⟨-, hhead⟩
      obtain rfl : b = delim := by simpa [hr] using hhead
      rcases s with _ | ⟨e, s⟩ <;> rcases hdelim with rfl | rfl <;> cases hs
    rcases step_cases hr with ⟨problem, -, hstep⟩ | ⟨m, -, hstep⟩
    · rw [readText_of_fault hgo hr hstep] at h
      cases h
    · obtain ⟨us, next, hnext⟩ : ∃ us next, c.perform m = (us, next) := ⟨_, _, rfl⟩
      rw [hnext] at hstep
      rw [readText_of_step hgo hr hstep] at h
      obtain ⟨p, -, heq⟩ := map_eq_ok h
      cases heq
      obtain ⟨t, ht, hkind⟩ := step_interpolation hf hr hs hstep
      exact ⟨t, List.mem_append_left p.1 ht, hkind⟩

/-- Text with an interpolation gives a token that is not literal. -/
theorem readText_interpolates {o : Nat} {body z : Bytes} (hdelim : delim = doubleQuote ∨ delim = backtick)
    (hf : c.frames = .quoted o delim :: fs) (hbody : Scan.Inside delim true body) (hr : c.rest = body ++ delim :: z)
    (hfuel : c.rest.length ≤ fuel) (h : c.readText c.frames delim fuel = .ok (ts, d)) :
    ∃ t ∈ ts, t.kind ≠ .encapsed := by
  have hd : delim ∈ Scan.quotes := by rcases hdelim with rfl | rfl <;> decide
  have hstarts := (hbody.literal hd z c.lineStart).2 rfl
  cases body with
  | nil => exact absurd rfl (hbody.ne_nil rfl)
  | cons b body =>
    rw [List.cons_append] at hr hstarts
    obtain ⟨fuel, rfl⟩ : ∃ k, fuel = k + 2 := Nat.exists_eq_add_of_le' (by simp [hr] at hfuel; omega)
    cases hs : Scan.startsInterpolation (b :: (body ++ delim :: z)) with
    | true => exact readText_interpolation hdelim hf (by rw [hr, hs]) h
    | false =>
      have hb : b ≠ delim := by simpa using hbody.ne_head hd (List.cons_ne_nil b body) []
      have hgo : ¬ (c.frames = c.frames ∧ c.rest.head? = some delim) := by simp [hr, hb]
      rw [readText_of_step hgo hr (step_literal hf hr hb hs)] at h
      obtain ⟨p, hmore, heq⟩ := map_eq_ok h
      cases heq
      rw [← hr] at hstarts
      obtain ⟨t, ht, hkind⟩ := readText_interpolation (c := c.advance _) hdelim hf (by rw [← hr]; exact hstarts) hmore
      exact ⟨t, List.mem_append_right _ ht, hkind⟩

/-- Where the text of a string starts whose delimiter is at offset `pos`. -/
def atText (src : Bytes) (pos : Nat) (delim : UInt8) (fs : List Frame) : Cursor :=
  { frames := .quoted (pos + 1) delim :: fs, pos := pos + 1, lineStart := false, rest := src.drop (pos + 1) }

/-- Code goes on in the text of a string that interpolates. -/
theorem step_quote {src : Bytes} {pos n : Nat} (hdelim : delim = doubleQuote ∨ delim = backtick) (hfs : Layered false fs)
    (hpos : src[pos]? = some delim) (lineStart : Bool) (h : Scan.quoted delim (src.drop (pos + 1)) = some (n, true)) :
    let c : Cursor := { frames := fs, pos, lineStart, rest := src.drop pos }
    c.step delim (src.drop (pos + 1)) = .ok ([c.token .quote 1], atText src pos delim fs) := by
  intro c
  have hr : c.rest = delim :: src.drop (pos + 1) := by
    obtain ⟨hlt, heq⟩ := List.getElem?_eq_some_iff.mp hpos
    rw [← heq]
    exact List.drop_eq_getElem_cons hlt
  rw [step_eq hr, move_code hfs, Scan.codeMove_quote hdelim h]
  have hc : c = { frames := fs, pos, lineStart, rest := delim :: src.drop (pos + 1) } := congrArg (Cursor.mk _ _ _) hr
  rw [hc]
  rcases hdelim with rfl | rfl <;> rfl

/-- What the scan says of a string holds of the reading of its text: without interpolations it is one literal token at most
and ends at the delimiter that the scan found, with one it has another token if it ends, and where the scan finds no
delimiter the reading fails. The lexer makes this reading: it starts one at a string that interpolates, and a run from
there goes on behind it. -/
theorem quoted_agrees {src : Bytes} {pos : Nat} {delim : UInt8} {fs : List Frame}
    (hdelim : delim = doubleQuote ∨ delim = backtick) (hpos : src[pos]? = some delim) (hfs : Layered false fs) :
    let c := atText src pos delim fs
    let reading := c.readText c.frames delim src.length
    (∀ n, Scan.quoted delim c.rest = some (n, false) →
      ∃ ts d, reading = .ok (ts, d) ∧ d.pos = pos + n ∧ (ts = [] ∨ ∃ t, ts = [t] ∧ t.kind = .encapsed)) ∧
    (∀ n ts d, Scan.quoted delim c.rest = some (n, true) → reading = .ok (ts, d) → ∃ t ∈ ts, t.kind ≠ .encapsed) ∧
    (Scan.quoted delim c.rest = none → ∃ fault, reading = .error fault) ∧
    (∀ n lineStart, Scan.quoted delim c.rest = some (n, true) →
      let before : Cursor := { frames := fs, pos, lineStart, rest := src.drop pos }
      before.step delim c.rest = .ok ([before.token .quote 1], c)) ∧
    c.run src.length = do
      let (ts, d) ← reading
      let more ← d.run src.length
      return ts ++ more := by
  intro c reading
  have hd : delim ∈ Scan.quotes := by rcases hdelim with rfl | rfl <;> decide
  have hfuel : c.rest.length ≤ src.length := by simp [c, atText]
  refine ⟨fun n hquoted => ?_, fun n ts d hquoted h => ?_, fun hnone => ?_, fun n lineStart hquoted => ?_, ?_⟩
  · obtain ⟨body, z, hr, hbody, rfl⟩ := Scan.inside_of_quoted hd hquoted
    obtain ⟨ts, d, h, hend, hts⟩ := readText_plain hd rfl hbody hr hfuel
    refine ⟨ts, d, h, ?_, hts⟩
    rw [hend, show c.pos = pos + 1 from rfl]
    omega
  · obtain ⟨body, z, hr, hbody, -⟩ := Scan.inside_of_quoted hd hquoted
    exact readText_interpolates hdelim rfl hbody hr hfuel h
  · cases h : reading with
    | error fault => exact ⟨fault, rfl⟩
    | ok p => exact absurd hnone (quoted_of_readText hdelim hfs rfl h)
  · exact step_quote hdelim hfs hpos lineStart hquoted
  · exact run_eq_readText (.quoted _ hdelim hfs) hfuel hfuel

/-- In the first string the scan stops at the delimiter in a key, in the second it passes an escaped one, and the third ends
with an escaped one. -/
theorem quoted_agrees_nested :
    (∃ ts d, (atText "\"a\x7b$b['c\"d']\x7de\"" 0 doubleQuote []).readText [.quoted 1 doubleQuote] doubleQuote 15 =
      .ok (ts, d) ∧ d.pos = 14 ∧ ∃ t ∈ ts, t.kind ≠ .encapsed) ∧
    (∃ ts d, (atText "f(`a\\`b`)" 2 backtick []).readText [.quoted 3 backtick] backtick 9 = .ok (ts, d) ∧
      d.pos = 2 + 5 ∧ (ts = [] ∨ ∃ t, ts = [t] ∧ t.kind = .encapsed)) ∧
    ∃ fault, (atText "\"a$b\\\"" 0 doubleQuote []).readText [.quoted 1 doubleQuote] doubleQuote 6 = .error fault := by
  refine ⟨?_, ?_, ?_⟩
  · have hend : ((atText "\"a\x7b$b['c\"d']\x7de\"" 0 doubleQuote []).readText [.quoted 1 doubleQuote] doubleQuote
        15).toOption.map (·.2.pos) = some 14 := by decide +kernel
    obtain ⟨⟨ts, d⟩, hreading, hpos⟩ := Option.map_eq_some_iff.mp hend
    have hreading := ok_of_toOption hreading
    have hagrees := quoted_agrees (.inl rfl) (rfl : ("\"a\x7b$b['c\"d']\x7de\"" : Bytes)[0]? = some doubleQuote) .top
    exact ⟨ts, d, hreading, hpos, hagrees.2.1 8 ts d (by decide +kernel) hreading⟩
  · have hagrees := quoted_agrees (.inr rfl) (rfl : ("f(`a\\`b`)" : Bytes)[2]? = some backtick) .top
    exact hagrees.1 5 (by decide +kernel)
  · have hagrees := quoted_agrees (.inl rfl) (rfl : ("\"a$b\\\"" : Bytes)[0]? = some doubleQuote) .top
    exact hagrees.2.2.1 (by decide +kernel)

end Cursor

end Stencil.Token
