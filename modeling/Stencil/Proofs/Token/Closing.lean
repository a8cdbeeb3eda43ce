import Stencil.Proofs.Token.Locality
import Stencil.Proofs.Token.Partition

/-! What the open constructs of a reading promise about the text that is still to be read when the reading closes
them all: each string finds its delimiter there, also when a scan for it starts inside a nested
construct, and each heredoc its closing line. -/

namespace Stencil.Token

open Ascii

namespace Scan

/-- A scan for the closing delimiter of a string ends within the text. -/
def Ends (delim : UInt8) (s : Bytes) : Prop := (quoted delim s).isSome

namespace Ends

variable {delim : UInt8} {s w q z : Bytes}

theorem ne_nil (h : Ends delim s) : s ≠ [] := by
  rintro rfl
  cases h

theorem cons_escape (c : UInt8) : Ends delim (backslash :: c :: s) ↔ Ends delim s := by
  simp [Ends, quoted]

theorem cons {c : UInt8} (hc : c ≠ backslash) (h : Ends delim s) : Ends delim (c :: s) := by
  cases s with
  | nil => exact absurd rfl h.ne_nil
  | cons d s =>
    rw [Ends, quoted, if_neg (by simpa using hc)]
    split_ifs
    · rfl
    · simpa [Ends] using h

theorem delim_cons (hd : delim ≠ backslash) : Ends delim (delim :: s) := by
  cases s <;> simp [Ends, quoted, hd]

theorem mem (h : Ends delim s) : delim ∈ s := by
  unfold Ends at h
  fun_induction quoted delim s <;> simp_all

theorem skip (hw : ∀ c ∈ w, c ≠ backslash) (h : Ends delim q) : Ends delim (w ++ q) := by
  induction w with
  | nil => exact h
  | cons c w ih =>
    rw [List.forall_mem_cons] at hw
    exact (ih hw.2).cons hw.1

/-- A scan that goes through `w` in any way comes out at its end or one byte later. -/
theorem through (h : Ends delim q) (h₁ : Ends delim (q.drop 1)) :
    Ends delim (w ++ q) := by
  induction w using List.twoStepInduction with
  | nil => exact h
  | singleton c =>
    by_cases hc : c = backslash
    · subst hc
      cases q with
      | nil => exact absurd rfl h.ne_nil
      | cons d q => exact (cons_escape d).2 h₁
    · exact h.cons hc
  | cons_cons c d w ih₂ ih₁ =>
    by_cases hc : c = backslash
    · subst hc
      exact (cons_escape d).2 ih₂
    · exact (ih₁ d).cons hc

/-- Literal text is passed in step with a scan for the delimiter. -/
theorem literal {stop : Bool → Bytes → Bool} {lineStart : Bool}
    (hw : literal stop lineStart (w ++ (q ++ z)) = w.length) (h : Ends delim q) : Ends delim (w ++ q) := by
  induction w using List.twoStepInduction generalizing lineStart with
  | nil => exact h
  | singleton c =>
    refine h.cons ?_
    rintro rfl
    cases q with
    | nil => exact absurd rfl h.ne_nil
    | cons d q =>
      simp only [List.cons_append, List.nil_append, Scan.literal, List.length_singleton, beq_self_eq_true,
        if_true] at hw
      split_ifs at hw
      omega
  | cons_cons c d w ih₂ ih₁ =>
    simp only [List.cons_append, Scan.literal, List.length_cons] at hw
    split_ifs at hw with h₀ hb
    · rw [beq_iff_eq] at hb
      subst hb
      exact (cons_escape d).2 (@ih₂ (d == newline) (by omega))
    · exact (@ih₁ d (c == newline) (by simpa using hw)).cons (by simpa using hb)

end Ends

theorem all_take_countWhile (q : UInt8 → Bool) (s : Bytes) : ∀ c ∈ s.take (Bytes.countWhile q s), q c := by
  rw [Bytes.countWhile, ← List.prefix_iff_eq_take.1 (List.takeWhile_prefix q)]
  exact List.all_eq_true.1 List.all_takeWhile

theorem all_nameChars (s : Bytes) : ∀ c ∈ s.take (nameChars s), isSuffixByte c := by
  intro c hc
  simp [isSuffixByte, all_take_countWhile _ s c hc]

theorem isSuffixByte_of_isDigit {c : UInt8} (h : isDigit c) : isSuffixByte c := by
  simp [isSuffixByte, isNameChar, h]

theorem all_indexKey? {s : Bytes} {kind : Kind} {n : Nat} (h : indexKey? s = some (kind, n)) :
    ∀ c ∈ s.take (n + 1), isSuffixByte c := by
  obtain ⟨-, hlt, hclose⟩ := indexKey?_bounds h
  have hkey : ∀ c ∈ s.take n, isSuffixByte c := by
    cases s with
    | nil => simp
    | cons c t =>
      simp only [indexKey?] at h
      split_ifs at h with h₁ h₂ h₃ <;>
        simp only [Option.ite_none_right_eq_some, Option.some.injEq, Prod.mk.injEq] at h <;>
        obtain ⟨-, -, rfl⟩ := h
      · simp only [Bool.and_eq_true, beq_iff_eq] at h₁
        refine List.forall_mem_cons.2 ⟨by rw [h₁.1]; rfl, all_nameChars t⟩
      · refine List.forall_mem_cons.2 ⟨?_, fun d hd => isSuffixByte_of_isDigit (all_take_countWhile _ t d hd)⟩
        rcases Bool.or_eq_true_iff.1 h₂ with hc | hc
        · rw [beq_iff_eq.1 hc]
          rfl
        · exact isSuffixByte_of_isDigit hc
      · exact all_nameChars (c :: t)
  intro c hc
  rw [List.take_add_one, List.mem_append] at hc
  rcases hc with hc | hc
  · exact hkey c hc
  · rw [List.head?_drop] at hclose
    simp only [hclose, Option.toList_some, List.mem_singleton] at hc
    rw [hc]
    rfl

theorem all_access {op t : Bytes} (hop : ∀ c ∈ op, isSuffixByte c) (kind : Kind) :
    ∀ c ∈ (op ++ t).take (total [(kind, op.length), (.ident, nameChars t)]), isSuffixByte c := by
  intro c hc
  simp only [total_cons, total_nil, Nat.add_zero, List.take_length_add_append, List.mem_append] at hc
  exact hc.elim (hop c) (all_nameChars t c)

theorem all_simpleSuffix (s : Bytes) : ∀ c ∈ s.take (total (simpleSuffix s)), isSuffixByte c := by
  cases s with
  | nil => simp
  | cons b t =>
    rw [simpleSuffix]
    split_ifs with hb
    · split
      · next key hk =>
        intro c hc
        simp only [total_cons, total_nil, Nat.add_zero] at hc
        rw [Nat.add_comm 1, List.take_succ_cons, List.mem_cons] at hc
        rcases hc with rfl | hc
        · rw [beq_iff_eq.1 hb]
          rfl
        · exact all_indexKey? hk c hc
      · simp
    · split
      · next t ht =>
        rw [Bytes.after?_eq_some.1 ht]
        split_ifs
        · exact @all_access (Bytes.ofString "->") t (List.all_eq_true.1 rfl) _
        · simp
      · split
        · next t ht =>
          rw [Bytes.after?_eq_some.1 ht]
          split_ifs
          · exact @all_access (Bytes.ofString "?->") t (List.all_eq_true.1 rfl) _
          · simp
        · simp

theorem TextMove.of_closes {terminator : Kind} {closes : Bool → Bytes → Option Nat} {lineStart : Bool} {s : Bytes}
    {m : Move} (h : TextMove terminator closes lineStart s m) {n : Nat} (hn : closes lineStart s = some n) :
    m = ⟨[(terminator, n)], .leave⟩ := by
  cases h <;> simp_all

theorem TextMove.of_leave {terminator : Kind} {closes : Bool → Bytes → Option Nat} {lineStart : Bool} {s : Bytes}
    {m : Move} (h : TextMove terminator closes lineStart s m) (hm : m.effect = .leave) :
    ∃ n, closes lineStart s = some n ∧ m = ⟨[(terminator, n)], .leave⟩ := by
  cases h <;> simp_all

theorem TextMove.effect {terminator : Kind} {closes : Bool → Bytes → Option Nat} {lineStart : Bool} {s : Bytes}
    {m : Move} (h : TextMove terminator closes lineStart s m) :
    m.effect = .leave ∨ m.effect = .stay ∨ m.effect = .enterCode := by
  cases h <;> simp

theorem all_var (s : Bytes) : ∀ c ∈ (dollar :: s).take (total ((.var, nameChars s + 1) ::
    simpleSuffix (s.drop (nameChars s)))), isSuffixByte c := by
  intro c hc
  rw [total_cons, Nat.add_right_comm, List.take_succ_cons, List.take_add, List.mem_cons, List.mem_append] at hc
  rcases hc with rfl | hc | hc
  · rfl
  · exact all_nameChars s c hc
  · exact all_simpleSuffix _ c hc

end Scan

theorem Effect.mem_frames (e : Effect) (start stop : Nat) {f : Frame} {fs : List Frame} (hf : f ∈ fs)
    (hn : ∀ o d, f ≠ .nested o d) : e = .leave ∧ fs.head? = some f ∨ f ∈ e.frames start stop fs := by
  rcases fs with _ | ⟨g, fs⟩
  · simp at hf
  · cases e <;> rcases g with ⟨o, _ | d⟩ | _ | _ <;> simp_all [Effect.frames, eq_comm]

theorem Effect.mem_tail_frames (e : Effect) (start stop : Nat) {f : Frame} {fs : List Frame} (hf : f ∈ fs.tail) :
    f ∈ (e.frames start stop fs).tail ∨ e.frames start stop fs = fs.tail ∧ (e = .leave ∨ e = .closeBrace) := by
  rcases fs with _ | ⟨g, fs⟩
  · simp at hf
  · cases e <;> rcases g with ⟨o, _ | d⟩ | _ | _ <;> simp_all [Effect.frames]

namespace Cursor

/-- What the frames promise about `q`, the text still to be read until they are all closed, before `z`. -/
structure Pending (fs : List Frame) (lineStart : Bool) (q z : Bytes) : Prop where
  ne_nil : fs ≠ [] → q ≠ []
  innermost : ∀ o delim, fs.head? = some (.quoted o delim) → Scan.Ends delim q
  enclosing : ∀ o delim, .quoted o delim ∈ fs.tail → Scan.Ends delim q ∧ Scan.Ends delim (q.drop 1)
  newline : ∀ o label, .heredoc o label ∈ fs → lineStart = false → newline ∈ q
  label : ∀ o label, fs.head? = some (.heredoc o label) →
    ∀ n, closesHeredoc label lineStart (q ++ z) = some n → n ≤ q.length
  last : Layered true fs → ∀ x, q = [x] → x ≠ dollar ∧ x ≠ lbrace

/-- A step at the cursor that reads the bytes `w` by the move `m`, with `q` and `z` after them. -/
structure Over (c : Cursor) (m : Move) (w q z : Bytes) : Prop where
  layered : ∃ inText, Layered inText c.frames
  made : ∃ b s, b :: s = w ++ (q ++ z) ∧ c.move b s = .ok m
  length : w.length = Scan.total m.tokens

namespace Over

variable {c : Cursor} {m : Move} {w q z : Bytes} {start stop : Nat}

theorem ne_nil (h : Over c m w q z) : w ≠ [] := by
  obtain ⟨inText, hl⟩ := h.layered
  obtain ⟨b, s, hs, hm⟩ := h.made
  obtain ⟨hf, hne⟩ := move_fits hl hm
  rw [← List.length_pos_iff, h.length]
  exact hf.total_pos hne

theorem eq_take (h : Over c m w q z) : w = (w ++ (q ++ z)).take (Scan.total m.tokens) := by
  rw [← h.length, List.take_left]

theorem exists_innermost (h : Over c m w q z) {f : Frame} (hf : c.frames.head? = some f) :
    ∃ inText fs b s, c.frames = f :: fs ∧ Layered inText (f :: fs) ∧ b :: s = w ++ (q ++ z) ∧ c.move b s = .ok m := by
  obtain ⟨inText, hl⟩ := h.layered
  obtain ⟨b, s, hs, hm⟩ := h.made
  obtain ⟨fs, hfs⟩ := List.head?_eq_some_iff.mp hf
  exact ⟨inText, fs, b, s, hfs, hfs ▸ hl, hs, hm⟩

theorem text_quoted (h : Over c m w q z) {o : Nat} {delim : UInt8}
    (hf : c.frames.head? = some (.quoted o delim)) : (delim = doubleQuote ∨ delim = backtick) ∧
      Scan.TextMove .quote (closesQuoted delim) c.lineStart (w ++ (q ++ z)) m := by
  obtain ⟨_, fs, b, s, hfs, hl, hs, hm⟩ := h.exists_innermost hf
  rw [move, hfs] at hm
  cases hm
  cases hl with
  | quoted _ hdelim _ => exact ⟨hdelim, hs ▸ Scan.textMove_cases ..⟩

theorem text_heredoc (h : Over c m w q z) {o : Nat} {label : Bytes}
    (hf : c.frames.head? = some (.heredoc o label)) : isName label ∧
      Scan.TextMove .heredocEnd (closesHeredoc label) c.lineStart (w ++ (q ++ z)) m := by
  obtain ⟨_, fs, b, s, hfs, hl, hs, hm⟩ := h.exists_innermost hf
  rw [move, hfs] at hm
  cases hm
  cases hl with
  | heredoc _ hlabel _ => exact ⟨hlabel, hs ▸ Scan.textMove_cases ..⟩

variable (h : Over c m w q z)
  (hq : Pending (m.effect.frames start stop c.frames) (w.getLast? == some Ascii.newline) q z)

include hq

theorem newline_mem {o : Nat} {label : Bytes} (hf : .heredoc o label ∈ m.effect.frames start stop c.frames) :
    Ascii.newline ∈ w ++ q := by
  cases hline : w.getLast? == some Ascii.newline with
  | true => exact List.mem_append_left q (List.mem_of_getLast? (beq_iff_eq.1 hline))
  | false => exact List.mem_append_right w (hq.newline o label hf hline)

include h

theorem ends_innermost {o : Nat} {delim : UInt8} (hf : c.frames.head? = some (.quoted o delim)) :
    Scan.Ends delim (w ++ q) := by
  obtain ⟨hd, ht⟩ := h.text_quoted hf
  have hb : delim ≠ backslash := by rcases hd with rfl | rfl <;> decide
  have hskip {r : Bytes} (hr : w ++ (q ++ z) = r) (hall : ∀ c ∈ r.take (Scan.total m.tokens), c ≠ backslash)
      (he : Scan.Ends delim q) : Scan.Ends delim (w ++ q) :=
    he.skip fun c hc => hall c (by rwa [← hr, ← h.eq_take])
  generalize hr : w ++ (q ++ z) = r at ht
  cases ht with
  | close r n hn =>
    obtain ⟨b, w, rfl⟩ := List.exists_cons_of_ne_nil h.ne_nil
    have := (closesQuoted_bounds hn).2
    rw [← hr] at this
    cases (Option.some.inj this)
    exact .delim_cons hb
  | var d t _ _ =>
    refine hskip hr (fun c hc => ?_) (hq.innermost o delim hf)
    rintro rfl
    exact absurd (Scan.all_var (d :: t) _ hc) (by decide)
  | curly t _ =>
    refine hskip hr (by simp; decide) (hq.enclosing o delim ?_).1
    exact List.mem_of_mem_head? hf
  | dollarCurly t _ =>
    refine hskip hr (by simp; decide) (hq.enclosing o delim ?_).1
    exact List.mem_of_mem_head? hf
  | literal b d t _ _ =>
    have hlen := h.length
    simp only [Scan.total_cons, Scan.total_nil, Nat.add_zero, ← hr] at hlen
    exact (hq.innermost o delim hf).literal hlen.symm
  | last b _ =>
    have hlen := h.length
    have hall := congrArg List.length hr
    simp only [Scan.total_cons, Scan.total_nil, List.length_append, List.length_singleton] at hlen hall
    refine absurd (List.length_eq_zero_iff.1 (by omega)) (hq.ne_nil fun hnil => ?_)
    change c.frames = [] at hnil
    rw [hnil] at hf
    cases hf

theorem ends_enclosing {o : Nat} {delim : UInt8} (hf : .quoted o delim ∈ c.frames.tail) :
    Scan.Ends delim (w ++ q) ∧ Scan.Ends delim ((w ++ q).drop 1) := by
  obtain ⟨b, v, rfl⟩ := List.exists_cons_of_ne_nil h.ne_nil
  have hdeep (hmem : .quoted o delim ∈ (m.effect.frames start stop c.frames).tail) :
      Scan.Ends delim (b :: v ++ q) ∧ Scan.Ends delim ((b :: v ++ q).drop 1) := by
    obtain ⟨h₀, h₁⟩ := hq.enclosing o delim hmem
    exact ⟨h₀.through h₁, h₀.through h₁⟩
  rcases m.effect.mem_tail_frames start stop hf with hmem | ⟨hfs, he⟩
  · exact hdeep hmem
  -- the innermost frame ends here; when the string is the next one, a brace has just closed its interpolation
  obtain ⟨inText, hl⟩ := h.layered
  obtain ⟨b', s, hs, hm⟩ := h.made
  rw [List.cons_append, List.cons.injEq] at hs
  obtain ⟨rfl, rfl⟩ := hs
  rcases hcf : c.frames with _ | ⟨f, _ | ⟨g, fs⟩⟩
  · simp [hcf] at hf
  · simp [hcf] at hf
  · rw [hcf, List.tail_cons, List.mem_cons] at hf
    rcases hf with rfl | hf
    · rw [hcf] at hl
      cases hl with
      | nested opened depth ht =>
        rw [move_code (hcf ▸ .nested opened depth ht)] at hm
        have hlen := h.length
        cases Scan.codeMove_cases hm with
        | rbrace hb =>
          obtain rfl : v = [] := by simpa using hlen
          have hin := hq.innermost o delim (by rw [hfs, hcf]; rfl)
          subst hb
          exact ⟨hin.cons (by decide), hin⟩
        | _ => simp at he
      | quoted _ _ ht => cases ht
      | heredoc _ _ ht => cases ht
    · exact hdeep (by rw [hfs, hcf]; exact hf)

theorem last (hl : Layered true c.frames) {x : UInt8} (hx : w ++ q = [x]) : x ≠ dollar ∧ x ≠ lbrace := by
  obtain ⟨hw, rfl⟩ : w = [x] ∧ q = [] := by
    obtain ⟨b, v, rfl⟩ := List.exists_cons_of_ne_nil h.ne_nil
    simpa [and_assoc] using hx
  have hnil : m.effect.frames start stop c.frames = [] := by
    by_contra hne
    exact hq.ne_nil hne rfl
  have hleave (hne : c.frames ≠ []) (he : m.effect = .leave ∨ m.effect = .stay ∨ m.effect = .enterCode) :
      m.effect = .leave := by
    rcases he with he | he | he
    · exact he
    · rw [he] at hnil
      exact absurd hnil hne
    · rw [he] at hnil
      cases hnil
  generalize hfs : c.frames = fs at hl
  cases hl with
  | quoted o hd _ =>
    obtain ⟨-, ht⟩ := h.text_quoted (by rw [hfs]; rfl)
    obtain ⟨n, hn, -⟩ := ht.of_leave (hleave (by simp [hfs]) ht.effect)
    have hx := (closesQuoted_bounds hn).2
    rw [hw] at hx
    cases (Option.some.inj hx)
    rcases hd with rfl | rfl <;> decide
  | @heredoc o label _ hname _ =>
    obtain ⟨-, ht⟩ := h.text_heredoc (by rw [hfs]; rfl)
    obtain ⟨n, hn, hm⟩ := ht.of_leave (hleave (by simp [hfs]) ht.effect)
    obtain ⟨blanks, rest, hs, hb, -, hlen⟩ := Scan.closingLabel?_eq_some (closesHeredoc_eq_some.1 hn).2
    have htotal := h.length
    rw [hm, hw] at htotal
    obtain ⟨y, hy⟩ : ∃ y, blanks ++ label = [y] := by
      rw [← List.length_eq_one_iff, List.length_append, ← hlen]
      simpa using htotal.symm
    obtain rfl : x = y := by
      rw [hy, hw] at hs
      exact (List.cons.inj hs).1
    have hclass := Scan.forall_mem_closing hb hname x (by simp [hy])
    constructor <;> rintro rfl <;> exact absurd hclass (by decide)

theorem pending : Pending c.frames c.lineStart (w ++ q) z where
  ne_nil _ := by simp [h.ne_nil]
  innermost _ _ hf := h.ends_innermost hq hf
  enclosing _ _ hf := h.ends_enclosing hq hf
  newline o label hf hline := by
    rcases m.effect.mem_frames start stop hf (by simp) with ⟨he, hhead⟩ | hmem
    · obtain ⟨-, ht⟩ := h.text_heredoc hhead
      obtain ⟨n, hn, -⟩ := ht.of_leave he
      simp [hline, closesHeredoc] at hn
    · exact newline_mem hq hmem
  label o label hf n hn := by
    obtain ⟨-, ht⟩ := h.text_heredoc hf
    have hlen := h.length
    rw [List.append_assoc] at hn
    rw [ht.of_closes hn] at hlen
    simp only [Scan.total_cons, Scan.total_nil] at hlen
    rw [List.length_append]
    omega
  last hl _ hx := h.last hq hl hx

end Over

theorem Reads.over {c e : Cursor} {inText : Bool} {b : UInt8} {s : Bytes} {m : Move} {us : List Token}
    (hl : Layered inText c.frames) (hr : c.rest = b :: s) (hm : c.move b s = .ok m)
    (h : Reads (c.perform m).2 us e) :
    ∃ w q, b :: s = w ++ (q ++ e.rest) ∧ Over c m w q e.rest ∧ (c.perform m).2.rest = q ++ e.rest ∧
      (c.perform m).2.frames = m.effect.frames c.pos (c.pos + Scan.total m.tokens) c.frames ∧
      (c.perform m).2.lineStart = (w.getLast? == some newline) := by
  obtain ⟨hf, hne⟩ := move_fits hl hm
  rw [← hr] at hf
  obtain ⟨inText', hl'⟩ := hl.after hm c.pos (c.pos + Scan.total m.tokens)
  have hnext := perform_snd hf hne
  obtain ⟨⟨q, hq, -⟩, -⟩ := h.covers (by rw [hnext]; exact hl')
  have hrest : b :: s = c.rest.take (Scan.total m.tokens) ++ (q ++ e.rest) := by
    rw [← hq, hnext, ← hr]
    exact (List.take_append_drop ..).symm
  refine ⟨c.rest.take (Scan.total m.tokens), q, hrest, ⟨⟨inText, hl⟩, ⟨b, s, hrest, hm⟩, ?_⟩, hq, ?_, ?_⟩
  · simpa using hf.total_le
  · rw [hnext]
    rfl
  · rw [hnext]
    rfl

/-- A reading that ends in top-level code keeps the promises of the frames it starts with. -/
theorem Reads.pending {c d : Cursor} {ts : List Token} (h : Reads c ts d) {inText : Bool}
    (hl : Layered inText c.frames) (hd : d.frames = []) {p : Bytes} (hp : c.rest = p ++ d.rest) :
    Pending c.frames c.lineStart p d.rest := by
  induction h generalizing inText p with
  | refl c =>
    obtain rfl : p = [] := by simpa using hp
    rw [hd]
    exact ⟨by simp, by simp, by simp, by simp, by simp, by simp⟩
  | @step c e b s m us hr hm hus ih =>
    obtain ⟨w, q, hs, hover, hrest, hframes, hline⟩ := hus.over hl hr hm
    obtain ⟨inText', hl'⟩ := hl.after hm c.pos (c.pos + Scan.total m.tokens)
    rw [hr, hs, ← List.append_assoc, List.append_cancel_right_eq] at hp
    have hq := ih (by rw [hframes]; exact hl') hd hrest
    rw [hframes, hline] at hq
    exact hp ▸ hover.pending hq

end Cursor

end Stencil.Token
