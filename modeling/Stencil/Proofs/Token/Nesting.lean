import Stencil.Proofs.Token.Closing
import Stencil.Proofs.Token.Grouping

/-! Brackets and strings nest properly: a bracket opened in the code of an interpolation is closed there, so both
brackets of a pair lie in a string or neither does. The open brackets are kept in step with the frames of the
lexer. -/

namespace Stencil.Token

open Ascii

/-- The open brackets, innermost first, that belong to the frames: between an interpolation and its opening lie the
brackets opened in it, as many braces among them as the frame counts. -/
inductive Opened : List Frame → List Token → Prop where
  | top {st : List Token} : (∀ t ∈ st, t.inString = false) → Opened [] st
  | quoted (opened : Nat) (delim : UInt8) {fs : List Frame} {st : List Token} : Opened fs st →
      Opened (.quoted opened delim :: fs) st
  | heredoc (start : Nat) (label : Bytes) {fs : List Frame} {st : List Token} : Opened fs st →
      Opened (.heredoc start label :: fs) st
  | nested (opened : Nat) {fs : List Frame} {inner st : List Token} {o : Token} :
      (∀ t ∈ inner, t.inString ∧ t.kind ≠ .curlyOpen ∧ t.kind ≠ .dollarCurlyOpen) →
      o.inString → o.kind = .curlyOpen ∨ o.kind = .dollarCurlyOpen → Opened fs st →
      Opened (.nested opened (inner.countP (·.kind = .lbrace)) :: fs) (inner ++ o :: st)

namespace Opened

variable {fs : List Frame} {st : List Token} {o t : Token}

theorem tail (h : Opened fs st) (hl : Cursor.Layered true fs) : Opened fs.tail st := by
  cases hl <;> cases h <;> assumption

/-- A bracket is opened in front of the others; the frame counts it if it is a brace. -/
theorem cons (h : Opened fs st) (hl : Cursor.Layered false fs) (ht : t.inString = !fs.isEmpty)
    (hk : t.kind ≠ .curlyOpen ∧ t.kind ≠ .dollarCurlyOpen) (start stop : Nat) :
    Opened (if t.kind = .lbrace then Effect.openBrace.frames start stop fs else fs) (t :: st) := by
  cases hl with
  | top =>
    cases h with
    | top hst => simpa [Effect.frames] using Opened.top (List.forall_mem_cons.2 ⟨ht, hst⟩)
  | nested opened depth _ =>
    cases h with
    | @nested _ _ inner st o hin ho hok h =>
      have hnested := Opened.nested opened (List.forall_mem_cons.2 ⟨⟨ht, hk⟩, hin⟩) ho hok h
      split
      next hbrace => simpa [hbrace, Effect.frames] using hnested
      next hbrace => simpa [hbrace] using hnested

/-- The innermost bracket is closed; if it is a curly one, the frame that counts it takes notice, or ends with it. -/
theorem uncons (h : Opened fs (o :: st)) (hl : Cursor.Layered false fs) (start stop : Nat) :
    o.inString = (!fs.isEmpty) ∧
      Opened (if o.kind.opens = some .curly then Effect.closeBrace.frames start stop fs else fs) st := by
  generalize hst : o :: st = st' at h
  cases hl with
  | top =>
    subst hst
    cases h with
    | top hst =>
      rw [List.forall_mem_cons] at hst
      exact ⟨hst.1, by simpa [Effect.frames] using Opened.top hst.2⟩
  | nested opened depth _ =>
    cases h with
    | @nested _ _ inner st' o' hin ho hok h =>
      rcases inner with _ | ⟨x, inner⟩
      · obtain ⟨rfl, rfl⟩ : o = o' ∧ st = st' := by simpa using hst
        rw [if_pos (Group.opens_eq_curly.2 (.inr hok))]
        exact ⟨ho, h⟩
      · obtain ⟨rfl, rfl⟩ : o = x ∧ st = inner ++ o' :: st' := by simpa using hst
        rw [List.forall_mem_cons] at hin
        -- an inner bracket of curly kind is a brace that the frame counts
        have hbrace : o.kind.opens = some .curly ↔ o.kind = .lbrace :=
          Group.opens_eq_curly.trans (or_iff_left (not_or.2 hin.1.2))
        have hnested := Opened.nested opened hin.2 ho hok h
        refine ⟨hin.1.1, ?_⟩
        split
        next hcurly => simpa [hbrace.1 hcurly, Effect.frames] using hnested
        next hcurly => simpa [mt hbrace.2 hcurly] using hnested

end Opened

namespace Scan

theorem operator_mem (s : Bytes) : (operator s).1 ∈ .operator :: operators.map (·.2) := by
  rw [operator]
  split
  · next text kind hf => exact List.mem_cons_of_mem _ (List.mem_map_of_mem (List.mem_of_find?_eq_some hf))
  · exact List.mem_cons_self

theorem operator_kind (s : Bytes) : (operator s).1.opens ≠ some .curly ∧ (operator s).1.closes ≠ some .curly := by
  have hall : ∀ k ∈ .operator :: operators.map (·.2), k.opens ≠ some .curly ∧ k.closes ≠ some .curly := by decide
  exact hall _ (operator_mem s)

theorem operator_ne (s : Bytes) : (operator s).1 ≠ .var ∧ (operator s).1 ≠ .string := by
  have hall : ∀ k ∈ .operator :: operators.map (·.2), k ≠ .var ∧ k ≠ .string := by decide
  exact hall _ (operator_mem s)

theorem indexKey?_kind {s : Bytes} {key : Kind × Nat} (h : indexKey? s = some key) :
    key.1 ∈ [Kind.var, .number, .ident] := by
  cases s with
  | nil => cases h
  | cons c t =>
    simp only [indexKey?] at h
    split_ifs at h <;> simp only [Option.ite_none_right_eq_some, Option.some.injEq] at h <;> simp [← h.2]

theorem simpleSuffix_cases (s : Bytes) : simpleSuffix s = [] ∨
    (∃ key : Kind × Nat, key.1 ∈ [Kind.var, .number, .ident] ∧ simpleSuffix s = [(.lbracket, 1), key, (.rbracket, 1)]) ∨
    ∃ op n k, (op = .objectOp ∨ op = .nullsafeOp) ∧ simpleSuffix s = [(op, n), (.ident, k)] := by
  cases s with
  | nil => exact .inl rfl
  | cons c t =>
    rw [simpleSuffix]
    split_ifs
    · split
      · next key hk => exact .inr (.inl ⟨key, indexKey?_kind hk, rfl⟩)
      · exact .inl rfl
    · split
      · split_ifs
        · exact .inr (.inr ⟨_, _, _, .inl rfl, rfl⟩)
        · exact .inl rfl
      · split
        · split_ifs
          · exact .inr (.inr ⟨_, _, _, .inr rfl, rfl⟩)
          · exact .inl rfl
        · exact .inl rfl

end Scan

/-- After the token `t`, which is read with the brackets `st` open, the open brackets belong to `fs`. -/
structure Keeps (fs : List Frame) (t : Token) (st : List Token) : Prop where
  opens : t.kind.opens.isSome → Opened fs (t :: st)
  stays : t.kind.opens = none → t.kind.closes = none → Opened fs st
  closes : ∀ b o st', t.kind.closes = some b → o.kind.opens = some b → st = o :: st' →
    o.inString = t.inString ∧ Opened fs st'

theorem Keeps.leaf {fs : List Frame} {t : Token} {st : List Token} (ho : t.kind.opens = none)
    (hc : t.kind.closes = none) (h : Opened fs st) : Keeps fs t st :=
  ⟨by simp [ho], fun _ _ => h, by simp [hc]⟩

theorem Keeps.interpolation {fs : List Frame} {t : Token} {st : List Token} (ht : t.inString)
    (hk : t.kind = .curlyOpen ∨ t.kind = .dollarCurlyOpen) (h : Opened fs st) (stop : Nat) :
    Keeps (.nested stop 0 :: fs) t st := by
  have hkind : t.kind.opens = some .curly ∧ t.kind.closes = none := by
    rcases hk with hk | hk <;> rw [hk] <;> exact ⟨rfl, rfl⟩
  exact ⟨fun _ => @Opened.nested stop fs [] st t (by simp) ht hk h, by simp [hkind], by simp [hkind]⟩

theorem Scan.CodeMove.tokens_eq {b : UInt8} {s : Bytes} {m : Move} (h : Scan.CodeMove b s m) :
    ∃ kind n, m.tokens = [(kind, n)] := by
  cases h <;> exact ⟨_, _, rfl⟩

theorem Scan.CodeMove.eq_dollar {b : UInt8} {s : Bytes} {m : Move} (h : Scan.CodeMove b s m) {n : Nat}
    (hm : m.tokens = [(.var, n)]) : b = dollar := by
  cases h with
  | var hb _ => exact hb
  | operator => exact absurd (congrArg Prod.fst (List.cons.inj hm).1) (Scan.operator_ne (b :: s)).1
  | _ => cases hm

theorem Scan.CodeMove.effect_ne {b : UInt8} {s : Bytes} {m : Move} (h : Scan.CodeMove b s m) :
    m.effect ≠ .leave := by
  cases h <;> simp

theorem Scan.CodeMove.perform {b : UInt8} {s : Bytes} {m : Move} (h : Scan.CodeMove b s m) (c : Cursor) :
    ∃ kind n, m.tokens = [(kind, n)] ∧ (c.perform m).1 = [c.token kind n] := by
  obtain ⟨kind, n, hkn⟩ := h.tokens_eq
  refine ⟨kind, n, hkn, ?_⟩
  rw [Cursor.perform, hkn, show c.around m = c.frames from if_neg h.effect_ne]
  rfl

theorem Scan.CodeMove.keeps {b : UInt8} {s : Bytes} {m : Move} (hm : Scan.CodeMove b s m) {fs : List Frame}
    (hl : Cursor.Layered false fs) {st : List Token} (h : Opened fs st) {t : Token} {n : Nat}
    (ht : t.inString = !fs.isEmpty) (hk : m.tokens = [(t.kind, n)]) (start stop : Nat) :
    Keeps (m.effect.frames start stop fs) t st := by
  obtain ⟨kind, text, offset, inString⟩ := t
  cases hm with
  | lbrace =>
    cases hk
    have hopened := h.cons hl ht ⟨by simp, by simp⟩ start stop
    rw [if_pos rfl] at hopened
    exact ⟨fun _ => hopened, by simp [Kind.opens], by simp [Kind.closes]⟩
  | rbrace =>
    cases hk
    refine ⟨by simp [Kind.opens], by simp [Kind.closes], fun b o st' hb ho hst => ?_⟩
    subst hst
    obtain rfl : Bracket.curly = b := Option.some.inj hb
    obtain ⟨hin, h⟩ := h.uncons hl start stop
    rw [if_pos ho] at h
    exact ⟨hin.trans ht.symm, h⟩
  | operator =>
    obtain ⟨hopens, hcloses⟩ := Scan.operator_kind (b :: s)
    have hkind : (Scan.operator (b :: s)).1 = kind := congrArg Prod.fst (List.cons.inj hk).1
    rw [hkind] at hopens hcloses
    obtain ⟨hbrace, hcurly⟩ := not_or.1 (mt Group.opens_eq_curly.2 hopens)
    refine ⟨fun _ => ?_, fun _ _ => h, fun b o st' hb ho hst => ?_⟩
    · have hopened := h.cons hl ht (not_or.1 hcurly) start stop
      rwa [if_neg hbrace] at hopened
    · subst hst
      have hnot : o.kind.opens ≠ some .curly := fun hc => hcloses (hb.trans (ho.symm.trans hc))
      obtain ⟨hin, h⟩ := h.uncons hl start stop
      rw [if_neg hnot] at h
      exact ⟨hin.trans ht.symm, h⟩
  | quote n _ _ =>
    cases hk
    exact .leaf rfl rfl (.quoted _ _ h)
  | heredoc header _ =>
    cases hk
    exact .leaf rfl rfl (.heredoc _ _ h)
  | _ =>
    cases hk
    exact .leaf rfl rfl h

/-- The groups built so far are coherent, and the open brackets belong to the frames. -/
structure InStep (fs : List Frame) (stack : Group.Stack) (done : List Group) : Prop where
  opened : Opened fs (stack.map (·.1))
  done : ∀ g ∈ done, g.Coherent
  before : ∀ e ∈ stack, ∀ g ∈ e.2, g.Coherent

theorem InStep.next {fs fs' : List Frame} {stack : Group.Stack} {done : List Group} (h : InStep fs stack done)
    {t : Token} {us : List Token} {gs : List Group} (hb : Group.build stack done (t :: us) = .ok gs)
    (ht : Keeps fs' t (stack.map (·.1))) :
    ∃ stack' done', InStep fs' stack' done' ∧ Group.build stack' done' us = .ok gs := by
  rcases Group.build_cons hb with ⟨ho, hb'⟩ | ⟨ho, hc, hb'⟩ | ⟨b, o, before, stack', hc, ho, rfl, hb'⟩
  · refine ⟨(t, done) :: stack, [], ⟨ht.opens ho, by simp, ?_⟩, hb'⟩
    exact List.forall_mem_cons.2 ⟨h.done, h.before⟩
  · refine ⟨_, _, ⟨ht.stays ho hc, ?_, h.before⟩, hb'⟩
    exact List.forall_mem_cons.2 ⟨.leaf ho hc, h.done⟩
  · obtain ⟨hin, hop⟩ := ht.closes b o _ hc ho rfl
    have hbefore := List.forall_mem_cons.1 h.before
    refine ⟨_, _, ⟨hop, ?_, hbefore.2⟩, hb'⟩
    exact List.forall_mem_cons.2 ⟨.pair ho hc hin fun g hg => h.done g (List.mem_reverse.1 hg), hbefore.1⟩

/-- An index or a property access inside a string is read whole. -/
theorem InStep.suffix {c : Cursor} {stack : Group.Stack} {done : List Group} (h : InStep c.frames stack done)
    (s : Bytes) {us : List Token} {gs : List Group}
    (hb : Group.build stack done ((c.emit (Scan.simpleSuffix s)).1 ++ us) = .ok gs) :
    ∃ stack' done', InStep c.frames stack' done' ∧ Group.build stack' done' us = .ok gs := by
  rcases Scan.simpleSuffix_cases s with he | ⟨⟨k, n⟩, hk, he⟩ | ⟨op, n, k, hop, he⟩ <;> rw [he] at hb
  · exact ⟨stack, done, h, hb⟩
  · have hkey : ∀ k ∈ [Kind.var, .number, .ident], k.opens = none ∧ k.closes = none := by decide
    obtain ⟨ho, hc⟩ := hkey k hk
    refine ⟨stack, .pair (c.token .lbracket 1) [.leaf ((c.advance 1).token k n)]
      (((c.advance 1).advance n).token .rbracket 1) :: done, ⟨h.opened, ?_, h.before⟩, ?_⟩
    · refine List.forall_mem_cons.2 ⟨.pair rfl rfl rfl ?_, h.done⟩
      simpa using Group.Coherent.leaf ho hc
    · change Group.build stack done (c.token .lbracket 1 :: (c.advance 1).token k n ::
        ((c.advance 1).advance n).token .rbracket 1 :: us) = _ at hb
      rwa [Group.build_open rfl, Group.build_leaf ho hc, Group.build_close rfl rfl] at hb
  · have hleaf : op.opens = none ∧ op.closes = none := by rcases hop with rfl | rfl <;> exact ⟨rfl, rfl⟩
    obtain ⟨stack', done', h', hb'⟩ := h.next hb (.leaf hleaf.1 hleaf.2 h.opened)
    exact h'.next hb' (.leaf rfl rfl h'.opened)

namespace Cursor

theorem perform_inStep {c : Cursor} {inText : Bool} {b : UInt8} {s : Bytes} {m : Move}
    (hl : Layered inText c.frames) (hm : c.move b s = .ok m) {stack : Group.Stack} {done : List Group}
    (h : InStep c.frames stack done) (start stop : Nat) {us : List Token} {gs : List Group}
    (hb : Group.build stack done ((c.perform m).1 ++ us) = .ok gs) :
    ∃ stack' done', InStep (m.effect.frames start stop c.frames) stack' done' ∧
      Group.build stack' done' us = .ok gs := by
  cases inText with
  | false =>
    rw [move_code hl] at hm
    have hcode := Scan.codeMove_cases hm
    obtain ⟨k, n, hk⟩ := hcode.tokens_eq
    have haround : c.around m = c.frames := if_neg hcode.effect_ne
    rw [perform, hk, haround] at hb
    exact h.next hb (hcode.keeps hl h.opened rfl hk start stop)
  | true =>
    obtain ⟨terminator, closes, hterm, ht⟩ := move_text hl hm
    have hin : (!c.frames.isEmpty) = true := by
      generalize c.frames = fs at hl
      cases hl <;> rfl
    cases ht with
    | close _ n _ =>
      have hleaf : terminator.opens = none ∧ terminator.closes = none := by
        rcases hterm with rfl | rfl <;> exact ⟨rfl, rfl⟩
      exact h.next hb (.leaf hleaf.1 hleaf.2 (h.opened.tail hl))
    | var d t _ _ =>
      obtain ⟨stack', done', h', hb'⟩ := h.next hb (.leaf rfl rfl h.opened)
      change Group.build _ _ (((c.advance (Scan.nameChars (d :: t) + 1)).emit _).1 ++ us) = _ at hb'
      exact InStep.suffix (c := c.advance (Scan.nameChars (d :: t) + 1)) h' _ hb'
    | curly t _ => exact h.next hb (.interpolation hin (.inl rfl) h.opened stop)
    | dollarCurly t _ => exact h.next hb (.interpolation hin (.inr rfl) h.opened stop)
    | literal b d t _ _ => exact h.next hb (.leaf rfl rfl h.opened)
    | last b _ => exact h.next hb (.leaf rfl rfl h.opened)

theorem Reads.coherent {c d : Cursor} {ts : List Token} (h : Reads c ts d) {inText : Bool}
    (hl : Layered inText c.frames) {stack : Group.Stack} {done gs : List Group} (hs : InStep c.frames stack done)
    (hb : Group.build stack done ts = .ok gs) : ∀ g ∈ gs, g.Coherent := by
  induction h generalizing inText stack done with
  | refl c =>
    cases stack with
    | nil =>
      cases hb
      exact fun g hg => hs.done g (List.mem_reverse.1 hg)
    | cons e stack => cases hb
  | @step c e b s m us hr hm hus ih =>
    obtain ⟨w, q, -, -, -, hframes, -⟩ := hus.over hl hr hm
    obtain ⟨inText', hl'⟩ := hl.after hm c.pos (c.pos + Scan.total m.tokens)
    rw [← hframes] at hl'
    obtain ⟨stack', done', hs', hb'⟩ := perform_inStep hl hm hs _ _ hb
    rw [← hframes] at hs'
    exact ih hl' hs' hb'

theorem emit_inString (c : Cursor) (ks : List (Kind × Nat)) :
    ∀ t ∈ (c.emit ks).1, t.inString = !c.frames.isEmpty := by
  induction ks generalizing c with
  | nil => exact fun t ht => by cases ht
  | cons k ks ih => exact List.forall_mem_cons.2 ⟨rfl, ih (c.advance k.2)⟩

/-- A token outside of strings that does not delimit one is the only token of its step, and the step begins and ends
in top-level code. -/
theorem perform_top {c : Cursor} {inText : Bool} {b : UInt8} {s : Bytes} {m : Move}
    (hl : Layered inText c.frames) (hm : c.move b s = .ok m) {t : Token} (hmem : t ∈ (c.perform m).1)
    (ht : t.inString = false) (hk : t.kind ≠ .quote ∧ t.kind ≠ .heredocStart ∧ t.kind ≠ .heredocEnd)
    (start stop : Nat) :
    c.frames = [] ∧ (c.perform m).1 = [t] ∧ m.effect.frames start stop c.frames = [] := by
  cases inText with
  | false =>
    rw [move_code hl] at hm
    have hcode := Scan.codeMove_cases hm
    obtain ⟨kind, n, hkn, hone⟩ := hcode.perform c
    rw [hone, List.mem_singleton] at hmem
    subst hmem
    have hframes : c.frames = [] := by simpa [token] using ht
    refine ⟨hframes, hone, ?_⟩
    rw [hframes]
    cases hcode with
    | quote => cases hkn; exact absurd rfl hk.1
    | heredoc => cases hkn; exact absurd rfl hk.2.1
    | _ => rfl
  | true =>
    exfalso
    obtain ⟨terminator, closes, hterm, htext⟩ := move_text hl hm
    have hin := emit_inString _ _ t hmem
    by_cases he : m.effect = .leave
    · obtain ⟨n, -, rfl⟩ := htext.of_leave he
      have hkind : t.kind = terminator := congrArg Token.kind (List.mem_singleton.1 hmem)
      rcases hterm with rfl | rfl
      · exact hk.1 hkind
      · exact hk.2.2 hkind
    · rw [show c.around m = c.frames from if_neg he] at hin
      have hnil : c.frames = [] := by simpa [withFrames, ht] using hin
      rw [hnil] at hl
      cases hl

theorem Reads.split {c d : Cursor} {xs ys : List Token} {t : Token} (h : Reads c (xs ++ t :: ys) d) {inText : Bool}
    (hl : Layered inText c.frames) (ht : t.inString = false)
    (hk : t.kind ≠ .quote ∧ t.kind ≠ .heredocStart ∧ t.kind ≠ .heredocEnd) :
    ∃ e e', Reads c xs e ∧ e.frames = [] ∧ Reads e [t] e' ∧ e'.frames = [] ∧ Reads e' ys d := by
  generalize hts : xs ++ t :: ys = ts at h
  induction h generalizing inText xs with
  | refl => simp at hts
  | @step c e b s m us hr hm hus ih =>
    obtain ⟨w, q, -, -, -, hframes, -⟩ := hus.over hl hr hm
    obtain ⟨inText', hl'⟩ := hl.after hm c.pos (c.pos + Scan.total m.tokens)
    rw [← hframes] at hl'
    have hlater {zs : List Token} (hxs : xs = (c.perform m).1 ++ zs) (hzs : zs ++ t :: ys = us) :
        ∃ e₁ e₂, Reads c xs e₁ ∧ e₁.frames = [] ∧ Reads e₁ [t] e₂ ∧ e₂.frames = [] ∧ Reads e₂ ys e := by
      obtain ⟨e₁, e₂, h₁, hf₁, h₂, hf₂, h₃⟩ := ih hl' hzs
      exact ⟨e₁, e₂, hxs ▸ .step hr hm h₁, hf₁, h₂, hf₂, h₃⟩
    rcases List.append_eq_append_iff.1 hts with ⟨_ | ⟨t', zs⟩, hxs, hus'⟩ | ⟨zs, hxs, hus'⟩
    · exact @hlater [] (by simpa using hxs.symm) hus'
    · -- the token belongs to this step
      obtain ⟨rfl, rfl⟩ : t = t' ∧ ys = zs ++ us := by simpa using hus'
      obtain ⟨hf, hone, hf'⟩ := perform_top hl hm (by simp [hxs]) ht hk c.pos (c.pos + Scan.total m.tokens)
      have hnil : xs = [] ∧ zs = [] := by
        rw [hone] at hxs
        have := congrArg List.length hxs
        simp only [List.length_append, List.length_cons, List.length_nil] at this
        exact ⟨List.length_eq_zero_iff.1 (by omega), List.length_eq_zero_iff.1 (by omega)⟩
      obtain ⟨rfl, rfl⟩ := hnil
      refine ⟨c, (c.perform m).2, .refl c, hf, ?_, hframes.trans hf', hus⟩
      simpa [hone] using Reads.step hr hm (.refl _)
    · exact hlater hxs hus'.symm

end Cursor

/-- In the groups of a source both brackets of a pair lie in a string or neither does. -/
theorem ofTokens_coherent {src : Bytes} {ts : List Token} {gs : List Group} (hts : tokenize src = .ok ts)
    (hgs : Group.ofTokens ts = .ok gs) : ∀ g ∈ gs, g.Coherent := by
  obtain ⟨d, hd, -, -⟩ := Cursor.tokenize_eq_ok.1 hts
  exact hd.coherent .top ⟨.top (by simp), by simp, by simp⟩ hgs

end Stencil.Token
