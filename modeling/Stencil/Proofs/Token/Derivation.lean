import Stencil.Proofs.Token.Nesting

/-! The tokens of a source as a language. Code is a sequence of items, an interpolated string is an item with text and
code between its delimiters, and the code of an interpolation has its braces in pairs. What may follow inside the open
constructs of the lexer is what closes them one after another; every step of the lexer puts its tokens in front of
that. -/

namespace Stencil.Token

namespace Grammar

def isItem (k : Kind) : Bool :=
  k ∉ [.quote, .heredocStart, .heredocEnd, .encapsed, .curlyOpen, .dollarCurlyOpen, .lbrace, .rbrace]

/-- What may stand behind a variable in a string: an index or a property access. -/
inductive Suffix : List Token → Prop where
  | none : Suffix []
  | index {o key c : Token} : o.kind = .lbracket → key.kind ∈ [Kind.var, .number, .ident] → c.kind = .rbracket →
      Suffix [o, key, c]
  | property {op name : Token} : op.kind = .objectOp ∨ op.kind = .nullsafeOp → name.kind = .ident → Suffix [op, name]

mutual

/-- An item of code other than a brace. Its own tokens lie in a string or not as the code does, and what stands between
its delimiters lies in a string. -/
inductive Item : (inside : Bool) → List Token → Prop where
  | single {inside : Bool} {t : Token} : isItem t.kind → t.inString = inside → Item inside [t]
  | quoted {inside : Bool} {o c : Token} {parts : List Token} : o.kind = .quote → c.kind = .quote → o.text = c.text →
      o.inString = inside → c.inString = inside → Parts parts → Item inside (o :: (parts ++ [c]))
  | heredoc {inside : Bool} {o c : Token} {parts : List Token} : o.kind = .heredocStart → c.kind = .heredocEnd →
      o.inString = inside → c.inString = inside → Parts parts → Item inside (o :: (parts ++ [c]))

/-- The content of an interpolated string. -/
inductive Parts : List Token → Prop where
  | nil : Parts []
  | cons {p ps : List Token} : Part p → Parts ps → Parts (p ++ ps)

/-- Literal text, a variable, or code in braces. -/
inductive Part : List Token → Prop where
  | literal {t : Token} : t.kind = .encapsed → t.inString → Part [t]
  | var {t : Token} {suffix : List Token} : t.kind = .var → Suffix suffix → (∀ u ∈ t :: suffix, u.inString) →
      Part (t :: suffix)
  | code {o c : Token} {body : List Token} : o.kind = .curlyOpen ∨ o.kind = .dollarCurlyOpen → c.kind = .rbrace →
      o.inString → c.inString → Nested body → Part (o :: (body ++ [c]))

/-- The code of an interpolation: its braces are balanced. -/
inductive Nested : List Token → Prop where
  | nil : Nested []
  | item {ts us : List Token} : Item true ts → Nested us → Nested (ts ++ us)
  | braces {o c : Token} {body us : List Token} : o.kind = .lbrace → c.kind = .rbrace → o.inString → c.inString →
      Nested body → Nested us → Nested (o :: (body ++ c :: us))

end

/-- Code outside of strings; nothing asks for its braces to be balanced. -/
inductive Code : List Token → Prop where
  | nil : Code []
  | item {ts us : List Token} : Item false ts → Code us → Code (ts ++ us)
  | brace {t : Token} {us : List Token} : t.kind = .lbrace ∨ t.kind = .rbrace → t.inString = false → Code us →
      Code (t :: us)

/-- Something of `P`, closed by a token of `Q`, before something of `R`. -/
def Closed (P : List Token → Prop) (Q : Token → Prop) (R : List Token → Prop) (ts : List Token) : Prop :=
  ∃ before c after, ts = before ++ c :: after ∧ P before ∧ Q c ∧ R after

def IsBrace (c : Token) : Prop := c.kind = .rbrace ∧ c.inString

/-- The rest of the code of an interpolation in which `depth` braces are open, before `R`. -/
def Unwinds (R : List Token → Prop) : (depth : Nat) → List Token → Prop
  | 0 => Closed Nested IsBrace R
  | depth + 1 => Closed Nested IsBrace (Unwinds R depth)

/-- The rest of a source inside the frames. -/
def Rest : List Frame → List Token → Prop
  | [] => Code
  | .nested _ depth :: fs => Unwinds (Rest fs) depth
  | .quoted _ delim :: fs =>
    Closed Parts (fun c => c.kind = .quote ∧ c.text = [delim] ∧ c.inString = !fs.isEmpty) (Rest fs)
  | .heredoc _ _ :: fs => Closed Parts (fun c => c.kind = .heredocEnd ∧ c.inString = !fs.isEmpty) (Rest fs)

theorem Closed.mono {P : List Token → Prop} {Q : Token → Prop} {R : List Token → Prop} {ts us : List Token}
    (h : Closed P Q R us) (hP : ∀ before, P before → P (ts ++ before)) : Closed P Q R (ts ++ us) := by
  obtain ⟨before, c, after, rfl, hbefore, hc, hafter⟩ := h
  exact ⟨ts ++ before, c, after, (List.append_assoc ..).symm, hP before hbefore, hc, hafter⟩

theorem Unwinds.item {R : List Token → Prop} {depth : Nat} {ts us : List Token} (hts : Item true ts)
    (h : Unwinds R depth us) : Unwinds R depth (ts ++ us) := by
  cases depth with
  | zero => exact Closed.mono h fun _ => .item hts
  | succ depth => exact Closed.mono h fun _ => .item hts

theorem Unwinds.brace {R : List Token → Prop} {depth : Nat} {t : Token} {us : List Token} (ht : t.kind = .lbrace)
    (hin : t.inString) (h : Unwinds R (depth + 1) us) : Unwinds R depth (t :: us) := by
  obtain ⟨body, c, after, rfl, hbody, ⟨hc, hcin⟩, hafter⟩ := h
  have hclosed : ∀ S, Closed Nested IsBrace S after → Closed Nested IsBrace S (t :: (body ++ c :: after)) := by
    rintro S ⟨rest, d, after, rfl, hrest, hd, hafter⟩
    exact ⟨t :: (body ++ c :: rest), d, after, by simp, .braces ht hc hin hcin hbody hrest, hd, hafter⟩
  cases depth with
  | zero => exact hclosed _ hafter
  | succ depth => exact hclosed _ hafter

section

variable {fs : List Frame} {t : Token} {ts us : List Token}

theorem Rest.item (hl : Cursor.Layered false fs) (hts : Item (!fs.isEmpty) ts) (h : Rest fs us) :
    Rest fs (ts ++ us) := by
  cases hl with
  | top => exact .item hts h
  | nested opened depth hl => exact Unwinds.item hts h

theorem Rest.openBrace (hl : Cursor.Layered false fs) (ht : t.kind = .lbrace) (hin : t.inString = !fs.isEmpty)
    {start stop : Nat} (h : Rest (Effect.openBrace.frames start stop fs) us) : Rest fs (t :: us) := by
  cases hl with
  | top => exact .brace (.inl ht) hin h
  | nested opened depth hl => exact Unwinds.brace ht hin h

theorem Rest.closeBrace (hl : Cursor.Layered false fs) (ht : t.kind = .rbrace) (hin : t.inString = !fs.isEmpty)
    {start stop : Nat} (h : Rest (Effect.closeBrace.frames start stop fs) us) : Rest fs (t :: us) := by
  cases hl with
  | top => exact .brace (.inr ht) hin h
  | nested opened depth hl =>
    cases depth with
    | zero => exact ⟨[], t, us, rfl, .nil, ⟨ht, hin⟩, h⟩
    | succ depth => exact ⟨[], t, us, rfl, .nil, ⟨ht, hin⟩, h⟩

theorem Rest.part (hl : Cursor.Layered true fs) (hts : Part ts) (h : Rest fs us) : Rest fs (ts ++ us) := by
  cases hl with
  | quoted opened hdelim hl => exact Closed.mono h fun _ => .cons hts
  | heredoc start hlabel hl => exact Closed.mono h fun _ => .cons hts

/-- An interpolation begins before code that ends it and what may follow in the text. -/
theorem Rest.interpolation (hl : Cursor.Layered true fs) (ht : t.kind = .curlyOpen ∨ t.kind = .dollarCurlyOpen)
    (hin : t.inString) {stop : Nat} (h : Rest (.nested stop 0 :: fs) us) : Rest fs (t :: us) := by
  obtain ⟨body, c, after, rfl, hbody, ⟨hc, hcin⟩, hafter⟩ := h
  simpa using hafter.part hl (.code ht hc hin hcin hbody)

end

end Grammar

namespace Scan

open Grammar

theorem isItem_operator (s : Bytes) : isItem (operator s).1 := by
  have hall : ∀ k ∈ .operator :: operators.map (·.2), isItem k := by decide
  exact hall _ (operator_mem s)

/-- A step in code puts an item, a brace or the opening of a string in front. -/
theorem CodeMove.rest {b : UInt8} {s : Bytes} {m : Move} (hm : CodeMove b s m) {c : Cursor} (hr : c.rest = b :: s)
    (hl : Cursor.Layered false c.frames) {start stop : Nat} {us : List Token}
    (h : Rest (m.effect.frames start stop c.frames) us) : Rest c.frames ((c.perform m).1 ++ us) := by
  obtain ⟨kind, n, hkn, hone⟩ := hm.perform c
  rw [hone, List.singleton_append]
  have hitem : isItem kind → Rest c.frames us → Rest c.frames (c.token kind n :: us) := fun hk h =>
    Rest.item hl (.single hk rfl) h
  cases hm with
  | quote n hb _ =>
    cases hkn
    obtain ⟨parts, d, after, rfl, hparts, ⟨hd, htext, hin⟩, hafter⟩ := h
    have hopen : (c.token .quote 1).text = d.text := by
      rw [htext, Cursor.token, hr, List.take_succ_cons, List.take_zero]
    simpa using Rest.item hl (.quoted rfl hd hopen rfl hin hparts) hafter
  | heredoc header _ =>
    cases hkn
    obtain ⟨parts, d, after, rfl, hparts, ⟨hd, hin⟩, hafter⟩ := h
    simpa using Rest.item hl (.heredoc (o := c.token .heredocStart header.length) rfl hd rfl hin hparts) hafter
  | lbrace _ =>
    cases hkn
    exact h.openBrace hl rfl rfl
  | rbrace _ =>
    cases hkn
    exact h.closeBrace hl rfl rfl
  | operator =>
    have hkind : (Scan.operator (b :: s)).1 = kind := congrArg Prod.fst (List.cons.inj hkn).1
    exact hitem (hkind ▸ isItem_operator _) h
  | _ =>
    cases hkn
    exact hitem rfl h

end Scan

namespace Cursor

open Grammar

theorem emit_simpleSuffix (c : Cursor) (s : Bytes) : Suffix (c.emit (Scan.simpleSuffix s)).1 := by
  rcases Scan.simpleSuffix_cases s with he | ⟨⟨k, n⟩, hk, he⟩ | ⟨op, n, k, hop, he⟩
  · rw [he]
    exact .none
  · rw [he]
    exact .index rfl hk rfl
  · rw [he]
    exact .property hop rfl

/-- A step in the text of a string puts a part of it or the opening of an interpolation in front, or ends it. -/
theorem rest_of_textMove {c : Cursor} {b : UInt8} {s : Bytes} {m : Move} {terminator : Kind}
    {closes : Bool → Bytes → Option Nat} (hm : Scan.TextMove terminator closes c.lineStart (b :: s) m)
    (hl : Layered true c.frames) {start stop : Nat} {us : List Token}
    (hclose : ∀ n, closes c.lineStart (b :: s) = some n → Rest c.frames.tail us →
      Rest c.frames ((c.withFrames c.frames.tail).token terminator n :: us))
    (h : Rest (m.effect.frames start stop c.frames) us) : Rest c.frames ((c.perform m).1 ++ us) := by
  have hin : (!c.frames.isEmpty) = true := by
    generalize c.frames = fs at hl
    cases hl <;> rfl
  cases hm with
  | close _ n hn => exact hclose n hn h
  | var d t _ _ =>
    have hall : ∀ u ∈ (c.emit ((.var, Scan.nameChars (d :: t) + 1) ::
        Scan.simpleSuffix ((d :: t).drop (Scan.nameChars (d :: t))))).1, u.inString := fun u hu =>
      (emit_inString c _ u hu).trans hin
    rw [perform_stay]
    exact h.part hl (.var rfl (emit_simpleSuffix _ _) hall)
  | curly t _ => exact h.interpolation hl (.inl rfl) hin
  | dollarCurly t _ => exact h.interpolation hl (.inr rfl) hin
  | literal d t _ _ => exact h.part hl (.literal rfl hin)
  | last _ => exact h.part hl (.literal rfl hin)

theorem rest_text {c : Cursor} {b : UInt8} {s : Bytes} {m : Move} (hr : c.rest = b :: s) (hl : Layered true c.frames)
    (hm : c.move b s = .ok m) {start stop : Nat} {us : List Token}
    (h : Rest (m.effect.frames start stop c.frames) us) : Rest c.frames ((c.perform m).1 ++ us) := by
  obtain ⟨frames, pos, lineStart, rest⟩ := c
  cases hl with
  | quoted opened hdelim hfs =>
    cases hm
    refine rest_of_textMove (Scan.textMove_cases ..) (.quoted opened hdelim hfs) (fun n hn h => ?_) h
    obtain ⟨rfl, hb⟩ := closesQuoted_bounds hn
    cases hr
    exact ⟨[], _, us, rfl, .nil, ⟨rfl, congrArg (fun b => [b]) (Option.some.inj hb), rfl⟩, h⟩
  | heredoc opening hlabel hfs =>
    cases hm
    exact rest_of_textMove (Scan.textMove_cases ..) (.heredoc opening hlabel hfs)
      (fun n _ h => ⟨[], _, us, rfl, .nil, ⟨rfl, rfl⟩, h⟩) h

/-- Every step puts its tokens in front of what may follow inside the frames it leaves. -/
theorem Reads.rest {c d : Cursor} {ts : List Token} (h : Reads c ts d) {inText : Bool} (hl : Layered inText c.frames)
    (hd : Rest d.frames []) : Rest c.frames ts := by
  induction h generalizing inText with
  | refl c => exact hd
  | @step c e b s m us hr hm hus ih =>
    obtain ⟨-, -, -, -, -, hframes, -⟩ := hus.over hl hr hm
    obtain ⟨inText', hl'⟩ := hl.after hm c.pos (c.pos + Scan.total m.tokens)
    rw [← hframes] at hl'
    have hrest := ih hl' hd
    rw [hframes] at hrest
    cases inText with
    | true => exact rest_text hr hl hm hrest
    | false =>
      rw [move_code hl] at hm
      exact (Scan.codeMove_cases hm).rest hr hl hrest

end Cursor

/-- The tokens of a source are code: quotes with the same text and the two ends of a heredoc enclose text and balanced
code, and just the tokens strictly between them lie in a string. -/
theorem code_of_tokenize {src : Bytes} {ts : List Token} (h : tokenize src = .ok ts) : Grammar.Code ts := by
  obtain ⟨d, hd, -, hframes⟩ := Cursor.tokenize_eq_ok.1 h
  exact hd.rest .top (hframes ▸ .nil)

/-- After a brace that nothing closes, a string in an interpolation in a string. -/
theorem code_of_tokenize_nested :
    ∃ ts, tokenize "\x7b\"$a[0]\x7b$b[\"\x7b$c\x7d\"]\x7d\"" = .ok ts ∧ Grammar.Code ts ∧
      ts.map (fun t => (t.kind, t.inString)) =
        [(.lbrace, false), (.quote, false), (.var, true), (.lbracket, true), (.number, true), (.rbracket, true),
          (.curlyOpen, true), (.var, true), (.lbracket, true), (.quote, true), (.curlyOpen, true), (.var, true),
          (.rbrace, true), (.quote, true), (.rbracket, true), (.rbrace, true), (.quote, false)] := by
  have hread : tokenize "\x7b\"$a[0]\x7b$b[\"\x7b$c\x7d\"]\x7d\"" = .ok [⟨.lbrace, "\x7b", 0, false⟩,
      ⟨.quote, "\"", 1, false⟩, ⟨.var, "$a", 2, true⟩, ⟨.lbracket, "[", 4, true⟩, ⟨.number, "0", 5, true⟩,
      ⟨.rbracket, "]", 6, true⟩, ⟨.curlyOpen, "\x7b", 7, true⟩, ⟨.var, "$b", 8, true⟩, ⟨.lbracket, "[", 10, true⟩,
      ⟨.quote, "\"", 11, true⟩, ⟨.curlyOpen, "\x7b", 12, true⟩, ⟨.var, "$c", 13, true⟩, ⟨.rbrace, "\x7d", 15, true⟩,
      ⟨.quote, "\"", 16, true⟩, ⟨.rbracket, "]", 17, true⟩, ⟨.rbrace, "\x7d", 18, true⟩,
      ⟨.quote, "\"", 19, false⟩] := rfl
  exact ⟨_, hread, code_of_tokenize hread, rfl⟩

end Stencil.Token
