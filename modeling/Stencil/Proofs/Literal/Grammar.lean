import Stencil.Proofs.Literal.Roundtrip
import Stencil.Proofs.Token.Strings
import Stencil.Proofs.Unicode.Lower

/-! The grammar of literals. `Forms` says which pieces form a literal, an entry of an array or all entries of one, and
what they denote; it knows nothing of the parser. The parser reads from a list of tokens exactly the literals that the
grammar gives, so a source is a constant if and only if its significant pieces form one. -/

namespace Stencil

open Token (Kind IsString piece)

namespace Literal

def constants : List (Bytes × Value) := [("true", .bool true), ("false", .bool false), ("null", .null)]

/-- An entry of an array, with its key if it has one. -/
abbrev Entry := Option Value × Value

def addEntry (table : Table) : Entry → Table
  | (none, v) => table.append v
  | (some key, v) => table.set key v

def arrayOf (es : List Entry) : Value := (es.foldl addEntry .empty).toValue

/-- What pieces may form. -/
inductive Form where
  | literal (v : Value)
  | entry (e : Entry)
  | entries (es : List Entry)

/-- The pieces form it. Entries have commas between them, and there may be one after the last. -/
inductive Forms : Form → List (Kind × Bytes) → Prop where
  | single (body : Bytes) : Forms (.literal (.string (Quoted.unescape body)))
      [(.string, Ascii.singleQuote :: (body ++ [Ascii.singleQuote]))]
  | double (body : Bytes) : Forms (.literal (.string (unescapeDouble body)))
      [(.string, Ascii.doubleQuote :: (body ++ [Ascii.doubleQuote]))]
  | number {text : Bytes} {v : Value} : number? text false = some v → Forms (.literal v) [(.number, text)]
  | plus {text : Bytes} {v : Value} : number? text false = some v →
      Forms (.literal v) [(.operator, [Ascii.plus]), (.number, text)]
  | minus {text : Bytes} {v : Value} : number? text true = some v →
      Forms (.literal v) [(.operator, [Ascii.minus]), (.number, text)]
  | word {text : Bytes} {v : Value} : (text.map Ascii.toLower, v) ∈ constants → Forms (.literal v) [(.ident, text)]
  | brackets {o c : Bytes} {es : List Entry} {ps : List (Kind × Bytes)} : Forms (.entries es) ps →
      Forms (.literal (arrayOf es)) ((.lbracket, o) :: (ps ++ [(.rbracket, c)]))
  | array {text o c : Bytes} {es : List Entry} {ps : List (Kind × Bytes)} : text.map Ascii.toLower = "array" →
      Forms (.entries es) ps →
      Forms (.literal (arrayOf es)) ((.ident, text) :: (.lparen, o) :: (ps ++ [(.rparen, c)]))
  | plain {v : Value} {ps : List (Kind × Bytes)} : Forms (.literal v) ps → Forms (.entry (none, v)) ps
  | keyed {key v : Value} {a : Bytes} {ks ps : List (Kind × Bytes)} : Forms (.literal key) ks → key.isArray = false →
      Forms (.literal v) ps → Forms (.entry (some key, v)) (ks ++ (.doubleArrow, a) :: ps)
  | nil : Forms (.entries []) []
  | last {e : Entry} {ps : List (Kind × Bytes)} : Forms (.entry e) ps → Forms (.entries [e]) ps
  | cons {e : Entry} {es : List Entry} {c : Bytes} {ps qs : List (Kind × Bytes)} : Forms (.entry e) ps →
      Forms (.entries es) qs → Forms (.entries (e :: es)) (ps ++ (.comma, c) :: qs)

variable {v : Value} {ps : List (Kind × Bytes)} {fuel : Nat} {closing : Kind} {table : Table} {ts us rest : List Token}

theorem word?_eq_some {text : Bytes} : word? text = some v ↔ (text.map Ascii.toLower, v) ∈ constants := by
  have hascii : ∀ e ∈ constants, ∀ c ∈ e.1, c < 0x80 ∧ c ≠ 0x69 ∧ c ≠ 0x6b := by decide +kernel
  have hlower (e : Bytes × Value) (he : e ∈ constants) : Text.lower text = e.1 ↔ text.map Ascii.toLower = e.1 :=
    Text.lower_eq_iff (hascii e he)
  simp only [constants, List.forall_mem_cons] at hlower
  obtain ⟨htrue, hfalse, hnull, -⟩ := hlower
  rw [word?, constants]
  simp only [beq_iff_eq, htrue, hfalse, hnull]
  have hdistinct : Bytes.ofString "true" ≠ "false" ∧ Bytes.ofString "true" ≠ "null" ∧ Bytes.ofString "false" ≠ "null" := by
    decide
  split_ifs with h₁ h₂ h₃
  · simp [h₁, hdistinct, eq_comm (a := v)]
  · rw [h₂] at h₁
    simp [h₁, h₂, hdistinct, eq_comm (a := v)]
  · rw [h₃] at h₁ h₂
    simp [h₁, h₂, h₃, eq_comm (a := v)]
  · simp [h₁, h₂, h₃]

theorem forms_string {text s : Bytes} (htext : IsString text) (h : unquote? text = some s) :
    Forms (.literal (.string s)) [(.string, text)] := by
  cases htext with
  | @quoted q i body hq _ _ =>
    rw [unquote?_quoted] at h
    split_ifs at h with hsingle hdouble
    · rw [beq_iff_eq.mp hsingle, ← Option.some.inj h]
      exact .single body
    · rw [beq_iff_eq.mp hdouble, ← Option.some.inj h]
      exact .double body
  | nowdoc s =>
    cases s <;> cases h

/-- What the parser takes from the front of the tokens forms a literal. -/
def ReadsLiteral (fuel : Nat) : Prop :=
  ∀ ts v rest, (∀ t ∈ ts, t.kind = .string → IsString t.text) → value fuel ts = some (v, rest) →
    ∃ us, ts = us ++ rest ∧ Forms (.literal v) (us.map piece)

/-- What the parser takes up to a closing bracket forms entries, which are added to those read before. -/
def ReadsItems (fuel : Nat) : Prop :=
  ∀ closing table ts v rest, (∀ t ∈ ts, t.kind = .string → IsString t.text) → items fuel closing table ts = some (v, rest) →
    ∃ us c es, ts = us ++ c :: rest ∧ c.kind = closing ∧ Forms (.entries es) (us.map piece) ∧
      v = (es.foldl addEntry table).toValue

theorem ReadsItems.closed (hitems : ReadsItems fuel) (hstrings : ∀ t ∈ ts, t.kind = .string → IsString t.text)
    (h : items fuel closing .empty ts = some (v, rest)) : ∃ us ps c es, ts = us ++ rest ∧
      us.map piece = ps ++ [(closing, c)] ∧ Forms (.entries es) ps ∧ v = arrayOf es := by
  obtain ⟨us, c, es, rfl, rfl, hes, rfl⟩ := hitems _ _ _ _ _ hstrings h
  refine ⟨us ++ [c], us.map piece, c.text, es, ?_, ?_, hes, rfl⟩
  · rw [List.append_assoc, List.singleton_append]
  · rw [List.map_append, List.map_singleton, piece]

theorem readsLiteral_succ (hitems : ReadsItems fuel) : ReadsLiteral (fuel + 1) := by
  intro ts v rest hstrings h
  cases ts with
  | nil => cases h
  | cons t ts =>
    obtain ⟨ht, hts⟩ := List.forall_mem_cons.mp hstrings
    rw [value.eq_def] at h
    dsimp only at h
    split at h
    next hkind =>
      obtain ⟨s, hs, heq⟩ := Option.map_eq_some_iff.mp h
      cases heq
      refine ⟨[t], rfl, ?_⟩
      rw [List.map_singleton, piece, hkind]
      exact forms_string (ht hkind) hs
    next hkind =>
      obtain ⟨w, hw, heq⟩ := Option.map_eq_some_iff.mp h
      cases heq
      refine ⟨[t], rfl, ?_⟩
      rw [List.map_singleton, piece, hkind]
      exact .number hw
    next hkind =>
      split at h
      next hsign =>
        split at h
        next n rest' =>
          split at h
          next hnumber =>
            obtain ⟨w, hw, heq⟩ := Option.map_eq_some_iff.mp h
            cases heq
            refine ⟨[t, n], rfl, ?_⟩
            rw [List.map_cons, List.map_singleton, piece, piece, hkind, hnumber]
            simp only [Bool.or_eq_true, beq_iff_eq] at hsign
            rcases hsign with hsign | hsign <;> rw [hsign] at hw ⊢
            · exact .minus hw
            · exact .plus hw
          next => cases h
        next => cases h
      next => cases h
    next hkind =>
      obtain ⟨us, ps, c, es, rfl, hus, hes, rfl⟩ := hitems.closed hts h
      refine ⟨t :: us, rfl, ?_⟩
      rw [List.map_cons, hus, piece, hkind]
      exact .brackets hes
    next hkind =>
      split at h
      next w hw =>
        cases h
        refine ⟨[t], rfl, ?_⟩
        rw [List.map_singleton, piece, hkind]
        exact .word (word?_eq_some.mp hw)
      next =>
        split at h
        next harray =>
          split at h
          next o rest' =>
            split at h
            next hopen =>
              obtain ⟨us, ps, c, es, rfl, hus, hes, rfl⟩ := hitems.closed (List.forall_mem_cons.mp hts).2 h
              refine ⟨t :: o :: us, rfl, ?_⟩
              rw [List.map_cons, List.map_cons, hus, piece, piece, hkind, hopen]
              exact .array ((Text.lower_eq_iff (by decide +kernel)).mp (beq_iff_eq.mp harray)) hes
            next => cases h
          next => cases h
        next => cases h
    next => cases h

theorem next_reads (hitems : ReadsItems fuel) (hstrings : ∀ t ∈ ts, t.kind = .string → IsString t.text)
    (h : next fuel closing table ts = some (v, rest)) {e : Entry} (he : Forms (.entry e) ps) :
    ∃ us c es, ts = us ++ c :: rest ∧ c.kind = closing ∧ Forms (.entries (e :: es)) (ps ++ us.map piece) ∧
      v = (es.foldl addEntry table).toValue := by
  cases ts with
  | nil => cases h
  | cons c ts =>
    rw [next] at h
    split_ifs at h with hcomma hclose
    · obtain ⟨us, d, es, rfl, hd, hes, rfl⟩ := hitems _ _ _ _ _ (List.forall_mem_cons.mp hstrings).2 h
      refine ⟨c :: us, d, es, rfl, hd, ?_, rfl⟩
      rw [List.map_cons, piece, hcomma]
      exact .cons he hes
    · cases fuel with
      | zero => rw [items] at h; cases h
      | succ fuel =>
        rw [items, if_pos hclose] at h
        cases h
        refine ⟨[], c, [], rfl, hclose, ?_, rfl⟩
        rw [List.map_nil, List.append_nil]
        exact .last he

theorem readsItems_succ (hvalue : ReadsLiteral fuel) (hitems : ReadsItems fuel) : ReadsItems (fuel + 1) := by
  intro closing table ts v rest hstrings h
  cases ts with
  | nil => cases h
  | cons t ts =>
    rw [items] at h
    split at h
    next hclose =>
      cases h
      exact ⟨[], t, [], rfl, hclose, .nil, rfl⟩
    next =>
      obtain ⟨⟨first, after⟩, hfirst, h⟩ := Option.bind_eq_some_iff.mp h
      obtain ⟨ks, hks, hkey⟩ := hvalue _ _ _ hstrings hfirst
      rw [hks, List.forall_mem_append] at hstrings
      obtain ⟨-, hafter⟩ := hstrings
      dsimp only at h
      split at h
      next a after =>
        split at h
        next harrow =>
          split at h
          next => cases h
          next hscalar =>
            obtain ⟨⟨table', left⟩, hentry, hleft⟩ := Option.bind_eq_some_iff.mp h
            obtain ⟨⟨second, after⟩, hsecond, heq⟩ := Option.map_eq_some_iff.mp hentry
            cases heq
            obtain ⟨ws, rfl, hword⟩ := hvalue _ _ _ (List.forall_mem_cons.mp hafter).2 hsecond
            have hafter := (List.forall_mem_append.mp (List.forall_mem_cons.mp hafter).2).2
            have he : Forms (.entry (some first, second)) (ks.map piece ++ (.doubleArrow, a.text) :: ws.map piece) :=
              .keyed hkey (by simpa using hscalar) hword
            obtain ⟨us, c, es, rfl, hc, hes, rfl⟩ := next_reads hitems hafter hleft he
            refine ⟨ks ++ a :: (ws ++ us), c, (some first, second) :: es, by rw [hks]; simp, hc, ?_, rfl⟩
            simpa [piece, harrow] using hes
        next =>
          obtain ⟨us, c, es, hus, hc, hes, rfl⟩ := next_reads hitems hafter h (.plain hkey)
          refine ⟨ks ++ us, c, (none, first) :: es, by rw [hks, hus, List.append_assoc], hc, ?_, rfl⟩
          rwa [List.map_append]
      next => cases h

theorem reads (fuel : Nat) : ReadsLiteral fuel ∧ ReadsItems fuel := by
  induction fuel with
  | zero =>
    refine ⟨fun ts v rest _ h => ?_, fun closing table ts v rest _ h => ?_⟩
    · rw [value] at h
      cases h
    · rw [items] at h
      cases h
  | succ fuel ih => exact ⟨readsLiteral_succ ih.2, readsItems_succ ih.1 ih.2⟩

def closings : List Kind := [.rbracket, .rparen]

theorem Forms.head (h : Forms (.literal v) ps) : ∃ k s qs, ps = (k, s) :: qs ∧ k ∉ closings := by
  cases h <;> exact ⟨_, _, _, rfl, by decide⟩

theorem Forms.tokens (h : Forms (.literal v) (us.map piece)) (hclosing : closing ∈ closings) :
    ∃ t ts, us = t :: ts ∧ t.kind ≠ closing := by
  obtain ⟨k, s, qs, hps, hk⟩ := h.head
  obtain ⟨t, ts, rfl, ht, -⟩ := List.map_eq_cons_iff.mp hps
  obtain ⟨rfl, -⟩ := Prod.mk.inj ht
  exact ⟨t, ts, rfl, fun h => hk (h ▸ hclosing)⟩

theorem Forms.entry_ne_nil {e : Entry} (h : Forms (.entry e) ps) : ps ≠ [] := by
  cases h with
  | plain h =>
    obtain ⟨k, s, qs, rfl, -⟩ := h.head
    exact List.cons_ne_nil _ _
  | keyed => simp

theorem items_plain {t : Token} (ht : t.kind ≠ closing) (hrest : ∀ a ∈ rest.head?, a.kind ≠ .doubleArrow)
    (hvalue : value fuel (t :: ts ++ rest) = some (v, rest)) :
    items (fuel + 1) closing table (t :: ts ++ rest) = next fuel closing (table.append v) rest := by
  rw [List.cons_append] at hvalue ⊢
  rw [items]
  simp only [ht, if_false, hvalue, Option.bind_eq_bind, Option.bind_some]
  cases rest with
  | nil => rfl
  | cons a rest =>
    have ha := hrest a rfl
    simp only [ha, if_false]
    rfl

/-- What the parser makes of the pieces of a form, whatever follows them. -/
def Form.IsRead : Form → List (Kind × Bytes) → Prop
  | .literal v, ps => ∀ fuel us rest, us.map piece = ps → us.length ≤ fuel → value fuel (us ++ rest) = some (v, rest)
  | .entry e, ps => ∀ fuel us closing table rest, us.map piece = ps → us.length ≤ fuel → closing ∈ closings →
      (∀ a ∈ rest.head?, a.kind ≠ .doubleArrow) →
      items (fuel + 1) closing table (us ++ rest) = next fuel closing (addEntry table e) rest
  | .entries es, ps => ∀ fuel us table c rest, us.map piece = ps → us.length < fuel → c.kind ∈ closings →
      items fuel c.kind table (us ++ c :: rest) = some ((es.foldl addEntry table).toValue, rest)

theorem isRead_single {k : Kind} {s : Bytes}
    (hvalue : ∀ fuel t rest, t.kind = k → t.text = s → value (fuel + 1) (t :: rest) = some (v, rest)) :
    Form.IsRead (.literal v) [(k, s)] := by
  intro fuel us rest hus hfuel
  obtain ⟨t, rfl, ht⟩ := List.map_eq_singleton_iff.mp hus
  obtain ⟨hkind, htext⟩ := Prod.mk.inj ht
  obtain ⟨fuel, rfl⟩ : ∃ n, fuel = n + 1 := ⟨fuel - 1, by simp at hfuel; omega⟩
  exact hvalue fuel t rest hkind htext

theorem isRead_signed {sign : UInt8} {text : Bytes} (hsign : sign ∈ [Ascii.minus, Ascii.plus])
    (hnumber : number? text ([sign] == [Ascii.minus]) = some v) :
    Form.IsRead (.literal v) [(.operator, [sign]), (.number, text)] := by
  intro fuel us rest hus hfuel
  obtain ⟨t, us, rfl, ht, hus⟩ := List.map_eq_cons_iff.mp hus
  obtain ⟨n, rfl, hn⟩ := List.map_eq_singleton_iff.mp hus
  obtain ⟨hkind, htext⟩ := Prod.mk.inj ht
  obtain ⟨hnkind, hntext⟩ := Prod.mk.inj hn
  obtain ⟨fuel, rfl⟩ : ∃ n, fuel = n + 1 := ⟨fuel - 1, by simp at hfuel; omega⟩
  have hsigns : ([sign] == [Ascii.minus] || [sign] == [Ascii.plus]) = true := by simpa using hsign
  simp only [List.cons_append, List.nil_append, value, hkind, htext, hsigns, hnkind, hntext, hnumber, if_true, Option.map_some]

/-- Entries are read up to the bracket that closes the array. -/
theorem Form.IsRead.closed {es : List Entry} {s : Bytes} (h : Form.IsRead (.entries es) ps)
    (hus : us.map piece = ps ++ [(closing, s)]) (hfuel : us.length ≤ fuel) (hclosing : closing ∈ closings) :
    items fuel closing .empty (us ++ rest) = some (arrayOf es, rest) := by
  obtain ⟨us, cs, rfl, hentries, hcs⟩ := List.map_eq_append_iff.mp hus
  obtain ⟨c, rfl, hc⟩ := List.map_eq_singleton_iff.mp hcs
  obtain ⟨rfl, -⟩ := Prod.mk.inj hc
  rw [List.length_append, List.length_singleton] at hfuel
  rw [List.append_assoc, List.singleton_append]
  exact h fuel us .empty c rest hentries hfuel hclosing

theorem Forms.isRead {form : Form} (h : Forms form ps) : form.IsRead ps := by
  induction h with
  | single body =>
    refine isRead_single fun fuel t rest hkind htext => ?_
    simp only [value, hkind, htext, unquote?_quoted, beq_self_eq_true, if_true, Option.map_some]
  | double body =>
    refine isRead_single fun fuel t rest hkind htext => ?_
    have hquote : (Ascii.doubleQuote == Ascii.singleQuote) = false := by decide
    simp only [value, hkind, htext, unquote?_quoted, hquote, beq_self_eq_true, if_true, Option.map_some, Bool.false_eq_true,
      if_false]
  | number hnumber =>
    refine isRead_single fun fuel t rest hkind htext => ?_
    simp only [value, hkind, htext, hnumber, Option.map_some]
  | plus hnumber => exact isRead_signed (by decide) hnumber
  | minus hnumber => exact isRead_signed (by decide) hnumber
  | word hword =>
    refine isRead_single fun fuel t rest hkind htext => ?_
    simp only [value, hkind, htext, word?_eq_some.mpr hword]
  | brackets _ ih =>
    intro fuel us rest hus hfuel
    obtain ⟨o, us, rfl, ho, hus⟩ := List.map_eq_cons_iff.mp hus
    obtain ⟨hopen, -⟩ := Prod.mk.inj ho
    obtain ⟨fuel, rfl⟩ : ∃ n, fuel = n + 1 := ⟨fuel - 1, by simp at hfuel; omega⟩
    have hitems : items fuel .rbracket .empty (us ++ rest) = _ := ih.closed hus (by simpa using hfuel) (by decide)
    simpa [value, hopen] using hitems
  | array hword _ ih =>
    intro fuel us rest hus hfuel
    obtain ⟨t, us, rfl, ht, hus⟩ := List.map_eq_cons_iff.mp hus
    obtain ⟨o, us, rfl, ho, hus⟩ := List.map_eq_cons_iff.mp hus
    obtain ⟨hkind, htext⟩ := Prod.mk.inj ht
    obtain ⟨hopen, -⟩ := Prod.mk.inj ho
    simp only [List.length_cons] at hfuel
    obtain ⟨fuel, rfl⟩ : ∃ n, fuel = n + 1 := ⟨fuel - 1, by omega⟩
    have hitems : items fuel .rparen .empty (us ++ rest) = _ := ih.closed hus (by omega) (by decide)
    have hlower : Text.lower t.text = "array" := (Text.lower_eq_iff (by decide +kernel)).mpr (htext ▸ hword)
    have hnone : word? t.text = none := by
      simp only [word?, hlower]
      rfl
    simpa [value, hkind, hnone, hlower, hopen] using hitems
  | plain h ih =>
    intro fuel us closing table rest hus hfuel hclosing hrest
    subst hus
    obtain ⟨t, ts, rfl, ht⟩ := h.tokens hclosing
    exact items_plain ht hrest (ih fuel _ rest rfl hfuel)
  | keyed hkey hscalar _ ihkey ih =>
    intro fuel us closing table rest hus hfuel hclosing hrest
    obtain ⟨ks, ws, rfl, rfl, hws⟩ := List.map_eq_append_iff.mp hus
    obtain ⟨a, ws, rfl, ha, rfl⟩ := List.map_eq_cons_iff.mp hws
    obtain ⟨ha, -⟩ := Prod.mk.inj ha
    obtain ⟨t, ts, rfl, ht⟩ := hkey.tokens hclosing
    simp only [List.length_append, List.length_cons] at hfuel
    rw [List.append_assoc, List.cons_append (a := a)]
    exact items_entry ht ha hscalar (ihkey fuel _ _ rfl (by simp; omega)) (ih fuel _ rest rfl (by omega))
  | nil =>
    intro fuel us table c rest hus hfuel hc
    obtain rfl := List.map_eq_nil_iff.mp hus
    obtain ⟨fuel, rfl⟩ : ∃ n, fuel = n + 1 := ⟨fuel - 1, by omega⟩
    rw [List.nil_append, items, if_pos rfl]
    rfl
  | last he ih =>
    intro fuel us table c rest hus hfuel hc
    subst hus
    have hpos : 0 < us.length := by simpa [List.length_pos_iff] using he.entry_ne_nil
    obtain ⟨fuel, rfl⟩ : ∃ n, fuel = n + 2 := ⟨fuel - 2, by omega⟩
    have hmarks : ∀ k ∈ closings, k ≠ Kind.doubleArrow ∧ k ≠ Kind.comma := by decide
    obtain ⟨harrow, hcomma⟩ := hmarks c.kind hc
    rw [ih (fuel + 1) us c.kind table _ rfl (by omega) hc (by simpa using harrow), next, if_neg hcomma, if_pos rfl, items,
      if_pos rfl]
    rfl
  | cons he _ ihe ih =>
    intro fuel us table c rest hus hfuel hc
    obtain ⟨us, ws, rfl, rfl, hws⟩ := List.map_eq_append_iff.mp hus
    obtain ⟨t, ws, rfl, ht, hws⟩ := List.map_eq_cons_iff.mp hws
    have hcomma := (Prod.mk.inj ht).1
    simp only [List.length_append, List.length_cons] at hfuel
    obtain ⟨fuel, rfl⟩ : ∃ n, fuel = n + 1 := ⟨fuel - 1, by omega⟩
    rw [List.append_assoc, List.cons_append, ihe fuel us c.kind table _ rfl (by omega) hc (by simp [hcomma]), next,
      if_pos hcomma]
    exact ih fuel ws _ c rest hws (by omega) hc

/-- A list of tokens whose strings are whole is read to its end if and only if it forms a literal. -/
theorem value_eq_some_iff (hstrings : ∀ t ∈ ts, t.kind = .string → IsString t.text) (hfuel : ts.length ≤ fuel) :
    value fuel ts = some (v, []) ↔ Forms (.literal v) (ts.map piece) := by
  constructor
  · intro h
    obtain ⟨us, rfl, hus⟩ := (reads fuel).1 _ _ _ hstrings h
    rwa [List.append_nil]
  · intro h
    have hread := h.isRead fuel ts [] rfl hfuel
    rwa [List.append_nil] at hread

theorem evaluate_eq_some_iff {src : Bytes} : evaluate src = some v ↔
    ∃ ts, Token.tokenize src = .ok ts ∧ Forms (.literal v) (significant (ts.map piece)) := by
  rw [evaluate]
  cases hts : Token.tokenize src with
  | error e => simp
  | ok ts =>
    have hstrings : ∀ t ∈ ts.filter (!·.isTrivia), t.kind = .string → IsString t.text :=
      fun t ht => Token.tokenize_isString hts t (List.mem_of_mem_filter ht)
    have hpieces : (ts.filter (!·.isTrivia)).map piece = significant (ts.map piece) := by
      rw [significant, List.filter_map]
      rfl
    have hiff : value (2 * (ts.filter (!·.isTrivia)).length + 1) (ts.filter (!·.isTrivia)) = some (v, []) ↔ _ :=
      value_eq_some_iff hstrings (by omega)
    rw [hpieces] at hiff
    simp only [Except.ok.injEq, exists_eq_left', ← hiff]
    rcases value (2 * (ts.filter (!·.isTrivia)).length + 1) (ts.filter (!·.isTrivia)) with _ | ⟨w, _ | ⟨t, rest⟩⟩ <;> simp

theorem Reads.forms (h : Reads v ps) : Forms (.literal v) (significant ps) := by
  obtain ⟨ts, hts, hpieces⟩ := (h.spells [] .nil).tokenize
  obtain ⟨us, hus, hforms⟩ := evaluate_eq_some_iff.mp h.evaluate
  obtain rfl : ts = us := Except.ok.inj (hts.symm.trans (h.text ▸ hus))
  rwa [hpieces] at hforms

/-- A source is a constant if and only if it has tokens and those that are no spaces and no comments form a literal of
it; so spaces and comments never matter. -/
theorem evaluate_grammar :
    (∀ src v, evaluate src = some v ↔
      ∃ ts, Token.tokenize src = .ok ts ∧ Forms (.literal v) (significant (ts.map piece))) ∧
    ∀ src src' ts ts', Token.tokenize src = .ok ts → Token.tokenize src' = .ok ts' →
      significant (ts.map piece) = significant (ts'.map piece) → evaluate src = evaluate src' := by
  refine ⟨fun src v => evaluate_eq_some_iff, fun src src' ts ts' hts hts' hpieces => ?_⟩
  refine Option.ext fun v => ?_
  rw [evaluate_eq_some_iff, evaluate_eq_some_iff, hts, hts']
  simp only [Except.ok.injEq, exists_eq_left', hpieces]

/-- A list with a key, a signed number and a comma at the end; the second source has other spaces, and a comment. -/
theorem evaluate_grammar_spaces : ∃ ts ts',
    Token.tokenize "['a' => -1, TRUE,]" = .ok ts ∧ Token.tokenize "[ 'a'=>-1/**/,TRUE,]" = .ok ts' ∧
    significant (ts.map piece) = significant (ts'.map piece) ∧
    evaluate "['a' => -1, TRUE,]" = some (.array [(.name "a", .int (-1)), (.int 0, .bool true)]) ∧
    evaluate "[ 'a'=>-1/**/,TRUE,]" = some (.array [(.name "a", .int (-1)), (.int 0, .bool true)]) := by
  have hts : Token.tokenize "['a' => -1, TRUE,]" = .ok [⟨.lbracket, "[", 0, false⟩, ⟨.string, "'a'", 1, false⟩,
      ⟨.whitespace, " ", 4, false⟩, ⟨.doubleArrow, "=>", 5, false⟩, ⟨.whitespace, " ", 7, false⟩,
      ⟨.operator, "-", 8, false⟩, ⟨.number, "1", 9, false⟩, ⟨.comma, ",", 10, false⟩, ⟨.whitespace, " ", 11, false⟩,
      ⟨.ident, "TRUE", 12, false⟩, ⟨.comma, ",", 16, false⟩, ⟨.rbracket, "]", 17, false⟩] := by rfl
  have hts' : Token.tokenize "[ 'a'=>-1/**/,TRUE,]" = .ok [⟨.lbracket, "[", 0, false⟩, ⟨.whitespace, " ", 1, false⟩,
      ⟨.string, "'a'", 2, false⟩, ⟨.doubleArrow, "=>", 5, false⟩, ⟨.operator, "-", 7, false⟩,
      ⟨.number, "1", 8, false⟩, ⟨.comment, "/**/", 9, false⟩, ⟨.comma, ",", 13, false⟩, ⟨.ident, "TRUE", 14, false⟩,
      ⟨.comma, ",", 18, false⟩, ⟨.rbracket, "]", 19, false⟩] := by rfl
  have hfirst : Forms (.entry (some (.string "a"), .int (-1)))
      [(.string, "'a'"), (.doubleArrow, "=>"), (.operator, "-"), (.number, "1")] := .keyed (.single "a") rfl (.minus rfl)
  have hsecond : Forms (.entry (none, .bool true)) [(.ident, "TRUE")] := .plain (.word List.mem_cons_self)
  have hliteral : Forms (.literal (.array [(.name "a", .int (-1)), (.int 0, .bool true)])) _ :=
    .brackets (o := "[") (c := "]") (hfirst.cons (c := ",") (hsecond.cons (c := ",") .nil))
  have hvalue := (evaluate_grammar.1 "['a' => -1, TRUE,]" _).mpr ⟨_, hts, hliteral⟩
  exact ⟨_, _, hts, hts', rfl, hvalue, (evaluate_grammar.2 _ _ _ _ hts hts' rfl).symm.trans hvalue⟩

end Literal

end Stencil
