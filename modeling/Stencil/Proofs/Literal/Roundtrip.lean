import Stencil.Proofs.Literal.Spelling

/-! A constant is read back from its literal. For every constant there are the pieces its literal is made of: their
texts are the literal, the lexer finds them, and the parser makes the constant of them. The pieces of an array are put
together from those of its entries, so one induction on the constant carries all three. -/

namespace Stencil

open Token (Kind Spells Stops piece words)

theorem Quoted.unescape_escape (s : Bytes) : unescape (escape s) = s := by
  induction s with
  | nil => rfl
  | cons c s ih =>
    rw [escape]
    split
    next hc =>
      have hcc : (Ascii.backslash == Ascii.backslash && (c == Ascii.backslash || c == Ascii.singleQuote)) = true := by
        simpa using hc
      rw [unescape, if_pos hcc, ih]
    next hc =>
      have hcc : c ≠ Ascii.backslash := fun h => hc (by simp [h])
      cases hs : escape s with
      | nil =>
        rw [hs] at ih
        rw [← ih]
        rfl
      | cons d t =>
        rw [hs] at ih
        rw [unescape, if_neg (by simp [hcc]), ih]

/-- Constants without floating-point numbers whose arrays have distinct keys, in the form arrays store them. -/
inductive Value.IsNormal : Value → Prop
  | null : IsNormal .null
  | bool (b : Bool) : IsNormal (.bool b)
  | int (n : Int64) : IsNormal (.int n)
  | string (s : Bytes) : IsNormal (.string s)
  | array {es : List (Key × Value)} (hdistinct : (es.map (·.1)).Nodup) (hkeys : ∀ e ∈ es, Key.ofValue e.1.toValue = e.1)
      (hvalues : ∀ e ∈ es, IsNormal e.2) : IsNormal (.array es)

theorem setEntry_of_not_mem {key : Key} {v : Value} {es : List (Key × Value)} (h : key ∉ es.map (·.1)) :
    setEntry key v es = es ++ [(key, v)] := by
  induction es with
  | nil => rfl
  | cons e es ih =>
    rw [List.map_cons, List.mem_cons, not_or] at h
    rw [setEntry, if_neg (Ne.symm h.1), ih h.2, List.cons_append]

namespace Literal

theorem unquote?_quoted (q : UInt8) (body : Bytes) : unquote? (q :: (body ++ [q])) =
    if q == Ascii.singleQuote then some (Quoted.unescape body)
    else if q == Ascii.doubleQuote then some (unescapeDouble body)
    else none := by
  obtain ⟨c, s, hs⟩ : ∃ c s, body ++ [q] = c :: s := List.exists_cons_of_ne_nil (by simp)
  have hbody : (c :: s).dropLast = body := by rw [← hs, List.dropLast_concat]
  rw [hs, unquote?, hbody]

theorem unquote?_encode (s : Bytes) : unquote? (Quoted.encode s) = some s := by
  rw [Quoted.encode, unquote?_quoted, if_pos (beq_self_eq_true _), Quoted.unescape_escape]

theorem number?_ofNat {n : Nat} {negative : Bool} {i : Int64} (h : Numeral.whole? negative (Bytes.ofNat n) = some i) :
    number? (Bytes.ofNat n) negative = some (.int i) := by
  have hclean : (Bytes.ofNat n).filter (· != Ascii.underscore) = Bytes.ofNat n := by
    have hdigit : ∀ d < 10, (Bytes.digit d != Ascii.underscore) = true := by decide
    rw [Bytes.ofNat_eq, List.filter_eq_self, List.forall_mem_map]
    exact fun d hd => hdigit d (Bytes.digits_lt n d hd)
  simp only [number?, hclean, h]

/-- The pieces that are left when spaces are. -/
def significant (ps : List (Kind × Bytes)) : List (Kind × Bytes) :=
  ps.filter fun p => !(p.1 == .whitespace || p.1 == .comment)

theorem significant_append (ps qs : List (Kind × Bytes)) :
    significant (ps ++ qs) = significant ps ++ significant qs := List.filter_append ..

/-- There is a first piece, which is no space and closes nothing. -/
def Opens (ps : List (Kind × Bytes)) : Prop :=
  ∃ k c s qs, ps = (k, c :: s) :: qs ∧ k ∉ [Kind.whitespace, .comment, .rbracket] ∧ Ascii.isSpace c = false

variable {v : Value} {ps qs : List (Kind × Bytes)}

theorem Opens.append (h : Opens ps) (qs : List (Kind × Bytes)) : Opens (ps ++ qs) := by
  obtain ⟨k, c, s, rest, rfl, hk, hc⟩ := h
  exact ⟨k, c, s, rest ++ qs, rfl, hk, hc⟩

theorem Opens.head (h : Opens ps) (s : Bytes) : ∀ c ∈ (ps.flatMap (·.2) ++ s).head?, Ascii.isSpace c = false := by
  obtain ⟨k, c, t, qs, rfl, -, hc⟩ := h
  intro d hd
  obtain rfl : c = d := by simpa using hd
  exact hc

theorem Opens.tokens (h : Opens ps) {us : List Token} (hus : us.map piece = significant ps) :
    ∃ t ts, us = t :: ts ∧ t.kind ≠ .rbracket := by
  obtain ⟨k, c, s, qs, rfl, hk, -⟩ := h
  simp only [List.mem_cons, List.not_mem_nil, or_false, not_or] at hk
  rw [significant, List.filter_cons_of_pos (by simp [hk.1, hk.2.1])] at hus
  obtain ⟨t, ts, rfl, ht, -⟩ := List.map_eq_cons_iff.mp hus
  obtain ⟨rfl, -⟩ := Prod.mk.inj ht
  exact ⟨t, ts, rfl, hk.2.2⟩

/-- The pieces are the literal of the constant, and are read as the constant. -/
structure Reads (v : Value) (ps : List (Kind × Bytes)) : Prop where
  text : ps.flatMap (·.2) = write v
  opens : Opens ps
  spells : ∀ z, Stops z → Spells ps z
  parses : ∀ fuel us rest, us.map piece = significant ps → us.length ≤ fuel → value fuel (us ++ rest) = some (v, rest)

theorem Reads.single {k : Kind} {c : UInt8} {s : Bytes} (htext : c :: s = write v)
    (hk : k ∉ [Kind.whitespace, .comment, .rbracket]) (hc : Ascii.isSpace c = false)
    (hspells : ∀ z, Stops z → Spells [(k, c :: s)] z)
    (hvalue : ∀ fuel t rest, t.kind = k → t.text = c :: s → value (fuel + 1) (t :: rest) = some (v, rest)) :
    Reads v [(k, c :: s)] := by
  refine ⟨by simpa using htext, ⟨k, c, s, [], rfl, hk, hc⟩, hspells, fun fuel us rest hus hfuel => ?_⟩
  simp only [List.mem_cons, List.not_mem_nil, or_false, not_or] at hk
  rw [significant, List.filter_cons_of_pos (by simp [hk.1, hk.2.1]), List.filter_nil] at hus
  obtain ⟨t, rfl, ht⟩ := List.map_eq_singleton_iff.mp hus
  obtain ⟨hkind, htext⟩ := Prod.mk.inj ht
  obtain ⟨fuel, rfl⟩ : ∃ n, fuel = n + 1 := ⟨fuel - 1, by simp at hfuel; omega⟩
  exact hvalue fuel t rest hkind htext

theorem reads_word {c : UInt8} {s : Bytes} (htext : c :: s = write v) (hs : c :: s ∈ words) (hv : word? (c :: s) = some v) :
    Reads v [(.ident, c :: s)] := by
  have hspace : Ascii.isSpace c = false := by
    have hwords : ∀ w ∈ words, ∀ c ∈ w.head?, Ascii.isSpace c = false := by decide +kernel
    exact hwords _ hs c rfl
  refine .single htext (by decide) hspace (fun z hz => Token.spells_word hs hz) fun fuel t rest hk ht => ?_
  simp only [value, hk, ht, hv]

theorem reads_string (s : Bytes) : Reads (.string s) [(.string, Quoted.encode s)] := by
  refine .single (by rw [write, Quoted.encode]) (by decide) rfl (fun z _ => Token.spells_string s z)
    fun fuel t rest hk ht => ?_
  have hs : unquote? t.text = some s := ht ▸ unquote?_encode s
  simp only [value, hk, hs, Option.map_some]

theorem exists_reads_int (n : Int64) : ∃ ps, Reads (.int n) ps := by
  have hlow := n.le_toInt
  have hhigh := n.toInt_lt
  have hn := Int64.ofInt_toInt n
  have hpow : Nat.pow 2 63 = 2 ^ 63 := rfl
  cases hi : n.toInt with
  | ofNat m =>
    rw [hi] at hlow hhigh hn
    have hnumber : number? (Bytes.ofNat m) false = some (.int n) := by
      refine number?_ofNat ?_
      rw [Numeral.whole?_ofNat, if_neg (by simp), if_pos (by simp only [Int.ofNat_eq_natCast] at hhigh; omega)]
      exact congrArg some hn
    obtain ⟨d, s, hd, hs⟩ := Bytes.ofNat_eq_cons m
    have hspace : ∀ d < 10, Ascii.isSpace (Bytes.digit d) = false := by decide
    refine ⟨[(.number, Bytes.digit d :: s)], .single ?_ (by decide) (hspace d hd) (fun z hz => ?_)
      fun fuel t rest hk ht => ?_⟩
    · rw [write, hi, Bytes.ofInt, hs]
    · exact hs ▸ Token.spells_number m hz
    · rw [← ht] at hs
      simp only [value, hk, ← hs, hnumber, Option.map_some]
  | negSucc m =>
    rw [hi] at hlow hhigh hn
    have hnumber : number? (Bytes.ofNat (m + 1)) true = some (.int n) := by
      refine number?_ofNat ?_
      rw [Numeral.whole?_ofNat, if_pos rfl, if_pos (by omega)]
      exact congrArg some hn
    refine ⟨[(.operator, [Ascii.minus])] ++ [(.number, Bytes.ofNat (m + 1))], ?_, ?_, fun z hz => ?_,
      fun fuel us rest hus hfuel => ?_⟩
    · rw [write, hi]
      simp [Bytes.ofInt, Ascii.minus]
    · exact ⟨.operator, Ascii.minus, [], _, rfl, by decide, rfl⟩
    · refine .append ?_ (Token.spells_number (m + 1) hz)
      rw [List.flatMap_singleton]
      exact Token.spells_minus (m + 1)
    · obtain ⟨t, us, rfl, ht, hus⟩ := List.map_eq_cons_iff.mp hus
      obtain ⟨u, rfl, hu⟩ := List.map_eq_singleton_iff.mp hus
      obtain ⟨hk, ht⟩ := Prod.mk.inj ht
      obtain ⟨hk', hu⟩ := Prod.mk.inj hu
      obtain ⟨fuel, rfl⟩ : ∃ k, fuel = k + 1 := ⟨fuel - 1, by simp at hfuel; omega⟩
      simp [value, hk, ht, hk', hu, hnumber]

theorem exists_reads_key (key : Key) : ∃ ps, Reads key.toValue ps := by
  cases key with
  | int n => exact exists_reads_int n
  | name s => exact ⟨_, reads_string s⟩

theorem writeKey_eq (key : Key) : writeKey key = write key.toValue := by
  cases key with
  | int n => rw [writeKey, Key.toValue, write]
  | name s => rw [writeKey, Key.toValue, write]

theorem isArray_toValue (key : Key) : key.toValue.isArray = false := by
  cases key <;> rfl

def arrow : List (Kind × Bytes) :=
  [(.whitespace, [Ascii.space]), (.doubleArrow, [Ascii.equals, Ascii.greater]), (.whitespace, [Ascii.space])]

def separator : List (Kind × Bytes) := [(.comma, [Ascii.comma]), (.whitespace, [Ascii.space])]

/-- The pieces are those of the entries up to the closing bracket, and add these to a table. -/
structure ReadsEntries (es : List (Key × Value)) (ps : List (Kind × Bytes)) : Prop where
  text : ps.flatMap (·.2) = Bytes.join ", " (writeEntries es)
  opens : es ≠ [] → Opens ps
  spells : ∀ z, Stops z → Spells ps z
  parses : ∀ fuel table us close rest, us.map piece = significant ps → close.kind = .rbracket → us.length < fuel →
    (es.map (·.1)).Nodup → (∀ e ∈ es, Key.ofValue e.1.toValue = e.1 ∧ e.1 ∉ table.keys) →
    items fuel .rbracket table (us ++ close :: rest) = some (.array (table.entries ++ es), rest)

theorem readsEntries_nil : ReadsEntries [] [] := by
  refine ⟨rfl, fun h => absurd rfl h, fun z _ => .nil z, fun fuel table us close rest hus hclose hfuel _ _ => ?_⟩
  obtain rfl : us = [] := List.map_eq_nil_iff.mp hus
  obtain ⟨fuel, rfl⟩ : ∃ n, fuel = n + 1 := ⟨fuel - 1, by omega⟩
  simp [items, hclose, Table.toValue]

/-- What the loop over the entries does once it has added an entry. -/
def next (fuel : Nat) (closing : Kind) (table : Table) : List Token → Option (Value × List Token)
  | c :: rest =>
    if c.kind = .comma then items fuel closing table rest
    else if c.kind = closing then items fuel closing table (c :: rest)
    else none
  | [] => none

theorem items_entry {fuel : Nat} {closing : Kind} {table : Table} {t a : Token} {ts us rest : List Token} {k v : Value}
    (ht : t.kind ≠ closing) (ha : a.kind = .doubleArrow) (hk : k.isArray = false)
    (hkey : value fuel (t :: ts ++ a :: (us ++ rest)) = some (k, a :: (us ++ rest)))
    (hvalue : value fuel (us ++ rest) = some (v, rest)) :
    items (fuel + 1) closing table (t :: ts ++ a :: (us ++ rest)) = next fuel closing (table.set k v) rest := by
  rw [List.cons_append] at hkey ⊢
  rw [items]
  simp only [ht, if_false, hkey, ha, if_true, hk, Bool.false_eq_true, hvalue, Option.map_some, Option.bind_eq_bind,
    Option.bind_some]
  cases rest <;> rfl

/-- The pieces are those after an entry that is followed by the entries `es`. -/
structure Continues (es : List (Key × Value)) (ps : List (Kind × Bytes)) : Prop where
  text : ∀ entry, Bytes.join ", " (entry :: writeEntries es) = entry ++ ps.flatMap (·.2)
  stops : ∀ z, Stops z → Stops (ps.flatMap (·.2) ++ z)
  spells : ∀ z, Stops z → Spells ps z
  parses : ∀ fuel table us close rest, us.map piece = significant ps → close.kind = .rbracket → us.length < fuel →
    (es.map (·.1)).Nodup → (∀ e ∈ es, Key.ofValue e.1.toValue = e.1 ∧ e.1 ∉ table.keys) →
    next fuel .rbracket table (us ++ close :: rest) = some (.array (table.entries ++ es), rest)

theorem continues_nil : Continues [] [] := by
  refine ⟨fun entry => ?_, fun z hz => hz, fun z _ => .nil z, fun fuel table us close rest hus hclose hfuel hd hk => ?_⟩
  · simp [writeEntries, Bytes.join]
  · obtain rfl : us = [] := List.map_eq_nil_iff.mp hus
    have hitems := readsEntries_nil.parses fuel table [] close rest rfl hclose hfuel hd hk
    simpa [next, hclose] using hitems

theorem ReadsEntries.continues {e : Key × Value} {es : List (Key × Value)} (h : ReadsEntries (e :: es) ps) :
    Continues (e :: es) (separator ++ ps) := by
  have hopens := h.opens (by simp)
  refine ⟨fun entry => ?_, fun z hz => .cons _ (.inl rfl), fun z hz => ?_,
    fun fuel table us close rest hus hclose hfuel hd hk => ?_⟩
  · obtain ⟨k, v⟩ := e
    rw [List.flatMap_append, h.text, writeEntries, Bytes.join, List.intercalate_cons_cons, List.append_assoc]
    rfl
  · exact .append (Token.spells_comma (hopens.head z)) (h.spells z hz)
  · obtain ⟨c, us, rfl, hc, hus⟩ := List.map_eq_cons_iff.mp hus
    obtain ⟨hc, -⟩ := Prod.mk.inj hc
    rw [List.cons_append, next, if_pos hc]
    exact h.parses fuel table us close rest hus hclose (Nat.lt_of_succ_lt hfuel) hd hk

theorem ReadsEntries.cons {key : Key} {es : List (Key × Value)} {ks vs : List (Kind × Bytes)}
    (hk : Reads key.toValue ks) (hv : Reads v vs) (hes : Continues es ps) :
    ReadsEntries ((key, v) :: es) (ks ++ (arrow ++ (vs ++ ps))) := by
  refine ⟨?_, fun _ => hk.opens.append _, fun z hz => ?_, fun fuel table us close rest hus hclose hfuel hd hkeys => ?_⟩
  · rw [writeEntries, hes.text, writeKey_eq, ← hk.text, ← hv.text]
    simp only [List.flatMap_append, List.append_assoc]
    rfl
  · have hvalue : Spells (vs ++ ps) z := .append (hv.spells _ (hes.stops z hz)) (hes.spells z hz)
    have harrow : Spells (arrow ++ (vs ++ ps)) z := by
      refine .append (Token.spells_arrow ?_) hvalue
      rw [List.flatMap_append, List.append_assoc]
      exact hv.opens.head _
    exact .append (hk.spells _ (.cons _ (.inr (.inr rfl)))) harrow
  · have harrow : significant arrow = [(.doubleArrow, [Ascii.equals, Ascii.greater])] := rfl
    rw [significant_append, significant_append, significant_append, harrow, List.singleton_append] at hus
    obtain ⟨uk, us, rfl, huk, hus⟩ := List.map_eq_append_iff.mp hus
    obtain ⟨a, us, rfl, ha, hus⟩ := List.map_eq_cons_iff.mp hus
    obtain ⟨uv, ut, rfl, huv, hut⟩ := List.map_eq_append_iff.mp hus
    obtain ⟨ha, -⟩ := Prod.mk.inj ha
    obtain ⟨t, ts, rfl, ht⟩ := hk.opens.tokens huk
    simp only [List.length_append, List.length_cons] at hfuel
    obtain ⟨fuel, rfl⟩ : ∃ n, fuel = n + 1 := ⟨fuel - 1, by omega⟩
    obtain ⟨⟨hkey, hnew⟩, hkeys⟩ := List.forall_mem_cons.mp hkeys
    rw [List.map_cons, List.nodup_cons] at hd
    have hvalue := hv.parses fuel uv (ut ++ close :: rest) huv (by omega)
    have hkvalue := hk.parses fuel (t :: ts) (a :: (uv ++ (ut ++ close :: rest))) huk (by simp; omega)
    have hset : table.set key.toValue v = ⟨table.entries ++ [(key, v)], Table.bump table.next key⟩ := by
      rw [Table.set, hkey, Table.setKey, setEntry_of_not_mem hnew]
    have hrest := hes.parses fuel (table.set key.toValue v) ut close rest hut hclose (by omega) hd.2 fun e he => by
      refine ⟨(hkeys e he).1, ?_⟩
      rw [hset, Table.keys, List.map_append, List.mem_append, not_or]
      refine ⟨(hkeys e he).2, ?_⟩
      rw [List.map_singleton, List.mem_singleton]
      exact fun h => hd.1 (h ▸ List.mem_map_of_mem he)
    simp only [List.append_assoc, List.cons_append] at hkvalue hvalue ⊢
    rw [← List.cons_append, items_entry ht ha (isArray_toValue key) hkvalue hvalue, hrest, hset, List.append_assoc]
    rfl

theorem exists_readsEntries {es : List (Key × Value)} (h : ∀ e ∈ es, ∃ ps, Reads e.2 ps) : ∃ ps, ReadsEntries es ps := by
  induction es with
  | nil => exact ⟨[], readsEntries_nil⟩
  | cons e es ih =>
    obtain ⟨key, v⟩ := e
    obtain ⟨⟨vs, hv⟩, hes⟩ := List.forall_mem_cons.mp h
    obtain ⟨ks, hk⟩ := exists_reads_key key
    obtain ⟨ps, hps⟩ := ih hes
    cases es with
    | nil => exact ⟨_, .cons hk hv continues_nil⟩
    | cons e es => exact ⟨_, .cons hk hv hps.continues⟩

theorem ReadsEntries.reads_array {es : List (Key × Value)} (h : ReadsEntries es ps) (hd : (es.map (·.1)).Nodup)
    (hkeys : ∀ e ∈ es, Key.ofValue e.1.toValue = e.1) :
    Reads (.array es) ([(.lbracket, [Ascii.lbracket])] ++ (ps ++ [(.rbracket, [Ascii.rbracket])])) := by
  refine ⟨?_, ⟨.lbracket, Ascii.lbracket, [], _, rfl, by decide, rfl⟩, fun z _ => ?_, fun fuel us rest hus hfuel => ?_⟩
  · rw [write, ← h.text]
    simp
  · refine .append (Token.spells_lbracket _) (.append ?_ (Token.spells_rbracket z))
    exact h.spells _ (.cons _ (.inr (.inl rfl)))
  · have hopen : significant [(.lbracket, [Ascii.lbracket])] = [(.lbracket, [Ascii.lbracket])] := rfl
    rw [significant_append, significant_append, hopen, List.singleton_append] at hus
    obtain ⟨o, us, rfl, ho, hus⟩ := List.map_eq_cons_iff.mp hus
    obtain ⟨us, cs, rfl, hentries, hcs⟩ := List.map_eq_append_iff.mp hus
    obtain ⟨close, rfl, hclose⟩ := List.map_eq_singleton_iff.mp hcs
    obtain ⟨ho, -⟩ := Prod.mk.inj ho
    obtain ⟨hclose, -⟩ := Prod.mk.inj hclose
    simp only [List.length_append, List.length_cons, List.length_nil] at hfuel
    obtain ⟨fuel, rfl⟩ : ∃ n, fuel = n + 1 := ⟨fuel - 1, by omega⟩
    have hitems := h.parses fuel .empty us close rest hentries hclose (by omega) hd fun e he =>
      ⟨hkeys e he, by simp [Table.keys, Table.empty]⟩
    simpa [value, ho, Table.empty] using hitems

theorem exists_reads (h : v.IsNormal) : ∃ ps, Reads v ps := by
  induction h with
  | null => exact ⟨_, reads_word (by rw [write]; rfl) (by decide) rfl⟩
  | bool b =>
    cases b with
    | false => exact ⟨_, reads_word (by rw [write]; rfl) (by decide) rfl⟩
    | true => exact ⟨_, reads_word (by rw [write]; rfl) (by decide) rfl⟩
  | int n => exact exists_reads_int n
  | string s => exact ⟨_, reads_string s⟩
  | array hd hkeys _ ih =>
    obtain ⟨ps, hps⟩ := exists_readsEntries ih
    exact ⟨_, hps.reads_array hd hkeys⟩

theorem Reads.evaluate (h : Reads v ps) : evaluate (write v) = some v := by
  obtain ⟨ts, hts, hpieces⟩ := (h.spells [] .nil).tokenize
  have hsignificant : (ts.filter (!·.isTrivia)).map piece = significant ps := by
    rw [← hpieces, significant, List.filter_map]
    rfl
  have hvalue := h.parses (2 * (ts.filter (!·.isTrivia)).length + 1) _ [] hsignificant (by omega)
  rw [List.append_nil] at hvalue
  rw [← h.text, Literal.evaluate, hts]
  simp only [hvalue]

/-- A constant without floating-point numbers is what its literal denotes: printing, quoting, the lexer, the numbers and
the array builder undo each other. So a text is what its quoted form denotes. -/
theorem evaluate_write :
    (∀ v : Value, v.IsNormal → evaluate (write v) = some v) ∧ ∀ s : Bytes, evaluate (Quoted.encode s) = some (.string s) := by
  have hall : ∀ v : Value, v.IsNormal → evaluate (write v) = some v := by
    intro v hv
    obtain ⟨ps, hps⟩ := exists_reads hv
    exact hps.evaluate
  refine ⟨hall, fun s => ?_⟩
  have hs := hall (.string s) (.string s)
  rwa [write] at hs

/-- A nested array with a quote and a backslash at the end of a text, the least integer, a negative key, and names that
only look like integers. -/
def sample : Value :=
  .array [(.int (-5), .string "it's \\"), (.name "007", .array []),
    (.name "-0", .array [(.name "", .int Int64.minValue), (.int 0, .null), (.name "'", .bool false)])]

theorem evaluate_write_sample : sample.IsNormal ∧
    write sample = "[-5 => 'it\\'s \\\\', '007' => [], '-0' => ['' => -9223372036854775808, 0 => null, '\\'' => false]]" ∧
    evaluate (write sample) = some sample := by
  have hinner : Value.IsNormal (.array [(.name "", .int Int64.minValue), (.int 0, .null), (.name "'", .bool false)]) := by
    refine .array (by decide) (by decide) ?_
    simp only [List.forall_mem_cons]
    exact ⟨.int _, .null, .bool _, by simp⟩
  have hnormal : sample.IsNormal := by
    refine .array (by decide) (by decide) ?_
    simp only [List.forall_mem_cons]
    exact ⟨.string _, .array (by decide) (by simp) (by simp), hinner, by simp⟩
  exact ⟨hnormal, by rfl, evaluate_write.1 sample hnormal⟩

end Literal

end Stencil
