import Stencil.Proofs.Literal.Grammar

/-! Literals of any layout. A text is laid out as a form if it is read as pieces of it wherever a literal may stand. The
texts of arrays are put together from those of their entries, with any spaces between them and perhaps a comma behind the
last. -/

namespace Stencil.Literal

open Token (Kind Spells Stops)

/-- The text is read as pieces that form it, and starts with the first of them. -/
def LaidOut (form : Form) (text : Bytes) : Prop :=
  ∃ ps, ps.flatMap (·.2) = text ∧ Opens ps ∧ (∀ z, Stops z → Spells ps z) ∧ Forms form (significant ps)

/-- The text before a closing bracket is read as pieces that form the entries. -/
def Filled (es : List Entry) (text : Bytes) : Prop :=
  ∃ ps, ps.flatMap (·.2) = text ∧ (∀ z, Spells ps (Ascii.rbracket :: z)) ∧ Forms (.entries es) (significant ps)

/-- The piece of spaces, if there are any. -/
def blank (w : Bytes) : List (Kind × Bytes) := if w = [] then [] else [(.whitespace, w)]

variable {e : Entry} {es : List Entry} {key v : Value} {s t w : Bytes} {ps : List (Kind × Bytes)}

theorem flatMap_blank (w : Bytes) : (blank w).flatMap (·.2) = w := by
  unfold blank
  split <;> simp_all

theorem significant_blank (w : Bytes) : significant (blank w) = [] := by
  unfold blank
  split <;> rfl

theorem spells_blank (hw : ∀ c ∈ w, Ascii.isSpace c) {z : Bytes} (hz : ∀ c ∈ z.head?, Ascii.isSpace c = false) :
    Spells (blank w) z := by
  unfold blank
  split
  next => exact .nil z
  next hne => exact Token.spells_spaces hne hw hz

theorem Reads.laidOut (h : Reads v ps) : LaidOut (.literal v) (write v) :=
  ⟨ps, h.text, h.opens, h.spells, h.forms⟩

theorem laidOut_int (n : Int64) : LaidOut (.literal (.int n)) (Bytes.ofInt n.toInt) := by
  obtain ⟨ps, hps⟩ := exists_reads_int n
  have h := hps.laidOut
  rwa [write] at h

theorem laidOut_string (s : Bytes) : LaidOut (.literal (.string s)) (Quoted.encode s) := by
  have h := (reads_string s).laidOut
  rwa [write] at h

theorem LaidOut.plain (h : LaidOut (.literal v) s) : LaidOut (.entry (none, v)) s := by
  obtain ⟨ps, htext, hopens, hspells, hforms⟩ := h
  exact ⟨ps, htext, hopens, hspells, .plain hforms⟩

theorem LaidOut.keyed (hkey : LaidOut (.literal key) s) (hscalar : key.isArray = false) (h : LaidOut (.literal v) t) :
    LaidOut (.entry (some key, v)) (s ++ " => " ++ t) := by
  obtain ⟨ks, rfl, hopens, hspells, hforms⟩ := hkey
  obtain ⟨ps, rfl, hopens', hspells', hforms'⟩ := h
  refine ⟨ks ++ (arrow ++ ps), ?_, hopens.append _, fun z hz => ?_, ?_⟩
  · rw [List.flatMap_append, List.flatMap_append, List.append_assoc]
    rfl
  · refine .append (hspells _ (.cons _ (.inr (.inr rfl)))) (.append (Token.spells_arrow ?_) (hspells' z hz))
    exact hopens'.head z
  · rw [significant_append, significant_append]
    exact .keyed hforms hscalar hforms'

theorem filled_nil (hw : ∀ c ∈ w, Ascii.isSpace c) : Filled [] w :=
  ⟨blank w, flatMap_blank w, fun _ => spells_blank hw (by rintro c ⟨⟩; rfl), significant_blank w ▸ .nil⟩

theorem LaidOut.last (h : LaidOut (.entry e) s) (hw : ∀ c ∈ w, Ascii.isSpace c) : Filled [e] (w ++ s) := by
  obtain ⟨ps, rfl, hopens, hspells, hforms⟩ := h
  refine ⟨blank w ++ ps, ?_, fun z => ?_, ?_⟩
  · rw [List.flatMap_append, flatMap_blank]
  · exact .append (spells_blank hw (hopens.head _)) (hspells _ (.cons _ (.inr (.inl rfl))))
  · rw [significant_append, significant_blank]
    exact .last hforms

theorem LaidOut.cons (h : LaidOut (.entry e) s) (hw : ∀ c ∈ w, Ascii.isSpace c) (hes : Filled es t) :
    Filled (e :: es) (w ++ s ++ "," ++ t) := by
  obtain ⟨ps, rfl, hopens, hspells, hforms⟩ := h
  obtain ⟨qs, rfl, hrest, hentries⟩ := hes
  refine ⟨blank w ++ (ps ++ ([(.comma, [Ascii.comma])] ++ qs)), ?_, fun z => ?_, ?_⟩
  · simp only [List.flatMap_append, flatMap_blank, List.append_assoc]
    rfl
  · have hcomma : Spells [(.comma, [Ascii.comma])] (qs.flatMap (·.2) ++ Ascii.rbracket :: z) := .single rfl
    refine .append (spells_blank hw ?_) (.append (hspells _ ?_) (hcomma.append (hrest z)))
    · rw [List.flatMap_append, List.append_assoc]
      exact hopens.head _
    · exact .cons _ (.inl rfl)
  · rw [significant_append, significant_blank, significant_append, significant_append]
    exact .cons hforms hentries

theorem Filled.laidOut (h : Filled es t) : LaidOut (.literal (arrayOf es)) ("[" ++ t ++ "]") := by
  obtain ⟨ps, rfl, hspells, hforms⟩ := h
  refine ⟨[(.lbracket, [Ascii.lbracket])] ++ (ps ++ [(.rbracket, [Ascii.rbracket])]), ?_,
    ⟨.lbracket, Ascii.lbracket, [], _, rfl, by decide, rfl⟩, fun z _ => ?_, ?_⟩
  · rw [List.flatMap_append, List.flatMap_append]
    rfl
  · exact .append (Token.spells_lbracket _) (.append (hspells z) (Token.spells_rbracket z))
  · rw [significant_append, significant_append]
    exact .brackets hforms

theorem LaidOut.evaluate (h : LaidOut (.literal v) s) : evaluate s = some v := by
  obtain ⟨ps, rfl, -, hspells, hforms⟩ := h
  obtain ⟨ts, hts, hpieces⟩ := (hspells [] .nil).tokenize
  exact evaluate_eq_some_iff.mpr ⟨ts, hts, hpieces ▸ hforms⟩

/-- Entries with keys of their own that no entry of the table has are added behind its entries. -/
theorem entries_foldl_addEntry {es : List (Key × Value)} {table : Table} (hdistinct : (es.map (·.1)).Nodup)
    (hkeys : ∀ e ∈ es, Key.ofValue e.1.toValue = e.1) (hnew : ∀ e ∈ es, e.1 ∉ table.keys) :
    ((es.map fun e => (some e.1.toValue, e.2)).foldl addEntry table).entries = table.entries ++ es := by
  induction es generalizing table with
  | nil => simp
  | cons e es ih =>
    obtain ⟨hkey, hkeys⟩ := List.forall_mem_cons.mp hkeys
    obtain ⟨hfresh, hnew⟩ := List.forall_mem_cons.mp hnew
    obtain ⟨hmem, hdistinct⟩ := List.nodup_cons.mp hdistinct
    have hset : (addEntry table (some e.1.toValue, e.2)).entries = table.entries ++ [e] := by
      rw [addEntry, Table.set, hkey]
      exact setEntry_of_not_mem hfresh
    rw [List.map_cons, List.foldl_cons, ih hdistinct hkeys ?_, hset, List.append_assoc, List.singleton_append]
    intro e' he'
    rw [Table.keys, hset, List.map_append, List.mem_append, not_or]
    refine ⟨hnew e' he', fun h => hmem ?_⟩
    rw [List.map_singleton, List.mem_singleton] at h
    exact List.mem_map.mpr ⟨e', he', h⟩

end Stencil.Literal
