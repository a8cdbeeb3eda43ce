import Stencil.Proofs.Literal.Grammar
import Stencil.Proofs.Merge.Entries
import Stencil.Proofs.Value.Key

/-! Tables built entry by entry. A table maps keys to the values set under them last, in the order in which the keys came
first. An entry without a key gets the next one: the least that is neither negative nor below a key used before, until the
greatest integer has been used. From then on the keys start over at the least integer, and may have been taken. -/

namespace Stencil.Table

open Literal (Entry addEntry)
open Merge (values literal update map_fst_setEntry lookup?_setEntry)
open Script (lookup?)

variable {t : Table} {es : List Entry} {key : Key} {v : Value}

def ofEntries (es : List Entry) : Table := es.foldl addEntry .empty

/-- The key that an entry is set under: the one its own stands for, or the next one of the table. -/
def keyOf (t : Table) : Entry → Key
  | (none, _) => .int t.next
  | (some key, _) => .ofValue key

/-- What the entries set, one after the other. -/
def writes (es : List Entry) : List (Key × Value) :=
  es.mapIdx fun i e => ((ofEntries (es.take i)).keyOf e, e.2)

theorem addEntry_eq (t : Table) (e : Entry) : addEntry t e = t.setKey (t.keyOf e) e.2 := by
  obtain ⟨key, v⟩ := e
  cases key <;> rfl

theorem ofEntries_append (es : List Entry) (e : Entry) : ofEntries (es ++ [e]) = addEntry (ofEntries es) e := by
  unfold ofEntries
  rw [List.foldl_concat]

theorem writes_append (es : List Entry) (e : Entry) :
    writes (es ++ [e]) = writes es ++ [((ofEntries es).keyOf e, e.2)] := by
  have hfront : es.mapIdx (fun i e' => ((ofEntries ((es ++ [e]).take i)).keyOf e', e'.2)) = writes es := by
    refine List.mapIdx_eq_mapIdx_iff.mpr fun i hi => ?_
    rw [List.take_append_of_le_length (Nat.le_of_lt hi)]
  unfold writes at hfront ⊢
  rw [List.mapIdx_concat, hfront, List.take_left]

theorem number?_ne_array {text : Bytes} {negative : Bool} {entries : List (Key × Value)} :
    Literal.number? text negative ≠ some (.array entries) := by
  unfold Literal.number?
  dsimp only
  split
  · simp
  · intro h
    obtain ⟨x, -, hx⟩ := Option.map_eq_some_iff.mp h
    cases hx

/-- What a literal of an array denotes is a table that its entries build. -/
theorem exists_ofEntries_of_evaluate {src : Bytes} {entries : List (Key × Value)}
    (h : Literal.evaluate src = some (.array entries)) : ∃ es, (ofEntries es).entries = entries := by
  obtain ⟨ts, -, hforms⟩ := Literal.evaluate_eq_some_iff.mp h
  generalize hform : Literal.Form.literal (.array entries) = form at hforms
  generalize Literal.significant (ts.map Token.piece) = ps at hforms
  cases hforms with
  | number h | plus h | minus h =>
    cases hform
    exact absurd h number?_ne_array
  | word h =>
    cases hform
    simp [Literal.constants] at h
  | brackets | array =>
    cases hform
    exact ⟨_, rfl⟩
  | single | double | plain | keyed | nil | last | cons => cases hform

/-- The entries of a table are the last values of its keys, each key at its first place. -/
theorem entries_ofEntries (es : List Entry) : (ofEntries es).entries = literal (writes es) := by
  induction es using List.reverseRecOn with
  | nil => rfl
  | append_singleton es e ih =>
    rw [ofEntries_append, addEntry_eq, writes_append]
    unfold literal at ih ⊢
    rw [List.foldl_concat, ← ih]
    rfl

theorem find?_eq_lookup? (t : Table) (key : Key) : t.find? key = lookup? t.entries key := rfl

theorem find?_ofEntries (es : List Entry) (key : Key) : (ofEntries es).find? key = (values key (writes es)).getLast? := by
  rw [find?_eq_lookup?, entries_ofEntries, literal, Merge.lookup?_foldl_update, Merge.foldl_some]
  exact Option.or_none

theorem keys_ofEntries (es : List Entry) : (ofEntries es).keys = ((writes es).map (·.1)).eraseDups := by
  rw [keys, entries_ofEntries, Merge.map_fst_literal]

theorem mem_keys_ofEntries : key ∈ (ofEntries es).keys ↔ key ∈ (writes es).map (·.1) := by
  rw [keys_ofEntries, List.mem_eraseDups]

/-- A table is a map in the order in which its keys came first, and the key of a value is settled: for a text, it is an
integer just if the text writes one of 64 bits in decimal, and it has the text of the value. An entry without a key has
the counter of the table, which `isNext_of_not_mem` and `isNext_since` below settle: it is `IsNext` to the keys so far. -/
theorem ofEntries_ordered (es : List Entry) :
    (ofEntries es).keys.Nodup ∧ (ofEntries es).size = (ofEntries es).keys.length ∧
    (ofEntries es).keys = ((writes es).map (·.1)).eraseDups ∧
    (∀ key, (ofEntries es).get? key = (((writes es).filter (·.1 = .ofValue key)).map (·.2)).getLast?) ∧
    (∀ v, Key.ofValue (Key.ofValue v).toValue = .ofValue v) ∧
    (∀ s : Bytes, (Key.ofValue (.string s)).toValue.text = s) ∧
    (∀ (s : Bytes) (n : Int64), Key.ofValue (.string s) = .int n ↔ s.Writes n.toInt) := by
  refine ⟨?_, ?_, keys_ofEntries es, fun key => find?_ofEntries es _, Key.ofValue_toValue_ofValue, Key.text_ofText,
    fun s n => Key.ofText_eq_int_iff⟩
  · rw [keys_ofEntries]
    exact nodup_eraseDups _
  · rw [size, keys, List.length_map]

/-- A text in decimal and the integer are one key; a text with a zero in front is another. -/
example : (ofEntries [(some (.string "7"), .bool true), (none, .null), (some (.string "07"), .null),
    (some (.int 7), .bool false)]).entries =
      [(.int 7, .bool false), (.int 8, .null), (.name "07", .null)] := by rfl

/-- The least integer from `start` on that is above all integers among the keys. -/
structure IsNext (start : Int64) (keys : List Key) (n : Int64) : Prop where
  start_le : start ≤ n
  above : ∀ m, .int m ∈ keys → m < n
  least : ∀ b, start ≤ b → (∀ m, .int m ∈ keys → m < b) → n ≤ b

theorem IsNext.unique {start n m : Int64} {keys : List Key} (hn : IsNext start keys n) (hm : IsNext start keys m) : n = m :=
  Int64.le_antisymm (hn.least m hm.start_le hm.above) (hm.least n hn.start_le hn.above)

theorem toInt_succ {n : Int64} (h : n ≠ Int64.maxValue) : (n + 1).toInt = n.toInt + 1 := by
  have hlow := n.le_toInt
  have hhigh := n.toInt_lt
  have hmax : n.toInt ≠ 2 ^ 63 - 1 := fun heq => h (Int64.toInt_inj.mp (heq.trans Int64.toInt_maxValue.symm))
  have hone : (1 : Int64).toInt = 1 := rfl
  rw [Int64.toInt_add, hone]
  apply Int.bmod_eq_of_le <;> omega

/-- Past the greatest integer, the keys start over. -/
theorem bump_max (n : Int64) : bump n (.int Int64.maxValue) = Int64.minValue := by
  rw [bump, if_pos n.le_maxValue]
  rfl

/-- One more key moves the next one behind it, if that is not there already. -/
theorem IsNext.concat {start n : Int64} {keys : List Key} (h : IsNext start keys n) (hkey : key ≠ .int Int64.maxValue) :
    IsNext start (keys ++ [key]) (bump n key) := by
  cases key with
  | name s =>
    refine ⟨h.start_le, ?_, ?_⟩
    · intro m hm
      exact h.above m (by simpa using hm)
    · intro b hb habove
      exact h.least b hb fun m hm => habove m (List.mem_append_left _ hm)
  | int m =>
    have hmem (k : Int64) : Key.int k ∈ keys ++ [.int m] ↔ Key.int k ∈ keys ∨ k = m := by simp
    rw [bump]
    split
    next hle =>
      have hsucc : (m + 1).toInt = m.toInt + 1 := by
        apply toInt_succ
        rintro rfl
        exact hkey rfl
      have hstart := h.start_le
      rw [Int64.le_iff_toInt_le] at hle hstart
      refine ⟨?_, ?_, ?_⟩
      · rw [Int64.le_iff_toInt_le]
        omega
      · intro k hk
        rw [Int64.lt_iff_toInt_lt, hsucc]
        rcases (hmem k).mp hk with hk | rfl
        · have habove := Int64.lt_iff_toInt_lt.mp (h.above k hk)
          omega
        · omega
      · intro b _ habove
        have hm := Int64.lt_iff_toInt_lt.mp (habove m ((hmem m).mpr (.inr rfl)))
        rw [Int64.le_iff_toInt_le]
        omega
    next hlt =>
      refine ⟨h.start_le, ?_, ?_⟩
      · intro k hk
        rcases (hmem k).mp hk with hk | rfl
        · exact h.above k hk
        · exact Int64.not_le.mp hlt
      · intro b hb habove
        exact h.least b hb fun k hk => habove k ((hmem k).mpr (.inl hk))

theorem isNext_foldl_bump {start : Int64} {keys : List Key} (h : .int Int64.maxValue ∉ keys) :
    IsNext start keys (keys.foldl bump start) := by
  induction keys using List.reverseRecOn with
  | nil =>
    refine ⟨Int64.le_refl _, ?_, fun b hb _ => hb⟩
    intro m hm
    cases hm
  | append_singleton keys key ih =>
    obtain ⟨hkeys, hkey⟩ := not_or.mp fun hmem => h (List.mem_append.mpr hmem)
    rw [List.foldl_concat]
    exact (ih hkeys).concat fun heq => hkey (List.mem_singleton.mpr heq.symm)

theorem next_ofEntries (es : List Entry) : (ofEntries es).next = ((writes es).map (·.1)).foldl bump 0 := by
  induction es using List.reverseRecOn with
  | nil => rfl
  | append_singleton es e ih =>
    rw [ofEntries_append, addEntry_eq, writes_append, List.map_append, List.map_singleton, List.foldl_concat, ← ih]
    rfl

/-- As long as the greatest integer is not used, the next key is above all others. -/
theorem isNext_of_not_mem (h : .int Int64.maxValue ∉ (ofEntries es).keys) :
    IsNext 0 ((writes es).map (·.1)) (ofEntries es).next := by
  rw [mem_keys_ofEntries] at h
  rw [next_ofEntries]
  exact isNext_foldl_bump h

/-- Once the greatest integer was used, the next key is above those used since. -/
theorem isNext_since {before after : List Key} (hkeys : (writes es).map (·.1) = before ++ .int Int64.maxValue :: after)
    (hafter : .int Int64.maxValue ∉ after) : IsNext Int64.minValue after (ofEntries es).next := by
  rw [next_ofEntries, hkeys, List.foldl_append, List.foldl_cons, bump_max]
  exact isNext_foldl_bump hafter

theorem keys_append (t : Table) (v : Value) :
    (t.append v).keys = if .int t.next ∈ t.keys then t.keys else t.keys ++ [.int t.next] := map_fst_setEntry ..

theorem find?_append (t : Table) (v : Value) (key : Key) :
    (t.append v).find? key = if .int t.next = key then some v else t.find? key := lookup?_setEntry ..

/-- An appended value is a new entry just if the next key is not taken. -/
theorem append_adds_iff_not_mem :
    (∃ key, key ∉ t.keys ∧ (t.append v).entries = t.entries ++ [(key, v)]) ↔ .int t.next ∉ t.keys := by
  constructor
  · rintro ⟨key, -, hadds⟩ hmem
    have hkeys := keys_append t v
    rw [if_pos hmem, keys, keys, hadds, List.map_append] at hkeys
    exact absurd hkeys (by simp)
  · intro hnew
    exact ⟨_, hnew, setEntry_of_not_mem hnew⟩

theorem exists_eq_append_cons {α : Type} {a : α} {l : List α} (h : a ∈ l) :
    ∃ before after, l = before ++ a :: after ∧ a ∉ after := by
  obtain ⟨after, before, hreverse, hnot⟩ := List.eq_append_cons_of_mem (List.mem_reverse.mpr h)
  refine ⟨before.reverse, after.reverse, ?_, by simpa using hnot⟩
  rw [← List.reverse_reverse l, hreverse, List.reverse_append, List.reverse_cons, List.append_assoc,
    List.singleton_append]

/-- The greatest integer is among the keys, and so is the least integer above all those that come after its last place. -/
def Crowded (keys : List Key) : Prop :=
  ∃ before after n, keys = before ++ .int Int64.maxValue :: after ∧ .int Int64.maxValue ∉ after ∧
    IsNext Int64.minValue after n ∧ .int n ∈ keys

/-- The next key is taken just if the integers are used up and those used since then have reached one of before. -/
theorem next_mem_keys_iff : .int (ofEntries es).next ∈ (ofEntries es).keys ↔ Crowded ((writes es).map (·.1)) := by
  unfold Crowded
  rw [mem_keys_ofEntries]
  constructor
  · intro hmem
    by_cases hmax : .int Int64.maxValue ∈ (ofEntries es).keys
    · obtain ⟨before, after, hkeys, hafter⟩ := exists_eq_append_cons (mem_keys_ofEntries.mp hmax)
      exact ⟨before, after, _, hkeys, hafter, isNext_since hkeys hafter, hmem⟩
    · exact absurd ((isNext_of_not_mem hmax).above _ hmem) Int64.lt_irrefl
  · rintro ⟨before, after, n, hkeys, hafter, hn, hmem⟩
    rwa [(isNext_since hkeys hafter).unique hn]

/-- A table that entries build gets a new entry at the end from an appended value, unless the greatest integer has been a
key and the least integer above all those that were keys since then is a key, too. The value then takes the place of that
key's. The array of a literal is such a table. -/
theorem append_adds_iff (es : List Entry) (v : Value) :
    ((∃ key, key ∉ (ofEntries es).keys ∧ ((ofEntries es).append v).entries = (ofEntries es).entries ++ [(key, v)]) ↔
      ¬ Crowded ((writes es).map (·.1))) ∧
    (Crowded ((writes es).map (·.1)) → ((ofEntries es).append v).keys = (ofEntries es).keys ∧
      ∀ key, ((ofEntries es).append v).find? key =
        if .int (ofEntries es).next = key then some v else (ofEntries es).find? key) ∧
    (∀ src entries, Literal.evaluate src = some (.array entries) → ∃ es, (ofEntries es).entries = entries) := by
  rw [append_adds_iff_not_mem, ← next_mem_keys_iff]
  refine ⟨Iff.rfl, ?_, fun _ _ => exists_ofEntries_of_evaluate⟩
  intro hmem
  exact ⟨(keys_append ..).trans (if_pos hmem), fun key => find?_append ..⟩

/-- Behind the least and the greatest integer, a value without a key is set under the least. -/
theorem append_overwrites :
    Literal.evaluate "[-9223372036854775808 => 'a', 9223372036854775807 => 'b', 'c']" =
      some (.array [(.int Int64.minValue, .string "c"), (.int Int64.maxValue, .string "b")]) ∧
    ¬ ∀ (es : List Entry) (v : Value), ∃ key, key ∉ (ofEntries es).keys ∧
      ((ofEntries es).append v).entries = (ofEntries es).entries ++ [(key, v)] := by
  refine ⟨by rfl, ?_⟩
  intro h
  refine append_adds_iff_not_mem.mp (h [(some (.int Int64.minValue), .string "a"), (some (.int Int64.maxValue), .string "b")]
    (.string "c")) ?_
  decide

end Stencil.Table
