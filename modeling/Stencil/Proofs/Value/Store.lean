import Stencil.Proofs.Value.Table

/-! Arrays kept apart: the keys in the order in which they came, and the value of each. Setting a key looks for it among
the values alone, so nothing but the way an array is built keeps the two in step. Every store that entries build has a
value for just the keys it lists, each once, and shows what the table of the same entries shows. -/

namespace Stencil

open Literal (Entry addEntry)
open Merge (lookup?_cons lookup?_setEntry map_fst_setEntry)
open Script (lookup?)

/-- The keys in order, their values, and the next integer key. -/
structure Store where
  keys : List Key
  values : Key → Option Value
  next : Int64

namespace Store

def empty : Store := ⟨[], fun _ => none, 0⟩

/-- A key that has no value yet goes behind the others. -/
def setKey (s : Store) (key : Key) (v : Value) : Store where
  keys := if (s.values key).isSome then s.keys else s.keys ++ [key]
  values := Function.update s.values key (some v)
  next := Table.bump s.next key

def add (s : Store) : Entry → Store
  | (none, v) => s.setKey (.int s.next) v
  | (some key, v) => s.setKey (.ofValue key) v

def get? (s : Store) (key : Value) : Option Value := s.values (.ofValue key)

/-- The keys in order, each with the value it has. -/
def each (s : Store) : List (Key × Option Value) := s.keys.map fun key => (key, s.values key)

/-- A table taken apart. -/
def ofTable (t : Table) : Store := ⟨t.keys, t.find?, t.next⟩

variable {es : List (Key × Value)} {key : Key}

theorem isSome_lookup? : (lookup? es key).isSome ↔ key ∈ es.map (·.1) := by
  induction es with
  | nil => simp [lookup?]
  | cons e es ih =>
    rw [lookup?_cons]
    by_cases h : e.1 = key
    · simp [h]
    · simpa [h, Ne.symm h] using ih

theorem ofTable_setKey (t : Table) (key : Key) (v : Value) : ofTable (t.setKey key v) = (ofTable t).setKey key v := by
  have hkeys : (t.setKey key v).keys = if (t.find? key).isSome then t.keys else t.keys ++ [key] := by
    rw [Table.find?_eq_lookup?, Table.keys, Table.keys]
    simp only [isSome_lookup?]
    exact map_fst_setEntry key v t.entries
  have hvalues : (t.setKey key v).find? = Function.update t.find? key (some v) := by
    funext other
    rw [Function.update_apply]
    exact (lookup?_setEntry key other v t.entries).trans (if_congr eq_comm rfl rfl)
  rw [ofTable, hkeys, hvalues]
  rfl

/-- One entry more does the same to a table and to the store it is taken apart into. -/
theorem ofTable_addEntry (t : Table) (e : Entry) : ofTable (addEntry t e) = (ofTable t).add e := by
  obtain ⟨_ | key, v⟩ := e
  · exact ofTable_setKey t (.int t.next) v
  · exact ofTable_setKey t (.ofValue key) v

theorem foldl_add (es : List Entry) : es.foldl add empty = ofTable (Table.ofEntries es) := by
  induction es using List.reverseRecOn with
  | nil => rfl
  | append_singleton es e ih => rw [List.foldl_concat, ih, Table.ofEntries_append, ofTable_addEntry]

theorem lookup?_of_mem (hdistinct : (es.map (·.1)).Nodup) {e : Key × Value} (he : e ∈ es) :
    lookup? es e.1 = some e.2 := by
  have hmem : e.2 ∈ Merge.values e.1 es := List.mem_map.mpr ⟨e, List.mem_filter.mpr ⟨he, by simp⟩, rfl⟩
  rw [Merge.values_of_nodup hdistinct] at hmem
  exact Option.mem_toList.mp hmem

theorem each_ofTable {t : Table} (h : t.keys.Nodup) : (ofTable t).each = t.entries.map fun e => (e.1, some e.2) := by
  rw [each, ofTable, Table.keys, List.map_map]
  exact List.map_congr_left fun e he => Prod.ext rfl (lookup?_of_mem h he)

/-- The keys and the values of a store agree, and it shows the same as the table. -/
theorem build_agrees (es : List Entry) :
    (es.foldl add empty).keys.Nodup ∧
    (∀ key, ((es.foldl add empty).values key).isSome ↔ key ∈ (es.foldl add empty).keys) ∧
    (es.foldl add empty).keys = (Table.ofEntries es).keys ∧
    (∀ key, (es.foldl add empty).get? key = (Table.ofEntries es).get? key) ∧
    (es.foldl add empty).each = (Table.ofEntries es).entries.map fun e => (e.1, some e.2) := by
  have hdistinct : (Table.ofEntries es).keys.Nodup := by
    rw [Table.keys_ofEntries]
    exact nodup_eraseDups _
  rw [foldl_add]
  exact ⟨hdistinct, fun key => isSome_lookup?, rfl, fun _ => rfl, each_ofTable hdistinct⟩

end Store

end Stencil
