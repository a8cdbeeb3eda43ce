import Stencil.Merge
import Stencil.Proofs.Distinct
import Stencil.Proofs.Script.Language
import Mathlib.Tactic

/-! Entries set one after another. The keys are those that were set, each at its first place, and what a key holds is made
from the values set under it, in order: of a literal it is the last, of merged sets the last too but for class and style,
whose values are collected. -/

namespace Stencil

open Script (lookup?)

namespace Merge

variable {es ds : List (Key × Value)} {key : Key}

def values (key : Key) (es : List (Key × Value)) : List Value := (es.filter (·.1 = key)).map (·.2)

@[simp] theorem values_append (key : Key) (es ds : List (Key × Value)) :
    values key (es ++ ds) = values key es ++ values key ds := by
  rw [values, List.filter_append, List.map_append, values, values]

theorem values_cons (key : Key) (e : Key × Value) (es : List (Key × Value)) :
    values key (e :: es) = if e.1 = key then e.2 :: values key es else values key es := by
  rw [values, List.filter_cons]
  by_cases h : e.1 = key <;> simp [h, values]

theorem values_eq_nil (h : key ∉ es.map (·.1)) : values key es = [] := by
  rw [values, List.filter_eq_nil_iff.mpr, List.map_nil]
  intro e he hkey
  exact h (List.mem_map.mpr ⟨e, he, by simpa using hkey⟩)

theorem lookup?_cons (key : Key) (e : Key × Value) (es : List (Key × Value)) :
    lookup? (e :: es) key = if e.1 = key then some e.2 else lookup? es key := by
  rw [lookup?, List.find?_cons]
  by_cases h : e.1 = key <;> simp [h, lookup?]

theorem lookup?_eq_none (h : key ∉ es.map (·.1)) : lookup? es key = none := by
  refine Option.map_eq_none_iff.mpr (List.find?_eq_none.mpr fun e he hkey => ?_)
  exact h (List.mem_map.mpr ⟨e, he, by simpa using hkey⟩)

theorem values_of_nodup (h : (es.map (·.1)).Nodup) (key : Key) : values key es = (lookup? es key).toList := by
  induction es with
  | nil => rfl
  | cons e es ih =>
    obtain ⟨hnew, hes⟩ := List.nodup_cons.mp h
    rw [values_cons, lookup?_cons]
    split
    next hkey =>
      subst hkey
      rw [values_eq_nil hnew]
      rfl
    next => exact ih hes

theorem eq_of_lookup? (hkeys : es.map (·.1) = ds.map (·.1)) (hdistinct : (es.map (·.1)).Nodup)
    (h : ∀ key, lookup? es key = lookup? ds key) : es = ds := by
  induction es generalizing ds with
  | nil => exact (List.map_eq_nil_iff.mp hkeys.symm).symm
  | cons e es ih =>
    cases ds with
    | nil => cases hkeys
    | cons d ds =>
      obtain ⟨hkey, hrest⟩ := List.cons_eq_cons.mp hkeys
      obtain ⟨hnew, hes⟩ := List.nodup_cons.mp hdistinct
      have hvalue : e.2 = d.2 := by simpa [lookup?_cons, hkey] using h e.1
      refine List.cons_eq_cons.mpr ⟨Prod.ext hkey hvalue, ih hrest hes fun key => ?_⟩
      by_cases heq : e.1 = key
      · subst heq
        rw [lookup?_eq_none hnew, lookup?_eq_none (hrest ▸ hnew)]
      · simpa [lookup?_cons, heq, ← hkey] using h key

theorem map_fst_setEntry (key : Key) (v : Value) (es : List (Key × Value)) :
    (setEntry key v es).map (·.1) = if key ∈ es.map (·.1) then es.map (·.1) else es.map (·.1) ++ [key] := by
  induction es with
  | nil => rfl
  | cons e es ih =>
    rw [setEntry]
    split
    next h => simp [h]
    next h =>
      rw [List.map_cons, ih]
      split
      next hmem => simp [hmem]
      next hmem => simp [hmem, Ne.symm h]

theorem lookup?_setEntry (key other : Key) (v : Value) (es : List (Key × Value)) :
    lookup? (setEntry key v es) other = if key = other then some v else lookup? es other := by
  induction es with
  | nil => rw [setEntry, lookup?_cons]
  | cons e es ih =>
    rw [setEntry]
    split
    next h =>
      rw [lookup?_cons, lookup?_cons, h]
      split <;> rfl
    next h =>
      rw [lookup?_cons, lookup?_cons, ih]
      split
      next heq => rw [if_neg (fun hkey => h (heq.trans hkey.symm))]
      next => rfl

def update (f : Key → Option Value → Value → Value) (es : List (Key × Value)) (e : Key × Value) : List (Key × Value) :=
  setEntry e.1 (f e.1 (lookup? es e.1) e.2) es

variable (f : Key → Option Value → Value → Value)

theorem map_fst_foldl_update (l es : List (Key × Value)) (h : (es.map (·.1)).Nodup) :
    (l.foldl (update f) es).map (·.1) = (es.map (·.1) ++ l.map (·.1)).eraseDups := by
  induction l generalizing es with
  | nil => rw [List.map_nil, List.append_nil, eraseDups_of_nodup h, List.foldl_nil]
  | cons e l ih =>
    have hstep := map_fst_setEntry e.1 (f e.1 (lookup? es e.1) e.2) es
    have hdistinct : ((update f es e).map (·.1)).Nodup := by
      rw [update, hstep]
      split
      next => exact h
      next hnew => exact List.concat_eq_append ▸ h.concat hnew
    rw [List.foldl_cons, ih _ hdistinct, update, hstep, List.map_cons]
    split
    next hmem =>
      -- a key that is there already adds nothing
      have hsame : (es.map (·.1) ++ [e.1]).eraseDups = (es.map (·.1)).eraseDups := by
        rw [eraseDups_append_of_nodup (List.nodup_singleton e.1), List.removeAll, eraseDups_of_nodup h]
        simp [hmem]
      rw [List.append_cons, ← eraseDups_append_left (es.map (·.1) ++ [e.1]), hsame, eraseDups_append_left]
    next => rw [List.append_assoc, List.singleton_append]

theorem nodup_foldl_update (l : List (Key × Value)) : ((l.foldl (update f) []).map (·.1)).Nodup := by
  rw [map_fst_foldl_update f l [] List.nodup_nil]
  exact nodup_eraseDups _

theorem lookup?_foldl_update (l es : List (Key × Value)) (key : Key) :
    lookup? (l.foldl (update f) es) key = (values key l).foldl (fun o v => some (f key o v)) (lookup? es key) := by
  induction l generalizing es with
  | nil => rfl
  | cons e l ih =>
    rw [List.foldl_cons, ih, update, lookup?_setEntry, values_cons]
    split
    next h =>
      subst h
      rfl
    next => rfl

theorem foldl_some (vs : List Value) (o : Option Value) : vs.foldl (fun _ v => some v) o = vs.getLast?.or o := by
  induction vs generalizing o with
  | nil => rfl
  | cons v vs ih =>
    rw [List.foldl_cons, ih, List.getLast?_cons]
    cases vs.getLast? <;> rfl

/-- The array of a literal: the last value of a key, at the key's first place. -/
def literal (es : List (Key × Value)) : List (Key × Value) := es.foldl (update fun _ _ v => v) []

/-- The value of a key that had the value `prev`, once `v` is merged into it. -/
def joined (key : Key) (prev : Option Value) (v : Value) : Value :=
  if key = .name "class" then .string (classes [prev.getD .null, v])
  else if key = .name "style" then .string (styles [prev.getD .null, v])
  else v

theorem attributes_eq (sets : List (List (Key × Value))) : attributes sets = sets.flatten.foldl (update joined) [] := by
  suffices h : ∀ (l : List (Key × Value)) (t : Table), (l.foldl addEntry t).entries = l.foldl (update joined) t.entries from
    h _ Table.empty
  intro l
  induction l with
  | nil => exact fun _ => rfl
  | cons e l ih =>
    intro t
    rw [List.foldl_cons, ih]
    rfl

theorem map_fst_literal (es : List (Key × Value)) : (literal es).map (·.1) = (es.map (·.1)).eraseDups :=
  map_fst_foldl_update _ es [] List.nodup_nil

theorem values_literal (key : Key) (es : List (Key × Value)) :
    values key (literal es) = (values key es).getLast?.toList := by
  rw [literal, values_of_nodup (nodup_foldl_update _ es), lookup?_foldl_update, foldl_some, lookup?, List.find?_nil,
    Option.map_none, Option.or_none]

/-- The keys whose values are collected. -/
def Collected (key : Key) : Prop := key = .name "class" ∨ key = .name "style"

theorem joined_of_not_collected (h : ¬ Collected key) : joined key = fun _ v => v := by
  obtain ⟨hclass, hstyle⟩ := not_or.mp h
  funext prev v
  rw [joined, if_neg hclass, if_neg hstyle]

/-- Values that are collected in a text are merged into it one by one. -/
theorem foldl_joined {f : List Value → Bytes} (hjoined : ∀ prev v, joined key prev v = .string (f [prev.getD .null, v]))
    (hnull : ∀ v, f [.null, v] = f [.string [], v]) (vs : List Value) :
    vs.foldl (fun prev v => some (joined key prev v)) none =
      if vs = [] then none else some (.string (vs.foldl (fun s v => f [.string s, v]) [])) := by
  induction vs using List.reverseRecOn with
  | nil => rfl
  | append_singleton vs v ih =>
    rw [List.foldl_concat, ih, hjoined, List.foldl_concat, if_neg (List.append_ne_nil_of_right_ne_nil vs (by simp))]
    split
    next h =>
      rw [h, List.foldl_nil, ← hnull]
      rfl
    next => rfl

theorem flatten_getD (sets : List (Option (List (Key × Value)))) :
    (sets.map (·.getD [])).flatten = sets.reduceOption.flatten := by
  induction sets with
  | nil => rfl
  | cons set sets ih =>
    cases set with
    | none => exact ih
    | some set => exact congrArg (set ++ ·) ih

theorem map_fst_attributes (sets : List (List (Key × Value))) :
    (attributes sets).map (·.1) = (sets.flatten.map (·.1)).eraseDups := by
  rw [attributes_eq, map_fst_foldl_update joined _ [] List.nodup_nil]
  rfl

theorem lookup?_attributes (sets : List (List (Key × Value))) (key : Key) :
    lookup? (attributes sets) key = (values key sets.flatten).foldl (fun o v => some (joined key o v)) none := by
  rw [attributes_eq, lookup?_foldl_update]
  rfl

end Merge

end Stencil
