import Stencil.Proofs.Merge.Classes
import Stencil.Proofs.Merge.Entries

/-! What attribute sets merge to. Each key stands where it came first; its value is the last one set, and for `class` the
classes of all values set, each at its first place. -/

namespace Stencil.Merge

open Script (lookup?)

/-- Classes collected value by value are the classes of all values. -/
theorem foldl_classes (vs : List Value) : vs.foldl (fun s v => classes [.string s, v]) [] = classes vs := by
  induction vs using List.reverseRecOn with
  | nil => rfl
  | append_singleton vs v ih => rw [List.foldl_concat, ih, classes_stepwise]

/-- Missing sets count for nothing. The keys are those of all sets, each once, in the order they first came; a key other
than class and style has the value it was given last; and class has, if it comes at all, the classes of all values it was
given, merged at once. Merged classes are words of which no two are the same, in the order they were first contributed, and
some of the values may be merged before the others. -/
theorem attributes_collect (sets : List (Option (List (Key × Value)))) :
    let entries := sets.reduceOption.flatten
    let merged := attributes (sets.map (·.getD []))
    (merged.map (·.1) = (entries.map (·.1)).eraseDups ∧ (merged.map (·.1)).Nodup) ∧
    (∀ key, ¬Collected key → lookup? merged key = (values key entries).getLast?) ∧
    lookup? merged (.name "class") =
      (if values (.name "class") entries = [] then none
        else some (.string (classes (values (.name "class") entries)))) ∧
    (∀ vs, Text.words (classes vs) = (vs.flatMap valueClasses).eraseDups ∧ (Text.words (classes vs)).Nodup) ∧
    ∀ xs ys, classes (.string (classes xs) :: ys) = classes (xs ++ ys) := by
  intro entries merged
  have hkeys : merged.map (·.1) = (entries.map (·.1)).eraseDups := by rw [map_fst_attributes, flatten_getD]
  refine ⟨⟨hkeys, ?_⟩, fun key hkey => ?_, ?_, fun vs => ⟨words_classes vs, ?_⟩, classes_stepwise⟩
  · rw [hkeys]
    exact nodup_eraseDups _
  · rw [lookup?_attributes, joined_of_not_collected hkey, foldl_some, flatten_getD, Option.or_none]
  · rw [lookup?_attributes, flatten_getD, foldl_joined (fun _ _ => if_pos rfl) fun _ => rfl, foldl_classes]
  · rw [words_classes]
    exact nodup_eraseDups _

/-- Classes cut at a wide space, from a name with two words and from a nested list, beside a value that is replaced and a
missing set. -/
theorem attributes_collect_mixed :
    let sets : List (Option (List (Key × Value))) :=
      [some [(.name "class", .string [0x62, 0xc2, 0xa0, 0x61]), (.name "id", .string "x")], none,
        some [(.name "title", .null), (.name "id", .string "y"),
          (.name "class", .array [(.name "c a", .bool true), (.int 0, .array [(.int 0, .string "b d")])])]]
    let merged := attributes (sets.map (·.getD []))
    merged.map (·.1) = [.name "class", .name "id", .name "title"] ∧ ¬Collected (.name "id") ∧
    lookup? merged (.name "id") = some (.string "y") ∧ lookup? merged (.name "class") = some (.string "b a c d") := by
  intro sets merged
  obtain ⟨⟨hkeys, -⟩, hlast, hclass, -⟩ := attributes_collect sets
  have hid : ¬Collected (.name "id") := by
    rw [Collected]
    decide
  refine ⟨hkeys.trans (by decide), hid, (hlast _ hid).trans rfl, hclass.trans ?_⟩
  rfl

end Stencil.Merge
