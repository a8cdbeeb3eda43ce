import Stencil.Merge
import Stencil.Proofs.Distinct
import Stencil.Proofs.Unicode.Characters

/-! Classes merged step by step. A class is a word, so the classes of a merged text are those it was merged from, and
merging some values first and the others afterwards is merging them all. -/

namespace Stencil.Merge

variable {w : Bytes} {v : Value}

theorem words_of_mem_valueClasses (h : w ∈ valueClasses v) : Text.words w = [w] := by
  cases v with
  | null => cases h
  | bool b =>
    cases b with
    | false => cases h
    | true => exact Text.words_of_mem h
  | array es =>
    obtain ⟨⟨key, v⟩, -, h⟩ := List.mem_flatMap.mp h
    cases key with
    | name s =>
      rw [entryClasses] at h
      split at h
      · exact Text.words_of_mem h
      · cases h
    | int n =>
      cases v with
      | array items =>
        obtain ⟨item, -, h⟩ := List.mem_flatMap.mp h
        exact Text.words_of_mem h
      | _ => exact Text.words_of_mem h
  | _ => exact Text.words_of_mem h

/-- The classes of a merged text are those that the values contribute, each at its first place. -/
theorem words_classes (vs : List Value) : Text.words (classes vs) = (vs.flatMap valueClasses).eraseDups := by
  have hwords : ∀ w ∈ (vs.flatMap valueClasses).eraseDups, Text.words w = [w] := by
    intro w hw
    obtain ⟨v, -, hw⟩ := List.mem_flatMap.mp (List.mem_eraseDups.mp hw)
    exact words_of_mem_valueClasses hw
  rw [classes, Text.words_join, List.flatMap_congr hwords, List.flatMap_singleton']

theorem classes_stepwise (xs ys : List Value) : classes (.string (classes xs) :: ys) = classes (xs ++ ys) := by
  have hfirst : valueClasses (.string (classes xs)) = (xs.flatMap valueClasses).eraseDups := words_classes xs
  rw [classes, List.flatMap_cons, hfirst, eraseDups_append_left, ← List.flatMap_append, classes]

end Stencil.Merge
