import Stencil.Proofs.Merge.Values

/-! Attributes merged in advance and at run time. On plain values both give the same entries but for the classes, which
are in order in advance and may not be at run time. -/

namespace Stencil.Merge

variable {es : List (Key × Value)} {key : Key} {e : Key × Value} {v : Value}

def tidy (key : Key) (v : Value) : Value := if key = .name "class" then .string (classes [v]) else v

def tidyEntry (e : Key × Value) : Key × Value := (e.1, tidy e.1 e.2)

theorem find?_tidyEntry (es : List (Key × Value)) (key : Key) (next : Int64) :
    Table.find? ⟨es.map tidyEntry, next⟩ key = (Script.lookup? es key).map (tidy key) := by
  have hkey : ((fun e => decide (e.1 = key)) ∘ tidyEntry) = fun e => decide (e.1 = key) := rfl
  rw [Table.find?, Script.lookup?, List.find?_map, hkey]
  cases hfind : es.find? (fun e => decide (e.1 = key)) with
  | none => rfl
  | some e =>
    have : e.1 = key := by simpa using List.find?_some hfind
    simp [tidyEntry, this]

theorem setEntry_tidyEntry (es : List (Key × Value)) (key : Key) (v : Value) :
    setEntry key (tidy key v) (es.map tidyEntry) = (setEntry key v es).map tidyEntry := by
  induction es with
  | nil => rfl
  | cons e es ih =>
    rw [List.map_cons, tidyEntry, setEntry, setEntry]
    split
    next h => rw [List.map_cons, tidyEntry, h]
    next => rw [ih, List.map_cons, tidyEntry]

theorem mem_setEntry (h : e ∈ setEntry key v es) : e = (key, v) ∨ e ∈ es := by
  induction es with
  | nil => exact .inl (List.mem_singleton.mp h)
  | cons d es ih =>
    rw [setEntry] at h
    split at h
    next hd =>
      rcases List.mem_cons.mp h with rfl | h
      · exact .inl (by rw [hd])
      · exact .inr (List.mem_cons_of_mem _ h)
    next =>
      rcases List.mem_cons.mp h with rfl | h
      · exact .inr List.mem_cons_self
      · exact (ih h).imp_right (List.mem_cons_of_mem _)

theorem mem_of_lookup? (h : Script.lookup? es key = some v) : (key, v) ∈ es := by
  obtain ⟨⟨k, w⟩, he, rfl⟩ := Option.map_eq_some_iff.mp h
  have hk : k = key := by simpa using List.find?_some he
  exact hk ▸ List.mem_of_find?_eq_some he

/-- What merging at run time holds at any time: plain values, and classes as one text. -/
structure Gathered (es : List (Key × Value)) : Prop where
  plain : ∀ e ∈ es, e.2.IsPlain
  text : ∀ v, (.name "class", v) ∈ es → ∃ t, v = .string t

theorem Gathered.previous (h : Gathered es) (key : Key) : ((Script.lookup? es key).getD .null).IsPlain := by
  cases hprev : Script.lookup? es key with
  | none => exact .null
  | some w => exact h.plain _ (mem_of_lookup? hprev)

theorem Gathered.pair (h : Gathered es) (key : Key) (hv : v.IsPlain) :
    ∀ w ∈ [(Script.lookup? es key).getD .null, v], w.IsPlain := by
  simpa using ⟨h.previous key, hv⟩

/-- One entry merged in advance is the same entry merged at run time and brought in order. -/
theorem combine_tidy (h : Gathered es) (hv : v.IsPlain) (next : Int64) :
    combine ⟨es.map tidyEntry, next⟩ key v = tidy key (Script.combine es key v) := by
  rw [combine, Script.combine, find?_tidyEntry]
  by_cases hclass : key = .name "class"
  · subst hclass
    rw [if_pos rfl, if_pos rfl, tidy, if_pos rfl, classes_script (h.pair _ hv)]
    cases hprev : Script.lookup? es (.name "class") with
    | none => rfl
    | some w =>
      obtain ⟨t, rfl⟩ := h.text w (mem_of_lookup? hprev)
      cases h.plain _ (mem_of_lookup? hprev) with
      | string ht => exact congrArg Value.string (classes_stepwise [.string t] [v])
  · have hsame : ((Script.lookup? es key).map (tidy key)).getD .null = (Script.lookup? es key).getD .null := by
      have : tidy key = id := by
        funext w
        exact if_neg hclass
      rw [this, Option.map_id, id]
    rw [if_neg hclass, if_neg hclass, tidy, if_neg hclass, hsame, styles_eq (h.pair key hv)]

theorem Gathered.addEntry (h : Gathered es) (he : e.2.IsPlain) : Gathered (Script.addEntry es e) := by
  have hpair := h.pair e.1 he
  refine ⟨fun d hd => ?_, fun v hv => ?_⟩
  · rcases mem_setEntry hd with rfl | hd
    · change (Script.combine es e.1 e.2).IsPlain
      rw [Script.combine]
      split
      next => exact .string (plain_scriptClasses hpair)
      next =>
        split
        next => exact .string (plain_scriptStyles hpair)
        next => exact he
    · exact h.plain d hd
  · rcases mem_setEntry hv with heq | hv
    · obtain ⟨hkey, rfl⟩ := Prod.mk.inj heq
      exact ⟨_, if_pos hkey.symm⟩
    · exact h.text v hv

/-- Entry by entry, what is merged in advance is what is merged at run time, brought in order. -/
theorem foldl_addEntry_tidy {l : List (Key × Value)} (hl : ∀ e ∈ l, e.2.IsPlain) (h : Gathered es) (next : Int64) :
    (l.foldl addEntry ⟨es.map tidyEntry, next⟩).entries = (l.foldl Script.addEntry es).map tidyEntry := by
  induction l generalizing es next with
  | nil => rfl
  | cons e l ih =>
    obtain ⟨he, hl⟩ := List.forall_mem_cons.mp hl
    rw [List.foldl_cons, List.foldl_cons, ← ih hl (h.addEntry he) (Table.bump next e.1), addEntry, Table.setKey,
      combine_tidy h he, setEntry_tidyEntry]
    rfl

theorem gathered_nil : Gathered [] := ⟨by simp, by simp⟩

theorem attributes_eq_tidy {sets : List (List (Key × Value))} (hsets : ∀ e ∈ sets.flatten, e.2.IsPlain) :
    attributes sets = (Script.attributes sets).map tidyEntry :=
  foldl_addEntry_tidy hsets gathered_nil 0

def Tidy (es : List (Key × Value)) : Prop := ∀ v, (.name "class", v) ∈ es → v = .string (classes [v])

theorem map_tidyEntry_eq_iff : es.map tidyEntry = es ↔ Tidy es := by
  have hmap : es.map tidyEntry = es.map id ↔ ∀ e ∈ es, tidyEntry e = id e := List.map_inj_left
  rw [List.map_id] at hmap
  rw [hmap]
  refine ⟨fun h v hv => ?_, fun h e he => ?_⟩
  · exact (Prod.mk.inj (h _ hv)).2.symm
  · obtain ⟨key, v⟩ := e
    rw [tidyEntry, tidy]
    split
    next hkey =>
      obtain rfl : key = .name "class" := hkey
      exact congrArg (Prod.mk _) (h v he).symm
    next => rfl

theorem Tidy.addEntry (htidy : Tidy es) (h : Gathered es) (he : e.2.IsPlain)
    (hunspaced : e.1 = .name "class" → Unspaced e.2) : Tidy (Script.addEntry es e) := by
  intro v hv
  rcases mem_setEntry hv with heq | hv
  · obtain ⟨hkey, rfl⟩ := Prod.mk.inj heq
    have hpair := h.pair e.1 he
    have hprevious : Unspaced ((Script.lookup? es e.1).getD .null) := by
      cases hprev : Script.lookup? es e.1 with
      | none => trivial
      | some w =>
        obtain ⟨t, rfl⟩ := h.text w (hkey ▸ mem_of_lookup? hprev)
        trivial
    have hclasses : Script.combine es e.1 e.2 =
        .string (Script.classes [(Script.lookup? es e.1).getD .null, e.2]) := if_pos hkey.symm
    rw [hclasses, classes_script hpair, scriptClasses_eq hpair]
    simpa using ⟨hprevious, hunspaced hkey.symm⟩
  · exact htidy v hv

theorem tidy_foldl_addEntry {l : List (Key × Value)} (hl : ∀ e ∈ l, e.2.IsPlain)
    (hunspaced : ∀ v, (.name "class", v) ∈ l → Unspaced v) (h : Gathered es) (htidy : Tidy es) :
    Tidy (l.foldl Script.addEntry es) := by
  induction l generalizing es with
  | nil => exact htidy
  | cons e l ih =>
    obtain ⟨he, hl⟩ := List.forall_mem_cons.mp hl
    refine ih hl (fun v hv => hunspaced v (List.mem_cons_of_mem _ hv)) (h.addEntry he) (htidy.addEntry h he ?_)
    intro hkey
    exact hunspaced e.2 (by rw [← hkey]; exact List.mem_cons_self)

/-- The helpers for classes, styles and attributes that the preamble declares run to an end on plain sets, and their
entries are those merged in advance once the classes are brought in order. So both are the same just if the run time
leaves the classes in order, as it does if no name it takes as a class has white space in it. -/
theorem attributes_eq_run_iff_tidy (storage : Storage)
    (hdistinct : storage.accessor "merge_classes" ≠ storage.accessor "merge_styles")
    (sets : List (Option (List (Key × Value)))) (hsets : ∀ set ∈ sets, (Script.ofSet set).IsPlain) :
    let classesName := storage.accessor "merge_classes"
    let stylesName := storage.accessor "merge_styles"
    let mergeAttributes := Script.mergeAttributes storage.name classesName stylesName
    Script.Declares storage "merge_classes" Script.mergeClasses ∧
    Script.Declares storage "merge_styles" Script.mergeStyles ∧
    Script.Declares storage "merge_attributes" mergeAttributes ∧
    ∃ merged, mergeAttributes.run (Script.library classesName stylesName) (sets.map Script.ofSet) = some (.array merged) ∧
      attributes (sets.map (·.getD [])) = merged.map tidyEntry ∧
      (attributes (sets.map (·.getD [])) = merged ↔ Tidy merged) ∧
      ((∀ set ∈ sets, ∀ v, (.name "class", v) ∈ set.getD [] → Unspaced v) → Tidy merged) := by
  have hset : ∀ set ∈ sets, ∀ e ∈ set.getD [], Script.Stored e.1 ∧ e.2.IsPlain := by
    intro set hset e he
    have hplain := hsets set hset
    cases set with
    | none => cases he
    | some es =>
      cases hplain with
      | array hkeys hvalues => exact ⟨(hkeys e he).stored, hvalues e he⟩
  have hmem : ∀ e ∈ (sets.map (·.getD [])).flatten, ∃ set ∈ sets, e ∈ set.getD [] := by
    intro e he
    obtain ⟨_, hmem, he⟩ := List.mem_flatten.mp he
    obtain ⟨set, hset, rfl⟩ := List.mem_map.mp hmem
    exact ⟨set, hset, he⟩
  have hflat : ∀ e ∈ (sets.map (·.getD [])).flatten, e.2.IsPlain := by
    intro e he
    obtain ⟨set, hmem, he⟩ := hmem e he
    exact (hset set hmem e he).2
  have hmerged := attributes_eq_tidy hflat
  refine ⟨Script.declares_mergeClasses storage, Script.declares_mergeStyles storage,
    Script.declares_mergeAttributes storage, _,
    Script.run_mergeAttributes storage.name hdistinct fun set hmem e he => (hset set hmem e he).1, hmerged, ?_, ?_⟩
  · rw [hmerged]
    exact map_tidyEntry_eq_iff
  · intro hunspaced
    refine tidy_foldl_addEntry hflat (fun v hv => ?_) gathered_nil (by simp [Tidy])
    obtain ⟨set, hmem, hv⟩ := hmem _ hv
    exact hunspaced set hmem v hv

/-- Classes from a text, from nested lists and from a name with a space, beside a style and a missing set. -/
theorem attributes_eq_run_iff_tidy_mixed :
    let storage := Storage.named [] none
    let sets : List (Option (List (Key × Value))) :=
      [some [(.name "class", .string "a  b a"), (.name "style", .string " x:y; ")], none,
        some [(.name "class", .array [(.name "b c", .bool true), (.int 0, .array [(.int 0, .string "d")])]),
          (.int 3, .null)]]
    (∀ set ∈ sets, (Script.ofSet set).IsPlain) ∧
    ∃ merged, (Script.mergeAttributes storage.name (storage.accessor "merge_classes")
        (storage.accessor "merge_styles")).run
        (Script.library (storage.accessor "merge_classes") (storage.accessor "merge_styles"))
        (sets.map Script.ofSet) = some (.array merged) ∧
      attributes (sets.map (·.getD [])) = merged.map tidyEntry ∧
      (attributes (sets.map (·.getD [])) = merged ↔ Tidy merged) := by
  intro storage sets
  have hfirst : (Value.array [(.name "class", .string "a  b a"), (.name "style", .string " x:y; ")]).IsPlain := by
    refine .array (by decide) ?_
    simpa using ⟨.string (by decide), .string (by decide)⟩
  have hnested : (Value.array [(.name "b c", .bool true), (.int 0, .array [(.int 0, .string "d")])]).IsPlain := by
    refine .array (by decide) ?_
    simpa using ⟨.bool true, .array (by decide) (by simpa using .string (by decide))⟩
  have hlast : (Value.array [(.name "class", .array [(.name "b c", .bool true), (.int 0, .array [(.int 0, .string "d")])]),
      (.int 3, .null)]).IsPlain := by
    refine .array (by decide) ?_
    simpa using ⟨hnested, .null⟩
  have hplain : ∀ set ∈ sets, (Script.ofSet set).IsPlain := by simpa [sets] using ⟨hfirst, .null, hlast⟩
  obtain ⟨-, -, -, merged, hrun, htidy, hiff, -⟩ := attributes_eq_run_iff_tidy storage (by decide) sets hplain
  exact ⟨hplain, merged, hrun, htidy, hiff⟩

/-- A name with a space is one class at run time and two in advance. -/
theorem spaced_name_merges_differently :
    let storage := Storage.named [] none
    let set : List (Key × Value) := [(.name "class", .array [(.name "a b", .bool true), (.name "a", .bool true)])]
    (Script.ofSet (some set)).IsPlain ∧
    (Script.mergeAttributes storage.name (storage.accessor "merge_classes") (storage.accessor "merge_styles")).run
      (Script.library (storage.accessor "merge_classes") (storage.accessor "merge_styles")) [Script.ofSet (some set)] =
        some (.array [(.name "class", .string "a b a")]) ∧
    attributes [set] = [(.name "class", .string "a b")] := by
  refine ⟨?_, ?_, ?_⟩
  · refine .array (by decide) (List.forall_mem_singleton.mpr (.array (by decide) ?_))
    simp [Value.IsPlain.bool]
  · rfl
  · rfl

end Stencil.Merge
