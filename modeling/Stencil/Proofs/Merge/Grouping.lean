import Stencil.Compile.Contribution
import Stencil.Proofs.Merge.Entries

/-! Attribute sets merged as they are written, several entries to an array literal, against the sets merged one by one.
A literal keeps the last value of a repeated key at its first place, which is what merging does with every key but
class and style. So both give the same keys in the same order, and the same values but for classes and styles; these
agree as well unless a computed key repeats one of them within a literal. -/

namespace Stencil

open Script (lookup?)

theorem Key.eq_of_ofText {s t : Bytes} (h : Key.ofText s = .name t) : s = t := by
  unfold Key.ofText at h
  split at h
  · split at h
    next => cases h
    next => exact Key.name.inj h
  · exact Key.name.inj h

namespace Contribution

open Merge (literal values Collected)

/-- A contribution in a run of the page: a single attribute is worth one entry, under its own key if that is known,
and any other contribution a whole set. -/
structure Occurrence where
  source : Contribution
  entries : List (Key × Value)
  single : source.entry.isSome → ∃ e, entries = [e] ∧ ∀ name, source.key = some name → e.1 = .ofText name

/-- What one code stands for: the literal of several entries, of which no two have the same known key, or a whole
set. -/
inductive Group where
  | literal (os : List Occurrence) (single : ∀ o ∈ os, o.source.entry.isSome)
      (distinct : (os.filterMap (·.source.key)).Nodup)
  | set (o : Occurrence) (whole : o.source.entry = none)

namespace Group

def members : Group → List Occurrence
  | .literal os _ _ => os
  | .set o _ => [o]

def code : Group → Bytes
  | .literal os _ _ => Ascii.lbracket :: (Bytes.join ", " (os.filterMap (·.source.entry)) ++ [Ascii.rbracket])
  | .set o _ => o.source.code

def array : Group → List (Key × Value)
  | .literal os _ _ => Merge.literal (os.flatMap (·.entries))
  | .set o _ => o.entries

/-- No literal has two classes or two styles. -/
def Simple : Group → Prop
  | .literal os _ _ => ∀ key, Collected key → (values key (os.flatMap (·.entries))).length ≤ 1
  | .set _ _ => True

end Group

variable {os ps : List Occurrence} {key : Key}

theorem exists_groups_flush {entries : List Bytes} (hsingle : ∀ o ∈ ps, o.source.entry.isSome)
    (hdistinct : (ps.filterMap (·.source.key)).Nodup) (hentries : entries.reverse = ps.filterMap (·.source.entry)) :
    ∃ gs : List Group, flush entries = gs.map Group.code ∧ gs.flatMap Group.members = ps := by
  cases ps with
  | nil =>
    obtain rfl : entries = [] := List.reverse_eq_nil_iff.mp hentries
    exact ⟨[], rfl, rfl⟩
  | cons p ps =>
    obtain ⟨entry, hentry⟩ := Option.isSome_iff_exists.mp (hsingle p List.mem_cons_self)
    have hsome : entries ≠ [] := by
      rintro rfl
      simp [hentry] at hentries
    refine ⟨[.literal (p :: ps) hsingle hdistinct], ?_, List.append_nil _⟩
    rw [flush, if_neg (by simpa using hsome), hentries]
    rfl

/-- The codes are written group by group: `ps` are the occurrences whose entries and keys are being collected. -/
theorem exists_groups_from (keys entries : List Bytes) (os ps : List Occurrence)
    (hsingle : ∀ o ∈ ps, o.source.entry.isSome) (hdistinct : (ps.filterMap (·.source.key)).Nodup)
    (hkeys : ∀ k, k ∈ keys ↔ k ∈ ps.filterMap (·.source.key))
    (hentries : entries.reverse = ps.filterMap (·.source.entry)) :
    ∃ gs : List Group, codesFrom keys entries (os.map (·.source)) = gs.map Group.code ∧
      gs.flatMap Group.members = ps ++ os := by
  induction os generalizing keys entries ps with
  | nil => simpa [codesFrom] using exists_groups_flush hsingle hdistinct hentries
  | cons o os ih =>
    obtain ⟨flushed, hflush, hps⟩ := exists_groups_flush hsingle hdistinct hentries
    rw [List.map_cons, codesFrom]
    split
    next hwhole =>
      obtain ⟨gs, hgs, hos⟩ := ih [] [] [] (by simp) (by simp) (by simp) rfl
      refine ⟨flushed ++ .set o hwhole :: gs, ?_, ?_⟩
      · rw [hflush, hgs, List.map_append, List.map_cons, Group.code]
      · rw [List.flatMap_append, List.flatMap_cons, hps, hos]
        rfl
    next entry hentry =>
      have hmore : ∀ q ∈ ps ++ [o], q.source.entry.isSome := by
        intro q hq
        rcases List.mem_append.mp hq with hq | hq
        · exact hsingle q hq
        · rw [List.mem_singleton.mp hq, hentry]
          rfl
      have hreverse : (entry :: entries).reverse = (ps ++ [o]).filterMap (·.source.entry) := by
        simp [hentries, hentry]
      split
      next hkey =>
        obtain ⟨gs, hgs, hos⟩ := ih keys (entry :: entries) (ps ++ [o]) hmore (by simpa [hkey] using hdistinct)
          (by simpa [hkey] using hkeys) hreverse
        exact ⟨gs, hgs, by rw [hos, List.append_assoc, List.singleton_append]⟩
      next k hkey =>
        split
        next =>
          -- a key that repeats starts an array of its own
          obtain ⟨gs, hgs, hos⟩ := ih [k] [entry] [o] (fun q hq => hmore q (List.mem_append_right _ hq))
            (by simp [hkey]) (by simp [hkey]) (by simp [hentry])
          exact ⟨flushed ++ gs, by rw [hflush, hgs, List.map_append], by rw [List.flatMap_append, hps, hos]; rfl⟩
        next hnew =>
          have hfresh : k ∉ ps.filterMap (·.source.key) := fun h => hnew (List.contains_iff_mem.mpr ((hkeys k).mpr h))
          have hkeysmore : ∀ j, j ∈ k :: keys ↔ j ∈ (ps ++ [o]).filterMap (·.source.key) := by
            intro j
            rw [List.filterMap_append, List.mem_append, List.mem_cons, hkeys, or_comm]
            simp [hkey]
          obtain ⟨gs, hgs, hos⟩ := ih (k :: keys) (entry :: entries) (ps ++ [o]) hmore
            (by simpa [hkey] using hdistinct.concat hfresh) hkeysmore hreverse
          exact ⟨gs, hgs, by rw [hos, List.append_assoc, List.singleton_append]⟩

theorem exists_groups (os : List Occurrence) :
    ∃ gs : List Group, codes (os.map (·.source)) = gs.map Group.code ∧ gs.flatMap Group.members = os :=
  exists_groups_from [] [] os [] (by simp) (by simp) (by simp) rfl

namespace Group

def entries (g : Group) : List (Key × Value) := g.members.flatMap (·.entries)

theorem map_fst_array (g : Group) : (g.array.map (·.1)).eraseDups = (g.entries.map (·.1)).eraseDups := by
  cases g with
  | literal os => rw [array, Merge.map_fst_literal, eraseDups_eraseDups, entries, members]
  | set o => rw [array, entries, members, List.flatMap_singleton]

theorem getLast?_values_array (g : Group) (key : Key) :
    (values key g.array).getLast? = (values key g.entries).getLast? := by
  cases g with
  | literal os =>
    rw [array, Merge.values_literal, entries, members]
    cases (values key (os.flatMap (·.entries))).getLast? <;> rfl
  | set o => rw [array, entries, members, List.flatMap_singleton]

theorem Simple.values_array {g : Group} (h : g.Simple) (hkey : Collected key) :
    values key g.array = values key g.entries := by
  cases g with
  | literal os =>
    rw [array, Merge.values_literal, entries, members]
    rcases Nat.le_one_iff_eq_zero_or_eq_one.mp (h key hkey) with hnone | hone
    · rw [List.length_eq_zero_iff.mp hnone]
      rfl
    · obtain ⟨v, hv⟩ := List.length_eq_one_iff.mp hone
      rw [hv]
      rfl
  | set o => rw [array, entries, members, List.flatMap_singleton]

end Group

theorem map_fst_arrays (gs : List Group) :
    ((gs.map Group.array).flatten.map (·.1)).eraseDups = ((gs.flatMap Group.entries).map (·.1)).eraseDups := by
  induction gs with
  | nil => rfl
  | cons g gs ih =>
    rw [List.map_cons, List.flatten_cons, List.flatMap_cons, List.map_append, List.map_append, ← eraseDups_append_left,
      g.map_fst_array, eraseDups_append_left, ← eraseDups_append_right, ih, eraseDups_append_right]

theorem getLast?_values_arrays (gs : List Group) (key : Key) :
    (values key (gs.map Group.array).flatten).getLast? = (values key (gs.flatMap Group.entries)).getLast? := by
  induction gs with
  | nil => rfl
  | cons g gs ih =>
    rw [List.map_cons, List.flatten_cons, List.flatMap_cons, Merge.values_append, Merge.values_append,
      List.getLast?_append, List.getLast?_append, ih, g.getLast?_values_array]

theorem values_arrays {gs : List Group} (h : ∀ g ∈ gs, g.Simple) (hkey : Collected key) :
    values key (gs.map Group.array).flatten = values key (gs.flatMap Group.entries) := by
  induction gs with
  | nil => rfl
  | cons g gs ih =>
    obtain ⟨hg, hgs⟩ := List.forall_mem_cons.mp h
    rw [List.map_cons, List.flatten_cons, List.flatMap_cons, Merge.values_append, Merge.values_append, ih hgs,
      hg.values_array hkey]

theorem Occurrence.key_eq {o : Occurrence} (hentry : o.source.entry.isSome)
    (hcomputed : o.source.key = none → ∀ e ∈ o.entries, ¬ Collected e.1) {e : Key × Value} (he : e ∈ o.entries)
    {text : Bytes} (htext : e.1 = .name text) (hkey : Collected e.1) : o.source.key = some text := by
  obtain ⟨d, hd, hname⟩ := o.single hentry
  obtain rfl : e = d := List.mem_singleton.mp (hd ▸ he)
  cases hk : o.source.key with
  | none => exact absurd hkey (hcomputed hk e he)
  | some name => rw [Key.eq_of_ofText ((hname name hk).symm.trans htext)]

theorem simple_literal (single : ∀ o ∈ os, o.source.entry.isSome) (distinct : (os.filterMap (·.source.key)).Nodup)
    (h : ∀ o ∈ os, o.source.key = none → ∀ e ∈ o.entries, ¬ Collected e.1) :
    (Group.literal os single distinct).Simple := by
  intro key hkey
  obtain ⟨text, rfl⟩ : ∃ text, key = .name text := by
    rcases hkey with rfl | rfl
    · exact ⟨_, rfl⟩
    · exact ⟨_, rfl⟩
  induction os with
  | nil => exact Nat.zero_le _
  | cons o os ih =>
    obtain ⟨ho, hos⟩ := List.forall_mem_cons.mp h
    obtain ⟨hentry, hsingle⟩ := List.forall_mem_cons.mp single
    obtain ⟨e, he, -⟩ := o.single hentry
    have hrest : (os.filterMap (·.source.key)).Nodup := by
      cases hk : o.source.key with
      | none => simpa [hk] using distinct
      | some name => exact (List.nodup_cons.mp (by simpa [hk] using distinct)).2
    rw [List.flatMap_cons, he, List.singleton_append, Merge.values_cons]
    split
    next heq =>
      have hk := Occurrence.key_eq hentry ho (he ▸ List.mem_singleton_self e) heq (heq ▸ hkey)
      have hnew : text ∉ os.filterMap (·.source.key) := (List.nodup_cons.mp (by simpa [hk] using distinct)).1
      have hempty : values (.name text) (os.flatMap (·.entries)) = [] := by
        refine Merge.values_eq_nil fun hmem => ?_
        obtain ⟨d, hd, hdkey⟩ := List.mem_map.mp hmem
        obtain ⟨q, hq, hdq⟩ := List.mem_flatMap.mp hd
        exact hnew (List.mem_filterMap.mpr ⟨q, hq, Occurrence.key_eq (hsingle q hq) (hos q hq) hdq hdkey (hdkey ▸ hkey)⟩)
      rw [hempty, List.length_singleton]
    next => exact ih hsingle hrest hos

/-- The codes that are written stand for groups of the contributions, in order. The arrays of the groups merge into
the same keys in the same order as the contributions merged one by one, and into the same values but for class and
style. Nothing differs if no literal has two classes or two styles, as none has whose computed keys are neither. -/
theorem codes_merge (os : List Occurrence) :
    ∃ gs : List Group, codes (os.map (·.source)) = gs.map Group.code ∧ gs.flatMap Group.members = os ∧
      let grouped := Merge.attributes (gs.map Group.array)
      let apart := Merge.attributes (os.map (·.entries))
      grouped.map (·.1) = apart.map (·.1) ∧
      (∀ key, ¬ Collected key → lookup? grouped key = lookup? apart key) ∧
      (grouped = apart ↔ ∀ key, Collected key → lookup? grouped key = lookup? apart key) ∧
      ((∀ g ∈ gs, g.Simple) → grouped = apart) ∧
      ((∀ o ∈ os, o.source.entry.isSome → o.source.key = none → ∀ e ∈ o.entries, ¬ Collected e.1) →
        grouped = apart) := by
  obtain ⟨gs, hcodes, hmembers⟩ := exists_groups os
  have hentries : (os.map (·.entries)).flatten = gs.flatMap Group.entries := by
    rw [← hmembers, ← List.flatMap_def, List.flatMap_assoc]
    rfl
  refine ⟨gs, hcodes, hmembers, ?_⟩
  intro grouped apart
  have hkeys : grouped.map (·.1) = apart.map (·.1) := by
    rw [Merge.map_fst_attributes, Merge.map_fst_attributes, hentries, map_fst_arrays]
  have hplain : ∀ key, ¬ Collected key → lookup? grouped key = lookup? apart key := by
    intro key hkey
    rw [Merge.lookup?_attributes, Merge.lookup?_attributes, Merge.joined_of_not_collected hkey, Merge.foldl_some,
      Merge.foldl_some, hentries, getLast?_values_arrays]
  have hiff : grouped = apart ↔ ∀ key, Collected key → lookup? grouped key = lookup? apart key := by
    refine ⟨fun h key _ => by rw [h], fun h => ?_⟩
    have hdistinct : (grouped.map (·.1)).Nodup := by
      rw [Merge.map_fst_attributes]
      exact nodup_eraseDups _
    refine Merge.eq_of_lookup? hkeys hdistinct fun key => ?_
    by_cases hkey : Collected key
    · exact h key hkey
    · exact hplain key hkey
  have hsimple : (∀ g ∈ gs, g.Simple) → grouped = apart := by
    intro h
    refine hiff.mpr fun key hkey => ?_
    rw [Merge.lookup?_attributes, Merge.lookup?_attributes, hentries, values_arrays h hkey]
  refine ⟨hkeys, hplain, hiff, hsimple, fun h => hsimple fun g hg => ?_⟩
  cases g with
  | set o => trivial
  | literal os' single distinct =>
    refine simple_literal single distinct fun o ho => h o ?_ (single o ho)
    exact hmembers ▸ List.mem_flatMap.mpr ⟨_, hg, ho⟩

def Occurrence.constant (name value : Bytes) : Occurrence where
  source :=
    ⟨some (Contribution.single name (.string value)),
      Ascii.lbracket :: (Quoted.encode name ++ " => " ++ Quoted.encode value ++ [Ascii.rbracket]),
      some (Quoted.encode name ++ " => " ++ Quoted.encode value), some name⟩
  entries := [(.ofText name, .string value)]
  single := fun _ => ⟨_, rfl, fun _ h => Option.some.inj h ▸ rfl⟩

def Occurrence.computed (code : Bytes) (key : Key) (value : Bytes) : Occurrence where
  source :=
    ⟨none, Ascii.lbracket :: (code ++ " => " ++ Quoted.encode value ++ [Ascii.rbracket]),
      some (code ++ " => " ++ Quoted.encode value), none⟩
  entries := [(key, .string value)]
  single := fun _ => ⟨_, rfl, fun _ h => nomatch h⟩

def Occurrence.whole (code : Bytes) (entries : List (Key × Value)) : Occurrence where
  source := ⟨none, code, none, none⟩
  entries := entries
  single := fun h => nomatch h

/-- A title that comes three times, twice by a computed name, between classes and before a set with one more. -/
theorem codes_merge_titles :
    let os := [Occurrence.constant "class" "a", .constant "title" "x", .computed "$k" (.name "title") "y", .constant "class" "b",
      .computed "$k" (.name "title") "z", .whole "$more" [(.name "class", .string "c")]]
    (∀ o ∈ os, o.source.entry.isSome → o.source.key = none → ∀ e ∈ o.entries, ¬ Collected e.1) ∧
    ∃ gs : List Group, gs.map Group.code =
        ["['class' => 'a', 'title' => 'x', $k => 'y']", "['class' => 'b', $k => 'z']", "$more"] ∧
      Merge.attributes (gs.map Group.array) = [(.name "class", .string "a b c"), (.name "title", .string "z")] := by
  intro os
  have hcomputed : ∀ o ∈ os, o.source.entry.isSome → o.source.key = none → ∀ e ∈ o.entries, ¬ Collected e.1 := by
    have htitle : ¬ Collected (.name "title") := by
      rw [Collected]
      decide
    simpa [os, Occurrence.constant, Occurrence.computed, Occurrence.whole] using htitle
  obtain ⟨gs, hcodes, -, -, -, -, -, hsame⟩ := codes_merge os
  refine ⟨hcomputed, gs, hcodes ▸ rfl, (hsame hcomputed).trans ?_⟩
  rfl

/-- A class that is computed shares the literal of the one before and replaces it, where the two belong together. -/
theorem computed_class_replaces :
    let env : Environment := ⟨{}, .basic, [], "''", []⟩
    let attributes : List Attribute := [⟨0, "class", none, .text "a" true, none⟩,
      ⟨1, [], some ⟨"$k", true, false, none⟩, .text "b" true, none⟩]
    let os := [Occurrence.constant "class" "a", .computed "$k" (.name "class") "b", .whole "$more" []]
    collect env ⟨0, []⟩ attributes [⟨"attributes", [⟨"$more", true, false, none⟩], none⟩] = .ok (os.map (·.source)) ∧
    ∃ gs : List Group, codes (os.map (·.source)) = gs.map Group.code ∧ gs.flatMap Group.members = os ∧
      gs.map Group.code = ["['class' => 'a', $k => 'b']", "$more"] ∧
      Merge.attributes (gs.map Group.array) = [(.name "class", .string "b")] ∧
      Merge.attributes (os.map (·.entries)) = [(.name "class", .string "a b")] := by
  intro env attributes os
  refine ⟨by rfl, [.literal (os.take 2) (by decide) (by decide), .set (.whole "$more" []) rfl], ?_, ?_, ?_, ?_, ?_⟩
  · rfl
  · rfl
  · rfl
  · rfl
  · rfl

end Contribution

end Stencil
