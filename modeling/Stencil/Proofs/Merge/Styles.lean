import Stencil.Proofs.Merge.Entries
import Stencil.Proofs.Texture
import Mathlib.Data.List.DropRight

/-! Styles merged step by step. What was merged is read again as one text, and trimmed again, when it is merged with more;
so merging step by step is merging at once just as long as there is nothing to trim. What a text contributes is trimmed
already, but for white space that its last semicolons covered; what a named entry contributes is taken as it is. -/

namespace Stencil.Merge

open Script (lookup?)
open Text (Starts Ends)

variable {s t d : Bytes} {l m : List Bytes} {v : Value} {xs ys vs : List Value}

theorem join_append (separator : Bytes) (hl : l ≠ []) (hm : m ≠ []) :
    Bytes.join separator (l ++ m) = Bytes.join separator l ++ separator ++ Bytes.join separator m := by
  induction l with
  | nil => exact absurd rfl hl
  | cons s l ih =>
    cases l with
    | nil =>
      obtain ⟨t, m, rfl⟩ := List.exists_cons_of_ne_nil hm
      simp [Bytes.join, List.intercalate_cons_cons]
    | cons t l =>
      have htail := ih (by simp)
      rw [Bytes.join, List.cons_append] at htail
      rw [Bytes.join, Bytes.join, List.cons_append, List.cons_append, List.intercalate_cons_cons, htail,
        List.intercalate_cons_cons]
      simp only [Bytes.join, List.append_assoc]

theorem length_join_append (c : UInt8) (l m : List Bytes) :
    (Bytes.join [c] (l ++ m)).length =
      (Bytes.join [c] l).length + (Bytes.join [c] m).length + if l = [] ∨ m = [] then 0 else 1 := by
  by_cases hl : l = []
  · subst hl
    simp [Bytes.join]
  · by_cases hm : m = []
    · subst hm
      simp [Bytes.join]
    · rw [join_append [c] hl hm, if_neg (by simp [hl, hm])]
      simp only [List.length_append, List.length_singleton]
      omega

/-- The text as it is read: without white space around it and semicolons after it. -/
def declaration (s : Bytes) : Bytes := Bytes.dropWhileRight (· == Ascii.semicolon) (Text.trim s)

/-- There is nothing to trim: no white space at either end and no semicolon at the end. -/
def Settled (s : Bytes) : Prop := Starts s ∧ Ends s ∧ s.getLast? ≠ some Ascii.semicolon

instance (s : Bytes) : Decidable (Settled s) := inferInstanceAs (Decidable (_ ∧ _))

theorem declarations_eq_ite (s : Bytes) : declarations s = if declaration s = [] then [] else [declaration s] := by
  rw [declarations, declaration]
  cases Bytes.dropWhileRight (· == Ascii.semicolon) (Text.trim s) <;> rfl

theorem mem_declarations (h : d ∈ declarations s) : d = declaration s ∧ d ≠ [] := by
  rw [declarations_eq_ite] at h
  split at h
  · cases h
  · rw [List.mem_singleton.mp h]
    exact ⟨rfl, ‹_›⟩

theorem infix_declaration (s : Bytes) : declaration s <:+: s :=
  (List.rdropWhile_prefix _ _).isInfix.trans (Text.infix_trim s)

theorem dropWhileRight_eq_self_iff {c : UInt8} : Bytes.dropWhileRight (· == c) s = s ↔ s.getLast? ≠ some c := by
  change s.rdropWhile (· == c) = s ↔ _
  cases s using List.reverseRecOn with
  | nil => simp
  | append_singleton s a => simp [List.rdropWhile_eq_self_iff]

theorem declaration_eq_self_iff : declaration s = s ↔ Settled s := by
  constructor
  · intro h
    have htrim : Text.trim s = s := by
      have hcut : (declaration s).length ≤ (Text.trim s).length := (List.rdropWhile_prefix _ _).length_le
      rw [h] at hcut
      exact (Text.infix_trim s).eq_of_length_le hcut
    obtain ⟨hstarts, hends⟩ := Text.trim_eq_self_iff.mp htrim
    refine ⟨hstarts, hends, dropWhileRight_eq_self_iff.mp ?_⟩
    rwa [declaration, htrim] at h
  · rintro ⟨hstarts, hends, hlast⟩
    rw [declaration, Text.trim_eq_self_iff.mpr ⟨hstarts, hends⟩, dropWhileRight_eq_self_iff.mpr hlast]

theorem length_declaration_lt (h : ¬Settled s) : (declaration s).length < s.length := by
  refine lt_of_le_of_ne (infix_declaration s).length_le fun hlength => h ?_
  exact declaration_eq_self_iff.mp ((infix_declaration s).eq_of_length hlength)

theorem declarations_of_settled (h : Settled s) : declarations s = if s = [] then [] else [s] := by
  rw [declarations_eq_ite, declaration_eq_self_iff.mpr h]

theorem length_join_declarations (s : Bytes) :
    (Bytes.join [Ascii.semicolon] (declarations s)).length = (declaration s).length := by
  rw [declarations_eq_ite]
  split
  next h => rw [h]; rfl
  next => simp [Bytes.join]

theorem ne_nil_of_mem_valueStyles (h : d ∈ valueStyles v) : d ≠ [] := by
  have htext : d ∈ declarations v.text → d ≠ [] := fun h => (mem_declarations h).2
  cases v with
  | array es =>
    obtain ⟨⟨key, v⟩, -, h⟩ := List.mem_flatMap.mp h
    cases key with
    | int n => exact (mem_declarations h).2
    | name s =>
      rw [entryStyles] at h
      split at h
      · cases h
      · rw [List.mem_singleton.mp h]
        simp
  | _ => exact htext h

theorem ne_nil_of_mem_styles (h : d ∈ xs.flatMap valueStyles) : d ≠ [] := by
  obtain ⟨v, -, h⟩ := List.mem_flatMap.mp h
  exact ne_nil_of_mem_valueStyles h

theorem join_eq_nil {separator : Bytes} (hl : ∀ d ∈ l, d ≠ []) : Bytes.join separator l = [] ↔ l = [] := by
  refine ⟨fun h => ?_, fun h => h ▸ rfl⟩
  cases l with
  | nil => rfl
  | cons d l =>
    have hd := hl d List.mem_cons_self
    cases l with
    | nil => simp [Bytes.join, hd] at h
    | cons e l => simp [Bytes.join, List.intercalate_cons_cons, hd] at h

theorem styles_eq_nil : styles xs = [] ↔ xs.flatMap valueStyles = [] := join_eq_nil fun _ => ne_nil_of_mem_styles

theorem styles_string_cons (s : Bytes) (ys : List Value) :
    styles (.string s :: ys) = Bytes.join [Ascii.semicolon] (declarations s ++ ys.flatMap valueStyles) := rfl

theorem styles_append (xs ys : List Value) :
    styles (xs ++ ys) = Bytes.join [Ascii.semicolon] (xs.flatMap valueStyles ++ ys.flatMap valueStyles) := by
  rw [styles, List.flatMap_append]

/-- What is shorter before more is merged into it is shorter afterwards. -/
theorem length_styles_lt (h : (declaration s).length < (styles xs).length) (ys : List Value) :
    (styles (.string s :: ys)).length < (styles (xs ++ ys)).length := by
  have hne : xs.flatMap valueStyles ≠ [] := by
    intro hnil
    rw [styles_eq_nil.mpr hnil] at h
    exact Nat.not_lt_zero _ h
  have hgap : (if declarations s = [] ∨ ys.flatMap valueStyles = [] then 0 else 1) ≤
      if xs.flatMap valueStyles = [] ∨ ys.flatMap valueStyles = [] then 0 else 1 := by
    by_cases hys : ys.flatMap valueStyles = []
    · simp [hys]
    · rw [if_neg (c := xs.flatMap valueStyles = [] ∨ _) (by simp [hne, hys])]
      split <;> omega
  rw [styles_string_cons, styles_append, length_join_append, length_join_append, length_join_declarations]
  rw [styles] at h
  omega

/-- Merging some values first is merging them all just if there is nothing to trim of what was merged first. -/
theorem styles_step_iff (xs ys : List Value) :
    styles (.string (styles xs) :: ys) = styles (xs ++ ys) ↔ Settled (styles xs) := by
  constructor
  · intro h
    by_contra hsettled
    exact (length_styles_lt (length_declaration_lt hsettled) ys).ne (congrArg List.length h)
  · intro h
    rw [styles_string_cons, styles_append, declarations_of_settled h]
    split
    next hnil => rw [styles_eq_nil.mp hnil]
    next hsome =>
      have hxs : xs.flatMap valueStyles ≠ [] := fun hnil => hsome (styles_eq_nil.mpr hnil)
      by_cases hys : ys.flatMap valueStyles = []
      · rw [hys, List.append_nil, List.append_nil, Bytes.join, List.intercalate_singleton]
        rfl
      · rw [join_append _ hxs hys, join_append _ (List.cons_ne_nil _ _) hys, Bytes.join, List.intercalate_singleton]
        rfl

theorem eq_dropWhileRight_append (c : UInt8) (s : Bytes) :
    ∃ n, s = Bytes.dropWhileRight (· == c) s ++ List.replicate n c := by
  induction s using List.reverseRecOn with
  | nil => exact ⟨0, rfl⟩
  | append_singleton s a ih =>
    obtain ⟨n, hn⟩ := ih
    change ∃ n, s ++ [a] = (s ++ [a]).rdropWhile (· == c) ++ List.replicate n c
    rw [List.rdropWhile_concat]
    split
    next ha =>
      refine ⟨n + 1, ?_⟩
      rw [List.replicate_succ', ← List.append_assoc]
      exact congrArg₂ (· ++ [·]) hn (eq_of_beq ha)
    next => exact ⟨0, by simp⟩

theorem getLast?_append_cons (c : UInt8) (s : Bytes) (hd : d ≠ []) : (s ++ c :: d).getLast? = d.getLast? := by
  rw [List.append_cons]
  exact List.getLast?_append_of_ne_nil _ hd

theorem starts_declaration (s : Bytes) : Starts (declaration s) := by
  obtain ⟨n, hn⟩ := eq_dropWhileRight_append Ascii.semicolon (Text.trim s)
  have htrim := Text.starts_trim s
  rw [hn] at htrim
  cases n with
  | zero => rwa [List.replicate_zero, List.append_nil] at htrim
  | succ n => exact (Text.starts_append_ascii (by decide) (by decide) _ _).mp htrim

theorem getLast?_declaration (s : Bytes) : (declaration s).getLast? ≠ some Ascii.semicolon := by
  have hdropped : Bytes.dropWhileRight (· == Ascii.semicolon) (declaration s) = declaration s :=
    List.rdropWhile_idempotent _ _
  exact dropWhileRight_eq_self_iff.mp hdropped

/-- Only the first contribution can start with something to trim, and only the last one can end with it. -/
theorem settled_styles_iff (xs : List Value) : Settled (styles xs) ↔
    (∀ d ∈ (xs.flatMap valueStyles).head?, Starts d) ∧
      ∀ d ∈ (xs.flatMap valueStyles).getLast?, Ends d ∧ d.getLast? ≠ some Ascii.semicolon := by
  have hstarts : Starts (styles xs) ↔ ∀ d ∈ (xs.flatMap valueStyles).head?, Starts d := by
    rw [styles]
    cases xs.flatMap valueStyles with
    | nil => simp [Bytes.join, Starts, Utf8.chunks, Utf8.chunksFrom]
    | cons d l =>
      cases l with
      | nil => simp [Bytes.join]
      | cons e l =>
        rw [Bytes.join, List.intercalate_cons_cons, List.append_assoc]
        simpa using Text.starts_append_ascii (by decide) (by decide) d _
  have hends : Ends (styles xs) ∧ (styles xs).getLast? ≠ some Ascii.semicolon ↔
      ∀ d ∈ (xs.flatMap valueStyles).getLast?, Ends d ∧ d.getLast? ≠ some Ascii.semicolon := by
    have hsome : ∀ d ∈ xs.flatMap valueStyles, d ≠ [] := fun _ => ne_nil_of_mem_styles
    rw [styles]
    generalize xs.flatMap valueStyles = l at hsome
    cases l using List.reverseRecOn with
    | nil => simp [Bytes.join, Ends, Utf8.chunks, Utf8.chunksFrom]
    | append_singleton l d =>
      by_cases hl : l = []
      · simp [hl, Bytes.join]
      · have hlast := getLast?_append_cons Ascii.semicolon (Bytes.join [Ascii.semicolon] l) (hsome d (by simp))
        rw [join_append _ hl (List.cons_ne_nil d []), Bytes.join, Bytes.join, List.intercalate_singleton, List.append_assoc,
          List.getLast?_concat]
        simp only [List.singleton_append, Option.mem_def, Option.some.injEq, forall_eq']
        rw [← Bytes.join, hlast, Text.ends_append_ascii (by decide) (by decide)]
  rw [Settled, hstarts, hends]

/-- A text that is read as declarations has no white space before its last semicolons; a named entry has a name and a
value with nothing to trim. -/
def TameEntry : Key × Value → Prop
  | (.int _, v) => Ends (declaration v.text)
  | (.name s, v) => Starts s ∧ Ends v.text ∧ v.text.getLast? ≠ some Ascii.semicolon

/-- So it is for the value, or for all its entries. -/
def Tame : Value → Prop
  | .array es => ∀ e ∈ es, TameEntry e
  | v => Ends (declaration v.text)

theorem settled_of_mem_declarations (hs : Ends (declaration s)) (h : d ∈ declarations s) : Settled d := by
  rw [(mem_declarations h).1]
  exact ⟨starts_declaration s, hs, getLast?_declaration s⟩

theorem Tame.settled (hv : Tame v) (h : d ∈ valueStyles v) : Settled d := by
  have htext (hends : Ends (declaration v.text)) : d ∈ declarations v.text → Settled d :=
    settled_of_mem_declarations hends
  cases v with
  | array es =>
    obtain ⟨⟨key, v⟩, he, h⟩ := List.mem_flatMap.mp h
    cases key with
    | int n => exact settled_of_mem_declarations (hv _ he) h
    | name s =>
      obtain ⟨hstarts, hends, hlast⟩ := hv _ he
      rw [entryStyles] at h
      split at h
      next => cases h
      next hsome =>
        rw [List.mem_singleton.mp h]
        refine ⟨(Text.starts_append_ascii (by decide) (by decide) _ _).mpr hstarts,
          (Text.ends_append_ascii (by decide) (by decide) _ _).mpr hends, ?_⟩
        rwa [getLast?_append_cons _ _ (by simpa using hsome)]
  | _ => exact htext hv h

theorem settled_styles_of_tame (h : ∀ v ∈ xs, Tame v) : Settled (styles xs) := by
  have hall : ∀ d ∈ xs.flatMap valueStyles, Settled d := by
    intro d hd
    obtain ⟨v, hv, hd⟩ := List.mem_flatMap.mp hd
    exact (h v hv).settled hd
  refine (settled_styles_iff xs).mpr ⟨fun d hd => (hall d (List.mem_of_head? hd)).1, fun d hd => ?_⟩
  exact (hall d (List.mem_of_getLast? hd)).2

def gather (vs : List Value) : Bytes := vs.foldl (fun s v => styles [.string s, v]) []

/-- Merging step by step gives the same as merging at once, or less. -/
theorem gather_cases (vs : List Value) : gather vs = styles vs ∨ (gather vs).length < (styles vs).length := by
  induction vs using List.reverseRecOn with
  | nil => exact .inl rfl
  | append_singleton vs v ih =>
    rw [gather, List.foldl_concat]
    rcases ih with heq | hlt
    · rw [← gather, heq]
      by_cases h : Settled (styles vs)
      · exact .inl ((styles_step_iff vs [v]).mpr h)
      · exact .inr (length_styles_lt (length_declaration_lt h) [v])
    · exact .inr (length_styles_lt ((infix_declaration _).length_le.trans_lt hlt) [v])

theorem gather_eq_iff (vs : List Value) : gather vs = styles vs ↔ ∀ us, us <+: vs → us ≠ vs → Settled (styles us) := by
  induction vs using List.reverseRecOn with
  | nil => simp [gather, styles, Bytes.join]
  | append_singleton vs v ih =>
    have hbefore : (∀ us, us <+: vs ++ [v] → us ≠ vs ++ [v] → Settled (styles us)) ↔
        Settled (styles vs) ∧ ∀ us, us <+: vs → us ≠ vs → Settled (styles us) := by
      refine ⟨fun h => ⟨h vs (List.prefix_append _ _) (by simp), fun us hus _ => ?_⟩, ?_⟩
      · refine h us (hus.trans (List.prefix_append _ _)) fun heq => ?_
        have hlength := hus.length_le
        rw [heq, List.length_append, List.length_singleton] at hlength
        omega
      · rintro ⟨hlast, h⟩ us hus hne
        have hus : us <+: vs := (List.prefix_concat_iff.mp hus).resolve_left hne
        by_cases heq : us = vs
        · rw [heq]
          exact hlast
        · exact h us hus heq
    rw [hbefore, ← ih, gather, List.foldl_concat, ← gather]
    rcases gather_cases vs with heq | hlt
    · rw [heq, and_iff_left rfl]
      exact styles_step_iff vs [v]
    · have hshorter := length_styles_lt ((infix_declaration (gather vs)).length_le.trans_lt hlt) [v]
      refine iff_of_false (fun h => hshorter.ne (congrArg List.length h)) fun h => hlt.ne (congrArg List.length h.2)

/-- Styles that are merged first and then merged with more come out as if all were merged at once just if nothing is
trimmed of them: if the first contribution starts with no white space and the last one ends with none and with no
semicolon. So it is for texts without white space before their last semicolons and for names and values with nothing to
trim. The styles of attribute sets are merged set by set, and are those of all sets merged at once just if this holds
wherever they are cut. -/
theorem styles_stepwise (xs ys : List Value) (sets : List (Option (List (Key × Value)))) :
    (styles (.string (styles xs) :: ys) = styles (xs ++ ys) ↔ Settled (styles xs)) ∧
    (Settled (styles xs) ↔ (∀ d ∈ (xs.flatMap valueStyles).head?, Starts d) ∧
      ∀ d ∈ (xs.flatMap valueStyles).getLast?, Ends d ∧ d.getLast? ≠ some Ascii.semicolon) ∧
    ((∀ v ∈ xs, Tame v) → Settled (styles xs)) ∧
    let vs := values (.name "style") sets.reduceOption.flatten
    (lookup? (attributes (sets.map (·.getD []))) (.name "style") = (if vs = [] then none else some (.string (styles vs))) ↔
      ∀ us, us <+: vs → us ≠ vs → Settled (styles us)) := by
  refine ⟨styles_step_iff xs ys, settled_styles_iff xs, settled_styles_of_tame, ?_⟩
  intro vs
  have hgather : lookup? (attributes (sets.map (·.getD []))) (.name "style") =
      if vs = [] then none else some (.string (gather vs)) := by
    rw [lookup?_attributes, flatten_getD, foldl_joined (f := styles) (fun _ _ => rfl) fun _ => rfl]
    rfl
  rw [hgather, ← gather_eq_iff]
  split
  next h => simp [h, gather, styles, Bytes.join]
  next => simp

def top : Value := .string " top:0; "

def width : Value := .array [(.name "width", .string "2px")]

/-- A text, a missing set and a named entry. -/
theorem styles_stepwise_width :
    (∀ v ∈ [top, width], Tame v) ∧ styles [.string (styles [top, width]), .string "left:1"] = "top:0;width:2px;left:1" ∧
    lookup? (attributes ([some [(.name "style", top)], none, some [(.name "style", width)]].map (·.getD [])))
      (.name "style") = some (.string "top:0;width:2px") := by
  have htop : Ends (declaration " top:0; ") := by decide
  have hwidth : TameEntry (.name "width", .string "2px") := ⟨by decide, by decide, by decide⟩
  have htame : ∀ v ∈ [top, width], Tame v :=
    List.forall_mem_cons.mpr ⟨htop, List.forall_mem_singleton.mpr (List.forall_mem_singleton.mpr hwidth)⟩
  have hwhole : styles ([top, width] ++ [.string "left:1"]) = "top:0;width:2px;left:1" := rfl
  have hboth : styles [top, width] = "top:0;width:2px" := rfl
  obtain ⟨hstep, -, hall, hsets⟩ := styles_stepwise [top, width] [.string "left:1"]
    [some [(.name "style", top)], none, some [(.name "style", width)]]
  refine ⟨htame, by rw [hstep.mpr (hall htame), hwhole], ?_⟩
  rw [← hboth]
  refine hsets.mpr fun us hus _ => ?_
  have hvs : us <+: [top, width] := hus
  exact settled_styles_of_tame fun v hv => htame v (hvs.subset hv)

/-- The semicolon of a named entry is kept when all is merged at once, and trimmed when the entry was merged before. -/
theorem named_style_trimmed :
    let color : Value := .array [(.name "color", .string "red;")]
    styles [.string (styles [color]), .string "top:0"] = "color:red;top:0" ∧
    styles ([color] ++ [.string "top:0"]) = "color:red;;top:0" ∧
    styles [.string (styles [color]), .string "top:0"] ≠ styles ([color] ++ [.string "top:0"]) ∧
    lookup? (attributes [[(.name "style", color)], [(.name "style", .string "top:0")]]) (.name "style") =
      some (.string "color:red;top:0") := by
  have hstep : styles [.string (styles [.array [(.name "color", .string "red;")]]), .string "top:0"] = "color:red;top:0" := rfl
  have hwhole : styles [.array [(.name "color", .string "red;")], .string "top:0"] = "color:red;;top:0" := rfl
  refine ⟨hstep, hwhole, ?_, rfl⟩
  rw [hstep, List.singleton_append, hwhole]
  decide

end Stencil.Merge
