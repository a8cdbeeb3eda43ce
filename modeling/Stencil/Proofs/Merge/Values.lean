import Stencil.Proofs.Merge.Classes
import Stencil.Proofs.Merge.Words
import Stencil.Proofs.Script.Results

/-! Classes and styles of plain values, in advance and at run time. The styles are the same. A class that is the name of
an array entry is taken as it stands at run time and cut into words in advance, so the classes are the same once those
of the run time are cut into words. -/

namespace Stencil

open Text (Plain words)

variable {s t w : Bytes} {v : Value} {vs : List Value} {c : UInt8}

def Key.IsPlain : Key → Prop
  | .int _ => True
  | .name s => Plain s ∧ Key.ofText s = .name s

instance : (key : Key) → Decidable key.IsPlain
  | .int _ => inferInstanceAs (Decidable True)
  | .name _ => inferInstanceAs (Decidable (_ ∧ _))

theorem Key.IsPlain.stored {key : Key} (h : key.IsPlain) : Script.Stored key := by
  cases key with
  | int n => rfl
  | name s => exact h.2

/-- Values without floating-point numbers and of plain text. -/
inductive Value.IsPlain : Value → Prop
  | null : IsPlain .null
  | bool (b : Bool) : IsPlain (.bool b)
  | int (n : Int64) : IsPlain (.int n)
  | string {s : Bytes} (h : Plain s) : IsPlain (.string s)
  | array {es : List (Key × Value)} (hkeys : ∀ e ∈ es, e.1.IsPlain) (hvalues : ∀ e ∈ es, IsPlain e.2) :
      IsPlain (.array es)

theorem plain_ofNat (n : Nat) : Plain (Bytes.ofNat n) := by
  intro c hc
  obtain ⟨d, hd, rfl⟩ := List.mem_map.mp hc
  have hdigit := Nat.isDigit_of_mem_toDigits (by decide) (by decide) hd
  rw [Char.isDigit_iff_toNat] at hdigit
  obtain ⟨hlow, hhigh⟩ := hdigit
  have hval : d.toUInt8.toNat = d.toNat := by
    have : d.toUInt8.toNat = d.toNat % 256 := rfl
    simp at hlow hhigh
    omega
  rw [Ascii.IsPlain, UInt8.lt_iff_toNat_lt, ne_eq, ne_eq, ← UInt8.toNat_inj, ← UInt8.toNat_inj, hval]
  simp at hlow hhigh ⊢
  omega

theorem Value.IsPlain.text (hv : v.IsPlain) : Plain v.text := by
  cases hv with
  | null => exact fun c hc => by cases hc
  | bool b =>
    revert b
    decide
  | int n =>
    rw [Value.text]
    cases n.toInt with
    | ofNat m => exact plain_ofNat m
    | negSucc m =>
      exact List.forall_mem_cons.mpr ⟨by decide, plain_ofNat _⟩
  | string h => exact h
  | array _ _ =>
    have harray : Plain ("Array" : Bytes) := by decide
    exact harray

/-- The pieces between runs of white space have the words of the text. -/
theorem flatMap_words_splitFrom {gap : Bool} (hs : Plain (w ++ s)) (hw : ∀ c ∈ w, Ascii.isSpace c = false)
    (hgap : gap = true → w = []) : (Script.splitFrom w gap s).flatMap words = Text.wordsOf w s := by
  induction s generalizing w gap with
  | nil =>
    rw [Script.splitFrom, List.flatMap_singleton, Text.wordsOf]
    exact Text.words_of_no_space (hs.of_subset (by simp)) hw
  | cons c s ih =>
    have hplain : Plain ([] ++ s) := hs.of_subset (by simp)
    rw [Script.splitFrom, Text.wordsOf]
    by_cases hc : Ascii.isSpace c
    · rw [if_pos hc, if_pos hc]
      split
      next hg =>
        rw [hgap hg, ih hplain (by simp) fun _ => rfl]
        rfl
      next =>
        rw [List.flatMap_cons, ih hplain (by simp) fun _ => rfl, Text.words_of_no_space (hs.of_subset (by simp)) hw]
    · rw [if_neg hc, if_neg hc]
      refine ih (by simpa using hs) ?_ (by simp)
      intro a ha
      rcases List.mem_append.mp ha with ha | ha
      · exact hw a ha
      · rw [List.mem_singleton.mp ha]
        simpa using hc

theorem flatMap_words_splitSpace (hs : Plain s) : (Script.splitSpace s).flatMap words = words s := by
  have hsplit : (Script.splitFrom [] false s).flatMap words = Text.wordsOf [] s :=
    flatMap_words_splitFrom (by simpa using hs) (by simp) nofun
  rw [Script.splitSpace, hsplit, Text.words_eq hs]

theorem mem_splitFrom {gap : Bool} (hw : ∀ c ∈ w, Ascii.isSpace c = false) (h : t ∈ Script.splitFrom w gap s) :
    (∀ c ∈ t, Ascii.isSpace c = false) ∧ t ⊆ w ++ s := by
  induction s generalizing w gap with
  | nil =>
    rw [List.mem_singleton.mp h]
    exact ⟨hw, by simp⟩
  | cons c s ih =>
    rw [Script.splitFrom] at h
    split at h
    next =>
      split at h
      next => exact (ih hw h).imp_right (List.Subset.trans · (by simp))
      next =>
        rcases List.mem_cons.mp h with rfl | h
        · exact ⟨hw, by simp⟩
        · exact (ih (by simp) h).imp_right (List.Subset.trans · (by simp))
    next hc =>
      have hw' : ∀ a ∈ w ++ [c], Ascii.isSpace a = false := by
        intro a ha
        rcases List.mem_append.mp ha with ha | ha
        · exact hw a ha
        · rw [List.mem_singleton.mp ha]
          simpa using hc
      exact (ih hw' h).imp_right (List.Subset.trans · (by simp))

theorem no_space_of_mem_splitSpace (h : t ∈ Script.splitSpace s) : ∀ c ∈ t, Ascii.isSpace c = false :=
  (mem_splitFrom (by simp) h).1

theorem plain_of_mem_splitSpace (hs : Plain s) (h : t ∈ Script.splitSpace s) : Plain t :=
  hs.of_subset (mem_splitFrom (by simp) h).2

theorem plain_of_mem_asArray {e : Key × Value} (hv : v.IsPlain) (he : e ∈ Script.asArray v) : e.2.IsPlain := by
  cases hv with
  | null => cases he
  | array _ hvalues => exact hvalues e he
  | bool b =>
    rw [List.mem_singleton.mp he]
    exact .bool b
  | int n =>
    rw [List.mem_singleton.mp he]
    exact .int n
  | string h =>
    rw [List.mem_singleton.mp he]
    exact .string h

theorem entryClasses_int (n : Int64) (v : Value) :
    Merge.entryClasses (.int n, v) = (Script.asArray v).flatMap fun e => Merge.words e.2 := by
  cases v <;> simp [Merge.entryClasses, Script.asArray, Script.ofList, Script.pushEntry]
  rfl

theorem entryClasses_eq {e : Key × Value} (hv : e.2.IsPlain) :
    Merge.entryClasses e = (Script.entryNames e).flatMap words := by
  obtain ⟨key, v⟩ := e
  cases key with
  | name s =>
    rw [Merge.entryClasses, Script.entryNames]
    split <;> simp
  | int n =>
    rw [entryClasses_int, Script.entryNames, List.flatMap_assoc]
    exact List.flatMap_congr fun e he => (flatMap_words_splitSpace (plain_of_mem_asArray hv he).text).symm

/-- The classes of a value are the words of the names it gives at run time. -/
theorem valueClasses_eq (hv : v.IsPlain) : Merge.valueClasses v = (Script.valueNames v).flatMap words := by
  have htext : words v.text = (Script.splitSpace v.text).flatMap words := (flatMap_words_splitSpace hv.text).symm
  cases hv with
  | null => rfl
  | bool b => cases b with
    | false => rfl
    | true => exact htext
  | int n => exact htext
  | string h => exact htext
  | array _ hvalues =>
    rw [Merge.valueClasses, Script.valueNames, List.flatMap_assoc]
    exact List.flatMap_congr fun e he => entryClasses_eq (hvalues e he)

theorem plain_of_mem_valueNames (hv : v.IsPlain) (hs : s ∈ Script.valueNames v) : Plain s := by
  cases hv with
  | null => cases hs
  | bool b => cases b with
    | false => cases hs
    | true => exact plain_of_mem_splitSpace (Value.IsPlain.bool true).text hs
  | int n => exact plain_of_mem_splitSpace (Value.IsPlain.int n).text hs
  | string h => exact plain_of_mem_splitSpace h hs
  | array hkeys hvalues =>
    obtain ⟨⟨key, v⟩, he, hs⟩ := List.mem_flatMap.mp hs
    cases key with
    | name n =>
      rw [Script.entryNames] at hs
      split at hs
      · rw [List.mem_singleton.mp hs]
        exact (hkeys _ he).1
      · cases hs
    | int n =>
      obtain ⟨e, hmem, hs⟩ := List.mem_flatMap.mp hs
      exact plain_of_mem_splitSpace (plain_of_mem_asArray (hvalues _ he) hmem).text hs

theorem flatMap_valueClasses (hvs : ∀ v ∈ vs, v.IsPlain) :
    vs.flatMap Merge.valueClasses = (vs.flatMap Script.valueNames).flatMap words := by
  rw [List.flatMap_assoc]
  exact List.flatMap_congr fun v hv => valueClasses_eq (hvs v hv)

theorem flatMap_words_filter (l : List Bytes) : (l.filter (· != [])).flatMap words = l.flatMap words := by
  induction l with
  | nil => rfl
  | cons s l ih =>
    cases s with
    | nil => exact ih
    | cons c s => exact congrArg (words (c :: s) ++ ·) ih

/-- Cutting the classes of the run time into words gives those merged in advance. -/
theorem classes_script (hvs : ∀ v ∈ vs, v.IsPlain) :
    Merge.classes [.string (Script.classes vs)] = Merge.classes vs := by
  have hwords : Merge.valueClasses (.string (Script.classes vs)) =
      ((vs.flatMap Script.valueNames).filter (· != [])).eraseDups.flatMap words :=
    Text.words_join _
  rw [Merge.classes, Merge.classes, List.flatMap_singleton, hwords, eraseDups_flatMap,
    flatMap_words_filter, flatMap_valueClasses hvs]

theorem isTrimmed_eq (hc : Ascii.IsPlain c) : Script.isTrimmed c = Ascii.isSpace c := by
  obtain ⟨-, hnul, hfeed⟩ := hc
  rw [Bool.eq_iff_iff]
  simp only [Script.isTrimmed, List.contains_iff_mem, List.mem_cons, List.not_mem_nil, Ascii.isSpace, Ascii.space,
    Ascii.tab, Ascii.carriageReturn, Bool.or_eq_true, Bool.and_eq_true, decide_eq_true_eq, beq_iff_eq, or_false,
    UInt8.le_iff_toNat_le, ne_eq, ← UInt8.toNat_inj, UInt8.reduceToNat] at hnul hfeed ⊢
  omega

theorem trimText_eq (hs : Plain s) : Script.trimText s = Text.trim s := by
  have hdrop : ∀ t, Plain t → t.dropWhile Script.isTrimmed = t.dropWhile Ascii.isSpace := by
    intro t ht
    induction t with
    | nil => rfl
    | cons c t ih =>
      obtain ⟨hc, ht⟩ := List.forall_mem_cons.mp ht
      rw [List.dropWhile_cons, List.dropWhile_cons, isTrimmed_eq hc, ih ht]
  have hleft : Plain (s.dropWhile Ascii.isSpace).reverse :=
    hs.of_subset fun c hc => (List.dropWhile_sublist _).subset (List.mem_reverse.mp hc)
  rw [Text.trim_eq hs, Script.trimText, hdrop s hs, Bytes.dropWhileRight, Bytes.dropWhileRight, hdrop _ hleft]

theorem declarations_eq (hs : Plain s) : Script.declarations s = Merge.declarations s := by
  have hdeclaration : Script.declaration s = Bytes.dropWhileRight (· == Ascii.semicolon) (Text.trim s) := by
    rw [Script.declaration, trimText_eq hs]
    congr 1
    funext c
    exact Bool.or_false _
  rw [Script.declarations, Merge.declarations, hdeclaration]
  cases Bytes.dropWhileRight (· == Ascii.semicolon) (Text.trim s) <;> rfl

theorem valueStyles_eq (hv : v.IsPlain) : Script.valueStyles v = Merge.valueStyles v := by
  have htext := declarations_eq hv.text
  cases hv with
  | array _ hvalues =>
    refine List.flatMap_congr fun e he => ?_
    obtain ⟨key, w⟩ := e
    cases key with
    | int n => exact declarations_eq (hvalues _ he).text
    | name s =>
      have hcolon : (":" : Bytes) = [Ascii.colon] := rfl
      simp [Script.entryStyles, Merge.entryStyles, hcolon]
  | _ => exact htext

theorem styles_eq (hvs : ∀ v ∈ vs, v.IsPlain) : Script.styles vs = Merge.styles vs := by
  rw [Script.styles, Merge.styles, List.flatMap_congr fun v hv => valueStyles_eq (hvs v hv)]

theorem plain_scriptClasses (hvs : ∀ v ∈ vs, v.IsPlain) : Plain (Script.classes vs) := by
  refine Plain.join Text.plain_space fun s hs => ?_
  obtain ⟨v, hv, hs⟩ := List.mem_flatMap.mp (List.mem_filter.mp (List.mem_eraseDups.mp hs)).1
  exact plain_of_mem_valueNames (hvs v hv) hs

theorem plain_of_mem_declarations (hs : Plain s) (h : t ∈ Script.declarations s) : Plain t := by
  have hdeclaration : Script.declaration s ⊆ s := by
    intro c hc
    have hright : ∀ (p : UInt8 → Bool) (u : Bytes), Bytes.dropWhileRight p u ⊆ u := fun p u a ha =>
      List.mem_reverse.mp ((List.dropWhile_sublist p).subset (List.mem_reverse.mp ha))
    exact (List.dropWhile_sublist _).subset (hright _ _ (hright _ _ hc))
  rw [Script.declarations] at h
  split at h
  · cases h
  · rw [List.mem_singleton.mp h]
    exact hs.of_subset hdeclaration

theorem plain_of_mem_valueStyles (hv : v.IsPlain) (hs : s ∈ Script.valueStyles v) : Plain s := by
  have htext : s ∈ Script.declarations v.text → Plain s := plain_of_mem_declarations hv.text
  cases hv with
  | array hkeys hvalues =>
    obtain ⟨⟨key, w⟩, he, hs⟩ := List.mem_flatMap.mp hs
    have hw := (hvalues _ he).text
    cases key with
    | int n => exact plain_of_mem_declarations hw hs
    | name n =>
      rw [Script.entryStyles] at hs
      split at hs
      · cases hs
      · have hcolon : Plain (":" : Bytes) := by decide
        rw [List.mem_singleton.mp hs]
        exact ((hkeys _ he).1.append hcolon).append hw
  | _ => exact htext hs

theorem plain_scriptStyles (hvs : ∀ v ∈ vs, v.IsPlain) : Plain (Script.styles vs) := by
  have hsemicolon : Plain [Ascii.semicolon] := by decide
  refine Plain.join hsemicolon fun s hs => ?_
  obtain ⟨v, hv, hs⟩ := List.mem_flatMap.mp hs
  exact plain_of_mem_valueStyles (hvs v hv) hs

/-- No name that the value gives as a class has white space in it. -/
def Unspaced : Value → Prop
  | .array es => ∀ e ∈ es, ∀ s, e.1 = .name s → e.2.isTruthy → ∀ c ∈ s, Ascii.isSpace c = false
  | _ => True

theorem Unspaced.name (hv : Unspaced v) (hs : s ∈ Script.valueNames v) : ∀ c ∈ s, Ascii.isSpace c = false := by
  cases v with
  | null => cases hs
  | bool b => cases b with
    | false => cases hs
    | true => exact no_space_of_mem_splitSpace hs
  | array es =>
    obtain ⟨⟨key, w⟩, he, hs⟩ := List.mem_flatMap.mp hs
    cases key with
    | name n =>
      rw [Script.entryNames] at hs
      split at hs
      next hw =>
        rw [List.mem_singleton.mp hs]
        exact hv _ he n rfl hw
      next => cases hs
    | int n =>
      obtain ⟨_, -, hs⟩ := List.mem_flatMap.mp hs
      exact no_space_of_mem_splitSpace hs
  | _ => exact no_space_of_mem_splitSpace hs

theorem scriptClasses_eq (hvs : ∀ v ∈ vs, v.IsPlain) (hunspaced : ∀ v ∈ vs, Unspaced v) :
    Script.classes vs = Merge.classes vs := by
  have hwords : ∀ s ∈ vs.flatMap Script.valueNames, words s = if s = [] then [] else [s] := by
    intro s hs
    obtain ⟨v, hv, hs⟩ := List.mem_flatMap.mp hs
    exact Text.words_of_no_space (plain_of_mem_valueNames (hvs v hv) hs) ((hunspaced v hv).name hs)
  have hfilter : ∀ l : List Bytes, (∀ s ∈ l, words s = if s = [] then [] else [s]) →
      l.flatMap words = l.filter (· != []) := by
    intro l hl
    induction l with
    | nil => rfl
    | cons s l ih =>
      obtain ⟨hs, hl⟩ := List.forall_mem_cons.mp hl
      rw [List.flatMap_cons, hs, ih hl]
      cases s <;> rfl
  rw [Script.classes, Merge.classes, flatMap_valueClasses hvs, hfilter _ hwords]

end Stencil
