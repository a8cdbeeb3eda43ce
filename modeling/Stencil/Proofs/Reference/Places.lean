import Mathlib.Tactic
import Stencil.Proofs.Token.Grouping
import Stencil.Proofs.Unicode.Lower
import Stencil.Reference

/-! Places where a variable is left alone. What stands before a variable between the same brackets, and before the
bracket pairs around it, says whether it is a member name, a parameter, a captured variable or an argument of `isset`,
`empty` or `unset`. These places are described by the code behind them, and the plan, which reads forwards and keeps the
last token and what it lets expect, knows as much. -/

namespace Stencil.Reference

open Token (Kind Group)

/-- A bracket pair around a place: the groups before it and its opening bracket. -/
structure Enclosure where
  before : List Group
  opening : Token

/-- The groups before and after a place between the same brackets, and the bracket pairs around it, outermost first. -/
structure Spot where
  before : List Group
  after : List Group
  around : List Enclosure

def Spot.within (spot : Spot) (e : Enclosure) : Spot := { spot with around := e :: spot.around }

/-- The group stands at the place. -/
inductive Sits (g : Group) : Spot → List Group → Prop where
  | here (before after : List Group) : Sits g ⟨before, after, []⟩ (before ++ g :: after)
  | inside {spot : Spot} {body : List Group} (outer : List Group) (o c : Token) (rest : List Group) :
      Sits g spot body → Sits g (spot.within ⟨outer, o⟩) (outer ++ .pair o body c :: rest)

theorem Sits.mem {t : Token} {spot : Spot} {gs : List Group} (h : Sits (.leaf t) spot gs) : t ∈ Group.tokensOf gs := by
  induction h with
  | here => simp
  | inside _ _ _ _ _ ih => simp [ih]

theorem split_unique {t : Token} {g g' : Group} {before before' after after' : List Group}
    (hnodup : (Group.tokensOf (before ++ g :: after)).Nodup) (hg : t ∈ g.tokens) (hg' : t ∈ g'.tokens)
    (h : before ++ g :: after = before' ++ g' :: after') : before = before' ∧ g = g' ∧ after = after' := by
  induction before generalizing before' with
  | nil =>
    rw [List.nil_append, Group.tokensOf_cons, List.nodup_append] at hnodup
    cases before' with
    | nil => simpa using h
    | cons b before' =>
      obtain ⟨rfl, rfl⟩ := List.cons.inj h
      exact absurd rfl (hnodup.2.2 t hg t (by simp [hg']))
  | cons b before ih =>
    rw [List.cons_append, Group.tokensOf_cons, List.nodup_append] at hnodup
    cases before' with
    | nil =>
      obtain ⟨rfl, rfl⟩ := List.cons.inj h
      exact absurd rfl (hnodup.2.2 t hg' t (by simp [hg]))
    | cons b' before' =>
      obtain ⟨rfl, htail⟩ := List.cons.inj h
      obtain ⟨rfl, hrest⟩ := ih hnodup.2.1 htail
      exact ⟨rfl, hrest⟩

/-- Where no token comes twice, a token stands at one place. -/
theorem Sits.unique {t : Token} {spot spot' : Spot} {gs : List Group} (hnodup : (Group.tokensOf gs).Nodup)
    (h : Sits (.leaf t) spot gs) (h' : Sits (.leaf t) spot' gs) : spot = spot' := by
  induction h generalizing spot' with
  | here before after =>
    generalize hgs : before ++ .leaf t :: after = gs at h'
    cases h' with
    | here before' after' =>
      obtain ⟨rfl, -, rfl⟩ := split_unique (t := t) hnodup (by simp) (by simp) hgs
      rfl
    | inside outer o c rest h' =>
      obtain ⟨-, hpair, -⟩ := split_unique (t := t) hnodup (by simp) (by simp [h'.mem]) hgs
      cases hpair
  | @inside spot body outer o c rest h ih =>
    generalize hgs : outer ++ .pair o body c :: rest = gs at h'
    cases h' with
    | here before' after' =>
      obtain ⟨-, hpair, -⟩ := split_unique (t := t) hnodup (by simp [h.mem]) (by simp) hgs
      cases hpair
    | inside outer' o' c' rest' h' =>
      obtain ⟨rfl, hpair, -⟩ := split_unique (t := t) hnodup (by simp [h.mem]) (by simp [h'.mem]) hgs
      cases hpair
      have hbody : (Group.tokensOf body).Nodup := by
        rw [Group.tokensOf_append, Group.tokensOf_cons, Group.tokens_pair, List.nodup_append, List.nodup_append,
          List.nodup_cons, List.nodup_append] at hnodup
        exact hnodup.2.1.1.2.1
      rw [ih hbody h']

theorem Sits.later {g h : Group} {spot : Spot} {gs : List Group} (hs : Sits g spot gs) :
    ∃ spot', Sits g spot' (h :: gs) ∧ spot'.after = spot.after := by
  cases hs with
  | here before after => exact ⟨_, .here (h :: before) after, rfl⟩
  | inside outer o c rest hs => exact ⟨_, .inside (h :: outer) o c rest hs, rfl⟩

theorem Sits.tokens_before {t : Token} {g : Group} {spot : Spot} {gs : List Group} (h : Sits g spot gs) {e : Enclosure}
    (he : e ∈ spot.around) (ht : t ∈ Group.tokensOf e.before) : t ∈ Group.tokensOf gs := by
  induction h with
  | here => cases he
  | inside outer o c rest _ ih =>
    rcases List.mem_cons.1 he with rfl | he
    · simp [show t ∈ Group.tokensOf outer from ht]
    · simp [ih he]

abbrev Reading := (word text : Bytes) → Prop

def anyCase : Reading := fun word text => text.map Ascii.toLower = word

instance (word text : Bytes) : Decidable (anyCase word text) := inferInstanceAs (Decidable (_ = _))

/-- The code before a place, the nearest group first. -/
def back (before : List Group) : List Group := (before.filter (!·.isTrivia)).reverse

/-- After `->`, `?->`, `::`, `++`, `--` or a bare `$`. The opening bracket around a place is none of them. -/
def AfterMark : List Group → Prop
  | [] => False
  | g :: _ => g.last.kind ∈ [.objectOp, .nullsafeOp, .doubleColon, .incDec] ∨ g.last.kind = .operator ∧ g.last.text = "$"

def functionWords : List Bytes := ["function", "fn"]

def argumentWords : List Bytes := ["isset", "empty", "unset"]

def placeWords : List Bytes := functionWords ++ argumentWords ++ [("use" : Bytes)]

section
variable (reads : Reading)

/-- After one of the words, where it is not the name of a member. -/
def AfterWord (words : List Bytes) : List Group → Prop
  | .leaf t :: gs => t.kind = .ident ∧ t.inString = false ∧ (∃ word ∈ words, reads word t.text) ∧ ¬ AfterMark gs
  | _ => False

/-- After `function` or `fn`, with an optional `&`. -/
def AfterFunction : List Group → Prop
  | .leaf t :: gs => AfterWord reads functionWords (.leaf t :: gs) ∨
      t.kind = .operator ∧ t.text = "&" ∧ AfterWord reads functionWords gs
  | _ => False

/-- After the parameters of an anonymous function. -/
def AfterParameters : List Group → Prop
  | .pair o _ _ :: gs => o.kind = .lparen ∧ AfterFunction reads gs
  | _ => False

/-- After the parameters and `use`. -/
def AfterUse : List Group → Prop
  | .leaf t :: gs => reads "use" t.text ∧ AfterParameters reads gs
  | _ => False

/-- The bracket pair holds the parameters of an anonymous function, the variables it captures, or the arguments of
`isset`, `empty` or `unset`. -/
def NamesOnly (e : Enclosure) : Prop :=
  e.opening.kind = .lparen ∧ (AfterFunction reads (back e.before) ∨ AfterUse reads (back e.before) ∨
    AfterWord reads argumentWords (back e.before))

/-- The variable is left alone for what it is or where it stands. -/
def Exempt (t : Token) (spot : Spot) : Prop :=
  t.inString ∨ t.text = "$this" ∨ AfterMark (back spot.before) ∨ ∃ e ∈ spot.around, NamesOnly reads e

end

/-- How the plan reads words: `use` with each letter folded, the others in lower case. -/
def folded : Reading := fun word text =>
  if word = "use" then Text.spells word text = true else Text.lower text = word

/-- A text that is a word for the plan and for no one else. -/
def Misread (text : Bytes) : Prop := ∃ word ∈ placeWords, folded word text ∧ ¬ anyCase word text

theorem exists_folded {words : List Bytes} (huse : ("use" : Bytes) ∉ words) {text : Bytes} :
    (∃ word ∈ words, folded word text) ↔ Text.lower text ∈ words := by
  constructor
  · rintro ⟨word, hword, h⟩
    rw [folded, if_neg (by rintro rfl; exact huse hword)] at h
    exact h ▸ hword
  · intro h
    refine ⟨_, h, ?_⟩
    rw [folded, if_neg (ne_of_mem_of_not_mem h huse)]

theorem folded_use {text : Bytes} : folded "use" text ↔ Text.spells "use" text := by
  rw [folded, if_pos rfl]

theorem folded_of_anyCase {word text : Bytes} (hword : ∀ c ∈ word, c < 0x80) (h : anyCase word text) :
    folded word text := by
  rw [folded]
  split_ifs
  · exact (Text.spells_iff_of_ascii (Text.ascii_of_map_toLower hword h)).mpr h
  · exact Text.lower_of_map_toLower hword h

theorem not_misread {text : Bytes} (htext : ∀ c ∈ text, c < 0x80) : ¬ Misread text := by
  rintro ⟨word, -, hread, hnot⟩
  rw [folded] at hread
  split_ifs at hread with huse
  · exact hnot ((Text.spells_iff_of_ascii htext).mp hread)
  · exact hnot (by rw [anyCase, ← Text.lower_of_ascii htext, hread])

section
variable {reads reads' : Reading} {gs : List Group}

/-- What is read one way is read another way too. -/
def Widens (reads reads' : Reading) (gs : List Group) : Prop :=
  ∀ t, .leaf t ∈ gs → ∀ word ∈ placeWords, reads word t.text → reads' word t.text

theorem AfterWord.mono {words : List Bytes} (hwords : words ⊆ placeWords)
    (hmono : Widens reads reads' gs) (h : AfterWord reads words gs) : AfterWord reads' words gs := by
  cases gs with
  | nil => exact h
  | cons g gs =>
    cases g with
    | leaf t =>
      obtain ⟨hk, hin, ⟨word, hword, hread⟩, hmark⟩ := h
      exact ⟨hk, hin, ⟨word, hword, hmono t (by simp) word (hwords hword) hread⟩, hmark⟩
    | pair => exact h

theorem Widens.of_cons {g : Group} (hmono : Widens reads reads' (g :: gs)) : Widens reads reads' gs :=
  fun t ht => hmono t (by simp [ht])

theorem AfterFunction.mono (hmono : Widens reads reads' gs) (h : AfterFunction reads gs) : AfterFunction reads' gs := by
  have hwords : functionWords ⊆ placeWords := by decide
  cases gs with
  | nil => exact h
  | cons g gs =>
    cases g with
    | leaf t =>
      rcases h with h | ⟨hk, htext, h⟩
      · exact .inl (h.mono hwords hmono)
      · exact .inr ⟨hk, htext, h.mono hwords hmono.of_cons⟩
    | pair => exact h

theorem AfterUse.mono (hmono : Widens reads reads' gs) (h : AfterUse reads gs) : AfterUse reads' gs := by
  cases gs with
  | nil => exact h
  | cons g gs =>
    cases g with
    | pair => exact h
    | leaf t =>
      obtain ⟨hread, h⟩ := h
      refine ⟨hmono t (by simp) _ (by decide) hread, ?_⟩
      cases gs with
      | nil => exact h
      | cons g gs =>
        cases g with
        | leaf => exact h
        | pair o body c => exact ⟨h.1, h.2.mono hmono.of_cons.of_cons⟩

theorem NamesOnly.mono {e : Enclosure} (hmono : Widens reads reads' (back e.before)) (h : NamesOnly reads e) :
    NamesOnly reads' e := by
  have hwords : argumentWords ⊆ placeWords := by decide
  obtain ⟨ho, h | h | h⟩ := h
  · exact ⟨ho, .inl (h.mono hmono)⟩
  · exact ⟨ho, .inr (.inl (h.mono hmono))⟩
  · exact ⟨ho, .inr (.inr (h.mono hwords hmono))⟩

end

theorem mem_tokensOf_of_back {t : Token} {before : List Group} (h : .leaf t ∈ back before) :
    t ∈ Group.tokensOf before := by
  obtain ⟨pre, post, rfl⟩ := List.append_of_mem (List.mem_of_mem_filter (List.mem_reverse.1 h))
  simp

theorem Exempt.read {t : Token} {spot : Spot} (h : Exempt anyCase t spot) : Exempt folded t spot := by
  have hwords : ∀ word ∈ placeWords, ∀ c ∈ word, c < 0x80 := by decide +kernel
  obtain h | h | h | ⟨e, he, h⟩ := h
  · exact .inl h
  · exact .inr (.inl h)
  · exact .inr (.inr (.inl h))
  · exact .inr (.inr (.inr ⟨e, he, h.mono fun t _ word hword => folded_of_anyCase (hwords word hword)⟩))

/-- Where no text is misread, the plan reads a word only where it is. -/
theorem Exempt.spelled {t : Token} {spot : Spot} {gs : List Group} (hsits : Sits (.leaf t) spot gs)
    (hplain : ∀ t ∈ Group.tokensOf gs, ¬ Misread t.text) (h : Exempt folded t spot) : Exempt anyCase t spot := by
  obtain h | h | h | ⟨e, he, h⟩ := h
  · exact .inl h
  · exact .inr (.inl h)
  · exact .inr (.inr (.inl h))
  · refine .inr (.inr (.inr ⟨e, he, h.mono fun t ht word hword hread => ?_⟩))
    have hmem := hsits.tokens_before he (mem_tokensOf_of_back ht)
    by_contra hnot
    exact hplain t hmem ⟨word, hword, hread, hnot⟩

theorem isTrivia_of_mem_back {before : List Group} {g : Group} (h : g ∈ back before) : g.isTrivia = false := by
  simpa [back] using (List.mem_filter.1 (List.mem_reverse.1 h)).2

/-- The place that the plan reaches behind some code, given the nearest group first. -/
def reach (back : List Group) : Place := back.foldr (fun g p => p.after g) .start

theorem after_reach (before : List Group) (g : Group) : (reach (back before)).after g = reach (back (before ++ [g])) := by
  cases hg : g.isTrivia with
  | false => simp [back, hg, reach]
  | true =>
    cases g with
    | leaf t => simp [back, hg, Place.after, show t.isTrivia = true from hg]
    | pair => cases hg

theorem followsAccess_iff {t : Token} : followsAccess t ↔
    t.kind ∈ [.objectOp, .nullsafeOp, .doubleColon, .incDec] ∨ t.kind = .operator ∧ t.text = "$" := by
  simp [followsAccess, isAccessOp, or_assoc]
  rfl

def IsWord (words : List Bytes) (p : Place) (t : Token) : Prop :=
  t.kind = .ident ∧ t.inString = false ∧ Text.lower t.text ∈ words ∧ p.afterAccess = false

section
variable {p : Place} {t : Token}

theorem spells_use_ne (h : Text.spells "use" t.text) : Text.lower t.text ∉ functionWords := by
  intro hword
  have hhead := Text.head?_lower_of_spells h
  simp only [functionWords, List.mem_cons, List.not_mem_nil, or_false] at hword
  rcases hword with hword | hword <;> rw [hword] at hhead <;> cases hhead

theorem expectationAfter_eq_parameters_true :
    p.expectationAfter t = .parameters true ↔ IsWord functionWords p t := by
  simp only [Place.expectationAfter, IsWord]
  split_ifs with hamp huse hident hfunction
  · simp [hamp.2.1]
  · simpa using fun _ _ hword => absurd hword (spells_use_ne huse.2)
  all_goals simp_all [functionWords]

theorem expectationAfter_eq_parameters_false :
    p.expectationAfter t = .parameters false ↔ p.expectation = .parameters true ∧ t.kind = .operator ∧ t.text = "&" := by
  have htext : ([Ascii.ampersand] : Bytes) = "&" := rfl
  simp only [Place.expectationAfter, htext]
  split_ifs with hamp <;> simp [-not_and, hamp]

theorem expectationAfter_ne_use : p.expectationAfter t ≠ .use := by
  simp only [Place.expectationAfter]
  split_ifs <;> simp

theorem expectationAfter_eq_captures :
    p.expectationAfter t = .captures ↔ p.expectation = .use ∧ Text.spells "use" t.text := by
  simp only [Place.expectationAfter]
  split_ifs with hamp huse hident <;> simp_all

theorem expectationAfter_eq_arguments (huse : ¬ (p.expectation = .use ∧ Text.spells "use" t.text)) :
    p.expectationAfter t = .arguments ↔ IsWord argumentWords p t := by
  have hdisjoint : ∀ w ∈ functionWords, w ∉ argumentWords := by decide
  have hword := hdisjoint (Text.lower t.text)
  simp only [Place.expectationAfter, IsWord]
  split_ifs with hamp huse hident hfunction <;> simp_all [functionWords, argumentWords, or_assoc]

end

section
variable {t o c : Token} {body gs : List Group} (hgs : ∀ g ∈ gs, g.isTrivia = false)

theorem reach_leaf (ht : t.isTrivia = false) :
    reach (.leaf t :: gs) = ⟨some t, (reach gs).expectationAfter t⟩ := by
  simp [reach, Place.after, ht]

theorem expectation_reach_pair : (reach (.pair o body c :: gs)).expectation =
    if o.kind = .lparen ∧ ∃ b, (reach gs).expectation = .parameters b then .use else .nothing := by
  rw [show reach (.pair o body c :: gs) = (reach gs).after (.pair o body c) from rfl, Place.after]
  cases (reach gs).expectation <;> simp

include hgs in
theorem afterAccess_reach : (reach gs).afterAccess ↔ AfterMark gs := by
  cases gs with
  | nil => simp [reach, Place.start, Place.afterAccess, AfterMark]
  | cons g gs =>
    rw [AfterMark, ← followsAccess_iff]
    cases g with
    | leaf t => simp [reach_leaf (hgs (.leaf t) (by simp)), Place.afterAccess, Group.last]
    | pair o body c => simp [reach, Place.after, Place.afterAccess, Group.last]

include hgs in
theorem isWord_reach {words : List Bytes} (huse : ("use" : Bytes) ∉ words) :
    IsWord words (reach gs) t ↔ AfterWord folded words (.leaf t :: gs) := by
  rw [IsWord, AfterWord, exists_folded huse, ← afterAccess_reach hgs, Bool.not_eq_true]

include hgs in
theorem expectation_reach_function : (reach gs).expectation = .parameters true ↔ AfterWord folded functionWords gs := by
  cases gs with
  | nil => simp [reach, Place.start, AfterWord]
  | cons g gs =>
    obtain ⟨hg, htail⟩ := List.forall_mem_cons.1 hgs
    cases g with
    | leaf t => rw [reach_leaf hg, expectationAfter_eq_parameters_true, isWord_reach htail (by decide)]
    | pair o body c =>
      rw [expectation_reach_pair]
      split_ifs <;> simp [AfterWord]

include hgs in
theorem expectation_reach_parameters : (∃ b, (reach gs).expectation = .parameters b) ↔ AfterFunction folded gs := by
  rw [Bool.exists_bool, expectation_reach_function hgs, or_comm]
  cases gs with
  | nil => simp [reach, Place.start, AfterWord, AfterFunction]
  | cons g gs =>
    obtain ⟨hg, htail⟩ := List.forall_mem_cons.1 hgs
    cases g with
    | leaf t =>
      rw [reach_leaf hg, expectationAfter_eq_parameters_false, expectation_reach_function htail, AfterFunction,
        and_comm, and_assoc]
    | pair o body c =>
      rw [expectation_reach_pair]
      split_ifs <;> simp [AfterWord, AfterFunction]

include hgs in
theorem expectation_reach_use : (reach gs).expectation = .use ↔ AfterParameters folded gs := by
  cases gs with
  | nil => simp [reach, Place.start, AfterParameters]
  | cons g gs =>
    obtain ⟨hg, htail⟩ := List.forall_mem_cons.1 hgs
    cases g with
    | leaf t => simp [reach_leaf hg, expectationAfter_ne_use, AfterParameters]
    | pair o body c =>
      rw [expectation_reach_pair, AfterParameters, ← expectation_reach_parameters htail]
      simp only [ite_eq_left_iff, reduceCtorEq, imp_false, not_not]

include hgs in
theorem expectation_reach_captures : (reach gs).expectation = .captures ↔ AfterUse folded gs := by
  cases gs with
  | nil => simp [reach, Place.start, AfterUse]
  | cons g gs =>
    obtain ⟨hg, htail⟩ := List.forall_mem_cons.1 hgs
    cases g with
    | leaf t => rw [reach_leaf hg, expectationAfter_eq_captures, expectation_reach_use htail, AfterUse,
        folded_use, and_comm]
    | pair o body c =>
      rw [expectation_reach_pair]
      split_ifs <;> simp [AfterUse]

include hgs in
theorem expectation_reach_arguments (huse : ¬ AfterUse folded gs) :
    (reach gs).expectation = .arguments ↔ AfterWord folded argumentWords gs := by
  cases gs with
  | nil => simp [reach, Place.start, AfterWord]
  | cons g gs =>
    obtain ⟨hg, htail⟩ := List.forall_mem_cons.1 hgs
    cases g with
    | leaf t =>
      rw [AfterUse, folded_use, ← expectation_reach_use htail, and_comm] at huse
      rw [reach_leaf hg, expectationAfter_eq_arguments huse, isWord_reach htail (by decide)]
    | pair o body c =>
      rw [expectation_reach_pair]
      split_ifs <;> simp [AfterWord]

end

/-- What the plan expects of a bracket pair is what the code before the pair says. -/
theorem exempts_reach (before : List Group) (o : Token) :
    (reach (back before)).exempts o ↔ NamesOnly folded ⟨before, o⟩ := by
  have hgs : ∀ g ∈ back before, g.isTrivia = false := fun g => isTrivia_of_mem_back
  rw [NamesOnly, ← expectation_reach_parameters hgs, ← expectation_reach_captures hgs, Place.exempts, Bool.and_eq_true,
    beq_iff_eq]
  refine and_congr_right fun _ => ?_
  by_cases huse : (reach (back before)).expectation = .captures
  · simp [huse]
  · rw [← expectation_reach_arguments hgs (by rwa [← expectation_reach_captures hgs])]
    cases hexpects : (reach (back before)).expectation <;> simp

end Stencil.Reference
