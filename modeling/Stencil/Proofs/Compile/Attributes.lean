import Stencil.Compile.Attributes
import Stencil.Compile.Render
import Stencil.Proofs.Compile.Following
import Stencil.Proofs.Compile.Outline
import Stencil.Proofs.Literal.Scalars
import Stencil.Proofs.Merge.Grouping

/-! Attributes written one by one and attributes merged. Where the names are distinct and the values known, both write
the same names in the same order and leave out the same values; but what is merged is always escaped, and what is written
on its own only if it asks for it. So the texts agree just if nothing unescaped has a character to escape. -/

namespace Stencil

namespace Template

def secondsFrom : (used : Nat) → List Piece → Nat
  | _, [] => 0
  | used, .byte _ :: ps => secondsFrom used ps
  | used, .next :: ps => (if used = 1 then 1 else 0) + secondsFrom (used + 1) ps
  | used, .nth n :: ps => (if n - 1 = 1 then 1 else 0) + secondsFrom used ps

def seconds (template : Bytes) : Nat := secondsFrom 0 (pieces template)

theorem length_getD_pair (name v : Bytes) (i : Nat) :
    (([name, v] : List Bytes).getD i []).length =
      (([name, []] : List Bytes).getD i []).length + (if i = 1 then 1 else 0) * v.length := by
  match i with
  | 0 => simp
  | 1 => simp
  | i + 2 => simp

theorem length_fill (name v : Bytes) (used : Nat) (ps : List Piece) :
    (fill [name, v] used ps).length = (fill [name, []] used ps).length + secondsFrom used ps * v.length := by
  induction ps generalizing used with
  | nil => simp [fill, secondsFrom]
  | cons p ps ih =>
    cases p with
    | byte c =>
      rw [fill, fill, secondsFrom, List.length_cons, List.length_cons, ih]
      omega
    | next =>
      rw [fill, fill, secondsFrom, List.length_append, List.length_append, ih, length_getD_pair, Nat.add_mul]
      omega
    | nth n =>
      rw [fill, fill, secondsFrom, List.length_append, List.length_append, ih, length_getD_pair, Nat.add_mul]
      omega

theorem getD_pair {i : Nat} (hi : i ≠ 1) (name v w : Bytes) :
    ([name, v] : List Bytes).getD i [] = ([name, w] : List Bytes).getD i [] := by
  match i, hi with
  | 0, _ => rfl
  | i + 2, _ => rfl

theorem fill_of_secondsFrom (name v w : Bytes) {used : Nat} {ps : List Piece} (h : secondsFrom used ps = 0) :
    fill [name, v] used ps = fill [name, w] used ps := by
  induction ps generalizing used with
  | nil => rfl
  | cons p ps ih =>
    cases p with
    | byte c => rw [fill, fill, ih h]
    | next =>
      obtain ⟨hnow, hrest⟩ := Nat.add_eq_zero_iff.mp h
      have hused : used ≠ 1 := fun heq => by simp [heq] at hnow
      rw [fill, fill, ih hrest, getD_pair hused name v w]
    | nth n =>
      obtain ⟨hnow, hrest⟩ := Nat.add_eq_zero_iff.mp h
      have hn : n - 1 ≠ 1 := fun heq => by simp [heq] at hnow
      rw [fill, fill, ih hrest, getD_pair hn name v w]

/-- A longer second argument gives a longer text, or the template has no place for one. -/
theorem format_eq_iff {template name v w : Bytes} (h : v = w ∨ v.length < w.length) :
    (format template [name, v]).length ≤ (format template [name, w]).length ∧
      (format template [name, v] = format template [name, w] ↔ seconds template = 0 ∨ v = w) := by
  have hv := length_fill name v 0 (pieces template)
  have hw := length_fill name w 0 (pieces template)
  refine ⟨?_, fun heq => ?_, ?_⟩
  · rw [format, format, hv, hw]
    rcases h with rfl | hlt
    · exact le_rfl
    · exact Nat.add_le_add_left (Nat.mul_le_mul_left _ hlt.le) _
  · rcases h with rfl | hlt
    · exact .inr rfl
    · have hlength := congrArg List.length heq
      rw [format, format, hv, hw, Nat.add_left_cancel_iff] at hlength
      rcases Nat.eq_zero_or_pos (secondsFrom 0 (pieces template)) with hzero | hpos
      · exact .inl hzero
      · exact absurd (Nat.eq_of_mul_eq_mul_left hpos hlength) hlt.ne
  · rintro (hzero | rfl)
    · exact fill_of_secondsFrom name v w hzero
    · rfl

end Template

namespace Entity

theorem encode_eq_or (c : UInt8) : encode c = [c] ∨ 1 < (encode c).length := by
  unfold encode
  split_ifs
  all_goals first | exact .inl rfl | exact .inr (by decide)

/-- Escaping leaves a text as it is or makes it longer. -/
theorem escape_eq_or (s : Bytes) : s = escape s ∨ s.length < (escape s).length := by
  induction s with
  | nil => exact .inl rfl
  | cons c s ih =>
    have hcons : escape (c :: s) = encode c ++ escape s := List.flatMap_cons
    have hlength : (escape (c :: s)).length = (encode c).length + (escape s).length := by
      rw [hcons, List.length_append]
    rcases encode_eq_or c with hc | hc
    · rcases ih with hs | hs
      · exact .inl (by rw [hcons, hc, ← hs, List.singleton_append])
      · refine .inr ?_
        rw [hlength, hc, List.length_cons, List.length_singleton]
        omega
    · refine .inr ?_
      have hle : s.length ≤ (escape s).length := ih.elim (fun h => (congrArg List.length h).le) Nat.le_of_lt
      rw [hlength, List.length_cons]
      omega

end Entity

namespace Environment

variable {env : Environment} {scope : Scope}

theorem mapM_piece_plain (env : Environment) (site : Site) (ts : List Token) :
    (ts.map Reference.Piece.plain).mapM (env.piece site) = .ok (ts.map (Reference.tokenText env.handlers)) := by
  rw [List.mapM_map]
  exact List.mapM_pure

theorem code_of_plain (env : Environment) {source : Bytes} {ts : List Token} (hts : Token.tokenize source = .ok ts)
    (hplan : ∀ b, Reference.plan b source = .ok (ts.map .plain)) (site : Site) (checked : Bool) :
    env.code site source checked = .ok (Reference.tokenTexts env.handlers ts) := by
  rw [Environment.code]
  cases checked with
  | true =>
    rw [if_pos rfl, hplan]
    change (ts.map Reference.Piece.plain).mapM (env.piece site) >>= _ = _
    rw [mapM_piece_plain]
    exact congrArg Except.ok (List.flatMap_def ..).symm
  | false =>
    rw [if_neg (by decide), Reference.handleAll, hts]
    rfl

theorem code_of_scalar (env : Environment) {source : Bytes} {v : Value} (h : scope.scalar? source = some v) (site : Site)
    (checked : Bool) : ∃ code, env.code site source checked = .ok code := by
  obtain ⟨hconstant, hscalar⟩ := Option.filter_eq_some_iff.mp h
  unfold Scope.constant? at hconstant
  split at hconstant
  · obtain ⟨es, -, rfl⟩ := Option.map_eq_some_iff.mp hconstant
    cases hscalar
  · obtain ⟨ts, hts, hlone⟩ := Literal.lone_of_evaluate hconstant hscalar
    refine ⟨_, env.code_of_plain hts (fun b => ?_) site checked⟩
    refine Reference.plan_eq_ok.mpr ⟨ts, ts.map .leaf, hts, Token.Group.build_lone hlone [], ?_⟩
    exact (Reference.planFrom_lone hlone b .start).symm

end Environment

namespace Contribution

variable {env : Environment} {scope : Scope} {a : Attribute} {v : Value} {escape : Bool}

/-- What a value is and whether it asks to be escaped, if it is known before run time and no array. -/
def constant? (scope : Scope) : Attribute.Value → Option (Value × Bool)
  | .absent => some (.bool true, true)
  | .text s escape => some (.string s, escape)
  | .code s => (((Word.of? s.source).map Word.value).or (scope.scalar? s.source)).map fun v => (v, s.escape)
  | .other _ => none

/-- No character of the value would be escaped, or it is escaped anyway. -/
def Clean (scope : Scope) (value : Attribute.Value) : Prop :=
  ∀ v, constant? scope value = some (v, false) → v.text = Entity.escape v.text

theorem value_ofAttribute (env : Environment) (hname : a.nameExpr = none)
    (hvalue : constant? scope a.value = some (v, escape)) :
    ∃ c, ofAttribute env scope a = .ok c ∧ c.value = some [(Key.ofText a.name, v)] := by
  have hattribute : ∃ code, attributeValue env scope a.value = .ok (some v, code) := by
    cases hv : a.value with
    | absent =>
      rw [hv] at hvalue
      cases hvalue
      exact ⟨_, rfl⟩
    | text s e =>
      rw [hv] at hvalue
      cases hvalue
      exact ⟨_, rfl⟩
    | other site =>
      rw [hv] at hvalue
      cases hvalue
    | code s =>
      rw [hv, constant?] at hvalue
      rw [attributeValue]
      cases hword : Word.of? s.source with
      | some w =>
        rw [hword] at hvalue
        cases hvalue
        exact ⟨_, rfl⟩
      | none =>
        rw [hword] at hvalue
        obtain ⟨w, hscalar, heq⟩ := Option.map_eq_some_iff.mp hvalue
        cases heq
        obtain ⟨code, hcode⟩ := env.code_of_scalar hscalar s.site s.checked
        refine ⟨code, ?_⟩
        rw [Environment.snippet, hcode, (Option.filter_eq_some_iff.mp hscalar).1]
        rfl
  obtain ⟨code, hcode⟩ := hattribute
  rw [ofAttribute, keyCode, hname, hcode]
  exact ⟨_, rfl, rfl⟩

end Contribution

namespace Merge

/-- Distinct keys that are neither class nor style stay as they are. -/
theorem attributes_of_distinct {sets : List (List (Key × Value))} (hdistinct : (sets.flatten.map (·.1)).Nodup)
    (hplain : ∀ e ∈ sets.flatten, ¬ Collected e.1) : attributes sets = sets.flatten := by
  have hkeys : (attributes sets).map (·.1) = sets.flatten.map (·.1) := by
    rw [map_fst_attributes, eraseDups_of_nodup hdistinct]
  refine eq_of_lookup? hkeys (hkeys ▸ hdistinct) fun key => ?_
  rw [lookup?_attributes]
  by_cases hkey : Collected key
  · have hnone : key ∉ sets.flatten.map (·.1) := by
      intro hmem
      obtain ⟨e, he, rfl⟩ := List.mem_map.mp hmem
      exact hplain e he hkey
    rw [values_eq_nil hnone, lookup?_eq_none hnone, List.foldl_nil]
  · rw [joined_of_not_collected hkey, foldl_some, values_of_nodup hdistinct]
    cases Script.lookup? sets.flatten key <;> rfl

end Merge

theorem exists_mapM {α β γ : Type} {f : α → Except Failure β} {g : β → Option γ} {h : α → γ} {xs : List α}
    (hxs : ∀ x ∈ xs, ∃ y, f x = .ok y ∧ g y = some (h x)) :
    ∃ ys, xs.mapM f = .ok ys ∧ ys.mapM g = some (xs.map h) := by
  induction xs with
  | nil => exact ⟨[], rfl, rfl⟩
  | cons x xs ih =>
    obtain ⟨⟨y, hy, hgy⟩, hrest⟩ := List.forall_mem_cons.mp hxs
    obtain ⟨ys, hys, hgys⟩ := ih hrest
    refine ⟨y :: ys, ?_, ?_⟩
    · rw [List.mapM_cons, hy, hys]
      rfl
    · rw [List.mapM_cons, hgy, hgys]
      rfl

theorem flatMap_eq_iff {α β : Type} {l : List α} {f g : α → List β} (h : ∀ a ∈ l, (f a).length ≤ (g a).length) :
    (l.flatMap f).length ≤ (l.flatMap g).length ∧ (l.flatMap f = l.flatMap g ↔ ∀ a ∈ l, f a = g a) := by
  induction l with
  | nil => simp
  | cons a l ih =>
    obtain ⟨ha, hl⟩ := List.forall_mem_cons.mp h
    obtain ⟨hle, hiff⟩ := ih hl
    rw [List.flatMap_cons, List.flatMap_cons, List.length_append, List.length_append, List.forall_mem_cons]
    refine ⟨Nat.add_le_add ha hle, fun heq => ?_, fun ⟨hhead, htail⟩ => ?_⟩
    · have hlength := congrArg List.length heq
      rw [List.length_append, List.length_append] at hlength
      obtain ⟨hhead, htail⟩ := List.append_inj heq (by omega)
      exact ⟨hhead, hiff.mp htail⟩
    · rw [hhead, hiff.mpr htail]

theorem mapM_eq_pure {m : Type → Type} [Monad m] [LawfulMonad m] {α β : Type} {f : α → m β} {g : α → β} {l : List α}
    (h : ∀ a ∈ l, f a = pure (g a)) : l.mapM f = pure (l.map g) := by
  induction l with
  | nil => rw [List.mapM_nil, List.map_nil]
  | cons a l ih =>
    obtain ⟨ha, hl⟩ := List.forall_mem_cons.mp h
    rw [List.mapM_cons, ha, ih hl, pure_bind, pure_bind, List.map_cons]

namespace Attributes

open Contribution (constant? Clean)

/-- The text of an attribute with a known value, from the templates of a pair and of a bare name. -/
def shown (pair bare name : Bytes) (escape : Bool) : Value → Bytes
  | .null => []
  | .bool false => []
  | .bool true => Template.format bare [name, name]
  | v => Template.format pair [name, if escape then Entity.escape v.text else v.text]

section Texts

variable {env : Environment} {pair bare : Bytes} (hpair : env.patterns.get? "attribute_pattern" = some (.template pair))
  (hbare : env.patterns.get? "boolean_attribute_pattern" = some (.template bare))

include hpair in
theorem pattern_pair (site : Site) (name value : Bytes) :
    env.pattern site "attribute_pattern" [name, value] = .ok (Template.format pair [name, value]) := by
  rw [Environment.pattern, Pattern.render_of_template hpair]
  rfl

include hbare in
theorem pattern_bare (site : Site) (name : Bytes) :
    env.pattern site "boolean_attribute_pattern" [name, name] = .ok (Template.format bare [name, name]) := by
  rw [Environment.pattern, Pattern.render_of_template hbare]
  rfl

include hpair hbare

theorem known_eq {a : Attribute} (hname : a.nameExpr = none) (escape : Bool) (v : Value) :
    known env a escape v = pure (shown pair bare a.name escape v) := by
  have hvalue (value : Bytes) : Attributes.pair env a value = .ok (Template.format pair [a.name, value]) := by
    rw [Attributes.pair, key, hname]
    exact pattern_pair hpair a.site a.name value
  have hflag : Attributes.bare env a = pure (Template.format bare [a.name, a.name]) := by
    rw [Attributes.bare, hname]
    exact congrArg liftM (pattern_bare hbare a.site a.name)
  cases v with
  | null => rfl
  | bool b =>
    cases b with
    | false => rfl
    | true => exact hflag
  | int n => exact congrArg liftM (hvalue _)
  | float x => exact congrArg liftM (hvalue _)
  | string s => exact congrArg liftM (hvalue _)
  | array es => exact congrArg liftM (hvalue _)

/-- On its own, a known value is escaped if it asks for it. -/
theorem single_eq {scope : Scope} {a : Attribute} (hname : a.nameExpr = none) {v : Value} {escape : Bool}
    (hvalue : constant? scope a.value = some (v, escape)) :
    single env scope a = pure (shown pair bare a.name escape v) := by
  rw [← known_eq hpair hbare hname]
  unfold single
  cases hv : a.value with
  | absent =>
    rw [hv] at hvalue
    cases hvalue
    rfl
  | text s e =>
    rw [hv] at hvalue
    cases hvalue
    rfl
  | other site =>
    rw [hv] at hvalue
    cases hvalue
  | code s =>
    rw [hv, constant?] at hvalue
    dsimp only
    cases hword : Contribution.Word.of? s.source with
    | some w =>
      rw [hword] at hvalue
      cases hvalue
      rfl
    | none =>
      rw [hword] at hvalue
      obtain ⟨w, hscalar, heq⟩ := Option.map_eq_some_iff.mp hvalue
      cases heq
      rw [show scope.scalar? s.source = some v from hscalar]

/-- In a merged set, a value is escaped whatever it asked for. -/
theorem entry_eq (site : Site) {name : Bytes} (hname : name ≠ "class" ∧ name ≠ "style") (v : Value) :
    entry env site (Key.ofText name, v) = .ok (shown pair bare name true v) := by
  have hplain : (name == "class" || name == "style") = false := by simpa using hname
  have hvalue (t : Bytes) : env.pattern site "attribute_pattern" [name, t] = .ok (Template.format pair [name, t]) :=
    pattern_pair hpair site name t
  unfold entry
  dsimp only
  rw [Key.text_ofText]
  cases v with
  | null => rfl
  | bool b =>
    cases b with
    | false => rfl
    | true => exact pattern_bare hbare site name
  | int n => simp only [hplain, hvalue, Bool.false_and, Bool.false_eq_true, if_false, shown, if_true]
  | float x => simp only [hplain, hvalue, Bool.false_and, Bool.false_eq_true, if_false, shown, if_true]
  | string s => simp only [hplain, hvalue, Bool.false_and, Bool.false_eq_true, if_false, shown, if_true]
  | array es => simp only [hplain, hvalue, Bool.false_and, Bool.false_eq_true, if_false, shown, if_true]

end Texts

/-- Escaping makes a text longer where it changes a value the template shows. -/
theorem shown_eq_iff (pair bare name : Bytes) (escape : Bool) (v : Value) :
    (shown pair bare name escape v).length ≤ (shown pair bare name true v).length ∧
      (shown pair bare name escape v = shown pair bare name true v ↔
        Template.seconds pair = 0 ∨ (escape = false → v.text = Entity.escape v.text)) := by
  cases escape with
  | true => simp
  | false =>
    have htext (t : Bytes) : (Template.format pair [name, t]).length ≤ (Template.format pair [name, Entity.escape t]).length ∧
        (Template.format pair [name, t] = Template.format pair [name, Entity.escape t] ↔
          Template.seconds pair = 0 ∨ (false = false → t = Entity.escape t)) := by
      obtain ⟨hle, hiff⟩ := @Template.format_eq_iff pair name _ _ (Entity.escape_eq_or t)
      exact ⟨hle, by simpa using hiff⟩
    cases v with
    | null => exact ⟨le_rfl, iff_of_true rfl (.inr fun _ => rfl)⟩
    | bool b =>
      cases b with
      | false => exact ⟨le_rfl, iff_of_true rfl (.inr fun _ => rfl)⟩
      | true => exact ⟨le_rfl, iff_of_true rfl (.inr fun _ => rfl)⟩
    | int n => exact htext _
    | float x => exact htext _
    | string s => exact htext _
    | array es => exact htext _

section Lists

variable {env : Environment} {scope : Scope} {attributes : List Attribute} {pair bare : Bytes}

theorem needMerge_eq_false (seen : List Bytes)
    (h : ∀ a ∈ attributes, a.nameExpr = none ∧ a.name ≠ "class" ∧ a.name ≠ "style") :
    needMerge scope seen attributes = false := by
  induction attributes with
  | nil => rfl
  | cons a l ih =>
    obtain ⟨⟨hname, hplain⟩, hl⟩ := List.forall_mem_cons.mp h
    have hstatic : a.staticName = some a.name := by
      rw [Attribute.staticName, hname]
      rfl
    have hmerged : (a.name == "class" || a.name == "style") = false := by simpa using hplain
    rw [needMerge, hstatic]
    dsimp only
    rw [hmerged]
    exact ih hl

def constant (scope : Scope) (a : Attribute) : Value × Bool := (constant? scope a.value).getD (.null, true)

theorem constant?_eq {a : Attribute} (h : (constant? scope a.value).isSome) :
    constant? scope a.value = some ((constant scope a).1, (constant scope a).2) := by
  obtain ⟨c, hc⟩ := Option.isSome_iff_exists.mp h
  rw [constant, hc]
  rfl

theorem clean_iff {a : Attribute} (h : (constant? scope a.value).isSome) :
    Clean scope a.value ↔ ((constant scope a).2 = false → (constant scope a).1.text = Entity.escape (constant scope a).1.text) := by
  rw [Clean, constant?_eq h]
  constructor
  · intro hclean hescape
    exact hclean _ (by rw [hescape])
  · rintro hclean v heq
    obtain ⟨rfl, hescape⟩ := Prod.mk.inj (Option.some.inj heq)
    exact hclean hescape

/-- Merging is writing every attribute escaped. -/
theorem entries_eq (hnames : ∀ a ∈ attributes, a.nameExpr = none ∧ a.name ≠ "class" ∧ a.name ≠ "style")
    (hpair : env.patterns.get? "attribute_pattern" = some (.template pair))
    (hbare : env.patterns.get? "boolean_attribute_pattern" = some (.template bare)) (site : Site) :
    entries env site (attributes.map fun a => (Key.ofText a.name, (constant scope a).1)) =
      .ok (attributes.flatMap fun a => shown pair bare a.name true (constant scope a).1) := by
  have htexts : (attributes.map fun a => (Key.ofText a.name, (constant scope a).1)).mapM (entry env site) =
      .ok (attributes.map fun a => shown pair bare a.name true (constant scope a).1) := by
    rw [List.mapM_map]
    exact mapM_eq_pure fun a ha => entry_eq hpair hbare site (hnames a ha).2 _
  rw [entries, htexts, List.flatMap_def]
  rfl

theorem merge_eq (hnames : ∀ a ∈ attributes, a.nameExpr = none ∧ a.name ≠ "class" ∧ a.name ≠ "style")
    (hpair : env.patterns.get? "attribute_pattern" = some (.template pair))
    (hbare : env.patterns.get? "boolean_attribute_pattern" = some (.template bare)) (site : Site) {cs : List Contribution}
    (h : Contribution.merged? cs = some (attributes.map fun a => (Key.ofText a.name, (constant scope a).1))) :
    merge env site cs = pure (attributes.flatMap fun a => shown pair bare a.name true (constant scope a).1) := by
  rw [merge, h]
  exact congrArg liftM (entries_eq hnames hpair hbare site)

theorem mapM_single (hnames : ∀ a ∈ attributes, a.nameExpr = none ∧ a.name ≠ "class" ∧ a.name ≠ "style")
    (hvalues : ∀ a ∈ attributes, (constant? scope a.value).isSome)
    (hpair : env.patterns.get? "attribute_pattern" = some (.template pair))
    (hbare : env.patterns.get? "boolean_attribute_pattern" = some (.template bare)) :
    attributes.mapM (single env scope) =
      pure (attributes.map fun a => shown pair bare a.name (constant scope a).2 (constant scope a).1) :=
  mapM_eq_pure fun a ha => single_eq hpair hbare (hnames a ha).1 (constant?_eq (hvalues a ha))

/-- The texts agree as a whole only if they agree one by one, for escaping never makes one shorter. -/
theorem flatMap_shown_eq_iff (pair bare : Bytes) (hvalues : ∀ a ∈ attributes, (constant? scope a.value).isSome) :
    (attributes.flatMap fun a => shown pair bare a.name (constant scope a).2 (constant scope a).1) =
        (attributes.flatMap fun a => shown pair bare a.name true (constant scope a).1) ↔
      Template.seconds pair = 0 ∨ ∀ a ∈ attributes, Clean scope a.value := by
  obtain ⟨-, hiff⟩ := flatMap_eq_iff fun a (_ : a ∈ attributes) =>
    (shown_eq_iff pair bare a.name (constant scope a).2 (constant scope a).1).1
  have heach (a : Attribute) (ha : a ∈ attributes) :
      shown pair bare a.name (constant scope a).2 (constant scope a).1 = shown pair bare a.name true (constant scope a).1 ↔
        Template.seconds pair = 0 ∨ Clean scope a.value := by
    rw [clean_iff (hvalues a ha)]
    exact (shown_eq_iff pair bare a.name (constant scope a).2 (constant scope a).1).2
  rw [hiff]
  constructor
  · intro h
    refine or_iff_not_imp_left.mpr fun hseconds a ha => ?_
    exact ((heach a ha).mp (h a ha)).resolve_left hseconds
  · intro h a ha
    exact (heach a ha).mpr (h.imp_right fun hclean => hclean a ha)

variable (hdistinct : (attributes.map (·.name)).Nodup)
  (hnames : ∀ a ∈ attributes, a.nameExpr = none ∧ a.name ≠ "class" ∧ a.name ≠ "style")
  (hvalues : ∀ a ∈ attributes, (constant? scope a.value).isSome)

include hdistinct hnames hvalues

/-- The sets of the attributes are known, and merged they are the attributes in order; an empty set changes nothing. -/
theorem merged_collect (env : Environment) {assignments : List Assignment} {more : List Contribution}
    (hmore : Contribution.ofAssignments env scope assignments = .ok more)
    (hempty : ∀ c ∈ more, c.value = some []) :
    ∃ cs, Contribution.collect env scope attributes assignments = .ok cs ∧
      Contribution.merged? cs = some (attributes.map fun a => (Key.ofText a.name, (constant scope a).1)) := by
  obtain ⟨cs, hcs, hsets⟩ := exists_mapM fun a ha =>
    Contribution.value_ofAttribute env (hnames a ha).1 (constant?_eq (hvalues a ha))
  have hrest : ∃ k, (more.mapM fun c => c.value) = some (List.replicate k []) := by
    clear hmore hcs hsets
    induction more with
    | nil => exact ⟨0, rfl⟩
    | cons c more ih =>
      obtain ⟨hc, hmore⟩ := List.forall_mem_cons.mp hempty
      obtain ⟨k, hk⟩ := ih hmore
      exact ⟨k + 1, by rw [List.mapM_cons, hc, hk]; rfl⟩
  obtain ⟨k, hk⟩ := hrest
  have hflat : (attributes.map (fun a : Attribute => [(Key.ofText a.name, (constant scope a).1)]) ++ List.replicate k []).flatten =
      attributes.map fun a => (Key.ofText a.name, (constant scope a).1) := by
    rw [List.flatten_append, ← List.flatMap_def, ← List.map_eq_flatMap, List.flatten_replicate_nil, List.append_nil]
  have hinjective : Function.Injective Key.ofText := fun s t h => by
    rw [← Key.text_ofText s, h, Key.text_ofText]
  refine ⟨cs ++ more, ?_, ?_⟩
  · rw [Contribution.collect, hcs, hmore]
    rfl
  · rw [Contribution.merged?, List.mapM_append, hsets, hk]
    change some (Merge.attributes (_ ++ _)) = _
    rw [Merge.attributes_of_distinct, hflat]
    · have hkeys := hdistinct.map hinjective
      rw [List.map_map] at hkeys
      rwa [hflat, List.map_map]
    · rw [hflat, List.forall_mem_map]
      rintro a ha (hclass | hstyle)
      · exact (hnames a ha).2.1 (Key.eq_of_ofText hclass)
      · exact (hnames a ha).2.2 (Key.eq_of_ofText hstyle)

end Lists

variable {env : Environment}

theorem write_run (hhandlers : env.settings.handlers = []) (scope : Scope) {owner : NodeId} (site : Site)
    (attributes : List Attribute) {assignments : List Assignment} (hbuiltin : ∀ a ∈ assignments, a.name = "attributes")
    {p : Progress} (hadded : ∀ x ∈ p.additions, x.owner ≠ owner) :
    (write env scope owner site attributes assignments).run p =
      (if !assignments.isEmpty || needMerge scope [] attributes then do
          merge env site (← Contribution.collect env scope attributes assignments)
        else return (← attributes.mapM (single env scope)).flatten : Rendering Bytes).run p := by
  have hpending : pending env owner attributes assignments = pure assignments := by
    induction assignments with
    | nil => rfl
    | cons a rest ih =>
      obtain ⟨ha, hrest⟩ := List.forall_mem_cons.mp hbuiltin
      have hb : isBuiltin a.name = true := by
        rw [ha]
        decide
      rw [pending, hhandlers, ih hrest]
      change (if isBuiltin a.name then _ else _) = _
      rw [if_pos hb]
      rfl
  have hown : p.additions.filter (·.owner == owner) = [] :=
    List.filter_eq_nil_iff.mpr fun x hx => by simpa using hadded x hx
  have hattributes : (Rendering.attributesOf owner attributes).run p = (.ok attributes, p) := by
    change (Except.ok (attributes ++ (p.additions.filter (·.owner == owner)).map Addition.toAttribute), p) = _
    rw [hown, List.map_nil, List.append_nil]
  rw [write, hpending, pure_bind, Rendering.run_bind, hattributes]

theorem write_apart {scope : Scope} {attributes : List Attribute} {texts : List Bytes}
    (hapart : attributes.mapM (single env scope) = pure texts)
    (hnames : ∀ a ∈ attributes, a.nameExpr = none ∧ a.name ≠ "class" ∧ a.name ≠ "style")
    (hhandlers : env.settings.handlers = []) {owner : NodeId} {p : Progress} (hadded : ∀ x ∈ p.additions, x.owner ≠ owner)
    (site : Site) : (write env scope owner site attributes []).run p = (.ok texts.flatten, p) := by
  have hplain : needMerge scope [] attributes = false := needMerge_eq_false [] hnames
  rw [write_run hhandlers scope site attributes (List.forall_mem_nil _) hadded, hplain]
  change (do return (← attributes.mapM (single env scope)).flatten : Rendering Bytes).run p = _
  rw [hapart]
  rfl

theorem write_merged {scope : Scope} {attributes : List Attribute} {assignment : Assignment} {cs : List Contribution}
    (hcs : Contribution.collect env scope attributes [assignment] = .ok cs) {site : Site} {merged : Bytes}
    (hmerge : merge env site cs = pure merged) (hhandlers : env.settings.handlers = [])
    (hbuiltin : ∀ a ∈ [assignment], a.name = "attributes") {owner : NodeId} {p : Progress}
    (hadded : ∀ x ∈ p.additions, x.owner ≠ owner) :
    (write env scope owner site attributes [assignment]).run p = (.ok merged, p) := by
  rw [write_run hhandlers scope site attributes hbuiltin hadded]
  change (do merge env site (← Contribution.collect env scope attributes [assignment]) : Rendering Bytes).run p = _
  rw [hcs]
  change (merge env site cs).run p = _
  rw [hmerge]
  rfl

/-- A tag is rendered with one list of assignments as with another, if both write its attributes alike. -/
theorem markup_congr {render : Expansion.Render} {scope : Scope} {id : NodeId} {origin : Option Origin} {site : Site}
    (t : Tag) (children : List Element) {before after : List Assignment} {p : Progress}
    (h : (write env scope id site t.attributes before).run p = (write env scope id site t.attributes after).run p) :
    (Render.markup env render scope id origin site { t with assignments := before } children).run p =
      (Render.markup env render scope id origin site { t with assignments := after } children).run p := by
  have hrun {k : Bytes → Rendering Bytes} : (write env scope id site t.attributes before >>= k).run p =
      (write env scope id site t.attributes after >>= k).run p := by
    rw [Rendering.run_bind, Rendering.run_bind, h]
  have hname (assignments : List Assignment) :
      Render.tagName env site { t with assignments } = Render.tagName env site t := rfl
  rw [Render.markup, Render.markup, hname before, hname after]
  cases Render.tagName env site t with
  | error f => rfl
  | ok name =>
    change (if env.dialect.isSelfClosing t (!children.isEmpty) && !children.isEmpty then _ else _ : Rendering Bytes).run p =
      (if env.dialect.isSelfClosing t (!children.isEmpty) && !children.isEmpty then _ else _ : Rendering Bytes).run p
    by_cases hchildren : (env.dialect.isSelfClosing t (!children.isEmpty) && !children.isEmpty) = true
    · rw [if_pos hchildren, if_pos hchildren]
      rfl
    · rw [if_neg hchildren, if_neg hchildren]
      exact hrun

theorem ofAssignments_empty (env : Environment) (scope : Scope) {empty : Snippet} (hempty : empty.source = "[]")
    (origin : Option Origin) : ∃ c, Contribution.ofAssignments env scope [⟨"attributes", [empty], origin⟩] = .ok [c] ∧
      c.value = some [] := by
  have hplan (b : Bool) : Reference.plan b "[]" =
      .ok (([⟨.lbracket, "[", 0, false⟩, ⟨.rbracket, "]", 1, false⟩] : List Token).map .plain) := by
    cases b <;> cbv
  obtain ⟨code, hcode⟩ : ∃ code, env.snippet empty = .ok code := by
    rw [Environment.snippet, hempty]
    exact ⟨_, env.code_of_plain rfl hplan empty.site empty.checked⟩
  have hvalue : scope.constant? empty.source = some (.array []) := by
    rw [hempty]
    rfl
  have hset : Contribution.ofAssignment env scope "attributes" empty = .ok ⟨some [], code, none, none⟩ := by
    rw [Contribution.ofAssignment, hcode, hvalue]
    rfl
  refine ⟨⟨some [], code, none, none⟩, ?_, rfl⟩
  rw [Contribution.ofAssignments]
  dsimp only
  rw [List.mapM_cons, hset]
  rfl

/-- One by one, attributes with distinct names and known values are written as they are merged just if no unescaped
value has a character to escape, or the format does not write values. In that case a tag is rendered the same
whether an empty set is assigned to it or not. -/
theorem apart_eq_merged_iff {pair bare : Bytes} (hpair : env.patterns.get? "attribute_pattern" = some (.template pair))
    (hbare : env.patterns.get? "boolean_attribute_pattern" = some (.template bare)) {scope : Scope}
    {attributes : List Attribute} (hdistinct : (attributes.map (·.name)).Nodup)
    (hnames : ∀ a ∈ attributes, a.nameExpr = none ∧ a.name ≠ "class" ∧ a.name ≠ "style")
    (hvalues : ∀ a ∈ attributes, (constant? scope a.value).isSome) (site : Site) (p : Progress) :
    ∃ texts cs merged, (attributes.mapM (single env scope)).run p = (.ok texts, p) ∧
      Contribution.collect env scope attributes [] = .ok cs ∧ (merge env site cs).run p = (.ok merged, p) ∧
      (texts.flatten = merged ↔ Template.seconds pair = 0 ∨ ∀ a ∈ attributes, Clean scope a.value) ∧
      ∀ (owner : NodeId) (empty : Snippet) (origin : Option Origin), env.settings.handlers = [] →
        (∀ x ∈ p.additions, x.owner ≠ owner) → empty.source = "[]" →
        let assignment : Assignment := ⟨"attributes", [empty], origin⟩
        (write env scope owner site attributes []).run p = (.ok texts.flatten, p) ∧
        (write env scope owner site attributes [assignment]).run p = (.ok merged, p) ∧
        (texts.flatten = merged → ∀ (render : Expansion.Render) (place : Option Origin) (t : Tag) (children : List Element),
          t.attributes = attributes →
          (Render.markup env render scope owner place site { t with assignments := [] } children).run p =
            (Render.markup env render scope owner place site { t with assignments := [assignment] } children).run p) := by
  have hnone : Contribution.ofAssignments env scope [] = .ok [] := rfl
  obtain ⟨cs, hcs, hmerged⟩ := merged_collect hdistinct hnames hvalues env hnone (List.forall_mem_nil _)
  have hapart := mapM_single hnames hvalues hpair hbare
  have hmerge := merge_eq hnames hpair hbare site hmerged
  refine ⟨_, cs, _, congrArg (·.run p) hapart, hcs, congrArg (·.run p) hmerge, ?_, ?_⟩
  · rw [← List.flatMap_def]
    exact flatMap_shown_eq_iff pair bare hvalues
  · intro owner empty origin hhandlers hadded hempty assignment
    have hwrite := write_apart hapart hnames hhandlers hadded site
    have hmore : (write env scope owner site attributes [assignment]).run p =
        (.ok (attributes.flatMap fun a => shown pair bare a.name true (constant scope a).1), p) := by
      obtain ⟨c, hc, hset⟩ := ofAssignments_empty env scope hempty origin
      obtain ⟨ds, hds, hall⟩ := merged_collect hdistinct hnames hvalues env hc (List.forall_mem_singleton.mpr hset)
      exact write_merged hds (merge_eq hnames hpair hbare site hall) hhandlers (List.forall_mem_singleton.mpr rfl) hadded
    refine ⟨hwrite, hmore, fun hsame render place t children ht => markup_congr t children ?_⟩
    subst ht
    rw [hwrite, hmore, hsame]

def plainPage : Environment := ⟨{}, .basic, Session.patternTable { settings := {} } .basic, "''", []⟩

/-- A name that is a number, a folded value that is escaped, an unescaped one that is clean, and two values without text. -/
theorem apart_eq_merged_input :
    let attributes : List Attribute := [⟨0, "7", none, .text "a" false, none⟩,
      ⟨1, "title", none, .code ⟨"'<'", true, true, none⟩, none⟩, ⟨2, "tabindex", none, .code ⟨"-1", false, true, none⟩, none⟩,
      ⟨3, "disabled", none, .absent, none⟩, ⟨4, "hidden", none, .code ⟨" FALSE ", false, true, none⟩, none⟩]
    let p : Progress := { ledger := .start, nextNode := 5 }
    (attributes.map (·.name)).Nodup ∧
    (∀ a ∈ attributes, a.nameExpr = none ∧ a.name ≠ "class" ∧ a.name ≠ "style") ∧
    (∀ a ∈ attributes, (constant? .outermost a.value).isSome) ∧
    (∀ a ∈ attributes, Clean .outermost a.value) ∧
    ∃ texts cs, (attributes.mapM (single plainPage .outermost)).run p = (.ok texts, p) ∧
      Contribution.collect plainPage .outermost attributes [] = .ok cs ∧
      (merge plainPage ⟨"Markup", none⟩ cs).run p = (.ok texts.flatten, p) := by
  intro attributes p
  have hdistinct : (attributes.map (·.name)).Nodup := by decide
  have hnames : ∀ a ∈ attributes, a.nameExpr = none ∧ a.name ≠ "class" ∧ a.name ≠ "style" := by decide
  have hvalues : ∀ a ∈ attributes, (constant? .outermost a.value).isSome := by decide
  have hclean : ∀ a ∈ attributes, Clean .outermost a.value := by
    intro a ha
    rw [clean_iff (hvalues a ha)]
    revert a ha
    decide
  obtain ⟨texts, cs, merged, htexts, hcs, hmerged, hiff, -⟩ := @apart_eq_merged_iff plainPage _ _ (by rfl) (by rfl)
    .outermost attributes hdistinct hnames hvalues ⟨"Markup", none⟩ p
  exact ⟨hdistinct, hnames, hvalues, hclean, texts, cs, htexts, hcs, hiff.mpr (.inr hclean) ▸ hmerged⟩

/-- A title that is not to be escaped is escaped once an empty set is assigned to the tag. -/
theorem unescaped_title_escaped :
    let attributes : List Attribute := [⟨0, "title", none, .text "<b>" false, none⟩]
    let p : Progress := { ledger := .start, nextNode := 2 }
    (write plainPage .outermost 1 ⟨"Markup", none⟩ attributes []).run p = (.ok " title=\"<b>\"", p) ∧
    (write plainPage .outermost 1 ⟨"Markup", none⟩ attributes [⟨"attributes", [⟨"[]", false, true, none⟩], none⟩]).run p =
      (.ok " title=\"&lt;b&gt;\"", p) :=
  ⟨by rfl, by cbv⟩

end Attributes

end Stencil
