import Stencil.Proofs.Compile.Rendering
import Stencil.Proofs.NullFree
import Stencil.Proofs.Reference.Plan

/-! What is written from the texts of a tree has the texture of these texts. Where this leaves out null bytes, no literal
among the expressions of the tree may denote one: such a constant is written out in place of its code. -/

namespace Stencil

open Bytes (nullFree_nil nullFree_cons nullFree_append nullFree_flatten nullFree_flatMap nullFree_join nullFree_ofNat)

section Each

variable (P S : Bytes → Prop)

def Attribute.Value.Each : Attribute.Value → Prop
  | .text value _ => P value
  | .code s => S s.source
  | .absent | .other _ => True

structure Attribute.Each (a : Attribute) : Prop where
  name : P a.name
  nameExpr : ∀ s ∈ a.nameExpr, S s.source
  value : a.value.Each P S

structure Assignment.Each (a : Assignment) : Prop where
  name : P a.name
  values : ∀ s ∈ a.values, S s.source

structure Tag.Each (t : Tag) : Prop where
  name : P t.name
  nameExpr : ∀ s ∈ t.nameExpr, S s.source
  attributes : ∀ a ∈ t.attributes, a.Each P S
  assignments : ∀ a ∈ t.assignments, a.Each P S

structure Mixin.Each (m : Mixin) : Prop where
  name : P m.name
  params : ∀ p ∈ m.params, P p
  variadic : ∀ v ∈ m.variadic, P v

structure Call.Each (c : Call) : Prop where
  name : P c.name
  args : ∀ a ∈ c.args, S a.code.source
  attributes : ∀ a ∈ c.attributes, a.Each P S
  assignments : ∀ a ∈ c.assignments, a.Each P S

def Element.Content.Each : Element.Content → Prop
  | .doctype value => P value
  | .markup t => t.Each P S
  | .text t => P t.value
  | .code source => P source
  | .expression s => S s.source
  | .mixin m => m.Each P
  | .call c => c.Each P S
  | .binding name value => P name ∧ ∀ s ∈ value, S s.source
  | .document | .block | .stray _ => True

/-- All texts of the tree satisfy `P`, and all sources of its expressions `S`. -/
inductive Element.Each : Element → Prop
  | node {id : NodeId} {origin : Option Origin} {content : Element.Content} {children : List Element}
      (hcontent : content.Each P S) (hchildren : ∀ e ∈ children, Element.Each e) :
      Element.Each (.node id origin content children)

end Each

/-- What the nodes of a forest pass on from their children to themselves holds of all its trees. -/
theorem Forest.forall_element {P : Element → Prop} {f : Forest} (hnone : ∀ id, P (.node id none .document []))
    (hnode : ∀ id n children, f.get? id = some n → (∀ c ∈ children, P c) →
      P (.node id n.origin (f.elementContent id n.content) children)) (id : NodeId) : P (f.element id) := by
  have hfrom (fuel : Nat) : ∀ id, P (f.elementFrom fuel id) := by
    induction fuel with
    | zero => exact hnone
    | succ fuel ih =>
      intro id
      rw [elementFrom]
      cases hn : f.get? id with
      | none => exact hnone id
      | some n => exact hnode id n _ hn (List.forall_mem_map.mpr fun child _ => ih child)
  exact hfrom _ id

/-- What holds of the contents of all nodes holds of the trees made of them. -/
theorem Forest.element_each {P S : Bytes → Prop} {f : Forest}
    (h : ∀ id n, f.get? id = some n → (f.elementContent id n.content).Each P S) (id : NodeId) : (f.element id).Each P S :=
  forall_element (fun _ => .node trivial (List.forall_mem_nil _)) (fun id n _ hn hc => .node (h id n hn) hc) id

theorem Element.mem_of_findMixin? {ds : List Declaration} {name : Bytes} {d : Declaration} (h : findMixin? ds name = some d) :
    d ∈ ds := List.mem_reverse.mp (List.mem_of_find?_eq_some h)

mutual

/-- What the nodes of a tree hand down to their children reaches the mixins declared in it. -/
theorem Element.forall_declarations {P : Element → Prop} {Q : Element.Declaration → Prop}
    (hchildren : ∀ {id origin content children}, P (.node id origin content children) → ∀ c ∈ children, P c)
    (hmixin : ∀ {id origin m children}, P (.node id origin (.mixin m) children) → Q ⟨m, children⟩) (e : Element)
    (h : P e) : ∀ d ∈ e.declarations, Q d := by
  obtain ⟨id, origin, content, children⟩ := e
  cases content with
  | mixin m =>
    rw [declarations]
    exact List.forall_mem_singleton.mpr (hmixin h)
  | _ => exact forall_declarationsOf hchildren hmixin children (hchildren h)

theorem Element.forall_declarationsOf {P : Element → Prop} {Q : Element.Declaration → Prop}
    (hchildren : ∀ {id origin content children}, P (.node id origin content children) → ∀ c ∈ children, P c)
    (hmixin : ∀ {id origin m children}, P (.node id origin (.mixin m) children) → Q ⟨m, children⟩) (es : List Element)
    (h : ∀ e ∈ es, P e) : ∀ d ∈ declarationsOf es, Q d := by
  cases es with
  | nil => exact List.forall_mem_nil _
  | cons e es =>
    obtain ⟨he, hes⟩ := List.forall_mem_cons.mp h
    rw [declarationsOf, List.forall_mem_append]
    exact ⟨forall_declarations hchildren hmixin e he, forall_declarationsOf hchildren hmixin es hes⟩

end

theorem Element.Each.declarations {P S : Bytes → Prop} {e : Element} (h : e.Each P S) :
    ∀ d ∈ e.declarations, d.mixin.Each P ∧ ∀ b ∈ d.body, b.Each P S := by
  refine forall_declarations (fun h => ?_) (fun h => ?_) e h
  · cases h with | node _ hchildren => exact hchildren
  · cases h with | node hcontent hchildren => exact ⟨hcontent, hchildren⟩

/-- All names and strings among the known attributes of calls satisfy `P`. -/
def Scope.Each (P : Bytes → Prop) (scope : Scope) : Prop := ∀ es, some es ∈ scope.frames → EachEntry P es

theorem Scope.each_outermost {P : Bytes → Prop} : Scope.Each P .outermost := fun _ h => by cases h

theorem Scope.Each.entering {P : Bytes → Prop} {scope : Scope} (h : scope.Each P) {known : Option (List (Key × Value))}
    (hknown : ∀ es, known = some es → EachEntry P es) : (scope.entering known).Each P := by
  intro es hes
  rcases List.mem_cons.mp hes with hes | hes
  · exact hknown es hes.symm
  · exact h es hes

theorem Scope.Each.constant? {P : Bytes → Prop} {scope : Scope} (h : scope.Each P) {source : Bytes}
    (hs : ∀ v, Literal.evaluate source = some v → v.Each P) {v : Value} (hv : scope.constant? source = some v) :
    v.Each P := by
  rw [Scope.constant?] at hv
  split at hv
  · obtain ⟨es, hes, rfl⟩ := Option.map_eq_some_iff.mp hv
    refine Value.each_array.mpr (h es (List.mem_of_mem_head? ?_))
    exact Option.join_eq_some_iff.mp hes
  · exact hs v hv

theorem Scope.Each.scalar? {P : Bytes → Prop} {scope : Scope} (h : scope.Each P) {source : Bytes}
    (hs : ∀ v, Literal.evaluate source = some v → v.Each P) {v : Value} (hv : scope.scalar? source = some v) :
    v.Each P := h.constant? hs (Option.filter_eq_some_iff.mp hv).1

/-- The texts of the set and of its code satisfy `P`. -/
structure Contribution.Each (P : Bytes → Prop) (c : Contribution) : Prop where
  value : ∀ es, c.value = some es → EachEntry P es
  code : P c.code
  entry : ∀ e ∈ c.entry, P e

/-- Sources with `S` and the constants they denote have the texture, and it is kept where code is written. -/
structure Environment.Weaves (env : Environment) (T : Texture) (S : Bytes → Prop) : Prop where
  source : ∀ {src}, S src → T.Holds src
  value : ∀ {src}, S src → ∀ v, Literal.evaluate src = some v → v.Each T.Holds
  code : ∀ {site src checked text}, T.Holds src → env.code site src checked = .ok text → T.Holds text
  storage : T.Holds env.settings.storage.name
  accessor : ∀ {name}, T.Holds name → T.Holds (env.settings.storage.accessor name)

section Weaving

variable {env : Environment} {T : Texture} {S : Bytes → Prop} (h : env.Weaves T S) {scope : Scope}
  (hscope : scope.Each T.Holds)

namespace Environment.Weaves

include h

theorem snippet {s : Snippet} (hs : S s.source) {text : Bytes} (hok : env.snippet s = .ok text) : T.Holds text :=
  h.code (h.source hs) hok

theorem captures {more : List Bytes} (hmore : ∀ v ∈ more, T.Holds v) : T.Holds (env.captures more) := by
  refine .join (by decide) ?_
  have hdebug : ∀ v ∈ (if env.settings.debug then ["&$__pug_debug_id"] else [] : List Bytes), T.Holds v := by
    split
    · exact List.forall_mem_singleton.mpr (Texture.Plain.holds (by decide))
    · exact List.forall_mem_nil _
  refine List.forall_mem_append.mpr ⟨List.forall_mem_cons.mpr ⟨.lead (by decide) h.storage, hdebug⟩, ?_⟩
  exact List.forall_mem_map.mpr fun v hv => .cons (by decide) (hmore v hv)

end Environment.Weaves

namespace Contribution

theorem each_single {P : Bytes → Prop} {name : Bytes} (hname : P name) {v : Value} (hv : v.Each P) :
    EachEntry P (single name v) := Merge.each_setEntry (Key.each_ofText hname) hv (List.forall_mem_nil _)

theorem Word.each_value {P : Bytes → Prop} (w : Word) : w.value.Each P := by
  cases w with
  | yes => exact .bool true
  | no => exact .bool false
  | nothing => exact .null

theorem holds_codes {cs : List Contribution} (hcs : ∀ c ∈ cs, c.Each T.Holds) : ∀ code ∈ codes cs, T.Holds code := by
  have hflush {entries : List Bytes} (hentries : ∀ e ∈ entries, T.Holds e) : ∀ code ∈ flush entries, T.Holds code := by
    rw [flush]
    split
    · exact List.forall_mem_nil _
    · refine List.forall_mem_singleton.mpr (Texture.Holds.bracketed (.join (by decide) fun e he => ?_))
      exact hentries e (List.mem_reverse.mp he)
  suffices hfrom : ∀ (keys entries : List Bytes), (∀ e ∈ entries, T.Holds e) →
      ∀ code ∈ codesFrom keys entries cs, T.Holds code from hfrom [] [] (List.forall_mem_nil _)
  intro keys entries hentries
  induction cs generalizing keys entries with
  | nil => exact hflush hentries
  | cons c cs ih =>
    obtain ⟨hc, hcs⟩ := List.forall_mem_cons.mp hcs
    rw [codesFrom]
    split
    next =>
      refine List.forall_mem_append.mpr ⟨hflush hentries, List.forall_mem_cons.mpr ⟨hc.code, ?_⟩⟩
      exact ih hcs [] [] (List.forall_mem_nil _)
    next entry hentry =>
      have hmore := List.forall_mem_cons.mpr ⟨hc.entry entry hentry, hentries⟩
      split
      next => exact ih hcs _ _ hmore
      next k _ =>
        split
        · refine List.forall_mem_append.mpr ⟨hflush hentries, ih hcs _ _ ?_⟩
          exact List.forall_mem_singleton.mpr (hc.entry entry hentry)
        · exact ih hcs _ _ hmore

theorem each_merged? {cs : List Contribution} (hcs : ∀ c ∈ cs, c.Each T.Holds) {es : List (Key × Value)}
    (hes : merged? cs = some es) : EachEntry T.Holds es := by
  obtain ⟨sets, hsets, rfl⟩ := Option.map_eq_some_iff.mp hes
  refine Merge.each_attributes ?_
  clear hes
  induction cs generalizing sets with
  | nil =>
    cases hsets
    exact List.forall_mem_nil _
  | cons c cs ih =>
    obtain ⟨hc, hcs⟩ := List.forall_mem_cons.mp hcs
    rw [List.mapM_cons] at hsets
    obtain ⟨set, hset, htail⟩ := Option.bind_eq_some_iff.mp hsets
    obtain ⟨rest, hrest, hall⟩ := Option.bind_eq_some_iff.mp htail
    cases hall
    exact List.forall_mem_cons.mpr ⟨hc.value set hset, ih hcs rest hrest⟩

include h

theorem holds_keyCode {a : Attribute} (ha : a.Each T.Holds S) {code : Bytes} (hok : keyCode env a = .ok code) :
    T.Holds code := by
  rw [keyCode] at hok
  split at hok
  next s hs => exact h.snippet (ha.nameExpr s hs) hok
  next =>
    cases hok
    exact Quoted.holds_encode ha.name

include hscope

theorem each_attributeValue {value : Attribute.Value} (hvalue : value.Each T.Holds S) {known : Option Value}
    {code : Bytes} (hok : attributeValue env scope value = .ok (known, code)) :
    (∀ v, known = some v → v.Each T.Holds) ∧ T.Holds code := by
  cases value with
  | absent =>
    cases hok
    exact ⟨fun v hv => by cases hv; exact .bool true, Texture.Plain.holds (by decide : Texture.Plain "true")⟩
  | text value escape =>
    cases hok
    exact ⟨fun v hv => by cases hv; exact .string hvalue, Quoted.holds_encode hvalue⟩
  | code s =>
    rw [attributeValue] at hok
    split at hok
    next w _ =>
      cases hok
      refine ⟨fun v hv => ?_, Literal.holds_write w.each_value⟩
      cases hv
      exact w.each_value
    next =>
      obtain ⟨code, hcode, hok⟩ := bind_eq_ok hok
      cases hok
      exact ⟨fun v hv => hscope.constant? (h.value hvalue) hv, h.snippet hvalue hcode⟩
  | other site => cases hok

theorem each_ofAttribute {a : Attribute} (ha : a.Each T.Holds S) {c : Contribution}
    (hok : ofAttribute env scope a = .ok c) : c.Each T.Holds := by
  obtain ⟨key, hkey, hok⟩ := bind_eq_ok hok
  obtain ⟨⟨value, code⟩, hvalue, hok⟩ := bind_eq_ok hok
  obtain ⟨hknown, hcode⟩ := each_attributeValue h hscope ha.value hvalue
  have hentry : T.Holds (key ++ " => " ++ code) := (holds_keyCode h ha hkey).part (by decide) hcode
  cases hok
  refine ⟨fun es hes => ?_, hentry.bracketed, ?_⟩
  · dsimp only at hes
    split at hes
    · cases hes
    · obtain ⟨v, hv, rfl⟩ := Option.map_eq_some_iff.mp hes
      exact each_single ha.name (hknown v hv)
  · intro e he
    cases he
    exact hentry

theorem each_ofAssignment {name : Bytes} (hname : T.Holds name) {s : Snippet} (hs : S s.source) {c : Contribution}
    (hok : ofAssignment env scope name s = .ok c) : c.Each T.Holds := by
  obtain ⟨code, hcode, hok⟩ := bind_eq_ok hok
  have hholds := h.snippet hs hcode
  dsimp only at hok
  split at hok
  · cases hok
    refine ⟨fun es hes => ?_, hholds, fun e he => by cases he⟩
    obtain ⟨v, hv, hset⟩ := Option.bind_eq_some_iff.mp hes
    have hvalue := hscope.constant? (h.value hs) hv
    cases v with
    | array entries =>
      cases hset
      exact Value.each_array.mp hvalue
    | null =>
      cases hset
      exact List.forall_mem_nil _
    | _ => cases hset
  · cases hok
    refine ⟨fun es hes => ?_, ((Quoted.holds_encode hname).part (by decide) hholds).bracketed, fun e he => by cases he⟩
    obtain ⟨v, hv, rfl⟩ := Option.map_eq_some_iff.mp hes
    exact each_single hname (hscope.constant? (h.value hs) hv)

theorem each_ofAssignments {assignments : List Assignment} (hassignments : ∀ a ∈ assignments, a.Each T.Holds S)
    {cs : List Contribution} (hok : ofAssignments env scope assignments = .ok cs) : ∀ c ∈ cs, c.Each T.Holds := by
  induction assignments generalizing cs with
  | nil =>
    cases hok
    exact List.forall_mem_nil _
  | cons a assignments ih =>
    obtain ⟨ha, hassignments⟩ := List.forall_mem_cons.mp hassignments
    obtain ⟨own, hown, hok⟩ := bind_eq_ok hok
    obtain ⟨rest, hrest, hok⟩ := bind_eq_ok hok
    cases hok
    refine List.forall_mem_append.mpr ⟨mapM_forall hown fun s hs c hc => ?_, ih hassignments hrest⟩
    exact each_ofAssignment h hscope ha.name (ha.values s hs) hc

theorem each_collect {attributes : List Attribute} (hattributes : ∀ a ∈ attributes, a.Each T.Holds S)
    {assignments : List Assignment} (hassignments : ∀ a ∈ assignments, a.Each T.Holds S) {cs : List Contribution}
    (hok : collect env scope attributes assignments = .ok cs) : ∀ c ∈ cs, c.Each T.Holds := by
  obtain ⟨first, hfirst, hok⟩ := bind_eq_ok hok
  obtain ⟨rest, hrest, hok⟩ := bind_eq_ok hok
  cases hok
  refine List.forall_mem_append.mpr ⟨mapM_forall hfirst fun a ha c hc => ?_, each_ofAssignments h hscope hassignments hrest⟩
  exact each_ofAttribute h hscope (hattributes a ha) hc

end Contribution

end Weaving

theorem Binding.mem_bindParams {runtime : Bool} {attributes : List Attribute} {used : List NodeId} {args : List Argument}
    {names : List Bytes} : ∀ p ∈ bindParams runtime attributes used args names,
      (∀ a ∈ p.argument, a ∈ args) ∧ ∀ a ∈ p.attr, a ∈ attributes := by
  induction names generalizing used args with
  | nil =>
    rw [bindParams]
    exact List.forall_mem_nil _
  | cons name names ih =>
    cases args with
    | cons arg args =>
      rw [bindParams]
      refine List.forall_mem_cons.mpr ⟨⟨fun a ha => ?_, fun a ha => by cases ha⟩, fun p hp => ?_⟩
      · cases ha
        exact List.mem_cons_self
      · exact ⟨fun a ha => List.mem_cons_of_mem arg ((ih p hp).1 a ha), (ih p hp).2⟩
    | nil =>
      rw [bindParams]
      split
      next a hnamed =>
        have hmem : a ∈ attributes := by
          split at hnamed
          · cases hnamed
          · exact List.mem_of_find?_eq_some hnamed
        refine List.forall_mem_cons.mpr ⟨⟨fun a ha => (by cases ha), fun b hb => ?_⟩, ih⟩
        cases hb
        exact hmem
      next => exact List.forall_mem_cons.mpr ⟨⟨fun a ha => (by cases ha), fun a ha => by cases ha⟩, ih⟩

structure Binding.From (args : List Argument) (attributes : List Attribute) (b : Binding) : Prop where
  arguments : ∀ p ∈ b.params, ∀ a ∈ p.argument, a ∈ args
  attrs : ∀ p ∈ b.params, ∀ a ∈ p.attr, a ∈ attributes
  rest : ∀ a ∈ b.rest, a ∈ args
  attributes : ∀ a ∈ b.attributes, a ∈ attributes

theorem Binding.from_ofCall (m : Mixin) (args : List Argument) (attributes : List Attribute) :
    (Binding.ofCall m args attributes).From args attributes where
  arguments p hp a ha := (List.takeWhile_subset _) ((mem_bindParams p hp).1 a ha)
  attrs p hp a ha := (mem_bindParams p hp).2 a ha
  rest a ha := by
    change a ∈ if m.variadic.isSome then (if args.any (·.packed) then [] else args.drop m.params.length) else [] at ha
    split_ifs at ha
    · cases ha
    · exact List.mem_of_mem_drop ha
    · cases ha
  attributes a ha := List.mem_of_mem_filter ha

structure Binding.Each (P S : Bytes → Prop) (b : Binding) : Prop where
  arguments : ∀ p ∈ b.params, ∀ a ∈ p.argument, S a.code.source
  attrs : ∀ p ∈ b.params, ∀ a ∈ p.attr, a.Each P S
  rest : ∀ a ∈ b.rest, S a.code.source
  attributes : ∀ a ∈ b.attributes, a.Each P S

theorem Binding.each_ofCall {P S : Bytes → Prop} {m : Mixin} {args : List Argument} {attributes : List Attribute}
    (hargs : ∀ a ∈ args, S a.code.source) (hattributes : ∀ a ∈ attributes, a.Each P S) :
    (Binding.ofCall m args attributes).Each P S := by
  have hfrom := Binding.from_ofCall m args attributes
  exact ⟨fun p hp a ha => hargs a (hfrom.arguments p hp a ha), fun p hp a ha => hattributes a (hfrom.attrs p hp a ha),
    fun a ha => hargs a (hfrom.rest a ha), fun a ha => hattributes a (hfrom.attributes a ha)⟩

namespace Expansion

variable {env : Environment} {T : Texture} {S : Bytes → Prop}

theorem holds_arrayOf {plain : List Bytes} (hplain : ∀ c ∈ plain, T.Holds c) : ∀ c ∈ arrayOf plain, T.Holds c := by
  rw [arrayOf]
  split
  · exact List.forall_mem_nil _
  · refine List.forall_mem_singleton.mpr (Texture.Holds.bracketed (.join (by decide) fun c hc => ?_))
    exact hplain c (List.mem_reverse.mp hc)

theorem holds_listParts {plain : List Bytes} (hplain : ∀ c ∈ plain, T.Holds c) {codes : List (Argument × Bytes)}
    (hcodes : ∀ c ∈ codes, T.Holds c.2) : ∀ c ∈ listParts plain codes, T.Holds c := by
  induction codes generalizing plain with
  | nil => exact holds_arrayOf hplain
  | cons c codes ih =>
    obtain ⟨a, code⟩ := c
    obtain ⟨hcode, hcodes⟩ := List.forall_mem_cons.mp hcodes
    rw [listParts]
    split
    · refine List.forall_mem_append.mpr ⟨holds_arrayOf hplain, List.forall_mem_cons.mpr ⟨hcode, ?_⟩⟩
      exact ih (List.forall_mem_nil _) hcodes
    · exact ih (List.forall_mem_cons.mpr ⟨hcode, hplain⟩) hcodes

theorem holds_formals {m : Mixin} (hm : m.Each T.Holds) : ∀ f ∈ formals m, T.Holds f := by
  have hparams : ∀ f ∈ m.params.map fun p => ("$" : Bytes) ++ p ++ " = null", T.Holds f := by
    refine List.forall_mem_map.mpr fun p hp => ?_
    have hname : T.Holds (Bytes.ofString "$" ++ p) := .lead (by decide) (hm.params p hp)
    exact hname.trail (by decide)
  rw [formals]
  refine List.forall_mem_cons.mpr ⟨Texture.Plain.holds (by decide), List.forall_mem_cons.mpr ⟨Texture.Plain.holds (by decide), ?_⟩⟩
  refine List.forall_mem_append.mpr ⟨hparams, ?_⟩
  split
  next v hv =>
    split
    · exact List.forall_mem_nil _
    · exact List.forall_mem_singleton.mpr (.lead (by decide) (hm.variadic v hv))
  next => exact List.forall_mem_nil _

variable (h : env.Weaves T S) {scope : Scope} (hscope : scope.Each T.Holds)
include h

theorem holds_argumentCodes {call : Call} (hargs : ∀ a ∈ call.args, S a.code.source) {codes : List (Argument × Bytes)}
    (hok : argumentCodes env call = .ok codes) : ∀ c ∈ codes, T.Holds c.2 := by
  refine mapM_forall hok fun a ha c hc => ?_
  obtain ⟨code, hcode, hc⟩ := bind_eq_ok hc
  cases hc
  exact h.code (h.source (hargs a ha)) hcode

include hscope

theorem each_sets {m : Mixin} {b : Binding} (hb : b.Each T.Holds S) {assignments : List Assignment}
    (hassignments : ∀ a ∈ assignments, a.Each T.Holds S) {cs : List Contribution}
    (hok : sets env scope m b assignments = .ok cs) : ∀ c ∈ cs, c.Each T.Holds := by
  obtain ⟨own, hown, hok⟩ := bind_eq_ok hok
  have hfirst := Contribution.each_collect h hscope hb.attributes hassignments hown
  have hname : T.Holds "attributes" := Texture.Plain.holds (by decide)
  split at hok
  · obtain ⟨more, hmore, hok⟩ := bind_eq_ok hok
    cases hok
    refine List.forall_mem_append.mpr ⟨hfirst, mapM_forall hmore fun a ha c hc => ?_⟩
    exact Contribution.each_ofAssignment h hscope hname (hb.rest a ha) hc
  · cases hok
    exact hfirst

theorem holds_parameter {p : Parameter} (hargument : ∀ a ∈ p.argument, S a.code.source)
    (hattr : ∀ a ∈ p.attr, a.Each T.Holds S) {code : Bytes} (hok : parameter env scope p = .ok code) :
    T.Holds code := by
  rw [parameter] at hok
  split at hok
  next a ha => exact h.snippet (hargument a ha) hok
  next =>
    split at hok
    next a ha =>
      obtain ⟨⟨known, code⟩, hvalue, hok⟩ := bind_eq_ok hok
      cases hok
      exact (Contribution.each_attributeValue h hscope (hattr a ha).value hvalue).2
    next =>
      cases hok
      exact Texture.Plain.holds (by decide : Texture.Plain "null")

theorem holds_boundArguments {m : Mixin} {b : Binding} (hb : b.Each T.Holds S) {codes : List Bytes}
    (hok : boundArguments env scope m b = .ok codes) : ∀ c ∈ codes, T.Holds c := by
  obtain ⟨bound, hbound, hok⟩ := bind_eq_ok hok
  have hfirst := mapM_forall hbound fun p hp c hc => holds_parameter h hscope (hb.arguments p hp) (hb.attrs p hp) hc
  have hall {rest : List Bytes} (hrest : ∀ c ∈ rest, T.Holds c) :
      ∀ c ∈ ((bound ++ rest).reverse.dropWhile fun (code : Bytes) => code == "null").reverse, T.Holds c := by
    intro c hc
    have hreverse := (List.dropWhile_sublist _).subset (List.mem_reverse.mp hc)
    exact List.forall_mem_append.mpr ⟨hfirst, hrest⟩ c (List.mem_reverse.mp hreverse)
  dsimp only at hok
  split at hok
  · cases hok
    exact hall (List.forall_mem_nil _)
  · obtain ⟨rest, hrest, hok⟩ := bind_eq_ok hok
    cases hok
    exact hall (mapM_forall hrest fun a ha c hc => h.snippet (hb.rest a ha) hc)

end Expansion

/-- Neither the code nor what it denotes, if it is a literal, has a null byte. -/
def Literal.NullFree (src : Bytes) : Prop := src.NullFree ∧ ∀ v, evaluate src = some v → v.NullFree

abbrev Attribute.NullFree (a : Attribute) : Prop := a.Each Bytes.NullFree Literal.NullFree

abbrev Assignment.NullFree (a : Assignment) : Prop := a.Each Bytes.NullFree Literal.NullFree

abbrev Element.NullFree (e : Element) : Prop := e.Each Bytes.NullFree Literal.NullFree

def Scope.NullFree (scope : Scope) : Prop := ∀ es, some es ∈ scope.frames → NullFreeEntries es

/-- What the handler adds to a tree has no null bytes, if what it reads has none. -/
inductive Handler.Script.NullFree : Handler.Script → Prop
  | finish (taken : Bool) : NullFree (.finish taken)
  | fail (f : Failure) : NullFree (.fail f)
  | add {a : Handler.NewAttribute} {next : Handler.Script} (ha : ∀ owner attr, (Addition.mk owner attr a).toAttribute.NullFree)
      (hnext : NullFree next) : NullFree (.add a next)
  | require {helper : Bytes} {next : Except Failure Bytes → Handler.Script} (hhelper : helper.NullFree)
      (hnext : ∀ r, (∀ accessor, r = .ok accessor → accessor.NullFree) → NullFree (next r)) :
      NullFree (.require helper next)

def Handler.NullFree (h : Handler) : Prop :=
  ∀ owner attributes a, (∀ b ∈ attributes, Attribute.NullFree b) → a.NullFree →
    (h.action.script owner attributes a).NullFree

structure Settings.NullFree (settings : Settings) : Prop where
  indent : settings.indent.NullFree
  storage : settings.storage.name.NullFree
  accessor : ∀ name : Bytes, name.NullFree → (settings.storage.accessor name).NullFree
  handlers : ∀ h ∈ settings.handlers, h.NullFree

structure Environment.NullFree (env : Environment) : Prop where
  settings : env.settings.NullFree
  tokens : ∀ e ∈ env.dialect.tokenTemplates, e.2.NullFree
  fallback : env.fallback.NullFree
  text : ∀ name ∈ Session.commonPatterns, ∀ args text, (∀ a ∈ args, Bytes.NullFree a) →
    Pattern.text env.patterns name args = .ok text → text.NullFree
  render : ∀ name ∈ Session.commonPatterns, ∀ args text, (∀ a ∈ args, Bytes.NullFree a) →
    Pattern.render env.patterns name args = .ok text → text.NullFree
  mixins : ∀ d ∈ env.mixins, d.mixin.Each Bytes.NullFree ∧ ∀ e ∈ d.body, Element.NullFree e

open Texture (holds_nullFree)

theorem Attribute.each_nullFree {S : Bytes → Prop} {a : Attribute} :
    a.Each Texture.nullFree.Holds S ↔ a.Each Bytes.NullFree S := by
  rw [Texture.holds_nullFree_eq]

theorem Assignment.each_nullFree {S : Bytes → Prop} {a : Assignment} :
    a.Each Texture.nullFree.Holds S ↔ a.Each Bytes.NullFree S := by
  rw [Texture.holds_nullFree_eq]

theorem Scope.each_nullFree {scope : Scope} : scope.Each Texture.nullFree.Holds ↔ scope.NullFree :=
  forall₂_congr fun _ _ => eachEntry_nullFree

theorem Literal.NullFree.each {src : Bytes} (h : Literal.NullFree src) :
    ∀ v, evaluate src = some v → v.Each Texture.nullFree.Holds := fun v hv => Value.each_nullFree.mpr (h.2 v hv)

theorem Scope.nullFree_outermost : Scope.NullFree .outermost := Scope.each_nullFree.mp Scope.each_outermost

theorem Scope.NullFree.entering {scope : Scope} (h : scope.NullFree) {known : Option (List (Key × Value))}
    (hknown : ∀ es, known = some es → NullFreeEntries es) : (scope.entering known).NullFree :=
  Scope.each_nullFree.mp ((Scope.each_nullFree.mpr h).entering fun es hes => eachEntry_nullFree.mpr (hknown es hes))

theorem Scope.NullFree.scalar? {scope : Scope} (h : scope.NullFree) {source : Bytes} (hs : Literal.NullFree source)
    {v : Value} (hv : scope.scalar? source = some v) : v.NullFree :=
  Value.each_nullFree.mp ((Scope.each_nullFree.mpr h).scalar? hs.each hv)

namespace Environment.NullFree

variable {env : Environment} (h : env.NullFree) {site : Site} {text : Bytes}
include h

theorem pattern {name : Bytes} (hname : name ∈ Session.commonPatterns) {args : List Bytes}
    (hargs : ∀ a ∈ args, Bytes.NullFree a) (hok : env.pattern site name args = .ok text) : text.NullFree :=
  h.render name hname args text hargs (mapError_eq_ok hok)

theorem tokenTexts {ts : List Token} (hts : ∀ t ∈ ts, t.text.NullFree) :
    (Reference.tokenTexts env.handlers ts).NullFree := by
  refine nullFree_flatMap fun t ht => ?_
  rw [Reference.tokenText]
  split
  next handler hfind =>
    obtain ⟨⟨kind, template⟩, he, heq⟩ := List.mem_map.mp (List.mem_of_find?_eq_some hfind)
    cases heq
    exact Template.nullFree_format (h.tokens _ he) (List.forall_mem_singleton.mpr (hts t ht))
  next => exact hts t ht

theorem piece {p : Reference.Piece} (hp : ∀ t ∈ p.tokens, t.text.NullFree) (hok : env.piece site p = .ok text) :
    text.NullFree := by
  have htokens := h.tokenTexts hp
  cases p with
  | plain t =>
    cases hok
    simpa [Reference.tokenTexts, Reference.Piece.tokens] using htokens
  | guarded ts =>
    refine h.text "checked_variable" (by decide) _ text ?_ (mapError_eq_ok hok)
    exact List.forall_mem_cons.mpr ⟨htokens, List.forall_mem_singleton.mpr h.fallback⟩

theorem code {source : Bytes} (hs : source.NullFree) {checked : Bool} (hok : env.code site source checked = .ok text) :
    text.NullFree := by
  have htokens {ts : List Token} (hts : Token.tokenize source = .ok ts) : ∀ t ∈ ts, t.text.NullFree := by
    intro t ht
    refine hs.of_subset fun c hc => ?_
    rw [← (Token.tokenize_covers hts).flatMap_text]
    exact List.mem_flatMap.mpr ⟨t, ht, hc⟩
  rw [Environment.code] at hok
  split at hok
  · obtain ⟨pieces, hplan, hok⟩ := bind_eq_ok hok
    obtain ⟨texts, htexts, hok⟩ := bind_eq_ok hok
    cases hok
    refine nullFree_flatten (mapM_forall htexts fun p hp text hok => h.piece (fun t ht => ?_) hok)
    exact htokens (Reference.plan_tokens (mapError_eq_ok hplan)) t (List.mem_flatMap.mpr ⟨p, hp, ht⟩)
  · obtain ⟨ts, hts, hok⟩ := bind_eq_ok (mapError_eq_ok hok)
    cases hok
    exact h.tokenTexts (htokens hts)

theorem snippet {s : Snippet} (hs : Literal.NullFree s.source) (hok : env.snippet s = .ok text) : text.NullFree :=
  h.code hs.1 hok

theorem display {escape : Bool} {code : Bytes} (hcode : code.NullFree) (hok : env.display site escape code = .ok text) :
    text.NullFree := by
  refine h.pattern ?_ (List.forall_mem_singleton.mpr hcode) hok
  cases escape <;> decide

theorem indentation (scope : Scope) : Bytes.NullFree (env.indentation scope) := by
  refine nullFree_cons.mpr ⟨by decide, nullFree_flatten fun s hs => ?_⟩
  rw [List.eq_of_mem_replicate hs]
  exact h.settings.indent

/-- Code that is written keeps texts free of null bytes, whatever their neighbours. -/
theorem weaves : env.Weaves Texture.nullFree Literal.NullFree where
  source hs := holds_nullFree.mpr hs.1
  value hs := hs.each
  code hs hok := holds_nullFree.mpr (h.code (holds_nullFree.mp hs) hok)
  storage := holds_nullFree.mpr h.settings.storage
  accessor hname := holds_nullFree.mpr (h.settings.accessor _ (holds_nullFree.mp hname))

theorem captures {more : List Bytes} (hmore : ∀ v ∈ more, Bytes.NullFree v) : Bytes.NullFree (env.captures more) :=
  holds_nullFree.mp (h.weaves.captures fun v hv => holds_nullFree.mpr (hmore v hv))

end Environment.NullFree

structure Contribution.NullFree (c : Contribution) : Prop where
  value : ∀ es, c.value = some es → NullFreeEntries es
  code : c.code.NullFree
  entry : ∀ e ∈ c.entry, Bytes.NullFree e

theorem Contribution.each_nullFree {c : Contribution} : c.Each Texture.nullFree.Holds ↔ c.NullFree := by
  constructor
  · rintro ⟨hvalue, hcode, hentry⟩
    exact ⟨fun es hes => eachEntry_nullFree.mp (hvalue es hes), holds_nullFree.mp hcode,
      fun e he => holds_nullFree.mp (hentry e he)⟩
  · rintro ⟨hvalue, hcode, hentry⟩
    exact ⟨fun es hes => eachEntry_nullFree.mpr (hvalue es hes), holds_nullFree.mpr hcode,
      fun e he => holds_nullFree.mpr (hentry e he)⟩

structure Binding.NullFree (b : Binding) : Prop where
  arguments : ∀ p ∈ b.params, ∀ a ∈ p.argument, Literal.NullFree a.code.source
  attrs : ∀ p ∈ b.params, ∀ a ∈ p.attr, Attribute.NullFree a
  rest : ∀ a ∈ b.rest, Literal.NullFree a.code.source
  attributes : ∀ a ∈ b.attributes, Attribute.NullFree a

theorem Binding.NullFree.each {b : Binding} (h : b.NullFree) : b.Each Texture.nullFree.Holds Literal.NullFree where
  arguments := h.arguments
  attrs p hp a ha := Attribute.each_nullFree.mpr (h.attrs p hp a ha)
  rest := h.rest
  attributes a ha := Attribute.each_nullFree.mpr (h.attributes a ha)

theorem Binding.nullFree_ofCall {m : Mixin} {args : List Argument} {attributes : List Attribute}
    (hargs : ∀ a ∈ args, Literal.NullFree a.code.source) (hattributes : ∀ a ∈ attributes, Attribute.NullFree a) :
    (Binding.ofCall m args attributes).NullFree := by
  obtain ⟨harguments, hattrs, hrest, hunbound⟩ := each_ofCall (m := m) hargs hattributes
  exact ⟨harguments, hattrs, hrest, hunbound⟩

section Contributions

variable {env : Environment} (h : env.NullFree) {scope : Scope} (hscope : scope.NullFree)

namespace Contribution

theorem nullFree_codes {cs : List Contribution} (hcs : ∀ c ∈ cs, c.NullFree) : ∀ code ∈ codes cs, Bytes.NullFree code :=
  fun code hcode => holds_nullFree.mp (holds_codes (fun c hc => each_nullFree.mpr (hcs c hc)) code hcode)

theorem nullFree_merged? {cs : List Contribution} (hcs : ∀ c ∈ cs, c.NullFree) {es : List (Key × Value)}
    (hes : merged? cs = some es) : NullFreeEntries es :=
  eachEntry_nullFree.mp (each_merged? (fun c hc => each_nullFree.mpr (hcs c hc)) hes)

include h hscope

theorem nullFree_collect {attributes : List Attribute} (hattributes : ∀ a ∈ attributes, a.NullFree)
    {assignments : List Assignment} (hassignments : ∀ a ∈ assignments, a.NullFree) {cs : List Contribution}
    (hok : collect env scope attributes assignments = .ok cs) : ∀ c ∈ cs, c.NullFree :=
  fun c hc => each_nullFree.mp (each_collect h.weaves (Scope.each_nullFree.mpr hscope)
    (fun a ha => Attribute.each_nullFree.mpr (hattributes a ha))
    (fun a ha => Assignment.each_nullFree.mpr (hassignments a ha)) hok c hc)

end Contribution

namespace Expansion

include h hscope

theorem nullFree_boundArguments {m : Mixin} {b : Binding} (hb : b.NullFree) {codes : List Bytes}
    (hok : boundArguments env scope m b = .ok codes) : ∀ c ∈ codes, Bytes.NullFree c :=
  fun c hc => holds_nullFree.mp (holds_boundArguments h.weaves (Scope.each_nullFree.mpr hscope) hb.each hok c hc)

end Expansion

namespace Attributes

/-- An entry is written as nothing, as a flag or with its value. -/
theorem entry_eq_ok {site : Site} {e : Key × Value} {text : Bytes} (hok : entry env site e = .ok text) :
    text = [] ∨ env.pattern site "boolean_attribute_pattern" [e.1.toValue.text, e.1.toValue.text] = .ok text ∨
      env.pattern site "attribute_pattern" [e.1.toValue.text, Entity.escape e.2.text] = .ok text := by
  unfold entry at hok
  dsimp only at hok
  split at hok
  · exact .inl (Except.ok.inj hok).symm
  · exact .inl (Except.ok.inj hok).symm
  · exact .inr (.inl hok)
  · split at hok
    · exact .inl (Except.ok.inj hok).symm
    · exact .inr (.inr hok)

include h

theorem nullFree_entries {site : Site} {set : List (Key × Value)} (hset : NullFreeEntries set) {text : Bytes}
    (hok : entries env site set = .ok text) : text.NullFree := by
  obtain ⟨texts, htexts, hok⟩ := bind_eq_ok hok
  cases hok
  refine nullFree_flatten (mapM_forall htexts fun e he text hok => ?_)
  obtain ⟨key, v⟩ := e
  obtain ⟨hkey, hv⟩ := hset _ he
  have hname := hkey.toValue.text
  rcases entry_eq_ok hok with rfl | hok | hok
  · exact nullFree_nil
  · exact h.pattern (by decide) (by simp [hname]) hok
  · refine h.pattern (by decide) (List.forall_mem_cons.mpr ⟨hname, List.forall_mem_singleton.mpr ?_⟩) hok
    exact Entity.nullFree_escape hv.text

theorem nullFree_key {a : Attribute} (ha : a.NullFree) {text : Bytes} (hok : key env a = .ok text) : text.NullFree := by
  rw [key] at hok
  split at hok
  next =>
    cases hok
    exact ha.name
  next s hs =>
    obtain ⟨code, hcode, hok⟩ := bind_eq_ok hok
    exact h.pattern (by decide) (List.forall_mem_singleton.mpr (h.snippet (ha.nameExpr s hs) hcode)) hok

theorem nullFree_pair {a : Attribute} (ha : a.NullFree) {value text : Bytes} (hvalue : value.NullFree)
    (hok : pair env a value = .ok text) : text.NullFree := by
  obtain ⟨key, hkey, hok⟩ := bind_eq_ok hok
  refine h.pattern (by decide) (List.forall_mem_cons.mpr ⟨nullFree_key h ha hkey, ?_⟩) hok
  exact List.forall_mem_singleton.mpr hvalue

end Attributes

end Contributions

end Stencil
