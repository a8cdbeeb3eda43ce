import Stencil.Compile.Render
import Stencil.Proofs.Success
import Mathlib.Data.List.Basic

/-! Trees that were written elsewhere. What comes out for a node, but for its mark, does not depend on the origins in the
tree nor on how its nodes are numbered: with both changed all the way through it comes out the same, and a failure names
the node at its changed origin. -/

namespace Stencil

/-- Where the nodes of a tree come from in another one like it, and how they are numbered there. -/
structure Relocation where
  place : Option Origin → Option Origin
  number : NodeId → NodeId

def Relocation.still : Relocation := ⟨fun origin => origin, fun n => n⟩

variable (g : Relocation)

def Site.relocate (site : Site) : Site := { site with origin := g.place site.origin }

def Snippet.relocate (s : Snippet) : Snippet := { s with origin := g.place s.origin }

def Attribute.Value.relocate : Attribute.Value → Attribute.Value
  | .absent => .absent
  | .text value escape => .text value escape
  | .code s => .code (s.relocate g)
  | .other site => .other (site.relocate g)

def Attribute.relocate (a : Attribute) : Attribute :=
  { id := g.number a.id, name := a.name, nameExpr := a.nameExpr.map (·.relocate g), value := a.value.relocate g,
    origin := g.place a.origin }

def Assignment.relocate (a : Assignment) : Assignment :=
  { a with values := a.values.map (·.relocate g), origin := g.place a.origin }

def Argument.relocate (a : Argument) : Argument := { a with code := a.code.relocate g }

def Tag.relocate (t : Tag) : Tag :=
  { t with nameExpr := t.nameExpr.map (·.relocate g), attributes := t.attributes.map (·.relocate g),
           assignments := t.assignments.map (·.relocate g) }

def Call.relocate (c : Call) : Call :=
  { c with args := c.args.map (·.relocate g), attributes := c.attributes.map (·.relocate g),
           assignments := c.assignments.map (·.relocate g) }

def Element.Content.relocate : Element.Content → Element.Content
  | .document => .document
  | .doctype value => .doctype value
  | .markup t => .markup (t.relocate g)
  | .text t => .text t
  | .code source => .code source
  | .expression s => .expression (s.relocate g)
  | .mixin m => .mixin m
  | .call c => .call (c.relocate g)
  | .block => .block
  | .binding name value => .binding name (value.map (·.relocate g))
  | .stray kind => .stray kind

mutual

def Element.relocate : Element → Element
  | .node id origin content children => .node (g.number id) (g.place origin) (content.relocate g) (relocateAll children)

def Element.relocateAll : List Element → List Element
  | [] => []
  | e :: es => e.relocate :: relocateAll es

end

def Element.Declaration.relocate (d : Declaration) : Declaration := { d with body := relocateAll g d.body }

def Parameter.relocate (p : Parameter) : Parameter :=
  { p with argument := p.argument.map (·.relocate g), attr := p.attr.map (·.relocate g) }

def Binding.relocate (b : Binding) : Binding :=
  { b with params := b.params.map (·.relocate g), rest := b.rest.map (·.relocate g),
           dropped := b.dropped.map (·.relocate g), attributes := b.attributes.map (·.relocate g) }

def Failure.relocate : Failure → Failure
  | .noTree => .noTree
  | .invalidFormat site selector reason missing => .invalidFormat (site.relocate g) selector reason missing
  | .unknownPattern site name => .unknownPattern (site.map (·.relocate g)) name
  | .unknownHelper site name => .unknownHelper (site.map (·.relocate g)) name
  | .cyclicPattern site chain => .cyclicPattern (site.map (·.relocate g)) chain
  | .badExpression site source fault => .badExpression (site.relocate g) source fault
  | .incompatibleChildren site tag => .incompatibleChildren (site.relocate g) tag
  | .unhandledAssignment site name => .unhandledAssignment (site.relocate g) name
  | .undeclaredMixin site name => .undeclaredMixin (site.relocate g) name
  | .tooDeep site limit => .tooDeep (site.relocate g) limit
  | .unexpectedNode site => .unexpectedNode (site.relocate g)
  | .refused message => .refused message

/-- The environment of the relocated tree, with lines laid out in another way. -/
def Environment.recast (env : Environment) (pretty : Bool) (indent : Bytes) : Environment :=
  { env with settings := { env.settings with pretty, indent }, mixins := env.mixins.map (·.relocate g) }

theorem Attribute.relocate_still (a : Attribute) : a.relocate .still = a := by
  obtain ⟨attr, name, nameExpr, value, origin⟩ := a
  cases nameExpr <;> cases value <;> rfl

theorem Assignment.relocate_still (a : Assignment) : a.relocate .still = a :=
  congrArg (fun values => { a with values }) a.values.map_id

theorem Tag.relocate_still (t : Tag) : t.relocate .still = t := by
  have hname : t.nameExpr.map (Snippet.relocate .still) = t.nameExpr := Option.map_id_apply
  simp [relocate, hname, Attribute.relocate_still, Assignment.relocate_still]

theorem Call.relocate_still (c : Call) : c.relocate .still = c := by
  have hargs : c.args.map (Argument.relocate .still) = c.args := c.args.map_id
  simp [relocate, hargs, Attribute.relocate_still, Assignment.relocate_still]

theorem Element.Content.relocate_still (c : Content) : c.relocate .still = c := by
  cases c with
  | markup t => exact congrArg Content.markup t.relocate_still
  | call c => exact congrArg Content.call c.relocate_still
  | binding name value => exact congrArg (Content.binding name) Option.map_id_apply
  | _ => rfl

mutual

theorem Element.relocate_still (e : Element) : e.relocate .still = e := by
  obtain ⟨attr, origin, content, children⟩ := e
  rw [relocate, Content.relocate_still, Element.relocateAll_still children]
  rfl

theorem Element.relocateAll_still (es : List Element) : relocateAll .still es = es := by
  cases es with
  | nil => rfl
  | cons e es => rw [relocateAll, Element.relocate_still e, Element.relocateAll_still es]

end

theorem Failure.relocate_still (f : Failure) : f.relocate .still = f := by
  cases f <;> simp [relocate, Site.relocate, Relocation.still]

theorem Environment.recast_still (env : Environment) (pretty : Bool) (indent : Bytes) :
    env.recast .still pretty indent = { env with settings := { env.settings with pretty, indent } } := by
  simp [recast, Element.Declaration.relocate, Element.relocateAll_still]

namespace Element

theorem relocateAll_eq (es : List Element) : relocateAll g es = es.map (relocate g) := by
  induction es with
  | nil => rfl
  | cons e es ih => rw [relocateAll, ih, List.map_cons]

theorem site_relocate (e : Element) : (e.relocate g).site = e.site.relocate g := by
  obtain ⟨id, origin, content, children⟩ := e
  cases content <;> rfl

mutual

theorem doctype?_relocate (e : Element) : (e.relocate g).doctype? = e.doctype? := by
  obtain ⟨id, origin, content, children⟩ := e
  cases content with
  | doctype value => rfl
  | _ => exact firstDoctype?_relocate children

theorem firstDoctype?_relocate (es : List Element) : firstDoctype? (relocateAll g es) = firstDoctype? es := by
  cases es with
  | nil => rfl
  | cons e es => rw [relocateAll, firstDoctype?, firstDoctype?, doctype?_relocate e, firstDoctype?_relocate es]

end

mutual

theorem declarations_relocate (e : Element) : (e.relocate g).declarations = e.declarations.map (·.relocate g) := by
  obtain ⟨id, origin, content, children⟩ := e
  cases content with
  | mixin m => rfl
  | _ => exact declarationsOf_relocate children

theorem declarationsOf_relocate (es : List Element) :
    declarationsOf (relocateAll g es) = (declarationsOf es).map (·.relocate g) := by
  cases es with
  | nil => rfl
  | cons e es =>
    rw [relocateAll, declarationsOf, declarationsOf, declarations_relocate e, declarationsOf_relocate es, List.map_append]

end

theorem findMixin?_relocate (ds : List Declaration) (name : Bytes) :
    findMixin? (ds.map (·.relocate g)) name = (findMixin? ds name).map (·.relocate g) := by
  rw [findMixin?, findMixin?, ← List.map_reverse, List.find?_map]
  rfl

end Element

theorem Dialect.isSelfClosing_relocate (d : Dialect) (t : Tag) (hasChildren : Bool) :
    d.isSelfClosing (t.relocate g) hasChildren = d.isSelfClosing t hasChildren := by
  cases hclosing : d.closing <;>
    simp [isSelfClosing, hclosing, isVoidElement, Tag.relocate, Tag.staticName, Option.isNone_map, Option.isSome_map]

theorem Attribute.site_relocate (a : Attribute) : (a.relocate g).site = a.site.relocate g := rfl

theorem Attribute.staticName_relocate (a : Attribute) : (a.relocate g).staticName = a.staticName := by
  simp [staticName, relocate]

section Results

variable {ε ε' α β : Type} {f : ε → ε'}

theorem mapError_bind (x : Except ε α) (k : α → Except ε β) :
    (x >>= k).mapError f = x.mapError f >>= fun a => (k a).mapError f := by
  cases x <;> rfl

theorem mapError_mapM (k : α → Except ε β) (xs : List α) :
    (xs.mapM k).mapError f = xs.mapM fun x => (k x).mapError f := by
  induction xs with
  | nil => rfl
  | cons x xs ih =>
    simp only [List.mapM_cons, mapError_bind, ih]
    rfl

theorem mapM_map_mapError {α' : Type} {k : α → Except ε β} {k' : α' → Except ε' β} {r : α → α'}
    (h : ∀ x, k' (r x) = (k x).mapError f) (xs : List α) : (xs.map r).mapM k' = (xs.mapM k).mapError f := by
  rw [List.mapM_map, mapError_mapM, Function.comp_def]
  simp only [h]

theorem mapM_map_map {α' β' : Type} {k : α → Except ε β} {k' : α' → Except ε' β'} {r : α → α'} {q : β → β'}
    (h : ∀ x, k' (r x) = ((k x).map q).mapError f) (xs : List α) :
    (xs.map r).mapM k' = ((xs.mapM k).map (List.map q)).mapError f := by
  induction xs with
  | nil => rfl
  | cons x xs ih =>
    rw [List.map_cons, List.mapM_cons, List.mapM_cons, h, ih]
    cases k x with
    | error e => rfl
    | ok y => cases xs.mapM k <;> rfl

end Results

variable {g} {env : Environment} {pretty : Bool} {indent : Bytes}

namespace Environment

theorem pattern_relocate (site : Site) (name : Bytes) (args : List Bytes) :
    (env.recast g pretty indent).pattern (site.relocate g) name args =
      (env.pattern site name args).mapError (Failure.relocate g) := by
  rw [pattern, pattern, show (env.recast g pretty indent).patterns = env.patterns from rfl]
  rcases Pattern.render env.patterns name args with ⟨_ | _⟩ | _ <;> rfl

theorem code_relocate (site : Site) (source : Bytes) (checked : Bool) :
    (env.recast g pretty indent).code (site.relocate g) source checked =
      (env.code site source checked).mapError (Failure.relocate g) := by
  have hfault {α : Type} (x : Except Fault α) : x.mapError (Failure.badExpression (site.relocate g) source) =
      (x.mapError (Failure.badExpression site source)).mapError (Failure.relocate g) := by
    cases x <;> rfl
  have hpattern (x : Except Pattern.Error Bytes) : x.mapError (Failure.ofPattern (some (site.relocate g))) =
      (x.mapError (Failure.ofPattern (some site))).mapError (Failure.relocate g) := by
    rcases x with ⟨_ | _⟩ | _ <;> rfl
  have hpiece : (env.recast g pretty indent).piece (site.relocate g) =
      fun p => (env.piece site p).mapError (Failure.relocate g) := by
    funext p
    cases p with
    | plain t => rfl
    | guarded ts => exact hpattern _
  rw [code, code, hpiece]
  split
  · simp only [mapError_bind, mapError_mapM, ← hfault]
    rfl
  · exact hfault _

theorem snippet_relocate (s : Snippet) :
    (env.recast g pretty indent).snippet (s.relocate g) = (env.snippet s).mapError (Failure.relocate g) :=
  code_relocate s.site s.source s.checked

theorem display_relocate (site : Site) (escape : Bool) (code : Bytes) :
    (env.recast g pretty indent).display (site.relocate g) escape code =
      (env.display site escape code).mapError (Failure.relocate g) :=
  pattern_relocate ..

end Environment

open Environment (pattern_relocate code_relocate snippet_relocate display_relocate)

namespace Contribution

theorem attributeValue_relocate (scope : Scope) (value : Attribute.Value) :
    attributeValue (env.recast g pretty indent) scope (value.relocate g) =
      (attributeValue env scope value).mapError (Failure.relocate g) := by
  cases value with
  | absent => rfl
  | text value escape => rfl
  | code s =>
    have hsource : (s.relocate g).source = s.source := rfl
    simp only [attributeValue, Attribute.Value.relocate, hsource]
    cases Word.of? s.source with
    | some w => rfl
    | none =>
      simp only [mapError_bind, snippet_relocate]
      rfl
  | other site => rfl

theorem keyCode_relocate (a : Attribute) :
    keyCode (env.recast g pretty indent) (a.relocate g) = (keyCode env a).mapError (Failure.relocate g) := by
  rw [keyCode, keyCode]
  cases h : a.nameExpr with
  | none => simp only [Attribute.relocate, h, Option.map_none, Except.mapError]
  | some s => simp only [Attribute.relocate, h, Option.map_some, snippet_relocate]

theorem ofAttribute_relocate (scope : Scope) (a : Attribute) :
    ofAttribute (env.recast g pretty indent) scope (a.relocate g) =
      (ofAttribute env scope a).mapError (Failure.relocate g) := by
  have hvalue : attributeValue (env.recast g pretty indent) scope (a.relocate g).value = _ :=
    attributeValue_relocate scope a.value
  simp only [ofAttribute, mapError_bind, keyCode_relocate, hvalue, Attribute.staticName_relocate]
  simp only [Attribute.relocate, Option.isSome_map]
  rfl

theorem ofAssignment_relocate (scope : Scope) (name : Bytes) (s : Snippet) :
    ofAssignment (env.recast g pretty indent) scope name (s.relocate g) =
      (ofAssignment env scope name s).mapError (Failure.relocate g) := by
  simp only [ofAssignment, mapError_bind, snippet_relocate]
  congr 1
  funext code
  split <;> rfl

theorem ofAssignments_relocate (scope : Scope) (assignments : List Assignment) :
    ofAssignments (env.recast g pretty indent) scope (assignments.map (·.relocate g)) =
      (ofAssignments env scope assignments).mapError (Failure.relocate g) := by
  induction assignments with
  | nil => rfl
  | cons a assignments ih =>
    have hvalues : (a.relocate g).values.mapM (ofAssignment (env.recast g pretty indent) scope (a.relocate g).name) = _ :=
      mapM_map_mapError (ofAssignment_relocate scope a.name) a.values
    simp only [List.map_cons, ofAssignments, mapError_bind, hvalues, ih]
    rfl

theorem collect_relocate (scope : Scope) (attributes : List Attribute) (assignments : List Assignment) :
    collect (env.recast g pretty indent) scope (attributes.map (·.relocate g)) (assignments.map (·.relocate g)) =
      (collect env scope attributes assignments).mapError (Failure.relocate g) := by
  simp only [collect, mapError_bind, mapM_map_mapError (ofAttribute_relocate scope), ofAssignments_relocate]
  rfl

end Contribution

namespace Attributes

open Contribution (attributeValue_relocate)

theorem isComputed_relocate (scope : Scope) (value : Attribute.Value) :
    isComputed scope (value.relocate g) = isComputed scope value := by
  cases value <;> rfl

theorem needMerge_relocate (scope : Scope) (seen : List Bytes) (attributes : List Attribute) :
    needMerge scope seen (attributes.map (·.relocate g)) = needMerge scope seen attributes := by
  induction attributes generalizing seen with
  | nil => rfl
  | cons a attributes ih =>
    have hvalue : isComputed scope (a.relocate g).value = isComputed scope a.value := isComputed_relocate scope a.value
    rw [List.map_cons, needMerge, needMerge, Attribute.staticName_relocate, hvalue]
    simp only [ih]

theorem entry_relocate (site : Site) (e : Key × Value) :
    entry (env.recast g pretty indent) (site.relocate g) e = (entry env site e).mapError (Failure.relocate g) := by
  unfold entry
  dsimp only
  split
  · rfl
  · rfl
  · exact pattern_relocate ..
  · split
    · rfl
    · exact pattern_relocate ..

theorem entries_relocate (site : Site) (set : List (Key × Value)) :
    entries (env.recast g pretty indent) (site.relocate g) set = (entries env site set).mapError (Failure.relocate g) := by
  have hentry : entry (env.recast g pretty indent) (site.relocate g) =
      fun e => (entry env site e).mapError (Failure.relocate g) := funext (entry_relocate site)
  simp only [entries, mapError_bind, mapError_mapM, hentry]
  rfl

theorem pair_relocate (a : Attribute) (value : Bytes) :
    pair (env.recast g pretty indent) (a.relocate g) value = (pair env a value).mapError (Failure.relocate g) := by
  have hkey : key (env.recast g pretty indent) (a.relocate g) = (key env a).mapError (Failure.relocate g) := by
    rw [key, key, show (a.relocate g).nameExpr = a.nameExpr.map (·.relocate g) from rfl]
    cases a.nameExpr with
    | none => rfl
    | some s =>
      rw [Option.map_some]
      dsimp only
      rw [mapError_bind, snippet_relocate, Attribute.site_relocate]
      exact bind_congr fun code => pattern_relocate ..
  rw [pair, pair, hkey, mapError_bind, Attribute.site_relocate]
  exact bind_congr fun key => pattern_relocate ..

end Attributes

namespace Binding

variable (hg : g.number.Injective)
include hg

theorem contains_relocate (used : List NodeId) (id : NodeId) :
    (used.map g.number).contains (g.number id) = used.contains id := by
  rw [Bool.eq_iff_iff, List.contains_iff_mem, List.contains_iff_mem, List.mem_map_of_injective hg]

theorem named?_relocate (attributes : List Attribute) (used : List NodeId) (name : Bytes) :
    named? (attributes.map (·.relocate g)) (used.map g.number) name = (named? attributes used name).map (·.relocate g) := by
  have hused (a : Attribute) : (used.map g.number).contains (a.relocate g).id = used.contains a.id :=
    contains_relocate hg used a.id
  rw [named?, named?, List.find?_map]
  simp only [Function.comp_def, Attribute.staticName_relocate, hused]

theorem bindParams_relocate (runtime : Bool) (attributes : List Attribute) (used : List NodeId) (args : List Argument)
    (names : List Bytes) :
    bindParams runtime (attributes.map (·.relocate g)) (used.map g.number) (args.map (·.relocate g)) names =
      (bindParams runtime attributes used args names).map (·.relocate g) := by
  have hnamed (used : List NodeId) (name : Bytes) :
      (if runtime then none else named? (attributes.map (·.relocate g)) (used.map g.number) name) =
        (if runtime then none else named? attributes used name).map (·.relocate g) := by
    split
    · rfl
    · exact named?_relocate hg ..
  fun_induction bindParams runtime attributes used args names with
  | case1 => rw [bindParams, List.map_nil]
  | case2 used arg args name names ih => exact congrArg _ ih
  | case3 used name names a ha ih =>
    rw [List.map_nil, bindParams, hnamed, ha]
    exact congrArg _ ih
  | case4 used name names ha ih =>
    rw [List.map_nil, bindParams, hnamed, ha]
    exact congrArg _ ih

theorem ofCall_relocate (m : Mixin) (args : List Argument) (attributes : List Attribute) :
    ofCall m (args.map (·.relocate g)) (attributes.map (·.relocate g)) = (ofCall m args attributes).relocate g := by
  have hruntime : (args.map (·.relocate g)).any (·.packed) = args.any (·.packed) := List.any_map
  have htake : (args.map (·.relocate g)).takeWhile (!·.packed) = (args.takeWhile (!·.packed)).map (·.relocate g) :=
    List.takeWhile_map ..
  have hparams : bindParams (args.any (·.packed)) (attributes.map (·.relocate g)) []
      ((args.takeWhile (!·.packed)).map (·.relocate g)) m.params = _ := bindParams_relocate hg _ attributes [] _ m.params
  have hused (params : List Parameter) : (params.map (·.relocate g)).filterMap (fun p => p.attr.map (·.id)) =
      (params.filterMap fun p => p.attr.map (·.id)).map g.number := by
    rw [List.filterMap_map, List.map_filterMap]
    refine List.filterMap_congr fun p _ => ?_
    obtain ⟨name, argument, attr⟩ := p
    cases attr <;> rfl
  have hfree (used : List NodeId) : (attributes.map (·.relocate g)).filter (fun a => !(used.map g.number).contains a.id) =
      (attributes.filter fun a => !used.contains a.id).map (·.relocate g) := by
    rw [List.filter_map]
    refine congrArg _ (List.filter_congr fun a _ => ?_)
    exact congrArg not (contains_relocate hg used a.id)
  have hsurplus : (if args.any (·.packed) then [] else (args.map (·.relocate g)).drop m.params.length) =
      (if args.any (·.packed) then [] else args.drop m.params.length).map (·.relocate g) := by
    split
    · rfl
    · exact List.map_drop.symm
  simp only [ofCall, hruntime, htake, hparams, hused, hfree, hsurplus, relocate]
  cases m.variadic <;> rfl

end Binding

namespace Expansion

open Contribution (collect_relocate ofAssignment_relocate attributeValue_relocate)

theorem sets_relocate (scope : Scope) (m : Mixin) (b : Binding) (assignments : List Assignment) :
    sets (env.recast g pretty indent) scope m (b.relocate g) (assignments.map (·.relocate g)) =
      (sets env scope m b assignments).mapError (Failure.relocate g) := by
  have hcollect : Contribution.collect (env.recast g pretty indent) scope (b.relocate g).attributes
      (assignments.map (·.relocate g)) = _ := collect_relocate scope b.attributes assignments
  have hrest : ((b.rest.map (·.relocate g)).mapM fun a =>
      Contribution.ofAssignment (env.recast g pretty indent) scope "attributes" a.code) = _ :=
    mapM_map_mapError (r := Argument.relocate g) (k := fun a => Contribution.ofAssignment env scope "attributes" a.code)
      (fun a => ofAssignment_relocate scope "attributes" a.code) b.rest
  rw [sets, sets, hcollect, mapError_bind, show (b.relocate g).rest = b.rest.map (·.relocate g) from rfl]
  refine bind_congr fun cs => ?_
  split
  · rw [hrest, mapError_bind]
    rfl
  · rfl

theorem parameter_relocate (scope : Scope) (p : Parameter) :
    parameter (env.recast g pretty indent) scope (p.relocate g) =
      (parameter env scope p).mapError (Failure.relocate g) := by
  obtain ⟨name, argument, attr⟩ := p
  cases argument with
  | some a => exact snippet_relocate a.code
  | none =>
    cases attr with
    | some a =>
      have hvalue : Contribution.attributeValue (env.recast g pretty indent) scope (a.relocate g).value = _ :=
        attributeValue_relocate scope a.value
      simp only [parameter, Parameter.relocate, Option.map_none, Option.map_some, hvalue, mapError_bind]
      rfl
    | none => rfl

theorem boundArguments_relocate (scope : Scope) (m : Mixin) (b : Binding) :
    boundArguments (env.recast g pretty indent) scope m (b.relocate g) =
      (boundArguments env scope m b).mapError (Failure.relocate g) := by
  have hparams : (b.relocate g).params.mapM (parameter (env.recast g pretty indent) scope) = _ :=
    mapM_map_mapError (parameter_relocate scope) b.params
  have hrest : ((b.relocate g).rest.mapM fun a => (env.recast g pretty indent).snippet a.code) = _ :=
    mapM_map_mapError (r := Argument.relocate g) (k := fun a => env.snippet a.code) (fun a => snippet_relocate a.code) b.rest
  unfold boundArguments
  rw [hparams, hrest, mapError_bind]
  refine bind_congr fun bound => ?_
  split
  · rfl
  · rw [mapError_bind]
    rfl

theorem argumentCodes_relocate (call : Call) :
    argumentCodes (env.recast g pretty indent) (call.relocate g) =
      ((argumentCodes env call).map (List.map fun c => (c.1.relocate g, c.2))).mapError (Failure.relocate g) := by
  refine mapM_map_map (fun a => ?_) call.args
  have hcode : (env.recast g pretty indent).code (a.relocate g).code.site (a.relocate g).code.source
      ((a.relocate g).code.checked && !(a.relocate g).packed) = _ :=
    code_relocate a.code.site a.code.source (a.code.checked && !a.packed)
  rw [hcode]
  cases env.code a.code.site a.code.source (a.code.checked && !a.packed) <;> rfl

theorem listParts_relocate (plain : List Bytes) (codes : List (Argument × Bytes)) :
    listParts plain (codes.map fun c => (c.1.relocate g, c.2)) = listParts plain codes := by
  induction codes generalizing plain with
  | nil => rfl
  | cons c codes ih =>
    rw [List.map_cons, listParts, listParts, ih, ih]
    rfl

theorem listCode_relocate (call : Call) (codes : List (Argument × Bytes)) :
    listCode (call.relocate g) (codes.map fun c => (c.1.relocate g, c.2)) = listCode call codes := by
  rw [listCode, listCode, listParts_relocate]
  congr 1
  induction codes with
  | nil => rfl
  | cons c codes ih => exact congrArg (_ >>= fun _ => ·) ih

theorem isMixed_relocate (args : List Argument) : isMixed (args.map (·.relocate g)) = isMixed args := by
  rw [isMixed, isMixed, List.dropWhile_map, List.any_map]
  rfl

end Expansion

namespace Render

theorem tagName_relocate (site : Site) (t : Tag) :
    tagName (env.recast g pretty indent) (site.relocate g) (t.relocate g) =
      (tagName env site t).mapError (Failure.relocate g) := by
  rw [tagName, tagName, show (t.relocate g).nameExpr = t.nameExpr.map (·.relocate g) from rfl]
  cases t.nameExpr with
  | none => rfl
  | some s =>
    rw [Option.map_some]
    dsimp only
    rw [mapError_bind, snippet_relocate]
    exact bind_congr fun code => pattern_relocate ..

theorem doctype_relocate (site : Site) (value : Bytes) :
    doctype (env.recast g pretty indent) (site.relocate g) value =
      (doctype env site value).mapError (Failure.relocate g) := by
  rw [doctype, doctype]
  split
  · rfl
  · exact pattern_relocate ..

theorem expression_relocate (scope : Scope) (s : Snippet) :
    expression (env.recast g pretty indent) scope (s.relocate g) =
      (expression env scope s).mapError (Failure.relocate g) := by
  rw [expression, expression, show (s.relocate g).source = s.source from rfl]
  split
  · rfl
  · rw [mapError_bind, snippet_relocate]
    exact bind_congr fun code => display_relocate s.site s.escape code

theorem binding_relocate (site : Site) (name : Bytes) (value : Option Snippet) :
    binding (env.recast g pretty indent) (site.relocate g) name (value.map (·.relocate g)) =
      (binding env site name value).mapError (Failure.relocate g) := by
  cases value with
  | none => rfl
  | some s =>
    rw [Option.map_some, binding, binding, mapError_bind, snippet_relocate]
    exact bind_congr fun code => pattern_relocate ..

theorem block_relocate (scope : Scope) (site : Site) :
    block (env.recast g pretty indent) scope (site.relocate g) = (block env scope site).mapError (Failure.relocate g) := by
  rw [block, block]
  split
  · rfl
  · exact pattern_relocate ..

end Render

end Stencil
