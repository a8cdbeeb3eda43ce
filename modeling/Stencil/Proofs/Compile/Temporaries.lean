import Stencil.Proofs.Compile.Alternation
import Stencil.Proofs.Compile.Minting

/-! Temporaries are fresh. Each one that is put on a page has a number that no other of its family has, however often its
node is rendered, so that it is assigned on the page at one place only. -/

namespace Stencil

open Rendering (Idle Keeps Mints)

/-- The source mentions no temporary, and the texts in the constant that it denotes, if it is a literal, satisfy `P`. -/
structure Literal.Discreet (P : Bytes → Prop) (src : Bytes) : Prop where
  source : src.Discreet
  value : ∀ v, evaluate src = some v → v.Each P

/-- The texts that stand in the tree as nodes satisfy `P`. -/
inductive Element.Shows (P : Bytes → Prop) : Element → Prop
  | node {id : NodeId} {origin : Option Origin} {content : Element.Content} {children : List Element}
      (htext : ∀ t, content = .text t → P t.value) (hchildren : ∀ e ∈ children, Shows P e) :
      Shows P (.node id origin content children)

theorem Element.Shows.declarations {P : Bytes → Prop} {e : Element} (h : e.Shows P) :
    ∀ d ∈ e.declarations, ∀ b ∈ d.body, b.Shows P := by
  refine forall_declarations (fun h => ?_) (fun h => ?_) e h
  · cases h with | node _ hchildren => exact hchildren
  · cases h with | node _ hchildren => exact hchildren

theorem Forest.element_shows {P : Bytes → Prop} {f : Forest}
    (h : ∀ id n, f.get? id = some n → ∀ t, f.elementContent id n.content = .text t → P t.value) (id : NodeId) :
    (f.element id).Shows P :=
  forall_element (fun _ => .node nofun (List.forall_mem_nil _)) (fun id n _ hn hc => .node (h id n hn) hc) id

open Texture (discreet)

/-- Nothing in the tree mentions a temporary, and what it shows satisfies `P`. -/
structure Element.Discreet (P : Bytes → Prop) (e : Element) : Prop where
  each : e.Each discreet.Holds (Literal.Discreet P)
  shows : e.Shows P

structure Environment.Discreet (env : Environment) (P : Bytes → Prop) : Prop where
  bracketed : env.Bracketed
  coded : env.Coded
  settings : env.settings.Each discreet.Holds (Literal.Discreet P)
  indent : P env.settings.indent
  mixins : ∀ d ∈ env.mixins, d.mixin.Each discreet.Holds ∧ ∀ e ∈ d.body, e.Discreet P

abbrev Attribute.Discreet (P : Bytes → Prop) (a : Attribute) : Prop := a.Each discreet.Holds (Literal.Discreet P)

abbrev Assignment.Discreet (P : Bytes → Prop) (a : Assignment) : Prop := a.Each discreet.Holds (Literal.Discreet P)

abbrev Progress.Discreet (P : Bytes → Prop) : Progress → Prop := Progress.Each discreet.Holds (Literal.Discreet P)

theorem Entity.discreet_escaped (escape : Bool) {s : Bytes} (hs : discreet.Holds s) :
    discreet.Holds (if escape then Entity.escape s else s) := by
  split
  · exact Entity.holds_escape hs
  · exact hs

theorem Value.Each.discreet {P : Bytes → Prop} (hP : Bytes.Aloof P) {v : Value} (h : v.Each P) :
    v.Each Texture.discreet.Holds := h.both (fun _ hs _ => hP.discreet hs) h

section Writing

variable {P : Bytes → Prop} (hP : Bytes.Aloof P) {env : Environment} (h : env.Discreet P)

namespace Environment.Discreet

include h

include hP in
theorem weaves : env.Weaves discreet (Literal.Discreet P) where
  source hs := hs.source
  value hs v hv := (hs.value v hv).discreet hP
  code hs hok := h.coded.code hs hok
  storage := h.settings.storage
  accessor hname := h.settings.accessor _ hname

theorem displayed {site : Site} {escape : Bool} {code : Bytes} (hcode : discreet.Holds code) {text : Bytes}
    (hok : env.display site escape code = .ok text) : text.Framed := by
  cases escape with
  | false =>
    rw [h.coded.display hok]
    exact .around (by decide) hcode (by decide)
  | true =>
    rw [h.coded.escaped hok]
    exact .around (by decide) hcode (by decide)

theorem shown {site : Site} {code : Bytes} (hcode : discreet.Holds code) {text : Bytes}
    (hok : env.pattern site "php_display_code" [code] = .ok text) : text.Framed := by
  rw [h.coded.display hok]
  exact .around (by decide) hcode (by decide)

theorem handled {site : Site} {code : Bytes} (hcode : discreet.Holds code) {text : Bytes}
    (hok : env.pattern site "php_handle_code" [code] = .ok text) : text.Framed := by
  rw [h.coded.handle hok]
  exact .around (by decide) hcode (by decide)

end Environment.Discreet

namespace Attributes

include h

theorem named_joins {site : Site} {name value : Bytes} (hname : discreet.Holds name) (hvalue : discreet.Holds value)
    {text : Bytes} (hok : env.pattern site "attribute_pattern" [name, value] = .ok text) : Joins P [] text := by
  rw [h.bracketed.pair hok]
  exact .lead (by decide : Bytes.Framed [Ascii.space]) ((hname.part (by decide) hvalue).trail (by decide))

theorem flag_joins {site : Site} {name : Bytes} (hname : discreet.Holds name) {text : Bytes}
    (hok : env.pattern site "boolean_attribute_pattern" [name, name] = .ok text) : Joins P [] text := by
  rw [h.bracketed.flag hok]
  split
  · exact .lead (by decide : Bytes.Framed [Ascii.space]) ((hname.part (by decide) hname).trail (by decide))
  · exact .lead (by decide : Bytes.Framed [Ascii.space]) hname

theorem entries_joins {site : Site} {set : List (Key × Value)} (hset : EachEntry discreet.Holds set) {text : Bytes}
    (hok : entries env site set = .ok text) : Joins P [] text := by
  obtain ⟨texts, htexts, hok⟩ := bind_eq_ok hok
  cases hok
  refine .flatten (mapM_forall htexts fun e he text hok => ?_)
  obtain ⟨key, v⟩ := e
  obtain ⟨hkey, hv⟩ := hset _ he
  have hname := hkey.toValue.text
  rcases entry_eq_ok hok with rfl | hok | hok
  · exact .nil
  · exact flag_joins h hname hok
  · exact named_joins h hname (Entity.holds_escape hv.text) hok

include hP

theorem merge_mints (site : Site) {cs : List Contribution} (hcs : ∀ c ∈ cs, c.Each discreet.Holds) :
    Mints (Progress.Discreet P) (Joins P) (merge env site cs) := by
  rw [merge]
  split
  next set hset => exact .lift fun text hok => entries_joins h (Contribution.each_merged? hcs hset) hok
  next =>
    refine .idle (Rendering.require_keeps env _ _) (Rendering.require_idle _ _ _) fun accessor haccessor => .lift fun text hok => ?_
    have hcodes := Texture.Holds.join (by decide : Texture.Parts ", ") (Contribution.holds_codes hcs)
    rw [haccessor] at hok
    exact .of_framed (h.shown (Expansion.holds_invocation (h.weaves hP) (by decide) hcodes) hok)

/-- A name that is given, or computed and displayed. -/
theorem named_discreet {site : Site} {name : Bytes} {nameExpr : Option Snippet} (hname : discreet.Holds name)
    (hnameExpr : ∀ s, nameExpr = some s → Literal.Discreet P s.source) {text : Bytes}
    (hok : (match nameExpr with
      | none => Except.ok name
      | some s => do env.pattern site "php_display_code" [← env.snippet s]) = .ok text) : discreet.Holds text := by
  cases nameExpr with
  | none =>
    cases hok
    exact hname
  | some s =>
    obtain ⟨code, hcode, hok⟩ := bind_eq_ok hok
    exact (h.shown ((h.weaves hP).snippet (hnameExpr s rfl) hcode) hok).discreet

theorem key_discreet {a : Attribute} (ha : a.Discreet P) {text : Bytes} (hok : key env a = .ok text) :
    discreet.Holds text := named_discreet hP h ha.name ha.nameExpr hok

theorem pair_joins {a : Attribute} (ha : a.Discreet P) {value : Bytes} (hvalue : discreet.Holds value) {text : Bytes}
    (hok : pair env a value = .ok text) : Joins P [] text := by
  obtain ⟨key, hkey, hok⟩ := bind_eq_ok hok
  exact named_joins h (key_discreet hP h ha hkey) hvalue hok

omit hP h in
/-- The temporary of a computed name is assigned before the name is displayed, once or twice. -/
theorem kept_joins (n : Nat) {code : Bytes} (hcode : discreet.Holds code) (twice : Bool) :
    let name := Temporary.name ⟨.key, n⟩
    let key := "<?= " ++ (name ++ " ?>")
    Joins P [⟨.key, n⟩] ("<?php " ++ ((name ++ " = " ++ code ++ ";") ++ " ?>") ++
      if twice then Ascii.space :: (key ++ "=\"" ++ key ++ [Ascii.doubleQuote]) else Ascii.space :: key) := by
  intro name key U B rest hU hrest
  have hv : ⟨.key, n⟩ ∈ U := hU List.mem_cons_self
  have hassign : Opened P U [⟨.key, n⟩] (Bytes.ofString "<?php " ++ (name ++ (Bytes.ofString " = " ++ (code ++
      (Bytes.ofString ";" ++ Bytes.ofString " ?>"))))) :=
    ⟨_, _, by decide, .assign hv (.around (by decide) hcode (by decide)), rfl⟩
  have hkey {lead : Bytes} (hlead : lead.Framed) : Inked P U [] (lead ++ (name ++ Bytes.ofString " ?>")) :=
    (Inked.own hlead).append (.use hv (by decide) rfl fun _ => rfl)
  have hfirst := hkey (by decide : Bytes.Framed ([Ascii.space] ++ Bytes.ofString "<?= "))
  split
  · have hsecond := hkey (by decide : Bytes.Framed (Bytes.ofString "=\"" ++ Bytes.ofString "<?= "))
    have hclose : Inked P U [] [Ascii.doubleQuote] := .own (by decide)
    have hall := hassign.append (hfirst.append (hsecond.append (hclose.append hrest.inked)))
    simpa only [key, List.append_assoc, List.cons_append, List.nil_append] using hall
  · have hall := hassign.append (hfirst.append hrest.inked)
    simpa only [key, List.append_assoc, List.cons_append, List.nil_append] using hall

theorem bare_mints {a : Attribute} (ha : a.Discreet P) : Mints (Progress.Discreet P) (Joins P) (bare env a) := by
  rw [bare]
  split
  next => exact .lift fun text hok => flag_joins h ha.name hok
  next s hs =>
    refine .idle (.lift fun _ => (h.weaves hP).snippet (ha.nameExpr s hs)) (.lift _) fun code hcode => ?_
    refine .bind Rendering.freshKey_mints fun V temporary hV => ?_
    obtain ⟨n, rfl, rfl⟩ := hV
    refine .idle (.lift fun assign hok => h.coded.handle hok) (.lift _) fun assign hassign => ?_
    refine .idle (.lift fun key hok => h.coded.display hok) (.lift _) fun key hkey => ?_
    refine .idle (.lift fun text hok => h.bracketed.flag hok) (.lift _) fun text htext => .pure ?_
    rw [hassign, htext, hkey]
    exact kept_joins n hcode env.dialect.slashes

theorem known_mints {a : Attribute} (ha : a.Discreet P) (escape : Bool) {v : Value} (hv : v.Each discreet.Holds) :
    Mints (Progress.Discreet P) (Joins P) (known env a escape v) := by
  unfold known
  split
  · exact bare_mints hP h ha
  · exact .pure .nil
  · exact .pure .nil
  · exact .lift fun text hok => pair_joins hP h ha (Entity.discreet_escaped escape hv.text) hok

theorem single_mints {scope : Scope} (hscope : scope.Each discreet.Holds) {a : Attribute} (ha : a.Discreet P) :
    Mints (Progress.Discreet P) (Joins P) (single env scope a) := by
  have hvalue := ha.value
  rw [single]
  split
  next => exact bare_mints hP h ha
  next value escape heq =>
    rw [heq] at hvalue
    exact .lift fun text hok => pair_joins hP h ha (Entity.discreet_escaped escape hvalue) hok
  next s heq =>
    rw [heq] at hvalue
    split
    next w _ => exact known_mints hP h ha s.escape w.each_value
    next =>
      split
      next v hv => exact known_mints hP h ha s.escape (hscope.scalar? ((h.weaves hP).value hvalue) hv)
      next =>
        refine .idle (.lift fun _ => (h.weaves hP).snippet hvalue) (.lift _) fun code hcode => ?_
        refine .idle (.lift fun text hok => h.displayed hcode hok) (.lift _) fun text htext => ?_
        exact .lift fun _ hok => pair_joins hP h ha htext.discreet hok
  next => exact .throw _

theorem write_mints {scope : Scope} (hscope : scope.Each discreet.Holds) (owner : NodeId) (site : Site)
    {attributes : List Attribute} (hattributes : ∀ a ∈ attributes, a.Discreet P) {assignments : List Assignment}
    (hassignments : ∀ a ∈ assignments, a.Discreet P) :
    Mints (Progress.Discreet P) (Joins P) (write env scope owner site attributes assignments) := by
  rw [write]
  refine .idle (pending_each h.settings hattributes hassignments) (pending_idle _ _ _ _) fun left hleft => ?_
  refine .idle (Rendering.attributesOf_each owner hattributes) (Rendering.attributesOf_idle _ _) fun all hall => ?_
  split
  · refine .idle (.lift fun cs => Contribution.each_collect (h.weaves hP) hscope hall hleft) (.lift _) fun cs hcs => ?_
    exact merge_mints hP h site hcs
  · refine .bind (.flatten .nil .append fun a ha => single_mints hP h hscope (hall a ha)) fun V texts htexts => .pure ?_
    rw [List.append_nil]
    exact htexts

end Attributes

namespace Expansion

omit hP h in
/-- Temporaries that are assigned between those of a call count as drawn after them. -/
theorem perm_between {V A B W : List Temporary} (h : (A ++ B).Perm V) : (A ++ W ++ B).Perm (V ++ W) := by
  rw [List.append_assoc]
  calc (A ++ (W ++ B)).Perm (A ++ (B ++ W)) := List.perm_append_comm.append_left A
    _ = (A ++ B) ++ W := (List.append_assoc A B W).symm
    List.Perm _ (V ++ W) := h.append_right W

omit hP h in
theorem captures_singleton (env : Environment) (v : Bytes) :
    env.captures [v] = env.captures [] ++ (Bytes.ofString ", &" ++ v) := by
  rw [Environment.captures, Environment.captures]
  split <;> simp [Bytes.join] <;> rfl

/-- The codes of the actual arguments assign the temporaries of `A` before the closure and those of `B` in the block. -/
structure Actuals.Penned (P : Bytes → Prop) (U A B : List Temporary) (a : Actuals) : Prop where
  setup : Inked P U A a.setup
  attributes : Woven P U [] a.attributes
  block : Inked P U B a.block
  args : ∀ c ∈ a.args, Woven P U [] c

section Children

variable {render : Render} (hr : ∀ scope es, scope.Each discreet.Holds → (∀ e ∈ es, Element.Discreet P e) →
  Mints (Progress.Discreet P) (Settled P) (render scope es))

include hP h hr

theorem block_mints {scope : Scope} (hscope : scope.Each discreet.Holds) (site : Site) {children : List Element}
    (hchildren : ∀ e ∈ children, e.Discreet P) :
    Mints (Progress.Discreet P) (fun V r => ∃ A B, (A ++ B).Perm V ∧
      ∀ U, V ⊆ U → Inked P U A r.1 ∧ Inked P U B r.2) (block env render scope site children) := by
  rw [block]
  split
  next => exact .pure ⟨[], [], .refl _, fun U _ => ⟨.nil, .own (by decide)⟩⟩
  next =>
    refine .bind (hr scope children hscope hchildren) fun V body hbody => ?_
    refine .bind (Rendering.freshScope_mints .scope (by decide)) fun W n hW => ?_
    subst hW
    refine .idle (.lift fun inner hok => h.coded.nested hok) (.lift _) fun inner hinner => .pure ?_
    refine ⟨[⟨.scope, n⟩], V, ?_, fun U hU => ?_⟩
    · rw [List.append_nil]
      exact List.perm_append_comm
    · rw [List.append_nil] at hU
      obtain ⟨hV, hv⟩ := List.append_subset.mp hU
      have hv : ⟨.scope, n⟩ ∈ U := hv List.mem_cons_self
      have hcaptures := (h.weaves hP).captures (List.forall_mem_nil discreet.Holds)
      have hopen : Inked P U [] (Bytes.ofString "function () use (" ++ (env.captures [] ++ Bytes.ofString ", &")) :=
        .own (.around (by decide) hcaptures (by decide))
      have hread : Inked P U [] (Temporary.name ⟨.scope, n⟩ ++ Bytes.ofString ") \x7b extract(") :=
        .use hv (by decide) rfl fun _ => rfl
      have hextract : Inked P U [] (Temporary.name ⟨.scope, n⟩ ++ (Bytes.ofString ");" ++ Bytes.ofString " ?>")) :=
        .use hv (by decide) rfl fun _ => rfl
      have hclose : Inked P U [] (Bytes.ofString "<?php " ++ Bytes.ofString "\x7d") := .own (by decide)
      refine ⟨.assign hv (by decide : Bytes.Framed (Bytes.ofString " = " ++ Bytes.ofString "get_defined_vars(); ")), ?_⟩
      have hall := (hopen.append (hread.append hextract)).append ((Inked.mono hbody hV).append hclose)
      have hname : Bytes.ofString "$__pug_scope_" ++ Bytes.ofNat n = Temporary.name ⟨.scope, n⟩ := rfl
      rw [hinner, hname, captures_singleton]
      simpa only [List.append_assoc, List.nil_append, List.append_nil] using hall

omit hr in
theorem spreadAttributes_mints (site : Site) {call : Call} (hargs : ∀ a ∈ call.args, Literal.Discreet P a.code.source)
    (m : Mixin) {V A B : List Temporary} (hperm : (A ++ B).Perm V) {a : Actuals} (ha : ∀ U, V ⊆ U → a.Penned P U A B) :
    Mints (Progress.Discreet P) (fun W a' => a'.known = none ∧ ∃ A', (A' ++ B).Perm (V ++ W) ∧
      ∀ U, V ++ W ⊆ U → a'.Penned P U A' B) (spreadAttributes env site call m a) := by
  rw [spreadAttributes]
  refine .idle (.lift fun codes => holds_argumentCodes (h.weaves hP) hargs) (.lift _) fun codes hcodes => ?_
  refine .idle (listCode_holds call hcodes) (listCode_idle _ _) fun list hlist => ?_
  refine .bind (Rendering.freshScope_mints .args (by decide)) fun W n hW => ?_
  subst hW
  refine .idle (Rendering.require_keeps env _ _) (Rendering.require_idle _ _ _) fun accessor haccessor => ?_
  refine .idle (Rendering.say_keeps _ _) (Rendering.say_idle _ _) fun _ _ => .pure ⟨rfl, A ++ [⟨.args, n⟩], ?_, fun U hU => ?_⟩
  · rw [List.append_nil]
    exact perm_between hperm
  · rw [List.append_nil] at hU
    obtain ⟨hV, hv⟩ := List.append_subset.mp hU
    have hv : ⟨.args, n⟩ ∈ U := hv List.mem_cons_self
    have hplain := ha U hV
    have hcount : discreet.Holds (Bytes.ofNat m.params.length) := holds_of_isFigure (Bytes.figure_ofNat _)
    have hname : Bytes.ofString "$__pug_args_" ++ Bytes.ofNat n = Temporary.name ⟨.args, n⟩ := rfl
    have hmerge : discreet.Holds accessor := by
      rw [haccessor]
      exact (h.weaves hP).accessor (Texture.Plain.holds (by decide))
    have hassign : Inked P U [⟨.args, n⟩] (Temporary.name ⟨.args, n⟩ ++ (Bytes.ofString " = " ++ (list ++
        Bytes.ofString "; "))) := .assign hv (.around (by decide) hlist (by decide))
    have hsetup := hplain.setup.append hassign
    have htail : Inked P U [] (Temporary.name ⟨.args, n⟩ ++ (Bytes.ofString ", " ++ (Bytes.ofNat m.params.length ++
        Bytes.ofString "))"))) := .use hv (.around (by decide) hcount (by decide)) rfl fun _ => rfl
    have hattributes := (Woven.of_discreet hmerge).part (by decide : Bytes.Framed "(")
      (hplain.attributes.part (by decide : Bytes.Framed ", ...array_slice(") (.of_inked htail))
    have hslice : Inked P U [] (Bytes.ofString "...array_slice(") := .own (by decide)
    have hfront : Inked P U [] (Temporary.name ⟨.args, n⟩ ++ (Bytes.ofString ", 0, " ++ (Bytes.ofNat m.params.length ++
        Bytes.ofString ")"))) := .use hv (.around (by decide) hcount (by decide)) rfl fun _ => rfl
    have hargs := Woven.of_inked (hslice.append hfront)
    rw [hname]
    refine ⟨?_, ?_, hplain.block, List.forall_mem_singleton.mpr ?_⟩
    · simpa only [List.append_assoc] using hsetup
    · simpa only [List.append_assoc, List.append_nil] using hattributes
    · simpa only [List.append_assoc, List.append_nil] using hargs

theorem actuals_mints {scope : Scope} (hscope : scope.Each discreet.Holds) (id : NodeId) (site : Site) {call : Call}
    (hcall : call.Each discreet.Holds (Literal.Discreet P)) {children : List Element} (hchildren : ∀ e ∈ children, e.Discreet P)
    (m : Mixin) {b : Binding} (hb : b.Each discreet.Holds (Literal.Discreet P)) :
    Mints (Progress.Discreet P) (fun V a => (∀ es, a.known = some es → EachEntry discreet.Holds es) ∧
      ∃ A B, (A ++ B).Perm V ∧ ∀ U, V ⊆ U → a.Penned P U A B) (actuals env render scope id site call children m b) := by
  rw [actuals]
  refine .bind (block_mints hP h hr hscope site hchildren) fun V block hblock => ?_
  obtain ⟨A, B, hperm, hblock⟩ := hblock
  refine .idle (attributes_holds (h.weaves hP) h.settings hscope id site hcall m hb) (attributes_idle _ _ _ _ _ _ _)
    fun attributes hattributes => ?_
  have hplain {args : List Bytes} (hargs : ∀ a ∈ args, discreet.Holds a) (U : List Temporary) (hU : V ⊆ U) :
      Actuals.Penned P U A B ⟨block.1, attributes.1, attributes.2, block.2, args⟩ :=
    ⟨(hblock U hU).1, .of_discreet hattributes.1, (hblock U hU).2, fun c hc => .of_discreet (hargs c hc)⟩
  have hspread {args : List Bytes} (hargs : ∀ a ∈ args, discreet.Holds a) (spreads : Bool) :
      Mints (Progress.Discreet P) (fun W a => (∀ es, a.known = some es → EachEntry discreet.Holds es) ∧
        ∃ A' B', (A' ++ B').Perm (V ++ W) ∧ ∀ U, V ++ W ⊆ U → a.Penned P U A' B')
        (if spreads then spreadAttributes env site call m ⟨block.1, attributes.1, attributes.2, block.2, args⟩
          else return ⟨block.1, attributes.1, attributes.2, block.2, args⟩) := by
    split
    · refine (spreadAttributes_mints hP h site hcall.args m hperm (hplain hargs)).mono fun W a ha => ?_
      obtain ⟨hknown, A', ha⟩ := ha
      exact ⟨fun es hes => (by rw [hknown] at hes; cases hes), A', B, ha⟩
    · refine .pure ⟨hattributes.2, A, B, ?_, fun U hU => hplain hargs U ?_⟩
      · rwa [List.append_nil]
      · rwa [List.append_nil] at hU
  dsimp only
  split
  · refine .idle (spreadArguments_holds (h.weaves hP) hcall.args) (spreadArguments_idle _ _) fun args hargs => ?_
    exact hspread hargs _
  · refine .idle (.lift fun args => holds_boundArguments (h.weaves hP) hscope hb) (.lift _) fun args hargs => ?_
    exact hspread hargs _

omit hP h hr in
/-- Codes with commas between them, where the first may assign temporaries. -/
theorem woven_join {U B : List Temporary} {c : Bytes} (hc : Woven P U B c) {args : List Bytes}
    (hargs : ∀ a ∈ args, Woven P U [] a) : Woven P U B (Bytes.join ", " (c :: args)) := by
  induction args generalizing c B with
  | nil => simpa [Bytes.join] using hc
  | cons a args ih =>
    obtain ⟨ha, hargs⟩ := List.forall_mem_cons.mp hargs
    have hall := hc.part (by decide : Bytes.Framed ", ") (ih ha hargs)
    rw [List.append_nil] at hall
    rw [Bytes.join, List.intercalate_cons_cons, List.append_assoc]
    exact hall

omit hr in
/-- The code of a call: what is saved before, the closure with the body of the mixin, and its arguments with the block. -/
theorem invocation_inked {m : Mixin} (hm : m.Each discreet.Holds) {U A B W : List Temporary} {a : Actuals}
    (ha : a.Penned P U A B) {body : Bytes} (hbody : Inked P U W body) :
    Inked P U (A ++ W ++ B) ("<?php " ++ ((a.setup ++ "(function (" ++ Bytes.join ", " (formals m) ++ ") use (" ++
      env.captures [] ++ ") \x7b" ++ (" ?>" ++ (body ++ "<?php ")) ++ "\x7d)(" ++
      Bytes.join ", " (a.attributes :: a.block :: a.args) ++ ");") ++ " ?>")) := by
  have hformals := Texture.Holds.join (by decide : Texture.Parts ", ") (holds_formals hm)
  have hcaptures := (h.weaves hP).captures (List.forall_mem_nil discreet.Holds)
  have hfunction : Bytes.Framed (Bytes.ofString "(function (" ++ (Bytes.join ", " (formals m) ++ Bytes.ofString ") use (")) :=
    .around (by decide) hformals (by decide)
  have hopen : Inked P U [] _ :=
    .own (hfunction.around hcaptures (by decide : Bytes.Framed (Bytes.ofString ") \x7b" ++ Bytes.ofString " ?>")))
  have hargs : Woven P U ([] ++ B) (a.attributes ++ (Bytes.ofString ", " ++ Bytes.join ", " (a.block :: a.args))) :=
    ha.attributes.part (by decide) (woven_join (.of_inked ha.block) ha.args)
  have hjoin : Bytes.join ", " (a.attributes :: a.block :: a.args) =
      a.attributes ++ (Bytes.ofString ", " ++ Bytes.join ", " (a.block :: a.args)) := by
    rw [Bytes.join, List.intercalate_cons_cons, List.append_assoc]
    rfl
  have hcall := Woven.enclosed (by decide : Bytes.Framed (Bytes.ofString "<?php " ++ Bytes.ofString "\x7d)(")) hargs
    (by decide : Bytes.Framed (Bytes.ofString ");" ++ Bytes.ofString " ?>"))
  have hphp : Inked P U [] (Bytes.ofString "<?php ") := .own (by decide)
  have hall := hphp.append (ha.setup.append (hopen.append (hbody.append hcall)))
  rw [hjoin]
  simpa only [List.append_assoc, List.nil_append] using hall

theorem write_mints {scope : Scope} (hscope : scope.Each discreet.Holds) (id : NodeId) (site : Site) {call : Call}
    (hcall : call.Each discreet.Holds (Literal.Discreet P)) {children : List Element}
    (hchildren : ∀ e ∈ children, e.Discreet P) :
    Mints (Progress.Discreet P) (Settled P) (write env render scope id site call children) := by
  rw [write]
  cases hfind : Element.findMixin? env.mixins call.name with
  | none => exact .throw _
  | some d =>
    obtain ⟨hmixin, hbody⟩ := h.mixins d (Element.mem_of_findMixin? hfind)
    refine .idle (Rendering.attributesOf_each id hcall.attributes) (Rendering.attributesOf_idle _ _) fun all hall => ?_
    have hb := Binding.each_ofCall (m := d.mixin) hcall.args hall
    dsimp only
    split
    on_goal 1 => refine .idle (Rendering.say_keeps _ _) (Rendering.say_idle _ _) fun _ _ => ?_
    all_goals
      refine .bind (actuals_mints hP h hr hscope id site hcall hchildren d.mixin hb) fun V a ha => ?_
      obtain ⟨hknown, A, B, hperm, ha⟩ := ha
      refine .idle (Rendering.say_keeps _ _) (Rendering.say_idle _ _) fun _ _ => ?_
      refine .bind (hr _ _ (hscope.entering hknown) hbody) fun W body hbody => ?_
      refine .idle (.lift fun inner hok => h.coded.nested hok) (.lift _) fun inner hinner => .lift fun text hok => ?_
      rw [h.coded.handle hok, hinner, List.append_nil]
      exact (invocation_inked hP h hmixin (ha _ (List.subset_append_left V W))
        (Inked.mono hbody (List.subset_append_right V W))).perm (perm_between hperm)

end Children

end Expansion

theorem Scope.evaluate_of_scalar? {scope : Scope} {source : Bytes} {v : Value} (hv : scope.scalar? source = some v) :
    Literal.evaluate source = some v := by
  obtain ⟨hconstant, hscalar⟩ := Option.filter_eq_some_iff.mp hv
  rw [Scope.constant?] at hconstant
  split at hconstant
  · obtain ⟨es, -, rfl⟩ := Option.map_eq_some_iff.mp hconstant
    cases hscalar
  · exact hconstant

namespace Render

section Tags

include h

theorem indentation_settled (hP : Bytes.Aloof P) (scope : Scope) (breaks : Bool) :
    Settled P [] (if breaks then env.indentation scope else []) := by
  split
  · have hbreak : Settled P [] [Ascii.newline] := Inked.own (by decide)
    refine hbreak.append (Inked.user (hP.flatten fun unit hunit => ?_))
    rw [List.eq_of_mem_replicate hunit]
    exact h.indent
  · exact .nil

omit h in
theorem tag_settled {V : List Temporary} {name attributes close : Bytes} (hname : discreet.Holds name)
    (hattributes : Joins P V attributes) (hclose : close.Framed) :
    Settled P V (Ascii.less :: (name ++ attributes ++ close)) := by
  have hrest := hattributes (List.Subset.refl V) (.of_framed hclose)
  have hall := hrest.front (by decide : Bytes.Framed [Ascii.less]) hname
  rw [List.append_nil, ← List.append_assoc name] at hall
  exact hall.inked

theorem doctype_settled {site : Site} {value : Bytes} (hvalue : discreet.Holds value) {text : Bytes}
    (hok : doctype env site value = .ok text) : Settled P [] text := by
  have hfixed : ∀ d ∈ Dialect.doctypes, Bytes.Framed d.2 := by decide +kernel
  rcases doctype_eq_ok h.coded hok with rfl | ⟨d, hd, rfl⟩ | rfl
  · exact .nil
  · exact Inked.own (hfixed d hd)
  · have hnamed : Bytes.Framed (Bytes.ofString "<!DOCTYPE " ++ (value ++ Bytes.ofString ">")) :=
      .around (by decide) hvalue (by decide)
    exact Inked.own hnamed

theorem tagName_discreet (hP : Bytes.Aloof P) {site : Site} {t : Tag} (ht : t.Each discreet.Holds (Literal.Discreet P)) {name : Bytes}
    (hok : tagName env site t = .ok name) : discreet.Holds name := Attributes.named_discreet hP h ht.name ht.nameExpr hok

end Tags

omit hP h in
theorem mark_mints (env : Environment) (origin : Option Origin) :
    Mints (Progress.Discreet P) (Settled P) (Rendering.mark env origin) := by
  refine (Mints.of_keeps (Rendering.mark_keeps env origin) (Rendering.mark_idle env origin)).mono fun V t ⟨hV, ht⟩ => ?_
  subst hV
  rcases ht with rfl | ⟨id, rfl⟩
  · exact .nil
  · exact .mark id

omit hP h in
theorem marked_mints {text : Rendering Bytes} (ht : Mints (Progress.Discreet P) (Settled P) text) (origin : Option Origin) :
    Mints (Progress.Discreet P) (Settled P) (marked env origin text) := by
  refine .bind ht fun V text htext => .bind (mark_mints env origin) fun W mark hmark => .pure ?_
  rw [List.append_nil]
  exact Settled.perm (Settled.append hmark htext) List.perm_append_comm

section Children

variable {render : Expansion.Render} (hr : ∀ scope es, scope.Each discreet.Holds → (∀ e ∈ es, Element.Discreet P e) →
  Mints (Progress.Discreet P) (Settled P) (render scope es))

include hr

omit hP h in
theorem inner_mints {scope : Scope} (hscope : scope.Each discreet.Holds) {children : List Element}
    (hchildren : ∀ e ∈ children, e.Discreet P) :
    Mints (Progress.Discreet P) (fun V r => Settled P V r.1) (inner render scope children) := by
  have hseen {seen : Bool} : Idle (modify fun p => { p with blockSeen := seen }) := .modify (fun _ => rfl) fun _ => rfl
  unfold inner
  refine .get fun p _ => .idle (.modify fun _ hp => hp) hseen fun _ _ => ?_
  refine .bind (hr scope children hscope hchildren) fun V text htext => ?_
  refine .get fun q _ => .idle (.modify fun _ hp => hp) hseen fun _ _ => .pure ?_
  rwa [List.append_nil]

include hP h

theorem pair_mints {scope : Scope} (hscope : scope.Each discreet.Holds) (site : Site) {name attributes : Bytes}
    {V : List Temporary} (hname : discreet.Holds name) (hattributes : Joins P V attributes) (block : Bool)
    {children : List Element} (hchildren : ∀ e ∈ children, e.Discreet P) :
    Mints (Progress.Discreet P) (fun W text => Settled P (V ++ W) text)
      (pair env render scope site name attributes block children) := by
  rw [pair]
  refine .idle (.lift fun opening hok => h.bracketed.opening hok) (.lift _) fun opening hopening => ?_
  refine .idle (.lift fun closing hok => h.bracketed.closing hok) (.lift _) fun closing hclosing => ?_
  have hinner : (if block then scope.indented else scope).Each discreet.Holds := by
    split <;> exact hscope
  refine .bind (inner_mints hr hinner hchildren) fun W r htext => .pure ?_
  have htag : Settled P V opening := by
    rw [hopening]
    exact tag_settled hname hattributes (by decide)
  have hend : Settled P [] closing := by
    have hclose : Bytes.Framed (Bytes.ofString "</" ++ (name ++ [Ascii.greater])) := .around (by decide) hname (by decide)
    rw [hclosing]
    exact Inked.own hclose
  have hline := indentation_settled h hP scope (env.settings.pretty && block && r.2)
  have hall := ((htag.append htext).append hline).append hend
  rw [List.append_nil, List.append_nil] at hall
  rw [List.append_nil]
  exact hall

theorem markup_mints {scope : Scope} (hscope : scope.Each discreet.Holds) (id : NodeId) (origin : Option Origin) (site : Site)
    {t : Tag} (ht : t.Each discreet.Holds (Literal.Discreet P)) {children : List Element}
    (hchildren : ∀ e ∈ children, e.Discreet P) :
    Mints (Progress.Discreet P) (Settled P) (markup env render scope id origin site t children) := by
  rw [markup]
  refine .idle (.lift fun name hok => tagName_discreet h hP ht hok) (.lift _) fun name hname => ?_
  dsimp only
  split
  next => exact .throw _
  next =>
    refine .bind (Attributes.write_mints hP h hscope id site ht.attributes ht.assignments) fun V attributes hattributes => ?_
    refine .bind (mark_mints env origin) fun M mark hmark => ?_
    have hline := indentation_settled h hP scope (env.settings.pretty && env.dialect.startsLine t)
    have hfinish {lineBreak text : Bytes} {W : List Temporary} (hline : Settled P [] lineBreak)
        (htext : Settled P (V ++ W) text) : Mints (Progress.Discreet P) (fun X text => Settled P (V ++ (M ++ (W ++ X))) text) (do
          if env.dialect.startsLine t then modify fun p => { p with blockSeen := true }
          return lineBreak ++ mark ++ text) := by
      have hall : Settled P (V ++ (M ++ (W ++ []))) (lineBreak ++ mark ++ text) := by
        refine Settled.perm ((hline.append hmark).append htext) ?_
        rw [List.nil_append, List.append_nil, ← List.append_assoc, ← List.append_assoc]
        exact List.perm_append_comm.append_right W
      split
      · exact .idle (.modify fun _ hp => hp) (.modify (fun _ => rfl) fun _ => rfl) fun _ _ => .pure hall
      · exact .pure hall
    split
    · refine .idle (.lift fun text hok => h.bracketed.lone hok) (.lift _) fun text htext => ?_
      have hslash : Bytes.Framed ((if env.dialect.slashes then [Ascii.space, Ascii.slash] else []) ++ [Ascii.greater]) := by
        split <;> decide
      refine hfinish (W := []) hline ?_
      rw [htext, List.append_nil, List.append_assoc]
      exact tag_settled hname hattributes hslash
    · refine .bind (pair_mints hP h hr hscope site hname hattributes _ hchildren) fun W text htext => ?_
      exact hfinish hline htext

theorem code_mints {scope : Scope} (hscope : scope.Each discreet.Holds) (site : Site) {source : Bytes}
    (hsource : discreet.Holds source) {children : List Element} (hchildren : ∀ e ∈ children, e.Discreet P) :
    Mints (Progress.Discreet P) (Settled P) (code env render scope site source children) := by
  rw [code]
  refine .idle (.lift fun _ => (h.weaves hP).code hsource) (.lift _) fun code hcode => ?_
  split
  next => exact .lift fun text hok => Inked.own (h.handled hcode hok)
  next =>
    refine .bind (hr scope children hscope hchildren) fun V body hbody => ?_
    split
    · refine .idle (.lift fun inner hok => h.coded.nested hok) (.lift _) fun inner hinner => ?_
      refine .idle (.lift fun block hok => h.coded.block hok) (.lift _) fun block hblock => .lift fun text hok => ?_
      have hopen : Settled P [] (Bytes.ofString "<?php " ++ (code ++ (Bytes.ofString " \x7b" ++ Bytes.ofString " ?>"))) :=
        Inked.own (.around (by decide) hcode (by decide))
      have hclose : Settled P [] (Bytes.ofString "<?php " ++ (Bytes.ofString "\x7d" ++ Bytes.ofString " ?>")) :=
        Inked.own (by decide)
      have hall := (hopen.append hbody).append hclose
      rw [List.nil_append] at hall
      rw [h.coded.handle hok, hblock, hinner]
      simpa only [List.append_assoc] using hall
    · refine .idle (.lift fun text hok => h.handled hcode hok) (.lift _) fun text htext => .pure ?_
      have hall : Settled P ([] ++ V) (text ++ body) := Settled.append (Inked.own htext) hbody
      rwa [List.nil_append, ← List.append_nil V] at hall

theorem content_mints {scope : Scope} (hscope : scope.Each discreet.Holds) {e : Element} (he : e.Discreet P) :
    Mints (Progress.Discreet P) (Settled P) (content env render scope e) := by
  obtain ⟨he, hshows⟩ := he
  obtain @⟨id, origin, content, children, hcontent, heach⟩ := he
  obtain @⟨_, _, _, _, htext, hshown⟩ := hshows
  have hchildren : ∀ e ∈ children, Element.Discreet P e := fun e he => ⟨heach e he, hshown e he⟩
  cases content with
  | markup t => exact markup_mints hP h hr hscope id origin _ hcontent hchildren
  | mixin m => exact .pure .nil
  | document => exact marked_mints (hr scope children hscope hchildren) origin
  | doctype value => exact marked_mints (.lift fun text hok => doctype_settled h hcontent hok) origin
  | text t => exact marked_mints (.pure (.user (hP.escaped _ (htext t rfl)))) origin
  | code source => exact marked_mints (code_mints hP h hr hscope _ hcontent hchildren) origin
  | expression s =>
    refine marked_mints (.lift fun text hok => ?_) origin
    rw [expression] at hok
    split at hok
    next v hv =>
      cases hok
      exact .user (hP.escaped _ (hP.text (hcontent.value v (Scope.evaluate_of_scalar? hv))))
    next =>
      obtain ⟨code, hcode, hok⟩ := bind_eq_ok hok
      exact .own (h.displayed ((h.weaves hP).snippet hcontent hcode) hok)
  | binding name value =>
    refine marked_mints (.lift fun text hok => ?_) origin
    cases value with
    | none => cases hok
    | some s =>
      obtain ⟨code, hcode, hok⟩ := bind_eq_ok hok
      exact .own (h.handled (hcontent.1.part (by decide) ((h.weaves hP).snippet (hcontent.2 s rfl) hcode)) hok)
  | call call => exact marked_mints (Expansion.write_mints hP h hr hscope id _ hcontent hchildren) origin
  | block =>
    refine marked_mints (.lift fun text hok => ?_) origin
    rw [block] at hok
    split at hok
    · cases hok
      exact .nil
    · exact .own (h.handled (Texture.Plain.holds (by decide)) hok)
  | stray kind => exact .throw _

end Children

omit hP h in
theorem listFrom_mints {one : Element → Rendering Bytes} {es : List Element}
    (ho : ∀ e ∈ es, Mints (Progress.Discreet P) (Settled P) (one e)) (before : Option Forest.Text) :
    Mints (Progress.Discreet P) (Settled P) (listFrom one before es) := by
  induction es generalizing before with
  | nil => exact .pure .nil
  | cons e es ih =>
    obtain ⟨he, hes⟩ := List.forall_mem_cons.mp ho
    have hseparator : Settled P [] (separator before (text? e)) := by
      unfold separator
      split
      · split
        · exact .own (by decide)
        · exact .nil
      · exact .nil
    rw [listFrom]
    refine .bind he fun V first hfirst => .bind (ih hes _) fun W rest hrest => .pure ?_
    rw [List.append_nil]
    exact (hseparator.append hfirst).append hrest

include hP h

/-- The temporaries in the text of a node are those drawn for it, each assigned once. -/
theorem node_mints (budget : Nat) {scope : Scope} (hscope : scope.Each discreet.Holds) {e : Element} (he : e.Discreet P) :
    Mints (Progress.Discreet P) (Settled P) (node env budget scope e) := by
  induction budget generalizing scope e with
  | zero => exact .throw _
  | succ budget ih =>
    rw [node]
    refine content_mints hP h (fun scope es hscope hes => ?_) hscope he
    exact listFrom_mints (fun e he => ih hscope (hes e he)) none

end Render

end Writing

namespace Page

theorem framed_trace (debug : Bool) (fragments : Array Origin) (id : Int) :
    trace debug fragments id = [] ∨ (trace debug fragments id).Framed := by
  rw [trace]
  split
  · have hnumber : discreet.Holds (Bytes.ofString "$__pug_debug_id = " ++ Bytes.ofInt id) :=
      .lead (by decide) (holds_of_isFigure (Bytes.figure_ofInt id))
    exact .inr (.around (by decide) (hnumber.trail (by decide)) (by decide))
  · exact .inl rfl

/-- The line break at the start of a page is no part of a name. -/
theorem places_dropLeadingBreak {paint : Int → Bytes} (hpaint : ∀ id, paint id = [] ∨ (paint id).Framed) (v : Temporary)
    (ss : List Segment) (t : Bytes) :
    v.places (painted paint (dropLeadingBreak ss) ++ t) = v.places (painted paint ss ++ t) := by
  induction ss with
  | nil => rfl
  | cons segment ss ih =>
    cases segment with
    | byte c =>
      rw [dropLeadingBreak]
      split
      next hbreak =>
        rw [eq_of_beq hbreak]
        exact (Temporary.places_framed (by decide : Bytes.Framed [Ascii.newline]) _).symm
      next => rfl
    | fragment id =>
      have hleft (ss : List Segment) : painted paint (.fragment id :: ss) = paint id ++ painted paint ss := rfl
      rw [dropLeadingBreak, hleft, hleft, List.append_assoc, List.append_assoc]
      rcases hpaint id with hempty | hframed
      · rw [hempty]
        exact ih
      · rw [Temporary.places_framed hframed, Temporary.places_framed hframed, ih]

end Page

namespace Render

variable {P : Bytes → Prop} (hP : Bytes.Aloof P) {env : Environment} (h : env.Discreet P)

include hP h

/-- What is put on a page around a rendered text assigns no temporary and uses none. -/
theorem page_places {V : List Temporary} (hV : V.Nodup) {rendered : Bytes} (hrendered : Settled P V rendered) (site : Site) :
    Keeps (Progress.Discreet P) (fun page => ∀ v : Temporary, v.places page.text = [] ∨ (v.places page.text).count true = 1)
      (page env site rendered) := by
  have hbody {fragments : Array Origin} {p q : Page} {last : Bytes} (hlast : last = [] ∨ last.Framed) (v : Temporary)
      (hp : ∀ t, v.places (p.text ++ t) = v.places t) (hok : Page.body env site fragments p rendered = .ok q) :
      v.places (q.text ++ last) = [] ∨ (v.places (q.text ++ last)).count true = 1 := by
    have hpaint := Page.framed_trace env.settings.debug fragments
    have hplaces := hrendered.places hP hV hpaint hlast v
    have hkept : v.places (q.text ++ last) = v.places (Page.painted (Page.trace env.settings.debug fragments)
        (Page.segments rendered) ++ last) := by
      rw [Page.foldlM_step_painted h.coded hok, List.append_assoc, hp]
      split
      · exact Page.places_dropLeadingBreak hpaint v _ _
      · rfl
    rwa [hkept]
  rw [page]
  refine .get fun p _ => ?_
  split
  · refine .bind (.lift fun opening hok => h.coded.handle hok) fun opening hopening => ?_
    refine .bind (.lift fun page hok => hok) fun page hpage => ?_
    refine .bind (Rendering.require_keeps env _ _) fun rethrow hrethrow => ?_
    refine .bind (.lift fun closing hok => h.coded.handle hok) fun closing hclosing => .pure fun v => ?_
    have haccessor := h.settings.accessor "debug_rethrow" (Texture.Plain.holds (by decide))
    have hcatch : discreet.Holds (Bytes.ofString "\x7d catch (\\Throwable $__pug_error) \x7b " ++
        env.settings.storage.accessor "debug_rethrow") := .lead (by decide) haccessor
    have htry : opening.Framed := by
      rw [hopening]
      exact .around (by decide) (Texture.Plain.holds (by decide) : discreet.Holds _) (by decide)
    have hend : closing.Framed := by
      rw [hclosing, hrethrow]
      exact .around (by decide) (hcatch.trail (by decide)) (by decide)
    rw [Page.text_write]
    refine hbody (.inr hend) v (fun t => ?_) hpage
    rw [Page.text_write]
    exact Temporary.places_framed htry t
  · refine .lift fun page hok v => ?_
    have hplaces := hbody (.inl rfl) v (fun _ => rfl) hok
    rwa [List.append_nil] at hplaces

end Render

namespace Session

/-- In a built-in dialect and without patterns of the settings, each temporary that stands on the page of a tree is assigned
there at one place, where the tree and the settings mention none and no two texts make the name of one where they meet. -/
theorem format_fresh {P : Bytes → Prop} (hP : Bytes.Aloof P) {s after : Session} {forest forest' : Forest} {root : NodeId}
    {selector : Selector} {e : Element} {d : Dialect} {text : Bytes} (he : forest.element root = e)
    (heach : e.Each Bytes.Discreet (Literal.Discreet P)) (hshows : e.Shows P) (hselect : (s.select e selector).2 = .ok d)
    (hstandard : s.Standard d) (hsettings : s.settings.Each Bytes.Discreet (Literal.Discreet P)) (hindent : P s.settings.indent)
    (hformat : s.format forest (some root) selector = (after, forest', .ok text)) (v : Temporary) :
    v.places text = [] ∨ (v.places text).count true = 1 := by
  subst he
  obtain ⟨l, fallback, page, q, hfallback, hrun, rfl⟩ := finished_of_format hselect hformat
  obtain rfl := hstandard.fallback_eq hfallback
  obtain ⟨rendered, r, htree, hpage⟩ := Rendering.bind_run_ok hrun
  have henv : (s.environment (forest.element root) d "''").Discreet P := by
    refine ⟨hstandard.bracketed _ _, hstandard.coded _, hsettings, hindent, fun declaration hd => ?_⟩
    obtain ⟨hmixin, hbody⟩ := heach.declarations declaration hd
    exact ⟨hmixin, fun e he => ⟨hbody e he, hshows.declarations declaration hd e he⟩⟩
  have hstart : Progress.Discreet P { ledger := l, nextNode := forest.size } := List.forall_mem_nil _
  obtain ⟨hkept, V, hdrawn, hsettled⟩ := Render.node_mints hP henv _ Scope.each_outermost ⟨heach, hshows⟩ hstart htree
  exact (Render.page_places hP henv hdrawn.nodup hsettled _ hkept hpage).2 v

def Unscored (s : Bytes) : Prop := s.NullFree ∧ Ascii.underscore ∉ s

theorem unscored_of_isFigure {s : Bytes} (h : ∀ c ∈ s, Ascii.isFigure c) : Unscored s :=
  ⟨fun hmem => absurd (h _ hmem) (by decide), fun hmem => absurd (h _ hmem) (by decide)⟩

theorem aloof_unscored : Bytes.Aloof Unscored where
  append hs ht := ⟨Bytes.nullFree_append.mpr ⟨hs.1, ht.1⟩, fun hmem => (List.mem_append.mp hmem).elim hs.2 ht.2⟩
  escape {s} hs := by
    refine ⟨Entity.nullFree_escape hs.1, fun hmem => ?_⟩
    obtain ⟨c, hc, hmem⟩ := List.mem_flatMap.mp hmem
    unfold Entity.encode at hmem
    split_ifs at hmem
    case neg => exact hs.2 (List.mem_singleton.mp hmem ▸ hc)
    all_goals exact absurd hmem (by decide)
  constant {v} hv := by
    cases v with
    | null => exact unscored_of_isFigure nofun
    | bool b => cases b <;> exact unscored_of_isFigure (List.all_eq_true.mp (by decide))
    | int n => exact unscored_of_isFigure (Bytes.figure_ofInt _)
    | float x => exact unscored_of_isFigure (Decimal.figure_write (by decide) x)
    | string s => exact absurd rfl (hv s)
    | array es => exact unscored_of_isFigure (List.all_eq_true.mp (by decide : (Bytes.ofString "Array").all Ascii.isFigure))
  discreet {s} hs := by
    refine ⟨hs.1, Texture.mentions_eq_false_iff.mpr fun stem hstem hwithin => hs.2 (hwithin.subset ?_)⟩
    have hscore : ∀ stem ∈ Texture.stems, Ascii.underscore ∈ stem := by decide
    exact hscore stem hstem

/-- A mixin that merges its arguments into its attributes and has a tag with a computed attribute, called twice: with arguments
that are counted at run time, and a block with another such tag, and without arguments. -/
def roster : Forest :=
  ⟨#[{ content := .document, children := [1, 6, 11] },
     { content := .mixin { name := "row", variadic := some "attributes" }, parent := some 0, children := [2, 5] },
     { content := .markup { name := "hr", bundle := ⟨[3], []⟩ }, parent := some 1 },
     { content := .attr { nameExpr := some 4 }, parent := some 2 },
     { content := .expression { source := "$side", checked := false }, parent := some 3 },
     { content := .block, parent := some 1 },
     { content := .call { name := "row", args := [⟨true, 7⟩] }, parent := some 0, children := [8] },
     { content := .expression { source := "$all_rest" }, parent := some 6 },
     { content := .markup { name := "br", bundle := ⟨[9], []⟩ }, parent := some 6 },
     { content := .attr { nameExpr := some 10 }, parent := some 8 },
     { content := .expression { source := "$side", checked := false }, parent := some 9 },
     { content := .call { name := "row" }, parent := some 0, children := [12] },
     { content := .text { value := "x" }, parent := some 11 }]⟩

theorem roster_discreet : (roster.element 0).Each Bytes.Discreet (Literal.Discreet Unscored) := by
  have hcode {src : Bytes} (hsrc : src.Discreet) (hnone : Literal.evaluate src = none) : Literal.Discreet Unscored src :=
    ⟨hsrc, fun v hv => by rw [hnone] at hv; cases hv⟩
  have hside : Literal.Discreet Unscored "$side" := hcode (by decide) (by decide +kernel)
  have hrest : Literal.Discreet Unscored "$all_rest" := hcode (by decide) (by decide +kernel)
  refine Forest.element_each (fun id n hn => ?_) 0
  have hid : id < 13 := (Array.getElem?_eq_some_iff.mp hn).1
  interval_cases id <;> cases hn
  · trivial
  · exact ⟨by decide, List.forall_mem_nil _, fun v hv => by cases hv; decide⟩
  · refine ⟨by decide, fun _ h => (by cases h), List.forall_mem_singleton.mpr ?_, List.forall_mem_nil _⟩
    exact ⟨by decide, fun s hs => by cases hs; exact hside, trivial⟩
  · trivial
  · exact hside
  · trivial
  · exact ⟨by decide, List.forall_mem_singleton.mpr hrest, List.forall_mem_nil _, List.forall_mem_nil _⟩
  · exact hrest
  · refine ⟨by decide, fun _ h => (by cases h), List.forall_mem_singleton.mpr ?_, List.forall_mem_nil _⟩
    exact ⟨by decide, fun s hs => by cases hs; exact hside, trivial⟩
  · trivial
  · exact hside
  · exact ⟨by decide, List.forall_mem_nil _, List.forall_mem_nil _, List.forall_mem_nil _⟩
  · exact (by decide : Bytes.Discreet "x")

theorem roster_shows : (roster.element 0).Shows Unscored := by
  refine Forest.element_shows (fun id n hn t ht => ?_) 0
  have hid : id < 13 := (Array.getElem?_eq_some_iff.mp hn).1
  interval_cases id <;> cases hn <;> cases ht
  exact unscored_of_isFigure (List.all_eq_true.mp (by decide))

theorem roster_fresh :
    let s : Session := { settings := {} }
    Bytes.Aloof Unscored ∧ (roster.element 0).Each Bytes.Discreet (Literal.Discreet Unscored) ∧
      (roster.element 0).Shows Unscored ∧ ∃ text, (s.format roster (some 0) (.named "html")).2.2 = .ok text ∧
        Temporary.places ⟨.key, 2⟩ text = [true, false] ∧ Temporary.places ⟨.args, 1⟩ text = [true, false, false] ∧
        ∀ v : Temporary, v.places text = [] ∨ (v.places text).count true = 1 := by
  intro s
  have hplaces : (s.format roster (some 0) (.named "html")).2.2.toOption.map (fun text =>
      (Temporary.places ⟨.key, 2⟩ text, Temporary.places ⟨.args, 1⟩ text)) = some ([true, false], [true, false, false]) := by
    decide +kernel
  obtain ⟨text, htext, hplaces⟩ := Option.map_eq_some_iff.mp hplaces
  obtain ⟨hkey, hargs⟩ := Prod.mk.inj hplaces
  have hok := ok_of_toOption htext
  have hbare : s.settings.Bare := { Settings.bare_default with }
  have hindent : Unscored s.settings.indent := ⟨by decide, by decide⟩
  have hsettings : s.settings.Each Bytes.Discreet (Literal.Discreet Unscored) :=
    hbare.each_holds (T := discreet) (aloof_unscored.discreet hindent) (by decide : Bytes.Discreet s.settings.storage.name)
  have hstandard : s.Standard Dialect.html := ⟨rfl, rfl, by decide +kernel⟩
  refine ⟨aloof_unscored, roster_discreet, roster_shows, text, hok, hkey, hargs, fun v => ?_⟩
  exact format_fresh aloof_unscored rfl roster_discreet roster_shows rfl hstandard hsettings hindent
    (Prod.ext rfl (Prod.ext rfl hok)) v

/-- Code in which the mark of a fragment hides the name of a temporary, beside a tag with a computed attribute. -/
def stowaway : Forest :=
  ⟨#[{ content := .document, children := [1, 2] },
     { content := .code "$__p\x001\x01ug_key_0 = 5;", parent := some 0 },
     { content := .markup { name := "input", bundle := ⟨[3], []⟩ }, parent := some 0 },
     { content := .attr { nameExpr := some 4 }, parent := some 2 },
     { content := .expression { source := "$k", checked := false }, parent := some 3 }]⟩

/-- The text holds no name that generated code has for itself. -/
def Unnamed (s : Bytes) : Prop := ¬ Bytes.ofString "__pug_" <:+: s

theorem stowaway_unnamed : (stowaway.element 0).Each Unnamed Unnamed := by
  have hplain : ∀ s ∈ (["", "$__p\x001\x01ug_key_0 = 5;", "input", "$k"] : List Bytes), Unnamed s := by
    unfold Unnamed
    decide +kernel
  simp only [List.forall_mem_cons] at hplain
  obtain ⟨hempty, hcode, hinput, hsource, -⟩ := hplain
  refine Forest.element_each (fun id n hn => ?_) 0
  have hid : id < 5 := (Array.getElem?_eq_some_iff.mp hn).1
  interval_cases id <;> cases hn
  · trivial
  · exact hcode
  · refine ⟨hinput, fun _ h => (by cases h), List.forall_mem_singleton.mpr ?_, List.forall_mem_nil _⟩
    exact ⟨hempty, fun s hs => by cases hs; exact hsource, trivial⟩
  · trivial
  · exact hsource

/-- It does not suffice that the tree mentions no temporary: what is taken for a mark in its code is taken out, and the bytes
around it may then be the name of one. -/
theorem stowaway_not_fresh : ¬ ∀ (s after : Session) (forest forest' : Forest) (root : NodeId) (selector : Selector)
    (e : Element) (d : Dialect) (text : Bytes), forest.element root = e → e.Each Unnamed Unnamed →
    (s.select e selector).2 = .ok d → s.Standard d → s.settings.Bare →
    s.format forest (some root) selector = (after, forest', .ok text) →
    ∀ v : Temporary, v.places text = [] ∨ (v.places text).count true = 1 := by
  intro h
  have hbare : Settings.Bare {} := { Settings.bare_default with }
  have hstandard : Standard { settings := {} } Dialect.html := ⟨rfl, rfl, by decide +kernel⟩
  have hplaces : (format { settings := {} } stowaway (some 0) (.named "html")).2.2.toOption.map
      (Temporary.places ⟨.key, 0⟩) = some [true, true, false] := by decide +kernel
  revert hplaces
  generalize hpage : format { settings := {} } stowaway (some 0) (.named "html") = page
  intro hplaces
  obtain ⟨text, htext, htwice⟩ := Option.map_eq_some_iff.mp hplaces
  have hfresh := h { settings := {} } page.1 stowaway page.2.1 0 (.named "html") _ Dialect.html text rfl stowaway_unnamed rfl
    hstandard hbare (hpage.trans (Prod.ext rfl (Prod.ext rfl (ok_of_toOption htext)))) ⟨.key, 0⟩
  rw [htwice] at hfresh
  exact absurd hfresh (by decide)

end Session

end Stencil
