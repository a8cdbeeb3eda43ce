import Stencil.Proofs.Compile.Modes
import Stencil.Proofs.Compile.Outline
import Stencil.Proofs.Compile.Weaving
import Stencil.Proofs.Literal.Denotation

/-! Code and markup take turns on a page. Where no text of a tree holds a bracket of code, every piece of code that is
written is opened in markup and closed again, with the markup inside it between a closing and an opening of its own. -/

namespace Stencil

open Page (Turns Reads Whole painted segments)
open Texture (tagless)

/-- Code is written as in the built-in dialects. -/
structure Environment.Coded (env : Environment) : Prop where
  handle : ∀ {site : Site} {x t : Bytes}, env.pattern site "php_handle_code" [x] = .ok t → t = "<?php " ++ (x ++ " ?>")
  display : ∀ {site : Site} {x t : Bytes}, env.pattern site "php_display_code" [x] = .ok t → t = "<?= " ++ (x ++ " ?>")
  escaped : ∀ {site : Site} {x t : Bytes}, env.pattern site "php_display_escaped" [x] = .ok t →
    t = "<?= htmlspecialchars(" ++ (x ++ ") ?>")
  nested : ∀ {site : Site} {x t : Bytes}, env.pattern site "php_nested_html" [x] = .ok t → t = " ?>" ++ (x ++ "<?php ")
  block : ∀ {site : Site} {x t : Bytes}, env.pattern site "php_block_code" [x] = .ok t → t = " \x7b" ++ (x ++ "\x7d")
  doctype : ∀ {site : Site} {t : Bytes}, env.pattern site "doctype" [] = .ok t → t = [] ∨ t ∈ Dialect.doctypes.map (·.2)
  checked : ∀ {ref t : Bytes}, Pattern.text env.patterns "checked_variable" [ref, env.fallback] = .ok t →
    t = "(isset(" ++ ref ++ ") ? " ++ ref ++ " : '')"
  tokens : env.dialect.tokenTemplates = []

theorem Session.Standard.coded {s : Session} {d : Dialect} (h : s.Standard d) (e : Element) :
    (s.environment e d "''").Coded where
  handle hok := by
    have htemplate : Dialect.Constant "php_handle_code" "<?php %s ?>" := by decide
    rw [h.render_eq (by decide) (by decide) (h.constant htemplate) (mapError_eq_ok hok)]
    rfl
  display hok := by
    have htemplate : Dialect.Constant "php_display_code" "<?= %s ?>" := by decide
    rw [h.render_eq (by decide) (by decide) (h.constant htemplate) (mapError_eq_ok hok)]
    rfl
  escaped hok := by
    have hinputs : List.Forall₂ Session.Input ["php_display_code", "html_expression_escape"]
        ["<?= %s ?>", "htmlspecialchars(%s)"] :=
      .cons ⟨by decide, by decide, by decide⟩ (.cons ⟨by decide, by decide, by decide⟩ .nil)
    rw [h.producer_eq (List.mem_cons_of_mem _ List.mem_cons_self) hinputs (mapError_eq_ok hok)]
    change Bytes.ofString "<?= " ++ (Bytes.ofString "htmlspecialchars(" ++ (_ ++ Bytes.ofString ")") ++ " ?>") = _
    simp only [List.append_assoc]
    rfl
  nested hok := by
    have htemplate : Dialect.Constant "php_nested_html" " ?>%s<?php " := by decide
    rw [h.render_eq (by decide) (by decide) (h.constant htemplate) (mapError_eq_ok hok)]
    rfl
  block hok := by
    have htemplate : Dialect.Constant "php_block_code" " \x7b%s\x7d" := by decide
    rw [h.render_eq (by decide) (by decide) (h.constant htemplate) (mapError_eq_ok hok)]
    rfl
  doctype hok := by
    have htemplate : ∀ d ∈ Dialect.builtin, ∀ e ∈ d.patterns, e.1 = "doctype" →
        e.2 = (d.patterns.get? "doctype").getD [] := by decide +kernel
    have hfixed : ∀ d ∈ Dialect.builtin, Template.format ((d.patterns.get? "doctype").getD []) [] = [] ∨
        Template.format ((d.patterns.get? "doctype").getD []) [] ∈ Dialect.doctypes.map (·.2) := by decide +kernel
    rw [h.render_eq (by decide) (by decide) (htemplate d h.dialect) (mapError_eq_ok hok)]
    exact hfixed d h.dialect
  checked hok := by
    have hinputs : List.Forall₂ Session.Input ["test_value"] ["isset(%s)"] := .cons ⟨by decide, by decide, by decide⟩ .nil
    rw [h.producer_eq List.mem_cons_self hinputs hok]
    change "(" ++ (Bytes.ofString "isset(" ++ (_ ++ Bytes.ofString ")")) ++ " ? " ++ _ ++ " : " ++ "''" ++ ")" = _
    simp only [List.append_assoc]
    rfl
  tokens := Dialect.tokenTemplates_of_builtin d h.dialect

namespace Environment.Coded

variable {env : Environment} (h : env.Coded) {T : Texture}
include h

omit h in
theorem texts_eq (htokens : env.dialect.tokenTemplates = []) (ts : List Token) :
    Reference.tokenTexts env.handlers ts = ts.flatMap (·.text) := by
  have hhandlers : env.handlers = [] := congrArg (List.map _) htokens
  rw [hhandlers]
  rfl

/-- A guarded reference stands in brackets, so that it makes nothing with its neighbours. -/
theorem pieces {site : Site} {ps : List Reference.Piece} {before : Bytes}
    (hps : T.Holds (before ++ (ps.flatMap (·.tokens)).flatMap (·.text))) {texts : List Bytes}
    (hok : ps.mapM (env.piece site) = .ok texts) : T.Holds (before ++ texts.flatten) := by
  induction ps generalizing before texts with
  | nil =>
    cases hok
    exact hps
  | cons p ps ih =>
    rw [List.mapM_cons] at hok
    obtain ⟨text, htext, hok⟩ := bind_eq_ok hok
    obtain ⟨rest, hrest, hok⟩ := bind_eq_ok hok
    cases hok
    rw [List.flatMap_cons, List.flatMap_append, ← List.append_assoc] at hps
    rw [List.flatten_cons, ← List.append_assoc]
    cases p with
    | plain t =>
      obtain rfl : t.text = text := by
        have hplain := texts_eq h.tokens [t]
        rw [Reference.tokenTexts_singleton, List.flatMap_singleton] at hplain
        exact hplain.symm.trans (Except.ok.inj htext)
      rw [Reference.Piece.tokens, List.flatMap_singleton] at hps
      exact ih hps hrest
    | guarded ts =>
      have hguard := h.checked (mapError_eq_ok htext)
      rw [texts_eq h.tokens] at hguard
      have hboth := hps.excerpt (List.prefix_append _ _).isInfix
      have hbefore : T.Holds before := hboth.excerpt (List.prefix_append _ _).isInfix
      have href : T.Holds (ts.flatMap (·.text)) := hboth.excerpt (List.suffix_append _ _).isInfix
      have hrest : T.Holds ([] ++ rest.flatten) := ih (hps.excerpt (List.suffix_append _ _).isInfix) hrest
      have hopen := hbefore.part (by decide : Texture.Parts "(isset(") href
      have hall := (hopen.part (by decide : Texture.Parts ") ? ") href).part (by decide : Texture.Parts " : '')") hrest
      rw [hguard]
      simpa only [List.append_assoc, List.nil_append] using hall

theorem code {site : Site} {src : Bytes} (hsrc : T.Holds src) {checked : Bool} {text : Bytes}
    (hok : env.code site src checked = .ok text) : T.Holds text := by
  have htokens {ts : List Token} (hts : Token.tokenize src = .ok ts) : ts.flatMap (·.text) = src :=
    (Token.tokenize_covers hts).flatMap_text
  rw [Environment.code] at hok
  split at hok
  · obtain ⟨ps, hplan, hok⟩ := bind_eq_ok hok
    obtain ⟨texts, htexts, hok⟩ := bind_eq_ok hok
    cases hok
    have hcovered : T.Holds ([] ++ (ps.flatMap (·.tokens)).flatMap (·.text)) := by
      rwa [List.nil_append, htokens (Reference.plan_tokens (mapError_eq_ok hplan))]
    exact h.pieces hcovered htexts
  · obtain ⟨ts, hts, hok⟩ := bind_eq_ok (mapError_eq_ok hok)
    cases hok
    rwa [texts_eq h.tokens, htokens hts]

theorem weaves (hsettings : env.settings.Each tagless.Holds Literal.Tagless) : env.Weaves tagless Literal.Tagless where
  source hs := Texture.holds_tagless.mpr hs.source
  value hs _ := hs.each
  code hs hok := h.code hs hok
  storage := hsettings.storage
  accessor hname := hsettings.accessor _ hname

end Environment.Coded

/-- No name of a tag starts with a question mark, which would make an opening of code of the bracket before it. -/
inductive Element.Named : Element → Prop
  | node {id : NodeId} {origin : Option Origin} {content : Element.Content} {children : List Element}
      (hname : ∀ t, content = .markup t → ∀ name ∈ t.staticName, name.head? ≠ some Ascii.question)
      (hchildren : ∀ e ∈ children, Named e) : Named (.node id origin content children)

theorem Element.Named.declarations {e : Element} (h : e.Named) : ∀ d ∈ e.declarations, ∀ b ∈ d.body, b.Named := by
  refine forall_declarations (fun h => ?_) (fun h => ?_) e h
  · cases h with | node _ hchildren => exact hchildren
  · cases h with | node _ hchildren => exact hchildren

theorem Forest.element_named {f : Forest}
    (h : ∀ id n, f.get? id = some n → ∀ t, f.elementContent id n.content = .markup t →
      ∀ name ∈ t.staticName, name.head? ≠ some Ascii.question) (id : NodeId) : (f.element id).Named :=
  forall_element (fun _ => .node nofun (List.forall_mem_nil _)) (fun id n _ hn hc => .node (h id n hn) hc) id

/-- The tree holds no brackets of code, and its tags make none. -/
structure Element.Tagless (e : Element) : Prop where
  each : e.Each tagless.Holds Literal.Tagless
  named : e.Named

structure Environment.Tagless (env : Environment) : Prop where
  bracketed : env.Bracketed
  coded : env.Coded
  settings : env.settings.Each tagless.Holds Literal.Tagless
  mixins : ∀ d ∈ env.mixins, d.mixin.Each tagless.Holds ∧ ∀ e ∈ d.body, e.Tagless

abbrev Attribute.Tagless (a : Attribute) : Prop := a.Each tagless.Holds Literal.Tagless

abbrev Assignment.Tagless (a : Assignment) : Prop := a.Each tagless.Holds Literal.Tagless

abbrev Progress.Tagless : Progress → Prop := Progress.Each tagless.Holds Literal.Tagless

variable {paint : Int → Bytes} {s t : Bytes}

namespace Page

namespace Reads

theorem of_holds (h : tagless.Holds s) : Whole paint s :=
  .of_turns (Texture.holds_tagless.mp h).nullFree (turns_markup (Texture.holds_tagless.mp h).less)

theorem php : Reads paint .markup .code "<?php " := .of_turns (by decide) turns_php

theorem echo : Reads paint .markup .code "<?= " := .of_turns (by decide) turns_display

theorem closing : Reads paint .code .markup " ?>" := .of_turns (by decide) turns_closing

theorem ended (h : tagless.Holds s) : Reads paint .code .markup (s ++ " ?>") :=
  .of_turns (Bytes.nullFree_append.mpr ⟨(Texture.holds_tagless.mp h).nullFree, by decide⟩) (turns_end h)

theorem code (h : tagless.Holds s) (ht : Texture.Parts t) : Reads paint .code .code (s ++ t) := by
  have hboth : tagless.Holds (s ++ t) := h.trail ht.2.2
  refine .of_turns (Texture.holds_tagless.mp hboth).nullFree (turns_code hboth ?_)
  rw [List.getLast?_append_of_ne_nil s ht.1]
  exact fun hlast => (ht.2.1.2 _ hlast).1 rfl

theorem handle (h : Reads paint .code .code s) : Whole paint ("<?php " ++ (s ++ " ?>")) := php.append (h.append closing)

theorem nested (h : Whole paint s) : Reads paint .code .code (" ?>" ++ (s ++ "<?php ")) := closing.append (h.append php)

theorem flatten {m : Mode} {texts : List Bytes} (h : ∀ t ∈ texts, Reads paint m m t) : Reads paint m m texts.flatten :=
  Bytes.flatten_induction (.of_turns Bytes.nullFree_nil turns_nil) .append h

end Reads

/-- Markup that may stand behind the bracket of a tag. -/
structure Inside (paint : Int → Bytes) (s : Bytes) : Prop where
  reads : Whole paint s
  head : (painted paint (segments s)).head? ≠ some Ascii.question

namespace Inside

theorem nil : Inside paint [] := ⟨.of_turns Bytes.nullFree_nil turns_nil, nofun⟩

theorem append (hs : Inside paint s) (ht : Inside paint t) : Inside paint (s ++ t) := by
  refine ⟨hs.reads.append ht.reads, ?_⟩
  rw [hs.reads.closed, painted_append, List.head?_append]
  cases hfirst : (painted paint (segments s)).head? with
  | none => exact ht.head
  | some c => exact fun heq => hs.head (hfirst.trans heq)

theorem of_lead {lead : Bytes} (hlead : lead ≠ [] ∧ lead.NullFree ∧ lead.head? ≠ some Ascii.question)
    (h : Whole paint (lead ++ s)) : Inside paint (lead ++ s) := by
  refine ⟨h, ?_⟩
  rw [closed_of_nullFree hlead.2.1, painted_append, painted_of_nullFree hlead.2.1, List.head?_append_of_ne_nil lead hlead.1]
  exact hlead.2.2

theorem display (h : tagless.Holds s) : Inside paint ("<?= " ++ (s ++ " ?>")) :=
  .of_lead (by decide) (Reads.echo.append (.ended h))

theorem handle (h : tagless.Holds s) : Inside paint ("<?php " ++ (s ++ " ?>")) :=
  .of_lead (by decide) (Reads.php.append (.ended h))

theorem spaced (h : Whole paint s) : Inside paint (Ascii.space :: s) := by
  have hspace : Whole paint [Ascii.space] := .of_holds (Texture.Plain.holds (by decide))
  exact .of_lead (by decide : [Ascii.space] ≠ [] ∧ _) (hspace.append h)

theorem of_holds (h : tagless.Holds s) (hhead : s.head? ≠ some Ascii.question) : Inside paint s := by
  refine ⟨.of_holds h, ?_⟩
  rwa [painted_of_nullFree (Texture.holds_tagless.mp h).nullFree]

theorem tag (h : Inside paint s) : Whole paint (Ascii.less :: (s ++ [Ascii.greater])) := by
  have hend : Inside paint [Ascii.greater] := .of_holds (Texture.Plain.holds (by decide)) (by decide)
  have hfirst : Closed [Ascii.less] := closed_of_nullFree (by decide)
  refine ⟨hfirst.append (h.append hend).reads.closed, ?_⟩
  rw [segments_cons_of_ne (by decide)]
  refine (h.append hend).reads.turns.less ?_ (h.append hend).head
  have hgreater : painted paint (segments [Ascii.greater]) = [Ascii.greater] := painted_of_nullFree (by decide)
  rw [h.reads.closed, painted_append, hgreater]
  exact List.append_ne_nil_of_right_ne_nil _ (by decide)

theorem flatten {texts : List Bytes} (h : ∀ t ∈ texts, Inside paint t) : Inside paint texts.flatten :=
  Bytes.flatten_induction .nil .append h

end Inside

end Page

open Page (Inside)
open Rendering (Keeps)

section Writing

variable {env : Environment} (h : env.Tagless)

namespace Environment.Tagless

include h

theorem weaves : env.Weaves tagless Literal.Tagless := h.coded.weaves h.settings

theorem displayed {site : Site} {escape : Bool} {code : Bytes} (hcode : tagless.Holds code) {text : Bytes}
    (hok : env.display site escape code = .ok text) : Inside paint text := by
  cases escape with
  | false =>
    rw [h.coded.display hok]
    exact .display hcode
  | true =>
    rw [h.coded.escaped hok]
    have hcall : tagless.Holds (Bytes.ofString "htmlspecialchars(" ++ code) := .lead (by decide) hcode
    have hinside : Inside paint ("<?= " ++ ((Bytes.ofString "htmlspecialchars(" ++ code ++ ")") ++ " ?>")) :=
      .display (hcall.trail (by decide))
    simp only [List.append_assoc] at hinside
    exact hinside

end Environment.Tagless

theorem Entity.holds_escaped (escape : Bool) (hs : tagless.Holds s) :
    tagless.Holds (if escape then Entity.escape s else s) := by
  split
  · exact Entity.holds_escape hs
  · exact hs

namespace Attributes

include h

theorem named_inside {site : Site} {name value : Bytes} (hname : Whole paint name)
    (hvalue : Whole paint value) {text : Bytes}
    (hok : env.pattern site "attribute_pattern" [name, value] = .ok text) : Inside paint text := by
  rw [h.bracketed.pair hok]
  refine .spaced (.append (.append (.append hname ?_) hvalue) ?_)
  · exact .of_holds (Texture.Plain.holds (by decide))
  · exact .of_holds (Texture.Plain.holds (by decide))

theorem flag_inside {site : Site} {name : Bytes} (hname : Whole paint name) {text : Bytes}
    (hok : env.pattern site "boolean_attribute_pattern" [name, name] = .ok text) : Inside paint text := by
  rw [h.bracketed.flag hok]
  split
  · refine .spaced (.append (.append (.append hname ?_) hname) ?_)
    · exact .of_holds (Texture.Plain.holds (by decide))
    · exact .of_holds (Texture.Plain.holds (by decide))
  · exact .spaced hname

theorem entries_inside {site : Site} {set : List (Key × Value)} (hset : EachEntry tagless.Holds set) {text : Bytes}
    (hok : entries env site set = .ok text) : Inside paint text := by
  obtain ⟨texts, htexts, hok⟩ := bind_eq_ok hok
  cases hok
  refine .flatten (mapM_forall htexts fun e he text hok => ?_)
  obtain ⟨key, v⟩ := e
  obtain ⟨hkey, hv⟩ := hset _ he
  have hname := hkey.toValue.text
  rcases entry_eq_ok hok with rfl | hok | hok
  · exact .nil
  · exact flag_inside h (.of_holds hname) hok
  · exact named_inside h (.of_holds hname) (.of_holds (Entity.holds_escape hv.text)) hok

theorem merge_inside (site : Site) {cs : List Contribution} (hcs : ∀ c ∈ cs, c.Each tagless.Holds) :
    Keeps Progress.Tagless (Inside paint) (merge env site cs) := by
  rw [merge]
  split
  next set hset => exact .lift fun text hok => entries_inside h (Contribution.each_merged? hcs hset) hok
  next =>
    refine .bind (Rendering.require_keeps env _ _) fun accessor haccessor => .lift fun text hok => ?_
    have hcodes := Texture.Holds.join (by decide : Texture.Parts ", ") (Contribution.holds_codes hcs)
    rw [h.coded.display hok, haccessor]
    exact .display (Expansion.holds_invocation h.weaves (by decide) hcodes)

theorem key_reads {a : Attribute} (ha : a.Tagless) {text : Bytes} (hok : key env a = .ok text) :
    Whole paint text := by
  rw [key] at hok
  split at hok
  next =>
    cases hok
    exact .of_holds ha.name
  next s hs =>
    obtain ⟨code, hcode, hok⟩ := bind_eq_ok hok
    rw [h.coded.display hok]
    exact (Inside.display (h.weaves.snippet (ha.nameExpr s hs) hcode)).reads

theorem pair_inside {a : Attribute} (ha : a.Tagless) {value : Bytes} (hvalue : Whole paint value)
    {text : Bytes} (hok : pair env a value = .ok text) : Inside paint text := by
  obtain ⟨key, hkey, hok⟩ := bind_eq_ok hok
  exact named_inside h (key_reads h ha hkey) hvalue hok

theorem bare_inside {a : Attribute} (ha : a.Tagless) : Keeps Progress.Tagless (Inside paint) (bare env a) := by
  rw [bare]
  split
  next => exact .lift fun text hok => flag_inside h (.of_holds ha.name) hok
  next s hs =>
    refine .bind (.lift fun _ => h.weaves.snippet (ha.nameExpr s hs)) fun code hcode => ?_
    refine .bind Rendering.freshKey_keeps fun temporary htemporary => ?_
    obtain ⟨n, rfl⟩ := htemporary
    have hkey : tagless.Holds (Bytes.ofString "$__pug_key_" ++ Bytes.ofNat n) := Bytewise.holds_numbered (by decide) n
    refine .bind (.lift fun assign hok => h.coded.handle hok) fun assign hassign => ?_
    refine .bind (.lift fun key hok => h.coded.display hok) fun key hdisplay => ?_
    have hname : Whole paint key := by
      rw [hdisplay]
      exact (Inside.display hkey).reads
    refine .bind (.lift fun text hok => flag_inside h hname hok) fun text htext => .pure ?_
    rw [hassign]
    exact (Inside.handle ((hkey.part (by decide) hcode).trail (by decide))).append htext

theorem known_inside {a : Attribute} (ha : a.Tagless) (escape : Bool) {v : Value} (hv : v.Each tagless.Holds) :
    Keeps Progress.Tagless (Inside paint) (known env a escape v) := by
  unfold known
  split
  · exact bare_inside h ha
  · exact .pure .nil
  · exact .pure .nil
  · exact .lift fun text hok => pair_inside h ha (.of_holds (Entity.holds_escaped escape hv.text)) hok

theorem single_inside {scope : Scope} (hscope : scope.Each tagless.Holds) {a : Attribute} (ha : a.Tagless) :
    Keeps Progress.Tagless (Inside paint) (single env scope a) := by
  have hvalue := ha.value
  rw [single]
  split
  next => exact bare_inside h ha
  next value escape heq =>
    rw [heq] at hvalue
    exact .lift fun text hok => pair_inside h ha (.of_holds (Entity.holds_escaped escape hvalue)) hok
  next s heq =>
    rw [heq] at hvalue
    split
    next w _ => exact known_inside h ha s.escape w.each_value
    next =>
      split
      next v hv => exact known_inside h ha s.escape (hscope.scalar? (fun v => hvalue.each) hv)
      next =>
        refine .bind (.lift fun _ => h.weaves.snippet hvalue) fun code hcode => ?_
        have hdisplayed (text : Bytes) (hok : env.display s.site s.escape code = .ok text) : Inside paint text :=
          h.displayed hcode hok
        exact .bind (.lift hdisplayed) fun text htext => .lift fun _ hok => pair_inside h ha htext.reads hok
  next => exact .throw _

theorem write_inside {scope : Scope} (hscope : scope.Each tagless.Holds) (owner : NodeId) (site : Site)
    {attributes : List Attribute} (hattributes : ∀ a ∈ attributes, a.Tagless) {assignments : List Assignment}
    (hassignments : ∀ a ∈ assignments, a.Tagless) :
    Keeps Progress.Tagless (Inside paint) (write env scope owner site attributes assignments) := by
  rw [write]
  refine .bind (pending_each h.settings hattributes hassignments) fun left hleft => ?_
  refine .bind (Rendering.attributesOf_each owner hattributes) fun all hall => ?_
  split
  · refine .bind (.lift fun cs => Contribution.each_collect h.weaves hscope hall hleft) fun cs hcs => ?_
    exact merge_inside h site hcs
  · have hsingle : ∀ a ∈ all, Keeps Progress.Tagless (Inside paint) (single env scope a) :=
      fun a ha => single_inside h hscope (hall a ha)
    exact .bind (.mapM hsingle) fun texts htexts => .pure (.flatten htexts)

end Attributes

section Children

variable {render : Expansion.Render} (hr : ∀ scope es, scope.Each tagless.Holds → (∀ e ∈ es, Element.Tagless e) →
  Keeps Progress.Tagless (Whole paint) (render scope es))

theorem Bytes.join_split (separator s : Bytes) (parts : List Bytes) :
    Bytes.join separator (s :: parts) = s ++ Bytes.join separator ([] :: parts) := by
  cases parts with
  | nil => simp [Bytes.join]
  | cons t parts => simp [Bytes.join, List.intercalate_cons_cons]

namespace Expansion

include h hr

theorem block_reads {scope : Scope} (hscope : scope.Each tagless.Holds) (site : Site) {children : List Element}
    (hchildren : ∀ e ∈ children, e.Tagless) :
    Keeps Progress.Tagless (fun r => tagless.Holds r.1 ∧ Reads paint .code .code r.2)
      (block env render scope site children) := by
  rw [block]
  split
  next => exact .pure ⟨Texture.holds_nil, Reads.code (s := []) Texture.holds_nil (by decide : Texture.Parts "null")⟩
  next =>
    refine .bind (hr scope children hscope hchildren) fun body hbody => .bind Rendering.freshScope_keeps fun n _ => ?_
    refine .bind (.lift fun inner hok => h.coded.nested hok) fun inner hinner => .pure ?_
    have hsaved : tagless.Holds (Bytes.ofString "$__pug_scope_" ++ Bytes.ofNat n) := Bytewise.holds_numbered (by decide) n
    have hcaptures := h.weaves.captures (List.forall_mem_singleton.mpr hsaved)
    have hopen : tagless.Holds (Bytes.ofString "function () use (" ++
        env.captures [Bytes.ofString "$__pug_scope_" ++ Bytes.ofNat n]) := .lead (by decide) hcaptures
    refine ⟨hsaved.trail (by decide), ?_⟩
    have hclose : Reads paint .code .code [Ascii.rbrace] := Reads.code Texture.holds_nil (by decide)
    rw [hinner]
    exact ((Reads.code (hopen.part (by decide) hsaved) (by decide)).append (.nested hbody)).append hclose

omit hr in
/-- The code of a call: the closure, with markup inside it, and its arguments, with markup inside the block. -/
theorem invocation_reads {m : Mixin} (hm : m.Each tagless.Holds) {a : Actuals}
    (ha : a.Each tagless.Holds (Reads paint .code .code)) {inner : Bytes} (hinner : Reads paint .code .code inner) :
    Reads paint .code .code (a.setup ++ "(function (" ++ Bytes.join ", " (formals m) ++ ") use (" ++ env.captures []
      ++ ") \x7b" ++ inner ++ "\x7d)(" ++ Bytes.join ", " (a.attributes :: a.block :: a.args) ++ ");") := by
  have hformals := Texture.Holds.join (by decide : Texture.Parts ", ") (holds_formals hm)
  have hcaptures := h.weaves.captures (List.forall_mem_nil tagless.Holds)
  have hrest : ∀ c ∈ [] :: a.args, tagless.Holds c := List.forall_mem_cons.mpr ⟨Texture.holds_nil, ha.args⟩
  have hhead := ha.setup.part (by decide : Texture.Parts "(function (") hformals
  have hopen := hhead.part (by decide : Texture.Parts ") use (") hcaptures
  have hbegin : tagless.Holds (Bytes.ofString "\x7d)(" ++ a.attributes) := .lead (by decide) ha.attributes
  have hall := (((Reads.code hopen (by decide : Texture.Parts ") \x7b")).append hinner).append
    (Reads.code hbegin (by decide : Texture.Parts ", "))).append (ha.block.append
      (Reads.code (Texture.Holds.join (by decide : Texture.Parts ", ") hrest) (by decide : Texture.Parts ");")))
  have hargs : Bytes.join ", " (a.attributes :: a.block :: a.args) =
      a.attributes ++ ", " ++ (a.block ++ Bytes.join ", " ([] :: a.args)) := by
    rw [← Bytes.join_split, Bytes.join, Bytes.join, List.intercalate_cons_cons]
  rw [hargs]
  simp only [List.append_assoc] at hall ⊢
  exact hall

theorem write_reads {scope : Scope} (hscope : scope.Each tagless.Holds) (id : NodeId) (site : Site) {call : Call}
    (hcall : call.Each tagless.Holds Literal.Tagless) {children : List Element} (hchildren : ∀ e ∈ children, e.Tagless) :
    Keeps Progress.Tagless (Whole paint) (write env render scope id site call children) := by
  rw [write]
  cases hfind : Element.findMixin? env.mixins call.name with
  | none => exact .throw _
  | some d =>
    obtain ⟨hmixin, hbody⟩ := h.mixins d (Element.mem_of_findMixin? hfind)
    refine .bind (Rendering.attributesOf_each id hcall.attributes) fun all hall => ?_
    have hb := Binding.each_ofCall (m := d.mixin) hcall.args hall
    dsimp only
    split
    on_goal 1 => refine .bind (Rendering.say_keeps ..) fun _ _ => ?_
    all_goals
      have hblock := block_reads h hr hscope site hchildren
      refine .bind (actuals_each h.weaves h.settings hscope id site hcall hblock d.mixin hb) fun a ha => ?_
      refine .bind (Rendering.say_keeps ..) fun _ _ => ?_
      refine .bind (hr _ _ (hscope.entering ha.known) hbody) fun body hbody => ?_
      refine .bind (.lift fun inner hok => h.coded.nested hok) fun inner hinner => .lift fun text hok => ?_
      rw [h.coded.handle hok, hinner]
      exact .handle (invocation_reads h hmixin ha (.nested hbody))

end Expansion

namespace Render

include h in
theorem indentation_reads (scope : Scope) : Whole paint (env.indentation scope) := by
  have hbreak : Whole paint [Ascii.newline] := .of_holds (Texture.Plain.holds (by decide))
  refine hbreak.append (.flatten fun unit hunit => ?_)
  rw [List.eq_of_mem_replicate hunit]
  exact .of_holds h.settings.indent

theorem xmlDeclaration_reads : Whole paint Dialect.xmlDeclaration := by
  have hquestion : Inside paint ("<?= " ++ (Bytes.ofString "\"?\"" ++ " ?>")) := .display (Texture.Plain.holds (by decide))
  have hrest : Inside paint "xml version=\"1.0\" encoding=\"utf-8\" ?" :=
    .of_holds (Texture.Plain.holds (by decide)) (by decide)
  exact (hquestion.append hrest).tag

theorem doctypes_read : ∀ d ∈ Dialect.doctypes, Whole paint d.2 := by
  have htags : ∀ d ∈ Dialect.doctypes, d.2 = Dialect.xmlDeclaration ∨
      d.2 = Ascii.less :: (d.2.tail.dropLast ++ [Ascii.greater]) ∧ Texture.Trails d.2.tail.dropLast ∧
        d.2.tail.dropLast.head? ≠ some Ascii.question := by decide +kernel
  intro d hd
  rcases htags d hd with heq | ⟨heq, hplain, hhead⟩ <;> rw [heq]
  · exact xmlDeclaration_reads
  · exact (Inside.of_holds hplain.1.holds hhead).tag

/-- A doctype is left out, is among the known ones or names itself. -/
theorem doctype_eq_ok (hcoded : env.Coded) {site : Site} {value text : Bytes} (hok : doctype env site value = .ok text) :
    text = [] ∨ (∃ d ∈ Dialect.doctypes, text = d.2) ∨ text = "<!DOCTYPE " ++ value ++ ">" := by
  rw [doctype] at hok
  split at hok
  next declaration hdeclaration =>
    cases hok
    rw [Dialect.declaration?] at hdeclaration
    split at hdeclaration
    · cases hdeclaration
    · cases hdeclaration
      rw [Dictionary.get?]
      cases hfind : Dialect.doctypes.find? (·.1 == Text.lower value) with
      | none => exact .inr (.inr rfl)
      | some d => exact .inr (.inl ⟨d, List.mem_of_find?_eq_some hfind, rfl⟩)
  next =>
    rcases hcoded.doctype hok with rfl | hmem
    · exact .inl rfl
    · obtain ⟨d, hd, rfl⟩ := List.mem_map.mp hmem
      exact .inr (.inl ⟨d, hd, rfl⟩)

include h in
theorem doctype_reads {site : Site} {value : Bytes} (hvalue : tagless.Holds value) {text : Bytes}
    (hok : doctype env site value = .ok text) : Whole paint text := by
  rcases doctype_eq_ok h.coded hok with rfl | ⟨d, hd, rfl⟩ | rfl
  · exact .of_holds Texture.holds_nil
  · exact doctypes_read d hd
  · have hname : tagless.Holds (Bytes.ofString "!DOCTYPE " ++ value) := .lead (by decide) hvalue
    exact (Inside.of_holds hname (by rw [List.head?_append_of_ne_nil _ (by decide)]; decide)).tag

include h in
theorem tagName_inside {site : Site} {t : Tag} (ht : t.Each tagless.Holds Literal.Tagless)
    (hnamed : ∀ name ∈ t.staticName, name.head? ≠ some Ascii.question) {name : Bytes}
    (hok : tagName env site t = .ok name) : Inside paint name := by
  rw [tagName] at hok
  split at hok
  next hnone =>
    cases hok
    exact .of_holds ht.name (hnamed t.name (by rw [Tag.staticName, hnone]; rfl))
  next s hs =>
    obtain ⟨code, hcode, hok⟩ := bind_eq_ok hok
    rw [h.coded.display hok]
    exact .display (h.weaves.snippet (ht.nameExpr s hs) hcode)

variable (hpaint : ∀ id, Turns .markup .markup (paint id))

include hpaint

theorem mark_reads (env : Environment) (origin : Option Origin) :
    Keeps Progress.Tagless (Whole paint) (Rendering.mark env origin) := by
  refine (Rendering.mark_keeps env origin).mono fun t ht => ?_
  rcases ht with rfl | ⟨id, rfl⟩
  · exact .of_holds Texture.holds_nil
  · exact .mark hpaint id

theorem marked_reads {text : Rendering Bytes} (ht : Keeps Progress.Tagless (Whole paint) text) (origin : Option Origin) :
    Keeps Progress.Tagless (Whole paint) (marked env origin text) :=
  .bind ht fun _ ht => .bind (mark_reads hpaint env origin) fun _ hmark => .pure (hmark.append ht)

omit hpaint

include hr

theorem inner_reads {scope : Scope} (hscope : scope.Each tagless.Holds) {children : List Element}
    (hchildren : ∀ e ∈ children, e.Tagless) :
    Keeps Progress.Tagless (fun r => Whole paint r.1) (inner render scope children) := by
  unfold inner
  refine .get fun p _ => .bind (.modify fun _ hp => hp) fun _ _ => ?_
  refine .bind (hr scope children hscope hchildren) fun text htext => ?_
  exact .get fun q _ => .bind (.modify fun _ hp => hp) fun _ _ => .pure htext

include h

theorem pair_reads {scope : Scope} (hscope : scope.Each tagless.Holds) (site : Site) {name attributes : Bytes}
    (hname : Inside paint name) (hattributes : Inside paint attributes) (block : Bool) {children : List Element}
    (hchildren : ∀ e ∈ children, e.Tagless) :
    Keeps Progress.Tagless (Whole paint) (pair env render scope site name attributes block children) := by
  rw [pair]
  refine .bind (.lift fun opening hok => h.bracketed.opening hok) fun opening hopening => ?_
  refine .bind (.lift fun closing hok => h.bracketed.closing hok) fun closing hclosing => ?_
  have hinner : (if block then scope.indented else scope).Each tagless.Holds := by
    split <;> exact hscope
  refine .bind (inner_reads hr hinner hchildren) fun r htext => .pure ?_
  have hslash : Inside paint [Ascii.slash] := .of_holds (Texture.Plain.holds (by decide)) (by decide)
  rw [hopening, hclosing]
  refine .append (.append (.append (hname.append hattributes).tag htext) ?_) (hslash.append hname).tag
  split
  · exact indentation_reads h scope
  · exact .of_holds Texture.holds_nil

include hpaint

theorem markup_reads {scope : Scope} (hscope : scope.Each tagless.Holds) (id : NodeId) (origin : Option Origin) (site : Site)
    {t : Tag} (ht : t.Each tagless.Holds Literal.Tagless)
    (hnamed : ∀ name ∈ t.staticName, name.head? ≠ some Ascii.question) {children : List Element}
    (hchildren : ∀ e ∈ children, e.Tagless) :
    Keeps Progress.Tagless (Whole paint) (markup env render scope id origin site t children) := by
  rw [markup]
  refine .bind (.lift fun name hok => (tagName_inside h ht hnamed hok : Inside paint name)) fun name hname => ?_
  dsimp only
  split
  next => exact .throw _
  next =>
    have hwritten : Keeps Progress.Tagless (Inside paint) _ :=
      Attributes.write_inside h hscope id site ht.attributes ht.assignments
    refine .bind hwritten fun attributes hattributes => ?_
    refine .bind (mark_reads hpaint env origin) fun mark hmark => ?_
    have hline : Whole paint (if env.settings.pretty && env.dialect.startsLine t then env.indentation scope else []) := by
      split
      · exact indentation_reads h scope
      · exact .of_holds Texture.holds_nil
    have hfinish {lineBreak text : Bytes} (hline : Whole paint lineBreak) (htext : Whole paint text) :
        Keeps Progress.Tagless (Whole paint) (do
          if env.dialect.startsLine t then modify fun p => { p with blockSeen := true }
          return lineBreak ++ mark ++ text) := by
      split
      · exact .bind (.modify fun _ hp => hp) fun _ _ => .pure ((hline.append hmark).append htext)
      · exact .pure ((hline.append hmark).append htext)
    split
    · refine .bind (.lift fun text hok => h.bracketed.lone hok) fun text htext => hfinish hline ?_
      have hslash : Inside paint (if env.dialect.slashes then [Ascii.space, Ascii.slash] else []) := by
        split
        · exact .of_holds (Texture.Plain.holds (by decide)) (by decide)
        · exact .nil
      rw [htext]
      exact ((hname.append hattributes).append hslash).tag
    · exact .bind (pair_reads h hr hscope site hname hattributes _ hchildren) fun text htext => hfinish hline htext

omit hpaint

theorem code_reads {scope : Scope} (hscope : scope.Each tagless.Holds) (site : Site) {source : Bytes}
    (hsource : tagless.Holds source) {children : List Element} (hchildren : ∀ e ∈ children, e.Tagless) :
    Keeps Progress.Tagless (Whole paint) (code env render scope site source children) := by
  rw [code]
  refine .bind (.lift fun _ => h.weaves.code hsource) fun code hcode => ?_
  have hhandle (text : Bytes) (hok : env.pattern site "php_handle_code" [code] = .ok text) : Whole paint text := by
    rw [h.coded.handle hok]
    exact (Inside.handle hcode).reads
  split
  next => exact .lift hhandle
  next =>
    refine .bind (hr scope children hscope hchildren) fun body hbody => ?_
    split
    · refine .bind (.lift fun inner hok => h.coded.nested hok) fun inner hinner => ?_
      refine .bind (.lift fun block hok => h.coded.block hok) fun block hblock => .lift fun text hok => ?_
      have hclose : Reads paint .code .code [Ascii.rbrace] := Reads.code Texture.holds_nil (by decide)
      have hall := (Reads.code hcode (by decide : Texture.Parts " \x7b")).append ((Reads.nested hbody).append hclose)
      rw [h.coded.handle hok, hblock, hinner, ← List.append_assoc code]
      exact .handle hall
    · exact .bind (.lift hhandle) fun text htext => .pure (htext.append hbody)

include hpaint

theorem content_reads {scope : Scope} (hscope : scope.Each tagless.Holds) {e : Element} (he : e.Tagless) :
    Keeps Progress.Tagless (Whole paint) (content env render scope e) := by
  obtain ⟨he, hnamed⟩ := he
  obtain @⟨id, origin, content, children, hcontent, heach⟩ := he
  obtain @⟨_, _, _, _, hname, hnames⟩ := hnamed
  have hchildren : ∀ e ∈ children, Element.Tagless e := fun e he => ⟨heach e he, hnames e he⟩
  cases content with
  | markup t => exact markup_reads h hr hpaint hscope id origin _ hcontent (hname t rfl) hchildren
  | mixin m => exact .pure (.of_holds Texture.holds_nil)
  | document => exact marked_reads hpaint (hr scope children hscope hchildren) origin
  | doctype value => exact marked_reads hpaint (.lift fun text hok => doctype_reads h hcontent hok) origin
  | text value => exact marked_reads hpaint (.pure (.of_holds (Entity.holds_escaped _ hcontent))) origin
  | code source => exact marked_reads hpaint (code_reads h hr hscope _ hcontent hchildren) origin
  | expression s =>
    refine marked_reads hpaint (.lift fun text hok => ?_) origin
    rw [expression] at hok
    split at hok
    next v hv =>
      have hv := hscope.scalar? (fun v => hcontent.each) hv
      cases hok
      exact .of_holds (Entity.holds_escaped _ hv.text)
    next =>
      obtain ⟨code, hcode, hok⟩ := bind_eq_ok hok
      exact (h.displayed (h.weaves.snippet hcontent hcode) hok).reads
  | binding name value =>
    refine marked_reads hpaint (.lift fun text hok => ?_) origin
    cases value with
    | none => cases hok
    | some s =>
      obtain ⟨code, hcode, hok⟩ := bind_eq_ok hok
      rw [h.coded.handle hok]
      exact (Inside.handle (hcontent.1.part (by decide) (h.weaves.snippet (hcontent.2 s rfl) hcode))).reads
  | call call => exact marked_reads hpaint (Expansion.write_reads h hr hscope id _ hcontent hchildren) origin
  | block =>
    refine marked_reads hpaint (.lift fun text hok => ?_) origin
    rw [block] at hok
    split at hok
    · cases hok
      exact .of_holds Texture.holds_nil
    · rw [h.coded.handle hok]
      exact (Inside.handle (Texture.Plain.holds (by decide))).reads
  | stray kind => exact .throw _

end Render

end Children

namespace Render

theorem listFrom_reads {one : Element → Rendering Bytes} {es : List Element}
    (ho : ∀ e ∈ es, Keeps Progress.Tagless (Whole paint) (one e)) (before : Option Forest.Text) :
    Keeps Progress.Tagless (Whole paint) (listFrom one before es) := by
  induction es generalizing before with
  | nil => exact .pure (.of_holds Texture.holds_nil)
  | cons e es ih =>
    obtain ⟨he, hes⟩ := List.forall_mem_cons.mp ho
    have hseparator : Whole paint (separator before (text? e)) := by
      unfold separator
      split
      · split
        · exact .of_holds (Texture.Plain.holds (by decide))
        · exact .of_holds Texture.holds_nil
      · exact .of_holds Texture.holds_nil
    rw [listFrom]
    exact .bind he fun first hfirst => .bind (ih hes _) fun rest hrest => .pure ((hseparator.append hfirst).append hrest)

include h

/-- Whatever stands in place of the marks, the text of a node is markup from its start to its end. -/
theorem node_reads (hpaint : ∀ id, Turns .markup .markup (paint id)) (budget : Nat) {scope : Scope}
    (hscope : scope.Each tagless.Holds) {e : Element} (he : e.Tagless) :
    Keeps Progress.Tagless (Whole paint) (node env budget scope e) := by
  induction budget generalizing scope e with
  | zero => exact .throw _
  | succ budget ih =>
    rw [node]
    refine content_reads h (fun scope es hscope hes => ?_) hpaint hscope he
    exact listFrom_reads (fun e he => ih hscope (hes e he)) none

end Render

end Writing

namespace Page

variable {env : Environment} {site : Site} {fragments : Array Origin} {p q : Page}

/-- What stands on the page in place of the mark of a fragment. -/
def trace (debug : Bool) (fragments : Array Origin) (id : Int) : Bytes :=
  if debug && (fragment? fragments id).isSome then "<?php " ++ (setter id ++ " ?>") else []

theorem turns_handle (h : tagless.Holds s) : Turns .markup .markup ("<?php " ++ (s ++ " ?>")) :=
  turns_php.append (turns_end h)

theorem turns_trace (debug : Bool) (fragments : Array Origin) (id : Int) :
    Turns .markup .markup (trace debug fragments id) := by
  rw [trace]
  split
  · have hnumber : tagless.Holds (Bytes.ofString "$__pug_debug_id = " ++ Bytes.ofInt id) :=
      .lead (by decide) (holds_of_isFigure (Bytes.figure_ofInt id))
    exact turns_handle (hnumber.trail (by decide))
  · exact turns_nil

section Steps

variable (h : env.Coded)
include h

theorem step_painted {segment : Segment} (hok : step env site fragments p segment = .ok q) :
    q.text = p.text ++ segment.painted (trace env.settings.debug fragments) := by
  cases segment with
  | byte c =>
    obtain rfl : p.writeByte c = q := Except.ok.inj hok
    exact text_writeByte p c
  | fragment id =>
    rw [Segment.painted, trace]
    rw [step] at hok
    cases hfragment : fragment? fragments id with
    | none =>
      rw [hfragment] at hok
      obtain rfl : p = q := Except.ok.inj hok
      rw [Option.isSome_none, Bool.and_false]
      exact (List.append_nil _).symm
    | some o =>
      rw [hfragment] at hok
      dsimp only at hok
      rw [Option.isSome_some, Bool.and_true]
      split at hok
      next hdebug =>
        obtain ⟨marker, hmarker, hok⟩ := bind_eq_ok hok
        obtain rfl : (p.note id o).write marker = q := Except.ok.inj hok
        rw [text_write, h.handle hmarker, if_pos hdebug]
        rfl
      next hdebug =>
        obtain rfl : p.note id o = q := Except.ok.inj hok
        rw [if_neg hdebug]
        exact (List.append_nil _).symm

theorem foldlM_step_painted {ss : List Segment} (hok : ss.foldlM (step env site fragments) p = .ok q) :
    q.text = p.text ++ painted (trace env.settings.debug fragments) ss := by
  induction ss generalizing p with
  | nil =>
    obtain rfl : p = q := Except.ok.inj hok
    exact (List.append_nil _).symm
  | cons segment ss ih =>
    rw [List.foldlM_cons] at hok
    obtain ⟨r, hstep, hok⟩ := bind_eq_ok hok
    rw [ih hok, step_painted h hstep, List.append_assoc]
    rfl

/-- What is written for a rendered text is markup from its start to its end. -/
theorem body_turns {rendered : Bytes} (hrendered : Whole (trace env.settings.debug fragments) rendered)
    (hok : body env site fragments p rendered = .ok q) : ∃ t, q.text = p.text ++ t ∧ Turns .markup .markup t := by
  refine ⟨_, foldlM_step_painted h hok, fun t => ?_⟩
  split
  · rw [scan_dropLeadingBreak (turns_trace _ _), hrendered.turns]
  · exact hrendered.turns t

end Steps

end Page

namespace Render

variable {env : Environment} (h : env.Tagless)
include h

theorem page_alternates {rendered : Bytes}
    (hrendered : ∀ fragments, Whole (Page.trace env.settings.debug fragments) rendered) (site : Site) :
    Keeps Progress.Tagless (fun page => Page.Alternates page.text) (page env site rendered) := by
  rw [page]
  refine .get fun p _ => ?_
  split
  · refine .bind (.lift fun opening hok => h.coded.handle hok) fun opening hopening => ?_
    refine .bind (.lift fun _ => Page.body_turns h.coded (hrendered _)) fun page hpage => ?_
    refine .bind (Rendering.require_keeps env _ _) fun rethrow hrethrow => ?_
    refine .bind (.lift fun closing hok => h.coded.handle hok) fun closing hclosing => .pure ?_
    obtain ⟨t, hpage, ht⟩ := hpage
    have haccessor := h.settings.accessor "debug_rethrow" (Texture.Plain.holds (by decide))
    have hcatch : tagless.Holds (Bytes.ofString "\x7d catch (\\Throwable $__pug_error) \x7b " ++
        env.settings.storage.accessor "debug_rethrow") := .lead (by decide) haccessor
    have htry : Turns .markup .markup opening := by
      rw [hopening]
      exact Page.turns_handle (Texture.Plain.holds (by decide))
    have hend : Turns .markup .markup closing := by
      rw [hclosing, hrethrow]
      exact Page.turns_handle (hcatch.trail (by decide))
    rw [Page.text_write, hpage, Page.text_write]
    exact ((htry.append ht).append hend).alternates
  · refine .lift fun page hok => ?_
    obtain ⟨t, hpage, ht⟩ := Page.body_turns h.coded (hrendered _) hok
    rw [hpage]
    exact ht.alternates

end Render

/-- Settings that bring in nothing but an indentation and the name of the storage have the texture of these. -/
theorem Settings.Bare.each_holds {settings : Settings} (h : settings.Bare) {T : Texture} {S : Bytes → Prop}
    (hindent : T.Holds settings.indent) (hstorage : T.Holds settings.storage.name) : settings.Each T.Holds S := by
  refine ⟨hindent, hstorage, fun name hname => ?_, by rw [h.handlers]; exact List.forall_mem_nil _⟩
  have hbegin : T.Holds (Bytes.ofString "$" ++ settings.storage.name) := .lead (by decide) hstorage
  have hcode := (hbegin.part (by decide : Texture.Parts "[") (Quoted.holds_encode hname)).trail (by decide : Texture.Trails "]")
  rw [Storage.accessor, h.getter]
  exact hcode

theorem Settings.Bare.each_tagless {settings : Settings} (h : settings.Bare) (hindent : settings.indent.Tagless)
    (hstorage : settings.storage.name.Tagless) : settings.Each Bytes.Tagless Literal.Tagless := by
  rw [← Texture.holds_tagless_eq]
  exact h.each_holds (Texture.holds_tagless.mpr hindent) (Texture.holds_tagless.mpr hstorage)

namespace Session

/-- In a built-in dialect and without patterns of the settings, code and markup take turns on the page of a tree that holds
no brackets of code, where the settings bring none in. -/
theorem format_alternates {s after : Session} {forest forest' : Forest} {root : NodeId} {selector : Selector} {e : Element}
    {d : Dialect} {text : Bytes} (he : forest.element root = e) (htagless : e.Each Bytes.Tagless Literal.Tagless)
    (hnamed : e.Named) (hselect : (s.select e selector).2 = .ok d) (hstandard : s.Standard d)
    (hsettings : s.settings.Each Bytes.Tagless Literal.Tagless)
    (hformat : s.format forest (some root) selector = (after, forest', .ok text)) : Page.Alternates text := by
  subst he
  obtain ⟨l, fallback, page, q, hfallback, hrun, rfl⟩ := finished_of_format hselect hformat
  obtain rfl := hstandard.fallback_eq hfallback
  obtain ⟨rendered, r, htree, hpage⟩ := Rendering.bind_run_ok hrun
  rw [← Texture.holds_tagless_eq] at htagless hsettings
  have htree' : (forest.element root).Tagless := ⟨htagless, hnamed⟩
  have henv : (s.environment (forest.element root) d "''").Tagless := by
    refine ⟨hstandard.bracketed _ _, hstandard.coded _, hsettings, fun declaration hd => ?_⟩
    obtain ⟨hmixin, hbody⟩ := htagless.declarations declaration hd
    exact ⟨hmixin, fun e he => ⟨hbody e he, hnamed.declarations declaration hd e he⟩⟩
  have hstart : Progress.Tagless { ledger := l, nextNode := forest.size } := List.forall_mem_nil _
  have hrendered (fragments : Array Origin) : Page.Whole (Page.trace s.settings.debug fragments) rendered :=
    (Render.node_reads henv (Page.turns_trace _ _) _ Scope.each_outermost htree' hstart htree).2
  have hkept := (Render.node_reads henv (Page.turns_trace s.settings.debug #[]) _ Scope.each_outermost htree' hstart htree).1
  exact (Render.page_alternates henv hrendered _ hkept hpage).2

/-- A mixin around its block, called in a block of code with a tag that has a computed attribute. -/
def lattice : Forest :=
  ⟨#[{ content := .document, children := [1, 4] },
     { content := .mixin { name := "cell" }, parent := some 0, children := [2] },
     { content := .markup { name := "td" }, parent := some 1, children := [3], origin := some ⟨"t.pug", 2, 2⟩ },
     { content := .block, parent := some 2 },
     { content := .code "if (true)", parent := some 0, children := [5], origin := some ⟨"t.pug", 4, 0⟩ },
     { content := .call { name := "cell" }, parent := some 4, children := [6], origin := some ⟨"t.pug", 5, 2⟩ },
     { content := .markup { name := "b", bundle := ⟨[7], []⟩ }, parent := some 5, children := [9] },
     { content := .attr { name := "id", value := some 8 }, parent := some 6 },
     { content := .expression { source := "f(1) ?: 2", checked := false }, parent := some 7 },
     { content := .text { value := "a ?" }, parent := some 6, origin := some ⟨"t.pug", 6, 8⟩ }]⟩

theorem lattice_tagless : (lattice.element 0).Each Bytes.Tagless Literal.Tagless := by
  have hplain {s : Bytes} (h : Texture.Plain s) : s.Tagless := Texture.holds_tagless.mp h.holds
  have hcode : Literal.Tagless "f(1) ?: 2" := by
    have hnone : Literal.evaluate "f(1) ?: 2" = none := by decide +kernel
    exact ⟨hplain (by decide), fun v hv => by rw [hnone] at hv; cases hv⟩
  refine Forest.element_each (fun id n hn => ?_) 0
  have hid : id < 10 := (Array.getElem?_eq_some_iff.mp hn).1
  interval_cases id <;> cases hn
  · trivial
  · exact ⟨hplain (by decide), List.forall_mem_nil _, fun _ h => by cases h⟩
  · exact ⟨hplain (by decide), fun _ h => (by cases h), List.forall_mem_nil _, List.forall_mem_nil _⟩
  · trivial
  · exact hplain (by decide : Texture.Plain "if (true)")
  · exact ⟨hplain (by decide), List.forall_mem_nil _, List.forall_mem_nil _, List.forall_mem_nil _⟩
  · refine ⟨hplain (by decide), fun _ h => (by cases h), List.forall_mem_singleton.mpr ?_, List.forall_mem_nil _⟩
    exact ⟨hplain (by decide : Texture.Plain "id"), fun _ h => (by cases h), hcode⟩
  · trivial
  · exact hcode
  · exact hplain (by decide : Texture.Plain "a ?")

theorem lattice_named : (lattice.element 0).Named := by
  refine Forest.element_named (fun id n hn t ht => ?_) 0
  have hid : id < 10 := (Array.getElem?_eq_some_iff.mp hn).1
  interval_cases id <;> cases hn <;> cases ht
  all_goals decide

/-- The code in the tag stands in markup in the closure of the block, and the closure in that of the mixin. -/
theorem lattice_alternates :
    let s : Session := { settings := { debug := true } }
    (lattice.element 0).Each Bytes.Tagless Literal.Tagless ∧ (lattice.element 0).Named ∧
      ∃ text, (s.format lattice (some 0) (.named "html")).2.2 = .ok text ∧ Page.Alternates text := by
  intro s
  have hsome : (s.format lattice (some 0) (.named "html")).2.2.toOption.isSome := by decide +kernel
  obtain ⟨text, htext⟩ := Option.isSome_iff_exists.mp hsome
  have hok := ok_of_toOption htext
  have hbare : s.settings.Bare := { Settings.bare_default with }
  have hplain {s : Bytes} (h : Texture.Plain s) : s.Tagless := Texture.holds_tagless.mp h.holds
  have hsettings := hbare.each_tagless (hplain (by decide)) (hplain (by decide))
  have hstandard : s.Standard Dialect.html := ⟨rfl, rfl, by decide +kernel⟩
  refine ⟨lattice_tagless, lattice_named, text, hok, ?_⟩
  exact format_alternates rfl lattice_tagless lattice_named rfl hstandard hsettings (Prod.ext rfl (Prod.ext rfl hok))

/-- A call in whose arguments a literal stands for the mark of the call, none of whose bytes is null. -/
def smuggler : Forest :=
  ⟨#[{ content := .document, children := [1, 2] },
     { content := .mixin { name := "m" }, parent := some 0 },
     { content := .call { name := "m", bundle := ⟨[3], []⟩ }, parent := some 0, origin := some ⟨"t.pug", 1, 0⟩ },
     { content := .attr { name := "class", value := some 4 }, parent := some 2 },
     { content := .expression { source := "\"\\01\x01\"", checked := false }, parent := some 3 }]⟩

theorem smuggler_tagless : (smuggler.element 0).Each Bytes.Tagless Bytes.Tagless := by
  have hplain {s : Bytes} (h : Texture.Plain s) : s.Tagless := Texture.holds_tagless.mp h.holds
  have hsource : Bytes.Tagless "\"\\01\x01\"" := hplain (by decide)
  refine Forest.element_each (fun id n hn => ?_) 0
  have hid : id < 5 := (Array.getElem?_eq_some_iff.mp hn).1
  interval_cases id <;> cases hn
  · trivial
  · exact ⟨hplain (by decide), List.forall_mem_nil _, fun _ h => by cases h⟩
  · refine ⟨hplain (by decide), List.forall_mem_nil _, List.forall_mem_singleton.mpr ?_, List.forall_mem_nil _⟩
    exact ⟨hplain (by decide : Texture.Plain "class"), fun _ h => (by cases h), hsource⟩
  · trivial
  · exact hsource

/-- It does not suffice that the tree holds no null bytes and no brackets: when debugging, code is put in place of what is
taken for a mark, also inside code. -/
theorem smuggler_not_alternates : ¬ ∀ (s after : Session) (forest forest' : Forest) (root : NodeId) (selector : Selector)
    (e : Element) (d : Dialect) (text : Bytes), forest.element root = e → e.Each Bytes.Tagless Bytes.Tagless → e.Named →
    (s.select e selector).2 = .ok d → s.Standard d → s.settings.Each Bytes.Tagless Literal.Tagless →
    s.format forest (some root) selector = (after, forest', .ok text) → Page.Alternates text := by
  intro h
  let settings : Settings := { debug := true }
  have hbare : settings.Bare := { Settings.bare_default with }
  have hplain {s : Bytes} (h : Texture.Plain s) : s.Tagless := Texture.holds_tagless.mp h.holds
  have hsettings := hbare.each_tagless (hplain (by decide)) (hplain (by decide))
  have hstandard : Standard { settings } Dialect.html := ⟨rfl, rfl, by decide +kernel⟩
  have hnamed : (smuggler.element 0).Named := by
    refine Forest.element_named (fun id n hn t ht => ?_) 0
    have hid : id < 5 := (Array.getElem?_eq_some_iff.mp hn).1
    interval_cases id <;> cases hn <;> cases ht
  have hread : (format { settings } smuggler (some 0) (.named "html")).2.2.toOption.map (Page.scan .markup) = some none := by
    decide +kernel
  revert hread
  generalize hpage : format { settings } smuggler (some 0) (.named "html") = page
  intro hread
  obtain ⟨text, htext, hnone⟩ := Option.map_eq_some_iff.mp hread
  have halternates := h { settings } page.1 smuggler page.2.1 0 (.named "html") _ Dialect.html text rfl smuggler_tagless
    hnamed rfl hstandard hsettings (hpage.trans (Prod.ext rfl (Prod.ext rfl (ok_of_toOption htext))))
  rw [Page.Alternates, hnone] at halternates
  cases halternates

end Session

end Stencil
