import Stencil.Proofs.Compile.Keeps
import Stencil.Proofs.Compile.Texts

/-! What is written while a tree is rendered. What is said of the texts of a tree holds of the attributes that handlers add
to it, where the handlers keep to it, and code that is put together for a call has the texture of the tree. -/

namespace Stencil

/-- All texts that the handler adds satisfy `P` and all sources `S`, if the code that reads a helper satisfies `P`. -/
inductive Handler.Script.Each (P S : Bytes → Prop) : Handler.Script → Prop
  | finish (taken : Bool) : Each P S (.finish taken)
  | fail (f : Failure) : Each P S (.fail f)
  | add {a : Handler.NewAttribute} {next : Handler.Script}
      (ha : ∀ owner attr, (Addition.mk owner attr a).toAttribute.Each P S) (hnext : Each P S next) : Each P S (.add a next)
  | require {helper : Bytes} {next : Except Failure Bytes → Handler.Script} (hhelper : P helper)
      (hnext : ∀ r, (∀ accessor, r = .ok accessor → P accessor) → Each P S (next r)) :
      Each P S (.require helper next)

def Handler.Each (P S : Bytes → Prop) (h : Handler) : Prop :=
  ∀ owner attributes a, (∀ b ∈ attributes, Attribute.Each P S b) → Assignment.Each P S a →
    (h.action.script owner attributes a).Each P S

/-- All texts that the settings bring into a page satisfy `P`, and all sources `S`. -/
structure Settings.Each (P S : Bytes → Prop) (settings : Settings) : Prop where
  indent : P settings.indent
  storage : P settings.storage.name
  accessor : ∀ name, P name → P (settings.storage.accessor name)
  handlers : ∀ h ∈ settings.handlers, h.Each P S

def Progress.Each (P S : Bytes → Prop) : Progress → Prop :=
  Rendering.Added fun additions => ∀ a ∈ additions, a.toAttribute.Each P S

open Rendering (Keeps)

section Handlers

variable {P S : Bytes → Prop} {env : Environment}

namespace Rendering

theorem attributesOf_each (owner : NodeId) {attributes : List Attribute} (h : ∀ a ∈ attributes, a.Each P S) :
    Keeps (Progress.Each P S) (fun all => ∀ a ∈ all, Attribute.Each P S a) (attributesOf owner attributes) := by
  refine .get fun p hp => .pure (List.forall_mem_append.mpr ⟨h, List.forall_mem_map.mpr fun a ha => ?_⟩)
  exact hp a (List.mem_of_mem_filter ha)

theorem addAttribute_each (owner : NodeId) {a : Handler.NewAttribute}
    (ha : ∀ owner attr, (Addition.mk owner attr a).toAttribute.Each P S) :
    Keeps (Progress.Each P S) (fun _ => True) (addAttribute owner a) :=
  .modify fun _ hp => List.forall_mem_append.mpr ⟨hp, List.forall_mem_singleton.mpr (ha _ _)⟩

end Rendering

variable (h : env.settings.Each P S)
include h

theorem Handler.Script.run_each {script : Handler.Script} (hscript : script.Each P S) (owner : NodeId) :
    Keeps (Progress.Each P S) (fun _ => True) (script.run env owner) := by
  induction hscript with
  | finish taken => exact .pure trivial
  | fail f => exact .throw f
  | add ha _ ih => exact .bind (Rendering.addAttribute_each owner ha) fun _ _ => ih
  | @require helper next hhelper _ ih =>
    rw [run]
    refine .get fun p _ => ?_
    split
    · exact ih _ fun _ h => by cases h
    · refine .bind (.modify fun _ hp => hp) fun _ _ => ih _ fun accessor haccessor => ?_
      cases haccessor
      exact h.accessor helper hhelper

namespace Attributes

theorem offer_each {owner : NodeId} {attributes : List Attribute} (hattributes : ∀ a ∈ attributes, a.Each P S)
    {a : Assignment} (ha : a.Each P S) (index : Nat) {handlers : List Handler} (hhandlers : ∀ g ∈ handlers, g.Each P S) :
    Keeps (Progress.Each P S) (fun _ => True) (offer env owner attributes a index handlers) := by
  induction handlers generalizing index with
  | nil => exact .pure trivial
  | cons handler handlers ih =>
    obtain ⟨hhandler, hrest⟩ := List.forall_mem_cons.mp hhandlers
    have hrun : Keeps (Progress.Each P S) (fun _ => True) (handler.run env owner attributes a) := by
      rw [Handler.run]
      split
      · exact .pure trivial
      · exact .bind (Rendering.attributesOf_each owner hattributes) fun all hall =>
          Handler.Script.run_each h (hhandler owner all a hall ha) owner
    rw [offer]
    refine .bind hrun fun taken _ => ?_
    split
    · exact .bind (Rendering.say_keeps ..) fun _ _ => .pure trivial
    · exact ih (index + 1) hrest

theorem pending_each {owner : NodeId} {attributes : List Attribute} (hattributes : ∀ a ∈ attributes, a.Each P S)
    {assignments : List Assignment} (hassignments : ∀ a ∈ assignments, a.Each P S) :
    Keeps (Progress.Each P S) (fun left => ∀ a ∈ left, Assignment.Each P S a)
      (pending env owner attributes assignments) := by
  induction assignments with
  | nil => exact .pure (List.forall_mem_nil _)
  | cons a rest ih =>
    obtain ⟨ha, hrest⟩ := List.forall_mem_cons.mp hassignments
    rw [pending]
    refine .bind (offer_each h hattributes ha 0 h.handlers) fun taken _ => ?_
    split
    · exact ih hrest
    · split
      · exact .bind (ih hrest) fun left hleft => .pure (List.forall_mem_cons.mpr ⟨ha, hleft⟩)
      · exact .throw _

end Attributes

end Handlers

section Calls

variable {T : Texture} {S : Bytes → Prop} {env : Environment}

namespace Expansion

theorem listCode_holds (call : Call) {codes : List (Argument × Bytes)} (hcodes : ∀ c ∈ codes, T.Holds c.2) :
    Keeps (Progress.Each T.Holds S) T.Holds (listCode call codes) := by
  have hsay (c : Argument × Bytes) : Keeps (Progress.Each T.Holds S) (fun _ => True)
      (if c.1.packed then Rendering.say .mixin (call.name ++ ": spreading " ++ c.1.code.source ++ " at runtime")
        else pure PUnit.unit) := by
    split
    · exact Rendering.say_keeps ..
    · exact .pure trivial
  refine .bind (.forM codes hsay) fun _ _ => .pure ?_
  have hjoin : T.Holds (Bytes.join ", " (listParts [] codes)) :=
    .join (by decide) (holds_listParts (List.forall_mem_nil _) hcodes)
  have hopen : T.Holds (Bytes.ofString "array_merge(" ++ Bytes.join ", " (listParts [] codes)) := .lead (by decide) hjoin
  exact hopen.trail (by decide)

variable (h : env.Weaves T S) (hsettings : env.settings.Each T.Holds S)
include h

theorem spreadArguments_holds {call : Call} (hargs : ∀ a ∈ call.args, S a.code.source) :
    Keeps (Progress.Each T.Holds S) (fun args => ∀ a ∈ args, T.Holds a) (spreadArguments env call) := by
  rw [spreadArguments]
  refine .bind (.lift fun codes => holds_argumentCodes h hargs) fun codes hcodes => ?_
  split
  · refine .bind (listCode_holds call hcodes) fun list hlist => .pure (List.forall_mem_singleton.mpr ?_)
    exact .lead (by decide) hlist
  · refine .pure (List.forall_mem_map.mpr fun c hc => ?_)
    dsimp only
    split
    · exact .lead (by decide) (hcodes c hc)
    · exact hcodes c hc

theorem holds_invocation {helper code : Bytes} (hhelper : Texture.Plain helper) (hcode : T.Holds code) :
    T.Holds (env.settings.storage.accessor helper ++ "(" ++ code ++ ")") :=
  ((h.accessor hhelper.holds).part (by decide) hcode).trail (by decide)

include hsettings

theorem attributes_holds {scope : Scope} (hscope : scope.Each T.Holds) (id : NodeId) (site : Site) {call : Call}
    (hcall : call.Each T.Holds S) (m : Mixin) {b : Binding} (hb : b.Each T.Holds S) :
    Keeps (Progress.Each T.Holds S) (fun r => T.Holds r.1 ∧ ∀ es, r.2 = some es → EachEntry T.Holds es)
      (attributes env scope id site call m b) := by
  rw [attributes]
  refine .bind (Attributes.pending_each hsettings hcall.attributes hcall.assignments) fun assignments hassignments => ?_
  refine .bind (.lift fun cs => each_sets h hscope hb hassignments) fun cs hcs => ?_
  have hcodes := Contribution.holds_codes hcs
  split
  next set hset =>
    have hmerged := Contribution.each_merged? hcs hset
    refine .pure ⟨Literal.holds_write (Value.each_array.mpr hmerged), fun es hes => ?_⟩
    cases hes
    exact hmerged
  next =>
    split
    next code heq =>
      have hcode : T.Holds code := hcodes code (heq ▸ List.mem_singleton_self code)
      split
      · exact .pure ⟨hcode, fun es hes => by cases hes⟩
      · refine .bind (Rendering.require_keeps env _ _) fun accessor haccessor => .pure ⟨?_, fun es hes => by cases hes⟩
        rw [haccessor]
        exact holds_invocation h (by decide) hcode
    next =>
      refine .bind (Rendering.require_keeps env _ _) fun accessor haccessor => .pure ⟨?_, fun es hes => by cases hes⟩
      rw [haccessor]
      exact holds_invocation h (by decide) (.join (by decide) hcodes)

/-- The texts of the actual arguments satisfy `P`, and the block of the call `B`. -/
structure Actuals.Each (P B : Bytes → Prop) (a : Actuals) : Prop where
  setup : P a.setup
  attributes : P a.attributes
  known : ∀ es, a.known = some es → EachEntry P es
  block : B a.block
  args : ∀ c ∈ a.args, P c

end Expansion

end Calls

section Actuals

variable {B : Bytewise} {S : Bytes → Prop} {env : Environment} (h : env.Weaves B.texture S)
include h

namespace Expansion

theorem spreadAttributes_each {R : Bytes → Prop} (site : Site) {call : Call} (hargs : ∀ a ∈ call.args, S a.code.source)
    (m : Mixin) {a : Actuals} (ha : a.Each B.texture.Holds R) :
    Keeps (Progress.Each B.texture.Holds S) (Actuals.Each B.texture.Holds R) (spreadAttributes env site call m a) := by
  rw [spreadAttributes]
  refine .bind (.lift fun codes => holds_argumentCodes h hargs) fun codes hcodes => ?_
  refine .bind (listCode_holds call hcodes) fun list hlist => .bind Rendering.freshScope_keeps fun n _ => ?_
  refine .bind (Rendering.require_keeps env _ _) fun accessor haccessor => .bind (Rendering.say_keeps ..) fun _ _ => .pure ?_
  have hnumber (n : Nat) : B.texture.Holds (Bytes.ofNat n) := holds_of_isFigure (Bytes.figure_ofNat n)
  have hsaved : B.texture.Holds (Bytes.ofString "$__pug_args_" ++ Bytes.ofNat n) := Bytewise.holds_numbered (by decide) n
  have hsetup : B.texture.Holds (a.setup ++ (Bytes.ofString "$__pug_args_" ++ Bytes.ofNat n)) := by
    rw [← List.append_assoc]
    exact Bytewise.Holds.part ha.setup (Bytewise.holds_name (by decide)) (by decide) (by decide) (by decide) (hnumber n)
  have hslice : B.texture.Holds (Bytes.ofString "...array_slice(" ++ (Bytes.ofString "$__pug_args_" ++ Bytes.ofNat n)) :=
    .lead (by decide) hsaved
  rw [haccessor]
  refine ⟨?_, ?_, fun es hes => (by cases hes), ha.block, List.forall_mem_singleton.mpr ?_⟩
  · exact (hsetup.part (by decide) hlist).trail (by decide)
  · have hmerged := (h.accessor (Texture.Plain.holds (by decide : Texture.Plain "merge_attributes"))).part
      (by decide : Texture.Parts "(") ha.attributes
    exact ((hmerged.part (by decide) hsaved).part (by decide) (hnumber _)).trail (by decide)
  · exact (hslice.part (by decide) (hnumber _)).trail (by decide)

variable (hsettings : env.settings.Each B.texture.Holds S)
include hsettings

theorem actuals_each {R : Bytes → Prop} {render : Render} {scope : Scope} (hscope : scope.Each B.texture.Holds) (id : NodeId)
    (site : Site) {call : Call} (hcall : call.Each B.texture.Holds S) {children : List Element}
    (hblock : Keeps (Progress.Each B.texture.Holds S) (fun r => B.texture.Holds r.1 ∧ R r.2) (block env render scope site children))
    (m : Mixin) {b : Binding} (hb : b.Each B.texture.Holds S) :
    Keeps (Progress.Each B.texture.Holds S) (Actuals.Each B.texture.Holds R) (actuals env render scope id site call children m b) := by
  rw [actuals]
  refine .bind hblock fun block hblock => ?_
  refine .bind (attributes_holds h hsettings hscope id site hcall m hb) fun attributes hattributes => ?_
  have hplain {args : List Bytes} (hargs : ∀ a ∈ args, B.texture.Holds a) :
      Actuals.Each B.texture.Holds R ⟨block.1, attributes.1, attributes.2, block.2, args⟩ :=
    ⟨hblock.1, hattributes.1, hattributes.2, hblock.2, hargs⟩
  dsimp only
  split
  · refine .bind (spreadArguments_holds h hcall.args) fun args hargs => ?_
    split
    · exact spreadAttributes_each h site hcall.args m (hplain hargs)
    · exact .pure (hplain hargs)
  · refine .bind (.lift fun args => holds_boundArguments h hscope hb) fun args hargs => ?_
    split
    · exact spreadAttributes_each h site hcall.args m (hplain hargs)
    · exact .pure (hplain hargs)

end Expansion

end Actuals

end Stencil
