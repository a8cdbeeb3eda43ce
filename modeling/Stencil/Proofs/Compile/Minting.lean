import Stencil.Proofs.Compile.Inks
import Stencil.Proofs.Compile.Weaving

/-! Numbers of temporaries. Two counters only ever go up while a tree is rendered, so a step draws temporaries that no step
before it has drawn; most steps draw none. -/

namespace Stencil

open Rendering (Keeps)

namespace Rendering

variable {α β : Type} {I : Progress → Prop}

/-- The numbers of the temporaries in use are these. -/
def Counted (keys scopes : Nat) (p : Progress) : Prop := p.keys = keys ∧ p.scopes = scopes

def Idle (m : Rendering α) : Prop := ∀ keys scopes, Keeps (Counted keys scopes) (fun _ => True) m

namespace Idle

variable {m : Rendering α}

theorem pure (a : α) : Idle (Pure.pure a) := fun _ _ => .pure trivial

theorem throw (f : Failure) : Idle (throw f : Rendering α) := fun _ _ => .throw f

theorem lift (e : Except Failure α) : Idle (liftM e : Rendering α) := fun _ _ => .lift fun _ _ => trivial

theorem bind {k : α → Rendering β} (hm : Idle m) (hk : ∀ a, Idle (k a)) : Idle (m >>= k) :=
  fun keys scopes => .bind (hm keys scopes) fun a _ => hk a keys scopes

theorem get {k : Progress → Rendering β} (hk : ∀ p, Idle (k p)) : Idle (MonadState.get >>= k) :=
  fun keys scopes => .get fun p _ => hk p keys scopes

theorem modify {u : Progress → Progress} (hkeys : ∀ p, (u p).keys = p.keys) (hscopes : ∀ p, (u p).scopes = p.scopes) :
    Idle (modify u : Rendering Unit) :=
  fun _ _ => .modify fun p hp => ⟨(hkeys p).trans hp.1, (hscopes p).trans hp.2⟩

theorem forM {f : α → Rendering PUnit} (xs : List α) (h : ∀ x, Idle (f x)) : Idle (xs.forM f) :=
  fun keys scopes => .forM xs fun x => h x keys scopes

end Idle

theorem say_idle (topic : Topic) (line : Bytes) : Idle (say topic line) := .modify (fun _ => rfl) fun _ => rfl

theorem require_idle (env : Environment) (site : Option Site) (name : Bytes) : Idle (require env site name) := by
  intro keys scopes p q accessor hp hrun
  obtain ⟨-, ledger, -, rfl⟩ := require_eq_ok hrun
  exact ⟨hp, trivial⟩

theorem mark_idle (env : Environment) (origin : Option Origin) : Idle (mark env origin) := by
  cases origin with
  | none => exact .pure _
  | some o => exact .bind (.modify (fun _ => rfl) fun _ => rfl) fun _ => .get fun _ => .pure _

theorem attributesOf_idle (owner : NodeId) (attributes : List Attribute) : Idle (attributesOf owner attributes) :=
  .get fun _ => .pure _

end Rendering

open Rendering (Idle)

theorem Handler.Script.run_idle (env : Environment) (owner : NodeId) (script : Handler.Script) :
    Idle (script.run env owner) := by
  induction script with
  | finish taken => exact .pure taken
  | fail f => exact .throw f
  | add a next ih => exact .bind (.modify (fun _ => rfl) fun _ => rfl) fun _ => ih
  | require helper next ih =>
    rw [run]
    refine .get fun p => ?_
    split
    · exact ih _
    · exact .bind (.modify (fun _ => rfl) fun _ => rfl) fun _ => ih _

namespace Attributes

theorem offer_idle (env : Environment) (owner : NodeId) (attributes : List Attribute) (a : Assignment) (index : Nat)
    (handlers : List Handler) : Idle (offer env owner attributes a index handlers) := by
  induction handlers generalizing index with
  | nil => exact .pure false
  | cons handler handlers ih =>
    have hrun : Idle (handler.run env owner attributes a) := by
      rw [Handler.run]
      split
      · exact .pure false
      · exact .bind (Rendering.attributesOf_idle owner attributes) fun all => Handler.Script.run_idle env owner _
    rw [offer]
    refine .bind hrun fun taken => ?_
    split
    · exact .bind (Rendering.say_idle _ _) fun _ => .pure true
    · exact ih (index + 1)

theorem pending_idle (env : Environment) (owner : NodeId) (attributes : List Attribute) (assignments : List Assignment) :
    Idle (pending env owner attributes assignments) := by
  induction assignments with
  | nil => exact .pure []
  | cons a rest ih =>
    rw [pending]
    refine .bind (offer_idle _ _ _ _ _ _) fun taken => ?_
    split
    · exact ih
    · split
      · exact .bind ih fun left => .pure (a :: left)
      · exact .throw _

end Attributes

namespace Expansion

theorem listCode_idle (call : Call) (codes : List (Argument × Bytes)) : Idle (listCode call codes) := by
  have hsay (c : Argument × Bytes) : Idle
      (if c.1.packed then Rendering.say .mixin (call.name ++ ": spreading " ++ c.1.code.source ++ " at runtime")
        else pure PUnit.unit) := by
    split
    · exact Rendering.say_idle _ _
    · exact .pure _
  exact .bind (.forM codes hsay) fun _ => .pure _

theorem spreadArguments_idle (env : Environment) (call : Call) : Idle (spreadArguments env call) := by
  rw [spreadArguments]
  refine .bind (.lift _) fun codes => ?_
  split
  · exact .bind (listCode_idle call codes) fun list => .pure _
  · exact .pure _

theorem attributes_idle (env : Environment) (scope : Scope) (id : NodeId) (site : Site) (call : Call) (m : Mixin)
    (b : Binding) : Idle (attributes env scope id site call m b) := by
  rw [attributes]
  refine .bind (Attributes.pending_idle _ _ _ _) fun assignments => .bind (.lift _) fun cs => ?_
  split
  · exact .pure _
  · split
    · split
      · exact .pure _
      · exact .bind (Rendering.require_idle _ _ _) fun accessor => .pure _
    · exact .bind (Rendering.require_idle _ _ _) fun accessor => .pure _

end Expansion

/-- The number of the temporary is one that was not in use before and is after. -/
def Temporary.Between (v : Temporary) (p q : Progress) : Prop :=
  match v.family with
  | .key => p.keys ≤ v.number ∧ v.number < q.keys
  | .scope | .args => p.scopes ≤ v.number ∧ v.number < q.scopes

/-- The temporaries are drawn from one state to another, none of them twice. -/
structure Drawn (p q : Progress) (V : List Temporary) : Prop where
  keys : p.keys ≤ q.keys
  scopes : p.scopes ≤ q.scopes
  nodup : V.Nodup
  between : ∀ v ∈ V, v.Between p q

namespace Drawn

variable {p q r : Progress} {V W : List Temporary}

theorem none (hkeys : q.keys = p.keys) (hscopes : q.scopes = p.scopes) : Drawn p q [] :=
  ⟨hkeys.ge, hscopes.ge, List.nodup_nil, List.forall_mem_nil _⟩

theorem append (hV : Drawn p r V) (hW : Drawn r q W) : Drawn p q (V ++ W) where
  keys := hV.keys.trans hW.keys
  scopes := hV.scopes.trans hW.scopes
  nodup := by
    refine hV.nodup.append hW.nodup fun v hv hw => ?_
    have hbefore := hV.between v hv
    have hafter := hW.between v hw
    obtain ⟨family, n⟩ := v
    cases family <;> exact absurd hafter.1 (Nat.not_le.mpr hbefore.2)
  between := by
    refine List.forall_mem_append.mpr ⟨fun v hv => ?_, fun v hv => ?_⟩
    · have hbetween := hV.between v hv
      obtain ⟨family, n⟩ := v
      cases family
      · exact ⟨hbetween.1, hbetween.2.trans_le hW.keys⟩
      all_goals exact ⟨hbetween.1, hbetween.2.trans_le hW.scopes⟩
    · have hbetween := hW.between v hv
      obtain ⟨family, n⟩ := v
      cases family
      · exact ⟨hV.keys.trans hbetween.1, hbetween.2⟩
      all_goals exact ⟨hV.scopes.trans hbetween.1, hbetween.2⟩

end Drawn

namespace Rendering

variable {α β : Type}

/-- From a state with `I`, a success leads to a state with `I`, and `R` holds of the temporaries drawn and the result. -/
def Mints (I : Progress → Prop) (R : List Temporary → α → Prop) (m : Rendering α) : Prop :=
  ∀ ⦃p q : Progress⦄ ⦃a : α⦄, I p → m.run p = (.ok a, q) → I q ∧ ∃ V, Drawn p q V ∧ R V a

namespace Mints

variable {I : Progress → Prop} {R : List Temporary → α → Prop} {S : List Temporary → β → Prop} {m : Rendering α}

theorem of_keeps {R : α → Prop} (h : Keeps I R m) (hidle : Idle m) : Mints I (fun V a => V = [] ∧ R a) m := by
  intro p q a hp hrun
  obtain ⟨hq, ha⟩ := h hp hrun
  obtain ⟨hkeys, hscopes⟩ := (hidle p.keys p.scopes ⟨rfl, rfl⟩ hrun).1
  exact ⟨hq, [], .none hkeys hscopes, rfl, ha⟩

theorem mono {R' : List Temporary → α → Prop} (h : Mints I R m) (hR : ∀ V a, R V a → R' V a) : Mints I R' m := by
  intro p q a hp hrun
  obtain ⟨hq, V, hV, ha⟩ := h hp hrun
  exact ⟨hq, V, hV, hR V a ha⟩

theorem bind {k : α → Rendering β} (hm : Mints I R m) (hk : ∀ V a, R V a → Mints I (fun W b => S (V ++ W) b) (k a)) :
    Mints I S (m >>= k) := by
  intro p q b hp hrun
  obtain ⟨a, r, hrun₁, hrun₂⟩ := bind_run_ok hrun
  obtain ⟨hr, V, hV, ha⟩ := hm hp hrun₁
  obtain ⟨hq, W, hW, hb⟩ := hk V a ha hr hrun₂
  exact ⟨hq, V ++ W, hV.append hW, hb⟩

theorem pure {a : α} (h : R [] a) : Mints I R (Pure.pure a) :=
  (of_keeps (R := (· = a)) (.pure rfl) (.pure a)).mono fun _ _ ⟨hV, ha⟩ => hV ▸ ha ▸ h

theorem throw (f : Failure) : Mints I R (throw f : Rendering α) := by
  intro p q a _ hrun
  cases hrun

theorem idle {k : α → Rendering β} {R : α → Prop} (hm : Keeps I R m) (hidle : Idle m)
    (hk : ∀ a, R a → Mints I S (k a)) : Mints I S (m >>= k) :=
  .bind (of_keeps hm hidle) fun _ a ⟨hV, ha⟩ => hV ▸ hk a ha

theorem lift {e : Except Failure α} (h : ∀ a, e = .ok a → R [] a) : Mints I R (liftM e : Rendering α) :=
  (of_keeps (.lift h) (.lift e)).mono fun _ _ ⟨hV, ha⟩ => hV ▸ ha

theorem get {k : Progress → Rendering β} (hk : ∀ p, I p → Mints I S (k p)) : Mints I S (MonadState.get >>= k) :=
  fun p _ _ hp hrun => hk p hp hp hrun

/-- Renderings of members one after the other, where what is said of two texts holds of them put together. -/
theorem flatten {R : List Temporary → Bytes → Prop} (hnil : R [] [])
    (happend : ∀ {V W s t}, R V s → R W t → R (V ++ W) (s ++ t)) {f : α → Rendering Bytes} {xs : List α}
    (h : ∀ x ∈ xs, Mints I R (f x)) : Mints I (fun V texts => R V texts.flatten) (xs.mapM f) := by
  induction xs with
  | nil => exact pure hnil
  | cons x xs ih =>
    obtain ⟨hx, hxs⟩ := List.forall_mem_cons.mp h
    rw [List.mapM_cons]
    refine bind hx fun V text htext => bind (ih hxs) fun W texts htexts => pure ?_
    rw [List.append_nil]
    exact happend htext htexts

end Mints

variable {P S : Bytes → Prop}

theorem freshKey_mints : Mints (Progress.Each P S) (fun V t => ∃ n, V = [⟨.key, n⟩] ∧ t = Temporary.name ⟨.key, n⟩) freshKey := by
  intro p q t hp hrun
  cases hrun
  refine ⟨hp, [⟨.key, p.keys⟩], ⟨Nat.le_succ _, le_refl _, List.nodup_singleton _, ?_⟩, p.keys, rfl, rfl⟩
  exact List.forall_mem_singleton.mpr ⟨le_refl _, Nat.lt_succ_self _⟩

theorem freshScope_mints (family : Temporary.Family) (hfamily : family ≠ .key) :
    Mints (Progress.Each P S) (fun V n => V = [⟨family, n⟩]) freshScope := by
  intro p q n hp hrun
  cases hrun
  refine ⟨hp, [⟨family, p.scopes⟩], ⟨le_refl _, Nat.le_succ _, List.nodup_singleton _, ?_⟩, rfl⟩
  refine List.forall_mem_singleton.mpr ?_
  cases family with
  | key => exact absurd rfl hfamily
  | scope | args => exact ⟨le_refl _, Nat.lt_succ_self _⟩

end Rendering

end Stencil
