import Stencil.Proofs.Compile.Marks

/-! What successes of a rendering keep of its state and say about its result, put together from its steps. -/

namespace Stencil.Rendering

variable {α β : Type} {I : Progress → Prop} {R : α → Prop} {S : β → Prop} {m : Rendering α}

/-- From a state with `I`, a success leads to a state with `I` and gives a result with `R`. -/
def Keeps (I : Progress → Prop) (R : α → Prop) (m : Rendering α) : Prop :=
  ∀ ⦃p q : Progress⦄ ⦃a : α⦄, I p → m.run p = (.ok a, q) → I q ∧ R a

namespace Keeps

theorem pure {a : α} (h : R a) : Keeps I R (Pure.pure a) := by
  intro p q b hp hrun
  cases hrun
  exact ⟨hp, h⟩

theorem throw (f : Failure) : Keeps I R (throw f : Rendering α) := by
  intro p q b _ hrun
  cases hrun

theorem lift {e : Except Failure α} (h : ∀ a, e = .ok a → R a) : Keeps I R (liftM e : Rendering α) := by
  intro p q a hp hrun
  obtain ⟨he, rfl⟩ := lift_run_ok hrun
  exact ⟨hp, h a he⟩

theorem bind {k : α → Rendering β} (hm : Keeps I R m) (hk : ∀ a, R a → Keeps I S (k a)) : Keeps I S (m >>= k) := by
  intro p q b hp hrun
  obtain ⟨a, r, hrun₁, hrun₂⟩ := bind_run_ok hrun
  obtain ⟨hr, ha⟩ := hm hp hrun₁
  exact hk a ha hr hrun₂

theorem get {k : Progress → Rendering β} (hk : ∀ p, I p → Keeps I S (k p)) : Keeps I S (MonadState.get >>= k) :=
  fun p _ _ hp hrun => hk p hp hp hrun

theorem modify {u : Progress → Progress} (hu : ∀ p, I p → I (u p)) :
    Keeps I (fun _ => True) (modify u : Rendering Unit) := by
  intro p q a hp hrun
  cases hrun
  exact ⟨hu p hp, trivial⟩

theorem mono {R' : α → Prop} (h : Keeps I R m) (hR : ∀ a, R a → R' a) : Keeps I R' m := by
  intro p q a hp hrun
  obtain ⟨hq, ha⟩ := h hp hrun
  exact ⟨hq, hR a ha⟩

theorem mapM {f : α → Rendering β} {xs : List α} (h : ∀ x ∈ xs, Keeps I S (f x)) :
    Keeps I (fun ys => ∀ y ∈ ys, S y) (xs.mapM f) := by
  induction xs with
  | nil => exact pure (List.forall_mem_nil _)
  | cons x xs ih =>
    obtain ⟨hx, hxs⟩ := List.forall_mem_cons.mp h
    rw [List.mapM_cons]
    exact bind hx fun y hy => bind (ih hxs) fun ys hys => pure (List.forall_mem_cons.mpr ⟨hy, hys⟩)

theorem forM {f : α → Rendering PUnit} (xs : List α) (h : ∀ x, Keeps I (fun _ => True) (f x)) :
    Keeps I (fun _ => True) (xs.forM f) := by
  induction xs with
  | nil => exact pure trivial
  | cons x xs ih => exact bind (h x) fun _ _ => ih

end Keeps

def Added (A : List Addition → Prop) (p : Progress) : Prop := A p.additions

variable {A : List Addition → Prop}

theorem say_keeps (topic : Topic) (line : Bytes) : Keeps (Added A) (fun _ => True) (say topic line) :=
  .modify fun _ hp => hp

theorem require_keeps (env : Environment) (site : Option Site) (name : Bytes) :
    Keeps (Added A) (· = env.settings.storage.accessor name) (require env site name) := by
  intro p q accessor hp hrun
  obtain ⟨rfl, ledger, -, rfl⟩ := require_eq_ok hrun
  exact ⟨hp, rfl⟩

theorem mark_keeps (env : Environment) (origin : Option Origin) :
    Keeps (Added A) (fun t => t = [] ∨ ∃ id, t = Page.mark id) (mark env origin) := by
  cases origin with
  | none => exact .pure (.inl rfl)
  | some o =>
    intro p q t hp hrun
    cases hrun
    exact ⟨hp, .inr ⟨_, rfl⟩⟩

theorem freshKey_keeps : Keeps (Added A) (fun t => ∃ n, t = "$__pug_key_" ++ Bytes.ofNat n) freshKey :=
  .get fun p _ => .bind (.modify fun _ hp => hp) fun _ _ => .pure ⟨p.keys, rfl⟩

theorem freshScope_keeps : Keeps (Added A) (fun _ => True) freshScope :=
  .get fun _ _ => .bind (.modify fun _ hp => hp) fun _ _ => .pure trivial

end Stencil.Rendering
