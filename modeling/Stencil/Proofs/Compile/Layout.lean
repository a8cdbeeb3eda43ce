import Stencil.Proofs.Compile.Marks
import Stencil.Proofs.Compile.Texts

/-! Where nodes stand in a rendered text. The text of a tree without null bytes is made of bytes and of the texts of the
nodes with an origin, each behind its mark and with those of the nodes inside it. Templates pass a text on whole, so that
every node that is written stands there just once, whatever it is put into. -/

namespace Stencil

open Bytes (nullFree_nil nullFree_cons nullFree_append nullFree_flatten nullFree_join nullFree_ofNat)

/-- A node in a rendered text: its fragment, and the text behind its mark. -/
structure Spot where
  id : Nat
  element : Element
  rest : Bytes

namespace Spot

def number (s : Spot) : Nat × Element := (s.id, s.element)

/-- What may stand before the mark of a node: the line break of a tag. -/
def Lead (env : Environment) (scope : Scope) (lead : Bytes) : Prop :=
  lead = [] ∨ env.settings.pretty = true ∧ lead = env.indentation scope

def Marks (e : Element) (t : Bytes) (news : List (Nat × Element)) : Prop :=
  e.origin = none ∧ t = [] ∧ news = [] ∨ ∃ id, e.origin.isSome ∧ t = Page.mark id ∧ news = [(id, e)]

/-- Rendering the node gave this text, with this mark. -/
def Drawn (env : Environment) (s : Spot) : Prop :=
  ∃ budget scope p q lead, Lead env scope lead ∧
    (Render.node env budget scope s.element).run p = (.ok (lead ++ (Page.mark s.id ++ s.rest)), q)

end Spot

/-- The text consists of bytes and of these spots, in the order of their marks. -/
inductive Lays (env : Environment) : Bytes → List Spot → Prop
  | nil : Lays env [] []
  | byte {c : UInt8} {s : Bytes} {spots : List Spot} (hc : c ≠ 0) (h : Lays env s spots) : Lays env (c :: s) spots
  | spot {spot : Spot} {s : Bytes} {inner spots : List Spot} (hdrawn : spot.Drawn env) (hrest : Lays env spot.rest inner)
      (h : Lays env s spots) : Lays env (Page.mark spot.id ++ (spot.rest ++ s)) (spot :: (inner ++ spots))

theorem Lays.append {env : Environment} {s t : Bytes} {spots more : List Spot} (hs : Lays env s spots)
    (ht : Lays env t more) : Lays env (s ++ t) (spots ++ more) := by
  induction hs with
  | nil => exact ht
  | byte hc _ ih => exact .byte hc ih
  | spot hdrawn hrest _ _ ih =>
    rw [List.append_assoc, List.append_assoc, List.cons_append, List.append_assoc]
    exact .spot hdrawn hrest ih

theorem Lays.single {env : Environment} {spot : Spot} {inner : List Spot} (hdrawn : spot.Drawn env)
    (hrest : Lays env spot.rest inner) : Lays env (Page.mark spot.id ++ spot.rest) (spot :: inner) := by
  have h := Lays.spot hdrawn hrest .nil
  rwa [List.append_nil, List.append_nil] at h

theorem Lays.drawn {env : Environment} {t : Bytes} {spots : List Spot} (h : Lays env t spots) :
    ∀ s ∈ spots, s.Drawn env := by
  induction h with
  | nil => exact List.forall_mem_nil _
  | byte _ _ ih => exact ih
  | spot hdrawn _ _ ihrest ih => exact List.forall_mem_cons.mpr ⟨hdrawn, List.forall_mem_append.mpr ⟨ihrest, ih⟩⟩

theorem lays_of_nullFree {env : Environment} {s : Bytes} (h : s.NullFree) : Lays env s [] := by
  induction s with
  | nil => exact .nil
  | cons c s ih =>
    obtain ⟨hc, hs⟩ := nullFree_cons.mp h
    exact .byte hc (ih hs)

/-- The nodes that stand in a text, in order, with their numbers. -/
def Shown (env : Environment) (es : List Element) (t : Bytes) (news : List (Nat × Element)) : Prop :=
  ∃ spots, Lays env t spots ∧ spots.map Spot.number = news ∧ news.map (·.2) = es

namespace Shown

variable {env : Environment} {es es' : List Element} {s t : Bytes} {news more : List (Nat × Element)}

theorem of_nullFree (h : t.NullFree) : Shown env [] t [] := ⟨[], lays_of_nullFree h, rfl, rfl⟩

theorem append (hs : Shown env es s news) (ht : Shown env es' t more) :
    Shown env (es ++ es') (s ++ t) (news ++ more) := by
  obtain ⟨spots, hspots, rfl, rfl⟩ := hs
  obtain ⟨spots', hspots', rfl, rfl⟩ := ht
  exact ⟨spots ++ spots', hspots.append hspots', List.map_append, List.map_append⟩

end Shown

/-- The fragments `news` were numbered after those of `l`, each once and with the origin of its node. -/
structure Fresh (env : Environment) (l l' : Ledger) (news : List (Nat × Element)) : Prop where
  grow : l.fragments.toList <+: l'.fragments.toList
  after : ∀ n ∈ news, l.fragments.size < n.1
  origin : ∀ n ∈ news, ∃ o, n.2.origin = some o ∧ Page.fragment? l'.fragments n.1 = some (env.settings.complete o)
  distinct : (news.map (·.1)).Nodup

namespace Fresh

variable {env : Environment} {l l' l'' : Ledger} {news more all : List (Nat × Element)}

theorem of_eq (h : l'.fragments = l.fragments) : Fresh env l l' [] :=
  ⟨by rw [h], List.forall_mem_nil _, List.forall_mem_nil _, List.nodup_nil⟩

theorem le_size (h : Fresh env l l' news) : ∀ n ∈ news, n.1 ≤ l'.fragments.size := by
  intro n hn
  obtain ⟨o, -, hfragment⟩ := h.origin n hn
  have hsome := (Page.isSome_fragment? l'.fragments n.1).mp (by rw [hfragment]; rfl)
  omega

theorem size_le (h : Fresh env l l' news) : l.fragments.size ≤ l'.fragments.size := h.grow.length_le

theorem trans (h : Fresh env l l' news) (h' : Fresh env l' l'' more) (hall : all.Perm (news ++ more)) :
    Fresh env l l'' all where
  grow := h.grow.trans h'.grow
  after n hn := by
    rcases List.mem_append.mp (hall.mem_iff.mp hn) with hn | hn
    · exact h.after n hn
    · exact h.size_le.trans_lt (h'.after n hn)
  origin n hn := by
    rcases List.mem_append.mp (hall.mem_iff.mp hn) with hn | hn
    · obtain ⟨o, ho, hfragment⟩ := h.origin n hn
      exact ⟨o, ho, Page.fragment?_of_prefix h'.grow hfragment⟩
    · exact h'.origin n hn
  distinct := by
    rw [(hall.map _).nodup_iff, List.map_append, List.nodup_append]
    refine ⟨h.distinct, h'.distinct, fun i hi j hj hij => ?_⟩
    obtain ⟨n, hn, rfl⟩ := List.mem_map.mp hi
    obtain ⟨n', hn', rfl⟩ := List.mem_map.mp hj
    -- What is numbered later comes after all fragments there were by then.
    have hbefore := h.le_size n hn
    have hafter := h'.after n' hn'
    omega

end Fresh

def Progress.NullFree (p : Progress) : Prop := ∀ a ∈ p.additions, a.toAttribute.NullFree

namespace Rendering

variable {α β : Type} {env : Environment} {Q : α → List (Nat × Element) → Prop} {S : β → List (Nat × Element) → Prop}
  {R : α → Prop} {m : Rendering α}

/-- What a success gives, and the fragments it numbers, satisfy `Q`. -/
def Draws (env : Environment) (Q : α → List (Nat × Element) → Prop) (m : Rendering α) : Prop :=
  ∀ ⦃p q : Progress⦄ ⦃a : α⦄, p.NullFree → m.run p = (.ok a, q) →
    q.NullFree ∧ ∃ news, Fresh env p.ledger q.ledger news ∧ Q a news

/-- What a success gives satisfies `R`, and it numbers no fragments. -/
abbrev Gives (env : Environment) (R : α → Prop) (m : Rendering α) : Prop := Draws env (fun a news => R a ∧ news = []) m

namespace Draws

theorem pure {a : α} (h : Q a []) : Draws env Q (Pure.pure a) := by
  intro p q b hp hrun
  cases hrun
  exact ⟨hp, [], .of_eq rfl, h⟩

theorem throw (f : Failure) : Draws env Q (throw f : Rendering α) := by
  intro p q b _ hrun
  cases hrun

theorem lift {e : Except Failure α} (h : ∀ a, e = .ok a → Q a []) : Draws env Q (liftM e : Rendering α) := by
  intro p q a hp hrun
  obtain ⟨he, rfl⟩ := lift_run_ok hrun
  exact ⟨hp, [], .of_eq rfl, h a he⟩

theorem gives_lift {e : Except Failure α} (h : ∀ a, e = .ok a → R a) : Gives env R (liftM e : Rendering α) :=
  lift fun a ha => ⟨h a ha, rfl⟩

/-- One rendering after another; the fragments of both may stand in any order. -/
theorem seq {k : α → Rendering β} (hm : Draws env Q m)
    (hk : ∀ a news, Q a news → Draws env (fun b more => ∃ all, all.Perm (news ++ more) ∧ S b all) (k a)) :
    Draws env S (m >>= k) := by
  intro p q b hp hrun
  obtain ⟨a, r, hrun₁, hrun₂⟩ := bind_run_ok hrun
  obtain ⟨hr, news, hnews, ha⟩ := hm hp hrun₁
  obtain ⟨hq, more, hmore, all, hall, hb⟩ := hk a news ha hr hrun₂
  exact ⟨hq, all, hnews.trans hmore hall, hb⟩

theorem bind {k : α → Rendering β} (hm : Gives env R m) (hk : ∀ a, R a → Draws env S (k a)) : Draws env S (m >>= k) := by
  intro p q b hp hrun
  obtain ⟨a, r, hrun₁, hrun₂⟩ := bind_run_ok hrun
  obtain ⟨hr, news, hnews, ha, rfl⟩ := hm hp hrun₁
  obtain ⟨hq, more, hmore, hb⟩ := hk a ha hr hrun₂
  exact ⟨hq, more, hnews.trans hmore (.refl _), hb⟩

theorem followedBy {k : α → Rendering β} (hm : Draws env Q m)
    (hk : ∀ a news, Q a news → Gives env (fun b => S b news) (k a)) : Draws env S (m >>= k) := by
  refine seq hm fun a news ha p q b hp hrun => ?_
  obtain ⟨hq, more, hmore, hb, rfl⟩ := hk a news ha hp hrun
  exact ⟨hq, [], hmore, news, by rw [List.append_nil], hb⟩

theorem gives_pure {a : α} (h : R a) : Gives env R (Pure.pure a) := pure ⟨h, rfl⟩

theorem get {k : Progress → Rendering β} (hk : ∀ p, p.NullFree → Draws env S (k p)) :
    Draws env S (MonadState.get >>= k) := fun p _ _ hp hrun => hk p hp hp hrun

theorem modify {u : Progress → Progress} (hu : ∀ p, p.NullFree → (u p).NullFree)
    (hfragments : ∀ p, (u p).ledger.fragments = p.ledger.fragments) :
    Gives env (fun _ => True) (modify u : Rendering Unit) := by
  intro p q a hp hrun
  cases hrun
  exact ⟨hu p hp, [], .of_eq (hfragments p), trivial, rfl⟩

theorem mapM {f : α → Rendering β} {R : β → Prop} {xs : List α} (h : ∀ x ∈ xs, Gives env R (f x)) :
    Gives env (fun ys => ∀ y ∈ ys, R y) (xs.mapM f) := by
  induction xs with
  | nil => exact gives_pure (List.forall_mem_nil _)
  | cons x xs ih =>
    obtain ⟨hx, hxs⟩ := List.forall_mem_cons.mp h
    rw [List.mapM_cons]
    exact bind hx fun y hy => bind (ih hxs) fun ys hys => gives_pure (List.forall_mem_cons.mpr ⟨hy, hys⟩)

end Draws

theorem say_draws (topic : Topic) (line : Bytes) : Gives env (fun _ => True) (say topic line) :=
  .modify (fun _ hp => hp) fun _ => rfl

theorem require_draws (h : env.NullFree) (site : Option Site) {name : Bytes} (hname : name.NullFree) :
    Gives env Bytes.NullFree (require env site name) := by
  intro p q a hp hrun
  have hfragments := (require_run_ok hrun).2
  obtain ⟨rfl, ledger, -, rfl⟩ := require_eq_ok hrun
  exact ⟨hp, [], .of_eq hfragments, h.settings.accessor name hname, rfl⟩

theorem mark_draws (env : Environment) (e : Element) : Draws env (Spot.Marks e) (mark env e.origin) := by
  cases ho : e.origin with
  | none => exact .pure (.inl ⟨ho, rfl, rfl⟩)
  | some o =>
    intro p q a hp hrun
    cases hrun
    refine ⟨hp, [(p.ledger.fragments.size + 1, e)], ⟨?_, ?_, ?_, ?_⟩, .inr ⟨_, by rw [ho]; rfl, ?_, rfl⟩⟩
    · exact (Ledger.extends_addFragment p.ledger (env.settings.complete o)).fragments
    · simp
    · refine List.forall_mem_singleton.mpr ⟨o, ho, ?_⟩
      have hid : ((p.ledger.fragments.size + 1 : Nat) : Int) - 1 = (p.ledger.fragments.size : Nat) := by omega
      rw [Page.fragment?, if_neg (by omega), hid, Int.toNat_natCast]
      simp [Ledger.addFragment, Settings.complete]
    · exact List.nodup_singleton _
    · exact congrArg Page.mark (Array.size_push _)

theorem freshKey_draws : Gives env Bytes.NullFree freshKey := by
  refine .get fun p _ => .bind (.modify (fun _ hp => hp) fun _ => rfl) fun _ _ => .gives_pure ?_
  exact nullFree_append.mpr ⟨by decide, nullFree_ofNat _⟩

theorem freshScope_draws : Gives env (fun _ => True) freshScope :=
  .get fun _ _ => .bind (.modify (fun _ hp => hp) fun _ => rfl) fun _ _ => .gives_pure trivial

end Rendering

end Stencil
