import Stencil.Compile.Progress
import Mathlib.Tactic

/-! Renderings compared. A rendering follows another if from states that agree it gives the same result and leaves
states that agree; states agree if they differ in the log and in helpers that one of them required before. On the way
helpers and fragments are only added, and the fragments of a success are told. Following is kept by every way of
putting renderings together. -/

namespace Stencil

/-- The ledgers differ in their logs alone. -/
structure Ledger.Alike (l l' : Ledger) : Prop where
  helpers : l.helpers = l'.helpers
  fragments : l.fragments = l'.fragments

/-- Helpers were required and fragments numbered after those of `l`, no helper twice, and none was declared. -/
structure Ledger.Extends (l l' : Ledger) : Prop where
  declared : l'.helpers.declared = l.helpers.declared
  required : l.helpers.required <+: l'.helpers.required
  distinct : l.helpers.required.Nodup → l'.helpers.required.Nodup
  fragments : l.fragments.toList <+: l'.fragments.toList

/-- The ledgers differ in their logs, and in that for `l'` the helpers `base` were required before all others. -/
structure Ledger.Ahead (base : List Bytes) (l l' : Ledger) : Prop where
  declared : l.helpers.declared = l'.helpers.declared
  required : l'.helpers.required = base ++ l.helpers.required.removeAll base
  fragments : l.fragments = l'.fragments

structure Progress.Ahead (base : List Bytes) (p p' : Progress) : Prop where
  ledger : p.ledger.Ahead base p'.ledger
  additions : p.additions = p'.additions
  nextNode : p.nextNode = p'.nextNode
  keys : p.keys = p'.keys
  scopes : p.scopes = p'.scopes
  blockSeen : p.blockSeen = p'.blockSeen

def Helper.noted (required : List Bytes) (name : Bytes) : List Bytes :=
  if name ∈ required then required else required ++ [name]

namespace Helper

theorem prefix_noted (required : List Bytes) (name : Bytes) : required <+: noted required name := by
  rw [noted]
  split
  · exact List.prefix_refl _
  · exact List.prefix_append _ _

theorem mem_noted (required : List Bytes) (name : Bytes) : name ∈ noted required name := by
  rw [noted]
  split
  · assumption
  · simp

theorem nodup_noted {required : List Bytes} {name : Bytes} (h : required.Nodup) : (noted required name).Nodup := by
  rw [noted]
  split
  · exact h
  · exact List.nodup_append.mpr ⟨h, List.nodup_singleton _, by grind⟩

/-- What was required before changes nothing in the order of the others. -/
theorem noted_ahead (base required : List Bytes) (name : Bytes) :
    noted (base ++ required.removeAll base) name = base ++ (noted required name).removeAll base := by
  by_cases hbase : name ∈ base
  · rw [noted, if_pos (List.mem_append_left _ hbase), noted]
    split
    · rfl
    · simp [List.removeAll, hbase]
  by_cases hrequired : name ∈ required
  · have hmem : name ∈ required.removeAll base := by simp [List.removeAll, hrequired, hbase]
    rw [noted, if_pos (List.mem_append_right _ hmem), noted, if_pos hrequired]
  · have hmem : name ∉ base ++ required.removeAll base := by simp [List.removeAll, hrequired, hbase]
    rw [noted, if_neg hmem, noted, if_neg hrequired]
    simp [List.removeAll, hbase]

end Helper

namespace Ledger

variable {l l' l'' : Ledger} {base : List Bytes}

theorem Alike.refl (l : Ledger) : l.Alike l := ⟨rfl, rfl⟩

theorem Alike.trans (h : l.Alike l') (h' : l'.Alike l'') : l.Alike l'' :=
  ⟨h.helpers.trans h'.helpers, h.fragments.trans h'.fragments⟩

theorem Alike.symm (h : l.Alike l') : l'.Alike l := ⟨h.helpers.symm, h.fragments.symm⟩

theorem alike_say (l : Ledger) (topic : Topic) (line : Bytes) : l.Alike (l.say topic line) := ⟨rfl, rfl⟩

theorem Alike.say (h : l.Alike l') (topic : Topic) (line : Bytes) : (l.say topic line).Alike (l'.say topic line) :=
  ⟨h.helpers, h.fragments⟩

theorem ahead_nil_iff : l.Ahead [] l' ↔ l.Alike l' := by
  have hall : l.helpers.required.removeAll [] = l.helpers.required := by simp [List.removeAll]
  refine ⟨fun h => ⟨?_, h.fragments⟩, fun h => ⟨by rw [h.helpers], by rw [hall, h.helpers]; rfl, h.fragments⟩⟩
  have hrequired := h.required
  rw [hall, List.nil_append] at hrequired
  rcases hl : l.helpers with ⟨declared, required⟩
  rcases hl' : l'.helpers with ⟨declared', required'⟩
  have hdeclared := h.declared
  rw [hl, hl'] at hrequired hdeclared
  rw [show declared = declared' from hdeclared, show required = required' from hrequired.symm]

theorem Ahead.of_alike (h : l.Ahead base l') {k k' : Ledger} (hk : l.Alike k) (hk' : l'.Alike k') : k.Ahead base k' := by
  refine ⟨?_, ?_, ?_⟩
  · rw [← hk.helpers, ← hk'.helpers, h.declared]
  · rw [← hk.helpers, ← hk'.helpers, h.required]
  · rw [← hk.fragments, ← hk'.fragments, h.fragments]

theorem Extends.refl (l : Ledger) : l.Extends l := ⟨rfl, List.prefix_refl _, id, List.prefix_refl _⟩

theorem Extends.trans (h : l.Extends l') (h' : l'.Extends l'') : l.Extends l'' :=
  ⟨h'.declared.trans h.declared, h.required.trans h'.required, h'.distinct ∘ h.distinct,
    h.fragments.trans h'.fragments⟩

theorem Alike.extends (h : l.Alike l') : l.Extends l' := by
  refine ⟨by rw [h.helpers], ?_, ?_, ?_⟩
  · rw [h.helpers]
  · rw [h.helpers]
    exact id
  · rw [h.fragments]

theorem extends_addFragment (l : Ledger) (o : Origin) : l.Extends (l.addFragment o) :=
  ⟨rfl, List.prefix_refl _, id, ⟨[o], by simp [addFragment]⟩⟩

theorem require_cases (l : Ledger) (site : Option Site) (name : Bytes) :
    l.helpers.isDeclared name = false ∧ l.require site name = .error (.ofHelper site (.unknown name none)) ∨
    l.helpers.isDeclared name = true ∧ ∃ r, l.require site name = .ok r ∧
      r.helpers = ⟨l.helpers.declared, Helper.noted l.helpers.required name⟩ ∧ r.fragments = l.fragments := by
  rw [require, Helper.Registry.require]
  cases hdeclared : l.helpers.isDeclared name with
  | false => exact .inl ⟨rfl, rfl⟩
  | true =>
    right
    cases hrequired : l.helpers.isRequired name with
    | true =>
      have hmem : name ∈ l.helpers.required := by simpa [Helper.Registry.isRequired] using hrequired
      exact ⟨rfl, l, by simp, by rw [Helper.noted, if_pos hmem], rfl⟩
    | false =>
      have hmem : name ∉ l.helpers.required := by simpa [Helper.Registry.isRequired] using hrequired
      refine ⟨rfl, _, rfl, ?_, rfl⟩
      rw [Helper.noted, if_neg hmem]
      rfl

theorem extends_require {site : Option Site} {name : Bytes} {r : Ledger} (h : l.require site name = .ok r) :
    l.Extends r ∧ r.fragments = l.fragments ∧ name ∈ r.helpers.required := by
  rcases l.require_cases site name with ⟨-, hr⟩ | ⟨-, k, hr, hhelpers, hfragments⟩
  · rw [hr] at h
    cases h
  · obtain rfl : k = r := Except.ok.inj (hr.symm.trans h)
    refine ⟨⟨by rw [hhelpers], ?_, ?_, by rw [hfragments]⟩, hfragments, ?_⟩ <;> rw [hhelpers]
    · exact Helper.prefix_noted ..
    · exact Helper.nodup_noted
    · exact Helper.mem_noted ..

/-- Requiring a helper fails alike in both ledgers, and succeeds alike. -/
theorem require_ahead (h : l.Ahead base l') (site : Option Site) (name : Bytes) :
    (∃ f, l.require site name = .error f ∧ l'.require site name = .error f) ∨
    ∃ r r', l.require site name = .ok r ∧ l'.require site name = .ok r' ∧ r.Ahead base r' := by
  have hdeclared : l'.helpers.isDeclared name = l.helpers.isDeclared name := by
    rw [Helper.Registry.isDeclared, Helper.Registry.isDeclared, h.declared]
  rcases l.require_cases site name with ⟨hd, hr⟩ | ⟨hd, r, hr, hhelpers, hfragments⟩ <;>
    rcases l'.require_cases site name with ⟨hd', hr'⟩ | ⟨hd', r', hr', hhelpers', hfragments'⟩
  · exact .inl ⟨_, hr, hr'⟩
  · rw [hdeclared, hd] at hd'
    cases hd'
  · rw [hdeclared, hd] at hd'
    cases hd'
  · refine .inr ⟨r, r', hr, hr', ⟨by rw [hhelpers, hhelpers', h.declared], ?_, ?_⟩⟩
    · rw [hhelpers, hhelpers', h.required]
      exact Helper.noted_ahead ..
    · rw [hfragments, hfragments', h.fragments]

theorem Extends.rollback (h : l.Extends l') : l.Alike (l'.rollback l) := by
  have hrequired := List.prefix_iff_eq_take.mp h.required
  have hfragments := List.prefix_iff_eq_take.mp h.fragments
  refine ⟨?_, ?_⟩
  · have hcount : ¬ (l.helpers.required.length : Int) < 0 := by omega
    simp only [Ledger.rollback, Helper.Registry.rollback, hcount, if_false, Int.toNat_natCast, h.declared, ← hrequired]
  · apply Array.toList_inj.mp
    simpa [Ledger.rollback] using hfragments

theorem Alike.rollback {before before' : Ledger} (h : l.Alike l') (hb : before.Alike before') :
    (l.rollback before).Alike (l'.rollback before') := by
  simp only [Ledger.rollback, h.helpers, h.fragments, hb.helpers, hb.fragments]
  exact ⟨rfl, rfl⟩

end Ledger

theorem Progress.exists_ahead (base : List Bytes) (p : Progress) : ∃ p', p.Ahead base p' :=
  ⟨{ p with ledger := { p.ledger with
      helpers := ⟨p.ledger.helpers.declared, base ++ p.ledger.helpers.required.removeAll base⟩ } },
    ⟨rfl, rfl, rfl⟩, rfl, rfl, rfl, rfl, rfl⟩

namespace Rendering

variable {α β : Type}

/-- How two renderings are compared: the second starts with the helpers `base` required, and both read the helpers
that are `shared` by the same code. -/
structure Terms where
  base : List Bytes
  shared : Bytes → Prop

/-- From whatever state, the ledger is only added to, and a success numbers fragments with these origins. -/
def Grows (marks : List Origin) (m : Rendering α) : Prop :=
  ∀ p, p.ledger.Extends (m.run p).2.ledger ∧
    ∀ a, (m.run p).1 = .ok a → (m.run p).2.ledger.fragments.toList = p.ledger.fragments.toList ++ marks

/-- The renderings give the same result and leave the second state ahead if it was before, unless the first one
requires a helper that is not shared. -/
structure Follows (c : Terms) (marks : List Origin) (m m' : Rendering α) : Prop where
  grows : Grows marks m
  keeps : ∀ ⦃p p' : Progress⦄, p.Ahead c.base p' →
    (∃ name ∈ (m.run p).2.ledger.helpers.required, ¬ c.shared name) ∨
    (m.run p).1 = (m'.run p').1 ∧ (m.run p).2.Ahead c.base (m'.run p').2

variable {c : Terms} {marks marks' : List Origin}

theorem run_bind (m : Rendering α) (k : α → Rendering β) (p : Progress) :
    (m >>= k).run p = match m.run p with
      | (.ok a, q) => (k a).run q
      | (.error f, q) => (.error f, q) := by
  change (ExceptT.bindCont k (m.run p).1) (m.run p).2 = _
  rcases hm : m.run p with ⟨_ | a, q⟩ <;> rfl

theorem grows_of_still {m : Rendering α} (h : ∀ p : Progress, p.ledger.Alike (m.run p).2.ledger) : Grows [] m := by
  refine fun p => ⟨(h p).extends, fun _ _ => ?_⟩
  rw [← (h p).fragments, List.append_nil]

theorem Follows.pure (a : α) : Follows c [] (Pure.pure a) (Pure.pure a) :=
  ⟨grows_of_still fun _ => .refl _, fun _ _ h => .inr ⟨rfl, h⟩⟩

theorem Follows.throw (f : Failure) : Follows c marks (throw f : Rendering α) (MonadExcept.throw f) :=
  ⟨fun _ => ⟨.refl _, fun a ha => by cases ha⟩, fun _ _ h => .inr ⟨rfl, h⟩⟩

theorem Follows.lift {e e' : Except Failure α} (h : e' = e) :
    Follows c [] (liftM e : Rendering α) (liftM e' : Rendering α) := by
  subst h
  exact ⟨grows_of_still fun _ => .refl _, fun _ _ h => .inr ⟨rfl, h⟩⟩

theorem Grows.bind {m : Rendering α} {k : α → Rendering β} (hm : Grows marks m) (hk : ∀ a, Grows marks' (k a)) :
    Grows (marks ++ marks') (m >>= k) := by
  intro p
  obtain ⟨hgrow, hmarks⟩ := hm p
  rw [run_bind]
  rcases hr : m.run p with ⟨f | a, q⟩
  · rw [hr] at hgrow
    exact ⟨hgrow, fun a ha => by cases ha⟩
  · rw [hr] at hgrow hmarks
    obtain ⟨hgrow', hmarks'⟩ := hk a q
    refine ⟨hgrow.trans hgrow', fun b hb => ?_⟩
    rw [hmarks' b hb, hmarks a rfl, List.append_assoc]

theorem Follows.seq {m m' : Rendering α} {k k' : α → Rendering β} (hm : Follows c marks m m')
    (hk : ∀ a, Follows c marks' (k a) (k' a)) : Follows c (marks ++ marks') (m >>= k) (m' >>= k') := by
  refine ⟨hm.grows.bind fun a => (hk a).grows, fun p p' hp => ?_⟩
  have hkeeps := hm.keeps hp
  rw [run_bind, run_bind]
  rcases hr : m.run p with ⟨f | a, q⟩ <;> rcases hr' : m'.run p' with ⟨f' | a', q'⟩ <;> rw [hr, hr'] at hkeeps
  · rcases hkeeps with hapart | ⟨hresult, hstate⟩
    · exact .inl hapart
    · exact .inr ⟨congrArg Except.error (Except.error.inj hresult), hstate⟩
  · rcases hkeeps with hapart | ⟨hresult, -⟩
    · exact .inl hapart
    · cases hresult
  · rcases hkeeps with ⟨name, hname, hshared⟩ | ⟨hresult, -⟩
    · exact .inl ⟨name, ((hk a).grows q).1.required.subset hname, hshared⟩
    · cases hresult
  · rcases hkeeps with ⟨name, hname, hshared⟩ | ⟨hresult, hstate⟩
    · exact .inl ⟨name, ((hk a).grows q).1.required.subset hname, hshared⟩
    · obtain rfl : a = a' := Except.ok.inj hresult
      exact (hk a).keeps hstate

theorem Follows.bind {m m' : Rendering α} {k k' : α → Rendering β} (hm : Follows c [] m m')
    (hk : ∀ a, Follows c marks (k a) (k' a)) : Follows c marks (m >>= k) (m' >>= k') := hm.seq hk

theorem Follows.then {m m' : Rendering α} {k k' : α → Rendering β} (hm : Follows c marks m m')
    (hk : ∀ a, Follows c [] (k a) (k' a)) : Follows c marks (m >>= k) (m' >>= k') := by
  have h := hm.seq hk
  rwa [List.append_nil] at h

/-- What is read from the state may depend on all of it but the log and the helpers required. -/
theorem Follows.get {k k' : Progress → Rendering β}
    (hk : ∀ p p', p.Ahead c.base p' → Follows c marks (k p) (k' p')) :
    Follows c marks (MonadState.get >>= k) (MonadState.get >>= k') := by
  refine ⟨fun p => ?_, fun p p' hp => (hk p p' hp).keeps hp⟩
  obtain ⟨p', hp⟩ := p.exists_ahead c.base
  exact (hk p p' hp).grows p

theorem Follows.modify {u : Progress → Progress} (h : ∀ p p', p.Ahead c.base p' → (u p).Ahead c.base (u p'))
    (hu : ∀ p : Progress, p.ledger.Alike (u p).ledger) : Follows c [] (modify u : Rendering Unit) (modify u) :=
  ⟨grows_of_still hu, fun p p' hp => .inr ⟨rfl, h p p' hp⟩⟩

theorem Follows.mapM {f f' : α → Rendering β} (h : ∀ a, Follows c [] (f a) (f' a)) (xs : List α) :
    Follows c [] (xs.mapM f) (xs.mapM f') := by
  induction xs with
  | nil => exact .pure []
  | cons x xs ih =>
    rw [List.mapM_cons, List.mapM_cons]
    exact (h x).bind fun a => ih.bind fun as => .pure (a :: as)

theorem Follows.forM {f f' : α → Rendering PUnit} (h : ∀ a, Follows c [] (f a) (f' a)) (xs : List α) :
    Follows c [] (xs.forM f) (xs.forM f') := by
  induction xs with
  | nil => exact .pure ()
  | cons x xs ih => exact (h x).bind fun _ => ih

theorem say_follows (topic : Topic) (line : Bytes) : Follows c [] (say topic line) (say topic line) := by
  refine .modify (fun p p' h => { h with ledger := ?_ }) fun p => p.ledger.alike_say topic line
  exact h.ledger.of_alike (p.ledger.alike_say topic line) (p'.ledger.alike_say topic line)

theorem run_require (env : Environment) (site : Option Site) (name : Bytes) (p : Progress) :
    (require env site name).run p = match p.ledger.require site name with
      | .ok ledger => (.ok (env.settings.storage.accessor name), { p with ledger })
      | .error f => (.error f, p) := by
  change (liftM (p.ledger.require site name) >>= fun ledger => _ : Rendering Bytes).run p = _
  rw [run_bind]
  cases p.ledger.require site name <;> rfl

theorem require_eq_ok {env : Environment} {site : Option Site} {name accessor : Bytes} {p q : Progress}
    (h : (require env site name).run p = (.ok accessor, q)) : accessor = env.settings.storage.accessor name ∧
      ∃ ledger, p.ledger.require site name = .ok ledger ∧ q = { p with ledger } := by
  rw [run_require] at h
  cases hr : p.ledger.require site name with
  | error f =>
    rw [hr] at h
    cases h
  | ok ledger =>
    rw [hr] at h
    cases h
    exact ⟨rfl, ledger, rfl, rfl⟩

theorem require_grows (env : Environment) (site : Option Site) (name : Bytes) : Grows [] (require env site name) := by
  intro p
  rw [run_require]
  cases hr : p.ledger.require site name with
  | error f => exact ⟨.refl _, fun _ _ => (List.append_nil _).symm⟩
  | ok ledger =>
    obtain ⟨hgrow, hfragments, -⟩ := Ledger.extends_require hr
    exact ⟨hgrow, fun _ _ => by rw [hfragments, List.append_nil]⟩

theorem require_follows {env env' : Environment}
    (h : ∀ name, c.shared name → env'.settings.storage.accessor name = env.settings.storage.accessor name)
    (site : Option Site) (name : Bytes) : Follows c [] (require env site name) (require env' site name) := by
  refine ⟨require_grows env site name, fun p p' hp => ?_⟩
  rw [run_require, run_require]
  rcases Ledger.require_ahead hp.ledger site name with ⟨f, hf, hf'⟩ | ⟨r, r', hr, hr', hahead⟩
  · rw [hf, hf']
    exact .inr ⟨rfl, hp⟩
  · rw [hr, hr']
    by_cases hname : c.shared name
    · exact .inr ⟨congrArg Except.ok (h name hname).symm, { hp with ledger := hahead }⟩
    · exact .inl ⟨name, (Ledger.extends_require hr).2.2, hname⟩

end Rendering

def Settings.complete (settings : Settings) (o : Origin) : Origin :=
  if o.file.isEmpty then { o with file := settings.sourceFile } else o

def Settings.fragment (settings : Settings) (origin : Option Origin) : List Origin := origin.toList.map settings.complete

namespace Rendering

variable {c : Terms}

theorem mark_follows {env env' : Environment} (h : env'.settings.sourceFile = env.settings.sourceFile)
    (origin : Option Origin) :
    Follows c (env.settings.fragment origin) (mark env origin) (mark env' origin) := by
  cases origin with
  | none => exact .pure []
  | some o =>
    have hrun : ∀ (env : Environment) (p : Progress), (mark env (some o)).run p =
        (.ok (Page.mark (p.ledger.addFragment (env.settings.complete o)).fragments.size),
          { p with ledger := p.ledger.addFragment (env.settings.complete o) }) := fun _ _ => rfl
    have hcomplete : env'.settings.complete o = env.settings.complete o := by
      rw [Settings.complete, Settings.complete, h]
    refine ⟨fun p => ?_, fun p p' hp => .inr ?_⟩
    · rw [hrun]
      exact ⟨Ledger.extends_addFragment .., fun _ _ => by simp [Ledger.addFragment, Settings.fragment]⟩
    · rw [hrun, hrun, hcomplete, Ledger.addFragment, Ledger.addFragment, hp.ledger.fragments]
      exact ⟨rfl, { hp with ledger := ⟨hp.ledger.declared, hp.ledger.required, rfl⟩ }⟩

theorem freshKey_follows : Follows c [] freshKey freshKey := by
  refine .get fun p p' hp => ?_
  rw [hp.keys]
  exact .bind (.modify (fun _ _ h => { h with keys := rfl }) fun _ => .refl _) fun _ => .pure _

theorem freshScope_follows : Follows c [] freshScope freshScope := by
  refine .get fun p p' hp => ?_
  rw [hp.scopes]
  exact .bind (.modify (fun _ _ h => { h with scopes := rfl }) fun _ => .refl _) fun _ => .pure _

theorem addAttribute_follows (owner : NodeId) (a : Handler.NewAttribute) :
    Follows c [] (addAttribute owner a) (addAttribute owner a) := by
  refine .modify (fun _ _ h => { h with additions := ?_, nextNode := ?_ }) fun _ => .refl _
  · simp only [h.additions, h.nextNode]
  · simp only [h.nextNode]

theorem attributesOf_follows (owner : NodeId) (attributes : List Attribute) :
    Follows c [] (attributesOf owner attributes) (attributesOf owner attributes) := by
  refine .get fun p p' hp => ?_
  rw [hp.additions]
  exact .pure _

end Rendering

end Stencil
