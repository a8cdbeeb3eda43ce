import Stencil.Helper
import Stencil.Proofs.Success
import Mathlib.Data.List.Nodup
import Mathlib.Logic.Relation

/-! The order in which helpers are emitted. Every helper stands once, as it is declared, and after all it depends on;
the required ones are among them. -/

namespace Stencil.Helper.Registry

variable {β : Type} {declared : Dictionary (Declaration β)} {es done done' : Emitted β} {name : Bytes}
  {d : Declaration β}

def names (es : Emitted β) : List Bytes := es.map (·.1)

/-- `name` is declared to depend on `other`. -/
def DependsOn (declared : Dictionary (Declaration β)) (name other : Bytes) : Prop :=
  ∃ d, declared.get? name = some d ∧ other ∈ d.dependencies

/-- One helper after another, each new, as it is declared, and after those it depends on. -/
inductive Ordered (declared : Dictionary (Declaration β)) : Emitted β → Prop
  | nil : Ordered declared []
  | snoc {done : Emitted β} {name : Bytes} {d : Declaration β} (hdone : Ordered declared done)
      (hnew : name ∉ names done) (hdeclared : declared.get? name = some d)
      (hbefore : ∀ other ∈ d.dependencies, other ∈ names done) : Ordered declared (done ++ [(name, d)])

theorem names_snoc (es : Emitted β) (name : Bytes) (d : Declaration β) : names (es ++ [(name, d)]) = names es ++ [name] := by
  simp [names]

namespace Ordered

theorem nodup (h : Ordered declared es) : (names es).Nodup := by
  induction h with
  | nil => exact List.nodup_nil
  | snoc _ hnew _ _ ih =>
    rw [names_snoc]
    exact List.nodup_append.mpr ⟨ih, List.nodup_singleton _, by grind⟩

/-- Whatever stands in the list is declared like that, and what it is declared to depend on stands before it. -/
theorem split (h : Ordered declared es) {before after : Emitted β} (hes : es = before ++ (name, d) :: after) :
    declared.get? name = some d ∧ ∀ other ∈ d.dependencies, other ∈ names before := by
  induction h generalizing after with
  | nil => simp at hes
  | snoc _ _ hdeclared hbefore ih =>
    rcases List.eq_nil_or_concat after with rfl | ⟨after, last, rfl⟩
    · obtain ⟨rfl, heq⟩ := List.append_inj' hes rfl
      obtain ⟨rfl, rfl⟩ := Prod.mk.inj (List.singleton_inj.mp heq)
      exact ⟨hdeclared, hbefore⟩
    · rw [List.concat_eq_append, ← List.cons_append, ← List.append_assoc] at hes
      exact ih (List.append_inj' hes rfl).1

theorem exists_split (hname : name ∈ names es) : ∃ before d after, es = before ++ (name, d) :: after := by
  obtain ⟨⟨n, d⟩, he, rfl⟩ := List.mem_map.mp hname
  obtain ⟨before, after, hes⟩ := List.append_of_mem he
  exact ⟨before, d, after, hes⟩

/-- All that a helper depends on, directly or not, stands before it. -/
theorem before (h : Ordered declared es) {before after : Emitted β} (hes : es = before ++ (name, d) :: after)
    {other : Bytes} (hother : Relation.TransGen (DependsOn declared) name other) : other ∈ names before := by
  induction hother using Relation.TransGen.head_induction_on generalizing before d after with
  | single hdepends =>
    obtain ⟨d', hd', hmem⟩ := hdepends
    obtain ⟨hd, hbefore⟩ := h.split hes
    obtain rfl : d = d' := Option.some.inj (hd.symm.trans hd')
    exact hbefore other hmem
  | head hdepends _ ih =>
    obtain ⟨d', hd', hmem⟩ := hdepends
    obtain ⟨hd, hbefore⟩ := h.split hes
    obtain rfl : d = d' := Option.some.inj (hd.symm.trans hd')
    obtain ⟨before', d', after', rfl⟩ := exists_split (hbefore _ hmem)
    have hin : other ∈ names before' := ih (by rw [hes, List.append_assoc]; rfl)
    rw [names, List.map_append]
    exact List.mem_append_left _ hin

end Ordered

/-- What visiting helpers leaves: the list is still in order, it was only added to, those wanted are in it, and none
that is still being visited was added. -/
structure Visited (declared : Dictionary (Declaration β)) (visiting : List Bytes) (done : Emitted β)
    (wanted : List Bytes) (done' : Emitted β) : Prop where
  ordered : Ordered declared done'
  grows : names done ⊆ names done'
  found : ∀ name ∈ wanted, name ∈ names done'
  pending : ∀ name ∈ visiting, name ∈ names done' → name ∈ names done

variable {visiting : List Bytes}

theorem visited_foldlM {visit : Emitted β → Bytes → Except Error (Emitted β)} {l : List Bytes}
    (hvisit : ∀ done done' name, Ordered declared done → visit done name = .ok done' →
      Visited declared visiting done [name] done')
    (hdone : Ordered declared done) (h : l.foldlM visit done = .ok done') :
    Visited declared visiting done l done' := by
  induction l generalizing done with
  | nil =>
    obtain rfl : done = done' := Except.ok.inj h
    exact ⟨hdone, List.Subset.refl _, by simp, fun _ _ h => h⟩
  | cons name l ih =>
    rw [List.foldlM_cons] at h
    obtain ⟨mid, hmid, h⟩ := bind_eq_ok h
    have hfirst := hvisit done mid name hdone hmid
    have hrest := ih hfirst.ordered h
    refine ⟨hrest.ordered, List.Subset.trans hfirst.grows hrest.grows, ?_, ?_⟩
    · exact List.forall_mem_cons.mpr ⟨hrest.grows (hfirst.found name (List.mem_singleton_self _)), hrest.found⟩
    · exact fun n hn h => hfirst.pending n hn (hrest.pending n hn h)

/-- A visit that succeeds finds the helper in the list, or puts it at the end once its dependencies are there. -/
theorem visit_cases {fuel : Nat} (h : visit declared fuel visiting done name = .ok done') :
    name ∈ names done ∧ done' = done ∨
    ∃ d rest mid, name ∉ names done ∧ name ∉ visiting ∧ declared.get? name = some d ∧ fuel = rest + 1 ∧
      d.dependencies.foldlM (visit declared rest (visiting ++ [name])) done = .ok mid ∧ done' = mid ++ [(name, d)] := by
  have hany : (done.any fun e => e.1 == name) = true ↔ name ∈ names done := by simp [names]
  rw [visit.eq_def] at h
  dsimp only at h
  split at h
  next hdone => exact .inl ⟨hany.mp hdone, (Except.ok.inj h).symm⟩
  next hdone =>
    split at h
    next => cases h
    next hvisiting =>
      split at h
      next => cases h
      next d hdeclared =>
        cases fuel with
        | zero => cases h
        | succ rest =>
          obtain ⟨mid, hmid, h⟩ := bind_eq_ok h
          exact .inr ⟨d, rest, mid, fun hname => hdone (hany.mpr hname), by simpa using hvisiting, hdeclared, rfl, hmid,
            (Except.ok.inj h).symm⟩

theorem visited_visit {fuel : Nat} (hdone : Ordered declared done)
    (h : visit declared fuel visiting done name = .ok done') : Visited declared visiting done [name] done' := by
  induction fuel generalizing visiting done name done' with
  | zero =>
    rcases visit_cases h with ⟨hname, rfl⟩ | ⟨_, _, _, _, _, _, hfuel, -⟩
    · exact ⟨hdone, List.Subset.refl _, by simpa using hname, fun _ _ h => h⟩
    · cases hfuel
  | succ fuel ih =>
    rcases visit_cases h with ⟨hname, rfl⟩ | ⟨d, rest, mid, hnew, hclosed, hdeclared, hfuel, hmid, rfl⟩
    · exact ⟨hdone, List.Subset.refl _, by simpa using hname, fun _ _ h => h⟩
    · obtain rfl : fuel = rest := Nat.succ.inj hfuel
      have hdeps := visited_foldlM (fun _ _ _ => ih) hdone hmid
      have hmissing : name ∉ names mid := fun hin => hnew (hdeps.pending name (by simp) hin)
      refine ⟨hdeps.ordered.snoc hmissing hdeclared hdeps.found, ?_, by simp [names_snoc], fun n hn hin => ?_⟩
      · rw [names_snoc]
        exact List.Subset.trans hdeps.grows (List.subset_append_left _ _)
      · rw [names_snoc] at hin
        rcases List.mem_append.mp hin with hin | hin
        · exact hdeps.pending n (List.mem_append_left _ hn) hin
        · rw [List.mem_singleton.mp hin] at hn
          exact absurd hn hclosed

/-- What a registry emits is in order and has every required helper. -/
theorem closure_ordered {r : Registry β} (h : r.closure = .ok es) :
    Ordered r.declared es ∧ ∀ name ∈ r.required, name ∈ names es := by
  have hvisited := visited_foldlM (fun _ _ _ => visited_visit) .nil h
  exact ⟨hvisited.ordered, hvisited.found⟩

end Stencil.Helper.Registry
