import Stencil.Compile.Preamble
import Stencil.Proofs.Helper.Closure
import Stencil.Proofs.Pattern.Agreement
import Stencil.Proofs.Walk

/-! Which helpers are emitted and when emission fails. The helpers being visited are a path of the dependency graph,
from a required helper to the one at hand: that path is what an error reports, it bounds the depth of the search, and
it is why nothing but what the required helpers reach is emitted. -/

namespace Stencil.Helper.Registry

variable {β : Type} {r : Registry β} {visiting : List Bytes} {done done' es : Emitted β} {name other : Bytes}
  {d : Declaration β} {e : Error} {fuel : Nat}

/-- `name` is required, or something required depends on it, directly or not. -/
def Reaches (r : Registry β) (name : Bytes) : Prop :=
  ∃ root ∈ r.required, Relation.ReflTransGen (DependsOn r.declared) root name

theorem Reaches.step (h : r.Reaches name) (hdepends : DependsOn r.declared name other) : r.Reaches other := by
  obtain ⟨root, hroot, hpath⟩ := h
  exact ⟨root, hroot, hpath.tail hdepends⟩

/-- Everything reached is declared and on no cycle. -/
def Sound (r : Registry β) : Prop :=
  ∀ name, r.Reaches name → (r.declared.get? name).isSome ∧ ¬Relation.TransGen (DependsOn r.declared) name name

/-- `visiting` leads from a required helper to `name`, over different helpers. -/
inductive Path (r : Registry β) : List Bytes → Bytes → Prop
  | root {name : Bytes} (hrequired : name ∈ r.required) : Path r [] name
  | step {visiting : List Bytes} {name other : Bytes} {d : Declaration β} (hpath : Path r visiting name)
      (hnew : name ∉ visiting) (hdeclared : r.declared.get? name = some d) (hother : other ∈ d.dependencies) :
      Path r (visiting ++ [name]) other

namespace Path

theorem walk (h : Path r visiting name) : ∃ root ∈ r.required, Walk (DependsOn r.declared) root visiting name := by
  induction h with
  | root hrequired => exact ⟨_, hrequired, .start⟩
  | step _ hnew hdeclared hother ih =>
    obtain ⟨root, hroot, hwalk⟩ := ih
    exact ⟨root, hroot, hwalk.step hnew ⟨_, hdeclared, hother⟩⟩

theorem reaches (h : Path r visiting name) : r.Reaches name := by
  obtain ⟨root, hroot, hwalk⟩ := h.walk
  exact ⟨root, hroot, hwalk.reflTransGen⟩

theorem nodup (h : Path r visiting name) : visiting.Nodup := by
  obtain ⟨_, -, hwalk⟩ := h.walk
  exact hwalk.nodup

theorem declared (h : Path r visiting name) : ∀ n ∈ visiting, (r.declared.get? n).isSome := by
  obtain ⟨_, -, hwalk⟩ := h.walk
  intro n hn
  obtain ⟨_, _, hdeclared, -⟩ := hwalk.exists_step n hn
  simp [hdeclared]

/-- The path up to a helper bounds how much deeper the search can go. -/
theorem length_lt (h : Path r visiting name) (hnew : name ∉ visiting) (hdeclared : r.declared.get? name = some d) :
    visiting.length < r.declared.length :=
  Dictionary.length_lt h.nodup h.declared (by simp [hdeclared]) hnew

end Path

/-- What an error says of the registry. -/
def Reports (r : Registry β) : Error → Prop
  | .unknown name (some requiredBy) =>
    r.declared.get? name = none ∧ r.Reaches requiredBy ∧ DependsOn r.declared requiredBy name
  | .unknown name none => r.declared.get? name = none ∧ name ∈ r.required
  | .cyclic chain =>
    chain.IsChain (DependsOn r.declared) ∧ ∃ name inner, chain = name :: (inner ++ [name]) ∧ r.Reaches name

theorem Path.reports_cyclic (h : Path r visiting name) (hback : name ∈ visiting) :
    r.Reports (.cyclic (visiting.dropWhile (· != name) ++ [name])) := by
  obtain ⟨_, -, hwalk⟩ := h.walk
  obtain ⟨hchain, inner, hinner⟩ := hwalk.cycle hback
  exact ⟨hchain, name, inner, hinner, h.reaches⟩

theorem Path.reports_unknown (h : Path r visiting name) (hmissing : r.declared.get? name = none) :
    r.Reports (.unknown name visiting.getLast?) := by
  cases h with
  | root hrequired => exact ⟨hmissing, hrequired⟩
  | step hpath _ hdeclared hother =>
    rw [List.getLast?_concat]
    exact ⟨hmissing, hpath.reaches, _, hdeclared, hother⟩

theorem visit_error_cases {declared : Dictionary (Declaration β)}
    (h : visit declared fuel visiting done name = .error e) :
    name ∈ visiting ∧ e = .cyclic (visiting.dropWhile (· != name) ++ [name]) ∨
    declared.get? name = none ∧ e = .unknown name visiting.getLast? ∨
    ∃ d, name ∉ visiting ∧ declared.get? name = some d ∧ (fuel = 0 ∨ ∃ rest, fuel = rest + 1 ∧
      d.dependencies.foldlM (visit declared rest (visiting ++ [name])) done = .error e) := by
  rw [visit.eq_def] at h
  dsimp only at h
  split at h
  next => cases h
  next =>
    split at h
    next hback => exact .inl ⟨by simpa using hback, (Except.error.inj h).symm⟩
    next hnew =>
      split at h
      next hmissing => exact .inr (.inl ⟨hmissing, (Except.error.inj h).symm⟩)
      next d hdeclared =>
        refine .inr (.inr ⟨d, by simpa using hnew, hdeclared, ?_⟩)
        cases fuel with
        | zero => exact .inl rfl
        | succ rest =>
          refine .inr ⟨rest, rfl, ?_⟩
          dsimp only at h
          cases hdeps : d.dependencies.foldlM (visit declared rest (visiting ++ [name])) done with
          | error e' =>
            rw [hdeps] at h
            exact congrArg Except.error (Except.error.inj h)
          | ok mid =>
            rw [hdeps] at h
            cases h

theorem visit_reports (hpath : Path r visiting name) (hfuel : r.declared.length ≤ fuel + visiting.length)
    (h : visit r.declared fuel visiting done name = .error e) : r.Reports e := by
  induction fuel generalizing visiting done name with
  | zero =>
    rcases visit_error_cases h with ⟨hback, rfl⟩ | ⟨hmissing, rfl⟩ | ⟨d, hnew, hdeclared, -⟩
    · exact hpath.reports_cyclic hback
    · exact hpath.reports_unknown hmissing
    · have hlt := hpath.length_lt hnew hdeclared
      omega
  | succ fuel ih =>
    rcases visit_error_cases h with ⟨hback, rfl⟩ | ⟨hmissing, rfl⟩ | ⟨d, hnew, hdeclared, hbelow⟩
    · exact hpath.reports_cyclic hback
    · exact hpath.reports_unknown hmissing
    · obtain ⟨rest, hrest, hbelow⟩ := hbelow.resolve_left (Nat.succ_ne_zero fuel)
      obtain rfl : fuel = rest := Nat.succ.inj hrest
      obtain ⟨other, hother, done', hvisit⟩ := foldlM_eq_error hbelow
      refine ih (hpath.step hnew hdeclared hother) ?_ hvisit
      rw [List.length_append, List.length_singleton]
      omega

theorem closure_reports (h : r.closure = .error e) : r.Reports e := by
  obtain ⟨name, hname, done, hvisit⟩ := foldlM_eq_error h
  exact visit_reports (.root hname) (by simp) hvisit

/-- Whatever an error reports is undeclared or cyclic, and reached. -/
theorem Reports.not_sound (h : r.Reports e) : ¬r.Sound := by
  intro hsound
  cases e with
  | unknown name requiredBy =>
    have hreached : r.Reaches name ∧ r.declared.get? name = none := by
      cases requiredBy with
      | none => exact ⟨⟨name, h.2, .refl⟩, h.1⟩
      | some wanting => exact ⟨h.2.1.step h.2.2, h.1⟩
    have hdeclared := (hsound name hreached.1).1
    rw [hreached.2] at hdeclared
    cases hdeclared
  | cyclic chain =>
    obtain ⟨hchain, name, inner, rfl, hreached⟩ := h
    exact (hsound name hreached).2 (transGen_of_cycle hchain)

/-- Fuel for every declared helper that is not being visited is enough: more changes nothing. -/
theorem visit_fuel {declared : Dictionary (Declaration β)} {fuel' : Nat} (hnodup : visiting.Nodup)
    (hvisiting : ∀ n ∈ visiting, (declared.get? n).isSome) (hfuel : declared.length ≤ fuel + visiting.length)
    (hfuel' : declared.length ≤ fuel' + visiting.length) :
    visit declared fuel visiting done name = visit declared fuel' visiting done name := by
  induction fuel generalizing visiting done name fuel' with
  | zero =>
    rw [visit.eq_def, visit.eq_def declared fuel']
    dsimp only
    split
    next => rfl
    next =>
      split
      next => rfl
      next hnew =>
        split
        next => rfl
        next d hdeclared =>
          have hlt := Dictionary.length_lt hnodup hvisiting (by simp [hdeclared] : (declared.get? name).isSome)
            (by simpa using hnew)
          omega
  | succ fuel ih =>
    rw [visit.eq_def, visit.eq_def declared fuel']
    dsimp only
    split
    next => rfl
    next =>
      split
      next => rfl
      next hnew =>
        split
        next => rfl
        next d hdeclared =>
          have hlt := Dictionary.length_lt hnodup hvisiting (by simp [hdeclared] : (declared.get? name).isSome)
            (by simpa using hnew)
          obtain ⟨fuel', rfl⟩ : ∃ k, fuel' = k + 1 := ⟨fuel' - 1, by omega⟩
          have hbelow : visit declared fuel (visiting ++ [name]) = visit declared fuel' (visiting ++ [name]) := by
            funext done other
            refine ih ?_ ?_ ?_ ?_
            · exact hnodup.append (List.nodup_singleton _) (by simpa using hnew)
            · exact List.forall_mem_append.mpr ⟨hvisiting, by simp [hdeclared]⟩
            all_goals
              rw [List.length_append, List.length_singleton]
              omega
          dsimp only
          rw [hbelow]

theorem visit_reached (hpath : Path r visiting name) (hdone : ∀ n ∈ names done, r.Reaches n)
    (h : visit r.declared fuel visiting done name = .ok done') : ∀ n ∈ names done', r.Reaches n := by
  induction fuel generalizing visiting done name done' with
  | zero =>
    rcases visit_cases h with ⟨-, rfl⟩ | ⟨_, _, _, _, _, _, hfuel, -⟩
    · exact hdone
    · cases hfuel
  | succ fuel ih =>
    rcases visit_cases h with ⟨-, rfl⟩ | ⟨d, rest, mid, -, hnew, hdeclared, hfuel, hmid, rfl⟩
    · exact hdone
    · obtain rfl : fuel = rest := Nat.succ.inj hfuel
      have hreached : ∀ n ∈ names mid, r.Reaches n :=
        foldlM_invariant (P := fun es => ∀ n ∈ names es, r.Reaches n)
          (fun _ _ _ hother hes => ih (hpath.step hnew hdeclared hother) hes) hdone hmid
      rw [names_snoc]
      exact List.forall_mem_append.mpr ⟨hreached, by simpa using hpath.reaches⟩

theorem closure_reached (h : r.closure = .ok es) : ∀ n ∈ names es, r.Reaches n :=
  foldlM_invariant (P := fun es => ∀ n ∈ names es, r.Reaches n)
    (fun _ _ _ hname hes => visit_reached (.root hname) hes) (by simp [names]) h

theorem closure_mem_iff (h : r.closure = .ok es) : name ∈ names es ↔ r.Reaches name := by
  obtain ⟨hordered, hrequired⟩ := closure_ordered h
  refine ⟨closure_reached h name, ?_⟩
  rintro ⟨root, hroot, hpath⟩
  induction hpath with
  | refl => exact hrequired root hroot
  | tail _ hdepends ih =>
    obtain ⟨before, d, after, rfl⟩ := Ordered.exists_split ih
    have hbefore := hordered.before rfl (.single hdepends)
    rw [names, List.map_append]
    exact List.mem_append_left _ hbefore

theorem closure_sound (h : r.closure = .ok es) : r.Sound := by
  intro name hreached
  obtain ⟨hordered, -⟩ := closure_ordered h
  obtain ⟨before, d, after, rfl⟩ := Ordered.exists_split ((closure_mem_iff h).mpr hreached)
  refine ⟨by simp [(hordered.split rfl).1], fun hcycle => ?_⟩
  have hnodup := hordered.nodup
  rw [names, List.map_append, List.map_cons, List.nodup_append] at hnodup
  exact hnodup.2.2 name (hordered.before rfl hcycle) name List.mem_cons_self rfl

theorem closure_of_sound (h : r.Sound) : ∃ es, r.closure = .ok es := by
  cases hclosure : r.closure with
  | ok es => exact ⟨es, rfl⟩
  | error e => exact absurd h (closure_reports hclosure).not_sound

variable {storage : Storage} {produce : β → List Bytes → Bytes} {out : List (Bytes × Bytes)}

theorem dependencies_eq_ok (h : r.dependencies storage produce = .ok out) :
    ∃ es, r.closure = .ok es ∧
      out = es.map fun (name, d) => (name, produce d.body (d.dependencies.map storage.accessor)) := by
  obtain ⟨es, hes, h⟩ := bind_eq_ok h
  exact ⟨es, hes, (Except.ok.inj h).symm⟩

theorem dependencies_eq_error (h : r.dependencies storage produce = .error e) : r.closure = .error e := by
  unfold dependencies at h
  cases hclosure : r.closure with
  | ok es =>
    rw [hclosure] at h
    cases h
  | error e' =>
    rw [hclosure] at h
    exact congrArg Except.error (Except.error.inj h)

/-- The preamble declares the helpers by these codes, in this order. -/
theorem flatMap_declaration {r : Registry Body} {es : Emitted Body} {storage : Storage} {forms : Preamble.Forms}
    {fragments : Array Origin} {out : List (Bytes × Bytes)} (hclosure : r.closure = .ok es)
    (h : r.dependencies storage (fun body deps => Preamble.code storage.name forms fragments deps body) = .ok out) :
    es.flatMap (Preamble.declaration storage forms fragments) =
      out.flatMap fun e => (storage.accessor e.1 ++ " = " ++ e.2 ++ ";\n" : Bytes) := by
  obtain ⟨es', hes', rfl⟩ := dependencies_eq_ok h
  obtain rfl : es = es' := Except.ok.inj (hclosure.symm.trans hes')
  rw [List.flatMap_map]
  rfl

/-- Code stands where its helper does: after the code of everything the helper depends on. -/
theorem dependencies_split (h : r.dependencies storage produce = .ok out) {before after : List (Bytes × Bytes)}
    {code : Bytes} (hout : out = before ++ (name, code) :: after) :
    ∃ d, r.declared.get? name = some d ∧ code = produce d.body (d.dependencies.map storage.accessor) ∧
      ∀ other, Relation.TransGen (DependsOn r.declared) name other → other ∈ before.map (·.1) := by
  obtain ⟨es, hes, rfl⟩ := dependencies_eq_ok h
  obtain ⟨before', rest, rfl, rfl, hrest⟩ := List.map_eq_append_iff.mp hout
  obtain ⟨⟨n, d⟩, after', rfl, hhead, -⟩ := List.map_eq_cons_iff.mp hrest
  obtain ⟨rfl, rfl⟩ := Prod.mk.inj hhead
  obtain ⟨hordered, -⟩ := closure_ordered hes
  refine ⟨d, (hordered.split rfl).1, rfl, fun other hother => ?_⟩
  rw [List.map_map]
  exact hordered.before rfl hother

/-- Emission ends: more fuel than there are declarations changes nothing. It succeeds just when all that the required
helpers reach is declared and free of cycles, and then every such helper, and no other, is emitted once, after all that
it depends on, with the code made from the accessors of its dependencies as it declares them. An error reports a cycle
or a missing declaration that is there and that the required helpers lead to. -/
theorem dependencies_complete (r : Registry β) (storage : Storage) (produce : β → List Bytes → Bytes) :
    (∀ fuel, r.declared.length ≤ fuel → r.required.foldlM (visit r.declared fuel []) [] = r.closure) ∧
    ((∃ out, r.dependencies storage produce = .ok out) ↔ r.Sound) ∧
    (∀ out, r.dependencies storage produce = .ok out →
      (out.map (·.1)).Nodup ∧ (∀ name, name ∈ out.map (·.1) ↔ r.Reaches name) ∧
      ∀ before name code after, out = before ++ (name, code) :: after →
        ∃ d, r.declared.get? name = some d ∧ code = produce d.body (d.dependencies.map storage.accessor) ∧
          ∀ other, Relation.TransGen (DependsOn r.declared) name other → other ∈ before.map (·.1)) ∧
    ∀ e, r.dependencies storage produce = .error e → r.Reports e := by
  refine ⟨fun fuel hfuel => ?_, ⟨?_, ?_⟩, fun out hout => ⟨?_, ?_, ?_⟩, fun e he => ?_⟩
  · have hvisit : visit r.declared fuel [] = visit r.declared r.declared.length [] := by
      funext done name
      exact visit_fuel List.nodup_nil (by simp) (by simpa using hfuel) (by simp)
    rw [closure, hvisit]
  · rintro ⟨out, hout⟩
    obtain ⟨es, hes, -⟩ := dependencies_eq_ok hout
    exact closure_sound hes
  · intro hsound
    obtain ⟨es, hes⟩ := closure_of_sound hsound
    exact ⟨_, by rw [dependencies, hes]; rfl⟩
  · obtain ⟨es, hes, rfl⟩ := dependencies_eq_ok hout
    rw [List.map_map]
    exact (closure_ordered hes).1.nodup
  · intro name
    obtain ⟨es, hes, rfl⟩ := dependencies_eq_ok hout
    rw [List.map_map]
    exact closure_mem_iff hes
  · exact fun before name code after h => dependencies_split hout h
  · exact closure_reports (dependencies_eq_error he)

/-- Helpers `a`, `b` and `c` with the dependencies given, and `a` required. -/
def triangle (a b c : List Bytes) : Registry Unit :=
  ⟨[("a", ⟨(), a⟩), ("b", ⟨(), b⟩), ("c", ⟨(), c⟩)], ["a"]⟩

/-- A shared dependency is emitted once and first; a cycle entered from outside is reported without the way to it, and
a missing helper with the one that wants it. -/
theorem dependencies_complete_triangle :
    (triangle ["b", "c"] ["c"] []).Reaches "c" ∧
    (triangle ["b", "c"] ["c"] []).dependencies ⟨"m", none⟩ (fun _ deps => Bytes.join "," deps) =
      .ok [("c", ""), ("b", "$m['c']"), ("a", "$m['b'],$m['c']")] ∧
    (triangle ["b"] ["c"] ["b"]).Reports (.cyclic ["b", "c", "b"]) ∧ ¬(triangle ["b"] ["c"] ["b"]).Sound ∧
    (triangle ["b"] ["x"] []).Reports (.unknown "x" (some "b")) := by
  have hshared : (triangle ["b", "c"] ["c"] []).dependencies ⟨"m", none⟩ (fun _ deps => Bytes.join "," deps) =
      .ok [("c", ""), ("b", "$m['c']"), ("a", "$m['b'],$m['c']")] := by decide
  have hcycle : (triangle ["b"] ["c"] ["b"]).dependencies ⟨"m", none⟩ (fun _ _ => []) =
      .error (.cyclic ["b", "c", "b"]) := by decide
  refine ⟨?_, hshared, ?_, ?_, ?_⟩
  · obtain ⟨-, hreached, -⟩ := (dependencies_complete _ _ _).2.2.1 _ hshared
    exact (hreached "c").mp (by decide)
  · exact (dependencies_complete _ _ _).2.2.2 _ hcycle
  · intro hsound
    obtain ⟨out, hout⟩ := (dependencies_complete _ ⟨"m", none⟩ (fun _ _ => [])).2.1.mpr hsound
    rw [hcycle] at hout
    cases hout
  · exact (dependencies_complete _ ⟨"m", none⟩ (fun _ _ => [])).2.2.2 _ (by decide)

end Stencil.Helper.Registry
