import Stencil.Pattern
import Stencil.Proofs.Success
import Mathlib.Tactic
import Mathlib.Data.List.Perm.Subperm

/-! What a pattern's text depends on. A lookup in a dictionary is settled by the last entry with the name, and two
tables that agree on a set of names closed under inputs give every pattern of the set the same text, however many
other patterns they hold. -/

namespace Stencil

namespace Dictionary

variable {α : Type} {d d' more : Dictionary α} {name n : Bytes} {a : α}

theorem get?_cons : get? ((n, a) :: d) name = if n == name then some a else d.get? name := by
  by_cases h : n == name
  · simp only [get?, List.find?_cons, h, Option.map_some, if_true]
  · simp only [get?, List.find?_cons, h, Bool.false_eq_true, if_false]

theorem get?_isSome : (d.get? name).isSome ↔ name ∈ d.map (·.1) := by
  induction d with
  | nil => simp [get?]
  | cons e d ih =>
    obtain ⟨n, b⟩ := e
    rw [get?_cons, List.map_cons, List.mem_cons]
    by_cases hn : n = name
    · simp [hn]
    · simp only [beq_eq_false_iff_ne.mpr hn, Bool.false_eq_true, if_false, ih, Ne.symm hn, false_or]

theorem get?_insert : (d.insert n a).get? name = if n == name then some a else d.get? name := by
  induction d with
  | nil => rw [insert, get?_cons]
  | cons e d ih =>
    obtain ⟨m, b⟩ := e
    rw [insert]
    split
    next hm =>
      rw [get?_cons, get?_cons, eq_of_beq hm]
      split <;> rfl
    next hm =>
      rw [get?_cons, get?_cons, ih]
      by_cases hmn : m = name
      · subst hmn
        have hne : (n == m) = false := by
          rw [beq_eq_false_iff_ne]
          exact fun h => hm (by simp [h])
        simp [hne]
      · simp [hmn]

theorem insertAll_cons : d.insertAll ((n, a) :: more) = (d.insert n a).insertAll more := rfl

theorem get?_insertAll_of_not_mem (h : name ∉ more.map (·.1)) : (d.insertAll more).get? name = d.get? name := by
  induction more generalizing d with
  | nil => rfl
  | cons e more ih =>
    obtain ⟨n, b⟩ := e
    rw [List.map_cons, List.mem_cons, not_or] at h
    rw [insertAll_cons, ih h.2, get?_insert, beq_eq_false_iff_ne.mpr (Ne.symm h.1)]
    rfl

theorem get?_insertAll_congr (h : name ∈ more.map (·.1) ∨ d.get? name = d'.get? name) :
    (d.insertAll more).get? name = (d'.insertAll more).get? name := by
  induction more generalizing d d' with
  | nil => exact h.resolve_left List.not_mem_nil
  | cons e more ih =>
    obtain ⟨n, b⟩ := e
    rw [insertAll_cons, insertAll_cons]
    refine ih ?_
    rcases h with h | h
    · rcases List.mem_cons.mp h with rfl | h
      · exact .inr (by simp [get?_insert])
      · exact .inl h
    · exact .inr (by rw [get?_insert, get?_insert, h])

theorem get?_insertAll_cases (h : (d.insertAll more).get? name = some a) :
    (name, a) ∈ more ∨ name ∉ more.map (·.1) ∧ d.get? name = some a := by
  by_cases hm : name ∈ more.map (·.1)
  · left
    induction more generalizing d with
    | nil => cases hm
    | cons e more ih =>
      obtain ⟨n, b⟩ := e
      rw [insertAll_cons] at h
      by_cases hr : name ∈ more.map (·.1)
      · exact List.mem_cons_of_mem _ (ih h hr)
      · obtain rfl : name = n := (List.mem_cons.mp hm).resolve_right hr
        rw [get?_insertAll_of_not_mem hr, get?_insert, beq_self_eq_true, if_pos rfl] at h
        rw [Option.some.inj h]
        exact List.mem_cons_self
  · exact .inr ⟨hm, get?_insertAll_of_not_mem hm ▸ h⟩

theorem isSome_get?_insertAll (h : name ∈ more.map (·.1) ∨ (d.get? name).isSome) :
    ((d.insertAll more).get? name).isSome := by
  induction more generalizing d with
  | nil => exact h.resolve_left List.not_mem_nil
  | cons e more ih =>
    obtain ⟨n, b⟩ := e
    rw [insertAll_cons]
    apply ih
    rw [get?_insert]
    split
    next => exact .inr rfl
    next hn =>
      rw [List.map_cons, List.mem_cons] at h
      rcases h with (rfl | h) | h
      · exact absurd (beq_self_eq_true _) hn
      · exact .inl h
      · exact .inr h

/-- Different names that are all in a table, and one more, are no more than the table has entries. -/
theorem length_lt {names : List Bytes} (hd : names.Nodup) (hr : ∀ n ∈ names, (d.get? n).isSome)
    (hn : (d.get? name).isSome) (hc : name ∉ names) : names.length < d.length := by
  have hsub : name :: names ⊆ d.map (·.1) := by
    intro n h
    rcases List.mem_cons.mp h with rfl | h
    · exact get?_isSome.mp hn
    · exact get?_isSome.mp (hr n h)
  have hle := ((List.nodup_cons.mpr ⟨hc, hd⟩).subperm hsub).length_le
  rw [List.length_cons, List.length_map] at hle
  omega

end Dictionary

theorem mapM_congr {m : Type → Type} [Monad m] [LawfulMonad m] {α β : Type} {f g : α → m β} {xs : List α}
    (h : ∀ x ∈ xs, f x = g x) : xs.mapM f = xs.mapM g := by
  induction xs with
  | nil => rfl
  | cons x xs ih =>
    rw [List.mapM_cons, List.mapM_cons, h x List.mem_cons_self, ih fun y hy => h y (List.mem_cons_of_mem _ hy)]

namespace Pattern

section Succeeding

variable {t : Table} {fuel : Nat} {resolving inputs args : List Bytes} {fill : Bool} {name out : Bytes}
  {body : Producer}

/-- A lookup that succeeds does not come back to a producer, and fills a template or has the texts of all inputs. -/
theorem resolve_ok_cases (h : resolve t fuel resolving fill name args = .ok out) :
    name ∉ resolving ∧
      ((∃ text, t.get? name = some (.template text) ∧
        out = if args.isEmpty && !fill then text else Template.format text args) ∨
      ∃ inputs body rest texts, t.get? name = some (.producer inputs body) ∧ fuel = rest + 1 ∧
        inputs.mapM (fun i => resolve t rest (resolving ++ [name]) false i []) = .ok texts ∧ out = body texts args) := by
  rw [resolve.eq_def] at h
  dsimp only at h
  split at h
  next => cases h
  next pattern hname =>
    split at h
    next => cases h
    next hnew =>
      refine ⟨by simpa using hnew, ?_⟩
      cases pattern with
      | template text =>
        refine .inl ⟨text, hname, ?_⟩
        dsimp only at h
        split at h
        next hplain => rw [if_pos hplain]; exact (Except.ok.inj h).symm
        next hfilled => rw [if_neg hfilled]; exact (Except.ok.inj h).symm
      | producer inputs body =>
        cases fuel with
        | zero => cases h
        | succ rest =>
          obtain ⟨texts, htexts, h⟩ := bind_eq_ok h
          exact .inr ⟨inputs, body, rest, texts, hname, rfl, htexts, (Except.ok.inj h).symm⟩

theorem resolve_ok_template {text : Bytes} (h : resolve t fuel resolving fill name args = .ok out)
    (hname : t.get? name = some (.template text)) :
    out = if args.isEmpty && !fill then text else Template.format text args := by
  rcases (resolve_ok_cases h).2 with ⟨text', hname', rfl⟩ | ⟨_, _, _, _, hname', -⟩
  · obtain rfl : text = text' := by simpa [hname] using hname'
    rfl
  · simp [hname] at hname'

theorem resolve_ok_producer (h : resolve t fuel resolving fill name args = .ok out)
    (hname : t.get? name = some (.producer inputs body)) : ∃ rest texts, fuel = rest + 1 ∧
      inputs.mapM (fun i => resolve t rest (resolving ++ [name]) false i []) = .ok texts ∧ out = body texts args := by
  rcases (resolve_ok_cases h).2 with ⟨_, hname', -⟩ | ⟨_, _, rest, texts, hname', hfuel, htexts, rfl⟩
  · simp [hname] at hname'
  · obtain ⟨rfl, rfl⟩ : inputs = _ ∧ body = _ := by simpa [hname] using hname'
    exact ⟨rest, texts, hfuel, htexts, rfl⟩

end Succeeding

/-- The two tables agree on the names in `G`, and the inputs of a producer in `G` are in `G`. -/
structure Agree (G : Bytes → Prop) (t t' : Table) : Prop where
  same : ∀ name, G name → t.get? name = t'.get? name
  closed : ∀ name inputs body, G name → t.get? name = some (.producer inputs body) → ∀ i ∈ inputs, G i

/-- With fuel for all entries that are not being resolved, only the agreeing part of the tables matters. -/
theorem resolve_congr {G : Bytes → Prop} {t t' : Table} (h : Agree G t t') {resolving : List Bytes} {fill : Bool}
    {name : Bytes} {args : List Bytes} {fuel fuel' : Nat} (hg : G name) (hd : resolving.Nodup)
    (hr : ∀ n ∈ resolving, G n ∧ (t.get? n).isSome) (hf : t.length ≤ fuel + resolving.length)
    (hf' : t'.length ≤ fuel' + resolving.length) :
    resolve t fuel resolving fill name args = resolve t' fuel' resolving fill name args := by
  induction fuel generalizing resolving fill name args fuel' with
  | zero =>
    rw [resolve, resolve, ← h.same name hg]
    split
    next => rfl
    next pattern hp =>
      split
      next => rfl
      next hc =>
        have hlt := Dictionary.length_lt hd (fun n hn => (hr n hn).2) (by rw [hp]; rfl) (by simpa using hc)
        omega
  | succ fuel ih =>
    rw [resolve, resolve, ← h.same name hg]
    split
    next => rfl
    next pattern hp =>
      split
      next => rfl
      next hc =>
        have hc' : name ∉ resolving := by simpa using hc
        cases pattern with
        | template text => rfl
        | producer inputs body =>
          have hr' : ∀ n ∈ resolving, (t'.get? n).isSome := fun n hn => h.same n (hr n hn).1 ▸ (hr n hn).2
          have hn' : (t'.get? name).isSome := by rw [← h.same name hg, hp]; rfl
          have hlt := Dictionary.length_lt hd hr' hn' hc'
          obtain ⟨fuel', rfl⟩ : ∃ k, fuel' = k + 1 := ⟨fuel' - 1, by omega⟩
          have htexts : inputs.mapM (fun i => resolve t fuel (resolving ++ [name]) false i []) =
              inputs.mapM fun i => resolve t' fuel' (resolving ++ [name]) false i [] := by
            refine mapM_congr fun i hi => ?_
            refine ih (h.closed name inputs body hg hp i hi) ?_ ?_ ?_ ?_
            · exact hd.append (List.nodup_singleton name) (by simpa using hc')
            · intro n hn
              rcases List.mem_append.mp hn with hn | hn
              · exact hr n hn
              · rw [List.mem_singleton.mp hn]
                exact ⟨hg, by rw [hp]; rfl⟩
            · rw [List.length_append, List.length_singleton]; omega
            · rw [List.length_append, List.length_singleton]; omega
          simp only [htexts]

theorem Agree.text {G : Bytes → Prop} {t t' : Table} (h : Agree G t t') {name : Bytes} (hg : G name)
    (args : List Bytes) : text t name args = text t' name args :=
  resolve_congr h hg List.nodup_nil (by simp) (by simp) (by simp)

theorem Agree.render {G : Bytes → Prop} {t t' : Table} (h : Agree G t t') {name : Bytes} (hg : G name)
    (args : List Bytes) : render t name args = render t' name args :=
  resolve_congr h hg List.nodup_nil (by simp) (by simp) (by simp)

theorem render_of_template {t : Table} {name text : Bytes} (h : t.get? name = some (.template text)) (args : List Bytes) :
    render t name args = .ok (Template.format text args) := by
  rw [render, resolve.eq_def]
  simp [h]

theorem render_of_missing {t : Table} {name : Bytes} (h : t.get? name = none) (args : List Bytes) :
    render t name args = .error (.unknown name) := by
  rw [render, resolve.eq_def]
  simp [h]

end Pattern

end Stencil
