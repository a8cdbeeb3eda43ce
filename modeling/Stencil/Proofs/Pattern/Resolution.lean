import Stencil.Proofs.Pattern.Agreement
import Stencil.Proofs.Success
import Stencil.Proofs.Walk
import Mathlib.Logic.Relation

/-! When a pattern has a text and what its lookup leaves behind. The producers being resolved are a walk through the
graph of inputs: a lookup fails where the walk meets a name that is not registered or one that it has passed, and the
error reports that very place. A registry that keeps the walk in a variable, from one lookup to the next, finds it empty
whenever a lookup begins. -/

namespace Stencil.Pattern

open Relation (ReflTransGen TransGen)

variable {t : Table} {fuel fuel' : Nat} {resolving resolving' inputs args : List Bytes} {fill : Bool}
  {root name other out out' : Bytes} {body : Producer} {e : Error}

/-- The producer `name` has `other` as an input. -/
def Uses (t : Table) (name other : Bytes) : Prop :=
  ∃ inputs body, t.get? name = some (.producer inputs body) ∧ other ∈ inputs

/-- Everything reached from `name` is registered and on no cycle. -/
def Sound (t : Table) (name : Bytes) : Prop :=
  ∀ other, ReflTransGen (Uses t) name other → (t.get? other).isSome ∧ ¬TransGen (Uses t) other other

/-- What an error says of the patterns that `root` reaches. -/
def Reports (t : Table) (root : Bytes) : Error → Prop
  | .unknown name => t.get? name = none ∧ ReflTransGen (Uses t) root name
  | .cyclic chain =>
    chain.IsChain (Uses t) ∧ ∃ name inner, chain = name :: (inner ++ [name]) ∧ ReflTransGen (Uses t) root name

theorem Uses.registered (h : Uses t name other) : (t.get? name).isSome := by
  obtain ⟨_, _, hname, -⟩ := h
  simp [hname]

theorem Uses.mem (h : Uses t name other) (hname : t.get? name = some (.producer inputs body)) : other ∈ inputs := by
  obtain ⟨_, _, hname', hother⟩ := h
  obtain ⟨rfl, rfl⟩ : _ = inputs ∧ _ = body := by simpa [hname] using hname'.symm
  exact hother

theorem resolve_error_cases (h : resolve t fuel resolving fill name args = .error e) :
    t.get? name = none ∧ e = .unknown name ∨
    name ∈ resolving ∧ e = .cyclic (resolving.dropWhile (· != name) ++ [name]) ∨
    name ∉ resolving ∧ (t.get? name).isSome ∧ (fuel = 0 ∨ ∃ rest input, fuel = rest + 1 ∧ Uses t name input ∧
      resolve t rest (resolving ++ [name]) false input [] = .error e) := by
  rw [resolve.eq_def] at h
  dsimp only at h
  split at h
  next hmissing => exact .inl ⟨hmissing, (Except.error.inj h).symm⟩
  next pattern hname =>
    split at h
    next hback => exact .inr (.inl ⟨by simpa using hback, (Except.error.inj h).symm⟩)
    next hnew =>
      refine .inr (.inr ⟨by simpa using hnew, by simp [hname], ?_⟩)
      cases pattern with
      | template text =>
        dsimp only at h
        split at h <;> cases h
      | producer inputs body =>
        cases fuel with
        | zero => exact .inl rfl
        | succ rest =>
          dsimp only at h
          cases htexts : inputs.mapM fun i => resolve t rest (resolving ++ [name]) false i [] with
          | error e' =>
            rw [htexts] at h
            cases h
            obtain ⟨input, hinput, hfails⟩ := mapM_eq_error htexts
            exact .inr ⟨rest, input, rfl, ⟨inputs, body, hname, hinput⟩, hfails⟩
          | ok texts =>
            rw [htexts] at h
            cases h

/-- The walk up to a name bounds how much deeper the lookup can go. -/
theorem length_lt (hwalk : Walk (Uses t) root resolving name) (hnew : name ∉ resolving) (hname : (t.get? name).isSome) :
    resolving.length < t.length := by
  refine Dictionary.length_lt hwalk.nodup (fun n hn => ?_) hname hnew
  obtain ⟨_, huses⟩ := hwalk.exists_step n hn
  exact huses.registered

theorem resolve_reports (hwalk : Walk (Uses t) root resolving name) (hfuel : t.length ≤ fuel + resolving.length)
    (h : resolve t fuel resolving fill name args = .error e) : Reports t root e := by
  induction fuel generalizing resolving fill name args with
  | zero =>
    rcases resolve_error_cases h with ⟨hmissing, rfl⟩ | ⟨hback, rfl⟩ | ⟨hnew, hname, -⟩
    · exact ⟨hmissing, hwalk.reflTransGen⟩
    · obtain ⟨hchain, inner, hinner⟩ := hwalk.cycle hback
      exact ⟨hchain, name, inner, hinner, hwalk.reflTransGen⟩
    · have hlt := length_lt hwalk hnew hname
      omega
  | succ fuel ih =>
    rcases resolve_error_cases h with ⟨hmissing, rfl⟩ | ⟨hback, rfl⟩ | ⟨hnew, hname, hbelow⟩
    · exact ⟨hmissing, hwalk.reflTransGen⟩
    · obtain ⟨hchain, inner, hinner⟩ := hwalk.cycle hback
      exact ⟨hchain, name, inner, hinner, hwalk.reflTransGen⟩
    · obtain ⟨rest, input, hrest, huses, hfails⟩ := hbelow.resolve_left (Nat.succ_ne_zero fuel)
      obtain rfl : fuel = rest := Nat.succ.inj hrest
      refine ih (hwalk.step hnew huses) ?_ hfails
      rw [List.length_append, List.length_singleton]
      omega

/-- Whatever an error reports is reached, and not registered or on a cycle. -/
theorem Reports.not_sound (h : Reports t root e) : ¬Sound t root := by
  intro hsound
  cases e with
  | unknown name =>
    have hname := (hsound name h.2).1
    rw [h.1] at hname
    cases hname
  | cyclic chain =>
    obtain ⟨hchain, name, inner, rfl, hreached⟩ := h
    exact (hsound name hreached).2 (transGen_of_cycle hchain)

/-- The name has a text where `resolving` are passed. -/
def Resolves (t : Table) (resolving : List Bytes) (name : Bytes) : Prop :=
  ∃ fuel fill args out, resolve t fuel resolving fill name args = .ok out

namespace Resolves

theorem not_mem (h : Resolves t resolving name) : name ∉ resolving := by
  obtain ⟨_, _, _, _, h⟩ := h
  exact (resolve_ok_cases h).1

theorem registered (h : Resolves t resolving name) : (t.get? name).isSome := by
  obtain ⟨_, _, _, _, h⟩ := h
  rcases (resolve_ok_cases h).2 with ⟨_, hname, -⟩ | ⟨_, _, _, _, hname, -⟩
  · simp [hname]
  · simp [hname]

theorem step (h : Resolves t resolving name) (huses : Uses t name other) : Resolves t (resolving ++ [name]) other := by
  obtain ⟨_, _, _, _, h⟩ := h
  obtain ⟨inputs, body, hname, hother⟩ := huses
  obtain ⟨rest, _, -, htexts, -⟩ := resolve_ok_producer h hname
  obtain ⟨text, htext⟩ := mapM_eq_ok_mem htexts other hother
  exact ⟨rest, false, [], text, htext⟩

theorem reach (h : Resolves t resolving name) (hreached : ReflTransGen (Uses t) name other) :
    ∃ more, resolving ⊆ more ∧ Resolves t more other := by
  induction hreached with
  | refl => exact ⟨resolving, List.Subset.refl _, h⟩
  | tail _ huses ih =>
    obtain ⟨more, hmore, h⟩ := ih
    exact ⟨_, List.Subset.trans hmore (List.subset_append_left _ _), h.step huses⟩

/-- Everything that is passed stays passed, so a name that has a text is not met again below it. -/
theorem sound (h : Resolves t resolving name) : Sound t name := by
  intro other hreached
  obtain ⟨_, -, hother⟩ := h.reach hreached
  refine ⟨hother.registered, fun hcycle => ?_⟩
  obtain ⟨next, huses, hback⟩ := TransGen.head'_iff.mp hcycle
  obtain ⟨_, hpassed, hagain⟩ := (hother.step huses).reach hback
  exact hagain.not_mem (hpassed (by simp))

end Resolves

/-- What is asked for: the text to compose from, or the text for output. -/
def answer (t : Table) (fill : Bool) (name : Bytes) (args : List Bytes) : Except Error Bytes :=
  if fill then render t name args else text t name args

theorem answer_eq_resolve : answer t fill name args = resolve t t.length [] fill name args := by
  cases fill <;> rfl

theorem answer_reports (h : answer t fill name args = .error e) : Reports t name e :=
  resolve_reports .start (by simp) (answer_eq_resolve.symm.trans h)

theorem answer_ok_iff : (∃ out, answer t fill name args = .ok out) ↔ Sound t name := by
  constructor
  · rintro ⟨out, hout⟩
    exact Resolves.sound ⟨_, _, _, out, answer_eq_resolve.symm.trans hout⟩
  · intro hsound
    cases hanswer : answer t fill name args with
    | ok out => exact ⟨out, rfl⟩
    | error e => exact absurd hsound (answer_reports hanswer).not_sound

theorem Sound.text (h : Sound t name) (args : List Bytes) : ∃ out, text t name args = .ok out := by
  have hanswer : ∃ out, answer t false name args = .ok out := answer_ok_iff.mpr h
  exact hanswer

theorem Sound.render (h : Sound t name) (args : List Bytes) : ∃ out, render t name args = .ok out := by
  have hanswer : ∃ out, answer t true name args = .ok out := answer_ok_iff.mpr h
  exact hanswer

/-- A producer whose inputs are all sound is on no cycle: the cycle would pass one of them. -/
theorem sound_of_inputs (hname : t.get? name = some (.producer inputs body)) (hinputs : ∀ i ∈ inputs, Sound t i) :
    Sound t name := by
  intro other hreached
  rcases ReflTransGen.cases_head hreached with rfl | ⟨next, huses, hbelow⟩
  · refine ⟨by simp [hname], fun hcycle => ?_⟩
    obtain ⟨next, huses, hback⟩ := TransGen.head'_iff.mp hcycle
    exact (hinputs next (huses.mem hname) next .refl).2 (.tail' hback huses)
  · exact hinputs next (huses.mem hname) other hbelow

/-- The fuel and the names passed are no part of what is found. -/
theorem resolve_unique (h : resolve t fuel resolving fill name args = .ok out)
    (h' : resolve t fuel' resolving' fill name args = .ok out') : out = out' := by
  induction fuel using Nat.strong_induction_on generalizing resolving resolving' fill name args out out' fuel' with
  | h fuel ih =>
    rcases (resolve_ok_cases h).2 with ⟨text, hname, -⟩ | ⟨inputs, body, _, _, hname, -⟩
    · exact (resolve_ok_template h hname).trans (resolve_ok_template h' hname).symm
    · obtain ⟨rest, texts, rfl, htexts, rfl⟩ := resolve_ok_producer h hname
      obtain ⟨rest', texts', -, htexts', rfl⟩ := resolve_ok_producer h' hname
      have hsame : inputs.mapM (fun i => resolve t rest (resolving ++ [name]) false i []) =
          inputs.mapM fun i => resolve t rest' (resolving' ++ [name]) false i [] := by
        refine mapM_congr fun i hi => ?_
        obtain ⟨text, htext⟩ := mapM_eq_ok_mem htexts i hi
        obtain ⟨text', htext'⟩ := mapM_eq_ok_mem htexts' i hi
        rw [htext, htext', ih rest rest.lt_succ_self htext htext']
      rw [htexts, htexts'] at hsame
      rw [Except.ok.inj hsame]

theorem answer_template {text : Bytes} (hname : t.get? name = some (.template text)) :
    answer t fill name args = .ok (if args.isEmpty && !fill then text else Template.format text args) := by
  rw [answer_eq_resolve, resolve.eq_def]
  simp only [hname, List.contains_nil, Bool.false_eq_true, if_false]
  split <;> rfl

theorem sound_of_template {text : Bytes} (hname : t.get? name = some (.template text)) : Sound t name := by
  have hanswer : answer t true name [] = .ok (Template.format text []) := answer_template hname
  exact answer_ok_iff.mp ⟨_, hanswer⟩

/-- A producer is given what its inputs are when asked for by themselves. -/
theorem answer_producer (hname : t.get? name = some (.producer inputs body)) (h : answer t fill name args = .ok out) :
    ∃ texts, inputs.mapM (fun i => text t i []) = .ok texts ∧ out = body texts args := by
  obtain ⟨rest, texts, -, htexts, rfl⟩ := resolve_ok_producer (answer_eq_resolve.symm.trans h) hname
  refine ⟨texts, htexts ▸ mapM_congr fun i hi => ?_, rfl⟩
  obtain ⟨inner, hinner⟩ := mapM_eq_ok_mem htexts i hi
  obtain ⟨alone, halone⟩ : ∃ alone, answer t false i [] = .ok alone :=
    answer_ok_iff.mpr (Resolves.sound ⟨_, _, _, inner, hinner⟩)
  rw [hinner, resolve_unique hinner (answer_eq_resolve.symm.trans halone)]
  exact halone

theorem answer_producer_iff (hname : t.get? name = some (.producer inputs body)) :
    answer t fill name args = .ok out ↔
      ∃ texts, inputs.mapM (fun i => text t i []) = .ok texts ∧ out = body texts args := by
  refine ⟨answer_producer hname, ?_⟩
  rintro ⟨texts, htexts, rfl⟩
  have hsound : Sound t name := sound_of_inputs hname fun i hi => by
    have halone : ∃ out, answer t false i [] = .ok out := mapM_eq_ok_mem htexts i hi
    exact answer_ok_iff.mp halone
  obtain ⟨out, hout⟩ : ∃ out, answer t fill name args = .ok out := answer_ok_iff.mpr hsound
  obtain ⟨texts', htexts', rfl⟩ := answer_producer hname hout
  rw [hout, Except.ok.inj (htexts.symm.trans htexts')]

/-- The patterns, and the producers whose inputs are being looked up. -/
structure Registry where
  patterns : Table
  resolving : List Bytes

namespace Registry

variable {r r' : Registry}

/-- The texts of the inputs, one after the other, up to the first that fails; nothing when one does not end. -/
def gather (ask : Registry → Bytes → Option (Except Error Bytes × Registry)) :
    Registry → List Bytes → Option (Except Error (List Bytes) × Registry)
  | r, [] => some (.ok [], r)
  | r, input :: inputs =>
    match ask r input with
    | none => none
    | some (.error e, r) => some (.error e, r)
    | some (.ok text, r) =>
      match gather ask r inputs with
      | none => none
      | some (texts, r) => some (texts.map (text :: ·), r)

/-- A lookup, which enters a producer in the registry while its inputs are looked up; nothing when the producers lie
more than `fuel` deep. -/
def lookUp : (fuel : Nat) → Registry → (fill : Bool) → (name : Bytes) → (args : List Bytes) →
    Option (Except Error Bytes × Registry)
  | fuel, r, fill, name, args =>
    match r.patterns.get? name with
    | none => some (.error (.unknown name), r)
    | some pattern =>
      if r.resolving.contains name then
        some (.error (.cyclic (r.resolving.dropWhile (· != name) ++ [name])), r)
      else match pattern with
        | .template text => some (.ok (if args.isEmpty && !fill then text else Template.format text args), r)
        | .producer inputs body =>
          match fuel with
          | 0 => none
          | fuel + 1 =>
            let entered : Registry := { r with resolving := r.resolving ++ [name] }
            match gather (fun r i => lookUp fuel r false i []) entered inputs with
            | none => none
            | some (texts, left) =>
              some (texts.map fun texts => body texts args, { left with resolving := left.resolving.dropLast })

/-- Lookups that leave the registry alone find one by one what they find together, unless one of them does not end. -/
theorem gather_cases (ask : Registry → Bytes → Option (Except Error Bytes × Registry)) {f : Bytes → Except Error Bytes}
    (h : ∀ i, ask r i = none ∨ ask r i = some (f i, r)) :
    (gather ask r inputs = none ∧ ∃ i ∈ inputs, ask r i = none) ∨ gather ask r inputs = some (inputs.mapM f, r) := by
  induction inputs with
  | nil => exact .inr rfl
  | cons i inputs ih =>
    rw [gather, List.mapM_cons]
    rcases h i with hi | hi
    · simp [hi]
    · cases hf : f i with
      | error e => simp only [hi, hf]; exact .inr rfl
      | ok text =>
        rcases ih with ⟨hrest, j, hj, hnone⟩ | hrest
        · simp only [hi, hf, hrest]
          exact .inl ⟨trivial, j, List.mem_cons_of_mem _ hj, hnone⟩
        · simp only [hi, hf, hrest]
          cases inputs.mapM f <;> exact .inr rfl

/-- A lookup that ends leaves the registry as it was, and finds what the names it has passed determine. -/
theorem lookUp_cases (fuel : Nat) (r : Registry) (fill : Bool) (name : Bytes) (args : List Bytes) :
    lookUp fuel r fill name args = none ∨
      lookUp fuel r fill name args = some (resolve r.patterns fuel r.resolving fill name args, r) := by
  fun_induction lookUp fuel r fill name args with
  | case1 fuel r fill name args hname =>
    right
    rw [resolve.eq_def]
    simp only [hname]
  | case2 fuel r fill name args pattern hname hback =>
    right
    rw [resolve.eq_def]
    simp only [hname, hback, if_true]
  | case3 fuel r fill name args hnew text hname =>
    right
    rw [resolve.eq_def]
    simp only [hname, hnew, Bool.false_eq_true, if_false]
    cases args.isEmpty && !fill <;> rfl
  | case4 => exact .inl rfl
  | case5 => exact .inl rfl
  | case6 r fill name args hnew inputs body fuel entered texts left hgather hname ih =>
    right
    rw [resolve.eq_def]
    simp only [hname, hnew, Bool.false_eq_true, if_false]
    rcases gather_cases (fun r i => lookUp fuel r false i []) (ih entered) with ⟨hnone, -⟩ | hsome
    · rw [hgather] at hnone
      cases hnone
    · obtain ⟨rfl, rfl⟩ : texts = _ ∧ left = entered := by simpa [hgather] using hsome
      simp only [entered, List.dropLast_concat]
      cases inputs.mapM fun i => resolve r.patterns fuel (r.resolving ++ [name]) false i [] <;> rfl

/-- A lookup ends: the names it passes are different ones of the table. -/
theorem lookUp_ne_none (hnodup : r.resolving.Nodup) (hregistered : ∀ n ∈ r.resolving, (r.patterns.get? n).isSome)
    (hfuel : r.patterns.length ≤ fuel + r.resolving.length) : lookUp fuel r fill name args ≠ none := by
  fun_induction lookUp fuel r fill name args with
  | case1 => exact Option.some_ne_none _
  | case2 => exact Option.some_ne_none _
  | case3 => exact Option.some_ne_none _
  | case4 r fill name args hnew inputs body hname =>
    have hlt := Dictionary.length_lt hnodup hregistered (Option.isSome_of_eq_some hname) (by simpa using hnew)
    omega
  | case5 r fill name args hnew inputs body fuel entered hgather hname ih =>
    rcases gather_cases (fun r i => lookUp fuel r false i []) fun i => lookUp_cases fuel entered false i [] with
      ⟨-, i, -, hi⟩ | hsome
    · refine absurd hi (ih entered i ?_ ?_ ?_)
      · exact hnodup.append (List.nodup_singleton _) (by simpa using hnew)
      · exact List.forall_mem_append.mpr ⟨hregistered, by simp [hname, entered]⟩
      · simp only [entered, List.length_append, List.length_singleton]
        omega
    · rw [hgather] at hsome
      cases hsome
  | case6 => exact Option.some_ne_none _

theorem lookUp_eq_answer (hfuel : t.length ≤ fuel) :
    lookUp fuel ⟨t, []⟩ fill name args = some (answer t fill name args, ⟨t, []⟩) := by
  have hends : lookUp fuel ⟨t, []⟩ fill name args ≠ none :=
    lookUp_ne_none List.nodup_nil (by simp) (by simpa using hfuel)
  rw [(lookUp_cases fuel ⟨t, []⟩ fill name args).resolve_left hends, answer_eq_resolve]
  -- A table agrees with itself on all names, so only the fuel is compared.
  have hagree : Agree (fun _ => True) t t := ⟨fun _ _ => rfl, fun _ _ _ _ _ _ _ => trivial⟩
  have hsame : resolve t fuel [] fill name args = resolve t t.length [] fill name args :=
    resolve_congr hagree trivial List.nodup_nil (by simp) (by simpa using hfuel) (by simp)
  rw [hsame]

/-- What is done with a registry: patterns are registered, in place of others of the same names, and asked for. -/
inductive Step where
  | register (name : Bytes) (pattern : Pattern)
  | ask (fill : Bool) (name : Bytes) (args : List Bytes)

/-- The answers, in order, and the registry in the end; nothing when a lookup does not end. -/
def run : Registry → List Step → Option (List (Except Error Bytes) × Registry)
  | r, [] => some ([], r)
  | r, .register name pattern :: steps => run { r with patterns := r.patterns.insert name pattern } steps
  | r, .ask fill name args :: steps =>
    match lookUp r.patterns.length r fill name args with
    | none => none
    | some (found, r) => (run r steps).map fun (later, r) => (found :: later, r)

def Step.entry? : Step → Option (Bytes × Pattern)
  | .register name pattern => some (name, pattern)
  | .ask .. => none

def registered (t : Table) (steps : List Step) : Table := t.insertAll (steps.filterMap Step.entry?)

/-- The answers from the tables of the moment alone. -/
def answers : Table → List Step → List (Except Error Bytes)
  | _, [] => []
  | t, .register name pattern :: steps => answers (t.insert name pattern) steps
  | t, .ask fill name args :: steps => answer t fill name args :: answers t steps

theorem answers_append (t : Table) (before after : List Step) :
    answers t (before ++ after) = answers t before ++ answers (registered t before) after := by
  induction before generalizing t with
  | nil => rfl
  | cons step before ih =>
    cases step with
    | register name pattern => exact ih _
    | ask fill name args => exact congrArg (_ :: ·) (ih t)

theorem run_eq_answers (t : Table) (steps : List Step) :
    run ⟨t, []⟩ steps = some (answers t steps, ⟨registered t steps, []⟩) := by
  induction steps generalizing t with
  | nil => rfl
  | cons step steps ih =>
    cases step with
    | register name pattern => exact ih _
    | ask fill name args =>
      rw [run, lookUp_eq_answer le_rfl]
      simp only [ih, Option.map_some]
      rfl

/-- A lookup ends, with as much fuel as there are patterns or more, and leaves the registry as it was, the producers
being resolved included. It gives a text just when all that the name leads to is registered and on no cycle: that of the
template, or what the producer makes of what its inputs are in the table of the moment. An error reports a name that is
missing or a cycle that is there. So what is asked for between registrations has no part in any later answer. -/
theorem lookUp_exact (t : Table) (fill : Bool) (name : Bytes) (args : List Bytes) :
    (∀ fuel, t.length ≤ fuel → lookUp fuel ⟨t, []⟩ fill name args = some (answer t fill name args, ⟨t, []⟩)) ∧
    (∀ fuel resolving found left, lookUp fuel ⟨t, resolving⟩ fill name args = some (found, left) →
      left = ⟨t, resolving⟩) ∧
    ((∃ out, answer t fill name args = .ok out) ↔ Sound t name) ∧
    (∀ e, answer t fill name args = .error e → Reports t name e) ∧
    (∀ text, t.get? name = some (.template text) →
      answer t fill name args = .ok (if args.isEmpty && !fill then text else Template.format text args)) ∧
    (∀ inputs body, t.get? name = some (.producer inputs body) → ∀ out, answer t fill name args = .ok out ↔
      ∃ texts, inputs.mapM (fun i => Pattern.text t i []) = .ok texts ∧ out = body texts args) ∧
    ∀ before after, run ⟨t, []⟩ (before ++ .ask fill name args :: after) =
      some (answers t before ++ answer (registered t before) fill name args :: answers (registered t before) after,
        ⟨registered t (before ++ after), []⟩) := by
  refine ⟨fun fuel hfuel => lookUp_eq_answer hfuel, fun fuel resolving found left h => ?_, answer_ok_iff,
    fun e he => answer_reports he, fun text hname => answer_template hname,
    fun inputs body hname out => answer_producer_iff hname, fun before after => ?_⟩
  · rcases lookUp_cases fuel ⟨t, resolving⟩ fill name args with hnone | hsome
    · rw [h] at hnone
      cases hnone
    · rw [h] at hsome
      exact (Prod.mk.inj (Option.some.inj hsome)).2
  · have hregistered : registered t (before ++ .ask fill name args :: after) = registered t (before ++ after) := by
      rw [registered, registered, List.filterMap_append, List.filterMap_append, List.filterMap_cons_none rfl]
    rw [run_eq_answers, answers_append, hregistered]
    rfl

def joined : Producer := fun inputs args => Bytes.join "," (inputs ++ args)

/-- An input used twice, a cycle entered from outside and an input that is not registered. -/
def tangle : Table :=
  [("word", .template "%s!"), ("twice", .producer ["word", "word"] joined), ("entry", .producer ["word", "one"] joined),
    ("one", .producer ["two"] joined), ("two", .producer ["one"] joined), ("lost", .producer ["gone"] joined)]

/-- The cycle is reported without the way to it; once the missing input is registered the name has a text, whatever was
asked for before. -/
theorem lookUp_exact_tangle :
    Sound tangle "twice" ∧ ¬Sound tangle "lost" ∧ Reports tangle "entry" (.cyclic ["one", "two", "one"]) ∧
    (run ⟨tangle, []⟩ [.ask false "entry" [], .ask false "lost" [], .register "gone" (.template "50%%"),
      .ask true "lost" ["x"], .ask true "gone" [], .ask false "twice" ["y"]]).map (fun e => (e.1, e.2.resolving)) =
      some ([.error (.cyclic ["one", "two", "one"]), .error (.unknown "gone"), .ok "50%%,x", .ok "50%", .ok "%s!,%s!,y"],
        []) := by
  refine ⟨?_, ?_, ?_, ?_⟩
  · exact (lookUp_exact tangle false "twice" []).2.2.1.mp ⟨"%s!,%s!", by decide⟩
  · intro hsound
    obtain ⟨out, hout⟩ := (lookUp_exact tangle false "lost" []).2.2.1.mpr hsound
    have hlost : answer tangle false "lost" [] = .error (.unknown "gone") := by decide
    rw [hlost] at hout
    cases hout
  · exact (lookUp_exact tangle false "entry" []).2.2.2.1 _ (by decide)
  · have hrun := (lookUp_exact tangle false "twice" ["y"]).2.2.2.2.2.2 [.ask false "entry" [], .ask false "lost" [],
      .register "gone" (.template "50%%"), .ask true "lost" ["x"], .ask true "gone" []] []
    refine (congrArg (Option.map fun e => (e.1, e.2.resolving)) hrun).trans ?_
    decide

end Registry

end Stencil.Pattern
