import Stencil.Proofs.Compile.Arguments
import Stencil.Proofs.Script.Results

/-! The order of spread arguments. Packed arguments are lists that are known at run time only; what the closure
receives are the plain values and the elements of these lists, as the call has them, whether the arguments are passed
as written or as one list put together from runs of plain ones and from the packed ones. -/

namespace Stencil

namespace Rendering

variable {α β : Type} {m : Rendering α} {a : α}

/-- The rendering gives `a`, whatever went on before. -/
def Returns (m : Rendering α) (a : α) : Prop := ∀ p, ∃ q, m.run p = (.ok a, q)

namespace Returns

theorem pure (a : α) : Returns (Pure.pure a) a := fun p => ⟨p, rfl⟩

theorem lift {e : Except Failure α} (h : e = .ok a) : Returns (liftM e : Rendering α) a := by
  rw [h]
  exact pure a

theorem say (topic : Topic) (line : Bytes) : Returns (Rendering.say topic line) () := fun _ => ⟨_, rfl⟩

theorem bind {k : α → Rendering β} {b : β} (hm : Returns m a) (hk : Returns (k a) b) : Returns (m >>= k) b := by
  intro p
  obtain ⟨mid, hmid⟩ := hm p
  obtain ⟨q, hq⟩ := hk mid
  exact ⟨q, by rw [run_bind, hmid]; exact hq⟩

theorem forM {f : α → Rendering Unit} (h : ∀ a, Returns (f a) ()) (xs : List α) : Returns (xs.forM f) () := by
  induction xs with
  | nil => exact pure ()
  | cons x xs ih => exact bind (h x) ih

end Returns

end Rendering

namespace Expansion

open Rendering (Returns)
open Script (Numbered asArray ofList mergeEntries)

variable {env : Environment} {call : Call}

/-- An argument with its code and what the code gives at run time; a packed one gives a list. -/
structure Passed where
  argument : Argument
  code : Bytes
  value : Value
  isList : argument.packed → ∃ es, value = .array es ∧ Numbered es

/-- The values that the argument stands for in the call. -/
def Passed.elements (p : Passed) : List Value :=
  if p.argument.packed then (asArray p.value).map (·.2) else [p.value]

theorem Passed.elements_of_plain {p : Passed} (h : p.argument.packed = false) : p.elements = [p.value] := by
  rw [elements, h]
  rfl

theorem Passed.elements_of_packed {p : Passed} (h : p.argument.packed) : p.elements = (asArray p.value).map (·.2) :=
  if_pos h

theorem Passed.numbered {p : Passed} (h : p.argument.packed) : Numbered (asArray p.value) := by
  obtain ⟨es, hes, hnumbered⟩ := p.isList h
  rw [hes]
  exact hnumbered

/-- What `array_merge` is given: an array of plain arguments, or a packed one. -/
inductive Operand where
  | literal (plain : List Passed) (h : ∀ p ∈ plain, p.argument.packed = false)
  | list (p : Passed) (h : p.argument.packed)

namespace Operand

def members : Operand → List Passed
  | literal plain _ => plain
  | list p _ => [p]

def code : Operand → Bytes
  | literal plain _ => Ascii.lbracket :: (Bytes.join ", " (plain.map (·.code)) ++ [Ascii.rbracket])
  | list p _ => p.code

def entries : Operand → List (Key × Value)
  | literal plain _ => ofList (plain.map (·.value))
  | list p _ => asArray p.value

theorem numbered (o : Operand) : Numbered o.entries := by
  cases o with
  | literal plain h => exact Script.numbered_ofList _
  | list p h => exact p.numbered h

theorem values_entries (o : Operand) : o.entries.map (·.2) = o.members.flatMap Passed.elements := by
  cases o with
  | literal plain h =>
    have helements : plain.flatMap Passed.elements = plain.flatMap fun p => [p.value] :=
      List.flatMap_congr fun p hp => Passed.elements_of_plain (h p hp)
    rw [entries, members, Script.values_ofList, helements, List.map_eq_flatMap]
  | list p h => rw [entries, members, List.flatMap_singleton, Passed.elements_of_packed h]

end Operand

def mergeCode (os : List Operand) : Bytes := "array_merge(" ++ Bytes.join ", " (os.map Operand.code) ++ ")"

def merged (os : List Operand) : List (Key × Value) := os.foldl (fun es o => mergeEntries es o.entries) []

theorem values_foldl_merge (os : List Operand) {es : List (Key × Value)} (hes : Numbered es) :
    (os.foldl (fun es o => mergeEntries es o.entries) es).map (·.2) =
      es.map (·.2) ++ (os.flatMap Operand.members).flatMap Passed.elements := by
  induction os generalizing es with
  | nil => simp
  | cons o os ih =>
    obtain ⟨hvalues, hnumbered⟩ := Script.mergeEntries_numbered hes o.numbered
    rw [List.foldl_cons, ih hnumbered, hvalues, o.values_entries, List.flatMap_cons, List.flatMap_append,
      List.append_assoc]

theorem values_merged (os : List Operand) :
    (merged os).map (·.2) = (os.flatMap Operand.members).flatMap Passed.elements := values_foldl_merge os nofun

theorem arrayOf_operands {plain : List Passed} (hplain : ∀ p ∈ plain, p.argument.packed = false) :
    ∃ os : List Operand, arrayOf (plain.map (·.code)) = os.map Operand.code ∧
      os.flatMap Operand.members = plain.reverse := by
  rw [arrayOf, List.isEmpty_map]
  split
  next hempty =>
    rw [List.isEmpty_iff.mp hempty]
    exact ⟨[], rfl, rfl⟩
  next =>
    refine ⟨[.literal plain.reverse fun p hp => hplain p (List.mem_reverse.mp hp)], ?_, List.flatMap_singleton _ _⟩
    rw [List.map_singleton, Operand.code, List.map_reverse]

/-- The parts are made of the run so far and the arguments to come, each used once and in its place. -/
theorem listParts_operands {plain : List Passed} (hplain : ∀ p ∈ plain, p.argument.packed = false) (ps : List Passed) :
    ∃ os : List Operand, listParts (plain.map (·.code)) (ps.map fun p => (p.argument, p.code)) = os.map Operand.code ∧
      os.flatMap Operand.members = plain.reverse ++ ps := by
  induction ps generalizing plain with
  | nil =>
    rw [List.append_nil]
    exact arrayOf_operands hplain
  | cons p ps ih =>
    rw [List.map_cons, listParts]
    split
    next hpacked =>
      obtain ⟨before, hbefore, hrun⟩ := arrayOf_operands hplain
      obtain ⟨after, hafter, hrest⟩ := ih (List.forall_mem_nil _)
      refine ⟨before ++ .list p hpacked :: after, ?_, ?_⟩
      · rw [hbefore, List.map_append, List.map_cons, ← hafter]
        rfl
      · rw [List.flatMap_append, List.flatMap_cons, hrun, hrest]
        rfl
    next hplainNext =>
      obtain ⟨os, hos, hmembers⟩ := ih (List.forall_mem_cons.mpr ⟨by simpa using hplainNext, hplain⟩)
      refine ⟨os, hos, ?_⟩
      rw [hmembers, List.reverse_cons, List.append_assoc]
      rfl

/-- An actual argument in the code: a value, an unpacked list, or an unpacked call of `array_merge`. -/
inductive Actual where
  | plain (p : Passed) (h : p.argument.packed = false)
  | unpack (p : Passed) (h : p.argument.packed)
  | unpackMerged (os : List Operand)

namespace Actual

def members : Actual → List Passed
  | plain p _ => [p]
  | unpack p _ => [p]
  | unpackMerged os => os.flatMap Operand.members

def code : Actual → Bytes
  | plain p _ => p.code
  | unpack p _ => "..." ++ p.code
  | unpackMerged os => "..." ++ mergeCode os

def values : Actual → List Value
  | plain p _ => [p.value]
  | unpack p _ => (asArray p.value).map (·.2)
  | unpackMerged os => (merged os).map (·.2)

def Unpacks : Actual → Prop
  | plain _ _ => False
  | unpack _ _ => True
  | unpackMerged _ => True

theorem values_eq (a : Actual) : a.values = a.members.flatMap Passed.elements := by
  cases a with
  | plain p h => rw [values, members, List.flatMap_singleton, Passed.elements_of_plain h]
  | unpack p h => rw [values, members, List.flatMap_singleton, Passed.elements_of_packed h]
  | unpackMerged os => exact values_merged os

def written (p : Passed) : Actual :=
  if h : p.argument.packed then .unpack p h else .plain p (Bool.eq_false_of_not_eq_true h)

theorem members_written (p : Passed) : (written p).members = [p] := by
  rw [written]
  split <;> rfl

theorem code_written (p : Passed) : (written p).code = if p.argument.packed then "..." ++ p.code else p.code := by
  rw [written]
  split <;> rfl

theorem unpacks_written {p : Passed} : (written p).Unpacks ↔ p.argument.packed := by
  rw [written]
  split
  next h => exact iff_of_true trivial h
  next h => exact iff_of_false id h

end Actual

/-- Unless some argument follows a packed one, all that follow one are packed. -/
theorem pairwise_of_not_mixed {args : List Argument} (h : isMixed args = false) :
    args.Pairwise fun a b => a.packed → b.packed := by
  induction args with
  | nil => exact .nil
  | cons a args ih =>
    rw [isMixed] at h
    by_cases ha : a.packed
    · rw [List.dropWhile_cons_of_neg (by simpa using ha), List.any_eq_false] at h
      have hpacked : ∀ b ∈ a :: args, b.packed := fun b hb => by simpa using h b hb
      exact List.pairwise_of_forall_mem_list fun _ _ b hb _ => hpacked b hb
    · rw [List.dropWhile_cons_of_pos (by simpa using ha)] at h
      exact .cons (fun _ _ hpacked => absurd hpacked ha) (ih h)

theorem args_of_codes {codes : List (Argument × Bytes)} (h : argumentCodes env call = .ok codes) :
    codes.map (·.1) = call.args := by
  have hsame : List.Forall₂ (fun a c => a = c.1) call.args codes := by
    refine (mapM_eq_ok_iff.mp h).imp fun a c hc => ?_
    obtain ⟨code, -, hc⟩ := bind_eq_ok hc
    cases hc
    rfl
  exact (List.forall₂_eq_eq_eq ▸ List.forall₂_map_right_iff.mpr hsame : call.args = codes.map (·.1)).symm

theorem listCode_returns (call : Call) (codes : List (Argument × Bytes)) :
    Returns (listCode call codes) ("array_merge(" ++ Bytes.join ", " (listParts [] codes) ++ ")") := by
  refine .bind (.forM (fun c => ?_) codes) (.pure _)
  obtain ⟨a, code⟩ := c
  by_cases ha : a.packed
  · simp only [ha, if_true]
    exact .say _ _
  · simp only [ha]
    exact .pure ()

/-- One list of all arguments is made by merging operands that take them up in order. -/
theorem listCode_merges (call : Call) (passed : List Passed) : ∃ os : List Operand,
    os.flatMap Operand.members = passed ∧
      Returns (listCode call (passed.map fun p => (p.argument, p.code))) (mergeCode os) := by
  obtain ⟨os, hcodes, hmembers⟩ := listParts_operands (List.forall_mem_nil _) passed
  refine ⟨os, hmembers, ?_⟩
  rw [mergeCode, ← hcodes]
  exact listCode_returns call _

def argumentList (env : Environment) (call : Call) : Rendering Bytes := do listCode call (← argumentCodes env call)

/-- Where the arguments may run into the attributes, the list is saved, and its first elements are passed. -/
theorem spreadAttributes_saves {list : Bytes} (hlist : Returns (argumentList env call) list) {site : Site} {m : Mixin}
    {a a' : Actuals} {p q : Progress} (h : (spreadAttributes env site call m a).run p = (.ok a', q)) :
    ∃ saved : Bytes, a'.setup = a.setup ++ saved ++ " = " ++ list ++ "; " ∧
      a'.args = ["...array_slice(" ++ saved ++ ", 0, " ++ Bytes.ofNat m.params.length ++ ")"] := by
  rw [spreadAttributes] at h
  obtain ⟨codes, mid, hcodes, h⟩ := Rendering.bind_run_ok h
  obtain ⟨code, _, hcode, h⟩ := Rendering.bind_run_ok h
  obtain rfl : code = list := by
    obtain ⟨_, hreturned⟩ := hlist p
    rw [argumentList, Rendering.run_bind, hcodes] at hreturned
    exact Except.ok.inj (Prod.mk.inj (hcode.symm.trans hreturned)).1
  obtain ⟨n, _, -, h⟩ := Rendering.bind_run_ok h
  obtain ⟨accessor, _, -, h⟩ := Rendering.bind_run_ok h
  obtain ⟨_, _, -, h⟩ := Rendering.bind_run_ok h
  cases h
  exact ⟨_, rfl, rfl⟩

theorem spreadArguments_returns {passed : List Passed}
    (h : argumentCodes env call = .ok (passed.map fun p => (p.argument, p.code))) :
    ∃ actuals : List Actual, actuals.flatMap Actual.members = passed ∧
      (actuals.Pairwise fun a b => a.Unpacks → b.Unpacks) ∧
      Returns (spreadArguments env call) (actuals.map Actual.code) := by
  have hargs : call.args = passed.map (·.argument) := by
    rw [← args_of_codes h, List.map_map]
    rfl
  cases hmixed : isMixed call.args with
  | true =>
    obtain ⟨os, hmembers, hlist⟩ := listCode_merges call passed
    refine ⟨[.unpackMerged os], ?_, List.pairwise_singleton _ _, .bind (.lift h) ?_⟩
    · rw [List.flatMap_singleton]
      exact hmembers
    · rw [if_pos hmixed]
      exact .bind hlist (.pure _)
  | false =>
    refine ⟨passed.map Actual.written, ?_, ?_, .bind (.lift h) ?_⟩
    · rw [List.flatMap_map]
      simp only [Actual.members_written, List.flatMap_singleton']
    · rw [List.pairwise_map]
      have hpairwise := pairwise_of_not_mixed hmixed
      rw [hargs, List.pairwise_map] at hpairwise
      simpa only [Actual.unpacks_written] using hpairwise
    · have hcodes : (passed.map fun p => (p.argument, p.code)).map (fun c => if c.1.packed then "..." ++ c.2 else c.2) =
          (passed.map Actual.written).map Actual.code := by
        simp only [List.map_map, Function.comp_def, Actual.code_written]
      rw [if_neg (by simp [hmixed]), ← hcodes]
      exact .pure _

/-- Whatever the packed arguments give, the closure receives the plain values and the elements of the packed lists as
they are ordered in the call, and nothing that is not unpacked comes after something that is. The list of all arguments,
which is saved where they may run into the attributes, has the same values. -/
theorem arguments_spread {passed : List Passed}
    (h : argumentCodes env call = .ok (passed.map fun p => (p.argument, p.code))) :
    (∃ actuals : List Actual,
      Returns (spreadArguments env call) (actuals.map Actual.code) ∧
      actuals.flatMap Actual.members = passed ∧
      actuals.flatMap Actual.values = passed.flatMap Passed.elements ∧
      actuals.Pairwise fun a b => a.Unpacks → b.Unpacks) ∧
    ∃ os : List Operand,
      Returns (argumentList env call) (mergeCode os) ∧
      os.flatMap Operand.members = passed ∧
      (merged os).map (·.2) = passed.flatMap Passed.elements ∧
      ∀ site m a a' p q, (spreadAttributes env site call m a).run p = (.ok a', q) →
        ∃ saved : Bytes, a'.setup = a.setup ++ saved ++ " = " ++ mergeCode os ++ "; " ∧
          a'.args = ["...array_slice(" ++ saved ++ ", 0, " ++ Bytes.ofNat m.params.length ++ ")"] := by
  obtain ⟨actuals, hmembers, hpairwise, hreturns⟩ := spreadArguments_returns h
  obtain ⟨os, hlisted, hlist⟩ := listCode_merges call passed
  have hlist : Returns (argumentList env call) (mergeCode os) := .bind (.lift h) hlist
  refine ⟨⟨actuals, hreturns, hmembers, ?_, hpairwise⟩, os, hlist, hlisted, ?_,
    fun _ _ _ _ _ _ hsaves => spreadAttributes_saves hlist hsaves⟩
  · rw [← hmembers, List.flatMap_assoc]
    exact List.flatMap_congr fun a _ => a.values_eq
  · rw [values_merged, hlisted]

def spreadVariable (code : Bytes) (vs : List Value) : Passed where
  argument := ⟨true, { source := code, escape := false, checked := true }⟩
  code := code
  value := .array (ofList vs)
  isList := fun _ => ⟨_, rfl, Script.numbered_ofList vs⟩

def plainLiteral (code : Bytes) (v : Value) : Passed where
  argument := ⟨false, { source := code, escape := false, checked := false }⟩
  code := code
  value := v
  isList := nofun

/-- Literals around a list of two and an empty one. -/
def dishes : List Passed :=
  [plainLiteral "1" (.int 1), spreadVariable "$two" [.null, .int 6], spreadVariable "$none" [],
    plainLiteral "'x'" (.string "x")]

def feast : Call := ⟨"menu", dishes.map (·.argument), [], []⟩

theorem arguments_spread_dishes : ∃ actuals : List Actual,
    actuals.map Actual.code = ["...array_merge([1], $two, $none, ['x'])"] ∧
    actuals.flatMap Actual.members = dishes ∧
    actuals.flatMap Actual.values = [.int 1, .null, .int 6, .string "x"] := by
  have hcodes : argumentCodes leaf feast = .ok (dishes.map fun p => (p.argument, p.code)) := by rfl
  have hwritten : ((spreadArguments leaf feast).run { ledger := .start, nextNode := 1 }).1 =
      .ok ["...array_merge([1], $two, $none, ['x'])"] := by rfl
  obtain ⟨⟨actuals, hreturns, hmembers, hvalues, -⟩, -⟩ := arguments_spread hcodes
  obtain ⟨q, hq⟩ := hreturns { ledger := .start, nextNode := 1 }
  rw [hq] at hwritten
  exact ⟨actuals, Except.ok.inj hwritten, hmembers, hvalues.trans (by rfl)⟩

end Expansion

end Stencil
