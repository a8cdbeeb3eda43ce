import Mathlib.Data.List.DropRight
import Stencil.Compile.Session
import Stencil.Proofs.Compile.Marks
import Stencil.Proofs.Token.Extent

/-! What the closure of a call receives. A parameter without an argument is null, so nulls at the end may be left out; those
that a call passes to the variadic parameter are left out too, and these the closure never sees. -/

namespace Stencil.Expansion

/-- What each parameter receives: the next argument, or the null it defaults to where none is left, and a variadic one all
that are left. -/
def receive : (formals args : List Bytes) → List (Bytes × List Bytes)
  | [], _ => []
  | formal :: formals, args =>
    match Bytes.after? "..." formal with
    | some name => [(name, args)]
    | none => (Bytes.dropTail " = null" formal, [args.headD "null"]) :: receive formals args.tail

def withoutNulls (codes : List Bytes) : List Bytes := codes.rdropWhile fun code => code == "null"

variable {env : Environment} {scope : Scope} {m : Mixin} {b : Binding} {codes rest : List Bytes}

theorem withoutNulls_concat (codes : List Bytes) (code : Bytes) :
    withoutNulls (codes ++ [code]) = if code = "null" then withoutNulls codes else codes ++ [code] := by
  simp only [withoutNulls, List.rdropWhile_concat, beq_iff_eq]

theorem getD_withoutNulls (codes : List Bytes) (i : Nat) : (withoutNulls codes).getD i "null" = codes.getD i "null" := by
  induction codes using List.reverseRecOn with
  | nil => rfl
  | append_singleton codes code ih =>
    rw [withoutNulls_concat]
    split
    next hnull =>
      rw [ih, hnull]
      simp only [List.getD_eq_getElem?_getD, List.getElem?_append]
      split
      · rfl
      next hi =>
        rw [List.getElem?_eq_none (Nat.le_of_not_lt hi)]
        cases i - codes.length <;> rfl
    next => rfl

theorem drop_withoutNulls (codes rest : List Bytes) :
    (withoutNulls (codes ++ rest)).drop codes.length = withoutNulls rest := by
  induction rest using List.reverseRecOn with
  | nil =>
    rw [List.append_nil]
    exact List.drop_eq_nil_of_le (List.rdropWhile_prefix _ _).length_le
  | append_singleton rest code ih =>
    rw [← List.append_assoc, withoutNulls_concat, withoutNulls_concat]
    split
    · exact ih
    · rw [List.append_assoc, List.drop_left]

theorem withoutNulls_eq_self_iff : withoutNulls rest = rest ↔ rest.getLast? ≠ some ("null" : Bytes) := by
  rw [withoutNulls, List.rdropWhile_eq_self_iff]
  cases rest using List.reverseRecOn with
  | nil => simp
  | append_singleton rest code => simp

theorem bindParams_names (runtime : Bool) (attributes : List Attribute) (used : List NodeId) (args : List Argument)
    (names : List Bytes) : (Binding.bindParams runtime attributes used args names).map (·.name) = names := by
  induction names generalizing used args with
  | nil => cases args <;> rfl
  | cons name names ih =>
    cases args with
    | cons arg args => exact congrArg (name :: ·) (ih used args)
    | nil =>
      rw [Binding.bindParams]
      split <;> exact congrArg (name :: ·) (ih _ [])

theorem dropTail_append (s tail : Bytes) : Bytes.dropTail tail (s ++ tail) = s := by
  rw [Bytes.dropTail, Bytes.dropLead, List.reverse_append, Bytes.after?_eq_some.mpr rfl]
  exact s.reverse_reverse

theorem receive_params (formals : List Bytes) {params : List Parameter} (hlength : params.length = codes.length)
    {args : List Bytes} (hcodes : ∀ i < codes.length, args.getD i "null" = codes.getD i "null") :
    receive ((params.map fun p => ("$" : Bytes) ++ p.name ++ " = null") ++ formals) args =
      List.zipWith (fun p code => (("$" : Bytes) ++ p.name, [code])) params codes ++
        receive formals (args.drop codes.length) := by
  induction params generalizing codes args with
  | nil =>
    obtain rfl := List.eq_nil_of_length_eq_zero hlength.symm
    rfl
  | cons p params ih =>
    cases codes with
    | nil => cases hlength
    | cons code codes =>
      have hfirst : args.headD "null" = code := by
        cases args <;> exact hcodes 0 (Nat.succ_pos _)
      have hrest : ∀ i < codes.length, args.tail.getD i "null" = codes.getD i "null" := by
        intro i hi
        simpa using hcodes (i + 1) (Nat.succ_lt_succ hi)
      have hplain : Bytes.after? "..." (("$" : Bytes) ++ p.name ++ " = null") = none := rfl
      rw [List.map_cons, List.cons_append, receive, hplain]
      dsimp only
      rw [dropTail_append, hfirst, ih (Nat.succ.inj hlength) hrest, List.drop_tail]
      rfl

theorem actuals_run_ok {render : Render} {id : NodeId} {site : Site} {call : Call} {children : List Element} {p q : Progress}
    {a : Actuals} (hruntime : b.runtime = false)
    (hrun : (actuals env render scope id site call children m b).run p = (.ok a, q)) :
    boundArguments env scope m b = .ok a.args := by
  rw [actuals] at hrun
  obtain ⟨⟨setup, block⟩, _, -, hrun⟩ := Rendering.bind_run_ok hrun
  obtain ⟨⟨attributes, known⟩, _, -, hrun⟩ := Rendering.bind_run_ok hrun
  simp only [hruntime, Bool.false_eq_true, if_false, Bool.false_and] at hrun
  obtain ⟨args, _, hargs, hrun⟩ := Rendering.bind_run_ok hrun
  obtain ⟨hok, rfl⟩ := Rendering.lift_run_ok hargs
  cases hrun
  exact hok

/-- In a call that spreads no argument every parameter receives the code of what it is bound to, and the variadic one the
codes left over but for nulls at their end. -/
theorem actuals_received {v : Bytes} (hvariadic : m.variadic = some v) (hv : v ≠ "attributes") {render : Render}
    {id : NodeId} {site : Site} {call : Call} (hplain : ∀ arg ∈ call.args, arg.packed = false) {attributes : List Attribute}
    (hb : b = Binding.ofCall m call.args attributes) {children : List Element} {p q : Progress} {a : Actuals}
    (hrun : (actuals env render scope id site call children m b).run p = (.ok a, q)) :
    ∃ codes rest, b.params.mapM (parameter env scope) = .ok codes ∧
      (b.rest.mapM fun arg => env.snippet arg.code) = .ok rest ∧
      receive (formals m) (a.attributes :: a.block :: a.args) =
        ([("$attributes", [a.attributes]), ("$__pug_children", [a.block])] : List (Bytes × List Bytes)) ++
          List.zipWith (fun p code => (("$" : Bytes) ++ p.name, [code])) b.params codes ++ [("$" ++ v, withoutNulls rest)] ∧
      (withoutNulls rest = rest ↔ rest.getLast? ≠ some ("null" : Bytes)) := by
  have hruntime : b.runtime = false := by
    rw [hb]
    exact List.any_eq_false.mpr fun arg harg => by simp [hplain arg harg]
  have htakes : takesAttributes m = false := by simpa [takesAttributes, hvariadic] using hv
  have hargs := actuals_run_ok hruntime hrun
  rw [boundArguments] at hargs
  obtain ⟨codes, hcodes, hargs⟩ := bind_eq_ok hargs
  simp only [htakes, Bool.false_eq_true, if_false] at hargs
  obtain ⟨rest, hrest, hargs⟩ := bind_eq_ok hargs
  have hargs : withoutNulls (codes ++ rest) = a.args := Except.ok.inj hargs
  refine ⟨codes, rest, hcodes, hrest, ?_, withoutNulls_eq_self_iff⟩
  have hnames : b.params.map (·.name) = m.params := by rw [hb]; exact bindParams_names ..
  have hformals : formals m = (["$attributes", "$__pug_children"] : List Bytes) ++
      (b.params.map fun p => ("$" : Bytes) ++ p.name ++ " = null") ++ [("...$" : Bytes) ++ v] := by
    rw [formals, hvariadic, htakes, ← hnames, List.map_map]
    rfl
  have hlength : b.params.length = codes.length := (length_of_mapM hcodes).symm
  have hcodes : ∀ i < codes.length, a.args.getD i "null" = codes.getD i "null" := by
    intro i hi
    rw [← hargs, getD_withoutNulls, List.getD_eq_getElem?_getD, List.getElem?_append_left hi, List.getD_eq_getElem?_getD]
  have hparams := receive_params [("...$" : Bytes) ++ v] hlength hcodes
  rw [← hargs, drop_withoutNulls, hargs] at hparams
  rw [hformals]
  exact congrArg (fun rest : List (Bytes × List Bytes) => _ :: _ :: rest) hparams

def leaf : Environment where
  settings := {}
  dialect := .basic
  patterns := Session.patternTable { settings := {} } .basic
  fallback := "''"
  mixins := []

def menu : Mixin := ⟨"menu", ["first"], some "rest"⟩

/-- A call of the menu with constants. -/
def order (sources : List Bytes) : Call :=
  ⟨"menu", sources.map fun source => ⟨false, { source, escape := false, checked := false }⟩, [], []⟩

def served (sources : List Bytes) : Except Failure Actuals × Progress :=
  (actuals leaf (fun _ _ => return []) .outermost 0 ⟨"MixinCall", none⟩ (order sources) [] menu
    (Binding.ofCall menu (order sources).args [])).run { ledger := .start, nextNode := 1 }

/-- A null between others arrives. -/
theorem menu_received : ∃ a p, served ["1", "null", "2"] = (.ok a, p) ∧
    receive (formals menu) (a.attributes :: a.block :: a.args) =
      ([("$attributes", ["[]"]), ("$__pug_children", ["null"]), ("$first", ["1"]), ("$rest", ["null", "2"])] :
        List (Bytes × List Bytes)) := by
  have hrun : served ["1", "null", "2"] =
      (.ok ⟨[], "[]", some [], "null", ["1", "null", "2"]⟩, { ledger := .start, nextNode := 1 }) := rfl
  refine ⟨_, _, hrun, ?_⟩
  have hplain : ∀ arg ∈ (order ["1", "null", "2"]).args, arg.packed = false := by decide
  obtain ⟨codes, rest, hcodes, hrest, hreceive, -⟩ := actuals_received (by rfl) (by decide) hplain (by rfl) hrun
  cases hcodes
  cases hrest
  exact hreceive

/-- A null at the end does not. -/
theorem null_not_received : ¬ ∀ (env : Environment) (render : Render) (scope : Scope) (id : NodeId) (site : Site) (call : Call)
    (children : List Element) (m : Mixin) (v : Bytes) (attributes : List Attribute) (b : Binding) (p q : Progress)
    (a : Actuals), m.variadic = some v → v ≠ "attributes" → (∀ arg ∈ call.args, arg.packed = false) →
    b = Binding.ofCall m call.args attributes →
    (actuals env render scope id site call children m b).run p = (.ok a, q) →
    ∃ codes rest, b.params.mapM (parameter env scope) = .ok codes ∧
      (b.rest.mapM fun arg => env.snippet arg.code) = .ok rest ∧
      receive (formals m) (a.attributes :: a.block :: a.args) =
        ([("$attributes", [a.attributes]), ("$__pug_children", [a.block])] : List (Bytes × List Bytes)) ++
          List.zipWith (fun p code => (("$" : Bytes) ++ p.name, [code])) b.params codes ++ [("$" ++ v, rest)] := by
  intro h
  obtain ⟨codes, rest, hcodes, hrest, hreceive⟩ := h leaf (fun _ _ => return []) .outermost 0 ⟨"MixinCall", none⟩
    (order ["1", "2", "null"]) [] menu "rest" [] _ { ledger := .start, nextNode := 1 } _
    ⟨[], "[]", some [], "null", ["1", "2"]⟩ rfl (by decide) (by decide) rfl rfl
  cases hcodes
  cases hrest
  revert hreceive
  decide

end Stencil.Expansion
