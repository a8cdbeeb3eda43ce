import Stencil.Proofs.Script.Merging
import Mathlib.Data.List.Basic

/-! What the helpers return. Every loop collects texts in one variable or sets in another, so what a round adds gives
what the whole loop adds. -/

namespace Stencil.Script

open Stencil.Script.Expr Stencil.Script.Stmt

-- Expressions and statements are run by `simp` throughout.
attribute [local simp] Stmt.exec Expr.eval

variable {callees : Callees} {env : Env} {texts more : List Bytes} {x : Bytes}

def Numbered (es : List (Key × Value)) : Prop := ∀ e ∈ es, ∃ n, e.1 = .int n

theorem values_pushEntry (es : List (Key × Value)) (v : Value) :
    (pushEntry es v).map (·.2) = es.map (·.2) ++ [v] := by
  simp [pushEntry]

theorem Numbered.pushEntry {es : List (Key × Value)} (hes : Numbered es) (v : Value) : Numbered (pushEntry es v) := by
  intro e he
  rcases List.mem_append.mp he with he | he
  · exact hes e he
  · rw [List.mem_singleton.mp he]
    exact ⟨_, rfl⟩

theorem foldl_pushEntry (es : List (Key × Value)) (vs : List Value) (hes : Numbered es) :
    (vs.foldl pushEntry es).map (·.2) = es.map (·.2) ++ vs ∧ Numbered (vs.foldl pushEntry es) := by
  induction vs generalizing es with
  | nil => exact ⟨by simp, hes⟩
  | cons v vs ih =>
    obtain ⟨hvalues, hnumbered⟩ := ih (pushEntry es v) (hes.pushEntry v)
    exact ⟨by rw [List.foldl_cons, hvalues, values_pushEntry, List.append_assoc]; rfl, hnumbered⟩

theorem values_ofList (vs : List Value) : (ofList vs).map (·.2) = vs := (foldl_pushEntry [] vs nofun).1

theorem numbered_ofList (vs : List Value) : Numbered (ofList vs) := (foldl_pushEntry [] vs nofun).2

theorem mergeEntries_numbered {a b : List (Key × Value)} (ha : Numbered a) (hb : Numbered b) :
    (mergeEntries a b).map (·.2) = a.map (·.2) ++ b.map (·.2) ∧ Numbered (mergeEntries a b) := by
  have hab : Numbered (a ++ b) := by
    intro e he
    rcases List.mem_append.mp he with he | he
    · exact ha e he
    · exact hb e he
  have hfold : mergeEntries a b = ((a ++ b).map (·.2)).foldl pushEntry [] := by
    rw [mergeEntries, List.foldl_map]
    refine List.foldl_ext _ _ _ fun es e he => ?_
    obtain ⟨n, hn⟩ := hab e he
    rw [hn]
  obtain ⟨hvalues, hnumbered⟩ := foldl_pushEntry [] ((a ++ b).map (·.2)) nofun
  rw [hfold]
  exact ⟨by rw [hvalues, List.map_append]; rfl, hnumbered⟩

def Holds (env : Env) (x : Bytes) (texts : List Bytes) : Prop :=
  ∃ es, env x = .array es ∧ es.map (·.2) = texts.map .string ∧ Numbered es

/-- The statement goes on to the next one or the next round, with more texts in the variable. -/
def Adds (callees : Callees) (s : Stmt) (env : Env) (x : Bytes) (texts more : List Bytes) : Prop :=
  ∃ env' flow, s.exec callees env = some (env', flow) ∧ (∀ v, flow ≠ .result v) ∧ Holds env' x (texts ++ more)

theorem exec_seq_next {a b : Stmt} {env' : Env} (h : a.exec callees env = some (env', .next)) :
    (Stmt.seq a b).exec callees env = b.exec callees env' := by
  rw [exec, h]
  rfl

/-- What is known after every round of a loop is known after the loop, which goes on. -/
theorem exec_foreach {σ : Type} {P : Env → σ → Prop} {source : Expr} {key : Option Bytes} {item : Bytes} {body : Stmt}
    {es : List (Key × Value)} (g : σ → Key × Value → σ) (hsource : source.eval callees env = some (.array es))
    (hbody : ∀ env s, ∀ e ∈ es, P env s → ∃ env' flow, body.exec callees (env.enter key item e) = some (env', flow) ∧
      (∀ v, flow ≠ .result v) ∧ P env' (g s e)) {s : σ} (henv : P env s) :
    ∃ env', (foreach source key item body).exec callees env = some (env', .next) ∧ P env' (es.foldl g s) := by
  have hloop : ∃ env', loop (fun env e => body.exec callees (env.enter key item e)) env es = some (env', .next) ∧
      P env' (es.foldl g s) := by
    clear hsource
    induction es generalizing env s with
    | nil => exact ⟨env, rfl, henv⟩
    | cons e es ih =>
      obtain ⟨env₁, flow, hrun, hflow, henv₁⟩ := hbody env s e List.mem_cons_self henv
      obtain ⟨env₂, hloop, henv₂⟩ := ih (fun env s e he => hbody env s e (List.mem_cons_of_mem _ he)) henv₁
      refine ⟨env₂, ?_, henv₂⟩
      rw [loop, hrun]
      cases flow with
      | next => exact hloop
      | skip => exact hloop
      | result v => exact absurd rfl (hflow v)
  obtain ⟨env', hrun, henv'⟩ := hloop
  refine ⟨env', ?_, henv'⟩
  rw [exec, hsource]
  exact hrun

theorem foldl_append_flatMap {α : Type} (f : α → List Bytes) (l : List α) (texts : List Bytes) :
    l.foldl (fun texts a => texts ++ f a) texts = texts ++ l.flatMap f := by
  induction l generalizing texts with
  | nil => simp
  | cons a l ih => rw [List.foldl_cons, ih, List.flatMap_cons, List.append_assoc]

/-- A loop whose rounds each add something adds it all. -/
theorem foreach_adds {source : Expr} {key : Option Bytes} {item : Bytes} {body : Stmt} {es : List (Key × Value)}
    (f : Key × Value → List Bytes) (hsource : source.eval callees env = some (.array es))
    (hbody : ∀ env texts, ∀ e ∈ es, Holds env x texts → Adds callees body (env.enter key item e) x texts (f e))
    (henv : Holds env x texts) : Adds callees (foreach source key item body) env x texts (es.flatMap f) := by
  obtain ⟨env', hrun, henv'⟩ := exec_foreach (fun texts e => texts ++ f e) hsource hbody henv
  exact ⟨env', .next, hrun, nofun, foldl_append_flatMap f es texts ▸ henv'⟩

/-- A part that ends the round has the last word. -/
theorem Adds.leave {s rest : Stmt} {condition : Expr} {v : Value} (h : Adds callees s env x texts more)
    (hv : condition.eval callees env = some v) (htrue : v.isTruthy) :
    Adds callees (.seq (when condition (.seq s skip)) rest) env x texts more := by
  obtain ⟨env', flow, hrun, hflow, henv'⟩ := h
  refine ⟨env', .skip, ?_, nofun, henv'⟩
  cases flow with
  | next => simp [hv, htrue, hrun]
  | skip => simp [hv, htrue, hrun]
  | result v => exact absurd rfl (hflow v)

theorem Adds.pass {s rest : Stmt} {condition : Expr} {v : Value} (h : Adds callees rest env x texts more)
    (hv : condition.eval callees env = some v) (hfalse : v.isTruthy = false) :
    Adds callees (.seq (when condition s) rest) env x texts more := by
  obtain ⟨env', flow, hrun, hflow, henv'⟩ := h
  exact ⟨env', flow, by simp [hv, hfalse, hrun], hflow, henv'⟩

theorem Adds.when {s : Stmt} {condition : Expr} {v : Value} (h : Adds callees s env x texts more)
    (hv : condition.eval callees env = some v) (htrue : v.isTruthy) :
    Adds callees (.when condition s) env x texts more := by
  obtain ⟨env', flow, hrun, hflow, henv'⟩ := h
  exact ⟨env', flow, by simp [hv, htrue, hrun], hflow, henv'⟩

theorem Adds.unless {s : Stmt} {condition : Expr} {v : Value} (h : Holds env x texts)
    (hv : condition.eval callees env = some v) (hfalse : v.isTruthy = false) :
    Adds callees (.when condition s) env x texts [] :=
  ⟨env, .next, by simp [hv, hfalse], nofun, by simpa using h⟩

theorem push_adds {e : Expr} {s : Bytes} (h : Holds env x texts) (he : e.eval callees env = some (.string s)) :
    Adds callees (push x e) env x texts [s] := by
  obtain ⟨es, hes, hvalues, hnumbered⟩ := h
  refine ⟨env.set x (.array (pushEntry es (.string s))), .next, by simp [hes, he, entries?], nofun,
    pushEntry es (.string s), by simp [Env.set], ?_, hnumbered.pushEntry _⟩
  simp [values_pushEntry, hvalues]

theorem Holds.set_ne {y : Bytes} (h : Holds env x texts) (hne : x ≠ y) (v : Value) : Holds (env.set y v) x texts := by
  obtain ⟨es, hx, hes⟩ := h
  exact ⟨es, by rw [Env.set, if_neg hne]; exact hx, hes⟩

/-- The names one array entry gives: its key if that is a name and the value is truthy, else the words of its items. -/
def entryNames : Key × Value → List Bytes
  | (.name s, v) => if v.isTruthy then [s] else []
  | (.int _, v) => (asArray v).flatMap fun e => splitSpace e.2.text

def valueNames : Value → List Bytes
  | .array es => es.flatMap entryNames
  | .null => []
  | .bool false => []
  | v => splitSpace v.text

def classes (values : List Value) : Bytes :=
  Bytes.join [Ascii.space] ((values.flatMap valueNames).filter (· != [])).eraseDups

theorem addWords_adds {v : Value} (h : Holds env "classes" texts) (hx : env x = v) :
    Adds callees (addWords x) env "classes" texts (splitSpace v.text) := by
  obtain ⟨es, hes, hvalues, hnumbered⟩ := h
  obtain ⟨hmerged, hmerged'⟩ := mergeEntries_numbered hnumbered (numbered_ofList ((splitSpace v.text).map .string))
  refine ⟨env.set "classes" (.array (mergeEntries es (ofList ((splitSpace v.text).map .string)))), .next, ?_, nofun, _,
    by simp [Env.set], ?_, hmerged'⟩
  · simp [addWords, hes, hx, entries?, Value.text]
  · rw [hmerged, hvalues, values_ofList, List.map_append]

theorem addClassEntry_adds {e : Key × Value} (h : Holds env "classes" texts) (hkey : env "key" = e.1.toValue)
    (hitem : env "item" = e.2) : Adds callees addClassEntry env "classes" texts (entryNames e) := by
  obtain ⟨key, v⟩ := e
  cases key with
  | name s =>
    refine Adds.leave (v := .bool true) ?_ (by simp [hkey, Key.toValue]) rfl
    have hitem' : (var "item").eval callees env = some v := by rw [Expr.eval, hitem]
    by_cases hv : v.isTruthy
    · rw [entryNames, if_pos hv]
      exact (push_adds h (by rw [Expr.eval, hkey]; rfl)).when hitem' hv
    · rw [entryNames, if_neg hv]
      exact .unless h hitem' (by simpa using hv)
  | int n =>
    refine Adds.pass (v := .bool false) ?_ (by simp [hkey, Key.toValue]) rfl
    refine foreach_adds _ (by simp [hitem]) (fun env texts e _ henv => ?_) h
    exact addWords_adds (henv.set_ne (by decide) e.2) (by simp [Env.enter, Env.set])

theorem exists_of_isArray {v : Value} (hv : v.isArray) : ∃ es, v = .array es := by
  cases v with
  | array es => exact ⟨es, rfl⟩
  | _ => cases hv

theorem addClasses_adds {v : Value} (h : Holds env "classes" texts) (hvalue : env "value" = v) :
    Adds callees addClasses env "classes" texts (valueNames v) := by
  by_cases hv : v.isArray
  · obtain ⟨es, rfl⟩ := exists_of_isArray hv
    refine Adds.leave (v := .bool true) ?_ (by simp [hvalue, Value.isArray]) rfl
    refine foreach_adds _ (by rw [Expr.eval, hvalue]) (fun env texts e _ henv => ?_) h
    exact addClassEntry_adds ((henv.set_ne (by decide) _).set_ne (by decide) _) (by simp +decide [Env.enter, Env.set])
      (by simp [Env.enter, Env.set])
  · refine Adds.pass (v := .bool false) ?_ (by simpa [hvalue] using hv) rfl
    have hcondition : (and (differs (var "value") .null) (differs (var "value") .no)).eval callees env =
        some (.bool (!identical v .null && !identical v .no)) := by
      cases hnull : identical v .null <;> simp [hvalue, hnull, Value.isTruthy]
    have hwords : Adds callees (addWords "value") env "classes" texts (splitSpace v.text) := addWords_adds h hvalue
    cases v with
    | array es => exact absurd rfl hv
    | null => exact .unless h hcondition rfl
    | bool b =>
      cases b with
      | false => exact .unless h hcondition rfl
      | true => exact hwords.when hcondition rfl
    | int n => exact hwords.when hcondition rfl
    | float y => exact hwords.when hcondition rfl
    | string s => exact hwords.when hcondition rfl

theorem map_eraseDupsBy {α : Type} (f : α → Bytes) (l : List α) :
    (l.eraseDupsBy fun a b => f a == f b).map f = (l.map f).eraseDups := by
  have hloop : ∀ l kept : List α, (List.eraseDupsBy.loop (fun a b => f a == f b) l kept).map f =
      List.eraseDupsBy.loop (· == ·) (l.map f) (kept.map f) := by
    intro l
    induction l with
    | nil => simp [List.eraseDupsBy.loop]
    | cons a l ih =>
      intro kept
      have hany : (kept.map f).any (f a == ·) = kept.any (fun b => f a == f b) := List.any_map
      rw [List.map_cons, List.eraseDupsBy.loop, List.eraseDupsBy.loop, hany]
      cases kept.any (fun b => f a == f b) with
      | true => exact ih kept
      | false => exact ih (a :: kept)
  exact hloop l []

/-- A list of texts in a variable, each text that is not empty once, joined. -/
theorem eval_implode {separator : Bytes} (h : Holds env x texts) :
    (implode separator (renumber (unique (nonEmpty (var x))))).eval callees env =
      some (.string (Bytes.join separator (texts.filter (· != [])).eraseDups)) := by
  obtain ⟨es, hes, hvalues, -⟩ := h
  have htexts : es.map (·.2.text) = texts := by
    have := congrArg (List.map Value.text) hvalues
    simpa [Function.comp_def, Value.text] using this
  have hkept : ((es.filter (·.2.text != [])).eraseDupsBy (fun a b => a.2.text == b.2.text)).map (·.2.text) =
      (texts.filter (· != [])).eraseDups := by
    rw [map_eraseDupsBy (fun e : Key × Value => e.2.text), ← htexts, List.filter_map]
    rfl
  have hrenumbered : ∀ es : List (Key × Value), (ofList (es.map (·.2))).map (·.2.text) = es.map (·.2.text) := by
    intro es
    have := congrArg (List.map Value.text) (values_ofList (es.map (·.2)))
    simpa [Function.comp_def] using this
  simp only [Expr.eval, hes, entries?, Option.pure_def, Option.bind_eq_bind, Option.bind_some]
  rw [hrenumbered, hkept]

/-- A function that collects texts from its arguments, and what it makes of them in the end. -/
def collect (x : Bytes) (body : Stmt) (result : Expr) : Function where
  rest := "values"
  body := .seq (assign x emptyArray) <| .seq (foreach (var "values") none "value" body) <| give result

theorem run_collect {body : Stmt} {result : Expr} (f : Value → List Bytes) (hx : x ≠ "values")
    (hbody : ∀ env texts v, Holds env x texts → Adds callees body (env.set "value" v) x texts (f v))
    (values : List Value) :
    ∃ env, Holds env x (values.flatMap f) ∧ (collect x body result).run callees values = result.eval callees env := by
  have hstart : Holds ((Env.set (fun _ => .null) "values" (.array (ofList values))).set x (.array [])) x [] :=
    ⟨[], by simp [Env.set], rfl, nofun⟩
  have hsource : (var "values").eval callees
      ((Env.set (fun _ => .null) "values" (.array (ofList values))).set x (.array [])) = some (.array (ofList values)) := by
    simp [Env.set, hx.symm]
  have hround : ∀ env texts, ∀ e ∈ ofList values, Holds env x texts →
      Adds callees body (env.enter none "value" e) x texts (f e.2) :=
    fun env texts e _ henv => hbody env texts e.2 henv
  obtain ⟨env, hrun, henv⟩ := exec_foreach (fun texts e => texts ++ f e.2) hsource hround hstart
  refine ⟨env, ?_, ?_⟩
  · have hflat := List.flatMap_map (·.2) f (l := ofList values)
    rw [values_ofList] at hflat
    rw [hflat]
    rwa [foldl_append_flatMap (fun e : Key × Value => f e.2), List.nil_append] at henv
  · have hassign : (assign x emptyArray).exec callees (Env.set (fun _ => .null) "values" (.array (ofList values))) =
        some ((Env.set (fun _ => .null) "values" (.array (ofList values))).set x (.array []), .next) := rfl
    have hbody : (collect x body result).body.exec callees (Env.set (fun _ => .null) "values" (.array (ofList values))) =
        (give result).exec callees env :=
      (exec_seq_next hassign).trans (exec_seq_next hrun)
    have hrest : (collect x body result).rest = "values" := rfl
    rw [Function.run, hrest, hbody, exec]
    cases result.eval callees env <;> rfl

theorem run_mergeClasses (values : List Value) : mergeClasses.run callees values = some (.string (classes values)) := by
  obtain ⟨env, henv, hrun⟩ := run_collect valueNames (by decide)
    (fun env texts v henv => addClasses_adds (henv.set_ne (by decide) v) (by simp [Env.set])) values
  exact hrun.trans (eval_implode henv)

def declaration (s : Bytes) : Bytes := Bytes.dropWhileRight (";" : Bytes).contains (trimText s)

def declarations (s : Bytes) : List Bytes := if declaration s = [] then [] else [declaration s]

def entryStyles : Key × Value → List Bytes
  | (.name s, v) => if v.text = [] then [] else [s ++ ":" ++ v.text]
  | (.int _, v) => declarations v.text

def valueStyles : Value → List Bytes
  | .array es => es.flatMap entryStyles
  | v => declarations v.text

def styles (values : List Value) : Bytes := Bytes.join [Ascii.semicolon] (values.flatMap valueStyles)

theorem addStyleEntry_adds {e : Key × Value} (h : Holds env "styles" texts) (hkey : env "key" = e.1.toValue)
    (hitem : env "item" = e.2) : Adds callees addStyleEntry env "styles" texts (entryStyles e) := by
  obtain ⟨key, v⟩ := e
  cases key with
  | name s =>
    refine Adds.leave (v := .bool true) ?_ (by simp [hkey, Key.toValue]) rfl
    have hcondition : (differs (toText (var "item")) (.text [])).eval callees env = some (.bool (v.text != [])) := by
      simp [hitem, identical, bne]
    by_cases hv : v.text = []
    · rw [entryStyles, if_pos hv]
      exact .unless h hcondition (by simp [Value.isTruthy, hv])
    · rw [entryStyles, if_neg hv]
      refine (push_adds h ?_).when hcondition (by simp [Value.isTruthy, hv])
      simp [hkey, hitem, Key.toValue, Value.text, Constant.value]
  | int n =>
    refine Adds.pass (v := .bool false) ?_ (by simp [hkey, Key.toValue]) rfl
    have hassign : (assign "item" (trimRight (trim (toText (var "item"))) ";")).exec callees env =
        some (env.set "item" (.string (declaration v.text)), .next) := by
      simp [hitem, Value.text, declaration]
    have henv := h.set_ne (by decide : ("styles" : Bytes) ≠ "item") (.string (declaration v.text))
    have hitem' : (var "item").eval callees (env.set "item" (.string (declaration v.text))) =
        some (.string (declaration v.text)) := by
      simp [Env.set]
    have hcondition : (differs (var "item") (.text [])).eval callees (env.set "item" (.string (declaration v.text))) =
        some (.bool (declaration v.text != [])) := by
      rw [Expr.eval, hitem']
      rfl
    have hrest : Adds callees (when (differs (var "item") (.text [])) (push "styles" (var "item")))
        (env.set "item" (.string (declaration v.text))) "styles" texts (declarations v.text) := by
      by_cases ht : declaration v.text = []
      · rw [declarations, if_pos ht]
        exact .unless henv hcondition (by simp [Value.isTruthy, ht])
      · rw [declarations, if_neg ht]
        exact (push_adds henv hitem').when hcondition (by simp [Value.isTruthy, ht])
    obtain ⟨env', flow, hrun, hflow, henv'⟩ := hrest
    exact ⟨env', flow, (exec_seq_next hassign).trans hrun, hflow, henv'⟩

theorem addStyles_adds {v : Value} (h : Holds env "styles" texts) (hvalue : env "value" = v) :
    Adds callees addStyles env "styles" texts (valueStyles v) := by
  have hentries : ∀ {es : List (Key × Value)} {env : Env}, Holds env "styles" texts → env "value" = .array es →
      Adds callees (foreach (var "value") (some "key") "item" addStyleEntry) env "styles" texts
        (es.flatMap entryStyles) := by
    intro es env h hvalue
    refine foreach_adds _ (by rw [Expr.eval, hvalue]) (fun env texts e _ henv => ?_) h
    exact addStyleEntry_adds ((henv.set_ne (by decide) _).set_ne (by decide) _) (by simp +decide [Env.enter, Env.set])
      (by simp [Env.enter, Env.set])
  have hcondition : (not (isArray (var "value"))).eval callees env = some (.bool !v.isArray) := by
    simp [hvalue, Value.isTruthy]
  by_cases hv : v.isArray
  · obtain ⟨es, rfl⟩ := exists_of_isArray hv
    exact (hentries h hvalue).pass hcondition rfl
  · have hassign : (when (not (isArray (var "value"))) (assign "value" (single (toText (var "value"))))).exec callees env =
        some (env.set "value" (.array (ofList [.string v.text])), .next) := by
      rw [exec, hcondition]
      simp [hvalue, hv, Value.isTruthy]
    have hstyles : valueStyles v = (ofList [.string v.text]).flatMap entryStyles := by
      cases v with
      | array es => exact absurd rfl hv
      | _ => simp [valueStyles, ofList, pushEntry, entryStyles, Value.text]
    have hset : env.set "value" (.array (ofList [.string v.text])) "value" = .array (ofList [.string v.text]) := by
      simp [Env.set]
    obtain ⟨env', flow, hrun, hflow, henv'⟩ := hentries (h.set_ne (by decide) _) hset
    rw [hstyles]
    exact ⟨env', flow, (exec_seq_next hassign).trans hrun, hflow, henv'⟩

theorem run_mergeStyles (values : List Value) : mergeStyles.run callees values = some (.string (styles values)) := by
  obtain ⟨env, ⟨es, hes, hvalues, -⟩, hrun⟩ := run_collect valueStyles (by decide)
    (fun env texts v henv => addStyles_adds (henv.set_ne (by decide) v) (by simp [Env.set])) values
  refine hrun.trans ?_
  have htexts : es.map (·.2.text) = values.flatMap valueStyles := by
    have := congrArg (List.map Value.text) hvalues
    simpa [Function.comp_def, Value.text] using this
  simp only [Expr.eval, hes, entries?, Option.pure_def, Option.bind_eq_bind, Option.bind_some, htexts]
  rfl

/-- The value of `key` once `v` is added to what the entries hold under it. -/
def combine (es : List (Key × Value)) (key : Key) (v : Value) : Value :=
  let prev := (lookup? es key).getD .null
  if key = .name "class" then .string (classes [prev, v])
  else if key = .name "style" then .string (styles [prev, v])
  else v

def addEntry (es : List (Key × Value)) (e : Key × Value) : List (Key × Value) := setEntry e.1 (combine es e.1 e.2) es

def attributes (sets : List (List (Key × Value))) : List (Key × Value) := sets.flatten.foldl addEntry []

def library (classes styles : Bytes) : Callees := fun callee args =>
  if callee = classes then mergeClasses.run (fun _ _ => none) args
  else if callee = styles then mergeStyles.run (fun _ _ => none) args
  else none

/-- Keys as arrays store them. -/
def Stored (key : Key) : Prop := Key.ofValue key.toValue = key

variable {c s : Bytes} {es : List (Key × Value)} {key : Key} {v : Value}

theorem eval_previous (hes : env "attributes" = .array es) {name : Bytes} (hname : Key.ofText name = .name name) :
    (choose (isSet "attributes" name) (item "attributes" name) (constant .null)).eval callees env =
      some ((lookup? es (.name name)).getD .null) := by
  simp only [Expr.eval, hes, entries?, hname, Option.bind_eq_bind, Option.bind_some, Option.pure_def]
  cases lookup? es (.name name) with
  | none => rfl
  | some w => cases w <;> rfl

theorem identical_toValue (key : Key) (t : Bytes) : identical key.toValue (.text t) = decide (key = .name t) := by
  cases key with
  | int n => simp [Key.toValue, identical]
  | name s => simp [Key.toValue, identical, beq_eq_decide]

theorem Env.set_self (env : Env) (x : Bytes) : env.set x (env x) = env := by
  funext y
  rw [Env.set]
  split
  next h => rw [h]
  next => rfl

theorem exec_extend {callee name : Bytes} {w : Value} (hes : env "attributes" = .array es)
    (hname : Key.ofText name = .name name) (hvalue : env "value" = v)
    (hcallee : callees callee [(lookup? es (.name name)).getD .null, v] = some w) :
    (extend callee name).exec callees env = some (env.set "value" w, .next) := by
  rw [extend, exec, Expr.eval, eval_previous hes hname, Expr.eval, hvalue]
  simp only [Option.bind_eq_bind, Option.bind_some, hcallee]
  rfl

theorem exec_either (hcs : c ≠ s) (hes : env "attributes" = .array es) (hkey : env "key" = key.toValue)
    (hvalue : env "value" = v) :
    (either (same (var "key") (.text "class")) (extend c "class") (same (var "key") (.text "style"))
      (extend s "style")).exec (library c s) env = some (env.set "value" (combine es key v), .next) := by
  have hsame : ∀ t, (same (var "key") (.text t)).eval (library c s) env = some (.bool (decide (key = .name t))) := by
    intro t
    rw [Expr.eval, Expr.eval, hkey, Option.bind_eq_bind, Option.bind_some, identical_toValue]
    rfl
  rw [exec, hsame, hsame, Option.bind_eq_bind, Option.bind_some, Option.bind_some, combine]
  by_cases hclass : key = .name "class"
  · subst hclass
    refine exec_extend hes (by decide) hvalue ?_
    rw [library, if_pos rfl, run_mergeClasses]
    rfl
  by_cases hstyle : key = .name "style"
  · subst hstyle
    refine exec_extend hes (by decide) hvalue ?_
    rw [library, if_neg hcs.symm, if_pos rfl, run_mergeStyles]
    rfl
  · have hself : env.set "value" v = env := hvalue ▸ Env.set_self env "value"
    simp [hclass, hstyle, Value.isTruthy, hself]

def Gathers (env : Env) (es : List (Key × Value)) : Prop := env "attributes" = .array es

theorem Gathers.set_ne (h : Gathers env es) (hx : ("attributes" : Bytes) ≠ x) (v : Value) : Gathers (env.set x v) es := by
  rw [Gathers, Env.set, if_neg hx]
  exact h

theorem exec_addAttribute (hcs : c ≠ s) (hes : Gathers env es) (hkey : env "key" = key.toValue)
    (hvalue : env "value" = v) (hstored : Stored key) :
    ∃ env', (addAttribute c s).exec (library c s) env = some (env', .next) ∧ Gathers env' (addEntry es (key, v)) := by
  refine ⟨(env.set "value" (combine es key v)).set "attributes" (.array (addEntry es (key, v))), ?_,
    by simp [Gathers, Env.set]⟩
  rw [addAttribute, exec_seq_next (exec_either hcs hes hkey hvalue)]
  have hes' : env.set "value" (combine es key v) "attributes" = .array es := hes.set_ne (by decide) _
  have hkey' : env.set "value" (combine es key v) "key" = key.toValue := by simp +decide [Env.set, hkey]
  have hvalue' : env.set "value" (combine es key v) "value" = combine es key v := by simp [Env.set]
  rw [exec, Expr.eval, hes', hkey', hvalue', hstored]
  rfl

/-- A set of attributes may be missing. -/
def ofSet : Option (List (Key × Value)) → Value
  | some es => .array es
  | none => .null

theorem asArray_ofSet (set : Option (List (Key × Value))) : asArray (ofSet set) = set.getD [] := by
  cases set <;> rfl

theorem exec_addSet (hcs : c ≠ s) (hes : Gathers env es) {set : Option (List (Key × Value))}
    (hset : env "set" = ofSet set) (hstored : ∀ e ∈ set.getD [], Stored e.1) :
    ∃ env', (foreach (toArray (var "set")) (some "key") "value" (addAttribute c s)).exec (library c s) env =
      some (env', .next) ∧ Gathers env' ((set.getD []).foldl addEntry es) := by
  have hsource : (toArray (var "set")).eval (library c s) env = some (.array (set.getD [])) := by
    rw [Expr.eval, Expr.eval, hset, ← asArray_ofSet]
    rfl
  refine exec_foreach addEntry hsource (fun env es e he henv => ?_) hes
  have hkey : env.enter (some "key") "value" e "key" = e.1.toValue := by simp +decide [Env.enter, Env.set]
  have hvalue : env.enter (some "key") "value" e "value" = e.2 := by simp [Env.enter, Env.set]
  have henv' : Gathers (env.enter (some "key") "value" e) es := (henv.set_ne (by decide) _).set_ne (by decide) _
  obtain ⟨env', hrun, hgathers⟩ := exec_addAttribute hcs henv' hkey hvalue (hstored e he)
  exact ⟨env', .next, hrun, nofun, hgathers⟩

theorem run_mergeAttributes (storage : Bytes) (hcs : c ≠ s) {sets : List (Option (List (Key × Value)))}
    (hstored : ∀ set ∈ sets, ∀ e ∈ set.getD [], Stored e.1) :
    (mergeAttributes storage c s).run (library c s) (sets.map ofSet) =
      some (.array (attributes (sets.map (·.getD [])))) := by
  let start : Env := Env.set (fun _ => .null) "sets" (.array (ofList (sets.map ofSet)))
  have hassign : (assign "attributes" emptyArray).exec (library c s) start =
      some (start.set "attributes" (.array []), .next) := rfl
  have hsource : (var "sets").eval (library c s) (start.set "attributes" (.array [])) =
      some (.array (ofList (sets.map ofSet))) := by
    simp +decide [start, Env.set]
  have hround : ∀ env es, ∀ e ∈ ofList (sets.map ofSet), Gathers env es → ∃ env' flow,
      (foreach (toArray (var "set")) (some "key") "value" (addAttribute c s)).exec (library c s) (env.enter none "set" e) =
        some (env', flow) ∧ (∀ v, flow ≠ .result v) ∧ Gathers env' ((asArray e.2).foldl addEntry es) := by
    intro env es e he henv
    have hmem : e.2 ∈ (ofList (sets.map ofSet)).map (·.2) := List.mem_map_of_mem he
    rw [values_ofList] at hmem
    obtain ⟨set, hset, heq⟩ := List.mem_map.mp hmem
    have hvalue : env.enter none "set" e "set" = ofSet set := by simp [Env.enter, Env.set, heq]
    obtain ⟨env', hrun, hgathers⟩ := exec_addSet hcs (henv.set_ne (by decide) e.2) hvalue (hstored set hset)
    rw [← heq, asArray_ofSet]
    exact ⟨env', .next, hrun, nofun, hgathers⟩
  obtain ⟨env', hrun, hgathers⟩ := exec_foreach (fun es e => (asArray e.2).foldl addEntry es) hsource hround
    (by simp [Gathers, Env.set] : Gathers (start.set "attributes" (.array [])) [])
  have hbody : (mergeAttributes storage c s).body.exec (library c s) start =
      (give (var "attributes")).exec (library c s) env' :=
    (exec_seq_next hassign).trans (exec_seq_next hrun)
  have hfold : (ofList (sets.map ofSet)).foldl (fun es e => (asArray e.2).foldl addEntry es) [] =
      attributes (sets.map (·.getD [])) := by
    have hmap : ((ofList (sets.map ofSet)).map (·.2)).foldl (fun es v => (asArray v).foldl addEntry es) [] =
        (ofList (sets.map ofSet)).foldl (fun es e => (asArray e.2).foldl addEntry es) [] := List.foldl_map
    rw [values_ofList, List.foldl_map] at hmap
    simp only [asArray_ofSet] at hmap
    rw [← hmap, attributes, List.foldl_flatten, List.foldl_map]
  have hrest : (mergeAttributes storage c s).rest = "sets" := rfl
  rw [Function.run, hrest]
  change ((mergeAttributes storage c s).body.exec (library c s) start).bind _ = _
  rw [hbody, exec, Expr.eval, hgathers, hfold]
  rfl

end Stencil.Script
