import Mathlib.Logic.Function.Iterate
import Mathlib.Logic.Relation
import Stencil.Proofs.Compile.SourceMaps

/-! Mixins that call themselves. A rendering goes from a node to its children and from a call into the body of its mixin,
which may lie anywhere in the tree, so only the depth bounds it. A node that comes out at some depth lets all that it
enters come out at less; a mixin entered again inside its own body would have to come out at less depth than itself. -/

namespace Stencil.Render

open Expansion (Render)

/-- A node at a depth, with `self` rendering what it enters one deeper. -/
def enter (env : Environment) (self : (depth : Nat) → Scope → Element → Rendering Bytes) (depth : Nat) (scope : Scope)
    (e : Element) : Rendering Bytes :=
  if env.settings.maxDepth ≤ depth then throw (.tooDeep e.site env.settings.maxDepth)
  else content env (fun scope es => listFrom (self (depth + 1) scope) none es) scope e

/-- A node that may enter `budget` levels is rendered by as many turns and one more, whatever renders what is below. -/
theorem enter_iterate (env : Environment) (self : Nat → Scope → Element → Rendering Bytes) {depth budget : Nat}
    (hdepth : depth + budget = env.settings.maxDepth) :
    (enter env)^[budget + 1] self depth = node env budget := by
  induction budget generalizing depth with
  | zero =>
    funext scope e
    rw [Function.iterate_one, enter, if_pos (by omega), node]
  | succ budget ih =>
    funext scope e
    rw [Function.iterate_succ_apply', enter, if_neg (by omega), node, ih (by omega)]

/-- A node as a rendering comes to it: how deep it is, the mixins being expanded around it, innermost first, and its
scope. -/
structure Visit where
  depth : Nat
  names : List Bytes
  scope : Scope
  element : Element

namespace Visit

def start (e : Element) : Visit := ⟨0, [], .outermost, e⟩

/-- The node calls a mixin that is being expanded. -/
def Recalls (v : Visit) : Prop := ∃ c, v.element.content = .call c ∧ c.name ∈ v.names

end Visit

def showsChildren : Element.Content → Bool
  | .document | .markup _ | .code _ | .call _ => true
  | _ => false

variable {env : Environment} {mixins : List Element.Declaration} {v w : Visit} {e e' : Element}

/-- One visit is entered from another: a child with the same mixins around it, or a node in the body of the mixin that is
called, with this one around it. -/
inductive Enters (mixins : List Element.Declaration) (v : Visit) : Visit → Prop
  | child {scope : Scope} {e : Element} (hshows : showsChildren v.element.content) (he : e ∈ v.element.children)
    (hscope : scope.frames = v.scope.frames) : Enters mixins v ⟨v.depth + 1, v.names, scope, e⟩
  | body {scope : Scope} {e : Element} {c : Call} {d : Element.Declaration} {attributes : Option (List (Key × Value))}
    (hcall : v.element.content = .call c) (hfind : Element.findMixin? mixins c.name = some d) (he : e ∈ d.body)
    (hscope : scope.frames = attributes :: v.scope.frames) : Enters mixins v ⟨v.depth + 1, c.name :: v.names, scope, e⟩

/-- The visits of a rendering. -/
def Visited (mixins : List Element.Declaration) (e : Element) : Visit → Prop :=
  Relation.ReflTransGen (Enters mixins) (.start e)

section Congruence

variable {render render' : Render} {scope : Scope}

theorem pair_congr {children : List Element} {block : Bool}
    (hchildren : ∀ s : Scope, s.frames = scope.frames → render s children = render' s children) (site : Site)
    (name attributes : Bytes) :
    pair env render scope site name attributes block children =
      pair env render' scope site name attributes block children := by
  have hinner : inner render (if block then scope.indented else scope) children =
      inner render' (if block then scope.indented else scope) children := by
    rw [inner, inner, hchildren]
    split <;> rfl
  rw [pair, pair, hinner]

theorem code_congr {children : List Element} (hchildren : render scope children = render' scope children) (site : Site)
    (source : Bytes) : code env render scope site source children = code env render' scope site source children := by
  rw [code, code, hchildren]

theorem write_congr {children : List Element} {call : Call} (hchildren : render scope children = render' scope children)
    (hbody : ∀ d attributes, Element.findMixin? env.mixins call.name = some d →
      render (scope.entering attributes) d.body = render' (scope.entering attributes) d.body) (id : NodeId) (site : Site) :
    Expansion.write env render scope id site call children = Expansion.write env render' scope id site call children := by
  have hblock : Expansion.block env render scope site children = Expansion.block env render' scope site children := by
    rw [Expansion.block, Expansion.block, hchildren]
  rw [Expansion.write, Expansion.write]
  cases hfind : Element.findMixin? env.mixins call.name with
  | none => rfl
  | some d =>
    have hbody (attributes : Option (List (Key × Value))) := hbody d attributes hfind
    simp only [Expansion.actuals, hblock, hbody]

/-- A node depends on how its children are rendered, and a call on how the body of its mixin is. -/
theorem content_congr
    (hchildren : showsChildren e.content → ∀ s : Scope, s.frames = scope.frames → render s e.children = render' s e.children)
    (hbody : ∀ c d attributes, e.content = .call c → Element.findMixin? env.mixins c.name = some d →
      render (scope.entering attributes) d.body = render' (scope.entering attributes) d.body) :
    content env render scope e = content env render' scope e := by
  obtain ⟨id, origin, content, children⟩ := e
  cases content with
  | markup tag =>
    have hpair (site : Site) (name attributes : Bytes) (block : Bool) :
        pair env render scope site name attributes block children =
          pair env render' scope site name attributes block children := pair_congr (hchildren rfl) site name attributes
    simp only [Render.content, markup, hpair]
  | document =>
    have hsame : render scope children = render' scope children := hchildren rfl scope rfl
    simp only [Render.content, hsame]
  | code source => exact congrArg (marked env origin) (code_congr (hchildren rfl scope rfl) _ source)
  | call c =>
    exact congrArg (marked env origin) (write_congr (hchildren rfl scope rfl) (fun d as => hbody c d as rfl) id _)
  | _ => rfl

end Congruence

theorem listFrom_congr {one one' : Element → Rendering Bytes} {es : List Element} (h : ∀ e ∈ es, one e = one' e)
    (before : Option Forest.Text) : listFrom one before es = listFrom one' before es := by
  induction es generalizing before with
  | nil => rfl
  | cons e es ih =>
    obtain ⟨he, hes⟩ := List.forall_mem_cons.mp h
    rw [listFrom, listFrom, he, ih hes]

theorem enter_congr {self self' : Nat → Scope → Element → Rendering Bytes}
    (h : ∀ w, Enters env.mixins v w → self w.depth w.scope w.element = self' w.depth w.scope w.element) :
    enter env self v.depth v.scope v.element = enter env self' v.depth v.scope v.element := by
  rw [enter, enter]
  split
  · rfl
  · refine content_congr (fun hshows scope hscope => ?_) fun c d attributes hcall hfind => ?_
    · exact listFrom_congr (fun e he => h _ (.child hshows he hscope)) none
    · exact listFrom_congr (fun e he => h _ (.body hcall hfind he rfl)) none

/-- The node comes out with this budget, in some scope and after some other nodes. -/
def Yields (env : Environment) (budget : Nat) (e : Element) : Prop :=
  ∃ scope p text q, (node env budget scope e).run p = (.ok text, q)

section Success

variable {render : Render} {scope : Scope} {text : Bytes} {p q : Progress}

def Shown (render : Render) (es : List Element) : Prop := ∃ scope p text q, (render scope es).run p = (.ok text, q)

theorem shown_of_pair {children : List Element} {site : Site} {name attributes : Bytes} {block : Bool}
    (h : (pair env render scope site name attributes block children).run p = (.ok text, q)) : Shown render children := by
  rw [pair] at h
  obtain ⟨_, _, -, h⟩ := Rendering.bind_run_ok h
  obtain ⟨_, _, -, h⟩ := Rendering.bind_run_ok h
  obtain ⟨_, _, hinner, -⟩ := Rendering.bind_run_ok h
  rw [inner] at hinner
  obtain ⟨_, _, -, hinner⟩ := Rendering.bind_run_ok hinner
  obtain ⟨_, _, -, hinner⟩ := Rendering.bind_run_ok hinner
  obtain ⟨_, _, hrender, -⟩ := Rendering.bind_run_ok hinner
  exact ⟨_, _, _, _, hrender⟩

theorem shown_of_markup {children : List Element} {id : NodeId} {origin : Option Origin} {site : Site} {t : Tag}
    (h : (markup env render scope id origin site t children).run p = (.ok text, q)) (hne : children ≠ []) :
    Shown render children := by
  rw [markup] at h
  obtain ⟨_, _, -, h⟩ := Rendering.bind_run_ok h
  dsimp only at h
  split at h
  · cases h
  next hclosed =>
    obtain ⟨_, _, -, h⟩ := Rendering.bind_run_ok h
    obtain ⟨_, _, -, h⟩ := Rendering.bind_run_ok h
    have hopen : env.dialect.isSelfClosing t (!children.isEmpty) = false := by simpa [hne] using hclosed
    rw [hopen, if_neg (by decide)] at h
    obtain ⟨_, _, hpair, -⟩ := Rendering.bind_run_ok h
    exact shown_of_pair hpair

theorem shown_of_code {children : List Element} {site : Site} {source : Bytes}
    (h : (code env render scope site source children).run p = (.ok text, q)) (hne : children ≠ []) :
    Shown render children := by
  rw [code] at h
  obtain ⟨_, _, -, h⟩ := Rendering.bind_run_ok h
  rw [if_neg (by simpa using hne)] at h
  obtain ⟨_, _, hrender, -⟩ := Rendering.bind_run_ok h
  exact ⟨_, _, _, _, hrender⟩

theorem shown_of_write {children : List Element} {id : NodeId} {site : Site} {call : Call}
    (h : (Expansion.write env render scope id site call children).run p = (.ok text, q)) :
    (children ≠ [] → Shown render children) ∧
      ∀ d, Element.findMixin? env.mixins call.name = some d → Shown render d.body := by
  rw [Expansion.write] at h
  cases hfind : Element.findMixin? env.mixins call.name with
  | none =>
    rw [hfind] at h
    cases h
  | some d =>
    rw [hfind] at h
    dsimp only at h
    obtain ⟨attributes, _, -, h⟩ := Rendering.bind_run_ok h
    split at h
    on_goal 1 => obtain ⟨_, _, -, h⟩ := Rendering.bind_run_ok h
    all_goals
      obtain ⟨a, _, hactuals, h⟩ := Rendering.bind_run_ok h
      obtain ⟨_, _, -, h⟩ := Rendering.bind_run_ok h
      obtain ⟨_, _, hbody, -⟩ := Rendering.bind_run_ok h
      refine ⟨fun hne => ?_, fun d' hd' => ?_⟩
      · rw [Expansion.actuals] at hactuals
        obtain ⟨_, _, hblock, -⟩ := Rendering.bind_run_ok hactuals
        rw [Expansion.block, if_neg (by simpa using hne)] at hblock
        obtain ⟨_, _, hrender, -⟩ := Rendering.bind_run_ok hblock
        exact ⟨_, _, _, _, hrender⟩
      · cases hd'
        exact ⟨_, _, _, _, hbody⟩

theorem shown_of_content (h : (content env render scope e).run p = (.ok text, q)) :
    (showsChildren e.content → e.children ≠ [] → Shown render e.children) ∧
      ∀ c d, e.content = .call c → Element.findMixin? env.mixins c.name = some d → Shown render d.body := by
  obtain ⟨id, origin, content, children⟩ := e
  have hmarked {m : Rendering Bytes} (h : (marked env origin m).run p = (.ok text, q)) :
      ∃ text q, m.run p = (.ok text, q) := by
    rw [marked] at h
    obtain ⟨_, _, hm, -⟩ := Rendering.bind_run_ok h
    exact ⟨_, _, hm⟩
  cases content with
  | markup tag => exact ⟨fun _ hne => shown_of_markup h hne, fun c d hc => by cases hc⟩
  | document =>
    obtain ⟨_, _, hrender⟩ := hmarked h
    exact ⟨fun _ _ => ⟨_, _, _, _, hrender⟩, fun c d hc => by cases hc⟩
  | code source =>
    obtain ⟨_, _, hcode⟩ := hmarked h
    exact ⟨fun _ hne => shown_of_code hcode hne, fun c d hc => by cases hc⟩
  | call call =>
    obtain ⟨_, _, hwrite⟩ := hmarked h
    obtain ⟨hchildren, hbody⟩ := shown_of_write hwrite
    refine ⟨fun _ => hchildren, fun c d hc => ?_⟩
    cases hc
    exact hbody d
  | _ => exact ⟨fun hshows => (Bool.false_ne_true hshows).elim, fun c d hc => by cases hc⟩

theorem run_of_listFrom {one : Element → Rendering Bytes} {before : Option Forest.Text} {es : List Element}
    (h : (listFrom one before es).run p = (.ok text, q)) (he : e ∈ es) : ∃ p text q, (one e).run p = (.ok text, q) := by
  induction es generalizing before p q text with
  | nil => cases he
  | cons first es ih =>
    rw [listFrom] at h
    obtain ⟨_, _, hfirst, h⟩ := Rendering.bind_run_ok h
    obtain ⟨_, _, hrest, -⟩ := Rendering.bind_run_ok h
    rcases List.mem_cons.mp he with rfl | he
    · exact ⟨_, _, _, hfirst⟩
    · exact ih hrest he

end Success

theorem not_yields_zero : ¬ Yields env 0 e := by
  rintro ⟨scope, p, text, q, h⟩
  cases h

/-- A node that comes out lets what it enters come out one deeper. -/
theorem Yields.enters {budget : Nat} (h : Yields env (budget + 1) v.element) (hw : Enters env.mixins v w) :
    Yields env budget w.element := by
  obtain ⟨scope, p, text, q, hrun⟩ := h
  rw [node] at hrun
  obtain ⟨hchildren, hbody⟩ := shown_of_content hrun
  cases hw with
  | child hshows he _ =>
    obtain ⟨_, _, _, _, hlist⟩ := hchildren hshows (List.ne_nil_of_mem he)
    exact ⟨_, run_of_listFrom hlist he⟩
  | body hcall hfind he _ =>
    obtain ⟨_, _, _, _, hlist⟩ := hbody _ _ hcall hfind
    exact ⟨_, run_of_listFrom hlist he⟩

theorem Enters.depth (h : Enters mixins v w) : w.depth = v.depth + 1 := by cases h <;> rfl

theorem depth_le (h : Relation.ReflTransGen (Enters mixins) v w) : v.depth ≤ w.depth := by
  induction h with
  | refl => exact le_rfl
  | tail _ hw ih => exact ih.trans (hw.depth ▸ Nat.le_succ _)

/-- What is left of the depth at one visit is left at a later one, less the levels between them. -/
theorem Yields.visits {budget : Nat} (h : Yields env budget v.element) (hw : Relation.ReflTransGen (Enters env.mixins) v w) :
    ∃ left, left + w.depth = budget + v.depth ∧ Yields env left w.element := by
  induction hw with
  | refl => exact ⟨budget, rfl, h⟩
  | tail _ hw ih =>
    obtain ⟨left, hleft, hyields⟩ := ih
    cases left with
    | zero => exact absurd hyields not_yields_zero
    | succ left => exact ⟨left, by rw [hw.depth]; omega, hyields.enters hw⟩

/-- A node that is entered again below itself comes out at no depth: it would come out at less and less. -/
theorem not_yields_of_again (h : Relation.ReflTransGen (Enters env.mixins) v w) (hdepth : v.depth < w.depth)
    (helement : w.element = v.element) (budget : Nat) : ¬ Yields env budget v.element := by
  induction budget using Nat.strongRecOn with
  | ind budget ih =>
    intro hyields
    obtain ⟨left, hleft, hyields'⟩ := hyields.visits h
    exact ih left (by omega) (helement ▸ hyields')

theorem Visited.names (h : Visited mixins e v) : ∀ name ∈ v.names, ∃ d u, Element.findMixin? mixins name = some d ∧
    u.element ∈ d.body ∧ Visited mixins e u ∧ Relation.ReflTransGen (Enters mixins) u v := by
  induction h with
  | refl => exact fun _ hname => absurd hname (List.not_mem_nil)
  | tail hv hw ih =>
    rename_i v w
    have hold : ∀ name ∈ v.names, ∃ d u, Element.findMixin? mixins name = some d ∧ u.element ∈ d.body ∧
        Visited mixins e u ∧ Relation.ReflTransGen (Enters mixins) u w := by
      intro name hname
      obtain ⟨d, u, hfind, hu, hvisited, huv⟩ := ih name hname
      exact ⟨d, u, hfind, hu, hvisited, huv.tail hw⟩
    cases hw with
    | child _ _ _ => exact hold
    | body hcall hfind he hscope =>
      intro name hname
      rcases List.mem_cons.mp hname with rfl | hname
      · exact ⟨_, _, hfind, he, hv.tail (.body hcall hfind he hscope), .refl⟩
      · exact hold name hname

theorem Visited.length_names (h : Visited mixins e v) : v.names.length = v.scope.frames.length := by
  induction h with
  | refl => rfl
  | tail _ hw ih =>
    cases hw with
    | child _ _ hscope => exact ih.trans (congrArg List.length hscope).symm
    | body _ _ _ hscope => exact (congrArg (· + 1) ih).trans (congrArg List.length hscope).symm

/-- Where no mixin is called again, none is expanded twice at a time. -/
theorem Visited.nodup_names (h : Visited mixins e v) (hnone : ∀ u, Visited mixins e u → ¬ u.Recalls) : v.names.Nodup := by
  induction h with
  | refl => exact List.nodup_nil
  | tail hv hw ih =>
    cases hw with
    | child _ _ _ => exact ih
    | body hcall _ _ _ => exact List.nodup_cons.mpr ⟨fun hmem => hnone _ hv ⟨_, hcall, hmem⟩, ih⟩

/-- A tree that comes out calls no mixin again inside its own body. -/
theorem Yields.not_recalls {budget : Nat} (h : Yields env budget e) (hv : Visited env.mixins e v) : ¬ v.Recalls := by
  rintro ⟨c, hcall, hname⟩
  obtain ⟨d, u, hfind, hu, hvisited, huv⟩ := hv.names c.name hname
  have hagain : Enters env.mixins v ⟨v.depth + 1, c.name :: v.names, v.scope.entering none, u.element⟩ :=
    .body hcall hfind hu rfl
  have hdepth : u.depth < v.depth + 1 := Nat.lt_succ_of_le (depth_le huv)
  obtain ⟨left, -, hyields⟩ := Yields.visits (v := .start e) h hvisited
  exact not_yields_of_again (huv.tail hagain) hdepth rfl left hyields

end Stencil.Render

namespace Stencil.Session

open Render

theorem yields_of_format {s : Session} {forest : Forest} {root : NodeId} {selector : Selector} {text : Bytes}
    (h : (s.format forest (some root) selector).2.2 = .ok text) :
    ∃ env : Environment, env.mixins = (forest.element root).declarations ∧ env.settings = s.settings ∧
      Yields env s.settings.maxDepth (forest.element root) := by
  have hformat : s.format forest (some root) selector =
      ((s.format forest (some root) selector).1, (s.format forest (some root) selector).2.1, .ok text) := by rw [← h]
  obtain ⟨hok, -⟩ := attempt_of_format hformat
  obtain ⟨d, hselect⟩ := select_of_ok hok
  obtain ⟨l, fallback, page, q, -, hrun, -⟩ := finished_of_format hselect hformat
  obtain ⟨body, p, htree, -⟩ := Rendering.bind_run_ok hrun
  exact ⟨_, rfl, rfl, _, _, _, _, htree⟩

/-- Rendering nests at most one level more than the depth allows, whatever the mixins call, and depends at each visit on
those entered from it only. Where a visit calls a mixin that is being expanded, no depth lets the tree come out, so in a
page no mixin is expanded inside itself. -/
theorem format_bounded (s : Session) (forest : Forest) (root : NodeId) (selector : Selector) :
    (∀ env self, (enter env)^[env.settings.maxDepth + 1] self 0 .outermost (forest.element root) =
      tree env (forest.element root)) ∧
    (∀ env v self self', (∀ w, Enters env.mixins v w → self w.depth w.scope w.element = self' w.depth w.scope w.element) →
      enter env self v.depth v.scope v.element = enter env self' v.depth v.scope v.element) ∧
    (∀ v, Visited (forest.element root).declarations (forest.element root) v → v.Recalls →
      ∃ failure, (s.format forest (some root) selector).2.2 = .error failure) ∧
    ∀ text, (s.format forest (some root) selector).2.2 = .ok text →
      ∀ v, Visited (forest.element root).declarations (forest.element root) v →
        v.names.Nodup ∧ v.names.length = v.scope.frames.length ∧ v.depth < s.settings.maxDepth := by
  have hsuccess : ∀ text, (s.format forest (some root) selector).2.2 = .ok text →
      ∀ v, Visited (forest.element root).declarations (forest.element root) v →
        ¬ v.Recalls ∧ v.depth < s.settings.maxDepth := by
    intro text h v hv
    obtain ⟨env, hmixins, -, hyields⟩ := yields_of_format h
    rw [← hmixins] at hv
    refine ⟨hyields.not_recalls hv, ?_⟩
    obtain ⟨left, hleft, hv⟩ := Yields.visits (v := .start (forest.element root)) hyields hv
    rcases left with _ | left
    · exact absurd hv not_yields_zero
    · have hstart : left + 1 + v.depth = s.settings.maxDepth + 0 := hleft
      omega
  refine ⟨fun env self => ?_, fun _ _ _ _ h => enter_congr h, fun v hv hrecalls => ?_, fun text h v hv => ?_⟩
  · rw [enter_iterate env self (Nat.zero_add _), tree]
  · cases h : (s.format forest (some root) selector).2.2 with
    | error failure => exact ⟨failure, rfl⟩
    | ok text => exact absurd hrecalls (hsuccess text h v hv).1
  · exact ⟨hv.nodup_names fun u hu => (hsuccess text h u hu).1, hv.length_names, (hsuccess text h v hv).2⟩

/-- A mixin that calls itself among the children of a call of another. -/
def echo : Forest :=
  ⟨#[{ content := .document, children := [1, 4, 6] },
     { content := .mixin ⟨"echo", [], none⟩, parent := some 0, children := [2] },
     { content := .call { name := "wall" }, parent := some 1, children := [3] },
     { content := .call { name := "echo" }, parent := some 2 },
     { content := .mixin ⟨"wall", [], none⟩, parent := some 0, children := [5] },
     { content := .block, parent := some 4 },
     { content := .call { name := "echo" }, parent := some 0 }]⟩

example : (({ settings := { maxDepth := 9 } } : Session).format echo (some 0) (.named "html")).2.2 =
    .error (.tooDeep ⟨"MixinCall", none⟩ 9) := by
  decide +kernel

end Stencil.Session
