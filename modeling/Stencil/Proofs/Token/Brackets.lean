import Stencil.Proofs.Token.Grouping

/-! Which bracket closes which. Tokens have groups exactly when their brackets form a balanced word, and the groups then pair
each opening bracket with one closing bracket behind it, of the same kind, so that two pairs lie apart or one in the
other. -/

namespace Stencil.Token

/-- One end of a bracket pair. -/
inductive Edge where
  | opening (b : Bracket)
  | closing (b : Bracket)
deriving DecidableEq, Repr

def Kind.edge? (k : Kind) : Option Edge :=
  match k.opens with
  | some b => some (.opening b)
  | none => k.closes.map .closing

/-- The brackets among tokens of these kinds. -/
def edges (ks : List Kind) : List Edge := ks.filterMap Kind.edge?

theorem Kind.edge?_eq_opening {k : Kind} {b : Bracket} : k.edge? = some (.opening b) ↔ k.opens = some b := by
  cases k <;> simp [Kind.edge?, Kind.opens, Kind.closes]

theorem Kind.edge?_eq_closing {k : Kind} {b : Bracket} : k.edge? = some (.closing b) ↔ k.closes = some b := by
  cases k <;> simp [Kind.edge?, Kind.opens, Kind.closes]

theorem Kind.edge?_eq_none {k : Kind} : k.edge? = none ↔ k.opens = none ∧ k.closes = none := by
  cases k <;> simp [Kind.edge?, Kind.opens, Kind.closes]

/-- The words in which each bracket is closed by one of its kind, after all that are opened behind it. -/
inductive Balanced : List Edge → Prop where
  | nil : Balanced []
  | wrap (b : Bracket) {w : List Edge} : Balanced w → Balanced (.opening b :: (w ++ [.closing b]))
  | append {w v : List Edge} : Balanced w → Balanced v → Balanced (w ++ v)

namespace Group

theorem neutral_of_edges_eq_nil {ks : List Kind} (h : edges ks = []) : Neutral ks := by
  intro st
  induction ks with
  | nil => rfl
  | cons k ks ih =>
    obtain ⟨hk, hks⟩ := List.forall_mem_cons.mp (List.filterMap_eq_nil_iff.mp h)
    obtain ⟨ho, hc⟩ := Kind.edge?_eq_none.mp hk
    rw [settle_other ho hc]
    exact ih (List.filterMap_eq_nil_iff.mpr hks)

/-- Kinds around a balanced word settle. -/
theorem neutral_of_balanced {w : List Edge} (h : Balanced w) {ks : List Kind} (hks : edges ks = w) : Neutral ks := by
  induction h generalizing ks with
  | nil => exact neutral_of_edges_eq_nil hks
  | @wrap b w _ ih =>
    obtain ⟨front, o, rest, rfl, hfront, ho, hrest⟩ := List.filterMap_eq_cons_iff.mp hks
    obtain ⟨body, last, rfl, hbody, hlast⟩ := List.filterMap_eq_append_iff.mp hrest
    obtain ⟨gap, c, tail, rfl, hgap, hc, htail⟩ := List.filterMap_eq_cons_iff.mp hlast
    rw [Kind.edge?_eq_opening] at ho
    rw [Kind.edge?_eq_closing] at hc
    have hgap := neutral_of_edges_eq_nil (List.filterMap_eq_nil_iff.mpr hgap)
    have hfront := neutral_of_edges_eq_nil (List.filterMap_eq_nil_iff.mpr hfront)
    have hpair : Neutral (o :: (body ++ (gap ++ [c]))) := by
      intro st
      rw [settle_open ho, settle_append, ih hbody, Option.bind_some, settle_append, hgap, Option.bind_some,
        settle_close hc, if_pos rfl]
      rfl
    have hwhole := hfront.append (hpair.append (neutral_of_edges_eq_nil htail))
    simpa using hwhole
  | append _ _ ihw ihv =>
    obtain ⟨ks₁, ks₂, rfl, h₁, h₂⟩ := List.filterMap_eq_append_iff.mp hks
    exact (ihw h₁).append (ihv h₂)

/-- Both brackets of every pair are of one kind, and no other token is a bracket. -/
inductive Matched : Group → Prop where
  | leaf {t : Token} : t.kind.opens = none → t.kind.closes = none → Matched (.leaf t)
  | pair {o c : Token} {b : Bracket} {body : List Group} : o.kind.opens = some b → c.kind.closes = some b →
      (∀ g ∈ body, Matched g) → Matched (.pair o body c)

theorem build_matched {stack : Stack} {done : List Group} {ts : List Token} {gs : List Group}
    (h : build stack done ts = .ok gs) (hdone : ∀ g ∈ done, Matched g)
    (hstack : ∀ p ∈ stack, ∀ g ∈ p.2, Matched g) : ∀ g ∈ gs, Matched g := by
  induction ts generalizing stack done with
  | nil =>
    rcases stack with _ | ⟨⟨o, before⟩, stack⟩
    · cases h
      simpa using hdone
    · cases h
  | cons t ts ih =>
    rcases build_cons h with ⟨-, hnext⟩ | ⟨ho, hc, hnext⟩ | ⟨b, o, before, stack', hc, ho, rfl, hnext⟩
    · exact ih hnext (by simp) (List.forall_mem_cons.mpr ⟨hdone, hstack⟩)
    · exact ih hnext (List.forall_mem_cons.mpr ⟨.leaf ho hc, hdone⟩) hstack
    · obtain ⟨hbefore, hstack'⟩ := List.forall_mem_cons.mp hstack
      refine ih hnext (List.forall_mem_cons.mpr ⟨?_, hbefore⟩) hstack'
      exact .pair ho hc fun g hg => hdone g (List.mem_reverse.mp hg)

theorem ofTokens_matched {ts : List Token} {gs : List Group} (h : ofTokens ts = .ok gs) : ∀ g ∈ gs, Matched g :=
  build_matched h (by simp) (by simp)

theorem balanced_tokensOf {gs : List Group} (h : ∀ g ∈ gs, Balanced (edges (g.tokens.map (·.kind)))) :
    Balanced (edges ((tokensOf gs).map (·.kind))) := by
  induction gs with
  | nil =>
    rw [tokensOf_nil]
    exact .nil
  | cons g gs ih =>
    rw [List.forall_mem_cons] at h
    rw [tokensOf_cons, List.map_append, edges, List.filterMap_append]
    exact h.1.append (ih h.2)

theorem Matched.balanced {g : Group} (h : g.Matched) : Balanced (edges (g.tokens.map (·.kind))) := by
  induction h with
  | leaf ho hc =>
    rw [tokens_leaf, List.map_singleton, edges, List.filterMap_cons_none (Kind.edge?_eq_none.mpr ⟨ho, hc⟩)]
    exact .nil
  | pair ho hc _ ih =>
    rw [tokens_pair, List.map_cons, edges, List.filterMap_cons_some (Kind.edge?_eq_opening.mpr ho), List.map_append,
      List.filterMap_append, List.map_singleton, List.filterMap_cons_some (Kind.edge?_eq_closing.mpr hc)]
    exact .wrap _ (balanced_tokensOf ih)

/-- Tokens have groups exactly when their brackets are balanced. -/
theorem exists_ofTokens_iff_balanced {ts : List Token} :
    (∃ gs, ofTokens ts = .ok gs) ↔ Balanced (edges (ts.map (·.kind))) := by
  constructor
  · rintro ⟨gs, h⟩
    rw [← ofTokens_tokens h]
    exact balanced_tokensOf fun g hg => (ofTokens_matched h g hg).balanced
  · intro h
    exact exists_ofTokens_iff.mpr (neutral_of_balanced h rfl [])

mutual

/-- The places of the two brackets of each pair in a group whose first token is at place `i`. -/
def spans (i : Nat) : Group → List (Nat × Nat)
  | .leaf _ => []
  | .pair _ body _ => (i, i + 1 + (tokensOf body).length) :: spansOf (i + 1) body

def spansOf (i : Nat) : List Group → List (Nat × Nat)
  | [] => []
  | g :: gs => spans i g ++ spansOf (i + g.tokens.length) gs

end

@[simp] theorem spansOf_nil (i : Nat) : spansOf i [] = [] := by rw [spansOf]

@[simp] theorem spansOf_cons (i : Nat) (g : Group) (gs : List Group) :
    spansOf i (g :: gs) = g.spans i ++ spansOf (i + g.tokens.length) gs := by
  rw [spansOf]

@[simp] theorem spans_leaf (i : Nat) (t : Token) : (leaf t).spans i = [] := by rw [spans]

@[simp] theorem spans_pair (i : Nat) (o : Token) (body : List Group) (c : Token) :
    (pair o body c).spans i = (i, i + 1 + (tokensOf body).length) :: spansOf (i + 1) body := by
  rw [spans]

theorem spansOf_append (i : Nat) (gs hs : List Group) :
    spansOf i (gs ++ hs) = spansOf i gs ++ spansOf (i + (tokensOf gs).length) hs := by
  induction gs generalizing i with
  | nil => simp
  | cons g gs ih => simp [ih, Nat.add_assoc]

/-- The place of the bracket that closes the one at place `i`. -/
def partner? (gs : List Group) (i : Nat) : Option Nat := (spansOf 0 gs).lookup i

end Group

/-- The pairs `ps` are the bracket pairs of tokens whose kinds are `k`, from place `lo` to before `hi`. -/
structure Pairing (k : Nat → Option Kind) (lo hi : Nat) (ps : List (Nat × Nat)) : Prop where
  inside : ∀ p ∈ ps, lo ≤ p.1 ∧ p.1 < p.2 ∧ p.2 < hi
  same : ∀ p ∈ ps, ∃ b, (k p.1).bind Kind.opens = some b ∧ (k p.2).bind Kind.closes = some b
  opening : ∀ i, lo ≤ i → i < hi → (k i).bind Kind.opens ≠ none → ∃ p ∈ ps, p.1 = i
  closing : ∀ i, lo ≤ i → i < hi → (k i).bind Kind.closes ≠ none → ∃ p ∈ ps, p.2 = i
  nested : ps.Pairwise fun p q => p.1 < q.1 ∧ (p.2 < q.1 ∨ q.2 < p.2)

namespace Pairing

variable {k : Nat → Option Kind} {lo mid hi : Nat} {ps qs : List (Nat × Nat)}

theorem nil : Pairing k lo lo [] where
  inside := by simp
  same := by simp
  opening i hlo hhi := by omega
  closing i hlo hhi := by omega
  nested := .nil

theorem leaf {kind : Kind} (hk : k lo = some kind) (ho : kind.opens = none) (hc : kind.closes = none) :
    Pairing k lo (lo + 1) [] where
  inside := by simp
  same := by simp
  opening i hlo hhi h := by
    obtain rfl : i = lo := by omega
    simp [hk, ho] at h
  closing i hlo hhi h := by
    obtain rfl : i = lo := by omega
    simp [hk, hc] at h
  nested := .nil

theorem append (hp : Pairing k lo mid ps) (hq : Pairing k mid hi qs) (hlo : lo ≤ mid) (hhi : mid ≤ hi) :
    Pairing k lo hi (ps ++ qs) where
  inside p hmem := by
    rcases List.mem_append.mp hmem with hmem | hmem
    · have := hp.inside p hmem
      omega
    · have := hq.inside p hmem
      omega
  same p hmem := (List.mem_append.mp hmem).elim (hp.same p) (hq.same p)
  opening i hl hh h := by
    rcases Nat.lt_or_ge i mid with hi | hi
    · obtain ⟨p, hmem, heq⟩ := hp.opening i hl hi h
      exact ⟨p, List.mem_append_left qs hmem, heq⟩
    · obtain ⟨q, hmem, heq⟩ := hq.opening i hi hh h
      exact ⟨q, List.mem_append_right ps hmem, heq⟩
  closing i hl hh h := by
    rcases Nat.lt_or_ge i mid with hi | hi
    · obtain ⟨p, hmem, heq⟩ := hp.closing i hl hi h
      exact ⟨p, List.mem_append_left qs hmem, heq⟩
    · obtain ⟨q, hmem, heq⟩ := hq.closing i hi hh h
      exact ⟨q, List.mem_append_right ps hmem, heq⟩
  nested := by
    refine List.pairwise_append.mpr ⟨hp.nested, hq.nested, fun p hmem q hmem' => ?_⟩
    have hbefore := hp.inside p hmem
    have hbehind := hq.inside q hmem'
    omega

theorem wrap {b : Bracket} {o c : Kind} (ho : k lo = some o) (hc : k hi = some c) (hopens : o.opens = some b)
    (hcloses : c.closes = some b) (hlt : lo < hi) (h : Pairing k (lo + 1) hi ps) :
    Pairing k lo (hi + 1) ((lo, hi) :: ps) where
  inside := by
    refine List.forall_mem_cons.mpr ⟨by dsimp only; omega, fun p hmem => ?_⟩
    have := h.inside p hmem
    omega
  same := List.forall_mem_cons.mpr ⟨⟨b, by simp [ho, hopens], by simp [hc, hcloses]⟩, h.same⟩
  opening i hl hh hi' := by
    rcases Nat.eq_or_lt_of_le hl with rfl | hl
    · exact ⟨_, List.mem_cons_self, rfl⟩
    · have hne : i ≠ hi := by
        rintro rfl
        rw [hc, Option.bind_some, Group.opens_eq_none hcloses] at hi'
        exact hi' rfl
      obtain ⟨p, hmem, heq⟩ := h.opening i hl (by omega) hi'
      exact ⟨p, List.mem_cons_of_mem _ hmem, heq⟩
  closing i hl hh hi' := by
    rcases Nat.eq_or_lt_of_le (Nat.le_of_lt_succ hh) with rfl | hh
    · exact ⟨_, List.mem_cons_self, rfl⟩
    · have hne : lo ≠ i := by
        rintro rfl
        rw [ho, Option.bind_some] at hi'
        cases hcl : o.closes with
        | none => exact hi' hcl
        | some b' => simp [Group.opens_eq_none hcl] at hopens
      obtain ⟨p, hmem, heq⟩ := h.closing i (by omega) hh hi'
      exact ⟨p, List.mem_cons_of_mem _ hmem, heq⟩
  nested := by
    refine List.pairwise_cons.mpr ⟨fun p hmem => ?_, h.nested⟩
    have := h.inside p hmem
    dsimp only
    omega

end Pairing

def KindsAt (k : Nat → Option Kind) (lo : Nat) (ts : List Token) : Prop :=
  ∀ (j : Nat) (t : Token), ts[j]? = some t → k (lo + j) = some t.kind

theorem KindsAt.append_iff {k : Nat → Option Kind} {lo : Nat} {ts us : List Token} :
    KindsAt k lo (ts ++ us) ↔ KindsAt k lo ts ∧ KindsAt k (lo + ts.length) us := by
  constructor
  · intro h
    refine ⟨fun j t hj => ?_, fun j t hj => ?_⟩
    · exact h j t ((List.getElem?_append_left (List.getElem?_eq_some_iff.mp hj).1).trans hj)
    · rw [Nat.add_assoc]
      exact h (ts.length + j) t (by rw [List.getElem?_append_right (by omega), Nat.add_sub_cancel_left, hj])
  · rintro ⟨hts, hus⟩ j t hj
    rcases Nat.lt_or_ge j ts.length with hlt | hge
    · rw [List.getElem?_append_left hlt] at hj
      exact hts j t hj
    · rw [List.getElem?_append_right hge] at hj
      have hk := hus _ t hj
      rwa [Nat.add_assoc, Nat.add_sub_cancel' hge] at hk

namespace Group

variable {k : Nat → Option Kind}

theorem pairing_spansOf {gs : List Group} (h : ∀ g ∈ gs, ∀ lo, KindsAt k lo g.tokens →
    Pairing k lo (lo + g.tokens.length) (g.spans lo)) (lo : Nat) (hk : KindsAt k lo (tokensOf gs)) :
    Pairing k lo (lo + (tokensOf gs).length) (spansOf lo gs) := by
  induction gs generalizing lo with
  | nil =>
    rw [tokensOf_nil, spansOf_nil]
    exact .nil
  | cons g gs ih =>
    rw [List.forall_mem_cons] at h
    rw [tokensOf_cons, KindsAt.append_iff] at hk
    rw [tokensOf_cons, spansOf_cons, List.length_append, ← Nat.add_assoc]
    exact (h.1 lo hk.1).append (ih h.2 _ hk.2) (by omega) (by omega)

theorem Matched.pairing {g : Group} (h : g.Matched) (lo : Nat) (hk : KindsAt k lo g.tokens) :
    Pairing k lo (lo + g.tokens.length) (g.spans lo) := by
  induction h generalizing lo with
  | @leaf t ho hc =>
    rw [tokens_leaf] at hk ⊢
    rw [spans_leaf]
    exact .leaf (hk 0 t rfl) ho hc
  | @pair o c b body ho hc _ ih =>
    rw [tokens_pair, ← List.singleton_append, KindsAt.append_iff, KindsAt.append_iff] at hk
    obtain ⟨hopening, hbody, hclosing⟩ := hk
    have hinner := pairing_spansOf ih (lo + 1) hbody
    have hlength : lo + (Group.pair o body c).tokens.length = lo + 1 + (tokensOf body).length + 1 := by
      simp only [tokens_pair, List.length_cons, List.length_append, List.length_nil]
      omega
    rw [hlength, spans_pair]
    exact .wrap (hopening 0 o rfl) (hclosing 0 c rfl) ho hc (by omega) hinner

end Group

/-- The map `m` takes the place of each opening bracket of the tokens to the place of the one that closes it. -/
structure Matches (ts : List Token) (m : Nat → Option Nat) : Prop where
  opening : ∀ i, m i ≠ none ↔ ∃ t, ts[i]? = some t ∧ t.kind.opens ≠ none
  closing : ∀ j, (∃ i, m i = some j) ↔ ∃ t, ts[j]? = some t ∧ t.kind.closes ≠ none
  injective : ∀ i i' j, m i = some j → m i' = some j → i = i'
  later : ∀ i j, m i = some j → i < j
  same : ∀ i j, m i = some j →
    ∃ t u b, ts[i]? = some t ∧ ts[j]? = some u ∧ t.kind.opens = some b ∧ u.kind.closes = some b
  nested : ∀ i j i' j', m i = some j → m i' = some j' → i < i' → j < i' ∨ j' < j

theorem lookup_eq_some_iff {ps : List (Nat × Nat)} (h : ps.Pairwise fun p q => p.1 < q.1) {i j : Nat} :
    ps.lookup i = some j ↔ (i, j) ∈ ps := by
  induction ps with
  | nil => simp
  | cons p ps ih =>
    obtain ⟨a, b⟩ := p
    obtain ⟨hhead, htail⟩ := List.pairwise_cons.mp h
    rw [List.lookup_cons, List.mem_cons, Prod.mk.injEq]
    by_cases hi : i = a
    · subst hi
      have hnot : (i, j) ∉ ps := fun hmem => Nat.lt_irrefl i (hhead _ hmem)
      simp [hnot, eq_comm]
    · have hne : (i == a) = false := by simpa using hi
      simp [hne, hi, ih htail]

theorem Pairing.matches {ts : List Token} {ps : List (Nat × Nat)}
    (h : Pairing (fun i => ts[i]?.map (·.kind)) 0 ts.length ps) : Matches ts fun i => ps.lookup i := by
  have hlookup {i j : Nat} : ps.lookup i = some j ↔ (i, j) ∈ ps := lookup_eq_some_iff (h.nested.imp And.left)
  have hsame {i j : Nat} (hij : (i, j) ∈ ps) :
      ∃ t u b, ts[i]? = some t ∧ ts[j]? = some u ∧ t.kind.opens = some b ∧ u.kind.closes = some b := by
    obtain ⟨b, ho, hc⟩ := h.same _ hij
    simp only [Option.bind_map, Option.bind_eq_some_iff] at ho hc
    obtain ⟨t, ht, hopens⟩ := ho
    obtain ⟨u, hu, hcloses⟩ := hc
    exact ⟨t, u, b, ht, hu, hopens, hcloses⟩
  have hnested {i j i' j' : Nat} (hij : (i, j) ∈ ps) (hij' : (i', j') ∈ ps) (hlt : i < i') : j < i' ∨ j' < j := by
    obtain ⟨a, ha, heq⟩ := List.getElem_of_mem hij
    obtain ⟨b, hb, heq'⟩ := List.getElem_of_mem hij'
    have hpairwise := List.pairwise_iff_getElem.mp h.nested
    rcases Nat.lt_trichotomy a b with hab | rfl | hab
    · have hrel := hpairwise a b ha hb hab
      rw [heq, heq'] at hrel
      exact hrel.2
    · rw [heq, Prod.mk.injEq] at heq'
      omega
    · have hrel := hpairwise b a hb ha hab
      rw [heq, heq'] at hrel
      dsimp only at hrel
      omega
  refine ⟨fun i => ⟨fun hi => ?_, ?_⟩, fun j => ⟨?_, ?_⟩, fun i i' j hi hi' => ?_, fun i j hij => ?_, fun i j hij => ?_,
    fun i j i' j' hij hij' hlt => hnested (hlookup.mp hij) (hlookup.mp hij') hlt⟩
  · obtain ⟨j, hj⟩ := Option.ne_none_iff_exists'.mp hi
    obtain ⟨t, -, b, ht, -, hopens, -⟩ := hsame (hlookup.mp hj)
    exact ⟨t, ht, by simp [hopens]⟩
  · rintro ⟨t, ht, hopens⟩
    obtain ⟨hlt, -⟩ := List.getElem?_eq_some_iff.mp ht
    obtain ⟨p, hmem, rfl⟩ := h.opening i (Nat.zero_le i) hlt (by simpa [ht] using hopens)
    exact Option.ne_none_iff_exists'.mpr ⟨p.2, hlookup.mpr hmem⟩
  · rintro ⟨i, hij⟩
    obtain ⟨-, u, b, -, hu, -, hcloses⟩ := hsame (hlookup.mp hij)
    exact ⟨u, hu, by simp [hcloses]⟩
  · rintro ⟨u, hu, hcloses⟩
    obtain ⟨hlt, -⟩ := List.getElem?_eq_some_iff.mp hu
    obtain ⟨p, hmem, rfl⟩ := h.closing j (Nat.zero_le j) hlt (by simpa [hu] using hcloses)
    exact ⟨p.1, hlookup.mpr hmem⟩
  · rw [hlookup] at hi hi'
    rcases Nat.lt_trichotomy i i' with hlt | heq | hlt
    · have := hnested hi hi' hlt
      have := h.inside _ hi'
      omega
    · exact heq
    · have := hnested hi' hi hlt
      have := h.inside _ hi
      omega
  · exact (h.inside _ (hlookup.mp hij)).2.1
  · exact hsame (hlookup.mp hij)

namespace Group

variable {ts : List Token} {gs : List Group}

theorem ofTokens_pairing (h : ofTokens ts = .ok gs) :
    Pairing (fun i => ts[i]?.map (·.kind)) 0 ts.length (spansOf 0 gs) := by
  have hkinds : KindsAt (fun i => ts[i]?.map (·.kind)) 0 (tokensOf gs) := by
    rw [ofTokens_tokens h]
    intro j t hj
    simp [hj]
  have hpairing := pairing_spansOf (fun g hg lo => (ofTokens_matched h g hg).pairing lo) 0 hkinds
  rwa [ofTokens_tokens h, Nat.zero_add] at hpairing

theorem ofTokens_matches (h : ofTokens ts = .ok gs) : Matches ts (partner? gs) := (ofTokens_pairing h).matches

theorem partner?_eq_some (h : ofTokens ts = .ok gs) {i j : Nat} : partner? gs i = some j ↔ (i, j) ∈ spansOf 0 gs :=
  lookup_eq_some_iff ((ofTokens_pairing h).nested.imp And.left)

end Group

end Stencil.Token
