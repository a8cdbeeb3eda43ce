import Stencil.Proofs.Reference.Access
import Stencil.Proofs.Reference.Places
import Stencil.Proofs.Success
import Stencil.Proofs.Token.Brackets

/-! Chains of accesses by the places of their tokens. From the root of a reference one goes from the end of an access to the
end of the next, and over brackets to the one that closes them. Since this one lies behind, every such way goes forward and
ends among the tokens; and it is the way on which the plan finds the accesses of a root. -/

namespace Stencil.Reference

open Token (Kind Group Matches)

/-- The place of the first token from place `i` on that carries code. -/
def nextCode? (ts : List Token) (i : Nat) : Option Nat := ((ts.drop i).findIdx? (!·.isTrivia)).map (i + ·)

/-- The place where the access ends that follows the token at place `i`: a member ends with itself or with its bracket, and
an index with its bracket. -/
def hop? (ts : List Token) (m : Nat → Option Nat) (i : Nat) : Option Nat := do
  let j ← nextCode? ts (i + 1)
  let t ← ts[j]?
  if isAccessOp t.kind then
    let k ← nextCode? ts (j + 1)
    let u ← ts[k]?
    if u.kind = .ident ∨ u.kind = .var then some k
    else if u.kind = .lbrace then some ((m k).getD 0)
    else none
  else if t.kind = .lbracket then some ((m j).getD 0)
  else none

/-- The way from place `i` on, access by access, until none follows. -/
inductive Trail (ts : List Token) (m : Nat → Option Nat) : Nat → List Nat → Prop where
  | stop {i : Nat} : hop? ts m i = none → Trail ts m i []
  | hop {i j : Nat} {js : List Nat} : hop? ts m i = some j → Trail ts m j js → Trail ts m i (j :: js)

section
variable {ts : List Token} {m : Nat → Option Nat} {i j : Nat}

theorem nextCode?_bounds (h : nextCode? ts i = some j) : i ≤ j ∧ j < ts.length := by
  obtain ⟨n, hn, rfl⟩ := Option.map_eq_some_iff.mp h
  obtain ⟨hlt, -⟩ := List.findIdx?_eq_some_iff_getElem.mp hn
  rw [List.length_drop] at hlt
  omega

theorem nextCode?_isCode (h : nextCode? ts i = some j) {t : Token} (ht : ts[j]? = some t) : t.isTrivia = false := by
  obtain ⟨n, hn, rfl⟩ := Option.map_eq_some_iff.mp h
  obtain ⟨hlt, hcode, -⟩ := List.findIdx?_eq_some_iff_getElem.mp hn
  rw [List.getElem_drop] at hcode
  obtain ⟨-, rfl⟩ := List.getElem?_eq_some_iff.mp ht
  simpa using hcode

theorem nextCode?_append {before sep rest : List Token} {t : Token} (hts : ts = before ++ (sep ++ t :: rest))
    (hi : before.length = i) (hsep : ∀ u ∈ sep, u.isTrivia) (ht : t.isTrivia = false) :
    nextCode? ts i = some (i + sep.length) ∧ ts[i + sep.length]? = some t := by
  subst hts hi
  constructor
  · have hfind : (sep ++ t :: rest).findIdx? (!·.isTrivia) = some sep.length := by
      refine List.findIdx?_eq_some_iff_getElem.mpr ⟨by simp, by simp [ht], fun j hj => ?_⟩
      rw [List.getElem_append_left hj]
      simpa using hsep _ (List.getElem_mem hj)
    rw [nextCode?, List.drop_left, hfind]
    rfl
  · rw [List.getElem?_append_right (by omega), Nat.add_sub_cancel_left, List.getElem?_append_right le_rfl, Nat.sub_self]
    rfl

/-- The ways from the end of one access to the end of the next. -/
inductive Hop (ts : List Token) (m : Nat → Option Nat) (i : Nat) : Nat → Prop where
  | member {k l : Nat} {t u : Token} : nextCode? ts (i + 1) = some k → ts[k]? = some t → isAccessOp t.kind →
      nextCode? ts (k + 1) = some l → ts[l]? = some u → u.kind = .ident ∨ u.kind = .var → Hop ts m i l
  | computed {k l : Nat} {t u : Token} : nextCode? ts (i + 1) = some k → ts[k]? = some t → isAccessOp t.kind →
      nextCode? ts (k + 1) = some l → ts[l]? = some u → u.kind = .lbrace → Hop ts m i ((m l).getD 0)
  | index {k : Nat} {t : Token} : nextCode? ts (i + 1) = some k → ts[k]? = some t → t.kind = .lbracket →
      Hop ts m i ((m k).getD 0)

theorem hop?_eq_some : hop? ts m i = some j ↔ Hop ts m i j := by
  constructor
  · intro h
    simp only [hop?, Option.bind_eq_bind] at h
    obtain ⟨k, hk, h⟩ := Option.bind_eq_some_iff.mp h
    obtain ⟨t, ht, h⟩ := Option.bind_eq_some_iff.mp h
    split_ifs at h with haccess hindex
    · obtain ⟨l, hl, h⟩ := Option.bind_eq_some_iff.mp h
      obtain ⟨u, hu, h⟩ := Option.bind_eq_some_iff.mp h
      split_ifs at h with hname hbrace
      · cases h
        exact .member hk ht haccess hl hu hname
      · cases h
        exact .computed hk ht haccess hl hu hbrace
    · cases h
      exact .index hk ht hindex
  · intro h
    cases h with
    | member hk ht haccess hl hu hname => simp [hop?, hk, ht, haccess, hl, hu, hname]
    | computed hk ht haccess hl hu hbrace => simp [hop?, hk, ht, haccess, hl, hu, hbrace]
    | index hk ht hindex => simp [hop?, hk, ht, hindex, isAccessOp]

theorem hop?_lt (hm : Matches ts m) (h : hop? ts m i = some j) : i < j ∧ j < ts.length := by
  have hover {k : Nat} {u : Token} (hu : ts[k]? = some u) (hopens : u.kind.opens ≠ none) :
      k < (m k).getD 0 ∧ (m k).getD 0 < ts.length := by
    obtain ⟨l, hl⟩ := Option.ne_none_iff_exists'.mp ((hm.opening k).mpr ⟨u, hu, hopens⟩)
    obtain ⟨-, v, -, -, hv, -⟩ := hm.same k l hl
    rw [hl, Option.getD_some]
    exact ⟨hm.later k l hl, (List.getElem?_eq_some_iff.mp hv).1⟩
  cases hop?_eq_some.mp h with
  | member hk _ _ hl =>
    have hfirst := nextCode?_bounds hk
    have hsecond := nextCode?_bounds hl
    omega
  | computed hk _ _ hl hu hbrace =>
    have hfirst := nextCode?_bounds hk
    have hsecond := nextCode?_bounds hl
    have hclosed := hover hu (by simp [hbrace, Kind.opens])
    omega
  | index hk ht hindex =>
    have hfirst := nextCode?_bounds hk
    have hclosed := hover ht (by simp [hindex, Kind.opens])
    omega

theorem exists_unique_trail (hm : Matches ts m) (i : Nat) : ∃! js, Trail ts m i js := by
  induction hmeasure : ts.length - i using Nat.strong_induction_on generalizing i with
  | _ n ih =>
    cases hi : hop? ts m i with
    | none =>
      refine ⟨[], .stop hi, fun js hjs => ?_⟩
      cases hjs with
      | stop => rfl
      | hop hj => simp [hi] at hj
    | some j =>
      obtain ⟨hlt, hbound⟩ := hop?_lt hm hi
      obtain ⟨js, htrail, hunique⟩ := ih _ (by omega) j rfl
      refine ⟨j :: js, .hop hi htrail, fun ks hks => ?_⟩
      cases hks with
      | stop hstop => simp [hi] at hstop
      | hop hj htail =>
        obtain rfl := Option.some.inj (hi.symm.trans hj)
        rw [hunique _ htail]

end

/-- The groups `gs` stand in the tokens right behind place `i`, up to the end or a closing bracket, and `m` pairs the
brackets in them. -/
structure Behind (ts : List Token) (m : Nat → Option Nat) (i : Nat) (gs : List Group) : Prop where
  layout : ∃ before after, ts = before ++ (Group.tokensOf gs ++ after) ∧ before.length = i + 1 ∧
    ∀ t ∈ after.head?, t.kind.closes ≠ none
  matched : ∀ g ∈ gs, g.Matched
  pairs : ∀ p ∈ Group.spansOf (i + 1) gs, m p.1 = some p.2

theorem isTrivia_of_opens {t : Token} (h : t.kind.opens ≠ none) : t.isTrivia = false := by
  obtain ⟨kind, text, offset, inString⟩ := t
  cases kind <;> first | rfl | exact absurd rfl h

theorem isTrivia_of_closes {t : Token} (h : t.kind.closes ≠ none) : t.isTrivia = false := by
  obtain ⟨kind, text, offset, inString⟩ := t
  cases kind <;> first | rfl | exact absurd rfl h

theorem edges_of_accessOp {k : Kind} (h : isAccessOp k) : k.opens = none ∧ k.closes = none := by
  cases k <;> first | exact ⟨rfl, rfl⟩ | cases h

theorem first_token {g : Group} (h : g.Matched) (hg : g.isTrivia = false) :
    ∃ t rest, g.tokens = t :: rest ∧ t.isTrivia = false ∧
      (g = .leaf t ∧ t.kind.opens = none ∨ ∃ body c, g = .pair t body c ∧ t.kind.opens ≠ none) := by
  cases h with
  | @leaf t ho _ => exact ⟨t, [], Group.tokens_leaf t, hg, .inl ⟨rfl, ho⟩⟩
  | @pair o c b body ho _ _ =>
    have hopens : o.kind.opens ≠ none := by simp [ho]
    exact ⟨o, _, Group.tokens_pair o body c, isTrivia_of_opens hopens, .inr ⟨body, c, rfl, hopens⟩⟩

theorem isTrivia_tokensOf {sep : List Group} (h : ∀ g ∈ sep, g.isTrivia) : ∀ t ∈ Group.tokensOf sep, t.isTrivia := by
  induction sep with
  | nil => simp
  | cons g sep ih =>
    rw [List.forall_mem_cons] at h
    cases g with
    | leaf t => simpa using ⟨h.1, ih h.2⟩
    | pair => cases h.1

theorem trivia_or_code (gs : List Group) :
    (∀ g ∈ gs, g.isTrivia) ∨ ∃ sep g rest, gs = sep ++ g :: rest ∧ (∀ g ∈ sep, g.isTrivia) ∧ g.isTrivia = false := by
  induction gs with
  | nil => exact .inl (by simp)
  | cons g gs ih =>
    cases hg : g.isTrivia with
    | false => exact .inr ⟨[], g, gs, rfl, by simp, hg⟩
    | true =>
      rcases ih with hall | ⟨sep, g', rest, rfl, hsep, hg'⟩
      · exact .inl (List.forall_mem_cons.mpr ⟨hg, hall⟩)
      · exact .inr ⟨g :: sep, g', rest, rfl, List.forall_mem_cons.mpr ⟨hg, hsep⟩, hg'⟩

namespace Behind

variable {ts : List Token} {m : Nat → Option Nat} {i j : Nat} {gs hs sep body : List Group} {g : Group} {o c : Token}

theorem drop (h : Behind ts m i (gs ++ hs)) : Behind ts m (i + (Group.tokensOf gs).length) hs := by
  obtain ⟨before, after, hts, hbefore, hafter⟩ := h.layout
  refine ⟨⟨before ++ Group.tokensOf gs, after, ?_, ?_, hafter⟩, fun g hg => h.matched g (List.mem_append_right gs hg),
    fun p hp => h.pairs p ?_⟩
  · rw [hts, Group.tokensOf_append]
    simp only [List.append_assoc]
  · rw [List.length_append, hbefore]
    omega
  · rw [Group.spansOf_append, List.mem_append]
    refine .inr ?_
    rwa [Nat.add_right_comm] at hp

/-- The next code is the first token of the next group that is no trivia. -/
theorem nextCode?_eq (h : Behind ts m i (sep ++ g :: hs)) (hsep : ∀ g ∈ sep, g.isTrivia) {t : Token} {rest : List Token}
    (ht : g.tokens = t :: rest) (hcode : t.isTrivia = false) :
    nextCode? ts (i + 1) = some (i + 1 + (Group.tokensOf sep).length) ∧
      ts[i + 1 + (Group.tokensOf sep).length]? = some t := by
  obtain ⟨before, after, hts, hbefore, -⟩ := h.layout
  have hsplit : ts = before ++ (Group.tokensOf sep ++ t :: (rest ++ (Group.tokensOf hs ++ after))) := by
    rw [hts, Group.tokensOf_append, Group.tokensOf_cons, ht]
    simp only [List.append_assoc, List.cons_append]
  exact nextCode?_append hsplit hbefore (isTrivia_tokensOf hsep) hcode

/-- Behind trivia only, the next code is the bracket that closes around it. -/
theorem closes_of_trivia (h : Behind ts m i gs) (hgs : ∀ g ∈ gs, g.isTrivia) {k : Nat} (hk : nextCode? ts (i + 1) = some k)
    {t : Token} (ht : ts[k]? = some t) : t.kind.closes ≠ none := by
  obtain ⟨before, after, hts, hbefore, hafter⟩ := h.layout
  cases after with
  | nil =>
    rw [List.append_nil] at hts
    have hfrom := (nextCode?_bounds hk).1
    rw [hts, List.getElem?_append_right (by omega)] at ht
    have htrivia := isTrivia_tokensOf hgs t (List.mem_of_getElem? ht)
    rw [← List.getElem?_append_right (by omega), ← hts] at ht
    rw [nextCode?_isCode hk ht] at htrivia
    cases htrivia
  | cons c after =>
    have hc := hafter c rfl
    obtain ⟨hnext, hget⟩ := nextCode?_append hts hbefore (isTrivia_tokensOf hgs) (isTrivia_of_closes hc)
    obtain rfl := Option.some.inj (hk.symm.trans hnext)
    obtain rfl := Option.some.inj (ht.symm.trans hget)
    exact hc

theorem partner (h : Behind ts m i (sep ++ .pair o body c :: hs)) : m (i + 1 + (Group.tokensOf sep).length) =
    some (i + 1 + (Group.tokensOf sep).length + 1 + (Group.tokensOf body).length) := by
  refine h.pairs (_, _) ?_
  rw [Group.spansOf_append, Group.spansOf_cons, Group.spans_pair]
  simp

theorem behind_leaf {t : Token} (h : Behind ts m i (sep ++ .leaf t :: hs)) :
    Behind ts m (i + 1 + (Group.tokensOf sep).length) hs := by
  rw [List.append_cons] at h
  have hrest := h.drop
  rwa [Group.tokensOf_append, Group.tokensOf_cons, Group.tokens_leaf, Group.tokensOf_nil, List.length_append,
    List.append_nil, List.length_singleton, Nat.add_comm _ 1, ← Nat.add_assoc] at hrest

/-- The way over an access goes to its end. -/
theorem hop_of_access {a : List Group} (h : Behind ts m i (a ++ hs)) (ha : Access a) :
    Hop ts m i (i + (Group.tokensOf a).length) := by
  cases ha with
  | @member sep sep' op g hsep hop hsep' hg =>
    rw [List.append_assoc, List.cons_append, List.append_assoc, List.singleton_append] at h
    obtain ⟨hk, hop'⟩ := h.nextCode?_eq hsep (Group.tokens_leaf op) (isTrivia_accessOp hop)
    have hrest := h.behind_leaf
    cases g with
    | leaf u =>
      obtain ⟨hl, hu⟩ := hrest.nextCode?_eq hsep' (Group.tokens_leaf u) hg.isTrivia
      have hway := Hop.member (m := m) hk hop' hop hl hu hg
      convert hway using 1
      simp
      omega
    | pair u body c =>
      have hu' : u.kind.opens ≠ none := by
        rw [show u.kind = .lbrace from hg]
        simp [Kind.opens]
      obtain ⟨hl, hu⟩ := hrest.nextCode?_eq hsep' (Group.tokens_pair u body c) (isTrivia_of_opens hu')
      have hway := Hop.computed (m := m) hk hop' hop hl hu hg
      rw [hrest.partner, Option.getD_some] at hway
      convert hway using 1
      simp
      omega
  | @index sep body o c hsep ho =>
    rw [List.append_assoc, List.singleton_append] at h
    have ho' : o.kind.opens ≠ none := by simp [ho, Kind.opens]
    obtain ⟨hk, hget⟩ := h.nextCode?_eq hsep (Group.tokens_pair o body c) (isTrivia_of_opens ho')
    have hway := Hop.index (m := m) hk hget ho
    rw [h.partner, Option.getD_some] at hway
    convert hway using 1
    simp
    omega

theorem exists_code (h : Behind ts m i gs) {k : Nat} (hk : nextCode? ts (i + 1) = some k) {t : Token} (ht : ts[k]? = some t)
    (hcloses : t.kind.closes = none) : ∃ sep g hs, gs = sep ++ g :: hs ∧ (∀ g ∈ sep, g.isTrivia) ∧
      k = i + 1 + (Group.tokensOf sep).length ∧
      (g = .leaf t ∧ t.kind.opens = none ∨ ∃ body c, g = .pair t body c ∧ t.kind.opens ≠ none) := by
  rcases trivia_or_code gs with hall | ⟨sep, g, hs, rfl, hsep, hg⟩
  · exact absurd hcloses (h.closes_of_trivia hall hk ht)
  · have hmatched := h.matched g (List.mem_append_right sep List.mem_cons_self)
    obtain ⟨u, rest, htokens, hcode, hkind⟩ := first_token hmatched hg
    obtain ⟨hnext, hget⟩ := h.nextCode?_eq hsep htokens hcode
    obtain rfl := Option.some.inj (hk.symm.trans hnext)
    obtain rfl := Option.some.inj (ht.symm.trans hget)
    exact ⟨sep, g, hs, rfl, hsep, rfl, hkind⟩

/-- Where a way goes on, an access follows. -/
theorem access_of_hop (h : Behind ts m i gs) (hway : Hop ts m i j) : ∃ a hs, Access a ∧ gs = a ++ hs := by
  have hop {k l : Nat} {t u : Token} (hk : nextCode? ts (i + 1) = some k) (ht : ts[k]? = some t)
      (haccess : isAccessOp t.kind) (hl : nextCode? ts (k + 1) = some l) (hu : ts[l]? = some u)
      (hname : u.kind = .ident ∨ u.kind = .var ∨ u.kind = .lbrace) : ∃ a hs, Access a ∧ gs = a ++ hs := by
    obtain ⟨ho, hc⟩ := edges_of_accessOp haccess
    obtain ⟨sep, g, hs, rfl, hsep, rfl, ⟨rfl, -⟩ | ⟨body, c, -, hopens⟩⟩ := h.exists_code hk ht hc
    · have hcloses : u.kind.closes = none := by rcases hname with hu | hu | hu <;> simp [hu, Kind.closes]
      obtain ⟨sep', g, hs, rfl, hsep', -, hg⟩ := h.behind_leaf.exists_code hl hu hcloses
      refine ⟨sep ++ .leaf t :: (sep' ++ [g]), hs, .member hsep haccess hsep' ?_, by simp⟩
      rcases hg with ⟨rfl, hopens⟩ | ⟨body, c, rfl, hopens⟩ <;>
        rcases hname with hu | hu | hu <;> simp_all [IsMember, Kind.opens]
    · exact absurd ho hopens
  cases hway with
  | member hk ht haccess hl hu hname => exact hop hk ht haccess hl hu (hname.imp_right .inl)
  | computed hk ht haccess hl hu hbrace => exact hop hk ht haccess hl hu (.inr (.inr hbrace))
  | index hk ht hindex =>
    obtain ⟨sep, g, hs, rfl, hsep, -, hg⟩ := h.exists_code hk ht (by simp [hindex, Kind.closes])
    rcases hg with ⟨-, hopens⟩ | ⟨body, c, rfl, -⟩
    · simp [hindex, Kind.opens] at hopens
    · exact ⟨sep ++ [.pair _ body c], hs, .index hsep hindex, by simp⟩

end Behind

/-- The places where accesses of these lengths, in groups, end behind place `i`. -/
def stops (i : Nat) (gs : List Group) : (lengths : List Nat) → List Nat
  | [] => []
  | n :: ns =>
    let j := i + (Group.tokensOf (gs.take n)).length
    j :: stops j (gs.drop n) ns

theorem Behind.trail {ts : List Token} {m : Nat → Option Nat} {i : Nat} {gs : List Group} (h : Behind ts m i gs)
    {fuel : Nat} (hfuel : gs.length ≤ fuel) : Trail ts m i (stops i gs (segments fuel gs)) := by
  have hstop {i : Nat} {gs : List Group} (h : Behind ts m i gs) (hgs : segment? gs = none) : Trail ts m i [] := by
    refine .stop (Option.eq_none_iff_forall_ne_some.mpr fun j hj => ?_)
    obtain ⟨a, hs, ha, hsplit⟩ := h.access_of_hop (hop?_eq_some.mp hj)
    exact segment?_eq_none.mp hgs a hs ha hsplit
  induction fuel generalizing i gs with
  | zero =>
    obtain rfl : gs = [] := List.length_eq_zero_iff.mp (by omega)
    exact hstop h rfl
  | succ fuel ih =>
    cases hn : segment? gs with
    | none =>
      rw [segments, hn]
      exact hstop h hn
    | some n =>
      obtain ⟨a, hs, ha, rfl, rfl⟩ := exists_access hn
      have hpos := ha.length_pos
      rw [List.length_append] at hfuel
      have hrest := ih h.drop (by omega)
      simp only [segments, hn, stops, List.take_left, List.drop_left]
      exact .hop (hop?_eq_some.mpr (h.hop_of_access ha)) hrest

def Spot.index (spot : Spot) : Nat :=
  (spot.around.map fun e => (Group.tokensOf e.before).length + 1).sum + (Group.tokensOf spot.before).length

theorem Spot.index_within (spot : Spot) (e : Enclosure) :
    (spot.within e).index = (Group.tokensOf e.before).length + 1 + spot.index := by
  simp only [within, index, List.map_cons, List.sum_cons]
  omega

/-- What stands behind a group, up to the bracket that closes around it. -/
theorem Sits.layout {g : Group} {spot : Spot} {gs : List Group} (h : Sits g spot gs) (hgs : ∀ g ∈ gs, g.Matched) :
    ∃ before after, Group.tokensOf gs = before ++ (g.tokens ++ (Group.tokensOf spot.after ++ after)) ∧
      before.length = spot.index ∧ (∀ t ∈ after.head?, t.kind.closes ≠ none) ∧ (∀ g ∈ spot.after, g.Matched) ∧
      ∀ i, Group.spansOf (i + spot.index + g.tokens.length) spot.after ⊆ Group.spansOf i gs := by
  induction h with
  | here before after =>
    refine ⟨Group.tokensOf before, [], by simp, by simp [Spot.index], by simp, fun g hg => hgs g (by simp [hg]), fun i => ?_⟩
    have hindex : Spot.index ⟨before, after, []⟩ = (Group.tokensOf before).length := by simp [Spot.index]
    rw [hindex, Group.spansOf_append, Group.spansOf_cons]
    exact fun p hp => List.mem_append_right _ (List.mem_append_right _ hp)
  | @inside spot body outer o c rest _ ih =>
    obtain ⟨hcloses, hbody⟩ : c.kind.closes ≠ none ∧ ∀ g ∈ body, g.Matched := by
      cases hgs (.pair o body c) (by simp) with
      | pair _ hc hbody => exact ⟨by simp [hc], hbody⟩
    obtain ⟨before, after, htokens, hbefore, hafter, hmatched, hspans⟩ := ih hbody
    have hindex : (spot.within ⟨outer, o⟩).index = (Group.tokensOf outer).length + 1 + spot.index := spot.index_within _
    refine ⟨Group.tokensOf outer ++ o :: before, after ++ c :: Group.tokensOf rest, ?_, ?_, fun t ht => ?_, hmatched,
      fun i p hp => ?_⟩
    · rw [Group.tokensOf_append, Group.tokensOf_cons, Group.tokens_pair, htokens]
      simp [Spot.within]
    · rw [hindex, List.length_append, List.length_cons, hbefore]
      omega
    · cases after with
      | nil =>
        obtain rfl : c = t := by simpa using ht
        exact hcloses
      | cons u after => exact hafter t ht
    · have hinner := hspans (i + (Group.tokensOf outer).length + 1)
      rw [hindex] at hp
      rw [Group.spansOf_append, Group.spansOf_cons, Group.spans_pair]
      refine List.mem_append_right _ (List.mem_append_left _ (List.mem_cons_of_mem _ (hinner ?_)))
      have hplace : i + ((Group.tokensOf outer).length + 1 + spot.index) + g.tokens.length =
          i + (Group.tokensOf outer).length + 1 + spot.index + g.tokens.length := by omega
      rwa [hplace] at hp

/-- Every token that is no bracket stands somewhere among the groups. -/
theorem exists_sits_among {t : Token} {gs : List Group}
    (h : ∀ g ∈ gs, ∀ before after i, g.tokens[i]? = some t →
      ∃ spot, Sits (.leaf t) spot (before ++ g :: after) ∧ spot.index = (Group.tokensOf before).length + i)
    (before : List Group) {i : Nat} (ht : (Group.tokensOf gs)[i]? = some t) :
    ∃ spot, Sits (.leaf t) spot (before ++ gs) ∧ spot.index = (Group.tokensOf before).length + i := by
  induction gs generalizing before i with
  | nil => simp at ht
  | cons g gs ih =>
    rw [List.forall_mem_cons] at h
    rw [Group.tokensOf_cons] at ht
    rcases Nat.lt_or_ge i g.tokens.length with hlt | hge
    · rw [List.getElem?_append_left hlt] at ht
      exact h.1 before gs i ht
    · rw [List.getElem?_append_right hge] at ht
      obtain ⟨spot, hsits, hindex⟩ := ih h.2 (before ++ [g]) ht
      refine ⟨spot, by rwa [← List.append_cons] at hsits, ?_⟩
      rw [hindex, Group.tokensOf_append, List.length_append, Group.tokensOf_cons, Group.tokensOf_nil, List.append_nil]
      omega

theorem exists_sits_at {t : Token} (ho : t.kind.opens = none) (hc : t.kind.closes = none) {g : Group} (hg : g.Matched)
    (before after : List Group) (i : Nat) (ht : g.tokens[i]? = some t) :
    ∃ spot, Sits (.leaf t) spot (before ++ g :: after) ∧ spot.index = (Group.tokensOf before).length + i := by
  induction hg generalizing before after i with
  | @leaf u _ _ =>
    rw [Group.tokens_leaf] at ht
    obtain ⟨hi, rfl⟩ := List.getElem?_eq_some_iff.mp ht
    obtain rfl : i = 0 := by simpa using hi
    exact ⟨_, .here before after, by simp [Spot.index]⟩
  | @pair o c b body hopens hcloses _ ih =>
    rw [Group.tokens_pair] at ht
    cases i with
    | zero =>
      obtain rfl := Option.some.inj ht
      simp [ho] at hopens
    | succ i =>
      rw [List.getElem?_cons_succ] at ht
      rcases Nat.lt_or_ge i (Group.tokensOf body).length with hlt | hge
      · rw [List.getElem?_append_left hlt] at ht
        obtain ⟨spot, hsits, hindex⟩ := exists_sits_among ih [] ht
        refine ⟨_, .inside before o c after hsits, ?_⟩
        rw [Spot.index_within, hindex, Group.tokensOf_nil, List.length_nil]
        dsimp only
        omega
      · rw [List.getElem?_append_right hge] at ht
        have hmem := List.mem_of_getElem? ht
        obtain rfl : t = c := by simpa using hmem
        simp [hc] at hcloses

theorem Sits.behind {ts : List Token} {gs : List Group} (hts : Group.ofTokens ts = .ok gs) {root : Token} {spot : Spot}
    (h : Sits (.leaf root) spot gs) :
    ts[spot.index]? = some root ∧ Behind ts (Group.partner? gs) spot.index spot.after := by
  obtain ⟨before, after, htokens, hbefore, hafter, hmatched, hspans⟩ := h.layout (Group.ofTokens_matched hts)
  rw [Group.ofTokens_tokens hts, Group.tokens_leaf] at htokens
  refine ⟨?_, ⟨before ++ [root], after, ?_, ?_, hafter⟩, hmatched, fun p hp => ?_⟩
  · rw [htokens, ← hbefore, List.getElem?_append_right le_rfl, Nat.sub_self]
    rfl
  · rw [htokens, List.append_assoc]
  · rw [List.length_append, hbefore, List.length_singleton]
  · refine (Group.partner?_eq_some hts).mpr (hspans 0 ?_)
    rwa [Nat.zero_add, Group.tokens_leaf, List.length_singleton]

/-- Tokens have groups exactly when their brackets form a balanced word. The groups then pair each opening bracket with one
closing bracket behind it, of the same kind, and no two pairs cross. So there is one way along accesses from every place,
which goes forward, stays among the tokens and ends; and from a root it stops where the accesses end that the plan finds. -/
theorem brackets_exact (ts : List Token) :
    ((∃ gs, Group.ofTokens ts = .ok gs) ↔ Token.Balanced (Token.edges (ts.map (·.kind)))) ∧
    ∀ gs, Group.ofTokens ts = .ok gs →
      Matches ts (Group.partner? gs) ∧
      (∀ i j, hop? ts (Group.partner? gs) i = some j → i < j ∧ j < ts.length) ∧
      (∀ i, ∃! js, Trail ts (Group.partner? gs) i js) ∧
      (∀ i root, ts[i]? = some root → root.kind = .var → ∃ spot, Sits (.leaf root) spot gs ∧ spot.index = i) ∧
      ∀ root spot, Sits (.leaf root) spot gs → ts[spot.index]? = some root ∧
        Trail ts (Group.partner? gs) spot.index
          (stops spot.index spot.after (segments spot.after.length spot.after)) := by
  refine ⟨Group.exists_ofTokens_iff_balanced, fun gs hgs => ?_⟩
  have hmatches := Group.ofTokens_matches hgs
  refine ⟨hmatches, fun i j => hop?_lt hmatches, exists_unique_trail hmatches, fun i root hroot hvar => ?_,
    fun root spot hsits => ?_⟩
  · have ho : root.kind.opens = none := by rw [hvar]; rfl
    have hc : root.kind.closes = none := by rw [hvar]; rfl
    rw [← Group.ofTokens_tokens hgs] at hroot
    obtain ⟨spot, hsits, hindex⟩ := exists_sits_among
      (fun g hg => exists_sits_at ho hc (Group.ofTokens_matched hgs g hg)) [] hroot
    exact ⟨spot, hsits, by simpa using hindex⟩
  · obtain ⟨hroot, hbehind⟩ := hsits.behind hgs
    exact ⟨hroot, hbehind.trail le_rfl⟩

/-- A computed member with a call in it, and an index behind it. -/
theorem brackets_exact_members : ∃ ts gs, Token.tokenize "$a->\x7bf('x')\x7d [0]" = .ok ts ∧ Group.ofTokens ts = .ok gs ∧
    hop? ts (Group.partner? gs) 0 = some 7 ∧ hop? ts (Group.partner? gs) 7 = some 11 ∧
    ∀ js, Trail ts (Group.partner? gs) 0 js → js = [7, 11] := by
  have hhops : ((Token.tokenize "$a->\x7bf('x')\x7d [0]").toOption.bind fun ts =>
      (Group.ofTokens ts).toOption.map fun gs => [0, 7, 11].map (hop? ts (Group.partner? gs))) =
        some [some 7, some 11, none] := by decide +kernel
  obtain ⟨ts, hts, hhops⟩ := Option.bind_eq_some_iff.mp hhops
  obtain ⟨gs, hgs, hhops⟩ := Option.map_eq_some_iff.mp hhops
  have hts := ok_of_toOption hts
  have hgs := ok_of_toOption hgs
  simp only [List.map_cons, List.map_nil, List.cons.injEq, and_true] at hhops
  obtain ⟨hfirst, hsecond, hlast⟩ := hhops
  obtain ⟨-, -, hunique, -⟩ := (brackets_exact ts).2 gs hgs
  refine ⟨ts, gs, hts, hgs, hfirst, hsecond, fun js hjs => ?_⟩
  exact (hunique 0).unique hjs (.hop hfirst (.hop hsecond (.stop hlast)))

end Stencil.Reference
