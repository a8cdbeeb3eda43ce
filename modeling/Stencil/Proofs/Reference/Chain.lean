import Stencil.Proofs.Reference.Access
import Stencil.Proofs.Token.Nesting

/-! The ranges that a plan guards. A guarded range is a variable outside of strings with whole accesses after it, so
it ends with code, its brackets pair up, and the lexer is in top-level code before and after it. -/

namespace Stencil.Reference

open Token (Kind Group)

/-- A group of an access: its leaves do not delimit strings. -/
def IsLink : Group → Prop
  | .leaf t => t.kind ≠ .quote ∧ t.kind ≠ .heredocStart ∧ t.kind ≠ .heredocEnd
  | .pair .. => True

/-- Groups of whole accesses. -/
structure IsChain (gs : List Group) : Prop where
  links : ∀ g ∈ gs, IsLink g
  last : ∀ g ∈ gs.getLast?, g.isTrivia = false

theorem IsChain.nil : IsChain [] := ⟨by simp, by simp⟩

theorem IsChain.append {gs hs : List Group} (hg : IsChain gs) (hh : IsChain hs) : IsChain (gs ++ hs) := by
  refine ⟨fun g hmem => (List.mem_append.1 hmem).elim (hg.links g) (hh.links g), fun g hlast => ?_⟩
  rw [List.getLast?_append] at hlast
  cases h : hs.getLast? with
  | none => exact hg.last g (by simpa [h] using hlast)
  | some g' => exact hh.last g (by simpa [h] using hlast)

theorem isLink_of_isTrivia {g : Group} (h : g.isTrivia) : IsLink g := by
  cases g with
  | pair => trivial
  | leaf t =>
    have hk : t.kind = .whitespace ∨ t.kind = .comment := by simpa [Group.isTrivia, Token.isTrivia] using h
    rcases hk with hk | hk <;> simp [IsLink, hk]

theorem IsChain.concat {gs : List Group} {g : Group} (hgs : ∀ g ∈ gs, IsLink g) (hg : IsLink g)
    (hlast : g.isTrivia = false) : IsChain (gs ++ [g]) := by
  refine ⟨?_, by simpa using hlast⟩
  simpa [or_imp, forall_and] using ⟨hgs, hg⟩

theorem isLink_leaf {t : Token} {k : Kind} (hk : t.kind = k)
    (h : k ≠ .quote ∧ k ≠ .heredocStart ∧ k ≠ .heredocEnd) : IsLink (.leaf t) := by
  subst hk
  exact h

theorem IsMember.isLink {g : Group} (h : IsMember g) : IsLink g := by
  cases g with
  | leaf t => rcases h with hk | hk <;> exact isLink_leaf hk (by decide)
  | pair => trivial

theorem Access.isChain {a : List Group} (h : Access a) : IsChain a := by
  cases h with
  | @member sep sep' op g hsep hop hsep' hg =>
    have hlink : IsLink (.leaf op) := by
      simp only [isAccessOp, Bool.or_eq_true, beq_iff_eq] at hop
      rcases hop with (hk | hk) | hk <;> exact isLink_leaf hk (by decide)
    have hlinks : ∀ g ∈ sep ++ .leaf op :: sep', IsLink g := by
      simpa [or_imp, forall_and] using
        ⟨fun g hg => isLink_of_isTrivia (hsep g hg), hlink, fun g hg => isLink_of_isTrivia (hsep' g hg)⟩
    have hchain := IsChain.concat hlinks hg.isLink hg.isTrivia
    rwa [List.append_assoc, List.cons_append] at hchain
  | index hsep => exact .concat (fun g hg => isLink_of_isTrivia (hsep g hg)) trivial rfl

theorem isChain_flatten {as : List (List Group)} (has : ∀ a ∈ as, Access a) : IsChain as.flatten := by
  induction as with
  | nil => exact IsChain.nil
  | cons a as ih =>
    obtain ⟨ha, has⟩ := List.forall_mem_cons.1 has
    exact ha.isChain.append (ih has)

theorem fate_isChain {gs : List Group} {n : Nat} (h : fate gs = .guarded n) : IsChain (gs.take n) := by
  obtain ⟨as, rest, has⟩ := exists_accesses gs
  rcases has.fate_eq with ⟨-, hkept⟩ | ⟨-, hs, hguards, hprefix, hguarded⟩
  · rw [h] at hkept
    cases hkept
  · obtain rfl := Fate.guarded.inj (h.symm.trans hguarded)
    rw [← List.prefix_iff_eq_take.1 hprefix]
    cases hguards with
    | whole => exact isChain_flatten has.each
    | call => exact isChain_flatten fun a ha => has.each a (List.mem_of_mem_dropLast ha)

/-- A variable outside of strings and the accesses that follow it. -/
def IsReference (ts : List Token) : Prop :=
  ∃ root gs, ts = root :: Group.tokensOf gs ∧ root.kind = .var ∧ root.inString = false ∧ IsChain gs ∧
    ∀ g ∈ gs, g.Coherent

theorem Stands.coherent {g : Group} {after gs : List Group} (h : Stands g after gs) (hgs : ∀ g ∈ gs, g.Coherent) :
    ∀ g ∈ after, g.Coherent := by
  induction h with
  | here => exact (List.forall_mem_cons.1 hgs).2
  | inside _ ih =>
    cases (List.forall_mem_cons.1 hgs).1 with
    | pair _ _ _ hbody => exact ih hbody
  | later _ ih => exact ih (List.forall_mem_cons.1 hgs).2

theorem isReference_of_guarded {exempt : Bool} {p : Place} {skip : Nat} {gs : List Group}
    (hgs : ∀ g ∈ gs, g.Coherent) {ts : List Token} (h : .guarded ts ∈ planFrom exempt p skip gs) :
    IsReference ts := by
  obtain ⟨root, after, n, hstands, hk, hin, hf, rfl⟩ := exists_root_of_guarded h
  refine ⟨root, after.take n, rfl, hk, hin, fate_isChain hf, fun g hg => ?_⟩
  exact hstands.coherent hgs g (List.mem_of_mem_take hg)

theorem getLast?_tokensOf {gs : List Group} {t : Token} (h : t ∈ (Group.tokensOf gs).getLast?) :
    ∃ g ∈ gs.getLast?, g.last = t := by
  induction gs using List.reverseRecOn with
  | nil => simp at h
  | append_singleton gs g _ =>
    refine ⟨g, by simp, ?_⟩
    rw [Group.tokensOf_append] at h
    cases g with
    | leaf t => simpa [Group.last] using h
    | pair o body c =>
      rw [Group.tokensOf_cons, Group.tokens_pair, Group.tokensOf_nil, List.append_nil, ← List.cons_append,
        ← List.append_assoc, List.getLast?_concat] at h
      exact Option.some.inj h

theorem IsReference.last {ts : List Token} (h : IsReference ts) : ∀ t ∈ ts.getLast?, t.isTrivia = false := by
  obtain ⟨root, gs, rfl, hk, -, hchain, hco⟩ := h
  intro t ht
  rw [← List.singleton_append, List.getLast?_append] at ht
  cases hl : (Group.tokensOf gs).getLast? with
  | none =>
    obtain rfl : root = t := by simpa [hl] using ht
    simp [Token.isTrivia, hk]
  | some t' =>
    obtain rfl : t' = t := by simpa [hl] using ht
    obtain ⟨g, hg, rfl⟩ := getLast?_tokensOf hl
    have hlast := hchain.last g hg
    cases hco g (List.mem_of_getLast? hg) with
    | leaf => exact hlast
    | @pair o c b body _ hc =>
      have hkind : c.kind ≠ .whitespace ∧ c.kind ≠ .comment := by
        constructor <;> intro hk <;> rw [hk] at hc <;> cases hc
      simp [Group.last, Token.isTrivia, hkind]

theorem IsReference.neutral {ts : List Token} (h : IsReference ts) : Group.Neutral (ts.map (·.kind)) := by
  obtain ⟨root, gs, rfl, hk, -, -, hco⟩ := h
  have hroot : Group.Neutral [root.kind] := fun st => by rw [hk]; rfl
  exact hroot.append (Group.neutral_tokensOf fun g hg => (hco g hg).neutral)

end Stencil.Reference

namespace Stencil.Token.Cursor

open Reference

theorem Reads.head_code {c d : Cursor} {t : Token} {ts : List Token} (h : Reads c (t :: ts) d)
    (hf : c.frames = []) : t.inString = false ∧
      ∃ b s m n, c.rest = b :: s ∧ Scan.CodeMove b s m ∧ m.tokens = [(t.kind, n)] := by
  generalize hts : t :: ts = ts' at h
  cases h with
  | refl => cases hts
  | @step _ _ b s m us hr hm _ =>
    rw [move_code (.of_nil hf)] at hm
    have hcode := Scan.codeMove_cases hm
    obtain ⟨kind, n, hk⟩ := hcode.tokens_eq
    rw [perform, hk, show c.around m = c.frames from if_neg hcode.effect_ne] at hts
    obtain rfl : t = c.token kind n := (List.cons.inj hts).1
    exact ⟨by simp [token, hf], b, s, m, n, hr, hcode, hk⟩

/-- The groups of accesses are read in top-level code, which the reading comes back to after each of them. -/
theorem Reads.chain {c d : Cursor} {gs : List Group} {ts : List Token}
    (h : Reads c (Group.tokensOf gs ++ ts) d) (hf : c.frames = []) (hlinks : ∀ g ∈ gs, IsLink g)
    (hco : ∀ g ∈ gs, g.Coherent) :
    ∃ e, Reads c (Group.tokensOf gs) e ∧ e.frames = [] ∧ Reads e ts d := by
  induction gs generalizing c with
  | nil => exact ⟨c, by simpa using Reads.refl c, hf, by simpa using h⟩
  | cons g gs ih =>
    rw [List.forall_mem_cons] at hlinks hco
    -- the last token of the group is read by one step in top-level code
    obtain ⟨xs, t, hg, ht, hk⟩ : ∃ xs t, g.tokens = xs ++ [t] ∧ t.inString = false ∧
        t.kind ≠ .quote ∧ t.kind ≠ .heredocStart ∧ t.kind ≠ .heredocEnd := by
      rw [Group.tokensOf_cons] at h
      cases hco.1 with
      | @leaf t => exact ⟨[], t, by simp, (h.head_code hf).1, hlinks.1⟩
      | @pair o c b body _ hc hin _ =>
        rw [Group.tokens_pair] at h
        refine ⟨o :: Group.tokensOf body, c, by simp, hin ▸ (h.head_code hf).1, ?_⟩
        refine ⟨?_, ?_, ?_⟩ <;> intro hk <;> rw [hk] at hc <;> cases hc
    rw [Group.tokensOf_cons, hg, List.append_assoc, List.append_assoc, List.singleton_append] at h
    obtain ⟨e₁, e₂, h₁, -, h₂, hf₂, h₃⟩ := h.split (.of_nil hf) ht hk
    obtain ⟨e, h₄, hfe, h₅⟩ := ih h₃ hf₂ hlinks.2 hco.2
    refine ⟨e, ?_, hfe, h₅⟩
    rw [Group.tokensOf_cons, hg]
    exact (h₁.trans h₂).trans h₄

theorem Reads.reference {c d : Cursor} {ts us : List Token} (h : Reads c (ts ++ us) d) (hf : c.frames = [])
    (hts : IsReference ts) :
    c.rest.head? = some Ascii.dollar ∧ ∃ e, Reads c ts e ∧ e.frames = [] ∧ Reads e us d := by
  obtain ⟨root, gs, rfl, hk, -, hchain, hco⟩ := hts
  obtain ⟨hin, b, s, m, n, hr, hcode, htok⟩ := h.head_code hf
  constructor
  · rw [hk] at htok
    rw [hr, hcode.eq_dollar htok]
    rfl
  · obtain ⟨e₁, e₂, h₁, -, h₂, hf₂, h₃⟩ := @Reads.split c d [] _ root h _ (.of_nil hf) hin (by simp [hk])
    obtain ⟨e, h₄, hfe, h₅⟩ := h₃.chain hf₂ hchain.links hco
    exact ⟨e, (h₁.trans h₂).trans h₄, hfe, h₅⟩

theorem Reads.before_reference {c d : Cursor} {xs ts us : List Token} (h : Reads c (xs ++ (ts ++ us)) d)
    {inText : Bool} (hl : Layered inText c.frames) (hts : IsReference ts) :
    ∃ e, Reads c xs e ∧ e.frames = [] ∧ Reads e (ts ++ us) d := by
  obtain ⟨root, gs, rfl, hk, hin, -, -⟩ := hts
  obtain ⟨e, e', h₁, hf, h₂, -, h₃⟩ := h.split hl hin (by simp [hk])
  exact ⟨e, h₁, hf, h₂.trans h₃⟩

theorem Reads.head_texts {c d : Cursor} {ts : List Token} (h : Reads c ts d) (hf : c.frames = [])
    (hts : IsReference ts) (hc : c.rest.head? = some Ascii.dollar) :
    (ts.flatMap (·.text)).head? = some Ascii.dollar := by
  obtain ⟨root, gs, rfl, -⟩ := hts
  obtain ⟨⟨s, hs, hcov⟩, -⟩ := h.covers (.of_nil hf)
  rw [hcov.flatMap_text]
  obtain ⟨-, -, r, rfl, -⟩ := id hcov
  obtain ⟨b, t, ht⟩ := List.exists_cons_of_ne_nil (hcov.text_ne_nil root (by simp))
  rw [hs, ht] at hc
  rw [ht]
  exact hc

end Stencil.Token.Cursor
