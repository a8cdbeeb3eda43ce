import Stencil.Proofs.Token.Nesting
import Stencil.Proofs.Token.Replay

/-! String literals. A quoted string ends at the first delimiter that no backslash takes with it, and it interpolates if
`$name`, `${` or `{$` stands in it outside of such pairs. A string token is a quoted string or a nowdoc. -/

namespace Stencil.Token

open Ascii

namespace Scan

/-- The inside of a string with this delimiter, and whether it interpolates. -/
inductive Inside (delim : UInt8) : (interpolates : Bool) → Bytes → Prop where
  | nil : Inside delim false []
  | pair (d : UInt8) {i : Bool} {s : Bytes} : Inside delim i s → Inside delim i (backslash :: d :: s)
  | byte {c : UInt8} {i : Bool} {s : Bytes} : c ≠ backslash → c ≠ delim → Inside delim i s →
      Inside delim (startsInterpolation (c :: s) || i) (c :: s)

def quotes : List UInt8 := [singleQuote, doubleQuote, backtick]

variable {delim : UInt8} {i : Bool} {body s : Bytes} {n : Nat}

/-- A delimiter starts no interpolation with what stands before it. -/
theorem startsInterpolation_quote (hd : delim ∈ quotes) (c : UInt8) (s z : Bytes) :
    startsInterpolation (c :: (s ++ delim :: z)) = startsInterpolation (c :: s) := by
  cases s with
  | nil =>
    have hquotes : ∀ q ∈ quotes, isNameStart q = false ∧ (q == lbrace) = false ∧ (q == dollar) = false := by decide +kernel
    obtain ⟨h₁, h₂, h₃⟩ := hquotes delim hd
    simp [startsInterpolation, h₁, h₂, h₃]
  | cons d s => rfl

theorem Inside.quoted (hd : delim ∈ quotes) (h : Inside delim i body) (z : Bytes) :
    quoted delim (body ++ delim :: z) = some (body.length + 1, i) := by
  have hne : ∀ q ∈ quotes, (q == backslash) = false := by decide +kernel
  induction h with
  | nil =>
    cases z with
    | nil => simp [Scan.quoted]
    | cons d z => simp [Scan.quoted, hne delim hd]
  | pair d _ ih => simp [Scan.quoted, ih]
  | @byte c i s hc hdelim _ ih =>
    have hstart := startsInterpolation_quote hd c s z
    cases s with
    | nil =>
      rw [List.nil_append] at ih hstart
      simp [Scan.quoted, hc, hdelim, ih, hstart]
    | cons d s =>
      rw [List.cons_append] at ih hstart
      simp [Scan.quoted, hc, hdelim, ih, hstart]

theorem inside_of_quoted (hd : delim ∈ quotes) (h : quoted delim s = some (n, i)) :
    ∃ body z, s = body ++ delim :: z ∧ Inside delim i body ∧ n = body.length + 1 := by
  fun_induction Scan.quoted delim s generalizing n i with
  | case1 => cases h
  | case2 c hc =>
    cases h
    exact ⟨[], [], by simpa using hc, .nil, rfl⟩
  | case3 => cases h
  | case4 c d s hc ih =>
    obtain ⟨⟨m, j⟩, hm, heq⟩ := Option.map_eq_some_iff.mp h
    cases heq
    obtain ⟨body, z, rfl, hbody, rfl⟩ := ih hm
    rw [beq_iff_eq.mp hc]
    exact ⟨backslash :: d :: body, z, rfl, .pair d hbody, rfl⟩
  | case5 c d s _ hc =>
    cases h
    exact ⟨[], d :: s, by simpa using hc, .nil, rfl⟩
  | case6 c d s hc hdelim ih =>
    obtain ⟨⟨m, j⟩, hm, heq⟩ := Option.map_eq_some_iff.mp h
    cases heq
    obtain ⟨body, z, hs, hbody, rfl⟩ := ih hm
    rw [hs, startsInterpolation_quote hd]
    refine ⟨c :: body, z, rfl, .byte ?_ ?_ hbody, rfl⟩
    · simpa using hc
    · simpa using hdelim

theorem inside_iff (hd : delim ∈ quotes) : Inside delim i body ↔ quoted delim (body ++ [delim]) = some (body.length + 1, i) := by
  constructor
  · exact fun h => h.quoted hd []
  · intro h
    obtain ⟨body', z, hbody, hinside, hlength⟩ := inside_of_quoted hd h
    obtain ⟨rfl, -⟩ := List.append_inj hbody (Nat.succ.inj hlength)
    exact hinside

end Scan

/-- The text of a string token. -/
inductive IsString : Bytes → Prop where
  | quoted {delim : UInt8} {i : Bool} {body : Bytes} (hdelim : delim ∈ Scan.quotes) (hplain : delim = singleQuote ∨ i = false)
      (h : Scan.Inside delim i body) : IsString (delim :: (body ++ [delim]))
  | nowdoc (s : Bytes) : IsString (less :: s)

theorem isString_take {delim : UInt8} {i : Bool} {s : Bytes} {n : Nat} (hd : delim ∈ Scan.quotes)
    (hplain : delim = singleQuote ∨ i = false) (h : Scan.quoted delim s = some (n, i)) :
    IsString ((delim :: s).take (n + 1)) := by
  obtain ⟨body, z, rfl, hbody, rfl⟩ := Scan.inside_of_quoted hd h
  rw [List.take_succ_cons, List.append_cons, List.take_left' (by simp)]
  exact .quoted hd hplain hbody

theorem Scan.CodeMove.isString {b : UInt8} {s : Bytes} {m : Move} (h : Scan.CodeMove b s m) {n : Nat}
    (hm : m.tokens = [(.string, n)]) : IsString ((b :: s).take n) := by
  cases h with
  | single k hb hk =>
    cases hm
    subst hb
    rw [Scan.singleQuoted_eq] at hk
    obtain ⟨⟨_, _⟩, hquoted, rfl⟩ := Option.map_eq_some_iff.mp hk
    exact isString_take (by decide) (.inl rfl) hquoted
  | plain k hb hk =>
    cases hm
    have hd : b ∈ Scan.quotes := by rcases hb with rfl | rfl <;> decide
    exact isString_take hd (.inr rfl) hk
  | nowdoc header k hheader _ =>
    cases hm
    have hpos := (Scan.header?_bounds hheader).1
    obtain ⟨o, rest, hs, rfl⟩ := Scan.header?_eq_some.mp hheader
    obtain ⟨rfl, -⟩ : b = less ∧ _ := List.cons.inj hs
    obtain ⟨j, hj⟩ : ∃ j, o.header.length + k = j + 1 := ⟨o.header.length + k - 1, by omega⟩
    rw [hj, List.take_succ_cons]
    exact .nowdoc _
  | operator => exact absurd (congrArg Prod.fst (List.cons.inj hm).1) (Scan.operator_ne (b :: s)).2
  | _ => cases hm

theorem Scan.TextMove.ne_string {terminator : Kind} {closes : Bool → Bytes → Option Nat} {lineStart : Bool} {s : Bytes}
    {m : Move} (h : Scan.TextMove terminator closes lineStart s m) (hterm : terminator = .quote ∨ terminator = .heredocEnd) :
    ∀ k ∈ m.tokens, k.1 ≠ .string := by
  cases h with
  | close s n _ => rcases hterm with rfl | rfl <;> simp
  | var d t _ _ =>
    refine List.forall_mem_cons.mpr ⟨by simp, ?_⟩
    rcases simpleSuffix_cases ((d :: t).drop (nameChars (d :: t))) with he | ⟨key, hk, he⟩ | ⟨op, n, k, hop, he⟩ <;> rw [he]
    · simp
    · have hkey : ∀ k ∈ [Kind.var, .number, .ident], k ≠ .string := by decide
      simpa using hkey _ hk
    · rcases hop with rfl | rfl <;> simp
  | _ => simp

theorem Cursor.Reads.isString {c d : Cursor} {ts : List Token} (h : Reads c ts d) {inText : Bool}
    (hl : Layered inText c.frames) : ∀ t ∈ ts, t.kind = .string → IsString t.text := by
  induction h generalizing inText with
  | refl c => exact fun t ht => by cases ht
  | @step c e b s m us hr hm hus ih =>
    obtain ⟨w, q, -, -, -, hframes, -⟩ := hus.over hl hr hm
    obtain ⟨inText', hl'⟩ := hl.after hm c.pos (c.pos + Scan.total m.tokens)
    rw [← hframes] at hl'
    intro t ht hkind
    rcases List.mem_append.mp ht with ht | ht
    · cases inText with
      | false =>
        rw [move_code hl] at hm
        have hcode := Scan.codeMove_cases hm
        obtain ⟨kind, n, hkn, hone⟩ := hcode.perform c
        rw [hone, List.mem_singleton] at ht
        subst ht
        obtain rfl : kind = .string := hkind
        change IsString (c.rest.take n)
        rw [hr]
        exact hcode.isString hkn
      | true =>
        obtain ⟨terminator, closes, hterm, htext⟩ := move_text hl hm
        have hmem : t.kind ∈ (c.perform m).1.map (·.kind) := List.mem_map_of_mem ht
        rw [perform_kinds] at hmem
        obtain ⟨k, hk, heq⟩ := List.mem_map.mp hmem
        exact absurd (heq.trans hkind) (htext.ne_string hterm k hk)
    · exact ih hl' t ht hkind

theorem tokenize_isString {src : Bytes} {ts : List Token} (h : tokenize src = .ok ts) :
    ∀ t ∈ ts, t.kind = .string → IsString t.text := by
  obtain ⟨d, hd, -, -⟩ := Cursor.tokenize_eq_ok.mp h
  exact hd.isString .top

end Stencil.Token
