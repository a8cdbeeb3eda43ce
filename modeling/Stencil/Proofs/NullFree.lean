import Stencil.Pattern
import Stencil.Proofs.Pattern.Agreement
import Stencil.Proofs.Success
import Stencil.Proofs.Texture

/-! Texts without null bytes. Escaping, quoting, numbers, merged attributes and filled templates bring in no null byte
of their own. -/

namespace Stencil

namespace Bytes

def NullFree (s : Bytes) : Prop := 0 ∉ s

instance (s : Bytes) : Decidable s.NullFree := inferInstanceAs (Decidable (¬ _))

variable {s t : Bytes} {c : UInt8} {parts : List Bytes}

@[simp] theorem nullFree_nil : NullFree [] := List.not_mem_nil

@[simp] theorem nullFree_cons : NullFree (c :: s) ↔ c ≠ 0 ∧ s.NullFree := by
  rw [NullFree, List.mem_cons, not_or, ne_comm]
  rfl

@[simp] theorem nullFree_append : NullFree (s ++ t) ↔ s.NullFree ∧ t.NullFree := by
  rw [NullFree, List.mem_append, not_or]
  rfl

theorem NullFree.of_subset (ht : t.NullFree) (h : s ⊆ t) : s.NullFree := fun hs => ht (h hs)

theorem flatten_induction {P : Bytes → Prop} (hnil : P []) (happend : ∀ {s t : Bytes}, P s → P t → P (s ++ t))
    (h : ∀ s ∈ parts, P s) : P parts.flatten := by
  induction parts with
  | nil => exact hnil
  | cons s parts ih =>
    obtain ⟨hs, hparts⟩ := List.forall_mem_cons.mp h
    exact happend hs (ih hparts)

theorem nullFree_flatten (h : ∀ s ∈ parts, s.NullFree) : NullFree parts.flatten := by
  intro hmem
  obtain ⟨s, hs, hzero⟩ := List.mem_flatten.mp hmem
  exact h s hs hzero

theorem nullFree_flatMap {α : Type} {f : α → Bytes} {xs : List α} (h : ∀ x ∈ xs, NullFree (f x)) :
    NullFree (xs.flatMap f) := nullFree_flatten (List.forall_mem_map.mpr h)

theorem nullFree_join {separator : Bytes} (hseparator : separator.NullFree) (h : ∀ s ∈ parts, s.NullFree) :
    NullFree (join separator parts) := by
  induction parts with
  | nil => exact nullFree_nil
  | cons s parts ih =>
    obtain ⟨hs, hparts⟩ := List.forall_mem_cons.mp h
    cases parts with
    | nil => simpa [join] using hs
    | cons t parts =>
      rw [join, List.intercalate_cons_cons]
      exact nullFree_append.mpr ⟨nullFree_append.mpr ⟨hs, hseparator⟩, ih hparts⟩

theorem nullFree_getD (h : ∀ s ∈ parts, s.NullFree) (n : Nat) : NullFree (parts.getD n []) := by
  rw [List.getD_eq_getElem?_getD]
  cases hn : parts[n]? with
  | none => exact nullFree_nil
  | some s => exact h s (List.mem_of_getElem? hn)

theorem nullFree_of_isDigit (h : ∀ c ∈ s, Ascii.isDigit c) : s.NullFree := fun hzero => absurd (h 0 hzero) (by decide)

theorem nullFree_ofNat (n : Nat) : NullFree (ofNat n) := nullFree_of_isDigit (isDigit_ofNat n)

end Bytes

open Bytes (NullFree nullFree_nil nullFree_cons nullFree_append nullFree_flatMap nullFree_join nullFree_ofNat)

/-- Texts without null bytes, whatever their neighbours. -/
def Bytewise.nullFree : Bytewise where
  ok c := c ≠ 0
  joins _ _ := True
  ok_of h _ := h
  joins_of _ := trivial

def Texture.nullFree : Texture := Bytewise.nullFree.texture

theorem Texture.holds_nullFree {s : Bytes} : Texture.nullFree.Holds s ↔ s.NullFree := by
  have hchain : s.IsChain Bytewise.nullFree.joins := (List.pairwise_of_forall fun _ _ => trivial).isChain
  exact ⟨fun h hzero => h.1 0 hzero rfl, fun h => ⟨fun c hc hzero => h (hzero ▸ hc), hchain⟩⟩

theorem Texture.holds_nullFree_eq : Texture.nullFree.Holds = Bytes.NullFree := funext fun _ => propext holds_nullFree

open Texture (holds_nullFree)

theorem Entity.nullFree_escape {s : Bytes} (h : s.NullFree) : NullFree (escape s) :=
  holds_nullFree.mp (holds_escape (holds_nullFree.mpr h))

theorem Quoted.nullFree_encode {s : Bytes} (h : s.NullFree) : NullFree (encode s) :=
  holds_nullFree.mp (holds_encode (holds_nullFree.mpr h))

def Key.NullFree : Key → Prop
  | .int _ => True
  | .name s => s.NullFree

inductive Value.NullFree : Value → Prop
  | null : NullFree .null
  | bool (b : Bool) : NullFree (.bool b)
  | int (n : Int64) : NullFree (.int n)
  | float (x : Binary64) : NullFree (.float x)
  | string {s : Bytes} (h : s.NullFree) : NullFree (.string s)
  | array {es : List (Key × Value)} (hkeys : ∀ e ∈ es, e.1.NullFree) (hvalues : ∀ e ∈ es, NullFree e.2) :
      NullFree (.array es)

def NullFreeEntries (es : List (Key × Value)) : Prop := ∀ e ∈ es, e.1.NullFree ∧ e.2.NullFree

variable {v : Value} {key : Key} {es : List (Key × Value)}

theorem Key.each_nullFree : key.Each Texture.nullFree.Holds ↔ key.NullFree := by
  cases key with
  | int n => exact .rfl
  | name s => exact holds_nullFree

theorem Value.each_nullFree : v.Each Texture.nullFree.Holds ↔ v.NullFree := by
  constructor <;> intro h
  · induction h with
    | null => exact .null
    | bool b => exact .bool b
    | int n => exact .int n
    | float x => exact .float x
    | string h => exact .string (holds_nullFree.mp h)
    | array hkeys _ ih => exact .array (fun e he => Key.each_nullFree.mp (hkeys e he)) ih
  · induction h with
    | null => exact .null
    | bool b => exact .bool b
    | int n => exact .int n
    | float x => exact .float x
    | string h => exact .string (holds_nullFree.mpr h)
    | array hkeys _ ih => exact .array (fun e he => Key.each_nullFree.mpr (hkeys e he)) ih

theorem eachEntry_nullFree : EachEntry Texture.nullFree.Holds es ↔ NullFreeEntries es :=
  forall₂_congr fun _ _ => and_congr Key.each_nullFree Value.each_nullFree

theorem Value.NullFree.text (h : v.NullFree) : v.text.NullFree := holds_nullFree.mp (Value.each_nullFree.mpr h).text

theorem Key.NullFree.toValue (h : key.NullFree) : key.toValue.NullFree :=
  Value.each_nullFree.mp (Key.each_nullFree.mpr h).toValue

namespace Template

theorem positional?_subset {s rest : Bytes} {n : Nat} (h : positional? s = some (n, rest)) : rest ⊆ s := by
  rw [positional?] at h
  split at h
  next d c rest' hdrop =>
    have hrest : rest' ⊆ s := by
      intro b hb
      exact (List.dropWhile_sublist Ascii.isDigit).subset (hdrop ▸ List.mem_cons_of_mem d (List.mem_cons_of_mem c hb))
    split at h
    · split at h
      · split at h
        · cases h
          exact hrest
        · cases h
      · cases h
    · cases h
  next => cases h

theorem piece_subset (c : UInt8) (s : Bytes) :
    (∀ b, (piece c s).1 = .byte b → b ∈ c :: s) ∧ (piece c s).2 ⊆ s := by
  rw [piece.eq_def]
  split
  · exact ⟨fun b hb => by cases hb; exact List.mem_cons_self, List.Subset.refl _⟩
  · split
    next => exact ⟨fun b hb => by cases hb; exact List.mem_cons_self, List.Subset.refl _⟩
    next d rest =>
      split
      next hd =>
        refine ⟨fun b hb => ?_, List.subset_cons_self d rest⟩
        cases hb
        exact List.mem_cons_of_mem c (eq_of_beq hd ▸ List.mem_cons_self)
      next =>
        split
        · exact ⟨fun b hb => (by cases hb), List.subset_cons_self d rest⟩
        · split
          next hn => exact ⟨fun b hb => (by cases hb), positional?_subset hn⟩
          next => exact ⟨fun b hb => by cases hb; exact List.mem_cons_self, List.Subset.refl _⟩

theorem byte_mem_piecesFrom {fuel : Nat} {s : Bytes} {b : UInt8} (h : .byte b ∈ piecesFrom fuel s) : b ∈ s := by
  induction fuel generalizing s with
  | zero => cases h
  | succ fuel ih =>
    cases s with
    | nil => cases h
    | cons c s =>
      obtain ⟨hbyte, hrest⟩ := piece_subset c s
      rcases List.mem_cons.mp h with hb | hb
      · exact hbyte b hb.symm
      · exact List.mem_cons_of_mem c (hrest (ih hb))

theorem nullFree_fill {args : List Bytes} (hargs : ∀ a ∈ args, a.NullFree) {pieces : List Piece}
    (hpieces : ∀ b, .byte b ∈ pieces → b ≠ 0) (used : Nat) : NullFree (fill args used pieces) := by
  induction pieces generalizing used with
  | nil => exact nullFree_nil
  | cons p pieces ih =>
    have hrest := ih fun b hb => hpieces b (List.mem_cons_of_mem p hb)
    cases p with
    | byte c => exact nullFree_cons.mpr ⟨hpieces c List.mem_cons_self, hrest used⟩
    | next => exact nullFree_append.mpr ⟨Bytes.nullFree_getD hargs used, hrest (used + 1)⟩
    | nth n => exact nullFree_append.mpr ⟨Bytes.nullFree_getD hargs (n - 1), hrest used⟩

theorem nullFree_format {template : Bytes} (h : template.NullFree) {args : List Bytes} (hargs : ∀ a ∈ args, a.NullFree) :
    NullFree (format template args) :=
  nullFree_fill hargs (fun _ hb hzero => h (hzero ▸ byte_mem_piecesFrom hb)) 0

end Template

namespace Pattern

/-- What the pattern adds to its arguments has no null byte. -/
def NullFree : Pattern → Prop
  | .template text => text.NullFree
  | .producer _ body => ∀ inputs args : List Bytes,
    (∀ i ∈ inputs, i.NullFree) → (∀ a ∈ args, a.NullFree) → (body inputs args).NullFree

theorem nullFree_resolve {G : Bytes → Prop} {t : Table} (hclosed : Agree G t t)
    (hG : ∀ name p, G name → t.get? name = some p → p.NullFree) {fuel : Nat} {resolving : List Bytes} {fill : Bool}
    {name : Bytes} {args : List Bytes} {text : Bytes} (hname : G name) (hargs : ∀ a ∈ args, a.NullFree)
    (h : resolve t fuel resolving fill name args = .ok text) : text.NullFree := by
  induction fuel using Nat.strongRecOn generalizing resolving fill name args text with
  | ind fuel ih =>
    rcases (resolve_ok_cases h).2 with ⟨template, hp, rfl⟩ | ⟨inputs, body, rest, texts, hp, rfl, htexts, rfl⟩
    · have hfree : template.NullFree := hG name _ hname hp
      split
      · exact hfree
      · exact Template.nullFree_format hfree hargs
    · have hfree : (Pattern.producer inputs body).NullFree := hG name _ hname hp
      refine hfree texts args (mapM_forall htexts fun i hi y hy => ?_) hargs
      exact ih rest rest.lt_succ_self (hclosed.closed name inputs body hname hp i hi) (List.forall_mem_nil _) hy

end Pattern

end Stencil
