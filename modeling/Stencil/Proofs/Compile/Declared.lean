import Stencil.Compile.Page
import Stencil.Proofs.Helper.Reachability
import Stencil.Proofs.Literal.Layout

/-! What the text of a preamble declares. The text is described apart from the functions that write it: one assignment for
each helper, in order, and for the table of fragments a literal that denotes an array with their origins. -/

namespace Stencil

theorem Bytes.infix_join {separator part : Bytes} {parts : List Bytes} (h : part ∈ parts) :
    part <:+: Bytes.join separator parts := by
  induction parts with
  | nil => cases h
  | cons first parts ih =>
    cases parts with
    | nil =>
      rw [List.mem_singleton.mp h]
      simp [Bytes.join]
    | cons second parts =>
      rw [Bytes.join, List.intercalate_cons_cons]
      rcases List.mem_cons.mp h with rfl | h
      · exact ⟨[], separator ++ separator.intercalate (second :: parts), by simp⟩
      · exact (ih h).trans (List.suffix_append _ _).isInfix

namespace Preamble

open Literal (LaidOut Filled arrayOf)

/-- The assignments that store each code under its name, one after the other. -/
inductive Assigns (storage : Storage) : List (Bytes × Bytes) → Bytes → Prop
  | nil : Assigns storage [] []
  | cons {name code text : Bytes} {rest : List (Bytes × Bytes)} : Assigns storage rest text →
      Assigns storage ((name, code) :: rest) (storage.accessor name ++ " = " ++ code ++ ";\n" ++ text)

/-- The text of a preamble. A storage without a getter is declared in it first. -/
inductive Declares (storage : Storage) : List (Bytes × Bytes) → Bytes → Prop
  | nothing : Declares storage [] []
  | stored {declared : List (Bytes × Bytes)} {text : Bytes} : declared ≠ [] → storage.getter.isSome → Assigns storage declared text →
      Declares storage declared ("<?php\n" ++ text ++ "?>\n")
  | fresh {declared : List (Bytes × Bytes)} {text : Bytes} : declared ≠ [] → storage.getter = none → Assigns storage declared text →
      Declares storage declared ("<?php\n" ++ ("$" ++ storage.name ++ " = [];\n") ++ text ++ "?>\n")

variable {storage : Storage} {declared : List (Bytes × Bytes)} {text name code : Bytes}

theorem assigns_flatMap (storage : Storage) (declared : List (Bytes × Bytes)) :
    Assigns storage declared (declared.flatMap fun e => (storage.accessor e.1 ++ " = " ++ e.2 ++ ";\n" : Bytes)) := by
  induction declared with
  | nil => exact .nil
  | cons e declared ih =>
    rw [List.flatMap_cons]
    exact .cons ih

theorem Assigns.isInfix (h : Assigns storage declared text) (hmem : (name, code) ∈ declared) :
    (storage.accessor name ++ " = " ++ code ++ ";\n" : Bytes) <:+: text := by
  induction h with
  | nil => cases hmem
  | cons _ ih =>
    rcases List.mem_cons.mp hmem with heq | hmem
    · obtain ⟨rfl, rfl⟩ := Prod.mk.inj heq
      exact (List.prefix_append _ _).isInfix
    · exact (ih hmem).trans (List.suffix_append _ _).isInfix

theorem Declares.isInfix (h : Declares storage declared text) (hmem : (name, code) ∈ declared) :
    (storage.accessor name ++ " = " ++ code ++ ";\n" : Bytes) <:+: text := by
  cases h with
  | nothing => cases hmem
  | stored _ _ h | fresh _ _ h => exact (h.isInfix hmem).trans (List.infix_append _ _ _)

theorem declares_write {r : Helper.Registry Helper.Body} {helpers : Helper.Registry.Emitted Helper.Body} {forms : Forms}
    {fragments : Array Origin} (hclosure : r.closure = .ok helpers)
    (h : r.dependencies storage (fun body deps => Preamble.code storage.name forms fragments deps body) = .ok declared) :
    Declares storage declared (write storage forms fragments helpers) := by
  have hassigns := Helper.Registry.flatMap_declaration hclosure h ▸ assigns_flatMap storage declared
  obtain ⟨helpers', hclosure', rfl⟩ := Helper.Registry.dependencies_eq_ok h
  obtain rfl : helpers = helpers' := Except.ok.inj (hclosure.symm.trans hclosure')
  cases helpers with
  | nil => exact .nothing
  | cons first rest =>
    unfold write
    cases hgetter : storage.getter with
    | some getter => exact .stored (by simp) (by simp [hgetter]) hassigns
    | none =>
      have hfresh := Declares.fresh (by simp) hgetter hassigns
      simpa using hfresh

def Fits (n : Int) : Prop := -2 ^ 63 ≤ n ∧ n < 2 ^ 63

instance (n : Int) : Decidable (Fits n) := inferInstanceAs (Decidable (_ ∧ _))

def place (o : Origin) : Value :=
  .array [(.int 0, .string o.file), (.int 1, .int (.ofInt o.line)), (.int 2, .int (.ofInt o.offset))]

/-- The places of fragments that are numbered from `first` on. -/
def table : (first : Nat) → List Origin → List (Key × Value)
  | _, [] => []
  | first, o :: os => (.int (.ofNat first), place o) :: table (first + 1) os

theorem Fits.toInt_ofInt {n : Int} (h : Fits n) : (Int64.ofInt n).toInt = n := Int64.toInt_ofInt_of_le h.1 h.2

theorem comma_space (s : Bytes) : ("," : Bytes) ++ (" " ++ s) = ", " ++ s := (List.append_assoc _ _ s).symm

theorem comma_newline : ("," : Bytes) ++ "\n" = ",\n" := by decide

theorem newline_rbracket : (",\n" : Bytes) ++ "]" = ",\n]" := by decide

theorem laidOut_place {o : Origin} (hline : Fits o.line) (hoffset : Fits o.offset) :
    LaidOut (.literal (place o)) ("[" ++ Quoted.encode o.file ++ ", " ++ Bytes.ofInt o.line ++ ", "
      ++ Bytes.ofInt o.offset ++ "]") := by
  have hline' := Literal.laidOut_int (.ofInt o.line)
  have hoffset' := Literal.laidOut_int (.ofInt o.offset)
  rw [hline.toInt_ofInt] at hline'
  rw [hoffset.toInt_ofInt] at hoffset'
  have hlast := hoffset'.plain.last (w := " ") (by decide +kernel)
  have hrest := hline'.plain.cons (w := " ") (by decide +kernel) hlast
  have hall := ((Literal.laidOut_string o.file).plain.cons (w := []) (by decide +kernel) hrest).laidOut
  have harray : arrayOf [(none, .string o.file), (none, .int (.ofInt o.line)), (none, .int (.ofInt o.offset))] = place o := rfl
  rw [harray] at hall
  simpa [comma_space] using hall

theorem debugRow_eq (id : Nat) (o : Origin) : debugRow id o = "\n    " ++ (Bytes.ofNat id ++ " => " ++
    ("[" ++ Quoted.encode o.file ++ ", " ++ Bytes.ofInt o.line ++ ", " ++ Bytes.ofInt o.offset ++ "]")) := by
  simp [debugRow]
  rfl

theorem laidOut_row {n : Nat} {o : Origin} (hid : n < 2 ^ 63) (hline : Fits o.line) (hoffset : Fits o.offset) :
    ∃ s, debugRow n o = "\n    " ++ s ∧ LaidOut (.entry (some (Key.int (.ofNat n)).toValue, place o)) s := by
  have hkey := Literal.laidOut_int (.ofNat n)
  rw [Int64.toInt_ofNat_of_lt hid] at hkey
  exact ⟨_, debugRow_eq n o, hkey.keyed rfl (laidOut_place hline hoffset)⟩

def rows (first : Nat) (os : List Origin) : List Bytes := os.mapIdx fun i o => debugRow (first + i) o

theorem rows_cons (first : Nat) (o : Origin) (os : List Origin) :
    rows first (o :: os) = debugRow first o :: rows (first + 1) os := by
  simp only [rows, List.mapIdx_cons, Nat.add_zero, Nat.add_assoc, Nat.add_comm 1]

/-- Rows with commas behind them, whatever spaces stand in front. -/
theorem filled_table {n : Nat} {os : List Origin} (hne : os ≠ []) (hcount : n + os.length ≤ 2 ^ 63)
    (hfits : ∀ o ∈ os, Fits o.line ∧ Fits o.offset) {w : Bytes} (hw : ∀ c ∈ w, Ascii.isSpace c) :
    Filled ((table n os).map fun e => (some e.1.toValue, e.2)) (w ++ Bytes.join ", " (rows n os) ++ ",\n") := by
  induction os generalizing n w with
  | nil => exact absurd rfl hne
  | cons o os ih =>
    obtain ⟨⟨hline, hoffset⟩, hfits⟩ := List.forall_mem_cons.mp hfits
    rw [List.length_cons] at hcount
    obtain ⟨s, hs, hrow⟩ := laidOut_row (n := n) (by omega) hline hoffset
    have hbreak : ∀ c ∈ ("\n    " : Bytes), Ascii.isSpace c := by decide +kernel
    have hspaces : ∀ c ∈ w ++ ("\n    " : Bytes), Ascii.isSpace c := List.forall_mem_append.mpr ⟨hw, hbreak⟩
    rw [table, List.map_cons, rows_cons, hs]
    cases os with
    | nil =>
      have hall := hrow.cons hspaces (Literal.filled_nil (w := "\n") (by decide +kernel))
      simpa [Bytes.join, rows, table, comma_newline] using hall
    | cons o' os =>
      have hrest := ih (n := n + 1) (by simp) (by omega) hfits (w := " ") (by decide +kernel)
      have hall := hrow.cons hspaces hrest
      rw [rows_cons] at hall ⊢
      rw [Bytes.join, List.intercalate_cons_cons]
      simpa [Bytes.join, comma_space] using hall

theorem keys_table {first : Nat} {os : List Origin} :
    (table first os).map (·.1) = (List.range' first os.length).map fun id => .int (.ofNat id) := by
  induction os generalizing first with
  | nil => rfl
  | cons o os ih => rw [table, List.map_cons, ih, List.length_cons, List.range'_succ, List.map_cons]

theorem int_ofNat_inj {n m : Nat} (hn : n < 2 ^ 63) (hm : m < 2 ^ 63) (h : Key.int (.ofNat n) = .int (.ofNat m)) : n = m := by
  have hint := congrArg Int64.toInt (Key.int.inj h)
  rw [Int64.toInt_ofNat_of_lt hn, Int64.toInt_ofNat_of_lt hm] at hint
  exact Int.ofNat.inj hint

theorem nodup_keys_table {first : Nat} {os : List Origin} (hcount : first + os.length ≤ 2 ^ 63) :
    ((table first os).map (·.1)).Nodup := by
  rw [keys_table]
  refine List.Nodup.map_on (fun n hn m hm h => ?_) List.nodup_range'
  rw [List.mem_range'_1] at hn hm
  exact int_ofNat_inj (by omega) (by omega) h

theorem debugMapCode_eq (fragments : Array Origin) : debugMapCode fragments =
    "[" ++ Bytes.join ", " (rows 1 fragments.toList) ++ (if fragments.toList = [] then "]" else ",\n]" : Bytes) := by
  have hrows : (fragments.toList.mapIdx fun i o => debugRow (i + 1) o) = rows 1 fragments.toList := by
    simp only [rows, Nat.add_comm 1]
  rw [debugMapCode, hrows]
  simp [rows]

/-- The table of fragments is a literal, and denotes the array of their places by number. -/
theorem evaluate_debugMapCode {fragments : Array Origin} (hcount : fragments.size < 2 ^ 63)
    (hfits : ∀ o ∈ fragments.toList, Fits o.line ∧ Fits o.offset) :
    Literal.evaluate (debugMapCode fragments) = some (.array (table 1 fragments.toList)) := by
  rw [← Array.length_toList] at hcount
  rw [debugMapCode_eq]
  generalize fragments.toList = os at hcount hfits
  have hfilled : Filled ((table 1 os).map fun e => (some e.1.toValue, e.2))
      (Bytes.join ", " (rows 1 os) ++ if os = [] then [] else ",\n") := by
    split
    next hnil =>
      subst hnil
      exact Literal.filled_nil (by simp [rows, Bytes.join])
    next hne =>
      simpa using filled_table hne (by omega) hfits (w := []) (by simp)
  have hentries : arrayOf ((table 1 os).map fun e => (some e.1.toValue, e.2)) = .array (table 1 os) := by
    refine congrArg Value.array ((Literal.entries_foldl_addEntry (nodup_keys_table (by omega)) ?_ ?_).trans ?_)
    · intro e he
      obtain ⟨id, -, hid⟩ := List.mem_map.mp (keys_table ▸ List.mem_map_of_mem he)
      rw [← hid]
      rfl
    · simp [Table.keys, Table.empty]
    · rfl
  have hall := hentries ▸ hfilled.laidOut.evaluate
  split at hall
  next hnil => simpa [hnil] using hall
  next hne => simpa [hne, newline_rbracket] using hall

theorem lookup_table {n i : Nat} {os : List Origin} {o : Origin} (hcount : n + os.length ≤ 2 ^ 63)
    (ho : os[i]? = some o) : (table n os).lookup (.int (.ofNat (n + i))) = some (place o) := by
  induction os generalizing n i with
  | nil => cases ho
  | cons o' os ih =>
    rw [List.length_cons] at hcount
    cases i with
    | zero =>
      obtain rfl : o' = o := Option.some.inj ho
      exact List.lookup_cons_self
    | succ i =>
      rw [List.getElem?_cons_succ] at ho
      have hlt : i < os.length := (List.getElem?_eq_some_iff.mp ho).1
      have hne : (Key.int (.ofNat (n + (i + 1))) == Key.int (.ofNat n)) = false := by
        refine beq_eq_false_iff_ne.mpr fun h => ?_
        have := int_ofNat_inj (by omega) (by omega) h
        omega
      rw [table, List.lookup_cons, hne, ← Nat.add_assoc, Nat.add_right_comm]
      exact ih (by omega) ho

/-- The code has a row with the place of the fragment. If the places of all fragments, and their number, have 64 bits, it
denotes an array that has the place under the number. -/
structure Lists (code : Bytes) (fragments : List Origin) (id : Int) (o : Origin) : Prop where
  row : ("\n    " ++ Bytes.ofInt id ++ " => [" ++ Quoted.encode o.file ++ ", " ++ Bytes.ofInt o.line ++ ", "
    ++ Bytes.ofInt o.offset ++ "]" : Bytes) <:+: code
  denotes : fragments.length < 2 ^ 63 → (∀ o ∈ fragments, Fits o.line ∧ Fits o.offset) →
    ∃ entries, Literal.evaluate code = some (.array entries) ∧ entries.lookup (.int (.ofInt id)) = some (place o)

theorem lists_debugMapCode {fragments : Array Origin} {id : Int} {o : Origin} (h : Page.fragment? fragments id = some o) :
    Lists (debugMapCode fragments) fragments.toList id o := by
  rw [Page.fragment?] at h
  split at h
  next => cases h
  next hpos =>
    rw [← Array.getElem?_toList] at h
    obtain ⟨n, rfl⟩ : ∃ n : Nat, id = (n + 1 : Nat) := ⟨(id - 1).toNat, by omega⟩
    rw [show ((n + 1 : Nat) - 1 : Int).toNat = n by omega] at h
    refine ⟨?_, fun hcount hfits => ⟨_, evaluate_debugMapCode (by simpa using hcount) hfits, ?_⟩⟩
    · have hrow : debugRow (n + 1) o ∈ rows 1 fragments.toList := by
        obtain ⟨hlt, rfl⟩ := List.getElem?_eq_some_iff.mp h
        exact List.mem_mapIdx.mpr ⟨n, hlt, by rw [Nat.add_comm 1]⟩
      have hinfix : debugRow (n + 1) o <:+: debugMapCode fragments := by
        rw [debugMapCode_eq]
        exact (Bytes.infix_join hrow).trans (List.infix_append _ _ _)
      rw [show Bytes.ofInt (n + 1 : Nat) = Bytes.ofNat (n + 1) from rfl]
      simpa [debugRow] using hinfix
    · have hlookup := lookup_table (n := 1) (by omega) h
      rwa [Nat.add_comm 1] at hlookup

end Preamble

end Stencil
