import Stencil.Proofs.Compile.History

/-! The ledger kept as lists, sets and counters: the required helpers as a list and as a set, the origins of fragments by
number, and the greatest number given out. A failure takes names out of the set and numbers out of the table one by one.
Through every history of a session these agree with each other and with the ledger. -/

namespace Stencil

structure Roster where
  required : List Bytes
  marked : Bytes → Bool
  origins : Nat → Option Origin
  count : Nat

namespace Roster

def empty : Roster := ⟨[], fun _ => false, fun _ => none, 0⟩

def require (r : Roster) (name : Bytes) : Roster :=
  if r.marked name then r
  else { r with required := r.required ++ [name], marked := Function.update r.marked name true }

def number (r : Roster) (o : Origin) : Roster :=
  { r with origins := Function.update r.origins (r.count + 1) (some o), count := r.count + 1 }

/-- Forgets the helpers required since there were `checkpoint`; a checkpoint out of range forgets none. -/
def forget (r : Roster) (checkpoint : Int) : Roster :=
  if checkpoint < 0 ∨ r.required.length ≤ checkpoint then r
  else
    { r with
      required := r.required.take checkpoint.toNat
      marked := (r.required.drop checkpoint.toNat).foldl (fun marked name => Function.update marked name false) r.marked }

/-- Forgets the fragments after the first `count`, one number after the other. -/
def unnumber (r : Roster) (count : Nat) : Roster :=
  { r with
    origins := (List.range' (count + 1) (r.count - count)).foldl (fun table id => Function.update table id none) r.origins
    count }

/-- What a call does, from the helpers that it is first to require and the origins that it numbers. -/
def call (r : Roster) (names : List Bytes) (os : List Origin) : Roster := os.foldl number (names.foldl require r)

def rollback (r before : Roster) : Roster := (r.forget before.required.length).unnumber before.count

/-- A list of helpers and a list of origins, in each of the ways they are kept. -/
def of (required : List Bytes) (fragments : Array Origin) : Roster :=
  ⟨required, required.contains, fun id => Page.fragment? fragments id, fragments.size⟩

def ofLedger (l : Ledger) : Roster := of l.helpers.required l.fragments

variable {required names : List Bytes} {fragments : Array Origin} {l l' : Ledger}

section

variable {α β : Type} [DecidableEq α] {xs : List α} {a : α}

theorem foldl_update_of_not_mem (h : a ∉ xs) (f : α → β) (b : β) :
    xs.foldl (fun f x => Function.update f x b) f a = f a := by
  induction xs generalizing f with
  | nil => rfl
  | cons x xs ih =>
    obtain ⟨hx, hxs⟩ := not_or.mp (mt List.mem_cons.mpr h)
    rw [List.foldl_cons, ih hxs, Function.update_of_ne hx]

theorem foldl_update_of_mem (h : a ∈ xs) (f : α → β) (b : β) : xs.foldl (fun f x => Function.update f x b) f a = b := by
  induction xs generalizing f with
  | nil => cases h
  | cons x xs ih =>
    rw [List.foldl_cons]
    by_cases hxs : a ∈ xs
    · exact ih hxs _
    · obtain rfl : a = x := (List.mem_cons.mp h).resolve_right hxs
      rw [foldl_update_of_not_mem hxs, Function.update_self]

end

theorem fragment?_succ (fragments : Array Origin) (n : Nat) : Page.fragment? fragments (n + 1 : Nat) = fragments[n]? := by
  rw [Page.fragment?, if_neg (by omega), show ((n + 1 : Nat) - 1 : Int).toNat = n by omega]

theorem of_nil : of [] #[] = empty := by
  have htable : (fun id : Nat => Page.fragment? #[] id) = fun _ => none := by
    funext id
    rw [Page.fragment?]
    split <;> simp
  exact congrArg (Roster.mk _ _ · _) htable

theorem require_of (required : List Bytes) (fragments : Array Origin) (name : Bytes) :
    (of required fragments).require name = of (Helper.noted required name) fragments := by
  have hmarked : (of required fragments).marked name = true ↔ name ∈ required := List.elem_iff
  rw [require, Helper.noted]
  by_cases hname : name ∈ required
  · rw [if_pos hname, if_pos (hmarked.mpr hname)]
  · have hset : Function.update required.contains name true = (required ++ [name]).contains := by
      funext other
      by_cases h : other = name <;> simp [h]
    rw [if_neg hname, if_neg (mt hmarked.mp hname), of, of, hset]

theorem number_of (required : List Bytes) (fragments : Array Origin) (o : Origin) :
    (of required fragments).number o = of required (fragments.push o) := by
  have htable : Function.update (fun id : Nat => Page.fragment? fragments id) (fragments.size + 1) (some o) =
      fun id : Nat => Page.fragment? (fragments.push o) id := by
    funext id
    rw [Function.update_apply]
    cases id with
    | zero => rfl
    | succ n =>
      rw [fragment?_succ, fragment?_succ, Array.getElem?_push]
      simp
  rw [number, of, of, htable, Array.size_push]

theorem forget_of (hdistinct : required.Nodup) (fragments : Array Origin) (checkpoint : Int) :
    (of required fragments).forget checkpoint =
      of (if checkpoint < 0 then required else required.take checkpoint.toNat) fragments := by
  have hlength : (of required fragments).required.length = required.length := rfl
  rw [forget, hlength]
  by_cases hneg : checkpoint < 0
  · rw [if_pos (.inl hneg), if_pos hneg]
  by_cases hlen : (required.length : Int) ≤ checkpoint
  · rw [if_pos (.inr hlen), if_neg hneg, List.take_of_length_le (by omega)]
  rw [if_neg (not_or.mpr ⟨hneg, hlen⟩), if_neg hneg]
  -- a name that goes out of the list goes out of the set: it is not in what is left
  have hset : (required.drop checkpoint.toNat).foldl (fun marked name => Function.update marked name false)
      required.contains = (required.take checkpoint.toNat).contains := by
    have hsplit := List.take_append_drop checkpoint.toNat required
    have hapart := (List.nodup_append.mp (hsplit ▸ hdistinct)).2.2
    funext name
    by_cases hdrop : name ∈ required.drop checkpoint.toNat
    · have htake : name ∉ required.take checkpoint.toNat := fun htake => hapart name htake name hdrop rfl
      rw [foldl_update_of_mem hdrop]
      simpa using htake
    · have hmem : name ∈ required ↔ name ∈ required.take checkpoint.toNat ∨ name ∈ required.drop checkpoint.toNat := by
        rw [← List.mem_append, hsplit]
      rw [foldl_update_of_not_mem hdrop, Bool.eq_iff_iff]
      simpa [hdrop] using hmem
  exact congrArg (Roster.mk _ · _ _) hset

theorem unnumber_of (required : List Bytes) {count : Nat} (hcount : count ≤ fragments.size) :
    (of required fragments).unnumber count = of required (fragments.take count) := by
  have htake : (fragments.take count).toList = fragments.toList.take count := by simp
  have htable : (List.range' (count + 1) (fragments.size - count)).foldl (fun table id => Function.update table id none)
      (fun id : Nat => Page.fragment? fragments id) = fun id : Nat => Page.fragment? (fragments.take count) id := by
    funext id
    by_cases hid : id ∈ List.range' (count + 1) (fragments.size - count)
    · rw [foldl_update_of_mem hid]
      obtain ⟨n, rfl⟩ : ∃ n, id = n + 1 := ⟨id - 1, by rw [List.mem_range'_1] at hid; omega⟩
      rw [List.mem_range'_1] at hid
      rw [fragment?_succ, ← Array.getElem?_toList, htake, List.getElem?_take_eq_none (by omega)]
    · rw [foldl_update_of_not_mem hid]
      cases id with
      | zero => rfl
      | succ n =>
        rw [List.mem_range'_1] at hid
        rw [fragment?_succ, fragment?_succ, ← Array.getElem?_toList, ← Array.getElem?_toList, htake, List.getElem?_take]
        split
        next => rfl
        next => exact List.getElem?_eq_none (by rw [Array.length_toList]; omega)
  have hsize : (fragments.take count).size = count := by simp [Nat.min_eq_left hcount]
  rw [unnumber, of, of, hsize]
  exact congrArg (Roster.mk _ _ · _) htable

theorem rollback_ofLedger {before : Ledger} (h : before.Extends l) (hdistinct : l.helpers.required.Nodup) :
    (ofLedger l).rollback (ofLedger before) = ofLedger (l.rollback before) := by
  have hcount : before.fragments.size ≤ l.fragments.size := by
    simpa using h.fragments.length_le
  rw [rollback, ofLedger, ofLedger]
  exact (congrArg (unnumber · _) (forget_of hdistinct _ _)).trans (unnumber_of _ hcount)

theorem foldl_require (h : (required ++ names).Nodup) :
    names.foldl require (of required fragments) = of (required ++ names) fragments := by
  induction names generalizing required with
  | nil => rw [List.append_nil]; rfl
  | cons name names ih =>
    have hnew : name ∉ required := fun hmem =>
      (List.nodup_append.mp h).2.2 name hmem name List.mem_cons_self rfl
    rw [List.append_cons] at h ⊢
    rw [List.foldl_cons, require_of, Helper.noted, if_neg hnew, ih h]

theorem foldl_number (os : List Origin) (required : List Bytes) (fragments : Array Origin) :
    os.foldl number (of required fragments) = of required (fragments ++ os) := by
  induction os generalizing fragments with
  | nil => simp
  | cons o os ih =>
    rw [List.foldl_cons, number_of, ih]
    simp

theorem exists_call (h : l.Extends l') (hdistinct : l.helpers.required.Nodup) :
    ∃ names os, ofLedger l' = (ofLedger l).call names os := by
  obtain ⟨names, hnames⟩ := h.required
  obtain ⟨os, hos⟩ := h.fragments
  have hfragments : l'.fragments = l.fragments ++ os := by
    apply Array.toList_inj.mp
    rw [← hos]
    simp
  refine ⟨names, os, ?_⟩
  rw [call, ofLedger, ofLedger, foldl_require (hnames ▸ h.distinct hdistinct), foldl_number, hnames, hfragments]

/-- What happens to the ledger of a session: a call that succeeds, one that fails, and a reset. -/
inductive Step : Roster → Roster → Prop
  | call (r : Roster) (names : List Bytes) (os : List Origin) : Step r (r.call names os)
  | failure (r : Roster) (names : List Bytes) (os : List Origin) : Step r ((r.call names os).rollback r)
  | reset (r : Roster) : Step r empty

/-- The ways of keeping the ledger agree. -/
structure Agrees (r : Roster) : Prop where
  distinct : r.required.Nodup
  marked : ∀ name, r.marked name = true ↔ name ∈ r.required
  numbered : ∀ id, (r.origins id).isSome ↔ 1 ≤ id ∧ id ≤ r.count

theorem agrees_ofLedger (hdistinct : l.helpers.required.Nodup) : (ofLedger l).Agrees where
  distinct := hdistinct
  marked _ := List.elem_iff
  numbered id := by
    have h := Page.isSome_fragment? l.fragments id
    rw [show (ofLedger l).origins id = Page.fragment? l.fragments id from rfl, h]
    exact and_congr (by omega) (by simp [ofLedger, of])

end Roster

namespace Session

open Roster (Step ofLedger)

/-- A call on a session is a step of the roster, and requires no helper twice. -/
theorem Desk.after_step (d : Desk) (call : Call) (hdistinct : d.session.ledger.helpers.required.Nodup) :
    Step (ofLedger d.session.ledger) (ofLedger (d.after call).session.ledger) ∧
    (d.after call).session.ledger.helpers.required.Nodup := by
  have hstay : Step (ofLedger d.session.ledger) (ofLedger d.session.ledger) := .call _ [] []
  have hextends {l : Ledger} (h : d.session.ledger.Extends l) : Step (ofLedger d.session.ledger) (ofLedger l) := by
    obtain ⟨names, os, hcall⟩ := Roster.exists_call h hdistinct
    exact hcall ▸ .call _ names os
  cases call with
  | format root selector =>
    cases root with
    | none => exact ⟨hstay, hdistinct⟩
    | some id =>
      obtain ⟨hgrow, -⟩ := d.session.attempt_grows (d.forest.element id) d.forest.size selector
      rw [show (d.after (.format (some id) selector)).session =
        (d.session.formatElement (d.forest.element id) d.forest.size selector).session from rfl, formatElement_eq]
      cases (d.session.attempt (d.forest.element id) d.forest.size selector).result with
      | ok text => exact ⟨hextends hgrow, hgrow.distinct hdistinct⟩
      | error f =>
        obtain ⟨names, os, hcall⟩ := Roster.exists_call hgrow hdistinct
        dsimp only
        refine ⟨?_, hgrow.rollback.helpers ▸ hdistinct⟩
        rw [← Roster.rollback_ofLedger hgrow (hgrow.distinct hdistinct), hcall]
        exact .failure _ names os
  | require name =>
    rw [after, require]
    cases hr : d.session.ledger.require none name with
    | error f => exact ⟨hstay, hdistinct⟩
    | ok ledger =>
      obtain ⟨hgrow, -, -⟩ := Ledger.extends_require hr
      exact ⟨hextends hgrow, hgrow.distinct hdistinct⟩
  | reset =>
    have hreset : ofLedger (d.after .reset).session.ledger = .empty := Roster.of_nil
    exact ⟨hreset ▸ .reset _, List.nodup_nil⟩
  | preamble =>
    rw [after, preamble]
    cases d.session.ledger.helpers.closure with
    | error e => exact ⟨hstay, hdistinct⟩
    | ok helpers => exact ⟨hstay, hdistinct⟩
  | edit change => exact ⟨hstay, hdistinct⟩

theorem Account.next_step (a : Account) (event : Event) (hdistinct : a.desk.session.ledger.helpers.required.Nodup) :
    Step (ofLedger a.desk.session.ledger) (ofLedger (a.next event).desk.session.ledger) ∧
    (a.next event).desk.session.ledger.helpers.required.Nodup := by
  have hdesk : ∀ call, (a.next (.call call)).desk = a.desk.after call := by
    intro call
    cases call <;> rfl
  cases event with
  | declare name code dependencies => exact ⟨.call _ [] [], hdistinct⟩
  | call call =>
    rw [hdesk]
    exact a.desk.after_step call hdistinct

/-- Whatever happens to a session, steps of the roster lead to all that its ledger has, and agree on it. -/
theorem Account.run_steps (settings : Settings) (forest : Forest) (events : List Event) :
    Relation.ReflTransGen Step .empty (ofLedger ((start settings forest).run events).desk.session.ledger) ∧
    (ofLedger ((start settings forest).run events).desk.session.ledger).Agrees := by
  suffices h : Relation.ReflTransGen Step .empty (ofLedger ((start settings forest).run events).desk.session.ledger) ∧
      ((start settings forest).run events).desk.session.ledger.helpers.required.Nodup from
    ⟨h.1, Roster.agrees_ofLedger h.2⟩
  induction events using List.reverseRecOn with
  | nil =>
    have hstart : ofLedger ((start settings forest).run []).desk.session.ledger = .empty := Roster.of_nil
    exact ⟨hstart ▸ .refl, List.nodup_nil⟩
  | append_singleton events event ih =>
    rw [run, List.foldl_concat]
    obtain ⟨hstep, hdistinct⟩ := ((start settings forest).run events).next_step event ih.2
    exact ⟨ih.1.tail hstep, hdistinct⟩

end Session

end Stencil
