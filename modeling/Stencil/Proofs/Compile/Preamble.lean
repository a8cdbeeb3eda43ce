import Stencil.Compile.Preamble
import Mathlib.Tactic

/-! What the preamble shows of the attribute forms. A quoted literal ends where it says, so that the code of the
attribute helper is the same for two sets of forms just if flag and pair are the same and a value is escaped to the
same code. -/

namespace Stencil

namespace Quoted

theorem escape_cons_cases (c : UInt8) (s : Bytes) :
    escape (c :: s) = Ascii.backslash :: c :: escape s ∨
    c ≠ Ascii.backslash ∧ c ≠ Ascii.singleQuote ∧ escape (c :: s) = c :: escape s := by
  rw [escape]
  split
  next => exact .inl rfl
  next h =>
    simp only [Bool.or_eq_true, beq_iff_eq, not_or] at h
    exact .inr ⟨h.1, h.2, rfl⟩

theorem quote_ne_escape (c : UInt8) (s x y : Bytes) : Ascii.singleQuote :: x ≠ escape (c :: s) ++ y := by
  intro h
  rcases escape_cons_cases c s with hs | ⟨-, hc, hs⟩
  · rw [hs] at h
    exact absurd (List.cons.inj h).1 (by decide)
  · rw [hs] at h
    exact hc (List.cons.inj h).1.symm

/-- The text after a quoted literal is where the literal ends. -/
theorem escape_append_inj {a b x y : Bytes}
    (h : escape a ++ Ascii.singleQuote :: x = escape b ++ Ascii.singleQuote :: y) : a = b ∧ x = y := by
  induction a generalizing b with
  | nil =>
    cases b with
    | nil => exact ⟨rfl, (List.cons.inj h).2⟩
    | cons d b => exact absurd h (quote_ne_escape d b _ _)
  | cons c a ih =>
    cases b with
    | nil => exact absurd h.symm (quote_ne_escape c a _ _)
    | cons d b =>
      rcases escape_cons_cases c a with hc | ⟨hcb, -, hc⟩ <;> rcases escape_cons_cases d b with hd | ⟨hdb, -, hd⟩ <;>
        rw [hc, hd] at h <;> simp only [List.cons_append, List.cons.injEq] at h
      · obtain ⟨rfl, rfl⟩ := ih h.2.2
        exact ⟨by rw [h.2.1], rfl⟩
      · exact absurd h.1.symm hdb
      · exact absurd h.1 hcb
      · obtain ⟨rfl, rfl⟩ := ih h.2
        exact ⟨by rw [h.1], rfl⟩

theorem encode_append_inj {a b x y : Bytes} (h : encode a ++ x = encode b ++ y) : a = b ∧ x = y := by
  simp only [encode, List.cons_append, List.append_assoc, List.nil_append, List.cons.injEq, true_and] at h
  exact escape_append_inj h

end Quoted

namespace Preamble

structure Forms.Alike (f f' : Forms) : Prop where
  flag : f.flag = f'.flag
  pair : f.pair = f'.pair
  escape : Template.format f.escape ["(string) $value"] = Template.format f'.escape ["(string) $value"]

theorem Forms.Alike.refl (f : Forms) : f.Alike f := ⟨rfl, rfl, rfl⟩

theorem attributesTextCode_eq_iff {storage merge : Bytes} {f f' : Forms} :
    attributesTextCode storage f merge = attributesTextCode storage f' merge ↔ f.Alike f' := by
  refine ⟨fun h => ?_, fun h => by rw [attributesTextCode, attributesTextCode, h.flag, h.pair, h.escape]⟩
  simp only [attributesTextCode, List.append_assoc, List.append_cancel_left_eq] at h
  obtain ⟨hflag, h⟩ := Quoted.encode_append_inj h
  obtain ⟨hpair, h⟩ := Quoted.encode_append_inj (List.append_cancel_left h)
  exact ⟨hflag, hpair, List.append_cancel_right (List.append_cancel_left h)⟩

theorem Forms.Alike.write {f f' : Forms} (h : f.Alike f') (storage : Storage) (fragments : Array Origin)
    (helpers : Helper.Registry.Emitted Helper.Body) :
    Preamble.write storage f fragments helpers = Preamble.write storage f' fragments helpers := by
  have hcode : code storage.name f fragments = code storage.name f' fragments := by
    funext dependencies body
    cases body with
    | attributesText => exact attributesTextCode_eq_iff.mpr h
    | _ => rfl
  have hdeclaration : declaration storage f fragments = declaration storage f' fragments := by
    funext helper
    rw [declaration, declaration, hcode]
  rw [Preamble.write, Preamble.write, hdeclaration]

end Preamble

end Stencil
