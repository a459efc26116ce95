import Saddle.Decimal.Integer

/-!
# Which words are numbers

Reading stops at the first character that cannot be taken, or at the first digit that
carries the number out of its range. As a number never becomes smaller by another digit,
it is in range at the end only if it has been so all the time: the words that are read
are those of digits, perhaps after a plus sign, whose number is in range.
-/

namespace Saddle.Decimal

/-- The word is the number in decimal digits, perhaps after a plus sign. -/
def Denotes (word : List Char) (n : Nat) : Prop :=
  ∃ digits, (word = digits ∨ word = '+' :: digits) ∧ digits ≠ [] ∧
    (∀ c ∈ digits, c.isDigit = true) ∧ Nat.ofDigitChars 10 digits 0 = n

/-- A number is printed in digits that denote it. -/
theorem denotes_toDigits (n : Nat) : Denotes (Nat.toDigits 10 n) n :=
  ⟨_, Or.inl rfl, Nat.toDigits_ne_nil, fun _ => Nat.isDigit_of_mem_toDigits (by decide) (by decide),
    Nat.ofDigitChars_ten_toDigits⟩

section Reading

variable {limit n m : Nat} {excess : IntegerError} {cs : List Char}

theorem digit?_eq (c : Char) :
    digit? c = if c.isDigit = true then some (c.toNat - '0'.toNat) else none := by
  have hdigit : ('0' ≤ c ∧ c ≤ '9') ↔ c.isDigit = true := by
    rw [Char.isDigit, Bool.and_eq_true, decide_eq_true_eq, decide_eq_true_eq]
    rfl
  simp only [digit?, hdigit]

theorem le_ofDigitChars (n : Nat) (cs : List Char) : n ≤ Nat.ofDigitChars 10 cs n := by
  induction cs generalizing n with
  | nil => exact Nat.le_refl n
  | cons c cs ih =>
      rw [Nat.ofDigitChars_cons]
      exact Nat.le_trans (by omega) (ih _)

theorem readOn_eq_ok (hn : n ≤ limit) : readOn limit excess n cs = .ok m ↔
    (∀ c ∈ cs, c.isDigit = true) ∧ Nat.ofDigitChars 10 cs n = m ∧ m ≤ limit := by
  induction cs generalizing n with
  | nil =>
      rw [readOn, Except.ok.injEq]
      constructor
      · rintro rfl
        exact ⟨by simp, rfl, hn⟩
      · rintro ⟨-, h, -⟩
        exact h
  | cons c cs ih =>
      rw [readOn, digit?_eq, List.forall_mem_cons, Nat.ofDigitChars_cons]
      by_cases hc : c.isDigit = true
      · rw [if_pos hc]
        dsimp only
        by_cases hlimit : limit < 10 * n + (c.toNat - '0'.toNat)
        · rw [if_pos hlimit]
          constructor
          · intro h
            cases h
          · -- The digits that follow do not bring the number back into range.
            rintro ⟨-, hm, hle⟩
            have := le_ofDigitChars (10 * n + (c.toNat - '0'.toNat)) cs
            omega
        · rw [if_neg hlimit, ih (Nat.le_of_not_lt hlimit)]
          exact ⟨fun ⟨h, h'⟩ => ⟨⟨hc, h⟩, h'⟩, fun ⟨h, h'⟩ => ⟨h.2, h'⟩⟩
      · rw [if_neg hc]
        exact ⟨(nomatch ·), fun h => absurd h.1.1 hc⟩

theorem readDigits_eq_ok : readDigits limit excess cs = .ok m ↔
    cs ≠ [] ∧ (∀ c ∈ cs, c.isDigit = true) ∧ Nat.ofDigitChars 10 cs 0 = m ∧ m ≤ limit := by
  cases cs with
  | nil => exact ⟨(nomatch ·), fun h => absurd rfl h.1⟩
  | cons c cs =>
      rw [readDigits, List.isEmpty_cons, if_neg (by decide), readOn_eq_ok (Nat.zero_le _)]
      exact ⟨fun h => ⟨List.cons_ne_nil _ _, h⟩, And.right⟩

theorem denotes_plus : Denotes ('+' :: cs) m ↔
    cs ≠ [] ∧ (∀ c ∈ cs, c.isDigit = true) ∧ Nat.ofDigitChars 10 cs 0 = m := by
  constructor
  · rintro ⟨digits, rfl | hplus, hne, hdigits, hm⟩
    · exact absurd (hdigits '+' List.mem_cons_self) (by decide)
    · obtain rfl := (List.cons.inj hplus).2
      exact ⟨hne, hdigits, hm⟩
  · exact fun h => ⟨cs, Or.inr rfl, h⟩

theorem denotes_of_ne_plus (hcs : ∀ rest, cs ≠ '+' :: rest) : Denotes cs m ↔
    cs ≠ [] ∧ (∀ c ∈ cs, c.isDigit = true) ∧ Nat.ofDigitChars 10 cs 0 = m := by
  constructor
  · rintro ⟨digits, rfl | hplus, h⟩
    · exact h
    · exact absurd hplus (hcs digits)
  · exact fun h => ⟨cs, Or.inl rfl, h⟩

/-- A size is read from the words that denote one in range. -/
theorem readNat_eq_ok : readNat cs = .ok m ↔ Denotes cs m ∧ m ≤ maxSize := by
  unfold readNat
  split
  · rw [readDigits_eq_ok, denotes_plus, and_assoc, and_assoc]
  · next hcs => rw [readDigits_eq_ok, denotes_of_ne_plus hcs, and_assoc, and_assoc]

end Reading

end Saddle.Decimal
