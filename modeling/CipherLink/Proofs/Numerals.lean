import CipherLink.Algorithm.Identifier

/-!
# Decimal numerals

A numeral stands for a number of any size, behind an optional plus and any leading zeros. A
number is read exactly from its numerals, and a word of 32 bits from those of the numbers
that it holds. What is printed is a numeral of what was printed.
-/

namespace CipherLink.Decimal

/-- Digits, at least one and perhaps behind a plus, whose value is `n`. -/
def Spells (cs : List Char) (n : Nat) : Prop :=
  ∃ sign digits, (sign = [] ∨ sign = ['+']) ∧ digits ≠ [] ∧
    (∀ c ∈ digits, c.isDigit = true) ∧ cs = sign ++ digits ∧ Nat.ofDigitChars 10 digits 0 = n

variable {cs : List Char} {m n : Nat}

theorem digitsFrom?_eq_some_iff : digitsFrom? m cs = some n ↔
    (∀ c ∈ cs, c.isDigit = true) ∧ Nat.ofDigitChars 10 cs m = n := by
  induction cs generalizing m with
  | nil => simp [digitsFrom?]
  | cons c cs ih =>
    rw [digitsFrom?, Nat.ofDigitChars_cons]
    by_cases hc : c.isDigit = true
    · simp [digit?, hc, ih, Nat.mul_comm]
    · simp [digit?, hc]

theorem digits?_eq_some_iff : digits? cs = some n ↔
    cs ≠ [] ∧ (∀ c ∈ cs, c.isDigit = true) ∧ Nat.ofDigitChars 10 cs 0 = n := by
  cases cs with
  | nil => simp [digits?]
  | cons c cs =>
    rw [digits?, digitsFrom?_eq_some_iff]
    · simp
    · exact List.cons_ne_nil c cs

theorem natural?_eq_some_iff : natural? cs = some n ↔ Spells cs n := by
  constructor
  · intro h
    rw [natural?.eq_def] at h
    split at h
    · obtain ⟨hnil, hdigits, hvalue⟩ := digits?_eq_some_iff.mp h
      exact ⟨['+'], _, .inr rfl, hnil, hdigits, rfl, hvalue⟩
    · obtain ⟨hnil, hdigits, hvalue⟩ := digits?_eq_some_iff.mp h
      exact ⟨[], _, .inl rfl, hnil, hdigits, rfl, hvalue⟩
  · rintro ⟨sign, digits, rfl | rfl, hnil, hdigits, rfl, hvalue⟩
    · rw [natural?.eq_2]
      · exact digits?_eq_some_iff.mpr ⟨hnil, hdigits, hvalue⟩
      · rintro cs rfl
        simpa using hdigits '+' List.mem_cons_self
    · exact digits?_eq_some_iff.mpr ⟨hnil, hdigits, hvalue⟩

theorem word32?_eq_some_iff {w : UInt32} : word32? cs = some w ↔ Spells cs w.toNat := by
  rw [word32?, Option.bind_eq_bind, Option.bind_eq_some_iff, ← natural?_eq_some_iff]
  constructor
  · rintro ⟨n, hn, h⟩
    split at h
    · next hlt =>
      rw [hn, ← Option.some.inj h, UInt32.toNat_ofNat_of_lt' hlt]
    · simp at h
  · intro h
    exact ⟨w.toNat, h, by rw [if_pos w.toNat_lt, UInt32.ofNat_toNat]⟩

theorem Spells.unique (h : Spells cs m) (h' : Spells cs n) : m = n := by
  rw [← natural?_eq_some_iff] at h h'
  exact Option.some.inj (h.symm.trans h')

theorem spells_toString (n : Nat) : Spells (toString n).toList n := by
  refine ⟨[], Nat.toDigits 10 n, .inl rfl, Nat.toDigits_ne_nil, ?_, ?_, ?_⟩
  · exact fun c hc => Nat.isDigit_of_mem_toDigits (by decide) (by decide) hc
  · rw [Nat.toString_eq_ofList_toDigits, String.toList_ofList, List.nil_append]
  · exact Nat.ofDigitChars_ten_toDigits

end CipherLink.Decimal
