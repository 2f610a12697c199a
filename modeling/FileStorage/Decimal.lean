/-
  The numerals of the log: what `decimal` prints can be read back.
-/
import FileStorage.Logger

namespace FileStorage.Logger

/-- The number that a string of decimal digits stands for. -/
def digitsValue (s : CString) : ℕ := s.foldl (fun n c => 10 * n + (c.toNat - 48)) 0

variable {n : ℕ}

theorem decimal_natCast : decimal n = (Nat.toDigits 10 n).map fun c => UInt8.ofNat c.toNat := by
  have h0 : ¬ ((n : ℤ) < 0) := by omega
  rw [decimal, if_neg h0, List.nil_append, Int.natAbs_natCast]

/-- A digit is one of the characters from `0` to `9`. -/
theorem toNat_digit {c : Char} (h : c ∈ Nat.toDigits 10 n) : 48 ≤ c.toNat ∧ c.toNat ≤ 57 := by
  have hd := Nat.isDigit_of_mem_toDigits (by decide) le_rfl h
  rw [Char.isDigit, Bool.and_eq_true, decide_eq_true_iff, decide_eq_true_iff] at hd
  exact ⟨hd.1, hd.2⟩

theorem mem_decimal {b : Byte} (h : b ∈ decimal n) : 48 ≤ b.toNat ∧ b.toNat ≤ 57 := by
  rw [decimal_natCast] at h
  obtain ⟨c, hc, rfl⟩ := List.mem_map.1 h
  obtain ⟨h1, h2⟩ := toNat_digit hc
  rw [UInt8.toNat_ofNat', Nat.mod_eq_of_lt (by omega)]
  exact ⟨h1, h2⟩

theorem decimal_ne_nil : decimal n ≠ [] := by
  rw [decimal_natCast, ne_eq, List.map_eq_nil_iff]
  exact Nat.toDigits_ne_nil

/-- **The numeral of a number is read as that number.** -/
theorem digitsValue_decimal : digitsValue (decimal n) = n := by
  have hfold : ∀ (l : List Char) (m : ℕ), (∀ c ∈ l, 48 ≤ c.toNat ∧ c.toNat ≤ 57) →
      (l.map fun c => UInt8.ofNat c.toNat).foldl (fun n c => 10 * n + (c.toNat - 48)) m =
        Nat.ofDigitChars 10 l m := by
    intro l
    induction l with
    | nil => intro m _; rfl
    | cons c l ih =>
      intro m hl
      have hc : (UInt8.ofNat c.toNat).toNat = c.toNat := by
        have := hl c List.mem_cons_self
        rw [UInt8.toNat_ofNat', Nat.mod_eq_of_lt (by omega)]
      rw [List.map_cons, List.foldl_cons, hc, Nat.ofDigitChars_cons]
      exact ih _ fun d hd => hl d (List.mem_cons_of_mem _ hd)
  rw [decimal_natCast, digitsValue, hfold _ _ fun c hc => toNat_digit hc]
  exact Nat.ofDigitChars_ten_toDigits

theorem decimal_injective : Function.Injective fun n : ℕ => decimal n := fun m n h => by
  have := congrArg digitsValue h
  simpa only [digitsValue_decimal] using this

end FileStorage.Logger
