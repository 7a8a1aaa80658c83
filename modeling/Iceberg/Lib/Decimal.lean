import Mathlib.Data.List.Basic
import Mathlib.Data.Nat.Digits.Defs
import Mathlib.Tactic.Ring

/-!
# Decimal numerals as bytes

`decimal` is the numeral without leading zeros, `padded k` the one of exactly `k` digits,
written from the left by dividing by falling powers of ten. A numeral filled up with zeros
to `k` digits (`zeroFilled`, what `%0kd` prints) is the padded one.
-/

namespace Decimal

/-- The byte of a digit. -/
def digit (d : Nat) : UInt8 := UInt8.ofNat (48 + d)

/-- A number in decimal, without leading zeros. -/
def decimal (n : Nat) : List UInt8 := (Nat.toDigits 10 n).map fun c => c.toUInt8

/-- The last digit is that of the remainder; the ones before it are those of the quotient. -/
theorem decimal_eq (n : Nat) :
    decimal n = (if n < 10 then [] else decimal (n / 10)) ++ [digit (n % 10)] := by
  have hdigit : ∀ d, d < 10 → (Nat.digitChar d).toUInt8 = digit d := by decide
  unfold decimal
  rw [Nat.toDigits_eq_if (by omega : 1 < 10)]
  split
  · next h => simp [hdigit n h, Nat.mod_eq_of_lt h]
  · next h => simp [hdigit (n % 10) (Nat.mod_lt _ (by omega))]

theorem decimal_ne_nil (n : Nat) : decimal n ≠ [] := by
  rw [decimal_eq]
  simp

/-- The digits are the bytes from `0` on. -/
theorem toNat_digit {d : Nat} (h : d < 10) : (digit d).toNat = 48 + d := by
  rw [digit, UInt8.toNat_ofNat']
  omega

/-- A digit is one of the ten bytes from `0` to `9`. -/
theorem digit_bounds {d : Nat} (h : d < 10) :
    48 ≤ (digit d).toNat ∧ (digit d).toNat < 58 := by
  rw [toNat_digit h]
  omega

/-- Every byte of a decimal is a digit. -/
theorem mem_decimal {n : Nat} {b : UInt8} (h : b ∈ decimal n) :
    48 ≤ b.toNat ∧ b.toNat < 58 := by
  induction n using Nat.strong_induction_on generalizing b with
  | _ n ih =>
    rw [decimal_eq, List.mem_append] at h
    rcases h with h | h
    · by_cases hn : n < 10
      · simp [hn] at h
      · rw [if_neg hn] at h
        exact ih (n / 10) (by omega) h
    · have hb : b = digit (n % 10) := by simpa using h
      exact hb ▸ digit_bounds (Nat.mod_lt n (by omega))

/-- No byte besides the digits occurs, so none of the separators does. -/
theorem notMem_decimal (n : Nat) {b : UInt8} (h : b.toNat < 48 ∨ 58 ≤ b.toNat) :
    b ∉ decimal n := by
  intro hb
  have := mem_decimal hb
  omega

/-! ## Numerals of a fixed width -/

/-- The last `k` digits, from the left. -/
def padded : Nat → Nat → List UInt8
  | 0, _ => []
  | k + 1, n => digit (n / 10 ^ k) :: padded k (n % 10 ^ k)

/-- The numeral behind as many zeros as it lacks to `k` digits. -/
def zeroFilled (k n : Nat) : List UInt8 :=
  List.replicate (k - (decimal n).length) (digit 0) ++ decimal n

@[simp] theorem length_padded (k n : Nat) : (padded k n).length = k := by
  induction k generalizing n with
  | zero => rfl
  | succ k ih => simp [padded, ih]

/-- The bytes of a number that fits are digits. -/
theorem mem_padded {k n : Nat} (h : n < 10 ^ k) {b : UInt8} (hb : b ∈ padded k n) :
    48 ≤ b.toNat ∧ b.toNat < 58 := by
  induction k generalizing n with
  | zero => simp [padded] at hb
  | succ k ih =>
    have hpos : 0 < 10 ^ k := by positivity
    have hd : n / 10 ^ k < 10 := by
      rw [Nat.div_lt_iff_lt_mul hpos, Nat.mul_comm, ← Nat.pow_succ]
      exact h
    rw [padded, List.mem_cons] at hb
    rcases hb with rfl | hb
    · exact digit_bounds hd
    · exact ih (Nat.mod_lt _ hpos) hb

/-- No byte besides the digits occurs, as long as the number has at most `k` of them. -/
theorem notMem_padded {k n : Nat} (h : n < 10 ^ k) {b : UInt8}
    (hb : b.toNat < 48 ∨ 58 ≤ b.toNat) : b ∉ padded k n := by
  intro hmem
  have := mem_padded h hmem
  omega

/-- The numeral of a number that fits tells the number. -/
theorem padded_injective {k n m : Nat} (hn : n < 10 ^ k) (hm : m < 10 ^ k)
    (h : padded k n = padded k m) : n = m := by
  induction k generalizing n m with
  | zero => omega
  | succ k ih =>
    have hpos : 0 < 10 ^ k := by positivity
    have hfirst : ∀ {i}, i < 10 ^ (k + 1) → i / 10 ^ k < 10 := by
      intro i hi
      rw [Nat.div_lt_iff_lt_mul hpos, Nat.mul_comm, ← Nat.pow_succ]
      exact hi
    rw [padded, padded, List.cons.injEq] at h
    have hdiv : n / 10 ^ k = m / 10 ^ k := by
      have htoNat := congrArg UInt8.toNat h.1
      rw [toNat_digit (hfirst hn), toNat_digit (hfirst hm)] at htoNat
      omega
    have hmod := ih (Nat.mod_lt n hpos) (Nat.mod_lt m hpos) h.2
    rw [← Nat.div_add_mod n (10 ^ k), ← Nat.div_add_mod m (10 ^ k), hdiv, hmod]

/-- A padded numeral ends in its last digit. -/
theorem padded_succ {k n : Nat} (h : n < 10 ^ (k + 1)) :
    padded (k + 1) n = padded k (n / 10) ++ [digit (n % 10)] := by
  induction k generalizing n with
  | zero => simp [padded, Nat.mod_eq_of_lt (by simpa using h : n < 10)]
  | succ k ih =>
    have hpow : 10 ^ (k + 1) = 10 * 10 ^ k := by ring
    have hlt : n % 10 ^ (k + 1) < 10 ^ (k + 1) := Nat.mod_lt _ (by positivity)
    have hfirst : n / 10 ^ (k + 1) = n / 10 / 10 ^ k := by
      rw [Nat.div_div_eq_div_mul, hpow]
    have hmiddle : n % 10 ^ (k + 1) / 10 = n / 10 % 10 ^ k := by
      rw [hpow, Nat.mod_mul_right_div_self]
    have hlast : n % 10 ^ (k + 1) % 10 = n % 10 :=
      Nat.mod_mod_of_dvd _ (Dvd.intro _ hpow.symm)
    rw [padded, ih hlt, hfirst, hmiddle, hlast]
    rfl

/-- Zero is all zeros. Induction on the number of digits. -/
theorem padded_zero (k : Nat) : padded k 0 = List.replicate k (digit 0) := by
  induction k with
  | zero => rfl
  | succ k ih => rw [padded, Nat.zero_div, Nat.zero_mod, ih, List.replicate_succ]

/-- **The numeral filled up with zeros is the padded one.** -/
theorem zeroFilled_eq_padded {k n : Nat} (h : n < 10 ^ k) (hk : 0 < k) :
    zeroFilled k n = padded k n := by
  obtain ⟨k, rfl⟩ : ∃ j, k = j + 1 := ⟨k - 1, by omega⟩
  induction k generalizing n with
  | zero =>
    have h10 : n < 10 := by simpa using h
    simp [zeroFilled, padded, decimal_eq n, h10, Nat.mod_eq_of_lt h10]
  | succ k ih =>
    rw [padded_succ h]
    by_cases h10 : n < 10
    · -- one digit, and the rest of the width is filled up
      rw [zeroFilled, decimal_eq n, if_pos h10, Nat.div_eq_of_lt h10, padded_zero]
      simp
    · have hdiv : n / 10 < 10 ^ (k + 1) := by
        rw [Nat.div_lt_iff_lt_mul (by omega)]
        calc n < 10 ^ (k + 2) := h
          _ = 10 ^ (k + 1) * 10 := by ring
      rw [← ih hdiv (by omega), zeroFilled, decimal_eq n, if_neg h10, zeroFilled]
      simp only [List.length_append, List.length_cons, List.length_nil]
      rw [← List.append_assoc]
      congr 3
      omega

end Decimal
