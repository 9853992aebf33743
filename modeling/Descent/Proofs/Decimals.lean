import Descent.Number.Decimal
import Mathlib.Algebra.Order.Ring.Nat
import Mathlib.Tactic.Ring

/-!
# Descent — decimal numerals denote what they were written for

Digits are written from the last one forwards, onto those that stand behind them, and read from the
first one on. So the statement about writing speaks of the digits behind.

* **`Decimal.value_digitsOnto`** — what the digits of a number, put in front of others, denote
  together with them.
* **`Decimal.value_ofNat`** — what is written is read back.
-/

namespace Descent.Decimal

/-- Reading on from a number that the digits in front denote. -/
theorem foldl_value (acc : Nat) (ds : Text) :
    ds.foldl (fun n u => 10 * n + (u - 48)) acc = acc * 10 ^ ds.length + value ds := by
  induction ds generalizing acc with
  | nil => simp [value]
  | cons u ds ih =>
    have hvalue : value (u :: ds) = (u - 48) * 10 ^ ds.length + value ds := by
      rw [value, List.foldl_cons, ih, Nat.mul_zero, Nat.zero_add]
    rw [List.foldl_cons, ih, hvalue, List.length_cons, pow_succ]
    ring

/-- A digit in front counts for as many tens as there are digits behind it. -/
theorem value_cons (u : Nat) (ds : Text) :
    value (u :: ds) = (u - 48) * 10 ^ ds.length + value ds := by
  rw [value, List.foldl_cons, foldl_value, Nat.mul_zero, Nat.zero_add]

/-- The digits of a number are written in front of a tail, and its value is that much more. The
induction follows the division by ten. -/
theorem value_digitsOnto (n : Nat) (tail : Text) :
    value (digitsOnto n tail) = n * 10 ^ tail.length + value tail := by
  fun_induction digitsOnto n tail with
  | case1 n tail hn => rw [value_cons, Nat.add_sub_cancel_left]
  | case2 n tail hn ih =>
    rw [ih, value_cons, Nat.add_sub_cancel_left, List.length_cons, pow_succ, ← Nat.add_assoc]
    congr 1
    have hsplit : n / 10 * 10 + n % 10 = n := by omega
    calc n / 10 * (10 ^ tail.length * 10) + n % 10 * 10 ^ tail.length
        = (n / 10 * 10 + n % 10) * 10 ^ tail.length := by ring
      _ = n * 10 ^ tail.length := by rw [hsplit]

/-- What is written as a numeral reads as the number again. -/
theorem value_ofNat (n : Nat) : value (ofNat n) = n := by
  rw [ofNat, value_digitsOnto]
  simp [value]

/-- Counting up from the code point of zero, ten code points are digits. -/
theorem isDigit_add {d : Nat} (h : d < 10) : Text.isDigit (48 + d) = true := by
  rw [Text.isDigit, Bool.and_eq_true, decide_eq_true_iff, decide_eq_true_iff]
  omega

theorem digitsOnto_all {n : Nat} {tail : Text} (h : ∀ u ∈ tail, Text.isDigit u = true) :
    ∀ u ∈ digitsOnto n tail, Text.isDigit u = true := by
  fun_induction digitsOnto n tail with
  | case1 n tail hn => exact List.forall_mem_cons.mpr ⟨isDigit_add hn, h⟩
  | case2 n tail hn ih =>
    exact ih (List.forall_mem_cons.mpr ⟨isDigit_add (Nat.mod_lt n (by decide)), h⟩)

/-- A numeral has a digit at least, and so has that of zero. -/
theorem digitsOnto_ne_nil (n : Nat) (tail : Text) : digitsOnto n tail ≠ [] := by
  fun_induction digitsOnto n tail with
  | case1 n tail hn => exact List.cons_ne_nil _ _
  | case2 n tail hn ih => exact ih

end Descent.Decimal
