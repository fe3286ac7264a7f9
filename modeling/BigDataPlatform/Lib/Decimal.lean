import Mathlib.Algebra.Order.Group.Nat
import Mathlib.Tactic.Ring

/-! # Decimal digits side by side

The digits of a number that is another's digits followed by more. -/
namespace BigDataPlatform.Lib.Decimal

theorem toDigits_snoc {n d : Nat} (hn : 0 < n) (hd : d < 10) :
    Nat.toDigits 10 (10 * n + d) = Nat.toDigits 10 n ++ [d.digitChar] := by
  rw [← Nat.toDigits_append_toDigits (by decide) hn hd, Nat.toDigits_of_lt_base hd]

/-- The digits of `b` after those of `a`. -/
theorem toDigits_append {a : Nat} (ha : 0 < a) (b : Nat) :
    Nat.toDigits 10 (a * 10 ^ (Nat.toDigits 10 b).length + b) =
      Nat.toDigits 10 a ++ Nat.toDigits 10 b := by
  induction b using Nat.strong_induction_on with
  | _ b ih =>
    by_cases hb : b < 10
    · rw [Nat.toDigits_of_lt_base hb, ← toDigits_snoc ha hb]
      congr 1
      simp only [List.length_singleton, pow_one]
      omega
    · have hsplit := Nat.toDigits_of_base_le (b := 10) (by decide) (Nat.le_of_not_lt hb)
      have hpos : 0 < a * 10 ^ (Nat.toDigits 10 (b / 10)).length + b / 10 :=
        Nat.add_pos_left (Nat.mul_pos ha (Nat.pow_pos (by decide))) _
      have hvalue : a * 10 ^ (Nat.toDigits 10 b).length + b =
          10 * (a * 10 ^ (Nat.toDigits 10 (b / 10)).length + b / 10) + b % 10 := by
        have hmod := Nat.div_add_mod b 10
        rw [hsplit, List.length_append, List.length_singleton, pow_succ]
        calc a * (10 ^ (Nat.toDigits 10 (b / 10)).length * 10) + b
            = a * (10 ^ (Nat.toDigits 10 (b / 10)).length * 10) + (10 * (b / 10) + b % 10) := by
              rw [hmod]
          _ = _ := by ring
      rw [hvalue, toDigits_snoc hpos (Nat.mod_lt b (by decide)), ih (b / 10) (by omega),
        List.append_assoc, ← hsplit]

theorem toDigits_mul_pow {n : Nat} (hn : 0 < n) (j : Nat) :
    Nat.toDigits 10 (n * 10 ^ j) = Nat.toDigits 10 n ++ List.replicate j '0' := by
  induction j with
  | zero => simp
  | succ j ih =>
    have hpow : n * 10 ^ (j + 1) = 10 * (n * 10 ^ j) + 0 := by ring
    have hpos : 0 < n * 10 ^ j := Nat.mul_pos hn (Nat.pow_pos (by decide))
    rw [hpow, toDigits_snoc hpos (by decide), ih, List.append_assoc, List.replicate_succ']
    rfl

theorem lt_pow_length (n : Nat) : n < 10 ^ (Nat.toDigits 10 n).length :=
  (Nat.length_toDigits_le_iff (by decide) Nat.length_toDigits_pos).mp le_rfl

end BigDataPlatform.Lib.Decimal
