import BigDataPlatform.Lib.Decimal
import BigDataPlatform.SchemaInit.Awk
import Mathlib.Tactic.Linarith
import Mathlib.Data.Nat.Log

/-! # Numbers of six significant digits

A numeral of at most six significant digits is no binary64 as a rule, but it is
near enough to one that awk prints back the digits it read, without the zeros
that end its fraction. -/
namespace BigDataPlatform.SchemaInit.Awk
open Lib.Decimal

variable {a b n d m : Nat}

/-! ## Rounding -/

theorem roundEven_of_close (hlow : 2 * (m * d) < 2 * n + d) (hhigh : 2 * n < 2 * (m * d) + d) :
    roundEven n d = m := by
  have hd : 0 < d := by omega
  have hn := Nat.div_add_mod n d
  have hr := Nat.mod_lt n hd
  unfold roundEven
  generalize n / d = q at *
  generalize n % d = r at *
  obtain h | h | h | h : m < q ∨ m = q ∨ m = q + 1 ∨ q + 1 < m := by omega
  · exfalso
    have : (m + 1) * d ≤ q * d := Nat.mul_le_mul_right d h
    rw [Nat.mul_comm d q] at hn
    rw [Nat.add_mul] at this
    omega
  · subst h
    rw [Nat.mul_comm d m] at hn
    rw [if_pos (.inl (by omega))]
  · subst h
    rw [Nat.mul_comm d q] at hn
    rw [Nat.add_mul] at hlow hhigh
    rw [if_neg (by omega)]
  · exfalso
    have : (q + 1 + 1) * d ≤ m * d := Nat.mul_le_mul_right d h
    rw [Nat.mul_comm d q] at hn
    rw [Nat.add_mul, Nat.add_mul] at this
    omega

theorem roundEven_mul (hd : 0 < d) (m : Nat) : roundEven (m * d) d = m :=
  roundEven_of_close (by omega) (by omega)

/-- Off by half at most. -/
theorem roundEven_error (hd : 0 < d) (n : Nat) :
    2 * (roundEven n d * d) ≤ 2 * n + d ∧ 2 * n ≤ 2 * (roundEven n d * d) + d := by
  have hn := Nat.div_add_mod n d
  have hr := Nat.mod_lt n hd
  unfold roundEven
  generalize n / d = q at *
  generalize n % d = r at *
  rw [Nat.mul_comm d q] at hn
  dsimp only
  split
  · omega
  · rw [Nat.add_mul]
    omega

/-- One part in 2^53 at most between a number and its binary64. -/
theorem binary64_error (hd : 0 < d) (n : Nat) :
    0 < (binary64 n d).2 ∧
      (binary64 n d).1 * d * 2 ^ 53 ≤ n * (binary64 n d).2 * (2 ^ 53 + 1) ∧
      n * (binary64 n d).2 * 2 ^ 53 ≤ (binary64 n d).1 * d * 2 ^ 53 + n * (binary64 n d).2 := by
  unfold binary64
  split
  · next h => subst h; simp
  next hn =>
  split
  · next hdn =>
    -- the quotient has a leading bit, which the error stays 53 bits below
    have hlead : d * 2 ^ (n / d).log2 ≤ n :=
      (Nat.mul_le_mul_left d (Nat.log2_self_le (Nat.div_pos hdn hd).ne')).trans (Nat.mul_div_le n d)
    obtain ⟨hup, hlow⟩ := roundEven_error (Nat.mul_pos hd (Nat.two_pow_pos (n / d).log2)) (n * 2 ^ 52)
    dsimp only
    generalize roundEven (n * 2 ^ 52) (d * 2 ^ (n / d).log2) = r at *
    generalize 2 ^ (n / d).log2 = e at *
    have hr : r * e * d = r * (d * e) := by ring
    rw [hr]
    refine ⟨by positivity, ?_, ?_⟩ <;> omega
  · next hdn =>
    have hlead : d ≤ n * 2 ^ (((d - 1) / n).log2 + 1) := by
      have hlt : (d - 1) / n < 2 ^ (((d - 1) / n).log2 + 1) := Nat.lt_log2_self
      have := (Nat.div_lt_iff_lt_mul (Nat.pos_of_ne_zero hn)).mp hlt
      rw [Nat.mul_comm] at this
      omega
    obtain ⟨hup, hlow⟩ := roundEven_error hd (n * 2 ^ (52 + (((d - 1) / n).log2 + 1)))
    dsimp only
    generalize roundEven (n * 2 ^ (52 + (((d - 1) / n).log2 + 1))) d = r at *
    rw [pow_add] at hup hlow ⊢
    generalize 2 ^ (((d - 1) / n).log2 + 1) = e at *
    have he : n * (2 ^ 52 * e) = 2 ^ 52 * (n * e) := by ring
    rw [he] at hup hlow ⊢
    refine ⟨Nat.mul_pos (by decide) (Nat.pos_of_ne_zero fun h => by simp [h] at hlead; omega), ?_, ?_⟩
      <;> omega

/-! ## A fraction and its binary64 -/

/-- `p / q` is within one part in 2^53 of `n / d`, below a million. -/
structure Near (p q n d : Nat) : Prop where
  pos : 0 < q
  small : n < 10 ^ 6
  high : p * d * 2 ^ 53 ≤ n * q * (2 ^ 53 + 1)
  low : n * q * 2 ^ 53 ≤ p * d * 2 ^ 53 + n * q

variable {p q x s t : Nat}

/-- Nearer to no whole number than the fraction itself is. -/
theorem Near.div_eq (h : Near p q (a * d + b) d) (hb : 0 < b) (hbd : b < d) : p / q = a := by
  obtain ⟨hq, hn, hhigh, hlow⟩ := h
  have hsum : (a * d + b) * q = a * q * d + b * q := by ring
  have hbq : q ≤ b * q := Nat.le_mul_of_pos_left q hb
  have hdq : b * q + q ≤ q * d := by
    have := Nat.mul_le_mul_right q (Nat.succ_le_of_lt hbd)
    rw [Nat.succ_mul, Nat.mul_comm d] at this
    exact this
  have hmax : (a * d + b) * q ≤ 10 ^ 6 * q := Nat.mul_le_mul_right q hn.le
  rw [Nat.mul_add, hsum] at hhigh
  rw [hsum] at hlow hmax
  refine (Nat.div_eq_iff hq).mpr ⟨?_, ?_⟩
  · by_contra hlt
    have : p * d ≤ a * q * d := Nat.mul_le_mul_right d (by omega)
    omega
  · by_contra hge
    have : (a + 1) * q * d ≤ p * d := Nat.mul_le_mul_right d (by rw [Nat.add_mul]; omega)
    rw [Nat.add_mul, Nat.add_mul, Nat.one_mul] at this
    omega

theorem Near.mod_ne (h : Near p q (a * d + b) d) (hb : 0 < b) (hbd : b < d) : p % q ≠ 0 := by
  intro hmod
  have hdiv := h.div_eq hb hbd
  obtain ⟨hq, hn, -, hlow⟩ := h
  have hp : p = a * q := by
    rw [← hdiv]
    exact (Nat.div_mul_cancel (Nat.dvd_of_mod_eq_zero hmod)).symm
  have hsum : (a * d + b) * q = p * d + b * q := by rw [hp]; ring
  have hbq : q ≤ b * q := Nat.le_mul_of_pos_left q hb
  have hmax : (a * d + b) * q ≤ 10 ^ 6 * q := Nat.mul_le_mul_right q hn.le
  rw [hsum] at hlow hmax
  omega

/-- Scaled to a whole number below a million, the fraction is what rounding gives. -/
theorem Near.round_eq (h : Near p q n d) (hd : 0 < d) (ht : 0 < t) (hm : m ≤ 10 ^ 6)
    (hexact : m * (d * t) = n * s) : roundEven (p * s) (q * t) = m := by
  obtain ⟨hq, -, hhigh, hlow⟩ := h
  have hscaled : n * q * s = m * (q * t * d) := by
    calc n * q * s = n * s * q := by ring
      _ = m * (q * t * d) := by rw [← hexact]; ring
  have hpos : 0 < q * t * d := Nat.mul_pos (Nat.mul_pos hq ht) hd
  have hmax : m * (q * t * d) ≤ 10 ^ 6 * (q * t * d) := Nat.mul_le_mul_right _ hm
  have hup := Nat.mul_le_mul_right s hhigh
  have hdown := Nat.mul_le_mul_right s hlow
  have h₁ : p * d * 2 ^ 53 * s = p * s * d * 2 ^ 53 := by ring
  have h₂ : n * q * (2 ^ 53 + 1) * s = m * (q * t * d) * (2 ^ 53 + 1) := by rw [← hscaled]; ring
  have h₃ : n * q * 2 ^ 53 * s = m * (q * t * d) * 2 ^ 53 := by rw [← hscaled]; ring
  have h₄ : (p * d * 2 ^ 53 + n * q) * s = p * s * d * 2 ^ 53 + m * (q * t * d) := by
    rw [← hscaled]; ring
  rw [h₁, h₂] at hup
  rw [h₃, h₄] at hdown
  have hcancel : m * (q * t * d) = m * (q * t) * d := by ring
  refine roundEven_of_close ?_ ?_ <;> refine Nat.lt_of_mul_lt_mul_right (a := d) ?_
  · rw [Nat.add_mul, Nat.mul_assoc 2, ← hcancel, Nat.mul_assoc 2 (p * s)]
    omega
  · rw [Nat.add_mul, Nat.mul_assoc 2, Nat.mul_assoc 2 (m * (q * t)), ← hcancel]
    omega

/-! ## What is printed -/

/-- The digits that awk has to keep of `a.b`. -/
def SixDigits (a b : Nat) : Prop :=
  (if a = 0 then 0 else (digits a).length) + (digits b).length ≤ 6

instance (a b : Nat) : Decidable (SixDigits a b) := inferInstanceAs (Decidable (_ ≤ _))

theorem dropZeros_append (cs : List Char) (j : Nat) :
    dropZeros (cs ++ List.replicate j '0') = dropZeros cs := by
  simp [dropZeros]

theorem fixed_append (lead cs : List Char) (j : Nat) :
    fixed lead (cs ++ List.replicate j '0') = fixed lead cs := by
  rw [fixed, dropZeros_append, fixed]

theorem numberString_whole (hd : 0 < d) (ha : a < 2 ^ 52) :
    numberString (binary64 (a * d) d) = digits a := by
  rcases Nat.eq_zero_or_pos a with rfl | hpos
  · simp [binary64, numberString]
  have hlog : 2 ^ a.log2 ≤ a := Nat.log2_self_le hpos.ne'
  have he : a.log2 ≤ 52 := by
    by_contra h
    have : 2 ^ 52 ≤ 2 ^ a.log2 := Nat.pow_le_pow_right (by decide) (by omega)
    omega
  have hround : roundEven (a * d * 2 ^ 52) (d * 2 ^ a.log2) = a * 2 ^ (52 - a.log2) := by
    have hsplit : a * d * 2 ^ 52 = a * 2 ^ (52 - a.log2) * (d * 2 ^ a.log2) := by
      rw [← Nat.sub_add_cancel he, pow_add, Nat.add_sub_cancel]
      ring
    rw [hsplit]
    exact roundEven_mul (Nat.mul_pos hd (Nat.two_pow_pos _)) _
  have hvalue : binary64 (a * d) d = (a * 2 ^ 52, 2 ^ 52) := by
    rw [binary64, if_neg (Nat.mul_pos hpos hd).ne', if_pos (Nat.le_mul_of_pos_left d hpos),
      Nat.mul_div_cancel a hd]
    dsimp only
    rw [hround, Nat.mul_assoc, ← pow_add, Nat.sub_add_cancel he]
  rw [hvalue, numberString, if_pos (Nat.mul_mod_left a _), Nat.mul_div_cancel a (by decide)]

theorem digits_append (ha : 0 < a) (b : Nat) :
    digits (a * 10 ^ (digits b).length + b) = digits a ++ digits b := toDigits_append ha b

theorem digits_mul_pow (hn : 0 < n) (j : Nat) :
    digits (n * 10 ^ j) = digits n ++ List.replicate j '0' := toDigits_mul_pow hn j

theorem SixDigits.lt (h : SixDigits a b) : a * 10 ^ (digits b).length + b < 10 ^ 6 := by
  unfold SixDigits at h
  split at h
  · next h0 =>
    subst h0
    have hpow := Nat.pow_le_pow_right (n := 10) (by decide) h
    have hb := lt_pow_length b
    simp only [digits, Nat.zero_add, Nat.zero_mul] at hpow ⊢
    omega
  · next h0 =>
    refine (lt_pow_length _).trans_le (Nat.pow_le_pow_right (by decide) ?_)
    have hdigits := congrArg List.length (digits_append (Nat.pos_of_ne_zero h0) b)
    rw [List.length_append] at hdigits
    exact hdigits.trans_le h

theorem SixDigits.near (h : SixDigits a b) : Near (numeral a b).1 (numeral a b).2
    (a * 10 ^ (digits b).length + b) (10 ^ (digits b).length) := by
  obtain ⟨hq, hhigh, hlow⟩ := binary64_error (Nat.pow_pos (by decide : 0 < 10))
    (a * 10 ^ (digits b).length + b)
  exact ⟨hq, h.lt, hhigh, hlow⟩

/-- Below one: six places after the point. -/
theorem formatG_below (hb : 0 < b) (hlen : (digits b).length ≤ 6)
    (h : Near p q (0 * 10 ^ (digits b).length + b) (10 ^ (digits b).length)) (hpq : p < q) :
    formatG p q = fixed ['0'] (digits b) := by
  have hm : digits (b * 10 ^ (6 - (digits b).length)) =
      digits b ++ List.replicate (6 - (digits b).length) '0' := digits_mul_pow hb _
  have hlt : b * 10 ^ (6 - (digits b).length) < 10 ^ 6 := by
    have hpow := lt_pow_length (b * 10 ^ (6 - (digits b).length))
    have hsix := congrArg List.length hm
    rw [List.length_append, List.length_replicate, Nat.add_sub_cancel' hlen] at hsix
    rwa [← digits, hsix] at hpow
  have hround : roundEven (p * 10 ^ 6) q = b * 10 ^ (6 - (digits b).length) := by
    have := h.round_eq (Nat.pow_pos (by decide)) Nat.one_pos hlt.le (s := 10 ^ 6) (by
      rw [Nat.mul_one, Nat.zero_mul, Nat.zero_add, Nat.mul_assoc, ← pow_add, Nat.sub_add_cancel hlen])
    rwa [Nat.mul_one] at this
  rw [formatG, if_pos hpq]
  dsimp only
  rw [hround, if_neg hlt.ne, hm, fixed_append]

/-- From one on: six digits in all. -/
theorem formatG_above (ha : 0 < a) (hlen : (digits a).length + (digits b).length ≤ 6)
    (h : Near p q (a * 10 ^ (digits b).length + b) (10 ^ (digits b).length)) (hdiv : p / q = a) :
    formatG p q = fixed (digits a) (digits b) := by
  obtain ⟨x, hx⟩ : ∃ x, (digits a).length = x + 1 :=
    ⟨_, (Nat.sub_add_cancel Nat.length_toDigits_pos).symm⟩
  have hn : 0 < a * 10 ^ (digits b).length + b :=
    Nat.add_pos_left (Nat.mul_pos ha (Nat.pow_pos (by decide))) _
  have hm := digits_mul_pow hn (5 - x - (digits b).length)
  rw [digits_append ha] at hm
  have hlt : (a * 10 ^ (digits b).length + b) * 10 ^ (5 - x - (digits b).length) < 10 ^ 6 := by
    have hpow := lt_pow_length ((a * 10 ^ (digits b).length + b) * 10 ^ (5 - x - (digits b).length))
    have hsix := congrArg List.length hm
    rw [List.length_append, List.length_append, List.length_replicate, hx] at hsix
    rw [← digits, hsix] at hpow
    exact hpow.trans_le (Nat.pow_le_pow_right (by decide) (by omega))
  have hround := h.round_eq (Nat.pow_pos (by decide)) (Nat.pow_pos (by decide) : 0 < 10 ^ x) hlt.le
    (s := 10 ^ 5) (by
      rw [Nat.mul_assoc, ← pow_add, ← pow_add]
      congr 2
      omega)
  have hqp : ¬ p < q := fun hpq => by rw [Nat.div_eq_of_lt hpq] at hdiv; omega
  have hsig : significant p q =
      ((a * 10 ^ (digits b).length + b) * 10 ^ (5 - x - (digits b).length), x) := by
    rw [significant, hdiv, hx, Nat.add_sub_cancel, hround, if_neg hlt.ne]
  rw [formatG, if_neg hqp, hsig]
  dsimp only
  rw [if_pos (by omega), hm, List.append_assoc, ← hx, List.take_left, List.drop_left, fixed_append]

/-- **Read and printed back.** A numeral of six significant digits prints as its
two parts without the zeros that end the second. -/
theorem numberString_sixDigits (h : SixDigits a b) :
    numberString (numeral a b) = fixed (digits a) (digits b) := by
  rcases Nat.eq_zero_or_pos b with rfl | hb
  · have ha : a < 2 ^ 52 := by
      have hle := Nat.le_mul_of_pos_right a (Nat.pow_pos (by decide) : 0 < 10 ^ (digits 0).length)
      have hlt := h.lt
      omega
    exact numberString_whole (Nat.pow_pos (by decide)) ha
  have hbd : b < 10 ^ (digits b).length := lt_pow_length b
  have hdiv := h.near.div_eq hb hbd
  rw [numberString, if_neg (h.near.mod_ne hb hbd)]
  have hlen := h
  unfold SixDigits at hlen
  split at hlen
  · next h0 =>
    subst h0
    exact formatG_below hb (by omega) h.near ((Nat.div_eq_zero_iff_lt h.near.pos).mp hdiv)
  · next h0 => exact formatG_above (Nat.pos_of_ne_zero h0) hlen h.near hdiv

end BigDataPlatform.SchemaInit.Awk
