import Mathlib.Data.Nat.Log
import Mathlib.Data.Rat.Cast.Order
import Mathlib.Tactic.Linarith
import Mathlib.Tactic.Positivity
set_option autoImplicit false

namespace Rounding

/-- The number nearest to `n` with `p` significant bits, ties to the even one -/
def roundBits (p n : Nat) : Nat :=
  if n < 2 ^ p then n
  else
    let e := n.log2 + 1 - p
    let q := n / 2 ^ e
    let r := n % 2 ^ e
    (if 2 * r < 2 ^ e ∨ 2 * r = 2 ^ e ∧ q % 2 = 0 then q else q + 1) * 2 ^ e

@[simp] theorem roundBits_of_lt {p n : Nat} (h : n < 2 ^ p) : roundBits p n = n := if_pos h

@[simp] theorem roundBits_zero (p : Nat) : roundBits p 0 = 0 := roundBits_of_lt (by positivity)

theorem roundBits_le_two_pow {p n k : Nat} (hp : 0 < p) (h : n ≤ 2 ^ k) :
    roundBits p n ≤ 2 ^ k := by
  unfold roundBits
  split
  · exact h
  · rename_i hbig
    have hn : n ≠ 0 := by
      rintro rfl
      exact hbig (by positivity)
    have hlog : n.log2 ≤ k := by
      have hself := (Nat.le_log2 hn).mp le_rfl
      exact (Nat.pow_le_pow_iff_right (by decide)).mp (hself.trans h)
    -- the bound is a multiple of the last place that is kept
    obtain ⟨d, hd⟩ : ∃ d, k = n.log2 + 1 - p + d := ⟨k - (n.log2 + 1 - p), by omega⟩
    generalize n.log2 + 1 - p = e at hd
    subst hd
    rw [pow_add, mul_comm] at h
    simp only [pow_add, mul_comm (2 ^ e) (2 ^ d)]
    refine Nat.mul_le_mul_right _ ?_
    have hdiv : 2 ^ e * (n / 2 ^ e) + n % 2 ^ e = n := Nat.div_add_mod ..
    have hq : n / 2 ^ e ≤ 2 ^ d := Nat.div_le_of_le_mul (by rwa [mul_comm])
    split
    · exact hq
    · rename_i hup
      by_contra hlt
      have heq : n / 2 ^ e = 2 ^ d := by omega
      rw [heq, mul_comm] at hdiv
      have hpos : 0 < 2 ^ e := by positivity
      omega

theorem roundBits_pos {p n : Nat} (hp : 0 < p) (hn : 0 < n) : 0 < roundBits p n := by
  unfold roundBits
  split
  · exact hn
  · -- the leading bit is kept
    have hself : 2 ^ n.log2 ≤ n := (Nat.le_log2 hn.ne').mp le_rfl
    have hle : 2 ^ (n.log2 + 1 - p) ≤ n :=
      (Nat.pow_le_pow_right (by decide) (by omega)).trans hself
    have hq : 0 < n / 2 ^ (n.log2 + 1 - p) := Nat.div_pos hle (by positivity)
    refine Nat.mul_pos ?_ (by positivity)
    split <;> omega

/-- The quotient of two numbers to `p` significant bits. More bits than that are kept
of the exact quotient, and the last one tells whether any were dropped. -/
def divBits (p a b : Nat) : ℚ :=
  let e := p + b.log2 + 1
  roundBits p (2 * (a * 2 ^ e / b) + if b ∣ a * 2 ^ e then 0 else 1) / 2 ^ (e + 1)

@[simp] theorem divBits_zero_left (p b : Nat) : divBits p 0 b = 0 := by
  simp [divBits]

theorem divBits_nonneg (p a b : Nat) : 0 ≤ divBits p a b := by
  unfold divBits
  positivity

theorem divBits_pos {p a b : Nat} (hp : 0 < p) (ha : 0 < a) (hb : 0 < b) : 0 < divBits p a b := by
  simp only [divBits]
  generalize p + b.log2 + 1 = e
  refine div_pos ?_ (by positivity)
  refine mod_cast roundBits_pos hp ?_
  split
  · rename_i hdvd
    have hle : b ≤ a * 2 ^ e := Nat.le_of_dvd (by positivity) hdvd
    have := Nat.div_pos hle hb
    omega
  · omega

theorem divBits_le_one {p a b : Nat} (hp : 0 < p) (h : a ≤ b) : divBits p a b ≤ 1 := by
  simp only [divBits]
  generalize p + b.log2 + 1 = e
  rcases Nat.eq_zero_or_pos b with rfl | hb
  · obtain rfl : a = 0 := by omega
    simp
  rw [div_le_one (by positivity)]
  refine mod_cast roundBits_le_two_pow hp ?_
  have hle : a * 2 ^ e ≤ b * 2 ^ e := Nat.mul_le_mul_right _ h
  have hq : a * 2 ^ e / b ≤ 2 ^ e := Nat.div_le_of_le_mul hle
  rw [pow_succ]
  split
  · omega
  · rename_i hdvd
    have hne : a * 2 ^ e / b ≠ 2 ^ e := by
      intro heq
      have hmul := Nat.div_mul_le_self (a * 2 ^ e) b
      rw [heq] at hmul
      exact hdvd ⟨2 ^ e, le_antisymm hle (by rwa [mul_comm])⟩
    omega

/-- The number nearest to `x` with `p` significant bits -/
def roundRat (p : Nat) (x : ℚ) : ℚ := x.num.sign * divBits p x.num.natAbs x.den

@[simp] theorem roundRat_zero (p : Nat) : roundRat p 0 = 0 := by simp [roundRat]

theorem roundRat_pos_iff {p : Nat} (hp : 0 < p) {x : ℚ} : 0 < roundRat p x ↔ 0 < x := by
  have hnonneg := divBits_nonneg p x.num.natAbs x.den
  have hx : 0 < x ↔ 0 < x.num := Rat.num_pos.symm
  rw [hx]
  unfold roundRat
  rcases lt_trichotomy x.num 0 with hneg | hzero | hpos
  · rw [Int.sign_eq_neg_one_of_neg hneg]
    refine iff_of_false (fun h => ?_) (by omega)
    simp only [Int.reduceNeg, Int.cast_neg, Int.cast_one, neg_mul, one_mul] at h
    linarith
  · simp [hzero]
  · rw [Int.sign_eq_one_of_pos hpos, Int.cast_one, one_mul]
    exact iff_of_true (divBits_pos hp (by omega) x.den_pos) hpos

end Rounding
