import Mathlib.Algebra.Group.Nat.Defs
import Mathlib.Data.Nat.Size
/-!
# Narrow — division of numbers that were shifted down into a narrower word

`excess w n` is by how many bits `n` is longer than a word of `w` bits.  A quotient formed of shifted operands and shifted back
is the true one only under a condition on the bits that were lost; the conditions stand here in terms of the operands.
Nothing here names a program.
-/
namespace Narrow

def excess (w n : Nat) : Nat := n.size - w

variable {w n d s c : Nat}

theorem excess_le_iff : excess w n ≤ s ↔ n < 2 ^ (w + s) := by
  rw [excess, Nat.sub_le_iff_le_add', Nat.size_le]

/-- **A number fits once it is shifted by its excess or further.** -/
theorem div_lt_iff : n / 2 ^ s < 2 ^ w ↔ excess w n ≤ s := by
  rw [excess_le_iff, Nat.div_lt_iff_lt_mul (Nat.two_pow_pos s), pow_add]

theorem div_excess_lt (w n : Nat) : n / 2 ^ excess w n < 2 ^ w := div_lt_iff.2 (Nat.le_refl _)

theorem excess_eq_zero_iff : excess w n = 0 ↔ n < 2 ^ w := by
  rw [← Nat.le_zero, excess_le_iff, Nat.add_zero]

/-- **A number shifted by its excess fills the word**, if it is shifted at all. -/
theorem le_div_excess (h : 2 ^ (w + 1) ≤ n) : 2 ^ w ≤ n / 2 ^ excess (w + 1) n := by
  have hlong : w + 1 < n.size := Nat.lt_size.2 h
  rw [Nat.le_div_iff_mul_le (Nat.two_pow_pos _), ← pow_add, ← Nat.lt_size, excess]
  omega

theorem excess_half (h : 2 ^ w ≤ n) : excess w n = excess w (n / 2) + 1 := by
  have hpos : excess w n ≠ 0 := fun h0 => absurd (excess_eq_zero_iff.1 h0) (Nat.not_lt.2 h)
  have hiff : ∀ s, excess w (n / 2) ≤ s ↔ excess w n ≤ s + 1 := by
    intro s
    rw [← div_lt_iff, ← div_lt_iff, Nat.div_div_eq_div_mul, ← pow_succ']
  have hle := (hiff (excess w (n / 2))).1 (Nat.le_refl _)
  have hge := (hiff (excess w n - 1)).2 (by omega)
  omega

theorem excess_sub_excess (hd : 2 ^ w ≤ d) (h : d ≤ n) : excess w n - excess w d = n.size - d.size := by
  have hw : w < d.size := Nat.lt_size.2 hd
  have hsize : d.size ≤ n.size := Nat.size_le_size h
  rw [excess, excess]
  omega

theorem excess_mono (h : d ≤ n) : excess w d ≤ excess w n := Nat.sub_le_sub_right (Nat.size_le_size h) w

/-- The operands are shifted until both fit, the denominator as far as the numerator at most; `none` is a division by zero. -/
def quotient (w n d : Nat) : Option Nat :=
  let k := min (excess w n) (excess w d)
  if d / 2 ^ k % 2 ^ w = 0 then none
  else some (n / 2 ^ excess w n / (d / 2 ^ k % 2 ^ w) * 2 ^ (excess w n - k))

/-- **When the shifted quotient is the true one.** -/
def Exact (w n d : Nat) : Prop :=
  (d < 2 ^ w ∧ n % (d * 2 ^ excess w n) < d) ∨
  (2 ^ w ≤ d ∧ n < d ∧ n / 2 ^ excess w n < d / 2 ^ excess w n % 2 ^ w) ∨
  (2 ^ w ≤ d ∧ d ≤ n ∧ d * 2 ^ (n.size - d.size) ≤ n ∧ n < d * (2 ^ (n.size - d.size) + 1))

/-- **The numerator alone is shifted.** -/
theorem div_mul_eq_div_iff {k : Nat} (hd : 0 < d) : n / (d * k) * k = n / d ↔ n % (d * k) < d := by
  have hsplit : n / d = n / (d * k) * k + n % (d * k) / d := by
    rw [Nat.mod_mul_right_div_self, ← Nat.div_div_eq_div_mul, Nat.div_add_mod']
  rw [hsplit, eq_comm, Nat.add_eq_left, Nat.div_eq_zero_iff]
  omega

theorem quotient_of_lt (hd : d < 2 ^ w) : quotient w n d = some (n / d) ↔ n % (d * 2 ^ excess w n) < d := by
  have hk : min (excess w n) (excess w d) = 0 := by rw [excess_eq_zero_iff.2 hd, Nat.min_zero]
  rw [quotient]
  simp only [hk, pow_zero, Nat.div_one, Nat.mod_eq_of_lt hd, Nat.sub_zero]
  rcases Nat.eq_zero_or_pos d with rfl | hpos
  · simp
  · rw [if_neg (Nat.ne_of_gt hpos), Option.some_inj, Nat.div_div_eq_div_mul, Nat.mul_comm (2 ^ _), div_mul_eq_div_iff hpos]

/-- **A short denominator**: the quotient is rounded down to the places that the numerator keeps. -/
theorem quotient_of_short (h0 : 0 < d) (hd : d < 2 ^ w) :
    quotient w n d = some (n / d / 2 ^ excess w n * 2 ^ excess w n) := by
  have hk : min (excess w n) (excess w d) = 0 := by rw [excess_eq_zero_iff.2 hd, Nat.min_zero]
  have hcomm : n / 2 ^ excess w n / d = n / d / 2 ^ excess w n := by
    rw [Nat.div_div_eq_div_mul, Nat.div_div_eq_div_mul, Nat.mul_comm]
  rw [quotient]
  simp only [hk, pow_zero, Nat.div_one, Nat.mod_eq_of_lt hd, Nat.sub_zero]
  rw [if_neg (Nat.ne_of_gt h0), hcomm]

/-- **The denominator is the longer one, and too much of it is left.** -/
theorem quotient_of_gt (h : n < d) :
    quotient w n d = some (n / d) ↔ n / 2 ^ excess w n < d / 2 ^ excess w n % 2 ^ w := by
  have hk : min (excess w n) (excess w d) = excess w n := Nat.min_eq_left (excess_mono (Nat.le_of_lt h))
  rw [quotient]
  simp only [hk, Nat.sub_self, pow_zero, Nat.mul_one, Nat.div_eq_of_lt h]
  by_cases h0 : d / 2 ^ excess w n % 2 ^ w = 0
  · rw [if_pos h0, h0]
    simp
  · rw [if_neg h0, Option.some_inj, Nat.div_eq_zero_iff]
    omega

theorem div_lt_two {a b : Nat} (ha : a < 2 ^ (w + 1)) (hb : 2 ^ w ≤ b) : a / b < 2 := by
  have hpos : 0 < b := Nat.lt_of_lt_of_le (Nat.two_pow_pos w) hb
  rw [Nat.div_lt_iff_lt_mul hpos]
  rw [pow_succ'] at ha
  omega

/-- **Both operands fill the word**: the quotient is a power of two or 0. -/
theorem quotient_of_ge (hd : 2 ^ (w + 1) ≤ d) (h : d ≤ n) : quotient (w + 1) n d = some (n / d) ↔
    d * 2 ^ (n.size - d.size) ≤ n ∧ n < d * (2 ^ (n.size - d.size) + 1) := by
  have hk : min (excess (w + 1) n) (excess (w + 1) d) = excess (w + 1) d := Nat.min_eq_right (excess_mono h)
  have hdlt : d / 2 ^ excess (w + 1) d < 2 ^ (w + 1) := div_excess_lt (w + 1) d
  have hdge : 2 ^ w ≤ d / 2 ^ excess (w + 1) d := le_div_excess hd
  have hdpos : 0 < d := Nat.lt_of_lt_of_le (Nat.two_pow_pos _) hd
  rw [quotient]
  simp only [hk, Nat.mod_eq_of_lt hdlt, excess_sub_excess hd h]
  rw [if_neg (Nat.ne_of_gt (Nat.lt_of_lt_of_le (Nat.two_pow_pos w) hdge)), Option.some_inj]
  have hs : excess (w + 1) n = (n.size - d.size) + excess (w + 1) d := by
    have hmono := @excess_mono (w + 1) _ _ h
    have hsub := excess_sub_excess hd h
    omega
  -- the numerator's leading word is at least the denominator's exactly if `d * 2 ^ c` does not exceed `n`
  have hone : d * 2 ^ (n.size - d.size) ≤ n →
      1 ≤ n / 2 ^ excess (w + 1) n / (d / 2 ^ excess (w + 1) d) := by
    intro hle
    rw [Nat.one_le_div_iff (Nat.lt_of_lt_of_le (Nat.two_pow_pos w) hdge), hs, pow_add, ← Nat.div_div_eq_div_mul]
    exact Nat.div_le_div_right ((Nat.le_div_iff_mul_le (Nat.two_pow_pos _)).2 hle)
  have htwo := div_lt_two (div_excess_lt (w + 1) n) hdge
  have hquot : n / d = 2 ^ (n.size - d.size) ↔ d * 2 ^ (n.size - d.size) ≤ n ∧ n < d * (2 ^ (n.size - d.size) + 1) := by
    rw [Nat.div_eq_iff hdpos, Nat.mul_comm, Nat.mul_succ]
    omega
  have hge : 0 < n / d := Nat.div_pos h hdpos
  rcases Nat.lt_or_ge (n / 2 ^ excess (w + 1) n / (d / 2 ^ excess (w + 1) d)) 1 with h0 | h1
  · rw [Nat.lt_one_iff.1 h0, Nat.zero_mul]
    constructor
    · intro he
      exact absurd he (Nat.ne_of_lt hge)
    · intro he
      exact absurd (hone he.1) (Nat.not_le.2 h0)
  · rw [show n / 2 ^ excess (w + 1) n / (d / 2 ^ excess (w + 1) d) = 1 by omega, Nat.one_mul, eq_comm, hquot]

/-- **The shifted quotient is the true one exactly under that condition.** -/
theorem quotient_iff (hw : 0 < w) : quotient w n d = some (n / d) ↔ Exact w n d := by
  obtain ⟨v, rfl⟩ := Nat.exists_eq_add_of_lt hw
  rw [Nat.zero_add]
  rcases Nat.lt_or_ge d (2 ^ (v + 1)) with hd | hd
  · rw [quotient_of_lt hd, Exact]
    simp [hd, Nat.not_le.2 hd]
  · rcases Nat.lt_or_ge n d with h | h
    · rw [quotient_of_gt h, Exact]
      simp [hd, h, Nat.not_lt.2 hd, Nat.not_le.2 h]
    · rw [quotient_of_ge hd h, Exact]
      simp [hd, h, Nat.not_lt.2 hd, Nat.not_lt.2 h]

end Narrow
