import SmpBoot.Lib.Narrow
/-!
# Udivdi3 — the 64-bit division of the 32-bit kernel (`lib.c`)

The compiler calls `__udivdi3()` for every 64-bit division.  Both operands are shifted into 32 bits, divided there and the
quotient is shifted back.
-/
namespace SmpBoot

open Narrow (excess)

theorem toNat_half (n : BitVec 64) : (n >>> 1).toNat = n.toNat / 2 := by
  rw [BitVec.toNat_ushiftRight, Nat.shiftRight_eq_div_pow, pow_one]

theorem half_lt {n : BitVec 64} (h : n > 0xFFFFFFFF) : (n >>> 1).toNat < n.toNat := by
  have hlt : 0xFFFFFFFF < n.toNat := h
  rw [toNat_half]
  omega

/-- `while (n > 0xFFFFFFFFull) { n >>= 1; c++; }` -/
def shiftTo32 (n : BitVec 64) (c : BitVec 32) : BitVec 64 × BitVec 32 :=
  if n > 0xFFFFFFFF then shiftTo32 (n >>> 1) (c + 1) else (n, c)
termination_by n.toNat
decreasing_by
  rename_i h
  exact half_lt h

/-- `while (d > 0xFFFFFFFFull && c >= 1)` -/
def shiftDivisor (d : BitVec 64) (c : BitVec 32) : BitVec 64 × BitVec 32 :=
  if d > 0xFFFFFFFF ∧ c ≥ 1 then shiftDivisor (d >>> 1) (c - 1) else (d, c)
termination_by d.toNat
decreasing_by
  rename_i h
  exact half_lt h.1

/-- `__udivdi3()`; `none` is the exception of a division by zero. -/
def udivdi3 (n d : BitVec 64) : Option (BitVec 64) :=
  let sn := shiftTo32 n 0
  let n32 : BitVec 32 := (sn.1 &&& 0xFFFFFFFF).setWidth 32
  let sd := shiftDivisor d sn.2
  let d32 : BitVec 32 := (sd.1 &&& 0xFFFFFFFF).setWidth 32
  if d32 = 0 then none else some ((n32 / d32).setWidth 64 <<< sd.2)

/-! ## The two loops -/

theorem shiftTo32_eq (n : BitVec 64) (c : BitVec 32) :
    shiftTo32 n c = (n >>> excess 32 n.toNat, c + BitVec.ofNat 32 (excess 32 n.toNat)) := by
  fun_induction shiftTo32 n c with
  | case1 n c h ih =>
    have hlong : 2 ^ 32 ≤ n.toNat := h
    rw [ih, toNat_half, Narrow.excess_half hlong, ← BitVec.shiftRight_add, Nat.add_comm 1, BitVec.ofNat_add,
      BitVec.add_assoc, BitVec.add_comm 1]
    rfl
  | case2 n c h =>
    have hfits : n.toNat < 2 ^ 32 := Nat.lt_succ_of_le (Nat.not_lt.1 h)
    rw [Narrow.excess_eq_zero_iff.2 hfits]
    simp

theorem shiftDivisor_eq (d : BitVec 64) (c : BitVec 32) :
    (shiftDivisor d c).1 = d >>> min c.toNat (excess 32 d.toNat) ∧
    (shiftDivisor d c).2.toNat = c.toNat - min c.toNat (excess 32 d.toNat) := by
  fun_induction shiftDivisor d c with
  | case1 d c h ih =>
    have hlong : 2 ^ 32 ≤ d.toNat := h.1
    have hpos : 1 ≤ c.toNat := h.2
    have hc : (c - 1).toNat = c.toNat - 1 := BitVec.toNat_sub_of_le (BitVec.le_def.2 hpos)
    have hmin : min (c.toNat - 1) (excess 32 (d.toNat / 2)) + 1 = min c.toNat (excess 32 d.toNat) := by
      rw [Narrow.excess_half hlong]
      omega
    rw [ih.1, ih.2, toNat_half, hc, ← BitVec.shiftRight_add, Nat.add_comm 1, hmin]
    exact ⟨rfl, by omega⟩
  | case2 d c h =>
    have hstop : min c.toNat (excess 32 d.toNat) = 0 := by
      rcases Decidable.not_and_iff_not_or_not.1 h with hd | hc
      · have hfits : d.toNat < 2 ^ 32 := Nat.lt_succ_of_le (Nat.not_lt.1 hd)
        rw [Narrow.excess_eq_zero_iff.2 hfits, Nat.min_zero]
      · have hzero : c.toNat < 1 := Nat.not_le.1 hc
        rw [Nat.lt_one_iff.1 hzero, Nat.zero_min]
    rw [hstop]
    exact ⟨(BitVec.ushiftRight_zero d).symm, rfl⟩

/-! ## The quotient -/

theorem toNat_low32 (n : BitVec 64) : ((n &&& 0xFFFFFFFF).setWidth 32).toNat = n.toNat % 2 ^ 32 := by
  have hmask : (0xFFFFFFFF#64).toNat = 2 ^ 32 - 1 := rfl
  have hand : (n &&& 0xFFFFFFFF).toNat = n.toNat % 2 ^ 32 := by
    rw [BitVec.toNat_and, ← Nat.and_two_pow_sub_one_eq_mod]
    exact congrArg (n.toNat &&& ·) hmask
  rw [BitVec.toNat_setWidth, hand, Nat.mod_mod]

theorem excess_le (n : BitVec 64) : excess 32 n.toNat ≤ 32 := Narrow.excess_le_iff.2 n.isLt

theorem toNat_shiftTo32 (n : BitVec 64) : (shiftTo32 n 0).1.toNat = n.toNat / 2 ^ excess 32 n.toNat ∧
    (shiftTo32 n 0).2.toNat = excess 32 n.toNat := by
  have hle := excess_le n
  rw [shiftTo32_eq]
  constructor
  · rw [BitVec.toNat_ushiftRight, Nat.shiftRight_eq_div_pow]
  · simp only [BitVec.ofNat_eq_ofNat, BitVec.zero_add, BitVec.toNat_ofNat]
    exact Nat.mod_eq_of_lt (by omega)

theorem toNat_shiftBack (r c : BitVec 32) (h : c.toNat ≤ 32) :
    (r.setWidth 64 <<< c).toNat = r.toNat * 2 ^ c.toNat := by
  have hr : (r.setWidth 64).toNat = r.toNat := BitVec.toNat_setWidth_of_le (by decide)
  have hfits : r.toNat * 2 ^ c.toNat < 2 ^ 64 := calc
    r.toNat * 2 ^ c.toNat < 2 ^ 32 * 2 ^ c.toNat := (Nat.mul_lt_mul_right (Nat.two_pow_pos _)).2 r.isLt
    _ ≤ 2 ^ 32 * 2 ^ 32 := Nat.mul_le_mul_left _ (Nat.pow_le_pow_right (by decide) h)
  rw [BitVec.shiftLeft_eq', BitVec.toNat_shiftLeft, Nat.shiftLeft_eq, hr, Nat.mod_eq_of_lt hfits]

/-- **The code computes the shifted quotient.** -/
theorem udivdi3_eq (n d : BitVec 64) : (udivdi3 n d).map BitVec.toNat = Narrow.quotient 32 n.toNat d.toNat := by
  obtain ⟨hn, hc⟩ := toNat_shiftTo32 n
  have hn32 : (((shiftTo32 n 0).1 &&& 0xFFFFFFFF).setWidth 32).toNat = n.toNat / 2 ^ excess 32 n.toNat := by
    rw [toNat_low32, hn, Nat.mod_eq_of_lt (Narrow.div_excess_lt 32 _)]
  obtain ⟨hd, hback⟩ := shiftDivisor_eq d (shiftTo32 n 0).2
  rw [hc] at hd hback
  have hd32 : (((shiftDivisor d (shiftTo32 n 0).2).1 &&& 0xFFFFFFFF).setWidth 32).toNat =
      d.toNat / 2 ^ min (excess 32 n.toNat) (excess 32 d.toNat) % 2 ^ 32 := by
    rw [toNat_low32, hd, BitVec.toNat_ushiftRight, Nat.shiftRight_eq_div_pow]
  have hzero : ((shiftDivisor d (shiftTo32 n 0).2).1 &&& 0xFFFFFFFF).setWidth 32 = (0 : BitVec 32) ↔
      d.toNat / 2 ^ min (excess 32 n.toNat) (excess 32 d.toNat) % 2 ^ 32 = 0 := by
    rw [← hd32, ← BitVec.toNat_inj]
    rfl
  simp only [udivdi3, Narrow.quotient]
  by_cases h0 : d.toNat / 2 ^ min (excess 32 n.toNat) (excess 32 d.toNat) % 2 ^ 32 = 0
  · rw [if_pos h0, if_pos (hzero.2 h0)]
    rfl
  · have hle : (shiftDivisor d (shiftTo32 n 0).2).2.toNat ≤ 32 := by
      have := excess_le n
      omega
    rw [if_neg h0, if_neg fun he => h0 (hzero.1 he), Option.map_some, toNat_shiftBack _ _ hle, BitVec.toNat_udiv, hn32,
      hd32, hback]

/-- **The division is exact, without a division by zero, exactly under the condition on what the shifts lose.** -/
theorem udivdi3_exact_iff (n d : BitVec 64) :
    udivdi3 n d = some (n / d) ↔ Narrow.Exact 32 n.toNat d.toNat := by
  have hinj : Function.Injective (Option.map (BitVec.toNat (w := 64))) :=
    Option.map_injective fun _ _ => BitVec.eq_of_toNat_eq
  rw [← hinj.eq_iff, udivdi3_eq, Option.map_some, BitVec.toNat_udiv, Narrow.quotient_iff (by decide)]

/-- The low half of the denominator is zero, and there is nothing to shift; a numerator that is shifted loses its last bit. -/
theorem udivdi3_not_exact : udivdi3 1 0x100000000 = none ∧ udivdi3 0x100000001 1 = some 0x100000000 := by
  constructor
  · have hn : shiftTo32 1 0 = (1, 0) := by rw [shiftTo32, if_neg (by decide)]
    have hd : shiftDivisor 0x100000000 0 = (0x100000000, 0) := by rw [shiftDivisor, if_neg (by decide)]
    rw [udivdi3, hn, hd]
    rfl
  · have hn : shiftTo32 0x100000001 0 = (0x80000000, 1) := by
      rw [shiftTo32, if_pos (by decide), shiftTo32, if_neg (by decide)]
      rfl
    have hd : shiftDivisor 1 1 = (1, 1) := by rw [shiftDivisor, if_neg (by decide)]
    rw [udivdi3, hn, hd]
    rfl

end SmpBoot
