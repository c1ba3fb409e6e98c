import Mathlib.Algebra.Group.Nat.Defs
/-!
# Config — the two builds, the constants of `config.h` and `system.h`, the bit macros of `lib.h`

The kernel is compiled twice, with `-m32` and with `-m64`; what differs is gathered in `Build`.
-/
namespace SmpBoot

inductive Build where
  | b32
  | b64
  deriving DecidableEq

/-- `INDEX_BITS`: index bits of one table level. -/
def Build.indexBits : Build → Nat
  | .b32 => 10
  | .b64 => 9

def Build.longBits : Build → Nat
  | .b32 => 32
  | .b64 => 64

theorem longBits_ge (b : Build) : 32 ≤ b.longBits := by cases b <;> decide

theorem longBits_le (b : Build) : b.longBits ≤ 64 := by cases b <;> decide

/-- The width of the `frame` field of a table entry (`mm_struct.h`). -/
def Build.frameBits : Build → Nat
  | .b32 => 20
  | .b64 => 40

def Build.levels : Build → Nat
  | .b32 => 2
  | .b64 => 4

def Build.entries (b : Build) : Nat := 2 ^ b.indexBits

abbrev Unsigned := BitVec 32

def maxCpu : Nat := 16

theorem maxCpu_pos : 0 < maxCpu := by decide
def maxIoapic : Nat := 1
def maxPcie : Nat := 1
def maxCache : Nat := 4

def tscPerUsec : Nat := 2666

def pageBits : Nat := 12
def pageSize : Nat := 2 ^ pageBits
def maxMem : Nat := 2 * 1024 * 1024 * 1024

/-- `MAX_MEM / PAGE_SIZE`. -/
def maxFrames : Nat := maxMem / pageSize

theorem maxFrames_eq : maxFrames = 0x80000 := rfl

/-! ## The bit macros of `lib.h`

They shift the `int` constant 1: the count is taken modulo 32 as on x86, and the result is sign-extended to the type
of the variable. -/

def bitMask (w bit : Nat) : BitVec w := ((1#32) <<< (bit % 32)).signExtend w

def bitSet {w : Nat} (var : BitVec w) (bit : Nat) : BitVec w := var ||| bitMask w bit
def bitClear {w : Nat} (var : BitVec w) (bit : Nat) : BitVec w := var &&& ~~~bitMask w bit
def isBitSet {w : Nat} (var : BitVec w) (bit : Nat) : Bool := var &&& bitMask w bit != 0
def isBitClear {w : Nat} (var : BitVec w) (bit : Nat) : Bool := var &&& bitMask w bit == 0

def maskSet {w : Nat} (var mask : BitVec w) : BitVec w := var ||| mask
def maskClear {w : Nat} (var mask : BitVec w) : BitVec w := var &&& ~~~mask
def isMaskSet {w : Nat} (var mask : BitVec w) : Bool := var &&& mask != 0
def isMaskClear {w : Nat} (var mask : BitVec w) : Bool := var &&& mask == 0

/-- `MASK(n)`: `n` ones. -/
def mask (n : Nat) : Unsigned := (1#32 <<< n) - 1

/-- `BITS_FROM_CNT(reg, lo, cnt)`. -/
def bitsFromCnt (reg : Unsigned) (lo cnt : Nat) : Unsigned := (reg >>> lo) &&& mask cnt

/-- `BITS_FROM_TO(reg, lo, hi)`. -/
def bitsFromTo (reg : Unsigned) (lo hi : Nat) : Unsigned := bitsFromCnt reg lo (hi - lo + 1)

theorem toNat_mask {n : Nat} (h : n < 32) : (mask n).toNat = 2 ^ n - 1 := by
  have hlt : 2 ^ n < 2 ^ 32 := Nat.pow_lt_pow_right (by decide) h
  have hpos : 0 < 2 ^ n := Nat.two_pow_pos n
  have hshift : (1#32 <<< n).toNat = 2 ^ n := by
    rw [BitVec.toNat_shiftLeft, Nat.shiftLeft_eq]
    exact (congrArg (· % 2 ^ 32) (Nat.one_mul _)).trans (Nat.mod_eq_of_lt hlt)
  rw [mask, BitVec.toNat_sub_of_le (BitVec.le_def.2 (by rw [hshift]; exact hpos)), hshift]
  rfl

theorem toNat_bitsFromCnt (reg : Unsigned) (lo : Nat) {cnt : Nat} (h : cnt < 32) :
    (bitsFromCnt reg lo cnt).toNat = reg.toNat / 2 ^ lo % 2 ^ cnt := by
  rw [bitsFromCnt, BitVec.toNat_and, BitVec.toNat_ushiftRight, Nat.shiftRight_eq_div_pow, toNat_mask h,
    Nat.and_two_pow_sub_one_eq_mod]

theorem toNat_bitsFromCnt_lt (reg : Unsigned) (lo cnt : Nat) (h : cnt < 32) :
    (bitsFromCnt reg lo cnt).toNat < 2 ^ cnt := by
  rw [toNat_bitsFromCnt reg lo h]
  exact Nat.mod_lt _ (Nat.two_pow_pos cnt)

theorem getLsbD_bitMask (w bit k : Nat) : (bitMask w bit).getLsbD k =
    (decide (k < w) && if k < 32 then decide (k = bit % 32) else decide (bit % 32 = 31)) := by
  have hone : ∀ j, ((1#32) <<< (bit % 32)).getLsbD j = decide (j = bit % 32) := by
    intro j
    have hb := Nat.mod_lt bit (show 0 < 32 by decide)
    have h := BitVec.getLsbD_twoPow (w := 32) (bit % 32) j
    rw [BitVec.twoPow] at h
    rw [h, decide_eq_true hb, Bool.true_and]
    exact decide_eq_decide.2 eq_comm
  unfold bitMask
  rw [BitVec.getLsbD_signExtend, BitVec.msb_eq_getLsbD_last, hone, hone]
  by_cases h : k < 32
  · simp [h]
  · have h31 : (31 = bit % 32) = (bit % 32 = 31) := propext eq_comm
    simp [h, h31]

/-- Two masks are the same or disjoint. -/
theorem bitMask_and {w i j : Nat} (h : i % 32 ≠ j % 32) : bitMask w i &&& bitMask w j = 0#w := by
  apply BitVec.eq_of_getLsbD_eq
  intro k _
  rw [BitVec.getLsbD_and, getLsbD_bitMask, getLsbD_bitMask, BitVec.getLsbD_zero]
  split
  · by_cases hi : k = i % 32
    · have hj : k ≠ j % 32 := fun hj => h (hi ▸ hj)
      simp [hj]
    · simp [hi]
  · by_cases hi : i % 32 = 31
    · have hj : j % 32 ≠ 31 := fun hj => h (hi.trans hj.symm)
      simp [hj]
    · simp [hi]

theorem bitMask_congr {w i j : Nat} (h : i % 32 = j % 32) : bitMask w i = bitMask w j := by
  unfold bitMask; rw [h]

theorem bitMask_ne_zero {w : Nat} (hw : 32 ≤ w) (i : Nat) : bitMask w i ≠ 0#w := by
  intro h
  have hi := Nat.mod_lt i (show 0 < 32 by decide)
  have hbit : (bitMask w i).getLsbD (i % 32) = true := by
    rw [getLsbD_bitMask, if_pos hi]
    simp
    omega
  rw [h, BitVec.getLsbD_zero] at hbit
  cases hbit

theorem isBitSet_bitSet {w : Nat} (hw : 32 ≤ w) (v : BitVec w) (i j : Nat) :
    isBitSet (bitSet v i) j = (decide (i % 32 = j % 32) || isBitSet v j) := by
  unfold isBitSet bitSet
  have hdist : (v ||| bitMask w i) &&& bitMask w j = (v &&& bitMask w j) ||| (bitMask w i &&& bitMask w j) := by
    ext k
    simp [Bool.and_or_distrib_right]
  rw [hdist]
  by_cases h : i % 32 = j % 32
  · have hall : (v &&& bitMask w j) ||| bitMask w j = bitMask w j := by
      ext k
      simp
    have hne := bitMask_ne_zero hw j
    rw [bitMask_congr h, BitVec.and_self, hall]
    simp [h, hne]
  · rw [bitMask_and h, BitVec.or_zero]
    simp [h]

theorem isBitSet_bitClear {w : Nat} (v : BitVec w) (i j : Nat) :
    isBitSet (bitClear v i) j = (!decide (i % 32 = j % 32) && isBitSet v j) := by
  unfold isBitSet bitClear
  by_cases h : i % 32 = j % 32
  · rw [bitMask_congr h, BitVec.and_assoc, BitVec.not_and_self]
    simp [h]
  · have hkeep : ~~~bitMask w i &&& bitMask w j = bitMask w j := by
      apply BitVec.eq_of_getLsbD_eq
      intro k hk
      have hz := congrArg (fun x => BitVec.getLsbD x k) (bitMask_and (w := w) h)
      simp only [BitVec.getLsbD_and, BitVec.getLsbD_zero] at hz
      rw [BitVec.getLsbD_and, BitVec.getLsbD_not]
      cases hm : (bitMask w i).getLsbD k <;> simp_all
    rw [BitVec.and_assoc, hkeep]
    simp [h]

theorem isBitClear_eq {w : Nat} (v : BitVec w) (i : Nat) : isBitClear v i = !isBitSet v i := by
  unfold isBitClear isBitSet
  simp [bne]

theorem isBitClear_bitClear {w : Nat} (var : BitVec w) (bit : Nat) : isBitClear (bitClear var bit) bit = true := by
  unfold isBitClear bitClear
  rw [BitVec.and_assoc, BitVec.not_and_self]
  simp

theorem isBitClear_bitClear_of {w : Nat} {var : BitVec w} {bit : Nat} (h : isBitClear var bit = true) (bit' : Nat) :
    isBitClear (bitClear var bit') bit = true := by
  unfold isBitClear bitClear at *
  rw [BitVec.and_assoc, BitVec.and_comm (~~~bitMask w bit'), ← BitVec.and_assoc, beq_iff_eq.1 h]
  simp

end SmpBoot
