import Mathlib.Algebra.BigOperators.Intervals
import Mathlib.Algebra.Order.BigOperators.Group.Finset
import Mathlib.Algebra.Order.Interval.Set.SuccPred
import Mathlib.Order.Monotone.Basic
import SmpBoot.Config
import SmpBoot.Udivdi3
/-!
# Tsc — the loops over `rdtsc()`: `udelay()` of `time.c`, `hourglass()` and `worker()` of `benchmark.c`

`r` gives what the successive calls of `rdtsc()` return; the counter does not go back (`Forward`).
-/
namespace SmpBoot

open Narrow (excess)

def Forward (r : Nat → BitVec 64) : Prop := ∀ i, (r i).toNat ≤ (r (i + 1)).toNat

theorem Forward.le {r : Nat → BitVec 64} (h : Forward r) {i j : Nat} (hij : i ≤ j) : (r i).toNat ≤ (r j).toNat :=
  monotone_nat_of_le_succ h hij

/-! ## `udelay()` -/

/-- The loop, from the reading `k` on: the last reading. -/
def delayLoop (r : Nat → BitVec 64) (tscEnd : BitVec 64) : Nat → Nat → Option Nat
  | 0,        _ => none
  | fuel + 1, k => if r k < tscEnd then delayLoop r tscEnd fuel (k + 1) else some k

/-- `tsc_end`: the product is an `unsigned long`. -/
def delayEnd (b : Build) (us : BitVec b.longBits) (tscPerUsec : Unsigned) (now : BitVec 64) : BitVec 64 :=
  now + (us * tscPerUsec.setWidth b.longBits).setWidth 64

def udelay (b : Build) (us : BitVec b.longBits) (tscPerUsec : Unsigned) (r : Nat → BitVec 64) (fuel : Nat) : Option Nat :=
  delayLoop r (delayEnd b us tscPerUsec (r 0)) fuel 0

theorem delayLoop_last {r : Nat → BitVec 64} {tscEnd : BitVec 64} : ∀ {fuel k n : Nat}, delayLoop r tscEnd fuel k = some n →
    tscEnd.toNat ≤ (r n).toNat
  | 0,        _, _, h => by cases h
  | fuel + 1, k, n, h => by
    rw [delayLoop] at h
    split at h
    · exact delayLoop_last h
    · rename_i hge
      obtain rfl := Option.some.inj h
      exact Nat.le_of_not_lt hge

theorem toNat_delayEnd (b : Build) (us : BitVec b.longBits) (tscPerUsec : Unsigned) {now : BitVec 64}
    (h : now.toNat + us.toNat * tscPerUsec.toNat < 2 ^ 64) :
    (delayEnd b us tscPerUsec now).toNat = now.toNat + us.toNat * tscPerUsec.toNat % 2 ^ b.longBits := by
  have htsc : (tscPerUsec.setWidth b.longBits).toNat = tscPerUsec.toNat :=
    BitVec.toNat_setWidth_of_le (longBits_ge b)
  have hle : us.toNat * tscPerUsec.toNat % 2 ^ b.longBits ≤ us.toNat * tscPerUsec.toNat := Nat.mod_le _ _
  rw [delayEnd, BitVec.toNat_add, BitVec.toNat_setWidth_of_le (longBits_le b), BitVec.toNat_mul, htsc]
  exact Nat.mod_eq_of_lt (by omega)

/-- A counter that is read once and has come to `e` when it is read again. -/
def jumpTo (first e : BitVec 64) (i : Nat) : BitVec 64 := if i = 0 then first else e

theorem jumpTo_forward {first e : BitVec 64} (h : first.toNat ≤ e.toNat) : Forward (jumpTo first e)
  | 0     => h
  | _ + 1 => Nat.le_refl _

theorem delayLoop_jumpTo {first e : BitVec 64} (h : first.toNat ≤ e.toNat) :
    ∃ n, delayLoop (jumpTo first e) e 2 0 = some n ∧ jumpTo first e n = e := by
  by_cases hlt : first < e
  · exact ⟨1, (if_pos hlt).trans (if_neg (Nat.lt_irrefl e.toNat)), rfl⟩
  · have hle : e.toNat ≤ first.toNat := Nat.le_of_not_lt hlt
    exact ⟨0, if_neg hlt, BitVec.eq_of_toNat_eq (Nat.le_antisymm h hle)⟩

/-- **The delay is as long as asked for, whatever the counter reads, exactly if the product fits an `unsigned long`.** -/
theorem udelay_iff (b : Build) (us : BitVec b.longBits) (tscPerUsec : Unsigned) (first : BitVec 64)
    (h : first.toNat + us.toNat * tscPerUsec.toNat < 2 ^ 64) :
    (∀ r : Nat → BitVec 64, Forward r → r 0 = first → ∀ fuel n, udelay b us tscPerUsec r fuel = some n →
      us.toNat * tscPerUsec.toNat ≤ (r n).toNat - first.toNat) ↔
    (b = .b64 ∨ us.toNat * tscPerUsec.toNat < 2 ^ 32) := by
  have hend := toNat_delayEnd b us tscPerUsec h
  constructor
  · intro hall
    by_contra hno
    obtain ⟨hb, hbig⟩ := not_or.1 hno
    have h32 : b = .b32 := by
      cases b with
      | b32 => rfl
      | b64 => exact absurd rfl hb
    have hafter : first.toNat ≤ (delayEnd b us tscPerUsec first).toNat := by
      rw [hend]
      exact Nat.le_add_right _ _
    obtain ⟨n, hrun, hn⟩ := delayLoop_jumpTo hafter
    have hlong := hall (jumpTo first (delayEnd b us tscPerUsec first)) (jumpTo_forward hafter) rfl 2 n hrun
    have hbits : 2 ^ b.longBits = 2 ^ 32 := by rw [h32]; rfl
    have hlow : us.toNat * tscPerUsec.toNat % 2 ^ b.longBits < 2 ^ 32 := by
      rw [hbits]
      exact Nat.mod_lt _ (by decide)
    rw [hn, hend] at hlong
    omega
  · rintro hfits r - rfl fuel n hrun
    have hexact : us.toNat * tscPerUsec.toNat % 2 ^ b.longBits = us.toNat * tscPerUsec.toNat := by
      rcases hfits with rfl | hlt
      · exact Nat.mod_eq_of_lt (Nat.lt_of_le_of_lt (Nat.le_add_left _ _) h)
      · exact Nat.mod_eq_of_lt (Nat.lt_of_lt_of_le hlt (Nat.pow_le_pow_right (by decide) (longBits_ge b)))
    have hlast := delayLoop_last hrun
    rw [hend, hexact] at hlast
    omega

theorem udelay_iff_second : (∀ r : Nat → BitVec 64, Forward r → r 0 = 7 → ∀ fuel n,
      udelay .b32 (1000000 : BitVec 32) 2666 r fuel = some n →
      (1000000 : BitVec 32).toNat * (2666 : Unsigned).toNat ≤ (r n).toNat - (7 : BitVec 64).toNat) ↔
    (Build.b32 = .b64 ∨ (1000000 : BitVec 32).toNat * (2666 : Unsigned).toNat < 2 ^ 32) :=
  udelay_iff .b32 (1000000 : BitVec 32) 2666 7 (by decide)

/-- Five seconds at 2666 MHz in the 32-bit build are over after 445098112 ticks instead of 13330000000. -/
theorem udelay_short : udelay .b32 (5000000 : BitVec 32) 2666 (jumpTo 0 445098112) 2 = some 1 ∧
    (jumpTo 0 445098112 1).toNat - (jumpTo 0 445098112 0).toNat < 5000000 * 2666 := by
  decide

/-! ## `hourglass()` and `worker()` -/

/-- `tsc`, `min`, `max` and `cnt`. -/
structure Gaps where
  tsc : BitVec 64
  min : BitVec 64
  max : BitVec 64
  cnt : BitVec 64

def Gaps.start (tsc min : BitVec 64) : Gaps := ⟨tsc, min, 0, 0⟩

/-- One round of the loop; the sum that the warm-up makes is not used. -/
def Gaps.read (g : Gaps) (tsc : BitVec 64) : Gaps :=
  let diff := tsc - g.tsc
  ⟨tsc, if diff < g.min then diff else g.min, if diff > g.max then diff else g.max, g.cnt + 1⟩

/-- `while (tsc < tsc_end)`; `k` is the next reading. -/
def gapLoop (r : Nat → BitVec 64) (tscEnd : BitVec 64) : Nat → Nat → Gaps → Option (Gaps × Nat)
  | 0,        _, _ => none
  | fuel + 1, k, g => if g.tsc < tscEnd then gapLoop r tscEnd fuel (k + 1) (g.read (r k)) else some (g, k)

/-- `sec * 1000000ull * hw_info.tsc_per_usec` -/
def secTicks (sec tscPerUsec : Unsigned) : BitVec 64 := sec.setWidth 64 * 1000000 * tscPerUsec.setWidth 64

/-- A division of the type `uint64_t`; `none` is the exception of a division by zero. -/
def divide64 : Build → BitVec 64 → BitVec 64 → Option (BitVec 64)
  | .b32, n, d => udivdi3 n d
  | .b64, n, d => if d = 0 then none else some (n / d)

/-- `avg` of `hourglass()`: `(unsigned long)avg / (unsigned long)cnt`, between the two shifts of the 32-bit build. -/
def hourglassAvg : Build → BitVec 64 → BitVec 64 → Option (BitVec 64)
  | .b32, sum, cnt =>
    let shifted := shiftTo32 sum 0
    if cnt.setWidth 32 = (0 : BitVec 32) then none
    else some ((shifted.1.setWidth 32 / cnt.setWidth 32 : BitVec 32).setWidth 64 <<< shifted.2)
  | .b64, sum, cnt => if cnt = 0 then none else some (sum / cnt)

/-- What is there before it is printed. -/
structure Report where
  tscStart : BitVec 64
  tscEnd   : BitVec 64
  gaps     : Gaps
  avg      : Option (BitVec 64)
  /-- How often the loop went round. -/
  rounds   : Nat

def Report.sum (report : Report) : BitVec 64 := report.gaps.tsc - report.tscStart

def hourglass (b : Build) (sec tscPerUsec : Unsigned) (r : Nat → BitVec 64) (fuel : Nat) : Option Report := do
  let (_, k) ← gapLoop r (r 0 + secTicks 1 tscPerUsec) fuel 1 (.start (r 0) 0xFFFFFFFF)
  let tscEnd := r k + secTicks sec tscPerUsec
  let (gaps, next) ← gapLoop r tscEnd fuel (k + 1) (.start (r k) 0xFFFFFFFF)
  some ⟨r k, tscEnd, gaps, hourglassAvg b (gaps.tsc - r k) gaps.cnt, next - (k + 1)⟩

/-- `worker()`, without its accesses to the buffer. -/
def worker (b : Build) (sec tscPerUsec : Unsigned) (r : Nat → BitVec 64) (fuel : Nat) : Option Report := do
  let tscEnd := r 0 + secTicks sec tscPerUsec
  let (gaps, next) ← gapLoop r tscEnd fuel 1 (.start (r 0) 0xFFFFFFFFFFFFFFFF)
  some ⟨r 0, tscEnd, gaps, divide64 b (gaps.tsc - r 0) gaps.cnt, next - 1⟩

/-! ### The gaps -/

/-- From the reading `i` to the next one. -/
def gap (r : Nat → BitVec 64) (i : Nat) : Nat := (r (i + 1)).toNat - (r i).toNat

/-- The `n` gaps from the reading `s` on. -/
def gaps (r : Nat → BitVec 64) (s n : Nat) : Set Nat := Set.image (gap r) (Set.Ico s (s + n))

theorem gaps_zero (r : Nat → BitVec 64) (s : Nat) : gaps r s 0 = ∅ := by
  rw [gaps, Nat.add_zero, Set.Ico_self, Set.image_empty]

theorem gaps_succ (r : Nat → BitVec 64) (s n : Nat) : gaps r s (n + 1) = insert (gap r (s + n)) (gaps r s n) := by
  rw [gaps, ← Nat.add_assoc, ← Set.insert_Ico_right_eq_Ico_add_one (Nat.le_add_right s n), Set.image_insert_eq, gaps]

/-- **The gaps add up to what the counter has moved.** -/
theorem sum_gap {r : Nat → BitVec 64} (hr : Forward r) (s n : Nat) :
    ∑ i ∈ Finset.range n, gap r (s + i) = (r (s + n)).toNat - (r s).toNat :=
  Finset.sum_range_tsub (f := fun i => (r (s + i)).toNat) (fun _ _ h => hr.le (Nat.add_le_add_left h s)) n

theorem gap_mem {r : Nat → BitVec 64} {s n i : Nat} (h : i ∈ Finset.range n) : gap r (s + i) ∈ gaps r s n := by
  have hi := Finset.mem_range.1 h
  exact Set.mem_image_of_mem _ ⟨Nat.le_add_right s i, Nat.add_lt_add_left hi s⟩

/-- **`n` rounds from the reading `s` on are measured**: the least gap, or `cap` if that is smaller, and the greatest. -/
structure Gaps.Measures (g : Gaps) (r : Nat → BitVec 64) (cap s n : Nat) : Prop where
  tsc : g.tsc = r (s + n)
  cnt : g.cnt = BitVec.ofNat 64 n
  min : IsLeast (insert cap (gaps r s n)) g.min.toNat
  max : IsGreatest (insert 0 (gaps r s n)) g.max.toNat

theorem Gaps.Measures.start (r : Nat → BitVec 64) (min : BitVec 64) (s : Nat) :
    (Gaps.start (r s) min).Measures r min.toNat s 0 where
  tsc := rfl
  cnt := rfl
  min := by
    rw [gaps_zero, insert_empty_eq]
    exact isLeast_singleton
  max := by
    rw [gaps_zero, insert_empty_eq]
    exact isGreatest_singleton

theorem toNat_least (x y : BitVec 64) : (if x < y then x else y).toNat = min x.toNat y.toNat := by
  split <;> rename_i h <;> rw [BitVec.lt_def] at h <;> omega

theorem toNat_greatest (x y : BitVec 64) : (if x > y then x else y).toNat = max x.toNat y.toNat := by
  split <;> rename_i h <;> rw [gt_iff_lt, BitVec.lt_def] at h <;> omega

theorem Gaps.Measures.read {r : Nat → BitVec 64} (hr : Forward r) {g : Gaps} {cap s n : Nat} (h : g.Measures r cap s n) :
    (g.read (r (s + n + 1))).Measures r cap s (n + 1) := by
  have hdiff : (r (s + n + 1) - g.tsc).toNat = gap r (s + n) := by
    rw [h.tsc, BitVec.toNat_sub_of_le (BitVec.le_def.2 (hr (s + n)))]
    rfl
  constructor
  · rfl
  · show g.cnt + 1 = _
    rw [h.cnt, BitVec.ofNat_add]
    rfl
  · show IsLeast _ (if _ then _ else _ : BitVec 64).toNat
    rw [toNat_least, hdiff, gaps_succ, Set.insert_comm]
    exact h.min.insert _
  · show IsGreatest _ (if _ then _ else _ : BitVec 64).toNat
    rw [toNat_greatest, hdiff, gaps_succ, Set.insert_comm]
    exact h.max.insert _

theorem gapLoop_measures {r : Nat → BitVec 64} (hr : Forward r) {tscEnd : BitVec 64} {cap s : Nat} :
    ∀ {fuel n : Nat} {g : Gaps} {res : Gaps × Nat}, g.Measures r cap s n → gapLoop r tscEnd fuel (s + n + 1) g = some res →
      ∃ m, res.2 = s + m + 1 ∧ res.1.Measures r cap s m ∧ ¬ r (s + m) < tscEnd
  | 0,        _, _, _,   _, h => by cases h
  | fuel + 1, n, g, res, hg, h => by
    rw [gapLoop] at h
    split at h
    · exact gapLoop_measures hr (hg.read hr) h
    · rename_i hge
      obtain rfl := Option.some.inj h
      rw [hg.tsc] at hge
      exact ⟨n, rfl, hg, hge⟩

/-- **The mean lies between the least and the greatest gap.** -/
theorem Gaps.Measures.mean {r : Nat → BitVec 64} (hr : Forward r) {g : Gaps} {cap s n : Nat} (h : g.Measures r cap s n)
    (hn : 0 < n) : g.min.toNat ≤ (g.tsc - r s).toNat / n ∧ (g.tsc - r s).toNat / n ≤ g.max.toNat := by
  have hsum : (g.tsc - r s).toNat = ∑ i ∈ Finset.range n, gap r (s + i) := by
    rw [sum_gap hr, h.tsc, BitVec.toNat_sub_of_le (BitVec.le_def.2 (hr.le (Nat.le_add_right s n)))]
  rw [hsum]
  constructor
  · rw [Nat.le_div_iff_mul_le hn]
    have hall := Finset.card_nsmul_le_sum (Finset.range n) (fun i => gap r (s + i)) g.min.toNat
      fun i hi => h.min.2 (Set.mem_insert_of_mem _ (gap_mem hi))
    rwa [Finset.card_range, Nat.nsmul_eq_mul, Nat.mul_comm] at hall
  · have hall := Finset.sum_le_card_nsmul (Finset.range n) (fun i => gap r (s + i)) g.max.toNat
      fun i hi => h.max.2 (Set.mem_insert_of_mem _ (gap_mem hi))
    rw [Finset.card_range, Nat.nsmul_eq_mul] at hall
    exact Nat.div_le_of_le_mul hall

/-! ### The average -/

/-- By how many bits the sum is longer than an `unsigned long` of the 32-bit build, where these bits are shifted out. -/
def shiftedOut : Build → BitVec 64 → Nat
  | .b32, sum => excess 32 sum.toNat
  | .b64, _   => 0

/-- **An average is the mean, rounded down to what the shift leaves of it.** -/
def RoundedMean (b : Build) (sum : BitVec 64) (n : Nat) (avg : Option (BitVec 64)) : Prop :=
  avg.map BitVec.toNat = some (sum.toNat / n / 2 ^ shiftedOut b sum * 2 ^ shiftedOut b sum)

theorem toNat_ofNat64 {b : Build} {n : Nat} (h : n < 2 ^ b.longBits) : (BitVec.ofNat 64 n).toNat = n := by
  rw [BitVec.toNat_ofNat, Nat.mod_eq_of_lt (Nat.lt_of_lt_of_le h (Nat.pow_le_pow_right (by decide) (longBits_le b)))]

theorem ne_zero_of_toNat {w n : Nat} {x : BitVec w} (hx : x.toNat = n) (h0 : 0 < n) : x ≠ 0 := by
  rintro rfl
  exact absurd hx (Nat.ne_of_lt h0)

theorem divide_wide {sum : BitVec 64} {n : Nat} (h0 : 0 < n) (h : n < 2 ^ 64) :
    RoundedMean .b64 sum n (if BitVec.ofNat 64 n = 0 then none else some (sum / BitVec.ofNat 64 n)) := by
  have hn : (BitVec.ofNat 64 n).toNat = n := @toNat_ofNat64 .b64 n h
  rw [if_neg (ne_zero_of_toNat hn h0), RoundedMean, Option.map_some, BitVec.toNat_udiv, hn]
  simp [shiftedOut]

theorem divide64_mean {b : Build} {sum : BitVec 64} {n : Nat} (h0 : 0 < n) (h : n < 2 ^ b.longBits) :
    RoundedMean b sum n (divide64 b sum (BitVec.ofNat 64 n)) := by
  cases b with
  | b32 =>
    have hn : n < 2 ^ 32 := h
    rw [RoundedMean, divide64, udivdi3_eq, @toNat_ofNat64 .b32 n h, Narrow.quotient_of_short h0 hn, shiftedOut]
  | b64 => exact divide_wide h0 h

theorem hourglassAvg_mean {b : Build} {sum : BitVec 64} {n : Nat} (h0 : 0 < n) (h : n < 2 ^ b.longBits) :
    RoundedMean b sum n (hourglassAvg b sum (BitVec.ofNat 64 n)) := by
  cases b with
  | b32 =>
    have hn : n < 2 ^ 32 := h
    obtain ⟨hsum, hshift⟩ := toNat_shiftTo32 sum
    have hle := excess_le sum
    have hcnt : ((BitVec.ofNat 64 n).setWidth 32 : BitVec 32).toNat = n := by
      rw [BitVec.toNat_setWidth, @toNat_ofNat64 .b32 n h, Nat.mod_eq_of_lt hn]
    have hlow : ((shiftTo32 sum 0).1.setWidth 32 : BitVec 32).toNat = sum.toNat / 2 ^ excess 32 sum.toNat := by
      rw [BitVec.toNat_setWidth, hsum, Nat.mod_eq_of_lt (Narrow.div_excess_lt 32 _)]
    simp only [RoundedMean, hourglassAvg, shiftedOut]
    rw [if_neg (ne_zero_of_toNat hcnt h0), Option.map_some, toNat_shiftBack _ _ (hshift ▸ hle), BitVec.toNat_udiv,
      hlow, hcnt, hshift,
      Nat.div_div_eq_div_mul, Nat.div_div_eq_div_mul, Nat.mul_comm (2 ^ _)]
  | b64 => exact divide_wide h0 h

/-! ### What is printed -/

/-- **The least gap (`cap` at most), the greatest, and an average between the two**, but for what the shift loses of the least. -/
structure Report.Measured (report : Report) (b : Build) (r : Nat → BitVec 64) (cap : Nat) : Prop where
  gaps : ∃ s, report.tscStart = r s ∧ report.gaps.Measures r cap s report.rounds
  avg  : ∃ avg, report.avg = some avg ∧ avg.toNat ≤ report.gaps.max.toNat ∧
    report.gaps.min.toNat / 2 ^ shiftedOut b report.sum * 2 ^ shiftedOut b report.sum ≤ avg.toNat

theorem measured_of_loop {b : Build} {r : Nat → BitVec 64} (hr : Forward r) {tscEnd min : BitVec 64} {fuel s : Nat}
    {res : Gaps × Nat} {divide : BitVec 64 → BitVec 64 → Option (BitVec 64)}
    (hmean : ∀ sum n, 0 < n → n < 2 ^ b.longBits → RoundedMean b sum n (divide sum (BitVec.ofNat 64 n)))
    (hrun : gapLoop r tscEnd fuel (s + 1) (.start (r s) min) = some res) (hin : r s < tscEnd)
    (hrounds : res.2 - (s + 1) < 2 ^ b.longBits) :
    Report.Measured ⟨r s, tscEnd, res.1, divide (res.1.tsc - r s) res.1.cnt, res.2 - (s + 1)⟩ b r min.toNat := by
  obtain ⟨n, hnext, hg, hout⟩ := gapLoop_measures hr (.start r min s) hrun
  have hrounds' : res.2 - (s + 1) = n := by omega
  have hpos : 0 < n := by
    rcases Nat.eq_zero_or_pos n with rfl | hpos
    · exact absurd hin hout
    · exact hpos
  rw [hrounds'] at hrounds ⊢
  refine ⟨⟨s, rfl, hg⟩, ?_⟩
  have havg := hmean (res.1.tsc - r s) n hpos hrounds
  obtain ⟨hleast, hmost⟩ := hg.mean hr hpos
  rw [← hg.cnt] at havg
  obtain ⟨avg, hsome, hval⟩ := Option.map_eq_some_iff.1 havg
  refine ⟨avg, hsome, ?_, ?_⟩
  · rw [hval]
    exact (Nat.div_mul_le_self _ _).trans hmost
  · rw [hval]
    exact Nat.mul_le_mul_right _ (Nat.div_le_div_right hleast)

theorem hourglass_of_loops {b : Build} {sec tscPerUsec : Unsigned} {r : Nat → BitVec 64} {fuel k : Nat} {warm : Gaps}
    {res : Gaps × Nat}
    (hwarm : gapLoop r (r 0 + secTicks 1 tscPerUsec) fuel 1 (.start (r 0) 0xFFFFFFFF) = some (warm, k))
    (hrun : gapLoop r (r k + secTicks sec tscPerUsec) fuel (k + 1) (.start (r k) 0xFFFFFFFF) = some res) :
    hourglass b sec tscPerUsec r fuel = some ⟨r k, r k + secTicks sec tscPerUsec, res.1,
      hourglassAvg b (res.1.tsc - r k) res.1.cnt, res.2 - (k + 1)⟩ := by
  rw [hourglass, hwarm]
  show Option.bind (gapLoop r _ fuel (k + 1) _) _ = _
  rw [hrun]
  rfl

/-- **What `hourglass()` and `worker()` print**, if their loops are entered and `cnt` fits an `unsigned long`. -/
theorem reports_measured (b : Build) (sec tscPerUsec : Unsigned) {r : Nat → BitVec 64} (hr : Forward r) (fuel : Nat)
    (report : Report) (hin : report.tscStart < report.tscEnd) (hrounds : report.rounds < 2 ^ b.longBits) :
    (hourglass b sec tscPerUsec r fuel = some report → report.Measured b r 0xFFFFFFFF) ∧
    (worker b sec tscPerUsec r fuel = some report → report.Measured b r 0xFFFFFFFFFFFFFFFF) := by
  constructor
  · intro h
    obtain ⟨warm, -, h⟩ := Option.bind_eq_some_iff.1 h
    obtain ⟨res, hrun, h⟩ := Option.bind_eq_some_iff.1 h
    obtain rfl := Option.some.inj h
    exact measured_of_loop hr (fun _ _ => hourglassAvg_mean) hrun hin hrounds
  · intro h
    obtain ⟨res, hrun, h⟩ := Option.bind_eq_some_iff.1 h
    obtain rfl := Option.some.inj h
    exact measured_of_loop (s := 0) hr (fun _ _ => divide64_mean) hrun hin hrounds

/-- A counter that moves by `ticks` from reading to reading, `n` times. -/
def leaps (ticks n i : Nat) : BitVec 64 := BitVec.ofNat 64 (min i n * ticks)

theorem toNat_leaps {ticks n : Nat} (h : n * ticks < 2 ^ 64) (i : Nat) : (leaps ticks n i).toNat = min i n * ticks := by
  have hle : min i n * ticks ≤ n * ticks := Nat.mul_le_mul_right _ (Nat.min_le_right i n)
  rw [leaps, BitVec.toNat_ofNat, Nat.mod_eq_of_lt (Nat.lt_of_le_of_lt hle h)]

theorem leaps_forward {ticks n : Nat} (h : n * ticks < 2 ^ 64) : Forward (leaps ticks n) := by
  intro i
  rw [toNat_leaps h, toNat_leaps h]
  exact Nat.mul_le_mul_right _ (by omega)

/-- Three seconds at 1000 MHz in three gaps, whose sum is longer than 32 bits. -/
theorem reports_measured_threeGaps :
    Report.Measured ⟨2863311534, 5863311534, ⟨7158278835, 1431655767, 1431655767, 3⟩, some 1431655766, 3⟩
      .b32 (leaps 1431655767 6) 0xFFFFFFFF ∧
    Report.Measured ⟨0, 3000000000, ⟨4294967301, 1431655767, 1431655767, 3⟩, some 1431655766, 3⟩
      .b32 (leaps 1431655767 6) 0xFFFFFFFFFFFFFFFF := by
  have hshift : shiftTo32 4294967301 0 = (2147483650, 1) := by
    rw [shiftTo32, if_pos (by decide), shiftTo32, if_neg (by decide)]
    rfl
  have hhourglass : hourglass .b32 3 1000 (leaps 1431655767 6) 20 =
      some ⟨2863311534, 5863311534, ⟨7158278835, 1431655767, 1431655767, 3⟩, hourglassAvg .b32 4294967301 3, 3⟩ := rfl
  have hworker : worker .b32 3 1000 (leaps 1431655767 6) 20 =
      some ⟨0, 3000000000, ⟨4294967301, 1431655767, 1431655767, 3⟩, udivdi3 4294967301 3, 3⟩ := rfl
  have havg : hourglassAvg .b32 4294967301 3 = some 1431655766 := by
    rw [hourglassAvg, hshift]
    rfl
  have hdiv : udivdi3 4294967301 3 = some 1431655766 := by
    rw [udivdi3, hshift, shiftDivisor, if_neg (by decide)]
    rfl
  rw [havg] at hhourglass
  rw [hdiv] at hworker
  have hr := leaps_forward (show 6 * 1431655767 < 2 ^ 64 by decide)
  exact ⟨(reports_measured .b32 3 1000 hr 20 _ (by decide) (by decide)).1 hhourglass,
    (reports_measured .b32 3 1000 hr 20 _ (by decide) (by decide)).2 hworker⟩

theorem toNat_ticks {n i : Nat} (hn : n < 2 ^ 64) (hi : i ≤ n) : (leaps 1 n i).toNat = i := by
  rw [toNat_leaps (by omega)]
  omega

/-- A tick a round: the loop takes as many rounds as it takes ticks. -/
theorem gapLoop_ticks {n : Nat} (hn : n < 2 ^ 64) : ∀ {d fuel s : Nat} {g : Gaps}, d < fuel → s + d ≤ n →
    g.tsc = leaps 1 n s → ∃ res, gapLoop (leaps 1 n) (BitVec.ofNat 64 (s + d)) fuel (s + 1) g = some res ∧
      res.2 = s + d + 1 ∧ res.1.cnt = g.cnt + BitVec.ofNat 64 d
  | d, 0, _, _, hd, _, _ => absurd hd (Nat.not_lt_zero d)
  | 0, fuel + 1, s, g, _, hs, hg => by
    have hnow : (leaps 1 n s).toNat = s := toNat_ticks hn (by omega)
    have hge : ¬ g.tsc < BitVec.ofNat 64 (s + 0) := by
      rw [hg, BitVec.lt_def, hnow, BitVec.toNat_ofNat, Nat.mod_eq_of_lt (by omega)]
      omega
    exact ⟨_, if_neg hge, rfl, (BitVec.add_zero g.cnt).symm⟩
  | d + 1, fuel + 1, s, g, hd, hs, hg => by
    have hnow : (leaps 1 n s).toNat = s := toNat_ticks hn (by omega)
    have hlt : g.tsc < BitVec.ofNat 64 (s + (d + 1)) := by
      rw [hg, BitVec.lt_def, hnow, BitVec.toNat_ofNat, Nat.mod_eq_of_lt (by omega)]
      omega
    have hmove : s + (d + 1) = s + 1 + d := by omega
    obtain ⟨res, hrun, hnext, hcnt⟩ :=
      @gapLoop_ticks n hn d fuel (s + 1) (g.read (leaps 1 n (s + 1))) (by omega) (by omega) rfl
    refine ⟨res, ?_, by omega, ?_⟩
    · rw [gapLoop, if_pos hlt, hmove]
      exact hrun
    · rw [hcnt, Nat.add_comm d, BitVec.ofNat_add, ← BitVec.add_assoc]
      rfl

/-- In the 32-bit build three gaps of 1431655767 ticks have the average 1431655766, and `2 ^ 32 * 15625` rounds, or none in
either build, a division by zero. -/
theorem reports_not_measured :
    (∃ report avg, hourglass .b32 3 1000 (leaps 1431655767 5) 4 = some report ∧ report.avg = some avg ∧
      avg < report.gaps.min) ∧
    (∃ fuel report, hourglass .b32 8192 8192 (leaps 1 67117056000001) fuel = some report ∧ report.avg = none) ∧
    (∃ report, worker .b64 2147483648 2147483648 (leaps 0 0) 1 = some report ∧ report.avg = none) := by
  refine ⟨?_, ?_, ⟨_, rfl, rfl⟩⟩
  · have hshift : shiftTo32 4294967301 0 = (2147483650, 1) := by
      rw [shiftTo32, if_pos (by decide), shiftTo32, if_neg (by decide)]
      rfl
    have havg : hourglassAvg .b32 4294967301 3 = some 1431655766 := by
      rw [hourglassAvg, hshift]
      rfl
    exact ⟨⟨_, _, _, _, _⟩, _, rfl, havg, by decide⟩
  · have hn : 67117056000001 < 2 ^ 64 := by decide
    obtain ⟨⟨warm, _⟩, hwarm, rfl, -⟩ := @gapLoop_ticks _ hn 8192000000 67117056000001 0
      (.start (leaps 1 67117056000001 0) 0xFFFFFFFF) (by decide) (by decide) rfl
    obtain ⟨res, hrun, -, hcnt⟩ := @gapLoop_ticks _ hn 67108864000000 67117056000001 8192000001
      (.start (leaps 1 67117056000001 8192000001) 0xFFFFFFFF) (by decide) (by decide) rfl
    have hwarmEnd : leaps 1 67117056000001 0 + secTicks 1 8192 = BitVec.ofNat 64 (0 + 8192000000) := by decide
    have hend : leaps 1 67117056000001 8192000001 + secTicks 8192 8192 = BitVec.ofNat 64 (8192000001 + 67108864000000) := by
      decide
    rw [← hwarmEnd] at hwarm
    rw [← hend] at hrun
    refine ⟨67117056000001, _, hourglass_of_loops hwarm hrun, ?_⟩
    simp only [hourglassAvg, hcnt]
    exact if_pos rfl

end SmpBoot
