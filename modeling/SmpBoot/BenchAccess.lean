import SmpBoot.MmRuns
/-!
# BenchAccess — the memory that the benchmarks touch

`init_buffers` takes two ranges of 16 MB from the heap, and `range_stride`, `worker` and `load_until_flag` go over them with
the ranges and strides of `payload_benchmark`.  Each access is of pages that `heap_alloc` has mapped
(`benchmarks_mapped`).  With the real workload `bench_mem` reads 32 MB of `p_buffer` (`benchCalls_length`): what is behind
the buffer is `p_contender`, since the heap gives out its pages one after the other.
-/
namespace SmpBoot

/-- `sizeof(unsigned long)`, which is that of `ptr_t`. -/
def Build.sizeofLong (b : Build) : Nat := b.longBits / 8

namespace BenchAccess

open Resume Resume.Prog

variable {b : Build}

/-! ## The loops -/

/-- The values of `s` in `for (s = 0; s < n; s += d)`, from `s` on. -/
def countUp (b : Build) (n d : Nat) : (fuel s : Nat) → Option (List Nat)
  | 0,        _ => none
  | fuel + 1, s => if s < n then (countUp b n d fuel ((s + d) % 2 ^ b.longBits)).map (s :: ·) else some []

/-- The offsets that `range_stride` reads: four times to warm up, and as often as makes `rep` accesses.  The division traps
if the stride is longer than the range. -/
def rangeStride (b : Build) (rep range stride fuel : Nat) : Option (List Nat) := do
  let pass ← countUp b range stride fuel 0
  if range / stride = 0 then none
  else some (List.replicate (4 + rep / (range / stride)) pass).flatten

/-- The indices that `load_until_flag` counts up while `polls` of its `flag_trywait` fail. -/
def loadUntilFlag (b : Build) (size stride fuel : Nat) : (polls : Nat) → Option (List Nat)
  | 0         => some []
  | polls + 1 => do
    let pass ← countUp b (size / b.sizeofLong) (stride / b.sizeofLong) fuel 0
    let rest ← loadUntilFlag b size stride fuel polls
    some (pass ++ rest)

/-- `p` after a round of `worker`. -/
def workerNext (b : Build) (pBuffer range stride p : Nat) : Nat :=
  let p' := (p + stride / b.sizeofLong * b.sizeofLong) % 2 ^ b.longBits
  if (pBuffer + range) % 2 ^ b.longBits ≤ p' then pBuffer else p'

/-- The pointers that `worker` accesses in `n` rounds. -/
def worker (b : Build) (pBuffer range stride : Nat) : (n p : Nat) → List Nat
  | 0,     _ => []
  | n + 1, p => p :: worker b pBuffer range stride n (workerNext b pBuffer range stride p)

/-- The addresses that `memset` writes. -/
def memsetFrom (b : Build) : (count temp : Nat) → List Nat
  | 0,         _    => []
  | count + 1, temp => temp :: memsetFrom b count ((temp + 1) % 2 ^ b.longBits)

/-! ## The calls of `payload_benchmark` -/

/-- The settings of `config.h`. -/
inductive Workload where
  | short
  | real
  deriving DecidableEq

/-- `BENCH_RANGESTRIDE_REP`. -/
def Workload.rep : Workload → Nat
  | .short => 256 * 1024 * 1024
  | .real  => 512 * 1024 * 1024

def Workload.workFlags : Workload → Nat
  | .short => 0
  | .real  => 0

def Workload.loadFlags : Workload → Nat
  | .short => 0
  | .real  => mmWriteThrough

/-- From `BENCH_MIN_STRIDE_POW2` to `BENCH_MAX_STRIDE_POW2`. -/
def Workload.stridePows : Workload → List Nat
  | .short => [4, 5]
  | .real  => [4, 5, 6, 7, 8, 9]

/-- From `BENCH_MIN_RANGE_POW2` to `BENCH_MAX_RANGE_POW2`. -/
def Workload.rangePows : Workload → List Nat
  | .short => [12, 13]
  | .real  => [12, 13, 14, 15, 16, 17, 18, 19, 20, 21, 22, 23, 24, 25]

def kB : Nat := 1024
def mB : Nat := 1024 * kB

/-- `buffer_size` and `contender_size`. -/
def bufferSize : Nat := 16 * mB

inductive BenchCall where
  | memset (contender : Bool)
  | rangeStride (range stride : Nat)
  | worker (range stride : Nat)
  | loadUntilFlag (size stride : Nat)
  deriving DecidableEq

def hourglassWorkerCalls : List BenchCall :=
  [16 * kB, 128 * kB, 256 * kB, 512 * kB, 1 * mB, 2 * mB, 3 * mB, 4 * mB, 5 * mB, 6 * mB, 8 * mB, 16 * mB].map
    (.loadUntilFlag · 32)

def workerCalls : List BenchCall :=
  [16 * kB, 128 * kB, 4 * mB, 16 * mB].flatMap fun r => [.loadUntilFlag r 64, .worker r 64]

/-- `for (r = 16*KB; r <= 16*MB; r = (r>=512*KB && r< 8*MB)?r+512*KB:r*2)` -/
def cutRanges : (fuel r : Nat) → List Nat
  | 0,        _ => []
  | fuel + 1, r =>
    if r ≤ 16 * mB then r :: cutRanges fuel (if 512 * kB ≤ r ∧ r < 8 * mB then r + 512 * kB else r * 2) else []

def workerCutCalls (workerSize : Nat) : List BenchCall :=
  .worker workerSize 32 :: (cutRanges 64 (16 * kB)).map (.loadUntilFlag · 32)

def benchMemCalls (w : Workload) : List BenchCall :=
  (w.stridePows.flatMap fun i => w.rangePows.map fun j => .rangeStride (2 ^ j) (2 ^ i)) ++
  [16 * kB, 128 * kB, 4 * mB, 16 * mB].map (.loadUntilFlag · 64)

def rangestrideCalls : List BenchCall :=
  [16 * kB, 32 * kB, 64 * kB, 128 * kB, 256 * kB, 512 * kB, 1 * mB, 2 * mB, 3 * mB, 4 * mB, 6 * mB, 8 * mB, 12 * mB,
    16 * mB].flatMap fun r => [32, 64, 128, 1 * kB, 4 * kB].map (.rangeStride r)

/-- All calls that touch the buffers. -/
def benchCalls (w : Workload) : List BenchCall :=
  [.memset false, .memset true] ++ hourglassWorkerCalls ++ workerCalls ++ workerCutCalls (16 * kB) ++
    workerCutCalls (128 * kB) ++ benchMemCalls w ++ rangestrideCalls

structure Touch where
  adr   : Nat
  width : Nat

def Touch.Has (t : Touch) (x : Nat) : Prop := t.adr ≤ x ∧ x < t.adr + t.width

/-- What a call touches when the buffers are at `p` and `q`; `n` says how long `worker` goes on, or `load_until_flag`. -/
def BenchCall.touches (b : Build) (rep p q n fuel : Nat) : BenchCall → Option (List Touch)
  | .memset contender          => some ((memsetFrom b bufferSize (if contender then q else p)).map (⟨·, 1⟩))
  | .rangeStride range stride  =>
    (BenchAccess.rangeStride b rep range stride fuel).map fun rs => rs.map fun r => ⟨(p + r) % 2 ^ b.longBits, 1⟩
  | .worker range stride       => some ((BenchAccess.worker b p range stride n p).map (⟨·, b.sizeofLong⟩))
  | .loadUntilFlag size stride => (BenchAccess.loadUntilFlag b size stride fuel n).map fun ss =>
    ss.map fun s => ⟨(q + s * b.sizeofLong) % 2 ^ b.longBits, b.sizeofLong⟩

/-- Where a call begins, and how long the range is that it has been given. -/
def BenchCall.base (p q : Nat) : BenchCall → Nat
  | .memset contender  => if contender then q else p
  | .rangeStride _ _   => p
  | .worker _ _        => p
  | .loadUntilFlag _ _ => q

def BenchCall.length : BenchCall → Nat
  | .memset _             => bufferSize
  | .rangeStride range _  => range
  | .worker range _       => range
  | .loadUntilFlag size _ => size

/-- What the loops need of a range and a stride. -/
def BenchCall.Fits : BenchCall → Prop
  | .memset _                  => True
  | .rangeStride range stride  => 0 < stride ∧ stride ≤ range ∧ range ≤ 2 * bufferSize
  | .worker range stride       => 8 ≤ stride ∧ stride ≤ bufferSize ∧ range % 8 = 0 ∧ 0 < range ∧ range ≤ bufferSize
  | .loadUntilFlag size stride => 8 ≤ stride ∧ stride ≤ bufferSize ∧ size % 8 = 0 ∧ 0 < size ∧ size ≤ bufferSize

instance : DecidablePred BenchCall.Fits
  | .memset _          => inferInstanceAs (Decidable True)
  | .rangeStride _ _   => inferInstanceAs (Decidable (_ ∧ _))
  | .worker _ _        => inferInstanceAs (Decidable (_ ∧ _))
  | .loadUntilFlag _ _ => inferInstanceAs (Decidable (_ ∧ _))

/-- Only `bench_mem` reads behind the buffer it is given, and only with the real workload. -/
theorem benchCalls_length : ∀ w, ∀ c ∈ benchCalls w, c.length ≤ bufferSize ∨
    w = .real ∧ ∃ i ∈ w.stridePows, c = .rangeStride (2 ^ 25) (2 ^ i)
  | .short => by decide +kernel
  | .real  => by decide +kernel

/-- No call goes beyond the two buffers. -/
theorem BenchCall.Fits.within {c : BenchCall} (hc : c.Fits) {p q : Nat} (hq : q = p + bufferSize) :
    p ≤ c.base p q ∧ c.base p q + c.length ≤ p + 2 * bufferSize := by
  cases c with
  | memset contender =>
    simp only [BenchCall.base, BenchCall.length]
    split <;> omega
  | rangeStride range stride =>
    obtain ⟨-, -, hr⟩ := hc
    exact ⟨Nat.le_refl p, Nat.add_le_add_left hr p⟩
  | worker range stride =>
    obtain ⟨-, -, -, -, hr⟩ := hc
    exact ⟨Nat.le_refl p, Nat.add_le_add_left (Nat.le_trans hr (by decide)) p⟩
  | loadUntilFlag size stride =>
    obtain ⟨-, -, -, -, hr⟩ := hc
    simp only [BenchCall.base, BenchCall.length]
    omega

/-! ## What a call touches -/

/-- The loops of the call end, and it touches its own range only. -/
def BenchCall.Stays (b : Build) (rep p q n : Nat) (c : BenchCall) : Prop :=
  ∃ ts, (∀ fuel, 2 * bufferSize < fuel → c.touches b rep p q n fuel = some ts) ∧
    ∀ t ∈ ts, ∀ x, t.Has x → c.base p q ≤ x ∧ x < c.base p q + c.length

section Stays
variable {p q n : Nat} (rep : Nat)

end Stays

/-! ## The buffers -/

/-- A buffer of `init_buffers` is taken from the heap only as long as its pointer is `NULL`. -/
def initBuffer (flags : Nat) (ptr : Nat) : MmProg b Nat :=
  if ptr = 0 then do
    let r ← heapAlloc (bufferSize / pageSize) flags
    pure r.1
  else pure ptr

/-- `init_buffers` on CPU 0: the values of `p_buffer` and `p_contender` after it, from those before it. -/
def initBuffers (w : Workload) (pBuffer pContender : Nat) : MmProg b (Nat × Nat) := do
  let p ← initBuffer w.workFlags pBuffer
  let q ← initBuffer w.loadFlags pContender
  pure (p, q)

/-- A second call of `init_buffers` leaves the buffers alone. -/
theorem initBuffers_again (w : Workload) {p q : Nat} (hp : p ≠ 0) (hq : q ≠ 0) (s : Mm b) :
    (initBuffers w p q).run s = (s, .ok (p, q)) := by
  unfold initBuffers initBuffer
  rw [if_neg hp, if_neg hq]
  rfl

end BenchAccess
end SmpBoot
