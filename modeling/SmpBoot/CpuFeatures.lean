import SmpBoot.Cmdline
import SmpBoot.Lib.Walk
/-!
# CpuFeatures — what `cpu_features` takes from CPUID

The four registers are variables that every `cpuid` call overwrites.  CPUID is any function from leaf and sub-leaf to registers;
the leaves that are called without a sub-leaf do not look at ECX.  `printf` is left out.
-/
namespace SmpBoot

structure Regs where
  eax : Unsigned
  ebx : Unsigned
  ecx : Unsigned
  edx : Unsigned
  deriving DecidableEq

abbrev Cpuid := Unsigned → Unsigned → Regs

inductive Vendor where
  | unknown
  | intel
  | amd
  deriving DecidableEq

/-- An element of `cpuid_cache[]`. -/
structure CpuCache where
  level    : BitVec 8
  type     : BitVec 8
  sharedBy : BitVec 8
  lineSize : BitVec 8
  size     : Unsigned
  deriving DecidableEq

/-- The fields of `hw_info` that `cpu_features` fills. -/
structure CpuInfo where
  cpuidMax           : Unsigned
  cpuidHighMax       : Unsigned
  cpuidFamily        : Unsigned
  cpuidCachelinesize : Unsigned
  cpuidLapicId       : Unsigned
  maxphyaddr         : Unsigned
  cpuVendor          : Vendor
  processorName      : Vector Unsigned 12
  threadsPerPackage  : BitVec 16
  /-- The stores to `cpuid_cache[]` with their indices. -/
  cacheStores        : List (Nat × CpuCache)

/-- The registers, the leaves that were asked for, and what is known. -/
structure CpuState where
  regs : Regs
  used : List Unsigned
  info : CpuInfo

namespace CpuState

/-- `hw_info` is 0 when `cpu_features` is called. -/
def start : CpuState := ⟨⟨0, 0, 0, 0⟩, [], ⟨0, 0, 0, 0, 0, 0, .unknown, .replicate _ 0, 0, []⟩⟩

def cpuid (c : Cpuid) (func : Unsigned) (s : CpuState) : CpuState := { s with regs := c func 0, used := s.used ++ [func] }

def cpuidExt (c : Cpuid) (func ext : Unsigned) (s : CpuState) : CpuState :=
  { s with regs := c func ext, used := s.used ++ [func] }

end CpuState

def strcmp : Text → Text → Int
  | [],     b => 0 - (deref b).toInt
  | x :: a, b => if x ≠ 0 ∧ deref b ≠ 0 ∧ x = deref b then strcmp a b.tail else x.toInt - (deref b).toInt

/-- The bytes of a register, as they are stored. -/
def regBytes (x : Unsigned) : Text := (List.range 4).map fun i => x.extractLsb' (8 * i) 8

/-- `vendor.str`. -/
def vendorStr (r : Regs) : Text := regBytes r.ebx ++ (regBytes r.edx ++ (regBytes r.ecx ++ [0]))

def genuineIntel : Text := ascii ['G', 'e', 'n', 'u', 'i', 'n', 'e', 'I', 'n', 't', 'e', 'l']
def authenticAmd : Text := ascii ['A', 'u', 't', 'h', 'e', 'n', 't', 'i', 'c', 'A', 'M', 'D']

def vendorOf (str : Text) : Vendor :=
  if strcmp str genuineIntel = 0 then .intel else if strcmp str authenticAmd = 0 then .amd else .unknown

/-! ## The parts of `cpu_features` -/

section
variable (c : Cpuid) (s : CpuState)

def readVendor : CpuState :=
  let s := s.cpuid c 0
  { s with info := { s.info with cpuidMax := s.regs.eax, cpuVendor := vendorOf (vendorStr s.regs) } }

def readFamily : CpuState :=
  if s.info.cpuidMax ≥ 1 then
    let s := s.cpuid c 1
    match s.info.cpuVendor with
    | .intel   => { s with info := { s.info with
        cpuidFamily        := bitsFromCnt s.regs.eax 8 4 + bitsFromCnt s.regs.eax 20 8
        cpuidCachelinesize := if isBitSet s.regs.edx 19 then bitsFromCnt s.regs.ebx 8 8 * 8 else s.info.cpuidCachelinesize
        cpuidLapicId       := bitsFromCnt s.regs.ebx 24 8 } }
    | .amd     => { s with info := { s.info with
        cpuidFamily        :=
          if bitsFromCnt s.regs.eax 8 4 = 0x0F then bitsFromCnt s.regs.eax 8 4 + bitsFromCnt s.regs.eax 20 8
          else bitsFromCnt s.regs.eax 8 4
        cpuidCachelinesize := bitsFromCnt s.regs.ebx 8 8 * 8 } }
    | .unknown => s
  else s

def readHighMax : CpuState :=
  let s := s.cpuid c 0x80000000
  { s with info := { s.info with cpuidHighMax := s.regs.eax } }

def readName : CpuState :=
  if s.info.cpuidHighMax ≥ 0x80000004 then
    let s₂ := s.cpuid c 0x80000002
    let s₃ := s₂.cpuid c 0x80000003
    let s₄ := s₃.cpuid c 0x80000004
    { s₄ with info := { s.info with processorName := #v[s₂.regs.eax, s₂.regs.ebx, s₂.regs.ecx, s₂.regs.edx,
      s₃.regs.eax, s₃.regs.ebx, s₃.regs.ecx, s₃.regs.edx, s₄.regs.eax, s₄.regs.ebx, s₄.regs.ecx, s₄.regs.edx] } }
  else s

def readMaxphyaddr : CpuState :=
  if s.info.cpuidHighMax ≥ 0x80000008 then
    let s := s.cpuid c 0x80000004
    { s with info := { s.info with maxphyaddr := s.regs.eax &&& 0xFF } }
  else { s with info := { s.info with maxphyaddr := 36 } }

def CpuState.threads (n : Unsigned) : CpuState := { s with info := { s.info with threadsPerPackage := n.setWidth 16 } }

def readThreads : CpuState :=
  match s.info.cpuVendor with
  | .intel =>
    let s := (s.cpuid c 1).threads 1
    if isBitClear s.regs.edx 28 then s
    else if s.info.cpuidMax ≥ 4 then
      let s := s.cpuidExt c 4 0
      s.threads (bitsFromCnt s.regs.eax 26 6 + 1)
    else s
  | .amd =>
    let s := (s.cpuid c 1).threads 1
    if isBitClear s.regs.edx 28 then s
    else if s.info.cpuidHighMax ≥ 0x80000008 then
      let s := s.cpuid c 0x80000001
      if isBitSet s.regs.ecx 1 then
        let s := s.cpuid c 0x80000008
        s.threads (bitsFromCnt s.regs.ecx 0 8 + 1)
      else s
    else s
  | .unknown => s

def CpuState.store (u : Nat) (cache : CpuCache) : CpuState :=
  { s with info := { s.info with cacheStores := s.info.cacheStores ++ [(u, cache)] } }

end

/-- The type of a cache in a descriptor of leaf 4; 0 in the one behind the last. -/
def cacheType (r : Regs) : Unsigned := bitsFromCnt r.eax 0 5

/-- What the loop stores for a descriptor.  The type is left 0 if it is unknown. -/
def intelCache (r : Regs) : CpuCache :=
  let way := bitsFromCnt r.ebx 22 10 + 1
  let partition := bitsFromCnt r.ebx 12 10 + 1
  let lineSize : BitVec 8 := (bitsFromCnt r.ebx 0 12 + 1).setWidth 8
  let set := r.ecx + 1
  { level    := (bitsFromCnt r.eax 5 3).setWidth 8
    type     :=
      if cacheType r = 1 then code 'D' else if cacheType r = 2 then code 'I' else if cacheType r = 3 then code 'U' else 0
    sharedBy := (bitsFromCnt r.eax 26 6 + 1).setWidth 8
    lineSize := lineSize
    size     := way * partition * lineSize.setWidth 32 * set }

/-- The `while (1)` loop over the sub-leaves of leaf 4 from `u` on. -/
def cacheLoop (c : Cpuid) : Nat → Nat → CpuState → Option CpuState
  | 0,        _, _ => none
  | fuel + 1, u, s =>
    let s := s.cpuidExt c 4 (BitVec.ofNat 32 u)
    if cacheType s.regs = 0 then some s
    else
      let s := s.store u (intelCache s.regs)
      if u ≥ maxCache then some s else cacheLoop c fuel (u + 1) s

/-- The second-level and third-level caches have no other fields if their size is 0. -/
def amdCache (level : BitVec 8) (size : Unsigned) (lineSize : BitVec 8) : CpuCache :=
  if size > 0 then ⟨level, code 'U', 0, lineSize, size⟩ else ⟨0, 0, 0, 0, 0⟩

def readAmdCaches (c : Cpuid) (s : CpuState) : CpuState :=
  if s.info.cpuidHighMax ≥ 0x80000006 then
    let s := s.cpuid c 0x80000005
    let s := s.store 0 ⟨1, code 'I', 0, (bitsFromCnt s.regs.edx 0 8).setWidth 8, bitsFromTo s.regs.edx 24 31 * 1024⟩
    let s := s.store 1 ⟨1, code 'D', 0, (bitsFromTo s.regs.ecx 0 7).setWidth 8, bitsFromTo s.regs.ecx 24 31 * 1024⟩
    let s := s.cpuid c 0x80000006
    let s := s.store 2 (amdCache 2 (bitsFromTo s.regs.ecx 16 31 * 1024) ((bitsFromTo s.regs.ecx 0 7).setWidth 8))
    s.store 3 (amdCache 3 (bitsFromTo s.regs.edx 18 31 * 512 * 1024) ((bitsFromTo s.regs.edx 0 7).setWidth 8))
  else s

def readCaches (c : Cpuid) (fuel : Nat) (s : CpuState) : Option CpuState :=
  match s.info.cpuVendor with
  | .intel   => if s.info.cpuidMax ≥ 4 then cacheLoop c fuel 0 s else some s
  | .amd     => some (readAmdCaches c s)
  | .unknown => some s

/-- The part of `cpu_features` before the threads. -/
def identify (c : Cpuid) : CpuState :=
  readMaxphyaddr c (readName c (readHighMax c (readFamily c (readVendor c .start))))

def cpuFeatures (c : Cpuid) (fuel : Nat) : Option CpuState := readCaches c fuel (readThreads c (identify c))

/-! ## The caches of leaf 4 -/

/-- **The fields of a descriptor**, each plus one where it is a number. -/
structure CacheRight (r : Regs) (cache : CpuCache) : Prop where
  level    : cache.level.toNat = (bitsFromCnt r.eax 5 3).toNat
  lineSize : cache.lineSize.toNat = (bitsFromCnt r.ebx 0 12).toNat + 1
  size     : cache.size.toNat = ((bitsFromCnt r.ebx 22 10).toNat + 1) * ((bitsFromCnt r.ebx 12 10).toNat + 1) *
    ((bitsFromCnt r.ebx 0 12).toNat + 1) * (r.ecx.toNat + 1) % 2 ^ 32

structure CachesRight (c : Cpuid) (stores : List (Nat × CpuCache)) : Prop where
  inside : ∀ w ∈ stores, w.1 < maxCache
  right  : ∀ w ∈ stores, CacheRight (c 4 (BitVec.ofNat 32 w.1)) w.2

/-- The stores of at most `n` rounds of the loop, from sub-leaf `u` on. -/
def storesFrom (c : Cpuid) : Nat → Nat → List (Nat × CpuCache)
  | 0,     _ => []
  | n + 1, u =>
    if cacheType (c 4 (BitVec.ofNat 32 u)) = 0 then []
    else (u, intelCache (c 4 (BitVec.ofNat 32 u))) :: storesFrom c n (u + 1)

section
variable {c : Cpuid} {s : CpuState}

/-- The null descriptor ends the loop. -/
theorem cacheLoop_null {u : Nat} (hz : cacheType (c 4 (BitVec.ofNat 32 u)) = 0) (s : CpuState) (n : Nat) :
    ∃ s', (∀ fuel > n, cacheLoop c fuel u s = some s') ∧
      s'.info = { s.info with cacheStores := s.info.cacheStores ++ storesFrom c (n + 1) u } ∧
      ∃ rest, s'.used = s.used ++ rest ∧ ∀ leaf ∈ rest, leaf = 4 := by
  refine ⟨s.cpuidExt c 4 (BitVec.ofNat 32 u), Walk.forall_fuel fun k _ => if_pos hz, ?_, [4], rfl,
    fun _ => List.mem_singleton.1⟩
  rw [storesFrom, if_pos hz, List.append_nil]
  rfl

/-- **The loop ends at the latest behind element `MAX_CACHE`**, and uses no other leaf. -/
theorem cacheLoop_ends : ∀ (n u : Nat) (s : CpuState), u + n = maxCache → ∃ s', (∀ fuel > n, cacheLoop c fuel u s = some s') ∧
    s'.info = { s.info with cacheStores := s.info.cacheStores ++ storesFrom c (n + 1) u } ∧
    ∃ rest, s'.used = s.used ++ rest ∧ ∀ leaf ∈ rest, leaf = 4
  | 0,     u, s, hu => by
    by_cases hz : cacheType (c 4 (BitVec.ofNat 32 u)) = 0
    · exact cacheLoop_null hz s 0
    · refine ⟨(s.cpuidExt c 4 (BitVec.ofNat 32 u)).store u (intelCache (c 4 (BitVec.ofNat 32 u))),
        Walk.forall_fuel fun k _ => (if_neg hz).trans (if_pos (Nat.le_of_eq hu.symm)), ?_, [4], rfl,
          fun _ => List.mem_singleton.1⟩
      rw [storesFrom, if_neg hz]
      rfl
  | n + 1, u, s, hu => by
    by_cases hz : cacheType (c 4 (BitVec.ofNat 32 u)) = 0
    · exact cacheLoop_null hz s (n + 1)
    · obtain ⟨s', hs', hinfo, rest, hused, hrest⟩ := cacheLoop_ends n (u + 1)
        ((s.cpuidExt c 4 (BitVec.ofNat 32 u)).store u (intelCache (c 4 (BitVec.ofNat 32 u)))) (by omega)
      have hlt : ¬ u ≥ maxCache := by omega
      refine ⟨s', Walk.forall_fuel fun k hk => (if_neg hz).trans ((if_neg hlt).trans (hs' k hk)), ?_, 4 :: rest, ?_,
        fun leaf hl => ?_⟩
      · have hst : storesFrom c (n + 1 + 1) u =
            (u, intelCache (c 4 (BitVec.ofNat 32 u))) :: storesFrom c (n + 1) (u + 1) := if_neg hz
        rw [hinfo, hst]
        exact congrArg (fun st => { s.info with cacheStores := st }) (List.append_assoc _ _ _)
      · rw [hused]
        exact List.append_assoc _ _ _
      · rcases List.mem_cons.1 hl with h | h
        · exact h
        · exact hrest leaf h

theorem mem_storesFrom {w : Nat × CpuCache} : ∀ {n u : Nat}, w ∈ storesFrom c n u ↔
    u ≤ w.1 ∧ w.1 < u + n ∧ (∀ j, u ≤ j → j ≤ w.1 → cacheType (c 4 (BitVec.ofNat 32 j)) ≠ 0) ∧
      w.2 = intelCache (c 4 (BitVec.ofNat 32 w.1))
  | 0,     u => by
    rw [storesFrom]
    exact iff_of_false List.not_mem_nil (fun h => by omega)
  | n + 1, u => by
    rw [storesFrom]
    by_cases hz : cacheType (c 4 (BitVec.ofNat 32 u)) = 0
    · rw [if_pos hz]
      exact iff_of_false List.not_mem_nil (fun h => h.2.2.1 u (Nat.le_refl u) h.1 hz)
    · rw [if_neg hz, List.mem_cons, mem_storesFrom]
      constructor
      · rintro (rfl | ⟨h1, h2, h3, h4⟩)
        · refine ⟨Nat.le_refl u, by omega, fun j hj hj' => ?_, rfl⟩
          rwa [Nat.le_antisymm hj' hj]
        · refine ⟨by omega, by omega, fun j hj hj' => ?_, h4⟩
          rcases Nat.eq_or_lt_of_le hj with rfl | hj
          · exact hz
          · exact h3 j hj hj'
      · rintro ⟨h1, h2, h3, h4⟩
        rcases Nat.eq_or_lt_of_le h1 with h1 | h1
        · exact .inl (Prod.ext h1.symm (by rw [h4, ← h1]))
        · exact .inr ⟨h1, by omega, fun j hj => h3 j (Nat.le_of_succ_le hj), h4⟩

theorem toNat_bits_succ (reg : Unsigned) (lo cnt : Nat) (h : cnt < 32) :
    (bitsFromCnt reg lo cnt + 1).toNat = (bitsFromCnt reg lo cnt).toNat + 1 := by
  have hlt := toNat_bitsFromCnt_lt reg lo cnt h
  have hpow : 2 ^ cnt < 2 ^ 32 := Nat.pow_lt_pow_right (by decide) h
  rw [BitVec.toNat_add]
  exact Nat.mod_eq_of_lt (Nat.lt_of_le_of_lt hlt hpow)

/-- The line size goes through 8 bits, and with it the size. -/
theorem intelCache_right {r : Regs} : CacheRight r (intelCache r) ↔ (bitsFromCnt r.ebx 0 12).toNat + 1 < 2 ^ 8 := by
  have hline : (intelCache r).lineSize.toNat = ((bitsFromCnt r.ebx 0 12).toNat + 1) % 2 ^ 8 := by
    rw [intelCache, BitVec.toNat_setWidth, toNat_bits_succ r.ebx 0 12 (by decide)]
  have hpos := toNat_bitsFromCnt_lt r.ebx 0 12 (by decide)
  constructor
  · intro h
    have hl := h.lineSize
    rw [hline] at hl
    omega
  · intro h
    rw [Nat.mod_eq_of_lt h] at hline
    refine ⟨?_, hline, ?_⟩
    · have hlt := toNat_bitsFromCnt_lt r.eax 5 3 (by decide)
      rw [intelCache, BitVec.toNat_setWidth]
      omega
    · have hword : (bitsFromCnt r.ebx 0 12).toNat + 1 < 2 ^ 32 := by omega
      have hsize : (intelCache r).size = (bitsFromCnt r.ebx 22 10 + 1) * (bitsFromCnt r.ebx 12 10 + 1) *
          (intelCache r).lineSize.setWidth 32 * (r.ecx + 1) := rfl
      rw [hsize, BitVec.toNat_mul, BitVec.toNat_mul, BitVec.toNat_mul, BitVec.toNat_setWidth, hline,
        toNat_bits_succ r.ebx 22 10 (by decide), toNat_bits_succ r.ebx 12 10 (by decide), BitVec.toNat_add,
          Nat.mod_eq_of_lt hword]
      simp only [Nat.mod_mul_mod, Nat.mul_mod_mod]
      rfl

theorem cachesRight_iff : CachesRight c (storesFrom c (maxCache + 1) 0) ↔
    (∃ u ≤ maxCache, cacheType (c 4 (BitVec.ofNat 32 u)) = 0) ∧
    ∀ u < maxCache, (∀ j ≤ u, cacheType (c 4 (BitVec.ofNat 32 j)) ≠ 0) →
      (bitsFromCnt (c 4 (BitVec.ofNat 32 u)).ebx 0 12).toNat + 1 < 2 ^ 8 := by
  have hmem : ∀ u ≤ maxCache, (∀ j ≤ u, cacheType (c 4 (BitVec.ofNat 32 j)) ≠ 0) →
      (u, intelCache (c 4 (BitVec.ofNat 32 u))) ∈ storesFrom c (maxCache + 1) 0 :=
    fun u hu hj => mem_storesFrom.2 ⟨Nat.zero_le u, by rw [Nat.zero_add]; exact Nat.lt_succ_of_le hu,
      fun j _ h => hj j h, rfl⟩
  constructor
  · intro h
    constructor
    · by_contra hno
      have hall : ∀ j ≤ maxCache, cacheType (c 4 (BitVec.ofNat 32 j)) ≠ 0 := fun j hj hz => hno ⟨j, hj, hz⟩
      exact Nat.lt_irrefl _ (h.inside _ (hmem maxCache (Nat.le_refl _) hall))
    · intro u hu hj
      exact intelCache_right.1 (h.right _ (hmem u (Nat.le_of_lt hu) hj))
  · rintro ⟨⟨u₀, hu₀, hz⟩, hline⟩
    have hlt : ∀ w ∈ storesFrom c (maxCache + 1) 0, w.1 < maxCache := by
      intro w hw
      obtain ⟨-, -, hj, -⟩ := mem_storesFrom.1 hw
      by_contra hge
      exact hj u₀ (Nat.zero_le _) (by omega) hz
    refine ⟨hlt, fun w hw => ?_⟩
    obtain ⟨-, -, hj, he⟩ := mem_storesFrom.1 hw
    rw [he]
    exact intelCache_right.2 (hline w.1 (hlt w hw) (fun j h => hj j (Nat.zero_le j) h))

end

/-! ## What is known before the caches -/

/-- A leaf of which the processor says that it has it. -/
def Within (max highMax leaf : Unsigned) : Prop :=
  leaf = 0 ∨ leaf = 0x80000000 ∨ leaf < 0x80000000 ∧ leaf ≤ max ∨ 0x80000000 ≤ leaf ∧ leaf ≤ highMax

/-- The extended family counts if the family is 15. -/
def manualFamily (eax : Unsigned) : Unsigned :=
  bitsFromCnt eax 8 4 + if bitsFromCnt eax 8 4 = 0x0F then bitsFromCnt eax 20 8 else 0

def manualMaxphyaddr (c : Cpuid) : Unsigned :=
  if (c 0x80000000 0).eax ≥ 0x80000008 then bitsFromCnt (c 0x80000008 0).eax 0 8 else 36

/-- Leaf 4 counts on Intel, leaf 0x80000008 on AMD if CmpLegacy is set; HTT says whether there is more than one thread. -/
def manualThreads (c : Cpuid) : Nat :=
  if isBitSet (c 1 0).edx 28 then
    match vendorOf (vendorStr (c 0 0)) with
    | .intel   => if (c 0 0).eax ≥ 4 then (bitsFromCnt (c 4 0).eax 26 6).toNat + 1 else 1
    | .amd     => if (c 0x80000000 0).eax ≥ 0x80000008 ∧ isBitSet (c 0x80000001 0).ecx 1 then
        (bitsFromCnt (c 0x80000008 0).ecx 0 8).toNat + 1 else 1
    | .unknown => 1
  else 1

def leafBytes (r : Regs) : Text := regBytes r.eax ++ regBytes r.ebx ++ regBytes r.ecx ++ regBytes r.edx

/-- `cpuid_processor_name.c`. -/
def nameBytes (name : Vector Unsigned 12) : Text := name.toList.flatMap regBytes

section
variable (c : Cpuid) (s : CpuState)

theorem readFamily_only : (readFamily c s).info = { s.info with
    cpuidFamily        := (readFamily c s).info.cpuidFamily
    cpuidCachelinesize := (readFamily c s).info.cpuidCachelinesize
    cpuidLapicId       := (readFamily c s).info.cpuidLapicId } := by
  unfold readFamily
  split
  · dsimp only
    split <;> rfl
  · rfl

theorem readName_only : (readName c s).info = { s.info with processorName := (readName c s).info.processorName } := by
  unfold readName
  split <;> rfl

theorem readMaxphyaddr_info : (readMaxphyaddr c s).info = { s.info with
    maxphyaddr := if s.info.cpuidHighMax ≥ 0x80000008 then (c 0x80000004 0).eax &&& 0xFF else 36 } := by
  unfold readMaxphyaddr
  split <;> rfl

theorem readThreads_only :
    (readThreads c s).info = { s.info with threadsPerPackage := (readThreads c s).info.threadsPerPackage } := by
  unfold readThreads
  split
  · dsimp only
    repeat' split
    all_goals rfl
  · dsimp only
    repeat' split
    all_goals rfl
  · rfl

variable {c s}

theorem readFamily_intel (h : s.info.cpuidMax ≥ 1) (hv : s.info.cpuVendor = .intel) :
    (readFamily c s).info.cpuidFamily = bitsFromCnt (c 1 0).eax 8 4 + bitsFromCnt (c 1 0).eax 20 8 := by
  unfold readFamily
  rw [if_pos h]
  simp only [CpuState.cpuid, hv]

theorem readFamily_amd (h : s.info.cpuidMax ≥ 1) (hv : s.info.cpuVendor = .amd) :
    (readFamily c s).info.cpuidFamily = manualFamily (c 1 0).eax := by
  have hval : (readFamily c s).info.cpuidFamily = if bitsFromCnt (c 1 0).eax 8 4 = 0x0F then
      bitsFromCnt (c 1 0).eax 8 4 + bitsFromCnt (c 1 0).eax 20 8 else bitsFromCnt (c 1 0).eax 8 4 := by
    unfold readFamily
    rw [if_pos h]
    simp only [CpuState.cpuid, hv]
    rfl
  rw [hval, manualFamily]
  split
  · rfl
  · exact (BitVec.add_zero _).symm

theorem readName_name (h : s.info.cpuidHighMax ≥ 0x80000004) : nameBytes (readName c s).info.processorName =
    leafBytes (c 0x80000002 0) ++ (leafBytes (c 0x80000003 0) ++ leafBytes (c 0x80000004 0)) := by
  unfold readName
  rw [if_pos h]
  rfl

theorem readThreads_intel (hv : s.info.cpuVendor = .intel) : readThreads c s =
    if isBitSet (c 1 0).edx 28 ∧ s.info.cpuidMax ≥ 4 then
      (((s.cpuid c 1).threads 1).cpuidExt c 4 0).threads (bitsFromCnt (c 4 0).eax 26 6 + 1)
    else (s.cpuid c 1).threads 1 := by
  have heq : readThreads c s = if isBitClear (c 1 0).edx 28 then (s.cpuid c 1).threads 1
      else if s.info.cpuidMax ≥ 4 then (((s.cpuid c 1).threads 1).cpuidExt c 4 0).threads (bitsFromCnt (c 4 0).eax 26 6 + 1)
      else (s.cpuid c 1).threads 1 := by
    unfold readThreads
    rw [hv]
    rfl
  rw [heq, isBitClear_eq]
  cases isBitSet (c 1 0).edx 28 <;> simp

theorem readThreads_amd (hv : s.info.cpuVendor = .amd) : readThreads c s =
    if isBitSet (c 1 0).edx 28 ∧ s.info.cpuidHighMax ≥ 0x80000008 then
      if isBitSet (c 0x80000001 0).ecx 1 then
        ((((s.cpuid c 1).threads 1).cpuid c 0x80000001).cpuid c 0x80000008).threads (bitsFromCnt (c 0x80000008 0).ecx 0 8 + 1)
      else ((s.cpuid c 1).threads 1).cpuid c 0x80000001
    else (s.cpuid c 1).threads 1 := by
  have heq : readThreads c s = if isBitClear (c 1 0).edx 28 then (s.cpuid c 1).threads 1
      else if s.info.cpuidHighMax ≥ 0x80000008 then
        if isBitSet (c 0x80000001 0).ecx 1 then
          ((((s.cpuid c 1).threads 1).cpuid c 0x80000001).cpuid c 0x80000008).threads
            (bitsFromCnt (c 0x80000008 0).ecx 0 8 + 1)
        else ((s.cpuid c 1).threads 1).cpuid c 0x80000001
      else (s.cpuid c 1).threads 1 := by
    unfold readThreads
    rw [hv]
    rfl
  rw [heq, isBitClear_eq]
  cases isBitSet (c 1 0).edx 28 <;> simp

theorem toNat_threads (reg : Unsigned) (lo cnt : Nat) (h : cnt < 16) :
    ((bitsFromCnt reg lo cnt + 1).setWidth 16).toNat = (bitsFromCnt reg lo cnt).toNat + 1 := by
  have h32 : cnt < 32 := Nat.lt_trans h (by decide)
  have hlt := toNat_bitsFromCnt_lt reg lo cnt h32
  have hpow : 2 ^ cnt < 2 ^ 16 := Nat.pow_lt_pow_right (by decide) h
  rw [BitVec.toNat_setWidth, toNat_bits_succ reg lo cnt h32]
  exact Nat.mod_eq_of_lt (by omega)

/-! ## The leaves that are used -/

variable {m hi : Unsigned}

def CpuState.Kept (m hi : Unsigned) (s : CpuState) : Prop := ∀ leaf ∈ s.used, Within m hi leaf

theorem CpuState.Kept.cpuidExt (c : Cpuid) (h : s.Kept m hi) {leaf : Unsigned} (hl : Within m hi leaf) (ext : Unsigned) :
    (s.cpuidExt c leaf ext).Kept m hi := by
  intro l hmem
  rcases List.mem_append.1 hmem with hmem | hmem
  · exact h l hmem
  · rw [List.mem_singleton.1 hmem]
    exact hl

theorem CpuState.Kept.cpuid (c : Cpuid) (h : s.Kept m hi) {leaf : Unsigned} (hl : Within m hi leaf) :
    (s.cpuid c leaf).Kept m hi := h.cpuidExt c hl 0

theorem within_high {top : Unsigned} (leaf : Unsigned) (h : hi ≥ top) (hlo : 0x80000000 ≤ leaf) (hle : leaf ≤ top) :
    Within m hi leaf :=
  .inr (.inr (.inr ⟨hlo, BitVec.le_trans hle h⟩))

theorem within_low {leaf : Unsigned} (h : m ≥ leaf) (hlt : leaf < 0x80000000) :
    Within m hi leaf :=
  .inr (.inr (.inl ⟨hlt, h⟩))

theorem kept_readVendor : (readVendor c .start).Kept m hi := fun _ hl => .inl (List.mem_singleton.1 hl)

theorem kept_readFamily (h : s.Kept m hi) (hm : s.info.cpuidMax = m) : (readFamily c s).Kept m hi := by
  subst hm
  unfold readFamily
  split
  · rename_i h1
    have hk := h.cpuid c (within_low h1 (by decide))
    dsimp only
    split <;> exact hk
  · exact h

theorem kept_readHighMax (h : s.Kept m hi) : (readHighMax c s).Kept m hi :=
  h.cpuid c (.inr (.inl rfl))

theorem kept_readName (h : s.Kept m hi) (hhi : s.info.cpuidHighMax = hi) : (readName c s).Kept m hi := by
  subst hhi
  unfold readName
  split
  · rename_i h4
    have h₂ := h.cpuid c (within_high 0x80000002 h4 (by decide) (by decide))
    have h₃ := h₂.cpuid c (within_high 0x80000003 h4 (by decide) (by decide))
    exact h₃.cpuid c (within_high 0x80000004 h4 (by decide) (by decide))
  · exact h

theorem kept_readMaxphyaddr (h : s.Kept m hi) (hhi : s.info.cpuidHighMax = hi) : (readMaxphyaddr c s).Kept m hi := by
  subst hhi
  unfold readMaxphyaddr
  split
  · rename_i h8
    exact h.cpuid c (within_high 0x80000004 h8 (by decide) (by decide))
  · exact h

/-- Leaf 1 is asked for without a look at the maximum. -/
theorem kept_readThreads (h : s.Kept m hi) (hm : s.info.cpuidMax = m) (hhi : s.info.cpuidHighMax = hi) (h1 : m ≥ 1) :
    (readThreads c s).Kept m hi := by
  subst hm hhi
  have hk : ((s.cpuid c 1).threads 1).Kept s.info.cpuidMax s.info.cpuidHighMax := h.cpuid c (within_low h1 (by decide))
  cases hv : s.info.cpuVendor with
  | intel =>
    rw [readThreads_intel hv]
    split
    · rename_i h4
      exact hk.cpuidExt c (within_low h4.2 (by decide)) 0
    · exact hk
  | amd =>
    rw [readThreads_amd hv]
    split
    · rename_i h8
      have hk₁ := hk.cpuid c (within_high 0x80000001 h8.2 (by decide) (by decide))
      split
      · exact hk₁.cpuid c (within_high 0x80000008 h8.2 (by decide) (by decide))
      · exact hk₁
    · exact hk
  | unknown =>
    unfold readThreads
    rw [hv]
    exact h

theorem one_mem_used (hv : s.info.cpuVendor ≠ .unknown) : 1 ∈ (readThreads c s).used := by
  have hone : (1 : Unsigned) ∈ ((s.cpuid c 1).threads 1).used := List.mem_append_right _ (List.mem_singleton.2 rfl)
  cases hv' : s.info.cpuVendor with
  | intel =>
    rw [readThreads_intel hv']
    split
    · exact List.mem_append_left _ hone
    · exact hone
  | amd =>
    rw [readThreads_amd hv']
    split
    · split
      · exact List.mem_append_left _ (List.mem_append_left _ hone)
      · exact List.mem_append_left _ hone
    · exact hone
  | unknown => exact absurd hv' hv

theorem readAmdCaches_only : ∃ stores, (readAmdCaches c s).info = { s.info with cacheStores := stores } := by
  unfold readAmdCaches
  split
  · exact ⟨_, rfl⟩
  · exact ⟨_, rfl⟩

/-- The caches change nothing else, and no leaf is asked for that is not there. -/
theorem readCaches_ends (c : Cpuid) (s : CpuState) : ∃ s', (∀ fuel > maxCache, readCaches c fuel s = some s') ∧
    (∃ stores, s'.info = { s.info with cacheStores := stores }) ∧
    ∃ rest, s'.used = s.used ++ rest ∧ ∀ leaf ∈ rest, Within s.info.cpuidMax s.info.cpuidHighMax leaf := by
  unfold readCaches
  cases s.info.cpuVendor with
  | intel =>
    dsimp only
    split
    · rename_i h4
      obtain ⟨s', hs', hinfo, rest, hused, hrest⟩ := cacheLoop_ends (c := c) maxCache 0 s (Nat.zero_add _)
      refine ⟨s', hs', ⟨_, hinfo⟩, rest, hused, fun leaf hl => ?_⟩
      rw [hrest leaf hl]
      exact within_low h4 (by decide)
    · exact ⟨s, fun _ _ => rfl, ⟨_, rfl⟩, [], (List.append_nil _).symm, fun _ hl => absurd hl List.not_mem_nil⟩
  | amd =>
    refine ⟨_, fun _ _ => rfl, readAmdCaches_only, ?_⟩
    unfold readAmdCaches
    split
    · rename_i h6
      refine ⟨[0x80000005, 0x80000006], List.append_assoc _ _ _, fun leaf hl => ?_⟩
      rcases List.mem_cons.1 hl with rfl | hl
      · exact within_high _ h6 (by decide) (by decide)
      · rw [List.mem_singleton.1 hl]
        exact within_high _ h6 (by decide) (by decide)
    · exact ⟨[], (List.append_nil _).symm, fun _ hl => absurd hl List.not_mem_nil⟩
  | unknown => exact ⟨s, fun _ _ => rfl, ⟨_, rfl⟩, [], (List.append_nil _).symm, fun _ hl => absurd hl List.not_mem_nil⟩

/-! ## The order of the parts -/

theorem identify_info (c : Cpuid) : (identify c).info = { (readFamily c (readVendor c .start)).info with
    cpuidHighMax  := (c 0x80000000 0).eax
    processorName := (readName c (readHighMax c (readFamily c (readVendor c .start)))).info.processorName
    maxphyaddr    := if (c 0x80000000 0).eax ≥ 0x80000008 then (c 0x80000004 0).eax &&& 0xFF else 36 } := by
  have hname := readName_only c (readHighMax c (readFamily c (readVendor c .start)))
  have hmaxphyaddr := readMaxphyaddr_info c (readName c (readHighMax c (readFamily c (readVendor c .start))))
  rw [hname] at hmaxphyaddr
  exact hmaxphyaddr

theorem identify_max (c : Cpuid) : (identify c).info.cpuidMax = (c 0 0).eax := by
  rw [identify_info, readFamily_only]
  rfl

theorem identify_highMax (c : Cpuid) : (identify c).info.cpuidHighMax = (c 0x80000000 0).eax := by
  rw [identify_info]

theorem identify_vendor (c : Cpuid) : (identify c).info.cpuVendor = vendorOf (vendorStr (c 0 0)) := by
  rw [identify_info, readFamily_only]
  rfl

theorem kept_identify (c : Cpuid) : (identify c).Kept (c 0 0).eax (c 0x80000000 0).eax := by
  have hfamily : (readFamily c (readVendor c .start)).Kept (c 0 0).eax (c 0x80000000 0).eax :=
    kept_readFamily kept_readVendor rfl
  have hname := kept_readName (c := c) (kept_readHighMax (c := c) hfamily) rfl
  refine kept_readMaxphyaddr hname ?_
  rw [readName_only]
  rfl

/-! ## What the manuals say -/

/-- **The fields of `hw_info` by the manuals**, and the leaves by what the processor reports. -/
structure CpuRight (c : Cpuid) (s : CpuState) : Prop where
  family     : (c 0 0).eax ≥ 1 → s.info.cpuidFamily = manualFamily (c 1 0).eax
  maxphyaddr : s.info.maxphyaddr = manualMaxphyaddr c
  threads    : (c 0 0).eax ≥ 1 → s.info.threadsPerPackage.toNat = manualThreads c
  name       : (c 0x80000000 0).eax ≥ 0x80000004 → nameBytes s.info.processorName =
    leafBytes (c 0x80000002 0) ++ (leafBytes (c 0x80000003 0) ++ leafBytes (c 0x80000004 0))
  leaves     : ∀ leaf ∈ s.used, Within (c 0 0).eax (c 0x80000000 0).eax leaf

theorem threads_right (c : Cpuid) (hv : vendorOf (vendorStr (c 0 0)) ≠ .unknown) :
    (readThreads c (identify c)).info.threadsPerPackage.toNat = manualThreads c := by
  unfold manualThreads
  cases hv' : vendorOf (vendorStr (c 0 0)) with
  | intel =>
    rw [readThreads_intel ((identify_vendor c).trans hv'), identify_max]
    by_cases hb : isBitSet (c 1 0).edx 28
    · rw [if_pos hb]
      dsimp only
      by_cases h4 : (c 0 0).eax ≥ 4
      · rw [if_pos ⟨hb, h4⟩, if_pos h4]
        exact toNat_threads _ 26 6 (by decide)
      · rw [if_neg (fun h => h4 h.2), if_neg h4]
        rfl
    · rw [if_neg hb, if_neg (fun h => hb h.1)]
      rfl
  | amd =>
    rw [readThreads_amd ((identify_vendor c).trans hv'), identify_highMax]
    by_cases hb : isBitSet (c 1 0).edx 28
    · rw [if_pos hb]
      dsimp only
      by_cases h8 : (c 0x80000000 0).eax ≥ 0x80000008
      · rw [if_pos ⟨hb, h8⟩]
        by_cases hl : isBitSet (c 0x80000001 0).ecx 1
        · rw [if_pos hl, if_pos ⟨h8, hl⟩]
          exact toNat_threads _ 0 8 (by decide)
        · rw [if_neg hl, if_neg (fun h => hl h.2)]
          rfl
      · rw [if_neg (fun h => h8 h.2), if_neg (fun h => h8 h.1)]
        rfl
    · rw [if_neg hb, if_neg (fun h => hb h.1)]
      rfl
  | unknown => exact absurd hv' hv

theorem manual_byte (x : Unsigned) : x &&& 0xFF = bitsFromCnt x 0 8 := by
  rw [bitsFromCnt, BitVec.ushiftRight_zero]
  rfl

theorem maxphyaddr_right (c : Cpuid) : (identify c).info.maxphyaddr = manualMaxphyaddr c ↔
    ((c 0x80000000 0).eax ≥ 0x80000008 → bitsFromCnt (c 0x80000004 0).eax 0 8 = bitsFromCnt (c 0x80000008 0).eax 0 8) := by
  rw [identify_info, manualMaxphyaddr, manual_byte]
  dsimp only
  by_cases h8 : (c 0x80000000 0).eax ≥ 0x80000008
  · rw [if_pos h8, if_pos h8]
    exact ⟨fun h _ => h, fun h => h h8⟩
  · rw [if_neg h8, if_neg h8]
    exact ⟨fun _ h => absurd h h8, fun _ => rfl⟩

theorem family_right (c : Cpuid) (h1 : (c 0 0).eax ≥ 1)
    (hv : vendorOf (vendorStr (c 0 0)) ≠ .unknown) : (identify c).info.cpuidFamily = manualFamily (c 1 0).eax ↔
      (vendorOf (vendorStr (c 0 0)) = .intel → bitsFromCnt (c 1 0).eax 8 4 = 0x0F ∨ bitsFromCnt (c 1 0).eax 20 8 = 0) := by
  rw [identify_info]
  cases hv' : vendorOf (vendorStr (c 0 0)) with
  | intel =>
    dsimp only
    rw [readFamily_intel h1 hv', manualFamily, BitVec.add_right_inj]
    by_cases hf : bitsFromCnt (c 1 0).eax 8 4 = 0x0F
    · rw [if_pos hf]
      exact ⟨fun _ _ => .inl hf, fun _ => rfl⟩
    · rw [if_neg hf]
      exact ⟨fun h _ => .inr h, fun h => (h rfl).resolve_left hf⟩
  | amd => exact iff_of_true (readFamily_amd h1 hv') (fun h => nomatch h)
  | unknown => exact absurd hv' hv

/-- **What is known of a processor is what the manuals say, if leaf 1 is there, the extended family of an Intel processor is 0 or
counts, and leaf 0x80000004 happens to give the width of leaf 0x80000008.** -/
theorem cpu_right_iff (c : Cpuid)
    (hv : vendorStr (c 0 0) = genuineIntel ++ [0] ∨ vendorStr (c 0 0) = authenticAmd ++ [0]) :
    ∃ s, (∀ fuel > maxCache, cpuFeatures c fuel = some s) ∧
      (CpuRight c s ↔ (c 0 0).eax ≥ 1 ∧
        ((c 0x80000000 0).eax ≥ 0x80000008 → bitsFromCnt (c 0x80000004 0).eax 0 8 = bitsFromCnt (c 0x80000008 0).eax 0 8) ∧
        (vendorStr (c 0 0) = genuineIntel ++ [0] →
          bitsFromCnt (c 1 0).eax 8 4 = 0x0F ∨ bitsFromCnt (c 1 0).eax 20 8 = 0)) := by
  have hknown : vendorOf (vendorStr (c 0 0)) ≠ .unknown := by
    rcases hv with h | h <;> rw [h] <;> decide
  have hintel : vendorOf (vendorStr (c 0 0)) = .intel ↔ vendorStr (c 0 0) = genuineIntel ++ [0] := by
    rcases hv with h | h <;> rw [h] <;> decide
  obtain ⟨s, hs, ⟨stores, hinfo⟩, rest, hused, hrest⟩ := readCaches_ends c (readThreads c (identify c))
  have hcpu : s.info = { (identify c).info with
      threadsPerPackage := (readThreads c (identify c)).info.threadsPerPackage, cacheStores := stores } := by
    rw [hinfo]
    exact congrArg (fun i => { i with cacheStores := stores }) (readThreads_only c (identify c))
  have hmax := congrArg CpuInfo.cpuidMax (readThreads_only c (identify c))
  have hhigh := congrArg CpuInfo.cpuidHighMax (readThreads_only c (identify c))
  refine ⟨s, hs, fun h => ?_, fun ⟨h1, hw, hf⟩ => ?_⟩
  · have h1 : (c 0 0).eax ≥ 1 := by
      have hone : 1 ∈ s.used := by
        rw [hused]
        exact List.mem_append_left _ (one_mem_used ((identify_vendor c).symm ▸ hknown))
      rcases h.leaves 1 hone with h | h | h | h
      · exact absurd h (by decide)
      · exact absurd h (by decide)
      · exact h.2
      · exact absurd h.1 (by decide)
    have hfam := h.family h1
    have hphys := h.maxphyaddr
    rw [hcpu] at hfam hphys
    exact ⟨h1, (maxphyaddr_right c).1 hphys, fun hi => (family_right c h1 hknown).1 hfam (hintel.2 hi)⟩
  · refine ⟨fun _ => ?_, ?_, fun _ => ?_, fun h4 => ?_, fun leaf hl => ?_⟩
    · rw [hcpu]
      exact (family_right c h1 hknown).2 (fun hi => hf (hintel.1 hi))
    · rw [hcpu]
      exact (maxphyaddr_right c).2 hw
    · rw [hcpu]
      exact threads_right c hknown
    · rw [hcpu, identify_info]
      exact readName_name h4
    · rw [hused] at hl
      rcases List.mem_append.1 hl with hl | hl
      · exact kept_readThreads (kept_identify c) (identify_max c) (identify_highMax c) h1 leaf hl
      · have hwithin := hrest leaf hl
        rwa [hmax, hhigh, identify_max, identify_highMax] at hwithin

end

/-- A processor whose name ends with `CPU ` where leaf 0x80000008 says 40 bits. -/
def namedCpu : Cpuid := fun leaf _ =>
  if leaf = 0 then ⟨1, 0x756e6547, 0x6c65746e, 0x49656e69⟩
  else if leaf = 0x80000000 then ⟨0x80000008, 0, 0, 0⟩
  else if leaf = 0x80000004 then ⟨0x20555043, 0, 0, 0⟩
  else if leaf = 0x80000008 then ⟨0x3028, 0, 0, 0⟩
  else ⟨0, 0, 0, 0⟩

/-- 67 bits, the letter `C`. -/
theorem namedCpu_wrong : ∃ s, cpuFeatures namedCpu 1 = some s ∧ s.info.maxphyaddr = 67 ∧ ¬ CpuRight namedCpu s := by
  have hval : (cpuFeatures namedCpu 1).map (fun s => s.info.maxphyaddr) = some 67 := by decide
  obtain ⟨s, hs, h67⟩ := Option.map_eq_some_iff.1 hval
  refine ⟨s, hs, h67, fun h => ?_⟩
  have hmanual : manualMaxphyaddr namedCpu = 40 := by decide
  have hwrong := h.maxphyaddr
  rw [h67, hmanual] at hwrong
  exact absurd hwrong (by decide)

/-- An Intel processor with `n` caches of leaf 4. -/
def intelCpu (n line : Unsigned) : Cpuid := fun leaf ext =>
  if leaf = 0 then ⟨4, 0x756e6547, 0x6c65746e, 0x49656e69⟩
  else if leaf = 4 ∧ ext < n then ⟨0x21, line, 63, 0⟩
  else ⟨0, 0, 0, 0⟩

theorem cpu_right_intelCpu : ∃ s, (∀ fuel > maxCache, cpuFeatures (intelCpu 3 0x3F) fuel = some s) ∧
    CpuRight (intelCpu 3 0x3F) s := by
  obtain ⟨s, hs, h⟩ := cpu_right_iff (intelCpu 3 0x3F) (.inl (by decide))
  exact ⟨s, hs, h.2 ⟨by decide, fun h8 => absurd h8 (by decide), fun _ => .inr (by decide)⟩⟩

/-! ## The caches of a whole run -/

/-- **The caches are right if at most `MAX_CACHE` are there and no line is longer than 255 bytes.** -/
theorem caches_right_iff (c : Cpuid) (hv : vendorStr (c 0 0) = genuineIntel ++ [0]) (hmax : (c 0 0).eax ≥ 4) :
    ∃ s, (∀ fuel > maxCache, cpuFeatures c fuel = some s) ∧
      (CachesRight c s.info.cacheStores ↔
        (∃ u ≤ maxCache, cacheType (c 4 (BitVec.ofNat 32 u)) = 0) ∧
        ∀ u < maxCache, (∀ j ≤ u, cacheType (c 4 (BitVec.ofNat 32 j)) ≠ 0) →
          (bitsFromCnt (c 4 (BitVec.ofNat 32 u)).ebx 0 12).toNat + 1 < 2 ^ 8) := by
  have hvendor : (readThreads c (identify c)).info.cpuVendor = .intel := by
    rw [readThreads_only]
    exact (identify_vendor c).trans (hv ▸ by decide)
  have hfour : (readThreads c (identify c)).info.cpuidMax ≥ 4 := by
    rw [readThreads_only]
    exact (identify_max c).symm ▸ hmax
  have hnone : (readThreads c (identify c)).info.cacheStores = [] := by
    rw [readThreads_only, identify_info, readFamily_only]
    rfl
  obtain ⟨s, hs, hinfo, -⟩ := cacheLoop_ends (c := c) maxCache 0 (readThreads c (identify c)) (Nat.zero_add _)
  refine ⟨s, fun fuel hf => ?_, ?_⟩
  · unfold cpuFeatures readCaches
    rw [hvendor]
    exact (if_pos hfour).trans (hs fuel hf)
  · rw [hinfo, hnone]
    exact cachesRight_iff

theorem caches_right_intelCpu : ∃ s, (∀ fuel > maxCache, cpuFeatures (intelCpu 3 0x3F) fuel = some s) ∧
    CachesRight (intelCpu 3 0x3F) s.info.cacheStores := by
  obtain ⟨s, hs, h⟩ := caches_right_iff (intelCpu 3 0x3F) (by decide) (by decide)
  exact ⟨s, hs, h.2 (by decide)⟩

/-- With five caches of 256-byte lines the fifth is stored behind the array, and the line size is stored as 0. -/
theorem intelCpu_outside : ∃ s, cpuFeatures (intelCpu 5 0xFF) (maxCache + 1) = some s ∧
    (∃ w ∈ s.info.cacheStores, w.1 = maxCache) ∧ (∃ w ∈ s.info.cacheStores, w.1 < maxCache ∧ w.2.lineSize = 0) ∧
    ¬ CachesRight (intelCpu 5 0xFF) s.info.cacheStores := by
  have hval : (cpuFeatures (intelCpu 5 0xFF) (maxCache + 1)).map
      (fun s => s.info.cacheStores.map fun w => (w.1, w.2.lineSize)) =
      some [(0, 0), (1, 0), (2, 0), (3, 0), (4, 0)] := by decide
  obtain ⟨s, hs, hstores⟩ := Option.map_eq_some_iff.1 hval
  have hmem : ∀ x ∈ [((0 : Nat), (0 : BitVec 8)), (1, 0), (2, 0), (3, 0), (4, 0)],
      ∃ w ∈ s.info.cacheStores, (w.1, w.2.lineSize) = x := fun x hx => List.mem_map.1 (hstores.symm ▸ hx)
  obtain ⟨w, hw, hlast⟩ := hmem (4, 0) (by decide)
  obtain ⟨w₀, hw₀, hfirst⟩ := hmem (0, 0) (by decide)
  have h4 : w.1 = maxCache := congrArg Prod.fst hlast
  have h0 : w₀.1 = 0 := congrArg Prod.fst hfirst
  exact ⟨s, hs, ⟨w, hw, h4⟩, ⟨w₀, hw₀, h0 ▸ (show 0 < maxCache by decide), congrArg Prod.snd hfirst⟩,
    fun h => Nat.lt_irrefl _ (h4 ▸ h.inside w hw)⟩

end SmpBoot
