import SmpBoot.Config
import SmpBoot.Lib.CLayout
/-!
# HwInfo — the layout of `hw_info_t` in the two builds (`info_struct.h`)

`boot32.c`, compiled with `-m32`, fills the one `hw_info`; the kernel, compiled with `-m64`, reads the same bytes through
the same declaration.  Up to `pcie_cfg` the two layouts are one (`front_slots`).  `base_adr` is a `ptr_t`, 4 bytes here and 8
there, and everything from it on is read from the wrong bytes.
-/
namespace SmpBoot

open CLayout

/-- The scalar types of `hw_info_t`; `vendor_t` is an enumeration, kept in an `unsigned`. -/
inductive ScalarType where
  | u8
  | char
  | u16
  | u32
  | vendorT
  | ptrT
  deriving DecidableEq

/-- `sizeof`, which is also the alignment. -/
def ScalarType.bytes (b : Build) : ScalarType → Nat
  | .u8 | .char => 1
  | .u16 => 2
  | .u32 | .vendorT => 4
  | .ptrT => b.longBits / 8

/-- The fields of `hw_info_t`, those of its arrays with their index.  The union `cpuid_processor_name` is named by its
words `u32[12]`; its view `c[48]` is the same bytes one by one. -/
inductive HwField where
  | mbAdr
  | cmdMaxcpu
  | cmdCpumask
  | cmdNoacpi
  | cmdNomps
  | cpuidMax
  | cpuidHighMax
  | cpuidFamily
  | cpuidCachelinesize
  | cpuidLapicId
  | maxphyaddr
  | cpuVendor
  | cpuidProcessorName (i : Fin 12)
  | cpuidThreadsPerPackage
  | cacheLevel (i : Fin maxCache)
  | cacheType (i : Fin maxCache)
  | cacheSharedBy (i : Fin maxCache)
  | cacheLineSize (i : Fin maxCache)
  | cacheSize (i : Fin maxCache)
  | ebdaAdr
  | ebdaSize
  | cpuCnt
  | cpuLapicId (i : Fin maxCpu)
  | lapicAdr
  | busIsaId
  | ioapicCnt
  | ioapicId (i : Fin maxIoapic)
  | ioapicAdr (i : Fin maxIoapic)
  | pcieCnt
  | pcieBaseAdr (i : Fin maxPcie)
  | pcieGrpNbr (i : Fin maxPcie)
  | pcieBusStart (i : Fin maxPcie)
  | pcieBusEnd (i : Fin maxPcie)
  | tscPerUsec
  | usecPerMtsc
  deriving DecidableEq

def HwField.type : HwField → ScalarType
  | .cpuVendor => .vendorT
  | .cacheType _ => .char
  | .cacheLevel _ | .cacheSharedBy _ | .cacheLineSize _ | .pcieBusStart _ | .pcieBusEnd _ => .u8
  | .cpuidThreadsPerPackage | .pcieGrpNbr _ => .u16
  | .pcieBaseAdr _ => .ptrT
  | _ => .u32

def hwInfoFront : List (CType HwField) :=
  [.scalar .mbAdr,
   .scalar .cmdMaxcpu, .scalar .cmdCpumask, .scalar .cmdNoacpi, .scalar .cmdNomps,
   .scalar .cpuidMax, .scalar .cpuidHighMax, .scalar .cpuidFamily, .scalar .cpuidCachelinesize, .scalar .cpuidLapicId,
   .scalar .maxphyaddr, .scalar .cpuVendor,
   .array 12 fun i => .scalar (.cpuidProcessorName i),
   .scalar .cpuidThreadsPerPackage,
   .array maxCache fun i => .struct false
     [.scalar (.cacheLevel i), .scalar (.cacheType i), .scalar (.cacheSharedBy i), .scalar (.cacheLineSize i),
      .scalar (.cacheSize i)],
   .scalar .ebdaAdr, .scalar .ebdaSize,
   .scalar .cpuCnt,
   .array maxCpu fun i => .struct false [.scalar (.cpuLapicId i)],
   .scalar .lapicAdr,
   .scalar .busIsaId,
   .scalar .ioapicCnt,
   .array maxIoapic fun i => .struct false [.scalar (.ioapicId i), .scalar (.ioapicAdr i)],
   .scalar .pcieCnt]

def hwInfoBack : List (CType HwField) :=
  [.array maxPcie fun i => .struct false
     [.scalar (.pcieBaseAdr i), .scalar (.pcieGrpNbr i), .scalar (.pcieBusStart i), .scalar (.pcieBusEnd i)],
   .scalar .tscPerUsec, .scalar .usecPerMtsc]

/-- `hw_info_t`.  The attribute `packed` is on the outer structure only. -/
def hwInfoT : CType HwField := .struct true (hwInfoFront ++ hwInfoBack)

def hwAbi (b : Build) : Abi HwField where
  bytes f := f.type.bytes b
  align f := f.type.bytes b
  pos f   := by cases f.type <;> cases b <;> decide

def hwInfo (b : Build) : Layout (hwAbi b) := hwInfoT.layout (hwAbi b)

/-- The memory after `boot32.c` assigned the values `v` to the fields of `hw_info`; `m` is what was there before. -/
def bootStores (v : Assignment (hwAbi .b32)) (m : Bytes) : Bytes := (hwInfo .b32).store v m

/-- The value of a field as the 64-bit kernel reads it. -/
def kernelReads (m : Bytes) (f : HwField) : Nat := (hwInfo .b64).load m f

/-! ## The common front -/

def HwField.front : HwField → Bool
  | .pcieBaseAdr _ | .pcieGrpNbr _ | .pcieBusStart _ | .pcieBusEnd _ | .tscPerUsec | .usecPerMtsc => false
  | _ => true

def frontLayout (b : Build) : Layout (hwAbi b) := CType.place (hwAbi b) true hwInfoFront .empty

theorem front_slots : (frontLayout .b64).slots = (frontLayout .b32).slots := by decide +kernel

theorem front_start (b : Build) : (frontLayout b).slots <+: (hwInfo b).slots := by
  simp only [hwInfo, hwInfoT, CType.layout, CType.place_append]
  exact CType.place_start true hwInfoBack (frontLayout b)

theorem front_lookup (f : HwField) (hf : f.front = true) : ((frontLayout .b32).slots.lookup f).isSome = true := by
  revert hf
  cases f <;> decide +revert +kernel

theorem bytes_eq {f : HwField} (h : f.type ≠ .ptrT) : (hwAbi .b64).bytes f = (hwAbi .b32).bytes f := by
  show f.type.bytes .b64 = f.type.bytes .b32
  cases ht : f.type <;> first | rfl | exact absurd ht h

theorem front_type {f : HwField} (hf : f.front = true) : f.type ≠ .ptrT := by
  cases f <;> first | exact ScalarType.noConfusion | exact Bool.noConfusion hf

/-- **A field before `pcie_cfg` is read as it was stored.** -/
theorem kernelReads_front (v : Assignment (hwAbi .b32)) (m : Bytes) {f : HwField} (hf : f.front = true) :
    kernelReads (bootStores v m) f = (v f).toNat := by
  obtain ⟨o, ho⟩ := Option.isSome_iff_exists.1 (front_lookup f hf)
  have h32 := lookup_of_start (front_start .b32) ho
  have h64 := lookup_of_start (front_start .b64) (by rw [front_slots]; exact ho)
  rw [kernelReads, Layout.load, offset_of_lookup h64, Layout.loadAt, bytes_eq (front_type hf)]
  exact load_store (hwInfo .b32) v m (mem_of_lookup h32)

/-! ## From `base_adr` on

Offsets 230 to 245 hold, in the 32-bit build, `base_adr` (4 bytes), `grp_nbr` (2), `bus_start`, `bus_end`, `tsc_per_usec`
and `usec_per_mtsc`.  The kernel takes the first 8 of them for `base_adr`, the next 4 for the group and the buses, skips 4
bytes of padding, and finds the last two fields behind the object that `boot32.c` wrote. -/

def pcie0 : Fin maxPcie := ⟨0, by decide⟩

/-- The first six scalars from `base_adr` on, with their offsets in either build. -/
theorem back_offsets32 :
    ∀ s ∈ [(HwField.pcieBaseAdr pcie0, 230), (.pcieGrpNbr pcie0, 234), (.pcieBusStart pcie0, 236),
      (.pcieBusEnd pcie0, 237), (.tscPerUsec, 238), (.usecPerMtsc, 242)],
      (hwInfo .b32).slots.lookup s.1 = some s.2 := by decide +kernel

theorem back_offsets64 :
    ∀ s ∈ [(HwField.pcieBaseAdr pcie0, 230), (.pcieGrpNbr pcie0, 238), (.pcieBusStart pcie0, 240),
      (.pcieBusEnd pcie0, 241), (.tscPerUsec, 246), (.usecPerMtsc, 250)],
      (hwInfo .b64).slots.lookup s.1 = some s.2 := by decide +kernel

theorem size32 : (hwInfo .b32).size = 246 := by decide +kernel
theorem size64 : (hwInfo .b64).size = 254 := by decide +kernel

section
variable (v : Assignment (hwAbi .b32)) (m : Bytes)

theorem stored_back {s : HwField × Nat}
    (hs : s ∈ [(HwField.pcieBaseAdr pcie0, 230), (.pcieGrpNbr pcie0, 234), (.pcieBusStart pcie0, 236),
      (.pcieBusEnd pcie0, 237), (.tscPerUsec, 238), (.usecPerMtsc, 242)]) :
    le ((hwAbi .b32).bytes s.1) (fun i => bootStores v m (s.2 + i)) = (v s.1).toNat :=
  load_store (hwInfo .b32) v m (mem_of_lookup (back_offsets32 s hs))

theorem kernelReads_back {s : HwField × Nat}
    (hs : s ∈ [(HwField.pcieBaseAdr pcie0, 230), (.pcieGrpNbr pcie0, 238), (.pcieBusStart pcie0, 240),
      (.pcieBusEnd pcie0, 241), (.tscPerUsec, 246), (.usecPerMtsc, 250)]) (m' : Bytes) :
    kernelReads m' s.1 = le ((hwAbi .b64).bytes s.1) (fun i => m' (s.2 + i)) := by
  rw [kernelReads, Layout.load, offset_of_lookup (back_offsets64 s hs)]
  rfl

/-- **`base_adr` takes up `grp_nbr` and the bus numbers.** -/
theorem kernelReads_baseAdr : kernelReads (bootStores v m) (.pcieBaseAdr pcie0) =
    (v (.pcieBaseAdr pcie0)).toNat + 2 ^ 32 * ((v (.pcieGrpNbr pcie0)).toNat +
      2 ^ 16 * ((v (.pcieBusStart pcie0)).toNat + 2 ^ 8 * (v (.pcieBusEnd pcie0)).toNat)) := by
  rw [kernelReads_back (s := (.pcieBaseAdr pcie0, 230)) (by simp),
    ← stored_back v m (s := (.pcieBaseAdr pcie0, 230)) (by simp),
    ← stored_back v m (s := (.pcieGrpNbr pcie0, 234)) (by simp),
    ← stored_back v m (s := (.pcieBusStart pcie0, 236)) (by simp),
    ← stored_back v m (s := (.pcieBusEnd pcie0, 237)) (by simp)]
  show le (4 + (2 + (1 + 1))) _ = le 4 _ + 2 ^ 32 * (le 2 _ + 2 ^ 16 * (le 1 _ + 2 ^ 8 * le 1 _))
  rw [le_add_at 4, le_add_at 2, le_add_at 1]
  rfl

/-- **`grp_nbr` and the bus numbers are read out of `tsc_per_usec`.** -/
theorem kernelReads_grp : (v .tscPerUsec).toNat =
    kernelReads (bootStores v m) (.pcieGrpNbr pcie0) + 2 ^ 16 * (kernelReads (bootStores v m) (.pcieBusStart pcie0) +
      2 ^ 8 * kernelReads (bootStores v m) (.pcieBusEnd pcie0)) := by
  rw [kernelReads_back (s := (.pcieGrpNbr pcie0, 238)) (by simp),
    kernelReads_back (s := (.pcieBusStart pcie0, 240)) (by simp),
    kernelReads_back (s := (.pcieBusEnd pcie0, 241)) (by simp),
    ← stored_back v m (s := (.tscPerUsec, 238)) (by simp)]
  show le (2 + (1 + 1)) _ = le 2 _ + 2 ^ 16 * (le 1 _ + 2 ^ 8 * le 1 _)
  rw [le_add_at 2, le_add_at 1]
  rfl

/-- **The last two fields are read from behind the object that `boot32.c` wrote.** -/
theorem kernelReads_behind : kernelReads (bootStores v m) .tscPerUsec = le 4 (fun i => m ((hwInfo .b32).size + i)) ∧
    kernelReads (bootStores v m) .usecPerMtsc = le 4 (fun i => m ((hwInfo .b32).size + 4 + i)) := by
  rw [kernelReads_back (s := (.tscPerUsec, 246)) (by simp), kernelReads_back (s := (.usecPerMtsc, 250)) (by simp), size32]
  exact ⟨le_congr 4 (fun i _ => store_behind _ v m (by rw [size32]; exact Nat.le_add_right 246 i)),
    le_congr 4 (fun i _ => store_behind _ v m (by rw [size32]; omega))⟩

/-- The kernel reads in every field the value that `boot32.c` stored there. -/
def SameFields : Prop := ∀ f, kernelReads (bootStores v m) f = (v f).toNat

/-- Only the fields from `base_adr` on can differ. -/
theorem sameFields_iff_back : SameFields v m ↔
    kernelReads (bootStores v m) (.pcieBaseAdr pcie0) = (v (.pcieBaseAdr pcie0)).toNat ∧
    kernelReads (bootStores v m) (.pcieGrpNbr pcie0) = (v (.pcieGrpNbr pcie0)).toNat ∧
    kernelReads (bootStores v m) (.pcieBusStart pcie0) = (v (.pcieBusStart pcie0)).toNat ∧
    kernelReads (bootStores v m) (.pcieBusEnd pcie0) = (v (.pcieBusEnd pcie0)).toNat ∧
    kernelReads (bootStores v m) .tscPerUsec = (v .tscPerUsec).toNat ∧
    kernelReads (bootStores v m) .usecPerMtsc = (v .usecPerMtsc).toNat := by
  refine ⟨fun h => ⟨h _, h _, h _, h _, h _, h _⟩, fun ⟨hb, hg, hs, he, ht, hu⟩ f => ?_⟩
  -- the one index of `pcie_cfg`
  have h0 : ∀ i : Fin maxPcie, i = pcie0 := by decide
  by_cases hf : f.front = true
  · exact kernelReads_front v m hf
  · cases f with
    | pcieBaseAdr i => rw [h0 i]; exact hb
    | pcieGrpNbr i => rw [h0 i]; exact hg
    | pcieBusStart i => rw [h0 i]; exact hs
    | pcieBusEnd i => rw [h0 i]; exact he
    | tscPerUsec => exact ht
    | usecPerMtsc => exact hu
    | _ => exact absurd rfl hf

/-- **When the two builds agree on `hw_info`**: exactly when the PCI-Express group and bus numbers and `tsc_per_usec` are 0
and the 8 bytes behind the object already hold 0 and the value of `usec_per_mtsc`.  The sizes never agree. -/
theorem sameFields_iff : (SameFields v m ↔
      v (.pcieGrpNbr pcie0) = 0 ∧ v (.pcieBusStart pcie0) = 0 ∧ v (.pcieBusEnd pcie0) = 0 ∧ v .tscPerUsec = 0 ∧
      (∀ i < 4, m ((hwInfo .b32).size + i) = 0) ∧
      le 4 (fun i => m ((hwInfo .b32).size + 4 + i)) = (v .usecPerMtsc).toNat) ∧
    (hwInfo .b64).size = (hwInfo .b32).size + 8 := by
  refine ⟨?_, by rw [size32, size64]⟩
  have hb := kernelReads_baseAdr v m
  have hg := kernelReads_grp v m
  obtain ⟨ht, hu⟩ := kernelReads_behind v m
  have hz : ∀ {f}, v f = 0 ↔ (v f).toNat = 0 := fun {f} => BitVec.toNat_eq.trans (by simp)
  rw [sameFields_iff_back]
  simp only [hz, ← le_eq_zero, ← ht, ← hu]
  omega

end

/-- The fields as `get_info` initialises them. -/
def initialFields : Assignment (hwAbi .b32)
  | .cmdCpumask => 0xFFFFFFFF#32
  | .cmdMaxcpu  => BitVec.ofNat 32 maxCpu
  | .tscPerUsec => BitVec.ofNat 32 SmpBoot.tscPerUsec
  | _ => 0

/-- **The preset `tsc_per_usec` never arrives**: the kernel reads the zero that was behind the object. -/
theorem initialFields_differ :
    ¬ SameFields initialFields (fun _ => 0) ∧ (hwInfo .b64).size ≠ (hwInfo .b32).size := by
  refine ⟨fun h => ?_, by rw [size32, size64]; decide⟩
  have ht := h .tscPerUsec
  rw [(kernelReads_behind initialFields fun _ => 0).1] at ht
  exact absurd ht (by decide)

end SmpBoot
