import SmpBoot.ApicInit
import SmpBoot.HwLists
/-!
# StartIpis — to whom `apic_init` sends the start-up IPIs

The parsers keep the ids of the enabled processors in table order; `apic_init` takes the first of them for the boot
processor, starts the others, and takes `cmd_maxcpu` and `cmd_cpumask` for conditions on the index.
-/
namespace SmpBoot

open Walk

/-! ## The processors of a table -/

/-- The entry that begins at offset `i` into the entry area, and the offset behind it. -/
def madtPlaceNext (mem : Memory) (madt i : Unsigned) : Option (Unsigned × Unsigned) :=
  if offApicStructs + i < hdrLength mem madt then
    some (madt + offApicStructs + i, i + (mem (madt + offApicStructs + i + 1)).setWidth 32)
  else none

def madtPlaces (mem : Memory) (madt : Unsigned) (n : Nat) : List Unsigned := take (madtPlaceNext mem madt) n 0

def mpsPlacesAt (mem : Memory) : Nat → Unsigned → List Unsigned
  | 0,     _    => []
  | n + 1, type => type :: mpsPlacesAt mem n (type + mpsEntrySize mem type)

def mpsPlaces (mem : Memory) (config : Unsigned) : List Unsigned :=
  mpsPlacesAt mem (cntOem mem config) (config + sizeofMpsConfig)

/-- The local APIC id of a processor, and whether it is enabled. -/
abbrev Processor := BitVec 8 × Bool

def madtProcessor? (mem : Memory) (entry : Unsigned) : Option Processor :=
  if mem entry = madtTypeLapic then some (mem (entry + 3), (mem (entry + 4)).getLsbD 0) else none

def mpsProcessor? (mem : Memory) (type : Unsigned) : Option Processor :=
  if mem type = 0 then some (mem (type + 1), (mem (type + 3)).getLsbD 0) else none

def enabledIds (ps : List Processor) : List (BitVec 8) := ps.filterMap fun p => if p.2 then some p.1 else none

/-- No two enabled processors have the same id, and no disabled one that of an enabled one. -/
structure Distinct (ps : List Processor) : Prop where
  enabled  : (enabledIds ps).Nodup
  disabled : ∀ id, (id, false) ∈ ps → id ∉ enabledIds ps

/-- A table with these processors has been read. -/
inductive Accepts (mem : Memory) : List Processor → HwInfo → Prop
  | madt {t : Unsigned} {fuel : Nat} {hw hw' : HwInfo} (sum : checkSum mem t (hdrLength mem t).toNat = 0)
      (read : readMadt mem fuel t hw = .ok hw') : Accepts mem ((madtPlaces mem t fuel).filterMap (madtProcessor? mem)) hw'
  | mps {config : Unsigned} {hw hw' : HwInfo} (found : findConfig mem hw = some config)
      (extd : checkSum mem config (extdLen mem config) = 0) (read : readMps mem hw = .ok hw') :
      Accepts mem ((mpsPlaces mem config).filterMap (mpsProcessor? mem)) hw'

theorem madtEntries_eq (mem : Memory) (t : Unsigned) (n : Nat) :
    madtEntries mem t n = (madtPlaces mem t n).map (madtEntry mem) := by
  rw [madtEntries, madtPlaces, ← take_map]
  congr 1
  funext i
  unfold madtNext madtPlaceNext
  split <;> rfl

theorem mpsEntriesAt_eq (mem : Memory) : ∀ (n : Nat) (type : Unsigned),
    mpsEntriesAt mem n type = (mpsPlacesAt mem n type).map (mpsEntry mem)
  | 0,     _ => rfl
  | n + 1, type => by rw [mpsEntriesAt, mpsPlacesAt, List.map_cons, mpsEntriesAt_eq mem n]

theorem enabledIds_eq {entry : Unsigned → HwEntry} {processor? : Unsigned → Option Processor}
    (h : ∀ e, (entry e).cpu? = (processor? e).bind fun p => if p.2 then some (p.1.setWidth 32) else none)
    (es : List Unsigned) : (es.map entry).filterMap HwEntry.cpu? =
      (enabledIds (es.filterMap processor?)).map (·.setWidth 32) := by
  rw [List.filterMap_map, enabledIds, List.filterMap_filterMap, List.map_filterMap]
  congr 1
  funext e
  rw [Function.comp_apply, h e]
  cases processor? e with
  | none => rfl
  | some p => cases hp : p.2 <;> simp [hp]

/-- **`cpu[]` is the list of the enabled processors.** -/
theorem Accepts.cpus {mem : Memory} {ps : List Processor} {hw : HwInfo} (h : Accepts mem ps hw) :
    hw.cpuCnt.toNat = (enabledIds ps).length ∧ hw.cpus = (enabledIds ps).map (·.setWidth 32) := by
  cases h with
  | madt sum read =>
    have hl := readMadt_lists sum read
    rw [madtEntries_eq, @enabledIds_eq _ (madtProcessor? mem) (fun e => ?_)] at hl
    · exact ⟨hl.cpuCnt.trans (List.length_map _), hl.cpus⟩
    · unfold madtEntry madtProcessor?
      split
      · rw [Option.bind_some]
        split <;> rfl
      · split <;> rfl
  | mps found extd read =>
    have hl := readMps_lists found extd read
    rw [mpsEntries, mpsEntriesAt_eq, @enabledIds_eq _ (mpsProcessor? mem) (fun e => ?_)] at hl
    · exact ⟨hl.cpuCnt.trans (List.length_map _), hl.cpus⟩
    · unfold mpsEntry mpsProcessor?
      split
      · rw [Option.bind_some]
        split <;> rfl
      · split
        · split <;> rfl
        · rfl

/-! ## The loop -/

inductive IpiKind where
  | init
  | startup
  deriving DecidableEq

structure Ipi where
  dest : BitVec 8
  kind : IpiKind
  deriving DecidableEq

/-- The destination that `lapic_id << 24` puts into `LAPIC_ICR_HIGH`. -/
def icrDest (lapicId : Unsigned) : BitVec 8 := (lapicId <<< 24).extractLsb' 24 8

/-- INIT and two SIPIs. -/
def startOne (dest : BitVec 8) : List Ipi := [⟨dest, .init⟩, ⟨dest, .startup⟩, ⟨dest, .startup⟩]

/-- The IPIs of the loop of `apic_init`. -/
def startIpis (cfg : ApCfg) (hw : HwInfo) : List Ipi :=
  (List.range' 1 (cfg.cpuCnt - 1)).flatMap fun u =>
    if cfg.selected u then startOne (icrDest (hw.cpu.toList.getD u 0)) else []

/-- The processor with index `b` among the enabled ones is the boot processor. -/
structure StartsRight (cfg : ApCfg) (ps : List Processor) (b : Nat) (ipis : List Ipi) : Prop where
  enabled  : ∀ u id, (enabledIds ps)[u]? = some id →
    ipis.filter (fun x => x.dest = id) = if cfg.selected u = true ∧ u ≠ b then startOne id else []
  disabled : ∀ id, (id, false) ∈ ps → ipis.filter (fun x => x.dest = id) = []

theorem icrDest_setWidth (id : BitVec 8) : icrDest (id.setWidth 32) = id := by
  refine BitVec.eq_of_toNat_eq ?_
  have := id.isLt
  simp only [icrDest, BitVec.extractLsb'_toNat, BitVec.toNat_shiftLeft, BitVec.toNat_setWidth, Nat.shiftLeft_eq,
    Nat.shiftRight_eq_div_pow]
  omega

theorem filter_startOne (dest id : BitVec 8) :
    (startOne dest).filter (fun x => x.dest = id) = if dest = id then startOne id else [] := by
  by_cases h : dest = id
  · subst h; simp [startOne]
  · simp [startOne, h]

/-- Of a list without repetitions, one element counts. -/
theorem flatMap_only {α : Type} {l : List Nat} (h : l.Nodup) (u : Nat) (xs : List α) :
    (l.flatMap fun v => if v = u then xs else []) = if u ∈ l then xs else [] := by
  induction l with
  | nil => rfl
  | cons v l ih =>
    obtain ⟨hv, hl⟩ := List.nodup_cons.1 h
    rw [List.flatMap_cons, ih hl]
    by_cases huv : v = u
    · subst huv
      simp [hv]
    · simp [huv, Ne.symm huv]

section Ipis
variable {cfg : ApCfg} {ps : List Processor} {mem : Memory} {hw : HwInfo}

theorem Accepts.dest (h : Accepts mem ps hw) {u : Nat} {id : BitVec 8} (hu : (enabledIds ps)[u]? = some id) :
    icrDest (hw.cpu.toList.getD u 0) = id := by
  obtain ⟨hcnt, hcpus⟩ := h.cpus
  obtain ⟨hlt, -⟩ := List.getElem?_eq_some_iff.1 hu
  have hget : hw.cpus[u]? = some (id.setWidth 32) := by rw [hcpus, List.getElem?_map, hu]; rfl
  rw [HwInfo.cpus, List.getElem?_take_of_lt (by omega)] at hget
  rw [List.getD_eq_getElem?_getD, hget, Option.getD_some, icrDest_setWidth]

/-- What the loop sends to one destination. -/
theorem startIpis_filter (h : Accepts mem ps hw) (hcfg : cfg.cpuCnt = hw.cpuCnt.toNat) (id : BitVec 8) :
    (startIpis cfg hw).filter (fun x => x.dest = id) = (List.range' 1 (cfg.cpuCnt - 1)).flatMap fun v =>
      if cfg.selected v = true ∧ (enabledIds ps)[v]? = some id then startOne id else [] := by
  rw [startIpis, List.filter_flatMap, List.flatMap_def, List.flatMap_def]
  congr 1
  refine List.map_congr_left (fun v hv => ?_)
  rw [List.mem_range'_1] at hv
  have hlt : v < (enabledIds ps).length := by
    rw [← h.cpus.1]
    omega
  have hd := h.dest (List.getElem?_eq_getElem hlt)
  rw [List.getElem?_eq_getElem hlt, hd]
  simp only [Option.some.injEq]
  by_cases hs : cfg.selected v = true
  · simp only [hs, if_true, true_and]
    exact filter_startOne _ _
  · simp [hs]

/-- The loop starts the selected ones of index 1 and above. -/
theorem startIpis_enabled (h : Accepts mem ps hw) (hcfg : cfg.cpuCnt = hw.cpuCnt.toNat) (hnd : (enabledIds ps).Nodup)
    {u : Nat} {id : BitVec 8} (hu : (enabledIds ps)[u]? = some id) : (startIpis cfg hw).filter (fun x => x.dest = id) =
      if cfg.selected u = true ∧ u ≠ 0 then startOne id else [] := by
  obtain ⟨hlt, hget⟩ := List.getElem?_eq_some_iff.1 hu
  have honly : ∀ v, (enabledIds ps)[v]? = some id ↔ v = u := by
    intro v
    constructor
    · intro hv
      obtain ⟨hltv, hgetv⟩ := List.getElem?_eq_some_iff.1 hv
      exact (List.Nodup.getElem_inj_iff hnd).1 (hgetv.trans hget.symm)
    · rintro rfl
      exact hu
  rw [startIpis_filter h hcfg]
  have hfun : (fun v => if cfg.selected v = true ∧ (enabledIds ps)[v]? = some id then startOne id else []) =
      fun v => if v = u then if cfg.selected u = true then startOne id else [] else [] := by
    funext v
    simp only [honly v]
    by_cases hv : v = u
    · subst hv; simp
    · simp [hv]
  have hcnt := h.cpus.1
  rw [hfun, flatMap_only List.nodup_range']
  by_cases hu0 : u = 0
  · subst hu0; simp
  · rw [if_pos (List.mem_range'_1.2 ⟨by omega, by omega⟩)]
    simp [hu0]

theorem startIpis_disabled (h : Accepts mem ps hw) (hcfg : cfg.cpuCnt = hw.cpuCnt.toNat) {id : BitVec 8}
    (hid : id ∉ enabledIds ps) : (startIpis cfg hw).filter (fun x => x.dest = id) = [] := by
  have hnot : ∀ v : Nat, (enabledIds ps)[v]? ≠ some id := fun v hv => hid (List.mem_of_getElem? hv)
  rw [startIpis_filter h hcfg]
  simp [hnot]

end Ipis

/-- **The right processors are started exactly if the boot processor is the first enabled one, or neither it nor the first
is selected.** -/
theorem startsRight_iff {mem : Memory} {ps : List Processor} {hw : HwInfo} (h : Accepts mem ps hw)
    (hnd : Distinct ps) (cfg : ApCfg) (hcfg : cfg.cpuCnt = hw.cpuCnt.toNat) {b : Nat}
    (hb : b < (enabledIds ps).length) :
    StartsRight cfg ps b (startIpis cfg hw) ↔ b = 0 ∨ (cfg.selected 0 = false ∧ cfg.selected b = false) := by
  have hne : ∀ id, startOne id ≠ [] := fun id => List.cons_ne_nil _ _
  constructor
  · intro hr
    by_cases hb0 : b = 0
    · exact .inl hb0
    · have h0 := hr.enabled 0 _ (List.getElem?_eq_getElem (Nat.lt_of_le_of_lt (Nat.zero_le b) hb))
      have h1 := hr.enabled b _ (List.getElem?_eq_getElem hb)
      rw [startIpis_enabled h hcfg hnd.enabled (List.getElem?_eq_getElem _)] at h0 h1
      refine .inr ⟨?_, ?_⟩
      · by_contra hs
        rw [Bool.not_eq_false] at hs
        simp [hs, Ne.symm hb0, hne] at h0
      · by_contra hs
        rw [Bool.not_eq_false] at hs
        simp [hs, hb0, hne] at h1
  · intro hc
    refine ⟨fun u id hu => ?_, fun id hid => startIpis_disabled h hcfg (hnd.disabled id hid)⟩
    rw [startIpis_enabled h hcfg hnd.enabled hu]
    rcases hc with rfl | ⟨h0, h1⟩
    · rfl
    · by_cases hu0 : u = 0
      · subst hu0; simp [h0]
      · by_cases hub : u = b
        · subst hub; simp [h1]
        · simp [hu0, hub]

/-- A MADT with the enabled processors 1 and 0 in this order, the disabled processor 3 and an I/O APIC. -/
def apFirst : Memory := memoryOf
  [(0x2000, [0x41, 0x50, 0x49, 0x43, 80, 0, 0, 0, 1, 0xc5]),
   (0x2024, [0, 0, 0xE0, 0xFE, 1, 0, 0, 0]),
   (0x202C, [0, 8, 0, 1, 1, 0, 0, 0]),
   (0x2034, [0, 8, 1, 3, 0, 0, 0, 0]),
   (0x203C, [0, 8, 2, 0, 1, 0, 0, 0]),
   (0x2044, [1, 12, 2, 0, 0, 0, 0xC0, 0xFE, 0, 0, 0, 0])]

def apFirstInfo : HwInfo :=
  { (HwInfo.initial apFirst 0 0).begin 0xFEE00000 with
    cpuCnt := 2, cpu := (Vector.replicate maxCpu 0).set 0 1 maxCpu_pos
    ioapicCnt := 1, ioapic := .replicate _ ⟨2, 0xFEC00000⟩ }

theorem apFirst_accepts : Accepts apFirst [(1, true), (3, false), (0, true)] apFirstInfo :=
  (show (madtPlaces apFirst 0x2000 6).filterMap (madtProcessor? apFirst) = [(1, true), (3, false), (0, true)] by
    decide +kernel) ▸ @Accepts.madt apFirst 0x2000 6 (.initial apFirst 0 0) _ (by decide +kernel) (by decide +kernel)

theorem startsRight_iff_apFirst :
    StartsRight twoCpuCfg [(1, true), (3, false), (0, true)] 0 (startIpis twoCpuCfg apFirstInfo) ↔
      0 = 0 ∨ (twoCpuCfg.selected 0 = false ∧ twoCpuCfg.selected 0 = false) :=
  startsRight_iff apFirst_accepts ⟨by decide, by decide⟩ twoCpuCfg rfl (by decide)

/-- The boot processor is the one with the id 0: it gets the IPIs, and the AP before it gets none. -/
theorem startIpis_boot : Accepts apFirst [(1, true), (3, false), (0, true)] apFirstInfo ∧
    startIpis twoCpuCfg apFirstInfo = startOne 0 ∧
    ¬StartsRight twoCpuCfg [(1, true), (3, false), (0, true)] 1 (startIpis twoCpuCfg apFirstInfo) :=
  ⟨apFirst_accepts, by decide, fun h => absurd (h.enabled 1 0 rfl) (by decide)⟩

end SmpBoot
