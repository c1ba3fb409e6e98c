import SmpBoot.Boot32Bounds
/-!
# HwLists — what the entries of a table leave in `hw_info`

`cpu[]` and `ioapic[]` up to their counters are the enabled processors and the I/O APICs of the table, in its order
(`entries_lists`).
-/
namespace SmpBoot

open Walk

/-- `cpu[]` up to `cpu_cnt`. -/
def HwInfo.cpus (hw : HwInfo) : List Unsigned := hw.cpu.toList.take hw.cpuCnt.toNat

/-- `ioapic[]` up to `ioapic_cnt`. -/
def HwInfo.ioapics (hw : HwInfo) : List IoapicInfo := hw.ioapic.toList.take hw.ioapicCnt.toNat

def HwEntry.cpu? : HwEntry → Option Unsigned
  | .cpu lapicId => some (lapicId.setWidth 32)
  | _            => none

def HwEntry.ioapic? : HwEntry → Option IoapicInfo
  | .ioapic id adr => some ⟨id.setWidth 32, adr⟩
  | _              => none

structure HwInfo.Lists (hw : HwInfo) (cpus : List Unsigned) (ioapics : List IoapicInfo) : Prop where
  cpuCnt    : hw.cpuCnt.toNat = cpus.length
  cpus      : hw.cpus = cpus
  ioapicCnt : hw.ioapicCnt.toNat = ioapics.length
  ioapics   : hw.ioapics = ioapics

theorem HwInfo.Lists.begin (hw : HwInfo) (lapicAdr : Unsigned) : (hw.begin lapicAdr).Lists [] [] :=
  ⟨rfl, rfl, rfl, rfl⟩

theorem take_set_succ {α : Type} (l : List α) {n : Nat} (h : n < l.length) (x : α) :
    (l.set n x).take (n + 1) = l.take n ++ [x] := by
  rw [List.take_add_one, List.take_set_of_le (Nat.le_refl n), List.getElem?_set_self h]
  rfl

/-- **An entry goes to the end of its list.** -/
theorem HwInfo.Lists.add {hw hw' : HwInfo} {cpus : List Unsigned} {ioapics : List IoapicInfo} (h : hw.Lists cpus ioapics)
    {e : HwEntry} (ha : hw.add e = .ok hw') : hw'.Lists (cpus ++ e.cpu?.toList) (ioapics ++ e.ioapic?.toList) := by
  cases e with
  | cpu lapicId =>
    simp only [HwInfo.add, addCpu] at ha
    split at ha
    · rename_i hlt
      cases ha
      have hcnt : (hw.cpuCnt + 1).toNat = hw.cpuCnt.toNat + 1 := toNat_inc hlt (by decide)
      refine ⟨?_, ?_, by simpa [HwEntry.ioapic?] using h.ioapicCnt,
        by simpa [HwEntry.ioapic?, HwInfo.ioapics] using h.ioapics⟩
      · simp only [hcnt, h.cpuCnt, HwEntry.cpu?, Option.toList_some, List.length_append, List.length_singleton]
      · simp only [HwInfo.cpus, hcnt, HwEntry.cpu?, Option.toList_some, Vector.toList_set]
        rw [take_set_succ _ (by simpa using hlt)]
        exact congrArg (· ++ _) h.cpus
    · cases ha
  | ioapic id adr =>
    simp only [HwInfo.add, addIoapic] at ha
    split at ha
    · rename_i hlt
      cases ha
      have hcnt : (hw.ioapicCnt + 1).toNat = hw.ioapicCnt.toNat + 1 := toNat_inc hlt (by decide)
      refine ⟨by simpa [HwEntry.cpu?] using h.cpuCnt, by simpa [HwEntry.cpu?, HwInfo.cpus] using h.cpus, ?_, ?_⟩
      · simp only [hcnt, h.ioapicCnt, HwEntry.ioapic?, Option.toList_some, List.length_append, List.length_singleton]
      · simp only [HwInfo.ioapics, hcnt, HwEntry.ioapic?, Option.toList_some, Vector.toList_set]
        rw [take_set_succ _ (by simpa using hlt)]
        exact congrArg (· ++ _) h.ioapics
    · cases ha
  | pcie cfg =>
    simp only [HwInfo.add, addPcie] at ha
    split at ha
    · cases ha
      simp only [HwEntry.cpu?, HwEntry.ioapic?, Option.toList_none, List.append_nil]
      exact ⟨h.cpuCnt, h.cpus, h.ioapicCnt, h.ioapics⟩
    · cases ha
  | other =>
    cases ha
    simpa [HwEntry.cpu?, HwEntry.ioapic?] using h

/-- **The entries of a table leave their lists behind.** -/
theorem HwInfo.Lists.foldlM : ∀ (es : List HwEntry) {hw hw' : HwInfo} {cpus : List Unsigned} {ioapics : List IoapicInfo},
    hw.Lists cpus ioapics → es.foldlM HwInfo.add hw = .ok hw' →
    hw'.Lists (cpus ++ es.filterMap HwEntry.cpu?) (ioapics ++ es.filterMap HwEntry.ioapic?)
  | [],      _, _, _, _, h, hf => by cases hf; simpa using h
  | e :: es, hw, hw', cpus, ioapics, h, hf => by
    rw [List.foldlM_cons] at hf
    cases ha : hw.add e with
    | error x => rw [ha] at hf; cases hf
    | ok b =>
      rw [ha] at hf
      have := HwInfo.Lists.foldlM es (h.add ha) hf
      rw [List.append_assoc, List.append_assoc] at this
      have hc : e.cpu?.toList ++ es.filterMap HwEntry.cpu? = (e :: es).filterMap HwEntry.cpu? := by
        rw [List.filterMap_cons]
        cases e.cpu? <;> rfl
      have hi : e.ioapic?.toList ++ es.filterMap HwEntry.ioapic? = (e :: es).filterMap HwEntry.ioapic? := by
        rw [List.filterMap_cons]
        cases e.ioapic? <;> rfl
      rwa [hc, hi] at this

theorem goTo_cpu (es : List HwEntry) : goTo HwEntry.array .cpu es = (es.filterMap HwEntry.cpu?).length := by
  rw [goTo, List.length_filterMap_eq_countP]
  congr 1
  funext e
  cases e <;> rfl

theorem goTo_ioapic (es : List HwEntry) : goTo HwEntry.array .ioapic es = (es.filterMap HwEntry.ioapic?).length := by
  rw [goTo, List.length_filterMap_eq_countP]
  congr 1
  funext e
  cases e <;> rfl

/-- Entries without PCI-Express configuration spaces, from the beginning of a table. -/
theorem entries_lists (hw : HwInfo) (lapicAdr : Unsigned) {es : List HwEntry} (hp : goTo HwEntry.array .pcieCfg es = 0)
    (hcpu : (es.filterMap HwEntry.cpu?).length ≤ maxCpu) (hio : (es.filterMap HwEntry.ioapic?).length ≤ maxIoapic) :
    ∃ hw', es.foldlM HwInfo.add (hw.begin lapicAdr) = .ok hw' ∧ hw'.lapicAdr = lapicAdr ∧
      hw'.Lists (es.filterMap HwEntry.cpu?) (es.filterMap HwEntry.ioapic?) := by
  obtain ⟨hw', hok, -⟩ := HwInfo.add_fills.foldlM_ok es (a := hw.begin lapicAdr) (fun arr harr => by
    cases arr with
    | pcieCfg => exact absurd hp harr
    | cpu => rw [goTo_cpu]; show 0 + _ ≤ _; rw [Nat.zero_add]; exact hcpu
    | ioapic => rw [goTo_ioapic]; show 0 + _ ≤ _; rw [Nat.zero_add]; exact hio)
  have hl := (HwInfo.Lists.begin hw lapicAdr).foldlM es hok
  exact ⟨hw', hok, (HwInfo.foldlM_sameHead hok).lapic, by simpa using hl⟩

/-! ## The two parsers -/

section
variable {mem : Memory} {hw hw' : HwInfo} {fuel : Nat} {t config : Unsigned}

theorem readMadt_eq (ht : checkSum mem t (hdrLength mem t).toNat = 0) : readMadt mem fuel t hw =
    ((madtEntries mem t fuel).foldlM HwInfo.add (hw.begin (mem.u32 (t + 36))) >>= fun hw' =>
      if (madtEntries mem t fuel).length < fuel then .ok hw' else .error .looping) := by
  rw [readMadt, if_neg (not_not.2 ht), madtLoop_eq]
  exact each_eq fuel 0 _

theorem readMadt_lists (ht : checkSum mem t (hdrLength mem t).toNat = 0) (h : readMadt mem fuel t hw = .ok hw') :
    hw'.Lists ((madtEntries mem t fuel).filterMap HwEntry.cpu?) ((madtEntries mem t fuel).filterMap HwEntry.ioapic?) := by
  rw [readMadt_eq ht] at h
  cases hf : (madtEntries mem t fuel).foldlM HwInfo.add (hw.begin (mem.u32 (t + 36))) with
  | error x => rw [hf] at h; cases h
  | ok b =>
    rw [hf] at h
    have hl := (HwInfo.Lists.begin hw (mem.u32 (t + 36))).foldlM _ hf
    have hb : (if (madtEntries mem t fuel).length < fuel then Except.ok b else .error BootStop.looping) = .ok hw' := h
    split at hb
    · cases hb
      simpa using hl
    · cases hb

/-- A MADT that ends, with room for its entries. -/
theorem readMadt_ok (ht : checkSum mem t (hdrLength mem t).toNat = 0) (hend : (madtEntries mem t fuel).length < fuel)
    (hcpu : ((madtEntries mem t fuel).filterMap HwEntry.cpu?).length ≤ maxCpu)
    (hio : ((madtEntries mem t fuel).filterMap HwEntry.ioapic?).length ≤ maxIoapic) :
    ∃ hw', readMadt mem fuel t hw = .ok hw' ∧ hw'.lapicAdr = mem.u32 (t + 36) ∧
      hw'.Lists ((madtEntries mem t fuel).filterMap HwEntry.cpu?) ((madtEntries mem t fuel).filterMap HwEntry.ioapic?) := by
  obtain ⟨hw', hok, hl⟩ := entries_lists hw (mem.u32 (t + 36)) (madtEntries_pcie mem t fuel) hcpu hio
  refine ⟨hw', ?_, hl⟩
  rw [readMadt_eq ht, hok]
  exact if_pos hend

theorem readMps_eq (hc : findConfig mem hw = some config) (hx : checkSum mem config (extdLen mem config) = 0) :
    readMps mem hw = (mpsEntries mem config).foldlM HwInfo.add (hw.begin (mem.u32 (config + 36))) := by
  rw [readMps, hc]
  show (if checkSum mem config (extdLen mem config) ≠ 0 then _ else _) = _
  rw [if_neg (not_not.2 hx), mpsLoop_eq]
  rfl

theorem readMps_lists (hc : findConfig mem hw = some config) (hx : checkSum mem config (extdLen mem config) = 0)
    (h : readMps mem hw = .ok hw') :
    hw'.Lists ((mpsEntries mem config).filterMap HwEntry.cpu?) ((mpsEntries mem config).filterMap HwEntry.ioapic?) := by
  rw [readMps_eq hc hx] at h
  simpa using (HwInfo.Lists.begin hw (mem.u32 (config + 36))).foldlM _ h

theorem readMps_ok (hc : findConfig mem hw = some config) (hx : checkSum mem config (extdLen mem config) = 0)
    (hcpu : ((mpsEntries mem config).filterMap HwEntry.cpu?).length ≤ maxCpu)
    (hio : ((mpsEntries mem config).filterMap HwEntry.ioapic?).length ≤ maxIoapic) :
    ∃ hw', readMps mem hw = .ok hw' ∧ hw'.lapicAdr = mem.u32 (config + 36) ∧
      hw'.Lists ((mpsEntries mem config).filterMap HwEntry.cpu?) ((mpsEntries mem config).filterMap HwEntry.ioapic?) := by
  rw [readMps_eq hc hx]
  exact entries_lists hw (mem.u32 (config + 36)) (mpsEntries_pcie mem config) hcpu hio

end

end SmpBoot
