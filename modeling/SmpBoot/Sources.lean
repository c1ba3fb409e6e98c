import SmpBoot.Tables
/-!
# Sources — where the local APIC address, the CPUs and the I/O APICs come from

What `get_info` knows of them is at any time what one table says, or nothing (`readRsdt_from`): a MADT replaces all of it.
The code between `skip_acpi` and `skip_mps` stores `lapic_adr` before its last check, so that a configuration table with a
wrong extended checksum leaves its address behind, beside the lists of a MADT that gave none.
-/
namespace SmpBoot

open Walk

/-- What a table says of the three. -/
structure InfoSource where
  lapicAdr : Unsigned
  cpus     : List Unsigned
  ioapics  : List IoapicInfo

namespace InfoSource

/-- After the `memset`. -/
def nothing : InfoSource := ⟨0, [], []⟩

/-- One processor, as from the label `skip_mps` on. -/
def fallback : InfoSource := ⟨0xfee00000, [0], []⟩

def madt (mem : Memory) (fuel : Nat) (t : Unsigned) : InfoSource where
  lapicAdr := mem.u32 (t + 36)
  cpus     := (madtEntries mem t fuel).filterMap HwEntry.cpu?
  ioapics  := (madtEntries mem t fuel).filterMap HwEntry.ioapic?

def mps (mem : Memory) (config : Unsigned) : InfoSource where
  lapicAdr := mem.u32 (config + 36)
  cpus     := (mpsEntries mem config).filterMap HwEntry.cpu?
  ioapics  := (mpsEntries mem config).filterMap HwEntry.ioapic?

/-- What is known after a table of the RSDT. -/
def after (mem : Memory) (fuel : Nat) (src : InfoSource) (t : Unsigned) : InfoSource :=
  if IsMadt mem t then madt mem fuel t else src

end InfoSource

/-- The three are what the source says. -/
structure HwInfo.From (hw : HwInfo) (src : InfoSource) : Prop where
  lapicAdr : hw.lapicAdr = src.lapicAdr
  lists    : hw.Lists src.cpus src.ioapics

section
variable {mem : Memory} {fuel : Nat} {hw hw' : HwInfo} {src : InfoSource} {t config : Unsigned}

/-! ## The tables of the RSDT -/

theorem readMadt_from (ht : IsMadt mem t) (h : readMadt mem fuel t hw = .ok hw') : hw'.From (.madt mem fuel t) := by
  constructor
  · rw [readMadt_eq ht.2] at h
    cases hf : (madtEntries mem t fuel).foldlM HwInfo.add (hw.begin (mem.u32 (t + 36))) with
    | error x => rw [hf] at h; cases h
    | ok b =>
      rw [hf] at h
      have hb : (if (madtEntries mem t fuel).length < fuel then Except.ok b else .error BootStop.looping) = .ok hw' := h
      split at hb
      · cases hb
        exact (HwInfo.foldlM_sameHead hf).lapic
      · cases hb
  · exact readMadt_lists ht.2 h

theorem mcfgEntries_none (mcfg : Unsigned) (i k : Nat) : (mcfgEntries mem mcfg i k).filterMap HwEntry.cpu? = [] ∧
    (mcfgEntries mem mcfg i k).filterMap HwEntry.ioapic? = [] := by
  unfold mcfgEntries
  constructor
  · rw [List.filterMap_map]
    exact List.filterMap_eq_nil_iff.2 (fun _ _ => rfl)
  · rw [List.filterMap_map]
    exact List.filterMap_eq_nil_iff.2 (fun _ _ => rfl)

/-- An MCFG says nothing of them. -/
theorem readMcfg_from (hs : hw.From src) (h : readMcfg mem t hw = .ok hw') : hw'.From src := by
  rw [readMcfg_eq] at h
  cases hf : (mcfgEntries mem t 0 (min (mcfgCount mem t) maxPcie)).foldlM HwInfo.add hw with
  | error x => rw [hf] at h; cases h
  | ok b =>
    rw [hf] at h
    have hb : (if maxPcie < mcfgCount mem t then Except.error BootStop.halted else .ok b) = .ok hw' := h
    split at hb
    · cases hb
    · cases hb
      have hl := hs.lists.foldlM _ hf
      rw [(mcfgEntries_none t 0 _).1, (mcfgEntries_none t 0 _).2, List.append_nil, List.append_nil] at hl
      exact ⟨(HwInfo.foldlM_sameHead hf).lapic.trans hs.lapicAdr, hl⟩

/-- A MADT with a wrong checksum is passed over. -/
theorem readTable_rejected (hsig : hdrSignature mem t = madtSignature) (ht : ¬ IsMadt mem t) :
    readTable mem fuel hw t = .ok hw := by
  rw [readTable, if_pos hsig, readMadt, if_pos (fun hc => ht ⟨hsig, hc⟩)]

/-- **A table of the RSDT** replaces what is known, or leaves it. -/
theorem readTable_from (hs : hw.From src) (h : readTable mem fuel hw t = .ok hw') : hw'.From (src.after mem fuel t) := by
  unfold InfoSource.after
  by_cases hsig : hdrSignature mem t = madtSignature
  · by_cases ht : IsMadt mem t
    · rw [readTable, if_pos hsig] at h
      rw [if_pos ht]
      exact readMadt_from ht h
    · rw [readTable_rejected hsig ht] at h
      cases h
      rwa [if_neg ht]
  · rw [readTable, if_neg hsig] at h
    rw [if_neg (fun ht => hsig ht.1)]
    split at h
    · exact readMcfg_from hs h
    · cases h
      exact hs

theorem readRsdt_from {rsdt : Unsigned} (hs : hw.From src) (h : readRsdt mem fuel rsdt hw = .ok hw') :
    hw'.From ((rsdtEntries mem rsdt).foldl (InfoSource.after mem fuel) src) :=
  foldlM_sim (fun _ _ _ _ => readTable_from) (rsdtEntries mem rsdt) hs h

/-- What is known is what one table says. -/
theorem InfoSource.after_mem : ∀ (ts : List Unsigned) (src : InfoSource),
    ts.foldl (InfoSource.after mem fuel) src = src ∨
      ∃ t ∈ ts, IsMadt mem t ∧ ts.foldl (InfoSource.after mem fuel) src = .madt mem fuel t
  | [],      _   => .inl rfl
  | t :: ts, src => by
    rw [List.foldl_cons]
    rcases InfoSource.after_mem ts (src.after mem fuel t) with h | ⟨u, hu, hm, h⟩
    · rw [h]
      by_cases ht : IsMadt mem t
      · exact .inr ⟨t, List.mem_cons_self, ht, if_pos ht⟩
      · exact .inl (if_neg ht)
    · exact .inr ⟨u, List.mem_cons_of_mem t hu, hm, h⟩

/-! ## The MPS configuration table -/

/-- A configuration table that passes all checks. -/
def MpsAccepted (mem : Memory) (hw : HwInfo) : Prop :=
  ∃ config, findConfig mem hw = some config ∧ checkSum mem config (extdLen mem config) = 0

theorem readMps_from (hc : findConfig mem hw = some config) (hx : checkSum mem config (extdLen mem config) = 0)
    (h : readMps mem hw = .ok hw') : hw'.From (.mps mem config) := by
  constructor
  · rw [readMps_eq hc hx] at h
    exact (HwInfo.foldlM_sameHead h).lapic
  · exact readMps_lists hc hx h

theorem readMps_none (hc : findConfig mem hw = none) : readMps mem hw = .ok hw := by rw [readMps, hc]

/-- **The last check is too late for `lapic_adr`.** -/
theorem readMps_rejected (hc : findConfig mem hw = some config) (hx : checkSum mem config (extdLen mem config) ≠ 0) :
    readMps mem hw = .ok { hw with lapicAdr := mem.u32 (config + 36) } := by
  rw [readMps, hc]
  exact if_pos hx

end

/-! ## `get_info` -/

section
variable {mem : Memory} {cmdNoacpi cmdNomps : Unsigned} {fuel : Nat} {hw hw' hw₁ : HwInfo}

/-- `get_info` comes to the label `skip_acpi` with `hw`. -/
def AtMps (mem : Memory) (cmdNoacpi cmdNomps : Unsigned) (fuel : Nat) (hw : HwInfo) : Prop :=
  match findRsdt mem (.initial mem cmdNoacpi cmdNomps) with
  | none      => hw = .initial mem cmdNoacpi cmdNomps
  | some rsdt => readRsdt mem fuel rsdt (.initial mem cmdNoacpi cmdNomps) = .ok hw ∧ hw.lapicAdr = 0

/-- The tables that count: a MADT of the RSDT with a right checksum, a configuration table that passes all checks, and none. -/
inductive IsSource (mem : Memory) (cmdNoacpi cmdNomps : Unsigned) (fuel : Nat) : InfoSource → Prop
  | madt {rsdt t : Unsigned} (hr : findRsdt mem (.initial mem cmdNoacpi cmdNomps) = some rsdt)
      (ht : t ∈ rsdtEntries mem rsdt) (hm : IsMadt mem t) : IsSource mem cmdNoacpi cmdNomps fuel (.madt mem fuel t)
  | mps {config : Unsigned} (hc : findConfig mem (.initial mem cmdNoacpi cmdNomps) = some config)
      (hx : checkSum mem config (extdLen mem config) = 0) : IsSource mem cmdNoacpi cmdNomps fuel (.mps mem config)
  | fallback : IsSource mem cmdNoacpi cmdNomps fuel .fallback

/-- The local APIC address, the CPUs and the I/O APICs come from one and the same source. -/
def OneSource (mem : Memory) (cmdNoacpi cmdNomps : Unsigned) (fuel : Nat) (hw : HwInfo) : Prop :=
  ∃ src, IsSource mem cmdNoacpi cmdNomps fuel src ∧ hw.From src

/-- A table that is rejected leaves them as they were before it was looked at. -/
structure RejectedLeave (mem : Memory) (cmdNoacpi cmdNomps : Unsigned) (fuel : Nat) : Prop where
  rsdt : findRsdt mem (.initial mem cmdNoacpi cmdNomps) = none →
    readTables mem fuel (.initial mem cmdNoacpi cmdNomps) = readMps mem (.initial mem cmdNoacpi cmdNomps)
  madt : ∀ hw t, hdrSignature mem t = madtSignature → ¬ IsMadt mem t → readTable mem fuel hw t = .ok hw
  mps  : ∀ hw hw', AtMps mem cmdNoacpi cmdNomps fuel hw → ¬ MpsAccepted mem hw → readMps mem hw = .ok hw' →
    SameDevices hw' hw

/-- No MADT that counts gives a local APIC address; of several, the last one counts. -/
def NoMadtLapic (mem : Memory) (cmdNoacpi cmdNomps : Unsigned) : Prop :=
  ∀ rsdt, findRsdt mem (.initial mem cmdNoacpi cmdNomps) = some rsdt →
    (rsdtEntries mem rsdt).foldl (lapicAfter mem) 0 = 0

/-- A configuration table that `get_info` comes to passes the last check with the ones before, or has no address. -/
def MpsWhole (mem : Memory) (cmdNoacpi cmdNomps : Unsigned) : Prop :=
  ∀ config, findConfig mem (.initial mem cmdNoacpi cmdNomps) = some config → NoMadtLapic mem cmdNoacpi cmdNomps →
    checkSum mem config (extdLen mem config) = 0 ∨ mem.u32 (config + 36) = 0

theorem readRsdt_after {rsdt : Unsigned} (h : readRsdt mem fuel rsdt (.initial mem cmdNoacpi cmdNomps) = .ok hw) :
    findConfig mem hw = findConfig mem (.initial mem cmdNoacpi cmdNomps) ∧
      hw.lapicAdr = (rsdtEntries mem rsdt).foldl (lapicAfter mem) 0 := by
  obtain ⟨x, hx, ho⟩ := readRsdt_outcome mem (rsdtEntries mem rsdt) (initial_within mem cmdNoacpi cmdNomps)
  have hxw : x = .ok hw := by
    rcases hx.always fuel with hl | hl
    · exact absurd (h.symm.trans hl) nofun
    · exact hl.symm.trans h
  rw [hxw] at ho
  cases ho with
  | back _ _ ha => exact ⟨findConfig_congr mem ha.nomps ha.ebda, ha.lapic⟩

theorem initial_from : (HwInfo.initial mem cmdNoacpi cmdNomps).From .nothing := ⟨rfl, rfl, rfl, rfl, rfl⟩

theorem AtMps.lapicAdr (h : AtMps mem cmdNoacpi cmdNomps fuel hw) : hw.lapicAdr = 0 := by
  unfold AtMps at h
  split at h
  · rw [h]
    rfl
  · exact h.2

theorem AtMps.findConfig (h : AtMps mem cmdNoacpi cmdNomps fuel hw) :
    SmpBoot.findConfig mem hw = SmpBoot.findConfig mem (.initial mem cmdNoacpi cmdNomps) := by
  unfold AtMps at h
  split at h
  · rw [h]
  · exact (readRsdt_after h.1).1

theorem AtMps.noMadtLapic (h : AtMps mem cmdNoacpi cmdNomps fuel hw) : NoMadtLapic mem cmdNoacpi cmdNomps := by
  intro rsdt hr
  unfold AtMps at h
  rw [hr] at h
  exact (readRsdt_after h.1).2.symm.trans h.2

/-- **The tables are read up to the label `skip_mps`**: through the MPS tables, or past them. -/
theorem readTables_ok (h : readTables mem fuel (.initial mem cmdNoacpi cmdNomps) = .ok hw) :
    (∃ hw₁, AtMps mem cmdNoacpi cmdNomps fuel hw₁ ∧ readMps mem hw₁ = .ok hw) ∨
      ¬ NoMadtLapic mem cmdNoacpi cmdNomps ∧ OneSource mem cmdNoacpi cmdNomps fuel hw := by
  unfold readTables at h
  cases hr : findRsdt mem (.initial mem cmdNoacpi cmdNomps) with
  | none =>
    rw [hr] at h
    refine .inl ⟨_, ?_, h⟩
    unfold AtMps
    rw [hr]
  | some rsdt =>
    rw [hr] at h
    cases hread : readRsdt mem fuel rsdt (.initial mem cmdNoacpi cmdNomps) with
    | error x => simp only [hread] at h; cases h
    | ok hw₁ =>
      simp only [hread] at h
      have hif : (if hw₁.lapicAdr ≠ 0 then Except.ok hw₁ else readMps mem hw₁) = .ok hw := h
      by_cases hl : hw₁.lapicAdr = 0
      · rw [if_neg (not_not.2 hl)] at hif
        refine .inl ⟨hw₁, ?_, hif⟩
        unfold AtMps
        rw [hr]
        exact ⟨hread, hl⟩
      · rw [if_pos hl] at hif
        cases hif
        refine .inr ⟨fun hno => hl ((readRsdt_after hread).2.trans (hno rsdt hr)), ?_⟩
        have hfrom := readRsdt_from initial_from hread
        have hafter := @InfoSource.after_mem mem fuel (rsdtEntries mem rsdt) .nothing
        rcases hafter with hn | ⟨t, ht, hm, hs⟩
        · rw [hn] at hfrom
          exact absurd hfrom.lapicAdr hl
        · rw [hs] at hfrom
          exact ⟨_, .madt hr ht hm, hfrom⟩

/-! ### From the label `skip_mps` on -/

theorem fallback_from (h : hw.lapicAdr = 0 ∨ hw.cpuCnt = 0 ∨ hw.ioapicCnt = 0) : hw.fallback.From .fallback := by
  rw [HwInfo.fallback, if_pos h]
  refine ⟨rfl, rfl, ?_, rfl, rfl⟩
  show ((hw.cpu.set 0 0 (by decide)).toList).take 1 = [0]
  have hlen : 0 < hw.cpu.toList.length := by
    rw [Vector.length_toList]
    decide
  rw [Vector.toList_set, take_set_succ _ hlen]
  rfl

theorem fallback_oneSource (h : hw.lapicAdr = 0 ∨ OneSource mem cmdNoacpi cmdNomps fuel hw) :
    OneSource mem cmdNoacpi cmdNomps fuel hw.fallback := by
  by_cases hf : hw.lapicAdr = 0 ∨ hw.cpuCnt = 0 ∨ hw.ioapicCnt = 0
  · exact ⟨_, .fallback, fallback_from hf⟩
  · rw [HwInfo.fallback, if_neg hf]
    exact h.resolve_left (fun hl => hf (.inl hl))

theorem fallback_usable (hw : HwInfo) : 1 ≤ hw.fallback.cpuCnt.toNat ∧ hw.fallback.lapicAdr ≠ 0 := by
  unfold HwInfo.fallback
  split
  · exact ⟨Nat.le_refl 1, (by decide : (0xfee00000 : Unsigned) ≠ 0)⟩
  · next hf =>
    rw [not_or, not_or] at hf
    refine ⟨Nat.one_le_iff_ne_zero.2 (fun h0 => hf.2.1 (BitVec.eq_of_toNat_eq h0)), hf.1⟩

theorem rejectedLeave_iff (h : readTables mem fuel (.initial mem cmdNoacpi cmdNomps) = .ok hw) :
    RejectedLeave mem cmdNoacpi cmdNomps fuel ↔ MpsWhole mem cmdNoacpi cmdNomps := by
  constructor
  · intro hr config hc hno
    by_contra hbad
    rw [not_or] at hbad
    rcases readTables_ok h with ⟨hw₁, hat, -⟩ | ⟨hno', -⟩
    · have hc₁ := hat.findConfig.trans hc
      have hnot : ¬ MpsAccepted mem hw₁ := by
        rintro ⟨config', hc', hx⟩
        rw [hc₁] at hc'
        cases hc'
        exact hbad.1 hx
      have hsame := hr.mps hw₁ _ hat hnot (readMps_rejected hc₁ hbad.1)
      exact hbad.2 (hsame.lapicAdr.trans hat.lapicAdr)
    · exact hno' hno
  · intro hw
    refine ⟨fun hr => by rw [readTables, hr], fun _ _ => readTable_rejected, fun hw₁ hw₂ hat hnot hread => ?_⟩
    cases hc : findConfig mem hw₁ with
    | none =>
      rw [readMps_none hc] at hread
      cases hread
      exact ⟨rfl, rfl, rfl, rfl, rfl⟩
    | some config =>
      have hx : checkSum mem config (extdLen mem config) ≠ 0 := fun hx => hnot ⟨config, hc, hx⟩
      have hz := (hw config (hat.findConfig.symm.trans hc) hat.noMadtLapic).resolve_left hx
      rw [readMps_rejected hc hx] at hread
      cases hread
      exact ⟨hz.trans hat.lapicAdr.symm, rfl, rfl, rfl, rfl⟩

theorem oneSource_of_whole (h : readTables mem fuel (.initial mem cmdNoacpi cmdNomps) = .ok hw)
    (hm : MpsWhole mem cmdNoacpi cmdNomps) : hw.lapicAdr = 0 ∨ OneSource mem cmdNoacpi cmdNomps fuel hw := by
  rcases readTables_ok h with ⟨hw₁, hat, hread⟩ | ⟨-, hone⟩
  · cases hc : findConfig mem hw₁ with
    | none =>
      rw [readMps_none hc] at hread
      cases hread
      exact .inl hat.lapicAdr
    | some config =>
      have hc₀ := hat.findConfig.symm.trans hc
      by_cases hx : checkSum mem config (extdLen mem config) = 0
      · exact .inr ⟨_, .mps hc₀ hx, readMps_from hc hx hread⟩
      · rw [readMps_rejected hc hx] at hread
        cases hread
        exact .inl ((hm config hc₀ hat.noMadtLapic).resolve_left hx)
  · exact .inr hone

/-- **`get_info` always leaves a CPU and a local APIC address.  It takes them and the I/O APICs from one source, and leaves
them alone at a table that it rejects, if and only if** a configuration table that it comes to has a right extended checksum
or no local APIC address. -/
theorem getInfo_oneSource_iff (h : getInfo mem cmdNoacpi cmdNomps fuel = .ok hw) :
    1 ≤ hw.cpuCnt.toNat ∧ hw.lapicAdr ≠ 0 ∧
      (OneSource mem cmdNoacpi cmdNomps fuel hw ∧ RejectedLeave mem cmdNoacpi cmdNomps fuel ↔
        MpsWhole mem cmdNoacpi cmdNomps) := by
  unfold getInfo at h
  cases hread : readTables mem fuel (.initial mem cmdNoacpi cmdNomps) with
  | error x => rw [hread] at h; cases h
  | ok hw₁ =>
    rw [hread] at h
    cases h
    obtain ⟨hcpu, hlapic⟩ := fallback_usable hw₁
    refine ⟨hcpu, hlapic, ?_⟩
    rw [← rejectedLeave_iff hread]
    refine ⟨And.right, fun hr => ⟨?_, hr⟩⟩
    exact fallback_oneSource (oneSource_of_whole hread ((rejectedLeave_iff hread).1 hr))

end

/-! ### An address without its lists -/

/-- A MADT without a local APIC address, of one processor and one I/O APIC, and a configuration table whose extended
checksum, over its first byte, is wrong. -/
def mixedTables : Memory := memoryOf
  [(0x40E, [0xC0, 0x9F]), (0x9FC00, [0x5F, 0x4D, 0x50, 0x5F, 0, 0x30, 0, 0, 1, 4, 0x70]),
   (0x3000, [0x50, 0x43, 0x4D, 0x50, 44, 0, 4, 0xc1]), (0x3024, [0, 0, 0xE0, 0xFE, 1, 0, 0, 0]),
   (0xE0000, [0x52, 0x53, 0x44, 0x20, 0x50, 0x54, 0x52, 0x20, 0xd1, 0, 0, 0, 0, 0, 0, 0, 0, 0x10, 0, 0]),
   (0x1000, [0x52, 0x53, 0x44, 0x54, 40, 0, 0, 0, 1, 0x7a]), (0x1024, [0, 0x20, 0, 0]),
   (0x2000, [0x41, 0x50, 0x49, 0x43, 64, 0, 0, 0, 1, 0xcc]), (0x202C, [0, 8, 0, 0, 1, 0, 0, 0]),
   (0x2034, [1, 12, 2, 0, 0, 0, 0xC0, 0xFE, 0, 0, 0, 0])]

/-- The address of the one, the lists of the other. -/
theorem mixed_ok : ∃ hw, getInfo mixedTables 0 0 3 = .ok hw ∧ hw.lapicAdr = 0xFEE00000 ∧ hw.cpuCnt = 1 ∧
    hw.ioapicCnt = 1 := by
  have h : (getInfo mixedTables 0 0 3).toOption.map (fun hw => (hw.lapicAdr, hw.cpuCnt, hw.ioapicCnt)) =
      some (0xFEE00000, 1, 1) := by decide +kernel
  cases hr : getInfo mixedTables 0 0 3 with
  | error x => rw [hr] at h; cases h
  | ok hw =>
    rw [hr] at h
    obtain ⟨h1, h2, h3⟩ : hw.lapicAdr = 0xFEE00000 ∧ hw.cpuCnt = 1 ∧ hw.ioapicCnt = 1 := by
      simpa using Option.some.inj h
    exact ⟨hw, rfl, h1, h2, h3⟩

theorem mixed_rsdt : findRsdt mixedTables (.initial mixedTables 0 0) = some 0x1000 := by decide +kernel

theorem mixed_madt : (rsdtEntries mixedTables 0x1000).map (fun t => mixedTables.u32 (t + 36)) = [0] := by decide +kernel

theorem mixed_config : findConfig mixedTables (.initial mixedTables 0 0) = some 0x3000 := by decide +kernel

theorem mixed_extd : checkSum mixedTables 0x3000 (extdLen mixedTables 0x3000) ≠ 0 := by decide +kernel

theorem mixed_not_oneSource {hw : HwInfo} (hl : hw.lapicAdr = 0xFEE00000) (hio : hw.ioapicCnt = 1) :
    ¬ OneSource mixedTables 0 0 3 hw := by
  rintro ⟨src, hsrc, hfrom⟩
  cases hsrc with
  | madt hr ht hm =>
    rw [mixed_rsdt] at hr
    cases hr
    have hadr := List.mem_map_of_mem (f := fun t => mixedTables.u32 (t + 36)) ht
    rw [mixed_madt, List.mem_singleton] at hadr
    rw [hfrom.lapicAdr] at hl
    exact absurd (hadr.symm.trans hl) (by decide)
  | mps hc hx =>
    rw [mixed_config] at hc
    cases hc
    exact mixed_extd hx
  | fallback =>
    have hcnt := hfrom.lists.ioapicCnt
    rw [hio] at hcnt
    cases hcnt

theorem getInfo_oneSource_mixed : ∃ hw, getInfo mixedTables 0 0 3 = .ok hw ∧ 1 ≤ hw.cpuCnt.toNat ∧ hw.lapicAdr ≠ 0 ∧
    (OneSource mixedTables 0 0 3 hw ∧ RejectedLeave mixedTables 0 0 3 ↔ MpsWhole mixedTables 0 0) := by
  obtain ⟨hw, hok, -⟩ := mixed_ok
  exact ⟨hw, hok, getInfo_oneSource_iff hok⟩

/-- **The address of a rejected table**, and the processor and the I/O APIC of another. -/
theorem mixed_sources : ¬ ∀ mem cmdNoacpi cmdNomps fuel hw, getInfo mem cmdNoacpi cmdNomps fuel = .ok hw →
    OneSource mem cmdNoacpi cmdNomps fuel hw := by
  intro h
  obtain ⟨hw, hok, hl, -, hio⟩ := mixed_ok
  exact mixed_not_oneSource hl hio (h _ _ _ _ hw hok)

end SmpBoot
