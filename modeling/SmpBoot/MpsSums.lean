import SmpBoot.RootSearch
import SmpBoot.Sources
import SmpBoot.TableReads
/-!
# MpsSums — the two sums that decide whether the MPS configuration table is taken

The base table has a checksum of its own; the extended entries behind it have another, which is a field of the base table.
`get_info` adds up the first `extd_len` bytes of the base table instead.
-/
namespace SmpBoot

/-- The configuration table that a valid floating pointer leads to: what `get_info` has found when it tests the two sums. -/
def offeredConfig (mem : Memory) (hw : HwInfo) : Option Unsigned :=
  if hw.cmdNomps ≠ 0 then none
  else (findFp mem hw).bind fun fp =>
    -- `spec_rev`, `feature[0]` and `offset_config`
    if mem (fp + 9) ≠ 4 ∨ mem (fp + 11) ≠ 0 ∨ mem.u32 (fp + 4) = 0 then none else some (mem.u32 (fp + 4))

/-- The bytes behind the base table, with `extd_checksum`. -/
def extdSum (mem : Memory) (config : Unsigned) : BitVec 8 :=
  checkSum mem (config + BitVec.ofNat 32 (baseLength mem config)) (extdLen mem config) + mem (config + 42)

/-- **A valid table has two right sums.** -/
structure MpsValid (mem : Memory) (config : Unsigned) : Prop where
  base : checkSum mem config (baseLength mem config) = 0
  extd : extdSum mem config = 0

/-- **Valid tables are taken, if there is room, and others are not.** -/
structure MpsDecides (mem : Memory) (hw : HwInfo) (config : Unsigned) : Prop where
  accepts : MpsValid mem config → MpsFits mem config →
    MpsAccepted mem hw ∧ ∃ hw', readMps mem hw = .ok hw' ∧ hw'.From (.mps mem config)
  rejects : ¬ MpsValid mem config → ¬ MpsAccepted mem hw ∧ ∃ lapicAdr, readMps mem hw = .ok { hw with lapicAdr }

section
variable {mem : Memory} {hw : HwInfo} {config : Unsigned}

theorem findConfig_offered : findConfig mem hw = (offeredConfig mem hw).bind fun config =>
    if checkSum mem config (baseLength mem config) ≠ 0 then none else some config := by
  rw [findConfig_eq, offeredConfig]
  split
  · rfl
  · cases findFp mem hw with
    | none => rfl
    | some fp =>
      simp only [Option.bind_some]
      split <;> rfl

theorem mpsAccepted_iff (h : offeredConfig mem hw = some config) : MpsAccepted mem hw ↔
    checkSum mem config (baseLength mem config) = 0 ∧ checkSum mem config (extdLen mem config) = 0 := by
  have hfind : findConfig mem hw = if checkSum mem config (baseLength mem config) ≠ 0 then none else some config := by
    rw [findConfig_offered, h]
    rfl
  unfold MpsAccepted
  rw [hfind]
  by_cases hb : checkSum mem config (baseLength mem config) = 0
  · rw [if_neg (not_not.2 hb)]
    exact ⟨fun ⟨_, hc, hx⟩ => by cases hc; exact ⟨hb, hx⟩, fun hx => ⟨config, rfl, hx.2⟩⟩
  · rw [if_pos hb]
    exact iff_of_false (fun ⟨_, hc, _⟩ => nomatch hc) (fun hx => hb hx.1)

theorem readMps_taken (h : offeredConfig mem hw = some config) (ha : MpsAccepted mem hw) (hfits : MpsFits mem config) :
    ∃ hw', readMps mem hw = .ok hw' ∧ hw'.From (.mps mem config) := by
  obtain ⟨hb, hx⟩ := (mpsAccepted_iff h).1 ha
  have hfind : findConfig mem hw = some config := by
    rw [findConfig_offered, h]
    exact if_neg (not_not.2 hb)
  have hcpu := hfits .cpu
  have hio := hfits .ioapic
  rw [goTo_cpu] at hcpu
  rw [goTo_ioapic] at hio
  obtain ⟨hw', hok, -⟩ := readMps_ok hfind hx hcpu hio
  exact ⟨hw', hok, readMps_from hfind hx hok⟩

theorem readMps_not_taken (ha : ¬ MpsAccepted mem hw) : ∃ lapicAdr, readMps mem hw = .ok { hw with lapicAdr } := by
  cases hc : findConfig mem hw with
  | none => exact ⟨hw.lapicAdr, readMps_none hc⟩
  | some config => exact ⟨_, readMps_rejected hc (fun hx => ha ⟨config, hc, hx⟩)⟩

end

/-- **`get_info` decides rightly on a table with a right base sum exactly if** the first `extd_len` bytes of the base table add up
to 0 when the extended sum is right and there is room for the entries, and not when it is wrong. -/
theorem mps_decides_iff (mem : Memory) (hw : HwInfo) (config : Unsigned) (h : offeredConfig mem hw = some config) :
    MpsDecides mem hw config ↔ (checkSum mem config (baseLength mem config) = 0 →
      (extdSum mem config = 0 → MpsFits mem config → checkSum mem config (extdLen mem config) = 0) ∧
      (extdSum mem config ≠ 0 → checkSum mem config (extdLen mem config) ≠ 0)) := by
  have hacc := mpsAccepted_iff h
  constructor
  · intro hd hb
    refine ⟨fun hx hfits => (hacc.1 (hd.accepts ⟨hb, hx⟩ hfits).1).2, fun hx hz => ?_⟩
    exact (hd.rejects (fun hv => hx hv.extd)).1 (hacc.2 ⟨hb, hz⟩)
  · intro hcond
    refine ⟨fun hv hfits => ?_, fun hv => ?_⟩
    · have ha := hacc.2 ⟨hv.base, (hcond hv.base).1 hv.extd hfits⟩
      exact ⟨ha, readMps_taken h ha hfits⟩
    · have hna : ¬ MpsAccepted mem hw := fun ha => by
        obtain ⟨hb, hz⟩ := hacc.1 ha
        exact (hcond hb).2 (fun hx => hv ⟨hb, hx⟩) hz
      exact ⟨hna, readMps_not_taken hna⟩

/-- A configuration table of one processor with 8 bytes of extended entries, whose own first 8 bytes add up to 0 as well. -/
def balancedTable : Memory := memoryOf
  [(0x40E, [0xC0, 0x9F]), (0x9FC00, [0x5F, 0x4D, 0x50, 0x5F, 0, 0x10, 0, 0, 1, 4, 0x90]),
   (0x1000, [0x50, 0x43, 0x4D, 0x50, 64, 0, 4, 0x8c, 2]), (0x1022, [1, 0, 0, 0, 0xE0, 0xFE, 8, 0, 0, 0]),
   (0x102C, [0, 3, 0x11, 3]), (0x1040, [0x80, 8, 0x78, 0, 0, 0, 0, 0])]

/-- It is valid, and taken. -/
theorem mps_decides_balanced : extdLen balancedTable 0x1000 = 8 ∧ MpsValid balancedTable 0x1000 ∧
    MpsAccepted balancedTable (.initial balancedTable 0 0) ∧
    MpsDecides balancedTable (.initial balancedTable 0 0) 0x1000 := by
  have hoffer : offeredConfig balancedTable (.initial balancedTable 0 0) = some 0x1000 := by decide +kernel
  have hvalid : MpsValid balancedTable 0x1000 := ⟨by decide +kernel, by decide +kernel⟩
  have hsum : checkSum balancedTable 0x1000 (extdLen balancedTable 0x1000) = 0 := by decide +kernel
  exact ⟨by decide +kernel, hvalid, (mpsAccepted_iff hoffer).2 ⟨hvalid.base, hsum⟩,
    (mps_decides_iff balancedTable (.initial balancedTable 0 0) 0x1000 hoffer).2
      fun _ => ⟨fun _ _ => hsum, fun hx => absurd hvalid.extd hx⟩⟩

/-- A configuration table of one processor with 8 bytes of extended entries behind it. -/
def extendedTable : Memory := memoryOf
  [(0x40E, [0xC0, 0x9F]), (0x9FC00, [0x5F, 0x4D, 0x50, 0x5F, 0, 0x10, 0, 0, 1, 4, 0x90]),
   (0x1000, [0x50, 0x43, 0x4D, 0x50, 64, 0, 4, 0x8e]), (0x1022, [1, 0, 0, 0, 0xE0, 0xFE, 8, 0, 0, 0]),
   (0x102C, [0, 3, 0x11, 3]), (0x1040, [0x80, 8, 0x78, 0, 0, 0, 0, 0])]

/-- **It is valid, and rejected.** -/
theorem extendedTable_rejected : offeredConfig extendedTable (.initial extendedTable 0 0) = some 0x1000 ∧
    MpsValid extendedTable 0x1000 ∧ MpsFits extendedTable 0x1000 ∧
    ¬ MpsAccepted extendedTable (.initial extendedTable 0 0) ∧
    ¬ MpsDecides extendedTable (.initial extendedTable 0 0) 0x1000 := by
  have hoffer : offeredConfig extendedTable (.initial extendedTable 0 0) = some 0x1000 := by decide +kernel
  have hvalid : MpsValid extendedTable 0x1000 := ⟨by decide +kernel, by decide +kernel⟩
  have hfits : MpsFits extendedTable 0x1000 := by
    intro arr
    cases arr <;> decide +kernel
  have hrej : ¬ MpsAccepted extendedTable (.initial extendedTable 0 0) := by
    rw [mpsAccepted_iff hoffer]
    decide +kernel
  exact ⟨hoffer, hvalid, hfits, hrej, fun hd => hrej (hd.accepts hvalid hfits).1⟩

end SmpBoot
