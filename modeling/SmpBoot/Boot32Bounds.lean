import SmpBoot.Boot32
import SmpBoot.Lib.Walk
/-!
# Boot32Bounds — what fits into the arrays of `hw_info`

The three parsers are folds of one step, `HwInfo.add`, over the entries of a table (`madtLoop_eq`, `mcfgLoop_eq`,
`mpsLoop_eq`).  `get_info` stays inside `cpu[]`, `ioapic[]` and `pcie_cfg[]` exactly if no table that it comes to has more
entries than there is room for (`getInfo_safe_iff`): apart from the index test in `read_mcfg`, nothing in the code sees to
that.
-/
namespace SmpBoot

open Walk

/-! ## Entries -/

/-- The arrays of `hw_info` that the tables fill. -/
inductive HwArray where
  | cpu
  | ioapic
  | pcieCfg
  deriving DecidableEq

def HwArray.cap : HwArray → Nat
  | .cpu => maxCpu
  | .ioapic => maxIoapic
  | .pcieCfg => maxPcie

/-- An entry of a table, as far as it concerns `hw_info`. -/
inductive HwEntry where
  | cpu (lapicId : BitVec 8)
  | ioapic (id : BitVec 8) (adr : Unsigned)
  | pcie (cfg : PcieCfg)
  | other

def HwEntry.array : HwEntry → Option HwArray
  | .cpu _ => some .cpu
  | .ioapic _ _ => some .ioapic
  | .pcie _ => some .pcieCfg
  | .other => none

namespace HwInfo

def cnt (hw : HwInfo) : HwArray → Nat
  | .cpu => hw.cpuCnt.toNat
  | .ioapic => hw.ioapicCnt.toNat
  | .pcieCfg => hw.pcieCnt.toNat

def add (hw : HwInfo) : HwEntry → Boot HwInfo
  | .cpu lapicId => hw.addCpu lapicId
  | .ioapic id adr => hw.addIoapic id adr
  | .pcie cfg => hw.addPcie cfg
  | .other => .ok hw

/-- No counter is above the length of its array. -/
def Within (hw : HwInfo) : Prop := ∀ arr, hw.cnt arr ≤ arr.cap

/-- The fields that no entry changes. -/
structure SameHead (hw hw' : HwInfo) : Prop where
  nomps : hw'.cmdNomps = hw.cmdNomps
  ebda  : hw'.ebdaAdr = hw.ebdaAdr
  lapic : hw'.lapicAdr = hw.lapicAdr

theorem SameHead.refl (hw : HwInfo) : SameHead hw hw := ⟨rfl, rfl, rfl⟩

theorem SameHead.trans {a b c : HwInfo} (h : SameHead a b) (h' : SameHead b c) : SameHead a c :=
  ⟨h'.nomps.trans h.nomps, h'.ebda.trans h.ebda, h'.lapic.trans h.lapic⟩

theorem toNat_inc {c : Unsigned} {cap : Nat} (hc : c.toNat < cap) (hcap : cap ≤ 16) : (c + 1).toNat = c.toNat + 1 := by
  rw [BitVec.toNat_add]
  exact Nat.mod_eq_of_lt (by show c.toNat + 1 < 2 ^ 32; omega)

/-- **An entry takes the next place of its array, or writes outside.** -/
theorem add_fills : Fills add HwEntry.array cnt HwArray.cap .wild where
  full := by
    intro hw e arr he hle
    cases e with
    | cpu _ => cases he; exact dif_neg (Nat.not_lt.2 hle)
    | ioapic _ _ => cases he; exact dif_neg (Nat.not_lt.2 hle)
    | pcie _ => cases he; exact dif_neg (Nat.not_lt.2 hle)
    | other => cases he
  room := by
    intro hw e hroom
    cases e with
    | cpu _ =>
      have h := hroom .cpu rfl
      exact ⟨_, dif_pos h, fun arr => by cases arr <;> first | exact toNat_inc h (by decide) | rfl⟩
    | ioapic _ _ =>
      have h := hroom .ioapic rfl
      exact ⟨_, dif_pos h, fun arr => by cases arr <;> first | exact toNat_inc h (by decide) | rfl⟩
    | pcie _ =>
      have h := hroom .pcieCfg rfl
      exact ⟨_, dif_pos h, fun arr => by cases arr <;> first | exact toNat_inc h (by decide) | rfl⟩
    | other => exact ⟨hw, rfl, fun _ => rfl⟩

theorem add_sameHead {hw hw' : HwInfo} {e : HwEntry} (h : hw.add e = .ok hw') : SameHead hw hw' := by
  cases e with
  | other => cases h; exact .refl hw
  | _ =>
    simp only [add, addCpu, addIoapic, addPcie] at h
    split at h
    · cases h; exact ⟨rfl, rfl, rfl⟩
    · cases h

theorem foldlM_sameHead {es : List HwEntry} {hw hw' : HwInfo} (h : es.foldlM add hw = .ok hw') : SameHead hw hw' :=
  foldlM_inv (P := SameHead hw) (fun _ _ _ hs ha => hs.trans (add_sameHead ha)) es (.refl hw) h

end HwInfo

/-! ## The parsers as folds -/

def madtEntry (mem : Memory) (entry : Unsigned) : HwEntry :=
  if mem entry = madtTypeLapic then
    if (mem (entry + 4)).getLsbD 0 then .cpu (mem (entry + 3)) else .other
  else if mem entry = madtTypeIoapic then .ioapic (mem (entry + 2)) (mem.u32 (entry + 4))
  else .other

/-- The entry at offset `i` into the entry area, and the offset behind it as its length byte says. -/
def madtNext (mem : Memory) (madt i : Unsigned) : Option (HwEntry × Unsigned) :=
  if offApicStructs + i < hdrLength mem madt then
    let entry := madt + offApicStructs + i
    some (madtEntry mem entry, i + (mem (entry + 1)).setWidth 32)
  else none

def madtEntries (mem : Memory) (madt : Unsigned) (n : Nat) : List HwEntry := take (madtNext mem madt) n 0

theorem madtSwitch_eq (mem : Memory) (entry : Unsigned) (hw : HwInfo) :
    madtSwitch mem entry hw = hw.add (madtEntry mem entry) := by
  rw [madtSwitch, madtEntry]
  split
  · split <;> rfl
  · split <;> rfl

theorem madtLoop_eq (mem : Memory) (madt : Unsigned) : ∀ (fuel : Nat) (i : Unsigned) (hw : HwInfo),
    madtLoop mem madt fuel i hw = each (madtNext mem madt) HwInfo.add .looping fuel i hw
  | 0,        _, _  => rfl
  | fuel + 1, i, hw => by
    rw [madtLoop, each, madtNext]
    split
    · show madtSwitch mem _ hw >>= _ = hw.add _ >>= _
      rw [madtSwitch_eq]
      exact bind_congr fun hw' => madtLoop_eq mem madt fuel _ hw'
    · rfl

def mcfgCount (mem : Memory) (mcfg : Unsigned) : Nat := ((hdrLength mem mcfg).toNat - 44) / 16

def mcfgEntries (mem : Memory) (mcfg : Unsigned) (i k : Nat) : List HwEntry :=
  (List.range' i k).map fun j => .pcie (mcfgEntry mem mcfg j)

theorem mcfgLoop_eq (mem : Memory) (mcfg : Unsigned) : ∀ (n i : Nat) (hw : HwInfo), n + i = mcfgCount mem mcfg →
    i ≤ maxPcie → mcfgLoop mem mcfg n i hw =
      ((mcfgEntries mem mcfg i (min (mcfgCount mem mcfg) maxPcie - i)).foldlM HwInfo.add hw >>= fun hw' =>
        if maxPcie < mcfgCount mem mcfg then .error .halted else .ok hw')
  | 0, i, hw, hn, hi => by
    rw [show min (mcfgCount mem mcfg) maxPcie - i = 0 by omega]
    show _ = (if maxPcie < mcfgCount mem mcfg then _ else _)
    rw [if_neg (by omega)]
    rfl
  | n + 1, i, hw, hn, hi => by
    have hin : ¬ 44 + 16 * i > (hdrLength mem mcfg).toNat := by
      rw [mcfgCount] at hn
      omega
    rw [mcfgLoop, if_neg hin]
    by_cases hm : i ≥ maxPcie
    · rw [if_pos hm, show min (mcfgCount mem mcfg) maxPcie - i = 0 by omega]
      show _ = (if maxPcie < mcfgCount mem mcfg then _ else _)
      rw [if_pos (by omega)]
    · rw [if_neg hm, show min (mcfgCount mem mcfg) maxPcie - i = min (mcfgCount mem mcfg) maxPcie - (i + 1) + 1 by omega,
        mcfgEntries, List.range'_succ, List.map_cons, List.foldlM_cons, bind_assoc]
      exact bind_congr fun hw' => mcfgLoop_eq mem mcfg n (i + 1) hw' (by omega) (by omega)

/-- `read_mcfg` takes at most `MAX_PCIE` entries of one table, and halts at the next. -/
theorem readMcfg_eq (mem : Memory) (mcfg : Unsigned) (hw : HwInfo) : readMcfg mem mcfg hw =
    ((mcfgEntries mem mcfg 0 (min (mcfgCount mem mcfg) maxPcie)).foldlM HwInfo.add hw >>= fun hw' =>
      if maxPcie < mcfgCount mem mcfg then .error .halted else .ok hw') := by
  rw [readMcfg]
  by_cases h : 44 ≤ (hdrLength mem mcfg).toNat
  · have hs : (hdrLength mem mcfg - 44).toNat / 16 = mcfgCount mem mcfg := by
      have h' : (44 : Unsigned) ≤ hdrLength mem mcfg := BitVec.le_def.2 h
      rw [mcfgCount, BitVec.toNat_sub_of_le h']
      rfl
    rw [hs, mcfgLoop_eq mem mcfg (mcfgCount mem mcfg) 0 hw rfl (Nat.zero_le _), Nat.sub_zero]
  · -- the number of rounds has wrapped, and the first one breaks
    have hc : mcfgCount mem mcfg = 0 := by rw [mcfgCount]; omega
    rw [hc, Nat.zero_min]
    cases (hdrLength mem mcfg - 44).toNat / 16 with
    | zero => rfl
    | succ n => rw [mcfgLoop, if_pos (by omega)]; rfl

/-- The entry of an MPS configuration table at an address, and its size. -/
def mpsEntry (mem : Memory) (type : Unsigned) : HwEntry :=
  if mem type = 0 then
    if (mem (type + 3)).getLsbD 0 then .cpu (mem (type + 1)) else .other
  else if mem type = 2 then
    if (mem (type + 3)).getLsbD 0 then .ioapic (mem (type + 1)) (mem.u32 (type + 4)) else .other
  else .other

def mpsEntrySize (mem : Memory) (type : Unsigned) : Unsigned := if mem type = 0 then sizeofMpsProcessor else 8

def mpsEntriesAt (mem : Memory) : Nat → Unsigned → List HwEntry
  | 0,     _ => []
  | n + 1, type => mpsEntry mem type :: mpsEntriesAt mem n (type + mpsEntrySize mem type)

def mpsEntries (mem : Memory) (config : Unsigned) : List HwEntry :=
  mpsEntriesAt mem (cntOem mem config) (config + sizeofMpsConfig)

theorem mpsLoop_eq (mem : Memory) : ∀ (n : Nat) (type : Unsigned) (hw : HwInfo),
    mpsLoop mem n type hw = (mpsEntriesAt mem n type).foldlM HwInfo.add hw
  | 0,     _,    _  => rfl
  | n + 1, type, hw => by
    rw [mpsLoop, mpsEntriesAt, List.foldlM_cons, mpsEntry, mpsEntrySize]
    simp only [mpsLoop_eq mem n]
    split
    · split <;> rfl
    · split
      · split <;> rfl
      · rfl

/-! ## What fits -/

section
variable (mem : Memory)

/-- A MADT that passes the checksum test. -/
def IsMadt (t : Unsigned) : Prop :=
  hdrSignature mem t = madtSignature ∧ checkSum mem t (hdrLength mem t).toNat = 0

instance (t : Unsigned) : Decidable (IsMadt mem t) := inferInstanceAs (Decidable (_ ∧ _))

def IsMcfg (t : Unsigned) : Prop := hdrSignature mem t = mcfgSignature

instance (t : Unsigned) : Decidable (IsMcfg mem t) := inferInstanceAs (Decidable (_ = _))

/-- A table that `get_info` does not come back from: a MADT whose entries have no end, an MCFG with too many entries. -/
def Stops (t : Unsigned) : Prop :=
  IsMadt mem t ∧ ¬Ends (madtNext mem t) 0 ∨ IsMcfg mem t ∧ maxPcie < mcfgCount mem t

/-- The entries of a table that go to `pcie_cfg[]`. -/
def pcieOf (t : Unsigned) : Nat := if IsMcfg mem t then min (mcfgCount mem t) maxPcie else 0

/-- There is room for the entries of a table, `used` entries of `pcie_cfg[]` being in use. -/
structure TableFits (used : Nat) (t : Unsigned) : Prop where
  madt : IsMadt mem t → ∀ n arr, goTo HwEntry.array arr (madtEntries mem t n) ≤ arr.cap
  pcie : used + pcieOf mem t ≤ maxPcie

/-- There is room for every table that `get_info` comes to. -/
def AcpiFits (used : Nat) (tables : List Unsigned) : Prop :=
  ∀ pre t post, tables = pre ++ t :: post → (∀ s ∈ pre, ¬Stops mem s) →
    TableFits mem (used + (pre.map (pcieOf mem)).sum) t

/-- There is room for the entries of an MPS configuration table. -/
def MpsFits (config : Unsigned) : Prop := ∀ arr, goTo HwEntry.array arr (mpsEntries mem config) ≤ arr.cap

/-- The local APIC address that is known after a table. -/
def lapicAfter (lapicAdr t : Unsigned) : Unsigned := if IsMadt mem t then mem.u32 (t + 36) else lapicAdr

/-- `get_info` comes to the entries of the MPS configuration table: the ACPI tables, if there are any, let it pass and do
not give a local APIC address. -/
structure ComesToMps (cmdNoacpi cmdNomps config : Unsigned) : Prop where
  found : findConfig mem (.initial mem cmdNoacpi cmdNomps) = some config
  extd  : checkSum mem config (extdLen mem config) = 0
  acpi  : ∀ rsdt, findRsdt mem (.initial mem cmdNoacpi cmdNomps) = some rsdt →
    (∀ t ∈ rsdtEntries mem rsdt, ¬Stops mem t) ∧ (rsdtEntries mem rsdt).foldl (lapicAfter mem) 0 = 0

/-- **No table that `get_info` comes to has more entries than there is room for.** -/
structure InfoFits (cmdNoacpi cmdNomps : Unsigned) : Prop where
  acpi : ∀ rsdt, findRsdt mem (.initial mem cmdNoacpi cmdNomps) = some rsdt → AcpiFits mem 0 (rsdtEntries mem rsdt)
  mps  : ∀ config, ComesToMps mem cmdNoacpi cmdNomps config → MpsFits mem config

variable {mem}

theorem acpiFits_nil (used : Nat) : AcpiFits mem used [] := fun pre t post h => by cases pre <;> cases h

theorem acpiFits_cons {used : Nat} {t : Unsigned} {ts : List Unsigned} : AcpiFits mem used (t :: ts) ↔
    TableFits mem used t ∧ (¬Stops mem t → AcpiFits mem (used + pcieOf mem t) ts) := by
  constructor
  · intro h
    refine ⟨h [] t ts rfl (fun s hs => (List.not_mem_nil hs).elim), fun ht pre u post hts hpre => ?_⟩
    have := h (t :: pre) u post (by rw [hts]; rfl) (List.forall_mem_cons.2 ⟨ht, hpre⟩)
    rwa [List.map_cons, List.sum_cons, ← Nat.add_assoc] at this
  · intro ⟨h, hs⟩ pre u post hts hpre
    cases pre with
    | nil => cases hts; exact h
    | cons s pre =>
      cases hts
      obtain ⟨hs', hpre'⟩ := List.forall_mem_cons.1 hpre
      have := hs hs' pre u post rfl hpre'
      rwa [List.map_cons, List.sum_cons, ← Nat.add_assoc]

/-! ## What each parser comes to -/

variable (mem)

/-- What a parser comes to: a write outside if its input does not fit, no return if its input stops it, else `after`. -/
inductive Outcome (fits stops : Prop) (after : HwInfo → Prop) : Boot HwInfo → Prop
  | wild (h : ¬fits) : Outcome fits stops after (.error .wild)
  | stop (h : fits) (hs : stops) {e : BootStop} (he : e ≠ .wild) : Outcome fits stops after (.error e)
  | back (h : fits) (hs : ¬stops) {hw : HwInfo} (ha : after hw) : Outcome fits stops after (.ok hw)

/-- `hw_info` after tables that put `added` entries into `pcie_cfg[]`. -/
structure After (hw : HwInfo) (added : Nat) (lapicAdr : Unsigned) (hw' : HwInfo) : Prop where
  pcie   : hw'.cnt .pcieCfg = hw.cnt .pcieCfg + added
  nomps  : hw'.cmdNomps = hw.cmdNomps
  ebda   : hw'.ebdaAdr = hw.ebdaAdr
  lapic  : hw'.lapicAdr = lapicAdr
  within : hw'.Within

theorem After.same {hw : HwInfo} (h : hw.Within) : After hw 0 hw.lapicAdr hw := ⟨rfl, rfl, rfl, rfl, h⟩

/-- **A fold over entries**: all are put in, or there is one too many. -/
theorem entries_outcome {hw : HwInfo} (h : hw.Within) (es : List HwEntry) :
    Outcome (∀ arr, hw.cnt arr + goTo HwEntry.array arr es ≤ arr.cap) False
      (After hw (goTo HwEntry.array .pcieCfg es) hw.lapicAdr) (es.foldlM HwInfo.add hw) := by
  by_cases hfit : ∀ arr, hw.cnt arr + goTo HwEntry.array arr es ≤ arr.cap
  · obtain ⟨hw', hok, hcnt⟩ := HwInfo.add_fills.foldlM_ok es (fun k _ => hfit k)
    have hs := HwInfo.foldlM_sameHead hok
    rw [hok]
    exact .back hfit id ⟨hcnt _, hs.nomps, hs.ebda, hs.lapic, fun arr => by rw [hcnt arr]; exact hfit arr⟩
  · obtain ⟨arr, harr⟩ := not_forall.1 hfit
    rw [HwInfo.add_fills.foldlM_wild es h arr (Nat.lt_of_not_le harr)]
    exact .wild hfit

/-- `hw_info` when a MADT or an MPS configuration table is begun. -/
def HwInfo.begin (hw : HwInfo) (lapicAdr : Unsigned) : HwInfo := { hw with lapicAdr, cpuCnt := 0, ioapicCnt := 0 }

theorem HwInfo.Within.begin {hw : HwInfo} (h : hw.Within) (lapicAdr : Unsigned) : (hw.begin lapicAdr).Within
  | .pcieCfg => h .pcieCfg
  | .cpu => Nat.zero_le _
  | .ioapic => Nat.zero_le _

/-- **A fold from the beginning of a table**, over entries that do not go to `pcie_cfg[]`. -/
theorem begin_outcome {hw : HwInfo} (h : hw.Within) (lapicAdr : Unsigned) {es : List HwEntry}
    (hes : goTo HwEntry.array .pcieCfg es = 0) :
    Outcome (∀ arr, goTo HwEntry.array arr es ≤ arr.cap) False (After hw 0 lapicAdr)
      (es.foldlM HwInfo.add (hw.begin lapicAdr)) := by
  have hb := h.begin lapicAdr
  have hroom : (∀ arr, goTo HwEntry.array arr es ≤ arr.cap) ↔
      ∀ arr, (hw.begin lapicAdr).cnt arr + goTo HwEntry.array arr es ≤ arr.cap := by
    refine forall_congr' fun arr => ?_
    cases arr with
    | pcieCfg => rw [hes]; exact iff_of_true (Nat.zero_le _) (hb .pcieCfg)
    | _ => show _ ↔ 0 + _ ≤ _; rw [Nat.zero_add]
  have ho := entries_outcome hb es
  rw [← hroom, hes] at ho
  generalize es.foldlM HwInfo.add (hw.begin lapicAdr) = x at ho
  cases ho with
  | wild hn => exact .wild hn
  | stop _ hs => exact hs.elim
  | back hf _ ha => exact .back hf id ⟨ha.pcie, ha.nomps, ha.ebda, ha.lapic, ha.within⟩

theorem madtEntries_pcie (t : Unsigned) (n : Nat) : goTo HwEntry.array .pcieCfg (madtEntries mem t n) = 0 := by
  refine goTo_eq_zero (take_forall _ ?_ n 0)
  intro i e i' h
  rw [madtNext] at h
  split at h
  · cases h
    rw [madtEntry]
    split
    · split <;> exact nofun
    · split <;> exact nofun
  · cases h

theorem mpsEntriesAt_pcie : ∀ (n : Nat) (type : Unsigned), goTo HwEntry.array .pcieCfg (mpsEntriesAt mem n type) = 0
  | 0,     _ => rfl
  | n + 1, type => by
    have he : (mpsEntry mem type).array ≠ some .pcieCfg := by
      rw [mpsEntry]
      split
      · split <;> exact nofun
      · split
        · split <;> exact nofun
        · exact nofun
    rw [mpsEntriesAt, goTo_cons, if_neg he, mpsEntriesAt_pcie n]

theorem mpsEntries_pcie (config : Unsigned) : goTo HwEntry.array .pcieCfg (mpsEntries mem config) = 0 :=
  mpsEntriesAt_pcie mem _ _

theorem readMadt_outcome {hw : HwInfo} (h : hw.Within) {t : Unsigned} (ht : IsMadt mem t) :
    ∃ x, Settles .looping (fun fuel => readMadt mem fuel t hw) x ∧
      Outcome (∀ n arr, goTo HwEntry.array arr (madtEntries mem t n) ≤ arr.cap) (¬Ends (madtNext mem t) 0)
        (After hw 0 (mem.u32 (t + 36))) x := by
  have hloop : (fun fuel => readMadt mem fuel t hw) =
      fun fuel => each (madtNext mem t) HwInfo.add .looping fuel 0 (hw.begin (mem.u32 (t + 36))) :=
    funext fun fuel => by rw [readMadt, if_neg (not_not.2 ht.2), madtLoop_eq]; rfl
  have ho : ∀ n, Outcome _ _ _ ((madtEntries mem t n).foldlM HwInfo.add (hw.begin (mem.u32 (t + 36)))) :=
    fun n => begin_outcome h (mem.u32 (t + 36)) (madtEntries_pcie mem t n)
  rw [hloop]
  by_cases hfit : ∀ n arr, goTo HwEntry.array arr (madtEntries mem t n) ≤ arr.cap
  · have hok : ∀ n, ∃ hw', (madtEntries mem t n).foldlM HwInfo.add (hw.begin (mem.u32 (t + 36))) = .ok hw' ∧
        After hw 0 (mem.u32 (t + 36)) hw' := by
      intro n
      have hn := ho n
      generalize (madtEntries mem t n).foldlM HwInfo.add (hw.begin (mem.u32 (t + 36))) = x at hn ⊢
      cases hn with
      | wild hc => exact absurd (hfit n) hc
      | stop _ hs => exact hs.elim
      | back _ _ ha => exact ⟨_, rfl, ha⟩
    by_cases hend : Ends (madtNext mem t) 0
    · obtain ⟨N, hN⟩ := hend
      obtain ⟨hw', hx, ha⟩ := hok N
      exact ⟨_, each_settles_ok hN hx, .back hfit (not_not.2 ⟨N, hN⟩) ha⟩
    · exact ⟨_, each_settles_lost hend fun n => (hok n).imp fun _ hx => hx.1, .stop hfit hend (by decide)⟩
  · obtain ⟨n, hn⟩ := not_forall.1 hfit
    have hx := ho n
    generalize hr : (madtEntries mem t n).foldlM HwInfo.add (hw.begin (mem.u32 (t + 36))) = x at hx
    cases hx with
    | wild _ => exact ⟨_, each_settles_error hr, .wild hfit⟩
    | stop _ hs => exact hs.elim
    | back hf _ _ => exact absurd hf hn

theorem readMcfg_outcome {hw : HwInfo} (h : hw.Within) (t : Unsigned) :
    Outcome (hw.cnt .pcieCfg + min (mcfgCount mem t) maxPcie ≤ maxPcie) (maxPcie < mcfgCount mem t)
      (After hw (min (mcfgCount mem t) maxPcie) hw.lapicAdr) (readMcfg mem t hw) := by
  generalize hk : min (mcfgCount mem t) maxPcie = k
  have hgo : ∀ arr, goTo HwEntry.array arr (mcfgEntries mem t 0 k) = if arr = .pcieCfg then k else 0 := by
    intro arr
    split
    · next he =>
      subst he
      rw [goTo_eq_length fun e he => by obtain ⟨j, -, rfl⟩ := List.mem_map.1 he; rfl]
      simp [mcfgEntries]
    · next he =>
      exact goTo_eq_zero fun e hm hc => by
        obtain ⟨j, -, rfl⟩ := List.mem_map.1 hm
        exact he (Option.some.inj hc).symm
  have ho := entries_outcome h (mcfgEntries mem t 0 k)
  have hfit : (∀ arr, hw.cnt arr + goTo HwEntry.array arr (mcfgEntries mem t 0 k) ≤ arr.cap) ↔
      hw.cnt .pcieCfg + k ≤ maxPcie := by
    refine ⟨fun hf => by have := hf .pcieCfg; rwa [hgo] at this, fun hf arr => ?_⟩
    rw [hgo]
    split
    · next he => subst he; exact hf
    · exact h arr
  rw [hfit, hgo, if_pos rfl] at ho
  rw [readMcfg_eq, hk]
  generalize (mcfgEntries mem t 0 k).foldlM HwInfo.add hw = x at ho
  cases ho with
  | wild hn => exact .wild hn
  | stop _ hs => exact hs.elim
  | back hf _ ha =>
    show Outcome _ _ _ (if maxPcie < mcfgCount mem t then _ else _)
    split
    · next hs => exact .stop hf hs (by decide)
    · next hs => exact .back hf hs ha

theorem passed_outcome {hw : HwInfo} (h : hw.Within) {t : Unsigned} (ht : ¬IsMadt mem t) (hm : ¬IsMcfg mem t) :
    Outcome (TableFits mem (hw.cnt .pcieCfg) t) (Stops mem t)
      (After hw (pcieOf mem t) (lapicAfter mem hw.lapicAdr t)) (.ok hw) := by
  have hp : pcieOf mem t = 0 := if_neg hm
  have hl : lapicAfter mem hw.lapicAdr t = hw.lapicAdr := if_neg ht
  refine .back ⟨fun hc => absurd hc ht, by rw [hp]; exact h .pcieCfg⟩ ?_ (by rw [hp, hl]; exact .same h)
  simp only [Stops, ht, hm, false_and, or_self, not_false_eq_true]

theorem readTable_outcome {hw : HwInfo} (h : hw.Within) (t : Unsigned) :
    ∃ x, Settles .looping (fun fuel => readTable mem fuel hw t) x ∧
      Outcome (TableFits mem (hw.cnt .pcieCfg) t) (Stops mem t)
        (After hw (pcieOf mem t) (lapicAfter mem hw.lapicAdr t)) x := by
  have hsig : madtSignature ≠ mcfgSignature := by decide
  by_cases hmadt : hdrSignature mem t = madtSignature
  · have hmcfg : ¬IsMcfg mem t := fun hc => hsig (hmadt.symm.trans hc)
    simp only [readTable, if_pos hmadt]
    by_cases ht : IsMadt mem t
    · obtain ⟨x, hx, ho⟩ := readMadt_outcome mem h ht
      have hfit : TableFits mem (hw.cnt .pcieCfg) t ↔
          ∀ n arr, goTo HwEntry.array arr (madtEntries mem t n) ≤ arr.cap :=
        ⟨fun hf => hf.madt ht, fun hf => ⟨fun _ => hf, by rw [pcieOf, if_neg hmcfg]; exact h .pcieCfg⟩⟩
      have hst : Stops mem t ↔ ¬Ends (madtNext mem t) 0 := by simp only [Stops, ht, hmcfg, true_and, false_and, or_false]
      refine ⟨x, hx, ?_⟩
      rw [hfit, hst, pcieOf, if_neg hmcfg, lapicAfter, if_pos ht]
      exact ho
    · refine ⟨.ok hw, ?_, passed_outcome mem h ht hmcfg⟩
      have hc : checkSum mem t (hdrLength mem t).toNat ≠ 0 := fun hc => ht ⟨hmadt, hc⟩
      simp only [readMadt, if_pos hc]
      exact .const _ _
  · have ht : ¬IsMadt mem t := fun hc => hmadt hc.1
    simp only [readTable, if_neg hmadt]
    by_cases hmcfg : hdrSignature mem t = mcfgSignature
    · have ho := readMcfg_outcome mem h t
      have hfit : TableFits mem (hw.cnt .pcieCfg) t ↔ hw.cnt .pcieCfg + min (mcfgCount mem t) maxPcie ≤ maxPcie := by
        rw [← if_pos (c := IsMcfg mem t) hmcfg (t := min _ _) (e := 0)]
        exact ⟨fun hf => hf.pcie, fun hf => ⟨fun hc => absurd hc ht, hf⟩⟩
      have hst : Stops mem t ↔ maxPcie < mcfgCount mem t := by
        simp only [Stops, ht, false_and, false_or, and_iff_right_iff_imp]
        exact fun _ => hmcfg
      simp only [if_pos hmcfg]
      refine ⟨_, .const _ _, ?_⟩
      rw [hfit, hst, pcieOf, if_pos (c := IsMcfg mem t) hmcfg, lapicAfter, if_neg ht]
      exact ho
    · simp only [if_neg hmcfg]
      exact ⟨_, .const _ _, passed_outcome mem h ht hmcfg⟩

/-- **The loop over the RSDT**, by induction on the tables. -/
theorem readRsdt_outcome : ∀ (ts : List Unsigned) {hw : HwInfo}, hw.Within →
    ∃ x, Settles .looping (fun fuel => ts.foldlM (readTable mem fuel) hw) x ∧
      Outcome (AcpiFits mem (hw.cnt .pcieCfg) ts) (∃ t ∈ ts, Stops mem t)
        (After hw (ts.map (pcieOf mem)).sum (ts.foldl (lapicAfter mem) hw.lapicAdr)) x
  | [],      hw, h => ⟨.ok hw, .const _ _, .back (acpiFits_nil _) (by simp) (.same h)⟩
  | t :: ts, hw, h => by
    obtain ⟨x, hx, ho⟩ := readTable_outcome mem h t
    simp only [List.foldlM_cons, acpiFits_cons, List.map_cons, List.sum_cons, List.foldl_cons]
    cases ho with
    | wild hn => exact ⟨_, hx.bind_error, .wild fun hf => hn hf.1⟩
    | stop hf hs he => exact ⟨_, hx.bind_error, .stop ⟨hf, fun hc => absurd hs hc⟩ ⟨t, List.mem_cons_self, hs⟩ he⟩
    | @back hf hs hw₁ ha =>
      obtain ⟨y, hy, ho'⟩ := readRsdt_outcome ts ha.within
      refine ⟨y, hx.bind hy, ?_⟩
      rw [ha.pcie, ha.lapic] at ho'
      cases ho' with
      | wild hn => exact .wild fun hf' => hn (hf'.2 hs)
      | stop hf' hs' he =>
        obtain ⟨u, hu, hsu⟩ := hs'
        exact .stop ⟨hf, fun _ => hf'⟩ ⟨u, List.mem_cons_of_mem t hu, hsu⟩ he
      | back hf' hs' ha' =>
        refine .back ⟨hf, fun _ => hf'⟩ (fun ⟨u, hu, hsu⟩ => ?_)
          ⟨by rw [ha'.pcie, ha.pcie, Nat.add_assoc], ha'.nomps.trans ha.nomps, ha'.ebda.trans ha.ebda, ha'.lapic,
            ha'.within⟩
        rcases List.mem_cons.1 hu with rfl | hu
        · exact hs hsu
        · exact hs' ⟨u, hu, hsu⟩

theorem findConfig_congr {hw hw' : HwInfo} (hn : hw'.cmdNomps = hw.cmdNomps) (he : hw'.ebdaAdr = hw.ebdaAdr) :
    findConfig mem hw' = findConfig mem hw := by
  rw [findConfig, findConfig, hn, he]

theorem readMps_outcome {hw : HwInfo} (h : hw.Within) :
    Outcome (∀ config, findConfig mem hw = some config → checkSum mem config (extdLen mem config) = 0 → MpsFits mem config)
      False HwInfo.Within (readMps mem hw) := by
  rw [readMps]
  cases hc : findConfig mem hw with
  | none => exact .back (fun _ hn => nomatch hn) id h
  | some config =>
    show Outcome _ _ _ (if checkSum mem config (extdLen mem config) ≠ 0 then _ else _)
    by_cases hx : checkSum mem config (extdLen mem config) = 0
    · rw [if_neg (not_not.2 hx), mpsLoop_eq]
      have hfit : (∀ c, some config = some c → checkSum mem c (extdLen mem c) = 0 → MpsFits mem c) ↔
          MpsFits mem config := ⟨fun hf => hf config rfl hx, fun hf c he _ => by cases he; exact hf⟩
      rw [hfit]
      have ho := begin_outcome h (mem.u32 (config + 36)) (mpsEntries_pcie mem config)
      show Outcome _ _ _ ((mpsEntries mem config).foldlM HwInfo.add (hw.begin (mem.u32 (config + 36))))
      generalize (mpsEntries mem config).foldlM HwInfo.add (hw.begin (mem.u32 (config + 36))) = x at ho ⊢
      cases ho with
      | wild hn => exact .wild hn
      | stop _ hs => exact hs.elim
      | back hf _ ha => exact .back hf id ha.within
    · rw [if_pos hx]
      exact .back (fun c he hz => by cases he; exact absurd hz hx) id h

/-! ## `get_info` -/

theorem initial_within (cmdNoacpi cmdNomps : Unsigned) : (HwInfo.initial mem cmdNoacpi cmdNomps).Within := fun arr => by
  cases arr <;> exact Nat.zero_le _

theorem fallback_within {hw : HwInfo} (h : hw.Within) : hw.fallback.Within := by
  rw [HwInfo.fallback]
  split
  · intro arr
    cases arr with
    | cpu => show 1 ≤ maxCpu; decide
    | ioapic => exact Nat.zero_le _
    | pcieCfg => exact h .pcieCfg
  · exact h

theorem Outcome.fallback {fits stops : Prop} {x : Boot HwInfo} (h : Outcome fits stops HwInfo.Within x) :
    Outcome fits stops HwInfo.Within (x >>= fun hw => .ok hw.fallback) := by
  cases h with
  | wild hn => exact .wild hn
  | stop hf hs he => exact .stop hf hs he
  | back hf hs ha => exact .back hf hs (fallback_within ha)

theorem Outcome.ne_wild_iff {fits stops : Prop} {after : HwInfo → Prop} {x : Boot HwInfo}
    (h : Outcome fits stops after x) : x ≠ .error .wild ↔ fits := by
  cases h with
  | wild hn => exact iff_of_false (not_not.2 rfl) hn
  | stop hf _ he => exact iff_of_true (fun hc => he (Except.error.inj hc)) hf
  | back hf _ _ => exact iff_of_true nofun hf

theorem readMps_comes {cmdNoacpi cmdNomps : Unsigned} {hw : HwInfo} (h : hw.Within)
    (hfind : findConfig mem hw = findConfig mem (.initial mem cmdNoacpi cmdNomps))
    (hacpi : ∀ rsdt, findRsdt mem (.initial mem cmdNoacpi cmdNomps) = some rsdt →
      (∀ t ∈ rsdtEntries mem rsdt, ¬Stops mem t) ∧ (rsdtEntries mem rsdt).foldl (lapicAfter mem) 0 = 0) :
    Outcome (∀ config, ComesToMps mem cmdNoacpi cmdNomps config → MpsFits mem config) False HwInfo.Within
      (readMps mem hw) := by
  have hfit : (∀ config, ComesToMps mem cmdNoacpi cmdNomps config → MpsFits mem config) ↔
      ∀ config, findConfig mem hw = some config → checkSum mem config (extdLen mem config) = 0 → MpsFits mem config :=
    ⟨fun hf config hc hx => hf config ⟨hfind.symm.trans hc, hx, hacpi⟩,
      fun hf config hc => hf config (hfind.trans hc.found) hc.extd⟩
  rw [hfit]
  exact readMps_outcome mem h

/-- **The ACPI and the MPS tables together.** -/
theorem readTables_outcome (cmdNoacpi cmdNomps : Unsigned) :
    ∃ x, Settles .looping (fun fuel => readTables mem fuel (.initial mem cmdNoacpi cmdNomps)) x ∧
      Outcome (InfoFits mem cmdNoacpi cmdNomps)
        (∃ rsdt, findRsdt mem (.initial mem cmdNoacpi cmdNomps) = some rsdt ∧ ∃ t ∈ rsdtEntries mem rsdt, Stops mem t)
        HwInfo.Within x := by
  have hw₀w := initial_within mem cmdNoacpi cmdNomps
  cases hr : findRsdt mem (.initial mem cmdNoacpi cmdNomps) with
  | none =>
    have hno : ∀ {r} {P : Prop}, findRsdt mem (.initial mem cmdNoacpi cmdNomps) = some r → P :=
      fun h => nomatch hr.symm.trans h
    simp only [readTables, hr]
    refine ⟨_, .const _ _, ?_⟩
    have ho := readMps_comes mem hw₀w rfl (fun _ h => hno h)
    generalize readMps mem (.initial mem cmdNoacpi cmdNomps) = x at ho ⊢
    cases ho with
    | wild hn => exact .wild fun hf => hn hf.mps
    | stop _ hs => exact hs.elim
    | back hf _ ha => exact .back ⟨fun _ h => hno h, hf⟩ (fun ⟨_, h, _⟩ => nomatch h) ha
  | some rsdt =>
    have hthe : ∀ {r}, findRsdt mem (.initial mem cmdNoacpi cmdNomps) = some r → r = rsdt :=
      fun h => (Option.some.inj (hr.symm.trans h)).symm
    simp only [readTables, hr]
    obtain ⟨x, hx, ho⟩ := readRsdt_outcome mem (rsdtEntries mem rsdt) hw₀w
    cases ho with
    | wild hn => exact ⟨_, hx.bind_error, .wild fun hf => hn (hf.acpi rsdt hr)⟩
    | stop hf hs he =>
      refine ⟨_, hx.bind_error, .stop ⟨fun r h => by rw [hthe h]; exact hf, fun config hc => ?_⟩ ⟨rsdt, rfl, hs⟩ he⟩
      obtain ⟨t, ht, hst⟩ := hs
      exact absurd hst ((hc.acpi rsdt hr).1 t ht)
    | @back hf hs hw ha =>
      have hacpi : ∀ r, findRsdt mem (.initial mem cmdNoacpi cmdNomps) = some r → AcpiFits mem 0 (rsdtEntries mem r) :=
        fun r h => by rw [hthe h]; exact hf
      have hback : ¬∃ r, some rsdt = some r ∧ ∃ t ∈ rsdtEntries mem r, Stops mem t :=
        fun ⟨r, h, hst⟩ => hs (by rw [Option.some.inj h]; exact hst)
      refine ⟨_, hx.bind (.const _ _), ?_⟩
      by_cases hl : hw.lapicAdr = 0
      · rw [if_neg (not_not.2 hl)]
        -- the MPS tables are found as they would have been found at the beginning
        have ho := readMps_comes mem ha.within (findConfig_congr mem ha.nomps ha.ebda) (fun r h => by
          rw [hthe h]
          exact ⟨fun t ht hst => hs ⟨t, ht, hst⟩, ha.lapic.symm.trans hl⟩)
        generalize readMps mem hw = y at ho ⊢
        cases ho with
        | wild hn => exact .wild fun hf => hn hf.mps
        | stop _ hs => exact hs.elim
        | back hfm _ hw' => exact .back ⟨hacpi, hfm⟩ hback hw'
      · rw [if_pos hl]
        refine .back ⟨hacpi, fun config hc => ?_⟩ hback ha.within
        exact absurd (ha.lapic.trans (hc.acpi rsdt hr).2) hl

/-- **What `get_info` comes to.** -/
theorem getInfo_outcome (cmdNoacpi cmdNomps : Unsigned) :
    ∃ x, Settles .looping (getInfo mem cmdNoacpi cmdNomps) x ∧
      Outcome (InfoFits mem cmdNoacpi cmdNomps)
        (∃ rsdt, findRsdt mem (.initial mem cmdNoacpi cmdNomps) = some rsdt ∧ ∃ t ∈ rsdtEntries mem rsdt, Stops mem t)
        HwInfo.Within x := by
  obtain ⟨x, hx, ho⟩ := readTables_outcome mem cmdNoacpi cmdNomps
  exact ⟨_, hx.map HwInfo.fallback, ho.fallback⟩

end

/-- `get_info` never writes outside of the three arrays, and when it returns their counters do not exceed their lengths. -/
def InfoSafe (mem : Memory) (cmdNoacpi cmdNomps : Unsigned) : Prop :=
  ∀ fuel, getInfo mem cmdNoacpi cmdNomps fuel ≠ .error .wild ∧
    ∀ hw, getInfo mem cmdNoacpi cmdNomps fuel = .ok hw →
      hw.cpuCnt.toNat ≤ maxCpu ∧ hw.ioapicCnt.toNat ≤ maxIoapic ∧ hw.pcieCnt.toNat ≤ maxPcie

/-- **`get_info` stays inside the arrays exactly if no table that it comes to has more entries than there is room for.** -/
theorem getInfo_safe_iff (mem : Memory) (cmdNoacpi cmdNomps : Unsigned) :
    InfoSafe mem cmdNoacpi cmdNomps ↔ InfoFits mem cmdNoacpi cmdNomps := by
  obtain ⟨x, hx, ho⟩ := getInfo_outcome mem cmdNoacpi cmdNomps
  rw [← ho.ne_wild_iff, ← hx.forall_ne (by decide)]
  refine ⟨fun h fuel => (h fuel).1, fun h fuel => ⟨h fuel, fun hw hok => ?_⟩⟩
  -- a run that returns is what `get_info` comes to
  have hxw : x = .ok hw := by
    rcases hx.always fuel with hl | hl
    · rw [hl] at hok; cases hok
    · rw [← hl, hok]
  rw [hxw] at ho
  cases ho with
  | back _ _ ha => exact ⟨ha .cpu, ha .ioapic, ha .pcieCfg⟩

/-- Memory that holds the given bytes from the given addresses on, and 0 elsewhere. -/
def memoryOf (regions : List (Nat × List (BitVec 8))) : Memory := fun p =>
  regions.foldr (fun r rest => if r.1 ≤ p.toNat ∧ p.toNat < r.1 + r.2.length then r.2.getD (p.toNat - r.1) 0 else rest) 0

/-- An RSDP, an RSDT and a MADT with one enabled processor and two I/O APICs. -/
def twoIoapics : Memory := memoryOf
  [(0xE0000, [0x52, 0x53, 0x44, 0x20, 0x50, 0x54, 0x52, 0x20, 0xd1, 0, 0, 0, 0, 0, 0, 0, 0, 0x10, 0, 0]),
   (0x1000, [0x52, 0x53, 0x44, 0x54, 40, 0, 0, 0, 1, 0x7a]),
   (0x1024, [0, 0x20, 0, 0]),
   (0x2000, [0x41, 0x50, 0x49, 0x43, 76, 0, 0, 0, 1, 0xeb]),
   (0x2024, [0, 0, 0xE0, 0xFE, 1, 0, 0, 0]),
   (0x202C, [0, 8, 0, 0, 1, 0, 0, 0]),
   (0x2034, [1, 12, 2, 0, 0, 0, 0xC0, 0xFE, 0, 0, 0, 0]),
   (0x2040, [1, 12, 3, 0, 0, 0x10, 0xC0, 0xFE, 24, 0, 0, 0])]

/-- **Two I/O APICs are one too many.** -/
theorem twoIoapics_wild : ¬InfoSafe twoIoapics 0 0 := by
  intro h
  have hw : getInfo twoIoapics 0 0 4 = .error .wild := by decide +kernel
  exact (h 4).1 hw

end SmpBoot
