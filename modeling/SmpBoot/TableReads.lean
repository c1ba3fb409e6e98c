import SmpBoot.Boot32Bounds
import Mathlib.Algebra.BigOperators.Intervals
import Mathlib.Algebra.Order.BigOperators.Group.Finset
/-!
# TableReads — how far the loops over the firmware's tables go, and what they read

The loop of `read_madt` goes by the length bytes of the entries, that over the RSDT by the length in its header, that over the
MPS configuration table by its entry count.  None of them looks at where an entry ends.
-/
namespace SmpBoot

open Walk

section
variable (mem : Memory) (madt : Unsigned)

/-! ## The entries of the MADT -/

/-- The length byte of the entry at offset `i` into the entry area. -/
def madtLength (i : Unsigned) : Nat := (mem (madt + offApicStructs + i + 1)).toNat

/-- `i += sublen`. -/
def madtSkip (i : Unsigned) : Unsigned := i + (mem (madt + offApicStructs + i + 1)).setWidth 32

/-- The offset of the `k`-th entry. -/
def madtOffset (k : Nat) : Unsigned := (madtSkip mem madt)^[k] 0

def MadtInside (i : Unsigned) : Prop := offApicStructs + i < hdrLength mem madt

instance : DecidablePred (MadtInside mem madt) := fun i => inferInstanceAs (Decidable (offApicStructs + i < _))

/-- The loop comes to the first `n` entries. -/
def MadtVisits (n : Nat) : Prop := ∀ k < n, MadtInside mem madt (madtOffset mem madt k)

/-- **The loop of `read_madt` comes to an end.** -/
def MadtEnds : Prop := Ends (madtNext mem madt) 0

variable {mem madt}

theorem madtOffset_succ (k : Nat) : madtOffset mem madt (k + 1) = madtSkip mem madt (madtOffset mem madt k) :=
  Function.iterate_succ_apply' _ _ _

theorem madtSkip_eq (i : Unsigned) : madtSkip mem madt i = i + BitVec.ofNat 32 (madtLength mem madt i) := by
  rw [madtSkip, madtLength, BitVec.ofNat_toNat]

theorem madtOffset_eq_add {i j : Nat} (h : i ≤ j) : madtOffset mem madt j =
    madtOffset mem madt i + BitVec.ofNat 32 (∑ k ∈ Finset.Ico i j, madtLength mem madt (madtOffset mem madt k)) := by
  induction j, h using Nat.le_induction with
  | base => simp
  | succ j hij ih =>
    rw [Finset.sum_Ico_succ_top hij, BitVec.ofNat_add, ← BitVec.add_assoc, ← ih, madtOffset_succ, madtSkip_eq]

/-- Entries that lead back are those whose lengths go round the address space, or are all 0. -/
theorem madtOffset_eq_iff {i j : Nat} (h : i ≤ j) : madtOffset mem madt i = madtOffset mem madt j ↔
    (∑ k ∈ Finset.Ico i j, madtLength mem madt (madtOffset mem madt k)) % 2 ^ 32 = 0 := by
  rw [madtOffset_eq_add h]
  generalize ∑ k ∈ Finset.Ico i j, madtLength mem madt (madtOffset mem madt k) = n
  rw [← BitVec.toNat_inj, BitVec.toNat_add, BitVec.toNat_ofNat]
  have hi := (madtOffset mem madt i).isLt
  omega

theorem madtNext_eq (i : Unsigned) : madtNext mem madt i = if MadtInside mem madt i then
    some (madtEntry mem (madt + offApicStructs + i), madtSkip mem madt i) else none := rfl

theorem madtEnds_iff : MadtEnds mem madt ↔ ∀ i j, i < j → MadtVisits mem madt j →
    (∑ k ∈ Finset.Ico i j, madtLength mem madt (madtOffset mem madt k)) % 2 ^ 32 ≠ 0 := by
  have hfin : Finite {i // MadtInside mem madt i} :=
    Finite.of_injective (fun i => i.1.toFin) (fun i j h => Subtype.ext (BitVec.toFin_inj.1 h))
  rw [MadtEnds, ends_iff madtNext_eq, leaves_iff]
  constructor
  · intro h i j hij hv hsum
    have heq := (madtOffset_eq_iff (Nat.le_of_lt hij)).2 hsum
    refine h i j hij (fun k hk => ?_) heq
    rcases Nat.lt_or_eq_of_le hk with hk | rfl
    · exact hv k hk
    · show MadtInside mem madt (madtOffset mem madt k)
      rw [← heq]
      exact hv i hij
  · intro h i j hij hv heq
    exact h i j hij (fun k hk => hv k (Nat.le_of_lt hk)) ((madtOffset_eq_iff (Nat.le_of_lt hij)).1 heq)

/-- In a table that does not reach the end of the address space the offset of an entry is the sum of the lengths before it. -/
theorem madtOffset_toNat (hlen : (hdrLength mem madt).toNat + 254 < 2 ^ 32) :
    ∀ {n : Nat}, MadtVisits mem madt n → (offApicStructs + madtOffset mem madt n).toNat =
      44 + ∑ k ∈ Finset.range n, madtLength mem madt (madtOffset mem madt k)
  | 0,     _ => rfl
  | n + 1, h => by
    have ih := madtOffset_toNat hlen (n := n) (fun k hk => h k (Nat.lt_succ_of_lt hk))
    have hin : (offApicStructs + madtOffset mem madt n).toNat < (hdrLength mem madt).toNat :=
      BitVec.lt_def.1 (h n (Nat.lt_succ_self n))
    have hbyte : madtLength mem madt (madtOffset mem madt n) < 256 := (mem _).isLt
    rw [madtOffset_succ, madtSkip_eq, ← BitVec.add_assoc, BitVec.toNat_add, BitVec.toNat_ofNat, ih, Finset.sum_range_succ]
    rw [ih] at hin
    omega

theorem madtEnds_iff_short (hlen : (hdrLength mem madt).toNat + 254 < 2 ^ 32) : MadtEnds mem madt ↔
    ∀ k, MadtVisits mem madt (k + 1) → madtLength mem madt (madtOffset mem madt k) ≠ 0 := by
  rw [madtEnds_iff]
  constructor
  · intro h k hv hz
    have hsum := h k (k + 1) (Nat.lt_succ_self k) hv
    rw [Nat.Ico_succ_singleton, Finset.sum_singleton, hz] at hsum
    exact hsum rfl
  · intro h i j hij hv hsum
    have hle : ∑ k ∈ Finset.Ico i j, madtLength mem madt (madtOffset mem madt k) ≤
        ∑ k ∈ Finset.range j, madtLength mem madt (madtOffset mem madt k) :=
      Finset.sum_le_sum_of_subset (fun k hk => Finset.mem_range.2 (Finset.mem_Ico.1 hk).2)
    have hlt := (offApicStructs + madtOffset mem madt j).isLt
    rw [madtOffset_toNat hlen hv] at hlt
    rw [Nat.mod_eq_of_lt (by omega)] at hsum
    exact h i (fun k hk => hv k (by omega)) (Finset.sum_eq_zero_iff.1 hsum i (Finset.mem_Ico.2 ⟨Nat.le_refl i, hij⟩))

theorem add_error {hw : HwInfo} {e : HwEntry} {x : BootStop} (h : hw.add e = .error x) : x = .wild := by
  cases e with
  | other => cases h
  | _ =>
    simp only [HwInfo.add, HwInfo.addCpu, HwInfo.addIoapic, HwInfo.addPcie] at h
    split at h
    · cases h
    · cases h
      rfl

theorem foldlM_add_error {x : BootStop} : ∀ (es : List HwEntry) {hw : HwInfo}, es.foldlM HwInfo.add hw = .error x → x = .wild
  | [],      _,  h => by cases h
  | e :: es, hw, h => by
    rw [List.foldlM_cons] at h
    cases he : hw.add e with
    | error y =>
      rw [he] at h
      cases h
      exact add_error he
    | ok hw' =>
      rw [he] at h
      exact foldlM_add_error es h

/-- `read_madt` returns, or writes outside of the arrays. -/
theorem readMadt_of_ends (h : checkSum mem madt (hdrLength mem madt).toNat = 0) (he : MadtEnds mem madt) :
    ∃ N, ∀ fuel ≥ N, ∀ hw, readMadt mem fuel madt hw ≠ .error .looping := by
  obtain ⟨N, hN⟩ := he
  refine ⟨N, fun fuel hf hw hr => ?_⟩
  rw [readMadt, if_neg (not_not.2 h), madtLoop_eq, each_eq, take_of_ended _ hN hf] at hr
  simp only [if_pos (Nat.lt_of_lt_of_le hN hf)] at hr
  generalize hx : (take (madtNext mem madt) N 0).foldlM HwInfo.add _ = x at hr
  cases x with
  | error y =>
    cases hr
    exact absurd (foldlM_add_error _ hx) (by decide)
  | ok hw' => cases hr

theorem readMadt_of_not_ends (h : checkSum mem madt (hdrLength mem madt).toNat = 0) (he : ¬ MadtEnds mem madt)
    (fuel : Nat) (hw hw' : HwInfo) : readMadt mem fuel madt hw ≠ .ok hw' := by
  intro hr
  rw [readMadt, if_neg (not_not.2 h), madtLoop_eq, each_eq] at hr
  simp only [if_neg (fun hn => he ⟨fuel, hn⟩)] at hr
  generalize (take (madtNext mem madt) fuel 0).foldlM HwInfo.add _ = x at hr
  cases x with
  | error y => cases hr
  | ok hw' => cases hr

end

/-- **The loop of `read_madt` comes to an end exactly if no successive entries have lengths that add up to a multiple of 2^32**:
in a table that does not reach the end of the address space, exactly if it comes to no entry with the length 0.  `read_madt` does
not return if its loop does not end. -/
theorem madt_ends_iff (mem : Memory) (madt : Unsigned) (h : checkSum mem madt (hdrLength mem madt).toNat = 0) :
    (MadtEnds mem madt ↔ ∀ i j, i < j → MadtVisits mem madt j →
      (∑ k ∈ Finset.Ico i j, madtLength mem madt (madtOffset mem madt k)) % 2 ^ 32 ≠ 0) ∧
    ((hdrLength mem madt).toNat + 254 < 2 ^ 32 → (MadtEnds mem madt ↔
      ∀ k, MadtVisits mem madt (k + 1) → madtLength mem madt (madtOffset mem madt k) ≠ 0)) ∧
    (MadtEnds mem madt → ∃ N, ∀ fuel ≥ N, ∀ hw, readMadt mem fuel madt hw ≠ .error .looping) ∧
    (¬ MadtEnds mem madt → ∀ fuel hw hw', readMadt mem fuel madt hw ≠ .ok hw') :=
  ⟨madtEnds_iff, madtEnds_iff_short, readMadt_of_ends h, readMadt_of_not_ends h⟩

/-- The three entries of the MADT in `twoIoapics`. -/
theorem madt_ends_twoIoapics : MadtEnds twoIoapics 0x2000 := by
  refine ((madt_ends_iff twoIoapics 0x2000 (by decide +kernel)).2.1 (by decide +kernel)).2 (fun k hv => ?_)
  have hout : ¬ MadtInside twoIoapics 0x2000 (madtOffset twoIoapics 0x2000 3) := by decide +kernel
  have hk : k < 3 := by
    by_contra hk
    exact hout (hv 3 (by omega))
  obtain rfl | rfl | rfl : k = 0 ∨ k = 1 ∨ k = 2 := by omega
  all_goals decide +kernel

/-- A MADT with one entry of length 0, an interrupt source override. -/
def zeroLength : Memory := memoryOf [(0x2000, [0x41, 0x50, 0x49, 0x43, 46, 0, 0, 0, 1, 0xb2]), (0x202C, [2, 0])]

/-- **The loop stays at the entry of length 0.** -/
theorem zeroLength_loops : checkSum zeroLength 0x2000 (hdrLength zeroLength 0x2000).toNat = 0 ∧
    ¬ MadtEnds zeroLength 0x2000 ∧ ∀ fuel hw, readMadt zeroLength fuel 0x2000 hw = .error .looping := by
  have hsum : checkSum zeroLength 0x2000 (hdrLength zeroLength 0x2000).toNat = 0 := by decide +kernel
  have hentry : madtEntry zeroLength (0x2000 + offApicStructs + 0) = .other := by
    rw [madtEntry, if_neg (by decide +kernel), if_neg (by decide +kernel)]
  have hskip : madtSkip zeroLength 0x2000 0 = 0 := by decide +kernel
  have hnext : madtNext zeroLength 0x2000 0 = some (.other, 0) := by
    rw [madtNext_eq, if_pos (by decide +kernel), hentry, hskip]
  have hloop : ∀ fuel hw, madtLoop zeroLength 0x2000 fuel 0 hw = .error .looping := by
    intro fuel hw
    rw [madtLoop_eq]
    induction fuel with
    | zero => rfl
    | succ fuel ih =>
      rw [each, hnext]
      exact ih
  have hread : ∀ fuel hw, readMadt zeroLength fuel 0x2000 hw = .error .looping := by
    intro fuel hw
    rw [readMadt, if_neg (not_not.2 hsum)]
    exact hloop fuel _
  refine ⟨hsum, fun he => ?_, hread⟩
  obtain ⟨N, hN⟩ := readMadt_of_ends hsum he
  exact hN N (Nat.le_refl N) (.initial zeroLength 0 0) (hread N _)

/-! ## The bytes that are read

Offsets are from the beginning of the table and do not wrap. -/

section
variable (mem : Memory)

/-- The pointers to the tables. -/
def rsdtReads (rsdt : Unsigned) : List Nat :=
  (List.range ((hdrLength mem rsdt - sizeofDescHdr).toNat / 4)).flatMap fun i =>
    (List.range 4).map fun k => sizeofDescHdr.toNat + 4 * i + k

/-- What the body of the loop in `read_madt` reads of an entry: its type and its length, then the flags and the id of a
processor, or the id and the address of an I/O APIC. -/
def madtEntryReads (entry : Unsigned) : List Nat :=
  [0, 1] ++
    if mem entry = madtTypeLapic then if (mem (entry + 4)).getLsbD 0 then [4, 3] else [4]
    else if mem entry = madtTypeIoapic then [2, 4, 5, 6, 7]
    else []

def madtReads (madt : Unsigned) : Nat → Unsigned → List Nat
  | 0,        _ => []
  | fuel + 1, i =>
    if MadtInside mem madt i then
      (madtEntryReads mem (madt + offApicStructs + i)).map ((offApicStructs + i).toNat + ·) ++
        madtReads madt fuel (madtSkip mem madt i)
    else []

/-- Its type, then the flags, and if they say that it is enabled the id, and the address of an I/O APIC. -/
def mpsEntryReads (type : Unsigned) : List Nat :=
  0 ::
    if mem type = 0 then if (mem (type + 3)).getLsbD 0 then [3, 1] else [3]
    else if mem type = 2 then if (mem (type + 3)).getLsbD 0 then [3, 1, 4, 5, 6, 7] else [3]
    else []

/-- The reads of `n` entries, the first of which is at offset `o`. -/
def mpsReadsAt (config : Unsigned) : Nat → Nat → List Nat
  | 0,     _ => []
  | n + 1, o =>
    let type := config + BitVec.ofNat 32 o
    (mpsEntryReads mem type).map (o + ·) ++ mpsReadsAt config n (o + (mpsEntrySize mem type).toNat)

def mpsReads (config : Unsigned) : List Nat := mpsReadsAt mem config (cntOem mem config) sizeofMpsConfig.toNat

def baseLength (config : Unsigned) : Nat := (mem.u16 (config + 4)).toNat

variable {mem}

/-! ### Nothing else is read -/

/-- Two memories with the same bytes at offsets from a table. -/
def SameAt (mem mem' : Memory) (t : Unsigned) (os : List Nat) : Prop :=
  ∀ o ∈ os, mem' (t + BitVec.ofNat 32 o) = mem (t + BitVec.ofNat 32 o)

instance (mem mem' : Memory) (t : Unsigned) (os : List Nat) : Decidable (SameAt mem mem' t os) :=
  inferInstanceAs (Decidable (∀ o ∈ os, _))

variable {mem' : Memory} {t : Unsigned}

theorem SameAt.mono {os os' : List Nat} (h : SameAt mem mem' t os) (hsub : os' ⊆ os) : SameAt mem mem' t os' :=
  fun o ho => h o (hsub ho)

/-- The offsets from an entry of the table. -/
theorem SameAt.entry {o : Nat} {os : List Nat} (h : SameAt mem mem' t (os.map (o + ·))) :
    SameAt mem mem' (t + BitVec.ofNat 32 o) os := by
  intro k hk
  rw [BitVec.add_assoc, ← BitVec.ofNat_add]
  exact h (o + k) (List.mem_map_of_mem hk)

theorem SameAt.first {os : List Nat} (h : SameAt mem mem' t (0 :: os)) : mem' t = mem t := by
  have h0 := h 0 List.mem_cons_self
  rwa [BitVec.add_zero] at h0

theorem SameAt.u32 (h : SameAt mem mem' t (List.range 4)) : mem'.u32 t = mem.u32 t := by
  rw [Memory.u32, Memory.u32, CLayout.le_congr 4 (fun k hk => h k (List.mem_range.2 hk))]

theorem SameAt.u16 (h : SameAt mem mem' t (List.range 2)) : mem'.u16 t = mem.u16 t := by
  rw [Memory.u16, Memory.u16, CLayout.le_congr 2 (fun k hk => h k (List.mem_range.2 hk))]

theorem rsdtEntries_congr (hlen : hdrLength mem' t = hdrLength mem t) (h : SameAt mem mem' t (rsdtReads mem t)) :
    rsdtEntries mem' t = rsdtEntries mem t := by
  rw [rsdtEntries, rsdtEntries, hlen]
  refine List.map_congr_left (fun i hi => ?_)
  have hentry : SameAt mem mem' (t + BitVec.ofNat 32 (sizeofDescHdr.toNat + 4 * i)) (List.range 4) :=
    (h.mono (fun o ho => List.mem_flatMap.2 ⟨i, hi, ho⟩)).entry
  rw [BitVec.ofNat_add, BitVec.ofNat_toNat, BitVec.setWidth_eq, ← BitVec.add_assoc] at hentry
  exact hentry.u32

theorem madtSwitch_congr {entry : Unsigned} (h : SameAt mem mem' entry (madtEntryReads mem entry)) (hw : HwInfo) :
    madtSwitch mem' entry hw = madtSwitch mem entry hw := by
  have htype := SameAt.first h
  rw [madtEntryReads] at h
  rw [madtSwitch, madtSwitch, htype]
  by_cases h0 : mem entry = madtTypeLapic
  · rw [if_pos h0] at h
    have hflags : mem' (entry + 4) = mem (entry + 4) := h 4 (by split <;> simp)
    rw [if_pos h0, if_pos h0, hflags]
    by_cases hen : (mem (entry + 4)).getLsbD 0
    · rw [if_pos hen] at h
      have hid : mem' (entry + 3) = mem (entry + 3) := h 3 (by simp)
      rw [hid]
    · rw [if_neg hen, if_neg hen]
  · rw [if_neg h0] at h
    rw [if_neg h0, if_neg h0]
    by_cases h1 : mem entry = madtTypeIoapic
    · rw [if_pos h1] at h
      have hid : mem' (entry + 2) = mem (entry + 2) := h 2 (by simp)
      have hadr : SameAt mem mem' (entry + BitVec.ofNat 32 4) (List.range 4) :=
        (h.mono (by decide : (List.range 4).map (4 + ·) ⊆ [0, 1] ++ [2, 4, 5, 6, 7])).entry
      have hadr : mem'.u32 (entry + 4) = mem.u32 (entry + 4) := hadr.u32
      rw [if_pos h1, if_pos h1, hid, hadr]
    · rw [if_neg h1, if_neg h1]

theorem madtLoop_congr (hlen : hdrLength mem' t = hdrLength mem t) : ∀ (fuel : Nat) (i : Unsigned) (hw : HwInfo),
    SameAt mem mem' t (madtReads mem t fuel i) → madtLoop mem' t fuel i hw = madtLoop mem t fuel i hw
  | 0,        _, _,  _ => rfl
  | fuel + 1, i, hw, h => by
    rw [madtLoop, madtLoop, hlen]
    rw [madtReads] at h
    by_cases hin : MadtInside mem t i
    · have hlt : offApicStructs + i < hdrLength mem t := hin
      rw [if_pos hin] at h
      have hentry := (h.mono (List.subset_append_left _ _)).entry
      rw [BitVec.ofNat_toNat, BitVec.setWidth_eq, ← BitVec.add_assoc] at hentry
      have hsub : mem' (t + offApicStructs + i + 1) = mem (t + offApicStructs + i + 1) := hentry 1 (by simp [madtEntryReads])
      simp only [if_pos hlt, madtSwitch_congr hentry, hsub]
      exact bind_congr fun hw' => madtLoop_congr hlen fuel _ hw' (h.mono (List.subset_append_right _ _))
    · have hge : ¬ offApicStructs + i < hdrLength mem t := hin
      rw [if_neg hge, if_neg hge]

theorem mpsEntry_congr {type : Unsigned} (h : SameAt mem mem' type (mpsEntryReads mem type)) :
    mpsEntry mem' type = mpsEntry mem type ∧ mpsEntrySize mem' type = mpsEntrySize mem type := by
  have htype := SameAt.first h
  refine ⟨?_, by rw [mpsEntrySize, mpsEntrySize, htype]⟩
  rw [mpsEntryReads] at h
  rw [mpsEntry, mpsEntry, htype]
  by_cases h0 : mem type = 0
  · rw [if_pos h0] at h
    have hflags : mem' (type + 3) = mem (type + 3) := h 3 (by split <;> simp)
    rw [if_pos h0, if_pos h0, hflags]
    by_cases hen : (mem (type + 3)).getLsbD 0
    · rw [if_pos hen] at h
      have hid : mem' (type + 1) = mem (type + 1) := h 1 (by simp)
      rw [hid]
    · rw [if_neg hen, if_neg hen]
  · rw [if_neg h0] at h
    rw [if_neg h0, if_neg h0]
    by_cases h2 : mem type = 2
    · rw [if_pos h2] at h
      have hflags : mem' (type + 3) = mem (type + 3) := h 3 (by split <;> simp)
      rw [if_pos h2, if_pos h2, hflags]
      by_cases hen : (mem (type + 3)).getLsbD 0
      · rw [if_pos hen] at h
        have hid : mem' (type + 1) = mem (type + 1) := h 1 (by simp)
        have hadr : SameAt mem mem' (type + BitVec.ofNat 32 4) (List.range 4) :=
          (h.mono (by decide : (List.range 4).map (4 + ·) ⊆ [0, 3, 1, 4, 5, 6, 7])).entry
        have hadr : mem'.u32 (type + 4) = mem.u32 (type + 4) := hadr.u32
        rw [hid, hadr]
      · rw [if_neg hen, if_neg hen]
    · rw [if_neg h2, if_neg h2]

theorem mpsEntriesAt_congr : ∀ (n o : Nat), SameAt mem mem' t (mpsReadsAt mem t n o) →
    mpsEntriesAt mem' n (t + BitVec.ofNat 32 o) = mpsEntriesAt mem n (t + BitVec.ofNat 32 o)
  | 0,     _, _ => rfl
  | n + 1, o, h => by
    obtain ⟨hentry, hsize⟩ := mpsEntry_congr ((h.mono (List.subset_append_left _ _)).entry)
    have hrest := mpsEntriesAt_congr n _ (h.mono (List.subset_append_right _ _))
    rw [BitVec.ofNat_add, BitVec.ofNat_toNat, BitVec.setWidth_eq, ← BitVec.add_assoc] at hrest
    rw [mpsEntriesAt, mpsEntriesAt, hentry, hsize, hrest]

/-! ### Where an entry ends -/

/-- The bytes of an entry up to the last one that is read. -/
def madtNeeds (type : BitVec 8) : Nat := if type = madtTypeLapic then 5 else if type = madtTypeIoapic then 8 else 2

def mpsNeeds (mem : Memory) (type : Unsigned) : Nat :=
  if mem type = 0 then 4 else if mem type = 2 then if (mem (type + 3)).getLsbD 0 then 8 else 4 else 1

/-- The offset of the `k`-th entry of an MPS configuration table from its beginning. -/
def mpsOffset (mem : Memory) (config : Unsigned) : Nat → Nat
  | 0     => sizeofMpsConfig.toNat
  | k + 1 => mpsOffset mem config k + (mpsEntrySize mem (config + BitVec.ofNat 32 (mpsOffset mem config k))).toNat

theorem madtEntryReads_lt {entry : Unsigned} {o last : Nat} :
    (∀ k ∈ madtEntryReads mem entry, o + k < last) ↔ o + madtNeeds (mem entry) ≤ last := by
  rw [madtEntryReads, madtNeeds]
  split
  · split <;> simp <;> omega
  · split <;> simp <;> omega

theorem mpsEntryReads_lt {type : Unsigned} {o last : Nat} :
    (∀ k ∈ mpsEntryReads mem type, o + k < last) ↔ o + mpsNeeds mem type ≤ last := by
  rw [mpsEntryReads, mpsNeeds]
  split
  · split <;> simp <;> omega
  · split
    · split <;> simp <;> omega
    · simp

theorem add_next (n k : Nat) : n + (k + 1) = n + 1 + k := by omega

/-- **The reads of the loop are those of the entries it comes to**, from the `n`-th on. -/
theorem madtReads_forall {P : Nat → Prop} : ∀ (fuel n : Nat), (∀ o ∈ madtReads mem t fuel (madtOffset mem t n), P o) ↔
    ∀ k < fuel, (∀ j ≤ k, MadtInside mem t (madtOffset mem t (n + j))) →
      ∀ r ∈ madtEntryReads mem (t + offApicStructs + madtOffset mem t (n + k)),
        P ((offApicStructs + madtOffset mem t (n + k)).toNat + r)
  | 0,        n => by simp [madtReads]
  | fuel + 1, n => by
    rw [madtReads]
    by_cases hin : MadtInside mem t (madtOffset mem t n)
    · have ih := madtReads_forall (P := P) fuel (n + 1)
      rw [if_pos hin, ← madtOffset_succ, List.forall_mem_append, ih, List.forall_mem_map]
      constructor
      · rintro ⟨h0, hs⟩ k hk hv
        cases k with
        | zero => exact h0
        | succ k =>
          rw [add_next]
          refine hs k (Nat.lt_of_succ_lt_succ hk) (fun j hj => ?_)
          rw [← add_next]
          exact hv (j + 1) (Nat.succ_le_succ hj)
      · intro h
        refine ⟨h 0 (Nat.succ_pos fuel) (fun j hj => by cases Nat.le_zero.1 hj; exact hin), fun k hk hv => ?_⟩
        have hk := h (k + 1) (Nat.succ_lt_succ hk)
        rw [add_next n k] at hk
        refine hk (fun j hj => ?_)
        cases j with
        | zero => exact hin
        | succ j =>
          rw [add_next]
          exact hv j (Nat.le_of_succ_le_succ hj)
    · rw [if_neg hin]
      exact iff_of_true nofun (fun k _ hv => absurd (hv 0 (Nat.zero_le k)) hin)

theorem mpsReads_forall {P : Nat → Prop} : ∀ (n k : Nat), (∀ o ∈ mpsReadsAt mem t n (mpsOffset mem t k), P o) ↔
    ∀ j < n, ∀ r ∈ mpsEntryReads mem (t + BitVec.ofNat 32 (mpsOffset mem t (k + j))), P (mpsOffset mem t (k + j) + r)
  | 0,     k => by simp [mpsReadsAt]
  | n + 1, k => by
    have ih := mpsReads_forall (P := P) n (k + 1)
    rw [mpsOffset] at ih
    rw [mpsReadsAt, List.forall_mem_append, ih, List.forall_mem_map]
    constructor
    · rintro ⟨h0, hs⟩ j hj
      cases j with
      | zero => exact h0
      | succ j =>
        rw [add_next]
        exact hs j (Nat.lt_of_succ_lt_succ hj)
    · intro h
      refine ⟨h 0 (Nat.succ_pos n), fun j hj => ?_⟩
      have hj := h (j + 1) (Nat.succ_lt_succ hj)
      rwa [add_next] at hj

theorem mpsLoop_congr (n o : Nat) (hw : HwInfo) (h : SameAt mem mem' t (mpsReadsAt mem t n o)) :
    mpsLoop mem' n (t + BitVec.ofNat 32 o) hw = mpsLoop mem n (t + BitVec.ofNat 32 o) hw := by
  rw [mpsLoop_eq, mpsLoop_eq, mpsEntriesAt_congr n o h]

variable (mem t) in
def RsdtReadsInside : Prop := ∀ o ∈ rsdtReads mem t, o < (hdrLength mem t).toNat

variable (mem t) in
def MadtReadsInside : Prop := ∀ fuel, ∀ o ∈ madtReads mem t fuel 0, o < (hdrLength mem t).toNat

variable (mem t) in
def MpsReadsInside : Prop := ∀ o ∈ mpsReads mem t, o < baseLength mem t

theorem rsdtReadsInside_iff : RsdtReadsInside mem t ↔ 36 ≤ (hdrLength mem t).toNat := by
  have hcount : (hdrLength mem t - sizeofDescHdr).toNat = (2 ^ 32 - 36 + (hdrLength mem t).toNat) % 2 ^ 32 :=
    BitVec.toNat_sub _ _
  have hlt := (hdrLength mem t).isLt
  have hmem : ∀ o, o ∈ rsdtReads mem t ↔ ∃ i < (hdrLength mem t - sizeofDescHdr).toNat / 4, ∃ k < 4, 36 + 4 * i + k = o := by
    intro o
    simp only [rsdtReads, List.mem_flatMap, List.mem_map, List.mem_range]
    rfl
  constructor
  · intro h
    by_contra hshort
    -- the subtraction wraps, and there is a first entry
    have h36 := h 36 ((hmem 36).2 ⟨0, by omega, 0, by omega, rfl⟩)
    omega
  · intro h o ho
    obtain ⟨i, hi, k, hk, rfl⟩ := (hmem o).1 ho
    omega

theorem madtReadsInside_iff : MadtReadsInside mem t ↔ ∀ k, MadtVisits mem t (k + 1) →
    (offApicStructs + madtOffset mem t k).toNat + madtNeeds (mem (t + offApicStructs + madtOffset mem t k)) ≤
      (hdrLength mem t).toNat := by
  have hall := fun fuel => @madtReads_forall mem t (· < (hdrLength mem t).toNat) fuel 0
  simp only [Nat.zero_add, madtEntryReads_lt] at hall
  refine (forall_congr' hall).trans ⟨fun h k hv => ?_, fun h fuel k _ hv => ?_⟩
  · exact h (k + 1) k (Nat.lt_succ_self k) (fun j hj => hv j (Nat.lt_succ_of_le hj))
  · exact h k (fun j hj => hv j (Nat.le_of_lt_succ hj))

theorem mpsReadsInside_iff : MpsReadsInside mem t ↔ ∀ k < cntOem mem t,
    mpsOffset mem t k + mpsNeeds mem (t + BitVec.ofNat 32 (mpsOffset mem t k)) ≤ baseLength mem t := by
  have hall := @mpsReads_forall mem t (· < baseLength mem t) (cntOem mem t) 0
  simp only [Nat.zero_add, mpsEntryReads_lt] at hall
  exact hall

end

/-- **The bytes read lie in the table**: of the RSDT if its length is not below that of its header, of the MADT if each entry that
the loop comes to is in the table as far as it is read, of the MPS configuration table if each entry that is counted is. -/
theorem table_reads_iff (mem : Memory) (t : Unsigned) :
    (RsdtReadsInside mem t ↔ 36 ≤ (hdrLength mem t).toNat) ∧
    (MadtReadsInside mem t ↔ ∀ k, MadtVisits mem t (k + 1) →
      (offApicStructs + madtOffset mem t k).toNat + madtNeeds (mem (t + offApicStructs + madtOffset mem t k)) ≤
        (hdrLength mem t).toNat) ∧
    (MpsReadsInside mem t ↔ ∀ k < cntOem mem t,
      mpsOffset mem t k + mpsNeeds mem (t + BitVec.ofNat 32 (mpsOffset mem t k)) ≤ baseLength mem t) :=
  ⟨rsdtReadsInside_iff, madtReadsInside_iff, mpsReadsInside_iff⟩

section
variable {mem mem' : Memory} {t : Unsigned}

theorem SameAt.hdrLength {os : List Nat} (h : SameAt mem mem' t ((List.range 4).map (4 + ·) ++ os)) :
    hdrLength mem' t = hdrLength mem t := (h.mono (List.subset_append_left _ _)).entry.u32

theorem SameAt.cntOem {os : List Nat} (h : SameAt mem mem' t ((List.range 2).map (34 + ·) ++ os)) :
    cntOem mem' t = cntOem mem t := congrArg BitVec.toNat (h.mono (List.subset_append_left _ _)).entry.u16

end

/-- An RSDT of 10 bytes, a MADT that ends behind the type of its entry, and an MPS configuration table that counts an entry behind
its end. -/
def cutTables : Memory := memoryOf
  [(0x1000, [0x52, 0x53, 0x44, 0x54, 10, 0, 0, 0, 1, 0xb8]),
   (0x2000, [0x41, 0x50, 0x49, 0x43, 45, 0, 0, 0, 1, 0xb5]),
   (0x3000, [0x50, 0x43, 0x4d, 0x50, 44, 0, 4, 0x9f]),
   (0x3022, [1, 0])]

theorem cutTables_outside :
    (checkSum cutTables 0x1000 (hdrLength cutTables 0x1000).toNat = 0 ∧ ¬ RsdtReadsInside cutTables 0x1000) ∧
    (checkSum cutTables 0x2000 (hdrLength cutTables 0x2000).toNat = 0 ∧ ¬ MadtReadsInside cutTables 0x2000) ∧
    (checkSum cutTables 0x3000 (baseLength cutTables 0x3000) = 0 ∧ ¬ MpsReadsInside cutTables 0x3000) := by
  refine ⟨⟨by decide +kernel, fun h => ?_⟩, ⟨by decide +kernel, fun h => ?_⟩, ⟨by decide +kernel, fun h => ?_⟩⟩
  · exact absurd (rsdtReadsInside_iff.1 h) (by decide +kernel)
  · have hin : MadtInside cutTables 0x2000 (madtOffset cutTables 0x2000 0) := by decide +kernel
    have hfirst := madtReadsInside_iff.1 h 0 (fun k hk => by rw [Nat.lt_one_iff.1 hk]; exact hin)
    exact absurd hfirst (by decide +kernel)
  · exact absurd (mpsReadsInside_iff.1 h 0 (by decide +kernel)) (by decide +kernel)

/-- **No other byte of a table is read**: the loops find the same in every memory that has the same bytes there, and in the
field that gives the length or the count. -/
theorem table_reads_all (mem mem' : Memory) (t : Unsigned) :
    (SameAt mem mem' t ((List.range 4).map (4 + ·) ++ rsdtReads mem t) → rsdtEntries mem' t = rsdtEntries mem t) ∧
    (∀ fuel hw, SameAt mem mem' t ((List.range 4).map (4 + ·) ++ madtReads mem t fuel 0) →
      madtLoop mem' t fuel 0 hw = madtLoop mem t fuel 0 hw) ∧
    (∀ hw, SameAt mem mem' t ((List.range 2).map (34 + ·) ++ mpsReads mem t) →
      mpsLoop mem' (cntOem mem' t) (t + sizeofMpsConfig) hw = mpsLoop mem (cntOem mem t) (t + sizeofMpsConfig) hw) := by
  refine ⟨fun h => ?_, fun fuel hw h => ?_, fun hw h => ?_⟩
  · exact rsdtEntries_congr h.hdrLength (h.mono (List.subset_append_right _ _))
  · exact madtLoop_congr h.hdrLength fuel 0 hw (h.mono (List.subset_append_right _ _))
  · rw [h.cntOem]
    exact mpsLoop_congr (cntOem mem t) sizeofMpsConfig.toNat hw (h.mono (List.subset_append_right _ _))

/-- Three tables with one entry each. -/
def wholeTables : Memory := memoryOf
  [(0x1000, [0x52, 0x53, 0x44, 0x54, 40, 0, 0, 0]), (0x1024, [0, 0x20, 0, 0]),
   (0x2000, [0x41, 0x50, 0x49, 0x43, 52, 0, 0, 0]), (0x202c, [0, 8, 0, 0, 1, 0, 0, 0]),
   (0x3000, [0x50, 0x43, 0x4d, 0x50, 64, 0, 4, 0]), (0x3022, [1, 0]), (0x302c, [0, 1, 0x14, 3])]

/-- Another byte at 0x4000. -/
theorem table_reads_all_behind :
    rsdtEntries (Function.update wholeTables 0x4000 7) 0x1000 = rsdtEntries wholeTables 0x1000 ∧
    madtLoop (Function.update wholeTables 0x4000 7) 0x2000 2 0 (.initial wholeTables 0 0) =
      madtLoop wholeTables 0x2000 2 0 (.initial wholeTables 0 0) ∧
    mpsLoop (Function.update wholeTables 0x4000 7) (cntOem (Function.update wholeTables 0x4000 7) 0x3000)
        (0x3000 + sizeofMpsConfig) (.initial wholeTables 0 0) =
      mpsLoop wholeTables (cntOem wholeTables 0x3000) (0x3000 + sizeofMpsConfig) (.initial wholeTables 0 0) := by
  obtain ⟨hrsdt, -, -⟩ := table_reads_all wholeTables (Function.update wholeTables 0x4000 7) 0x1000
  obtain ⟨-, hmadt, -⟩ := table_reads_all wholeTables (Function.update wholeTables 0x4000 7) 0x2000
  obtain ⟨-, -, hmps⟩ := table_reads_all wholeTables (Function.update wholeTables 0x4000 7) 0x3000
  exact ⟨hrsdt (by decide +kernel), hmadt 2 _ (by decide +kernel), hmps _ (by decide +kernel)⟩

end SmpBoot
