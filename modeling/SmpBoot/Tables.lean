import Mathlib.Data.BitVec
import Mathlib.Data.List.Induction
import SmpBoot.HwLists
/-!
# Tables — the MADT and the MPS configuration table that describe the same devices

Two encodings of the same list of processors and I/O APICs: a MADT says in each entry how long it is and in its header how
long the table is, an MPS table has entries of fixed sizes and counts them.  `Memory.Holds` is the invariant of both walks:
what is left of the table's bytes stands in memory at the place that the parser has come to.
-/
namespace SmpBoot

open Walk CLayout

/-! ## Bytes in memory -/

/-- The bytes stand in memory from `p` on. -/
def Memory.Holds (mem : Memory) : Unsigned → List (BitVec 8) → Prop
  | _, []      => True
  | p, b :: bs => mem p = b ∧ mem.Holds (p + 1) bs

instance (mem : Memory) : ∀ (p : Unsigned) (bs : List (BitVec 8)), Decidable (mem.Holds p bs)
  | _, []      => isTrue trivial
  | p, _ :: bs => @instDecidableAnd _ _ _ (instDecidableHolds mem (p + 1) bs)

/-- The little-endian bytes of a number. -/
def bytesLe (n x : Nat) : List (BitVec 8) := (List.range n).map (byteOf x)

@[simp] theorem length_bytesLe (n x : Nat) : (bytesLe n x).length = n := by simp [bytesLe]

section Holds
variable {mem : Memory} {p : Unsigned}

theorem Memory.Holds.append : ∀ {p : Unsigned} (xs : List (BitVec 8)) {ys : List (BitVec 8)},
    mem.Holds p (xs ++ ys) ↔ mem.Holds p xs ∧ mem.Holds (p + BitVec.ofNat 32 xs.length) ys
  | p, [],      ys => by simp [Memory.Holds]
  | p, x :: xs, ys => by
    have he : p + BitVec.ofNat 32 (x :: xs).length = p + 1 + BitVec.ofNat 32 xs.length := by
      rw [List.length_cons, BitVec.ofNat_add, BitVec.add_comm (BitVec.ofNat 32 xs.length), ← BitVec.add_assoc]
      rfl
    rw [he, List.cons_append, Memory.Holds, Memory.Holds, Memory.Holds.append xs, and_assoc]

theorem Memory.Holds.first {xs ys : List (BitVec 8)} (h : mem.Holds p (xs ++ ys)) : mem.Holds p xs :=
  ((Memory.Holds.append xs).1 h).1

/-- Behind the first field, `k` bytes from `p`. -/
theorem Memory.Holds.rest {xs ys : List (BitVec 8)} {n : Nat} (h : mem.Holds (p + BitVec.ofNat 32 n) (xs ++ ys)) {k : Nat}
    (hk : n + xs.length = k) : mem.Holds (p + BitVec.ofNat 32 k) ys := by
  have := ((Memory.Holds.append xs).1 h).2
  rwa [BitVec.add_assoc, ← BitVec.ofNat_add, hk] at this

theorem add_ofNat_zero (p : Unsigned) : p + BitVec.ofNat 32 0 = p := BitVec.add_zero p

theorem Memory.Holds.start {bs : List (BitVec 8)} (h : mem.Holds p bs) : mem.Holds (p + BitVec.ofNat 32 0) bs := by
  rwa [add_ofNat_zero]

theorem Memory.Holds.get : ∀ {p : Unsigned} {bs : List (BitVec 8)} (_ : mem.Holds p bs) {i : Nat} {b : BitVec 8},
    bs[i]? = some b → mem (p + BitVec.ofNat 32 i) = b
  | p, b :: bs, h, 0,     c, hi => by
    rw [List.getElem?_cons_zero] at hi
    cases hi
    rw [add_ofNat_zero]
    exact h.1
  | p, b :: bs, h, i + 1, c, hi => by
    rw [BitVec.ofNat_add, BitVec.add_comm (BitVec.ofNat 32 i), ← BitVec.add_assoc]
    exact h.2.get hi

theorem Memory.Holds.head {bs : List (BitVec 8)} (h : mem.Holds p bs) {b : BitVec 8} (hb : bs[0]? = some b) : mem p = b := by
  have hget := h.get hb
  rwa [add_ofNat_zero] at hget

theorem Memory.Holds.le {n x : Nat} (h : mem.Holds p (bytesLe n x)) :
    CLayout.le n (fun i => mem (p + BitVec.ofNat 32 i)) = x % 256 ^ n := by
  rw [← le_byteOf n x]
  refine le_congr n (fun i hi => h.get ?_)
  simp [bytesLe, hi]

theorem Memory.Holds.u32 {v : Unsigned} (h : mem.Holds p (bytesLe 4 v.toNat)) : mem.u32 p = v := by
  have hlt : v.toNat < 256 ^ 4 := v.isLt
  rw [Memory.u32, h.le, Nat.mod_eq_of_lt hlt, BitVec.ofNat_toNat, BitVec.setWidth_eq]

theorem Memory.Holds.u16 {v : BitVec 16} (h : mem.Holds p (bytesLe 2 v.toNat)) : mem.u16 p = v := by
  have hlt : v.toNat < 256 ^ 2 := v.isLt
  rw [Memory.u16, h.le, Nat.mod_eq_of_lt hlt, BitVec.ofNat_toNat, BitVec.setWidth_eq]

theorem Memory.Holds.checkSum {bs : List (BitVec 8)} (h : mem.Holds p bs) : SmpBoot.checkSum mem p bs.length = bs.sum := by
  induction bs using List.reverseRecOn with
  | nil => rfl
  | append_singleton bs b ih =>
    obtain ⟨h1, h2⟩ := (Memory.Holds.append bs).1 h
    rw [List.length_append, List.length_singleton, SmpBoot.checkSum, ih h1, h2.1, List.sum_append, List.sum_singleton]

end Holds

/-- A table with the byte that makes its sum 0. -/
def withCheck (front back : List (BitVec 8)) : List (BitVec 8) := front ++ -(front.sum + back.sum) :: back

theorem sum_withCheck (front back : List (BitVec 8)) : (withCheck front back).sum = 0 := by
  rw [withCheck, List.sum_append, List.sum_cons, BitVec.add_comm (-_), ← BitVec.add_assoc, BitVec.add_right_neg]
  rfl

@[simp] theorem length_withCheck (front back : List (BitVec 8)) :
    (withCheck front back).length = front.length + 1 + back.length := by
  rw [withCheck, List.length_append, List.length_cons]
  omega

theorem withCheck_eq (front back : List (BitVec 8)) :
    withCheck front back = front ++ ([-(front.sum + back.sum)] ++ back) := rfl

/-! ## Devices -/

/-- What both tables describe. -/
inductive Device where
  | processor (lapicId : BitVec 8) (enabled : Bool)
  | ioapic (id : BitVec 8) (adr : Unsigned)
  deriving DecidableEq

def Device.entry : Device → HwEntry
  | .processor lapicId true => .cpu lapicId
  | .processor _ false      => .other
  | .ioapic id adr          => .ioapic id adr

/-- An entry of either table, of a device or of something else. -/
def entryOf : Option Device → HwEntry
  | some d => d.entry
  | none   => .other

theorem entryOf_processor (lapicId : BitVec 8) (enabled : Bool) :
    entryOf (some (.processor lapicId enabled)) = if enabled then .cpu lapicId else .other := by
  cases enabled <;> rfl

def Device.cpu? (d : Device) : Option Unsigned := d.entry.cpu?
def Device.ioapic? (d : Device) : Option IoapicInfo := d.entry.ioapic?

theorem entries_cpus (ds : List (Option Device)) :
    (ds.map entryOf).filterMap HwEntry.cpu? = (ds.filterMap id).filterMap Device.cpu? := by
  rw [List.filterMap_map, List.filterMap_filterMap]
  congr 1
  funext d
  cases d <;> rfl

theorem entries_ioapics (ds : List (Option Device)) :
    (ds.map entryOf).filterMap HwEntry.ioapic? = (ds.filterMap id).filterMap Device.ioapic? := by
  rw [List.filterMap_map, List.filterMap_filterMap]
  congr 1
  funext d
  cases d <;> rfl

/-! ## The MADT -/

/-- An entry of a MADT.  The length byte is that of the structure, and 2 more than the body of another type. -/
inductive MadtItem where
  | lapic (acpiId lapicId : BitVec 8) (flags : Unsigned)
  | ioapic (id reserved : BitVec 8) (adr gsib : Unsigned)
  | other (type : BitVec 8) (body : List (BitVec 8)) (lapic : type ≠ madtTypeLapic) (ioapic : type ≠ madtTypeIoapic)
      (len : body.length ≤ 253)

def MadtItem.bytes : MadtItem → List (BitVec 8)
  | .lapic acpiId lapicId flags    => [madtTypeLapic, 8, acpiId, lapicId] ++ bytesLe 4 flags.toNat
  | .ioapic id reserved adr gsib   =>
    [madtTypeIoapic, 12, id, reserved] ++ (bytesLe 4 adr.toNat ++ bytesLe 4 gsib.toNat)
  | .other type body _ _ _         => [type, BitVec.ofNat 8 (body.length + 2)] ++ body

def MadtItem.device? : MadtItem → Option Device
  | .lapic _ lapicId flags => some (.processor lapicId (flags.getLsbD 0))
  | .ioapic id _ adr _     => some (.ioapic id adr)
  | .other _ _ _ _ _       => none

theorem MadtItem.length_bytes (x : MadtItem) : 2 ≤ x.bytes.length ∧ x.bytes.length ≤ 255 := by
  cases x with
  | other type body h1 h2 len => simp [MadtItem.bytes]; omega
  | _ => simp [MadtItem.bytes]

/-- The parser sees the device of an entry, and the length of the entry. -/
theorem madtEntry_bytes {mem : Memory} {p : Unsigned} {x : MadtItem} (h : mem.Holds p x.bytes) :
    madtEntry mem p = entryOf x.device? ∧ mem (p + 1) = BitVec.ofNat 8 x.bytes.length := by
  cases x with
  | lapic acpiId lapicId flags =>
    have h4 : mem (p + 4) = byteOf flags.toNat 0 := h.get rfl
    have hid : mem (p + 3) = lapicId := h.get rfl
    have hbit : (byteOf flags.toNat 0).getLsbD 0 = flags.getLsbD 0 := by simp [byteOf, BitVec.getLsbD]
    refine ⟨?_, h.get rfl⟩
    rw [madtEntry, if_pos (h.head rfl), h4, hbit, hid]
    exact (entryOf_processor lapicId _).symm
  | ioapic id reserved adr gsib =>
    have hadr : mem.u32 (p + 4) = adr := by
      obtain ⟨-, h'⟩ := (Memory.Holds.append _).1 h
      exact ((Memory.Holds.append _).1 h').1.u32
    have htype : mem p = madtTypeIoapic := h.head rfl
    have hid : mem (p + 2) = id := h.get rfl
    refine ⟨?_, h.get rfl⟩
    rw [madtEntry, if_neg (by rw [htype]; decide), if_pos htype, hid, hadr]
    rfl
  | other type body h1 h2 len =>
    have htype : mem p = type := h.head rfl
    have hlen : mem (p + 1) = BitVec.ofNat 8 (body.length + 2) := h.get rfl
    refine ⟨?_, ?_⟩
    · rw [madtEntry, if_neg (by rw [htype]; exact h1), if_neg (by rw [htype]; exact h2)]
      rfl
    · rw [hlen]
      simp [MadtItem.bytes]

/-- **The walk over the entries**: with `i` bytes behind it the parser finds the entries that are left. -/
theorem take_madtNext {mem : Memory} {t : Unsigned} : ∀ (xs : List MadtItem) (i : Unsigned) (n : Nat),
    mem.Holds (t + offApicStructs + i) (xs.flatMap MadtItem.bytes) →
    44 + i.toNat + (xs.flatMap MadtItem.bytes).length = (hdrLength mem t).toNat → xs.length < n →
    take (madtNext mem t) n i = (xs.map MadtItem.device?).map entryOf
  | xs, i, 0, _, _, hn => absurd hn (Nat.not_lt_zero _)
  | [], i, n + 1, _, hlen, _ => by
    have hlt := (hdrLength mem t).isLt
    rw [List.flatMap_nil, List.length_nil, Nat.add_zero] at hlen
    have hnone : madtNext mem t i = none := by
      refine if_neg (fun h => ?_)
      rw [BitVec.lt_def, BitVec.toNat_add, ← hlen] at h
      have : offApicStructs.toNat = 44 := rfl
      rw [this, Nat.mod_eq_of_lt (by omega)] at h
      omega
    exact take_none hnone n
  | x :: xs, i, n + 1, h, hlen, hn => by
    have hlt := (hdrLength mem t).isLt
    rw [List.flatMap_cons] at h hlen
    rw [List.length_append] at hlen
    obtain ⟨hx, hxs⟩ := (Memory.Holds.append _).1 h
    obtain ⟨hentry, hsub⟩ := madtEntry_bytes hx
    obtain ⟨hge, hle⟩ := x.length_bytes
    have hoff : offApicStructs.toNat = 44 := rfl
    have hstep : (BitVec.ofNat 8 x.bytes.length).setWidth 32 = BitVec.ofNat 32 x.bytes.length := by
      refine BitVec.eq_of_toNat_eq ?_
      rw [BitVec.toNat_setWidth, BitVec.toNat_ofNat, BitVec.toNat_ofNat]
      omega
    have hnext : madtNext mem t i = some (entryOf x.device?, i + BitVec.ofNat 32 x.bytes.length) := by
      rw [madtNext, if_pos]
      · simp only [hentry, hsub, hstep]
      · rw [BitVec.lt_def, BitVec.toNat_add, ← hlen, hoff, Nat.mod_eq_of_lt (by omega)]
        omega
    have hi : (i + BitVec.ofNat 32 x.bytes.length).toNat = i.toNat + x.bytes.length := by
      rw [BitVec.toNat_add, BitVec.toNat_ofNat, Nat.mod_eq_of_lt (show x.bytes.length < 2 ^ 32 by omega)]
      exact Nat.mod_eq_of_lt (by omega)
    rw [take_some hnext, List.map_cons, List.map_cons]
    refine congrArg (_ :: ·) (take_madtNext xs _ n ?_ ?_ (Nat.lt_of_succ_lt_succ hn))
    · rw [← BitVec.add_assoc]
      exact hxs
    · rw [hi, ← hlen]
      omega

structure Madt where
  revision : BitVec 8
  oem      : Vector (BitVec 8) 26    -- the rest of the header, behind the checksum
  lapicAdr : Unsigned
  flags    : Unsigned
  items    : List MadtItem
  /-- The length of the table fits its field. -/
  len      : 44 + (items.flatMap MadtItem.bytes).length < 2 ^ 32

def Madt.bytes (m : Madt) : List (BitVec 8) :=
  withCheck (bytesLe 4 madtSignature.toNat ++ (bytesLe 4 (44 + (m.items.flatMap MadtItem.bytes).length) ++ [m.revision]))
    (m.oem.toList ++ (bytesLe 4 m.lapicAdr.toNat ++ (bytesLe 4 m.flags.toNat ++ m.items.flatMap MadtItem.bytes)))

theorem Madt.length_bytes (m : Madt) : m.bytes.length = 44 + (m.items.flatMap MadtItem.bytes).length := by
  rw [Madt.bytes, length_withCheck]
  simp only [List.length_append, length_bytesLe, Vector.length_toList, List.length_singleton]
  omega

/-- The fields that `read_madt` looks at. -/
structure MadtAt (mem : Memory) (t : Unsigned) (m : Madt) : Prop where
  length : (hdrLength mem t).toNat = 44 + (m.items.flatMap MadtItem.bytes).length
  sum    : checkSum mem t (hdrLength mem t).toNat = 0
  lapic  : mem.u32 (t + 36) = m.lapicAdr
  items  : mem.Holds (t + offApicStructs) (m.items.flatMap MadtItem.bytes)

theorem madtAt {mem : Memory} {t : Unsigned} {m : Madt} (h : mem.Holds t m.bytes) : MadtAt mem t m := by
  -- the fields, one behind the other
  have h0 := h.start
  rw [Madt.bytes, withCheck_eq] at h0
  have h4 := h0.first.rest (k := 4) (by simp)
  have h10 := (h0.rest (k := 9) (by simp)).rest (k := 10) (by simp)
  have h36 := h10.rest (k := 36) (by simp)
  have h44 := (h36.rest (k := 40) (by simp)).rest (k := 44) (by simp)
  have hlen : (hdrLength mem t).toNat = 44 + (m.items.flatMap MadtItem.bytes).length := by
    have hf : mem.Holds (t + 4) (bytesLe 4 (BitVec.ofNat 32 (44 + (m.items.flatMap MadtItem.bytes).length)).toNat) := by
      rw [BitVec.toNat_ofNat, Nat.mod_eq_of_lt m.len]
      exact h4.first
    rw [hdrLength, hf.u32, BitVec.toNat_ofNat, Nat.mod_eq_of_lt m.len]
  refine ⟨hlen, ?_, h36.first.u32, h44⟩
  rw [hlen, ← m.length_bytes, h.checkSum, Madt.bytes, sum_withCheck]

/-! ## The MPS configuration table -/

/-- An entry of an MPS configuration table; those of other types have 8 bytes. -/
inductive MpsItem where
  | processor (lapicId version flags : BitVec 8) (signature features reserved0 reserved1 : Unsigned)
  | ioapic (id version flags : BitVec 8) (adr : Unsigned) (en : flags.getLsbD 0 = true)
  | other (type : BitVec 8) (body : Vector (BitVec 8) 7) (processor : type ≠ 0) (ioapic : type ≠ 2)

def MpsItem.bytes : MpsItem → List (BitVec 8)
  | .processor lapicId version flags signature features reserved0 reserved1 => [0, lapicId, version, flags] ++
    (bytesLe 4 signature.toNat ++ (bytesLe 4 features.toNat ++ (bytesLe 4 reserved0.toNat ++ bytesLe 4 reserved1.toNat)))
  | .ioapic id version flags adr _ => [2, id, version, flags] ++ bytesLe 4 adr.toNat
  | .other type body _ _           => [type] ++ body.toList

def MpsItem.device? : MpsItem → Option Device
  | .processor lapicId _ flags _ _ _ _ => some (.processor lapicId (flags.getLsbD 0))
  | .ioapic id _ _ adr _               => some (.ioapic id adr)
  | .other _ _ _ _                     => none

theorem mpsEntry_bytes {mem : Memory} {p : Unsigned} {x : MpsItem} (h : mem.Holds p x.bytes) :
    mpsEntry mem p = entryOf x.device? ∧ mpsEntrySize mem p = BitVec.ofNat 32 x.bytes.length := by
  cases x with
  | processor lapicId version flags signature features reserved0 reserved1 =>
    have hp : mem p = 0 := h.head rfl
    have hflags : mem (p + 3) = flags := h.get rfl
    have hid : mem (p + 1) = lapicId := h.get rfl
    refine ⟨?_, ?_⟩
    · rw [mpsEntry, if_pos hp, hflags, hid]
      exact (entryOf_processor lapicId _).symm
    · rw [mpsEntrySize, if_pos hp]
      simp [MpsItem.bytes, sizeofMpsProcessor]
  | ioapic id version flags adr en =>
    have hp : mem p = 2 := h.head rfl
    have hflags : mem (p + 3) = flags := h.get rfl
    have hid : mem (p + 1) = id := h.get rfl
    have hadr : mem.u32 (p + 4) = adr := (h.start.rest (k := 4) rfl).u32
    refine ⟨?_, ?_⟩
    · rw [mpsEntry, if_neg (by rw [hp]; decide), if_pos hp, hflags, if_pos en, hid, hadr]
      rfl
    · rw [mpsEntrySize, if_neg (by rw [hp]; decide)]
      simp [MpsItem.bytes]
  | other type body h1 h2 =>
    have hp : mem p = type := h.head rfl
    refine ⟨?_, ?_⟩
    · rw [mpsEntry, if_neg (by rw [hp]; exact h1), if_neg (by rw [hp]; exact h2)]
      rfl
    · rw [mpsEntrySize, if_neg (by rw [hp]; exact h1)]
      simp [MpsItem.bytes]

/-- **The walk over the entries**, of which the parser knows the number. -/
theorem mpsEntriesAt_bytes {mem : Memory} : ∀ (xs : List MpsItem) {p : Unsigned},
    mem.Holds p (xs.flatMap MpsItem.bytes) → mpsEntriesAt mem xs.length p = (xs.map MpsItem.device?).map entryOf
  | [],      _, _ => rfl
  | x :: xs, p, h => by
    rw [List.flatMap_cons] at h
    obtain ⟨hx, hxs⟩ := (Memory.Holds.append _).1 h
    obtain ⟨hentry, hsize⟩ := mpsEntry_bytes hx
    rw [List.length_cons, mpsEntriesAt, hentry, hsize, mpsEntriesAt_bytes xs hxs]
    rfl

theorem mps_length_le : ∀ (xs : List MpsItem), xs.length ≤ (xs.flatMap MpsItem.bytes).length
  | []      => Nat.le_refl _
  | x :: xs => by
    have hx : 1 ≤ x.bytes.length := by cases x <;> simp [MpsItem.bytes]
    have := mps_length_le xs
    rw [List.flatMap_cons, List.length_cons, List.length_append]
    omega

structure MpsConfig where
  specRev       : BitVec 8
  oem           : Vector (BitVec 8) 26    -- oem_id, prod_id, offset_oem, size_oem
  lapicAdr      : Unsigned
  extdChecksum  : BitVec 8
  reserved      : BitVec 8
  items         : List MpsItem
  /-- The length of the table fits its field. -/
  len           : 44 + (items.flatMap MpsItem.bytes).length < 2 ^ 16

/-- `"PCMP"`. -/
def mpsConfigSig : Unsigned := 0x504D4350

/-- There are no extended entries. -/
def MpsConfig.bytes (c : MpsConfig) : List (BitVec 8) :=
  withCheck (bytesLe 4 mpsConfigSig.toNat ++ (bytesLe 2 (44 + (c.items.flatMap MpsItem.bytes).length) ++ [c.specRev]))
    (c.oem.toList ++ (bytesLe 2 c.items.length ++ (bytesLe 4 c.lapicAdr.toNat ++ (bytesLe 2 0 ++
      ([c.extdChecksum, c.reserved] ++ c.items.flatMap MpsItem.bytes)))))

/-- The fields that `get_info` looks at. -/
structure MpsAt (mem : Memory) (p : Unsigned) (c : MpsConfig) : Prop where
  cnt   : cntOem mem p = c.items.length
  extd  : checkSum mem p (extdLen mem p) = 0
  lapic : mem.u32 (p + 36) = c.lapicAdr
  items : mem.Holds (p + sizeofMpsConfig) (c.items.flatMap MpsItem.bytes)

theorem mpsAt {mem : Memory} {p : Unsigned} {c : MpsConfig} (h : mem.Holds p c.bytes) : MpsAt mem p c := by
  have h0 := h.start
  rw [MpsConfig.bytes, withCheck_eq] at h0
  have h8 := (h0.rest (k := 7) (by simp)).rest (k := 8) (by simp)
  have h34 := h8.rest (k := 34) (by simp)
  have h36 := h34.rest (k := 36) (by simp)
  have h40 := h36.rest (k := 40) (by simp)
  have h44 := (h40.rest (k := 42) (by simp)).rest (k := 44) (by simp)
  have hcnt : c.items.length < 2 ^ 16 := by
    have h1 := c.len
    have h2 := mps_length_le c.items
    omega
  refine ⟨?_, ?_, h36.first.u32, h44⟩
  · have hf : mem.Holds (p + 34) (bytesLe 2 (BitVec.ofNat 16 c.items.length).toNat) := by
      rw [BitVec.toNat_ofNat, Nat.mod_eq_of_lt hcnt]
      exact h34.first
    rw [cntOem, hf.u16, BitVec.toNat_ofNat, Nat.mod_eq_of_lt hcnt]
  · have hf : mem.Holds (p + 40) (bytesLe 2 (0 : BitVec 16).toNat) := h40.first
    rw [extdLen, hf.u16]
    rfl

/-! ## The two parsers agree -/

/-- The fields of `hw_info` that the tables describe. -/
structure SameDevices (a b : HwInfo) : Prop where
  lapicAdr  : a.lapicAdr = b.lapicAdr
  cpuCnt    : a.cpuCnt = b.cpuCnt
  cpus      : a.cpus = b.cpus
  ioapicCnt : a.ioapicCnt = b.ioapicCnt
  ioapics   : a.ioapics = b.ioapics

theorem HwInfo.Lists.same {a b : HwInfo} {cpus : List Unsigned} {ioapics : List IoapicInfo} (ha : a.Lists cpus ioapics)
    (hb : b.Lists cpus ioapics) (h : a.lapicAdr = b.lapicAdr) : SameDevices a b :=
  ⟨h, BitVec.eq_of_toNat_eq (ha.cpuCnt.trans hb.cpuCnt.symm), ha.cpus.trans hb.cpus.symm,
    BitVec.eq_of_toNat_eq (ha.ioapicCnt.trans hb.ioapicCnt.symm), ha.ioapics.trans hb.ioapics.symm⟩

/-- **A MADT and an MPS configuration table of the same devices leave the same `hw_info`.** -/
theorem tables_agree (ds : List Device) (hcpu : (ds.filterMap Device.cpu?).length ≤ maxCpu)
    (hio : (ds.filterMap Device.ioapic?).length ≤ maxIoapic) (m : Madt) (hm : m.items.filterMap MadtItem.device? = ds)
    (c : MpsConfig) (hc : c.items.filterMap MpsItem.device? = ds) (hadr : m.lapicAdr = c.lapicAdr)
    {mem mem' : Memory} {t config : Unsigned} (h : mem.Holds t m.bytes) (h' : mem'.Holds config c.bytes)
    {hw hw' : HwInfo} (hfind : findConfig mem' hw' = some config) {fuel : Nat} (hfuel : m.items.length < fuel) :
    ∃ a b, readMadt mem fuel t hw = .ok a ∧ readMps mem' hw' = .ok b ∧ SameDevices a b ∧
      a.lapicAdr = m.lapicAdr ∧ a.Lists (ds.filterMap Device.cpu?) (ds.filterMap Device.ioapic?) := by
  have hma := madtAt h
  have hca := mpsAt h'
  have hme : madtEntries mem t fuel = (m.items.map MadtItem.device?).map entryOf := by
    refine take_madtNext m.items 0 fuel ?_ hma.length.symm hfuel
    exact (BitVec.add_zero (t + offApicStructs)).symm ▸ hma.items
  have hce : mpsEntries mem' config = (c.items.map MpsItem.device?).map entryOf := by
    rw [mpsEntries, hca.cnt]
    exact mpsEntriesAt_bytes c.items hca.items
  have hmd : (m.items.map MadtItem.device?).filterMap id = ds := by rw [List.filterMap_map]; exact hm
  have hcd : (c.items.map MpsItem.device?).filterMap id = ds := by rw [List.filterMap_map]; exact hc
  have hmc : (madtEntries mem t fuel).filterMap HwEntry.cpu? = ds.filterMap Device.cpu? := by
    rw [hme, entries_cpus, hmd]
  have hmi : (madtEntries mem t fuel).filterMap HwEntry.ioapic? = ds.filterMap Device.ioapic? := by
    rw [hme, entries_ioapics, hmd]
  have hcc : (mpsEntries mem' config).filterMap HwEntry.cpu? = ds.filterMap Device.cpu? := by
    rw [hce, entries_cpus, hcd]
  have hci : (mpsEntries mem' config).filterMap HwEntry.ioapic? = ds.filterMap Device.ioapic? := by
    rw [hce, entries_ioapics, hcd]
  obtain ⟨a, hoka, hla, hlista⟩ : ∃ a, readMadt mem fuel t hw = .ok a ∧ a.lapicAdr = mem.u32 (t + 36) ∧
      a.Lists ((madtEntries mem t fuel).filterMap HwEntry.cpu?) ((madtEntries mem t fuel).filterMap HwEntry.ioapic?) :=
    readMadt_ok hma.sum (by rw [hme]; simpa using hfuel) (by rw [hmc]; exact hcpu) (by rw [hmi]; exact hio)
  obtain ⟨b, hokb, hlb, hlistb⟩ := readMps_ok hfind hca.extd (by rw [hcc]; exact hcpu) (by rw [hci]; exact hio)
  rw [hmc, hmi] at hlista
  rw [hcc, hci] at hlistb
  rw [hma.lapic] at hla
  rw [hca.lapic, ← hadr] at hlb
  exact ⟨a, b, hoka, hokb, hlista.same hlistb (hla.trans hlb.symm), hla, hlista⟩

def twoEnabled : List Device := [.processor 0 true, .processor 3 false, .ioapic 2 0xFEC00000, .processor 1 true]

def twoEnabledMadt : Madt where
  revision := 1
  oem      := .replicate _ 0
  lapicAdr := 0xFEE00000
  flags    := 1
  items    := [.lapic 0 0 1, .lapic 1 3 0, .other 4 [0xFF, 0, 0, 1] (by decide) (by decide) (by decide),
    .ioapic 2 0 0xFEC00000 0, .lapic 2 1 1]
  len      := by decide

def twoEnabledMps : MpsConfig where
  specRev      := 4
  oem          := .replicate _ 0
  lapicAdr     := 0xFEE00000
  extdChecksum := 0
  reserved     := 0
  items        := [.other 1 (.replicate _ 0) (by decide) (by decide), .processor 0 0x11 3 0 0 0 0,
    .processor 3 0x11 0 0 0 0 0,
    .ioapic 2 0x11 1 0xFEC00000 (by decide), .processor 1 0x11 1 0 0 0 0]
  len          := by decide

/-- The floating pointer stands at the beginning of the extended BIOS data area. -/
def twoEnabledMemory : Memory := memoryOf
  [(0x40E, [0xC0, 0x9F]), (0x9FC00, [0x5F, 0x4D, 0x50, 0x5F, 0, 0x10, 0, 0, 1, 4, 0x90]), (0x1000, twoEnabledMps.bytes),
   (0x2000, twoEnabledMadt.bytes)]

theorem tables_agree_two : ∃ a b, readMadt twoEnabledMemory 6 0x2000 (.initial twoEnabledMemory 0 0) = .ok a ∧
    readMps twoEnabledMemory (.initial twoEnabledMemory 0 0) = .ok b ∧ SameDevices a b ∧ a.lapicAdr = 0xFEE00000 ∧
    a.Lists (twoEnabled.filterMap Device.cpu?) (twoEnabled.filterMap Device.ioapic?) :=
  @tables_agree twoEnabled (by decide) (by decide) twoEnabledMadt (by decide) twoEnabledMps (by decide) rfl
    twoEnabledMemory twoEnabledMemory 0x2000 0x1000 (by decide +kernel) (by decide +kernel)
    (.initial twoEnabledMemory 0 0) (.initial twoEnabledMemory 0 0) (by decide +kernel) 6 (by decide)

end SmpBoot
