import SmpBoot.Config
import SmpBoot.Lib.CLayout
/-!
# Boot32 — the tables that `get_info` reads (`boot32.c`, `acpi_struct.h`, `mps_struct.h`, `bda_struct.h`)

`get_info` runs in 32-bit mode without paging and takes the CPUs, the I/O APICs and the PCI-Express configuration spaces from
the ACPI tables, or else from the MultiProcessor Specification's.  Memory is a function from addresses to bytes; the tables
are the firmware's and `hw_info` is not among them.  Addresses and lengths wrap at 32 bits as in the code.  `printf` is left
out; so are `cpu_features` and the command line, of which only `cmd_noacpi` and `cmd_nomps` matter here.
-/
namespace SmpBoot

abbrev Memory := Unsigned → BitVec 8

def Memory.u16 (mem : Memory) (p : Unsigned) : BitVec 16 :=
  BitVec.ofNat 16 (CLayout.le 2 fun i => mem (p + BitVec.ofNat 32 i))

def Memory.u32 (mem : Memory) (p : Unsigned) : Unsigned :=
  BitVec.ofNat 32 (CLayout.le 4 fun i => mem (p + BitVec.ofNat 32 i))

/-! ## `hw_info` -/

structure IoapicInfo where
  id  : Unsigned
  adr : Unsigned
  deriving DecidableEq

structure PcieCfg where
  baseAdr  : Unsigned
  grpNbr   : BitVec 16
  busStart : BitVec 8
  busEnd   : BitVec 8
  deriving DecidableEq

/-- The fields of `hw_info_t` that the tables fill, and those that say where to look for them. -/
structure HwInfo where
  cmdNoacpi : Unsigned
  cmdNomps  : Unsigned
  ebdaAdr   : Unsigned
  ebdaSize  : Unsigned
  cpuCnt    : Unsigned
  /-- `cpu[].lapic_id`. -/
  cpu       : Vector Unsigned maxCpu
  lapicAdr  : Unsigned
  ioapicCnt : Unsigned
  ioapic    : Vector IoapicInfo maxIoapic
  pcieCnt   : Unsigned
  pcieCfg   : Vector PcieCfg maxPcie
  deriving DecidableEq

/-- How `get_info` ends without returning. -/
inductive BootStop where
  | wild
  | halted
  /-- Still in the loop of `read_madt` when the fuel was used up. -/
  | looping
  deriving DecidableEq

abbrev Boot (α : Type) := Except BootStop α

namespace HwInfo

/-- `hw_info.cpu[hw_info.cpu_cnt].lapic_id = lapicId; hw_info.cpu_cnt++`. -/
def addCpu (hw : HwInfo) (lapicId : BitVec 8) : Boot HwInfo :=
  if h : hw.cpuCnt.toNat < maxCpu then
    .ok { hw with cpu := hw.cpu.set hw.cpuCnt.toNat (lapicId.setWidth 32) h, cpuCnt := hw.cpuCnt + 1 }
  else .error .wild

def addIoapic (hw : HwInfo) (id : BitVec 8) (adr : Unsigned) : Boot HwInfo :=
  if h : hw.ioapicCnt.toNat < maxIoapic then
    .ok { hw with ioapic := hw.ioapic.set hw.ioapicCnt.toNat ⟨id.setWidth 32, adr⟩ h, ioapicCnt := hw.ioapicCnt + 1 }
  else .error .wild

def addPcie (hw : HwInfo) (cfg : PcieCfg) : Boot HwInfo :=
  if h : hw.pcieCnt.toNat < maxPcie then
    .ok { hw with pcieCfg := hw.pcieCfg.set hw.pcieCnt.toNat cfg h, pcieCnt := hw.pcieCnt + 1 }
  else .error .wild

end HwInfo

/-- The sum of the first `length` bytes, modulo 256. -/
def checkSum (mem : Memory) (hdr : Unsigned) : Nat → BitVec 8
  | 0          => 0
  | length + 1 => checkSum mem hdr length + mem (hdr + BitVec.ofNat 32 length)

/-! ## ACPI -/

/-- The loop of `search_rsdp` and `search_fp`: the first hit among `n` words, or 0. -/
def search (hit : Unsigned → Bool) : Nat → Unsigned → Unsigned
  | 0,     _ => 0
  | n + 1, p => if hit p then p else search hit n (p + 4)

/-- `"RSD PTR "` as two words. -/
def rsdpSig : Unsigned × Unsigned := (0x20445352, 0x20525450)

def searchRsdp (mem : Memory) (offset size : Unsigned) : Unsigned :=
  search (fun p => mem.u32 p == rsdpSig.1 && mem.u32 (p + 4) == rsdpSig.2) (size.toNat / 4) offset

def hdrSignature (mem : Memory) (hdr : Unsigned) : Unsigned := mem.u32 hdr
def hdrLength (mem : Memory) (hdr : Unsigned) : Unsigned := mem.u32 (hdr + 4)

def sizeofDescHdr : Unsigned := 36
def madtSignature : Unsigned := 0x43495041
def mcfgSignature : Unsigned := 0x4746434D

/-- `offsetof(madt_t, apic_structs)`. -/
def offApicStructs : Unsigned := 44

def madtTypeLapic : BitVec 8 := 0
def madtTypeIoapic : BitVec 8 := 1

/-- The `switch` in the loop of `read_madt`; the other types of entry are passed over. -/
def madtSwitch (mem : Memory) (entry : Unsigned) (hw : HwInfo) : Boot HwInfo :=
  if mem entry = madtTypeLapic then
    -- `flags.enabled`
    if (mem (entry + 4)).getLsbD 0 then hw.addCpu (mem (entry + 3)) else .ok hw
  else if mem entry = madtTypeIoapic then hw.addIoapic (mem (entry + 2)) (mem.u32 (entry + 4))
  else .ok hw

def madtLoop (mem : Memory) (madt : Unsigned) : Nat → Unsigned → HwInfo → Boot HwInfo
  | 0,        _, _  => .error .looping
  | fuel + 1, i, hw =>
    if offApicStructs + i < hdrLength mem madt then do
      let entry := madt + offApicStructs + i
      let sublen := mem (entry + 1)
      let hw ← madtSwitch mem entry hw
      madtLoop mem madt fuel (i + sublen.setWidth 32) hw
    else .ok hw

/-- `read_madt`.  `get_info` makes no use of its result. -/
def readMadt (mem : Memory) (fuel : Nat) (offset : Unsigned) (hw : HwInfo) : Boot HwInfo :=
  if checkSum mem offset (hdrLength mem offset).toNat ≠ 0 then .ok hw
  else madtLoop mem offset fuel 0 { hw with lapicAdr := mem.u32 (offset + 36), cpuCnt := 0, ioapicCnt := 0 }

def mcfgEntry (mem : Memory) (mcfg : Unsigned) (i : Nat) : PcieCfg :=
  let entry := mcfg + 44 + BitVec.ofNat 32 (16 * i)
  { baseAdr := mem.u32 entry, grpNbr := mem.u16 (entry + 8), busStart := mem (entry + 10), busEnd := mem (entry + 11) }

/-- The loop of `read_mcfg` from entry `i` on, with `n` rounds to go. -/
def mcfgLoop (mem : Memory) (mcfg : Unsigned) : Nat → Nat → HwInfo → Boot HwInfo
  | 0,     _, hw => .ok hw
  | n + 1, i, hw =>
    if 44 + 16 * i > (hdrLength mem mcfg).toNat then .ok hw
    else if i ≥ maxPcie then .error .halted
    else do
      let hw ← hw.addPcie (mcfgEntry mem mcfg i)
      mcfgLoop mem mcfg n (i + 1) hw

/-- `read_mcfg`, which looks at the checksum only to warn.  The subtraction wraps for a length below 44. -/
def readMcfg (mem : Memory) (offset : Unsigned) (hw : HwInfo) : Boot HwInfo :=
  mcfgLoop mem offset ((hdrLength mem offset - 44).toNat / 16) 0 hw

/-- The body of the loop over the RSDT. -/
def readTable (mem : Memory) (fuel : Nat) (hw : HwInfo) (hdr : Unsigned) : Boot HwInfo :=
  if hdrSignature mem hdr = madtSignature then readMadt mem fuel hdr hw
  else if hdrSignature mem hdr = mcfgSignature then readMcfg mem hdr hw
  else .ok hw

def rsdtEntries (mem : Memory) (rsdt : Unsigned) : List Unsigned :=
  (List.range ((hdrLength mem rsdt - sizeofDescHdr).toNat / 4)).map fun i =>
    mem.u32 (rsdt + sizeofDescHdr + BitVec.ofNat 32 (4 * i))

def readRsdt (mem : Memory) (fuel : Nat) (rsdt : Unsigned) (hw : HwInfo) : Boot HwInfo :=
  (rsdtEntries mem rsdt).foldlM (readTable mem fuel) hw

/-- The RSDT, unless one of the checks before it goes to `skip_acpi`. -/
def findRsdt (mem : Memory) (hw : HwInfo) : Option Unsigned :=
  if hw.cmdNoacpi ≠ 0 then none
  else
    let rsdp := searchRsdp mem hw.ebdaAdr hw.ebdaSize
    let rsdp := if rsdp = 0 then searchRsdp mem 0xE0000 0x20000 else rsdp
    if rsdp = 0 then none
    else if checkSum mem rsdp 20 ≠ 0 then none
    else
      let rsdt := mem.u32 (rsdp + 16)
      if checkSum mem rsdt (hdrLength mem rsdt).toNat ≠ 0 then none else some rsdt

/-! ## MultiProcessor Specification -/

/-- `"_MP_"`. -/
def fpSig : Unsigned := 0x5F504D5F

def searchFp (mem : Memory) (offset size : Unsigned) : Unsigned :=
  search (fun p => mem.u32 p == fpSig) (size.toNat / 4) offset

/-- The configuration table, unless one of the checks up to that of its base part goes to `skip_mps`. -/
def findConfig (mem : Memory) (hw : HwInfo) : Option Unsigned :=
  if hw.cmdNomps ≠ 0 then none
  else
    let fp := searchFp mem hw.ebdaAdr 1024
    let fp := if fp = 0 then searchFp mem (639 * 1024) 1024 else fp
    let fp := if fp = 0 then searchFp mem 0xE0000 0x20000 else fp
    if fp = 0 then none
    else if checkSum mem fp ((mem (fp + 8)).toNat * 16) ≠ 0 then none
    -- `spec_rev`, `feature[0]` and `offset_config`
    else if mem (fp + 9) ≠ 4 ∨ mem (fp + 11) ≠ 0 ∨ mem.u32 (fp + 4) = 0 then none
    else
      let config := mem.u32 (fp + 4)
      if checkSum mem config (mem.u16 (config + 4)).toNat ≠ 0 then none else some config

def sizeofMpsConfig : Unsigned := 44
def sizeofMpsProcessor : Unsigned := 20
def sizeofMpsIoapic : Unsigned := 8

/-- The loop over the entries of the configuration table, with `n` to go and the next one at `type`. -/
def mpsLoop (mem : Memory) : Nat → Unsigned → HwInfo → Boot HwInfo
  | 0,     _,    hw => .ok hw
  | n + 1, type, hw =>
    if mem type = 0 then do
      let hw ← if (mem (type + 3)).getLsbD 0 then hw.addCpu (mem (type + 1)) else .ok hw
      mpsLoop mem n (type + sizeofMpsProcessor) hw
    else if mem type = 2 then do
      let hw ← if (mem (type + 3)).getLsbD 0 then hw.addIoapic (mem (type + 1)) (mem.u32 (type + 4)) else .ok hw
      mpsLoop mem n (type + sizeofMpsIoapic) hw
    else mpsLoop mem n (type + 8) hw

def cntOem (mem : Memory) (config : Unsigned) : Nat := (mem.u16 (config + 34)).toNat
def extdLen (mem : Memory) (config : Unsigned) : Nat := (mem.u16 (config + 40)).toNat

/-- The part of `get_info` between the labels `skip_acpi` and `skip_mps`. -/
def readMps (mem : Memory) (hw : HwInfo) : Boot HwInfo :=
  match findConfig mem hw with
  | none => .ok hw
  | some config =>
    let hw := { hw with lapicAdr := mem.u32 (config + 36) }
    if checkSum mem config (extdLen mem config) ≠ 0 then .ok hw
    else mpsLoop mem (cntOem mem config) (config + sizeofMpsConfig) { hw with cpuCnt := 0, ioapicCnt := 0 }

/-! ## `get_info` -/

/-- `hw_info` after the `memset`, the command line and the BIOS data area. -/
def HwInfo.initial (mem : Memory) (cmdNoacpi cmdNomps : Unsigned) : HwInfo :=
  let ebdaAdr := (mem.u16 0x40E).setWidth 32 <<< 4
  { cmdNoacpi, cmdNomps, ebdaAdr, ebdaSize := (mem ebdaAdr).setWidth 32,
    cpuCnt := 0, cpu := .replicate _ 0, lapicAdr := 0, ioapicCnt := 0, ioapic := .replicate _ ⟨0, 0⟩,
    pcieCnt := 0, pcieCfg := .replicate _ ⟨0, 0, 0, 0⟩ }

/-- The part of `get_info` from the label `skip_mps` on. -/
def HwInfo.fallback (hw : HwInfo) : HwInfo :=
  if hw.lapicAdr = 0 ∨ hw.cpuCnt = 0 ∨ hw.ioapicCnt = 0 then
    { hw with cpuCnt := 1, cpu := hw.cpu.set 0 0 (by decide), lapicAdr := 0xfee00000, ioapicCnt := 0 }
  else hw

/-- The part of `get_info` before the label `skip_mps`: the ACPI tables, and the MPS tables if those gave no local APIC
address. -/
def readTables (mem : Memory) (fuel : Nat) (hw : HwInfo) : Boot HwInfo :=
  match findRsdt mem hw with
  | none => readMps mem hw
  | some rsdt => do
    let hw ← readRsdt mem fuel rsdt hw
    if hw.lapicAdr ≠ 0 then .ok hw else readMps mem hw

def getInfo (mem : Memory) (cmdNoacpi cmdNomps : Unsigned) (fuel : Nat) : Boot HwInfo := do
  let hw ← readTables mem fuel (.initial mem cmdNoacpi cmdNomps)
  return hw.fallback

end SmpBoot
