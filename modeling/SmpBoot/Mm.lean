import SmpBoot.Config
import SmpBoot.Lib.Prog
/-!
# Mm — the memory manager (`mm.c`, `mm_struct.h`, the page tables of `start64.asm`)

Every function is a `Prog` over the state `Mm`: one `act` is one read or one write of `freemap`, of a cursor, of
`next_virt_page` or of one page-table entry (an assignment to a bit field is a read and a write).  Page tables lie in
physical memory, `mem frame index`.  A table is reached through a pointer: either into identity-mapped low memory
(`phys`) or through the one window page (`tmpMap`), whose entry in `pt[tmp_page]` says which frame it shows.  Printing,
status characters and cache and TLB instructions are left out; `pt_mutex` is in `MmShared`.
-/
namespace SmpBoot

open Resume

/-- Why a function never returns: `hlt` after the out-of-memory or the not-supported message, or a loop still running
after the given number of passes. -/
inductive Stop where
  | outOfMemory
  | unsupported
  | fuel
  deriving DecidableEq

/-- A table entry (`pd1_entry_t` .. `pt_entry_t`), the fields some function uses.  Bit 7 is `ps` in a directory and
`pat` in a page table. -/
structure Entry where
  p     : Bool
  rw    : Bool
  pwt   : Bool
  pcd   : Bool
  ps    : Bool
  frame : Nat
  deriving DecidableEq

namespace Entry

def zero : Entry := ⟨false, false, false, false, false, 0⟩

def setP (e : Entry) : Entry := { e with p := true }
def setRw (e : Entry) : Entry := { e with rw := true }
def setPwt (v : Bool) (e : Entry) : Entry := { e with pwt := v }
def setPcd (v : Bool) (e : Entry) : Entry := { e with pcd := v }
def setFrame (b : Build) (f : Nat) (e : Entry) : Entry := { e with frame := f % 2 ^ b.frameBits }

def ofWord (w : Nat) : Entry := ⟨w.testBit 0, w.testBit 1, w.testBit 3, w.testBit 4, w.testBit 7, w >>> 12⟩

end Entry

structure Mm (b : Build) where
  mem          : Nat → Nat → Entry
  freemap      : Nat → BitVec b.longBits
  lastFramePt  : Nat
  lastFrame4k  : Nat
  nextVirtPage : Nat
  pd1          : Nat            -- the frame `pd1` points to

abbrev MmProg (b : Build) (α : Type) := Prog (Mm b) Stop α

variable {b : Build}

def Mm.setEntry (s : Mm b) (f i : Nat) (e : Entry) : Mm b :=
  { s with mem := fun g j => if g = f ∧ j = i then e else s.mem g j }

def Mm.setWord (s : Mm b) (i : Nat) (w : BitVec b.longBits) : Mm b :=
  { s with freemap := fun j => if j = i then w else s.freemap j }

/-! ## Addresses -/

/-- The index at the `k`-th level from below. -/
def levelIndex (b : Build) (k adr : Nat) : Nat := (adr >>> (pageBits + k * b.indexBits)) &&& (2 ^ b.indexBits - 1)

def ptIndex (b : Build) (adr : Nat) : Nat := levelIndex b 0 adr
def pd3Index (adr : Nat) : Nat := levelIndex .b64 1 adr
def pd2Index (adr : Nat) : Nat := levelIndex .b64 2 adr
def pd1Index (b : Build) (adr : Nat) : Nat := levelIndex b (b.levels - 1) adr

def offset (adr : Nat) : Nat := adr &&& (pageSize - 1)

/-- `offset4M` of the 32-bit build, `offset2M` of the 64-bit build. -/
def offset2 (b : Build) (adr : Nat) : Nat :=
  adr &&& (((2 ^ b.indexBits - 1) <<< pageBits) ||| (pageSize - 1))

def offset1G (adr : Nat) : Nat :=
  adr &&& (((2 ^ Build.b64.indexBits - 1) <<< (pageBits + Build.b64.indexBits)) |||
    ((2 ^ Build.b64.indexBits - 1) <<< pageBits) ||| (pageSize - 1))

def pageToAdr (b : Build) (page : Nat) : Nat := (page <<< pageBits) % 2 ^ b.longBits

/-! ## Tables and the window -/

/-- `MM64_MAP_TEMPORARY`, `MM32_MAP_TEMPORARY` as frame numbers. -/
def Build.mapTable : Build → Nat
  | .b32 => 2
  | .b64 => 5

def tmpPage : Nat := 0x1FF

inductive TablePtr where
  | phys (frame : Nat)
  | tmpMap

/-- The physical frame an access through the pointer reaches. -/
def TablePtr.frame (s : Mm b) : TablePtr → Nat
  | .phys f => f
  | .tmpMap => (s.mem b.mapTable tmpPage).frame

def entry (t : TablePtr) (i : Nat) : MmProg b Entry := .get (fun s => s.mem (t.frame s) i)

def assign (t : TablePtr) (i : Nat) (f : Entry → Entry) : MmProg b Unit := do
  let e ← entry t i
  .put (fun s => s.setEntry (t.frame s) i (f e))

def assigns (t : TablePtr) (i : Nat) : List (Entry → Entry) → MmProg b Unit
  | []      => pure ()
  | f :: fs => do assign t i f; assigns t i fs

def assignIf (c : Bool) (t : TablePtr) (i : Nat) (f : Entry → Entry) : MmProg b Unit :=
  if c then assign t i f else pure ()

def clearTable (t : TablePtr) : MmProg b Unit :=
  Prog.forN (fun i => .put (fun s => s.setEntry (t.frame s) i .zero)) b.entries

def mapTemporary (frame : Nat) : MmProg b TablePtr := do
  let pt := TablePtr.phys b.mapTable
  let e ← entry pt tmpPage
  if e.frame ≠ frame then
    assigns pt tmpPage [Entry.setFrame b frame, Entry.setRw, Entry.setP, Entry.setPwt true]
  pure .tmpMap

/-! ## Free frames -/

/-- The static variables of `get_free_frame`. -/
inductive Cursor where
  | pt
  | f4k

def Mm.cursor (s : Mm b) : Cursor → Nat
  | .pt  => s.lastFramePt
  | .f4k => s.lastFrame4k

def Mm.setCursor (s : Mm b) (c : Cursor) (f : Nat) : Mm b :=
  match c with
  | .pt  => { s with lastFramePt := f }
  | .f4k => { s with lastFrame4k := f }

def freemapIndex (b : Build) (frame : Nat) : Nat := frame / b.longBits
def freemapBit (b : Build) (frame : Nat) : Nat := frame % b.longBits

def frameTypePt : Nat := 1
def frameType4k : Nat := 2

/-- The `while` loop of `get_free_frame`; the argument bounds its passes. -/
def searchFrame (c : Cursor) : Nat → MmProg b Unit
  | 0 => .stop .fuel
  | fuel + 1 => do
    let l ← .get (·.cursor c)
    let w ← .get (·.freemap (freemapIndex b l))
    if isBitClear w (freemapBit b l) then
      let l ← .get (·.cursor c)
      .put (·.setCursor c (l + 1))
      let l ← .get (·.cursor c)
      if l ≥ maxFrames then .stop .outOfMemory else searchFrame c fuel
    else pure ()

def takeFrame (c : Cursor) : MmProg b Nat := do
  searchFrame c maxFrames
  let l ← .get (·.cursor c)
  let w ← .get (·.freemap (freemapIndex b l))
  .put (·.setWord (freemapIndex b l) (bitClear w (freemapBit b l)))
  .get (·.cursor c)

def getFreeFrame (type : Nat) : MmProg b Nat :=
  if type = frameType4k then takeFrame .f4k
  else if type = frameTypePt then takeFrame .pt
  else .stop .unsupported

/-! ## Mapping one page -/

def mapHuge : Nat := 1 + 2 + 4
def mapPwt : Nat := 8
def mapPcd : Nat := 16

def pd1Ptr : MmProg b TablePtr := .get (fun s => .phys s.pd1)

/-- One level of `map_frame_to_adr`: the table entry `t[i]` refers to, made new if the entry is absent.  The levels
differ in the order in which `link` assigns the fields of the new entry. -/
def nextTable (t : TablePtr) (i : Nat) (link : Nat → List (Entry → Entry)) : MmProg b TablePtr := do
  let e ← entry t i
  if e.p = false then
    let newFrame ← getFreeFrame frameTypePt
    assigns t i (link newFrame)
    let e ← entry t i
    let next ← mapTemporary e.frame
    clearTable next
    pure next
  else
    let e ← entry t i
    mapTemporary e.frame

def linkPFirst (b : Build) (f : Nat) : List (Entry → Entry) := [Entry.setP, Entry.setRw, Entry.setFrame b f]
def linkFrameFirst (b : Build) (f : Nat) : List (Entry → Entry) := [Entry.setFrame b f, Entry.setRw, Entry.setP]

def mapPage (pt : TablePtr) (ipt frame flags : Nat) : MmProg b Unit := do
  let e ← entry pt ipt
  if e.p = false then
    assigns pt ipt [Entry.setFrame b frame, Entry.setRw, Entry.setP]
    assignIf (flags &&& mapPwt ≠ 0) pt ipt (Entry.setPwt true)
    assignIf (flags &&& mapPcd ≠ 0) pt ipt (Entry.setPcd true)
  else pure ()

def mapFrameToAdr (b : Build) (frame adr flags : Nat) : MmProg b Unit :=
  if flags &&& mapHuge ≠ 0 then .stop .unsupported
  else match b with
    | .b64 => do
      let pd1 ← pd1Ptr
      let pd2 ← nextTable pd1 (pd1Index .b64 adr) (linkPFirst .b64)
      let pd3 ← nextTable pd2 (pd2Index adr) (linkPFirst .b64)
      let pt ← nextTable pd3 (pd3Index adr) (linkFrameFirst .b64)
      mapPage pt (ptIndex .b64 adr) frame flags
    | .b32 => do
      let pd1 ← pd1Ptr
      let pt ← nextTable pd1 (pd1Index .b32 adr) (linkFrameFirst .b32)
      mapPage pt (ptIndex .b32 adr) frame flags

/-! ## Reconfiguring one page -/

/-- One level of `reconf_adr`: the table `t[i]` refers to, or nothing ("not mapped"). -/
def findTable (t : TablePtr) (i : Nat) : MmProg b (Option TablePtr) := do
  let e ← entry t i
  if e.p = false then pure none
  else
    let e ← entry t i
    let next ← mapTemporary e.frame
    pure (some next)

def reconfPage (pt : TablePtr) (ipt flags : Nat) : MmProg b Unit := do
  let e ← entry pt ipt
  if e.p = false then pure ()
  else
    assign pt ipt (Entry.setPwt (flags &&& mapPwt ≠ 0))
    assign pt ipt (Entry.setPcd (flags &&& mapPcd ≠ 0))

def ifMapped (t : Option TablePtr) (k : TablePtr → MmProg b Unit) : MmProg b Unit :=
  match t with
  | none   => pure ()
  | some t => k t

def reconfAdr (b : Build) (adr flags : Nat) : MmProg b Unit :=
  if flags - (flags &&& (mapPwt ||| mapPcd)) ≠ 0 then pure ()
  else match b with
    | .b64 => do
      let pd1 ← pd1Ptr
      let pd2 ← findTable pd1 (pd1Index .b64 adr)
      ifMapped pd2 fun pd2 => do
        let pd3 ← findTable pd2 (pd2Index adr)
        ifMapped pd3 fun pd3 => do
          let pt ← findTable pd3 (pd3Index adr)
          ifMapped pt fun pt => reconfPage pt (ptIndex .b64 adr) flags
    | .b32 => do
      let pd1 ← pd1Ptr
      let pt ← findTable pd1 (pd1Index .b32 adr)
      ifMapped pt fun pt => reconfPage pt (ptIndex .b32 adr) flags

/-! ## `mm_init` -/

structure MmapEntry where
  size : BitVec 32
  addr : BitVec 64
  len  : BitVec 64
  type : BitVec 32

/-- The fields of `multiboot_info` that `mm_init` reads; `mmap p` is the entry that lies at address `p`. -/
structure MultibootInfo where
  flags      : BitVec 32
  memUpper   : BitVec 32
  mmapLength : BitVec 32
  mmapAddr   : BitVec 32
  mmap       : Nat → MmapEntry

/-- `BIT_SET` on the freemap bit of frame `u`. -/
def setFree (u : Nat) : MmProg b Unit := do
  let w ← .get (·.freemap (freemapIndex b u))
  .put (·.setWord (freemapIndex b u) (bitSet w (freemapBit b u)))

/-- `for (u = 0x400; u < limit; u++)`: the frames below `mem_upper`; counts them. -/
def registerUpper : (n u count : Nat) → MmProg b Nat
  | 0,     _, count => pure count
  | n + 1, u, count => do setFree u; registerUpper n (u + 1) (count + 1)

def registerFrame (u count : Nat) : MmProg b Nat :=
  if u ≥ 0x400 ∧ u < maxMem >>> pageBits then do
    let w ← .get (·.freemap (freemapIndex b u))
    if isBitClear w (freemapBit b u) then do
      setFree u
      pure (count + 1)
    else pure count
  else pure count

/-- The loop over the frames of one entry: a 32-bit `u` against a 64-bit bound. -/
def registerEntry (last : BitVec 64) : (fuel : Nat) → (u : BitVec 32) → (count : Nat) → MmProg b Nat
  | 0,        _, _     => .stop .fuel
  | fuel + 1, u, count =>
    if u.toNat < last.toNat then do
      let count ← registerFrame u.toNat count
      registerEntry last fuel (u + 1) count
    else pure count

def registerMap (fuel : Nat) (mbi : MultibootInfo) : (n p count : Nat) → MmProg b Nat
  | 0,     _, _     => .stop .fuel
  | n + 1, p, count =>
    if p < (mbi.mmapAddr + mbi.mmapLength).toNat then do
      let e := mbi.mmap p
      let count ← (if e.type = 1 then
          registerEntry ((e.addr + e.len) >>> pageBits) fuel ((e.addr >>> pageBits).setWidth 32) count
        else pure count : MmProg b Nat)
      registerMap fuel mbi n ((p + e.size.toNat + 4) % 2 ^ b.longBits) count
    else pure count

/-- `limit` of `mm_init`: `mem_upper` in frames, at most `MAX_MEM`. -/
def upperLimit (mbi : MultibootInfo) : Nat :=
  let limit := mbi.memUpper.toNat >>> 2
  if limit > maxMem >>> pageBits then maxMem >>> pageBits else limit

/-- The page tables `mm_init` starts from: in the 64-bit build those of `start64.asm` (the value of `cr3`), in the
32-bit build new ones. -/
def initTables : (b : Build) → MmProg b Unit
  | .b64 => .put (fun s => { s with pd1 := 1 })
  | .b32 => do
    .put (fun s => { s with pd1 := 1 })
    let pd1 ← pd1Ptr
    clearTable pd1
    let pt := TablePtr.phys Build.b32.mapTable
    clearTable pt
    assigns pd1 0 [Entry.setFrame .b32 Build.b32.mapTable, Entry.setRw, Entry.setP]
    Prog.forN (fun u => assigns pt u [Entry.setFrame .b32 u, Entry.setRw, Entry.setP]) Build.b32.entries
    let pt := TablePtr.phys 3
    assigns pd1 (1023 - 4) [Entry.setFrame .b32 3, Entry.setRw, Entry.setP]
    assigns pt 0 [Entry.setFrame .b32 0xfec00, Entry.setRw, Entry.setP]
    assigns pt 512 [Entry.setFrame .b32 0xfee00, Entry.setRw, Entry.setP]

/-- `mm_init`; returns the number of frames it reports.  `fuel` bounds the passes of the two memory-map loops. -/
def mmInit (fuel : Nat) (mbi : MultibootInfo) : MmProg b Nat := do
  initTables b
  Prog.forN (fun i => .put (·.setWord i 0)) (maxFrames / b.longBits)
  let count ← (if isBitSet mbi.flags 0 then registerUpper (upperLimit mbi - 0x400) 0x400 0 else pure 0 : MmProg b Nat)
  if isBitSet mbi.flags 6 then registerMap fuel mbi fuel mbi.mmapAddr.toNat count else pure count

/-- `start64.asm`: seven cleared frames, then the tables for the first 2 MB and the two APIC pages. -/
def paging64 (mem : Nat → Nat → Entry) : Nat → Nat → Entry := fun f i =>
  if f = 1 then (if i = 0 then .ofWord 0x2003 else .zero)
  else if f = 2 then (if i = 0 then .ofWord 0x3003 else if i = 3 then .ofWord 0x4003 else .zero)
  else if f = 3 then (if i = 0 then .ofWord 0x5003 else .zero)
  else if f = 4 then (if i = 0x1f6 then .ofWord 0x6003 else if i = 0x1f7 then .ofWord 0x7003 else .zero)
  else if f = 5 then (if i < 512 then .ofWord (0x3 + 0x1000 * i) else .zero)
  else if f = 6 then (if i = 0 then .ofWord 0xfec00013 else .zero)
  else if f = 7 then (if i = 0 then .ofWord 0xfee00013 else .zero)
  else mem f i

/-- The state `main_bsp` calls `mm_init` in: any contents of memory, the static variables as initialised. -/
def Mm.boot (b : Build) (mem : Nat → Nat → Entry) (freemap : Nat → BitVec b.longBits) : Mm b where
  mem          := match b with
    | .b32 => mem
    | .b64 => paging64 mem
  freemap      := freemap
  lastFramePt  := 0x400
  lastFrame4k  := 0x800
  nextVirtPage := 0x400
  pd1          := 0

/-! ## The interface of `mm.h` -/

def mmWriteThrough : Nat := 0x10
def mmCacheDisable : Nat := 0x20

/-- The `MAP_*` flags of the `MM_*` flags. -/
def mapFlags (flags : Nat) : Nat :=
  (if flags &&& mmWriteThrough ≠ 0 then mapPwt else 0) ||| (if flags &&& mmCacheDisable ≠ 0 then mapPcd else 0)

/-- The loop of `heap_alloc`; what it returns is the values `frame` takes. -/
def heapAllocLoop (flags : Nat) : Nat → MmProg b (List Nat)
  | 0     => pure []
  | n + 1 => do
    let frame ← getFreeFrame frameType4k
    let page ← .get (·.nextVirtPage)
    mapFrameToAdr b frame (pageToAdr b page) flags
    let page ← .get (·.nextVirtPage)
    .put (fun s => { s with nextVirtPage := page + 1 })
    let frames ← heapAllocLoop flags n
    pure (frame :: frames)

/-- `heap_alloc`: the address it returns, and the frames behind the range. -/
def heapAlloc (nbrPages flags : Nat) : MmProg b (Nat × List Nat) := do
  let page ← .get (·.nextVirtPage)
  let res := pageToAdr b page
  let frames ← heapAllocLoop (mapFlags flags) nbrPages
  pure (res, frames)

/-- `for (p = adr; p < adr+size; p += PAGE_SIZE)`; `last` is `adr+size`. -/
def heapReconfigLoop (flags last : Nat) : (fuel p : Nat) → MmProg b Unit
  | 0,        _ => .stop .fuel
  | fuel + 1, p =>
    if p < last then do
      reconfAdr b p flags
      heapReconfigLoop flags last fuel ((p + pageSize) % 2 ^ b.longBits)
    else pure ()

/-- `x & ~PAGE_MASK`. -/
def roundDown (x : Nat) : Nat := x - (x &&& (pageSize - 1))

def heapReconfig (adr size flags : Nat) : MmProg b Unit :=
  let adr := roundDown adr
  let size := roundDown ((size + (pageSize - 1)) % 2 ^ b.longBits)
  heapReconfigLoop (mapFlags flags) ((adr + size) % 2 ^ b.longBits) (2 ^ b.longBits / pageSize) adr

def virtToPhys (b : Build) (adr : Nat) : MmProg b Nat :=
  match b with
  | .b64 => do
    let pd1 ← pd1Ptr
    let e1 ← entry pd1 (pd1Index .b64 adr)
    if e1.p = false then pure 0 else do
    let e1 ← entry pd1 (pd1Index .b64 adr)
    let pd2 ← mapTemporary e1.frame
    let e2 ← entry pd2 (pd2Index adr)
    if e2.p = false then pure 0 else do
    let e2 ← entry pd2 (pd2Index adr)
    if e2.ps then do
      let e2 ← entry pd2 (pd2Index adr)
      pure (((e2.frame >>> 18) <<< (pageBits + 2 * Build.b64.indexBits)) + offset1G adr)
    else do
    let e2 ← entry pd2 (pd2Index adr)
    let pd3 ← mapTemporary e2.frame
    let e3 ← entry pd3 (pd3Index adr)
    if e3.p = false then pure 0 else do
    let e3 ← entry pd3 (pd3Index adr)
    if e3.ps then do
      let e3 ← entry pd3 (pd3Index adr)
      pure (((e3.frame >>> 9) <<< (pageBits + Build.b64.indexBits)) + offset2 .b64 adr)
    else do
    let e3 ← entry pd3 (pd3Index adr)
    let pt ← mapTemporary e3.frame
    let e4 ← entry pt (ptIndex .b64 adr)
    if e4.p = false then pure 0 else do
    let e4 ← entry pt (ptIndex .b64 adr)
    pure ((e4.frame <<< pageBits) + offset adr)
  | .b32 => do
    let pd1 ← pd1Ptr
    let e1 ← entry pd1 (pd1Index .b32 adr)
    if e1.p = false then pure 0 else do
    let e1 ← entry pd1 (pd1Index .b32 adr)
    if e1.ps then do
      let e1 ← entry pd1 (pd1Index .b32 adr)
      pure (((e1.frame >>> 10) <<< (pageBits + Build.b32.indexBits)) + offset2 .b32 adr)
    else do
    let e1 ← entry pd1 (pd1Index .b32 adr)
    let pt ← mapTemporary e1.frame
    let e2 ← entry pt (ptIndex .b32 adr)
    if e2.p = false then pure 0 else do
    let e2 ← entry pt (ptIndex .b32 adr)
    pure ((e2.frame <<< pageBits) + offset adr)

inductive HeapCall where
  | heapAlloc (nbrPages flags : Nat)
  | heapReconfig (adr size flags : Nat)
  | virtToPhys (adr : Nat)

inductive HeapRet where
  | range (res : Nat) (frames : List Nat)
  | done
  | phys (adr : Nat)

def HeapCall.body : HeapCall → MmProg b HeapRet
  | .heapAlloc n flags          => do let r ← SmpBoot.heapAlloc n flags; pure (.range r.1 r.2)
  | .heapReconfig adr size flags => do SmpBoot.heapReconfig adr size flags; pure .done
  | .virtToPhys adr             => do let r ← SmpBoot.virtToPhys b adr; pure (.phys r)

end SmpBoot
