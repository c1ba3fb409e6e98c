import Mathlib.Algebra.Group.Nat.Defs
import SmpBoot.Interrupt
/-!
# Interrupt32 — the stub of the 32-bit build

`start32.asm` differs from the 64-bit stub in one step that counts: before the call it loads `ds`, `es`, `fs` and `gs`
with `GDT32.Code`, and no code segment can be written.  The first store of `int_handler` through `ds` is then a general
protection fault, whose handler makes the same store.  So no interrupt of the 32-bit build ever returns
(`interrupt_never_returns`), and each fault takes another frame off the stack.
-/
namespace SmpBoot
namespace Interrupt32

open StackCode
open Interrupt (withErrcode)

structure Regs32 where
  eax : BitVec 32
  ecx : BitVec 32
  edx : BitVec 32
  ebx : BitVec 32
  ebp : BitVec 32
  esi : BitVec 32
  edi : BitVec 32
  ds  : BitVec 16
  es  : BitVec 16
  fs  : BitVec 16
  gs  : BitVec 16
  cr2 : BitVec 32
  cr3 : BitVec 32
  eip : BitVec 32
  cs  : BitVec 16
  eflags : BitVec 32
deriving DecidableEq

abbrev Op32 := Op Regs32 (BitVec 32)
abbrev Cpu32 := Cpu Regs32 (BitVec 32)

/-- What the linker and the compiler decide: two addresses and the bytes of stack `int_handler` takes for itself. -/
structure Build32 where
  intHandler : BitVec 32
  ret        : BitVec 32
  locals     : Nat

def wide (s : BitVec 16) : BitVec 32 := s.setWidth 32

/-- The access byte of a descriptor of `GDT32`; the null descriptor and what is beyond the table have none. -/
def GDT32 (sel : BitVec 16) : Option (BitVec 8) :=
  if sel = 0x08#16 then some 0x9A#8 else if sel = 0x10#16 then some 0x92#8 else none

/-- Data (bit 3 clear) and writable (bit 1 set). -/
def writable (sel : BitVec 16) : Bool :=
  match GDT32 sel with
  | some a => !a.getLsbD 3 && a.getLsbD 1
  | none   => false

/-- The processor's pushes on an interrupt in ring 0. -/
def deliverCode (err : Option (BitVec 32)) : List Op32 :=
  [.push fun r _ => r.eflags, .push fun r _ => wide r.cs, .push fun r _ => r.eip,
   .move fun r _ => { r with eflags := r.eflags &&& ~~~0x34300#32 }] ++ err.toList.map fun e => .push fun _ _ => e

/-- `isrN`. -/
def isr (n : Nat) : List Op32 :=
  if n ∈ withErrcode then [.push fun _ _ => BitVec.ofNat 32 n]
  else [.push fun _ _ => 0, .push fun _ _ => BitVec.ofNat 32 n]

/-- `isr_common_stub` up to the first instruction of `int_handler`.  `pusha` pushes the stack pointer it started from. -/
def saveContext (b : Build32) : List Op32 :=
  [.push fun r _ => r.eax, .push fun r _ => r.ecx, .push fun r _ => r.edx, .push fun r _ => r.ebx,
   .push fun _ sp => BitVec.ofNat 32 (sp + 16), .push fun r _ => r.ebp, .push fun r _ => r.esi, .push fun r _ => r.edi,
   .push fun r _ => wide r.ds, .push fun r _ => wide r.es, .push fun r _ => wide r.fs, .push fun r _ => wide r.gs,
   .move fun r _ => { r with eax := r.cr3 }, .push fun r _ => r.eax,
   .move fun r _ => { r with eax := r.cr2 }, .push fun r _ => r.eax,
   .move fun r _ => { r with eax := r.eax.extractLsb' 16 16 ++ 0x08#16 },
   .move fun r _ => { r with ds := r.eax.setWidth 16 }, .move fun r _ => { r with es := r.eax.setWidth 16 },
   .move fun r _ => { r with fs := r.eax.setWidth 16 }, .move fun r _ => { r with gs := r.eax.setWidth 16 },
   .move fun r sp => { r with eax := BitVec.ofNat 32 sp }, .push fun r _ => r.eax,
   .move fun r _ => { r with eax := b.intHandler }, .push fun _ _ => b.ret]

/-- From the return of `int_handler` to `iret`. -/
def restoreContext : List Op32 :=
  [.drop 1, .pop fun r v => { r with eax := v }, .pop fun r v => { r with eax := v }, .pop fun r v => { r with eax := v },
   .pop fun r v => { r with gs := v.setWidth 16 }, .pop fun r v => { r with fs := v.setWidth 16 },
   .pop fun r v => { r with es := v.setWidth 16 }, .pop fun r v => { r with ds := v.setWidth 16 },
   .pop fun r v => { r with edi := v }, .pop fun r v => { r with esi := v }, .pop fun r v => { r with ebp := v },
   .drop 1, .pop fun r v => { r with ebx := v }, .pop fun r v => { r with edx := v },
   .pop fun r v => { r with ecx := v }, .pop fun r v => { r with eax := v },
   .drop 2,
   .pop fun r v => { r with eip := v }, .pop fun r v => { r with cs := v.setWidth 16 },
   .pop fun r v => { r with eflags := v }]

/-- The CPU in `int_handler`, its local variables allocated. -/
def entry (b : Build32) (n : Nat) (err : Option (BitVec 32)) (c : Cpu32) : Cpu32 :=
  let e := exec 4 (deliverCode err ++ (isr n ++ saveContext b)) c
  { e with sp := e.sp - b.locals }

def leave (b : Build32) (c : Cpu32) : Cpu32 := exec 4 restoreContext { c with sp := c.sp + b.locals }

/-- The accesses of `int_handler` to data that is not on its stack, in their order, and the endless `hlt`. -/
inductive Act where
  | load
  | store
  | halt
deriving DecidableEq

/-- `int_handler` by vector: the load of `cpu_online`, the text written to the screen (one store for each `printf`), for
most exceptions the end, and else the store to the EOI register and the one that puts `cpu_online` back. -/
def intHandler (verbose : Bool) (n : Nat) : List Act :=
  .load :: (if n < 32 then
      [.store, .load, .store, .load, .store, .store] ++
      (if n = 14 then [.store, .store, .store, .store, .store, .store] else []) ++ (if n ≠ 15 then [.store, .halt] else [])
    else if verbose then [.store, .load, .store, .store, .store] else []) ++ [.store, .store]

/-- A CPU in the handler, with what is left to do there and in the handlers it has interrupted, the inner one first. -/
structure State where
  cpu     : Cpu32
  todo    : List Act
  pending : List (List Act)

/-- The state in which an interrupt with vector `n` enters `int_handler`. -/
def State.start (b : Build32) (verbose : Bool) (n : Nat) (err : Option (BitVec 32)) (c : Cpu32) : State :=
  ⟨entry b n err c, intHandler verbose n, []⟩

/-- **One access.**  A store through a segment that cannot be written is exception 13 with error code 0, and is made
again when that has returned.  `none`: back in the interrupted program. -/
def step (b : Build32) (verbose : Bool) (s : State) : Option State :=
  match s.todo with
  | .load :: as  => some { s with todo := as }
  | .store :: as =>
    if writable s.cpu.regs.ds then some { s with todo := as }
    else some ⟨entry b 13 (some 0) s.cpu, intHandler verbose 13, s.todo :: s.pending⟩
  | .halt :: _   => some s
  | []           =>
    match s.pending with
    | []      => none
    | t :: ts => some ⟨leave b s.cpu, t, ts⟩

def run (b : Build32) (verbose : Bool) : Nat → State → Option State
  | 0, s     => some s
  | k + 1, s => (step b verbose s).bind (run b verbose k)

end Interrupt32
end SmpBoot
