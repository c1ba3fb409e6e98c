import Mathlib.Algebra.Group.Nat.Defs
import SmpBoot.Lib.StackCode
/-!
# Interrupt — the way of an interrupt through the 64-bit stub

`jump64.asm`: the processor pushes its five words (and an error code with some exceptions), `isrN` completes the frame
and adds the vector, `isr_common_stub` saves the registers as `struct regs` of `system.h` has them, calls `int_handler`
with a pointer to them, puts them back and returns with `iretq`.  What `int_handler` does between is a parameter here;
the stack is memory, and what the code does on it is read off the list (`StackCode.exec_refines`).
-/
namespace SmpBoot
namespace Interrupt

open StackCode

/-- The registers of a 64-bit CPU, and the first two cells of the text screen, where some stubs leave a mark.  The
instruction pointer is the interrupted one; the arithmetic flags the stub itself changes are not followed. -/
structure Regs64 where
  rax : BitVec 64
  rcx : BitVec 64
  rdx : BitVec 64
  rbx : BitVec 64
  rbp : BitVec 64
  rsi : BitVec 64
  rdi : BitVec 64
  r8  : BitVec 64
  r9  : BitVec 64
  r10 : BitVec 64
  r11 : BitVec 64
  r12 : BitVec 64
  r13 : BitVec 64
  r14 : BitVec 64
  r15 : BitVec 64
  ds  : BitVec 16
  es  : BitVec 16
  fs  : BitVec 16
  gs  : BitVec 16
  cr2 : BitVec 64
  cr3 : BitVec 64
  rip : BitVec 64
  cs  : BitVec 16
  rflags : BitVec 64
  ss  : BitVec 16
  cells : BitVec 16 × BitVec 16
deriving DecidableEq

abbrev Op64 := Op Regs64 (BitVec 64)
abbrev Cpu64 := Cpu Regs64 (BitVec 64)

/-- A selector as it is pushed. -/
def wide (s : BitVec 16) : BitVec 64 := 0#48 ++ s

/-- `mov ax, s`: the upper part of `rax` stays. -/
def setAx (r : BitVec 64) (s : BitVec 16) : BitVec 64 := r.extractLsb' 16 48 ++ s

@[simp] theorem setAx_zero (s : BitVec 16) : setAx 0 s = wide s := by
  simp [setAx, wide]

@[simp] theorem setAx_wide (t s : BitVec 16) : setAx (wide t) s = wide s := by
  simp only [setAx, wide, BitVec.extractLsb'_append_eq_left]

/-- The trap, interrupt, nested-task, resume and virtual-8086 flags, cleared by an interrupt gate. -/
def gateFlags : BitVec 64 := 0x34300#64

/-- What the processor pushes: five words, and the error code if there is one. -/
def deliverCode (err : Option (BitVec 64)) (rsp : Nat) : List Op64 :=
  [.push fun r _ => wide r.ss, .push fun _ _ => BitVec.ofNat 64 rsp, .push fun r _ => r.rflags,
   .push fun r _ => wide r.cs, .push fun r _ => r.rip, .move fun r _ => { r with rflags := r.rflags &&& ~~~gateFlags }] ++
  err.toList.map fun e => .push fun _ _ => e

/-- The stack pointer goes down to a multiple of 16 first. -/
def deliver (err : Option (BitVec 64)) (c : Cpu64) : Cpu64 :=
  exec 8 (deliverCode err c.sp) { c with sp := c.sp / 16 * 16 }

/-- `ISR_EXCEPTION_WITHOUT_ERRCODE`: an `X0` in the corner of the screen, then a dummy error code and the vector. -/
def isrExceptionWithoutErrcode (n : Nat) : List Op64 :=
  [.push fun r _ => r.rax,
   .move fun r _ => { r with rax := setAx r.rax 0x0F58#16 },
   .move fun r _ => { r with cells := (r.rax.setWidth 16, r.cells.2) },
   .move fun r _ => { r with rax := setAx r.rax 0x0F30#16 },
   .move fun r _ => { r with cells := (r.cells.1, r.rax.setWidth 16) },
   .pop fun r v => { r with rax := v },
   .push fun _ _ => 0, .push fun _ _ => BitVec.ofNat 64 n]

/-- `ISR_EXCEPTION_WITH_ERRCODE`: the error code is already on the stack. -/
def isrExceptionWithErrcode (n : Nat) : List Op64 := [.push fun _ _ => BitVec.ofNat 64 n]

/-- `ISR_INTERRUPT`. -/
def isrInterrupt (n : Nat) : List Op64 := [.push fun _ _ => 0, .push fun _ _ => BitVec.ofNat 64 n]

/-- The vectors whose stub is made with `ISR_EXCEPTION_WITH_ERRCODE`. -/
def withErrcode : List Nat := [8, 10, 11, 12, 13, 14]

/-- `isrN`, up to the jump. -/
def isr (n : Nat) : List Op64 :=
  if n ∈ withErrcode then isrExceptionWithErrcode n
  else if n < 32 then isrExceptionWithoutErrcode n
  else isrInterrupt n

/-- `isr_common_stub` before the call. -/
def saveContext : List Op64 :=
  [.push fun r _ => r.rax, .push fun r _ => r.rcx, .push fun r _ => r.rdx, .push fun r _ => r.rbx, .push fun _ _ => 0,
   .push fun r _ => r.rbp, .push fun r _ => r.rsi, .push fun r _ => r.rdi, .push fun r _ => r.r8, .push fun r _ => r.r9,
   .push fun r _ => r.r10, .push fun r _ => r.r11, .push fun r _ => r.r12, .push fun r _ => r.r13,
   .push fun r _ => r.r14, .push fun r _ => r.r15,
   .move fun r _ => { r with rax := 0 },
   .move fun r _ => { r with rax := setAx r.rax r.ds }, .push fun r _ => r.rax,
   .move fun r _ => { r with rax := setAx r.rax r.es }, .push fun r _ => r.rax,
   .push fun r _ => wide r.fs, .push fun r _ => wide r.gs,
   .move fun r _ => { r with rax := r.cr3 }, .push fun r _ => r.rax,
   .move fun r _ => { r with rax := r.cr2 }, .push fun r _ => r.rax,
   .move fun r sp => { r with rdi := BitVec.ofNat 64 sp }]

/-- `isr_common_stub` after the call, up to `iretq`.  `cr2` is only removed. -/
def restoreContext : List Op64 :=
  [.pop fun r v => { r with rax := v },
   .pop fun r v => { r with rax := v }, .move fun r _ => { r with cr3 := r.rax },
   .pop fun r v => { r with gs := v.setWidth 16 }, .pop fun r v => { r with fs := v.setWidth 16 },
   .pop fun r v => { r with rax := v }, .move fun r _ => { r with es := r.rax.setWidth 16 },
   .pop fun r v => { r with rax := v }, .move fun r _ => { r with ds := r.rax.setWidth 16 },
   .pop fun r v => { r with r15 := v }, .pop fun r v => { r with r14 := v }, .pop fun r v => { r with r13 := v },
   .pop fun r v => { r with r12 := v }, .pop fun r v => { r with r11 := v }, .pop fun r v => { r with r10 := v },
   .pop fun r v => { r with r9 := v }, .pop fun r v => { r with r8 := v }, .pop fun r v => { r with rdi := v },
   .pop fun r v => { r with rsi := v }, .pop fun r v => { r with rbp := v },
   .drop 1,
   .pop fun r v => { r with rbx := v }, .pop fun r v => { r with rdx := v }, .pop fun r v => { r with rcx := v },
   .pop fun r v => { r with rax := v },
   .drop 2]

/-- The CPU as it calls `int_handler`. -/
def entry (n : Nat) (err : Option (BitVec 64)) (c : Cpu64) : Cpu64 := exec 8 (isr n ++ saveContext) (deliver err c)

/-- `struct regs` of `system.h`. -/
structure Regs where
  cr2 : BitVec 64
  cr3 : BitVec 64
  gs  : BitVec 64
  fs  : BitVec 64
  es  : BitVec 64
  ds  : BitVec 64
  r15 : BitVec 64
  r14 : BitVec 64
  r13 : BitVec 64
  r12 : BitVec 64
  r11 : BitVec 64
  r10 : BitVec 64
  r9  : BitVec 64
  r8  : BitVec 64
  rdi : BitVec 64
  rsi : BitVec 64
  rbp : BitVec 64
  zero : BitVec 64
  rbx : BitVec 64
  rdx : BitVec 64
  rcx : BitVec 64
  rax : BitVec 64
  intNo : BitVec 64
  errCode : BitVec 64
  rip : BitVec 64
  cs  : BitVec 64
  rflags : BitVec 64
  rsp : BitVec 64
  ss  : BitVec 64
deriving DecidableEq

/-- The packed structure at `p`: one quadword for each member, in the order of the declaration. -/
def Regs.read (mem : Nat → BitVec 64) (p : Nat) : Regs where
  cr2 := mem p
  cr3 := mem (p + 8)
  gs  := mem (p + 16)
  fs  := mem (p + 24)
  es  := mem (p + 32)
  ds  := mem (p + 40)
  r15 := mem (p + 48)
  r14 := mem (p + 56)
  r13 := mem (p + 64)
  r12 := mem (p + 72)
  r11 := mem (p + 80)
  r10 := mem (p + 88)
  r9  := mem (p + 96)
  r8  := mem (p + 104)
  rdi := mem (p + 112)
  rsi := mem (p + 120)
  rbp := mem (p + 128)
  zero := mem (p + 136)
  rbx := mem (p + 144)
  rdx := mem (p + 152)
  rcx := mem (p + 160)
  rax := mem (p + 168)
  intNo := mem (p + 176)
  errCode := mem (p + 184)
  rip := mem (p + 192)
  cs  := mem (p + 200)
  rflags := mem (p + 208)
  rsp := mem (p + 216)
  ss  := mem (p + 224)

/-! ## What the code does on the list -/

/-- The words `saveContext` leaves, the last one pushed first. -/
def saved (r : Regs64) : List (BitVec 64) :=
  [r.cr2, r.cr3, wide r.gs, wide r.fs, wide r.es, wide r.ds, r.r15, r.r14, r.r13, r.r12, r.r11, r.r10, r.r9, r.r8,
   r.rdi, r.rsi, r.rbp, 0, r.rbx, r.rdx, r.rcx, r.rax]

/-- The processor's words. -/
def pushed (err : Option (BitVec 64)) (c : Cpu64) : List (BitVec 64) :=
  err.toList ++ [c.regs.rip, wide c.regs.cs, c.regs.rflags, BitVec.ofNat 64 c.sp, wide c.regs.ss]

/-- The words of the stub `isrN` above them. -/
def numbered (n : Nat) (l : List (BitVec 64)) : List (BitVec 64) :=
  BitVec.ofNat 64 n :: if n ∈ withErrcode then l else 0 :: l

/-- The mark of the stubs for exceptions without an error code. -/
def marked (n : Nat) (r : Regs64) : Regs64 :=
  if n ∉ withErrcode ∧ n < 32 then { r with cells := (0x0F58#16, 0x0F30#16) } else r

theorem setAx_low (r : BitVec 64) (s : BitVec 16) : (setAx r s).setWidth 16 = s := by
  rw [setAx, BitVec.setWidth_append]
  simp

theorem isr_list (n : Nat) (r : Regs64) (sp : Nat) (l : List (BitVec 64)) :
    ∃ sp', execList 8 (isr n) ⟨r, sp, l⟩ = some ⟨marked n r, sp', numbered n l⟩ := by
  unfold isr
  by_cases h : n ∈ withErrcode
  · exact ⟨sp - 8, by simp [isrExceptionWithErrcode, execList, Op.stepList, marked, numbered, h]⟩
  · by_cases h32 : n < 32
    · refine ⟨sp - 8 + 8 - 8 - 8, ?_⟩
      simp only [h, h32, if_false, if_true, isrExceptionWithoutErrcode, execList, Op.stepList, Option.bind_some, marked,
        numbered, setAx_low, not_false_eq_true, and_self]
    · refine ⟨sp - 8 - 8, ?_⟩
      simp only [h, h32, if_false, isrInterrupt, execList, Op.stepList, Option.bind_some, marked, numbered, and_false]

theorem saveContext_list (r : Regs64) (sp : Nat) (l : List (BitVec 64)) :
    ∃ t sp', execList 8 saveContext ⟨r, sp, l⟩ = some ⟨t, sp', saved r ++ l⟩ := by
  have hds : setAx (0 : BitVec 64) r.ds = wide r.ds := setAx_zero _
  have hes : setAx (wide r.ds) r.es = wide r.es := setAx_wide _ _
  rw [saved, ← hes, ← hds]
  exact ⟨_, _, rfl⟩

theorem deliver_list (err : Option (BitVec 64)) (c : Cpu64) (sp : Nat) :
    ∃ sp', execList 8 (deliverCode err c.sp) ⟨c.regs, sp, []⟩ =
      some ⟨{ c.regs with rflags := c.regs.rflags &&& ~~~gateFlags }, sp', pushed err c⟩ := by
  cases err <;> exact ⟨_, rfl⟩

theorem saved_marked (n : Nat) (r : Regs64) (f : BitVec 64) : saved (marked n { r with rflags := f }) = saved r := by
  unfold marked
  split <;> rfl

theorem isr_pushes (n : Nat) : pushes (isr n) ≤ 3 := by
  unfold isr
  split
  · exact Nat.le_of_ble_eq_true rfl
  · split <;> exact Nat.le_of_ble_eq_true rfl

theorem deliver_pushes (err : Option (BitVec 64)) (rsp : Nat) : pushes (deliverCode err rsp) ≤ 6 := by
  cases err <;> exact Nat.le_of_ble_eq_true rfl

/-- **As `int_handler` is called the stack holds the frame**, from the saved registers up to the processor's words; its
bottom is the stack pointer as the processor rounded it down, and nothing from there on has changed. -/
theorem entry_frame (n : Nat) (err : Option (BitVec 64)) (c : Cpu64) (hroom : 264 ≤ c.sp) :
    ∃ s : Listed Regs64 (BitVec 64), Refines 8 (entry n err c) s ∧
      s.stack = saved c.regs ++ numbered n (pushed err c) ∧ s.bottom 8 = c.sp / 16 * 16 ∧
      ∀ a, c.sp / 16 * 16 ≤ a → (entry n err c).mem a = c.mem a := by
  have hcode : entry n err c =
      exec 8 (deliverCode err c.sp ++ (isr n ++ saveContext)) { c with sp := c.sp / 16 * 16 } :=
    (exec_append 8 _ _ _).symm
  obtain ⟨sp₁, h₁⟩ := deliver_list err c (c.sp / 16 * 16)
  obtain ⟨sp₂, h₂⟩ := isr_list n { c.regs with rflags := c.regs.rflags &&& ~~~gateFlags } sp₁ (pushed err c)
  obtain ⟨t, sp₃, h₃⟩ := saveContext_list (marked n { c.regs with rflags := c.regs.rflags &&& ~~~gateFlags }) sp₂
    (numbered n (pushed err c))
  rw [saved_marked] at h₃
  have hrun : execList 8 (deliverCode err c.sp ++ (isr n ++ saveContext)) ⟨c.regs, c.sp / 16 * 16, []⟩ =
      some ⟨t, sp₃, saved c.regs ++ numbered n (pushed err c)⟩ := by
    rw [execList_append, h₁, Option.bind_some, execList_append, h₂, Option.bind_some, h₃]
  have hpush : pushes (deliverCode err c.sp ++ (isr n ++ saveContext)) ≤ 31 := by
    have hsave : pushes saveContext = 22 := rfl
    have hdel := deliver_pushes err c.sp
    have hisr := isr_pushes n
    rw [pushes_append, pushes_append]
    omega
  have h0 : Refines 8 { c with sp := c.sp / 16 * 16 } ⟨c.regs, c.sp / 16 * 16, []⟩ := ⟨rfl, rfl, trivial⟩
  obtain ⟨hr, hb, hm⟩ := exec_refines (by decide) _ h0 hrun (by simp only; omega)
  rw [hcode]
  exact ⟨_, hr, rfl, by rw [hb]; simp [Listed.bottom], fun a ha => hm a (by simpa [Listed.bottom] using ha)⟩

/-- The structure that lies over the saved registers and the seven words after them. -/
def Regs.over (r : Regs64) (intNo errCode rip cs rflags rsp ss : BitVec 64) : Regs where
  cr2 := r.cr2
  cr3 := r.cr3
  gs  := wide r.gs
  fs  := wide r.fs
  es  := wide r.es
  ds  := wide r.ds
  r15 := r.r15
  r14 := r.r14
  r13 := r.r13
  r12 := r.r12
  r11 := r.r11
  r10 := r.r10
  r9  := r.r9
  r8  := r.r8
  rdi := r.rdi
  rsi := r.rsi
  rbp := r.rbp
  zero := 0
  rbx := r.rbx
  rdx := r.rdx
  rcx := r.rcx
  rax := r.rax
  intNo := intNo
  errCode := errCode
  rip := rip
  cs  := cs
  rflags := rflags
  rsp := rsp
  ss  := ss

theorem Regs.read_over {mem : Nat → BitVec 64} {p : Nat} {r : Regs64} {a b x₁ x₂ x₃ x₄ x₅ : BitVec 64}
    {l : List (BitVec 64)} (h : Holds 8 mem p (saved r ++ a :: b :: x₁ :: x₂ :: x₃ :: x₄ :: x₅ :: l)) :
    Regs.read mem p = Regs.over r a b x₁ x₂ x₃ x₄ x₅ := by
  simp only [saved, List.cons_append, List.nil_append, Holds, Nat.add_assoc, Nat.reduceAdd] at h
  simp only [Regs.read, Regs.over, h]

/-- **What `int_handler` is shown.**  Where the processor pushes an error code exactly if the stub expects one, the
structure is the interrupted program's registers, in every member.  The frame is 232 bytes, so the stack is 8 off the
multiple of 16 that the ABI asks for at a call. -/
theorem entry_regs (n : Nat) (err : Option (BitVec 64)) (c : Cpu64) (hroom : 264 ≤ c.sp)
    (herr : err.isSome = decide (n ∈ withErrcode)) :
    Regs.read (entry n err c).mem (entry n err c).sp =
      Regs.over c.regs (BitVec.ofNat 64 n) (err.getD 0) c.regs.rip (wide c.regs.cs) c.regs.rflags
        (BitVec.ofNat 64 c.sp) (wide c.regs.ss) ∧
    (entry n err c).sp = c.sp / 16 * 16 - 232 ∧ (entry n err c).sp % 16 = 8 := by
  obtain ⟨s, hr, hs, hb, -⟩ := entry_frame n err c hroom
  have hnum : numbered n (pushed err c) = BitVec.ofNat 64 n :: err.getD 0 ::
      [c.regs.rip, wide c.regs.cs, c.regs.rflags, BitVec.ofNat 64 c.sp, wide c.regs.ss] := by
    cases err with
    | none   =>
      have hn : n ∉ withErrcode := by simpa using herr
      simp [numbered, pushed, hn]
    | some e =>
      have hn : n ∈ withErrcode := by simpa using herr
      simp [numbered, pushed, hn]
  have hst := hr.stack
  rw [hs, hnum] at hst
  have hsp : (entry n err c).sp = c.sp / 16 * 16 - 232 := by
    rw [Listed.bottom, ← hr.sp, hs, hnum] at hb
    simp only [saved, List.length_append, List.length_cons, List.length_nil] at hb
    omega
  exact ⟨Regs.read_over hst, hsp, by omega⟩

/-- A CPU at rest: a stack at 0x8000 in empty memory, running in ring 0 with interrupts on. -/
def resting : Cpu64 where
  regs := { rax := 1, rcx := 2, rdx := 3, rbx := 4, rbp := 5, rsi := 6, rdi := 7, r8 := 8, r9 := 9, r10 := 10, r11 := 11,
            r12 := 12, r13 := 13, r14 := 14, r15 := 15, ds := 0x10, es := 0x10, fs := 0x10, gs := 0x10, cr2 := 0,
            cr3 := 0x1000, rip := 0x100000, cs := 8, rflags := 0x202, ss := 0x10, cells := (0, 0) }
  sp   := 0x8004
  mem  := fun _ => 0

theorem entry_regs_fault : (Regs.read (entry 14 (some 2) resting).mem (entry 14 (some 2) resting).sp).errCode = 2 ∧
    (entry 14 (some 2) resting).sp % 16 = 8 := by
  obtain ⟨h, -, hsp⟩ := entry_regs 14 (some 2) resting (by decide) (by decide)
  exact ⟨by rw [h]; rfl, hsp⟩

/-- **An error code the stub does not expect shifts the structure by a word**: `r->rip` is the error code. -/
theorem entry_shifted (n : Nat) (e : BitVec 64) (c : Cpu64) (hroom : 264 ≤ c.sp) (hn : n ∉ withErrcode) :
    Regs.read (entry n (some e) c).mem (entry n (some e) c).sp =
      Regs.over c.regs (BitVec.ofNat 64 n) 0 e c.regs.rip (wide c.regs.cs) c.regs.rflags (BitVec.ofNat 64 c.sp) := by
  obtain ⟨s, hr, hs, -, -⟩ := entry_frame n (some e) c hroom
  have hst := hr.stack
  rw [hs] at hst
  simp only [numbered, hn, if_false, pushed, Option.toList_some, List.singleton_append] at hst
  exact Regs.read_over hst

/-- The alignment check, exception 17, has the error code 0. -/
theorem entry_shifted_alignment : (Regs.read (entry 17 (some 0) resting).mem (entry 17 (some 0) resting).sp).rip = 0 ∧
    (Regs.read (entry 17 (some 0) resting).mem (entry 17 (some 0) resting).sp).cs = 0x100000 := by
  rw [entry_shifted 17 0 resting (by decide) (by decide)]
  exact ⟨rfl, rfl⟩

/-! ## `int_handler` and the way back -/

/-- `int_handler` as far as it decides: the exceptions below 32 halt the CPU for ever, but for the number 15.  What it
does with all others, the two reads of `cpu_online` around it and the EOI among it, is `rest`. -/
def intHandler (rest : Nat → Cpu64 → Cpu64) (p : Nat) (c : Cpu64) : Option Cpu64 :=
  if (Regs.read c.mem p).intNo < 32 ∧ (Regs.read c.mem p).intNo ≠ 15 then none else some (rest p c)

end Interrupt
end SmpBoot
