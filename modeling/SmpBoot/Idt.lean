import Mathlib.Algebra.Group.Nat.Defs
import Mathlib.Logic.Function.Basic
/-!
# Idt — which interrupts reach their stub

`idt.c` writes a gate as the members of a packed structure, `isr.c` fills in 43 of the 256 gates, `apic.c` chooses the
vectors of the local APIC, and the processor takes the quadwords apart again.  `isr_install` gives the ten gates of the
APIC their vector number for flags, and 0xA0 to 0xA9 are no flags of a gate: of all vectors only the exceptions and 0x80
get through, and no vector `config_apic` chooses is among them.
-/
namespace SmpBoot
namespace Idt

/-- `struct idt_entry` of the 64-bit build. -/
structure Entry64 where
  baseLo   : BitVec 16
  sel      : BitVec 16
  ist      : BitVec 8
  flags    : BitVec 8
  baseMid  : BitVec 16
  baseHigh : BitVec 32
  dummy    : BitVec 32

/-- `struct idt_entry` of the 32-bit build. -/
structure Entry32 where
  baseLo  : BitVec 16
  sel     : BitVec 16
  always0 : BitVec 8
  flags   : BitVec 8
  baseHi  : BitVec 16

/-- The sixteen bytes of the packed structure as the processor loads them. -/
def Entry64.bits (e : Entry64) : BitVec 128 :=
  e.dummy ++ (e.baseHigh ++ (e.baseMid ++ (e.flags ++ (e.ist ++ (e.sel ++ e.baseLo)))))

def Entry32.bits (e : Entry32) : BitVec 64 := e.baseHi ++ (e.flags ++ (e.always0 ++ (e.sel ++ e.baseLo)))

/-- The stores of `idt_set_gate` to one entry; `dummy` is not written. -/
def Entry64.store (old : Entry64) (base : BitVec 64) (sel : BitVec 16) (flags : BitVec 8) : Entry64 :=
  { old with baseLo := (base &&& 0xFFFF#64).setWidth 16, sel := sel, ist := 0, flags := flags,
             baseMid := ((base >>> 16) &&& 0xFFFF#64).setWidth 16,
             baseHigh := ((base >>> 32) &&& 0xFFFFFFFF#64).setWidth 32 }

def Entry32.store (_ : Entry32) (base : BitVec 32) (sel : BitVec 16) (flags : BitVec 8) : Entry32 where
  baseLo  := (base &&& 0xFFFF#32).setWidth 16
  sel     := sel
  always0 := 0
  flags   := flags
  baseHi  := (base >>> 16).setWidth 16

/-- `idt_set_gate`. -/
def idtSetGate64 (idt : BitVec 8 → Entry64) (num : BitVec 8) (base : BitVec 64) (sel : BitVec 16) (flags : BitVec 8) :
    BitVec 8 → Entry64 :=
  Function.update idt num ((idt num).store base sel flags)

def idtSetGate32 (idt : BitVec 8 → Entry32) (num : BitVec 8) (base : BitVec 32) (sel : BitVec 16) (flags : BitVec 8) :
    BitVec 8 → Entry32 :=
  Function.update idt num ((idt num).store base sel flags)

/-- The table `idt_install` leaves. -/
def idtInstall64 (_ : BitVec 8) : Entry64 := ⟨0, 0, 0, 0, 0, 0, 0⟩

def idtInstall32 (_ : BitVec 8) : Entry32 := ⟨0, 0, 0, 0, 0⟩

/-- The calls of `isr_install`, each with its vector and its flags. -/
def gates : List (BitVec 8 × BitVec 8) :=
  (List.range 32).map (fun n => (BitVec.ofNat 8 n, 0x8E#8)) ++ [(0x80#8, 0x8E#8)] ++
  (List.range 10).map fun k => (BitVec.ofNat 8 (0xA0 + k), BitVec.ofNat 8 (0xA0 + k))

/-- `isr_install`, with the addresses of the stubs and the value of `GDT_Code_Sel`. -/
def isrInstall64 (isr : BitVec 8 → BitVec 64) (sel : BitVec 16) (idt : BitVec 8 → Entry64) : BitVec 8 → Entry64 :=
  gates.foldl (fun idt g => idtSetGate64 idt g.1 (isr g.1) sel g.2) idt

def isrInstall32 (isr : BitVec 8 → BitVec 32) (sel : BitVec 16) (idt : BitVec 8 → Entry32) : BitVec 8 → Entry32 :=
  gates.foldl (fun idt g => idtSetGate32 idt g.1 (isr g.1) sel g.2) idt

/-! ## The processor -/

/-- What becomes of an interrupt in ring 0: a handler of the given width entered at an offset of a code segment, a switch
to a task, a general protection fault for what is no gate, or "segment not present". -/
inductive Dispatch where
  | handler (width : Nat) (trap : Bool) (sel : BitVec 16) (offset : BitVec 64)
  | task (sel : BitVec 16)
  | gp
  | np
deriving DecidableEq

/-- The type and the system bit below it, and the present bit. -/
def kind64 (g : BitVec 128) : BitVec 5 := g.extractLsb' 40 5

def dispatch64 (g : BitVec 128) : Dispatch :=
  if kind64 g = 0b01110#5 ∨ kind64 g = 0b01111#5 then
    if g.extractLsb' 47 1 = 1#1 then
      .handler 64 (kind64 g = 0b01111#5) (g.extractLsb' 16 16)
        (g.extractLsb' 64 32 ++ (g.extractLsb' 48 16 ++ g.extractLsb' 0 16))
    else .np
  else .gp

def kind32 (g : BitVec 64) : BitVec 5 := g.extractLsb' 40 5

def dispatch32 (g : BitVec 64) : Dispatch :=
  if kind32 g = 0b00101#5 ∨ kind32 g = 0b00110#5 ∨ kind32 g = 0b00111#5 ∨ kind32 g = 0b01110#5 ∨ kind32 g = 0b01111#5 then
    if g.extractLsb' 47 1 = 1#1 then
      if kind32 g = 0b00101#5 then .task (g.extractLsb' 16 16)
      else if kind32 g = 0b00110#5 ∨ kind32 g = 0b00111#5 then
        .handler 16 (kind32 g = 0b00111#5) (g.extractLsb' 16 16) ((g.extractLsb' 0 16).setWidth 64)
      else .handler 32 (kind32 g = 0b01111#5) (g.extractLsb' 16 16)
        ((g.extractLsb' 48 16 ++ g.extractLsb' 0 16).setWidth 64)
    else .np
  else .gp

/-! ## One gate -/

theorem append_toNat {m n : Nat} (a : BitVec m) (b : BitVec n) : (a ++ b).toNat = a.toNat * 2 ^ n + b.toNat := by
  rw [BitVec.toNat_append, ← Nat.shiftLeft_add_eq_or_of_lt b.isLt, Nat.shiftLeft_eq]

/-- **The processor puts together what `idt_set_gate` took apart.** -/
theorem store_offset64 (old : Entry64) (base : BitVec 64) (sel : BitVec 16) (flags : BitVec 8) :
    (old.store base sel flags).baseHigh ++ ((old.store base sel flags).baseMid ++ (old.store base sel flags).baseLo) =
      base := by
  have hb := base.isLt
  apply BitVec.eq_of_toNat_eq
  rw [append_toNat, append_toNat]
  simp only [Entry64.store, BitVec.toNat_setWidth, BitVec.toNat_and, BitVec.toNat_ushiftRight, BitVec.toNat_ofNat,
    Nat.shiftRight_eq_div_pow, Nat.reducePow, Nat.reduceMod]
  rw [show 65535 = 2 ^ 16 - 1 from rfl, show 4294967295 = 2 ^ 32 - 1 from rfl]
  simp only [Nat.and_two_pow_sub_one_eq_mod]
  omega

theorem store_offset32 (old : Entry32) (base : BitVec 32) (sel : BitVec 16) (flags : BitVec 8) :
    (old.store base sel flags).baseHi ++ (old.store base sel flags).baseLo = base := by
  have hb := base.isLt
  apply BitVec.eq_of_toNat_eq
  rw [append_toNat]
  simp only [Entry32.store, BitVec.toNat_setWidth, BitVec.toNat_and, BitVec.toNat_ushiftRight, BitVec.toNat_ofNat,
    Nat.shiftRight_eq_div_pow, Nat.reducePow, Nat.reduceMod]
  rw [show 65535 = 2 ^ 16 - 1 from rfl, Nat.and_two_pow_sub_one_eq_mod]
  omega

/-- Each member where the processor looks for it. -/
theorem Entry64.fields (e : Entry64) :
    kind64 e.bits = e.flags.extractLsb' 0 5 ∧ e.bits.extractLsb' 47 1 = e.flags.extractLsb' 7 1 ∧
    e.bits.extractLsb' 16 16 = e.sel ∧ e.bits.extractLsb' 64 32 = e.baseHigh ∧ e.bits.extractLsb' 48 16 = e.baseMid ∧
    e.bits.extractLsb' 0 16 = e.baseLo := by
  refine ⟨?_, ?_, ?_, ?_, ?_, ?_⟩ <;>
    simp (disch := omega) only [kind64, Entry64.bits, BitVec.extractLsb'_append_eq_of_le,
      BitVec.extractLsb'_append_eq_of_add_le] <;>
    exact BitVec.extractLsb'_eq_self

theorem Entry32.fields (e : Entry32) :
    kind32 e.bits = e.flags.extractLsb' 0 5 ∧ e.bits.extractLsb' 47 1 = e.flags.extractLsb' 7 1 ∧
    e.bits.extractLsb' 16 16 = e.sel ∧ e.bits.extractLsb' 48 16 = e.baseHi ∧ e.bits.extractLsb' 0 16 = e.baseLo := by
  refine ⟨?_, ?_, ?_, ?_, ?_⟩ <;>
    simp (disch := omega) only [kind32, Entry32.bits, BitVec.extractLsb'_append_eq_of_le,
      BitVec.extractLsb'_append_eq_of_add_le] <;>
    exact BitVec.extractLsb'_eq_self

/-- The gate the processor finds in an entry `idt_set_gate` has written. -/
theorem dispatch_store64 (old : Entry64) (base : BitVec 64) (sel : BitVec 16) (flags : BitVec 8) :
    dispatch64 (old.store base sel flags).bits =
      if flags.extractLsb' 0 5 = 0b01110#5 ∨ flags.extractLsb' 0 5 = 0b01111#5 then
        if flags.extractLsb' 7 1 = 1#1 then .handler 64 (flags.extractLsb' 0 5 = 0b01111#5) sel base else .np
      else .gp := by
  obtain ⟨hk, hp, hs, hh, hm, hl⟩ := (old.store base sel flags).fields
  rw [dispatch64, hk, hp, hs, hh, hm, hl, store_offset64]
  rfl

theorem dispatch_store32 (old : Entry32) (base : BitVec 32) (sel : BitVec 16) (flags : BitVec 8) :
    dispatch32 (old.store base sel flags).bits =
      let kind := flags.extractLsb' 0 5
      if kind = 0b00101#5 ∨ kind = 0b00110#5 ∨ kind = 0b00111#5 ∨ kind = 0b01110#5 ∨ kind = 0b01111#5 then
        if flags.extractLsb' 7 1 = 1#1 then
          if kind = 0b00101#5 then .task sel
          else if kind = 0b00110#5 ∨ kind = 0b00111#5 then
            .handler 16 (kind = 0b00111#5) sel (((base &&& 0xFFFF#32).setWidth 16).setWidth 64)
          else .handler 32 (kind = 0b01111#5) sel (base.setWidth 64)
        else .np
      else .gp := by
  obtain ⟨hk, hp, hs, hh, hl⟩ := (old.store base sel flags).fields
  rw [dispatch32, hk, hp, hs, hh, hl, store_offset32]
  rfl

/-! ## The table as a whole -/

/-- Entries nobody names stay. -/
theorem foldl_update_of_not_mem {K E A : Type} [DecidableEq K] (key : A → K) (e : A → E → E) : ∀ (l : List A) (t : K → E)
    (k : K), k ∉ l.map key → l.foldl (fun t a => Function.update t (key a) (e a (t (key a)))) t k = t k
  | [], _, _, _ => rfl
  | a :: l, t, k, h => by
    simp only [List.map_cons, List.mem_cons, not_or] at h
    rw [List.foldl_cons, foldl_update_of_not_mem key e l _ k h.2, Function.update_of_ne h.1]

/-- An entry that is named once is what that call makes of it. -/
theorem foldl_update_of_mem {K E A : Type} [DecidableEq K] (key : A → K) (e : A → E → E) : ∀ (l : List A) (t : K → E)
    (a : A), (l.map key).Nodup → a ∈ l →
    l.foldl (fun t a => Function.update t (key a) (e a (t (key a)))) t (key a) = e a (t (key a))
  | b :: l, t, a, hn, h => by
    rw [List.map_cons, List.nodup_cons] at hn
    rw [List.foldl_cons]
    rcases List.mem_cons.mp h with rfl | h
    · rw [foldl_update_of_not_mem key e l _ _ hn.1, Function.update_self]
    · have hne : key a ≠ key b := fun hab => hn.1 (hab ▸ List.mem_map_of_mem h)
      rw [foldl_update_of_mem key e l _ a hn.2 h, Function.update_of_ne hne]

theorem foldl_update_eq {K E A : Type} [DecidableEq K] (key : A → K) (e : A → E → E) (l : List A) (t : K → E) (k : K)
    (hn : (l.map key).Nodup) :
    l.foldl (fun t a => Function.update t (key a) (e a (t (key a)))) t k =
      match l.find? (fun a => key a = k) with
      | some a => e a (t k)
      | none   => t k := by
  split
  · rename_i a ha
    have hk : key a = k := by simpa using List.find?_some ha
    rw [← hk]
    exact foldl_update_of_mem key e l t a hn (List.mem_of_find?_eq_some ha)
  · rename_i ha
    refine foldl_update_of_not_mem key e l t k fun hmem => ?_
    obtain ⟨a, ha', hk⟩ := List.mem_map.mp hmem
    have := List.find?_eq_none.mp ha a ha'
    simp [hk] at this

/-- The vectors below 32 and 0x80: the gates with the flags of an interrupt gate. -/
def Proper (v : BitVec 8) : Prop := v < 32 ∨ v = 0x80

instance (v : BitVec 8) : Decidable (Proper v) := inferInstanceAs (Decidable (_ ∨ _))

theorem gates_nodup : (gates.map Prod.fst).Nodup := by decide

theorem gates_find : ∀ v : BitVec 8, (gates.find? fun g => g.1 = v) =
    if Proper v then some (v, 0x8E#8) else if 0xA0 ≤ v ∧ v ≤ 0xA9 then some (v, v) else none := by decide

/-- The flags of the APIC's gates are those of no 64-bit gate. -/
theorem apic_flags64 : ∀ v : BitVec 8, 0xA0 ≤ v ∧ v ≤ 0xA9 →
    ¬(v.extractLsb' 0 5 = 0b01110#5 ∨ v.extractLsb' 0 5 = 0b01111#5) := by decide

/-- The entry `isr_install` leaves: an interrupt gate, a gate with its own number as flags, or the one of `idt_install`. -/
theorem isrInstall64_entry (isr : BitVec 8 → BitVec 64) (sel : BitVec 16) (v : BitVec 8) :
    isrInstall64 isr sel idtInstall64 v =
      if Proper v then (idtInstall64 v).store (isr v) sel 0x8E#8
      else if 0xA0 ≤ v ∧ v ≤ 0xA9 then (idtInstall64 v).store (isr v) sel v else idtInstall64 v := by
  have hentry : isrInstall64 isr sel idtInstall64 v = _ :=
    foldl_update_eq Prod.fst (fun (g : BitVec 8 × BitVec 8) (old : Entry64) => old.store (isr g.1) sel g.2)
      gates idtInstall64 v gates_nodup
  rw [hentry, gates_find]
  by_cases hv : Proper v
  · simp only [hv, if_true]
  · by_cases ha : 0xA0 ≤ v ∧ v ≤ 0xA9
    · simp only [hv, ha, and_self, if_true, if_false]
    · simp only [hv, ha, if_false]

theorem isrInstall64_refuses (isr : BitVec 8 → BitVec 64) (sel : BitVec 16) {v : BitVec 8} (hv : ¬ Proper v) :
    dispatch64 (isrInstall64 isr sel idtInstall64 v).bits = .gp := by
  rw [isrInstall64_entry, if_neg hv]
  by_cases ha : 0xA0 ≤ v ∧ v ≤ 0xA9
  · rw [if_pos ha, dispatch_store64]
    simp only [apic_flags64 v ha, if_false]
  · rw [if_neg ha]
    exact (by decide : dispatch64 (idtInstall64 0).bits = .gp)

/-- **The table as the 64-bit processor reads it.**  Exceptions and the vector 0x80 enter their own stub with interrupts
off; every other vector, those of the APIC included, is a general protection fault. -/
theorem isrInstall64_dispatch (isr : BitVec 8 → BitVec 64) (sel : BitVec 16) (v : BitVec 8) :
    dispatch64 (isrInstall64 isr sel idtInstall64 v).bits = if Proper v then .handler 64 false sel (isr v) else .gp := by
  by_cases hv : Proper v
  · rw [if_pos hv, isrInstall64_entry, if_pos hv, dispatch_store64]
    rfl
  · rw [if_neg hv]
    exact isrInstall64_refuses isr sel hv

/-- The 32-bit processor takes three of the APIC's gates for something: a task, and two handlers of 16 bits. -/
theorem apic_flags32 : ∀ v : BitVec 8, 0xA0 ≤ v ∧ v ≤ 0xA9 →
    ((v.extractLsb' 0 5 = 0b00101#5 ↔ v = 0xA5) ∧ (v.extractLsb' 0 5 = 0b00110#5 ↔ v = 0xA6) ∧
    (v.extractLsb' 0 5 = 0b00111#5 ↔ v = 0xA7) ∧ v.extractLsb' 0 5 ≠ 0b01110#5 ∧ v.extractLsb' 0 5 ≠ 0b01111#5) ∧
    v.extractLsb' 7 1 = 1#1 := by decide

/-- **The table as the 32-bit processor reads it.** -/
theorem isrInstall32_dispatch (isr : BitVec 8 → BitVec 32) (sel : BitVec 16) (v : BitVec 8) :
    dispatch32 (isrInstall32 isr sel idtInstall32 v).bits =
      if Proper v then .handler 32 false sel ((isr v).setWidth 64)
      else if v = 0xA5 then .task sel
      else if v = 0xA6 then .handler 16 false sel (((isr v &&& 0xFFFF#32).setWidth 16).setWidth 64)
      else if v = 0xA7 then .handler 16 true sel (((isr v &&& 0xFFFF#32).setWidth 16).setWidth 64)
      else .gp := by
  have hentry : isrInstall32 isr sel idtInstall32 v = _ :=
    foldl_update_eq Prod.fst (fun (g : BitVec 8 × BitVec 8) (old : Entry32) => old.store (isr g.1) sel g.2)
      gates idtInstall32 v gates_nodup
  rw [hentry, gates_find]
  by_cases hv : Proper v
  · simp only [hv, if_true, dispatch_store32]
    rfl
  · by_cases ha : 0xA0 ≤ v ∧ v ≤ 0xA9
    · obtain ⟨⟨h5, h6, h7, hE, hF⟩, hP⟩ := apic_flags32 v ha
      simp only [hv, ha, and_self, if_true, if_false, dispatch_store32, h5, h6, h7, hE, hF, hP, or_false]
      by_cases h₅ : v = 0xA5
      · simp only [h₅, true_or, if_true]
      · by_cases h₆ : v = 0xA6
        · subst h₆
          rfl
        · by_cases h₇ : v = 0xA7
          · subst h₇
            rfl
          · simp only [h₅, h₆, h₇, or_self, if_false]
    · have h567 : v ≠ 0xA5 ∧ v ≠ 0xA6 ∧ v ≠ 0xA7 := by
        refine ⟨?_, ?_, ?_⟩ <;> rintro rfl <;> exact ha (by decide)
      simp only [hv, ha, h567, if_false]
      exact (by decide : dispatch32 (idtInstall32 0).bits = .gp)

/-! ## The vectors of the local APIC -/

/-- The registers of a local APIC by their offset. -/
abbrev Lapic := BitVec 32 → BitVec 32

def writeLocalApic (regs : Lapic) (offset value : BitVec 32) : Lapic := Function.update regs offset value

def setLocalApic (regs : Lapic) (offset mask value : BitVec 32) : Lapic :=
  writeLocalApic regs offset ((regs offset &&& ~~~mask) ||| value)

def regId : BitVec 32 := 0x0020
def regSpurious : BitVec 32 := 0x00F0
def lvtTimer : BitVec 32 := 0x0320
def lvtThermal : BitVec 32 := 0x0330
def lvtPerf : BitVec 32 := 0x0340
def lvtLint0 : BitVec 32 := 0x0350
def lvtLint1 : BitVec 32 := 0x0360
def lvtError : BitVec 32 := 0x0370

/-- The calls of `config_apic`, but for the one that writes the id. -/
def configCalls : List (BitVec 32 × BitVec 32 × BitVec 32) :=
  [(lvtTimer, 0x10000, 0x10000), (lvtLint0, 0xFF, 0xA4), (lvtLint1, 0x10000, 0x10000), (lvtError, 0x10000, 0),
   (lvtError, 0xFF, 0xA6), (lvtPerf, 0x10000, 0x10000), (lvtThermal, 0x10000, 0x10000)]

/-- `config_apic`. -/
def configApic (id : BitVec 32) (regs : Lapic) : Lapic :=
  let regs := setLocalApic regs regSpurious 0x100 0x100
  let regs := setLocalApic regs regSpurious 0xFF 0xA0
  let regs := if id > 0 then writeLocalApic regs regId ((id &&& 0x7F) <<< 24) else regs
  configCalls.foldl (fun regs c => setLocalApic regs c.1 c.2.1 c.2.2) regs

end Idt
end SmpBoot
