import SmpBoot.Config
import SmpBoot.Lib.Run
/-!
# Pci — `pci_config_read()` of `pci.c`, called by several CPUs

The address port and the data port are one register pair: a read of the data port returns the double word selected last, by
whichever CPU.  `Owned` is the invariant: between its two accesses the pair belongs to the CPU that holds `pci_mutex`.
-/
namespace SmpBoot

open Interleave

/-! ## Addresses -/

/-- Configuration space: the byte of a bus, slot, function and offset. -/
abbrev ConfigSpace := Nat → Nat → Nat → Nat → BitVec 8

def ConfigSpace.halfWord (space : ConfigSpace) (bus slot func offset : Nat) : BitVec 16 :=
  space bus slot func (offset + 1) ++ space bus slot func offset

/-- What the data port returns while `adr` is in the address port. -/
def ConfigSpace.dataPort (space : ConfigSpace) (adr : BitVec 32) : BitVec 32 :=
  let bus := (adr.extractLsb' 16 8).toNat
  let slot := (adr.extractLsb' 11 5).toNat
  let func := (adr.extractLsb' 8 3).toNat
  let reg := (adr.extractLsb' 2 6).toNat
  -- without the enable bit no device answers
  if adr.msb then space.halfWord bus slot func (4 * reg + 2) ++ space.halfWord bus slot func (4 * reg) else 0xFFFFFFFF

/-- The arguments of a call. -/
structure PciArgs where
  bus       : BitVec 16
  slot      : BitVec 16
  func      : BitVec 16
  offset    : BitVec 16
  bus_lt    : bus.toNat < 256
  slot_lt   : slot.toNat < 32
  func_lt   : func.toNat < 8
  offset_lt : offset.toNat < 256
  even      : offset.toNat % 2 = 0

namespace PciArgs

/-- What the call is to return. -/
def halfWord (a : PciArgs) (space : ConfigSpace) : BitVec 16 :=
  space.halfWord a.bus.toNat a.slot.toNat a.func.toNat a.offset.toNat

/-- `adr` -/
def adr (a : PciArgs) : BitVec 32 :=
  0x80000000#32 ||| a.bus.setWidth 32 <<< 16 ||| a.slot.setWidth 32 <<< 11 ||| a.func.setWidth 32 <<< 8 |||
    (a.offset &&& 0xfc).setWidth 32

/-- `(offset & 2)*8` -/
def shift (a : PciArgs) : BitVec 16 := (a.offset &&& 2) * 8

/-- `value` -/
def value (a : PciArgs) (data : BitVec 32) : BitVec 16 := ((data >>> a.shift) &&& 0xFFFF).setWidth 16

theorem toNat_shl {x : BitVec 16} {k b : Nat} (hx : x.toNat < 2 ^ b) (h : b + k ≤ 32) :
    (x.setWidth 32 <<< k).toNat = x.toNat <<< k := by
  have hfits : x.toNat <<< k < 2 ^ 32 := calc
    x.toNat <<< k = x.toNat * 2 ^ k := Nat.shiftLeft_eq _ _
    _ < 2 ^ b * 2 ^ k := (Nat.mul_lt_mul_right (Nat.two_pow_pos k)).2 hx
    _ ≤ 2 ^ 32 := by
      rw [← Nat.pow_add]
      exact Nat.pow_le_pow_right (by decide) h
  rw [BitVec.toNat_shiftLeft, BitVec.toNat_setWidth_of_le (by decide), Nat.mod_eq_of_lt hfits]

theorem or_eq_add {hi lo : Nat} (i : Nat) (hhi : hi % 2 ^ i = 0) (hlo : lo < 2 ^ i) : hi ||| lo = hi + lo := by
  obtain ⟨q, rfl⟩ := Nat.dvd_of_mod_eq_zero hhi
  exact (Nat.two_pow_add_eq_or_of_lt hlo q).symm

theorem toNat_reg (a : PciArgs) : ((a.offset &&& 0xfc).setWidth 32).toNat = a.offset.toNat / 4 * 4 := by
  have hmask : ∀ x < 256, x &&& 252 = x / 4 * 4 := by decide +kernel
  rw [BitVec.toNat_setWidth_of_le (by decide), BitVec.toNat_and]
  exact hmask _ a.offset_lt

/-- **The fields do not overlap.** -/
theorem toNat_adr (a : PciArgs) : a.adr.toNat =
    2 ^ 31 + a.bus.toNat * 2 ^ 16 + a.slot.toNat * 2 ^ 11 + a.func.toNat * 2 ^ 8 + a.offset.toNat / 4 * 4 := by
  have hbus := a.bus_lt
  have hslot := a.slot_lt
  have hfunc := a.func_lt
  have hoffset := a.offset_lt
  have htop : (0x80000000#32).toNat = 2 ^ 31 := rfl
  have h1 : 2 ^ 31 ||| a.bus.toNat * 2 ^ 16 = _ := or_eq_add 31 (by decide) (by omega)
  have h2 : 2 ^ 31 + a.bus.toNat * 2 ^ 16 ||| a.slot.toNat * 2 ^ 11 = _ := or_eq_add 16 (by omega) (by omega)
  have h3 : 2 ^ 31 + a.bus.toNat * 2 ^ 16 + a.slot.toNat * 2 ^ 11 ||| a.func.toNat * 2 ^ 8 = _ :=
    or_eq_add 11 (by omega) (by omega)
  rw [adr, BitVec.toNat_or, BitVec.toNat_or, BitVec.toNat_or, BitVec.toNat_or, htop, toNat_reg,
    @toNat_shl a.bus 16 8 hbus (by decide), @toNat_shl a.slot 11 5 hslot (by decide), @toNat_shl a.func 8 3 hfunc (by decide),
    Nat.shiftLeft_eq, Nat.shiftLeft_eq, Nat.shiftLeft_eq, h1, h2, h3, or_eq_add 8 (by omega) (by omega)]

theorem toNat_shift (a : PciArgs) : a.shift.toNat = a.offset.toNat % 4 * 8 := by
  have hmask : ∀ x < 256, x % 2 = 0 → (x &&& 2) * 8 % 2 ^ 16 = x % 4 * 8 := by decide +kernel
  rw [shift, BitVec.toNat_mul, BitVec.toNat_and]
  exact hmask _ a.offset_lt a.even

theorem toNat_extract {x : BitVec 32} {k l : Nat} : (x.extractLsb' k l).toNat = x.toNat / 2 ^ k % 2 ^ l := by
  rw [BitVec.extractLsb'_toNat, Nat.shiftRight_eq_div_pow]

/-- **The address is decoded to the arguments.** -/
theorem dataPort_adr (a : PciArgs) (space : ConfigSpace) : space.dataPort a.adr =
    space.halfWord a.bus.toNat a.slot.toNat a.func.toNat (a.offset.toNat / 4 * 4 + 2) ++
    space.halfWord a.bus.toNat a.slot.toNat a.func.toNat (a.offset.toNat / 4 * 4) := by
  have hbus := a.bus_lt
  have hslot := a.slot_lt
  have hfunc := a.func_lt
  have hoffset := a.offset_lt
  have hadr := a.toNat_adr
  have hmsb : a.adr.msb = true := by
    rw [BitVec.msb_eq_decide]
    exact decide_eq_true (by omega)
  have hb : (a.adr.extractLsb' 16 8).toNat = a.bus.toNat := by
    rw [toNat_extract]
    omega
  have hs : (a.adr.extractLsb' 11 5).toNat = a.slot.toNat := by
    rw [toNat_extract]
    omega
  have hf : (a.adr.extractLsb' 8 3).toNat = a.func.toNat := by
    rw [toNat_extract]
    omega
  have hr : 4 * (a.adr.extractLsb' 2 6).toNat = a.offset.toNat / 4 * 4 := by
    rw [toNat_extract]
    omega
  simp only [ConfigSpace.dataPort, hmsb, if_true, hb, hs, hf, hr]

theorem value_eq_extract (a : PciArgs) (data : BitVec 32) :
    a.value data = data.extractLsb' (a.offset.toNat % 4 * 8) 16 := by
  have hmask : (0xFFFF : BitVec 32).setWidth 16 = BitVec.allOnes 16 := rfl
  rw [value, BitVec.ushiftRight_eq', toNat_shift, BitVec.setWidth_and, hmask, BitVec.and_allOnes,
    BitVec.setWidth_ushiftRight_eq_extractLsb]

/-- **The shift takes the half of the double word that is asked for.** -/
theorem value_dataPort (a : PciArgs) (space : ConfigSpace) : a.value (space.dataPort a.adr) = a.halfWord space := by
  have heven := a.even
  rw [value_eq_extract, dataPort_adr, halfWord]
  rcases (by omega : a.offset.toNat % 4 = 0 ∨ a.offset.toNat % 4 = 2) with h | h
  · have hlow : a.offset.toNat / 4 * 4 = a.offset.toNat := by omega
    rw [h, hlow]
    exact BitVec.extractLsb'_append_eq_right
  · have hhigh : a.offset.toNat / 4 * 4 + 2 = a.offset.toNat := by omega
    rw [h, hhigh]
    exact BitVec.extractLsb'_append_eq_left

/-- A configuration space with one byte that is not 0. -/
def spot (a : PciArgs) : ConfigSpace := fun bus slot func offset =>
  if bus = a.bus.toNat ∧ slot = a.slot.toNat ∧ func = a.func.toNat ∧ offset = a.offset.toNat then 1 else 0

/-- **Different arguments select different half-words**: some configuration space tells them apart. -/
theorem select_injective : Function.Injective fun (a : PciArgs) (space : ConfigSpace) => a.value (space.dataPort a.adr) := by
  intro a a' h
  have hhalf : a.halfWord a.spot = a'.halfWord a.spot := by
    have hspot : a.value (a.spot.dataPort a.adr) = a'.value (a.spot.dataPort a'.adr) := congrFun h a.spot
    rwa [value_dataPort, value_dataPort] at hspot
  have hbyte := congrArg (BitVec.setWidth 8) hhalf
  rw [halfWord, halfWord, ConfigSpace.halfWord, ConfigSpace.halfWord, BitVec.setWidth_append_eq_right,
    BitVec.setWidth_append_eq_right] at hbyte
  have hthere : a.spot a.bus.toNat a.slot.toNat a.func.toNat a.offset.toNat = 1 := if_pos ⟨rfl, rfl, rfl, rfl⟩
  rw [hthere] at hbyte
  obtain ⟨bus, slot, func, offset, _, _, _, _, _⟩ := a
  obtain ⟨bus', slot', func', offset', _, _, _, _, _⟩ := a'
  by_cases hsame : bus'.toNat = bus.toNat ∧ slot'.toNat = slot.toNat ∧ func'.toNat = func.toNat ∧ offset'.toNat = offset.toNat
  · obtain ⟨hbus, hslot, hfunc, hoffset⟩ := hsame
    obtain rfl := BitVec.eq_of_toNat_eq hbus
    obtain rfl := BitVec.eq_of_toNat_eq hslot
    obtain rfl := BitVec.eq_of_toNat_eq hfunc
    obtain rfl := BitVec.eq_of_toNat_eq hoffset
    rfl
  · have hzero : (1 : BitVec 8) = 0 := hbyte.trans (if_neg hsame)
    exact absurd hzero (by decide)

end PciArgs

/-! ## The CPUs -/

/-- The next access of a CPU in `pci_config_read()`. -/
inductive PciPc where
  | lock                     -- mutex_lock(&pci_mutex)
  | outport                  -- outportl(CONFIG_ADR, adr)
  | inport                   -- inportl(CONFIG_DATA)
  | unlock (value : BitVec 16) -- mutex_unlock(&pci_mutex)

/-- A CPU: the calls it has still to return from, the first one being executed, and what the others have returned. -/
structure PciCpu where
  pc       : PciPc
  calls    : List PciArgs
  returned : List (BitVec 16)

/-- `pci_mutex` (free or locked), what is in the address port, and the CPUs. -/
structure PciSys (n : Nat) where
  free : Bool
  port : BitVec 32
  cpu  : Fin n → PciCpu

namespace PciSys

variable {n : Nat}

def goto (s : PciSys n) (i : Fin n) (c : PciCpu) : PciSys n := { s with cpu := Function.update s.cpu i c }

@[simp] theorem goto_self (s : PciSys n) (i : Fin n) (c : PciCpu) : (s.goto i c).cpu i = c := by
  simp [goto]

@[simp] theorem goto_ne (s : PciSys n) {i j : Fin n} (h : j ≠ i) (c : PciCpu) : (s.goto i c).cpu j = s.cpu j := by
  simp [goto, h]

/-- One access of CPU `i`. -/
def step (space : ConfigSpace) (s : PciSys n) (i : Fin n) : Option (PciSys n) :=
  match s.cpu i with
  | ⟨_, [], _⟩                  => none
  | ⟨.lock, a :: as, vs⟩        => if s.free then some { s.goto i ⟨.outport, a :: as, vs⟩ with free := false } else some s
  | ⟨.outport, a :: as, vs⟩     => some { s.goto i ⟨.inport, a :: as, vs⟩ with port := a.adr }
  | ⟨.inport, a :: as, vs⟩      => some (s.goto i ⟨.unlock (a.value (space.dataPort s.port)), a :: as, vs⟩)
  | ⟨.unlock value, _ :: as, vs⟩ => some { s.goto i ⟨.lock, as, vs ++ [value]⟩ with free := true }

/-- `MUTEX_INITIALIZER`, whatever the address port holds. -/
def start (port : BitVec 32) (calls : Fin n → List PciArgs) : PciSys n := ⟨true, port, fun i => ⟨.lock, calls i, []⟩⟩

/-- **What a step can do.** -/
inductive Moves (space : ConfigSpace) (s : PciSys n) (i : Fin n) : PciSys n → Prop
  | take {a as vs} (h : s.cpu i = ⟨.lock, a :: as, vs⟩) (hf : s.free = true) :
      Moves space s i { s.goto i ⟨.outport, a :: as, vs⟩ with free := false }
  | spin {a as vs} (h : s.cpu i = ⟨.lock, a :: as, vs⟩) (hf : s.free = false) : Moves space s i s
  | outport {a as vs} (h : s.cpu i = ⟨.outport, a :: as, vs⟩) :
      Moves space s i { s.goto i ⟨.inport, a :: as, vs⟩ with port := a.adr }
  | inport {a as vs} (h : s.cpu i = ⟨.inport, a :: as, vs⟩) :
      Moves space s i (s.goto i ⟨.unlock (a.value (space.dataPort s.port)), a :: as, vs⟩)
  | unlock {a as vs value} (h : s.cpu i = ⟨.unlock value, a :: as, vs⟩) :
      Moves space s i { s.goto i ⟨.lock, as, vs ++ [value]⟩ with free := true }

variable {space : ConfigSpace} {s s' : PciSys n} {i : Fin n}

theorem moves (h : s.step space i = some s') : s.Moves space i s' := by
  unfold step at h
  split at h
  · cases h
  · rename_i hi
    split at h
    · cases h; exact .take hi ‹_›
    · cases h; exact .spin hi (by simpa using ‹¬ s.free = true›)
  · rename_i hi
    cases h; exact .outport hi
  · rename_i hi
    cases h; exact .inport hi
  · rename_i hi
    cases h; exact .unlock hi

/-! ## The registers and the mutex -/

/-- The CPU holds the mutex. -/
def holds (c : PciCpu) : Bool :=
  match c.pc with
  | .lock => false
  | _     => true

/-- **What a CPU has returned and what it is about to return is right**, and it has put its address into the port. -/
def Right (space : ConfigSpace) (port : BitVec 32) (calls : List PciArgs) (c : PciCpu) : Prop :=
  c.returned ++ c.calls.map (·.halfWord space) = calls.map (·.halfWord space) ∧
  match c.pc, c.calls with
  | .inport,       a :: _ => port = a.adr
  | .unlock value, a :: _ => value = a.halfWord space
  | _,             _      => True

/-- **The port belongs to the CPU that holds the mutex.** -/
structure Owned (space : ConfigSpace) (calls : Fin n → List PciArgs) (s : PciSys n) : Prop where
  mutex : count holds s.cpu + s.free.toNat = 1
  right : ∀ i, Right space s.port (calls i) (s.cpu i)

variable {calls : Fin n → List PciArgs}

theorem owned_start (space : ConfigSpace) (port : BitVec 32) (calls : Fin n → List PciArgs) :
    Owned space calls (start port calls) where
  mutex := by
    show count holds (fun i => (⟨.lock, calls i, []⟩ : PciCpu)) + 1 = 1
    rw [count_eq_zero (fun _ => rfl)]
  right := fun _ => ⟨rfl, trivial⟩

/-- Who does not hold the mutex does not mind what is in the port. -/
theorem Right.of_not_holds {port port' : BitVec 32} {as : List PciArgs} {c : PciCpu} (h : Right space port as c)
    (hc : holds c = false) : Right space port' as c := by
  obtain ⟨pc, todo, vs⟩ := c
  cases pc with
  | lock => exact ⟨h.1, trivial⟩
  | _ => cases hc

theorem Owned.others (h : Owned space calls s) (hi : holds (s.cpu i) = true) {j : Fin n} (hj : j ≠ i) :
    holds (s.cpu j) = false := by
  by_contra hother
  have hm := h.mutex
  exact hj (eq_of_count_le_one (by omega) (Bool.eq_true_of_not_eq_false hother) hi)

/-- One CPU moves, and the port changes only if nobody else holds the mutex. -/
theorem Owned.move (h : Owned space calls s) {c : PciCpu} {port : BitVec 32}
    (hport : ∀ j, j ≠ i → port = s.port ∨ holds (s.cpu j) = false) (hc : Right space port (calls i) c) (j : Fin n) :
    Right space port (calls j) ((s.goto i c).cpu j) := by
  by_cases hji : j = i
  · subst hji
    rwa [goto_self]
  · rw [goto_ne s hji]
    rcases hport j hji with rfl | hj
    · exact h.right j
    · exact (h.right j).of_not_holds hj

theorem Owned.step (h : Owned space calls s) (hm : s.Moves space i s') : Owned space calls s' := by
  have hmutex := h.mutex
  have hright := h.right i
  cases hm with
  | spin hi hf => exact h
  | @take a as vs hi hf =>
    have hh : count holds (s.goto i ⟨.outport, a :: as, vs⟩).cpu = count holds s.cpu + 1 :=
      count_update_new rfl (by rw [hi]; rfl)
    rw [hi] at hright
    rw [hf] at hmutex
    exact ⟨hh.trans hmutex, h.move (fun _ _ => .inl rfl) ⟨hright.1, trivial⟩⟩
  | @outport a as vs hi =>
    have hh : count holds (s.goto i ⟨.inport, a :: as, vs⟩).cpu = count holds s.cpu := count_update_same (by rw [hi]; rfl)
    have hholds : holds (s.cpu i) = true := by rw [hi]; rfl
    rw [hi] at hright
    exact ⟨(congrArg (· + s.free.toNat) hh).trans hmutex, h.move (fun _ hj => .inr (h.others hholds hj)) ⟨hright.1, rfl⟩⟩
  | @inport a as vs hi =>
    have hh : count holds (s.goto i ⟨.unlock (a.value (space.dataPort s.port)), a :: as, vs⟩).cpu = count holds s.cpu :=
      count_update_same (by rw [hi]; rfl)
    rw [hi] at hright
    have hvalue : a.value (space.dataPort s.port) = a.halfWord space := by
      rw [hright.2]
      exact a.value_dataPort space
    exact ⟨(congrArg (· + s.free.toNat) hh).trans hmutex, h.move (fun _ _ => .inl rfl) ⟨hright.1, hvalue⟩⟩
  | @unlock a as vs value hi =>
    have hh := count_update holds s.cpu i ⟨.lock, as, vs ++ [value]⟩
    rw [hi] at hh hright
    have hh : count holds (s.goto i ⟨.lock, as, vs ++ [value]⟩).cpu + 1 = count holds s.cpu := hh
    have hvalue : value = a.halfWord space := hright.2
    have hreturned : (vs ++ [value]) ++ as.map (·.halfWord space) = (calls i).map (·.halfWord space) := by
      rw [hvalue, List.append_assoc]
      exact hright.1
    refine ⟨?_, h.move (fun _ _ => .inl rfl) ⟨hreturned, trivial⟩⟩
    show count holds (s.goto i ⟨.lock, as, vs ++ [value]⟩).cpu + 1 = 1
    omega

end PciSys

/-- **Every call returns the half-word at its own arguments**, however the accesses of the CPUs follow each other. -/
theorem pciConfigRead_returns (space : ConfigSpace) {n : Nat} (port : BitVec 32) (calls : Fin n → List PciArgs) {s : PciSys n}
    (h : Reach (PciSys.step space) (.start port calls) s) :
    (∀ i, (s.cpu i).returned <+: (calls i).map (·.halfWord space)) ∧
    Function.Injective fun (a : PciArgs) (space : ConfigSpace) => a.value (space.dataPort a.adr) := by
  have hinv : s.Owned space calls :=
    h.inv (PciSys.owned_start space port calls) (fun _ _ _ hs hstep => hs.step (PciSys.moves hstep))
  exact ⟨fun i => ⟨_, (hinv.right i).1⟩, PciArgs.select_injective⟩

/-- The vendor and the device of the card in slot 3, read by two CPUs. -/
def readCard (i : Fin 2) : List PciArgs :=
  if i.val = 0 then [⟨0, 3, 0, 0, by decide, by decide, by decide, by decide, by decide⟩]
  else [⟨0, 3, 0, 2, by decide, by decide, by decide, by decide, by decide⟩]

def cardSpace : ConfigSpace := fun _ slot _ offset => BitVec.ofNat 8 (16 * slot + offset)

theorem pciConfigRead_returns_card :
    ∃ s, exec (PciSys.step cardSpace) (.start 0 readCard) [0, 1, 0, 0, 1, 0, 1, 1, 1, 1] = some s ∧
    (s.cpu 0).returned = [0x3130] ∧ (s.cpu 1).returned = [0x3332] ∧
    ∀ i, (s.cpu i).returned <+: (readCard i).map (·.halfWord cardSpace) :=
  ⟨_, rfl, rfl, rfl, (pciConfigRead_returns cardSpace 0 readCard ⟨[0, 1, 0, 0, 1, 0, 1, 1, 1, 1], rfl⟩).1⟩

end SmpBoot
