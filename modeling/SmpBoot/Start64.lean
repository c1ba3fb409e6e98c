import SmpBoot.MmRuns
import Mathlib.Logic.Function.Iterate
/-!
# Start64 — the page tables of `start64.asm`

The assembly builds seven tables from frame 1 on before it switches to long mode, and the 64-bit `mm_init` takes them
over.  `paging64_tables` says that the doublewords it writes are the entries that the memory manager starts from, and
`start64_translates` what the processor's walk finds in them once `mm_init` has returned.
-/
namespace SmpBoot

open Resume Resume.Prog

/-- The registers that `start64.asm` uses behind `paging64`, and memory by doublewords: all its stores are aligned. -/
structure PagingCpu where
  eax : Unsigned
  ebx : Unsigned
  ecx : Unsigned
  edi : Unsigned
  cr3 : Unsigned
  mem : Nat → Unsigned

namespace PagingCpu

/-- `mov DWORD [adr], v` -/
def store (c : PagingCpu) (adr v : Unsigned) : PagingCpu := { c with mem := Function.update c.mem (adr.toNat / 4) v }

/-- One round of `rep stosd`. -/
def stosd (c : PagingCpu) : PagingCpu := { c.store c.edi c.eax with edi := c.edi + 4, ecx := c.ecx - 1 }

/-- One round of `.SetEntry`, with the decrement of `loop`. -/
def setEntry (c : PagingCpu) : PagingCpu :=
  { c.store c.edi c.ebx with ebx := c.ebx + 0x1000, edi := c.edi + 8, ecx := c.ecx - 1 }

/-- From `paging64` to the end of `rep stosd`. -/
def clear (c : PagingCpu) : PagingCpu :=
  let c := { c with edi := 0x1000 }
  let c := { c with cr3 := c.edi, eax := 0, ecx := 7 * 1024 }
  stosd^[c.ecx.toNat] c

/-- The directories. -/
def link (c : PagingCpu) : PagingCpu :=
  let c := { c with edi := c.cr3 }
  let c := c.store c.edi 0x2003
  let c := { c with edi := c.edi + 0x1000 }
  let c := c.store c.edi 0x3003
  let c := c.store (c.edi + 3 * 8) 0x4003
  let c := { c with edi := c.edi + 0x1000 }
  let c := c.store c.edi 0x5003
  let c := { c with edi := c.edi + 0x1000 }
  let c := c.store (c.edi + 0x1f6 * 8) 0x6003
  c.store (c.edi + 0x1f7 * 8) 0x7003

/-- The page table of the first 2 MB; `loop` ends with `ecx` 0. -/
def identity (c : PagingCpu) : PagingCpu :=
  let c := { c with edi := c.edi + 0x1000 }
  let c := { c with ebx := 3, ecx := 512 }
  setEntry^[c.ecx.toNat] c

/-- The page tables of the I/O APIC and of the local APIC. -/
def apics (c : PagingCpu) : PagingCpu :=
  let c := { c with edi := 0x6000 }
  let c := { c with ebx := 0xfec00013 }
  let c := c.store c.edi c.ebx
  let c := { c with edi := c.edi + 0x1000 }
  let c := { c with ebx := 0xfee00013 }
  c.store c.edi c.ebx

/-- `paging64:` of `start64.asm`, up to the switch to long mode. -/
def paging64 (c : PagingCpu) : PagingCpu := c.clear.link.identity.apics

/-- The `i`th entry of the table in frame `f`. -/
def entryAt (c : PagingCpu) (f i : Nat) : Entry :=
  .ofWord (c.mem (f * 1024 + 2 * i + 1) ++ c.mem (f * 1024 + 2 * i)).toNat

/-! ## The loops -/

theorem toNat_add_ofNat {a : Unsigned} {n : Nat} (h : a.toNat + n < 2 ^ 32) :
    (a + BitVec.ofNat 32 n).toNat = a.toNat + n := by
  rw [BitVec.toNat_add, BitVec.toNat_ofNat, Nat.mod_eq_of_lt (show n < 2 ^ 32 by omega), Nat.mod_eq_of_lt h]

/-- **`rep stosd`** fills `n` doublewords. -/
theorem iterate_stosd (c : PagingCpu) (lo : Nat) (hlo : c.edi.toNat = 4 * lo) : ∀ n, 4 * (lo + n) < 2 ^ 32 →
    stosd^[n] c = { c with
      edi := c.edi + BitVec.ofNat 32 (4 * n)
      ecx := c.ecx - BitVec.ofNat 32 n
      mem := fun k => if lo ≤ k ∧ k < lo + n then c.eax else c.mem k }
  | 0,     _ => by
    have hmem : (fun k => if lo ≤ k ∧ k < lo + 0 then c.eax else c.mem k) = c.mem := by
      funext k
      exact if_neg (by omega)
    rw [hmem]
    simp
  | n + 1, h => by
    rw [Function.iterate_succ_apply', iterate_stosd c lo hlo n (by omega)]
    have hat : (c.edi + BitVec.ofNat 32 (4 * n)).toNat / 4 = lo + n := by
      rw [toNat_add_ofNat (by omega)]
      omega
    simp only [stosd, store, hat, mk.injEq, true_and]
    refine ⟨by bv_omega, by bv_omega, ?_⟩
    funext k
    by_cases hk : k = lo + n
    · subst hk
      rw [Function.update_self, if_pos (by omega)]
    · rw [Function.update_of_ne hk]
      exact if_congr (by omega) rfl rfl

/-- **`.SetEntry`** writes the lower halves of `n` entries. -/
theorem iterate_setEntry (c : PagingCpu) (lo : Nat) (hlo : c.edi.toNat = 4 * lo) : ∀ n,
    4 * (lo + 2 * n) < 2 ^ 32 →
    setEntry^[n] c = { c with
      ebx := c.ebx + BitVec.ofNat 32 (0x1000 * n)
      edi := c.edi + BitVec.ofNat 32 (8 * n)
      ecx := c.ecx - BitVec.ofNat 32 n
      mem := fun k => if lo ≤ k ∧ k < lo + 2 * n ∧ (k - lo) % 2 = 0 then
        c.ebx + BitVec.ofNat 32 (0x1000 * ((k - lo) / 2)) else c.mem k }
  | 0,     _ => by
    have hmem : (fun k => if lo ≤ k ∧ k < lo + 2 * 0 ∧ (k - lo) % 2 = 0 then
        c.ebx + BitVec.ofNat 32 (0x1000 * ((k - lo) / 2)) else c.mem k) = c.mem := by
      funext k
      exact if_neg (by omega)
    rw [hmem]
    simp
  | n + 1, h => by
    rw [Function.iterate_succ_apply', iterate_setEntry c lo hlo n (by omega)]
    have hat : (c.edi + BitVec.ofNat 32 (8 * n)).toNat / 4 = lo + 2 * n := by
      rw [toNat_add_ofNat (by omega)]
      omega
    simp only [setEntry, store, hat, mk.injEq, true_and]
    refine ⟨by bv_omega, by bv_omega, by bv_omega, ?_⟩
    funext k
    by_cases hk : k = lo + 2 * n
    · subst hk
      rw [Function.update_self, if_pos (by omega), Nat.add_sub_cancel_left, Nat.mul_div_cancel_left n (by decide)]
    · rw [Function.update_of_ne hk]
      exact if_congr (by omega) rfl rfl

/-! ## The tables -/

theorem clear_eq (c : PagingCpu) : c.clear = { c with
    eax := 0
    ecx := 0
    edi := 0x8000
    cr3 := 0x1000
    mem := fun k => if 0x400 ≤ k ∧ k < 0x2000 then 0 else c.mem k } := by
  have hc : c.clear = stosd^[7168] { c with eax := 0, ecx := 7 * 1024, edi := 0x1000, cr3 := 0x1000 } := rfl
  rw [hc, iterate_stosd _ 0x400 rfl 7168 (by decide)]
  simp only [mk.injEq, true_and, and_true]
  exact ⟨by decide, by decide⟩

/-- The directories, the page table of the first 2 MB and those of the APICs, by doublewords; the rest is as it was. -/
def tableWord (c : PagingCpu) (k : Nat) : Unsigned :=
  if k = 0x1c00 then 0xfee00013
  else if k = 0x1800 then 0xfec00013
  else if 0x1400 ≤ k ∧ k < 0x1800 ∧ (k - 0x1400) % 2 = 0 then 3 + BitVec.ofNat 32 (0x1000 * ((k - 0x1400) / 2))
  else if k = 0x13ee then 0x7003
  else if k = 0x13ec then 0x6003
  else if k = 0xc00 then 0x5003
  else if k = 0x806 then 0x4003
  else if k = 0x800 then 0x3003
  else if k = 0x400 then 0x2003
  else if 0x400 ≤ k ∧ k < 0x2000 then 0
  else c.mem k

theorem paging64_mem (c : PagingCpu) : c.paging64.mem = tableWord c ∧ c.paging64.cr3 = 0x1000 := by
  have hlink : ∀ c' : PagingCpu, c'.cr3 = 0x1000 → c'.link = { c' with
      edi := 0x4000
      mem := fun k => if k = 0x13ee then 0x7003 else if k = 0x13ec then 0x6003 else if k = 0xc00 then 0x5003
        else if k = 0x806 then 0x4003 else if k = 0x800 then 0x3003 else if k = 0x400 then 0x2003 else c'.mem k } := by
    intro c' h
    simp only [link, store, h, mk.injEq, true_and]
    refine ⟨by decide, ?_⟩
    funext k
    simp only [Function.update_apply]
    rfl
  have hident : ∀ c' : PagingCpu, c'.edi = 0x4000 → c'.identity = { c' with
      ebx := 3 + BitVec.ofNat 32 (0x1000 * 512)
      edi := 0x6000
      ecx := 0
      mem := fun k => if 0x1400 ≤ k ∧ k < 0x1400 + 2 * 512 ∧ (k - 0x1400) % 2 = 0 then
        3 + BitVec.ofNat 32 (0x1000 * ((k - 0x1400) / 2)) else c'.mem k } := by
    intro c' h
    have hc : c'.identity = setEntry^[512] { c' with edi := 0x5000, ebx := 3, ecx := 512 } := by
      simp only [identity, h]
      rfl
    rw [hc, iterate_setEntry _ 0x1400 rfl 512 (by decide)]
    simp only [mk.injEq, true_and, and_true]
    exact ⟨by decide, by decide⟩
  have happ : ∀ c' : PagingCpu, c'.apics.cr3 = c'.cr3 ∧
      c'.apics.mem = fun k => if k = 0x1c00 then 0xfee00013 else if k = 0x1800 then 0xfec00013 else c'.mem k := by
    intro c'
    refine ⟨rfl, ?_⟩
    funext k
    simp only [apics, store, Function.update_apply]
    rfl
  obtain ⟨hcr, hmem⟩ := happ c.clear.link.identity
  have hcr3 : c.clear.cr3 = 0x1000 := by rw [clear_eq]
  refine ⟨?_, ?_⟩
  · unfold paging64
    rw [hmem, hident _ (by rw [hlink _ hcr3]), hlink _ hcr3, clear_eq]
    funext k
    rfl
  · unfold paging64
    rw [hcr, hident _ (by rw [hlink _ hcr3]), hlink _ hcr3, hcr3]

theorem tableWord_above (c : PagingCpu) {k : Nat} (h : k < 0x400 ∨ 0x2000 ≤ k) : c.tableWord k = c.mem k := by
  unfold tableWord
  repeat rw [if_neg (by omega)]

/-- The upper halves of the entries are 0. -/
theorem tableWord_odd (c : PagingCpu) {k : Nat} (h : 0x400 ≤ k ∧ k < 0x2000) (hodd : k % 2 = 1) :
    c.tableWord k = 0 := by
  unfold tableWord
  repeat rw [if_neg (by omega)]
  exact if_pos h

/-- The entries that are not set. -/
theorem tableWord_zero (c : PagingCpu) {k : Nat} (h : 0x400 ≤ k ∧ k < 0x2000) (hid : ¬(0x1400 ≤ k ∧ k < 0x1800))
    (hset : k ∉ [0x1c00, 0x1800, 0x13ee, 0x13ec, 0xc00, 0x806, 0x800, 0x400]) : c.tableWord k = 0 := by
  simp only [List.mem_cons, List.not_mem_nil, or_false, not_or] at hset
  unfold tableWord
  repeat rw [if_neg (by omega)]
  exact if_pos h

theorem entry_of_halves {lo : Unsigned} {n : Nat} (h : lo.toNat = n) :
    Entry.ofWord ((0 : Unsigned) ++ lo).toNat = .ofWord n := by
  rw [← h, BitVec.toNat_append]
  simp

/-- The entry that the lower half in memory makes. -/
def tableEntry (c : PagingCpu) (f i : Nat) : Entry := .ofWord (c.tableWord (f * 1024 + 2 * i)).toNat

theorem tableEntry_zero (c : PagingCpu) {f i : Nat} (hf : 1 ≤ f ∧ f ≤ 7) (hi : i < 512) (h5 : f ≠ 5)
    (hset : f * 1024 + 2 * i ∉ [0x1c00, 0x1800, 0x13ee, 0x13ec, 0xc00, 0x806, 0x800, 0x400]) :
    c.tableEntry f i = .zero := by
  unfold tableEntry
  rw [c.tableWord_zero (by omega) (by omega) hset]
  rfl

/-- A table whose first entry is set. -/
theorem tableEntry_first (c : PagingCpu) {f i n : Nat} (hf : f ∈ [1, 3, 6, 7]) (hi : i < 512)
    (h0 : c.tableEntry f 0 = .ofWord n) : c.tableEntry f i = if i = 0 then .ofWord n else .zero := by
  simp only [List.mem_cons, List.not_mem_nil, or_false] at hf
  by_cases hi0 : i = 0
  · subst hi0
    exact h0
  · rw [if_neg hi0]
    exact c.tableEntry_zero (by omega) hi (by omega) (by simp; omega)

/-- The page table of the first 2 MB. -/
theorem tableEntry_low (c : PagingCpu) {i : Nat} (hi : i < 512) : c.tableEntry 5 i = .ofWord (0x3 + 0x1000 * i) := by
  have hk : 5 * 1024 + 2 * i - 0x1400 = 2 * i := by omega
  have hw : c.tableWord (5 * 1024 + 2 * i) = 3 + BitVec.ofNat 32 (0x1000 * i) := by
    unfold tableWord
    rw [if_neg (by omega), if_neg (by omega), if_pos (by omega), hk, Nat.mul_div_cancel_left i (by decide)]
  have hn : (3 + BitVec.ofNat 32 (0x1000 * i) : Unsigned).toNat = 0x3 + 0x1000 * i :=
    toNat_add_ofNat (show 3 + 0x1000 * i < 2 ^ 32 by omega)
  rw [tableEntry, hw, hn]

/-- **What the assembly writes is what the memory manager takes over**, whatever was in memory. -/
theorem paging64_tables (c : PagingCpu) : c.paging64.cr3 = 0x1000 ∧
    ∀ f i, i < 512 → c.paging64.entryAt f i = SmpBoot.paging64 c.entryAt f i := by
  obtain ⟨hmem, hcr3⟩ := c.paging64_mem
  refine ⟨hcr3, fun f i hi => ?_⟩
  by_cases hf : 1 ≤ f ∧ f ≤ 7
  · have hodd := c.tableWord_odd (k := f * 1024 + 2 * i + 1) (by omega) (by omega)
    simp only [entryAt, hmem, hodd]
    refine (entry_of_halves (n := (c.tableWord (f * 1024 + 2 * i)).toNat) rfl).trans ?_
    change c.tableEntry f i = _
    obtain rfl | rfl | rfl | rfl | rfl | rfl | rfl : f = 1 ∨ f = 2 ∨ f = 3 ∨ f = 4 ∨ f = 5 ∨ f = 6 ∨ f = 7 := by omega
    · exact c.tableEntry_first (by decide) hi rfl
    · show c.tableEntry 2 i = if i = 0 then .ofWord 0x3003 else if i = 3 then .ofWord 0x4003 else .zero
      by_cases h0 : i = 0
      · subst h0; rfl
      by_cases h3 : i = 3
      · subst h3; rfl
      · rw [if_neg h0, if_neg h3, c.tableEntry_zero hf hi (by omega) (by simp; omega)]
    · exact c.tableEntry_first (by decide) hi rfl
    · show c.tableEntry 4 i = if i = 0x1f6 then .ofWord 0x6003 else if i = 0x1f7 then .ofWord 0x7003 else .zero
      by_cases h6 : i = 0x1f6
      · subst h6; rfl
      by_cases h7 : i = 0x1f7
      · subst h7; rfl
      · rw [if_neg h6, if_neg h7, c.tableEntry_zero hf hi (by omega) (by simp; omega)]
    · exact (c.tableEntry_low hi).trans (if_pos hi).symm
    · exact c.tableEntry_first (by decide) hi rfl
    · exact c.tableEntry_first (by decide) hi rfl
  · have hlo := c.tableWord_above (k := f * 1024 + 2 * i) (by omega)
    have hhi := c.tableWord_above (k := f * 1024 + 2 * i + 1) (by omega)
    simp only [entryAt, hmem, hlo, hhi, SmpBoot.paging64]
    repeat rw [if_neg (by omega)]

end PagingCpu

/-! ## What is mapped when `mm_init` has returned -/

variable {b : Build}

/-- The first 2 MB, the I/O APIC's page and the local APIC's. -/
def IdentityMapped (x : Nat) : Prop := x < 0x200000 ∨ x / pageSize = 0xfec00 ∨ x / pageSize = 0xfee00

instance (x : Nat) : Decidable (IdentityMapped x) := inferInstanceAs (Decidable (_ ∨ _ ∨ _))

theorem levelIndex_b64 (k x : Nat) : levelIndex .b64 k x = x / 4096 / 2 ^ (k * 9) % 512 := by
  rw [levelIndex_eq, Nat.pow_add, ← Nat.div_div_eq_div_mul]
  rfl

theorem translateFrom_absent {s : Mm b} {x k t : Nat} (h : s.mem t (levelIndex b (k + 1) x) = .zero) :
    s.translateFrom x (k + 1) t = none := by
  rw [Mm.translateFrom, h]
  rfl

/-- The walk goes down to the table that an entry refers to. -/
theorem translateFrom_next {s : Mm b} {x k t : Nat} {e : Entry} (h : s.mem t (levelIndex b (k + 1) x) = e)
    (hp : e.p = true) (hps : e.ps = false) : s.translateFrom x (k + 1) t = s.translateFrom x k e.frame := by
  simp only [Mm.translateFrom, h, hp, hps, Bool.true_eq_false, Bool.false_eq_true, if_false]

theorem translateFrom_page {s : Mm b} {x t : Nat} {e : Entry} (h : s.mem t (levelIndex b 0 x) = e) :
    s.translateFrom x 0 t = if e.p = true then some (e.frame * pageSize + x % pageSize) else none := by
  rw [Mm.translateFrom, h]

/-- The page is mapped to itself. -/
theorem translateFrom_same {s : Mm b} {x t : Nat} {e : Entry} (h : s.mem t (levelIndex b 0 x) = e) (hp : e.p = true)
    (hf : e.frame = x / pageSize) : s.translateFrom x 0 t = some x := by
  rw [translateFrom_page h, if_pos hp, hf, Nat.div_add_mod']

section Tables64
variable {mem : Nat → Nat → Entry} {s : Mm .b64} {x : Nat}

/-- A page table with an entry for its first page alone. -/
theorem translateFrom_first {t n : Nat}
    (h : s.mem t (levelIndex .b64 0 x) = if levelIndex .b64 0 x = 0 then .ofWord n else .zero)
    (hp : (Entry.ofWord n).p = true) (hf : levelIndex .b64 0 x = 0 → (Entry.ofWord n).frame = x / pageSize) :
    s.translateFrom x 0 t = if levelIndex .b64 0 x = 0 then some x else none := by
  by_cases h0 : levelIndex .b64 0 x = 0
  · rw [if_pos h0] at h ⊢
    exact translateFrom_same h hp (hf h0)
  · rw [if_neg h0] at h ⊢
    exact translateFrom_page h

/-- The page directory of the first gigabyte refers to the one page table of the first 2 MB. -/
theorem translateFrom_low (hmem : s.mem = paging64 mem) (hx : x / 4096 < 262144) :
    s.translateFrom x 1 3 = if x / 4096 < 512 then some x else none := by
  have h1 := levelIndex_b64 1 x
  have h0 := levelIndex_b64 0 x
  have e3 : s.mem 3 (levelIndex .b64 1 x) = if levelIndex .b64 1 x = 0 then .ofWord 0x5003 else .zero := by
    rw [hmem]; rfl
  by_cases c1 : levelIndex .b64 1 x = 0
  · rw [if_pos c1] at e3
    rw [if_pos (by omega), translateFrom_next e3 rfl rfl]
    have e5 : s.mem 5 (levelIndex .b64 0 x) = .ofWord (0x3 + 0x1000 * levelIndex .b64 0 x) := by
      rw [hmem]
      exact if_pos (show levelIndex .b64 0 x < 512 by omega)
    have hp : (Entry.ofWord (0x3 + 0x1000 * levelIndex .b64 0 x)).p = true := by
      simp only [Entry.ofWord, Nat.testBit_zero, decide_eq_true_eq]
      omega
    have hf : (Entry.ofWord (0x3 + 0x1000 * levelIndex .b64 0 x)).frame = x / 4096 := by
      simp only [Entry.ofWord, Nat.shiftRight_eq_div_pow]
      omega
    exact translateFrom_same e5 hp hf
  · rw [if_neg c1] at e3
    rw [if_neg (by omega), translateFrom_absent e3]

/-- The page directory of the fourth gigabyte refers to the page tables of the two APICs. -/
theorem translateFrom_apics (hmem : s.mem = paging64 mem) (hx : x / 4096 / 262144 = 3) :
    s.translateFrom x 1 4 = if x / 4096 = 0xfec00 ∨ x / 4096 = 0xfee00 then some x else none := by
  have h1 := levelIndex_b64 1 x
  have h0 := levelIndex_b64 0 x
  have hps : pageSize = 4096 := rfl
  have e4 : s.mem 4 (levelIndex .b64 1 x) = if levelIndex .b64 1 x = 0x1f6 then .ofWord 0x6003
      else if levelIndex .b64 1 x = 0x1f7 then .ofWord 0x7003 else .zero := by
    rw [hmem]; rfl
  have e6 : s.mem 6 (levelIndex .b64 0 x) = if levelIndex .b64 0 x = 0 then .ofWord 0xfec00013 else .zero := by
    rw [hmem]; rfl
  have e7 : s.mem 7 (levelIndex .b64 0 x) = if levelIndex .b64 0 x = 0 then .ofWord 0xfee00013 else .zero := by
    rw [hmem]; rfl
  by_cases c1 : levelIndex .b64 1 x = 0x1f6
  · rw [if_pos c1] at e4
    rw [translateFrom_next e4 rfl rfl]
    refine (translateFrom_first e6 rfl fun _ => show 0xfec00 = x / 4096 by omega).trans ?_
    exact if_congr (by omega) rfl rfl
  by_cases c1' : levelIndex .b64 1 x = 0x1f7
  · rw [if_neg c1, if_pos c1'] at e4
    rw [translateFrom_next e4 rfl rfl]
    refine (translateFrom_first e7 rfl fun _ => show 0xfee00 = x / 4096 by omega).trans ?_
    exact if_congr (by omega) rfl rfl
  · rw [if_neg c1, if_neg c1'] at e4
    rw [if_neg (by omega), translateFrom_absent e4]

theorem translate64 (hmem : s.mem = paging64 mem) (hpd1 : s.pd1 = 1) (hx : x < 2 ^ 48) :
    s.translate x = if IdentityMapped x then some x else none := by
  have h3 := levelIndex_b64 3 x
  have h2 := levelIndex_b64 2 x
  have hd : Build.b64.depth = 3 := rfl
  change _ = if x < 0x200000 ∨ x / 4096 = 0xfec00 ∨ x / 4096 = 0xfee00 then some x else none
  unfold Mm.translate
  rw [hd, hpd1]
  -- PML4T
  have e1 : s.mem 1 (levelIndex .b64 3 x) = if levelIndex .b64 3 x = 0 then .ofWord 0x2003 else .zero := by
    rw [hmem]; rfl
  by_cases c3 : levelIndex .b64 3 x = 0
  case neg =>
    rw [if_neg c3] at e1
    rw [translateFrom_absent e1, if_neg (by omega)]
  rw [if_pos c3] at e1
  refine (translateFrom_next e1 rfl rfl).trans ?_
  -- PDPT
  have e2 : s.mem 2 (levelIndex .b64 2 x) = if levelIndex .b64 2 x = 0 then .ofWord 0x3003
      else if levelIndex .b64 2 x = 3 then .ofWord 0x4003 else .zero := by
    rw [hmem]; rfl
  by_cases c2 : levelIndex .b64 2 x = 0
  · rw [if_pos c2] at e2
    refine (translateFrom_next e2 rfl rfl).trans ((translateFrom_low hmem (by omega)).trans ?_)
    exact if_congr (by omega) rfl rfl
  by_cases c2' : levelIndex .b64 2 x = 3
  · rw [if_neg c2, if_pos c2'] at e2
    refine (translateFrom_next e2 rfl rfl).trans ((translateFrom_apics hmem (by omega)).trans ?_)
    exact if_congr (by omega) rfl rfl
  · rw [if_neg c2, if_neg c2'] at e2
    exact (translateFrom_absent e2).trans (if_neg (by omega)).symm

end Tables64

/-- **What the 64-bit build starts with**, whatever was in memory and whatever the memory map: when `mm_init` has
returned, the tables are those that the assembly wrote, and the address space is the identity on the first 2 MB and on
the APICs' pages, and nothing else. -/
theorem start64_translates (c : PagingCpu) (freemap : Nat → BitVec Build.b64.longBits) (fuel : Nat)
    (mbi : MultibootInfo) : Ends (· = .fuel) (mmInit fuel mbi) (Mm.boot .b64 c.entryAt freemap)
      (fun s' _ => s'.pd1 = c.paging64.cr3.toNat / pageSize ∧
        (∀ f i, i < 512 → s'.mem f i = c.paging64.entryAt f i) ∧
        ∀ x < 2 ^ 48, s'.translate x = if IdentityMapped x then some x else none) := by
  have hinit : Ends (· = .fuel) (initTables .b64) (Mm.boot .b64 c.entryAt freemap)
      (fun s' _ => s'.mem = paging64 c.entryAt ∧ s'.pd1 = 1) := Ends.put ⟨rfl, rfl⟩
  refine Ends.mono (mmInit_after fuel mbi (E := (· = .fuel)) (fun _ => rfl) hinit) ?_
  rintro s' _ ⟨s₁, ⟨hmem, hpd1⟩, freemap', rfl⟩
  obtain ⟨hcr3, hent⟩ := c.paging64_tables
  refine ⟨by rw [hcr3]; exact hpd1, fun f i hi => ?_, fun x hx => translate64 hmem hpd1 hx⟩
  rw [hent f i hi]
  exact congrFun (congrFun hmem f) i

end SmpBoot
