import SmpBoot.FreeFrames
import SmpBoot.Lib.Walk
/-!
# MemoryMap — what `mm_init` makes of the multiboot memory map

The entries form a chain: each says how far behind it the next one lies.  `mmInit_returns_iff` says for which maps the two
loops end.
-/
namespace SmpBoot

open Resume Resume.Prog

variable {b : Build} {s s' s'' : Mm b}

/-! ## The chain of entries -/

def mmapEnd (mbi : MultibootInfo) : Nat := (mbi.mmapAddr + mbi.mmapLength).toNat

/-- `p = ((void*)p + p->size + 4)`. -/
def nextEntry (b : Build) (mbi : MultibootInfo) (p : Nat) : Nat := (p + (mbi.mmap p).size.toNat + 4) % 2 ^ b.longBits

/-- The address of the `k`-th entry. -/
def entryAt (b : Build) (mbi : MultibootInfo) (k : Nat) : Nat := (nextEntry b mbi)^[k] mbi.mmapAddr.toNat

/-- The chain from `p` is still below the end at its `k`-th entry. -/
def ChainFrom (b : Build) (mbi : MultibootInfo) (p k : Nat) : Prop := ∀ j ≤ k, (nextEntry b mbi)^[j] p < mmapEnd mbi

/-- The loop visits the `k`-th entry. -/
abbrev Visits (b : Build) (mbi : MultibootInfo) (k : Nat) : Prop := ChainFrom b mbi mbi.mmapAddr.toNat k

/-- **A walk leaves the numbers below a bound if and only if it never comes back to one of them.** -/
theorem exists_ge_iff {f : Nat → Nat} {p last : Nat} :
    (∃ n, last ≤ f^[n] p) ↔ ∀ i j, i < j → (∀ k ≤ j, f^[k] p < last) → f^[i] p ≠ f^[j] p := by
  have hfin : Finite {n : Nat // n < last} :=
    Finite.of_injective (fun n => (⟨n.1, n.2⟩ : Fin last)) (fun a b h => Subtype.ext (congrArg Fin.val h))
  rw [← Walk.leaves_iff (P := (· < last))]
  exact exists_congr fun n => Nat.not_lt.symm

theorem ChainFrom.zero {mbi : MultibootInfo} {p k : Nat} (h : ChainFrom b mbi p k) : p < mmapEnd mbi := h 0 (Nat.zero_le k)

theorem chainFrom_succ {mbi : MultibootInfo} {p k : Nat} :
    ChainFrom b mbi p (k + 1) ↔ p < mmapEnd mbi ∧ ChainFrom b mbi (nextEntry b mbi p) k := by
  constructor
  · intro h
    exact ⟨h.zero, fun j hj => h (j + 1) (by omega)⟩
  · rintro ⟨h0, h⟩ j hj
    cases j with
    | zero => exact h0
    | succ j => exact h j (by omega)

/-- In the 64-bit build the chain goes up: it cannot wrap. -/
theorem nextEntry64 {mbi : MultibootInfo} {p : Nat} (h : p < mmapEnd mbi) : p < nextEntry .b64 mbi p := by
  have h1 := (mbi.mmap p).size.isLt
  have h2 := (mbi.mmapAddr + mbi.mmapLength).isLt
  unfold mmapEnd at h
  unfold nextEntry
  rw [Nat.mod_eq_of_lt (by simp only [Build.longBits]; omega)]
  omega

theorem chain64_lt {mbi : MultibootInfo} {p : Nat} : ∀ {i j : Nat}, i < j → ChainFrom .b64 mbi p j →
    (nextEntry .b64 mbi)^[i] p < (nextEntry .b64 mbi)^[j] p
  | i, j + 1, hij, h => by
    have hstep : (nextEntry .b64 mbi)^[j] p < (nextEntry .b64 mbi)^[j + 1] p := by
      rw [Function.iterate_succ_apply']
      exact nextEntry64 (h j (by omega))
    by_cases hi : i = j
    · rw [hi]; exact hstep
    · exact Nat.lt_trans (chain64_lt (by omega) (fun k hk => h k (by omega))) hstep

/-! ## The two loops end -/

/-- The loop over the frames of an entry ends: its 32-bit counter can reach the bound. -/
def MmapEntry.Ends (e : MmapEntry) : Prop := e.type = 1 → (e.addr + e.len).toNat < 2 ^ 44

theorem shift_lt_iff (e : MmapEntry) : ((e.addr + e.len) >>> pageBits).toNat < 2 ^ 32 ↔ (e.addr + e.len).toNat < 2 ^ 44 := by
  rw [BitVec.toNat_ushiftRight, Nat.shiftRight_eq_div_pow, Nat.div_lt_iff_lt_mul (Nat.two_pow_pos _)]
  rfl

theorem run_registerFrame (u count : Nat) (s : Mm b) : ∃ s' n, (registerFrame u count).run s = (s', .ok n) := by
  obtain ⟨s', n, h, -⟩ := (registerFrame_ends (E := fun _ => False) (s := s) u count).returns
  exact ⟨s', n, h⟩

theorem registerEntry_returns {last : BitVec 64} (hl : last.toNat < 2 ^ 32) : ∀ (fuel : Nat) (u : BitVec 32) (count : Nat)
    (s : Mm b), last.toNat - u.toNat < fuel → ∃ s' n, (registerEntry last fuel u count).run s = (s', .ok n)
  | 0, _, _, _, h => absurd h (Nat.not_lt_zero _)
  | fuel + 1, u, count, s, h => by
    rw [registerEntry]
    split
    · rename_i hlt
      obtain ⟨s₁, n₁, h₁⟩ := run_registerFrame u.toNat count s
      have hu : (u + 1).toNat = u.toNat + 1 := by
        rw [BitVec.toNat_add]
        exact Nat.mod_eq_of_lt (show u.toNat + 1 < 2 ^ 32 by omega)
      rw [run_bind_ok h₁]
      exact registerEntry_returns hl fuel (u + 1) n₁ s₁ (by omega)
    · exact ⟨s, count, rfl⟩

/-- A bound no 32-bit number reaches. -/
theorem registerEntry_endless {last : BitVec 64} (hl : 2 ^ 32 ≤ last.toNat) : ∀ (fuel : Nat) (u : BitVec 32) (count : Nat)
    (s s' : Mm b) (n : Nat), (registerEntry last fuel u count).run s ≠ (s', .ok n)
  | 0, _, _, _, _, _ => by simp [registerEntry]
  | fuel + 1, u, count, s, s', n => by
    have hu := u.isLt
    obtain ⟨s₁, n₁, h₁⟩ := run_registerFrame u.toNat count s
    rw [registerEntry, if_pos (by omega), run_bind_ok h₁]
    exact registerEntry_endless hl fuel (u + 1) n₁ s₁ s' n

/-- The work of `mm_init` on one entry. -/
def registerOne (fuel : Nat) (e : MmapEntry) (count : Nat) : MmProg b Nat :=
  if e.type = 1 then registerEntry ((e.addr + e.len) >>> pageBits) fuel ((e.addr >>> pageBits).setWidth 32) count
  else pure count

theorem registerMap_succ (fuel : Nat) (mbi : MultibootInfo) (n p count : Nat) :
    registerMap (b := b) fuel mbi (n + 1) p count = if p < mmapEnd mbi then
      registerOne fuel (mbi.mmap p) count >>= registerMap fuel mbi n (nextEntry b mbi p) else pure count := rfl

theorem registerOne_returns {e : MmapEntry} (he : e.Ends) {fuel : Nat} (hf : 2 ^ 32 ≤ fuel) (count : Nat) (s : Mm b) :
    ∃ s' n, (registerOne fuel e count).run s = (s', .ok n) := by
  unfold registerOne
  split
  · rename_i ht
    have hl := (shift_lt_iff e).2 (he ht)
    exact registerEntry_returns hl fuel _ count s (by omega)
  · exact ⟨s, count, rfl⟩

theorem registerOne_ends {e : MmapEntry} {fuel count n : Nat} {s s' : Mm b}
    (h : (registerOne fuel e count).run s = (s', .ok n)) : e.Ends := by
  intro ht
  by_contra hl
  rw [registerOne, if_pos ht] at h
  have hl' : 2 ^ 32 ≤ ((e.addr + e.len) >>> pageBits).toNat := by
    have := mt (shift_lt_iff e).1 hl
    omega
  exact registerEntry_endless hl' _ _ _ _ _ _ h

/-- The loop over the entries ends, if the chain does and the loop of each entry. -/
theorem registerMap_returns {mbi : MultibootInfo} {fuel : Nat} (hf : 2 ^ 32 ≤ fuel) : ∀ (k n p count : Nat) (s : Mm b),
    k < n → mmapEnd mbi ≤ (nextEntry b mbi)^[k] p →
    (∀ k, ChainFrom b mbi p k → (mbi.mmap ((nextEntry b mbi)^[k] p)).Ends) →
    ∃ s' m, (registerMap fuel mbi n p count).run s = (s', .ok m)
  | _, 0,     _, _,     _, hkn, _, _ => absurd hkn (Nat.not_lt_zero _)
  | k, n + 1, p, count, s, hkn, hk, he => by
    rw [registerMap_succ]
    split
    · rename_i hlt
      cases k with
      | zero => exact absurd hlt (Nat.not_lt.2 hk)
      | succ k =>
        have hfirst : ChainFrom b mbi p 0 := fun j hj => by
          rw [Nat.le_zero.1 hj]
          exact hlt
        obtain ⟨s₁, n₁, h₁⟩ := registerOne_returns (e := mbi.mmap p) (he 0 hfirst) hf count s
        rw [run_bind_ok h₁]
        exact registerMap_returns hf k n _ n₁ s₁ (by omega) hk (fun k hk => he (k + 1) (chainFrom_succ.2 ⟨hlt, hk⟩))
    · exact ⟨s, count, rfl⟩

/-- If it ends, the chain ended, and so did the loop of each entry. -/
theorem registerMap_ok {mbi : MultibootInfo} {fuel : Nat} : ∀ {n p count m : Nat} {s s' : Mm b},
    (registerMap fuel mbi n p count).run s = (s', .ok m) →
    (∃ k, mmapEnd mbi ≤ (nextEntry b mbi)^[k] p) ∧ ∀ k, ChainFrom b mbi p k → (mbi.mmap ((nextEntry b mbi)^[k] p)).Ends
  | 0, _, _, _, _, _, h => by cases h
  | n + 1, p, count, m, s, s', h => by
    rw [registerMap_succ] at h
    split at h
    · rename_i hlt
      obtain ⟨s₁, n₁, h₁, h₂⟩ := run_bind_inv h
      obtain ⟨⟨k, hk⟩, he⟩ := registerMap_ok h₂
      refine ⟨⟨k + 1, hk⟩, fun j hj => ?_⟩
      cases j with
      | zero => exact registerOne_ends h₁
      | succ j => exact he j (chainFrom_succ.1 hj).2
    · rename_i hge
      exact ⟨⟨0, Nat.not_lt.1 hge⟩, fun k hk => absurd hk.zero hge⟩

/-- `mm_init` up to the memory map. -/
def beforeMap (b : Build) (mbi : MultibootInfo) : MmProg b Nat := do
  initTables b
  Prog.forN (fun i => .put (·.setWord i 0)) (maxFrames / b.longBits)
  if isBitSet mbi.flags 0 then registerUpper (upperLimit mbi - 0x400) 0x400 0 else pure 0

theorem mmInit_eq (fuel : Nat) (mbi : MultibootInfo) : mmInit (b := b) fuel mbi = beforeMap b mbi >>= fun count =>
    if isBitSet mbi.flags 6 then registerMap fuel mbi fuel mbi.mmapAddr.toNat count else pure count := by
  unfold mmInit beforeMap
  rw [bind_assoc]
  congr 1
  funext _
  rw [bind_assoc]

/-- Nothing before the memory map can keep `mm_init` from going on. -/
theorem run_beforeMap (mbi : MultibootInfo) (mem : Nat → Nat → Entry) (freemap : Nat → BitVec b.longBits) :
    ∃ s n, (beforeMap b mbi).run (Mm.boot b mem freemap) = (s, .ok n) := by
  have h : Ends (fun _ => False) (beforeMap b mbi) (Mm.boot b mem freemap) (fun _ _ => True) := by
    refine Ends.bind (initTables_booted mem freemap) (fun s₁ _ _ => ?_)
    refine Ends.bind (Ends.forN (fun _ _ => True) trivial (fun _ _ _ _ => Ends.put trivial)) (fun s₂ _ _ => ?_)
    split
    · exact (registerUpper_ends _ _ _ s₂).mono (fun _ _ _ => trivial)
    · exact Ends.pure trivial
  obtain ⟨s, n, hr, -⟩ := h.returns
  exact ⟨s, n, hr⟩

/-- What `mm_init` needs of the memory map to return. -/
structure MapEnds (b : Build) (mbi : MultibootInfo) : Prop where
  /-- No entry that is visited and is memory reaches beyond 2^44. -/
  entries : ∀ k, Visits b mbi k → (mbi.mmap (entryAt b mbi k)).type = 1 →
    ((mbi.mmap (entryAt b mbi k)).addr + (mbi.mmap (entryAt b mbi k)).len).toNat < 2 ^ 44
  /-- In the 32-bit build the chain does not come back to an entry. -/
  chain   : b = .b64 ∨ ∀ i j, i < j → Visits b mbi j → entryAt b mbi i ≠ entryAt b mbi j

theorem MapEnds.of_ok {mbi : MultibootInfo} {fuel n : Nat} (h : (mmInit fuel mbi).run s = (s', .ok n))
    (h6 : isBitSet mbi.flags 6 = true) : MapEnds b mbi := by
  rw [mmInit_eq] at h
  obtain ⟨s₁, n₁, -, h₁⟩ := run_bind_inv h
  rw [if_pos h6] at h₁
  obtain ⟨hk, he⟩ := registerMap_ok h₁
  exact ⟨he, .inr (exists_ge_iff.1 hk)⟩

theorem MapEnds.exists_end {mbi : MultibootInfo} (h : MapEnds b mbi) : ∃ k, mmapEnd mbi ≤ entryAt b mbi k := by
  rcases h.chain with rfl | h
  · exact exists_ge_iff.2 (fun _ _ hij hk => Nat.ne_of_lt (chain64_lt hij hk))
  · exact exists_ge_iff.2 h

theorem MapEnds.returns {mbi : MultibootInfo} (h : isBitSet mbi.flags 6 = true → MapEnds b mbi)
    (mem : Nat → Nat → Entry) (freemap : Nat → BitVec b.longBits) :
    ∃ fuel s n, (mmInit fuel mbi).run (Mm.boot b mem freemap) = (s, .ok n) := by
  obtain ⟨s₁, n₁, h₁⟩ := run_beforeMap mbi mem freemap
  cases h6 : isBitSet mbi.flags 6 with
  | false =>
    refine ⟨0, s₁, n₁, ?_⟩
    rw [mmInit_eq, run_bind_ok h₁, h6]
    rfl
  | true =>
    have hm := h h6
    obtain ⟨k, hk⟩ := hm.exists_end
    -- one number bounds the passes of both loops: 2^32 for an entry, `k + 1` for the chain
    have hf : 2 ^ 32 ≤ 2 ^ 32 + k + 1 := by omega
    obtain ⟨s₂, n₂, h₂⟩ := registerMap_returns hf k (2 ^ 32 + k + 1) mbi.mmapAddr.toNat n₁ s₁ (by omega) hk hm.entries
    refine ⟨2 ^ 32 + k + 1, s₂, n₂, ?_⟩
    rw [mmInit_eq, run_bind_ok h₁, h6]
    exact h₂

/-- **`mm_init` returns, in either build, if and only if** no memory entry it visits reaches beyond 2^44 and, in the 32-bit
build, the chain of entries does not come back to an entry. -/
theorem mmInit_returns_iff (b : Build) (mbi : MultibootInfo) (mem : Nat → Nat → Entry)
    (freemap : Nat → BitVec b.longBits) :
    (∃ fuel s n, (mmInit fuel mbi).run (Mm.boot b mem freemap) = (s, .ok n)) ↔
      (isBitSet mbi.flags 6 = true → MapEnds b mbi) :=
  ⟨fun ⟨_, _, _, h⟩ h6 => MapEnds.of_ok h h6, fun h => MapEnds.returns h mem freemap⟩

/-- A memory map of one entry, at every address. -/
def oneEntry (size : BitVec 32) (len : BitVec 64) (type : BitVec 32) : MultibootInfo where
  flags      := 0x40
  memUpper   := 0
  mmapLength := 24
  mmapAddr   := 0x8000
  mmap       := fun _ => ⟨size, 0, len, type⟩

/-- In the 32-bit build the second entry is the first; in the 64-bit build the counter cannot reach the end of 16 TB. -/
theorem mmInit_endless :
    ¬ (∃ fuel s n, (mmInit fuel (oneEntry 0xfffffffc 0x1000 2)).run (Mm.boot .b32 (fun _ _ => .zero) (fun _ => 0)) =
      (s, .ok n)) ∧
    ¬ (∃ fuel s n, (mmInit fuel (oneEntry 20 0x100000000000 1)).run (Mm.boot .b64 (fun _ _ => .zero) (fun _ => 0)) =
      (s, .ok n)) := by
  constructor
  · rintro ⟨fuel, s, n, h⟩
    have hm := MapEnds.of_ok h (by decide)
    rcases hm.chain with h64 | hc
    · cases h64
    · refine hc 0 1 (by omega) (fun k hk => ?_) (by decide)
      rcases Nat.le_one_iff_eq_zero_or_eq_one.1 hk with rfl | rfl <;> decide
  · rintro ⟨fuel, s, n, h⟩
    have hm := MapEnds.of_ok h (by decide)
    have h0 : Visits .b64 (oneEntry 20 0x100000000000 1) 0 := fun k hk => by
      rw [Nat.le_zero.1 hk]
      decide
    exact absurd (hm.entries 0 h0 rfl) (by decide)

end SmpBoot
