import SmpBoot.MemoryMap
/-!
# Registered — the frames `mm_init` registers in the 32-bit build

There frames do not share bits.  `Registers` says which frames a part of `mm_init` adds to the freemap and that it counts
them.  An entry adds the frames from the one it starts in to the last it reaches the end of; the first of these may lie
partly in front of the entry (`RoundedDown`), and `mmInit_registers_iff` says when that does no harm.
-/
namespace SmpBoot

open Resume Resume.Prog

variable {s s' s'' : Mm .b32} {E : Stop → Prop}

/-- The number of set bits. -/
def numSet (m : Words .b32) : Nat := ((Finset.range maxFrames).filter (fun f => m.test f = true)).card

theorem test_setBit32 (m : Words .b32) (f g : Nat) : (m.setBit f).test g = true ↔ m.test g = true ∨ g = f := by
  rw [Words.test_setBit, Bool.or_eq_true, decide_eq_true_eq, shares32]
  tauto

theorem numSet_setBit {m : Words .b32} {f : Nat} (hf : f < maxFrames) (h : m.test f = false) :
    numSet (m.setBit f) = numSet m + 1 := by
  have hins : (Finset.range maxFrames).filter (fun g => (m.setBit f).test g = true) =
      insert f ((Finset.range maxFrames).filter (fun g => m.test g = true)) := by
    ext g
    simp only [Finset.mem_filter, Finset.mem_range, Finset.mem_insert, test_setBit32]
    constructor
    · rintro ⟨h1, h2 | h2⟩
      · exact .inr ⟨h1, h2⟩
      · exact .inl h2
    · rintro (rfl | ⟨h1, h2⟩)
      · exact ⟨hf, .inr rfl⟩
      · exact ⟨h1, .inl h2⟩
  unfold numSet
  rw [hins, Finset.card_insert_of_notMem (by simp [h])]

/-- Some part of `mm_init` added the frames of `P` to the freemap, and counted those that were new. -/
structure Registers (P : Nat → Prop) (s : Mm .b32) (count : Nat) (s' : Mm .b32) (count' : Nat) : Prop where
  only  : FreemapOnly s s'
  test  : ∀ g, Words.test s'.freemap g = true ↔ Words.test s.freemap g = true ∨ P g
  count : count = numSet s.freemap → count' = numSet s'.freemap

section Registers
variable {P Q : Nat → Prop} {count count' count'' : Nat}

theorem Registers.none (s : Mm .b32) (count : Nat) (h : ∀ g, ¬ P g) : Registers P s count s count where
  only  := ⟨s.freemap, rfl⟩
  test  := fun g => by simp [h g]
  count := id

theorem Registers.trans (h : Registers P s count s' count') (h' : Registers Q s' count' s'' count'') :
    Registers (fun g => P g ∨ Q g) s count s'' count'' where
  only  := h.only.trans h'.only
  test  := fun g => by rw [h'.test, h.test, or_assoc]
  count := fun hc => h'.count (h.count hc)

theorem Registers.congr (h : Registers P s count s' count') (hPQ : ∀ g, P g ↔ Q g) : Registers Q s count s' count' where
  only  := h.only
  test  := fun g => by rw [h.test, hPQ]
  count := h.count

end Registers

theorem run_setFree (u : Nat) (s : Mm .b32) :
    (setFree u).run s = ({ s with freemap := Words.setBit s.freemap u }, .ok ()) := rfl

theorem registers_setFree {u : Nat} (count : Nat) (hu : u < maxFrames) (h : Words.test s.freemap u = false) :
    Registers (· = u) s count { s with freemap := Words.setBit s.freemap u } (count + 1) where
  only  := ⟨_, rfl⟩
  test  := fun g => test_setBit32 s.freemap u g
  count := fun hc => by rw [numSet_setBit hu h, hc]

/-- `mem_upper`: all its frames are new. -/
theorem registerUpper_registers : ∀ (n u count : Nat) (s : Mm .b32), u + n ≤ maxFrames →
    (∀ g, u ≤ g → g < maxFrames → Words.test s.freemap g = false) →
    Ends E (registerUpper n u count) s (Registers (fun g => u ≤ g ∧ g < u + n) s count)
  | 0, u, count, s, _, _ => Ends.pure (Registers.none s count (fun g hg => by omega))
  | n + 1, u, count, s, hu, h => by
    refine Ends.bind_of_run (run_setFree u s) ?_
    have hstep := registers_setFree count (show u < maxFrames by omega) (h u (Nat.le_refl u) (by omega))
    refine (registerUpper_registers n (u + 1) (count + 1) _ (by omega) (fun g h1 h2 => ?_)).mono (fun s' c h' => ?_)
    · have hg := h g (by omega) h2
      rw [← Bool.not_eq_true] at hg ⊢
      rw [hstep.test]
      rintro (h3 | h3)
      · exact hg h3
      · omega
    · exact (hstep.trans h').congr (fun g => by omega)

theorem registerFrame_registers (u count : Nat) (s : Mm .b32) : Ends E (registerFrame u count) s
    (Registers (fun g => g = u ∧ 0x400 ≤ g ∧ g < maxFrames) s count) := by
  have hmax : maxMem >>> pageBits = maxFrames := rfl
  unfold registerFrame
  split
  · rename_i hu
    rw [hmax] at hu
    refine Ends.bind_of_run (run_get _ s) ?_
    change Ends E (if s.taken u = true then _ else _) s _
    split
    · rename_i ht
      refine Ends.bind_of_run (run_setFree u s) (Ends.pure ?_)
      have hstep := registers_setFree count hu.2 (by simpa [taken_eq] using ht)
      exact hstep.congr (fun g => by omega)
    · rename_i ht
      refine Ends.pure ⟨⟨s.freemap, rfl⟩, fun g => ?_, id⟩
      have hset : Words.test s.freemap u = true := by simpa [taken_eq] using ht
      refine ⟨.inl, ?_⟩
      rintro (h | ⟨rfl, -⟩)
      · exact h
      · exact hset
  · rename_i hu
    rw [hmax] at hu
    exact Ends.pure (Registers.none s count (fun g hg => by omega))

theorem registerEntry_registers (hE : E .fuel) {last : BitVec 64} (hl : last.toNat < 2 ^ 32) :
    ∀ (fuel : Nat) (u : BitVec 32) (count : Nat) (s : Mm .b32), Ends E (registerEntry last fuel u count) s
      (Registers (fun g => u.toNat ≤ g ∧ g < last.toNat ∧ 0x400 ≤ g ∧ g < maxFrames) s count)
  | 0, _, _, _ => Ends.stop hE
  | fuel + 1, u, count, s => by
    rw [registerEntry]
    split
    · rename_i hlt
      have hu : (u + 1).toNat = u.toNat + 1 := by
        rw [BitVec.toNat_add]
        exact Nat.mod_eq_of_lt (show u.toNat + 1 < 2 ^ 32 by omega)
      refine Ends.bind (registerFrame_registers u.toNat count s) (fun s₁ c₁ h₁ => ?_)
      refine (registerEntry_registers hE hl fuel (u + 1) c₁ s₁).mono (fun s' c h => ?_)
      exact (h₁.trans h).congr (fun g => by omega)
    · exact Ends.pure (Registers.none s count (fun g hg => by omega))

/-! ## The entries -/

namespace MmapEntry

/-- All bytes of the frame lie inside the entry, and the entry is memory. -/
def Holds (e : MmapEntry) (f : Nat) : Prop :=
  e.type = 1 ∧ ∀ x, x / pageSize = f → e.addr.toNat ≤ x ∧ x < e.addr.toNat + e.len.toNat

/-- The frames the loop over the entry runs through. -/
def Spans (e : MmapEntry) (f : Nat) : Prop :=
  e.type = 1 ∧ e.addr.toNat / pageSize ≤ f ∧ f < (e.addr.toNat + e.len.toNat) / pageSize

/-- The first of them, if the entry starts in the middle of it. -/
def RoundedDown (e : MmapEntry) (f : Nat) : Prop :=
  e.type = 1 ∧ f = e.addr.toNat / pageSize ∧ e.addr.toNat % pageSize ≠ 0 ∧ f < (e.addr.toNat + e.len.toNat) / pageSize

theorem holds_iff {e : MmapEntry} {f : Nat} : e.Holds f ↔
    e.type = 1 ∧ e.addr.toNat ≤ f * 4096 ∧ f * 4096 + 4096 ≤ e.addr.toNat + e.len.toNat := by
  have hps : pageSize = 4096 := rfl
  unfold Holds
  rw [hps]
  constructor
  · rintro ⟨ht, h⟩
    have h1 := h (f * 4096) (by omega)
    have h2 := h (f * 4096 + 4095) (by omega)
    exact ⟨ht, h1.1, by omega⟩
  · rintro ⟨ht, h1, h2⟩
    exact ⟨ht, fun x hx => by omega⟩

/-- **The end of an entry is rounded as it should be, its start is not.** -/
theorem spans_iff {e : MmapEntry} {f : Nat} : e.Spans f ↔ e.Holds f ∨ e.RoundedDown f := by
  have hps : pageSize = 4096 := rfl
  rw [holds_iff]
  unfold Spans RoundedDown
  rw [hps]
  constructor
  · rintro ⟨ht, h1, h2⟩
    by_cases hs : e.addr.toNat ≤ f * 4096
    · exact .inl ⟨ht, hs, by omega⟩
    · exact .inr ⟨ht, by omega, by omega, h2⟩
  · rintro (⟨ht, h1, h2⟩ | ⟨ht, h1, -, h2⟩)
    · exact ⟨ht, by omega, by omega⟩
    · exact ⟨ht, Nat.le_of_eq h1.symm, h2⟩

end MmapEntry

/-- The entries lie one behind the other, from `p` to the end. -/
def Laid (mbi : MultibootInfo) : Nat → List MmapEntry → Prop
  | p, []      => p = mbi.mmapAddr.toNat + mbi.mmapLength.toNat
  | p, e :: es => mbi.mmap p = e ∧ Laid mbi (p + e.size.toNat + 4) es

/-- The memory map is the list `es`: it ends below 4 GB, and every entry below 2^44. -/
structure MapList (mbi : MultibootInfo) (es : List MmapEntry) : Prop where
  laid  : Laid mbi mbi.mmapAddr.toNat es
  fits  : mbi.mmapAddr.toNat + mbi.mmapLength.toNat < 2 ^ 32
  bound : ∀ e ∈ es, e.addr.toNat + e.len.toNat < 2 ^ 44

section Laid
variable {mbi : MultibootInfo}

theorem Laid.le : ∀ {p : Nat} {es : List MmapEntry}, Laid mbi p es → p ≤ mbi.mmapAddr.toNat + mbi.mmapLength.toNat
  | _, [],     h => Nat.le_of_eq h
  | _, _ :: _, h => by
    have := h.2.le
    omega

theorem mmapEnd_eq (h : mbi.mmapAddr.toNat + mbi.mmapLength.toNat < 2 ^ 32) :
    mmapEnd mbi = mbi.mmapAddr.toNat + mbi.mmapLength.toNat := by
  unfold mmapEnd
  rw [BitVec.toNat_add, Nat.mod_eq_of_lt h]

theorem Laid.next (hf : mbi.mmapAddr.toNat + mbi.mmapLength.toNat < 2 ^ 32) {p : Nat} {e : MmapEntry}
    {es : List MmapEntry} (h : Laid mbi p (e :: es)) : p < mmapEnd mbi ∧ nextEntry .b32 mbi p = p + e.size.toNat + 4 := by
  have hle := h.2.le
  unfold nextEntry
  rw [mmapEnd_eq hf, h.1, Nat.mod_eq_of_lt (by simp only [Build.longBits]; omega)]
  omega

/-- What the loop visits are the entries of the list. -/
theorem Laid.visits (hf : mbi.mmapAddr.toNat + mbi.mmapLength.toNat < 2 ^ 32) : ∀ {p : Nat} {es : List MmapEntry},
    Laid mbi p es → mmapEnd mbi ≤ (nextEntry .b32 mbi)^[es.length] p ∧
      ∀ k, ChainFrom .b32 mbi p k → mbi.mmap ((nextEntry .b32 mbi)^[k] p) ∈ es
  | p, [], h => by
    have hp : mmapEnd mbi ≤ p := by rw [mmapEnd_eq hf]; exact Nat.le_of_eq h.symm
    exact ⟨hp, fun k hk => absurd hk.zero (Nat.not_lt.2 hp)⟩
  | p, e :: es, h => by
    obtain ⟨-, hnext⟩ := h.next hf
    obtain ⟨h1, h2⟩ := h.2.visits hf
    rw [← hnext] at h1 h2
    refine ⟨h1, fun k hk => ?_⟩
    cases k with
    | zero =>
      rw [Function.iterate_zero, id_eq, h.1]
      exact List.mem_cons_self ..
    | succ k => exact List.mem_cons_of_mem _ (h2 k (chainFrom_succ.1 hk).2)

theorem toNat_end {e : MmapEntry} (h : e.addr.toNat + e.len.toNat < 2 ^ 44) :
    (e.addr + e.len).toNat = e.addr.toNat + e.len.toNat := by
  rw [BitVec.toNat_add, Nat.mod_eq_of_lt (by omega)]

theorem MapList.ends {es : List MmapEntry} (h : MapList mbi es) : MapEnds .b32 mbi := by
  obtain ⟨h1, h2⟩ := h.laid.visits h.fits
  change ∀ k, Visits .b32 mbi k → mbi.mmap (entryAt .b32 mbi k) ∈ es at h2
  constructor
  · intro k hk _
    have hb := h.bound _ (h2 k hk)
    rw [toNat_end hb]
    exact hb
  · exact .inr (exists_ge_iff.1 ⟨_, h1⟩)

theorem registerOne_registers (hE : E .fuel) {e : MmapEntry} (h : e.addr.toNat + e.len.toNat < 2 ^ 44) (fuel count : Nat)
    (s : Mm .b32) : Ends E (registerOne fuel e count) s
      (Registers (fun g => e.Spans g ∧ 0x400 ≤ g ∧ g < maxFrames) s count) := by
  have hps : pageSize = 4096 := rfl
  have hpow : (2 : Nat) ^ pageBits = 4096 := rfl
  unfold registerOne
  split
  · rename_i ht
    have hlast : ((e.addr + e.len) >>> pageBits).toNat = (e.addr.toNat + e.len.toNat) / 4096 := by
      rw [BitVec.toNat_ushiftRight, Nat.shiftRight_eq_div_pow, toNat_end h, hpow]
    have hfirst : ((e.addr >>> pageBits).setWidth 32).toNat = e.addr.toNat / 4096 := by
      rw [BitVec.toNat_setWidth, BitVec.toNat_ushiftRight, Nat.shiftRight_eq_div_pow, hpow, Nat.mod_eq_of_lt (by omega)]
    refine (registerEntry_registers hE (by omega) fuel _ count s).mono (fun s' c hr => hr.congr (fun g => ?_))
    rw [hfirst, hlast, MmapEntry.Spans, hps]
    simp only [ht, true_and, and_assoc]
  · rename_i ht
    exact Ends.pure (Registers.none s count (fun g hg => ht hg.1.1))

theorem registerMap_registers (hE : E .fuel) (hf : mbi.mmapAddr.toNat + mbi.mmapLength.toNat < 2 ^ 32) (fuel : Nat) :
    ∀ (n p count : Nat) (es : List MmapEntry) (s : Mm .b32), Laid mbi p es →
      (∀ e ∈ es, e.addr.toNat + e.len.toNat < 2 ^ 44) → Ends E (registerMap fuel mbi n p count) s
        (Registers (fun g => (∃ e ∈ es, e.Spans g) ∧ 0x400 ≤ g ∧ g < maxFrames) s count)
  | 0, _, _, _, _, _, _ => Ends.stop hE
  | n + 1, p, count, [], s, h, _ => by
    have hp : ¬ p < mmapEnd mbi := by rw [mmapEnd_eq hf, Nat.not_lt]; exact Nat.le_of_eq h.symm
    rw [registerMap_succ, if_neg hp]
    exact Ends.pure (Registers.none s count (fun g ⟨⟨e, he, _⟩, _⟩ => List.not_mem_nil he))
  | n + 1, p, count, e :: es, s, h, hb => by
    obtain ⟨hp, hnext⟩ := h.next hf
    rw [registerMap_succ, if_pos hp, h.1, hnext]
    refine Ends.bind (registerOne_registers hE (hb e (List.mem_cons_self ..)) fuel count s) (fun s₁ c₁ h₁ => ?_)
    refine (registerMap_registers hE hf fuel n _ c₁ es s₁ h.2 (fun e' he' => hb e' (List.mem_cons_of_mem _ he'))).mono
      (fun s' c h' => (h₁.trans h').congr (fun g => ?_))
    rw [List.exists_mem_cons_iff, or_and_right]

end Laid

/-! ## The whole of `mm_init` -/

theorem upperLimit_eq (mbi : MultibootInfo) : upperLimit mbi = min (mbi.memUpper.toNat / 4) maxFrames := by
  have hmax : maxMem >>> pageBits = maxFrames := rfl
  unfold upperLimit
  rw [hmax, Nat.shiftRight_eq_div_pow]
  simp only [Nat.reducePow]
  split <;> omega

/-- `memset(freemap, 0, sizeof(freemap))`. -/
theorem clearFreemap_ends (s : Mm .b32) :
    Ends E (Prog.forN (fun i => .put (·.setWord i 0)) (maxFrames / Build.b32.longBits)) s
      (fun s' _ => ∀ g, g < maxFrames → Words.test s'.freemap g = false) := by
  refine (Ends.forN (fun n s' => ∀ i, i < n → s'.freemap i = 0) (fun i hi => absurd hi (Nat.not_lt_zero i))
    (fun n s' _ h => Ends.put (fun i hi => ?_))).mono (fun s' _ h g hg => ?_)
  · by_cases hin : i = n
    · simp [Mm.setWord, hin]
    · simpa [Mm.setWord, hin] using h i (by omega)
  · rw [Words.test, h _ (freemapIndex_lt hg)]
    simp [isBitSet]

/-- The frames `mm_init` registers, below `MAX_MEM`. -/
def Registered (mbi : MultibootInfo) (es : List MmapEntry) (g : Nat) : Prop :=
  0x400 ≤ g ∧ (isBitSet mbi.flags 0 = true ∧ g < mbi.memUpper.toNat / 4 ∨
    isBitSet mbi.flags 6 = true ∧ ∃ e ∈ es, e.Spans g)

/-- The frames the loop up to `limit` adds, and those the memory map adds. -/
def FromUpper (mbi : MultibootInfo) (g : Nat) : Prop := isBitSet mbi.flags 0 = true ∧ 0x400 ≤ g ∧ g < upperLimit mbi

def FromMap (mbi : MultibootInfo) (es : List MmapEntry) (g : Nat) : Prop :=
  isBitSet mbi.flags 6 = true ∧ (∃ e ∈ es, e.Spans g) ∧ 0x400 ≤ g ∧ g < maxFrames

theorem registered_of {mbi : MultibootInfo} {es : List MmapEntry} {g : Nat} (hg : g < maxFrames) :
    FromUpper mbi g ∨ FromMap mbi es g ↔ Registered mbi es g := by
  have hlt : g < min (mbi.memUpper.toNat / 4) maxFrames ↔ g < mbi.memUpper.toNat / 4 := by omega
  unfold FromUpper FromMap Registered
  rw [upperLimit_eq, hlt, eq_true hg]
  constructor
  · rintro (⟨h0, h1, h2⟩ | ⟨h6, h1, h2, -⟩)
    · exact ⟨h1, .inl ⟨h0, h2⟩⟩
    · exact ⟨h2, .inr ⟨h6, h1⟩⟩
  · rintro ⟨h1, ⟨h0, h2⟩ | ⟨h6, h2⟩⟩
    · exact .inl ⟨h0, h1, h2⟩
    · exact .inr ⟨h6, h2, h1, trivial⟩

theorem mmInit_adds (mem : Nat → Nat → Entry) (freemap : Nat → BitVec Build.b32.longBits) {mbi : MultibootInfo}
    {es : List MmapEntry} (h : isBitSet mbi.flags 6 = true → MapList mbi es) (fuel : Nat) :
    Ends (fun _ => True) (mmInit fuel mbi) (Mm.boot .b32 mem freemap) (fun s' n => ∃ s₀ : Mm .b32,
      (∀ g, g < maxFrames → Words.test s₀.freemap g = false) ∧
      Registers (fun g => FromUpper mbi g ∨ FromMap mbi es g) s₀ 0 s' n) := by
  refine Ends.bind (initTables32_ends mem freemap) (fun s₁ _ _ => Ends.bind (clearFreemap_ends s₁) (fun s₂ _ h₂ => ?_))
  refine Ends.bind (Q := Registers (FromUpper mbi) s₂ 0) ?_ (fun s₃ count h₃ => ?_)
  · split
    · rename_i h0
      have hle : upperLimit mbi ≤ maxFrames := by rw [upperLimit_eq]; omega
      have h400 : 0x400 ≤ maxFrames := by decide
      refine (registerUpper_registers _ 0x400 0 s₂ (by omega) (fun g _ hg => h₂ g hg)).mono
        (fun _ _ hu => hu.congr (fun g => ?_))
      simp only [FromUpper, h0, true_and]
      omega
    · rename_i h0
      exact Ends.pure (Registers.none s₂ 0 (fun g hg => h0 hg.1))
  · split
    · rename_i h6
      have hm := h h6
      refine (registerMap_registers trivial hm.fits fuel fuel _ count es s₃ hm.laid hm.bound).mono (fun s' c hc =>
        ⟨s₂, h₂, (h₃.trans hc).congr (fun g => ?_)⟩)
      simp only [FromMap, h6, true_and]
    · rename_i h6
      exact Ends.pure ⟨s₂, h₂, h₃.trans (Registers.none s₃ count (fun g hg => h6 hg.1))⟩

/-- **What `mm_init` leaves in the freemap and reports.** -/
theorem mmInit_registers (mem : Nat → Nat → Entry) (freemap : Nat → BitVec Build.b32.longBits) {mbi : MultibootInfo}
    {es : List MmapEntry} (h : isBitSet mbi.flags 6 = true → MapList mbi es) {fuel n : Nat}
    (hr : (mmInit fuel mbi).run (Mm.boot .b32 mem freemap) = (s, .ok n)) :
    (∀ g, g < maxFrames → (Words.test s.freemap g = true ↔ Registered mbi es g)) ∧ n = numSet s.freemap := by
  obtain ⟨s₀, h0, hreg⟩ := (mmInit_adds mem freemap h fuel).ok hr
  constructor
  · intro g hg
    rw [hreg.test, h0 g hg, ← registered_of hg]
    simp
  · apply hreg.count
    refine (Finset.card_eq_zero.2 (Finset.filter_eq_empty_iff.2 (fun g hg => ?_))).symm
    rw [h0 g (Finset.mem_range.1 hg)]
    exact Bool.false_ne_true

/-- The whole frame is memory: below `mem_upper`, or inside an entry. -/
def Usable (mbi : MultibootInfo) (es : List MmapEntry) (f : Nat) : Prop :=
  isBitSet mbi.flags 0 = true ∧ f < mbi.memUpper.toNat / 4 ∨ isBitSet mbi.flags 6 = true ∧ ∃ e ∈ es, e.Holds f

/-- What `mm_init` should leave. -/
structure MemoryRight (mbi : MultibootInfo) (es : List MmapEntry) (s : Mm .b32) (count : Nat) : Prop where
  bits   : ∀ f, f < maxFrames → (Words.test s.freemap f = true ↔ 0x400 ≤ f ∧ Usable mbi es f)
  count  : count = numSet s.freemap
  /-- Whatever calls follow, no frame they return lies partly outside memory. -/
  frames : ∀ done s', Takes s done s' → ∀ f ∈ done.map Prod.snd, Usable mbi es f

theorem registered_iff {mbi : MultibootInfo} {es : List MmapEntry} {f : Nat} : Registered mbi es f ↔
    0x400 ≤ f ∧ (Usable mbi es f ∨ isBitSet mbi.flags 6 = true ∧ ∃ e ∈ es, e.RoundedDown f) := by
  have hspan : (∃ e ∈ es, e.Spans f) ↔ (∃ e ∈ es, e.Holds f) ∨ ∃ e ∈ es, e.RoundedDown f := by
    simp only [MmapEntry.spans_iff, and_or_left, exists_or]
  unfold Registered Usable
  rw [hspan, and_or_left (a := isBitSet mbi.flags 6 = true), or_assoc]

/-- **`mm_init` registers the right frames in the 32-bit build if and only if** every frame in the middle of which a memory
entry starts and whose end it reaches is memory all the same: it lies below `mem_upper` or inside another entry. -/
theorem mmInit_registers_iff (mem : Nat → Nat → Entry) (freemap : Nat → BitVec Build.b32.longBits) (mbi : MultibootInfo)
    (es : List MmapEntry) (h : isBitSet mbi.flags 6 = true → MapList mbi es) :
    (∃ fuel s n, (mmInit fuel mbi).run (Mm.boot .b32 mem freemap) = (s, .ok n)) ∧
    ∀ fuel s n, (mmInit fuel mbi).run (Mm.boot .b32 mem freemap) = (s, .ok n) →
      (MemoryRight mbi es s n ↔ (isBitSet mbi.flags 6 = true → ∀ e ∈ es, ∀ f, e.RoundedDown f →
        0x400 ≤ f → f < maxFrames → Usable mbi es f)) := by
  refine ⟨MapEnds.returns (fun h6 => (h h6).ends) mem freemap, fun fuel s n hr => ?_⟩
  obtain ⟨hbits, hcount⟩ := mmInit_registers mem freemap h hr
  constructor
  · intro hright h6 e he f hf h400 hlt
    have hset := (hbits f hlt).2 (registered_iff.2 ⟨h400, .inr ⟨h6, e, he, hf⟩⟩)
    exact ((hright.bits f hlt).1 hset).2
  · intro hcond
    have hright : ∀ f, f < maxFrames → (Words.test s.freemap f = true ↔ 0x400 ≤ f ∧ Usable mbi es f) := by
      intro f hlt
      rw [hbits f hlt, registered_iff]
      refine and_congr_right (fun h400 => or_iff_left_of_imp ?_)
      rintro ⟨h6, e, he, hf⟩
      exact hcond h6 e he f hf h400 hlt
    refine ⟨hright, hcount, fun done s' ht f hf => ?_⟩
    have hb : Booted s := (mmInit_booted (E := fun _ => True) mem freemap fuel mbi (fun _ => trivial)).ok hr
    have hfresh : FreshCursors s := fun c => by
      cases c
      · exact hb.lastPt
      · exact hb.last4k
    obtain ⟨-, hlt, hset⟩ := (ht.was_set hfresh).1 f hf
    exact ((hright f hlt).1 hset).2

/-- An entry from the middle of frame 0x400 to the end of frame 0x401. -/
def midFrame : MmapEntry := ⟨20, 0x400800, 0x1800, 1⟩

def midFrameMap : MultibootInfo where
  flags      := 0x40
  memUpper   := 0
  mmapLength := 24
  mmapAddr   := 0x8000
  mmap       := fun _ => midFrame

theorem midFrameMap_list : MapList midFrameMap [midFrame] where
  laid  := ⟨rfl, rfl⟩
  fits  := by decide
  bound := fun e he => by
    rw [List.mem_singleton.1 he]
    decide

/-- Frame 0x400 is registered, and starts in front of the entry. -/
theorem midFrame_registered : ∃ fuel s n,
    (mmInit fuel midFrameMap).run (Mm.boot .b32 (fun _ _ => .zero) (fun _ => 0)) = (s, .ok n) ∧
      ¬ MemoryRight midFrameMap [midFrame] s n := by
  obtain ⟨fuel, s, n, hr⟩ := MapEnds.returns (fun _ => midFrameMap_list.ends) (fun _ _ => .zero) (fun _ => 0)
  refine ⟨fuel, s, n, hr, fun hright => ?_⟩
  obtain ⟨hbits, -⟩ := mmInit_registers _ _ (fun _ => midFrameMap_list) hr
  have hset := (hbits 0x400 (by decide)).2 ⟨Nat.le_refl _, .inr ⟨by decide, midFrame, by simp, rfl, by decide, by decide⟩⟩
  obtain ⟨-, ⟨h0, -⟩ | ⟨-, e, he, hh⟩⟩ := (hright.bits 0x400 (by decide)).1 hset
  · exact absurd h0 (by decide)
  · rw [List.mem_singleton.1 he, MmapEntry.holds_iff] at hh
    exact absurd hh.2.1 (by decide)

theorem midFrameMap_registers_iff : (∃ fuel s n,
      (mmInit fuel midFrameMap).run (Mm.boot .b32 (fun _ _ => .zero) (fun _ => 0)) = (s, .ok n)) ∧
    ∀ fuel s n, (mmInit fuel midFrameMap).run (Mm.boot .b32 (fun _ _ => .zero) (fun _ => 0)) = (s, .ok n) →
      (MemoryRight midFrameMap [midFrame] s n ↔ (isBitSet midFrameMap.flags 6 = true → ∀ e ∈ [midFrame], ∀ f,
        e.RoundedDown f → 0x400 ≤ f → f < maxFrames → Usable midFrameMap [midFrame] f)) :=
  mmInit_registers_iff _ _ _ _ (fun _ => midFrameMap_list)

end SmpBoot
