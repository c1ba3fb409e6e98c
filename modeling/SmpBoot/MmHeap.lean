import SmpBoot.MmMap
/-!
# MmHeap — what `heap_alloc` adds to the mapping

`Heap` is the invariant behind the two cursors: the data cursor stays ahead of `next_virt_page`, so that every page from
`next_virt_page` up to the APIC pages is unmapped.  `Grew` is what any number of calls did: the next pages were mapped to
frames that were never used before, and nothing else changed.  It composes (`Grew.trans`), so a loop and a run of calls are
one induction each.
-/
namespace SmpBoot

open Resume Resume.Prog

variable {b : Build} {s s' s'' : Mm b}

/-! ## Pages -/

/-- The first page of the APICs; heap pages lie below. -/
def apicPage : Nat := 0xfec00

/-- Where the tables keep the entry of a page. -/
def slot (b : Build) (page : Nat) : List Nat × Nat := (dirPath b (pageToAdr b page), ptIndex b (pageToAdr b page))

def Mm.frameOf (s : Mm b) (page : Nat) : Option Nat := s.lookup (slot b page).1 (slot b page).2

theorem levelIndex_eq (b : Build) (k adr : Nat) :
    levelIndex b k adr = adr / 2 ^ (pageBits + k * b.indexBits) % 2 ^ b.indexBits := by
  unfold levelIndex
  rw [Nat.and_two_pow_sub_one_eq_mod, Nat.shiftRight_eq_div_pow]

theorem pageToAdr_eq (b : Build) {page : Nat} (h : page < 2 ^ 20) : pageToAdr b page = page * 4096 := by
  unfold pageToAdr
  rw [Nat.shiftLeft_eq]
  cases b
  · exact Nat.mod_eq_of_lt (by simp only [pageBits, Build.longBits]; omega)
  · exact Nat.mod_eq_of_lt (by simp only [pageBits, Build.longBits]; omega)

/-- **Different pages have different slots.** -/
theorem slot_inj {p q : Nat} (hp : p < 2 ^ 20) (hq : q < 2 ^ 20) (h : slot b p = slot b q) : p = q := by
  unfold slot at h
  rw [pageToAdr_eq b hp, pageToAdr_eq b hq] at h
  cases b
  · simp only [dirPath, pd1Index, ptIndex, levelIndex_eq, Build.levels, Build.indexBits, pageBits, Prod.mk.injEq,
      List.cons.injEq, and_true] at h
    omega
  · simp only [dirPath, pd1Index, pd2Index, pd3Index, ptIndex, levelIndex_eq, Build.levels, Build.indexBits, pageBits,
      Prod.mk.injEq, List.cons.injEq, and_true] at h
    omega

theorem slot_tmpPage (b : Build) : slot b tmpPage = (winPath b, tmpPage) := by cases b <;> decide

theorem slot_ne_window {p : Nat} (hp : p < 2 ^ 20) (h : p ≠ tmpPage) : slot b p ≠ (winPath b, tmpPage) := by
  rw [← slot_tmpPage]
  exact fun he => h (slot_inj hp (by decide) he)

theorem length_slot (b : Build) (p : Nat) : (slot b p).1.length = b.depth := length_dirPath b _

/-! ## The invariant -/

structure Heap (s : Mm b) : Prop extends Tables s where
  nextAt : 0x400 ≤ s.nextVirtPage
  f4kAt  : 0x800 ≤ s.lastFrame4k
  f4kMax : s.lastFrame4k < maxFrames
  /-- Each page took one frame at or above `0x800`: the data cursor is ahead. -/
  room   : s.nextVirtPage + 0x400 ≤ s.lastFrame4k + (s.taken s.lastFrame4k).toNat
  unused : ∀ p, s.nextVirtPage ≤ p → p < apicPage → s.frameOf p = none

/-- **`next_virt_page` never climbs to the APIC pages.** -/
theorem Heap.next_lt (h : Heap s) : s.nextVirtPage < apicPage := by
  have h1 := h.room
  have h2 := h.f4kMax
  have h3 := Bool.toNat_le (s.taken s.lastFrame4k)
  have h4 := maxFrames_eq
  have h5 : apicPage = 0xfec00 := rfl
  omega

/-- What calls did between two states: the frames of `frames` were mapped, in order, to the pages from `next_virt_page`
on. -/
structure Grew (s s' : Mm b) (frames : List Nat) : Prop where
  start  : 0x400 ≤ s.nextVirtPage
  heap   : Heap s'
  next   : s'.nextVirtPage = s.nextVirtPage + frames.length
  mapped : ∀ i f, frames[i]? = some f → s'.frameOf (s.nextVirtPage + i) = some f
  others : ∀ p, p < 2 ^ 20 → p ≠ tmpPage → (p < s.nextVirtPage ∨ s'.nextVirtPage ≤ p) → s'.frameOf p = s.frameOf p
  fresh  : ∀ f ∈ frames, s.taken f = false ∧ s'.taken f = true ∧ 0x400 ≤ f
  nodup  : frames.Nodup
  tables : ∀ π t, π.length ≤ b.depth → s'.tableAt π = some t → s.tableAt π = some t ∨ (s.taken t = false ∧ t ∉ frames)
  taken  : ∀ f, s.taken f = true → s'.taken f = true

/-- **Calls in a row.** -/
theorem Grew.trans {fs gs : List Nat} (h : Grew s s' fs) (h' : Grew s' s'' gs) : Grew s s'' (fs ++ gs) where
  start  := h.start
  heap   := h'.heap
  next   := by rw [h'.next, h.next, List.length_append]; omega
  mapped := fun i f hi => by
    rw [List.getElem?_append] at hi
    split at hi
    · -- mapped by the first part, kept by the second
      rename_i hlt
      have hlt' := h'.heap.next_lt
      have hn := h.next
      have hn' := h'.next
      have hs := h.start
      have h5 : apicPage = 0xfec00 := rfl
      have h6 : tmpPage = 0x1ff := rfl
      rw [h'.others _ (by omega) (by omega) (.inl (by omega))]
      exact h.mapped i f hi
    · have := h'.mapped _ f hi
      rw [h.next] at this
      rwa [show s.nextVirtPage + i = s.nextVirtPage + fs.length + (i - fs.length) by omega]
  others := fun p hp hw hr => by
    have hn := h.next
    have hn' := h'.next
    rw [h'.others p hp hw (by omega), h.others p hp hw (by omega)]
  fresh  := fun f hf => by
    rcases List.mem_append.1 hf with hf | hf
    · obtain ⟨h1, h2, h3⟩ := h.fresh f hf
      exact ⟨h1, h'.taken f h2, h3⟩
    · obtain ⟨h1, h2, h3⟩ := h'.fresh f hf
      exact ⟨free_before h.taken h1, h2, h3⟩
  nodup  := by
    refine List.nodup_append.2 ⟨h.nodup, h'.nodup, fun f hf g hg he => ?_⟩
    subst he
    have h1 := (h.fresh f hf).2.1
    rw [(h'.fresh f hg).1] at h1
    cases h1
  tables := fun π t hπ ht => by
    rcases h'.tables π t hπ ht with h1 | ⟨h1, h2⟩
    · rcases h.tables π t hπ h1 with h3 | ⟨h3, h4⟩
      · exact .inl h3
      · refine .inr ⟨h3, fun hm => ?_⟩
        rcases List.mem_append.1 hm with hm | hm
        · exact h4 hm
        · -- a data frame is never a table's
          obtain ⟨h5, -, h6⟩ := h'.fresh t hm
          exact h.heap.fresh h6 h5 π hπ h1
    · refine .inr ⟨free_before h.taken h1, fun hm => ?_⟩
      rcases List.mem_append.1 hm with hm | hm
      · rw [(h.fresh t hm).2.1] at h1; cases h1
      · exact h2 hm
  taken  := fun f hf => h'.taken f (h.taken f hf)

theorem Heap.stays (h : Heap s) (hs : Stays s s') : Grew s s' [] where
  start  := h.nextAt
  heap   := {
    toTables := hs.1
    nextAt := by rw [hs.2.next]; exact h.nextAt
    f4kAt  := by rw [hs.2.last4k]; exact h.f4kAt
    f4kMax := by rw [hs.2.last4k]; exact h.f4kMax
    room   := by
      rw [hs.2.next, hs.2.last4k]
      refine Nat.le_trans h.room (Nat.add_le_add_left ?_ _)
      cases ht : s.taken s.lastFrame4k with
      | false => exact Nat.zero_le _
      | true => exact Nat.le_of_eq (by rw [hs.2.taken _ ht])
    unused := fun p hp hp' => by
      rw [hs.2.next] at hp
      have h1 := h.nextAt
      have h5 : apicPage = 0xfec00 := rfl
      have h6 : tmpPage = 0x1ff := rfl
      exact (hs.2.pages _ _ (length_slot b p) (slot_ne_window (by omega) (by omega))).trans (h.unused p hp hp') }
  next   := by rw [hs.2.next]; rfl
  mapped := fun i f hi => by cases hi
  others := fun p hp hw _ => hs.2.pages _ _ (length_slot b p) (slot_ne_window hp hw)
  fresh  := fun f hf => by cases hf
  nodup  := List.nodup_nil
  tables := fun π t hπ ht => by
    rcases hs.2.tables π t hπ ht with h1 | h1
    · exact .inl h1
    · exact .inr ⟨h1, by simp⟩
  taken  := hs.2.taken

/-! ## The calls -/

theorem mapFlags_noHuge (flags : Nat) : mapFlags flags &&& mapHuge = 0 := by
  unfold mapFlags
  split <;> split <;> decide

theorem Tables.setNext (h : Tables s) (n : Nat) : Tables { s with nextVirtPage := n } :=
  ⟨h.root, h.tree, h.noHuge, h.off, h.win, h.ptAt, h.ptMax⟩

section OnePage
variable {s₁ s₂ : Mm b} {f : Nat}

theorem Heap.room_took (h : Heap s) (ht : Took .f4k s s₁ f) : s.nextVirtPage + 1 + 0x400 ≤ f + 1 := by
  have hroom := h.room
  have habove : s.lastFrame4k ≤ f := ht.above
  cases hl : s.taken s.lastFrame4k with
  | false => rw [hl] at hroom; simp only [Bool.toNat_false] at hroom; omega
  | true =>
    -- the frame at the cursor was in use, so the search went on
    have hne : s.lastFrame4k ≠ f := by
      intro he
      rw [he, ht.wasSet] at hl
      cases hl
    rw [hl] at hroom
    simp only [Bool.toNat_true] at hroom
    omega

theorem Heap.others_page (h : Heap s) (ht : Took .f4k s s₁ f)
    (hm : Mapped s₁ s₂ (slot b s.nextVirtPage).1 (slot b s.nextVirtPage).2 f) {p : Nat} (hp : p < 2 ^ 20)
    (hw : p ≠ tmpPage) (hne : p ≠ s.nextVirtPage) : s₂.frameOf p = s.frameOf p := by
  have hlt := h.next_lt
  have h5 : apicPage = 0xfec00 := rfl
  have h1 := hm.others _ _ (length_slot b p) (slot_ne_window hp hw) (fun he => hne (slot_inj hp (by omega) he))
  exact h1.trans (ht.lookup _ _)

theorem Heap.nextPage (h : Heap s) (ht : Took .f4k s s₁ f) (hT : Tables s₂)
    (hm : Mapped s₁ s₂ (slot b s.nextVirtPage).1 (slot b s.nextVirtPage).2 f) :
    Heap { s₂ with nextVirtPage := s.nextVirtPage + 1 } where
  toTables := hT.setNext _
  nextAt   := Nat.le_succ_of_le h.nextAt
  f4kAt    := by
    show 0x800 ≤ s₂.lastFrame4k
    rw [hm.last4k]
    exact Nat.le_trans h.f4kAt (Nat.le_trans ht.above (Nat.le_of_eq ht.cursor.symm))
  f4kMax   := by
    show s₂.lastFrame4k < maxFrames
    rw [hm.last4k]
    exact Nat.lt_of_le_of_lt (Nat.le_of_eq ht.cursor) ht.below
  room     := by
    have hcur : s₁.lastFrame4k = f := ht.cursor
    show s.nextVirtPage + 1 + 0x400 ≤ s₂.lastFrame4k + (s₂.taken s₂.lastFrame4k).toNat
    rw [hm.last4k, hcur, hm.taken f ht.taken]
    exact h.room_took ht
  unused   := fun p hp hp' => by
    have h400 := h.nextAt
    have h5 : apicPage = 0xfec00 := rfl
    have h6 : tmpPage = 0x1ff := rfl
    change s.nextVirtPage + 1 ≤ p at hp
    exact (h.others_page ht hm (by omega) (by omega) (by omega)).trans (h.unused p (by omega) hp')

/-- **One pass of `heap_alloc`**: the frame it took is mapped to the next page. -/
theorem Heap.grew (h : Heap s) (ht : Took .f4k s s₁ f) (hT : Tables s₂)
    (hm : Mapped s₁ s₂ (slot b s.nextVirtPage).1 (slot b s.nextVirtPage).2 f) :
    Grew s { s₂ with nextVirtPage := s.nextVirtPage + 1 } [f] where
  start  := h.nextAt
  heap   := h.nextPage ht hT hm
  next   := rfl
  mapped := fun i g hi => by
    cases i with
    | zero =>
      rw [List.getElem?_cons_zero] at hi
      cases hi
      exact hm.page
    | succ i => simp at hi
  others := fun p hp hw hr => by
    change p < s.nextVirtPage ∨ s.nextVirtPage + 1 ≤ p at hr
    exact h.others_page ht hm hp hw (by omega)
  fresh  := fun g hg => by
    cases List.mem_singleton.1 hg
    have habove : s.lastFrame4k ≤ f := ht.above
    exact ⟨ht.wasSet, hm.taken f ht.taken, by have := h.f4kAt; omega⟩
  nodup  := by simp
  tables := fun π t hπ hn => by
    rcases hm.tables π t hπ hn with h1 | h1
    · exact .inl (by rwa [ht.tableAt] at h1)
    · refine .inr ⟨free_before ht.keeps h1, fun hmem => ?_⟩
      rw [List.mem_singleton.1 hmem, ht.taken] at h1
      cases h1
  taken  := fun g hg => hm.taken g (ht.keeps g hg)

end OnePage

theorem heapAllocLoop_ends {flags : Nat} (hfl : flags &&& mapHuge = 0) : ∀ (n : Nat) (s : Mm b), Heap s →
    Ends (· = .outOfMemory) (heapAllocLoop flags n) s (fun s' fs => Grew s s' fs ∧ fs.length = n)
  | 0, s, h => Ends.pure ⟨h.stays ⟨h.toTables, Keeps.refl s⟩, rfl⟩
  | n + 1, s, h => by
    have hlt := h.next_lt
    have h400 := h.nextAt
    have h5 : apicPage = 0xfec00 := rfl
    have h6 : tmpPage = 0x1ff := rfl
    refine Ends.bind (getFreeFrame_4k h.f4kMax) (fun s₁ f ht => Ends.bind_of_run (run_get _ s₁) ?_)
    rw [ht.next]
    have hT₁ := ht.tables h.toTables (.inr (ht.lastPt rfl))
    have hnone : s₁.lookup (slot b s.nextVirtPage).1 (slot b s.nextVirtPage).2 = none := by
      rw [ht.lookup]; exact h.unused _ (Nat.le_refl _) hlt
    refine Ends.bind (mapFrameToAdr_ends hT₁ hfl (slot_ne_window (p := s.nextVirtPage) (by omega) (by omega)) hnone
      (Nat.lt_trans ht.below (maxFrames_lt_frame b))) ?_
    rintro s₂ - ⟨hT₂, hm⟩
    refine Ends.bind_of_run (run_get _ s₂) (Ends.bind_of_run (run_put _ s₂) ?_)
    rw [hm.next, ht.next]
    have hg := h.grew ht hT₂ hm
    refine Ends.bind (heapAllocLoop_ends hfl n _ hg.heap) ?_
    rintro s₃ fs ⟨hg', hlen⟩
    exact Ends.pure ⟨hg.trans hg', by rw [List.length_cons, hlen]⟩

/-- **`heap_alloc`** maps its range, from `next_virt_page` on. -/
theorem heapAlloc_ends (h : Heap s) (n flags : Nat) : Ends (· = .outOfMemory) (heapAlloc n flags) s (fun s' r =>
    Grew s s' r.2 ∧ r.2.length = n ∧ r.1 = s.nextVirtPage * 4096) := by
  have h5 : apicPage = 0xfec00 := rfl
  have hlt := h.next_lt
  refine Ends.bind_of_run (run_get _ s) (Ends.bind (heapAllocLoop_ends (mapFlags_noHuge flags) n s h) ?_)
  rintro s' fs ⟨hg, hlen⟩
  exact Ends.pure ⟨hg, hlen, pageToAdr_eq b (by omega)⟩

theorem roundDown_eq (x : Nat) : roundDown x = x / 4096 * 4096 := by
  have h : x &&& (pageSize - 1) = x % 4096 := Nat.and_two_pow_sub_one_eq_mod x pageBits
  unfold roundDown
  rw [h]
  omega

/-- The loop of `heap_reconfig` ends: its bound is a page address, so `p` meets it before it wraps. -/
theorem heapReconfigLoop_ends {flags last : Nat} (hl : last % 4096 = 0) (hb : last < 2 ^ b.longBits) {s₀ : Mm b} :
    ∀ (n p : Nat) (s : Mm b), Stays s₀ s → p % 4096 = 0 → last ≤ p + n * 4096 →
    Ends (· = .outOfMemory) (heapReconfigLoop flags last (n + 1) p) s (fun s' _ => Stays s₀ s')
  | n, p, s, h, hp, hn => by
    unfold heapReconfigLoop
    by_cases hlt : p < last
    · rw [if_pos hlt]
      refine Ends.bind (reconfAdr_ends h p flags) (fun s' _ h' => ?_)
      cases n with
      | zero => omega
      | succ n =>
        have hps : pageSize = 4096 := rfl
        rw [hps, Nat.mod_eq_of_lt (show p + 4096 < 2 ^ b.longBits by omega)]
        exact heapReconfigLoop_ends hl hb n (p + 4096) s' h' (by omega) (by omega)
    · rw [if_neg hlt]
      exact Ends.pure h

/-- **`heap_reconfig` changes no frame of any page.** -/
theorem heapReconfig_ends (h : Tables s) (adr size flags : Nat) :
    Ends (· = .outOfMemory) (heapReconfig adr size flags) s (fun s' _ => Stays s s') := by
  unfold heapReconfig
  simp only [roundDown_eq]
  obtain ⟨k, hk, hk0⟩ : ∃ k, 2 ^ b.longBits = k * 4096 ∧ 0 < k := by
    cases b
    · exact ⟨2 ^ 20, by decide, by decide⟩
    · exact ⟨2 ^ 52, by decide, by decide⟩
  have hfuel : 2 ^ b.longBits / pageSize = (k - 1) + 1 := by
    have hps : pageSize = 4096 := rfl
    rw [hk, hps, Nat.mul_div_cancel k (by decide)]
    omega
  rw [hfuel]
  have hlt := Nat.mod_lt (adr / 4096 * 4096 + (size + (pageSize - 1)) % 2 ^ b.longBits / 4096 * 4096)
    (Nat.two_pow_pos b.longBits)
  have hmod : (adr / 4096 * 4096 + (size + (pageSize - 1)) % 2 ^ b.longBits / 4096 * 4096) % 2 ^ b.longBits % 4096 = 0 := by
    rw [hk, Nat.mod_mul_left_mod]
    omega
  exact heapReconfigLoop_ends hmod hlt (k - 1) _ s ⟨h, Keeps.refl s⟩ (Nat.mul_mod_left _ _) (by omega)

end SmpBoot
