import SmpBoot.MmHeap
/-!
# MmInit — what `mm_init` leaves

The tables made by `mm_init` (32 bit) and by `start64.asm` (64 bit) are the few of `bootTables`; the memory map only touches
the freemap.  So `mm_init`, whatever the memory map, leaves the invariant `Heap`.
-/
namespace SmpBoot

open Resume Resume.Prog

variable {b : Build} {s s' : Mm b}

/-- The tables before the first call, each with its path. -/
def bootTables : Build → List (Nat × List Nat)
  | .b32 => [(1, []), (2, [0]), (3, [1019])]
  | .b64 => [(1, []), (2, [0]), (3, [0, 0]), (4, [0, 3]), (5, [0, 0, 0]), (6, [0, 3, 0x1f6]), (7, [0, 3, 0x1f7])]

/-- The tables are those of `bootTables`, and the static variables have their initial values. -/
structure Booted (s : Mm b) : Prop where
  pd1    : s.pd1 = 1
  links  : ∀ t π i, (t, π) ∈ bootTables b → π.length < b.depth → i < b.entries →
    (s.mem t i).ps = false ∧ ((s.mem t i).p = true → ((s.mem t i).frame, π ++ [i]) ∈ bootTables b)
  win    : s.tableAt (winPath b) = some b.mapTable
  lastPt : s.lastFramePt = 0x400
  last4k : s.lastFrame4k = 0x800
  next   : s.nextVirtPage = 0x400

theorem Booted.mem_bootTables (h : Booted s) (π : List Nat) (t : Nat) (hπ : π.length ≤ b.depth)
    (ht : s.tableAt π = some t) : (t, π) ∈ bootTables b := by
  refine Radix.walk_inv (P := fun t π => (t, π) ∈ bootTables b) ?_ (fun n ρ i m hρ hn hm => ?_) π t hπ ht
  · rw [h.pd1]; cases b <;> decide
  · unfold Mm.child at hm
    split at hm
    · rename_i hc
      cases hm
      exact (h.links n ρ i hn hρ hc.1).2 hc.2.1
    · cases hm

theorem bootTables_inj (b : Build) : ∀ x ∈ bootTables b, ∀ y ∈ bootTables b, x.1 = y.1 → x.2 = y.2 := by
  cases b <;> decide

theorem bootTables_lt (b : Build) : ∀ x ∈ bootTables b, x.1 < 0x400 := by cases b <;> decide

theorem Booted.tables (h : Booted s) : Tables s where
  root   := h.pd1
  tree   := fun π ρ n hπ hρ h1 h2 =>
    bootTables_inj b _ (h.mem_bootTables π n hπ h1) _ (h.mem_bootTables ρ n hρ h2) rfl
  noHuge := fun π t i hπ ht hi => (h.links t π i (h.mem_bootTables π t (Nat.le_of_lt hπ) ht) hπ hi).1
  off    := fun π t hπ ht => .inl (bootTables_lt b _ (h.mem_bootTables π t hπ ht))
  win    := h.win
  ptAt   := Nat.le_of_eq h.lastPt.symm
  ptMax  := by rw [h.lastPt]; decide

theorem slot_not_boot {p : Nat} (h : 0x400 ≤ p) (h' : p < apicPage) (t : Nat) :
    (t, (slot b p).1) ∉ bootTables b := by
  have h5 : apicPage = 0xfec00 := rfl
  unfold slot
  rw [pageToAdr_eq b (by omega)]
  cases b
  · simp only [bootTables, dirPath, pd1Index, levelIndex_eq, Build.levels, Build.indexBits, pageBits, List.mem_cons,
      Prod.mk.injEq, List.cons.injEq, and_true, List.not_mem_nil, or_false]
    rintro (⟨-, h⟩ | ⟨-, h⟩ | ⟨-, h⟩)
    · cases h
    · omega
    · omega
  · simp only [bootTables, dirPath, pd1Index, pd2Index, pd3Index, levelIndex_eq, Build.levels, Build.indexBits, pageBits,
      List.mem_cons, Prod.mk.injEq, List.cons.injEq, and_true, List.not_mem_nil, or_false]
    rintro (⟨-, h⟩ | ⟨-, h⟩ | ⟨-, h⟩ | ⟨-, h⟩ | ⟨-, h⟩ | ⟨-, h⟩ | ⟨-, h⟩)
    · cases h
    · cases h.2
    · cases h.2.2
    · cases h.2.2
    · omega
    · omega
    · omega

theorem Booted.heap (h : Booted s) : Heap s where
  toTables := h.tables
  nextAt := Nat.le_of_eq h.next.symm
  f4kAt  := Nat.le_of_eq h.last4k.symm
  f4kMax := by rw [h.last4k]; decide
  room   := by rw [h.next, h.last4k]; exact Nat.le_add_right _ _
  unused := fun p hp hp' => by
    rw [h.next] at hp
    unfold Mm.frameOf Mm.lookup
    cases ht : s.tableAt (slot b p).1 with
    | none => rfl
    | some t => exact absurd (h.mem_bootTables _ t (Nat.le_of_eq (length_slot b p)) ht) (slot_not_boot hp hp' t)

/-! ## The tables -/

theorem booted64 (mem : Nat → Nat → Entry) (freemap : Nat → BitVec Build.b64.longBits) :
    Booted { Mm.boot .b64 mem freemap with pd1 := 1 } where
  pd1    := rfl
  links  := fun t π i ht hπ hi => by
    change (paging64 mem t i).ps = false ∧ ((paging64 mem t i).p = true → ((paging64 mem t i).frame, π ++ [i]) ∈ _)
    simp only [bootTables, List.mem_cons, Prod.mk.injEq, List.not_mem_nil, or_false] at ht
    rcases ht with ⟨rfl, rfl⟩ | ⟨rfl, rfl⟩ | ⟨rfl, rfl⟩ | ⟨rfl, rfl⟩ | ⟨-, rfl⟩ | ⟨-, rfl⟩ | ⟨-, rfl⟩
    · by_cases h : i = 0
      · subst h; exact ⟨rfl, fun _ => show (2, [0]) ∈ bootTables .b64 by decide⟩
      · simp [paging64, h, Entry.zero]
    · by_cases h : i = 0
      · subst h; exact ⟨rfl, fun _ => show (3, [0, 0]) ∈ bootTables .b64 by decide⟩
      by_cases h3 : i = 3
      · subst h3; exact ⟨rfl, fun _ => show (4, [0, 3]) ∈ bootTables .b64 by decide⟩
      · simp [paging64, h, h3, Entry.zero]
    · by_cases h : i = 0
      · subst h; exact ⟨rfl, fun _ => show (5, [0, 0, 0]) ∈ bootTables .b64 by decide⟩
      · simp [paging64, h, Entry.zero]
    · by_cases h : i = 0x1f6
      · subst h; exact ⟨rfl, fun _ => show (6, [0, 3, 0x1f6]) ∈ bootTables .b64 by decide⟩
      by_cases h7 : i = 0x1f7
      · subst h7; exact ⟨rfl, fun _ => show (7, [0, 3, 0x1f7]) ∈ bootTables .b64 by decide⟩
      · simp [paging64, h, h7, Entry.zero]
    all_goals exact absurd hπ (by decide)
  win    := rfl
  lastPt := rfl
  last4k := rfl
  next   := rfl

/-- What the assignments to `frame`, `rw` and `p` leave of an entry. -/
def linkEntry (f : Nat) (e : Entry) : Entry := { e with p := true, rw := true, frame := f }

/-- The memory the 32-bit `mm_init` leaves: a directory of two entries, the identity-mapped page table, and two entries of a
page table that is not cleared before. -/
def tables32 (mem : Nat → Nat → Entry) : Nat → Nat → Entry := fun f i =>
  if f = 1 ∧ i < 1024 then
    if i = 0 then linkEntry 2 .zero else if i = 1019 then linkEntry 3 .zero else .zero
  else if f = 2 ∧ i < 1024 then linkEntry i .zero
  else if f = 3 ∧ i = 0 then linkEntry 0xfec00 (mem 3 0)
  else if f = 3 ∧ i = 512 then linkEntry 0xfee00 (mem 3 512)
  else mem f i

theorem run_link32 (t i f : Nat) (hf : f % 2 ^ Build.b32.frameBits = f) (s : Mm .b32) :
    (assigns (.phys t) i [Entry.setFrame .b32 f, Entry.setRw, Entry.setP]).run s =
      (s.setEntry t i (linkEntry f (s.mem t i)), .ok ()) := by
  rw [run_assigns (.phys t) i _ s (fun _ => rfl), if_neg (by simp)]
  simp only [List.foldl_cons, List.foldl_nil, Entry.setFrame, Entry.setRw, Entry.setP, hf, TablePtr.frame, linkEntry]

/-- The loop over `u` links every entry of the page table to the frame with its own number. -/
theorem run_identity32 (s : Mm .b32) : ∀ n, n ≤ 1024 →
    (Prog.forN (fun u => assigns (.phys 2) u [Entry.setFrame .b32 u, Entry.setRw, Entry.setP]) n).run s =
      ({ s with mem := fun f i => if f = 2 ∧ i < n then linkEntry i (s.mem 2 i) else s.mem f i }, .ok ())
  | 0,     _ => by simp [Prog.forN]
  | n + 1, h => by
    have hn : n % 2 ^ Build.b32.frameBits = n := Nat.mod_eq_of_lt (by simp only [Build.frameBits]; omega)
    rw [Prog.forN, run_bind_ok (run_identity32 s n (by omega)), run_link32 2 n n hn]
    congr 1
    simp only [Mm.setEntry]
    congr 1
    funext f i
    by_cases hf : f = 2
    · by_cases hi : i = n
      · simp [hf, hi]
      · have hlt : i < n + 1 ↔ i < n := by omega
        simp [hf, hi, hlt]
    · simp [hf]

/-- **The tables of the 32-bit build.** -/
theorem run_initTables32 (mem : Nat → Nat → Entry) (freemap : Nat → BitVec Build.b32.longBits) :
    (initTables .b32).run (Mm.boot .b32 mem freemap) =
      ({ Mm.boot .b32 mem freemap with pd1 := 1, mem := tables32 mem }, .ok ()) := by
  let s₀ : Mm .b32 := { Mm.boot .b32 mem freemap with pd1 := 1 }
  refine (run_bind_ok (run_put _ _)).trans ((run_bind_ok (run_get _ s₀)).trans ?_)
  refine (run_bind_ok (run_clearTable (.phys 1) (.inl rfl))).trans ?_
  refine (run_bind_ok (run_clearTable (.phys 2) (.inl rfl))).trans ?_
  refine (run_bind_ok (run_link32 1 0 2 rfl _)).trans ((run_bind_ok (run_identity32 _ 1024 (Nat.le_refl _))).trans ?_)
  refine (run_bind_ok (run_link32 1 1019 3 rfl _)).trans ((run_bind_ok (run_link32 3 0 0xfec00 rfl _)).trans ?_)
  refine (run_link32 3 512 0xfee00 rfl _).trans ?_
  congr 1
  simp only [Mm.setEntry, Mm.cleared, TablePtr.frame, s₀]
  congr 1
  funext f i
  have hent : Build.b32.entries = 1024 := rfl
  simp only [tables32, hent, Mm.boot]
  by_cases h1 : f = 1
  · subst h1
    by_cases h0 : i = 0
    · subst h0; rfl
    by_cases h19 : i = 1019
    · subst h19; rfl
    · simp [h0, h19]
  by_cases h2 : f = 2
  · subst h2
    by_cases hi : i < 1024 <;> simp [hi]
  by_cases h3 : f = 3
  · subst h3
    by_cases h0 : i = 0
    · subst h0; rfl
    by_cases h512 : i = 512
    · subst h512; rfl
    · simp [h0, h512]
  · simp [h1, h2, h3]

/-- **The tables of the 32-bit build**: two entries of a cleared directory. -/
theorem initTables32_ends {E : Stop → Prop} (mem : Nat → Nat → Entry) (freemap : Nat → BitVec Build.b32.longBits) :
    Ends E (initTables .b32) (Mm.boot .b32 mem freemap) (fun s' _ => Booted s') := by
  refine Ends.of_run (run_initTables32 mem freemap) ⟨rfl, fun t π i ht hπ hi => ?_, ?_, rfl, rfl, rfl⟩
  · simp only [bootTables, List.mem_cons, Prod.mk.injEq, List.not_mem_nil, or_false] at ht
    rcases ht with ⟨rfl, rfl⟩ | ⟨-, rfl⟩ | ⟨-, rfl⟩
    · have hi : i < 1024 := hi
      show (tables32 mem 1 i).ps = false ∧ ((tables32 mem 1 i).p = true → ((tables32 mem 1 i).frame, [i]) ∈ bootTables .b32)
      rw [tables32, if_pos ⟨rfl, hi⟩]
      by_cases h : i = 0
      · subst h; decide
      by_cases h19 : i = 1019
      · subst h19; decide
      · simp [h19, h, Entry.zero]
    all_goals exact absurd hπ (by decide)
  · rfl

/-! ## The freemap -/

/-- Nothing but the freemap changed. -/
def FreemapOnly (s s' : Mm b) : Prop := ∃ m, s' = { s with freemap := m }

theorem FreemapOnly.trans {s s' s'' : Mm b} (h : FreemapOnly s s') (h' : FreemapOnly s' s'') : FreemapOnly s s'' := by
  obtain ⟨m, rfl⟩ := h
  obtain ⟨m', rfl⟩ := h'
  exact ⟨m', rfl⟩

theorem FreemapOnly.booted (h : FreemapOnly s s') (hb : Booted s) : Booted s' := by
  obtain ⟨m, rfl⟩ := h
  exact ⟨hb.pd1, hb.links, hb.win, hb.lastPt, hb.last4k, hb.next⟩

section Register
variable {E : Stop → Prop}

theorem setFree_ends (u : Nat) : Ends E (setFree u) s (fun s' _ => FreemapOnly s s') :=
  Ends.bind_of_run (run_get _ s) (Ends.put ⟨_, rfl⟩)

theorem registerUpper_ends : ∀ (n u count : Nat) (s : Mm b),
    Ends E (registerUpper n u count) s (fun s' _ => FreemapOnly s s')
  | 0, _, _, s => Ends.pure ⟨s.freemap, rfl⟩
  | n + 1, u, count, _ => Ends.bind (setFree_ends u) (fun s₁ _ h =>
      (registerUpper_ends n (u + 1) (count + 1) s₁).mono (fun _ _ h' => h.trans h'))

theorem registerFrame_ends (u count : Nat) : Ends E (registerFrame u count) s (fun s' _ => FreemapOnly s s') := by
  unfold registerFrame
  split
  · refine Ends.bind_of_run (run_get _ s) ?_
    split
    · exact Ends.bind (setFree_ends u) (fun _ _ h => Ends.pure h)
    · exact Ends.pure ⟨s.freemap, rfl⟩
  · exact Ends.pure ⟨s.freemap, rfl⟩

theorem registerEntry_ends (hE : E .fuel) (last : BitVec 64) : ∀ (fuel : Nat) (u : BitVec 32) (count : Nat) (s : Mm b),
    Ends E (registerEntry last fuel u count) s (fun s' _ => FreemapOnly s s')
  | 0, _, _, _ => Ends.stop hE
  | fuel + 1, u, count, s => by
    unfold registerEntry
    split
    · exact Ends.bind (registerFrame_ends u.toNat count) (fun s₁ c h =>
        (registerEntry_ends hE last fuel (u + 1) c s₁).mono (fun _ _ h' => h.trans h'))
    · exact Ends.pure ⟨s.freemap, rfl⟩

theorem registerMap_ends (hE : E .fuel) (fuel : Nat) (mbi : MultibootInfo) : ∀ (n p count : Nat) (s : Mm b),
    Ends E (registerMap fuel mbi n p count) s (fun s' _ => FreemapOnly s s')
  | 0, _, _, _ => Ends.stop hE
  | n + 1, p, count, s => by
    unfold registerMap
    split
    · refine Ends.bind (Q := fun s' _ => FreemapOnly s s') ?_ (fun s₁ c h =>
        (registerMap_ends hE fuel mbi n _ c s₁).mono (fun _ _ h' => h.trans h'))
      split
      · exact registerEntry_ends hE _ fuel _ count s
      · exact Ends.pure ⟨s.freemap, rfl⟩
    · exact Ends.pure ⟨s.freemap, rfl⟩

/-- After the tables `mm_init` changes nothing but the freemap; only the memory map can keep it from returning. -/
theorem mmInit_after {P : Mm b → Prop} (fuel : Nat) (mbi : MultibootInfo) (hE : isBitSet mbi.flags 6 = true → E .fuel)
    (ht : Ends E (initTables b) s (fun s' _ => P s')) :
    Ends E (mmInit fuel mbi) s (fun s' _ => ∃ s₁, P s₁ ∧ FreemapOnly s₁ s') := by
  refine Ends.bind ht (fun s₁ _ h₁ => ?_)
  refine Ends.bind (Ends.forN (fun _ s' => FreemapOnly s₁ s') ⟨s₁.freemap, rfl⟩
    (fun i t _ ht => Ends.put (ht.trans ⟨_, rfl⟩))) (fun s₂ _ h₂ => ?_)
  refine Ends.bind (Q := fun s' _ => FreemapOnly s₁ s') ?_ (fun s₃ count h₃ => ?_)
  · split
    · exact (registerUpper_ends _ _ _ s₂).mono (fun _ _ h => h₂.trans h)
    · exact Ends.pure h₂
  · split
    · rename_i h6
      exact (registerMap_ends (hE h6) fuel mbi fuel _ count s₃).mono (fun _ _ h => ⟨s₁, h₁, h₃.trans h⟩)
    · exact Ends.pure ⟨s₁, h₁, h₃⟩

theorem initTables_booted (mem : Nat → Nat → Entry) (freemap : Nat → BitVec b.longBits) :
    Ends E (initTables b) (Mm.boot b mem freemap) (fun s' _ => Booted s') := by
  cases b with
  | b32 => exact initTables32_ends mem freemap
  | b64 => exact Ends.put (booted64 mem freemap)

/-- `mm_init`, whatever the memory map and whatever was in memory, leaves the tables of `bootTables`. -/
theorem mmInit_booted (mem : Nat → Nat → Entry) (freemap : Nat → BitVec b.longBits) (fuel : Nat) (mbi : MultibootInfo)
    (hE : isBitSet mbi.flags 6 = true → E .fuel) :
    Ends E (mmInit fuel mbi) (Mm.boot b mem freemap) (fun s' _ => Booted s') :=
  (mmInit_after fuel mbi hE (initTables_booted mem freemap)).mono (fun _ _ ⟨_, h₁, h⟩ => h.booted h₁)

/-- **`mm_init` leaves the invariant.** -/
theorem mmInit_ends (mem : Nat → Nat → Entry) (freemap : Nat → BitVec b.longBits) (fuel : Nat) (mbi : MultibootInfo)
    (hE : isBitSet mbi.flags 6 = true → E .fuel) :
    Ends E (mmInit fuel mbi) (Mm.boot b mem freemap) (fun s' _ => Heap s') :=
  (mmInit_booted mem freemap fuel mbi hE).mono (fun _ _ h => h.heap)

end Register
end SmpBoot
