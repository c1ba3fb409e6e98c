import SmpBoot.MmShared
/-!
# MmWalk — `virt_to_phys` is the processor's walk

Every table below the first is read through the one window page, which is re-pointed on the way down.  That is harmless as
long as the walk does not read the window's own entry: `look_ends`, by induction on the levels, has the code's state differ
from the one the walk is taken in by that entry only.
-/
namespace SmpBoot

open Resume Resume.Prog OneLock Interleave

variable {b : Build} {s s' s'' : Mm b} {ι : Type} [DecidableEq ι]

/-! ## The walk -/

/-- The entries the processor's walk reads, as table and index. -/
def Mm.readsFrom (s : Mm b) (adr : Nat) : (k t : Nat) → List (Nat × Nat)
  | 0,     t => [(t, levelIndex b 0 adr)]
  | k + 1, t =>
    let e := s.mem t (levelIndex b (k + 1) adr)
    (t, levelIndex b (k + 1) adr) :: if e.p = true ∧ e.ps = false then s.readsFrom adr k e.frame else []

def Mm.reads (s : Mm b) (adr : Nat) : List (Nat × Nat) := s.readsFrom adr b.depth s.pd1

/-- The walk ends at an entry that is not present. -/
def Mm.absentFrom (s : Mm b) (adr : Nat) : (k t : Nat) → Prop
  | 0,     t => (s.mem t (levelIndex b 0 adr)).p = false
  | k + 1, t =>
    let e := s.mem t (levelIndex b (k + 1) adr)
    e.p = false ∨ e.ps = false ∧ s.absentFrom adr k e.frame

def Mm.absent (s : Mm b) (adr : Nat) : Prop := s.absentFrom adr b.depth s.pd1

/-- The entries of the walk, the page's own last; nothing if the access faults. -/
def Mm.entriesFrom (s : Mm b) (adr : Nat) : (k t : Nat) → Option (List Entry)
  | 0,     t =>
    let e := s.mem t (levelIndex b 0 adr)
    if e.p = true then some [e] else none
  | k + 1, t =>
    let e := s.mem t (levelIndex b (k + 1) adr)
    if e.p = false then none
    else if e.ps = true then if k + 1 < 3 then some [e] else none
    else (s.entriesFrom adr k e.frame).map (e :: ·)

/-- The entries of the walk for a virtual page. -/
def Mm.pathTo (s : Mm b) (page : Nat) : Option (List Entry) := s.entriesFrom (page * pageSize) b.depth s.pd1

/-- The frame fields are as wide as `mm_struct.h` makes them. -/
def FieldsFit (s : Mm b) : Prop := ∀ f i, (s.mem f i).frame < 2 ^ b.frameBits

/-- At most the window's entry changed. -/
def WindowOnly (s s' : Mm b) : Prop := ∃ e, s' = s.setEntry b.mapTable tmpPage e

theorem WindowOnly.refl (s : Mm b) : WindowOnly s s := by
  refine ⟨s.mem b.mapTable tmpPage, ?_⟩
  cases s
  simp only [Mm.setEntry, Mm.mk.injEq, and_self, and_true]
  funext g j
  by_cases h : g = b.mapTable ∧ j = tmpPage
  · rw [if_pos h, h.1, h.2]
  · rw [if_neg h]

theorem WindowOnly.trans (h : WindowOnly s s') (h' : WindowOnly s' s'') : WindowOnly s s'' := by
  obtain ⟨e, rfl⟩ := h
  obtain ⟨e', rfl⟩ := h'
  exact ⟨e', setEntry_setEntry _ _ e e'⟩

theorem windowOnly_withWindow (s : Mm b) (f : Nat) : WindowOnly s (s.withWindow f) := by
  obtain ⟨e, he, -⟩ := withWindow_eq (s := s) f
  exact ⟨e, he⟩

theorem WindowOnly.mem_eq (h : WindowOnly s s') {f i : Nat} (hne : (f, i) ≠ (b.mapTable, tmpPage)) :
    s'.mem f i = s.mem f i := by
  obtain ⟨e, rfl⟩ := h
  rw [setEntry_mem, if_neg (fun hh => hne (by rw [hh.1, hh.2]))]

/-! ## The offsets -/

theorem offset_eq (adr : Nat) : offset adr = adr % pageSize := Nat.and_two_pow_sub_one_eq_mod adr pageBits

theorem offset2_eq (b : Build) (adr : Nat) : offset2 b adr = adr % 2 ^ (pageBits + b.indexBits) := by
  have hmask : ((2 ^ b.indexBits - 1) <<< pageBits) ||| (pageSize - 1) = 2 ^ (pageBits + b.indexBits) - 1 := by
    cases b <;> decide
  rw [offset2, hmask, Nat.and_two_pow_sub_one_eq_mod]

theorem offset1G_eq (adr : Nat) : offset1G adr = adr % 2 ^ (pageBits + 2 * Build.b64.indexBits) := by
  have hmask : ((2 ^ Build.b64.indexBits - 1) <<< (pageBits + Build.b64.indexBits)) |||
      ((2 ^ Build.b64.indexBits - 1) <<< pageBits) ||| (pageSize - 1) = 2 ^ (pageBits + 2 * Build.b64.indexBits) - 1 := by
    decide
  rw [offset1G, hmask, Nat.and_two_pow_sub_one_eq_mod]

/-! ## The levels of `virt_to_phys` -/

/-- The result at a huge page of the `k`-th level. -/
def hugeAdr (b : Build) (k adr frame : Nat) : Nat :=
  if k = 1 then ((frame >>> b.indexBits) <<< (pageBits + b.indexBits)) + offset2 b adr
  else ((frame >>> (2 * b.indexBits)) <<< (pageBits + 2 * b.indexBits)) + offset1G adr

/-- `virt_to_phys` from the `k`-th level from below on, with `t` pointing to the table there. -/
def look (b : Build) (adr : Nat) : (k : Nat) → (t : TablePtr) → MmProg b Nat
  | 0,     t => do
    let e ← entry t (levelIndex b 0 adr)
    if e.p = false then pure 0 else do
    let e ← entry t (levelIndex b 0 adr)
    pure ((e.frame <<< pageBits) + offset adr)
  | k + 1, t => do
    let e ← entry t (levelIndex b (k + 1) adr)
    if e.p = false then pure 0 else do
    if k + 1 < 3 then do
      let e ← entry t (levelIndex b (k + 1) adr)
      if e.ps then do
        let e ← entry t (levelIndex b (k + 1) adr)
        pure (hugeAdr b (k + 1) adr e.frame)
      else do
      let e ← entry t (levelIndex b (k + 1) adr)
      let next ← mapTemporary e.frame
      look b adr k next
    else do
    let e ← entry t (levelIndex b (k + 1) adr)
    let next ← mapTemporary e.frame
    look b adr k next

theorem virtToPhys_eq (b : Build) (adr : Nat) : virtToPhys b adr = pd1Ptr >>= look b adr b.depth := by
  cases b <;> rfl

theorem hugeAdr_eq {k : Nat} (hk : k + 1 ≤ b.depth) (h3 : k + 1 < 3) (adr frame : Nat) : hugeAdr b (k + 1) adr frame =
    (frame >>> ((k + 1) * b.indexBits)) * 2 ^ (pageBits + (k + 1) * b.indexBits) +
      adr % 2 ^ (pageBits + (k + 1) * b.indexBits) := by
  unfold hugeAdr
  cases k with
  | zero => rw [if_pos rfl, offset2_eq, Nat.shiftLeft_eq, Nat.zero_add, Nat.one_mul]
  | succ k =>
    have hk1 : k = 0 := by omega
    subst hk1
    cases b with
    | b32 => exact absurd hk (by decide)
    | b64 => rw [if_neg (by decide), offset1G_eq, Nat.shiftLeft_eq]

section Look
variable {adr : Nat}

theorem run_descend (k i : Nat) (p : TablePtr) (s' : Mm b) :
    (entry p i >>= fun e => mapTemporary e.frame >>= fun next => look b adr k next).run s' =
      (look b adr k .tmpMap).run (s'.withWindow (s'.mem (p.frame s') i).frame) := by
  rw [run_bind_ok (run_entry p i), run_bind_ok (run_mapTemporary _)]

/-- What a level of `virt_to_phys` does, in a state that differs from `s` in the window only. -/
structure Looked (s s'' : Mm b) (adr k t r : Nat) : Prop where
  only   : WindowOnly s s''
  result : (b.mapTable, tmpPage) ∉ s.readsFrom adr k t →
    (∀ x, s.translateFrom adr k t = some x → r = x) ∧ (s.absentFrom adr k t → r = 0)

/-- A walk that does not read the window's entry finds the entries of `s`. -/
theorem WindowOnly.mem_walk {s' : Mm b} (hw : WindowOnly s s') {k t : Nat}
    (hr : (b.mapTable, tmpPage) ∉ s.readsFrom adr k t) :
    s'.mem t (levelIndex b k adr) = s.mem t (levelIndex b k adr) := by
  cases k with
  | zero => exact hw.mem_eq (fun hh => hr (List.mem_singleton.2 hh.symm))
  | succ k => exact hw.mem_eq (fun hh => hr (List.mem_cons.2 (.inl hh.symm)))

/-- Where an entry is absent the code returns 0. -/
theorem Looked.absent {s' : Mm b} (hw : WindowOnly s s') {k t : Nat} (habs : (s'.mem t (levelIndex b k adr)).p = false) :
    Looked s s' adr k t 0 := by
  refine ⟨hw, fun hr => ⟨fun x hx => ?_, fun _ => rfl⟩⟩
  rw [hw.mem_walk hr] at habs
  cases k <;> simp [Mm.translateFrom, habs] at hx

theorem Looked.page {s' : Mm b} (hw : WindowOnly s s') {t : Nat} (hp : (s'.mem t (levelIndex b 0 adr)).p = true) :
    Looked s s' adr 0 t (((s'.mem t (levelIndex b 0 adr)).frame <<< pageBits) + offset adr) := by
  refine ⟨hw, fun hr => ?_⟩
  rw [hw.mem_walk hr] at hp ⊢
  constructor
  · intro x hx
    simp only [Mm.translateFrom, hp, if_true, Option.some.injEq] at hx
    rw [← hx, Nat.shiftLeft_eq, offset_eq]
    rfl
  · intro habs
    have habs : (s.mem t (levelIndex b 0 adr)).p = false := habs
    rw [hp] at habs
    cases habs

theorem Looked.huge {s' : Mm b} (hw : WindowOnly s s') {k t : Nat} (hk : k + 1 ≤ b.depth) (h3 : k + 1 < 3)
    (hp : (s'.mem t (levelIndex b (k + 1) adr)).p = true) (hps : (s'.mem t (levelIndex b (k + 1) adr)).ps = true) :
    Looked s s' adr (k + 1) t (hugeAdr b (k + 1) adr (s'.mem t (levelIndex b (k + 1) adr)).frame) := by
  refine ⟨hw, fun hr => ?_⟩
  rw [hw.mem_walk hr] at hp hps ⊢
  constructor
  · intro x hx
    simp only [Mm.translateFrom, hp, hps, h3, Bool.true_eq_false, if_false, if_true, Option.some.injEq] at hx
    rw [← hx, hugeAdr_eq hk h3]
  · rintro (habs | ⟨habs, -⟩)
    · rw [hp] at habs; cases habs
    · rw [hps] at habs; cases habs

/-- One level up: the code went down from a present entry that is not a huge page's.  At the fourth level it does so even
where the processor faults. -/
theorem Looked.up {k t f r : Nat} (h : Looked s s'' adr k f r)
    (hr : (b.mapTable, tmpPage) ∉ s.readsFrom adr (k + 1) t → f = (s.mem t (levelIndex b (k + 1) adr)).frame ∧
      (s.mem t (levelIndex b (k + 1) adr)).p = true ∧ ((s.mem t (levelIndex b (k + 1) adr)).ps = true → ¬ k + 1 < 3)) :
    Looked s s'' adr (k + 1) t r := by
  refine ⟨h.only, fun hw => ?_⟩
  obtain ⟨rfl, hp, hps⟩ := hr hw
  cases hh : (s.mem t (levelIndex b (k + 1) adr)).ps with
  | true =>
    have h3 := hps hh
    constructor
    · intro x hx
      simp [Mm.translateFrom, hp, hh, h3] at hx
    · rintro (habs | ⟨habs, -⟩)
      · rw [hp] at habs; cases habs
      · rw [hh] at habs; cases habs
  | false =>
    have hrest : (b.mapTable, tmpPage) ∉ s.readsFrom adr k (s.mem t (levelIndex b (k + 1) adr)).frame := by
      intro hin
      refine hw (List.mem_cons_of_mem _ ?_)
      rw [if_pos ⟨hp, hh⟩]
      exact hin
    obtain ⟨h1, h2⟩ := h.result hrest
    constructor
    · intro x hx
      apply h1
      simpa [Mm.translateFrom, hp, hh] using hx
    · rintro (habs | ⟨-, habs⟩)
      · rw [hp] at habs; cases habs
      · exact h2 habs

/-- **From any level down, the code and the processor end alike.** -/
theorem run_look (hf : FieldsFit s) : ∀ (k t : Nat) (p : TablePtr) (s' : Mm b), k ≤ b.depth → WindowOnly s s' →
    p.frame s' = t → ∃ s'' r, (look b adr k p).run s' = (s'', .ok r) ∧ Looked s s'' adr k t r
  | 0, t, p, s', _, hw, hp => by
    rw [look, run_bind_ok (run_entry p _), hp]
    split
    · rename_i habs
      exact ⟨s', 0, rfl, .absent hw habs⟩
    · rename_i hpres
      rw [run_bind_ok (run_entry p _), hp]
      exact ⟨s', _, rfl, .page hw (Bool.eq_true_of_not_eq_false hpres)⟩
  | k + 1, t, p, s', hk, hw, hp => by
    -- the way down: the window shows the next table, if the entry was not the window's own
    have hdown : ∃ s'' r, (look b adr k .tmpMap).run (s'.withWindow (s'.mem t (levelIndex b (k + 1) adr)).frame) =
        (s'', .ok r) ∧ Looked s s'' adr k
          (TablePtr.frame (s'.withWindow (s'.mem t (levelIndex b (k + 1) adr)).frame) .tmpMap) r :=
      run_look hf k _ .tmpMap _ (by omega) (hw.trans (windowOnly_withWindow s' _)) rfl
    have hshow : (b.mapTable, tmpPage) ∉ s.readsFrom adr (k + 1) t →
        TablePtr.frame (s'.withWindow (s'.mem t (levelIndex b (k + 1) adr)).frame) .tmpMap =
          (s.mem t (levelIndex b (k + 1) adr)).frame := by
      intro hr
      rw [hw.mem_walk hr]
      exact window_withWindow (hf _ _)
    rw [look, run_bind_ok (run_entry p _), hp]
    split
    · rename_i habs
      exact ⟨s', 0, rfl, .absent hw habs⟩
    · rename_i hpres
      rw [Bool.not_eq_false] at hpres
      split
      · rename_i h3
        rw [run_bind_ok (run_entry p _), hp]
        split
        · rename_i hps
          rw [run_bind_ok (run_entry p _), hp]
          exact ⟨s', _, rfl, .huge hw hk h3 hpres hps⟩
        · rename_i hps
          rw [run_descend, hp]
          obtain ⟨s'', r, h1, h2⟩ := hdown
          refine ⟨s'', r, h1, h2.up (fun hr => ⟨hshow hr, ?_, fun hh => ?_⟩)⟩
          · rw [← hw.mem_walk hr]; exact hpres
          · rw [← hw.mem_walk hr] at hh; exact absurd hh hps
      · rename_i h3
        rw [run_descend, hp]
        obtain ⟨s'', r, h1, h2⟩ := hdown
        refine ⟨s'', r, h1, h2.up (fun hr => ⟨hshow hr, ?_, fun _ => h3⟩)⟩
        rw [← hw.mem_walk hr]
        exact hpres

end Look

/-- What `virt_to_phys` did to the memory manager, and what it returned. -/
structure Translated (s s' : Mm b) (adr r : Nat) : Prop where
  /-- The physical address, if the walk reaches one. -/
  found   : ∀ x, s.translate adr = some x → r = x
  /-- 0, if an entry of the walk is not present. -/
  missing : s.absent adr → r = 0
  /-- No entry but the window's changed. -/
  entries : ∀ f i, (f, i) ≠ (b.mapTable, tmpPage) → s'.mem f i = s.mem f i
  rest    : s'.freemap = s.freemap ∧ s'.lastFramePt = s.lastFramePt ∧ s'.lastFrame4k = s.lastFrame4k ∧
    s'.nextVirtPage = s.nextVirtPage ∧ s'.pd1 = s.pd1

/-- **`virt_to_phys` executed alone.** -/
theorem run_virtToPhys (hf : FieldsFit s) {adr : Nat} (hr : (b.mapTable, tmpPage) ∉ s.reads adr) :
    ∃ s' r, (virtToPhys b adr).run s = (s', .ok r) ∧ Translated s s' adr r := by
  obtain ⟨s', r, h1, h2⟩ := run_look hf b.depth s.pd1 (.phys s.pd1) s (Nat.le_refl _) (WindowOnly.refl s) rfl
  obtain ⟨h3, h4⟩ := h2.result hr
  refine ⟨s', r, ?_, h3, h4, fun f i hne => h2.only.mem_eq hne, ?_⟩
  · rw [virtToPhys_eq]
    exact (run_bind_ok (run_get _ s)).trans h1
  · obtain ⟨e, rfl⟩ := h2.only
    exact ⟨rfl, rfl, rfl, rfl, rfl⟩

/-- **`virt_to_phys` is the processor's walk.**  A CPU that calls it while `pt_mutex` is free, and is left alone, returns with
`pt_mutex` free again; the result is the physical address, or 0 if an entry of the walk is not present. -/
theorem virtToPhys_translates (fuel : Nat) (mbi : MultibootInfo) {c : Sys ι (Mm b) Stop Call Ret} {i : ι} {adr : Nat}
    (hlock : c.lock = 1) (hpc : (c.thr i).pc = .want (.heap (.virtToPhys adr))) (hf : FieldsFit c.mem)
    (hr : (b.mapTable, tmpPage) ∉ c.mem.reads adr) :
    ∃ n c' r, exec (step (Call.body fuel mbi)) c (List.replicate n i) = some c' ∧ c'.lock = 1 ∧
      c'.thr i = ⟨(c.thr i).todo, (c.thr i).done ++ [(.heap (.virtToPhys adr), .heap (.phys r))], .out⟩ ∧
      (∀ j, j ≠ i → c'.thr j = c.thr j) ∧ Translated c.mem c'.mem adr r := by
  obtain ⟨s', r, h1, h2⟩ := run_virtToPhys hf hr
  have hbody : (Call.body fuel mbi (.heap (.virtToPhys adr))).run c.mem = (s', .ok (.heap (.phys r))) := by
    have hcall : (HeapCall.body (.virtToPhys adr)).run c.mem = (s', .ok (.phys r)) := run_bind_ok h1
    exact run_bind_ok hcall
  obtain ⟨n, c', h3, h4, h5, h6, h7⟩ := exec_call hlock hpc hbody
  exact ⟨n, c', r, h3, h4, h6, h7, by rw [h5]; exact h2⟩

/-- The tables of `start64.asm`, and one CPU about to call `virt_to_phys`. -/
def oneCall : Sys (Fin 1) (Mm .b64) Stop Call Ret where
  lock := 1
  mem  := { Mm.boot .b64 (fun _ _ => .zero) (fun _ => 0) with pd1 := 1 }
  thr  := fun _ => ⟨[], [], .want (.heap (.virtToPhys 0x1234))⟩

theorem oneCall_fits : FieldsFit oneCall.mem := by
  intro f i
  have hid : i < 512 → (Entry.ofWord (0x3 + 0x1000 * i)).frame < 2 ^ 40 := by
    intro hi
    simp only [Entry.ofWord, Nat.shiftRight_eq_div_pow]
    omega
  change (paging64 (fun _ _ => .zero) f i).frame < 2 ^ 40
  unfold paging64
  repeat' split
  all_goals first | exact hid ‹_› | decide | exact Nat.two_pow_pos 40

theorem oneCall_translates : ∃ n c' r,
    exec (step (Call.body 0 twoCpus.mbi)) oneCall (List.replicate n 0) = some c' ∧ c'.lock = 1 ∧
      c'.thr 0 = ⟨[], [(.heap (.virtToPhys 0x1234), .heap (.phys r))], .out⟩ ∧
      (∀ j, j ≠ 0 → c'.thr j = oneCall.thr j) ∧ Translated oneCall.mem c'.mem 0x1234 r :=
  virtToPhys_translates 0 twoCpus.mbi rfl rfl oneCall_fits (by decide)

end SmpBoot
