import SmpBoot.Space32
/-!
# Reconf — `heap_reconfig` and `tlb_shootdown` on a range of addresses

Both round the start down and the size up and go through the pages of the rounded range (`Looped`).  Those are pages that
intersect the given range, but where the offset of the start and that of the last byte together reach a page, the last page
is not among them (`looped_iff`).  `Upto` says how the tables stand after some of the pages: an entry has the modes asked
for if it is the entry of one of them, and is as it was if not.  Of the window's own entry, which every walk stores in, it says
nothing: what the walks read there is `AtWindow`.
-/
namespace SmpBoot

open Resume Resume.Prog

variable {b : Build} {s s' s₁ : Mm b} {adr size v flags : Nat}

/-! ## The pages of a range -/

/-- A byte of the range lies in the page. -/
def Intersects (adr size v : Nat) : Prop := ∃ x, adr ≤ x ∧ x < adr + size ∧ x / pageSize = v

/-- The pages the loops go through. -/
def Looped (adr size v : Nat) : Prop :=
  adr / pageSize ≤ v ∧ v < adr / pageSize + (size + (pageSize - 1)) / pageSize

/-- The offset of the start and that of the last byte make less than a page together. -/
def Covers (adr size : Nat) : Prop := adr % pageSize + (size - 1) % pageSize < pageSize

instance (adr size : Nat) : Decidable (Covers adr size) := inferInstanceAs (Decidable (_ < _))

def lastPage (adr size : Nat) : Nat := (adr + size - 1) / pageSize

theorem intersects_iff (h : 1 ≤ size) : Intersects adr size v ↔ adr / pageSize ≤ v ∧ v ≤ lastPage adr size := by
  have hps : pageSize = 4096 := rfl
  unfold Intersects lastPage
  rw [hps]
  constructor
  · rintro ⟨x, h1, h2, rfl⟩
    omega
  · rintro ⟨h1, h2⟩
    by_cases hs : adr ≤ v * 4096
    · exact ⟨v * 4096, hs, by omega, by omega⟩
    · exact ⟨adr, Nat.le_refl _, by omega, by omega⟩

/-- **The pages the loops go through are those of the range, but for the last one.** -/
theorem looped_iff (h : 1 ≤ size) : Looped adr size v ↔
    Intersects adr size v ∧ (Covers adr size ∨ v ≠ lastPage adr size) := by
  have hps : pageSize = 4096 := rfl
  rw [intersects_iff h]
  unfold Looped Covers lastPage
  rw [hps]
  omega

theorem lastPage_intersects (h : 1 ≤ size) : Intersects adr size (lastPage adr size) := by
  have hps : pageSize = 4096 := rfl
  rw [intersects_iff h]
  unfold lastPage
  rw [hps]
  omega

/-- The bounds of the loops. -/
theorem rounded_range (hwrap : adr + size + 4095 < 2 ^ b.longBits) :
    roundDown adr = adr / pageSize * pageSize ∧
    (roundDown adr + roundDown ((size + (pageSize - 1)) % 2 ^ b.longBits)) % 2 ^ b.longBits =
      (adr / pageSize + (size + (pageSize - 1)) / pageSize) * pageSize ∧
    (adr / pageSize + (size + (pageSize - 1)) / pageSize) * pageSize < 2 ^ b.longBits := by
  have hps : pageSize = 4096 := rfl
  rw [hps, roundDown_eq, roundDown_eq, Nat.mod_eq_of_lt (show size + (4096 - 1) < 2 ^ b.longBits by omega),
    Nat.mod_eq_of_lt (by omega)]
  omega

/-- The passes of the loops are fewer than there are pages. -/
theorem pages_lt (hwrap : adr + size + 4095 < 2 ^ b.longBits) :
    (size + (pageSize - 1)) / pageSize < 2 ^ b.longBits / pageSize := by
  have hps : pageSize = 4096 := rfl
  rw [hps]
  cases b <;> simp only [Build.longBits] at hwrap ⊢ <;> omega

/-! ## The entry of a page -/

/-- The entry the processor's walk ends at, as table and index; nothing if the access faults. -/
def Mm.slotFrom (s : Mm b) (adr : Nat) : (k t : Nat) → Option (Nat × Nat)
  | 0,     t => if (s.mem t (levelIndex b 0 adr)).p = true then some (t, levelIndex b 0 adr) else none
  | k + 1, t =>
    let e := s.mem t (levelIndex b (k + 1) adr)
    if e.p = false then none
    else if e.ps = true then if k + 1 < 3 then some (t, levelIndex b (k + 1) adr) else none
    else s.slotFrom adr k e.frame

def Mm.slotOf (s : Mm b) (v : Nat) : Option (Nat × Nat) := s.slotFrom (v * pageSize) b.depth s.pd1

/-- The entry that is read while the window's own entry is `w`. -/
def Mm.readAs (s : Mm b) (w : Entry) (t i : Nat) : Entry := if (t, i) = (b.mapTable, tmpPage) then w else s.mem t i

/-- The window's entry, `w` before, when the window shows `f`. -/
def showing (b : Build) (f : Nat) (w : Entry) : Entry := if w.frame ≠ f then windowEntry b f w else w

/-- The entry `reconf_adr` ends at, and how it leaves the window's own entry, `w` before: it takes no notice of `ps`, and a walk
that goes through the window's entry reads there what it has itself stored. -/
def Mm.confFrom (s : Mm b) (adr : Nat) : (k t : Nat) → (w : Entry) → Option (Nat × Nat) × Entry
  | 0,     t, w => (if (s.readAs w t (levelIndex b 0 adr)).p = true then some (t, levelIndex b 0 adr) else none, w)
  | k + 1, t, w =>
    let e := s.readAs w t (levelIndex b (k + 1) adr)
    if e.p = false then (none, w) else s.confFrom adr k e.frame (showing b e.frame w)

/-- The entries that `reconf_adr` ends at for `n` pages, one after the other. -/
def Mm.confSlots (s : Mm b) : (n v : Nat) → (w : Entry) → List (Nat × Nat)
  | 0,     _, _ => []
  | n + 1, v, w =>
    let r := s.confFrom (v * pageSize) b.depth s.pd1 w
    r.1.toList ++ s.confSlots n (v + 1) r.2

/-- Those of the pages the loop goes through. -/
def Mm.loopSlots (s : Mm b) (adr size : Nat) : List (Nat × Nat) :=
  s.confSlots ((size + (pageSize - 1)) / pageSize) (adr / pageSize) (s.mem b.mapTable tmpPage)

/-- On its way down `reconf_adr` does not go through the window's own entry. -/
def Mm.clearFrom (s : Mm b) (adr : Nat) : (k t : Nat) → Prop
  | 0,     _ => True
  | k + 1, t =>
    let e := s.mem t (levelIndex b (k + 1) adr)
    (t, levelIndex b (k + 1) adr) ≠ (b.mapTable, tmpPage) ∧ (e.p = true → s.clearFrom adr k e.frame)

def Mm.clear (s : Mm b) (v : Nat) : Prop := s.clearFrom (v * pageSize) b.depth s.pd1

/-- The walk meets no huge page. -/
def Mm.plainFrom (s : Mm b) (adr : Nat) : (k t : Nat) → Prop
  | 0,     _ => True
  | k + 1, t =>
    let e := s.mem t (levelIndex b (k + 1) adr)
    e.p = true → e.ps = false ∧ s.plainFrom adr k e.frame

def Mm.plain (s : Mm b) (v : Nat) : Prop := s.plainFrom (v * pageSize) b.depth s.pd1

theorem confFrom_eq (adr : Nat) {x : Nat × Nat} (hx : x ≠ (b.mapTable, tmpPage)) : ∀ (k t : Nat) (w : Entry),
    s.plainFrom adr k t → s.clearFrom adr k t → ((s.confFrom adr k t w).1 = some x ↔ s.slotFrom adr k t = some x)
  | 0,     t, w, _, _ => by
    unfold Mm.confFrom Mm.slotFrom
    by_cases hw : (t, levelIndex b 0 adr) = (b.mapTable, tmpPage)
    · have hno : ∀ c : Prop, [Decidable c] → (if c then some (t, levelIndex b 0 adr) else none) ≠ some x := by
        intro c _ heq
        split at heq
        · exact hx ((Option.some.inj heq).symm.trans hw)
        · cases heq
      exact iff_of_false (hno _) (hno _)
    · rw [Mm.readAs, if_neg hw]
  | k + 1, t, w, hp, hc => by
    obtain ⟨hne, hdown⟩ := hc
    have hread : s.readAs w t (levelIndex b (k + 1) adr) = s.mem t (levelIndex b (k + 1) adr) := if_neg hne
    unfold Mm.confFrom Mm.slotFrom
    simp only [hread]
    cases hpr : (s.mem t (levelIndex b (k + 1) adr)).p with
    | false => simp
    | true =>
      obtain ⟨hps, hrest⟩ := hp hpr
      simpa [hps] using confFrom_eq adr hx k _ _ hrest (hdown hpr)

/-- **Without huge pages, and clear of the window's entry, `reconf_adr` finds the entry of each page.** -/
theorem mem_confSlots {x : Nat × Nat} (hx : x ≠ (b.mapTable, tmpPage)) : ∀ (n v : Nat) (w : Entry),
    (∀ u, v ≤ u → u < v + n → s.plain u ∧ s.clear u) →
    (x ∈ s.confSlots n v w ↔ ∃ u, v ≤ u ∧ u < v + n ∧ s.slotOf u = some x)
  | 0,     v, w, _ => by
    refine iff_of_false List.not_mem_nil ?_
    rintro ⟨u, h1, h2, -⟩
    omega
  | n + 1, v, w, h => by
    obtain ⟨hp, hc⟩ := h v (Nat.le_refl v) (by omega)
    have hhead := confFrom_eq (v * pageSize) hx b.depth s.pd1 w hp hc
    have htail := mem_confSlots hx n (v + 1) (s.confFrom (v * pageSize) b.depth s.pd1 w).2
      (fun u h1 h2 => h u (by omega) (by omega))
    unfold Mm.confSlots
    rw [List.mem_append, Option.mem_toList, hhead, htail]
    constructor
    · rintro (h1 | ⟨u, h1, h2, h3⟩)
      · exact ⟨v, Nat.le_refl v, by omega, h1⟩
      · exact ⟨u, by omega, by omega, h3⟩
    · rintro ⟨u, h1, h2, h3⟩
      by_cases hu : u = v
      · exact .inl (hu ▸ h3)
      · exact .inr ⟨u, by omega, by omega, h3⟩

theorem mem_loopSlots {x : Nat × Nat} (hx : x ≠ (b.mapTable, tmpPage))
    (h : ∀ v, Looped adr size v → s.plain v ∧ s.clear v) :
    x ∈ s.loopSlots adr size ↔ ∃ v, Looped adr size v ∧ s.slotOf v = some x := by
  rw [Mm.loopSlots, mem_confSlots hx _ _ _ (fun u h1 h2 => h u ⟨h1, h2⟩)]
  simp only [Looped, and_assoc]

/-- After the pages with the entries `S`. -/
structure Upto (s : Mm b) (flags : Nat) (S : Nat × Nat → Prop) (s₁ : Mm b) : Prop where
  set   : ∀ f i, (f, i) ≠ (b.mapTable, tmpPage) → S (f, i) → s₁.mem f i = setModes flags (s.mem f i)
  keeps : ∀ f i, (f, i) ≠ (b.mapTable, tmpPage) → ¬ S (f, i) → s₁.mem f i = s.mem f i
  pd1   : s₁.pd1 = s.pd1

section Upto
variable {S S' : Nat × Nat → Prop}

theorem Upto.refl (s : Mm b) (flags : Nat) : Upto s flags (fun _ => False) s :=
  ⟨fun _ _ _ h => h.elim, fun _ _ _ _ => rfl, rfl⟩

theorem Upto.congr (h : Upto s flags S s₁) (hS : ∀ x, x ≠ (b.mapTable, tmpPage) → (S x ↔ S' x)) : Upto s flags S' s₁ :=
  ⟨fun f i hw hs => h.set f i hw ((hS _ hw).2 hs), fun f i hw hs => h.keeps f i hw (fun hh => hs ((hS _ hw).1 hh)), h.pd1⟩

theorem Upto.window (h : Upto s flags S s₁) (hw : WindowOnly s₁ s') : Upto s flags S s' := by
  refine ⟨fun f i hne hs => ?_, fun f i hne hs => ?_, ?_⟩
  · rw [hw.mem_eq hne, h.set f i hne hs]
  · rw [hw.mem_eq hne, h.keeps f i hne hs]
  · obtain ⟨e, rfl⟩ := hw
    exact h.pd1

theorem Upto.setEntry (h : Upto s flags S s₁) {t i : Nat} (hw : (t, i) ≠ (b.mapTable, tmpPage)) :
    Upto s flags (fun x => S x ∨ some (t, i) = some x) (s₁.setEntry t i (setModes flags (s₁.mem t i))) := by
  refine ⟨fun f j hne hs => ?_, fun f j hne hs => ?_, h.pd1⟩
  · rw [setEntry_mem]
    split
    · rename_i heq
      obtain ⟨rfl, rfl⟩ := heq
      by_cases hS : S (f, j)
      · rw [h.set f j hne hS]
        rfl
      · rw [h.keeps f j hne hS]
    · rename_i hneq
      refine h.set f j hne (hs.resolve_right (fun hh => hneq ?_))
      cases Option.some.inj hh
      exact ⟨rfl, rfl⟩
  · rw [setEntry_mem, if_neg (fun hh => hs (.inr (by rw [hh.1, hh.2])))]
    exact h.keeps f j hne (fun hh => hs (.inl hh))

/-- The window's entry is `w`, but for the modes. -/
structure AtWindow (w : Entry) (s : Mm b) : Prop where
  p     : (s.mem b.mapTable tmpPage).p = w.p
  frame : (s.mem b.mapTable tmpPage).frame = w.frame
  fits  : w.frame < 2 ^ b.frameBits

/-- The walks go where they would go before, and through the window's entry. -/
theorem Upto.readAs (h : Upto s flags S s₁) {w : Entry} (hw : AtWindow w s₁) (f i : Nat) :
    (s₁.mem f i).p = (s.readAs w f i).p ∧ (s₁.mem f i).frame = (s.readAs w f i).frame := by
  unfold Mm.readAs
  split
  · rename_i hwin
    cases hwin
    exact ⟨hw.p, hw.frame⟩
  · rename_i hne
    by_cases hS : S (f, i)
    · rw [h.set f i hne hS]
      exact ⟨rfl, rfl⟩
    · rw [h.keeps f i hne hS]
      exact ⟨rfl, rfl⟩

theorem readAs_fits (hf : FieldsFit s) {w : Entry} (hw : AtWindow w s₁) (f i : Nat) :
    (s.readAs w f i).frame < 2 ^ b.frameBits := by
  unfold Mm.readAs
  split
  · exact hw.fits
  · exact hf f i

theorem AtWindow.showing {w : Entry} (h : AtWindow w s₁) {f : Nat} (hf : f < 2 ^ b.frameBits) :
    AtWindow (showing b f w) (s₁.withWindow f) := by
  have hmod : f % 2 ^ b.frameBits = f := Nat.mod_eq_of_lt hf
  unfold SmpBoot.showing Mm.withWindow
  rw [h.frame]
  split
  · exact ⟨by simp [windowEntry], by simp [windowEntry], by simpa [windowEntry, hmod] using hf⟩
  · exact h

end Upto

/-! ## One page -/

/-- `reconf_adr` from the `k`-th level from below on. -/
def conf (b : Build) (adr flags : Nat) : (k : Nat) → (t : TablePtr) → MmProg b Unit
  | 0,     t => reconfPage t (levelIndex b 0 adr) flags
  | k + 1, t => do
    let next ← findTable t (levelIndex b (k + 1) adr)
    ifMapped next (conf b adr flags k)

theorem reconfAdr_eq (b : Build) (adr : Nat) (h : flags - (flags &&& (mapPwt ||| mapPcd)) = 0) :
    reconfAdr b adr flags = pd1Ptr >>= conf b adr flags b.depth := by
  unfold reconfAdr
  rw [if_neg (by simp [h])]
  cases b <;> rfl

theorem run_findTable (t : TablePtr) (i : Nat) : (findTable t i).run s =
    if (s.mem (t.frame s) i).p = false then (s, .ok none)
    else (s.withWindow (s.mem (t.frame s) i).frame, .ok (some .tmpMap)) := by
  unfold findTable
  rw [run_bind_ok (run_entry t i)]
  split
  · rfl
  · rw [run_bind_ok (run_entry t i), run_bind_ok (run_mapTemporary _)]
    rfl

/-- The last level, where `reconf_adr` stores: in the window's own entry, or in another. -/
theorem run_confPage {t : Nat} {p : TablePtr} {S : Nat × Nat → Prop} {w : Entry} (h : Upto s flags S s₁)
    (hw : AtWindow w s₁) (hp : p.frame s₁ = t) :
    ∃ s₂, (conf b adr flags 0 p).run s₁ = (s₂, .ok ()) ∧
      Upto s flags (fun x => S x ∨ (s.confFrom adr 0 t w).1 = some x) s₂ ∧ AtWindow w s₂ := by
  refine ⟨_, run_reconfPage p _ flags, ?_⟩
  rw [hp, (h.readAs hw t (levelIndex b 0 adr)).1]
  unfold Mm.confFrom
  split
  · by_cases hwin : (t, levelIndex b 0 adr) = (b.mapTable, tmpPage)
    · obtain ⟨h1, h2⟩ := Prod.mk.inj hwin
      rw [h1, h2]
      constructor
      · refine (h.window ⟨_, rfl⟩).congr (fun x hx => (or_iff_left (fun hh => hx ?_)).symm)
        exact (Option.some.inj hh).symm
      · have hmem := setEntry_mem (s := s₁) b.mapTable tmpPage b.mapTable tmpPage
          (setModes flags (s₁.mem b.mapTable tmpPage))
        rw [if_pos ⟨rfl, rfl⟩] at hmem
        exact ⟨by rw [hmem]; exact hw.p, by rw [hmem]; exact hw.frame, hw.fits⟩
    · refine ⟨h.setEntry hwin, ?_⟩
      have hmem := setEntry_mem (s := s₁) t (levelIndex b 0 adr) b.mapTable tmpPage
        (setModes flags (s₁.mem t (levelIndex b 0 adr)))
      rw [if_neg (fun hh => hwin (by rw [hh.1, hh.2]))] at hmem
      exact ⟨by rw [hmem]; exact hw.p, by rw [hmem]; exact hw.frame, hw.fits⟩
  · exact ⟨h.congr (fun x _ => by simp), hw⟩

/-- **One page**: its entry, if it is mapped, gets the modes; the way down changes the window only. -/
theorem run_conf (hf : FieldsFit s) : ∀ (k t : Nat) (w : Entry) (p : TablePtr) (s₁ : Mm b) (S : Nat × Nat → Prop),
    Upto s flags S s₁ → AtWindow w s₁ → p.frame s₁ = t →
    ∃ s₂, (conf b adr flags k p).run s₁ = (s₂, .ok ()) ∧
      Upto s flags (fun x => S x ∨ (s.confFrom adr k t w).1 = some x) s₂ ∧ AtWindow (s.confFrom adr k t w).2 s₂
  | 0,     t, w, p, s₁, S, h, hw, hp => run_confPage h hw hp
  | k + 1, t, w, p, s₁, S, h, hw, hp => by
    obtain ⟨h1, h2⟩ := h.readAs hw t (levelIndex b (k + 1) adr)
    have hfit := readAs_fits hf hw t (levelIndex b (k + 1) adr)
    have hfind := run_findTable (s := s₁) p (levelIndex b (k + 1) adr)
    rw [hp, h1, h2] at hfind
    unfold Mm.confFrom
    simp only [conf]
    cases hpr : (s.readAs w t (levelIndex b (k + 1) adr)).p with
    | false =>
      rw [hpr, if_pos rfl] at hfind
      refine ⟨s₁, by rw [run_bind_ok hfind]; rfl, h.congr (fun x _ => by simp), hw⟩
    | true =>
      rw [hpr, if_neg (by simp)] at hfind
      obtain ⟨s₂, h3, h4, h5⟩ := run_conf hf k _ _ .tmpMap _ S (h.window (windowOnly_withWindow s₁ _))
        (hw.showing hfit) (window_withWindow hfit)
      exact ⟨s₂, by rw [run_bind_ok hfind]; exact h3, h4, h5⟩

theorem run_reconfAdr (hf : FieldsFit s) (hfl : flags - (flags &&& (mapPwt ||| mapPcd)) = 0)
    {S : Nat × Nat → Prop} (h : Upto s flags S s₁) {w : Entry} (hw : AtWindow w s₁) (v : Nat) :
    ∃ s₂, (reconfAdr b (v * pageSize) flags).run s₁ = (s₂, .ok ()) ∧
      Upto s flags (fun x => S x ∨ (s.confFrom (v * pageSize) b.depth s.pd1 w).1 = some x) s₂ ∧
      AtWindow (s.confFrom (v * pageSize) b.depth s.pd1 w).2 s₂ := by
  obtain ⟨s₂, h1, h2⟩ := run_conf hf b.depth s.pd1 w (.phys s₁.pd1) s₁ S h hw h.pd1
  refine ⟨s₂, ?_, h2⟩
  rw [reconfAdr_eq b _ hfl]
  exact (run_bind_ok (run_get _ s₁)).trans h1

/-! ## The range -/

theorem next_page {last n : Nat} (h : last = (v + (n + 1)) * pageSize) (hb : last < 2 ^ b.longBits) :
    (v * pageSize + pageSize) % 2 ^ b.longBits = (v + 1) * pageSize ∧ v * pageSize < last := by
  have hps : pageSize = 4096 := rfl
  rw [hps] at h ⊢
  rw [Nat.mod_eq_of_lt (by omega)]
  omega

/-- The loop of `heap_reconfig` over `n` pages. -/
theorem run_heapReconfigLoop (hf : FieldsFit s) (hfl : flags - (flags &&& (mapPwt ||| mapPcd)) = 0) {last : Nat}
    (hb : last < 2 ^ b.longBits) (n : Nat) : ∀ (fuel v : Nat) (w : Entry) (s₁ : Mm b) (S : Nat × Nat → Prop),
    Upto s flags S s₁ → AtWindow w s₁ → n < fuel → last = (v + n) * pageSize →
    ∃ s₂, (heapReconfigLoop flags last fuel (v * pageSize)).run s₁ = (s₂, .ok ()) ∧
      Upto s flags (fun x => S x ∨ x ∈ s.confSlots n v w) s₂ := by
  induction n with
  | zero =>
    intro fuel v w s₁ S h _ hn hl
    obtain ⟨m, rfl⟩ : ∃ m, fuel = m + 1 := ⟨fuel - 1, by omega⟩
    refine ⟨s₁, ?_, h.congr (fun x _ => (or_iff_left List.not_mem_nil).symm)⟩
    rw [heapReconfigLoop, if_neg (by rw [hl]; exact Nat.lt_irrefl _)]
    rfl
  | succ n ih =>
    intro fuel v w s₁ S h hw hn hl
    obtain ⟨m, rfl⟩ : ∃ m, fuel = m + 1 := ⟨fuel - 1, by omega⟩
    obtain ⟨hnext, hlt⟩ := next_page hl hb
    obtain ⟨s₂, h1, h2, h3⟩ := run_reconfAdr hf hfl h hw v
    obtain ⟨s₃, h4, h5⟩ := ih m (v + 1) _ s₂ _ h2 h3 (by omega) (by rw [hl]; congr 1; omega)
    refine ⟨s₃, ?_, h5.congr (fun x _ => ?_)⟩
    · rw [heapReconfigLoop, if_pos hlt, run_bind_ok h1, hnext]
      exact h4
    · rw [Mm.confSlots, List.mem_append, Option.mem_toList, or_assoc]

/-- The modes a caller asks for. -/
def requested (flags : Nat) (e : Entry) : Entry :=
  { e with pwt := flags &&& mmWriteThrough ≠ 0, pcd := flags &&& mmCacheDisable ≠ 0 }

theorem setModes_mapFlags (flags : Nat) (e : Entry) : setModes (mapFlags flags) e = requested flags e := by
  unfold setModes requested mapFlags
  by_cases h1 : flags &&& mmWriteThrough = 0 <;> by_cases h2 : flags &&& mmCacheDisable = 0 <;>
    simp [h1, h2, Entry.setPwt, Entry.setPcd, mapPwt, mapPcd]

theorem mapFlags_supported (flags : Nat) : mapFlags flags - (mapFlags flags &&& (mapPwt ||| mapPcd)) = 0 := by
  unfold mapFlags
  split <;> split <;> rfl

/-- `heap_reconfig` returns, and the tables are as after the pages its loop goes through. -/
theorem run_heapReconfig (hf : FieldsFit s) (hwrap : adr + size + 4095 < 2 ^ b.longBits) (flags : Nat) :
    ∃ s', (heapReconfig adr size flags).run s = (s', .ok ()) ∧
      Upto s (mapFlags flags) (fun x => x ∈ s.loopSlots adr size) s' := by
  obtain ⟨h1, h2, h3⟩ := rounded_range hwrap
  have hwin : AtWindow (s.mem b.mapTable tmpPage) s := ⟨rfl, rfl, hf _ _⟩
  obtain ⟨s', h4, h5⟩ :=
    run_heapReconfigLoop hf (mapFlags_supported flags) h3 _ _ _ _ s _ (Upto.refl s _) hwin (pages_lt hwrap) rfl
  refine ⟨s', ?_, h5.congr (fun x _ => iff_of_eq (false_or _))⟩
  unfold heapReconfig
  simp only [h2]
  rw [h1]
  exact h4

/-- What `heap_reconfig` should do. -/
structure Reconfigured (s s' : Mm b) (adr size flags : Nat) : Prop where
  /-- The mapped pages that intersect the range have the modes asked for, and the rest of their entries as it was. -/
  pages  : ∀ v f i, Intersects adr size v → s.slotOf v = some (f, i) → (f, i) ≠ (b.mapTable, tmpPage) →
    s'.mem f i = requested flags (s.mem f i)
  others : ∀ f i, (f, i) ≠ (b.mapTable, tmpPage) → (∀ v, Intersects adr size v → s.slotOf v ≠ some (f, i)) →
    s'.mem f i = s.mem f i

/-- The entries that need other modes are the same for the pages of the range, as the processor walks, and for the pages of the
loop, as `reconf_adr` does. -/
def SameEntries (s : Mm b) (adr size flags : Nat) : Prop :=
  ∀ f i, (f, i) ≠ (b.mapTable, tmpPage) → requested flags (s.mem f i) ≠ s.mem f i →
    ((∃ v, Intersects adr size v ∧ s.slotOf v = some (f, i)) ↔ (f, i) ∈ s.loopSlots adr size)

theorem Upto.reconfigured_iff (h : Upto s (mapFlags flags) (fun x => x ∈ s.loopSlots adr size) s') :
    Reconfigured s s' adr size flags ↔ SameEntries s adr size flags := by
  have hset : ∀ f i, (f, i) ≠ (b.mapTable, tmpPage) → (f, i) ∈ s.loopSlots adr size →
      s'.mem f i = requested flags (s.mem f i) := fun f i hw hv => (h.set f i hw hv).trans (setModes_mapFlags _ _)
  constructor
  · intro hr f i hw hneed
    constructor
    · rintro ⟨v, hv, hs⟩
      by_contra hno
      rw [← hr.pages v f i hv hs hw, h.keeps f i hw hno] at hneed
      exact hneed rfl
    · intro hl
      by_contra hno
      rw [← hset f i hw hl] at hneed
      exact hneed (hr.others f i hw (fun v hv hs => hno ⟨v, hv, hs⟩))
  · intro hsame
    constructor
    · intro v f i hv hs hw
      by_cases hl : (f, i) ∈ s.loopSlots adr size
      · exact hset f i hw hl
      · rw [h.keeps f i hw hl]
        by_contra hneed
        exact hl ((hsame f i hw (Ne.symm hneed)).1 ⟨v, hv, hs⟩)
    · intro f i hw hno
      by_cases hl : (f, i) ∈ s.loopSlots adr size
      · rw [hset f i hw hl]
        by_contra hneed
        obtain ⟨v, hv, hs⟩ := (hsame f i hw hneed).2 hl
        exact hno v hv hs
      · exact h.keeps f i hw hl

/-- The last page needs nothing: it is not mapped, or it has its entry in common with a page before it, or the modes asked for
already. -/
def LastDone (s : Mm b) (adr size flags : Nat) : Prop :=
  ∀ f i, s.slotOf (lastPage adr size) = some (f, i) → (f, i) ≠ (b.mapTable, tmpPage) →
    (∃ v, Looped adr size v ∧ s.slotOf v = some (f, i)) ∨ requested flags (s.mem f i) = s.mem f i

/-- **Without huge pages in the range**, and clear of the window's entry, only the last page can be missed. -/
theorem sameEntries_iff (hsize : 1 ≤ size) (hp : ∀ v, Intersects adr size v → s.plain v ∧ s.clear v) :
    SameEntries s adr size flags ↔ Covers adr size ∨ LastDone s adr size flags := by
  have hloop : ∀ {x}, x ≠ (b.mapTable, tmpPage) →
      (x ∈ s.loopSlots adr size ↔ ∃ v, Looped adr size v ∧ s.slotOf v = some x) :=
    fun hx => mem_loopSlots hx (fun v hl => hp v ((looped_iff hsize).1 hl).1)
  constructor
  · intro hsame
    refine .inr (fun f i hs hw => ?_)
    by_cases hneed : requested flags (s.mem f i) = s.mem f i
    · exact .inr hneed
    · exact .inl ((hloop hw).1 ((hsame f i hw hneed).1 ⟨_, lastPage_intersects hsize, hs⟩))
  · intro hc f i hw hneed
    rw [hloop hw]
    constructor
    · rintro ⟨v, hv, hs⟩
      by_cases hl : Looped adr size v
      · exact ⟨v, hl, hs⟩
      · rw [looped_iff hsize, not_and_or, not_or, not_ne_iff] at hl
        obtain ⟨hcov, rfl⟩ := hl.resolve_left (fun hh => hh hv)
        exact ((hc.resolve_left hcov) f i hs hw).resolve_right hneed
    · rintro ⟨v, hl, hs⟩
      exact ⟨v, ((looped_iff hsize).1 hl).1, hs⟩

/-- The tables of the memory manager have no huge pages, and no way down goes through the window's entry. -/
theorem Tables.plainFrom (h : Tables s) (adr : Nat) : ∀ (k : Nat) (π : List Nat) (t : Nat), π.length + k = b.depth →
    s.tableAt π = some t → s.plainFrom adr k t ∧ s.clearFrom adr k t
  | 0,     _, _, _,  _  => ⟨trivial, trivial⟩
  | k + 1, π, t, hk, ht => by
    have hi := levelIndex_lt b (k + 1) adr
    have hπ : π.length < b.depth := by omega
    have hne : t ≠ b.mapTable := h.ne_of_depth (length_winPath b) h.win hπ ht
    have hdown : (s.mem t (levelIndex b (k + 1) adr)).p = true →
        s.plainFrom adr k (s.mem t (levelIndex b (k + 1) adr)).frame ∧
          s.clearFrom adr k (s.mem t (levelIndex b (k + 1) adr)).frame := by
      intro hp
      have hchild := h.child_eq hπ ht hi
      rw [hp] at hchild
      exact h.plainFrom adr k _ _ (by simp; omega) hchild
    exact ⟨fun hp => ⟨h.noHuge π t _ hπ ht hi, (hdown hp).1⟩,
      fun hh => hne (Prod.mk.inj hh).1, fun hp => (hdown hp).2⟩

/-- So whatever `mm_init` and the heap calls left, only the last page of a range can be missed. -/
theorem Tables.sameEntries_iff (h : Tables s) (hsize : 1 ≤ size) :
    SameEntries s adr size flags ↔ Covers adr size ∨ LastDone s adr size flags :=
  SmpBoot.sameEntries_iff hsize (fun _ _ => h.plainFrom _ b.depth [] s.pd1 (by simp) rfl)

/-! ## `tlb_shootdown` -/

/-- The TLB of the calling CPU: the pages whose translation it holds. -/
abbrev Tlb := Nat → Bool

def invlpg (adr : Nat) : Prog Tlb Stop Unit := .put (fun t v => if v = adr / pageSize then false else t v)

/-- `for (p = adr; p < adr+size; p += PAGE_SIZE)`; `last` is `adr+size`. -/
def tlbShootdownLoop (b : Build) (last : Nat) : (fuel p : Nat) → Prog Tlb Stop Unit
  | 0,        _ => .stop .fuel
  | fuel + 1, p =>
    if p < last then do
      invlpg p
      tlbShootdownLoop b last fuel ((p + pageSize) % 2 ^ b.longBits)
    else pure ()

def tlbShootdown (b : Build) (adr size : Nat) : Prog Tlb Stop Unit :=
  let adr := roundDown adr
  let size := roundDown ((size + (pageSize - 1)) % 2 ^ b.longBits)
  tlbShootdownLoop b ((adr + size) % 2 ^ b.longBits) (2 ^ b.longBits / pageSize) adr

/-- `tlb_shootdown` invalidates exactly the pages that intersect the range. -/
def ShootsDown (b : Build) (adr size : Nat) : Prop :=
  ∀ t, ∃ t', (tlbShootdown b adr size).run t = (t', .ok ()) ∧
    ∀ v, (Intersects adr size v → t' v = false) ∧ (¬ Intersects adr size v → t' v = t v)

theorem run_invlpg (v : Nat) (t : Tlb) :
    (invlpg (v * pageSize)).run t = ((fun w => if w = v then false else t w), .ok ()) := by
  have hdiv : v * pageSize / pageSize = v := Nat.mul_div_cancel v (by decide)
  unfold invlpg
  rw [run_put, hdiv]

theorem run_tlbShootdownLoop {last : Nat} (hb : last < 2 ^ b.longBits) (n : Nat) : ∀ (fuel v : Nat) (t : Tlb), n < fuel →
    last = (v + n) * pageSize → ∃ t', (tlbShootdownLoop b last fuel (v * pageSize)).run t = (t', .ok ()) ∧
      ∀ w, (v ≤ w ∧ w < v + n → t' w = false) ∧ (¬ (v ≤ w ∧ w < v + n) → t' w = t w) := by
  induction n with
  | zero =>
    intro fuel v t hn hl
    obtain ⟨m, rfl⟩ : ∃ m, fuel = m + 1 := ⟨fuel - 1, by omega⟩
    refine ⟨t, ?_, fun w => ⟨fun hw => by omega, fun _ => rfl⟩⟩
    rw [tlbShootdownLoop, if_neg (by rw [hl]; exact Nat.lt_irrefl _)]
    rfl
  | succ n ih =>
    intro fuel v t hn hl
    obtain ⟨m, rfl⟩ : ∃ m, fuel = m + 1 := ⟨fuel - 1, by omega⟩
    obtain ⟨hnext, hlt⟩ := next_page hl hb
    obtain ⟨t', h1, h2⟩ := ih m (v + 1) (fun w => if w = v then false else t w) (by omega) (by rw [hl]; congr 1; omega)
    refine ⟨t', ?_, fun w => ?_⟩
    · rw [tlbShootdownLoop, if_pos hlt, run_bind_ok (run_invlpg v t), hnext]
      exact h1
    · by_cases hw : w = v
      · have hv := (h2 w).2 (by omega)
        rw [if_pos hw] at hv
        exact ⟨fun _ => hv, fun hno => absurd ⟨by omega, by omega⟩ hno⟩
      · obtain ⟨h3, h4⟩ := h2 w
        rw [if_neg hw] at h4
        exact ⟨fun hin => h3 (by omega), fun hno => h4 (by omega)⟩

theorem run_tlbShootdown (hwrap : adr + size + 4095 < 2 ^ b.longBits) (t : Tlb) :
    ∃ t', (tlbShootdown b adr size).run t = (t', .ok ()) ∧
      ∀ v, (Looped adr size v → t' v = false) ∧ (¬ Looped adr size v → t' v = t v) := by
  obtain ⟨h1, h2, h3⟩ := rounded_range hwrap
  obtain ⟨t', h4, h5⟩ := run_tlbShootdownLoop h3 _ _ _ t (pages_lt hwrap) rfl
  refine ⟨t', ?_, h5⟩
  unfold tlbShootdown
  simp only [h2]
  rw [h1]
  exact h4

theorem shootsDown_iff (hsize : 1 ≤ size) (hwrap : adr + size + 4095 < 2 ^ b.longBits) :
    ShootsDown b adr size ↔ Covers adr size := by
  constructor
  · intro h
    by_contra hc
    obtain ⟨t', h1, h2⟩ := h (fun _ => true)
    obtain ⟨t'', h3, h4⟩ := run_tlbShootdown hwrap (fun _ => true)
    rw [h1] at h3
    cases h3
    have hmiss : ¬ Looped adr size (lastPage adr size) := by
      rw [looped_iff hsize]
      rintro ⟨-, hcov | hne⟩
      · exact hc hcov
      · exact hne rfl
    have hfalse := (h2 (lastPage adr size)).1 (lastPage_intersects hsize)
    rw [(h4 _).2 hmiss] at hfalse
    cases hfalse
  · intro hc t
    obtain ⟨t', h1, h2⟩ := run_tlbShootdown hwrap t
    refine ⟨t', h1, fun v => ⟨fun hv => (h2 v).1 ((looped_iff hsize).2 ⟨hv, .inl hc⟩), fun hv => (h2 v).2 (fun hl => ?_)⟩⟩
    exact hv ((looped_iff hsize).1 hl).1

/-- **`heap_reconfig` does what it should if and only if** its loop, with `reconf_adr`'s own walk, comes to the same entries as
the range; without huge pages and clear of the window's entry that is: the offset of the start and that of the last byte make
less than a page together, or the last page needs nothing.  `tlb_shootdown` does what it should if and only if those offsets
make less than a page. -/
theorem heapReconfig_iff (hf : FieldsFit s) (hsize : 1 ≤ size) (hwrap : adr + size + 4095 < 2 ^ b.longBits) (flags : Nat) :
    (∃ s', (heapReconfig adr size flags).run s = (s', .ok ()) ∧
      (Reconfigured s s' adr size flags ↔ SameEntries s adr size flags)) ∧
    ((∀ v, Intersects adr size v → s.plain v ∧ s.clear v) →
      (SameEntries s adr size flags ↔ Covers adr size ∨ LastDone s adr size flags)) ∧
    (ShootsDown b adr size ↔ Covers adr size) := by
  obtain ⟨s', h1, h2⟩ := run_heapReconfig hf hwrap flags
  exact ⟨⟨s', h1, h2.reconfigured_iff⟩, sameEntries_iff hsize, shootsDown_iff hsize hwrap⟩

/-! ### A range over the middle of a page boundary -/

/-- The identity-mapped pages of the 32-bit build. -/
def lowPages : Mm .b32 := space32 (fun _ _ => .zero) (fun _ => 0)

theorem lowPages_fits : FieldsFit lowPages := by
  intro f i
  change (tables32 (fun _ _ => .zero) f i).frame < 2 ^ 20
  have hi : i < 1024 → (linkEntry i .zero).frame < 2 ^ 20 := fun h => Nat.lt_trans h (by decide)
  unfold tables32
  repeat' split
  all_goals first | exact hi (And.right ‹_›) | decide | exact Nat.two_pow_pos 20

theorem lowPages_plain (h : Intersects 0x800 0x1000 v) : lowPages.plain v ∧ lowPages.clear v := by
  have hv : v ≤ 1 := ((intersects_iff (by decide)).1 h).2
  rcases Nat.le_one_iff_eq_zero_or_eq_one.1 hv with rfl | rfl
  · exact ⟨fun _ => ⟨rfl, trivial⟩, by decide, fun _ => trivial⟩
  · exact ⟨fun _ => ⟨rfl, trivial⟩, by decide, fun _ => trivial⟩

/-- The second page keeps its modes, and its translation. -/
theorem heapReconfig_missed : (∃ s', (heapReconfig 0x800 0x1000 mmWriteThrough).run lowPages = (s', .ok ()) ∧
    ¬ Reconfigured lowPages s' 0x800 0x1000 mmWriteThrough) ∧ ¬ ShootsDown .b32 0x800 0x1000 := by
  have hnot : ¬ Covers 0x800 0x1000 := by decide
  have hwrap : 0x800 + 0x1000 + 4095 < 2 ^ Build.b32.longBits := by decide
  constructor
  · obtain ⟨s', h1, h2⟩ := run_heapReconfig lowPages_fits hwrap mmWriteThrough
    refine ⟨s', h1, fun hr => ?_⟩
    have hsame := h2.reconfigured_iff.1 hr
    rcases (sameEntries_iff (by decide) (fun v => lowPages_plain)).1 hsame with hc | hd
    · exact hnot hc
    · rcases hd 2 1 (by decide) (by decide) with ⟨v, hl, hs⟩ | hreq
      · have hv : v = 0 := by
          have hps : pageSize = 4096 := rfl
          unfold Looped at hl
          rw [hps] at hl
          omega
        rw [hv] at hs
        exact absurd hs (by decide)
      · exact absurd hreq (by decide)
  · rw [shootsDown_iff (by decide) hwrap]
    exact hnot

theorem heapReconfig_lowPages : (∃ s', (heapReconfig 0x800 0x1000 mmWriteThrough).run lowPages = (s', .ok ()) ∧
      (Reconfigured lowPages s' 0x800 0x1000 mmWriteThrough ↔ SameEntries lowPages 0x800 0x1000 mmWriteThrough)) ∧
    ((∀ v, Intersects 0x800 0x1000 v → lowPages.plain v ∧ lowPages.clear v) →
      (SameEntries lowPages 0x800 0x1000 mmWriteThrough ↔
        Covers 0x800 0x1000 ∨ LastDone lowPages 0x800 0x1000 mmWriteThrough)) ∧
    (ShootsDown .b32 0x800 0x1000 ↔ Covers 0x800 0x1000) :=
  heapReconfig_iff lowPages_fits (by decide) (by decide) mmWriteThrough

end SmpBoot
