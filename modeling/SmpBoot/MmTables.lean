import SmpBoot.MmSpec
import SmpBoot.Lib.Radix
/-!
# MmTables — the page tables as a radix tree

`tableAt` is the table at the end of a path of indices, `lookup` the frame of a page (the path of its page table and the
index in it).  `Tables` says that the tables form a tree of frames that are off the freemap, that no directory entry is a
huge page, and that the window's page table hangs where `map_temporary` expects it.  Only two kinds of change ever happen:
a store into a page table (`Tables.setLeaf`) and the link of a fresh table (`Tables.link`).
-/
namespace SmpBoot

open Resume Resume.Prog

variable {b : Build} {s s' s'' : Mm b}

def Build.depth (b : Build) : Nat := b.levels - 1

/-- The table a directory entry refers to. -/
def Mm.child (s : Mm b) (t i : Nat) : Option Nat :=
  if i < b.entries ∧ (s.mem t i).p = true ∧ (s.mem t i).ps = false then some (s.mem t i).frame else none

def Mm.leaf (s : Mm b) (t i : Nat) : Option Nat :=
  if i < b.entries ∧ (s.mem t i).p = true then some (s.mem t i).frame else none

def Mm.tableAt (s : Mm b) (π : List Nat) : Option Nat := Radix.walk s.child s.pd1 π

def Mm.lookup (s : Mm b) (π : List Nat) (i : Nat) : Option Nat := (s.tableAt π).bind (fun t => s.leaf t i)

/-- The path of the page table that holds the window's entry. -/
def winPath (b : Build) : List Nat := List.replicate b.depth 0

theorem length_winPath (b : Build) : (winPath b).length = b.depth := List.length_replicate

structure Tables (s : Mm b) : Prop where
  root   : s.pd1 = 1
  tree   : Radix.Tree s.child s.pd1 b.depth
  noHuge : ∀ π t i, π.length < b.depth → s.tableAt π = some t → i < b.entries → (s.mem t i).ps = false
  off    : ∀ π t, π.length ≤ b.depth → s.tableAt π = some t → t < 0x400 ∨ (s.taken t = true ∧ t < maxFrames)
  win    : s.tableAt (winPath b) = some b.mapTable
  ptAt   : 0x400 ≤ s.lastFramePt
  ptMax  : s.lastFramePt < maxFrames

theorem maxFrames_lt_frame (b : Build) : maxFrames < 2 ^ b.frameBits := by cases b <;> decide

theorem Tables.fits (h : Tables s) {π : List Nat} {t : Nat} (hπ : π.length ≤ b.depth) (ht : s.tableAt π = some t) :
    t < 2 ^ b.frameBits := by
  have h1 := maxFrames_lt_frame b
  have h2 : 0x400 < maxFrames := by decide
  rcases h.off π t hπ ht with h | ⟨-, h⟩ <;> omega

theorem Tables.child_eq (h : Tables s) {π : List Nat} {t i : Nat} (hπ : π.length < b.depth) (ht : s.tableAt π = some t)
    (hi : i < b.entries) : s.tableAt (π ++ [i]) = if (s.mem t i).p = true then some (s.mem t i).frame else none := by
  unfold Mm.tableAt at *
  rw [Radix.walk_snoc, ht]
  simp only [Option.bind_some, Mm.child, hi, h.noHuge π t i hπ ht hi, true_and, and_true]

/-- What a call leaves alone: pages, other than the window's, that were mapped or not; tables are added, from frames the
freemap offered; the cursor for data frames and the next page. -/
structure Keeps (s s' : Mm b) : Prop where
  pages  : ∀ π i, π.length = b.depth → (π, i) ≠ (winPath b, tmpPage) → s'.lookup π i = s.lookup π i
  tables : ∀ π t, π.length ≤ b.depth → s'.tableAt π = some t → s.tableAt π = some t ∨ s.taken t = false
  taken  : ∀ f, s.taken f = true → s'.taken f = true
  last4k : s'.lastFrame4k = s.lastFrame4k
  next   : s'.nextVirtPage = s.nextVirtPage

theorem free_before (h : ∀ f, s.taken f = true → s'.taken f = true) {t : Nat} (ht : s'.taken t = false) :
    s.taken t = false := by
  cases htk : s.taken t with
  | false => rfl
  | true => rw [h t htk] at ht; cases ht

theorem Keeps.refl (s : Mm b) : Keeps s s :=
  ⟨fun _ _ _ _ => rfl, fun _ _ _ h => .inl h, fun _ h => h, rfl, rfl⟩

theorem Keeps.trans (h : Keeps s s') (h' : Keeps s' s'') : Keeps s s'' where
  pages  := fun π i hπ hw => (h'.pages π i hπ hw).trans (h.pages π i hπ hw)
  tables := fun π t hπ ht => by
    rcases h'.tables π t hπ ht with h1 | h1
    · exact h.tables π t hπ h1
    · exact .inr (free_before h.taken h1)
  taken  := fun f hf => h'.taken f (h.taken f hf)
  last4k := h'.last4k.trans h.last4k
  next   := h'.next.trans h.next

/-! ## A store into a page table -/

section SetLeaf
variable {ρ : List Nat} {t j : Nat} {e : Entry}

theorem child_setEntry_ne {n : Nat} (h : n ≠ t) (i : Nat) : (s.setEntry t j e).child n i = s.child n i := by
  unfold Mm.child
  simp only [setEntry_mem, h, false_and, if_false]

theorem Tables.ne_of_depth (h : Tables s) (hρ : ρ.length = b.depth) (ht : s.tableAt ρ = some t) {π : List Nat} {n : Nat}
    (hπ : π.length < b.depth) (hn : s.tableAt π = some n) : n ≠ t := by
  rintro rfl
  have := h.tree π ρ n (Nat.le_of_lt hπ) (Nat.le_of_eq hρ) hn ht
  rw [this] at hπ
  omega

theorem Tables.tableAt_setLeaf (h : Tables s) (hρ : ρ.length = b.depth) (ht : s.tableAt ρ = some t) (π : List Nat)
    (hπ : π.length ≤ b.depth) : (s.setEntry t j e).tableAt π = s.tableAt π :=
  Radix.walk_congr (fun _ _ hπ' hn i => child_setEntry_ne (h.ne_of_depth hρ ht hπ' hn) i) π hπ

/-- **A store into a page table changes no table.** -/
theorem Tables.setLeaf (h : Tables s) (hρ : ρ.length = b.depth) (ht : s.tableAt ρ = some t) :
    Tables (s.setEntry t j e) where
  root   := h.root
  tree   := h.tree.congr (fun _ _ hπ hn i => child_setEntry_ne (h.ne_of_depth hρ ht hπ hn) i)
  noHuge := fun π n i hπ hn hi => by
    rw [h.tableAt_setLeaf hρ ht π (Nat.le_of_lt hπ)] at hn
    have hne := h.ne_of_depth hρ ht hπ hn
    simp only [setEntry_mem, hne, false_and, if_false]
    exact h.noHuge π n i hπ hn hi
  off    := fun π n hπ hn => by
    rw [h.tableAt_setLeaf hρ ht π hπ] at hn
    exact h.off π n hπ hn
  win    := by rw [h.tableAt_setLeaf hρ ht _ (Nat.le_of_eq (length_winPath b))]; exact h.win
  ptAt   := h.ptAt
  ptMax  := h.ptMax

/-- **A store into a page table changes one page.** -/
theorem Tables.lookup_setLeaf (h : Tables s) (hρ : ρ.length = b.depth) (ht : s.tableAt ρ = some t) (hj : j < b.entries)
    (π : List Nat) (hπ : π.length = b.depth) (i : Nat) : (s.setEntry t j e).lookup π i =
      if (π, i) = (ρ, j) then (if e.p = true then some e.frame else none) else s.lookup π i := by
  unfold Mm.lookup
  rw [h.tableAt_setLeaf hρ ht π (Nat.le_of_eq hπ)]
  by_cases hp : (π, i) = (ρ, j)
  · obtain ⟨rfl, rfl⟩ := Prod.mk.inj hp
    rw [ht, if_pos rfl]
    simp [Mm.leaf, hj]
  · rw [if_neg hp]
    cases hn : s.tableAt π with
    | none => rfl
    | some n =>
      have hne : ¬ (n = t ∧ i = j) := by
        rintro ⟨rfl, rfl⟩
        exact hp (by rw [h.tree π ρ n (Nat.le_of_eq hπ) (Nat.le_of_eq hρ) hn ht])
      simp only [Option.bind_some, Mm.leaf, setEntry_mem, if_neg hne]

theorem Tables.keeps_setLeaf (h : Tables s) (hρ : ρ.length = b.depth) (ht : s.tableAt ρ = some t) (hj : j < b.entries)
    (he : (ρ, j) = (winPath b, tmpPage) ∨ (e.p = (s.mem t j).p ∧ e.frame = (s.mem t j).frame)) :
    Keeps s (s.setEntry t j e) where
  pages  := fun π i hπ hw => by
    rw [h.lookup_setLeaf hρ ht hj π hπ i]
    by_cases hp : (π, i) = (ρ, j)
    · rcases he with he | ⟨hp', hf⟩
      · exact absurd (hp.trans he) hw
      · obtain ⟨rfl, rfl⟩ := Prod.mk.inj hp
        rw [if_pos rfl, hp', hf]
        simp [Mm.lookup, ht, Mm.leaf, hj]
    · rw [if_neg hp]
  tables := fun π n hπ hn => .inl (by rwa [h.tableAt_setLeaf hρ ht π hπ] at hn)
  taken  := fun _ hf => hf
  last4k := rfl
  next   := rfl

end SetLeaf

theorem tmpPage_lt (b : Build) : tmpPage < b.entries := by cases b <;> decide

/-- **`map_temporary` changes no table and no page but its own.** -/
theorem Tables.withWindow (h : Tables s) (f : Nat) : Tables (s.withWindow f) ∧ Keeps s (s.withWindow f) ∧
    ∀ π, π.length ≤ b.depth → (s.withWindow f).tableAt π = s.tableAt π := by
  obtain ⟨e, he, -⟩ := withWindow_eq (s := s) f
  rw [he]
  exact ⟨h.setLeaf (length_winPath b) h.win,
    h.keeps_setLeaf (length_winPath b) h.win (tmpPage_lt b) (.inl rfl),
    h.tableAt_setLeaf (length_winPath b) h.win⟩

/-! ## The link of a fresh table -/

section Link
variable {s₁ : Mm b} {π : List Nat} {t i g : Nat} {e : Entry}

/-- What `map_frame_to_adr` does to memory when it makes a new table of frame `g`: the entry, the window, the
`memset`. -/
def Mm.linked (s : Mm b) (t i g : Nat) (e : Entry) : Mm b := ((s.setEntry t i e).withWindow g).cleared g

theorem linked_mem (s : Mm b) (t i g : Nat) (e : Entry) : ∃ w, ∀ n j, (s.linked t i g e).mem n j =
    if n = g ∧ j < b.entries then .zero else if n = b.mapTable ∧ j = tmpPage then w
    else if n = t ∧ j = i then e else s.mem n j := by
  obtain ⟨w, hw, -⟩ := withWindow_eq (s := s.setEntry t i e) g
  refine ⟨w, fun n j => ?_⟩
  simp only [Mm.linked, Mm.cleared, hw, setEntry_mem]

theorem withWindow_freemap (f : Nat) : (s.withWindow f).freemap = s.freemap := by unfold Mm.withWindow; split <;> rfl
theorem withWindow_lastFramePt (f : Nat) : (s.withWindow f).lastFramePt = s.lastFramePt := by
  unfold Mm.withWindow; split <;> rfl
theorem withWindow_lastFrame4k (f : Nat) : (s.withWindow f).lastFrame4k = s.lastFrame4k := by
  unfold Mm.withWindow; split <;> rfl
theorem withWindow_nextVirtPage (f : Nat) : (s.withWindow f).nextVirtPage = s.nextVirtPage := by
  unfold Mm.withWindow; split <;> rfl
theorem withWindow_pd1 (f : Nat) : (s.withWindow f).pd1 = s.pd1 := by unfold Mm.withWindow; split <;> rfl

theorem linked_taken (f : Nat) : (s.linked t i g e).taken f = s.taken f := by
  show isBitClear ((s.setEntry t i e).withWindow g |>.freemap _) _ = _
  rw [withWindow_freemap]; rfl

theorem linked_pd1 : (s.linked t i g e).pd1 = s.pd1 := (withWindow_pd1 g).trans rfl
theorem linked_lastFramePt : (s.linked t i g e).lastFramePt = s.lastFramePt := (withWindow_lastFramePt g).trans rfl
theorem linked_lastFrame4k : (s.linked t i g e).lastFrame4k = s.lastFrame4k := (withWindow_lastFrame4k g).trans rfl
theorem linked_nextVirtPage : (s.linked t i g e).nextVirtPage = s.nextVirtPage := (withWindow_nextVirtPage g).trans rfl

theorem Tables.fresh (h : Tables s) (hg : 0x400 ≤ g) (hs : s.taken g = false) (ρ : List Nat) (hρ : ρ.length ≤ b.depth) :
    s.tableAt ρ ≠ some g := by
  intro hw
  rcases h.off ρ g hρ hw with h1 | ⟨h1, -⟩
  · omega
  · rw [hs] at h1; cases h1

theorem Took.tableAt {c : Cursor} (h : Took c s s₁ g) (π : List Nat) : s₁.tableAt π = s.tableAt π := by
  have hc : s₁.child = s.child := by funext n j; simp only [Mm.child, h.mem]
  unfold Mm.tableAt
  rw [hc, h.pd1]

theorem Took.lookup {c : Cursor} (h : Took c s s₁ g) (π : List Nat) (i : Nat) : s₁.lookup π i = s.lookup π i := by
  have hl : s₁.leaf = s.leaf := by funext n j; simp only [Mm.leaf, h.mem]
  unfold Mm.lookup
  rw [h.tableAt, hl]

/-- **Taking a frame changes no table and no page.** -/
theorem Took.tables {c : Cursor} (h : Took c s s₁ g) (hT : Tables s) (hg : c = .pt ∨ s₁.lastFramePt = s.lastFramePt) :
    Tables s₁ where
  root   := by rw [h.pd1]; exact hT.root
  tree   := by
    have hc : s₁.child = s.child := by funext n j; simp only [Mm.child, h.mem]
    rw [hc, h.pd1]; exact hT.tree
  noHuge := fun π n i hπ hn hi => by
    rw [h.tableAt] at hn
    rw [h.mem]; exact hT.noHuge π n i hπ hn hi
  off    := fun π n hπ hn => by
    rw [h.tableAt] at hn
    rcases hT.off π n hπ hn with h1 | ⟨h1, h2⟩
    · exact .inl h1
    · exact .inr ⟨h.keeps n h1, h2⟩
  win    := by rw [h.tableAt]; exact hT.win
  ptAt   := by
    rcases hg with rfl | hg
    · have h1 := h.cursor
      have h2 := h.above
      simp only [Mm.cursor] at h1 h2
      have := hT.ptAt
      omega
    · rw [hg]; exact hT.ptAt
  ptMax  := by
    rcases hg with rfl | hg
    · have h1 := h.cursor
      have h2 := h.below
      simp only [Mm.cursor] at h1
      omega
    · rw [hg]; exact hT.ptMax

/-- A frame `g` was taken, and is going to be linked into the absent entry `i` of the directory `t`. -/
structure Linking (s s₁ : Mm b) (π : List Nat) (t i g : Nat) (e : Entry) : Prop where
  tables : Tables s
  depth  : π.length < b.depth
  dir    : s.tableAt π = some t
  index  : i < b.entries
  absent : (s.mem t i).p = false
  took   : Took .pt s s₁ g
  entry  : e.p = true ∧ e.ps = false ∧ e.frame = g

namespace Linking
variable (L : Linking s s₁ π t i g e)
include L

theorem before : Tables s₁ := L.took.tables L.tables (.inl rfl)

theorem fresh (ρ : List Nat) (hρ : ρ.length ≤ b.depth) : s₁.tableAt ρ ≠ some g := by
  intro hw
  have h1 := L.tables.ptAt
  have h2 := L.took.above
  simp only [Mm.cursor] at h2
  rw [L.took.tableAt] at hw
  exact L.tables.fresh (by omega) L.took.wasSet ρ hρ hw

theorem dirTaken : s₁.tableAt π = some t := by rw [L.took.tableAt]; exact L.dir

theorem absentTaken : (s₁.mem t i).p = false := by rw [L.took.mem]; exact L.absent

theorem noTable : s₁.tableAt (π ++ [i]) = none := by
  rw [L.before.child_eq L.depth L.dirTaken L.index, L.absentTaken]; rfl

theorem ne_window {ρ : List Nat} {n : Nat} (hρ : ρ.length < b.depth) (hn : s₁.tableAt ρ = some n) : n ≠ b.mapTable :=
  L.before.ne_of_depth (length_winPath b) L.before.win hρ hn

theorem radix : Radix.Link s₁.child (s₁.linked t i g e).child s₁.pd1 t g b.depth π i := by
  obtain ⟨w, hw⟩ := linked_mem s₁ t i g e
  refine ⟨L.depth, L.dirTaken, by simp [Mm.child, L.absentTaken], L.fresh, ?_, fun j _ => ?_, fun ρ n j hρ hn hnt => ?_⟩
  · have h1 : t ≠ g := by rintro rfl; exact L.fresh π (Nat.le_of_lt L.depth) L.dirTaken
    have h2 := L.ne_window L.depth L.dirTaken
    simp [Mm.child, hw, h1, h2, L.index, L.entry.1, L.entry.2.1, L.entry.2.2]
  · by_cases hj : j < b.entries <;> simp [Mm.child, hw, hj, Entry.zero]
  · have h1 : n ≠ g := by rintro rfl; exact L.fresh ρ (Nat.le_of_lt hρ) hn
    have h2 := L.ne_window hρ hn
    have h3 : ¬ (n = t ∧ j = i) := fun hh => hnt hh.1 hh.2
    simp [Mm.child, hw, h1, h2, h3]

theorem tableAt {ρ : List Nat} (hρ : ρ.length ≤ b.depth) :
    (s₁.linked t i g e).tableAt ρ = if ρ = π ++ [i] then some g else s₁.tableAt ρ := by
  unfold Mm.tableAt
  rw [linked_pd1]
  exact Radix.walk_link L.before.tree L.radix ρ hρ

theorem noHuge {ρ : List Nat} {n j : Nat} (hρ : ρ.length < b.depth) (hn : (s₁.linked t i g e).tableAt ρ = some n)
    (hj : j < b.entries) : ((s₁.linked t i g e).mem n j).ps = false := by
  obtain ⟨w, hw⟩ := linked_mem s₁ t i g e
  rw [L.tableAt (Nat.le_of_lt hρ)] at hn
  rw [hw]
  by_cases hng : n = g
  · simp [hng, hj, Entry.zero]
  · have hn₁ : s₁.tableAt ρ = some n := by
      by_cases hρπ : ρ = π ++ [i]
      · rw [if_pos hρπ] at hn; cases hn; exact absurd rfl hng
      · rwa [if_neg hρπ] at hn
    simp only [hng, L.ne_window hρ hn₁, false_and, if_false]
    by_cases h3 : n = t ∧ j = i
    · rw [if_pos h3]; exact L.entry.2.1
    · rw [if_neg h3]
      exact L.before.noHuge ρ n j hρ hn₁ hj

theorem after : Tables (s₁.linked t i g e) where
  root   := by rw [linked_pd1]; exact L.before.root
  tree   := by rw [linked_pd1]; exact L.before.tree.link L.radix
  noHuge := fun _ _ _ hρ hn hj => L.noHuge hρ hn hj
  off    := fun ρ n hρ hn => by
    rw [linked_taken]
    rw [L.tableAt hρ] at hn
    by_cases hρπ : ρ = π ++ [i]
    · rw [if_pos hρπ] at hn
      cases hn
      exact .inr ⟨L.took.taken, L.took.below⟩
    · rw [if_neg hρπ] at hn
      exact L.before.off ρ n hρ hn
  win    := by
    rw [L.tableAt (Nat.le_of_eq (length_winPath b)), if_neg]
    · exact L.before.win
    · -- the window's table was there before, the new one was not
      intro hh
      have h1 := L.before.win
      rw [hh, L.noTable] at h1
      cases h1
  ptAt   := by rw [linked_lastFramePt]; exact L.before.ptAt
  ptMax  := by rw [linked_lastFramePt]; exact L.before.ptMax

theorem lookup {ρ : List Nat} {j : Nat} (hρ : ρ.length = b.depth) (hne : (ρ, j) ≠ (winPath b, tmpPage)) :
    (s₁.linked t i g e).lookup ρ j = s₁.lookup ρ j := by
  obtain ⟨w, hw⟩ := linked_mem s₁ t i g e
  unfold Mm.lookup
  rw [L.tableAt (Nat.le_of_eq hρ)]
  by_cases hρπ : ρ = π ++ [i]
  · rw [if_pos hρπ, hρπ, L.noTable]
    by_cases hj : j < b.entries <;> simp [Mm.leaf, hw, hj, Entry.zero]
  · rw [if_neg hρπ]
    cases hn : s₁.tableAt ρ with
    | none => rfl
    | some n =>
      have h1 : n ≠ g := by rintro rfl; exact L.fresh ρ (Nat.le_of_eq hρ) hn
      have h2 : ¬ (n = b.mapTable ∧ j = tmpPage) := by
        rintro ⟨rfl, rfl⟩
        exact hne (by
          rw [L.before.tree ρ (winPath b) _ (Nat.le_of_eq hρ) (Nat.le_of_eq (length_winPath b)) hn L.before.win])
      have h3 : n ≠ t := by
        rintro rfl
        have := L.before.tree ρ π n (Nat.le_of_eq hρ) (Nat.le_of_lt L.depth) hn L.dirTaken
        rw [this] at hρ
        exact absurd hρ (Nat.ne_of_lt L.depth)
      simp only [Option.bind_some, Mm.leaf, hw, h1, h3, false_and, if_false, if_neg h2]

theorem keeps : Keeps s (s₁.linked t i g e) where
  pages  := fun _ _ hρ hne => by rw [L.lookup hρ hne, L.took.lookup]
  tables := fun ρ n hρ hn => by
    rw [L.tableAt hρ] at hn
    by_cases hρπ : ρ = π ++ [i]
    · rw [if_pos hρπ] at hn
      cases hn
      exact .inr L.took.wasSet
    · rw [if_neg hρπ, L.took.tableAt] at hn
      exact .inl hn
  taken  := fun f hf => by rw [linked_taken]; exact L.took.keeps f hf
  last4k := by rw [linked_lastFrame4k]; exact L.took.last4k rfl
  next   := by rw [linked_nextVirtPage]; exact L.took.next

end Linking

/-- **The link of a fresh table**: one more table, no page changed but the window's. -/
theorem Tables.link (h : Tables s) (hπ : π.length < b.depth) (ht : s.tableAt π = some t) (hi : i < b.entries)
    (hp : (s.mem t i).p = false) (hg : Took .pt s s₁ g) (he : e.p = true ∧ e.ps = false ∧ e.frame = g) :
    Tables (s₁.linked t i g e) ∧ Keeps s (s₁.linked t i g e) ∧
      (s₁.linked t i g e).tableAt (π ++ [i]) = some g := by
  have L : Linking s s₁ π t i g e := ⟨h, hπ, ht, hi, hp, hg, he⟩
  have hlen : (π ++ [i]).length ≤ b.depth := by rw [List.length_append]; exact hπ
  exact ⟨L.after, L.keeps, by rw [L.tableAt hlen, if_pos rfl]⟩

end Link
end SmpBoot
