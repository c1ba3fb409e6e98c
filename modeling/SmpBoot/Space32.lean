import SmpBoot.MmWalk
/-!
# Space32 — the address space `mm_init` activates in the 32-bit build

The directory and the first page table are cleared before they are filled, the page table of the APICs at 0x3000 is not: what
was in memory there stays in the 1022 entries that are not written, and in the bits of the other two that are not assigned.
-/
namespace SmpBoot

open Resume Resume.Prog

variable {mem : Nat → Nat → Entry} {v : Nat}

/-- The pages `mm_init` means to map. -/
def Identity (v : Nat) : Prop := v < 0x400 ∨ v = 0xfec00 ∨ v = 0xfee00

/-- A 4 kB page mapped to the frame with its own number, present and writable, with no other cache mode (`pwt`, `pcd`, and
`pat`, which is bit 7 of a page's entry). -/
def MapsOwn (s : Mm .b32) (v : Nat) : Prop :=
  ∃ d e, s.pathTo v = some [d, e] ∧ e.frame = v ∧
    ∀ x ∈ [d, e], x.rw = true ∧ x.pwt = false ∧ x.pcd = false ∧ x.ps = false

/-- Exactly those pages are mapped, each to its own frame. -/
structure IdentitySpace (s : Mm .b32) : Prop where
  mapped : ∀ v, Identity v → MapsOwn s v
  absent : ∀ v, v < 2 ^ 20 → ¬ Identity v → s.pathTo v = none

/-- What the page table of the APICs has to look like before. -/
structure CleanApics (mem : Nat → Nat → Entry) : Prop where
  others : ∀ i, i < 1024 → i ≠ 0 → i ≠ 512 → (mem 3 i).p = false
  modes  : ∀ i, i = 0 ∨ i = 512 → (mem 3 i).pwt = false ∧ (mem 3 i).pcd = false ∧ (mem 3 i).ps = false

/-- The state `mm_init` turns paging on in. -/
def space32 (mem : Nat → Nat → Entry) (freemap : Nat → BitVec Build.b32.longBits) : Mm .b32 :=
  { Mm.boot .b32 mem freemap with pd1 := 1, mem := tables32 mem }

variable {freemap : Nat → BitVec Build.b32.longBits}

/-- The walk of a page: through the identity-mapped table, through that of the APICs, or nowhere. -/
theorem pathTo_eq (hv : v < 2 ^ 20) : (space32 mem freemap).pathTo v =
    if v / 1024 = 0 then some [linkEntry 2 .zero, linkEntry v .zero]
    else if v / 1024 = 1019 then
      if (tables32 mem 3 (v % 1024)).p = true then some [linkEntry 3 .zero, tables32 mem 3 (v % 1024)] else none
    else none := by
  have h1 : levelIndex .b32 1 (v * pageSize) = v / 1024 := by
    simp only [levelIndex_eq, Build.indexBits, pageBits, pageSize]
    omega
  have h0 : levelIndex .b32 0 (v * pageSize) = v % 1024 := by
    simp only [levelIndex_eq, Build.indexBits, pageBits, pageSize]
    omega
  have hlt : v / 1024 < 1024 := by omega
  have hmod : v % 1024 < 1024 := Nat.mod_lt _ (by decide)
  have hdir : tables32 mem 1 (v / 1024) = if v / 1024 = 0 then linkEntry 2 .zero
      else if v / 1024 = 1019 then linkEntry 3 .zero else .zero := by
    rw [tables32, if_pos ⟨rfl, hlt⟩]
  have hpt : tables32 mem 2 (v % 1024) = linkEntry (v % 1024) .zero := by
    rw [tables32, if_neg (by simp), if_pos ⟨rfl, hmod⟩]
  have hmem : (space32 mem freemap).mem = tables32 mem := rfl
  have hwalk : (space32 mem freemap).pathTo v = (space32 mem freemap).entriesFrom (v * pageSize) (0 + 1) 1 := rfl
  rw [hwalk]
  simp only [Mm.entriesFrom, Nat.zero_add, h0, h1, hmem, hdir]
  split
  · rename_i hz
    have hvv : v % 1024 = v := by omega
    rw [hvv] at hpt ⊢
    simp [linkEntry, Entry.zero, hpt]
  split
  · simp only [linkEntry, Entry.zero, Bool.true_eq_false, Bool.false_eq_true, if_false]
    by_cases hp : (tables32 mem 3 (v % 1024)).p = true <;> simp [hp]
  · rfl

theorem tables32_apic (i : Nat) : tables32 mem 3 i = if i = 0 then linkEntry 0xfec00 (mem 3 0)
    else if i = 512 then linkEntry 0xfee00 (mem 3 512) else mem 3 i := by
  simp [tables32]

/-- The two pages of the APICs, and the entry of each. -/
theorem apic_iff (hv : v / 1024 = 1019) : Identity v ↔ v % 1024 = 0 ∨ v % 1024 = 512 := by
  unfold Identity
  omega

theorem identity_of (hv : v / 1024 ≠ 1019) : Identity v ↔ v / 1024 = 0 := by
  unfold Identity
  omega

/-- An APIC's page has the modes its entry had before. -/
theorem mapsOwn_apic (hv : v / 1024 = 1019) (hi : v % 1024 = 0 ∨ v % 1024 = 512) : MapsOwn (space32 mem freemap) v ↔
    (mem 3 (v % 1024)).pwt = false ∧ (mem 3 (v % 1024)).pcd = false ∧ (mem 3 (v % 1024)).ps = false := by
  have hent : tables32 mem 3 (v % 1024) = linkEntry v (mem 3 (v % 1024)) := by
    rw [tables32_apic]
    rcases hi with h | h
    · have : v = 0xfec00 := by omega
      rw [if_pos h, h, this]
    · have : v = 0xfee00 := by omega
      rw [if_neg (by omega), if_pos h, h, this]
  have hpath : (space32 mem freemap).pathTo v = some [linkEntry 3 .zero, linkEntry v (mem 3 (v % 1024))] := by
    rw [pathTo_eq (by omega), if_neg (by omega), if_pos hv, hent]
    rfl
  unfold MapsOwn
  rw [hpath]
  constructor
  · rintro ⟨d, e, he, -, hx⟩
    simp only [Option.some.injEq, List.cons.injEq, and_true] at he
    obtain ⟨-, h1, h2, h3⟩ := hx e (by simp)
    rw [← he.2] at h1 h2 h3
    exact ⟨h1, h2, h3⟩
  · rintro ⟨h1, h2, h3⟩
    refine ⟨_, _, rfl, rfl, fun x hx => ?_⟩
    simp only [List.mem_cons, List.not_mem_nil, or_false] at hx
    rcases hx with rfl | rfl
    · exact ⟨rfl, rfl, rfl, rfl⟩
    · exact ⟨rfl, h1, h2, h3⟩

theorem mapsOwn_low (hv : v / 1024 = 0) : MapsOwn (space32 mem freemap) v := by
  refine ⟨linkEntry 2 .zero, linkEntry v .zero, by rw [pathTo_eq (by omega), if_pos hv], rfl, fun x hx => ?_⟩
  simp only [List.mem_cons, List.not_mem_nil, or_false] at hx
  rcases hx with rfl | rfl <;> exact ⟨rfl, rfl, rfl, rfl⟩

theorem identitySpace_iff (mem : Nat → Nat → Entry) (freemap : Nat → BitVec Build.b32.longBits) :
    IdentitySpace (space32 mem freemap) ↔ CleanApics mem := by
  constructor
  · intro h
    constructor
    · intro i hi h0 h512
      have hdiv : (1019 * 1024 + i) / 1024 = 1019 := by omega
      have hmod : (1019 * 1024 + i) % 1024 = i := by omega
      have hnot : ¬ Identity (1019 * 1024 + i) := by rw [apic_iff hdiv, hmod]; omega
      have hnone := h.absent (1019 * 1024 + i) (by omega) hnot
      rw [pathTo_eq (by omega), hdiv, hmod, tables32_apic, if_neg h0, if_neg h512] at hnone
      simpa using hnone
    · intro i hi
      have hdiv : (1019 * 1024 + i) / 1024 = 1019 := by omega
      have hmod : (1019 * 1024 + i) % 1024 = i := by omega
      have hown := h.mapped (1019 * 1024 + i) ((apic_iff hdiv).2 (by omega))
      rw [mapsOwn_apic hdiv (by omega), hmod] at hown
      exact hown
  · intro h
    constructor
    · intro v hv
      by_cases h19 : v / 1024 = 1019
      · exact (mapsOwn_apic h19 ((apic_iff h19).1 hv)).2 (h.modes _ ((apic_iff h19).1 hv))
      · exact mapsOwn_low ((identity_of h19).1 hv)
    · intro v hv hnot
      rw [pathTo_eq hv]
      by_cases h19 : v / 1024 = 1019
      · rw [apic_iff h19, not_or] at hnot
        rw [if_neg (by omega), if_pos h19, tables32_apic, if_neg hnot.1, if_neg hnot.2,
          h.others _ (Nat.mod_lt _ (by decide)) hnot.1 hnot.2]
        rfl
      · rw [identity_of h19] at hnot
        rw [if_neg hnot, if_neg h19]

/-- **The 32-bit `mm_init` activates the address space it means to if and only if** the page at 0x3000 held no present entry but
those two, and no cache mode in them.  After that `mm_init` changes no table. -/
theorem space32_iff (mem : Nat → Nat → Entry) (freemap : Nat → BitVec Build.b32.longBits) :
    ∃ s, (initTables .b32).run (Mm.boot .b32 mem freemap) = (s, .ok ()) ∧
      (∀ fuel mbi, Ends (fun _ => True) (mmInit fuel mbi) (Mm.boot .b32 mem freemap)
        (fun s' _ => s'.mem = s.mem ∧ s'.pd1 = s.pd1)) ∧
      (IdentitySpace s ↔ CleanApics mem) := by
  refine ⟨space32 mem freemap, run_initTables32 mem freemap, fun fuel mbi => ?_, identitySpace_iff mem freemap⟩
  refine (mmInit_after (P := (· = space32 mem freemap)) fuel mbi (fun _ => trivial)
    (Ends.of_run (run_initTables32 mem freemap) rfl)).mono ?_
  rintro s' n ⟨_, rfl, m, rfl⟩
  exact ⟨rfl, rfl⟩

/-- A page of the APICs' table that was in memory before. -/
theorem space32_leftover : ∃ s, (initTables .b32).run
    (Mm.boot .b32 (fun f i => if f = 3 ∧ i = 1 then linkEntry 5 .zero else .zero) (fun _ => 0)) = (s, .ok ()) ∧
      ¬ IdentitySpace s := by
  refine ⟨_, run_initTables32 _ _, fun h => ?_⟩
  have hclean := (identitySpace_iff _ _).1 h
  exact absurd (hclean.others 1 (by decide) (by decide) (by decide)) (by decide)

end SmpBoot
