import SmpBoot.Boot32Bounds
/-!
# RootSearch — the RSDP and the MP floating pointer

`get_info` goes through areas of memory word by word and tests the checksum of the first place that has the signature.  The size
of the EBDA is in KiB there, and is taken for bytes; and a false signature is not passed over.
-/
namespace SmpBoot

/-! ## The search -/

/-- The words from `p` on. -/
def wordsOf : Nat → Unsigned → List Unsigned
  | 0,     _ => []
  | n + 1, p => p :: wordsOf n (p + 4)

/-- The search through areas of the given numbers of words, one after the other. -/
def searchAreas (hit : Unsigned → Bool) : List (Unsigned × Nat) → Unsigned
  | []              => 0
  | (offset, n) :: as =>
    let p := search hit n offset
    if p = 0 then searchAreas hit as else p

/-- The words of an area, none if the first hit is at address 0: that counts as no hit. -/
def areaWords (hit : Unsigned → Bool) (area : Unsigned × Nat) : List Unsigned :=
  let ws := wordsOf area.2 area.1
  if ws.find? hit = some 0 then [] else ws

/-- The bytes that a search reads, when `reads` are those it reads to look at one word. -/
def searchReads (hit : Unsigned → Bool) (reads : Unsigned → List Unsigned) : Nat → Unsigned → List Unsigned
  | 0,     _ => []
  | n + 1, p => reads p ++ if hit p then [] else searchReads hit reads n (p + 4)

def areaReads (hit : Unsigned → Bool) (reads : Unsigned → List Unsigned) : List (Unsigned × Nat) → List Unsigned
  | []              => []
  | (offset, n) :: as => searchReads hit reads n offset ++ if search hit n offset = 0 then areaReads hit reads as else []

def bytesAt (p : Unsigned) (n : Nat) : List Unsigned := (List.range n).map fun k => p + BitVec.ofNat 32 k

section
variable {hit : Unsigned → Bool} {reads : Unsigned → List Unsigned}

theorem search_eq : ∀ (n : Nat) (p : Unsigned), search hit n p = ((wordsOf n p).find? hit).getD 0
  | 0,     _ => rfl
  | n + 1, p => by
    rw [search, wordsOf, List.find?_cons]
    cases hp : hit p with
    | true => rfl
    | false => simpa using search_eq n (p + 4)

theorem mem_wordsOf {w : Unsigned} : ∀ {n : Nat} {p : Unsigned}, w ∈ wordsOf n p ↔ ∃ i < n, w = p + BitVec.ofNat 32 (4 * i)
  | 0,     p => by simp [wordsOf]
  | n + 1, p => by
    rw [wordsOf, List.mem_cons, mem_wordsOf]
    constructor
    · rintro (rfl | ⟨i, hi, rfl⟩)
      · exact ⟨0, Nat.succ_pos n, (BitVec.add_zero w).symm⟩
      · refine ⟨i + 1, Nat.succ_lt_succ hi, ?_⟩
        rw [Nat.mul_succ, Nat.add_comm, BitVec.ofNat_add, ← BitVec.add_assoc]
        rfl
    · rintro ⟨i, hi, rfl⟩
      cases i with
      | zero => exact .inl (BitVec.add_zero p)
      | succ i =>
        refine .inr ⟨i, Nat.lt_of_succ_lt_succ hi, ?_⟩
        rw [Nat.mul_succ, Nat.add_comm, BitVec.ofNat_add, ← BitVec.add_assoc]
        rfl

theorem search_hit {n : Nat} {offset p : Unsigned} (h : search hit n offset = p) (hp : p ≠ 0) :
    hit p = true ∧ ∃ i < n, p = offset + BitVec.ofNat 32 (4 * i) := by
  rw [search_eq] at h
  cases hf : (wordsOf n offset).find? hit with
  | none => rw [hf] at h; exact absurd h.symm hp
  | some q =>
    rw [hf, Option.getD_some] at h
    subst h
    exact ⟨List.find?_some hf, mem_wordsOf.1 (List.mem_of_find?_eq_some hf)⟩

/-- The areas are one list of words. -/
theorem find?_areaWords {area : Unsigned × Nat} : (areaWords hit area).find? hit =
    if search hit area.2 area.1 = 0 then none else some (search hit area.2 area.1) := by
  rw [search_eq]
  show (if (wordsOf area.2 area.1).find? hit = some 0 then [] else wordsOf area.2 area.1).find? hit = _
  cases hf : (wordsOf area.2 area.1).find? hit with
  | none => rw [if_neg nofun, hf, Option.getD_none, if_pos rfl]
  | some p =>
    rw [Option.getD_some]
    by_cases hp : p = 0
    · rw [if_pos (congrArg some hp), if_pos hp, List.find?_nil]
    · rw [if_neg (fun h => hp (Option.some.inj h)), if_neg hp, hf]

theorem searchAreas_one (offset : Unsigned) (n : Nat) : searchAreas hit [(offset, n)] = search hit n offset := by
  rw [searchAreas, searchAreas]
  by_cases hp : search hit n offset = 0
  · simp [hp]
  · simp only [if_neg hp]

theorem searchAreas_eq : ∀ (as : List (Unsigned × Nat)), ((as.flatMap (areaWords hit)).find? hit) =
    if searchAreas hit as = 0 then none else some (searchAreas hit as)
  | []              => rfl
  | (offset, n) :: as => by
    rw [List.flatMap_cons, List.find?_append, find?_areaWords, searchAreas_eq as, searchAreas]
    by_cases hp : search hit n offset = 0
    · simp only [if_pos hp, Option.none_or]
    · simp only [if_neg hp, Option.some_or]

theorem searchAreas_iff {as : List (Unsigned × Nat)} {p : Unsigned} :
    (as.flatMap (areaWords hit)).find? hit = some p ↔ searchAreas hit as = p ∧ p ≠ 0 := by
  rw [searchAreas_eq]
  by_cases hz : searchAreas hit as = 0
  · rw [if_pos hz]
    exact iff_of_false nofun (fun h => h.2 (h.1.symm.trans hz))
  · rw [if_neg hz, Option.some.injEq]
    exact ⟨fun h => ⟨h, h ▸ hz⟩, And.left⟩

/-- A search reads no word behind its first hit. -/
theorem mem_searchReads {a : Unsigned} : ∀ {n : Nat} {p : Unsigned}, a ∈ searchReads hit reads n p →
    ∃ i < n, a ∈ reads (p + BitVec.ofNat 32 (4 * i)) ∧ ∀ j < i, hit (p + BitVec.ofNat 32 (4 * j)) = false
  | 0,     p, h => by cases h
  | n + 1, p, h => by
    rw [searchReads] at h
    rcases List.mem_append.1 h with h | h
    · exact ⟨0, Nat.succ_pos n, by rwa [Nat.mul_zero, BitVec.add_zero], nofun⟩
    · cases hp : hit p with
      | true => rw [hp] at h; cases h
      | false =>
        rw [hp] at h
        obtain ⟨i, hi, ha, hj⟩ := mem_searchReads h
        have hnext : ∀ k : Nat, p + 4 + BitVec.ofNat 32 (4 * k) = p + BitVec.ofNat 32 (4 * (k + 1)) := by
          intro k
          rw [Nat.mul_succ, Nat.add_comm, BitVec.ofNat_add, ← BitVec.add_assoc]
          rfl
        refine ⟨i + 1, Nat.succ_lt_succ hi, by rwa [← hnext], fun j hji => ?_⟩
        cases j with
        | zero => rwa [Nat.mul_zero, BitVec.add_zero]
        | succ j =>
          rw [← hnext]
          exact hj j (Nat.lt_of_succ_lt_succ hji)

end

/-! ## Where the two structures are looked for -/

structure Area where
  start : Unsigned
  size  : Nat

/-- The `n` bytes from `p` on lie in the area. -/
def Area.Has (a : Area) (p : Unsigned) (n : Nat) : Prop := a.start.toNat ≤ p.toNat ∧ p.toNat + n ≤ a.start.toNat + a.size

/-- The Extended BIOS Data Area, whose size is in KiB, and the BIOS read-only memory. -/
def rsdpAreas (hw : HwInfo) : List Area := [⟨hw.ebdaAdr, hw.ebdaSize.toNat * 1024⟩, ⟨0xE0000, 0x20000⟩]

/-- The first KiB of the EBDA, the last KiB of base memory, and the BIOS read-only memory. -/
def fpAreas (hw : HwInfo) : List Area := [⟨hw.ebdaAdr, 1024⟩, ⟨639 * 1024, 1024⟩, ⟨0xE0000, 0x20000⟩]

def rsdpHit (mem : Memory) (p : Unsigned) : Bool := mem.u32 p == rsdpSig.1 && mem.u32 (p + 4) == rsdpSig.2

def fpHit (mem : Memory) (p : Unsigned) : Bool := mem.u32 p == fpSig

/-- The numbers of words that `get_info` searches. -/
def rsdpSearched (hw : HwInfo) : List (Unsigned × Nat) := [(hw.ebdaAdr, hw.ebdaSize.toNat / 4), (0xE0000, 0x20000 / 4)]

def fpSearched (hw : HwInfo) : List (Unsigned × Nat) :=
  [(hw.ebdaAdr, 1024 / 4), (639 * 1024, 1024 / 4), (0xE0000, 0x20000 / 4)]

/-- The part of `get_info` from the search for the RSDP to its checksum. -/
def findRsdp (mem : Memory) (hw : HwInfo) : Option Unsigned :=
  let rsdp := searchRsdp mem hw.ebdaAdr hw.ebdaSize
  let rsdp := if rsdp = 0 then searchRsdp mem 0xE0000 0x20000 else rsdp
  if rsdp = 0 then none
  else if checkSum mem rsdp 20 ≠ 0 then none else some rsdp

def fpLength (mem : Memory) (fp : Unsigned) : Nat := (mem (fp + 8)).toNat * 16

/-- The part from the search for the MP floating pointer to its checksum. -/
def findFp (mem : Memory) (hw : HwInfo) : Option Unsigned :=
  let fp := searchFp mem hw.ebdaAdr 1024
  let fp := if fp = 0 then searchFp mem (639 * 1024) 1024 else fp
  let fp := if fp = 0 then searchFp mem 0xE0000 0x20000 else fp
  if fp = 0 then none
  else if checkSum mem fp (fpLength mem fp) ≠ 0 then none else some fp

/-- The second word of the signature is read if the first one is right. -/
def rsdpWordReads (mem : Memory) (p : Unsigned) : List Unsigned :=
  bytesAt p 4 ++ if mem.u32 p == rsdpSig.1 then bytesAt (p + 4) 4 else []

def rsdpReads (mem : Memory) (hw : HwInfo) : List Unsigned :=
  let rsdp := searchAreas (rsdpHit mem) (rsdpSearched hw)
  areaReads (rsdpHit mem) (rsdpWordReads mem) (rsdpSearched hw) ++ if rsdp = 0 then [] else bytesAt rsdp 20

def fpReads (mem : Memory) (hw : HwInfo) : List Unsigned :=
  let fp := searchAreas (fpHit mem) (fpSearched hw)
  areaReads (fpHit mem) (bytesAt · 4) (fpSearched hw) ++
    if fp = 0 then [] else bytesAt (fp + 8) 1 ++ bytesAt fp (fpLength mem fp)

structure ValidRsdp (mem : Memory) (hw : HwInfo) (p : Unsigned) : Prop where
  signature : rsdpHit mem p = true
  aligned   : p.toNat % 16 = 0
  sum       : checkSum mem p 20 = 0
  inside    : ∃ area ∈ rsdpAreas hw, area.Has p 20

structure ValidFp (mem : Memory) (hw : HwInfo) (p : Unsigned) : Prop where
  signature : fpHit mem p = true
  length    : 0 < fpLength mem p
  sum       : checkSum mem p (fpLength mem p) = 0
  inside    : ∃ area ∈ fpAreas hw, area.Has p (fpLength mem p)

/-- **The search ends with a valid structure, and reads nothing outside of the areas.** -/
structure RootFound (found : Option Unsigned) (valid : Unsigned → Prop) (reads : List Unsigned) (areas : List Area) :
    Prop where
  found : ∃ p, found = some p ∧ valid p
  reads : ∀ a ∈ reads, ∃ area ∈ areas, area.Has a 1

def RsdpFound (mem : Memory) (hw : HwInfo) : Prop :=
  RootFound (findRsdp mem hw) (ValidRsdp mem hw) (rsdpReads mem hw) (rsdpAreas hw)

def FpFound (mem : Memory) (hw : HwInfo) : Prop := RootFound (findFp mem hw) (ValidFp mem hw) (fpReads mem hw) (fpAreas hw)

section
variable {mem : Memory} {hw : HwInfo} {p a : Unsigned}

/-! ### What `get_info` makes of them -/

theorem findRsdt_eq : findRsdt mem hw = if hw.cmdNoacpi ≠ 0 then none else
    (findRsdp mem hw).bind fun rsdp =>
      let rsdt := mem.u32 (rsdp + 16)
      if checkSum mem rsdt (hdrLength mem rsdt).toNat ≠ 0 then none else some rsdt := by
  unfold findRsdt findRsdp
  split
  · rfl
  · dsimp only
    generalize (if searchRsdp mem hw.ebdaAdr hw.ebdaSize = 0 then searchRsdp mem 0xE0000 0x20000
      else searchRsdp mem hw.ebdaAdr hw.ebdaSize) = rsdp
    by_cases hz : rsdp = 0
    · rw [if_pos hz, if_pos hz]
      rfl
    · rw [if_neg hz, if_neg hz]
      split <;> rfl

theorem findConfig_eq : findConfig mem hw = if hw.cmdNomps ≠ 0 then none else
    (findFp mem hw).bind fun fp =>
      if mem (fp + 9) ≠ 4 ∨ mem (fp + 11) ≠ 0 ∨ mem.u32 (fp + 4) = 0 then none
      else
        let config := mem.u32 (fp + 4)
        if checkSum mem config (mem.u16 (config + 4)).toNat ≠ 0 then none else some config := by
  unfold findConfig findFp
  split
  · rfl
  · dsimp only
    generalize (if searchFp mem hw.ebdaAdr 1024 = 0 then searchFp mem (639 * 1024) 1024
      else searchFp mem hw.ebdaAdr 1024) = fp
    generalize (if fp = 0 then searchFp mem 0xE0000 0x20000 else fp) = fp
    by_cases hz : fp = 0
    · rw [if_pos hz, if_pos hz]
      rfl
    · rw [if_neg hz, if_neg hz]
      show (if checkSum mem fp (fpLength mem fp) ≠ 0 then _ else _) = _
      split <;> rfl

/-- What is found is tested. -/
theorem accept_iff {q : Unsigned} (sum : Unsigned → BitVec 8) :
    (if q = 0 then none else if sum q ≠ 0 then none else some q) = some p ↔ (q = p ∧ p ≠ 0) ∧ sum p = 0 := by
  by_cases hz : q = 0
  · rw [if_pos hz]
    exact iff_of_false nofun (fun h => h.1.2 (h.1.1.symm.trans hz))
  · rw [if_neg hz]
    by_cases hs : sum q = 0
    · rw [if_neg (not_not.2 hs), Option.some.injEq]
      exact ⟨fun h => h ▸ ⟨⟨rfl, hz⟩, hs⟩, fun h => h.1.1⟩
    · rw [if_pos hs]
      exact iff_of_false nofun (fun h => hs (h.1.1 ▸ h.2))

theorem findRsdp_iff : findRsdp mem hw = some p ↔
    ((rsdpSearched hw).flatMap (areaWords (rsdpHit mem))).find? (rsdpHit mem) = some p ∧ checkSum mem p 20 = 0 := by
  have hsearch : searchAreas (rsdpHit mem) (rsdpSearched hw) =
      if searchRsdp mem hw.ebdaAdr hw.ebdaSize = 0 then searchRsdp mem 0xE0000 0x20000
      else searchRsdp mem hw.ebdaAdr hw.ebdaSize := by
    rw [rsdpSearched, searchAreas, searchAreas_one]
    rfl
  unfold findRsdp
  dsimp only
  rw [searchAreas_iff, ← hsearch]
  exact accept_iff (fun p => checkSum mem p 20)

theorem findFp_iff : findFp mem hw = some p ↔
    ((fpSearched hw).flatMap (areaWords (fpHit mem))).find? (fpHit mem) = some p ∧ checkSum mem p (fpLength mem p) = 0 := by
  have hsearch : searchAreas (fpHit mem) (fpSearched hw) =
      if searchFp mem hw.ebdaAdr 1024 = 0 then
        if searchFp mem (639 * 1024) 1024 = 0 then searchFp mem 0xE0000 0x20000 else searchFp mem (639 * 1024) 1024
      else searchFp mem hw.ebdaAdr 1024 := by
    rw [fpSearched, searchAreas, searchAreas, searchAreas_one]
    rfl
  have hnest : (if (if searchFp mem hw.ebdaAdr 1024 = 0 then searchFp mem (639 * 1024) 1024
      else searchFp mem hw.ebdaAdr 1024) = 0 then searchFp mem 0xE0000 0x20000
      else if searchFp mem hw.ebdaAdr 1024 = 0 then searchFp mem (639 * 1024) 1024 else searchFp mem hw.ebdaAdr 1024) =
      searchAreas (fpHit mem) (fpSearched hw) := by
    rw [hsearch]
    by_cases h : searchFp mem hw.ebdaAdr 1024 = 0
    · simp only [if_pos h]
    · simp only [if_neg h]
  unfold findFp
  dsimp only
  rw [searchAreas_iff, hnest]
  exact accept_iff (fun p => checkSum mem p (fpLength mem p))

/-! ### What is read -/

/-- The EBDA is in the first MiB and a bit. -/
structure EbdaLow (hw : HwInfo) : Prop where
  adr  : hw.ebdaAdr.toNat ≤ 0xFFFF0
  size : hw.ebdaSize.toNat ≤ 255

theorem initial_ebdaLow (mem : Memory) (cmdNoacpi cmdNomps : Unsigned) : EbdaLow (.initial mem cmdNoacpi cmdNomps) := by
  constructor
  · have hseg := (mem.u16 0x40E).isLt
    show ((mem.u16 0x40E).setWidth 32 <<< 4).toNat ≤ _
    rw [BitVec.toNat_shiftLeft, BitVec.toNat_setWidth, Nat.shiftLeft_eq]
    omega
  · have hbyte := (mem ((mem.u16 0x40E).setWidth 32 <<< 4)).isLt
    show ((mem ((mem.u16 0x40E).setWidth 32 <<< 4)).setWidth 32).toNat ≤ _
    rw [BitVec.toNat_setWidth]
    omega

theorem mem_bytesAt {n : Nat} : a ∈ bytesAt p n ↔ ∃ k < n, a = p + BitVec.ofNat 32 k := by
  simp [bytesAt, eq_comm]

theorem add_ofNat {o : Unsigned} {n : Nat} (h : o.toNat + n < 2 ^ 32) : (o + BitVec.ofNat 32 n).toNat = o.toNat + n := by
  rw [BitVec.toNat_add, BitVec.toNat_ofNat]
  omega

theorem Area.Has.byte {area : Area} {n : Nat} (h : area.Has p n) (hend : area.start.toNat + area.size < 2 ^ 32)
    (ha : a ∈ bytesAt p n) : area.Has a 1 := by
  obtain ⟨k, hk, rfl⟩ := mem_bytesAt.1 ha
  obtain ⟨h1, h2⟩ := h
  have hadd := add_ofNat (o := p) (n := k) (by omega)
  exact ⟨by rw [hadd]; omega, by rw [hadd]; omega⟩

theorem mem_areaReads {hit : Unsigned → Bool} {reads : Unsigned → List Unsigned} : ∀ {as : List (Unsigned × Nat)},
    a ∈ areaReads hit reads as → ∃ area ∈ as, ∃ i < area.2, a ∈ reads (area.1 + BitVec.ofNat 32 (4 * i))
  | [],              h => by cases h
  | (offset, n) :: as, h => by
    rw [areaReads] at h
    rcases List.mem_append.1 h with h | h
    · obtain ⟨i, hi, ha, -⟩ := mem_searchReads h
      exact ⟨(offset, n), List.mem_cons_self, i, hi, ha⟩
    · split at h
      · obtain ⟨area, harea, hi⟩ := mem_areaReads h
        exact ⟨area, List.mem_cons_of_mem _ harea, hi⟩
      · cases h

theorem mem_rsdpWordReads (h : a ∈ rsdpWordReads mem p) : ∃ k < 8, a = p + BitVec.ofNat 32 k := by
  rw [rsdpWordReads] at h
  rcases List.mem_append.1 h with h | h
  · obtain ⟨k, hk, rfl⟩ := mem_bytesAt.1 h
    exact ⟨k, by omega, rfl⟩
  · split at h
    · obtain ⟨k, hk, rfl⟩ := mem_bytesAt.1 h
      exact ⟨4 + k, by omega, by rw [BitVec.ofNat_add, ← BitVec.add_assoc]; rfl⟩
    · cases h

theorem rsdpAreas_end (hlow : EbdaLow hw) : ∀ area ∈ rsdpAreas hw, area.start.toNat + area.size < 2 ^ 32 := by
  have hadr := hlow.adr
  have hsize := hlow.size
  intro area harea
  rw [rsdpAreas, List.mem_cons, List.mem_singleton] at harea
  rcases harea with rfl | rfl
  · show hw.ebdaAdr.toNat + hw.ebdaSize.toNat * 1024 < 2 ^ 32
    omega
  · decide

theorem fpAreas_end (hlow : EbdaLow hw) : ∀ area ∈ fpAreas hw, area.start.toNat + area.size < 2 ^ 32 := by
  have hadr := hlow.adr
  intro area harea
  rw [fpAreas, List.mem_cons, List.mem_cons, List.mem_singleton] at harea
  rcases harea with rfl | rfl | rfl
  · show hw.ebdaAdr.toNat + 1024 < 2 ^ 32
    omega
  · decide
  · decide

/-- In the EBDA fewer bytes are searched than it has. -/
theorem ebda_reads_inside (hlow : EbdaLow hw) {i k : Nat} (hi : i < hw.ebdaSize.toNat / 4) (hk : k < 8) :
    (⟨hw.ebdaAdr, hw.ebdaSize.toNat * 1024⟩ : Area).Has (hw.ebdaAdr + BitVec.ofNat 32 (4 * i) + BitVec.ofNat 32 k) 1 := by
  have hadr := hlow.adr
  have hsize := hlow.size
  rw [BitVec.add_assoc, ← BitVec.ofNat_add]
  have hadd := add_ofNat (o := hw.ebdaAdr) (n := 4 * i + k) (by omega)
  exact ⟨by rw [hadd]; exact Nat.le_add_right _ _, by rw [hadd]; show _ ≤ hw.ebdaAdr.toNat + hw.ebdaSize.toNat * 1024; omega⟩

theorem rsdpReads_inside (hlow : EbdaLow hw)
    (hfind : ((rsdpSearched hw).flatMap (areaWords (rsdpHit mem))).find? (rsdpHit mem) = some p) (hv : ValidRsdp mem hw p) :
    ∀ a ∈ rsdpReads mem hw, ∃ area ∈ rsdpAreas hw, area.Has a 1 := by
  obtain ⟨hs, hp0⟩ := searchAreas_iff.1 hfind
  obtain ⟨area, harea, hin⟩ := hv.inside
  have hown : ∀ a ∈ bytesAt p 20, ∃ area ∈ rsdpAreas hw, area.Has a 1 :=
    fun a ha => ⟨area, harea, hin.byte (rsdpAreas_end hlow area harea) ha⟩
  intro a ha
  unfold rsdpReads at ha
  rcases List.mem_append.1 ha with ha | ha
  · rw [rsdpSearched, areaReads] at ha
    rcases List.mem_append.1 ha with ha | ha
    · obtain ⟨i, hi, ha, -⟩ := mem_searchReads ha
      obtain ⟨k, hk, rfl⟩ := mem_rsdpWordReads ha
      exact ⟨_, List.mem_cons_self, ebda_reads_inside hlow hi hk⟩
    · split at ha
      · rename_i hnone
        -- the hit is in the second area, and no word behind it is read
        have hrom : search (rsdpHit mem) (0x20000 / 4) 0xE0000 = p := by
          rw [rsdpSearched, searchAreas, searchAreas_one] at hs
          simpa only [if_pos hnone] using hs
        obtain ⟨hp, i₀, hi₀, hpi⟩ := search_hit hrom hp0
        rw [areaReads, areaReads, ite_self, List.append_nil] at ha
        obtain ⟨i, hi, ha, hbefore⟩ := mem_searchReads ha
        obtain ⟨k, hk, rfl⟩ := mem_rsdpWordReads ha
        rcases Nat.lt_trichotomy i i₀ with hlt | rfl | hgt
        · refine ⟨⟨0xE0000, 0x20000⟩, List.mem_cons_of_mem _ List.mem_cons_self, ?_⟩
          rw [BitVec.add_assoc, ← BitVec.ofNat_add]
          have hbase : (0xE0000 : Unsigned).toNat = 0xE0000 := rfl
          have hadd := add_ofNat (o := 0xE0000) (n := 4 * i + k) (by omega)
          refine ⟨by rw [hadd]; exact Nat.le_add_right _ _, ?_⟩
          rw [hadd]
          show 0xE0000 + (4 * i + k) + 1 ≤ 0xE0000 + 0x20000
          omega
        · rw [← hpi]
          exact hown _ (mem_bytesAt.2 ⟨k, by omega, rfl⟩)
        · have hno := hbefore i₀ hgt
          rw [← hpi, hp] at hno
          cases hno
      · cases ha
  · rw [hs, if_neg hp0] at ha
    exact hown a ha

theorem fpReads_inside (hlow : EbdaLow hw)
    (hfind : ((fpSearched hw).flatMap (areaWords (fpHit mem))).find? (fpHit mem) = some p) (hv : ValidFp mem hw p) :
    ∀ a ∈ fpReads mem hw, ∃ area ∈ fpAreas hw, area.Has a 1 := by
  obtain ⟨hs, hp0⟩ := searchAreas_iff.1 hfind
  obtain ⟨area, harea, hin⟩ := hv.inside
  have hend := fpAreas_end hlow
  intro a ha
  unfold fpReads at ha
  rcases List.mem_append.1 ha with ha | ha
  · obtain ⟨searched, hsearched, i, hi, ha⟩ := mem_areaReads ha
    -- each of the searched areas has 4 bytes for a word
    obtain ⟨area, harea, hstart, hsize⟩ : ∃ area ∈ fpAreas hw, area.start = searched.1 ∧ area.size = searched.2 * 4 := by
      simp only [fpSearched, List.mem_cons, List.not_mem_nil, or_false] at hsearched
      rcases hsearched with rfl | rfl | rfl
      · exact ⟨⟨hw.ebdaAdr, 1024⟩, List.mem_cons_self, rfl, rfl⟩
      · exact ⟨⟨639 * 1024, 1024⟩, List.mem_cons_of_mem _ List.mem_cons_self, rfl, rfl⟩
      · exact ⟨⟨0xE0000, 0x20000⟩, List.mem_cons_of_mem _ (List.mem_cons_of_mem _ List.mem_cons_self), rfl, rfl⟩
    have hlt := hend area harea
    have hadd := add_ofNat (o := searched.1) (n := 4 * i) (by rw [← hstart]; omega)
    have hword : area.Has (searched.1 + BitVec.ofNat 32 (4 * i)) 4 := by
      rw [Area.Has, hadd, hstart, hsize]
      omega
    exact ⟨area, harea, hword.byte hlt ha⟩
  · rw [hs, if_neg hp0] at ha
    have hlen : 16 ≤ fpLength mem p := by
      have hpos := hv.length
      rw [fpLength] at hpos ⊢
      omega
    refine ⟨area, harea, hin.byte (hend area harea) ?_⟩
    rcases List.mem_append.1 ha with ha | ha
    · obtain ⟨k, hk, rfl⟩ := mem_bytesAt.1 ha
      obtain rfl := Nat.lt_one_iff.1 hk
      exact mem_bytesAt.2 ⟨8, by omega, BitVec.add_zero _⟩
    · exact ha

theorem rsdpFound_iff (hlow : EbdaLow hw) : RsdpFound mem hw ↔
    ∃ p, ((rsdpSearched hw).flatMap (areaWords (rsdpHit mem))).find? (rsdpHit mem) = some p ∧ ValidRsdp mem hw p := by
  constructor
  · rintro ⟨⟨p, hp, hv⟩, -⟩
    exact ⟨p, (findRsdp_iff.1 hp).1, hv⟩
  · rintro ⟨p, hp, hv⟩
    exact ⟨⟨p, findRsdp_iff.2 ⟨hp, hv.sum⟩, hv⟩, rsdpReads_inside hlow hp hv⟩

theorem fpFound_iff (hlow : EbdaLow hw) : FpFound mem hw ↔
    ∃ p, ((fpSearched hw).flatMap (areaWords (fpHit mem))).find? (fpHit mem) = some p ∧ ValidFp mem hw p := by
  constructor
  · rintro ⟨⟨p, hp, hv⟩, -⟩
    exact ⟨p, (findFp_iff.1 hp).1, hv⟩
  · rintro ⟨p, hp, hv⟩
    exact ⟨⟨p, findFp_iff.2 ⟨hp, hv.sum⟩, hv⟩, fpReads_inside hlow hp hv⟩

end

/-- **The search for a root structure comes to a valid one exactly if the first place with the signature is one**, in the order
of the areas and of the words in them; of the EBDA as many words count as are in as many bytes as it has KiB. -/
theorem root_found_iff (mem : Memory) (cmdNoacpi cmdNomps : Unsigned) :
    (RsdpFound mem (.initial mem cmdNoacpi cmdNomps) ↔
      ∃ p, ((rsdpSearched (.initial mem cmdNoacpi cmdNomps)).flatMap (areaWords (rsdpHit mem))).find? (rsdpHit mem) = some p ∧
        ValidRsdp mem (.initial mem cmdNoacpi cmdNomps) p) ∧
    (FpFound mem (.initial mem cmdNoacpi cmdNomps) ↔
      ∃ p, ((fpSearched (.initial mem cmdNoacpi cmdNomps)).flatMap (areaWords (fpHit mem))).find? (fpHit mem) = some p ∧
        ValidFp mem (.initial mem cmdNoacpi cmdNomps) p) :=
  ⟨rsdpFound_iff (initial_ebdaLow mem cmdNoacpi cmdNomps), fpFound_iff (initial_ebdaLow mem cmdNoacpi cmdNomps)⟩

/-- An EBDA of 1 KiB with an RSDP and a false signature of a floating pointer; in the read-only memory it is the other way round. -/
def falseSignatures : Memory := memoryOf
  [(0x40E, [0xC0, 0x9F]),
   (0x9FC00, [1]),
   (0x9FC10, [0x52, 0x53, 0x44, 0x20, 0x50, 0x54, 0x52, 0x20, 0xe1]),
   (0x9FC40, [0x5f, 0x4d, 0x50, 0x5f, 0, 0, 0, 0, 1]),
   (0xE0000, [0x52, 0x53, 0x44, 0x20, 0x50, 0x54, 0x52, 0x20]),
   (0xE0010, [0x5f, 0x4d, 0x50, 0x5f, 0, 0, 0, 0, 1, 4, 0xa0])]

/-- **Both are rejected, and each is there.** -/
theorem falseSignatures_missed :
    ValidRsdp falseSignatures (.initial falseSignatures 0 0) 0x9FC10 ∧
    findRsdp falseSignatures (.initial falseSignatures 0 0) = none ∧
      ¬ RsdpFound falseSignatures (.initial falseSignatures 0 0) ∧
    ValidFp falseSignatures (.initial falseSignatures 0 0) 0xE0010 ∧
    findFp falseSignatures (.initial falseSignatures 0 0) = none ∧
      ¬ FpFound falseSignatures (.initial falseSignatures 0 0) := by
  have hrsdp : findRsdp falseSignatures (.initial falseSignatures 0 0) = none := by decide +kernel
  have hfp : findFp falseSignatures (.initial falseSignatures 0 0) = none := by decide +kernel
  refine ⟨⟨by decide +kernel, by decide, by decide +kernel, ?_⟩, hrsdp, fun h => ?_,
    ⟨by decide +kernel, by decide +kernel, by decide +kernel, ?_⟩, hfp, fun h => ?_⟩
  · exact ⟨_, List.mem_cons_self, by decide +kernel, by decide +kernel⟩
  · obtain ⟨p, hp, -⟩ := h.found
    rw [hrsdp] at hp
    cases hp
  · exact ⟨_, List.mem_cons_of_mem _ (List.mem_cons_of_mem _ List.mem_cons_self), by decide +kernel, by decide +kernel⟩
  · obtain ⟨p, hp, -⟩ := h.found
    rw [hfp] at hp
    cases hp

end SmpBoot
