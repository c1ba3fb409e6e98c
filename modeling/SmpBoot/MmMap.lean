import SmpBoot.MmTables
/-!
# MmMap — `map_frame_to_adr`, `reconf_adr` and `virt_to_phys` on a tree of tables

`mapFrameToAdr_ends`: a page that was absent gets the frame, no other page changes, and what tables were added are made of
frames the freemap offered.  `reconfAdr_ends` and `virtToPhys_ends`: no page but the window's changes its frame.
-/
namespace SmpBoot

open Resume Resume.Prog

variable {b : Build} {s : Mm b} {α : Type}

/-- The indices above the page table, from the first level on. -/
def dirPath : (b : Build) → (adr : Nat) → List Nat
  | .b64, adr => [pd1Index .b64 adr, pd2Index adr, pd3Index adr]
  | .b32, adr => [pd1Index .b32 adr]

@[simp] theorem length_dirPath (b : Build) (adr : Nat) : (dirPath b adr).length = b.depth := by cases b <;> rfl

theorem levelIndex_lt (b : Build) (k adr : Nat) : levelIndex b k adr < b.entries := by
  unfold levelIndex Build.entries
  rw [Nat.and_two_pow_sub_one_eq_mod]
  exact Nat.mod_lt _ (Nat.two_pow_pos _)

theorem ptIndex_lt (b : Build) (adr : Nat) : ptIndex b adr < b.entries := levelIndex_lt b 0 adr

/-! ## One level -/

theorem Ends.bindEntry {E : Stop → Prop} {t : TablePtr} {i : Nat} {k : Entry → MmProg b α} {Q : Mm b → α → Prop}
    (h : Ends E (k (s.mem (t.frame s) i)) s Q) : Ends E (entry t i >>= k) s Q :=
  Ends.bind_of_run (run_entry t i) h

theorem nextTable_present (h : Tables s) {t : TablePtr} {π : List Nat} {i : Nat} (hπ : π.length < b.depth)
    (ht : s.tableAt π = some (t.frame s)) (hi : i < b.entries) (link : Nat → List (Entry → Entry))
    (hp : (s.mem (t.frame s) i).p = true) :
    Ends (· = .outOfMemory) (nextTable t i link) s (fun s' r => r = .tmpMap ∧ Tables s' ∧ Keeps s s' ∧
      s'.tableAt (π ++ [i]) = some (TablePtr.frame s' .tmpMap)) := by
  refine Ends.bindEntry ?_
  rw [hp]
  simp only [Bool.true_eq_false, if_false]
  refine Ends.bindEntry (Ends.of_run (run_mapTemporary _) ?_)
  obtain ⟨h1, h2, h3⟩ := h.withWindow (s.mem (t.frame s) i).frame
  have hlen : (π ++ [i]).length ≤ b.depth := by rw [List.length_append]; exact hπ
  have hat : s.tableAt (π ++ [i]) = some (s.mem (t.frame s) i).frame := by rw [h.child_eq hπ ht hi, hp]; rfl
  refine ⟨rfl, h1, h2, ?_⟩
  rw [h3 _ hlen, hat, window_withWindow (h.fits hlen hat)]

theorem nextTable_absent (h : Tables s) {t : TablePtr} {π : List Nat} {i : Nat} (hπ : π.length < b.depth)
    (ht : s.tableAt π = some (t.frame s)) (hi : i < b.entries) {link : Nat → List (Entry → Entry)}
    (hlink : link = linkPFirst b ∨ link = linkFrameFirst b) (hp : (s.mem (t.frame s) i).p = false) :
    Ends (· = .outOfMemory) (nextTable t i link) s (fun s' r => r = .tmpMap ∧ Tables s' ∧ Keeps s s' ∧
      s'.tableAt (π ++ [i]) = some (TablePtr.frame s' .tmpMap)) := by
  refine Ends.bindEntry ?_
  rw [hp]
  simp only [if_true]
  refine Ends.bind (getFreeFrame_pt h.ptMax) (fun s₁ g hg => ?_)
  -- the store does not move the pointer: a directory is not the window's page table
  have ht₁ : t.frame s₁ = t.frame s := by
    cases t with
    | phys _ => rfl
    | tmpMap => simp only [TablePtr.frame, hg.mem]
  have hne : t.frame s₁ ≠ b.mapTable := by
    rw [ht₁]; exact h.ne_of_depth (length_winPath b) h.win hπ ht
  have hgf : g % 2 ^ b.frameBits = g := Nat.mod_eq_of_lt (Nat.lt_trans hg.below (maxFrames_lt_frame b))
  have hfold : ∀ e : Entry, (link g).foldl (fun e f => f e) e = { e with p := true, rw := true, frame := g } := by
    intro e
    rcases hlink with rfl | rfl <;> simp [linkPFirst, linkFrameFirst, Entry.setP, Entry.setRw, Entry.setFrame, hgf]
  have hnil : link g ≠ [] := by rcases hlink with rfl | rfl <;> simp [linkPFirst, linkFrameFirst]
  have hrun := run_assigns t i (link g) s₁ (fun e => frame_setEntry (.inl hne))
  rw [if_neg hnil, hfold] at hrun
  refine Ends.bind_of_run hrun (Ends.bindEntry ?_)
  simp only [frame_setEntry (.inl hne), setEntry_mem, and_self, if_true]
  refine Ends.bind_of_run (run_mapTemporary g) ?_
  have hwin : TablePtr.frame ((s₁.setEntry (t.frame s₁) i
      { s₁.mem (t.frame s₁) i with p := true, rw := true, frame := g }).withWindow g) .tmpMap = g :=
    window_withWindow (Nat.lt_trans hg.below (maxFrames_lt_frame b))
  have hgm : g ≠ b.mapTable := by
    have h1 : s.lastFramePt ≤ g := hg.above
    have h2 := h.ptAt
    have h3 : b.mapTable < 0x400 := by cases b <;> decide
    omega
  have hclr := run_clearTable (s := (s₁.setEntry (t.frame s₁) i
      { s₁.mem (t.frame s₁) i with p := true, rw := true, frame := g }).withWindow g) .tmpMap
      (.inr (by rw [hwin]; exact hgm))
  rw [hwin] at hclr
  refine Ends.bind_of_run hclr (Ends.pure ?_)
  have hps : (s₁.mem (t.frame s) i).ps = false := by rw [hg.mem]; exact h.noHuge π _ i hπ ht hi
  obtain ⟨h1, h2, h3⟩ := h.link hπ ht hi hp hg
    (e := { s₁.mem (t.frame s₁) i with p := true, rw := true, frame := g }) ⟨rfl, by rw [ht₁]; exact hps, rfl⟩
  rw [ht₁]
  rw [ht₁] at h1 h2 h3
  refine ⟨rfl, h1, h2, h3.trans (congrArg some ?_)⟩
  have hne' : ¬ (b.mapTable = g ∧ tmpPage < b.entries) := fun hh => hgm hh.1.symm
  rw [ht₁] at hwin
  simp only [TablePtr.frame, Mm.cleared, if_neg hne'] at hwin ⊢
  exact hwin.symm

/-- **One level of `map_frame_to_adr`** ends with the window on the table of the longer path. -/
theorem nextTable_ends (h : Tables s) {t : TablePtr} {π : List Nat} {i : Nat} (hπ : π.length < b.depth)
    (ht : s.tableAt π = some (t.frame s)) (hi : i < b.entries) {link : Nat → List (Entry → Entry)}
    (hlink : link = linkPFirst b ∨ link = linkFrameFirst b) :
    Ends (· = .outOfMemory) (nextTable t i link) s (fun s' r => r = .tmpMap ∧ Tables s' ∧ Keeps s s' ∧
      s'.tableAt (π ++ [i]) = some (TablePtr.frame s' .tmpMap)) := by
  cases hp : (s.mem (t.frame s) i).p with
  | true => exact nextTable_present h hπ ht hi link hp
  | false => exact nextTable_absent h hπ ht hi hlink hp

theorem run_assignIf {t : TablePtr} {j : Nat} (e : Entry) (c : Bool) (f : Entry → Entry)
    (hstay : ∀ e, t.frame (s.setEntry (t.frame s) j e) = t.frame s) :
    (assignIf c t j f).run (s.setEntry (t.frame s) j e) =
      (s.setEntry (t.frame s) j (if c then f e else e), .ok ()) := by
  unfold assignIf
  split
  · rw [run_assign, hstay, setEntry_setEntry, setEntry_mem, if_pos ⟨rfl, rfl⟩]
  · rfl

theorem run_mapPage {pt : TablePtr} {j frame : Nat} (flags : Nat) (hp : (s.mem (pt.frame s) j).p = false)
    (hstay : ∀ e, pt.frame (s.setEntry (pt.frame s) j e) = pt.frame s) (hf : frame < 2 ^ b.frameBits) :
    ∃ e, (mapPage pt j frame flags).run s = (s.setEntry (pt.frame s) j e, .ok ()) ∧ e.p = true ∧ e.frame = frame := by
  have hrun := run_assigns pt j [Entry.setFrame b frame, Entry.setRw, Entry.setP] s hstay
  rw [if_neg (by simp)] at hrun
  simp only [List.foldl_cons, List.foldl_nil, Entry.setFrame, Entry.setRw, Entry.setP, Nat.mod_eq_of_lt hf] at hrun
  unfold mapPage
  rw [run_bind_ok (run_entry pt j), if_pos hp, run_bind_ok hrun, run_bind_ok (run_assignIf _ _ _ hstay),
    run_assignIf _ _ _ hstay]
  refine ⟨_, rfl, ?_, ?_⟩ <;> split <;> (try split) <;> rfl

/-! ## One page -/

/-- What mapping a page does: the page gets the frame, the rest is kept. -/
structure Mapped (s s' : Mm b) (π : List Nat) (i frame : Nat) : Prop where
  page   : s'.lookup π i = some frame
  others : ∀ ρ j, ρ.length = b.depth → (ρ, j) ≠ (winPath b, tmpPage) → (ρ, j) ≠ (π, i) → s'.lookup ρ j = s.lookup ρ j
  tables : ∀ ρ t, ρ.length ≤ b.depth → s'.tableAt ρ = some t → s.tableAt ρ = some t ∨ s.taken t = false
  taken  : ∀ f, s.taken f = true → s'.taken f = true
  last4k : s'.lastFrame4k = s.lastFrame4k
  next   : s'.nextVirtPage = s.nextVirtPage

theorem mapPage_ends {s₀ : Mm b} (h : Tables s) (hk : Keeps s₀ s) {π : List Nat} {i frame flags : Nat}
    (hπ : π.length = b.depth) (ht : s.tableAt π = some (TablePtr.frame s .tmpMap)) (hi : i < b.entries)
    (hw : (π, i) ≠ (winPath b, tmpPage)) (hfree : s₀.lookup π i = none) (hf : frame < 2 ^ b.frameBits) :
    Ends (· = .outOfMemory) (mapPage .tmpMap i frame flags) s (fun s' _ => Tables s' ∧ Mapped s₀ s' π i frame) := by
  have hfree' : s.lookup π i = none := by rw [hk.pages π i hπ hw]; exact hfree
  have hp : (s.mem (TablePtr.frame s .tmpMap) i).p = false := by
    rw [Mm.lookup, ht] at hfree'
    simp only [Option.bind_some, Mm.leaf, hi, true_and] at hfree'
    cases hpp : (s.mem (TablePtr.frame s .tmpMap) i).p with
    | false => rfl
    | true => simp [hpp] at hfree'
  have hne : TablePtr.frame s .tmpMap ≠ b.mapTable ∨ i ≠ tmpPage := by
    by_contra hcon
    rw [not_or, not_ne_iff, not_ne_iff] at hcon
    rw [hcon.1] at ht
    exact hw (by rw [hcon.2, h.tree π (winPath b) _ (Nat.le_of_eq hπ) (Nat.le_of_eq (length_winPath b)) ht h.win])
  obtain ⟨e, hrun, hep, hef⟩ := run_mapPage flags hp (fun e => frame_setEntry hne) hf
  refine Ends.of_run hrun ⟨h.setLeaf hπ ht, ?_, fun ρ j hρ hwj hij => ?_, fun ρ t hρ hn => ?_, hk.taken, hk.last4k,
    hk.next⟩
  · rw [h.lookup_setLeaf hπ ht hi π hπ i, if_pos rfl, if_pos hep, hef]
  · rw [h.lookup_setLeaf hπ ht hi ρ hρ j, if_neg hij]
    exact hk.pages ρ j hρ hwj
  · rw [h.tableAt_setLeaf hπ ht ρ hρ] at hn
    exact hk.tables ρ t hρ hn

/-- **`map_frame_to_adr` maps an absent page and nothing else.** -/
theorem mapFrameToAdr_ends (h : Tables s) {frame adr flags : Nat} (hfl : flags &&& mapHuge = 0)
    (hw : (dirPath b adr, ptIndex b adr) ≠ (winPath b, tmpPage)) (hfree : s.lookup (dirPath b adr) (ptIndex b adr) = none)
    (hf : frame < 2 ^ b.frameBits) :
    Ends (· = .outOfMemory) (mapFrameToAdr b frame adr flags) s
      (fun s' _ => Tables s' ∧ Mapped s s' (dirPath b adr) (ptIndex b adr) frame) := by
  unfold mapFrameToAdr
  rw [if_neg (by simp [hfl])]
  have hroot : s.tableAt [] = some (TablePtr.frame s (.phys s.pd1)) := rfl
  cases b with
  | b64 =>
    refine Ends.bind_of_run (run_get _ s) ?_
    refine Ends.bind (nextTable_ends h (π := []) (by decide) hroot (levelIndex_lt _ _ _) (.inl rfl)) ?_
    rintro s₁ _ ⟨rfl, h₁, k₁, t₁⟩
    refine Ends.bind (nextTable_ends (π := [pd1Index .b64 adr]) h₁ (show 1 < 3 by decide) t₁
      (levelIndex_lt _ _ _) (.inl rfl)) ?_
    rintro s₂ _ ⟨rfl, h₂, k₂, t₂⟩
    refine Ends.bind (nextTable_ends (π := [pd1Index .b64 adr, pd2Index adr]) h₂ (show 2 < 3 by decide) t₂
      (levelIndex_lt _ _ _) (.inr rfl)) ?_
    rintro s₃ _ ⟨rfl, h₃, k₃, t₃⟩
    exact mapPage_ends h₃ ((k₁.trans k₂).trans k₃) (length_dirPath .b64 adr) t₃ (ptIndex_lt _ _) hw hfree hf
  | b32 =>
    refine Ends.bind_of_run (run_get _ s) ?_
    refine Ends.bind (nextTable_ends h (π := []) (by decide) hroot (levelIndex_lt _ _ _) (.inr rfl)) ?_
    rintro s₁ _ ⟨rfl, h₁, k₁, t₁⟩
    exact mapPage_ends h₁ k₁ (length_dirPath .b32 adr) t₁ (ptIndex_lt _ _) hw hfree hf

/-! ## Calls that map nothing -/

/-- What `heap_reconfig` and `virt_to_phys` keep. -/
def Stays (s s' : Mm b) : Prop := Tables s' ∧ Keeps s s'

theorem Stays.trans {s s' s'' : Mm b} (h : Stays s s') (h' : Stays s' s'') : Stays s s'' := ⟨h'.1, h.2.trans h'.2⟩

theorem Ends.bindWindow {E : Stop → Prop} {s₀ : Mm b} {f : Nat} {k : TablePtr → MmProg b α} {Q : Mm b → α → Prop}
    (h : Stays s₀ s) (hk : Stays s₀ (s.withWindow f) → (∀ π, π.length ≤ b.depth →
      (s.withWindow f).tableAt π = s.tableAt π) → Ends E (k .tmpMap) (s.withWindow f) Q) :
    Ends E (mapTemporary f >>= k) s Q := by
  obtain ⟨h1, h2, h3⟩ := h.1.withWindow f
  exact Ends.bind_of_run (run_mapTemporary f) (hk ⟨h1, h.2.trans h2⟩ h3)

theorem findTable_ends {s₀ : Mm b} (h : Stays s₀ s) {t : TablePtr} {π : List Nat} {i : Nat} (hπ : π.length < b.depth)
    (ht : s.tableAt π = some (t.frame s)) (hi : i < b.entries) :
    Ends (· = .outOfMemory) (findTable t i) s (fun s' r => Stays s₀ s' ∧
      ∀ p, r = some p → s'.tableAt (π ++ [i]) = some (p.frame s')) := by
  refine Ends.bindEntry ?_
  cases hp : (s.mem (t.frame s) i).p with
  | false => exact Ends.pure ⟨h, fun p hr => by cases hr⟩
  | true =>
    simp only [Bool.true_eq_false, if_false]
    refine Ends.bindEntry (Ends.bindWindow h (fun h' hat => Ends.pure ⟨h', fun p hr => ?_⟩))
    cases hr
    have hlen : (π ++ [i]).length ≤ b.depth := by rw [List.length_append]; exact hπ
    have hat' : s.tableAt (π ++ [i]) = some (s.mem (t.frame s) i).frame := by rw [h.1.child_eq hπ ht hi, hp]; rfl
    rw [hat _ hlen, hat', window_withWindow (h.1.fits hlen hat')]

/-- What `reconf_adr` makes of the entry of a page. -/
def setModes (flags : Nat) (e : Entry) : Entry := Entry.setPcd (flags &&& mapPcd ≠ 0) (Entry.setPwt (flags &&& mapPwt ≠ 0) e)

theorem run_reconfPage (t : TablePtr) (i flags : Nat) : (reconfPage t i flags).run s =
    (if (s.mem (t.frame s) i).p = true then s.setEntry (t.frame s) i (setModes flags (s.mem (t.frame s) i)) else s,
      .ok ()) := by
  unfold reconfPage
  rw [run_bind_ok (run_entry t i)]
  cases hp : (s.mem (t.frame s) i).p with
  | false => rfl
  | true =>
    simp only [Bool.true_eq_false, if_false, if_true]
    rw [run_bind_ok (run_assign t i _), run_assign t i _]
    -- the first store keeps the pointer: the window's own entry keeps its frame
    have hfr : t.frame (s.setEntry (t.frame s) i (Entry.setPwt (flags &&& mapPwt ≠ 0) (s.mem (t.frame s) i))) =
        t.frame s := by
      cases t with
      | phys _ => rfl
      | tmpMap =>
        by_cases hw : b.mapTable = TablePtr.frame s .tmpMap ∧ tmpPage = i
        · simp only [TablePtr.frame, setEntry_mem] at hw ⊢
          rw [if_pos hw, ← hw.2]
          exact congrArg (fun n => (s.mem n tmpPage).frame) hw.1.symm
        · simp only [TablePtr.frame, setEntry_mem] at hw ⊢
          rw [if_neg hw]
    rw [hfr, setEntry_setEntry, setEntry_mem, if_pos ⟨rfl, rfl⟩]
    rfl

theorem reconfPage_ends {s₀ : Mm b} (h : Stays s₀ s) {t : TablePtr} {π : List Nat} {i flags : Nat}
    (hπ : π.length = b.depth) (ht : s.tableAt π = some (t.frame s)) (hi : i < b.entries) :
    Ends (· = .outOfMemory) (reconfPage t i flags) s (fun s' _ => Stays s₀ s') := by
  refine Ends.of_run (run_reconfPage t i flags) ?_
  split
  · exact ⟨h.1.setLeaf hπ ht, h.2.trans (h.1.keeps_setLeaf hπ ht hi (.inr ⟨rfl, rfl⟩))⟩
  · exact h

theorem ifMapped_ends {E : Stop → Prop} {s₀ : Mm b} (h : Stays s₀ s) {t : Option TablePtr}
    {k : TablePtr → MmProg b Unit} (hk : ∀ p, t = some p → Ends E (k p) s (fun s' _ => Stays s₀ s')) :
    Ends E (ifMapped t k) s (fun s' _ => Stays s₀ s') := by
  cases t with
  | none => exact Ends.pure h
  | some p => exact hk p rfl

/-- **`reconf_adr` changes no frame of any page.** -/
theorem reconfAdr_ends {s₀ : Mm b} (h : Stays s₀ s) (adr flags : Nat) :
    Ends (· = .outOfMemory) (reconfAdr b adr flags) s (fun s' _ => Stays s₀ s') := by
  unfold reconfAdr
  split
  · exact Ends.pure h
  have hroot : s.tableAt [] = some (TablePtr.frame s (.phys s.pd1)) := rfl
  cases b with
  | b64 =>
    refine Ends.bind_of_run (run_get _ s) ?_
    refine Ends.bind (findTable_ends (π := []) h (by decide) hroot (levelIndex_lt _ _ _)) ?_
    rintro s₁ r₁ ⟨h₁, t₁⟩
    refine ifMapped_ends h₁ (fun p₁ hr₁ => Ends.bind
      (findTable_ends (π := [pd1Index .b64 adr]) h₁ (show 1 < 3 by decide) (t₁ p₁ hr₁) (levelIndex_lt _ _ _)) ?_)
    rintro s₂ r₂ ⟨h₂, t₂⟩
    refine ifMapped_ends h₂ (fun p₂ hr₂ => Ends.bind
      (findTable_ends (π := [pd1Index .b64 adr, pd2Index adr]) h₂ (show 2 < 3 by decide) (t₂ p₂ hr₂)
        (levelIndex_lt _ _ _)) ?_)
    rintro s₃ r₃ ⟨h₃, t₃⟩
    exact ifMapped_ends h₃ (fun p₃ hr₃ => reconfPage_ends h₃ (length_dirPath .b64 adr) (t₃ p₃ hr₃) (ptIndex_lt _ _))
  | b32 =>
    refine Ends.bind_of_run (run_get _ s) ?_
    refine Ends.bind (findTable_ends (π := []) h (by decide) hroot (levelIndex_lt _ _ _)) ?_
    rintro s₁ r₁ ⟨h₁, t₁⟩
    exact ifMapped_ends h₁ (fun p₁ hr₁ => reconfPage_ends h₁ (length_dirPath .b32 adr) (t₁ p₁ hr₁) (ptIndex_lt _ _))

/-- **`virt_to_phys` changes no frame of any page.** -/
theorem virtToPhys_ends (h : Tables s) (adr : Nat) :
    Ends (· = .outOfMemory) (virtToPhys b adr) s (fun s' _ => Stays s s') := by
  have h₀ : Stays s s := ⟨h, Keeps.refl s⟩
  cases b with
  | b64 =>
    refine Ends.bind_of_run (run_get _ s) (Ends.bindEntry ?_)
    split
    · exact Ends.pure h₀
    refine Ends.bindEntry (Ends.bindWindow h₀ (fun h₁ _ => Ends.bindEntry ?_))
    split
    · exact Ends.pure h₁
    refine Ends.bindEntry ?_
    split
    · exact Ends.bindEntry (Ends.pure h₁)
    refine Ends.bindEntry (Ends.bindWindow h₁ (fun h₂ _ => Ends.bindEntry ?_))
    split
    · exact Ends.pure h₂
    refine Ends.bindEntry ?_
    split
    · exact Ends.bindEntry (Ends.pure h₂)
    refine Ends.bindEntry (Ends.bindWindow h₂ (fun h₃ _ => Ends.bindEntry ?_))
    split
    · exact Ends.pure h₃
    exact Ends.bindEntry (Ends.pure h₃)
  | b32 =>
    refine Ends.bind_of_run (run_get _ s) (Ends.bindEntry ?_)
    split
    · exact Ends.pure h₀
    refine Ends.bindEntry ?_
    split
    · exact Ends.bindEntry (Ends.pure h₀)
    refine Ends.bindEntry (Ends.bindWindow h₀ (fun h₁ _ => Ends.bindEntry ?_))
    split
    · exact Ends.pure h₁
    exact Ends.bindEntry (Ends.pure h₁)

end SmpBoot
