import SmpBoot.Mm
/-!
# MmSpec — accesses, the window and the search for a free frame, each executed alone

`run_assigns`, `run_mapTemporary` and `run_clearTable` give the state a run leaves; `Took` is what `get_free_frame` did
when it returned a frame.
-/
namespace SmpBoot

open Resume Resume.Prog

variable {b : Build} {s : Mm b}

/-! ## Accesses -/

@[simp] theorem setEntry_mem (f i g j : Nat) (e : Entry) :
    (s.setEntry f i e).mem g j = if g = f ∧ j = i then e else s.mem g j := rfl
@[simp] theorem setEntry_freemap (f i : Nat) (e : Entry) : (s.setEntry f i e).freemap = s.freemap := rfl
@[simp] theorem setEntry_lastFramePt (f i : Nat) (e : Entry) : (s.setEntry f i e).lastFramePt = s.lastFramePt := rfl
@[simp] theorem setEntry_lastFrame4k (f i : Nat) (e : Entry) : (s.setEntry f i e).lastFrame4k = s.lastFrame4k := rfl
@[simp] theorem setEntry_nextVirtPage (f i : Nat) (e : Entry) : (s.setEntry f i e).nextVirtPage = s.nextVirtPage := rfl
@[simp] theorem setEntry_pd1 (f i : Nat) (e : Entry) : (s.setEntry f i e).pd1 = s.pd1 := rfl

@[simp] theorem setEntry_setEntry (f i : Nat) (e e' : Entry) : (s.setEntry f i e).setEntry f i e' = s.setEntry f i e' := by
  unfold Mm.setEntry
  congr 1; funext g j
  by_cases h : g = f ∧ j = i <;> simp [h]

theorem frame_setEntry {t : TablePtr} {f i : Nat} {e : Entry} (h : f ≠ b.mapTable ∨ i ≠ tmpPage) :
    t.frame (s.setEntry f i e) = t.frame s := by
  cases t with
  | phys g => rfl
  | tmpMap =>
    have hne : ¬ (b.mapTable = f ∧ tmpPage = i) := by
      rintro ⟨rfl, rfl⟩
      rcases h with h | h <;> exact h rfl
    simp only [TablePtr.frame, setEntry_mem, if_neg hne]

@[simp] theorem run_entry (t : TablePtr) (i : Nat) : (entry t i).run s = (s, .ok (s.mem (t.frame s) i)) := rfl

@[simp] theorem run_assign (t : TablePtr) (i : Nat) (f : Entry → Entry) :
    (assign t i f).run s = (s.setEntry (t.frame s) i (f (s.mem (t.frame s) i)), .ok ()) := rfl

/-- **Several assignments to one entry make one new entry**, as long as the pointer stays where it is. -/
theorem run_assigns (t : TablePtr) (i : Nat) : ∀ (fs : List (Entry → Entry)) (s : Mm b),
    (∀ e, t.frame (s.setEntry (t.frame s) i e) = t.frame s) →
    (assigns t i fs).run s = (if fs = [] then s else
      s.setEntry (t.frame s) i (fs.foldl (fun e f => f e) (s.mem (t.frame s) i)), .ok ())
  | [], _, _ => rfl
  | f :: fs, s, h => by
    show (assign t i f >>= fun _ => assigns t i fs).run s = _
    rw [run_bind_ok (run_assign t i f)]
    have hf := h (f (s.mem (t.frame s) i))
    rw [run_assigns t i fs _ (fun e => by rw [hf, setEntry_setEntry]; exact h e), hf]
    by_cases hfs : fs = []
    · subst hfs; rfl
    · simp [hfs]

/-- The entry of the window page after `map_temporary(f)` re-pointed it. -/
def windowEntry (b : Build) (f : Nat) (e : Entry) : Entry :=
  { e with frame := f % 2 ^ b.frameBits, rw := true, p := true, pwt := true }

def Mm.withWindow (s : Mm b) (f : Nat) : Mm b :=
  if (s.mem b.mapTable tmpPage).frame ≠ f then
    s.setEntry b.mapTable tmpPage (windowEntry b f (s.mem b.mapTable tmpPage))
  else s

theorem run_mapTemporary (f : Nat) : (mapTemporary f).run s = (s.withWindow f, .ok .tmpMap) := by
  unfold mapTemporary Mm.withWindow
  rw [run_bind_ok (run_entry (.phys b.mapTable) tmpPage)]
  by_cases h : (s.mem b.mapTable tmpPage).frame = f
  · simp [TablePtr.frame, h]
  · simp only [TablePtr.frame, ne_eq, h, not_false_eq_true, if_true]
    rw [run_bind_ok (run_assigns _ _ _ s (fun _ => rfl))]
    rfl

/-- **The window shows the frame that was asked for**, if the frame number fits the entry. -/
theorem window_withWindow {f : Nat} (h : f < 2 ^ b.frameBits) : TablePtr.frame (s.withWindow f) .tmpMap = f := by
  unfold Mm.withWindow
  split
  · simp [TablePtr.frame, windowEntry, Nat.mod_eq_of_lt h]
  · rename_i hn
    simpa [TablePtr.frame] using hn

theorem withWindow_eq (f : Nat) : ∃ e, s.withWindow f = s.setEntry b.mapTable tmpPage e ∧
    ((s.mem b.mapTable tmpPage).p = true → e.p = true) := by
  unfold Mm.withWindow
  split
  · exact ⟨_, rfl, fun _ => rfl⟩
  · refine ⟨s.mem b.mapTable tmpPage, ?_, id⟩
    cases s
    simp only [Mm.setEntry, Mm.mk.injEq, and_self, and_true]
    funext g j
    by_cases h : g = b.mapTable ∧ j = tmpPage
    · rw [if_pos h, h.1, h.2]
    · rw [if_neg h]

def Mm.cleared (s : Mm b) (f : Nat) : Mm b :=
  { s with mem := fun g j => if g = f ∧ j < b.entries then .zero else s.mem g j }

theorem run_clearTable (t : TablePtr) (h : t = .phys (t.frame s) ∨ t.frame s ≠ b.mapTable) :
    (clearTable t).run s = (s.cleared (t.frame s), .ok ()) := by
  let st : Nat → Mm b := fun n =>
    { s with mem := fun g j => if g = t.frame s ∧ j < n then .zero else s.mem g j }
  have hst : ∀ n, t.frame (st n) = t.frame s := by
    intro n
    rcases h with h | h
    · rw [h]; rfl
    · cases t with
      | phys g => rfl
      | tmpMap =>
        have hne : ¬ (b.mapTable = TablePtr.frame s .tmpMap ∧ tmpPage < n) := fun hh => h hh.1.symm
        exact congrArg Entry.frame (if_neg hne)
  have h0 : st 0 = s := by simp [st]
  have hrun := run_forN (fun i => (Prog.put fun s => s.setEntry (t.frame s) i .zero : MmProg b Unit)) st
    (fun i => by
      simp only [run_put, hst]
      congr 1
      simp only [Mm.setEntry, st]
      congr 1; funext g j
      by_cases hg : g = t.frame s
      · by_cases hj : j = i
        · simp [hg, hj]
        · have : j < i + 1 ↔ j < i := by omega
          simp [hg, hj, this]
      · simp [hg]) b.entries
  rw [h0] at hrun
  exact hrun

/-! ## Free frames -/

def Mm.taken (s : Mm b) (f : Nat) : Bool := isBitClear (s.freemap (freemapIndex b f)) (freemapBit b f)

/-- What `get_free_frame` did when it returned `f`: it moved its cursor to `f` and took `f` off the freemap. -/
structure Took (c : Cursor) (s s' : Mm b) (f : Nat) : Prop where
  cursor : s'.cursor c = f
  above  : s.cursor c ≤ f
  below  : f < maxFrames
  wasSet : s.taken f = false
  taken  : s'.taken f = true
  keeps  : ∀ g, s.taken g = true → s'.taken g = true
  mem    : s'.mem = s.mem
  pd1    : s'.pd1 = s.pd1
  next   : s'.nextVirtPage = s.nextVirtPage
  last4k : c = .pt → s'.lastFrame4k = s.lastFrame4k
  lastPt : c = .f4k → s'.lastFramePt = s.lastFramePt

@[simp] theorem cursor_setCursor (c : Cursor) (f : Nat) : (s.setCursor c f).cursor c = f := by cases c <;> rfl
@[simp] theorem freemap_setCursor (c : Cursor) (f : Nat) : (s.setCursor c f).freemap = s.freemap := by cases c <;> rfl
@[simp] theorem setCursor_setCursor (c : Cursor) (f g : Nat) : (s.setCursor c f).setCursor c g = s.setCursor c g := by
  cases c <;> rfl
theorem setCursor_self (c : Cursor) : s.setCursor c (s.cursor c) = s := by cases c <;> rfl
@[simp] theorem taken_setCursor (c : Cursor) (f g : Nat) : (s.setCursor c f).taken g = s.taken g := by
  unfold Mm.taken; rw [freemap_setCursor]

/-- **The search ends at the first frame from the cursor on that the freemap offers**, or out of memory. -/
theorem run_searchFrame (c : Cursor) : ∀ (n : Nat) (s : Mm b), s.cursor c < maxFrames → maxFrames ≤ n + s.cursor c →
    (∃ f, (searchFrame c n).run s = (s.setCursor c f, .ok ()) ∧ s.cursor c ≤ f ∧ f < maxFrames ∧ s.taken f = false ∧
      ∀ g, s.cursor c ≤ g → g < f → s.taken g = true) ∨
    ((searchFrame c n).run s = (s.setCursor c maxFrames, .error .outOfMemory) ∧
      ∀ g, s.cursor c ≤ g → g < maxFrames → s.taken g = true)
  | 0, s, h, h' => by omega
  | n + 1, s, h, h' => by
    have hrun : (searchFrame c (n + 1)).run s = if s.taken (s.cursor c) = true then
        (if s.cursor c + 1 ≥ maxFrames then (.stop .outOfMemory : MmProg b Unit) else searchFrame c n).run
          (s.setCursor c (s.cursor c + 1)) else (s, .ok ()) := by
      rw [searchFrame, run_bind_ok (run_get _ s), run_bind_ok (run_get _ s)]
      change (if s.taken (s.cursor c) = true then _ else _ : MmProg b Unit).run s = _
      split
      · rw [run_bind_ok (run_get _ s), run_bind_ok (run_put _ s), run_bind_ok (run_get _ _), cursor_setCursor]
      · rfl
    rw [hrun]
    cases ht : s.taken (s.cursor c) with
    | false =>
      refine .inl ⟨s.cursor c, ?_, Nat.le_refl _, h, ht, fun g h1 h2 => by omega⟩
      rw [if_neg (by simp), setCursor_self]
    | true =>
      simp only [if_true]
      have hext : ∀ k, (∀ g, s.cursor c + 1 ≤ g → g < k → s.taken g = true) →
          ∀ g, s.cursor c ≤ g → g < k → s.taken g = true := by
        intro k hk g h1 h2
        by_cases hgc : g = s.cursor c
        · rw [hgc, ht]
        · exact hk g (by omega) h2
      split
      · have hc : s.cursor c + 1 = maxFrames := by omega
        exact .inr ⟨by rw [run_stop, hc], hext _ (fun g h1 h2 => by omega)⟩
      · rename_i hlt
        have ih := run_searchFrame c n (s.setCursor c (s.cursor c + 1)) (by simpa using hlt) (by simp; omega)
        simp only [cursor_setCursor, taken_setCursor, setCursor_setCursor] at ih
        rcases ih with ⟨f, h1, h2, h3, h4, h5⟩ | ⟨h1, h2⟩
        · exact .inl ⟨f, h1, by omega, h3, h4, hext _ h5⟩
        · exact .inr ⟨h1, hext _ h2⟩

theorem searchFrame_ends (c : Cursor) (n : Nat) (s : Mm b) (h : s.cursor c < maxFrames) (hn : maxFrames ≤ n + s.cursor c) :
    Ends (· = .outOfMemory) (searchFrame c n) s (fun s' _ => ∃ f, s' = s.setCursor c f ∧ s.cursor c ≤ f ∧
      f < maxFrames ∧ s.taken f = false ∧ ∀ g, s.cursor c ≤ g → g < f → s.taken g = true) := by
  rcases run_searchFrame c n s h hn with ⟨f, h1, h2⟩ | ⟨h1, -⟩
  · exact Ends.of_run h1 ⟨f, rfl, h2⟩
  · exact Ends.of_error h1 rfl

theorem taken_setWord (f g : Nat) (h : s.taken g = true) :
    (s.setWord (freemapIndex b f) (bitClear (s.freemap (freemapIndex b f)) (freemapBit b f))).taken g = true := by
  unfold Mm.taken Mm.setWord at *
  by_cases hi : freemapIndex b g = freemapIndex b f
  · simp only [hi, if_true]
    exact isBitClear_bitClear_of (by rw [← hi]; exact h) _
  · simp only [hi, if_false]
    exact h

theorem takeFrame_ends (c : Cursor) (h : s.cursor c < maxFrames) :
    Ends (· = .outOfMemory) (takeFrame c) s (fun s' f => Took c s s' f) := by
  refine Ends.bind (searchFrame_ends c maxFrames s h (by omega)) ?_
  rintro _ - ⟨f, rfl, h1, h2, h3, -⟩
  refine Ends.bind_of_run (run_get _ _) (Ends.bind_of_run (run_get _ _) (Ends.bind_of_run (run_put _ _)
    (Ends.get ?_)))
  simp only [cursor_setCursor]
  have htk : ∀ g, s.taken g = true → ((s.setCursor c f).setWord (freemapIndex b f)
      (bitClear ((s.setCursor c f).freemap (freemapIndex b f)) (freemapBit b f))).taken g = true := fun g hg =>
    taken_setWord f g (by rw [taken_setCursor]; exact hg)
  have hf : ((s.setCursor c f).setWord (freemapIndex b f)
      (bitClear ((s.setCursor c f).freemap (freemapIndex b f)) (freemapBit b f))).taken f = true := by
    simp only [Mm.taken, Mm.setWord, if_true]
    exact isBitClear_bitClear _ _
  have hc : ∀ i w, ((s.setCursor c f).setWord i w).cursor c = f := by intro i w; cases c <;> rfl
  refine ⟨by rw [hc], by rw [hc]; exact h1, by rw [hc]; exact h2, by rw [hc]; exact h3, by rw [hc]; exact hf, htk, ?_,
    ?_, ?_, ?_, ?_⟩
  · cases c <;> rfl
  · cases c <;> rfl
  · cases c <;> rfl
  · rintro rfl; rfl
  · rintro rfl; rfl

theorem getFreeFrame_pt (h : s.lastFramePt < maxFrames) :
    Ends (· = .outOfMemory) (getFreeFrame frameTypePt) s (fun s' f => Took .pt s s' f) := takeFrame_ends .pt h

theorem getFreeFrame_4k (h : s.lastFrame4k < maxFrames) :
    Ends (· = .outOfMemory) (getFreeFrame frameType4k) s (fun s' f => Took .f4k s s' f) := takeFrame_ends .f4k h

end SmpBoot
