import SmpBoot.Freemap
import SmpBoot.MmRuns
/-!
# FreeFrames — `get_free_frame` is a full search

Two cursors walk over one bitmap and never move back.  `Searched` is what makes a search from a cursor a search from the
start of the range: every frame between the two is off the freemap, whichever kind of call took it.
-/
namespace SmpBoot

open Resume Resume.Prog

variable {b : Build} {s s' s₀ : Mm b}

namespace Cursor

/-- Where the search begins before the first call. -/
def start : Cursor → Nat
  | .pt  => 0x400
  | .f4k => 0x800

def type : Cursor → Nat
  | .pt  => frameTypePt
  | .f4k => frameType4k

end Cursor

theorem getFreeFrame_type (c : Cursor) : getFreeFrame (b := b) c.type = takeFrame c := by cases c <;> rfl

/-- The lowest frame from `start` on whose bit tests set. -/
def fullSearch (m : Words b) (start : Nat) : Option Nat := (List.range' start (maxFrames - start)).find? m.test

theorem fullSearch_eq_some {m : Words b} {start f : Nat} : fullSearch m start = some f ↔
    start ≤ f ∧ f < maxFrames ∧ m.test f = true ∧ ∀ g, start ≤ g → g < f → m.test g = false := by
  unfold fullSearch
  rw [List.find?_range'_eq_some]
  simp only [List.mem_range'_1, Bool.not_eq_true']
  constructor
  · rintro ⟨h1, ⟨h2, h3⟩, h4⟩
    exact ⟨h2, by omega, h1, h4⟩
  · rintro ⟨h1, h2, h3, h4⟩
    exact ⟨h3, ⟨h1, by omega⟩, h4⟩

theorem fullSearch_eq_none {m : Words b} {start : Nat} : fullSearch m start = none ↔
    ∀ f, start ≤ f → f < maxFrames → m.test f = false := by
  unfold fullSearch
  rw [List.find?_eq_none]
  simp only [List.mem_range'_1, Bool.not_eq_true]
  constructor
  · intro h f h1 h2
    exact h f ⟨h1, by omega⟩
  · intro h f hf
    exact h f hf.1 (by omega)

/-- What a call for the frames of `c` does by full search: the frame found is cleared and returned; without one the call
halts. -/
def fullTake (c : Cursor) (s : Mm b) : Mm b × Except Stop Nat :=
  match fullSearch s.freemap c.start with
  | some f => ({ s.setCursor c f with freemap := Words.clearBit s.freemap f }, .ok f)
  | none   => (s.setCursor c maxFrames, .error .outOfMemory)

theorem taken_eq (s : Mm b) (f : Nat) : s.taken f = !Words.test s.freemap f := isBitClear_eq _ _

/-- Every frame between the start of a range and its cursor is off the freemap. -/
def Searched (s : Mm b) : Prop :=
  ∀ c : Cursor, c.start ≤ s.cursor c ∧ s.cursor c < maxFrames ∧
    ∀ g, c.start ≤ g → g < s.cursor c → Words.test s.freemap g = false

/-- The static variables as they are initialised. -/
def FreshCursors (s : Mm b) : Prop := ∀ c : Cursor, s.cursor c = c.start

theorem FreshCursors.searched (h : FreshCursors s) : Searched s := by
  intro c
  rw [h c]
  refine ⟨Nat.le_refl _, ?_, fun g h1 h2 => by omega⟩
  cases c <;> decide

/-- `mm_init` hands out no frame. -/
theorem Started.freshCursors (st : Started b) : FreshCursors st.state
  | .pt  => st.booted.lastPt
  | .f4k => st.booted.last4k

/-- **A search from the cursor on is a full search.** -/
theorem Searched.run_takeFrame (h : Searched s) (c : Cursor) : (takeFrame c).run s = fullTake c s := by
  obtain ⟨h1, h2, h3⟩ := h c
  unfold fullTake
  rcases run_searchFrame c maxFrames s h2 (by omega) with ⟨f, hr, h4, h5, h6, h7⟩ | ⟨hr, h4⟩
  · have hfound : fullSearch s.freemap c.start = some f := by
      refine fullSearch_eq_some.2 ⟨by omega, h5, by simpa [taken_eq] using h6, fun g hg hgf => ?_⟩
      by_cases hgc : g < s.cursor c
      · exact h3 g hg hgc
      · simpa [taken_eq] using h7 g (by omega) hgf
    rw [takeFrame, run_bind_ok hr, run_bind_ok (run_get _ _), run_bind_ok (run_get _ _), run_bind_ok (run_put _ _),
      run_get, hfound]
    simp only [cursor_setCursor, freemap_setCursor]
    cases c <;> rfl
  · have hnone : fullSearch s.freemap c.start = none := by
      refine fullSearch_eq_none.2 (fun g hg hgm => ?_)
      by_cases hgc : g < s.cursor c
      · exact h3 g hg hgc
      · simpa [taken_eq] using h4 g (by omega) hgm
    rw [takeFrame, run_bind, hr, hnone]

theorem clearBit_test_mono {m : Words b} {g : Nat} (f : Nat) (h : m.test g = false) : (m.clearBit f).test g = false := by
  rw [Words.test_clearBit, h, Bool.and_false]

theorem clearBit_test_self (m : Words b) (f : Nat) : (m.clearBit f).test f = false := by
  rw [Words.test_clearBit, decide_eq_true (Shares.refl b f)]
  rfl

/-- **One call**: what it searched over stays off the freemap. -/
theorem Searched.step (h : Searched s) {c : Cursor} {f : Nat} (hf : fullSearch s.freemap c.start = some f) :
    Searched { s.setCursor c f with freemap := Words.clearBit s.freemap f } := by
  obtain ⟨h1, h2, h3, h4⟩ := fullSearch_eq_some.1 hf
  intro d
  obtain ⟨k1, k2, k3⟩ := h d
  have hown : ({ s.setCursor c f with freemap := Words.clearBit s.freemap f } : Mm b).cursor c = f := by cases c <;> rfl
  by_cases hd : d = c
  · subst hd
    rw [hown]
    exact ⟨h1, h2, fun g hg hgf => clearBit_test_mono f (h4 g hg hgf)⟩
  · have hoth : ({ s.setCursor c f with freemap := Words.clearBit s.freemap f } : Mm b).cursor d = s.cursor d := by
      cases c <;> cases d <;> first | rfl | exact absurd rfl hd
    rw [hoth]
    exact ⟨k1, k2, fun g hg hgf => clearBit_test_mono f (k3 g hg hgf)⟩

/-- The calls that returned so far, each with its kind and its frame, and the state they leave. -/
inductive Takes (s₀ : Mm b) : List (Cursor × Nat) → Mm b → Prop
  | nil : Takes s₀ [] s₀
  | snoc {done : List (Cursor × Nat)} {s s' : Mm b} {c : Cursor} {f : Nat} : Takes s₀ done s →
      (getFreeFrame c.type).run s = (s', .ok f) → Takes s₀ (done ++ [(c, f)]) s'

/-- What a run of calls keeps: what was searched stays off, and so do the frames handed out. -/
theorem Takes.searched (h₀ : FreshCursors s₀) {done : List (Cursor × Nat)} (h : Takes s₀ done s) :
    Searched s ∧ (done.map Prod.snd).Nodup ∧ ∀ f ∈ done.map Prod.snd, Words.test s.freemap f = false := by
  induction h with
  | nil => exact ⟨h₀.searched, List.nodup_nil, fun _ hf => by cases hf⟩
  | @snoc done s s' c f _ hr ih =>
    obtain ⟨hs, hnd, hoff⟩ := ih
    rw [getFreeFrame_type, hs.run_takeFrame, fullTake] at hr
    split at hr
    · rename_i g hg
      cases hr
      obtain ⟨-, -, hset, -⟩ := fullSearch_eq_some.1 hg
      have hnew : f ∉ done.map Prod.snd := fun hf => by rw [hoff f hf] at hset; cases hset
      rw [List.map_append, List.map_singleton]
      refine ⟨hs.step hg, ?_, fun g hg' => ?_⟩
      · refine List.nodup_append.2 ⟨hnd, by simp, fun x hx y hy hxy => hnew ?_⟩
        rw [hxy, List.mem_singleton.1 hy] at hx
        exact hx
      · rcases List.mem_append.1 hg' with hg' | hg'
        · exact clearBit_test_mono f (hoff g hg')
        · rw [List.mem_singleton.1 hg']
          exact clearBit_test_self _ _
    · cases hr

/-- A frame handed out was on the freemap before the first call. -/
theorem Takes.was_set (h₀ : FreshCursors s₀) {done : List (Cursor × Nat)} (h : Takes s₀ done s) :
    (∀ f ∈ done.map Prod.snd, 0x400 ≤ f ∧ f < maxFrames ∧ Words.test s₀.freemap f = true) ∧
      ∀ f, Words.test s.freemap f = true → Words.test s₀.freemap f = true := by
  induction h with
  | nil => exact ⟨fun _ hf => (List.not_mem_nil hf).elim, fun _ hf => hf⟩
  | @snoc done s s' c f ht hr ih =>
    obtain ⟨hs, -, -⟩ := ht.searched h₀
    rw [getFreeFrame_type, hs.run_takeFrame, fullTake] at hr
    split at hr
    · rename_i g hg
      cases hr
      obtain ⟨h1, h2, hset, -⟩ := fullSearch_eq_some.1 hg
      have hstart : 0x400 ≤ c.start := by cases c <;> decide
      refine ⟨fun g hg' => ?_, fun g hg' => ih.2 g ?_⟩
      · rw [List.map_append, List.map_singleton] at hg'
        rcases List.mem_append.1 hg' with hg' | hg'
        · exact ih.1 g hg'
        · rw [List.mem_singleton.1 hg']
          exact ⟨Nat.le_trans hstart h1, h2, ih.2 f hset⟩
      · cases hgs : Words.test s.freemap g with
        | true => rfl
        | false => rw [clearBit_test_mono f hgs] at hg'; cases hg'
    · cases hr

/-! ## The bounds of the array -/

/-- The state with other words behind the end of `freemap`. -/
def Mm.outside (m : Words b) (s : Mm b) : Mm b :=
  { s with freemap := fun i => if i < maxFrames / b.longBits then s.freemap i else m i }

theorem freemapIndex_lt {f : Nat} (h : f < maxFrames) : freemapIndex b f < maxFrames / b.longBits := by
  have hmax : maxFrames = 0x80000 := rfl
  unfold freemapIndex
  cases b <;> simp only [Build.longBits, hmax] at * <;> omega

theorem freemap_outside {f : Nat} (h : f < maxFrames) (m : Words b) (s : Mm b) :
    (s.outside m).freemap (freemapIndex b f) = s.freemap (freemapIndex b f) := if_pos (freemapIndex_lt h)

theorem cursor_outside (m : Words b) (s : Mm b) (c : Cursor) : (s.outside m).cursor c = s.cursor c := by cases c <;> rfl

theorem setCursor_outside (m : Words b) (s : Mm b) (c : Cursor) (f : Nat) :
    (s.outside m).setCursor c f = (s.setCursor c f).outside m := by cases c <;> rfl

theorem setWord_outside {i : Nat} (h : i < maxFrames / b.longBits) (m : Words b) (s : Mm b) (w : BitVec b.longBits) :
    (s.outside m).setWord i w = (s.setWord i w).outside m := by
  unfold Mm.setWord Mm.outside
  congr 1
  funext j
  by_cases hj : j = i
  · subst hj; simp [h]
  · simp [hj]

theorem searchFrame_ignores (c : Cursor) : ∀ (n : Nat) (s : Mm b), s.cursor c < maxFrames →
    (searchFrame c n).Ignores Mm.outside s
  | 0,     _, _ => trivial
  | n + 1, s, h => by
    refine Ignores.bind_of_run (Ignores.get (fun m => cursor_outside m s c)) (run_get _ s) ?_
    refine Ignores.bind_of_run (Ignores.get (fun m => freemap_outside h m s)) (run_get _ s) ?_
    split
    · refine Ignores.bind_of_run (Ignores.get (fun m => cursor_outside m s c)) (run_get _ s) ?_
      refine Ignores.bind_of_run (Ignores.put (fun m => setCursor_outside m s c _)) (run_put _ s) ?_
      refine Ignores.bind_of_run (Ignores.get (fun m => cursor_outside m _ c)) (run_get _ _) ?_
      rw [cursor_setCursor]
      split
      · exact trivial
      · exact searchFrame_ignores c n _ (by rw [cursor_setCursor]; omega)
    · exact trivial

/-- **No index outside `freemap` is used.** -/
theorem Searched.takeFrame_ignores (h : Searched s) (c : Cursor) : (takeFrame c).Ignores Mm.outside s := by
  obtain ⟨-, h2, -⟩ := h c
  refine (searchFrame_ignores c maxFrames s h2).bind (fun t _ ht => ?_)
  obtain ⟨f, rfl, hf⟩ : ∃ f, t = s.setCursor c f ∧ f < maxFrames := by
    rcases run_searchFrame c maxFrames s h2 (by omega) with ⟨f, hr, -, hf, -⟩ | ⟨hr, -⟩
    · rw [hr] at ht
      cases ht
      exact ⟨f, rfl, hf⟩
    · rw [hr] at ht
      cases ht
  refine Ignores.bind_of_run (Ignores.get (fun m => cursor_outside m _ c)) (run_get _ _) ?_
  rw [cursor_setCursor]
  refine Ignores.bind_of_run (Ignores.get (fun m => freemap_outside hf m _)) (run_get _ _) ?_
  refine Ignores.bind_of_run (Ignores.put (fun m => setWord_outside (freemapIndex_lt hf) m _ _)) (run_put _ _) ?_
  exact Ignores.get (fun m => cursor_outside m _ c)

/-- **Whatever the freemap held before the first call**, at every point of every sequence of calls the next call, of either
kind, is a full search and stays inside the array; and no frame is handed out twice. -/
theorem takes_fullSearch (h₀ : FreshCursors s₀) {done : List (Cursor × Nat)} (h : Takes s₀ done s) :
    (∀ c : Cursor, (getFreeFrame c.type).run s = fullTake c s ∧ (getFreeFrame c.type).Ignores Mm.outside s) ∧
      (done.map Prod.snd).Nodup := by
  obtain ⟨hs, hnd, -⟩ := h.searched h₀
  refine ⟨fun c => ?_, hnd⟩
  rw [getFreeFrame_type]
  exact ⟨hs.run_takeFrame c, hs.takeFrame_ignores c⟩

/-- Every bit is set. -/
def allFree : Mm .b64 := Mm.boot .b64 (fun _ _ => .zero) (fun _ => BitVec.allOnes 64)

theorem takes_fullSearch_allFree : ∃ s, Takes allFree [(.f4k, 0x800), (.pt, 0x400)] s ∧
    ((∀ c : Cursor, (getFreeFrame c.type).run s = fullTake c s ∧ (getFreeFrame c.type).Ignores Mm.outside s) ∧
      ([(.f4k, 0x800), (.pt, 0x400)].map (Prod.snd (α := Cursor) (β := Nat))).Nodup) := by
  have h₀ : FreshCursors allFree := fun c => by cases c <;> rfl
  have h : Takes allFree ([] ++ [(.f4k, 0x800)] ++ [(.pt, 0x400)]) _ := .snoc (.snoc .nil rfl) rfl
  exact ⟨_, h, takes_fullSearch h₀ h⟩

end SmpBoot
