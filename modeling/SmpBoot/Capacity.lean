import SmpBoot.MmWalk
import SmpBoot.Registered
/-!
# Capacity — with enough frames every heap call returns

Nothing but `get_free_frame` runs out of memory, and a page needs one frame and at most one for each level of tables below
the first.  `Spends n p` says that `p` takes at most `n` frames and does not run out of memory while there are so many,
whatever the page tables hold.  With the invariants of `MmHeap` and `MmShared` it follows that all calls return, one after
the other (`runCalls_complete`) as in every interleaving (`shared_complete`).
-/
namespace SmpBoot

open Resume Resume.Prog Interleave OneLock

variable {b : Build} {s s' : Mm b} {α β : Type}

/-! ## The frames left -/

/-- How many frames a `BIT_CLEAR` takes off the freemap at most. -/
def Build.cost : Build → Nat
  | .b32 => 1
  | .b64 => 2

/-- How many frames the freemap offers from 0x800 on, where the searches of both kinds pass. -/
def Mm.room (s : Mm b) : Nat :=
  ((Finset.Ico (Cursor.start .f4k) maxFrames).filter (fun f => Words.test s.freemap f = true)).card

/-- `n` calls of `get_free_frame`, of whatever kinds, find a frame. -/
def Mm.Supplies (s : Mm b) (n : Nat) : Prop := n * b.cost ≤ s.room

theorem Mm.Supplies.mono {n k : Nat} (h : s.Supplies n) (hk : k ≤ n) : s.Supplies k :=
  Nat.le_trans (Nat.mul_le_mul_right _ hk) h

/-- The frames with the bit of `f`. -/
def sharing : Build → Nat → Finset Nat
  | .b32, f => {f}
  | .b64, f => {f / 64 * 64 + f % 32, f / 64 * 64 + f % 32 + 32}

theorem mem_sharing {f g : Nat} (h : Shares b f g) : g ∈ sharing b f := by
  cases b with
  | b32 => exact Finset.mem_singleton.2 (shares32.1 h).symm
  | b64 =>
    obtain ⟨h1, h2⟩ := shares64.1 h
    simp only [sharing, Finset.mem_insert, Finset.mem_singleton]
    omega

theorem card_sharing (b : Build) (f : Nat) : (sharing b f).card ≤ b.cost := by
  cases b with
  | b32 => exact Nat.le_of_eq (Finset.card_singleton f)
  | b64 => exact Finset.card_le_two

theorem room_congr (h : s'.freemap = s.freemap) : s'.room = s.room := by
  unfold Mm.room
  rw [h]

/-- **Taking a frame takes few off the freemap.** -/
theorem room_clearBit {f : Nat} (h : s'.freemap = Words.clearBit s.freemap f) : s.room ≤ s'.room + b.cost := by
  have hsub : (Finset.Ico (Cursor.start .f4k) maxFrames).filter (fun g => Words.test s.freemap g = true) ⊆
      (Finset.Ico (Cursor.start .f4k) maxFrames).filter (fun g => Words.test s'.freemap g = true) ∪ sharing b f := by
    intro g hg
    obtain ⟨hin, hset⟩ := Finset.mem_filter.1 hg
    rw [Finset.mem_union]
    by_cases hs : Shares b f g
    · exact .inr (mem_sharing hs)
    · refine .inl (Finset.mem_filter.2 ⟨hin, ?_⟩)
      rw [h, Words.test_clearBit, hset]
      simp [hs]
  calc s.room ≤ _ := Finset.card_le_card hsub
    _ ≤ s'.room + (sharing b f).card := Finset.card_union_le _ _
    _ ≤ s'.room + b.cost := Nat.add_le_add_left (card_sharing b f) _

/-- While there is room a search of either kind finds a frame. -/
theorem fullSearch_of_room (c : Cursor) (h : 0 < s.room) : ∃ f, fullSearch s.freemap c.start = some f := by
  obtain ⟨g, hg⟩ := Finset.card_pos.1 h
  obtain ⟨hin, hset⟩ := Finset.mem_filter.1 hg
  obtain ⟨h1, h2⟩ := Finset.mem_Ico.1 hin
  cases hf : fullSearch s.freemap c.start with
  | some f => exact ⟨f, rfl⟩
  | none =>
    have hstart : c.start ≤ Cursor.start .f4k := by cases c <;> decide
    rw [fullSearch_eq_none.1 hf g (Nat.le_trans hstart h1) h2] at hset
    cases hset

/-! ## What a program takes -/

/-- Whatever the page tables hold, `p` takes at most `n` frames, and does not run out of memory if there are so many. -/
def Spends (n : Nat) (p : MmProg b α) : Prop :=
  ∀ (s : Mm b) (k : Nat), Searched s → s.Supplies (n + k) →
    Ends (· ≠ .outOfMemory) p s (fun s' _ => Searched s' ∧ s'.Supplies k)

namespace Spends

variable {n m : Nat} {p : MmProg b α}

theorem mono (h : Spends n p) (hm : n ≤ m) : Spends m p := fun s k hs hn =>
  h s k hs (hn.mono (Nat.add_le_add_right hm k))

theorem pure {a : α} : Spends n (Pure.pure a : MmProg b α) := fun _ _ hs hn => Ends.pure ⟨hs, hn.mono (Nat.le_add_left _ _)⟩

theorem get {f : Mm b → α} : Spends n (Prog.get f : MmProg b α) := fun _ _ hs hn =>
  Ends.get ⟨hs, hn.mono (Nat.le_add_left _ _)⟩

theorem stop {e : Stop} (he : e ≠ .outOfMemory) : Spends n (.stop e : MmProg b α) := fun _ _ _ _ => Ends.stop he

/-- An access that leaves the freemap and the cursors alone. -/
theorem put {u : Mm b → Mm b} (hm : ∀ s, (u s).freemap = s.freemap) (hc : ∀ s c, (u s).cursor c = s.cursor c) :
    Spends n (Prog.put u : MmProg b Unit) := by
  intro s k hs hn
  refine Ends.put ⟨fun c => ?_, ?_⟩
  · rw [hc, hm]
    exact hs c
  · have hn' := hn.mono (Nat.le_add_left k n)
    unfold Mm.Supplies at *
    rwa [room_congr (hm s)]

/-- **In a row**: the takings add up. -/
theorem bind {f : α → MmProg b β} (hp : Spends n p) (hf : ∀ a, Spends m (f a)) : Spends (n + m) (p >>= f) := by
  intro s k hs hn
  rw [Nat.add_assoc] at hn
  refine Ends.bind (hp s (m + k) hs hn) ?_
  rintro s₁ a ⟨hs₁, hn₁⟩
  exact hf a s₁ k hs₁ hn₁

/-- A first part that takes nothing. -/
theorem next {f : α → MmProg b β} (hp : Spends 0 p) (hf : ∀ a, Spends n (f a)) : Spends n (p >>= f) := by
  have h := hp.bind hf
  rwa [Nat.zero_add] at h

theorem ite {c : Prop} [Decidable c] {q : MmProg b α} (hp : Spends n p) (hq : Spends n q) :
    Spends n (if c then p else q) := by
  split
  · exact hp
  · exact hq

theorem forN {body : Nat → MmProg b Unit} (h : ∀ i, Spends 0 (body i)) : ∀ n, Spends 0 (Prog.forN body n)
  | 0     => pure
  | n + 1 => (forN h n).next (fun _ => h n)

/-- **A call of `get_free_frame` takes one frame.** -/
theorem takeFrame (c : Cursor) : Spends 1 (SmpBoot.takeFrame (b := b) c) := by
  intro s k hs hn
  have hroom : b.cost + k * b.cost ≤ s.room := by
    have h := hn
    unfold Mm.Supplies at h
    rwa [Nat.add_mul, Nat.one_mul] at h
  have hpos : 0 < b.cost := by cases b <;> decide
  obtain ⟨f, hf⟩ := fullSearch_of_room c (show 0 < s.room by omega)
  have hrun := hs.run_takeFrame c
  rw [fullTake, hf] at hrun
  refine Ends.of_run hrun ⟨hs.step hf, ?_⟩
  have hleft : s.room ≤ Mm.room { s.setCursor c f with freemap := Words.clearBit s.freemap f } + b.cost := room_clearBit rfl
  unfold Mm.Supplies
  omega

end Spends

/-! ## The functions of `mm.c` -/

section Accesses

variable (t : TablePtr) (i : Nat)

theorem entry_spends {n : Nat} : Spends n (entry (b := b) t i) := Spends.get

theorem cursor_setEntry (f j : Nat) (e : Entry) (c : Cursor) : (s.setEntry f j e).cursor c = s.cursor c := by
  cases c <;> rfl

theorem assign_spends (f : Entry → Entry) : Spends 0 (assign (b := b) t i f) := by
  apply Spends.next (entry_spends t i)
  intro e
  exact Spends.put (fun _ => rfl) (fun _ _ => cursor_setEntry _ _ _ _)

theorem assigns_spends : ∀ fs : List (Entry → Entry), Spends 0 (assigns (b := b) t i fs)
  | []      => Spends.pure
  | f :: fs => (assign_spends t i f).next (fun _ => assigns_spends fs)

theorem assignIf_spends (c : Bool) (f : Entry → Entry) : Spends 0 (assignIf (b := b) c t i f) :=
  Spends.ite (assign_spends t i f) Spends.pure

theorem clearTable_spends : Spends 0 (clearTable (b := b) t) := by
  apply Spends.forN
  intro j
  exact Spends.put (fun _ => rfl) (fun _ _ => cursor_setEntry _ _ _ _)

theorem mapTemporary_spends (f : Nat) : Spends 0 (mapTemporary (b := b) f) := by
  apply Spends.next (entry_spends _ _)
  intro e
  exact Spends.ite ((assigns_spends _ _ _).next (fun _ => Spends.pure)) Spends.pure

/-- **One level of tables takes at most one frame.** -/
theorem nextTable_spends (link : Nat → List (Entry → Entry)) : Spends 1 (nextTable (b := b) t i link) := by
  apply Spends.next (entry_spends t i)
  intro e
  apply Spends.ite
  · apply (Spends.takeFrame .pt).bind (m := 0)
    intro f
    apply (assigns_spends t i (link f)).next
    intro _
    apply (entry_spends t i).next
    intro e
    apply (mapTemporary_spends e.frame).next
    intro next
    exact (clearTable_spends next).next (fun _ => Spends.pure)
  · apply (entry_spends t i).next
    intro e
    exact (mapTemporary_spends e.frame).mono (Nat.zero_le 1)

theorem mapPage_spends (frame flags : Nat) : Spends 0 (mapPage (b := b) t i frame flags) := by
  apply (entry_spends t i).next
  intro e
  apply Spends.ite
  · apply (assigns_spends t i _).next
    intro _
    exact (assignIf_spends t i _ _).next (fun _ => assignIf_spends t i _ _)
  · exact Spends.pure

theorem findTable_spends : Spends 0 (findTable (b := b) t i) := by
  apply (entry_spends t i).next
  intro e
  apply Spends.ite Spends.pure
  apply (entry_spends t i).next
  intro e
  exact (mapTemporary_spends e.frame).next (fun _ => Spends.pure)

theorem reconfPage_spends (flags : Nat) : Spends 0 (reconfPage (b := b) t i flags) := by
  apply (entry_spends t i).next
  intro e
  apply Spends.ite Spends.pure
  exact (assign_spends t i _).next (fun _ => assign_spends t i _)

end Accesses

/-- **Mapping a page takes at most one frame for each level.** -/
theorem mapFrameToAdr_spends (frame adr flags : Nat) : Spends b.depth (mapFrameToAdr b frame adr flags) := by
  apply Spends.ite (Spends.stop (by decide))
  cases b with
  | b64 =>
    apply Spends.next Spends.get
    intro pd1
    apply (nextTable_spends pd1 _ _).bind (m := 2)
    intro pd2
    apply (nextTable_spends pd2 _ _).bind (m := 1)
    intro pd3
    apply (nextTable_spends pd3 _ _).bind (m := 0)
    intro pt
    exact mapPage_spends pt _ _ _
  | b32 =>
    apply Spends.next Spends.get
    intro pd1
    apply (nextTable_spends pd1 _ _).bind (m := 0)
    intro pt
    exact mapPage_spends pt _ _ _

theorem ifMapped_spends {t : Option TablePtr} {k : TablePtr → MmProg b Unit} (h : ∀ p, Spends 0 (k p)) :
    Spends 0 (ifMapped t k) := by
  cases t with
  | none   => exact Spends.pure
  | some p => exact h p

theorem reconfAdr_spends (adr flags : Nat) : Spends 0 (reconfAdr b adr flags) := by
  apply Spends.ite Spends.pure
  cases b with
  | b64 =>
    apply Spends.next Spends.get
    intro pd1
    apply (findTable_spends pd1 _).next
    intro pd2
    apply ifMapped_spends
    intro pd2
    apply (findTable_spends pd2 _).next
    intro pd3
    apply ifMapped_spends
    intro pd3
    exact (findTable_spends pd3 _).next (fun _ => ifMapped_spends (fun pt => reconfPage_spends pt _ _))
  | b32 =>
    apply Spends.next Spends.get
    intro pd1
    exact (findTable_spends pd1 _).next (fun _ => ifMapped_spends (fun pt => reconfPage_spends pt _ _))

theorem heapReconfigLoop_spends (flags last : Nat) : ∀ fuel p, Spends 0 (heapReconfigLoop (b := b) flags last fuel p)
  | 0,        _ => Spends.stop (by decide)
  | fuel + 1, p => Spends.ite
      ((reconfAdr_spends p flags).next (fun _ => heapReconfigLoop_spends flags last fuel _)) Spends.pure

theorem look_spends (adr : Nat) : ∀ (k : Nat) (t : TablePtr), Spends 0 (look b adr k t)
  | 0, t => by
    apply (entry_spends t _).next
    intro e
    exact Spends.ite Spends.pure ((entry_spends t _).next (fun _ => Spends.pure))
  | k + 1, t => by
    have hdown : Spends 0 (entry (b := b) t (levelIndex b (k + 1) adr) >>= fun e =>
        mapTemporary e.frame >>= fun next => look b adr k next) := by
      apply (entry_spends t _).next
      intro e
      exact (mapTemporary_spends e.frame).next (fun next => look_spends adr k next)
    apply (entry_spends t _).next
    intro e
    apply Spends.ite Spends.pure
    apply Spends.ite _ hdown
    apply (entry_spends t _).next
    intro e
    exact Spends.ite ((entry_spends t _).next (fun _ => Spends.pure)) hdown

theorem heapAllocLoop_spends (flags : Nat) : ∀ n, Spends (n * (b.depth + 1)) (heapAllocLoop (b := b) flags n)
  | 0     => Spends.pure
  | n + 1 => by
    rw [Nat.add_mul, Nat.one_mul, Nat.add_comm _ (b.depth + 1), Nat.add_comm b.depth 1, Nat.add_assoc]
    apply (Spends.takeFrame .f4k).bind
    intro frame
    apply Spends.next Spends.get
    intro page
    apply (mapFrameToAdr_spends frame _ flags).bind
    intro _
    apply Spends.next Spends.get
    intro page
    refine Spends.next (Spends.put (u := fun s => { s with nextVirtPage := page + 1 }) (fun _ => rfl) (fun _ c => ?_)) ?_
    · cases c <;> rfl
    intro _
    rw [Nat.add_comm 1]
    exact (heapAllocLoop_spends flags n).bind (m := 0) (fun _ => Spends.pure)

/-- How many frames a call takes at most. -/
def HeapCall.frames (b : Build) : HeapCall → Nat
  | .heapAlloc n _      => n * (b.depth + 1)
  | .heapReconfig _ _ _ => 0
  | .virtToPhys _       => 0

theorem HeapCall.body_spends : ∀ c : HeapCall, Spends (c.frames b) (c.body (b := b))
  | .heapAlloc n flags => by
    apply Spends.bind (m := 0) _ (fun _ => Spends.pure)
    apply Spends.next Spends.get
    intro page
    exact (heapAllocLoop_spends _ n).bind (m := 0) (fun _ => Spends.pure)
  | .heapReconfig adr size flags => (heapReconfigLoop_spends _ _ _ _).next (fun _ => Spends.pure)
  | .virtToPhys adr => by
    apply Spends.next _ (fun _ => Spends.pure)
    rw [virtToPhys_eq]
    exact Spends.next Spends.get (fun pd1 => look_spends adr b.depth pd1)

/-! ## Calls one after the other -/

/-- The heap, with `n` frames left. -/
structure Mm.Ready (s : Mm b) (n : Nat) : Prop where
  heap     : Heap s
  searched : Searched s
  supplies : s.Supplies n

/-- **A heap call returns** if there are as many frames as it takes, and leaves the others. -/
theorem HeapCall.returns {c : HeapCall} {n : Nat} (h : s.Ready (c.frames b + n)) :
    ∃ s' r, c.body.run s = (s', .ok r) ∧ s'.Ready n := by
  have hspends := c.body_spends s n h.searched h.supplies
  obtain ⟨s', r, hr, ⟨hg, -⟩, hs, hn⟩ := ((c.body_ends h.heap).and hspends fun _ he hne => hne he).returns
  exact ⟨s', r, hr, hg.heap, hs, hn⟩

theorem runCalls_all : ∀ (cs : List HeapCall) (n : Nat) (s : Mm b), s.Ready ((cs.map (HeapCall.frames b)).sum + n) →
    (runCalls cs s).2.map Prod.fst = cs ∧ (runCalls cs s).1.Ready n
  | [],      n, s, h => by
    rw [List.map_nil, List.sum_nil, Nat.zero_add] at h
    exact ⟨rfl, h⟩
  | c :: cs, n, s, h => by
    rw [List.map_cons, List.sum_cons, Nat.add_assoc] at h
    obtain ⟨s', r, hr, h'⟩ := HeapCall.returns h
    obtain ⟨hcs, hn⟩ := runCalls_all cs n s' h'
    simp only [runCalls, hr, List.map_cons, hcs, true_and]
    exact hn

theorem Started.ready (st : Started b) {n : Nat} (h : st.state.Supplies n) : st.state.Ready n :=
  ⟨st.heap, st.freshCursors.searched, h⟩

/-- **All calls of a list return**, if `mm_init` left as many frames as they take together. -/
theorem runCalls_complete (b : Build) (st : Started b) (calls : List HeapCall)
    (h : st.state.Supplies (calls.map (HeapCall.frames b)).sum) : (runCalls calls st.state).2.map Prod.fst = calls :=
  (runCalls_all calls 0 st.state (st.ready h)).1

/-- Without a memory map the room is the part of `mem_upper` from 0x800 on. -/
theorem room_upper (st : Started .b32) (h0 : isBitSet st.mbi.flags 0 = true) (h6 : isBitSet st.mbi.flags 6 = false) :
    st.state.room = upperLimit st.mbi - 0x800 := by
  have hlist : isBitSet st.mbi.flags 6 = true → MapList st.mbi [] := by simp [h6]
  obtain ⟨hbits, -⟩ := mmInit_registers st.mem st.freemap hlist st.init
  have hstart : Cursor.start .f4k = 0x800 := rfl
  have hfree : (Finset.Ico (Cursor.start .f4k) maxFrames).filter (fun f => Words.test st.state.freemap f = true) =
      Finset.Ico 0x800 (upperLimit st.mbi) := by
    ext g
    simp only [Finset.mem_filter, Finset.mem_Ico, upperLimit_eq, hstart]
    constructor
    · rintro ⟨⟨h1, h2⟩, hset⟩
      obtain ⟨-, ⟨-, h3⟩ | ⟨h3, -⟩⟩ := (hbits g h2).1 hset
      · omega
      · rw [h6] at h3
        cases h3
    · rintro ⟨h1, h2⟩
      exact ⟨⟨h1, by omega⟩, (hbits g (by omega)).2 ⟨by omega, .inl ⟨h0, by omega⟩⟩⟩
  rw [Mm.room, hfree, Nat.card_Ico]

theorem flags_upperFrames (n : Nat) :
    isBitSet (upperFrames n).flags 0 = true ∧ isBitSet (upperFrames n).flags 6 = false := by
  rw [show (upperFrames n).flags = 1 from rfl]
  decide

theorem supplies_upperFrames {n : Nat} (hn : 0x800 + n ≤ maxFrames) (st : Started .b32) (h : st.mbi = upperFrames n) :
    st.state.Supplies n := by
  have hmax : maxFrames = 0x80000 := rfl
  have hcost : Build.b32.cost = 1 := rfl
  have hupper : (upperFrames n).memUpper.toNat = 4 * (0x800 + n) := Nat.mod_eq_of_lt (by omega)
  obtain ⟨h0, h6⟩ := flags_upperFrames n
  rw [← h] at h0 h6
  unfold Mm.Supplies
  rw [room_upper st h0 h6, h, upperLimit_eq, hupper, hcost]
  omega

/-- Any number of frames up to the end of the freemap. -/
theorem Started.exists_supplies {n : Nat} (hn : 0x800 + n ≤ maxFrames) : ∃ st : Started .b32, st.state.Supplies n := by
  obtain ⟨st, -, -, hmbi⟩ := Started.exists_of (b := .b32) (fun _ _ => .zero) (fun _ => 0) (upperFrames n)
    (flags_upperFrames n).2
  exact ⟨st, supplies_upperFrames hn st hmbi⟩

theorem runCalls_complete_onePage : ∃ st : Started .b32,
    (runCalls [.heapAlloc 1 0] st.state).2.map Prod.fst = [.heapAlloc 1 0] := by
  obtain ⟨st, hs⟩ := Started.exists_supplies (n := 2) (by decide)
  exact ⟨st, runCalls_complete .b32 st [.heapAlloc 1 0] hs⟩

/-- One page at 4 MB, behind it the one frame left when the table has been taken. -/
theorem runCalls_safe_onePage : ∃ (st : Started .b32) (f : Nat),
    (runCalls [.heapAlloc 1 0] st.state).2 = [(.heapAlloc 1 0, .range 0x400000 [f])] ∧
      HeapSafe st.state (runCalls [.heapAlloc 1 0] st.state).1 (runCalls [.heapAlloc 1 0] st.state).2 := by
  obtain ⟨st, hs⟩ := Started.exists_supplies (n := 2) (by decide)
  obtain ⟨hall, -⟩ := runCalls_all [.heapAlloc 1 0] 0 st.state (st.ready hs)
  have hran := runCalls_ran [.heapAlloc 1 0] st.state st.heap
  obtain ⟨⟨c, r⟩, hdone, hc⟩ := List.map_eq_singleton_iff.1 hall
  change c = .heapAlloc 1 0 at hc
  subst hc
  rw [hdone] at hran
  obtain ⟨p, hp⟩ := hran.answers _ (List.mem_singleton.2 rfl)
  cases r with
  | done => exact hp.elim
  | phys adr => exact hp.elim
  | range res frames =>
    obtain ⟨f, rfl⟩ := List.length_eq_one_iff.1 hp.2
    have hres : res = st.state.nextVirtPage * pageSize := hran.placed.1
    rw [st.booted.next] at hres
    subst hres
    exact ⟨st, f, hdone, runCalls_safe .b32 st [.heapAlloc 1 0]⟩

/-! ## Calls of several CPUs -/

def Call.frames (b : Build) : Call → Nat
  | .mmInit => 0
  | .heap c => c.frames b

section Shared

variable {ι : Type} [DecidableEq ι]

omit [DecidableEq ι] in
/-- Heap calls one at a time leave what they do not take. -/
theorem ready_of_serial {fuel : Nat} {mbi : MultibootInfo} {s₀ m : Mm b} {t : List (ι × Call × Ret)}
    (hs : Serial (Call.body fuel mbi) s₀ t m) (ht : ∀ y ∈ t, ∃ c, y.2.1 = .heap c) : ∀ n : Nat,
    s₀.Ready ((t.map (fun x => x.2.1.frames b)).sum + n) → m.Ready n := by
  induction hs with
  | nil =>
    intro n h
    simpa using h
  | @snoc t m m' i c a hs hr ih =>
    intro n h
    obtain ⟨hc, rfl⟩ := ht (i, c, a) (by simp)
    rw [List.map_append, List.sum_append, List.map_singleton, List.sum_singleton, Nat.add_assoc] at h
    have hm := ih (fun y hy => ht y (List.mem_append_left _ hy)) _ h
    obtain ⟨r, hrun, rfl⟩ := Call.run_heap hr
    obtain ⟨s', r', hrun', h'⟩ := HeapCall.returns hm
    rw [hrun] at hrun'
    cases hrun'
    exact h'

variable [Fintype ι]

/-- How many frames all calls of all CPUs take at most. -/
def Setup.frames (c : Setup b ι) : Nat := ∑ i, ((c.calls i).map (HeapCall.frames b)).sum

omit [DecidableEq ι] in
theorem Setup.sum_frames (c : Setup b ι) :
    ∑ i, (((c.calls i).map Call.heap).map (Call.frames b)).sum = c.frames := by
  simp only [Setup.frames, List.map_map]
  rfl

/-- **Each call returns when it is executed alone**, if `mm_init` does and leaves as many frames as all calls take. -/
theorem Setup.allReturn (c : Setup b ι) {s₀ : Mm b} {n : Nat}
    (hinit : (mmInit c.fuel c.mbi).run (Mm.boot b c.mem c.freemap) = (s₀, .ok n)) (hs : s₀.Supplies c.frames) :
    AllReturn (Call.body c.fuel c.mbi) (Mm.boot b c.mem c.freemap) c.bsp .mmInit (fun i => (c.calls i).map .heap) := by
  intro s h m i cl hb hcl hfirst
  have hbody : (Call.body c.fuel c.mbi .mmInit).run (Mm.boot b c.mem c.freemap) = (s₀, .ok (.count n)) :=
    Prog.run_bind_ok hinit
  cases h with
  | nil =>
    rw [hfirst rfl, hb.serial.of_nil rfl]
    exact ⟨_, _, hbody⟩
  | cons x t =>
    obtain ⟨a, rfl⟩ := hb.head x t rfl
    obtain ⟨m₁, hm₁, hserial⟩ := hb.serial.uncons _ t rfl
    rw [hbody] at hm₁
    cases hm₁
    -- what the completed calls and this one take is at most what all calls take
    have hle := hb.weight_le (Call.frames b) hcl
    rw [c.sum_frames, List.map_cons, List.sum_cons] at hle
    change 0 + _ + _ ≤ 0 + _ at hle
    rw [Nat.zero_add, Nat.zero_add] at hle
    have h₀ : s₀.Ready ((t.map (fun x => x.2.1.frames b)).sum + cl.frames b) :=
      Started.ready ⟨c.mem, c.freemap, c.fuel, c.mbi, s₀, n, hinit⟩ (hs.mono hle)
    have hm := ready_of_serial hserial (tail_heap hb rfl) _ h₀
    have hin : cl ∈ (c.calls i).map Call.heap := by
      rw [← tail_order hb rfl i]
      exact List.mem_append_left _ (List.mem_append_right _ hcl)
    obtain ⟨hc, -, rfl⟩ := List.mem_map.1 hin
    obtain ⟨m', r, hr, -⟩ := HeapCall.returns (n := 0) hm
    exact ⟨m', .heap r, Prog.run_bind_ok hr⟩

end Shared

theorem twoCpus_init : ∃ s₀ n, (mmInit twoCpus.fuel twoCpus.mbi).run (Mm.boot .b32 twoCpus.mem twoCpus.freemap) =
    (s₀, .ok n) ∧ s₀.Supplies twoCpus.frames := by
  obtain ⟨s₀, n, hinit, -⟩ := (mmInit_ends (b := .b32) (E := fun _ => False) twoCpus.mem twoCpus.freemap twoCpus.fuel
    twoCpus.mbi (by decide)).returns
  exact ⟨s₀, n, hinit, supplies_upperFrames (by decide)
    ⟨twoCpus.mem, twoCpus.freemap, twoCpus.fuel, twoCpus.mbi, s₀, n, hinit⟩ rfl⟩

/-- From there to the end of its `heap_alloc`. -/
theorem shared_safe_twoCpus : ∃ s t, exec twoCpus.step twoCpus.start [1, 1, 0, 1] = some s ∧ Reach twoCpus.step s t ∧
    (t.thr 1).done.map Prod.fst = [.heap (.heapAlloc 1 0)] ∧ ∃ h m, SharedSafe twoCpus t h m := by
  obtain ⟨s₀, n, hinit, hs⟩ := twoCpus_init
  have hr : Reach twoCpus.step twoCpus.start _ := ⟨[1, 1, 0, 1], rfl⟩
  obtain ⟨t, ht, hf⟩ := finishes (twoCpus.allReturn hinit hs) hr
  obtain ⟨h, m, hb⟩ := serializable (hr.trans ht)
  exact ⟨_, t, rfl, ht, hb.done_all hf 1, shared_safe twoCpus (hr.trans ht)⟩

end SmpBoot
