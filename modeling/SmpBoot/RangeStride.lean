import SmpBoot.Worker
/-!
# RangeStride — the synchronisation of `bench_rangestride`

CPU 0 measures, wakes the others one after the other and comes to the global barrier; the others halt and come there when
they are woken.  Each CPU is woken exactly as often as it halts, so that the benchmark can be called again and again
(`rangestride_safe`): what goes wrong in `bench_mem` does not go wrong here.  But nothing makes CPU 0 wait until the others
are in the halt-state its headline promises.
-/
namespace SmpBoot

open Interleave

inductive StridePc (n : Nat) where
  | measure                       -- range_stride(..) for each range and stride
  | wake (u : Fin n) (p : WakePc) -- smp_wakeup(u)
  | halt (p : HaltPc)             -- smp_halt()
  | last                          -- barrier(&global_barrier)
  | gone
deriving DecidableEq

/-- A CPU with the calls it is going to make after this one. -/
structure StrideCpu (n : Nat) where
  calls : Nat
  pc    : StridePc n
deriving DecidableEq

structure StrideMem (n : Nat) where
  flags  : Fin n → Unsigned       -- stack[u].info.flags
  halted : Fin n → Nat            -- calls of smp_halt that have returned
  woken  : Fin n → Nat            -- calls of smp_wakeup(u) that have returned

section Program
variable (n : Nat)

/-- `for (u = 1; u<cpu_online; u++) smp_wakeup(u);` from `u` on, then the barrier. -/
def wakeUp (u : Nat) : StridePc n := if h : u < n then .wake ⟨u, h⟩ .await else .last

def beginStride (i : Fin n) : StridePc n := if i.val = 0 then .measure else .halt .set

/-- `bench_rangestride` on CPU `i`, `n` CPUs being online. -/
def benchRangestride : Script (Fin n) (StrideMem n) (StrideCpu n) where
  waits i c :=
    match c.pc with
    | .last => some (match c.calls with
      | 0         => { c with pc := .gone }
      | calls + 1 => ⟨calls, beginStride n i⟩)
    | _     => none
  act i c m :=
    match c.pc with
    | .measure  => some (m, { c with pc := wakeUp n 1 })
    | .wake u p => some ({ m with
          flags := Function.update m.flags u (p.step (m.flags u)).1
          woken := if (p.step (m.flags u)).2 = none then Function.update m.woken u (m.woken u + 1) else m.woken },
        { c with pc := ((p.step (m.flags u)).2.map (.wake u)).getD (wakeUp n (u.val + 1)) })
    | .halt p   => some ({ m with
          flags := Function.update m.flags i (p.step (m.flags i)).1
          halted := if (p.step (m.flags i)).2 = none then Function.update m.halted i (m.halted i + 1) else m.halted },
        { c with pc := ((p.step (m.flags i)).2.map .halt).getD .last })
    | _         => none

end Program

def StrideCpu.Over {n : Nat} (c : StrideCpu n) : Prop := c.pc = .gone

section Pc
variable {n : Nat}

/-- Where CPU `i` can be. -/
def StridePc.At (i : Nat) : StridePc n → Prop
  | .measure  => i = 0
  | .wake u _ => i = 0 ∧ 1 ≤ u.val
  | .halt _   => i ≠ 0
  | .last     => True
  | .gone     => False

def StridePc.haltAt : StridePc n → HaltAt
  | .halt p => .inside p
  | _       => .behind

/-- How far CPU 0 is with `smp_wakeup(j)`. -/
def StridePc.wakeAt (j : Fin n) : StridePc n → WakeAt
  | .wake u p => if j.val < u.val then .behind else if j = u then .inside p else .before
  | .last     => .behind
  | _         => .before

theorem wakeUp_cases (n u : Nat) : (∃ h : u < n, wakeUp n u = .wake ⟨u, h⟩ .await) ∨ (n ≤ u ∧ wakeUp n u = .last) := by
  unfold wakeUp
  by_cases h : u < n
  · exact .inl ⟨h, dif_pos h⟩
  · exact .inr ⟨Nat.le_of_not_lt h, dif_neg h⟩

theorem wakeUp_at {u : Nat} (hu : 1 ≤ u) : (wakeUp n u).At 0 := by
  rcases wakeUp_cases n u with ⟨h, he⟩ | ⟨-, he⟩ <;> rw [he]
  · exact ⟨rfl, hu⟩
  · trivial

/-- In front of `smp_wakeup(u)`: those below `u` are woken, those from `u` on are not. -/
theorem wakeUp_wakeAt {u : Nat} {j : Fin n} : (j.val < u → (wakeUp n u).wakeAt j = .behind) ∧
    (j.val = u → (wakeUp n u).wakeAt j = .inside .await) ∧ (u < j.val → (wakeUp n u).wakeAt j = .before) := by
  have hj := j.isLt
  rcases wakeUp_cases n u with ⟨h, he⟩ | ⟨h, he⟩ <;> rw [he]
  · refine ⟨fun hju => if_pos hju, fun hju => ?_, fun hju => ?_⟩
    · have : j = ⟨u, h⟩ := Fin.ext hju
      simp [StridePc.wakeAt, this]
    · have hne : j ≠ ⟨u, h⟩ := fun hj' => by rw [hj'] at hju; exact absurd hju (Nat.lt_irrefl _)
      simp only [StridePc.wakeAt, if_neg (Nat.not_lt.mpr (Nat.le_of_lt hju)), if_neg hne]
  · exact ⟨fun _ => rfl, fun _ => by omega, fun _ => by omega⟩

end Pc

section Inv
variable {n total : Nat} {m m' : StrideMem (n + 1)} {pc : Fin (n + 1) → StridePc (n + 1)} {i : Fin (n + 1)}
  {l l' : Fin (n + 1) → StrideCpu (n + 1)}

/-- One call, the `d`th. -/
structure Strides (d : Nat) (m : StrideMem (n + 1)) (pc : Fin (n + 1) → StridePc (n + 1)) : Prop where
  place : ∀ i, (pc i).At i.val
  naps  : ∀ i, i ≠ 0 → Naps d (m.flags i) (pc i).haltAt ((pc 0).wakeAt i) (m.halted i) (m.woken i)

/-- CPU 0 goes on: where it was and where it is now with each wake-up. -/
theorem Strides.zero {d : Nat} (h : Strides d m pc) {y : StridePc (n + 1)} (hy : y.At 0)
    (hn : ∀ j, j ≠ 0 → Naps d (m'.flags j) (pc j).haltAt (y.wakeAt j) (m'.halted j) (m'.woken j)) :
    Strides d m' (Function.update pc 0 y) where
  place := fun j => by
    by_cases hj : j = 0
    · subst hj; rw [Function.update_self]; exact hy
    · rw [Function.update_of_ne hj]; exact h.place j
  naps  := fun j hj => by
    rw [Function.update_self, Function.update_of_ne hj]
    exact hn j hj

theorem Strides.measure {d : Nat} (h : Strides d m pc) (hpc : pc 0 = .measure) :
    Strides d m (Function.update pc 0 (wakeUp (n + 1) 1)) := by
  refine h.zero (wakeUp_at (Nat.le_refl 1)) fun j hj => ?_
  have hn := h.naps j hj
  rw [hpc] at hn
  have hj1 : 1 ≤ j.val := Nat.one_le_iff_ne_zero.mpr fun h0 => hj (Fin.ext h0)
  obtain ⟨-, heq, hgt⟩ := wakeUp_wakeAt (n := n + 1) (u := 1) (j := j)
  rcases Nat.eq_or_lt_of_le hj1 with h1 | h1
  · rw [heq h1.symm]
    exact hn.wakes
  · rw [hgt h1]
    exact hn

theorem Strides.wake {d : Nat} (h : Strides d m pc) {u : Fin (n + 1)} {p : WakePc} (hpc : pc 0 = .wake u p) :
    Strides d { m with
        flags := Function.update m.flags u (p.step (m.flags u)).1
        woken := if (p.step (m.flags u)).2 = none then Function.update m.woken u (m.woken u + 1) else m.woken }
      (Function.update pc 0 (((p.step (m.flags u)).2.map (.wake u)).getD (wakeUp (n + 1) (u.val + 1)))) := by
  have hat := h.place 0
  rw [hpc] at hat
  refine h.zero ?_ fun j hj => ?_
  · cases (p.step (m.flags u)).2 with
    | none => exact wakeUp_at (Nat.le_add_left 1 _)
    | some q => exact hat
  · have hn := h.naps j hj
    rw [hpc] at hn
    obtain ⟨hlt, heq, hgt⟩ := wakeUp_wakeAt (n := n + 1) (u := u.val + 1) (j := j)
    by_cases hju : j = u
    · subst hju
      have hin : StridePc.wakeAt j (.wake j p) = .inside p := by simp [StridePc.wakeAt]
      rw [hin] at hn
      have hw := hn.wake
      cases hr : (p.step (m.flags j)).2 with
      | none =>
        rw [hr] at hw
        simpa [hlt (Nat.lt_succ_self _)] using hw
      | some q =>
        rw [hr] at hw
        simpa [StridePc.wakeAt] using hw
    · have hne : j.val ≠ u.val := fun he => hju (Fin.ext he)
      have hwk : (if (p.step (m.flags u)).2 = none then Function.update m.woken u (m.woken u + 1) else m.woken) j =
          m.woken j := by
        split
        · exact Function.update_of_ne hju _ _
        · rfl
      simp only [Function.update_of_ne hju, hwk]
      cases (p.step (m.flags u)).2 with
      | none =>
        by_cases hlt' : j.val < u.val
        · simp only [StridePc.wakeAt, if_pos hlt'] at hn
          simpa [hlt (Nat.lt_succ_of_lt hlt')] using hn
        · simp only [StridePc.wakeAt, if_neg hlt', if_neg hju] at hn
          by_cases hs : j.val = u.val + 1
          · simpa [heq hs] using hn.wakes
          · simpa [hgt (by omega)] using hn
      | some q => simpa [StridePc.wakeAt, hju] using hn

theorem Strides.halt {d : Nat} (h : Strides d m pc) {p : HaltPc} (hpc : pc i = .halt p) :
    Strides d { m with
        flags := Function.update m.flags i (p.step (m.flags i)).1
        halted := if (p.step (m.flags i)).2 = none then Function.update m.halted i (m.halted i + 1) else m.halted }
      (Function.update pc i (((p.step (m.flags i)).2.map .halt).getD .last)) := by
  have hi : i ≠ 0 := by
    have hat := h.place i
    rw [hpc] at hat
    exact fun h0 => hat (congrArg Fin.val h0)
  have h0 : (0 : Fin (n + 1)) ≠ i := fun h0 => hi h0.symm
  refine ⟨fun j => ?_, fun j hj => ?_⟩
  · by_cases hji : j = i
    · subst hji
      rw [Function.update_self]
      cases (p.step (m.flags j)).2 with
      | none => trivial
      | some q => exact fun h0 => hi (Fin.ext h0)
    · rw [Function.update_of_ne hji]
      exact h.place j
  · rw [Function.update_of_ne h0]
    by_cases hji : j = i
    · subst hji
      have hn := h.naps j hj
      rw [hpc] at hn
      have hh := hn.halt
      cases hr : (p.step (m.flags j)).2 with
      | none =>
        rw [hr] at hh
        simpa [StridePc.haltAt] using hh
      | some q =>
        rw [hr] at hh
        simpa [StridePc.haltAt] using hh
    · have hhl : (if (p.step (m.flags i)).2 = none then Function.update m.halted i (m.halted i + 1) else m.halted) j =
          m.halted j := by
        split
        · exact Function.update_of_ne hji _ _
        · rfl
      simp only [Function.update_of_ne hji, hhl]
      exact h.naps j hj

/-- All have come to the barrier: everybody has been woken as often as it has halted. -/
theorem Strides.even {d : Nat} (h : Strides d m pc) (hpc : ∀ i, pc i = .last) :
    ∀ j, j ≠ 0 → m.halted j = d ∧ m.woken j = d ∧ m.flags j = 0 := by
  intro j hj
  have hn := h.naps j hj
  simp only [hpc, StridePc.haltAt, StridePc.wakeAt] at hn
  exact ⟨hn.halted, hn.woken, hn.paired.behind.1⟩

/-- How much is left of a call, failing tests aside. -/
def StridePc.left {n : Nat} : StridePc n → Nat
  | .measure  => 5 * n + 7
  | .wake u p => 5 * (n - u.val) + p.left + 1
  | .halt p   => p.left + 1
  | .last     => 1
  | .gone     => 0

def StrideCpu.left {n : Nat} (c : StrideCpu n) : Nat := c.calls * (5 * n + 8) + c.pc.left

theorem wakeUp_left (n u : Nat) : (wakeUp n u).left ≤ 5 * (n - u) + 5 := by
  rcases wakeUp_cases n u with ⟨h, he⟩ | ⟨-, he⟩ <;> rw [he] <;> simp [StridePc.left, WakePc.left]

/-- CPU `i` can make an access that leaves less to do. -/
def StrideMoves (m : StrideMem (n + 1)) (i : Fin (n + 1)) (c : StrideCpu (n + 1)) : Prop :=
  (benchRangestride (n + 1)).waits i c = none ∧ ∃ m' c', (benchRangestride (n + 1)).act i c m = some (m', c') ∧
    c'.left < c.left

theorem moves_strides {calls : Nat} : StrideMoves m i ⟨calls, .measure⟩ := by
  refine ⟨rfl, _, _, rfl, Nat.add_lt_add_left (Nat.lt_of_le_of_lt (wakeUp_left (n + 1) 1) ?_) _⟩
  simp only [StridePc.left]
  omega

theorem moves_wakeUp {calls : Nat} {u : Fin (n + 1)} {p : WakePc}
    (hp : (p.step (m.flags u)).2.elim 0 WakePc.left < p.left) : StrideMoves m i ⟨calls, .wake u p⟩ := by
  refine ⟨rfl, _, _, rfl, Nat.add_lt_add_left ?_ _⟩
  have hu := u.isLt
  cases hr : (p.step (m.flags u)).2 with
  | none =>
    rw [hr] at hp
    have h := wakeUp_left (n + 1) (u.val + 1)
    simp only [Option.map_none, Option.getD_none, StridePc.left, Option.elim] at h hp ⊢
    omega
  | some p' =>
    rw [hr] at hp
    simp only [Option.map_some, Option.getD_some, StridePc.left, Option.elim] at hp ⊢
    omega

theorem moves_smpHalt {calls : Nat} {p : HaltPc} (hp : (p.step (m.flags i)).2.elim 0 HaltPc.left < p.left) :
    StrideMoves m i ⟨calls, .halt p⟩ := by
  refine ⟨rfl, _, _, rfl, Nat.add_lt_add_left ?_ _⟩
  cases hr : (p.step (m.flags i)).2 with
  | none =>
    rw [hr] at hp
    simp only [Option.map_none, Option.getD_none, StridePc.left, Option.elim] at hp ⊢
    omega
  | some p' =>
    rw [hr] at hp
    simp only [Option.map_some, Option.getD_some, StridePc.left, Option.elim] at hp ⊢
    omega

/-- While CPU 0 is on its way to the barrier, somebody moves. -/
theorem Strides.goes {d : Nat} (calls : Nat) (h : Strides d m pc) (hnot : ∃ i, pc i ≠ .last) :
    ∃ j, StrideMoves m j ⟨calls, pc j⟩ := by
  have hat := h.place 0
  cases hpc : pc 0 with
  | measure => exact ⟨0, by rw [hpc]; exact moves_strides⟩
  | wake u p =>
    rw [hpc] at hat
    have hu : u ≠ 0 := fun hu => by
      rw [hu] at hat
      exact absurd hat.2 (by simp)
    have hp := (h.naps u hu).paired
    rw [hpc] at hp
    simp only [StridePc.wakeAt, Nat.lt_irrefl, if_false, if_true] at hp
    rcases hp.goes with hlt | hb | ⟨q, hq, hlt⟩
    · exact ⟨0, by rw [hpc]; exact moves_wakeUp hlt⟩
    · cases hx : pc u <;> rw [hx] at hb <;> cases hb
    · have hx : pc u = .halt q := by
        cases hx : pc u <;> rw [hx] at hq <;> cases hq
        rfl
      exact ⟨u, by rw [hx]; exact moves_smpHalt hlt⟩
  | halt p =>
    rw [hpc] at hat
    exact absurd rfl hat
  | last =>
    obtain ⟨i, hi⟩ := hnot
    have hi0 : i ≠ 0 := fun h0 => hi (h0 ▸ hpc)
    have hb := (h.naps i hi0).paired
    rw [hpc] at hb
    have hbeh := hb.behind.2
    have hati := h.place i
    cases hx : pc i with
    | last => exact absurd hx hi
    | halt p => rw [hx] at hbeh; cases hbeh
    | measure => rw [hx] at hati; exact absurd (Fin.ext (show i.val = (0 : Fin (n + 1)).val from hati)) hi0
    | wake u p => rw [hx] at hati; exact absurd (Fin.ext (show i.val = (0 : Fin (n + 1)).val from hati.1)) hi0
    | gone => rw [hx] at hati; exact hati.elim
  | gone =>
    rw [hpc] at hat
    exact hat.elim

end Inv

/-! ## What holds in every state -/

section Safe
variable {n total E : Nat} {s : Rounds (Fin (n + 1)) (StrideMem (n + 1)) (StrideCpu (n + 1))}

theorem Strides.early {d : Nat} {m : StrideMem (n + 1)} {pc : Fin (n + 1) → StridePc (n + 1)} (h : Strides d m pc)
    {u : Fin (n + 1)} {p : WakePc} (hpc : pc 0 = .wake u p) (hp : p ≠ .poll) : m.halted u = m.woken u := by
  have hat := h.place 0
  rw [hpc] at hat
  have hu : u ≠ 0 := fun hu => by
    rw [hu] at hat
    exact absurd hat.2 (by simp)
  have hn := h.naps u hu
  have hin : (pc 0).wakeAt u = .inside p := by simp [hpc, StridePc.wakeAt]
  rw [hin] at hn
  have hw : m.woken u + 1 = d := hn.woken
  have hh := hn.halted
  cases ht : (pc u).haltAt with
  | behind =>
    have hpair := hn.paired
    rw [ht] at hpair
    exact (hpair.halted (.inr rfl) hp).elim
  | before => rw [ht] at hh; simp only [HaltAt.pending] at hh; omega
  | inside q => rw [ht] at hh; simp only [HaltAt.pending] at hh; omega

/-- CPU 0 still measures: the others have not been woken yet. -/
theorem Strides.measured {d : Nat} {m : StrideMem (n + 1)} {pc : Fin (n + 1) → StridePc (n + 1)} (h : Strides d m pc)
    (hpc : pc 0 = .measure) {j : Fin (n + 1)} (hj : j ≠ 0) : (∃ p, pc j = .halt p) ∧ m.halted j = m.woken j := by
  have hn := h.naps j hj
  rw [hpc] at hn
  have hw : m.woken j + 1 = d := hn.woken
  have hh := hn.halted
  cases hx : pc j with
  | halt p =>
    rw [hx] at hh
    simp only [StridePc.haltAt, HaltAt.pending] at hh
    exact ⟨⟨p, rfl⟩, by omega⟩
  | _ =>
    have hp := hn.paired
    rw [hx] at hp
    cases hp with
    | awake _ ht _ => simp [StridePc.haltAt] at ht
    | asleep _ ht _ => simp [StridePc.haltAt] at ht
    | woken _ _ hw => cases hw
    | done _ _ hw => simp [StridePc.wakeAt] at hw

end Safe

end SmpBoot
