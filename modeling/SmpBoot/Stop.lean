import SmpBoot.Sync
/-!
# Stop — `stop()`, which every CPU calls when it leaves the payload

A CPU counts itself in `cpus_halted` under a mutex and compares the counter with `cpu_online` when it has left it.  The
last one reboots, the others halt.  `inOrder` is the condition under which that is so: the last increment is stored when all
others have compared.
-/
namespace SmpBoot

open Interleave

/-- The next access of a CPU in `stop()`. -/
inductive StopPc where
  | lock               -- mutex_lock(&m)
  | load               -- cpus_halted++: the load
  | store (v : Unsigned) -- the store
  | unlock             -- mutex_unlock(&m)
  | compare            -- if (cpus_halted < cpu_online)
  | halted             -- while (1) hlt
  | reboot             -- reboot()
  deriving DecidableEq

/-- `cpus_halted`, the mutex (free or locked), and where the `n` CPUs are. -/
structure StopSys (n : Nat) where
  cpusHalted : Unsigned
  free       : Bool
  cpu        : Fin n → StopPc

namespace StopSys

variable {n : Nat}

def goto (s : StopSys n) (i : Fin n) (pc : StopPc) : StopSys n := { s with cpu := Function.update s.cpu i pc }

@[simp] theorem goto_self (s : StopSys n) (i : Fin n) (pc : StopPc) : (s.goto i pc).cpu i = pc := by
  simp [goto]

@[simp] theorem goto_ne (s : StopSys n) {i j : Fin n} (h : j ≠ i) (pc : StopPc) : (s.goto i pc).cpu j = s.cpu j := by
  simp [goto, h]

/-- One access of CPU `i`; `cpu_online` is `n`. -/
def step (s : StopSys n) (i : Fin n) : Option (StopSys n) :=
  match s.cpu i with
  | .lock    => if s.free then some { s.goto i .load with free := false } else some s
  | .load    => some (s.goto i (.store (s.cpusHalted + 1)))
  | .store v => some { s.goto i .unlock with cpusHalted := v }
  | .unlock  => some { s.goto i .compare with free := true }
  | .compare => some (s.goto i (if s.cpusHalted < BitVec.ofNat 32 n then .halted else .reboot))
  | .halted  => none
  | .reboot  => none

/-- Nobody is down, and `m` is `MUTEX_INITIALIZER`. -/
def start (n : Nat) : StopSys n := ⟨0, true, fun _ => .lock⟩

def Ended (s : StopSys n) : Prop := ∀ i, s.cpu i = .halted ∨ s.cpu i = .reboot

instance (s : StopSys n) : Decidable s.Ended := inferInstanceAs (Decidable (∀ i, s.cpu i = .halted ∨ s.cpu i = .reboot))

/-- **One CPU reboots and the others halt.** -/
structure OneReboots (s : StopSys n) : Prop where
  atMost : count (· = .reboot) s.cpu ≤ 1
  ended  : s.Ended → count (· = .reboot) s.cpu = 1 ∧ count (· = .halted) s.cpu = n - 1

/-- **The increment that makes `cpus_halted` equal to `cpu_online` is stored when all other CPUs are in their halt loop.** -/
def inOrder (s : StopSys n) (i : Fin n) : Bool :=
  match s.cpu i with
  | .store v => v != BitVec.ofNat 32 n || decide (∀ j, j ≠ i → s.cpu j = .halted)
  | _        => true

/-- **What a step can do.** -/
inductive Moves (s : StopSys n) (i : Fin n) : StopSys n → Prop
  | take (h : s.cpu i = .lock) (hf : s.free = true) : Moves s i { s.goto i .load with free := false }
  | spin (h : s.cpu i = .lock) (hf : s.free = false) : Moves s i s
  | load (h : s.cpu i = .load) : Moves s i (s.goto i (.store (s.cpusHalted + 1)))
  | store {v : Unsigned} (h : s.cpu i = .store v) : Moves s i { s.goto i .unlock with cpusHalted := v }
  | unlock (h : s.cpu i = .unlock) : Moves s i { s.goto i .compare with free := true }
  | halt (h : s.cpu i = .compare) (hlt : s.cpusHalted < BitVec.ofNat 32 n) : Moves s i (s.goto i .halted)
  | reboot (h : s.cpu i = .compare) (hlt : ¬ s.cpusHalted < BitVec.ofNat 32 n) : Moves s i (s.goto i .reboot)

variable {s s' : StopSys n} {i : Fin n}

theorem moves (h : s.step i = some s') : s.Moves i s' := by
  unfold step at h
  cases hi : s.cpu i with
  | lock =>
    simp only [hi] at h
    split at h
    · cases h; exact .take hi ‹_›
    · cases h; exact .spin hi (by simpa using ‹¬ s.free = true›)
  | load => simp only [hi] at h; cases h; exact .load hi
  | store v => simp only [hi] at h; cases h; exact .store hi
  | unlock => simp only [hi] at h; cases h; exact .unlock hi
  | compare =>
    simp only [hi] at h
    cases h
    split
    · exact .halt hi ‹_›
    · exact .reboot hi ‹_›
  | halted => simp only [hi] at h; cases h
  | reboot => simp only [hi] at h; cases h

theorem step_of_moves (h : s.Moves i s') : s.step i = some s' := by
  cases h with
  | take h hf => simp only [step, h, hf, if_true]
  | spin h hf => simp [step, h, hf]
  | load h => simp only [step, h]
  | store h => simp only [step, h]
  | unlock h => simp only [step, h]
  | halt h hlt => simp only [step, h, if_pos hlt]
  | reboot h hlt => simp only [step, h, if_neg hlt]

/-! ## The counter and the mutex -/

/-- The CPU holds the mutex. -/
def holds : StopPc → Bool
  | .load | .store _ | .unlock => true
  | _                          => false

/-- The CPU has counted itself. -/
def counted : StopPc → Bool
  | .unlock | .compare | .halted | .reboot => true
  | _                                      => false

structure Stopping (s : StopSys n) : Prop where
  mutex  : count holds s.cpu + s.free.toNat = 1
  value  : s.cpusHalted = BitVec.ofNat 32 (count counted s.cpu)
  store  : ∀ i v, s.cpu i = .store v → v = s.cpusHalted + 1
  reboot : ∀ i, s.cpu i = .reboot → count counted s.cpu = n

theorem stopping_start : Stopping (start n) where
  mutex  := by
    show count holds (fun _ : Fin n => StopPc.lock) + 1 = 1
    rw [count_eq_zero (fun _ => rfl)]
  value  := by
    show (0 : Unsigned) = BitVec.ofNat 32 (count counted (fun _ : Fin n => StopPc.lock))
    rw [count_eq_zero (fun _ => rfl)]
    rfl
  store  := nofun
  reboot := nofun

/-- Nobody holds the mutex beside the CPU that does. -/
theorem Stopping.alone (h : Stopping s) {j : Fin n} (hi : holds (s.cpu i) = true) (hj : holds (s.cpu j) = true) : j = i := by
  have hm := h.mutex
  exact eq_of_count_le_one (by omega) hj hi

/-- As long as the counter is below `n`. -/
theorem Stopping.lt_iff (h : Stopping s) (h32 : n < 2 ^ 32) :
    s.cpusHalted < BitVec.ofNat 32 n ↔ count counted s.cpu < n := by
  have hle := count_le counted s.cpu
  rw [Fintype.card_fin] at hle
  rw [h.value, BitVec.lt_def, BitVec.toNat_ofNat, BitVec.toNat_ofNat, Nat.mod_eq_of_lt h32,
    Nat.mod_eq_of_lt (Nat.lt_of_le_of_lt hle h32)]

/-- Beside the CPU that moves nobody comes to a store or to `reboot()`. -/
theorem goto_of {pc x : StopPc} {j : Fin n} (hj : (s.goto i pc).cpu j = x) (hpc : pc ≠ x) : s.cpu j = x := by
  by_cases hji : j = i
  · subst hji
    rw [goto_self] at hj
    exact absurd hj hpc
  · rwa [goto_ne s hji] at hj

/-- A CPU that moves without the mutex or with it. -/
theorem Stopping.goto (h : Stopping s) {pc : StopPc} (hh : holds pc = holds (s.cpu i)) (hc : counted pc = counted (s.cpu i))
    (hs : ∀ v, pc = .store v → v = s.cpusHalted + 1) (hr : pc = .reboot → count counted s.cpu = n) :
    Stopping (s.goto i pc) := by
  have hcount : count counted (s.goto i pc).cpu = count counted s.cpu := count_update_same hc
  refine ⟨(congrArg (· + s.free.toNat) (count_update_same hh)).trans h.mutex, h.value.trans (congrArg _ hcount.symm),
    fun j v hj => ?_, fun j hj => ?_⟩
  · by_cases hji : j = i
    · subst hji
      exact hs v ((goto_self s j pc).symm.trans hj)
    · exact h.store j v ((goto_ne s hji pc).symm.trans hj)
  · rw [hcount]
    by_cases hji : j = i
    · subst hji
      exact hr ((goto_self s j pc).symm.trans hj)
    · exact h.reboot j ((goto_ne s hji pc).symm.trans hj)

/-- Nobody takes the mutex or stores as long as all are counted. -/
theorem not_all (hi : counted (s.cpu i) = false) : count counted s.cpu < n := by
  have hlt := count_lt_of_not hi
  rwa [Fintype.card_fin] at hlt

/-- The next value of the counter. -/
theorem Stopping.next (h : Stopping s) : s.cpusHalted + 1 = BitVec.ofNat 32 (count counted s.cpu + 1) := by
  rw [h.value, BitVec.ofNat_add]
  rfl

theorem Stopping.step (h : Stopping s) (h32 : n < 2 ^ 32) (hm : s.Moves i s') : Stopping s' := by
  have hmutex := h.mutex
  cases hm with
  | spin hi hf => exact h
  | load hi => exact h.goto (by rw [hi]; rfl) (by rw [hi]; rfl) (fun v hv => by cases hv; rfl) nofun
  | halt hi hlt => exact h.goto (by rw [hi]; rfl) (by rw [hi]; rfl) nofun nofun
  | reboot hi hlt =>
    refine h.goto (by rw [hi]; rfl) (by rw [hi]; rfl) nofun (fun _ => ?_)
    have hle := count_le counted s.cpu
    rw [Fintype.card_fin] at hle
    exact Nat.le_antisymm hle (Nat.le_of_not_lt (mt (h.lt_iff h32).2 hlt))
  | take hi hf =>
    have hh : count holds (s.goto i .load).cpu = count holds s.cpu + 1 := count_update_new rfl (by rw [hi]; rfl)
    have hc : count counted (s.goto i .load).cpu = count counted s.cpu := count_update_same (by rw [hi]; rfl)
    refine ⟨?_, h.value.trans (congrArg _ hc.symm), fun j v hj => ?_, fun j hj => ?_⟩
    · rw [hf] at hmutex
      exact hh.trans hmutex
    · exact h.store j v (goto_of hj nofun)
    · exact hc.trans (h.reboot j (goto_of hj nofun))
  | unlock hi =>
    have hh := count_update holds s.cpu i .compare
    have hc : count counted (s.goto i .compare).cpu = count counted s.cpu := count_update_same (by rw [hi]; rfl)
    refine ⟨?_, h.value.trans (congrArg _ hc.symm), fun j v hj => ?_, fun j hj => ?_⟩
    · rw [hi] at hh
      have hh : count holds (Function.update s.cpu i .compare) + 1 = count holds s.cpu := hh
      show count holds (Function.update s.cpu i .compare) + 1 = 1
      omega
    · exact h.store j v (goto_of hj nofun)
    · exact hc.trans (h.reboot j (goto_of hj nofun))
  | @store v hi =>
    have hh : count holds (s.goto i .unlock).cpu = count holds s.cpu := count_update_same (by rw [hi]; rfl)
    have hc : count counted (s.goto i .unlock).cpu = count counted s.cpu + 1 := count_update_new rfl (by rw [hi]; rfl)
    refine ⟨(congrArg (· + s.free.toNat) hh).trans hmutex, ?_, fun j w hj => ?_, fun j hj => ?_⟩
    · exact ((h.store i v hi).trans h.next).trans (congrArg (BitVec.ofNat 32) hc.symm)
    · have hj : (s.goto i .unlock).cpu j = .store w := hj
      have hjs := goto_of hj nofun
      have hji := h.alone (i := i) (j := j) (by rw [hi]; rfl) (by rw [hjs]; rfl)
      subst hji
      rw [goto_self] at hj
      cases hj
    · have hlt := not_all (s := s) (i := i) (by rw [hi]; rfl)
      rw [h.reboot j (goto_of hj nofun)] at hlt
      exact absurd hlt (Nat.lt_irrefl n)

/-! ## The last increment -/

/-- In order: when all are counted, all but one are in their halt loop. -/
structure Ordered (s : StopSys n) : Prop extends Stopping s where
  last : count counted s.cpu = n → ∃ i, s.cpu i ≠ .halted ∧ ∀ j, j ≠ i → s.cpu j = .halted

/-- Out of order: all are counted, and two are not in their halt loop. -/
structure Crowded (s : StopSys n) : Prop extends Stopping s where
  all : count counted s.cpu = n
  two : ∃ i j, i ≠ j ∧ s.cpu i ≠ .halted ∧ s.cpu j ≠ .halted

theorem unlock_ne_halted (s : StopSys n) (i : Fin n) : (s.goto i .unlock).cpu i ≠ .halted := by
  rw [goto_self]
  nofun

/-- A CPU that stores `n` is the last one. -/
theorem Stopping.stores_last (h : Stopping s) (h32 : n < 2 ^ 32) {v : Unsigned} (hi : s.cpu i = .store v) :
    v = BitVec.ofNat 32 n ↔ count counted s.cpu + 1 = n := by
  have hlt := not_all (s := s) (i := i) (by rw [hi]; rfl)
  have hv : v = BitVec.ofNat 32 (count counted s.cpu + 1) := (h.store i v hi).trans h.next
  rw [hv, ← BitVec.toNat_inj, BitVec.toNat_ofNat, BitVec.toNat_ofNat, Nat.mod_eq_of_lt h32, Nat.mod_eq_of_lt (by omega)]

/-- Who moves when all are counted is the one that is not in its halt loop. -/
theorem Ordered.last_goto (h : Ordered s) (hi : s.cpu i ≠ .halted) {pc : StopPc} (hpc : pc ≠ .halted)
    (hall : count counted s.cpu = n) : ∃ i', (s.goto i pc).cpu i' ≠ .halted ∧
      ∀ j, j ≠ i' → (s.goto i pc).cpu j = .halted := by
  obtain ⟨k, -, hk⟩ := h.last hall
  obtain rfl : i = k := by
    by_contra hne
    exact hi (hk i hne)
  refine ⟨i, by rwa [goto_self], fun j hj => ?_⟩
  rw [goto_ne s hj]
  exact hk j hj

theorem Ordered.step (h : Ordered s) (h32 : n < 2 ^ 32) (hc : s.inOrder i = true) (hm : s.Moves i s') : Ordered s' := by
  refine ⟨h.toStopping.step h32 hm, fun hall => ?_⟩
  have hnot : ∀ {pc : StopPc}, counted pc = false → count counted (s.goto i pc).cpu = n → False := by
    intro pc hpc hall
    have hlt := not_all (s := s.goto i pc) (i := i) (by rw [goto_self]; exact hpc)
    exact absurd hall (Nat.ne_of_lt hlt)
  cases hm with
  | spin hi hf => exact h.last hall
  | take hi hf => exact (hnot rfl hall).elim
  | load hi => exact (hnot rfl hall).elim
  | @store v hi =>
    have hone : count counted (s.goto i .unlock).cpu = count counted s.cpu + 1 := count_update_new rfl (by rw [hi]; rfl)
    have hv := (h.toStopping.stores_last h32 hi).2 (hone.symm.trans hall)
    have hothers : ∀ j, j ≠ i → s.cpu j = .halted := by simpa [inOrder, hi, hv] using hc
    exact ⟨i, unlock_ne_halted s i, fun j hj => (goto_ne s hj .unlock).trans (hothers j hj)⟩
  | unlock hi =>
    have hsame : count counted (s.goto i .compare).cpu = count counted s.cpu := count_update_same (by rw [hi]; rfl)
    exact h.last_goto (by rw [hi]; nofun) nofun (hsame.symm.trans hall)
  | reboot hi hlt =>
    have hsame : count counted (s.goto i .reboot).cpu = count counted s.cpu := count_update_same (by rw [hi]; rfl)
    exact h.last_goto (by rw [hi]; nofun) nofun (hsame.symm.trans hall)
  | halt hi hlt =>
    have hsame : count counted (s.goto i .halted).cpu = count counted s.cpu := count_update_same (by rw [hi]; rfl)
    have hn := (h.toStopping.lt_iff h32).1 hlt
    omega

theorem Ordered.crowded (h : Ordered s) (h32 : n < 2 ^ 32) (hc : s.inOrder i = false) (hm : s.Moves i s') : Crowded s' := by
  have hstep := h.toStopping.step h32 hm
  cases hm with
  | spin hi hf => simp [inOrder, hi] at hc
  | take hi hf => simp [inOrder, hi] at hc
  | load hi => simp [inOrder, hi] at hc
  | unlock hi => simp [inOrder, hi] at hc
  | halt hi hlt => simp [inOrder, hi] at hc
  | reboot hi hlt => simp [inOrder, hi] at hc
  | @store v hi =>
    have hone : count counted (s.goto i .unlock).cpu = count counted s.cpu + 1 := count_update_new rfl (by rw [hi]; rfl)
    obtain ⟨hv, hj⟩ : v = BitVec.ofNat 32 n ∧ ∃ j, j ≠ i ∧ s.cpu j ≠ .halted := by simpa [inOrder, hi] using hc
    obtain ⟨j, hji, hj⟩ := hj
    refine ⟨hstep, hone.trans ((h.toStopping.stores_last h32 hi).1 hv), i, j, Ne.symm hji, unlock_ne_halted s i,
      fun hother => hj ((goto_ne s hji .unlock).symm.trans hother)⟩

theorem Crowded.step (h : Crowded s) (h32 : n < 2 ^ 32) (hm : s.Moves i s') : Crowded s' := by
  have hstep := h.toStopping.step h32 hm
  have hall := h.all
  obtain ⟨j, k, hjk, hj, hk⟩ := h.two
  have hkeep : ∀ pc : StopPc, pc ≠ .halted → ∀ j, s.cpu j ≠ .halted → (s.goto i pc).cpu j ≠ .halted := by
    intro pc hpc j hj hgoto
    exact hj (goto_of hgoto hpc)
  have hnot : counted (s.cpu i) = false → False := fun hi => absurd hall (Nat.ne_of_lt (not_all hi))
  cases hm with
  | spin hi hf => exact h
  | take hi hf => exact (hnot (by rw [hi]; rfl)).elim
  | load hi => exact (hnot (by rw [hi]; rfl)).elim
  | store hi => exact (hnot (by rw [hi]; rfl)).elim
  | halt hi hlt => exact absurd hall (Nat.ne_of_lt ((h.toStopping.lt_iff h32).1 hlt))
  | unlock hi =>
    have hsame : count counted (s.goto i .compare).cpu = count counted s.cpu := count_update_same (by rw [hi]; rfl)
    exact ⟨hstep, hsame.trans hall, j, k, hjk, hkeep .compare nofun j hj, hkeep .compare nofun k hk⟩
  | reboot hi hlt =>
    have hsame : count counted (s.goto i .reboot).cpu = count counted s.cpu := count_update_same (by rw [hi]; rfl)
    exact ⟨hstep, hsame.trans hall, j, k, hjk, hkeep .reboot nofun j hj, hkeep .reboot nofun k hk⟩

theorem Crowded.not_oneReboots (h : Crowded s) (hend : s.Ended) : ¬ OneReboots s := by
  intro hone
  obtain ⟨j, k, hjk, hj, hk⟩ := h.two
  have hcount := (hone.ended hend).1
  exact hjk (eq_of_count_le_one (Nat.le_of_eq hcount) (by simpa using (hend j).resolve_left hj)
    (by simpa using (hend k).resolve_left hk))

theorem Ordered.oneReboots (h : Ordered s) : OneReboots s := by
  have hatMost : count (· = .reboot) s.cpu ≤ 1 := by
    refine count_le_one (fun j k hj hk => ?_)
    have hj : s.cpu j = .reboot := by simpa using hj
    have hk : s.cpu k = .reboot := by simpa using hk
    obtain ⟨i, -, hi⟩ := h.last (h.reboot j hj)
    have heq : ∀ j, s.cpu j = .reboot → j = i := by
      intro j hj
      by_contra hne
      rw [hi j hne] at hj
      cases hj
    rw [heq j hj, heq k hk]
  refine ⟨hatMost, fun hend => ?_⟩
  have hall : count counted s.cpu = n := by
    rw [count_eq_card, Fintype.card_fin]
    intro j
    rcases hend j with hj | hj <;> rw [hj] <;> rfl
  obtain ⟨i, hne, hi⟩ := h.last hall
  have hreboot := (hend i).resolve_left hne
  have hpos : 0 < count (· = .reboot) s.cpu := count_pos (i := i) (by simpa using hreboot)
  have hhalted : count (· = .halted) (s.goto i .halted).cpu = n := by
    rw [count_eq_card, Fintype.card_fin]
    intro j
    by_cases hji : j = i
    · subst hji
      simp
    · simpa [hji] using hi j hji
  have hone : count (· = .halted) (s.goto i .halted).cpu = count (· = .halted) s.cpu + 1 :=
    count_update_new rfl (by rw [hreboot]; rfl)
  omega

/-! ## All come to the end -/

def todo : StopPc → Nat
  | .lock    => 5
  | .load    => 4
  | .store _ => 3
  | .unlock  => 2
  | .compare => 1
  | .halted  => 0
  | .reboot  => 0

theorem step_goto_todo {pc : StopPc} (hpc : todo pc < todo (s.cpu i)) :
    ∑ j, todo ((s.goto i pc).cpu j) < ∑ j, todo (s.cpu j) := by
  apply sum_lt_at i
  · rwa [goto_self]
  · intro j hj
    rw [goto_ne s hj]

/-- Behind the others' comparisons the last CPU may store. -/
theorem Ordered.may_store (h : Ordered s) (h32 : n < 2 ^ 32) (hcmp : ∀ j, s.cpu j ≠ .compare) {v : Unsigned}
    (hi : s.cpu i = .store v) : s.inOrder i = true := by
  by_cases hv : v = BitVec.ofNat 32 n
  · have hlast := (h.toStopping.stores_last h32 hi).1 hv
    have hone : count counted (s.goto i .unlock).cpu = count counted s.cpu + 1 := count_update_new rfl (by rw [hi]; rfl)
    have hall := all_of_count_eq (p := counted) (f := (s.goto i .unlock).cpu) (by rw [hone, hlast, Fintype.card_fin])
    have hothers : ∀ j, j ≠ i → s.cpu j = .halted := by
      intro j hj
      have hcj := hall j
      rw [goto_ne s hj] at hcj
      cases hpc : s.cpu j with
      | halted => rfl
      | compare => exact absurd hpc (hcmp j)
      | unlock => exact absurd (h.alone (i := i) (by rw [hi]; rfl) (by rw [hpc]; rfl)) hj
      | reboot =>
        have hn := h.reboot j hpc
        omega
      | _ => rw [hpc] at hcj; cases hcj
    simpa [inOrder, hi] using .inr hothers
  · simp [inOrder, hi, hv]

theorem Ordered.goes (h : Ordered s) (h32 : n < 2 ^ 32) (hnot : ¬ s.Ended) :
    ∃ i s', onlyIf inOrder StopSys.step s i = some s' ∧ ∑ j, todo (s'.cpu j) < ∑ j, todo (s.cpu j) := by
  have htake : ∀ {i s'}, s.inOrder i = true → s.Moves i s' → onlyIf inOrder StopSys.step s i = some s' := by
    intro i s' hc hm
    rw [onlyIf, if_pos hc]
    exact step_of_moves hm
  by_cases hcmp : ∃ i, s.cpu i = .compare
  · obtain ⟨i, hi⟩ := hcmp
    have hc : s.inOrder i = true := by simp [inOrder, hi]
    by_cases hlt : s.cpusHalted < BitVec.ofNat 32 n
    · exact ⟨i, _, htake hc (.halt hi hlt), step_goto_todo (by rw [hi]; decide)⟩
    · exact ⟨i, _, htake hc (.reboot hi hlt), step_goto_todo (by rw [hi]; decide)⟩
  · have hcmp : ∀ j, s.cpu j ≠ .compare := fun j hj => hcmp ⟨j, hj⟩
    by_cases hhold : ∃ i, holds (s.cpu i) = true
    · obtain ⟨i, hi⟩ := hhold
      cases hpc : s.cpu i with
      | load => exact ⟨i, _, htake (by simp [inOrder, hpc]) (.load hpc),
          step_goto_todo (by rw [hpc]; exact Nat.lt_succ_self 3)⟩
      | store v =>
        exact ⟨i, _, htake (h.may_store h32 hcmp hpc) (.store hpc), step_goto_todo (by rw [hpc]; exact Nat.lt_succ_self 2)⟩
      | unlock => exact ⟨i, _, htake (by simp [inOrder, hpc]) (.unlock hpc), step_goto_todo (by rw [hpc]; decide)⟩
      | _ => rw [hpc] at hi; cases hi
    · have hfree : s.free = true := by
        have hm := h.mutex
        rw [count_eq_zero (fun i => by simpa using fun hi => hhold ⟨i, hi⟩)] at hm
        cases hf : s.free with
        | true => rfl
        | false => rw [hf] at hm; cases hm
      obtain ⟨i, hi⟩ : ∃ i, ¬ (s.cpu i = .halted ∨ s.cpu i = .reboot) := by simpa [Ended] using hnot
      cases hpc : s.cpu i with
      | lock => exact ⟨i, _, htake (by simp [inOrder, hpc]) (.take hpc hfree), step_goto_todo (by rw [hpc]; decide)⟩
      | compare => exact absurd hpc (hcmp i)
      | halted => exact absurd (.inl hpc) hi
      | reboot => exact absurd (.inr hpc) hi
      | _ => exact absurd ⟨i, by rw [hpc]; rfl⟩ hhold

end StopSys

/-- **`n` CPUs call `stop()`**: in the runs whose steps are all in order at most one of them reboots, they can all come to the end,
and in a run to the end one reboots and the others halt exactly if its steps are in order. -/
theorem stop_iff (n : Nat) (hn : 1 ≤ n) (h32 : n < 2 ^ 32) :
    (∀ s : StopSys n, Reach (onlyIf StopSys.inOrder StopSys.step) (.start n) s → s.OneReboots ∧
      ∃ t, Reach (onlyIf StopSys.inOrder StopSys.step) s t ∧ t.Ended) ∧
    ∀ (as : List (Fin n)) (s : StopSys n), exec StopSys.step (.start n) as = some s → s.Ended →
      (s.OneReboots ↔ exec (onlyIf StopSys.inOrder StopSys.step) (.start n) as = some s) := by
  have hstart : (StopSys.start n).Ordered := by
    refine ⟨StopSys.stopping_start, fun hall => ?_⟩
    have hlt := StopSys.not_all (s := .start n) (i := ⟨0, hn⟩) rfl
    exact absurd hall (Nat.ne_of_lt hlt)
  have hstep : ∀ (s : StopSys n) (i : Fin n) (s' : StopSys n), s.Ordered →
      onlyIf StopSys.inOrder StopSys.step s i = some s' → s'.Ordered := by
    intro s i s' hs h
    obtain ⟨hc, h⟩ := onlyIf_some h
    exact hs.step h32 hc (StopSys.moves h)
  refine ⟨fun s h => ⟨(h.inv hstart hstep).oneReboots, ?_⟩, fun as s h hend => ⟨fun hone => ?_, fun h => ?_⟩⟩
  · refine reach_goal (fun s => ∑ j, StopSys.todo (s.cpu j)) hstep (fun s hs hnot => ?_) s (h.inv hstart hstep)
    obtain ⟨i, t, ht, hlt⟩ := hs.goes h32 hnot
    exact ⟨t, (Reach.refl s).next ht, hlt⟩
  · refine (exec_onlyIf_or (B := StopSys.Crowded) (fun s i s' hs hc h => hs.step h32 hc (StopSys.moves h))
      (fun s i s' hs hc h => hs.crowded h32 hc (StopSys.moves h)) (fun s i s' hs h => hs.step h32 (StopSys.moves h))
      as _ s hstart h).resolve_right (fun hcrowd => hcrowd.not_oneReboots hend hone)
  · exact (exec_inv hstep as _ s hstart h).oneReboots

theorem stop_iff_three : ∃ s : StopSys 3, Reach (onlyIf StopSys.inOrder StopSys.step) (.start 3) s ∧ s.Ended ∧
    s.OneReboots := by
  obtain ⟨hone, -⟩ := stop_iff 3 (by decide) (by decide)
  obtain ⟨s, hs, hend⟩ := (hone _ (.refl _)).2
  exact ⟨s, hs, hend, (hone s hs).1⟩

/-- Two CPUs are down before either compares: both reboot. -/
theorem stop_both_reboot : ∃ s : StopSys 2, exec StopSys.step (.start 2) [0, 0, 0, 0, 1, 1, 1, 1, 0, 1] = some s ∧ s.Ended ∧
    s.cpu 0 = .reboot ∧ s.cpu 1 = .reboot ∧ ¬ s.OneReboots :=
  ⟨_, rfl, by decide, rfl, rfl, fun h => absurd h.atMost (by decide)⟩

end SmpBoot
