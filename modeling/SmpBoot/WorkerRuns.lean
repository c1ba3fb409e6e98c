import SmpBoot.Worker
/-!
# WorkerRuns — `bench_worker` in every interleaving

What `Worker` keeps from one global barrier to the next is carried to whole runs: somebody who does not wait can always go
on, so that all CPUs come to their ends (`benchWorker_goes`), and what the invariant says of a round holds in every state
reached (`worker_safe`).
-/
namespace SmpBoot

open Interleave

/-! ## How much is left -/

/-- More than the accesses of a round on one of `n` CPUs. -/
def roundWork (n : Nat) : Nat := 5 * n + 200

/-- Behind range `r`: the other ranges, and the wake-ups. -/
def behindRange (n r : Nat) : Nat := (3 - r) * 40 + 5 * n + 10

def TrywaitPc.left : TrywaitPc → Nat
  | .loadNext   => 3
  | .loadFlag _ => 2
  | .addNext    => 1

section Left
variable {n : Nat}

/-- How much is left of the round and of the rounds behind it, failing tests aside. -/
def WorkPc.left : WorkPc n → Nat
  | .init u       => 4 * roundWork n + 2 * (maxCpu - u) + 1
  | .initNext u   => 4 * roundWork n + 2 * (maxCpu - u)
  | .sync1 k      => (3 - k) * roundWork n + roundWork n
  | .setMax k     => (3 - k) * roundWork n + (5 * n + 199)
  | .sync2 k      => (3 - k) * roundWork n + (5 * n + 198)
  | .halt k p     => (3 - k) * roundWork n + p.left + 1
  | .measure k r  => (3 - k) * roundWork n + behindRange n r + 25
  | .signal k r u => (3 - k) * roundWork n + behindRange n r + 8 + (maxCpu - u)
  | .load k r p   => (3 - k) * roundWork n + behindRange n r + 8 + p.left
  | .dyn k r p    => (3 - k) * roundWork n + behindRange n r + p.left
  | .wake k u p   => (3 - k) * roundWork n + 5 * (n - u.val) + p.left + 1
  | .last         => 1
  | .over         => 0

def WorkCpu.left (c : WorkCpu n) : Nat := c.calls * (4 * roundWork n + 2 * maxCpu + 1) + c.pc.left

theorem nextRound_left (n k : Nat) : (nextRound n (k + 1)).left ≤ (3 - k) * roundWork n + 1 := by
  rcases nextRound_cases n (k + 1) with ⟨hk, -, h⟩ | h
  · have hk4 : k + 1 < 4 := hk
    rw [h]
    calc (3 - (k + 1)) * roundWork n + roundWork n = (3 - (k + 1) + 1) * roundWork n := (Nat.succ_mul _ _).symm
      _ = (3 - k) * roundWork n := by congr 1; omega
      _ ≤ (3 - k) * roundWork n + 1 := Nat.le_succ _
  · rw [h]
    exact Nat.le_add_left 1 _

theorem wakeFrom_left (n k u : Nat) : (wakeFrom n k u).left ≤ (3 - k) * roundWork n + 5 * (n - u) + 5 := by
  unfold wakeFrom
  split
  · simp only [WorkPc.left, WakePc.left]
    omega
  · have := nextRound_left n k
    omega

theorem signalFrom_left (n k r u : Nat) :
    (signalFrom n k r u).left ≤ (3 - k) * roundWork n + behindRange n r + 8 + (maxCpu - u) := by
  unfold signalFrom
  split
  · exact Nat.le_refl _
  · simp only [WorkPc.left, BarrierPc.left]
    omega

theorem startRange_left (i : Fin n) (k r : Nat) :
    (startRange n i k r).left ≤ (3 - k) * roundWork n + behindRange n r + 25 := by
  unfold startRange
  split
  · exact Nat.le_refl _
  · simp only [WorkPc.left, TrywaitPc.left]
    omega

theorem afterDyn_left (i : Fin n) (k r : Nat) :
    (afterDyn n i k r).left ≤ (3 - k) * roundWork n + behindRange n r := by
  unfold afterDyn loadRanges
  split
  · rename_i h
    have := startRange_left i k (r + 1)
    unfold behindRange at *
    omega
  · unfold behindRange
    split
    · have := wakeFrom_left n k (loadNbr k + 1)
      omega
    · have := nextRound_left n k
      omega

/-! ## Somebody goes on -/

/-- CPU `i` can take a step that brings it nearer to its end. -/
def Moves (m : WorkMem n) (i : Fin n) (c : WorkCpu n) : Prop :=
  (benchWorker n).waits i c = none ∧ ∃ m' c', (benchWorker n).act i c m = some (m', c') ∧ c'.left < c.left

variable {m : WorkMem n} {i : Fin n} {calls k r : Nat}

theorem WorkCpu.left_lt {pc pc' : WorkPc n} (h : pc'.left < pc.left) :
    WorkCpu.left ⟨calls, pc'⟩ < WorkCpu.left ⟨calls, pc⟩ := Nat.add_lt_add_left h _

theorem moves_init {u : Nat} : Moves m i ⟨calls, .init u⟩ := by
  refine ⟨rfl, _, _, rfl, WorkCpu.left_lt ?_⟩
  simp only [WorkPc.left]
  omega

theorem moves_initNext {u : Nat} (hu : u < maxCpu) : Moves m i ⟨calls, .initNext u⟩ := by
  refine ⟨rfl, _, _, rfl, WorkCpu.left_lt ?_⟩
  by_cases hlt : u + 1 < maxCpu
  · rw [if_pos hlt]
    simp only [WorkPc.left]
    omega
  · rw [if_neg hlt]
    rcases nextRound_cases n 0 with ⟨-, -, h⟩ | h
    · rw [h]
      simp only [WorkPc.left]
      omega
    · rw [h]
      simp only [WorkPc.left]
      omega

theorem moves_setMax : Moves m i ⟨calls, .setMax k⟩ := by
  refine ⟨rfl, _, _, rfl, WorkCpu.left_lt ?_⟩
  simp only [WorkPc.left]
  omega

theorem moves_measure : Moves m i ⟨calls, .measure k r⟩ := by
  refine ⟨rfl, _, _, rfl, WorkCpu.left_lt (Nat.lt_of_le_of_lt (signalFrom_left n k r 1) ?_)⟩
  simp only [WorkPc.left, maxCpu]
  omega

theorem moves_signal {u : Nat} (hu : u ≤ loadNbr k) : Moves m i ⟨calls, .signal k r u⟩ := by
  refine ⟨rfl, _, _, rfl, WorkCpu.left_lt (Nat.lt_of_le_of_lt (signalFrom_left n k r (u + 1)) ?_)⟩
  have := loadNbr_lt k
  simp only [WorkPc.left]
  omega

/-- A load whose flag is signalled. -/
theorem moves_load {p : TrywaitPc} (hp : p.Fits (m.flag i.val)) (hf : (m.flag i.val).next < (m.flag i.val).flag) :
    Moves m i ⟨calls, .load k r p⟩ := by
  refine ⟨rfl, _, _, rfl, WorkCpu.left_lt ?_⟩
  cases p with
  | loadNext => simp [WorkPc.left, TrywaitPc.step, TrywaitPc.left]
  | loadFlag v =>
    have hv : ¬(m.flag i.val).flag < v := by
      have hp' : v = (m.flag i.val).next + 1 := hp
      subst hp'
      bv_omega
    simp [WorkPc.left, TrywaitPc.step, TrywaitPc.left, hv]
  | addNext =>
    simp only [WorkPc.left, TrywaitPc.step, TrywaitPc.left, BarrierPc.left]
    omega

theorem moves_dyn {p : BarrierPc} (hp : ∀ e, p = .spin e → e ≠ m.dyn.epoch) : Moves m i ⟨calls, .dyn k r p⟩ := by
  refine ⟨rfl, _, _, rfl, WorkCpu.left_lt ?_⟩
  have hlt := BarrierPc.step_left hp
  have hpos : 0 < p.left := by cases p <;> simp [BarrierPc.left]
  cases hr : (p.step m.dyn).2 with
  | none =>
    refine Nat.lt_of_le_of_lt (afterDyn_left i k r) ?_
    simp only [WorkPc.left]
    omega
  | some p' =>
    rw [hr] at hlt
    simp only [Option.map_some, Option.getD_some, WorkPc.left, Option.elim] at hlt ⊢
    omega

theorem moves_halt {p : HaltPc} (hp : (p.step (m.flags i)).2.elim 0 HaltPc.left < p.left) :
    Moves m i ⟨calls, .halt k p⟩ := by
  refine ⟨rfl, _, _, rfl, WorkCpu.left_lt ?_⟩
  cases hr : (p.step (m.flags i)).2 with
  | none =>
    rw [hr] at hp
    refine Nat.lt_of_le_of_lt (nextRound_left n k) ?_
    simp only [WorkPc.left, Option.elim] at hp ⊢
    omega
  | some p' =>
    rw [hr] at hp
    simp only [Option.map_some, Option.getD_some, WorkPc.left, Option.elim] at hp ⊢
    omega

theorem moves_wake {u : Fin n} {p : WakePc} (hp : (p.step (m.flags u)).2.elim 0 WakePc.left < p.left) :
    Moves m i ⟨calls, .wake k u p⟩ := by
  refine ⟨rfl, _, _, rfl, WorkCpu.left_lt ?_⟩
  have hu := u.isLt
  cases hr : (p.step (m.flags u)).2 with
  | none =>
    rw [hr] at hp
    refine Nat.lt_of_le_of_lt (wakeFrom_left n k (u.val + 1)) ?_
    simp only [WorkPc.left, Option.elim] at hp ⊢
    omega
  | some p' =>
    rw [hr] at hp
    simp only [Option.map_some, Option.getD_some, WorkPc.left, Option.elim] at hp ⊢
    omega

end Left

section Goes
variable {n k calls : Nat} {m : WorkMem (n + 2)} {pc : Fin (n + 2) → WorkPc (n + 2)} {i : Fin (n + 2)}

/-- A participant outside `barr_dyn` has been in all its episodes. -/
theorem outside_eq {hL : loadNbr k < n + 2} {E r : Nat} (hE : Episode m.dyn E (members hL pc)) (hi : i.val ≤ loadNbr k)
    (hr : (pc i).member k = ⟨r, none⟩) : r = E := by
  have hm : members hL pc ⟨i.val, by omega⟩ = ⟨r, none⟩ := hr
  rcases hE.done_eq ⟨i.val, by omega⟩ with hd | ⟨-, hne⟩
  · rw [hm] at hd
    exact hd
  · rw [hm] at hne
    exact absurd rfl hne

/-- One inside is in the current episode, or it does not wait. -/
theorem inside_eq {hL : loadNbr k < n + 2} {E r : Nat} {p : BarrierPc} (hE : Episode m.dyn E (members hL pc))
    (hi : i.val ≤ loadNbr k) (hr : (pc i).member k = ⟨r, some p⟩) :
    r = E ∨ r + 1 = E ∧ ∀ e, p = .spin e → e ≠ m.dyn.epoch := by
  have hm : members hL pc ⟨i.val, by omega⟩ = ⟨r, some p⟩ := hr
  rcases hE.done_eq ⟨i.val, by omega⟩ with hd | ⟨hd, -⟩
  · rw [hm] at hd
    exact .inl hd
  · refine .inr ⟨by rw [hm] at hd; exact hd, fun e he => ?_⟩
    exact hE.leaving hd (by rw [hm, he])

theorem Works.load_goes {hL : loadNbr k < n + 2} (h : Works k hL m pc) {r : Nat} {p : TrywaitPc}
    (hpc : pc i = .load k r p) (hr : r < (pc 0).signalled k i.val) : Moves m i ⟨calls, pc i⟩ := by
  have hat := h.place i
  rw [hpc] at hat
  obtain ⟨hf, hp⟩ := h.flag i hat.2.1 hat.2.2.1
  obtain ⟨b, -, hflag, hnext⟩ := hf.count
  rw [hpc] at hp hnext ⊢
  simp only [WorkPc.passed] at hnext
  refine moves_load hp ?_
  rw [BitVec.lt_def]
  omega

/-- CPU 0 is in `barr_dyn`: if it waits there, a load is still outside, with its flag signalled, or somebody inside goes
on. -/
theorem Works.dyn_goes {hL : loadNbr k < n + 2} (h : Works k hL m pc) {r : Nat} {p : BarrierPc}
    (hpc : pc 0 = .dyn k r p) : ∃ i, Moves m i ⟨calls, pc i⟩ := by
  by_cases hsp : ∀ e, p = .spin e → e ≠ m.dyn.epoch
  · refine ⟨0, ?_⟩
    rw [hpc]
    exact moves_dyn hsp
  obtain ⟨E, hE⟩ := h.inner
  have h0 := h.place 0
  rw [hpc] at h0
  have hrE : r = E := by
    rcases inside_eq hE (Nat.zero_le _) (congrArg (WorkPc.member k) hpc) with hr | ⟨-, hr⟩
    · exact hr
    · exact absurd hr hsp
  obtain ⟨j, hj⟩ := hE.not_all_spin
  obtain ⟨i, hi, hij⟩ : ∃ i : Fin (n + 2), i.val ≤ loadNbr k ∧ members hL pc j = (pc i).member k :=
    ⟨⟨j.val, by omega⟩, Nat.le_of_lt_succ j.isLt, rfl⟩
  rw [hij] at hj
  have hat := h.place i
  have hne : i.val = 0 → pc i = .dyn k r p := fun h => by rw [← hpc, show i = 0 from Fin.ext h]
  refine ⟨i, ?_⟩
  cases hp : pc i with
  | load k' r' p' =>
    rw [hp] at hat
    obtain rfl := hat.1
    have hr' := outside_eq hE hi (congrArg (WorkPc.member k') hp)
    rw [← hp]
    refine h.load_goes hp ?_
    rw [hpc]
    exact Nat.lt_succ_of_le (Nat.le_of_eq (hr'.trans hrE.symm))
  | dyn k' r' p' =>
    rw [hp] at hj
    exact moves_dyn (fun e he => hj e (congrArg some he))
  | halt k' p' =>
    rw [hp] at hat
    exact absurd hat.2 (Nat.not_lt.2 hi)
  | measure k' r' =>
    rw [hp] at hat hne
    cases hne hat.2.1
  | signal k' r' u =>
    rw [hp] at hat hne
    cases hne hat.2.1
  | wake k' u p' =>
    rw [hp] at hat hne
    cases hne hat.2.1
  | sync1 k' =>
    have hr' := outside_eq hE hi (congrArg (WorkPc.member k) hp)
    have := h0.2.2
    omega
  | last =>
    have hr' := outside_eq hE hi (congrArg (WorkPc.member k) hp)
    have := h0.2.2
    omega
  | _ => rw [hp] at hat; exact hat.elim

/-- CPU 0 wakes a CPU: it goes on, or that CPU does. -/
theorem Works.wake_goes {hL : loadNbr k < n + 2} (h : Works k hL m pc) {u : Fin (n + 2)} {p : WakePc}
    (hpc : pc 0 = .wake k u p) : ∃ i, Moves m i ⟨calls, pc i⟩ := by
  have h0 := h.place 0
  rw [hpc] at h0
  have hw : (pc 0).wakeAt u = .inside p := by simp [hpc, WorkPc.wakeAt]
  have ha := (h.asleep u h0.2.2).paired
  rw [hw] at ha
  rcases ha.goes with hlt | hb | ⟨q, hq, hlt⟩
  · refine ⟨0, ?_⟩
    rw [hpc]
    exact moves_wake hlt
  · cases hp : pc u <;> rw [hp] at hb <;> cases hb
  · refine ⟨u, ?_⟩
    cases hp : pc u with
    | halt k' p' =>
      rw [hp] at hq
      cases hq
      exact moves_halt hlt
    | _ => rw [hp] at hq; cases hq

/-- CPU 0 is through with the round: nobody is asleep, and whoever is not through is leaving `barr_dyn`. -/
theorem Works.last_goes {hL : loadNbr k < n + 2} (h : Works k hL m pc) (hpc : pc 0 = nextRound (n + 2) (k + 1))
    (h0 : i ≠ 0) (hi : (benchWorker (n + 2)).waits i ⟨calls, pc i⟩ = none) : Moves m i ⟨calls, pc i⟩ := by
  obtain ⟨hmem, -, -, -, -, hwake⟩ := nextRound_proj n k
  obtain ⟨E, hE⟩ := h.inner
  have hrE : rangesIn k = E := outside_eq hE (Nat.zero_le _) (by rw [hpc, hmem])
  have hat := h.place i
  have hne : i.val ≠ 0 := fun h => h0 (Fin.ext h)
  cases hp : pc i with
  | halt k' p =>
    rw [hp] at hat
    have ha := (h.asleep i hat.2).paired
    rw [hpc, hwake, hp] at ha
    cases ha.behind.2
  | load k' r p =>
    rw [hp] at hat
    have hr := outside_eq hE hat.2.2.1 (congrArg (WorkPc.member k) hp)
    have := hat.2.2.2
    omega
  | dyn k' r p =>
    rw [hp] at hat
    rcases inside_eq hE hat.2.1 (congrArg (WorkPc.member k) hp) with hr | ⟨-, hr⟩
    · have := hat.2.2
      omega
    · exact moves_dyn hr
  | measure k' r => rw [hp] at hat; exact absurd hat.2.1 hne
  | signal k' r u => rw [hp] at hat; exact absurd hat.2.1 hne
  | wake k' u p => rw [hp] at hat; exact absurd hat.2.1 hne
  | sync1 k' => rw [hp] at hi; cases hi
  | last => rw [hp] at hi; cases hi
  | _ => rw [hp] at hat; exact hat.elim

theorem Works.goes {hL : loadNbr k < n + 2} (h : Works k hL m pc)
    (hi : (benchWorker (n + 2)).waits i ⟨calls, pc i⟩ = none) : ∃ j, Moves m j ⟨calls, pc j⟩ := by
  have h0 := h.place 0
  have hlast : pc 0 = nextRound (n + 2) (k + 1) → ∃ j, Moves m j ⟨calls, pc j⟩ := fun hpc => by
    refine ⟨i, h.last_goes hpc ?_ hi⟩
    rintro rfl
    rw [hpc] at hi
    rcases nextRound_cases (n + 2) (k + 1) with ⟨-, -, he⟩ | he
    · rw [he] at hi; cases hi
    · rw [he] at hi; cases hi
  cases hpc : pc 0 with
  | measure k' r =>
    refine ⟨0, ?_⟩
    rw [hpc]
    exact moves_measure
  | signal k' r u =>
    rw [hpc] at h0
    obtain ⟨rfl, -, -, -, hu⟩ := h0
    refine ⟨0, ?_⟩
    rw [hpc]
    exact moves_signal hu
  | dyn k' r p =>
    rw [hpc] at h0
    obtain rfl := h0.1
    exact h.dyn_goes hpc
  | wake k' u p =>
    rw [hpc] at h0
    obtain rfl := h0.1
    exact h.wake_goes hpc
  | sync1 k' =>
    rw [hpc] at h0
    exact hlast (hpc.trans h0.symm)
  | last =>
    rw [hpc] at h0
    exact hlast (hpc.trans h0.symm)
  | halt k' p => rw [hpc] at h0; exact absurd h0.2 (Nat.not_lt_zero _)
  | load k' r p => rw [hpc] at h0; exact absurd h0.2.1 (by simp)
  | _ => rw [hpc] at h0; exact h0.elim

variable {l : Fin (n + 2) → WorkCpu (n + 2)}

theorem WorkInv.goes (h : WorkInv m l) (hi : (benchWorker (n + 2)).waits i (l i) = none) (hover : ¬(l i).Over) :
    ∃ j, Moves m j (l j) := by
  cases h with
  | init calls pc hl idle h =>
    subst hl
    have hpc := h i
    refine ⟨i, ?_⟩
    cases hp : pc i with
    | init u =>
      simp only [hp]
      exact moves_init
    | initNext u =>
      rw [hp] at hpc
      simp only [hp]
      exact moves_initNext hpc.1
    | sync1 k => simp only [hp] at hi; cases hi
    | _ => rw [hp] at hpc; exact hpc.elim
  | store calls k pc hl hk hL idle quiet h0 h =>
    subst hl
    refine ⟨0, ?_⟩
    simp only [h0]
    exact moves_setMax
  | stored calls k pc hl hk hL began quiet h =>
    subst hl
    simp only [h i] at hi
    cases hi
  | work calls k pc hl hk hL h =>
    subst hl
    exact h.goes hi
  | ended idle h => exact absurd (h i) hover

theorem WorkInv.of_over (h : WorkInv m l) (hi : (l i).pc = .over) : Idle m ∧ ∀ j, (l j).pc = .over := by
  cases h with
  | init calls pc hl idle h =>
    subst hl
    have hpc := h i
    simp only at hi
    rw [hi] at hpc
    exact hpc.elim
  | store calls k pc hl hk hL idle quiet h0 h =>
    subst hl
    simp only at hi
    by_cases h0i : i = 0
    · subst h0i; rw [h0] at hi; cases hi
    · rw [h i h0i] at hi; cases hi
  | stored calls k pc hl hk hL began quiet h =>
    subst hl
    simp only at hi
    rw [h i] at hi
    cases hi
  | work calls k pc hl hk hL h =>
    subst hl
    have hpc := h.place i
    simp only at hi
    rw [hi] at hpc
    exact hpc.elim
  | ended idle h => exact ⟨idle, h⟩

theorem benchWorker_back {c c' : WorkCpu (n + 2)} (h : (benchWorker (n + 2)).waits i c = some c') : c'.left < c.left := by
  obtain ⟨calls, pc⟩ := c
  cases pc with
  | sync1 k =>
    cases h
    refine WorkCpu.left_lt ?_
    split <;> simp only [WorkPc.left, roundWork] <;> omega
  | sync2 k =>
    cases h
    refine WorkCpu.left_lt ?_
    split
    · simp only [WorkPc.left, HaltPc.left]
      omega
    · refine Nat.lt_of_le_of_lt (startRange_left i k 0) ?_
      simp only [WorkPc.left, behindRange]
      omega
  | last =>
    cases calls with
    | zero =>
      cases h
      exact WorkCpu.left_lt Nat.one_pos
    | succ calls =>
      cases h
      simp only [WorkCpu.left, WorkPc.left, Nat.succ_mul]
      omega
  | _ => cases h

/-- **Somebody can always go on.** -/
theorem benchWorker_goes :
    (benchWorker (n + 2)).Goes (WorkInv (n := n)) (fun _ => WorkCpu.Over) (fun _ => WorkCpu.left) where
  rest := by
    rintro i ⟨calls, pc⟩ rfl
    rfl
  back := benchWorker_back
  act  := by
    rintro m l h ⟨i, hi, hover⟩
    obtain ⟨j, hj, m', c', hact, hlt⟩ := h.goes hi hover
    exact ⟨j, m', c', hj, hact, hlt⟩
  even := by
    intro m l h hor
    by_cases hover : ∃ i, (l i).Over
    · obtain ⟨i, hi⟩ := hover
      exact .inr (h.of_over hi).2
    · exact .inl fun j => (hor j).resolve_right fun hj => hover ⟨j, hj⟩

end Goes

/-! ## What holds in every state -/

/-- Where a CPU is in the middle of a round. -/
def WorkPc.Busy {n : Nat} : WorkPc n → Prop
  | .measure _ _ | .dyn _ _ _ | .wake _ _ _ => True
  | _                                       => False

section Safe
variable {n k E : Nat} {m : WorkMem (n + 2)} {pc : Fin (n + 2) → WorkPc (n + 2)} {l : Fin (n + 2) → WorkCpu (n + 2)}
  {i : Fin (n + 2)} {s : Rounds (Fin (n + 2)) (WorkMem (n + 2)) (WorkCpu (n + 2))}

theorem Works.max {hL : loadNbr k < n + 2} (hN : n + 2 < 2 ^ 32) (h : Works k hL m pc) :
    m.dyn.max.toNat = loadNbr k + 1 := by
  obtain ⟨E, hE⟩ := h.inner
  rw [hE.max, Fintype.card_fin, BitVec.toNat_ofNat, Nat.mod_eq_of_lt (by omega)]

theorem WorkPc.member_dyn {x : WorkPc n} (h : (x.member k).pc ≠ none) : ∃ k' p, x = .dyn k' (x.member k).done p := by
  cases x with
  | dyn k' r p => exact ⟨k', p, rfl⟩
  | _ => exact absurd rfl h

theorem Works.ends {hL : loadNbr k < n + 2} (hN : n + 2 < 2 ^ 32) (h : Works k hL m pc) {r : Nat} {v : Unsigned}
    (hpc : pc i = .dyn k r (.storeEpoch v)) (j : Fin (n + 2)) :
    j.val < m.dyn.max.toNat ↔ ∃ p, pc j = .dyn k r p := by
  have hi := h.place i
  rw [hpc] at hi
  have hiL : i.val ≤ loadNbr k := hi.2.1
  rw [h.max hN]
  constructor
  · intro hj
    obtain ⟨E, hE⟩ := h.inner
    have hmi : members hL pc ⟨i.val, by omega⟩ = ⟨r, some (.storeEpoch v)⟩ := congrArg (WorkPc.member k) hpc
    have hall := hE.all_inside (congrArg Member.pc hmi)
    have hr : r = E := by rw [← (hall ⟨i.val, by omega⟩).1, hmi]
    obtain ⟨hd, hne⟩ := hall ⟨j.val, hj⟩
    obtain ⟨k', p, hp⟩ := WorkPc.member_dyn (x := pc j) hne
    have hat := h.place j
    rw [hp] at hat
    obtain rfl := hat.1
    refine ⟨p, ?_⟩
    rw [hp, hr]
    exact congrArg (WorkPc.dyn k' · p) hd
  · rintro ⟨p, hp⟩
    have hat := h.place j
    rw [hp] at hat
    exact Nat.lt_succ_of_le hat.2.1

/-- While CPU 0 measures, a load has waited for its flag as often as it was signalled. -/
theorem Works.passed_eq {hL : loadNbr k < n + 2} (h : Works k hL m pc) {r : Nat} (hpc : pc 0 = .measure k r)
    (hi1 : 1 ≤ i.val) (hiL : i.val ≤ loadNbr k) : (pc i).passed k = r := by
  obtain ⟨E, hE⟩ := h.inner
  have hrE : r = E := outside_eq hE (Nat.zero_le _) (congrArg (WorkPc.member k) hpc)
  have h0 := h.place 0
  rw [hpc] at h0
  have hr := h0.2.2
  have hat := h.place i
  have hle := (h.flag i hi1 hiL).1.le
  rw [hpc] at hle
  cases hp : pc i with
  | load k' r' p => exact (outside_eq hE hiL (congrArg (WorkPc.member k) hp)).trans hrE.symm
  | dyn k' r' p =>
    rw [hp] at hle
    simp only [WorkPc.passed, WorkPc.signalled] at hle ⊢
    rcases inside_eq hE hiL (congrArg (WorkPc.member k) hp) with hr' | ⟨hr', -⟩
    · omega
    · omega
  | halt k' p => rw [hp] at hat; exact absurd hat.2 (Nat.not_lt.2 hiL)
  | measure k' r' => rw [hp] at hat; have := hat.2.1; omega
  | signal k' r' u => rw [hp] at hat; have := hat.2.1; omega
  | wake k' u p => rw [hp] at hat; have := hat.2.1; omega
  | sync1 k' =>
    have := outside_eq hE hiL (congrArg (WorkPc.member k) hp)
    omega
  | last =>
    have := outside_eq hE hiL (congrArg (WorkPc.member k) hp)
    omega
  | _ => rw [hp] at hat; exact hat.elim

theorem Works.measured {hL : loadNbr k < n + 2} (h : Works k hL m pc) {r : Nat} (hpc : pc 0 = .measure k r) :
    (∀ j k' r' p, pc j = .load k' r' p → k' = k ∧ r' = r) ∧ ∀ u, u < maxCpu → (m.flag u).flag = (m.flag u).next := by
  refine ⟨fun j k' r' p hp => ?_, fun u hu => ?_⟩
  · have hat := h.place j
    rw [hp] at hat
    obtain ⟨E, hE⟩ := h.inner
    have hr : r = E := outside_eq hE (Nat.zero_le _) (congrArg (WorkPc.member k) hpc)
    have hr' : r' = E := outside_eq hE hat.2.2.1 (congrArg (WorkPc.member k) hp)
    exact ⟨hat.1, hr'.trans hr.symm⟩
  · by_cases hq : u = 0 ∨ loadNbr k < u
    · exact (h.quiet u hu hq).1
    · have hf := (h.flag ⟨u, by omega⟩ (by simp only; omega) (by simp only; omega)).1
      obtain ⟨b, -, hflag, hnext⟩ := hf.count
      rw [h.passed_eq hpc (by simp only; omega) (by simp only; omega)] at hnext
      rw [hpc] at hflag
      exact BitVec.eq_of_toNat_eq (hflag.trans hnext.symm)

/-- A CPU that is woken is due to halt, and has not yet come back. -/
theorem Works.early {hL : loadNbr k < n + 2} (h : Works k hL m pc) {u : Fin (n + 2)} {p : WakePc}
    (hpc : pc 0 = .wake k u p) (hp : p ≠ .poll) : m.halted u < due m.rounds u.val := by
  have h0 := h.place 0
  rw [hpc] at h0
  have hw : (pc 0).wakeAt u = .inside p := by simp [hpc, WorkPc.wakeAt]
  have ha := h.asleep u h0.2.2
  rw [hw] at ha
  have hd := ha.halted
  cases ht : (pc u).haltAt with
  | behind =>
    have hpair := ha.paired
    rw [ht] at hpair
    exact (hpair.halted (.inr rfl) hp).elim
  | before => rw [ht] at hd; simp only [HaltAt.pending] at hd; omega
  | inside q => rw [ht] at hd; simp only [HaltAt.pending] at hd; omega

/-- A CPU in the middle of a round says which round it is. -/
theorem WorkInv.of_busy (h : WorkInv m l) {x : WorkPc (n + 2)} (hx : (l i).pc = x) (hi : x.Busy) :
    ∃ calls k pc, ∃ hL : loadNbr k < n + 2, l = (fun i => ⟨calls, pc i⟩) ∧ Works k hL m pc ∧ pc i = x ∧ x.At k i.val := by
  subst hx
  cases h with
  | init calls pc hl idle h =>
    subst hl
    have hpc := h i
    simp only at hi
    cases hp : pc i with
    | measure k r => rw [hp] at hpc; exact hpc.elim
    | dyn k r p => rw [hp] at hpc; exact hpc.elim
    | wake k u p => rw [hp] at hpc; exact hpc.elim
    | _ => rw [hp] at hi; exact hi.elim
  | store calls k pc hl hk hL idle quiet h0 h =>
    subst hl
    simp only at hi
    by_cases h0i : i = 0
    · subst h0i; rw [h0] at hi; exact hi.elim
    · rw [h i h0i] at hi; exact hi.elim
  | stored calls k pc hl hk hL began quiet h => subst hl; simp only [h i] at hi; exact hi.elim
  | work calls k pc hl hk hL h =>
    subst hl
    exact ⟨calls, k, pc, hL, rfl, h, rfl, h.place i⟩
  | ended idle h => rw [h i] at hi; exact hi.elim

theorem WorkInv.of_setMax (h : WorkInv m l) (hi : (l i).pc = .setMax k) :
    Idle m ∧ ∀ j k' r p, (l j).pc ≠ .dyn k' r p := by
  cases h with
  | init calls pc hl idle h =>
    subst hl
    have hpc := h i
    simp only at hi
    rw [hi] at hpc
    exact hpc.elim
  | store calls k' pc hl hk hL idle quiet h0 h =>
    subst hl
    refine ⟨idle, fun j k' r p hj => ?_⟩
    simp only at hj
    by_cases h0j : j = 0
    · subst h0j; rw [h0] at hj; cases hj
    · rw [h j h0j] at hj; cases hj
  | stored calls k' pc hl hk hL began quiet h => subst hl; simp only [h i] at hi; cases hi
  | work calls k' pc hl hk hL h =>
    subst hl
    have hpc := h.place i
    simp only at hi
    rw [hi] at hpc
    exact hpc.elim
  | ended idle h => rw [h i] at hi; cases hi

theorem WorkInv.halts (h : WorkInv m l) (j : Fin (n + 2)) : m.woken j ≤ m.halted j ∧
    m.halted j ≤ due m.rounds j.val ∧ due m.rounds j.val ≤ m.woken j + 1 := by
  have hidle : Idle m → m.woken j ≤ m.halted j ∧ m.halted j ≤ due m.rounds j.val ∧
      due m.rounds j.val ≤ m.woken j + 1 := fun idle => by
    obtain ⟨-, hh, hw⟩ := idle.flags j
    omega
  cases h with
  | init calls pc hl idle h => exact hidle idle
  | store calls k pc hl hk hL idle quiet h0 h => exact hidle idle
  | stored calls k pc hl hk hL began quiet h =>
    obtain ⟨-, hh, hw⟩ := began.flags j
    by_cases hj : loadNbr k < j.val
    · rw [if_pos hj] at hh hw
      omega
    · rw [if_neg hj] at hh hw
      omega
  | work calls k pc hl hk hL h =>
    by_cases hj : j.val ≤ loadNbr k
    · obtain ⟨-, hh, hw⟩ := h.awake j hj
      omega
    · exact (h.asleep j (Nat.not_le.1 hj)).le
  | ended idle h => exact hidle idle

/-- Behind a barrier nobody is in `barr_dyn` at once. -/
theorem ahead_dyn (h : (benchWorker (n + 2)).InRound WorkInv E s) {r : Nat} {p : BarrierPc} :
    ((benchWorker (n + 2)).ahead E s.thr s.loc i).pc = .dyn k r p ↔ (s.loc i).pc = .dyn k r p := by
  cases hw : (benchWorker (n + 2)).waits i (s.loc i) with
  | none => rw [h.ahead_eq hw]
  | some c' =>
    have hne : (s.loc i).pc ≠ .dyn k r p ∧ c'.pc ≠ .dyn k r p := by
      unfold benchWorker at hw
      cases hpc : (s.loc i).pc with
      | sync1 k' =>
        simp only [hpc, Option.some.injEq] at hw
        subst hw
        refine ⟨by simp, ?_⟩
        simp only
        split <;> simp
      | sync2 k' =>
        simp only [hpc, Option.some.injEq] at hw
        subst hw
        refine ⟨by simp, ?_⟩
        simp only [startRange]
        split
        · simp
        · split <;> simp
      | last =>
        simp only [hpc, Option.some.injEq] at hw
        subst hw
        refine ⟨by simp, ?_⟩
        cases (s.loc i).calls <;> simp
      | _ => simp only [hpc] at hw; cases hw
    unfold Script.ahead
    rw [hw]
    split
    · exact Iff.rfl
    · exact ⟨fun h => absurd h hne.2, fun h => absurd h hne.1⟩

theorem workerSafe_inRound (hN : n + 2 < 2 ^ 32) (h : (benchWorker (n + 2)).InRound WorkInv E s) : WorkerSafe s := by
  -- a CPU that does not wait is where the invariant has it
  have hout : ∀ {i x}, (s.loc i).pc = x → (benchWorker (n + 2)).waits i ⟨(s.loc i).calls, x⟩ = none →
      ((benchWorker (n + 2)).ahead E s.thr s.loc i).pc = x := by
    rintro i x rfl hw
    rw [h.ahead_eq hw]
  refine ⟨?inner, ?episode, ?setMax, h.inv.halts, ?early, ?even, ?measure⟩
  case inner =>
    intro i k r p hpc
    obtain ⟨calls, k, pc, hL, hl, hw, -, rfl, hiL, -⟩ := h.inv.of_busy ((ahead_dyn h).2 hpc) trivial
    refine ⟨hw.max hN, ?_, fun j k' r' p' hj => ?_⟩
    · rw [hw.max hN]
      exact Nat.lt_succ_of_le hiL
    · have hj' := (ahead_dyn h).2 hj
      rw [hl] at hj'
      have hat := hw.place j
      rw [show pc j = _ from hj'] at hat
      exact hat.1
  case episode =>
    intro i k r v hpc j
    obtain ⟨calls, k, pc, hL, hl, hw, hi, rfl, -⟩ := h.inv.of_busy ((ahead_dyn h).2 hpc) trivial
    rw [hw.ends hN hi j]
    refine exists_congr fun p => ?_
    rw [← ahead_dyn h, hl]
  case setMax =>
    intro i k hpc j k' r p hj
    exact (h.inv.of_setMax (hout hpc rfl)).2 j k' r p ((ahead_dyn h).2 hj)
  case early =>
    intro i k u p hpc hp
    obtain ⟨calls, k, pc, hL, hl, hw, hi, rfl, hi0, -⟩ := h.inv.of_busy (hout hpc rfl) trivial
    obtain rfl : i = 0 := Fin.ext hi0
    exact hw.early hi hp
  case even =>
    rintro i k (hpc | hpc) j
    · exact ((h.inv.of_setMax (hout hpc rfl)).1.flags j).2
    · exact ((h.inv.of_over (hout hpc rfl)).1.flags j).2
  case measure =>
    intro i k r hpc
    obtain ⟨calls, k, pc, hL, hl, hw, hi, rfl, hi0, -⟩ := h.inv.of_busy (hout hpc rfl) trivial
    obtain rfl : i = 0 := Fin.ext hi0
    obtain ⟨hload, hflag⟩ := hw.measured hi
    refine ⟨fun j k' r' p hj => hload j k' r' p ?_, hflag⟩
    have hj' := hout hj rfl
    rw [hl] at hj'
    exact hj'

end Safe

/-- **However the CPUs interleave in their calls of `bench_worker`, the round they are in is the same, and all calls can
come to their ends.** -/
theorem worker_safe (n : Nat) (hN : n + 2 < 2 ^ 32) (calls : Nat) (epoch : Unsigned) (dyn : Barrier) (flag : Nat → Flag)
    {s : Rounds (Fin (n + 2)) (WorkMem (n + 2)) (WorkCpu (n + 2))}
    (h : Reach (benchWorker (n + 2)).step (workerStart (n + 2) calls epoch dyn flag) s) :
    WorkerSafe s ∧ ∃ t, Reach (benchWorker (n + 2)).step s t ∧ Script.Over (fun _ => WorkCpu.Over) t := by
  have hcard : Fintype.card (Fin (n + 2)) = n + 2 := Fintype.card_fin _
  have h₀ : (benchWorker (n + 2)).InRound WorkInv 0 (workerStart (n + 2) calls epoch dyn flag) := by
    refine ⟨Episode.fresh (by omega) (by rw [hcard]; rfl) rfl (fun _ => rfl), fun i hi => absurd rfl hi, ?_⟩
    refine .init calls (fun _ => .init 0) rfl ⟨rfl, fun i => ⟨rfl, rfl, rfl⟩⟩ (fun i => ⟨by decide, fun v hv => ?_⟩)
    exact absurd hv (Nat.not_lt_zero v)
  obtain ⟨E, hE⟩ := (benchWorker_keeps hN).reach (by omega) h₀ h
  exact ⟨workerSafe_inRound hN hE, benchWorker_goes.reach (benchWorker_keeps hN) (by omega) hE⟩

/-- Three CPUs in turns, through both rounds: CPU 1 halts in the first and makes load in the second, CPU 2 halts in both. -/
theorem worker_safe_three : ∃ s, exec (benchWorker 3).step (workerStart 3 0 0 (.init 1) (fun _ => .init))
      (List.replicate 133 [0, 1, 2]).flatten = some s ∧ List.ofFn (fun i => (s.loc i).pc) = [.last, .last, .last] ∧
      s.mem.rounds = [0, 1] ∧ List.ofFn s.mem.woken = [0, 1, 2] ∧
    WorkerSafe s ∧ ∃ t, Reach (benchWorker 3).step s t ∧ Script.Over (fun _ => WorkCpu.Over) t := by
  have hrun : (exec (benchWorker 3).step (workerStart 3 0 0 (.init 1) (fun _ => .init))
        (List.replicate 133 [0, 1, 2]).flatten).map
        (fun s => (List.ofFn (fun i => (s.loc i).pc), s.mem.rounds, List.ofFn s.mem.woken)) =
      some ([.last, .last, .last], [0, 1], [0, 1, 2]) := by decide +kernel
  obtain ⟨s, hs, hm⟩ := Option.map_eq_some_iff.mp hrun
  obtain ⟨hloc, hm⟩ := Prod.mk.inj hm
  obtain ⟨hrounds, hwoken⟩ := Prod.mk.inj hm
  exact ⟨s, hs, hloc, hrounds, hwoken, worker_safe 1 (by decide) 0 0 (.init 1) (fun _ => .init)
    ⟨(List.replicate 133 [0, 1, 2]).flatten, hs⟩⟩

end SmpBoot
