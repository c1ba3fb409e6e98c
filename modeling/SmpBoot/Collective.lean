import SmpBoot.Halt
/-!
# Collective — `collective_only` and `collective_end` of `sync.c`

The CPUs in the mask go on, the others halt.  The member that gets `coll_mutex` stores its id in `coll_master`, and whoever
finds its own id there at the end wakes the others and frees the mutex.  That is one CPU only if no member comes to the
mutex after it is free again, and none finds its own id there before the store (`inTurn`).
-/
namespace SmpBoot

open Interleave

/-- `mask & ((cpumask_t)1 << u)`. -/
def inMask (mask : BitVec 16) (u : Nat) : Bool := isBitSet (mask.setWidth 32) u

/-- The next access of a CPU. -/
inductive CollPc (n : Nat) where
  | call                          -- in front of collective_only(mask)
  | trylock                       -- mutex_trylock(&coll_mutex)
  | setMaster                     -- coll_master = myid
  | setMask                       -- coll_mask = mask
  | test                          -- behind collective_only; any time later: if (coll_master == myid)
  | next (u : Nat)                -- for (..; u < cpu_online; ..), and the load of coll_mask
  | wake (u : Fin n) (p : WakePc) -- smp_wakeup(u)
  | unlock                        -- mutex_unlock(&coll_mutex)
  | halt (p : HaltPc)             -- smp_halt()
  | done
  deriving DecidableEq

structure Coll (n : Nat) where
  free    : Bool                  -- coll_mutex
  master  : Unsigned              -- coll_master
  mask    : BitVec 16             -- coll_mask
  flags   : Fin n → Unsigned
  pc      : Fin n → CollPc n
  masters : List (Fin n)          -- the CPUs that found their id in coll_master
  wakes   : List (Fin n)          -- the calls of smp_wakeup

def Coll.goto {n : Nat} (s : Coll n) (i : Fin n) (q : CollPc n) : Coll n := { s with pc := Function.update s.pc i q }

/-- One step of CPU `i`. -/
def Coll.step {n : Nat} (mask : BitVec 16) (s : Coll n) (i : Fin n) : Option (Coll n) :=
  match s.pc i with
  | .call      => some (s.goto i (if inMask mask i then .trylock else .halt .set))
  | .trylock   => some (if s.free then { s.goto i .setMaster with free := false } else s.goto i .test)
  | .setMaster => some { s.goto i .setMask with master := BitVec.ofNat 32 i }
  | .setMask   => some { s.goto i .test with mask := mask }
  | .test      =>
    some (if s.master = BitVec.ofNat 32 i then { s.goto i (.next 0) with masters := s.masters ++ [i] } else s.goto i .done)
  | .next u    =>
    if h : u < n then
      if inMask s.mask u then some (s.goto i (.next (u + 1)))
      else some { s.goto i (.wake ⟨u, h⟩ .await) with wakes := s.wakes ++ [⟨u, h⟩] }
    else some (s.goto i .unlock)
  | .wake u p  => some { s.goto i (match (p.step (s.flags u)).2 with
      | some p' => .wake u p'
      | none    => .next (u + 1)) with flags := Function.update s.flags u (p.step (s.flags u)).1 }
  | .unlock    => some { s.goto i .done with free := true }
  | .halt p    => some { s.goto i (match (p.step (s.flags i)).2 with
      | some p' => .halt p'
      | none    => .done) with flags := Function.update s.flags i (p.step (s.flags i)).1 }
  | .done      => none

/-- `coll_master` and `coll_mask` are what earlier regions left. -/
def Coll.start (n : Nat) (master : Unsigned) (mask : BitVec 16) : Coll n :=
  ⟨true, master, mask, fun _ => 0, fun _ => .call, [], []⟩

def Coll.Ended {n : Nat} (s : Coll n) : Prop := ∀ i, s.pc i = .done

structure CollSafe {n : Nat} (mask : BitVec 16) (s : Coll n) : Prop where
  master : s.masters.length ≤ 1 ∧ ∀ i ∈ s.masters, inMask mask i = true
  /-- Nobody is woken twice, and only CPUs outside the mask, by the master. -/
  wakes  : s.wakes.Nodup ∧ (∀ u ∈ s.wakes, inMask mask u = false) ∧ (s.wakes ≠ [] → s.masters ≠ [])
  /-- Until `smp_wakeup` has cleared its flag a CPU has not left `smp_halt`. -/
  halted : ∀ i u p, s.pc i = .wake u p → p ≠ .poll → s.pc u ≠ .done
  ended  : s.Ended → s.masters.length = 1 ∧ (∀ u : Fin n, inMask mask u = false → u ∈ s.wakes) ∧ s.free = true

/-- The master frees the mutex when all members have tried it; a member that finds its own id in `coll_master` does so
when nobody is going to store his. -/
def inTurn {n : Nat} (s : Coll n) (i : Fin n) : Bool :=
  match s.pc i with
  | .unlock => decide (∀ j, s.pc j ≠ .call ∧ s.pc j ≠ .trylock)
  | .test   => decide (s.master = BitVec.ofNat 32 i → ∀ j, s.pc j ≠ .setMaster)
  | _       => true

/-! ## The invariant -/

section Inv
variable {n : Nat} {mask : BitVec 16} {s s' : Coll n} {i w : Fin n}

/-- How far the call of `smp_wakeup(j)` is, where its caller is at this pc. -/
def CollPc.wakeAt (q : CollPc n) (j : Fin n) : WakeAt :=
  match q with
  | .next u       => if j.val < u then .behind else .before
  | .wake u p     => if j.val < u.val then .behind else if j = u then .inside p else .before
  | .unlock | .done => .behind
  | _             => .before

/-- A CPU outside the mask. -/
def CollPc.Sleeps (f : Unsigned) (w : WakeAt) : CollPc n → Prop
  | .call   => Paired f .before w
  | .halt p => Paired f (.inside p) w
  | .done   => Paired f .behind w
  | _       => False

/-- A member that does not get the mutex; the winner is at `q`. -/
def CollPc.Loses (p q : CollPc n) : Prop :=
  match p with
  | .call | .trylock => q ≠ .done
  | .test | .done    => True
  | _                => False

/-- The wake-ups of the CPUs below `u` have been begun. -/
def Coll.Woken (mask : BitVec 16) (s : Coll n) (u : Nat) : Prop :=
  s.wakes.Nodup ∧ ∀ j : Fin n, j ∈ s.wakes ↔ inMask mask j = false ∧ j.val < u

/-- The winner of the mutex. -/
def Coll.Leads (mask : BitVec 16) (s : Coll n) (w : Fin n) : Prop :=
  match s.pc w with
  | .setMaster => s.free = false ∧ s.masters = [] ∧ s.wakes = []
  | .setMask   => s.free = false ∧ s.master = BitVec.ofNat 32 w ∧ s.masters = [] ∧ s.wakes = []
  | .test      => s.free = false ∧ s.master = BitVec.ofNat 32 w ∧ s.mask = mask ∧ s.masters = [] ∧ s.wakes = []
  | .next u    => s.free = false ∧ s.master = BitVec.ofNat 32 w ∧ s.mask = mask ∧ s.masters = [w] ∧ s.Woken mask u
  | .wake u _  => s.free = false ∧ s.master = BitVec.ofNat 32 w ∧ s.mask = mask ∧ s.masters = [w] ∧
    s.Woken mask (u + 1) ∧ inMask mask u = false
  | .unlock    => s.free = false ∧ s.master = BitVec.ofNat 32 w ∧ s.masters = [w] ∧ s.Woken mask n
  | .done      => s.free = true ∧ s.master = BitVec.ofNat 32 w ∧ s.masters = [w] ∧ s.Woken mask n
  | _          => False

/-- **Nobody has got the mutex, or the one that has is the only one that is going to.** -/
inductive CollInv (mask : BitVec 16) (s : Coll n) : Prop
  | untried (free : s.free = true) (masters : s.masters = []) (wakes : s.wakes = [])
      (members : ∀ j : Fin n, inMask mask j = true → s.pc j = .call ∨ s.pc j = .trylock)
      (outside : ∀ j : Fin n, inMask mask j = false → (s.pc j).Sleeps (s.flags j) .before) : CollInv mask s
  | won (w : Fin n) (member : inMask mask w = true) (leads : s.Leads mask w)
      (members : ∀ j : Fin n, inMask mask j = true → j ≠ w → (s.pc j).Loses (s.pc w))
      (outside : ∀ j : Fin n, inMask mask j = false → (s.pc j).Sleeps (s.flags j) ((s.pc w).wakeAt j)) : CollInv mask s

theorem collInv_start {master : Unsigned} {mask' : BitVec 16} : CollInv mask (Coll.start n master mask') :=
  .untried rfl rfl rfl (fun _ _ => .inl rfl) (fun _ _ => .awake rfl (.inl rfl) (.inl rfl))

/-! ### CPUs outside the mask -/

theorem CollPc.Sleeps.mono {f f' : Unsigned} {w w' : WakeAt} {q : CollPc n}
    (h : ∀ t, Paired f t w → Paired f' t w') (hq : q.Sleeps f w) : q.Sleeps f' w' := by
  cases q with
  | call => exact h _ hq
  | halt p => exact h _ hq
  | done => exact h _ hq
  | _ => exact hq

/-- A step of a CPU outside the mask touches its own flags only. -/
theorem Coll.step_outside {wk : WakeAt} (hi : inMask mask i = false) (h : (s.pc i).Sleeps (s.flags i) wk)
    (hs : s.step mask i = some s') : ∃ q f, s' = { s.goto i q with flags := Function.update s.flags i f } ∧
      q.Sleeps f wk := by
  unfold Coll.step at hs
  cases hpc : s.pc i with
  | call =>
    rw [hpc] at h hs
    simp only [hi] at hs
    cases hs
    refine ⟨.halt .set, s.flags i, ?_, h.halts⟩
    rw [Function.update_eq_self]
    rfl
  | halt p =>
    rw [hpc] at h hs
    cases hs
    refine ⟨_, _, rfl, ?_⟩
    have hnext := Paired.halt h
    cases hr : (p.step (s.flags i)).2 with
    | some p' => rw [hr] at hnext; exact hnext
    | none => rw [hr] at hnext; exact hnext
  | done => rw [hpc] at hs; cases hs
  | _ => rw [hpc] at h; exact h.elim

theorem Coll.Leads.congr (h : s.Leads mask w) (hpc : s'.pc w = s.pc w) (hfree : s'.free = s.free)
    (hmaster : s'.master = s.master) (hmask : s'.mask = s.mask) (hmasters : s'.masters = s.masters)
    (hwakes : s'.wakes = s.wakes) : s'.Leads mask w := by
  unfold Coll.Leads Coll.Woken at *
  rw [hpc, hfree, hmaster, hmask, hmasters, hwakes]
  exact h

theorem CollInv.stepOutside (h : CollInv mask s) (hi : inMask mask i = false) (hs : s.step mask i = some s') :
    CollInv mask s' := by
  have hne : ∀ {j : Fin n}, inMask mask j = true → j ≠ i := by
    rintro j hj rfl
    rw [hj] at hi
    cases hi
  cases h with
  | untried free masters wakes members outside =>
    obtain ⟨q, f, rfl, hq⟩ := Coll.step_outside hi (outside i hi) hs
    refine .untried free masters wakes (fun j hj => ?_) (fun j hj => ?_)
    · simpa [Coll.goto, hne hj] using members j hj
    · by_cases hji : j = i
      · subst hji; simpa [Coll.goto] using hq
      · simpa [Coll.goto, hji] using outside j hj
  | won w member leads members outside =>
    obtain ⟨q, f, rfl, hq⟩ := Coll.step_outside hi (outside i hi) hs
    have hw : (Function.update s.pc i q) w = s.pc w := Function.update_of_ne (hne member) _ _
    refine .won w member (leads.congr hw rfl rfl rfl rfl rfl) (fun j hj hjw => ?_) (fun j hj => ?_)
    · simp only [Coll.goto, hw]
      rw [Function.update_of_ne (hne hj)]
      exact members j hj hjw
    · simp only [Coll.goto, hw]
      by_cases hji : j = i
      · subst hji; simpa using hq
      · simpa [hji] using outside j hj

/-! ### Members -/

theorem ofNat_fin_inj (hn : n ≤ 2 ^ 32) {i j : Fin n} (h : BitVec.ofNat 32 i.val = BitVec.ofNat 32 j.val) : i = j := by
  have := congrArg BitVec.toNat h
  rw [BitVec.toNat_ofNat, BitVec.toNat_ofNat, Nat.mod_eq_of_lt (by omega), Nat.mod_eq_of_lt (by omega)] at this
  exact Fin.ext this

theorem ne_of_mask {i j : Fin n} (hi : inMask mask i = true) (hj : inMask mask j = false) : j ≠ i := by
  rintro rfl
  rw [hi] at hj
  cases hj

/-- Nobody has the mutex yet. -/
theorem CollInv.tries (free : s.free = true) (masters : s.masters = []) (wakes : s.wakes = [])
    (members : ∀ j : Fin n, inMask mask j = true → s.pc j = .call ∨ s.pc j = .trylock)
    (outside : ∀ j : Fin n, inMask mask j = false → (s.pc j).Sleeps (s.flags j) .before)
    (hi : inMask mask i = true) (hs : s.step mask i = some s') : CollInv mask s' := by
  unfold Coll.step at hs
  rcases members i hi with hpc | hpc
  · simp only [hpc, hi, if_true, Option.some.injEq] at hs
    subst hs
    refine .untried free masters wakes (fun j hj => ?_) (fun j hj => ?_)
    · by_cases hji : j = i
      · subst hji; simp [Coll.goto]
      · simpa [Coll.goto, hji] using members j hj
    · simpa [Coll.goto, ne_of_mask hi hj] using outside j hj
  · simp only [hpc, free, if_true, Option.some.injEq] at hs
    subst hs
    refine .won i hi ?_ (fun j hj hji => ?_) (fun j hj => ?_)
    · simp [Coll.Leads, Coll.goto, masters, wakes]
    · simp only [Coll.goto, Function.update_self, Function.update_of_ne hji]
      rcases members j hj with h | h <;> simp [h, CollPc.Loses]
    · simpa [Coll.goto, ne_of_mask hi hj, CollPc.wakeAt] using outside j hj

/-- What the winner's pc says about the two variables that the others read. -/
theorem Coll.Leads.reads (h : s.Leads mask w) :
    (s.pc w ≠ .done → s.free = false) ∧ (s.pc w ≠ .setMaster → s.master = BitVec.ofNat 32 w) := by
  unfold Coll.Leads at h
  cases hpc : s.pc w <;> simp only [hpc] at h <;> simp [h]

/-- A member that comes late finds the mutex taken, and then another's id in `coll_master`. -/
theorem CollInv.loses (hn : n ≤ 2 ^ 32) (member : inMask mask w = true) (leads : s.Leads mask w)
    (members : ∀ j : Fin n, inMask mask j = true → j ≠ w → (s.pc j).Loses (s.pc w))
    (outside : ∀ j : Fin n, inMask mask j = false → (s.pc j).Sleeps (s.flags j) ((s.pc w).wakeAt j))
    (hi : inMask mask i = true) (hiw : i ≠ w) (hc : inTurn s i = true) (hs : s.step mask i = some s') :
    CollInv mask s' := by
  suffices h : ∃ q, s' = s.goto i q ∧ q.Loses (s.pc w) by
    obtain ⟨q, rfl, hq⟩ := h
    have hw : (Function.update s.pc i q) w = s.pc w := Function.update_of_ne (Ne.symm hiw) _ _
    refine .won w member (leads.congr hw rfl rfl rfl rfl rfl) (fun j hj hjw => ?_) (fun j hj => ?_)
    · simp only [Coll.goto, hw]
      by_cases hji : j = i
      · subst hji; rwa [Function.update_self]
      · rw [Function.update_of_ne hji]; exact members j hj hjw
    · simp only [Coll.goto, hw, Function.update_of_ne (ne_of_mask hi hj)]
      exact outside j hj
  obtain ⟨hfree, hmaster⟩ := leads.reads
  have hl := members i hi hiw
  unfold Coll.step at hs
  unfold inTurn at hc
  cases hpc : s.pc i with
  | call =>
    rw [hpc] at hl
    simp only [hpc, hi, if_true, Option.some.injEq] at hs
    exact ⟨_, hs.symm, hl⟩
  | trylock =>
    rw [hpc] at hl
    simp only [hpc, hfree hl, Option.some.injEq] at hs
    exact ⟨_, hs.symm, trivial⟩
  | test =>
    have hm : s.master ≠ BitVec.ofNat 32 i := by
      intro heq
      simp only [hpc, heq, decide_eq_true_eq, forall_true_left] at hc
      exact hiw (ofNat_fin_inj hn (heq.symm.trans (hmaster (hc w))))
    simp only [hpc, if_neg hm, Option.some.injEq] at hs
    exact ⟨_, hs.symm, trivial⟩
  | done => simp only [hpc] at hs; cases hs
  | _ => rw [hpc] at hl; exact hl.elim

/-! ### The master -/

theorem Coll.Woken.zero (h : s.wakes = []) : s.Woken mask 0 := by
  simp [Coll.Woken, h]

theorem Coll.Woken.skip {u : Nat} (h : s.Woken mask u) (hu : ∀ j : Fin n, j.val = u → inMask mask j = true) :
    s.Woken mask (u + 1) := by
  refine ⟨h.1, fun j => ?_⟩
  rw [h.2 j]
  refine and_congr_right (fun hj => ⟨fun hlt => by omega, fun hlt => ?_⟩)
  by_contra hge
  rw [hu j (by omega)] at hj
  cases hj

theorem Coll.Woken.snoc {u : Fin n} (h : s.Woken mask u) (hu : inMask mask u = false) (hw : s'.wakes = s.wakes ++ [u]) :
    s'.Woken mask (u + 1) := by
  have hnot : u ∉ s.wakes := fun hmem => Nat.lt_irrefl _ ((h.2 u).1 hmem).2
  refine ⟨?_, fun j => ?_⟩
  · rw [hw, List.nodup_append]
    refine ⟨h.1, List.nodup_singleton u, fun a ha b hb => ?_⟩
    rw [List.mem_singleton.1 hb]
    rintro rfl
    exact hnot ha
  · rw [hw, List.mem_append, List.mem_singleton, h.2 j]
    constructor
    · rintro (⟨h1, h2⟩ | rfl)
      · exact ⟨h1, by omega⟩
      · exact ⟨hu, Nat.lt_succ_self _⟩
    · rintro ⟨h1, h2⟩
      by_cases hj : j = u
      · exact .inr hj
      · exact .inl ⟨h1, by have := Fin.val_ne_of_ne hj; omega⟩

theorem Coll.Woken.all {u : Nat} (h : s.Woken mask u) (hu : ¬u < n) : s.Woken mask n := by
  refine ⟨h.1, fun j => ?_⟩
  rw [h.2 j]
  exact and_congr_right (fun _ => ⟨fun _ => j.isLt, fun _ => by omega⟩)

/-- The master's step, by its effect on itself and on the CPUs it wakes. -/
theorem CollInv.leadStep {q : CollPc n} (member : inMask mask w = true) (hq : q ≠ .done ∨
      ∀ j, s.pc j ≠ .call ∧ s.pc j ≠ .trylock) (hpc : s'.pc = Function.update s.pc w q) (leads : s'.Leads mask w)
    (members : ∀ j : Fin n, inMask mask j = true → j ≠ w → (s.pc j).Loses (s.pc w))
    (outside : ∀ j : Fin n, inMask mask j = false → (s.pc j).Sleeps (s'.flags j) (q.wakeAt j)) : CollInv mask s' := by
  have hw : s'.pc w = q := by rw [hpc, Function.update_self]
  refine .won w member leads (fun j hj hjw => ?_) (fun j hj => ?_)
  · have hl := members j hj hjw
    rw [hw, hpc, Function.update_of_ne hjw]
    cases hj' : s.pc j with
    | call => exact hq.elim id (fun h => absurd hj' (h j).1)
    | trylock => exact hq.elim id (fun h => absurd hj' (h j).2)
    | _ => rw [hj'] at hl; exact hl
  · rw [hw, hpc, Function.update_of_ne (ne_of_mask member hj)]
    exact outside j hj

/-- The loop of `collective_end`. -/
theorem CollInv.leadNext {u : Nat} (hpc : s.pc w = .next u) (member : inMask mask w = true) (leads : s.Leads mask w)
    (members : ∀ j : Fin n, inMask mask j = true → j ≠ w → (s.pc j).Loses (s.pc w))
    (outside : ∀ j : Fin n, inMask mask j = false → (s.pc j).Sleeps (s.flags j) ((s.pc w).wakeAt j))
    (hs : s.step mask w = some s') : CollInv mask s' := by
  unfold Coll.step at hs
  simp only [Coll.Leads, hpc] at hs leads outside
  obtain ⟨hfree, hmaster, hmask, hmasters, hwoken⟩ := leads
  rw [hmask] at hs
  by_cases hu : u < n
  · rw [dif_pos hu] at hs
    cases hin : inMask mask u with
    | true =>
      -- CPU `u` is a member
      rw [hin, if_pos rfl] at hs
      cases hs
      refine CollInv.leadStep member (.inl (by simp)) rfl ?_ members (fun j hj => ?_)
      · simp only [Coll.Leads, Coll.goto, Function.update_self]
        exact ⟨hfree, hmaster, hmask, hmasters, hwoken.skip (fun j hj => by rw [hj]; exact hin)⟩
      · have hju : j.val ≠ u := by
          intro he
          rw [he, hin] at hj
          cases hj
        have hiff : j.val < u + 1 ↔ j.val < u := by omega
        simpa only [CollPc.wakeAt, Coll.goto, hiff] using outside j hj
    | false =>
      rw [hin, if_neg Bool.false_ne_true] at hs
      cases hs
      have hwoken' : Coll.Woken mask { s with wakes := s.wakes ++ [⟨u, hu⟩] } (u + 1) :=
        Coll.Woken.snoc (u := ⟨u, hu⟩) hwoken hin rfl
      refine CollInv.leadStep member (.inl (by simp)) rfl ?_ members (fun j hj => ?_)
      · simp only [Coll.Leads, Coll.goto, Function.update_self]
        exact ⟨hfree, hmaster, hmask, hmasters, hwoken', hin⟩
      · have ho := outside j hj
        simp only [CollPc.wakeAt, Coll.goto] at ho ⊢
        by_cases hlt : j.val < u
        · simpa only [if_pos hlt] using ho
        · rw [if_neg hlt] at ho ⊢
          by_cases he : j = ⟨u, hu⟩
          · rw [if_pos he]
            exact ho.mono (fun _ h => h.wakes)
          · rwa [if_neg he]
  · -- all have been woken
    rw [dif_neg hu] at hs
    cases hs
    refine CollInv.leadStep member (.inl (by simp)) rfl ?_ members (fun j hj => ?_)
    · simp only [Coll.Leads, Coll.goto, Function.update_self]
      exact ⟨hfree, hmaster, hmasters, hwoken.all hu⟩
    · have ho := outside j hj
      simp only [CollPc.wakeAt, Coll.goto] at ho ⊢
      rwa [if_pos (by omega)] at ho

/-- The pc behind an access of `smp_wakeup(u)`. -/
def CollPc.wakes (u : Fin n) : Option WakePc → CollPc n
  | some p => .wake u p
  | none   => .next (u + 1)

theorem CollPc.wakes_at (u : Fin n) (r : Option WakePc) : (CollPc.wakes u r).wakeAt u = .next r := by
  cases r <;> simp [CollPc.wakes, CollPc.wakeAt]

theorem CollPc.wakes_other {u j : Fin n} (hj : j ≠ u) (p : WakePc) (r : Option WakePc) :
    (CollPc.wakes u r).wakeAt j = (CollPc.wake u p).wakeAt j := by
  have hne := Fin.val_ne_of_ne hj
  have hiff : j.val < u.val + 1 ↔ j.val < u.val := by omega
  cases r with
  | some p' => simp only [CollPc.wakes, CollPc.wakeAt, if_neg hj]
  | none => simp only [CollPc.wakes, CollPc.wakeAt, if_neg hj, hiff]

theorem Coll.step_wake {u : Fin n} {p : WakePc} (hpc : s.pc w = .wake u p) : s.step mask w =
    some { s.goto w (CollPc.wakes u (p.step (s.flags u)).2) with
      flags := Function.update s.flags u (p.step (s.flags u)).1 } := by
  unfold Coll.step
  simp only [hpc]
  cases (p.step (s.flags u)).2 <;> rfl

/-- An access of `smp_wakeup`. -/
theorem CollInv.leadWake {u : Fin n} {p : WakePc} (hpc : s.pc w = .wake u p) (member : inMask mask w = true)
    (leads : s.Leads mask w) (members : ∀ j : Fin n, inMask mask j = true → j ≠ w → (s.pc j).Loses (s.pc w))
    (outside : ∀ j : Fin n, inMask mask j = false → (s.pc j).Sleeps (s.flags j) ((s.pc w).wakeAt j))
    (hs : s.step mask w = some s') : CollInv mask s' := by
  rw [Coll.step_wake hpc, Option.some.injEq] at hs
  simp only [Coll.Leads, hpc] at leads outside
  obtain ⟨hfree, hmaster, hmask, hmasters, hwoken, hu⟩ := leads
  subst hs
  refine CollInv.leadStep member (.inl ?_) rfl ?_ members (fun j hj => ?_)
  · cases (p.step (s.flags u)).2 <;> simp [CollPc.wakes]
  · simp only [Coll.Leads, Coll.goto, Function.update_self]
    cases (p.step (s.flags u)).2 with
    | some p' => exact ⟨hfree, hmaster, hmask, hmasters, hwoken, hu⟩
    | none => exact ⟨hfree, hmaster, hmask, hmasters, hwoken⟩
  · have ho := outside j hj
    by_cases hju : j = u
    · subst hju
      simp only [CollPc.wakes_at, Function.update_self]
      simp only [CollPc.wakeAt, Nat.lt_irrefl, if_false, if_true] at ho
      exact ho.mono (fun t ht => ht.wake)
    · simp only [Function.update_of_ne hju, CollPc.wakes_other hju p]
      exact ho

theorem CollInv.leads (member : inMask mask w = true) (leads : s.Leads mask w)
    (members : ∀ j : Fin n, inMask mask j = true → j ≠ w → (s.pc j).Loses (s.pc w))
    (outside : ∀ j : Fin n, inMask mask j = false → (s.pc j).Sleeps (s.flags j) ((s.pc w).wakeAt j))
    (hc : inTurn s w = true) (hs : s.step mask w = some s') : CollInv mask s' := by
  cases hpc : s.pc w with
  | next u => exact CollInv.leadNext hpc member leads members outside hs
  | wake u p => exact CollInv.leadWake hpc member leads members outside hs
  | setMaster =>
    simp only [Coll.step, Coll.Leads, hpc, Option.some.injEq] at hs leads outside
    subst hs
    exact CollInv.leadStep member (.inl (by simp)) rfl (by simp [Coll.Leads, Coll.goto, leads]) members outside
  | setMask =>
    simp only [Coll.step, Coll.Leads, hpc, Option.some.injEq] at hs leads outside
    subst hs
    exact CollInv.leadStep member (.inl (by simp)) rfl (by simp [Coll.Leads, Coll.goto, leads]) members outside
  | test =>
    simp only [Coll.step, Coll.Leads, hpc, Option.some.injEq] at hs leads outside
    obtain ⟨hfree, hmaster, hmask, hmasters, hwakes⟩ := leads
    rw [if_pos hmaster] at hs
    subst hs
    refine CollInv.leadStep member (.inl (by simp)) rfl ?_ members (fun j hj => ?_)
    · simp only [Coll.Leads, Coll.goto, Function.update_self]
      exact ⟨hfree, hmaster, hmask, by rw [hmasters]; rfl, Coll.Woken.zero hwakes⟩
    · simpa [CollPc.wakeAt, Coll.goto] using outside j hj
  | unlock =>
    simp only [Coll.step, Coll.Leads, hpc, Option.some.injEq] at hs leads outside
    simp only [inTurn, hpc, decide_eq_true_eq] at hc
    subst hs
    refine CollInv.leadStep member (.inr hc) rfl ?_ members (fun j hj => outside j hj)
    simp only [Coll.Leads, Coll.goto, Function.update_self]
    exact ⟨trivial, leads.2⟩
  | done => simp only [Coll.step, hpc] at hs; cases hs
  | _ => simp only [Coll.Leads, hpc] at leads

/-- **Every step in turn keeps the invariant.** -/
theorem CollInv.step (hn : n ≤ 2 ^ 32) (h : CollInv mask s) (hc : inTurn s i = true) (hs : s.step mask i = some s') :
    CollInv mask s' := by
  cases hi : inMask mask i with
  | false => exact h.stepOutside hi hs
  | true =>
    cases h with
    | untried free masters wakes members outside => exact CollInv.tries free masters wakes members outside hi hs
    | won w member leads members outside =>
      by_cases hiw : i = w
      · subst hiw; exact CollInv.leads member leads members outside hc hs
      · exact CollInv.loses hn member leads members outside hi hiw hc hs

/-! ## The end of the region -/

theorem Coll.Leads.logs (h : s.Leads mask w) : (s.masters = [] ∧ s.wakes = []) ∨ (s.masters = [w] ∧ ∃ u, s.Woken mask u) := by
  unfold Coll.Leads at h
  cases hpc : s.pc w <;> simp only [hpc] at h
  · exact .inl h.2
  · exact .inl h.2.2
  · exact .inl h.2.2.2
  · exact .inr ⟨h.2.2.2.1, _, h.2.2.2.2⟩
  · exact .inr ⟨h.2.2.2.1, _, h.2.2.2.2.1⟩
  · exact .inr ⟨h.2.2.1, _, h.2.2.2⟩
  · exact .inr ⟨h.2.2.1, _, h.2.2.2⟩

/-- Only the winner wakes others. -/
theorem CollInv.waker {u : Fin n} {p : WakePc} (h : CollInv mask s) (hi : s.pc i = .wake u p) :
    inMask mask u = false ∧ (s.pc u).Sleeps (s.flags u) (.inside p) := by
  cases h with
  | untried free masters wakes members outside =>
    cases hm : inMask mask i with
    | true => rcases members i hm with h | h <;> rw [hi] at h <;> cases h
    | false =>
      have ho := outside i hm
      rw [hi] at ho
      exact ho.elim
  | won w member leads members outside =>
    cases hm : inMask mask i with
    | false =>
      have ho := outside i hm
      rw [hi] at ho
      exact ho.elim
    | true =>
      by_cases hiw : i = w
      · subst hiw
        simp only [Coll.Leads, hi] at leads
        have hu := leads.2.2.2.2.2
        have ho := outside u hu
        simp only [hi, CollPc.wakeAt, Nat.lt_irrefl, if_false, if_true] at ho
        exact ⟨hu, ho⟩
      · have hl := members i hm hiw
        rw [hi] at hl
        exact hl.elim

theorem CollInv.safe (h : CollInv mask s) (hmask : ∃ i : Fin n, inMask mask i = true) : CollSafe mask s := by
  have hhalted : ∀ i u p, s.pc i = .wake u p → p ≠ .poll → s.pc u ≠ .done := by
    intro i u p hi hp hu
    obtain ⟨-, ho⟩ := h.waker hi
    rw [hu] at ho
    exact Paired.halted ho (.inr rfl) hp
  cases h with
  | untried free masters wakes members outside =>
    refine ⟨by simp [masters], by simp [wakes], hhalted, fun hend => ?_⟩
    obtain ⟨i, hi⟩ := hmask
    rcases members i hi with h | h <;> rw [hend i] at h <;> cases h
  | won w member leads members outside =>
    refine ⟨?_, ?_, hhalted, fun hend => ?_⟩
    · rcases leads.logs with ⟨h, -⟩ | ⟨h, -⟩ <;> simp [h, member]
    · rcases leads.logs with ⟨-, h⟩ | ⟨h, u, hu⟩
      · simp [h]
      · exact ⟨hu.1, fun j hj => ((hu.2 j).1 hj).1, fun _ => by simp [h]⟩
    · simp only [Coll.Leads, hend w] at leads
      obtain ⟨hfree, -, hmasters, hwoken⟩ := leads
      exact ⟨by rw [hmasters]; rfl, fun u hu => (hwoken.2 u).2 ⟨hu, u.isLt⟩, hfree⟩

/-- How many steps a CPU has left at most, if it does not wait. -/
def CollPc.left : CollPc n → Nat
  | .call      => 6 * n + 8
  | .trylock   => 6 * n + 6
  | .setMaster => 6 * n + 5
  | .setMask   => 6 * n + 4
  | .test      => 6 * n + 3
  | .next u    => 6 * (n - u) + 2
  | .wake u p  => 6 * (n - (u + 1)) + 2 + p.left
  | .unlock    => 1
  | .halt p    => p.left
  | .done      => 0

def Coll.left (s : Coll n) : Nat := ∑ i, (s.pc i).left

/-- The next access is not one of a waiting loop that goes round again. -/
def Coll.Moves (s : Coll n) (i : Fin n) : Prop :=
  match s.pc i with
  | .wake u p => (p.step (s.flags u)).2.elim 0 WakePc.left < p.left
  | .halt p   => (p.step (s.flags i)).2.elim 0 HaltPc.left < p.left
  | .done     => False
  | _         => True

theorem Coll.left_lt {q : CollPc n} (hpc : s'.pc = Function.update s.pc i q) (hq : q.left < (s.pc i).left) :
    s'.left < s.left := by
  unfold Coll.left
  rw [hpc]
  apply sum_lt_at i
  · rwa [Function.update_self]
  · intro j hji
    rw [Function.update_of_ne hji]

theorem Coll.Moves.step (h : s.Moves i) : ∃ t, s.step mask i = some t ∧ t.left < s.left := by
  unfold Coll.Moves at h
  cases hpc : s.pc i with
  | wake u p =>
    rw [hpc] at h
    refine ⟨_, Coll.step_wake hpc, left_lt rfl ?_⟩
    rw [hpc]
    simp only at h
    cases hr : (p.step (s.flags u)).2 with
    | some p' => rw [hr] at h; simpa [CollPc.wakes, CollPc.left] using h
    | none => rw [hr] at h; simpa [CollPc.wakes, CollPc.left] using h
  | halt p =>
    rw [hpc] at h
    unfold Coll.step
    simp only [hpc] at h ⊢
    refine ⟨_, rfl, left_lt rfl ?_⟩
    rw [hpc]
    cases hr : (p.step (s.flags i)).2 with
    | some p' => rw [hr] at h; exact h
    | none => rw [hr] at h; exact h
  | done => rw [hpc] at h; exact h.elim
  | call =>
    unfold Coll.step
    simp only [hpc]
    refine ⟨_, rfl, left_lt rfl ?_⟩
    rw [hpc]
    split <;> simp [CollPc.left, HaltPc.left]
  | trylock =>
    unfold Coll.step
    simp only [hpc]
    split
    · exact ⟨_, rfl, left_lt rfl (by simp [hpc, CollPc.left])⟩
    · exact ⟨_, rfl, left_lt rfl (by simp [hpc, CollPc.left])⟩
  | test =>
    unfold Coll.step
    simp only [hpc]
    split
    · exact ⟨_, rfl, left_lt rfl (by simp [hpc, CollPc.left])⟩
    · exact ⟨_, rfl, left_lt rfl (by simp [hpc, CollPc.left])⟩
  | next u =>
    unfold Coll.step
    simp only [hpc]
    split
    · split
      · exact ⟨_, rfl, left_lt rfl (by simp only [hpc, CollPc.left]; omega)⟩
      · exact ⟨_, rfl, left_lt rfl (by simp only [hpc, CollPc.left, WakePc.left]; omega)⟩
    · exact ⟨_, rfl, left_lt rfl (by simp [hpc, CollPc.left])⟩
  | setMaster => exact ⟨_, by unfold Coll.step; rw [hpc], left_lt rfl (by simp [hpc, CollPc.left])⟩
  | setMask => exact ⟨_, by unfold Coll.step; rw [hpc], left_lt rfl (by simp [hpc, CollPc.left])⟩
  | unlock => exact ⟨_, by unfold Coll.step; rw [hpc], left_lt rfl (by simp [hpc, CollPc.left])⟩

/-- When all members are behind the test, the master goes on, or the CPU that it wakes does. -/
theorem CollInv.leadMoves (leads : s.Leads mask w)
    (members : ∀ j : Fin n, inMask mask j = true → j ≠ w → (s.pc j).Loses (s.pc w))
    (outside : ∀ j : Fin n, inMask mask j = false → (s.pc j).Sleeps (s.flags j) ((s.pc w).wakeAt j))
    (htried : ∀ j, s.pc j ≠ .call ∧ s.pc j ≠ .trylock ∧ s.pc j ≠ .test) (hnot : ¬s.Ended) :
    ∃ i, inTurn s i = true ∧ s.Moves i := by
  cases hpc : s.pc w with
  | wake u p =>
    simp only [Coll.Leads, hpc] at leads
    have ho := outside u leads.2.2.2.2.2
    simp only [hpc, CollPc.wakeAt, Nat.lt_irrefl, if_false, if_true] at ho
    -- the target
    obtain ⟨t, ht, hpair⟩ : ∃ t, (t = .behind ∨ ∃ q, s.pc u = .halt q ∧ t = .inside q) ∧
        Paired (s.flags u) t (.inside p) := by
      cases hu : s.pc u with
      | call => exact absurd hu (htried u).1
      | halt q => rw [hu] at ho; exact ⟨_, .inr ⟨q, rfl, rfl⟩, ho⟩
      | done => rw [hu] at ho; exact ⟨_, .inl rfl, ho⟩
      | _ => rw [hu] at ho; exact ho.elim
    rcases hpair.goes with hlt | rfl | ⟨q, rfl, hlt⟩
    · exact ⟨w, by simp [inTurn, hpc], by simpa [Coll.Moves, hpc] using hlt⟩
    · rcases ht with ht | ⟨q, -, ht⟩ <;> cases ht
    · rcases ht with ht | ⟨q', hu, ht⟩ <;> cases ht
      exact ⟨u, by simp [inTurn, hu], by simpa [Coll.Moves, hu] using hlt⟩
  | unlock => exact ⟨w, by simpa [inTurn, hpc] using fun j => ⟨(htried j).1, (htried j).2.1⟩, by simp [Coll.Moves, hpc]⟩
  | done =>
    refine absurd (fun j => ?_) hnot
    by_cases hjw : j = w
    · rw [hjw, hpc]
    · obtain ⟨h1, h2, h3⟩ := htried j
      cases hj : inMask mask j with
      | true =>
        have hl := members j hj hjw
        cases hq : s.pc j <;> rw [hq] at hl h1 h2 h3 <;> first | exact hl.elim | rfl | exact absurd rfl (by assumption)
      | false =>
        have ho := outside j hj
        rw [hpc] at ho
        cases hq : s.pc j <;> rw [hq] at ho h1 <;> first
          | exact ho.elim
          | rfl
          | exact absurd rfl h1
          | cases (Paired.behind ho).2
  | test => exact absurd hpc (htried w).2.2
  | call => exact absurd hpc (htried w).1
  | trylock => exact absurd hpc (htried w).2.1
  | halt p => simp only [Coll.Leads, hpc] at leads
  | _ => exact ⟨w, by simp [inTurn, hpc], by simp [Coll.Moves, hpc]⟩

theorem CollInv.less (h : CollInv mask s) (hmask : ∃ i : Fin n, inMask mask i = true) (hnot : ¬s.Ended) :
    ∃ i, inTurn s i = true ∧ s.Moves i := by
  by_cases hc : ∃ i, s.pc i = .call ∨ s.pc i = .trylock ∨ s.pc i = .setMaster
  · obtain ⟨i, hi | hi | hi⟩ := hc <;> exact ⟨i, by simp [inTurn, hi], by simp [Coll.Moves, hi]⟩
  · simp only [not_exists, not_or] at hc
    by_cases ht : ∃ i, s.pc i = .test
    · obtain ⟨i, hi⟩ := ht
      refine ⟨i, ?_, by simp [Coll.Moves, hi]⟩
      simp only [inTurn, hi, decide_eq_true_eq]
      exact fun _ j => (hc j).2.2
    · simp only [not_exists] at ht
      cases h with
      | untried free masters wakes members outside =>
        obtain ⟨i, hi⟩ := hmask
        rcases members i hi with h | h
        · exact absurd h (hc i).1
        · exact absurd h (hc i).2.1
      | won w member leads members outside =>
        exact CollInv.leadMoves leads members outside (fun j => ⟨(hc j).1, (hc j).2.1, ht j⟩) hnot

end Inv

/-- **With all steps in turn a collective region has one master, which wakes each of the others once.** -/
theorem coll_safe (n : Nat) (hn : n ≤ 2 ^ 32) (mask : BitVec 16) (hmask : ∃ i : Fin n, inMask mask i = true)
    (master : Unsigned) (mask' : BitVec 16) {s : Coll n}
    (h : Reach (onlyIf inTurn (Coll.step mask)) (.start n master mask') s) :
    CollSafe mask s ∧ ∃ t, Reach (onlyIf inTurn (Coll.step mask)) s t ∧ t.Ended := by
  have hstep : ∀ (s : Coll n) (i : Fin n) (s' : Coll n), CollInv mask s →
      onlyIf inTurn (Coll.step mask) s i = some s' → CollInv mask s' := by
    intro s i s' hi hs
    obtain ⟨hc, hs⟩ := onlyIf_some hs
    exact hi.step hn hc hs
  have hinv := h.inv (I := CollInv mask) collInv_start hstep
  refine ⟨hinv.safe hmask, reach_goal Coll.left hstep (fun u hu hnot => ?_) s hinv⟩
  obtain ⟨i, hc, hm⟩ := hu.less hmask hnot
  obtain ⟨t, ht, hlt⟩ : ∃ t, u.step mask i = some t ∧ t.left < u.left := hm.step
  exact ⟨t, (Reach.refl u).next (a := i) (by rw [onlyIf, if_pos hc]; exact ht), hlt⟩

theorem coll_safe_three : ∃ s, exec (onlyIf inTurn (Coll.step 1)) (.start 3 1 0) [0, 1, 0, 0, 0, 0, 0] = some s ∧
    CollSafe 1 s ∧ ∃ t, Reach (onlyIf inTurn (Coll.step 1)) s t ∧ t.Ended :=
  ⟨_, rfl, coll_safe 3 (by decide) 1 ⟨0, by decide⟩ 1 0 ⟨[0, 1, 0, 0, 0, 0, 0], rfl⟩⟩

/-- CPU 1 comes to the mutex when CPU 0 has freed it, or finds its own old id before CPU 0 has stored its own. -/
theorem coll_two_masters :
    (∃ s, exec (Coll.step 3) (.start 3 0 0)
      [2, 2, 2, 0, 0, 0, 0, 0, 0, 0, 0, 0, 0, 0, 0, 2, 2, 2, 0, 0, 0, 1, 1, 1, 1, 1, 1, 1, 1] = some s ∧
      ¬CollSafe 3 s) ∧
    ∃ s, exec (Coll.step 3) (.start 3 1 0) [2, 2, 2, 0, 0, 1, 1, 1, 1] = some s ∧ ¬CollSafe 3 s :=
  ⟨⟨_, rfl, fun h => absurd h.master.1 (by decide)⟩, ⟨_, rfl, fun h => absurd (h.wakes.2.1 0) (by decide)⟩⟩

end SmpBoot
