import SmpBoot.ApicInit
/-!
# BringUp — how the CPUs are numbered when all that come up are up

An AP is known by its index in `hw_info.cpu[]`, which is its `cpu_id`, by the count of CPUs that were there before it
(`cpu_online`), and by the id its local APIC answers to.  The rest of the kernel wants the indices of the running CPUs to
be those below `cpu_online`, and the APIC ids to be those of the table.
-/
namespace SmpBoot

open Interleave

variable {cfg : ApCfg}

/-- It has its wakelock: `main()` is going to run on it. -/
def Ap.running (a : Ap) : Bool :=
  match a.pc with
  | .barrier _ | .main => true
  | _                  => false

/-- An AP comes up in time or never: none stores its increment of `cpu_online` and finds its wakelock taken. -/
def intime (s : Online cfg.cpuCnt) : Cpu cfg.cpuCnt → Bool
  | .bsp  => orderly s .bsp
  | .ap i => match (s.ap i).pc with
    | .store _ => !(s.ap i).shut
    | _        => true

theorem orderly_of_intime {s : Online cfg.cpuCnt} {a : Cpu cfg.cpuCnt} (h : intime s a = true) : orderly s a = true := by
  cases a with
  | bsp => exact h
  | ap i =>
    unfold intime at h
    unfold orderly
    cases hpc : (s.ap i).pc with
    | store v =>
      simp only [hpc] at h ⊢
      cases s.bsp <;> first | rfl | exact h
    | _ => simp only [hpc]

/-- The `cpu_id`s of the running CPUs. -/
def Online.Runs {n : Nat} (s : Online n) (k : Nat) : Prop := k = 0 ∨ ∃ i : Fin n, i.val = k ∧ (s.ap i).running = true

/-- The numbers below `cpu_online` are those of the running CPUs. -/
def NumbersOk {n : Nat} (s : Online n) : Prop := ∀ k, s.Runs k ↔ k < s.online.toNat

/-- AP `i` was to be started, and `apic_init` has not shut it out. -/
def Online.up (s : Online cfg.cpuCnt) (i : Fin cfg.cpuCnt) : Bool :=
  decide (1 ≤ i.val) && cfg.selected i && !(s.ap i).shut

/-! ## The indices -/

section Numbers
variable {s s' : Online cfg.cpuCnt}

/-- The APs that have been started. -/
def Online.Started (s : Online cfg.cpuCnt) : Prop :=
  (∀ u, s.bsp = .next u → 1 ≤ u) ∧ (∀ u, s.bsp = .trylock u → 1 ≤ u.val ∧ cfg.selected u = true) ∧
  ∀ i, (s.ap i).pc = .off ↔ ¬(1 ≤ i.val ∧ cfg.selected i = true ∧ (s.bsp.passed i = true ∨ s.bsp.trying i = true))

theorem started_start (cfg : ApCfg) : (Online.start cfg).Started := by
  refine ⟨fun u hu => ?_, fun u hu => (by cases hu), fun i => ?_⟩
  · cases hu
    exact Nat.le_refl 1
  · have : ¬(1 ≤ i.val ∧ i.val < 1) := by omega
    simp only [Online.start, BspPc.passed, BspPc.trying, decide_eq_true_eq, true_iff]
    rintro ⟨h1, -, h2 | h2⟩
    · exact this ⟨h1, h2⟩
    · cases h2

/-- A step of an AP that is not off, to where it is not off either. -/
theorem Online.Started.ap (h : s.Started) {i : Fin cfg.cpuCnt} {a : Ap} (hoff : (s.ap i).pc ≠ .off) (ha : a.pc ≠ .off)
    (hap : s'.ap = Function.update s.ap i a) (hbsp : s'.bsp = s.bsp) : s'.Started := by
  refine ⟨by rw [hbsp]; exact h.1, by rw [hbsp]; exact h.2.1, fun j => ?_⟩
  rw [hbsp, hap]
  by_cases hj : j = i
  · subst hj
    rw [Function.update_self, ← h.2.2 j]
    exact iff_of_false ha hoff
  · rw [Function.update_of_ne hj]
    exact h.2.2 j

theorem started_ap {i : Fin cfg.cpuCnt} (h : s.Started) (hs : s.stepAp i = some s') : s'.Started := by
  unfold Online.stepAp at hs
  cases hpc : (s.ap i).pc with
  | off => simp only [hpc] at hs; cases hs
  | main => simp only [hpc] at hs; cases hs
  | lock =>
    simp only [hpc] at hs
    split at hs
    · cases hs
      exact h.ap (by simp [hpc]) (by simp) rfl rfl
    · cases hs
      exact h
  | barrier p =>
    cases hr : (p.step s.bar).2 with
    | none =>
      simp only [hpc, hr] at hs
      cases hs
      exact h.ap (by simp [hpc]) (by simp) rfl rfl
    | some p' =>
      simp only [hpc, hr] at hs
      cases hs
      exact h.ap (by simp [hpc]) (by simp) rfl rfl
  | _ =>
    simp only [hpc] at hs
    cases hs
    exact h.ap (by simp [hpc]) (by simp) rfl rfl

/-- `apic_init` is behind its loop. -/
def BspPc.past {n : Nat} : BspPc n → Bool
  | .next _ | .trylock _ => false
  | _                    => true

theorem BspPc.past_passed {n : Nat} {b : BspPc n} (h : b.past = true) (i : Fin n) : b.passed i = true := by
  cases b <;> first | rfl | cases h

/-- The head of the loop: an AP that is selected is started, one that is not stays off. -/
theorem Online.Started.next (h : s.Started) {u : Nat} (hb : s.bsp = .next u) (hs : s.stepBsp cfg = some s') :
    s'.Started := by
  obtain ⟨h1, -, h3⟩ := h
  have hu1 := h1 u hb
  unfold Online.stepBsp at hs
  simp only [hb] at hs h3
  split at hs
  · rename_i hu
    split at hs
    · rename_i hsel
      cases hs
      refine ⟨fun v hv => (by cases hv), fun v hv => ?_, fun i => ?_⟩
      · cases hv
        exact ⟨hu1, hsel⟩
      · simp only [Online.setAp, BspPc.passed, BspPc.trying]
        by_cases hi : i = ⟨u, hu⟩
        · subst hi
          simp [hu1, hsel]
        · rw [Function.update_of_ne hi, h3 i]
          simp [BspPc.passed, BspPc.trying, Ne.symm hi]
    · rename_i hsel
      cases hs
      refine ⟨fun v hv => ?_, fun v hv => (by cases hv), fun i => ?_⟩
      · cases hv
        omega
      · rw [h3 i]
        simp only [BspPc.passed, BspPc.trying, decide_eq_true_eq]
        by_cases hi : i.val = u
        · simp [hi, hsel]
        · have : i.val < u + 1 ↔ i.val < u := by omega
          rw [this]
  · rename_i hu
    cases hs
    refine ⟨fun v hv => (by cases hv), fun v hv => (by cases hv), fun i => ?_⟩
    have : i.val < u := by omega
    rw [h3 i]
    simp [BspPc.passed, BspPc.trying, this]

/-- Whether the lock of an AP is got or not, the loop goes on to the next. -/
theorem Online.Started.trylock (h : s.Started) {u : Fin cfg.cpuCnt} (hb : s.bsp = .trylock u)
    (hs : s.stepBsp cfg = some s') : s'.Started := by
  obtain ⟨-, h2, h3⟩ := h
  obtain ⟨hu1, hsel⟩ := h2 u hb
  unfold Online.stepBsp at hs
  simp only [hb] at hs h3
  have hnext : ∀ i : Fin cfg.cpuCnt, (s.ap i).pc = .off ↔ ¬(1 ≤ i.val ∧ cfg.selected i = true ∧
      ((BspPc.next (n := cfg.cpuCnt) (u.val + 1)).passed i = true ∨
        (BspPc.next (n := cfg.cpuCnt) (u.val + 1)).trying i = true)) := by
    intro i
    rw [h3 i]
    simp only [BspPc.passed, BspPc.trying, decide_eq_true_eq]
    have : (i.val < u.val ∨ u = i) ↔ i.val < u.val + 1 := by
      rw [Fin.ext_iff]
      omega
    simp only [this, Bool.false_eq_true, or_false]
  split at hs
  · cases hs
    refine ⟨fun v hv => (by cases hv; omega), fun v hv => (by cases hv), fun i => ?_⟩
    rw [← hnext i]
    simp only [Online.setAp]
    by_cases hi : i = u
    · subst hi; rw [Function.update_self]
    · rw [Function.update_of_ne hi]
  · cases hs
    exact ⟨fun v hv => (by cases hv; omega), fun v hv => (by cases hv), hnext⟩

theorem started_bsp (h : s.Started) (hs : s.stepBsp cfg = some s') : s'.Started := by
  have hpast : s.bsp.past = true → s'.ap = s.ap → s'.bsp.past = true → s'.Started := by
    intro hp hap hp'
    refine ⟨fun v hv => (by rw [hv] at hp'; cases hp'), fun v hv => (by rw [hv] at hp'; cases hp'), fun i => ?_⟩
    rw [hap, h.2.2 i, BspPc.past_passed hp, BspPc.past_passed hp']
    simp
  cases hb : s.bsp with
  | next u => exact h.next hb hs
  | trylock u => exact h.trylock hb hs
  | barrier => unfold Online.stepBsp at hs; simp only [hb] at hs; cases hs
  | wait =>
    unfold Online.stepBsp at hs
    simp only [hb] at hs
    cases hs
    refine hpast (by rw [hb]; rfl) rfl ?_
    simp only
    split <;> rfl
  | _ =>
    unfold Online.stepBsp at hs
    simp only [hb] at hs
    cases hs
    exact hpast (by rw [hb]; rfl) rfl rfl

theorem BspPc.past_of_stored {n : Nat} {b : BspPc n} (h : b.stored = true) : b.past = true := by
  cases b <;> first | rfl | cases h

/-- Behind the store of `max`, the APs with their wakelocks are those not shut out. -/
theorem Ap.Ok.runs {a : Ap} {o : Unsigned} {bar : Barrier} (h : a.Ok true false true o bar) :
    a.running = a.counted ∧ (a.pc ≠ .off → a.running = !a.shut) ∧ (∀ v, a.pc = .store v → a.shut = true) ∧
      (a.pc = .lock → a.free = false) := by
  unfold Ap.Ok Ap.Outside at h
  unfold Ap.running Ap.counted
  cases hpc : a.pc <;> simp [hpc] at h ⊢ <;> simp [h]

/-- `cpu_online` is the number of the running CPUs. -/
def Online.Settled (s : Online cfg.cpuCnt) : Prop := s.bsp.stored = true → s.online.toNat = 1 + count Ap.running s.ap

theorem OnlineInv.okStored (h : OnlineInv s) (hb : s.bsp.stored = true) (i : Fin cfg.cpuCnt) :
    (s.ap i).Ok true false true s.online s.bar := by
  have hok := h.each i
  unfold Online.ApOk at hok
  rwa [BspPc.past_passed (BspPc.past_of_stored hb), BspPc.not_trying hb, hb] at hok

theorem settled_bsp (hi : OnlineInv s) (hi' : OnlineInv s') (h : s.Settled) (hs : s.stepBsp cfg = some s') :
    s'.Settled := by
  intro hb'
  cases hb : s.bsp with
  | storeMax v =>
    have hcs := hi.counts
    simp only [Online.Counts, hb] at hcs
    simp only [Online.stepBsp, hb, Option.some.injEq] at hs
    rw [count_congr (fun i => (hi'.okStored hb' i).runs.1), Nat.add_comm]
    subst hs
    exact hcs.1
  | wait =>
    simp only [Online.stepBsp, hb, Option.some.injEq] at hs
    subst hs
    exact h (by rw [hb]; rfl)
  | barrier => simp only [Online.stepBsp, hb] at hs; cases hs
  | next u =>
    simp only [Online.stepBsp, hb] at hs
    split at hs
    · split at hs <;> cases hs <;> cases hb'
    · cases hs; cases hb'
  | trylock u =>
    simp only [Online.stepBsp, hb] at hs
    split at hs <;> cases hs <;> cases hb'
  | _ =>
    simp only [Online.stepBsp, hb, Option.some.injEq] at hs
    subst hs
    cases hb'

theorem settled_ap {i : Fin cfg.cpuCnt} (hi : OnlineInv s) (hi' : OnlineInv s') (h : s.Settled)
    (hc : intime s (.ap i) = true) (hs : s.stepAp i = some s') : s'.Settled := by
  -- nobody begins or ceases to run
  have hsame : ∀ {a : Ap}, s'.ap = Function.update s.ap i a → s'.bsp = s.bsp → s'.online = s.online →
      a.running = (s.ap i).running → s'.Settled := by
    intro a hap hbsp ho hr hb
    rw [ho, hap, count_update_same hr]
    exact h (by rw [← hbsp, hb])
  unfold Online.stepAp at hs
  cases hpc : (s.ap i).pc with
  | off => simp only [hpc] at hs; cases hs
  | main => simp only [hpc] at hs; cases hs
  | sent =>
    simp only [hpc] at hs
    cases hs
    exact hsame rfl rfl rfl (by simp [Ap.running, hpc])
  | load =>
    simp only [hpc] at hs
    cases hs
    exact hsame rfl rfl rfl (by simp [Ap.running, hpc])
  | store v =>
    simp only [hpc] at hs
    cases hs
    intro hb
    simp only [intime, hpc] at hc
    rw [(hi.okStored hb i).runs.2.2.1 v hpc] at hc
    cases hc
  | lock =>
    simp only [hpc] at hs
    split at hs
    · rename_i hfree
      cases hs
      intro hb
      rw [(hi.okStored hb i).runs.2.2.2 hpc] at hfree
      cases hfree
    · cases hs
      exact h
  | barrier p =>
    cases hr : (p.step s.bar).2 with
    | none =>
      simp only [hpc, hr] at hs
      cases hs
      exact hsame rfl rfl rfl (by simp [Ap.running, hpc])
    | some p' =>
      simp only [hpc, hr] at hs
      cases hs
      exact hsame rfl rfl rfl (by simp [Ap.running, hpc])

end Numbers

theorem numbers_inv (cfg : ApCfg) {s : Online cfg.cpuCnt} (h : Reach (onlyIf intime Online.step) (.start cfg) s) :
    OnlineInv s ∧ s.Started ∧ s.Settled := by
  refine h.inv (I := fun s => OnlineInv s ∧ s.Started ∧ s.Settled)
    ⟨onlineInv_start cfg, started_start cfg, fun hb => by cases hb⟩ ?_
  rintro s (_ | i) s' ⟨hi, hst, hset⟩ hs
  · obtain ⟨hc, hs⟩ := onlyIf_some hs
    have hi' := onlineInv_bsp hi (orderly_of_intime hc) hs
    exact ⟨hi', started_bsp hst hs, settled_bsp hi hi' hset hs⟩
  · obtain ⟨hc, hs⟩ := onlyIf_some hs
    have hi' := onlineInv_ap hi (orderly_of_intime hc) hs
    exact ⟨hi', started_ap hst hs, settled_ap hi hi' hset hc hs⟩

/-- **The running CPUs are those below `cpu_online` exactly if with an AP all APs below it are started and come up.** -/
theorem numbers_iff (cfg : ApCfg) {s : Online cfg.cpuCnt} (h : Reach (onlyIf intime Online.step) (.start cfg) s)
    (hb : s.bsp.stored = true) :
    NumbersOk s ↔ ∀ i j : Fin cfg.cpuCnt, 1 ≤ i.val → i < j → s.up j = true → s.up i = true := by
  obtain ⟨hi, hst, hset⟩ := numbers_inv cfg h
  have hup : ∀ i, s.up i = (s.ap i).running := by
    intro i
    have hiff := hst.2.2 i
    rw [BspPc.past_passed (BspPc.past_of_stored hb)] at hiff
    have hruns := (hi.okStored hb i).runs
    unfold Online.up
    by_cases hoff : (s.ap i).pc = .off
    · have hnot := hiff.1 hoff
      have hr : (s.ap i).running = false := by simp [Ap.running, hoff]
      rw [hr]
      by_cases h1 : 1 ≤ i.val
      · have hsel : cfg.selected i = false := by
          by_contra hsel
          exact hnot ⟨h1, by simpa using hsel, .inl rfl⟩
        simp [hsel]
      · simp [h1]
    · have hon : 1 ≤ i.val ∧ cfg.selected i = true := by
        by_contra hcon
        exact hoff (hiff.2 (fun h => hcon ⟨h.1, h.2.1⟩))
      rw [hruns.2.1 hoff]
      simp [hon]
  unfold NumbersOk Online.Runs
  rw [hset hb, count_gapless (fun i hr => ?_)]
  · simp only [hup]
  · have := hup i
    rw [hr] at this
    simp only [Online.up, Bool.and_eq_true, decide_eq_true_eq] at this
    exact this.1.1

theorem numbers_iff_two : ∃ s, exec (onlyIf intime Online.step) (.start twoCpuCfg)
    [.bsp, twoCpuAp, twoCpuAp, twoCpuAp, twoCpuAp, .bsp, .bsp, .bsp, .bsp, .bsp, .bsp] = some s ∧
    (NumbersOk s ↔ ∀ i j : Fin twoCpuCfg.cpuCnt, 1 ≤ i.val → i < j → s.up j = true → s.up i = true) :=
  ⟨_, rfl, numbers_iff twoCpuCfg ⟨[.bsp, twoCpuAp, twoCpuAp, twoCpuAp, twoCpuAp, .bsp, .bsp, .bsp, .bsp, .bsp, .bsp], rfl⟩
    rfl⟩

def skipOneCfg : ApCfg := { threeCpuCfg with cmdCpumask := 5 }

def skipOneAp : Cpu skipOneCfg.cpuCnt := .ap ⟨2, by decide⟩

/-- `cmd_cpumask` leaves out CPU 1: CPUs 0 and 2 run, and `cpu_online` is 2. -/
theorem numbers_gap : ∃ s, exec Online.step (.start skipOneCfg)
    [.bsp, .bsp, skipOneAp, skipOneAp, skipOneAp, skipOneAp, .bsp, .bsp, .bsp, .bsp, .bsp, .bsp] = some s ∧
    s.bsp = .wait ∧ ¬NumbersOk s := by
  refine ⟨_, rfl, rfl, fun h => ?_⟩
  rcases (h 1).2 (by decide) with h | ⟨i, hi, hr⟩
  · cases h
  · have hall : ∀ i : Fin skipOneCfg.cpuCnt, i.val = 1 → i = ⟨1, by decide⟩ := by decide
    rw [hall i hi] at hr
    cases hr

/-! ## The ids of the local APICs -/

/-- The id that `config_apic(id)` leaves in the local APIC. -/
def configApic (old : BitVec 8) (id : Unsigned) : BitVec 8 := if id > 0 then (id &&& 0x7F).setWidth 8 else old

inductive ConfPc where
  | todo
  | write (id : Unsigned)    -- config_apic(cpu_online) : the argument has been read
  | done
  deriving DecidableEq

/-- Between its wakelock and `barrier(&global_barrier)` an AP calls `apic_init_ap(cpu_online)`. -/
structure ApicIds (n : Nat) where
  sys   : Online n
  conf  : Fin n → ConfPc
  lapic : Fin n → BitVec 8   -- the ids the CPUs answer to

def ApicIds.step (s : ApicIds cfg.cpuCnt) : Cpu cfg.cpuCnt → Option (ApicIds cfg.cpuCnt)
  | .bsp  => (s.sys.step .bsp).map fun t => { s with sys := t }
  | .ap i =>
    match (s.sys.ap i).pc, s.conf i with
    | .barrier .start, .todo     => some { s with conf := Function.update s.conf i (.write s.sys.online) }
    | .barrier .start, .write id => some { s with
        conf := Function.update s.conf i .done, lapic := Function.update s.lapic i (configApic (s.lapic i) id) }
    | _, _                       => (s.sys.step (.ap i)).map fun t => { s with sys := t }

/-- `ids` are the entries `lapic_id` of `hw_info.cpu[]`. -/
def ApicIds.start (cfg : ApCfg) (ids : Fin cfg.cpuCnt → BitVec 8) : ApicIds cfg.cpuCnt :=
  ⟨.start cfg, fun _ => .todo, ids⟩

def ApicIds.broughtUp {n : Nat} (s : ApicIds n) : Prop :=
  s.sys.bsp = .barrier ∧ ∀ i, (s.sys.ap i).running = true → s.conf i = .done

/-- `send_ipi(u, ..)` goes to the running CPU `u`, and to it only. -/
structure IdsOk {n : Nat} (ids : Fin n → BitVec 8) (s : ApicIds n) : Prop where
  own  : ∀ i : Fin n, s.sys.Runs i → s.lapic i = ids i
  only : ∀ i j : Fin n, s.sys.Runs i → s.lapic j = ids i → j = i

/-- When an AP reads `cpu_online` for `config_apic`, it reads its own id of the table. -/
def readsOwn (ids : Fin cfg.cpuCnt → BitVec 8) (s : ApicIds cfg.cpuCnt) : Cpu cfg.cpuCnt → Bool
  | .bsp  => true
  | .ap i =>
    match (s.sys.ap i).pc, s.conf i with
    | .barrier .start, .todo => decide (configApic (ids i) s.sys.online = ids i)
    | _, _                   => true

section Ids
variable {ids : Fin cfg.cpuCnt → BitVec 8}

theorem running_ap {s s' : Online cfg.cpuCnt} {i j : Fin cfg.cpuCnt} (h : (s.ap i).running = true)
    (hs : s.stepAp j = some s') : (s'.ap i).running = true := by
  by_cases hij : i = j
  · subst hij
    unfold Ap.running at h
    unfold Online.stepAp at hs
    cases hpc : (s.ap i).pc with
    | barrier p =>
      simp only [hpc] at hs
      cases hs
      simp only [Online.setAp, Function.update_self, Ap.running]
      cases (p.step s.bar).2 <;> rfl
    | main => simp only [hpc] at hs; cases hs
    | _ => rw [hpc] at h; cases h
  · -- only AP `j` changes
    have hap : s'.ap i = s.ap i := by
      unfold Online.stepAp at hs
      cases hpc : (s.ap j).pc <;> simp only [hpc] at hs <;> try split at hs
      all_goals first
        | (cases hs; done)
        | (cases hs; simp [Online.setAp, hij])
    rw [hap]
    exact h

theorem running_bsp {s s' : Online cfg.cpuCnt} {i : Fin cfg.cpuCnt} (hst : s.Started) (h : (s.ap i).running = true)
    (hs : s.stepBsp cfg = some s') : (s'.ap i).running = true := by
  have hset : ∀ {u : Fin cfg.cpuCnt} {a : Ap}, (i = u → a.running = true) →
      (Function.update s.ap u a i).running = true := by
    intro u a ha
    by_cases hiu : i = u
    · subst hiu; rw [Function.update_self]; exact ha rfl
    · rwa [Function.update_of_ne hiu]
  unfold Online.stepBsp at hs
  cases hb : s.bsp with
  | next u =>
    simp only [hb] at hs
    split at hs
    · rename_i hu
      split at hs
      · cases hs
        refine hset (fun hiu => ?_)
        -- AP `u` is still off
        have hoff := (hst.2.2 i).2 (by rw [hb]; simp [BspPc.passed, BspPc.trying, hiu])
        simp [Ap.running, hoff] at h
      · cases hs; exact h
    · cases hs; exact h
  | trylock u =>
    simp only [hb] at hs
    split at hs
    · cases hs
      exact hset (fun hiu => by subst hiu; exact h)
    · cases hs; exact h
  | barrier => simp only [hb] at hs; cases hs
  | _ =>
    simp only [hb] at hs
    cases hs
    exact h

/-- All ids are those of the table, and are going to be. -/
structure OwnIds (ids : Fin cfg.cpuCnt → BitVec 8) (s : ApicIds cfg.cpuCnt) : Prop where
  started : s.sys.Started
  lapic   : s.lapic = ids
  write   : ∀ i id, s.conf i = .write id → configApic (ids i) id = ids i

/-- A running AP has another id, or is going to have one. -/
structure Foreign (ids : Fin cfg.cpuCnt → BitVec 8) (s : ApicIds cfg.cpuCnt) (i : Fin cfg.cpuCnt) : Prop where
  started : s.sys.Started
  running : (s.sys.ap i).running = true
  id      : (∃ id, s.conf i = .write id ∧ configApic (s.lapic i) id ≠ ids i) ∨ (s.conf i = .done ∧ s.lapic i ≠ ids i)

theorem ApicIds.step_cases {s s' : ApicIds cfg.cpuCnt} {a : Cpu cfg.cpuCnt} (hs : s.step a = some s') :
    (∃ t, s.sys.step a = some t ∧ s' = { s with sys := t }) ∨
    (∃ i, a = .ap i ∧ (s.sys.ap i).pc = .barrier .start ∧ s.conf i = .todo ∧
      s' = { s with conf := Function.update s.conf i (.write s.sys.online) }) ∨
    (∃ i id, a = .ap i ∧ (s.sys.ap i).pc = .barrier .start ∧ s.conf i = .write id ∧
      s' = { s with conf := Function.update s.conf i .done
                    lapic := Function.update s.lapic i (configApic (s.lapic i) id) }) := by
  cases a with
  | bsp =>
    obtain ⟨t, ht, rfl⟩ := Option.map_eq_some_iff.1 hs
    exact .inl ⟨t, ht, rfl⟩
  | ap i =>
    simp only [ApicIds.step] at hs
    split at hs
    · rename_i hpc hc
      cases hs
      exact .inr (.inl ⟨i, rfl, hpc, hc, rfl⟩)
    · rename_i id hpc hc
      cases hs
      exact .inr (.inr ⟨i, id, rfl, hpc, hc, rfl⟩)
    · obtain ⟨t, ht, rfl⟩ := Option.map_eq_some_iff.1 hs
      exact .inl ⟨t, ht, rfl⟩

theorem started_step {s s' : Online cfg.cpuCnt} {a : Cpu cfg.cpuCnt} (h : s.Started) (hs : s.step a = some s') :
    s'.Started := by
  cases a with
  | bsp => exact started_bsp h hs
  | ap i => exact started_ap h hs

theorem running_step {s s' : Online cfg.cpuCnt} {a : Cpu cfg.cpuCnt} {i : Fin cfg.cpuCnt} (hst : s.Started)
    (h : (s.ap i).running = true) (hs : s.step a = some s') : (s'.ap i).running = true := by
  cases a with
  | bsp => exact running_bsp hst h hs
  | ap j => exact running_ap h hs

theorem ownIds_step {s s' : ApicIds cfg.cpuCnt} {a : Cpu cfg.cpuCnt} (h : OwnIds ids s) (hc : readsOwn ids s a = true)
    (hs : s.step a = some s') : OwnIds ids s' := by
  rcases ApicIds.step_cases hs with ⟨t, ht, rfl⟩ | ⟨i, rfl, hpc, hcf, rfl⟩ | ⟨i, id, rfl, hpc, hcf, rfl⟩
  · exact ⟨started_step h.started ht, h.lapic, h.write⟩
  · refine ⟨h.started, h.lapic, fun j id hj => ?_⟩
    by_cases hji : j = i
    · subst hji
      simp only [Function.update_self] at hj
      cases hj
      simpa [readsOwn, hpc, hcf] using hc
    · simp only [Function.update_of_ne hji] at hj
      exact h.write j id hj
  · refine ⟨h.started, ?_, fun j id' hj => ?_⟩
    · show Function.update s.lapic i (configApic (s.lapic i) id) = ids
      rw [h.lapic, h.write i id hcf, Function.update_eq_self]
    · by_cases hji : j = i
      · subst hji
        simp only [Function.update_self] at hj
        cases hj
      · simp only [Function.update_of_ne hji] at hj
        exact h.write j id' hj

theorem foreign_begin {s s' : ApicIds cfg.cpuCnt} {a : Cpu cfg.cpuCnt} (h : OwnIds ids s) (hc : readsOwn ids s a = false)
    (hs : s.step a = some s') : ∃ i, Foreign ids s' i := by
  cases a with
  | bsp => cases hc
  | ap i =>
    simp only [readsOwn] at hc
    split at hc
    · rename_i hpc hcf
      simp only [ApicIds.step, hpc, hcf, Option.some.injEq] at hs
      subst hs
      refine ⟨i, h.started, by simp [Ap.running, hpc], .inl ⟨s.sys.online, by simp, ?_⟩⟩
      simpa [h.lapic] using hc
    · cases hc

theorem foreign_step {s s' : ApicIds cfg.cpuCnt} {a : Cpu cfg.cpuCnt} {i : Fin cfg.cpuCnt} (h : Foreign ids s i)
    (hs : s.step a = some s') : Foreign ids s' i := by
  rcases ApicIds.step_cases hs with ⟨t, ht, rfl⟩ | ⟨j, rfl, hpc, hcf, rfl⟩ | ⟨j, id, rfl, hpc, hcf, rfl⟩
  · exact ⟨started_step h.started ht, running_step h.started h.running ht, h.id⟩
  · have hij : i ≠ j := by
      rintro rfl
      rcases h.id with ⟨id, hid, -⟩ | ⟨hid, -⟩ <;> rw [hcf] at hid <;> cases hid
    exact ⟨h.started, h.running, by simpa [hij] using h.id⟩
  · by_cases hij : i = j
    · subst hij
      rcases h.id with ⟨id', hid, hne⟩ | ⟨hid, -⟩
      · rw [hcf] at hid
        cases hid
        exact ⟨h.started, h.running, .inr ⟨by simp, by simpa using hne⟩⟩
      · rw [hcf] at hid
        cases hid
    · exact ⟨h.started, h.running, by simpa [hij] using h.id⟩

end Ids

/-- **The APIC ids are those of the table exactly if each AP reads its own id from `cpu_online`.** -/
theorem lapic_iff (cfg : ApCfg) (ids : Fin cfg.cpuCnt → BitVec 8) (hids : Function.Injective ids)
    {as : List (Cpu cfg.cpuCnt)} {s : ApicIds cfg.cpuCnt} (h : exec ApicIds.step (.start cfg ids) as = some s)
    (hb : s.broughtUp) : IdsOk ids s ↔ exec (onlyIf (readsOwn ids) ApicIds.step) (.start cfg ids) as = some s := by
  have h₀ : OwnIds ids (.start cfg ids) := ⟨started_start cfg, rfl, fun i id hi => by cases hi⟩
  constructor
  · intro hok
    refine (exec_onlyIf_or (I := OwnIds ids) (B := fun s => ∃ i, Foreign ids s i) (fun _ _ _ => ownIds_step)
      (fun _ _ _ => foreign_begin) (fun _ _ _ ⟨i, hi⟩ hs => ⟨i, foreign_step hi hs⟩) as _ s h₀ h).resolve_right ?_
    rintro ⟨i, hi⟩
    have hdone := hb.2 i hi.running
    rcases hi.id with ⟨id, hid, -⟩ | ⟨-, hne⟩
    · rw [hdone] at hid
      cases hid
    · exact hne (hok.own i (.inr ⟨i, rfl, hi.running⟩))
  · intro hexec
    have hown : OwnIds ids s := exec_inv (I := OwnIds ids)
      (fun _ _ _ hi hs => ownIds_step hi (onlyIf_some hs).1 (onlyIf_some hs).2) as _ s h₀ hexec
    refine ⟨fun i _ => by rw [hown.lapic], fun i j _ hj => hids ?_⟩
    rw [← hj, hown.lapic]

/-- The AP comes up and goes to the barrier, then the boot CPU goes on. -/
def twoCpuRun : List (Cpu twoCpuCfg.cpuCnt) :=
  [.bsp, twoCpuAp, twoCpuAp, twoCpuAp, twoCpuAp, twoCpuAp, twoCpuAp, twoCpuAp, twoCpuAp, .bsp, .bsp, .bsp, .bsp, .bsp, .bsp,
    .bsp]

def idsInOrder (i : Fin twoCpuCfg.cpuCnt) : BitVec 8 := BitVec.ofNat 8 i

def idsWithGap (i : Fin twoCpuCfg.cpuCnt) : BitVec 8 := BitVec.ofNat 8 (2 * i)

theorem lapic_iff_two : ∃ s, exec ApicIds.step (.start twoCpuCfg idsInOrder) twoCpuRun = some s ∧
    (IdsOk idsInOrder s ↔
      exec (onlyIf (readsOwn idsInOrder) ApicIds.step) (.start twoCpuCfg idsInOrder) twoCpuRun = some s) :=
  ⟨_, rfl, lapic_iff twoCpuCfg idsInOrder (by decide) rfl ⟨rfl, by decide⟩⟩

/-- The table has the ids 0 and 2: the AP gives itself the id 1. -/
theorem lapic_gap : ∃ s, exec ApicIds.step (.start twoCpuCfg idsWithGap) twoCpuRun = some s ∧ s.broughtUp ∧
    ¬IdsOk idsWithGap s := by
  refine ⟨_, rfl, ⟨rfl, by decide⟩, fun h => ?_⟩
  have := h.own ⟨1, by decide⟩ (.inr ⟨⟨1, by decide⟩, rfl, rfl⟩)
  exact absurd this (by decide)

end SmpBoot
