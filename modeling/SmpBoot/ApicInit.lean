import SmpBoot.Sync
/-!
# ApicInit — starting the application processors (`apic.c`, `main.c`, `start_smp.inc`)

`apic_init` starts the selected APs one after the other.  Two things pass between it and them: the shared variable
`smp_apid`, from which an AP takes its index, and the wakelock of each AP, which tells whether it came up in time.  Each is
a system of its own here: `Apid` up to the read of the index, `Online` from the beginning of `main_ap` with the right index.
-/
namespace SmpBoot

open Interleave

/-- The fields of `hw_info` that say which APs are started. -/
structure ApCfg where
  cpuCnt     : Nat
  cmdMaxcpu  : Unsigned
  cmdCpumask : Unsigned
  /-- There is a stack for each CPU. -/
  cpuCnt_le  : cpuCnt ≤ maxCpu

/-- The test at the top of the loop of `apic_init`. -/
def ApCfg.selected (cfg : ApCfg) (u : Nat) : Bool :=
  !(decide (u ≥ cfg.cmdMaxcpu.toNat) || isBitClear cfg.cmdCpumask u)

inductive Cpu (n : Nat) where
  | bsp
  | ap (i : Fin n)

/-! ## The wakelocks -/

/-- The next access of `apic_init` from its loop on, and of `main_bsp` up to the call of `barrier`. -/
inductive BspPc (n : Nat) where
  | next (u : Nat)          -- for (..; u < hw_info.cpu_cnt; ..)
  | trylock (u : Fin n)     -- AP u has got its IPIs; mutex_trylock(&(stack[u].info.wakelock))
  | loadOnline              -- cpu_online++ : the load
  | storeOnline (v : Unsigned)
  | loadMax                 -- global_barrier.max = cpu_online : the load
  | storeMax (v : Unsigned)
  | wait                    -- while (global_barrier.cnt < (global_barrier.max-1))
  | barrier

inductive ApPc where
  | off                     -- got no IPI
  | sent                    -- got its IPIs; may come up any time, or never
  | load                    -- cpu_online++ : the load
  | store (v : Unsigned)
  | lock                    -- mutex_lock(&(my_cpu_info()->wakelock))
  | barrier (p : BarrierPc) -- barrier(&global_barrier)
  | main

/-- An AP, its wakelock (free or taken), and whether `apic_init` took it. -/
structure Ap where
  pc   : ApPc
  free : Bool
  shut : Bool

structure Online (n : Nat) where
  online : Unsigned         -- cpu_online
  bar    : Barrier          -- global_barrier
  bsp    : BspPc n
  ap     : Fin n → Ap

variable {cfg : ApCfg}

def Online.setAp {n : Nat} (s : Online n) (i : Fin n) (a : Ap) : Online n := { s with ap := Function.update s.ap i a }

/-- One step of `apic_init` and `main_bsp`. -/
def Online.stepBsp (cfg : ApCfg) (s : Online cfg.cpuCnt) : Option (Online cfg.cpuCnt) :=
  match s.bsp with
  | .next u =>
    if h : u < cfg.cpuCnt then
      if cfg.selected u then
        some { s.setAp ⟨u, h⟩ { s.ap ⟨u, h⟩ with pc := .sent } with bsp := .trylock ⟨u, h⟩ }
      else some { s with bsp := .next (u + 1) }
    else some { s with bsp := .loadOnline }
  | .trylock u =>
    if (s.ap u).free then
      some { s.setAp u { s.ap u with free := false, shut := true } with bsp := .next (u + 1) }
    else some { s with bsp := .next (u + 1) }
  | .loadOnline    => some { s with bsp := .storeOnline s.online }
  | .storeOnline v => some { s with online := v + 1, bsp := .loadMax }
  | .loadMax       => some { s with bsp := .storeMax s.online }
  | .storeMax v    => some { s with bar := { s.bar with max := v }, bsp := .wait }
  | .wait          => some { s with bsp := if s.bar.cnt < s.bar.max - 1 then .wait else .barrier }
  | .barrier       => none

/-- One step of `main_ap` on AP `i`. -/
def Online.stepAp (s : Online cfg.cpuCnt) (i : Fin cfg.cpuCnt) : Option (Online cfg.cpuCnt) :=
  let a := s.ap i
  match a.pc with
  | .off       => none
  | .sent      => some (s.setAp i { a with pc := .load })
  | .load      => some (s.setAp i { a with pc := .store s.online })
  | .store v   => some { s.setAp i { a with pc := .lock } with online := v + 1 }
  | .lock      => if a.free then some (s.setAp i { a with free := false, pc := .barrier .start }) else some s
  | .barrier p => some { s.setAp i { a with pc := match (p.step s.bar).2 with
      | some p' => .barrier p'
      | none    => .main } with bar := (p.step s.bar).1 }
  | .main      => none

def Online.step (s : Online cfg.cpuCnt) : Cpu cfg.cpuCnt → Option (Online cfg.cpuCnt)
  | .bsp  => s.stepBsp cfg
  | .ap i => s.stepAp i

/-- The loop of `apic_init` begins; `global_barrier` is as it was initialised. -/
def Online.start (cfg : ApCfg) : Online cfg.cpuCnt where
  online := 0
  bar    := .init (BitVec.ofNat 32 (maxCpu + 1))
  bsp    := .next 1
  ap     := fun _ => ⟨.off, true, false⟩

/-- An AP that was started and not shut out: it has its wakelock or is going to have it. -/
def Ap.joins (a : Ap) : Bool :=
  !a.shut && match a.pc with
    | .off => false
    | _    => true

/-- What the handshake promises. -/
structure HandshakeOk {n : Nat} (s : Online n) : Prop where
  /-- `main_bsp` stores the number of CPUs that come to the barrier. -/
  max   : ∀ v, s.bsp = .storeMax v → v = s.online ∧ s.online.toNat = 1 + count Ap.joins s.ap
  /-- While it waits, an AP that has its wakelock is still on its way to the barrier. -/
  waits : s.bsp = .wait → s.bar.cnt < s.bar.max - 1 →
    ∃ i p, (s.ap i).pc = .barrier p ∧ (p = .start ∨ ∃ e, p = .enter e)

/-- No AP that `apic_init` shuts out stores its increment of `cpu_online` before `main_bsp` has stored `max`. -/
def orderly (s : Online cfg.cpuCnt) : Cpu cfg.cpuCnt → Bool
  | .bsp  => match s.bsp with
    | .trylock u => !((s.ap u).free && match (s.ap u).pc with
      | .lock => true
      | _     => false)
    | _          => true
  | .ap i => match (s.ap i).pc, s.bsp with
    | .store _, .wait    => true
    | .store _, .barrier => true
    | .store _, _        => !(s.ap i).shut
    | _, _               => true

/-! ### The invariant -/

section Inv
variable {n : Nat}

def BspPc.passed (b : BspPc n) (i : Fin n) : Bool :=
  match b with
  | .next u    => decide (i.val < u)
  | .trylock u => decide (i.val < u.val)
  | _          => true

def BspPc.trying (b : BspPc n) (i : Fin n) : Bool :=
  match b with
  | .trylock u => decide (u = i)
  | _          => false

def BspPc.stored : BspPc n → Bool
  | .wait | .barrier => true
  | _                => false

/-- An AP whose increment of `cpu_online` `main_bsp` relies on. -/
def Ap.counted (a : Ap) : Bool :=
  !a.shut && match a.pc with
    | .lock | .barrier _ => true
    | _                  => false

def Ap.entered (a : Ap) : Bool :=
  match a.pc with
  | .barrier (.compare _ _) | .barrier (.spin _) => true
  | _                                            => false

/-- Before `main_bsp` comes, nobody finds the barrier complete. -/
def BarrierPc.Waits (bar : Barrier) : BarrierPc → Prop
  | .start       => True
  | .enter e     => e = bar.epoch
  | .compare e c => e = bar.epoch ∧ c.toNat ≤ bar.cnt.toNat
  | .spin e      => e = bar.epoch
  | _            => False

/-- An AP that has not come to its wakelock: the lock is taken from it when `apic_init` has passed. -/
def Ap.Outside (passed trying : Bool) (a : Ap) : Prop :=
  a.shut = passed ∧ a.free = !a.shut ∧ (trying = true ∨ passed = true)

def Ap.Ok (passed trying stored : Bool) (online : Unsigned) (bar : Barrier) (a : Ap) : Prop :=
  match a.pc with
  | .off         => a.free = true ∧ a.shut = false ∧ trying = false
  | .sent | .load => a.Outside passed trying
  | .store v     => a.Outside passed trying ∧ (a.shut = false → v = online)
  | .lock        => (a.shut = false ∧ a.free = true ∧ trying = true) ∨
    (a.shut = true ∧ a.free = false ∧ stored = true ∧ passed = true)
  | .barrier p   => a.shut = false ∧ a.free = false ∧ (trying = true ∨ passed = true) ∧ p.Waits bar
  | .main        => False

def Online.ApOk (s : Online n) (i : Fin n) : Prop :=
  (s.ap i).Ok (s.bsp.passed i) (s.bsp.trying i) s.bsp.stored s.online s.bar

/-- What `main_bsp` knows of the number of counted APs. -/
def Online.Counts (s : Online n) : Prop :=
  match s.bsp with
  | .next _ | .trylock _ | .loadOnline =>
    s.online.toNat = count Ap.counted s.ap ∧ s.bar.max.toNat = maxCpu + 1
  | .storeOnline v => s.online.toNat = count Ap.counted s.ap ∧ s.bar.max.toNat = maxCpu + 1 ∧ v = s.online
  | .loadMax       => s.online.toNat = count Ap.counted s.ap + 1 ∧ s.bar.max.toNat = maxCpu + 1
  | .storeMax v    => s.online.toNat = count Ap.counted s.ap + 1 ∧ s.bar.max.toNat = maxCpu + 1 ∧ v = s.online
  | .wait | .barrier => s.bar.max.toNat = count Ap.counted s.ap + 1

structure OnlineInv (s : Online n) : Prop where
  each   : ∀ i, s.ApOk i
  cnt    : s.bar.cnt.toNat = count Ap.entered s.ap
  counts : s.Counts

variable {s s' : Online n} {i : Fin n} {a : Ap}

theorem counted_lt_max (hn : n ≤ maxCpu) (h : s.Counts) : count Ap.counted s.ap < s.bar.max.toNat := by
  have hle := count_le Ap.counted s.ap
  rw [Fintype.card_fin] at hle
  unfold Online.Counts at h
  split at h <;> omega

theorem Ap.Ok.entered {p t st : Bool} {o : Unsigned} {bar : Barrier} (h : a.Ok p t st o bar) (he : a.entered = true) :
    a.counted = true := by
  unfold Ap.entered at he
  unfold Ap.Ok at h
  unfold Ap.counted
  cases hpc : a.pc with
  | barrier q => rw [hpc] at h; simp [h.1]
  | _ => simp [hpc] at he

theorem OnlineInv.cnt_lt_max (h : OnlineInv s) (hn : n ≤ maxCpu) : s.bar.cnt.toNat < s.bar.max.toNat := by
  rw [h.cnt]
  exact Nat.lt_of_le_of_lt (count_mono (fun i hi => (h.each i).entered hi)) (counted_lt_max hn h.counts)

theorem Online.ApOk.other {j : Fin n} (h : s.ApOk j) (hap : s'.ap j = s.ap j) (hbsp : s'.bsp = s.bsp)
    (hepoch : s'.bar.epoch = s.bar.epoch) (hcnt : s.bar.cnt.toNat ≤ s'.bar.cnt.toNat)
    (honline : (s.ap j).shut = false → s.bsp.trying j = true → s'.online = s.online) : s'.ApOk j := by
  unfold Online.ApOk Ap.Ok at *
  rw [hap, hbsp]
  cases hpc : (s.ap j).pc with
  | store v =>
    simp only [hpc] at h ⊢
    refine ⟨h.1, fun hs => ?_⟩
    have ht : s.bsp.trying j = true := by
      rcases h.1.2.2 with ht | hp
      · exact ht
      · rw [h.1.1, hp] at hs; cases hs
    rw [honline hs ht]
    exact h.2 hs
  | barrier p =>
    simp only [hpc] at h ⊢
    refine ⟨h.1, h.2.1, h.2.2.1, ?_⟩
    have hw := h.2.2.2
    cases p <;> simp only [BarrierPc.Waits, hepoch] at hw ⊢
    · exact hw
    · exact ⟨hw.1, Nat.le_trans hw.2 hcnt⟩
    · exact hw
  | main => simp only [hpc] at h
  | off => simpa only [hpc] using h
  | sent => simpa only [hpc] using h
  | load => simpa only [hpc] using h
  | lock => simpa only [hpc] using h

theorem OnlineInv.setBoth (h : OnlineInv s) {b : BspPc n} (hc : a.counted = (s.ap i).counted)
    (he : a.entered = (s.ap i).entered) (ha : a.Ok (b.passed i) (b.trying i) b.stored s.online s.bar)
    (ho : ∀ j, j ≠ i → (s.ap j).Ok (b.passed j) (b.trying j) b.stored s.online s.bar)
    (hb : Online.Counts { s with bsp := b }) : OnlineInv { s.setAp i a with bsp := b } where
  each   := fun j => by
    by_cases hj : j = i
    · subst hj
      simpa [Online.ApOk, Online.setAp] using ha
    · simpa [Online.ApOk, Online.setAp, hj] using ho j hj
  cnt    := h.cnt.trans (count_update_same he).symm
  counts := by
    unfold Online.Counts at hb ⊢
    simp only [Online.setAp, count_update_same hc] at hb ⊢
    exact hb

theorem OnlineInv.setAp (h : OnlineInv s) (ha : a.Ok (s.bsp.passed i) (s.bsp.trying i) s.bsp.stored s.online s.bar)
    (hc : a.counted = (s.ap i).counted) (he : a.entered = (s.ap i).entered) : OnlineInv (s.setAp i a) :=
  h.setBoth hc he ha (fun j _ => h.each j) h.counts

theorem BspPc.eq_trylock {b : BspPc n} (h : b.trying i = true) : b = .trylock i := by
  unfold BspPc.trying at h
  split at h
  · rw [of_decide_eq_true h]
  · cases h

theorem BspPc.not_trying {b : BspPc n} (h : b.stored = true) : b.trying i = false := by
  cases b <;> first | rfl | cases h

/-- An AP that is shut out stores its increment of `cpu_online`, which `main_bsp` does not read any more. -/
theorem OnlineInv.storeLate (h : OnlineInv s) {v : Unsigned} (hpc : (s.ap i).pc = .store v)
    (hs : (s.ap i).shut = true) (ho : s.bsp.stored = true) :
    OnlineInv { s.setAp i { s.ap i with pc := .lock } with online := v + 1 } := by
  have hok := h.each i
  simp only [Online.ApOk, Ap.Ok, hpc] at hok
  obtain ⟨⟨hsh, hfree, -⟩, -⟩ := hok
  refine ⟨fun j => ?_, h.cnt.trans (count_update_same (by simp [Ap.entered, hpc])).symm, ?_⟩
  · by_cases hj : j = i
    · subst hj
      simp only [Online.ApOk, Online.setAp, Function.update_self, Ap.Ok]
      exact .inr ⟨hs, by rw [hfree, hs]; rfl, ho, by rw [← hsh, hs]⟩
    · refine (h.each j).other (by simp [Online.setAp, hj]) rfl rfl (Nat.le_refl _) (fun _ hjt => ?_)
      rw [BspPc.not_trying ho] at hjt
      cases hjt
  · have hcs := h.counts
    have hcount : count Ap.counted (Function.update s.ap i { s.ap i with pc := .lock }) = count Ap.counted s.ap :=
      count_update_same (by simp [Ap.counted, hpc, hs])
    unfold Online.Counts at hcs ⊢
    unfold BspPc.stored at ho
    simp only [Online.setAp, hcount]
    split at ho
    · rename_i hb; rw [hb] at hcs ⊢; exact hcs
    · rename_i hb; rw [hb] at hcs ⊢; exact hcs
    · cases ho

/-- The AP whose lock `apic_init` is about to try stores its increment of `cpu_online`. -/
theorem OnlineInv.storeInTime (h : OnlineInv s) (hn : n ≤ maxCpu) {v : Unsigned} (hpc : (s.ap i).pc = .store v)
    (hs : (s.ap i).shut = false) : OnlineInv { s.setAp i { s.ap i with pc := .lock } with online := v + 1 } := by
  have hok := h.each i
  simp only [Online.ApOk, Ap.Ok, hpc] at hok
  obtain ⟨⟨hsh, hfree, htp⟩, hv⟩ := hok
  have ht : s.bsp.trying i = true := by
    rcases htp with ht | hp
    · exact ht
    · rw [hsh, hp] at hs; cases hs
  refine ⟨fun j => ?_, h.cnt.trans (count_update_same (by simp [Ap.entered, hpc])).symm, ?_⟩
  · by_cases hj : j = i
    · subst hj
      simp only [Online.ApOk, Online.setAp, Function.update_self, Ap.Ok]
      exact .inl ⟨hs, by rw [hfree, hs]; rfl, ht⟩
    · refine (h.each j).other (by simp [Online.setAp, hj]) rfl rfl (Nat.le_refl _) (fun _ hjt => ?_)
      -- only one lock is tried at a time
      rw [BspPc.eq_trylock ht] at hjt
      exact absurd (of_decide_eq_true hjt).symm hj
  · have hold : (s.ap i).counted = false := by simp [Ap.counted, hpc]
    have hcount : count Ap.counted (Function.update s.ap i { s.ap i with pc := .lock }) = count Ap.counted s.ap + 1 :=
      count_update_new (by simp [Ap.counted, hs]) hold
    have hlt := count_lt_of_not hold
    rw [Fintype.card_fin] at hlt
    have hmc : maxCpu = 16 := rfl
    have hcs := h.counts
    simp only [Online.Counts, BspPc.eq_trylock ht] at hcs
    simp only [Online.Counts, Online.setAp, BspPc.eq_trylock ht, hcount]
    refine ⟨?_, hcs.2⟩
    rw [BitVec.toNat_add, hv hs, hcs.1]
    exact Nat.mod_eq_of_lt (by show _ + 1 < 2 ^ 32; omega)

theorem OnlineInv.lock (h : OnlineInv s) (hpc : (s.ap i).pc = .lock) (hfree : (s.ap i).free = true) :
    OnlineInv (s.setAp i { s.ap i with free := false, pc := .barrier .start }) := by
  have hok := h.each i
  simp only [Online.ApOk, Ap.Ok, hpc] at hok
  rcases hok with ⟨hs, -, ht⟩ | ⟨-, hf, -⟩
  · exact h.setAp ⟨hs, rfl, .inl ht, trivial⟩ (by simp [Ap.counted, hpc]) (by simp [Ap.entered, hpc])
  · rw [hfree] at hf; cases hf

theorem OnlineInv.inBarrier (h : OnlineInv s) (hn : n ≤ maxCpu) {p : BarrierPc} (hpc : (s.ap i).pc = .barrier p) :
    OnlineInv { s.setAp i { s.ap i with pc := match (p.step s.bar).2 with
      | some p' => .barrier p'
      | none    => .main } with bar := (p.step s.bar).1 } := by
  have hok := h.each i
  simp only [Online.ApOk, Ap.Ok, hpc] at hok
  obtain ⟨hsh, hfree, htp, hw⟩ := hok
  have hmax := h.cnt_lt_max hn
  cases p with
  | start =>
    exact h.setAp ⟨hsh, hfree, htp, rfl⟩ (by simp [Ap.counted, hpc, BarrierPc.step])
      (by simp [Ap.entered, hpc, BarrierPc.step])
  | enter e =>
    have hlt := s.bar.max.isLt
    have htoNat : (s.bar.cnt + 1).toNat = s.bar.cnt.toNat + 1 := by
      rw [BitVec.toNat_add]
      exact Nat.mod_eq_of_lt (by show _ + 1 < 2 ^ 32; omega)
    refine ⟨fun j => ?_, ?_, ?_⟩
    · by_cases hj : j = i
      · subst hj
        simp only [Online.ApOk, Online.setAp, Function.update_self]
        exact ⟨hsh, hfree, htp, hw, Nat.le_refl _⟩
      · exact (h.each j).other (by simp [Online.setAp, hj]) rfl rfl (by show _ ≤ (s.bar.cnt + 1).toNat; omega)
          (fun _ _ => rfl)
    · show (s.bar.cnt + 1).toNat = count Ap.entered (Function.update s.ap i _)
      rw [htoNat, h.cnt]
      exact (count_update_new rfl (by simp [Ap.entered, hpc])).symm
    · have hcs := h.counts
      unfold Online.Counts at hcs ⊢
      simp only [Online.setAp, BarrierPc.step]
      rw [count_update_same (by simp [Ap.counted, hpc])]
      exact hcs
  | compare e c =>
    have hne : c ≠ s.bar.max := by rintro rfl; have := hw.2; omega
    simp only [BarrierPc.step, if_neg hne]
    exact h.setAp ⟨hsh, hfree, htp, hw.1⟩ (by simp [Ap.counted, hpc]) (by simp [Ap.entered, hpc])
  | spin e =>
    have he : e = s.bar.epoch := hw
    simp only [BarrierPc.step, if_pos he]
    exact h.setAp ⟨hsh, hfree, htp, hw⟩ (by simp [Ap.counted, hpc]) (by simp [Ap.entered, hpc])
  | reset => exact hw.elim
  | loadEpoch => exact hw.elim
  | storeEpoch v => exact hw.elim

theorem Ap.Ok.move {p t st st' : Bool} {o o' : Unsigned} {bar bar' : Barrier} (h : a.Ok p t st o bar)
    (hst : st = true → st' = true) (ho : o' = o ∨ p = true) (hbar : bar'.epoch = bar.epoch ∧ bar'.cnt = bar.cnt) :
    a.Ok p t st' o' bar' := by
  unfold Ap.Ok at *
  cases hpc : a.pc with
  | off => simpa only [hpc] using h
  | sent => simpa only [hpc] using h
  | load => simpa only [hpc] using h
  | store v =>
    simp only [hpc] at h ⊢
    refine ⟨h.1, fun hs => ?_⟩
    rcases ho with ho | hp
    · rw [ho]; exact h.2 hs
    · rw [h.1.1, hp] at hs; cases hs
  | lock =>
    simp only [hpc] at h ⊢
    exact h.imp id (fun h1 => ⟨h1.1, h1.2.1, hst h1.2.2.1, h1.2.2.2⟩)
  | barrier q =>
    simp only [hpc] at h ⊢
    refine ⟨h.1, h.2.1, h.2.2.1, ?_⟩
    have hw := h.2.2.2
    unfold BarrierPc.Waits at hw ⊢
    rw [hbar.1, hbar.2]
    exact hw
  | main => simp only [hpc] at h

theorem Ap.Ok.off {st : Bool} {o : Unsigned} {bar : Barrier} (h : a.Ok false false st o bar) :
    a.pc = .off ∧ a.free = true ∧ a.shut = false := by
  unfold Ap.Ok Ap.Outside at h
  cases hpc : a.pc <;> simp [hpc] at h ⊢
  exact h

theorem Ap.Ok.tried {o : Unsigned} {bar : Barrier} (h : a.Ok false true false o bar) :
    (a.free = true ∧ a.shut = false ∧ ((a.pc = .sent ∨ a.pc = .load) ∨ (∃ v, a.pc = .store v) ∨ a.pc = .lock)) ∨
      (a.free = false ∧ a.shut = false ∧ ∃ p, a.pc = .barrier p ∧ p.Waits bar) := by
  unfold Ap.Ok Ap.Outside at h
  cases hpc : a.pc <;> simp [hpc] at h ⊢
  · obtain ⟨h1, h2⟩ := h; simp [h1, h2]
  · obtain ⟨h1, h2⟩ := h; simp [h1, h2]
  · obtain ⟨⟨h1, h2⟩, -⟩ := h; simp [h1, h2]
  · obtain ⟨h1, h2⟩ := h; simp [h1, h2]
  · exact ⟨h.2.1, h.1, h.2.2⟩

end Inv

section Steps
variable {s s' : Online cfg.cpuCnt}

theorem OnlineInv.ok (h : OnlineInv s) {b : BspPc cfg.cpuCnt} (hb : s.bsp = b) (j : Fin cfg.cpuCnt) :
    (s.ap j).Ok (b.passed j) (b.trying j) b.stored s.online s.bar := by
  subst hb
  exact h.each j

theorem passed_next {n : Nat} {i j : Fin n} (h : j ≠ i) :
    (BspPc.next (n := n) (i.val + 1)).passed j = (BspPc.next (n := n) i.val).passed j := by
  have : j.val ≠ i.val := fun he => h (Fin.ext he)
  simp only [BspPc.passed, decide_eq_decide]
  omega

theorem OnlineInv.next (h : OnlineInv s) {u : Nat} (hb : s.bsp = .next u) (hs : s.stepBsp cfg = some s') :
    OnlineInv s' := by
  have hok : ∀ j, (s.ap j).Ok ((BspPc.next (n := cfg.cpuCnt) u).passed j) false false s.online s.bar := h.ok hb
  have hcs := h.counts
  simp only [Online.Counts, hb] at hcs
  simp only [Online.stepBsp, hb] at hs
  by_cases hu : u < cfg.cpuCnt
  · rw [dif_pos hu] at hs
    have hoff := hok ⟨u, hu⟩
    simp only [BspPc.passed, Nat.lt_irrefl, decide_false] at hoff
    obtain ⟨hpc, hfree, hshut⟩ := hoff.off
    split at hs
    · -- AP `u` gets its IPIs
      cases hs
      refine h.setBoth (by simp [Ap.counted, hpc]) (by simp [Ap.entered, hpc]) ?_ (fun j hj => ?_) hcs
      · simp [Ap.Ok, Ap.Outside, BspPc.passed, BspPc.trying, hshut, hfree]
      · have hne : decide ((⟨u, hu⟩ : Fin cfg.cpuCnt) = j) = false := decide_eq_false (Ne.symm hj)
        simp only [BspPc.trying, hne]
        exact hok j
    · cases hs
      refine ⟨fun j => ?_, h.cnt, hcs⟩
      show (s.ap j).Ok ((BspPc.next (n := cfg.cpuCnt) (u + 1)).passed j) false false s.online s.bar
      by_cases hj : j = ⟨u, hu⟩
      · subst hj
        simp [Ap.Ok, hpc, hfree, hshut]
      · rw [passed_next hj]
        exact hok j
  · rw [dif_neg hu] at hs
    cases hs
    refine ⟨fun j => ?_, h.cnt, hcs⟩
    have hp : (BspPc.next (n := cfg.cpuCnt) u).passed j = true := by
      simp only [BspPc.passed, decide_eq_true_iff]; omega
    have := hok j
    rwa [hp] at this

theorem OnlineInv.trylock (h : OnlineInv s) {u : Fin cfg.cpuCnt} (hb : s.bsp = .trylock u)
    (hc : orderly s .bsp = true) (hs : s.stepBsp cfg = some s') : OnlineInv s' := by
  have hok : ∀ j, (s.ap j).Ok (decide (j.val < u.val)) (decide (u = j)) false s.online s.bar := h.ok hb
  have hcs := h.counts
  simp only [Online.Counts, hb] at hcs
  have hu := hok u
  simp only [Nat.lt_irrefl, decide_false, decide_true] at hu
  have hothers : ∀ j, j ≠ u → (s.ap j).Ok ((BspPc.next (n := cfg.cpuCnt) (u.val + 1)).passed j) false false s.online
      s.bar := fun j hj => by
    have := hok j
    rw [passed_next hj]
    simpa only [BspPc.passed, Ne.symm hj, decide_false] using this
  simp only [Online.stepBsp, hb] at hs
  split at hs
  · -- shut out: it has not stored its increment
    rename_i hfree
    cases hs
    have hpc : (s.ap u).pc = .sent ∨ (s.ap u).pc = .load ∨ ∃ v, (s.ap u).pc = .store v := by
      rcases hu.tried with ⟨-, -, (h1 | h1) | h1 | h1⟩ | ⟨h1, -⟩
      · exact .inl h1
      · exact .inr (.inl h1)
      · exact .inr (.inr h1)
      · simp [orderly, hb, hfree, h1] at hc
      · rw [hfree] at h1; cases h1
    refine h.setBoth ?_ rfl ?_ hothers hcs
    · rcases hpc with h1 | h1 | ⟨v, h1⟩ <;> simp [Ap.counted, h1]
    · rcases hpc with h1 | h1 | ⟨v, h1⟩ <;> simp [Ap.Ok, Ap.Outside, BspPc.passed, BspPc.trying, h1]
  · -- the AP has its lock
    rename_i hfree
    cases hs
    refine ⟨fun j => ?_, h.cnt, hcs⟩
    by_cases hj : j = u
    · subst hj
      rcases hu.tried with ⟨h1, -⟩ | ⟨h1, h2, p, h3, h4⟩
      · exact absurd h1 hfree
      · simp [Online.ApOk, Ap.Ok, BspPc.passed, h3, h1, h2, h4]
    · exact hothers j hj

/-- **One step of the boot CPU.** -/
theorem onlineInv_bsp (h : OnlineInv s) (hc : orderly s .bsp = true) (hs : s.stepBsp cfg = some s') : OnlineInv s' := by
  have hcs := h.counts
  unfold Online.Counts at hcs
  cases hb : s.bsp with
  | next u => exact h.next hb hs
  | trylock u => exact h.trylock hb hc hs
  | loadOnline =>
    simp only [Online.stepBsp, hb] at hs hcs
    cases hs
    exact ⟨fun j => h.ok hb j, h.cnt, hcs.1, hcs.2, rfl⟩
  | storeOnline v =>
    simp only [Online.stepBsp, hb] at hs hcs
    cases hs
    refine ⟨fun j => (h.ok hb j).move id (.inr rfl) ⟨rfl, rfl⟩, h.cnt, ?_, hcs.2.1⟩
    have hle := count_le Ap.counted s.ap
    rw [Fintype.card_fin] at hle
    have hn := cfg.cpuCnt_le
    have hmc : maxCpu = 16 := rfl
    show (v + 1).toNat = count Ap.counted s.ap + 1
    rw [BitVec.toNat_add, hcs.2.2, hcs.1]
    exact Nat.mod_eq_of_lt (by show _ + 1 < 2 ^ 32; omega)
  | loadMax =>
    simp only [Online.stepBsp, hb] at hs hcs
    cases hs
    exact ⟨fun j => h.ok hb j, h.cnt, hcs.1, hcs.2, rfl⟩
  | storeMax v =>
    simp only [Online.stepBsp, hb] at hs hcs
    cases hs
    refine ⟨fun j => (h.ok hb j).move (fun h => by cases h) (.inr rfl) ⟨rfl, rfl⟩, h.cnt, ?_⟩
    show v.toNat = count Ap.counted s.ap + 1
    rw [hcs.2.2, hcs.1]
  | wait =>
    simp only [Online.stepBsp, hb] at hs hcs
    cases hs
    by_cases hw : s.bar.cnt < s.bar.max - 1
    · rw [if_pos hw]
      exact ⟨fun j => h.ok hb j, h.cnt, hcs⟩
    · rw [if_neg hw]
      exact ⟨fun j => h.ok hb j, h.cnt, hcs⟩
  | barrier => simp only [Online.stepBsp, hb] at hs; cases hs

/-- **One step of an AP.** -/
theorem onlineInv_ap {i : Fin cfg.cpuCnt} (h : OnlineInv s) (hc : orderly s (.ap i) = true)
    (hs : s.stepAp i = some s') : OnlineInv s' := by
  have hok := h.each i
  unfold Online.ApOk Ap.Ok at hok
  unfold Online.stepAp at hs
  cases hpc : (s.ap i).pc with
  | off => simp only [hpc] at hs; cases hs
  | main => simp only [hpc] at hs; cases hs
  | sent =>
    simp only [hpc] at hs hok
    cases hs
    exact h.setAp hok (by simp [Ap.counted, hpc]) (by simp [Ap.entered, hpc])
  | load =>
    simp only [hpc] at hs hok
    cases hs
    exact h.setAp ⟨hok, fun _ => rfl⟩ (by simp [Ap.counted, hpc]) (by simp [Ap.entered, hpc])
  | store v =>
    simp only [hpc] at hs
    cases hs
    by_cases hsh : (s.ap i).shut = true
    · refine h.storeLate hpc hsh ?_
      simp only [orderly, hpc] at hc
      unfold BspPc.stored
      split at hc <;> simp_all
    · exact h.storeInTime cfg.cpuCnt_le hpc (Bool.not_eq_true _ ▸ hsh)
  | lock =>
    simp only [hpc] at hs
    split at hs
    · cases hs
      exact h.lock hpc ‹_›
    · cases hs
      exact h
  | barrier p =>
    simp only [hpc] at hs
    cases hs
    exact h.inBarrier cfg.cpuCnt_le hpc

end Steps

theorem onlineInv_start (cfg : ApCfg) : OnlineInv (Online.start cfg) where
  each   := fun _ => ⟨rfl, rfl, rfl⟩
  cnt    := (count_eq_zero (fun _ => rfl)).symm
  counts := ⟨(count_eq_zero (fun _ => rfl)).symm, rfl⟩

/-- When all APs have been tried, those that join are those that are counted. -/
theorem Ap.Ok.joins {a : Ap} {o : Unsigned} {bar : Barrier} (h : a.Ok true false false o bar) :
    a.joins = a.counted := by
  unfold Ap.Ok Ap.Outside at h
  unfold Ap.joins Ap.counted
  cases hpc : a.pc <;> simp [hpc] at h ⊢ <;> simp [h]

/-- **If no AP that is shut out is counted, the boot CPU waits only for CPUs that come.** -/
theorem handshake_ok (cfg : ApCfg) {s : Online cfg.cpuCnt} (h : Reach (onlyIf orderly Online.step) (.start cfg) s) :
    HandshakeOk s := by
  have hi : OnlineInv s := by
    refine h.inv (onlineInv_start cfg) ?_
    rintro s (_ | i) s' hi hs
    · exact onlineInv_bsp hi (onlyIf_some hs).1 (onlyIf_some hs).2
    · exact onlineInv_ap hi (onlyIf_some hs).1 (onlyIf_some hs).2
  have hcs := hi.counts
  unfold Online.Counts at hcs
  refine ⟨fun v hb => ?_, fun hb hlt => ?_⟩
  · rw [hb] at hcs
    refine ⟨hcs.2.2, ?_⟩
    rw [hcs.1, count_congr (q := Ap.counted) (fun j => (hi.ok hb j).joins)]
    omega
  · rw [hb] at hcs
    simp only at hcs
    have hmax : (s.bar.max - 1).toNat = count Ap.counted s.ap := by
      have hlt := s.bar.max.isLt
      rw [BitVec.toNat_sub, hcs]
      simp
      omega
    have hlt' : count Ap.entered s.ap < count Ap.counted s.ap := by
      rw [← hi.cnt, ← hmax]
      exact hlt
    -- somebody is counted and has not entered
    by_contra hcon
    refine Nat.not_le_of_lt hlt' (count_mono (fun i hc => ?_))
    have hok := hi.ok hb i
    unfold Ap.counted at hc
    unfold Ap.Ok at hok
    unfold Ap.entered
    cases hpc : (s.ap i).pc with
    | barrier p =>
      simp only [hpc] at hok
      cases p with
      | start => exact absurd ⟨i, .start, hpc, .inl rfl⟩ hcon
      | enter e => exact absurd ⟨i, .enter e, hpc, .inr ⟨e, rfl⟩⟩ hcon
      | compare e c => rfl
      | spin e => rfl
      | reset => exact hok.2.2.2.elim
      | loadEpoch => exact hok.2.2.2.elim
      | storeEpoch v => exact hok.2.2.2.elim
    | lock =>
      simp only [hpc] at hok
      rcases hok with ⟨-, -, ht⟩ | ⟨hs, -⟩
      · cases ht
      · simp [hs] at hc
    | off => simp [hpc] at hc
    | sent => simp [hpc] at hc
    | load => simp [hpc] at hc
    | store v => simp [hpc] at hc
    | main => simp [hpc] at hc

def twoCpuCfg : ApCfg := ⟨2, 16, 0xffff, by decide⟩

def twoCpuAp : Cpu twoCpuCfg.cpuCnt := .ap ⟨1, by decide⟩

theorem handshake_ok_two : ∃ s, exec (onlyIf orderly Online.step) (.start twoCpuCfg)
    [.bsp, twoCpuAp, twoCpuAp, twoCpuAp, twoCpuAp, .bsp, .bsp, .bsp, .bsp, .bsp] = some s ∧ HandshakeOk s :=
  ⟨_, rfl, handshake_ok twoCpuCfg ⟨[.bsp, twoCpuAp, twoCpuAp, twoCpuAp, twoCpuAp, .bsp, .bsp, .bsp, .bsp, .bsp], rfl⟩⟩

/-- The AP is shut out between its increment of `cpu_online` and its lock: the boot CPU waits for it. -/
theorem handshake_late : ∃ s, exec Online.step (.start twoCpuCfg)
    [.bsp, twoCpuAp, twoCpuAp, twoCpuAp, .bsp, .bsp, .bsp, .bsp, .bsp, .bsp] = some s ∧ s.bsp = .wait ∧ ¬ HandshakeOk s := by
  refine ⟨_, rfl, rfl, fun h => ?_⟩
  obtain ⟨i, p, hp, -⟩ := h.waits rfl (by decide)
  have hi : ∀ i : Fin twoCpuCfg.cpuCnt, i = ⟨0, by decide⟩ ∨ i = ⟨1, by decide⟩ := by decide
  rcases hi i with rfl | rfl <;> cases hp

/-! ## The index -/

/-- `apic_init` from its loop on. -/
inductive ApidPc (n : Nat) where
  | next (u : Nat)   -- for (..; u < hw_info.cpu_cnt; ..)
  | ipi (u : Fin n)  -- *ptr_apid = u is done; INIT and SIPI to AP u
  | over

/-- A CPU: without its IPIs, between its IPIs and the read of `smp_apid`, or running with the index it has read. -/
inductive ApIndex where
  | off
  | sent
  | running (k : Nat)

structure Apid (n : Nat) where
  apid : BitVec 16           -- smp_apid
  bsp  : ApidPc n
  ap   : Fin n → ApIndex

/-- One step: `apic_init` goes on, or an AP reads `smp_apid` (`Smp32`). -/
def Apid.step (s : Apid cfg.cpuCnt) : Cpu cfg.cpuCnt → Option (Apid cfg.cpuCnt)
  | .bsp =>
    match s.bsp with
    | .next u =>
      if h : u < cfg.cpuCnt then
        if cfg.selected u then some { s with apid := BitVec.ofNat 16 u, bsp := .ipi ⟨u, h⟩ }
        else some { s with bsp := .next (u + 1) }
      else some { s with bsp := .over }
    | .ipi u => some { s with bsp := .next (u.val + 1), ap := Function.update s.ap u .sent }
    | .over  => none
  | .ap i =>
    match s.ap i with
    | .sent => some { s with ap := Function.update s.ap i (.running s.apid.toNat) }
    | _     => none

/-- The boot CPU runs on `stack[0]`. -/
def Apid.start (cfg : ApCfg) : Apid cfg.cpuCnt where
  apid := 1
  bsp  := .next 1
  ap   := fun i => if i.val = 0 then .running 0 else .off

def stackSize : Nat := 2 * 4096

/-- `Smp32` puts the stack pointer of index `k` behind `stack[k]`. -/
def stackTop (k : Nat) : Nat := (k + 1) * stackSize

/-- Each CPU has its own index and its own stack. -/
structure IndexOk {n : Nat} (s : Apid n) : Prop where
  own      : ∀ i k, s.ap i = .running k → k = i.val
  distinct : ∀ i j k, s.ap i = .running k → s.ap j = .running k → i = j
  stack    : ∀ i j k l, i ≠ j → s.ap i = .running k → s.ap j = .running l →
    stackTop k ≤ stackTop l - stackSize ∨ stackTop l ≤ stackTop k - stackSize

def Apid.written (s : Apid cfg.cpuCnt) (w : Fin cfg.cpuCnt) : Bool :=
  decide (1 ≤ w.val) && cfg.selected w.val && match s.bsp with
    | .next u => decide (w.val < u)
    | .ipi u  => decide (w.val ≤ u.val)
    | .over   => true

/-- An AP reads `smp_apid` before `apic_init` writes a higher index. -/
def inTime (s : Apid cfg.cpuCnt) : Cpu cfg.cpuCnt → Bool
  | .bsp  => true
  | .ap i => decide (∀ w, i < w → s.written w = false)

/-- `smp_apid` is the highest index written. -/
structure ApidInv (s : Apid cfg.cpuCnt) : Prop where
  pos  : ∀ u, s.bsp = .next u → 1 ≤ u
  ipi  : ∀ u, s.bsp = .ipi u → s.written u = true
  le   : ∀ w, s.written w = true → w.val ≤ s.apid.toNat
  mem  : ∀ i, s.written i = true → ∃ w, s.written w = true ∧ s.apid.toNat = w.val
  sent : ∀ i, s.ap i = .sent → s.written i = true

theorem ApidInv.same {s s' : Apid cfg.cpuCnt} (h : ApidInv s) (hp : ∀ u, s'.bsp = .next u → 1 ≤ u)
    (hi : ∀ u, s'.bsp = .ipi u → s.bsp = .ipi u) (hw : ∀ w, s'.written w = s.written w) (ha : s'.apid = s.apid)
    (hs : ∀ i, s'.ap i = .sent → s.written i = true) : ApidInv s' where
  pos  := hp
  ipi  := fun u hu => by rw [hw]; exact h.ipi u (hi u hu)
  le   := fun w h1 => by rw [ha]; exact h.le w (by rwa [← hw])
  mem  := fun i h1 => by
    obtain ⟨w, h2, h3⟩ := h.mem i (by rwa [← hw])
    exact ⟨w, by rwa [hw], by rw [ha]; exact h3⟩
  sent := fun i h1 => by rw [hw]; exact hs i h1

/-- The index of the next AP is written: it is above those written before. -/
theorem ApidInv.write {s : Apid cfg.cpuCnt} (h : ApidInv s) {u : Nat} (hb : s.bsp = .next u) (hu : u < cfg.cpuCnt)
    (hsel : cfg.selected u = true) : ApidInv { s with apid := BitVec.ofNat 16 u, bsp := .ipi ⟨u, hu⟩ } := by
  have hn := cfg.cpuCnt_le
  have hmc : maxCpu = 16 := rfl
  have hu1 := h.pos u hb
  have htoNat : (BitVec.ofNat 16 u).toNat = u := by
    rw [BitVec.toNat_ofNat]
    exact Nat.mod_eq_of_lt (by omega)
  have hself : Apid.written { s with apid := BitVec.ofNat 16 u, bsp := .ipi ⟨u, hu⟩ } ⟨u, hu⟩ = true := by
    simp [Apid.written, hu1, hsel]
  refine ⟨fun v hv => (by cases hv), fun v hv => ?_, fun w hw => ?_, fun i _ => ⟨⟨u, hu⟩, hself, htoNat⟩, fun i hi => ?_⟩
  · cases hv
    exact hself
  · simp only [Apid.written, Bool.and_eq_true, decide_eq_true_iff] at hw
    show w.val ≤ (BitVec.ofNat 16 u).toNat
    rw [htoNat]
    exact hw.2
  · have := h.sent i hi
    simp only [Apid.written, hb, Bool.and_eq_true, decide_eq_true_iff] at this ⊢
    exact ⟨this.1, Nat.le_of_lt this.2⟩

theorem apidInv_step {s s' : Apid cfg.cpuCnt} {a : Cpu cfg.cpuCnt} (h : ApidInv s) (hs : s.step a = some s') :
    ApidInv s' := by
  cases a with
  | ap i =>
    simp only [Apid.step] at hs
    split at hs
    · cases hs
      refine h.same h.pos (fun _ hu => hu) (fun _ => rfl) rfl (fun j hj => ?_)
      by_cases hji : j = i
      · subst hji; simp only [Function.update_self] at hj; cases hj
      · simp only [Function.update_of_ne hji] at hj; exact h.sent j hj
    · cases hs
  | bsp =>
    simp only [Apid.step] at hs
    split at hs
    · rename_i u hb
      split at hs
      · rename_i hu
        split at hs
        · rename_i hsel
          cases hs
          exact h.write hb hu hsel
        · rename_i hsel
          cases hs
          refine h.same (fun v hv => by cases hv; omega) (fun v hv => by cases hv) (fun w => ?_) rfl
            (fun i hi => h.sent i hi)
          simp only [Apid.written, hb]
          by_cases hw : w.val = u
          · simp [hw, hsel]
          · congr 1
            rw [decide_eq_decide]
            omega
      · rename_i hu
        cases hs
        refine h.same (fun v hv => by cases hv) (fun v hv => by cases hv) (fun w => ?_) rfl (fun i hi => h.sent i hi)
        have hw : w.val < u := by omega
        simp [Apid.written, hb, hw]
    · rename_i u hb
      cases hs
      refine h.same (fun v hv => by cases hv; omega) (fun v hv => by cases hv) (fun w => ?_) rfl (fun i hi => ?_)
      · simp only [Apid.written, hb, Nat.lt_succ_iff]
      · by_cases hiu : i = u
        · subst hiu
          exact h.ipi i hb
        · simp only [Function.update_of_ne hiu] at hi
          exact h.sent i hi
    · cases hs

theorem apidInv_start (cfg : ApCfg) : ApidInv (Apid.start cfg) where
  pos  := fun u hu => by cases hu; exact Nat.le_refl 1
  ipi  := fun u hu => by cases hu
  le   := fun w hw => by
    simp only [Apid.written, Apid.start, Bool.and_eq_true, decide_eq_true_iff] at hw
    omega
  mem  := fun w hw => by
    simp only [Apid.written, Apid.start, Bool.and_eq_true, decide_eq_true_iff] at hw
    omega
  sent := fun i hi => by
    simp only [Apid.start] at hi
    split at hi <;> cases hi

/-- **An AP finds its own index exactly when it reads in time.** -/
theorem ApidInv.read_iff {s : Apid cfg.cpuCnt} (h : ApidInv s) {i : Fin cfg.cpuCnt} (hi : s.ap i = .sent) :
    s.apid.toNat = i.val ↔ inTime s (.ap i) = true := by
  simp only [inTime, decide_eq_true_iff]
  constructor
  · intro he w hw
    by_contra hne
    have := h.le w (by simpa using hne)
    omega
  · intro hall
    obtain ⟨w, h1, h2⟩ := h.mem i (h.sent i hi)
    have hle := h.le i (h.sent i hi)
    by_contra hne
    have hlt : i < w := by show i.val < w.val; omega
    rw [hall w hlt] at h1
    cases h1

/-- **If every AP reads `smp_apid` before a higher index is written, no two CPUs share an index or a stack.** -/
theorem index_ok (cfg : ApCfg) {s : Apid cfg.cpuCnt} (h : Reach (onlyIf inTime Apid.step) (.start cfg) s) :
    IndexOk s := by
  obtain ⟨-, hown⟩ : ApidInv s ∧ ∀ i k, s.ap i = .running k → k = i.val := by
    refine h.inv (I := fun s => ApidInv s ∧ ∀ i k, s.ap i = .running k → k = i.val) ⟨apidInv_start cfg, ?_⟩ ?_
    · intro i k hk
      simp only [Apid.start] at hk
      split at hk
      · cases hk; omega
      · cases hk
    · rintro s a s' ⟨hi, hown⟩ hs
      obtain ⟨hc, hs⟩ := onlyIf_some hs
      refine ⟨apidInv_step hi hs, fun j k hk => ?_⟩
      cases a with
      | bsp =>
        simp only [Apid.step] at hs
        split at hs
        · split at hs
          · split at hs <;> cases hs <;> exact hown j k hk
          · cases hs; exact hown j k hk
        · rename_i u _
          cases hs
          by_cases hj : j = u
          · subst hj; simp only [Function.update_self] at hk; cases hk
          · simp only [Function.update_of_ne hj] at hk; exact hown j k hk
        · cases hs
      | ap i =>
        simp only [Apid.step] at hs
        split at hs
        · rename_i hsent
          cases hs
          by_cases hj : j = i
          · subst hj
            simp only [Function.update_self] at hk
            cases hk
            exact (hi.read_iff hsent).2 hc
          · simp only [Function.update_of_ne hj] at hk; exact hown j k hk
        · cases hs
  refine ⟨hown, fun i j k h1 h2 => Fin.ext ?_, fun i j k l hij h1 h2 => ?_⟩
  · rw [← hown i k h1, ← hown j k h2]
  · have hne : i.val ≠ j.val := fun he => hij (Fin.ext he)
    rw [hown i k h1, hown j l h2]
    simp only [stackTop, stackSize]
    omega

def threeCpuCfg : ApCfg := ⟨3, 16, 0xffff, by decide⟩

def threeCpuAp (u : Fin 3) : Cpu threeCpuCfg.cpuCnt := .ap u

theorem index_ok_three : ∃ s, exec (onlyIf inTime Apid.step) (.start threeCpuCfg)
    [.bsp, .bsp, threeCpuAp 1, .bsp, .bsp, threeCpuAp 2] = some s ∧ IndexOk s :=
  ⟨_, rfl, index_ok threeCpuCfg ⟨[.bsp, .bsp, threeCpuAp 1, .bsp, .bsp, threeCpuAp 2], rfl⟩⟩

/-- The first AP reads after `apic_init` went on to the second: both take index 2. -/
theorem index_shared : ∃ s, exec Apid.step (.start threeCpuCfg)
    [.bsp, .bsp, .bsp, .bsp, threeCpuAp 1, threeCpuAp 2] = some s ∧ ¬ IndexOk s := by
  refine ⟨_, rfl, fun h => ?_⟩
  have := h.distinct (⟨1, by decide⟩ : Fin threeCpuCfg.cpuCnt) ⟨2, by decide⟩ 2 rfl rfl
  cases this

end SmpBoot
