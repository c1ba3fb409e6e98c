import SmpBoot.Sync
import SmpBoot.Halt
/-!
# BenchMem — the synchronisation of `bench_mem`

Each CPU runs its own list of calls (`benchMem`), one access at a time.  CPU 0 calls `smp_wakeup(1)` twice as soon as there
is a second CPU, CPU 1 calls `smp_halt` once: the second wake-up waits for ever (`wakeups_matched`).
-/
namespace SmpBoot

open Interleave

inductive SyncOp where
  | wakeup (u : Nat)   -- smp_wakeup(u)
  | halt               -- smp_halt()
  | barr2              -- barrier(&barr2)
  | global             -- barrier(&global_barrier)
  | signal             -- flag_signal(&flag)
  | untilFlag          -- load_until_flag(..): while (!flag_trywait(&flag))
  deriving DecidableEq

/-- The calls of CPU `id` in `bench_mem`, `n` CPUs being online. -/
def benchMem (n id : Nat) : List SyncOp :=
  if id = 0 then
    (if n > 1 then [.wakeup 1, .barr2] ++ (List.replicate 4 [.barr2, .signal, .barr2]).flatten else []) ++
      (List.range' 1 (n - 1)).map .wakeup ++ [.global]
  else
    [.halt] ++ (if id = 1 then [.barr2] ++ (List.replicate 4 [.barr2, .untilFlag, .barr2]).flatten else []) ++ [.global]

/-- Where a CPU is in a call. -/
inductive SyncPc where
  | wakeup (u : Nat) (p : WakePc)
  | halt (p : HaltPc)
  | barr2 (p : BarrierPc)
  | global (p : BarrierPc)
  | signal
  | untilFlag (p : TrywaitPc)
  deriving DecidableEq

def SyncOp.begin : SyncOp → SyncPc
  | .wakeup u  => .wakeup u .await
  | .halt      => .halt .set
  | .barr2     => .barr2 .start
  | .global    => .global .start
  | .signal    => .signal
  | .untilFlag => .untilFlag .loadNext

/-- A CPU: the calls it still has to make, and the one it is in. -/
structure BenchCpu where
  todo : List SyncOp
  pc   : Option SyncPc
  deriving DecidableEq

structure BenchSys where
  flags  : Nat → Unsigned   -- stack[u].info.flags
  barr2  : Barrier
  global : Barrier
  flag   : Flag
  cpu    : Nat → BenchCpu

def BenchSys.goto (s : BenchSys) (i : Nat) (pc : Option SyncPc) : BenchSys :=
  { s with cpu := Function.update s.cpu i { s.cpu i with pc := pc } }

def BenchSys.setFlags (s : BenchSys) (u : Nat) (v : Unsigned) : BenchSys :=
  { s with flags := Function.update s.flags u v }

def BenchSys.access (s : BenchSys) (i : Nat) : SyncPc → BenchSys
  | .wakeup u p  => (s.setFlags u (p.step (s.flags u)).1).goto i ((p.step (s.flags u)).2.map (.wakeup u))
  | .halt p      => (s.setFlags i (p.step (s.flags i)).1).goto i ((p.step (s.flags i)).2.map .halt)
  | .barr2 p     => { s with barr2 := (p.step s.barr2).1 }.goto i ((p.step s.barr2).2.map .barr2)
  | .global p    => { s with global := (p.step s.global).1 }.goto i ((p.step s.global).2.map .global)
  | .signal      => { s with flag := s.flag.signal }.goto i none
  | .untilFlag p =>
    { s with flag := (p.step s.flag).1 }.goto i (match (p.step s.flag).2 with
      | .inl p'    => some (.untilFlag p')
      | .inr false => some (.untilFlag .loadNext)
      | .inr true  => none)

/-- One step of one of the `n` CPUs: its next call starts, or one access of the current one. -/
def BenchSys.step (n : Nat) (s : BenchSys) (i : Nat) : Option BenchSys :=
  if i < n then
    match (s.cpu i).pc with
    | some pc => some (s.access i pc)
    | none    =>
      match (s.cpu i).todo with
      | []        => none
      | op :: ops => some { s with cpu := Function.update s.cpu i ⟨ops, some op.begin⟩ }
  else none

/-- All CPUs are about to enter `bench_mem`; the global barrier has been used before. -/
def BenchSys.start (n : Nat) (epoch : Unsigned) : BenchSys where
  flags  := fun _ => 0
  barr2  := .init 2
  global := ⟨0, epoch, BitVec.ofNat 32 n⟩
  flag   := .init
  cpu    := fun i => ⟨benchMem n i, none⟩

def Left (n : Nat) (s : BenchSys) : Prop := ∀ i, i < n → s.cpu i = ⟨[], none⟩

/-- Some continuation takes all CPUs out of `bench_mem`. -/
def MayLeave (n : Nat) (s : BenchSys) : Prop := ∃ t, Reach (BenchSys.step n) s t ∧ Left n t

/-! ## Wake-ups and halts of CPU 1 -/

def BenchCpu.haltPc (c : BenchCpu) : Option HaltPc :=
  match c.pc with
  | some (.halt p) => some p
  | _              => none

def BenchCpu.wakePc (c : BenchCpu) : Option WakePc :=
  match c.pc with
  | some (.wakeup 1 p) => some p
  | _                  => none

/-- The calls of `smp_wakeup(1)` that have still to clear `SMP_FLAG_HALT`. -/
def BenchCpu.wakesLeft (c : BenchCpu) : Nat :=
  c.todo.count (.wakeup 1) + match c.wakePc with
    | none | some .poll => 0
    | some _            => 1

def BenchCpu.haltsLeft (c : BenchCpu) : Nat := c.todo.count .halt + c.haltPc.isSome.toNat

/-- The two CPUs as `Halt` sees them, with the wake-ups that have cleared the flag and the halts that have returned. -/
def BenchSys.haltSys (s : BenchSys) (cleared returned : Nat) : HaltSys :=
  ⟨s.flags 1, (s.cpu 1).haltPc, (s.cpu 0).wakePc, cleared, List.replicate returned 0⟩

/-- **The invariant**: CPU 0 does not halt, the others wake nobody, and of the two wake-ups of CPU 1 and its one halt
those that are over are as many as the flags say. -/
structure Matched (s : BenchSys) : Prop where
  noHalt : .halt ∉ (s.cpu 0).todo ∧ (s.cpu 0).haltPc = none
  noWake : ∀ i, i ≠ 0 → (∀ u, .wakeup u ∉ (s.cpu i).todo) ∧ ∀ u p, (s.cpu i).pc ≠ some (.wakeup u p)
  flags  : ∃ c r, FlagsInv (s.haltSys c r) ∧ c + (s.cpu 0).wakesLeft = 2 ∧ r + (s.cpu 1).haltsLeft = 1

theorem FlagsInv.congr {s s' : HaltSys} (h : FlagsInv s) (hf : s'.flags = s.flags) (ht : s'.target = s.target)
    (hw : s'.waker = s.waker) (hc : s'.cleared = s.cleared) (hr : s'.returned.length = s.returned.length) :
    FlagsInv s' := by
  cases h with
  | awake h1 h2 h3 h4 => exact .awake (hf.trans h1) (ht ▸ h2) (hw ▸ h3) (by rw [hc, hr, h4])
  | asleep h1 h2 h3 h4 => exact .asleep (hf.trans h1) (ht ▸ h2) (hw ▸ h3) (by rw [hc, hr, h4])
  | woken h1 h2 h3 h4 => exact .woken (hf.trans h1) (ht ▸ h2) (hw.trans h3) (by rw [hc, hr, h4])

theorem wakesLeft_eq {c : BenchCpu} (h : c.wakePc = none) : c.wakesLeft = c.todo.count (.wakeup 1) := by
  simp [BenchCpu.wakesLeft, h]

theorem haltPc_map (todo : List SyncOp) (p : Option HaltPc) : (BenchCpu.mk todo (p.map .halt)).haltPc = p := by
  cases p <;> rfl

theorem wakePc_map (todo : List SyncOp) (p : Option WakePc) : (BenchCpu.mk todo (p.map (.wakeup 1))).wakePc = p := by
  cases p <;> rfl

section Step
variable {n : Nat} {s s' : BenchSys} {i : Nat} {x : BenchCpu}

abbrev BenchSys.FlagsMatched (s : BenchSys) : Prop :=
  ∃ c r, FlagsInv (s.haltSys c r) ∧ c + (s.cpu 0).wakesLeft = 2 ∧ r + (s.cpu 1).haltsLeft = 1

/-- A step of CPU `i` that neither CPU 1's flags nor its halts nor its wake-ups notice. -/
theorem Matched.quiet (h : Matched s) (hcpu : s'.cpu = Function.update s.cpu i x) (hfl : s'.flags 1 = s.flags 1)
    (h0 : i = 0 → x.wakePc = (s.cpu 0).wakePc ∧ x.wakesLeft = (s.cpu 0).wakesLeft)
    (h1 : i = 1 → x.haltPc = (s.cpu 1).haltPc ∧ x.haltsLeft = (s.cpu 1).haltsLeft) : s'.FlagsMatched := by
  obtain ⟨c, r, hf, hc, hr⟩ := h.flags
  have e0 : (s'.cpu 0).wakePc = (s.cpu 0).wakePc ∧ (s'.cpu 0).wakesLeft = (s.cpu 0).wakesLeft := by
    rw [hcpu]
    by_cases hi : 0 = i
    · subst hi; rw [Function.update_self]; exact h0 rfl
    · rw [Function.update_of_ne hi]; exact ⟨rfl, rfl⟩
  have e1 : (s'.cpu 1).haltPc = (s.cpu 1).haltPc ∧ (s'.cpu 1).haltsLeft = (s.cpu 1).haltsLeft := by
    rw [hcpu]
    by_cases hi : 1 = i
    · subst hi; rw [Function.update_self]; exact h1 rfl
    · rw [Function.update_of_ne hi]; exact ⟨rfl, rfl⟩
  exact ⟨c, r, hf.congr hfl e1.1 e0.1 rfl rfl, by rw [e0.2]; exact hc, by rw [e1.2]; exact hr⟩

theorem Matched.update (h : Matched s) (hcpu : s'.cpu = Function.update s.cpu i x)
    (h0 : i = 0 → .halt ∉ x.todo ∧ x.haltPc = none)
    (hN : i ≠ 0 → (∀ u, .wakeup u ∉ x.todo) ∧ ∀ u p, x.pc ≠ some (.wakeup u p)) (hf : s'.FlagsMatched) : Matched s' where
  noHalt := by
    rw [hcpu]
    by_cases hi : 0 = i
    · subst hi; rw [Function.update_self]; exact h0 rfl
    · rw [Function.update_of_ne hi]; exact h.noHalt
  noWake := fun j hj => by
    rw [hcpu]
    by_cases hi : j = i
    · subst hi; rw [Function.update_self]; exact hN hj
    · rw [Function.update_of_ne hi]; exact h.noWake j hj
  flags  := hf

/-- CPU 0 starts a wake-up of CPU 1. -/
theorem Matched.beginWakeup (h : Matched s) {ops : List SyncOp} (hpc : (s.cpu 0).pc = none)
    (htodo : (s.cpu 0).todo = .wakeup 1 :: ops) :
    BenchSys.FlagsMatched { s with cpu := Function.update s.cpu 0 ⟨ops, some (SyncOp.wakeup 1).begin⟩ } := by
  obtain ⟨c, r, hf, hc, hr⟩ := h.flags
  have hwn : (s.cpu 0).wakePc = none := by simp [BenchCpu.wakePc, hpc]
  have hs : (s.haltSys c r).step .waker = some { s.haltSys c r with waker := some .await } := by
    simp [HaltSys.step, BenchSys.haltSys, hwn]
  refine ⟨c, r, (flagsInv_step hf hs).congr rfl rfl rfl rfl rfl, ?_, hr⟩
  simp only [BenchCpu.wakesLeft, BenchCpu.wakePc, hpc, htodo, List.count_cons_self] at hc
  simpa [BenchCpu.wakesLeft, BenchCpu.wakePc, SyncOp.begin] using hc

/-- CPU 1 starts its halt. -/
theorem Matched.beginHalt (h : Matched s) {ops : List SyncOp} (hpc : (s.cpu 1).pc = none)
    (htodo : (s.cpu 1).todo = .halt :: ops) :
    BenchSys.FlagsMatched { s with cpu := Function.update s.cpu 1 ⟨ops, some SyncOp.halt.begin⟩ } := by
  obtain ⟨c, r, hf, hc, hr⟩ := h.flags
  have htn : (s.cpu 1).haltPc = none := by simp [BenchCpu.haltPc, hpc]
  have hs : (s.haltSys c r).step .target = some { s.haltSys c r with target := some .set } := by
    simp [HaltSys.step, BenchSys.haltSys, htn]
  refine ⟨c, r, (flagsInv_step hf hs).congr rfl rfl rfl rfl rfl, hc, ?_⟩
  simp only [BenchCpu.haltsLeft, BenchCpu.haltPc, hpc, htodo, List.count_cons_self] at hr
  simpa [BenchCpu.haltsLeft, BenchCpu.haltPc, SyncOp.begin] using hr

theorem Matched.begin (h : Matched s) {op : SyncOp} {ops : List SyncOp} (hpc : (s.cpu i).pc = none)
    (htodo : (s.cpu i).todo = op :: ops) : Matched { s with cpu := Function.update s.cpu i ⟨ops, some op.begin⟩ } := by
  refine h.update rfl (fun hi => ?_) (fun hi => ?_) ?_
  · subst hi
    have hn := h.noHalt.1
    rw [htodo, List.mem_cons, not_or] at hn
    refine ⟨hn.2, ?_⟩
    cases op <;> first | rfl | exact absurd rfl hn.1
  · obtain ⟨hw, -⟩ := h.noWake i hi
    rw [htodo] at hw
    refine ⟨fun u hu => hw u (List.mem_cons_of_mem _ hu), fun u p he => ?_⟩
    cases op <;> cases he
    exact hw u (List.mem_cons_self ..)
  · by_cases h0 : i = 0 ∧ op = .wakeup 1
    · obtain ⟨rfl, rfl⟩ := h0
      exact h.beginWakeup hpc htodo
    by_cases h1 : i = 1 ∧ op = .halt
    · obtain ⟨rfl, rfl⟩ := h1
      exact h.beginHalt hpc htodo
    · refine h.quiet rfl rfl (fun hi => ?_) (fun hi => ?_)
      · subst hi
        have hop : op ≠ .wakeup 1 := fun ho => h0 ⟨rfl, ho⟩
        have hwp : (BenchCpu.mk ops (some op.begin)).wakePc = none := by
          unfold BenchCpu.wakePc
          split
          · rename_i hb
            cases op <;> cases hb
            exact absurd rfl hop
          · rfl
        have hold : (s.cpu 0).wakePc = none := by simp [BenchCpu.wakePc, hpc]
        refine ⟨hwp.trans hold.symm, ?_⟩
        simp only [BenchCpu.wakesLeft, hwp, hold, htodo]
        rw [List.count_cons_of_ne (by simpa using hop)]
      · subst hi
        have hop : op ≠ .halt := fun ho => h1 ⟨rfl, ho⟩
        have hhp : (BenchCpu.mk ops (some op.begin)).haltPc = none := by
          cases op <;> first | rfl | exact absurd rfl hop
        have hold : (s.cpu 1).haltPc = none := by simp [BenchCpu.haltPc, hpc]
        refine ⟨hhp.trans hold.symm, ?_⟩
        simp only [BenchCpu.haltsLeft, hhp, hold, htodo]
        rw [List.count_cons_of_ne (by simpa using hop)]

theorem Matched.access_quiet (h : Matched s) {todo : List SyncOp} {pc pc' : Option SyncPc} (hi : s.cpu i = ⟨todo, pc⟩)
    (hcpu : s'.cpu = Function.update s.cpu i ⟨todo, pc'⟩) (hfl : s'.flags = s.flags)
    (hq : ∀ q, pc = some q ∨ pc' = some q → (∀ p, q ≠ .halt p) ∧ ∀ u p, q ≠ .wakeup u p) : Matched s' := by
  have hh : ∀ o, (∀ q, o = some q → ∀ p, q ≠ .halt p) → (BenchCpu.mk todo o).haltPc = none := by
    intro o ho
    unfold BenchCpu.haltPc
    split
    · rename_i p hp; exact absurd rfl (ho _ hp p)
    · rfl
  have hw : ∀ o, (∀ q, o = some q → ∀ u p, q ≠ .wakeup u p) → (BenchCpu.mk todo o).wakePc = none := by
    intro o ho
    unfold BenchCpu.wakePc
    split
    · rename_i p hp; exact absurd rfl (ho _ hp 1 p)
    · rfl
  have hh0 := hh pc (fun q h => (hq q (.inl h)).1)
  have hh1 := hh pc' (fun q h => (hq q (.inr h)).1)
  have hw0 := hw pc (fun q h => (hq q (.inl h)).2)
  have hw1 := hw pc' (fun q h => (hq q (.inr h)).2)
  refine h.update hcpu (fun h0 => ?_) (fun h0 => ?_) (h.quiet hcpu (by rw [hfl]) (fun h0 => ?_) (fun h1 => ?_))
  · subst h0
    have := h.noHalt.1
    rw [hi] at this
    exact ⟨this, hh1⟩
  · have := (h.noWake i h0).1
    rw [hi] at this
    exact ⟨this, fun u p he => (hq _ (.inr he)).2 u p rfl⟩
  · subst h0
    rw [hi]
    exact ⟨hw1.trans hw0.symm, by simp only [BenchCpu.wakesLeft, hw0, hw1]⟩
  · subst h1
    rw [hi]
    exact ⟨hh1.trans hh0.symm, by simp only [BenchCpu.haltsLeft, hh0, hh1]⟩

theorem Matched.access_wakeup (h : Matched s) {u : Nat} {p : WakePc} (hpc : (s.cpu 0).pc = some (.wakeup u p)) :
    Matched (s.access 0 (.wakeup u p)) := by
  have hnew : ∀ o : Option WakePc, (BenchCpu.mk (s.cpu 0).todo (o.map (.wakeup u))).haltPc = none := by
    rintro (_ | q) <;> rfl
  refine h.update (i := 0) rfl (fun _ => ⟨h.noHalt.1, hnew _⟩) (fun h0 => absurd rfl h0) ?_
  by_cases hu : u = 1
  · subst hu
    obtain ⟨c, r, hf, hc, hr⟩ := h.flags
    have hw : (s.cpu 0).wakePc = some p := by simp [BenchCpu.wakePc, hpc]
    -- a step of the waker
    have hs := flagsInv_step hf (HaltSys.step_waker (s := s.haltSys c r) hw)
    have hw' : ((s.access 0 (.wakeup 1 p)).cpu 0).wakePc = (p.step (s.flags 1)).2 := by
      simp only [BenchSys.access, BenchSys.goto, BenchSys.setFlags, Function.update_self]
      exact wakePc_map _ _
    have htodo : ((s.access 0 (.wakeup 1 p)).cpu 0).todo = (s.cpu 0).todo := by
      simp [BenchSys.access, BenchSys.goto, BenchSys.setFlags]
    have h1 : (s.access 0 (.wakeup 1 p)).cpu 1 = s.cpu 1 := by
      simp [BenchSys.access, BenchSys.goto, BenchSys.setFlags]
    refine ⟨c + p.clears, r, hs.congr ?_ ?_ hw' rfl rfl, ?_, by rw [h1]; exact hr⟩
    · simp [BenchSys.haltSys, BenchSys.access, BenchSys.goto, BenchSys.setFlags]
    · simp only [BenchSys.haltSys, h1]
    · -- the count of wake-ups that have cleared the flag
      rw [← hc]
      simp only [BenchCpu.wakesLeft, htodo, hw, hw']
      cases p with
      | await => by_cases hm : isMaskClear (s.flags 1) smpFlagHalted = true <;> simp [WakePc.step, WakePc.clears, hm]
      | clear => rfl
      | clearWrite v => simp only [WakePc.step, WakePc.clears]; omega
      | poll => by_cases hm : isMaskSet (s.flags 1) smpFlagHalted = true <;> simp [WakePc.step, WakePc.clears, hm]
  · -- the flags of another CPU
    refine h.quiet (i := 0) rfl ?_ (fun _ => ?_) (fun h0 => absurd h0 (by decide))
    · simp [BenchSys.access, BenchSys.goto, BenchSys.setFlags, Ne.symm hu]
    · have hold : (s.cpu 0).wakePc = none := by
        unfold BenchCpu.wakePc
        rw [hpc]
        split
        · rename_i q hq
          cases hq
          exact absurd rfl hu
        · rfl
      have hw' : ∀ o : Option WakePc, (BenchCpu.mk (s.cpu 0).todo (o.map (.wakeup u))).wakePc = none := by
        rintro (_ | q)
        · rfl
        · unfold BenchCpu.wakePc
          split
          · rename_i q' hq
            cases hq
            exact absurd rfl hu
          · rfl
      exact ⟨(hw' _).trans hold.symm, (wakesLeft_eq (hw' _)).trans (wakesLeft_eq hold).symm⟩

theorem Matched.access_halt (h : Matched s) {p : HaltPc} (hi : i ≠ 0) (hpc : (s.cpu i).pc = some (.halt p)) :
    Matched (s.access i (.halt p)) := by
  have hnew : ∀ (o : Option HaltPc) u q, o.map SyncPc.halt ≠ some (.wakeup u q) := by rintro (_ | q) <;> simp
  refine h.update (i := i) rfl (fun h0 => absurd h0 hi) (fun _ => ⟨(h.noWake i hi).1, hnew _⟩) ?_
  by_cases h1 : i = 1
  · subst h1
    obtain ⟨c, r, hf, hc, hr⟩ := h.flags
    have ht : (s.cpu 1).haltPc = some p := by simp [BenchCpu.haltPc, hpc]
    -- a step of the target
    have hs := flagsInv_step hf (HaltSys.step_target (s := s.haltSys c r) ht)
    have ht' : ((s.access 1 (.halt p)).cpu 1).haltPc = (p.step (s.flags 1)).2 := by
      simp only [BenchSys.access, BenchSys.goto, BenchSys.setFlags, Function.update_self]
      exact haltPc_map _ _
    have htodo : ((s.access 1 (.halt p)).cpu 1).todo = (s.cpu 1).todo := by
      simp [BenchSys.access, BenchSys.goto, BenchSys.setFlags]
    have h0 : (s.access 1 (.halt p)).cpu 0 = s.cpu 0 := by
      simp [BenchSys.access, BenchSys.goto, BenchSys.setFlags]
    refine ⟨c, (if (p.step (s.flags 1)).2 = none then r + 1 else r), hs.congr ?_ ht' ?_ rfl ?_,
      by rw [h0]; exact hc, ?_⟩
    · simp [BenchSys.haltSys, BenchSys.access, BenchSys.goto, BenchSys.setFlags]
    · simp only [BenchSys.haltSys, h0]
    · change (List.replicate _ 0).length = (if (p.step (s.flags 1)).2 = none then _ else _ : List Nat).length
      split <;> simp [BenchSys.haltSys]
    · -- the count of halts that have returned
      simp only [BenchCpu.haltsLeft, ht, Option.isSome_some, Bool.toNat_true] at hr
      simp only [BenchCpu.haltsLeft, htodo, ht']
      cases (p.step (s.flags 1)).2 <;> simp <;> omega
  · refine h.quiet (i := i) rfl ?_ (fun h0 => absurd h0 hi) (fun h0 => absurd h0 h1)
    simp [BenchSys.access, BenchSys.goto, BenchSys.setFlags, Ne.symm h1]

theorem Matched.access (h : Matched s) {pc : SyncPc} (hpc : (s.cpu i).pc = some pc) : Matched (s.access i pc) := by
  have hi : s.cpu i = ⟨(s.cpu i).todo, some pc⟩ := by rw [← hpc]
  cases pc with
  | wakeup u p =>
    by_cases h0 : i = 0
    · subst h0; exact h.access_wakeup hpc
    · exact absurd hpc ((h.noWake i h0).2 u p)
  | halt p =>
    by_cases h0 : i = 0
    · subst h0
      have := h.noHalt.2
      simp [BenchCpu.haltPc, hpc] at this
    · exact h.access_halt h0 hpc
  | barr2 p =>
    refine h.access_quiet hi rfl rfl ?_
    rintro q (hq | hq)
    · cases hq; exact ⟨by simp, by simp⟩
    · obtain ⟨p', -, rfl⟩ := Option.map_eq_some_iff.1 hq; exact ⟨by simp, by simp⟩
  | global p =>
    refine h.access_quiet hi rfl rfl ?_
    rintro q (hq | hq)
    · cases hq; exact ⟨by simp, by simp⟩
    · obtain ⟨p', -, rfl⟩ := Option.map_eq_some_iff.1 hq; exact ⟨by simp, by simp⟩
  | signal =>
    refine h.access_quiet hi rfl rfl ?_
    rintro q (hq | hq) <;> cases hq
    exact ⟨by simp, by simp⟩
  | untilFlag p =>
    refine h.access_quiet hi rfl rfl ?_
    rintro q (hq | hq)
    · cases hq; exact ⟨by simp, by simp⟩
    · split at hq <;> cases hq <;> exact ⟨by simp, by simp⟩

theorem Matched.step (h : Matched s) (hs : s.step n i = some s') : Matched s' := by
  unfold BenchSys.step at hs
  split at hs
  · split at hs
    · rename_i pc hpc
      cases hs
      exact h.access hpc
    · rename_i hpc
      split at hs
      · cases hs
      · rename_i op ops htodo
        cases hs
        exact h.begin hpc htodo
  · cases hs

end Step

/-! ## Who leaves -/

theorem benchMem_zero {n : Nat} (hn : 2 ≤ n) :
    .halt ∉ benchMem n 0 ∧ (benchMem n 0).count (.wakeup 1) = 2 := by
  obtain ⟨k, rfl⟩ : ∃ k, n = k + 2 := ⟨n - 2, by omega⟩
  have hr : List.range' 1 (k + 2 - 1) = 1 :: List.range' 2 k := rfl
  have hnot : SyncOp.wakeup 1 ∉ (List.range' 2 k).map .wakeup := by
    intro hm
    obtain ⟨u, hu, he⟩ := List.mem_map.1 hm
    cases he
    have := (List.mem_range'_1.1 hu).1
    omega
  unfold benchMem
  rw [if_pos rfl, if_pos (by omega), hr]
  refine ⟨by simp [List.replicate], ?_⟩
  simp [List.replicate, List.count_append, List.count_eq_zero.2 hnot]

theorem benchMem_noWake (n i : Nat) (hi : i ≠ 0) (u : Nat) : .wakeup u ∉ benchMem n i := by
  unfold benchMem
  rw [if_neg hi]
  by_cases h : i = 1 <;> simp [h, List.replicate]

theorem matched_start {n : Nat} (hn : 2 ≤ n) (epoch : Unsigned) : Matched (.start n epoch) where
  noHalt := ⟨(benchMem_zero hn).1, rfl⟩
  noWake := fun i hi => ⟨benchMem_noWake n i hi, fun _ _ h => by cases h⟩
  flags  := by
    refine ⟨0, 0, .awake rfl trivial trivial rfl, ?_, by rfl⟩
    simp [BenchCpu.wakesLeft, BenchSys.start, (benchMem_zero hn).2, BenchCpu.wakePc]

/-- **Leaving takes as many halts of CPU 1 as wake-ups of it**, and there is one halt too few. -/
theorem Matched.not_left {n : Nat} {s : BenchSys} (h : Matched s) (hn : 2 ≤ n) : ¬ Left n s := by
  intro hl
  obtain ⟨c, r, hf, hc, hr⟩ := h.flags
  have h0 := hl 0 (by omega)
  have h1 := hl 1 (by omega)
  have hc' : c = 2 := by rw [h0] at hc; simpa [BenchCpu.wakesLeft, BenchCpu.wakePc] using hc
  have hr' : r = 1 := by rw [h1] at hr; simpa [BenchCpu.haltsLeft, BenchCpu.haltPc] using hr
  cases hf with
  | awake _ _ _ h4 =>
    simp only [BenchSys.haltSys, List.length_replicate] at h4
    omega
  | asleep _ h2 _ _ =>
    simp only [BenchSys.haltSys, h1, BenchCpu.haltPc] at h2
    exact h2
  | woken _ h2 _ _ =>
    simp only [BenchSys.haltSys, h1, BenchCpu.haltPc] at h2
    exact h2

theorem one_leaves (epoch : Unsigned) :
    ∃ t, exec (BenchSys.step 1) (.start 1 epoch) (List.replicate 7 0) = some t ∧ t.cpu 0 = ⟨[], none⟩ :=
  ⟨_, rfl, rfl⟩

/-- A run of one CPU has no choices: whatever state it is in lies on the way to the end. -/
theorem reach_of_replicate {s₀ s t : BenchSys} {k : Nat} (h : Reach (BenchSys.step 1) s₀ s)
    (ht : exec (BenchSys.step 1) s₀ (List.replicate k 0) = some t) (hend : t.cpu 0 = ⟨[], none⟩) :
    Reach (BenchSys.step 1) s t := by
  obtain ⟨j, hj⟩ : ∃ j, exec (BenchSys.step 1) s (List.replicate j 0) = some t := by
    refine h.inv (I := fun s => ∃ j, exec (BenchSys.step 1) s (List.replicate j 0) = some t) ⟨k, ht⟩ ?_
    rintro s i s' ⟨j, hj⟩ hs
    have hi : i = 0 := by
      by_contra hne
      unfold BenchSys.step at hs
      rw [if_neg (by omega)] at hs
      cases hs
    subst hi
    cases j with
    | zero =>
      cases hj
      simp [BenchSys.step, hend] at hs
    | succ j =>
      rw [List.replicate_succ, exec, hs] at hj
      exact ⟨j, hj⟩
  exact ⟨_, hj⟩

/-- With a second CPU nobody gets out. -/
theorem not_mayLeave {n : Nat} (hn : 2 ≤ n) (epoch : Unsigned) : ¬ MayLeave n (.start n epoch) := by
  rintro ⟨t, ht, hl⟩
  have hm : Matched t := ht.inv (matched_start hn epoch) (fun _ _ _ hm hs => hm.step hs)
  exact hm.not_left hn hl

/-- **`bench_mem` can be left from every state reached exactly when there is one CPU.** -/
theorem mayLeave_iff (n : Nat) (hn : 1 ≤ n) (epoch : Unsigned) :
    (∀ s, Reach (BenchSys.step n) (.start n epoch) s → MayLeave n s) ↔ n = 1 := by
  constructor
  · intro h
    by_contra hne
    exact not_mayLeave (show 2 ≤ n by omega) epoch (h _ (Reach.refl _))
  · rintro rfl s hs
    obtain ⟨t, ht, hend⟩ := one_leaves epoch
    refine ⟨t, reach_of_replicate hs ht hend, fun i hi => ?_⟩
    obtain rfl : i = 0 := by omega
    exact hend

theorem mayLeave_one : MayLeave 1 (.start 1 0) := (mayLeave_iff 1 (by decide) 0).2 rfl _ (Reach.refl _)

theorem mayLeave_two : ¬ ∀ s, Reach (BenchSys.step 2) (.start 2 0) s → MayLeave 2 s :=
  fun h => not_mayLeave (Nat.le_refl 2) 0 (h _ (Reach.refl _))

end SmpBoot
