import SmpBoot.Rounds
import SmpBoot.Halt
/-!
# Worker — the synchronisation of `bench_worker` in `benchmark.c`

In the round with load number `L` the CPUs 1 to `L` make load while CPU 0 measures, the others halt.  All CPUs meet in the
global barrier before a round and, around the store of `barr_dyn.max`, in its second call; within a round CPU 0 ends the
loads of a range through their flags, and those at work meet in `barr_dyn`.  A CPU makes any number of calls.  What is
measured, and on which buffers, is left out.
-/
namespace SmpBoot

open Interleave

/-- `load_nbrs[]` -/
def loadNbrs : List Nat := [0, 1, 3, 7]

def loadNbr (k : Nat) : Nat := loadNbrs.getD k 0

/-- The elements of `load_ranges[]`; `load_strides[]` has one. -/
def loadRanges : Nat := 4

/-- Where a CPU is in round `k` and range `r`. -/
inductive WorkPc (n : Nat) where
  | init (u : Nat)                          -- flag_init(&flags[u]): .flag
  | initNext (u : Nat)                      -- .next
  | sync1 (k : Nat)                         -- barrier(&global_barrier)
  | setMax (k : Nat)                        -- barr_dyn.max = load_nbr+1
  | sync2 (k : Nat)                         -- barrier(&global_barrier)
  | halt (k : Nat) (p : HaltPc)             -- smp_halt()
  | measure (k r : Nat)                     -- worker(..)
  | signal (k r u : Nat)                    -- flag_signal(&flags[u])
  | load (k r : Nat) (p : TrywaitPc)        -- load_until_flag(.., &flags[myid])
  | dyn (k r : Nat) (p : BarrierPc)         -- barrier(&barr_dyn)
  | wake (k : Nat) (u : Fin n) (p : WakePc) -- smp_wakeup(u)
  | last                                    -- barrier(&global_barrier), the final one
  | over
  deriving DecidableEq

/-- A CPU: the calls of `bench_worker` after this one, and where it is. -/
structure WorkCpu (n : Nat) where
  calls : Nat
  pc    : WorkPc n

structure WorkMem (n : Nat) where
  dyn    : Barrier            -- barr_dyn
  flag   : Nat → Flag         -- flags[]
  flags  : Fin n → Unsigned   -- stack[u].info.flags
  rounds : List Nat           -- the load numbers stored for barr_dyn.max so far
  halted : Fin n → Nat        -- how often smp_halt has returned
  woken  : Fin n → Nat        -- how often smp_wakeup(u) has returned

section Program
variable (n : Nat)

/-- `if (load_nbr >= cpu_online) { break; }` -/
def nextRound (k : Nat) : WorkPc n := if k < loadNbrs.length ∧ loadNbr k < n then .sync1 k else .last

/-- `for (u=load_nbr+1; u<cpu_online; u++) smp_wakeup(u);` from `u` on. -/
def wakeFrom (k u : Nat) : WorkPc n := if h : u < n then .wake k ⟨u, h⟩ .await else nextRound n (k + 1)

def startRange (i : Fin n) (k r : Nat) : WorkPc n := if i.val = 0 then .measure k r else .load k r .loadNext

/-- `for (unsigned u=1; u<=load_nbr; u++) flag_signal(&flags[u]);` from `u` on, then the barrier. -/
def signalFrom (k r u : Nat) : WorkPc n := if u ≤ loadNbr k then .signal k r u else .dyn k r .start

/-- Behind `barrier(&barr_dyn)`; without loads one range is enough. -/
def afterDyn (i : Fin n) (k r : Nat) : WorkPc n :=
  if loadNbr k ≠ 0 ∧ r + 1 < loadRanges then startRange n i k (r + 1)
  else if i.val = 0 then wakeFrom n k (loadNbr k + 1)
  else nextRound n (k + 1)

/-- `bench_worker` on CPU `i`, `n` CPUs being online. -/
def benchWorker : Script (Fin n) (WorkMem n) (WorkCpu n) where
  waits i c :=
    match c.pc with
    | .sync1 k => some { c with pc := if i.val = 0 then .setMax k else .sync2 k }
    | .sync2 k => some { c with pc := if loadNbr k < i.val then .halt k .set else startRange n i k 0 }
    | .last    => some (match c.calls with
        | 0         => { c with pc := .over }
        | calls + 1 => ⟨calls, .init 0⟩)
    | _        => none
  act i c m :=
    match c.pc with
    | .init u       => some ({ m with flag := Function.update m.flag u { m.flag u with flag := 0 } },
        { c with pc := .initNext u })
    | .initNext u   => some ({ m with flag := Function.update m.flag u { m.flag u with next := 0 } },
        { c with pc := if u + 1 < maxCpu then .init (u + 1) else nextRound n 0 })
    | .setMax k     => some ({ m with
          dyn := { m.dyn with max := BitVec.ofNat 32 (loadNbr k + 1) }
          rounds := m.rounds ++ [loadNbr k] },
        { c with pc := .sync2 k })
    | .halt k p     => some ({ m with
          flags := Function.update m.flags i (p.step (m.flags i)).1
          halted := if (p.step (m.flags i)).2 = none then Function.update m.halted i (m.halted i + 1) else m.halted },
        { c with pc := ((p.step (m.flags i)).2.map (.halt k)).getD (nextRound n (k + 1)) })
    | .measure k r  => some (m, { c with pc := signalFrom n k r 1 })
    | .signal k r u => some ({ m with flag := Function.update m.flag u (m.flag u).signal },
        { c with pc := signalFrom n k r (u + 1) })
    | .load k r p   => some ({ m with flag := Function.update m.flag i.val (p.step (m.flag i.val)).1 },
        { c with pc := match (p.step (m.flag i.val)).2 with
          | .inl p'    => .load k r p'
          | .inr false => .load k r .loadNext
          | .inr true  => .dyn k r .start })
    | .dyn k r p    => some ({ m with dyn := (p.step m.dyn).1 },
        { c with pc := ((p.step m.dyn).2.map (.dyn k r)).getD (afterDyn n i k r) })
    | .wake k u p   => some ({ m with
          flags := Function.update m.flags u (p.step (m.flags u)).1
          woken := if (p.step (m.flags u)).2 = none then Function.update m.woken u (m.woken u + 1) else m.woken },
        { c with pc := ((p.step (m.flags u)).2.map (.wake k u)).getD (wakeFrom n k (u.val + 1)) })
    | _             => none

/-- All CPUs call `bench_worker` for the first of `calls + 1` times; both barriers may have been used before. -/
def workerStart (calls : Nat) (epoch : Unsigned) (dyn : Barrier) (flag : Nat → Flag) :
    Rounds (Fin n) (WorkMem n) (WorkCpu n) where
  bar := ⟨0, epoch, BitVec.ofNat 32 n⟩
  thr := fun _ => ⟨0, none⟩
  mem := ⟨{ dyn with cnt := 0 }, flag, fun _ => 0, [], fun _ => 0, fun _ => 0⟩
  loc := fun _ => ⟨calls, .init 0⟩

end Program

/-- The rounds so far in which CPU `j` was no load. -/
def due (rounds : List Nat) (j : Nat) : Nat := rounds.countP (fun load => decide (load < j))

structure WorkerSafe {n : Nat} (s : Rounds (Fin (n + 2)) (WorkMem (n + 2)) (WorkCpu (n + 2))) : Prop where
  /-- Whoever uses `barr_dyn` belongs to the round it is set up for. -/
  inner   : ∀ i k r p, (s.loc i).pc = .dyn k r p → s.mem.dyn.max.toNat = loadNbr k + 1 ∧ i.val < s.mem.dyn.max.toNat ∧
    ∀ j k' r' p', (s.loc j).pc = .dyn k' r' p' → k' = k
  /-- `max` CPUs end an episode of `barr_dyn`, those with the numbers below `max`, all in the same range. -/
  episode : ∀ i k r v, (s.loc i).pc = .dyn k r (.storeEpoch v) →
    ∀ j, j.val < s.mem.dyn.max.toNat ↔ ∃ p, (s.loc j).pc = .dyn k r p
  /-- Nobody is inside when `max` is stored. -/
  setMax  : ∀ i k, (s.loc i).pc = .setMax k → ∀ j k' r p, (s.loc j).pc ≠ .dyn k' r p
  /-- Once for each round above whose load number it is a CPU halts and is woken, neither too early nor too late. -/
  halts   : ∀ j, s.mem.woken j ≤ s.mem.halted j ∧ s.mem.halted j ≤ due s.mem.rounds j ∧
    due s.mem.rounds j ≤ s.mem.woken j + 1
  early   : ∀ i k u p, (s.loc i).pc = .wake k u p → p ≠ .poll → s.mem.halted u < due s.mem.rounds u
  even    : ∀ i k, (s.loc i).pc = .setMax k ∨ (s.loc i).pc = .over →
    ∀ j, s.mem.halted j = due s.mem.rounds j ∧ s.mem.woken j = due s.mem.rounds j
  /-- While CPU 0 measures, all loads are on the same range and no flag is pending. -/
  measure : ∀ i k r, (s.loc i).pc = .measure k r →
    (∀ j k' r' p, (s.loc j).pc = .load k' r' p → k' = k ∧ r' = r) ∧
      ∀ u, u < maxCpu → (s.mem.flag u).flag = (s.mem.flag u).next

def WorkCpu.Over {n : Nat} (c : WorkCpu n) : Prop := c.pc = .over

/-! ## The invariant -/

/-- How many ranges there are in round `k`. -/
def rangesIn (k : Nat) : Nat := if loadNbr k = 0 then 1 else loadRanges

theorem rangesIn_le (k : Nat) : rangesIn k ≤ 4 := by
  unfold rangesIn loadRanges
  split <;> omega

def HaltAt.pending : HaltAt → Nat
  | .behind => 0
  | _       => 1

def WakeAt.pending : WakeAt → Nat
  | .behind => 0
  | _       => 1

/-- A CPU that halts in a round, `d` being the rounds in which it is due to. -/
structure Naps (d : Nat) (f : Unsigned) (t : HaltAt) (w : WakeAt) (halted woken : Nat) : Prop where
  paired : Paired f t w
  halted : halted + t.pending = d
  woken  : woken + w.pending = d

section Naps
variable {d : Nat} {f : Unsigned} {t : HaltAt} {w : WakeAt} {halted woken : Nat}

theorem Naps.halt {p : HaltPc} (h : Naps d f (.inside p) w halted woken) :
    Naps d (p.step f).1 (.next (p.step f).2) w (if (p.step f).2 = none then halted + 1 else halted) woken := by
  refine ⟨h.paired.halt, ?_, h.woken⟩
  have hd := h.halted
  cases (p.step f).2 with
  | none => simpa [HaltAt.pending] using hd
  | some p' => simpa [HaltAt.pending] using hd

theorem Naps.wakes (h : Naps d f t .before halted woken) : Naps d f t (.inside .await) halted woken :=
  ⟨h.paired.wakes, h.halted, h.woken⟩

theorem Naps.wake {p : WakePc} (h : Naps d f t (.inside p) halted woken) :
    Naps d (p.step f).1 t (.next (p.step f).2) halted (if (p.step f).2 = none then woken + 1 else woken) := by
  refine ⟨h.paired.wake, h.halted, ?_⟩
  have hd := h.woken
  cases (p.step f).2 with
  | none => simpa [WakeAt.pending] using hd
  | some p' => simpa [WakeAt.pending] using hd

/-- Its wake-ups are as many as its halts, or one behind. -/
theorem Naps.le (h : Naps d f t w halted woken) : woken ≤ halted ∧ halted ≤ d ∧ d ≤ woken + 1 := by
  have h1 := h.halted
  have h2 := h.woken
  have ht : t.pending ≤ 1 := by cases t <;> simp [HaltAt.pending]
  cases w with
  | behind =>
    obtain ⟨-, rfl⟩ := h.paired.behind
    simp only [HaltAt.pending, WakeAt.pending] at h1 h2
    omega
  | before =>
    simp only [WakeAt.pending] at h2
    omega
  | inside p =>
    simp only [WakeAt.pending] at h2
    omega

end Naps

/-- The next access of `flag_trywait` with its local variable, the flag being `f`. -/
def TrywaitPc.Fits (f : Flag) : TrywaitPc → Prop
  | .loadNext   => True
  | .loadFlag v => v = f.next + 1
  | .addNext    => f.next < f.flag

/-- A flag that was signalled `sig` times and waited for `pas` times in round `k`. -/
structure FlagAt (k : Nat) (f : Flag) (sig pas : Nat) : Prop where
  le    : pas ≤ sig
  count : ∃ b, b ≤ 4 * k ∧ f.flag.toNat = b + sig ∧ f.next.toNat = b + pas

/-- Before round `k`. -/
def Quiet (k : Nat) (f : Flag) : Prop := f.flag = f.next ∧ f.flag.toNat ≤ 4 * k

section Pc
variable {n : Nat}

/-- Where CPU `i` can be in round `k`, between the second barrier and the next one. -/
def WorkPc.At (k i : Nat) : WorkPc n → Prop
  | .halt k' _     => k' = k ∧ loadNbr k < i
  | .measure k' r  => k' = k ∧ i = 0 ∧ r < rangesIn k
  | .signal k' r u => k' = k ∧ i = 0 ∧ r < rangesIn k ∧ 1 ≤ u ∧ u ≤ loadNbr k
  | .load k' r _   => k' = k ∧ 1 ≤ i ∧ i ≤ loadNbr k ∧ r < rangesIn k
  | .dyn k' r _    => k' = k ∧ i ≤ loadNbr k ∧ r < rangesIn k
  | .wake k' u _   => k' = k ∧ i = 0 ∧ loadNbr k < u.val
  | .sync1 k'      => nextRound n (k + 1) = .sync1 k'
  | .last          => nextRound n (k + 1) = .last
  | _              => False

/-- A participant of `barr_dyn`; a range ends with an episode. -/
def WorkPc.member (k : Nat) : WorkPc n → Member
  | .measure _ r | .signal _ r _ | .load _ r _ => ⟨r, none⟩
  | .dyn _ r p                                 => ⟨r, some p⟩
  | _                                          => ⟨rangesIn k, none⟩

/-- How often CPU 0 has signalled flag `u` in this round. -/
def WorkPc.signalled (k u : Nat) : WorkPc n → Nat
  | .measure _ r   => r
  | .signal _ r u' => if u < u' then r + 1 else r
  | .dyn _ r _     => r + 1
  | _              => rangesIn k

/-- How often a load has found its flag signalled in this round. -/
def WorkPc.passed (k : Nat) : WorkPc n → Nat
  | .load _ r _ => r
  | .dyn _ r _  => r + 1
  | _           => rangesIn k

def WorkPc.Fits (f : Flag) : WorkPc n → Prop
  | .load _ _ p => p.Fits f
  | _           => True

def WorkPc.haltAt : WorkPc n → HaltAt
  | .halt _ p => .inside p
  | _         => .behind

def WorkPc.wakeAt (j : Fin n) : WorkPc n → WakeAt
  | .wake _ u p      => if j.val < u.val then .behind else if j = u then .inside p else .before
  | .sync1 _ | .last => .behind
  | _                => .before

end Pc

section Inv
variable {n k : Nat} {m m' : WorkMem (n + 2)} {pc : Fin (n + 2) → WorkPc (n + 2)} {i : Fin (n + 2)}

/-- The CPUs 0 to `load_nbr` as participants of `barr_dyn`. -/
def members (hL : loadNbr k < n + 2) (pc : Fin (n + 2) → WorkPc (n + 2)) (j : Fin (loadNbr k + 1)) : Member :=
  (pc ⟨j.val, by omega⟩).member k

/-- **Round `k` between two global barriers.** -/
structure Works (k : Nat) (hL : loadNbr k < n + 2) (m : WorkMem (n + 2)) (pc : Fin (n + 2) → WorkPc (n + 2)) : Prop where
  place  : ∀ i, (pc i).At k i.val
  inner  : ∃ E, Episode m.dyn E (members hL pc)
  flag   : ∀ i : Fin (n + 2), 1 ≤ i.val → i.val ≤ loadNbr k →
    FlagAt k (m.flag i.val) ((pc 0).signalled k i.val) ((pc i).passed k) ∧ (pc i).Fits (m.flag i.val)
  quiet  : ∀ u, u < maxCpu → u = 0 ∨ loadNbr k < u → Quiet k (m.flag u)
  awake  : ∀ i : Fin (n + 2), i.val ≤ loadNbr k →
    m.flags i = 0 ∧ m.halted i = due m.rounds i.val ∧ m.woken i = due m.rounds i.val
  asleep : ∀ i : Fin (n + 2), loadNbr k < i.val →
    Naps (due m.rounds i.val) (m.flags i) (pc i).haltAt ((pc 0).wakeAt i) (m.halted i) (m.woken i)

/-- Nobody uses `barr_dyn` or halts. -/
structure Idle (m : WorkMem (n + 2)) : Prop where
  cnt   : m.dyn.cnt = 0
  flags : ∀ i, m.flags i = 0 ∧ m.halted i = due m.rounds i.val ∧ m.woken i = due m.rounds i.val

/-- `barr_dyn` is set up for round `k`, and the CPUs above its load number are due to halt. -/
structure Began (k : Nat) (m : WorkMem (n + 2)) : Prop where
  cnt   : m.dyn.cnt = 0
  max   : m.dyn.max = BitVec.ofNat 32 (loadNbr k + 1)
  flags : ∀ i : Fin (n + 2), m.flags i = 0 ∧
    m.halted i + (if loadNbr k < i.val then 1 else 0) = due m.rounds i.val ∧
    m.woken i + (if loadNbr k < i.val then 1 else 0) = due m.rounds i.val

/-- In `flag_init`, which all CPUs run through: what a CPU has passed is 0. -/
def WorkPc.Inits (flag : Nat → Flag) : WorkPc (n + 2) → Prop
  | .init u     => u < maxCpu ∧ ∀ v, v < u → flag v = .init
  | .initNext u => u < maxCpu ∧ (flag u).flag = 0 ∧ ∀ v, v < u → flag v = .init
  | .sync1 k    => k = 0 ∧ ∀ v, v < maxCpu → flag v = .init
  | _           => False

/-- **Between two global barriers all CPUs are in the same part of the same round.** -/
inductive WorkInv (m : WorkMem (n + 2)) (l : Fin (n + 2) → WorkCpu (n + 2)) : Prop
  | init (calls : Nat) (pc : Fin (n + 2) → WorkPc (n + 2)) (hl : l = fun i => ⟨calls, pc i⟩) (idle : Idle m)
      (h : ∀ i, (pc i).Inits m.flag) : WorkInv m l
  | store (calls k : Nat) (pc : Fin (n + 2) → WorkPc (n + 2)) (hl : l = fun i => ⟨calls, pc i⟩)
      (hk : k < loadNbrs.length) (hL : loadNbr k < n + 2) (idle : Idle m) (quiet : ∀ u, u < maxCpu → Quiet k (m.flag u))
      (h0 : pc 0 = .setMax k) (h : ∀ i, i ≠ 0 → pc i = .sync2 k) : WorkInv m l
  | stored (calls k : Nat) (pc : Fin (n + 2) → WorkPc (n + 2)) (hl : l = fun i => ⟨calls, pc i⟩)
      (hk : k < loadNbrs.length) (hL : loadNbr k < n + 2) (began : Began k m)
      (quiet : ∀ u, u < maxCpu → Quiet k (m.flag u)) (h : ∀ i, pc i = .sync2 k) : WorkInv m l
  | work (calls k : Nat) (pc : Fin (n + 2) → WorkPc (n + 2)) (hl : l = fun i => ⟨calls, pc i⟩)
      (hk : k < loadNbrs.length) (hL : loadNbr k < n + 2) (h : Works k hL m pc) : WorkInv m l
  | ended (idle : Idle m) (h : ∀ i, (l i).pc = .over) : WorkInv m l

/-! ### One step of a round -/

theorem update_proj {α : Type} {f : WorkPc (n + 2) → α} {y : WorkPc (n + 2)} (h : f y = f (pc i)) (j : Fin (n + 2)) :
    f (Function.update pc i y j) = f (pc j) := by
  by_cases hj : j = i
  · subst hj; rw [Function.update_self, h]
  · rw [Function.update_of_ne hj]

theorem members_update {hL : loadNbr k < n + 2} (hi : i.val ≤ loadNbr k) (y : WorkPc (n + 2)) :
    members hL (Function.update pc i y) = Function.update (members hL pc) ⟨i.val, by omega⟩ (y.member k) := by
  funext j
  by_cases hj : j = ⟨i.val, by omega⟩
  · subst hj
    rw [Function.update_self, members, Function.update_self]
  · have hne : (⟨j.val, by omega⟩ : Fin (n + 2)) ≠ i := by
      intro he
      have hv : j.val = i.val := congrArg Fin.val he
      exact hj (Fin.ext hv)
    rw [Function.update_of_ne hj, members, members, Function.update_of_ne hne]

theorem place_update {y : WorkPc (n + 2)} (h : ∀ j, (pc j).At k j.val) (hy : y.At k i.val) :
    ∀ j, (Function.update pc i y j).At k j.val :=
  (Function.forall_update_iff pc fun j x => x.At k j.val).2 ⟨hy, fun j _ => h j⟩

theorem nextRound_at (k i : Nat) : (nextRound n (k + 1)).At k i := by
  cases h : nextRound n (k + 1) with
  | sync1 k' => exact h
  | last => exact h
  | _ =>
    unfold nextRound at h
    split at h <;> cases h

theorem nextRound_cases (n k : Nat) : (k < loadNbrs.length ∧ loadNbr k < n ∧ nextRound n k = .sync1 k) ∨
    nextRound n k = .last := by
  unfold nextRound
  split
  · rename_i h
    exact .inl ⟨h.1, h.2, rfl⟩
  · exact .inr rfl

/-- A CPU at work takes a step: what the halting CPUs see of it is that CPU 0 begins to wake them. -/
theorem Works.worker {hL : loadNbr k < n + 2} (h : Works k hL m pc) (hi : i.val ≤ loadNbr k) {y : WorkPc (n + 2)}
    (hy : y.At k i.val) {d : Barrier} {f : Nat → Flag} (hinner : ∃ E, Episode d E (members hL (Function.update pc i y)))
    (hflag : ∀ j : Fin (n + 2), 1 ≤ j.val → j.val ≤ loadNbr k →
      FlagAt k (f j.val) ((Function.update pc i y 0).signalled k j.val) ((Function.update pc i y j).passed k) ∧
        (Function.update pc i y j).Fits (f j.val))
    (hquiet : ∀ u, u = 0 ∨ loadNbr k < u → f u = m.flag u)
    (hwake : i = 0 → ∀ j : Fin (n + 2), loadNbr k < j.val → y.wakeAt j = (pc 0).wakeAt j ∨
      (pc 0).wakeAt j = .before ∧ y.wakeAt j = .inside .await) :
    Works k hL { m with dyn := d, flag := f } (Function.update pc i y) where
  place  := place_update h.place hy
  inner  := hinner
  flag   := hflag
  quiet  := fun u hu hr => by
    show Quiet k (f u)
    rw [hquiet u hr]
    exact h.quiet u hu hr
  awake  := h.awake
  asleep := fun j hj => by
    have hji : j ≠ i := by
      rintro rfl
      omega
    have ha := h.asleep j hj
    rw [Function.update_of_ne hji]
    by_cases h0 : i = 0
    · subst h0
      rw [Function.update_self]
      rcases hwake rfl j hj with hw | ⟨hb, hw⟩
      · rw [hw]; exact ha
      · rw [hb] at ha
        rw [hw]
        exact ha.wakes
    · rw [Function.update_of_ne (Ne.symm h0)]
      exact ha

/-- A CPU at work that stays in its range, or comes to `barr_dyn`. -/
theorem Works.inner_update {hL : loadNbr k < n + 2} (h : Works k hL m pc) (hi : i.val ≤ loadNbr k) {r : Nat}
    (hr : (pc i).member k = ⟨r, none⟩) {y : WorkPc (n + 2)} (hy : y.member k = ⟨r, none⟩ ∨ y.member k = ⟨r, some .start⟩) :
    ∃ E, Episode m.dyn E (members hL (Function.update pc i y)) := by
  obtain ⟨E, hE⟩ := h.inner
  have hmem : members hL pc ⟨i.val, by omega⟩ = ⟨r, none⟩ := hr
  rw [members_update hi]
  rcases hy with hy | hy
  · refine ⟨E, ?_⟩
    rw [hy, ← hmem, Function.update_eq_self]
    exact hE
  · have hcall := hE.call (i := ⟨i.val, by omega⟩) (by rw [hmem])
    rw [hmem] at hcall
    rw [hy]
    exact ⟨E, hcall⟩

theorem signalFrom_at {r u : Nat} (hr : r < rangesIn k) (hu : 1 ≤ u) : (signalFrom (n + 2) k r u).At k 0 := by
  unfold signalFrom
  split
  · exact ⟨rfl, rfl, hr, hu, by assumption⟩
  · exact ⟨rfl, Nat.zero_le _, hr⟩

theorem signalFrom_member (k r u : Nat) : (signalFrom (n + 2) k r u).member k = ⟨r, none⟩ ∨
    (signalFrom (n + 2) k r u).member k = ⟨r, some .start⟩ := by
  unfold signalFrom
  split
  · exact .inl rfl
  · exact .inr rfl

theorem signalFrom_signalled {r u j : Nat} (hj : j ≤ loadNbr k) :
    (signalFrom (n + 2) k r u).signalled k j = if j < u then r + 1 else r := by
  unfold signalFrom
  split
  · rfl
  · exact (if_pos (by omega)).symm

theorem signalFrom_wakeAt (k r u : Nat) (j : Fin (n + 2)) : (signalFrom (n + 2) k r u).wakeAt j = .before := by
  unfold signalFrom
  split <;> rfl

theorem Works.measure {hL : loadNbr k < n + 2} (h : Works k hL m pc) {r : Nat} (hpc : pc 0 = .measure k r) :
    Works k hL m (Function.update pc 0 (signalFrom (n + 2) k r 1)) := by
  have hat := h.place 0
  rw [hpc] at hat
  refine h.worker (Nat.zero_le _) (signalFrom_at hat.2.2 (Nat.le_refl 1)) ?_ (fun j hj1 hjL => ?_) (fun _ _ => rfl)
    (fun _ j _ => .inl ?_)
  · exact h.inner_update (Nat.zero_le _) (by rw [hpc]; rfl) (signalFrom_member k r 1)
  · have hj0 : j ≠ 0 := by
      rintro rfl
      exact absurd hj1 (by simp)
    have hf := h.flag j hj1 hjL
    rw [Function.update_self, Function.update_of_ne hj0, signalFrom_signalled hjL, if_neg (by omega)]
    rw [hpc] at hf
    exact hf
  · rw [signalFrom_wakeAt, hpc]
    rfl

theorem FlagAt.signal {f : Flag} {sig pas : Nat} (h : FlagAt k f sig pas) (hk : 4 * k + sig < 2 ^ 31) :
    FlagAt k f.signal (sig + 1) pas := by
  obtain ⟨b, hb, hf, hn⟩ := h.count
  have hle := h.le
  refine ⟨by omega, b, hb, ?_, hn⟩
  simp only [Flag.signal]
  bv_omega

theorem FlagAt.pass {f : Flag} {sig pas : Nat} (h : FlagAt k f sig pas) (hlt : f.next < f.flag) :
    FlagAt k { f with next := f.next + 1 } sig (pas + 1) := by
  obtain ⟨b, hb, hf, hn⟩ := h.count
  rw [BitVec.lt_def] at hlt
  refine ⟨by omega, b, hb, hf, ?_⟩
  simp only
  bv_omega

theorem WorkPc.Fits.signal {f : Flag} {x : WorkPc (n + 2)} (h : x.Fits f) (hf : f.flag.toNat < 2 ^ 31) :
    x.Fits f.signal := by
  cases x with
  | load k' r p =>
    cases p with
    | loadNext => trivial
    | loadFlag v => exact h
    | addNext =>
      simp only [WorkPc.Fits, TrywaitPc.Fits, Flag.signal] at h ⊢
      bv_omega
  | _ => trivial

theorem FlagAt.flag_le {f : Flag} {sig pas : Nat} (h : FlagAt k f sig pas) : f.flag.toNat ≤ 4 * k + sig := by
  obtain ⟨b, hb, hf, -⟩ := h.count
  omega

theorem Works.signal {hL : loadNbr k < n + 2} (h : Works k hL m pc) (hk : k < loadNbrs.length) {r u : Nat}
    (hpc : pc 0 = .signal k r u) :
    Works k hL { m with flag := Function.update m.flag u (m.flag u).signal }
      (Function.update pc 0 (signalFrom (n + 2) k r (u + 1))) := by
  have hk4 : k < 4 := hk
  have hat := h.place 0
  rw [hpc] at hat
  obtain ⟨-, -, hr, hu1, huL⟩ := hat
  have hr4 := rangesIn_le k
  refine h.worker (Nat.zero_le _) (signalFrom_at hr (by omega)) ?_ (fun j hj1 hjL => ?_) (fun v hv => ?_)
    (fun _ j _ => .inl ?_)
  · exact h.inner_update (Nat.zero_le _) (by rw [hpc]; rfl) (signalFrom_member k r (u + 1))
  · have hj0 : j ≠ 0 := by
      rintro rfl
      exact absurd hj1 (by simp)
    have hf := h.flag j hj1 hjL
    rw [hpc] at hf
    rw [Function.update_self, Function.update_of_ne hj0, signalFrom_signalled hjL]
    by_cases hju : j.val = u
    · -- the flag that is signalled
      subst hju
      simp only [WorkPc.signalled, Nat.lt_irrefl, if_false] at hf
      rw [Function.update_self, if_pos (Nat.lt_succ_self _)]
      have hle := hf.1.flag_le
      exact ⟨hf.1.signal (by omega), hf.2.signal (by omega)⟩
    · rw [Function.update_of_ne hju]
      have hlt : j.val < u + 1 ↔ j.val < u := by omega
      simp only [WorkPc.signalled] at hf
      simp only [hlt]
      exact hf
  · rw [Function.update_of_ne (by omega)]
  · rw [signalFrom_wakeAt, hpc]
    rfl

/-- A load that stays in its range, or comes to `barr_dyn`. -/
theorem Works.loadTo {hL : loadNbr k < n + 2} (h : Works k hL m pc) {r : Nat} {p : TrywaitPc}
    (hpc : pc i = .load k r p) {f : Flag} {y : WorkPc (n + 2)} (hy : y.At k i.val)
    (hmem : y.member k = ⟨r, none⟩ ∨ y.member k = ⟨r, some .start⟩)
    (hf : FlagAt k f ((pc 0).signalled k i.val) (y.passed k) ∧ y.Fits f) :
    Works k hL { m with flag := Function.update m.flag i.val f } (Function.update pc i y) := by
  have hat := h.place i
  rw [hpc] at hat
  obtain ⟨-, hi1, hiL, -⟩ := hat
  have h0i : (0 : Fin (n + 2)) ≠ i := by
    rintro rfl
    exact absurd hi1 (by simp)
  refine h.worker hiL hy (h.inner_update hiL (by rw [hpc]; rfl) hmem) (fun j hj1 hjL => ?_) (fun v hv => ?_)
    (fun hi => absurd hi.symm h0i)
  · rw [Function.update_of_ne h0i]
    by_cases hji : j = i
    · subst hji
      rw [Function.update_self, Function.update_self]
      exact hf
    · rw [Function.update_of_ne hji, Function.update_of_ne (fun hv => hji (Fin.ext hv))]
      exact h.flag j hj1 hjL
  · rw [Function.update_of_ne (by omega)]

theorem Works.load {hL : loadNbr k < n + 2} (h : Works k hL m pc) (hk : k < loadNbrs.length) {r : Nat} {p : TrywaitPc}
    (hpc : pc i = .load k r p) :
    Works k hL { m with flag := Function.update m.flag i.val (p.step (m.flag i.val)).1 }
      (Function.update pc i (match (p.step (m.flag i.val)).2 with
        | .inl p'    => .load k r p'
        | .inr false => .load k r .loadNext
        | .inr true  => .dyn k r .start)) := by
  have hat := h.place i
  rw [hpc] at hat
  have hr := hat.2.2.2
  have hf := h.flag i hat.2.1 hat.2.2.1
  rw [hpc] at hf
  cases p with
  | loadNext => exact h.loadTo hpc hat (.inl rfl) ⟨hf.1, rfl⟩
  | loadFlag v =>
    simp only [TrywaitPc.step]
    by_cases hv : (m.flag i.val).flag < v
    · rw [if_pos hv]
      exact h.loadTo hpc hat (.inl rfl) ⟨hf.1, trivial⟩
    · rw [if_neg hv]
      refine h.loadTo hpc hat (.inl rfl) ⟨hf.1, ?_⟩
      have hv' : v = (m.flag i.val).next + 1 := hf.2
      have hk4 : k < 4 := hk
      have hr4 := rangesIn_le k
      obtain ⟨b, hb, -, hn⟩ := hf.1.count
      simp only [WorkPc.passed] at hn
      show (m.flag i.val).next < (m.flag i.val).flag
      subst hv'
      bv_omega
  | addNext =>
    exact h.loadTo hpc ⟨rfl, hat.2.2.1, hr⟩ (.inr rfl) ⟨hf.1.pass hf.2, trivial⟩

/-! `barr_dyn` -/

theorem startRange_at {r : Nat} (hi : i.val ≤ loadNbr k) (hr : r < rangesIn k) :
    (startRange (n + 2) i k r).At k i.val := by
  unfold startRange
  split
  · exact ⟨rfl, by assumption, hr⟩
  · exact ⟨rfl, by omega, hi, hr⟩

theorem startRange_member (i : Fin (n + 2)) (k r : Nat) : (startRange (n + 2) i k r).member k = ⟨r, none⟩ := by
  unfold startRange
  split <;> rfl

theorem wakeFrom_at {u : Nat} (hu : loadNbr k < u) : (wakeFrom (n + 2) k u).At k 0 := by
  unfold wakeFrom
  split
  · exact ⟨rfl, rfl, hu⟩
  · exact nextRound_at k 0

theorem nextRound_proj (n k : Nat) : (nextRound (n + 2) (k + 1)).member k = ⟨rangesIn k, none⟩ ∧
    (∀ u, (nextRound (n + 2) (k + 1)).signalled k u = rangesIn k) ∧ (nextRound (n + 2) (k + 1)).passed k = rangesIn k ∧
    (∀ f, (nextRound (n + 2) (k + 1)).Fits f) ∧ (nextRound (n + 2) (k + 1)).haltAt = .behind ∧
    ∀ j, (nextRound (n + 2) (k + 1)).wakeAt j = .behind := by
  rcases nextRound_cases (n + 2) (k + 1) with ⟨-, -, h⟩ | h
  · rw [h]
    exact ⟨rfl, fun _ => rfl, rfl, fun _ => trivial, rfl, fun _ => rfl⟩
  · rw [h]
    exact ⟨rfl, fun _ => rfl, rfl, fun _ => trivial, rfl, fun _ => rfl⟩

/-- What CPU 0 does behind the ranges. -/
theorem wakeFrom_proj (n k u : Nat) : (wakeFrom (n + 2) k u).member k = ⟨rangesIn k, none⟩ ∧
    (∀ v, (wakeFrom (n + 2) k u).signalled k v = rangesIn k) ∧ ∀ f, (wakeFrom (n + 2) k u).Fits f := by
  unfold wakeFrom
  split
  · exact ⟨rfl, fun _ => rfl, fun _ => trivial⟩
  · have hn := nextRound_proj n k
    exact ⟨hn.1, hn.2.1, hn.2.2.2.1⟩

theorem wakeFrom_wakeAt {k u : Nat} {j : Fin (n + 2)} (hj : u ≤ j.val) :
    (wakeFrom (n + 2) k u).wakeAt j = if j.val = u then .inside .await else .before := by
  unfold wakeFrom
  rw [dif_pos (by omega)]
  simp only [WorkPc.wakeAt, if_neg (Nat.not_lt.2 hj), Fin.ext_iff]

/-- Behind an episode of `barr_dyn` the next range begins, or all ranges are over. -/
theorem afterDyn_cases (i : Fin (n + 2)) {k r : Nat} (hr : r < rangesIn k) :
    (r + 1 < rangesIn k ∧ afterDyn (n + 2) i k r = startRange (n + 2) i k (r + 1)) ∨
    (r + 1 = rangesIn k ∧ i.val = 0 ∧ afterDyn (n + 2) i k r = wakeFrom (n + 2) k (loadNbr k + 1)) ∨
    (r + 1 = rangesIn k ∧ i.val ≠ 0 ∧ afterDyn (n + 2) i k r = nextRound (n + 2) (k + 1)) := by
  unfold afterDyn rangesIn at *
  by_cases h0 : loadNbr k = 0
  · rw [if_pos h0] at *
    rw [if_neg (by simp [h0])]
    by_cases hi : i.val = 0
    · exact .inr (.inl ⟨by omega, hi, if_pos hi⟩)
    · exact .inr (.inr ⟨by omega, hi, if_neg hi⟩)
  · rw [if_neg h0] at *
    by_cases hr1 : r + 1 < loadRanges
    · exact .inl ⟨hr1, if_pos ⟨h0, hr1⟩⟩
    · rw [if_neg (fun h => hr1 h.2)]
      by_cases hi : i.val = 0
      · exact .inr (.inl ⟨by omega, hi, if_pos hi⟩)
      · exact .inr (.inr ⟨by omega, hi, if_neg hi⟩)

structure AfterDyn (k r : Nat) (i : Fin (n + 2)) (y : WorkPc (n + 2)) : Prop where
  place     : y.At k i.val
  signalled : i = 0 → ∀ u, y.signalled k u = r + 1
  passed    : i ≠ 0 → y.passed k = r + 1
  fits      : ∀ f, y.Fits f
  wakeAt    : i = 0 → ∀ j : Fin (n + 2), loadNbr k < j.val → y.wakeAt j = .before ∨ y.wakeAt j = .inside .await

theorem afterDyn_spec {r : Nat} (hi : i.val ≤ loadNbr k) (hr : r < rangesIn k) :
    AfterDyn k r i (afterDyn (n + 2) i k r) ∧ (afterDyn (n + 2) i k r).member k = ⟨r + 1, none⟩ := by
  rcases afterDyn_cases i hr with ⟨hr1, he⟩ | ⟨hr1, hi0, he⟩ | ⟨hr1, hi0, he⟩
  · rw [he]
    refine ⟨⟨startRange_at hi hr1, fun h0 u => ?_, fun h0 => ?_, fun f => ?_, fun h0 j _ => .inl ?_⟩,
      startRange_member i k (r + 1)⟩
    · rw [h0]; rfl
    · have hi0 : i.val ≠ 0 := fun h => h0 (Fin.ext h)
      unfold startRange
      rw [if_neg hi0]
      rfl
    · unfold startRange
      split <;> trivial
    · rw [h0]; rfl
  · have h0 : i = 0 := Fin.ext hi0
    obtain ⟨h1, h2, h3⟩ := wakeFrom_proj n k (loadNbr k + 1)
    rw [← hr1] at h1 h2
    rw [he]
    refine ⟨⟨?_, fun _ => h2, fun hne => absurd h0 hne, h3, fun _ j hj => ?_⟩, h1⟩
    · rw [hi0]
      exact wakeFrom_at (Nat.lt_succ_self _)
    · rw [wakeFrom_wakeAt hj]
      split
      · exact .inr rfl
      · exact .inl rfl
  · have h0 : i ≠ 0 := fun h => hi0 (congrArg Fin.val h)
    obtain ⟨h1, -, h3, h4, -⟩ := nextRound_proj n k
    rw [← hr1] at h1 h3
    rw [he]
    exact ⟨⟨nextRound_at k i.val, fun h => absurd h h0, fun _ => h3, h4, fun h => absurd h h0⟩, h1⟩

theorem Works.dyn {hL : loadNbr k < n + 2} (hN : n + 2 < 2 ^ 32) (h : Works k hL m pc) {r : Nat} {p : BarrierPc}
    (hpc : pc i = .dyn k r p) :
    Works k hL { m with dyn := (p.step m.dyn).1 }
      (Function.update pc i (((p.step m.dyn).2.map (.dyn k r)).getD (afterDyn (n + 2) i k r))) := by
  have hat := h.place i
  rw [hpc] at hat
  obtain ⟨-, hiL, hr⟩ := hat
  obtain ⟨hspec, hmem⟩ := afterDyn_spec hiL hr
  have hmi : members hL pc ⟨i.val, by omega⟩ = ⟨r, some p⟩ := congrArg (WorkPc.member k) hpc
  obtain ⟨E, hE⟩ := h.inner
  have hstep := hE.step (i := ⟨i.val, by omega⟩) (by rw [Fintype.card_fin]; omega) (congrArg Member.pc hmi)
  rw [hmi] at hstep
  -- what CPU `i` does next, in the two cases at once
  obtain ⟨y, hy, hyspec, hymem⟩ : ∃ y, y = ((p.step m.dyn).2.map (.dyn k r)).getD (afterDyn (n + 2) i k r) ∧
      AfterDyn k r i y ∧ y.member k = (Member.mk r (some p)).after (p.step m.dyn).2 := by
    refine ⟨_, rfl, ?_⟩
    cases (p.step m.dyn).2 with
    | none => exact ⟨hspec, hmem⟩
    | some p' => exact ⟨⟨⟨rfl, hiL, hr⟩, fun _ _ => rfl, fun _ => rfl, fun _ => trivial, fun _ _ _ => .inl rfl⟩, rfl⟩
  rw [← hy]
  refine h.worker hiL hyspec.place ⟨E + p.ends, ?_⟩ (fun j hj1 hjL => ?_) (fun _ _ => rfl) (fun h0 j hj => ?_)
  · rw [members_update hiL, hymem]
    exact hstep
  · have hf := h.flag j hj1 hjL
    have hsig : (Function.update pc i y 0).signalled k j.val = (pc 0).signalled k j.val := by
      by_cases h0 : i = 0
      · subst h0
        rw [Function.update_self, hyspec.signalled rfl, hpc]
        rfl
      · rw [Function.update_of_ne (Ne.symm h0)]
    have hpas : (Function.update pc i y j).passed k = (pc j).passed k ∧
        (Function.update pc i y j).Fits (m.flag j.val) := by
      by_cases hji : j = i
      · subst hji
        have h0 : j ≠ 0 := by
          rintro rfl
          exact absurd hj1 (by simp)
        rw [Function.update_self, hyspec.passed h0, hpc]
        exact ⟨rfl, hyspec.fits _⟩
      · rw [Function.update_of_ne hji]
        exact ⟨rfl, hf.2⟩
    rw [hsig, hpas.1]
    exact ⟨hf.1, hpas.2⟩
  · subst h0
    rw [hpc]
    exact (hyspec.wakeAt rfl j hj).imp_right fun hw => ⟨rfl, hw⟩

/-! Halts and wake-ups -/

theorem ite_update_of_ne {c : Prop} [Decidable c] {f : Fin (n + 2) → Nat} {i j : Fin (n + 2)} (hj : j ≠ i) (x : Nat) :
    (if c then Function.update f i x else f) j = f j := by
  split
  · exact Function.update_of_ne hj _ _
  · rfl

theorem ite_update_self {c : Prop} [Decidable c] (f : Fin (n + 2) → Nat) (i : Fin (n + 2)) :
    (if c then Function.update f i (f i + 1) else f) i = if c then f i + 1 else f i := by
  split
  · exact Function.update_self _ _ _
  · rfl

theorem Works.halt {hL : loadNbr k < n + 2} (h : Works k hL m pc) {p : HaltPc} (hpc : pc i = .halt k p) :
    Works k hL { m with
        flags := Function.update m.flags i (p.step (m.flags i)).1
        halted := if (p.step (m.flags i)).2 = none then Function.update m.halted i (m.halted i + 1) else m.halted }
      (Function.update pc i (((p.step (m.flags i)).2.map (.halt k)).getD (nextRound (n + 2) (k + 1)))) := by
  have hat := h.place i
  rw [hpc] at hat
  have hLi : loadNbr k < i.val := hat.2
  have h0i : (0 : Fin (n + 2)) ≠ i := by
    rintro rfl
    exact absurd hLi (by simp)
  have hne : ∀ j : Fin (n + 2), j.val ≤ loadNbr k → j ≠ i := by
    rintro j hj rfl
    omega
  obtain ⟨y, hy, hyat, hyhalt⟩ : ∃ y, y = ((p.step (m.flags i)).2.map (.halt k)).getD (nextRound (n + 2) (k + 1)) ∧
      y.At k i.val ∧ y.haltAt = .next (p.step (m.flags i)).2 := by
    refine ⟨_, rfl, ?_⟩
    cases (p.step (m.flags i)).2 with
    | none => exact ⟨nextRound_at k i.val, (nextRound_proj n k).2.2.2.2.1⟩
    | some p' => exact ⟨⟨rfl, hLi⟩, rfl⟩
  rw [← hy]
  refine ⟨place_update h.place hyat, ?_, fun j hj1 hjL => ?_, h.quiet, fun j hj => ?_, fun j hj => ?_⟩
  · have hmem : members hL (Function.update pc i y) = members hL pc := by
      funext j
      exact congrArg (WorkPc.member k) (Function.update_of_ne (hne _ (Nat.le_of_lt_succ j.isLt)) y pc)
    rw [hmem]
    exact h.inner
  · rw [Function.update_of_ne h0i, Function.update_of_ne (hne j hjL)]
    exact h.flag j hj1 hjL
  · simp only [Function.update_of_ne (hne j hj), ite_update_of_ne (hne j hj)]
    exact h.awake j hj
  · rw [Function.update_of_ne h0i]
    have ha := h.asleep j hj
    by_cases hji : j = i
    · subst hji
      rw [hpc] at ha
      rw [Function.update_self, hyhalt]
      simp only [Function.update_self, ite_update_self]
      exact ha.halt
    · simp only [Function.update_of_ne hji, ite_update_of_ne hji]
      exact ha

theorem wakeFrom_behind {k u : Nat} {j : Fin (n + 2)} (hj : j.val < u) : (wakeFrom (n + 2) k u).wakeAt j = .behind := by
  unfold wakeFrom
  split
  · exact if_pos hj
  · exact (nextRound_proj n k).2.2.2.2.2 j

/-- CPU 0 behind an access of `smp_wakeup(u)`. -/
structure AfterWake (k : Nat) (u : Fin (n + 2)) (p : WakePc) (next : Option WakePc) (y : WorkPc (n + 2)) : Prop where
  place     : y.At k 0
  member    : y.member k = ⟨rangesIn k, none⟩
  signalled : ∀ v, y.signalled k v = rangesIn k
  target    : y.wakeAt u = .next next
  others    : ∀ j, j ≠ u → y.wakeAt j = (WorkPc.wake k u p).wakeAt j ∨
    (WorkPc.wake k u p).wakeAt j = .before ∧ y.wakeAt j = .inside .await

theorem afterWake {u : Fin (n + 2)} (hu : loadNbr k < u.val) (p : WakePc) (next : Option WakePc) :
    AfterWake k u p next ((next.map (.wake k u)).getD (wakeFrom (n + 2) k (u.val + 1))) := by
  cases next with
  | some p' =>
    refine ⟨⟨rfl, rfl, hu⟩, rfl, fun _ => rfl, ?_, fun j hj => .inl ?_⟩
    · simp [WorkPc.wakeAt]
    · simp only [Option.map_some, Option.getD_some, WorkPc.wakeAt, if_neg hj]
  | none =>
    obtain ⟨h1, h2, -⟩ := wakeFrom_proj n k (u.val + 1)
    refine ⟨wakeFrom_at (by omega), h1, h2, wakeFrom_behind (Nat.lt_succ_self _), fun j hj => ?_⟩
    have hv := Fin.val_ne_of_ne hj
    simp only [Option.map_none, Option.getD_none]
    by_cases hlt : j.val < u.val
    · rw [wakeFrom_behind (by omega)]
      exact .inl (if_pos hlt).symm
    · have hb : (WorkPc.wake k u p).wakeAt j = .before := by simp [WorkPc.wakeAt, hlt, hj]
      rw [wakeFrom_wakeAt (by omega), hb]
      split
      · exact .inr ⟨rfl, rfl⟩
      · exact .inl rfl

theorem Works.wake {hL : loadNbr k < n + 2} (h : Works k hL m pc) {u : Fin (n + 2)} {p : WakePc}
    (hpc : pc 0 = .wake k u p) :
    Works k hL { m with
        flags := Function.update m.flags u (p.step (m.flags u)).1
        woken := if (p.step (m.flags u)).2 = none then Function.update m.woken u (m.woken u + 1) else m.woken }
      (Function.update pc 0 (((p.step (m.flags u)).2.map (.wake k u)).getD (wakeFrom (n + 2) k (u.val + 1)))) := by
  have hat := h.place 0
  rw [hpc] at hat
  have hLu : loadNbr k < u.val := hat.2.2
  have hne : ∀ j : Fin (n + 2), j.val ≤ loadNbr k → j ≠ u := by
    rintro j hj rfl
    omega
  have hspec := afterWake hLu p (p.step (m.flags u)).2
  generalize ((p.step (m.flags u)).2.map (.wake k u)).getD (wakeFrom (n + 2) k (u.val + 1)) = y at hspec ⊢
  refine ⟨place_update h.place hspec.place, ?_, fun j hj1 hjL => ?_, h.quiet, fun j hj => ?_, fun j hj => ?_⟩
  · have hmem : members hL (Function.update pc 0 y) = members hL pc := by
      funext j
      refine update_proj (f := WorkPc.member k) ?_ _
      rw [hspec.member, hpc]
      rfl
    rw [hmem]
    exact h.inner
  · have hj0 : j ≠ 0 := by
      rintro rfl
      exact absurd hj1 (by simp)
    have hf := h.flag j hj1 hjL
    rw [hpc] at hf
    rw [Function.update_self, Function.update_of_ne hj0, hspec.signalled]
    exact hf
  · simp only [Function.update_of_ne (hne j hj), ite_update_of_ne (hne j hj)]
    exact h.awake j hj
  · have ha := h.asleep j hj
    have hj0 : j ≠ 0 := by
      rintro rfl
      exact absurd hj (by simp)
    rw [Function.update_self, Function.update_of_ne hj0]
    by_cases hju : j = u
    · subst hju
      have hw : (pc 0).wakeAt j = .inside p := by simp [hpc, WorkPc.wakeAt]
      rw [hw] at ha
      rw [hspec.target]
      simp only [Function.update_self, ite_update_self]
      exact ha.wake
    · simp only [Function.update_of_ne hju, ite_update_of_ne hju]
      rw [hpc] at ha
      rcases hspec.others j hju with hw | ⟨hb, hw⟩
      · rw [hw]
        exact ha
      · rw [hb] at ha
        rw [hw]
        exact ha.wakes

/-! ### The invariant is kept -/

theorem nextRound_zero (n : Nat) : nextRound (n + 2) 0 = .sync1 0 := if_pos ⟨by decide, Nat.succ_pos _⟩

theorem due_snoc (rounds : List Nat) (load j : Nat) :
    due (rounds ++ [load]) j = due rounds j + if load < j then 1 else 0 := by
  unfold due
  by_cases h : load < j <;> simp [List.countP_append, h]

/-- A store of 0 by another CPU changes nothing. -/
theorem WorkPc.Inits.store {flag : Nat → Flag} {x : WorkPc (n + 2)} (h : x.Inits flag) {u : Nat} {f : Flag}
    (hf : flag u = .init → f = .init) (h0 : (flag u).flag = 0 → f.flag = 0) : x.Inits (Function.update flag u f) := by
  have hinit : ∀ v, flag v = .init → Function.update flag u f v = .init := by
    intro v hv
    by_cases hvu : v = u
    · subst hvu; rw [Function.update_self]; exact hf hv
    · rw [Function.update_of_ne hvu]; exact hv
  cases x with
  | init v => exact ⟨h.1, fun w hw => hinit w (h.2 w hw)⟩
  | initNext v =>
    refine ⟨h.1, ?_, fun w hw => hinit w (h.2.2 w hw)⟩
    by_cases hvu : v = u
    · subst hvu; rw [Function.update_self]; exact h0 h.2.1
    · rw [Function.update_of_ne hvu]; exact h.2.1
  | sync1 k' => exact ⟨h.1, fun w hw => hinit w (h.2 w hw)⟩
  | _ => exact h

theorem update_cpu (calls : Nat) (pc : Fin (n + 2) → WorkPc (n + 2)) (i : Fin (n + 2)) (y : WorkPc (n + 2)) :
    Function.update (fun j => (⟨calls, pc j⟩ : WorkCpu (n + 2))) i ⟨calls, y⟩ =
      fun j => ⟨calls, Function.update pc i y j⟩ := by
  funext j
  by_cases hj : j = i
  · subst hj; rw [Function.update_self, Function.update_self]
  · rw [Function.update_of_ne hj, Function.update_of_ne hj]

variable {l l' : Fin (n + 2) → WorkCpu (n + 2)} {c : WorkCpu (n + 2)}

theorem workInv_init {calls : Nat} (idle : Idle m) (h : ∀ j, (pc j).Inits m.flag)
    (hs : (benchWorker (n + 2)).act i ⟨calls, pc i⟩ m = some (m', c)) :
    WorkInv m' (Function.update (fun j => ⟨calls, pc j⟩) i c) := by
  have hi := h i
  have hothers : ∀ {f : Nat → Flag} {y : WorkPc (n + 2)}, (∀ j, (pc j).Inits f) → y.Inits f →
      ∀ j, (Function.update pc i y j).Inits f := fun {f} _ hf hy =>
    (Function.forall_update_iff pc fun _ x => x.Inits f).2 ⟨hy, fun j _ => hf j⟩
  unfold benchWorker at hs
  cases hpc : pc i with
  | init u =>
    rw [hpc] at hi
    simp only [hpc, Option.some.injEq, Prod.mk.injEq] at hs
    obtain ⟨rfl, rfl⟩ := hs
    refine .init calls _ (update_cpu ..) ⟨idle.cnt, idle.flags⟩ (hothers (fun j => ?_) ?_)
    · exact (h j).store (fun hf => by rw [hf]; rfl) (fun _ => rfl)
    · refine ⟨hi.1, by simp only [Function.update_self], fun v hv => ?_⟩
      simp only [Function.update_of_ne (Nat.ne_of_lt hv)]
      exact hi.2 v hv
  | initNext u =>
    rw [hpc] at hi
    simp only [hpc, Option.some.injEq, Prod.mk.injEq] at hs
    obtain ⟨rfl, rfl⟩ := hs
    refine .init calls _ (update_cpu ..) ⟨idle.cnt, idle.flags⟩ (hothers (fun j => ?_) ?_)
    · exact (h j).store (fun hf => by rw [hf]; rfl) (fun hf => hf)
    · have hdone : ∀ v, v < u + 1 → Function.update m.flag u { m.flag u with next := 0 } v = .init := by
        intro v hv
        by_cases hvu : v = u
        · subst hvu
          rw [Function.update_self]
          exact congrArg (fun f => (⟨f, 0⟩ : Flag)) hi.2.1
        · rw [Function.update_of_ne hvu]
          exact hi.2.2 v (by omega)
      have hu := hi.1
      by_cases hlt : u + 1 < maxCpu
      · rw [if_pos hlt]
        exact ⟨hlt, hdone⟩
      · rw [if_neg hlt, nextRound_zero]
        exact ⟨rfl, fun v hv => hdone v (by omega)⟩
  | sync1 k' => simp only [hpc] at hs; cases hs
  | _ => rw [hpc] at hi; exact hi.elim

theorem workInv_store {calls : Nat} (hk : k < loadNbrs.length) (hL : loadNbr k < n + 2) (idle : Idle m)
    (quiet : ∀ u, u < maxCpu → Quiet k (m.flag u)) (h0 : pc 0 = .setMax k) (h : ∀ j, j ≠ 0 → pc j = .sync2 k)
    (hs : (benchWorker (n + 2)).act i ⟨calls, pc i⟩ m = some (m', c)) :
    WorkInv m' (Function.update (fun j => ⟨calls, pc j⟩) i c) := by
  unfold benchWorker at hs
  by_cases hi : i = 0
  · subst hi
    simp only [h0, Option.some.injEq, Prod.mk.injEq] at hs
    obtain ⟨rfl, rfl⟩ := hs
    refine .stored calls k _ (update_cpu ..) hk hL ⟨idle.cnt, rfl, fun j => ?_⟩ quiet
      ((Function.forall_update_iff pc fun _ x => x = .sync2 k).2 ⟨rfl, h⟩)
    obtain ⟨hf, hh, hw⟩ := idle.flags j
    refine ⟨hf, ?_, ?_⟩
    · rw [due_snoc, hh]
    · rw [due_snoc, hw]
  · simp only [h i hi] at hs
    cases hs

theorem workInv_work {calls : Nat} (hN : n + 2 < 2 ^ 32) (hk : k < loadNbrs.length) (hL : loadNbr k < n + 2)
    (h : Works k hL m pc) (hs : (benchWorker (n + 2)).act i ⟨calls, pc i⟩ m = some (m', c)) :
    WorkInv m' (Function.update (fun j => ⟨calls, pc j⟩) i c) := by
  have hi := h.place i
  unfold benchWorker at hs
  cases hpc : pc i with
  | halt k' p =>
    rw [hpc] at hi
    obtain rfl := hi.1
    simp only [hpc, Option.some.injEq, Prod.mk.injEq] at hs
    obtain ⟨rfl, rfl⟩ := hs
    exact .work calls k' _ (update_cpu ..) hk hL (h.halt hpc)
  | measure k' r =>
    rw [hpc] at hi
    obtain ⟨rfl, hi0, -⟩ := hi
    obtain rfl : i = 0 := Fin.ext hi0
    simp only [hpc, Option.some.injEq, Prod.mk.injEq] at hs
    obtain ⟨rfl, rfl⟩ := hs
    exact .work calls k' _ (update_cpu ..) hk hL (h.measure hpc)
  | signal k' r u =>
    rw [hpc] at hi
    obtain ⟨rfl, hi0, -⟩ := hi
    obtain rfl : i = 0 := Fin.ext hi0
    simp only [hpc, Option.some.injEq, Prod.mk.injEq] at hs
    obtain ⟨rfl, rfl⟩ := hs
    exact .work calls k' _ (update_cpu ..) hk hL (h.signal hk hpc)
  | load k' r p =>
    rw [hpc] at hi
    obtain rfl := hi.1
    simp only [hpc, Option.some.injEq, Prod.mk.injEq] at hs
    obtain ⟨rfl, rfl⟩ := hs
    exact .work calls k' _ (update_cpu ..) hk hL (h.load hk hpc)
  | dyn k' r p =>
    rw [hpc] at hi
    obtain rfl := hi.1
    simp only [hpc, Option.some.injEq, Prod.mk.injEq] at hs
    obtain ⟨rfl, rfl⟩ := hs
    exact .work calls k' _ (update_cpu ..) hk hL (h.dyn hN hpc)
  | wake k' u p =>
    rw [hpc] at hi
    obtain ⟨rfl, hi0, -⟩ := hi
    obtain rfl : i = 0 := Fin.ext hi0
    simp only [hpc, Option.some.injEq, Prod.mk.injEq] at hs
    obtain ⟨rfl, rfl⟩ := hs
    exact .work calls k' _ (update_cpu ..) hk hL (h.wake hpc)
  | sync1 k' => simp only [hpc] at hs; cases hs
  | last => simp only [hpc] at hs; cases hs
  | _ => rw [hpc] at hi; exact hi.elim

theorem workInv_act (hN : n + 2 < 2 ^ 32) (h : WorkInv m l) (hs : (benchWorker (n + 2)).act i (l i) m = some (m', c)) :
    WorkInv m' (Function.update l i c) := by
  cases h with
  | init calls pc hl idle h =>
    subst hl
    exact workInv_init idle h hs
  | store calls k pc hl hk hL idle quiet h0 h =>
    subst hl
    exact workInv_store hk hL idle quiet h0 h hs
  | stored calls k pc hl hk hL began quiet h =>
    subst hl
    unfold benchWorker at hs
    simp only [h i] at hs
    cases hs
  | work calls k pc hl hk hL h =>
    subst hl
    exact workInv_work hN hk hL h hs
  | ended idle h =>
    unfold benchWorker at hs
    simp only [h i] at hs
    cases hs

/-! ### All CPUs meet in the global barrier -/

theorem quiet_init : Quiet k .init := ⟨rfl, Nat.zero_le _⟩

theorem loadNbr_lt (k : Nat) : loadNbr k < maxCpu := by
  rcases k with _ | _ | _ | _ | k
  · decide
  · decide
  · decide
  · decide
  · exact Nat.succ_pos _

theorem rangesIn_pos (k : Nat) : 0 < rangesIn k := by
  unfold rangesIn loadRanges
  split <;> omega

/-- **A round begins.** -/
theorem Began.works (hL : loadNbr k < n + 2) (h : Began k m) (hq : ∀ u, u < maxCpu → Quiet k (m.flag u)) :
    Works k hL m (fun i => if loadNbr k < i.val then .halt k .set else startRange (n + 2) i k 0) := by
  have hmax := loadNbr_lt k
  refine ⟨fun i => ?_, ⟨0, ?_⟩, fun i hi1 hiL => ?_, fun u hu _ => hq u hu, fun i hi => ?_, fun i hi => ?_⟩
  · split
    · exact ⟨rfl, by assumption⟩
    · exact startRange_at (by omega) (rangesIn_pos k)
  · refine Episode.fresh (by simp) ?_ h.cnt (fun j => ?_)
    · rw [h.max, Fintype.card_fin]
    · have hj : ¬loadNbr k < j.val := by omega
      simp only [members, if_neg hj]
      exact startRange_member _ k 0
  · obtain ⟨heq, hle⟩ := hq i.val (by omega)
    have hi : startRange (n + 2) i k 0 = .load k 0 .loadNext := if_neg (by omega)
    simp only [if_neg (Nat.not_lt.2 hiL), hi]
    exact ⟨⟨Nat.le_refl 0, _, hle, rfl, by rw [← heq]; rfl⟩, trivial⟩
  · obtain ⟨hf, hh, hw⟩ := h.flags i
    rw [if_neg (Nat.not_lt.2 hi)] at hh hw
    exact ⟨hf, hh, hw⟩
  · obtain ⟨hf, hh, hw⟩ := h.flags i
    rw [if_pos hi] at hh hw
    simp only [if_pos hi]
    exact ⟨.awake hf (.inr (.inl rfl)) (.inl rfl), hh, hw⟩

theorem FlagAt.quiet {f : Flag} {r : Nat} (h : FlagAt k f r r) (hr : r ≤ 4) : Quiet (k + 1) f := by
  obtain ⟨b, hb, hf, hn⟩ := h.count
  exact ⟨BitVec.eq_of_toNat_eq (hf.trans hn.symm), by omega⟩

/-- **A round is over.** -/
theorem Works.idle {hL : loadNbr k < n + 2} (h : Works k hL m pc) (hpc : ∀ i, pc i = nextRound (n + 2) (k + 1)) :
    Idle m ∧ ∀ u, u < maxCpu → Quiet (k + 1) (m.flag u) := by
  obtain ⟨h1, h2, h3, -, h4, h5⟩ := nextRound_proj n k
  obtain ⟨E, hE⟩ := h.inner
  have hm : ∀ j, members hL pc j = ⟨rangesIn k, none⟩ := fun j => by rw [members, hpc, h1]
  refine ⟨⟨?_, fun i => ?_⟩, fun u hu => ?_⟩
  · have hc := hE.cnt
    rw [count_eq_zero (fun j => by rw [hm]; rfl), count_eq_zero (fun j => by rw [hm]; simp [Member.arrived])] at hc
    exact BitVec.eq_of_toNat_eq hc
  · by_cases hi : i.val ≤ loadNbr k
    · exact h.awake i hi
    · have ha := h.asleep i (Nat.not_le.1 hi)
      rw [hpc, hpc, h4, h5] at ha
      exact ⟨ha.paired.behind.1, ha.halted, ha.woken⟩
  · by_cases hq : u = 0 ∨ loadNbr k < u
    · obtain ⟨heq, hle⟩ := h.quiet u hu hq
      exact ⟨heq, by omega⟩
    · have hf := (h.flag ⟨u, by omega⟩ (by simp only; omega) (by simp only; omega)).1
      rw [hpc, hpc, h2, h3] at hf
      exact hf.quiet (rangesIn_le k)

/-- Where all CPUs wait, `waits` says where they are behind the barrier. -/
theorem sync_eq {f : Fin (n + 2) → WorkCpu (n + 2)} (hw : ∀ i, (benchWorker (n + 2)).waits i (l i) = some (l' i))
    (h : ∀ i, (benchWorker (n + 2)).waits i (l i) = some (f i)) : l' = f := by
  funext i
  exact Option.some.inj ((hw i).symm.trans (h i))

theorem workInv_begin {calls : Nat} (hk : k < loadNbrs.length) (hL : loadNbr k < n + 2) (idle : Idle m)
    (quiet : ∀ u, u < maxCpu → Quiet k (m.flag u))
    (hw : ∀ i, (benchWorker (n + 2)).waits i ⟨calls, .sync1 k⟩ = some (l' i)) : WorkInv m l' := by
  obtain rfl := sync_eq (l := fun _ => ⟨calls, .sync1 k⟩) hw (fun _ => rfl)
  refine .store calls k (fun i => if i.val = 0 then .setMax k else .sync2 k) rfl hk hL idle quiet rfl (fun i hi => ?_)
  exact if_neg (fun h => hi (Fin.ext h))

theorem WorkPc.Inits.waits {calls : Nat} {x : WorkPc (n + 2)} (h : x.Inits m.flag)
    (hw : (benchWorker (n + 2)).waits i ⟨calls, x⟩ ≠ none) : x = .sync1 0 ∧ ∀ v, v < maxCpu → m.flag v = .init := by
  cases x with
  | sync1 k' => exact ⟨by rw [h.1], h.2⟩
  | init u => exact absurd rfl hw
  | initNext u => exact absurd rfl hw
  | _ => exact h.elim

theorem WorkPc.At.waits {calls : Nat} {x : WorkPc (n + 2)} (h : x.At k i.val)
    (hw : (benchWorker (n + 2)).waits i ⟨calls, x⟩ ≠ none) : x = nextRound (n + 2) (k + 1) := by
  cases x with
  | sync1 k' => exact h.symm
  | last => exact h.symm
  | sync2 k' => exact h.elim
  | _ => exact absurd rfl hw

theorem workInv_sync (h : WorkInv m l) (hw : ∀ i, (benchWorker (n + 2)).waits i (l i) = some (l' i)) : WorkInv m l' := by
  have hsome : ∀ i, (benchWorker (n + 2)).waits i (l i) ≠ none := fun i => by
    rw [hw i]
    exact Option.some_ne_none _
  cases h with
  | init calls pc hl idle h =>
    subst hl
    have hpc : ∀ i, pc i = .sync1 0 := fun i => ((h i).waits (hsome i)).1
    simp only [hpc] at hw
    refine workInv_begin (k := 0) (by decide) (Nat.succ_pos _) idle (fun u hu => ?_) hw
    rw [((h 0).waits (hsome 0)).2 u hu]
    exact quiet_init
  | store calls k pc hl hk hL idle quiet h0 h =>
    subst hl
    have hw0 := hsome 0
    simp only [h0] at hw0
    exact absurd rfl hw0
  | stored calls k pc hl hk hL began quiet h =>
    subst hl
    simp only [h] at hw
    obtain rfl := sync_eq (l := fun _ => ⟨calls, .sync2 k⟩) hw (fun _ => rfl)
    exact .work calls k _ rfl hk hL (began.works hL quiet)
  | work calls k pc hl hk hL h =>
    subst hl
    have hpc : ∀ i, pc i = nextRound (n + 2) (k + 1) := fun i => (h.place i).waits (hsome i)
    obtain ⟨idle, quiet⟩ := h.idle hpc
    rcases nextRound_cases (n + 2) (k + 1) with ⟨hk', hL', he⟩ | he
    · -- the next round
      simp only [hpc, he] at hw
      exact workInv_begin hk' hL' idle quiet hw
    · -- the final barrier
      simp only [hpc, he] at hw
      cases calls with
      | zero =>
        obtain rfl := sync_eq (l := fun _ => ⟨0, .last⟩) hw (fun _ => rfl)
        exact .ended idle (fun _ => rfl)
      | succ calls =>
        obtain rfl := sync_eq (l := fun _ => ⟨calls + 1, .last⟩) hw (fun _ => rfl)
        refine .init calls (fun _ => .init 0) rfl idle (fun _ => ⟨maxCpu_pos, fun v hv => ?_⟩)
        exact absurd hv (Nat.not_lt_zero v)
  | ended idle h =>
    have hw0 := hsome 0
    unfold benchWorker at hw0
    simp only [h 0] at hw0
    exact absurd rfl hw0

theorem benchWorker_keeps (hN : n + 2 < 2 ^ 32) : (benchWorker (n + 2)).Keeps (WorkInv (n := n)) where
  act  := fun h _ hs => workInv_act hN h hs
  sync := fun h hw => workInv_sync h hw

end Inv
end SmpBoot
