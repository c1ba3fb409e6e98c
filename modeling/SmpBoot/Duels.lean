import SmpBoot.Collective
import SmpBoot.WorkerRuns
/-!
# Duels — the two-CPU benchmarks in a collective region

`bench_hourglass_worker` and `bench_worker_cut` let CPUs 0 and 1 into a region: CPU 0 measures while CPU 1 makes load
until it is told to stop, and both meet in `barr2` in between; the others halt until the region ends.  The region is
that of `collective_only` and `collective_end`, which need steps in turn to be safe.  Here `barr2` provides the turns,
and the region is safe in every interleaving (`duels_safe`).
-/
namespace SmpBoot

open Interleave

/-- What the two CPUs do next. -/
inductive Phase where
  | meet -- barrier(&barr2)
  | duel -- CPU 0 measures, then flag_signal(&flag); CPU 1: load_until_flag(.., &flag)
  deriving DecidableEq

/-- `r = (r>=512*KB && r< 8*MB)?r+512*KB:r*2` -/
def nextLoadRange (r : Nat) : Nat := if 512 * 1024 ≤ r ∧ r < 8 * 1024 * 1024 then r + 512 * 1024 else r * 2

/-- `for (r = 16*KB; r <= 16*MB; ..)` from `r` on; `fuel` is more than the rounds. -/
def loadRangesFrom : Nat → Nat → List Nat
  | 0, _        => []
  | fuel + 1, r => if r ≤ 16 * 1024 * 1024 then r :: loadRangesFrom fuel (nextLoadRange r) else []

inductive TwoCpuBench where
  | hourglassWorker
  | workerCut
  deriving DecidableEq

/-- Between `collective_only(0x0003)` and `collective_end()`. -/
def TwoCpuBench.phases : TwoCpuBench → List Phase
  | .hourglassWorker => .meet :: (List.range 12).flatMap fun _ => [.meet, .duel, .meet]
  | .workerCut       => (loadRangesFrom 32 (16 * 1024)).flatMap fun _ => [.meet, .duel]

example : (loadRangesFrom 32 (16 * 1024)).length = 22 := by decide

/-- Where CPU 0 or 1 is in its phase. -/
inductive PhasePc where
  | front               -- the phase has not begun
  | meet (p : BarrierPc)
  | measure
  | load (p : TrywaitPc)
  deriving DecidableEq

structure Pos where
  k  : Nat              -- the phases that are over
  pc : PhasePc
  deriving DecidableEq

/-- While `coll.pc` of CPU 0 or 1 is `test`, it works on its phases; `pos` says where. -/
structure Duels (n : Nat) where
  coll : Coll (n + 2)
  bar  : Barrier        -- barr2
  flag : Flag
  pos  : Fin 2 → Pos

section Program
variable {n : Nat}

/-- One step of member `m` in phase `ph`. -/
def Duels.phaseStep (s : Duels n) (m : Fin 2) : Phase → Duels n
  | .meet =>
    match (s.pos m).pc with
    | .meet p => { s with
        bar := (p.step s.bar).1
        pos := Function.update s.pos m (match (p.step s.bar).2 with
          | some p' => ⟨(s.pos m).k, .meet p'⟩
          | none    => ⟨(s.pos m).k + 1, .front⟩) }
    | _ => { s with pos := Function.update s.pos m ⟨(s.pos m).k, .meet .start⟩ }
  | .duel =>
    match (s.pos m).pc with
    | .measure => { s with
        flag := s.flag.signal
        pos := Function.update s.pos m ⟨(s.pos m).k + 1, .front⟩ }
    | .load p  => { s with
        flag := (p.step s.flag).1
        pos := Function.update s.pos m (match (p.step s.flag).2 with
          | .inl p'    => ⟨(s.pos m).k, .load p'⟩
          | .inr false => ⟨(s.pos m).k, .load .loadNext⟩
          | .inr true  => ⟨(s.pos m).k + 1, .front⟩) }
    | _ => { s with pos := Function.update s.pos m ⟨(s.pos m).k, if m.val = 0 then .measure else .load .loadNext⟩ }

/-- CPU `i` as one of the two, if it works on its phases. -/
def Duels.works? (s : Duels n) (i : Fin (n + 2)) : Option (Fin 2) :=
  if h : i.val < 2 then if s.coll.pc i = .test then some ⟨i.val, h⟩ else none else none

/-- One step of CPU `i`. -/
def Duels.step (phases : List Phase) (s : Duels n) (i : Fin (n + 2)) : Option (Duels n) :=
  match (s.works? i).bind fun m => (phases[(s.pos m).k]?).map (Prod.mk m) with
  | some (m, ph) => some (s.phaseStep m ph)
  | none         => (s.coll.step 0x0003 i).map fun coll => { s with coll := coll }

/-- All CPUs are in front of the benchmark; the variables are what earlier calls and regions left. -/
def Duels.start (n : Nat) (master : Unsigned) (mask : BitVec 16) (epoch flag : Unsigned) : Duels n :=
  ⟨.start (n + 2) master mask, ⟨0, epoch, 2⟩, ⟨flag, flag⟩, fun _ => ⟨0, .front⟩⟩

/-- All CPUs call the benchmark the next time. -/
def Duels.again (s : Duels n) : Duels n :=
  { s with
    coll := { s.coll with pc := fun _ => .call, masters := [], wakes := [] }
    pos := fun _ => ⟨0, .front⟩ }

end Program

def meetsIn (phases : List Phase) (k : Nat) : Nat := (phases.take k).count .meet
def duelsIn (phases : List Phase) (k : Nat) : Nat := (phases.take k).count .duel

structure DuelSafe {n : Nat} (phases : List Phase) (flag : Unsigned) (s : Duels n) : Prop where
  coll    : CollSafe 0x0003 s.coll
  /-- While CPU 0 measures, CPU 1 makes load in the same phase, or is on its way from the barrier to it. -/
  measure : (s.pos 0).pc = .measure → s.coll.pc 1 = .test ∧
    ((s.pos 1).k = (s.pos 0).k ∨ (s.pos 1).k + 1 = (s.pos 0).k ∧ ∃ p, (s.pos 1).pc = .meet p)
  /-- And the others have not left `smp_halt`. -/
  asleep  : (s.pos 0).pc = .measure → ∀ j : Fin (n + 2), 2 ≤ j.val → s.coll.pc j ≠ .done
  /-- The benchmark leaves everything as it found it, but for the counters of `flag`. -/
  ended   : s.coll.Ended → s.flag.flag.toNat = flag.toNat + phases.count .duel ∧
    s.again = .start n s.coll.master s.coll.mask s.bar.epoch s.flag.flag

/-! ## Counting the phases -/

section Count
variable {phases : List Phase} {k k' : Nat} {ph : Phase}

theorem meetsIn_succ (h : phases[k]? = some ph) :
    meetsIn phases (k + 1) = meetsIn phases k + if ph = .meet then 1 else 0 := by
  simp only [meetsIn, List.take_add_one, h, Option.toList, List.count_append, List.count_singleton]
  cases ph <;> rfl

theorem duelsIn_succ (h : phases[k]? = some ph) :
    duelsIn phases (k + 1) = duelsIn phases k + if ph = .duel then 1 else 0 := by
  simp only [duelsIn, List.take_add_one, h, Option.toList, List.count_append, List.count_singleton]
  cases ph <;> rfl

theorem meetsIn_mono (h : k ≤ k') : meetsIn phases k ≤ meetsIn phases k' :=
  (List.take_prefix_take_left h).sublist.count_le _

theorem duelsIn_mono (h : k ≤ k') : duelsIn phases k ≤ duelsIn phases k' :=
  (List.take_prefix_take_left h).sublist.count_le _

/-- A meeting is behind. -/
theorem meetsIn_lt (h : phases[k]? = some .meet) (hk : k < k') : meetsIn phases k < meetsIn phases k' := by
  have hs := meetsIn_succ h
  have hm : meetsIn phases (k + 1) ≤ meetsIn phases k' := meetsIn_mono hk
  simp only [if_true] at hs
  omega

theorem duelsIn_lt (h : phases[k]? = some .duel) (hk : k < k') : duelsIn phases k < duelsIn phases k' := by
  have hs := duelsIn_succ h
  have hm : duelsIn phases (k + 1) ≤ duelsIn phases k' := duelsIn_mono hk
  simp only [if_true] at hs
  omega

end Count

/-- The members meet first of all, and in front of each duel. -/
structure Paced (phases : List Phase) : Prop where
  first  : phases[0]? = some .meet
  before : ∀ k, phases[k]? = some .duel → ∃ k', k = k' + 1 ∧ phases[k']? = some .meet

/-- CPU 0 or 1 as one of all. -/
def member (n : Nat) (m : Fin 2) : Fin (n + 2) := ⟨m.val, by omega⟩

theorem inMask_three {u : Nat} (hu : u < maxCpu) : inMask 0x0003 u = decide (u < 2) := by
  have : ∀ u < maxCpu, inMask 0x0003 u = decide (u < 2) := by decide
  exact this u hu

/-- What the phase and the pc have to do with each other. -/
def Pos.At (phases : List Phase) (m : Fin 2) (x : Pos) : Prop :=
  match x.pc with
  | .front   => x.k ≤ phases.length
  | .meet _  => phases[x.k]? = some .meet
  | .measure => phases[x.k]? = some .duel ∧ m.val = 0
  | .load _  => phases[x.k]? = some .duel ∧ m.val = 1

/-- A participant of `barr2`. -/
def Pos.member (phases : List Phase) (x : Pos) : Member :=
  ⟨meetsIn phases x.k, match x.pc with
    | .meet p => some p
    | _       => none⟩

/-- Where a member of the region is in its phases. -/
def CollPc.Stage {n : Nat} (phases : List Phase) (x : Pos) : CollPc n → Prop
  | .call | .trylock | .setMaster | .setMask => x = ⟨0, .front⟩
  | .test                                    => True
  | .halt _                                  => False
  | _                                        => x = ⟨phases.length, .front⟩

structure DuelInv {n : Nat} (phases : List Phase) (b : Nat) (s : Duels n) : Prop where
  coll  : CollInv 0x0003 s.coll
  awake : ∀ m, s.coll.flags (member n m) = 0
  inner : ∃ E, Episode s.bar E fun m => (s.pos m).member phases
  place : ∀ m, (s.pos m).At phases m
  stage : ∀ m, (s.coll.pc (member n m)).Stage phases (s.pos m)
  sig   : s.flag.flag.toNat = b + duelsIn phases (s.pos 0).k
  pas   : s.flag.next.toNat = b + duelsIn phases (s.pos 1).k
  le    : duelsIn phases (s.pos 1).k ≤ duelsIn phases (s.pos 0).k
  fits  : ∀ p, (s.pos 1).pc = .load p → p.Fits s.flag

section Inv
variable {n b : Nat} {phases : List Phase} {s s' : Duels n} {m : Fin 2} {i : Fin (n + 2)} {x : Pos}

theorem posMembers_update (x : Pos) : (fun j => (Function.update s.pos m x j).member phases) =
    Function.update (fun j => (s.pos j).member phases) m (x.member phases) := by
  funext j
  by_cases hj : j = m
  · subst hj; simp
  · simp [hj]

/-- A step of member `m` in its phases: it comes to `x`. -/
theorem DuelInv.moves (h : DuelInv phases b s) {bar : Barrier} {flag : Flag}
    (htest : s.coll.pc (member n m) = .test) (hx : x.At phases m)
    (hE : ∃ E, Episode bar E (Function.update (fun j => (s.pos j).member phases) m (x.member phases)))
    (hsig : flag.flag.toNat = b + duelsIn phases (Function.update s.pos m x 0).k)
    (hpas : flag.next.toNat = b + duelsIn phases (Function.update s.pos m x 1).k)
    (hle : duelsIn phases (Function.update s.pos m x 1).k ≤ duelsIn phases (Function.update s.pos m x 0).k)
    (hfits : ∀ p, (Function.update s.pos m x 1).pc = .load p → p.Fits flag) :
    DuelInv phases b { s with bar := bar, flag := flag, pos := Function.update s.pos m x } where
  coll  := h.coll
  awake := h.awake
  inner := by
    rw [← posMembers_update] at hE
    exact hE
  place := fun j => by
    by_cases hj : j = m
    · subst hj; simpa using hx
    · simpa [hj] using h.place j
  stage := fun j => by
    by_cases hj : j = m
    · subst hj
      show CollPc.Stage phases _ (s.coll.pc (member n j))
      rw [htest]
      trivial
    · simpa [hj] using h.stage j
  sig   := hsig
  pas   := hpas
  le    := hle
  fits  := hfits

/-- The barrier's part stays. -/
theorem DuelInv.same (h : DuelInv phases b s) (hx : x.member phases = (s.pos m).member phases) :
    ∃ E, Episode s.bar E (Function.update (fun j => (s.pos j).member phases) m (x.member phases)) := by
  obtain ⟨E, hE⟩ := h.inner
  refine ⟨E, ?_⟩
  rw [hx, Function.update_eq_self m fun j => (s.pos j).member phases]
  exact hE

theorem k_of_update (hk : x.k = (s.pos m).k) (j : Fin 2) : (Function.update s.pos m x j).k = (s.pos j).k := by
  by_cases hj : j = m
  · subst hj; simpa using hk
  · simp [hj]

/-- The member stays in its phase, outside its duel with the flag. -/
theorem DuelInv.stays (h : DuelInv phases b s) {bar : Barrier} (htest : s.coll.pc (member n m) = .test)
    (hx : x.At phases m) (hk : x.k = (s.pos m).k)
    (hE : ∃ E, Episode bar E (Function.update (fun j => (s.pos j).member phases) m (x.member phases)))
    (hfits : ∀ p, x.pc = .load p → p.Fits s.flag) :
    DuelInv phases b { s with bar := bar, pos := Function.update s.pos m x } := by
  have hk' : ∀ j, (Function.update s.pos m x j).k = (s.pos j).k := k_of_update hk
  refine h.moves htest hx hE ?_ ?_ ?_ fun p hp => ?_
  · rw [hk']; exact h.sig
  · rw [hk']; exact h.pas
  · rw [hk', hk']; exact h.le
  · by_cases hm : (1 : Fin 2) = m
    · subst hm; exact hfits p (by simpa using hp)
    · exact h.fits p (by simpa [hm] using hp)

theorem phase_lt {ph : Phase} {k : Nat} (h : phases[k]? = some ph) : k + 1 ≤ phases.length :=
  (List.getElem?_eq_some_iff.mp h).1

theorem DuelInv.meet (h : DuelInv phases b s) (htest : s.coll.pc (member n m) = .test)
    (hph : phases[(s.pos m).k]? = some .meet) : DuelInv phases b (s.phaseStep m .meet) := by
  obtain ⟨E, hE⟩ := h.inner
  cases hpc : (s.pos m).pc with
  | meet p =>
    have hmem : (s.pos m).member phases = ⟨meetsIn phases (s.pos m).k, some p⟩ := by simp [Pos.member, hpc]
    have hat : ((s.pos m).member phases).pc = some p := by rw [hmem]
    have hstep := hE.step (i := m) (by simp) hat
    simp only [Duels.phaseStep, hpc]
    cases hr : (p.step s.bar).2 with
    | some p' =>
      rw [hr, hmem] at hstep
      refine h.stays htest hph rfl ⟨_, hstep⟩ (fun p hp => by cases hp)
    | none =>
      rw [hr, hmem] at hstep
      have hsucc := meetsIn_succ hph
      have hduel := duelsIn_succ hph
      simp only [if_true, reduceCtorEq, if_false] at hsucc hduel
      have hk' : ∀ j, duelsIn phases (Function.update s.pos m ⟨(s.pos m).k + 1, .front⟩ j).k =
          duelsIn phases (s.pos j).k := fun j => by
        by_cases hj : j = m
        · subst hj; simpa using hduel
        · simp [hj]
      refine h.moves htest (phase_lt hph) ⟨E + p.ends, ?_⟩ ?_ ?_ ?_ fun q hq => ?_
      · have : (⟨(s.pos m).k + 1, .front⟩ : Pos).member phases = ⟨meetsIn phases (s.pos m).k + 1, none⟩ := by
          simp [Pos.member, hsucc]
        rw [this]
        exact hstep
      · rw [hk']; exact h.sig
      · rw [hk']; exact h.pas
      · rw [hk', hk']; exact h.le
      · by_cases hm : (1 : Fin 2) = m
        · subst hm; simp at hq
        · exact h.fits q (by simpa [hm] using hq)
  | front =>
    have hmem : (s.pos m).member phases = ⟨meetsIn phases (s.pos m).k, none⟩ := by simp [Pos.member, hpc]
    have hcall := hE.call (i := m) (by rw [hmem])
    rw [hmem] at hcall
    simp only [Duels.phaseStep, hpc]
    exact h.stays htest hph rfl ⟨_, hcall⟩ (fun p hp => by cases hp)
  | measure =>
    have hat := h.place m
    simp only [Pos.At, hpc, hph] at hat
    cases hat.1
  | load p =>
    have hat := h.place m
    simp only [Pos.At, hpc, hph] at hat
    cases hat.1

theorem duelsIn_le (phases : List Phase) (k : Nat) : duelsIn phases k ≤ phases.count .duel :=
  (List.take_sublist k phases).count_le _

/-- Behind its duel a member is no further in `barr2` than in front of it. -/
theorem DuelInv.behind (h : DuelInv phases b s) (hph : phases[(s.pos m).k]? = some .duel)
    (hpc : ∀ p, (s.pos m).pc ≠ .meet p) :
    ∃ E, Episode s.bar E (Function.update (fun j => (s.pos j).member phases) m
      ((⟨(s.pos m).k + 1, .front⟩ : Pos).member phases)) := by
  refine h.same ?_
  have hsucc := meetsIn_succ hph
  simp only [reduceCtorEq, if_false, Nat.add_zero] at hsucc
  simp only [Pos.member, hsucc]

theorem DuelInv.measured (hb : b + phases.count .duel < 2 ^ 32) (h : DuelInv phases b s)
    (htest : s.coll.pc (member n 0) = .test) (hph : phases[(s.pos 0).k]? = some .duel) (hpc : (s.pos 0).pc = .measure) :
    DuelInv phases b (s.phaseStep 0 .duel) := by
  have hsucc := duelsIn_succ hph
  simp only [if_true] at hsucc
  have hle := duelsIn_le phases ((s.pos 0).k + 1)
  have hsig := h.sig
  have hlt : (s.flag.flag + 1).toNat = s.flag.flag.toNat + 1 := by
    rw [BitVec.toNat_add]
    exact Nat.mod_eq_of_lt (show s.flag.flag.toNat + 1 < 2 ^ 32 by omega)
  simp only [Duels.phaseStep, hpc]
  refine h.moves htest (phase_lt hph) (h.behind hph (by rw [hpc]; simp)) ?_ h.pas ?_ fun p hp => ?_
  · rw [Function.update_self, hsucc]
    simp only [Flag.signal, hlt]
    omega
  · rw [Function.update_self, hsucc]
    exact Nat.le_succ_of_le h.le
  · have hfits := h.fits p hp
    cases p with
    | loadNext => trivial
    | loadFlag v => exact hfits
    | addNext =>
      simp only [TrywaitPc.Fits, Flag.signal, BitVec.lt_def, hlt] at hfits ⊢
      exact Nat.lt_succ_of_lt hfits

theorem DuelInv.load (hb : b + phases.count .duel < 2 ^ 32) (h : DuelInv phases b s)
    (htest : s.coll.pc (member n 1) = .test) (hph : phases[(s.pos 1).k]? = some .duel) {p : TrywaitPc}
    (hpc : (s.pos 1).pc = .load p) : DuelInv phases b (s.phaseStep 1 .duel) := by
  have hfits := h.fits p hpc
  have hmem : ∀ q, (⟨(s.pos 1).k, .load q⟩ : Pos).member phases = (s.pos 1).member phases := fun q => by
    simp [Pos.member, hpc]
  have hload : ∀ q : TrywaitPc, q.Fits s.flag →
      DuelInv phases b { s with pos := Function.update s.pos 1 ⟨(s.pos 1).k, .load q⟩ } := fun q hq =>
    h.stays htest ⟨hph, rfl⟩ rfl (h.same (hmem q)) (fun q' hq' => by cases hq'; exact hq)
  simp only [Duels.phaseStep, hpc]
  have hpas := h.pas
  have hsig := h.sig
  cases p with
  | loadNext => exact hload _ rfl
  | loadFlag v =>
    have hv : v = s.flag.next + 1 := hfits
    by_cases hlt : s.flag.flag < v
    · simp only [TrywaitPc.step, if_pos hlt]
      exact hload _ trivial
    · simp only [TrywaitPc.step, if_neg hlt]
      refine hload _ ?_
      have hle := duelsIn_lt hph (show (s.pos 1).k < (s.pos 1).k + 1 from Nat.lt_succ_self _)
      have hmax := duelsIn_le phases ((s.pos 1).k + 1)
      simp only [TrywaitPc.Fits]
      subst hv
      bv_omega
  | addNext =>
    have hnext : s.flag.next < s.flag.flag := hfits
    rw [BitVec.lt_def] at hnext
    have hsucc := duelsIn_succ hph
    simp only [if_true] at hsucc
    have hadd : (s.flag.next + 1).toNat = s.flag.next.toNat + 1 := by
      rw [BitVec.toNat_add]
      exact Nat.mod_eq_of_lt (show s.flag.next.toNat + 1 < 2 ^ 32 by omega)
    refine h.moves htest (phase_lt hph) (h.behind hph (by rw [hpc]; simp)) h.sig ?_ ?_ fun q hq => ?_
    · rw [Function.update_self]
      show (s.flag.next + 1).toNat = b + duelsIn phases ((s.pos 1).k + 1)
      omega
    · rw [Function.update_self, Function.update_of_ne (show (0 : Fin 2) ≠ 1 by decide)]
      show duelsIn phases ((s.pos 1).k + 1) ≤ _
      omega
    · rw [Function.update_self] at hq
      cases hq

theorem DuelInv.duel (hb : b + phases.count .duel < 2 ^ 32) (h : DuelInv phases b s)
    (htest : s.coll.pc (member n m) = .test) (hph : phases[(s.pos m).k]? = some .duel) :
    DuelInv phases b (s.phaseStep m .duel) := by
  have hat := h.place m
  cases hpc : (s.pos m).pc with
  | front =>
    simp only [Duels.phaseStep, hpc]
    have hmem : ∀ pc, (∀ p, pc ≠ .meet p) → (⟨(s.pos m).k, pc⟩ : Pos).member phases = (s.pos m).member phases := by
      intro pc hne
      simp only [Pos.member, hpc]
    by_cases hm : m.val = 0
    · rw [if_pos hm]
      exact h.stays htest ⟨hph, hm⟩ rfl (h.same (hmem _ (by simp))) (fun p hp => by cases hp)
    · rw [if_neg hm]
      have hm1 : m.val = 1 := by omega
      exact h.stays htest ⟨hph, hm1⟩ rfl (h.same (hmem _ (by simp))) (fun p hp => by cases hp; trivial)
  | meet p =>
    simp only [Pos.At, hpc, hph] at hat
    cases hat
  | measure =>
    simp only [Pos.At, hpc] at hat
    obtain rfl : m = 0 := Fin.ext hat.2
    exact h.measured hb htest hph hpc
  | load p =>
    simp only [Pos.At, hpc] at hat
    obtain rfl : m = 1 := Fin.ext hat.2
    exact h.load hb htest hph hpc

/-! ### The region -/

theorem member_mask (hn : n + 2 ≤ maxCpu) (m : Fin 2) : inMask 0x0003 (member n m) = true := by
  rw [inMask_three (Nat.lt_of_lt_of_le (member n m).isLt hn)]
  exact decide_eq_true m.isLt

/-- A CPU in the mask is one of the two. -/
theorem eq_member (hn : n + 2 ≤ maxCpu) (hi : inMask 0x0003 i = true) : ∃ m, i = member n m := by
  rw [inMask_three (Nat.lt_of_lt_of_le i.isLt hn)] at hi
  exact ⟨⟨i.val, of_decide_eq_true hi⟩, rfl⟩

theorem not_mask (hn : n + 2 ≤ maxCpu) (hi : 2 ≤ i.val) : inMask 0x0003 i = false := by
  rw [inMask_three (Nat.lt_of_lt_of_le i.isLt hn)]
  exact decide_eq_false (Nat.not_lt.mpr hi)

/-- Where a member of the region can come to from `p`. -/
def CollPc.Next {n : Nat} (q : CollPc n) : CollPc n → Prop
  | .call      => q = .trylock
  | .trylock   => q = .setMaster ∨ q = .test
  | .setMaster => q = .setMask
  | .setMask   => q = .test
  | .halt _    => True
  | .done      => False
  | _          => q = .done ∨ q = .unlock ∨ (∃ u, q = .next u) ∨ ∃ u p, q = .wake u p

/-- **What a step of the region does**: the others stay where they are, and the flags of CPU `j` are written by
`smp_halt` on CPU `j` and by `smp_wakeup(j)` only. -/
theorem Coll.step_cases {n : Nat} {c c' : Coll n} {mask : BitVec 16} {i : Fin n} (hs : c.step mask i = some c') :
    ∃ q, c'.pc = Function.update c.pc i q ∧ (inMask mask i = true → q.Next (c.pc i)) ∧
      ∀ j, c'.flags j = c.flags j ∨ (∃ p, c.pc i = .halt p ∧ j = i) ∨ ∃ p, c.pc i = .wake j p := by
  cases hpc : c.pc i with
  | wake u p =>
    rw [Coll.step_wake hpc, Option.some.injEq] at hs
    subst hs
    refine ⟨_, rfl, fun _ => ?_, fun j => ?_⟩
    · cases (p.step (c.flags u)).2 <;> simp [CollPc.wakes, CollPc.Next]
    · by_cases hj : j = u
      · subst hj; exact .inr (.inr ⟨p, rfl⟩)
      · exact .inl (Function.update_of_ne hj _ _)
  | halt p =>
    simp only [Coll.step, hpc] at hs
    cases hs
    refine ⟨_, rfl, fun _ => trivial, fun j => ?_⟩
    by_cases hj : j = i
    · subst hj; exact .inr (.inl ⟨p, rfl, rfl⟩)
    · exact .inl (Function.update_of_ne hj _ _)
  | call =>
    simp only [Coll.step, hpc] at hs
    cases hs
    exact ⟨_, rfl, fun hi => by simp [hi, CollPc.Next], fun j => .inl rfl⟩
  | trylock =>
    simp only [Coll.step, hpc] at hs
    cases hs
    split
    · exact ⟨_, rfl, fun _ => .inl rfl, fun j => .inl rfl⟩
    · exact ⟨_, rfl, fun _ => .inr rfl, fun j => .inl rfl⟩
  | test =>
    simp only [Coll.step, hpc] at hs
    cases hs
    split
    · exact ⟨_, rfl, fun _ => by simp [CollPc.Next], fun j => .inl rfl⟩
    · exact ⟨_, rfl, fun _ => by simp [CollPc.Next], fun j => .inl rfl⟩
  | next u =>
    simp only [Coll.step, hpc] at hs
    split at hs
    · split at hs
      · cases hs; exact ⟨_, rfl, fun _ => by simp [CollPc.Next], fun j => .inl rfl⟩
      · cases hs; exact ⟨_, rfl, fun _ => by simp [CollPc.Next], fun j => .inl rfl⟩
    · cases hs; exact ⟨_, rfl, fun _ => by simp [CollPc.Next], fun j => .inl rfl⟩
  | done => simp only [Coll.step, hpc] at hs; cases hs
  | setMaster =>
    simp only [Coll.step, hpc] at hs
    cases hs
    exact ⟨_, rfl, fun _ => by simp [CollPc.Next], fun j => .inl rfl⟩
  | setMask =>
    simp only [Coll.step, hpc] at hs
    cases hs
    exact ⟨_, rfl, fun _ => by simp [CollPc.Next], fun j => .inl rfl⟩
  | unlock =>
    simp only [Coll.step, hpc] at hs
    cases hs
    exact ⟨_, rfl, fun _ => by simp [CollPc.Next], fun j => .inl rfl⟩

/-- A member that finds `test` is through its phases. -/
theorem CollPc.Next.stage {n : Nat} {p q : CollPc n} (h : q.Next p) (hst : p.Stage phases x)
    (ht : p = .test → x = ⟨phases.length, .front⟩) : q.Stage phases x := by
  cases p with
  | call => subst h; exact hst
  | trylock =>
    rcases h with rfl | rfl
    · exact hst
    · trivial
  | setMaster => subst h; exact hst
  | setMask => subst h; trivial
  | halt p => exact hst.elim
  | done => exact h.elim
  | test => rcases h with rfl | rfl | ⟨u, rfl⟩ | ⟨u, p, rfl⟩ <;> exact ht rfl
  | next u => rcases h with rfl | rfl | ⟨u, rfl⟩ | ⟨u, p, rfl⟩ <;> exact hst
  | wake u p => rcases h with rfl | rfl | ⟨u, rfl⟩ | ⟨u, p, rfl⟩ <;> exact hst
  | unlock => rcases h with rfl | rfl | ⟨u, rfl⟩ | ⟨u, p, rfl⟩ <;> exact hst

theorem Duels.step_cases (hs : s.step phases i = some s') :
    (∃ m ph, i = member n m ∧ s.coll.pc i = .test ∧ phases[(s.pos m).k]? = some ph ∧ s' = s.phaseStep m ph) ∨
      (∀ m, i = member n m → s.coll.pc i = .test → phases[(s.pos m).k]? = none) ∧
        ∃ c, s.coll.step 0x0003 i = some c ∧ s' = { s with coll := c } := by
  have hcoll : (s.coll.step 0x0003 i).map (fun coll => { s with coll := coll }) = some s' →
      ∃ c, s.coll.step 0x0003 i = some c ∧ s' = { s with coll := c } := fun h => by
    obtain ⟨c, hc, rfl⟩ := Option.map_eq_some_iff.mp h
    exact ⟨c, hc, rfl⟩
  unfold Duels.step Duels.works? at hs
  by_cases hi : i.val < 2
  · by_cases ht : s.coll.pc i = .test
    · rw [dif_pos hi, if_pos ht] at hs
      cases hph : phases[(s.pos ⟨i.val, hi⟩).k]? with
      | some ph =>
        simp only [Option.bind_some, hph, Option.map_some, Option.some.injEq] at hs
        exact .inl ⟨⟨i.val, hi⟩, ph, rfl, ht, hph, hs.symm⟩
      | none =>
        simp only [Option.bind_some, hph, Option.map_none] at hs
        refine .inr ⟨fun m hm _ => ?_, hcoll hs⟩
        have : m = ⟨i.val, hi⟩ := Fin.ext (congrArg Fin.val hm).symm
        rw [this, hph]
    · rw [dif_pos hi, if_neg ht] at hs
      exact .inr ⟨fun m _ htest => absurd htest ht, hcoll hs⟩
  · rw [dif_neg hi] at hs
    refine .inr ⟨fun m hm _ => absurd ?_ hi, hcoll hs⟩
    rw [hm]
    exact m.isLt

theorem Pos.At.through (h : x.At phases m) (hk : phases[x.k]? = none) : x = ⟨phases.length, .front⟩ := by
  obtain ⟨k, pc⟩ := x
  cases pc with
  | front =>
    have hle : k ≤ phases.length := h
    have hge := List.getElem?_eq_none_iff.mp hk
    rw [Nat.le_antisymm hle hge]
  | meet p => exact absurd (hk.symm.trans h) (by simp)
  | measure => exact absurd (hk.symm.trans h.1) (by simp)
  | load p => exact absurd (hk.symm.trans h.1) (by simp)

/-- When one member is through its phases, the other has come to the first of them. -/
theorem DuelInv.met (hp : Paced phases) (h : DuelInv phases b s) (hm : s.pos m = ⟨phases.length, .front⟩) (j : Fin 2) :
    s.pos j ≠ ⟨0, .front⟩ := by
  intro hj
  obtain ⟨E, hE⟩ := h.inner
  have hpos : meetsIn phases 0 < meetsIn phases phases.length := meetsIn_lt hp.first (phase_lt hp.first)
  have hm' := hE.done_eq m
  have hj' := hE.done_eq j
  simp only [hm, hj, Pos.member, ne_eq, not_true_eq_false, and_false, or_false] at hm' hj'
  omega

theorem DuelInv.not_before (hp : Paced phases) (h : DuelInv phases b s) (hm : s.pos m = ⟨phases.length, .front⟩)
    (j : Fin 2) : s.coll.pc (member n j) ≠ .call ∧ s.coll.pc (member n j) ≠ .trylock ∧
      s.coll.pc (member n j) ≠ .setMaster := by
  have hj := h.met hp hm j
  have hst := h.stage j
  refine ⟨fun hpc => ?_, fun hpc => ?_, fun hpc => ?_⟩ <;> (rw [hpc] at hst; exact hj hst)

/-- CPUs outside the mask are in `smp_halt`, in front of it or behind it. -/
theorem CollInv.outside_pc {c : Coll n} {mask : BitVec 16} {j : Fin n} (h : CollInv mask c)
    (hj : inMask mask j = false) : c.pc j = .call ∨ (∃ p, c.pc j = .halt p) ∨ c.pc j = .done := by
  obtain ⟨wk, ho⟩ : ∃ wk, (c.pc j).Sleeps (c.flags j) wk := by
    cases h with
    | untried free masters wakes members outside => exact ⟨_, outside j hj⟩
    | won w member leads members outside => exact ⟨_, outside j hj⟩
  cases hpc : c.pc j <;> rw [hpc] at ho <;> first
    | exact ho.elim
    | exact .inl rfl
    | exact .inr (.inl ⟨_, rfl⟩)
    | exact .inr (.inr rfl)

/-- When the mutex is going to be freed, the others have been woken. -/
theorem CollInv.outside_done {c : Coll n} {mask : BitVec 16} {j w : Fin n} (h : CollInv mask c)
    (hw : c.pc w = .unlock) (hwm : inMask mask w = true) (hj : inMask mask j = false) : c.pc j = .done := by
  cases h with
  | untried free masters wakes members outside =>
    rcases members w hwm with h | h <;> rw [hw] at h <;> cases h
  | won v member leads members outside =>
    obtain rfl : w = v := by
      by_contra hne
      have hl := members w hwm hne
      rw [hw] at hl
      exact hl
    have ho := outside j hj
    rw [hw] at ho
    cases hpc : c.pc j <;> rw [hpc] at ho <;> first
      | exact ho.elim
      | rfl
      | cases (Paired.behind ho).2

/-- **`barr2` lets the region's steps be in turn.** -/
theorem DuelInv.inTurn (hn : n + 2 ≤ maxCpu) (hp : Paced phases) (h : DuelInv phases b s)
    (ht : ∀ m, i = member n m → s.coll.pc i = .test → phases[(s.pos m).k]? = none) : inTurn s.coll i = true := by
  unfold SmpBoot.inTurn
  cases hpc : s.coll.pc i with
  | unlock =>
    simp only [decide_eq_true_eq]
    have hi : inMask 0x0003 i = true := by
      by_contra hi
      rcases h.coll.outside_pc (Bool.eq_false_iff.mpr hi) with h | ⟨p, h⟩ | h <;> rw [hpc] at h <;> cases h
    obtain ⟨m, rfl⟩ := eq_member hn hi
    have hm := h.stage m
    rw [hpc] at hm
    intro j
    cases hj : inMask 0x0003 j with
    | true =>
      obtain ⟨m', rfl⟩ := eq_member hn hj
      obtain ⟨h1, h2, -⟩ := h.not_before hp hm m'
      exact ⟨h1, h2⟩
    | false =>
      rw [h.coll.outside_done hpc hi hj]
      exact ⟨by simp, by simp⟩
  | test =>
    simp only [decide_eq_true_eq]
    have hi : inMask 0x0003 i = true := by
      by_contra hi
      rcases h.coll.outside_pc (Bool.eq_false_iff.mpr hi) with h | ⟨p, h⟩ | h <;> rw [hpc] at h <;> cases h
    obtain ⟨m, rfl⟩ := eq_member hn hi
    have hm := (h.place m).through (ht m rfl hpc)
    intro _ j
    cases hj : inMask 0x0003 j with
    | true =>
      obtain ⟨m', rfl⟩ := eq_member hn hj
      exact (h.not_before hp hm m').2.2
    | false =>
      rcases h.coll.outside_pc hj with h | ⟨p, h⟩ | h <;> rw [h] <;> simp
  | _ => rfl

theorem DuelInv.step (hn : n + 2 ≤ maxCpu) (hp : Paced phases) (hb : b + phases.count .duel < 2 ^ 32)
    (h : DuelInv phases b s) (hs : s.step phases i = some s') : DuelInv phases b s' := by
  rcases Duels.step_cases hs with ⟨m, ph, rfl, htest, hph, rfl⟩ | ⟨ht, c, hc, rfl⟩
  · cases ph with
    | meet => exact h.meet htest hph
    | duel => exact h.duel hb htest hph
  · have hn32 : n + 2 ≤ 2 ^ 32 := Nat.le_trans hn (by decide)
    obtain ⟨q, hpc, hnext, hflags⟩ := Coll.step_cases hc
    refine ⟨h.coll.step hn32 (h.inTurn hn hp ht) hc, fun m => ?_, h.inner, h.place, fun m => ?_, h.sig, h.pas, h.le,
      h.fits⟩
    · -- only the flags of CPUs outside the mask are written
      show c.flags (member n m) = 0
      have hst := h.stage m
      rcases hflags (member n m) with heq | ⟨p, hp, heq⟩ | ⟨p, hp⟩
      · rw [heq]; exact h.awake m
      · rw [heq, hp] at hst; exact hst.elim
      · have hmask := (h.coll.waker hp).1
        rw [member_mask hn] at hmask
        cases hmask
    · show (c.pc (member n m)).Stage phases (s.pos m)
      rw [hpc]
      by_cases hm : member n m = i
      · rw [hm, Function.update_self]
        refine (hnext (hm ▸ member_mask hn m)).stage (hm ▸ h.stage m) fun htest => ?_
        exact (h.place m).through (ht m hm.symm htest)
      · rw [Function.update_of_ne hm]
        exact h.stage m

/-- While it works on its phases, a member is in the region. -/
theorem DuelInv.test_of_busy (h : DuelInv phases b s) (hf : ∀ k, s.pos m ≠ ⟨k, .front⟩) :
    s.coll.pc (member n m) = .test := by
  have hst := h.stage m
  cases hpc : s.coll.pc (member n m) <;> rw [hpc] at hst <;> first
    | rfl
    | exact absurd hst (hf _)
    | exact hst.elim

theorem DuelInv.same_duel (hp : Paced phases) (h : DuelInv phases b s) (hpc : (s.pos 0).pc = .measure) :
    s.coll.pc (member n 1) = .test ∧
      ((s.pos 1).k = (s.pos 0).k ∨ (s.pos 1).k + 1 = (s.pos 0).k ∧ ∃ p, (s.pos 1).pc = .meet p) := by
  obtain ⟨E, hE⟩ := h.inner
  have hat := h.place 0
  simp only [Pos.At, hpc] at hat
  obtain ⟨hduel, -⟩ := hat
  obtain ⟨k', hk', hmeet⟩ := hp.before _ hduel
  have hE0 : meetsIn phases (s.pos 0).k = E := by
    have := hE.done_eq 0
    simpa [Pos.member, hpc] using this
  have hlt : meetsIn phases k' < E := by
    rw [← hE0]
    exact meetsIn_lt hmeet (by omega)
  have hle := h.le
  -- CPU 1 has not passed this duel
  have hk1 : (s.pos 1).k ≤ (s.pos 0).k := by
    by_contra hcon
    have := duelsIn_lt hduel (Nat.lt_of_not_le hcon)
    omega
  have h1 := hE.done_eq 1
  refine ⟨?_, ?_⟩
  · have hst := h.stage 1
    have h0 : s.pos 1 ≠ ⟨0, .front⟩ := fun h0 => by
      rw [h0] at h1
      have hz : meetsIn phases 0 = 0 := rfl
      simp only [Pos.member, hz, ne_eq, not_true_eq_false, and_false, or_false] at h1
      omega
    have hend : s.pos 1 ≠ ⟨phases.length, .front⟩ := fun hend => by
      have hlen := phase_lt hduel
      rw [hend] at hk1
      exact absurd hk1 (Nat.not_le.mpr hlen)
    cases hq : s.coll.pc (member n 1) <;> rw [hq] at hst <;> first
      | rfl
      | exact absurd hst h0
      | exact absurd hst hend
      | exact hst.elim
  · rcases h1 with hd | ⟨hd, hne⟩
    · refine .inl (Nat.le_antisymm hk1 ?_)
      by_contra hcon
      have : meetsIn phases (s.pos 1).k ≤ meetsIn phases k' := meetsIn_mono (by omega)
      have hd' : meetsIn phases (s.pos 1).k = E := hd
      omega
    · have hd' : meetsIn phases (s.pos 1).k + 1 = E := hd
      cases hq : (s.pos 1).pc with
      | meet p =>
        refine .inr ⟨?_, p, rfl⟩
        have hph := h.place 1
        simp only [Pos.At, hq] at hph
        have hsucc := meetsIn_succ hmeet
        rw [← hk', hE0] at hsucc
        simp only [if_true] at hsucc
        rcases Nat.lt_trichotomy (s.pos 1).k k' with hl | he | hg
        · have := meetsIn_lt hph hl
          omega
        · rw [he, hk']
        · have := meetsIn_lt hmeet hg
          omega
      | _ => simp [Pos.member, hq] at hne

theorem DuelInv.asleep (hn : n + 2 ≤ maxCpu) (h : DuelInv phases b s) (ht : ∀ m, s.coll.pc (member n m) = .test)
    {j : Fin (n + 2)} (hj : 2 ≤ j.val) : s.coll.pc j ≠ .done := by
  intro hd
  have hjm := not_mask hn hj
  cases h.coll with
  | untried free masters wakes members outside =>
    rcases members _ (member_mask hn 0) with h | h <;> rw [ht 0] at h <;> cases h
  | won w hw leads members outside =>
    obtain ⟨m, rfl⟩ := eq_member hn hw
    have ho := outside j hjm
    rw [hd, ht m] at ho
    have hpair : Paired (s.coll.flags j) .behind .before := ho
    cases hpair with
    | awake _ ht _ => simp at ht
    | asleep _ ht _ => simp at ht
    | woken _ _ hw => cases hw
    | done _ _ hw => simp at hw

theorem DuelInv.over (hn : n + 2 ≤ maxCpu) (h : DuelInv phases b s) (hend : s.coll.Ended) :
    s.flag.flag.toNat = b + phases.count .duel ∧
      s.again = .start n s.coll.master s.coll.mask s.bar.epoch s.flag.flag := by
  have hpos : ∀ m, s.pos m = ⟨phases.length, .front⟩ := fun m => by
    have hst := h.stage m
    rw [hend] at hst
    exact hst
  have hall : duelsIn phases phases.length = phases.count .duel := by rw [duelsIn, List.take_length]
  have hsig := h.sig
  have hpas := h.pas
  rw [hpos, hall] at hsig hpas
  refine ⟨hsig, ?_⟩
  have hflag : s.flag = ⟨s.flag.flag, s.flag.flag⟩ := by
    have : s.flag.next = s.flag.flag := BitVec.eq_of_toNat_eq (hpas.trans hsig.symm)
    calc s.flag = ⟨s.flag.flag, s.flag.next⟩ := rfl
      _ = ⟨s.flag.flag, s.flag.flag⟩ := by rw [this]
  have hbar : s.bar = ⟨0, s.bar.epoch, 2⟩ := by
    obtain ⟨E, hE⟩ := h.inner
    have hcnt := hE.cnt
    rw [count_eq_zero (fun m => by rw [hpos m]; rfl),
      count_eq_zero (fun m => by simp [hpos m, Pos.member, Member.arrived]), if_pos rfl] at hcnt
    have hcnt0 : s.bar.cnt = 0 := BitVec.eq_of_toNat_eq hcnt
    have hmax : s.bar.max = 2 := hE.max
    calc s.bar = ⟨s.bar.cnt, s.bar.epoch, s.bar.max⟩ := rfl
      _ = ⟨0, s.bar.epoch, 2⟩ := by rw [hcnt0, hmax]
  have hfree : s.coll.free = true := ((h.coll.safe ⟨_, member_mask hn 0⟩).ended hend).2.2
  have hflags : s.coll.flags = fun _ => 0 := by
    funext j
    cases hj : inMask 0x0003 j with
    | true =>
      obtain ⟨m, rfl⟩ := eq_member hn hj
      exact h.awake m
    | false =>
      cases h.coll with
      | untried free masters wakes members outside =>
        rcases members _ (member_mask hn 0) with h | h <;> rw [hend] at h <;> cases h
      | won w hw leads members outside =>
        have ho := outside j hj
        rw [hend j, hend w] at ho
        exact (Paired.behind ho).1
  simp only [Duels.again, Duels.start, Coll.start, Duels.mk.injEq, Coll.mk.injEq]
  exact ⟨⟨hfree, trivial, trivial, hflags, trivial, trivial, trivial⟩, hbar, hflag, trivial⟩

theorem DuelInv.safe (hn : n + 2 ≤ maxCpu) (hp : Paced phases) {flag : Unsigned} (h : DuelInv phases flag.toNat s) :
    DuelSafe phases flag s where
  coll    := h.coll.safe ⟨_, member_mask hn 0⟩
  measure := h.same_duel hp
  asleep  := fun hpc _ hj => by
    have h0 : s.coll.pc (member n 0) = .test := h.test_of_busy fun k hk => by rw [hk] at hpc; cases hpc
    have h1 := (h.same_duel hp hpc).1
    refine h.asleep hn (fun m => ?_) hj
    rcases Fin.exists_fin_two.mp ⟨m, rfl⟩ with rfl | rfl
    · exact h0
    · exact h1
  ended   := h.over hn

/-! ## The end of the benchmark -/

def PhasePc.left : PhasePc → Nat
  | .front   => 8
  | .meet p  => p.left
  | .measure => 0
  | .load p  => p.left

/-- How many accesses a member has left in its phases, failing tests aside. -/
def Pos.left (phases : List Phase) (x : Pos) : Nat := 9 * (phases.length - x.k) + x.pc.left

def Duels.left (phases : List Phase) (s : Duels n) : Nat := s.coll.left + ∑ m, (s.pos m).left phases

theorem Pos.left_next {k : Nat} {pc : PhasePc} {ph : Phase} (h : phases[k]? = some ph) :
    (⟨k + 1, .front⟩ : Pos).left phases < (⟨k, pc⟩ : Pos).left phases := by
  have := phase_lt h
  simp only [Pos.left, PhasePc.left]
  omega

/-- The next access of the member is not one of a waiting loop that goes round again. -/
def Duels.Goes (s : Duels n) (m : Fin 2) : Prop :=
  (∀ e, (s.pos m).pc = .meet (.spin e) → e ≠ s.bar.epoch) ∧ ((∃ p, (s.pos m).pc = .load p) → s.flag.next < s.flag.flag)

theorem Duels.left_lt {bar : Barrier} {flag : Flag} (hx : x.left phases < (s.pos m).left phases) :
    ({ s with bar := bar, flag := flag, pos := Function.update s.pos m x } : Duels n).left phases < s.left phases := by
  refine Nat.add_lt_add_left (sum_lt_at m ?_ fun j hj => ?_) _
  · simpa using hx
  · simp [hj]

theorem TrywaitPc.step_left {f : Flag} {p : TrywaitPc} (hp : p.Fits f) (hf : f.next < f.flag) :
    (p.step f).2 = .inr true ∨ ∃ p', (p.step f).2 = .inl p' ∧ p'.left < p.left := by
  cases p with
  | loadNext => exact .inr ⟨_, rfl, show 2 < 3 by decide⟩
  | loadFlag v =>
    have hv : ¬f.flag < v := by
      have hp' : v = f.next + 1 := hp
      subst hp'
      bv_omega
    exact .inr ⟨_, if_neg hv, show 1 < 2 by decide⟩
  | addNext => exact .inl rfl

/-- A member that does not wait has less left. -/
theorem DuelInv.phase_left (h : DuelInv phases b s) {ph : Phase} (hph : phases[(s.pos m).k]? = some ph)
    (hg : s.Goes m) : (s.phaseStep m ph).left phases < s.left phases := by
  have hat := h.place m
  obtain ⟨hspin, hload⟩ := hg
  have hx : ∀ {k pc}, s.pos m = ⟨k, pc⟩ → (s.pos m).k = k ∧ (s.pos m).pc = pc := fun h => by rw [h]; exact ⟨rfl, rfl⟩
  cases hpos : s.pos m with
  | mk k pc =>
    obtain ⟨hk, hpc⟩ := hx hpos
    rw [hk] at hph
    rw [hpc] at hspin hload
    rw [hpos] at hat
    cases ph with
    | meet =>
      cases pc with
      | meet p =>
        have hgo : ∀ e, p = .spin e → e ≠ s.bar.epoch := fun e he => hspin e (by rw [he])
        have hlt := BarrierPc.step_left hgo
        simp only [Duels.phaseStep, hpc, hk]
        refine Duels.left_lt ?_
        rw [hpos]
        cases hr : (p.step s.bar).2 with
        | none => exact Pos.left_next hph
        | some p' =>
          rw [hr] at hlt
          exact Nat.add_lt_add_left hlt _
      | front =>
        simp only [Duels.phaseStep, hpc, hk]
        refine Duels.left_lt ?_
        rw [hpos]
        exact Nat.add_lt_add_left (show 7 < 8 by decide) _
      | measure => exact absurd (hph.symm.trans hat.1) (by simp)
      | load p => exact absurd (hph.symm.trans hat.1) (by simp)
    | duel =>
      cases pc with
      | meet p => exact absurd (hph.symm.trans hat) (by simp)
      | front =>
        simp only [Duels.phaseStep, hpc, hk]
        refine Duels.left_lt ?_
        rw [hpos]
        refine Nat.add_lt_add_left ?_ _
        split <;> simp [PhasePc.left, TrywaitPc.left]
      | measure =>
        simp only [Duels.phaseStep, hpc, hk]
        refine Duels.left_lt ?_
        rw [hpos]
        exact Pos.left_next hph
      | load p =>
        obtain rfl : m = 1 := Fin.ext hat.2
        simp only [Duels.phaseStep, hpc, hk]
        refine Duels.left_lt ?_
        rw [hpos]
        rcases TrywaitPc.step_left (h.fits p hpc) (hload ⟨p, rfl⟩) with hr | ⟨p', hr, hlt⟩
        · rw [hr]
          exact Pos.left_next hph
        · rw [hr]
          exact Nat.add_lt_add_left hlt _

/-- A member does not wait in `barr2` for one that waits for it. -/
theorem DuelInv.not_spin (h : DuelInv phases b s)
    (hnone : ∀ m ph, phases[(s.pos m).k]? = some ph → ¬s.Goes m) {e : Unsigned} (hpc : (s.pos m).pc = .meet (.spin e)) :
    e ≠ s.bar.epoch := by
  intro he
  obtain ⟨E, hE⟩ := h.inner
  have hph := h.place m
  simp only [Pos.At, hpc] at hph
  have hm : meetsIn phases (s.pos m).k = E := by
    rcases hE.done_eq m with hd | ⟨hd, -⟩
    · exact hd
    · exact absurd he (hE.leaving hd (by simp [Pos.member, hpc]))
  obtain ⟨j, hj⟩ := hE.not_all_spin
  have hjspin : ∀ e', (s.pos j).pc = .meet (.spin e') → e' ≠ s.bar.epoch := fun e' he' =>
    hj e' (by simp [Pos.member, he'])
  cases hphj : phases[(s.pos j).k]? with
  | none =>
    have hend := (h.place j).through hphj
    have hd := hE.done_eq j
    simp only [hend, Pos.member, ne_eq, not_true_eq_false, and_false, or_false] at hd
    have := meetsIn_lt hph (phase_lt hph)
    omega
  | some ph =>
    -- then `j` is CPU 1 and waits for the signal of CPU 0
    have hstuck : (∃ p, (s.pos j).pc = .load p) ∧ ¬s.flag.next < s.flag.flag := by
      by_contra hcon
      exact hnone j ph hphj ⟨hjspin, fun hl => by_contra fun hlt => hcon ⟨hl, hlt⟩⟩
    obtain ⟨⟨p, hp⟩, hlt⟩ := hstuck
    have hat := h.place j
    simp only [Pos.At, hp] at hat
    obtain ⟨hduel, hj1⟩ := hat
    obtain rfl : j = 1 := Fin.ext hj1
    have hm0 : m = 0 := by
      by_contra hm0
      have hm1 : m = 1 := by omega
      subst hm1
      rw [hp] at hpc
      cases hpc
    subst hm0
    have h1 : meetsIn phases (s.pos 1).k = E := by
      have := hE.done_eq 1
      simpa [Pos.member, hp] using this
    have hsig := h.sig
    have hpas := h.pas
    rw [BitVec.lt_def] at hlt
    rcases Nat.lt_trichotomy (s.pos 1).k (s.pos 0).k with hl | heq | hg
    · have := duelsIn_lt hduel hl
      omega
    · rw [heq, hph] at hduel
      cases hduel
    · have := meetsIn_lt hph hg
      omega

/-- **While a member has phases left, one of them goes on.** -/
theorem DuelInv.goes (h : DuelInv phases b s) {ph : Phase} (hph : phases[(s.pos m).k]? = some ph) :
    ∃ m ph, phases[(s.pos m).k]? = some ph ∧ s.Goes m := by
  by_contra hcon
  have hnone : ∀ m ph, phases[(s.pos m).k]? = some ph → ¬s.Goes m := fun m ph hph hg => hcon ⟨m, ph, hph, hg⟩
  have hload : ∀ {m ph}, phases[(s.pos m).k]? = some ph →
      (∃ p, (s.pos m).pc = .load p) ∧ ¬s.flag.next < s.flag.flag := by
    intro m ph hph
    by_contra hl
    exact hnone m ph hph ⟨fun e he => h.not_spin hnone he, fun hex => by_contra fun hlt => hl ⟨hex, hlt⟩⟩
  obtain ⟨⟨p, hpc⟩, hlt⟩ := hload hph
  have hat := h.place m
  simp only [Pos.At, hpc] at hat
  obtain ⟨hduel, hm1⟩ := hat
  obtain rfl : m = 1 := Fin.ext hm1
  cases hph0 : phases[(s.pos 0).k]? with
  | some ph0 =>
    obtain ⟨⟨p0, hp0⟩, -⟩ := hload hph0
    have hat0 := h.place 0
    simp only [Pos.At, hp0] at hat0
    exact absurd hat0.2 (by decide)
  | none =>
    have hend := (h.place 0).through hph0
    have hsig : s.flag.flag.toNat = b + duelsIn phases phases.length := by
      rw [h.sig, hend]
    have hpas := h.pas
    have := duelsIn_lt hduel (phase_lt hduel)
    rw [BitVec.lt_def] at hlt
    omega

theorem Duels.step_phase {ph : Phase} (ht : s.coll.pc (member n m) = .test) (hph : phases[(s.pos m).k]? = some ph) :
    s.step phases (member n m) = some (s.phaseStep m ph) := by
  have hw : s.works? (member n m) = some m := by
    unfold Duels.works?
    rw [dif_pos (show (member n m).val < 2 from m.isLt), if_pos ht]
    rfl
  unfold Duels.step
  simp only [hw, Option.bind_some, hph, Option.map_some]

theorem Duels.step_coll {c : Coll (n + 2)} (hc : s.coll.step 0x0003 i = some c)
    (ht : ∀ m, i = member n m → s.coll.pc i = .test → phases[(s.pos m).k]? = none) :
    s.step phases i = some { s with coll := c } := by
  have hw : ((s.works? i).bind fun m => (phases[(s.pos m).k]?).map (Prod.mk m)) = none := by
    unfold Duels.works?
    by_cases hi : i.val < 2
    · rw [dif_pos hi]
      by_cases htest : s.coll.pc i = .test
      · rw [if_pos htest, Option.bind_some, ht ⟨i.val, hi⟩ rfl htest]
        rfl
      · rw [if_neg htest]
        rfl
    · rw [dif_neg hi]
      rfl
  unfold Duels.step
  simp only [hw, hc, Option.map_some]

theorem DuelInv.less (hn : n + 2 ≤ maxCpu) (h : DuelInv phases b s) (hnot : ¬s.coll.Ended) :
    ∃ i t, s.step phases i = some t ∧ t.left phases < s.left phases := by
  -- a step of the region
  have hcoll : ∀ {i}, s.coll.Moves i → (∀ m, i = member n m → s.coll.pc i = .test → phases[(s.pos m).k]? = none) →
      ∃ i t, s.step phases i = some t ∧ t.left phases < s.left phases := by
    intro i hm ht
    obtain ⟨c, hc, hlt⟩ : ∃ c, s.coll.step 0x0003 i = some c ∧ c.left < s.coll.left := hm.step
    exact ⟨i, _, Duels.step_coll hc ht, Nat.add_lt_add_right hlt _⟩
  by_cases hbusy : ∃ m ph, phases[(s.pos m).k]? = some ph
  · obtain ⟨m, ph, hph⟩ := hbusy
    obtain ⟨m, ph, hph, hg⟩ := h.goes hph
    by_cases ht : s.coll.pc (member n m) = .test
    · exact ⟨_, _, Duels.step_phase ht hph, h.phase_left hph hg⟩
    · -- it has not come into the region
      refine hcoll (i := member n m) ?_ fun m' hm' htest => absurd htest ht
      have hst := h.stage m
      unfold Coll.Moves
      cases hq : s.coll.pc (member n m) <;> rw [hq] at hst <;> first
        | trivial
        | exact hst.elim
        | (rw [hst, List.getElem?_eq_none (Nat.le_refl _)] at hph; cases hph)
  · obtain ⟨i, hc, hm⟩ := h.coll.less ⟨_, member_mask hn 0⟩ hnot
    refine hcoll hm fun m _ _ => ?_
    by_contra hne
    obtain ⟨ph, hph⟩ := Option.ne_none_iff_exists'.mp hne
    exact hbusy ⟨m, ph, hph⟩

end Inv

end SmpBoot
