import SmpBoot.Sync
/-!
# Flags — `flag_t` between the CPUs that signal and the CPUs that wait

`flag` counts the signals and `next` the waits, both modulo 2^32.  A waiting CPU looks at the two, compares, and adds to
`next`, in three accesses.  `inTurn` is the condition under which each signal is consumed by one wait: nobody passes the test
while all signals are consumed or claimed, and `flag` does not wrap while one is not.
-/
namespace SmpBoot

open Interleave

/-- The next access of `flag_wait()`, which makes those of `flag_trywait()`. -/
abbrev WaitPc := TrywaitPc

/-- One access. The test is repeated until it passes. -/
def WaitPc.step (f : Flag) : WaitPc → Flag × (WaitPc ⊕ Bool)
  | .loadNext   => (f, .inl (.loadFlag (f.next + 1)))
  | .loadFlag n => (f, .inl (if f.flag < n then .loadFlag n else .addNext))
  | .addNext    => ({ f with next := f.next + 1 }, .inr true)

inductive FlagCall where
  | wait      -- flag_wait(&flag)
  | trywait   -- flag_trywait(&flag)
  deriving DecidableEq

def FlagCall.step (f : Flag) : FlagCall → TrywaitPc → Flag × (TrywaitPc ⊕ Bool)
  | .wait,    pc => WaitPc.step f pc
  | .trywait, pc => pc.step f

/-- The flag, where each waiting CPU is, and how many signals were given and waits completed. -/
structure FlagSys (ι : Type) where
  flag    : Flag
  cpu     : ι → Option (FlagCall × TrywaitPc)
  signals : Nat
  waits   : Nat

/-- Who moves: a CPU that signals, whichever it is, or a waiting CPU that begins a call or makes its next access. -/
inductive FlagStep (ι : Type) where
  | signal
  | call (i : ι) (c : FlagCall)
  | next (i : ι)
  deriving DecidableEq

section
variable {ι : Type} [DecidableEq ι]

namespace FlagSys

def goto (s : FlagSys ι) (i : ι) (pc : Option (FlagCall × TrywaitPc)) : FlagSys ι :=
  { s with cpu := Function.update s.cpu i pc }

theorem goto_self (s : FlagSys ι) (i : ι) (x : Option (FlagCall × TrywaitPc)) : (s.goto i x).cpu i = x := by
  simp [goto]

theorem goto_ne (s : FlagSys ι) {i j : ι} (h : j ≠ i) (x : Option (FlagCall × TrywaitPc)) : (s.goto i x).cpu j = s.cpu j := by
  simp [goto, h]

def step (s : FlagSys ι) : FlagStep ι → Option (FlagSys ι)
  | .signal   => some { s with flag := s.flag.signal, signals := s.signals + 1 }
  | .call i c =>
    match s.cpu i with
    | none   => some (s.goto i (some (c, .loadNext)))
    | some _ => none
  | .next i   =>
    match s.cpu i with
    | none         => none
    | some (c, pc) =>
      match c.step s.flag pc with
      | (f, .inl pc') => some { s.goto i (some (c, pc')) with flag := f }
      -- `flag_wait()` has come back, or `flag_trywait()` with what it returns
      | (f, .inr b)   => some { s.goto i none with flag := f, waits := s.waits + b.toNat }

/-- `FLAG_INITIALIZER` -/
def start : FlagSys ι := ⟨.init, fun _ => none, 0, 0⟩

/-- **What a step can do.** -/
inductive Moves (s : FlagSys ι) : FlagStep ι → FlagSys ι → Prop
  | signal : Moves s .signal { s with flag := s.flag.signal, signals := s.signals + 1 }
  | call {i : ι} (c : FlagCall) (h : s.cpu i = none) : Moves s (.call i c) (s.goto i (some (c, .loadNext)))
  | load {i : ι} {c : FlagCall} (h : s.cpu i = some (c, .loadNext)) :
      Moves s (.next i) (s.goto i (some (c, .loadFlag (s.flag.next + 1))))
  | pass {i : ι} {c : FlagCall} {n : Unsigned} (h : s.cpu i = some (c, .loadFlag n)) (hn : ¬ s.flag.flag < n) :
      Moves s (.next i) (s.goto i (some (c, .addNext)))
  | fail {i : ι} {c : FlagCall} {n : Unsigned} (h : s.cpu i = some (c, .loadFlag n)) (hn : s.flag.flag < n) :
      Moves s (.next i) (s.goto i (if c = .wait then some (c, .loadFlag n) else none))
  | add {i : ι} {c : FlagCall} (h : s.cpu i = some (c, .addNext)) :
      Moves s (.next i) { s.goto i none with flag := { s.flag with next := s.flag.next + 1 }, waits := s.waits + 1 }

theorem moves {s s' : FlagSys ι} {a : FlagStep ι} (h : s.step a = some s') : s.Moves a s' := by
  cases a with
  | signal => cases h; exact .signal
  | call i c =>
    cases hi : s.cpu i with
    | none => simp only [step, hi] at h; cases h; exact .call c hi
    | some _ => simp only [step, hi] at h; cases h
  | next i =>
    cases hi : s.cpu i with
    | none => simp only [step, hi] at h; cases h
    | some x =>
      obtain ⟨c, pc⟩ := x
      simp only [step, hi] at h
      cases pc with
      | loadNext => cases c <;> cases h <;> exact .load hi
      | addNext => cases c <;> cases h <;> exact .add hi
      | loadFlag n =>
        by_cases hn : s.flag.flag < n
        · cases c with
          | wait => simp only [FlagCall.step, WaitPc.step, if_pos hn] at h; cases h; exact .fail hi hn
          | trywait => simp only [FlagCall.step, TrywaitPc.step, if_pos hn] at h; cases h; exact .fail hi hn
        · cases c with
          | wait => simp only [FlagCall.step, WaitPc.step, if_neg hn] at h; cases h; exact .pass hi hn
          | trywait => simp only [FlagCall.step, TrywaitPc.step, if_neg hn] at h; cases h; exact .pass hi hn

theorem step_of_moves {s s' : FlagSys ι} {a : FlagStep ι} (h : s.Moves a s') : s.step a = some s' := by
  cases h with
  | signal => rfl
  | call c h => simp only [step, h]
  | @load i c h => cases c <;> simp only [step, h] <;> rfl
  | @pass i c n h hn => cases c <;> simp only [step, h, FlagCall.step, WaitPc.step, TrywaitPc.step, if_neg hn] <;> rfl
  | @fail i c n h hn => cases c <;> simp only [step, h, FlagCall.step, WaitPc.step, TrywaitPc.step, if_pos hn] <;> rfl
  | @add i c h => cases c <;> simp only [step, h] <;> rfl

/-- Behind the test, in front of the addition to `next`. -/
def claims : Option (FlagCall × TrywaitPc) → Bool
  | some (_, .addNext) => true
  | _                  => false

variable [Fintype ι]

/-- The signals that are claimed, but not consumed yet. -/
def claimed (s : FlagSys ι) : Nat := count claims s.cpu

/-- **A signal does not wrap `flag` while one before it is neither consumed nor claimed; a test that passes claims such a
signal.** -/
def inTurn (s : FlagSys ι) : FlagStep ι → Bool
  | .signal   => s.flag.flag + 1 != 0 || s.waits + s.claimed == s.signals
  | .call _ _ => true
  | .next i   =>
    match s.cpu i with
    | some (_, .loadFlag n) => decide (s.flag.flag < n) || decide (s.waits + s.claimed < s.signals)
    | _                     => true

/-- **No signal is consumed twice, and none is lost.** -/
structure Conserves (s : FlagSys ι) : Prop where
  atMost  : s.waits ≤ s.signals
  /-- `flag_trywait()`, executed alone, returns 1. -/
  trywait : s.waits < s.signals → ∀ i, s.cpu i = none →
    ∃ s', exec step s [.call i .trywait, .next i, .next i, .next i] = some s' ∧ s'.cpu i = none ∧ s'.waits = s.waits + 1
  /-- A CPU at the test passes it: `flag_wait()` leaves its loop. -/
  test    : s.waits < s.signals → ∀ i c n, s.cpu i = some (c, .loadFlag n) →
    s.step (.next i) = some (s.goto i (some (c, .addNext)))

/-! ## The counters -/

/-- The two counters and the claims. -/
structure Counted (s : FlagSys ι) : Prop where
  flag    : s.flag.flag = BitVec.ofNat 32 s.signals
  next    : s.flag.next = BitVec.ofNat 32 s.waits
  claimed : s.waits + s.claimed ≤ s.signals

variable {s s' : FlagSys ι} {a : FlagStep ι} {i : ι}

omit [DecidableEq ι] in
theorem counted_start : Counted (start : FlagSys ι) := by
  refine ⟨rfl, rfl, Nat.le_of_eq ?_⟩
  show 0 + count claims (fun _ : ι => none) = 0
  rw [count_eq_zero (fun _ => rfl)]

theorem claimed_goto {x : Option (FlagCall × TrywaitPc)} (hx : claims x = claims (s.cpu i)) :
    (s.goto i x).claimed = s.claimed := count_update_same hx

theorem claimed_pass {c : FlagCall} {n : Unsigned} (hi : s.cpu i = some (c, .loadFlag n)) :
    (s.goto i (some (c, .addNext))).claimed = s.claimed + 1 := count_update_new rfl (by rw [hi]; rfl)

theorem claimed_add {c : FlagCall} (hi : s.cpu i = some (c, .addNext)) : (s.goto i none).claimed + 1 = s.claimed := by
  have hup := count_update claims s.cpu i none
  rw [hi] at hup
  exact hup

theorem Counted.step (h : Counted s) (hc : s.inTurn a = true) (hm : s.Moves a s') : Counted s' := by
  cases hm with
  | signal =>
    have hflag : s.flag.flag + 1 = BitVec.ofNat 32 (s.signals + 1) := by
      rw [h.flag, BitVec.ofNat_add]
      rfl
    exact ⟨hflag, h.next, Nat.le_succ_of_le h.claimed⟩
  | call c hi => exact ⟨h.flag, h.next, by rw [claimed_goto (by rw [hi]; rfl)]; exact h.claimed⟩
  | load hi => exact ⟨h.flag, h.next, by rw [claimed_goto (by rw [hi]; rfl)]; exact h.claimed⟩
  | @fail i c n hi hn =>
    refine ⟨h.flag, h.next, ?_⟩
    rw [claimed_goto (by rw [hi]; split <;> rfl)]
    exact h.claimed
  | @pass i c n hi hn =>
    refine ⟨h.flag, h.next, ?_⟩
    have hroom : s.waits + s.claimed < s.signals := by simpa [inTurn, hi, hn] using hc
    rw [claimed_pass hi]
    exact hroom
  | @add i c hi =>
    have hnext : s.flag.next + 1 = BitVec.ofNat 32 (s.waits + 1) := by
      rw [h.next, BitVec.ofNat_add]
      rfl
    have hclaimed : s.waits + 1 + (s.goto i none).claimed ≤ s.signals := by
      have hone := claimed_add hi
      have hle := h.claimed
      omega
    exact ⟨h.flag, hnext, hclaimed⟩

/-- What is left to show of the tests. -/
theorem conserves_of (h : Counted s) (htest : s.waits < s.signals → ∀ i, s.cpu i = none → ¬ s.flag.flag < s.flag.next + 1)
    (hspin : s.waits < s.signals → ∀ i c n, s.cpu i = some (c, .loadFlag n) → ¬ s.flag.flag < n) : Conserves s := by
  refine ⟨Nat.le_trans (Nat.le_add_right _ _) h.claimed, fun hlt i hi => ?_, fun hlt i c n hi => ?_⟩
  · let s₁ := s.goto i (some (.trywait, .loadNext))
    let s₂ := s₁.goto i (some (.trywait, .loadFlag (s.flag.next + 1)))
    let s₃ := s₂.goto i (some (.trywait, .addNext))
    have h₁ : s.step (.call i .trywait) = some s₁ := step_of_moves (.call .trywait hi)
    have h₂ : s₁.step (.next i) = some s₂ := step_of_moves (.load (s.goto_self i _))
    have h₃ : s₂.step (.next i) = some s₃ := step_of_moves (.pass (s₁.goto_self i _) (htest hlt i hi))
    let s₄ := { s₃.goto i none with flag := { s.flag with next := s.flag.next + 1 }, waits := s.waits + 1 }
    have h₄ : s₃.step (.next i) = some s₄ := step_of_moves (.add (s₂.goto_self i _))
    exact ⟨s₄, by simp only [exec, h₁, h₂, h₃, h₄], s₃.goto_self i none, rfl⟩
  · exact step_of_moves (.pass hi (hspin hlt i c n hi))

/-! ## Fewer than 2^32 signals -/

/-- What a CPU at the test has read of `next` is not ahead. -/
structure Waiting (s : FlagSys ι) : Prop extends Counted s where
  read : ∀ i c n, s.cpu i = some (c, .loadFlag n) → ∃ w, w ≤ s.waits ∧ n = BitVec.ofNat 32 (w + 1)

theorem Waiting.step (h : Waiting s) (hc : s.inTurn a = true) (hm : s.Moves a s') : Waiting s' := by
  refine ⟨h.toCounted.step hc hm, ?_⟩
  have hkeep : ∀ (i : ι) (x : Option (FlagCall × TrywaitPc)) (w' : Nat), s.waits ≤ w' →
      (∀ c n, x = some (c, .loadFlag n) → ∃ w, w ≤ s.waits ∧ n = BitVec.ofNat 32 (w + 1)) →
      ∀ j c n, (s.goto i x).cpu j = some (c, .loadFlag n) → ∃ w, w ≤ w' ∧ n = BitVec.ofNat 32 (w + 1) := by
    intro i x w' hw' hx j c n hj
    have hread : ∃ w, w ≤ s.waits ∧ n = BitVec.ofNat 32 (w + 1) := by
      by_cases hji : j = i
      · subst hji
        exact hx c n ((s.goto_self j x).symm.trans hj)
      · exact h.read j c n ((s.goto_ne hji x).symm.trans hj)
    obtain ⟨w, hw, hn⟩ := hread
    exact ⟨w, Nat.le_trans hw hw', hn⟩
  cases hm with
  | signal => exact h.read
  | call c hi => exact hkeep _ _ _ (Nat.le_refl _) nofun
  | load hi =>
    refine hkeep _ _ _ (Nat.le_refl _) (fun c n hn => ⟨s.waits, Nat.le_refl _, ?_⟩)
    cases hn
    rw [h.next, BitVec.ofNat_add]
    rfl
  | pass hi hn => exact hkeep _ _ _ (Nat.le_refl _) nofun
  | fail hi hn =>
    refine hkeep _ _ _ (Nat.le_refl _) (fun c n hx => ?_)
    split at hx
    · cases hx
      exact h.read _ _ _ hi
    · cases hx
  | add hi => exact hkeep _ _ _ (Nat.le_succ _) nofun

theorem not_lt_ofNat {f n : Nat} (hf : f < 2 ^ 32) (h : n ≤ f) : ¬ BitVec.ofNat 32 f < BitVec.ofNat 32 n := by
  rw [BitVec.lt_def, BitVec.toNat_ofNat, BitVec.toNat_ofNat, Nat.mod_eq_of_lt hf,
    Nat.mod_eq_of_lt (Nat.lt_of_le_of_lt h hf)]
  exact Nat.not_lt.2 h

theorem Waiting.conserves (h : Waiting s) (hs : s.signals < 2 ^ 32) : Conserves s := by
  refine conserves_of h.toCounted (fun hlt _ _ => ?_) (fun hlt i c n hi => ?_)
  · have hn : s.flag.next + 1 = BitVec.ofNat 32 (s.waits + 1) := by
      rw [h.next, BitVec.ofNat_add]
      rfl
    rw [h.flag, hn]
    exact not_lt_ofNat hs hlt
  · obtain ⟨w, hw, rfl⟩ := h.read i c n hi
    rw [h.flag]
    exact not_lt_ofNat hs (Nat.le_trans (Nat.succ_le_succ hw) hlt)

/-- **One claim too many is one wait too many**, as soon as those that have passed the test come through. -/
theorem overdrawn : ∀ (k : Nat) {s : FlagSys ι}, s.claimed = k → s.signals < s.waits + s.claimed →
    ∃ t, Reach FlagSys.step s t ∧ t.signals = s.signals ∧ ¬ Conserves t
  | 0,     s, hk, h => ⟨s, .refl s, rfl, fun hc => by have := hc.atMost; omega⟩
  | k + 1, s, hk, h => by
    obtain ⟨i, hi⟩ : ∃ i, claims (s.cpu i) = true := by
      by_contra hno
      have hz : s.claimed = 0 := count_eq_zero (fun i => by simpa using fun hi => hno ⟨i, hi⟩)
      omega
    obtain ⟨c, hcpu⟩ : ∃ c, s.cpu i = some (c, .addNext) := by
      unfold claims at hi
      split at hi
      · exact ⟨_, ‹_›⟩
      · cases hi
    have hone := claimed_add hcpu
    have hstep := step_of_moves (.add hcpu)
    have hk' : (s.goto i none).claimed = k := by omega
    have hmore : s.signals < s.waits + 1 + (s.goto i none).claimed := by omega
    obtain ⟨t, ht, hs, hbad⟩ := overdrawn k (s := { s.goto i none with
      flag := { s.flag with next := s.flag.next + 1 }, waits := s.waits + 1 }) hk' hmore
    exact ⟨t, (Reach.refl s).next hstep |>.trans ht, hs, hbad⟩

theorem Waiting.inTurn_or (h : Waiting s) (hm : s.Moves a s') (hs : s'.signals < 2 ^ 32) (hc : s.inTurn a = false) :
    ∃ t, Reach FlagSys.step s' t ∧ t.signals < 2 ^ 32 ∧ ¬ Conserves t := by
  cases hm with
  | signal =>
    have hs : s.signals + 1 < 2 ^ 32 := hs
    have hz : s.flag.flag + 1 = 0 := by simpa using (Bool.or_eq_false_iff.1 hc).1
    have hn : BitVec.ofNat 32 (s.signals + 1) = 0 := by rw [← hz, h.flag, BitVec.ofNat_add]; rfl
    have hn := congrArg BitVec.toNat hn
    rw [BitVec.toNat_ofNat, Nat.mod_eq_of_lt hs] at hn
    cases hn
  | call c hi => cases hc
  | load hi => simp [inTurn, hi] at hc
  | fail hi hn => simp [inTurn, hi, hn] at hc
  | add hi => simp [inTurn, hi] at hc
  | @pass i c n hi hn =>
    have hfull : ¬ s.waits + s.claimed < s.signals := by simpa [inTurn, hi, hn] using hc
    have hone := claimed_pass hi
    have hmore : s.signals < s.waits + (s.goto i (some (c, .addNext))).claimed := by omega
    obtain ⟨t, ht, hts, hbad⟩ := overdrawn _ rfl (s := s.goto i (some (c, .addNext))) hmore
    exact ⟨t, ht, by rw [hts]; exact hs, hbad⟩

end FlagSys

end

/-- **Any number of CPUs wait, for fewer than 2^32 signals**: no signal is consumed twice and none is lost in the runs whose
steps are all in turn; and a step out of turn can be followed by one that consumes a signal twice. -/
theorem flag_conserves (ι : Type) [Fintype ι] [DecidableEq ι] :
    (∀ s : FlagSys ι, Reach (onlyIf FlagSys.inTurn FlagSys.step) .start s → s.signals < 2 ^ 32 → s.Conserves) ∧
    ∀ (s s' : FlagSys ι) (a : FlagStep ι), Reach (onlyIf FlagSys.inTurn FlagSys.step) .start s → s.step a = some s' →
      s'.signals < 2 ^ 32 → s.inTurn a = false →
      ∃ t, Reach FlagSys.step s' t ∧ t.signals < 2 ^ 32 ∧ ¬ t.Conserves := by
  have hinv : ∀ s : FlagSys ι, Reach (onlyIf FlagSys.inTurn FlagSys.step) .start s → s.Waiting := by
    intro s h
    refine h.inv ⟨FlagSys.counted_start, nofun⟩ (fun s a s' hs hstep => ?_)
    obtain ⟨hc, hstep⟩ := onlyIf_some hstep
    exact hs.step hc (FlagSys.moves hstep)
  exact ⟨fun s h hs => (hinv s h).conserves hs,
    fun s s' a h hstep hs hc => (hinv s h).inTurn_or (FlagSys.moves hstep) hs hc⟩

/-- Two CPUs claim a signal each at the same time; then one of them waits for the third. -/
def flagTurns {ι : Type} (i j : ι) : List (FlagStep ι) :=
  [.signal, .signal, .call i .wait, .call j .trywait, .next i, .next j, .next i, .next j, .next j, .next i,
   .call i .wait, .next i, .next i, .signal, .next i, .next i]

theorem flag_conserves_two :
    ∃ s : FlagSys (Fin 2), exec (onlyIf FlagSys.inTurn FlagSys.step) .start (flagTurns 0 1) = some s ∧
    s.signals = 3 ∧ s.waits = 3 ∧ s.Conserves := by
  have hrun : (exec (onlyIf FlagSys.inTurn FlagSys.step) (.start : FlagSys (Fin 2)) (flagTurns 0 1)).map
      (fun s => (s.signals, s.waits)) = some (3, 3) := by decide +kernel
  obtain ⟨s, hs, hm⟩ := Option.map_eq_some_iff.mp hrun
  obtain ⟨hsignals, hwaits⟩ := Prod.mk.inj hm
  exact ⟨s, hs, hsignals, hwaits, (flag_conserves (Fin 2)).1 s ⟨flagTurns 0 1, hs⟩ (by rw [hsignals]; decide)⟩

/-- Two CPUs read `next` before either adds to it: one signal for two waits. -/
theorem flag_consumed_twice : ∃ s : FlagSys (Fin 2), exec FlagSys.step .start
    [.signal, .call 0 .trywait, .call 1 .wait, .next 0, .next 1, .next 0, .next 1, .next 0, .next 1] = some s ∧
    s.signals = 1 ∧ s.waits = 2 ∧ ¬ s.Conserves :=
  ⟨_, rfl, rfl, rfl, fun h => absurd h.atMost (by decide)⟩

/-! ## One waiting CPU, and any number of signals -/

namespace FlagSys

variable {s s' : FlagSys Unit} {a : FlagStep Unit}

theorem claimed_unit (s : FlagSys Unit) : s.claimed = (claims (s.cpu ())).toNat := by
  have hup := count_update claims s.cpu () none
  have hz : count claims (Function.update s.cpu () none) = 0 := count_eq_zero (fun i => by cases i; simp [claims])
  rw [hz, Nat.zero_add] at hup
  exact hup.symm

/-- The signals are no more than one round ahead of the waits and the claims, and those are at the end of theirs if they are. -/
structure OneWaiter (s : FlagSys Unit) : Prop extends Counted s where
  read : ∀ c n, s.cpu () = some (c, .loadFlag n) → n = s.flag.next + 1
  turn : s.signals / 2 ^ 32 = (s.waits + s.claimed) / 2 ^ 32 ∨
    s.signals / 2 ^ 32 = (s.waits + s.claimed) / 2 ^ 32 + 1 ∧ (s.waits + s.claimed) % 2 ^ 32 = 2 ^ 32 - 1

theorem flag_succ_eq_zero (h : Counted s) : s.flag.flag + 1 = 0 ↔ (s.signals + 1) % 2 ^ 32 = 0 := by
  have hn : s.flag.flag + 1 = BitVec.ofNat 32 (s.signals + 1) := by rw [h.flag, BitVec.ofNat_add]; rfl
  rw [hn, ← BitVec.toNat_inj, BitVec.toNat_ofNat]
  rfl

/-- `n` signals and `k` claimed ones are in one turn of the counters, or the claimed ones are the last of the turn before. -/
def OneTurn (n k : Nat) : Prop := n / 2 ^ 32 = k / 2 ^ 32 ∨ n / 2 ^ 32 = k / 2 ^ 32 + 1 ∧ k % 2 ^ 32 = 2 ^ 32 - 1

theorem OneTurn.signal {n k : Nat} (h : OneTurn n k) (hle : k ≤ n) (hroom : (n + 1) % 2 ^ 32 ≠ 0 ∨ k = n) :
    OneTurn (n + 1) k := by
  unfold OneTurn at h ⊢
  omega

theorem OneTurn.pass {n k : Nat} (h : OneTurn n k) (hlt : k < n) : OneTurn n (k + 1) := by
  unfold OneTurn at h ⊢
  omega

theorem OneWaiter.step (h : OneWaiter s) (hc : s.inTurn a = true) (hm : s.Moves a s') : OneWaiter s' := by
  have hcounted := h.toCounted.step hc hm
  have hturn : OneTurn s.signals (s.waits + s.claimed) := h.turn
  cases hm with
  | signal =>
    refine ⟨hcounted, h.read, ?_⟩
    have hwrap : (s.signals + 1) % 2 ^ 32 ≠ 0 ∨ s.waits + s.claimed = s.signals := by
      rcases Bool.or_eq_true_iff.1 hc with hz | he
      · exact .inl (mt (flag_succ_eq_zero h.toCounted).2 (by simpa using hz))
      · exact .inr (by simpa using he)
    exact hturn.signal h.claimed hwrap
  | call c hi =>
    refine ⟨hcounted, fun c n hn => ?_, ?_⟩
    · rw [goto_self] at hn
      cases hn
    · rw [claimed_goto (by rw [hi]; rfl)]
      exact hturn
  | load hi =>
    refine ⟨hcounted, fun c n hn => ?_, ?_⟩
    · rw [goto_self] at hn
      cases hn
      rfl
    · rw [claimed_goto (by rw [hi]; rfl)]
      exact hturn
  | @fail i c n hi hn =>
    refine ⟨hcounted, fun c n hn => ?_, ?_⟩
    · rw [goto_self] at hn
      split at hn
      · cases hn
        exact h.read _ _ hi
      · cases hn
    · rw [claimed_goto (by rw [hi]; split <;> rfl)]
      exact hturn
  | @pass i c n hi hn =>
    refine ⟨hcounted, fun c n hn => ?_, ?_⟩
    · rw [goto_self] at hn
      cases hn
    · have hroom : s.waits + s.claimed < s.signals := by simpa [inTurn, hi, hn] using hc
      rw [claimed_pass hi]
      exact hturn.pass hroom
  | @add i c hi =>
    refine ⟨hcounted, fun c n hn => ?_, ?_⟩
    · have hnone : (s.goto i none).cpu () = some (c, .loadFlag n) := hn
      rw [goto_self] at hnone
      cases hnone
    · have hone := claimed_add hi
      change OneTurn s.signals (s.waits + 1 + (s.goto i none).claimed)
      have hsum : s.waits + 1 + (s.goto i none).claimed = s.waits + s.claimed := by omega
      rw [hsum]
      exact hturn

theorem OneWaiter.not_lt (h : OneWaiter s) (hz : s.claimed = 0) (hlt : s.waits < s.signals) :
    ¬ s.flag.flag < s.flag.next + 1 := by
  have hturn := h.turn
  have hn : s.flag.next + 1 = BitVec.ofNat 32 (s.waits + 1) := by rw [h.next, BitVec.ofNat_add]; rfl
  rw [h.flag, hn, BitVec.lt_def, BitVec.toNat_ofNat, BitVec.toNat_ofNat]
  omega

theorem OneWaiter.conserves (h : OneWaiter s) : Conserves s := by
  refine conserves_of h.toCounted (fun hlt i hi => ?_) (fun hlt i c n hi => ?_)
  · exact h.not_lt (by rw [claimed_unit, hi]; rfl) hlt
  · rw [h.read _ _ hi]
    exact h.not_lt (by rw [claimed_unit, hi]; rfl) hlt

/-- **A signal does not wrap `flag` while one before it is neither consumed nor claimed; a CPU does not test for 0 while none
is.** -/
def inRound (s : FlagSys Unit) : FlagStep Unit → Bool
  | .signal   => s.flag.flag + 1 != 0 || s.waits + s.claimed == s.signals
  | .call _ _ => true
  | .next i   =>
    match s.cpu i with
    | some (_, .loadFlag n) => n != 0 || decide (s.waits + s.claimed < s.signals)
    | _                     => true

/-- The test for 0 is the one that passes by mistake. -/
theorem OneWaiter.inTurn_eq (h : OneWaiter s) (hm : s.Moves a s') : s.inTurn a = s.inRound a := by
  have hzero : ∀ i c n, s.cpu i = some (c, .loadFlag n) →
      (decide (s.flag.flag < n) || decide (s.waits + s.claimed < s.signals)) =
        (n != 0 || decide (s.waits + s.claimed < s.signals)) := by
    intro i c n hi
    by_cases hroom : s.waits + s.claimed < s.signals
    · simp [hroom]
    have hz : s.claimed = 0 := by rw [claimed_unit, hi]; rfl
    have hle := h.claimed
    have hall : s.signals = s.waits := by omega
    have hn : n = s.flag.flag + 1 := by rw [h.read c n hi, h.next, h.flag, hall]
    have hlt : s.flag.flag < n ↔ n ≠ 0 := by
      rw [hn]
      constructor <;> intro hx <;> bv_omega
    rw [decide_eq_false hroom, Bool.or_false, Bool.or_false, Bool.eq_iff_iff]
    simpa using hlt
  cases hm with
  | signal => rfl
  | call c hi => rfl
  | load hi => simp [inTurn, inRound, hi]
  | add hi => simp [inTurn, inRound, hi]
  | pass hi hn => simpa [inTurn, inRound, hi] using hzero _ _ _ hi
  | fail hi hn => simpa [inTurn, inRound, hi] using hzero _ _ _ hi

/-! ### Behind the wrap -/

theorem not_conserves (hlt : s.waits < s.signals) (hi : s.cpu () = none) (hf : s.flag.flag < s.flag.next + 1) :
    ¬ Conserves s := by
  intro h
  obtain ⟨s', he, -, -⟩ := h.trywait hlt () hi
  let s₁ := s.goto () (some (.trywait, .loadNext))
  let s₂ := s₁.goto () (some (.trywait, .loadFlag (s.flag.next + 1)))
  let s₃ := s₂.goto () none
  have h₁ : s.step (.call () .trywait) = some s₁ := step_of_moves (.call .trywait hi)
  have h₂ : s₁.step (.next ()) = some s₂ := step_of_moves (.load (s.goto_self () _))
  have h₃ : s₂.step (.next ()) = some s₃ := step_of_moves (.fail (s₁.goto_self () _) hf)
  have h₄ : s₃.step (.next ()) = none := by simp only [FlagSys.step, s₃, goto_self]
  simp only [exec, h₁, h₂, h₃, h₄] at he
  cases he

theorem not_conserves_test (hlt : s.waits < s.signals) {c : FlagCall} {n : Unsigned} (hi : s.cpu () = some (c, .loadFlag n))
    (hf : s.flag.flag < n) : ¬ Conserves s := by
  intro h
  have hstep := h.test hlt () c n hi
  rw [step_of_moves (.fail hi hf)] at hstep
  have hcpu := congrArg (fun t : FlagSys Unit => t.cpu ()) (Option.some.inj hstep)
  simp only [goto_self] at hcpu
  split at hcpu <;> cases hcpu

/-- `flag` is 0, and the CPU does not wait: it does not find the signals that are left, as soon as `next` is not about to wrap. -/
theorem lost_idle (hi : s.cpu () = none) (hf : s.flag.flag = 0)
    (hlt : s.waits < s.signals ∧ s.flag.next + 1 ≠ 0 ∨ s.waits + 1 < s.signals) :
    ∃ t, Reach FlagSys.step s t ∧ ¬ Conserves t := by
  have hpos : ∀ n : Unsigned, n ≠ 0 → (0 : Unsigned) < n := by
    intro n hn
    bv_omega
  by_cases hn : s.flag.next + 1 = 0
  · have hlt : s.waits + 1 < s.signals := by
      rcases hlt with ⟨-, h⟩ | h
      · exact absurd hn h
      · exact h
    let s₁ := s.goto () (some (.trywait, .loadNext))
    let s₂ := s₁.goto () (some (.trywait, .loadFlag (s.flag.next + 1)))
    let s₃ := s₂.goto () (some (.trywait, .addNext))
    let s₄ := { s₃.goto () none with flag := { s.flag with next := s.flag.next + 1 }, waits := s.waits + 1 }
    have h₁ : s.step (.call () .trywait) = some s₁ := step_of_moves (.call .trywait hi)
    have h₂ : s₁.step (.next ()) = some s₂ := step_of_moves (.load (s.goto_self () _))
    have htest : ¬ s.flag.flag < s.flag.next + 1 := by
      rw [hf, hn]
      exact BitVec.lt_irrefl 0
    have h₃ : s₂.step (.next ()) = some s₃ := step_of_moves (.pass (s₁.goto_self () _) htest)
    have h₄ : s₃.step (.next ()) = some s₄ := step_of_moves (.add (s₂.goto_self () _))
    have hmissed : s.flag.flag < s.flag.next + 1 + 1 := by
      rw [hf, hn]
      exact hpos _ (by decide)
    exact ⟨s₄, ((((Reach.refl s).next h₁).next h₂).next h₃).next h₄, not_conserves hlt (s₃.goto_self () none) hmissed⟩
  · refine ⟨s, .refl s, not_conserves (by omega) hi ?_⟩
    rw [hf]
    exact hpos _ hn

theorem lost_test {c : FlagCall} (hi : s.cpu () = some (c, .loadFlag (s.flag.next + 1))) (hf : s.flag.flag = 0)
    (hlt : s.waits + 1 < s.signals) : ∃ t, Reach FlagSys.step s t ∧ ¬ Conserves t := by
  by_cases hn : s.flag.next + 1 = 0
  · let s₁ := s.goto () (some (c, .addNext))
    let s₂ := { s₁.goto () none with flag := { s.flag with next := s.flag.next + 1 }, waits := s.waits + 1 }
    have h₁ : s.step (.next ()) = some s₁ := step_of_moves (.pass hi (by rw [hf, hn]; exact BitVec.lt_irrefl 0))
    have h₂ : s₁.step (.next ()) = some s₂ := step_of_moves (.add (s.goto_self () _))
    have hnext : s.flag.next + 1 + 1 ≠ 0 := by
      rw [hn]
      decide
    obtain ⟨t, ht, hbad⟩ := lost_idle (s := s₂) (s₁.goto_self () none) hf (.inl ⟨hlt, hnext⟩)
    exact ⟨t, (((Reach.refl s).next h₁).next h₂).trans ht, hbad⟩
  · refine ⟨s, .refl s, not_conserves_test (by omega) hi ?_⟩
    rw [hf]
    bv_omega

theorem OneWaiter.inRound_or (h : OneWaiter s) (hm : s.Moves a s') (hc : s.inRound a = false) :
    ∃ t, Reach FlagSys.step s' t ∧ ¬ Conserves t := by
  cases hm with
  | call c hi => cases hc
  | load hi => simp [inRound, hi] at hc
  | add hi => simp [inRound, hi] at hc
  | @fail i c n hi hn =>
    have hzero : n = 0 := by
      have hn := (Bool.or_eq_false_iff.1 (by simpa only [inRound, hi] using hc)).1
      simpa using hn
    rw [hzero] at hn
    exact absurd hn (BitVec.not_lt_zero)
  | @pass i c n hi hn =>
    have hfull : ¬ s.waits + s.claimed < s.signals := by
      have hfull := (Bool.or_eq_false_iff.1 (by simpa only [inRound, hi] using hc)).2
      simpa using hfull
    have hone := claimed_pass hi
    have hmore : s.signals < s.waits + (s.goto i (some (c, .addNext))).claimed := by omega
    obtain ⟨t, ht, -, hbad⟩ := overdrawn _ rfl (s := s.goto i (some (c, .addNext))) hmore
    exact ⟨t, ht, hbad⟩
  | signal =>
    obtain ⟨hz, hopen⟩ := Bool.or_eq_false_iff.1 hc
    have hz : s.flag.flag + 1 = 0 := by simpa using hz
    have hopen : s.waits + s.claimed < s.signals := Nat.lt_of_le_of_ne h.claimed (by simpa using hopen)
    rw [claimed_unit] at hopen
    cases hi : s.cpu () with
    | none =>
      rw [hi] at hopen
      exact lost_idle hi hz (.inr (Nat.succ_lt_succ hopen))
    | some x =>
      rw [hi] at hopen
      obtain ⟨c, pc⟩ := x
      let s₁ : FlagSys Unit := { s with flag := s.flag.signal, signals := s.signals + 1 }
      cases pc with
      | loadNext =>
        let s₂ := s₁.goto () (some (c, .loadFlag (s.flag.next + 1)))
        have hstep : s₁.step (.next ()) = some s₂ := step_of_moves (.load hi)
        obtain ⟨t, ht, hbad⟩ := lost_test (s := s₂) (s₁.goto_self () _) hz (Nat.succ_lt_succ hopen)
        exact ⟨t, ((Reach.refl s₁).next hstep).trans ht, hbad⟩
      | loadFlag n =>
        have hn : s₁.cpu () = some (c, .loadFlag (s.flag.next + 1)) := by rw [← h.read c n hi]; exact hi
        exact lost_test hn hz (Nat.succ_lt_succ hopen)
      | addNext =>
        let s₂ := { s₁.goto () none with flag := { s₁.flag with next := s.flag.next + 1 }, waits := s.waits + 1 }
        have hstep : s₁.step (.next ()) = some s₂ := step_of_moves (.add hi)
        obtain ⟨t, ht, hbad⟩ := lost_idle (s := s₂) (s₁.goto_self () none) hz (.inr (Nat.succ_lt_succ hopen))
        exact ⟨t, ((Reach.refl s₁).next hstep).trans ht, hbad⟩

end FlagSys

/-- **One CPU waits, for any number of signals**, also past 2^32: no signal is consumed twice and none is lost in the runs whose
steps are all in the round; and a step out of the round can be followed by one that consumes a signal twice or misses it. -/
theorem flag_conserves_one (s : FlagSys Unit) :
    (Reach (onlyIf FlagSys.inRound FlagSys.step) .start s → s.Conserves) ∧
    ∀ (s' : FlagSys Unit) (a : FlagStep Unit), Reach (onlyIf FlagSys.inRound FlagSys.step) .start s → s.step a = some s' →
      s.inRound a = false → ∃ t, Reach FlagSys.step s' t ∧ ¬ t.Conserves := by
  have hinv : ∀ s : FlagSys Unit, Reach (onlyIf FlagSys.inRound FlagSys.step) .start s → s.OneWaiter := by
    intro s h
    refine h.inv ⟨FlagSys.counted_start, nofun, .inl ?_⟩ (fun s a s' hs hstep => ?_)
    · rw [FlagSys.claimed_unit]
      rfl
    · obtain ⟨hc, hstep⟩ := onlyIf_some hstep
      have hm := FlagSys.moves hstep
      exact hs.step (by rw [hs.inTurn_eq hm]; exact hc) hm
  exact ⟨fun h => (hinv s h).conserves, fun s' a h hstep hc => (hinv s h).inRound_or (FlagSys.moves hstep) hc⟩

/-- The CPU waits for the second of three signals before it is given. -/
def flagRounds : List (FlagStep Unit) :=
  [.signal, .call () .wait, .next (), .next (), .next (), .call () .wait, .next (), .next (), .signal, .signal, .next (),
   .next (), .call () .trywait, .next (), .next (), .next ()]

theorem flag_conserves_one_rounds :
    ∃ s : FlagSys Unit, exec (onlyIf FlagSys.inRound FlagSys.step) .start flagRounds = some s ∧
    s.signals = 3 ∧ s.waits = 3 ∧ s.Conserves := by
  have hrun : (exec (onlyIf FlagSys.inRound FlagSys.step) (.start : FlagSys Unit) flagRounds).map
      (fun s => (s.signals, s.waits)) = some (3, 3) := by decide +kernel
  obtain ⟨s, hs, hm⟩ := Option.map_eq_some_iff.mp hrun
  obtain ⟨hsignals, hwaits⟩ := Prod.mk.inj hm
  exact ⟨s, hs, hsignals, hwaits, (flag_conserves_one s).1 ⟨flagRounds, hs⟩⟩

theorem FlagSys.exec_signal : ∀ (k : Nat) (s : FlagSys Unit), exec FlagSys.step s (List.replicate k .signal) =
    some { s with flag := { s.flag with flag := s.flag.flag + BitVec.ofNat 32 k }, signals := s.signals + k }
  | 0,     s => by simp [exec]
  | k + 1, s => by
    rw [List.replicate_succ, exec, step_of_moves .signal]
    simp only [exec_signal k, Flag.signal]
    congr 2
    · rw [Nat.add_comm k 1, BitVec.ofNat_add, BitVec.add_assoc]
      rfl
    · omega

/-- 2^32 signals, and none is seen. -/
theorem flag_wrapped : ∃ s : FlagSys Unit, exec FlagSys.step .start (List.replicate (2 ^ 32) .signal) = some s ∧
    s.signals = 2 ^ 32 ∧ s.waits = 0 ∧ s.cpu () = none ∧ ¬ s.Conserves := by
  refine ⟨_, FlagSys.exec_signal _ _, Nat.zero_add _, rfl, rfl, FlagSys.not_conserves ?_ rfl (by decide)⟩
  show 0 < 0 + 2 ^ 32
  omega

end SmpBoot
