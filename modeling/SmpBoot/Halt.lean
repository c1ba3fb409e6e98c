import SmpBoot.Config
import SmpBoot.Lib.Run
/-!
# Halt — `smp_halt` and `smp_wakeup` of `smp.c`, one access to `flags` at a time

`MASK_SET` and `MASK_CLEAR` are a read and a write.  With one waker no update of the word is lost (`FlagsInv`), but the
waker polls: if the target is asleep again before the poll, the waker waits for a `HALTED` that nobody clears
(`Stuck.step`).
-/
namespace SmpBoot

open Interleave

def smpFlagHalt : Unsigned := 1
def smpFlagHalted : Unsigned := 2

inductive HaltPc where
  | set                    -- MASK_SET : the read
  | setWrite (v : Unsigned)
  | test                   -- while (IS_MASK_SET(flags, SMP_FLAG_HALT))
  | hlt                    -- asleep until an interrupt
  | clear                  -- MASK_CLEAR : the read
  | clearWrite (v : Unsigned)
  deriving DecidableEq

/-- One access: the flags after it, and the next one, if the call does not return. -/
def HaltPc.step (flags : Unsigned) : HaltPc → Unsigned × Option HaltPc
  | .set          => (flags, some (.setWrite flags))
  | .setWrite v   => (maskSet v (smpFlagHalt ||| smpFlagHalted), some .test)
  | .test         => (flags, some (if isMaskSet flags smpFlagHalt then .hlt else .clear))
  | .hlt          => (flags, some .test)
  | .clear        => (flags, some (.clearWrite flags))
  | .clearWrite v => (maskClear v smpFlagHalted, none)

inductive WakePc where
  | await                  -- while (IS_MASK_CLEAR(flags, SMP_FLAG_HALTED))
  | clear                  -- MASK_CLEAR : the read
  | clearWrite (v : Unsigned)
  | poll                   -- while (IS_MASK_SET(flags, SMP_FLAG_HALTED))
  deriving DecidableEq

def WakePc.step (flags : Unsigned) : WakePc → Unsigned × Option WakePc
  | .await        => (flags, some (if isMaskClear flags smpFlagHalted then .await else .clear))
  | .clear        => (flags, some (.clearWrite flags))
  | .clearWrite v => (maskClear v smpFlagHalt, some .poll)
  | .poll         => (flags, if isMaskSet flags smpFlagHalted then some .poll else none)

def WakePc.clears : WakePc → Nat
  | .clearWrite _ => 1
  | _             => 0

/-! ## One target, one waker -/

inductive Side where
  | target
  | waker
  deriving DecidableEq

structure HaltSys where
  flags    : Unsigned
  target   : Option HaltPc   -- the call the target is in
  waker    : Option WakePc   -- the call the waker is in
  cleared  : Nat             -- the calls of `smp_wakeup` that have cleared `SMP_FLAG_HALT`
  returned : List Nat        -- for each `smp_halt` that has returned, the value of `cleared` then
  deriving DecidableEq

/-- One step: the next call starts, or one access of the current one. -/
def HaltSys.step (s : HaltSys) : Side → Option HaltSys
  | .target =>
    match s.target with
    | none    => some { s with target := some .set }
    | some pc =>
      some { s with
        flags    := (pc.step s.flags).1
        target   := (pc.step s.flags).2
        returned := if (pc.step s.flags).2 = none then s.returned ++ [s.cleared] else s.returned }
  | .waker =>
    match s.waker with
    | none    => some { s with waker := some .await }
    | some pc =>
      some { s with
        flags   := (pc.step s.flags).1
        waker   := (pc.step s.flags).2
        cleared := s.cleared + pc.clears }

theorem HaltSys.step_target {s : HaltSys} {pc : HaltPc} (h : s.target = some pc) : s.step .target = some { s with
    flags    := (pc.step s.flags).1
    target   := (pc.step s.flags).2
    returned := if (pc.step s.flags).2 = none then s.returned ++ [s.cleared] else s.returned } := by
  simp only [HaltSys.step, h]

theorem HaltSys.step_waker {s : HaltSys} {pc : WakePc} (h : s.waker = some pc) : s.step .waker = some { s with
    flags   := (pc.step s.flags).1
    waker   := (pc.step s.flags).2
    cleared := s.cleared + pc.clears } := by
  simp only [HaltSys.step, h]

/-- `smp_init`: no flag is set; no call has been made. -/
def HaltSys.start : HaltSys := ⟨0, none, none, 0, []⟩

/-! ## No update is lost -/

def awake : Option HaltPc → Prop
  | none | some .set     => True
  | some (.setWrite v)   => v = 0
  | _                    => False

def asleep : Option HaltPc → Prop
  | some .test | some .hlt => True
  | _                      => False

/-- In the loop or behind it, `SMP_FLAG_HALT` being clear. -/
def woken : Option HaltPc → Prop
  | some .test | some .hlt | some .clear => True
  | some (.clearWrite v)                 => v = 2
  | _                                    => False

def waiting : Option WakePc → Prop
  | none | some .await | some .poll => True
  | _                               => False

/-- What the waker has read of the flags is what they are. -/
def fresh : Option WakePc → Prop
  | some (.clearWrite v) => v = 3
  | _                    => True

/-- **The three situations**: the target is awake, asleep, or woken by the call of `smp_wakeup` that is polling. -/
inductive FlagsInv (s : HaltSys) : Prop
  | awake : s.flags = 0 → awake s.target → waiting s.waker → s.cleared = s.returned.length → FlagsInv s
  | asleep : s.flags = 3 → asleep s.target → fresh s.waker → s.cleared = s.returned.length → FlagsInv s
  | woken : s.flags = 2 → woken s.target → s.waker = some .poll → s.cleared = s.returned.length + 1 → FlagsInv s

/-! What the accesses do in the three situations. -/

@[simp] theorem setWrite_zero : (HaltPc.setWrite 0).step 0 = (3, some .test) := by decide
@[simp] theorem test_three : HaltPc.test.step 3 = (3, some .hlt) := by decide
@[simp] theorem test_two : HaltPc.test.step 2 = (2, some .clear) := by decide
@[simp] theorem clearWrite_two : (HaltPc.clearWrite 2).step 2 = (0, none) := by decide
@[simp] theorem await_zero : WakePc.await.step 0 = (0, some .await) := by decide
@[simp] theorem await_three : WakePc.await.step 3 = (3, some .clear) := by decide
@[simp] theorem clearWrite_three : (WakePc.clearWrite 3).step 3 = (2, some .poll) := by decide
@[simp] theorem poll_zero : WakePc.poll.step 0 = (0, none) := by decide
@[simp] theorem poll_two : WakePc.poll.step 2 = (2, some .poll) := by decide
@[simp] theorem poll_three : WakePc.poll.step 3 = (3, some .poll) := by decide

theorem flagsInv_target {s s' : HaltSys} (h : FlagsInv s) (hs : s.step .target = some s') : FlagsInv s' := by
  obtain ⟨f, t, w, c, r⟩ := s
  cases h with
  | awake hf ht hw hc =>
    simp only at hf ht hw hc
    subst hf
    rcases t with _ | pc
    · cases hs; exact .awake rfl trivial hw hc
    · cases pc <;> simp only [SmpBoot.awake] at ht
      · cases hs; exact .awake rfl rfl hw hc
      · subst ht
        simp only [HaltSys.step, setWrite_zero, Option.some.injEq] at hs
        subst hs
        refine .asleep rfl trivial ?_ (by simpa using hc)
        rcases w with _ | w
        · trivial
        · cases w <;> trivial
  | asleep hf ht hw hc =>
    simp only at hf ht hw hc
    subst hf
    rcases t with _ | pc
    · exact ht.elim
    · cases pc <;> simp only [SmpBoot.asleep] at ht
      · simp only [HaltSys.step, test_three, Option.some.injEq] at hs
        subst hs
        exact .asleep rfl trivial hw (by simpa using hc)
      · cases hs; exact .asleep rfl trivial hw hc
  | woken hf ht hw hc =>
    simp only at hf ht hw hc
    subst hf hw
    rcases t with _ | pc
    · exact ht.elim
    · cases pc <;> simp only [SmpBoot.woken] at ht
      · simp only [HaltSys.step, test_two, Option.some.injEq] at hs
        subst hs
        exact .woken rfl trivial rfl (by simpa using hc)
      · cases hs; exact .woken rfl trivial rfl hc
      · cases hs; exact .woken rfl rfl rfl hc
      · subst ht
        simp only [HaltSys.step, clearWrite_two, Option.some.injEq] at hs
        subst hs
        exact .awake rfl trivial trivial (by simpa using hc)

theorem flagsInv_waker {s s' : HaltSys} (h : FlagsInv s) (hs : s.step .waker = some s') : FlagsInv s' := by
  obtain ⟨f, t, w, c, r⟩ := s
  cases h with
  | awake hf ht hw hc =>
    simp only at hf ht hw hc
    subst hf
    rcases w with _ | pc
    · cases hs; exact .awake rfl ht trivial hc
    · cases pc <;> simp only [SmpBoot.waiting] at hw
      · simp only [HaltSys.step, await_zero, Option.some.injEq] at hs
        subst hs
        exact .awake rfl ht trivial hc
      · simp only [HaltSys.step, poll_zero, Option.some.injEq] at hs
        subst hs
        exact .awake rfl ht trivial hc
  | asleep hf ht hw hc =>
    simp only at hf ht hw hc
    subst hf
    rcases w with _ | pc
    · cases hs; exact .asleep rfl ht trivial hc
    · cases pc <;> simp only [SmpBoot.fresh] at hw
      · simp only [HaltSys.step, await_three, Option.some.injEq] at hs
        subst hs
        exact .asleep rfl ht trivial hc
      · cases hs; exact .asleep rfl ht rfl hc
      · subst hw
        simp only [HaltSys.step, clearWrite_three, Option.some.injEq] at hs
        subst hs
        refine .woken rfl ?_ rfl (congrArg (· + 1) hc)
        rcases t with _ | t
        · exact ht.elim
        · cases t <;> trivial
      · simp only [HaltSys.step, poll_three, Option.some.injEq] at hs
        subst hs
        exact .asleep rfl ht trivial hc
  | woken hf ht hw hc =>
    simp only at hf ht hw hc
    subst hf hw
    simp only [HaltSys.step, poll_two, Option.some.injEq] at hs
    subst hs
    exact .woken rfl ht rfl hc

/-- **Every access keeps the flags in one of the three situations.** -/
theorem flagsInv_step {s s' : HaltSys} {a : Side} (h : FlagsInv s) (hs : s.step a = some s') : FlagsInv s' := by
  cases a
  · exact flagsInv_target h hs
  · exact flagsInv_waker h hs

/-- Each call of `smp_halt` that returned did so after a later `SMP_FLAG_HALT` was cleared. -/
def Returns (s : HaltSys) : Prop := s.returned = (List.range s.returned.length).map (· + 1)

theorem returns_step {s s' : HaltSys} {a : Side} (h : FlagsInv s) (hr : Returns s) (hs : s.step a = some s') :
    Returns s' := by
  obtain ⟨f, t, w, c, r⟩ := s
  cases a with
  | waker =>
    rcases w with _ | pc <;> cases hs <;> exact hr
  | target =>
    rcases t with _ | pc
    · cases hs; exact hr
    · simp only [HaltSys.step, Option.some.injEq] at hs
      subst hs
      by_cases hn : (pc.step f).2 = none
      · -- only a woken target returns
        have hc : c = r.length + 1 := by
          cases h with
          | awake hf ht _ _ =>
            simp only at hf ht
            subst hf
            cases pc <;> simp only [SmpBoot.awake] at ht
            · cases hn
            · cases hn
          | asleep hf ht _ _ =>
            simp only at hf ht
            subst hf
            cases pc <;> simp only [SmpBoot.asleep] at ht
            · cases hn
            · cases hn
          | woken _ _ _ hc => exact hc
        simp only [Returns, hn, if_true] at hr ⊢
        rw [List.length_append, List.length_singleton, List.range_succ, List.map_append, ← hr, hc]
        rfl
      · simp only [Returns, hn, if_false] at hr ⊢
        exact hr

/-! ## The missed cycle -/

/-- The waker polls for `SMP_FLAG_HALTED` to clear while the target sleeps with `SMP_FLAG_HALT` set. -/
def Stuck (s : HaltSys) : Prop := s.waker = some .poll ∧ asleep s.target ∧ s.flags = 3

/-- **It stays so**: neither side ever leaves its loop. -/
theorem Stuck.step {s s' : HaltSys} {a : Side} (h : Stuck s) (hs : s.step a = some s') : Stuck s' := by
  obtain ⟨f, t, w, c, r⟩ := s
  obtain ⟨hw, ht, hf⟩ := h
  simp only at hw ht hf
  subst hw hf
  cases a with
  | waker =>
    simp only [HaltSys.step, poll_three, Option.some.injEq] at hs
    subst hs
    exact ⟨rfl, ht, rfl⟩
  | target =>
    rcases t with _ | pc
    · exact ht.elim
    · cases pc <;> simp only [SmpBoot.asleep] at ht
      · simp only [HaltSys.step, test_three, Option.some.injEq] at hs
        subst hs
        exact ⟨rfl, trivial, rfl⟩
      · cases hs; exact ⟨rfl, trivial, rfl⟩

/-- What holds of the flags protocol in a state. -/
structure FlagsSafe (s : HaltSys) : Prop where
  /-- Nobody wrote between the read and the write of an update. -/
  noLost   : (∀ v, s.target = some (.setWrite v) ∨ s.target = some (.clearWrite v) → s.flags = v) ∧
    ∀ v, s.waker = some (.clearWrite v) → s.flags = v
  count    : s.returned.length ≤ s.cleared
  /-- No two calls of `smp_halt` were released by one call of `smp_wakeup`. -/
  once     : s.returned.Nodup
  notStuck : ¬ Stuck s

theorem FlagsInv.noLost {s : HaltSys} (h : FlagsInv s) :
    (∀ v, s.target = some (.setWrite v) ∨ s.target = some (.clearWrite v) → s.flags = v) ∧
      ∀ v, s.waker = some (.clearWrite v) → s.flags = v := by
  obtain ⟨f, t, w, c, r⟩ := s
  cases h with
  | awake hf ht hw _ =>
    refine ⟨fun v hv => ?_, fun v hv => ?_⟩
    · rcases hv with hv | hv <;> cases hv
      · exact hf.trans ht.symm
      · exact ht.elim
    · cases hv; exact hw.elim
  | asleep hf ht hw _ =>
    refine ⟨fun v hv => ?_, fun v hv => ?_⟩
    · rcases hv with hv | hv <;> cases hv <;> exact ht.elim
    · cases hv; exact hf.trans hw.symm
  | woken hf ht hw _ =>
    refine ⟨fun v hv => ?_, fun v hv => ?_⟩
    · rcases hv with hv | hv <;> cases hv
      · exact ht.elim
      · exact hf.trans ht.symm
    · cases hv; cases hw

theorem FlagsInv.count {s : HaltSys} (h : FlagsInv s) : s.returned.length ≤ s.cleared := by
  cases h with
  | awake _ _ _ hc => exact Nat.le_of_eq hc.symm
  | asleep _ _ _ hc => exact Nat.le_of_eq hc.symm
  | woken _ _ _ hc => omega

theorem Returns.nodup {s : HaltSys} (h : Returns s) : s.returned.Nodup := by
  rw [h]
  exact List.nodup_range.map (fun a b hab => Nat.succ.inj hab)

/-- In front of the write of `MASK_SET` that sets both flags. -/
def sets : Option HaltPc → Bool
  | some (.setWrite _) => true
  | _                  => false

/-- The target does not set the flags while a call of `smp_wakeup` that has cleared `SMP_FLAG_HALT` is polling. -/
def afterPoll (s : HaltSys) (a : Side) : Bool := !(a == .target && sets s.target && s.waker == some .poll)

/-- While the waker polls, the target is still in the call it wakes, or has not set the flags again. -/
def PollsOld (s : HaltSys) : Prop := s.waker = some .poll → s.flags ≠ 3

theorem pollsOld_target {s s' : HaltSys} (h : FlagsInv s) (hp : PollsOld s) (hc : afterPoll s .target = true)
    (hs : s.step .target = some s') : PollsOld s' := by
  obtain ⟨f, t, w, c, r⟩ := s
  intro hw'
  have hw : w = some .poll := by
    rcases t with _ | pc <;> cases hs <;> exact hw'
  subst hw
  have h0 : (0 : Unsigned) ≠ 3 := by decide
  have h2 : (2 : Unsigned) ≠ 3 := by decide
  cases h with
  | awake hf ht _ _ =>
    simp only at hf ht
    subst hf
    rcases t with _ | pc
    · cases hs
      exact h0
    · cases pc <;> simp only [SmpBoot.awake] at ht
      · cases hs
        exact h0
      · simp [afterPoll, sets] at hc
  | asleep hf _ _ _ => exact absurd hf (hp rfl)
  | woken hf ht _ _ =>
    simp only at hf ht
    subst hf
    rcases t with _ | pc
    · exact ht.elim
    · cases pc <;> simp only [SmpBoot.woken] at ht
      · cases hs
        exact h2
      · cases hs
        exact h2
      · cases hs
        exact h2
      · subst ht
        cases hs
        exact h0

theorem pollsOld_waker {s s' : HaltSys} (h : FlagsInv s) (hp : PollsOld s) (hs : s.step .waker = some s') :
    PollsOld s' := by
  obtain ⟨f, t, w, c, r⟩ := s
  intro hw'
  rcases w with _ | pc
  · cases hs
    cases hw'
  · simp only [HaltSys.step, Option.some.injEq] at hs
    subst hs
    cases pc with
    | await =>
      simp only [WakePc.step] at hw'
      split at hw' <;> cases hw'
    | clear => cases hw'
    | clearWrite v =>
      -- the target was asleep, and the waker has just cleared the flag
      have hv : v = 3 := by
        cases h with
        | awake _ _ hw _ => exact hw.elim
        | asleep _ _ hw _ => exact hw
        | woken _ _ hw _ => cases hw
      subst hv
      show maskClear 3 smpFlagHalt ≠ 3
      decide
    | poll => exact hp rfl

theorem pollsOld_step {s s' : HaltSys} {a : Side} (h : FlagsInv s) (hp : PollsOld s) (hc : afterPoll s a = true)
    (hs : s.step a = some s') : PollsOld s' := by
  cases a
  · exact pollsOld_target h hp hc hs
  · exact pollsOld_waker h hp hs

/-- **If the target does not set the flags while the waker polls, the protocol is right in every state reached.** -/
theorem flags_safe {s : HaltSys} (h : Reach (onlyIf afterPoll HaltSys.step) .start s) : FlagsSafe s := by
  obtain ⟨hi, hr, hp⟩ : FlagsInv s ∧ Returns s ∧ PollsOld s := by
    refine h.inv (I := fun s => FlagsInv s ∧ Returns s ∧ PollsOld s)
      ⟨.awake rfl trivial trivial rfl, rfl, fun h => by cases h⟩ ?_
    rintro s a s' ⟨hi, hr, hp⟩ hs
    obtain ⟨hc, hs⟩ := onlyIf_some hs
    exact ⟨flagsInv_step hi hs, returns_step hi hr hs, pollsOld_step hi hp hc hs⟩
  exact ⟨hi.noLost, hi.count, hr.nodup, fun ⟨hw, _, hf⟩ => hp hw hf⟩

/-- **If it does, both are stuck.** -/
theorem flags_stuck {s s' : HaltSys} {a : Side} (h : Reach HaltSys.step .start s) (hc : afterPoll s a = false)
    (hs : s.step a = some s') : Stuck s' := by
  have hi : FlagsInv s := h.inv (.awake rfl trivial trivial rfl) fun _ _ _ hi hs => flagsInv_step hi hs
  obtain ⟨f, t, w, c, r⟩ := s
  obtain ⟨⟨rfl, ht⟩, rfl⟩ : (a = .target ∧ sets t = true) ∧ w = some .poll := by simpa [afterPoll] using hc
  rcases t with _ | pc
  · cases ht
  · cases pc <;> simp only [sets, Bool.false_eq_true] at ht
    cases hi with
    | awake hf ht _ _ =>
      simp only [SmpBoot.awake] at hf ht
      subst hf ht
      cases hs
      exact ⟨rfl, trivial, rfl⟩
    | asleep _ ht _ _ => exact ht.elim
    | woken _ ht _ _ => exact ht.elim

/-- The target begins its next call while the waker polls, and sets the flags when the waker is back. -/
theorem flags_safe_once : ∃ s, exec (onlyIf afterPoll HaltSys.step) .start
    [.target, .target, .target, .waker, .waker, .waker, .waker, .target, .target, .target, .target, .target, .waker,
     .target] = some s ∧ s.returned = [1] ∧ asleep s.target ∧ FlagsSafe s :=
  ⟨_, rfl, rfl, trivial, flags_safe ⟨[.target, .target, .target, .waker, .waker, .waker, .waker, .target, .target,
    .target, .target, .target, .waker, .target], rfl⟩⟩

/-- The target is back asleep before the waker looks again. -/
theorem flags_missed_cycle : ∃ s, exec HaltSys.step .start
    [.target, .target, .target, .waker, .waker, .waker, .waker, .target, .target, .target, .target, .target, .target] =
    some s ∧ ¬ FlagsSafe s :=
  ⟨⟨3, some .test, some .poll, 1, [1]⟩, by decide, fun h => h.notStuck ⟨rfl, trivial, rfl⟩⟩

/-- Without the condition: no update is lost and no wake-up releases two halts, but the waker may be stuck. -/
theorem flags_noLost {s : HaltSys} (h : Reach HaltSys.step .start s) :
    ((∀ v, s.target = some (.setWrite v) ∨ s.target = some (.clearWrite v) → s.flags = v) ∧
      ∀ v, s.waker = some (.clearWrite v) → s.flags = v) ∧
    s.returned.length ≤ s.cleared ∧ s.returned.Nodup := by
  obtain ⟨hi, hr⟩ : FlagsInv s ∧ Returns s :=
    h.inv (I := fun s => FlagsInv s ∧ Returns s) ⟨.awake rfl trivial trivial rfl, rfl⟩
      (fun _ _ _ ⟨hi, hr⟩ hs => ⟨flagsInv_step hi hs, returns_step hi hr hs⟩)
  exact ⟨hi.noLost, hi.count, hr.nodup⟩

/-! ## One halt, one wake-up -/

/-- In front of the call of `smp_halt`, in it, or behind it. -/
inductive HaltAt where
  | before
  | inside (p : HaltPc)
  | behind

inductive WakeAt where
  | before
  | inside (p : WakePc)
  | behind

def HaltAt.next : Option HaltPc → HaltAt
  | some p => .inside p
  | none   => .behind

def WakeAt.next : Option WakePc → WakeAt
  | some p => .inside p
  | none   => .behind

@[simp] theorem HaltAt.next_some (p : HaltPc) : HaltAt.next (some p) = .inside p := rfl
@[simp] theorem HaltAt.next_none : HaltAt.next none = .behind := rfl
@[simp] theorem WakeAt.next_some (p : WakePc) : WakeAt.next (some p) = .inside p := rfl
@[simp] theorem WakeAt.next_none : WakeAt.next none = .behind := rfl

/-- **A CPU that halts once and is woken once**, in whatever order the two calls begin. -/
inductive Paired (f : Unsigned) (t : HaltAt) (w : WakeAt) : Prop
  | awake  (hf : f = 0) (ht : t = .before ∨ t = .inside .set ∨ t = .inside (.setWrite 0))
      (hw : w = .before ∨ w = .inside .await) : Paired f t w
  | asleep (hf : f = 3) (ht : t = .inside .test ∨ t = .inside .hlt)
      (hw : w = .before ∨ w = .inside .await ∨ w = .inside .clear ∨ w = .inside (.clearWrite 3)) : Paired f t w
  | woken  (hf : f = 2) (ht : t = .inside .test ∨ t = .inside .hlt ∨ t = .inside .clear ∨ t = .inside (.clearWrite 2))
      (hw : w = .inside .poll) : Paired f t w
  | done   (hf : f = 0) (ht : t = .behind) (hw : w = .inside .poll ∨ w = .behind) : Paired f t w

section Paired
variable {f : Unsigned} {t : HaltAt} {w : WakeAt}

theorem Paired.halts (h : Paired f .before w) : Paired f (.inside .set) w := by
  cases h with
  | awake hf _ hw => exact .awake hf (.inr (.inl rfl)) hw
  | asleep _ ht _ => simp at ht
  | woken _ ht _ => simp at ht
  | done _ ht _ => cases ht

theorem Paired.halt {p : HaltPc} (h : Paired f (.inside p) w) : Paired (p.step f).1 (.next (p.step f).2) w := by
  cases h with
  | awake hf ht hw =>
    subst hf
    rcases ht with ht | ht | ht <;> cases ht
    · exact .awake rfl (.inr (.inr rfl)) hw
    · rw [setWrite_zero]
      exact .asleep rfl (.inl rfl) (hw.imp_right .inl)
  | asleep hf ht hw =>
    subst hf
    rcases ht with ht | ht <;> cases ht
    · rw [test_three]
      exact .asleep rfl (.inr rfl) hw
    · exact .asleep rfl (.inl rfl) hw
  | woken hf ht hw =>
    subst hf
    rcases ht with ht | ht | ht | ht <;> cases ht
    · rw [test_two]
      exact .woken rfl (.inr (.inr (.inl rfl))) hw
    · exact .woken rfl (.inl rfl) hw
    · exact .woken rfl (.inr (.inr (.inr rfl))) hw
    · rw [clearWrite_two]
      exact .done rfl rfl (.inl hw)
  | done _ ht _ => cases ht

theorem Paired.wakes (h : Paired f t .before) : Paired f t (.inside .await) := by
  cases h with
  | awake hf ht _ => exact .awake hf ht (.inr rfl)
  | asleep hf ht _ => exact .asleep hf ht (.inr (.inl rfl))
  | woken _ _ hw => cases hw
  | done _ _ hw => simp at hw

theorem Paired.wake {p : WakePc} (h : Paired f t (.inside p)) : Paired (p.step f).1 t (.next (p.step f).2) := by
  cases h with
  | awake hf ht hw =>
    subst hf
    rcases hw with hw | hw <;> cases hw
    rw [await_zero]
    exact .awake rfl ht (.inr rfl)
  | asleep hf ht hw =>
    subst hf
    rcases hw with hw | hw | hw | hw <;> cases hw
    · rw [await_three]
      exact .asleep rfl ht (.inr (.inr (.inl rfl)))
    · exact .asleep rfl ht (.inr (.inr (.inr rfl)))
    · rw [clearWrite_three]
      exact .woken rfl (ht.imp_right .inl) rfl
  | woken hf ht hw =>
    subst hf
    cases hw
    rw [poll_two]
    exact .woken rfl ht rfl
  | done hf ht hw =>
    subst hf
    rcases hw with hw | hw <;> cases hw
    rw [poll_zero]
    exact .done rfl ht (.inr rfl)

/-- When `smp_wakeup` has returned, so has `smp_halt`. -/
theorem Paired.behind (h : Paired f t .behind) : f = 0 ∧ t = .behind := by
  cases h with
  | done hf ht _ => exact ⟨hf, ht⟩
  | awake _ _ hw => simp at hw
  | asleep _ _ hw => simp at hw
  | woken _ _ hw => cases hw

/-- `smp_halt` has not returned before `smp_wakeup` polls. -/
theorem Paired.halted {p : WakePc} (h : Paired f .behind w) (hw : w = .before ∨ w = .inside p) (hp : p ≠ .poll) : False := by
  cases h with
  | awake _ ht _ => simp at ht
  | asleep _ ht _ => simp at ht
  | woken _ ht _ => simp at ht
  | done _ _ hw' =>
    rcases hw with rfl | rfl <;> rcases hw' with h | h <;> cases h
    exact hp rfl

/-- How many accesses are left at most, if neither of the two waits in vain. -/
def HaltPc.left : HaltPc → Nat
  | .set          => 6
  | .setWrite _   => 5
  | .hlt          => 4
  | .test         => 3
  | .clear        => 2
  | .clearWrite _ => 1

def WakePc.left : WakePc → Nat
  | .await        => 4
  | .clear        => 3
  | .clearWrite _ => 2
  | .poll         => 1

/-- **A call of `smp_wakeup` comes to its end**: the waker goes on, or the CPU it wakes does. -/
theorem Paired.goes {p : WakePc} (h : Paired f t (.inside p)) :
    (p.step f).2.elim 0 WakePc.left < p.left ∨ t = .before ∨
      ∃ q, t = .inside q ∧ (q.step f).2.elim 0 HaltPc.left < q.left := by
  cases h with
  | awake hf ht _ =>
    subst hf
    rcases ht with ht | ht | ht
    · exact .inr (.inl ht)
    · exact .inr (.inr ⟨_, ht, by decide⟩)
    · exact .inr (.inr ⟨_, ht, by decide⟩)
  | asleep hf _ hw =>
    subst hf
    rcases hw with hw | hw | hw | hw <;> cases hw <;> exact .inl (by decide)
  | woken hf ht _ =>
    subst hf
    rcases ht with ht | ht | ht | ht <;> exact .inr (.inr ⟨_, ht, by decide⟩)
  | done hf _ hw =>
    subst hf
    rcases hw with hw | hw <;> cases hw
    exact .inl (by decide)

end Paired

end SmpBoot
