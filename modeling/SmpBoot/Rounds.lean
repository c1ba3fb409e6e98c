import SmpBoot.Sync
/-!
# Rounds — threads that meet in a barrier

Every thread works by itself on the shared memory and calls one barrier from time to time.  Its script says when
(`waits`) and what it does otherwise (`act`).  Though the threads leave an episode one by one, `Script.ahead` sees all of
them in the same round: one that is still leaving is counted as having left.  So an invariant of the memory and the local
states is kept if the accesses keep it and if it survives the moment in which all threads wait (`Script.Keeps`), and all
threads come to their ends if somebody can always go on (`Script.Goes`).
-/
namespace SmpBoot

open Interleave

/-- What the threads do: `waits i l` is the local state behind the call of the barrier, if that is next; else `act` is one
access to the memory. -/
structure Script (ι σ ℓ : Type) where
  waits : ι → ℓ → Option ℓ
  act   : ι → ℓ → σ → Option (σ × ℓ)

structure Rounds (ι σ ℓ : Type) where
  bar : Barrier
  thr : ι → Member
  mem : σ
  loc : ι → ℓ

section Step
variable {ι σ ℓ : Type} [DecidableEq ι]

/-- One step of thread `i`: an access of the barrier, its call, or an access of its own. -/
def Script.step (P : Script ι σ ℓ) (s : Rounds ι σ ℓ) (i : ι) : Option (Rounds ι σ ℓ) :=
  match (s.thr i).pc with
  | some pc => some { s with
      bar := (pc.step s.bar).1
      thr := Function.update s.thr i ((s.thr i).after (pc.step s.bar).2)
      loc := if (pc.step s.bar).2 = none then Function.update s.loc i ((P.waits i (s.loc i)).getD (s.loc i)) else s.loc }
  | none =>
    match P.waits i (s.loc i) with
    | some _ => some { s with thr := Function.update s.thr i ((s.thr i).after (some .start)) }
    | none   => (P.act i (s.loc i) s.mem).map fun r => { s with mem := r.1, loc := Function.update s.loc i r.2 }

/-- The local states in round `E`. -/
def Script.ahead (P : Script ι σ ℓ) (E : Nat) (thr : ι → Member) (loc : ι → ℓ) (i : ι) : ℓ :=
  if (thr i).done = E then loc i else (P.waits i (loc i)).getD (loc i)

structure Script.Keeps (P : Script ι σ ℓ) (I : σ → (ι → ℓ) → Prop) : Prop where
  act  : ∀ {m l i m' l'}, I m l → P.waits i (l i) = none → P.act i (l i) m = some (m', l') →
    I m' (Function.update l i l')
  sync : ∀ {m l l'}, I m l → (∀ i, P.waits i (l i) = some (l' i)) → I m l'

variable [Fintype ι] {P : Script ι σ ℓ} {I : σ → (ι → ℓ) → Prop} {s s' : Rounds ι σ ℓ} {i : ι} {E : Nat}

structure Script.InRound (P : Script ι σ ℓ) (I : σ → (ι → ℓ) → Prop) (E : Nat) (s : Rounds ι σ ℓ) : Prop where
  episode : Episode s.bar E s.thr
  inside  : ∀ i, (s.thr i).pc ≠ none → P.waits i (s.loc i) ≠ none
  inv     : I s.mem (P.ahead E s.thr s.loc)

omit [DecidableEq ι] in
/-- A thread that does not wait is outside the barrier. -/
theorem Script.InRound.ahead_eq (h : P.InRound I E s) (hw : P.waits i (s.loc i) = none) :
    P.ahead E s.thr s.loc i = s.loc i := by
  rcases h.episode.done_eq i with hd | ⟨-, hne⟩
  · exact if_pos hd
  · exact absurd hw (h.inside i hne)

/-- An access behind which the call goes on. -/
theorem Script.InRound.goesOn (hN : Fintype.card ι < 2 ^ 32) (h : P.InRound I E s) {pc pc' : BarrierPc}
    (hpc : (s.thr i).pc = some pc) (hr : (pc.step s.bar).2 = some pc') :
    P.InRound I E { s with
      bar := (pc.step s.bar).1
      thr := Function.update s.thr i ((s.thr i).after (some pc')) } := by
  have he : pc.ends = 0 := by cases pc <;> first | rfl | cases hr
  have hep := h.episode.step hN hpc
  rw [hr, he] at hep
  refine ⟨hep, fun j hj => ?_, ?_⟩
  · by_cases hji : j = i
    · subst hji
      exact h.inside j (by rw [hpc]; exact Option.some_ne_none pc)
    · exact h.inside j (by simpa [hji] using hj)
  · have hah : P.ahead E (Function.update s.thr i ((s.thr i).after (some pc'))) s.loc = P.ahead E s.thr s.loc := by
      funext j
      by_cases hji : j = i
      · subst hji; simp [Script.ahead, Member.after]
      · simp [Script.ahead, hji]
    simp only [hah]
    exact h.inv

/-- The master ends the round. -/
theorem Script.InRound.ends (hP : P.Keeps I) (h : P.InRound I E s) {v : Unsigned}
    (hpc : (s.thr i).pc = some (.storeEpoch v)) :
    I s.mem (P.ahead (E + 1) (Function.update s.thr i ((s.thr i).after none))
      (Function.update s.loc i ((P.waits i (s.loc i)).getD (s.loc i)))) := by
  have hall := h.episode.all_inside hpc
  refine hP.sync (l := s.loc) ?_ (fun j => ?_)
  · have : P.ahead E s.thr s.loc = s.loc := by
      funext j
      exact if_pos (hall j).1
    rw [← this]
    exact h.inv
  · obtain ⟨l', hl'⟩ := Option.ne_none_iff_exists'.1 (h.inside j (hall j).2)
    rw [hl']
    by_cases hji : j = i
    · subst hji
      simp [Script.ahead, Member.after, (hall j).1, hl']
    · simp [Script.ahead, hji, (hall j).1, hl']

/-- A thread leaves that was counted as outside already. -/
theorem Script.InRound.leaves (h : P.InRound I E s) (hret : (s.thr i).done + 1 = E) :
    I s.mem (P.ahead E (Function.update s.thr i ((s.thr i).after none))
      (Function.update s.loc i ((P.waits i (s.loc i)).getD (s.loc i)))) := by
  have hah : P.ahead E (Function.update s.thr i ((s.thr i).after none))
      (Function.update s.loc i ((P.waits i (s.loc i)).getD (s.loc i))) = P.ahead E s.thr s.loc := by
    funext j
    by_cases hji : j = i
    · subst hji
      simp only [Script.ahead, Function.update_self]
      rw [if_pos (show ((s.thr j).after none).done = E from hret), if_neg (by omega)]
    · simp only [Script.ahead, Function.update_of_ne hji]
  rw [hah]
  exact h.inv

theorem Script.InRound.access (hP : P.Keeps I) (hN : Fintype.card ι < 2 ^ 32) (h : P.InRound I E s) {pc : BarrierPc}
    (hpc : (s.thr i).pc = some pc) (hs : P.step s i = some s') : P.InRound I (E + pc.ends) s' := by
  unfold Script.step at hs
  simp only [hpc] at hs
  cases hs
  cases hr : (pc.step s.bar).2 with
  | some pc' =>
    have he : pc.ends = 0 := by cases pc <;> first | rfl | cases hr
    simp only [if_neg (Option.some_ne_none pc'), he]
    exact h.goesOn hN hpc hr
  | none =>
    have hep := h.episode.step hN hpc
    have hret := h.episode.returns hpc hr
    rw [hr] at hep
    simp only [if_true]
    refine ⟨hep, fun j hj => ?_, ?_⟩
    · simp only at hj ⊢
      by_cases hji : j = i
      · subst hji; simp [Member.after] at hj
      · rw [Function.update_of_ne hji] at hj ⊢
        exact h.inside j hj
    · cases pc with
      | storeEpoch v => exact h.ends hP hpc
      | _ => exact h.leaves hret

/-- **One step keeps the invariant of the rounds.** -/
theorem Script.InRound.step (hP : P.Keeps I) (hN : Fintype.card ι < 2 ^ 32) (h : P.InRound I E s)
    (hs : P.step s i = some s') : ∃ E', P.InRound I E' s' := by
  cases hpc : (s.thr i).pc with
  | some pc => exact ⟨_, h.access hP hN hpc hs⟩
  | none =>
    have hd : (s.thr i).done = E := by
      rcases h.episode.done_eq i with hd | ⟨-, hne⟩
      · exact hd
      · exact absurd hpc hne
    refine ⟨E, ?_⟩
    unfold Script.step at hs
    simp only [hpc] at hs
    cases hw : P.waits i (s.loc i) with
    | some l' =>
      simp only [hw] at hs
      cases hs
      refine ⟨h.episode.call hpc, fun j hj => ?_, ?_⟩
      · by_cases hji : j = i
        · subst hji; rw [hw]; exact Option.some_ne_none l'
        · exact h.inside j (by simpa [hji] using hj)
      · have hah : P.ahead E (Function.update s.thr i ((s.thr i).after (some .start))) s.loc =
            P.ahead E s.thr s.loc := by
          funext j
          by_cases hji : j = i
          · subst hji; simp [Script.ahead, Member.after]
          · simp [Script.ahead, hji]
        simp only [hah]
        exact h.inv
    | none =>
      simp only [hw] at hs
      cases ha : P.act i (s.loc i) s.mem with
      | none => rw [ha] at hs; cases hs
      | some r =>
        rw [ha] at hs
        cases hs
        refine ⟨h.episode, fun j hj => ?_, ?_⟩
        · by_cases hji : j = i
          · subst hji; exact absurd hpc hj
          · simpa [hji] using h.inside j hj
        · have hi := h.ahead_eq hw
          have hah : P.ahead E s.thr (Function.update s.loc i r.2) =
              Function.update (P.ahead E s.thr s.loc) i r.2 := by
            funext j
            by_cases hji : j = i
            · subst hji; simp [Script.ahead, hd]
            · simp [Script.ahead, hji]
          simp only [hah]
          have hkept : I r.1 (Function.update (P.ahead E s.thr s.loc) i r.2) :=
            hP.act h.inv (by rw [hi]; exact hw) (by rw [hi]; exact ha)
          exact hkept

/-! ## Coming to the end -/

/-- `ended i l`: thread `i` has nothing left to do; `μ` says how much it has left.  Somebody who does not wait can always
go on, and nobody waits for one that is over. -/
structure Script.Goes (P : Script ι σ ℓ) (I : σ → (ι → ℓ) → Prop) (ended : ι → ℓ → Prop) (μ : ι → ℓ → Nat) : Prop where
  rest : ∀ {i l}, ended i l → P.waits i l = none
  back : ∀ {i l l'}, P.waits i l = some l' → μ i l' < μ i l
  act  : ∀ {m l}, I m l → (∃ i, P.waits i (l i) = none ∧ ¬ended i (l i)) →
    ∃ i m' l', P.waits i (l i) = none ∧ P.act i (l i) m = some (m', l') ∧ μ i l' < μ i (l i)
  even : ∀ {m l}, I m l → (∀ i, P.waits i (l i) ≠ none ∨ ended i (l i)) →
    (∀ i, P.waits i (l i) ≠ none) ∨ ∀ i, ended i (l i)

def Member.left (x : Member) : Nat := x.pc.elim 8 BarrierPc.left

def Script.work (μ : ι → ℓ → Nat) (s : Rounds ι σ ℓ) : Nat := ∑ i, (9 * μ i (s.loc i) + (s.thr i).left)

def Script.Over (ended : ι → ℓ → Prop) (s : Rounds ι σ ℓ) : Prop := ∀ i, (s.thr i).pc = none ∧ ended i (s.loc i)

variable {ended : ι → ℓ → Prop} {μ : ι → ℓ → Nat}

omit [DecidableEq ι] in
theorem Script.work_lt (hi : 9 * μ i (s'.loc i) + (s'.thr i).left < 9 * μ i (s.loc i) + (s.thr i).left)
    (ho : ∀ j, j ≠ i → s'.loc j = s.loc j ∧ s'.thr j = s.thr j) : Script.work μ s' < Script.work μ s := by
  apply sum_lt_at i hi
  intro j hji
  rw [(ho j hji).1, (ho j hji).2]

/-- A thread in the barrier that does not wait goes on. -/
theorem Script.Goes.inside (hG : P.Goes I ended μ) (h : P.InRound I E s) {pc : BarrierPc} (hpc : (s.thr i).pc = some pc)
    (hgo : ∀ e, pc = .spin e → e ≠ s.bar.epoch) :
    ∃ t, P.step s i = some t ∧ Script.work μ t < Script.work μ s := by
  have hlt := BarrierPc.step_left hgo
  obtain ⟨l', hl'⟩ := Option.ne_none_iff_exists'.1 (h.inside i (by rw [hpc]; exact Option.some_ne_none pc))
  have hback := hG.back hl'
  unfold Script.step
  simp only [hpc]
  refine ⟨_, rfl, work_lt (i := i) ?_ (fun j hji => ?_)⟩
  · simp only [Function.update_self, Member.left, hpc, Option.elim]
    cases hr : (pc.step s.bar).2 with
    | none =>
      simp only [if_true, Function.update_self, hl', Option.getD_some, Member.after]
      have : 0 < pc.left := by cases pc <;> simp [BarrierPc.left]
      omega
    | some pc' =>
      rw [hr] at hlt
      simp only [if_neg (Option.some_ne_none pc'), Member.after, Option.elim] at hlt ⊢
      omega
  · refine ⟨?_, Function.update_of_ne hji _ _⟩
    show (if (pc.step s.bar).2 = none then _ else _ : ι → ℓ) j = s.loc j
    split
    · exact Function.update_of_ne hji _ _
    · rfl

/-- **From every state of a round all threads can come to their ends.** -/
theorem Script.Goes.less (hG : P.Goes I ended μ) (h : P.InRound I E s) (hnot : ¬Script.Over ended s) :
    ∃ t, Reach P.step s t ∧ Script.work μ t < Script.work μ s := by
  suffices hstep : ∃ i t, P.step s i = some t ∧ Script.work μ t < Script.work μ s by
    obtain ⟨i, t, ht, hlt⟩ := hstep
    exact ⟨t, (Reach.refl s).next ht, hlt⟩
  by_cases hlv : ∃ j, (s.thr j).done ≠ E
  · -- somebody is still leaving the last episode
    obtain ⟨j, hj⟩ := hlv
    rcases h.episode.done_eq j with hd | ⟨hd, hne⟩
    · exact absurd hd hj
    · obtain ⟨pc, hpc⟩ := Option.ne_none_iff_exists'.1 hne
      obtain ⟨t, ht⟩ := hG.inside h hpc (fun e he => h.episode.leaving hd (by rw [hpc, he]))
      exact ⟨j, t, ht⟩
  · have hd : ∀ j, (s.thr j).done = E := fun j => by
      by_contra hj
      exact hlv ⟨j, hj⟩
    have hinv : I s.mem s.loc := by
      have : P.ahead E s.thr s.loc = s.loc := by
        funext j
        exact if_pos (hd j)
      rw [← this]
      exact h.inv
    have hout : ∀ j, P.waits j (s.loc j) = none → (s.thr j).pc = none := fun j hw => by
      by_contra hpc
      exact h.inside j hpc hw
    by_cases hact : ∃ i, P.waits i (s.loc i) = none ∧ ¬ended i (s.loc i)
    · obtain ⟨i, m', l', hw, ha, hlt⟩ := hG.act hinv hact
      have hpc := hout i hw
      refine ⟨i, _, by unfold Script.step; simp only [hpc, hw, ha]; rfl, work_lt (i := i) ?_ (fun j hji => ?_)⟩
      · simp only [Function.update_self]
        omega
      · exact ⟨Function.update_of_ne hji _ _, rfl⟩
    · have hor : ∀ i, P.waits i (s.loc i) ≠ none ∨ ended i (s.loc i) := fun i => by
        by_contra hcon
        rw [not_or, not_not] at hcon
        exact hact ⟨i, hcon⟩
      rcases hG.even hinv hor with hall | hall
      · -- everybody waits: somebody calls the barrier, or goes on in it
        obtain ⟨j, hj⟩ := h.episode.not_all_spin
        cases hpc : (s.thr j).pc with
        | some pc =>
          obtain ⟨t, ht⟩ := hG.inside h hpc (fun e he => hj e (by rw [hpc, he]))
          exact ⟨j, t, ht⟩
        | none =>
          obtain ⟨l', hl'⟩ := Option.ne_none_iff_exists'.1 (hall j)
          refine ⟨j, _, by unfold Script.step; simp only [hpc, hl']; rfl, work_lt (i := j) ?_ (fun k hk => ?_)⟩
          · simp only [Function.update_self, Member.left, Member.after, hpc]
            exact Nat.add_lt_add_left (by decide) _
          · exact ⟨rfl, Function.update_of_ne hk _ _⟩
      · exact absurd (fun i => ⟨hout i (hG.rest (hall i)), hall i⟩) hnot

/-! ## Runs -/

theorem Script.Keeps.reach (hP : P.Keeps I) (hN : Fintype.card ι < 2 ^ 32) {s₀ : Rounds ι σ ℓ} (h₀ : P.InRound I E s₀)
    (h : Reach P.step s₀ s) : ∃ E', P.InRound I E' s :=
  h.inv (I := fun s => ∃ E', P.InRound I E' s) ⟨E, h₀⟩ (fun _ _ _ ⟨_, hi⟩ hs => hi.step hP hN hs)

theorem Script.Goes.reach (hG : P.Goes I ended μ) (hP : P.Keeps I) (hN : Fintype.card ι < 2 ^ 32)
    (h : P.InRound I E s) : ∃ t, Reach P.step s t ∧ Script.Over ended t :=
  reach_goal (I := fun s => ∃ E', P.InRound I E' s) (Script.work μ) (fun _ _ _ ⟨_, hi⟩ hs => hi.step hP hN hs)
    (fun _ ⟨_, hi⟩ hnot => hG.less hi hnot) s ⟨E, h⟩

end Step
end SmpBoot
