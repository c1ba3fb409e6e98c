import SmpBoot.Sync
/-!
# GlobalBarrier — the first use of `global_barrier`, in `main_bsp()` and `main_ap()`

The barrier is made for `MAX_CPU+1` CPUs, so that nobody leaves it before the boot processor has stored how many there
are.  The APs may be inside by then.  The invariant is `Episode` with the number that `max` is going to have: as long as
the boot processor is outside, no ticket is equal to it, nor to the old one.
-/
namespace SmpBoot

open Interleave

/-- The boot processor in front of `barrier(&global_barrier)`. -/
inductive MeetPc where
  | storeMax             -- global_barrier.max = cpu_online
  | loadCnt              -- while (global_barrier.cnt < (global_barrier.max-1)): the first load
  | loadMax (c : Unsigned) -- the second
  | enter                -- barrier(&global_barrier), or behind it
  deriving DecidableEq

def MeetPc.step (online : Unsigned) (b : Barrier) : MeetPc → Option (Barrier × MeetPc)
  | .storeMax  => some ({ b with max := online }, .loadCnt)
  | .loadCnt   => some (b, .loadMax b.cnt)
  | .loadMax c => some (b, if c < b.max - 1 then .loadCnt else .enter)
  | .enter     => none

/-- The boot processor is CPU 0, the others are the APs. -/
structure Meeting (k : Nat) where
  bar : Barrier
  thr : Fin (k + 1) → Member
  bsp : MeetPc

/-- One step of CPU `i`; an AP calls the barrier when it likes, each CPU does so once. -/
def Meeting.step {k : Nat} (s : Meeting k) (i : Fin (k + 1)) : Option (Meeting k) :=
  match (s.thr i).pc with
  | some pc => some { s with bar := (pc.step s.bar).1, thr := Function.update s.thr i ((s.thr i).after (pc.step s.bar).2) }
  | none =>
    if (s.thr i).done = 0 then
      if i = 0 ∧ s.bsp ≠ .enter then
        (s.bsp.step (BitVec.ofNat 32 (k + 1)) s.bar).map fun r => { s with bar := r.1, bsp := r.2 }
      else some { s with thr := Function.update s.thr i ((s.thr i).after (some .start)) }
    else none

/-- `global_barrier` is `BARRIER_INITIALIZER(MAX_CPU+1)`, where `MAX_CPU` is `M`. -/
def Meeting.start (M k : Nat) : Meeting k :=
  ⟨.init (BitVec.ofNat 32 (M + 1)), fun _ => ⟨0, none⟩, .storeMax⟩

def Meeting.Over {k : Nat} (s : Meeting k) : Prop := ∀ i, s.thr i = ⟨1, none⟩

structure MeetingSafe {k : Nat} (s : Meeting k) : Prop where
  /-- Nobody returns before the boot processor has entered. -/
  gate  : ∀ i, 0 < (s.thr i).done → 0 < (s.thr 0).started
  /-- There is one episode: it begins with epoch 0, and whoever has left it left it with epoch 1. -/
  inside : ∀ i e, (s.thr i).pc = some (.spin e) → e = 0
  left  : ∀ i, 0 < (s.thr i).done → (s.thr i) = ⟨1, none⟩ ∧ s.bar.epoch = 1
  after : s.Over → s.bar = ⟨0, 1, BitVec.ofNat 32 (k + 1)⟩
  /-- All CPUs can come out of the barrier. -/
  goes  : ∃ t, Reach Meeting.step s t ∧ t.Over

/-! ## The invariant -/

section Inv
variable {M k E : Nat} {s s' : Meeting k} {i : Fin (k + 1)}

/-- The barrier as it is going to be. -/
def Meeting.real (s : Meeting k) : Barrier := { s.bar with max := BitVec.ofNat 32 (k + 1) }

structure Meets (M : Nat) (E : Nat) (s : Meeting k) : Prop where
  episode : Episode s.real E s.thr
  epoch   : s.bar.epoch = BitVec.ofNat 32 E
  max     : s.bar.max = if s.bsp = .storeMax then BitVec.ofNat 32 (M + 1) else BitVec.ofNat 32 (k + 1)
  outside : s.bsp ≠ .enter → s.thr 0 = ⟨0, none⟩
  tickets : s.bsp = .storeMax → ∀ i e c, (s.thr i).pc = some (.compare e c) → c.toNat ≤ k
  once    : ∀ i, 0 < (s.thr i).done → s.thr i = ⟨1, none⟩

theorem meets_start : Meets M 0 (Meeting.start M k) where
  episode := Episode.fresh (by simp) (by simp [Meeting.real]) rfl (fun _ => rfl)
  epoch   := rfl
  max     := rfl
  outside := fun _ => rfl
  tickets := fun _ i e c h => by cases h
  once    := fun i h => absurd h (Nat.lt_irrefl 0)

theorem Meets.done_le (h : Meets M E s) : E ≤ 1 := by
  rcases h.episode.done_eq 0 with hd | ⟨hd, hne⟩
  · by_cases h0 : 0 < (s.thr 0).done
    · rw [h.once 0 h0] at hd
      exact Nat.le_of_eq hd.symm
    · omega
  · by_cases h0 : 0 < (s.thr 0).done
    · exact absurd (by rw [h.once 0 h0]) hne
    · omega

/-- An access does not see another `max`, unless it compares. -/
theorem BarrierPc.step_max {b : Barrier} {x : Unsigned} {pc : BarrierPc}
    (h : ∀ e c, pc = .compare e c → (c = b.max ↔ c = x)) :
    pc.step { b with max := x } = ({ (pc.step b).1 with max := x }, (pc.step b).2) := by
  cases pc with
  | compare e c =>
    show (_, some (if c = x then _ else _)) = (_, some (if c = b.max then _ else _))
    by_cases hc : c = x
    · rw [if_pos hc, if_pos ((h e c rfl).2 hc)]
      rfl
    · rw [if_neg hc, if_neg (fun hb => hc ((h e c rfl).1 hb))]
      rfl
  | _ => rfl

/-- With the old size nobody finds its ticket equal to `max`, nor does anybody with the new one. -/
theorem Meets.step_real (hk : k < M) (hM : M + 1 < 2 ^ 32) (h : Meets M E s) {pc : BarrierPc}
    (hpc : (s.thr i).pc = some pc) :
    pc.step s.real = ({ (pc.step s.bar).1 with max := BitVec.ofNat 32 (k + 1) }, (pc.step s.bar).2) := by
  refine BarrierPc.step_max (fun e c he => ?_)
  have hmax := h.max
  by_cases hb : s.bsp = .storeMax
  · rw [if_pos hb] at hmax
    have hc := h.tickets hb i e c (by rw [hpc, he])
    have hne : ∀ x : Nat, k < x → x < 2 ^ 32 → c ≠ BitVec.ofNat 32 x := by
      intro x hkx hx heq
      rw [heq, BitVec.toNat_ofNat, Nat.mod_eq_of_lt hx] at hc
      omega
    rw [hmax]
    exact iff_of_false (hne _ (by omega) hM) (hne _ (by omega) (by omega))
  · rw [if_neg hb] at hmax
    rw [hmax]

/-! ## One step -/

theorem Meeting.step_cases (hs : s.step i = some s') :
    (∃ pc, (s.thr i).pc = some pc ∧ s'.bar = (pc.step s.bar).1 ∧
      s'.thr = Function.update s.thr i ((s.thr i).after (pc.step s.bar).2) ∧ s'.bsp = s.bsp) ∨
    (i = 0 ∧ s.thr 0 = ⟨0, none⟩ ∧ s.bsp.step (BitVec.ofNat 32 (k + 1)) s.bar = some (s'.bar, s'.bsp) ∧ s'.thr = s.thr) ∨
    (s.thr i = ⟨0, none⟩ ∧ (i = 0 → s.bsp = .enter) ∧ s'.bar = s.bar ∧
      s'.thr = Function.update s.thr i ((s.thr i).after (some .start)) ∧ s'.bsp = s.bsp) := by
  unfold Meeting.step at hs
  cases hpc : (s.thr i).pc with
  | some pc =>
    simp only [hpc] at hs
    cases hs
    exact .inl ⟨pc, rfl, rfl, rfl, rfl⟩
  | none =>
    simp only [hpc] at hs
    split at hs
    · rename_i hd
      have hi : s.thr i = ⟨0, none⟩ := by rw [← hd, ← hpc]
      split at hs
      · rename_i h0
        obtain ⟨r, hr, he⟩ := Option.map_eq_some_iff.1 hs
        subst he
        exact .inr (.inl ⟨h0.1, h0.1 ▸ hi, hr, rfl⟩)
      · rename_i h0
        cases hs
        refine .inr (.inr ⟨hi, fun h => ?_, rfl, rfl, rfl⟩)
        by_contra hne
        exact h0 ⟨h, hne⟩
    · cases hs

theorem BarrierPc.step_compare {b : Barrier} {pc : BarrierPc} {e c : Unsigned}
    (h : (pc.step b).2 = some (.compare e c)) : c = (pc.step b).1.cnt := by
  cases pc with
  | enter e' => cases h; rfl
  | compare e' c' =>
    simp only [BarrierPc.step, Option.some.injEq] at h
    split at h <;> cases h
  | spin e' =>
    simp only [BarrierPc.step] at h
    split at h <;> cases h
  | _ => cases h

/-- As long as the boot processor is outside, the episode is the first. -/
theorem Meets.first (h : Meets M E s) (hb : s.bsp ≠ .enter) : E = 0 ∧ (s.thr 0).arrived E = false := by
  have h0 := h.outside hb
  rcases h.episode.done_eq 0 with hd | ⟨-, hne⟩
  · rw [h0] at hd ⊢
    subst hd
    exact ⟨rfl, rfl⟩
  · rw [h0] at hne
    exact absurd rfl hne

theorem Meets.not_done (h : Meets M E s) {pc : BarrierPc} (hpc : (s.thr i).pc = some pc) : (s.thr i).done = 0 := by
  by_contra hd
  rw [h.once i (by omega)] at hpc
  cases hpc

/-- The ticket just taken counts those that have arrived, and CPU 0 has not. -/
theorem cnt_le_of_absent (hep : Episode s.real E s.thr) (h0 : s.thr 0 = ⟨0, none⟩) : s.bar.cnt.toNat ≤ k := by
  have harr : (s.thr 0).arrived E = false := by
    rw [h0]
    simp [Member.arrived]
  obtain ⟨-, -, hlt, hcnt⟩ := hep.collecting harr
  have hreal : s.real.cnt = s.bar.cnt := rfl
  rw [Fintype.card_fin] at hlt
  rw [← hreal, hcnt]
  omega

theorem Meets.epoch_access (h : Meets M E s) {pc : BarrierPc} (hpc : (s.thr i).pc = some pc) :
    (pc.step s.bar).1.epoch = BitVec.ofNat 32 (E + pc.ends) := by
  cases pc with
  | storeEpoch v =>
    have hok := h.episode.each i
    unfold Member.Ok at hok
    rw [hpc] at hok
    show v + 1 = BitVec.ofNat 32 (E + 1)
    rw [hok.2, BitVec.ofNat_add, ← h.epoch]
    rfl
  | _ => exact h.epoch

theorem Meets.access (hk : k < M) (hM : M + 1 < 2 ^ 32) (h : Meets M E s) {pc : BarrierPc}
    (hpc : (s.thr i).pc = some pc) (hbar : s'.bar = (pc.step s.bar).1)
    (hthr : s'.thr = Function.update s.thr i ((s.thr i).after (pc.step s.bar).2)) (hbsp : s'.bsp = s.bsp) :
    Meets M (E + pc.ends) s' := by
  have hcard : Fintype.card (Fin (k + 1)) < 2 ^ 32 := by rw [Fintype.card_fin]; omega
  have hep : Episode s'.real (E + pc.ends) s'.thr := by
    have hep := h.episode.step hcard hpc
    rw [h.step_real hk hM hpc] at hep
    rwa [Meeting.real, hbar, hthr]
  have h0 : s'.bsp ≠ .enter → s'.thr 0 = ⟨0, none⟩ := fun hb => by
    have h0 := h.outside (by rwa [← hbsp])
    have hne : (0 : Fin (k + 1)) ≠ i := by
      rintro rfl
      rw [h0] at hpc
      cases hpc
    rwa [hthr, Function.update_of_ne hne]
  refine ⟨hep, ?_, ?_, h0, fun hb j e c hj => ?_, fun j hj => ?_⟩
  · rw [hbar]
    exact h.epoch_access hpc
  · have hkeep : (pc.step s.bar).1.max = s.bar.max := by cases pc <;> rfl
    rw [hbar, hbsp, hkeep]
    exact h.max
  · rw [hthr] at hj
    by_cases hji : j = i
    · subst hji
      rw [Function.update_self] at hj
      have hc : c = s'.bar.cnt := by
        rw [hbar]
        apply BarrierPc.step_compare (e := e)
        cases hr : (pc.step s.bar).2 with
        | none => rw [hr] at hj; cases hj
        | some pc' => rw [hr] at hj; exact hj
      rw [hc]
      exact cnt_le_of_absent hep (h0 (by rw [hb]; decide))
    · rw [Function.update_of_ne hji] at hj
      exact h.tickets (by rw [← hbsp, hb]) j e c hj
  · rw [hthr] at hj ⊢
    by_cases hji : j = i
    · subst hji
      have hd := h.not_done hpc
      rw [Function.update_self] at hj ⊢
      cases hr : (pc.step s.bar).2 with
      | none => simp [Member.after, hd]
      | some pc' => rw [hr, Member.after, hd] at hj; exact absurd hj (Nat.lt_irrefl 0)
    · rw [Function.update_of_ne hji] at hj ⊢
      exact h.once j hj

/-- The boot processor stores the size, or looks at the barrier. -/
theorem MeetPc.step_some {online : Unsigned} {b b' : Barrier} {p p' : MeetPc} (h : p.step online b = some (b', p')) :
    p ≠ .enter ∧ p' ≠ .storeMax ∧ b' = { b with max := if p = .storeMax then online else b.max } := by
  cases p with
  | enter => cases h
  | storeMax => cases h; exact ⟨by decide, by decide, rfl⟩
  | loadCnt => cases h; exact ⟨by decide, by simp, rfl⟩
  | loadMax c =>
    simp only [MeetPc.step, Option.some.injEq, Prod.mk.injEq] at h
    obtain ⟨rfl, rfl⟩ := h
    refine ⟨by simp, ?_, by simp⟩
    split <;> decide

theorem Meets.outsideStep (h : Meets M E s) (h0 : s.thr 0 = ⟨0, none⟩)
    (hb : s.bsp.step (BitVec.ofNat 32 (k + 1)) s.bar = some (s'.bar, s'.bsp)) (hthr : s'.thr = s.thr) :
    Meets M E s' := by
  obtain ⟨-, hp', hbar⟩ := MeetPc.step_some hb
  have hmax : s'.bar.max = BitVec.ofNat 32 (k + 1) := by
    have hmax := h.max
    rw [hbar]
    by_cases hp : s.bsp = .storeMax
    · exact if_pos hp
    · rw [if_neg hp] at hmax ⊢
      exact hmax
  refine ⟨?_, ?_, ?_, fun _ => by rw [hthr, h0], fun hp => absurd hp hp', fun j hj => ?_⟩
  · have hreal : s'.real = s.real := by rw [Meeting.real, hbar]; rfl
    rw [hreal, hthr]
    exact h.episode
  · rw [hbar]
    exact h.epoch
  · rw [if_neg hp', hmax]
  · rw [hthr] at hj ⊢
    exact h.once j hj

theorem Meets.call (h : Meets M E s) (hi : s.thr i = ⟨0, none⟩) (h0 : i = 0 → s.bsp = .enter)
    (hbar : s'.bar = s.bar) (hthr : s'.thr = Function.update s.thr i ((s.thr i).after (some .start)))
    (hbsp : s'.bsp = s.bsp) : Meets M E s' := by
  refine ⟨?_, by rw [hbar]; exact h.epoch, by rw [hbar, hbsp]; exact h.max, fun hb => ?_, fun hb j e c hj => ?_,
    fun j hj => ?_⟩
  · rw [Meeting.real, hbar, hthr]
    exact h.episode.call (by rw [hi])
  · rw [hbsp] at hb
    rw [hthr, Function.update_of_ne (fun h => hb (h0 h.symm))]
    exact h.outside hb
  · rw [hthr] at hj
    by_cases hji : j = i
    · subst hji
      rw [Function.update_self] at hj
      cases hj
    · rw [Function.update_of_ne hji] at hj
      exact h.tickets (by rw [← hbsp, hb]) j e c hj
  · rw [hthr] at hj ⊢
    by_cases hji : j = i
    · subst hji
      rw [Function.update_self, hi] at hj
      exact absurd hj (Nat.lt_irrefl 0)
    · rw [Function.update_of_ne hji] at hj ⊢
      exact h.once j hj

/-- **Every step keeps the invariant.** -/
theorem Meets.step (hk : k < M) (hM : M + 1 < 2 ^ 32) (h : Meets M E s) (hs : s.step i = some s') :
    ∃ E', Meets M E' s' := by
  rcases Meeting.step_cases hs with ⟨pc, hpc, hbar, hthr, hbsp⟩ | ⟨rfl, h0, hb, hthr⟩ | ⟨hi, h0, hbar, hthr, hbsp⟩
  · exact ⟨_, h.access hk hM hpc hbar hthr hbsp⟩
  · exact ⟨E, h.outsideStep h0 hb hthr⟩
  · exact ⟨E, h.call hi h0 hbar hthr hbsp⟩

/-! ## Coming out of the barrier -/

def Member.todo (x : Member) : Nat := x.pc.elim (if x.done = 0 then 8 else 0) BarrierPc.left

/-- A look that came too early counts more than the one to come. -/
def MeetPc.todo (k : Nat) : MeetPc → Nat
  | .storeMax  => 4
  | .loadMax c => if c.toNat < k then 3 else 1
  | .loadCnt   => 2
  | .enter     => 0

def Meeting.todo (s : Meeting k) : Nat := s.bsp.todo k + ∑ i, (s.thr i).todo

theorem Meeting.todo_lt (hbsp : s'.bsp = s.bsp) {x : Member} (hthr : s'.thr = Function.update s.thr i x)
    (hx : x.todo < (s.thr i).todo) : s'.todo < s.todo := by
  unfold Meeting.todo
  rw [hbsp, hthr]
  apply Nat.add_lt_add_left
  apply sum_lt_at i
  · rwa [Function.update_self]
  · intro j hji
    rw [Function.update_of_ne hji]

/-- A CPU that does not wait goes on. -/
theorem Meeting.goOn (hspin : ∀ e, (s.thr i).pc = some (.spin e) → e ≠ s.bar.epoch)
    (h1 : (s.thr i).done = 0) (h0 : i = 0 → s.bsp = .enter) : ∃ t, s.step i = some t ∧ t.todo < s.todo := by
  unfold Meeting.step
  cases hpc : (s.thr i).pc with
  | some pc =>
    refine ⟨_, rfl, Meeting.todo_lt rfl rfl ?_⟩
    have hlt : (pc.step s.bar).2.elim 0 BarrierPc.left < pc.left :=
      BarrierPc.step_left (fun e he => hspin e (by rw [hpc, he]))
    cases hr : (pc.step s.bar).2 with
    | none =>
      rw [hr] at hlt
      have hz : ((s.thr i).after none).todo = 0 := by simp [Member.after, Member.todo]
      rw [hz, Member.todo, hpc]
      exact hlt
    | some pc' =>
      rw [hr] at hlt
      rw [Member.todo, Member.todo, hpc]
      exact hlt
  | none =>
    simp only [if_pos h1]
    rw [if_neg (fun hb => hb.2 (h0 hb.1))]
    refine ⟨_, rfl, Meeting.todo_lt rfl rfl ?_⟩
    simp only [Member.after, Member.todo, hpc, Option.elim, if_pos h1]
    decide

theorem Meets.goOnOutside (h : Meets M E s) (hb : s.bsp ≠ .enter) (hcnt : s.bsp = .loadCnt → k ≤ s.bar.cnt.toNat)
    (hk : k < M) (hM : M + 1 < 2 ^ 32) : ∃ t, s.step 0 = some t ∧ t.todo < s.todo := by
  have h0 := h.outside hb
  unfold Meeting.step
  simp only [h0, if_true]
  rw [if_pos ⟨trivial, hb⟩]
  unfold Meeting.todo
  cases hp : s.bsp with
  | storeMax => exact ⟨_, rfl, by simp [MeetPc.todo]⟩
  | enter => exact absurd hp hb
  | loadCnt =>
    refine ⟨_, rfl, ?_⟩
    have := hcnt hp
    simp only [MeetPc.todo]
    rw [if_neg (by omega)]
    omega
  | loadMax c =>
    refine ⟨_, rfl, ?_⟩
    have hmax := h.max
    rw [hp, if_neg (by simp)] at hmax
    have hm : (s.bar.max - 1).toNat = k := by
      rw [hmax, BitVec.ofNat_add]
      simp
      omega
    simp only [MeetPc.todo, BitVec.lt_def, hm]
    by_cases hc : c.toNat < k
    · simp [if_pos hc]
    · simp [if_neg hc]

/-- In the first episode, an AP that has not arrived can go on. -/
theorem Meets.late (h : Meets M 0 s) (hb : s.bsp ≠ .enter) (hcnt : s.bar.cnt.toNat < k) :
    ∃ i, i ≠ 0 ∧ (s.thr i).arrived 0 = false := by
  obtain ⟨-, h0⟩ := h.first hb
  obtain ⟨-, -, -, hc⟩ := h.episode.collecting h0
  by_contra hcon
  have hall : ∀ j, (Function.update s.thr 0 ⟨0, some .reset⟩ j).arrived 0 = true := by
    intro j
    by_cases hj : j = 0
    · subst hj; rw [Function.update_self]; rfl
    · rw [Function.update_of_ne hj]
      by_contra hne
      exact hcon ⟨j, hj, Bool.eq_false_iff.2 hne⟩
  have h1 := count_eq_card hall
  rw [count_update_new rfl h0, Fintype.card_fin] at h1
  have hreal : s.real.cnt = s.bar.cnt := rfl
  rw [hreal] at hc
  omega

theorem Meets.less (hk : k < M) (hM : M + 1 < 2 ^ 32) (h : Meets M E s) (hnot : ¬s.Over) :
    ∃ i t, s.step i = some t ∧ t.todo < s.todo := by
  by_cases hb : s.bsp = .enter
  · -- all CPUs come or are inside
    obtain ⟨i, hi⟩ := h.episode.not_all_spin
    by_cases hd : (s.thr i).done = 0
    · exact ⟨i, Meeting.goOn hi hd (fun _ => hb)⟩
    · -- `i` has left, so the episode is over, and the others are leaving
      have h1 := h.once i (by omega)
      have hE : E = 1 := by
        rcases h.episode.done_eq i with hd' | ⟨-, hne⟩
        · rw [h1] at hd'; exact hd'.symm
        · rw [h1] at hne; exact absurd rfl hne
      subst hE
      obtain ⟨j, hj⟩ : ∃ j, s.thr j ≠ ⟨1, none⟩ := by
        by_contra hcon
        exact hnot (fun j => by by_contra hj; exact hcon ⟨j, hj⟩)
      have hdj : (s.thr j).done = 0 := by
        by_contra hdj
        exact hj (h.once j (by omega))
      exact ⟨j, Meeting.goOn (fun e he => h.episode.leaving (by omega) he) hdj (fun _ => hb)⟩
  · by_cases hcnt : s.bsp = .loadCnt ∧ s.bar.cnt.toNat < k
    · -- the boot processor waits for an AP
      obtain ⟨rfl, -⟩ := h.first hb
      obtain ⟨i, hi, harr⟩ := h.late hb hcnt.2
      have hd : (s.thr i).done = 0 := by
        rcases h.episode.done_eq i with hd | ⟨hd, -⟩
        · exact hd
        · omega
      refine ⟨i, Meeting.goOn (fun e he => ?_) hd (fun h0 => absurd h0 hi)⟩
      simp [Member.arrived, hd, he] at harr
    · exact ⟨0, h.goOnOutside hb (fun hl => by by_contra hlt; exact hcnt ⟨hl, by omega⟩) hk hM⟩

end Inv

/-- **The first barrier**: whenever the boot processor stores the size, it and `k` APs leave one episode together. -/
theorem meeting_safe (M k : Nat) (hk : k < M) (hM : M + 1 < 2 ^ 32) {s : Meeting k}
    (h : Reach Meeting.step (Meeting.start M k) s) : MeetingSafe s := by
  obtain ⟨E, hE⟩ := h.inv (I := fun s => ∃ E, Meets M E s) ⟨0, meets_start⟩
    (fun _ _ _ ⟨_, hi⟩ hs => hi.step hk hM hs)
  have hE1 := hE.done_le
  have hone : ∀ i, 0 < (s.thr i).done → E = 1 := fun i hi => by
    rcases hE.episode.done_eq i with hd | ⟨hd, -⟩ <;> omega
  refine ⟨fun i hi => ?_, fun i e he => ?_, fun i hi => ⟨hE.once i hi, ?_⟩, fun hov => ?_, ?_⟩
  · obtain rfl := hone i hi
    rcases hE.episode.done_eq 0 with hd | ⟨-, hne⟩
    · rw [Member.started]; omega
    · obtain ⟨pc, hpc⟩ := Option.ne_none_iff_exists'.1 hne
      rw [Member.started, hpc]
      exact Nat.succ_pos _
  · have hok := hE.episode.each i
    unfold Member.Ok at hok
    rw [he] at hok
    have hep : s.real.epoch = BitVec.ofNat 32 E := hE.epoch
    rcases hok with ⟨hd, h1⟩ | ⟨hd, h1⟩
    · by_cases hd0 : (s.thr i).done = 0
      · rw [h1, hep, ← hd, hd0]
        rfl
      · rw [hE.once i (by omega)] at he
        cases he
    · have hE2 : E = 1 := by omega
      rw [hep, hE2] at h1
      bv_omega
  · rw [hE.epoch, hone i hi]
    rfl
  · have hone0 := hone 0 (by rw [hov]; decide)
    have hcnt := hE.episode.cnt
    rw [count_eq_zero (fun j => by rw [hov j]; rfl), count_eq_zero (fun j => by rw [hov j]; simp [Member.arrived])] at hcnt
    have hmax := hE.max
    have hb : s.bsp ≠ .storeMax := fun hb => by
      have := hE.outside (by rw [hb]; decide)
      rw [hov 0] at this
      cases this
    rw [if_neg hb] at hmax
    have hz : s.bar.cnt = 0 := BitVec.eq_of_toNat_eq hcnt
    have hep := hE.epoch
    rw [hone0] at hep
    rw [← hmax, ← hz]
    exact congrArg (fun e => (⟨s.bar.cnt, e, s.bar.max⟩ : Barrier)) hep
  · refine reach_goal (I := fun s => ∃ E, Meets M E s) Meeting.todo
      (fun _ _ _ ⟨_, hi⟩ hs => hi.step hk hM hs) (fun u ⟨_, hi⟩ hnot => ?_) s ⟨E, hE⟩
    obtain ⟨i, t, ht, hlt⟩ := hi.less hk hM hnot
    exact ⟨t, (Reach.refl u).next ht, hlt⟩

theorem meeting_safe_one :
    ∃ s, exec Meeting.step (Meeting.start 16 1) [1, 1, 1, 1, 0, 0, 0, 0, 0, 0, 0, 0, 0, 0, 1] = some s ∧
    MeetingSafe s :=
  ⟨_, rfl, meeting_safe 16 1 (by decide) (by decide) ⟨[1, 1, 1, 1, 0, 0, 0, 0, 0, 0, 0, 0, 0, 0, 1], rfl⟩⟩

end SmpBoot
