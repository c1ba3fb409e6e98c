import SmpBoot.Config
import SmpBoot.Lib.Run
/-!
# Sync — `barrier_t` and `flag_t` of `sync.c`, one access at a time

A participant is the number of calls it has completed and where in `barrier()` it is.  `Episode bar E m` is the invariant:
`E` episodes are over, every participant has completed `E` calls or (still leaving the last episode) `E - 1`, and `cnt` is
the number of participants that have entered the episode, until the master, the one that came last, resets it.
-/
namespace SmpBoot

open Interleave

structure Barrier where
  cnt   : Unsigned
  epoch : Unsigned
  max   : Unsigned
  deriving DecidableEq

/-- `BARRIER_INITIALIZER(m)`. -/
def Barrier.init (m : Unsigned) : Barrier := ⟨0, 0, m⟩

/-- The next access of `barrier()`, with its local variables. -/
inductive BarrierPc where
  | start                     -- e = b->epoch
  | enter (e : Unsigned)      -- c = __sync_add_and_fetch(&(b->cnt), 1)
  | compare (e c : Unsigned)  -- if (c == b->max)
  | reset                     -- b->cnt = 0
  | loadEpoch                 -- b->epoch++ : the load
  | storeEpoch (v : Unsigned) -- b->epoch++ : the store
  | spin (e : Unsigned)       -- while (e == b->epoch)
  deriving DecidableEq

/-- One access: the barrier after it, and the next access, if the call does not return. -/
def BarrierPc.step (b : Barrier) : BarrierPc → Barrier × Option BarrierPc
  | .start        => (b, some (.enter b.epoch))
  | .enter e      => ({ b with cnt := b.cnt + 1 }, some (.compare e (b.cnt + 1)))
  | .compare e c  => (b, some (if c = b.max then .reset else .spin e))
  | .reset        => ({ b with cnt := 0 }, some .loadEpoch)
  | .loadEpoch    => (b, some (.storeEpoch b.epoch))
  | .storeEpoch v => ({ b with epoch := v + 1 }, none)
  | .spin e       => (b, if e = b.epoch then some (.spin e) else none)

/-- 1 for the access that ends an episode. -/
def BarrierPc.ends : BarrierPc → Nat
  | .storeEpoch _ => 1
  | _             => 0

/-- How many accesses are left at most, failing spin tests aside. -/
def BarrierPc.left : BarrierPc → Nat
  | .start        => 7
  | .enter _      => 6
  | .compare _ _  => 5
  | .reset        => 4
  | .loadEpoch    => 3
  | .storeEpoch _ => 2
  | .spin _       => 1

theorem BarrierPc.step_left {b : Barrier} {pc : BarrierPc} (h : ∀ e, pc = .spin e → e ≠ b.epoch) :
    ((pc.step b).2.elim 0 BarrierPc.left) < pc.left := by
  cases pc with
  | compare e c => by_cases hc : c = b.max <;> simp [BarrierPc.step, BarrierPc.left, hc]
  | spin e => simp [BarrierPc.step, BarrierPc.left, h e rfl]
  | _ => simp [BarrierPc.step, BarrierPc.left]

/-- A participant: the calls it has completed, and the call it is in. -/
structure Member where
  done : Nat
  pc   : Option BarrierPc
  deriving DecidableEq

def Member.after (x : Member) : Option BarrierPc → Member
  | some pc => { x with pc := some pc }
  | none    => ⟨x.done + 1, none⟩

/-! ## The invariant of the barrier -/

/-- In episode `E`, behind the increment of `cnt`. -/
def Member.arrived (E : Nat) (x : Member) : Bool :=
  x.done == E && match x.pc with
    | none | some .start | some (.enter _) => false
    | _ => true

/-- The participant that found, or is going to find, its `c` equal to `max`. -/
def Member.master (max : Unsigned) (E : Nat) (x : Member) : Bool :=
  x.done == E && match x.pc with
    | some (.compare _ c) => c == max
    | some .reset | some .loadEpoch | some (.storeEpoch _) => true
    | _ => false

def Member.past (x : Member) : Bool :=
  match x.pc with
  | some .loadEpoch | some (.storeEpoch _) => true
  | _ => false

/-- Where a participant can be in episode `E`: in it, or still leaving the last. -/
def Member.Ok (b : Barrier) (E : Nat) (x : Member) : Prop :=
  match x.pc with
  | none | some .start | some .reset | some .loadEpoch => x.done = E
  | some (.enter e) => x.done = E ∧ e = b.epoch
  | some (.compare e c) => (x.done = E ∧ e = b.epoch) ∨ (x.done + 1 = E ∧ e + 1 = b.epoch ∧ c ≠ b.max)
  | some (.spin e) => (x.done = E ∧ e = b.epoch) ∨ (x.done + 1 = E ∧ e + 1 = b.epoch)
  | some (.storeEpoch v) => x.done = E ∧ v = b.epoch

section Episode
variable {ι : Type} [Fintype ι] {b b' : Barrier} {E : Nat} {m : ι → Member}

structure Episode (b : Barrier) (E : Nat) (m : ι → Member) : Prop where
  max    : b.max = BitVec.ofNat 32 (Fintype.card ι)
  each   : ∀ i, (m i).Ok b E
  cnt    : b.cnt.toNat = if count Member.past m = 0 then count (Member.arrived E) m else 0
  /-- There is one master, and only when all have arrived. -/
  master : count (Member.master b.max E) m = if count (Member.arrived E) m = Fintype.card ι then 1 else 0

/-- Nobody is in the barrier, and all have made the same number of calls. -/
theorem Episode.fresh (h : 0 < Fintype.card ι) (hmax : b.max = BitVec.ofNat 32 (Fintype.card ι)) (hcnt : b.cnt = 0)
    (hm : ∀ i, m i = ⟨E, none⟩) : Episode b E m where
  max    := hmax
  each   := fun i => by rw [hm i]; rfl
  cnt    := by
    rw [hcnt, count_eq_zero (fun i => by rw [hm i]; rfl), count_eq_zero (fun i => by rw [hm i]; simp [Member.arrived])]
    rfl
  master := by
    rw [count_eq_zero (fun i => by rw [hm i]; simp [Member.master]),
      count_eq_zero (fun i => by rw [hm i]; simp [Member.arrived]), if_neg (by omega)]

variable [DecidableEq ι] {i : ι} {x : Member}

theorem Member.ok_congr (he : b'.epoch = b.epoch) (hm : b'.max = b.max) : x.Ok b' E ↔ x.Ok b E := by
  unfold Member.Ok
  rw [he, hm]

theorem Episode.each_update (h : Episode b E m) (he : b'.epoch = b.epoch) (hm : b'.max = b.max) (hx : x.Ok b' E)
    (j : ι) : (Function.update m i x j).Ok b' E := by
  refine (Function.forall_update_iff m fun _ y => y.Ok b' E).2 ⟨hx, fun k _ => ?_⟩ j
  exact (Member.ok_congr he hm).2 (h.each k)

theorem Episode.same (h : Episode b E m) (hx : x.Ok b E) (ha : x.arrived E = (m i).arrived E)
    (hm : x.master b.max E = (m i).master b.max E) (hp : x.past = (m i).past) :
    Episode b E (Function.update m i x) where
  max    := h.max
  each   := h.each_update rfl rfl hx
  cnt    := by rw [count_update_same hp, count_update_same ha]; exact h.cnt
  master := by rw [count_update_same hm, count_update_same ha]; exact h.master

/-- A participant that saw the epoch change is leaving the last episode. -/
theorem add_one_ne (e : Unsigned) : e + 1 ≠ e := by
  intro h
  have := congrArg BitVec.toNat h
  simp at this
  omega

omit [DecidableEq ι] in
theorem Episode.past_le (h : Episode b E m) (j : ι) (hp : (m j).past = true) :
    (m j).master b.max E = true ∧ (m j).done = E := by
  have hok := h.each j
  unfold Member.past at hp
  unfold Member.Ok at hok
  unfold Member.master
  cases hpc : (m j).pc with
  | none => simp [hpc] at hp
  | some pc => cases pc <;> simp [hpc] at hp hok ⊢ <;> simp [hok]

omit [Fintype ι] [DecidableEq ι] in
theorem Member.arrived_of_master {max : Unsigned} (h : x.master max E = true) : x.arrived E = true := by
  unfold Member.master at h
  unfold Member.arrived
  cases hpc : x.pc with
  | none => simp [hpc] at h
  | some pc => cases pc <;> simp [hpc] at h ⊢ <;> simp [h]

omit [DecidableEq ι] in
/-- While somebody has not arrived there is no master, and `cnt` counts the arrivals. -/
theorem Episode.collecting (h : Episode b E m) (hi : (m i).arrived E = false) :
    count Member.past m = 0 ∧ count (Member.master b.max E) m = 0 ∧
      count (Member.arrived E) m < Fintype.card ι ∧ b.cnt.toNat = count (Member.arrived E) m := by
  have hlt := count_lt_of_not hi
  have hm := h.master
  rw [if_neg (Nat.ne_of_lt hlt)] at hm
  have hp : count Member.past m = 0 :=
    Nat.le_zero.1 (hm ▸ count_mono (q := Member.master b.max E) (fun j hj => (h.past_le j hj).1))
  have hc := h.cnt
  rw [if_pos hp] at hc
  exact ⟨hp, hm, hlt, hc⟩

omit [DecidableEq ι] in
/-- With a master all have arrived, and the others are waiting. -/
theorem Episode.mastered (h : Episode b E m) (hi : (m i).master b.max E = true) :
    (∀ j, (m j).arrived E = true) ∧ count (Member.master b.max E) m = 1 ∧
      ∀ j, j ≠ i → (m j).master b.max E = false := by
  have hpos := count_pos (p := Member.master b.max E) hi
  have hm := h.master
  have hA : count (Member.arrived E) m = Fintype.card ι := by
    by_contra hne
    rw [if_neg hne] at hm
    omega
  rw [if_pos hA] at hm
  refine ⟨all_of_count_eq hA, hm, fun j hj => ?_⟩
  cases hmj : (m j).master b.max E with
  | false => rfl
  | true => exact absurd (eq_of_count_le_one (Nat.le_of_eq hm) hmj hi) hj

theorem Episode.enter (h : Episode b E m) (hN : Fintype.card ι < 2 ^ 32) {e : Unsigned}
    (hpc : (m i).pc = some (.enter e)) : Episode { b with cnt := b.cnt + 1 } E
      (Function.update m i ((m i).after (some (.compare e (b.cnt + 1))))) := by
  have hok := h.each i
  simp only [Member.Ok, hpc] at hok
  have harr : (m i).arrived E = false := by simp [Member.arrived, hpc]
  obtain ⟨hp, hm, hlt, hc⟩ := h.collecting harr
  have hcnt : (b.cnt + 1).toNat = count (Member.arrived E) m + 1 := by
    rw [BitVec.toNat_add, hc]
    exact Nat.mod_eq_of_lt (by show _ + 1 < 2 ^ 32; omega)
  have hmax : (b.cnt + 1 == b.max) = decide (count (Member.arrived E) m + 1 = Fintype.card ι) := by
    rw [h.max, Bool.eq_iff_iff, beq_iff_eq, decide_eq_true_iff, ← BitVec.toNat_inj, hcnt, BitVec.toNat_ofNat,
      Nat.mod_eq_of_lt hN]
  have hold : (m i).past = false ∧ (m i).master b.max E = false := by simp [Member.past, Member.master, hpc]
  obtain ⟨hx1, hx2, hx3⟩ : ((m i).after (some (.compare e (b.cnt + 1)))).past = false ∧
      ((m i).after (some (.compare e (b.cnt + 1)))).arrived E = true ∧
      ((m i).after (some (.compare e (b.cnt + 1)))).master b.max E = (b.cnt + 1 == b.max) := by
    simp [Member.after, Member.past, Member.arrived, Member.master, hok.1]
  have h1 := count_update_same (f := m) (hx1.trans hold.1.symm)
  have h2 := count_update_new (f := m) hx2 harr
  refine ⟨h.max, h.each_update rfl rfl (.inl hok), ?_, ?_⟩
  · show (b.cnt + 1).toNat = _
    rw [h1, hp, if_pos rfl, h2, hcnt]
  · show count (Member.master b.max E) _ = _
    rw [h2]
    by_cases hl : count (Member.arrived E) m + 1 = Fintype.card ι
    · rw [if_pos hl, count_update_new (by rw [hx3, hmax]; exact decide_eq_true hl) hold.2, hm]
    · rw [if_neg hl, count_update_same (by rw [hx3, hmax, hold.2]; exact decide_eq_false hl), hm]

theorem Episode.resetCnt (h : Episode b E m) (hpc : (m i).pc = some .reset) :
    Episode { b with cnt := 0 } E (Function.update m i ((m i).after (some .loadEpoch))) := by
  have hok : (m i).done = E := by have := h.each i; simpa only [Member.Ok, hpc] using this
  have hmi : (m i).master b.max E = true := by simp [Member.master, hpc, hok]
  obtain ⟨hall, hm1, -⟩ := h.mastered hmi
  have hpi : (m i).past = false := by simp [Member.past, hpc]
  have hp0 : count Member.past m = 0 := by
    have := count_lt (q := Member.master b.max E) (fun j hj => (h.past_le j hj).1) hmi hpi
    omega
  obtain ⟨hx1, hx2, hx3⟩ : ((m i).after (some .loadEpoch)).past = true ∧ ((m i).after (some .loadEpoch)).arrived E = true ∧
      ((m i).after (some .loadEpoch)).master b.max E = true := by
    simp [Member.after, Member.past, Member.arrived, Member.master, hok]
  refine ⟨h.max, h.each_update rfl rfl hok, ?_, ?_⟩
  · show (0 : Unsigned).toNat = _
    rw [count_update_new hx1 hpi, if_neg (Nat.succ_ne_zero _)]
    rfl
  · show count (Member.master b.max E) _ = _
    rw [count_update_same (hx3.trans hmi.symm), count_update_same (hx2.trans (hall i).symm)]
    exact h.master

/-- One that has arrived and is not the master waits, in the next episode with the epoch just over. -/
theorem Member.Ok.leave (h : x.Ok b E) (ha : x.arrived E = true) (hm : x.master b.max E = false) :
    x.Ok { b with epoch := b.epoch + 1 } (E + 1) := by
  simp only [Member.arrived, Bool.and_eq_true, beq_iff_eq] at ha
  unfold Member.Ok at h ⊢
  unfold Member.master at hm
  cases hpc : x.pc with
  | none => rw [hpc] at ha; simp at ha
  | some pc =>
    cases pc with
    | compare e c =>
      simp only [hpc, ha.1, beq_self_eq_true, Bool.true_and] at h hm ⊢
      rcases h with ⟨-, he⟩ | ⟨h1, -⟩
      · exact .inr ⟨trivial, by rw [he], by simpa using hm⟩
      · omega
    | spin e =>
      simp only [hpc, ha.1] at h ⊢
      rcases h with ⟨-, he⟩ | ⟨h1, -⟩
      · exact .inr ⟨trivial, by rw [he]⟩
      · omega
    | start => simp [hpc] at ha
    | enter e => simp [hpc] at ha
    | reset => simp [hpc, ha.1] at hm
    | loadEpoch => simp [hpc, ha.1] at hm
    | storeEpoch w => simp [hpc, ha.1] at hm

/-- **The end of an episode**: the master leaves, the others still wait with the old epoch. -/
theorem Episode.close (h : Episode b E m) {v : Unsigned} (hpc : (m i).pc = some (.storeEpoch v)) :
    Episode { b with epoch := v + 1 } (E + 1) (Function.update m i ((m i).after none)) := by
  have hok := h.each i
  simp only [Member.Ok, hpc] at hok
  have hmi : (m i).master b.max E = true := by simp [Member.master, hpc, hok.1]
  obtain ⟨hall, hm1, hothers⟩ := h.mastered hmi
  have hpi : (m i).past = true := by simp [Member.past, hpc]
  have hp1 : count Member.past m = 1 := by
    have h1 := count_mono (q := Member.master b.max E) (fun j hj => (h.past_le j hj).1)
    have h2 := count_pos (p := Member.past) hpi
    omega
  have hp0 : count Member.past (Function.update m i ((m i).after none)) = 0 := by
    have h1 := count_update Member.past m i ((m i).after none)
    rw [hpi, hp1] at h1
    simpa [Member.past, Member.after] using h1
  have hlast : ∀ j, (Function.update m i ((m i).after none) j).arrived (E + 1) = false := by
    intro j
    by_cases hj : j = i
    · subst hj; simp [Member.arrived, Member.after]
    · rw [Function.update_of_ne hj]
      have hd : (m j).done = E := by
        have := hall j
        simp only [Member.arrived, Bool.and_eq_true, beq_iff_eq] at this
        exact this.1
      simp [Member.arrived, hd]
  refine ⟨h.max, fun j => ?_, ?_, ?_⟩
  · by_cases hj : j = i
    · subst hj
      rw [Function.update_self]
      exact congrArg (· + 1) hok.1
    · rw [Function.update_of_ne hj, hok.2]
      exact (h.each j).leave (hall j) (hothers j hj)
  · rw [if_pos hp0, count_eq_zero hlast]
    have hc := h.cnt
    rw [hp1] at hc
    exact hc
  · have hz : ∀ j, (Function.update m i ((m i).after none) j).master b.max (E + 1) = false := fun j =>
      Bool.eq_false_iff.2 (fun hj => by have := Member.arrived_of_master hj; rw [hlast j] at this; cases this)
    show count (Member.master b.max (E + 1)) _ = _
    rw [count_eq_zero hz, count_eq_zero hlast, if_neg]
    have := Fintype.card_pos_iff.2 ⟨i⟩
    omega

theorem Episode.call (h : Episode b E m) (hpc : (m i).pc = none) :
    Episode b E (Function.update m i ((m i).after (some .start))) := by
  have hok := h.each i
  simp only [Member.Ok, hpc] at hok
  exact h.same hok (by simp [Member.arrived, Member.after, hpc]) (by simp [Member.master, Member.after, hpc])
    (by simp [Member.past, Member.after, hpc])

/-- **Every access of `barrier()` keeps the invariant.** -/
theorem Episode.step (h : Episode b E m) (hN : Fintype.card ι < 2 ^ 32) {pc : BarrierPc} (hpc : (m i).pc = some pc) :
    Episode (pc.step b).1 (E + pc.ends) (Function.update m i ((m i).after (pc.step b).2)) := by
  have hok := h.each i
  unfold Member.Ok at hok
  rw [hpc] at hok
  cases pc with
  | start =>
    exact h.same ⟨hok, rfl⟩ (by simp [Member.arrived, Member.after, hpc, BarrierPc.step])
      (by simp [Member.master, Member.after, hpc, BarrierPc.step])
      (by simp [Member.past, Member.after, hpc, BarrierPc.step])
  | enter e => exact h.enter hN hpc
  | compare e c =>
    simp only [BarrierPc.step]
    by_cases hc : c = b.max
    · rw [if_pos hc]
      have hd : (m i).done = E := by
        rcases hok with ⟨h1, -⟩ | ⟨-, -, h3⟩
        · exact h1
        · exact absurd hc h3
      subst hc
      exact h.same hd (by simp [Member.arrived, Member.after, hpc]) (by simp [Member.master, Member.after, hpc])
        (by simp [Member.past, Member.after, hpc])
    · rw [if_neg hc]
      refine h.same ?_ (by simp [Member.arrived, Member.after, hpc]) (by simp [Member.master, Member.after, hpc, hc])
        (by simp [Member.past, Member.after, hpc])
      rcases hok with h1 | ⟨h1, h2, -⟩
      · exact .inl h1
      · exact .inr ⟨h1, h2⟩
  | reset => exact h.resetCnt hpc
  | loadEpoch =>
    exact h.same ⟨hok, rfl⟩ (by simp [Member.arrived, Member.after, hpc, BarrierPc.step])
      (by simp [Member.master, Member.after, hpc, BarrierPc.step])
      (by simp [Member.past, Member.after, hpc, BarrierPc.step])
  | storeEpoch v => exact h.close hpc
  | spin e =>
    simp only [BarrierPc.step]
    by_cases he : e = b.epoch
    · rw [if_pos he]
      exact h.same hok (by simp [Member.arrived, Member.after, hpc]) (by simp [Member.master, Member.after, hpc])
        (by simp [Member.past, Member.after, hpc])
    · -- the epoch went on: the call returns
      rw [if_neg he]
      have hd : (m i).done + 1 = E := by
        rcases hok with ⟨-, h1⟩ | ⟨h1, -⟩
        · exact absurd h1 he
        · exact h1
      have hne : ((m i).done == E) = false := by rw [beq_eq_false_iff_ne]; omega
      exact h.same hd (by simp [Member.arrived, Member.after, hpc, hne])
        (by simp [Member.master, Member.after, hpc]) (by simp [Member.past, Member.after, hpc])

omit [DecidableEq ι] in
theorem Episode.done_eq (h : Episode b E m) (j : ι) : (m j).done = E ∨ ((m j).done + 1 = E ∧ (m j).pc ≠ none) := by
  have hok := h.each j
  unfold Member.Ok at hok
  cases hpc : (m j).pc with
  | none => rw [hpc] at hok; exact .inl hok
  | some pc =>
    rw [hpc] at hok
    cases pc with
    | start => exact .inl hok
    | reset => exact .inl hok
    | loadEpoch => exact .inl hok
    | enter e => exact .inl hok.1
    | storeEpoch v => exact .inl hok.1
    | compare e c => exact hok.imp (fun h1 => h1.1) (fun h1 => ⟨h1.1, by simp⟩)
    | spin e => exact hok.imp (fun h1 => h1.1) (fun h1 => ⟨h1.1, by simp⟩)

omit [DecidableEq ι] in
theorem Episode.cnt_le (h : Episode b E m) : b.cnt.toNat ≤ Fintype.card ι := by
  rw [h.cnt]
  split
  · exact count_le _ _
  · exact Nat.zero_le _

omit [DecidableEq ι] in
/-- Whoever returns has completed the episode, or the one before. -/
theorem Episode.returns (h : Episode b E m) {pc : BarrierPc} (hpc : (m i).pc = some pc) (hr : (pc.step b).2 = none) :
    (m i).done + 1 = E + pc.ends := by
  have hok := h.each i
  unfold Member.Ok at hok
  rw [hpc] at hok
  cases pc with
  | storeEpoch v => exact congrArg (· + 1) hok.1
  | spin e =>
    simp only [BarrierPc.step] at hr
    split at hr
    · cases hr
    · rcases hok with ⟨-, h1⟩ | ⟨h1, -⟩
      · exact absurd h1 ‹_›
      · exact h1
  | compare e c => simp only [BarrierPc.step] at hr; cases hr
  | _ => cases hr

omit [DecidableEq ι] in
/-- When the episode ends everybody is inside. -/
theorem Episode.all_inside (h : Episode b E m) {v : Unsigned} (hpc : (m i).pc = some (.storeEpoch v)) (j : ι) :
    (m j).done = E ∧ (m j).pc ≠ none := by
  have hok := h.each i
  simp only [Member.Ok, hpc] at hok
  obtain ⟨hall, -, -⟩ := h.mastered (i := i) (by simp [Member.master, hpc, hok.1])
  have := hall j
  simp only [Member.arrived, Bool.and_eq_true, beq_iff_eq] at this
  refine ⟨this.1, fun hn => ?_⟩
  rw [hn] at this
  exact absurd this.2 (by decide)

omit [DecidableEq ι] in
/-- Whoever is still leaving the last episode does not wait. -/
theorem Episode.leaving (h : Episode b E m) {j : ι} (hd : (m j).done + 1 = E) {e : Unsigned}
    (hpc : (m j).pc = some (.spin e)) : e ≠ b.epoch := by
  have hok := h.each j
  unfold Member.Ok at hok
  rw [hpc] at hok
  rcases hok with ⟨h1, -⟩ | ⟨-, h2⟩
  · omega
  · rintro rfl
    exact add_one_ne _ h2

omit [DecidableEq ι] in
/-- **Not all can wait**: somebody is outside, or not at a spin test that fails. -/
theorem Episode.not_all_spin (h : Episode b E m) :
    ∃ j, ∀ e, (m j).pc = some (.spin e) → e ≠ b.epoch := by
  by_contra hcon
  have hspin : ∀ j, (m j).pc = some (.spin b.epoch) := fun j => by
    by_contra hj
    refine hcon ⟨j, fun e he heq => hj ?_⟩
    rw [he, heq]
  have harr : ∀ j, (m j).arrived E = true := by
    intro j
    have hok := h.each j
    unfold Member.Ok at hok
    rw [hspin j] at hok
    rcases hok with ⟨h1, -⟩ | ⟨-, h2⟩
    · simp [Member.arrived, h1, hspin j]
    · exact absurd h2 (add_one_ne b.epoch)
  have hm := h.master
  rw [if_pos (count_eq_card harr), count_eq_zero (fun j => by simp [Member.master, hspin j])] at hm
  cases hm

end Episode

/-! ## Any number of calls -/

section Calls
variable {ι : Type} [DecidableEq ι]

structure Members (ι : Type) where
  bar : Barrier
  thr : ι → Member

/-- One step of participant `i`, out of `K` calls: the next call starts, or one access of the current one. -/
def Members.step (K : Nat) (s : Members ι) (i : ι) : Option (Members ι) :=
  match (s.thr i).pc with
  | none    =>
    if (s.thr i).done < K then some { s with thr := Function.update s.thr i ((s.thr i).after (some .start)) } else none
  | some pc => some ⟨(pc.step s.bar).1, Function.update s.thr i ((s.thr i).after (pc.step s.bar).2)⟩

/-- `N` participants of a barrier initialised with `max = N`. -/
def Members.start (N : Nat) : Members (Fin N) := ⟨.init (BitVec.ofNat 32 N), fun _ => ⟨0, none⟩⟩

def Member.started (x : Member) : Nat := x.done + x.pc.isSome.toNat

/-- What holds of a state of `K` calls. -/
structure BarrierSafe {N : Nat} (K : Nat) (s : Members (Fin N)) : Prop where
  /-- Nobody has returned from more calls than each has started. -/
  gate : ∀ i j, (s.thr i).done ≤ (s.thr j).started
  even : ∀ i j, (s.thr i).done ≤ (s.thr j).done + 1
  cnt  : s.bar.cnt.toNat ≤ N
  /-- While somebody has calls left, somebody can take a step that is not a failing spin test. -/
  goes : (∃ i, (s.thr i).done < K) → ∃ j, (s.step K j).isSome ∧ ∀ e, (s.thr j).pc = some (.spin e) → e ≠ s.bar.epoch

theorem Members.started_le {K : Nat} {s s' : Members ι} {i : ι} (h : ∀ j, (s.thr j).started ≤ K)
    (hs : s.step K i = some s') : ∀ j, (s'.thr j).started ≤ K := by
  intro j
  have hi := h i
  unfold Members.step at hs
  split at hs
  · rename_i hpc
    split at hs
    · rename_i hlt
      cases hs
      by_cases hj : j = i
      · subst hj; simpa [Member.started, Member.after] using Nat.succ_le_of_lt hlt
      · simpa [hj] using h j
    · cases hs
  · rename_i pc hpc
    cases hs
    by_cases hj : j = i
    · subst hj
      simp only [Function.update_self]
      rw [Member.started, hpc] at hi
      cases (pc.step s.bar).2 with
      | none => exact hi
      | some pc' => exact hi
    · simpa [hj] using h j

theorem Members.episode_step [Fintype ι] (hN : Fintype.card ι < 2 ^ 32) {K E : Nat} {s s' : Members ι} {i : ι}
    (h : Episode s.bar E s.thr) (hs : s.step K i = some s') : ∃ E', Episode s'.bar E' s'.thr := by
  unfold Members.step at hs
  split at hs
  · rename_i hpc
    split at hs
    · cases hs
      exact ⟨E, h.call hpc⟩
    · cases hs
  · rename_i pc hpc
    cases hs
    exact ⟨_, h.step hN hpc⟩

end Calls

/-- **`barrier()` is a barrier**: for any number of participants and calls, in every interleaving of the accesses. -/
theorem barrier_safe (N K : Nat) (h1 : 1 ≤ N) (h2 : N < 2 ^ 32) {s : Members (Fin N)}
    (h : Reach (Members.step K) (Members.start N) s) : BarrierSafe K s := by
  have hcard : Fintype.card (Fin N) = N := Fintype.card_fin N
  obtain ⟨⟨E, hE⟩, hK⟩ : (∃ E, Episode s.bar E s.thr) ∧ ∀ j, (s.thr j).started ≤ K := by
    refine h.inv (I := fun s => (∃ E, Episode s.bar E s.thr) ∧ ∀ j, (s.thr j).started ≤ K) ⟨⟨0, ?_⟩, ?_⟩ ?_
    · exact Episode.fresh (by omega) (by rw [hcard]; rfl) rfl (fun _ => rfl)
    · intro j
      exact Nat.zero_le K
    · rintro s i s' ⟨⟨E, hE⟩, hK⟩ hs
      exact ⟨Members.episode_step (by omega) hE hs, Members.started_le hK hs⟩
  refine ⟨fun i j => ?_, fun i j => ?_, ?_, fun ⟨i, hi⟩ => ?_⟩
  · rcases hE.done_eq i with hi | ⟨hi, -⟩ <;> rcases hE.done_eq j with hj | ⟨hj, hjn⟩
    · rw [hi, Member.started, hj]; omega
    · obtain ⟨pc, hpc⟩ := Option.ne_none_iff_exists'.1 hjn
      rw [Member.started, hpc, hi]; exact Nat.le_of_eq hj.symm
    · rw [Member.started]; omega
    · rw [Member.started]; omega
  · rcases hE.done_eq i with hi | ⟨hi, -⟩ <;> rcases hE.done_eq j with hj | ⟨hj, -⟩ <;> omega
  · have := hE.cnt_le
    rwa [hcard] at this
  · obtain ⟨j, hj⟩ := hE.not_all_spin
    cases hpc : (s.thr j).pc with
    | some pc => exact ⟨j, by simp [Members.step, hpc], hj⟩
    | none =>
      -- `j` is outside, so it has completed as many calls as there were episodes
      have hjE : (s.thr j).done = E := by
        rcases hE.done_eq j with h | ⟨-, h⟩
        · exact h
        · exact absurd hpc h
      by_cases hlt : (s.thr j).done < K
      · exact ⟨j, by simp [Members.step, hpc, hlt], fun e he => by rw [hpc] at he; cases he⟩
      · -- all episodes are over: whoever has calls left is leaving the last one
        have hKi := hK i
        rcases hE.done_eq i with hd | ⟨hd, hne⟩
        · omega
        · obtain ⟨pc, hpci⟩ := Option.ne_none_iff_exists'.1 hne
          refine ⟨i, by simp [Members.step, hpci], fun e he heq => ?_⟩
          have hok := hE.each i
          unfold Member.Ok at hok
          rw [he] at hok
          rcases hok with ⟨h3, -⟩ | ⟨-, h3⟩
          · omega
          · rw [heq] at h3
            exact add_one_ne _ h3

/-- CPU 0 is still in the first call when CPU 1 begins the second. -/
theorem barrier_safe_two : ∃ s, exec (Members.step 2) (Members.start 2)
      (List.replicate 5 0 ++ List.replicate 12 1 ++ List.replicate 8 0 ++ [1]) = some s ∧
      (∀ i, s.thr i = ⟨2, none⟩) ∧ BarrierSafe 2 s :=
  ⟨_, rfl, by decide, barrier_safe 2 2 (by decide) (by decide)
    ⟨List.replicate 5 0 ++ List.replicate 12 1 ++ List.replicate 8 0 ++ [1], rfl⟩⟩

/-! ## `flag_t` -/

structure Flag where
  flag : Unsigned
  next : Unsigned
  deriving DecidableEq

def Flag.init : Flag := ⟨0, 0⟩

/-- `flag_signal`: one atomic addition. -/
def Flag.signal (f : Flag) : Flag := { f with flag := f.flag + 1 }

/-- The next access of `flag_trywait()`. -/
inductive TrywaitPc where
  | loadNext               -- n = flag->next + 1
  | loadFlag (n : Unsigned) -- if (flag->flag < n)
  | addNext                -- __sync_add_and_fetch(&flag->next, 1)
  deriving DecidableEq

/-- One access: the flag after it, and the next access or what the call returns. -/
def TrywaitPc.step (f : Flag) : TrywaitPc → Flag × (TrywaitPc ⊕ Bool)
  | .loadNext   => (f, .inl (.loadFlag (f.next + 1)))
  | .loadFlag n => (f, if f.flag < n then .inr false else .inl .addNext)
  | .addNext    => ({ f with next := f.next + 1 }, .inr true)

end SmpBoot
