import Mathlib.Algebra.Order.BigOperators.Group.Finset
import Mathlib.Data.Fintype.Card
import Mathlib.Data.Finset.Card
import Mathlib.Order.Interval.Finset.Nat
import Mathlib.Logic.Function.Basic
/-!
# Runs of labelled step functions

A system of threads is a partial step function `step : σ → α → Option σ`: the label `a` says which thread moves (and
how, where it has a choice), `none` says that it cannot.  A run is a list of labels, so every interleaving is one list
and a theorem about all lists is a theorem about all interleavings.  Nothing here names a program.
-/
namespace Interleave

variable {σ α : Type} {step : σ → α → Option σ}

/-- The state a run ends in, if every step of it can be taken. -/
def exec (step : σ → α → Option σ) : σ → List α → Option σ
  | s, []      => some s
  | s, a :: as =>
    match step s a with
    | none    => none
    | some s' => exec step s' as

/-- **The states some run from `s₀` ends in.** -/
def Reach (step : σ → α → Option σ) (s₀ s : σ) : Prop := ∃ as, exec step s₀ as = some s

/-- The steps that meet a condition on the label and the state before the step. -/
def onlyIf (C : σ → α → Bool) (step : σ → α → Option σ) (s : σ) (a : α) : Option σ :=
  if C s a then step s a else none

theorem onlyIf_some {C : σ → α → Bool} {s s' : σ} {a : α} (h : onlyIf C step s a = some s') :
    C s a = true ∧ step s a = some s' := by
  unfold onlyIf at h
  split at h
  · exact ⟨‹_›, h⟩
  · cases h

theorem exec_append (s : σ) : ∀ (as bs : List α),
    exec step s (as ++ bs) = (exec step s as).bind (fun t => exec step t bs)
  | [], _ => rfl
  | a :: as, bs => by
    simp only [List.cons_append, exec]
    cases h : step s a with
    | none => rfl
    | some t => exact exec_append t as bs

theorem Reach.refl (s : σ) : Reach step s s := ⟨[], rfl⟩

theorem Reach.trans {s t u : σ} (h : Reach step s t) (h' : Reach step t u) : Reach step s u := by
  obtain ⟨as, ha⟩ := h
  obtain ⟨bs, hb⟩ := h'
  exact ⟨as ++ bs, by rw [exec_append, ha]; exact hb⟩

theorem Reach.next {s t u : σ} {a : α} (h : Reach step s t) (ha : step t a = some u) : Reach step s u :=
  h.trans ⟨[a], by simp [exec, ha]⟩

theorem exec_inv {I : σ → Prop} (hstep : ∀ s a s', I s → step s a = some s' → I s') :
    ∀ (as : List α) (s t : σ), I s → exec step s as = some t → I t
  | [], s, t, hs, h => by cases h; exact hs
  | a :: as, s, t, hs, h => by
    simp only [exec] at h
    split at h
    · cases h
    · rename_i s' hs'
      exact exec_inv hstep as s' t (hstep s a s' hs hs') h

/-- **The invariant rule**: what holds at the start and is kept by every step holds in every state reached. -/
theorem Reach.inv {I : σ → Prop} {s₀ s : σ} (h : Reach step s₀ s) (h₀ : I s₀)
    (hstep : ∀ s a s', I s → step s a = some s' → I s') : I s := by
  obtain ⟨as, ha⟩ := h
  exact exec_inv hstep as s₀ s h₀ ha

/-- A run takes only steps that meet `C`, or comes to a state of `B`, if the first other step leads there for good. -/
theorem exec_onlyIf_or {C : σ → α → Bool} {I B : σ → Prop}
    (hI : ∀ s a s', I s → C s a = true → step s a = some s' → I s')
    (hB : ∀ s a s', I s → C s a = false → step s a = some s' → B s')
    (hkeep : ∀ s a s', B s → step s a = some s' → B s') :
    ∀ (as : List α) (s t : σ), I s → exec step s as = some t → exec (onlyIf C step) s as = some t ∨ B t
  | [], _, _, _, h => .inl h
  | a :: as, s, t, hs, h => by
    simp only [exec] at h ⊢
    cases hstep : step s a with
    | none => rw [hstep] at h; cases h
    | some s' =>
      rw [hstep] at h
      cases hc : C s a with
      | true =>
        simp only [onlyIf, hc, if_true, hstep]
        exact exec_onlyIf_or hI hB hkeep as s' t (hI s a s' hs hc hstep) h
      | false => exact .inr (exec_inv hkeep as s' t (hB s a s' hs hc hstep) h)

/-- **The progress rule**: where the invariant holds and the goal does not, some run makes the measure smaller. -/
theorem reach_goal {I D : σ → Prop} (μ : σ → Nat) (hstep : ∀ s a s', I s → step s a = some s' → I s')
    (hless : ∀ s, I s → ¬D s → ∃ t, Reach step s t ∧ μ t < μ s) (s : σ) (h : I s) : ∃ t, Reach step s t ∧ D t := by
  by_cases hd : D s
  · exact ⟨s, .refl s, hd⟩
  · obtain ⟨t, ht, hlt⟩ := hless s h hd
    obtain ⟨u, hu, hdu⟩ := reach_goal μ hstep hless t (ht.inv h hstep)
    exact ⟨u, ht.trans hu, hdu⟩
termination_by μ s

/-! ## Counting threads -/

section Count
variable {ι β : Type} [Fintype ι]

/-- The number of threads whose local state satisfies `p`. -/
def count (p : β → Bool) (f : ι → β) : Nat := (Finset.univ.filter (fun i => p (f i) = true)).card

theorem count_le (p : β → Bool) (f : ι → β) : count p f ≤ Fintype.card ι := by
  unfold count
  exact Finset.card_le_univ _

theorem count_eq_card {p : β → Bool} {f : ι → β} (h : ∀ i, p (f i) = true) : count p f = Fintype.card ι := by
  unfold count
  rw [Finset.filter_true_of_mem (fun i _ => h i), Finset.card_univ]

theorem count_eq_zero {p : β → Bool} {f : ι → β} (h : ∀ i, p (f i) = false) : count p f = 0 := by
  unfold count
  rw [Finset.filter_false_of_mem (fun i _ => by simp [h i]), Finset.card_empty]

theorem all_of_count_eq {p : β → Bool} {f : ι → β} (h : count p f = Fintype.card ι) (i : ι) : p (f i) = true := by
  unfold count at h
  rw [← Finset.card_univ] at h
  have hu := Finset.eq_of_subset_of_card_le (Finset.filter_subset _ _) (Nat.le_of_eq h.symm)
  have hi : i ∈ Finset.univ.filter (fun j => p (f j) = true) := by rw [hu]; exact Finset.mem_univ i
  exact (Finset.mem_filter.1 hi).2

theorem count_lt_of_not {p : β → Bool} {f : ι → β} {i : ι} (h : p (f i) = false) : count p f < Fintype.card ι := by
  refine Nat.lt_of_le_of_ne (count_le p f) (fun he => ?_)
  rw [all_of_count_eq he i] at h
  cases h

theorem count_congr {p q : β → Bool} {f g : ι → β} (h : ∀ i, p (f i) = q (g i)) : count p f = count q g := by
  unfold count
  congr 1
  exact Finset.filter_congr (fun i _ => by rw [h i])

theorem count_pos {p : β → Bool} {f : ι → β} {i : ι} (h : p (f i) = true) : 0 < count p f :=
  Finset.card_pos.2 ⟨i, Finset.mem_filter.2 ⟨Finset.mem_univ i, h⟩⟩

theorem count_mono {p q : β → Bool} {f : ι → β} (h : ∀ i, p (f i) = true → q (f i) = true) : count p f ≤ count q f :=
  Finset.card_le_card (fun i hi => Finset.mem_filter.2 ⟨Finset.mem_univ i, h i (Finset.mem_filter.1 hi).2⟩)

theorem count_lt {p q : β → Bool} {f : ι → β} {i : ι} (h : ∀ i, p (f i) = true → q (f i) = true)
    (hq : q (f i) = true) (hp : p (f i) = false) : count p f < count q f := by
  refine Finset.card_lt_card ⟨fun j hj => Finset.mem_filter.2 ⟨Finset.mem_univ j, h j (Finset.mem_filter.1 hj).2⟩, ?_⟩
  intro hsub
  have := (Finset.mem_filter.1 (hsub (Finset.mem_filter.2 ⟨Finset.mem_univ i, hq⟩))).2
  rw [hp] at this
  cases this

theorem eq_of_count_le_one {p : β → Bool} {f : ι → β} {i j : ι} (h : count p f ≤ 1) (hi : p (f i) = true)
    (hj : p (f j) = true) : i = j :=
  Finset.card_le_one.1 h i (Finset.mem_filter.2 ⟨Finset.mem_univ i, hi⟩) j
    (Finset.mem_filter.2 ⟨Finset.mem_univ j, hj⟩)

theorem count_le_one {p : β → Bool} {f : ι → β} (h : ∀ i j, p (f i) = true → p (f j) = true → i = j) : count p f ≤ 1 :=
  Finset.card_le_one.2 (fun i hi j hj => h i j (Finset.mem_filter.1 hi).2 (Finset.mem_filter.1 hj).2)

variable [DecidableEq ι]

theorem count_split (p : β → Bool) (f : ι → β) (i : ι) :
    count p f = (Finset.univ.filter (fun j => j ≠ i ∧ p (f j) = true)).card + (p (f i)).toNat := by
  have h : (Finset.univ.filter (fun j => j ≠ i ∧ p (f j) = true)) =
      (Finset.univ.filter (fun j => p (f j) = true)).erase i := by
    ext j; simp [Finset.mem_erase, Finset.mem_filter]
  rw [h]
  unfold count
  cases hp : p (f i) with
  | true => exact (Finset.card_erase_add_one (by simp [hp])).symm
  | false => rw [Finset.erase_eq_of_notMem (by simp [hp])]; rfl

/-- **One thread's step changes a count by that thread alone.** -/
theorem count_update (p : β → Bool) (f : ι → β) (i : ι) (x : β) :
    count p (Function.update f i x) + (p (f i)).toNat = count p f + (p x).toNat := by
  rw [count_split p (Function.update f i x) i, count_split p f i, Function.update_self]
  have h : (Finset.univ.filter (fun j => j ≠ i ∧ p (Function.update f i x j) = true)) =
      (Finset.univ.filter (fun j => j ≠ i ∧ p (f j) = true)) := by
    apply Finset.filter_congr
    intro j _
    constructor <;> rintro ⟨hj, h⟩ <;> exact ⟨hj, by simpa [Function.update_of_ne hj] using h⟩
  rw [h]
  omega

theorem count_update_same {p : β → Bool} {f : ι → β} {i : ι} {x : β} (h : p x = p (f i)) :
    count p (Function.update f i x) = count p f := by
  have := count_update p f i x
  rw [h] at this
  exact Nat.add_right_cancel this

theorem count_update_new {p : β → Bool} {f : ι → β} {i : ι} {x : β} (hx : p x = true) (hf : p (f i) = false) :
    count p (Function.update f i x) = count p f + 1 := by
  have := count_update p f i x
  rw [hx, hf] at this
  exact this

/-- **Numbers without a gap**: 0 and the numbers of the threads counted, 0 apart, are those up to their count exactly if
with a thread each one below it is counted. -/
theorem count_gapless {n : Nat} {p : β → Bool} {f : Fin n → β} (h0 : ∀ i, p (f i) = true → 1 ≤ i.val) :
    (∀ k, (k = 0 ∨ ∃ i : Fin n, i.val = k ∧ p (f i) = true) ↔ k < 1 + count p f) ↔
      ∀ i j : Fin n, 1 ≤ i.val → i < j → p (f j) = true → p (f i) = true := by
  have hcard : ((Finset.univ.filter (fun i => p (f i) = true)).image Fin.val).card = count p f :=
    Finset.card_image_of_injective _ Fin.val_injective
  constructor
  · intro h i j hi hij hj
    have hlt := (h j.val).1 (.inr ⟨j, rfl, hj⟩)
    rcases (h i.val).2 (Nat.lt_trans hij hlt) with h | ⟨i', hi', hp⟩
    · omega
    · rwa [← Fin.ext hi']
  · intro h
    have hsub : (Finset.univ.filter (fun i => p (f i) = true)).image Fin.val ⊆ Finset.Icc 1 (count p f) := by
      intro k hk
      simp only [Finset.mem_image, Finset.mem_filter, Finset.mem_univ, true_and] at hk
      obtain ⟨j, hj, rfl⟩ := hk
      have hbelow : Finset.Icc 1 j.val ⊆ (Finset.univ.filter (fun i => p (f i) = true)).image Fin.val := by
        intro k hk
        rw [Finset.mem_Icc] at hk
        simp only [Finset.mem_image, Finset.mem_filter, Finset.mem_univ, true_and]
        refine ⟨⟨k, by omega⟩, ?_, rfl⟩
        by_cases hkj : k = j.val
        · subst hkj; exact hj
        · exact h ⟨k, by omega⟩ j hk.1 (by show k < j.val; omega) hj
      have hle := Finset.card_le_card hbelow
      rw [hcard, Nat.card_Icc] at hle
      exact Finset.mem_Icc.2 ⟨h0 j hj, by omega⟩
    have heq := Finset.eq_of_subset_of_card_le hsub (by rw [hcard, Nat.card_Icc]; omega)
    intro k
    have hk := Finset.ext_iff.1 heq k
    simp only [Finset.mem_image, Finset.mem_filter, Finset.mem_univ, true_and, Finset.mem_Icc] at hk
    constructor
    · rintro (rfl | ⟨i, rfl, hi⟩)
      · omega
      · have := hk.1 ⟨i, hi, rfl⟩
        omega
    · intro hlt
      by_cases hk0 : k = 0
      · exact .inl hk0
      · obtain ⟨i, hi, hik⟩ := hk.2 ⟨by omega, by omega⟩
        exact .inr ⟨i, hik, hi⟩

end Count

/-- A measure summed over the threads goes down if it does for one thread and no other is touched. -/
theorem sum_lt_at {ι : Type} [Fintype ι] {f g : ι → Nat} (i : ι) (hi : f i < g i) (ho : ∀ j, j ≠ i → f j = g j) :
    ∑ j, f j < ∑ j, g j := by
  refine Finset.sum_lt_sum (fun j _ => ?_) ⟨i, Finset.mem_univ i, hi⟩
  by_cases hji : j = i
  · subst hji
    exact Nat.le_of_lt hi
  · exact Nat.le_of_eq (ho j hji)

end Interleave
