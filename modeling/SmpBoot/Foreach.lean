import Mathlib.Algebra.Group.Nat.Defs
import SmpBoot.Lib.CLoop
/-!
# Foreach — the macro `foreach(item, array)` of `system.h`

`expand` writes the two `for` loops of the macro for every `each`: the counters are declared by the outer loop and live as
long as it runs, so those of enclosing loops lie below them, and no body names them.  An `int` that overflows and an index
outside of the array are undefined.
-/
namespace SmpBoot

open CLoop (Jump Stmt Runs exec runEach exec_seq_iff exec_ite_iff exec_loop_iff)

/-- The variables that the outer `for` declares. -/
structure Counters where
  keep  : Int
  count : Int
  size  : Int
  deriving DecidableEq

/-- The variables of the program, and the counters of the loops around, the innermost in front. -/
structure LoopEnv (σ : Type) where
  vars   : σ
  frames : List Counters

variable {σ : Type}

/-- `!x` -/
def lnot (x : Int) : Int := if x = 0 then 1 else 0

/-- `x++`; the largest `int` has no successor. -/
def increment (x : Int) : Option Int := if x = 0x7FFFFFFF then none else some (x + 1)

/-- `int keep = 1, count = 0, size = sizeof (array) / sizeof *(array)`, the quotient converted to `int`. -/
def LoopEnv.declare (length : Nat) (e : LoopEnv σ) : Option (LoopEnv σ) :=
  some { e with frames := ⟨1, 0, (BitVec.ofNat 32 length).toInt⟩ :: e.frames }

/-- The end of the scope of the counters. -/
def LoopEnv.leave (e : LoopEnv σ) : Option (LoopEnv σ) := some { e with frames := e.frames.tail }

/-- `keep && count != size` -/
def LoopEnv.outerTest (e : LoopEnv σ) : Bool := e.frames.head?.any fun c => c.keep ≠ 0 ∧ c.count ≠ c.size

/-- `keep` -/
def LoopEnv.innerTest (e : LoopEnv σ) : Bool := e.frames.head?.any fun c => c.keep ≠ 0

/-- `item = array[count]` -/
def LoopEnv.assign (length : Nat) (item : Nat → σ → σ) (e : LoopEnv σ) : Option (LoopEnv σ) := do
  let c ← e.frames.head?
  if 0 ≤ c.count ∧ c.count < length then some { e with vars := item c.count.toNat e.vars } else none

/-- `keep = !keep` -/
def LoopEnv.innerStep (e : LoopEnv σ) : Option (LoopEnv σ) := do
  let c ← e.frames.head?
  some { e with frames := { c with keep := lnot c.keep } :: e.frames.tail }

/-- `keep = !keep, count++` -/
def LoopEnv.outerStep (e : LoopEnv σ) : Option (LoopEnv σ) := do
  let c ← e.frames.head?
  let count ← increment c.count
  some { e with frames := { c with keep := lnot c.keep, count } :: e.frames.tail }

/-- `for(item = array[count]; keep; keep = !keep) body` -/
def innerFor (length : Nat) (item : Nat → σ → σ) (body : Stmt (LoopEnv σ)) : Stmt (LoopEnv σ) :=
  .seq (.expr (LoopEnv.assign length item)) (.loop LoopEnv.innerTest LoopEnv.innerStep body)

def outerFor (length : Nat) (item : Nat → σ → σ) (body : Stmt (LoopEnv σ)) : Stmt (LoopEnv σ) :=
  .loop LoopEnv.outerTest LoopEnv.outerStep (innerFor length item body)

/-- `foreach(item, array) body` -/
def foreach (length : Nat) (item : Nat → σ → σ) (body : Stmt (LoopEnv σ)) : Stmt (LoopEnv σ) :=
  .seq (.expr (LoopEnv.declare length)) (.seq (outerFor length item body) (.expr LoopEnv.leave))

/-- The program as the preprocessor leaves it. -/
def expand : Stmt σ → Stmt (LoopEnv σ)
  | .act f                 => .act fun e => (f e.vars).map fun r => (⟨r.1, e.frames⟩, r.2)
  | .seq p q               => .seq (expand p) (expand q)
  | .ite c p q             => .ite (fun e => c e.vars) (expand p) (expand q)
  | .loop test step body   => .loop (fun e => test e.vars) (fun e => (step e.vars).map fun t => ⟨t, e.frames⟩) (expand body)
  | .each length item body => foreach length item (expand body)

/-- The number of elements of every array fits into an `int`. -/
def FitsInt : Stmt σ → Prop
  | .act _               => True
  | .seq p q             => FitsInt p ∧ FitsInt q
  | .ite _ p q           => FitsInt p ∧ FitsInt q
  | .loop _ _ body       => FitsInt body
  | .each length _ body  => length < 2 ^ 31 ∧ FitsInt body

/-! ## One round -/

section
variable {length : Nat} {item : Nat → σ → σ} {body : Stmt (LoopEnv σ)} {s t : σ} {j : Jump} {frames : List Counters}

/-- **The inner loop runs the body once**: `keep` is still set behind it if the body broke. -/
theorem innerFor_runs {i : Nat} (hi : i < length) {size : Int}
    (hbody : ∀ frames, Runs body ⟨item i s, frames⟩ (⟨t, frames⟩, j)) :
    Runs (innerFor length item body) ⟨s, ⟨1, i, size⟩ :: frames⟩
      (⟨t, ⟨if j = .breaks then 1 else 0, i, size⟩ :: frames⟩, .falls) := by
  have hassign : LoopEnv.assign length item ⟨s, ⟨1, i, size⟩ :: frames⟩ = some ⟨item i s, ⟨1, i, size⟩ :: frames⟩ := by
    have hrange : (0 : Int) ≤ i ∧ (i : Int) < length := by omega
    simp [LoopEnv.assign, hrange]
  apply Runs.seq (Runs.expr hassign)
  by_cases hj : j = .breaks
  · rw [if_pos hj]
    subst hj
    exact Runs.loop_break rfl (hbody _)
  · rw [if_neg hj]
    exact Runs.loop_next rfl (hbody _) hj rfl (Runs.loop_done rfl)

theorem increment_eq {i : Nat} (hi : i + 1 < 2 ^ 31) : increment i = some ((i + 1 : Nat) : Int) := by
  have hcount : (i : Int) ≠ 0x7FFFFFFF := by omega
  rw [increment, if_neg hcount, Int.natCast_add_one]

theorem outerStep_eq {i : Nat} (hi : i + 1 < 2 ^ 31) (keep size : Int) :
    LoopEnv.outerStep ⟨s, ⟨keep, i, size⟩ :: frames⟩ = some ⟨s, ⟨lnot keep, (i + 1 : Nat), size⟩ :: frames⟩ := by
  simp only [LoopEnv.outerStep, List.head?_cons, Option.bind_eq_bind, Option.bind_some, increment_eq hi, List.tail_cons]

/-- **The outer loop runs over the elements that are left**, in order, and stops behind the one whose body broke. -/
theorem outerFor_runs {run : Nat → σ → Option (σ × Jump)} (hlength : length < 2 ^ 31)
    (hbody : ∀ i s t j, run i s = some (t, j) → ∀ frames, Runs body ⟨item i s, frames⟩ (⟨t, frames⟩, j)) :
    ∀ (k i : Nat) (s t : σ), i + k = length → runEach run (List.range' i k) s = some t →
      ∃ c, Runs (outerFor length item body) ⟨s, ⟨1, i, length⟩ :: frames⟩ (⟨t, c :: frames⟩, .falls)
  | 0, i, s, t, hk, ht => by
    obtain rfl : s = t := Option.some.inj ht
    refine ⟨_, Runs.loop_done ?_⟩
    simp [LoopEnv.outerTest, ← hk]
  | k + 1, i, s, t, hk, ht => by
    rw [List.range'_succ, runEach, Option.bind_eq_some_iff] at ht
    obtain ⟨⟨u, j⟩, hrun, hrest⟩ := ht
    have htest : LoopEnv.outerTest (σ := σ) ⟨s, ⟨1, i, length⟩ :: frames⟩ = true := by
      have hne : (i : Int) ≠ length := by omega
      simp [LoopEnv.outerTest, hne]
    have hround : Runs (innerFor length item body) ⟨s, ⟨1, i, length⟩ :: frames⟩ _ :=
      innerFor_runs (by omega : i < length) (hbody i s u j hrun)
    have hcount : i + 1 < 2 ^ 31 := by omega
    by_cases hj : j = .breaks
    · rw [if_pos hj] at hround hrest
      obtain rfl : u = t := Option.some.inj hrest
      -- `keep` is clear behind the step: the test fails whatever is left
      exact ⟨_, Runs.loop_next htest hround (by decide) (outerStep_eq hcount 1 length) (Runs.loop_done rfl)⟩
    · rw [if_neg hj] at hround hrest
      obtain ⟨c, hloop⟩ := outerFor_runs hlength hbody k (i + 1) u t (by omega) hrest
      exact ⟨c, Runs.loop_next htest hround (by decide) (outerStep_eq hcount 0 length) hloop⟩

/-- **A whole `foreach`**, whose counters are gone behind it. -/
theorem foreach_runs {run : Nat → σ → Option (σ × Jump)} (hlength : length < 2 ^ 31)
    (hbody : ∀ i s t j, run i s = some (t, j) → ∀ frames, Runs body ⟨item i s, frames⟩ (⟨t, frames⟩, j))
    (ht : runEach run (List.range' 0 length) s = some t) :
    Runs (foreach length item body) ⟨s, frames⟩ (⟨t, frames⟩, .falls) := by
  have hsize : (BitVec.ofNat 32 length).toInt = length := by
    rw [BitVec.toInt_ofNat', Int.bmod_eq_of_le] <;> omega
  have hdeclare : LoopEnv.declare length ⟨s, frames⟩ = some ⟨s, ⟨1, 0, length⟩ :: frames⟩ := by
    rw [LoopEnv.declare, hsize]
  obtain ⟨c, hloop⟩ := outerFor_runs hlength hbody length 0 s t (Nat.zero_add _) ht
  exact Runs.seq (Runs.expr hdeclare) (Runs.seq hloop (Runs.expr rfl))

end

/-! ## Every program -/

/-- By the fuel: a statement ends where its expansion does, whatever counters lie below. -/
theorem expand_runs : ∀ (n : Nat) (p : Stmt σ) (s t : σ) (j : Jump), FitsInt p → exec n p s = some (t, j) →
    ∀ frames, Runs (expand p) ⟨s, frames⟩ (⟨t, frames⟩, j)
  | 0,     _,                    _, _, _, _, h, _ => nomatch h
  | _ + 1, .act f,               s, t, j, _, h, frames => by
    rw [exec] at h
    exact Runs.act (by rw [h]; rfl)
  | n + 1, .seq p q,             s, t, j, ⟨hp, hq⟩, h, frames => by
    obtain ⟨u, k, hfirst, hrest⟩ := exec_seq_iff.1 h
    have hrun := expand_runs n p s u k hp hfirst frames
    rcases hrest with ⟨hk, hr⟩ | ⟨rfl, hsecond⟩
    · obtain ⟨rfl, rfl⟩ := Prod.mk.inj hr
      exact Runs.seq_jump hrun hk
    · exact Runs.seq hrun (expand_runs n q u t j hq hsecond frames)
  | n + 1, .ite c p q,           s, t, j, ⟨hp, hq⟩, h, frames => by
    rcases exec_ite_iff.1 h with ⟨hc, h⟩ | ⟨hc, h⟩
    · exact Runs.ite_pos hc (expand_runs n p s t j hp h frames)
    · exact Runs.ite_neg hc (expand_runs n q s t j hq h frames)
  | n + 1, .loop test step body, s, t, j, hfits, h, frames => by
    rcases exec_loop_iff.1 h with ⟨htest, hr⟩ | ⟨htest, u, k, hround, hrest⟩
    · obtain ⟨rfl, rfl⟩ := Prod.mk.inj hr
      exact Runs.loop_done htest
    · have hrun := expand_runs n body s u k hfits hround frames
      rcases hrest with ⟨rfl, hr⟩ | ⟨hk, v, hstep, hloop⟩
      · obtain ⟨rfl, rfl⟩ := Prod.mk.inj hr
        exact Runs.loop_break htest hrun
      · exact Runs.loop_next htest hrun hk (by rw [hstep]; rfl) (expand_runs n _ v t j hfits hloop frames)
  | n + 1, .each length item body, s, t, j, ⟨hlength, hfits⟩, h, frames => by
    rw [exec, Option.map_eq_some_iff] at h
    obtain ⟨u, heach, hu⟩ := h
    obtain ⟨rfl, rfl⟩ := Prod.mk.inj hu
    exact foreach_runs hlength (fun i s t j hrun frames => expand_runs n body (item i s) t j hfits hrun frames) heach

/-- **A program and its expansion**: it ends in the same state by the same jump, in no other way, and the counters of the
loops around stand where they stood. -/
theorem expand_runs_iff (p : Stmt σ) (hfits : FitsInt p) {s t : σ} {j : Jump} (h : Runs p s (t, j))
    (frames : List Counters) (r : LoopEnv σ × Jump) : Runs (expand p) ⟨s, frames⟩ r ↔ r = (⟨t, frames⟩, j) := by
  obtain ⟨n, hn⟩ := h
  exact Runs.iff_eq (expand_runs n p s t j hfits hn frames)

/-- **`foreach` runs its body in index order**: on the elements below `k`, where `k` is the length of the array or the index
behind the first element whose body breaks. -/
theorem foreach_in_order {length : Nat} {item : Nat → σ → σ} {body : Stmt σ}
    (hfits : FitsInt (.each length item body)) {k : Nat}
    (hk : k ≤ length) {states : Nat → σ} {jumps : Nat → Jump}
    (hround : ∀ i < k, Runs body (item i (states i)) (states (i + 1), jumps i)) (hgo : ∀ i, i + 1 < k → jumps i ≠ .breaks)
    (hend : k = length ∨ ∃ i, k = i + 1 ∧ jumps i = .breaks) (frames : List Counters) (r : LoopEnv σ × Jump) :
    Runs (expand (.each length item body)) ⟨states 0, frames⟩ r ↔ r = (⟨states k, frames⟩, .falls) :=
  expand_runs_iff _ hfits (Runs.each hk hround hgo hend) frames r

/-- The outer loop ends at index 2, the inner one continues at every element and writes the indices down. -/
def pairs : Stmt ((Nat × Nat) × List (Nat × Nat)) :=
  .seq (.ite (fun s => s.1.1 = 2) (.act fun s => some (s, .breaks)) (.act fun s => some (s, .falls)))
    (.each 2 (fun j s => ((s.1.1, j), s.2)) (.act fun s => some ((s.1, s.2 ++ [s.1]), .continues)))

def pairsAt : Nat → (Nat × Nat) × List (Nat × Nat)
  | 0 => ((0, 0), [])
  | 1 => ((0, 1), [(0, 0), (0, 1)])
  | 2 => ((1, 1), [(0, 0), (0, 1), (1, 0), (1, 1)])
  | _ => ((2, 1), [(0, 0), (0, 1), (1, 0), (1, 1)])

theorem foreach_in_order_pairs :
    Runs (expand (.each 4 (fun i s => ((i, s.1.2), s.2)) pairs)) ⟨pairsAt 0, [⟨1, 7, 9⟩]⟩
      (⟨pairsAt 3, [⟨1, 7, 9⟩]⟩, .falls) := by
  have hround : ∀ i < 3, Runs pairs ((i, (pairsAt i).1.2), (pairsAt i).2) (pairsAt (i + 1), if i = 2 then .breaks else .falls)
    | 0, _ => ⟨5, rfl⟩
    | 1, _ => ⟨5, rfl⟩
    | 2, _ => ⟨5, rfl⟩
  have hfits : FitsInt (.each 4 (fun i s => ((i, s.1.2), s.2)) pairs) := ⟨by decide, ⟨trivial, trivial⟩, by decide, trivial⟩
  have hgo (i : Nat) (hi : i + 1 < 3) : (if i = 2 then Jump.breaks else .falls) ≠ .breaks := by
    rw [if_neg (by omega)]
    decide
  exact (foreach_in_order hfits (by decide : 3 ≤ 4) hround hgo (.inr ⟨2, rfl, rfl⟩) [⟨1, 7, 9⟩] _).2 rfl

/-- `sizeof (array) / sizeof *(array)` of 2^32 elements is converted to the `int` 0. -/
theorem not_foreach_in_order : ¬ ∀ (length : Nat) (item : Nat → Nat → Nat) (body : Stmt Nat) (k : Nat) (states : Nat → Nat)
    (jumps : Nat → Jump), k ≤ length → (∀ i < k, Runs body (item i (states i)) (states (i + 1), jumps i)) →
    (∀ i, i + 1 < k → jumps i ≠ .breaks) → (k = length ∨ ∃ i, k = i + 1 ∧ jumps i = .breaks) → ∀ frames r,
    Runs (expand (.each length item body)) ⟨states 0, frames⟩ r ↔ r = (⟨states k, frames⟩, .falls) := by
  intro h
  have hbody : ∀ i < 1, Runs (.act fun n => some (n + 1, .breaks)) i (i + 1, .breaks) := fun i _ => ⟨1, rfl⟩
  have hrun := (h (2 ^ 32) (fun _ n => n) (.act fun n => some (n + 1, .breaks)) 1 id (fun _ => .breaks) (by decide) hbody
    (by omega) (.inr ⟨0, rfl, rfl⟩) [] _).2 rfl
  have hnone : Runs (expand (.each (2 ^ 32) (fun _ n => n) (.act fun n => some (n + 1, .breaks)))) ⟨0, []⟩
      (⟨0, []⟩, .falls) := ⟨4, rfl⟩
  exact absurd (congrArg (fun r => r.1.vars) (hrun.unique hnone)) (by decide)

end SmpBoot
