import Mathlib.Order.Basic
/-!
# C statements with loops

Statements over an arbitrary state: `act` is any piece of code without a loop of interest, `loop test step body` is
`for (; test; step) body`, and `each length item body` runs the body once for each element of an array, which C has no
statement for.  A statement ends by running to its end or by a jump; a jump leaves or continues the innermost loop around
it.  `exec` runs a statement with so much fuel, `Runs` says how it ends with enough of it, and the rules for `Runs` are the
meaning of C.  Nothing here names a program.
-/
namespace CLoop

/-- How a statement ends: at its end, by `break` or by `continue`. -/
inductive Jump where
  | falls
  | breaks
  | continues
  deriving DecidableEq

inductive Stmt (σ : Type) where
  /-- `none` where the behaviour is undefined -/
  | act (f : σ → Option (σ × Jump))
  | seq (p q : Stmt σ)
  | ite (c : σ → Bool) (p q : Stmt σ)
  | loop (test : σ → Bool) (step : σ → Option σ) (body : Stmt σ)
  /-- `item i` makes the element at index `i` the current one -/
  | each (length : Nat) (item : Nat → σ → σ) (body : Stmt σ)

variable {σ : Type}

/-- An expression statement. -/
def Stmt.expr (f : σ → Option σ) : Stmt σ := .act fun s => (f s).map fun t => (t, .falls)

/-- One element after the other, up to and including the one that breaks. -/
def runEach (run : Nat → σ → Option (σ × Jump)) : List Nat → σ → Option σ
  | [],      s => some s
  | i :: is, s => (run i s).bind fun r => if r.2 = .breaks then some r.1 else runEach run is r.1

def exec : Nat → Stmt σ → σ → Option (σ × Jump)
  | 0,     _,                    _ => none
  | _ + 1, .act f,               s => f s
  | n + 1, .seq p q,             s => (exec n p s).bind fun r => if r.2 = .falls then exec n q r.1 else some r
  | n + 1, .ite c p q,           s => if c s then exec n p s else exec n q s
  | n + 1, .loop test step body, s =>
    if test s then
      (exec n body s).bind fun r =>
        -- `continue` goes on with the step
        if r.2 = .breaks then some (r.1, .falls) else (step r.1).bind (exec n (.loop test step body))
    else some (s, .falls)
  | n + 1, .each length item body, s =>
    (runEach (fun i s => exec n body (item i s)) (List.range' 0 length) s).map fun t => (t, .falls)

theorem runEach_mono {run run' : Nat → σ → Option (σ × Jump)} (h : ∀ i s r, run i s = some r → run' i s = some r) :
    ∀ (is : List Nat) (s t : σ), runEach run is s = some t → runEach run' is s = some t
  | [],      _, _, ht => ht
  | i :: is, s, t, ht => by
    rw [runEach, Option.bind_eq_some_iff] at ht
    obtain ⟨r, hr, hrest⟩ := ht
    rw [runEach, h i s r hr, Option.bind_some]
    split
    · rename_i hj
      rwa [if_pos hj] at hrest
    · rename_i hj
      rw [if_neg hj] at hrest
      exact runEach_mono h is r.1 t hrest

section
variable {n : Nat} {p q body : Stmt σ} {test c : σ → Bool} {step : σ → Option σ} {s : σ} {r : σ × Jump}

/-- **How a sequence ends**: where its first part jumps, or where the second ends. -/
theorem exec_seq_iff : exec (n + 1) (.seq p q) s = some r ↔
    ∃ t j, exec n p s = some (t, j) ∧ (j ≠ .falls ∧ r = (t, j) ∨ j = .falls ∧ exec n q t = some r) := by
  rw [exec, Option.bind_eq_some_iff]
  constructor
  · rintro ⟨⟨t, j⟩, hp, hq⟩
    refine ⟨t, j, hp, ?_⟩
    by_cases hj : j = .falls
    · rw [if_pos hj] at hq
      exact .inr ⟨hj, hq⟩
    · rw [if_neg hj] at hq
      exact .inl ⟨hj, (Option.some.inj hq).symm⟩
  · rintro ⟨t, j, hp, ⟨hj, rfl⟩ | ⟨hj, hq⟩⟩
    · exact ⟨(t, j), hp, if_neg hj⟩
    · exact ⟨(t, j), hp, (if_pos hj).trans hq⟩

theorem exec_ite_iff : exec (n + 1) (.ite c p q) s = some r ↔
    c s = true ∧ exec n p s = some r ∨ c s = false ∧ exec n q s = some r := by
  rw [exec]
  cases c s <;> simp

/-- **How a loop ends**: at its test, by a `break`, or after a step and further rounds. -/
theorem exec_loop_iff : exec (n + 1) (.loop test step body) s = some r ↔
    test s = false ∧ r = (s, .falls) ∨
    test s = true ∧ ∃ t j, exec n body s = some (t, j) ∧ (j = .breaks ∧ r = (t, .falls) ∨
      j ≠ .breaks ∧ ∃ u, step t = some u ∧ exec n (.loop test step body) u = some r) := by
  rw [exec]
  cases ht : test s with
  | false => simp [eq_comm]
  | true =>
    rw [if_pos rfl, Option.bind_eq_some_iff]
    constructor
    · rintro ⟨⟨t, j⟩, hbody, hrest⟩
      refine .inr ⟨rfl, t, j, hbody, ?_⟩
      by_cases hj : j = .breaks
      · rw [if_pos hj] at hrest
        exact .inl ⟨hj, (Option.some.inj hrest).symm⟩
      · rw [if_neg hj, Option.bind_eq_some_iff] at hrest
        exact .inr ⟨hj, hrest⟩
    · rintro (⟨h, -⟩ | ⟨-, t, j, hbody, hrest⟩)
      · cases h
      · refine ⟨(t, j), hbody, ?_⟩
        rcases hrest with ⟨hj, rfl⟩ | ⟨hj, u, hstep, hloop⟩
        · exact if_pos hj
        · rw [if_neg hj, hstep, Option.bind_some, hloop]

end

/-- More fuel changes nothing. -/
theorem exec_succ : ∀ (n : Nat) (p : Stmt σ) (s : σ) (r : σ × Jump), exec n p s = some r → exec (n + 1) p s = some r
  | 0,     _,                    _, _, h => nomatch h
  | _ + 1, .act _,               _, _, h => h
  | n + 1, .seq p q,             s, r, h => by
    obtain ⟨t, j, hp, hq⟩ := exec_seq_iff.1 h
    exact exec_seq_iff.2 ⟨t, j, exec_succ n p s _ hp, hq.imp_right fun hq => ⟨hq.1, exec_succ n q t r hq.2⟩⟩
  | n + 1, .ite c p q,           s, r, h => by
    apply exec_ite_iff.2
    rcases exec_ite_iff.1 h with ⟨hc, hp⟩ | ⟨hc, hq⟩
    · exact .inl ⟨hc, exec_succ n p s r hp⟩
    · exact .inr ⟨hc, exec_succ n q s r hq⟩
  | n + 1, .loop test step body, s, r, h => by
    apply exec_loop_iff.2
    rcases exec_loop_iff.1 h with hdone | ⟨ht, t, j, hbody, hrest⟩
    · exact .inl hdone
    · refine .inr ⟨ht, t, j, exec_succ n body s _ hbody, ?_⟩
      rcases hrest with hbreak | ⟨hj, u, hstep, hloop⟩
      · exact .inl hbreak
      · exact .inr ⟨hj, u, hstep, exec_succ n _ u r hloop⟩
  | n + 1, .each length item body, s, r, h => by
    rw [exec, Option.map_eq_some_iff] at h
    obtain ⟨t, heach, rfl⟩ := h
    rw [exec, runEach_mono (fun i s => exec_succ n body (item i s)) _ s t heach, Option.map_some]

theorem exec_mono {n m : Nat} {p : Stmt σ} {s : σ} {r : σ × Jump} (h : exec n p s = some r) (hm : n ≤ m) :
    exec m p s = some r := by
  induction hm with
  | refl => exact h
  | step _ ih => exact exec_succ _ p s r ih

/-- The statement ends so. -/
def Runs (p : Stmt σ) (s : σ) (r : σ × Jump) : Prop := ∃ n, exec n p s = some r

namespace Runs

variable {p q body : Stmt σ} {test c : σ → Bool} {step : σ → Option σ} {s t u : σ} {j : Jump} {r r' : σ × Jump}

/-- **A statement ends in one way.** -/
theorem unique (h : Runs p s r) (h' : Runs p s r') : r = r' := by
  obtain ⟨n, hn⟩ := h
  obtain ⟨m, hm⟩ := h'
  have hr := exec_mono hn (Nat.le_max_left n m)
  have hr' := exec_mono hm (Nat.le_max_right n m)
  exact Option.some.inj (hr.symm.trans hr')

theorem iff_eq (h : Runs p s r) : Runs p s r' ↔ r' = r := by
  constructor
  · intro h'
    exact h'.unique h
  · rintro rfl
    exact h

theorem act {f : σ → Option (σ × Jump)} (h : f s = some r) : Runs (.act f) s r := ⟨1, h⟩

theorem expr {f : σ → Option σ} (h : f s = some t) : Runs (.expr f) s (t, .falls) := act (by rw [h]; rfl)

theorem seq (hp : Runs p s (t, .falls)) (hq : Runs q t r) : Runs (.seq p q) s r := by
  obtain ⟨n, hn⟩ := hp
  obtain ⟨m, hm⟩ := hq
  refine ⟨max n m + 1, exec_seq_iff.2 ⟨t, .falls, exec_mono hn (Nat.le_max_left n m), .inr ⟨rfl, ?_⟩⟩⟩
  exact exec_mono hm (Nat.le_max_right n m)

/-- What stands behind a jump is not run. -/
theorem seq_jump (hp : Runs p s (t, j)) (hj : j ≠ .falls) : Runs (.seq p q) s (t, j) := by
  obtain ⟨n, hn⟩ := hp
  exact ⟨n + 1, exec_seq_iff.2 ⟨t, j, hn, .inl ⟨hj, rfl⟩⟩⟩

theorem ite_pos (hc : c s = true) (hp : Runs p s r) : Runs (.ite c p q) s r := by
  obtain ⟨n, hn⟩ := hp
  exact ⟨n + 1, exec_ite_iff.2 (.inl ⟨hc, hn⟩)⟩

theorem ite_neg (hc : c s = false) (hq : Runs q s r) : Runs (.ite c p q) s r := by
  obtain ⟨n, hn⟩ := hq
  exact ⟨n + 1, exec_ite_iff.2 (.inr ⟨hc, hn⟩)⟩

theorem loop_done (ht : test s = false) : Runs (.loop test step body) s (s, .falls) := ⟨1, exec_loop_iff.2 (.inl ⟨ht, rfl⟩)⟩

/-- **`break` leaves this loop only**, without the step. -/
theorem loop_break (ht : test s = true) (hbody : Runs body s (t, .breaks)) : Runs (.loop test step body) s (t, .falls) := by
  obtain ⟨n, hn⟩ := hbody
  exact ⟨n + 1, exec_loop_iff.2 (.inr ⟨ht, t, .breaks, hn, .inl ⟨rfl, rfl⟩⟩)⟩

/-- **One round**, to the end of the body or to a `continue`. -/
theorem loop_next (ht : test s = true) (hbody : Runs body s (t, j)) (hj : j ≠ .breaks) (hstep : step t = some u)
    (hloop : Runs (.loop test step body) u r) : Runs (.loop test step body) s r := by
  obtain ⟨n, hn⟩ := hbody
  obtain ⟨m, hm⟩ := hloop
  have hround := exec_mono hn (Nat.le_max_left n m)
  have hrest := exec_mono hm (Nat.le_max_right n m)
  exact ⟨max n m + 1, exec_loop_iff.2 (.inr ⟨ht, t, j, hround, .inr ⟨hj, u, hstep, hrest⟩⟩)⟩

/-! ### The elements of an array -/

variable {length : Nat} {item : Nat → σ → σ} {k : Nat} {states : Nat → σ} {jumps : Nat → Jump}

/-- Finitely many runs of the body have a fuel in common. -/
theorem exists_fuel {start : Nat → σ} {result : Nat → σ × Jump} : ∀ {k : Nat}, (∀ i < k, Runs body (start i) (result i)) →
    ∃ n, ∀ i < k, exec n body (start i) = some (result i)
  | 0,     _ => ⟨0, fun _ hi => absurd hi (Nat.not_lt_zero _)⟩
  | k + 1, h => by
    obtain ⟨n, hn⟩ := exists_fuel fun i hi => h i (Nat.lt_succ_of_lt hi)
    obtain ⟨m, hm⟩ := h k (Nat.lt_succ_self k)
    refine ⟨max n m, fun i hi => ?_⟩
    rcases Nat.lt_or_eq_of_le (Nat.le_of_lt_succ hi) with hlt | rfl
    · exact exec_mono (hn i hlt) (Nat.le_max_left n m)
    · exact exec_mono hm (Nat.le_max_right n m)

theorem runEach_rounds {run : Nat → σ → Option (σ × Jump)} (hk : k ≤ length)
    (hround : ∀ i < k, run i (states i) = some (states (i + 1), jumps i)) (hgo : ∀ i, i + 1 < k → jumps i ≠ .breaks)
    (hend : k = length ∨ ∃ i, k = i + 1 ∧ jumps i = .breaks) :
    ∀ m i, i + m = length → i < k ∨ i = k ∧ k = length → runEach run (List.range' i m) (states i) = some (states k)
  | 0, i, hm, hi => by
    have hik : i = k := by omega
    rw [hik]
    rfl
  | m + 1, i, hm, hi => by
    have hlt : i < k := by omega
    rw [List.range'_succ, runEach, hround i hlt, Option.bind_some]
    by_cases hj : jumps i = .breaks
    · have hik : i + 1 = k := Nat.le_antisymm hlt (Nat.le_of_not_lt fun h => hgo i h hj)
      rw [if_pos hj, hik]
    · rw [if_neg hj]
      apply runEach_rounds hk hround hgo hend m (i + 1) (by omega)
      rcases Nat.lt_or_eq_of_le (Nat.succ_le_of_lt hlt) with h | h
      · exact .inl h
      · rcases hend with hend | ⟨l, hl, hbreak⟩
        · exact .inr ⟨h, hend⟩
        · obtain rfl : i = l := Nat.succ.inj (h.trans hl)
          exact absurd hbreak hj

/-- **The elements of an array, one after the other**: those below `k`, where `k` is the length of the array or the index
behind the first element whose body breaks. -/
theorem each (hk : k ≤ length) (hround : ∀ i < k, Runs body (item i (states i)) (states (i + 1), jumps i))
    (hgo : ∀ i, i + 1 < k → jumps i ≠ .breaks) (hend : k = length ∨ ∃ i, k = i + 1 ∧ jumps i = .breaks) :
    Runs (.each length item body) (states 0) (states k, .falls) := by
  obtain ⟨n, hn⟩ := exists_fuel hround
  refine ⟨n + 1, ?_⟩
  have hstart : 0 < k ∨ 0 = k ∧ k = length := by
    rcases hend with rfl | ⟨i, rfl, -⟩
    · exact (Nat.eq_zero_or_pos k).symm.imp_right fun h => ⟨h.symm, rfl⟩
    · exact .inl (Nat.succ_pos i)
  have hrun : ∀ i < k, (fun i s => exec n body (item i s)) i (states i) = some (states (i + 1), jumps i) := hn
  rw [exec, runEach_rounds hk hrun hgo hend length 0 (Nat.zero_add _) hstart, Option.map_some]

end Runs
end CLoop
