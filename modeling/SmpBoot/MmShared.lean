import SmpBoot.MmRuns
import SmpBoot.Lib.Serial
/-!
# MmShared — heap calls of several CPUs under `pt_mutex`

The functions of `mm.h` run between `mutex_lock(&pt_mutex)` and `mutex_unlock(&pt_mutex)`; `pt_mutex` starts locked and the
end of `mm_init` is its first release.  So the CPUs are an instance of `OneLock` whose first holder is the boot CPU, and
what `MmRuns` says of calls one after the other holds of the calls of all CPUs in the order of their releases.
-/
namespace SmpBoot

open Resume Interleave OneLock

variable {b : Build} {ι : Type} [DecidableEq ι]

inductive Call where
  | mmInit
  | heap (c : HeapCall)

inductive Ret where
  | count (n : Nat)
  | heap (r : HeapRet)

/-- The critical sections; `fuel` bounds the memory-map loops of `mm_init`. -/
def Call.body (fuel : Nat) (mbi : MultibootInfo) : Call → MmProg b Ret
  | .mmInit => do let n ← SmpBoot.mmInit fuel mbi; pure (.count n)
  | .heap c => do let r ← c.body; pure (.heap r)

/-- What the machine starts with: memory, the memory map, and the calls each CPU is going to make. -/
structure Setup (b : Build) (ι : Type) where
  mem     : Nat → Nat → Entry
  freemap : Nat → BitVec b.longBits
  fuel    : Nat
  mbi     : MultibootInfo
  bsp     : ι
  calls   : ι → List HeapCall

abbrev Setup.Cpus (_ : Setup b ι) := Sys ι (Mm b) Stop Call Ret

def Setup.step (c : Setup b ι) : c.Cpus → ι → Option c.Cpus := OneLock.step (Call.body c.fuel c.mbi)

/-- The boot CPU is about to run `mm_init`; `pt_mutex` is locked. -/
def Setup.start (c : Setup b ι) : c.Cpus :=
  OneLock.start (Call.body c.fuel c.mbi) (Mm.boot b c.mem c.freemap) c.bsp .mmInit (fun i => (c.calls i).map .heap)

def heapCalls (h : List (ι × Call × Ret)) : List (HeapCall × HeapRet) :=
  h.filterMap (fun x => match x.2 with
    | (.heap c, .heap r) => some (c, r)
    | _                  => none)

theorem Call.run_heap {fuel : Nat} {mbi : MultibootInfo} {c : HeapCall} {s s' : Mm b} {a : Ret}
    (h : (Call.body fuel mbi (.heap c)).run s = (s', .ok a)) : ∃ r, c.body.run s = (s', .ok r) ∧ a = .heap r := by
  obtain ⟨s₁, r, h1, h2⟩ := Prog.run_bind_inv h
  cases h2
  exact ⟨r, h1, rfl⟩

omit [DecidableEq ι] in
/-- **Heap calls one at a time** are a run of `MmRuns`. -/
theorem ran_of_serial {fuel : Nat} {mbi : MultibootInfo} {s₀ m : Mm b} {t : List (ι × Call × Ret)}
    (hs : Serial (Call.body fuel mbi) s₀ t m) (h₀ : Heap s₀) (ht : ∀ y ∈ t, ∃ c, y.2.1 = .heap c) :
    Ran s₀ m (heapCalls t) := by
  induction hs with
  | nil => exact h₀.ran_nil
  | @snoc t m m' i c a hs hr ih =>
    have hm := ih (fun y hy => ht y (List.mem_append_left _ hy))
    obtain ⟨hc, rfl⟩ := ht (i, c, a) (by simp)
    obtain ⟨r, hrun, rfl⟩ := Call.run_heap hr
    have happ : heapCalls (t ++ [(i, Call.heap hc, Ret.heap r)]) = heapCalls t ++ [(hc, r)] := by
      simp [heapCalls]
    rw [happ]
    exact hm.trans (HeapCall.ran hm.grew.heap hrun)

section History
variable {c : Setup b ι} {s : c.Cpus} {h : List (ι × Call × Ret)} {m : Mm b}

/-- The history behind a state of the machine. -/
abbrev Setup.Behind (c : Setup b ι) (s : c.Cpus) (h : List (ι × Call × Ret)) (m : Mm b) : Prop :=
  OneLock.Behind (Call.body c.fuel c.mbi) (Mm.boot b c.mem c.freemap) c.bsp .mmInit (fun i => (c.calls i).map .heap) s h m

/-- After `mm_init` a CPU's calls are its heap calls, in its order. -/
theorem tail_order (hb : c.Behind s h m) {x : ι × Call × Ret} {t : List (ι × Call × Ret)} (hx : h = x :: t) (i : ι) :
    (of i t).map Prod.fst ++ (s.thr i).pc.call ++ (s.thr i).todo = (c.calls i).map .heap := by
  obtain ⟨a, rfl⟩ := hb.head x t hx
  have hord := hb.order i
  rw [← hb.results i, hx] at hord
  by_cases hi : i = c.bsp
  · have hof : of i ((c.bsp, Call.mmInit, a) :: t) = (Call.mmInit, a) :: of i t := by simp [of, hi]
    rw [if_pos hi, hof] at hord
    simpa using hord
  · have hof : of i ((c.bsp, Call.mmInit, a) :: t) = of i t := by simp [of, Ne.symm hi]
    rwa [if_neg hi, hof, List.nil_append] at hord

theorem tail_heap (hb : c.Behind s h m) {x : ι × Call × Ret} {t : List (ι × Call × Ret)} (hx : h = x :: t) :
    ∀ y ∈ t, ∃ hc, y.2.1 = .heap hc := by
  intro y hy
  have hmem : y.2.1 ∈ (of y.1 t).map Prod.fst :=
    List.mem_map_of_mem (List.mem_map_of_mem (List.mem_filter.2 ⟨hy, by simp⟩))
  have hin : y.2.1 ∈ (c.calls y.1).map Call.heap := by
    rw [← tail_order hb hx y.1]
    exact List.mem_append_left _ (List.mem_append_left _ hmem)
  obtain ⟨hc, -, he⟩ := List.mem_map.1 hin
  exact ⟨hc, he.symm⟩

end History

/-- What holds of a state of the machine, with the one-at-a-time order `h` of the completed calls and the state `m` they
leave. -/
structure SharedSafe (c : Setup b ι) (s : c.Cpus) (h : List (ι × Call × Ret)) (m : Mm b) : Prop where
  /-- The order respects each CPU's own, every call returned what it returns in it, and the state is `m` plus the accesses
  of the CPU that holds the lock. -/
  behind : c.Behind s h m
  quiet  : (∀ i cl p, (s.thr i).pc ≠ .crit cl p) → s.mem = m
  /-- No call enters before `mm_init` has finished. -/
  gate   : ∀ i hc p, (s.thr i).pc = .crit (.heap hc) p → ∃ a, (Call.mmInit, a) ∈ (s.thr c.bsp).done
  first  : ∀ x t, h = x :: t → ∃ a, x = (c.bsp, .mmInit, a)
  /-- The ranges of all CPUs are contiguous, disjoint and fresh, and no frame is used twice. -/
  safe   : ∀ x t, h = x :: t → ∃ s₀ n, (mmInit c.fuel c.mbi).run (Mm.boot b c.mem c.freemap) = (s₀, .ok n) ∧
    HeapSafe s₀ m (heapCalls t)

/-- **Every interleaving of the accesses of all CPUs is a one-at-a-time order of their calls after `mm_init`**, and the
heap is safe in it. -/
theorem shared_safe (c : Setup b ι) {s : c.Cpus} (hr : Reach c.step c.start s) : ∃ h m, SharedSafe c s h m := by
  obtain ⟨h, m, hb⟩ := serializable hr
  refine ⟨h, m, hb, fun hno => ?_, fun i hc p hp => ?_, fun x t hx => hb.head x t hx, fun x t hx => ?_⟩
  · cases hb.holder with
    | free _ hm _ => exact hm
    | held i cl p _ hp _ _ => exact absurd hp (hno i cl p)
  · cases h with
    | nil =>
      by_cases hi : i = c.bsp
      · obtain ⟨q, hq⟩ := hb.first rfl
        subst hi
        rw [hp] at hq
        cases hq
      · exact absurd hp (hb.alone rfl i hi _ p)
    | cons x t =>
      obtain ⟨a, rfl⟩ := hb.head x t rfl
      refine ⟨a, ?_⟩
      rw [← hb.results c.bsp]
      simp [of]
  · obtain ⟨a, rfl⟩ := hb.head x t hx
    obtain ⟨s₀, h1, h2⟩ := hb.serial.uncons _ t hx
    obtain ⟨s₁, n, h3, h4⟩ := Prog.run_bind_inv h1
    cases h4
    have h₀ : Heap s₀ := (mmInit_ends (E := fun _ => True) c.mem c.freemap c.fuel c.mbi (fun _ => trivial)).ok h3
    exact ⟨s₀, n, h3, (ran_of_serial h2 h₀ (tail_heap hb hx)).safe h₀⟩

/-- No memory map, and `mem_upper` ends `n` frames behind the place where the data cursor begins. -/
def upperFrames (n : Nat) : MultibootInfo := ⟨1, BitVec.ofNat 32 (4 * (0x800 + n)), 0, 0, fun _ => ⟨0, 0, 0, 0⟩⟩

/-- Two CPUs; the second calls `heap_alloc` while the first is in `mm_init`. -/
def twoCpus : Setup .b32 (Fin 2) where
  mem     := fun _ _ => .zero
  freemap := fun _ => 0
  fuel    := 0
  mbi     := upperFrames 2
  bsp     := 0
  calls   := fun i => if i = 1 then [.heapAlloc 1 0] else []

end SmpBoot
