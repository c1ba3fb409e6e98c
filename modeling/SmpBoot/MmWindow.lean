import SmpBoot.MmSpec
import Mathlib.Logic.Function.Basic
/-!
# MmWindow — `map_temporary` on several CPUs

The entry of the window page is shared, the translation of the page is cached by each CPU for itself.  `map_temporary`
executes `invlpg` on the calling CPU when it re-points the entry, and leaves the TLBs alone when the entry already shows the
frame.  An access uses the cached translation, or fills it from the entry.
-/
namespace SmpBoot

open Resume

variable {b : Build} {ι : Type} [DecidableEq ι]

abbrev Frame (b : Build) := Fin (2 ^ b.frameBits)

/-- The shared memory manager and what each TLB holds for the window page. -/
structure Cpus (b : Build) (ι : Type) where
  mm  : Mm b
  tlb : ι → Option Nat

/-- The frame the window's entry shows. -/
def Cpus.shown (s : Cpus b ι) : Nat := TablePtr.frame s.mm .tmpMap

def Cpus.mapTemporary (s : Cpus b ι) (c : ι) (f : Frame b) : Cpus b ι where
  mm  := ((SmpBoot.mapTemporary f.val).run s.mm).1
  tlb := if s.shown ≠ f.val then Function.update s.tlb c none else s.tlb

/-- One access of CPU `c` to the window page: the state, and the frame it reaches. -/
def Cpus.access (s : Cpus b ι) (c : ι) : Cpus b ι × Nat :=
  match s.tlb c with
  | some g => (s, g)
  | none   => ({ s with tlb := Function.update s.tlb c (some s.shown) }, s.shown)

def Cpus.accesses (s : Cpus b ι) (c : ι) : Nat → Cpus b ι × List Nat
  | 0     => (s, [])
  | n + 1 => (((s.access c).1.accesses c n).1, (s.access c).2 :: ((s.access c).1.accesses c n).2)

/-- A call followed by `more + 1` accesses under the lock, or a `cr3` reload. -/
inductive WindowEvent (b : Build) (ι : Type) where
  | call (c : ι) (f : Frame b) (more : Nat)
  | reload (c : ι)

def Cpus.next (s : Cpus b ι) : WindowEvent b ι → Cpus b ι × List Nat
  | .call c f more => (s.mapTemporary c f).accesses c (more + 1)
  | .reload c      => ({ s with tlb := Function.update s.tlb c none }, [])

/-- **Every access of every call reaches the frame that was asked for.** -/
def Cpus.reaches (s : Cpus b ι) : List (WindowEvent b ι) → Bool
  | []      => true
  | e :: es => (match e with
      | .call _ f _ => (s.next e).2.all (fun g => g == f.val)
      | .reload _   => true) && (s.next e).1.reaches es

/-- Some CPUs have used the window page before, and hold the translation the entry gives. -/
def Cpus.start (mm : Mm b) (used : ι → Bool) : Cpus b ι where
  mm  := mm
  tlb := fun c => if used c then some (TablePtr.frame mm .tmpMap) else none

/-! ## The order of the calls -/

/-- What the calls so far were: the frame of the last one, and for each CPU the frame of its own last one since its last
reload. -/
structure Calls (ι : Type) where
  last : Nat
  own  : ι → Option Nat

def Calls.next (h : Calls ι) : WindowEvent b ι → Calls ι
  | .call c f _ => ⟨f.val, Function.update h.own c (some f.val)⟩
  | .reload c   => ⟨h.last, Function.update h.own c none⟩

/-- Before the first call: as if the CPUs that used the page had asked for the frame it shows. -/
def Calls.start (mm : Mm b) (used : ι → Bool) : Calls ι where
  last := TablePtr.frame mm .tmpMap
  own  := fun c => if used c then some (TablePtr.frame mm .tmpMap) else none

/-- **No CPU asks for the frame the last call asked for while its own last call was for another frame.** -/
def Calls.inStep (h : Calls ι) : List (WindowEvent b ι) → Bool
  | []      => true
  | e :: es => (match e with
      | .call c f _ => h.last != f.val || h.own c == none || h.own c == some f.val
      | .reload _   => true) && (h.next e).inStep es

/-- The TLBs hold what the calls left. -/
def Cpus.Follows (s : Cpus b ι) (h : Calls ι) : Prop := s.shown = h.last ∧ s.tlb = h.own

theorem shown_mapTemporary (s : Cpus b ι) (c : ι) (f : Frame b) : (s.mapTemporary c f).shown = f.val := by
  simp only [Cpus.shown, Cpus.mapTemporary, run_mapTemporary]
  exact window_withWindow f.isLt

theorem accesses_cached {s : Cpus b ι} {c : ι} {g : Nat} (h : s.tlb c = some g) :
    ∀ n, s.accesses c n = (s, List.replicate n g)
  | 0     => rfl
  | n + 1 => by
    have ha : s.access c = (s, g) := by unfold Cpus.access; rw [h]
    simp only [Cpus.accesses, ha, accesses_cached h n, List.replicate_succ]

theorem accesses_empty {s : Cpus b ι} {c : ι} (h : s.tlb c = none) (n : Nat) : s.accesses c (n + 1) =
    ({ s with tlb := Function.update s.tlb c (some s.shown) }, List.replicate (n + 1) s.shown) := by
  have ha : s.access c = ({ s with tlb := Function.update s.tlb c (some s.shown) }, s.shown) := by
    unfold Cpus.access; rw [h]
  simp only [Cpus.accesses, ha]
  rw [accesses_cached (g := s.shown) (by simp) n, List.replicate_succ]

/-- **One call**: the accesses reach the frame if and only if the call is in step, and then the TLBs follow. -/
theorem Cpus.Follows.call {s : Cpus b ι} {h : Calls ι} (hs : s.Follows h) (c : ι) (f : Frame b) (more : Nat) :
    ((s.next (.call c f more)).2.all (fun g => g == f.val) =
      (h.last != f.val || h.own c == none || h.own c == some f.val)) ∧
    ((s.next (.call c f more)).2.all (fun g => g == f.val) = true →
      (s.next (.call c f more)).1.Follows (h.next (.call c f more))) := by
  obtain ⟨h1, h2⟩ := hs
  have hsh := shown_mapTemporary s c f
  by_cases hne : s.shown = f.val
  · -- the entry already shows the frame: no `invlpg`
    have htlb : (s.mapTemporary c f).tlb = s.tlb := by simp [Cpus.mapTemporary, hne]
    have hl : (h.last != f.val) = false := by rw [← h1, hne]; simp
    cases hc : s.tlb c with
    | none =>
      have ha := accesses_empty (s := s.mapTemporary c f) (c := c) (by rw [htlb, hc]) more
      rw [hsh, htlb] at ha
      have hown : h.own c = none := by rw [← h2, hc]
      refine ⟨by simp [Cpus.next, ha, hown], fun _ => ?_⟩
      simp only [Cpus.next, ha, Cpus.Follows, Calls.next, ← h2, and_true]
      exact hsh
    | some g =>
      have ha := accesses_cached (s := s.mapTemporary c f) (c := c) (g := g) (by rw [htlb, hc]) (more + 1)
      have hown : h.own c = some g := by rw [← h2, hc]
      refine ⟨?_, fun hall => ?_⟩
      · simp [Cpus.next, ha, hown, hl, List.all_replicate]
      · have hg : g = f.val := by simpa [Cpus.next, ha, List.all_replicate] using hall
        refine ⟨by simp [Cpus.next, ha, hsh, Calls.next], ?_⟩
        simp only [Cpus.next, ha, htlb, Calls.next, ← h2]
        rw [← hg, ← hc, Function.update_eq_self]
  · -- the entry is re-pointed and the CPU's translation dropped
    have htlb : (s.mapTemporary c f).tlb = Function.update s.tlb c none := by simp [Cpus.mapTemporary, hne]
    have ha := accesses_empty (s := s.mapTemporary c f) (c := c) (by simp [htlb]) more
    rw [hsh, htlb, Function.update_idem] at ha
    have hl : (h.last != f.val) = true := by rw [← h1]; simpa using hne
    refine ⟨by simp [Cpus.next, ha, hl], fun _ => ?_⟩
    simp only [Cpus.next, ha, Cpus.Follows, Calls.next, ← h2, and_true]
    exact hsh

/-- **Along a whole sequence of calls.** -/
theorem Cpus.Follows.reaches_eq : ∀ (es : List (WindowEvent b ι)) {s : Cpus b ι} {h : Calls ι}, s.Follows h →
    s.reaches es = h.inStep es
  | [], _, _, _ => rfl
  | .call c f more :: es, s, h, hs => by
    obtain ⟨h1, h2⟩ := hs.call c f more
    simp only [Cpus.reaches, Calls.inStep]
    rw [← h1]
    cases hall : (s.next (.call c f more)).2.all (fun g => g == f.val) with
    | false => rfl
    | true => exact congrArg (true && ·) (reaches_eq es (h2 hall))
  | .reload c :: es, s, h, hs => by
    simp only [Cpus.reaches, Calls.inStep, Bool.true_and]
    exact reaches_eq es ⟨hs.1, by simp only [Cpus.next, Calls.next, hs.2]⟩

/-- **The accesses reach the frames asked for exactly when no CPU asks for the frame just shown to another CPU after a
different one of its own.** -/
theorem reaches_iff_inStep (mm : Mm b) (used : ι → Bool) (es : List (WindowEvent b ι)) :
    (Cpus.start mm used).reaches es = true ↔ (Calls.start mm used).inStep es = true := by
  rw [Cpus.Follows.reaches_eq (h := Calls.start mm used) es ⟨rfl, rfl⟩]

/-- Three calls on two CPUs: the third asks for the frame the second showed, and the first CPU still holds the first. -/
theorem reaches_false :
    (Cpus.start (Mm.boot .b32 (fun _ _ => .zero) (fun _ => 0)) (fun _ => false)).reaches
      [.call (0 : Fin 2) 0x400 0, .call 1 0x401 0, .call 0 0x401 0] = false ∧
    (Cpus.start (Mm.boot .b64 (fun _ _ => .zero) (fun _ => 0)) (fun _ => false)).reaches
      [.call (0 : Fin 2) 0x400 0, .call 1 0x401 0, .call 0 0x401 0] = false := by decide

/-- **On one CPU every access reaches its frame.** -/
theorem Calls.inStep_oneCpu (c : ι) : ∀ (es : List (WindowEvent b ι)) (h : Calls ι),
    (h.own c = none ∨ h.own c = some h.last) →
    (∀ e ∈ es, match e with | .call d _ _ => d = c | .reload d => d = c) → h.inStep es = true
  | [], _, _, _ => rfl
  | .call d f more :: es, h, ho, he => by
    obtain rfl : d = c := he _ (List.mem_cons_self ..)
    have hrest := inStep_oneCpu d es (h.next (.call d f more)) (.inr (by simp [Calls.next]))
      (fun e hm => he e (List.mem_cons_of_mem _ hm))
    rcases ho with ho | ho <;> simp [Calls.inStep, hrest, ho]
    by_cases hf : h.last = f.val <;> simp [hf]
  | .reload d :: es, h, ho, he => by
    obtain rfl : d = c := he _ (List.mem_cons_self ..)
    have hrest := inStep_oneCpu d es (h.next (.reload d : WindowEvent b ι)) (.inl (by simp [Calls.next]))
      (fun e hm => he e (List.mem_cons_of_mem _ hm))
    simp [Calls.inStep, hrest]

end SmpBoot
