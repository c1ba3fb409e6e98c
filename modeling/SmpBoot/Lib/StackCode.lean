import Mathlib.Algebra.GroupWithZero.Nat
import Mathlib.Logic.Function.Basic
/-!
# Straight-line code on a stack in memory

Registers of any type, words of any type, and a stack that grows down in a memory of words that lie `w` bytes apart.  The
same code runs a second time on a list, where pushing and popping are the list's own.  `exec_refines`: as long as the
list never runs short and the stack pointer does not fall through zero, the memory holds the list at every point and
everything beyond the list's bottom keeps its value.  What code leaves in the registers is then read off the list run.
Nothing here names a program.
-/
namespace StackCode

variable {R W : Type}

/-- Operations that see the registers and the stack pointer. -/
inductive Op (R W : Type) where
  | push (v : R → Nat → W)
  | pop (k : R → W → R)
  | move (f : R → Nat → R)
  | drop (n : Nat)

structure Cpu (R W : Type) where
  regs : R
  sp   : Nat
  mem  : Nat → W

def Op.step (w : Nat) (c : Cpu R W) : Op R W → Cpu R W
  | .push v => { c with sp := c.sp - w, mem := Function.update c.mem (c.sp - w) (v c.regs c.sp) }
  | .pop k  => { c with regs := k c.regs (c.mem c.sp), sp := c.sp + w }
  | .move f => { c with regs := f c.regs c.sp }
  | .drop n => { c with sp := c.sp + n * w }

def exec (w : Nat) : List (Op R W) → Cpu R W → Cpu R W
  | [], c      => c
  | o :: os, c => exec w os (o.step w c)

theorem exec_append (w : Nat) : ∀ (a b : List (Op R W)) (c : Cpu R W), exec w (a ++ b) c = exec w b (exec w a c)
  | [], _, _     => rfl
  | o :: a, b, c => exec_append w a b (o.step w c)

/-! ## The stack as a list -/

structure Listed (R W : Type) where
  regs  : R
  sp    : Nat
  stack : List W

def Op.stepList (w : Nat) (s : Listed R W) : Op R W → Option (Listed R W)
  | .push v => some ⟨s.regs, s.sp - w, v s.regs s.sp :: s.stack⟩
  | .pop k  =>
    match s.stack with
    | []     => none
    | x :: l => some ⟨k s.regs x, s.sp + w, l⟩
  | .move f => some { s with regs := f s.regs s.sp }
  | .drop n => if n ≤ s.stack.length then some ⟨s.regs, s.sp + n * w, s.stack.drop n⟩ else none

def execList (w : Nat) : List (Op R W) → Listed R W → Option (Listed R W)
  | [], s      => some s
  | o :: os, s => (o.stepList w s).bind (execList w os)

theorem execList_append (w : Nat) : ∀ (a b : List (Op R W)) (s : Listed R W),
    execList w (a ++ b) s = (execList w a s).bind (execList w b)
  | [], _, _     => rfl
  | o :: a, b, s => by
    simp only [List.cons_append, execList, Option.bind_assoc]
    exact congrArg _ (funext fun s' => execList_append w a b s')

/-- The words of a list, the first at the given address and each next one `w` bytes further up. -/
def Holds (w : Nat) (mem : Nat → W) : Nat → List W → Prop
  | _, []     => True
  | a, x :: l => mem a = x ∧ Holds w mem (a + w) l

theorem Holds.congr {w : Nat} (hw : 0 < w) {mem mem' : Nat → W} : ∀ {l : List W} {a : Nat},
    Holds w mem a l → (∀ b, a ≤ b → b < a + l.length * w → mem' b = mem b) → Holds w mem' a l
  | [], _, _, _ => trivial
  | x :: l, a, h, hm => by
    simp only [List.length_cons, Nat.succ_mul] at hm
    exact ⟨(hm a (Nat.le_refl a) (by omega)).trans h.1,
      Holds.congr hw (l := l) h.2 fun b hb hb' => hm b (by omega) (by omega)⟩

theorem Holds.drop {w : Nat} {mem : Nat → W} : ∀ {l : List W} {a : Nat} (n : Nat),
    Holds w mem a l → n ≤ l.length → Holds w mem (a + n * w) (l.drop n)
  | _, a, 0, h, _ => by simpa using h
  | [], _, n + 1, _, hn => by simp at hn
  | _ :: l, a, n + 1, h, hn => by
    have hd := Holds.drop (l := l) n h.2 (by simpa using hn)
    have ha : a + (n + 1) * w = a + w + n * w := by rw [Nat.succ_mul]; omega
    rw [ha]
    exact hd

/-- The word `i` places below the top. -/
theorem Holds.get {w : Nat} {mem : Nat → W} : ∀ {l : List W} {a : Nat} (i : Nat) (h : i < l.length),
    Holds w mem a l → mem (a + i * w) = l.get ⟨i, h⟩
  | _ :: _, a, 0, _, h => by simpa using h.1
  | _ :: l, a, i + 1, hi, h => by
    have hg := Holds.get (l := l) i (by simpa using hi) h.2
    have ha : a + (i + 1) * w = a + w + i * w := by rw [Nat.succ_mul]; omega
    rw [ha]
    exact hg

/-- The memory run stands where the list run stands. -/
structure Refines (w : Nat) (c : Cpu R W) (s : Listed R W) : Prop where
  regs  : c.regs = s.regs
  sp    : c.sp = s.sp
  stack : Holds w c.mem c.sp s.stack

/-- The address above the oldest word of the list. -/
def Listed.bottom (w : Nat) (s : Listed R W) : Nat := s.sp + s.stack.length * w

def Op.pushes : Op R W → Nat
  | .push _ => 1
  | _       => 0

def pushes (code : List (Op R W)) : Nat := (code.map Op.pushes).sum

theorem pushes_append (a b : List (Op R W)) : pushes (a ++ b) = pushes a + pushes b := by
  simp [pushes]

/-- **One operation**: the runs stay together, the bottom stays where it is, and nothing above it changes. -/
theorem step_refines {w : Nat} (hw : 0 < w) {c : Cpu R W} {s s' : Listed R W} (o : Op R W) (h : Refines w c s)
    (hs : o.stepList w s = some s') (hroom : o.pushes * w ≤ c.sp) :
    Refines w (o.step w c) s' ∧ s'.bottom w = s.bottom w ∧ c.sp ≤ (o.step w c).sp + o.pushes * w ∧
    ∀ a, s.bottom w ≤ a → (o.step w c).mem a = c.mem a := by
  obtain ⟨hregs, hsp, hstk⟩ := h
  obtain ⟨regs, sp, stack⟩ := s
  simp only at hregs hsp hstk
  subst hregs hsp
  cases o with
  | push v =>
    simp only [Op.stepList, Option.some.injEq] at hs
    subst hs
    simp only [Op.pushes, Nat.one_mul] at hroom
    have hoff : ∀ a, c.sp ≤ a → Function.update c.mem (c.sp - w) (v c.regs c.sp) a = c.mem a :=
      fun a ha => Function.update_of_ne (by omega) _ _
    refine ⟨⟨rfl, rfl, Function.update_self _ _ _, ?_⟩, ?_, ?_, fun a ha => hoff a ?_⟩
    · simp only [Op.step, Nat.sub_add_cancel hroom]
      exact hstk.congr hw fun b hb _ => hoff b hb
    · simp only [Listed.bottom, List.length_cons, Nat.succ_mul]
      omega
    · simp only [Op.step, Op.pushes]
      omega
    · simp only [Listed.bottom] at ha
      omega
  | pop k =>
    cases stack with
    | nil => simp [Op.stepList] at hs
    | cons x l =>
      simp only [Op.stepList, Option.some.injEq] at hs
      subst hs
      refine ⟨⟨by simp only [Op.step, hstk.1], rfl, hstk.2⟩, ?_, ?_, fun _ _ => rfl⟩
      · simp only [Listed.bottom, List.length_cons, Nat.succ_mul]
        omega
      · simp only [Op.step]
        omega
  | move f =>
    simp only [Op.stepList, Option.some.injEq] at hs
    subst hs
    exact ⟨⟨rfl, rfl, hstk⟩, rfl, by simp [Op.step], fun _ _ => rfl⟩
  | drop n =>
    simp only [Op.stepList] at hs
    split at hs
    · rename_i hn
      simp only [Option.some.injEq] at hs
      subst hs
      refine ⟨⟨rfl, rfl, hstk.drop n hn⟩, ?_, ?_, fun _ _ => rfl⟩
      · simp only [Listed.bottom, List.length_drop]
        have hmul : n * w + (stack.length - n) * w = stack.length * w := by
          rw [← Nat.add_mul, Nat.add_sub_cancel' hn]
        omega
      · simp only [Op.step]
        omega
    · cases hs

/-- **A whole run refines its run on the list.** -/
theorem exec_refines {w : Nat} (hw : 0 < w) : ∀ (code : List (Op R W)) {c : Cpu R W} {s s' : Listed R W},
    Refines w c s → execList w code s = some s' → pushes code * w ≤ c.sp →
    Refines w (exec w code c) s' ∧ s'.bottom w = s.bottom w ∧
    ∀ a, s.bottom w ≤ a → (exec w code c).mem a = c.mem a
  | [], _, _, _, h, hs, _ => by
    cases hs
    exact ⟨h, rfl, fun _ _ => rfl⟩
  | o :: os, c, s, s', h, hs, hroom => by
    simp only [execList, Option.bind_eq_some_iff] at hs
    obtain ⟨t, ht, hs'⟩ := hs
    simp only [pushes, List.map_cons, List.sum_cons, Nat.add_mul] at hroom
    obtain ⟨h1, hb1, hsp1, hm1⟩ := step_refines hw o h ht (by omega)
    obtain ⟨h2, hb2, hm2⟩ := exec_refines hw os h1 hs' (by simp only [pushes]; omega)
    refine ⟨h2, hb2.trans hb1, fun a ha => ?_⟩
    rw [exec, hm2 a (by omega), hm1 a ha]

/-- What a called function leaves: the stack pointer back where it was, and the words from `p` to `q` as they were. -/
def ReturnsTo (p q : Nat) (c c' : Cpu R W) : Prop := c'.sp = c.sp ∧ ∀ a, p ≤ a → a < q → c'.mem a = c.mem a

/-- A function that leaves the words of the list alone changes the registers only. -/
theorem Refines.call {w : Nat} (hw : 0 < w) {c c' : Cpu R W} {s : Listed R W} (h : Refines w c s)
    (hr : ReturnsTo c.sp (s.bottom w) c c') : Refines w c' { s with regs := c'.regs } := by
  refine ⟨rfl, hr.1.trans h.sp, ?_⟩
  rw [hr.1]
  refine h.stack.congr hw fun b hb hb' => hr.2 b hb ?_
  rw [Listed.bottom, ← h.sp]
  exact hb'

end StackCode
