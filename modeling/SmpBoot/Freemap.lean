import SmpBoot.MmSpec
import Mathlib.Data.List.Induction
/-!
# Freemap — the bitmap of free frames, and the search in it

`Words` is the array `freemap`.  The macros of `lib.h` shift an `int`, so two frames of one word whose bit numbers differ by
32 share one bit (`Shares`): there are such frames in the 64-bit build only.  `test_after` says what a sequence of `BIT_SET`
and `BIT_CLEAR` leaves, and `represents_iff` when that is what the last operation on each frame asked for.  The second half
is `get_free_frame`: whatever the freemap holds, each call returns the lowest frame from the start of its range on that
tests set (`frames_lowest`), although it looks only from its cursor on.
-/
namespace SmpBoot

open Resume Resume.Prog

variable {b : Build}

/-! ## The array -/

/-- `freemap`. -/
abbrev Words (b : Build) := Nat → BitVec b.longBits

namespace Words

def put (m : Words b) (i : Nat) (w : BitVec b.longBits) : Words b := fun j => if j = i then w else m j

/-- `BIT_SET(freemap[frame_to_freemap_index(f)], frame_to_freemap_bit(f))`, and so on. -/
def setBit (m : Words b) (f : Nat) : Words b := m.put (freemapIndex b f) (bitSet (m (freemapIndex b f)) (freemapBit b f))
def clearBit (m : Words b) (f : Nat) : Words b :=
  m.put (freemapIndex b f) (bitClear (m (freemapIndex b f)) (freemapBit b f))
def test (m : Words b) (f : Nat) : Bool := isBitSet (m (freemapIndex b f)) (freemapBit b f)

end Words

/-- The two frames are one bit to the macros. -/
def Shares (b : Build) (f g : Nat) : Prop :=
  freemapIndex b f = freemapIndex b g ∧ freemapBit b f % 32 = freemapBit b g % 32

instance (b : Build) (f g : Nat) : Decidable (Shares b f g) := inferInstanceAs (Decidable (_ ∧ _))

theorem Shares.refl (b : Build) (f : Nat) : Shares b f f := ⟨rfl, rfl⟩

theorem Shares.symm {f g : Nat} (h : Shares b f g) : Shares b g f := ⟨h.1.symm, h.2.symm⟩

theorem Shares.trans {f g k : Nat} (h : Shares b f g) (h' : Shares b g k) : Shares b f k :=
  ⟨h.1.trans h'.1, h.2.trans h'.2⟩

/-- In the 32-bit build no two frames share a bit. -/
theorem shares32 {f g : Nat} : Shares .b32 f g ↔ f = g := by
  constructor
  · rintro ⟨h1, h2⟩
    simp only [freemapIndex, freemapBit, Build.longBits] at h1 h2
    omega
  · rintro rfl
    exact Shares.refl _ _

/-- In the 64-bit build two do if they are 32 apart in one word. -/
theorem shares64 {f g : Nat} : Shares .b64 f g ↔ f / 64 = g / 64 ∧ f % 32 = g % 32 := by
  simp only [Shares, freemapIndex, freemapBit, Build.longBits]
  omega

theorem Words.test_setBit (m : Words b) (f g : Nat) : (m.setBit f).test g = (decide (Shares b f g) || m.test g) := by
  unfold Words.test Words.setBit Words.put Shares
  by_cases h : freemapIndex b g = freemapIndex b f
  · simp only [h, if_true, isBitSet_bitSet (longBits_ge b), true_and]
  · have h' : ¬ freemapIndex b f = freemapIndex b g := fun hh => h hh.symm
    simp [h, h']

theorem Words.test_clearBit (m : Words b) (f g : Nat) : (m.clearBit f).test g = (!decide (Shares b f g) && m.test g) := by
  unfold Words.test Words.clearBit Words.put Shares
  by_cases h : freemapIndex b g = freemapIndex b f
  · simp only [h, if_true, isBitSet_bitClear, true_and]
  · have h' : ¬ freemapIndex b f = freemapIndex b g := fun hh => h hh.symm
    simp [h, h']

/-! ## Sequences of operations -/

/-- A frame `freemap` has a bit for. -/
abbrev FrameNo := Fin maxFrames

inductive BitOp where
  | set (f : FrameNo)
  | clear (f : FrameNo)

namespace BitOp

def frame : BitOp → FrameNo
  | .set f   => f
  | .clear f => f

def isSet : BitOp → Bool
  | .set _   => true
  | .clear _ => false

def apply (m : Words b) : BitOp → Words b
  | .set f   => m.setBit f
  | .clear f => m.clearBit f

end BitOp

/-- The array after the operations, from the all-zero one. -/
def after (b : Build) (ops : List BitOp) : Words b := ops.foldl BitOp.apply (fun _ => 0)

/-- The last operation on a frame in `P` was `BIT_SET`. -/
def lastSet (P : FrameNo → Bool) (ops : List BitOp) : Bool :=
  ops.foldl (fun r op => if P op.frame then op.isSet else r) false

theorem lastSet_snoc (P : FrameNo → Bool) (ops : List BitOp) (op : BitOp) :
    lastSet P (ops ++ [op]) = if P op.frame then op.isSet else lastSet P ops := by
  simp [lastSet]

theorem after_snoc (ops : List BitOp) (op : BitOp) : after b (ops ++ [op]) = op.apply (after b ops) := by
  simp [after]

/-- **One operation**: it decides the test of every frame that shares its bit, and of no other. -/
theorem BitOp.test_apply (m : Words b) (op : BitOp) (f : Nat) :
    (op.apply m).test f = if Shares b op.frame f then op.isSet else m.test f := by
  cases op with
  | set g =>
    simp only [BitOp.apply, BitOp.frame, BitOp.isSet, Words.test_setBit]
    by_cases h : Shares b g f <;> simp [h]
  | clear g =>
    simp only [BitOp.apply, BitOp.frame, BitOp.isSet, Words.test_clearBit]
    by_cases h : Shares b g f <;> simp [h]

theorem test_zero (f : Nat) : Words.test (b := b) (fun _ => 0) f = false := by
  simp [Words.test, isBitSet]

/-- **Any sequence**: a frame tests as the last operation on any frame that shares its bit. -/
theorem test_after (ops : List BitOp) (f : Nat) :
    (after b ops).test f = lastSet (fun g => Shares b g f) ops := by
  induction ops using List.reverseRecOn with
  | nil => exact test_zero f
  | append_singleton ops op ih =>
    rw [after_snoc, BitOp.test_apply, lastSet_snoc, ih]
    simp

/-- The array is the set of the frames whose last operation was `BIT_SET`. -/
def Represents (b : Build) (ops : List BitOp) : Prop :=
  ∀ f : FrameNo, (after b ops).test f = true ↔ lastSet (· = f) ops = true

/-- No operation changes the test of another frame. -/
def Separate (b : Build) (ops : List BitOp) : Prop :=
  ∀ pre op post, ops = pre ++ op :: post → ∀ g : FrameNo, g ≠ op.frame →
    (after b (pre ++ [op])).test g = (after b pre).test g

/-- The last operation on the frames of one bit is the last one on one of them. -/
theorem lastSet_shared (ops : List BitOp) (f : FrameNo) :
    ∃ g : FrameNo, Shares b g f ∧ lastSet (fun g => Shares b g f) ops = lastSet (· = g) ops := by
  induction ops using List.reverseRecOn with
  | nil => exact ⟨f, Shares.refl _ _, rfl⟩
  | append_singleton ops op ih =>
    obtain ⟨g, hg, h⟩ := ih
    by_cases hs : Shares b op.frame f
    · exact ⟨op.frame, hs, by simp [lastSet_snoc, hs]⟩
    · have hne : op.frame ≠ g := by rintro rfl; exact hs hg
      exact ⟨g, hg, by simp [lastSet_snoc, hs, hne, h]⟩

theorem represents_of (ops : List BitOp)
    (h : ∀ f g : FrameNo, Shares b f g → lastSet (· = f) ops = lastSet (· = g) ops) : Represents b ops := by
  intro f
  obtain ⟨g, hg, hl⟩ := lastSet_shared (b := b) ops f
  rw [test_after, hl, h g f hg]

theorem Represents.agree {ops : List BitOp} (h : Represents b ops) {f g : FrameNo} (hs : Shares b f g) :
    lastSet (· = f) ops = lastSet (· = g) ops := by
  have hfg : (after b ops).test f = (after b ops).test g := by
    have hP : (fun k : FrameNo => decide (Shares b k f)) = fun k : FrameNo => decide (Shares b k g) := by
      funext k
      exact decide_eq_decide.2 ⟨fun hk => hk.trans hs, fun hk => hk.trans hs.symm⟩
    rw [test_after, test_after, hP]
  have hf := h f
  have hg := h g
  rw [hfg] at hf
  exact Bool.eq_iff_iff.2 (hf.symm.trans hg)

/-- Another frame with the bit of `f` in the 64-bit build. -/
theorem exists_partner (f : FrameNo) : ∃ g : FrameNo, g ≠ f ∧ Shares .b64 f g := by
  have hmax : maxFrames = 0x80000 := rfl
  have hf := f.isLt
  by_cases h : f.val % 64 < 32
  · refine ⟨⟨f.val + 32, by omega⟩, ?_, shares64.2 ⟨by simp; omega, by simp⟩⟩
    intro hh
    have := congrArg Fin.val hh
    simp at this
  · refine ⟨⟨f.val - 32, by omega⟩, ?_, shares64.2 ⟨by simp; omega, by simp; omega⟩⟩
    intro hh
    have := congrArg Fin.val hh
    simp at this
    omega

theorem test_after_clear (ops : List BitOp) (h : ∀ op ∈ ops, op.isSet = false) (f : Nat) :
    (after b ops).test f = false := by
  rw [test_after]
  induction ops using List.reverseRecOn with
  | nil => rfl
  | append_singleton ops op ih =>
    rw [lastSet_snoc, h op (by simp), ih (fun o ho => h o (by simp [ho]))]
    simp

/-- A first `BIT_SET` exists, if any does. -/
theorem exists_first_set : ∀ (ops : List BitOp), (∃ op ∈ ops, op.isSet = true) →
    ∃ pre op post, ops = pre ++ op :: post ∧ op.isSet = true ∧ ∀ o ∈ pre, o.isSet = false
  | [], ⟨_, h, _⟩ => by cases h
  | o :: ops, ⟨op, hop, hs⟩ => by
    cases ho : o.isSet with
    | true => exact ⟨[], o, ops, rfl, ho, fun _ h => by cases h⟩
    | false =>
      have hin : op ∈ ops := by
        rcases List.mem_cons.1 hop with rfl | h
        · rw [ho] at hs; cases hs
        · exact h
      obtain ⟨pre, op', post, rfl, h1, h2⟩ := exists_first_set ops ⟨op, hin, hs⟩
      refine ⟨o :: pre, op', post, rfl, h1, fun x hx => ?_⟩
      rcases List.mem_cons.1 hx with rfl | hx
      · exact ho
      · exact h2 x hx

theorem separate32 (ops : List BitOp) : Separate .b32 ops := by
  intro pre op post _ g hg
  have hn : ¬ Shares .b32 op.frame g := fun h => hg (Fin.ext (shares32.1 h).symm)
  rw [after_snoc, BitOp.test_apply, if_neg hn]

/-- In the 64-bit build the first `BIT_SET` changes the test of another frame. -/
theorem separate64_iff (ops : List BitOp) : Separate .b64 ops ↔ ∀ op ∈ ops, op.isSet = false := by
  constructor
  · intro h op hop
    by_contra hs
    obtain ⟨pre, op', post, rfl, h1, h2⟩ := exists_first_set ops ⟨op, hop, by simpa using hs⟩
    obtain ⟨g, hg, hsh⟩ := exists_partner op'.frame
    have hsep := h pre op' post rfl g hg
    rw [after_snoc, BitOp.test_apply, if_pos hsh, h1, test_after_clear pre h2] at hsep
    cases hsep
  · rintro h pre op post rfl g -
    rw [test_after_clear pre (fun o ho => h o (by simp [ho])),
      test_after_clear (pre ++ [op]) (fun o ho => h o (by simp at ho ⊢; tauto))]

/-- **`freemap` is a set of frames** in the 32-bit build.  In the 64-bit build it is one after a sequence of operations if
and only if frames that share a bit were treated alike, and no operation has changed another frame's test if and only if
none was a `BIT_SET`. -/
theorem represents_iff (b : Build) (ops : List BitOp) :
    (Represents b ops ↔
      b = .b32 ∨ ∀ f g : FrameNo, f.val / 64 = g.val / 64 → f.val % 32 = g.val % 32 →
        lastSet (· = f) ops = lastSet (· = g) ops) ∧
    (Represents b ops ∧ Separate b ops ↔ b = .b32 ∨ ∀ op ∈ ops, op.isSet = false) := by
  cases b with
  | b32 =>
    have hrep : Represents .b32 ops := represents_of ops (fun f g h => by rw [Fin.ext (shares32.1 h)])
    exact ⟨iff_of_true hrep (.inl rfl), iff_of_true ⟨hrep, separate32 ops⟩ (.inl rfl)⟩
  | b64 =>
    simp only [reduceCtorEq, false_or]
    refine ⟨⟨fun h f g h1 h2 => h.agree (shares64.2 ⟨h1, h2⟩), fun h => represents_of ops (fun f g hs => ?_)⟩, ?_⟩
    · obtain ⟨h1, h2⟩ := shares64.1 hs
      exact h f g h1 h2
    · rw [separate64_iff]
      refine and_iff_right_of_imp (fun h => represents_of ops (fun f g _ => ?_))
      have hall : ∀ k : FrameNo, lastSet (· = k) ops = false := by
        intro k
        have h32 := test_after_clear (b := .b32) ops h k
        rw [test_after] at h32
        rw [← h32]
        congr 1
        funext j
        exact decide_eq_decide.2 ⟨fun hj => hj ▸ Shares.refl _ _, fun hj => Fin.ext (shares32.1 hj)⟩
      rw [hall f, hall g]

/-- One `BIT_SET` of frame 0x400, and frame 0x420 tests set. -/
theorem not_represents : ¬ (Represents .b64 [.set ⟨0x400, by decide⟩] ∧ Separate .b64 [.set ⟨0x400, by decide⟩]) := by
  rintro ⟨h, -⟩
  have h420 := (h ⟨0x420, by decide⟩).1 (by decide)
  exact absurd h420 (by decide)

end SmpBoot
