import Mathlib.Data.Nat.Digits.Defs
import SmpBoot.Cmdline
/-!
# Atoi — `atoi()` of `lib.c` on any text

What a text is worth is said without the loop of `atoi()`: a sign, a prefix that gives the base, and the longest run of
digits of that base.  How far the text is read is counted along the accesses `*a` of the code (`atoiReads`).
-/
namespace SmpBoot

/-! ## What a text is worth -/

/-- The value of a digit of base 16 or below. -/
def digit (c : BitVec 8) : Option Nat :=
  ((ascii "0123456789abcdef".toList).idxOf? c).or ((ascii "0123456789ABCDEF".toList).idxOf? c)

def digitIn (base : Nat) (c : BitVec 8) : Option Nat := (digit c).filter (· < base)

/-- The digits of the longest run in front. -/
def digitsOf (base : Nat) (p : Text) : List Nat := (p.takeWhile fun c => (digitIn base c).isSome).filterMap (digitIn base)

/-- 0 for an empty run. -/
def number (base : Nat) (p : Text) : Nat := Nat.ofDigits base (digitsOf base p).reverse

def magnitude (p : Text) : Nat :=
  if ascii ['0', 'x'] <+: p ∨ ascii ['0', 'X'] <+: p then number 16 (p.drop 2)
  else if ascii ['0'] <+: p then number 8 (p.drop 1)
  else number 10 p

def signedValue (p : Text) : Int := if ascii ['-'] <+: p then -magnitude (p.drop 1) else magnitude p

/-! ## The reads -/

/-- The loop reads up to the first character that is no digit. -/
def digitReads (base : Nat) : Text → Nat
  | []     => 1
  | a :: p => if isDigit base a then digitReads base p + 1 else 1

def zeroReads (p : Text) : Nat :=
  if deref p = code 'x' ∨ deref p = code 'X' then digitReads 16 p.tail + 1 else digitReads 8 p

def baseReads (p : Text) : Nat := if deref p = code '0' then zeroReads p.tail + 1 else digitReads 10 p

def atoiReads (p : Text) : Nat := if deref p = code '-' then baseReads p.tail + 1 else baseReads p

/-! ## The loop -/

/-- **The test of the loop accepts the digits of the base**, and each is converted to its value. -/
theorem digit_eq {base : Nat} (hb : base = 8 ∨ base = 10 ∨ base = 16) (c : BitVec 8) :
    (isDigit base c ↔ (digitIn base c).isSome) ∧ ∀ d, digitIn base c = some d →
      BitVec.ofInt 32 (digitValue c) = BitVec.ofNat 32 d := by
  have hall : ∀ base ∈ [8, 10, 16], ∀ c : BitVec 8, (isDigit base c ↔ (digitIn base c).isSome) ∧
      ∀ d ∈ digitIn base c, BitVec.ofInt 32 (digitValue c) = BitVec.ofNat 32 d := by decide +kernel
  exact hall base (by simpa using hb) c

section
variable {base : Nat}

theorem digitsOf_cons {c : BitVec 8} {d : Nat} (h : digitIn base c = some d) (p : Text) :
    digitsOf base (c :: p) = d :: digitsOf base p := by
  have hsome : (digitIn base c).isSome = true := by rw [h]; rfl
  rw [digitsOf, List.takeWhile_cons, if_pos hsome, List.filterMap_cons_some h, digitsOf]

theorem digitsOf_stop {c : BitVec 8} (h : digitIn base c = none) (p : Text) : digitsOf base (c :: p) = [] := by
  rw [digitsOf, List.takeWhile_cons_of_neg (by rw [h]; exact Bool.false_ne_true)]
  rfl

/-- **The loop appends the run of digits to the number it has.** -/
theorem atoiDigits_eq (hb : base = 8 ∨ base = 10 ∨ base = 16) : ∀ (p : Text) (n : Nat),
    atoiDigits base p (BitVec.ofNat 32 n) = BitVec.ofNat 32 (number base p + base ^ (digitsOf base p).length * n)
  | [],     n => by simp [atoiDigits, number, digitsOf]
  | c :: p, n => by
    obtain ⟨htest, hvalue⟩ := digit_eq hb c
    rw [atoiDigits]
    cases hd : digitIn base c with
    | none =>
      have hstop : ¬ isDigit base c := by
        rw [htest, hd]
        exact Bool.false_ne_true
      rw [if_neg hstop, number, digitsOf_stop hd]
      simp
    | some d =>
      have hdigit : isDigit base c := by
        rw [htest, hd]
        rfl
      have hnumber : number base (c :: p) = number base p + base ^ (digitsOf base p).length * d := by
        rw [number, digitsOf_cons hd, List.reverse_cons, Nat.ofDigits_append, List.length_reverse, Nat.ofDigits_singleton,
          number]
      rw [if_pos hdigit, hvalue d hd, ← BitVec.ofNat_mul, ← BitVec.ofNat_add, atoiDigits_eq hb p, hnumber, digitsOf_cons hd,
        List.length_cons, Nat.pow_succ]
      congr 1
      ring

theorem atoiDigits_zero (hb : base = 8 ∨ base = 10 ∨ base = 16) (p : Text) :
    atoiDigits base p 0 = BitVec.ofNat 32 (number base p) := by
  have hloop := atoiDigits_eq hb p 0
  rwa [Nat.mul_zero, Nat.add_zero] at hloop

end

/-! ## The prefix and the sign -/

theorem starts_iff {a : BitVec 8} (ha : a ≠ 0) (p : Text) : [a] <+: p ↔ deref p = a := by
  cases p with
  | nil => simpa [deref] using fun h : 0 = a => ha h.symm
  | cons c p => simp [deref, List.cons_prefix_cons, eq_comm]

theorem atoiZero_eq (p : Text) : atoiZero p = BitVec.ofNat 32 (magnitude (code '0' :: p)) := by
  have hstarts {a : Char} (ha : code a ≠ 0) : ascii ['0', a] <+: code '0' :: p ↔ deref p = code a := by
    rw [← starts_iff ha]
    exact List.prefix_cons_inj (code '0')
  have hzero : ascii ['0'] <+: code '0' :: p := (starts_iff (by decide) _).2 rfl
  have hx : (ascii ['0', 'x'] <+: code '0' :: p ∨ ascii ['0', 'X'] <+: code '0' :: p) ↔
      (deref p = code 'x' ∨ deref p = code 'X') := or_congr (hstarts (by decide)) (hstarts (by decide))
  by_cases h : deref p = code 'x' ∨ deref p = code 'X'
  · rw [atoiZero, if_pos h, magnitude, if_pos (hx.2 h), atoiDigits_zero (.inr (.inr rfl)), List.drop_succ_cons, List.drop_one]
  · rw [atoiZero, if_neg h, magnitude, if_neg (mt hx.1 h), if_pos hzero, atoiDigits_zero (.inl rfl), List.drop_one,
      List.tail_cons]

theorem atoiBase_eq (p : Text) : atoiBase p = BitVec.ofNat 32 (magnitude p) := by
  rw [atoiBase]
  split
  · rename_i h0
    cases p with
    | nil => exact absurd h0 (by decide)
    | cons c p =>
      obtain rfl : c = code '0' := h0
      exact atoiZero_eq p
  · rename_i h0
    have hno : ¬ ascii ['0'] <+: p := mt (starts_iff (by decide) p).1 h0
    have hnox (a : Char) : ¬ ascii ['0', a] <+: p := fun h => hno ((List.prefix_append [code '0'] [code a]).trans h)
    rw [magnitude, if_neg (not_or.2 ⟨hnox 'x', hnox 'X'⟩), if_neg hno, atoiDigits_zero (.inr (.inl rfl))]

/-- **`atoi()` returns the value modulo 2^32.** -/
theorem atoi_eq (p : Text) : atoi p = BitVec.ofInt 32 (signedValue p) := by
  have hsign : ascii ['-'] <+: p ↔ deref p = code '-' := starts_iff (by decide) p
  by_cases h : deref p = code '-'
  · rw [atoi, if_pos h, signedValue, if_pos (hsign.2 h), atoiBase_eq, List.drop_one, BitVec.ofInt_neg, BitVec.ofInt_natCast]
    exact (BitVec.mul_neg _ _).trans (congrArg Neg.neg (BitVec.mul_one _))
  · rw [atoi, if_neg h, signedValue, if_neg (mt hsign.1 h), atoiBase_eq, BitVec.ofInt_natCast]
    exact BitVec.mul_one _

/-! ## The text before the NUL -/

section
variable {base : Nat} {f f' : Text}

theorem digitReads_le (base : Nat) (rest : Text) : ∀ v : Text, digitReads base (v ++ 0 :: rest) ≤ v.length + 1
  | []     => by
    rw [List.nil_append, digitReads, if_neg (not_isDigit (.inr rfl) base)]
    exact Nat.le_refl 1
  | a :: v => by
    rw [List.cons_append, digitReads, List.length_cons]
    split
    · exact Nat.succ_le_succ (digitReads_le base rest v)
    · omega

theorem atoiDigits_congr : ∀ {f f' : Text} (i : Unsigned), Agree (digitReads base f) f f' →
    atoiDigits base f' i = atoiDigits base f i
  | [], [], _, _ => rfl
  | [], c :: f', i, h => by
    have hc : deref [] = c := h 0 (Nat.zero_lt_one)
    rw [atoiDigits, atoiDigits, if_neg (not_isDigit (.inr hc.symm) base)]
  | a :: f, f', i, h => by
    rw [digitReads] at h
    by_cases ha : isDigit base a
    · rw [if_pos ha] at h
      have hhead : a = deref f' := h.head
      cases f' with
      | nil => exact absurd ha (not_isDigit (.inr hhead) base)
      | cons c f' =>
        obtain rfl : a = c := hhead
        rw [atoiDigits, atoiDigits, if_pos ha, if_pos ha]
        exact atoiDigits_congr _ h.tail
    · rw [if_neg ha] at h
      have hhead : a = deref f' := h.head
      rw [atoiDigits, if_neg ha]
      cases f' with
      | nil => rfl
      | cons c f' =>
        obtain rfl : a = c := hhead
        rw [atoiDigits, if_neg ha]

theorem digitReads_pos (base : Nat) (f : Text) : 0 < digitReads base f := by
  cases f with
  | nil => exact Nat.one_pos
  | cons a f =>
    rw [digitReads]
    split
    · exact Nat.succ_pos _
    · exact Nat.one_pos

theorem zeroReads_pos (f : Text) : 0 < zeroReads f := by
  rw [zeroReads]
  split
  · exact Nat.succ_pos _
  · exact digitReads_pos 8 f

theorem baseReads_pos (f : Text) : 0 < baseReads f := by
  rw [baseReads]
  split
  · exact Nat.succ_pos _
  · exact digitReads_pos 10 f

theorem atoiReads_pos (f : Text) : 0 < atoiReads f := by
  rw [atoiReads]
  split
  · exact Nat.succ_pos _
  · exact baseReads_pos f

/-- A character that is not the NUL stands before it: what is read from there on ends at the same NUL. -/
theorem tail_reads_le {reads : Text → Nat} {v rest : Text} (hle : ∀ v : Text, reads (v ++ 0 :: rest) ≤ v.length + 1)
    {k : BitVec 8} (hk : k ≠ 0) (h : deref (v ++ 0 :: rest) = k) : reads (v ++ 0 :: rest).tail + 1 ≤ v.length + 1 := by
  cases v with
  | nil => exact absurd h.symm hk
  | cons a v => exact Nat.succ_le_succ (hle v)

theorem zeroReads_le (v rest : Text) : zeroReads (v ++ 0 :: rest) ≤ v.length + 1 := by
  rw [zeroReads]
  split
  · rename_i h
    rcases h with h | h
    · exact tail_reads_le (digitReads_le 16 rest) (by decide) h
    · exact tail_reads_le (digitReads_le 16 rest) (by decide) h
  · exact digitReads_le 8 rest v

theorem baseReads_le (v rest : Text) : baseReads (v ++ 0 :: rest) ≤ v.length + 1 := by
  rw [baseReads]
  split
  · rename_i h
    exact tail_reads_le (fun v => zeroReads_le v rest) (by decide) h
  · exact digitReads_le 10 rest v

theorem atoiReads_le (v rest : Text) : atoiReads (v ++ 0 :: rest) ≤ v.length + 1 := by
  rw [atoiReads]
  split
  · rename_i h
    exact tail_reads_le (fun v => baseReads_le v rest) (by decide) h
  · exact baseReads_le v rest

theorem atoiZero_congr (h : Agree (zeroReads f) f f') : atoiZero f' = atoiZero f := by
  have hhead : deref f = deref f' := h 0 (zeroReads_pos f)
  rw [zeroReads] at h
  rw [atoiZero, atoiZero, ← hhead]
  split
  · rename_i hx
    rw [if_pos hx] at h
    exact atoiDigits_congr 0 h.tail
  · rename_i hx
    rw [if_neg hx] at h
    exact atoiDigits_congr 0 h

theorem atoiBase_congr (h : Agree (baseReads f) f f') : atoiBase f' = atoiBase f := by
  have hhead : deref f = deref f' := h 0 (baseReads_pos f)
  rw [baseReads] at h
  rw [atoiBase, atoiBase, ← hhead]
  split
  · rename_i h0
    rw [if_pos h0] at h
    exact atoiZero_congr h.tail
  · rename_i h0
    rw [if_neg h0] at h
    exact atoiDigits_congr 0 h

/-- What stands behind the characters read does not count. -/
theorem atoi_congr (h : Agree (atoiReads f) f f') : atoi f' = atoi f := by
  have hhead : deref f = deref f' := h 0 (atoiReads_pos f)
  rw [atoiReads] at h
  rw [atoi, atoi, ← hhead]
  split
  · rename_i hs
    rw [if_pos hs] at h
    rw [atoiBase_congr h.tail]
  · rename_i hs
    rw [if_neg hs] at h
    rw [atoiBase_congr h]

end

/-- **`atoi()` of a text that ends in a NUL**: its value modulo 2^32, and nothing behind the NUL is read. -/
theorem atoi_reads_and_returns (v rest : Text) :
    atoi (v ++ 0 :: rest) = BitVec.ofInt 32 (signedValue v) ∧
    atoiReads (v ++ 0 :: rest) ≤ v.length + 1 ∧
    ∀ f', Agree (atoiReads (v ++ 0 :: rest)) (v ++ 0 :: rest) f' → atoi f' = atoi (v ++ 0 :: rest) := by
  refine ⟨?_, ?_, ?_⟩
  · rw [atoi_sep (.inr rfl), atoi_eq]
  · exact atoiReads_le v rest
  · intro f' hagree
    exact atoi_congr hagree

example : signedValue (ascii ['-', '0', 'x', '1', 'a', 'F', 'g']) = -0x1AF := by decide

end SmpBoot
