import Mathlib.Data.Nat.Log
import SmpBoot.Cmdline
import SmpBoot.Lib.ByteMem
/-!
# Itoa — the numerals that `itoa()` of `screen.c` writes and `atoi()` of `lib.c` reads

`Nat.toDigits` is the canonical numeral of a natural number: no leading zeros, and digits from `a` on in lower case.
-/
namespace SmpBoot

open ByteMem (Mem)
open Walk (forall_fuel)

section
variable {w : Nat}

/-! ## `itoa` -/

def digitOf (remainder : Unsigned) : BitVec 8 :=
  if remainder < 10 then remainder.setWidth 8 + code '0' else remainder.setWidth 8 + code 'a' - 10

/-- The division loop, from `*p` on. -/
def itoaDigits (divisor : BitVec w) : Nat → BitVec w → Nat → Mem → Option (Nat × Mem)
  | 0,        _,  _, _ => none
  | fuel + 1, ud, p, m =>
    let m := m.poke p (digitOf ((ud % divisor).setWidth 32))
    if ud / divisor = 0 then some (p + 1, m) else itoaDigits divisor fuel (ud / divisor) (p + 1) m

/-- `while (p1 < p2)` -/
def itoaReverse : Nat → Nat → Nat → Mem → Option Mem
  | 0,        _,  _,  _ => none
  | fuel + 1, p1, p2, m =>
    if p1 < p2 then itoaReverse fuel (p1 + 1) (p2 - 1) ((m.poke p1 (m.bytes p2)).poke p2 (m.bytes p1)) else some m

/-- `itoa()` behind the sign. -/
def itoaFrom (fuel buf : Nat) (divisor ud : BitVec w) (m : Mem) : Option Mem :=
  (itoaDigits divisor fuel ud buf m).bind fun r => itoaReverse fuel buf (r.1 - 1) (r.2.poke r.1 0)

def itoa (fuel buf : Nat) (base : BitVec 8) (d : BitVec w) (m : Mem) : Option Mem :=
  let base := if base = code 'p' then code 'x' else base
  if base = code 'd' ∧ d.toInt < 0 then itoaFrom fuel (buf + 1) 10 (-d) (m.poke buf (code '-'))
  else itoaFrom fuel buf (if base = code 'x' then 16 else 10) d m

/-! ## Numerals -/

def numeral (base n : Nat) : Text := ascii (Nat.toDigits base n)

/-- A sign if there is one to write. -/
def signedNumeral (z : Int) : Text := if z < 0 then code '-' :: numeral 10 z.natAbs else numeral 10 z.natAbs

/-- **The numeral of a `long`**: signed for `d`, hexadecimal for `x` and `p`, and unsigned decimal for `u` and the rest. -/
def numeralOf (base : BitVec 8) (d : BitVec w) : Text :=
  if base = code 'd' then signedNumeral d.toInt
  else if base = code 'x' ∨ base = code 'p' then numeral 16 d.toNat
  else numeral 10 d.toNat

theorem numeral_of_lt {base n : Nat} (h : n < base) : numeral base n = [code n.digitChar] := by
  rw [numeral, Nat.toDigits_of_lt_base h]
  rfl

theorem numeral_of_le {base n : Nat} (h1 : 1 < base) (h : base ≤ n) :
    numeral base n = numeral base (n / base) ++ [code (n % base).digitChar] := by
  rw [numeral, Nat.toDigits_of_base_le h1 h, ascii, List.map_append]
  rfl

theorem numeral_pos (base n : Nat) : 0 < (numeral base n).length := by
  rw [numeral, ascii, List.length_map]
  exact Nat.length_toDigits_pos

theorem numeral_length_le {base n k : Nat} (h1 : 1 < base) (hk : 0 < k) (h : n < base ^ k) : (numeral base n).length ≤ k := by
  rw [numeral, ascii, List.length_map]
  exact (Nat.length_toDigits_le_iff h1 hk).2 h

theorem numeral_length {base : Nat} (h1 : 1 < base) (n : Nat) : (numeral base n).length = Nat.log base n + 1 := by
  rcases Nat.lt_or_ge n base with hlt | hge
  · rw [numeral_of_lt hlt, Nat.log_of_lt hlt]
    rfl
  · have hsmaller : n / base < n := Nat.div_lt_self (by omega) h1
    rw [numeral_of_le h1 hge, List.length_append, numeral_length h1 (n / base), Nat.log_of_one_lt_of_le h1 hge]
    rfl
termination_by n

theorem mem_numeral {base : Nat} (h1 : 1 < base) {c : BitVec 8} (n : Nat) (h : c ∈ numeral base n) :
    ∃ k < 17, c = code k.digitChar := by
  have hchar (k : Nat) : ∃ j < 17, code k.digitChar = code j.digitChar := by
    rcases Nat.lt_or_ge k 16 with hk | hk
    · exact ⟨k, by omega, rfl⟩
    · exact ⟨16, by omega, by rw [Nat.digitChar_eq_star.2 hk]; rfl⟩
  rcases Nat.lt_or_ge n base with hlt | hge
  · rw [numeral_of_lt hlt, List.mem_singleton] at h
    exact h ▸ hchar n
  · have hsmaller : n / base < n := Nat.div_lt_self (by omega) h1
    rw [numeral_of_le h1 hge, List.mem_append, List.mem_singleton] at h
    rcases h with h | h
    · exact mem_numeral h1 (n / base) h
    · exact h ▸ hchar (n % base)
termination_by n

/-- **A numeral has only digits.** -/
theorem notMem_numeral {base : Nat} (h1 : 1 < base) {c : BitVec 8} (hc : ∀ k < 17, c ≠ code k.digitChar) (n : Nat) :
    c ∉ numeral base n := by
  intro h
  obtain ⟨k, hk, he⟩ := mem_numeral h1 n h
  exact hc k hk he

theorem nul_notMem_numeral {base : Nat} (h1 : 1 < base) (n : Nat) : 0 ∉ numeral base n :=
  notMem_numeral h1 (by decide) n

theorem dash_notMem_numeral {base : Nat} (h1 : 1 < base) (n : Nat) : code '-' ∉ numeral base n :=
  notMem_numeral h1 (by decide) n

theorem nul_notMem_signedNumeral (z : Int) : 0 ∉ signedNumeral z := by
  rw [signedNumeral]
  split
  · rw [List.mem_cons, not_or]
    exact ⟨by decide, nul_notMem_numeral (by decide) _⟩
  · exact nul_notMem_numeral (by decide) _

theorem nul_notMem_numeralOf (base : BitVec 8) (d : BitVec w) : 0 ∉ numeralOf base d := by
  rw [numeralOf]
  split
  · exact nul_notMem_signedNumeral _
  · split <;> exact nul_notMem_numeral (by decide) _

theorem toNat_umod_lt {divisor : BitVec w} (h1 : 1 < divisor.toNat) (h16 : divisor.toNat ≤ 16) (ud : BitVec w) :
    (ud % divisor).toNat < 16 := by
  rw [BitVec.toNat_umod]
  have hlt := Nat.mod_lt ud.toNat (Nat.lt_trans Nat.zero_lt_one h1)
  exact Nat.lt_of_lt_of_le hlt h16

theorem digitOf_eq {r : BitVec w} (h : r.toNat < 16) : digitOf (r.setWidth 32) = code r.toNat.digitChar := by
  have hall : ∀ k < 16, digitOf (BitVec.ofNat 32 k) = code k.digitChar := by decide
  rw [← hall r.toNat h, BitVec.ofNat_toNat]

/-! ## What `itoa()` writes -/

/-- **The text was written at `buf` with its NUL**, and nothing else. -/
structure Wrote (buf : Nat) (t : Text) (m m' : Mem) : Prop where
  writes : Mem.Writes buf (buf + t.length + 1) m m'
  last   : buf + t.length ∈ m'.written
  str    : m'.Str buf t

/-- The digits from the last one on. -/
theorem itoaDigits_text {divisor : BitVec w} (h1 : 1 < divisor.toNat) (h16 : divisor.toNat ≤ 16) (ud : BitVec w) (p : Nat)
    (m : Mem) : ∃ m', (∀ fuel ≥ (numeral divisor.toNat ud.toNat).length,
        itoaDigits divisor fuel ud p m = some (p + (numeral divisor.toNat ud.toNat).length, m')) ∧
      Mem.Writes p (p + (numeral divisor.toNat ud.toNat).length) m m' ∧
      m'.read p (numeral divisor.toNat ud.toNat).length = (numeral divisor.toNat ud.toNat).reverse := by
  have hdiv : (ud / divisor).toNat = ud.toNat / divisor.toNat := BitVec.toNat_udiv
  have hmod : (ud % divisor).toNat = ud.toNat % divisor.toNat := BitVec.toNat_umod
  have hdigit := digitOf_eq (toNat_umod_lt h1 h16 ud)
  rw [hmod] at hdigit
  rcases Nat.lt_or_ge ud.toNat divisor.toNat with hlt | hge
  · have hz : ud / divisor = 0 := BitVec.eq_of_toNat_eq (by rw [hdiv, Nat.div_eq_of_lt hlt]; rfl)
    rw [Nat.mod_eq_of_lt hlt] at hdigit
    rw [numeral_of_lt hlt]
    refine ⟨m.poke p (digitOf ((ud % divisor).setWidth 32)), forall_fuel fun k _ => if_pos hz,
      .poke m (Nat.le_refl p) (Nat.lt_succ_self p) _, ?_⟩
    rw [hdigit]
    exact congrArg (· :: []) (Mem.bytes_poke_self m p _)
  · have hz : ud / divisor ≠ 0 := by
      intro hz
      have hpos := Nat.div_pos hge (Nat.lt_trans Nat.zero_lt_one h1)
      rw [← hdiv, hz] at hpos
      exact Nat.lt_irrefl 0 hpos
    have hsmaller : (ud / divisor).toNat < ud.toNat := by
      rw [hdiv]
      exact Nat.div_lt_self (by omega) h1
    obtain ⟨m', hrun, hw, hread⟩ := itoaDigits_text h1 h16 (ud / divisor) (p + 1)
      (m.poke p (digitOf ((ud % divisor).setWidth 32)))
    rw [hdiv] at hrun hw hread
    rw [numeral_of_le h1 hge, List.length_append, List.length_singleton, List.reverse_append]
    generalize hn : (numeral divisor.toNat (ud.toNat / divisor.toNat)).length = n at hrun hw hread
    have hend : p + 1 + n = p + (n + 1) := by omega
    rw [hend] at hrun hw
    refine ⟨m', forall_fuel fun k hk => (if_neg hz).trans (hrun k hk), ?_, ?_⟩
    · exact .trans (.poke m (Nat.le_refl p) (by omega) _) (hw.mono (Nat.le_succ p) (Nat.le_refl _))
    · rw [Mem.read, hread, hw.kept p (by omega), Mem.bytes_poke_self, hdigit]
      rfl
termination_by ud.toNat

/-- **The loop turns the text round.** -/
theorem itoaReverse_text : ∀ (n p1 p2 : Nat) (m : Mem), p1 + n = p2 + 1 →
    ∃ m', (∀ fuel > n / 2, itoaReverse fuel p1 p2 m = some m') ∧ Mem.Writes p1 (p1 + n) m m' ∧
      m'.read p1 n = (m.read p1 n).reverse
  | 0,     p1, p2, m, h => ⟨m, forall_fuel fun k _ => if_neg (by omega), .refl _ _ m, rfl⟩
  | 1,     p1, p2, m, h => ⟨m, forall_fuel fun k _ => if_neg (by omega), .refl _ _ m, rfl⟩
  | n + 2, p1, p2, m, h => by
    have hlt : p1 < p2 := by omega
    obtain ⟨m', hrun, hw, hread⟩ := itoaReverse_text n (p1 + 1) (p2 - 1)
      ((m.poke p1 (m.bytes p2)).poke p2 (m.bytes p1)) (by omega)
    have hswap : Mem.Writes p1 (p1 + (n + 2)) m ((m.poke p1 (m.bytes p2)).poke p2 (m.bytes p1)) :=
      .trans (.poke m (Nat.le_refl _) (by omega) _) (.poke _ (Nat.le_of_lt hlt) (by omega) _)
    refine ⟨m', forall_fuel fun k hk => (if_pos hlt).trans (hrun k (by omega)),
      hswap.trans (hw.mono (Nat.le_succ _) (by omega)), ?_⟩
    -- the ends are swapped, and what is between them is turned round
    have hmid : ((m.poke p1 (m.bytes p2)).poke p2 (m.bytes p1)).read (p1 + 1) n = m.read (p1 + 1) n := by
      rw [Mem.read_poke _ (by omega), Mem.read_poke _ (by omega)]
    have hfirst : m'.bytes p1 = m.bytes p2 := by
      rw [hw.kept p1 (by omega), Mem.bytes_poke_ne _ (Nat.ne_of_lt hlt), Mem.bytes_poke_self]
    have hlast : m'.bytes p2 = m.bytes p1 := by
      rw [hw.kept p2 (by omega), Mem.bytes_poke_self]
    have hends : p1 + 1 + n = p2 := by omega
    rw [Mem.read, Mem.read_snoc, hread, hmid, hends, hfirst, hlast, Mem.read, Mem.read_snoc, hends]
    simp

theorem itoaFrom_text (hpos : 0 < w) (divisor : BitVec w) (h1 : 1 < divisor.toNat) (h16 : divisor.toNat ≤ 16) (buf : Nat)
    (ud : BitVec w) (m : Mem) :
    ∃ m', (∀ fuel ≥ w, itoaFrom fuel buf divisor ud m = some m') ∧ Wrote buf (numeral divisor.toNat ud.toNat) m m' := by
  have hlen : (numeral divisor.toNat ud.toNat).length ≤ w :=
    numeral_length_le h1 hpos (Nat.lt_of_lt_of_le ud.isLt (Nat.pow_le_pow_left h1 w))
  obtain ⟨m₁, hrun₁, hw₁, hread₁⟩ := itoaDigits_text h1 h16 ud buf m
  have hn := numeral_pos divisor.toNat ud.toNat
  generalize hnum : numeral divisor.toNat ud.toNat = t at *
  obtain ⟨m₂, hrun₂, hw₂, hread₂⟩ := itoaReverse_text t.length buf (buf + t.length - 1)
    (m₁.poke (buf + t.length) 0) (by omega)
  have hw : Mem.Writes buf (buf + t.length + 1) m (m₁.poke (buf + t.length) 0) :=
    (hw₁.mono (Nat.le_refl _) (Nat.le_succ _)).trans (.poke m₁ (Nat.le_add_right _ _) (Nat.lt_succ_self _) 0)
  refine ⟨m₂, fun fuel hf => ?_, hw.trans (hw₂.mono (Nat.le_refl _) (Nat.le_succ _)), hw₂.old _ List.mem_cons_self,
    .of_read ?_ ?_⟩
  · rw [itoaFrom, hrun₁ fuel (by omega)]
    exact hrun₂ fuel (by omega)
  · rw [hread₂, Mem.read_poke _ (by omega), hread₁, List.reverse_reverse]
  · rw [hw₂.kept _ (by omega)]
    exact Mem.bytes_poke_self m₁ _ 0

/-- A character in front. -/
theorem Wrote.cons {buf : Nat} {t : Text} {m m' : Mem} {c : BitVec 8} (h : Wrote (buf + 1) t (m.poke buf c) m') :
    Wrote buf (c :: t) m m' := by
  have hend : buf + 1 + t.length = buf + (t.length + 1) := by omega
  have hlast := h.last
  rw [hend] at hlast
  refine ⟨.trans (.poke m (Nat.le_refl buf) (by omega) c) (h.writes.mono (Nat.le_succ buf) ?_), hlast, .cons ?_ h.str⟩
  · rw [List.length_cons]
    omega
  · rw [h.writes.kept buf (by omega), Mem.bytes_poke_self]

theorem toNat_small (hw : 32 ≤ w) {n : Nat} (h : n < 2 ^ 32) : (BitVec.ofNat w n).toNat = n := by
  rw [BitVec.toNat_ofNat]
  exact Nat.mod_eq_of_lt (Nat.lt_of_lt_of_le h (Nat.pow_le_pow_right (by decide) hw))

theorem toNat_neg_of_neg {d : BitVec w} (h : d.toInt < 0) : ((-d).toNat : Int) = -d.toInt := by
  have hlt := d.isLt
  rw [BitVec.toInt_eq_toNat_cond] at h ⊢
  rw [BitVec.toNat_neg]
  split at h
  · omega
  · rename_i hbig
    rw [if_neg hbig, Nat.mod_eq_of_lt (by omega)]
    omega

theorem signedNumeral_of_neg {d : BitVec w} (h : d.toInt < 0) :
    signedNumeral d.toInt = code '-' :: numeral 10 (-d).toNat := by
  have habs : d.toInt.natAbs = (-d).toNat := by
    have hneg := toNat_neg_of_neg h
    omega
  rw [signedNumeral, if_pos h, habs]

theorem signedNumeral_of_nonneg {d : BitVec w} (h : ¬ d.toInt < 0) : signedNumeral d.toInt = numeral 10 d.toNat := by
  have habs : d.toInt.natAbs = d.toNat := by
    have hmsb : d.toInt = d.toNat := BitVec.toInt_eq_toNat_of_msb (by rw [BitVec.msb_eq_toInt]; simpa using h)
    rw [hmsb, Int.natAbs_natCast]
  rw [signedNumeral, if_neg h, habs]

/-- **`itoa()` writes the numeral.** -/
theorem itoa_text (hw : 32 ≤ w) (buf : Nat) (base : BitVec 8) (d : BitVec w) (m : Mem) :
    ∃ m', (∀ fuel ≥ w, itoa fuel buf base d m = some m') ∧ Wrote buf (numeralOf base d) m m' := by
  have hpos : 0 < w := by omega
  have hten : (10 : BitVec w).toNat = 10 := toNat_small hw (by decide)
  have hsixteen : (16 : BitVec w).toNat = 16 := toNat_small hw (by decide)
  have hdec (buf : Nat) (d : BitVec w) (m : Mem) := itoaFrom_text hpos 10 (by omega) (by omega) buf d m
  rw [hten] at hdec
  by_cases hneg : base = code 'd' ∧ d.toInt < 0
  · obtain ⟨m', hrun, hwrote⟩ := hdec (buf + 1) (-d) (m.poke buf (code '-'))
    have hbase : (if base = code 'p' then code 'x' else base) = base := if_neg (by rw [hneg.1]; decide)
    have ht : numeralOf base d = code '-' :: numeral 10 (-d).toNat := by
      rw [numeralOf, if_pos hneg.1, signedNumeral_of_neg hneg.2]
    refine ⟨m', fun fuel hf => ?_, ht ▸ hwrote.cons⟩
    unfold itoa
    simp only [hbase]
    exact (if_pos hneg).trans (hrun fuel hf)
  · by_cases hx : base = code 'x' ∨ base = code 'p'
    · obtain ⟨m', hrun, hwrote⟩ := itoaFrom_text hpos 16 (by omega) (by omega) buf d m
      have hbase : (if base = code 'p' then code 'x' else base) = code 'x' := by rcases hx with rfl | rfl <;> decide
      have ht : numeralOf base d = numeral 16 d.toNat := by
        rw [numeralOf, if_neg (by rcases hx with rfl | rfl <;> decide), if_pos hx]
      rw [hsixteen] at hwrote
      refine ⟨m', fun fuel hf => ?_, ht ▸ hwrote⟩
      unfold itoa
      simp only [hbase]
      exact (if_neg (fun h => absurd h.1 (by decide))).trans (hrun fuel hf)
    · obtain ⟨m', hrun, hwrote⟩ := hdec buf d m
      have hbase : (if base = code 'p' then code 'x' else base) = base := if_neg (fun h => hx (.inr h))
      have hnx : base ≠ code 'x' := fun h => hx (.inl h)
      have ht : numeralOf base d = numeral 10 d.toNat := by
        by_cases hd : base = code 'd'
        · rw [numeralOf, if_pos hd, signedNumeral_of_nonneg fun h => hneg ⟨hd, h⟩]
        · rw [numeralOf, if_neg hd, if_neg hx]
      refine ⟨m', fun fuel hf => ?_, ht ▸ hwrote⟩
      unfold itoa
      simp only [hbase, if_neg hneg, if_neg hnx]
      exact hrun fuel hf

end

/-! ## What `atoi()` reads -/

section
variable {base : Nat}

/-- The first digit is a zero only in the numeral of 0. -/
theorem numeral_head (h1 : 1 < base) (n : Nat) :
    ∃ k t, numeral base n = code k.digitChar :: t ∧ k < base ∧ (k = 0 → n = 0 ∧ t = []) := by
  rcases Nat.lt_or_ge n base with hlt | hge
  · exact ⟨n, [], numeral_of_lt hlt, hlt, fun h => ⟨h, rfl⟩⟩
  · have hsmaller : n / base < n := Nat.div_lt_self (by omega) h1
    obtain ⟨k, t, hnum, hk, hzero⟩ := numeral_head h1 (n / base)
    refine ⟨k, t ++ [code (n % base).digitChar], ?_, hk, fun h => ?_⟩
    · rw [numeral_of_le h1 hge, hnum]
      rfl
    · have hpos := Nat.div_pos hge (Nat.lt_trans Nat.zero_lt_one h1)
      exact absurd (hzero h).1 (Nat.ne_of_gt hpos)
termination_by n

theorem digit_read (hb : base = 10 ∨ base = 16) {k : Nat} (hk : k < base) :
    isDigit base (code k.digitChar) ∧ BitVec.ofInt 32 (digitValue (code k.digitChar)) = BitVec.ofNat 32 k := by
  have hten : ∀ k < 10, isDigit 10 (code k.digitChar) ∧
      BitVec.ofInt 32 (digitValue (code k.digitChar)) = BitVec.ofNat 32 k := by decide
  have hsixteen : ∀ k < 16, isDigit 16 (code k.digitChar) ∧
      BitVec.ofInt 32 (digitValue (code k.digitChar)) = BitVec.ofNat 32 k := by decide
  rcases hb with rfl | rfl
  · exact hten k hk
  · exact hsixteen k hk

/-- **The loop reads a numeral modulo 2^32.** -/
theorem atoiDigits_numeral (hb : base = 10 ∨ base = 16) (n : Nat) (rest : Text) :
    atoiDigits base (numeral base n ++ rest) 0 = atoiDigits base rest (BitVec.ofNat 32 n) := by
  have h1 : 1 < base := by omega
  rcases Nat.lt_or_ge n base with hlt | hge
  · obtain ⟨hdigit, hvalue⟩ := digit_read hb hlt
    rw [numeral_of_lt hlt, List.singleton_append, atoiDigits, if_pos hdigit, hvalue]
    simp
  · have hsmaller : n / base < n := Nat.div_lt_self (by omega) h1
    obtain ⟨hdigit, hvalue⟩ := digit_read hb (Nat.mod_lt n (show base > 0 by omega))
    have hsum : n = n / base * base + n % base := (Nat.div_add_mod' n base).symm
    rw [numeral_of_le h1 hge, List.append_assoc, atoiDigits_numeral hb (n / base), List.singleton_append, atoiDigits,
      if_pos hdigit, hvalue, ← BitVec.ofNat_mul, ← BitVec.ofNat_add, ← hsum]
termination_by n

theorem atoiDigits_nul (base : Nat) (rest : Text) (i : Unsigned) (h : ¬ isDigit base 0) :
    atoiDigits base (0 :: rest) i = i := by
  rw [atoiDigits, if_neg h]

theorem atoiBase_numeral (n : Nat) (rest : Text) : atoiBase (numeral 10 n ++ 0 :: rest) = BitVec.ofNat 32 n := by
  obtain ⟨k, t, hnum, hk, hzero⟩ := numeral_head (show 1 < 10 by decide) n
  have hchar : ∀ k < 10, code k.digitChar = code '0' → k = 0 := by decide
  rcases Nat.eq_zero_or_pos k with rfl | hpos
  · obtain ⟨rfl, rfl⟩ := hzero rfl
    rw [hnum]
    rfl
  · have hne : deref (numeral 10 n ++ 0 :: rest) ≠ code '0' := by
      rw [hnum]
      exact fun h => absurd (hchar k hk h) (Nat.ne_of_gt hpos)
    rw [atoiBase, if_neg hne, atoiDigits_numeral (.inl rfl), atoiDigits_nul _ _ _ (by decide)]

theorem atoi_numeral (n : Nat) (rest : Text) : atoi (numeral 10 n ++ 0 :: rest) = BitVec.ofNat 32 n := by
  obtain ⟨k, t, hnum, hk, -⟩ := numeral_head (show 1 < 10 by decide) n
  have hchar : ∀ k < 10, code k.digitChar ≠ code '-' := by decide
  have hne : deref (numeral 10 n ++ 0 :: rest) ≠ code '-' := by
    rw [hnum]
    exact hchar k hk
  rw [atoi, if_neg hne, atoiBase_numeral, mul_one]

/-- **A signed numeral is read back**, whatever stands behind its NUL. -/
theorem atoi_signedNumeral (d : Unsigned) (rest : Text) : atoi (signedNumeral d.toInt ++ 0 :: rest) = d := by
  by_cases hneg : d.toInt < 0
  · have hsign (p : Text) : atoi (code '-' :: p) = atoiBase p * -1 := rfl
    rw [signedNumeral_of_neg hneg, List.cons_append, hsign, atoiBase_numeral, BitVec.ofNat_toNat, BitVec.setWidth_eq,
      neg_mul_neg, mul_one]
  · rw [signedNumeral_of_nonneg hneg, atoi_numeral, BitVec.ofNat_toNat, BitVec.setWidth_eq]

theorem atoi_hex (n : Nat) (rest : Text) :
    atoi (ascii ['0', 'x'] ++ numeral 16 n ++ 0 :: rest) = BitVec.ofNat 32 n := by
  have hstart : atoi (ascii ['0', 'x'] ++ numeral 16 n ++ 0 :: rest) = atoiDigits 16 (numeral 16 n ++ 0 :: rest) 0 * 1 := rfl
  rw [hstart, atoiDigits_numeral (.inr rfl), atoiDigits_nul _ _ _ (by decide), mul_one]

end

/-- **Numerals are written and read back**: `itoa()` writes the canonical numeral of every `long`, and `atoi()` reads back the
signed numeral of every `int` and the hexadecimal one of every 32-bit value behind `0x`. -/
theorem itoa_then_atoi (b : Build) (buf : Nat) (m : Mem) :
    (∀ (base : BitVec 8) (d : BitVec b.longBits), ∃ m', (∀ fuel ≥ b.longBits, itoa fuel buf base d m = some m') ∧
      m'.Str buf (numeralOf base d) ∧ Mem.Writes buf (buf + (numeralOf base d).length + 1) m m') ∧
    (∀ (d : Unsigned) (rest : Text), atoi (numeralOf (code 'd') (d.signExtend b.longBits) ++ 0 :: rest) = d) ∧
    (∀ (v : Unsigned) (rest : Text),
      atoi (ascii ['0', 'x'] ++ numeralOf (code 'x') (v.setWidth b.longBits) ++ 0 :: rest) = v) := by
  have hw := longBits_ge b
  refine ⟨fun base d => ?_, fun d rest => ?_, fun v rest => ?_⟩
  · obtain ⟨m', hrun, hwrote⟩ := itoa_text hw buf base d m
    exact ⟨m', hrun, hwrote.str, hwrote.writes⟩
  · rw [numeralOf, if_pos rfl, BitVec.toInt_signExtend_of_le hw]
    exact atoi_signedNumeral d rest
  · rw [numeralOf, if_neg (by decide), if_pos (.inl rfl), atoi_hex, BitVec.ofNat_toNat, BitVec.setWidth_setWidth_of_le _ hw,
      BitVec.setWidth_eq]

end SmpBoot
