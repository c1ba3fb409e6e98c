import Mathlib.Data.List.GetD
import SmpBoot.Itoa
/-!
# Printf — `vprintf` of `screen.c`

`buf` of `vprintf` is a memory from address 0 on; 20 bytes of it are the array's, and what it holds at first is arbitrary.  Every
conversion takes one argument.  Strings are given by what stands at their address, and behind the format stand zeros.
-/
namespace SmpBoot

open ByteMem (Mem)
open Walk (forall_fuel)

/-- `char buf[20]` -/
def bufSize : Nat := 20

/-- `bi_prefix[]` -/
def biPrefix : Text := ascii [' ', 'k', 'M', 'G', 'T']

section
variable {w : Nat}

/-! ## `vprintf` -/

/-- What stands between `%` and the argument; `prefix == '0'` is `zero`. -/
structure Directive where
  hash : Bool
  zero : Bool
  len  : Unsigned
  conv : BitVec 8

/-- `while (c >= '0' && c <= '9')` -/
def parseWidth : Text → Unsigned → Unsigned × Text
  | [],     len => (len, [])
  | c :: f, len => if isDigit 10 c then parseWidth f (len * 10 + (c.setWidth 32 - 48)) else (len, c :: f)

def skip (c : BitVec 8) (f : Text) : Bool × Text := if deref f = c then (true, f.tail) else (false, f)

def parseDirective (f : Text) : Directive × Text :=
  let h := skip (code '#') f
  let z := skip (code '0') h.2
  let l := parseWidth z.2 0
  (⟨h.1, z.1, l.1, deref l.2⟩, l.2.tail)

structure Printf where
  buf         : Mem
  /-- The indices at which `bi_prefix[]` was read. -/
  prefixReads : List Nat
  /-- What went to `putch()`. -/
  out         : Text

def Printf.put (s : Printf) (text : Text) : Printf := { s with out := s.out ++ text }

/-- The code behind `string:`; `len` is an `int`. -/
def Printf.putString (s : Printf) (zero : Bool) (len : Unsigned) (text : Text) : Printf :=
  s.put (List.replicate (len - BitVec.ofNat 32 text.length).toInt.toNat (code (if zero then '0' else ' ')) ++ text)

/-- The loop of `%#u`: the value and `bi_pref_idx`. -/
def dropUnits : Nat → BitVec w → Nat → Option (BitVec w × Nat)
  | 0,        _,     _   => none
  | fuel + 1, value, idx =>
    if value ≥ 1024 ∧ value % 1024 = 0 then dropUnits fuel (value >>> 10) (idx + 1) else some (value, idx)

/-- `%#u`: the text, a blank and the unit. -/
def convertUnits (fuel : Nat) (value : BitVec w) (s : Printf) : Option Printf := do
  let (value, idx) ← dropUnits fuel value 0
  let m ← itoa fuel 0 (code 'u') value s.buf
  let l := (← m.untilNul fuel 0).length
  let m := ((m.poke l (code ' ')).poke (l + 1) (biPrefix.getD idx 0)).poke (l + 2) 0
  some { s with buf := m, prefixReads := s.prefixReads ++ [idx] }

/-- What a numeric conversion leaves in `buf`. -/
def convert (fuel : Nat) (c : BitVec 8) (hash : Bool) (value : BitVec w) (s : Printf) : Option Printf :=
  if c = code 'u' ∧ hash then convertUnits fuel value s
  else do
    let m ← if (c = code 'x' ∨ c = code 'p') ∧ hash then itoa fuel 2 c value ((s.buf.poke 0 (code '0')).poke 1 (code 'x'))
      else itoa fuel 0 c value s.buf
    some { s with buf := m }

def numericConvs : Text := ascii ['d', 'i', 'u', 'x', 'p']

/-- One conversion with its argument. -/
def Printf.directive (strings : BitVec w → Text) (fuel : Nat) (d : Directive) (value : BitVec w) (s : Printf) :
    Option Printf :=
  if d.conv ∈ numericConvs then do
    let s ← convert fuel d.conv d.hash value s
    let text ← s.buf.untilNul fuel 0
    some (s.putString d.zero (if d.conv = code 'u' ∧ d.hash ∧ d.len = 0 then 6 else d.len) text)
  else if d.conv = code 's' then
    some (s.putString d.zero d.len (if value = 0 then ascii ['(', 'n', 'u', 'l', 'l', ')'] else strings value))
  else some (s.put [value.setWidth 8])

def vprintf (strings : BitVec w → Text) : Nat → Text → List (BitVec w) → Printf → Option Printf
  | 0,        _, _,    _ => none
  | fuel + 1, f, args, s =>
    if deref f = 0 then some s
    else if deref f = code '%' then
      let d := parseDirective f.tail
      (s.directive strings fuel d.1 (args.headD 0)).bind fun s => vprintf strings fuel d.2 args.tail s
    else vprintf strings fuel f.tail args (s.put [deref f])

/-! ## What `itoa` writes -/

/-- **A text of `len` bytes with its NUL was put at `lo`.** -/
structure Puts (lo len : Nat) (m m' : Mem) : Prop where
  writes : Mem.Writes lo (lo + len + 1) m m'
  last   : lo + len ∈ m'.written
  text   : ∀ i < len, m'.bytes (lo + i) ≠ 0
  nul    : m'.bytes (lo + len) = 0

/-- A character in front. -/
theorem Puts.cons {lo len : Nat} {m m' : Mem} {c : BitVec 8} (hc : c ≠ 0) (h : Puts (lo + 1) len (m.poke lo c) m') :
    Puts lo (len + 1) m m' := by
  have hend : lo + 1 + len = lo + (len + 1) := by omega
  refine ⟨?_, hend ▸ h.last, fun i hi => ?_, hend ▸ h.nul⟩
  · exact .trans (.poke m (Nat.le_refl lo) (by omega) c) (h.writes.mono (Nat.le_succ lo) (by omega))
  · cases i with
    | zero =>
      rw [Nat.add_zero, h.writes.kept lo (by omega), Mem.bytes_poke_self]
      exact hc
    | succ i =>
      have hi' : lo + (i + 1) = lo + 1 + i := by omega
      rw [hi']
      exact h.text i (Nat.lt_of_succ_lt_succ hi)

theorem Wrote.puts {buf : Nat} {t : Text} {m m' : Mem} (h : Wrote buf t m m') (h0 : 0 ∉ t) : Puts buf t.length m m' := by
  refine ⟨h.writes, h.last, fun i hi he => h0 ?_, ?_⟩
  · rw [h.str.bytes i (Nat.le_of_lt hi), List.getD_eq_getElem t 0 hi] at he
    exact he ▸ List.getElem_mem hi
  · rw [h.str.bytes _ (Nat.le_refl _), List.getD_eq_default t 0 (Nat.le_refl _)]

/-- The length of what `itoa()` puts, without the NUL. -/
def textLen (base : BitVec 8) (d : BitVec w) : Nat :=
  if base = code 'd' ∧ d.toInt < 0 then Nat.log 10 (-d).toNat + 2
  else if base = code 'x' ∨ base = code 'p' then Nat.log 16 d.toNat + 1
  else Nat.log 10 d.toNat + 1

theorem log_lt_width (ud : BitVec w) (d : Nat) (h : 1 < d) (hw : 0 < w) : Nat.log d ud.toNat < w := by
  have hpow : ud.toNat < d ^ w := Nat.lt_of_lt_of_le ud.isLt (Nat.pow_le_pow_left h w)
  exact Nat.log_lt_of_lt_pow' (Nat.ne_of_gt hw) hpow

theorem length_numeralOf (base : BitVec 8) (d : BitVec w) : (numeralOf base d).length = textLen base d := by
  have hlog (n : Nat) := numeral_length (show 1 < 10 by decide) n
  rw [numeralOf, textLen]
  by_cases hd : base = code 'd'
  · have hx : ¬ (base = code 'x' ∨ base = code 'p') := by rw [hd]; decide
    rw [if_pos hd, if_neg hx]
    by_cases hneg : d.toInt < 0
    · rw [if_pos ⟨hd, hneg⟩, signedNumeral_of_neg hneg, List.length_cons, hlog]
    · rw [if_neg (fun h => hneg h.2), signedNumeral_of_nonneg hneg, hlog]
  · rw [if_neg hd, if_neg (fun h : base = code 'd' ∧ _ => hd h.1)]
    split
    · exact numeral_length (by decide) d.toNat
    · exact hlog d.toNat

theorem itoa_ends (hw : 32 ≤ w) (buf : Nat) (base : BitVec 8) (d : BitVec w) (m : Mem) :
    ∃ m', (∀ fuel ≥ w, itoa fuel buf base d m = some m') ∧ Puts buf (textLen base d) m m' := by
  obtain ⟨m', hrun, hwrote⟩ := itoa_text hw buf base d m
  exact ⟨m', hrun, length_numeralOf base d ▸ hwrote.puts (nul_notMem_numeralOf base d)⟩

/-! ## The units of `%#u` -/

/-- The value divided by 1024 as long as nothing is lost. -/
structure Dropped (v q idx : Nat) : Prop where
  value : v = q * 1024 ^ idx
  stop  : q < 1024 ∨ q % 1024 ≠ 0
  pos   : idx = 0 ∨ 0 < q

theorem dropUnits_ends (hw : 32 ≤ w) : ∀ (n : Nat) {value : BitVec w} (i : Nat), value.toNat < 1024 ^ (n + 1) →
    ∃ q idx, (∀ fuel > n, dropUnits fuel value i = some (q, i + idx)) ∧ Dropped value.toNat q.toNat idx := by
  have h1024 : (1024 : BitVec w).toNat = 1024 := toNat_small hw (by decide)
  have hmore (value : BitVec w) : value ≥ 1024 ∧ value % 1024 = 0 ↔ 1024 ≤ value.toNat ∧ value.toNat % 1024 = 0 := by
    rw [ge_iff_le, BitVec.le_def, ← BitVec.toNat_inj, BitVec.toNat_umod, h1024]
    exact Iff.rfl
  intro n
  induction n with
  | zero =>
    intro value i hv
    have hstop : ¬ (value ≥ 1024 ∧ value % 1024 = 0) := fun h => by
      have hle := ((hmore value).1 h).1
      omega
    exact ⟨value, 0, forall_fuel fun k _ => if_neg hstop, by omega, .inl (by omega), .inl rfl⟩
  | succ n ih =>
    intro value i hv
    by_cases hc : value ≥ 1024 ∧ value % 1024 = 0
    · obtain ⟨hge, hmod⟩ := (hmore value).1 hc
      have hshift : (value >>> 10).toNat = value.toNat / 1024 := by
        rw [BitVec.toNat_ushiftRight, Nat.shiftRight_eq_div_pow]
      have hlt : (value >>> 10).toNat < 1024 ^ (n + 1) := by
        rw [hshift]
        exact Nat.div_lt_of_lt_mul (by rwa [Nat.mul_comm, ← Nat.pow_succ])
      obtain ⟨q, idx, hrun, hvalue, hstop, hpos⟩ := ih (i + 1) hlt
      have hback : value.toNat = q.toNat * 1024 ^ (idx + 1) := by
        rw [Nat.pow_succ, ← Nat.mul_assoc, ← hvalue, hshift]
        omega
      have hidx : i + 1 + idx = i + (idx + 1) := by omega
      refine ⟨q, idx + 1, forall_fuel fun k hk => (if_pos hc).trans (hidx ▸ hrun k hk), hback, hstop,
        .inr (Nat.pos_of_ne_zero fun hz => ?_)⟩
      rw [hz, Nat.zero_mul] at hback
      omega
    · refine ⟨value, 0, forall_fuel fun k _ => if_neg hc, by omega, ?_, .inl rfl⟩
      by_contra hno
      exact hc ((hmore value).2 (by omega))

theorem log_lt_iff (d n k : Nat) (hd : 1 < d) (hk : k ≠ 0) : Nat.log d n < k ↔ n < d ^ k :=
  ⟨Nat.lt_pow_of_log_lt hd, Nat.log_lt_of_lt_pow' hk⟩

/-- Only a value that is not divided has a text that is too long. -/
theorem Dropped.text_iff {v q idx : Nat} (h : Dropped v q idx) (hv : v < 2 ^ 64) :
    q < 10 ^ 17 ↔ (v % 1024 ≠ 0 → v < 10 ^ 17) := by
  cases idx with
  | zero =>
    have hq : v = q := by rw [h.value, Nat.pow_zero, Nat.mul_one]
    rw [hq]
    refine ⟨fun hlt _ => hlt, fun hlt => ?_⟩
    rcases h.stop with hs | hs
    · omega
    · exact hlt hs
  | succ k =>
    have hback : v = q * 1024 ^ k * 1024 := by rw [h.value, Nat.pow_succ, Nat.mul_assoc]
    have hle : q ≤ q * 1024 ^ k := Nat.le_mul_of_pos_right q (Nat.pow_pos (by decide))
    have hlt : q < 10 ^ 17 := by omega
    exact iff_of_true hlt (fun hne => absurd (by omega) hne)

theorem Dropped.unit_iff {v q idx : Nat} (h : Dropped v q idx) (n : Nat) : idx < n + 1 ↔ (1024 ^ (n + 1) ∣ v → v = 0) := by
  constructor
  · intro hlt hdvd
    by_contra hne
    have hq : 1024 ∣ q := by
      have hsplit : 1024 ^ (n + 1) = 1024 * 1024 ^ (n - idx) * 1024 ^ idx := by
        rw [Nat.mul_assoc, ← Nat.pow_add, Nat.sub_add_cancel (Nat.le_of_lt_succ hlt), Nat.pow_succ, Nat.mul_comm]
      rw [h.value, hsplit] at hdvd
      exact Nat.dvd_trans ⟨_, rfl⟩ (Nat.dvd_of_mul_dvd_mul_right (Nat.pow_pos (by decide)) hdvd)
    have hz : q = 0 := by
      rcases h.stop with hs | hs
      · exact Nat.eq_zero_of_dvd_of_lt hq hs
      · exact absurd (Nat.mod_eq_zero_of_dvd hq) hs
    have hzero := h.value
    rw [hz, Nat.zero_mul] at hzero
    exact hne hzero
  · intro hdvd
    by_contra hge
    have hd : 1024 ^ (n + 1) ∣ v := by
      rw [h.value]
      exact Nat.dvd_trans (Nat.pow_dvd_pow 1024 (Nat.le_of_not_lt hge)) (Nat.dvd_mul_left _ _)
    have hq : 0 < q := h.pos.resolve_left (by omega)
    have hvpos : 0 < v := by
      rw [h.value]
      exact Nat.mul_pos hq (Nat.pow_pos (by decide))
    exact Nat.ne_of_gt hvpos (hdvd hd)

/-- **The unit is in the table unless 2^50 divides the value, and the text fits below 10^17.** -/
theorem Dropped.fits {v q idx : Nat} (h : Dropped v q idx) (hv : v < 2 ^ 64) :
    (Nat.log 10 q + 3 < bufSize ∧ idx < biPrefix.length) ↔ (v % 1024 ≠ 0 → v < 10 ^ 17) ∧ (2 ^ 50 ∣ v → v = 0) := by
  have htext : Nat.log 10 q + 3 < bufSize ↔ q < 10 ^ 17 := by
    rw [← log_lt_iff 10 q 17 (by decide) (by decide)]
    have hsize : bufSize = 20 := rfl
    omega
  have hpow : (2 : Nat) ^ 50 = 1024 ^ (4 + 1) := by decide
  rw [htext, h.text_iff hv, hpow]
  exact and_congr_right' (h.unit_iff 4)

/-! ## What a conversion writes -/

/-- `e` is the last byte that was written, and a NUL. -/
structure EndsAt (e : Nat) (m m' : Mem) : Prop where
  writes : Mem.Writes 0 (e + 1) m m'
  last   : e ∈ m'.written
  nul    : m'.bytes e = 0

theorem EndsAt.inside_iff {e n : Nat} {m m' : Mem} (h : EndsAt e m m') (hm : m.written = []) :
    (∀ a ∈ m'.written, a < n) ↔ e < n := by
  refine ⟨fun hall => hall e h.last, fun he a ha => ?_⟩
  rcases h.writes.new a ha with hold | hnew
  · rw [hm] at hold
    exact absurd hold List.not_mem_nil
  · omega

theorem convertUnits_ends (hw : 32 ≤ w) (value : BitVec w) (s : Printf) : ∃ q idx s', Dropped value.toNat q idx ∧
    Nat.log 10 q < w ∧ (∀ fuel > w + 1, convertUnits fuel value s = some s') ∧ EndsAt (Nat.log 10 q + 3) s.buf s'.buf ∧
    s'.prefixReads = s.prefixReads ++ [idx] := by
  have hlt : value.toNat < 1024 ^ (w + 1) := Nat.lt_of_lt_of_le value.isLt
    (Nat.le_trans (Nat.pow_le_pow_left (show 2 ≤ 1024 by decide) w) (Nat.pow_le_pow_right (by decide) (Nat.le_succ w)))
  obtain ⟨q, idx, hdrop, hd⟩ := dropUnits_ends hw w 0 hlt
  obtain ⟨m, hrun, hputs⟩ := itoa_ends hw 0 (code 'u') q s.buf
  have hlen : textLen (code 'u') q = Nat.log 10 q.toNat + 1 := by
    unfold textLen
    rw [if_neg (fun h => absurd h.1 (by decide)), if_neg (by decide)]
  have hlog := log_lt_width q 10 (by decide) (by omega)
  rw [hlen] at hputs
  obtain ⟨t, ht, hstr⟩ := Mem.untilNul_length _ hputs.text hputs.nul
  have hl : t.length + 2 = Nat.log 10 q.toNat + 3 := by omega
  have hend : EndsAt (t.length + 2) s.buf
      (((m.poke t.length (code ' ')).poke (t.length + 1) (biPrefix.getD idx 0)).poke (t.length + 2) 0) := by
    refine ⟨?_, List.mem_cons_self, Mem.bytes_poke_self _ _ _⟩
    have hfirst := (hputs.writes.mono (Nat.le_refl 0) (show _ ≤ t.length + 2 + 1 by omega)).trans
      (.poke m (Nat.zero_le t.length) (by omega) (code ' '))
    exact (hfirst.trans (.poke _ (Nat.zero_le _) (by omega) _)).trans (.poke _ (Nat.zero_le _) (by omega) _)
  rw [hl] at hend
  refine ⟨q.toNat, idx, { s with buf := _, prefixReads := s.prefixReads ++ [idx] }, hd, hlog, fun fuel hf => ?_, hend, rfl⟩
  unfold convertUnits
  rw [hdrop fuel (by omega)]
  simp only [Option.bind_eq_bind, Option.bind_some, Nat.zero_add, hrun fuel (by omega), hstr fuel (by omega), hl]
  rfl

/-- The last byte of the other conversions. -/
def lastByte (c : BitVec 8) (hash : Bool) (value : BitVec w) : Nat :=
  if (c = code 'x' ∨ c = code 'p') ∧ hash then 2 + textLen c value else textLen c value

theorem Puts.endsAt {lo len : Nat} {m m' : Mem} (h : Puts lo len m m') : EndsAt (lo + len) m m' :=
  ⟨h.writes.mono (Nat.zero_le lo) (Nat.le_refl _), h.last, h.nul⟩

theorem convert_ends (hw : 32 ≤ w) {c : BitVec 8} {hash : Bool} (hu : ¬ (c = code 'u' ∧ hash)) (value : BitVec w)
    (s : Printf) :
    ∃ s', (∀ fuel > w + 1, convert fuel c hash value s = some s') ∧ EndsAt (lastByte c hash value) s.buf s'.buf ∧
      s'.prefixReads = s.prefixReads := by
  unfold lastByte
  by_cases hx : (c = code 'x' ∨ c = code 'p') ∧ hash
  · rw [if_pos hx]
    obtain ⟨m, hrun, hputs⟩ := itoa_ends hw 2 c value ((s.buf.poke 0 (code '0')).poke 1 (code 'x'))
    refine ⟨{ s with buf := m }, fun fuel hf => ?_, ?_, rfl⟩
    · unfold convert
      rw [if_neg hu, if_pos hx, hrun fuel (by omega)]
      rfl
    · have hend := (Puts.cons (by decide) (Puts.cons (by decide) hputs)).endsAt
      have htwo : 0 + (textLen c value + 1 + 1) = 2 + textLen c value := by omega
      rwa [htwo] at hend
  · rw [if_neg hx]
    obtain ⟨m, hrun, hputs⟩ := itoa_ends hw 0 c value s.buf
    refine ⟨{ s with buf := m }, fun fuel hf => ?_, ?_, rfl⟩
    · unfold convert
      rw [if_neg hu, if_neg hx, hrun fuel (by omega)]
      rfl
    · have hend := hputs.endsAt
      rwa [Nat.zero_add] at hend

/-! ## The format -/

def formatOf (hash : Bool) (digits : Text) (c : BitVec 8) : Text :=
  code '%' :: ((if hash then [code '#'] else []) ++ (digits ++ [c]))

theorem isDigit_conv {c : BitVec 8} (hc : c ∈ numericConvs) : ¬ isDigit 10 c ∧ c ≠ code '#' ∧ c ≠ code '0' := by
  have hall : ∀ c ∈ numericConvs, ¬ isDigit 10 c ∧ c ≠ code '#' ∧ c ≠ code '0' := by decide
  exact hall c hc

theorem parseWidth_digits {c : BitVec 8} (hc : ¬ isDigit 10 c) :
    ∀ {digits : Text} {len : Unsigned}, (∀ x ∈ digits, isDigit 10 x) →
    (parseWidth (digits ++ [c]) len).2 = [c]
  | [], len, _ => by
    rw [List.nil_append, parseWidth, if_neg hc]
  | x :: digits, len, h => by
    rw [List.cons_append, parseWidth, if_pos (h x List.mem_cons_self)]
    exact parseWidth_digits hc (fun y hy => h y (List.mem_cons_of_mem x hy))

theorem parseDirective_format (hash : Bool) {digits : Text} (hd : ∀ x ∈ digits, isDigit 10 x) {c : BitVec 8}
    (hc : c ∈ numericConvs) :
    (parseDirective (formatOf hash digits c).tail).1.hash = hash ∧ (parseDirective (formatOf hash digits c).tail).1.conv = c ∧
      (parseDirective (formatOf hash digits c).tail).2 = [] := by
  obtain ⟨hdigit, hsharp, hzero⟩ := isDigit_conv hc
  have hhash : skip (code '#') (formatOf hash digits c).tail = (hash, digits ++ [c]) := by
    cases hash with
    | true => rfl
    | false =>
      refine if_neg ?_
      cases digits with
      | nil => exact hsharp
      | cons x digits =>
        have hx : isDigit 10 x := hd x List.mem_cons_self
        rintro (rfl : x = code '#')
        exact absurd hx (by decide)
  have hwidth : ∃ z digits', (∀ x ∈ digits', isDigit 10 x) ∧ skip (code '0') (digits ++ [c]) = (z, digits' ++ [c]) := by
    cases digits with
    | nil => exact ⟨false, [], hd, if_neg hzero⟩
    | cons x digits =>
      by_cases hx : x = code '0'
      · exact ⟨true, digits, fun y hy => hd y (List.mem_cons_of_mem x hy), if_pos hx⟩
      · exact ⟨false, x :: digits, hd, if_neg hx⟩
  obtain ⟨z, digits', hd', hskip⟩ := hwidth
  unfold parseDirective
  simp only [hhash, hskip, parseWidth_digits hdigit hd']
  exact ⟨trivial, rfl, rfl⟩

/-! ## The bounds -/

/-- **The accesses stay in `buf` and in `bi_prefix[]`.** -/
structure Printf.Inside (s : Printf) : Prop where
  buf  : ∀ a ∈ s.buf.written, a < bufSize
  unit : ∀ i ∈ s.prefixReads, i < biPrefix.length

/-- The values of 64 bits that fit. -/
structure Fits (c : BitVec 8) (hash : Bool) (value : BitVec w) : Prop where
  signed   : c = code 'd' → -10 ^ 18 < value.toInt
  unsigned : c = code 'i' ∨ c = code 'u' ∧ ¬ hash → value.toNat < 10 ^ 19
  text     : c = code 'u' ∧ hash → value.toNat % 1024 ≠ 0 → value.toNat < 10 ^ 17
  unit     : c = code 'u' ∧ hash → 2 ^ 50 ∣ value.toNat → value.toNat = 0

theorem toNat_lt_of_nonneg (hw : w ≤ 64) {d : BitVec w} (h : ¬ d.toInt < 0) : d.toNat < 2 ^ 63 := by
  have hpow : 2 ^ w ≤ 2 ^ 64 := Nat.pow_le_pow_right (by decide) hw
  rw [BitVec.toInt_eq_toNat_cond] at h
  split at h
  · omega
  · have hlt := d.isLt
    omega

theorem fits_signed {hash : Bool} {value : BitVec w} : Fits (code 'd') hash value ↔ -10 ^ 18 < value.toInt := by
  refine ⟨fun h => h.signed rfl, fun h => ⟨fun _ => h, fun hc => ?_, fun hc => absurd hc.1 (by decide),
    fun hc => absurd hc.1 (by decide)⟩⟩
  rcases hc with hc | hc
  · exact absurd hc (by decide)
  · exact absurd hc.1 (by decide)

theorem fits_unsigned {c : BitVec 8} {hash : Bool} {value : BitVec w} (hc : c = code 'i' ∨ c = code 'u' ∧ ¬ hash) :
    Fits c hash value ↔ value.toNat < 10 ^ 19 := by
  have hd : c ≠ code 'd' := by rcases hc with rfl | ⟨rfl, -⟩ <;> decide
  have hu : ¬ (c = code 'u' ∧ hash) := by
    rintro ⟨rfl, hh⟩
    rcases hc with hc | hc
    · exact absurd hc (by decide)
    · exact hc.2 hh
  exact ⟨fun h => h.unsigned hc,
    fun h => ⟨fun h' => absurd h' hd, fun _ => h, fun h' => absurd h' hu, fun h' => absurd h' hu⟩⟩

theorem fits_hex {c : BitVec 8} (hc : c = code 'x' ∨ c = code 'p') (hash : Bool) (value : BitVec w) : Fits c hash value := by
  have hd : c ≠ code 'd' := by rcases hc with rfl | rfl <;> decide
  have hi : c ≠ code 'i' := by rcases hc with rfl | rfl <;> decide
  have hu : c ≠ code 'u' := by rcases hc with rfl | rfl <;> decide
  exact ⟨fun h => absurd h hd, fun h => absurd h (by simp [hi, hu]), fun h => absurd h.1 hu, fun h => absurd h.1 hu⟩

theorem fits_units {value : BitVec w} : Fits (code 'u') true value ↔
    (value.toNat % 1024 ≠ 0 → value.toNat < 10 ^ 17) ∧ (2 ^ 50 ∣ value.toNat → value.toNat = 0) := by
  refine ⟨fun h => ⟨h.text ⟨rfl, rfl⟩, h.unit ⟨rfl, rfl⟩⟩,
    fun h => ⟨fun hc => absurd hc (by decide), fun hc => ?_, fun _ => h.1,
    fun _ => h.2⟩⟩
  rcases hc with hc | hc
  · exact absurd hc (by decide)
  · exact absurd rfl hc.2

/-- **All but `%#u`: the last byte is in `buf` exactly if the value fits.** -/
theorem lastByte_lt_iff (hw : w ≤ 64) {c : BitVec 8} (hc : c ∈ numericConvs) {hash : Bool} (hu : ¬ (c = code 'u' ∧ hash))
    (value : BitVec w) : lastByte c hash value < bufSize ↔ Fits c hash value := by
  have hsize : bufSize = 20 := rfl
  have hvalue : value.toNat < 2 ^ 64 := Nat.lt_of_lt_of_le value.isLt (Nat.pow_le_pow_right (by decide) hw)
  have hcases : c = code 'd' ∨ (c = code 'i' ∨ c = code 'u') ∨ c = code 'x' ∨ c = code 'p' := by
    have hall : ∀ c ∈ numericConvs, c = code 'd' ∨ (c = code 'i' ∨ c = code 'u') ∨ c = code 'x' ∨ c = code 'p' := by decide
    exact hall c hc
  rcases hcases with rfl | hdec | hhex
  · rw [fits_signed, hsize, lastByte, if_neg (fun h => absurd h.1 (by decide)), textLen]
    by_cases hneg : value.toInt < 0
    · have habs := toNat_neg_of_neg hneg
      have hlog := log_lt_iff 10 (-value).toNat 18 (by decide) (by decide)
      rw [if_pos ⟨rfl, hneg⟩]
      omega
    · have hlog : Nat.log 10 value.toNat < 19 :=
        (log_lt_iff _ _ _ (by decide) (by decide)).2 (Nat.lt_trans (toNat_lt_of_nonneg hw hneg) (by decide))
      rw [if_neg (fun h => hneg h.2), if_neg (by decide)]
      omega
  · have hd : c ≠ code 'd' := by rcases hdec with rfl | rfl <;> decide
    have hx : ¬ (c = code 'x' ∨ c = code 'p') := by rcases hdec with rfl | rfl <;> decide
    have hlog := log_lt_iff 10 value.toNat 19 (by decide) (by decide)
    rw [fits_unsigned (hdec.imp_right fun h => ⟨h, fun hh => hu ⟨h, hh⟩⟩), hsize, lastByte, if_neg (fun h => hx h.1), textLen,
      if_neg (fun h => hd h.1), if_neg hx]
    omega
  · have hd : c ≠ code 'd' := by rcases hhex with rfl | rfl <;> decide
    have hlog : Nat.log 16 value.toNat < 16 :=
      (log_lt_iff _ _ _ (by decide) (by decide)).2 (Nat.lt_of_lt_of_le hvalue (by decide))
    have htext : textLen c value = Nat.log 16 value.toNat + 1 := by
      rw [textLen, if_neg (fun h => hd h.1), if_pos hhex]
    refine iff_of_true ?_ (fits_hex hhex hash value)
    rw [lastByte, htext, hsize]
    split <;> omega

theorem lastByte_le (hw : 0 < w) (c : BitVec 8) (hash : Bool) (value : BitVec w) : lastByte c hash value ≤ w + 3 := by
  have hneg := log_lt_width (-value) 10 (by decide) hw
  have hten := log_lt_width value 10 (by decide) hw
  have hsixteen := log_lt_width value 16 (by decide) hw
  have htext : textLen c value ≤ w + 1 := by
    unfold textLen
    split
    · omega
    · split <;> omega
  unfold lastByte
  split <;> omega

/-- What the array holds at first. -/
def Printf.start (bytes : Nat → BitVec 8) : Printf := ⟨⟨bytes, []⟩, [], []⟩

/-- **One conversion in `buf`.** -/
theorem convert_inside (hw : 32 ≤ w) (hw' : w ≤ 64) (bytes : Nat → BitVec 8) {c : BitVec 8} (hc : c ∈ numericConvs)
    (hash : Bool) (value : BitVec w) : ∃ s e, e ≤ w + 3 ∧ s.buf.bytes e = 0 ∧
      (∀ fuel > w + 1, convert fuel c hash value (.start bytes) = some s) ∧ (s.Inside ↔ Fits c hash value) := by
  by_cases hu : c = code 'u' ∧ hash
  · obtain ⟨q, idx, s, hd, hlog, hrun, hend, hreads⟩ := convertUnits_ends hw value (.start bytes)
    have hvalue : value.toNat < 2 ^ 64 := Nat.lt_of_lt_of_le value.isLt (Nat.pow_le_pow_right (by decide) hw')
    refine ⟨s, Nat.log 10 q + 3, by omega, hend.nul, fun fuel hf => (if_pos hu).trans (hrun fuel hf), ?_⟩
    obtain ⟨rfl, rfl⟩ := hu
    rw [fits_units, ← hd.fits hvalue, ← hend.inside_iff rfl]
    refine ⟨fun h => ⟨h.buf, h.unit idx ?_⟩, fun h => ⟨h.1, fun i hi => ?_⟩⟩
    · rw [hreads]
      exact List.mem_append_right _ List.mem_cons_self
    · rw [hreads] at hi
      rw [List.mem_singleton.1 hi]
      exact h.2
  · obtain ⟨s, hrun, hend, hreads⟩ := convert_ends hw hu value (.start bytes)
    refine ⟨s, lastByte c hash value, lastByte_le (by omega) c hash value, hend.nul, hrun, ?_⟩
    rw [← lastByte_lt_iff hw' hc hu, ← hend.inside_iff rfl]
    refine ⟨fun h => h.buf, fun h => ⟨h, fun i hi => ?_⟩⟩
    rw [hreads] at hi
    exact absurd hi List.not_mem_nil

theorem inside_putString (s : Printf) (zero : Bool) (len : Unsigned) (text : Text) :
    (s.putString zero len text).Inside ↔ s.Inside := ⟨fun h => ⟨h.buf, h.unit⟩, fun h => ⟨h.buf, h.unit⟩⟩

theorem directive_inside (hw : 32 ≤ w) (hw' : w ≤ 64) (strings : BitVec w → Text) (bytes : Nat → BitVec 8) {d : Directive}
    (hc : d.conv ∈ numericConvs) (value : BitVec w) :
    ∃ s, (∀ fuel > w + 3, (Printf.start bytes).directive strings fuel d value = some s) ∧
      (s.Inside ↔ Fits d.conv d.hash value) := by
  obtain ⟨s, e, he, hnul, hrun, hinside⟩ := convert_inside hw hw' bytes hc d.hash value
  obtain ⟨t, -, hstr⟩ := Mem.untilNul_ends e (p := 0) (by rwa [Nat.zero_add])
  refine ⟨s.putString d.zero (if d.conv = code 'u' ∧ d.hash ∧ d.len = 0 then 6 else d.len) t, fun fuel hf => ?_,
    (inside_putString s _ _ t).trans hinside⟩
  unfold Printf.directive
  rw [if_pos hc, hrun fuel (by omega)]
  simp only [Option.bind_eq_bind, Option.bind_some, hstr fuel (show fuel > e by omega)]

theorem vprintf_conversion (hw : 32 ≤ w) (hw' : w ≤ 64) (strings : BitVec w → Text) (bytes : Nat → BitVec 8) (hash : Bool)
    {digits : Text} (hd : ∀ x ∈ digits, isDigit 10 x) {c : BitVec 8} (hc : c ∈ numericConvs) (value : BitVec w) :
    ∃ s, (∀ fuel > w + 4, vprintf strings fuel (formatOf hash digits c) [value] (.start bytes) = some s) ∧
      (s.Inside ↔ Fits c hash value) := by
  obtain ⟨hhash, hconv, hrest⟩ := parseDirective_format hash hd hc
  obtain ⟨s, hrun, hinside⟩ := directive_inside hw hw' strings bytes (d := (parseDirective (formatOf hash digits c).tail).1)
    (hconv.symm ▸ hc) value
  rw [hconv, hhash] at hinside
  have hend : ∀ fuel > w + 3, vprintf strings fuel [] [] s = some s := forall_fuel fun k _ => rfl
  refine ⟨s, forall_fuel fun k hk => ?_, hinside⟩
  have hfirst : vprintf strings (k + 1) (formatOf hash digits c) [value] (.start bytes) =
      ((Printf.start bytes).directive strings k (parseDirective (formatOf hash digits c).tail).1 value).bind fun s =>
        vprintf strings k (parseDirective (formatOf hash digits c).tail).2 [] s := rfl
  rw [hfirst, hrun k hk, hrest]
  exact hend k hk

theorem fits_b32 (c : BitVec 8) (hash : Bool) (value : BitVec 32) : Fits c hash value := by
  have hlt := value.isLt
  have hint := BitVec.le_toInt value
  refine ⟨fun _ => by omega, fun _ => by omega, fun _ _ => by omega, fun _ hdvd => ?_⟩
  exact Nat.eq_zero_of_dvd_of_lt hdvd (Nat.lt_trans hlt (by decide))

/-- **In the 32-bit build every conversion stays in its arrays, in the 64-bit build those whose value fits.** -/
theorem vprintf_inside_iff (b : Build) (strings : BitVec b.longBits → Text) (bytes : Nat → BitVec 8) (hash : Bool)
    {digits : Text} (hd : ∀ x ∈ digits, isDigit 10 x) {c : BitVec 8} (hc : c ∈ numericConvs) (value : BitVec b.longBits) :
    ∃ s, (∀ fuel > b.longBits + 4, vprintf strings fuel (formatOf hash digits c) [value] (.start bytes) = some s) ∧
      (s.Inside ↔ (b = .b64 → Fits c hash value)) := by
  cases b with
  | b32 =>
    obtain ⟨s, hrun, hinside⟩ := vprintf_conversion (w := 32) (by decide) (by decide) strings bytes hash hd hc value
    exact ⟨s, hrun, iff_of_true (hinside.2 (fits_b32 c hash value)) (fun h => nomatch h)⟩
  | b64 =>
    obtain ⟨s, hrun, hinside⟩ := vprintf_conversion (w := 64) (by decide) (by decide) strings bytes hash hd hc value
    exact ⟨s, hrun, hinside.trans ⟨fun h _ => h, fun h => h rfl⟩⟩

theorem vprintf_inside_fourK : ∃ s, (∀ fuel > 68, vprintf (fun _ : BitVec Build.b64.longBits => []) fuel
    (formatOf true [code '0', code '8'] (code 'u')) [4096] (.start fun _ => 0) = some s) ∧ s.Inside := by
  obtain ⟨s, hrun, hinside⟩ := vprintf_inside_iff .b64 (fun _ => []) (fun _ => 0) true
    (show ∀ x ∈ [code '0', code '8'], isDigit 10 x by decide) (show code 'u' ∈ numericConvs by decide) 4096
  exact ⟨s, hrun, hinside.2 fun _ => fits_units.2 (by decide)⟩

def Overruns (hash : Bool) (c : BitVec 8) (value : BitVec 64) : Prop := ∃ s : Printf,
  (∀ fuel > 68, vprintf (fun _ => []) fuel (formatOf hash [] c) [value] (.start fun _ => 0) = some s) ∧ ¬ s.Inside

theorem overruns_of {hash : Bool} {c : BitVec 8} (hc : c ∈ numericConvs) {value : BitVec 64} (hf : ¬ Fits c hash value) :
    Overruns hash c value := by
  obtain ⟨s, hrun, hinside⟩ := vprintf_conversion (by decide) (by decide) (fun _ => []) (fun _ => 0) hash
    (fun _ h => absurd h List.not_mem_nil) hc value
  exact ⟨s, hrun, hinside.not.2 hf⟩

/-- `%i` of -1, `%d` of -10^18 and `%#u` of 2^50. -/
theorem vprintf_outside : Overruns false (code 'i') (-1) ∧ Overruns false (code 'd') (-1000000000000000000) ∧
    Overruns true (code 'u') 0x4000000000000 := by
  refine ⟨overruns_of (by decide) fun h => ?_, overruns_of (by decide) fun h => ?_, overruns_of (by decide) fun h => ?_⟩
  · exact absurd (h.unsigned (.inl rfl)) (by decide)
  · exact absurd (h.signed rfl) (by decide)
  · exact absurd (h.unit ⟨rfl, rfl⟩ (by decide)) (by decide)

end

end SmpBoot
