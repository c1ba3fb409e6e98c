import Mathlib.Data.List.Count
import SmpBoot.Printf
/-!
# PrintfLibc — `vprintf()` against the `printf()` of libc

The comment over `printf()` promises the output of the libc function.  A format is given by its pieces, each with its argument;
`Piece.libc` is what libc prints for one with integers of the size of a `long`, `Piece.printed` what `vprintf()` does.
-/
namespace SmpBoot

open ByteMem (Mem)
open Walk (forall_fuel)

/-! ## Texts made of pieces -/

section
variable {α β : Type} {f g : α → List β}

/-- **Texts of pieces of the same lengths are equal piece by piece.** -/
theorem flatMap_inj : ∀ {l : List α}, (∀ a ∈ l, (f a).length = (g a).length) → l.flatMap f = l.flatMap g → ∀ a ∈ l, f a = g a
  | [],     _, _, _, ha => absurd ha List.not_mem_nil
  | b :: l, h, he, a, ha => by
    rw [List.flatMap_cons, List.flatMap_cons] at he
    obtain ⟨hb, hl⟩ := List.append_inj he (h b List.mem_cons_self)
    rcases List.mem_cons.1 ha with rfl | ha
    · exact hb
    · exact flatMap_inj (fun c hc => h c (List.mem_cons_of_mem b hc)) hl a ha

variable [DecidableEq β] {x : β}

theorem count_flatMap_le : ∀ {l : List α}, (∀ a ∈ l, (f a).count x ≤ (g a).count x) →
    (l.flatMap f).count x ≤ (l.flatMap g).count x
  | [],     _ => Nat.le_refl _
  | b :: l, h => by
    rw [List.flatMap_cons, List.flatMap_cons, List.count_append, List.count_append]
    exact Nat.add_le_add (h b List.mem_cons_self) (count_flatMap_le fun c hc => h c (List.mem_cons_of_mem b hc))

theorem count_flatMap_eq : ∀ {l : List α}, (∀ a ∈ l, (f a).count x ≤ (g a).count x) →
    (l.flatMap f).count x = (l.flatMap g).count x → ∀ a ∈ l, (f a).count x = (g a).count x
  | [],     _, _, _, ha => absurd ha List.not_mem_nil
  | b :: l, h, he, a, ha => by
    have hb := h b List.mem_cons_self
    have hrest : ∀ c ∈ l, (f c).count x ≤ (g c).count x := fun c hc => h c (List.mem_cons_of_mem b hc)
    have hl := count_flatMap_le hrest
    rw [List.flatMap_cons, List.flatMap_cons, List.count_append, List.count_append] at he
    rcases List.mem_cons.1 ha with rfl | ha
    · omega
    · exact count_flatMap_eq hrest (by omega) a ha

end

inductive Conv where
  | d
  | i
  | u
  | x
  deriving DecidableEq

def Conv.letter : Conv → BitVec 8
  | .d => code 'd'
  | .i => code 'i'
  | .u => code 'u'
  | .x => code 'x'

/-- A piece of a format with its argument; a width of 0 is none. -/
inductive Piece (w : Nat) where
  | char (c : BitVec 8) (ordinary : c ≠ 0 ∧ c ≠ code '%')
  | number (conv : Conv) (zero : Bool) (width : Nat) (value : BitVec w)
  /-- `%#x` -/
  | hashX (zero : Bool) (width : Nat) (value : BitVec w) (nonzero : value ≠ 0)
  | string (width : Nat) (address : BitVec w) (nonnull : address ≠ 0)

section
variable {w : Nat}

/-! ## The format -/

def widthText (width : Nat) : Text := if width = 0 then [] else numeral 10 width

/-- What stands behind `%`. -/
def convText (hash zero : Bool) (width : Nat) (c : BitVec 8) : Text :=
  (if hash then [code '#'] else []) ++ ((if zero then [code '0'] else []) ++ (widthText width ++ [c]))

def Piece.format : Piece w → Text
  | .char c _                 => [c]
  | .number conv zero width _ => code '%' :: convText false zero width conv.letter
  | .hashX zero width _ _     => code '%' :: convText true zero width (code 'x')
  | .string width _ _         => code '%' :: convText false false width (code 's')

def Piece.args : Piece w → List (BitVec w)
  | .char _ _           => []
  | .number _ _ _ value => [value]
  | .hashX _ _ value _  => [value]
  | .string _ address _ => [address]

/-! ## What libc prints -/

/-- Blanks go in front of the sign or the `0x`, zeros behind it. -/
def libcNumber (zero : Bool) (width : Nat) (sign digits : Text) : Text :=
  let pad := width - (sign.length + digits.length)
  if zero then sign ++ (List.replicate pad (code '0') ++ digits) else List.replicate pad (code ' ') ++ (sign ++ digits)

def signOf (z : Int) : Text := if z < 0 then [code '-'] else []

def libcSigned (zero : Bool) (width : Nat) (z : Int) : Text := libcNumber zero width (signOf z) (numeral 10 z.natAbs)

def Piece.libc (strings : BitVec w → Text) : Piece w → Text
  | .char c _                  => [c]
  | .number .d zero width value => libcSigned zero width value.toInt
  | .number .i zero width value => libcSigned zero width value.toInt
  | .number .u zero width value => libcNumber zero width [] (numeral 10 value.toNat)
  | .number .x zero width value => libcNumber zero width [] (numeral 16 value.toNat)
  | .hashX zero width value _   => libcNumber zero width (ascii ['0', 'x']) (numeral 16 value.toNat)
  | .string width address _     => libcNumber false width [] (strings address)

/-- The output of libc; nothing if it is longer than the `int` that is returned counts. -/
def libcPrintf (strings : BitVec w → Text) (pieces : List (Piece w)) : Option Text :=
  let text := pieces.flatMap (Piece.libc strings)
  if text.length < 2 ^ 31 then some text else none

/-! ## What `vprintf()` prints -/

def padded (zero : Bool) (width : Nat) (text : Text) : Text :=
  List.replicate (width - text.length) (code (if zero then '0' else ' ')) ++ text

def Piece.printed (strings : BitVec w → Text) : Piece w → Text
  | .char c _                     => [c]
  | .number conv zero width value => padded zero width (numeralOf conv.letter value)
  | .hashX zero width value _     => padded zero width (ascii ['0', 'x'] ++ numeral 16 value.toNat)
  | .string width address _       => padded false width (strings address)

theorem parseWidth_numeral (n : Nat) (rest : Text) :
    parseWidth (numeral 10 n ++ rest) 0 = parseWidth rest (BitVec.ofNat 32 n) := by
  have hdigit : ∀ k < 10, isDigit 10 (code k.digitChar) ∧ (code k.digitChar).setWidth 32 - 48 = BitVec.ofNat 32 k := by decide
  rcases Nat.lt_or_ge n 10 with hlt | hge
  · rw [numeral_of_lt hlt, List.singleton_append, parseWidth, if_pos (hdigit n hlt).1, (hdigit n hlt).2]
    simp
  · have hmod := Nat.mod_lt n (show 10 > 0 by decide)
    have hsum : n = n / 10 * 10 + n % 10 := (Nat.div_add_mod' n 10).symm
    have hsmaller : n / 10 < n := by omega
    rw [numeral_of_le (by decide) hge, List.append_assoc, parseWidth_numeral (n / 10), List.singleton_append, parseWidth,
      if_pos (hdigit _ hmod).1, (hdigit _ hmod).2]
    have hten : (10 : Unsigned) = BitVec.ofNat 32 10 := rfl
    rw [hten, ← BitVec.ofNat_mul, ← BitVec.ofNat_add, ← hsum]
termination_by n

theorem parseWidth_widthText {c : BitVec 8} (hc : ¬ isDigit 10 c) (width : Nat) (rest : Text) :
    parseWidth (widthText width ++ c :: rest) 0 = (BitVec.ofNat 32 width, c :: rest) := by
  have hstop (len : Unsigned) : parseWidth (c :: rest) len = (len, c :: rest) := by rw [parseWidth, if_neg hc]
  by_cases h0 : width = 0
  · rw [widthText, if_pos h0, h0, List.nil_append, hstop]
    rfl
  · rw [widthText, if_neg h0, parseWidth_numeral, hstop]

/-- The width does not start with a flag. -/
theorem deref_widthText {a c : BitVec 8} (hc : c ≠ a) (ha : ∀ k < 10, code k.digitChar = a → k = 0) (width : Nat)
    (rest : Text) :
    deref (widthText width ++ c :: rest) ≠ a := by
  by_cases h0 : width = 0
  · rw [widthText, if_pos h0]
    exact hc
  · obtain ⟨k, t, hnum, hk, hzero⟩ := numeral_head (show 1 < 10 by decide) width
    rw [widthText, if_neg h0, hnum]
    exact fun h => h0 (hzero (ha k hk h)).1

theorem skip_zero {c : BitVec 8} (hc : c ≠ code '0') (zero : Bool) (width : Nat) (rest : Text) :
    skip (code '0') ((if zero then [code '0'] else []) ++ (widthText width ++ c :: rest)) =
      (zero, widthText width ++ c :: rest) := by
  cases zero with
  | true => rfl
  | false => exact if_neg (deref_widthText hc (by decide) width rest)

theorem skip_hash {c : BitVec 8} (hc : c ≠ code '#') (hash zero : Bool) (width : Nat) (rest : Text) :
    skip (code '#') ((if hash then [code '#'] else []) ++
      ((if zero then [code '0'] else []) ++ (widthText width ++ c :: rest))) =
      (hash, (if zero then [code '0'] else []) ++ (widthText width ++ c :: rest)) := by
  cases hash with
  | true => rfl
  | false =>
    refine if_neg ?_
    cases zero with
    | true => exact show code '0' ≠ code '#' by decide
    | false => exact deref_widthText hc (by decide) width rest

/-- **A conversion is parsed back.** -/
theorem parseDirective_convText {c : BitVec 8} (hc : ¬ isDigit 10 c ∧ c ≠ code '#' ∧ c ≠ code '0') (hash zero : Bool)
    (width : Nat) (rest : Text) :
    parseDirective (convText hash zero width c ++ rest) = (⟨hash, zero, BitVec.ofNat 32 width, c⟩, rest) := by
  have hflat : convText hash zero width c ++ rest = (if hash then [code '#'] else []) ++
      ((if zero then [code '0'] else []) ++ (widthText width ++ c :: rest)) := by
    rw [convText]
    simp only [List.append_assoc, List.singleton_append]
  unfold parseDirective
  rw [hflat]
  simp only [skip_hash hc.2.1, skip_zero hc.2.2, parseWidth_widthText hc.1]
  rfl

/-! ## The run -/

theorem libcNumber_length (zero : Bool) (width : Nat) (sign digits : Text) :
    (libcNumber zero width sign digits).length = max width (sign.length + digits.length) := by
  cases zero <;> simp [libcNumber] <;> omega

/-- **The `int` arithmetic of the padding is exact.** -/
theorem putString_padded (s : Printf) (zero : Bool) {width : Nat} {text : Text} (hwidth : width < 2 ^ 31)
    (htext : text.length < 2 ^ 31) : s.putString zero (BitVec.ofNat 32 width) text = s.put (padded zero width text) := by
  have hint (n : Nat) (h : n < 2 ^ 31) : (BitVec.ofNat 32 n).toInt = n := by
    have hnat : (BitVec.ofNat 32 n).toNat = n := toNat_small (Nat.le_refl 32) (by omega)
    rw [BitVec.toInt_eq_toNat_cond, hnat, if_pos (by omega)]
  have hpad : (BitVec.ofNat 32 width - BitVec.ofNat 32 text.length).toInt.toNat = width - text.length := by
    rw [BitVec.toInt_sub, hint width hwidth, hint _ htext, Int.bmod_eq_of_le (by omega) (by omega)]
    omega
  rw [Printf.putString, hpad]
  rfl

theorem numeralOf_length_le (hw : 0 < w) (c : BitVec 8) (value : BitVec w) : (numeralOf c value).length ≤ w + 1 := by
  have hneg := log_lt_width (-value) 10 (by decide) hw
  have hten := log_lt_width value 10 (by decide) hw
  have hsixteen := log_lt_width value 16 (by decide) hw
  rw [length_numeralOf]
  unfold textLen
  split
  · omega
  · split <;> omega

/-- What a numeric conversion without a unit leaves in `buf`. -/
def numberText (hash : Bool) (c : BitVec 8) (value : BitVec w) : Text :=
  if (c = code 'x' ∨ c = code 'p') ∧ hash then ascii ['0', 'x'] ++ numeralOf c value else numeralOf c value

theorem nul_notMem_numberText (hash : Bool) (c : BitVec 8) (value : BitVec w) : 0 ∉ numberText hash c value := by
  rw [numberText]
  split
  · rw [List.mem_append, not_or]
    exact ⟨by decide, nul_notMem_numeralOf c value⟩
  · exact nul_notMem_numeralOf c value

theorem numberText_length_le (hw : 0 < w) (hash : Bool) (c : BitVec 8) (value : BitVec w) :
    (numberText hash c value).length ≤ w + 3 := by
  have hle := numeralOf_length_le hw c value
  rw [numberText]
  split
  · rw [List.length_append]
    have htwo : (ascii ['0', 'x']).length = 2 := rfl
    omega
  · omega

theorem convert_text (hw : 32 ≤ w) {hash : Bool} {c : BitVec 8} (hu : ¬ (c = code 'u' ∧ hash)) (value : BitVec w)
    (s : Printf) :
    ∃ m, (∀ fuel ≥ w, convert fuel c hash value s = some { s with buf := m }) ∧ m.Str 0 (numberText hash c value) := by
  by_cases hx : (c = code 'x' ∨ c = code 'p') ∧ hash
  · obtain ⟨m, hrun, hwrote⟩ := itoa_text hw 2 c value ((s.buf.poke 0 (code '0')).poke 1 (code 'x'))
    refine ⟨m, fun fuel hf => ?_, ?_⟩
    · unfold convert
      rw [if_neg hu, if_pos hx, hrun fuel hf]
      rfl
    · rw [numberText, if_pos hx]
      exact (Wrote.cons (Wrote.cons hwrote)).str
  · obtain ⟨m, hrun, hwrote⟩ := itoa_text hw 0 c value s.buf
    refine ⟨m, fun fuel hf => ?_, ?_⟩
    · unfold convert
      rw [if_neg hu, if_neg hx, hrun fuel hf]
      rfl
    · rw [numberText, if_neg hx]
      exact hwrote.str

theorem directive_number (hw : 32 ≤ w) (hw' : w ≤ 64) (strings : BitVec w → Text) {hash : Bool} (zero : Bool) {width : Nat}
    {c : BitVec 8} (hc : c ∈ numericConvs) (hu : ¬ (c = code 'u' ∧ hash)) (hwidth : width < 2 ^ 31) (value : BitVec w)
      (s : Printf) :
    ∃ s', s'.out = s.out ++ padded zero width (numberText hash c value) ∧
      ∀ fuel > w + 3, s.directive strings fuel ⟨hash, zero, BitVec.ofNat 32 width, c⟩ value = some s' := by
  obtain ⟨m, hrun, hstr⟩ := convert_text hw hu value s
  have hlen := numberText_length_le (Nat.lt_of_lt_of_le (by decide) hw) hash c value
  have hread := hstr.untilNul (nul_notMem_numberText hash c value)
  refine ⟨({ s with buf := m } : Printf).put (padded zero width (numberText hash c value)), rfl, fun fuel hf => ?_⟩
  have hunits : ¬ (c = code 'u' ∧ hash = true ∧ BitVec.ofNat 32 width = 0) := fun h => hu ⟨h.1, h.2.1⟩
  unfold Printf.directive
  rw [if_pos hc, hrun fuel (by omega)]
  simp only [Option.bind_eq_bind, Option.bind_some, hread fuel (by omega), if_neg hunits]
  rw [putString_padded _ zero hwidth (by omega)]

theorem isDigit_letter {c : BitVec 8} (hc : c ∈ numericConvs ∨ c = code 's') :
    ¬ isDigit 10 c ∧ c ≠ code '#' ∧ c ≠ code '0' := by
  rcases hc with hc | rfl
  · exact isDigit_conv hc
  · decide

/-- **One round for one conversion.** -/
theorem vprintf_directive (strings : BitVec w → Text) {hash zero : Bool} {width : Nat} {c : BitVec 8}
    (hc : c ∈ numericConvs ∨ c = code 's') (value : BitVec w) (rest : Text) (args : List (BitVec w)) {s s' : Printf}
    {fuel : Nat} (h : s.directive strings fuel ⟨hash, zero, BitVec.ofNat 32 width, c⟩ value = some s') :
    vprintf strings (fuel + 1) (code '%' :: convText hash zero width c ++ rest) (value :: args) s =
      vprintf strings fuel rest args s' := by
  have hround : vprintf strings (fuel + 1) (code '%' :: convText hash zero width c ++ rest) (value :: args) s =
      (s.directive strings fuel (parseDirective (convText hash zero width c ++ rest)).1 value).bind fun s =>
        vprintf strings fuel (parseDirective (convText hash zero width c ++ rest)).2 args s := rfl
  rw [hround, parseDirective_convText (isDigit_letter hc), h]
  rfl

theorem letter_mem (conv : Conv) : conv.letter ∈ numericConvs := by cases conv <;> decide

theorem numberText_hashX (value : BitVec w) :
    numberText true (code 'x') value = ascii ['0', 'x'] ++ numeral 16 value.toNat := by
  rw [numberText, if_pos ⟨.inl rfl, rfl⟩, numeralOf, if_neg (by decide), if_pos (.inl rfl)]

theorem numberText_plain (c : BitVec 8) (value : BitVec w) : numberText false c value = numeralOf c value :=
  if_neg fun h => absurd h.2 (by decide)

/-- **What a piece prints.** -/
theorem vprintf_piece (hw : 32 ≤ w) (hw' : w ≤ 64) (strings : BitVec w → Text) (p : Piece w)
    (hlen : (p.libc strings).length < 2 ^ 31) (s : Printf) (rest : Text) (args : List (BitVec w)) :
    ∃ s', s'.out = s.out ++ p.printed strings ∧ ∀ fuel > w + 3,
      vprintf strings (fuel + 1) (p.format ++ rest) (p.args ++ args) s = vprintf strings fuel rest args s' := by
  cases p with
  | char c h =>
    refine ⟨s.put [c], rfl, fun fuel _ => ?_⟩
    have hround : vprintf strings (fuel + 1) (c :: rest) args s = if c = 0 then some s else if c = code '%' then _ else
        vprintf strings fuel rest args (s.put [c]) := rfl
    exact hround.trans ((if_neg h.1).trans (if_neg h.2))
  | number conv zero width value =>
    have hwidth : width < 2 ^ 31 := by
      cases conv <;> simp only [Piece.libc, libcSigned, libcNumber_length] at hlen <;> omega
    obtain ⟨s', hout, hrun⟩ := directive_number hw hw' strings zero (letter_mem conv)
      (show ¬ (conv.letter = code 'u' ∧ false = true) by simp) hwidth value s
    rw [numberText_plain] at hout
    exact ⟨s', hout, fun fuel hf => vprintf_directive strings (.inl (letter_mem conv)) value rest args (hrun fuel hf)⟩
  | hashX zero width value h =>
    have hwidth : width < 2 ^ 31 := by
      simp only [Piece.libc, libcNumber_length] at hlen
      omega
    obtain ⟨s', hout, hrun⟩ := directive_number hw hw' strings zero (letter_mem .x)
      (show ¬ (Conv.x.letter = code 'u' ∧ true = true) by decide) hwidth value s
    have hx : Conv.x.letter = code 'x' := rfl
    rw [hx, numberText_hashX] at hout
    exact ⟨s', hout, fun fuel hf => vprintf_directive strings (.inl (letter_mem .x)) value rest args (hrun fuel hf)⟩
  | string width address h =>
    simp only [Piece.libc, libcNumber_length, List.length_nil, Nat.zero_add] at hlen
    refine ⟨s.put (padded false width (strings address)), rfl, fun fuel _ => ?_⟩
    apply vprintf_directive strings (.inr rfl)
    have hs : code 's' ∉ numericConvs := by decide
    unfold Printf.directive
    rw [if_neg hs, if_pos rfl, if_neg h, putString_padded s false (by omega) (by omega)]

/-- **What a format prints.** -/
theorem vprintf_pieces (hw : 32 ≤ w) (hw' : w ≤ 64) (strings : BitVec w → Text) : ∀ (pieces : List (Piece w)) (s : Printf),
    (∀ p ∈ pieces, (p.libc strings).length < 2 ^ 31) →
    ∃ s', s'.out = s.out ++ pieces.flatMap (Piece.printed strings) ∧ ∀ fuel > w + 4 + pieces.length,
      vprintf strings fuel (pieces.flatMap Piece.format) (pieces.flatMap Piece.args) s = some s'
  | [],     s, _ => ⟨s, (List.append_nil s.out).symm, forall_fuel fun k _ => rfl⟩
  | p :: ps, s, h => by
    obtain ⟨s₁, hout₁, hrun₁⟩ := vprintf_piece hw hw' strings p (h p List.mem_cons_self) s (ps.flatMap Piece.format)
      (ps.flatMap Piece.args)
    obtain ⟨s₂, hout₂, hrun₂⟩ := vprintf_pieces hw hw' strings ps s₁ fun q hq => h q (List.mem_cons_of_mem p hq)
    refine ⟨s₂, ?_, forall_fuel fun k hk => ?_⟩
    · rw [hout₂, hout₁, List.append_assoc]
      rfl
    · rw [List.length_cons] at hk
      exact (hrun₁ k (by omega)).trans (hrun₂ k (by omega))

/-! ## Where the two differ -/

/-- **The pieces that `vprintf()` prints as libc does.** -/
def Piece.Right : Piece w → Prop
  | .number .d zero width value => value.toInt < 0 → zero → width ≤ (signedNumeral value.toInt).length
  | .number .i _ _ value        => 0 ≤ value.toInt
  | .hashX zero width value _   => zero → width ≤ (numeral 16 value.toNat).length + 2
  | _                           => True

instance : (p : Piece w) → Decidable p.Right
  | .char _ _                    => inferInstanceAs (Decidable True)
  | .number .d zero width value  => inferInstanceAs (Decidable (value.toInt < 0 → zero → width ≤ _))
  | .number .i _ _ value         => inferInstanceAs (Decidable (0 ≤ value.toInt))
  | .number .u _ _ _             => inferInstanceAs (Decidable True)
  | .number .x _ _ _             => inferInstanceAs (Decidable True)
  | .hashX zero width value _    => inferInstanceAs (Decidable (zero → width ≤ (numeral 16 value.toNat).length + 2))
  | .string _ _ _                => inferInstanceAs (Decidable True)

theorem padded_perm (zero : Bool) (width : Nat) (sign digits : Text) :
    (padded zero width (sign ++ digits)).Perm (libcNumber zero width sign digits) := by
  rw [padded, libcNumber, List.length_append]
  cases zero with
  | false => exact .refl _
  | true => exact List.perm_append_comm_assoc ..

/-- Padding with zeros goes wrong as soon as there is a sign and something to pad. -/
theorem padded_eq_iff {sign : Text} (hsign : sign = [] ∨ sign = [code '-'] ∨ sign = ascii ['0', 'x']) (zero : Bool)
    (width : Nat) (digits : Text) : padded zero width (sign ++ digits) = libcNumber zero width sign digits ↔
      (sign ≠ [] → zero → width ≤ (sign ++ digits).length) := by
  rw [padded, libcNumber, List.length_append]
  cases zero with
  | false => exact iff_of_true rfl fun _ h => nomatch h
  | true =>
    rcases Nat.eq_zero_or_pos (width - (sign.length + digits.length)) with h0 | hpos
    · rw [h0]
      exact iff_of_true rfl fun _ _ => by omega
    · obtain ⟨k, hk⟩ := Nat.exists_eq_add_of_le' hpos
      rw [hk]
      rcases hsign with rfl | rfl | rfl
      · exact iff_of_true rfl fun h => absurd rfl h
      · refine iff_of_false (fun h => ?_) fun h => ?_
        · exact absurd (List.cons.inj h).1 (by decide)
        · have hle := h (by decide) rfl
          omega
      · refine iff_of_false (fun h => ?_) fun h => ?_
        · have hsecond := (List.cons.inj h).2
          cases k with
          | zero => exact absurd (List.cons.inj hsecond).1 (by decide)
          | succ k => exact absurd (List.cons.inj hsecond).1 (by decide)
        · have hle := h (by decide) rfl
          omega

theorem signOf_eq (z : Int) : signOf z = [] ∨ signOf z = [code '-'] ∨ signOf z = ascii ['0', 'x'] := by
  rw [signOf]
  split
  · exact .inr (.inl rfl)
  · exact .inl rfl

theorem signOf_ne_nil (z : Int) : signOf z ≠ [] ↔ z < 0 := by
  rw [signOf]
  split <;> simp [*]

theorem signedNumeral_eq (z : Int) : signedNumeral z = signOf z ++ numeral 10 z.natAbs := by
  rw [signedNumeral, signOf]
  split <;> rfl

/-- `%i` of a negative value: the sign is not written. -/
def Piece.Flips : Piece w → Prop
  | .number .i _ _ value => value.toInt < 0
  | _                    => False

/-- **A piece that keeps its sign**: both print the same characters, and differ at most in where the padding stands. -/
structure Piece.Pads (strings : BitVec w → Text) (p : Piece w) (zero : Bool) (width : Nat) (sign digits : Text) : Prop where
  known   : sign = [] ∨ sign = [code '-'] ∨ sign = ascii ['0', 'x']
  printed : p.printed strings = padded zero width (sign ++ digits)
  libc    : p.libc strings = libcNumber zero width sign digits
  right   : p.Right ↔ (sign ≠ [] → zero → width ≤ (sign ++ digits).length)

theorem Piece.pads (strings : BitVec w → Text) (p : Piece w) (h : ¬ p.Flips) :
    ∃ zero width sign digits, p.Pads strings zero width sign digits := by
  have hplain : ∀ {P : Prop}, True ↔ (([] : Text) ≠ [] → P) := fun {_} => iff_of_true trivial fun h => absurd rfl h
  cases p with
  | char c _ => exact ⟨false, 0, [], [c], .inl rfl, rfl, rfl, hplain⟩
  | number conv zero width value =>
    cases conv with
    | d =>
      have ht : numeralOf (code 'd') value = signOf value.toInt ++ numeral 10 value.toInt.natAbs := by
        rw [numeralOf, if_pos rfl, signedNumeral_eq]
      refine ⟨zero, width, signOf value.toInt, numeral 10 value.toInt.natAbs, signOf_eq _,
        congrArg (padded zero width) ht, rfl, ?_⟩
      rw [signOf_ne_nil, ← signedNumeral_eq]
      exact Iff.rfl
    | i =>
      have hpos : ¬ value.toInt < 0 := h
      have ht : numeralOf (code 'i') value = signOf value.toInt ++ numeral 10 value.toInt.natAbs := by
        rw [← signedNumeral_eq, signedNumeral_of_nonneg hpos]
        rfl
      refine ⟨zero, width, signOf value.toInt, numeral 10 value.toInt.natAbs, signOf_eq _,
        congrArg (padded zero width) ht, rfl, ?_⟩
      rw [signOf_ne_nil]
      exact iff_of_true (Int.not_lt.1 hpos) fun hneg => absurd hneg hpos
    | u => exact ⟨zero, width, [], numeral 10 value.toNat, .inl rfl, rfl, rfl, hplain⟩
    | x => exact ⟨zero, width, [], numeral 16 value.toNat, .inl rfl, rfl, rfl, hplain⟩
  | hashX zero width value hv =>
    refine ⟨zero, width, ascii ['0', 'x'], numeral 16 value.toNat, .inr (.inr rfl), rfl, rfl, ?_⟩
    rw [List.length_append, Nat.add_comm]
    exact ⟨fun hr _ => hr, fun hr => hr (by decide)⟩
  | string width address _ => exact ⟨false, width, [], strings address, .inl rfl, rfl, rfl, hplain⟩

theorem Piece.Flips.count {strings : BitVec w → Text} {p : Piece w} (h : p.Flips) :
    (p.printed strings).count (code '-') < (p.libc strings).count (code '-') := by
  have hpad (n : Nat) (zero : Bool) : (List.replicate n (code (if zero then '0' else ' '))).count (code '-') = 0 := by
    rw [List.count_eq_zero, List.mem_replicate]
    cases zero <;> exact fun hd => absurd hd.2 (by decide)
  have hdigits (n : Nat) : (numeral 10 n).count (code '-') = 0 := List.count_eq_zero.2 (dash_notMem_numeral (by decide) n)
  obtain ⟨zero, width, value, rfl⟩ : ∃ zero width value, p = .number .i zero width value := by
    match p, h with
    | .number .i zero width value, _ => exact ⟨zero, width, value, rfl⟩
  have hsign : signOf value.toInt = [code '-'] := if_pos h
  have hnone : ((Piece.number .i zero width value).printed strings).count (code '-') = 0 := by
    have ht : (Piece.number .i zero width value).printed strings = padded zero width (numeral 10 value.toNat) := rfl
    rw [ht, padded, List.count_append, hpad, hdigits]
  have hone : ((Piece.number .i zero width value).libc strings).count (code '-') = 1 := by
    have ht : (Piece.number .i zero width value).libc strings =
        libcNumber zero width [code '-'] (numeral 10 value.toInt.natAbs) := by
      rw [← hsign]
      rfl
    rw [ht, ← (padded_perm zero width _ _).count_eq, padded, List.count_append, List.count_append, hpad, hdigits]
    rfl
  rw [hnone, hone]
  exact Nat.zero_lt_one

theorem printed_count_le (strings : BitVec w → Text) (p : Piece w) :
    (p.printed strings).count (code '-') ≤ (p.libc strings).count (code '-') := by
  by_cases h : p.Flips
  · exact Nat.le_of_lt h.count
  · obtain ⟨zero, width, sign, digits, hp⟩ := p.pads strings h
    rw [hp.printed, hp.libc]
    exact Nat.le_of_eq ((padded_perm zero width sign digits).count_eq _)

theorem Piece.Right.keeps {p : Piece w} (h : p.Right) : ¬ p.Flips := by
  intro hf
  match p, h, hf with
  | .number .i _ _ value, h, hf => exact absurd hf (Int.not_lt.2 h)

theorem printed_eq_iff (strings : BitVec w → Text) {p : Piece w} (h : ¬ p.Flips) :
    p.printed strings = p.libc strings ↔ p.Right := by
  obtain ⟨zero, width, sign, digits, hp⟩ := p.pads strings h
  rw [hp.printed, hp.libc, hp.right]
  exact padded_eq_iff hp.known zero width digits

theorem printed_length (strings : BitVec w → Text) {p : Piece w} (h : ¬ p.Flips) :
    (p.printed strings).length = (p.libc strings).length := by
  obtain ⟨zero, width, sign, digits, hp⟩ := p.pads strings h
  rw [hp.printed, hp.libc]
  exact (padded_perm zero width sign digits).length_eq

/-- **The whole outputs agree exactly if every piece does.** -/
theorem outputs_eq_iff (strings : BitVec w → Text) (pieces : List (Piece w)) :
    pieces.flatMap (Piece.printed strings) = pieces.flatMap (Piece.libc strings) ↔ ∀ p ∈ pieces, p.Right := by
  constructor
  · intro h
    -- a sign that is missing somewhere is missing in the whole
    have hsigns := count_flatMap_eq (fun p _ => printed_count_le strings p) (congrArg (List.count (code '-')) h)
    have hkeeps : ∀ p ∈ pieces, ¬ p.Flips := fun p hp hf => absurd (hsigns p hp) (Nat.ne_of_lt hf.count)
    intro p hp
    exact (printed_eq_iff strings (hkeeps p hp)).1 (flatMap_inj (fun q hq => printed_length strings (hkeeps q hq)) h p hp)
  · intro h
    apply List.flatMap_congr
    intro p hp
    exact (printed_eq_iff strings (h p hp).keeps).2 (h p hp)

theorem libc_length_lt {strings : BitVec w → Text} {pieces : List (Piece w)} {text : Text}
    (h : libcPrintf strings pieces = some text) :
    text = pieces.flatMap (Piece.libc strings) ∧ ∀ p ∈ pieces, (p.libc strings).length < 2 ^ 31 := by
  rw [libcPrintf] at h
  split at h
  · rename_i hlt
    refine ⟨(Option.some.inj h).symm, fun p hp => Nat.lt_of_le_of_lt ?_ hlt⟩
    exact (List.sublist_flatten_of_mem (List.mem_map_of_mem hp)).length_le
  · cases h

end

/-- **`vprintf()` prints what libc does exactly if no sign or prefix is padded with zeros and no `%i` is negative.** -/
theorem vprintf_libc_iff (b : Build) (strings : BitVec b.longBits → Text) (bytes : Nat → BitVec 8)
    (pieces : List (Piece b.longBits)) {text : Text} (h : libcPrintf strings pieces = some text) :
    ∃ s, (∀ fuel > b.longBits + 4 + pieces.length,
        vprintf strings fuel (pieces.flatMap Piece.format) (pieces.flatMap Piece.args) (.start bytes) = some s) ∧
      (s.out = text ↔ ∀ p ∈ pieces, p.Right) := by
  obtain ⟨rfl, hlen⟩ := libc_length_lt h
  have hw := longBits_ge b
  obtain ⟨s, hout, hrun⟩ := vprintf_pieces hw (longBits_le b) strings pieces (.start bytes) hlen
  refine ⟨s, hrun, ?_⟩
  rw [hout]
  exact outputs_eq_iff strings pieces

/-- `%05d` of 42, with something before and behind it. -/
theorem vprintf_libc_fortytwo : ∃ s, (∀ fuel > 71, vprintf (fun _ : BitVec Build.b64.longBits => []) fuel
    (ascii ['a', '%', '0', '5', 'd', '\n']) [42] (.start fun _ => 0) = some s) ∧
    s.out = ascii ['a', '0', '0', '0', '4', '2', '\n'] := by
  obtain ⟨s, hrun, hout⟩ := vprintf_libc_iff .b64 (fun _ => []) (fun _ => 0)
    [.char (code 'a') (by decide), .number .d true 5 42, .char (code '\n') (by decide)]
    (show libcPrintf _ _ = some (ascii ['a', '0', '0', '0', '4', '2', '\n']) by decide)
  exact ⟨s, hrun, hout.2 (by decide)⟩

/-- What `vprintf()` and libc print for a piece, if they differ. -/
def Differs (p : Piece 32) (printed libc : Text) : Prop :=
  (vprintf (fun _ => []) 40 p.format p.args (.start fun _ => 0)).map Printf.out = some printed ∧
    libcPrintf (fun _ => []) [p] = some libc ∧ printed ≠ libc

/-- `%05d` of -42, `%#06x` of 42 and `%i` of -1. -/
theorem vprintf_not_libc :
    Differs (.number .d true 5 (-42)) (ascii ['0', '0', '-', '4', '2']) (ascii ['-', '0', '0', '4', '2']) ∧
    Differs (.hashX true 6 42 (by decide)) (ascii ['0', '0', '0', 'x', '2', 'a']) (ascii ['0', 'x', '0', '0', '2', 'a']) ∧
    Differs (.number .i false 0 (-1)) (ascii ['4', '2', '9', '4', '9', '6', '7', '2', '9', '5']) (ascii ['-', '1']) := by
  refine ⟨⟨?_, ?_, ?_⟩, ⟨?_, ?_, ?_⟩, ⟨?_, ?_, ?_⟩⟩ <;> decide

end SmpBoot
