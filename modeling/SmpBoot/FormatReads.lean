import SmpBoot.Printf
/-!
# FormatReads — how far `vprintf()` reads its format

Every access to the format is a `*format++`, so what is read is counted along the parse (`formatReads`).  Behind the NUL of the
format stand arbitrary bytes, and zeros behind these.
-/
namespace SmpBoot

open ByteMem (Mem)
open Walk (forall_fuel)

/-! ## The reads -/

/-- The digits that `while (c >= '0' && c <= '9')` passes over. -/
def widthReads : Text → Nat
  | []     => 0
  | c :: f => if isDigit 10 c then widthReads f + 1 else 0

def skipReads (c : BitVec 8) (f : Text) : Nat := if deref f = c then 1 else 0

/-- What is read behind `%`, up to the letter of the conversion. -/
def directiveReads (f : Text) : Nat :=
  let h := skip (code '#') f
  let z := skip (code '0') h.2
  skipReads (code '#') f + (skipReads (code '0') h.2 + (widthReads z.2 + 1))

/-- What the loop reads from here on, the NUL at its head included. -/
def formatReads : Nat → Text → Option Nat
  | 0,        _ => none
  | fuel + 1, f =>
    if deref f = 0 then some 1
    else if deref f = code '%' then
      (formatReads fuel (parseDirective f.tail).2).map fun n => directiveReads f.tail + n + 1
    else (formatReads fuel f.tail).map (· + 1)

section
variable {n k : Nat} {f f' : Text}

theorem skip_eq (c : BitVec 8) (f : Text) : skip c f = (decide (deref f = c), f.drop (skipReads c f)) := by
  rw [skip, skipReads]
  split
  · rename_i h
    rw [List.drop_one, decide_eq_true h]
  · rename_i h
    rw [List.drop_zero, decide_eq_false h]

theorem skipReads_congr {c : BitVec 8} (h : deref f = deref f') : skipReads c f = skipReads c f' := by
  rw [skipReads, skipReads, h]

theorem deref_ne_of_digit {c : BitVec 8} (h : isDigit 10 c) : c ≠ 0 := by
  rintro rfl
  exact absurd h (by decide)

theorem parseWidth_stop {c : BitVec 8} (hc : ¬ isDigit 10 c) (f : Text) (len : Unsigned) :
    parseWidth (c :: f) len = (len, c :: f) := by
  rw [parseWidth, if_neg hc]

theorem parseWidth_congr : ∀ {f f' : Text} (len : Unsigned), Agree (widthReads f + 1) f f' →
    parseWidth f len = ((parseWidth f len).1, f.drop (widthReads f)) ∧
    parseWidth f' len = ((parseWidth f len).1, f'.drop (widthReads f))
  | [], [],      len, _ => ⟨rfl, rfl⟩
  | [], c :: f', len, h => by
    obtain rfl : 0 = c := h.head
    exact ⟨rfl, parseWidth_stop (by decide) f' len⟩
  | c :: f, f', len, h => by
    by_cases hd : isDigit 10 c
    · cases f' with
      | nil => exact absurd h.head (deref_ne_of_digit hd)
      | cons c' f' =>
        obtain rfl : c = c' := h.head
        rw [widthReads, if_pos hd] at h ⊢
        obtain ⟨h1, h2⟩ := parseWidth_congr (f := f) (len * 10 + (c.setWidth 32 - 48)) fun i hi => h (i + 1) (by omega)
        rw [parseWidth, if_pos hd, parseWidth, if_pos hd]
        exact ⟨h1, h2⟩
    · rw [widthReads, if_neg hd] at h ⊢
      rw [parseWidth_stop hd]
      refine ⟨rfl, ?_⟩
      cases f' with
      | nil => rfl
      | cons c' f' =>
        obtain rfl : c = c' := h.head
        exact parseWidth_stop hd f' len

/-- **The parse depends on what it reads alone**, and goes on behind it. -/
theorem parseDirective_congr (h : Agree (directiveReads f) f f') :
    parseDirective f = ((parseDirective f).1, f.drop (directiveReads f)) ∧
    parseDirective f' = ((parseDirective f).1, f'.drop (directiveReads f)) := by
  unfold directiveReads at h ⊢
  unfold parseDirective
  simp only [skip_eq] at h ⊢
  generalize ha : skipReads (code '#') f = a at h ⊢
  have hfirst : deref f = deref f' := (h.mono (show 1 ≤ _ by omega)).head
  have ha' : skipReads (code '#') f' = a := (skipReads_congr hfirst).symm.trans ha
  have h2 := h.drop
  generalize hb : skipReads (code '0') (f.drop a) = b at h2 ⊢
  have hsecond : deref (f.drop a) = deref (f'.drop a) := (h2.mono (show 1 ≤ _ by omega)).head
  have hb' : skipReads (code '0') (f'.drop a) = b := (skipReads_congr hsecond).symm.trans hb
  have h3 := h2.drop
  obtain ⟨hwidth, hwidth'⟩ := parseWidth_congr 0 h3
  have hletter := h3 (widthReads ((f.drop a).drop b)) (Nat.lt_succ_self _)
  have hbehind (g : Text) (n : Nat) : (((g.drop a).drop b).drop n).tail = g.drop (a + (b + (n + 1))) := by
    rw [List.tail_drop, List.drop_drop, List.drop_drop]
  simp only [ha', hb', hfirst, hsecond]
  rw [hwidth, hwidth']
  simp only [hletter, hbehind]
  exact ⟨trivial, trivial⟩

/-- **What the loop does depends on what it reads alone.** -/
theorem vprintf_congr {w : Nat} (strings : BitVec w → Text) : ∀ (fuel : Nat) {n : Nat} {f f' : Text} (args : List (BitVec w))
    (s : Printf), formatReads fuel f = some n → Agree n f f' → vprintf strings fuel f args s = vprintf strings fuel f' args s
  | 0,        _, _, _,  _,    _, hn, _ => by cases hn
  | fuel + 1, n, f, f', args, s, hn, h => by
    rw [formatReads] at hn
    rw [vprintf, vprintf]
    by_cases h0 : deref f = 0
    · rw [if_pos h0] at hn
      obtain rfl := Option.some.inj hn
      rw [if_pos h0, if_pos (h.head.symm.trans h0)]
    · rw [if_neg h0] at hn
      by_cases hp : deref f = code '%'
      · rw [if_pos hp, Option.map_eq_some_iff] at hn
        obtain ⟨n', hn', rfl⟩ := hn
        obtain ⟨hd, hd'⟩ := parseDirective_congr (h.tail.mono (Nat.le_add_right _ _))
        rw [if_neg h0, if_pos hp, ← h.head, if_neg h0, if_pos hp, hd, hd']
        rw [hd] at hn'
        simp only
        congr 1
        funext s'
        exact vprintf_congr strings fuel args.tail s' hn' h.tail.drop
      · rw [if_neg hp, Option.map_eq_some_iff] at hn
        obtain ⟨n', hn', rfl⟩ := hn
        rw [if_neg h0, if_neg hp, ← h.head, if_neg h0, if_neg hp]
        exact vprintf_congr strings fuel args (s.put [deref f]) hn' h.tail

theorem parseDirective_rest (f : Text) : (parseDirective f).2 = f.drop (directiveReads f) :=
  congrArg Prod.snd (@parseDirective_congr f f fun _ _ => rfl).1

theorem formatReads_ends (f : Text) : ∃ n > 0, ∀ fuel > f.length, formatReads fuel f = some n := by
  cases f with
  | nil => exact ⟨1, Nat.zero_lt_one, forall_fuel fun k _ => rfl⟩
  | cons c f =>
    by_cases h0 : c = 0
    · exact ⟨1, Nat.zero_lt_one, forall_fuel fun k _ => if_pos h0⟩
    · by_cases hp : c = code '%'
      · have hshorter : (parseDirective f).2.length ≤ f.length := by
          rw [parseDirective_rest, List.length_drop]
          exact Nat.sub_le _ _
        obtain ⟨n, -, hrun⟩ := formatReads_ends (parseDirective f).2
        refine ⟨directiveReads f + n + 1, Nat.succ_pos _, forall_fuel fun k hk => (if_neg h0).trans ((if_pos hp).trans ?_)⟩
        rw [List.length_cons] at hk
        exact congrArg (Option.map fun n => directiveReads f + n + 1) (hrun k (by omega))
      · obtain ⟨n, -, hrun⟩ := formatReads_ends f
        refine ⟨n + 1, Nat.succ_pos _, forall_fuel fun k hk => (if_neg h0).trans ((if_neg hp).trans ?_)⟩
        rw [List.length_cons] at hk
        exact congrArg (Option.map (· + 1)) (hrun k (by omega))
termination_by f.length
decreasing_by
  · rw [List.length_cons]
    omega
  · exact Nat.lt_succ_self _

end

/-! ## The loop returns -/

section
variable {w : Nat}

theorem convert_string (hw : 32 ≤ w) (c : BitVec 8) (hash : Bool) (value : BitVec w) (s : Printf) :
    ∃ s' e, e ≤ w + 3 ∧ s'.buf.bytes e = 0 ∧ ∀ fuel > w + 1, convert fuel c hash value s = some s' := by
  by_cases hu : c = code 'u' ∧ hash
  · obtain ⟨q, idx, s', -, hlog, hrun, hend, -⟩ := convertUnits_ends hw value s
    exact ⟨s', Nat.log 10 q + 3, by omega, hend.nul, fun fuel hf => (if_pos hu).trans (hrun fuel hf)⟩
  · obtain ⟨s', hrun, hend, -⟩ := convert_ends hw hu value s
    exact ⟨s', lastByte c hash value, lastByte_le (by omega) c hash value, hend.nul, hrun⟩

theorem directive_ends (hw : 32 ≤ w) (strings : BitVec w → Text) (d : Directive) (value : BitVec w) (s : Printf) :
    ∃ s', ∀ fuel > w + 3, s.directive strings fuel d value = some s' := by
  unfold Printf.directive
  by_cases hc : d.conv ∈ numericConvs
  · obtain ⟨s', e, he, hnul, hrun⟩ := convert_string hw d.conv d.hash value s
    obtain ⟨t, -, hstr⟩ := Mem.untilNul_ends e (p := 0) (by rwa [Nat.zero_add])
    refine ⟨s'.putString d.zero (if d.conv = code 'u' ∧ d.hash ∧ d.len = 0 then 6 else d.len) t, fun fuel hf => ?_⟩
    rw [if_pos hc, hrun fuel (by omega)]
    simp only [Option.bind_eq_bind, Option.bind_some, hstr fuel (show fuel > e by omega)]
  · by_cases hs : d.conv = code 's'
    · exact ⟨_, fun fuel _ => (if_neg hc).trans (if_pos hs)⟩
    · exact ⟨_, fun fuel _ => (if_neg hc).trans (if_neg hs)⟩

/-- **The loop returns**, whatever the format is. -/
theorem vprintf_ends (hw : 32 ≤ w) (strings : BitVec w → Text) (f : Text) (args : List (BitVec w)) (s : Printf) :
    ∃ s', ∀ fuel > w + 4 + f.length, vprintf strings fuel f args s = some s' := by
  cases f with
  | nil => exact ⟨s, forall_fuel fun k _ => rfl⟩
  | cons c f =>
    by_cases h0 : c = 0
    · exact ⟨s, forall_fuel fun k _ => if_pos h0⟩
    · by_cases hp : c = code '%'
      · have hshorter : (parseDirective f).2.length ≤ f.length := by
          rw [parseDirective_rest, List.length_drop]
          exact Nat.sub_le _ _
        obtain ⟨s₁, hrun₁⟩ := directive_ends hw strings (parseDirective f).1 (args.headD 0) s
        obtain ⟨s₂, hrun₂⟩ := vprintf_ends hw strings (parseDirective f).2 args.tail s₁
        refine ⟨s₂, forall_fuel fun k hk => (if_neg h0).trans ((if_pos hp).trans ?_)⟩
        rw [List.length_cons] at hk
        exact (congrArg (Option.bind · _) (hrun₁ k (by omega))).trans (hrun₂ k (by omega))
      · obtain ⟨s', hrun⟩ := vprintf_ends hw strings f args (s.put [c])
        refine ⟨s', forall_fuel fun k hk => (if_neg h0).trans ((if_neg hp).trans ?_)⟩
        rw [List.length_cons] at hk
        exact hrun k (by omega)
termination_by f.length
decreasing_by
  · rw [List.length_cons]
    omega
  · exact Nat.lt_succ_self _

end

/-! ## Formats that end inside a conversion -/

/-- Where a format is read: between conversions, right behind a `%`, or behind a flag or digit. -/
inductive Place where
  | plain
  | percent
  | width
  deriving DecidableEq

def Place.next : Place → BitVec 8 → Place
  | .plain,   c => if c = code '%' then .percent else .plain
  | .percent, c => if c = code '#' ∨ isDigit 10 c then .width else .plain
  | .width,   c => if isDigit 10 c then .width else .plain

def Place.after (place : Place) (f : Text) : Place := f.foldl Place.next place

/-- **The format does not end inside a conversion.** -/
def Complete (f : Text) : Prop := Place.after .plain f = .plain

instance (f : Text) : Decidable (Complete f) := inferInstanceAs (Decidable (_ = _))

/-- A conversion that starts at `place` is read from `f`, a NUL and `rest`: it ends in `f`, or takes the NUL for its letter. -/
inductive ReadsTo (place : Place) (f rest : Text) (k : Nat) (behind : Text) : Prop
  | inside (t : Text) (ht : t <:+ f) (hb : behind = t ++ 0 :: rest) (hk : k + t.length = f.length)
      (hp : place.after f = Place.after .plain t) : ReadsTo place f rest k behind
  | across (hb : behind = rest) (hk : k = f.length + 1) (hp : place.after f ≠ .plain) : ReadsTo place f rest k behind

section
variable {place : Place} {f rest behind : Text} {k : Nat}

/-- A flag or a digit in front. -/
theorem ReadsTo.cons {c : BitVec 8} (hc : place.next c = .width) (h : ReadsTo .width f rest k behind) :
    ReadsTo place (c :: f) rest (k + 1) behind := by
  have hplace : place.after (c :: f) = Place.after .width f := congrArg (f.foldl Place.next) hc
  cases h with
  | inside t ht hb hk hp =>
      exact .inside t (ht.trans (List.suffix_cons c f)) hb (by rw [List.length_cons]; omega) (hplace.trans hp)
  | across hb hk hp => exact .across hb (by rw [List.length_cons, hk]) (by rwa [hplace])

/-- The letter. -/
theorem ReadsTo.letter {c : BitVec 8} (hc : place.next c = .plain) : ReadsTo place (c :: f) rest 1 (f ++ 0 :: rest) :=
  .inside f (List.suffix_cons c f) rfl (by rw [List.length_cons]; omega) (congrArg (f.foldl Place.next) hc)

theorem ReadsTo.nul (hp : place ≠ .plain) : ReadsTo place [] rest 1 rest := .across rfl rfl hp

theorem ends_width : ∀ (f : Text), ReadsTo .width f rest (widthReads (f ++ 0 :: rest) + 1)
    ((f ++ 0 :: rest).drop (widthReads (f ++ 0 :: rest) + 1))
  | [] => .nul (fun h => nomatch h)
  | c :: f => by
    rw [List.cons_append, widthReads]
    by_cases hd : isDigit 10 c
    · rw [if_pos hd]
      exact (ends_width f).cons (if_pos hd)
    · rw [if_neg hd]
      exact .letter (if_neg hd)

/-- The same where a first `0` is taken for the flag. -/
theorem ends_zero (f rest : Text) : ReadsTo .width f rest
    (skipReads (code '0') (f ++ 0 :: rest) + (widthReads (skip (code '0') (f ++ 0 :: rest)).2 + 1))
    ((f ++ 0 :: rest).drop
      (skipReads (code '0') (f ++ 0 :: rest) + (widthReads (skip (code '0') (f ++ 0 :: rest)).2 + 1))) := by
  rw [skip_eq]
  cases f with
  | nil => exact ends_width []
  | cons c f =>
    by_cases hc : c = code '0'
    · have hone : skipReads (code '0') (c :: f ++ 0 :: rest) = 1 := if_pos hc
      rw [hone, Nat.add_comm 1]
      exact (ends_width f).cons (if_pos (by rw [hc]; decide))
    · have hnone : skipReads (code '0') (c :: f ++ 0 :: rest) = 0 := if_neg hc
      rw [hnone, Nat.zero_add]
      exact ends_width (c :: f)

/-- **Where a conversion ends.** -/
theorem ends_directive (f rest : Text) :
    ReadsTo .percent f rest (directiveReads (f ++ 0 :: rest)) (parseDirective (f ++ 0 :: rest)).2 := by
  rw [parseDirective_rest, directiveReads]
  simp only [skip_eq (code '#')]
  cases f with
  | nil => exact .nul (fun h => nomatch h)
  | cons c f =>
    by_cases hc : c = code '#'
    · have hone : skipReads (code '#') (c :: f ++ 0 :: rest) = 1 := if_pos hc
      rw [hone, Nat.add_comm 1]
      exact (ends_zero f rest).cons (if_pos (.inl hc))
    · have hnone : skipReads (code '#') (c :: f ++ 0 :: rest) = 0 := if_neg hc
      have hplace : Place.next .percent c = Place.next .width c := if_congr (or_iff_right hc) rfl rfl
      have hafter : Place.after .percent (c :: f) = Place.after .width (c :: f) := congrArg (f.foldl Place.next) hplace
      rw [hnone, Nat.zero_add]
      cases ends_zero (c :: f) rest with
      | inside t ht hb hk hp => exact .inside t ht hb hk (hafter.trans hp)
      | across hb hk hp => exact .across hb hk (by rwa [hafter])

/-- **Up to the NUL and no further exactly if the format is complete.** -/
theorem formatReads_iff (f rest : Text) (h0 : 0 ∉ f) : ∃ n, (∀ fuel > (f ++ 0 :: rest).length,
    formatReads fuel (f ++ 0 :: rest) = some n) ∧ (n ≤ f.length + 1 ↔ Complete f) := by
  cases f with
  | nil => exact ⟨1, forall_fuel fun k _ => rfl, iff_of_true (Nat.le_refl 1) rfl⟩
  | cons c f =>
    rw [List.mem_cons, not_or] at h0
    have hc : c ≠ 0 := fun h => h0.1 h.symm
    by_cases hp : c = code '%'
    · have hcomplete : Complete (c :: f) ↔ Place.after .percent f = .plain := by
        rw [Complete, Place.after, List.foldl_cons, Place.next, if_pos hp]
        rfl
      have hround (k n : Nat) (h : formatReads k (parseDirective (f ++ 0 :: rest)).2 = some n) :
          formatReads (k + 1) (c :: f ++ 0 :: rest) = some (directiveReads (f ++ 0 :: rest) + n + 1) :=
        (if_neg hc).trans ((if_pos hp).trans (congrArg (Option.map fun n => directiveReads (f ++ 0 :: rest) + n + 1) h))
      cases ends_directive f rest with
      | inside t ht hb hk hplace =>
        have hle := ht.length_le
        obtain ⟨n, hrun, hiff⟩ := formatReads_iff t rest fun h => h0.2 (ht.subset h)
        refine ⟨directiveReads (f ++ 0 :: rest) + n + 1, forall_fuel fun k hk' => hround k n ?_, ?_⟩
        · rw [hb]
          apply hrun
          simp only [List.length_append, List.length_cons] at hk' ⊢
          omega
        · rw [hcomplete, hplace, ← Complete, ← hiff, List.length_cons]
          omega
      | across hb hk hplace =>
        obtain ⟨n, hpos, hrun⟩ := formatReads_ends rest
        refine ⟨directiveReads (f ++ 0 :: rest) + n + 1, forall_fuel fun k hk' => hround k n ?_, iff_of_false ?_ ?_⟩
        · rw [hb]
          apply hrun
          simp only [List.length_append, List.length_cons] at hk'
          omega
        · rw [List.length_cons, hk]
          omega
        · rwa [hcomplete]
    · obtain ⟨n, hrun, hiff⟩ := formatReads_iff f rest h0.2
      have hcomplete : Complete (c :: f) ↔ Complete f := by
        rw [Complete, Place.after, List.foldl_cons, Place.next, if_neg hp]
        rfl
      refine ⟨n + 1, forall_fuel fun k hk => (if_neg hc).trans ((if_neg hp).trans ?_), ?_⟩
      · exact congrArg (Option.map (· + 1)) (hrun k hk)
      · rw [hcomplete, ← hiff, List.length_cons]
        omega
termination_by f.length
decreasing_by
  · rename_i hf _
    rw [hf, List.length_cons]
    omega
  · rename_i hf
    rw [hf, List.length_cons]
    omega

end

/-- **`vprintf()` returns, and reads up to the NUL of the format and no further exactly if the format does not end inside a
conversion.** -/
theorem vprintf_reads_iff (b : Build) (strings : BitVec b.longBits → Text) (f rest : Text) (h0 : 0 ∉ f)
    (args : List (BitVec b.longBits)) (s : Printf) :
    ∃ s' n, (∀ fuel > b.longBits + 4 + (f ++ 0 :: rest).length,
        formatReads fuel (f ++ 0 :: rest) = some n ∧ ∀ f', Agree n (f ++ 0 :: rest) f' →
          vprintf strings fuel f' args s = some s') ∧
      (n ≤ f.length + 1 ↔ Complete f) := by
  have hw := longBits_ge b
  obtain ⟨n, hreads, hiff⟩ := formatReads_iff f rest h0
  obtain ⟨s', hrun⟩ := vprintf_ends hw strings (f ++ 0 :: rest) args s
  refine ⟨s', n, fun fuel hf => ?_, hiff⟩
  have hn := hreads fuel (by omega)
  refine ⟨hn, fun f' hf' => ?_⟩
  rw [← hrun fuel hf]
  exact (vprintf_congr strings fuel args s hn hf').symm

theorem vprintf_reads_percent :
    ∃ s' n, (∀ fuel > 42, formatReads fuel (ascii ['%', '0', '8', 'x'] ++ 0 :: ascii ['%']) = some n ∧
      ∀ f', Agree n (ascii ['%', '0', '8', 'x'] ++ 0 :: ascii ['%']) f' →
        vprintf (fun _ : BitVec Build.b32.longBits => []) fuel f' [0] (.start fun _ => 0) = some s') ∧ n ≤ 5 := by
  obtain ⟨s', n, hrun, hiff⟩ :=
    vprintf_reads_iff .b32 (fun _ => []) (ascii ['%', '0', '8', 'x']) (ascii ['%']) (by decide) [0]
    (.start fun _ => 0)
  exact ⟨s', n, fun fuel hf => hrun fuel hf, hiff.2 (by decide)⟩

/-- `%` and `%0` in front of a NUL: the NUL is taken for the letter, and what stands behind it is printed. -/
theorem vprintf_reads_behind :
    formatReads 9 (ascii ['%'] ++ 0 :: ascii ['a']) = some 4 ∧ formatReads 9 (ascii ['%', '0'] ++ 0 :: ascii ['a']) = some 5 ∧
    (vprintf (fun _ : BitVec 32 => []) 9 (ascii ['%'] ++ 0 :: ascii ['a']) [7] (.start fun _ => 0)).map Printf.out =
      some [7, code 'a'] := by
  refine ⟨?_, ?_, ?_⟩ <;> decide

end SmpBoot
