import Mathlib.Data.List.Induction
import Mathlib.Data.List.TakeWhile
import SmpBoot.Config
/-!
# Cmdline — the options of the kernel's command line

`get_info()` of `boot32.c` walks the command line that the boot loader left, with `strncmp()` and `atoi()` of `lib.c`.
A pointer into the text is its position and the bytes from there on; behind the last byte given stand zeros.
-/
namespace SmpBoot

abbrev Text := List (BitVec 8)

def code (c : Char) : BitVec 8 := BitVec.ofNat 8 c.toNat

def ascii (cs : List Char) : Text := cs.map code

/-- `*p` -/
def deref (p : Text) : BitVec 8 := p.headD 0

/-- The two agree in what is read first. -/
def Agree (n : Nat) (f f' : Text) : Prop := ∀ i < n, deref (f.drop i) = deref (f'.drop i)

section
variable {n k : Nat} {f f' : Text}

theorem Agree.mono (h : Agree n f f') (hk : k ≤ n) : Agree k f f' := fun i hi => h i (Nat.lt_of_lt_of_le hi hk)

theorem Agree.drop (h : Agree (k + n) f f') : Agree n (f.drop k) (f'.drop k) := by
  intro i hi
  rw [List.drop_drop, List.drop_drop]
  exact h (k + i) (by omega)

theorem Agree.tail (h : Agree (n + 1) f f') : Agree n f.tail f'.tail := by
  intro i hi
  rw [← List.drop_one, ← List.drop_one, List.drop_drop, List.drop_drop, Nat.add_comm 1]
  exact h (i + 1) (Nat.succ_lt_succ hi)

theorem Agree.head (h : Agree (n + 1) f f') : deref f = deref f' := h 0 (Nat.succ_pos n)

end

/-! ## `lib.c` -/

def strncmp (a b : Text) : Nat → Int
  | 0     => 0
  | n + 1 =>
    if deref a ≠ 0 ∧ deref b ≠ 0 ∧ deref a = deref b then strncmp a.tail b.tail n
    else (deref a).toInt - (deref b).toInt

/-- The test of the loop of `atoi()`: `a` is a digit of the base. -/
def isDigit (base : Nat) (a : BitVec 8) : Prop :=
  ((48 : Int) ≤ a.toInt ∧ a.toInt ≤ 48 + (if 10 < base then 10 else base) - 1) ∨
  (10 < base ∧ (((65 : Int) ≤ a.toInt ∧ a.toInt ≤ 65 + base - 11) ∨ ((97 : Int) ≤ a.toInt ∧ a.toInt ≤ 97 + base - 11)))

instance (base : Nat) (a : BitVec 8) : Decidable (isDigit base a) := inferInstanceAs (Decidable (_ ∨ _))

def digitValue (a : BitVec 8) : Int :=
  if a.toInt ≤ 57 then a.toInt - 48 else if 97 ≤ a.toInt then a.toInt - 97 + 10 else a.toInt - 65 + 10

/-- The loop of `atoi()`. -/
def atoiDigits (base : Nat) : Text → Unsigned → Unsigned
  | [],     i => i
  | a :: p, i => if isDigit base a then atoiDigits base p (i * BitVec.ofNat 32 base + BitVec.ofInt 32 (digitValue a)) else i

/-- `atoi()` behind a leading `0`. -/
def atoiZero (p : Text) : Unsigned :=
  if deref p = code 'x' ∨ deref p = code 'X' then atoiDigits 16 p.tail 0 else atoiDigits 8 p 0

/-- `atoi()` behind the sign. -/
def atoiBase (p : Text) : Unsigned := if deref p = code '0' then atoiZero p.tail else atoiDigits 10 p 0

def atoi (p : Text) : Unsigned := if deref p = code '-' then atoiBase p.tail * -1 else atoiBase p * 1

/-! ## The loop of `get_info()` -/

/-- The fields of `hw_info` that the command line sets. -/
structure CmdInfo where
  cmdMaxcpu  : Unsigned
  cmdCpumask : Unsigned
  cmdNoacpi  : Unsigned
  cmdNomps   : Unsigned
  deriving DecidableEq

/-- As `get_info()` leaves them before it reads the command line. -/
def CmdInfo.defaults : CmdInfo := ⟨BitVec.ofNat 32 maxCpu, 0xFFFFFFFF, 0, 0⟩

def space : BitVec 8 := code ' '

def maxcpuKey : Text := ascii ['m', 'a', 'x', 'c', 'p', 'u', '=']
def cpumaskKey : Text := ascii ['c', 'p', 'u', 'm', 'a', 's', 'k', '=']
def noacpiWord : Text := ascii ['n', 'o', 'a', 'c', 'p', 'i']
def nompsWord : Text := ascii ['n', 'o', 'm', 'p', 's']

/-- `cmdline`: where it points, counted from the start of the command line, and what stands there. -/
structure Cmdline where
  pos  : Nat
  text : Text

def Cmdline.advance (p : Cmdline) (n : Nat) : Cmdline := ⟨p.pos + n, p.text.drop n⟩

/-- A character that the inner loop passes over. -/
def inWord (c : BitVec 8) : Bool := c != space && c != 0

/-- `while (*cmdline != ' ' && *cmdline != 0) cmdline++;` -/
def Cmdline.toSpace (p : Cmdline) : Cmdline := p.advance (p.text.takeWhile inWord).length

/-- The chain of comparisons in the body of the loop. -/
def readOption (p : Cmdline) (hw : CmdInfo) : Cmdline × CmdInfo :=
  if strncmp p.text (space :: maxcpuKey) 8 = 0 then
    (p.advance 8, { hw with cmdMaxcpu := atoi (p.advance 8).text })
  else if strncmp p.text (space :: cpumaskKey) 9 = 0 then
    (p.advance 9, { hw with cmdCpumask := atoi (p.advance 9).text })
  else if strncmp p.text (space :: noacpiWord ++ [space]) 8 = 0 then
    (p.advance 7, { hw with cmdNoacpi := 1 })
  else if strncmp p.text (space :: nompsWord ++ [space]) 7 = 0 then
    (p.advance 6, { hw with cmdNomps := 1 })
  else (p, hw)

/-- The loop over the command line; `none` where the fuel does not last to its end. -/
def scan : Nat → Cmdline → CmdInfo → Option CmdInfo
  | 0,        _, _  => none
  | fuel + 1, p, hw =>
    if p.pos < 1000 then
      let r := readOption p.toSpace hw
      scan fuel (r.1.advance 1) r.2
    else some hw

def parseCmdline (text : Text) : Option CmdInfo := scan 1001 ⟨0, text⟩ .defaults

/-! ## What the comparisons find -/

/-- **`strncmp()` over the whole of `b` looks for `b` at the head of `a`.** -/
theorem strncmp_eq_zero {b : Text} (hb : ∀ c ∈ b, c ≠ 0) : ∀ {a : Text}, strncmp a b b.length = 0 ↔ b <+: a := by
  induction b with
  | nil => simp [strncmp]
  | cons y b ih =>
    have hy : y ≠ 0#8 := hb y (List.mem_cons_self)
    have hb' : ∀ c ∈ b, c ≠ 0 := fun c hc => hb c (List.mem_cons_of_mem _ hc)
    have hne (x : BitVec 8) (hx : x ≠ y) : x.toInt - y.toInt ≠ 0 := by
      intro h
      exact hx (BitVec.toInt_inj.1 (by omega))
    intro a
    cases a with
    | nil =>
      have := hne 0 hy.symm
      simpa [strncmp, deref] using this
    | cons x a =>
      by_cases hxy : x = y
      · subst hxy
        simpa [strncmp, deref, hy] using ih hb'
      · have := hne x hxy
        simpa [strncmp, deref, hxy, List.cons_prefix_cons, Ne.symm hxy] using this

theorem not_inWord_space : inWord space = false := rfl

theorem not_inWord_nul : inWord 0 = false := rfl

/-- A word without separators is found inside a word or not at all. -/
theorem prefix_word {k : Text} (hk : ∀ c ∈ k, inWord c = true) {c : BitVec 8} (hc : inWord c = false) (u : Text) :
    ∀ {w : Text}, k <+: w ++ c :: u ↔ k <+: w := by
  induction k with
  | nil => simp
  | cons y k ih =>
    have hy : inWord y = true := hk y (List.mem_cons_self)
    intro w
    cases w with
    | nil =>
      have : y ≠ c := by
        rintro rfl
        rw [hy] at hc
        cases hc
      simp [List.cons_prefix_cons, this]
    | cons x w =>
      simp only [List.cons_append, List.cons_prefix_cons]
      exact and_congr_right fun _ => ih fun c hc => hk c (List.mem_cons_of_mem _ hc)

/-- With a separator behind it, only the very word is found. -/
theorem prefix_word_sep {k : Text} (hk : ∀ c ∈ k, inWord c = true) {c d : BitVec 8} (hc : inWord c = false)
    (hd : inWord d = false) (u : Text) :
    ∀ {w : Text}, (∀ c ∈ w, inWord c = true) → (k ++ [d] <+: w ++ c :: u ↔ w = k ∧ d = c) := by
  have hne {x y : BitVec 8} (hx : inWord x = true) (hy : inWord y = false) : x ≠ y := by
    rintro rfl
    rw [hx] at hy
    cases hy
  induction k with
  | nil =>
    intro w hw
    cases w with
    | nil => simp [List.cons_prefix_cons]
    | cons x w => simp [List.cons_prefix_cons, (hne (hw x List.mem_cons_self) hd).symm]
  | cons y k ih =>
    intro w hw
    cases w with
    | nil => simp [List.cons_prefix_cons, hne (hk y List.mem_cons_self) hc]
    | cons x w =>
      have := ih (fun c hc => hk c (List.mem_cons_of_mem _ hc)) (w := w) (fun c hc => hw c (List.mem_cons_of_mem _ hc))
      simp only [List.cons_append, List.cons_prefix_cons, this, List.cons.injEq, @eq_comm _ y x, and_assoc]

/-! ## `atoi()` stops at a separator -/

theorem not_isDigit {c : BitVec 8} (hc : c = space ∨ c = 0) (base : Nat) : ¬ isDigit base c := by
  rcases hc with rfl | rfl <;> simp [isDigit, space, code]

theorem atoiDigits_sep {c : BitVec 8} (hc : c = space ∨ c = 0) (base : Nat) (u : Text) :
    ∀ (v : Text) (i : Unsigned), atoiDigits base (v ++ c :: u) i = atoiDigits base v i
  | [], i => by simp [atoiDigits, not_isDigit hc]
  | a :: v, i => by
    simp only [List.cons_append, atoiDigits]
    split
    · exact atoiDigits_sep hc base u v _
    · rfl

theorem deref_sep {c : BitVec 8} (hc : c = space ∨ c = 0) {k : BitVec 8} (hk : k ≠ space ∧ k ≠ 0) (v u : Text) :
    deref (v ++ c :: u) = k ↔ deref v = k := by
  cases v with
  | nil =>
    have : c ≠ k := by
      rcases hc with rfl | rfl
      · exact hk.1.symm
      · exact hk.2.symm
    have h0 : (0#8) ≠ k := hk.2.symm
    simp [deref, this, h0]
  | cons a v => simp [deref]

theorem atoiZero_sep {c : BitVec 8} (hc : c = space ∨ c = 0) (v u : Text) : atoiZero (v ++ c :: u) = atoiZero v := by
  have hx : (deref (v ++ c :: u) = code 'x' ∨ deref (v ++ c :: u) = code 'X') ↔
      (deref v = code 'x' ∨ deref v = code 'X') :=
    or_congr (deref_sep hc (by decide) v u) (deref_sep hc (by decide) v u)
  by_cases h : deref v = code 'x' ∨ deref v = code 'X'
  · rw [atoiZero, atoiZero, if_pos (hx.2 h), if_pos h]
    cases v with
    | nil => rcases h with h | h <;> cases h
    | cons a v => exact atoiDigits_sep hc 16 u v 0
  · rw [atoiZero, atoiZero, if_neg (mt hx.1 h), if_neg h]
    exact atoiDigits_sep hc 8 u v 0

theorem atoiBase_sep {c : BitVec 8} (hc : c = space ∨ c = 0) (v u : Text) : atoiBase (v ++ c :: u) = atoiBase v := by
  have h0 := deref_sep hc (k := code '0') (by decide) v u
  by_cases h : deref v = code '0'
  · rw [atoiBase, atoiBase, if_pos (h0.2 h), if_pos h]
    cases v with
    | nil => cases h
    | cons a v => exact atoiZero_sep hc v u
  · rw [atoiBase, atoiBase, if_neg (mt h0.1 h), if_neg h]
    exact atoiDigits_sep hc 10 u v 0

theorem atoi_sep {c : BitVec 8} (hc : c = space ∨ c = 0) (v u : Text) : atoi (v ++ c :: u) = atoi v := by
  have h0 := deref_sep hc (k := code '-') (by decide) v u
  by_cases h : deref v = code '-'
  · rw [atoi, atoi, if_pos (h0.2 h), if_pos h]
    cases v with
    | nil => cases h
    | cons a v => exact congrArg (· * -1) (atoiBase_sep hc v u)
  · rw [atoi, atoi, if_neg (mt h0.1 h), if_neg h, atoiBase_sep hc]

/-! ## What a word does -/

/-- What the loop sets at a word it has found whole. -/
def CmdInfo.hear (hw : CmdInfo) (w : Text) : CmdInfo :=
  if maxcpuKey <+: w then { hw with cmdMaxcpu := atoi (w.drop maxcpuKey.length) }
  else if cpumaskKey <+: w then { hw with cmdCpumask := atoi (w.drop cpumaskKey.length) }
  else if w = noacpiWord then { hw with cmdNoacpi := 1 }
  else if w = nompsWord then { hw with cmdNomps := 1 }
  else hw

/-- The loop stands on the separator behind such a word when it takes its last step. -/
def Swallows (w : Text) : Prop := w = noacpiWord ∨ w = nompsWord ∨ w = maxcpuKey ∨ w = cpumaskKey

instance (w : Text) : Decidable (Swallows w) := inferInstanceAs (Decidable (_ ∨ _))

/-- **The words that the loop takes notice of.** The word behind one that swallows its separator is passed over, and
`noacpi` and `nomps` count only with a space behind them. -/
def heeded : List Text → List Text
  | []           => []
  | [w]          => if w = noacpiWord ∨ w = nompsWord then [] else [w]
  | w :: w' :: ws => if Swallows w then w :: heeded ws else w :: heeded (w' :: ws)

/-! ### One round of the loop -/

theorem inWord_maxcpu : ∀ a ∈ maxcpuKey, inWord a = true := by decide
theorem inWord_cpumask : ∀ a ∈ cpumaskKey, inWord a = true := by decide
theorem inWord_noacpi : ∀ a ∈ noacpiWord, inWord a = true := by decide
theorem inWord_nomps : ∀ a ∈ nompsWord, inWord a = true := by decide

theorem ne_nul {k : Text} (hk : ∀ a ∈ k, inWord a = true) : ∀ a ∈ space :: k, a ≠ 0 := by
  intro a ha h0
  subst h0
  rcases List.mem_cons.1 ha with h | h
  · cases h
  · have h0 := hk 0 h
    rw [not_inWord_nul] at h0
    cases h0

theorem ne_nul_sep {k : Text} (hk : ∀ a ∈ k, inWord a = true) : ∀ a ∈ space :: (k ++ [space]), a ≠ 0 := by
  intro a ha h0
  rw [← List.cons_append] at ha
  rcases List.mem_append.1 ha with h | h
  · exact ne_nul hk a h h0
  · rw [List.mem_singleton.1 h] at h0
    cases h0

theorem readOption_none {p : Cmdline} (h : p.text.head? ≠ some space) (hw : CmdInfo) : readOption p hw = (p, hw) := by
  have hno {k : Text} (hk : ∀ a ∈ space :: k, a ≠ 0) {n : Nat} (hn : (space :: k).length = n) :
      strncmp p.text (space :: k) n ≠ 0 := by
    subst hn
    intro hz
    obtain ⟨u, hu⟩ := (strncmp_eq_zero hk).1 hz
    apply h
    rw [← hu]
    rfl
  simp only [readOption, List.cons_append]
  rw [if_neg (hno (ne_nul inWord_maxcpu) (by rfl)), if_neg (hno (ne_nul inWord_cpumask) (by rfl)),
    if_neg (hno (ne_nul_sep inWord_noacpi) (by rfl)), if_neg (hno (ne_nul_sep inWord_nomps) (by rfl))]

/-- The comparisons in front of a word, which ends at `c`. -/
theorem readOption_word (pos : Nat) {w : Text} (hw : ∀ a ∈ w, inWord a = true) {c : BitVec 8} (hc : c = space ∨ c = 0)
    (u : Text) (info : CmdInfo) :
    readOption ⟨pos, space :: (w ++ c :: u)⟩ info =
      if maxcpuKey <+: w then (⟨pos + 8, w.drop 7 ++ c :: u⟩, info.hear w)
      else if cpumaskKey <+: w then (⟨pos + 9, w.drop 8 ++ c :: u⟩, info.hear w)
      else if w = noacpiWord ∧ c = space then (⟨pos + 7, c :: u⟩, info.hear w)
      else if w = nompsWord ∧ c = space then (⟨pos + 6, c :: u⟩, info.hear w)
      else (⟨pos, space :: (w ++ c :: u)⟩, info) := by
  have hcw : inWord c = false := by rcases hc with rfl | rfl <;> rfl
  have hkey {k : Text} (hk : ∀ a ∈ k, inWord a = true) {n : Nat} (hn : (space :: k).length = n) :
      strncmp (space :: (w ++ c :: u)) (space :: k) n = 0 ↔ k <+: w := by
    rw [← hn, strncmp_eq_zero (ne_nul hk), List.cons_prefix_cons, prefix_word hk hcw]
    simp
  have hword {k : Text} (hk : ∀ a ∈ k, inWord a = true) {n : Nat} (hn : (space :: (k ++ [space])).length = n) :
      strncmp (space :: (w ++ c :: u)) (space :: k ++ [space]) n = 0 ↔ w = k ∧ c = space := by
    rw [← hn, List.cons_append, strncmp_eq_zero (ne_nul_sep hk), List.cons_prefix_cons,
      prefix_word_sep hk hcw not_inWord_space u hw,
      eq_comm (a := c)]
    simp
  have hdrop {k : Text} (h : k <+: w) {n : Nat} (hn : k.length = n) :
      (space :: (w ++ c :: u)).drop (n + 1) = w.drop n ++ c :: u := by
    rw [List.drop_succ_cons, List.drop_append_of_le_length (hn ▸ h.length_le)]
  simp only [readOption, hkey inWord_maxcpu (n := 8) (by rfl), hkey inWord_cpumask (n := 9) (by rfl),
    hword inWord_noacpi (n := 8) (by rfl), hword inWord_nomps (n := 7) (by rfl), Cmdline.advance]
  split
  · rename_i h
    rw [hdrop h (n := 7) (by rfl), atoi_sep hc, CmdInfo.hear, if_pos h]
    rfl
  split
  · rename_i h1 h
    rw [hdrop h (n := 8) (by rfl), atoi_sep hc, CmdInfo.hear, if_neg h1, if_pos h]
    rfl
  split
  · rename_i h1 h2 h
    rw [CmdInfo.hear, if_neg h1, if_neg h2, if_pos h.1, h.1]
    rfl
  split
  · rename_i h1 h2 h3 h
    rw [CmdInfo.hear, if_neg h1, if_neg h2, if_neg (by rw [h.1]; decide), if_pos h.1, h.1]
    rfl
  · rfl

theorem toSpace_word (pos : Nat) {v : Text} (hv : ∀ a ∈ v, inWord a = true) {c : BitVec 8} (hc : inWord c = false)
    (u : Text) : (Cmdline.mk pos (v ++ c :: u)).toSpace = ⟨pos + v.length, c :: u⟩ := by
  have htake : (v ++ c :: u).takeWhile inWord = v := by
    rw [List.takeWhile_append_of_pos hv, List.takeWhile_cons_of_neg (by simp [hc]), List.append_nil]
  simp only [Cmdline.toSpace, Cmdline.advance, htake, List.drop_left]

/-- A round that starts in the remainder `v` of a word, in front of a separator. -/
theorem scan_round {fuel pos : Nat} {v : Text} (hv : ∀ a ∈ v, inWord a = true) {c : BitVec 8} (hc : inWord c = false)
    (hpos : pos < 1000) (u : Text) (info : CmdInfo) :
    scan (fuel + 1) ⟨pos, v ++ c :: u⟩ info =
      scan fuel ((readOption ⟨pos + v.length, c :: u⟩ info).1.advance 1) (readOption ⟨pos + v.length, c :: u⟩ info).2 := by
  rw [scan, if_pos hpos, toSpace_word pos hv hc]

/-- **A word that swallows its separator**: the loop goes on behind it, inside the next word. -/
theorem scan_swallow {fuel pos : Nat} {v w : Text} (hv : ∀ a ∈ v, inWord a = true) (hw : ∀ a ∈ w, inWord a = true)
    {c : BitVec 8} (hc : c = space ∨ c = 0) (hpos : pos < 1000)
    (hs : (c = space ∧ Swallows w) ∨ w = maxcpuKey ∨ w = cpumaskKey) (u : Text) (info : CmdInfo) :
    scan (fuel + 1) ⟨pos, v ++ space :: (w ++ c :: u)⟩ info = scan fuel ⟨pos + v.length + w.length + 2, u⟩ (info.hear w) := by
  rw [scan_round hv not_inWord_space hpos, readOption_word _ hw hc]
  have hs' : w = maxcpuKey ∨ w = cpumaskKey ∨ (w = noacpiWord ∧ c = space) ∨ (w = nompsWord ∧ c = space) := by
    unfold Swallows at hs
    grind
  rcases hs' with rfl | rfl | ⟨rfl, rfl⟩ | ⟨rfl, rfl⟩
  · rfl
  · rfl
  · rfl
  · rfl

/-- **Any other word**: the loop goes on inside it, with the separator behind it still ahead. -/
theorem scan_pass {fuel pos : Nat} {v w : Text} (hv : ∀ a ∈ v, inWord a = true) (hw : ∀ a ∈ w, inWord a = true)
    {c : BitVec 8} (hc : c = space ∨ c = 0) (hpos : pos < 1000) (hs : ¬ Swallows w) (u : Text) (info : CmdInfo) :
    ∃ pos' v', (∀ a ∈ v', inWord a = true) ∧ pos < pos' ∧ pos' + v'.length = pos + v.length + 1 + w.length ∧
      scan (fuel + 1) ⟨pos, v ++ space :: (w ++ c :: u)⟩ info = scan fuel ⟨pos', v' ++ c :: u⟩ (info.hear w) := by
  have hc' : inWord c = false := by rcases hc with rfl | rfl <;> rfl
  rw [scan_round hv not_inWord_space hpos, readOption_word _ hw hc]
  -- behind `maxcpu=` or `cpumask=` the loop steps over the first character of the value
  have hvalue {k : Text} (hk : k <+: w) (hne : w ≠ k) {n : Nat} (hn : k.length = n) :
      ∃ a v', w.drop n = a :: v' ∧ (∀ a ∈ v', inWord a = true) ∧ n + 1 + v'.length = w.length := by
    obtain ⟨v', rfl⟩ := hk
    subst hn
    cases v' with
    | nil => exact absurd (List.append_nil k) hne
    | cons a v' =>
      refine ⟨a, v', List.drop_left, fun b hb => hw b ?_, ?_⟩
      · exact List.mem_append_right _ (List.mem_cons_of_mem _ hb)
      · simp only [List.length_append, List.length_cons]
        omega
  by_cases h1 : maxcpuKey <+: w
  · obtain ⟨a, v', hd, hv', hlen⟩ := hvalue h1 (fun h => hs (h ▸ .inr (.inr (.inl rfl)))) (n := 7) (by rfl)
    refine ⟨pos + v.length + 9, v', hv', by omega, by omega, ?_⟩
    rw [if_pos h1, hd]
    rfl
  by_cases h2 : cpumaskKey <+: w
  · obtain ⟨a, v', hd, hv', hlen⟩ := hvalue h2 (fun h => hs (h ▸ .inr (.inr (.inr rfl)))) (n := 8) (by rfl)
    refine ⟨pos + v.length + 10, v', hv', by omega, by omega, ?_⟩
    rw [if_neg h1, if_pos h2, hd]
    rfl
  have h3 : w ≠ noacpiWord := fun h => hs (.inl h)
  have h4 : w ≠ nompsWord := fun h => hs (.inr (.inl h))
  refine ⟨pos + v.length + 1, w, hw, by omega, by omega, ?_⟩
  rw [if_neg h1, if_neg h2, if_neg (fun h => h3 h.1), if_neg (fun h => h4 h.1), CmdInfo.hear, if_neg h1, if_neg h2,
    if_neg h3, if_neg h4]
  rfl

/-- **`noacpi` or `nomps` at the end** is not noticed. -/
theorem scan_last {fuel pos : Nat} {v w : Text} (hv : ∀ a ∈ v, inWord a = true) (hpos : pos < 1000)
    (hw : w = noacpiWord ∨ w = nompsWord) (u : Text) (info : CmdInfo) :
    scan (fuel + 1) ⟨pos, v ++ space :: (w ++ 0 :: u)⟩ info = scan fuel ⟨pos + v.length + 1, w ++ 0 :: u⟩ info := by
  have hw' : ∀ a ∈ w, inWord a = true := by
    rcases hw with rfl | rfl
    · exact inWord_noacpi
    · exact inWord_nomps
  rw [scan_round hv not_inWord_space hpos, readOption_word _ hw' (.inr rfl)]
  rcases hw with rfl | rfl <;> rfl

/-- **A text without a space** sets nothing. -/
theorem scan_rest : ∀ {fuel : Nat} {p : Cmdline} {info : CmdInfo}, 1000 - p.pos < fuel → space ∉ p.text →
    scan fuel p info = some info
  | 0, p, info, hf, _ => absurd hf (Nat.not_lt_zero _)
  | fuel + 1, p, info, hf, hs => by
    have hs' : space ∉ p.toSpace.text := fun h => hs (List.mem_of_mem_drop h)
    by_cases hpos : p.pos < 1000
    · rw [scan, if_pos hpos, readOption_none (fun h => hs' (List.mem_of_mem_head? h))]
      apply scan_rest
      · simp only [Cmdline.advance, Cmdline.toSpace]
        omega
      · exact fun h => hs' (List.mem_of_mem_drop h)
    · rw [scan, if_neg hpos]

/-! ### The whole line -/

/-- The words `ws`, a space in front of each, and what follows the NUL behind them. -/
def line (ws : List Text) (rest : Text) : Text := ws.flatMap (space :: ·) ++ 0 :: rest

theorem line_cons (w : Text) (ws : List Text) (rest : Text) : line (w :: ws) rest = space :: (w ++ line ws rest) := by
  simp [line]

theorem scan_nul {fuel pos : Nat} {v rest : Text} {info : CmdInfo} (hr : space ∉ rest) (hv : ∀ a ∈ v, inWord a = true)
    (hf : 1000 - pos < fuel) : scan fuel ⟨pos, v ++ 0 :: rest⟩ info = some info := by
  apply scan_rest hf
  intro h
  rcases List.mem_append.1 h with h | h
  · exact absurd (hv _ h) (by decide)
  rcases List.mem_cons.1 h with h | h
  · exact absurd h (by decide)
  · exact hr h

/-- **The options are those of the words the loop takes notice of.** -/
theorem scan_line {rest : Text} (hr : space ∉ rest) (ws : List Text) :
    ∀ {fuel pos : Nat} {v : Text} {info : CmdInfo}, (∀ a ∈ v, inWord a = true) → (∀ w ∈ ws, ∀ a ∈ w, inWord a = true) →
      pos + v.length + (ws.flatMap (space :: ·)).length < 1000 → 1000 - pos < fuel →
      scan fuel ⟨pos, v ++ line ws rest⟩ info = some ((heeded ws).foldl CmdInfo.hear info) := by
  induction ws using heeded.induct with
  | case1 =>
    intro fuel pos v info hv _ _ hf
    exact scan_nul hr hv hf
  | case2 w hlast =>
    intro fuel pos v info hv hw hlen hf
    obtain ⟨f, rfl⟩ : ∃ f, fuel = f + 1 := ⟨fuel - 1, by omega⟩
    rw [heeded, if_pos hlast, line_cons]
    refine (scan_last hv (by omega) hlast rest info).trans ?_
    exact scan_nul hr (hw w List.mem_cons_self) (by omega)
  | case3 w hlast =>
    intro fuel pos v info hv hw hlen hf
    obtain ⟨f, rfl⟩ : ∃ f, fuel = f + 1 := ⟨fuel - 1, by omega⟩
    have hww := hw w List.mem_cons_self
    rw [heeded, if_neg hlast, line_cons]
    by_cases hkey : w = maxcpuKey ∨ w = cpumaskKey
    · refine (scan_swallow hv hww (.inr rfl) (by omega) (.inr hkey) rest info).trans ?_
      exact scan_rest (by simp only; omega) hr
    · have hpass : ¬Swallows w := by unfold Swallows; grind
      obtain ⟨pos', v', hv', hlt, -, hscan⟩ := @scan_pass f pos v w hv hww 0 (.inr rfl) (by omega) hpass rest info
      refine hscan.trans ?_
      exact scan_nul hr hv' (by omega)
  | case4 w w' ws hs ih =>
    intro fuel pos v info hv hw hlen hf
    obtain ⟨f, rfl⟩ : ∃ f, fuel = f + 1 := ⟨fuel - 1, by omega⟩
    simp only [List.flatMap_cons, List.length_append, List.length_cons] at hlen
    rw [heeded, if_pos hs, line_cons, line_cons, List.foldl_cons]
    refine (scan_swallow hv (hw w List.mem_cons_self) (.inl rfl) (by omega) (.inl ⟨rfl, hs⟩) _ info).trans ?_
    exact ih (hw w' (List.mem_cons_of_mem _ List.mem_cons_self))
      (fun x hx => hw x (List.mem_cons_of_mem _ (List.mem_cons_of_mem _ hx))) (by omega) (by omega)
  | case5 w w' ws hs ih =>
    intro fuel pos v info hv hw hlen hf
    obtain ⟨f, rfl⟩ : ∃ f, fuel = f + 1 := ⟨fuel - 1, by omega⟩
    simp only [List.flatMap_cons, List.length_append, List.length_cons] at hlen
    rw [heeded, if_neg hs, line_cons, line_cons, List.foldl_cons]
    obtain ⟨pos', v', hv', hlt, hend, hscan⟩ := @scan_pass f pos v w hv (hw w List.mem_cons_self) space (.inl rfl)
      (by omega) hs (w' ++ line ws rest) info
    refine hscan.trans ?_
    rw [← line_cons]
    refine ih hv' (fun x hx => hw x (List.mem_cons_of_mem _ hx)) ?_ (by omega)
    simp only [List.flatMap_cons, List.length_append, List.length_cons]
    omega

/-! ## What the words say -/

/-- `V` of a word `key` `V`, read by `atoi()`. -/
def valueOf (key w : Text) : Option Unsigned := if key <+: w then some (atoi (w.drop key.length)) else none

/-- The value of the last word of the form `key` `V`. -/
def lastValue (key : Text) (default : Unsigned) (ws : List Text) : Unsigned :=
  (ws.filterMap (valueOf key)).getLastD default

/-- **The options as the words of the command line say.** -/
def CmdInfo.said (ws : List Text) : CmdInfo where
  cmdMaxcpu  := lastValue maxcpuKey (BitVec.ofNat 32 maxCpu) ws
  cmdCpumask := lastValue cpumaskKey 0xFFFFFFFF ws
  cmdNoacpi  := if noacpiWord ∈ ws then 1 else 0
  cmdNomps   := if nompsWord ∈ ws then 1 else 0

theorem lastValue_concat (key : Text) (default : Unsigned) (ws : List Text) (w : Text) :
    lastValue key default (ws ++ [w]) =
      if key <+: w then atoi (w.drop key.length) else lastValue key default ws := by
  unfold lastValue valueOf
  split <;> simp [*]

theorem mem_concat_ite (k w : Text) (ws : List Text) :
    (if k ∈ ws ++ [w] then (1 : Unsigned) else 0) = if w = k then 1 else if k ∈ ws then 1 else 0 := by
  by_cases h : w = k
  · simp [h]
  · simp [h, Ne.symm h]

/-- **One word more.** A word is at most one of the four options. -/
theorem said_concat (ws : List Text) (w : Text) : CmdInfo.said (ws ++ [w]) = (CmdInfo.said ws).hear w := by
  have hmc (h : maxcpuKey <+: w) : ¬ cpumaskKey <+: w := by
    obtain ⟨v, rfl⟩ := h
    simp [maxcpuKey, cpumaskKey, ascii, code, List.cons_prefix_cons]
  have hkey {k : Text} (hk : k <+: w) {k' : Text} (hkk : ¬ k <+: k') : w ≠ k' := fun h => hkk (h ▸ hk)
  unfold CmdInfo.said
  rw [lastValue_concat, lastValue_concat, mem_concat_ite, mem_concat_ite]
  unfold CmdInfo.hear
  by_cases h1 : maxcpuKey <+: w
  · rw [if_pos h1, if_neg (hmc h1), if_neg (hkey h1 (by decide)), if_neg (hkey h1 (by decide)), if_pos h1]
  by_cases h2 : cpumaskKey <+: w
  · rw [if_neg h1, if_pos h2, if_neg (hkey h2 (by decide)), if_neg (hkey h2 (by decide)), if_neg h1, if_pos h2]
  by_cases h3 : w = noacpiWord
  · rw [if_neg h1, if_neg h2, if_pos h3, if_neg (by rw [h3]; decide), if_neg h1, if_neg h2, if_pos h3]
  by_cases h4 : w = nompsWord
  · rw [if_neg h1, if_neg h2, if_neg h3, if_pos h4, if_neg h1, if_neg h2, if_neg h3, if_pos h4]
  · rw [if_neg h1, if_neg h2, if_neg h3, if_neg h4, if_neg h1, if_neg h2, if_neg h3, if_neg h4]

theorem foldl_hear (ws : List Text) : ws.foldl CmdInfo.hear .defaults = .said ws := by
  induction ws using List.reverseRecOn with
  | nil => rfl
  | append_singleton ws w ih => rw [List.foldl_append, ih, said_concat, List.foldl_cons, List.foldl_nil]

/-- The space-separated words after the first one. -/
def words (s : Text) : List Text := (s.splitOn space).tail

/-- A text is its first word and, each behind a space, the others. -/
theorem splitOn_words (s : Text) :
    ∃ v ws, s.splitOn space = v :: ws ∧ s = v ++ ws.flatMap (space :: ·) ∧ ∀ w ∈ v :: ws, space ∉ w := by
  induction s with
  | nil => exact ⟨[], [], rfl, rfl, by simp⟩
  | cons a s ih =>
    obtain ⟨v, ws, hsplit, hs, hw⟩ := ih
    rw [List.splitOn_cons_eq_if_modifyHead, hsplit]
    by_cases ha : a = space
    · refine ⟨[], v :: ws, by simp [ha], by simp [ha, ← hs], ?_⟩
      simpa using hw
    · refine ⟨a :: v, ws, by simp [ha], by simp [← hs], ?_⟩
      simpa [Ne.symm ha] using hw

/-- **Each option is set by the words the loop takes notice of as by all.** -/
structure Heard (ws : List Text) : Prop where
  maxcpu  : lastValue maxcpuKey (BitVec.ofNat 32 maxCpu) (heeded ws) = lastValue maxcpuKey (BitVec.ofNat 32 maxCpu) ws
  cpumask : lastValue cpumaskKey 0xFFFFFFFF (heeded ws) = lastValue cpumaskKey 0xFFFFFFFF ws
  noacpi  : noacpiWord ∈ heeded ws ↔ noacpiWord ∈ ws
  nomps   : nompsWord ∈ heeded ws ↔ nompsWord ∈ ws

theorem said_heeded (ws : List Text) : CmdInfo.said (heeded ws) = .said ws ↔ Heard ws := by
  have hbit {p q : Prop} [Decidable p] [Decidable q] : (if p then (1 : Unsigned) else 0) = (if q then 1 else 0) ↔
    (p ↔ q) := by
    split <;> split <;> simp [*]
  unfold CmdInfo.said
  rw [CmdInfo.mk.injEq, hbit, hbit]
  exact ⟨fun ⟨h1, h2, h3, h4⟩ => ⟨h1, h2, h3, h4⟩, fun ⟨h1, h2, h3, h4⟩ => ⟨h1, h2, h3, h4⟩⟩

theorem parseCmdline_eq {s rest : Text} (h0 : (0 : BitVec 8) ∉ s) (hlen : s.length < 1000) (hr : space ∉ rest) :
    parseCmdline (s ++ 0 :: rest) = some (.said (heeded (words s))) := by
  obtain ⟨v, ws, hsplit, hs, hw⟩ := splitOn_words s
  have hwords : words s = ws := by rw [words, hsplit, List.tail_cons]
  have hin : ∀ w ∈ v :: ws, ∀ a ∈ w, inWord a = true := by
    intro w hmem a ha
    have hsp : a ≠ space := fun h => hw w hmem (h ▸ ha)
    have hs0 : a ≠ 0 := by
      rintro rfl
      apply h0
      rw [hs]
      rcases List.mem_cons.1 hmem with rfl | hmem
      · exact List.mem_append_left _ ha
      · exact List.mem_append_right _ (List.mem_flatMap.2 ⟨w, hmem, List.mem_cons_of_mem _ ha⟩)
    exact Bool.and_eq_true_iff.2 ⟨bne_iff_ne.2 hsp, bne_iff_ne.2 hs0⟩
  rw [hwords, ← foldl_hear, parseCmdline]
  have htext : s ++ 0 :: rest = v ++ line ws rest := by rw [line, ← List.append_assoc, ← hs]
  rw [htext]
  refine scan_line hr ws (hin v List.mem_cons_self) (fun w h => hin w (List.mem_cons_of_mem _ h)) ?_ (by omega)
  rwa [Nat.zero_add, ← List.length_append, ← hs]

/-- **The command line is read as its words say exactly when no word that matters is lost.** -/
theorem cmdline_iff {s rest : Text} (h0 : (0 : BitVec 8) ∉ s) (hlen : s.length < 1000) (hr : space ∉ rest) :
    parseCmdline (s ++ 0 :: rest) = some (.said (words s)) ↔ Heard (words s) := by
  rw [parseCmdline_eq h0 hlen hr, Option.some.injEq, said_heeded]

/-- `k maxcpu=2 noacpi x` -/
theorem cmdline_iff_maxcpu :
    parseCmdline (ascii ['k', ' ', 'm', 'a', 'x', 'c', 'p', 'u', '=', '2', ' ', 'n', 'o', 'a', 'c', 'p', 'i', ' ', 'x']
      ++ 0 :: []) = some ⟨2, 0xFFFFFFFF, 1, 0⟩ :=
  ((cmdline_iff (by decide) (by decide) (by decide)).2 ⟨by decide, by decide, by decide, by decide⟩).trans (by decide)

/-- `k noacpi`: the word ends with the command line. -/
theorem noacpi_lost :
    ¬ ∀ s rest : Text, (0 : BitVec 8) ∉ s → s.length < 1000 → space ∉ rest →
      parseCmdline (s ++ 0 :: rest) = some (.said (words s)) := by
  intro h
  have hk := h (ascii ['k', ' ', 'n', 'o', 'a', 'c', 'p', 'i']) [] (by decide) (by decide) (by decide)
  rw [parseCmdline_eq (by decide) (by decide) (by decide), Option.some.injEq] at hk
  exact absurd hk (by decide)

/-- `k nomps noacpi x`: the first option swallows the space that the second one needs. -/
example : heeded (words (ascii ['k', ' ', 'n', 'o', 'm', 'p', 's', ' ', 'n', 'o', 'a', 'c', 'p', 'i', ' ', 'x'])) =
    [nompsWord, ascii ['x']] := by decide

/-! ## What stands behind the NUL

The inner loop stops at the NUL, but the outer one does not: its test is of the pointer. -/

/-- A text up to the next separator. -/
theorem word_split {v : Text} (h0 : (0 : BitVec 8) ∉ v) :
    ∃ w v', v = w ++ v' ∧ (∀ a ∈ w, inWord a = true) ∧ (v' = [] ∨ ∃ u, v' = space :: u) := by
  refine ⟨v.takeWhile inWord, v.dropWhile inWord, List.takeWhile_append_dropWhile.symm, fun a => List.mem_takeWhile_imp, ?_⟩
  cases hd : v.dropWhile inWord with
  | nil => exact .inl rfl
  | cons c u =>
    have hc : inWord c = false := by
      have hhead := List.head?_dropWhile_not inWord v
      rw [hd] at hhead
      simpa using hhead
    have hne : c ≠ 0 := by
      rintro rfl
      exact h0 ((List.dropWhile_sublist _).mem (hd ▸ List.mem_cons_self))
    have hsp : c = space := by
      simp only [inWord, Bool.and_eq_false_iff, bne_eq_false_iff_eq] at hc
      exact hc.resolve_right hne
    exact .inr ⟨u, by rw [hsp]⟩

theorem toSpace_nul (pos : Nat) {w v' : Text} (hw : ∀ a ∈ w, inWord a = true) (hv : v' = [] ∨ ∃ u, v' = space :: u)
    (rest : Text) : (Cmdline.mk pos (w ++ v' ++ 0 :: rest)).toSpace = ⟨pos + w.length, v' ++ 0 :: rest⟩ := by
  rw [List.append_assoc]
  obtain rfl | ⟨u, rfl⟩ := hv
  · exact toSpace_word pos hw not_inWord_nul rest
  · exact toSpace_word pos hw not_inWord_space (u ++ 0 :: rest)

/-- What ends the word in front: the next space, or the NUL. -/
theorem word_end {v' : Text} (hv : v' = [] ∨ ∃ u, v' = space :: u) :
    ∃ c, (c = space ∨ c = 0) ∧ ∀ rest, ∃ u, v' ++ 0 :: rest = c :: u := by
  obtain rfl | ⟨u, rfl⟩ := hv
  · exact ⟨0, .inr rfl, fun rest => ⟨rest, rfl⟩⟩
  · exact ⟨space, .inl rfl, fun rest => ⟨u ++ 0 :: rest, rfl⟩⟩

/-- An option of `n` characters that is found behind the space, whatever stands behind the end of the word. -/
theorem readOption_found {pos n : Nat} {w v' : Text} {c : BitVec 8} (hu : ∀ rest, ∃ u, v' ++ 0 :: rest = c :: u)
    (info info' : CmdInfo) (hn : n ≤ w.length)
    (hr : ∀ u, readOption ⟨pos, space :: (w ++ c :: u)⟩ info = (⟨pos + (n + 1), w.drop n ++ c :: u⟩, info')) :
    ∃ k info', k ≤ (space :: (w ++ v')).length ∧ ∀ rest, readOption ⟨pos, space :: (w ++ v') ++ 0 :: rest⟩ info =
      (⟨pos + k, (space :: (w ++ v')).drop k ++ 0 :: rest⟩, info') := by
  have hlen : n + 1 ≤ (space :: (w ++ v')).length := by
    simp only [List.length_cons, List.length_append]
    omega
  refine ⟨n + 1, info', hlen, fun rest => ?_⟩
  obtain ⟨u, hu⟩ := hu rest
  rw [List.drop_succ_cons, List.drop_append_of_le_length hn, List.cons_append, List.append_assoc, List.append_assoc, hu, hr]

/-- **The comparisons do not look behind the NUL**, and the pointer comes to stand on it at most. -/
theorem readOption_nul (pos : Nat) {v : Text} (h0 : (0 : BitVec 8) ∉ v) (info : CmdInfo) :
    ∃ k info', k ≤ v.length ∧
      ∀ rest, readOption ⟨pos, v ++ 0 :: rest⟩ info = (⟨pos + k, v.drop k ++ 0 :: rest⟩, info') := by
  by_cases hsp : v.head? = some space
  · obtain ⟨v, rfl⟩ : ∃ u, v = space :: u := List.head?_eq_some_iff.1 hsp
    obtain ⟨w, v', rfl, hw, hv⟩ := word_split (fun h => h0 (List.mem_cons_of_mem _ h))
    obtain ⟨c, hc, hu⟩ := word_end hv
    by_cases h1 : maxcpuKey <+: w
    · apply readOption_found hu info (info.hear w) h1.length_le
      intro u
      rw [readOption_word pos hw hc, if_pos h1]
      rfl
    by_cases h2 : cpumaskKey <+: w
    · apply readOption_found hu info (info.hear w) h2.length_le
      intro u
      rw [readOption_word pos hw hc, if_neg h1, if_pos h2]
      rfl
    by_cases h3 : w = noacpiWord ∧ c = space
    · apply readOption_found hu info (info.hear w) (Nat.le_refl w.length)
      intro u
      rw [readOption_word pos hw hc, if_neg h1, if_neg h2, if_pos h3, List.drop_length, h3.1]
      rfl
    by_cases h4 : w = nompsWord ∧ c = space
    · apply readOption_found hu info (info.hear w) (Nat.le_refl w.length)
      intro u
      rw [readOption_word pos hw hc, if_neg h1, if_neg h2, if_neg h3, if_pos h4, List.drop_length, h4.1]
      rfl
    · refine ⟨0, info, Nat.zero_le _, fun rest => ?_⟩
      obtain ⟨u, hu⟩ := hu rest
      rw [List.cons_append, List.append_assoc, hu, readOption_word pos hw hc, if_neg h1, if_neg h2, if_neg h3,
        if_neg h4, ← hu,
        List.drop_zero, List.cons_append, List.append_assoc]
      rfl
  · refine ⟨0, info, Nat.zero_le _, fun rest => ?_⟩
    rw [readOption_none ?_]
    · rfl
    · cases v with
      | nil => exact fun h => absurd (Option.some.inj h) (by decide)
      | cons a v => exact hsp

/-- **The loop steps over the NUL** and goes on with the byte behind it, in a state that is all from the bytes before. -/
theorem scan_cross : ∀ {fuel pos : Nat} {v : Text} {info : CmdInfo}, (0 : BitVec 8) ∉ v → 1000 - pos < fuel →
    ∃ fuel' info', 1000 - (pos + v.length + 1) < fuel' ∧
      ∀ rest, scan fuel ⟨pos, v ++ 0 :: rest⟩ info = scan fuel' ⟨pos + v.length + 1, rest⟩ info'
  | 0,        _,   _, _,    _,  hf => absurd hf (Nat.not_lt_zero _)
  | fuel + 1, pos, v, info, h0, hf => by
    by_cases hpos : pos < 1000
    · obtain ⟨w, v', rfl, hw, hv⟩ := word_split h0
      have h0' : (0 : BitVec 8) ∉ v' := fun h => h0 (List.mem_append_right _ h)
      obtain ⟨k, info', hk, hread⟩ := readOption_nul (pos + w.length) h0' info
      have hround : ∀ rest, scan (fuel + 1) ⟨pos, w ++ v' ++ 0 :: rest⟩ info =
          scan fuel ((Cmdline.mk (pos + w.length + k) (v'.drop k ++ 0 :: rest)).advance 1) info' := by
        intro rest
        rw [scan, if_pos hpos, toSpace_nul pos hw hv, hread]
      have hlen : (v'.drop k).length = v'.length - k := List.length_drop
      rw [List.length_append]
      cases hd : v'.drop k with
      | nil =>
        rw [hd, List.length_nil] at hlen
        refine ⟨fuel, info', by omega, fun rest => ?_⟩
        have hend : pos + w.length + k + 1 = pos + (w.length + v'.length) + 1 := by omega
        rw [hround, hd, ← hend]
        rfl
      | cons a v'' =>
        rw [hd, List.length_cons] at hlen
        have h0'' : (0 : BitVec 8) ∉ v'' := fun h => h0' (List.mem_of_mem_drop (hd ▸ List.mem_cons_of_mem a h))
        obtain ⟨fuel', info'', hf', hscan⟩ := @scan_cross fuel (pos + w.length + k + 1) v'' info' h0'' (by omega)
        have hend : pos + w.length + k + 1 + v''.length + 1 = pos + (w.length + v'.length) + 1 := by omega
        rw [hend] at hf' hscan
        refine ⟨fuel', info'', hf', fun rest => ?_⟩
        rw [hround, hd, ← hscan rest]
        rfl
    · refine ⟨1, info, by omega, fun rest => ?_⟩
      rw [scan, if_neg hpos, scan, if_neg (by simp only; omega)]

/-- Whatever stands behind its NUL, the command line gives the same options. -/
def Local (s : Text) : Prop :=
  ∀ rest rest', ∃ info, parseCmdline (s ++ 0 :: rest) = some info ∧ parseCmdline (s ++ 0 :: rest') = some info

/-- ` maxcpu=` and a digit. -/
def maxcpuOf (d : Char) : Text := space :: maxcpuKey ++ [code d]

theorem scan_maxcpuOf {fuel pos : Nat} (hpos : pos < 1000) (hf : 1000 - pos < fuel) (d : Char) (info : CmdInfo) :
    scan fuel ⟨pos, maxcpuOf d⟩ info = some { info with cmdMaxcpu := atoi [code d] } := by
  obtain ⟨f, rfl⟩ : ∃ f, fuel = f + 1 := ⟨fuel - 1, by omega⟩
  have hread : readOption (Cmdline.mk pos (maxcpuOf d)).toSpace info =
      (⟨pos + 8, [code d]⟩, { info with cmdMaxcpu := atoi [code d] }) := rfl
  rw [scan, if_pos hpos, hread]
  apply scan_rest
  · simp only [Cmdline.advance]
    omega
  · exact List.not_mem_nil

/-- A second memory that gives another `cmd_maxcpu`. -/
theorem Local.le_length {s : Text} (h0 : (0 : BitVec 8) ∉ s) (h : Local s) : 999 ≤ s.length := by
  obtain ⟨fuel, info, hf, hscan⟩ := @scan_cross 1001 0 s .defaults h0 (by decide)
  by_contra hlen
  obtain ⟨i, h1, h2⟩ := h (maxcpuOf '1') (maxcpuOf '2')
  rw [parseCmdline, hscan, scan_maxcpuOf (by omega) hf] at h1 h2
  rw [← h1, Option.some.injEq, CmdInfo.mk.injEq] at h2
  exact absurd h2.1 (by decide)

theorem Local.of_le_length {s : Text} (h0 : (0 : BitVec 8) ∉ s) (hlen : 999 ≤ s.length) : Local s := by
  obtain ⟨fuel, info, hf, hscan⟩ := @scan_cross 1001 0 s .defaults h0 (by decide)
  obtain ⟨f, rfl⟩ : ∃ f, fuel = f + 1 := ⟨fuel - 1, by omega⟩
  have hend : ∀ u, parseCmdline (s ++ 0 :: u) = some info := by
    intro u
    rw [parseCmdline, hscan, scan, if_neg (by simp only; omega)]
  exact fun rest rest' => ⟨info, hend rest, hend rest'⟩

/-- **The options depend on the command line only if and only if** it fills the window of the loop. -/
theorem options_local_iff {s : Text} (h0 : (0 : BitVec 8) ∉ s) : Local s ↔ 999 ≤ s.length :=
  ⟨Local.le_length h0, Local.of_le_length h0⟩

/-- One option, and blanks up to the end of the window. -/
theorem options_local_blanks : Local (maxcpuOf '2' ++ List.replicate 990 space) := by
  have h0 : (0 : BitVec 8) ∉ maxcpuOf '2' ++ List.replicate 990 space := by
    rw [List.mem_append, not_or, List.mem_replicate]
    exact ⟨by decide, fun h => absurd h.2 (by decide)⟩
  have hlen : 999 ≤ (maxcpuOf '2' ++ List.replicate 990 space).length := by
    rw [List.length_append, List.length_replicate]
    decide
  exact (options_local_iff h0).2 hlen

/-- The command line `k`: ` maxcpu=1` and ` maxcpu=2` behind its NUL are both read. -/
theorem options_not_local : ¬ ∀ s : Text, (0 : BitVec 8) ∉ s → Local s :=
  fun h => absurd (Local.le_length (by decide) (h [code 'k'] (by decide))) (by decide)

end SmpBoot
