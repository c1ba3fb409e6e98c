import SmpBoot.Cmdline
/-!
# Keyboard — the scan codes and key codes of `keyboard.c`

A poll finds a byte in the controller's buffer or nothing.  `keyboard_get_scancode()` puts bytes behind a prefix together over
several polls, `scancode_to_keycode()` follows the modifier keys and looks up the others.
-/
namespace SmpBoot

/-! ## Scan codes -/

/-- The static variables of `keyboard_get_scancode()`. -/
structure ScanState where
  e0Code : Unsigned
  e1Code : Unsigned
  e1Prev : BitVec 16
  deriving DecidableEq

def ScanState.reset : ScanState := ⟨0, 0, 0⟩

/-- `keyboard_get_scancode()`, given what the controller's buffer holds. -/
def keyboardGetScancode (s : ScanState) : Option (BitVec 8) → ScanState × BitVec 32
  | none          => (s, 0)
  | some scancode =>
    if s.e0Code = 1 then ({ s with e0Code := 0 }, 0xe000 ||| scancode.setWidth 32)
    else if s.e1Code = 1 then ({ s with e1Prev := scancode.setWidth 16, e1Code := 2 }, scancode.setWidth 32)
    else if s.e1Code = 2 then
      ({ s with e1Code := 0 }, 0xe10000 ||| (s.e1Prev.setWidth 32 <<< 8) ||| scancode.setWidth 32)
    else if scancode = 0xe0 then ({ s with e0Code := 1 }, 0)
    else if scancode = 0xe1 then ({ s with e1Code := 1 }, 0)
    else (s, scancode.setWidth 32)

/-- The values that successive calls return. -/
def scancodes (s : ScanState) : List (Option (BitVec 8)) → List (BitVec 32)
  | []            => []
  | poll :: polls => (keyboardGetScancode s poll).2 :: scancodes (keyboardGetScancode s poll).1 polls

/-- The ones that are not 0: what `wait_for_key()` takes. -/
def keysOf (s : ScanState) (polls : List (Option (BitVec 8))) : List (BitVec 32) := (scancodes s polls).filter (· ≠ 0)

/-- **The decoding of a stream of bytes.** -/
def decode : List (BitVec 8) → List (BitVec 32)
  | []        => []
  | a :: rest =>
    if a = 0xe0 then
      match rest with
      | []        => []
      | b :: rest => (0xe000 ||| b.setWidth 32) :: decode rest
    else if a = 0xe1 then
      match rest with
      | b :: c :: rest => (0xe10000 ||| (b.setWidth 32 <<< 8) ||| c.setWidth 32) :: decode rest
      | _              => []
    else if a = 0 then decode rest else a.setWidth 32 :: decode rest

/-- **Every first byte behind an `E1` is 0**, where the decoding finds one. -/
def Silent : List (BitVec 8) → Prop
  | []        => True
  | a :: rest =>
    if a = 0xe0 then
      match rest with
      | []        => True
      | _ :: rest => Silent rest
    else if a = 0xe1 then
      match rest with
      | []             => True
      | [b]            => b = 0
      | b :: _ :: rest => b = 0 ∧ Silent rest
    else Silent rest

theorem setWidth_eq_zero {b : BitVec 8} (h : b.setWidth 32 = 0) : b = 0 := by
  apply BitVec.eq_of_toNat_eq
  have hb := congrArg BitVec.toNat h
  rwa [BitVec.toNat_setWidth_of_le (by decide)] at hb

theorem or_ne_zero {a : BitVec 32} (h : a ≠ 0) (b : BitVec 32) : a ||| b ≠ 0 := fun he => h (BitVec.or_eq_zero_iff.1 he).1

theorem keysOf_cons (s : ScanState) (poll : Option (BitVec 8)) (polls : List (Option (BitVec 8))) : keysOf s (poll :: polls) =
    [(keyboardGetScancode s poll).2].filter (· ≠ 0) ++ keysOf (keyboardGetScancode s poll).1 polls :=
  List.filter_append [(keyboardGetScancode s poll).2] (scancodes (keyboardGetScancode s poll).1 polls)

theorem keysOf_zero {s s' : ScanState} {poll : Option (BitVec 8)} (h : keyboardGetScancode s poll = (s', 0))
    (polls : List (Option (BitVec 8))) : keysOf s (poll :: polls) = keysOf s' polls := by
  rw [keysOf_cons, h]
  rfl

theorem filter_ne_zero {x : BitVec 32} (h : x ≠ 0) : [x].filter (· ≠ 0) = [x] :=
  List.filter_eq_self.2 fun _ hy => decide_eq_true (List.mem_singleton.1 hy ▸ h)

theorem keysOf_code {s s' : ScanState} {poll : Option (BitVec 8)} {code : BitVec 32}
    (h : keyboardGetScancode s poll = (s', code))
    (hcode : code ≠ 0) (polls : List (Option (BitVec 8))) : keysOf s (poll :: polls) = code :: keysOf s' polls := by
  rw [keysOf_cons, h, filter_ne_zero hcode]
  rfl

/-- **Polls that find nothing change nothing.** -/
theorem keysOf_filterMap : ∀ (polls : List (Option (BitVec 8))) (s : ScanState),
    keysOf s polls = keysOf s ((polls.filterMap id).map some)
  | [],              _ => rfl
  | none :: polls,   s => keysOf_filterMap polls s
  | some b :: polls, s => by
    have hmap : ((some b :: polls).filterMap id).map some = some b :: (polls.filterMap id).map some := rfl
    rw [hmap, keysOf_cons, keysOf_cons, keysOf_filterMap polls]

/-- What comes out while no prefix is pending. -/
def idleKeys (prev : BitVec 16) (bytes : List (BitVec 8)) : List (BitVec 32) := keysOf ⟨0, 0, prev⟩ (bytes.map some)

section
variable (prev : BitVec 16) (a b c : BitVec 8) (rest : List (BitVec 8))

theorem idleKeys_e0 : idleKeys prev (0xe0 :: b :: rest) = (0xe000 ||| b.setWidth 32) :: idleKeys prev rest := by
  have hprefix : keyboardGetScancode ⟨0, 0, prev⟩ (some 0xe0) = (⟨1, 0, prev⟩, 0) := rfl
  have hcode : keyboardGetScancode ⟨1, 0, prev⟩ (some b) = (⟨0, 0, prev⟩, 0xe000 ||| b.setWidth 32) := rfl
  exact (keysOf_zero hprefix _).trans (keysOf_code hcode (or_ne_zero (by decide) _) _)

/-- The first byte behind `E1` comes out by itself. -/
theorem idleKeys_leak : idleKeys prev (0xe1 :: b :: rest) =
    [b.setWidth 32].filter (· ≠ 0) ++ keysOf ⟨0, 2, b.setWidth 16⟩ (rest.map some) := by
  have hprefix : keyboardGetScancode ⟨0, 0, prev⟩ (some 0xe1) = (⟨0, 1, prev⟩, 0) := rfl
  have hleak : keyboardGetScancode ⟨0, 1, prev⟩ (some b) = (⟨0, 2, b.setWidth 16⟩, b.setWidth 32) := rfl
  have hstart : idleKeys prev (0xe1 :: b :: rest) = keysOf ⟨0, 1, prev⟩ (some b :: rest.map some) := keysOf_zero hprefix _
  rw [hstart, keysOf_cons, hleak]

theorem idleKeys_e1 : idleKeys prev (0xe1 :: b :: c :: rest) = [b.setWidth 32].filter (· ≠ 0) ++
    (0xe10000 ||| (b.setWidth 32 <<< 8) ||| c.setWidth 32) :: idleKeys (b.setWidth 16) rest := by
  have hwidth : (b.setWidth 16).setWidth 32 = b.setWidth 32 := by
    apply BitVec.eq_of_toNat_eq
    have hb := b.isLt
    simp only [BitVec.toNat_setWidth]
    omega
  have hcode : keyboardGetScancode ⟨0, 2, b.setWidth 16⟩ (some c) =
      (⟨0, 0, b.setWidth 16⟩, 0xe10000 ||| (b.setWidth 32 <<< 8) ||| c.setWidth 32) := by
    rw [← hwidth]
    rfl
  have hne : (0xe10000 ||| (b.setWidth 32 <<< 8) ||| c.setWidth 32 : BitVec 32) ≠ 0 := or_ne_zero (or_ne_zero (by decide) _) _
  rw [idleKeys_leak, List.map_cons, keysOf_code hcode hne]
  rfl

theorem idleKeys_plain (h0 : a ≠ 0xe0) (h1 : a ≠ 0xe1) :
    idleKeys prev (a :: rest) = [a.setWidth 32].filter (· ≠ 0) ++ idleKeys prev rest := by
  have hcode : keyboardGetScancode ⟨0, 0, prev⟩ (some a) = (⟨0, 0, prev⟩, a.setWidth 32) := by
    have hone : (0 : Unsigned) ≠ 1 := by decide
    have htwo : (0 : Unsigned) ≠ 2 := by decide
    rw [keyboardGetScancode, if_neg hone, if_neg hone, if_neg htwo, if_neg h0, if_neg h1]
  have hmap : (a :: rest).map some = some a :: rest.map some := rfl
  rw [idleKeys, hmap, keysOf_cons, hcode]
  rfl

end

/-- A byte that is not 0 comes out. -/
theorem filter_byte (b : BitVec 8) :
    [b.setWidth 32].filter (· ≠ (0 : BitVec 32)) = if b = 0 then [] else [b.setWidth 32] := by
  by_cases hb : b = 0
  · rw [if_pos hb, hb]
    rfl
  · rw [if_neg hb, filter_ne_zero fun h => hb (setWidth_eq_zero h)]

/-- **Nothing of the decoding is lost.** -/
theorem decode_sublist (prev : BitVec 16) (bytes : List (BitVec 8)) : (decode bytes).Sublist (idleKeys prev bytes) := by
  fun_induction decode bytes generalizing prev with
  | case1 => exact .refl _
  | case2 => exact List.nil_sublist _
  | case3 b rest ih =>
    rw [idleKeys_e0]
    exact (ih prev).cons_cons _
  | case4 b c rest h ih =>
    rw [idleKeys_e1]
    exact ((ih _).cons_cons _).trans (List.sublist_append_right _ _)
  | case5 => exact List.nil_sublist _
  | case6 rest h0 h1 ih =>
    rw [idleKeys_plain _ _ _ h0 h1]
    exact ih prev
  | case7 a rest h0 h1 h2 ih =>
    rw [idleKeys_plain _ _ _ h0 h1, filter_byte, if_neg h2]
    exact (ih prev).cons_cons _

theorem silent_e0 (b : BitVec 8) (rest : List (BitVec 8)) : Silent (0xe0 :: b :: rest) ↔ Silent rest := by
  rw [Silent.eq_def]
  rfl

theorem silent_e1 (b c : BitVec 8) (rest : List (BitVec 8)) : Silent (0xe1 :: b :: c :: rest) ↔ b = 0 ∧ Silent rest := by
  rw [Silent.eq_def]
  rfl

theorem silent_plain {a : BitVec 8} (h0 : a ≠ 0xe0) (h1 : a ≠ 0xe1) (rest : List (BitVec 8)) :
    Silent (a :: rest) ↔ Silent rest := by
  rw [Silent.eq_def]
  simp only [if_neg h0, if_neg h1]

/-- **The codes are the decoding exactly if nothing comes out behind an `E1`.** -/
theorem idleKeys_iff (prev : BitVec 16) (bytes : List (BitVec 8)) : idleKeys prev bytes = decode bytes ↔ Silent bytes := by
  fun_induction decode bytes generalizing prev with
  | case1 => exact iff_of_true rfl trivial
  | case2 => exact iff_of_true rfl trivial
  | case3 b rest ih => rw [idleKeys_e0, List.cons_inj_right, ih prev, silent_e0]
  | case4 b c rest h ih =>
    rw [idleKeys_e1, filter_byte, silent_e1]
    by_cases hb : b = 0
    · rw [if_pos hb, List.nil_append, List.cons_inj_right, ih, and_iff_right hb]
    · -- one code too many, and none is lost
      rw [if_neg hb, List.singleton_append]
      refine iff_of_false (fun he => ?_) fun h => hb h.1
      have hlen := congrArg List.length he
      have hle := (decode_sublist (b.setWidth 16) rest).length_le
      simp only [List.length_cons] at hlen
      omega
  | case5 rest hshort =>
    match rest, hshort with
    | [], _ => exact iff_of_true rfl trivial
    | [b], _ =>
      rw [idleKeys_leak, filter_byte]
      by_cases hb : b = 0
      · rw [if_pos hb]
        exact iff_of_true rfl hb
      · rw [if_neg hb]
        exact iff_of_false (List.cons_ne_nil _ _) hb
    | b :: c :: rest, hshort => exact absurd rfl (hshort b c rest)
  | case6 rest h0 h1 ih =>
    rw [idleKeys_plain _ _ _ h0 h1, silent_plain h0 h1]
    exact ih prev
  | case7 a rest h0 h1 h2 ih =>
    rw [idleKeys_plain _ _ _ h0 h1, filter_byte, if_neg h2, List.singleton_append, List.cons_inj_right, ih prev,
      silent_plain h0 h1]

/-- **`keyboard_get_scancode()` returns the codes of the stream exactly if every first byte behind an `E1` is 0.** -/
theorem scancodes_iff (polls : List (Option (BitVec 8))) :
    (scancodes .reset polls).filter (· ≠ 0) = decode (polls.filterMap id) ↔ Silent (polls.filterMap id) := by
  have hkeys : (scancodes .reset polls).filter (· ≠ 0) = idleKeys 0 (polls.filterMap id) := keysOf_filterMap polls .reset
  rw [hkeys]
  exact idleKeys_iff 0 (polls.filterMap id)

/-- The first half of Pause: the middle byte is returned as the press of Ctrl. -/
theorem scancodes_pause : (scancodes .reset [some 0xe1, none, some 0x1d, some 0x45]).filter (· ≠ 0) = [0x1d, 0xe11d45] ∧
    decode [0xe1, 0x1d, 0x45] = [0xe11d45] := by
  decide

/-! ## Key codes -/

def kbmShift : Nat := 0
def kbmCtrl : Nat := 1

def keyEsc : BitVec 8 := 200
def keyUp : BitVec 8 := 201
def keyDown : BitVec 8 := 202
def keyPgup : BitVec 8 := 205
def keyPgdown : BitVec 8 := 206
def keyHome : BitVec 8 := 207
def keyEnd : BitVec 8 := 208

/-- A case of the `switch`. -/
inductive KeyAction where
  /-- `BIT_SET(kb_modifier, bit)` -/
  | press (bit : Nat)
  /-- `BIT_CLEAR(kb_modifier, bit)` -/
  | release (bit : Nat)
  /-- What is returned if `KBM_SHIFT` is clear, and if it is not. -/
  | shifted (plain upper : Char)
  | always (keycode : BitVec 8)
  deriving DecidableEq

open KeyAction in
def keyActions : List (BitVec 32 × KeyAction) := [
  (0x2a, press kbmShift), (0xaa, release kbmShift),
  (0x36, press kbmShift), (0xb6, release kbmShift),
  (0x1d, press kbmCtrl), (0x9d, release kbmCtrl),
  (0x01, always keyEsc),
  (0x02, shifted '1' '!'), (0x03, shifted '2' '"'), (0x04, shifted '3' '3'), (0x05, shifted '4' '$'), (0x06, shifted '5' '%'),
  (0x07, shifted '6' '&'), (0x08, shifted '7' '/'), (0x09, shifted '8' '('), (0x0a, shifted '9' ')'), (0x0b, shifted '0' '='),
  (0x0e, always 8),
  (0x10, shifted 'q' 'Q'), (0x11, shifted 'w' 'W'), (0x12, shifted 'e' 'E'), (0x13, shifted 'r' 'R'), (0x14, shifted 't' 'T'),
  (0x15, shifted 'z' 'Z'), (0x16, shifted 'u' 'U'), (0x17, shifted 'i' 'I'), (0x18, shifted 'o' 'O'), (0x19, shifted 'p' 'P'),
  (0x1c, always (code '\n')),
  (0x1e, shifted 'a' 'A'), (0x1f, shifted 's' 'S'), (0x20, shifted 'd' 'D'), (0x21, shifted 'f' 'F'), (0x22, shifted 'g' 'G'),
  (0x23, shifted 'h' 'H'), (0x24, shifted 'j' 'J'), (0x25, shifted 'k' 'K'), (0x26, shifted 'l' 'L'),
  (0x2c, shifted 'y' 'Y'), (0x2d, shifted 'x' 'X'), (0x2e, shifted 'c' 'C'), (0x2f, shifted 'v' 'V'), (0x30, shifted 'b' 'B'),
  (0x31, shifted 'n' 'N'), (0x32, shifted 'm' 'M'),
  (0x39, always (code ' ')),
  (0xe048, always keyUp), (0xe050, always keyDown), (0xe049, always keyPgup), (0xe051, always keyPgdown),
  (0xe047, always keyHome), (0xe04f, always keyEnd)]

/-- `scancode_to_keycode()` on `kb_modifier`. -/
def scancodeToKeycode (modifier scancode : BitVec 32) : BitVec 32 × BitVec 8 :=
  match keyActions.lookup scancode with
  | some (.press bit)           => (bitSet modifier bit, 0)
  | some (.release bit)         => (bitClear modifier bit, 0)
  | some (.shifted plain upper) => (modifier, if isBitClear modifier kbmShift then code plain else code upper)
  | some (.always keycode)      => (modifier, keycode)
  | none                        => (modifier, 0)

/-- `kb_modifier` after a history of scan codes. -/
def modifierAfter (history : List (BitVec 32)) : BitVec 32 :=
  history.foldl (fun modifier scancode => (scancodeToKeycode modifier scancode).1) 0

/-- The shift keys that are held. -/
structure Shifts where
  left  : Bool
  right : Bool
  deriving DecidableEq

def Shifts.after (held : Shifts) (scancode : BitVec 32) : Shifts :=
  if scancode = 0x2a then { held with left := true }
  else if scancode = 0xaa then { held with left := false }
  else if scancode = 0x36 then { held with right := true }
  else if scancode = 0xb6 then { held with right := false }
  else held

def heldAfter (history : List (BitVec 32)) : Shifts := history.foldl Shifts.after ⟨false, false⟩

/-- A shift key is not released while the other one is held. -/
def Shifts.Alone (held : Shifts) (scancode : BitVec 32) : Prop :=
  (scancode = 0xaa → held.right = false) ∧ (scancode = 0xb6 → held.left = false)

instance (held : Shifts) (scancode : BitVec 32) : Decidable (held.Alone scancode) :=
  inferInstanceAs (Decidable ((_ → _) ∧ (_ → _)))

/-- The letters by their scan codes. -/
def letters : List (BitVec 32 × Char) := [
  (0x10, 'q'), (0x11, 'w'), (0x12, 'e'), (0x13, 'r'), (0x14, 't'), (0x15, 'z'), (0x16, 'u'), (0x17, 'i'), (0x18, 'o'),
  (0x19, 'p'),
  (0x1e, 'a'), (0x1f, 's'), (0x20, 'd'), (0x21, 'f'), (0x22, 'g'), (0x23, 'h'), (0x24, 'j'), (0x25, 'k'), (0x26, 'l'),
  (0x2c, 'y'), (0x2d, 'x'), (0x2e, 'c'), (0x2f, 'v'), (0x30, 'b'), (0x31, 'n'), (0x32, 'm')]

/-! ## The modifier -/

def shiftCodes : List (BitVec 32) := [0x2a, 0xaa, 0x36, 0xb6]

def KeyAction.bit : KeyAction → Option Nat
  | .press bit   => some bit
  | .release bit => some bit
  | _            => none

theorem mem_keyActions {scancode : BitVec 32} {action : KeyAction} (h : keyActions.lookup scancode = some action) :
    (scancode, action) ∈ keyActions := by
  obtain ⟨l₁, l₂, he, -⟩ := List.lookup_eq_some_iff.1 h
  rw [he]
  exact List.mem_append_right l₁ List.mem_cons_self

/-- Only the cases of the shift keys have their bit. -/
theorem bit_of_lookup {scancode : BitVec 32} (h : scancode ∉ shiftCodes) {action : KeyAction}
    (ha : keyActions.lookup scancode = some action) : action.bit = none ∨ action.bit = some kbmCtrl := by
  have hall : keyActions.all fun e => decide (e.1 ∈ shiftCodes ∨ e.2.bit = none ∨ e.2.bit = some kbmCtrl) := by decide
  have hentry := of_decide_eq_true (List.all_eq_true.1 hall _ (mem_keyActions ha))
  exact hentry.resolve_left h

/-- **A scan code that is none of the shift keys' leaves their bit alone.** -/
theorem keeps_shift {scancode : BitVec 32} (h : scancode ∉ shiftCodes) (m : BitVec 32) :
    isBitSet (scancodeToKeycode m scancode).1 kbmShift = isBitSet m kbmShift := by
  have hbit := @bit_of_lookup scancode h
  rw [scancodeToKeycode]
  split
  · rename_i bit ha
    obtain rfl : bit = kbmCtrl := by simpa [KeyAction.bit] using hbit ha
    rw [isBitSet_bitSet (by decide)]
    rfl
  · rename_i bit ha
    obtain rfl : bit = kbmCtrl := by simpa [KeyAction.bit] using hbit ha
    rw [isBitSet_bitClear]
    rfl
  · rfl
  · rfl
  · rfl

theorem press_shift {scancode : BitVec 32} (h : scancode = 0x2a ∨ scancode = 0x36) (m : BitVec 32) :
    isBitSet (scancodeToKeycode m scancode).1 kbmShift = true := by
  have hlookup : keyActions.lookup scancode = some (.press kbmShift) := by rcases h with rfl | rfl <;> decide
  rw [scancodeToKeycode, hlookup]
  simp only
  rw [isBitSet_bitSet (by decide)]
  rfl

theorem release_shift {scancode : BitVec 32} (h : scancode = 0xaa ∨ scancode = 0xb6) (m : BitVec 32) :
    isBitSet (scancodeToKeycode m scancode).1 kbmShift = false := by
  have hlookup : keyActions.lookup scancode = some (.release kbmShift) := by rcases h with rfl | rfl <;> decide
  rw [scancodeToKeycode, hlookup]
  simp only
  rw [isBitSet_bitClear]
  rfl

/-- **The bit says whether a shift key is held.** -/
def Follows (m : BitVec 32) (held : Shifts) : Prop := isBitSet m kbmShift = (held.left || held.right)

theorem Follows.step {m : BitVec 32} {held : Shifts} (h : Follows m held) {scancode : BitVec 32} (ha : held.Alone scancode) :
    Follows (scancodeToKeycode m scancode).1 (held.after scancode) := by
  unfold Follows Shifts.after
  by_cases h2a : scancode = 0x2a
  · rw [if_pos h2a, press_shift (.inl h2a)]
    rfl
  · by_cases haa : scancode = 0xaa
    · rw [if_neg h2a, if_pos haa, release_shift (.inl haa), ha.1 haa]
      rfl
    · by_cases h36 : scancode = 0x36
      · rw [if_neg h2a, if_neg haa, if_pos h36, press_shift (.inr h36), Bool.or_true]
      · by_cases hb6 : scancode = 0xb6
        · rw [if_neg h2a, if_neg haa, if_neg h36, if_pos hb6, release_shift (.inr hb6), ha.2 hb6]
          rfl
        · have hother : scancode ∉ shiftCodes := by
            simp only [shiftCodes, List.mem_cons, List.not_mem_nil, or_false, not_or]
            exact ⟨h2a, haa, h36, hb6⟩
          rw [if_neg h2a, if_neg haa, if_neg h36, if_neg hb6, keeps_shift hother]
          exact h

/-- **Along every history in which no shift key is released while the other one is held.** -/
theorem follows_history : ∀ (history : List (BitVec 32)) {m : BitVec 32} {held : Shifts}, Follows m held →
    (∀ pre scancode post, history = pre ++ scancode :: post → (pre.foldl Shifts.after held).Alone scancode) →
    Follows (history.foldl (fun m scancode => (scancodeToKeycode m scancode).1) m) (history.foldl Shifts.after held)
  | [],                  _, _, h, _  => h
  | scancode :: history, _, _, h, ha => by
    apply follows_history history (h.step (ha [] scancode history rfl))
    intro pre scancode' post he
    exact ha (scancode :: pre) scancode' post (congrArg (scancode :: ·) he)

theorem lookup_letter {l : BitVec 32 × Char} (h : l ∈ letters) : keyActions.lookup l.1 = some (.shifted l.2 l.2.toUpper) := by
  have hall : letters.all fun l => keyActions.lookup l.1 = some (.shifted l.2 l.2.toUpper) := by decide
  exact of_decide_eq_true (List.all_eq_true.1 hall l h)

/-- **A letter is in upper case exactly if a shift key is held**, as long as no shift key was released while the other one
was held. -/
theorem scancodeToKeycode_letter (history : List (BitVec 32))
    (ha : ∀ pre scancode post, history = pre ++ scancode :: post → (heldAfter pre).Alone scancode)
    {l : BitVec 32 × Char} (hl : l ∈ letters) :
    (scancodeToKeycode (modifierAfter history) l.1).2 =
      code (if (heldAfter history).left || (heldAfter history).right then l.2.toUpper else l.2) := by
  have hbit : Follows (modifierAfter history) (heldAfter history) := follows_history history rfl ha
  rw [scancodeToKeycode, lookup_letter hl]
  simp only [isBitClear_eq]
  rw [hbit]
  cases (heldAfter history).left || (heldAfter history).right <;> rfl

/-- Both shift keys, one after the other; then one of them is held, with a repeat, Ctrl in between. -/
theorem scancodeToKeycode_letter_a :
    (scancodeToKeycode (modifierAfter [0x36, 0xb6, 0x2a, 0xaa]) 0x1e).2 = code 'a' ∧
    (scancodeToKeycode (modifierAfter [0x2a, 0xaa, 0x36, 0x1d, 0x36, 0x9d]) 0x1e).2 = code 'A' := by
  have halone : ∀ history : List (BitVec 32), (∀ k : Fin history.length, (heldAfter (history.take k)).Alone history[k]) →
      ∀ pre scancode post, history = pre ++ scancode :: post → (heldAfter pre).Alone scancode := by
    rintro - h pre scancode post rfl
    have hk := h ⟨pre.length, by simp⟩
    simpa using hk
  have ha : ((0x1e, 'a') : BitVec 32 × Char) ∈ letters := by decide
  exact ⟨scancodeToKeycode_letter _ (halone [0x36, 0xb6, 0x2a, 0xaa] (by decide)) ha,
    scancodeToKeycode_letter _ (halone [0x2a, 0xaa, 0x36, 0x1d, 0x36, 0x9d] (by decide)) ha⟩

/-- Both shift keys pressed, the right one released: a letter is in lower case although the left one is held. -/
theorem scancodeToKeycode_lower : heldAfter [0x2a, 0x36, 0xb6] = ⟨true, false⟩ ∧
    (scancodeToKeycode (modifierAfter [0x2a, 0x36, 0xb6]) 0x1e).2 = code 'a' := by
  decide

end SmpBoot
