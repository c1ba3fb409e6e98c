import SmpBoot.Keyboard
import SmpBoot.Screen
/-!
# Scrollback — the viewer of the scrollback buffer (`video_scrollback()` of `screen.c`)

Of the viewer the offset is here and what it reads of `buf_scrollback`, for the keys that `wait_for_key()` returns one after
the other.
-/
namespace SmpBoot

/-- The test at the head of the loop. -/
def clampOffset (offsetY : Unsigned) : Unsigned :=
  if offsetY > BitVec.ofNat 32 scrollbackBufSize then BitVec.ofNat 32 scrollbackBufSize else offsetY

/-- The indices `(y+offset_y)*80+x` of one round. -/
def viewReads (offsetY : Unsigned) : List Unsigned :=
  (List.range 23).flatMap fun y => (List.range 80).map fun x => (BitVec.ofNat 32 y + offsetY) * 80 + BitVec.ofNat 32 x

/-- `KEY_PGUP` -/
def pageUp (offsetY : Unsigned) : Unsigned := if offsetY > 20 then offsetY - 20 else 0

/-- The `switch`, `KEY_ESC` apart; `KEY_END` goes on into `KEY_PGUP`. -/
def pressKey (bufY offsetY : Unsigned) (key : BitVec 8) : Unsigned :=
  if key = keyUp then (if offsetY > 0 then offsetY - 1 else offsetY)
  else if key = keyDown then offsetY + 1
  else if key = keyPgdown then offsetY + 20
  else if key = keyHome then 0
  else if key = keyEnd then pageUp bufY
  else if key = keyPgup then pageUp offsetY
  else offsetY

/-- The offsets that are shown. -/
def views (bufY : Unsigned) : Unsigned → List (BitVec 8) → List Unsigned
  | offsetY, []          => [clampOffset offsetY]
  | offsetY, key :: keys =>
    clampOffset offsetY :: if key = keyEsc then [] else views bufY (pressKey bufY (clampOffset offsetY) key) keys

/-- **A view of recorded lines inside the buffer.** -/
structure Shown (bufY offsetY : Unsigned) : Prop where
  inside   : ∀ i ∈ viewReads offsetY, i.toNat < scrollbackBufSize
  recorded : offsetY.toNat ≤ bufY.toNat

/-- The last offset whose view is inside the buffer. -/
def lastOffset : Nat := 1024 - 23

/-- **The keys that go down stay within the recorded lines and the buffer.** -/
structure InRange (bufY offsetY : Unsigned) (key : BitVec 8) : Prop where
  down   : key = keyDown → offsetY.toNat + 1 ≤ min bufY.toNat lastOffset
  pgdown : key = keyPgdown → offsetY.toNat + 20 ≤ min bufY.toNat lastOffset
  toEnd  : key = keyEnd → bufY.toNat ≤ lastOffset + 20

/-- Every key pressed before the viewer is left is in range. -/
def KeysInRange (bufY : Unsigned) : Unsigned → List (BitVec 8) → Prop
  | _,       []          => True
  | offsetY, key :: keys => key = keyEsc ∨
    InRange bufY (clampOffset offsetY) key ∧ KeysInRange bufY (pressKey bufY (clampOffset offsetY) key) keys

theorem toNat_bufSize : (BitVec.ofNat 32 scrollbackBufSize).toNat = 81920 := rfl

theorem toNat_clampOffset (offsetY : Unsigned) : (clampOffset offsetY).toNat = min offsetY.toNat 81920 := by
  unfold clampOffset
  split
  · rename_i h
    have hlt : 81920 < offsetY.toNat := h
    rw [toNat_bufSize]
    omega
  · rename_i h
    have hle : ¬ 81920 < offsetY.toNat := h
    omega

theorem toNat_index {offsetY : Unsigned} (h : offsetY.toNat ≤ 81920) {y x : Nat} (hy : y < 23) (hx : x < 80) :
    ((BitVec.ofNat 32 y + offsetY) * 80 + BitVec.ofNat 32 x).toNat = (y + offsetY.toNat) * 80 + x := by
  have h80 : (80 : Unsigned).toNat = 80 := rfl
  rw [BitVec.toNat_add, BitVec.toNat_mul, BitVec.toNat_add, BitVec.toNat_ofNat, BitVec.toNat_ofNat, h80]
  omega

/-- The last character of a view. -/
theorem corner_mem (offsetY : Unsigned) : (BitVec.ofNat 32 22 + offsetY) * 80 + BitVec.ofNat 32 79 ∈ viewReads offsetY := by
  apply List.mem_flatMap.2
  exact ⟨22, by decide, List.mem_map_of_mem (by decide)⟩

/-- **Which views are good.** -/
theorem shown_iff {bufY offsetY : Unsigned} (h : offsetY.toNat ≤ 81920) :
    Shown bufY offsetY ↔ offsetY.toNat ≤ min bufY.toNat lastOffset := by
  have hlast : lastOffset = 1001 := rfl
  have hsize : scrollbackBufSize = 81920 := rfl
  constructor
  · rintro ⟨hin, hrec⟩
    have hcorner := hin _ (corner_mem offsetY)
    rw [toNat_index h (by decide) (by decide)] at hcorner
    omega
  · intro hle
    refine ⟨fun i hi => ?_, by omega⟩
    obtain ⟨y, hy, hi⟩ := List.mem_flatMap.1 hi
    obtain ⟨x, hx, rfl⟩ := List.mem_map.1 hi
    rw [List.mem_range] at hy hx
    rw [toNat_index h hy hx]
    omega

theorem toNat_pageUp (offsetY : Unsigned) : (pageUp offsetY).toNat = offsetY.toNat - 20 := by
  unfold pageUp
  split
  · rename_i h
    have hlt : 20 < offsetY.toNat := h
    rw [BitVec.toNat_sub_of_le (BitVec.le_def.2 (show (20 : Unsigned).toNat ≤ offsetY.toNat from Nat.le_of_lt hlt))]
    rfl
  · rename_i h
    have hle : ¬ 20 < offsetY.toNat := h
    have hzero : (0 : Unsigned).toNat = 0 := rfl
    rw [hzero]
    omega

theorem inRange_of_ne {bufY offsetY : Unsigned} {key : BitVec 8} (hd : key ≠ keyDown) (hp : key ≠ keyPgdown)
    (he : key ≠ keyEnd) :
    InRange bufY offsetY key := ⟨fun h => absurd h hd, fun h => absurd h hp, fun h => absurd h he⟩

/-- The offset behind a key that goes up or stays. -/
theorem pressKey_le {bufY offsetY : Unsigned} {key : BitVec 8} (hd : key ≠ keyDown) (hp : key ≠ keyPgdown)
    (he : key ≠ keyEnd) :
    (pressKey bufY offsetY key).toNat ≤ offsetY.toNat := by
  unfold pressKey
  rw [if_neg hd, if_neg hp, if_neg he]
  split
  · split
    · rename_i h
      have hpos : 0 < offsetY.toNat := h
      rw [BitVec.toNat_sub_of_le (BitVec.le_def.2 (show (1 : Unsigned).toNat ≤ offsetY.toNat from hpos))]
      exact Nat.sub_le _ _
    · exact Nat.le_refl _
  · split
    · exact Nat.zero_le _
    · split
      · rw [toNat_pageUp]
        exact Nat.sub_le _ _
      · exact Nat.le_refl _

/-- **One key**: from a good view to a good view exactly if it is in range. -/
theorem shown_pressKey {bufY offsetY : Unsigned} (h : offsetY.toNat ≤ min bufY.toNat lastOffset) (key : BitVec 8) :
    Shown bufY (clampOffset (pressKey bufY offsetY key)) ↔ InRange bufY offsetY key := by
  have hlast : lastOffset = 1001 := rfl
  rw [shown_iff (by rw [toNat_clampOffset]; omega), toNat_clampOffset]
  have hadd (n : Nat) (hn : n < 100) : (offsetY + BitVec.ofNat 32 n).toNat = offsetY.toNat + n := by
    rw [BitVec.toNat_add, BitVec.toNat_ofNat]
    omega
  by_cases hd : key = keyDown
  · subst hd
    have hnext : (pressKey bufY offsetY keyDown).toNat = offsetY.toNat + 1 := hadd 1 (by decide)
    rw [hnext]
    constructor
    · intro hle
      exact ⟨fun _ => by omega, fun hk => absurd hk (by decide), fun hk => absurd hk (by decide)⟩
    · intro hr
      have hdown := hr.down rfl
      omega
  · by_cases hp : key = keyPgdown
    · subst hp
      have hnext : (pressKey bufY offsetY keyPgdown).toNat = offsetY.toNat + 20 := hadd 20 (by decide)
      rw [hnext]
      constructor
      · intro hle
        exact ⟨fun hk => absurd hk (by decide), fun _ => by omega, fun hk => absurd hk (by decide)⟩
      · intro hr
        have hdown := hr.pgdown rfl
        omega
    · by_cases he : key = keyEnd
      · subst he
        have hnext : (pressKey bufY offsetY keyEnd).toNat = bufY.toNat - 20 := toNat_pageUp bufY
        rw [hnext]
        constructor
        · intro hle
          exact ⟨fun hk => absurd hk (by decide), fun hk => absurd hk (by decide), fun _ => by omega⟩
        · intro hr
          have hend := hr.toEnd rfl
          omega
      · refine iff_of_true ?_ (inRange_of_ne hd hp he)
        have hle := @pressKey_le bufY offsetY key hd hp he
        omega

theorem mem_views (bufY offsetY : Unsigned) (keys : List (BitVec 8)) : clampOffset offsetY ∈ views bufY offsetY keys := by
  cases keys with
  | nil => exact List.mem_singleton_self _
  | cons key keys => exact List.mem_cons_self

/-- **All views of a run are good exactly if all keys of the run are in range.** -/
theorem views_iff (bufY : Unsigned) : ∀ (keys : List (BitVec 8)) (offsetY : Unsigned), Shown bufY (clampOffset offsetY) →
    ((∀ o ∈ views bufY offsetY keys, Shown bufY o) ↔ KeysInRange bufY offsetY keys)
  | [],          offsetY, h => iff_of_true (fun o ho => List.mem_singleton.1 ho ▸ h) trivial
  | key :: keys, offsetY, h => by
    rw [views, KeysInRange, List.forall_mem_cons, and_iff_right h]
    by_cases hesc : key = keyEsc
    · rw [if_pos hesc]
      exact iff_of_true (fun o ho => absurd ho List.not_mem_nil) (.inl hesc)
    · rw [if_neg hesc, or_iff_right hesc]
      have hle := (shown_iff (by rw [toNat_clampOffset]; omega)).1 h
      by_cases hr : InRange bufY (clampOffset offsetY) key
      · rw [and_iff_right hr]
        exact views_iff bufY keys _ ((shown_pressKey hle key).2 hr)
      · refine iff_of_false (fun hall => hr ?_) fun hk => hr hk.1
        exact (shown_pressKey hle key).1 (hall _ (mem_views bufY _ keys))

/-- **The viewer reads inside the buffer and shows recorded lines exactly if no key goes below them.** -/
theorem video_scrollback_iff (bufY : Unsigned) (keys : List (BitVec 8)) :
    (∀ o ∈ views bufY 0 keys, Shown bufY o) ↔ KeysInRange bufY 0 keys := by
  apply views_iff
  exact (shown_iff (by decide)).2 (Nat.zero_le _)

/-- `KEY_END` with the cursor in the last line of the buffer; `KEY_DOWN` with the cursor in the first one. -/
theorem video_scrollback_outside : (∃ o ∈ views 1023 0 [keyEnd], ∃ i ∈ viewReads o, scrollbackBufSize ≤ i.toNat) ∧
    ∃ o ∈ views 0 0 [keyDown], (0 : Unsigned).toNat < o.toNat := by
  refine ⟨⟨1003, ?_, _, corner_mem 1003, ?_⟩, 1, ?_, ?_⟩ <;> decide

end SmpBoot
