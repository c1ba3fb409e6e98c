import SmpBoot.Screen
import SmpBoot.Lib.ByteMem
/-!
# Video — the text memory under `screen.c`

`Screen` with the characters: the text memory, byte by byte from 0xB8000 on, and the colours.  The file is compiled twice.
For the boot code, with `EARLY`, there is no scrollback buffer and no `mutex_printf`, and of `Screen` only the cursor is looked
at.  Without it the cursor and the buffer go as in `Screen` (`putch_screen`).
-/
namespace SmpBoot

open ByteMem

/-! ## `lib.c` -/

/-- Addresses and the count are in bytes. -/
def memcpy (m : Mem) (dest src count : Nat) : Mem := m.copy dest src count

/-- The address and the count are in words of 16 bits. -/
def memsetw (m : Mem) (dest : Nat) (val : BitVec 16) (count : Nat) : Mem := m.fill dest val count

/-! ## `screen.c` -/

/-- `ATTRIB(fg, bg)` -/
def attribOf (fg bg : BitVec 8) : BitVec 8 := (fg &&& 0x0F) ||| (bg <<< 4)

/-- `c | (attrib << 8)` -/
def cellOf (attrib c : BitVec 8) : BitVec 16 := c.setWidth 16 ||| (attrib.setWidth 16 <<< 8)

def colorFgWhite : BitVec 8 := 0x0f
def colorBgBlack : BitVec 8 := 0x00
def attribStatus : BitVec 8 := 0x1F

/-- A white space on black. -/
def blank : BitVec 16 := cellOf (attribOf colorFgWhite colorBgBlack) 0x20

structure Video where
  screen : Screen
  attrib : BitVec 8
  text   : Mem

namespace Video

/-- The static variables before `init_video()`, and what is in memory. -/
def reset (bytes : Nat → BitVec 8) : Video := ⟨.reset, attribOf colorFgWhite colorBgBlack, ⟨bytes, []⟩⟩

def andThen (v : Video) (f : Video → Video) : Video := if v.screen.hung then v else f v

def setX (v : Video) (x : BitVec 8) : Video := { v with screen := v.screen.setX x }

def newLine (v : Video) : Video := { v with screen := v.screen.newLine }

def wrap (v : Video) : Video := { v with screen := v.screen.wrap }

/-- `temp` counts the lines below the last one, which are one or two. -/
def scroll (v : Video) : Video :=
  if screenH ≤ v.screen.csrY.toNat then
    let temp := v.screen.csrY.toNat - screenH + 1
    let text := memcpy v.text (2 * screenW) (2 * ((temp + 1) * screenW)) ((screenH - temp) * screenW * 2)
    { v with screen := v.screen.scroll, text := memsetw text ((screenH - temp) * screenW) blank screenW }
  else v

/-- `*where = c | att;` -/
def write (v : Video) (c : BitVec 8) : Video :=
  { v with text := v.text.pokeWord (v.screen.csrY.toNat * screenW + v.screen.csrX.toNat) (cellOf v.attrib c) }

def store (v : Video) : Video := { v with screen := v.screen.store }

def setLock (v : Video) (locked : Bool) : Video := { v with screen := { v.screen with printfLocked := locked } }

section
variable (early : Bool)

/-- The test of `buf_y` in `cls()` and for `'\n'`, which the boot code does not have. -/
def limit (report : Video → Video) (v : Video) : Video :=
  if early then v
  else if scrollbackBufSize < v.screen.bufY.toNat then report { v with screen := { v.screen with bufY := 0 } } else v

/-- The chain of tests in `putch()`. -/
def place (report : Video → Video) (v : Video) (c : BitVec 8) : Video :=
  if c = 0x08 then v.setX (if v.screen.csrX ≠ 0 then v.screen.csrX - 1 else v.screen.csrX)
  else if c = 0x09 then v.setX ((v.screen.csrX + 8) &&& ~~~(8 - 1))
  else if c = code '\r' then v.setX 0
  else if c = code '\n' then v.newLine.limit early report
  else if Screen.printable c then (v.write c).store.setX (v.screen.csrX + 1)
  else v

/-- `putch()`, given what it calls to report that the buffer is full. -/
def putchWith (report : Video → Video) (v : Video) (c : BitVec 8) : Video :=
  v.andThen fun v => (v.place early report c).andThen fun v => v.wrap.scroll

/-- `printf()` over a `putch()`. A mutex that is taken is the CPU's own. -/
def printfWith (put : Video → BitVec 8 → Video) (v : Video) (text : Text) : Video :=
  v.andThen fun v =>
    if early then text.foldl put v
    else if v.screen.printfLocked then { v with screen := { v.screen with hung := true } }
    else (text.foldl put (v.setLock true)).andThen fun v => v.setLock false

/-- `putch()` under the `printf()` of the report, as in `Screen`. -/
def putchReport : Video → BitVec 8 → Video := putchWith early id

def overflow (v : Video) : Video := v.printfWith early (putchReport early) Screen.overflowText

def putch : Video → BitVec 8 → Video := putchWith early (overflow early)

def puts (v : Video) (text : Text) : Video := text.foldl (putch early) v

def printf (v : Video) (text : Text) : Video := v.printfWith early (putch early) text

/-- The loops of `cls()`: the attributes of the status line, and the other lines. -/
def clear (v : Video) : Video :=
  let status := (List.range screenW).foldl (fun m i => m.poke (2 * i + 1) attribStatus) v.text
  let lines := (List.range' 1 (screenH - 1)).foldl (fun m i => memsetw m (i * screenW) (cellOf v.attrib 0x20) screenW) status
  { v with text := lines }

def cls (v : Video) : Video :=
  v.andThen fun v =>
    let v := v.clear
    limit early (overflow early) { v with screen := { v.screen.setX 0 with csrY := 0, bufY := v.screen.bufY + 1 } }

/-- What is written is counted from here on. -/
def initVideo (v : Video) : Video :=
  (v.cls early).andThen fun v => { v with screen := { v.screen with csrY := 1 }, text := { v.text with written := [] } }

end

def locate (v : Video) (absX relY : Unsigned) : Video := { v with screen := v.screen.locate absX relY }

def settextcolor (v : Video) (forecolor backcolor : BitVec 8) : Video :=
  v.andThen fun v => { v with attrib := attribOf forecolor backcolor }

/-! ## The cursor is that of `Screen` -/

section
variable {v : Video} {report : Video → Video} {report' : Screen → Screen}

end

/-! ## The lines of the cursor, and where is written -/

/-- The cursor is in the lines from `lo` to `hi`, and the status line has not been written. -/
structure Bounded (lo hi : Nat) (v : Video) : Prop where
  csrX : v.screen.hung = false → v.screen.csrX.toNat < screenW
  csrY : v.screen.hung = false → lo ≤ v.screen.csrY.toNat ∧ v.screen.csrY.toNat ≤ hi
  text : v.text.Above (2 * screenW)

/-- Before the edge of the screen has been looked at. -/
structure Edge (lo hi : Nat) (v : Video) : Prop where
  csrX : v.screen.hung = false → v.screen.csrX.toNat ≤ screenW
  csrY : v.screen.hung = false → lo ≤ v.screen.csrY.toNat ∧ v.screen.csrY.toNat ≤ hi
  text : v.text.Above (2 * screenW)

/-- The newlines of a text. -/
def newlines (text : Text) : Nat := text.count (code '\n')

section
variable {v : Video} {lo hi lo' hi' : Nat}

theorem Bounded.mono (h : v.Bounded lo hi) (hlo : lo' ≤ lo) (hhi : hi ≤ hi') : v.Bounded lo' hi' :=
  ⟨h.csrX, fun hs => ⟨Nat.le_trans hlo (h.csrY hs).1, Nat.le_trans (h.csrY hs).2 hhi⟩, h.text⟩

theorem Bounded.edge (h : v.Bounded lo hi) (hhi : hi ≤ hi') : v.Edge lo hi' :=
  ⟨fun hs => Nat.le_of_lt (h.csrX hs), (h.mono (Nat.le_refl lo) hhi).csrY, h.text⟩

theorem Bounded.of_hung (hs : v.screen.hung = true) (ht : v.text.Above (2 * screenW)) : v.Bounded lo hi :=
  ⟨fun hl => absurd (hs.symm.trans hl) nofun, fun hl => absurd (hs.symm.trans hl) nofun, ht⟩

theorem andThen_of_hung (hs : v.screen.hung = true) (f : Video → Video) : v.andThen f = v := if_pos hs

theorem andThen_of_live (hs : v.screen.hung = false) (f : Video → Video) : v.andThen f = f v := if_neg (by simp [hs])

theorem Bounded.andThen (h : v.Bounded lo hi) {f : Video → Video} (hf : v.screen.hung = false → (f v).Bounded lo' hi') :
    (v.andThen f).Bounded lo' hi' := by
  cases hs : v.screen.hung with
  | true =>
    rw [andThen_of_hung hs]
    exact .of_hung hs h.text
  | false =>
    rw [andThen_of_live hs]
    exact hf hs

theorem csrY_succ {y : BitVec 8} (h : y.toNat < 40) : (y + 1).toNat = y.toNat + 1 := by
  rw [BitVec.toNat_add]
  exact Nat.mod_eq_of_lt (show y.toNat + 1 < 2 ^ 8 by omega)

theorem Edge.newLine (h : v.Edge lo hi) (hs : v.screen.hung = false) (hhi : hi < 40) :
    v.newLine.Bounded (lo + 1) (hi + 1) := by
  obtain ⟨hl, hh⟩ := h.csrY hs
  constructor
  · exact fun _ => Nat.zero_lt_succ _
  · intro _
    have hy : v.newLine.screen.csrY.toNat = v.screen.csrY.toNat + 1 := csrY_succ (by omega)
    omega
  · exact h.text

theorem Edge.wrap (h : v.Edge lo hi) (hs : v.screen.hung = false) (hhi : hi < 40) : v.wrap.Bounded lo (hi + 1) := by
  unfold Video.wrap Screen.wrap
  split
  · exact (h.newLine hs hhi).mono (Nat.le_succ lo) (Nat.le_refl _)
  · next hx => exact ⟨fun _ => Nat.lt_of_not_le hx, fun _ => ⟨(h.csrY hs).1, Nat.le_succ_of_le (h.csrY hs).2⟩, h.text⟩

/-- **`scroll()` brings the cursor back to the last line** and writes below the status line. -/
theorem Bounded.scroll (h : v.Bounded lo hi) (hs : v.screen.hung = false) (hhi : hi < 40) :
    v.scroll.Bounded (min lo 24) 24 := by
  obtain ⟨hl, hh⟩ := h.csrY hs
  unfold Video.scroll Screen.scroll
  by_cases hy : screenH ≤ v.screen.csrY.toNat
  · rw [if_pos hy, if_pos hy]
    constructor
    · exact fun _ => h.csrX hs
    · exact fun _ => ⟨Nat.min_le_right lo 24, Nat.le_refl 24⟩
    · apply Mem.Above.fill
      · exact h.text.copy _ (Nat.le_refl _)
      · simp only [screenH, screenW] at *
        omega
  · rw [if_neg hy]
    refine ⟨h.csrX, fun _ => ⟨Nat.le_trans (Nat.min_le_left lo 24) hl, ?_⟩, h.text⟩
    simp only [screenH] at hy
    omega

theorem newlines_of_ne {c : BitVec 8} (hc : c ≠ code '\n') : newlines [c] = 0 := by
  rw [newlines, List.count_singleton]
  exact if_neg (by simpa using hc)

theorem newlines_cons (c : BitVec 8) (text : Text) : newlines (c :: text) = newlines [c] + newlines text := by
  simp only [newlines, List.count_cons, List.count_nil]
  omega

theorem Edge.setX (h : v.Edge lo hi) {x : BitVec 8} (hx : x.toNat ≤ screenW) : (v.setX x).Edge lo hi :=
  ⟨fun _ => hx, h.csrY, h.text⟩

theorem Bounded.write (h : v.Bounded lo hi) (hs : v.screen.hung = false) (h1 : 1 ≤ lo) (c : BitVec 8) :
    (v.write c).Bounded lo hi := by
  refine ⟨h.csrX, h.csrY, h.text.pokeWord ?_ _⟩
  have hy := (h.csrY hs).1
  simp only [screenW]
  omega

theorem Bounded.store (h : v.Bounded lo hi) : v.store.Bounded lo hi := by
  unfold Video.store Screen.store
  split
  · exact ⟨h.csrX, h.csrY, h.text⟩
  · exact h

variable {early : Bool} {report : Video → Video}

theorem Bounded.limit (h : v.Bounded lo hi) (hr : ∀ v : Video, v.Bounded lo hi → (report v).Bounded lo' hi)
    (hlo : lo' ≤ lo) : (v.limit early report).Bounded lo' hi := by
  have hsame := h.mono hlo (Nat.le_refl hi)
  unfold Video.limit
  split
  · exact hsame
  split
  · exact hr _ ⟨h.csrX, h.csrY, h.text⟩
  · exact hsame

/-- What the report of a full buffer keeps. -/
def Reports (report : Video → Video) (hi : Nat) : Prop :=
  ∀ (v : Video) (lo : Nat), 1 ≤ lo → v.Bounded lo hi → (report v).Bounded (min lo 24) hi

theorem Bounded.place (h : v.Bounded lo hi) (hs : v.screen.hung = false) (h1 : 1 ≤ lo) (hhi : hi < 30)
    (hr : Reports report (hi + 1)) (c : BitVec 8) : (v.place early report c).Edge (min (lo + newlines [c]) 24) (hi + 1) := by
  have hx := h.csrX hs
  have hother : c ≠ code '\n' → (v.Edge (min (lo + newlines [c]) 24) (hi + 1)) := by
    intro hc
    rw [newlines_of_ne hc]
    exact (h.mono (Nat.min_le_left lo 24) (Nat.le_refl hi)).edge (Nat.le_succ hi)
  unfold Video.place
  split
  · next hc =>
    apply (hother (by rw [hc]; decide)).setX
    split
    · rw [BitVec.toNat_sub_of_le (by bv_omega)]
      omega
    · omega
  split
  · next hc => exact (hother (by rw [hc]; decide)).setX (Screen.tab_le hx)
  split
  · next hc => exact (hother (by rw [hc]; decide)).setX (Nat.zero_le _)
  split
  · next hc =>
    have hone : newlines [c] = 1 := by rw [hc]; rfl
    rw [hone]
    have hnew := (h.edge (Nat.le_refl hi)).newLine hs (by omega)
    exact (hnew.limit (fun w hw => hr w _ (Nat.le_add_left 1 lo) hw) (Nat.min_le_left _ _)).edge (Nat.le_refl _)
  split
  · next hc hp =>
    have hput := (h.write hs h1 c).store
    rw [newlines_of_ne hc]
    refine ((hput.mono (Nat.min_le_left lo 24) (Nat.le_refl hi)).edge (Nat.le_succ hi)).setX ?_
    simp only [screenW] at *
    bv_omega
  · next hc _ => exact hother hc

/-- **`putch()` leaves the cursor in the lines below the status line**, and lower by its newline. -/
theorem Bounded.putchWith (h : v.Bounded lo hi) (h1 : 1 ≤ lo) (hhi : hi < 30) (hr : Reports report (hi + 1)) (c : BitVec 8) :
    (v.putchWith early report c).Bounded (min (lo + newlines [c]) 24) 24 := by
  refine h.andThen fun hs => ?_
  have hp : (v.place early report c).Edge (min (lo + newlines [c]) 24) (hi + 1) := h.place hs h1 hhi hr c
  cases hh : (v.place early report c).screen.hung with
  | true =>
    rw [andThen_of_hung hh]
    exact .of_hung hh hp.text
  | false =>
    rw [andThen_of_live hh]
    have hw := hp.wrap hh (by omega)
    cases hl : (v.place early report c).wrap.screen.hung with
    | true =>
      have hsame : (v.place early report c).wrap.screen.hung = (v.place early report c).screen.hung := by
        unfold Video.wrap Screen.wrap
        split <;> rfl
      exact absurd (hsame.symm.trans hl) (by simp [hh])
    | false => exact (hw.scroll hl (by omega)).mono (by omega) (Nat.le_refl 24)

/-- A `putch()` that leaves the cursor so. -/
def Puts (put : Video → BitVec 8 → Video) (hi : Nat) : Prop :=
  ∀ (v : Video) (lo : Nat) (c : BitVec 8), 1 ≤ lo → v.Bounded lo hi → (put v c).Bounded (min (lo + newlines [c]) 24) hi

theorem Bounded.foldl {put : Video → BitVec 8 → Video} (hp : Puts put hi) : ∀ (text : Text) {v : Video} {lo : Nat},
    1 ≤ lo → v.Bounded lo hi → (text.foldl put v).Bounded (min (lo + newlines text) 24) hi
  | [],        _, lo, _,  h => h.mono (Nat.min_le_left lo 24) (Nat.le_refl hi)
  | c :: text, v, lo, h1, h => by
    have hput : (put v c).Bounded (min (lo + newlines [c]) 24) hi := hp v lo c h1 h
    have hrest := Bounded.foldl hp text (by omega) hput
    rw [newlines_cons]
    exact hrest.mono (by omega) (Nat.le_refl hi)

theorem Bounded.printfWith {put : Video → BitVec 8 → Video} (hp : Puts put hi) (h : v.Bounded lo hi) (h1 : 1 ≤ lo)
    (text : Text) : (v.printfWith early put text).Bounded (min (lo + newlines text) 24) hi := by
  refine h.andThen fun hs => ?_
  split
  · exact h.foldl hp text h1
  split
  · exact .of_hung rfl h.text
  · have hlock : (v.setLock true).Bounded lo hi := ⟨h.csrX, h.csrY, h.text⟩
    have hput := Bounded.foldl hp text h1 hlock
    exact hput.andThen fun _ => ⟨hput.csrX, hput.csrY, hput.text⟩

end

end Video

end SmpBoot
