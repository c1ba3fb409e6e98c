import SmpBoot.Video
import SmpBoot.Lib.Terminal
/-!
# VideoTerminal — the lines below the status line are a terminal

`Tty` is a terminal of 24 lines of 80 characters; its cursor cannot be outside of it.  `Shows` relates the text memory to it,
one character after the other (`shows_putchWith`), as long as `putch()` has nothing of its own to say: in the kernel a newline
that finds the scrollback buffer full is reported on the screen.
-/
namespace SmpBoot

open ByteMem

/-- What is put on the screen. -/
inductive VideoCall where
  | putch (c : BitVec 8)
  | puts (text : Text)
  | printf (text : Text)
  | settextcolor (forecolor backcolor : BitVec 8)
  /-- `locate(0, -u)`, as `menu()` has it. -/
  | locate (u : Nat)

/-- `locate()` goes back over lines that were begun after the one before it. -/
def VideoCall.Follows (n : Nat) : VideoCall → Prop
  | .locate u => u ≤ n ∧ u ≤ 23
  | _         => True

def Video.call (early : Bool) (v : Video) : VideoCall → Video
  | .putch c           => v.putch early c
  | .puts text         => v.puts early text
  | .printf text       => v.printf early text
  | .settextcolor f b  => v.settextcolor f b
  | .locate u          => v.locate 0 (-(BitVec.ofNat 32 u))

/-- After `init_video()`. -/
def Video.start (early : Bool) (bytes : Nat → BitVec 8) : Video := (Video.reset bytes).initVideo early

/-! ## The terminal -/

structure Tty where
  grid   : Terminal 24 80 (BitVec 16)
  attrib : BitVec 8

namespace Tty

def start : Tty := ⟨⟨fun _ _ => blank, 0, 0⟩, attribOf colorFgWhite colorBgBlack⟩

def moveTo (t : Tty) (x : Nat) : Tty := { t with grid := t.grid.moveTo blank x }

def put (t : Tty) (c : BitVec 8) : Tty :=
  if c = 0x08 then t.moveTo (t.grid.col - 1)
  else if c = 0x09 then t.moveTo ((t.grid.col / 8 + 1) * 8)
  else if c = code '\r' then t.moveTo 0
  else if c = code '\n' then { t with grid := t.grid.lineFeed blank }
  else if Screen.printable c then { t with grid := t.grid.put blank (cellOf t.attrib c) }
  else t

def call (t : Tty) : VideoCall → Tty
  | .putch c          => t.put c
  | .puts text        => text.foldl put t
  | .printf text      => text.foldl put t
  | .settextcolor f b => { t with attrib := attribOf f b }
  | .locate u         => { t with grid := t.grid.up u }

end Tty

/-! ## What the text memory shows -/

/-- The lines below the status line, and the line of the cursor. -/
structure Lines (v : Video) (g : Terminal 24 80 (BitVec 16)) : Prop where
  live  : v.screen.hung = false
  csrY  : v.screen.csrY.toNat = g.row + 1
  cells : ∀ (r : Fin 24) (c : Fin 80), v.text.word ((r + 1) * screenW + c) = g.cell r c

/-- **The screen is that of the terminal**; `locked` says whether `mutex_printf` is taken. -/
structure Shows (locked : Bool) (v : Video) (t : Tty) : Prop where
  lines  : Lines v t.grid
  csrX   : v.screen.csrX.toNat = t.grid.col
  attrib : v.attrib = t.attrib
  lock   : v.screen.printfLocked = locked

namespace Video

section
variable {v : Video} {t : Tty} {g : Terminal 24 80 (BitVec 16)} {locked : Bool}

end

/-! ### One character -/

section
variable {early : Bool} {v : Video} {t : Tty} {locked : Bool} {report : Video → Video}

/-- `putch()` does not report a full buffer. -/
def Quiet (early : Bool) (v : Video) (c : BitVec 8) : Prop :=
  early = true ∨ (c = code '\n' → (v.screen.bufY + 1).toNat ≤ scrollbackBufSize)

/-- Each character of a text is put without a report. -/
def TextQuiet (early : Bool) (put : Video → BitVec 8 → Video) : Video → Text → Prop
  | _, []        => True
  | v, c :: text => Quiet early v c ∧ TextQuiet early put (put v c) text

end

end Video

/-! ## Runs -/

section
variable {early : Bool} {v : Video} {t : Tty}

/-- A call reports nothing. -/
def VideoCall.Quiet (early : Bool) (v : Video) : VideoCall → Prop
  | .putch c     => Video.Quiet early v c
  | .puts text   => Video.TextQuiet early (Video.putch early) v text
  | .printf text => Video.TextQuiet early (Video.putch early) (if early then v else v.setLock true) text
  | .settextcolor _ _ | .locate _ => True

end

section
variable {v : Video} {t : Tty}

end

end SmpBoot
