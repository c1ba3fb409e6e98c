import SmpBoot.Cmdline
/-!
# Screen — the scrollback buffer of `screen.c`

`putch()` keeps a copy of what it writes in `buf_scrollback`, at `buf_y` lines and `buf_x` characters.  Of the screen
itself only the cursor is here, not the text memory of the VGA.  `printf()` is given by the characters that
`vprintf()` hands on to `putch()`.
-/
namespace SmpBoot

def screenH : Nat := 25
def screenW : Nat := 80

/-- `SCROLLBACK_BUF_SIZE`; so many bytes are allocated for `buf_scrollback`. -/
def scrollbackBufSize : Nat := 1024 * 80

structure Screen where
  csrX : BitVec 8
  csrY : BitVec 8
  bufX : Unsigned
  bufY : Unsigned
  /-- `buf_scrollback != NULL` -/
  allocated : Bool
  /-- `mutex_printf` -/
  printfLocked : Bool
  /-- The CPU waits for a mutex that it holds itself. -/
  hung : Bool
  /-- The indices of the stores into `buf_scrollback`, the last one first. -/
  stores : List Unsigned

namespace Screen

/-- The static variables before `init_video()`. -/
def reset : Screen := ⟨0, 0, 0, 0, false, false, false, []⟩

/-- `buf_x` follows `csr_x` wherever `csr_x` is set. -/
def setX (s : Screen) (x : BitVec 8) : Screen := { s with csrX := x, bufX := x.setWidth 32 }

def newLine (s : Screen) : Screen := { s.setX 0 with csrY := s.csrY + 1, bufY := s.bufY + 1 }

def scroll (s : Screen) : Screen :=
  if screenH ≤ s.csrY.toNat then { s with csrY := BitVec.ofNat 8 (screenH - 1) } else s

/-- At the edge of the screen a new line is inserted. -/
def wrap (s : Screen) : Screen := if screenW ≤ s.csrX.toNat then s.newLine else s

/-- The test of `buf_y` in `cls()` and for `'\n'`. -/
def limit (report : Screen → Screen) (s : Screen) : Screen :=
  if scrollbackBufSize < s.bufY.toNat then report { s with bufY := 0 } else s

/-- `buf_scrollback[buf_y*80+buf_x] = c;` -/
def store (s : Screen) : Screen :=
  if s.allocated then { s with stores := (s.bufY * 80 + s.bufX) :: s.stores } else s

/-- `char` is signed: the upper half of the character set is not printable. -/
def printable (c : BitVec 8) : Prop := 32 ≤ c.toInt

instance (c : BitVec 8) : Decidable (printable c) := inferInstanceAs (Decidable (_ ≤ _))

/-- The chain of tests in `putch()`. -/
def place (report : Screen → Screen) (s : Screen) (c : BitVec 8) : Screen :=
  if c = 0x08 then s.setX (if s.csrX ≠ 0 then s.csrX - 1 else s.csrX)
  else if c = 0x09 then s.setX ((s.csrX + 8) &&& ~~~(8 - 1))
  else if c = code '\r' then s.setX 0
  else if c = code '\n' then s.newLine.limit report
  else if printable c then s.store.setX (s.csrX + 1)
  else s

/-- What follows is not reached by a CPU that hangs. -/
def andThen (s : Screen) (f : Screen → Screen) : Screen := if s.hung then s else f s

/-- `putch()`, given what it calls to report that the buffer is full. -/
def putchWith (report : Screen → Screen) (s : Screen) (c : BitVec 8) : Screen :=
  s.andThen fun s => (s.place report c).andThen fun s => s.wrap.scroll

/-- `printf()` over a `putch()`. A mutex that is taken is the CPU's own. -/
def printfWith (put : Screen → BitVec 8 → Screen) (s : Screen) (text : Text) : Screen :=
  s.andThen fun s =>
    if s.printfLocked then { s with hung := true }
    else (text.foldl put { s with printfLocked := true }).andThen fun s => { s with printfLocked := false }

/-- `"Scrollback overflow!\n"` -/
def overflowText : Text :=
  ascii ['S', 'c', 'r', 'o', 'l', 'l', 'b', 'a', 'c', 'k', ' ', 'o', 'v', 'e', 'r', 'f', 'l', 'o', 'w', '!', '\n']

/-- `putch()` under the `printf()` of the report, where the buffer has been taken up from its start
(`putch_eq`: it reports nothing itself). -/
def putchReport : Screen → BitVec 8 → Screen := putchWith id

def overflow (s : Screen) : Screen := s.printfWith putchReport overflowText

def putch : Screen → BitVec 8 → Screen := putchWith overflow

def puts (s : Screen) (text : Text) : Screen := text.foldl putch s

def printf (s : Screen) (text : Text) : Screen := s.printfWith putch text

def cls (s : Screen) : Screen :=
  s.andThen fun s => limit overflow { s.setX 0 with csrY := 0, bufY := s.bufY + 1 }

def locate (s : Screen) (absX relY : Unsigned) : Screen :=
  s.andThen fun s => { s.setX (absX.setWidth 8) with csrY := s.csrY + relY.setWidth 8, bufY := s.bufY + relY }

def initVideo (s : Screen) : Screen := s.cls.andThen fun s => { s with csrY := 1 }

/-- `"scrollback buffer initialized\n"` -/
def initializedText : Text :=
  ascii ['s', 'c', 'r', 'o', 'l', 'l', 'b', 'a', 'c', 'k', ' ', 'b', 'u', 'f', 'f', 'e', 'r', ' ',
    'i', 'n', 'i', 't', 'i', 'a', 'l', 'i', 'z', 'e', 'd', '\n']

def initVideoScrollback (s : Screen) : Screen :=
  (s.printf initializedText).andThen fun s => { s with allocated := true, bufY := 0 }

/-! ## What the steps keep -/

/-- **The cursor stands inside a line, and every store was inside the buffer.** -/
structure Sound (s : Screen) : Prop where
  csrX   : s.hung = false → s.csrX.toNat < screenW
  bufX   : s.bufX = s.csrX.setWidth 32
  stores : ∀ i ∈ s.stores, i.toNat < scrollbackBufSize

theorem andThen_of_hung {s : Screen} (h : s.hung = true) (f : Screen → Screen) : s.andThen f = s := if_pos h

theorem andThen_of_live {s : Screen} (h : s.hung = false) (f : Screen → Screen) : s.andThen f = f s :=
  if_neg (by simp [h])

theorem Sound.andThen {s : Screen} (h : s.Sound) {f : Screen → Screen} (hf : s.hung = false → (f s).Sound) :
    (s.andThen f).Sound := by
  cases hs : s.hung with
  | true => rwa [andThen_of_hung hs]
  | false =>
    rw [andThen_of_live hs]
    exact hf hs

theorem Sound.newLine {s : Screen} (h : ∀ i ∈ s.stores, i.toNat < scrollbackBufSize) : s.newLine.Sound :=
  ⟨fun _ => Nat.zero_lt_succ _, rfl, h⟩

theorem Sound.scroll {s : Screen} (h : s.Sound) : s.scroll.Sound := by
  unfold Screen.scroll
  split
  · exact ⟨h.csrX, h.bufX, h.stores⟩
  · exact h

theorem Sound.limit {s : Screen} (h : s.Sound) {report : Screen → Screen}
    (hr : ∀ s : Screen, s.Sound → s.bufY = 0 → (report s).Sound) : (s.limit report).Sound := by
  unfold Screen.limit
  split
  · exact hr _ ⟨h.csrX, h.bufX, h.stores⟩ rfl
  · exact h

/-- Before the edge of the screen has been looked at. -/
structure AtEdge (s : Screen) : Prop where
  csrX   : s.hung = false → s.csrX.toNat ≤ screenW
  bufX   : s.bufX = s.csrX.setWidth 32
  stores : ∀ i ∈ s.stores, i.toNat < scrollbackBufSize

theorem Sound.atEdge {s : Screen} (h : s.Sound) : s.AtEdge :=
  ⟨fun hs => Nat.le_of_lt (h.csrX hs), h.bufX, h.stores⟩

theorem AtEdge.of_hung {s : Screen} (h : s.AtEdge) (hs : s.hung = true) : s.Sound :=
  ⟨fun hl => absurd hl (by simp [hs]), h.bufX, h.stores⟩

theorem AtEdge.setX {s : Screen} (h : s.AtEdge) {x : BitVec 8} (hx : x.toNat ≤ screenW) : (s.setX x).AtEdge :=
  ⟨fun _ => hx, rfl, h.stores⟩

theorem AtEdge.wrap {s : Screen} (h : s.AtEdge) : s.wrap.Sound := by
  unfold Screen.wrap
  split
  · exact .newLine h.stores
  · rename_i hx
    exact ⟨fun _ => by omega, h.bufX, h.stores⟩

theorem index_toNat {y : Unsigned} {x : BitVec 8} (hy : y.toNat * 80 + x.toNat < 2 ^ 32) :
    (y * 80 + x.setWidth 32).toNat = y.toNat * 80 + x.toNat := by
  have h80 : (80 : Unsigned).toNat = 80 := rfl
  have hrow : (y * 80).toNat = y.toNat * 80 := by
    rw [BitVec.toNat_mul, h80, Nat.mod_eq_of_lt (by omega)]
  have hcol : (x.setWidth 32).toNat = x.toNat := BitVec.toNat_setWidth_of_le (by decide)
  rw [BitVec.toNat_add, hrow, hcol, Nat.mod_eq_of_lt hy]

/-- A printable character that is put while the buffer is there stands in one of the first 1024 lines. -/
def Fits (s : Screen) (c : BitVec 8) : Prop :=
  s.hung = false → s.allocated = true → printable c → s.bufY.toNat < 1024

/-- **A store in one of the first 1024 lines is inside the buffer.** -/
theorem Sound.store {s : Screen} (h : s.Sound) (hs : s.hung = false) (hy : s.allocated = true → s.bufY.toNat < 1024) :
    s.store.Sound := by
  unfold Screen.store
  split
  · rename_i ha
    have hy := hy ha
    refine ⟨h.csrX, h.bufX, ?_⟩
    intro i hi
    rcases List.mem_cons.1 hi with rfl | hi
    · have hx := h.csrX hs
      simp only [screenW, scrollbackBufSize] at *
      rw [h.bufX, index_toNat (by omega)]
      omega
    · exact h.stores i hi
  · exact h

theorem tab_le {x : BitVec 8} (hx : x.toNat < screenW) : ((x + 8) &&& ~~~(8 - 1) : BitVec 8).toNat ≤ screenW := by
  revert x
  decide

/-- Only a printable character is stored, and only a newline can find the buffer full. -/
theorem Sound.place {s : Screen} (h : s.Sound) (hs : s.hung = false) {report : Screen → Screen}
    (hr : ∀ s : Screen, s.Sound → s.bufY = 0 → (report s).Sound) {c : BitVec 8}
    (hfit : s.Fits c) : (s.place report c).AtEdge := by
  have hx := h.csrX hs
  unfold Screen.place
  split
  · apply h.atEdge.setX
    split
    · rw [BitVec.toNat_sub_of_le (by bv_omega)]
      omega
    · omega
  split
  · exact h.atEdge.setX (tab_le hx)
  split
  · exact h.atEdge.setX (Nat.zero_le _)
  split
  · exact ((Sound.newLine h.stores).limit hr).atEdge
  split
  · rename_i hp
    apply (h.store hs fun ha => hfit hs ha hp).atEdge.setX
    simp only [screenW] at *
    bv_omega
  · exact h.atEdge

/-- **`putch()` keeps the stores inside the buffer**, as long as what reports a full buffer does. -/
theorem Sound.putchWith {s : Screen} (h : s.Sound) {report : Screen → Screen}
    (hr : ∀ s : Screen, s.Sound → s.bufY = 0 → (report s).Sound) {c : BitVec 8}
    (hfit : s.Fits c) : (s.putchWith report c).Sound := by
  refine h.andThen fun hs => ?_
  have hp := h.place hs hr hfit
  cases hh : (s.place report c).hung with
  | true =>
    rw [andThen_of_hung hh]
    exact hp.of_hung hh
  | false =>
    rw [andThen_of_live hh]
    exact hp.wrap.scroll

/-! ### The report of a full buffer -/

theorem limit_of_le {s : Screen} (h : s.bufY.toNat ≤ scrollbackBufSize) (report : Screen → Screen) : s.limit report = s :=
  if_neg (Nat.not_lt.2 h)

theorem newLine_bufY {s : Screen} (h : s.bufY.toNat < scrollbackBufSize) : s.newLine.bufY.toNat = s.bufY.toNat + 1 := by
  simp only [newLine, scrollbackBufSize] at *
  bv_omega

/-- Below the limit `putch()` reports nothing. -/
theorem place_report {s : Screen} (h : s.bufY.toNat < scrollbackBufSize) (report report' : Screen → Screen) (c : BitVec 8) :
    s.place report c = s.place report' c := by
  have hl : s.newLine.bufY.toNat ≤ scrollbackBufSize := by
    rw [newLine_bufY h]
    exact h
  simp only [place, limit_of_le hl]

theorem putchWith_report {s : Screen} (h : s.bufY.toNat < scrollbackBufSize) (report report' : Screen → Screen)
    (c : BitVec 8) : s.putchWith report c = s.putchWith report' c := by
  simp only [putchWith, andThen, place_report h report report']

theorem wrap_bufY (s : Screen) : s.wrap.bufY = s.bufY ∨ screenW ≤ s.csrX.toNat ∧ s.wrap.bufY = s.bufY + 1 := by
  unfold wrap
  split
  · rename_i hx
    exact .inr ⟨hx, rfl⟩
  · exact .inl rfl

theorem scroll_bufY (s : Screen) : s.scroll.bufY = s.bufY := by
  unfold scroll
  split <;> rfl

theorem place_bufY {s : Screen} (h : s.bufY.toNat < scrollbackBufSize) (report : Screen → Screen) (c : BitVec 8) :
    (s.place report c).bufY = s.bufY ∨ (s.place report c).csrX = 0 ∧ (s.place report c).bufY = s.bufY + 1 := by
  have hl : s.newLine.bufY.toNat ≤ scrollbackBufSize := by
    rw [newLine_bufY h]
    exact h
  have hstore : s.store.bufY = s.bufY := by
    unfold store
    split <;> rfl
  unfold place
  split
  · exact .inl rfl
  split
  · exact .inl rfl
  split
  · exact .inl rfl
  split
  · rw [limit_of_le hl]
    exact .inr ⟨rfl, rfl⟩
  split
  · exact .inl hstore
  · exact .inl rfl

/-- **A character begins at most one new line.** -/
theorem putchWith_bufY {s : Screen} (h : s.bufY.toNat < scrollbackBufSize) (report : Screen → Screen) (c : BitVec 8) :
    (s.putchWith report c).bufY.toNat ≤ s.bufY.toNat + 1 := by
  have hinc : (s.bufY + 1).toNat ≤ s.bufY.toNat + 1 := Nat.le_of_eq (newLine_bufY h)
  have hone {y : Unsigned} (hy : y = s.bufY ∨ y = s.bufY + 1) : y.toNat ≤ s.bufY.toNat + 1 := by
    rcases hy with rfl | rfl
    · omega
    · exact hinc
  apply hone
  have hp := place_bufY h report c
  cases hs : s.hung with
  | true =>
    rw [putchWith, andThen_of_hung hs]
    exact .inl rfl
  | false =>
  rw [putchWith, andThen_of_live hs]
  cases hh : (s.place report c).hung with
  | true =>
    rw [andThen_of_hung hh]
    exact hp.imp_right And.right
  | false =>
  rw [andThen_of_live hh, scroll_bufY]
  rcases wrap_bufY (s.place report c) with hw | ⟨hx, hw⟩
  · rw [hw]
    exact hp.imp_right And.right
  · rcases hp with hp | ⟨hx0, -⟩
    · exact .inr (by rw [hw, hp])
    · rw [hx0] at hx
      exact absurd hx (by decide)

/-- The same holds for a text that does not reach the limit. -/
theorem foldl_report (report report' : Screen → Screen) : ∀ (text : Text) {s : Screen},
    s.bufY.toNat + text.length ≤ scrollbackBufSize → text.foldl (putchWith report) s = text.foldl (putchWith report') s
  | [], _, _ => rfl
  | c :: text, s, h => by
    rw [List.length_cons] at h
    have hy := putchWith_bufY (s := s) (by omega) report' c
    rw [List.foldl_cons, List.foldl_cons, putchWith_report (by omega) report report']
    exact foldl_report report report' text (by omega)

theorem printfWith_report (report report' : Screen → Screen) {text : Text} {s : Screen}
    (h : s.bufY.toNat + text.length ≤ scrollbackBufSize) :
    s.printfWith (putchWith report) text = s.printfWith (putchWith report') text := by
  have hfold : text.foldl (putchWith report) { s with printfLocked := true } =
      text.foldl (putchWith report') { s with printfLocked := true } := foldl_report report report' text h
  simp only [printfWith, andThen, hfold]

/-- The report is called with `buf_y` 0 only. -/
theorem putchWith_congr {report report' : Screen → Screen} (h : ∀ s : Screen, s.bufY = 0 → report s = report' s)
    (s : Screen) (c : BitVec 8) : s.putchWith report c = s.putchWith report' c := by
  have hlimit (s : Screen) : s.limit report = s.limit report' := by
    unfold limit
    rw [h { s with bufY := 0 } rfl]
  have hplace (s : Screen) : s.place report c = s.place report' c := by
    unfold place
    rw [hlimit]
  simp only [putchWith, hplace]

/-- **`putch()` is what the source says, with itself under the `printf()` of the report.** -/
theorem putch_eq (s : Screen) (c : BitVec 8) : s.putch c = s.putchWith (fun s => s.printfWith putch overflowText) c := by
  apply putchWith_congr
  intro s hs
  apply printfWith_report
  rw [hs]
  decide

theorem Sound.foldl_report {report : Screen → Screen} (hr : ∀ s : Screen, s.Sound → s.bufY = 0 → (report s).Sound) :
    ∀ (text : Text) {s : Screen}, s.Sound → s.bufY.toNat + text.length ≤ 1024 → (text.foldl (Screen.putchWith report) s).Sound
  | [], _, h, _ => h
  | c :: text, s, h, hlen => by
    rw [List.length_cons] at hlen
    have hlt : s.bufY.toNat < scrollbackBufSize := by
      simp only [scrollbackBufSize]
      omega
    have hy := putchWith_bufY hlt report c
    exact Sound.foldl_report hr text (h.putchWith hr fun _ _ _ => by omega) (by omega)

theorem Sound.overflow {s : Screen} (h : s.Sound) (hy : s.bufY = 0) : s.overflow.Sound := by
  unfold Screen.overflow printfWith
  refine h.andThen fun hs => ?_
  split
  · exact ⟨fun hl => (by cases hl), h.bufX, h.stores⟩
  · have hlock : ({ s with printfLocked := true } : Screen).Sound := ⟨h.csrX, h.bufX, h.stores⟩
    have := @Sound.foldl_report id (fun s h _ => h) overflowText _ hlock (by simp only [hy]; decide)
    exact this.andThen fun _ => ⟨this.csrX, this.bufX, this.stores⟩

theorem Sound.putch {s : Screen} (h : s.Sound) {c : BitVec 8} (hfit : s.Fits c) : (s.putch c).Sound :=
  h.putchWith (fun _ h hy => h.overflow hy) hfit

theorem Sound.cls {s : Screen} (h : s.Sound) : s.cls.Sound := by
  unfold Screen.cls
  apply h.andThen
  intro _
  apply Sound.limit
  · exact ⟨fun _ => Nat.zero_lt_succ _, rfl, h.stores⟩
  · exact fun _ h hy => h.overflow hy

theorem Sound.locate {s : Screen} (h : s.Sound) (relY : Unsigned) : (s.locate 0 relY).Sound := by
  unfold Screen.locate
  apply h.andThen
  intro _
  exact ⟨fun _ => Nat.zero_lt_succ _, rfl, h.stores⟩

/-- Each character of a text fits where it is put. -/
def TextFits : Screen → Text → Prop
  | _, []        => True
  | s, c :: text => s.Fits c ∧ (s.putch c).TextFits text

theorem Sound.puts : ∀ {text : Text} {s : Screen}, s.Sound → s.TextFits text → (s.puts text).Sound
  | [], _, h, _ => h
  | c :: text, s, h, ⟨hc, ht⟩ => @Sound.puts text (s.putch c) (h.putch hc) ht

theorem Sound.printf {text : Text} {s : Screen} (h : s.Sound)
    (ht : ({ s with printfLocked := true } : Screen).TextFits text) :
    (s.printf text).Sound := by
  unfold Screen.printf printfWith
  refine h.andThen fun hs => ?_
  split
  · exact ⟨fun hl => (by cases hl), h.bufX, h.stores⟩
  · have hlock : ({ s with printfLocked := true } : Screen).Sound := ⟨h.csrX, h.bufX, h.stores⟩
    have hput := hlock.puts ht
    exact Sound.andThen hput fun _ => ⟨hput.csrX, hput.bufX, hput.stores⟩

/-- A text of fewer characters than there are lines left fits. -/
theorem TextFits.of_short : ∀ {text : Text} {s : Screen}, s.bufY.toNat + text.length ≤ 1024 → s.TextFits text
  | [], _, _ => trivial
  | c :: text, s, h => by
    rw [List.length_cons] at h
    have hlt : s.bufY.toNat < scrollbackBufSize := by
      simp only [scrollbackBufSize]
      omega
    have hy : (s.putch c).bufY.toNat ≤ s.bufY.toNat + 1 := putchWith_bufY hlt overflow c
    exact ⟨fun _ _ _ => by omega, TextFits.of_short (by omega)⟩

/-! ### Behind the last line -/

theorem edge_stores (s : Screen) : s.wrap.scroll.stores = s.stores := by
  unfold scroll wrap
  split <;> split <;> rfl

theorem putch_printable {s : Screen} (hs : s.hung = false) {c : BitVec 8} (hc : printable c) :
    s.putch c = (s.store.setX (s.csrX + 1)).wrap.scroll := by
  have hne {k : BitVec 8} (hk : ¬ printable k) : c ≠ k := fun h => hk (h ▸ hc)
  have hplace : s.place overflow c = s.store.setX (s.csrX + 1) := by
    unfold place
    rw [if_neg (hne (by decide)), if_neg (hne (by decide)), if_neg (hne (by decide)), if_neg (hne (by decide)), if_pos hc]
  have hlive : (s.store.setX (s.csrX + 1)).hung = false := by
    unfold setX store
    split <;> exact hs
  rw [putch, putchWith, andThen_of_live hs, hplace, andThen_of_live hlive]

/-- **A character put behind the first 1024 lines is stored outside the buffer.** -/
theorem Sound.putch_outside {s : Screen} (h : s.Sound) (hs : s.hung = false) (ha : s.allocated = true) {c : BitVec 8}
    (hc : printable c) (hy : 1024 ≤ s.bufY.toNat) (hmax : s.bufY.toNat * 80 + screenW < 2 ^ 32) :
    ∃ i ∈ (s.putch c).stores, scrollbackBufSize ≤ i.toNat := by
  have hx := h.csrX hs
  refine ⟨s.bufY * 80 + s.bufX, ?_, ?_⟩
  · rw [putch_printable hs hc, edge_stores, setX, Screen.store, if_pos ha]
    exact List.mem_cons_self
  · simp only [screenW, scrollbackBufSize] at *
    rw [h.bufX, index_toNat (by omega)]
    omega

theorem putch_newLine {s : Screen} (hs : s.hung = false) (hy : s.bufY.toNat < scrollbackBufSize) :
    s.putch (code '\n') = s.newLine.scroll := by
  have hl : s.newLine.bufY.toNat ≤ scrollbackBufSize := by
    rw [newLine_bufY hy]
    exact hy
  have hplace : s.place overflow (code '\n') = s.newLine := by
    unfold place
    rw [if_neg (by decide), if_neg (by decide), if_neg (by decide), if_pos rfl, limit_of_le hl]
  have hlive : s.newLine.hung = false := hs
  have hedge : s.newLine.wrap = s.newLine := if_neg (Nat.not_le.2 (Nat.zero_lt_succ _))
  rw [putch, putchWith, andThen_of_live hs, hplace, andThen_of_live hlive, hedge]

/-- `n` newlines begin `n` new lines. -/
theorem puts_newLines : ∀ (n : Nat) {s : Screen}, s.hung = false → s.bufY.toNat + n ≤ scrollbackBufSize →
    (s.puts (List.replicate n (code '\n'))).hung = false ∧
      (s.puts (List.replicate n (code '\n'))).bufY.toNat = s.bufY.toNat + n
  | 0, _, hs, _ => ⟨hs, rfl⟩
  | n + 1, s, hs, hn => by
    have hy : s.newLine.scroll.bufY.toNat = s.bufY.toNat + 1 := by
      rw [scroll_bufY]
      exact newLine_bufY (by omega)
    have hlive : s.newLine.scroll.hung = false := by
      unfold scroll
      split <;> exact hs
    have ih := puts_newLines n hlive (by omega)
    rw [List.replicate_succ, puts, List.foldl_cons, putch_newLine hs (by omega)]
    refine ⟨ih.1, ih.2.trans ?_⟩
    omega

/-! ### Before the buffer is there -/

theorem andThen_allocated {s : Screen} {f : Screen → Screen} (hf : (f s).allocated = s.allocated) :
    (s.andThen f).allocated = s.allocated := by
  unfold andThen
  split
  · rfl
  · exact hf

theorem putchWith_allocated {report : Screen → Screen} (hr : ∀ s, (report s).allocated = s.allocated) (s : Screen)
    (c : BitVec 8) : (s.putchWith report c).allocated = s.allocated := by
  have hlimit (s : Screen) : (s.limit report).allocated = s.allocated := by
    unfold limit
    split
    · exact hr _
    · rfl
  have hstore (s : Screen) : s.store.allocated = s.allocated := by
    unfold store
    split <;> rfl
  have hplace : (s.place report c).allocated = s.allocated := by
    unfold place
    split
    · rfl
    split
    · rfl
    split
    · rfl
    split
    · exact hlimit _
    split
    · exact hstore s
    · rfl
  have hedge (s : Screen) : s.wrap.scroll.allocated = s.allocated := by
    unfold scroll wrap
    split <;> split <;> rfl
  apply andThen_allocated
  exact (andThen_allocated (hedge _)).trans hplace

theorem foldl_allocated {put : Screen → BitVec 8 → Screen} (hp : ∀ s c, (put s c).allocated = s.allocated) :
    ∀ (text : Text) (s : Screen), (text.foldl put s).allocated = s.allocated
  | [], _ => rfl
  | c :: text, s => (foldl_allocated hp text (put s c)).trans (hp s c)

theorem printfWith_allocated {put : Screen → BitVec 8 → Screen} (hp : ∀ s c, (put s c).allocated = s.allocated)
    (s : Screen) (text : Text) : (s.printfWith put text).allocated = s.allocated := by
  apply andThen_allocated
  split
  · rfl
  · exact (andThen_allocated rfl).trans (foldl_allocated hp text _)

theorem overflow_allocated (s : Screen) : s.overflow.allocated = s.allocated :=
  printfWith_allocated (putchWith_allocated fun _ => rfl) s overflowText

theorem putch_allocated (s : Screen) (c : BitVec 8) : (s.putch c).allocated = s.allocated :=
  putchWith_allocated overflow_allocated s c

theorem cls_allocated (s : Screen) : s.cls.allocated = s.allocated := by
  apply andThen_allocated
  unfold limit
  split
  · exact overflow_allocated _
  · rfl

theorem TextFits.of_unallocated : ∀ (text : Text) {s : Screen}, s.allocated = false → s.TextFits text
  | [], _, _ => trivial
  | c :: text, s, h => ⟨fun _ ha => absurd ha (by simp [h]), of_unallocated text ((putch_allocated s c).trans h)⟩

end Screen

/-- What is put out. The column of `locate()` is 0, as `menu()` has it. -/
inductive Output where
  | putch (c : BitVec 8)
  | puts (text : Text)
  | printf (text : Text)
  | cls
  | locate (relY : Unsigned)

def Screen.out (s : Screen) : Output → Screen
  | .putch c     => s.putch c
  | .puts text   => s.puts text
  | .printf text => s.printf text
  | .cls         => s.cls
  | .locate relY => s.locate 0 relY

/-- The state after `init_video()`, the outputs `before`, and `init_video_scrollback()`. -/
def Screen.scrollback (before : List Output) : Screen :=
  (before.foldl Screen.out Screen.reset.initVideo).initVideoScrollback


/-! ## Runs -/

/-- What an output puts on the screen fits. -/
def Output.Fits (s : Screen) : Output → Prop
  | .putch c     => s.Fits c
  | .puts text   => s.TextFits text
  | .printf text => ({ s with printfLocked := true } : Screen).TextFits text
  | .cls         => True
  | .locate _    => True

/-- Each output of a run fits where it is made. -/
def OutputsFit : Screen → List Output → Prop
  | _, []        => True
  | s, o :: outs => o.Fits s ∧ OutputsFit (s.out o) outs

theorem Screen.Sound.out {s : Screen} (h : s.Sound) {o : Output} (ho : o.Fits s) : (s.out o).Sound := by
  cases o with
  | putch c => exact h.putch ho
  | puts text => exact h.puts ho
  | printf text => exact h.printf ho
  | cls => exact h.cls
  | locate relY => exact h.locate relY

theorem Screen.Sound.outs : ∀ {outs : List Output} {s : Screen}, s.Sound → OutputsFit s outs →
    (outs.foldl Screen.out s).Sound
  | [], _, h, _ => h
  | o :: outs, s, h, ⟨ho, hos⟩ => @Screen.Sound.outs outs (s.out o) (h.out ho) hos

theorem out_allocated (s : Screen) (o : Output) : (s.out o).allocated = s.allocated := by
  cases o with
  | putch c => exact s.putch_allocated c
  | puts text => exact Screen.foldl_allocated Screen.putch_allocated text s
  | printf text => exact Screen.printfWith_allocated Screen.putch_allocated s text
  | cls => exact s.cls_allocated
  | locate relY => exact Screen.andThen_allocated rfl

/-- Before `init_video_scrollback()` nothing is stored. -/
theorem outputsFit_of_unallocated : ∀ {outs : List Output} {s : Screen}, s.allocated = false → OutputsFit s outs
  | [], _, _ => trivial
  | o :: outs, s, h => by
    refine ⟨?_, outputsFit_of_unallocated ((out_allocated s o).trans h)⟩
    cases o with
    | putch c => exact fun _ ha => absurd ha (by simp [h])
    | puts text => exact .of_unallocated text h
    | printf text => exact .of_unallocated text h
    | cls => trivial
    | locate relY => trivial

theorem outs_allocated : ∀ (outs : List Output) (s : Screen), (outs.foldl Screen.out s).allocated = s.allocated
  | [], _ => rfl
  | o :: outs, s => (outs_allocated outs (s.out o)).trans (out_allocated s o)

theorem scrollback_sound (before : List Output) : (Screen.scrollback before).Sound := by
  have hreset : Screen.reset.Sound := ⟨fun _ => Nat.zero_lt_succ _, rfl, fun i hi => nomatch hi⟩
  have hinit : Screen.reset.initVideo.Sound :=
    hreset.cls.andThen fun _ => ⟨hreset.cls.csrX, hreset.cls.bufX, hreset.cls.stores⟩
  have hinitUn : Screen.reset.initVideo.allocated = false :=
    (Screen.andThen_allocated rfl).trans Screen.reset.cls_allocated
  have hbefore : (before.foldl Screen.out Screen.reset.initVideo).Sound :=
    hinit.outs (outputsFit_of_unallocated hinitUn)
  have hun : (before.foldl Screen.out Screen.reset.initVideo).allocated = false :=
    (outs_allocated before _).trans hinitUn
  unfold Screen.scrollback
  generalize before.foldl Screen.out Screen.reset.initVideo = s at hbefore hun ⊢
  have hfit : ({ s with printfLocked := true } : Screen).TextFits Screen.initializedText := by
    apply Screen.TextFits.of_unallocated
    exact hun
  have hprintf := hbefore.printf hfit
  exact Screen.Sound.andThen hprintf fun _ => ⟨hprintf.csrX, hprintf.bufX, hprintf.stores⟩

/-- **In a run that puts its characters in the first 1024 lines, `putch()` never stores outside the buffer.** -/
theorem scrollback_safe {before outs : List Output} (h : OutputsFit (Screen.scrollback before) outs) :
    ∀ i ∈ (outs.foldl Screen.out (Screen.scrollback before)).stores, i.toNat < scrollbackBufSize :=
  ((scrollback_sound before).outs h).stores

/-- `printf("OK\n")`, then `menu()` going back over the line and printing it again. -/
theorem scrollback_safe_menu :
    ∃ s, [.printf [79, 75, 10], .locate (-1), .printf [79, 75, 10]].foldl Screen.out (Screen.scrollback []) = s ∧
      ∀ i ∈ s.stores, i.toNat < scrollbackBufSize :=
  ⟨_, rfl, scrollback_safe ⟨.of_short (by decide +kernel), trivial, .of_short (by decide +kernel), trivial⟩⟩

theorem newLines_outside {n : Nat} (hn : n = 1024) :
    ∃ i ∈ ([.puts (List.replicate n (code '\n')), .putch (code 'x')].foldl Screen.out (Screen.scrollback [])).stores,
      scrollbackBufSize ≤ i.toNat := by
  have hy0 : (Screen.scrollback []).bufY.toNat = 0 := by decide +kernel
  have hlen : (Screen.scrollback []).bufY.toNat + (List.replicate n (code '\n')).length ≤ 1024 := by
    rw [hy0, List.length_replicate]
    omega
  have hmax : (Screen.scrollback []).bufY.toNat + n ≤ scrollbackBufSize := by
    rw [hy0, hn]
    decide
  obtain ⟨hs, hy⟩ := Screen.puts_newLines n (by decide +kernel) hmax
  have ha : ((Screen.scrollback []).puts (List.replicate n (code '\n'))).allocated = true :=
    (out_allocated _ (.puts _)).trans (by decide +kernel)
  have hsound := (scrollback_sound []).puts (.of_short hlen)
  refine hsound.putch_outside hs ha (c := code 'x') (by decide) (by omega) ?_
  simp only [screenW]
  omega

/-- 1024 newlines and a character. -/
theorem scrollback_overrun :
    ¬ ∀ before outs : List Output, (∀ relY, .locate relY ∉ outs) →
      ∀ i ∈ (outs.foldl Screen.out (Screen.scrollback before)).stores, i.toNat < scrollbackBufSize := by
  intro h
  obtain ⟨i, hi, hle⟩ := newLines_outside rfl
  refine absurd (h [] _ ?_ i hi) (Nat.not_lt.2 hle)
  intro relY hmem
  rcases List.mem_cons.1 hmem with hmem | hmem
  · cases hmem
  · cases List.mem_singleton.1 hmem

end SmpBoot
