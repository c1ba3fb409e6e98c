import Mathlib.Data.Fin.Basic
/-!
# Terminal — a screen of lines with a cursor in it

What is put goes to the cursor, which wraps at the end of a line; a line feed in the last line drops the first one.
-/

structure Terminal (height width : Nat) (κ : Type) where
  cell : Fin height → Fin width → κ
  row  : Fin height
  col  : Fin width

namespace Terminal

variable {height width : Nat} {κ : Type} (blank : κ)

/-- To the beginning of the line. -/
def home (t : Terminal height width κ) : Terminal height width κ := { t with col := ⟨0, t.col.pos⟩ }

/-- To the beginning of the next line, with the lines moved up where there is none. -/
def lineFeed (t : Terminal height width κ) : Terminal height width κ :=
  if h : t.row + 1 < height then { t.home with row := ⟨t.row + 1, h⟩ }
  else { t.home with cell := fun r c => if h : r + 1 < height then t.cell ⟨r + 1, h⟩ c else blank }

/-- To a column, or behind the last one. -/
def moveTo (t : Terminal height width κ) (x : Nat) : Terminal height width κ :=
  if h : x < width then { t with col := ⟨x, h⟩ } else t.lineFeed blank

def write (t : Terminal height width κ) (k : κ) : Terminal height width κ :=
  { t with cell := fun r c => if r = t.row ∧ c = t.col then k else t.cell r c }

def put (t : Terminal height width κ) (k : κ) : Terminal height width κ := (t.write k).moveTo blank (t.col + 1)

/-- Some lines up, to the beginning of the line. -/
def up (t : Terminal height width κ) (n : Nat) : Terminal height width κ :=
  { t.home with row := ⟨t.row - n, Nat.lt_of_le_of_lt (Nat.sub_le _ _) t.row.isLt⟩ }

variable {blank} {t : Terminal height width κ}

end Terminal
