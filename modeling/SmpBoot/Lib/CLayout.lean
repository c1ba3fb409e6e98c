import Mathlib.Tactic.Ring
import Mathlib.Data.List.FinRange
/-!
# CLayout — what a C compiler makes of a structure declaration

A declaration is a tree of structures over scalar fields; an `Abi` gives each field its width and alignment.  `layout`
places the fields one after the other, with the padding C asks for and none in a packed structure.  A `Layout` carries
that its slots lie inside the object and follow one another, so that what is stored in a field is what a load finds there
(`load_store`).  `le` is the little-endian reading of bytes.  Nothing here names a program.
-/
namespace CLayout

abbrev Bytes := Nat → BitVec 8

/-! ## Little-endian numbers -/

/-- The number that the first `n` bytes spell, the least significant byte first. -/
def le : Nat → Bytes → Nat
  | 0,     _ => 0
  | n + 1, b => (b 0).toNat + 256 * le n (fun i => b (i + 1))

def byteOf (x k : Nat) : BitVec 8 := BitVec.ofNat 8 (x / 256 ^ k)

theorem le_congr : ∀ (n : Nat) {b b' : Bytes}, (∀ i < n, b i = b' i) → le n b = le n b'
  | 0,     _, _, _ => rfl
  | n + 1, _, _, h => by
    simp only [le]
    rw [h 0 (Nat.succ_pos n), le_congr n (fun i hi => h (i + 1) (Nat.succ_lt_succ hi))]

theorem le_lt : ∀ (n : Nat) (b : Bytes), le n b < 256 ^ n
  | 0,     _ => Nat.one_pos
  | n + 1, b => by
    have h := le_lt n (fun i => b (i + 1))
    have h0 := (b 0).isLt
    simp only [le]
    rw [Nat.pow_succ]
    omega

/-- **A longer number is its low bytes and its high bytes.** -/
theorem le_add : ∀ (n k : Nat) (b : Bytes), le (n + k) b = le n b + 256 ^ n * le k (fun i => b (n + i))
  | 0, k, b => by simp [le]
  | n + 1, k, b => by
    rw [show n + 1 + k = (n + k) + 1 by omega]
    simp only [le]
    rw [le_add n k, show (fun i => b (n + 1 + i)) = (fun i => b (n + i + 1)) from funext fun i => by
      rw [Nat.add_right_comm]]
    ring

theorem le_add_at (n k o : Nat) (m : Bytes) :
    le (n + k) (fun i => m (o + i)) = le n (fun i => m (o + i)) + 256 ^ n * le k (fun i => m (o + n + i)) := by
  rw [le_add]
  simp only [Nat.add_assoc]

theorem le_byteOf : ∀ (n x : Nat), le n (byteOf x) = x % 256 ^ n
  | 0,     x => by rw [Nat.pow_zero, Nat.mod_one]; rfl
  | n + 1, x => by
    have hs : (fun i => byteOf x (i + 1)) = byteOf (x / 256) := by
      funext i
      rw [byteOf, byteOf, Nat.pow_succ', Nat.div_div_eq_div_mul]
    simp only [le]
    rw [hs, le_byteOf n, Nat.pow_succ', Nat.mod_mul, byteOf, Nat.pow_zero, Nat.div_one, BitVec.toNat_ofNat]

theorem le_eq_zero : ∀ (n : Nat) {b : Bytes}, le n b = 0 ↔ ∀ i < n, b i = 0
  | 0,     _ => ⟨fun _ i hi => absurd hi (Nat.not_lt_zero i), fun _ => rfl⟩
  | n + 1, b => by
    simp only [le]
    constructor
    · intro h i hi
      have h0 : (b 0).toNat = 0 := by omega
      have hr := (le_eq_zero n).1 (show le n (fun i => b (i + 1)) = 0 by omega)
      cases i with
      | zero => exact BitVec.eq_of_toNat_eq h0
      | succ i => exact hr i (Nat.lt_of_succ_lt_succ hi)
    · intro h
      rw [h 0 (Nat.succ_pos n), (le_eq_zero n).2 (fun i hi => h (i + 1) (Nat.succ_lt_succ hi))]
      rfl

/-! ## Declarations and their layout -/

/-- A type: a scalar, named by the field that holds it, or a structure of members. -/
inductive CType (φ : Type) where
  | scalar (f : φ)
  | struct (packed : Bool) (members : List (CType φ))

/-- An array is laid out as a structure of equal members. -/
def CType.array {φ : Type} (n : Nat) (t : Fin n → CType φ) : CType φ := .struct false ((List.finRange n).map t)

/-- The width and the alignment of each scalar, in bytes. -/
structure Abi (φ : Type) where
  bytes : φ → Nat
  align : φ → Nat
  pos   : ∀ f, 0 < align f

abbrev Assignment {φ : Type} (abi : Abi φ) := (f : φ) → BitVec (8 * abi.bytes f)

def roundUp (n a : Nat) : Nat := (n + a - 1) / a * a

theorem le_roundUp (n : Nat) {a : Nat} (ha : 0 < a) : n ≤ roundUp n a := by
  have h1 := Nat.div_add_mod (n + a - 1) a
  have h2 := Nat.mod_lt (n + a - 1) ha
  rw [roundUp, Nat.mul_comm]
  omega

section
variable {φ : Type} {abi : Abi φ}

/-- **Where the fields of an object are**: `slots` gives each its offset, inside the object and one behind the other. -/
structure Layout (abi : Abi φ) where
  size    : Nat
  align   : Nat
  slots   : List (φ × Nat)
  pos     : 0 < align
  inside  : ∀ s ∈ slots, s.2 + abi.bytes s.1 ≤ size
  ordered : slots.Pairwise (fun s t => s.2 + abi.bytes s.1 ≤ t.2)

namespace Layout

def empty : Layout abi := ⟨0, 1, [], Nat.one_pos, fun _ h => (List.not_mem_nil h).elim, List.Pairwise.nil⟩

def scalar (abi : Abi φ) (f : φ) : Layout abi where
  size    := abi.bytes f
  align   := abi.align f
  slots   := [(f, 0)]
  pos     := abi.pos f
  inside  := fun s hs => by rw [List.mem_singleton.1 hs]; exact Nat.le_of_eq (Nat.zero_add _)
  ordered := List.pairwise_singleton _ _

def append (l : Layout abi) (gap : Nat) (m : Layout abi) : Layout abi where
  size    := l.size + gap + m.size
  align   := max l.align m.align
  slots   := l.slots ++ m.slots.map (fun s => (s.1, l.size + gap + s.2))
  pos     := Nat.lt_of_lt_of_le l.pos (Nat.le_max_left _ _)
  inside  := by
    intro s hs
    rcases List.mem_append.1 hs with h | h
    · have := l.inside s h
      omega
    · obtain ⟨t, ht, rfl⟩ := List.mem_map.1 h
      have := m.inside t ht
      show l.size + gap + t.2 + abi.bytes t.1 ≤ _
      omega
  ordered := by
    refine List.pairwise_append.2 ⟨l.ordered, List.pairwise_map.2 (m.ordered.imp fun {s t} h => ?_), ?_⟩
    · show l.size + gap + s.2 + abi.bytes s.1 ≤ l.size + gap + t.2
      omega
    · intro s hs t ht
      obtain ⟨u, -, rfl⟩ := List.mem_map.1 ht
      have := l.inside s hs
      show _ ≤ l.size + gap + u.2
      omega

/-- The end of a structure: the tail is padded up to the alignment, unless the structure is packed. -/
def close (packed : Bool) (l : Layout abi) : Layout abi where
  size    := if packed then l.size else roundUp l.size l.align
  align   := if packed then 1 else l.align
  slots   := l.slots
  pos     := by split; exacts [Nat.one_pos, l.pos]
  inside  := fun s hs => by
    have := l.inside s hs
    split
    · exact this
    · exact Nat.le_trans this (le_roundUp l.size l.pos)
  ordered := l.ordered

end Layout

mutual

def CType.layout (abi : Abi φ) : CType φ → Layout abi
  | .scalar f => .scalar abi f
  | .struct packed ms => (CType.place abi packed ms .empty).close packed

/-- The members of a structure, placed behind those that `l` has already. -/
def CType.place (abi : Abi φ) (packed : Bool) : List (CType φ) → Layout abi → Layout abi
  | [],      l => l
  | t :: ts, l =>
    let m := CType.layout abi t
    CType.place abi packed ts (l.append (if packed then 0 else roundUp l.size m.align - l.size) m)

end

theorem CType.place_append (packed : Bool) : ∀ (ts us : List (CType φ)) (l : Layout abi),
    CType.place abi packed (ts ++ us) l = CType.place abi packed us (CType.place abi packed ts l)
  | [],      _,  _ => rfl
  | t :: ts, us, l => by
    simp only [List.cons_append, CType.place]
    exact CType.place_append packed ts us _

theorem CType.place_start (packed : Bool) : ∀ (ts : List (CType φ)) (l : Layout abi),
    l.slots <+: (CType.place abi packed ts l).slots
  | [],      _ => List.prefix_rfl
  | t :: ts, l => by
    simp only [CType.place]
    refine List.IsPrefix.trans ?_ (CType.place_start packed ts _)
    exact List.prefix_append l.slots _

/-! ## Storing and loading -/

namespace Layout

def covers (abi : Abi φ) (i : Nat) (s : φ × Nat) : Bool := decide (s.2 ≤ i ∧ i < s.2 + abi.bytes s.1)

/-- Memory after every field of the object was assigned its value. -/
def store (l : Layout abi) (v : Assignment abi) (m : Bytes) : Bytes := fun i =>
  match l.slots.find? (covers abi i) with
  | some s => byteOf (v s.1).toNat (i - s.2)
  | none   => m i

def loadAt (abi : Abi φ) (m : Bytes) (f : φ) (o : Nat) : Nat := le (abi.bytes f) (fun i => m (o + i))

variable [DecidableEq φ]

def offset (l : Layout abi) (f : φ) : Nat := (l.slots.lookup f).getD 0

def load (l : Layout abi) (m : Bytes) (f : φ) : Nat := loadAt abi m f (l.offset f)

end Layout

theorem covers_iff {i : Nat} {s : φ × Nat} : Layout.covers abi i s = true ↔ s.2 ≤ i ∧ i < s.2 + abi.bytes s.1 :=
  decide_eq_true_iff

theorem find_covers : ∀ {slots : List (φ × Nat)},
    slots.Pairwise (fun s t => s.2 + abi.bytes s.1 ≤ t.2) → ∀ {s : φ × Nat}, s ∈ slots → ∀ {i : Nat},
    s.2 ≤ i → i < s.2 + abi.bytes s.1 → slots.find? (Layout.covers abi i) = some s
  | [],     _, _, hs, _, _, _ => (List.not_mem_nil hs).elim
  | t :: r, h, s, hs, i, h1, h2 => by
    have hp := List.pairwise_cons.1 h
    rcases List.mem_cons.1 hs with rfl | hm
    · exact List.find?_cons_of_pos (covers_iff.2 ⟨h1, h2⟩)
    · have hle := hp.1 s hm
      rw [List.find?_cons_of_neg (fun hc => by have := (covers_iff.1 hc).2; omega)]
      exact find_covers hp.2 hm h1 h2

/-- **A byte of a stored field.** -/
theorem store_byte (l : Layout abi) (v : Assignment abi) (m : Bytes) {f : φ} {o : Nat} (hs : (f, o) ∈ l.slots) {i : Nat}
    (hi : i < abi.bytes f) : l.store v m (o + i) = byteOf (v f).toNat i := by
  have h := find_covers l.ordered hs (Nat.le_add_right o i) (Nat.add_lt_add_left hi o)
  simp only [Layout.store, h, Nat.add_sub_cancel_left]

theorem store_behind (l : Layout abi) (v : Assignment abi) (m : Bytes) {i : Nat} (hi : l.size ≤ i) :
    l.store v m i = m i := by
  have h : l.slots.find? (Layout.covers abi i) = none := by
    rw [List.find?_eq_none]
    intro s hs hc
    have h1 := l.inside s hs
    have h2 := (covers_iff.1 hc).2
    omega
  simp only [Layout.store, h]

/-- **What was stored in a field is what is loaded from it.** -/
theorem load_store (l : Layout abi) (v : Assignment abi) (m : Bytes) {f : φ} {o : Nat} (hs : (f, o) ∈ l.slots) :
    Layout.loadAt abi (l.store v m) f o = (v f).toNat := by
  have hw : (v f).toNat < 256 ^ abi.bytes f := by
    have := (v f).isLt
    rwa [Nat.pow_mul] at this
  rw [Layout.loadAt, le_congr _ (fun i hi => store_byte l v m hs hi), le_byteOf, Nat.mod_eq_of_lt hw]

variable [DecidableEq φ]

theorem mem_of_lookup {slots : List (φ × Nat)} {f : φ} {o : Nat} (h : slots.lookup f = some o) : (f, o) ∈ slots := by
  obtain ⟨l₁, l₂, rfl, -⟩ := List.lookup_eq_some_iff.1 h
  exact List.mem_append_right l₁ List.mem_cons_self

theorem lookup_of_start {slots slots' : List (φ × Nat)} (hp : slots <+: slots') {f : φ} {o : Nat}
    (h : slots.lookup f = some o) : slots'.lookup f = some o := by
  obtain ⟨r, rfl⟩ := hp
  rw [List.lookup_append, h]; rfl

theorem offset_of_lookup {l : Layout abi} {f : φ} {o : Nat} (h : l.slots.lookup f = some o) : l.offset f = o := by
  rw [Layout.offset, h]; rfl

end

end CLayout
