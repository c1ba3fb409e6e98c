import Mathlib.Data.BitVec
import SmpBoot.Lib.Walk
/-!
# ByteMem — a byte memory that keeps the addresses it was written at

The copy goes upwards byte by byte, and a copy to lower addresses may overlap its source (`bytes_copy`).  Words of two bytes,
the low one first, are counted from address 0 on.  A string ends in front of the first 0 (`untilNul`).
-/
namespace ByteMem

structure Mem where
  bytes   : Nat → BitVec 8
  /-- The last one first. -/
  written : List Nat

namespace Mem

def poke (m : Mem) (a : Nat) (b : BitVec 8) : Mem where
  bytes x := if x = a then b else m.bytes x
  written := a :: m.written

def copy (m : Mem) (dest src : Nat) : Nat → Mem
  | 0     => m
  | n + 1 => (m.poke dest (m.bytes src)).copy (dest + 1) (src + 1) n

def word (m : Mem) (i : Nat) : BitVec 16 := m.bytes (2 * i + 1) ++ m.bytes (2 * i)

def pokeWord (m : Mem) (i : Nat) (w : BitVec 16) : Mem :=
  (m.poke (2 * i) (w.extractLsb' 0 8)).poke (2 * i + 1) (w.extractLsb' 8 8)

def fill (m : Mem) (i : Nat) (w : BitVec 16) : Nat → Mem
  | 0     => m
  | n + 1 => (m.pokeWord i w).fill (i + 1) w n

/-- The string at `p`. -/
def untilNul (m : Mem) : Nat → Nat → Option (List (BitVec 8))
  | 0,        _ => none
  | fuel + 1, p => if m.bytes p = 0 then some [] else (m.untilNul fuel (p + 1)).map (m.bytes p :: ·)

/-- The `n` bytes from `p` on. -/
def read (m : Mem) (p : Nat) : Nat → List (BitVec 8)
  | 0     => []
  | n + 1 => m.bytes p :: m.read (p + 1) n

/-- The string stands at `p`, with its 0. -/
def Str (m : Mem) (p : Nat) (t : List (BitVec 8)) : Prop := m.read p (t.length + 1) = t ++ [0]

/-- Nothing was written below the address. -/
def Above (lo : Nat) (m : Mem) : Prop := ∀ a ∈ m.written, lo ≤ a

/-! ## What is read afterwards -/

section
variable {m : Mem} {lo : Nat}

theorem Above.poke (h : m.Above lo) {a : Nat} (ha : lo ≤ a) (b : BitVec 8) : (m.poke a b).Above lo := by
  intro x hx
  rcases List.mem_cons.1 hx with rfl | hx
  · exact ha
  · exact h x hx

theorem Above.copy : ∀ {m : Mem} {dest src : Nat} (n : Nat), m.Above lo → lo ≤ dest → (m.copy dest src n).Above lo
  | _, _, _, 0,     h, _  => h
  | _, _, _, n + 1, h, hd => Above.copy n (h.poke hd _) (Nat.le_succ_of_le hd)

theorem Above.pokeWord (h : m.Above lo) {i : Nat} (hi : lo ≤ 2 * i) (w : BitVec 16) : (m.pokeWord i w).Above lo :=
  (h.poke hi _).poke (Nat.le_succ_of_le hi) _

theorem Above.fill (w : BitVec 16) : ∀ {m : Mem} {i : Nat} (n : Nat), m.Above lo → lo ≤ 2 * i → (m.fill i w n).Above lo
  | _, _, 0,     h, _  => h
  | _, _, n + 1, h, hi => Above.fill w n (h.pokeWord hi w) (by omega)

end

/-- **Only the range was written** from `m` to `m'`. -/
structure Writes (lo hi : Nat) (m m' : Mem) : Prop where
  old  : ∀ a ∈ m.written, a ∈ m'.written
  new  : ∀ a ∈ m'.written, a ∈ m.written ∨ lo ≤ a ∧ a < hi
  kept : ∀ a, ¬ (lo ≤ a ∧ a < hi) → m'.bytes a = m.bytes a

namespace Writes

variable {lo hi : Nat} {m m' m'' : Mem}

theorem refl (lo hi : Nat) (m : Mem) : Writes lo hi m m := ⟨fun _ h => h, fun _ h => .inl h, fun _ _ => rfl⟩

theorem trans (h : Writes lo hi m m') (h' : Writes lo hi m' m'') : Writes lo hi m m'' := by
  refine ⟨fun a ha => h'.old a (h.old a ha), fun a ha => ?_, fun a ha => (h'.kept a ha).trans (h.kept a ha)⟩
  rcases h'.new a ha with ha | ha
  · exact h.new a ha
  · exact .inr ha

theorem mono {lo' hi' : Nat} (h : Writes lo hi m m') (hlo : lo' ≤ lo) (hhi : hi ≤ hi') : Writes lo' hi' m m' := by
  have hin : ∀ a, lo ≤ a ∧ a < hi → lo' ≤ a ∧ a < hi' :=
    fun a hr => ⟨Nat.le_trans hlo hr.1, Nat.lt_of_lt_of_le hr.2 hhi⟩
  exact ⟨h.old, fun a ha => (h.new a ha).imp_right (hin a), fun a ha => h.kept a (mt (hin a) ha)⟩

theorem poke (m : Mem) {a : Nat} (hlo : lo ≤ a) (hhi : a < hi) (b : BitVec 8) : Writes lo hi m (m.poke a b) := by
  refine ⟨fun _ h => List.mem_cons_of_mem _ h, fun x hx => ?_, fun x hx => if_neg fun (he : x = a) => hx ?_⟩
  rcases List.mem_cons.1 hx with rfl | hx
  · exact .inr ⟨hlo, hhi⟩
  · exact .inl hx
  · rw [he]
    exact ⟨hlo, hhi⟩

end Writes

theorem bytes_poke_self (m : Mem) (a : Nat) (b : BitVec 8) : (m.poke a b).bytes a = b := if_pos rfl

theorem bytes_poke_ne (m : Mem) {a x : Nat} (h : x ≠ a) (b : BitVec 8) : (m.poke a b).bytes x = m.bytes x := if_neg h

theorem read_snoc (m : Mem) : ∀ (n p : Nat), m.read p (n + 1) = m.read p n ++ [m.bytes (p + n)]
  | 0,     _ => rfl
  | n + 1, p => by
    have hnext : p + 1 + n = p + (n + 1) := by omega
    rw [read, read_snoc m n (p + 1), hnext]
    rfl

theorem read_congr {m m' : Mem} : ∀ {n p : Nat}, (∀ a, p ≤ a → a < p + n → m'.bytes a = m.bytes a) →
    m'.read p n = m.read p n
  | 0,     _, _ => rfl
  | n + 1, p, h => by
    rw [read, read, h p (Nat.le_refl p) (by omega), read_congr fun a h1 h2 => h a (by omega) (by omega)]

theorem read_poke (m : Mem) {p n a : Nat} (h : ¬ (p ≤ a ∧ a < p + n)) (b : BitVec 8) :
    (m.poke a b).read p n = m.read p n := by
  apply read_congr
  intro x h1 h2
  apply bytes_poke_ne
  rintro rfl
  exact h ⟨h1, h2⟩

theorem Writes.read {lo hi : Nat} {m m' : Mem} (h : Writes lo hi m m') {p n : Nat} (hd : p + n ≤ lo ∨ hi ≤ p) :
    m'.read p n = m.read p n :=
  read_congr fun a h1 h2 => h.kept a (by omega)

/-! ## Strings -/

section
variable {m : Mem}

theorem Str.of_read {p : Nat} {t : List (BitVec 8)} (h : m.read p t.length = t) (h0 : m.bytes (p + t.length) = 0) :
    m.Str p t := by
  rw [Str, read_snoc, h, h0]

theorem Str.bytes : ∀ {t : List (BitVec 8)} {p : Nat}, m.Str p t → ∀ i ≤ t.length, m.bytes (p + i) = t.getD i 0
  | [],     _, h, i, hi => by
    rw [Nat.le_zero.1 hi]
    exact (List.cons.inj h).1
  | c :: t, p, h, 0, _ => (List.cons.inj h).1
  | c :: t, p, h, i + 1, hi => by
    have hnext : p + (i + 1) = p + 1 + i := by omega
    rw [hnext, Str.bytes (List.cons.inj h).2 i (Nat.le_of_succ_le_succ hi), List.getD_cons_succ]

theorem Str.cons {p : Nat} {c : BitVec 8} {t : List (BitVec 8)} (hc : m.bytes p = c) (h : m.Str (p + 1) t) :
    m.Str p (c :: t) := by
  rw [Str, List.length_cons, Mem.read, hc, h]
  rfl

theorem Str.untilNul : ∀ {t : List (BitVec 8)} {p : Nat}, m.Str p t → 0 ∉ t → ∀ fuel > t.length, m.untilNul fuel p = some t
  | [],     _, h, _, fuel, hf => by
    obtain ⟨k, rfl⟩ := Nat.exists_eq_add_of_lt hf
    exact if_pos (List.cons.inj h).1
  | c :: t, p, h, h0, fuel, hf => by
    obtain ⟨k, rfl⟩ := Nat.exists_eq_add_of_lt hf
    obtain ⟨hc, ht⟩ := List.cons.inj h
    have hne : m.bytes p ≠ 0 := fun he => h0 (by rw [← hc, he]; exact List.mem_cons_self)
    rw [Mem.untilNul, if_neg hne,
      Str.untilNul ht (fun hm => h0 (List.mem_cons_of_mem c hm)) _ (by rw [List.length_cons]; omega), hc]
    rfl

theorem untilNul_ends : ∀ (n : Nat) {p : Nat}, m.bytes (p + n) = 0 →
    ∃ t, t.length ≤ n ∧ ∀ fuel > n, m.untilNul fuel p = some t
  | 0,     p, h => by
    exact ⟨[], Nat.le_refl 0, Walk.forall_fuel fun k _ => if_pos h⟩
  | n + 1, p, h => by
    by_cases hp : m.bytes p = 0
    · exact ⟨[], Nat.zero_le _, Walk.forall_fuel fun k _ => if_pos hp⟩
    · have hnext : p + 1 + n = p + (n + 1) := by omega
      obtain ⟨t, ht, hrun⟩ := untilNul_ends n (p := p + 1) (hnext ▸ h)
      refine ⟨m.bytes p :: t, Nat.succ_le_succ ht, Walk.forall_fuel fun k hk => (if_neg hp).trans ?_⟩
      rw [hrun k hk]
      rfl

/-- **The length is the distance to the 0** if none comes earlier. -/
theorem untilNul_length : ∀ (n : Nat) {p : Nat}, (∀ i < n, m.bytes (p + i) ≠ 0) → m.bytes (p + n) = 0 →
    ∃ t, t.length = n ∧ ∀ fuel > n, m.untilNul fuel p = some t
  | 0,     p, _, h => by
    obtain ⟨t, ht, hrun⟩ := untilNul_ends 0 h
    exact ⟨t, Nat.le_zero.1 ht, hrun⟩
  | n + 1, p, hne, h => by
    have hnext (i : Nat) : p + 1 + i = p + (i + 1) := by omega
    obtain ⟨t, ht, hrun⟩ :=
      untilNul_length n (p := p + 1) (fun i hi => hnext i ▸ hne (i + 1) (Nat.succ_lt_succ hi)) (hnext n ▸ h)
    refine ⟨m.bytes p :: t, congrArg Nat.succ ht, Walk.forall_fuel fun k hk => (if_neg (hne 0 (Nat.zero_lt_succ n))).trans ?_⟩
    rw [hrun k hk]
    rfl

end

end Mem

end ByteMem
