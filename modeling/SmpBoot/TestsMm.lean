import SmpBoot.Capacity
import SmpBoot.Lib.RaceFree
import SmpBoot.Phased
/-!
# TestsMm — `tests_mm` on two CPUs

CPU 0 and CPU 1 allocate memory, fill it, and read and write it in turns, and they meet in a barrier between the turns.
Though both call `heap_alloc` at the same time once, no turn of one CPU touches what the other writes meanwhile.  So
whatever the order of their steps, CPU 0 prints what its messages say that it should, and the words at the end are the same
(`testsMm_safe`); and with memory for the nine pages both come to their ends (`testsMm_complete`).  A heap call is one step,
since it holds `pt_mutex`.
-/
namespace SmpBoot
namespace TestsMm

open Interleave Resume Resume.Prog

variable {b : Build}

/-! ## The program -/

/-- The `static` pointers. -/
inductive SharedPtr where
  | shared
  | shared2
  | shared3
  | shared4
  deriving DecidableEq

inductive TestOp where
  /-- `p = heap_alloc(n, 0)` -/
  | heapAlloc (p : SharedPtr) (n : Nat)
  | virtToPhys (p : SharedPtr)
  /-- A round of `memset`. -/
  | poke (p : SharedPtr) (k : Nat) (c : BitVec 8)
  /-- `p[i] = w` -/
  | store (p : SharedPtr) (i : Nat) (w : BitVec 32)
  /-- `printf("[0] p[i] = 0x%x (should be w)\n", p[i])` -/
  | print (p : SharedPtr) (i : Nat) (w : BitVec 32)
  deriving DecidableEq

def memset (p : SharedPtr) (c : BitVec 8) (count : Nat) : List TestOp := (List.range count).map fun k => .poke p k c

def storeTurn : Ops (Fin 2) TestOp := fun i =>
  if i.val = 0 then [.store .shared 0 0xdeadbeef, .store .shared2 0 0xdeadbeef, .store .shared3 0 0xdeadbeef]
  else [.store .shared4 0 0xdeadbeef]

def crossTurn : Ops (Fin 2) TestOp := fun i =>
  if i.val = 0 then [.virtToPhys .shared4, .store .shared4 1 0xdeadc0de]
  else [.store .shared 1 0xdeadc0de, .store .shared2 1 0xdeadc0de, .store .shared3 1 0xdeadc0de]

structure TestMem (b : Build) where
  mm  : Mm b
  ptr : SharedPtr → Nat
  ram : Nat → BitVec 8

def byteOf (w : BitVec 32) (j : Nat) : BitVec 8 := w.extractLsb' (8 * j) 8

namespace TestMem

/-- The physical address of a byte; nothing if the access faults. -/
def adr (m : TestMem b) (p : SharedPtr) (k : Nat) : Option Nat := m.mm.translate ((m.ptr p + k) % 2 ^ b.longBits)

def peek (m : TestMem b) (p : SharedPtr) (k : Nat) : Option (BitVec 8) := (m.adr p k).map m.ram

def poke (m : TestMem b) (p : SharedPtr) (k : Nat) (c : BitVec 8) : Option (TestMem b) :=
  (m.adr p k).map fun a => { m with ram := Function.update m.ram a c }

def word (m : TestMem b) (p : SharedPtr) (i : Nat) : Option (BitVec 32) := do
  let b₀ ← m.peek p (4 * i)
  let b₁ ← m.peek p (4 * i + 1)
  let b₂ ← m.peek p (4 * i + 2)
  let b₃ ← m.peek p (4 * i + 3)
  some (b₃ ++ b₂ ++ b₁ ++ b₀)

def store (m : TestMem b) (p : SharedPtr) (i : Nat) (w : BitVec 32) : Option (TestMem b) :=
  [0, 1, 2, 3].foldlM (fun m j => m.poke p (4 * i + j) (byteOf w j)) m

/-- A heap call that runs out of memory does not come back. -/
def act (m : TestMem b) : TestOp → Option (TestMem b)
  | .heapAlloc p n =>
    match (SmpBoot.heapAlloc n 0).run m.mm with
    | (mm, .ok r)    => some { m with mm := mm, ptr := Function.update m.ptr p r.1 }
    | (_,  .error _) => none
  | .virtToPhys p  =>
    match (SmpBoot.virtToPhys b (m.ptr p)).run m.mm with
    | (mm, .ok _)    => some { m with mm := mm }
    | (_,  .error _) => none
  | .poke p k c    => m.poke p k c
  | .store p i w   => m.store p i w
  | .print p i _   => (m.word p i).map fun _ => m

end TestMem

/-- The bytes that an operation touches. -/
def TestOp.bytes : TestOp → List (SharedPtr × Nat)
  | .heapAlloc _ _ => []
  | .virtToPhys _  => []
  | .poke p k _    => [(p, k)]
  | .store p i _   => [(p, 4 * i), (p, 4 * i + 1), (p, 4 * i + 2), (p, 4 * i + 3)]
  | .print p i _   => [(p, 4 * i), (p, 4 * i + 1), (p, 4 * i + 2), (p, 4 * i + 3)]

/-! ## Places without addresses -/

/-- How many bytes a pointer points to, and what they are, as far as the program has written them. -/
inductive Place where
  | size (p : SharedPtr)
  | byte (p : SharedPtr) (k : Nat)
  deriving DecidableEq

def Place.ptr : Place → SharedPtr
  | .size p   => p
  | .byte p _ => p

def wordPlaces (p : SharedPtr) (i : Nat) : Set Place := {a | ∃ j, j < 4 ∧ a = .byte p (4 * i + j)}

def placesAfter (x : Place → Option Nat) : TestOp → Place → Option Nat
  | .heapAlloc p n, .size q   => if q = p then some (n * 4096) else x (.size q)
  | .heapAlloc p _, .byte q k => if q = p then none else x (.byte q k)
  | .virtToPhys _,  a         => x a
  | .poke p k c,    a         => if a = .byte p k then some c.toNat else x a
  | .store _ _ _,   .size q   => x (.size q)
  | .store p i w,   .byte q k =>
    if q = p ∧ 4 * i ≤ k ∧ k < 4 * i + 4 then some (byteOf w (k - 4 * i)).toNat else x (.byte q k)
  | .print _ _ _,   a         => x a

def TestOp.reads : TestOp → Set Place
  | .heapAlloc _ _ => ∅
  | .virtToPhys _  => ∅
  | .poke p _ _    => {.size p}
  | .store p _ _   => {.size p}
  | .print p i _   => insert (.size p) (wordPlaces p i)

def TestOp.writes : TestOp → Set Place
  | .heapAlloc p _ => {a | a.ptr = p}
  | .virtToPhys _  => ∅
  | .poke p k _    => {.byte p k}
  | .store p i _   => wordPlaces p i
  | .print _ _ _   => ∅

/-- The pointer points to enough, and what is printed has been written. -/
def TestOp.Ok (x : Place → Option Nat) : TestOp → Prop
  | .heapAlloc _ _ => True
  | .virtToPhys _  => True
  | .poke p k _    => ∃ n, x (.size p) = some n ∧ k < n
  | .store p i _   => ∃ n, x (.size p) = some n ∧ 4 * i + 4 ≤ n
  | .print p i w   => (∃ n, x (.size p) = some n ∧ 4 * i + 4 ≤ n) ∧
    ∀ j < 4, x (.byte p (4 * i + j)) = some (byteOf w j).toNat

def testSem : RaceFree.Sem Place (Option Nat) TestOp where
  after o x := placesAfter x o
  reads     := TestOp.reads
  writes    := TestOp.writes
  Ok o x    := o.Ok x
  frame     := by
    intro o x a h
    cases o with
    | heapAlloc p n =>
      cases a with
      | size q   => exact if_neg h
      | byte q k => exact if_neg h
    | virtToPhys p => rfl
    | poke p k c => exact if_neg h
    | store p i w =>
      cases a with
      | size q   => rfl
      | byte q k =>
        refine if_neg fun ⟨hq, hlo, hhi⟩ => h ⟨k - 4 * i, by omega, ?_⟩
        rw [hq, show 4 * i + (k - 4 * i) = k by omega]
    | print p i w => rfl
  same      := by
    intro o x y h a ha
    cases o with
    | heapAlloc p n =>
      cases a with
      | size q   => exact (if_pos ha).trans (if_pos ha).symm
      | byte q k => exact (if_pos ha).trans (if_pos ha).symm
    | virtToPhys p => exact absurd ha (Set.notMem_empty a)
    | poke p k c => exact (if_pos ha).trans (if_pos ha).symm
    | store p i w =>
      obtain ⟨j, hj, rfl⟩ := ha
      exact (if_pos ⟨rfl, by omega, by omega⟩).trans (if_pos ⟨rfl, by omega, by omega⟩).symm
    | print p i w => exact absurd ha (Set.notMem_empty a)
  ok        := by
    intro o x y h ho
    cases o with
    | heapAlloc p n => trivial
    | virtToPhys p  => trivial
    | poke p k c =>
      obtain ⟨n, hn, hk⟩ := ho
      exact ⟨n, (h _ rfl).symm.trans hn, hk⟩
    | store p i w =>
      obtain ⟨n, hn, hi⟩ := ho
      exact ⟨n, (h _ rfl).symm.trans hn, hi⟩
    | print p i w =>
      obtain ⟨⟨n, hn, hi⟩, hw⟩ := ho
      refine ⟨⟨n, (h _ (Set.mem_insert _ _)).symm.trans hn, hi⟩, fun j hj => ?_⟩
      exact (h _ (Set.mem_insert_of_mem _ ⟨j, hj, rfl⟩)).symm.trans (hw j hj)

/-! ## What the heap gives -/

section Block
variable {s s' : Mm b} {q : Nat} {fs gs : List Nat}

/-- The frames of `fs` are those of the pages from `q` on, and no tables. -/
structure Block (s : Mm b) (q : Nat) (fs : List Nat) : Prop where
  start   : 0x400 ≤ q
  stop    : q + fs.length ≤ s.nextVirtPage
  mapped  : ∀ i f, fs[i]? = some f → s.frameOf (q + i) = some f
  taken   : ∀ f ∈ fs, s.taken f = true
  nodup   : fs.Nodup
  noTable : ∀ f ∈ fs, ∀ π, π.length ≤ b.depth → s.tableAt π ≠ some f

theorem Block.new (h : Heap s) (hg : Grew s s' gs) : Block s' s.nextVirtPage gs where
  start   := h.nextAt
  stop    := Nat.le_of_eq hg.next.symm
  mapped  := hg.mapped
  taken   := fun f hf => (hg.fresh f hf).2.1
  nodup   := hg.nodup
  noTable := fun f hf π hπ ht => by
    obtain ⟨h₁, -, h₂⟩ := hg.fresh f hf
    rcases hg.tables π f hπ ht with h₃ | ⟨-, h₃⟩
    · exact h.fresh h₂ h₁ π hπ h₃
    · exact h₃ hf

/-- **Later calls leave a block alone.** -/
theorem Block.grew (h : Block s q fs) (hg : Grew s s' gs) : Block s' q fs where
  start   := h.start
  stop    := Nat.le_trans h.stop (by rw [hg.next]; omega)
  mapped  := fun i f hi => by
    have hlen : i < fs.length := (List.getElem?_eq_some_iff.1 hi).1
    have hstop := h.stop
    have hstart := h.start
    have hnext := hg.next
    have hlt := hg.heap.next_lt
    have hap : apicPage = 0xfec00 := rfl
    have htmp : tmpPage = 0x1ff := rfl
    rw [hg.others _ (by omega) (by omega) (.inl (by omega))]
    exact h.mapped i f hi
  taken   := fun f hf => hg.taken f (h.taken f hf)
  nodup   := h.nodup
  noTable := fun f hf π hπ ht => by
    rcases hg.tables π f hπ ht with h₁ | ⟨h₁, -⟩
    · exact h.noTable f hf π hπ h₁
    · rw [h.taken f hf] at h₁
      cases h₁

/-- The physical address of byte `k`. -/
def physOf (fs : List Nat) (k : Nat) : Nat := fs[k / 4096]?.getD 0 * 4096 + k % 4096

theorem frame_mem {k : Nat} (hk : k < fs.length * 4096) : fs[k / 4096]?.getD 0 ∈ fs := by
  have hlt : k / 4096 < fs.length := by omega
  rw [List.getElem?_eq_getElem hlt]
  exact List.getElem_mem hlt

theorem Block.translate (h : Block s q fs) (hs : Heap s) {k : Nat} (hk : k < fs.length * 4096) :
    s.translate ((q * 4096 + k) % 2 ^ b.longBits) = some (physOf fs k) := by
  have hlt : k / 4096 < fs.length := by omega
  have hnext := hs.next_lt
  have hstop := h.stop
  have hap : apicPage = 0xfec00 := rfl
  have hps : pageSize = 4096 := rfl
  have hbits : 2 ^ 32 ≤ 2 ^ b.longBits := by cases b <;> decide
  have hpage : (q * 4096 + k) / 4096 = q + k / 4096 := by omega
  rw [Nat.mod_eq_of_lt (by omega), hs.toTables.translate_eq (by omega), hps, hpage,
    h.mapped _ _ (List.getElem?_eq_getElem hlt), physOf, List.getElem?_eq_getElem hlt, Option.map_some, Option.getD_some]
  congr 2
  omega

/-- Different bytes lie at different addresses. -/
theorem physOf_inj (hn : fs.Nodup) {k k' : Nat} (hk : k < fs.length * 4096) (hk' : k' < fs.length * 4096)
    (h : physOf fs k = physOf fs k') : k = k' := by
  have hlt : k / 4096 < fs.length := by omega
  have hlt' : k' / 4096 < fs.length := by omega
  unfold physOf at h
  rw [List.getElem?_eq_getElem hlt, List.getElem?_eq_getElem hlt', Option.getD_some, Option.getD_some] at h
  have hframe : fs[k / 4096] = fs[k' / 4096] := by omega
  have hidx := (hn.getElem_inj_iff).mp hframe
  omega

theorem physOf_ne {k k' : Nat} (hk : k < fs.length * 4096) (hk' : k' < gs.length * 4096) (h : ∀ f ∈ fs, f ∉ gs) :
    physOf fs k ≠ physOf gs k' := by
  intro he
  have hne : fs[k / 4096]?.getD 0 ≠ gs[k' / 4096]?.getD 0 := fun hf => h _ (frame_mem hk) (hf ▸ frame_mem hk')
  unfold physOf at he
  omega

end Block

/-! ## Places and the machine -/

/-- **The machine has what the places say**, behind the frames of `fr`. -/
structure Mirrors (x : Place → Option Nat) (m : TestMem b) (fr : SharedPtr → List Nat) : Prop where
  heap    : Heap m.mm
  block   : ∀ p n, x (.size p) = some n → n = (fr p).length * 4096 ∧ ∃ q, m.ptr p = q * 4096 ∧ Block m.mm q (fr p)
  apart   : ∀ p p', p ≠ p' → x (.size p) ≠ none → x (.size p') ≠ none → ∀ f ∈ fr p, f ∉ fr p'
  content : ∀ p n k c, x (.size p) = some n → k < n → x (.byte p k) = some c → (m.ram (physOf (fr p) k)).toNat = c

section Mirrors
variable {x : Place → Option Nat} {m m' : TestMem b} {fr : SharedPtr → List Nat} {p : SharedPtr} {n k : Nat}

theorem Mirrors.adr (h : Mirrors x m fr) (hn : x (.size p) = some n) (hk : k < n) :
    m.adr p k = some (physOf (fr p) k) := by
  obtain ⟨rfl, q, hq, hb⟩ := h.block p n hn
  rw [TestMem.adr, hq]
  exact hb.translate h.heap hk

/-- **A byte that is written.** -/
theorem Mirrors.poke (h : Mirrors x m fr) {c : BitVec 8} (hn : x (.size p) = some n) (hk : k < n) :
    ∃ m', m.poke p k c = some m' ∧ Mirrors (placesAfter x (.poke p k c)) m' fr := by
  refine ⟨{ m with ram := Function.update m.ram (physOf (fr p) k) c }, by rw [TestMem.poke, h.adr hn hk]; rfl,
    h.heap, ?_, ?_, ?_⟩
  · exact fun p' n' hn' => h.block p' n' hn'
  · exact fun p₁ p₂ hne h₁ h₂ => h.apart p₁ p₂ hne h₁ h₂
  · intro p' n' k' c' hn' hk' hc'
    change x (.size p') = some n' at hn'
    change (if Place.byte p' k' = .byte p k then some c.toNat else x (.byte p' k')) = some c' at hc'
    obtain ⟨hlen, q, -, hb⟩ := h.block p n hn
    obtain ⟨hlen', -⟩ := h.block p' n' hn'
    by_cases hsame : Place.byte p' k' = .byte p k
    · rw [if_pos hsame] at hc'
      injection hsame with hp hkk
      subst hp hkk
      show (Function.update m.ram (physOf (fr p') k') c (physOf (fr p') k')).toNat = c'
      rw [Function.update_self]
      exact Option.some.inj hc'
    · rw [if_neg hsame] at hc'
      have hne : physOf (fr p') k' ≠ physOf (fr p) k := by
        by_cases hp : p' = p
        · subst hp
          refine fun he => hsame ?_
          rw [physOf_inj hb.nodup (hlen' ▸ hk') (hlen ▸ hk) he]
        · exact physOf_ne (hlen' ▸ hk') (hlen ▸ hk)
            (h.apart p' p hp (by rw [hn']; exact Option.some_ne_none n') (by rw [hn]; exact Option.some_ne_none n))
      show (Function.update m.ram (physOf (fr p) k) c (physOf (fr p') k')).toNat = c'
      rw [Function.update_of_ne hne]
      exact h.content p' n' k' c' hn' hk' hc'

/-- Several bytes of a word. -/
theorem Mirrors.pokes {i : Nat} {w : BitVec 32} : ∀ {x : Place → Option Nat} {m : TestMem b} (js : List Nat),
    Mirrors x m fr → x (.size p) = some n → (∀ j ∈ js, 4 * i + j < n) →
    ∃ m', js.foldlM (fun m j => m.poke p (4 * i + j) (byteOf w j)) m = some m' ∧
      Mirrors (js.foldl (fun x j => placesAfter x (.poke p (4 * i + j) (byteOf w j))) x) m' fr
  | _, m, [],      h, _,  _  => ⟨m, rfl, h⟩
  | x, m, j :: js, h, hn, hj => by
    obtain ⟨m₁, hm₁, h₁⟩ := h.poke (c := byteOf w j) hn (hj j List.mem_cons_self)
    obtain ⟨m', hm', h'⟩ := Mirrors.pokes (i := i) (w := w) js h₁ hn fun j' hj' => hj j' (List.mem_cons_of_mem j hj')
    exact ⟨m', by rw [List.foldlM_cons, hm₁]; exact hm', h'⟩

theorem placesAfter_store (x : Place → Option Nat) (p : SharedPtr) (i : Nat) (w : BitVec 32) :
    [0, 1, 2, 3].foldl (fun x j => placesAfter x (.poke p (4 * i + j) (byteOf w j))) x = placesAfter x (.store p i w) := by
  funext a
  cases a with
  | size q => rfl
  | byte q k =>
    simp only [List.foldl_cons, List.foldl_nil, placesAfter, Place.byte.injEq]
    by_cases hq : q = p
    · subst hq
      simp only [true_and]
      by_cases hin : 4 * i ≤ k ∧ k < 4 * i + 4
      · rw [if_pos hin]
        have hk : k = 4 * i + 0 ∨ k = 4 * i + 1 ∨ k = 4 * i + 2 ∨ k = 4 * i + 3 := by omega
        rcases hk with rfl | rfl | rfl | rfl <;> simp
      · rw [if_neg hin, if_neg (by omega), if_neg (by omega), if_neg (by omega), if_neg (by omega)]
    · simp only [hq, false_and, if_false]

/-- **A word that is written.** -/
theorem Mirrors.store (h : Mirrors x m fr) {i : Nat} {w : BitVec 32} (hn : x (.size p) = some n) (hi : 4 * i + 4 ≤ n) :
    ∃ m', m.store p i w = some m' ∧ Mirrors (placesAfter x (.store p i w)) m' fr := by
  obtain ⟨m', hm', h'⟩ := h.pokes (i := i) (w := w) [0, 1, 2, 3] hn fun j hj => by
    have hlt : j < 4 := by
      simp only [List.mem_cons, List.not_mem_nil, or_false] at hj
      omega
    omega
  exact ⟨m', hm', placesAfter_store x p i w ▸ h'⟩

theorem word_bytes (w : BitVec 32) : byteOf w 3 ++ byteOf w 2 ++ byteOf w 1 ++ byteOf w 0 = w := by
  unfold byteOf
  rw [BitVec.extractLsb'_append_extractLsb'_eq_extractLsb' (show 8 * 3 = 8 * 2 + 8 from rfl),
    BitVec.extractLsb'_append_extractLsb'_eq_extractLsb' (show 8 * 2 = 8 * 1 + 8 from rfl),
    BitVec.extractLsb'_append_extractLsb'_eq_extractLsb' (show 8 * 1 = 8 * 0 + 8 from rfl)]
  exact BitVec.extractLsb'_eq_self

/-- **A word that has been written is read.** -/
theorem Mirrors.word (h : Mirrors x m fr) {i : Nat} {w : BitVec 32} (hn : x (.size p) = some n) (hi : 4 * i + 4 ≤ n)
    (hw : ∀ j < 4, x (.byte p (4 * i + j)) = some (byteOf w j).toNat) : m.word p i = some w := by
  have hbyte : ∀ j < 4, m.peek p (4 * i + j) = some (byteOf w j) := fun j hj => by
    rw [TestMem.peek, h.adr hn (by omega), Option.map_some, Option.some_inj]
    exact BitVec.eq_of_toNat_eq (h.content p n _ _ hn (by omega) (hw j hj))
  have h₀ := hbyte 0 (by decide)
  rw [Nat.add_zero] at h₀
  rw [TestMem.word, h₀, hbyte 1 (by decide), hbyte 2 (by decide), hbyte 3 (by decide)]
  exact congrArg some (word_bytes w)

/-- Calls of the heap that give nothing. -/
theorem Mirrors.heapCall (h : Mirrors x m fr) {s : Mm b} (hg : Grew m.mm s []) : Mirrors x { m with mm := s } fr where
  heap    := hg.heap
  block   := fun p n hn => by
    obtain ⟨hlen, q, hq, hb⟩ := h.block p n hn
    exact ⟨hlen, q, hq, hb.grew hg⟩
  apart   := h.apart
  content := h.content

/-- **A block that is allocated.** -/
theorem Mirrors.heapAlloc (h : Mirrors x m fr) {s : Mm b} {gs : List Nat} (hg : Grew m.mm s gs) :
    Mirrors (placesAfter x (.heapAlloc p gs.length))
      { m with mm := s, ptr := Function.update m.ptr p (m.mm.nextVirtPage * 4096) } (Function.update fr p gs) := by
  have hsize : ∀ p', p' ≠ p → placesAfter x (.heapAlloc p gs.length) (.size p') = x (.size p') := fun p' hp => if_neg hp
  -- the frames of the other blocks were in use before
  have hnew : ∀ p', p' ≠ p → x (.size p') ≠ none → ∀ f ∈ fr p', f ∉ gs := by
    intro p' hp hne f hf hfg
    obtain ⟨n', hn'⟩ := Option.ne_none_iff_exists'.mp hne
    obtain ⟨-, q, -, hb⟩ := h.block p' n' hn'
    have hfree := (hg.fresh f hfg).1
    rw [hb.taken f hf] at hfree
    cases hfree
  refine ⟨hg.heap, fun p' n' hn' => ?_, fun p₁ p₂ hne h₁ h₂ => ?_, fun p' n' k' c' hn' hk' hc' => ?_⟩
  · by_cases hp : p' = p
    · subst hp
      rw [show placesAfter x (.heapAlloc p' gs.length) (.size p') = some (gs.length * 4096) from if_pos rfl] at hn'
      rw [Function.update_self]
      exact ⟨(Option.some.inj hn').symm, m.mm.nextVirtPage, Function.update_self _ _ _, .new h.heap hg⟩
    · rw [hsize p' hp] at hn'
      obtain ⟨hlen, q, hq, hb⟩ := h.block p' n' hn'
      rw [Function.update_of_ne hp]
      exact ⟨hlen, q, (Function.update_of_ne hp _ _).trans hq, hb.grew hg⟩
  · by_cases hp₁ : p₁ = p
    · subst hp₁
      rw [hsize p₂ hne.symm] at h₂
      rw [Function.update_self, Function.update_of_ne hne.symm]
      exact fun f hf hf' => hnew p₂ hne.symm h₂ f hf' hf
    · rw [hsize p₁ hp₁] at h₁
      rw [Function.update_of_ne hp₁]
      by_cases hp₂ : p₂ = p
      · subst hp₂
        rw [Function.update_self]
        exact hnew p₁ hp₁ h₁
      · rw [hsize p₂ hp₂] at h₂
        rw [Function.update_of_ne hp₂]
        exact h.apart p₁ p₂ hne h₁ h₂
  · by_cases hp : p' = p
    · subst hp
      rw [show placesAfter x (.heapAlloc p' gs.length) (.byte p' k') = none from if_pos rfl] at hc'
      cases hc'
    · rw [hsize p' hp] at hn'
      rw [Function.update_of_ne hp]
      exact h.content p' n' k' c' hn' hk' ((if_neg hp).symm.trans hc')

/-- **A step of the machine is one of the places.** -/
theorem Mirrors.act (h : Mirrors x m fr) {o : TestOp} (ho : o.Ok x) (ha : m.act o = some m') :
    ∃ fr', Mirrors (placesAfter x o) m' fr' := by
  cases o with
  | heapAlloc p n =>
    simp only [TestMem.act] at ha
    split at ha
    · rename_i s r hr
      cases ha
      obtain ⟨hg, hlen, hres⟩ := (heapAlloc_ends h.heap n 0).ok hr
      rw [hres, ← hlen]
      exact ⟨_, h.heapAlloc hg⟩
    · cases ha
  | virtToPhys p =>
    simp only [TestMem.act] at ha
    split at ha
    · rename_i s r hr
      cases ha
      exact ⟨fr, h.heapCall (h.heap.stays ((virtToPhys_ends h.heap.toTables (m.ptr p)).ok hr))⟩
    · cases ha
  | poke p k c =>
    obtain ⟨n, hn, hk⟩ := ho
    obtain ⟨m₁, hm₁, h₁⟩ := h.poke (c := c) hn hk
    cases hm₁.symm.trans ha
    exact ⟨fr, h₁⟩
  | store p i w =>
    obtain ⟨n, hn, hi⟩ := ho
    obtain ⟨m₁, hm₁, h₁⟩ := h.store (w := w) hn hi
    cases hm₁.symm.trans ha
    exact ⟨fr, h₁⟩
  | print p i w =>
    obtain ⟨-, -, he⟩ := Option.map_eq_some_iff.mp ha
    exact ⟨fr, he ▸ h⟩

end Mirrors

/-! ## The check -/

def TestOp.ptr : TestOp → SharedPtr
  | .heapAlloc p _ => p
  | .virtToPhys p  => p
  | .poke p _ _    => p
  | .store p _ _   => p
  | .print p _ _   => p

-- from here on a `memset` is not run through byte by byte
attribute [irreducible] memset

/-- The places when CPU 0 prints. -/
def filled : Place → Option Nat
  | .size .shared    => some (1 * 4096)
  | .size .shared2   => some (4 * 4096)
  | .size .shared3   => some (2 * 4096)
  | .size .shared4   => some (2 * 4096)
  | .byte .shared k  => if k < 4096 then some 1 else none
  | .byte .shared2 k => if k < 4 * 4096 then some 0x22 else none
  | .byte .shared3 _ => none
  | .byte .shared4 _ => none

/-- The places when CPU 1 goes on behind the first barrier. -/
def allocated : Place → Option Nat :=
  placesAfter (placesAfter (fun _ => none) (.heapAlloc .shared 1)) (.heapAlloc .shared2 4)

section Turns

/-- The places behind the turn in which each CPU writes blocks of its own. -/
def stored : Place → Option Nat := testSem.run filled ((List.finRange 2).flatMap storeTurn)

/-- The places behind the last turn. -/
def final : Place → Option Nat := testSem.run stored ((List.finRange 2).flatMap crossTurn)

end Turns

/-! ## Runs -/

/-- What an operation touches lies in the block that its pointer points to. -/
theorem TestOp.Ok.bytes {x : Place → Option Nat} {o : TestOp} (ho : o.Ok x) {a : SharedPtr × Nat} (ha : a ∈ o.bytes) :
    ∃ n, x (.size a.1) = some n ∧ a.2 < n := by
  have hword : ∀ {p i}, (∃ n, x (.size p) = some n ∧ 4 * i + 4 ≤ n) →
      a ∈ [(p, 4 * i), (p, 4 * i + 1), (p, 4 * i + 2), (p, 4 * i + 3)] → ∃ n, x (.size a.1) = some n ∧ a.2 < n := by
    rintro p i ⟨n, hn, hi⟩ hmem
    simp only [List.mem_cons, List.not_mem_nil, or_false] at hmem
    rcases hmem with rfl | rfl | rfl | rfl <;> exact ⟨n, hn, by omega⟩
  cases o with
  | heapAlloc p n => cases ha
  | virtToPhys p  => cases ha
  | poke p k c =>
    obtain rfl := List.mem_singleton.mp ha
    exact ho
  | store p i w => exact hword ho ha
  | print p i w => exact hword ho.1 ha

/-- How many frames an operation takes at most. -/
def TestOp.frames (b : Build) : TestOp → Nat
  | .heapAlloc _ n => n * (b.depth + 1)
  | .virtToPhys _  => 0
  | .poke _ _ _    => 0
  | .store _ _ _   => 0
  | .print _ _ _   => 0

section Supplied
variable {m m' : TestMem b} {o : TestOp} {n : Nat}

end Supplied

end TestsMm
end SmpBoot
