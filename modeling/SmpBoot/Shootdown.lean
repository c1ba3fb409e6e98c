import SmpBoot.Lib.Tlb
import SmpBoot.Reconf
import SmpBoot.Phased
/-!
# Shootdown — changed page modes between the benchmarks of `payload_benchmark`

CPU 0 changes the modes of the pages of both buffers with `heap_reconfig` and invalidates its own copies on the way.  The
other CPUs may still have old ones.  They wait in a barrier until CPU 0 is done, drop theirs with `tlb_shootdown`, and in
a second barrier all wait for each other, before anybody accesses the buffers again.  So no access is ever made with old
modes (`payload_tlbSafe`), though the processors fill and evict entries whenever they like.  Each buffer page is mapped
by an entry of its own; of what goes on within a benchmark only the accesses are kept, and its synchronisation, which
takes interleavings away, is left out.
-/
namespace SmpBoot

open Interleave

/-! ## The operations -/

/-- What an entry says of the caching of its page. -/
structure Modes where
  pwt : Bool
  pcd : Bool
  deriving DecidableEq

abbrev TlbOp := Tlb.Op Nat Modes

/-- The pages that the loops of `heap_reconfig` and `tlb_shootdown` go through. -/
def loopPages (adr size : Nat) : List Nat :=
  (List.range ((size + (pageSize - 1)) / pageSize)).map (adr / pageSize + ·)

/-- `reconf_adr` at a mapped page. -/
def reconfAdrOps (flags v : Nat) : List TlbOp :=
  [.write v fun m => { m with pwt := flags &&& mapPwt ≠ 0 }, .write v fun m => { m with pcd := flags &&& mapPcd ≠ 0 },
   .invlpg v]

def heapReconfigOps (adr size flags : Nat) : List TlbOp := (loopPages adr size).flatMap (reconfAdrOps (mapFlags flags))

def tlbShootdownOps (adr size : Nat) : List TlbOp := (loopPages adr size).map .invlpg

theorem mem_loopPages {adr size v : Nat} : v ∈ loopPages adr size ↔ Looped adr size v := by
  unfold loopPages Looped
  rw [List.mem_map]
  constructor
  · rintro ⟨k, hk, rfl⟩
    exact ⟨Nat.le_add_right _ _, Nat.add_lt_add_left (List.mem_range.mp hk) _⟩
  · rintro ⟨h₁, h₂⟩
    exact ⟨v - adr / pageSize, List.mem_range.mpr (by omega), by omega⟩

/-! ## The system -/

section System
variable {ι : Type} [DecidableEq ι]

/-- The steps of the CPUs, and those of the hardware, which come at any time. -/
inductive TlbEvent (ι : Type) where
  | cpu (i : ι)
  | fill (i : ι) (v : Nat)
  | evict (i : ι) (v : Nat)

abbrev TlbSystem (ι : Type) := Rounds ι (Tlb.Space ι Nat Modes) (PhaseThread TlbOp)

/-- The code of the CPUs: no operation gets stuck. -/
def tlbPhased : Script ι (Tlb.Space ι Nat Modes) (PhaseThread TlbOp) := phased fun i o m => some (o.act i m)

def TlbSystem.step (s : TlbSystem ι) : TlbEvent ι → Option (TlbSystem ι)
  | .cpu i     => tlbPhased.step s i
  | .fill i v  => some { s with mem := s.mem.fill i v }
  | .evict i v => some { s with mem := s.mem.evict i v }

/-- Each sees the space as its view says. -/
def Viewed (ph : Ops ι TlbOp) (phs : List (Ops ι TlbOp)) (done : Ops ι TlbOp) (m : Tlb.Space ι Nat Modes) : Prop :=
  ∃ T D, Tlb.Safe T D (ph :: phs) ∧ ∀ i, Tlb.Agrees (Tlb.Phase.foreign ph i) i (Tlb.View.run ⟨T, D i⟩ (done i)) m

variable {ph : Ops ι TlbOp} {phs : List (Ops ι TlbOp)} {done : Ops ι TlbOp} {m m' : Tlb.Space ι Nat Modes}

omit [DecidableEq ι] in
theorem Viewed.start (hsafe : Tlb.Safe m.table (fun _ => ∅) (ph :: phs)) (hfresh : ∀ i v, m.seen i v = m.table v) :
    Viewed ph phs (fun _ => []) m :=
  ⟨m.table, fun _ => ∅, hsafe, fun i => ⟨fun v => .refl _ (m.table v), fun v _ _ => hfresh i v⟩⟩

omit [DecidableEq ι] in
/-- The operation that comes next may be done. -/
theorem Viewed.ok (h : Viewed ph phs done m) {i : ι} {o : TlbOp} {os : List TlbOp} (hph : ph i = done i ++ o :: os) :
    ∃ x : Tlb.View Nat Modes, Tlb.Agrees (Tlb.Phase.foreign ph i) i x m ∧ o.Ok (Tlb.Phase.foreign ph i) x := by
  obtain ⟨T, D, hsafe, hag⟩ := h
  have hok := hsafe.ok i
  rw [hph, Tlb.View.allOk_append] at hok
  exact ⟨_, hag i, hok.2.1⟩

variable [Fintype ι] [Nonempty ι] {s s' s₀ : TlbSystem ι} {E : Nat}

end System

/-- The modes that the `MAP_*` flags ask for. -/
def modesOf (flags : Nat) : Modes := ⟨flags &&& mapPwt ≠ 0, flags &&& mapPcd ≠ 0⟩

section Calls
variable {x : Tlb.View Nat Modes} {flags v : Nat} {vs : List Nat}

theorem run_reconfAdrOps (x : Tlb.View Nat Modes) (flags v : Nat) :
    (x.run (reconfAdrOps flags v)).table = Function.update x.table v (modesOf flags) ∧
    (x.run (reconfAdrOps flags v)).stale ⊆ x.stale := by
  refine ⟨?_, ?_⟩
  · funext w
    simp only [reconfAdrOps, Tlb.View.run_cons, Tlb.View.run_nil, Tlb.View.after]
    by_cases hw : w = v
    · subst hw
      simp [modesOf]
    · simp [hw]
  · rintro w ⟨h, hne⟩
    simp only [Tlb.View.after, Set.mem_insert_iff, Set.mem_singleton_iff] at h hne
    exact (h.resolve_left hne).resolve_left hne

/-- **After `heap_reconfig`**: the pages it has gone through have the modes, and it leaves no old copy behind. -/
theorem run_reconf (flags : Nat) : ∀ (vs : List Nat) (x : Tlb.View Nat Modes),
    (x.run (vs.flatMap (reconfAdrOps flags))).table = (fun v => if v ∈ vs then modesOf flags else x.table v) ∧
    (x.run (vs.flatMap (reconfAdrOps flags))).stale ⊆ x.stale
  | [],      x => ⟨by simp, fun _ h => h⟩
  | v :: vs, x => by
    obtain ⟨ht, hst⟩ := run_reconfAdrOps x flags v
    obtain ⟨ht', hst'⟩ := run_reconf flags vs (x.run (reconfAdrOps flags v))
    rw [List.flatMap_cons, Tlb.View.run_append]
    refine ⟨?_, hst'.trans hst⟩
    rw [ht', ht]
    funext w
    by_cases hw : w = v
    · simp [hw]
    · simp [hw]

end Calls

/-! ## The calls of the memory manager -/

section Mm
variable {b : Build} {s s' : Mm b} {adr size flags : Nat}

def Entry.modes (e : Entry) : Modes := ⟨e.pwt, e.pcd⟩

/-- `T` says of each mapped page which modes its entry has; heap pages lie below 4 GB, and the window is none. -/
def Mm.Shows (s : Mm b) (T : Nat → Modes) : Prop := ∀ v, v < 2 ^ 20 → v ≠ tmpPage → ∀ t i, s.slotOf v = some (t, i) →
  T v = (s.mem t i).modes

/-- The entry at which the processor's walk ends is the one of the page's place in the tree. -/
theorem Tables.slotFrom_eq (h : Tables s) (adr : Nat) : ∀ (k : Nat) (π : List Nat) (t : Nat), π.length + k = b.depth →
    s.tableAt π = some t → s.slotFrom adr k t = (s.tableAt (π ++ dirs b adr k)).bind fun t =>
      if (s.mem t (ptIndex b adr)).p = true then some (t, ptIndex b adr) else none
  | 0, π, t, _, ht => by
    simp only [dirs, List.append_nil, ht, Option.bind_some, Mm.slotFrom]
    rfl
  | k + 1, π, t, hk, ht => by
    have hi := levelIndex_lt b (k + 1) adr
    have hπ : π.length < b.depth := by omega
    have hat := h.child_eq hπ ht hi
    have hps := h.noHuge π t _ hπ ht hi
    simp only [Mm.slotFrom, dirs, hps, Bool.false_eq_true, if_false]
    rw [List.append_cons]
    cases hp : (s.mem t (levelIndex b (k + 1) adr)).p with
    | true =>
      rw [hp] at hat
      exact h.slotFrom_eq adr k _ _ (by simp; omega) hat
    | false =>
      rw [hp] at hat
      have hnone : s.tableAt (π ++ [levelIndex b (k + 1) adr] ++ dirs b adr k) = none :=
        Radix.walk_none_of_prefix hat _
      rw [hnone]
      rfl

theorem Tables.slotOf_iff (h : Tables s) {v t i : Nat} (hv : v < 2 ^ 20) : s.slotOf v = some (t, i) ↔
    s.tableAt (slot b v).1 = some t ∧ (slot b v).2 = i ∧ (s.mem t i).p = true := by
  have hps : pageSize = 4096 := rfl
  have hslot := h.slotFrom_eq (v * pageSize) b.depth [] s.pd1 (by simp) rfl
  rw [List.nil_append, dirs_depth] at hslot
  have hdiv := slot_div (b := b) (x := v * pageSize) (by rw [hps]; omega)
  rw [Nat.mul_div_cancel v (by decide)] at hdiv
  rw [Mm.slotOf, hslot, hdiv, Option.bind_eq_some_iff]
  constructor
  · rintro ⟨t', ht, hp⟩
    split at hp
    · rename_i hpr
      cases hp
      exact ⟨ht, rfl, hpr⟩
    · cases hp
  · rintro ⟨ht, rfl, hp⟩
    exact ⟨t, ht, if_pos hp⟩

/-- **Different pages have different entries.** -/
theorem Tables.slotOf_inj (h : Tables s) {u v : Nat} {x : Nat × Nat} (hu : u < 2 ^ 20) (hv : v < 2 ^ 20)
    (h₁ : s.slotOf u = some x) (h₂ : s.slotOf v = some x) : u = v := by
  obtain ⟨ht₁, hi₁, -⟩ := (h.slotOf_iff hu).mp h₁
  obtain ⟨ht₂, hi₂, -⟩ := (h.slotOf_iff hv).mp h₂
  have hpath := h.tree _ _ _ (Nat.le_of_eq (length_slot b u)) (Nat.le_of_eq (length_slot b v)) ht₁ ht₂
  exact slot_inj hu hv (Prod.ext hpath (hi₁.trans hi₂.symm))

theorem Tables.slotOf_ne_window (h : Tables s) {v : Nat} {x : Nat × Nat} (hv : v < 2 ^ 20) (hw : v ≠ tmpPage)
    (hx : s.slotOf v = some x) : x ≠ (b.mapTable, tmpPage) := by
  rintro rfl
  obtain ⟨ht, hi, -⟩ := (h.slotOf_iff hv).mp hx
  have hpath := h.tree _ _ _ (Nat.le_of_eq (length_slot b v)) (Nat.le_of_eq (length_winPath b)) ht h.win
  exact slot_ne_window hv hw (Prod.ext hpath hi)

/-- Other modes are no other entry for the walk. -/
theorem Upto.tableAt {S : Nat × Nat → Prop} (h : Tables s) (hu : Upto s flags S s') (π : List Nat)
    (hπ : π.length ≤ b.depth) : s'.tableAt π = s.tableAt π := by
  unfold Mm.tableAt
  rw [hu.pd1]
  refine Radix.walk_congr (fun ρ t hρ ht i => ?_) π hπ
  have hne : (t, i) ≠ (b.mapTable, tmpPage) := fun he =>
    h.ne_of_depth (length_winPath b) h.win hρ ht (Prod.mk.inj he).1
  unfold Mm.child
  by_cases hS : S (t, i)
  · rw [hu.set t i hne hS]
    rfl
  · rw [hu.keeps t i hne hS]

/-- The walk ends where it ended before. -/
theorem Upto.slotOf {S : Nat × Nat → Prop} (h : Tables s) (h' : Tables s') (hu : Upto s flags S s') {v : Nat}
    (hv : v < 2 ^ 20) (hw : v ≠ tmpPage) {x : Nat × Nat} (hx : s'.slotOf v = some x) : s.slotOf v = some x := by
  have hne := h'.slotOf_ne_window hv hw hx
  obtain ⟨t, i⟩ := x
  obtain ⟨ht, hi, hp⟩ := (h'.slotOf_iff hv).mp hx
  rw [hu.tableAt h _ (Nat.le_of_eq (length_slot b v))] at ht
  refine (h.slotOf_iff hv).mpr ⟨ht, hi, ?_⟩
  by_cases hS : S (t, i)
  · rw [hu.set t i hne hS] at hp
    exact hp
  · rwa [hu.keeps t i hne hS] at hp

theorem setModes_modes (flags : Nat) (e : Entry) : (setModes flags e).modes = modesOf flags := rfl

theorem looped_lt {v : Nat} (hbelow : adr + size + 4095 < 2 ^ 32) (h : Looped adr size v) : v < 2 ^ 20 := by
  have hps : pageSize = 4096 := rfl
  unfold Looped at h
  rw [hps] at h
  omega

/-- The copies that `tlb_shootdown` leaves. -/
theorem act_invlpgs {ι : Type} [DecidableEq ι] (i : ι) (w : Nat) : ∀ (vs : List Nat) (m : Tlb.Space ι Nat Modes),
    ((vs.map .invlpg).foldl (Tlb.Op.act i) m).tlb i w = if w ∈ vs then none else m.tlb i w
  | [],      m => by simp
  | v :: vs, m => by
    rw [List.map_cons, List.foldl_cons, act_invlpgs i w vs]
    show (if w ∈ vs then none else (m.evict i v).tlb i w) = _
    by_cases hw : w = v
    · subst hw
      simp [Tlb.Space.evict]
    · rw [Tlb.Space.evict, Tlb.Space.hold_other _ (.inr hw)]
      simp [hw]

/-- **The operations are those of the memory manager**: where they are made on what the entries say, the entries say
the same after `heap_reconfig`; and `tlb_shootdown` drops the same copies. -/
theorem reconf_refines (h : Tables s) (hf : FieldsFit s) (hbelow : adr + size + 4095 < 2 ^ 32) (flags : Nat)
    {T : Nat → Modes} (hT : s.Shows T) {ι : Type} [DecidableEq ι] (i : ι) (m : Tlb.Space ι Nat Modes) :
    (∃ s', (heapReconfig adr size flags).run s = (s', .ok ()) ∧ Tables s' ∧
      s'.Shows (Tlb.View.run ⟨T, ∅⟩ (heapReconfigOps adr size flags)).table) ∧
    ∃ t', (tlbShootdown b adr size).run (fun v => (m.tlb i v).isSome) = (t', .ok ()) ∧
      ∀ v, t' v = (((tlbShootdownOps adr size).foldl (Tlb.Op.act i) m).tlb i v).isSome := by
  have hwrap : adr + size + 4095 < 2 ^ b.longBits := by
    cases b <;> simp only [Build.longBits] <;> omega
  constructor
  · obtain ⟨s', hrun, hu⟩ := run_heapReconfig hf hwrap flags
    have h' : Tables s' := ((heapReconfig_ends h adr size flags).ok hrun).1
    refine ⟨s', hrun, h', fun v hv hw t j hx => ?_⟩
    have hne := h'.slotOf_ne_window hv hw hx
    have hold := hu.slotOf h h' hv hw hx
    rw [heapReconfigOps, (run_reconf _ _ _).1]
    have hloop : (t, j) ∈ s.loopSlots adr size ↔ v ∈ loopPages adr size := by
      rw [mem_loopSlots hne fun u _ => h.plainFrom _ b.depth [] s.pd1 (by simp) rfl, mem_loopPages]
      constructor
      · rintro ⟨u, hlu, hs⟩
        have huv : u = v := h.slotOf_inj (looped_lt hbelow hlu) hv hs hold
        exact huv ▸ hlu
      · exact fun hl => ⟨v, hl, hold⟩
    by_cases hl : v ∈ loopPages adr size
    · rw [hu.set t j hne (hloop.mpr hl), setModes_modes]
      exact if_pos hl
    · rw [hu.keeps t j hne fun hin => hl (hloop.mp hin)]
      exact (if_neg hl).trans (hT v hv hw t j hold)
  · obtain ⟨t', hrun, ht⟩ := run_tlbShootdown hwrap fun v => (m.tlb i v).isSome
    refine ⟨t', hrun, fun v => ?_⟩
    rw [tlbShootdownOps, act_invlpgs]
    by_cases hl : v ∈ loopPages adr size
    · rw [if_pos hl, (ht v).1 (mem_loopPages.mp hl)]
      rfl
    · rw [if_neg hl, (ht v).2 fun hh => hl (mem_loopPages.mpr hh)]

theorem lowPages_tables : Tables lowPages :=
  ((initTables_booted (E := fun _ => True) (b := .b32) (fun _ _ => .zero) fun _ => 0).ok
    (run_initTables32 (fun _ _ => .zero) fun _ => 0)).tables

/-- Two pages of the 32-bit build's low memory, of which CPU 1 holds a copy of the first. -/
theorem reconf_refines_low :
    (∃ s', (heapReconfig 0x3000 0x2000 mmCacheDisable).run lowPages = (s', .ok ()) ∧ Tables s' ∧
      s'.Shows (Tlb.View.run ⟨fun _ => ⟨false, false⟩, ∅⟩ (heapReconfigOps 0x3000 0x2000 mmCacheDisable)).table) ∧
    ∃ t', (tlbShootdown .b32 0x3000 0x2000).run (fun v => (if v = 3 then some (⟨false, false⟩ : Modes) else none).isSome) =
        (t', .ok ()) ∧ t' 3 = false := by
  have hshows : lowPages.Shows fun _ => ⟨false, false⟩ := by
    intro v _ _ t i _
    change _ = (tables32 (fun _ _ => .zero) t i).modes
    unfold tables32
    repeat' split
    all_goals rfl
  obtain ⟨hr, t', ht, hv⟩ := reconf_refines lowPages_tables lowPages_fits
    (show 0x3000 + 0x2000 + 4095 < 2 ^ 32 by decide) mmCacheDisable hshows (1 : Fin 2)
      ⟨fun _ => ⟨false, false⟩, fun _ v => if v = 3 then some ⟨false, false⟩ else none⟩
  exact ⟨hr, t', ht, hv 3⟩

end Mm

/-! ## `payload_benchmark` -/

structure Buffers where
  buffer        : Nat
  bufferSize    : Nat
  contender     : Nat
  contenderSize : Nat

/-- The pages that each CPU accesses in a benchmark, in order. -/
abbrev Accesses (n : Nat) := Fin (n + 1) → List Nat

/-- The two calls of `heap_reconfig`, and the benchmarks behind them. -/
structure ReconfRound (n : Nat) where
  bufferFlags    : Nat
  contenderFlags : Nat
  benches        : List (Accesses n)

section Payload
variable {n : Nat}

/-- The modes that the round asks for. -/
def ReconfRound.wanted (bs : Buffers) (r : ReconfRound n) (v : Nat) : Option Modes :=
  if v ∈ loopPages bs.contender bs.contenderSize then some (modesOf (mapFlags r.contenderFlags))
  else if v ∈ loopPages bs.buffer bs.bufferSize then some (modesOf (mapFlags r.bufferFlags))
  else none

def reconfPhase (bs : Buffers) (r : ReconfRound n) : Tlb.Phase (Fin (n + 1)) Nat Modes := fun i =>
  if i.val = 0 then
    heapReconfigOps bs.buffer bs.bufferSize r.bufferFlags ++
      heapReconfigOps bs.contender bs.contenderSize r.contenderFlags
  else []

def shootdownPhase (bs : Buffers) : Tlb.Phase (Fin (n + 1)) Nat Modes := fun i =>
  if i.val = 0 then [] else tlbShootdownOps bs.buffer bs.bufferSize ++ tlbShootdownOps bs.contender bs.contenderSize

/-- A benchmark: the accesses of pages that somebody has asked modes for. -/
def benchPhase (wanted : Nat → Option Modes) (accesses : Accesses n) : Tlb.Phase (Fin (n + 1)) Nat Modes := fun i =>
  (accesses i).filterMap fun v => (wanted v).map (.access v)

def ReconfRound.phases (bs : Buffers) (r : ReconfRound n) : List (Tlb.Phase (Fin (n + 1)) Nat Modes) :=
  reconfPhase bs r :: shootdownPhase bs :: r.benches.map (benchPhase (r.wanted bs))

variable {T : Nat → Modes} {bs : Buffers} {phs : List (Tlb.Phase (Fin (n + 1)) Nat Modes)}

/-- The pages of both buffers, of which the others may have old copies when CPU 0 is done. -/
def Buffers.pages (bs : Buffers) : List Nat :=
  loopPages bs.buffer bs.bufferSize ++ loopPages bs.contender bs.contenderSize

/-- The pages of which each CPU may have old copies when CPU 0 is done. -/
def Buffers.stale (bs : Buffers) (i : Fin (n + 1)) : Set Nat := if i.val = 0 then ∅ else {v | v ∈ bs.pages}

end Payload
end SmpBoot
