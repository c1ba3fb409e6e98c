import Mathlib.Data.Set.Insert
import Mathlib.Logic.Function.Basic
import Mathlib.Logic.Relation
/-!
# A page table that processors cache

Each processor `i` may hold an own copy of the entry of a page, and takes or drops one whenever it likes.  So what it
sees of a page (`Space.seen`) need not be what stands in the table, until it invalidates its copy.  `View` follows one
processor through its code and says of which pages its copy may be old.  Meanwhile others may change entries too: `Agrees`
ties the view to the real space up to their changes, and what these leave alone (`Fixed`) is known.  `Safe` is the check
of a whole program of phases: entries that nobody writes (`Safe.quiet`), that one processor writes (`Safe.alone`), or to
which all make the same changes at the same time (`Safe.together`).
-/
namespace Tlb

variable {ι π μ : Type}

/-- `μ` is what an entry says of a page. -/
structure Space (ι π μ : Type) where
  table : π → μ
  tlb   : ι → π → Option μ

inductive Op (π μ : Type) where
  | write (v : π) (f : μ → μ)
  | invlpg (v : π)
  /-- An access that is meant to find `m`. -/
  | access (v : π) (m : μ)

/-- What processor `i` finds when it accesses the page. -/
def Space.seen (s : Space ι π μ) (i : ι) (v : π) : μ := (s.tlb i v).getD (s.table v)

section Space
variable [DecidableEq ι] [DecidableEq π]

def Space.hold (s : Space ι π μ) (i : ι) (v : π) (c : Option μ) : Space ι π μ :=
  { s with tlb := Function.update s.tlb i (Function.update (s.tlb i) v c) }

def Space.fill (s : Space ι π μ) (i : ι) (v : π) : Space ι π μ := s.hold i v (some (s.seen i v))

def Space.evict (s : Space ι π μ) (i : ι) (v : π) : Space ι π μ := s.hold i v none

def Space.write (s : Space ι π μ) (v : π) (f : μ → μ) : Space ι π μ :=
  { s with table := Function.update s.table v (f (s.table v)) }

/-- What an operation of processor `i` does. -/
def Op.act (i : ι) (s : Space ι π μ) : Op π μ → Space ι π μ
  | .write v f  => s.write v f
  | .invlpg v   => s.evict i v
  | .access v _ => s.fill i v

variable {s : Space ι π μ} {i j : ι} {v w : π}

theorem Space.hold_other (c : Option μ) (h : j ≠ i ∨ w ≠ v) : (s.hold i v c).tlb j w = s.tlb j w := by
  show Function.update s.tlb i (Function.update (s.tlb i) v c) j w = s.tlb j w
  by_cases hj : j = i
  · subst hj
    rw [Function.update_self, Function.update_of_ne (h.resolve_left fun hn => hn rfl)]
  · rw [Function.update_of_ne hj]

@[simp] theorem Space.hold_self (c : Option μ) : (s.hold i v c).tlb i v = c := by simp [Space.hold]

/-- **A copy that is taken changes nothing** that anyone sees. -/
theorem Space.seen_fill : (s.fill i v).seen j w = s.seen j w := by
  by_cases h : j ≠ i ∨ w ≠ v
  · unfold Space.seen Space.fill
    rw [Space.hold_other _ h]
    rfl
  · rw [not_or, not_not, not_not] at h
    obtain ⟨rfl, rfl⟩ := h
    unfold Space.fill
    rw [Space.seen, Space.hold_self]
    rfl

theorem Space.seen_evict_self : (s.evict i v).seen i v = s.table v := by
  rw [Space.seen, Space.evict, Space.hold_self]
  rfl

theorem Space.seen_evict_other (h : j ≠ i ∨ w ≠ v) : (s.evict i v).seen j w = s.seen j w := by
  unfold Space.seen Space.evict
  rw [Space.hold_other _ h]
  rfl

/-- What was new before an eviction is new after it. -/
theorem Space.seen_evict (h : s.seen j w = s.table w) : (s.evict i v).seen j w = s.table w := by
  by_cases hn : j ≠ i ∨ w ≠ v
  · rw [Space.seen_evict_other hn, h]
  · rw [not_or, not_not, not_not] at hn
    obtain ⟨rfl, rfl⟩ := hn
    exact Space.seen_evict_self

omit [DecidableEq ι] in
theorem Space.write_table (f : μ → μ) (h : w ≠ v) : (s.write v f).table w = s.table w := Function.update_of_ne h _ _

omit [DecidableEq ι] in
theorem Space.seen_write (f : μ → μ) (h : w ≠ v) : (s.write v f).seen j w = s.seen j w := by
  rw [Space.seen, Space.write_table f h]
  rfl

end Space

/-! ## What others change -/

/-- A value that the changes leave alone. -/
def Fixed (fs : Set (μ → μ)) (m : μ) : Prop := ∀ f ∈ fs, f m = m

/-- The second value is the first after some of the changes. -/
def Changed (fs : Set (μ → μ)) : μ → μ → Prop := Relation.ReflTransGen fun m m' => ∃ f ∈ fs, m' = f m

section Changed
variable {fs : Set (μ → μ)} {f : μ → μ} {m m' : μ}

theorem Changed.refl (fs : Set (μ → μ)) (m : μ) : Changed fs m m := Relation.ReflTransGen.refl

theorem Changed.next (h : Changed fs m m') (hf : f ∈ fs) : Changed fs m (f m') := Relation.ReflTransGen.tail h ⟨f, hf, rfl⟩

theorem Changed.eq (h : Changed fs m m') (hm : Fixed fs m) : m' = m := by
  induction h with
  | refl => rfl
  | tail _ hstep ih =>
    obtain ⟨f, hf, rfl⟩ := hstep
    rw [ih, hm f hf]

/-- A change that commutes with the others may come first. -/
theorem Changed.map (h : Changed fs m m') (hf : ∀ g ∈ fs, ∀ m, f (g m) = g (f m)) : Changed fs (f m) (f m') := by
  induction h with
  | refl => exact .refl fs (f m)
  | tail _ hstep ih =>
    obtain ⟨g, hg, rfl⟩ := hstep
    rw [hf g hg]
    exact ih.next hg

end Changed

/-! ## One processor in one phase -/

/-- What a processor knows: the table, up to the changes of others, and the pages of which its copy may be old. -/
structure View (π μ : Type) where
  table : π → μ
  stale : Set π

section View
variable [DecidableEq π]

def View.after (x : View π μ) : Op π μ → View π μ
  | .write v f  => ⟨Function.update x.table v (f (x.table v)), insert v x.stale⟩
  | .invlpg v   => ⟨x.table, x.stale \ {v}⟩
  | .access _ _ => x

def View.run (x : View π μ) (os : List (Op π μ)) : View π μ := os.foldl View.after x

@[simp] theorem View.run_nil (x : View π μ) : x.run [] = x := rfl
@[simp] theorem View.run_cons (x : View π μ) (o : Op π μ) (os : List (Op π μ)) : x.run (o :: os) = (x.after o).run os :=
  rfl

theorem View.run_append (x : View π μ) (os ps : List (Op π μ)) : x.run (os ++ ps) = (x.run os).run ps :=
  List.foldl_append

/-- May the operation be done while others make the changes `G`? -/
def Op.Ok (G : π → Set (μ → μ)) (x : View π μ) : Op π μ → Prop
  | .write v f  => ∀ g ∈ G v, ∀ m, f (g m) = g (f m)
  | .invlpg _   => True
  | .access v m => Fixed (G v) (x.table v) ∧ v ∉ x.stale ∧ x.table v = m

def View.AllOk (G : π → Set (μ → μ)) : View π μ → List (Op π μ) → Prop
  | _, []      => True
  | x, o :: os => o.Ok G x ∧ View.AllOk G (x.after o) os

theorem View.allOk_append {G : π → Set (μ → μ)} : ∀ (os : List (Op π μ)) {x : View π μ} {ps : List (Op π μ)},
    x.AllOk G (os ++ ps) ↔ x.AllOk G os ∧ (x.run os).AllOk G ps
  | [],      x, ps => by simp [View.AllOk]
  | o :: os, x, ps => by
    rw [List.cons_append, View.AllOk, View.AllOk, View.run_cons, View.allOk_append os, and_assoc]

/-- A view of the space as processor `i` has it. -/
structure Agrees (G : π → Set (μ → μ)) (i : ι) (x : View π μ) (s : Space ι π μ) : Prop where
  table : ∀ v, Changed (G v) (x.table v) (s.table v)
  seen  : ∀ v, Fixed (G v) (x.table v) → v ∉ x.stale → s.seen i v = s.table v

variable {G : π → Set (μ → μ)} {i : ι} {x : View π μ} {s : Space ι π μ} [DecidableEq ι]

omit [DecidableEq π] [DecidableEq ι] in
/-- **An access of a page that is known and not stale finds what the table says.** -/
theorem Agrees.found (h : Agrees G i x s) {v : π} {m : μ} (ho : (Op.access v m).Ok G x) :
    s.seen i v = m ∧ s.table v = m := by
  obtain ⟨hG, hst, hm⟩ := ho
  have ht := ((h.table v).eq hG).trans hm
  exact ⟨(h.seen v hG hst).trans ht, ht⟩

theorem Agrees.fill (h : Agrees G i x s) (j : ι) (w : π) : Agrees G i x (s.fill j w) :=
  ⟨h.table, fun v hG hst => Space.seen_fill.trans (h.seen v hG hst)⟩

theorem Agrees.evict (h : Agrees G i x s) (j : ι) (w : π) : Agrees G i x (s.evict j w) :=
  ⟨h.table, fun v hG hst => Space.seen_evict (h.seen v hG hst)⟩

/-- **A step of its own.** -/
theorem Agrees.own (h : Agrees G i x s) {o : Op π μ} (ho : o.Ok G x) : Agrees G i (x.after o) (o.act i s) := by
  cases o with
  | access v m => exact h.fill i v
  | invlpg v =>
    refine ⟨h.table, fun w hG hst => ?_⟩
    by_cases hw : w = v
    · subst hw
      exact Space.seen_evict_self
    · exact Space.seen_evict (h.seen w hG fun hin => hst ⟨hin, hw⟩)
  | write v f =>
    refine ⟨fun w => ?_, fun w hG hst => ?_⟩
    · show Changed (G w) (Function.update x.table v (f (x.table v)) w) (Function.update s.table v (f (s.table v)) w)
      by_cases hw : w = v
      · subst hw
        rw [Function.update_self, Function.update_self]
        exact (h.table w).map ho
      · rw [Function.update_of_ne hw, Function.update_of_ne hw]
        exact h.table w
    · have hw : w ≠ v := fun hw => hst (hw ▸ Set.mem_insert v x.stale)
      have hst' : w ∉ x.stale := fun hin => hst (Set.mem_insert_of_mem v hin)
      have hG' : Fixed (G w) (Function.update x.table v (f (x.table v)) w) := hG
      rw [Function.update_of_ne hw] at hG'
      exact (Space.seen_write f hw).trans ((h.seen w hG' hst').trans (Space.write_table f hw).symm)

/-- **A step of another processor**, which makes one of the changes. -/
theorem Agrees.other (h : Agrees G i x s) (j : ι) {o : Op π μ} (ho : ∀ v f, o = .write v f → f ∈ G v) :
    Agrees G i x (o.act j s) := by
  cases o with
  | access v m => exact h.fill j v
  | invlpg v   => exact h.evict j v
  | write v f =>
    have hf := ho v f rfl
    refine ⟨fun w => ?_, fun w hG hst => ?_⟩
    · by_cases hw : w = v
      · subst hw
        show Changed (G w) (x.table w) (Function.update s.table w (f (s.table w)) w)
        rw [Function.update_self]
        exact (h.table w).next hf
      · rw [show (Op.act j s (.write v f)).table w = s.table w from Space.write_table f hw]
        exact h.table w
    · have hsame : (s.write v f).table w = s.table w := by
        by_cases hw : w = v
        · -- what is known is left alone
          subst hw
          show Function.update s.table w (f (s.table w)) w = s.table w
          rw [Function.update_self, (h.table w).eq hG]
          exact hG f hf
        · exact Space.write_table f hw
      have hseen : (s.write v f).seen i w = (s.tlb i w).getD (s.table w) := by
        rw [Space.seen, hsame]
        rfl
      exact hseen.trans ((h.seen w hG hst).trans hsame.symm)

end View

/-! ## Programs of phases -/

/-- What each processor does between two meetings of all. -/
abbrev Phase (ι π μ : Type) := ι → List (Op π μ)

/-- The changes that others than `i` make. -/
def Phase.foreign (ph : Phase ι π μ) (i : ι) (v : π) : Set (μ → μ) := {f | ∃ j, j ≠ i ∧ .write v f ∈ ph j}

section Safe
variable [DecidableEq π]

/-- What processor `i` knows at the end of the phase, of the pages that it knows something of. -/
def Phase.final (ph : Phase ι π μ) (T : π → μ) (D : ι → Set π) (i : ι) : View π μ := View.run ⟨T, D i⟩ (ph i)

/-- At the end of the phase `i` knows what the table says of the page. -/
def Phase.Knows (ph : Phase ι π μ) (T : π → μ) (D : ι → Set π) (i : ι) (v : π) : Prop :=
  Fixed (ph.foreign i v) ((ph.final T D i).table v)

/-- **The check of a program.**  `T` is the table where the phases begin, and the copies that processor `i` has of the
pages in `D i` may be old. -/
inductive Safe : (π → μ) → (ι → Set π) → List (Phase ι π μ) → Prop
  | done {T D} : Safe T D []
  | phase {T D ph T' D' phs} (ok : ∀ i, View.AllOk (ph.foreign i) ⟨T, D i⟩ (ph i))
      (knows : ∀ v, ∃ i, ph.Knows T D i v)
      (table : ∀ i v, ph.Knows T D i v → (ph.final T D i).table v = T' v)
      (stale : ∀ i v, v ∉ D' i → ph.Knows T D i v ∧ v ∉ (ph.final T D i).stale)
      (rest : Safe T' D' phs) : Safe T D (ph :: phs)

theorem Safe.ok {T : π → μ} {D : ι → Set π} {ph : Phase ι π μ} {phs : List (Phase ι π μ)} (h : Safe T D (ph :: phs))
    (i : ι) : View.AllOk (ph.foreign i) ⟨T, D i⟩ (ph i) := by
  cases h with
  | phase ok => exact ok i

/-- **The next phase begins as the check says.** -/
theorem Agrees.next {s : Space ι π μ} {ph : Phase ι π μ} {T T' : π → μ} {D D' : ι → Set π}
    (knows : ∀ v, ∃ i, ph.Knows T D i v)
    (table : ∀ i v, ph.Knows T D i v → (ph.final T D i).table v = T' v)
    (stale : ∀ i v, v ∉ D' i → ph.Knows T D i v ∧ v ∉ (ph.final T D i).stale)
    (h : ∀ i, Agrees (ph.foreign i) i (ph.final T D i) s) (G : π → Set (μ → μ)) (i : ι) :
    Agrees G i ⟨T', D' i⟩ s := by
  refine ⟨fun v => ?_, fun v _ hst => ?_⟩
  · obtain ⟨j, hj⟩ := knows v
    rw [((h j).table v).eq hj, table j v hj]
    exact .refl _ _
  · obtain ⟨hG, hst'⟩ := stale i v hst
    exact (h i).seen v hG hst'

/-! ### Phases of three kinds -/

/-- Operations that leave what the table says of a page. -/
theorem View.run_table {v : π} : ∀ {os : List (Op π μ)} {x : View π μ}, (∀ f, .write v f ∈ os → f (x.table v) = x.table v) →
    (x.run os).table v = x.table v
  | [],      x, _ => rfl
  | o :: os, x, h => by
    have ho : (x.after o).table v = x.table v := by
      cases o with
      | write w f =>
        by_cases hw : v = w
        · subst hw
          exact (Function.update_self v _ _).trans (h f List.mem_cons_self)
        · exact Function.update_of_ne hw _ _
      | invlpg w   => rfl
      | access w m => rfl
    rw [View.run_cons, View.run_table, ho]
    intro f hf
    rw [ho]
    exact h f (List.mem_cons_of_mem o hf)

omit [DecidableEq π] in
/-- Where nobody else writes all is known. -/
theorem fixed_of_empty {ph : Phase ι π μ} {i : ι} {v : π} (h : ph.foreign i v = ∅) (m : μ) : Fixed (ph.foreign i v) m := by
  rw [h]
  exact fun _ hf => absurd hf (Set.notMem_empty _)

/-- **A phase in which nobody writes.** -/
theorem Safe.quiet [Nonempty ι] {T : π → μ} {D D' : ι → Set π} {ph : Phase ι π μ} {phs : List (Phase ι π μ)}
    (hq : ∀ i v f, .write v f ∉ ph i) (ok : ∀ i, View.AllOk (fun _ => ∅) ⟨T, D i⟩ (ph i))
    (stale : ∀ i, (View.run ⟨T, D i⟩ (ph i)).stale ⊆ D' i) (rest : Safe T D' phs) : Safe T D (ph :: phs) := by
  have hG : ∀ i v, ph.foreign i v = ∅ := fun i v =>
    Set.eq_empty_of_forall_notMem fun f ⟨j, _, hf⟩ => hq j v f hf
  have hknows : ∀ i v, ph.Knows T D i v := fun i v => fixed_of_empty (hG i v) _
  refine .phase (fun i => ?_) (fun v => ?_) (fun i v _ => View.run_table fun f hf => absurd hf (hq i v f))
    (fun i v hv => ?_) rest
  · rw [show ph.foreign i = fun _ => ∅ from funext (hG i)]
    exact ok i
  · obtain ⟨i⟩ := ‹Nonempty ι›
    exact ⟨i, hknows i v⟩
  · exact ⟨hknows i v, fun hst => hv (stale i hst)⟩

/-- **A phase in which `w` works alone.** -/
theorem Safe.alone {T : π → μ} {D D' : ι → Set π} {ph : Phase ι π μ} {phs : List (Phase ι π μ)} {w : ι}
    (ha : ∀ i, i ≠ w → ph i = []) (ok : View.AllOk (fun _ => ∅) ⟨T, D w⟩ (ph w))
    (own : (View.run ⟨T, D w⟩ (ph w)).stale ⊆ D' w)
    (others : ∀ i, i ≠ w → D i ⊆ D' i ∧ ∀ v f, .write v f ∈ ph w → v ∈ D' i)
    (rest : Safe (View.run ⟨T, D w⟩ (ph w)).table D' phs) : Safe T D (ph :: phs) := by
  have hG : ∀ v, ph.foreign w v = ∅ := fun v => Set.eq_empty_of_forall_notMem fun f ⟨j, hj, hf⟩ => by
    rw [ha j hj] at hf
    cases hf
  have hknows : ∀ v, ph.Knows T D w v := fun v => fixed_of_empty (hG v) _
  -- the others know the pages that `w` does not write
  have hfree : ∀ i v, i ≠ w → (∀ f, .write v f ∉ ph w) → ph.Knows T D i v := by
    rintro i v hi hv f ⟨j, -, hf⟩
    by_cases hj : j = w
    · exact absurd (hj ▸ hf) (hv f)
    · rw [ha j hj] at hf
      cases hf
  refine .phase (fun i => ?_) (fun v => ⟨w, hknows v⟩) (fun i v hv => ?_) (fun i v hv => ?_) rest
  · by_cases hi : i = w
    · rw [hi, show ph.foreign w = fun _ => ∅ from funext hG]
      exact ok
    · rw [ha i hi]
      trivial
  · by_cases hi : i = w
    · rw [hi]
      rfl
    · rw [Phase.final, ha i hi]
      have hleft : ∀ f, .write v f ∈ ph w → f (T v) = T v := fun f hf => by
        have hfix := hv f ⟨w, fun hw => hi hw.symm, hf⟩
        rwa [Phase.final, ha i hi] at hfix
      exact (View.run_table (x := ⟨T, D w⟩) hleft).symm
  · by_cases hi : i = w
    · rw [hi] at hv ⊢
      exact ⟨hknows v, fun hst => hv (own hst)⟩
    · obtain ⟨hD, ht⟩ := others i hi
      refine ⟨hfree i v hi fun f hf => hv (ht v f hf), ?_⟩
      rw [Phase.final, ha i hi]
      exact fun hst => hv (hD hst)

end Safe
end Tlb
