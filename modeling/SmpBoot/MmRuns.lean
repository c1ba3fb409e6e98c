import SmpBoot.MmInit
/-!
# MmRuns — any sequence of heap calls after `mm_init`

`Mm.translate` is the processor's walk through the tables.  `HeapSafe s₀ s done` says of the completed calls `done` between
the states `s₀` and `s` that their ranges are disjoint and were unmapped, that every page of them still translates to the
frame taken for it, and that data frames and tables are all different frames.
-/
namespace SmpBoot

open Resume Resume.Prog

variable {b : Build} {s s' s₀ : Mm b}

/-! ## The processor's walk -/

/-- The walk from table `t` at the `k`-th level from below.  At the fourth level there are no huge pages: `ps` is
reserved, the access faults. -/
def Mm.translateFrom (s : Mm b) (adr : Nat) : (k t : Nat) → Option Nat
  | 0,     t =>
    let e := s.mem t (levelIndex b 0 adr)
    if e.p = true then some (e.frame * pageSize + adr % pageSize) else none
  | k + 1, t =>
    let e := s.mem t (levelIndex b (k + 1) adr)
    let bits := (k + 1) * b.indexBits
    if e.p = false then none
    else if e.ps = true then
      if k + 1 < 3 then some ((e.frame >>> bits) * 2 ^ (pageBits + bits) + adr % 2 ^ (pageBits + bits)) else none
    else s.translateFrom adr k e.frame

/-- **The physical address behind a virtual one**; nothing if the access faults. -/
def Mm.translate (s : Mm b) (adr : Nat) : Option Nat := s.translateFrom adr b.depth s.pd1

def dirs (b : Build) (adr : Nat) : Nat → List Nat
  | 0     => []
  | k + 1 => levelIndex b (k + 1) adr :: dirs b adr k

theorem dirs_depth (b : Build) (adr : Nat) : dirs b adr b.depth = dirPath b adr := by cases b <;> rfl

theorem Tables.translateFrom_eq (h : Tables s) (adr : Nat) : ∀ (k : Nat) (π : List Nat) (t : Nat),
    π.length + k = b.depth → s.tableAt π = some t →
    s.translateFrom adr k t = (s.lookup (π ++ dirs b adr k) (ptIndex b adr)).map (fun f => f * pageSize + adr % pageSize)
  | 0, π, t, _, ht => by
    have hi := ptIndex_lt b adr
    simp only [dirs, List.append_nil, Mm.lookup, ht, Option.bind_some, Mm.leaf, hi, true_and, Mm.translateFrom]
    change (if (s.mem t (ptIndex b adr)).p = true then _ else _) = _
    cases (s.mem t (ptIndex b adr)).p <;> rfl
  | k + 1, π, t, hk, ht => by
    have hi := levelIndex_lt b (k + 1) adr
    have hπ : π.length < b.depth := by omega
    have hat := h.child_eq hπ ht hi
    have hps := h.noHuge π t _ hπ ht hi
    simp only [Mm.translateFrom, dirs, hps, Bool.false_eq_true, if_false]
    rw [List.append_cons]
    cases hp : (s.mem t (levelIndex b (k + 1) adr)).p with
    | true =>
      rw [hp] at hat
      exact h.translateFrom_eq adr k _ _ (by simp; omega) hat
    | false =>
      rw [hp] at hat
      have hnone : s.tableAt (π ++ [levelIndex b (k + 1) adr] ++ dirs b adr k) = none :=
        Radix.walk_none_of_prefix hat _
      rw [Mm.lookup, hnone]
      rfl

theorem slot_div {x : Nat} (hx : x < 2 ^ 32) : slot b (x / pageSize) = (dirPath b x, ptIndex b x) := by
  have hps : pageSize = 4096 := rfl
  have hl : ∀ k, levelIndex b k (x / pageSize * 4096) = levelIndex b k x := by
    intro k
    rw [levelIndex_eq, levelIndex_eq, Nat.pow_add, ← Nat.div_div_eq_div_mul, ← Nat.div_div_eq_div_mul, hps]
    have h1 : (2 : Nat) ^ pageBits = 4096 := rfl
    rw [h1, Nat.mul_div_cancel _ (by decide)]
  unfold slot
  rw [pageToAdr_eq b (by rw [hps]; omega)]
  cases b <;> simp only [dirPath, pd1Index, pd2Index, pd3Index, ptIndex, hl]

/-- **Below 4 GB an address translates to its page's frame.** -/
theorem Tables.translate_eq (h : Tables s) {x : Nat} (hx : x < 2 ^ 32) :
    s.translate x = (s.frameOf (x / pageSize)).map (fun f => f * pageSize + x % pageSize) := by
  have := h.translateFrom_eq x b.depth [] s.pd1 (by simp) rfl
  rw [List.nil_append, dirs_depth] at this
  rw [Mm.frameOf, slot_div hx]
  exact this

/-! ## Ranges -/

/-- The range a `heap_alloc` returned, with the frames behind it. -/
structure Range where
  res    : Nat
  frames : List Nat

def Range.Has (d : Range) (x : Nat) : Prop := d.res ≤ x ∧ x < d.res + d.frames.length * pageSize

def HeapRet.ranges : HeapRet → List Range
  | .range res frames => [⟨res, frames⟩]
  | .done             => []
  | .phys _           => []

/-- The ranges the completed calls returned, in order. -/
def ranges (done : List (HeapCall × HeapRet)) : List Range := done.flatMap (fun x => x.2.ranges)

def framesOf (ds : List Range) : List Nat := ds.flatMap Range.frames

theorem ranges_append (xs ys : List (HeapCall × HeapRet)) : ranges (xs ++ ys) = ranges xs ++ ranges ys :=
  List.flatMap_append

theorem framesOf_append (ds es : List Range) : framesOf (ds ++ es) = framesOf ds ++ framesOf es :=
  List.flatMap_append

/-- The ranges follow each other from page `p` on. -/
def Placed : Nat → List Range → Prop
  | _, []      => True
  | p, d :: ds => d.res = p * pageSize ∧ Placed (p + d.frames.length) ds

theorem Placed.append : ∀ {p : Nat} {ds es : List Range}, Placed p ds → Placed (p + (framesOf ds).length) es →
    Placed p (ds ++ es)
  | _, [],      _, _,  h' => h'
  | p, d :: ds, _, h, h' => ⟨h.1, h.2.append (by
      have : (framesOf (d :: ds)).length = d.frames.length + (framesOf ds).length := by simp [framesOf]
      rwa [this, ← Nat.add_assoc] at h')⟩

theorem Placed.mem : ∀ {p : Nat} {ds : List Range}, Placed p ds → ∀ d ∈ ds, ∃ o, d.res = (p + o) * pageSize ∧
    o + d.frames.length ≤ (framesOf ds).length ∧ ∀ i f, d.frames[i]? = some f → (framesOf ds)[o + i]? = some f
  | p, d :: ds, h, e, he => by
    have hlen : (framesOf (d :: ds)).length = d.frames.length + (framesOf ds).length := by simp [framesOf]
    rcases List.mem_cons.1 he with rfl | he
    · refine ⟨0, h.1, by omega, fun i f hf => ?_⟩
      have hi : i < e.frames.length := (List.getElem?_eq_some_iff.1 hf).1
      simp only [framesOf, List.flatMap_cons, Nat.zero_add]
      rw [List.getElem?_append_left hi, hf]
    · obtain ⟨o, h1, h2, h3⟩ := h.2.mem e he
      refine ⟨d.frames.length + o, by rw [h1]; congr 1; omega, by omega, fun i f hf => ?_⟩
      simp only [framesOf, List.flatMap_cons]
      rw [List.getElem?_append_right (by omega), show d.frames.length + o + i - d.frames.length = o + i by omega]
      exact h3 i f hf

/-- **Ranges that follow each other are disjoint.** -/
theorem Placed.disjoint : ∀ {p : Nat} {ds : List Range}, Placed p ds →
    ds.Pairwise (fun d e => ∀ x, d.Has x → ¬ e.Has x)
  | _, [], _ => List.Pairwise.nil
  | p, d :: ds, h => by
    refine List.pairwise_cons.2 ⟨fun e he x hd hx => ?_, h.2.disjoint⟩
    obtain ⟨o, h1, -, -⟩ := h.2.mem e he
    have hd1 := hd.2
    have hx1 := hx.1
    rw [h.1] at hd1
    rw [h1] at hx1
    have : (p + d.frames.length) * pageSize ≤ (p + d.frames.length + o) * pageSize :=
      Nat.mul_le_mul_right _ (Nat.le_add_right _ _)
    rw [Nat.add_mul] at this
    omega

/-! ## Runs -/

/-- What a call that started at page `p` answers. -/
def Answers (p : Nat) : HeapCall → HeapRet → Prop
  | .heapAlloc n _,     .range res frames => res = p * pageSize ∧ frames.length = n
  | .heapReconfig _ _ _, .done            => True
  | .virtToPhys _,      .phys _           => True
  | _,                  _                 => False

theorem HeapCall.body_ends (h : Heap s) (c : HeapCall) : Ends (· = .outOfMemory) (c.body (b := b)) s (fun s' r =>
    Grew s s' (framesOf r.ranges) ∧ Answers s.nextVirtPage c r ∧ Placed s.nextVirtPage r.ranges) := by
  cases c with
  | heapAlloc n flags =>
    refine Ends.bind (heapAlloc_ends h n flags) ?_
    rintro s' ⟨res, frames⟩ ⟨hg, hlen, hres⟩
    refine Ends.pure ⟨?_, ⟨hres, hlen⟩, ⟨hres, trivial⟩⟩
    simpa [HeapRet.ranges, framesOf] using hg
  | heapReconfig adr size flags =>
    exact Ends.bind (heapReconfig_ends h.toTables adr size flags) (fun s' _ hs => Ends.pure ⟨h.stays hs, trivial, trivial⟩)
  | virtToPhys adr =>
    exact Ends.bind (virtToPhys_ends h.toTables adr) (fun s' _ hs => Ends.pure ⟨h.stays hs, trivial, trivial⟩)

/-- What a run did: its ranges follow each other, and their frames are what was mapped. -/
structure Ran (s₀ s : Mm b) (done : List (HeapCall × HeapRet)) : Prop where
  grew    : Grew s₀ s (framesOf (ranges done))
  placed  : Placed s₀.nextVirtPage (ranges done)
  answers : ∀ x ∈ done, ∃ p, Answers p x.1 x.2

theorem Heap.ran_nil (h : Heap s) : Ran s s [] := ⟨h.stays ⟨h.toTables, Keeps.refl s⟩, trivial, fun _ hx => by cases hx⟩

theorem Ran.trans {xs ys : List (HeapCall × HeapRet)} (h : Ran s₀ s xs) (h' : Ran s s' ys) : Ran s₀ s' (xs ++ ys) where
  grew    := by rw [ranges_append, framesOf_append]; exact h.grew.trans h'.grew
  placed  := by
    rw [ranges_append]
    refine h.placed.append ?_
    rw [← h.grew.next]
    exact h'.placed
  answers := fun x hx => (List.mem_append.1 hx).elim (h.answers x) (h'.answers x)

theorem HeapCall.ran (h : Heap s) {c : HeapCall} {r : HeapRet} (hr : c.body.run s = (s', .ok r)) : Ran s s' [(c, r)] := by
  obtain ⟨hg, ha, hp⟩ := (c.body_ends h).ok hr
  have hrs : ranges [(c, r)] = r.ranges := by simp [ranges]
  exact ⟨by rw [hrs]; exact hg, by rw [hrs]; exact hp, fun x hx => by
    cases List.mem_singleton.1 hx
    exact ⟨_, ha⟩⟩

/-- Calls one after the other, up to the first that does not return; the state is the one the last completed call left. -/
def runCalls : List HeapCall → Mm b → Mm b × List (HeapCall × HeapRet)
  | [],      s => (s, [])
  | c :: cs, s =>
    match c.body.run s with
    | (s', .ok r)    => ((runCalls cs s').1, (c, r) :: (runCalls cs s').2)
    | (_,  .error _) => (s, [])

theorem runCalls_ran : ∀ (cs : List HeapCall) (s : Mm b), Heap s → Ran s (runCalls cs s).1 (runCalls cs s).2
  | [],      _, h => h.ran_nil
  | c :: cs, s, h => by
    unfold runCalls
    split
    · rename_i s' r hr
      have h1 := HeapCall.ran h hr
      exact h1.trans (runCalls_ran cs s' h1.grew.heap)
    · exact h.ran_nil

/-! ## Safety -/

structure HeapSafe (s₀ s : Mm b) (done : List (HeapCall × HeapRet)) : Prop where
  /-- Each call returned what it should; `heap_alloc(n)` a range of `n` pages. -/
  answers  : ∀ x ∈ done, ∃ p, Answers p x.1 x.2
  /-- The ranges lie below the APICs: no address wraps. -/
  below    : ∀ d ∈ ranges done, ∀ x, d.Has x → x < apicPage * pageSize
  disjoint : (ranges done).Pairwise (fun d e => ∀ x, d.Has x → ¬ e.Has x)
  /-- No page of a range was mapped before the run. -/
  fresh    : ∀ d ∈ ranges done, ∀ x, d.Has x → s₀.translate x = none
  /-- Whatever is called next, only running out of memory keeps it from returning. -/
  goesOn   : ∀ c : HeapCall, Ends (· = .outOfMemory) c.body s (fun _ _ => True)
  /-- No page of the range a `heap_alloc` called next returns is mapped now. -/
  unmapped : ∀ n flags, Ends (· = .outOfMemory) (heapAlloc n flags) s (fun _ r =>
    ∀ x, Range.Has ⟨r.1, r.2⟩ x → s.translate x = none)
  /-- Every page of every range translates to the frame taken for it. -/
  mapped   : ∀ d ∈ ranges done, ∀ i f, d.frames[i]? = some f → ∀ o < pageSize,
    s.translate (d.res + i * pageSize + o) = some (f * pageSize + o)
  /-- Different pages have different frames. -/
  distinct : (framesOf (ranges done)).Nodup
  /-- No data frame is a table. -/
  noTable  : ∀ f ∈ framesOf (ranges done), ∀ π, π.length ≤ b.depth → s.tableAt π ≠ some f
  /-- No frame is two tables. -/
  oneTable : ∀ π ρ t, π.length ≤ b.depth → ρ.length ≤ b.depth → s.tableAt π = some t → s.tableAt ρ = some t → π = ρ

theorem Heap.translate_none (h : Heap s) {x : Nat} (h1 : s.nextVirtPage * pageSize ≤ x) (h2 : x < apicPage * pageSize) :
    s.translate x = none := by
  have hps : pageSize = 4096 := rfl
  have hap : apicPage = 0xfec00 := rfl
  rw [h.toTables.translate_eq (by rw [hap, hps] at h2; omega), h.unused]
  · rfl
  · rw [Nat.le_div_iff_mul_le (by decide)]; exact h1
  · rw [Nat.div_lt_iff_lt_mul (by decide)]; exact h2

theorem Grew.has {fs : List Nat} (h : Grew s s' fs) {d : Range} {o x : Nat}
    (hd : d.res = (s.nextVirtPage + o) * pageSize) (ho : o + d.frames.length ≤ fs.length) (hx : d.Has x) :
    s.nextVirtPage * pageSize ≤ x ∧ x < apicPage * pageSize := by
  have hlt := h.heap.next_lt
  have hn := h.next
  have hps : pageSize = 4096 := rfl
  obtain ⟨h1, h2⟩ := hx
  rw [hd, hps] at h1 h2
  rw [hps]
  omega

/-- **A run is safe.** -/
theorem Ran.safe (h₀ : Heap s₀) {done : List (HeapCall × HeapRet)} (h : Ran s₀ s done) : HeapSafe s₀ s done where
  answers  := h.answers
  below    := fun d hd x hx => by
    obtain ⟨o, h1, h2, -⟩ := h.placed.mem d hd
    exact (h.grew.has h1 h2 hx).2
  disjoint := h.placed.disjoint
  fresh    := fun d hd x hx => by
    obtain ⟨o, h1, h2, -⟩ := h.placed.mem d hd
    obtain ⟨h3, h4⟩ := h.grew.has h1 h2 hx
    exact h₀.translate_none h3 h4
  goesOn   := fun c => (c.body_ends h.grew.heap).mono (fun _ _ _ => trivial)
  unmapped := fun n flags => (heapAlloc_ends h.grew.heap n flags).mono (fun s' r hr x hx => by
    obtain ⟨h3, h4⟩ := hr.1.has (d := ⟨r.1, r.2⟩) (o := 0) hr.2.2 (by simp) hx
    exact h.grew.heap.translate_none h3 h4)
  mapped   := fun d hd i f hf o ho => by
    obtain ⟨q, h1, h2, h3⟩ := h.placed.mem d hd
    have hi : i < d.frames.length := (List.getElem?_eq_some_iff.1 hf).1
    have hps : pageSize = 4096 := rfl
    have hap : apicPage = 0xfec00 := rfl
    have hlt := h.grew.heap.next_lt
    have hn := h.grew.next
    have hx : d.res + i * pageSize + o = (s₀.nextVirtPage + (q + i)) * pageSize + o := by
      rw [h1]; simp only [Nat.add_mul]; omega
    have hdiv : ((s₀.nextVirtPage + (q + i)) * pageSize + o) / pageSize = s₀.nextVirtPage + (q + i) := by
      rw [hps] at ho ⊢; omega
    have hmod : ((s₀.nextVirtPage + (q + i)) * pageSize + o) % pageSize = o := by rw [hps] at ho ⊢; omega
    rw [hx, h.grew.heap.toTables.translate_eq (by rw [hps] at ho ⊢; omega), hdiv, hmod, h.grew.mapped _ f (h3 i f hf)]
    rfl
  distinct := h.grew.nodup
  noTable  := fun f hf π hπ ht => by
    obtain ⟨h1, -, h2⟩ := h.grew.fresh f hf
    rcases h.grew.tables π f hπ ht with h3 | ⟨-, h3⟩
    · exact h₀.fresh h2 h1 π hπ h3
    · exact h3 hf
  oneTable := fun π ρ t hπ hρ h1 h2 => h.grew.heap.tree π ρ t hπ hρ h1 h2

/-- A state `mm_init` returned in, for some memory map and some contents of memory. -/
structure Started (b : Build) where
  mem     : Nat → Nat → Entry
  freemap : Nat → BitVec b.longBits
  fuel    : Nat
  mbi     : MultibootInfo
  state   : Mm b
  count   : Nat
  init    : (mmInit fuel mbi).run (Mm.boot b mem freemap) = (state, .ok count)

theorem Started.booted (st : Started b) : Booted st.state :=
  (mmInit_booted (E := fun _ => True) st.mem st.freemap st.fuel st.mbi (fun _ => trivial)).ok st.init

theorem Started.heap (st : Started b) : Heap st.state := st.booted.heap

/-- `mm_init` returns if no memory map is passed: there are such states. -/
theorem Started.exists_of (mem : Nat → Nat → Entry) (freemap : Nat → BitVec b.longBits) (mbi : MultibootInfo)
    (h : isBitSet mbi.flags 6 = false) : ∃ st : Started b, st.mem = mem ∧ st.freemap = freemap ∧ st.mbi = mbi := by
  obtain ⟨s, count, hr, -⟩ := (mmInit_ends (E := fun _ => False) mem freemap 0 mbi (by simp [h])).returns
  exact ⟨⟨mem, freemap, 0, mbi, s, count, hr⟩, rfl, rfl, rfl⟩

/-- **At every point of every run of heap calls after `mm_init` the heap is safe.** -/
theorem runCalls_safe (b : Build) (st : Started b) (calls : List HeapCall) :
    HeapSafe st.state (runCalls calls st.state).1 (runCalls calls st.state).2 :=
  (runCalls_ran calls st.state st.heap).safe st.heap

end SmpBoot
