import Mathlib.Data.List.Induction
import SmpBoot.Mm
/-!
# BenchMenu — `payload_benchmark_menu()` and the cache modes it applies

All CPUs go through the same rounds with the same answers of `menu()`, so one of them is followed here.  Whatever entry is
preset, each round may take any entry of each menu it opens (`MenuChoice`).  The calls of `heap_reconfig()` are recorded
(`calls`), the benchmarks leave what is modelled alone.
-/
namespace SmpBoot

/-! ## The menus -/

/-- `cachemode_t` -/
inductive CacheMode where
  | cacheDisable
  | writeBack
  | writeThrough

def CacheMode.val : CacheMode → Nat
  | .cacheDisable => 0
  | .writeBack    => 1
  | .writeThrough => 2

/-- The texts of `testmenu`. -/
inductive TestLabel where
  | reconfigBuffer
  | reconfigContender
  | reconfigTimebase
  | hourglass
  | benchWorker
  | benchWorkerCut
  | benchMem
  | benchRangestride
  | back               -- "return"
  deriving DecidableEq

/-- The texts of `reconfmenu`. -/
inductive ReconfLabel where
  | cacheDisable
  | writeBack
  | writeThrough
  | abort
  deriving DecidableEq

/-- The texts of `timebasemenu`. -/
inductive TimebaseLabel where
  | sec (n : Nat)
  | abort
  deriving DecidableEq

structure MenuEntry (α : Type) where
  value : Nat
  label : α
  deriving DecidableEq

def testmenu : List (MenuEntry TestLabel) :=
  [⟨1, .reconfigBuffer⟩, ⟨2, .reconfigContender⟩, ⟨3, .reconfigTimebase⟩, ⟨4, .hourglass⟩, ⟨5, .benchWorker⟩,
    ⟨6, .benchWorkerCut⟩, ⟨7, .benchMem⟩, ⟨8, .benchRangestride⟩, ⟨999, .back⟩]

def reconfmenu : List (MenuEntry ReconfLabel) :=
  [⟨CacheMode.cacheDisable.val, .cacheDisable⟩, ⟨CacheMode.writeBack.val, .writeBack⟩,
    ⟨CacheMode.writeThrough.val, .writeThrough⟩, ⟨999, .abort⟩]

def timebasemenu : List (MenuEntry TimebaseLabel) :=
  [⟨1, .sec 1⟩, ⟨2, .sec 2⟩, ⟨5, .sec 5⟩, ⟨10, .sec 10⟩, ⟨30, .sec 30⟩, ⟨999, .abort⟩]

/-- What is selected in one round: an entry of each menu, of which those count that the round opens. -/
structure MenuChoice where
  test     : {e // e ∈ testmenu}
  reconf   : {e // e ∈ reconfmenu}
  timebase : {e // e ∈ timebasemenu}

/-! ## The rounds -/

inductive BenchBuffer where
  | buffer
  | contender
  deriving DecidableEq

/-- `bench_opt_t`, with the values of `cachemode_t`. -/
structure BenchOpt where
  cmBuffer    : Nat
  cmContender : Nat
  timebase    : Nat
  deriving DecidableEq

def BenchOpt.cm (o : BenchOpt) : BenchBuffer → Nat
  | .buffer    => o.cmBuffer
  | .contender => o.cmContender

def BenchOpt.setCm (o : BenchOpt) : BenchBuffer → Nat → BenchOpt
  | .buffer,    r => { o with cmBuffer := r }
  | .contender, r => { o with cmContender := r }

/-- `buffer_size` and `contender_size`, 16 MB. -/
def BenchBuffer.size : BenchBuffer → Nat
  | .buffer    => 16 * 2 ^ 20
  | .contender => 16 * 2 ^ 20

/-- `heap_reconfig(buffer, size, flags)` -/
structure ReconfCall where
  buffer : BenchBuffer
  size   : Nat
  flags  : Nat
  deriving DecidableEq

/-- `flag`, `bench_opt`, and the calls of `heap_reconfig()` made so far, the last in front. -/
structure BenchState where
  flag  : Nat
  opt   : BenchOpt
  calls : List ReconfCall
  deriving DecidableEq

/-- `switch (r)` of the first two cases. -/
def reconfSwitch (p : BenchBuffer) (r : Nat) (s : BenchState) : BenchState :=
  match r with
  | 1 => { s with flag := mmCacheDisable, opt := s.opt.setCm p r }
  | 2 => { s with flag := mmWriteThrough, opt := s.opt.setCm p r }
  | 3 => { s with flag := 0, opt := s.opt.setCm p r }
  | _ => s

def reconfCase (p : BenchBuffer) (r : Nat) (s : BenchState) : BenchState :=
  let s := reconfSwitch p r s
  if r ≠ 999 then { s with calls := ⟨p, p.size, s.flag⟩ :: s.calls } else s

def timebaseCase (r : Nat) (s : BenchState) : BenchState :=
  if r ≠ 999 then { s with opt := { s.opt with timebase := r } } else s

/-- `switch (t)` -/
def benchRound (c : MenuChoice) (s : BenchState) : BenchState :=
  match c.test.1.value with
  | 1 => reconfCase .buffer c.reconf.1.value s
  | 2 => reconfCase .contender c.reconf.1.value s
  | 3 => timebaseCase c.timebase.1.value s
  | _ => s

/-- `do ... while (t != 999)`, as far as the choices go. -/
def benchRounds : List MenuChoice → BenchState → BenchState
  | [],      s => s
  | c :: cs, s => if c.test.1.value ≠ 999 then benchRounds cs (benchRound c s) else benchRound c s

def payloadBenchmarkMenu (opt : BenchOpt) (choices : List MenuChoice) : BenchState := benchRounds choices ⟨0, opt, []⟩

/-- `bench_opt` as it is initialised; `BENCH_HOURGLASS_SEC` is a parameter. -/
def benchOpt (hourglassSec : Nat) : BenchOpt := ⟨CacheMode.writeBack.val, CacheMode.writeBack.val, hourglassSec⟩

/-- What `bench_opt` can be when the menu is opened: nothing else writes it. -/
inductive BenchOpt.Reached : BenchOpt → Prop
  | boot (hourglassSec : Nat) : Reached (benchOpt hourglassSec)
  | again {opt : BenchOpt} (h : Reached opt) (choices : List MenuChoice) : Reached (payloadBenchmarkMenu opt choices).opt

/-! ## What the labels promise -/

/-- The flags of `heap_reconfig()` for the mode that the label names. -/
def ReconfLabel.flags : ReconfLabel → Option Nat
  | .cacheDisable => some mmCacheDisable
  | .writeBack    => some 0
  | .writeThrough => some mmWriteThrough
  | .abort        => none

def BenchBuffer.label : BenchBuffer → TestLabel
  | .buffer    => .reconfigBuffer
  | .contender => .reconfigContender

/-- The entry that the round chooses for the buffer. -/
def MenuChoice.entry (p : BenchBuffer) (c : MenuChoice) : Option (MenuEntry ReconfLabel) :=
  if c.test.1.label = p.label ∧ c.reconf.1.label ≠ .abort then some c.reconf.1 else none

def MenuChoice.Aborts (c : MenuChoice) : Prop :=
  (∃ p : BenchBuffer, c.test.1.label = p.label ∧ c.reconf.1.label = .abort) ∨
    c.test.1.label = .reconfigTimebase ∧ c.timebase.1.label = .abort

/-- The choices up to the one that returns. -/
def made (choices : List MenuChoice) : List MenuChoice := choices.takeWhile (·.test.1.label ≠ .back)

def lastEntry (p : BenchBuffer) (choices : List MenuChoice) : Option (MenuEntry ReconfLabel) :=
  ((made choices).filterMap (MenuChoice.entry p)).getLast?

def BenchState.lastFlags (s : BenchState) (p : BenchBuffer) : Option Nat := (s.calls.find? (·.buffer = p)).map (·.flags)

/-- The mode applied last is the one of the entry chosen last, whose value stands in `bench_opt`; to abort changes nothing. -/
structure AsLabelled (opt : BenchOpt) (choices : List MenuChoice) : Prop where
  flags : ∀ p e, lastEntry p choices = some e → (payloadBenchmarkMenu opt choices).lastFlags p = e.label.flags
  cm    : ∀ p e, lastEntry p choices = some e → (payloadBenchmarkMenu opt choices).opt.cm p = e.value
  abort : ∀ pre c post, choices = pre ++ c :: post → c.Aborts →
    payloadBenchmarkMenu opt (pre ++ [c]) = payloadBenchmarkMenu opt pre

/-! ## One round -/

theorem testmenu_values : ∀ e ∈ testmenu, (e.label = .reconfigBuffer ↔ e.value = 1) ∧
    (e.label = .reconfigContender ↔ e.value = 2) ∧
    (e.label = .reconfigTimebase ↔ e.value = 3) ∧ (e.label = .back ↔ e.value = 999) := by
  decide

theorem reconfmenu_abort : ∀ e ∈ reconfmenu, e.label = .abort ↔ e.value = 999 := by
  decide

theorem timebasemenu_abort : ∀ e ∈ timebasemenu, e.label = .abort ↔ e.value = 999 := by
  decide

section
variable {p q : BenchBuffer} {c : MenuChoice} {s : BenchState} {e : MenuEntry ReconfLabel} {r : Nat}

/-- **What a round does**, by the label of the entry of `testmenu`. -/
theorem benchRound_cases (c : MenuChoice) (s : BenchState) :
    (∃ p : BenchBuffer, c.test.1.label = p.label ∧ benchRound c s = reconfCase p c.reconf.1.value s) ∨
    (c.test.1.label = .reconfigTimebase ∧ benchRound c s = timebaseCase c.timebase.1.value s) ∨
    ((∀ p : BenchBuffer, c.test.1.label ≠ p.label) ∧ c.test.1.label ≠ .reconfigTimebase ∧ benchRound c s = s) := by
  obtain ⟨h1, h2, h3, -⟩ := testmenu_values c.test.1 c.test.2
  unfold benchRound
  split
  · rename_i h
    exact .inl ⟨.buffer, h1.2 h, rfl⟩
  · rename_i h
    exact .inl ⟨.contender, h2.2 h, rfl⟩
  · rename_i h
    exact .inr (.inl ⟨h3.2 h, rfl⟩)
  · rename_i hn1 hn2 hn3
    refine .inr (.inr ⟨fun p => ?_, mt h3.1 hn3, rfl⟩)
    cases p with
    | buffer => exact mt h1.1 hn1
    | contender => exact mt h2.1 hn2

theorem setCm_self (o : BenchOpt) (p : BenchBuffer) (r : Nat) : (o.setCm p r).cm p = r := by
  cases p <;> rfl

theorem setCm_other (hpq : p ≠ q) (o : BenchOpt) (r : Nat) : (o.setCm p r).cm q = o.cm q := by
  cases p <;> cases q <;> first | rfl | exact absurd rfl hpq

theorem timebaseCase_keeps (r : Nat) (s : BenchState) :
    (timebaseCase r s).opt.cm p = s.opt.cm p ∧ (timebaseCase r s).lastFlags p = s.lastFlags p := by
  unfold timebaseCase
  split
  · exact ⟨by cases p <;> rfl, rfl⟩
  · exact ⟨rfl, rfl⟩

/-- The switch writes the option of its own buffer only, and no 0. -/
theorem reconfSwitch_cm (p q : BenchBuffer) (r : Nat) (s : BenchState) :
    (reconfSwitch p r s).opt.cm q = s.opt.cm q ∨ p = q ∧ (reconfSwitch p r s).opt.cm q = r ∧ r ≠ 0 := by
  by_cases hpq : p = q
  · subst hpq
    unfold reconfSwitch
    split
    · exact .inr ⟨rfl, setCm_self .., by decide⟩
    · exact .inr ⟨rfl, setCm_self .., by decide⟩
    · exact .inr ⟨rfl, setCm_self .., by decide⟩
    · exact .inl rfl
  · unfold reconfSwitch
    split
    · exact .inl (setCm_other hpq ..)
    · exact .inl (setCm_other hpq ..)
    · exact .inl (setCm_other hpq ..)
    · exact .inl rfl

theorem reconfSwitch_calls (p : BenchBuffer) (r : Nat) (s : BenchState) : (reconfSwitch p r s).calls = s.calls := by
  unfold reconfSwitch
  split <;> rfl

theorem reconfCase_opt (p : BenchBuffer) (r : Nat) (s : BenchState) : (reconfCase p r s).opt = (reconfSwitch p r s).opt := by
  simp only [reconfCase]
  split <;> rfl

theorem reconfCase_abort (p : BenchBuffer) (s : BenchState) : reconfCase p 999 s = s := rfl

/-- **The buffer is reconfigured with what the switch leaves in `flag`.** -/
theorem reconfCase_flags (hr : r ≠ 999) : (reconfCase p r s).lastFlags p = some (reconfSwitch p r s).flag := by
  simp only [reconfCase, if_pos hr]
  rw [BenchState.lastFlags, List.find?_cons_of_pos (by simp)]
  rfl

theorem reconfCase_other (hpq : p ≠ q) :
    (reconfCase p r s).opt.cm q = s.opt.cm q ∧ (reconfCase p r s).lastFlags q = s.lastFlags q := by
  constructor
  · rw [reconfCase_opt]
    exact (reconfSwitch_cm p q r s).resolve_right fun h => hpq h.1
  · simp only [reconfCase]
    split
    · rw [BenchState.lastFlags, List.find?_cons_of_neg (by simpa using hpq), reconfSwitch_calls, BenchState.lastFlags]
    · rw [BenchState.lastFlags, reconfSwitch_calls, BenchState.lastFlags]

/-- **A round that chooses an entry for the buffer** runs the case of the buffer with it. -/
theorem benchRound_entry (h : c.entry p = some e) :
    benchRound c s = reconfCase p e.value s ∧ e ∈ reconfmenu ∧ e.label ≠ .abort := by
  unfold MenuChoice.entry at h
  split at h
  · rename_i hc
    obtain rfl := Option.some.inj h
    obtain ⟨q, hq, hround⟩ | ⟨ht, -⟩ | ⟨hn, -⟩ := benchRound_cases c s
    · have hqp : q = p := by
        have hlabel := hq.symm.trans hc.1
        cases p <;> cases q <;> first | rfl | exact absurd hlabel (by decide)
      exact ⟨hqp ▸ hround, c.reconf.2, hc.2⟩
    · exact absurd (ht.symm.trans hc.1) (by cases p <;> decide)
    · exact absurd hc.1 (hn p)
  · cases h

/-- **A round that chooses no entry for the buffer** leaves its mode and its option alone. -/
theorem benchRound_no_entry (h : c.entry p = none) :
    (benchRound c s).opt.cm p = s.opt.cm p ∧ (benchRound c s).lastFlags p = s.lastFlags p := by
  obtain ⟨q, hq, hround⟩ | ⟨-, hround⟩ | ⟨-, -, hround⟩ := benchRound_cases c s
  · rw [hround]
    by_cases hqp : q = p
    · subst hqp
      have habort : c.reconf.1.label = .abort := Decidable.byContradiction fun hne => by
        rw [MenuChoice.entry, if_pos ⟨hq, hne⟩] at h
        cases h
      rw [(reconfmenu_abort c.reconf.1 c.reconf.2).1 habort, reconfCase_abort]
      exact ⟨rfl, rfl⟩
    · exact reconfCase_other hqp
  · rw [hround]
    exact timebaseCase_keeps ..
  · rw [hround]
    exact ⟨rfl, rfl⟩

/-- To abort changes nothing. -/
theorem benchRound_aborts (h : c.Aborts) (s : BenchState) : benchRound c s = s := by
  obtain ⟨q, hq, hround⟩ | ⟨ht, hround⟩ | ⟨-, -, hround⟩ := benchRound_cases c s
  · rcases h with ⟨-, -, habort⟩ | ⟨ht, -⟩
    · rw [hround, (reconfmenu_abort c.reconf.1 c.reconf.2).1 habort, reconfCase_abort]
    · exact absurd (hq.symm.trans ht) (by cases q <;> decide)
  · rcases h with ⟨p, hp, -⟩ | ⟨-, habort⟩
    · exact absurd (hp.symm.trans ht) (by cases p <;> decide)
    · rw [hround, (timebasemenu_abort c.timebase.1 c.timebase.2).1 habort]
      rfl
  · exact hround

/-- No round stores the value of "cache disable". -/
theorem benchRound_cm (h : s.opt.cm p ≠ 0) : (benchRound c s).opt.cm p ≠ 0 := by
  cases he : c.entry p with
  | none =>
    rw [(benchRound_no_entry he).1]
    exact h
  | some e =>
    rw [(benchRound_entry he).1, reconfCase_opt]
    rcases reconfSwitch_cm p p e.value s with hcm | ⟨-, hcm, hne⟩
    · rwa [hcm]
    · rwa [hcm]

end

/-! ## A whole sequence of choices -/

section
variable {p : BenchBuffer} {e : MenuEntry ReconfLabel} {s : BenchState}

theorem benchRounds_eq : ∀ (choices : List MenuChoice) (s : BenchState),
    benchRounds choices s = (made choices).foldl (fun s c => benchRound c s) s
  | [],      _ => rfl
  | c :: cs, s => by
    obtain ⟨h1, h2, h3, hback⟩ := testmenu_values c.test.1 c.test.2
    by_cases hc : c.test.1.label = .back
    · have hround : benchRound c s = s := by
        unfold benchRound
        rw [hback.1 hc]
        rfl
      rw [benchRounds, if_neg (fun hne => hne (hback.1 hc)), made, List.takeWhile_cons_of_neg (by simpa using hc), hround]
      rfl
    · rw [benchRounds, if_pos (mt hback.2 hc), made, List.takeWhile_cons_of_pos (by simpa using hc), List.foldl_cons]
      exact benchRounds_eq cs _

theorem benchRounds_cm (hs : s.opt.cm p ≠ 0) (choices : List MenuChoice) : (benchRounds choices s).opt.cm p ≠ 0 := by
  rw [benchRounds_eq]
  exact List.foldlRecOn (motive := fun s : BenchState => s.opt.cm p ≠ 0) _ _ hs fun _ h _ _ => benchRound_cm h

theorem BenchOpt.Reached.cm_ne_zero {opt : BenchOpt} (h : opt.Reached) (p : BenchBuffer) : opt.cm p ≠ 0 := by
  induction h with
  | boot hourglassSec => cases p <;> exact Nat.one_ne_zero
  | again _ choices ih => exact benchRounds_cm ih choices

/-- **What the last entry chosen leaves**: the mode and the option are those of its own round, whatever came later. -/
theorem foldl_last (hs : s.opt.cm p ≠ 0) (choices : List MenuChoice)
    (h : (choices.filterMap (MenuChoice.entry p)).getLast? = some e) :
    ∃ t : BenchState, t.opt.cm p ≠ 0 ∧ e ∈ reconfmenu ∧ e.label ≠ .abort ∧
      (choices.foldl (fun s c => benchRound c s) s).opt.cm p = (reconfCase p e.value t).opt.cm p ∧
      (choices.foldl (fun s c => benchRound c s) s).lastFlags p = (reconfCase p e.value t).lastFlags p := by
  induction choices using List.reverseRecOn with
  | nil => cases h
  | append_singleton cs c ih =>
    rw [List.foldl_append, List.foldl_cons, List.foldl_nil]
    rw [List.filterMap_append] at h
    cases he : c.entry p with
    | none =>
      rw [List.filterMap_cons_none he, List.filterMap_nil, List.append_nil] at h
      obtain ⟨t, ht, hmem, hlabel, hcm, hflags⟩ := ih h
      obtain ⟨hcm', hflags'⟩ := benchRound_no_entry (s := cs.foldl (fun s c => benchRound c s) s) he
      exact ⟨t, ht, hmem, hlabel, hcm'.trans hcm, hflags'.trans hflags⟩
    | some f =>
      rw [List.filterMap_cons_some he, List.filterMap_nil, List.getLast?_concat] at h
      obtain rfl := Option.some.inj h
      obtain ⟨hround, hmem, hlabel⟩ := benchRound_entry (s := cs.foldl (fun s c => benchRound c s) s) he
      have hcm : (cs.foldl (fun s c => benchRound c s) s).opt.cm p ≠ 0 :=
        List.foldlRecOn (motive := fun s : BenchState => s.opt.cm p ≠ 0) _ _ hs fun _ h _ _ => benchRound_cm h
      exact ⟨_, hcm, hmem, hlabel, by rw [hround], by rw [hround]⟩

/-- **Only "write through" does what its label says.** -/
theorem reconfCase_iff (hs : s.opt.cm p ≠ 0) (he : e ∈ reconfmenu) (hlabel : e.label ≠ .abort) :
    (reconfCase p e.value s).lastFlags p = e.label.flags ∧ (reconfCase p e.value s).opt.cm p = e.value ↔
      e.label = .writeThrough := by
  simp only [reconfmenu, List.mem_cons, List.not_mem_nil, or_false] at he
  rcases he with rfl | rfl | rfl | rfl
  · -- no case for 0: the option stays as it is
    refine ⟨fun h => ?_, fun h => ?_⟩
    · rw [reconfCase_opt] at h
      exact absurd h.2 hs
    · exact absurd h (by decide)
  · -- the case of the value 1 is that of another label
    refine ⟨fun h => ?_, fun h => ?_⟩
    · rw [reconfCase_flags (by decide)] at h
      exact absurd h.1 (by decide : some mmCacheDisable ≠ some 0)
    · exact absurd h (by decide)
  · refine ⟨fun _ => rfl, fun _ => ⟨reconfCase_flags (by decide), ?_⟩⟩
    rw [reconfCase_opt]
    exact setCm_self ..
  · exact absurd rfl hlabel

theorem benchRounds_idle {c : MenuChoice} (hc : ∀ s, benchRound c s = s) : ∀ (pre : List MenuChoice) (s : BenchState),
    benchRounds (pre ++ [c]) s = benchRounds pre s
  | [],       s => by
    change (if c.test.1.value ≠ 999 then benchRound c s else benchRound c s) = s
    rw [hc, ite_self]
  | d :: pre, s => by
    rw [List.cons_append, benchRounds, benchRounds]
    split
    · exact benchRounds_idle hc pre _
    · rfl

end

/-- **The modes follow the labels exactly as long as "write through" is what was chosen last** for each buffer that an entry
was chosen for. -/
theorem asLabelled_iff {opt : BenchOpt} (h : opt.Reached) (choices : List MenuChoice) :
    AsLabelled opt choices ↔ ∀ p e, lastEntry p choices = some e → e.label = .writeThrough := by
  have hlast {p : BenchBuffer} {e : MenuEntry ReconfLabel} (he : lastEntry p choices = some e) :
      (payloadBenchmarkMenu opt choices).lastFlags p = e.label.flags ∧
        (payloadBenchmarkMenu opt choices).opt.cm p = e.value ↔ e.label = .writeThrough := by
    obtain ⟨t, ht, hmem, hlabel, hcm, hflags⟩ := foldl_last (s := ⟨0, opt, []⟩) (h.cm_ne_zero p) (made choices) he
    rw [payloadBenchmarkMenu, benchRounds_eq, hcm, hflags]
    exact reconfCase_iff ht hmem hlabel
  constructor
  · intro hl p e he
    exact (hlast he).1 ⟨hl.flags p e he, hl.cm p e he⟩
  · intro hthrough
    refine ⟨fun p e he => ?_, fun p e he => ?_, ?_⟩
    · exact ((hlast he).2 (hthrough p e he)).1
    · exact ((hlast he).2 (hthrough p e he)).2
    · intro pre c post _ hc
      exact benchRounds_idle (benchRound_aborts hc) pre _

/-- "write through" for `p_buffer`, and no entry for `p_contender`. -/
theorem asLabelled_writeThrough : AsLabelled (benchOpt 10)
    [⟨⟨⟨1, .reconfigBuffer⟩, by decide⟩, ⟨⟨2, .writeThrough⟩, by decide⟩, ⟨⟨999, .abort⟩, by decide⟩⟩,
      ⟨⟨⟨2, .reconfigContender⟩, by decide⟩, ⟨⟨999, .abort⟩, by decide⟩, ⟨⟨999, .abort⟩, by decide⟩⟩] := by
  refine (asLabelled_iff (.boot 10) _).2 fun p e he => ?_
  cases p with
  | buffer =>
    obtain rfl := Option.some.inj he
    rfl
  | contender => cases he

/-- "write back" for `p_buffer` makes it uncached. -/
theorem not_asLabelled_writeBack : ¬ AsLabelled (benchOpt 10)
    [⟨⟨⟨1, .reconfigBuffer⟩, by decide⟩, ⟨⟨1, .writeBack⟩, by decide⟩, ⟨⟨999, .abort⟩, by decide⟩⟩] := by
  intro h
  have hflags := h.flags .buffer ⟨1, .writeBack⟩ rfl
  exact absurd hflags (by decide)

end SmpBoot
