import SmpBoot.Keyboard
import SmpBoot.Rounds
/-!
# Menu — `menu.c`: one CPU asks, all CPUs get the answer

Every CPU calls `menu()`; CPU 0 draws it, reads the keys and stores what was selected in the one variable `result`,
between the two calls of `barrier(&global_barrier)` that all CPUs make.  Which menu is called next may depend on the
values returned so far (`calls`), as it does where a menu opens another.
-/
namespace SmpBoot

open Interleave

/-- `entries[]` up to the first null string, with the value of that last entry, and `def`. -/
structure Menu where
  entries : List (BitVec 32)
  null    : BitVec 32
  defVal  : BitVec 32
  /-- Every menu of the kernel has an entry. -/
  ne      : entries ≠ []
  len     : entries.length < 2 ^ 32

/-- `selection` when the menu is drawn for the first time: the last entry with the value `def`. -/
def Menu.preset (m : Menu) : Unsigned :=
  m.entries.zipIdx.foldl (fun selection e => if e.1 = m.defVal then BitVec.ofNat 32 e.2 else selection) 0

/-- `selection` after a key other than Return. -/
def Menu.move (m : Menu) (selection : Unsigned) (key : BitVec 8) : Unsigned :=
  if key = keyDown then
    if selection < BitVec.ofNat 32 m.entries.length - 1 then selection + 1 else selection
  else if key = keyUp then
    if selection > 0 then selection - 1 else selection
  else selection

/-- `entries[selection].value`. -/
def Menu.value (m : Menu) (selection : Unsigned) : BitVec 32 := (m.entries ++ [m.null]).getD selection.toNat 0

theorem Menu.preset_lt (m : Menu) : m.preset.toNat < m.entries.length := by
  refine List.foldlRecOn (motive := fun sel : Unsigned => sel.toNat < m.entries.length) m.entries.zipIdx _ ?_ ?_
  · exact List.length_pos_iff.2 m.ne
  · intro sel hsel e he
    split
    · have hlt := List.snd_lt_of_mem_zipIdx he
      rw [BitVec.toNat_ofNat]
      exact Nat.lt_of_le_of_lt (Nat.mod_le _ _) (by omega)
    · exact hsel

theorem Menu.move_lt (m : Menu) {sel : Unsigned} (h : sel.toNat < m.entries.length) (key : BitVec 8) :
    (m.move sel key).toNat < m.entries.length := by
  have hlen := m.len
  have hu : (BitVec.ofNat 32 m.entries.length - 1 : Unsigned).toNat = m.entries.length - 1 := by
    rw [BitVec.toNat_sub_of_le] <;> simp [BitVec.le_def] <;> omega
  unfold Menu.move
  split
  · split
    · rename_i hlt
      rw [BitVec.lt_def, hu] at hlt
      rw [BitVec.toNat_add]
      exact Nat.lt_of_le_of_lt (Nat.mod_le _ _) (by show sel.toNat + 1 < _; omega)
    · exact h
  · split
    · split
      · rename_i hgt
        have hle : (1 : Unsigned) ≤ sel := by
          have : (0 : Unsigned).toNat < sel.toNat := hgt
          exact BitVec.le_def.2 this
        rw [BitVec.toNat_sub_of_le hle]
        omega
      · exact h
    · exact h

theorem Menu.value_mem (m : Menu) {sel : Unsigned} (h : sel.toNat < m.entries.length) : m.value sel ∈ m.entries := by
  unfold Menu.value
  rw [List.getD_eq_getElem?_getD, List.getElem?_append_left h, List.getElem?_eq_getElem h]
  exact List.getElem_mem h

/-! ## The CPUs -/

inductive MenuPc where
  | outside                                    -- in front of the first barrier(&global_barrier) of the next call
  | select (m : Menu) (selection : Unsigned)   -- switch (wait_for_key())
  | store (v : BitVec 32)                      -- result = entries[selection].value
  | behind                                     -- in front of the second barrier(&global_barrier)
  | load                                       -- return result

/-- A CPU: what its calls have returned so far, and where it is. -/
structure MenuCpu where
  past : List (BitVec 32)
  pc   : MenuPc

structure MenuMem where
  result : BitVec 32
  keys   : List (BitVec 8)     -- the keys that are going to be pressed
  stored : List (BitVec 32)    -- what CPU 0 has stored in `result`, call after call

/-- `menu()` on CPU `i`. -/
def menuScript (n : Nat) (calls : List (BitVec 32) → Option Menu) : Script (Fin n) MenuMem MenuCpu where
  waits i c :=
    match c.pc with
    | .outside => (calls c.past).map fun m => { c with pc := if i.val = 0 then .select m m.preset else .behind }
    | .behind  => some { c with pc := .load }
    | _        => none
  act _ c mem :=
    match c.pc with
    | .select m selection =>
      match mem.keys with
      | []          => none
      | key :: keys => some ({ mem with keys },
          { c with pc := if key = 10 then .store (m.value selection) else .select m (m.move selection key) })
    | .store v => some ({ mem with result := v, stored := mem.stored ++ [v] }, { c with pc := .behind })
    | .load    => some (mem, ⟨c.past ++ [mem.result], .outside⟩)
    | _        => none

def menuStart (n : Nat) (epoch : Unsigned) (result : BitVec 32) (keys : List (BitVec 8)) :
    Rounds (Fin n) MenuMem MenuCpu where
  bar := ⟨0, epoch, BitVec.ofNat 32 n⟩
  thr := fun _ => ⟨0, none⟩
  mem := ⟨result, keys, []⟩
  loc := fun _ => ⟨[], .outside⟩

/-- Each value is one of the menu that the values before it lead to. -/
def MenuAnswers (calls : List (BitVec 32) → Option Menu) (vs : List (BitVec 32)) : Prop :=
  ∀ pre v post, vs = pre ++ v :: post → ∃ m, calls pre = some m ∧ v ∈ m.entries

structure MenuSafe {n : Nat} (calls : List (BitVec 32) → Option Menu) (s : Rounds (Fin n) MenuMem MenuCpu) : Prop where
  agree   : ∀ (i j : Fin n) (k : Nat) (v w : BitVec 32), (s.loc i).past[k]? = some v → (s.loc j).past[k]? = some w → v = w
  /-- What a CPU's calls returned is what CPU 0 selected in the same calls. -/
  same    : ∀ i, (s.loc i).past <+: s.mem.stored
  even    : ∀ i j, (s.loc i).past.length ≤ (s.loc j).past.length + 1
  answers : MenuAnswers calls s.mem.stored

/-! ## The invariant -/

section Inv
variable {n : Nat} {calls : List (BitVec 32) → Option Menu} {mem mem' : MenuMem} {l l' : Fin n → MenuCpu}

theorem MenuAnswers.snoc {vs : List (BitVec 32)} (h : MenuAnswers calls vs) {m : Menu} {v : BitVec 32}
    (hm : calls vs = some m) (hv : v ∈ m.entries) : MenuAnswers calls (vs ++ [v]) := by
  intro pre w post he
  rcases List.eq_nil_or_concat post with rfl | ⟨post', x, rfl⟩
  · obtain ⟨rfl, hw⟩ := List.append_inj' he rfl
    cases hw
    exact ⟨m, hm, hv⟩
  · rw [List.concat_eq_append, ← List.cons_append, ← List.append_assoc] at he
    exact h pre w post' (List.append_inj' he rfl).1

/-- A CPU between the second barrier of a call and the first of the next. -/
def MenuCpu.Between (mem : MenuMem) (c : MenuCpu) : Prop :=
  match c.pc with
  | .outside => c.past = mem.stored
  | .load    => c.past ++ [mem.result] = mem.stored
  | _        => False

/-- CPU 0 between the two barriers of a call of `m`. -/
def MenuCpu.Asks (m : Menu) (mem : MenuMem) (c : MenuCpu) : Prop :=
  match c.pc with
  | .select m' selection => m' = m ∧ selection.toNat < m.entries.length ∧ mem.stored = c.past
  | .store v             => v ∈ m.entries ∧ mem.stored = c.past
  | .behind              => mem.stored = c.past ++ [mem.result]
  | _                    => False

/-- **Between two calls of the barrier all CPUs are at the same place of the same call.** -/
inductive MenuInv (calls : List (BitVec 32) → Option Menu) (mem : MenuMem) (l : Fin n → MenuCpu) : Prop
  | between (h : ∀ i, (l i).Between mem) (ha : MenuAnswers calls mem.stored) : MenuInv calls mem l
  | within (past : List (BitVec 32)) (m : Menu) (hm : calls past = some m) (hp : ∀ i, (l i).past = past)
      (h0 : ∀ i, i.val = 0 → (l i).Asks m mem) (h : ∀ i, i.val ≠ 0 → (l i).pc = .behind)
      (ha : MenuAnswers calls mem.stored) : MenuInv calls mem l

/-- CPU 0 has moved within a call. -/
theorem MenuInv.asked {past : List (BitVec 32)} {m : Menu} (hm : calls past = some m) (hp : ∀ i, (l i).past = past)
    (h : ∀ i, i.val ≠ 0 → (l i).pc = .behind) (ha : MenuAnswers calls mem.stored) {i : Fin n} (hi : i.val = 0)
    {pc : MenuPc} (hasks : MenuCpu.Asks m mem { l i with pc := pc }) :
    MenuInv calls mem (Function.update l i { l i with pc := pc }) := by
  refine .within past m hm ?_ (fun j hj => ?_) (fun j hj => ?_) ha
  · exact (Function.forall_update_iff l fun _ c => c.past = past).2 ⟨hp i, fun j _ => hp j⟩
  · have hji : j = i := Fin.ext (hj.trans hi.symm)
    rwa [hji, Function.update_self]
  · rw [Function.update_of_ne (fun he => hj (by rw [he]; exact hi))]
    exact h j hj

theorem menuInv_act {i : Fin n} {c : MenuCpu} (h : MenuInv calls mem l)
    (hs : (menuScript n calls).act i (l i) mem = some (mem', c)) : MenuInv calls mem' (Function.update l i c) := by
  cases h with
  | between h ha =>
    have hi := h i
    unfold MenuCpu.Between at hi
    unfold menuScript at hs
    cases hpc : (l i).pc with
    | load =>
      simp only [hpc] at hs hi
      cases hs
      exact .between ((Function.forall_update_iff l fun _ c => c.Between mem).2 ⟨hi, fun j _ => h j⟩) ha
    | outside => simp only [hpc] at hs; cases hs
    | _ => simp only [hpc] at hi
  | within past m hm hp h0 h ha =>
    -- only CPU 0 has something to do
    have hi0 : i.val = 0 := by
      by_contra hne
      unfold menuScript at hs
      simp only [h i hne] at hs
      cases hs
    have hi := h0 i hi0
    have hpi := hp i
    unfold MenuCpu.Asks at hi
    unfold menuScript at hs
    cases hpc : (l i).pc with
    | select m' sel =>
      simp only [hpc] at hs hi
      obtain ⟨rfl, hsel, hst⟩ := hi
      cases hk : mem.keys with
      | nil => rw [hk] at hs; cases hs
      | cons key keys =>
        rw [hk] at hs
        cases hs
        refine .asked hm hp h (by exact ha) hi0 ?_
        unfold MenuCpu.Asks
        by_cases hkey : key = 10
        · simp only [if_pos hkey]
          exact ⟨m'.value_mem hsel, hst⟩
        · simp only [if_neg hkey]
          exact ⟨trivial, m'.move_lt hsel key, hst⟩
    | store v =>
      simp only [hpc] at hs hi
      cases hs
      have hst : mem.stored = past := hi.2.trans hpi
      have hanswers : MenuAnswers calls (mem.stored ++ [v]) := ha.snoc (by rw [hst]; exact hm) hi.1
      refine .asked hm hp h hanswers hi0 ?_
      show mem.stored ++ [v] = (l i).past ++ [v]
      rw [hi.2]
    | behind => simp only [hpc] at hs; cases hs
    | outside => simp only [hpc] at hi
    | load => simp only [hpc] at hi

theorem menuInv_sync (hn : 0 < n) (h : MenuInv calls mem l)
    (hw : ∀ i, (menuScript n calls).waits i (l i) = some (l' i)) : MenuInv calls mem l' := by
  unfold menuScript at hw
  cases h with
  | between h ha =>
    -- a call begins
    have hout : ∀ i, ∃ m, calls mem.stored = some m ∧ (l i).past = mem.stored ∧
        l' i = { l i with pc := if i.val = 0 then .select m m.preset else .behind } := by
      intro i
      have hi := h i
      have hwi := hw i
      unfold MenuCpu.Between at hi
      cases hpc : (l i).pc with
      | outside =>
        simp only [hpc] at hi hwi
        obtain ⟨m, hm, he⟩ := Option.map_eq_some_iff.1 hwi
        exact ⟨m, by rw [← hi]; exact hm, hi, he.symm⟩
      | load => simp only [hpc] at hwi; cases hwi
      | _ => simp only [hpc] at hi
    obtain ⟨m, hm, -⟩ := hout ⟨0, hn⟩
    refine .within mem.stored m hm (fun i => ?_) (fun i hi => ?_) (fun i hi => ?_) ha
    · obtain ⟨m', -, hp, he⟩ := hout i
      rw [he]
      exact hp
    · obtain ⟨m', hm', hp, he⟩ := hout i
      obtain rfl : m' = m := Option.some.inj (hm'.symm.trans hm)
      rw [he, if_pos hi]
      exact ⟨rfl, m'.preset_lt, hp.symm⟩
    · obtain ⟨m', -, -, he⟩ := hout i
      rw [he, if_neg hi]
  | within past m hm hp h0 h ha =>
    have hbehind : ∀ i, (l i).pc = .behind := by
      intro i
      by_cases hi : i.val = 0
      · have hwi := hw i
        have h0i := h0 i hi
        unfold MenuCpu.Asks at h0i
        cases hpc : (l i).pc with
        | behind => rfl
        | outside => simp only [hpc] at h0i
        | _ => simp only [hpc] at hwi; cases hwi
      · exact h i hi
    have hst : mem.stored = past ++ [mem.result] := by
      have := h0 ⟨0, hn⟩ rfl
      simp only [MenuCpu.Asks, hbehind] at this
      rw [this, hp]
    refine .between (fun i => ?_) ha
    have hwi := hw i
    simp only [hbehind i] at hwi
    rw [← Option.some.inj hwi]
    show (l i).past ++ [mem.result] = mem.stored
    rw [hp, hst]

theorem menuKeeps (hn : 0 < n) : (menuScript n calls).Keeps (MenuInv calls) where
  act  := fun h _ hs => menuInv_act h hs
  sync := fun h hw => menuInv_sync hn h hw

theorem MenuInv.safe (h : MenuInv calls mem l) : (∀ i, (l i).past <+: mem.stored) ∧
    (∀ i j, (l i).past.length ≤ (l j).past.length + 1) ∧ MenuAnswers calls mem.stored := by
  cases h with
  | between h ha =>
    have hone : ∀ i, (l i).past = mem.stored ∨ (l i).past ++ [mem.result] = mem.stored := by
      intro i
      have hi := h i
      unfold MenuCpu.Between at hi
      split at hi
      · exact .inl hi
      · exact .inr hi
      · exact hi.elim
    refine ⟨fun i => ?_, fun i j => ?_, ha⟩
    · rcases hone i with hi | hi
      · rw [hi]
      · exact ⟨_, hi⟩
    · have hlen : ∀ k, (l k).past.length = mem.stored.length ∨ (l k).past.length + 1 = mem.stored.length := fun k =>
        (hone k).imp (fun hk => by rw [hk]) (fun hk => by rw [← hk, List.length_append, List.length_singleton])
      rcases hlen i with hi | hi <;> rcases hlen j with hj | hj <;> omega
  | within past m hm hp h0 h ha =>
    refine ⟨fun i => ?_, fun i j => ?_, ha⟩
    · by_cases hn : 0 < n
      · have := h0 ⟨0, hn⟩ rfl
        unfold MenuCpu.Asks at this
        rw [hp ⟨0, hn⟩] at this
        rw [hp i]
        split at this
        · rw [this.2.2]
        · rw [this.2]
        · rw [this]; exact List.prefix_append _ _
        · exact this.elim
      · exact absurd i.pos hn
    · rw [hp i, hp j]
      omega

end Inv

/-- **In every round all CPUs get from `menu()` the value that CPU 0 has selected, one of that menu's.** -/
theorem menu_safe (n : Nat) (h1 : 1 ≤ n) (h2 : n < 2 ^ 32) (calls : List (BitVec 32) → Option Menu) (epoch : Unsigned)
    (result : BitVec 32) (keys : List (BitVec 8)) {s : Rounds (Fin n) MenuMem MenuCpu}
    (h : Reach (menuScript n calls).step (menuStart n epoch result keys) s) : MenuSafe calls s := by
  have hcard : Fintype.card (Fin n) = n := Fintype.card_fin n
  have h₀ : (menuScript n calls).InRound (MenuInv calls) 0 (menuStart n epoch result keys) := by
    refine ⟨Episode.fresh (by omega) (by rw [hcard]; rfl) rfl (fun _ => rfl), fun i hi => absurd rfl hi, ?_⟩
    refine .between (fun i => ?_) (fun pre v post he => ?_)
    · rfl
    · cases pre <;> cases he
  obtain ⟨E, hE⟩ := (menuKeeps h1).reach (by omega) h₀ h
  have hpast : ∀ i, ((menuScript n calls).ahead E s.thr s.loc i).past = (s.loc i).past := by
    intro i
    unfold Script.ahead
    split
    · rfl
    · unfold menuScript
      cases hpc : (s.loc i).pc with
      | outside =>
        simp only [hpc]
        cases calls (s.loc i).past <;> rfl
      | _ => simp only [hpc]; rfl
  obtain ⟨hs, he, ha⟩ := hE.inv.safe
  have hpre : ∀ i, (s.loc i).past <+: s.mem.stored := fun i => by
    rw [← hpast i]
    exact hs i
  have hget : ∀ (i : Fin n) (k : Nat) (v : BitVec 32), (s.loc i).past[k]? = some v → s.mem.stored[k]? = some v := by
    intro i k v hv
    obtain ⟨t, ht⟩ := hpre i
    obtain ⟨hk, -⟩ := List.getElem?_eq_some_iff.1 hv
    rw [← ht, List.getElem?_append_left hk]
    exact hv
  refine ⟨fun i j k v w hv hw => ?_, hpre, fun i j => ?_, ha⟩
  · exact Option.some.inj ((hget i k v hv).symm.trans (hget j k w hw))
  · rw [← hpast i, ← hpast j]
    exact he i j

/-- One menu of two entries; CPU 0 goes up from the preset entry and takes the first. -/
theorem menu_safe_two : ∃ s, exec (menuScript 2 fun past => if past = [] then some ⟨[5, 7], 0, 7, by decide, by decide⟩
      else none).step (menuStart 2 0 0 [keyUp, 10])
      [0, 0, 0, 0, 1, 1, 1, 1, 1, 1, 1, 0, 0, 0, 0, 0, 0, 0, 0, 1, 1, 1, 1, 1, 1, 1, 1] = some s ∧
    (s.loc 1).past = [5] ∧ MenuSafe (fun past => if past = [] then some ⟨[5, 7], 0, 7, by decide, by decide⟩ else none) s :=
  ⟨_, rfl, rfl, menu_safe 2 (by decide) (by decide) _ 0 0 [keyUp, 10]
    ⟨[0, 0, 0, 0, 1, 1, 1, 1, 1, 1, 1, 0, 0, 0, 0, 0, 0, 0, 0, 1, 1, 1, 1, 1, 1, 1, 1], rfl⟩⟩

end SmpBoot
