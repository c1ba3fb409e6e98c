import SmpBoot.Lib.Prog
import SmpBoot.Lib.Run
import Mathlib.Algebra.BigOperators.Group.Finset.Piecewise
import Mathlib.Algebra.GroupWithZero.Nat
/-!
# One lock, any number of threads

Threads call operations whose bodies run between a compare-and-swap lock and its release; every access of a body is a
step of its own, and a body may stop for ever inside (it then keeps the lock).  The lock may start out held by one thread
that is already in its first body.  `serializable`: in every state of every interleaving the completed calls, in the
order of their releases, are a one-at-a-time execution with the same results, and the shared state is what that
execution leaves, plus the accesses the current holder has made since.  `finishes`: if each call returns when it is executed
alone, every interleaving can be completed.  Nothing here names a program.
-/
namespace OneLock

open Resume Interleave

variable {ι σ ε κ ρ : Type} [DecidableEq ι]

/-- Where a thread is: between calls, trying to take the lock for a call, or inside the body of one. -/
inductive Pc (σ ε κ ρ : Type) where
  | out
  | want (c : κ)
  | crit (c : κ) (p : Prog σ ε ρ)

def Pc.call : Pc σ ε κ ρ → List κ
  | .out      => []
  | .want c   => [c]
  | .crit c _ => [c]

structure Thread (σ ε κ ρ : Type) where
  todo : List κ
  done : List (κ × ρ)
  pc   : Pc σ ε κ ρ

/-- The lock word is 1 when free and 0 when taken. -/
structure Sys (ι σ ε κ ρ : Type) where
  lock : Nat
  mem  : σ
  thr  : ι → Thread σ ε κ ρ

def Sys.set (s : Sys ι σ ε κ ρ) (i : ι) (t : Thread σ ε κ ρ) : Sys ι σ ε κ ρ :=
  { s with thr := Function.update s.thr i t }

@[simp] theorem Sys.set_lock (s : Sys ι σ ε κ ρ) (i : ι) (t : Thread σ ε κ ρ) : (s.set i t).lock = s.lock := rfl
@[simp] theorem Sys.set_mem (s : Sys ι σ ε κ ρ) (i : ι) (t : Thread σ ε κ ρ) : (s.set i t).mem = s.mem := rfl
@[simp] theorem Sys.set_self (s : Sys ι σ ε κ ρ) (i : ι) (t : Thread σ ε κ ρ) : (s.set i t).thr i = t := by
  simp [Sys.set]
theorem Sys.set_ne (s : Sys ι σ ε κ ρ) {i j : ι} (h : j ≠ i) (t : Thread σ ε κ ρ) : (s.set i t).thr j = s.thr j := by
  simp [Sys.set, h]

/-- **One step of thread `i`**: start the next call, try the lock, one access of the body, or the release. -/
def step (body : κ → Prog σ ε ρ) (s : Sys ι σ ε κ ρ) (i : ι) : Option (Sys ι σ ε κ ρ) :=
  match (s.thr i).pc with
  | .out =>
    match (s.thr i).todo with
    | []      => none
    | c :: cs => some (s.set i { s.thr i with todo := cs, pc := .want c })
  | .want c =>
    if s.lock = 1 then some { s.set i { s.thr i with pc := .crit c (body c) } with lock := 0 } else some s
  | .crit c (.ret a) => some { s.set i { s.thr i with done := (s.thr i).done ++ [(c, a)], pc := .out } with lock := 1 }
  | .crit c (.act u k) => some { s.set i { s.thr i with pc := .crit c (k s.mem) } with mem := u s.mem }
  | .crit _ (.stop _) => none

/-- The lock is held by `i₀`, at the beginning of its call `c₀`; the others have made no call. -/
def start (body : κ → Prog σ ε ρ) (m₀ : σ) (i₀ : ι) (c₀ : κ) (calls : ι → List κ) : Sys ι σ ε κ ρ where
  lock := 0
  mem  := m₀
  thr  := fun i => ⟨calls i, [], if i = i₀ then .crit c₀ (body c₀) else .out⟩

/-- One-at-a-time execution: each call runs alone from where the one before it returned. -/
inductive Serial (body : κ → Prog σ ε ρ) (m₀ : σ) : List (ι × κ × ρ) → σ → Prop
  | nil : Serial body m₀ [] m₀
  | snoc {h : List (ι × κ × ρ)} {m m' : σ} (i : ι) {c : κ} {a : ρ} :
      Serial body m₀ h m → (body c).run m = (m', .ok a) → Serial body m₀ (h ++ [(i, c, a)]) m'

omit [DecidableEq ι] in
theorem Serial.of_nil {body : κ → Prog σ ε ρ} {m₀ m : σ} {h : List (ι × κ × ρ)} (hs : Serial body m₀ h m)
    (hh : h = []) : m = m₀ := by
  cases hs with
  | nil => rfl
  | snoc => simp at hh

omit [DecidableEq ι] in
theorem Serial.uncons {body : κ → Prog σ ε ρ} {m₀ m : σ} {h : List (ι × κ × ρ)} (hs : Serial body m₀ h m) :
    ∀ x t, h = x :: t → ∃ m₁, (body x.2.1).run m₀ = (m₁, .ok x.2.2) ∧ Serial body m₁ t m := by
  induction hs with
  | nil => intro x t h; cases h
  | @snoc h m m' i c a hs hr ih =>
    intro x t ht
    cases h with
    | nil =>
      cases ht
      rw [hs.of_nil rfl] at hr
      exact ⟨m', hr, .nil⟩
    | cons y ys =>
      cases ht
      obtain ⟨m₁, h1, h2⟩ := ih _ _ rfl
      exact ⟨m₁, h1, h2.snoc i hr⟩

/-- The calls of thread `i` in a history, with their results. -/
def of (i : ι) (h : List (ι × κ × ρ)) : List (κ × ρ) := (h.filter (fun x => x.1 = i)).map (·.2)

theorem of_snoc (i j : ι) (h : List (ι × κ × ρ)) (x : κ × ρ) :
    of j (h ++ [(i, x)]) = if i = j then of j h ++ [x] else of j h := by
  unfold of
  rw [List.filter_append, List.map_append]
  by_cases hij : i = j <;> simp [hij]

/-- Who holds the lock, and how far its call has come since the last completed one left `m`. -/
inductive Holder (body : κ → Prog σ ε ρ) (m : σ) (s : Sys ι σ ε κ ρ) : Prop
  | free : s.lock = 1 → s.mem = m → (∀ j c p, (s.thr j).pc ≠ .crit c p) → Holder body m s
  | held (i : ι) (c : κ) (p : Prog σ ε ρ) : s.lock = 0 → (s.thr i).pc = .crit c p →
      Prog.Steps (body c) m p s.mem → (∀ j c p, j ≠ i → (s.thr j).pc ≠ .crit c p) → Holder body m s

/-- **The one-at-a-time history behind a state.** -/
structure Behind (body : κ → Prog σ ε ρ) (m₀ : σ) (i₀ : ι) (c₀ : κ) (calls : ι → List κ) (s : Sys ι σ ε κ ρ)
    (h : List (ι × κ × ρ)) (m : σ) : Prop where
  serial  : Serial body m₀ h m
  results : ∀ i, of i h = (s.thr i).done
  order   : ∀ i, (s.thr i).done.map Prod.fst ++ (s.thr i).pc.call ++ (s.thr i).todo =
    (if i = i₀ then [c₀] else []) ++ calls i
  holder  : Holder body m s
  first   : h = [] → ∃ p, (s.thr i₀).pc = .crit c₀ p
  head    : ∀ x t, h = x :: t → ∃ a, x = (i₀, c₀, a)

variable {body : κ → Prog σ ε ρ} {m₀ : σ} {i₀ : ι} {c₀ : κ} {calls : ι → List κ}

theorem behind_start : Behind body m₀ i₀ c₀ calls (start body m₀ i₀ c₀ calls) [] m₀ where
  serial  := .nil
  results := fun _ => rfl
  order   := fun i => by by_cases hi : i = i₀ <;> simp [start, hi, Pc.call]
  holder  := .held i₀ c₀ (body c₀) rfl (by simp [start]) (.refl _ _) (fun j c p hj => by simp [start, hj])
  first   := fun _ => ⟨body c₀, by simp [start]⟩
  head    := fun _ _ h => by cases h

theorem Holder.of_crit {m : σ} {s : Sys ι σ ε κ ρ} (h : Holder body m s) {i : ι} {c : κ} {p : Prog σ ε ρ}
    (hi : (s.thr i).pc = .crit c p) :
    s.lock = 0 ∧ Prog.Steps (body c) m p s.mem ∧ ∀ j c p, j ≠ i → (s.thr j).pc ≠ .crit c p := by
  cases h with
  | free _ _ hno => exact absurd hi (hno i c p)
  | held i' c' p' hl hp hs hno =>
    by_cases h : i = i'
    · subst h
      rw [hp] at hi
      cases hi
      exact ⟨hl, hs, hno⟩
    · exact absurd hi (hno i c p h)

theorem order_set {s : Sys ι σ ε κ ρ} {i : ι} {t : Thread σ ε κ ρ}
    (h : ∀ i, (s.thr i).done.map Prod.fst ++ (s.thr i).pc.call ++ (s.thr i).todo =
      (if i = i₀ then [c₀] else []) ++ calls i)
    (ht : t.done.map Prod.fst ++ t.pc.call ++ t.todo =
      (s.thr i).done.map Prod.fst ++ (s.thr i).pc.call ++ (s.thr i).todo) :
    ∀ j, ((s.set i t).thr j).done.map Prod.fst ++ ((s.set i t).thr j).pc.call ++ ((s.set i t).thr j).todo =
      (if j = i₀ then [c₀] else []) ++ calls j := by
  intro j
  by_cases hj : j = i
  · subst hj; rw [Sys.set_self, ht]; exact h j
  · rw [Sys.set_ne s hj]; exact h j

section Step
variable {s s' : Sys ι σ ε κ ρ} {i : ι} {h : List (ι × κ × ρ)} {m : σ}

theorem results_set {t : Thread σ ε κ ρ} (h' : ∀ i, of i h = (s.thr i).done) (ht : t.done = (s.thr i).done) :
    ∀ j, of j h = ((s.set i t).thr j).done := by
  intro j
  by_cases hj : j = i
  · subst hj; rw [Sys.set_self, ht]; exact h' j
  · rw [Sys.set_ne s hj]; exact h' j

theorem Behind.begin (hb : Behind body m₀ i₀ c₀ calls s h m) (hpc : (s.thr i).pc = .out) {c : κ} {cs : List κ}
    (htodo : (s.thr i).todo = c :: cs) :
    Behind body m₀ i₀ c₀ calls (s.set i { s.thr i with todo := cs, pc := .want c }) h m where
  serial  := hb.serial
  results := results_set hb.results rfl
  order   := order_set hb.order (by simp [hpc, htodo, Pc.call])
  holder  := by
    cases hb.holder with
    | free hl hm hno => exact .free hl hm (fun j c p hj => hno j c p (by
        by_cases hji : j = i
        · subst hji; simp at hj
        · rwa [Sys.set_ne s hji] at hj))
    | held j d p hl hp hst hno =>
      have hji : j ≠ i := by rintro rfl; rw [hpc] at hp; cases hp
      refine .held j d p hl (by rw [Sys.set_ne s hji]; exact hp) hst (fun k e q hk hq => hno k e q hk ?_)
      by_cases hki : k = i
      · subst hki; simp at hq
      · rwa [Sys.set_ne s hki] at hq
  first   := fun hh => by
    obtain ⟨p, hp⟩ := hb.first hh
    have hi : i₀ ≠ i := by rintro rfl; rw [hpc] at hp; cases hp
    exact ⟨p, by rw [Sys.set_ne s hi]; exact hp⟩
  head    := hb.head

theorem Behind.acquire (hb : Behind body m₀ i₀ c₀ calls s h m) {c : κ} (hpc : (s.thr i).pc = .want c)
    (hlock : s.lock = 1) :
    Behind body m₀ i₀ c₀ calls { s.set i { s.thr i with pc := .crit c (body c) } with lock := 0 } h m := by
  have hfree : s.mem = m ∧ ∀ j c p, (s.thr j).pc ≠ .crit c p := by
    cases hb.holder with
    | free _ hm hno => exact ⟨hm, hno⟩
    | held _ _ _ hl _ _ _ => rw [hl] at hlock; cases hlock
  refine ⟨hb.serial, results_set hb.results rfl, order_set hb.order (by simp [hpc, Pc.call]), ?_, fun hh => ?_, hb.head⟩
  · refine .held i c (body c) rfl (congrArg Thread.pc (Sys.set_self s _ _)) ?_ (fun j d p hj hq => ?_)
    · show Prog.Steps (body c) m (body c) s.mem
      rw [hfree.1]; exact .refl _ _
    · change ((s.set i _).thr j).pc = _ at hq
      rw [Sys.set_ne s hj] at hq
      exact hfree.2 j d p hq
  · obtain ⟨p, hp⟩ := hb.first hh
    exact absurd hp (hfree.2 i₀ c₀ p)

theorem Behind.release (hb : Behind body m₀ i₀ c₀ calls s h m) {c : κ} {a : ρ} (hpc : (s.thr i).pc = .crit c (.ret a)) :
    Behind body m₀ i₀ c₀ calls { s.set i { s.thr i with done := (s.thr i).done ++ [(c, a)], pc := .out } with lock := 1 }
      (h ++ [(i, c, a)]) s.mem := by
  obtain ⟨hl, hst, hno⟩ := hb.holder.of_crit hpc
  have hrun : (body c).run m = (s.mem, .ok a) := by rw [hst.run_eq]; rfl
  refine ⟨.snoc i hb.serial hrun, fun j => ?_, order_set hb.order (by simp [hpc, Pc.call]), ?_, fun hh => by simp at hh,
    fun x t hx => ?_⟩
  · show of j _ = ((s.set i _).thr j).done
    rw [of_snoc]
    by_cases hj : i = j
    · subst hj; rw [if_pos rfl, Sys.set_self, hb.results i]
    · rw [if_neg hj, Sys.set_ne s (Ne.symm hj)]; exact hb.results j
  · refine .free rfl rfl (fun j d p hq => ?_)
    change ((s.set i _).thr j).pc = _ at hq
    by_cases hj : j = i
    · subst hj; rw [Sys.set_self] at hq; cases hq
    · rw [Sys.set_ne s hj] at hq; exact hno j d p hj hq
  · cases h with
    | nil =>
      -- nothing has completed yet, so the one inside is the first holder
      obtain ⟨p, hp⟩ := hb.first rfl
      have hi : i₀ = i := by
        by_contra hne
        exact hno i₀ c₀ p hne hp
      subst hi
      rw [hpc] at hp
      cases hp
      cases hx
      exact ⟨a, rfl⟩
    | cons y t' =>
      cases hx
      exact hb.head _ _ rfl

theorem Behind.access (hb : Behind body m₀ i₀ c₀ calls s h m) {c : κ} {u : σ → σ} {k : σ → Prog σ ε ρ}
    (hpc : (s.thr i).pc = .crit c (.act u k)) :
    Behind body m₀ i₀ c₀ calls { s.set i { s.thr i with pc := .crit c (k s.mem) } with mem := u s.mem } h m := by
  obtain ⟨hl, hst, hno⟩ := hb.holder.of_crit hpc
  refine ⟨hb.serial, results_set hb.results rfl, order_set hb.order (by simp [hpc, Pc.call]), ?_, fun hh => ?_, hb.head⟩
  · refine .held i c (k s.mem) hl (congrArg Thread.pc (Sys.set_self s _ _)) (.snoc hst rfl) (fun j d p hj hq => ?_)
    change ((s.set i _).thr j).pc = _ at hq
    rw [Sys.set_ne s hj] at hq
    exact hno j d p hj hq
  · obtain ⟨p, hp⟩ := hb.first hh
    by_cases hi : i₀ = i
    · subst hi
      rw [hpc] at hp
      cases hp
      exact ⟨k s.mem, congrArg Thread.pc (Sys.set_self s _ _)⟩
    · exact absurd hp (hno i₀ c₀ p hi)

theorem behind_step (hb : Behind body m₀ i₀ c₀ calls s h m) (hs : step body s i = some s') :
    ∃ h' m', Behind body m₀ i₀ c₀ calls s' h' m' := by
  unfold step at hs
  split at hs
  · rename_i hpc
    split at hs
    · cases hs
    · rename_i c cs htodo
      cases hs
      exact ⟨h, m, hb.begin hpc htodo⟩
  · rename_i c hpc
    split at hs
    · rename_i hlock
      cases hs
      exact ⟨h, m, hb.acquire hpc hlock⟩
    · cases hs
      exact ⟨h, m, hb⟩
  · rename_i c a hpc
    cases hs
    exact ⟨h ++ [(i, c, a)], s.mem, hb.release hpc⟩
  · rename_i c u k hpc
    cases hs
    exact ⟨h, m, hb.access hpc⟩
  · cases hs

end Step

/-- **Every state of every interleaving is a one-at-a-time execution plus the holder's accesses.** -/
theorem serializable {s : Sys ι σ ε κ ρ} (h : Reach (step body) (start body m₀ i₀ c₀ calls) s) :
    ∃ hist m, Behind body m₀ i₀ c₀ calls s hist m :=
  h.inv (I := fun s => ∃ hist m, Behind body m₀ i₀ c₀ calls s hist m) ⟨[], m₀, behind_start⟩
    (fun _ _ _ ⟨_, _, hb⟩ hs => behind_step hb hs)

/-- **Until the first call has returned no other thread is inside a body.** -/
theorem Behind.alone {s : Sys ι σ ε κ ρ} {h : List (ι × κ × ρ)} {m : σ} (hb : Behind body m₀ i₀ c₀ calls s h m)
    (hh : h = []) (j : ι) (hj : j ≠ i₀) (c : κ) (p : Prog σ ε ρ) : (s.thr j).pc ≠ .crit c p := by
  obtain ⟨q, hq⟩ := hb.first hh
  exact (hb.holder.of_crit hq).2.2 j c p hj

/-- A body executed by its thread alone ends with the release. -/
theorem exec_body (body : κ → Prog σ ε ρ) {i : ι} {c : κ} {m' : σ} {a : ρ} : ∀ (p : Prog σ ε ρ) (s : Sys ι σ ε κ ρ),
    (s.thr i).pc = .crit c p → p.run s.mem = (m', .ok a) →
    ∃ n s', exec (step body) s (List.replicate n i) = some s' ∧ s'.lock = 1 ∧ s'.mem = m' ∧
      s'.thr i = ⟨(s.thr i).todo, (s.thr i).done ++ [(c, a)], .out⟩ ∧ ∀ j, j ≠ i → s'.thr j = s.thr j
  | .ret r, s, hpc, hr => by
    cases hr
    refine ⟨1, { s.set i { s.thr i with done := (s.thr i).done ++ [(c, a)], pc := .out } with lock := 1 }, ?_, rfl, rfl,
      Sys.set_self s i _, fun j hj => Sys.set_ne s hj _⟩
    simp only [List.replicate_one, exec, step, hpc]
  | .act u k, s, hpc, hr => by
    let t : Sys ι σ ε κ ρ := { s.set i { s.thr i with pc := .crit c (k s.mem) } with mem := u s.mem }
    have hti : t.thr i = { s.thr i with pc := .crit c (k s.mem) } := Sys.set_self s i _
    obtain ⟨n, s', h1, h2, h3, h4, h5⟩ := exec_body body (k s.mem) t (by rw [hti]) hr
    refine ⟨n + 1, s', ?_, h2, h3, by rw [h4, hti], fun j hj => (h5 j hj).trans (Sys.set_ne s hj _)⟩
    simp only [List.replicate_succ, exec, step, hpc]
    exact h1
  | .stop e, s, _, hr => by cases hr

/-- **A call made by one thread alone, with the lock free**: it returns what its body returns, and the lock is free. -/
theorem exec_call {body : κ → Prog σ ε ρ} {s : Sys ι σ ε κ ρ} {i : ι} {c : κ} {m' : σ} {a : ρ} (hl : s.lock = 1)
    (hpc : (s.thr i).pc = .want c) (hr : (body c).run s.mem = (m', .ok a)) :
    ∃ n s', exec (step body) s (List.replicate n i) = some s' ∧ s'.lock = 1 ∧ s'.mem = m' ∧
      s'.thr i = ⟨(s.thr i).todo, (s.thr i).done ++ [(c, a)], .out⟩ ∧ ∀ j, j ≠ i → s'.thr j = s.thr j := by
  let t : Sys ι σ ε κ ρ := { s.set i { s.thr i with pc := .crit c (body c) } with lock := 0 }
  have hti : t.thr i = { s.thr i with pc := .crit c (body c) } := Sys.set_self s i _
  obtain ⟨n, s', h1, h2, h3, h4, h5⟩ := exec_body body (body c) t (by rw [hti]) hr
  refine ⟨n + 1, s', ?_, h2, h3, by rw [h4, hti], fun j hj => (h5 j hj).trans (Sys.set_ne s hj _)⟩
  simp only [List.replicate_succ, exec, step, hpc, hl, if_true]
  exact h1

/-! ## Every run can be completed -/

/-- Two for each call not begun, one for the call under way. -/
def Thread.left (t : Thread σ ε κ ρ) : Nat := 2 * t.todo.length + t.pc.call.length

def Finished (s : Sys ι σ ε κ ρ) : Prop := ∀ i, (s.thr i).todo = [] ∧ (s.thr i).pc = .out

/-- Whatever calls have been completed, each call under way returns if it is executed alone; before the first one only that
one has to. -/
def AllReturn (body : κ → Prog σ ε ρ) (m₀ : σ) (i₀ : ι) (c₀ : κ) (calls : ι → List κ) : Prop :=
  ∀ (s : Sys ι σ ε κ ρ) (h : List (ι × κ × ρ)) (m : σ) (i : ι) (c : κ), Behind body m₀ i₀ c₀ calls s h m →
    c ∈ (s.thr i).pc.call → (h = [] → c = c₀) → ∃ m' a, (body c).run m = (m', .ok a)

section Goes
variable {s : Sys ι σ ε κ ρ} {h : List (ι × κ × ρ)} {m : σ}

/-- The holder of the lock comes to its release. -/
theorem Behind.holder_goes (hb : Behind body m₀ i₀ c₀ calls s h m) (hret : AllReturn body m₀ i₀ c₀ calls) {i : ι} {c : κ}
    {p : Prog σ ε ρ} (hpc : (s.thr i).pc = .crit c p) :
    ∃ t, Reach (step body) s t ∧ (t.thr i).left < (s.thr i).left ∧ ∀ j, j ≠ i → t.thr j = s.thr j := by
  obtain ⟨-, hst, hno⟩ := hb.holder.of_crit hpc
  have hfirst : h = [] → c = c₀ := by
    intro hh
    obtain ⟨q, hq⟩ := hb.first hh
    have hi : i₀ = i := by
      by_contra hne
      exact hno i₀ c₀ q hne hq
    subst hi
    rw [hpc] at hq
    cases hq
    rfl
  obtain ⟨m', a, hr⟩ := hret s h m i c hb (by simp [hpc, Pc.call]) hfirst
  rw [hst.run_eq] at hr
  obtain ⟨n, t, h1, -, -, h4, h5⟩ := exec_body body p s hpc hr
  exact ⟨t, ⟨_, h1⟩, by simp [h4, Thread.left, hpc, Pc.call], h5⟩

/-- **Until all have finished, some thread can come closer to its end**, and no other moves. -/
theorem Behind.goes (hb : Behind body m₀ i₀ c₀ calls s h m) (hret : AllReturn body m₀ i₀ c₀ calls) (hn : ¬ Finished s) :
    ∃ i t, Reach (step body) s t ∧ (t.thr i).left < (s.thr i).left ∧ ∀ j, j ≠ i → t.thr j = s.thr j := by
  cases hb.holder with
  | held i c p _ hpc _ _ => exact ⟨i, hb.holder_goes hret hpc⟩
  | free hl hm hno =>
    by_cases hw : ∃ i c, (s.thr i).pc = .want c
    · obtain ⟨i, c, hpc⟩ := hw
      have hfirst : h = [] → c = c₀ := by
        intro hh
        obtain ⟨q, hq⟩ := hb.first hh
        exact absurd hq (hno i₀ c₀ q)
      obtain ⟨m', a, hr⟩ := hret s h m i c hb (by simp [hpc, Pc.call]) hfirst
      rw [← hm] at hr
      obtain ⟨n, t, h1, -, -, h4, h5⟩ := exec_call hl hpc hr
      exact ⟨i, t, ⟨_, h1⟩, by simp [h4, Thread.left, hpc, Pc.call], h5⟩
    · -- nobody is in a call, so one has not begun all of its own
      have hout : ∀ i, (s.thr i).pc = .out := by
        intro i
        cases hpc : (s.thr i).pc with
        | out => rfl
        | want c => exact absurd ⟨i, c, hpc⟩ hw
        | crit c p => exact absurd hpc (hno i c p)
      obtain ⟨i, hi⟩ : ∃ i, (s.thr i).todo ≠ [] := by
        by_contra hall
        push Not at hall
        exact hn (fun i => ⟨hall i, hout i⟩)
      cases htodo : (s.thr i).todo with
      | nil => exact absurd htodo hi
      | cons c cs =>
        have hstep : step body s i = some (s.set i { s.thr i with todo := cs, pc := .want c }) := by
          simp only [step, hout i, htodo]
        refine ⟨i, _, (Reach.refl s).next hstep, ?_, fun j hj => Sys.set_ne s hj _⟩
        rw [Sys.set_self]
        simp only [Thread.left, htodo, hout i, Pc.call, List.length_cons, List.length_nil]
        omega

/-- **If each call returns when it is executed alone, every interleaving can be completed.** -/
theorem finishes [Fintype ι] (hret : AllReturn body m₀ i₀ c₀ calls)
    (hr : Reach (step body) (start body m₀ i₀ c₀ calls) s) : ∃ t, Reach (step body) s t ∧ Finished t := by
  refine reach_goal (I := fun s => ∃ h m, Behind body m₀ i₀ c₀ calls s h m) (fun s => ∑ i, (s.thr i).left)
    (fun _ _ _ ⟨_, _, hb⟩ hs => behind_step hb hs) ?_ s (serializable hr)
  rintro s ⟨h, m, hb⟩ hn
  obtain ⟨i, t, ht, hlt, ho⟩ := hb.goes hret hn
  exact ⟨t, ht, sum_lt_at i hlt (fun j hj => by rw [ho j hj])⟩

/-- The calls of a finished thread are all its calls. -/
theorem Behind.done_all (hb : Behind body m₀ i₀ c₀ calls s h m) (hf : Finished s) (i : ι) :
    (s.thr i).done.map Prod.fst = (if i = i₀ then [c₀] else []) ++ calls i := by
  have ho := hb.order i
  rw [(hf i).1, (hf i).2] at ho
  simpa [Pc.call] using ho

/-! ## What the calls weigh together -/

theorem sum_of [Fintype ι] (w : κ → Nat) : ∀ h : List (ι × κ × ρ),
    (h.map (fun x => w x.2.1)).sum = ∑ i, (((of i h).map Prod.fst).map w).sum
  | []     => by simp [of]
  | x :: h => by
    have hof : ∀ i, (((of i (x :: h)).map Prod.fst).map w).sum =
        (if x.1 = i then w x.2.1 else 0) + (((of i h).map Prod.fst).map w).sum := by
      intro i
      by_cases hi : x.1 = i <;> simp [of, hi]
    rw [Finset.sum_congr rfl (fun i _ => hof i), Finset.sum_add_distrib, Finset.sum_ite_eq, if_pos (Finset.mem_univ _),
      List.map_cons, List.sum_cons, sum_of w h]

/-- **The completed calls and one under way** weigh at most as much as all calls. -/
theorem Behind.weight_le [Fintype ι] (w : κ → Nat) (hb : Behind body m₀ i₀ c₀ calls s h m) {i : ι} {c : κ}
    (hc : c ∈ (s.thr i).pc.call) :
    (h.map (fun x => w x.2.1)).sum + w c ≤ w c₀ + ∑ j, ((calls j).map w).sum := by
  have hone : ∀ j, (((of j h).map Prod.fst).map w).sum + (if j = i then w c else 0) ≤
      (if j = i₀ then w c₀ else 0) + ((calls j).map w).sum := by
    intro j
    have ho := congrArg (fun l => (l.map w).sum) (hb.order j)
    simp only [List.map_append, List.sum_append] at ho
    rw [hb.results j]
    have hfirst : ((if j = i₀ then [c₀] else []).map w).sum = if j = i₀ then w c₀ else 0 := by
      by_cases hj : j = i₀ <;> simp [hj]
    have hway : (if j = i then w c else 0) ≤ (((s.thr j).pc.call).map w).sum := by
      by_cases hj : j = i
      · subst hj
        rw [if_pos rfl]
        exact List.le_sum_of_mem (List.mem_map_of_mem hc)
      · rw [if_neg hj]
        exact Nat.zero_le _
    omega
  have hsum := Finset.sum_le_sum (fun j (_ : j ∈ Finset.univ) => hone j)
  simp only [Finset.sum_add_distrib, Finset.sum_ite_eq', Finset.mem_univ, if_true] at hsum
  rw [sum_of w h]
  exact hsum

end Goes

end OneLock
