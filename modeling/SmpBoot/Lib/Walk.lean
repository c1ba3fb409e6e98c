import Mathlib.Data.List.Basic
import Mathlib.Data.Fintype.Pigeonhole
import Mathlib.Logic.Function.Iterate
/-!
# Walk — loops over tables of records that fill arrays of a fixed size

A table is read by a cursor: `next` gives the record at the cursor and the cursor behind it, or nothing at the end of the
table.  A table whose records lead back, or have no length, has no end, so the loop over it takes fuel; `Settles` says what a
fuelled computation comes to.  `each_settles_ok`, `each_settles_error` and `each_settles_lost` reduce the loop to a fold over
the list of records, and `Fills` counts what such a fold puts into arrays.  Nothing here names a program.
-/
namespace Walk

variable {α ε ξ σ : Type}

/-! ## Fuel -/

/-- **What a fuelled computation comes to**: `x` once there is enough fuel, and `lost` at most before. -/
structure Settles (lost : ξ) (r : Nat → Except ξ α) (x : Except ξ α) : Prop where
  always     : ∀ n, r n = .error lost ∨ r n = x
  eventually : ∃ N, ∀ n, N ≤ n → r n = x

/-- **Fuel above `n`** is `n` or more and one for the first round. -/
theorem forall_fuel {r : Nat → α} {x : α} {n : Nat} (h : ∀ k ≥ n, r (k + 1) = x) : ∀ fuel > n, r fuel = x := by
  intro fuel hf
  obtain ⟨k, rfl⟩ := Nat.exists_eq_add_of_lt hf
  exact h (n + k) (Nat.le_add_right n k)

theorem Settles.const (lost : ξ) (x : Except ξ α) : Settles lost (fun _ => x) x :=
  ⟨fun _ => .inr rfl, 0, fun _ _ => rfl⟩

theorem Settles.bind {β : Type} {lost : ξ} {r : Nat → Except ξ α} {k : α → Nat → Except ξ β} {a : α} {y : Except ξ β}
    (hr : Settles lost r (.ok a)) (hk : Settles lost (k a) y) : Settles lost (fun n => r n >>= fun a => k a n) y := by
  refine ⟨fun n => ?_, ?_⟩
  · rcases hr.always n with h | h
    · exact .inl (by simp only [h]; rfl)
    · simp only [h]
      exact hk.always n
  · obtain ⟨N, hN⟩ := hr.eventually
    obtain ⟨M, hM⟩ := hk.eventually
    refine ⟨max N M, fun n hn => ?_⟩
    simp only [hN n (Nat.le_trans (Nat.le_max_left N M) hn)]
    exact hM n (Nat.le_trans (Nat.le_max_right N M) hn)

theorem Settles.bind_error {β : Type} {lost : ξ} {r : Nat → Except ξ α} {k : α → Nat → Except ξ β} {e : ξ}
    (hr : Settles lost r (.error e)) : Settles lost (fun n => r n >>= fun a => k a n) (.error e) := by
  refine ⟨fun n => ?_, ?_⟩
  · rcases hr.always n with h | h
    · exact .inl (by simp only [h]; rfl)
    · exact .inr (by simp only [h]; rfl)
  · obtain ⟨N, hN⟩ := hr.eventually
    exact ⟨N, fun n hn => by simp only [hN n hn]; rfl⟩

theorem Settles.map {β : Type} {lost : ξ} {r : Nat → Except ξ α} {x : Except ξ α} (hr : Settles lost r x) (g : α → β) :
    Settles lost (fun n => r n >>= fun a => .ok (g a)) (x >>= fun a => .ok (g a)) := by
  cases x with
  | error e => exact hr.bind_error
  | ok a => exact hr.bind (.const lost (.ok (g a)))

/-- **An error other than the lack of fuel shows with some fuel exactly if it is what the computation comes to.** -/
theorem Settles.forall_ne {lost w : ξ} {r : Nat → Except ξ α} {x : Except ξ α} (h : Settles lost r x) (hw : w ≠ lost) :
    (∀ n, r n ≠ .error w) ↔ x ≠ .error w := by
  constructor
  · obtain ⟨N, hN⟩ := h.eventually
    intro hn hx
    exact hn N ((hN N (Nat.le_refl N)).trans hx)
  · intro hx n hn
    rcases h.always n with hl | hl
    · exact hw (Except.error.inj (hn.symm.trans hl))
    · exact hx (hl.symm.trans hn)

/-- **A fold that comes through follows a fold of another state.** -/
theorem foldlM_sim {β : Type} {f : α → ε → Except ξ α} {g : β → ε → β} {R : α → β → Prop}
    (hf : ∀ a b e a', R a b → f a e = .ok a' → R a' (g b e)) :
    ∀ (es : List ε) {a a' : α} {b : β}, R a b → es.foldlM f a = .ok a' → R a' (es.foldl g b)
  | [],      _, _,  _, hR, h => by cases h; exact hR
  | e :: es, a, a', b, hR, h => by
    rw [List.foldlM_cons] at h
    cases he : f a e with
    | error x => rw [he] at h; cases h
    | ok c => rw [he] at h; exact foldlM_sim hf es (hf a b e c hR he) h

theorem foldlM_inv {f : α → ε → Except ξ α} {P : α → Prop} (hf : ∀ a e a', P a → f a e = .ok a' → P a')
    (es : List ε) {a a' : α} (hP : P a) (h : es.foldlM f a = .ok a') : P a' :=
  foldlM_sim (g := fun u _ => u) (R := fun a _ => P a) (fun a _ e a' => hf a e a') es (b := ()) hP h

/-! ## Walks -/

section
variable (next : σ → Option (ε × σ))

def take : Nat → σ → List ε
  | 0,     _ => []
  | n + 1, s =>
    match next s with
    | none => []
    | some (e, s') => e :: take n s'

def Ends (s : σ) : Prop := ∃ n, (take next n s).length < n

/-- The loop that treats each record as it meets it. -/
def each (f : α → ε → Except ξ α) (lost : ξ) : Nat → σ → α → Except ξ α
  | 0,     _, _ => .error lost
  | n + 1, s, a =>
    match next s with
    | none => .ok a
    | some (e, s') => f a e >>= each f lost n s'

variable {next} in
theorem take_none {s : σ} (h : next s = none) (n : Nat) : take next (n + 1) s = [] := by rw [take, h]

variable {next} in
theorem take_some {s s' : σ} {e : ε} (h : next s = some (e, s')) (n : Nat) :
    take next (n + 1) s = e :: take next n s' := by rw [take, h]

theorem take_start : ∀ {n k : Nat}, n ≤ k → ∀ (s : σ), take next n s <+: take next k s
  | 0,     _,     _, _ => List.nil_prefix
  | n + 1, k + 1, h, s => by
    cases hs : next s with
    | none => rw [take_none hs]; exact List.nil_prefix
    | some es =>
      rw [take_some hs, take_some hs]
      exact (List.prefix_cons_inj _).2 (take_start (Nat.le_of_succ_le_succ h) es.2)

theorem take_of_ended : ∀ {n k : Nat} {s : σ}, (take next n s).length < n → n ≤ k → take next k s = take next n s
  | 0,     _,     _, h, _ => (Nat.not_lt_zero _ h).elim
  | n + 1, k + 1, s, h, hk => by
    cases hs : next s with
    | none => rw [take_none hs, take_none hs]
    | some es =>
      rw [take_some hs] at h
      rw [take_some hs, take_some hs,
        take_of_ended (Nat.lt_of_succ_lt_succ h) (Nat.le_of_succ_le_succ hk)]

theorem take_forall {P : ε → Prop} (h : ∀ s e s', next s = some (e, s') → P e) :
    ∀ (n : Nat) (s : σ), ∀ e ∈ take next n s, P e
  | 0,     _, _, he => (List.not_mem_nil he).elim
  | n + 1, s, e, he => by
    cases hs : next s with
    | none => rw [take_none hs] at he; exact (List.not_mem_nil he).elim
    | some es =>
      rw [take_some hs] at he
      rcases List.mem_cons.1 he with rfl | he
      · exact h s _ _ hs
      · exact take_forall h n es.2 e he

theorem take_map {ζ : Type} (g : ε → ζ) : ∀ (n : Nat) (s : σ),
    take (fun s => (next s).map fun r => (g r.1, r.2)) n s = (take next n s).map g
  | 0,     _ => rfl
  | n + 1, s => by
    cases hs : next s with
    | none => rw [take_none hs, take_none (by rw [hs]; rfl)]; rfl
    | some es =>
      have hg : (next s).map (fun r => (g r.1, r.2)) = some (g es.1, es.2) := by rw [hs]; rfl
      rw [take_some hs, take_some hg, take_map g n, List.map_cons]

variable {next} {f : α → ε → Except ξ α} {lost : ξ}

/-- **The loop is a fold over the records it meets.** -/
theorem each_eq : ∀ (n : Nat) (s : σ) (a : α), each next f lost n s a =
    ((take next n s).foldlM f a >>= fun a' => if (take next n s).length < n then .ok a' else .error lost)
  | 0,     _, _ => rfl
  | n + 1, s, a => by
    cases hs : next s with
    | none => rw [take_none hs, each, hs]; rfl
    | some es =>
      rw [take_some hs, each, hs, List.foldlM_cons]
      show f a es.1 >>= each next f lost n es.2 = _
      cases f a es.1 with
      | error x => rfl
      | ok b =>
        show each next f lost n es.2 b = _
        rw [each_eq n es.2 b]
        simp only [List.length_cons, Nat.succ_lt_succ_iff]
        rfl

theorem foldlM_of_start {es es' : List ε} (hp : es <+: es') {a : α} {x : ξ} (h : es.foldlM f a = .error x) :
    es'.foldlM f a = .error x := by
  obtain ⟨r, rfl⟩ := hp
  rw [List.foldlM_append, h]; rfl

/-- **A table that ends, all of whose records were treated.** -/
theorem each_settles_ok {N : Nat} {s : σ} {a a' : α} (hN : (take next N s).length < N)
    (hf : (take next N s).foldlM f a = .ok a') : Settles lost (fun n => each next f lost n s a) (.ok a') := by
  have hend : ∀ n, (take next n s).length < n → each next f lost n s a = .ok a' := by
    intro n hn
    have he : take next n s = take next N s := by
      rcases Nat.le_total n N with h | h
      · exact (take_of_ended next hn h).symm
      · exact take_of_ended next hN h
    have hn' : (take next N s).length < n := by rw [← he]; exact hn
    rw [each_eq, he, hf]
    show (if (take next N s).length < n then _ else _) = _
    rw [if_pos hn']
  refine ⟨fun n => ?_, N, fun n hn => hend n ?_⟩
  · by_cases hn : (take next n s).length < n
    · exact .inr (hend n hn)
    · left
      -- the fold over fewer records does not fail either
      cases hr : (take next n s).foldlM f a with
      | ok b => rw [each_eq, hr]; exact if_neg hn
      | error x =>
        rcases Nat.le_total n N with h | h
        · rw [foldlM_of_start (take_start next h s) hr] at hf; cases hf
        · rw [take_of_ended next hN h] at hn; exact (hn (Nat.lt_of_lt_of_le hN h)).elim
  · rw [take_of_ended next hN hn]
    exact Nat.lt_of_lt_of_le hN hn

/-- **A table with a record that cannot be treated.** -/
theorem each_settles_error {N : Nat} {s : σ} {a : α} {x : ξ} (hf : (take next N s).foldlM f a = .error x) :
    Settles lost (fun n => each next f lost n s a) (.error x) := by
  have hle : ∀ n, N ≤ n → each next f lost n s a = .error x := by
    intro n hn
    rw [each_eq, foldlM_of_start (take_start next hn s) hf]; rfl
  refine ⟨fun n => ?_, N, hle⟩
  rcases Nat.le_total N n with hn | hn
  · exact .inr (hle n hn)
  · rw [each_eq]
    cases hr : (take next n s).foldlM f a with
    | error y =>
      rw [foldlM_of_start (take_start next hn s) hr] at hf
      exact .inr hf
    | ok b =>
      refine .inl (if_neg fun hlt => ?_)
      rw [take_of_ended next hlt hn, hr] at hf
      cases hf

/-- **A table without an end whose records can all be treated.** -/
theorem each_settles_lost {s : σ} {a : α} (hs : ¬Ends next s) (hf : ∀ n, ∃ a', (take next n s).foldlM f a = .ok a') :
    Settles lost (fun n => each next f lost n s a) (.error lost) := by
  have h : ∀ n, each next f lost n s a = .error lost := by
    intro n
    obtain ⟨a', ha'⟩ := hf n
    rw [each_eq, ha']
    exact if_neg fun hn => hs ⟨n, hn⟩
  exact ⟨fun n => .inl (h n), 0, fun n _ => h n⟩

end

/-! ## Walks in a finite set -/

/-- **A walk leaves a finite set if and only if it never comes back to one of its points.** -/
theorem leaves_iff {f : σ → σ} {P : σ → Prop} [Finite {s // P s}] {s : σ} :
    (∃ n, ¬ P (f^[n] s)) ↔ ∀ i j, i < j → (∀ k ≤ j, P (f^[k] s)) → f^[i] s ≠ f^[j] s := by
  constructor
  · rintro ⟨n, hn⟩ i j hij hlow heq
    -- from `i` on the walk repeats what it did between `i` and `j`
    have hper : ∀ m, f^[i + m] s = f^[j + m] s := by
      intro m
      rw [Nat.add_comm i, Nat.add_comm j, Function.iterate_add_apply, Function.iterate_add_apply, heq]
    have hall : ∀ k, P (f^[k] s) := by
      intro k
      induction k using Nat.strong_induction_on with
      | _ k ih =>
        by_cases hk : k ≤ j
        · exact hlow k hk
        · have h := hper (k - j)
          rw [show j + (k - j) = k by omega] at h
          rw [← h]
          exact ih _ (by omega)
    exact hn (hall n)
  · intro h
    by_contra hno
    have hall : ∀ n, P (f^[n] s) := fun n => by
      by_contra hn
      exact hno ⟨n, hn⟩
    obtain ⟨i, j, hne, heq⟩ := Finite.exists_ne_map_eq_of_infinite (fun n => (⟨f^[n] s, hall n⟩ : {s // P s}))
    have heq := congrArg Subtype.val heq
    rcases Nat.lt_or_gt_of_ne hne with hlt | hlt
    · exact h i j hlt (fun k _ => hall k) heq
    · exact h j i hlt (fun k _ => hall k) heq.symm

/-- A table whose cursor moves the same way at its end and inside. -/
theorem ends_iff {next : σ → Option (ε × σ)} {inside : σ → Prop} [DecidablePred inside] {e : σ → ε} {f : σ → σ}
    (h : ∀ s, next s = if inside s then some (e s, f s) else none) {s : σ} : Ends next s ↔ ∃ n, ¬ inside (f^[n] s) := by
  constructor
  · rintro ⟨n, hn⟩
    induction n generalizing s with
    | zero => exact absurd hn (Nat.not_lt_zero _)
    | succ n ih =>
      by_cases hs : inside s
      · rw [take_some ((h s).trans (if_pos hs))] at hn
        obtain ⟨m, hm⟩ := ih (Nat.lt_of_succ_lt_succ hn)
        exact ⟨m + 1, hm⟩
      · exact ⟨0, hs⟩
  · rintro ⟨n, hn⟩
    induction n generalizing s with
    | zero => exact ⟨1, by rw [take_none ((h s).trans (if_neg hn))]; exact Nat.zero_lt_one⟩
    | succ n ih =>
      by_cases hs : inside s
      · obtain ⟨m, hm⟩ := ih hn
        exact ⟨m + 1, by rw [take_some ((h s).trans (if_pos hs))]; exact Nat.succ_lt_succ hm⟩
      · exact ⟨1, by rw [take_none ((h s).trans (if_neg hs))]; exact Nat.zero_lt_one⟩

/-! ## Filling arrays -/

section
variable {κ : Type} [DecidableEq κ]

/-- **A step that fills arrays**: a record takes the next place of at most one array, `wild` if there is none left. -/
structure Fills (f : α → ε → Except ξ α) (array : ε → Option κ) (cnt : α → κ → Nat) (cap : κ → Nat) (wild : ξ) :
    Prop where
  full : ∀ {a e k}, array e = some k → cap k ≤ cnt a k → f a e = .error wild
  room : ∀ {a e}, (∀ k, array e = some k → cnt a k < cap k) →
    ∃ a', f a e = .ok a' ∧ ∀ k, cnt a' k = cnt a k + (if array e = some k then 1 else 0)

def goTo (array : ε → Option κ) (k : κ) (es : List ε) : Nat := es.countP (fun e => array e = some k)

theorem goTo_cons (array : ε → Option κ) (k : κ) (e : ε) (es : List ε) :
    goTo array k (e :: es) = (if array e = some k then 1 else 0) + goTo array k es := by
  rw [goTo, List.countP_cons, Nat.add_comm]
  simp only [decide_eq_true_eq]
  rfl

theorem goTo_eq_zero {array : ε → Option κ} {k : κ} {es : List ε} (h : ∀ e ∈ es, array e ≠ some k) :
    goTo array k es = 0 :=
  List.countP_eq_zero.2 fun e he hd => h e he (of_decide_eq_true hd)

theorem goTo_eq_length {array : ε → Option κ} {k : κ} {es : List ε} (h : ∀ e ∈ es, array e = some k) :
    goTo array k es = es.length :=
  List.countP_eq_length.2 fun e he => decide_eq_true (h e he)

variable {f : α → ε → Except ξ α} {array : ε → Option κ} {cnt : α → κ → Nat} {cap : κ → Nat} {wild : ξ}

/-- **Records for which there is room are all put in.** -/
theorem Fills.foldlM_ok (h : Fills f array cnt cap wild) : ∀ (es : List ε) {a : α},
    (∀ k, goTo array k es ≠ 0 → cnt a k + goTo array k es ≤ cap k) →
    ∃ a', es.foldlM f a = .ok a' ∧ ∀ k, cnt a' k = cnt a k + goTo array k es
  | [],      a, _ => ⟨a, rfl, fun _ => rfl⟩
  | e :: es, a, hc => by
    simp only [goTo_cons] at hc ⊢
    obtain ⟨b, hb, hcb⟩ := h.room (a := a) (e := e) (fun k hk => by have := hc k; rw [if_pos hk] at this; omega)
    obtain ⟨a', ha', hca'⟩ := h.foldlM_ok es (a := b) (fun k hk => by have := hc k (by omega); have := hcb k; omega)
    refine ⟨a', ?_, fun k => by rw [hca' k, hcb k, Nat.add_assoc]⟩
    rw [List.foldlM_cons, hb]
    exact ha'

/-- **One record too many is a write outside.** -/
theorem Fills.foldlM_wild (h : Fills f array cnt cap wild) : ∀ (es : List ε) {a : α}, (∀ k, cnt a k ≤ cap k) →
    ∀ k, cap k < cnt a k + goTo array k es → es.foldlM f a = .error wild
  | [],      a, hw, k, hk => absurd (hw k) (Nat.not_le.2 hk)
  | e :: es, a, hw, k, hk => by
    rw [List.foldlM_cons]
    by_cases hfull : ∃ j, array e = some j ∧ cap j ≤ cnt a j
    · obtain ⟨j, hj, hle⟩ := hfull
      rw [h.full hj hle]; rfl
    · obtain ⟨b, hb, hcb⟩ := h.room (a := a) (e := e) (fun j hj => Nat.lt_of_not_le fun hle => hfull ⟨j, hj, hle⟩)
      have hwb : ∀ j, cnt b j ≤ cap j := by
        intro j
        rw [hcb j]
        by_cases hj : array e = some j
        · rw [if_pos hj]; exact Nat.lt_of_not_le fun hle => hfull ⟨j, hj, hle⟩
        · rw [if_neg hj]; exact hw j
      rw [hb]
      refine h.foldlM_wild es hwb k ?_
      rw [goTo_cons] at hk
      rw [hcb k]
      omega

end

end Walk
