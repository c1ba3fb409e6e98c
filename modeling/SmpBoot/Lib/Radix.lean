import Mathlib.Data.List.Induction
/-!
# Radix trees of tables

A radix tree is walked from a root table: `ch n i` is the table that entry `i` of table `n` refers to, if any.  A path is
the list of indices from the root.  `Tree` says that tables at depth up to `d` are not shared: no table is met on two
paths.  `walk_congr` and `walk_link` say what a change of the entries does to the walk: none at all where no walked entry
changed, exactly one new path where a fresh empty table was linked into an absent entry.  Nothing here names a program.
-/
namespace Radix

variable {N I : Type}

/-- The table at the end of a path. -/
def walk (ch : N → I → Option N) : N → List I → Option N
  | n, []     => some n
  | n, i :: π => (ch n i).bind (fun m => walk ch m π)

/-- **No table is met on two paths** of length at most `d`. -/
def Tree (ch : N → I → Option N) (r : N) (d : Nat) : Prop :=
  ∀ π ρ n, π.length ≤ d → ρ.length ≤ d → walk ch r π = some n → walk ch r ρ = some n → π = ρ

theorem walk_append (ch : N → I → Option N) : ∀ (r : N) (π ρ : List I),
    walk ch r (π ++ ρ) = (walk ch r π).bind (fun n => walk ch n ρ)
  | _, [],     _ => rfl
  | r, i :: π, ρ => by
    simp only [List.cons_append, walk]
    cases ch r i with
    | none => rfl
    | some m => exact walk_append ch m π ρ

theorem walk_snoc (ch : N → I → Option N) (r : N) (π : List I) (i : I) :
    walk ch r (π ++ [i]) = (walk ch r π).bind (fun n => ch n i) := by
  rw [walk_append]
  congr 1; funext n
  simp only [walk]
  cases ch n i <;> rfl

theorem walk_none_of_prefix {ch : N → I → Option N} {r : N} {π : List I} (h : walk ch r π = none) (ρ : List I) :
    walk ch r (π ++ ρ) = none := by
  rw [walk_append, h]; rfl

/-- **What holds of the root and along every reference holds of every table met.** -/
theorem walk_inv {ch : N → I → Option N} {r : N} {d : Nat} {P : N → List I → Prop} (h0 : P r [])
    (hs : ∀ n π i m, π.length < d → P n π → ch n i = some m → P m (π ++ [i])) (π : List I) :
    ∀ n, π.length ≤ d → walk ch r π = some n → P n π := by
  induction π using List.reverseRecOn with
  | nil => intro n _ h; cases h; exact h0
  | append_singleton π i ih =>
    intro n hπ hn
    have hlt : π.length < d := by rw [List.length_append] at hπ; exact hπ
    rw [walk_snoc] at hn
    obtain ⟨m, hm, hi⟩ := Option.bind_eq_some_iff.1 hn
    exact hs m π i n hlt (ih m (Nat.le_of_lt hlt) hm) hi

/-- **A walk depends only on the entries of the tables it meets.** -/
theorem walk_congr {ch ch' : N → I → Option N} {r : N} {d : Nat}
    (h : ∀ π n, π.length < d → walk ch r π = some n → ∀ j, ch' n j = ch n j) (π : List I) (hπ : π.length ≤ d) :
    walk ch' r π = walk ch r π := by
  induction π using List.reverseRecOn with
  | nil => rfl
  | append_singleton π i ih =>
    have hlt : π.length < d := by rw [List.length_append] at hπ; exact hπ
    rw [walk_snoc, walk_snoc, ih (Nat.le_of_lt hlt)]
    cases hw : walk ch r π with
    | none => rfl
    | some n => exact h π n hlt hw i

theorem Tree.congr {ch ch' : N → I → Option N} {r : N} {d : Nat} (ht : Tree ch r d)
    (h : ∀ π n, π.length < d → walk ch r π = some n → ∀ j, ch' n j = ch n j) : Tree ch' r d := by
  intro π ρ n hπ hρ h1 h2
  rw [walk_congr h π hπ] at h1
  rw [walk_congr h ρ hρ] at h2
  exact ht π ρ n hπ hρ h1 h2

section Link

variable {ch ch' : N → I → Option N} {r t g : N} {d : Nat} {π : List I} {i : I}

/-- A fresh empty table `g` is linked into the absent entry `i` of the table `t` at path `π`. -/
structure Link (ch ch' : N → I → Option N) (r t g : N) (d : Nat) (π : List I) (i : I) : Prop where
  depth  : π.length < d
  at_    : walk ch r π = some t
  absent : ch t i = none
  fresh  : ∀ ρ, ρ.length ≤ d → walk ch r ρ ≠ some g
  new    : ch' t i = some g
  empty  : ∀ j, π.length + 1 < d → ch' g j = none
  other  : ∀ ρ n j, ρ.length < d → walk ch r ρ = some n → (n = t → j ≠ i) → ch' n j = ch n j

/-- **Linking a fresh empty table adds one path and changes no other.** -/
theorem walk_link [DecidableEq I] (ht : Tree ch r d) (l : Link ch ch' r t g d π i) (ρ : List I) (hρ : ρ.length ≤ d) :
    walk ch' r ρ = if ρ = π ++ [i] then some g else walk ch r ρ := by
  induction ρ using List.reverseRecOn with
  | nil => simp [walk]
  | append_singleton ρ j ih =>
    have hlt : ρ.length < d := by rw [List.length_append] at hρ; exact hρ
    rw [walk_snoc, walk_snoc, ih (Nat.le_of_lt hlt)]
    by_cases hρπ : ρ = π ++ [i]
    · -- a path through the new table: empty after, absent before
      subst hρπ
      have hlen : π.length + 1 < d := by simpa using hlt
      have hne : (π ++ [i]) ++ [j] ≠ π ++ [i] := by
        intro h; have := congrArg List.length h; simp at this
      have hold : walk ch r (π ++ [i]) = none := by rw [walk_snoc, l.at_]; exact l.absent
      simp only [hne, if_true, if_false, hold, Option.bind_some, Option.bind_none]
      exact l.empty j hlen
    · rw [if_neg hρπ]
      cases hw : walk ch r ρ with
      | none =>
        have hne : ρ ++ [j] ≠ π ++ [i] := by
          intro h
          obtain ⟨rfl, -⟩ := List.append_inj' h rfl
          rw [l.at_] at hw; cases hw
        rw [if_neg hne]; rfl
      | some n =>
        show ch' n j = _
        by_cases hn : n = t ∧ j = i
        · obtain ⟨rfl, rfl⟩ := hn
          obtain rfl : ρ = π := ht ρ π n (Nat.le_of_lt hlt) (Nat.le_of_lt l.depth) hw l.at_
          rw [l.new, if_pos rfl]
        · have hne : ρ ++ [j] ≠ π ++ [i] := by
            intro h
            obtain ⟨rfl, hj⟩ := List.append_inj' h rfl
            rw [l.at_] at hw
            exact hn ⟨(Option.some.inj hw).symm, by simpa using hj⟩
          rw [if_neg hne]
          exact l.other ρ n j hlt hw (fun hnt hji => hn ⟨hnt, hji⟩)

/-- **Linking a fresh empty table keeps the tree a tree.** -/
theorem Tree.link [DecidableEq I] (ht : Tree ch r d) (l : Link ch ch' r t g d π i) : Tree ch' r d := by
  intro ρ τ n hρ hτ h1 h2
  rw [walk_link ht l ρ hρ] at h1
  rw [walk_link ht l τ hτ] at h2
  by_cases hρπ : ρ = π ++ [i] <;> by_cases hτπ : τ = π ++ [i]
  · rw [hρπ, hτπ]
  · rw [if_pos hρπ] at h1; rw [if_neg hτπ] at h2
    cases h1
    exact absurd h2 (l.fresh τ hτ)
  · rw [if_neg hρπ] at h1; rw [if_pos hτπ] at h2
    cases h2
    exact absurd h1 (l.fresh ρ hρ)
  · rw [if_neg hρπ] at h1; rw [if_neg hτπ] at h2
    exact ht ρ τ n hρ hτ h1 h2

end Link
end Radix
