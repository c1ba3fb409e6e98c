/-!
# Programs over a shared state, one atomic access at a time

`Prog σ ε α` is a program that returns an `α`: `act` is one atomic access (an update of the shared state, and a
continuation chosen by the state before it), `stop` is a point the program never leaves (an endless halt).  The same
text has two meanings: `run` executes it alone, and `next` takes one access of it, for a semantics that interleaves
several programs.  `Steps.run_eq` ties the two together.  `Ends` are the rules for pre- and postconditions, `Ignores` those
for what a run does not touch.  Nothing here names a program.
-/
namespace Resume

inductive Prog (σ ε α : Type) where
  | ret (a : α)
  | act (upd : σ → σ) (k : σ → Prog σ ε α)
  | stop (e : ε)

namespace Prog

variable {σ ε α β : Type}

def bind : Prog σ ε α → (α → Prog σ ε β) → Prog σ ε β
  | .ret a,   f => f a
  | .act u k, f => .act u (fun s => (k s).bind f)
  | .stop e,  _ => .stop e

instance : Monad (Prog σ ε) where
  pure := .ret
  bind := bind

def get (f : σ → α) : Prog σ ε α := .act id (fun s => .ret (f s))

def put (u : σ → σ) : Prog σ ε Unit := .act u (fun _ => .ret ())

/-- The program executed alone: the state it leaves behind and what it returns, or where it stops. -/
def run : Prog σ ε α → σ → σ × Except ε α
  | .ret a,   s => (s, .ok a)
  | .act u k, s => (k s).run (u s)
  | .stop e,  s => (s, .error e)

@[simp] theorem run_pure (a : α) (s : σ) : (pure a : Prog σ ε α).run s = (s, .ok a) := rfl
@[simp] theorem run_ret (a : α) (s : σ) : (ret a : Prog σ ε α).run s = (s, .ok a) := rfl
@[simp] theorem run_stop (e : ε) (s : σ) : (stop e : Prog σ ε α).run s = (s, .error e) := rfl
@[simp] theorem run_get (f : σ → α) (s : σ) : (get f : Prog σ ε α).run s = (s, .ok (f s)) := rfl
@[simp] theorem run_put (u : σ → σ) (s : σ) : (put u : Prog σ ε Unit).run s = (u s, .ok ()) := rfl

/-- **Running a sequence**: the second part runs from where the first returned, or not at all. -/
theorem run_bind (f : α → Prog σ ε β) : ∀ (p : Prog σ ε α) (s : σ),
    (p >>= f).run s = match p.run s with
      | (t, .ok a)    => (f a).run t
      | (t, .error e) => (t, .error e)
  | .ret _,   _ => rfl
  | .act u k, s => run_bind f (k s) (u s)
  | .stop _,  _ => rfl

theorem run_bind_ok {f : α → Prog σ ε β} {p : Prog σ ε α} {s t : σ} {a : α} (h : p.run s = (t, .ok a)) :
    (p >>= f).run s = (f a).run t := by
  rw [run_bind, h]

theorem run_bind_inv {f : α → Prog σ ε β} {p : Prog σ ε α} {s t : σ} {b : β} (h : (p >>= f).run s = (t, .ok b)) :
    ∃ m a, p.run s = (m, .ok a) ∧ (f a).run m = (t, .ok b) := by
  rw [run_bind] at h
  split at h
  · rename_i m a hp
    exact ⟨m, a, hp, h⟩
  · cases h

theorem bind_assoc {γ : Type} (f : α → Prog σ ε β) (g : β → Prog σ ε γ) : ∀ p : Prog σ ε α,
    (p >>= f) >>= g = p >>= fun a => f a >>= g
  | .ret _   => rfl
  | .act u k => congrArg (Prog.act u) (funext fun s => bind_assoc f g (k s))
  | .stop _  => rfl

/-- `for (i = 0; i < n; i++) body(i)`. -/
def forN (body : Nat → Prog σ ε Unit) : Nat → Prog σ ε Unit
  | 0     => pure ()
  | n + 1 => do forN body n; body n

/-- **A loop whose passes all return follows its invariant.** -/
theorem run_forN (body : Nat → Prog σ ε Unit) (st : Nat → σ)
    (h : ∀ i, (body i).run (st i) = (st (i + 1), .ok ())) : ∀ n, (forN body n).run (st 0) = (st n, .ok ())
  | 0     => rfl
  | n + 1 => by
    show (forN body n >>= fun _ => body n).run (st 0) = _
    rw [run_bind_ok (run_forN body st h n), h n]

/-! ## Pre- and postconditions

`Ends E p s Q`: `p` executed alone from `s` returns with `Q`, or stops for a reason in `E`. -/

def Ends (E : ε → Prop) (p : Prog σ ε α) (s : σ) (Q : σ → α → Prop) : Prop :=
  match p.run s with
  | (t, .ok a)    => Q t a
  | (_, .error e) => E e

section Rules
variable {E : ε → Prop} {s : σ}

theorem Ends.of_run {p : Prog σ ε α} {t : σ} {a : α} {Q : σ → α → Prop} (h : p.run s = (t, .ok a)) (hQ : Q t a) :
    Ends E p s Q := by
  unfold Ends; rw [h]; exact hQ

theorem Ends.of_error {p : Prog σ ε α} {t : σ} {e : ε} {Q : σ → α → Prop} (h : p.run s = (t, .error e)) (hE : E e) :
    Ends E p s Q := by
  unfold Ends; rw [h]; exact hE

theorem Ends.ok {p : Prog σ ε α} {t : σ} {a : α} {Q : σ → α → Prop} (h : Ends E p s Q) (hr : p.run s = (t, .ok a)) :
    Q t a := by
  unfold Ends at h; rw [hr] at h; exact h

theorem Ends.returns {p : Prog σ ε α} {Q : σ → α → Prop} (h : Ends (fun _ => False) p s Q) :
    ∃ t a, p.run s = (t, .ok a) ∧ Q t a := by
  unfold Ends at h
  split at h
  · rename_i t a hr; exact ⟨t, a, hr, h⟩
  · exact h.elim

theorem Ends.pure {Q : σ → α → Prop} {a : α} (h : Q s a) : Ends E (Pure.pure a) s Q := h
theorem Ends.get {Q : σ → α → Prop} {f : σ → α} (h : Q s (f s)) : Ends E (Prog.get f) s Q := h
theorem Ends.put {Q : σ → Unit → Prop} {u : σ → σ} (h : Q (u s) ()) : Ends E (Prog.put u) s Q := h
theorem Ends.stop {Q : σ → α → Prop} {e : ε} (h : E e) : Ends E (Prog.stop e) s Q := h

theorem Ends.mono {p : Prog σ ε α} {Q Q' : σ → α → Prop} (h : Ends E p s Q) (hQ : ∀ t a, Q t a → Q' t a) :
    Ends E p s Q' := by
  unfold Ends at *
  split at h
  · exact hQ _ _ h
  · exact h

/-- **Two facts about one run**: where both say that it does not stop for a reason, it does not. -/
theorem Ends.and {E' E'' : ε → Prop} {p : Prog σ ε α} {Q Q' : σ → α → Prop} (h : Ends E p s Q) (h' : Ends E' p s Q')
    (hE : ∀ e, E e → E' e → E'' e) : Ends E'' p s (fun t a => Q t a ∧ Q' t a) := by
  unfold Ends at *
  split at h
  · rename_i hr
    rw [hr] at h'
    exact ⟨h, h'⟩
  · rename_i e hr
    rw [hr] at h'
    exact hE e h h'

/-- **Sequencing.** -/
theorem Ends.bind {p : Prog σ ε α} {f : α → Prog σ ε β} {Q : σ → α → Prop} {R : σ → β → Prop} (hp : Ends E p s Q)
    (hf : ∀ t a, Q t a → Ends E (f a) t R) : Ends E (p >>= f) s R := by
  unfold Ends at *
  rw [run_bind]
  split at hp
  · exact hf _ _ hp
  · exact hp

theorem Ends.bind_of_run {p : Prog σ ε α} {f : α → Prog σ ε β} {t : σ} {a : α} {R : σ → β → Prop}
    (hp : p.run s = (t, .ok a)) (hf : Ends E (f a) t R) : Ends E (p >>= f) s R :=
  Ends.bind (Q := fun t' a' => t' = t ∧ a' = a) (Ends.of_run hp ⟨rfl, rfl⟩) (by rintro _ _ ⟨rfl, rfl⟩; exact hf)

/-- **A counting loop keeps its invariant.** -/
theorem Ends.forN {body : Nat → Prog σ ε Unit} (I : Nat → σ → Prop) {n : Nat} (h0 : I 0 s)
    (h : ∀ i t, i < n → I i t → Ends E (body i) t (fun t' _ => I (i + 1) t')) :
    Ends E (Prog.forN body n) s (fun t _ => I n t) := by
  induction n with
  | zero => exact h0
  | succ n ih =>
    exact Ends.bind (ih (fun i t hi => h i t (Nat.lt_succ_of_lt hi))) (fun t _ ht => h n t (Nat.lt_succ_self n) ht)

end Rules

-- from here on a goal is taken apart by the rules, never by evaluating the program
attribute [irreducible] Ends

/-! ## What a run does not touch -/

/-- Every access of the run from `s` is the same after each of the changes `ch`, and commutes with it: what they change is
neither read nor written. -/
def Ignores {ι : Type} (ch : ι → σ → σ) : Prog σ ε α → σ → Prop
  | .ret _,   _ => True
  | .act u k, s => (∀ i, k (ch i s) = k s ∧ u (ch i s) = ch i (u s)) ∧ (k s).Ignores ch (u s)
  | .stop _,  _ => True

section Ignores
variable {ι : Type} {ch : ι → σ → σ} {s : σ}

theorem Ignores.get {f : σ → α} (h : ∀ i, f (ch i s) = f s) : (Prog.get f : Prog σ ε α).Ignores ch s :=
  ⟨fun i => ⟨congrArg Prog.ret (h i), rfl⟩, trivial⟩

theorem Ignores.put {u : σ → σ} (h : ∀ i, u (ch i s) = ch i (u s)) : (Prog.put u : Prog σ ε Unit).Ignores ch s :=
  ⟨fun i => ⟨rfl, h i⟩, trivial⟩

theorem Ignores.bind {f : α → Prog σ ε β} : ∀ {p : Prog σ ε α} {s : σ}, p.Ignores ch s →
    (∀ t a, p.run s = (t, .ok a) → (f a).Ignores ch t) → (p >>= f).Ignores ch s
  | .ret a,   s, _, hf => hf s a rfl
  | .act _ k, s, h, hf =>
    ⟨fun i => ⟨congrArg (fun q : Prog σ ε α => q.bind f) (h.1 i).1, (h.1 i).2⟩,
      Ignores.bind (p := k s) h.2 hf⟩
  | .stop _,  _, _, _ => trivial

theorem Ignores.bind_of_run {f : α → Prog σ ε β} {p : Prog σ ε α} {t : σ} {a : α} (hp : p.Ignores ch s)
    (hr : p.run s = (t, .ok a)) (hf : (f a).Ignores ch t) : (p >>= f).Ignores ch s :=
  hp.bind (fun t' a' h' => by
    rw [hr] at h'
    cases h'
    exact hf)

end Ignores

/-! ## One access at a time -/

def next : Prog σ ε α → σ → Option (Prog σ ε α × σ)
  | .ret _,   _ => none
  | .act u k, s => some (k s, u s)
  | .stop _,  _ => none

inductive Steps : Prog σ ε α → σ → Prog σ ε α → σ → Prop
  | refl (p : Prog σ ε α) (s : σ) : Steps p s p s
  | snoc {p q q' : Prog σ ε α} {s t t' : σ} : Steps p s q t → q.next t = some (q', t') → Steps p s q' t'

theorem run_of_next {p q : Prog σ ε α} {s t : σ} (h : p.next s = some (q, t)) : p.run s = q.run t := by
  cases p with
  | ret a => cases h
  | stop e => cases h
  | act u k => cases h; rfl

/-- **The rest of a program executed alone ends as the whole.** -/
theorem Steps.run_eq {p q : Prog σ ε α} {s t : σ} (h : Steps p s q t) : p.run s = q.run t := by
  induction h with
  | refl => rfl
  | snoc _ hn ih => rw [ih, run_of_next hn]

end Prog
end Resume
