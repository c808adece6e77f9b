import Mathlib.Logic.Basic
import Mathlib.Order.Basic

/-!
# Total correctness for computations that may fail

`Except.wp x Q`: the computation `x` returns, and what it returns satisfies `Q`. A failure does not
satisfy any postcondition, so a `wp` statement also says that no fault is raised on the way.

`iterate` runs the body of a `while` loop until it leaves the loop; the body decides between
another round (`Ctl.next`) and leaving with a result (`Ctl.done`). `wp_iterate` is the loop rule:
an invariant, and a measure that every further round decreases and that starts below the number of
rounds allowed.
-/

namespace Except
variable {ε α β : Type}

/-- `x` returns a value, and the value satisfies `Q`. -/
def wp (x : Except ε α) (Q : α → Prop) : Prop :=
  match x with
  | .ok a => Q a
  | .error _ => False

@[simp] theorem wp_ok (a : α) (Q : α → Prop) : (Except.ok a : Except ε α).wp Q ↔ Q a := Iff.rfl

@[simp] theorem wp_error (e : ε) (Q : α → Prop) : (Except.error e : Except ε α).wp Q ↔ False :=
  Iff.rfl

@[simp] theorem wp_pure (a : α) (Q : α → Prop) : (pure a : Except ε α).wp Q ↔ Q a := Iff.rfl

@[simp] theorem wp_bind (x : Except ε α) (f : α → Except ε β) (Q : β → Prop) :
    (x >>= f).wp Q ↔ x.wp fun a => (f a).wp Q := by
  cases x <;> exact Iff.rfl

@[simp] theorem wp_ite (c : Prop) [Decidable c] (x y : Except ε α) (Q : α → Prop) :
    (if c then x else y).wp Q ↔ (c → x.wp Q) ∧ (¬ c → y.wp Q) := by
  by_cases h : c <;> simp [h]

theorem wp_iff {x : Except ε α} {Q : α → Prop} : x.wp Q ↔ ∃ a, x = .ok a ∧ Q a := by
  cases x <;> simp

theorem wp_eq {x : Except ε α} {a : α} : x.wp (· = a) ↔ x = .ok a := by
  cases x <;> simp

theorem wp.mono {x : Except ε α} {P Q : α → Prop} (h : x.wp P) (hPQ : ∀ a, P a → Q a) : x.wp Q := by
  cases x with
  | ok a => exact hPQ a h
  | error e => exact h

@[simp] theorem ok_bind (a : α) (f : α → Except ε β) : (Except.ok a >>= f) = f a := rfl

@[simp] theorem error_bind (e : ε) (f : α → Except ε β) : (Except.error e >>= f) = Except.error e :=
  rfl

/-- A sequence that returns has returned in both parts. -/
theorem bind_eq_ok {x : Except ε α} {f : α → Except ε β} {b : β} :
    (x >>= f) = .ok b ↔ ∃ a, x = .ok a ∧ f a = .ok b := by
  cases x <;> simp

end Except

/-- What one round of a loop decides: another round from `s`, or leaving the loop with `r`. -/
inductive Ctl (σ ρ : Type) where
  | next (s : σ)
  | done (r : ρ)

namespace Ctl
variable {σ ρ : Type}

/-- `P` of the state if the loop goes on, `Q` of the result if it is left. -/
def Post (P : σ → Prop) (Q : ρ → Prop) : Ctl σ ρ → Prop
  | .next s => P s
  | .done r => Q r

@[simp] theorem post_next (P : σ → Prop) (Q : ρ → Prop) (s : σ) : (Ctl.next s).Post P Q ↔ P s :=
  Iff.rfl

@[simp] theorem post_done (P : σ → Prop) (Q : ρ → Prop) (r : ρ) : (Ctl.done r).Post P Q ↔ Q r :=
  Iff.rfl

end Ctl

section
variable {ε σ ρ : Type}

/-- At most `n` rounds of `body` from `s`; `e` is raised when they do not leave the loop. -/
def iterate (e : ε) (body : σ → Except ε (Ctl σ ρ)) : Nat → σ → Except ε ρ
  | 0, _ => .error e
  | n + 1, s => body s >>= fun
    | .next s' => iterate e body n s'
    | .done r => .ok r

/-- The loop rule for a bound that the state does not show: the invariant carries it. -/
theorem wp_iterate_of_bound {e : ε} {body : σ → Except ε (Ctl σ ρ)}
    (Inv : Nat → σ → Prop) {Q : ρ → Prop}
    (hstep : ∀ k s, Inv k s → (body s).wp (Ctl.Post (fun s' => ∃ k' < k, Inv k' s') Q)) :
    ∀ (n k : Nat) (s : σ), Inv k s → k < n → (iterate e body n s).wp Q := by
  intro n
  induction n with
  | zero => intro k s _ hn; exact absurd hn (Nat.not_lt_zero _)
  | succ n ih =>
    intro k s hs hn
    rw [iterate, Except.wp_bind]
    refine (hstep k s hs).mono fun c hc => ?_
    cases c with
    | next s' =>
      obtain ⟨k', hk', hs'⟩ := hc
      exact ih k' s' hs' (by omega)
    | done r => exact hc

/-- The loop rule: `Inv` is kept by every round, `μ` decreases with every further round. -/
theorem wp_iterate {e : ε} {body : σ → Except ε (Ctl σ ρ)} (Inv : σ → Prop)
    (μ : σ → Nat) {Q : ρ → Prop} (hstep : ∀ s, Inv s →
      (body s).wp (Ctl.Post (fun s' => Inv s' ∧ μ s' < μ s) Q)) (n : Nat) (s : σ) (hs : Inv s)
    (hn : μ s < n) : (iterate e body n s).wp Q := by
  refine wp_iterate_of_bound (fun k s => Inv s ∧ μ s = k) ?_ n (μ s) s ⟨hs, rfl⟩ hn
  rintro _ s ⟨hs, rfl⟩
  refine (hstep s hs).mono fun c hc => ?_
  cases c with
  | next s' => exact ⟨μ s', hc.2, hc.1, rfl⟩
  | done r => exact hc

/-- The loop rule without termination: if the loop returns, what it returns satisfies `Q`. -/
theorem of_iterate_ok {e : ε} {body : σ → Except ε (Ctl σ ρ)} (Inv : σ → Prop) {Q : ρ → Prop}
    (hstep : ∀ s c, Inv s → body s = .ok c → c.Post Inv Q) :
    ∀ (n : Nat) (s : σ) (r : ρ), Inv s → iterate e body n s = .ok r → Q r := by
  intro n
  induction n with
  | zero => intro s r _ h; cases h
  | succ n ih =>
    intro s r hs h
    rw [iterate, Except.bind_eq_ok] at h
    obtain ⟨c, hc, h⟩ := h
    have hpost := hstep s c hs hc
    cases c with
    | next s' => exact ih s' r hpost h
    | done r' => cases h; exact hpost

/-- More rounds than needed change nothing. -/
theorem iterate_ok_mono {e : ε} {body : σ → Except ε (Ctl σ ρ)} {k n : Nat}
    (hkn : k ≤ n) {s : σ} {r : ρ} (h : iterate e body k s = .ok r) :
    iterate e body n s = .ok r := by
  induction k generalizing n s with
  | zero => cases h
  | succ k ih =>
    obtain ⟨n, rfl⟩ : ∃ n', n = n' + 1 := ⟨n - 1, by omega⟩
    rw [iterate, Except.bind_eq_ok] at h ⊢
    obtain ⟨c, hc, h⟩ := h
    refine ⟨c, hc, ?_⟩
    cases c with
    | next s' => exact ih (Nat.le_of_succ_le_succ hkn) h
    | done r' => exact h

/-- `s'` is reached from `s` by rounds that go on. -/
inductive Rounds (body : σ → Except ε (Ctl σ ρ)) (s : σ) : σ → Prop where
  | refl : Rounds body s s
  | next {s' s'' : σ} : Rounds body s s' → body s' = .ok (.next s'') → Rounds body s s''

/-- The loop from `s` is left with `r`, after however many rounds. -/
inductive Leaves (body : σ → Except ε (Ctl σ ρ)) : σ → ρ → Prop where
  | done {s : σ} {r : ρ} : body s = .ok (.done r) → Leaves body s r
  | next {s s' : σ} {r : ρ} : body s = .ok (.next s') → Leaves body s' r → Leaves body s r

namespace Leaves
variable {body : σ → Except ε (Ctl σ ρ)} {s s' : σ} {r r' : ρ}

theorem of_iterate {e : ε} {n : Nat} (h : iterate e body n s = .ok r) : Leaves body s r := by
  induction n generalizing s with
  | zero => cases h
  | succ n ih =>
    rw [iterate, Except.bind_eq_ok] at h
    obtain ⟨c, hc, h⟩ := h
    cases c with
    | next s' => exact .next hc (ih h)
    | done r' => cases h; exact .done hc

theorem body_ok (h : Leaves body s r) : ∃ c, body s = .ok c := by
  cases h with
  | done h => exact ⟨_, h⟩
  | next h _ => exact ⟨_, h⟩

theorem of_next (h : Leaves body s r) (hs : body s = .ok (.next s')) : Leaves body s' r := by
  cases h with
  | done h => rw [hs] at h; cases h
  | next h hrest => rw [hs] at h; cases h; exact hrest

theorem of_done (h : Leaves body s r) (hs : body s = .ok (.done r')) : r = r' := by
  cases h with
  | done h => rw [hs] at h; cases h; rfl
  | next h _ => rw [hs] at h; cases h

theorem of_rounds (h : Leaves body s r) (hs : Rounds body s s') : Leaves body s' r := by
  induction hs with
  | refl => exact h
  | next _ hbody ih => exact ih.of_next hbody

end Leaves

/-- A loop that is left by returning has run the body without a failure in every state reached. -/
theorem ok_of_rounds {e : ε} {body : σ → Except ε (Ctl σ ρ)} {n : Nat} {s s' : σ} {r : ρ}
    (h : iterate e body n s = .ok r) (hs : Rounds body s s') : ∃ c, body s' = .ok c :=
  ((Leaves.of_iterate h).of_rounds hs).body_ok

end
