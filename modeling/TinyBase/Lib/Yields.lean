import TinyBase.Lib.Wp

/-!
# Iterators

An iterator is a function of its state that gives a value and the next state, or no value at the
end. `Yields` is the run that calls it until the end.
-/

section
variable {ε σ α β : Type} {next : σ → Except ε (Option α × σ)} {s s' : σ} {as : List α}

/-- From `s` on the calls give the values `as` and then none; the last one leaves `s'`. -/
inductive Yields (next : σ → Except ε (Option α × σ)) : σ → List α → σ → Prop where
  | nil {s s' : σ} (h : next s = .ok (none, s')) : Yields next s [] s'
  | cons {s s1 s' : σ} {a : α} {as : List α} (h : next s = .ok (some a, s1))
      (hrest : Yields next s1 as s') : Yields next s (a :: as) s'

namespace Yields

/-- The rule: `Inv as s` says what is still to come, and each call gives the first of it. -/
theorem of_inv {Q : σ → Prop} (Inv : List α → σ → Prop)
    (hnil : ∀ s, Inv [] s → (next s).wp fun r => r.1 = none ∧ Q r.2)
    (hcons : ∀ a as s, Inv (a :: as) s → (next s).wp fun r => r.1 = some a ∧ Inv as r.2)
    (h : Inv as s) : ∃ s', Yields next s as s' ∧ Q s' := by
  induction as generalizing s with
  | nil =>
    obtain ⟨⟨r, s'⟩, hrun, hr, hQ⟩ := Except.wp_iff.1 (hnil s h)
    dsimp only at hr
    subst hr
    exact ⟨s', .nil hrun, hQ⟩
  | cons a as ih =>
    obtain ⟨⟨r, s1⟩, hrun, hr, hinv⟩ := Except.wp_iff.1 (hcons a as s h)
    dsimp only at hr
    subst hr
    obtain ⟨s', hrest, hQ⟩ := ih hinv
    exact ⟨s', .cons hrun hrest, hQ⟩

/-- A run goes from each state with the same first call. -/
theorem congr {t : σ} (h : Yields next s as s') (hst : next t = next s) : Yields next t as s' := by
  cases h with
  | nil h => exact .nil (hst.trans h)
  | cons h hrest => exact .cons (hst.trans h) hrest

end Yields

end
