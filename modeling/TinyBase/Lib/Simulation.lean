import Mathlib.Logic.Basic

/-!
# Runs of an implementation and of its specification

`runIn exec ops s` makes the calls `ops` one after the other from the state `s`, in any monad, and
collects their results. A specification is such a machine in `Option`: where it gives nothing it
promises nothing. An implementation that simulates every call that is specified simulates every run
of them (`runIn_of_simulates`).
-/

section
variable {ε σ τ ι ρ : Type}

/-- The calls one after the other, with their results. -/
def runIn {m : Type → Type} [Monad m] (exec : ι → σ → m (ρ × σ)) : List ι → σ → m (List ρ × σ)
  | [], s => pure ([], s)
  | op :: ops, s => do
    let first ← exec op s
    let rest ← runIn exec ops first.2
    pure (first.1 :: rest.1, rest.2)

/-- What the specification promises of a call, the implementation does. -/
def Simulates (exec : ι → σ → Except ε (ρ × σ)) (spec : ι → τ → Option (ρ × τ)) (R : σ → τ → Prop) :
    Prop :=
  ∀ op s t r t', R s t → spec op t = some (r, t') → ∃ s', exec op s = .ok (r, s') ∧ R s' t'

variable {exec : ι → σ → Except ε (ρ × σ)} {spec : ι → τ → Option (ρ × τ)} {R : σ → τ → Prop}

theorem runIn_cons_eq_some {op : ι} {ops : List ι} {t t' : τ} {rs : List ρ}
    (h : runIn spec (op :: ops) t = some (rs, t')) :
    ∃ r t1 rs', spec op t = some (r, t1) ∧ runIn spec ops t1 = some (rs', t') ∧ rs = r :: rs' := by
  rw [runIn, Option.bind_eq_bind, Option.bind_eq_some_iff] at h
  obtain ⟨first, hfirst, h⟩ := h
  rw [Option.bind_eq_bind, Option.bind_eq_some_iff] at h
  obtain ⟨rest, hrest, h⟩ := h
  cases h
  exact ⟨first.1, first.2, rest.1, hfirst, hrest, rfl⟩

/-- The run rule. -/
theorem runIn_of_simulates (hsim : Simulates exec spec R) {ops : List ι} {s : σ} {t t' : τ}
    {rs : List ρ} (hR : R s t) (h : runIn spec ops t = some (rs, t')) :
    ∃ s', runIn exec ops s = .ok (rs, s') ∧ R s' t' := by
  induction ops generalizing s t rs with
  | nil =>
    cases h
    exact ⟨s, rfl, hR⟩
  | cons op ops ih =>
    obtain ⟨r, t1, rs', hspec, hrest, rfl⟩ := runIn_cons_eq_some h
    obtain ⟨s1, hexec, hR1⟩ := hsim op s t r t1 hR hspec
    obtain ⟨s', hrun, hR'⟩ := ih hR1 hrest
    refine ⟨s', ?_, hR'⟩
    rw [runIn, hexec]
    show (runIn exec ops s1 >>= fun rest => pure (r :: rest.1, rest.2)) = _
    rw [hrun]
    rfl

end
