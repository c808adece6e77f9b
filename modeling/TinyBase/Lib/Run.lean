import TinyBase.Lib.Wp

/-!
# Runs of operations

`exec op s` runs one operation from the state `s`: it may fail, and otherwise returns a result and
the next state. `Always exec P ops s`: no operation of the run `ops` from `s` fails, and each
satisfies `P` of the state before, the operation, its result and the state after. `Respects` is the
callers' side: each operation of the run is called in a state that meets its precondition.
-/

section
variable {ε σ ι ρ : Type}

/-- No operation of the run fails, and each satisfies `P`. -/
def Always (exec : ι → σ → Except ε (ρ × σ)) (P : σ → ι → ρ → σ → Prop) : List ι → σ → Prop
  | [], _ => True
  | op :: ops, s => (exec op s).wp fun (r, s') => P s op r s' ∧ Always exec P ops s'

/-- Each operation of the run is called in a state that meets its precondition. -/
def Respects (exec : ι → σ → Except ε (ρ × σ)) (Pre : σ → ι → Prop) : List ι → σ → Prop
  | [], _ => True
  | op :: ops, s => Pre s op ∧ ∀ r s', exec op s = .ok (r, s') → Respects exec Pre ops s'

variable {exec : ι → σ → Except ε (ρ × σ)} {P Q : σ → ι → ρ → σ → Prop} {Pre : σ → ι → Prop}

@[simp] theorem always_nil (s : σ) : Always exec P [] s ↔ True := Iff.rfl

theorem always_cons (op : ι) (ops : List ι) (s : σ) :
    Always exec P (op :: ops) s ↔ (exec op s).wp fun (r, s') => P s op r s' ∧
      Always exec P ops s' := Iff.rfl

theorem always_cons_of_eq {op : ι} {ops : List ι} {s s' : σ} {r : ρ} (h : exec op s = .ok (r, s')) :
    Always exec P (op :: ops) s ↔ P s op r s' ∧ Always exec P ops s' := by
  rw [always_cons, h]; rfl

/-- The run rule: every operation called under its precondition keeps `Inv` and satisfies `P`. -/
theorem always_of_inv (Inv : σ → Prop)
    (hstep : ∀ s op, Inv s → Pre s op → (exec op s).wp fun (r, s') => P s op r s' ∧ Inv s') :
    ∀ (ops : List ι) (s : σ), Inv s → Respects exec Pre ops s → Always exec P ops s := by
  intro ops
  induction ops with
  | nil => intros; trivial
  | cons op ops ih =>
    intro s hs hpre
    obtain ⟨⟨r, s'⟩, he, hP, hs'⟩ := Except.wp_iff.1 (hstep s op hs hpre.1)
    exact (always_cons_of_eq he).2 ⟨hP, ih s' hs' (hpre.2 r s' he)⟩

end
