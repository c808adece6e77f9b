import Mathlib.Logic.Basic

/-!
# Calls made one after the other

A machine `f : σ → Op → ρ × σ` answers one call after the other and never fails. `answers f s ops`
are its answers to the calls `ops`, and `AllCalls f P s ops` says that each call satisfies `P` of
the state before it, the call, its answer and the state after it. Two machines that a relation ties
together give the same answers (`answers_eq`).
-/

section
variable {σ τ Op ρ : Type}

def answers (f : σ → Op → ρ × σ) : σ → List Op → List ρ
  | _, [] => []
  | s, op :: ops => (f s op).1 :: answers f (f s op).2 ops

def AllCalls (f : σ → Op → ρ × σ) (P : σ → Op → ρ → σ → Prop) : σ → List Op → Prop
  | _, [] => True
  | s, op :: ops => P s op (f s op).1 (f s op).2 ∧ AllCalls f P (f s op).2 ops

variable {f : σ → Op → ρ × σ} {g : τ → Op → ρ × τ} {P Q : σ → Op → ρ → σ → Prop} {s : σ}
  {u : τ} {op : Op} {ops : List Op}

@[simp] theorem answers_nil : answers f s [] = [] := rfl

@[simp] theorem answers_cons : answers f s (op :: ops) = (f s op).1 :: answers f (f s op).2 ops :=
  rfl

@[simp] theorem allCalls_nil : AllCalls f P s [] ↔ True := Iff.rfl

@[simp] theorem allCalls_cons :
    AllCalls f P s (op :: ops) ↔ P s op (f s op).1 (f s op).2 ∧ AllCalls f P (f s op).2 ops :=
  Iff.rfl

/-- The run rule: a call that satisfies `P` from a state with `Inv` satisfies `Q` and keeps
`Inv`. -/
theorem AllCalls.of_inv (Inv : σ → Prop)
    (hstep : ∀ s op, Inv s → P s op (f s op).1 (f s op).2 → Q s op (f s op).1 (f s op).2 ∧
      Inv (f s op).2)
    (h : AllCalls f P s ops) (hs : Inv s) : AllCalls f Q s ops := by
  induction ops generalizing s with
  | nil => trivial
  | cons op ops ih =>
    obtain ⟨hcall, hrest⟩ := h
    obtain ⟨hq, hs'⟩ := hstep s op hs hcall
    exact ⟨hq, ih hrest hs'⟩

/-- What holds of every call in every state. -/
theorem AllCalls.of_forall (h : ∀ s, ∀ op ∈ ops, P s op (f s op).1 (f s op).2) :
    AllCalls f P s ops := by
  induction ops generalizing s with
  | nil => trivial
  | cons op ops ih =>
    exact ⟨h s op List.mem_cons_self, ih fun s op' hop' => h s op' (List.mem_cons_of_mem _ hop')⟩

/-- The simulation rule, for the calls that `ok` allows in the second machine. -/
theorem answers_eq {ok : τ → Op → Prop} (R : σ → τ → Prop)
    (hstep : ∀ s u op, R s u → ok u op → (f s op).1 = (g u op).1 ∧ R (f s op).2 (g u op).2)
    (hops : AllCalls g (fun u op _ _ => ok u op) u ops) (h : R s u) :
    answers f s ops = answers g u ops := by
  induction ops generalizing s u with
  | nil => rfl
  | cons op ops ih =>
    obtain ⟨hop, hrest⟩ := hops
    obtain ⟨heq, h'⟩ := hstep s u op h hop
    rw [answers_cons, answers_cons, heq, ih hrest h']

end
