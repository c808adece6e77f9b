import TinyBase.Lib.Shared

/-!
# Programs as points

What is left of a call is one of a few continuations, and a proof about all interleavings goes
through these one by one. `CallPoints` names them: a point stands for a continuation, and `step`
says what its next access does and which point it leads to. `At` puts every thread at a point.
-/

section
variable {θ Op Loc Val ρ P : Type}

/-- What an access of a call leads to. -/
inductive Outcome (P ρ : Type) where
  | goes (pt : P)
  | returns (r : ρ)

namespace Outcome

def point : Outcome P ρ → Option P
  | goes pt => some pt
  | returns _ => none

/-- What the history records of it. -/
def events (t : θ) (op : Op) : Outcome P ρ → List (Event θ Op Loc Val ρ)
  | goes _ => []
  | returns r => [.ret t op r]

def rest (f : P → Prog Loc Val ρ) : Outcome P ρ → Prog Loc Val ρ
  | goes pt => f pt
  | returns r => .ret r

end Outcome

/-- The points of the calls, and one access from each of them. -/
structure CallPoints (Op Loc Val ρ P : Type) [DecidableEq Loc] where
  op : P → Op
  rest : P → Prog Loc Val ρ
  step : (Loc → Val) → P → Access Loc Val × (Loc → Val) × Outcome P ρ
  access_rest : ∀ mem pt,
    (rest pt).access mem = some ((step mem pt).1, (step mem pt).2.1, (step mem pt).2.2.rest rest)
  op_step : ∀ mem pt pt', (step mem pt).2.2 = .goes pt' → op pt' = op pt

namespace Shared
variable [DecidableEq Loc] {C : CallPoints Op Loc Val ρ P} {s s' : Shared θ Op Loc Val ρ}
  {points : θ → Option P} {t : θ}

/-- Every thread stands where `points` says. -/
def At (C : CallPoints Op Loc Val ρ P) (s : Shared θ Op Loc Val ρ) (points : θ → Option P) : Prop :=
  ∀ t, s.running t = (points t).map fun pt => (C.op pt, C.rest pt)

theorem At.eq_none (h : At C s points) (hidle : s.running t = none) : points t = none := by
  have hrun := h t
  rw [hidle] at hrun
  exact Option.map_eq_none_iff.1 hrun.symm

theorem At.eq_some (h : At C s points) {pt : P} (hpt : points t = some pt) :
    s.running t = some (C.op pt, C.rest pt) := by
  rw [h t, hpt]
  rfl

variable [DecidableEq θ]

theorem after_rest (C : CallPoints Op Loc Val ρ P) (s : Shared θ Op Loc Val ρ) (t : θ) (op : Op)
    (a : Access Loc Val) (mem : Loc → Val) (out : Outcome P ρ) :
    s.after t op a mem (out.rest C.rest) =
      ⟨mem, Function.update s.running t (out.point.map fun pt => (op, C.rest pt)),
      s.history ++ .access t op a :: out.events t op⟩ := by
  cases out with
  | returns r => rfl
  | goes pt =>
    -- a continuation that makes an access is not a return
    have hacc := C.access_rest mem pt
    show s.after t op a mem (C.rest pt) = ⟨mem, Function.update s.running t (some (op, C.rest pt)),
      _⟩
    cases hrest : C.rest pt with
    | ret r => rw [hrest] at hacc; cases hacc
    | read l k => rfl
    | write l v k => rfl
    | rmw l f k => rfl

theorem At.access (h : At C s points) (hacc : s.access t = some s') : ∃ pt, points t = some pt ∧
    At C s' (Function.update points t (C.step s.mem pt).2.2.point) ∧
      s'.mem = (C.step s.mem pt).2.1 ∧
    s'.history = s.history ++ .access t (C.op pt) (C.step s.mem pt).1 ::
      (C.step s.mem pt).2.2.events t (C.op pt) := by
  obtain ⟨op, prog, a, mem, rest, hrun, hprog, rfl⟩ := access_cases hacc
  rw [h t] at hrun
  obtain ⟨pt, hpt, hcall⟩ := Option.map_eq_some_iff.1 hrun
  cases hcall
  rw [C.access_rest] at hprog
  cases hprog
  rw [after_rest]
  refine ⟨pt, hpt, fun u => ?_, rfl, rfl⟩
  show Function.update _ _ _ _ = _
  by_cases hut : u = t
  · subst hut
    rw [Function.update_self, Function.update_self]
    refine Option.map_congr fun pt' hpt' => ?_
    cases hout : (C.step s.mem pt).2.2 with
    | goes pt'' =>
      rw [hout] at hpt'
      cases hpt'
      rw [C.op_step _ _ _ hout]
    | returns r => rw [hout] at hpt'; cases hpt'
  · rw [Function.update_of_ne hut, Function.update_of_ne hut]
    exact h u

theorem At.call {code : Op → Prog Loc Val ρ} (h : At C s points) (pt : P)
    (hcode : code (C.op pt) = C.rest pt) :
    At C (s.call code t (C.op pt)) (Function.update points t (some pt)) := by
  intro u
  show Function.update _ _ _ _ = _
  by_cases hut : u = t
  · subst hut
    rw [Function.update_self, Function.update_self, hcode]
    rfl
  · rw [Function.update_of_ne hut, Function.update_of_ne hut]
    exact h u

end Shared

end
