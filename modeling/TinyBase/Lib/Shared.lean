import Mathlib.Data.List.Nodup
import Mathlib.Logic.Function.Basic
import Mathlib.Logic.Relation

/-!
# Threads over a shared memory

A call is a `Prog`: what it does to the shared memory, one atomic access after the other, until it
returns. In a `Shared` state any number of threads each run at most one call, and one step either
begins a call or makes the next access of a running call, so the runs are all the sequentially
consistent interleavings. `Allowed` restricts them: to what the clients promise, or to a class of
schedules. A call returns with its last access. The state keeps the history of what has happened,
from which a proof reads its logs.
-/

section
variable {θ Op Loc Val ρ α β : Type}

/-- What is left of a call. -/
inductive Prog (Loc Val ρ : Type) where
  | ret (r : ρ)
  | read (l : Loc) (k : Val → Prog Loc Val ρ)
  | write (l : Loc) (v : Val) (k : Prog Loc Val ρ)
  /-- An atomic read-modify-write: `f` of the value at `l` is stored there, and the old value is
  passed on. -/
  | rmw (l : Loc) (f : Val → Val) (k : Val → Prog Loc Val ρ)

/-- An access that was made, with the values it saw and stored. -/
inductive Access (Loc Val : Type) where
  | read (l : Loc) (v : Val)
  | write (l : Loc) (v : Val)
  | rmw (l : Loc) (old new : Val)
deriving DecidableEq

namespace Prog

def bind : Prog Loc Val α → (α → Prog Loc Val β) → Prog Loc Val β
  | ret r, j => j r
  | read l k, j => read l fun v => (k v).bind j
  | write l v k, j => write l v (k.bind j)
  | rmw l f k, j => rmw l f fun v => (k v).bind j

instance : Monad (Prog Loc Val) where
  pure := ret
  bind := bind

/-- A read of `l`. -/
def load (l : Loc) : Prog Loc Val Val := read l ret

/-- A write to `l`. -/
def store (l : Loc) (v : Val) : Prog Loc Val Unit := write l v (ret ())

/-- An atomic exchange. -/
def exchange (l : Loc) (v : Val) : Prog Loc Val Val := rmw l (fun _ => v) ret

/-- An atomic compare-exchange: whether the value was `compare`, and `v` is now in its place. -/
def compareExchange [DecidableEq Val] (l : Loc) (compare v : Val) : Prog Loc Val Bool :=
  rmw l (fun old => if old = compare then v else old) fun old => ret (decide (old = compare))

/-- An atomic addition: the new value. -/
def addFetch [Add Val] (l : Loc) (v : Val) : Prog Loc Val Val :=
  rmw l (fun old => old + v) fun old => ret (old + v)

variable [DecidableEq Loc]

/-- The next access, the memory after it and what is left of the call. -/
def access (mem : Loc → Val) :
    Prog Loc Val ρ → Option (Access Loc Val × (Loc → Val) × Prog Loc Val ρ)
  | ret _ => none
  | read l k => some (.read l (mem l), mem, k (mem l))
  | write l v k => some (.write l v, Function.update mem l v, k)
  | rmw l f k => some (.rmw l (mem l) (f (mem l)), Function.update mem l (f (mem l)), k (mem l))

/-- The call on its own: its result and the memory after it. -/
def run (mem : Loc → Val) : Prog Loc Val ρ → ρ × (Loc → Val)
  | ret r => (r, mem)
  | read l k => (k (mem l)).run mem
  | write l v k => k.run (Function.update mem l v)
  | rmw l f k => (k (mem l)).run (Function.update mem l (f (mem l)))

/-- An access to `l` is among those that the call makes, for some values that it reads. -/
inductive Touches (l : Loc) : Prog Loc Val ρ → Prop where
  | read (k : Val → Prog Loc Val ρ) : Touches l (read l k)
  | write (v : Val) (k : Prog Loc Val ρ) : Touches l (write l v k)
  | rmw (f : Val → Val) (k : Val → Prog Loc Val ρ) : Touches l (rmw l f k)
  | afterRead {l' : Loc} {k : Val → Prog Loc Val ρ} (v : Val) (h : Touches l (k v)) :
      Touches l (.read l' k)
  | afterWrite {l' : Loc} {v : Val} {k : Prog Loc Val ρ} (h : Touches l k) :
      Touches l (.write l' v k)
  | afterRmw {l' : Loc} {f : Val → Val} {k : Val → Prog Loc Val ρ} (v : Val) (h : Touches l (k v)) :
      Touches l (.rmw l' f k)

section
variable {mem : Loc → Val}

theorem run_pure (r : ρ) : (pure r : Prog Loc Val ρ).run mem = (r, mem) := rfl

theorem run_load (l : Loc) : (load l : Prog Loc Val Val).run mem = (mem l, mem) := rfl

theorem run_store (l : Loc) (v : Val) : (store l v).run mem = ((), Function.update mem l v) := rfl

theorem run_exchange (l : Loc) (v : Val) :
    (exchange l v).run mem = (mem l, Function.update mem l v) := rfl

theorem run_addFetch [Add Val] (l : Loc) (v : Val) :
    (addFetch l v).run mem = (mem l + v, Function.update mem l (mem l + v)) := rfl

theorem run_compareExchange_of_eq [DecidableEq Val] {l : Loc} {compare : Val}
    (v : Val) (h : mem l = compare) :
    (compareExchange l compare v).run mem = (true, Function.update mem l v) := by
  show (decide (mem l = compare), Function.update mem l (if mem l = compare then v else mem l)) = _
  rw [if_pos h, decide_eq_true h]

theorem run_compareExchange_of_ne [DecidableEq Val] {l : Loc} {compare : Val}
    (v : Val) (h : mem l ≠ compare) : (compareExchange l compare v).run mem = (false, mem) := by
  show (decide (mem l = compare), Function.update mem l (if mem l = compare then v else mem l)) = _
  rw [if_neg h, decide_eq_false h, Function.update_eq_self]

theorem run_bind (p : Prog Loc Val α) (j : α → Prog Loc Val β) :
    (p >>= j).run mem = (j (p.run mem).1).run (p.run mem).2 := by
  induction p generalizing mem with
  | ret r => rfl
  | read l k ih => exact ih (mem l)
  | write l v k ih => exact ih
  | rmw l f k ih => exact ih (mem l)

end

end Prog

/-- What happens in a run. -/
inductive Event (θ Op Loc Val ρ : Type) where
  | call (t : θ) (op : Op)
  | access (t : θ) (op : Op) (a : Access Loc Val)
  | ret (t : θ) (op : Op) (r : ρ)
deriving DecidableEq

/-- The memory, the call that each thread is in, and the history. -/
structure Shared (θ Op Loc Val ρ : Type) where
  mem : Loc → Val
  running : θ → Option (Op × Prog Loc Val ρ)
  history : List (Event θ Op Loc Val ρ)

namespace Shared
variable [DecidableEq θ] [DecidableEq Loc] {s s' : Shared θ Op Loc Val ρ} {t : θ}

/-- No thread is in a call, and nothing has happened yet. -/
def init (mem : Loc → Val) : Shared θ Op Loc Val ρ := ⟨mem, fun _ => none, []⟩

/-- No thread is in a call. -/
def Quiescent (s : Shared θ Op Loc Val ρ) : Prop := ∀ t, s.running t = none

/-- Thread `t` begins the call `op`. -/
def call (code : Op → Prog Loc Val ρ) (s : Shared θ Op Loc Val ρ) (t : θ) (op : Op) :
    Shared θ Op Loc Val ρ :=
  ⟨s.mem, Function.update s.running t (some (op, code op)), s.history ++ [.call t op]⟩

/-- Thread `t`, in the call `op`, has made the access `a`. -/
def after (s : Shared θ Op Loc Val ρ) (t : θ) (op : Op) (a : Access Loc Val) (mem : Loc → Val) :
    Prog Loc Val ρ → Shared θ Op Loc Val ρ
  | .ret r => ⟨mem, Function.update s.running t none, s.history ++ [.access t op a, .ret t op r]⟩
  | rest => ⟨mem, Function.update s.running t (some (op, rest)), s.history ++ [.access t op a]⟩

/-- Thread `t` makes its next access. -/
def access (s : Shared θ Op Loc Val ρ) (t : θ) : Option (Shared θ Op Loc Val ρ) :=
  match s.running t with
  | none => none
  | some (op, prog) => (prog.access s.mem).map fun (a, mem, rest) => s.after t op a mem rest

theorem access_cases (h : s.access t = some s') : ∃ op prog a mem rest,
    s.running t = some (op, prog) ∧ prog.access s.mem = some (a, mem, rest) ∧
      s' = s.after t op a mem rest := by
  unfold access at h
  split at h
  · cases h
  · next op prog hrun =>
    obtain ⟨⟨a, mem, rest⟩, hacc, rfl⟩ := Option.map_eq_some_iff.1 h
    exact ⟨op, prog, a, mem, rest, hrun, hacc, rfl⟩

/-- One step of some thread. `Allowed s t (some op)`: thread `t` may begin the call `op`;
`Allowed s t none`: it may make its next access. -/
inductive Step (code : Op → Prog Loc Val ρ)
    (Allowed : Shared θ Op Loc Val ρ → θ → Option Op → Prop) :
    Shared θ Op Loc Val ρ → Shared θ Op Loc Val ρ → Prop where
  | call {s : Shared θ Op Loc Val ρ} (t : θ) (op : Op) (hidle : s.running t = none)
    (hop : Allowed s t (some op)) : Step code Allowed s (s.call code t op)
  | access {s s' : Shared θ Op Loc Val ρ} (t : θ) (hmay : Allowed s t none)
    (h : s.access t = some s') : Step code Allowed s s'

variable {code : Op → Prog Loc Val ρ} {Allowed : Shared θ Op Loc Val ρ → θ → Option Op → Prop}

/-- The states that an interleaving reaches from `s`. -/
abbrev Reaches (code : Op → Prog Loc Val ρ)
    (Allowed : Shared θ Op Loc Val ρ → θ → Option Op → Prop) :
    Shared θ Op Loc Val ρ → Shared θ Op Loc Val ρ → Prop :=
  Relation.ReflTransGen (Step code Allowed)

/-- The run rule: what every step keeps holds in every state reached. -/
theorem Reaches.inv {Inv : Shared θ Op Loc Val ρ → Prop} (h : Reaches code Allowed s s')
    (hs : Inv s) (hstep : ∀ s s', Inv s → Step code Allowed s s' → Inv s') : Inv s' := by
  induction h with
  | refl => exact hs
  | tail _ h ih => exact hstep _ _ ih h

/-! ### Schedules -/

/-- A schedule names, step by step, the thread and the call it begins, or the thread alone if it
makes its next access. -/
def schedule (code : Op → Prog Loc Val ρ) (Allowed : Shared θ Op Loc Val ρ → θ → Option Op → Prop)
    [∀ s t o, Decidable (Allowed s t o)] :
    List (θ × Option Op) → Shared θ Op Loc Val ρ → Option (Shared θ Op Loc Val ρ)
  | [], s => some s
  | (t, some op) :: rest, s =>
    if (s.running t).isNone ∧ Allowed s t (some op) then
      schedule code Allowed rest (s.call code t op) else none
  | (t, none) :: rest, s =>
    if Allowed s t none then (s.access t).bind (schedule code Allowed rest) else none

theorem reaches_of_schedule [∀ s t o, Decidable (Allowed s t o)] {sched : List (θ × Option Op)}
    (h : schedule code Allowed sched s = some s') : Reaches code Allowed s s' := by
  induction sched generalizing s with
  | nil => cases h; exact .refl
  | cons choice rest ih =>
    obtain ⟨t, _ | op⟩ := choice
    · rw [schedule] at h
      split at h
      · next hmay =>
        obtain ⟨s₁, hacc, hrest⟩ := Option.bind_eq_some_iff.1 h
        exact .head (.access t hmay hacc) (ih hrest)
      · cases h
    · rw [schedule] at h
      split at h
      · next hop => exact .head (.call t op (Option.isNone_iff_eq_none.1 hop.1) hop.2) (ih h)
      · cases h

end Shared

/-! ### Rosters -/

/-- The threads at a selected kind of point, each with the value that `sel` finds there. -/
structure Roster (points : θ → Option α) (sel : α → Option β) (l : List (θ × β)) : Prop where
  nodup : l.Nodup
  mem_iff : ∀ t b, (t, b) ∈ l ↔ ∃ pt, points t = some pt ∧ sel pt = some b

namespace Roster
variable [DecidableEq θ] {points : θ → Option α} {sel : α → Option β} {l : List (θ × β)} {t : θ}
  {o : Option α}

theorem other (h : Roster points sel l) (hold : ∀ pt, points t = some pt → sel pt = none)
    (hnew : ∀ pt, o = some pt → sel pt = none) : Roster (Function.update points t o) sel l := by
  refine ⟨h.nodup, fun u b => ?_⟩
  by_cases hut : u = t
  · subst hut
    rw [h.mem_iff, Function.update_self]
    constructor
    · rintro ⟨pt, hpt, hb⟩
      rw [hold pt hpt] at hb
      cases hb
    · rintro ⟨pt, hpt, hb⟩
      rw [hnew pt hpt] at hb
      cases hb
  · rw [h.mem_iff, Function.update_of_ne hut]

theorem enter {pt : α} {b : β} (h : Roster points sel l)
    (hold : ∀ pt, points t = some pt → sel pt = none) (hnew : sel pt = some b) :
    Roster (Function.update points t (some pt)) sel ((t, b) :: l) := by
  refine ⟨List.nodup_cons.2 ⟨fun hmem => ?_, h.nodup⟩, fun u b' => ?_⟩
  · obtain ⟨pt', hpt', hb⟩ := (h.mem_iff t b).1 hmem
    rw [hold pt' hpt'] at hb
    cases hb
  · rw [List.mem_cons]
    by_cases hut : u = t
    · subst hut
      rw [Function.update_self]
      constructor
      · rintro (heq | hmem)
        · cases heq
          exact ⟨pt, rfl, hnew⟩
        · obtain ⟨pt', hpt', hb⟩ := (h.mem_iff u b').1 hmem
          rw [hold pt' hpt'] at hb
          cases hb
      · rintro ⟨pt', hpt', hb⟩
        cases hpt'
        rw [hnew] at hb
        cases hb
        exact .inl rfl
    · rw [Function.update_of_ne hut, ← h.mem_iff]
      exact ⟨fun hmem => hmem.resolve_left fun heq => hut (congrArg Prod.fst heq), .inr⟩

theorem leave [DecidableEq β] {pt : α} {b : β} (h : Roster points sel l) (hpt : points t = some pt)
    (hold : sel pt = some b) (hnew : ∀ pt, o = some pt → sel pt = none) :
    Roster (Function.update points t o) sel (l.erase (t, b)) ∧ (t, b) ∈ l := by
  refine ⟨⟨h.nodup.erase _, fun u b' => ?_⟩, (h.mem_iff t b).2 ⟨pt, hpt, hold⟩⟩
  rw [h.nodup.mem_erase_iff, h.mem_iff]
  by_cases hut : u = t
  · subst hut
    rw [Function.update_self]
    constructor
    · rintro ⟨hne, pt', hpt', hb⟩
      rw [hpt] at hpt'
      cases hpt'
      rw [hold] at hb
      cases hb
      exact absurd rfl hne
    · rintro ⟨pt', hpt', hb⟩
      rw [hnew pt' hpt'] at hb
      cases hb
  · rw [Function.update_of_ne hut]
    exact ⟨And.right, fun h => ⟨fun heq => hut (congrArg Prod.fst heq), h⟩⟩

omit [DecidableEq θ] in
theorem eq_nil (h : Roster points sel l) (hnone : ∀ t, points t = none) : l = [] := by
  refine List.eq_nil_iff_forall_not_mem.2 fun ⟨t, b⟩ hmem => ?_
  obtain ⟨pt, hpt, -⟩ := (h.mem_iff t b).1 hmem
  rw [hnone] at hpt
  cases hpt

omit [DecidableEq θ] in
theorem length_eq (h : Roster points sel l) {l' : List (θ × β)} (h' : Roster points sel l') :
    l.length = l'.length :=
  ((List.perm_ext_iff_of_nodup h.nodup h'.nodup).2 fun x =>
    (h.mem_iff x.1 x.2).trans (h'.mem_iff x.1 x.2).symm).length_eq

end Roster

end
