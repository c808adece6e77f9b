import Mathlib.Data.List.Count
import TinyBase.Lib.LinkedQueue
import TinyBase.Lib.Points
import TinyBase.Queues

/-!
# The free list under any interleaving

Any number of threads push, one thread pops, and every interleaving of their accesses is a run of
`Shared`. A call always stands at one of a few `Point`s. `FreeListInv` ties the points of all
threads to a `LinkedQueue`: the nodes from `Tail` to `Head`, with links missing where a push has
made its exchange but not its last store. The stub is pushed by the consumer in the same way.
-/

namespace TinyBase
open Prog (load store)

/-- The calls on a free list. -/
inductive FreeListOp (ι : Type) where
  | push (n : ι)
  | pop
deriving DecidableEq

variable {ι θ : Type}

/-- A state of a program that uses a free list. A call returns what `Pop` returns, or nothing. -/
abbrev FreeListState (θ ι : Type) :=
  Shared θ (FreeListOp ι) (FreeListLoc ι) (NodePtr ι) (Option (NodePtr ι))

abbrev FreeListEvent (θ ι : Type) :=
  Event θ (FreeListOp ι) (FreeListLoc ι) (NodePtr ι) (Option (NodePtr ι))

namespace FreeList

section
variable [DecidableEq ι]

/-- The code of a call. -/
def code : FreeListOp ι → FreeListProg ι (Option (NodePtr ι))
  | .push n => do
    mpscFreeListPush (.node n)
    pure none
  | .pop => do
    let p ← mpscFreeListPop
    pure (some p)

/-! ### The history -/

/-- The pushes begun. -/
def started (history : List (FreeListEvent θ ι)) : List ι :=
  history.filterMap fun
    | .call _ (.push n) => some n
    | _ => none

/-- The nodes pushed, in the order of the exchanges on `Head`. -/
def pushed (history : List (FreeListEvent θ ι)) : List ι :=
  history.filterMap fun
    | .access _ (.push n) (.rmw .head _ _) => some n
    | _ => none

/-- The nodes of the pushes that have returned. -/
def finished (history : List (FreeListEvent θ ι)) : List ι :=
  history.filterMap fun
    | .ret _ (.push n) _ => some n
    | _ => none

/-- What the calls of `Pop` have returned, without `NULL`. -/
def returned (history : List (FreeListEvent θ ι)) : List (NodePtr ι) :=
  history.filterMap fun
    | .ret _ _ (some p) => if p = .null then none else some p
    | _ => none

/-- Every push of the node that was begun has been popped again: the node is not in the queue. -/
def Free (history : List (FreeListEvent θ ι)) (n : ι) : Prop :=
  (started history).count n = (returned history).count (.node n)

/-- Thread `c` is the only one to pop, and a node is pushed only when it is not in the queue. -/
def Allowed (c : θ) (s : FreeListState θ ι) (t : θ) : Option (FreeListOp ι) → Prop
  | some (.push n) => Free s.history n
  | some .pop => t = c
  | none => True

/-- The next access of thread `t` is the store of `q` at `l`. -/
def AboutToStore (s : FreeListState θ ι) (t : θ) (l : FreeListLoc ι) (q : NodePtr ι) : Prop :=
  ∃ op k, s.running t = some (op, .write l q k)

/-! ### Points -/

/-- What is left of `mpscFreeListPush`. -/
def pushFrom (x : NodePtr ι) : Phase (NodePtr ι) → FreeListProg ι Unit
  | .clear => mpscFreeListPush x
  | .exchange => do
    let prev ← Prog.exchange .head x
    store (.next prev) x
  | .link prev => store (.next prev) x

/-- Where a call stands; the arguments are its local variables. -/
inductive Point (ι : Type) where
  | push (n : ι) (ph : Phase (NodePtr ι))
  | readTail
  | readNext (tail : NodePtr ι)
  | moveTail (next : NodePtr ι)
  | readNextAgain (tail : NodePtr ι)
  | takeTail (tail next : NodePtr ι)
  | readHead (tail : NodePtr ι)
  | pushStub (tail : NodePtr ι) (ph : Phase (NodePtr ι))
  | lastRead (tail : NodePtr ι)

/-- What is left of `mpscFreeListPop`. -/
def popFrom : Point ι → FreeListProg ι (NodePtr ι)
  | .readNext tail => do
    let next ← load (.next tail)
    if tail = .stub then
      if next = .null then pure .null
      else do
        store .tail next
        let tail := next
        let next ← load (.next next)
        mpscFreeListPopTail tail next
    else mpscFreeListPopTail tail next
  | .moveTail next => do
    store .tail next
    let tail := next
    let next ← load (.next next)
    mpscFreeListPopTail tail next
  | .readNextAgain tail => do
    let next ← load (.next tail)
    mpscFreeListPopTail tail next
  | .takeTail tail next => do
    store .tail next
    pure tail
  | .readHead tail => do
    let head ← load .head
    if tail ≠ head then pure .null
    else do
      mpscFreeListPush .stub
      mpscFreeListPopLast tail
  | .pushStub tail ph => do
    pushFrom .stub ph
    mpscFreeListPopLast tail
  | .lastRead tail => mpscFreeListPopLast tail
  | _ => mpscFreeListPop

namespace Point

def op : Point ι → FreeListOp ι
  | push n _ => .push n
  | _ => .pop

/-- What is left of the call. -/
def rest : Point ι → FreeListProg ι (Option (NodePtr ι))
  | push n ph => do
    pushFrom (.node n) ph
    pure none
  | pt => do
    let p ← popFrom pt
    pure (some p)

/-- The node the call is inserting. -/
def inserting : Point ι → Option (NodePtr ι × Phase (NodePtr ι))
  | push n ph => some (.node n, ph)
  | pushStub _ ph => some (.stub, ph)
  | _ => none

/-- What the local variables say about the memory. -/
def Knows (mem : FreeListLoc ι → NodePtr ι) : Point ι → Prop
  | push _ _ | readTail => True
  | readNext tail => mem .tail = tail
  | moveTail next => mem .tail = .stub ∧ mem (.next .stub) = next ∧ next ≠ .null
  | takeTail tail next => mem .tail = tail ∧ tail ≠ .stub ∧ mem (.next tail) = next ∧ next ≠ .null
  | readNextAgain tail | readHead tail | pushStub tail _ | lastRead tail =>
    mem .tail = tail ∧ tail ≠ .stub

end Point

abbrev Out (ι : Type) := Outcome (Point ι) (Option (NodePtr ι))

/-- One access of a push, and where it stands then. -/
def pushStep (mem : FreeListLoc ι → NodePtr ι) (x : NodePtr ι) :
    Phase (NodePtr ι) → Access (FreeListLoc ι) (NodePtr ι) × (FreeListLoc ι → NodePtr ι) ×
      Option (Phase (NodePtr ι))
  | .clear => (.write (.next x) .null, Function.update mem (.next x) .null, some .exchange)
  | .exchange => (.rmw .head (mem .head) x, Function.update mem .head x, some (.link (mem .head)))
  | .link prev => (.write (.next prev) x, Function.update mem (.next prev) x, none)

/-- Where `Pop` goes on when it has read `Tail->Next`. -/
def afterNext (tail next : NodePtr ι) : Out ι :=
  if next ≠ .null then .goes (.takeTail tail next) else .goes (.readHead tail)

/-- One access of a call. -/
def Point.step (mem : FreeListLoc ι → NodePtr ι) :
    Point ι → Access (FreeListLoc ι) (NodePtr ι) × (FreeListLoc ι → NodePtr ι) × Out ι
  | push n ph =>
    let (a, mem', ph') := pushStep mem (.node n) ph
    (a, mem', ph'.elim (.returns none) fun ph' => .goes (.push n ph'))
  | readTail => (.read .tail (mem .tail), mem, .goes (.readNext (mem .tail)))
  | readNext tail => (.read (.next tail) (mem (.next tail)), mem,
      if tail = .stub then
        if mem (.next tail) = .null then .returns (some .null)
          else .goes (.moveTail (mem (.next tail)))
      else afterNext tail (mem (.next tail)))
  | moveTail next =>
    (.write .tail next, Function.update mem .tail next, .goes (.readNextAgain next))
  | readNextAgain tail =>
    (.read (.next tail) (mem (.next tail)), mem, afterNext tail (mem (.next tail)))
  | takeTail tail next => (.write .tail next, Function.update mem .tail next, .returns (some tail))
  | readHead tail => (.read .head (mem .head), mem,
      if tail ≠ mem .head then .returns (some .null) else .goes (.pushStub tail .clear))
  | pushStub tail ph =>
    let (a, mem', ph') := pushStep mem .stub ph
    (a, mem', ph'.elim (.goes (.lastRead tail)) fun ph' => .goes (.pushStub tail ph'))
  | lastRead tail => (.read (.next tail) (mem (.next tail)), mem,
      if mem (.next tail) ≠ .null then .goes (.takeTail tail (mem (.next tail)))
        else .returns (some .null))

/-- Binding a pure continuation to the calls that go on from a test. -/
theorem afterNext_rest (tail next : NodePtr ι) :
    (mpscFreeListPopTail tail next >>= fun p => pure (some p)) =
      (afterNext tail next).rest Point.rest := by
  rw [mpscFreeListPopTail, afterNext]
  by_cases h : next ≠ .null
  · rw [if_pos h, if_pos h]; rfl
  · rw [if_neg h, if_neg h]; rfl

/-- The points are those of the code. -/
theorem rest_access (mem : FreeListLoc ι → NodePtr ι) (pt : Point ι) :
    pt.rest.access mem = some ((pt.step mem).1, (pt.step mem).2.1,
      (pt.step mem).2.2.rest Point.rest) := by
  cases pt with
  | push n ph => cases ph <;> rfl
  | readTail => rfl
  | readNext tail =>
    show some (_, _, (ite _ _ _ : FreeListProg ι (NodePtr ι)) >>= _) = _
    rw [Point.step]
    by_cases htail : tail = .stub
    · rw [if_pos htail, if_pos htail]
      by_cases hnext : mem (.next tail) = .null
      · rw [if_pos hnext, if_pos hnext]; rfl
      · rw [if_neg hnext, if_neg hnext]; rfl
    · rw [if_neg htail, if_neg htail, ← afterNext_rest]
  | moveTail next => rfl
  | readNextAgain tail =>
    rw [Point.step, ← afterNext_rest]
    rfl
  | takeTail tail next => rfl
  | readHead tail =>
    show some (_, _, (ite _ _ _ : FreeListProg ι (NodePtr ι)) >>= _) = _
    rw [Point.step]
    by_cases hhead : tail ≠ mem .head
    · rw [if_pos hhead, if_pos hhead]; rfl
    · rw [if_neg hhead, if_neg hhead]; rfl
  | pushStub tail ph => cases ph <;> rfl
  | lastRead tail =>
    show some (_, _, (ite _ _ _ : FreeListProg ι (NodePtr ι)) >>= _) = _
    rw [Point.step]
    by_cases hnext : mem (.next tail) ≠ .null
    · rw [if_pos hnext, if_pos hnext]; rfl
    · rw [if_neg hnext, if_neg hnext]; rfl

theorem op_of_afterNext {tail next : NodePtr ι} {pt : Point ι}
    (h : afterNext tail next = .goes pt) : pt.op = .pop := by
  unfold afterNext at h
  split at h <;> cases h <;> rfl

theorem op_step (mem : FreeListLoc ι → NodePtr ι) (pt pt' : Point ι)
    (h : (pt.step mem).2.2 = .goes pt') : pt'.op = pt.op := by
  cases pt with
  | push n ph => cases ph <;> cases h <;> rfl
  | pushStub tail ph => cases ph <;> cases h <;> rfl
  | readNext tail =>
    unfold Point.step at h
    dsimp only at h
    split at h
    · split at h
      · cases h
      · cases h; rfl
    · exact op_of_afterNext h
  | readNextAgain tail => exact op_of_afterNext h
  | readHead tail =>
    unfold Point.step at h
    dsimp only at h
    split at h
    · cases h
    · cases h; rfl
  | lastRead tail =>
    unfold Point.step at h
    dsimp only at h
    split at h
    · cases h; rfl
    · cases h
  | readTail => cases h; rfl
  | moveTail next => cases h; rfl
  | takeTail tail next => cases h

/-- The points of both calls. -/
def callPoints (ι : Type) [DecidableEq ι] :
    CallPoints (FreeListOp ι) (FreeListLoc ι) (NodePtr ι) (Option (NodePtr ι)) (Point ι) where
  op := Point.op
  rest := Point.rest
  step := Point.step
  access_rest := rest_access
  op_step := op_step

/-- The node an access has returned. -/
def result : Out ι → List (NodePtr ι)
  | .returns (some p) => if p = .null then [] else [p]
  | _ => []

omit [DecidableEq ι] in
theorem started_after (history : List (FreeListEvent θ ι)) (t : θ) (op : FreeListOp ι)
    (a : Access (FreeListLoc ι) (NodePtr ι)) (out : Out ι) :
    started (history ++ .access t op a :: out.events t op) = started history := by
  cases out <;> simp [started, Outcome.events]

omit [DecidableEq ι] in
theorem pushed_after (history : List (FreeListEvent θ ι)) (t : θ) (op : FreeListOp ι)
    (a : Access (FreeListLoc ι) (NodePtr ι)) (out : Out ι) :
    pushed (history ++ .access t op a :: out.events t op) =
      pushed history ++ pushed [(.access t op a : FreeListEvent θ ι)] := by
  have hevents : pushed (out.events t op : List (FreeListEvent θ ι)) = [] := by cases out <;> rfl
  rw [pushed] at hevents ⊢
  rw [← List.singleton_append, List.filterMap_append, List.filterMap_append, hevents,
    List.append_nil]
  rfl

theorem returned_after (history : List (FreeListEvent θ ι)) (t : θ) (op : FreeListOp ι)
    (a : Access (FreeListLoc ι) (NodePtr ι)) (out : Out ι) :
    returned (history ++ .access t op a :: out.events t op) = returned history ++ result out := by
  have hevents : returned (out.events t op : List (FreeListEvent θ ι)) = result out := by
    rcases out with pt | _ | p
    · rfl
    · rfl
    · by_cases hp : p = .null <;> simp [returned, Outcome.events, result, hp]
  rw [returned] at hevents ⊢
  rw [List.filterMap_append, List.filterMap_cons, hevents]
  rfl

/-! ### The invariant -/

/-- The number of insertions of `x` that have not come to their exchange. -/
def entering (flight : NodePtr ι → Option (θ × Phase (NodePtr ι))) (x : NodePtr ι) : Nat :=
  match flight x with
  | some (_, .clear) | some (_, .exchange) => 1
  | _ => 0

/-- Where the threads stand: which node each is inserting, and what each knows. -/
structure Threads (c : θ) (mem : FreeListLoc ι → NodePtr ι) (points : θ → Option (Point ι))
    (flight : NodePtr ι → Option (θ × Phase (NodePtr ι))) : Prop where
  owner : ∀ t x ph, (∃ pt, points t = some pt ∧ pt.inserting = some (x, ph)) ↔
    flight x = some (t, ph)
  consumer : ∀ t pt, points t = some pt → pt.op = .pop → t = c
  knows : ∀ t pt, points t = some pt → pt.Knows mem

omit [DecidableEq ι] in
/-- One thread goes to another point, or ends its call. -/
theorem Threads.update [DecidableEq θ] {c : θ} {mem mem' : FreeListLoc ι → NodePtr ι}
    {points : θ → Option (Point ι)} {flight flight' : NodePtr ι → Option (θ × Phase (NodePtr ι))}
    (h : Threads c mem points flight) (t : θ) (o : Option (Point ι))
    (howner : ∀ x ph, (∃ pt, o = some pt ∧ pt.inserting = some (x, ph)) ↔ flight' x = some (t, ph))
    (hflight : ∀ u, u ≠ t → ∀ x ph, flight' x = some (u, ph) ↔ flight x = some (u, ph))
    (hconsumer : ∀ pt, o = some pt → pt.op = .pop → t = c)
    (hknows : ∀ pt, o = some pt → pt.Knows mem')
    (hothers : ∀ u, u ≠ t → ∀ pt, points u = some pt → pt.Knows mem') :
    Threads c mem' (Function.update points t o) flight' := by
  refine ⟨fun u x ph => ?_, fun u pt hu hpop => ?_, fun u pt hu => ?_⟩ <;> by_cases hut : u = t
  · subst hut
    rw [Function.update_self]
    exact howner x ph
  · rw [Function.update_of_ne hut, hflight u hut]
    exact h.owner u x ph
  · subst hut
    rw [Function.update_self] at hu
    exact hconsumer pt hu hpop
  · rw [Function.update_of_ne hut] at hu
    exact h.consumer u pt hu hpop
  · subst hut
    rw [Function.update_self] at hu
    exact hknows pt hu
  · rw [Function.update_of_ne hut] at hu
    exact hothers u hut pt hu

/-- Where the threads stand, what the queue looks like, and how it came to that. -/
structure Inv (c : θ) (mem : FreeListLoc ι → NodePtr ι) (history : List (FreeListEvent θ ι))
    (points : θ → Option (Point ι)) (flight : NodePtr ι → Option (θ × Phase (NodePtr ι)))
    (chain : List (NodePtr ι)) : Prop extends Threads c mem points flight where
  queue : LinkedQueue .null (fun p => mem (.next p)) (mem .head) (mem .tail) flight chain
  /-- The nodes pushed and not yet returned are those of the chain. -/
  log : (pushed history).map .node = returned history ++ chain.filter (· ≠ .stub)
  count : ∀ n, (started history).count n = (pushed history).count n + entering flight (.node n)
  /-- What has just been returned has left the chain. -/
  last : ∀ t op p, history.getLast? = some (.ret t op (some p)) → p ≠ .null →
    p ≠ .stub ∧ p ∉ chain ∧ flight p = none

theorem next_update {mem : FreeListLoc ι → NodePtr ι} (p q : NodePtr ι) :
    (fun r => Function.update mem (.next p) q (.next r)) =
      Function.update (fun r => mem (.next r)) p q := by
  funext r
  by_cases hr : r = p
  · subst hr; simp
  · rw [Function.update_of_ne hr, Function.update_of_ne fun heq => hr (FreeListLoc.next.inj heq)]

namespace Inv
variable {c : θ} {mem : FreeListLoc ι → NodePtr ι} {history : List (FreeListEvent θ ι)}
  {points : θ → Option (Point ι)} {flight : NodePtr ι → Option (θ × Phase (NodePtr ι))}
  {chain : List (NodePtr ι)}

theorem count_pushed (h : Inv c mem history points flight chain) (n : ι) :
    (pushed history).count n = (returned history).count (.node n) + chain.count (.node n) := by
  have hinj : Function.Injective (NodePtr.node : ι → NodePtr ι) := fun _ _ h => NodePtr.node.inj h
  rw [← List.count_map_of_injective _ _ hinj, h.log, List.count_append, List.count_filter (by simp)]

/-- A node is free when it is neither in the chain nor on its way in. -/
theorem free_iff (h : Inv c mem history points flight chain) (n : ι) :
    Free history n ↔ .node n ∉ chain ∧ flight (.node n) = none := by
  have hcount := h.count n
  rw [h.count_pushed n] at hcount
  rw [Free]
  constructor
  · intro hfree
    have hout : .node n ∉ chain := List.count_eq_zero.1 (by omega)
    have henter : entering flight (.node n) = 0 := by omega
    refine ⟨hout, ?_⟩
    unfold entering at henter
    cases hf : flight (.node n) with
    | none => rfl
    | some tph =>
      obtain ⟨t, ph⟩ := tph
      rw [hf] at henter
      cases ph with
      | clear => cases henter
      | exchange => cases henter
      | link p => exact absurd (h.queue.inside _ t p hf).1.right_mem hout
  · rintro ⟨hout, hflight⟩
    have henter : entering flight (.node n) = 0 := by rw [entering, hflight]
    rw [List.count_eq_zero.2 hout, henter] at hcount
    exact hcount

omit [DecidableEq ι] in
theorem events_of_getLast {history : List (FreeListEvent θ ι)} {t u : θ} {op op' : FreeListOp ι}
    {a : Access (FreeListLoc ι) (NodePtr ι)} {out : Out ι} {r : Option (NodePtr ι)}
    (h : (history ++ .access t op a :: out.events t op).getLast? = some (.ret u op' r)) :
    out = .returns r := by
  rw [List.getLast?_append_cons] at h
  cases out with
  | goes pt => cases h
  | returns r' => cases h; rfl

/-- What a step has to establish: something about the queue, about the thread `t` that makes it, and
that the other threads stand where they stood. -/
theorem after [DecidableEq θ] (h : Inv c mem history points flight chain) {t : θ} {pt : Point ι}
    (hpt : points t = some pt) {a : Access (FreeListLoc ι) (NodePtr ι)}
    {mem' : FreeListLoc ι → NodePtr ι} {out : Out ι}
    {flight' : NodePtr ι → Option (θ × Phase (NodePtr ι))} {chain' : List (NodePtr ι)}
    (hqueue : LinkedQueue .null (fun p => mem' (.next p)) (mem' .head) (mem' .tail) flight' chain')
    (howner : ∀ x ph, (∃ pt', out.point = some pt' ∧ pt'.inserting = some (x, ph)) ↔
      flight' x = some (t, ph))
    (hflight : ∀ u, u ≠ t → ∀ x ph, flight' x = some (u, ph) ↔ flight x = some (u, ph))
    (hop : ∀ pt', out.point = some pt' → pt'.op = pt.op)
    (hknows : ∀ pt', out.point = some pt' → pt'.Knows mem')
    (hothers : ∀ u, u ≠ t → ∀ pt', points u = some pt' → pt'.Knows mem')
    (hlog : (pushed history ++ pushed [(.access t pt.op a : FreeListEvent θ ι)]).map .node =
      returned history ++ result out ++ chain'.filter (· ≠ .stub))
    (hcount : ∀ n, (started history).count n =
      (pushed history ++ pushed [(.access t pt.op a : FreeListEvent θ ι)]).count n +
      entering flight' (.node n))
    (hlast : ∀ p, out = .returns (some p) → p ≠ .null → p ≠ .stub ∧ p ∉ chain' ∧ flight' p = none) :
    Inv c mem' (history ++ .access t pt.op a :: out.events t pt.op)
      (Function.update points t out.point) flight' chain' := by
  have hthreads := h.toThreads.update t out.point howner hflight
    (fun pt' hpt' hpop => h.consumer t pt hpt (by rw [← hop pt' hpt']; exact hpop)) hknows hothers
  refine ⟨hthreads, hqueue, ?_, fun n => ?_, fun u op p hu hp => hlast p (events_of_getLast hu) hp⟩
  · rw [pushed_after, returned_after]
    exact hlog
  · rw [started_after, pushed_after]
    exact hcount n

/-- The consumer knows alone what it knows. -/
theorem others_know (h : Inv c mem history points flight chain) {t : θ} {pt : Point ι}
    (hpt : points t = some pt) (hop : pt.op = .pop) (mem' : FreeListLoc ι → NodePtr ι) {u : θ}
    (hu : u ≠ t) {pt' : Point ι} (hpt' : points u = some pt') : pt'.Knows mem' := by
  have ht := h.consumer t pt hpt hop
  cases pt' with
  | push n ph => trivial
  | _ => exact absurd ((h.consumer u _ hpt' rfl).trans ht.symm) hu

theorem not_inserting (h : Inv c mem history points flight chain) {t : θ}
    (hins : ∀ pt, points t = some pt → pt.inserting = none) (x : NodePtr ι)
    (ph : Phase (NodePtr ι)) : flight x ≠ some (t, ph) := by
  intro hflight
  obtain ⟨pt, hpt, hins'⟩ := (h.owner t x ph).2 hflight
  rw [hins pt hpt] at hins'
  cases hins'

theorem read [DecidableEq θ] (h : Inv c mem history points flight chain) {t : θ} {pt : Point ι}
    (hpt : points t = some pt) (hop : pt.op = .pop) (hins : pt.inserting = none) (l : FreeListLoc ι)
    (v : NodePtr ι) {out : Out ι} (hout : out = .returns (some .null) ∨
      ∃ pt', out = .goes pt' ∧ pt'.op = .pop ∧ pt'.inserting = none ∧ pt'.Knows mem) :
    Inv c mem (history ++ .access t pt.op (.read l v) :: out.events t pt.op)
      (Function.update points t out.point) flight
      chain := by
  have hnext : ∀ pt', out.point = some pt' → pt'.op = .pop ∧
      pt'.inserting = none ∧ pt'.Knows mem := by
    intro pt' hpt'
    rcases hout with rfl | ⟨pt'', rfl, hpt''⟩
    · cases hpt'
    · cases hpt'
      exact hpt''
  have hpushed : pushed [(.access t pt.op (.read l v) : FreeListEvent θ ι)] = [] := by rw [hop]; rfl
  have hresult : result out = [] := by rcases hout with rfl | ⟨pt', rfl, -⟩ <;> rfl
  refine h.after hpt h.queue (fun x ph => ?_) (fun _ _ _ _ => Iff.rfl) (fun pt' hpt' => ?_)
    (fun pt' hpt' => (hnext pt' hpt').2.2) (fun u hu pt' hpt' => h.others_know hpt hop _ hu hpt') ?_
    (fun n => ?_) fun p hp hne => ?_
  · refine ⟨fun ⟨pt', hpt', hins'⟩ => ?_,
      fun hflight => absurd hflight
      (h.not_inserting (fun pt' hpt' => Option.some.inj (hpt.symm.trans hpt') ▸ hins) x ph)⟩
    rw [(hnext pt' hpt').2.1] at hins'
    cases hins'
  · rw [(hnext pt' hpt').1, hop]
  · rw [hpushed, hresult, List.append_nil, List.append_nil]
    exact h.log
  · rw [hpushed, List.append_nil]
    exact h.count n
  · rcases hout with rfl | ⟨pt', rfl, -⟩
    · cases hp
      exact absurd rfl hne
    · cases hp

theorem queue_pushStep (h : Inv c mem history points flight chain) {t : θ}
    {x : NodePtr ι} {ph : Phase (NodePtr ι)} (hx : flight x = some (t, ph)) :
    LinkedQueue .null (fun p => (pushStep mem x ph).2.1 (.next p)) ((pushStep mem x ph).2.1 .head)
      ((pushStep mem x ph).2.1 .tail)
      (Function.update flight x ((pushStep mem x ph).2.2.map fun ph' => (t, ph')))
      (if ph = .exchange then chain ++ [x] else chain) := by
  cases ph with
  | clear =>
    have hq := h.queue.clear hx
    rw [← next_update] at hq
    rw [if_neg nofun]
    exact hq
  | exchange =>
    rw [if_pos rfl]
    exact h.queue.exchange hx
  | link p =>
    have hq := h.queue.link hx
    rw [← next_update] at hq
    rw [if_neg nofun]
    exact hq

/-- A push moves no pointer that the consumer has read. -/
theorem pushStep_stable (h : Inv c mem history points flight chain) {t : θ}
    {x : NodePtr ι} {ph : Phase (NodePtr ι)} (hx : flight x = some (t, ph)) {pt : Point ι}
    (hpt : pt.Knows mem) : pt.Knows (pushStep mem x ph).2.1 := by
  have htail : (pushStep mem x ph).2.1 .tail = mem .tail := by cases ph <;> rfl
  have hnext : mem (.next (mem .tail)) ≠ .null →
      (pushStep mem x ph).2.1 (.next (mem .tail)) = mem (.next (mem .tail)) := by
    intro hne
    cases ph with
    | clear =>
      refine Function.update_of_ne (fun heq => ?_) ..
      exact (h.queue.outside x t _ hx trivial).1 (FreeListLoc.next.inj heq ▸ h.queue.tail_mem)
    | exchange => rfl
    | link p =>
      refine Function.update_of_ne (fun heq => hne ?_) ..
      rw [FreeListLoc.next.inj heq]
      exact (h.queue.inside x t p hx).2
  cases pt with
  | push n ph => trivial
  | readTail => trivial
  | readNext tail => exact htail.trans hpt
  | moveTail next =>
    obtain ⟨hstub, rfl, hne⟩ := hpt
    rw [hstub] at hnext
    exact ⟨htail.trans hstub, hnext hne, hne⟩
  | takeTail tail next =>
    obtain ⟨rfl, hstub, rfl, hne⟩ := hpt
    exact ⟨htail, hstub, hnext hne, hne⟩
  | readNextAgain tail | readHead tail | pushStub tail ph | lastRead tail =>
    exact ⟨htail.trans hpt.1, hpt.2⟩

omit [DecidableEq ι] in
theorem inserting_cases {pt : Point ι} {x : NodePtr ι} {ph : Phase (NodePtr ι)}
    (h : pt.inserting = some (x, ph)) :
    (∃ n, pt.op = .push n ∧ x = .node n) ∨ (pt.op = .pop ∧ x = .stub) := by
  cases pt with
  | push n ph' => cases h; exact .inl ⟨n, rfl, rfl⟩
  | pushStub tail ph' => cases h; exact .inr ⟨rfl, rfl⟩
  | _ => cases h

/-- The logs after one access of a push: its exchange puts the node behind the chain, and nothing
else changes them. -/
theorem log_pushStep (h : Inv c mem history points flight chain) (t : θ)
    {op : FreeListOp ι} {x : NodePtr ι}
    (hop : (∃ n, op = .push n ∧ x = .node n) ∨ (op = .pop ∧ x = .stub)) (ph : Phase (NodePtr ι)) :
    (pushed history ++ pushed [(.access t op (pushStep mem x ph).1 : FreeListEvent θ ι)]).map
      .node =
      returned history ++ (if ph = .exchange then chain ++ [x] else chain).filter (· ≠ .stub) := by
  by_cases hph : ph = .exchange
  · subst hph
    rw [if_pos rfl, List.filter_append, ← List.append_assoc, ← h.log, List.map_append]
    rcases hop with ⟨n, rfl, rfl⟩ | ⟨rfl, rfl⟩ <;> rfl
  · have hnone : pushed [(.access t op (pushStep mem x ph).1 : FreeListEvent θ ι)] = [] := by
      cases ph with
      | exchange => exact absurd rfl hph
      | clear => rcases hop with ⟨n, rfl, -⟩ | ⟨rfl, -⟩ <;> rfl
      | link p => rcases hop with ⟨n, rfl, -⟩ | ⟨rfl, -⟩ <;> rfl
    rw [if_neg hph, hnone, List.append_nil]
    exact h.log

theorem count_pushStep (h : Inv c mem history points flight chain) {t : θ}
    {op : FreeListOp ι} {x : NodePtr ι} {ph : Phase (NodePtr ι)} (hx : flight x = some (t, ph))
    (hop : (∃ n, op = .push n ∧ x = .node n) ∨ (op = .pop ∧ x = .stub)) (n : ι) :
    (started history).count n =
      (pushed history ++
        pushed [(.access t op (pushStep mem x ph).1 : FreeListEvent θ ι)]).count n +
      entering (Function.update flight x ((pushStep mem x ph).2.2.map fun ph' => (t, ph')))
        (.node n) := by
  rw [h.count n, List.count_append, Nat.add_assoc, Nat.add_left_cancel_iff]
  by_cases hn : .node n = x
  · subst hn
    obtain ⟨m, rfl, hm⟩ | ⟨-, hstub⟩ := hop
    · cases hm
      rw [entering, entering, hx, Function.update_self]
      cases ph <;> simp [pushStep, pushed]
    · cases hstub
  · have hnone :
        (pushed [(.access t op (pushStep mem x ph).1 : FreeListEvent θ ι)]).count n = 0 := by
      refine List.count_eq_zero.2 fun hmem => ?_
      rcases hop with ⟨m, rfl, rfl⟩ | ⟨rfl, -⟩
      · cases ph with
        | exchange => exact hn (congrArg _ (List.mem_singleton.1 hmem))
        | clear => cases hmem
        | link p => cases hmem
      · cases ph <;> cases hmem
    rw [hnone, Nat.zero_add, entering, entering, Function.update_of_ne hn]

/-- One access of a push, by a producer or of the stub by the consumer. -/
theorem insert [DecidableEq θ] (h : Inv c mem history points flight chain) {t : θ} {pt : Point ι}
    (hpt : points t = some pt) {x : NodePtr ι} {ph : Phase (NodePtr ι)}
    (hins : pt.inserting = some (x, ph)) {out : Out ι}
    (hout : ((pushStep mem x ph).2.2 = none ∧ out = .returns none) ∨
      ∃ pt', out = .goes pt' ∧ pt'.op = pt.op ∧
      pt'.inserting = (pushStep mem x ph).2.2.map (x, ·) ∧ ∀ mem, pt.Knows mem → pt'.Knows mem) :
    Inv c (pushStep mem x ph).2.1
      (history ++ .access t pt.op (pushStep mem x ph).1 :: out.events t pt.op)
      (Function.update points t out.point)
      (Function.update flight x ((pushStep mem x ph).2.2.map fun ph' => (t, ph')))
      (if ph = .exchange then chain ++ [x] else chain) := by
  have hx : flight x = some (t, ph) := (h.owner t x ph).1 ⟨pt, hpt, hins⟩
  have hresult : result out = [] := by rcases hout with ⟨-, rfl⟩ | ⟨pt', rfl, -⟩ <;> rfl
  have hpoint : ∀ pt', out.point = some pt' → pt'.op = pt.op ∧
      pt'.inserting = (pushStep mem x ph).2.2.map (x, ·) ∧ ∀ mem, pt.Knows mem → pt'.Knows mem := by
    intro pt' hpt'
    rcases hout with ⟨-, rfl⟩ | ⟨pt'', rfl, hpt''⟩
    · cases hpt'
    · cases hpt'
      exact hpt''
  refine h.after hpt (h.queue_pushStep hx) (fun y ph' => ⟨?_, fun hy => ?_⟩) (fun u hu y ph' => ?_)
    (fun pt' hpt' => (hpoint pt' hpt').1)
    (fun pt' hpt' => (hpoint pt' hpt').2.2 _ (h.pushStep_stable hx (h.knows t pt hpt)))
    (fun u _ pt' hu => h.pushStep_stable hx (h.knows u pt' hu)) ?_
    (h.count_pushStep hx (inserting_cases hins)) fun p hp hne => ?_
  · rintro ⟨pt', hpt', hins'⟩
    rw [(hpoint pt' hpt').2.1] at hins'
    obtain ⟨ph'', hph, heq⟩ := Option.map_eq_some_iff.1 hins'
    cases heq
    rw [Function.update_self, hph]
    rfl
  · rcases update_eq_iff.1 hy with ⟨rfl, hnext⟩ | ⟨hyx, hy⟩
    · obtain ⟨ph'', hph, heq⟩ := Option.map_eq_some_iff.1 hnext
      cases heq
      rcases hout with ⟨hnone, -⟩ | ⟨pt', rfl, -, hins', -⟩
      · rw [hnone] at hph
        cases hph
      · exact ⟨pt', rfl, by rw [hins', hph]; rfl⟩
    · obtain ⟨pt', hpt', hins'⟩ := (h.owner t y ph').2 hy
      rw [hpt] at hpt'
      cases hpt'
      rw [hins] at hins'
      cases hins'
      exact absurd rfl hyx
  · by_cases hyx : y = x
    · subst hyx
      rw [Function.update_self, hx]
      constructor
      · intro hnext
        obtain ⟨ph'', -, heq⟩ := Option.map_eq_some_iff.1 hnext
        cases heq
        exact absurd rfl hu
      · intro heq
        cases heq
        exact absurd rfl hu
    · rw [Function.update_of_ne hyx]
  · rw [hresult, List.append_nil]
    exact h.log_pushStep t (inserting_cases hins) ph
  · rcases hout with ⟨-, rfl⟩ | ⟨pt', rfl, -⟩ <;> cases hp

/-- The store that moves `Tail` on. It returns the node it leaves behind, unless that is the
stub. -/
theorem moveOn [DecidableEq θ] (h : Inv c mem history points flight chain) {t : θ} {pt : Point ι}
    (hpt : points t = some pt) (hop : pt.op = .pop) (hins : pt.inserting = none)
    {tail next : NodePtr ι} (htail : mem .tail = tail) (hnext : mem (.next tail) = next)
    (hne : next ≠ .null) {out : Out ι} (hout : (tail ≠ .stub ∧ out = .returns (some tail)) ∨
      (tail = .stub ∧ out = .goes (.readNextAgain next))) :
    ∃ chain', Inv c (Function.update mem .tail next)
      (history ++ .access t pt.op (.write .tail next) :: out.events t pt.op)
      (Function.update points t out.point) flight chain' := by
  subst htail hnext
  obtain ⟨l, rfl⟩ := h.queue.chain_eq_cons hne
  obtain ⟨hqueue, hflight, hnot⟩ := h.queue.advance hne
  have hnull : mem .tail ≠ .null := fun heq => h.queue.null_not_mem (heq ▸ h.queue.tail_mem)
  have hlog := h.log
  refine ⟨_, h.after hpt hqueue (fun x ph => ⟨?_, fun hx => absurd hx
      (h.not_inserting (fun pt' hpt' => Option.some.inj (hpt.symm.trans hpt') ▸ hins) x ph)⟩)
    (fun _ _ _ _ => Iff.rfl) (fun pt' hpt' => ?_) (fun pt' hpt' => ?_)
    (fun u hu pt' hpt' => h.others_know hpt hop _ hu hpt') ?_ (fun n => ?_) fun p hp _ => ?_⟩
  · rintro ⟨pt', hpt', hins'⟩
    rcases hout with ⟨-, rfl⟩ | ⟨-, rfl⟩
    · cases hpt'
    · cases hpt'
      cases hins'
  · rcases hout with ⟨-, rfl⟩ | ⟨-, rfl⟩
    · cases hpt'
    · cases hpt'
      exact hop.symm
  · rcases hout with ⟨-, rfl⟩ | ⟨hstub, rfl⟩
    · cases hpt'
    · cases hpt'
      exact ⟨Function.update_self ..,
        fun heq => hnot (List.mem_cons.2 (.inl (hstub.trans heq.symm)))⟩
  · have hpushed :
        pushed [(.access t pt.op (.write .tail (mem (.next (mem .tail)))) : FreeListEvent θ ι)] =
        [] := by
      rw [hop]; rfl
    rw [hpushed, List.append_nil, hlog, List.append_assoc]
    refine congrArg _ ?_
    rcases hout with ⟨hstub, rfl⟩ | ⟨hstub, rfl⟩
    · rw [List.filter_cons_of_pos (by simpa using hstub), result, if_neg hnull]
      rfl
    · rw [List.filter_cons_of_neg (by simpa using hstub)]
      rfl
  · have hpushed :
        pushed [(.access t pt.op (.write .tail (mem (.next (mem .tail)))) : FreeListEvent θ ι)] =
        [] := by
      rw [hop]; rfl
    rw [hpushed, List.append_nil]
    exact h.count n
  · rcases hout with ⟨hstub, rfl⟩ | ⟨-, rfl⟩
    · cases hp
      exact ⟨hstub, hnot, hflight⟩
    · cases hp

/-- `Pop` gets ready to push the stub, when `Tail` is the only node. -/
theorem enterStub [DecidableEq θ] (h : Inv c mem history points flight chain)
    {t : θ} {tail : NodePtr ι} (hpt : points t = some (.readHead tail)) (hhead : tail = mem .head) :
    Inv c mem (history ++ .access t .pop (.read .head (mem .head)) ::
        (.goes (.pushStub tail .clear) : Out ι).events t .pop)
      (Function.update points t (.goes (.pushStub tail .clear) : Out ι).point)
      (Function.update flight .stub (some (t, .clear))) chain := by
  obtain ⟨htail, hstub⟩ := h.knows t _ hpt
  have hout : NodePtr.stub ∉ chain := by
    rw [h.queue.chain_eq_singleton (htail.trans hhead), List.mem_singleton]
    exact fun heq => hstub (htail ▸ heq.symm)
  -- only the consumer pushes the stub, and it stands elsewhere
  have hflight : ∀ u ph, flight .stub ≠ some (u, ph) := by
    intro u ph hu
    obtain ⟨pt', hpt', hins'⟩ := (h.owner u .stub ph).2 hu
    rcases inserting_cases hins' with ⟨n, -, hn⟩ | ⟨hop', -⟩
    · cases hn
    · obtain rfl : u = t := (h.consumer u pt' hpt' hop').trans (h.consumer t _ hpt rfl).symm
      rw [hpt] at hpt'
      cases hpt'
      cases hins'
  refine h.after hpt (h.queue.enter hout nofun) (fun x ph => ⟨?_, fun hx => ?_⟩)
    (fun u hu x ph => ?_)
    (fun pt' hpt' => ?_) (fun pt' hpt' => ?_) (fun u hu pt' hpt' => h.others_know hpt rfl _ hu hpt')
    ?_ (fun n => ?_) fun p hp => ?_
  · rintro ⟨pt', hpt', hins'⟩
    cases hpt'
    cases hins'
    exact Function.update_self ..
  · rcases update_eq_iff.1 hx with ⟨rfl, heq⟩ | ⟨-, hx⟩
    · cases heq
      exact ⟨_, rfl, rfl⟩
    · exact absurd hx
        (h.not_inserting (fun pt' hpt' => Option.some.inj (hpt.symm.trans hpt') ▸ rfl) x ph)
  · by_cases hx : x = .stub
    · subst hx
      rw [Function.update_self]
      refine ⟨fun heq => ?_, fun heq => absurd heq (hflight u ph)⟩
      cases heq
      exact absurd rfl hu
    · rw [Function.update_of_ne hx]
  · cases hpt'; rfl
  · cases hpt'; exact ⟨htail, hstub⟩
  · rw [show result (.goes (.pushStub tail .clear)) = [] from rfl, List.append_nil]
    exact (congrArg _ (List.append_nil _)).trans h.log
  · have hne : NodePtr.node n ≠ .stub := nofun
    have hsame : entering (Function.update flight .stub (some (t, .clear))) (.node n) =
        entering flight (.node n) := by
      rw [entering, entering, Function.update_of_ne hne]
    rw [hsame, h.count n]
    exact congrArg (fun l => List.count n l + _) (List.append_nil _).symm
  · cases hp

theorem begin [DecidableEq θ] (h : Inv c mem history points flight chain) {t : θ} (pt : Point ι)
    {flight' : NodePtr ι → Option (θ × Phase (NodePtr ι))}
    (hqueue : LinkedQueue .null (fun p => mem (.next p)) (mem .head) (mem .tail) flight' chain)
    (howner : ∀ x ph, pt.inserting = some (x, ph) ↔ flight' x = some (t, ph))
    (hflight : ∀ u, u ≠ t → ∀ x ph, flight' x = some (u, ph) ↔ flight x = some (u, ph))
    (hconsumer : pt.op = .pop → t = c) (hknows : pt.Knows mem)
    (hcount : ∀ n, (started (history ++ [.call t pt.op])).count n =
      (pushed history).count n + entering flight' (.node n)) :
    Inv c mem (history ++ [.call t pt.op]) (Function.update points t (some pt)) flight' chain := by
  have hthreads : Threads c mem _ flight' := h.toThreads.update t (some pt)
    (fun x ph => ⟨fun ⟨pt', hpt', hins⟩ => (howner x ph).1 (Option.some.inj hpt' ▸ hins),
      fun hx => ⟨pt, rfl, (howner x ph).2 hx⟩⟩) hflight
    (fun pt' hpt' hpop => hconsumer (Option.some.inj hpt' ▸ hpop)) (fun pt' hpt' =>
    Option.some.inj hpt' ▸ hknows) fun u _ => h.knows u
  refine ⟨hthreads, hqueue, ?_, fun n => ?_, fun u op p hu => ?_⟩
  · rw [pushed, returned, List.filterMap_append, List.filterMap_append, ← pushed, ← returned]
    exact (congrArg (List.map _) (List.append_nil _)).trans (h.log.trans (by simp))
  · rw [pushed, List.filterMap_append, ← pushed]
    exact (hcount n).trans (congrArg (fun l => List.count n l + _) (List.append_nil _).symm)
  · rw [List.getLast?_concat] at hu
    cases hu

/-- `MPSCFreeListPop` is called. -/
theorem beginPop [DecidableEq θ] (h : Inv c mem history points flight chain)
    (hidle : points c = none) :
    Inv c mem (history ++ [.call c .pop]) (Function.update points c (some .readTail))
      flight chain := by
  refine h.begin .readTail h.queue (fun x ph => ⟨nofun, fun hx => absurd hx ?_⟩)
    (fun _ _ _ _ => Iff.rfl) (fun _ => rfl) trivial fun n => ?_
  · exact h.not_inserting (fun pt hpt => by rw [hidle] at hpt; cases hpt) x ph
  · rw [started, List.filterMap_append, ← started, ← h.count n]
    exact congrArg (List.count n) (List.append_nil _)

/-- `MPSCFreeListPush` is called with a node that is not in the queue. -/
theorem beginPush [DecidableEq θ] (h : Inv c mem history points flight chain) {t : θ}
    (hidle : points t = none) {n : ι} (hn : Free history n) :
    Inv c mem (history ++ [.call t (.push n)]) (Function.update points t (some (.push n .clear)))
      (Function.update flight (.node n) (some (t, .clear))) chain := by
  obtain ⟨hout, hnone⟩ := (h.free_iff n).1 hn
  refine h.begin (.push n .clear) (h.queue.enter (t := t) hout nofun) (fun x ph => ?_)
    (fun u hu x ph => ?_) nofun
    trivial fun n' => ?_
  · rw [update_eq_iff]
    constructor
    · intro hx
      cases hx
      exact .inl ⟨rfl, rfl⟩
    · rintro (⟨rfl, heq⟩ | ⟨-, hx⟩)
      · cases heq; rfl
      · exact absurd hx (h.not_inserting (fun pt hpt => by rw [hidle] at hpt; cases hpt) x ph)
  · by_cases hx : x = .node n
    · subst hx
      rw [Function.update_self, hnone]
      refine ⟨fun heq => ?_, nofun⟩
      cases heq
      exact absurd rfl hu
    · rw [Function.update_of_ne hx]
  · rw [started, List.filterMap_append, ← started, List.count_append, h.count n']
    show _ + _ + List.count n' [n] = _
    by_cases hn : n' = n
    · subst hn
      rw [entering, entering, hnone, Function.update_self]
      simp
    · have hne : NodePtr.node n' ≠ .node n := fun heq => hn (NodePtr.node.inj heq)
      rw [entering, entering, Function.update_of_ne hne]
      simp [Ne.symm hn]

/-- `Pop` after it has read `Tail->Next` of a `Tail` that is not the stub. -/
theorem afterNext_cases (mem : FreeListLoc ι → NodePtr ι) {tail : NodePtr ι}
    (htail : mem .tail = tail) (hstub : tail ≠ .stub) :
    ∃ pt', afterNext tail (mem (.next tail)) = .goes pt' ∧ pt'.op = .pop ∧
      pt'.inserting = none ∧ pt'.Knows mem := by
  by_cases hnext : mem (.next tail) ≠ .null
  · exact ⟨.takeTail tail (mem (.next tail)), if_pos hnext, rfl, rfl, htail, hstub, rfl, hnext⟩
  · exact ⟨.readHead tail, if_neg hnext, rfl, rfl, htail, hstub⟩

theorem step [DecidableEq θ] (h : Inv c mem history points flight chain) {t : θ} {pt : Point ι}
    (hpt : points t = some pt) : ∃ flight' chain', Inv c (pt.step mem).2.1
      (history ++ .access t pt.op (pt.step mem).1 :: (pt.step mem).2.2.events t pt.op)
      (Function.update points t (pt.step mem).2.2.point) flight' chain' := by
  have hknows := h.knows t pt hpt
  cases pt with
  | push n ph =>
    refine ⟨_, _, h.insert hpt rfl ?_⟩
    cases ph with
    | clear => exact .inr ⟨_, rfl, rfl, rfl, fun _ => id⟩
    | exchange => exact .inr ⟨_, rfl, rfl, rfl, fun _ => id⟩
    | link p => exact .inl ⟨rfl, rfl⟩
  | readTail =>
    exact ⟨_, _, h.read hpt rfl rfl _ _ (.inr ⟨.readNext (mem .tail), rfl, rfl, rfl, rfl⟩)⟩
  | readNext tail =>
    refine ⟨_, _, h.read hpt rfl rfl _ _ ?_⟩
    dsimp only [Point.step]
    by_cases hstub : tail = .stub
    · subst hstub
      rw [if_pos rfl]
      by_cases hnull : mem (.next .stub) = .null
      · rw [if_pos hnull]
        exact .inl rfl
      · rw [if_neg hnull]
        exact .inr ⟨_, rfl, rfl, rfl, hknows, rfl, hnull⟩
    · rw [if_neg hstub]
      exact .inr (afterNext_cases mem hknows hstub)
  | moveTail next =>
    obtain ⟨htail, hnext, hne⟩ := hknows
    obtain ⟨chain', h'⟩ := h.moveOn hpt rfl rfl htail hnext hne (.inr ⟨rfl, rfl⟩)
    exact ⟨_, chain', h'⟩
  | readNextAgain tail =>
    exact ⟨_, _, h.read hpt rfl rfl _ _ (.inr (afterNext_cases mem hknows.1 hknows.2))⟩
  | takeTail tail next =>
    obtain ⟨htail, hstub, hnext, hne⟩ := hknows
    obtain ⟨chain', h'⟩ := h.moveOn hpt rfl rfl htail hnext hne (.inl ⟨hstub, rfl⟩)
    exact ⟨_, chain', h'⟩
  | readHead tail =>
    by_cases hhead : tail ≠ mem .head
    · refine ⟨_, _, h.read hpt rfl rfl _ _ (.inl ?_)⟩
      rw [Point.step, if_pos hhead]
    · have h' := h.enterStub hpt (not_not.1 hhead)
      rw [Point.step, if_neg hhead]
      exact ⟨_, _, h'⟩
  | pushStub tail ph =>
    refine ⟨_, _, h.insert hpt rfl (.inr ?_)⟩
    cases ph with
    | clear => exact ⟨_, rfl, rfl, rfl, fun _ => id⟩
    | exchange => exact ⟨_, rfl, rfl, rfl, fun _ => id⟩
    | link p => exact ⟨_, rfl, rfl, rfl, fun _ => id⟩
  | lastRead tail =>
    refine ⟨_, _, h.read hpt rfl rfl _ _ ?_⟩
    dsimp only [Point.step]
    by_cases hnext : mem (.next tail) ≠ .null
    · rw [if_pos hnext]
      exact .inr ⟨_, rfl, rfl, rfl, hknows.1, hknows.2, rfl, hnext⟩
    · rw [if_neg hnext]
      exact .inl rfl

end Inv

/-! ### Pushes that have returned -/

/-- A thread is in a push of the node. -/
def Pushing (points : θ → Option (Point ι)) (n : ι) : Prop := ∃ t ph, points t = some (.push n ph)

/-- Of the pushes of a node that were begun all have returned, but for the one that a thread is
in. -/
structure Counted (history : List (FreeListEvent θ ι)) (points : θ → Option (Point ι)) : Prop where
  idle : ∀ n, ¬ Pushing points n → (started history).count n = (finished history).count n
  busy : ∀ n, Pushing points n → (started history).count n = (finished history).count n + 1

theorem count_concat_of_ne {l : List ι} {n n' : ι} (hn : n' ≠ n) :
    (l ++ [n]).count n' = l.count n' := by
  rw [List.count_append, List.count_singleton, if_neg (by simpa using hn.symm), Nat.add_zero]

namespace Counted
variable {history history' : List (FreeListEvent θ ι)}
  {points points' : θ → Option (Point ι)} {n : ι}

/-- No push begins, and none returns. -/
theorem congr (h : Counted history points) (hstarted : started history' = started history)
    (hfinished : finished history' = finished history)
    (hpushing : ∀ n, Pushing points' n ↔ Pushing points n) : Counted history' points' := by
  constructor <;> intro n hn <;> rw [hpushing] at hn <;> rw [hstarted, hfinished]
  · exact h.idle n hn
  · exact h.busy n hn

/-- A push of `n` begins. -/
theorem start (h : Counted history points) (hstarted : started history' = started history ++ [n])
    (hfinished : finished history' = finished history) (hnot : ¬ Pushing points n)
    (hbusy : Pushing points' n)
    (hothers : ∀ n', n' ≠ n → (Pushing points' n' ↔ Pushing points n')) :
    Counted history' points' := by
  constructor <;> intro n' hn' <;> rw [hstarted, hfinished] <;> by_cases hn : n' = n
  · exact absurd (hn ▸ hbusy) hn'
  · rw [count_concat_of_ne hn]
    exact h.idle n' (mt (hothers n' hn).2 hn')
  · rw [hn, List.count_append, List.count_singleton_self, h.idle n hnot]
  · rw [count_concat_of_ne hn]
    exact h.busy n' ((hothers n' hn).1 hn')

/-- A push of `n` returns. -/
theorem finish (h : Counted history points) (hstarted : started history' = started history)
    (hfinished : finished history' = finished history ++ [n]) (hbusy : Pushing points n)
    (hnot : ¬ Pushing points' n)
    (hothers : ∀ n', n' ≠ n → (Pushing points' n' ↔ Pushing points n')) :
    Counted history' points' := by
  constructor <;> intro n' hn' <;> rw [hstarted, hfinished] <;> by_cases hn : n' = n
  · rw [hn, List.count_append, List.count_singleton_self]
    exact h.busy n hbusy
  · rw [count_concat_of_ne hn]
    exact h.idle n' (mt (hothers n' hn).2 hn')
  · exact absurd (hn ▸ hn') hnot
  · rw [count_concat_of_ne hn]
    exact h.busy n' ((hothers n' hn).1 hn')

end Counted

omit [DecidableEq ι] in
theorem finished_after (history : List (FreeListEvent θ ι)) (t : θ) (op : FreeListOp ι)
    (a : Access (FreeListLoc ι) (NodePtr ι)) (out : Out ι) :
    finished (history ++ .access t op a :: out.events t op) =
      finished history ++ finished (out.events t op : List (FreeListEvent θ ι)) := by
  rw [finished, List.filterMap_append, List.filterMap_cons]
  rfl

omit [DecidableEq ι] in
theorem inserting_eq_iff {pt : Point ι} {n : ι} {ph : Phase (NodePtr ι)} :
    pt.inserting = some (.node n, ph) ↔ pt = .push n ph := by
  cases pt <;> simp [Point.inserting]

omit [DecidableEq ι] in
theorem pushing_update_of_ne [DecidableEq θ] {points : θ → Option (Point ι)} {t : θ}
    {o : Option (Point ι)} {n : ι} (hold : ∀ ph, points t ≠ some (.push n ph))
    (hnew : ∀ ph, o ≠ some (.push n ph)) :
    Pushing (Function.update points t o) n ↔ Pushing points n := by
  refine exists_congr fun u => exists_congr fun ph => ?_
  by_cases hu : u = t
  · rw [hu, Function.update_self]
    exact iff_of_false (hnew ph) (hold ph)
  · rw [Function.update_of_ne hu]

namespace Inv
variable [DecidableEq θ] {c : θ} {mem : FreeListLoc ι → NodePtr ι}
  {history : List (FreeListEvent θ ι)} {points : θ → Option (Point ι)}
  {flight : NodePtr ι → Option (θ × Phase (NodePtr ι))} {chain : List (NodePtr ι)}

omit [DecidableEq θ] in
theorem flight_of_push (h : Inv c mem history points flight chain) {t : θ}
    {n : ι} {ph : Phase (NodePtr ι)} (hpt : points t = some (.push n ph)) :
    flight (.node n) = some (t, ph) :=
  (h.owner t _ ph).1 ⟨_, hpt, inserting_eq_iff.2 rfl⟩

omit [DecidableEq θ] in
/-- No push has returned whose exchange has not been made. -/
theorem count_finished_le (h : Inv c mem history points flight chain)
    (hcounted : Counted history points) (n : ι) :
    (finished history).count n ≤ (pushed history).count n := by
  have hcount := h.count n
  by_cases hpush : Pushing points n
  · obtain ⟨t, ph, hpt⟩ := hpush
    have hbusy := hcounted.busy n ⟨t, ph, hpt⟩
    rw [entering, h.flight_of_push hpt] at hcount
    cases ph <;> dsimp only at hcount <;> omega
  · have henter : entering flight (.node n) = 0 := by
      cases hflight : flight (.node n) with
      | none => rw [entering, hflight]
      | some tph =>
        obtain ⟨pt, hpt, hins⟩ := (h.owner tph.1 _ tph.2).2 hflight
        rw [inserting_eq_iff] at hins
        exact absurd ⟨tph.1, tph.2, hins ▸ hpt⟩ hpush
    rw [henter] at hcount
    exact Nat.le_of_eq ((hcounted.idle n hpush).symm.trans hcount)

/-- No other thread is in a push of the same node. -/
theorem not_pushing (h : Inv c mem history points flight chain) {t : θ}
    {n : ι} {ph : Phase (NodePtr ι)} (hpt : points t = some (.push n ph)) :
    ¬ Pushing (Function.update points t none) n := by
  rintro ⟨u, ph', hu⟩
  by_cases hut : u = t
  · rw [hut, Function.update_self] at hu
    cases hu
  · rw [Function.update_of_ne hut] at hu
    have heq := (h.flight_of_push hpt).symm.trans (h.flight_of_push hu)
    cases heq
    exact hut rfl

/-- An access of a push; the store that ends it ends the call. -/
theorem counted_push_step (h : Inv c mem history points flight chain)
    (hcounted : Counted history points) {t : θ} {n : ι} {ph : Phase (NodePtr ι)}
    (hpt : points t = some (.push n ph)) {a : Access (FreeListLoc ι) (NodePtr ι)} {out : Out ι}
    (hout : (∃ ph', out = .goes (.push n ph')) ∨ out = .returns none) :
    Counted (history ++ .access t (.push n) a :: out.events t (.push n))
      (Function.update points t out.point) := by
  have hbusy : Pushing points n := ⟨t, ph, hpt⟩
  have hothers {o : Option (Point ι)} (n' : ι) (hn : n' ≠ n)
      (ho : ∀ ph', o ≠ some (.push n' ph')) :
      Pushing (Function.update points t o) n' ↔ Pushing points n' :=
    pushing_update_of_ne (fun ph' hpush => hn (by rw [hpt] at hpush; cases hpush; rfl)) ho
  obtain ⟨ph', rfl⟩ | rfl := hout
  · refine hcounted.congr (started_after ..) ((finished_after ..).trans (List.append_nil _))
      fun n' => ?_
    by_cases hn : n' = n
    · subst hn
      exact iff_of_true ⟨t, ph', Function.update_self ..⟩ hbusy
    · exact hothers n' hn fun _ hpush => hn (by cases hpush; rfl)
  · exact hcounted.finish (started_after ..) (finished_after ..) hbusy (h.not_pushing hpt)
      fun n' hn => hothers n' hn nofun

/-- An access of a call. -/
theorem counted_step (h : Inv c mem history points flight chain) (hcounted : Counted history points)
    {t : θ} {pt : Point ι} (hpt : points t = some pt) :
    Counted (history ++ .access t pt.op (pt.step mem).1 :: (pt.step mem).2.2.events t pt.op)
      (Function.update points t (pt.step mem).2.2.point) := by
  have hpop (hop : pt.op = .pop) :
      Counted (history ++ .access t pt.op (pt.step mem).1 :: (pt.step mem).2.2.events t pt.op)
      (Function.update points t (pt.step mem).2.2.point) := by
    refine hcounted.congr (started_after ..) ((finished_after ..).trans ?_) fun n =>
      pushing_update_of_ne (fun ph hpush => ?_) fun ph hpush => ?_
    · rw [hop]
      cases (pt.step mem).2.2 <;> exact List.append_nil _
    · rw [hpt] at hpush
      cases hpush
      cases hop
    · cases hout : (pt.step mem).2.2 with
      | goes pt' =>
        rw [hout] at hpush
        cases hpush
        cases (op_step mem pt _ hout).trans hop
      | returns r =>
        rw [hout] at hpush
        cases hpush
  cases pt with
  | push n ph =>
    cases ph with
    | clear | exchange => exact h.counted_push_step hcounted hpt (.inl ⟨_, rfl⟩)
    | link prev => exact h.counted_push_step hcounted hpt (.inr rfl)
  | _ => exact hpop rfl

theorem counted_push (h : Inv c mem history points flight chain) (hcounted : Counted history points)
    {t : θ} {n : ι} (hidle : points t = none) (hfree : Free history n) :
    Counted (history ++ [.call t (.push n)])
      (Function.update points t (some (.push n .clear))) := by
  have hstarted : started (history ++ [.call t (.push n)]) = started history ++ [n] := by
    rw [started, List.filterMap_append]
    rfl
  have hfinished : finished (history ++ [.call t (.push n)]) = finished history := by
    rw [finished, List.filterMap_append]
    exact List.append_nil _
  have hnot : ¬ Pushing points n := by
    rintro ⟨u, ph, hpt⟩
    have hflight := h.flight_of_push hpt
    rw [((h.free_iff n).1 hfree).2] at hflight
    cases hflight
  refine hcounted.start hstarted hfinished hnot ⟨t, .clear, Function.update_self ..⟩ fun n' hn => ?_
  exact pushing_update_of_ne (fun ph hpush => by rw [hidle] at hpush; cases hpush) fun ph hpush =>
    hn (by cases hpush; rfl)

end Inv

theorem Counted.pop [DecidableEq θ] {history : List (FreeListEvent θ ι)}
    {points : θ → Option (Point ι)} (hcounted : Counted history points) {t : θ}
    (hidle : points t = none) :
    Counted (history ++ [.call t .pop]) (Function.update points t (some .readTail)) := by
  have hstarted : started (history ++ [.call t .pop]) = started history := by
    rw [started, List.filterMap_append]
    exact List.append_nil _
  have hfinished : finished (history ++ [.call t .pop]) = finished history := by
    rw [finished, List.filterMap_append]
    exact List.append_nil _
  refine hcounted.congr hstarted hfinished fun n => pushing_update_of_ne (fun ph hpush => ?_) nofun
  rw [hidle] at hpush
  cases hpush

/-- The invariant, whatever the threads' points and the chain are. -/
def Good [DecidableEq θ] (c : θ) (s : FreeListState θ ι) : Prop :=
  ∃ points flight chain, Shared.At (callPoints ι) s points ∧
    Inv c s.mem s.history points flight chain ∧ Counted s.history points

theorem Good.step [DecidableEq θ] {c : θ} {s s' : FreeListState θ ι} (h : Good c s)
    (hstep : Shared.Step code (Allowed c) s s') : Good c s' := by
  obtain ⟨points, flight, chain, hat, h, hcounted⟩ := h
  cases hstep with
  | call t op hidle hop =>
    have hpoint := hat.eq_none hidle
    cases op with
    | push n =>
      exact ⟨_, _, _, hat.call (.push n .clear) rfl, h.beginPush hpoint hop,
        h.counted_push hcounted hpoint hop⟩
    | pop =>
      obtain rfl : t = c := hop
      exact ⟨_, _, _, hat.call .readTail rfl, h.beginPop hpoint, hcounted.pop hpoint⟩
  | access t _ hacc =>
    obtain ⟨pt, hpt, hat', hmem, hhistory⟩ := hat.access hacc
    obtain ⟨flight', chain', h'⟩ := h.step hpt
    exact ⟨_, flight', chain', hat', by rw [hmem, hhistory]; exact h',
      by rw [hhistory]; exact h.counted_step hcounted hpt⟩

/-! ### Runs -/

/-- A zeroed `mpsc_freelist`; the nodes of the items hold anything. -/
structure Zeroed (mem : FreeListLoc ι → NodePtr ι) : Prop where
  head : mem .head = .null
  tail : mem .tail = .null
  stub : mem (.next .stub) = .null

/-- The state in which the threads start: after `InitMPSCFreeList` on `mem`. -/
def start (mem : FreeListLoc ι → NodePtr ι) : FreeListState θ ι :=
  Shared.init (initMPSCFreeList.run mem).2

theorem good_start [DecidableEq θ] (c : θ) {mem : FreeListLoc ι → NodePtr ι} (hmem : Zeroed mem) :
    Good c (start mem : FreeListState θ ι) := by
  refine ⟨fun _ => none, fun _ => none, [.stub], fun _ => rfl,
    ⟨⟨fun _ _ _ => ⟨nofun, nofun⟩, nofun, nofun⟩,
    ⟨rfl, rfl, List.nodup_singleton _, by simp, nofun, hmem.stub, nofun, nofun, nofun⟩,
    rfl, fun _ => rfl, nofun⟩,
    fun _ _ => rfl, fun _ hpush => ?_⟩
  obtain ⟨t, ph, hpt⟩ := hpush
  cases hpt

theorem rest_eq_write {pt : Point ι} {p q : NodePtr ι} {k : FreeListProg ι (Option (NodePtr ι))}
    (h : pt.rest = .write (.next p) q k) :
    pt.inserting = some (p, .clear) ∨ pt.inserting = some (q, .link p) := by
  cases pt with
  | push n ph => cases ph <;> cases h <;> simp [Point.inserting]
  | pushStub tail ph => cases ph <;> cases h <;> simp [Point.inserting]
  | _ => cases h

/-- The nodes of `chain` are those from `Tail` to `Head`, once the stores that some threads are
about to make are added. -/
structure Chained (s : FreeListState θ ι) (chain : List (NodePtr ι)) : Prop where
  tail : chain.head? = some (s.mem .tail)
  head : chain.getLast? = some (s.mem .head)
  nodup : chain.Nodup
  linked : ∀ p q, Follows chain p q →
    s.mem (.next p) = q ∨ (s.mem (.next p) = .null ∧ ∃ t, AboutToStore s t (.next p) q)
  last : s.mem (.next (s.mem .head)) = .null

namespace Inv
variable {c : θ} {s : FreeListState θ ι} {points : θ → Option (Point ι)}
  {flight : NodePtr ι → Option (θ × Phase (NodePtr ι))} {chain : List (NodePtr ι)}

theorem chained (hat : Shared.At (callPoints ι) s points)
    (h : Inv c s.mem s.history points flight chain) : Chained s chain := by
  refine ⟨h.queue.tail_eq, h.queue.head_eq, h.queue.nodup, fun p q hpq => ?_, h.queue.last⟩
  rcases h.queue.linked p q hpq with heq | ⟨hnull, t, hflight⟩
  · exact .inl heq
  · obtain ⟨pt, hpt, hins⟩ := (h.owner t q _).2 hflight
    have hrun := hat.eq_some hpt
    refine .inr ⟨hnull, t, ?_⟩
    cases pt with
    | push n ph => cases hins; exact ⟨_, _, hrun⟩
    | pushStub tail ph => cases hins; exact ⟨_, _, hrun⟩
    | _ => cases hins

/-- Nobody stores into a node that is not in the queue. -/
theorem not_aboutToStore (hat : Shared.At (callPoints ι) s points)
    (h : Inv c s.mem s.history points flight chain) {n : ι} (hn : Free s.history n) (t : θ)
    (q : NodePtr ι) : ¬ AboutToStore s t (.next (.node n)) q := by
  rintro ⟨op, k, hrun⟩
  obtain ⟨hout, hnone⟩ := (h.free_iff n).1 hn
  rw [hat t] at hrun
  obtain ⟨pt, hpt, hcall⟩ := Option.map_eq_some_iff.1 hrun
  have hrest : pt.rest = .write (.next (.node n)) q k := congrArg Prod.snd hcall
  rcases rest_eq_write hrest with hins | hins
  · have hflight := (h.owner t _ _).1 ⟨pt, hpt, hins⟩
    rw [hnone] at hflight
    cases hflight
  · exact hout (h.queue.inside q t _ ((h.owner t _ _).1 ⟨pt, hpt, hins⟩)).1.mem.1

theorem returned_prefix (h : Inv c s.mem s.history points flight chain) :
    returned s.history <+: (pushed s.history).map .node :=
  ⟨_, h.log.symm⟩

theorem count_returned_le (h : Inv c s.mem s.history points flight chain) (n : ι) :
    (returned s.history).count (.node n) ≤ (started s.history).count n := by
  rw [h.count n, h.count_pushed n]
  omega

/-- What `Pop` has just returned may be pushed again. -/
theorem free_of_returned (h : Inv c s.mem s.history points flight chain) {t : θ}
    {op : FreeListOp ι} {p : NodePtr ι} (hlast : s.history.getLast? = some (.ret t op (some p)))
    (hp : p ≠ .null) : ∃ n, p = .node n ∧ Free s.history n := by
  obtain ⟨hstub, hout, hflight⟩ := h.last t op p hlast hp
  cases p with
  | null => exact absurd rfl hp
  | stub => exact absurd rfl hstub
  | node n => exact ⟨n, rfl, (h.free_iff n).2 ⟨hout, hflight⟩⟩

end Inv

/-- The free list is safe in every state that an interleaving reaches: what was returned is an
initial part of what was pushed, in the order of the exchanges on `Head`, and the rest is the chain
from `Tail` to `Head`; every push that has returned is one of these; and no thread stores into a
node that is not in the queue, such as one that `Pop` has just returned. -/
theorem freeList_safe [DecidableEq θ] (c : θ) (mem : FreeListLoc ι → NodePtr ι)
    (hmem : Zeroed mem) (s : FreeListState θ ι)
    (hs : Shared.Reaches code (Allowed c) (start mem) s) :
    returned s.history <+: (pushed s.history).map .node ∧
      (∀ n, (returned s.history).count (.node n) ≤ (started s.history).count n) ∧
      (∀ n, (finished s.history).count n ≤ (pushed s.history).count n) ∧
      (∃ chain, Chained s chain ∧
        (pushed s.history).map .node = returned s.history ++ chain.filter (· ≠ .stub)) ∧
      (∀ n, Free s.history n → ∀ t q, ¬ AboutToStore s t (.next (.node n)) q) ∧
      ∀ t op p, s.history.getLast? = some (.ret t op (some p)) → p ≠ .null →
        ∃ n, p = .node n ∧ Free s.history n := by
  obtain ⟨points, flight, chain, hat, h, hcounted⟩ :=
    hs.inv (good_start c hmem) fun _ _ => Good.step
  exact ⟨h.returned_prefix, h.count_returned_le, h.count_finished_le hcounted,
    ⟨chain, h.chained hat, h.log⟩, fun n hn => h.not_aboutToStore hat hn,
    fun t op p => h.free_of_returned⟩

end

/-! Two producers and the consumer `2`: node `0` is exchanged in before node `1` but linked after
it, is popped, and is pushed again up to its exchange. -/

instance [DecidableEq ι] (history : List (FreeListEvent θ ι)) (n : ι) :
    Decidable (Free history n) := inferInstanceAs (Decidable (_ = _))

instance [DecidableEq ι] [DecidableEq θ] (c : θ) (s : FreeListState θ ι) (t : θ)
    (o : Option (FreeListOp ι)) : Decidable (Allowed c s t o) :=
  match o with
  | some (.push n) => inferInstanceAs (Decidable (Free s.history n))
  | some .pop => inferInstanceAs (Decidable (t = c))
  | none => inferInstanceAs (Decidable True)

def lateLink : List (Nat × Option (FreeListOp Nat)) :=
  [(0, some (.push 0)), (0, none), (0, none), (1, some (.push 1)), (1, none), (1, none), (1, none),
    (2, some .pop), (2, none), (2, none), (0, none), (2, some .pop), (2, none),
    (2, none), (2, none), (2, none), (2, none), (0, some (.push 0)), (0, none), (0, none)]

def lateLinkState : FreeListState Nat Nat :=
  (Shared.schedule code (Allowed 2) lateLink (start fun _ => .null)).getD (start fun _ => .null)

theorem freeList_safe_lateLink :
    returned lateLinkState.history = [.node 0] ∧ pushed lateLinkState.history = [0, 1, 0] ∧
      ∃ chain, Chained lateLinkState chain ∧
        (pushed lateLinkState.history).map .node = returned lateLinkState.history ++
        chain.filter (· ≠ .stub) := by
  have hsched : Shared.schedule code (Allowed 2) lateLink (start fun _ => .null) =
      some lateLinkState :=
    Option.eq_some_of_isSome (by decide +kernel)
  exact ⟨by decide +kernel, by decide +kernel,
    (freeList_safe 2 (fun _ => .null) ⟨rfl, rfl, rfl⟩ lateLinkState
      (Shared.reaches_of_schedule hsched)).2.2.2.1⟩

end FreeList

end TinyBase
