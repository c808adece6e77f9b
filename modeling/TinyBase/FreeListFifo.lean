import TinyBase.Lib.Calls
import TinyBase.MpscFreeList

/-!
# The free list in one thread

Used by one thread, an initialised free list is a queue if `Stub.Next` was `NULL` before:
`InitMPSCFreeList` sets `Head` and `Tail`, but the first `Pop` follows `Stub.Next`. Of the chain
from `Tail` to `Head`, in which the stub stands anywhere or nowhere, the queue is what is left
without the stub.
-/

namespace TinyBase
namespace FreeList
variable {ι : Type} [DecidableEq ι]

/-- A call made by the only thread. -/
def queueCall (mem : FreeListLoc ι → NodePtr ι) (op : FreeListOp ι) :
    Option (NodePtr ι) × (FreeListLoc ι → NodePtr ι) :=
  (code op).run mem

/-- A queue of nodes. -/
def fifoCall (held : List ι) : FreeListOp ι → Option (NodePtr ι) × List ι
  | .push n => (none, held ++ [n])
  | .pop =>
    match held with
    | [] => (some .null, [])
    | n :: held => (some (.node n), held)

/-- Only nodes that are not in the queue are pushed. -/
def PushesNew (held : List ι) (ops : List (FreeListOp ι)) : Prop :=
  AllCalls fifoCall (fun held op _ _ => ∀ n, op = .push n → n ∉ held) held ops

/-- The chain from `Tail` to `Head`, with all its links stored. -/
def Stored (mem : FreeListLoc ι → NodePtr ι) (chain : List (NodePtr ι)) : Prop :=
  LinkedQueue .null (fun p => mem (.next p)) (mem .head) (mem .tail)
    (fun _ => (none : Option (Unit × Phase (NodePtr ι)))) chain

/-- The chain without the stub is `held`. -/
def Represents (mem : FreeListLoc ι → NodePtr ι) (held : List ι) : Prop :=
  ∃ chain, Stored mem chain ∧ chain.filter (· ≠ .stub) = held.map .node

section
variable {mem : FreeListLoc ι → NodePtr ι} {chain : List (NodePtr ι)} {held : List ι}

/-- The memory after a push. -/
def pushedMem (mem : FreeListLoc ι → NodePtr ι) (x : NodePtr ι) : FreeListLoc ι → NodePtr ι :=
  Function.update (Function.update (Function.update mem (.next x) .null) .head x)
    (.next (mem .head)) x

theorem run_push (x : NodePtr ι) : (mpscFreeListPush x).run mem = ((), pushedMem mem x) := by
  simp [mpscFreeListPush, Prog.run_bind, Prog.run_store, Prog.run_exchange, pushedMem]

theorem queueCall_push (n : ι) : queueCall mem (.push n) = (none, pushedMem mem (.node n)) := by
  simp [queueCall, code, Prog.run_bind, Prog.run_pure, run_push]

/-! ### `Pop` by cases -/

theorem queueCall_pop :
    queueCall mem .pop = (some (mpscFreeListPop.run mem).1, (mpscFreeListPop.run mem).2) := by
  simp [queueCall, code, Prog.run_bind, Prog.run_pure]

section
variable {tail next : NodePtr ι}

theorem run_popTail_next (hnext : next ≠ .null) :
    (mpscFreeListPopTail tail next).run mem = (tail, Function.update mem .tail next) := by
  rw [mpscFreeListPopTail, if_pos hnext]
  rfl

theorem run_popTail_head (hhead : tail ≠ mem .head) :
    (mpscFreeListPopTail tail .null).run mem = (.null, mem) := by
  simp [mpscFreeListPopTail, Prog.run_bind, Prog.run_load, Prog.run_pure, hhead]

theorem run_popTail_last (hhead : mem .head = tail)
    (hlast : pushedMem mem .stub (.next tail) = .stub) :
    (mpscFreeListPopTail tail .null).run mem =
      (tail, Function.update (pushedMem mem .stub) .tail .stub) := by
  simp [mpscFreeListPopTail, mpscFreeListPopLast, Prog.run_bind, Prog.run_load, Prog.run_store,
    Prog.run_pure, run_push, hhead, hlast]

theorem run_pop_node (htail : mem .tail ≠ .stub) :
    mpscFreeListPop.run mem =
      (mpscFreeListPopTail (mem .tail) (mem (.next (mem .tail)))).run mem := by
  simp [mpscFreeListPop, Prog.run_bind, Prog.run_load, htail]

theorem run_pop_empty (htail : mem .tail = .stub) (hnext : mem (.next .stub) = .null) :
    mpscFreeListPop.run mem = (.null, mem) := by
  simp [mpscFreeListPop, Prog.run_bind, Prog.run_load, Prog.run_pure, htail, hnext]

theorem run_pop_stub (htail : mem .tail = .stub) (hnext : mem (.next .stub) = next)
    (hnull : next ≠ .null) : mpscFreeListPop.run mem =
      (mpscFreeListPopTail next (mem (.next next))).run (Function.update mem .tail next) := by
  simp [mpscFreeListPop, Prog.run_bind, Prog.run_load, Prog.run_store, htail, hnext, hnull]

end

/-! ### The queue -/

theorem Stored.push (h : Stored mem chain) {x : NodePtr ι} (hx : x ∉ chain) (hnull : x ≠ .null) :
    Stored (pushedMem mem x) (chain ++ [x]) := by
  have hq := h.insert () hx hnull
  have hnext : (fun r => pushedMem mem x (.next r)) =
      Function.update (Function.update (fun r => mem (.next r)) x .null) (mem .head) x := by
    rw [pushedMem, next_update, ← next_update x]
    simp
  rw [← hnext] at hq
  simpa [Stored, pushedMem] using hq

theorem Stored.moveTail (h : Stored mem chain) (hnext : mem (.next (mem .tail)) ≠ .null) :
    ∃ l, chain = mem .tail :: l ∧
      Stored (Function.update mem .tail (mem (.next (mem .tail)))) l := by
  obtain ⟨l, rfl⟩ := h.chain_eq_cons hnext
  exact ⟨_, rfl, by simpa [Stored] using (h.advance hnext).1⟩

omit [DecidableEq ι] in
theorem node_not_mem {n : ι} [DecidableEq ι] (h : chain.filter (· ≠ .stub) = held.map .node)
    (hn : n ∉ held) : .node n ∉ chain := by
  intro hmem
  have hheld : NodePtr.node n ∈ held.map .node := h ▸ List.mem_filter.2 ⟨hmem, by simp⟩
  obtain ⟨n', hn', heq⟩ := List.mem_map.1 hheld
  cases heq
  exact hn hn'

theorem Represents.push (h : Represents mem held) {n : ι} (hn : n ∉ held) :
    Represents (pushedMem mem (.node n)) (held ++ [n]) := by
  obtain ⟨chain, hstored, hheld⟩ := h
  refine ⟨_, hstored.push (node_not_mem hheld hn) nofun, ?_⟩
  rw [List.filter_append, hheld, List.map_append]
  rfl

/-- A first node that is not the stub is the oldest of the queue. -/
theorem oldest {p : NodePtr ι} (h : (p :: chain).filter (· ≠ .stub) = held.map .node)
    (hp : p ≠ .stub) :
    ∃ n rest, held = n :: rest ∧ p = .node n ∧ chain.filter (· ≠ .stub) = rest.map .node := by
  rw [List.filter_cons_of_pos (by simpa using hp)] at h
  cases held with
  | nil => cases h
  | cons n rest =>
    obtain ⟨hn, hrest⟩ := List.cons.inj h
    exact ⟨n, rest, rfl, hn, hrest⟩

/-- `Pop` when `Tail` is not the stub takes `Tail` out. -/
theorem Stored.popTail (h : Stored mem chain) (hheld : chain.filter (· ≠ .stub) = held.map .node)
    (htail : mem .tail ≠ .stub) : ∃ n rest mem', held = n :: rest ∧ Represents mem' rest ∧
      (mpscFreeListPopTail (mem .tail) (mem (.next (mem .tail)))).run mem = (.node n, mem') := by
  by_cases hnext : mem (.next (mem .tail)) = .null
  · -- the last node: the stub is pushed behind it
    obtain rfl := h.eq_singleton_of_next hnext
    have hhead : mem .tail = mem .head := Option.some.inj h.head_eq
    have htail' : pushedMem mem .stub .tail = mem .tail := by simp [pushedMem]
    have hnext' : pushedMem mem .stub (.next (mem .tail)) = .stub := by
      rw [hhead]; exact Function.update_self ..
    obtain ⟨l, hl, hmoved⟩ := (h.push (x := .stub) (by simpa using htail.symm) nofun).moveTail
      (by rw [htail', hnext']; nofun)
    rw [htail', hnext'] at hmoved
    obtain ⟨-, rfl⟩ := List.cons.inj hl
    obtain ⟨n, rest, rfl, hn, hrest⟩ := oldest hheld htail
    refine ⟨n, rest, _, rfl, ⟨_, hmoved, by simpa using hrest⟩, ?_⟩
    rw [hnext, run_popTail_last hhead.symm hnext', hn]
  · obtain ⟨l, rfl, hmoved⟩ := h.moveTail hnext
    obtain ⟨n, rest, rfl, hn, hrest⟩ := oldest hheld htail
    exact ⟨n, rest, _, rfl, ⟨l, hmoved, hrest⟩, by rw [run_popTail_next hnext, hn]⟩

theorem Represents.pop (h : Represents mem held) :
    (queueCall mem .pop).1 = (fifoCall held .pop).1 ∧
      Represents (queueCall mem .pop).2 (fifoCall held .pop).2 := by
  obtain ⟨chain, hstored, hheld⟩ := h
  rw [queueCall_pop]
  by_cases htail : mem .tail = .stub
  · by_cases hnext : mem (.next .stub) = .null
    · obtain rfl := hstored.eq_singleton_of_next (by rw [htail]; exact hnext)
      obtain rfl : held = [] := by simpa [htail] using hheld.symm
      rw [run_pop_empty htail hnext]
      exact ⟨rfl, _, hstored, hheld⟩
    · -- the stub is left behind first
      obtain ⟨l, rfl, hmoved⟩ := hstored.moveTail (by rw [htail]; exact hnext)
      rw [htail] at hmoved hheld
      have hmem : mem (.next .stub) ∈ l := List.mem_of_head? (by simpa using hmoved.tail_eq)
      have hstub : mem (.next .stub) ≠ .stub := fun heq =>
        (List.nodup_cons.1 hstored.nodup).1 (by rw [htail]; exact heq ▸ hmem)
      obtain ⟨n, rest, mem', rfl, hrest, hrun⟩ :=
        hmoved.popTail (by simpa using hheld) (by simpa using hstub)
      rw [run_pop_stub htail rfl hnext]
      simp only [Function.update_self, ne_eq, reduceCtorEq, not_false_eq_true,
        Function.update_of_ne] at hrun
      rw [hrun]
      exact ⟨rfl, hrest⟩
  · obtain ⟨n, rest, mem', rfl, hrest, hrun⟩ := hstored.popTail hheld htail
    rw [run_pop_node htail, hrun]
    exact ⟨rfl, hrest⟩

theorem Represents.step (h : Represents mem held) {op : FreeListOp ι}
    (hop : ∀ n, op = .push n → n ∉ held) :
    (queueCall mem op).1 = (fifoCall held op).1 ∧
      Represents (queueCall mem op).2 (fifoCall held op).2 := by
  cases op with
  | push n =>
    rw [queueCall_push]
    exact ⟨rfl, h.push (hop n rfl)⟩
  | pop => exact h.pop

/-! ### What `InitMPSCFreeList` leaves -/

/-- The memory after `InitMPSCFreeList`. -/
def initMem (mem : FreeListLoc ι → NodePtr ι) : FreeListLoc ι → NodePtr ι :=
  (initMPSCFreeList.run mem).2

theorem represents_initMem (hstub : mem (.next .stub) = .null) : Represents (initMem mem) [] :=
  ⟨[.stub], ⟨rfl, rfl, List.nodup_singleton _, by simp, nofun, hstub, nofun, nofun, nofun⟩, rfl⟩

/-- A node that is pushed when `Tail` has left `Head` behind is not found. -/
theorem pop_hidden {m n : ι} (htail : mem .tail = .node m) (hhead : mem .head = .stub)
    (hnext : mem (.next (.node m)) = .null) (hn : n ≠ m) :
    (queueCall (pushedMem mem (.node n)) .pop).1 = some .null := by
  have htail' : pushedMem mem (.node n) .tail = .node m := by simp [pushedMem, htail]
  have hhead' : pushedMem mem (.node n) .head = .node n := by simp [pushedMem]
  have hnext' : pushedMem mem (.node n) (.next (.node m)) = .null := by
    simp [pushedMem, hhead, hnext, hn.symm]
  rw [queueCall_pop, run_pop_node (by rw [htail']; nofun), htail', hnext', run_popTail_head]
  rw [hhead']
  exact fun heq => hn (NodePtr.node.inj heq).symm

/-- A queue whose `Stub.Next` is not `NULL` returns what it should not, or hides what is pushed. -/
theorem initMem_wrong [Nontrivial ι] (hstub : mem (.next .stub) ≠ .null) :
    ∃ ops, PushesNew [] ops ∧ answers queueCall (initMem mem) ops ≠ answers fifoCall [] ops := by
  have htail : initMem mem .tail = .stub := rfl
  have hnext : initMem mem (.next .stub) = mem (.next .stub) := rfl
  have hpop := @run_pop_stub ι _ (initMem mem) _ htail hnext hstub
  have hnext' : initMem mem (.next (mem (.next .stub))) = mem (.next (mem (.next .stub))) := rfl
  rw [hnext'] at hpop
  by_cases hlast : mem (.next (mem (.next .stub))) = .null
  · obtain ⟨m, hm⟩ : ∃ m, mem (.next .stub) = .node m := by
      cases hg : mem (.next .stub) with
      | null => exact absurd hg hstub
      | stub => exact absurd (hg ▸ hlast) hstub
      | node m => exact ⟨m, rfl⟩
    obtain ⟨n, hn⟩ := exists_ne m
    have hhead : Function.update (initMem mem) .tail (.node m) .head = .stub := by
      rw [Function.update_of_ne (by simp)]
      rfl
    have hfirst : queueCall (initMem mem) .pop =
        (some .null, Function.update (initMem mem) .tail (.node m)) := by
      rw [queueCall_pop, hpop, hlast, hm, run_popTail_head (by rw [hhead]; nofun)]
    have hthird :=
      pop_hidden (Function.update_self ..) hhead (by simpa [hm] using hnext'.trans hlast) hn
    refine ⟨[.pop, .push n, .pop], ⟨nofun, fun n' _ => List.not_mem_nil, nofun, trivial⟩, ?_⟩
    rw [answers_cons, answers_cons, answers_cons, hfirst, queueCall_push, hthird]
    intro heq
    cases heq
  · refine ⟨[.pop], ⟨nofun, trivial⟩, ?_⟩
    rw [answers_cons, queueCall_pop, hpop, run_popTail_next hlast]
    intro heq
    exact hstub (Option.some.inj (List.cons.inj heq).1)

/-- `InitMPSCFreeList` makes an empty queue of the memory exactly if `Stub.Next` is `NULL`. -/
theorem initMPSCFreeList_fifo_iff [Nontrivial ι] (mem : FreeListLoc ι → NodePtr ι) :
    (∀ ops, PushesNew [] ops → answers queueCall (initMPSCFreeList.run mem).2 ops =
      answers fifoCall [] ops) ↔ mem (.next .stub) = .null := by
  constructor
  · intro h
    by_contra hstub
    obtain ⟨ops, hops, hne⟩ := initMem_wrong hstub
    exact hne (h ops hops)
  · intro hstub ops hops
    exact answers_eq Represents (fun _ _ _ h hop => h.step hop) hops (represents_initMem hstub)

end

/-! A queue that was zeroed and initialised, and to which a node was pushed. -/

def usedMem : FreeListLoc Nat → NodePtr Nat := (queueCall (initMem fun _ => .null) (.push 0)).2

theorem initMPSCFreeList_fifo_iff_zeroed :
    answers queueCall (initMPSCFreeList.run fun _ => NodePtr.null).2 [.push 1, .push 2, .pop,
      .push 1, .pop, .pop, .pop] =
      [none, none, some (.node 1), none, some (.node 2), some (.node 1), some .null] :=
  ((initMPSCFreeList_fifo_iff fun _ => NodePtr.null).2 rfl _ (by simp [PushesNew, fifoCall])).trans
    (by decide)

/-- After a second `InitMPSCFreeList` the node that is pushed does not come out. -/
theorem initMPSCFreeList_used :
    usedMem (.next .stub) = .node 0 ∧ PushesNew [] [.pop, .push 1, .pop] ∧
    answers queueCall (initMPSCFreeList.run usedMem).2 [.pop, .push 1, .pop] =
      [some .null, none, some .null] ∧
    ¬ ∀ ops, PushesNew [] ops → answers queueCall (initMPSCFreeList.run usedMem).2 ops =
      answers fifoCall [] ops := by
  have hops : PushesNew [] [FreeListOp.pop, .push 1, .pop] := by simp [PushesNew, fifoCall]
  have hanswers : answers queueCall (initMPSCFreeList.run usedMem).2 [.pop, .push 1, .pop] =
      [some .null, none, some .null] := by
    decide
  refine ⟨by decide, hops, hanswers, fun h => ?_⟩
  exact absurd (hanswers.symm.trans (h _ hops)) (by decide)

end FreeList
end TinyBase
