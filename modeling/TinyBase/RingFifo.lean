import TinyBase.Lib.Calls
import TinyBase.MpmcRingBuffer

/-!
# The ring buffer in one thread

Used by one thread, the GCC build is a bounded queue, also when the cursors wrap around: the items
ever put in and those taken out are counted from the value the cursors start at, so that
`RingWindow` describes the slots. In the MSVC build a push to a full ring claims to have succeeded
and moves `WriteCur`.
-/

namespace TinyBase
namespace RingBuffer

/-- A call made by the only thread. -/
def ringCall (build : Build) (maxCur : Usz) (mem : RingLoc → UInt64) :
    RingOp → RingResult × (RingLoc → UInt64)
  | .push item =>
    let (result, mem) := (mpmcRingBufferPushIn build maxCur item).run mem
    (.pushed result, mem)
  | .pop =>
    let (item, mem) := (mpmcRingBufferPopIn build maxCur).run mem
    (.popped item, mem)

/-- A queue of at most `capacity` items. -/
def fifoCall (capacity : Nat) (held : List Ptr) : RingOp → RingResult × List Ptr
  | .push item =>
    if held.length < capacity then (.pushed true, held ++ [item]) else (.pushed false, held)
  | .pop =>
    match held with
    | [] => (.popped 0, [])
    | item :: held => (.popped item, held)

/-- An item that may be pushed. -/
def NonNull : RingOp → Prop
  | .push item => item ≠ 0
  | .pop => True

/-- The slots hold the items `held`, and the cursors are at their ends. Both cursors count modulo
2^64 from an item that may never have existed. -/
def Represents (k : Nat) (mem : RingLoc → UInt64) (held : List Ptr) : Prop :=
  ∃ (items : List Ptr) (first : Nat), RingWindow (2 ^ k) (slots mem) 0 items first ∧
    mem .writeCur = UInt64.ofNat items.length ∧ mem .readCur = UInt64.ofNat first ∧
    items.drop first = held

/-- A zeroed ring with both cursors at the same value. -/
structure ZeroedRing (k : Nat) (mem : RingLoc → UInt64) : Prop where
  slots : ∀ i, i < 2 ^ k → mem (.slot (UInt64.ofNat i)) = 0
  cursors : mem .readCur = mem .writeCur

/-! ### The calls -/

section
variable {mem : RingLoc → UInt64} {maxCur : Usz} {item : Ptr} {i : RingLoc}

theorem ringCall_push (build : Build) (hi : i = .slot (mem .writeCur &&& maxCur))
    (hfree : mem i = 0) : ringCall build maxCur mem (.push item) =
      (.pushed true,
        Function.update (Function.update mem i item) .writeCur (mem .writeCur + 1)) := by
  subst hi
  cases build <;>
    simp [ringCall, mpmcRingBufferPushIn, atomicCompareExchangePtr, Prog.run_bind, Prog.run_load,
      Prog.run_addFetch, Prog.run_pure, Prog.run_compareExchange_of_eq item hfree]

theorem ringCall_push_full (hi : i = .slot (mem .writeCur &&& maxCur)) (hfull : mem i ≠ 0) :
    ringCall .gcc maxCur mem (.push item) = (.pushed false, mem) ∧
      ringCall .msvc maxCur mem (.push item) = (.pushed true,
        Function.update mem .writeCur (mem .writeCur + 1)) := by
  subst hi
  constructor <;>
    simp [ringCall, mpmcRingBufferPushIn, atomicCompareExchangePtr, Prog.run_bind, Prog.run_load,
      Prog.run_addFetch, Prog.run_pure, Prog.run_compareExchange_of_ne item hfull]

theorem ringCall_pop (build : Build) (hi : i = .slot (mem .readCur &&& maxCur))
    (hitem : mem i ≠ 0) : ringCall build maxCur mem .pop =
      (.popped (mem i), Function.update (Function.update mem i 0) .readCur (mem .readCur + 1)) := by
  subst hi
  cases build <;>
    simp [ringCall, mpmcRingBufferPopIn, atomicCompareExchangePtr, Prog.run_bind, Prog.run_load,
      Prog.run_addFetch, Prog.run_pure, hitem, Prog.run_compareExchange_of_eq (0 : Ptr) rfl]

theorem ringCall_pop_empty (build : Build) (hi : i = .slot (mem .readCur &&& maxCur))
    (hnone : mem i = 0) : ringCall build maxCur mem .pop = (.popped 0, mem) := by
  subst hi
  simp [ringCall, mpmcRingBufferPopIn, Prog.run_bind, Prog.run_load, Prog.run_pure, hnone]

end

/-! ### What is represented -/

theorem slots_cursor (mem : RingLoc → UInt64) (cur : RingLoc) (hcur : ∀ i, cur ≠ .slot i)
    (v : UInt64) : slots (Function.update mem cur v) = slots mem := by
  funext j
  rw [slots, slots, Function.update_of_ne fun heq => hcur _ heq.symm]

theorem toNat_cursor {k n : Nat} (hk : k < 64) {cur : UInt64} (hcur : cur = UInt64.ofNat n) :
    (cur &&& maxCur k).toNat = n % 2 ^ k := by
  rw [toNat_and_maxCur hk, hcur, Inv.toNat_mod hk]

theorem ZeroedRing.represents {k : Nat} {mem : RingLoc → UInt64} (h : ZeroedRing k mem) :
    Represents k mem [] := by
  -- all the items before the start have been taken out
  refine ⟨List.replicate (mem .writeCur).toNat 1, (mem .writeCur).toNat,
    ⟨by simp, by simp, fun j hj hfirst => ?_,
    fun i hi hne => absurd (h.slots i hi) hne, fun x hx => ?_⟩, by simp, by
      simp [h.cursors], by simp⟩
  · rw [List.length_replicate] at hj
    omega
  · rw [List.eq_of_mem_replicate hx]
    decide

namespace Represents
variable {k : Nat} {mem : RingLoc → UInt64} {held : List Ptr}

/-- The slot of the next push is free exactly if the ring is not full. -/
theorem free_iff (hk : k < 64) (h : Represents k mem held) :
    mem (.slot (mem .writeCur &&& maxCur k)) = 0 ↔ held.length < 2 ^ k := by
  obtain ⟨items, first, hwindow, hwrite, -, rfl⟩ := h
  have hle := hwindow.le
  rw [Inv.slot_cursor mem hk hwrite, hwindow.next_eq_iff (Nat.two_pow_pos k), List.length_drop]
  omega

theorem oldest (hk : k < 64) (h : Represents k mem held) :
    mem (.slot (mem .readCur &&& maxCur k)) = held.headD 0 := by
  obtain ⟨items, first, hwindow, -, hread, rfl⟩ := h
  rw [Inv.slot_cursor mem hk hread, hwindow.oldest (Nat.two_pow_pos k), List.getD_eq_getElem?_getD,
    ← List.head?_drop, List.headD_eq_head?_getD]

theorem nonNull (h : Represents k mem held) : ∀ item ∈ held, item ≠ 0 := by
  obtain ⟨items, first, hwindow, -, -, rfl⟩ := h
  exact fun item hitem => hwindow.nonzero item (List.mem_of_mem_drop hitem)

theorem push (hk : k < 64) (h : Represents k mem held) {item : Ptr} (hitem : item ≠ 0)
    (hroom : held.length < 2 ^ k) :
    Represents k
      (Function.update (Function.update mem (.slot (mem .writeCur &&& maxCur k)) item) .writeCur
        (mem .writeCur + 1)) (held ++ [item]) := by
  have hfree := (h.free_iff hk).2 hroom
  obtain ⟨items, first, hwindow, hwrite, hread, rfl⟩ := h
  have hpow : 2 ^ k ≤ 2 ^ 64 := Nat.pow_le_pow_right (by decide) (by omega)
  rw [Inv.slot_cursor mem hk hwrite] at hfree
  refine ⟨items ++ [item], first, ?_, ?_, ?_, List.drop_append_of_le_length hwindow.le⟩
  · rw [slots_cursor _ .writeCur fun _ => nofun]
    refine (hwindow.push (Nat.two_pow_pos k) hfree hitem).congr fun j hj => ?_
    rw [Inv.slots_update (Nat.lt_of_lt_of_le hj hpow), toNat_cursor hk hwrite]
  · rw [Function.update_self, hwrite, List.length_append, UInt64.ofNat_add]
    rfl
  · simpa using hread

theorem pop (hk : k < 64) {item : Ptr} (h : Represents k mem (item :: held)) :
    Represents k
      (Function.update (Function.update mem (.slot (mem .readCur &&& maxCur k)) 0) .readCur
        (mem .readCur + 1)) held := by
  have hslot := h.oldest hk
  have hitem := h.nonNull item List.mem_cons_self
  obtain ⟨items, first, hwindow, hwrite, hread, hheld⟩ := h
  have hpow : 2 ^ k ≤ 2 ^ 64 := Nat.pow_le_pow_right (by decide) (by omega)
  rw [Inv.slot_cursor mem hk hread] at hslot
  refine ⟨items, first + 1, ?_, ?_, ?_, ?_⟩
  · rw [slots_cursor _ .readCur fun _ => nofun]
    refine (hwindow.pop (Nat.two_pow_pos k) (by rw [hslot]; exact hitem)).1.congr fun j hj => ?_
    rw [Inv.slots_update (Nat.lt_of_lt_of_le hj hpow), toNat_cursor hk hread]
  · simpa using hwrite
  · rw [Function.update_self, hread, UInt64.ofNat_add]
    rfl
  · rw [← List.drop_drop, hheld]
    rfl

/-- A call in the GCC build does what the queue does. -/
theorem step (hk : k < 64) (h : Represents k mem held) {op : RingOp} (hop : NonNull op) :
    (ringCall .gcc (maxCur k) mem op).1 = (fifoCall (2 ^ k) held op).1 ∧
      Represents k (ringCall .gcc (maxCur k) mem op).2 (fifoCall (2 ^ k) held op).2 := by
  cases op with
  | push item =>
    rw [fifoCall]
    by_cases hroom : held.length < 2 ^ k
    · rw [ringCall_push .gcc rfl ((h.free_iff hk).2 hroom), if_pos hroom]
      exact ⟨rfl, h.push hk hop hroom⟩
    · rw [(ringCall_push_full rfl (mt (h.free_iff hk).1 hroom)).1, if_neg hroom]
      exact ⟨rfl, h⟩
  | pop =>
    have hslot := h.oldest hk
    cases held with
    | nil =>
      rw [ringCall_pop_empty .gcc rfl hslot]
      exact ⟨rfl, h⟩
    | cons item held =>
      have hitem := h.nonNull item List.mem_cons_self
      rw [ringCall_pop .gcc rfl (by rw [hslot]; exact hitem), hslot]
      exact ⟨rfl, h.pop hk⟩

end Represents

/-- In one thread the GCC build is a queue of at most `2 ^ k` items. -/
theorem ringBuffer_fifo (k : Nat) (hk : k ≤ 60) (mem : RingLoc → UInt64)
    (hmem : ZeroedRing k mem) (ops : List RingOp) (hops : ∀ op ∈ ops, NonNull op) :
    answers (ringCall .gcc (maxCur k)) mem ops = answers (fifoCall (2 ^ k)) [] ops := by
  refine answers_eq (Represents k) (fun _ _ op h hop => h.step (by omega) hop)
    (AllCalls.of_forall ?_) hmem.represents
  exact fun _ op hop => hops op hop

/-! A ring of two slots whose cursors are about to wrap around. -/

def lateRing : RingLoc → UInt64
  | .slot _ => 0
  | _ => 0xFFFFFFFFFFFFFFFF

theorem lateRing_zeroed : ZeroedRing 1 lateRing := ⟨fun _ _ => rfl, rfl⟩

theorem ringBuffer_fifo_lateRing :
    answers (ringCall .gcc (maxCur 1)) lateRing [.push 5, .push 7, .push 9, .pop,
      .push 5, .pop, .pop, .pop] =
      [.pushed true, .pushed true, .pushed false, .popped 5, .pushed true,
        .popped 7, .popped 5, .popped 0] :=
  have hops : ∀ op ∈ [RingOp.push 5, .push 7, .push 9, .pop, .push 5, .pop, .pop, .pop],
      NonNull op := by
    simp [NonNull]
  (ringBuffer_fifo 1 (by decide) lateRing lateRing_zeroed _ hops).trans (by decide)

/-! ### The MSVC build -/

/-- The push has put the item into a slot that was free. -/
def Stores (k : Nat) (mem : RingLoc → UInt64) (op : RingOp) (result : RingResult)
    (mem' : RingLoc → UInt64) : Prop :=
  ∀ item, op = .push item → result = .pushed true →
    ∃ i, i < 2 ^ k ∧ mem (.slot (UInt64.ofNat i)) = 0 ∧ mem' (.slot (UInt64.ofNat i)) = item

/-- Both builds return the same, and a push of the MSVC build that returns `true` has stored its
item. -/
def BuildsAgree (k : Nat) (mem : RingLoc → UInt64) (ops : List RingOp) : Prop :=
  answers (ringCall .msvc (maxCur k)) mem ops = answers (ringCall .gcc (maxCur k)) mem ops ∧
    AllCalls (ringCall .msvc (maxCur k)) (Stores k) mem ops

/-- No push is made while `2 ^ k` items are held. -/
def NeverFull (k : Nat) (held : List Ptr) (ops : List RingOp) : Prop :=
  AllCalls (fifoCall (2 ^ k)) (fun held op _ _ => op ≠ .pop → held.length < 2 ^ k) held ops

theorem ringCall_msvc_pop (maxCur : Usz) (mem : RingLoc → UInt64) :
    ringCall .msvc maxCur mem .pop = ringCall .gcc maxCur mem .pop := by
  by_cases hnone : mem (.slot (mem .readCur &&& maxCur)) = 0
  · rw [ringCall_pop_empty .msvc rfl hnone, ringCall_pop_empty .gcc rfl hnone]
  · rw [ringCall_pop .msvc rfl hnone, ringCall_pop .gcc rfl hnone]

namespace Represents
variable {k : Nat} {mem : RingLoc → UInt64} {held : List Ptr}

/-- The builds do the same unless a push finds the ring full. -/
theorem msvc_eq (hk : k < 64) (h : Represents k mem held) {op : RingOp}
    (hroom : op ≠ .pop → held.length < 2 ^ k) :
    ringCall .msvc (maxCur k) mem op = ringCall .gcc (maxCur k) mem op := by
  cases op with
  | push item =>
    have hfree := (h.free_iff hk).2 (hroom nofun)
    rw [ringCall_push .msvc rfl hfree, ringCall_push .gcc rfl hfree]
  | pop => exact ringCall_msvc_pop _ _

theorem stores (hk : k < 64) (h : Represents k mem held) {op : RingOp}
    (hroom : op ≠ .pop → held.length < 2 ^ k) :
    Stores k mem op (ringCall .msvc (maxCur k) mem op).1 (ringCall .msvc (maxCur k) mem op).2 := by
  rintro item rfl -
  have hfree := (h.free_iff hk).2 (hroom nofun)
  have hslot : UInt64.ofNat ((mem .writeCur).toNat % 2 ^ k) = mem .writeCur &&& maxCur k := by
    rw [← toNat_and_maxCur hk, UInt64.ofNat_toNat]
  refine ⟨(mem .writeCur).toNat % 2 ^ k, Nat.mod_lt _ (Nat.two_pow_pos k),
    by rw [hslot]; exact hfree, ?_⟩
  rw [ringCall_push .msvc rfl hfree, hslot]
  simp

/-- A push to a full ring is told apart. -/
theorem msvc_ne (hk : k < 64) (h : Represents k mem held) {op : RingOp} (hop : op ≠ .pop)
    (hfull : ¬ held.length < 2 ^ k) :
    (ringCall .msvc (maxCur k) mem op).1 ≠ (ringCall .gcc (maxCur k) mem op).1 := by
  cases op with
  | push item =>
    obtain ⟨hgcc, hmsvc⟩ :=
      @ringCall_push_full mem (maxCur k) item _ rfl (mt (h.free_iff hk).1 hfull)
    rw [hgcc, hmsvc]
    exact fun heq => Bool.noConfusion (RingResult.pushed.inj heq)
  | pop => exact absurd rfl hop

theorem buildsAgree (hk : k < 64) (h : Represents k mem held) {ops : List RingOp}
    (hops : ∀ op ∈ ops, NonNull op) (hroom : NeverFull k held ops) : BuildsAgree k mem ops := by
  induction ops generalizing mem held with
  | nil => exact ⟨rfl, trivial⟩
  | cons op ops ih =>
    obtain ⟨hcall, hrest⟩ := hroom
    have heq := h.msvc_eq hk hcall
    obtain ⟨hanswers, hstores⟩ := ih (h.step hk (hops op List.mem_cons_self)).2
      (fun op' hop' => hops op' (List.mem_cons_of_mem _ hop')) hrest
    rw [← heq] at hanswers hstores
    refine ⟨?_, h.stores hk hcall, hstores⟩
    rw [answers_cons, answers_cons, ← heq, hanswers]

theorem neverFull (hk : k < 64) (h : Represents k mem held) {ops : List RingOp}
    (hops : ∀ op ∈ ops, NonNull op) (hagree : answers (ringCall .msvc (maxCur k)) mem ops =
      answers (ringCall .gcc (maxCur k)) mem ops) :
    NeverFull k held ops := by
  induction ops generalizing mem held with
  | nil => trivial
  | cons op ops ih =>
    rw [answers_cons, answers_cons, List.cons.injEq] at hagree
    have hroom : op ≠ .pop → held.length < 2 ^ k := fun hop => by
      by_contra hfull
      exact h.msvc_ne hk hop hfull hagree.1
    refine ⟨hroom, ih (h.step hk (hops op List.mem_cons_self)).2 (fun op' hop' =>
      hops op' (List.mem_cons_of_mem _ hop')) ?_⟩
    rw [← h.msvc_eq hk hroom]
    exact (h.msvc_eq hk hroom).symm ▸ hagree.2

end Represents

/-- The builds agree on a sequence of calls exactly if it never pushes to a full ring. -/
theorem builds_agree_iff (k : Nat) (hk : k < 64) (mem : RingLoc → UInt64) (hmem : ZeroedRing k mem)
    (ops : List RingOp) (hops : ∀ op ∈ ops, NonNull op) :
    BuildsAgree k mem ops ↔ NeverFull k [] ops :=
  ⟨fun h => hmem.represents.neverFull hk hops h.1, hmem.represents.buildsAgree hk hops⟩

def zeroRing : RingLoc → UInt64 := fun _ => 0

theorem zeroRing_zeroed : ZeroedRing 1 zeroRing := ⟨fun _ _ => rfl, rfl⟩

theorem builds_agree_iff_zeroRing : BuildsAgree 1 zeroRing [.push 5, .push 7, .pop, .push 9] :=
  have hops : ∀ op ∈ [RingOp.push 5, .push 7, .pop, .push 9], NonNull op := by simp [NonNull]
  (builds_agree_iff 1 (by decide) zeroRing zeroRing_zeroed _ hops).2 (by simp [NeverFull, fifoCall])

/-- The third push to a ring of two slots fails in one build and is lost in the other. -/
theorem builds_disagree :
    ZeroedRing 1 zeroRing ∧ (∀ op ∈ [RingOp.push 5, .push 7, .push 9], NonNull op) ∧
    answers (ringCall .msvc (maxCur 1)) zeroRing [.push 5, .push 7, .push 9] =
      [.pushed true, .pushed true, .pushed true] ∧
    answers (ringCall .gcc (maxCur 1)) zeroRing [.push 5, .push 7, .push 9] =
      [.pushed true, .pushed true, .pushed false] ∧
    ¬ BuildsAgree 1 zeroRing [.push 5, .push 7, .push 9] := by
  have hmsvc : answers (ringCall .msvc (maxCur 1)) zeroRing [.push 5, .push 7, .push 9] =
      [.pushed true, .pushed true, .pushed true] := by decide
  have hgcc : answers (ringCall .gcc (maxCur 1)) zeroRing [.push 5, .push 7, .push 9] =
      [.pushed true, .pushed true, .pushed false] := by decide
  refine ⟨zeroRing_zeroed, by simp [NonNull], hmsvc, hgcc, fun h => ?_⟩
  exact absurd (hmsvc.symm.trans (h.1.trans hgcc)) (by decide)

end RingBuffer
end TinyBase
