import TinyBase.Lib.Bits
import TinyBase.Lib.Points
import TinyBase.Lib.RingWindow
import TinyBase.Queues

/-!
# The ring buffer under any interleaving

A push claims the slot of the `WriteCur` it has read and moves the cursor in a later access, and a
pop does the same with `ReadCur`. A thread that has read a cursor before another thread moved it can
therefore claim the wrong slot (`stalePush`). As long as every claim is made in turn, that is, the
slot claimed is the next one in the order of the claims, the ring holds a window of the items
(`RingWindow`), and the cursors lag behind it by the claims that have not moved them yet.
-/

namespace TinyBase
open Prog (load)

/-- The calls on a ring buffer. -/
inductive RingOp where
  | push (item : Ptr)
  | pop
deriving DecidableEq

/-- What they return. -/
inductive RingResult where
  | pushed (result : Bool)
  | popped (item : Ptr)
deriving DecidableEq

variable {θ : Type}

/-- A state of a program that uses a ring buffer. -/
abbrev RingState (θ : Type) := Shared θ RingOp RingLoc UInt64 RingResult

abbrev RingEvent (θ : Type) := Event θ RingOp RingLoc UInt64 RingResult

namespace RingBuffer

/-- `MaxCur` of a ring of `2 ^ k` slots. -/
def maxCur (k : Nat) : Usz := UInt64.ofNat (2 ^ k - 1)

/-- The code of a call, for a given `MaxCur`. -/
def code (maxCur : Usz) : RingOp → RingProg RingResult
  | .push item => do
    let result ← mpmcRingBufferPush maxCur item
    pure (.pushed result)
  | .pop => do
    let item ← mpmcRingBufferPop maxCur
    pure (.popped item)

/-- A zeroed ring, and no thread in a call. -/
def start : RingState θ := Shared.init fun _ => 0

/-! ### The history -/

/-- The items that pushes have put into slots, in this order. -/
def filled (history : List (RingEvent θ)) : List Ptr :=
  history.filterMap fun
    | .access _ (.push _) (.rmw (.slot _) old new) => if old = new then none else some new
    | _ => none

/-- The items that pops have taken out of slots, in this order. -/
def drained (history : List (RingEvent θ)) : List Ptr :=
  history.filterMap fun
    | .access _ .pop (.rmw (.slot _) old new) => if old = new then none else some old
    | _ => none

/-- The items whose push has returned `true`. -/
def succeeded (history : List (RingEvent θ)) : List Ptr :=
  history.filterMap fun
    | .ret _ (.push item) (.pushed true) => some item
    | _ => none

/-- The items that pops have returned. -/
def popped (history : List (RingEvent θ)) : List Ptr :=
  history.filterMap fun
    | .ret _ .pop (.popped item) => if item = 0 then none else some item
    | _ => none

/-- Any number of threads push items and pop. -/
def Allowed (_ : RingState θ) (_ : θ) : Option RingOp → Prop
  | some (.push item) => item ≠ 0
  | _ => True

/-- If the next access of thread `t` claims a slot, it is the next slot: that after the items put
in, for a push, and that after the items taken out, for a pop. -/
def InTurn (k : Nat) (s : RingState θ) (t : θ) : Prop :=
  match s.running t with
  | some (op, .rmw (.slot i) f _) => f (s.mem (.slot i)) = s.mem (.slot i) ∨
      i.toNat = (match op with
        | .push _ => (filled s.history).length
        | .pop => (drained s.history).length) % 2 ^ k
  | _ => True

/-- As `Allowed`, and every claim is made in turn. -/
def AllowedInTurn (k : Nat) (s : RingState θ) (t : θ) : Option RingOp → Prop
  | none => InTurn k s t
  | some op => Allowed s t (some op)

/-- What holds of a ring of `2 ^ k` slots with no call in flight. -/
structure Settled (k : Nat) (s : RingState θ) : Prop where
  /-- The occupied slots are those at the positions from `ReadCur` to `WriteCur`. -/
  occupied : ∀ i, i < 2 ^ k → (s.mem (.slot (UInt64.ofNat i)) ≠ 0 ↔
    ∃ j, j < (s.mem .writeCur - s.mem .readCur).toNat ∧ ((s.mem .readCur).toNat + j) % 2 ^ k = i)
  /-- A pop returns the oldest item, and nothing if there is none. -/
  pop : ((mpmcRingBufferPop (maxCur k)).run s.mem).1 =
    (filled s.history).getD (drained s.history).length 0
  /-- A push succeeds exactly if a slot is free. -/
  push : ∀ item, ((mpmcRingBufferPush (maxCur k) item).run s.mem).1 = true ↔
    ∃ i, i < 2 ^ k ∧ s.mem (.slot (UInt64.ofNat i)) = 0
  /-- The items put in are those whose push has returned `true`, and those taken out have been
  returned. -/
  returned : (filled s.history).Perm (succeeded s.history) ∧
    (drained s.history).Perm (popped s.history)

/-! ### Points -/

/-- What is left of `mpmcRingBufferPush` from its compare-exchange on. -/
def fillFrom (maxCur : Usz) (item : Ptr) (writeCur : Usz) : RingProg Bool := do
  let result ← Prog.compareExchange (.slot (writeCur &&& maxCur)) 0 item
  if result then do
    let _ ← Prog.addFetch .writeCur 1
    pure true
  else pure false

/-- What is left of `mpmcRingBufferPop` from its compare-exchange on. -/
def drainFrom (maxCur : Usz) (item : Ptr) (readCur : Usz) : RingProg Ptr := do
  let result ← Prog.compareExchange (.slot (readCur &&& maxCur)) item 0
  if result then do
    let _ ← Prog.addFetch .readCur 1
    pure item
  else pure 0

/-- What is left of `mpmcRingBufferPop` when it has read `ReadCur`. -/
def readSlotFrom (maxCur : Usz) (readCur : Usz) : RingProg Ptr := do
  let item ← load (.slot (readCur &&& maxCur))
  if item ≠ 0 then do
    let readCur ← load .readCur
    drainFrom maxCur item readCur
  else pure 0

/-- Where a call stands; the arguments are its local variables. -/
inductive Point where
  | readWriteCur (item : Ptr)
  | fill (item : Ptr) (writeCur : Usz)
  | addWriteCur (item : Ptr)
  | readReadCur
  | readSlot (readCur : Usz)
  | readReadCurAgain (item : Ptr)
  | drain (item : Ptr) (readCur : Usz)
  | addReadCur (item : Ptr)

namespace Point

def op : Point → RingOp
  | readWriteCur item | fill item _ | addWriteCur item => .push item
  | _ => .pop

/-- What is left of the call. -/
def rest (maxCur : Usz) : Point → RingProg RingResult
  | readWriteCur item => code maxCur (.push item)
  | fill item writeCur => do
    let result ← fillFrom maxCur item writeCur
    pure (.pushed result)
  | addWriteCur _ => do
    let _ ← Prog.addFetch .writeCur 1
    pure (.pushed true)
  | readReadCur => code maxCur .pop
  | readSlot readCur => do
    let item ← readSlotFrom maxCur readCur
    pure (.popped item)
  | readReadCurAgain item => do
    let readCur ← load .readCur
    let item ← drainFrom maxCur item readCur
    pure (.popped item)
  | drain item readCur => do
    let item ← drainFrom maxCur item readCur
    pure (.popped item)
  | addReadCur item => do
    let _ ← Prog.addFetch .readCur 1
    pure (.popped item)

/-- The item of a push that has claimed a slot and not moved the cursor. -/
def filling : Point → Option Ptr
  | addWriteCur item => some item
  | _ => none

/-- The item of a pop that has claimed a slot and not moved the cursor. -/
def draining : Point → Option Ptr
  | addReadCur item => some item
  | _ => none

/-- The items in the local variables are not null. -/
def NonNull : Point → Prop
  | readWriteCur item | fill item _ | addWriteCur item | readReadCurAgain item
      | drain item _ | addReadCur item =>
    item ≠ 0
  | readReadCur | readSlot _ => True

end Point

abbrev Out := Outcome Point RingResult

/-- One access of a call. -/
def Point.step (maxCur : Usz) (mem : RingLoc → UInt64) :
    Point → Access RingLoc UInt64 × (RingLoc → UInt64) × Out
  | readWriteCur item => (.read .writeCur (mem .writeCur), mem, .goes (.fill item (mem .writeCur)))
  | fill item writeCur =>
    let l := .slot (writeCur &&& maxCur)
    let new := if mem l = 0 then item else mem l
    (.rmw l (mem l) new, Function.update mem l new,
      if mem l = 0 then .goes (.addWriteCur item) else .returns (.pushed false))
  | addWriteCur _ => (.rmw .writeCur (mem .writeCur) (mem .writeCur + 1),
      Function.update mem .writeCur (mem .writeCur + 1), .returns (.pushed true))
  | readReadCur => (.read .readCur (mem .readCur), mem, .goes (.readSlot (mem .readCur)))
  | readSlot readCur =>
    let l := .slot (readCur &&& maxCur)
    (.read l (mem l), mem, if mem l ≠ 0 then .goes (.readReadCurAgain (mem l))
      else .returns (.popped 0))
  | readReadCurAgain item =>
    (.read .readCur (mem .readCur), mem, .goes (.drain item (mem .readCur)))
  | drain item readCur =>
    let l := .slot (readCur &&& maxCur)
    let new := if mem l = item then 0 else mem l
    (.rmw l (mem l) new, Function.update mem l new,
      if mem l = item then .goes (.addReadCur item) else .returns (.popped 0))
  | addReadCur item => (.rmw .readCur (mem .readCur) (mem .readCur + 1),
      Function.update mem .readCur (mem .readCur + 1), .returns (.popped item))

/-- The points are those of the code. -/
theorem rest_access (maxCur : Usz) (mem : RingLoc → UInt64) (pt : Point) :
    (pt.rest maxCur).access mem = some ((pt.step maxCur mem).1, (pt.step maxCur mem).2.1,
      (pt.step maxCur mem).2.2.rest (Point.rest maxCur)) := by
  cases pt with
  | fill item writeCur =>
    show some (_, _, (ite (decide (_ = _) = true) _ _ : RingProg Bool) >>= _) = _
    unfold Point.step
    dsimp only
    by_cases h : mem (.slot (writeCur &&& maxCur)) = 0
    · rw [if_pos (decide_eq_true h), if_pos h, if_pos h]; rfl
    · rw [if_neg h, if_neg h, decide_eq_false h]; rfl
  | readSlot readCur =>
    show some (_, _, (ite _ _ _ : RingProg Ptr) >>= _) = _
    unfold Point.step
    dsimp only
    by_cases h : mem (.slot (readCur &&& maxCur)) ≠ 0
    · rw [if_pos h, if_pos h]; rfl
    · rw [if_neg h, if_neg h]; rfl
  | drain item readCur =>
    show some (_, _, (ite (decide (_ = _) = true) _ _ : RingProg Ptr) >>= _) = _
    unfold Point.step
    dsimp only
    by_cases h : mem (.slot (readCur &&& maxCur)) = item
    · rw [if_pos (decide_eq_true h), if_pos h, if_pos h]; rfl
    · rw [if_neg h, if_neg h, decide_eq_false h]; rfl
  | _ => rfl

theorem op_step (maxCur : Usz) (mem : RingLoc → UInt64) (pt pt' : Point)
    (h : (pt.step maxCur mem).2.2 = .goes pt') : pt'.op = pt.op := by
  cases pt with
  | fill item writeCur =>
    unfold Point.step at h
    dsimp only at h
    split at h <;> cases h
    rfl
  | readSlot readCur =>
    unfold Point.step at h
    dsimp only at h
    split at h <;> cases h
    rfl
  | drain item readCur =>
    unfold Point.step at h
    dsimp only at h
    split at h <;> cases h
    rfl
  | readWriteCur item => cases h; rfl
  | readReadCur => cases h; rfl
  | readReadCurAgain item => cases h; rfl
  | addWriteCur item => cases h
  | addReadCur item => cases h

/-- The points of both calls. -/
def callPoints (maxCur : Usz) : CallPoints RingOp RingLoc UInt64 RingResult Point where
  op := Point.op
  rest := Point.rest maxCur
  step := Point.step maxCur
  access_rest := rest_access maxCur
  op_step := op_step maxCur

/-! ### The invariant -/

theorem toNat_and_maxCur {k : Nat} (hk : k < 64) (x : Usz) :
    (x &&& maxCur k).toNat = x.toNat % 2 ^ k := by
  have hle : 2 ^ k ≤ 2 ^ 63 := Nat.pow_le_pow_right (by decide) (by omega)
  have hmask : (maxCur k).toNat = (2 ^ k - 1) * 2 ^ 0 := by
    rw [maxCur, UInt64.toNat_ofNat_of_lt_two_pow (by omega), Nat.pow_zero, Nat.mul_one]
  rw [UInt64.toNat_and, hmask, Nat.and_mask]
  simp

/-- The slots as a function of the position. -/
def slots (mem : RingLoc → UInt64) : Nat → Ptr := fun i => mem (.slot (UInt64.ofNat i))

/-- The items lie in their slots in the order in which they were put in, and the cursors lag behind
by the claims that have not moved them. -/
structure Inv (k : Nat) (mem : RingLoc → UInt64) (history : List (RingEvent θ))
    (points : θ → Option Point) (fillers drainers : List (θ × Ptr)) : Prop where
  nonNull : ∀ t pt, points t = some pt → pt.NonNull
  filling : Roster points Point.filling fillers
  draining : Roster points Point.draining drainers
  window : RingWindow (2 ^ k) (slots mem) 0 (filled history) (drained history).length
  isPrefix : drained history <+: filled history
  writeCur : mem .writeCur + UInt64.ofNat fillers.length = UInt64.ofNat (filled history).length
  readCur : mem .readCur + UInt64.ofNat drainers.length = UInt64.ofNat (drained history).length
  pushes : (filled history).Perm (succeeded history ++ fillers.map Prod.snd)
  pops : (drained history).Perm (popped history ++ drainers.map Prod.snd)

/-! ### What a step adds to the history -/

section
variable (history : List (RingEvent θ)) (t : θ) (op : RingOp)
  (a : Access RingLoc UInt64) (out : Out)

theorem filled_after : filled (history ++ .access t op a :: out.events t op) =
    filled history ++ filled [(.access t op a : RingEvent θ)] := by
  cases out <;> simp [filled, Outcome.events, List.filterMap_cons]

theorem drained_after : drained (history ++ .access t op a :: out.events t op) =
    drained history ++ drained [(.access t op a : RingEvent θ)] := by
  cases out <;> simp [drained, Outcome.events, List.filterMap_cons]

theorem succeeded_after : succeeded (history ++ .access t op a :: out.events t op) =
    succeeded history ++ succeeded (out.events t op : List (RingEvent θ)) := by
  simp [succeeded]

theorem popped_after : popped (history ++ .access t op a :: out.events t op) =
    popped history ++ popped (out.events t op : List (RingEvent θ)) := by
  simp [popped]

end

theorem prefix_concat {α : Type} {l₁ l₂ : List α} {x : α} (h : l₁ <+: l₂)
    (hx : l₂[l₁.length]? = some x) : l₁ ++ [x] <+: l₂ := by
  obtain ⟨l, rfl⟩ := h
  rw [List.getElem?_append_right (Nat.le_refl _), Nat.sub_self] at hx
  cases l with
  | nil => cases hx
  | cons y l =>
    cases hx
    exact ⟨l, by simp⟩

namespace Inv
variable [DecidableEq θ] {k : Nat} {mem : RingLoc → UInt64} {history : List (RingEvent θ)}
  {points : θ → Option Point} {fillers drainers : List (θ × Ptr)} {t : θ} {pt : Point}

theorem nonNull_update (h : Inv k mem history points fillers drainers) {o : Option Point}
    (ho : ∀ pt', o = some pt' → pt'.NonNull) :
    ∀ u pt', Function.update points t o u = some pt' → pt'.NonNull := by
  intro u pt' hu
  by_cases hut : u = t
  · subst hut
    rw [Function.update_self] at hu
    exact ho pt' hu
  · rw [Function.update_of_ne hut] at hu
    exact h.nonNull u pt' hu

omit [DecidableEq θ] in
/-- A step that leaves the memory and the four lists of items as they were. -/
theorem sameItems (h : Inv k mem history points fillers drainers) {history' : List (RingEvent θ)}
    {points' : θ → Option Point} (hfilled : filled history' = filled history)
    (hdrained : drained history' = drained history)
    (hsucceeded : succeeded history' = succeeded history)
    (hpopped : popped history' = popped history)
    (hnonNull : ∀ t pt, points' t = some pt → pt.NonNull)
    (hfilling : Roster points' Point.filling fillers)
    (hdraining : Roster points' Point.draining drainers) :
    Inv k mem history' points' fillers drainers := by
  refine ⟨hnonNull, hfilling, hdraining, ?_, ?_, ?_, ?_, ?_, ?_⟩
  · rw [hfilled, hdrained]; exact h.window
  · rw [hfilled, hdrained]; exact h.isPrefix
  · rw [hfilled]; exact h.writeCur
  · rw [hdrained]; exact h.readCur
  · rw [hfilled, hsucceeded]; exact h.pushes
  · rw [hdrained, hpopped]; exact h.pops

/-- An access that changes neither a slot nor a cursor. -/
theorem quiet (h : Inv k mem history points fillers drainers) (hpt : points t = some pt)
    (hpoint : pt.filling = none ∧ pt.draining = none) {a : Access RingLoc UInt64} {out : Out}
    (ha : filled [(.access t pt.op a : RingEvent θ)] = [] ∧
      drained [(.access t pt.op a : RingEvent θ)] = [])
    (hret : succeeded (out.events t pt.op : List (RingEvent θ)) = [] ∧
      popped (out.events t pt.op : List (RingEvent θ)) = [])
    (hout : ∀ pt', out.point = some pt' → pt'.NonNull ∧ pt'.filling = none ∧ pt'.draining = none) :
    Inv k mem (history ++ .access t pt.op a :: out.events t pt.op)
      (Function.update points t out.point) fillers
      drainers := by
  have hold : ∀ pt', points t = some pt' → pt'.filling = none ∧ pt'.draining = none :=
    fun pt' hpt' =>
    Option.some.inj (hpt.symm.trans hpt') ▸ hpoint
  have hfilled := filled_after history t pt.op a out
  have hdrained := drained_after history t pt.op a out
  have hsucceeded := succeeded_after history t pt.op a out
  have hpopped := popped_after history t pt.op a out
  rw [ha.1, List.append_nil] at hfilled
  rw [ha.2, List.append_nil] at hdrained
  rw [hret.1, List.append_nil] at hsucceeded
  rw [hret.2, List.append_nil] at hpopped
  exact h.sameItems hfilled hdrained hsucceeded hpopped
    (h.nonNull_update fun pt' hpt' => (hout pt' hpt').1)
    (h.filling.other (fun pt' hpt' => (hold pt' hpt').1) fun pt' hpt' => (hout pt' hpt').2.1)
    (h.draining.other (fun pt' hpt' => (hold pt' hpt').2) fun pt' hpt' => (hout pt' hpt').2.2)

theorem slots_update {i : Usz} {x : Ptr} {j : Nat} (hj : j < 2 ^ 64) :
    slots (Function.update mem (.slot i) x) j = Function.update (slots mem) i.toNat x j := by
  have hmod : (UInt64.ofNat j).toNat = j := UInt64.toNat_ofNat_of_lt_two_pow hj
  by_cases hij : j = i.toNat
  · subst hij
    rw [slots, UInt64.ofNat_toNat, Function.update_self, Function.update_self]
  · have hne : RingLoc.slot (UInt64.ofNat j) ≠ .slot i :=
      fun heq => hij (RingLoc.slot.inj heq ▸ hmod.symm)
    rw [slots, Function.update_of_ne hne, Function.update_of_ne hij, slots]

theorem fill (h : Inv k mem history points fillers drainers) (hk : k < 64)
    {item : Ptr} {writeCur i : Usz} (hpt : points t = some (.fill item writeCur))
    (hfree : mem (.slot i) = 0) (hturn : i.toNat = (filled history).length % 2 ^ k) :
    Inv k (Function.update mem (.slot i) item)
      (history ++ [.access t (.push item) (.rmw (.slot i) 0 item)])
      (Function.update points t (some (.addWriteCur item))) ((t, item) :: fillers) drainers := by
  have hitem : item ≠ 0 := h.nonNull t _ hpt
  have hpow : 2 ^ k ≤ 2 ^ 64 := Nat.pow_le_pow_right (by decide) (by omega)
  have hfilled : filled (history ++ [.access t (.push item) (.rmw (.slot i) 0 item)]) =
      filled history ++ [item] := by
    simp [filled, Ne.symm hitem]
  have hdrained : drained (history ++ [.access t (.push item) (.rmw (.slot i) 0 item)]) =
      drained history := by
    simp [drained]
  have hsucceeded : succeeded (history ++ [.access t (.push item) (.rmw (.slot i) 0 item)]) =
      succeeded history := by
    simp [succeeded]
  have hpopped : popped (history ++ [.access t (.push item) (.rmw (.slot i) 0 item)]) =
      popped history := by
    simp [popped]
  have hslot : slots mem ((filled history).length % 2 ^ k) = 0 := by
    rw [← hturn, slots, UInt64.ofNat_toNat]; exact hfree
  refine ⟨h.nonNull_update fun pt' hpt' => Option.some.inj hpt' ▸ hitem,
    h.filling.enter (fun pt' hpt' => Option.some.inj (hpt.symm.trans hpt') ▸ rfl) rfl,
    h.draining.other (fun pt' hpt' => Option.some.inj (hpt.symm.trans hpt') ▸ rfl)
      (fun pt' hpt' => Option.some.inj hpt' ▸ rfl), ?_, ?_, ?_, ?_, ?_, ?_⟩
  · rw [hfilled, hdrained]
    refine (h.window.push (Nat.two_pow_pos k) hslot hitem).congr fun j hj => ?_
    rw [slots_update (Nat.lt_of_lt_of_le hj hpow), hturn]
  · rw [hfilled, hdrained]
    exact h.isPrefix.trans (List.prefix_append _ _)
  · rw [hfilled, List.length_append, List.length_cons, UInt64.ofNat_add,
      UInt64.ofNat_add, ← UInt64.add_assoc]
    exact congrArg (· + _) h.writeCur
  · rw [hdrained]; exact h.readCur
  · rw [hfilled, hsucceeded, List.map_cons]
    exact (List.perm_append_singleton item _).trans
      ((h.pushes.cons item).trans List.perm_middle.symm)
  · rw [hdrained, hpopped]; exact h.pops

theorem drain (h : Inv k mem history points fillers drainers) (hk : k < 64)
    {item : Ptr} {readCur i : Usz} (hpt : points t = some (.drain item readCur))
    (hslot : mem (.slot i) = item) (hturn : i.toNat = (drained history).length % 2 ^ k) :
    Inv k (Function.update mem (.slot i) 0) (history ++ [.access t .pop (.rmw (.slot i) item 0)])
      (Function.update points t (some (.addReadCur item))) fillers ((t, item) :: drainers) := by
  have hitem : item ≠ 0 := h.nonNull t _ hpt
  have hpow : 2 ^ k ≤ 2 ^ 64 := Nat.pow_le_pow_right (by decide) (by omega)
  have hfilled : filled (history ++ [.access t .pop (.rmw (.slot i) item 0)]) = filled history := by
    simp [filled]
  have hdrained : drained (history ++ [.access t .pop (.rmw (.slot i) item 0)]) =
      drained history ++ [item] := by
    simp [drained, hitem]
  have hsucceeded : succeeded (history ++ [.access t .pop (.rmw (.slot i) item 0)]) =
      succeeded history := by
    simp [succeeded]
  have hpopped : popped (history ++ [.access t .pop (.rmw (.slot i) item 0)]) = popped history := by
    simp [popped]
  have hoccupied : slots mem ((drained history).length % 2 ^ k) = item := by
    rw [← hturn, slots, UInt64.ofNat_toNat]; exact hslot
  obtain ⟨hwindow, hfirst⟩ := h.window.pop (Nat.two_pow_pos k) (by rw [hoccupied]; exact hitem)
  rw [hoccupied] at hfirst
  refine ⟨h.nonNull_update fun pt' hpt' => Option.some.inj hpt' ▸ hitem,
    h.filling.other (fun pt' hpt' => Option.some.inj (hpt.symm.trans hpt') ▸ rfl)
      (fun pt' hpt' => Option.some.inj hpt' ▸ rfl),
    h.draining.enter (fun pt' hpt' => Option.some.inj (hpt.symm.trans hpt') ▸ rfl) rfl, ?_, ?_,
    ?_, ?_, ?_, ?_⟩
  · rw [hfilled, hdrained, List.length_append, List.length_singleton]
    refine hwindow.congr fun j hj => ?_
    rw [slots_update (Nat.lt_of_lt_of_le hj hpow), hturn]
  · rw [hfilled, hdrained]
    exact prefix_concat h.isPrefix hfirst
  · rw [hfilled]; exact h.writeCur
  · rw [hdrained, List.length_append, List.length_cons, UInt64.ofNat_add,
      UInt64.ofNat_add, ← UInt64.add_assoc]
    exact congrArg (· + _) h.readCur
  · rw [hfilled, hsucceeded]; exact h.pushes
  · rw [hdrained, hpopped, List.map_cons]
    exact (List.perm_append_singleton item _).trans ((h.pops.cons item).trans List.perm_middle.symm)

/-- Moving a cursor makes up for one claim. -/
theorem cursor_succ {l : List (θ × Ptr)} {p : θ × Ptr} (hp : p ∈ l) {cur : UInt64} {n : Nat}
    (hcur : cur + UInt64.ofNat l.length = UInt64.ofNat n) :
    cur + 1 + UInt64.ofNat (l.erase p).length = UInt64.ofNat n := by
  have hlen : l.length = 1 + (l.erase p).length := by
    have := List.length_erase_of_mem hp
    have := List.length_pos_of_mem hp
    omega
  rw [← hcur, hlen, UInt64.ofNat_add, ← UInt64.add_assoc]
  rfl

/-- A push that has claimed its slot moves `WriteCur` and returns. -/
theorem addWriteCur (h : Inv k mem history points fillers drainers) {item : Ptr}
    (hpt : points t = some (.addWriteCur item)) {old new : UInt64} :
    Inv k (Function.update mem .writeCur (mem .writeCur + 1))
      (history ++ [.access t (.push item) (.rmw .writeCur old new),
        .ret t (.push item) (.pushed true)])
      (Function.update points t none) (fillers.erase (t, item)) drainers := by
  obtain ⟨hfilling, hmem⟩ := h.filling.leave hpt rfl (o := none) nofun
  have hfilled : filled (history ++ [.access t (.push item) (.rmw .writeCur old new),
      .ret t (.push item) (.pushed true)]) = filled history := by simp [filled]
  have hdrained : drained (history ++ [.access t (.push item) (.rmw .writeCur old new),
      .ret t (.push item) (.pushed true)]) = drained history := by simp [drained]
  have hsucceeded : succeeded (history ++ [.access t (.push item) (.rmw .writeCur old new),
      .ret t (.push item) (.pushed true)]) = succeeded history ++ [item] := by simp [succeeded]
  have hpopped : popped (history ++ [.access t (.push item) (.rmw .writeCur old new),
      .ret t (.push item) (.pushed true)]) = popped history := by simp [popped]
  refine ⟨h.nonNull_update nofun, hfilling,
    h.draining.other (fun pt' hpt' => Option.some.inj (hpt.symm.trans hpt') ▸ rfl) nofun, ?_, ?_,
    ?_, ?_, ?_, ?_⟩
  · rw [hfilled, hdrained]; exact h.window
  · rw [hfilled, hdrained]; exact h.isPrefix
  · rw [hfilled, Function.update_self]
    exact cursor_succ hmem h.writeCur
  · rw [hdrained]; exact h.readCur
  · rw [hfilled, hsucceeded, List.append_assoc]
    exact h.pushes.trans (((List.perm_cons_erase hmem).map Prod.snd).append_left _)
  · rw [hdrained, hpopped]; exact h.pops

/-- A pop that has claimed its slot moves `ReadCur` and returns the item. -/
theorem addReadCur (h : Inv k mem history points fillers drainers) {item : Ptr}
    (hpt : points t = some (.addReadCur item)) {old new : UInt64} :
    Inv k (Function.update mem .readCur (mem .readCur + 1))
      (history ++ [.access t .pop (.rmw .readCur old new), .ret t .pop (.popped item)])
      (Function.update points t none) fillers (drainers.erase (t, item)) := by
  have hitem : item ≠ 0 := h.nonNull t _ hpt
  obtain ⟨hdraining, hmem⟩ := h.draining.leave hpt rfl (o := none) nofun
  have hfilled :
      filled (history ++ [.access t .pop (.rmw .readCur old new), .ret t .pop (.popped item)]) =
      filled history := by simp [filled]
  have hdrained :
      drained (history ++ [.access t .pop (.rmw .readCur old new), .ret t .pop (.popped item)]) =
      drained history := by simp [drained]
  have hsucceeded :
      succeeded (history ++ [.access t .pop (.rmw .readCur old new), .ret t .pop (.popped item)]) =
      succeeded history := by simp [succeeded]
  have hpopped :
      popped (history ++ [.access t .pop (.rmw .readCur old new), .ret t .pop (.popped item)]) =
      popped history ++ [item] := by simp [popped, hitem]
  refine ⟨h.nonNull_update nofun,
    h.filling.other (fun pt' hpt' => Option.some.inj (hpt.symm.trans hpt') ▸ rfl) nofun,
    hdraining, ?_, ?_, ?_, ?_, ?_, ?_⟩
  · rw [hfilled, hdrained]; exact h.window
  · rw [hfilled, hdrained]; exact h.isPrefix
  · rw [hfilled]; exact h.writeCur
  · rw [hdrained, Function.update_self]
    exact cursor_succ hmem h.readCur
  · rw [hfilled, hsucceeded]; exact h.pushes
  · rw [hdrained, hpopped, List.append_assoc]
    exact h.pops.trans (((List.perm_cons_erase hmem).map Prod.snd).append_left _)

theorem begin (h : Inv k mem history points fillers drainers) (hidle : points t = none)
    (pt : Point) (hnonNull : pt.NonNull) (hpoint : pt.filling = none ∧ pt.draining = none) :
    Inv k mem (history ++ [.call t pt.op])
      (Function.update points t (some pt)) fillers drainers := by
  have hnone : ∀ {o : Option Ptr} pt', points t = some pt' → o = none := by
    intro o pt' hpt'
    rw [hidle] at hpt'
    cases hpt'
  have hfilled : filled (history ++ [.call t pt.op]) = filled history := by simp [filled]
  have hdrained : drained (history ++ [.call t pt.op]) = drained history := by simp [drained]
  have hsucceeded : succeeded (history ++ [.call t pt.op]) = succeeded history := by
    simp [succeeded]
  have hpopped : popped (history ++ [.call t pt.op]) = popped history := by simp [popped]
  exact h.sameItems hfilled hdrained hsucceeded hpopped (h.nonNull_update fun pt' hpt' =>
    Option.some.inj hpt' ▸ hnonNull)
    (h.filling.other (fun pt' => hnone pt') (fun pt' hpt' => Option.some.inj hpt' ▸ hpoint.1))
    (h.draining.other (fun pt' => hnone pt') (fun pt' hpt' => Option.some.inj hpt' ▸ hpoint.2))

/-- One access of a call at any of its points; a claim is made in turn. -/
theorem step (h : Inv k mem history points fillers drainers) (hk : k < 64)
    (hpt : points t = some pt)
    (hfill : ∀ item writeCur, pt = .fill item writeCur → mem (.slot (writeCur &&& maxCur k)) = 0 →
      (writeCur &&& maxCur k).toNat = (filled history).length % 2 ^ k)
    (hdrain : ∀ item readCur, pt = .drain item readCur → mem (.slot (readCur &&& maxCur k)) = item →
      (readCur &&& maxCur k).toNat = (drained history).length % 2 ^ k) :
    ∃ fillers' drainers', Inv k (pt.step (maxCur k) mem).2.1
      (history ++ .access t pt.op (pt.step (maxCur k) mem).1 ::
        (pt.step (maxCur k) mem).2.2.events t pt.op)
      (Function.update points t (pt.step (maxCur k) mem).2.2.point) fillers' drainers' := by
  have hnonNull := h.nonNull t pt hpt
  cases pt with
  | readWriteCur item =>
    exact ⟨_, _, h.quiet hpt ⟨rfl, rfl⟩ ⟨rfl, rfl⟩ ⟨rfl, rfl⟩ fun pt' hpt' =>
      Option.some.inj hpt' ▸ ⟨hnonNull, rfl, rfl⟩⟩
  | fill item writeCur =>
    unfold Point.step
    dsimp only
    by_cases hfree : mem (.slot (writeCur &&& maxCur k)) = 0
    · rw [if_pos hfree, if_pos hfree, hfree]
      exact ⟨_, _, h.fill hk hpt hfree (hfill item writeCur rfl hfree)⟩
    · rw [if_neg hfree, if_neg hfree, Function.update_eq_self]
      exact ⟨_, _, h.quiet hpt ⟨rfl, rfl⟩ (by simp [filled, drained, Point.op]) ⟨rfl, rfl⟩ nofun⟩
  | addWriteCur item => exact ⟨_, _, h.addWriteCur hpt⟩
  | readReadCur =>
    exact ⟨_, _, h.quiet hpt ⟨rfl, rfl⟩ ⟨rfl, rfl⟩ ⟨rfl, rfl⟩ fun pt' hpt' =>
      Option.some.inj hpt' ▸ ⟨trivial, rfl, rfl⟩⟩
  | readSlot readCur =>
    unfold Point.step
    dsimp only
    by_cases hne : mem (.slot (readCur &&& maxCur k)) ≠ 0
    · rw [if_pos hne]
      exact ⟨_, _, h.quiet hpt ⟨rfl, rfl⟩ ⟨rfl, rfl⟩ ⟨rfl, rfl⟩ fun pt' hpt' =>
        Option.some.inj hpt' ▸ ⟨hne, rfl, rfl⟩⟩
    · rw [if_neg hne]
      exact ⟨_, _, h.quiet hpt ⟨rfl, rfl⟩ ⟨rfl, rfl⟩ ⟨rfl, rfl⟩ nofun⟩
  | readReadCurAgain item =>
    exact ⟨_, _, h.quiet hpt ⟨rfl, rfl⟩ ⟨rfl, rfl⟩ ⟨rfl, rfl⟩ fun pt' hpt' =>
      Option.some.inj hpt' ▸ ⟨hnonNull, rfl, rfl⟩⟩
  | drain item readCur =>
    unfold Point.step
    dsimp only
    by_cases hslot : mem (.slot (readCur &&& maxCur k)) = item
    · rw [if_pos hslot, if_pos hslot, hslot]
      exact ⟨_, _, h.drain hk hpt hslot (hdrain item readCur rfl hslot)⟩
    · rw [if_neg hslot, if_neg hslot, Function.update_eq_self]
      exact ⟨_, _, h.quiet hpt ⟨rfl, rfl⟩ (by simp [filled, drained, Point.op]) ⟨rfl, rfl⟩ nofun⟩
  | addReadCur item => exact ⟨_, _, h.addReadCur hpt⟩

/-! ### Without a call in flight -/

theorem run_push (mem : RingLoc → UInt64) (maxCur : Usz) (item : Ptr) :
    ((mpmcRingBufferPush maxCur item).run mem).1 =
      decide (mem (.slot (mem .writeCur &&& maxCur)) = 0) := by
  show (Prog.run _ (ite (decide (_ = _) = true) _ _)).1 = _
  by_cases h : mem (.slot (mem .writeCur &&& maxCur)) = 0
  · rw [if_pos (decide_eq_true h), decide_eq_true h]; rfl
  · rw [decide_eq_false h]; rfl

theorem run_pop (mem : RingLoc → UInt64) (maxCur : Usz) :
    ((mpmcRingBufferPop maxCur).run mem).1 = mem (.slot (mem .readCur &&& maxCur)) := by
  show (Prog.run mem (ite _ _ _)).1 = _
  by_cases h : mem (.slot (mem .readCur &&& maxCur)) ≠ 0
  · rw [if_pos h]
    show (Prog.run _ (ite (decide (_ = _) = true) _ _)).1 = _
    rw [if_pos (decide_eq_true rfl)]
    rfl
  · rw [if_neg h]
    exact (not_not.1 h).symm

/-- The cursors count the claims when nobody is about to move them. -/
theorem toNat_mod {k n : Nat} (hk : k < 64) : (UInt64.ofNat n).toNat % 2 ^ k = n % 2 ^ k := by
  rw [UInt64.toNat_ofNat']
  exact Nat.mod_mod_of_dvd n (Nat.pow_dvd_pow 2 (by omega))

theorem slot_cursor (mem : RingLoc → UInt64) {n : Nat} {cur : UInt64} (hk : k < 64)
    (hcur : cur = UInt64.ofNat n) : mem (.slot (cur &&& maxCur k)) = slots mem (n % 2 ^ k) := by
  have hmod : cur &&& maxCur k = UInt64.ofNat (n % 2 ^ k) := by
    rw [← UInt64.toNat_inj, toNat_and_maxCur hk, hcur, toNat_mod hk, UInt64.toNat_ofNat']
    refine (Nat.mod_eq_of_lt (Nat.lt_of_lt_of_le (Nat.mod_lt _ (Nat.two_pow_pos k)) ?_)).symm
    exact Nat.pow_le_pow_right (by decide) (by omega)
  rw [hmod, slots]

omit [DecidableEq θ] in
theorem settled {s : RingState θ} (hk : k < 64) (hat : Shared.At (callPoints (maxCur k)) s points)
    (h : Inv k s.mem s.history points fillers drainers) (hs : s.Quiescent) : Settled k s := by
  have hnone : ∀ t, points t = none := fun t => hat.eq_none (hs t)
  have hpow : 2 ^ k ≤ 2 ^ 63 := Nat.pow_le_pow_right (by decide) (by omega)
  have hpos := Nat.two_pow_pos k
  have hwindow := h.window
  have hle := hwindow.le
  have hfits := hwindow.fits
  obtain rfl := h.filling.eq_nil hnone
  obtain rfl := h.draining.eq_nil hnone
  have hwrite : s.mem .writeCur = UInt64.ofNat (filled s.history).length := by
    simpa using h.writeCur
  have hread : s.mem .readCur = UInt64.ofNat (drained s.history).length := by simpa using h.readCur
  have hcount : (s.mem .writeCur - s.mem .readCur).toNat =
      (filled s.history).length - (drained s.history).length := by
    rw [hwrite, hread, ← UInt64.ofNat_sub hle, UInt64.toNat_ofNat']
    exact Nat.mod_eq_of_lt (by omega)
  refine ⟨fun i hi => ?_, ?_, fun item => ?_, by simpa using h.pushes, by simpa using h.pops⟩
  · rw [hcount, hread, show s.mem (.slot (UInt64.ofNat i)) = slots s.mem i from rfl,
      hwindow.slot_ne_iff hi]
    have hmod : ∀ j, ((UInt64.ofNat (drained s.history).length).toNat + j) % 2 ^ k =
        ((drained s.history).length + j) % 2 ^ k := by
      intro j
      rw [Nat.add_mod, toNat_mod hk, ← Nat.add_mod]
    constructor
    · rintro ⟨j, hfirst, hj, hij⟩
      exact ⟨j - (drained s.history).length, by omega,
        by rw [hmod, Nat.add_sub_cancel' hfirst]; exact hij⟩
    · rintro ⟨j, hj, hij⟩
      exact ⟨(drained s.history).length + j, by omega, by omega, by rw [← hmod]; exact hij⟩
  · rw [run_pop, slot_cursor s.mem hk hread]
    exact hwindow.oldest hpos
  · rw [run_push, decide_eq_true_iff, slot_cursor s.mem hk hwrite]
    exact (hwindow.next_eq_iff hpos).trans (hwindow.exists_free_iff hpos).symm

end Inv

/-- The invariant, whatever the threads' points are. -/
def Good [DecidableEq θ] (k : Nat) (s : RingState θ) : Prop :=
  ∃ points fillers drainers, Shared.At (callPoints (maxCur k)) s points ∧
    Inv k s.mem s.history points fillers drainers

section
variable [DecidableEq θ] {k : Nat} {s s' : RingState θ}

theorem good_start (k : Nat) : Good k (start : RingState θ) := by
  refine ⟨fun _ => none, [], [], fun _ => rfl, ⟨nofun, ⟨List.nodup_nil, fun _ _ => ⟨nofun, nofun⟩⟩,
    ⟨List.nodup_nil, fun _ _ => ⟨nofun, nofun⟩⟩, RingWindow.init, List.prefix_refl _,
    rfl, rfl, .refl _, .refl _⟩⟩

theorem Good.step (hk : k < 64) (h : Good k s)
    (hstep : Shared.Step (code (maxCur k)) (AllowedInTurn k) s s') :
    Good k s' := by
  obtain ⟨points, fillers, drainers, hat, h⟩ := h
  cases hstep with
  | call t op hidle hop =>
    have hpoint := hat.eq_none hidle
    cases op with
    | push item =>
      exact ⟨_, _, _, hat.call (.readWriteCur item) rfl,
        h.begin hpoint (.readWriteCur item) hop ⟨rfl, rfl⟩⟩
    | pop =>
      exact ⟨_, _, _, hat.call .readReadCur rfl, h.begin hpoint .readReadCur trivial ⟨rfl, rfl⟩⟩
  | access t hturn hacc =>
    obtain ⟨pt, hpt, hat', hmem, hhistory⟩ := hat.access hacc
    have hnonNull := h.nonNull t pt hpt
    unfold AllowedInTurn InTurn at hturn
    rw [hat.eq_some hpt] at hturn
    obtain ⟨fillers', drainers', h'⟩ := h.step hk hpt
      (by
        rintro item writeCur rfl hfree
        refine hturn.resolve_left fun hsame => hnonNull ?_
        change (if s.mem (.slot (writeCur &&& maxCur k)) = 0 then item else _) = _ at hsame
        rwa [if_pos hfree, hfree] at hsame)
      (by
        rintro item readCur rfl hslot
        refine hturn.resolve_left fun hsame => hnonNull ?_
        change (if s.mem (.slot (readCur &&& maxCur k)) = item then 0 else _) = _ at hsame
        rw [if_pos hslot, hslot] at hsame
        exact hsame.symm)
    exact ⟨_, fillers', drainers', hat', by rw [hmem, hhistory]; exact h'⟩

/-- In a run in which every claim is made in turn, no item is returned more often than it was put
in, and whenever no call is in flight the ring is settled. -/
theorem ringBuffer_settled (k : Nat) (hk : k < 64) (s : RingState θ)
    (hs : Shared.Reaches (code (maxCur k)) (AllowedInTurn k) start s) :
    (∀ item, (popped s.history).count item ≤ (filled s.history).count item) ∧
      (s.Quiescent → Settled k s) := by
  obtain ⟨points, fillers, drainers, hat, h⟩ := hs.inv (good_start k) fun _ _ => Good.step hk
  refine ⟨fun item => ?_, h.settled hk hat⟩
  have hdrained : (popped s.history).count item ≤ (drained s.history).count item := by
    rw [h.pops.count_eq, List.count_append]
    exact Nat.le_add_right _ _
  exact Nat.le_trans hdrained (h.isPrefix.sublist.count_le item)

end

/-! ### Schedules on a ring of two slots -/

instance (s : RingState θ) (t : θ) (o : Option RingOp) : Decidable (Allowed s t o) :=
  match o with
  | some (.push item) => inferInstanceAs (Decidable (item ≠ 0))
  | some .pop | none => inferInstanceAs (Decidable True)

instance (k : Nat) (s : RingState θ) (t : θ) : Decidable (InTurn k s t) := by
  unfold InTurn
  split <;> infer_instance

instance (k : Nat) (s : RingState θ) (t : θ) (o : Option RingOp) :
    Decidable (AllowedInTurn k s t o) :=
  match o with
  | some op => inferInstanceAs (Decidable (Allowed s t (some op)))
  | none => inferInstanceAs (Decidable (InTurn k s t))

/-- Thread `1` reads `WriteCur` before thread `0` moves it, and claims the slot of the first item
again, which thread `2` has popped in the meantime. -/
def stalePush : List (Fin 3 × Option RingOp) :=
  [(0, some (.push 8)), (0, none), (0, none), (1, some (.push 16)), (1, none),
    (2, some .pop), (2, none), (2, none),
    (2, none), (2, none), (2, none), (1, none), (1, none), (0, none)]

def stalePushState : RingState (Fin 3) :=
  (Shared.schedule (code (maxCur 1)) Allowed stalePush start).getD start

/-- Both pushes have returned `true` and no call is in flight, but the second item is not at the
position between the cursors, and a pop does not find it. -/
theorem stalePush_unsettled :
    Shared.Reaches (code (maxCur 1)) Allowed start stalePushState ∧ stalePushState.Quiescent ∧
      succeeded stalePushState.history = [16, 8] ∧ popped stalePushState.history = [8] ∧
      stalePushState.mem .readCur = 1 ∧ stalePushState.mem .writeCur = 2 ∧
      stalePushState.mem (.slot 0) = 16 ∧ stalePushState.mem (.slot 1) = 0 ∧
      ((mpmcRingBufferPop (maxCur 1)).run stalePushState.mem).1 = 0 ∧
      ¬ Settled 1 stalePushState := by
  have hsched : Shared.schedule (code (maxCur 1)) Allowed stalePush start = some stalePushState :=
    Option.eq_some_of_isSome (by decide +kernel)
  have hslot : stalePushState.mem (.slot 1) = 0 := by decide +kernel
  have hread : stalePushState.mem .readCur = 1 := by decide +kernel
  have hwrite : stalePushState.mem .writeCur = 2 := by decide +kernel
  refine ⟨Shared.reaches_of_schedule hsched, fun t => ?_, by decide +kernel,
    by decide +kernel, hread, hwrite, by decide +kernel, hslot, by decide +kernel, fun h => ?_⟩
  · exact Option.isNone_iff_eq_none.1
      ((by decide +kernel : ∀ t, (stalePushState.running t).isNone) t)
  · refine (h.occupied 1 (by decide)).2 ⟨0, ?_, ?_⟩ hslot
    · rw [hread, hwrite]; decide
    · rw [hread]; decide

/-- The same calls, with the claims made in turn. -/
def freshPush : List (Fin 3 × Option RingOp) :=
  [(0, some (.push 8)), (0, none), (0, none), (2, some .pop), (2, none), (2, none),
    (2, none), (2, none), (2, none),
    (0, none), (1, some (.push 16)), (1, none), (1, none), (1, none)]

def freshPushState : RingState (Fin 3) :=
  (Shared.schedule (code (maxCur 1)) (AllowedInTurn 1) freshPush start).getD start

theorem ringBuffer_settled_freshPush : Settled 1 freshPushState := by
  have hsched : Shared.schedule (code (maxCur 1)) (AllowedInTurn 1) freshPush start =
      some freshPushState :=
    Option.eq_some_of_isSome (by decide +kernel)
  exact (ringBuffer_settled 1 (by decide) freshPushState (Shared.reaches_of_schedule hsched)).2
    fun t =>
    Option.isNone_iff_eq_none.1 ((by decide +kernel : ∀ t, (freshPushState.running t).isNone) t)

end RingBuffer

end TinyBase
