import TinyBase.Lib.Shared
import TinyBase.Types

/-!
# The lock-free queues (`tinybase-queues.c`)

Both are written over the words they share: every read, write, exchange, compare-exchange and
atomic addition of the C code is one access.
-/

namespace TinyBase
open Prog (load store)

/-! ### Multiple producers, single consumer -/

/-- A pointer to an `mpsc_node`: none, the queue's own `Stub`, or the node of an item. -/
inductive NodePtr (ι : Type) where
  | null
  | stub
  | node (n : ι)
deriving DecidableEq

/-- The words that an `mpsc_freelist` and its nodes share. -/
inductive FreeListLoc (ι : Type) where
  | head
  | tail
  | next (p : NodePtr ι)
deriving DecidableEq

abbrev FreeListProg (ι ρ : Type) := Prog (FreeListLoc ι) (NodePtr ι) ρ

section
variable {ι : Type}

def initMPSCFreeList : FreeListProg ι Unit := do
  store .head .stub
  store .tail .stub

/-- `MPSCFreeListPush`. -/
def mpscFreeListPush (node : NodePtr ι) : FreeListProg ι Unit := do
  store (.next node) .null
  let prev ← Prog.exchange .head node
  store (.next prev) node

variable [DecidableEq ι]

/-- `MPSCFreeListPop` from the test whether the stub was pushed behind `Tail`. -/
def mpscFreeListPopLast (tail : NodePtr ι) : FreeListProg ι (NodePtr ι) := do
  let next ← load (.next tail)
  if next ≠ .null then do
    store .tail next
    pure tail
  else pure .null

/-- `MPSCFreeListPop` from the first `if (Next)` on. -/
def mpscFreeListPopTail (tail next : NodePtr ι) : FreeListProg ι (NodePtr ι) :=
  if next ≠ .null then do
    store .tail next
    pure tail
  else do
    let head ← load .head
    if tail ≠ head then pure .null
    else do
      mpscFreeListPush .stub
      mpscFreeListPopLast tail

/-- `MPSCFreeListPop`. -/
def mpscFreeListPop : FreeListProg ι (NodePtr ι) := do
  let tail ← load .tail
  let next ← load (.next tail)
  if tail = .stub then
    if next = .null then pure .null
    else do
      store .tail next
      let tail := next
      let next ← load (.next next)
      mpscFreeListPopTail tail next
  else mpscFreeListPopTail tail next

end

/-! ### Multiple producers, multiple consumers -/

/-- The words that an `mpmc_ringbuf` and its ring share; slot `i` is `Ring[i]`. -/
inductive RingLoc where
  | readCur
  | writeCur
  | slot (i : Usz)
deriving DecidableEq

abbrev RingProg (ρ : Type) := Prog RingLoc UInt64 ρ

/-- `MPMCRingBufferPush`, in the GCC build. -/
def mpmcRingBufferPush (maxCur : Usz) (item : Ptr) : RingProg Bool := do
  let writeCur ← load .writeCur
  let result ← Prog.compareExchange (.slot (writeCur &&& maxCur)) 0 item
  if result then do
    let _ ← Prog.addFetch .writeCur 1
    pure true
  else pure false

/-- `MPMCRingBufferPop`, in the GCC build. -/
def mpmcRingBufferPop (maxCur : Usz) : RingProg Ptr := do
  let readCur ← load .readCur
  let item ← load (.slot (readCur &&& maxCur))
  if item ≠ 0 then do
    let readCur ← load .readCur
    let result ← Prog.compareExchange (.slot (readCur &&& maxCur)) item 0
    if result then do
      let _ ← Prog.addFetch .readCur 1
      pure item
    else pure 0
  else pure 0

/-! ### The builds -/

/-- The compilers that `tinybase-atomic.c` knows. -/
inductive Build where
  | gcc
  | msvc
deriving DecidableEq

/-- `AtomicCompareExchangePtr`. In the MSVC build `Result` is `true` whether the value was exchanged
or not. -/
def atomicCompareExchangePtr (build : Build) (dst : RingLoc) (compare value : UInt64) :
    RingProg Bool := do
  let swapped ← Prog.compareExchange dst compare value
  match build with
  | .gcc => pure swapped
  | .msvc => pure true

/-- `MPMCRingBufferPush`, in either build. -/
def mpmcRingBufferPushIn (build : Build) (maxCur : Usz) (item : Ptr) : RingProg Bool := do
  let writeCur ← load .writeCur
  let result ← atomicCompareExchangePtr build (.slot (writeCur &&& maxCur)) 0 item
  if result then do
    let _ ← Prog.addFetch .writeCur 1
    pure true
  else pure false

/-- `MPMCRingBufferPop`, in either build. -/
def mpmcRingBufferPopIn (build : Build) (maxCur : Usz) : RingProg Ptr := do
  let readCur ← load .readCur
  let item ← load (.slot (readCur &&& maxCur))
  if item ≠ 0 then do
    let readCur ← load .readCur
    let result ← atomicCompareExchangePtr build (.slot (readCur &&& maxCur)) item 0
    if result then do
      let _ ← Prog.addFetch .readCur 1
      pure item
    else pure 0
  else pure 0

theorem mpmcRingBufferPushIn_gcc (maxCur : Usz) (item : Ptr) :
    mpmcRingBufferPushIn .gcc maxCur item = mpmcRingBufferPush maxCur item := rfl

theorem mpmcRingBufferPopIn_gcc (maxCur : Usz) :
    mpmcRingBufferPopIn .gcc maxCur = mpmcRingBufferPop maxCur := rfl

end TinyBase
