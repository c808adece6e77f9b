import TinyBase.Files

/-!
# Reading files asynchronously (`ReadFileAsync`, Linux)

An asynchronous read goes to the base of the destination, and not behind what is written in it. What
is in the destination after a row of requests is decided by where each of them is placed.
-/

namespace TinyBase

/-- The fields of `aiocb` that are set. -/
structure Aiocb where
  fildes : File
  buf : Ptr
  nbytes : Usz
  offset : Isz
deriving DecidableEq

structure Timespec where
  sec : Isz
  nsec : Isz
deriving DecidableEq

/-- `async`: the control block and the time behind it. -/
structure Async where
  context : Aiocb
  waitTime : Timespec

/-- The system calls on open files, with those for asynchronous reads. -/
structure AioCalls (σ : Type) extends FileCalls σ where
  /-- `aio_read`: the bytes that are copied to `aio_buf` when the read is complete, unless it is not
  started. -/
  aioRead : Aiocb → σ → Option (List UInt8) × σ
  /-- `aio_suspend` for one control block: whether it returns 0. -/
  aioSuspend : Aiocb → Option Timespec → σ → Bool × σ
  aioReturn : Aiocb → σ → Isz × σ

/-- How a range is read. -/
inductive ReadPath where
  | sync
  | async (async : Async) (block : Bool)

structure ReadRequest where
  path : ReadPath
  amountToRead : Usz
  startPos : Usz

section
variable {σ : Type} (sys : AioCalls σ)

/-- `aio_read`, and the read itself, which is complete before the next call. -/
def aioReadAt (context : Aiocb) (m : Mem) (s : σ) : Res (Bool × Mem × σ) :=
  match sys.aioRead context s with
  | (some bytes, s) => do
    let m ← m.writeBytes context.buf bytes
    pure (true, m, s)
  | (none, s) => pure (false, m, s)

def readFileAsync (file : File) (dst : Buffer) (amountToRead startPos : Usz)
    (async : Async) (m : Mem) (s : σ) : Res (Bool × Buffer × Async × Mem × σ) :=
  if amountToRead ≤ dst.size - dst.writeCur then do
    let context : Aiocb :=
      { fildes := file, buf := dst.base, nbytes := amountToRead, offset := startPos.toInt64 }
    let async := { async with context := context }
    let (started, m, s) ← aioReadAt sys context m s
    if started then pure (true, { dst with writeCur := dst.writeCur + amountToRead }, async, m, s)
    else pure (false, dst, async, m, s)
  else pure (false, dst, async, m, s)

/-- `WaitOnIoCompletion`, which does not use the file. -/
def waitOnIoCompletion (async : Async) (block : Bool) (s : σ) : Usz × Async × σ :=
  let async := if block then async else { async with waitTime := { sec := 0, nsec := 0 } }
  let waitTime := if block then none else some async.waitTime
  match sys.aioSuspend async.context waitTime s with
  | (true, s) =>
    let (bytesTransferred, s) := sys.aioReturn async.context s
    (bytesTransferred.toUInt64, async, s)
  | (false, s) => (0, async, s)

/-- One request: `ReadFromFile`, or `ReadFileAsync` and `WaitOnIoCompletion`. -/
def readRequest (file : File) (req : ReadRequest) (dst : Buffer) (m : Mem) (s : σ) :
    Res (Bool × Buffer × Mem × σ) :=
  match req.path with
  | .sync => readFromFile sys.toFileCalls file dst req.amountToRead req.startPos m s
  | .async async block => do
    let (started, dst, async, m, s) ← readFileAsync sys file dst
        req.amountToRead req.startPos async m s
    let (_, _, s) := waitOnIoCompletion sys async block s
    pure (started, dst, m, s)

/-- The requests one after the other, and whether all of them have returned true. -/
def readRequests (file : File) : List ReadRequest → Buffer → Mem → σ → Res (Bool × Buffer × Mem × σ)
  | [], dst, m, s => pure (true, dst, m, s)
  | req :: reqs, dst, m, s => do
    let (first, dst, m, s) ← readRequest sys file req dst m s
    let (rest, dst, m, s) ← readRequests file reqs dst m s
    pure (first && rest, dst, m, s)

end

/-- A read that is started copies what the file has in the range, and the calls leave the files as
they are. -/
structure AioCalls.Posix {σ : Type} (sys : AioCalls σ) (isOpen : File → Prop)
    (contents : File → σ → List UInt8) (position : File → σ → Nat) :
    Prop extends sys.toFileCalls.Posix isOpen contents position where
  aioRead_eq : ∀ context s, isOpen context.fildes → 0 ≤ context.offset →
    context.offset.toInt.toNat + context.nbytes.toNat ≤ (contents context.fildes s).length →
    (sys.aioRead context s).1 =
      some (((contents context.fildes s).drop context.offset.toInt.toNat).take context.nbytes.toNat)
  aioRead_contents : ∀ context g s, isOpen g → contents g (sys.aioRead context s).2 = contents g s
  aioSuspend_contents : ∀ context waitTime g s, isOpen g →
    contents g (sys.aioSuspend context waitTime s).2 = contents g s
  aioReturn_contents : ∀ context g s, isOpen g →
    contents g (sys.aioReturn context s).2 = contents g s

namespace ReadRequest

def isAsync (req : ReadRequest) : Bool :=
  match req.path with
  | .sync => false
  | .async .. => true

/-- The range of the file that is asked for. -/
def range (req : ReadRequest) (bytes : List UInt8) : List UInt8 :=
  (bytes.drop req.startPos.toNat).take req.amountToRead.toNat

def InFile (req : ReadRequest) (bytes : List UInt8) : Prop :=
  req.startPos.toNat + req.amountToRead.toNat ≤ bytes.length

instance (req : ReadRequest) (bytes : List UInt8) : Decidable (req.InFile bytes) :=
  inferInstanceAs (Decidable (_ ≤ _))

/-- How many bytes the requests ask for. -/
def total (reqs : List ReadRequest) : Nat := (reqs.map fun req => req.amountToRead.toNat).sum

/-- The ranges in order. -/
def ranges (reqs : List ReadRequest) (bytes : List UInt8) : List UInt8 :=
  reqs.flatMap fun req => req.range bytes

end ReadRequest

/-- What is written in a buffer. -/
def Buffer.bytes (buf : Buffer) (m : Mem) : List UInt8 :=
  (List.range buf.writeCur.toNat).map (m.bytesFrom buf.base)

/-- All requests return true and leave the old content followed by the ranges, whatever is behind it
in the destination. -/
def BuildsRanges {σ : Type} (sys : AioCalls σ) (contents : File → σ → List UInt8)
    (file : File) (reqs : List ReadRequest) (dst : Buffer) (old : List UInt8) (s : σ) : Prop :=
  ∀ m : Mem, (∀ i : Usz, i.toNat < dst.size.toNat → m.writable (dst.base + i)) →
    dst.bytes m = old → ∃ dst' m' s',
    readRequests sys file reqs dst m s = .ok (true, dst', m', s') ∧
      dst' = { dst with writeCur := dst.writeCur + UInt64.ofNat (ReadRequest.total reqs) } ∧
      dst'.bytes m' = old ++ ReadRequest.ranges reqs (contents file s)

/-- An asynchronous read is issued when nothing is written yet, or reads nothing. -/
def AsyncOnEmpty : Usz → List ReadRequest → Prop
  | _, [] => True
  | cur, req :: reqs =>
    (req.isAsync → cur = 0 ∨ req.amountToRead = 0) ∧ AsyncOnEmpty (cur + req.amountToRead) reqs

instance decidableAsyncOnEmpty :
    (cur : Usz) → (reqs : List ReadRequest) → Decidable (AsyncOnEmpty cur reqs)
  | _, [] => isTrue trivial
  | cur, req :: reqs =>
    have := decidableAsyncOnEmpty (cur + req.amountToRead) reqs
    inferInstanceAs (Decidable ((req.isAsync → cur = 0 ∨ req.amountToRead = 0) ∧
      AsyncOnEmpty (cur + req.amountToRead) reqs))

/-! ### One request -/

/-- Where the range is copied to. -/
def ReadRequest.target (req : ReadRequest) (base : Ptr) (cur : Usz) : Ptr :=
  if req.isAsync then base else base + cur

theorem ReadRequest.length_range {req : ReadRequest} {bytes : List UInt8} (h : req.InFile bytes) :
    (req.range bytes).length = req.amountToRead.toNat := by
  rw [InFile] at h
  rw [range, List.length_take, List.length_drop]
  omega

section
variable {σ : Type} {sys : AioCalls σ} {isOpen : File → Prop} {contents : File → σ → List UInt8}
  {position : File → σ → Nat} {file : File} {dst : Buffer} {amount start : Usz} {m : Mem} {s : σ}

namespace AioCalls.Posix
variable (hsys : sys.Posix isOpen contents position)
include hsys

theorem contents_waitOnIoCompletion {g : File} (hg : isOpen g)
    (async : Async) (block : Bool) (s : σ) :
    contents g (waitOnIoCompletion sys async block s).2.2 = contents g s := by
  rw [waitOnIoCompletion]
  dsimp only
  generalize (if block then async else { async with waitTime := { sec := 0, nsec := 0 } }) = async'
  have hsuspend :=
    hsys.aioSuspend_contents async'.context (if block then none else some async'.waitTime) g s hg
  generalize sys.aioSuspend async'.context (if block then none else some async'.waitTime) s = res
    at hsuspend ⊢
  obtain ⟨done, s'⟩ := res
  cases done with
  | true => exact (hsys.aioReturn_contents async'.context g s' hg).trans hsuspend
  | false => exact hsuspend

variable (hopen : isOpen file)
include hopen

theorem readFileAsync_eq (hcur : dst.writeCur ≤ dst.size)
    (hfree : ∀ i : Usz, i.toNat < amount.toNat → m.writable (dst.base + i))
    (hrange : start.toNat + amount.toNat ≤ (contents file s).length)
    (hroom : amount.toNat ≤ dst.room) (async : Async) :
    ∃ async' s', (∀ g, isOpen g → contents g s' = contents g s) ∧
      readFileAsync sys file dst amount start async m s =
      .ok (true, { dst with writeCur := dst.writeCur + amount }, async',
        m.store dst.base (((contents file s).drop start.toNat).take amount.toNat), s') := by
  have hsize := hsys.size_lt file s hopen
  have hguard : amount ≤ dst.size - dst.writeCur := by
    rw [UInt64.le_iff_toNat_le, (Buffer.room_eq hcur).1]
    exact hroom
  have hoffset : start.toInt64.toInt.toNat = start.toNat := by
    rw [toInt_toInt64, if_pos (by omega), Int.toNat_natCast]
  have hnonneg : 0 ≤ start.toInt64 :=
    Int64.not_lt.1 fun hneg => absurd (toInt64_neg_iff.1 hneg) (by omega)
  have hread := hsys.aioRead_eq { fildes := file, buf := dst.base, nbytes := amount,
                                  offset := start.toInt64 } s hopen hnonneg
    (by rw [hoffset]; exact hrange)
  rw [hoffset] at hread
  have hkeep := fun g => hsys.aioRead_contents { fildes := file, buf := dst.base, nbytes := amount,
                                                 offset := start.toInt64 } g s
  have hlen : (((contents file s).drop start.toNat).take amount.toNat).length ≤ amount.toNat :=
    List.length_take_le ..
  have hwrite :=
    @Mem.writeBytes_eq m dst.base (((contents file s).drop start.toNat).take amount.toNat)
    (fun i hi => hfree i (by omega)) (Nat.le_trans hlen (Nat.le_of_lt amount.toNat_lt))
  rw [readFileAsync, if_pos hguard]
  dsimp only
  rw [aioReadAt]
  generalize sys.aioRead { fildes := file, buf := dst.base, nbytes := amount,
                           offset := start.toInt64 } s = res at hread hkeep ⊢
  obtain ⟨r, s'⟩ := res
  cases hread
  refine ⟨{ async with context := { fildes := file, buf := dst.base, nbytes := amount,
                                    offset := start.toInt64 } }, s', hkeep, ?_⟩
  dsimp only
  rw [hwrite]
  rfl

theorem readRequest_eq {req : ReadRequest} (hcur : dst.writeCur ≤ dst.size)
    (hfree : ∀ i : Usz, i.toNat < dst.size.toNat → m.writable (dst.base + i))
    (hrange : req.InFile (contents file s)) (hroom : req.amountToRead.toNat ≤ dst.room) :
    ∃ s', (∀ g, isOpen g → contents g s' = contents g s) ∧
      readRequest sys file req dst m s =
      .ok (true, { dst with writeCur := dst.writeCur + req.amountToRead },
        m.store (req.target dst.base dst.writeCur) (req.range (contents file s)), s') := by
  obtain ⟨-, hsum⟩ := Buffer.room_eq hcur
  have hsize := dst.size.toNat_lt
  rw [readRequest, ReadRequest.target, ReadRequest.isAsync]
  cases req.path with
  | sync =>
    refine hsys.toPosix.readFromFile_of_range hopen hcur (fun i hi => ?_) hrange hroom
    rw [UInt64.add_assoc]
    exact hfree _ (by rw [UInt64.toNat_add_of_lt (by omega)]; omega)
  | async async block =>
    obtain ⟨async', s', hkeep, hrun⟩ :=
      hsys.readFileAsync_eq hopen hcur (fun i hi => hfree i (by omega)) hrange hroom async
    refine ⟨(waitOnIoCompletion sys async' block s').2.2, fun g hg => ?_, ?_⟩
    · rw [hsys.contents_waitOnIoCompletion hg]
      exact hkeep g hg
    · dsimp only
      rw [hrun]
      rfl

end AioCalls.Posix

end

/-! ### Where the ranges go -/

namespace ReadRequest
variable {req : ReadRequest} {reqs : List ReadRequest} {bytes : List UInt8}
  {base : Ptr} {cur i : Usz} {m : Mem}

/-- The memory after the requests. -/
def placed (bytes : List UInt8) (base : Ptr) : Usz → List ReadRequest → Mem → Mem
  | _, [], m => m
  | cur, req :: reqs, m =>
    placed bytes base (cur + req.amountToRead) reqs
      (m.store (req.target base cur) (req.range bytes))

theorem total_cons (req : ReadRequest) (reqs : List ReadRequest) :
    total (req :: reqs) = req.amountToRead.toNat + total reqs := by
  rw [total, List.map_cons, List.sum_cons, total]

theorem ranges_cons (req : ReadRequest) (reqs : List ReadRequest) (bytes : List UInt8) :
    ranges (req :: reqs) bytes = req.range bytes ++ ranges reqs bytes := List.flatMap_cons ..

theorem length_ranges (h : ∀ req ∈ reqs, req.InFile bytes) :
    (ranges reqs bytes).length = total reqs := by
  induction reqs with
  | nil => rfl
  | cons req reqs ih =>
    obtain ⟨hreq, hreqs⟩ := List.forall_mem_cons.1 h
    rw [ranges_cons, total_cons, List.length_append, length_range hreq, ih hreqs]

/-- A byte behind what the request reads, and for a synchronous one behind where it puts it. -/
theorem not_inRange_target (hreq : req.InFile bytes) (hi : req.amountToRead.toNat ≤ i.toNat)
    (hsync : ¬ req.isAsync → cur.toNat + req.amountToRead.toNat ≤ i.toNat) :
    ¬ InRange (req.target base cur) (req.range bytes).length (base + i) := by
  rw [length_range hreq, target]
  split_ifs with hasync
  · rw [inRange_add]
    omega
  · have hle := hsync hasync
    rw [InRange, show base + i - (base + cur) = i - cur by grind,
      UInt64.toNat_sub_of_toNat_le (by omega)]
    omega

theorem placed_of_asyncOnEmpty (h : ∀ req ∈ reqs, req.InFile bytes)
    (hfits : cur.toNat + total reqs < 2 ^ 64) (hempty : AsyncOnEmpty cur reqs) :
    placed bytes base cur reqs m = m.store (base + cur) (ranges reqs bytes) := by
  induction reqs generalizing cur m with
  | nil => rfl
  | cons req reqs ih =>
    obtain ⟨hreq, hreqs⟩ := List.forall_mem_cons.1 h
    have hlen := length_range hreq
    have hrest := length_ranges hreqs
    rw [total_cons] at hfits
    have hcur : (cur + req.amountToRead).toNat = cur.toNat + req.amountToRead.toNat :=
      UInt64.toNat_add_of_lt (by omega)
    have hstore : m.store (req.target base cur) (req.range bytes) =
        m.store (base + cur) (req.range bytes) := by
      rw [target]
      split_ifs with hasync
      · rcases hempty.1 hasync with hzero | hzero
        · rw [hzero, UInt64.add_zero]
        · have hnil : req.range bytes = [] :=
            List.eq_nil_of_length_eq_zero (by rw [hlen, hzero]; rfl)
          rw [hnil, Mem.store_nil, Mem.store_nil]
      · rfl
    rw [placed, hstore, ih hreqs (by omega) hempty.2, ranges_cons, ← Mem.store_append (by omega),
      hlen, UInt64.ofNat_toNat, UInt64.add_assoc]

/-- The last byte that is counted for the last request at fault is never written. -/
theorem exists_kept (h : ∀ req ∈ reqs, req.InFile bytes) (hfits : cur.toNat + total reqs < 2 ^ 64)
    (hnot : ¬ AsyncOnEmpty cur reqs) :
    ∃ i : Usz, cur.toNat ≤ i.toNat ∧ i.toNat < cur.toNat + total reqs ∧
      ∀ m, (placed bytes base cur reqs m).byte (base + i) = m.byte (base + i) := by
  induction reqs generalizing cur with
  | nil => exact absurd trivial hnot
  | cons req reqs ih =>
    obtain ⟨hreq, hreqs⟩ := List.forall_mem_cons.1 h
    rw [total_cons] at hfits ⊢
    have hcur : (cur + req.amountToRead).toNat = cur.toNat + req.amountToRead.toNat :=
      UInt64.toNat_add_of_lt (by omega)
    by_cases hempty : AsyncOnEmpty (cur + req.amountToRead) reqs
    · have hthis : ¬ (req.isAsync → cur = 0 ∨ req.amountToRead = 0) :=
        fun hthis => hnot ⟨hthis, hempty⟩
      rw [Classical.not_imp, not_or] at hthis
      obtain ⟨hasync, hne, hamount⟩ := hthis
      have hpos : 0 < cur.toNat := Nat.pos_of_ne_zero fun h0 => hne (UInt64.toNat_inj.1 h0)
      have hread : 0 < req.amountToRead.toNat :=
        Nat.pos_of_ne_zero fun h0 => hamount (UInt64.toNat_inj.1 h0)
      have hone : (1 : Usz).toNat = 1 := rfl
      have hlast : (cur + req.amountToRead - 1).toNat = cur.toNat + req.amountToRead.toNat - 1 := by
        rw [UInt64.toNat_sub_of_toNat_le (by omega), hcur, hone]
      refine ⟨cur + req.amountToRead - 1, by omega, by omega, fun m => ?_⟩
      have hbehind : ¬ InRange (base + (cur + req.amountToRead)) (ranges reqs bytes).length
          (base + (cur + req.amountToRead - 1)) := by
        have hrest := length_ranges hreqs
        rw [InRange, show base + (cur + req.amountToRead - 1) - (base + (cur + req.amountToRead)) =
          0 - 1 by grind, hrest]
        exact Nat.not_lt.2 (Nat.le_trans (by omega : total reqs ≤ 2 ^ 64 - 1) (by decide))
      rw [placed, placed_of_asyncOnEmpty hreqs (by omega) hempty,
        Mem.store_byte_of_not_inRange hbehind,
        Mem.store_byte_of_not_inRange (not_inRange_target hreq (by omega) fun hsync =>
          absurd hasync hsync)]
    · obtain ⟨i, hle, hlt, hkept⟩ := ih hreqs (by omega) hempty
      refine ⟨i, by omega, by omega, fun m => ?_⟩
      rw [placed, hkept,
        Mem.store_byte_of_not_inRange (not_inRange_target hreq (by omega) fun _ => by omega)]

end ReadRequest

/-! ### The requests -/

namespace Buffer
variable {dst : Buffer} {m : Mem} {bs : List UInt8}

theorem getElem?_bytes {i : Nat} (hi : i < dst.writeCur.toNat) :
    (dst.bytes m)[i]? = some (m.byte (dst.base + UInt64.ofNat i)) := by
  rw [bytes, List.getElem?_map, List.getElem?_range hi, Option.map_some, Mem.bytesFrom]

theorem bytes_store_base (hlen : bs.length = dst.writeCur.toNat) :
    dst.bytes (m.store dst.base bs) = bs := by
  have hlt := dst.writeCur.toNat_lt
  rw [bytes, ← hlen]
  exact Mem.map_bytesFrom_store (by omega)

theorem bytes_store (hfits : dst.writeCur.toNat + bs.length < 2 ^ 64) :
    Buffer.bytes { dst with writeCur := dst.writeCur + UInt64.ofNat bs.length }
      (m.store (dst.base + dst.writeCur) bs) = dst.bytes m ++ bs := by
  rw [bytes, UInt64.toNat_add_ofNat hfits]
  exact Mem.map_bytesFrom_store_behind (Nat.le_of_lt hfits)

end Buffer

section
variable {σ : Type} {sys : AioCalls σ} {isOpen : File → Prop} {contents : File → σ → List UInt8}
  {position : File → σ → Nat} {file : File} {dst : Buffer}
  {reqs : List ReadRequest} {m : Mem} {s : σ}

open ReadRequest

theorem readRequests_eq (hsys : sys.Posix isOpen contents position) (hopen : isOpen file)
    (hcur : dst.writeCur ≤ dst.size)
    (hfree : ∀ i : Usz, i.toNat < dst.size.toNat → m.writable (dst.base + i))
    (hrange : ∀ req ∈ reqs, req.InFile (contents file s)) (hroom : total reqs ≤ dst.room) : ∃ s',
      readRequests sys file reqs dst m s =
      .ok (true, { dst with writeCur := dst.writeCur + UInt64.ofNat (total reqs) },
        placed (contents file s) dst.base dst.writeCur reqs m, s') := by
  induction reqs generalizing dst m s with
  | nil =>
    refine ⟨s, ?_⟩
    have hzero : dst.writeCur + UInt64.ofNat (total []) = dst.writeCur := UInt64.add_zero _
    rw [hzero]
    rfl
  | cons req reqs ih =>
    obtain ⟨hreq, hreqs⟩ := List.forall_mem_cons.1 hrange
    obtain ⟨-, hsum⟩ := Buffer.room_eq hcur
    have hsize := dst.size.toNat_lt
    rw [total_cons] at hroom
    have hgrown : (dst.writeCur + req.amountToRead).toNat =
        dst.writeCur.toNat + req.amountToRead.toNat :=
      UInt64.toNat_add_of_lt (by omega)
    obtain ⟨s1, hkeep, hfirst⟩ := hsys.readRequest_eq hopen hcur hfree hreq (by omega)
    have hcur' : dst.writeCur + req.amountToRead ≤ dst.size := UInt64.le_iff_toNat_le.2 (by omega)
    have hfree' : ∀ i : Usz, i.toNat < dst.size.toNat →
        (m.store (req.target dst.base dst.writeCur) (req.range (contents file s))).writable
        (dst.base + i) := hfree
    obtain ⟨s2, hrest⟩ :=
      @ih { dst with writeCur := dst.writeCur + req.amountToRead } _ s1 hcur' hfree'
      (by rw [hkeep file hopen]; exact hreqs)
      (by rw [Buffer.room, hgrown]; show _ ≤ dst.size.toNat - _; omega)
    refine ⟨s2, ?_⟩
    rw [hkeep file hopen] at hrest
    rw [readRequests, hfirst, Except.ok_bind]
    dsimp only
    rw [hrest, total_cons, UInt64.ofNat_add, UInt64.ofNat_toNat, ← UInt64.add_assoc]
    rfl

end

/-- The requests build their ranges exactly if the asynchronous ones that read something find the
destination empty. -/
theorem readRequests_builds_iff {σ : Type} (sys : AioCalls σ) (isOpen : File → Prop)
    (contents : File → σ → List UInt8) (position : File → σ → Nat)
    (hsys : sys.Posix isOpen contents position) (file : File) (hopen : isOpen file)
    (reqs : List ReadRequest) (dst : Buffer) (hcur : dst.writeCur ≤ dst.size) (old : List UInt8)
    (hold : old.length = dst.writeCur.toNat) (s : σ)
    (hrange : ∀ req ∈ reqs, req.InFile (contents file s))
    (hroom : ReadRequest.total reqs ≤ dst.room) :
    BuildsRanges sys contents file reqs dst old s ↔ AsyncOnEmpty dst.writeCur reqs := by
  obtain ⟨-, hsum⟩ := Buffer.room_eq hcur
  have hsize := dst.size.toNat_lt
  have hlen := ReadRequest.length_ranges hrange
  have hfits : dst.writeCur.toNat + ReadRequest.total reqs < 2 ^ 64 := by omega
  constructor
  · intro h
    by_contra hnot
    obtain ⟨i, hle, hlt, hkept⟩ :=
      @ReadRequest.exists_kept reqs (contents file s) dst.base dst.writeCur hrange hfits hnot
    have hi : i.toNat < (old ++ ReadRequest.ranges reqs (contents file s)).length := by
      rw [List.length_append]
      omega
    -- a destination that has another byte there
    obtain ⟨m, hm, hbyte, hfree⟩ : ∃ m : Mem, dst.bytes m = old ∧
        m.byte (dst.base + i) ≠ (old ++ ReadRequest.ranges reqs (contents file s))[i.toNat] ∧
        ∀ i : Usz, i.toNat < dst.size.toNat → m.writable (dst.base + i) := by
      generalize (old ++ ReadRequest.ranges reqs (contents file s))[i.toNat] = b
      refine ⟨(⟨fun _ => b ^^^ 1, fun _ => true, fun _ => true⟩ : Mem).store dst.base old,
        Buffer.bytes_store_base hold, ?_, fun _ _ => rfl⟩
      rw [Mem.store_byte_of_not_inRange (by rw [inRange_add]; omega)]
      exact xor_one_ne b
    obtain ⟨s', hrun⟩ := readRequests_eq hsys hopen hcur hfree hrange hroom
    obtain ⟨dst', m', s'', hrun', -, hbytes⟩ := h m hfree hm
    rw [hrun] at hrun'
    cases hrun'
    have hget := @Buffer.getElem?_bytes { dst with
      writeCur := dst.writeCur + UInt64.ofNat (ReadRequest.total reqs) }
      (ReadRequest.placed (contents file s) dst.base dst.writeCur reqs m) i.toNat
      (by rw [UInt64.toNat_add_ofNat hfits]; exact hlt)
    rw [hbytes, List.getElem?_eq_getElem hi, UInt64.ofNat_toNat, hkept, Option.some.injEq] at hget
    exact hbyte hget.symm
  · intro hempty m hfree hm
    obtain ⟨s', hrun⟩ := readRequests_eq hsys hopen hcur hfree hrange hroom
    refine ⟨_, _, s', hrun, rfl, ?_⟩
    rw [ReadRequest.placed_of_asyncOnEmpty hrange hfits hempty, ← hlen,
      Buffer.bytes_store (by omega), hm]

/-! Files that stay as they are, and asynchronous reads that are complete at once. -/

def plainAio (disk : File → List UInt8) : AioCalls (File → Nat) where
  toFileCalls := plainFiles disk
  aioRead context s :=
    (some (((disk context.fildes).drop context.offset.toInt.toNat).take context.nbytes.toNat), s)
  aioSuspend _ _ s := (true, s)
  aioReturn context s := (context.nbytes.toInt64, s)

theorem posix_plainAio {disk : File → List UInt8} (h : ∀ file, (disk file).length < 2 ^ 63) :
    (plainAio disk).Posix (fun _ => True) (fun file _ => disk file) (fun file s => s file) where
  toPosix := posix_plainFiles h
  aioRead_eq _ _ _ _ _ := rfl
  aioRead_contents _ _ _ _ := rfl
  aioSuspend_contents _ _ _ _ _ := rfl
  aioReturn_contents _ _ _ _ := rfl

/-- A file of two bytes, and an empty destination with room for them. -/
def abFile : AioCalls (File → Nat) := plainAio fun _ => [97, 98]

def abDst : Buffer := { base := 64, writeCur := 0, size := 2 }

theorem posix_abFile : abFile.Posix (fun _ => True) (fun _ _ => [97, 98]) (fun file s => s file) :=
  posix_plainAio fun _ => by decide

def unsetAsync : Async := ⟨⟨0, 0, 0, 0⟩, ⟨0, 0⟩⟩

theorem readRequests_builds_mixed :
    BuildsRanges abFile (fun _ _ => [97, 98]) 3 [⟨.async unsetAsync true, 1, 1⟩,
      ⟨.sync, 1, 0⟩] abDst [] (fun _ => 0) :=
  (readRequests_builds_iff abFile _ _ _ posix_abFile 3 trivial [⟨.async unsetAsync true, 1, 1⟩,
    ⟨.sync, 1, 0⟩] abDst (by decide) []
    rfl (fun _ => 0) (List.forall_mem_cons.2 ⟨by decide, List.forall_mem_singleton.2 (by decide)⟩)
      (by decide)).2 (by decide)

/-- The second byte of the file is copied over the first. -/
theorem readRequests_not_builds :
    (∀ req ∈ [(⟨.async unsetAsync true, 1, 0⟩ : ReadRequest), ⟨.async unsetAsync true, 1, 1⟩],
      req.InFile [97, 98]) ∧
    (readRequests abFile 3 [⟨.async unsetAsync true, 1, 0⟩, ⟨.async unsetAsync true, 1, 1⟩] abDst
      ⟨fun _ => 0, fun _ => true, fun _ => true⟩ fun _ => 0).toOption.map
      (fun r => (r.1, r.2.1.bytes r.2.2.1)) = some (true, [98, 0]) ∧
    ¬ BuildsRanges abFile (fun _ _ => [97, 98]) 3 [⟨.async unsetAsync true, 1, 0⟩,
      ⟨.async unsetAsync true, 1, 1⟩] abDst [] (fun _ => 0) := by
  have hrange : ∀ req ∈ [(⟨.async unsetAsync true, 1, 0⟩ : ReadRequest),
      ⟨.async unsetAsync true, 1, 1⟩], req.InFile [97, 98] :=
    List.forall_mem_cons.2 ⟨by decide, List.forall_mem_singleton.2 (by decide)⟩
  refine ⟨hrange, by decide +kernel, fun h => ?_⟩
  exact absurd ((readRequests_builds_iff abFile _ _ _ posix_abFile 3 trivial _ abDst (by decide)
    [] rfl (fun _ => 0) hrange (by decide)).1 h) (by decide)

end TinyBase
