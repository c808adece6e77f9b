import TinyBase.FileStore

/-!
# Reading and writing files (Windows)

`ReadFile` and `WriteFile` move at most `U32_MAX` bytes, and fewer than they are asked for as they
like: `ReadFromFile` and `AppendToFile` call them until nothing is left. A row of calls on files
comes to the same as on Linux. What differs is the size: `GetFileSize` gives it in two halves, and
`FileSizeOf` takes a lower half of `0xFFFFFFFF` for an error. And a read that passes its test only
as a sum wraps around may find less than it asks for, for ever.
-/

namespace TinyBase.Win32

/-- `U32_MAX`. -/
def u32Max : Usz := 0xFFFFFFFF

/-- `INVALID_FILE_SIZE`. -/
def invalidFileSize : UInt32 := 0xFFFFFFFF

/-- `INVALID_SET_FILE_POINTER`. -/
def invalidSetFilePointer : UInt32 := 0xFFFFFFFF

/-- The calls on open files. -/
structure FileCalls (σ : Type) where
  /-- The lower half of the size, and the upper. -/
  getFileSize : File → σ → UInt32 × UInt32
  /-- With `FILE_BEGIN`, for the lower and the upper half of the position. -/
  setFilePointer : File → UInt32 → UInt32 → σ → UInt32 × σ
  /-- Whether it returns true, and the bytes that it stores. -/
  readFile : File → UInt32 → σ → (Bool × List UInt8) × σ
  /-- How many bytes it writes, if it returns true. -/
  writeFile : File → List UInt8 → σ → Option UInt32 × σ

/-- The state of the loop in `ReadFromFile`. -/
structure Reading (σ : Type) where
  remainsToRead : Usz
  ptr : Ptr
  mem : Mem
  state : σ

/-- The state of the loop in `AppendToFile`. -/
structure Writing (σ : Type) where
  remainsToWrite : Usz
  ptr : Ptr
  state : σ

section
variable {σ : Type} (sys : FileCalls σ)

def fileSizeOf (file : File) (s : σ) : Usz :=
  let (fileSizeLo, fileSizeHi) := sys.getFileSize file s
  if fileSizeLo ≠ invalidFileSize then fileSizeHi.toUInt64 <<< 32 ||| fileSizeLo.toUInt64
    else uszMax

def seekFile (file : File) (pos : Usz) (s : σ) : Bool × σ :=
  let posHi := (pos >>> 32).toUInt32
  let (result, s) := sys.setFilePointer file (pos &&& 0xFFFFFFFF).toUInt32 posHi s
  (result != invalidSetFilePointer, s)

def readRound (file : File) (r : Reading σ) : Res (Ctl (Reading σ) (Bool × Mem × σ)) :=
  if r.remainsToRead > 0 then do
    let readSize := if r.remainsToRead > u32Max then u32Max.toUInt32 else r.remainsToRead.toUInt32
    let read := sys.readFile file readSize r.state
    let m ← r.mem.writeBytes r.ptr read.1.2
    if read.1.1 then
      let bytesRead := UInt32.ofNat read.1.2.length
      pure (.next ⟨r.remainsToRead - bytesRead.toUInt64, r.ptr + bytesRead.toUInt64, m, read.2⟩)
    else pure (.done (false, m, read.2))
  else pure (.done (true, r.mem, r.state))

def readFromFile (file : File) (dst : Buffer) (amountToRead startPos : Usz) (m : Mem) (s : σ) :
    Res (Bool × Buffer × Mem × σ) :=
  let fileSize := fileSizeOf sys file s
  if startPos + amountToRead ≤ fileSize ∧ amountToRead ≤ dst.size - dst.writeCur then do
    let (_, s) := seekFile sys file startPos s
    let (ok, m, s) ← whileLoop (readRound sys file) ⟨amountToRead, dst.base + dst.writeCur, m, s⟩
    if ok then pure (true, { dst with writeCur := dst.writeCur + amountToRead }, m, s)
    else pure (false, dst, m, s)
  else pure (false, dst, m, s)

def writeRound (file : File) (m : Mem) (w : Writing σ) : Res (Ctl (Writing σ) (Bool × σ)) :=
  if w.remainsToWrite > 0 then do
    let writeSize := (if w.remainsToWrite ≤ u32Max then w.remainsToWrite else u32Max).toUInt32
    let bytes ← readBytes m.read w.ptr writeSize.toNat
    match sys.writeFile file bytes w.state with
    | (some bytesWritten, s) =>
      pure (.next ⟨w.remainsToWrite - bytesWritten.toUInt64, w.ptr + bytesWritten.toUInt64, s⟩)
    | (none, s) => pure (.done (false, s))
  else pure (.done (true, w.state))

def appendToFile (file : File) (content : Buffer) (m : Mem) (s : σ) : Res (Bool × σ) :=
  whileLoop (writeRound sys file m) ⟨content.writeCur, content.base, s⟩

def writeEntireFile (file : File) (content : Buffer) (m : Mem) (s : σ) : Res (Bool × σ) :=
  let (_, s) := seekFile sys file 0 s
  appendToFile sys file content m s

def writeToFile (file : File) (content : Buffer) (startPos : Usz) (m : Mem) (s : σ) :
    Res (Bool × σ) :=
  let (_, s) := seekFile sys file startPos s
  appendToFile sys file content m s

def call (op : FileOp) (m : Mem) (s : σ) : Res (Bool × σ) :=
  match op with
  | .seek file pos => pure (seekFile sys file pos s)
  | .read file dst amountToRead startPos => do
    let (ok, _, _, s) ← readFromFile sys file dst amountToRead startPos m s
    pure (ok, s)
  | .append file content => appendToFile sys file content m s
  | .writeEntire file content => writeEntireFile sys file content m s
  | .write file content startPos => writeToFile sys file content startPos m s

end

/-- The handles are of files, some of them of the same, and not for asynchronous calls. A read that
returns true has read something unless the handle is at the end; a write has written the first bytes
of what it is given, all but the last if it returns false, and at least one if it returns true. What
is in a gap is not known. -/
structure FileCalls.Sync {σ ι : Type} (sys : FileCalls σ) (isOpen : File → Prop)
    (node : File → ι) (appends : File → Bool) (disk : ι → σ → List UInt8)
    (position : File → σ → Nat) : Prop where
  size_lt : ∀ f s, isOpen f → (disk (node f) s).length < 2 ^ 63
  getFileSize_eq : ∀ f s, isOpen f → sys.getFileSize f s =
    (UInt32.ofNat ((disk (node f) s).length % 2 ^ 32),
      UInt32.ofNat ((disk (node f) s).length / 2 ^ 32))
  setFilePointer_eq : ∀ f lo hi s, isOpen f → hi.toNat < 2 ^ 31 →
    (sys.setFilePointer f lo hi s).1 = lo ∧
    position f (sys.setFilePointer f lo hi s).2 = hi.toNat * 2 ^ 32 + lo.toNat
  setFilePointer_fails : ∀ f lo hi s, isOpen f → 2 ^ 31 ≤ hi.toNat →
    position f (sys.setFilePointer f lo hi s).2 = position f s
  setFilePointer_disk : ∀ f lo hi s k, isOpen f → disk k (sys.setFilePointer f lo hi s).2 = disk k s
  setFilePointer_others : ∀ f g lo hi s, isOpen f → g ≠ f →
    position g (sys.setFilePointer f lo hi s).2 = position g s
  readFile_le : ∀ f n s, isOpen f → (sys.readFile f n s).1.2.length ≤ n.toNat
  readFile_eq : ∀ f n s, isOpen f → (sys.readFile f n s).1.1 = true →
    (sys.readFile f n s).1.2 =
    ((disk (node f) s).drop (position f s)).take (sys.readFile f n s).1.2.length ∧
    position f (sys.readFile f n s).2 = position f s + (sys.readFile f n s).1.2.length
  readFile_ne : ∀ f n s, isOpen f → (sys.readFile f n s).1.1 = true → 0 < n.toNat →
    position f s < (disk (node f) s).length →
    (sys.readFile f n s).1.2 ≠ []
  readFile_disk : ∀ f n s k, isOpen f → disk k (sys.readFile f n s).2 = disk k s
  readFile_others : ∀ f g n s, isOpen f → g ≠ f → position g (sys.readFile f n s).2 = position g s
  writeFile_eq : ∀ f bytes s, isOpen f → bytes ≠ [] → bytes.length < 2 ^ 32 → ∃ n ≤ bytes.length,
    (∀ written, (sys.writeFile f bytes s).1 = some written → written.toNat = n ∧ 0 < n) ∧
    ((sys.writeFile f bytes s).1 = none → n < bytes.length) ∧
    Overwrites (fun _ => True) (disk (node f) s) (if appends f then (disk (node f) s).length
      else position f s) (bytes.take n)
      (disk (node f) (sys.writeFile f bytes s).2) ∧
    (appends f = false → position f (sys.writeFile f bytes s).2 = position f s + n)
  writeFile_disk : ∀ f bytes s k, isOpen f → k ≠ node f →
    disk k (sys.writeFile f bytes s).2 = disk k s
  writeFile_others : ∀ f g bytes s, isOpen f → g ≠ f →
    position g (sys.writeFile f bytes s).2 = position g s

/-- The last position that a handle can be moved to: `SetFilePointer` takes one of `2 ^ 63` or more
for a negative one. -/
def maxPosition (_ : File) : Nat := 2 ^ 63 - 1

/-- What `FileSizeOf` makes of the length of a file. -/
def sizeSeen (length : Nat) : Nat := if length % 2 ^ 32 = 2 ^ 32 - 1 then 2 ^ 64 - 1 else length

theorem le_sizeSeen {length : Nat} (h : length < 2 ^ 63) : length ≤ sizeSeen length := by
  rw [sizeSeen]
  split_ifs <;> omega

/-- A read that passes its test is of nothing, or of what the file has from where the handle is
then. -/
def Ready {ι : Type} (node : File → ι) (op : FileOp) (t : FileStore ι) : Prop :=
  match op with
  | .read file dst amountToRead startPos =>
    (startPos + amountToRead).toNat ≤ sizeSeen (t.bytes (node file)).length ∧
      amountToRead.toNat ≤ dst.room → amountToRead.toNat = 0 ∨
        t.landing maxPosition file startPos + amountToRead.toNat ≤ (t.bytes (node file)).length
  | _ => True

theorem toNat_halves (hi lo : UInt32) :
    (hi.toUInt64 <<< 32 ||| lo.toUInt64).toNat = hi.toNat * 2 ^ 32 + lo.toNat := by
  have hhi := hi.toNat_lt
  have hlo := lo.toNat_lt
  have hcount : (32 : UInt64).toNat % 64 = 32 := rfl
  have hshift : (hi.toUInt64 <<< 32).toNat = hi.toNat <<< 32 := by
    rw [UInt64.toNat_shiftLeft, UInt32.toNat_toUInt64, hcount]
    exact Nat.mod_eq_of_lt (by rw [Nat.shiftLeft_eq]; omega)
  rw [UInt64.toNat_or, hshift, UInt32.toNat_toUInt64, ← Nat.shiftLeft_add_eq_or_of_lt hlo,
    Nat.shiftLeft_eq]

theorem toNat_upper (pos : Usz) : (pos >>> 32).toUInt32.toNat = pos.toNat / 2 ^ 32 := by
  have hpos := pos.toNat_lt
  rw [UInt64.toNat_toUInt32, UInt64.toNat_shiftRight]
  show pos.toNat >>> 32 % 2 ^ 32 = _
  rw [Nat.shiftRight_eq_div_pow]
  omega

theorem toNat_lower (pos : Usz) : (pos &&& 0xFFFFFFFF).toUInt32.toNat = pos.toNat % 2 ^ 32 := by
  rw [UInt64.toNat_toUInt32, UInt64.toNat_and]
  show (pos.toNat &&& (2 ^ 32 - 1)) % 2 ^ 32 = _
  rw [Nat.and_two_pow_sub_one_eq_mod, Nat.mod_mod]

namespace FileCalls.Sync
variable {σ ι : Type} {sys : FileCalls σ} {isOpen : File → Prop}
  {node : File → ι} {appends : File → Bool} {disk : ι → σ → List UInt8} {position : File → σ → Nat}
  {file : File} {dst content : Buffer} {amount start : Usz} {m : Mem} {s : σ}
  (hsys : sys.Sync isOpen node appends disk position)
include hsys

theorem toNat_fileSizeOf (hopen : isOpen file) :
    (fileSizeOf sys file s).toNat = sizeSeen (disk (node file) s).length := by
  have hsize := hsys.size_lt file s hopen
  have hlo : (UInt32.ofNat ((disk (node file) s).length % 2 ^ 32)).toNat =
      (disk (node file) s).length % 2 ^ 32 :=
    UInt32.toNat_ofNat_of_lt' (Nat.mod_lt _ (by decide))
  have hhi : (UInt32.ofNat ((disk (node file) s).length / 2 ^ 32)).toNat =
      (disk (node file) s).length / 2 ^ 32 :=
    UInt32.toNat_ofNat_of_lt' (Nat.div_lt_of_lt_mul (show _ < 2 ^ 32 * 2 ^ 32 by omega))
  have hinvalid : UInt32.ofNat ((disk (node file) s).length % 2 ^ 32) = invalidFileSize ↔
      (disk (node file) s).length % 2 ^ 32 = 2 ^ 32 - 1 := by
    rw [← UInt32.toNat_inj, hlo]
    exact Iff.rfl
  rw [fileSizeOf, hsys.getFileSize_eq file s hopen, sizeSeen]
  dsimp only
  by_cases h : (disk (node file) s).length % 2 ^ 32 = 2 ^ 32 - 1
  · rw [if_neg (not_not.2 (hinvalid.2 h)), if_pos h]
    rfl
  · rw [if_pos (hinvalid.not.2 h), if_neg h, toNat_halves, hlo, hhi]
    omega

theorem fileStore_seekFile (start : Usz) (hopen : isOpen file) :
    fileStore disk position (seekFile sys file start s).2 =
    (fileStore disk position s).moved file
      ((fileStore disk position s).landing maxPosition file start) := by
  have hupper := toNat_upper start
  have hlanding : position file (seekFile sys file start s).2 =
      (fileStore disk position s).landing maxPosition file start := by
    rw [FileStore.landing]
    split_ifs with h
    · have hmax : start.toNat ≤ 2 ^ 63 - 1 := h
      refine (hsys.setFilePointer_eq file (start &&& 0xFFFFFFFF).toUInt32 _ s
        hopen (by omega)).2.trans ?_
      rw [hupper, toNat_lower]
      omega
    · have hmax : ¬ start.toNat ≤ 2 ^ 63 - 1 := h
      exact hsys.setFilePointer_fails file _ _ s hopen (by omega)
  rw [fileStore, fileStore, FileStore.moved, FileStore.mk.injEq]
  refine ⟨funext fun k => hsys.setFilePointer_disk file _ _ s k hopen, funext fun g => ?_⟩
  rcases eq_or_ne g file with rfl | hg
  · rw [Function.update_self]
    exact hlanding
  · rw [Function.update_of_ne hg]
    exact hsys.setFilePointer_others file g _ _ s hopen hg

end FileCalls.Sync

/-! ### Writing -/

/-- The first `k` of `bytes` are written, where the call began in the state `s`. -/
structure Written {σ ι : Type} (node : File → ι) (appends : File → Bool) (disk : ι → σ → List UInt8)
    (position : File → σ → Nat) (file : File) (bytes : List UInt8) (s : σ) (k : Nat) (s' : σ) :
    Prop where
  overwrites : Overwrites (fun _ => True) (disk (node file) s)
    (if appends file then (disk (node file) s).length else position file s)
    (bytes.take k) (disk (node file) s')
  disk_others : ∀ j, j ≠ node file → disk j s' = disk j s
  position_eq : appends file = false → position file s' = position file s + k
  position_others : ∀ g, g ≠ file → position g s' = position g s

namespace Written
variable {σ ι : Type} {sys : FileCalls σ} {isOpen : File → Prop}
  {node : File → ι} {appends : File → Bool} {disk : ι → σ → List UInt8} {position : File → σ → Nat}
  {file : File} {bytes : List UInt8} {s s' : σ} {k c : Nat}

theorem zero (node : File → ι) (appends : File → Bool) (disk : ι → σ → List UInt8)
    (position : File → σ → Nat) (file : File) (bytes : List UInt8) (s : σ) :
    Written node appends disk position file bytes s 0 s where
  overwrites := .refl _ _ _
  disk_others _ _ := rfl
  position_eq _ := rfl
  position_others _ _ := rfl

/-- Where the next write begins. -/
theorem start_eq (h : Written node appends disk position file bytes s k s')
    (hk : k ≤ bytes.length) :
    (if appends file then (disk (node file) s').length else position file s') =
      (if appends file then (disk (node file) s).length else position file s) +
      (bytes.take k).length := by
  have hlen := h.overwrites.length_eq
  rw [List.length_take_of_le hk] at hlen ⊢
  cases happ : appends file with
  | true =>
    rw [happ] at hlen
    simp only [if_true] at hlen ⊢
    split_ifs at hlen with hnil
    · rw [hlen, ← List.length_take_of_le hk, hnil]
      rfl
    · omega
  | false => exact h.position_eq happ

theorem writeFile (hsys : sys.Sync isOpen node appends disk position) (hopen : isOpen file)
    (h : Written node appends disk position file bytes s k s') (hk : k < bytes.length)
    (hc : 0 < c) (hsmall : c < 2 ^ 32) (hle : k + c ≤ bytes.length) : ∃ n ≤ c,
      (∀ written, (sys.writeFile file ((bytes.drop k).take c) s').1 = some written →
        written.toNat = n ∧ 0 < n) ∧
      ((sys.writeFile file ((bytes.drop k).take c) s').1 = none → n < c) ∧
      Written node appends disk position file bytes s (k + n)
      (sys.writeFile file ((bytes.drop k).take c) s').2 := by
  have hlen : ((bytes.drop k).take c).length = c := by
    rw [List.length_take, List.length_drop]
    omega
  obtain ⟨n, hn, hsome, hnone, hover, hmoved⟩ :=
    hsys.writeFile_eq file ((bytes.drop k).take c) s' hopen
    (List.length_pos_iff.1 (by omega)) (by omega)
  rw [hlen] at hn hnone
  rw [h.start_eq (Nat.le_of_lt hk), List.take_take, Nat.min_eq_left hn] at hover
  refine ⟨n, hn, hsome, hnone, ?_, fun j hj => ?_, fun happ => ?_, fun g hg => ?_⟩
  · rw [List.take_add]
    exact h.overwrites.append hover
  · rw [hsys.writeFile_disk file _ s' j hopen hj, h.disk_others j hj]
  · rw [hmoved happ, h.position_eq happ, Nat.add_assoc]
  · rw [hsys.writeFile_others file g _ s' hopen hg, h.position_others g hg]

end Written

/-- The first `n` bytes that are written in a buffer, from the `k`-th on. -/
theorem readBytes_source {content : Buffer} {m : Mem} (hsrc : content.Source m) {k : Usz} {n : Nat}
    (hle : k.toNat + n ≤ content.writeCur.toNat) :
    readBytes m.read (content.base + k) n = .ok (((content.bytes m).drop k.toNat).take n) := by
  have hcur := content.writeCur.toNat_lt
  have hlen : (content.bytes m).length = content.writeCur.toNat := by
    rw [Buffer.bytes, List.length_map, List.length_range]
  have htake : (((content.bytes m).drop k.toNat).take n).length = n := by
    rw [List.length_take, List.length_drop]
    omega
  have hholds : Holds m.read content.base (content.bytes m) := hsrc.readable.reads.holds
  have hbehind := hholds.drop k (by omega) (by omega)
  rw [← List.take_append_drop n ((content.bytes m).drop k.toNat)] at hbehind
  have hread := readBytes_of_holds hbehind.of_append (by omega)
  rwa [htake] at hread

/-- The size of a round. -/
theorem toNat_chunk (remains : Usz) :
    (if remains ≤ u32Max then remains else u32Max).toUInt32.toNat =
      min remains.toNat (2 ^ 32 - 1) := by
  have hmax : u32Max.toNat = 2 ^ 32 - 1 := rfl
  rw [UInt64.toNat_toUInt32]
  split_ifs with h <;> rw [UInt64.le_iff_toNat_le, hmax] at h <;> omega

section
variable {σ ι : Type} {sys : FileCalls σ} {isOpen : File → Prop}
  {node : File → ι} {appends : File → Bool} {disk : ι → σ → List UInt8} {position : File → σ → Nat}
  {file : File} {content : Buffer} {m : Mem} {s : σ}

/-- The invariant of the loop in `AppendToFile`. -/
def WriteInv (node : File → ι) (appends : File → Bool) (disk : ι → σ → List UInt8)
    (position : File → σ → Nat) (file : File) (content : Buffer) (m : Mem) (s : σ) (w : Writing σ) :
    Prop :=
  ∃ k : Usz, k ≤ content.writeCur ∧ w.remainsToWrite = content.writeCur - k ∧
    w.ptr = content.base + k ∧
    Written node appends disk position file (content.bytes m) s k.toNat w.state

theorem writeRound_wp (hsys : sys.Sync isOpen node appends disk position)
    (hopen : isOpen file) (hsrc : content.Source m) {w : Writing σ}
    (hw : WriteInv node appends disk position file content m s w) :
    (writeRound sys file m w).wp (Ctl.Post
      (fun w' => WriteInv node appends disk position file content m s w' ∧
        w'.remainsToWrite.toNat < w.remainsToWrite.toNat)
      fun r => ∃ k ≤ content.writeCur.toNat, (r.1 = true → k = content.writeCur.toNat) ∧
        (r.1 = false → k < content.writeCur.toNat) ∧
        Written node appends disk position file (content.bytes m) s k r.2) := by
  obtain ⟨k, hk, hremains, hptr, hwritten⟩ := hw
  have hlen : (content.bytes m).length = content.writeCur.toNat := by
    rw [Buffer.bytes, List.length_map, List.length_range]
  have hcur := content.writeCur.toNat_lt
  have hkle := UInt64.le_iff_toNat_le.1 hk
  have hleft : w.remainsToWrite.toNat = content.writeCur.toNat - k.toNat := by
    rw [hremains, UInt64.toNat_sub_of_toNat_le hkle]
  rw [writeRound]
  by_cases hmore : w.remainsToWrite > 0
  · have hpos : 0 < w.remainsToWrite.toNat := UInt64.lt_iff_toNat_lt.1 hmore
    have hchunk := toNat_chunk w.remainsToWrite
    obtain ⟨n, hn, hsome, hnone, hnext⟩ := hwritten.writeFile hsys hopen
      (c := min w.remainsToWrite.toNat (2 ^ 32 - 1)) (by omega) (by omega) (by omega) (by omega)
    rw [if_pos hmore, hptr]
    dsimp only
    rw [hchunk, readBytes_source hsrc (by omega), Except.ok_bind]
    generalize sys.writeFile file (((content.bytes m).drop k.toNat).take
      (min w.remainsToWrite.toNat (2 ^ 32 - 1))) w.state = res at hsome hnone hnext ⊢
    obtain ⟨r, s'⟩ := res
    cases r with
    | some written =>
      obtain ⟨rfl, hgain⟩ := hsome written rfl
      have hlt := written.toNat_lt
      have hword : written.toUInt64.toNat = written.toNat := UInt32.toNat_toUInt64 written
      have hsum : (k + written.toUInt64).toNat = k.toNat + written.toNat := by
        rw [UInt64.toNat_add_of_lt (by omega), hword]
      refine ⟨⟨k + written.toUInt64, UInt64.le_iff_toNat_le.2 (by omega), ?_, ?_,
        by rw [hsum]; exact hnext⟩, ?_⟩
      · rw [hremains]
        grind
      · rw [UInt64.add_assoc]
      · show (w.remainsToWrite - written.toUInt64).toNat < _
        rw [UInt64.toNat_sub_of_toNat_le (by omega), hword]
        omega
    | none =>
      have hpart := hnone rfl
      exact ⟨k.toNat + n, by omega, fun h => absurd h Bool.false_ne_true, fun _ => by omega, hnext⟩
  · have hzero : w.remainsToWrite.toNat = 0 :=
      Nat.eq_zero_of_not_pos fun h => hmore (UInt64.lt_iff_toNat_lt.2 h)
    rw [if_neg hmore]
    exact ⟨k.toNat, by omega, fun _ => by omega, fun h => absurd h.symm Bool.false_ne_true,
      hwritten⟩

namespace FileCalls.Sync
variable (hsys : sys.Sync isOpen node appends disk position)
include hsys

theorem appendToFile_does (hopen : isOpen file) (hsrc : content.Source m) :
    ∃ ok s' p, appendToFile sys file content m s = .ok (ok, s') ∧
      (FileOp.append file content).Does maxPosition node appends (fun _ => True) m ok p
      (fileStore disk position s)
        (fileStore disk position s') := by
  have hlen : (content.bytes m).length = content.writeCur.toNat := by
    rw [Buffer.bytes, List.length_map, List.length_range]
  have hstart :
      WriteInv node appends disk position file content m s ⟨content.writeCur, content.base, s⟩ :=
    ⟨0, UInt64.le_iff_toNat_le.2 (Nat.zero_le _), (UInt64.sub_zero _).symm,
      (UInt64.add_zero _).symm, .zero ..⟩
  have hrun := wp_whileLoop (WriteInv node appends disk position file content m s)
    (fun w => w.remainsToWrite.toNat)
    (fun w hw => writeRound_wp hsys hopen hsrc hw) _ hstart (UInt64.toNat_lt _)
  obtain ⟨⟨ok, s'⟩, hrun, k, hk, htrue, hfalse, hwritten⟩ := Except.wp_iff.1 hrun
  have htake : ((content.bytes m).take k).length = k := List.length_take_of_le (by omega)
  refine ⟨ok, s', ⟨node file, if appends file then (disk (node file) s).length else position file s,
    (content.bytes m).take k⟩, hrun, ?_⟩
  constructor
  · rfl
  · rfl
  · exact List.take_prefix ..
  · intro hok
    exact List.take_of_length_le (Nat.le_of_eq (by rw [hlen, htrue hok]))
  · intro hok _ heq
    have hall := congrArg List.length heq
    rw [htake] at hall
    have hless := hfalse hok
    rw [hall] at hless
    exact absurd hlen (Nat.ne_of_lt hless)
  · exact ⟨hwritten.overwrites, fun j hj => hwritten.disk_others j hj⟩
  · intro happ _
    rw [htake]
    exact hwritten.position_eq happ
  · exact fun g hg => hwritten.position_others g hg

theorem seek_append_does {op : FileOp} {start : Usz} (hopen : isOpen file) (hsrc : content.Source m)
    (hfile : op.file = file)
    (hpos : op.start maxPosition (fileStore disk position s) =
      (fileStore disk position s).landing maxPosition file start)
    (hamount : op.amount = 0) (hcontents : op.contents m = content.bytes m) : ∃ ok s' p,
      appendToFile sys file content m (seekFile sys file start s).2 = .ok (ok, s') ∧
        op.Does maxPosition node appends (fun _ => True) m ok p (fileStore disk position s)
        (fileStore disk position s') := by
  obtain ⟨ok, s', p, hrun, hdoes⟩ :=
    hsys.appendToFile_does (s := (seekFile sys file start s).2) hopen hsrc
  rw [hsys.fileStore_seekFile _ hopen] at hdoes
  exact ⟨ok, s', p, hrun, hdoes.of_moved hfile hpos hamount hcontents⟩

end FileCalls.Sync

end

/-! ### Reading -/

/-- What a read leaves: the files, and the positions of other handles. -/
structure OnlyMoves {σ ι : Type} (disk : ι → σ → List UInt8) (position : File → σ → Nat)
    (file : File) (s s' : σ) : Prop where
  disk_eq : ∀ j, disk j s' = disk j s
  position_others : ∀ g, g ≠ file → position g s' = position g s

theorem OnlyMoves.trans {σ ι : Type} {disk : ι → σ → List UInt8} {position : File → σ → Nat}
    {file : File} {s s1 s' : σ} (h : OnlyMoves disk position file s s1)
    (h' : OnlyMoves disk position file s1 s') : OnlyMoves disk position file s s' :=
  ⟨fun j => (h'.disk_eq j).trans (h.disk_eq j),
    fun g hg => (h'.position_others g hg).trans (h.position_others g hg)⟩

section
variable {σ ι : Type} (disk : ι → σ → List UInt8) (position : File → σ → Nat) (file : File)
  (bytes : List UInt8) (base : Ptr) (amount : Usz) (pos : Nat) (m : Mem) (s : σ)

/-- The invariant of the loop in `ReadFromFile`; the file has `bytes`, and the handle is at `pos`
before. -/
def ReadInv (r : Reading σ) : Prop :=
  ∃ k : Usz, k ≤ amount ∧ r.remainsToRead = amount - k ∧ r.ptr = base + k ∧
    ((bytes.drop pos).take k.toNat).length = k.toNat ∧
    r.mem = m.store base ((bytes.drop pos).take k.toNat) ∧
    OnlyMoves disk position file s r.state ∧ position file r.state = pos + k.toNat

/-- What the loop is left with: all of the range, or a call that failed. -/
def ReadPost (sys : FileCalls σ) (r : Bool × Mem × σ) : Prop :=
  OnlyMoves disk position file s r.2.2 ∧
  (r.1 = true → ((bytes.drop pos).take amount.toNat).length = amount.toNat ∧
    r.2.1 = m.store base ((bytes.drop pos).take amount.toNat) ∧
    position file r.2.2 = pos + amount.toNat) ∧
  (r.1 = false → Mem.SameOutside base amount.toNat m r.2.1 ∧
    ∃ n s', (sys.readFile file n s').1.1 = false)

end

section
variable {σ ι : Type} {sys : FileCalls σ} {isOpen : File → Prop}
  {node : File → ι} {appends : File → Bool} {disk : ι → σ → List UInt8} {position : File → σ → Nat}
  {file : File} {base : Ptr} {amount start : Usz} {pos : Nat} {m : Mem} {s : σ}

theorem toNat_readSize (remains : Usz) :
    (if remains > u32Max then u32Max.toUInt32 else remains.toUInt32).toNat =
      min remains.toNat (2 ^ 32 - 1) := by
  rw [← toNat_chunk, apply_ite UInt64.toUInt32]
  by_cases h : remains ≤ u32Max
  · rw [if_pos h, if_neg (UInt64.not_lt.2 h)]
  · rw [if_neg h, if_pos (UInt64.not_le.1 h)]

theorem readRound_wp (hsys : sys.Sync isOpen node appends disk position) (hopen : isOpen file)
    (hfree : ∀ i : Usz, i.toNat < amount.toNat → m.writable (base + i)) {r : Reading σ}
    (hr : ReadInv disk position file (disk (node file) s) base amount pos m s r) :
    (readRound sys file r).wp (Ctl.Post
      (fun r' => ReadInv disk position file (disk (node file) s) base amount pos m s r' ∧
        (amount.toNat = 0 ∨ pos + amount.toNat ≤ (disk (node file) s).length →
          r'.remainsToRead.toNat < r.remainsToRead.toNat))
      (ReadPost disk position file (disk (node file) s) base amount pos m s sys)) := by
  obtain ⟨k, hk, hremains, hptr, hlen, hmem, hmoves, hposition⟩ := hr
  have hamount := amount.toNat_lt
  have hkle := UInt64.le_iff_toNat_le.1 hk
  have hleft : r.remainsToRead.toNat = amount.toNat - k.toNat := by
    rw [hremains, UInt64.toNat_sub_of_toNat_le hkle]
  rw [readRound]
  by_cases hmore : r.remainsToRead > 0
  · have hpos : 0 < r.remainsToRead.toNat := UInt64.lt_iff_toNat_lt.1 hmore
    have hsize := toNat_readSize r.remainsToRead
    rw [if_pos hmore]
    dsimp only
    generalize (if r.remainsToRead > u32Max then u32Max.toUInt32 else r.remainsToRead.toUInt32) =
      size at hsize ⊢
    have hle := hsys.readFile_le file size r.state hopen
    have hmoved : OnlyMoves disk position file r.state (sys.readFile file size r.state).2 :=
      ⟨fun j => hsys.readFile_disk file size r.state j hopen,
        fun g hg => hsys.readFile_others file g size r.state hopen hg⟩
    have hread := hsys.readFile_eq file size r.state hopen
    have hne := hsys.readFile_ne file size r.state hopen
    have hfail : (sys.readFile file size r.state).1.1 = false →
        ∃ n s', (sys.readFile file n s').1.1 = false :=
      fun h => ⟨size, r.state, h⟩
    rw [hposition, hmoves.disk_eq] at hread hne
    generalize sys.readFile file size r.state = res at hle hmoved hread hne hfail ⊢
    obtain ⟨⟨ok, got⟩, s'⟩ := res
    dsimp only at hle hmoved hread hne hfail ⊢
    have hgot : k.toNat + got.length ≤ amount.toNat := by omega
    have hwrite : r.mem.writeBytes r.ptr got =
        .ok (m.store base (((disk (node file) s).drop pos).take k.toNat ++ got)) := by
      have hword :
          base + k = base + UInt64.ofNat (((disk (node file) s).drop pos).take k.toNat).length := by
        rw [hlen, UInt64.ofNat_toNat]
      rw [hmem, hptr, Mem.writeBytes_eq (fun i hi => ?_) (by omega), hword,
        Mem.store_append (by omega)]
      rw [Mem.store_writable, UInt64.add_assoc]
      exact hfree _ (by rw [UInt64.toNat_add_of_lt (by omega)]; omega)
    rw [hwrite, Except.ok_bind]
    cases ok with
    | true =>
      obtain ⟨hslice, hposition'⟩ := hread rfl
      have hword : (UInt32.ofNat got.length).toUInt64.toNat = got.length := by
        rw [UInt32.toNat_toUInt64, UInt32.toNat_ofNat_of_lt' (show got.length < 2 ^ 32 by omega)]
      have hsum : (k + (UInt32.ofNat got.length).toUInt64).toNat = k.toNat + got.length := by
        rw [UInt64.toNat_add_of_lt (by omega), hword]
      have hbytes : ((disk (node file) s).drop pos).take (k.toNat + got.length) =
          ((disk (node file) s).drop pos).take k.toNat ++ got := by
        rw [List.take_add, List.drop_drop, ← hslice]
      refine ⟨⟨k + (UInt32.ofNat got.length).toUInt64, UInt64.le_iff_toNat_le.2 (by omega), ?_, ?_,
        ?_, ?_, hmoves.trans hmoved, ?_⟩, ?_⟩
      · rw [hremains]
        grind
      · rw [hptr, UInt64.add_assoc]
      · rw [hsum, hbytes, List.length_append, hlen]
      · rw [hsum, hbytes]
      · rw [hsum, ← Nat.add_assoc]
        exact hposition'
      · intro hrange
        have hsome := List.length_pos_iff.2 (hne rfl (by omega) (by omega))
        show (r.remainsToRead - (UInt32.ofNat got.length).toUInt64).toNat < _
        rw [UInt64.toNat_sub_of_toNat_le (by omega), hword]
        omega
    | false =>
      refine ⟨hmoves.trans hmoved, fun h => absurd h Bool.false_ne_true,
        fun _ => ⟨.store m fun a ha => ?_, hfail rfl⟩⟩
      rw [List.length_append, hlen] at ha
      exact Nat.lt_of_lt_of_le ha hgot
  · have hzero : r.remainsToRead.toNat = 0 :=
      Nat.eq_zero_of_not_pos fun h => hmore (UInt64.lt_iff_toNat_lt.2 h)
    have hall : k.toNat = amount.toNat := by omega
    rw [hall] at hlen hmem hposition
    rw [if_neg hmore]
    exact ⟨hmoves, fun _ => ⟨hlen, hmem, hposition⟩, fun h => absurd h.symm Bool.false_ne_true⟩

namespace FileCalls.Sync
variable (hsys : sys.Sync isOpen node appends disk position)
include hsys

theorem seekFile_moves (start : Usz) (hopen : isOpen file) :
    OnlyMoves disk position file s (seekFile sys file start s).2 ∧
    position file (seekFile sys file start s).2 =
      (fileStore disk position s).landing maxPosition file start := by
  have hmoved := hsys.fileStore_seekFile (s := s) start hopen
  refine ⟨⟨fun j => congrFun (congrArg FileStore.bytes hmoved) j, fun g hg => ?_⟩, ?_⟩
  · exact (congrFun (congrArg FileStore.position hmoved) g).trans
      (FileStore.position_moved_of_ne _ hg _)
  · exact (congrFun (congrArg FileStore.position hmoved) file).trans (FileStore.position_moved ..)

/-- The loop begins with its invariant. -/
theorem readInv_start (hopen : isOpen file) :
    ReadInv disk position file (disk (node file) (seekFile sys file start s).2) base
    amount ((fileStore disk position s).landing maxPosition file start) m
      (seekFile sys file start s).2 ⟨amount, base, m, (seekFile sys file start s).2⟩ := by
  have hzero : (0 : Usz).toNat = 0 := rfl
  refine ⟨0, UInt64.le_iff_toNat_le.2 (Nat.zero_le _), (UInt64.sub_zero _).symm,
    (UInt64.add_zero _).symm, ?_, ?_,
    ⟨fun _ => rfl, fun _ _ => rfl⟩, (hsys.seekFile_moves _ hopen).2⟩
  · rw [hzero, List.take_zero, List.length_nil]
  · rw [hzero, List.take_zero, Mem.store_nil]

variable {dst : Buffer}

theorem guard_iff (hopen : isOpen file) (htarget : dst.Target m) :
    (start + amount ≤ fileSizeOf sys file s ∧ amount ≤ dst.size - dst.writeCur) ↔
      (start + amount).toNat ≤ sizeSeen (disk (node file) s).length ∧ amount.toNat ≤ dst.room := by
  rw [UInt64.le_iff_toNat_le, UInt64.le_iff_toNat_le, hsys.toNat_fileSizeOf hopen,
    (Buffer.room_eq htarget.cur_le).1]

theorem readFromFile_of_refused (hopen : isOpen file) (htarget : dst.Target m)
    (h : ¬ ((start + amount).toNat ≤ sizeSeen (disk (node file) s).length ∧
      amount.toNat ≤ dst.room)) :
    readFromFile sys file dst amount start m s = .ok (false, dst, m, s) :=
  if_neg (mt (hsys.guard_iff hopen htarget).1 h)

theorem readFromFile_wp (hopen : isOpen file) (htarget : dst.Target m) {pos : Nat}
    (hpos : (fileStore disk position s).landing maxPosition file start = pos)
    (hguard : (start + amount).toNat ≤ sizeSeen (disk (node file) s).length ∧
      amount.toNat ≤ dst.room)
    (hrange : amount.toNat = 0 ∨ pos + amount.toNat ≤ (disk (node file) s).length) :
    (readFromFile sys file dst amount start m s).wp fun r =>
      OnlyMoves disk position file s r.2.2.2 ∧
      (r.1 = true → r.2.1 = { dst with writeCur := dst.writeCur + amount } ∧
        r.2.2.1 = m.store (dst.base + dst.writeCur)
        (((disk (node file) s).drop pos).take amount.toNat) ∧
        position file r.2.2.2 = pos + amount.toNat) ∧
      (r.1 = false → r.2.1 = dst ∧
        Mem.SameOutside (dst.base + dst.writeCur) amount.toNat m r.2.2.1 ∧
        ∃ n s', (sys.readFile file n s').1.1 = false) := by
  subst hpos
  obtain ⟨hmoves, -⟩ := hsys.seekFile_moves (s := s) start hopen
  have hbytes := hmoves.disk_eq (node file)
  have hloop := wp_whileLoop
    (ReadInv disk position file (disk (node file) (seekFile sys file start s).2)
      (dst.base + dst.writeCur) amount
      ((fileStore disk position s).landing maxPosition file start) m (seekFile sys file start s).2)
    (fun r => r.remainsToRead.toNat)
    (fun r hr =>
      (readRound_wp hsys hopen (fun i hi => htarget.writable i (by omega)) hr).mono fun c hc => by
      cases c with
      | next r' => exact ⟨hc.1, hc.2 (by rw [hbytes]; exact hrange)⟩
      | done _ => exact hc)
    _ (hsys.readInv_start hopen) amount.toNat_lt
  obtain ⟨⟨ok, m', s'⟩, hrun, hmoves', htrue, hfalse⟩ := Except.wp_iff.1 hloop
  rw [hbytes] at htrue
  rw [readFromFile, if_pos ((hsys.guard_iff hopen htarget).2 hguard)]
  dsimp only
  rw [hrun, Except.ok_bind]
  cases ok with
  | true =>
    obtain ⟨-, hmem, hposition⟩ := htrue rfl
    exact ⟨hmoves.trans hmoves', fun _ => ⟨rfl, hmem, hposition⟩,
      fun h => absurd h.symm Bool.false_ne_true⟩
  | false =>
    obtain ⟨hsame, hfail⟩ := hfalse rfl
    exact ⟨hmoves.trans hmoves', fun h => absurd h Bool.false_ne_true, fun _ => ⟨rfl, hsame, hfail⟩⟩

theorem read_does (hopen : isOpen file) (htarget : dst.Target m)
    (hready : Ready node (.read file dst amount start) (fileStore disk position s)) :
    ∃ ok s' p, call sys (.read file dst amount start) m s = .ok (ok, s') ∧
      (FileOp.read file dst amount start).Does maxPosition node appends (fun _ => True) m ok p
      (fileStore disk position s)
        (fileStore disk position s') := by
  by_cases hguard : (start + amount).toNat ≤ sizeSeen (disk (node file) s).length ∧
    amount.toNat ≤ dst.room
  · obtain ⟨⟨ok, dst', m', s'⟩, hrun, hmoves, htrue, -⟩ := Except.wp_iff.1
      (hsys.readFromFile_wp hopen htarget rfl hguard (hready hguard))
    refine ⟨ok, s', _, by rw [call, hrun]; rfl,
      .of_silent rfl (funext hmoves.disk_eq) (fun hread => ?_) hmoves.position_others⟩
    rcases hread with hread | hread
    · cases hread
    · exact (htrue hread).2.2
  · refine ⟨false, s, _, by rw [call, hsys.readFromFile_of_refused hopen htarget hguard]; rfl,
      .of_silent rfl rfl (fun hread => ?_) fun _ _ => rfl⟩
    rcases hread with hread | hread <;> cases hread

theorem call_does {op : FileOp} (hop : op.Fits isOpen m)
    (hready : Ready node op (fileStore disk position s)) :
    ∃ ok s' p, call sys op m s = .ok (ok, s') ∧
      op.Does maxPosition node appends (fun _ => True) m ok p (fileStore disk position s)
      (fileStore disk position s') := by
  cases op with
  | seek file pos =>
    obtain ⟨p, hdoes⟩ := FileOp.Does.of_seek maxPosition node appends (fun _ => True) file pos m
      (seekFile sys file pos s).1 (fileStore disk position s)
    refine ⟨(seekFile sys file pos s).1, (seekFile sys file pos s).2, p, rfl, ?_⟩
    rwa [hsys.fileStore_seekFile _ hop]
  | read file dst amount start => exact hsys.read_does hop.1 hop.2 hready
  | append file content => exact hsys.appendToFile_does hop.1 hop.2
  | writeEntire file content =>
    have hzero : (fileStore disk position s).landing maxPosition file 0 = 0 :=
      FileStore.landing_of_le _ (Nat.zero_le _)
    exact hsys.seek_append_does hop.1 hop.2 rfl hzero.symm rfl rfl
  | write file content start => exact hsys.seek_append_does hop.1 hop.2 rfl rfl rfl rfl

end FileCalls.Sync

end

/-- Each call returns, up to a read that passes its test without the file having that much. The
calls write what they have to write or, if they return false, a part of it, at the position that the
handle has been moved to or, if that is refused, the one it had; and what `ReadFromFile` then gives
from there, if no call of `ReadFile` fails, is what the last write over each byte has put there. -/
theorem chunkedFileOps_readsLast {σ ι : Type} [DecidableEq ι] (sys : FileCalls σ)
    (isOpen : File → Prop) (node : File → ι) (appends : File → Bool) (disk : ι → σ → List UInt8)
    (position : File → σ → Nat) (hsys : sys.Sync isOpen node appends disk position)
    (ops : List (FileOp × Mem)) (hops : ∀ o ∈ ops, o.1.Fits isOpen o.2) (s : σ) :
    ∃ es rest s', ops = es.map (·.asked) ++ rest ∧ runFileOps (call sys)
      (es.map (·.asked)) s = .ok (es.map (·.ok), s') ∧
      FileStore.Run maxPosition node appends (fun _ => True) (fileStore disk position s) es
      (fileStore disk position s') ∧
      (∀ o ∈ rest.head?, ¬ Ready node o.1 (fileStore disk position s')) ∧
      ∀ file dst amount start m pos, isOpen file → dst.Target m →
        Ready node (.read file dst amount start) (fileStore disk position s') →
        (fileStore disk position s').landing maxPosition file start = pos →
        ∃ ok dst' m' s'', readFromFile sys file dst amount start m s' = .ok (ok, dst', m', s'') ∧
          (ok = true → (amount.toNat = 0 ∨
              pos + amount.toNat ≤ max (disk (node file) s).length
              (Patch.reach (node file) (FileEvent.log es))) ∧
            amount.toNat ≤ dst.room ∧ dst' = { dst with writeCur := dst.writeCur + amount } ∧
            ∃ bytes, bytes.length = amount.toNat ∧
              (fileStore disk position s).LeftBy (fun _ => True)
              (FileEvent.log es) (node file) pos bytes ∧
              m' = m.store (dst.base + dst.writeCur) bytes) ∧
          (ok = false → dst' = dst ∧ Mem.SameOutside (dst.base + dst.writeCur) amount.toNat m m' ∧
            (start.toNat + amount.toNat ≤
              max (disk (node file) s).length (Patch.reach (node file) (FileEvent.log es)) →
              amount.toNat ≤ dst.room → ∃ n s1, (sys.readFile file n s1).1.1 = false)) := by
  obtain ⟨es, rest, s', hsplit, hrun, hstore, hhead⟩ := runFileOps_of_step (Ready node)
    (fun op m s hop hready => hsys.call_does (s := s) hop hready) ops hops s
  refine ⟨es, rest, s', hsplit, hrun, hstore, hhead, ?_⟩
  intro file dst amount start m pos hopen htarget hready hpos
  have hlen : (disk (node file) s').length =
      max (disk (node file) s).length (Patch.reach (node file) (FileEvent.log es)) :=
        hstore.log.length_eq (node file)
  rw [← hlen]
  by_cases hguard : (start + amount).toNat ≤ sizeSeen (disk (node file) s').length ∧
    amount.toNat ≤ dst.room
  · have hrange := hready hguard
    rw [hpos] at hrange
    obtain ⟨⟨ok, dst', m', s''⟩, hread, -, htrue, hfalse⟩ :=
      Except.wp_iff.1 (hsys.readFromFile_wp hopen htarget hpos hguard hrange)
    refine ⟨ok, dst', m', s'', hread, fun hok => ?_, fun hok => ?_⟩
    · obtain ⟨hdst, hmem, -⟩ := htrue hok
      refine ⟨hrange, hguard.2, hdst, _, ?_, hstore.leftBy (node file) pos amount.toNat, hmem⟩
      rw [List.length_take, List.length_drop]
      show min amount.toNat ((disk (node file) s').length - pos) = amount.toNat
      have hrange : amount.toNat = 0 ∨ pos + amount.toNat ≤ (disk (node file) s').length := hrange
      omega
    · obtain ⟨hdst, hsame, hfail⟩ := hfalse hok
      exact ⟨hdst, hsame, fun _ _ => hfail⟩
  · refine ⟨false, dst, m, s', hsys.readFromFile_of_refused hopen htarget hguard,
      fun h => absurd h Bool.false_ne_true, fun _ => ⟨rfl, .refl _ _ _, fun hle hroom => ?_⟩⟩
    have hsize := hsys.size_lt file s' hopen
    have hsum : (start + amount).toNat = start.toNat + amount.toNat :=
      UInt64.toNat_add_of_lt (by omega)
    exact absurd ⟨Nat.le_trans (Nat.le_of_eq hsum) (Nat.le_trans hle (le_sizeSeen hsize)),
      hroom⟩ hguard

/-- All handles are of one file; at most three bytes are moved by a call. -/
def oneFile (appends : File → Bool) : FileCalls OneFile where
  getFileSize _ s := (UInt32.ofNat (s.1.1.length % 2 ^ 32), UInt32.ofNat (s.1.1.length / 2 ^ 32))
  setFilePointer file lo hi s :=
    if hi.toNat < 2 ^ 31 then (lo, s.1, Function.update s.2 file (hi.toNat * 2 ^ 32 + lo.toNat))
      else (invalidSetFilePointer, s)
  readFile file count s :=
    let bytes := (s.1.1.drop (s.2 file)).take (min count.toNat 3)
    ((true, bytes), s.1, Function.update s.2 file (s.2 file + bytes.length))
  writeFile file bytes s :=
    let start := if appends file then s.1.1.length else s.2 file
    if h : (overwrite 0 s.1.1 start (bytes.take 3)).length < 2 ^ 63 then
      (some (UInt32.ofNat (bytes.take 3).length), ⟨_, h⟩,
        Function.update s.2 file (start + (bytes.take 3).length))
    else (none, s)

theorem sync_oneFile (appends : File → Bool) :
    (oneFile appends).Sync (fun _ => True) (fun _ => ()) appends
      (fun _ s => s.1.1) (fun f s => s.2 f) where
  size_lt _ s _ := s.1.2
  getFileSize_eq _ _ _ := rfl
  setFilePointer_eq f lo hi s _ hhi := by
    simp only [oneFile, if_pos hhi, Function.update_self, and_self]
  setFilePointer_fails f lo hi s _ hhi := by simp only [oneFile, if_neg (Nat.not_lt.2 hhi)]
  setFilePointer_disk f lo hi s _ _ := by
    simp only [oneFile]
    split_ifs <;> rfl
  setFilePointer_others f g lo hi s _ hg := by
    simp only [oneFile]
    split_ifs
    · exact Function.update_of_ne hg ..
    · rfl
  readFile_le f n s _ := by
    simp only [oneFile, List.length_take]
    omega
  readFile_eq f n s _ _ := by
    refine ⟨?_, Function.update_self ..⟩
    simp only [oneFile, List.length_take, List.length_drop]
    exact (List.take_eq_take_iff.2 (by rw [List.length_drop]; omega)).symm
  readFile_ne f n s _ _ hn hlt := by
    refine List.length_pos_iff.1 ?_
    simp only [oneFile, List.length_take, List.length_drop]
    omega
  readFile_disk _ _ _ _ _ := rfl
  readFile_others f g n s _ hg := Function.update_of_ne hg ..
  writeFile_eq f bytes s _ hne hlen := by
    have hpos := List.length_pos_iff.2 hne
    have hpart : (bytes.take 3).length = min 3 bytes.length := List.length_take ..
    by_cases hfits :
      (overwrite 0 s.1.1 (if appends f then s.1.1.length else s.2 f) (bytes.take 3)).length < 2 ^ 63
    · have heq : (oneFile appends).writeFile f bytes s =
          (some (UInt32.ofNat (bytes.take 3).length), ⟨_, hfits⟩,
          Function.update s.2 f
          ((if appends f then s.1.1.length else s.2 f) + (bytes.take 3).length)) := dif_pos hfits
      rw [heq]
      refine ⟨min 3 bytes.length, Nat.min_le_right .., fun written h => ?_,
        (fun h => nomatch h), ?_, fun happ => ?_⟩
      · cases h
        rw [hpart, UInt32.toNat_ofNat_of_lt' (show min 3 bytes.length < 2 ^ 32 by omega)]
        omega
      · rw [← List.take_take, List.take_length]
        exact (overwrites_overwrite ..).mono fun _ _ => trivial
      · refine (Function.update_self ..).trans ?_
        rw [happ, hpart, if_neg Bool.false_ne_true]
    · have heq : (oneFile appends).writeFile f bytes s = (none, s) := dif_neg hfits
      rw [heq]
      exact ⟨0, Nat.zero_le _, (fun _ h => nomatch h), fun _ => hpos, .refl _ _ _, fun _ => rfl⟩
  writeFile_disk f _ _ k _ hk := absurd rfl hk
  writeFile_others f g bytes s _ hg := by
    simp only [oneFile]
    split_ifs
    · exact Function.update_of_ne hg ..
    · rfl
    · exact Function.update_of_ne hg ..
    · rfl

/-- The two writes leave `1 2 3 8 9 32 33`. -/
theorem chunkedFileOps_readsLast_two :
    ∃ (es : List (FileEvent Unit)) (s' s'' : OneFile), twoWrites = es.map (·.asked) ∧
    es.map (·.ok) = [true, true] ∧
      runFileOps (call (oneFile (· == 4))) twoWrites fourBytes = .ok ([true, true], s') ∧
    FileStore.LeftBy (fun _ => True)
      (fileStore (fun _ (s : OneFile) => s.1.1) (fun f s => s.2 f) fourBytes)
      (FileEvent.log es) () 1 [2, 3, 8] ∧
    readFromFile (oneFile (· == 4)) 5 ⟨64, 0, 8⟩ 3 1 anyMem s' = .ok (true, ⟨64, 3, 8⟩,
      anyMem.store 64 [2, 3, 8], s'') := by
  obtain ⟨es, rest, s', hsplit, hrun, -, hhead, hread⟩ :=
    chunkedFileOps_readsLast (oneFile (· == 4)) _ _ _ _ _ (sync_oneFile _)
    twoWrites twoWrites_fit fourBytes
  obtain rfl : rest = [] := by
    cases rest with
    | nil => rfl
    | cons o rest =>
      have hready : Ready (fun _ : File => ()) o.1
          (fileStore (fun _ (s : OneFile) => s.1.1) (fun f s => s.2 f) s') := by
        have hmem : o ∈ twoWrites := hsplit ▸ List.mem_append_right _ List.mem_cons_self
        rcases List.mem_cons.1 hmem with rfl | hmem
        · trivial
        · obtain rfl := List.mem_singleton.1 hmem
          trivial
      exact absurd hready (hhead o rfl)
  rw [List.append_nil] at hsplit
  rw [← hsplit] at hrun
  obtain ⟨s1, s2, hwrite, happend, hbytes⟩ : ∃ s1 s2 : OneFile,
      call (oneFile (· == 4)) (.write 3 ⟨8, 2, 2⟩ 3) anyMem fourBytes = .ok (true, s1) ∧
      call (oneFile (· == 4)) (.append 4 ⟨32, 2, 2⟩) anyMem s1 = .ok (true, s2) ∧
      s2.1.1 = [1, 2, 3, 8, 9, 32, 33] := by
    refine ⟨_, _, whileLoop_of_iterate 2 (by decide) rfl, whileLoop_of_iterate 2 (by decide) rfl,
      ?_⟩
    rfl
  have hrun1 : runFileOps (call (oneFile (· == 4))) twoWrites fourBytes =
      .ok ([true, true], s2) := by
    rw [twoWrites, runFileOps, hwrite, Except.ok_bind]
    dsimp only
    rw [runFileOps, happend, Except.ok_bind]
    rfl
  obtain ⟨hoks, rfl⟩ := Prod.mk.inj (Except.ok.inj (hrun.symm.trans hrun1))
  have hlen : s'.1.1.length = 7 := congrArg List.length hbytes
  have hrange : 1 + 3 ≤ s'.1.1.length := Nat.le_trans (by decide) (Nat.le_of_eq hlen.symm)
  have htarget : Buffer.Target ⟨64, 0, 8⟩ anyMem := ⟨by decide, by decide, fun _ _ => rfl⟩
  have hguard : ((1 : Usz) + 3).toNat ≤ sizeSeen s'.1.1.length ∧
      (3 : Usz).toNat ≤ Buffer.room ⟨64, 0, 8⟩ := by
    rw [hlen]
    decide
  obtain ⟨ok, dst', m', s'', hread, htrue, hfalse⟩ :=
    hread 5 ⟨64, 0, 8⟩ 3 1 anyMem 1 trivial htarget (fun _ => .inr hrange) rfl
  obtain ⟨⟨ok1, dst1, m1, s3⟩, hread1, -, htrue1, hfalse1⟩ := Except.wp_iff.1
    ((sync_oneFile (· == 4)).readFromFile_wp trivial htarget rfl hguard (.inr hrange))
  obtain ⟨rfl, rfl, rfl, rfl⟩ := Except.ok.inj (hread.symm.trans hread1)
  cases ok with
  | false =>
    obtain ⟨-, -, n, s1, hfail⟩ := hfalse1 rfl
    cases hfail
  | true =>
    obtain ⟨-, -, hdst, bytes, hcount, hleft, hmem⟩ := htrue rfl
    obtain ⟨-, hmem1, -⟩ := htrue1 rfl
    have hslice : (s'.1.1.drop 1).take 3 = [2, 3, 8] := by
      rw [hbytes]
      rfl
    have hstored : anyMem.store 64 bytes = anyMem.store 64 [2, 3, 8] := by
      rw [← hslice]
      exact hmem.symm.trans hmem1
    have hback {bs : List UInt8} (h : bs.length = 3) :
        Buffer.bytes ⟨64, 3, 8⟩ (anyMem.store 64 bs) = bs :=
      Buffer.bytes_store_base h
    obtain rfl : [2, 3, 8] = bytes := by rw [← hback hcount, hstored, hback rfl]
    subst hdst hmem
    exact ⟨es, s', s'', hsplit, hoks, hrun1, hleft, hread⟩

/-- Where no call of `ReadFile` fails, `ReadFromFile` returns exactly if a range that passes its
test is empty or in the file from where the handle is then: `ReadFile` is called at the end of the
file for ever if not. -/
theorem readFromFile_returns_iff {σ ι : Type} (sys : FileCalls σ)
    (isOpen : File → Prop) (node : File → ι) (appends : File → Bool) (disk : ι → σ → List UInt8)
    (position : File → σ → Nat) (hsys : sys.Sync isOpen node appends disk position)
    (hok : ∀ f n s, isOpen f → (sys.readFile f n s).1.1 = true) (file : File) (dst : Buffer)
    (amount start : Usz) (m : Mem) (hopen : isOpen file) (htarget : dst.Target m) (s : σ) :
    (∃ r, readFromFile sys file dst amount start m s = .ok r) ↔
      Ready node (.read file dst amount start) (fileStore disk position s) := by
  constructor
  · rintro ⟨r, hr⟩ hguard
    rw [readFromFile, if_pos ((hsys.guard_iff hopen htarget).2 hguard)] at hr
    dsimp only at hr
    obtain ⟨⟨ok, m', s'⟩, hloop, -⟩ := Except.bind_eq_ok.1 hr
    have hpost := of_whileLoop_ok
      (ReadInv disk position file (disk (node file) (seekFile sys file start s).2)
        (dst.base + dst.writeCur) amount
        ((fileStore disk position s).landing maxPosition file start) m
        (seekFile sys file start s).2)
      (fun r c hinv hround => by
        have hwp := readRound_wp hsys hopen
          (fun i hi => htarget.writable i (Nat.lt_of_lt_of_le hi hguard.2)) hinv
        rw [hround] at hwp
        cases c with
        | next r' => exact hwp.1
        | done _ => exact hwp)
      (hsys.readInv_start hopen) hloop
    obtain ⟨-, htrue, hfalse⟩ := hpost
    cases ok with
    | true =>
      -- the whole range has been read
      obtain ⟨hlen, -⟩ := htrue rfl
      rw [(hsys.seekFile_moves _ hopen).1.disk_eq, List.length_take, List.length_drop] at hlen
      show amount.toNat = 0 ∨
        (fileStore disk position s).landing maxPosition file start + amount.toNat ≤
        (disk (node file) s).length
      omega
    | false =>
      obtain ⟨-, n, s1, hfail⟩ := hfalse rfl
      rw [hok file n s1 hopen] at hfail
      cases hfail
  · intro hready
    by_cases hguard : (start + amount).toNat ≤ sizeSeen (disk (node file) s).length ∧
      amount.toNat ≤ dst.room
    · obtain ⟨r, hr, -⟩ :=
        Except.wp_iff.1 (hsys.readFromFile_wp hopen htarget rfl hguard (hready hguard))
      exact ⟨r, hr⟩
    · exact ⟨_, hsys.readFromFile_of_refused hopen htarget hguard⟩

/-- A file of `2 ^ 32 - 1` bytes. -/
def longFile : OneFile :=
  (⟨List.replicate (2 ^ 32 - 1) 0, by rw [List.length_replicate]; decide⟩, fun _ => 0)

/-- A file of 20 bytes, with all handles at its end. -/
def twentyBytes : OneFile := (⟨List.replicate 20 0, by decide⟩, fun _ => 20)

/-- A range at the end of a file whose size is taken for an error, and one whose end wraps
around. -/
theorem readFromFile_hangs :
    (¬ ∃ r, readFromFile (oneFile fun _ => false) 3
      ⟨64, 0, 8⟩ 1 0xFFFFFFFF anyMem longFile = .ok r) ∧
    ¬ ∃ r, readFromFile (oneFile fun _ => false) 3
      ⟨64, 0, 16⟩ 10 0xFFFFFFFFFFFFFFFB anyMem twentyBytes = .ok r := by
  have hbehind : ∀ s : OneFile, s.1.1.length = 2 ^ 32 - 1 →
      ¬ ∃ r, readFromFile (oneFile fun _ => false) 3 ⟨64, 0, 8⟩ 1 0xFFFFFFFF anyMem s = .ok r := by
    intro s hlen h
    have hready :=
      (readFromFile_returns_iff (oneFile fun _ => false) _ _ _ _ _
        (sync_oneFile _) (fun _ _ _ _ => rfl) 3
      ⟨64, 0, 8⟩ 1 0xFFFFFFFF anyMem trivial ⟨by decide, by decide, fun _ _ => rfl⟩ s).1 h
    have hseen : sizeSeen s.1.1.length = 2 ^ 64 - 1 := by
      rw [hlen]
      rfl
    rcases hready ⟨Nat.le_trans (by decide) (Nat.le_of_eq hseen.symm), by decide⟩ with hzero |
      hrange
    · exact absurd hzero (by decide)
    · rw [FileStore.landing_of_le _ (by decide)] at hrange
      exact absurd (Nat.le_trans hrange (Nat.le_of_eq hlen)) (by decide)
  refine ⟨hbehind longFile (List.length_replicate ..), fun h => ?_⟩
  have hready :=
    (readFromFile_returns_iff (oneFile fun _ => false) _ _ _ _ _
      (sync_oneFile _) (fun _ _ _ _ => rfl) 3
    ⟨64, 0, 16⟩ 10 0xFFFFFFFFFFFFFFFB anyMem trivial
      ⟨by decide, by decide, fun _ _ => rfl⟩ twentyBytes).1 h
  exact absurd (hready (by decide)) (by decide)

end TinyBase.Win32
