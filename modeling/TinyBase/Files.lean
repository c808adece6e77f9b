import TinyBase.RepeatedAppend

/-!
# Reading a part of a file (`ReadFromFile`, Linux)

The system calls on open files are parameters, functions of a state of the system; `FileCalls.Posix`
is what is relied on of them. `ReadFromFile` adds the range in 64 bits, and reads at the position
the file is left at.
-/

namespace TinyBase

/-- `file`. -/
abbrev File := Usz

/-- `st_mode`. -/
inductive FileMode where
  | regular
  | block
  | other
deriving DecidableEq, Repr

/-- The system calls on open files. -/
structure FileCalls (σ : Type) where
  /-- `fstat`: `st_mode` and `st_size`. -/
  fstat : File → σ → Option (FileMode × Usz)
  /-- `ioctl` with `BLKGETSIZE64`. -/
  blkGetSize64 : File → σ → Option Usz
  /-- `lseek` with `SEEK_SET`. -/
  lseek : File → Isz → σ → Isz × σ
  /-- `read`: the bytes that it stores, unless it fails. -/
  read : File → Usz → σ → Option (List UInt8) × σ

section
variable {σ : Type} (sys : FileCalls σ)

def fileSizeOf (file : File) (s : σ) : Usz :=
  match sys.fstat file s with
  | some (.regular, size) => size
  | some (.block, _) => (sys.blkGetSize64 file s).getD uszMax
  | some (.other, _) | none => uszMax

def seekFile (file : File) (pos : Usz) (s : σ) : Bool × σ :=
  let (result, s) := sys.lseek file pos.toInt64 s
  (result.toUInt64 == pos, s)

/-- `read` to memory: the `ssize_t` it returns. -/
def readAt (file : File) (buf : Ptr) (count : Usz) (m : Mem) (s : σ) : Res (Isz × Mem × σ) :=
  match sys.read file count s with
  | (some bytes, s) => do
    let m ← m.writeBytes buf bytes
    pure (Int64.ofNat bytes.length, m, s)
  | (none, s) => pure (-1, m, s)

def readFromFile (file : File) (dst : Buffer) (amountToRead startPos : Usz) (m : Mem) (s : σ) :
    Res (Bool × Buffer × Mem × σ) :=
  let fileSize := fileSizeOf sys file s
  if startPos + amountToRead ≤ fileSize ∧ amountToRead ≤ dst.size - dst.writeCur then do
    let (_, s) := seekFile sys file startPos s
    let (bytesRead, m, s) ← readAt sys file (dst.base + dst.writeCur) amountToRead m s
    if bytesRead.toUInt64 ≠ amountToRead then pure (false, dst, m, s)
    else pure (true, { dst with writeCur := dst.writeCur + amountToRead }, m, s)
  else pure (false, dst, m, s)

end

/-- The open files are regular ones, each with its contents and a position: a position below zero is
refused, and what is read is what the file has from its position on, up to the count. -/
structure FileCalls.Posix {σ : Type} (sys : FileCalls σ) (isOpen : File → Prop)
    (contents : File → σ → List UInt8) (position : File → σ → Nat) : Prop where
  size_lt : ∀ f s, isOpen f → (contents f s).length < 2 ^ 63
  fstat_eq : ∀ f s, isOpen f → sys.fstat f s = some (.regular, UInt64.ofNat (contents f s).length)
  lseek_neg : ∀ f pos s, isOpen f → pos < 0 → (sys.lseek f pos s).1 = -1 ∧
    position f (sys.lseek f pos s).2 = position f s
  lseek_pos : ∀ f pos s, isOpen f → 0 ≤ pos →
    (sys.lseek f pos s).1 = pos ∧ position f (sys.lseek f pos s).2 = pos.toInt.toNat
  lseek_contents : ∀ f g pos s, isOpen f → isOpen g →
    contents g (sys.lseek f pos s).2 = contents g s
  read_eq : ∀ f n s, isOpen f →
    (sys.read f n s).1 = some (((contents f s).drop (position f s)).take n.toNat)
  read_contents : ∀ f g n s, isOpen f → isOpen g → contents g (sys.read f n s).2 = contents g s

/-- The function reads the range, appends it and returns true; or there is no such range or no room
for it, and it returns false and leaves the destination as it is, whatever is in it. -/
def ReadsRange {σ : Type} (sys : FileCalls σ) (contents : File → σ → List UInt8)
    (file : File) (dst : Buffer) (amountToRead startPos : Usz) (s : σ) : Prop :=
  ∀ m : Mem, (∀ i : Usz, i.toNat < dst.room → m.writable (dst.base + dst.writeCur + i)) →
    ∃ s', readFromFile sys file dst amountToRead startPos m s =
      if startPos.toNat + amountToRead.toNat ≤ (contents file s).length ∧
        amountToRead.toNat ≤ dst.room then
        .ok (true, { dst with writeCur := dst.writeCur + amountToRead },
          m.store (dst.base + dst.writeCur)
          (((contents file s).drop startPos.toNat).take amountToRead.toNat), s')
      else .ok (false, dst, m, s')

section
variable {σ : Type} {sys : FileCalls σ} {isOpen : File → Prop} {contents : File → σ → List UInt8}
  {position : File → σ → Nat} {file : File} {dst : Buffer} {amount start : Usz} {m : Mem} {s : σ}

/-- Where the read begins. -/
def readPosition (position : File → σ → Nat) (file : File) (start : Usz) (s : σ) : Nat :=
  if start.toNat < 2 ^ 63 then start.toNat else position file s

theorem toInt_toInt64 (pos : Usz) :
    pos.toInt64.toInt = if pos.toNat < 2 ^ 63 then (pos.toNat : Int) else pos.toNat - 2 ^ 64 := by
  have hbits : pos.toInt64.toInt = pos.toBitVec.toInt := rfl
  rw [hbits, BitVec.toInt_eq_toNat_cond, UInt64.toNat_toBitVec]
  split_ifs <;> omega

theorem toInt64_neg_iff : start.toInt64 < 0 ↔ 2 ^ 63 ≤ start.toNat := by
  have hlt := start.toNat_lt
  have hzero : (0 : Isz).toInt = 0 := rfl
  rw [Int64.lt_iff_toInt_lt, hzero, toInt_toInt64]
  split_ifs <;> omega

/-- An `ssize_t` that is not below zero, compared as a `usz`. -/
theorem toUInt64_ofNat_eq_iff {n : Nat} {w : Usz} (hn : n < 2 ^ 64) :
    (Int64.ofNat n).toUInt64 = w ↔ n = w.toNat := by
  rw [Int64.toUInt64_ofNat', ← UInt64.toNat_inj, UInt64.toNat_ofNat_of_lt_two_pow hn]

theorem toUInt64_minusOne_ne {w : Usz} (hw : w.toNat < 2 ^ 63) : (-1 : Isz).toUInt64 ≠ w := by
  rw [Ne, ← UInt64.toNat_inj]
  have hminus : ((-1 : Isz).toUInt64).toNat = 2 ^ 64 - 1 := rfl
  omega

/-- The test has been passed, and `read` has given `bytes`. -/
theorem readFromFile_of_read {bytes : List UInt8} {s' : σ}
    (hguard : start + amount ≤ fileSizeOf sys file s ∧ amount ≤ dst.size - dst.writeCur)
    (hread : sys.read file amount (seekFile sys file start s).2 = (some bytes, s'))
    (hlen : bytes.length ≤ amount.toNat)
    (hfree : ∀ i : Usz, i.toNat < amount.toNat → m.writable (dst.base + dst.writeCur + i)) :
    readFromFile sys file dst amount start m s =
      if bytes.length = amount.toNat then
        .ok (true, { dst with writeCur := dst.writeCur + amount },
          m.store (dst.base + dst.writeCur) bytes, s')
      else .ok (false, dst, m.store (dst.base + dst.writeCur) bytes, s') := by
  have hamount := amount.toNat_lt
  have hwrite : m.writeBytes (dst.base + dst.writeCur) bytes =
      .ok (m.store (dst.base + dst.writeCur) bytes) :=
    Mem.writeBytes_eq (fun i hi => hfree i (by omega)) (by omega)
  have hcount : (Int64.ofNat bytes.length).toUInt64 ≠ amount ↔ ¬ bytes.length = amount.toNat :=
    (toUInt64_ofNat_eq_iff (by omega)).not
  rw [readFromFile, if_pos hguard]
  dsimp only
  rw [readAt, hread]
  dsimp only
  rw [hwrite, Except.ok_bind, pure_bind]
  by_cases hall : bytes.length = amount.toNat
  · rw [if_pos hall, if_neg (hcount.not.2 (not_not.2 hall))]
    rfl
  · rw [if_neg hall, if_pos (hcount.2 hall)]
    rfl

/-- The test has been passed, and `read` has failed. -/
theorem readFromFile_of_read_none {s' : σ}
    (hguard : start + amount ≤ fileSizeOf sys file s ∧ amount ≤ dst.size - dst.writeCur)
    (hread : sys.read file amount (seekFile sys file start s).2 = (none, s'))
    (hsmall : amount.toNat < 2 ^ 63) :
    readFromFile sys file dst amount start m s = .ok (false, dst, m, s') := by
  rw [readFromFile, if_pos hguard]
  dsimp only
  rw [readAt, hread]
  exact if_pos (toUInt64_minusOne_ne hsmall)

namespace FileCalls.Posix
variable (hsys : sys.Posix isOpen contents position) (hopen : isOpen file)
include hsys hopen

theorem fileSizeOf_eq : fileSizeOf sys file s = UInt64.ofNat (contents file s).length := by
  rw [fileSizeOf, hsys.fstat_eq file s hopen]

theorem toNat_fileSizeOf : (fileSizeOf sys file s).toNat = (contents file s).length := by
  have hsize := hsys.size_lt file s hopen
  rw [hsys.fileSizeOf_eq hopen, UInt64.toNat_ofNat_of_lt_two_pow (by omega)]

theorem position_seekFile :
    position file (seekFile sys file start s).2 = readPosition position file start s := by
  rw [readPosition]
  split_ifs with h
  · have hpos : 0 ≤ start.toInt64 :=
      Int64.not_lt.1 fun hneg => absurd (toInt64_neg_iff.1 hneg) (Nat.not_le.2 h)
    refine (hsys.lseek_pos file _ s hopen hpos).2.trans ?_
    rw [toInt_toInt64, if_pos h, Int.toNat_natCast]
  · exact (hsys.lseek_neg file _ s hopen (toInt64_neg_iff.2 (Nat.le_of_not_lt h))).2

theorem contents_seekFile {g : File} (hg : isOpen g) :
    contents g (seekFile sys file start s).2 = contents g s :=
  hsys.lseek_contents file g _ s hopen hg

theorem readFromFile_eq (hcur : dst.writeCur ≤ dst.size)
    (hfree : ∀ i : Usz, i.toNat < amount.toNat → m.writable (dst.base + dst.writeCur + i))
    (hrange : (start + amount).toNat ≤ (contents file s).length) (hroom : amount.toNat ≤ dst.room)
    {bytes : List UInt8}
    (hbytes : ((contents file s).drop (readPosition position file start s)).take amount.toNat =
      bytes) :
    ∃ s', (∀ g, isOpen g → contents g s' = contents g s) ∧
      readFromFile sys file dst amount start m s =
      if bytes.length = amount.toNat then
        .ok (true, { dst with writeCur := dst.writeCur + amount },
          m.store (dst.base + dst.writeCur) bytes, s')
      else .ok (false, dst, m.store (dst.base + dst.writeCur) bytes, s') := by
  have hlen : bytes.length ≤ amount.toNat := by
    rw [← hbytes, List.length_take]
    exact Nat.min_le_left ..
  have hguard : start + amount ≤ fileSizeOf sys file s ∧ amount ≤ dst.size - dst.writeCur := by
    rw [UInt64.le_iff_toNat_le, UInt64.le_iff_toNat_le, hsys.toNat_fileSizeOf hopen,
      (Buffer.room_eq hcur).1]
    exact ⟨hrange, hroom⟩
  have hread : (sys.read file amount (seekFile sys file start s).2).1 = some bytes := by
    rw [hsys.read_eq file amount _ hopen, hsys.position_seekFile hopen,
      hsys.contents_seekFile hopen hopen, hbytes]
  have hkeep : ∀ g, isOpen g → contents g (sys.read file amount (seekFile sys file start s).2).2 =
    contents g s := fun g hg =>
    (hsys.read_contents file g amount _ hopen hg).trans (hsys.contents_seekFile hopen hg)
  exact ⟨_, hkeep, readFromFile_of_read hguard (Prod.ext hread rfl) hlen hfree⟩

theorem readFromFile_of_range (hcur : dst.writeCur ≤ dst.size)
    (hfree : ∀ i : Usz, i.toNat < dst.room → m.writable (dst.base + dst.writeCur + i))
    (hrange : start.toNat + amount.toNat ≤ (contents file s).length)
    (hroom : amount.toNat ≤ dst.room) :
    ∃ s', (∀ g, isOpen g → contents g s' = contents g s) ∧
      readFromFile sys file dst amount start m s =
      .ok (true, { dst with writeCur := dst.writeCur + amount },
        m.store (dst.base + dst.writeCur) (((contents file s).drop start.toNat).take amount.toNat),
        s') := by
  have hsize := hsys.size_lt file s hopen
  have hsum : (start + amount).toNat = start.toNat + amount.toNat :=
    UInt64.toNat_add_of_lt (by omega)
  have hbytes : ((contents file s).drop (readPosition position file start s)).take amount.toNat =
      ((contents file s).drop start.toNat).take amount.toNat := by
        rw [readPosition, if_pos (by omega)]
  have hlen : (((contents file s).drop start.toNat).take amount.toNat).length = amount.toNat := by
    rw [List.length_take, List.length_drop]
    omega
  obtain ⟨s', hkeep, hrun⟩ :=
    hsys.readFromFile_eq hopen hcur (fun i hi => hfree i (Nat.lt_of_lt_of_le hi hroom))
    (by omega) hroom hbytes
  rw [if_pos hlen] at hrun
  exact ⟨s', hkeep, hrun⟩

theorem readFromFile_of_refused (hcur : dst.writeCur ≤ dst.size)
    (h : ¬ ((start + amount).toNat ≤ (contents file s).length ∧ amount.toNat ≤ dst.room)) :
    readFromFile sys file dst amount start m s = .ok (false, dst, m, s) := by
  refine if_neg ?_
  rwa [UInt64.le_iff_toNat_le, UInt64.le_iff_toNat_le, hsys.toNat_fileSizeOf hopen,
    (Buffer.room_eq hcur).1]

end FileCalls.Posix

end

theorem xor_one_ne (b : UInt8) : b ^^^ 1 ≠ b := by
  intro h
  have hone : b ^^^ (b ^^^ 1) = 0 := by rw [h, UInt8.xor_self]
  rw [← UInt8.xor_assoc, UInt8.xor_self, UInt8.zero_xor] at hone
  exact absurd hone (by decide)

/-- The function keeps to the range exactly if its end fits into 64 bits, or is refused for what is
left of it, or there is nothing to read where the read begins. -/
theorem readFromFile_range_iff {σ : Type} (sys : FileCalls σ) (isOpen : File → Prop)
    (contents : File → σ → List UInt8) (position : File → σ → Nat)
    (hsys : sys.Posix isOpen contents position) (file : File) (hopen : isOpen file) (dst : Buffer)
    (hcur : dst.writeCur ≤ dst.size) (amountToRead startPos : Usz) (s : σ) :
    ReadsRange sys contents file dst amountToRead startPos s ↔
      startPos.toNat + amountToRead.toNat < 2 ^ 64 ∨
      (contents file s).length < (startPos + amountToRead).toNat ∨
        dst.room < amountToRead.toNat ∨
        (contents file s).length ≤ readPosition position file startPos s := by
  have hsize := hsys.size_lt file s hopen
  have hsum : (startPos + amountToRead).toNat = (startPos.toNat + amountToRead.toNat) % 2 ^ 64 :=
    UInt64.toNat_add ..
  have hstart := startPos.toNat_lt
  have hamount := amountToRead.toNat_lt
  by_cases hlegal : startPos.toNat + amountToRead.toNat ≤ (contents file s).length ∧
    amountToRead.toNat ≤ dst.room
  · refine iff_of_true (fun m hfree => ?_) (.inl (by omega))
    obtain ⟨s', -, hrun⟩ := hsys.readFromFile_of_range hopen hcur hfree hlegal.1 hlegal.2
    refine ⟨s', ?_⟩
    rw [if_pos hlegal]
    exact hrun
  by_cases hguard : (startPos + amountToRead).toNat ≤ (contents file s).length ∧
    amountToRead.toNat ≤ dst.room
  · -- the sum has wrapped around
    have hwrap : 2 ^ 64 ≤ startPos.toNat + amountToRead.toNat := by omega
    constructor
    · intro h
      by_contra hnot
      rw [not_or, not_or, not_or] at hnot
      have hleft : readPosition position file startPos s < (contents file s).length :=
        Nat.lt_of_not_le hnot.2.2.2
      obtain ⟨b, bs, hbytes⟩ : ∃ b bs,
          ((contents file s).drop (readPosition position file startPos s)).take amountToRead.toNat =
          b :: bs := by
        refine List.exists_cons_of_ne_nil fun hnil => ?_
        have hlen := congrArg List.length hnil
        rw [List.length_take, List.length_drop, List.length_nil] at hlen
        omega
      -- a destination that has another byte there
      obtain ⟨m, hbyte, hfree⟩ : ∃ m : Mem, m.byte (dst.base + dst.writeCur) ≠ b ∧
          ∀ i : Usz, i.toNat < dst.room → m.writable (dst.base + dst.writeCur + i) :=
        ⟨⟨fun _ => b ^^^ 1, fun _ => true, fun _ => true⟩, xor_one_ne b, fun _ _ => rfl⟩
      obtain ⟨s', -, hrun⟩ := hsys.readFromFile_eq hopen hcur
        (fun i hi => hfree i (Nat.lt_of_lt_of_le hi hguard.2)) hguard.1 hguard.2 hbytes
      obtain ⟨s'', hrun'⟩ := h m hfree
      rw [if_neg hlegal, hrun] at hrun'
      have hmem : m.store (dst.base + dst.writeCur) (b :: bs) = m := by
        split_ifs at hrun'
        · cases hrun'
        · simp only [Except.ok.injEq, Prod.mk.injEq] at hrun'
          exact hrun'.2.2.1
      have hstored :=
        Mem.store_byte (m := m) (p := dst.base + dst.writeCur) (b :: bs) (dst.base + dst.writeCur)
      rw [hmem, UInt64.sub_self] at hstored
      exact hbyte hstored
    · intro h
      have hnone : (contents file s).length ≤ readPosition position file startPos s := by omega
      intro m hfree
      have hbytes : ((contents file s).drop (readPosition position file startPos s)).take
          amountToRead.toNat = [] := by
        rw [List.drop_eq_nil_of_le hnone, List.take_nil]
      obtain ⟨s', -, hrun⟩ := hsys.readFromFile_eq hopen hcur
        (fun i hi => hfree i (Nat.lt_of_lt_of_le hi hguard.2)) hguard.1 hguard.2 hbytes
      refine ⟨s', ?_⟩
      rw [if_neg (by rw [List.length_nil]; omega), Mem.store_nil] at hrun
      rw [if_neg hlegal]
      exact hrun
  · refine iff_of_true (fun m hfree => ?_) (by omega)
    refine ⟨s, ?_⟩
    rw [if_neg hlegal]
    exact hsys.readFromFile_of_refused hopen hcur hguard

/-! Files that stay as they are, over their positions. -/

def plainFiles (disk : File → List UInt8) : FileCalls (File → Nat) where
  fstat file _ := some (.regular, UInt64.ofNat (disk file).length)
  blkGetSize64 _ _ := none
  lseek file pos s := if pos < 0 then (-1, s) else (pos, Function.update s file pos.toInt.toNat)
  read file count s :=
    let bytes := ((disk file).drop (s file)).take count.toNat
    (some bytes, Function.update s file (s file + bytes.length))

theorem posix_plainFiles {disk : File → List UInt8} (h : ∀ file, (disk file).length < 2 ^ 63) :
    (plainFiles disk).Posix (fun _ => True) (fun file _ => disk file) (fun file s => s file) where
  size_lt file _ _ := h file
  fstat_eq _ _ _ := rfl
  lseek_neg file pos s _ hneg := by
    simp only [plainFiles, if_pos hneg]
    trivial
  lseek_pos file pos s _ hpos := by
    simp only [plainFiles, if_neg (Int64.not_lt.2 hpos), Function.update_self]
    trivial
  lseek_contents _ _ _ _ _ _ := rfl
  read_eq _ _ _ _ := rfl
  read_contents _ _ _ _ _ _ := rfl

/-- A file of twenty bytes, and a destination with room for as many. -/
def twentyFile : FileCalls (File → Nat) := plainFiles fun _ => List.replicate 20 7

def twentyDst : Buffer := { base := 64, writeCur := 1, size := 21 }

theorem posix_twentyFile :
    twentyFile.Posix (fun _ => True) (fun _ _ => List.replicate 20 7) (fun file s => s file) :=
  posix_plainFiles fun _ => by decide

theorem readFromFile_range_five :
    ReadsRange twentyFile (fun _ _ => List.replicate 20 7) 3 twentyDst 10 5 (fun _ => 17) :=
  (readFromFile_range_iff twentyFile _ _ _ posix_twentyFile 3 trivial twentyDst (by decide) 10 5
    fun _ => 17).2 (.inl (by decide))

/-- Ten bytes from `2 ^ 64 - 5` on: the sum is 5, the seek fails, and ten bytes are read from where
the file is. -/
theorem readFromFile_not_range :
    (readFromFile twentyFile 3 twentyDst 10 0xFFFFFFFFFFFFFFFB
      ⟨fun _ => 0, fun _ => true, fun _ => true⟩ fun _ => 4).toOption.map (·.1) = some true ∧
    ¬ ReadsRange twentyFile (fun _ _ => List.replicate 20 7) 3 twentyDst 10
      0xFFFFFFFFFFFFFFFB (fun _ => 4) := by
  refine ⟨by decide +kernel, fun h => ?_⟩
  exact absurd ((readFromFile_range_iff twentyFile _ _ _ posix_twentyFile 3 trivial twentyDst
    (by decide) 10 0xFFFFFFFFFFFFFFFB fun _ => 4).1 h) (by decide)

end TinyBase
