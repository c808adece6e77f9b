import TinyBase.Files
import TinyBase.Search

/-!
# Comparing two files (`FilesAreEqual`, Linux)

The two files are read into mappings of their own. A mapping is an object apart from all others, so
each has its own memory. An empty file has no mapping, and that looks like a failure.
-/

namespace TinyBase

/-- The system calls for pages. -/
structure PageCalls (σ : Type) where
  /-- `mmap` of anonymous private memory: where it is, and the memory, unless it fails. -/
  mmap : Ptr → Usz → UInt32 → σ → Option (Ptr × Mem) × σ
  munmap : Ptr → Usz → σ → σ

/-- `MEM_READ`, `MEM_WRITE`, `MEM_GUARD` and `MEM_EXEC`. -/
def memRead : UInt32 := 0x1
def memWrite : UInt32 := 0x2
def memGuard : UInt32 := 0x4
def memExec : UInt32 := 0x8

/-- `PROT_READ`, `PROT_WRITE` and `PROT_EXEC`; `PROT_NONE` is 0. -/
def protRead : UInt32 := 0x1
def protWrite : UInt32 := 0x2
def protExec : UInt32 := 0x4

def align (value boundary : Usz) : Usz := ((value - 1) &&& ~~~(boundary - 1)) + boundary

/-- `{0}`. -/
def noBuffer : Buffer := { base := 0, writeCur := 0, size := 0 }

def noMem : Mem := ⟨fun _ => 0, fun _ => false, fun _ => false⟩

section
variable {σ : Type} (sys : FileCalls σ) (pages : PageCalls σ) (pageSize : Usz)

/-- `Prot` of `GetMemory`. -/
def protOf (flags : UInt32) : UInt32 :=
  let prot := if flags &&& memRead ≠ 0 then protRead else 0
  let prot := if flags &&& memWrite ≠ 0 then prot ||| (protRead ||| protWrite) else prot
  let prot := if flags &&& memExec ≠ 0 then prot ||| protExec else prot
  if flags &&& memGuard ≠ 0 then 0 else prot

/-- `GetMemory`, with the memory of the mapping; `pageSize` is `gSysInfo.PageSize`. -/
def getMemory (size : Usz) (address : Ptr) (flags : UInt32) (s : σ) : Buffer × Mem × σ :=
  match pages.mmap address size (protOf flags) s with
  | (some (ptr, m), s) =>
    ({ base := ptr, writeCur := 0, size := if pageSize ≠ 0 then align size pageSize else size }, m,
      s)
  | (none, s) => (noBuffer, noMem, s)

def freeMemory (mem : Buffer) (s : σ) : Buffer × σ := (noBuffer, pages.munmap mem.base mem.size s)

def readEntireFile (file : File) (s : σ) : Res (Buffer × Mem × σ) :=
  let fileSize := fileSizeOf sys file s
  let (mem, m, s) := getMemory pages pageSize fileSize 0 memWrite s
  if mem.base ≠ 0 then do
    let (read, mem, m, s) ← readFromFile sys file mem fileSize 0 m s
    if read then pure ({ mem with writeCur := fileSize }, m, s)
    else
      let (mem, s) := freeMemory pages mem s
      pure (mem, m, s)
  else pure (mem, m, s)

def filesAreEqual (a b : File) (s : σ) : Res (Bool × σ) :=
  let aSize := fileSizeOf sys a s
  let bSize := fileSizeOf sys b s
  if aSize = bSize then do
    let (aBuf, aMem, s) ← readEntireFile sys pages pageSize a s
    let (bBuf, bMem, s) ← readEntireFile sys pages pageSize b s
    if aBuf.base ≠ 0 ∧ bBuf.base ≠ 0 then do
      let result ← equalBuffers (aBuf.view aMem) (bBuf.view bMem)
      let (_, s) := freeMemory pages aBuf s
      let (_, s) := freeMemory pages bBuf s
      pure (result, s)
    else pure (false, s)
  else pure (false, s)

end

/-- What is relied on of `mmap`: memory to read and write for every length but 0, for which it
fails; and the files stay as they are. -/
structure PageCalls.Maps {σ : Type} (pages : PageCalls σ) (contents : File → σ → List UInt8) :
    Prop where
  mmap_zero : ∀ s, ∃ s', pages.mmap 0 0 (protRead ||| protWrite) s = (none, s') ∧ ∀ f,
    contents f s' = contents f s
  mmap_ok : ∀ len s, 0 < len.toNat → len.toNat < 2 ^ 63 → ∃ ptr m s',
    pages.mmap 0 len (protRead ||| protWrite) s = (some (ptr, m), s') ∧ ptr ≠ 0 ∧
      (∀ i : Usz, i.toNat < len.toNat → m.readable (ptr + i) ∧ m.writable (ptr + i)) ∧
      ∀ f, contents f s' = contents f s

section
variable {σ : Type} {sys : FileCalls σ} {pages : PageCalls σ} {isOpen : File → Prop}
  {contents : File → σ → List UInt8} {position : File → σ → Nat}
  {file : File} {pageSize : Usz} {s : σ}

theorem le_toNat_align {value boundary : Usz} (hvalue : 0 < value.toNat)
    (hvalue' : value.toNat < 2 ^ 63) (hboundary : 0 < boundary.toNat)
    (hboundary' : boundary.toNat < 2 ^ 31) : value.toNat ≤ (align value boundary).toNat := by
  have hone : (1 : Usz).toNat = 1 := rfl
  have hv : (value - 1).toNat = value.toNat - 1 := UInt64.toNat_sub_of_toNat_le hvalue
  have hb : (boundary - 1).toNat = boundary.toNat - 1 := UInt64.toNat_sub_of_toNat_le hboundary
  have hmask := UInt64.toNat_le_and_not_add (value - 1) (boundary - 1)
  have hle :=
    UInt64.le_iff_toNat_le.1 (UInt64.and_le_left (a := value - 1) (b := ~~~(boundary - 1)))
  rw [align, UInt64.toNat_add_of_lt (by omega)]
  omega

theorem sameBytes_iff {bs cs : List UInt8} (hlen : bs.length = cs.length) :
    SameBytes (bs.getD · 0) (cs.getD · 0) bs.length ↔ bs = cs := by
  constructor
  · intro h
    refine List.ext_getElem hlen fun i hi hi' => ?_
    have hbyte := h i hi
    dsimp only at hbyte
    rwa [List.getD_eq_getElem _ _ hi, List.getD_eq_getElem _ _ hi'] at hbyte
  · rintro rfl i -
    rfl

theorem getMemory_eq (hpages : pages.Maps contents) (hpage : pageSize.toNat < 2 ^ 31)
    {size : Usz} (hpos : 0 < size.toNat) (hsize : size.toNat < 2 ^ 63) :
    ∃ buf m s', getMemory pages pageSize size 0 memWrite s = (buf, m, s') ∧ buf.base ≠ 0 ∧
      buf.writeCur = 0 ∧ size.toNat ≤ buf.size.toNat ∧
      (∀ i : Usz, i.toNat < size.toNat → m.readable (buf.base + i) ∧ m.writable (buf.base + i)) ∧
      ∀ f, contents f s' = contents f s := by
  obtain ⟨ptr, m, s', hmap, hptr, hmem, hkeep⟩ := hpages.mmap_ok size s hpos hsize
  have hprot : protOf memWrite = protRead ||| protWrite := by decide
  refine ⟨_, m, s', by rw [getMemory, hprot, hmap], hptr, rfl, ?_, hmem, hkeep⟩
  dsimp only
  split_ifs with hzero
  · refine le_toNat_align hpos hsize (Nat.pos_of_ne_zero fun h0 => hzero (UInt64.toNat_inj.1 h0))
      hpage
  · exact Nat.le_refl _

theorem readEntireFile_eq (hsys : sys.Posix isOpen contents position) (hpages : pages.Maps contents)
    (hopen : isOpen file) (hpage : pageSize.toNat < 2 ^ 31) (hne : contents file s ≠ []) :
    ∃ buf m s', readEntireFile sys pages pageSize file s = .ok (buf, m, s') ∧ buf.base ≠ 0 ∧
      buf.writeCur.toNat = (contents file s).length ∧ Holds m.read buf.base (contents file s) ∧
      ∀ f, isOpen f → contents f s' = contents f s := by
  have hsize := hsys.size_lt file s hopen
  have hlen := hsys.toNat_fileSizeOf (s := s) hopen
  have hpos : 0 < (contents file s).length := List.length_pos_iff.2 hne
  obtain ⟨buf, m, s1, hget, hbase, hcur, hroom, hmem, hkeep⟩ :=
    @getMemory_eq _ pages contents pageSize s hpages hpage
      (fileSizeOf sys file s) (by omega) (by omega)
  have hstart : buf.base + buf.writeCur = buf.base := by rw [hcur, UInt64.add_zero]
  have hroom' : (fileSizeOf sys file s).toNat ≤ buf.room := by rw [Buffer.room, hcur]; exact hroom
  have hbytes : ((contents file s1).drop (readPosition position file 0 s1)).take
      (fileSizeOf sys file s).toNat =
      contents file s := by
    rw [hkeep file, hlen, readPosition, if_pos (by decide)]
    exact List.take_length
  obtain ⟨s2, hkeep2, hread⟩ := hsys.readFromFile_eq hopen (by rw [hcur]; exact UInt64.zero_le)
    (fun i hi => by rw [hstart]; exact (hmem i hi).2) (by rw [UInt64.zero_add, hkeep file, hlen])
    hroom' hbytes
  rw [if_pos hlen.symm, hstart] at hread
  refine ⟨{ buf with writeCur := fileSizeOf sys file s }, _, s2, ?_, hbase, hlen,
    Mem.holds_store fun i hi => (hmem i (by omega)).1, fun f hf => (hkeep2 f hf).trans (hkeep f)⟩
  rw [readEntireFile]
  dsimp only
  rw [hget]
  dsimp only
  rw [if_pos hbase, hread]
  rfl

theorem readEntireFile_empty (hsys : sys.Posix isOpen contents position)
    (hpages : pages.Maps contents) (hopen : isOpen file) (hnil : contents file s = []) :
    ∃ s', readEntireFile sys pages pageSize file s = .ok (noBuffer, noMem, s') ∧
      ∀ f, contents f s' = contents f s := by
  obtain ⟨s', hmap, hkeep⟩ := hpages.mmap_zero s
  have hzero : fileSizeOf sys file s = 0 := by rw [hsys.fileSizeOf_eq hopen, hnil]; rfl
  have hprot : protOf memWrite = protRead ||| protWrite := by decide
  have hget : getMemory pages pageSize 0 0 memWrite s = (noBuffer, noMem, s') := by
    rw [getMemory, hprot, hmap]
  refine ⟨s', ?_, hkeep⟩
  rw [readEntireFile]
  dsimp only
  rw [hzero, hget]
  rfl

end

/-- The answer is right unless both files are empty. -/
theorem filesAreEqual_iff {σ : Type} (sys : FileCalls σ)
    (pages : PageCalls σ) (isOpen : File → Prop) (contents : File → σ → List UInt8)
    (position : File → σ → Nat) (hsys : sys.Posix isOpen contents position)
    (hpages : pages.Maps contents) (pageSize : Usz) (hpage : pageSize.toNat < 2 ^ 31) (a b : File)
    (ha : isOpen a) (hb : isOpen b) (s : σ) :
    (∃ s', filesAreEqual sys pages pageSize a b s = .ok (decide (contents a s = contents b s),
      s')) ↔ ¬ (contents a s = [] ∧ contents b s = []) := by
  have hasize := hsys.toNat_fileSizeOf (s := s) ha
  have hbsize := hsys.toNat_fileSizeOf (s := s) hb
  have hsizes : fileSizeOf sys a s = fileSizeOf sys b s ↔
      (contents a s).length = (contents b s).length := by
    rw [← UInt64.toNat_inj, hasize, hbsize]
  rw [filesAreEqual]
  by_cases hlen : (contents a s).length = (contents b s).length
  · rw [if_pos (hsizes.2 hlen)]
    rcases eq_or_ne (contents a s) [] with hnil | hne
    · -- no mapping for either of them
      have hnil' : contents b s = [] := List.length_eq_zero_iff.1 (by rw [← hlen, hnil]; rfl)
      obtain ⟨s1, hrun, hkeep⟩ :=
        @readEntireFile_empty _ sys pages isOpen contents position a pageSize s hsys hpages ha hnil
      obtain ⟨s2, hrun', -⟩ :=
        @readEntireFile_empty _ sys pages isOpen contents position b pageSize s1 hsys hpages hb
        (by rw [hkeep, hnil'])
      rw [hrun, Except.ok_bind]
      dsimp only
      rw [hrun', Except.ok_bind]
      refine iff_of_false ?_ fun h => h ⟨hnil, hnil'⟩
      rintro ⟨s', h⟩
      rw [if_neg (fun h => h.1 rfl), hnil, hnil'] at h
      cases h
    · have hne' : contents b s ≠ [] :=
        fun h => hne (List.length_eq_zero_iff.1 (by rw [hlen, h]; rfl))
      obtain ⟨aBuf, ma, s1, hrun, habase, hacur, hahold, hkeep⟩ :=
        @readEntireFile_eq _ sys pages isOpen contents position a pageSize
          s hsys hpages ha hpage hne
      obtain ⟨bBuf, mb, s2, hrun', hbbase, hbcur, hbhold, -⟩ :=
        @readEntireFile_eq _ sys pages isOpen contents position b pageSize s1 hsys hpages hb hpage
          (by rw [hkeep b hb]; exact hne')
      rw [hkeep b hb] at hbcur hbhold
      have hcur : aBuf.writeCur = bBuf.writeCur := UInt64.toNat_inj.1 (by rw [hacur, hbcur, hlen])
      have hacur' : (aBuf.view ma).writeCur.toNat = (contents a s).length := hacur
      have hequal :=
        @equalBuffers_spec (aBuf.view ma) (bBuf.view mb) _ _ hcur (by rw [hacur']; exact hahold)
        (by rw [hacur', hlen]; exact hbhold)
      obtain ⟨r, hr, hiff⟩ := Except.wp_iff.1 hequal
      rw [hacur', sameBytes_iff hlen] at hiff
      rw [hrun, Except.ok_bind]
      dsimp only
      rw [hrun', Except.ok_bind]
      dsimp only
      rw [if_pos ⟨habase, hbbase⟩, hr]
      refine iff_of_true ⟨pages.munmap bBuf.base bBuf.size (pages.munmap aBuf.base aBuf.size s2),
        ?_⟩ fun h => hne h.1
      rw [← Bool.eq_iff_iff.2 (hiff.trans decide_eq_true_iff.symm)]
      rfl
  · rw [if_neg (hsizes.not.2 hlen)]
    have hdiff : contents a s ≠ contents b s := fun h => hlen (congrArg List.length h)
    rw [decide_eq_false hdiff]
    exact iff_of_true ⟨s, rfl⟩ fun h => hlen (by rw [h.1, h.2])

/-! Pages that can all be touched. -/

def plainPages {σ : Type} : PageCalls σ where
  mmap _ len _ s :=
    if len = 0 then (none, s) else (some (4096, ⟨fun _ => 0, fun _ => true, fun _ => true⟩), s)
  munmap _ _ s := s

theorem maps_plainPages {σ : Type} (contents : File → σ → List UInt8) :
    (plainPages (σ := σ)).Maps contents where
  mmap_zero s := ⟨s, rfl, fun _ => rfl⟩
  mmap_ok len s hpos _ := by
    have hne : len ≠ 0 := by rintro rfl; exact absurd hpos (by decide)
    exact ⟨4096, _, s, if_neg hne, by decide, fun _ _ => ⟨rfl, rfl⟩, fun _ => rfl⟩

/-- The files 3 and 4 differ in their last byte, and all others are empty. -/
def fewFiles (file : File) : List UInt8 :=
  if file = 3 then [7, 8] else if file = 4 then [7, 9] else []

theorem posix_fewFiles : (plainFiles fewFiles).Posix (fun _ => True) (fun file _ => fewFiles file)
    (fun file s => s file) :=
  posix_plainFiles fun file => by unfold fewFiles; split_ifs <;> decide

theorem filesAreEqual_three_four :
    ∃ s', filesAreEqual (plainFiles fewFiles) plainPages 4096 3 4 (fun _ => 1) = .ok (false, s') :=
  (filesAreEqual_iff (plainFiles fewFiles) plainPages _ _ _ posix_fewFiles (maps_plainPages _) 4096
    (by decide) 3 4 trivial trivial fun _ => 1).2 (by decide)

/-- Two empty files are said to differ. -/
theorem filesAreEqual_empty :
    (∃ s', filesAreEqual (plainFiles fewFiles) plainPages 4096 5 6 (fun _ => 0) = .ok (false, s')) ∧
    ¬ ∃ s', filesAreEqual (plainFiles fewFiles) plainPages 4096 5 6 (fun _ => 0) =
      .ok (decide (fewFiles 5 = fewFiles 6), s') := by
  constructor
  · exact ⟨_, rfl⟩
  · intro h
    exact (filesAreEqual_iff (plainFiles fewFiles) plainPages _ _ _ posix_fewFiles
      (maps_plainPages _) 4096 (by decide) 5 6 trivial
      trivial fun _ => 0).1 h ⟨rfl, rfl⟩

end TinyBase
