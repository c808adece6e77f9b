import TinyBase.HiddenFile
import TinyBase.RemoveDir

/-!
# Copying and moving a file (`DuplicateFile`, `ChangeFileLocation`, Linux)

A file is moved by `rename`, and where this would go to another file system by copying it and
deleting the source. The copy is one call of `copy_file_range`, which can copy less than it is asked
for; `DuplicateFile` returns true if it has copied as much as `FileSizeOf` says. For what has no
size, such as a pipe, both are `USZ_MAX`.
-/

namespace TinyBase

/-- `FORCE_OPEN`. -/
def forceOpen : UInt32 := 0x200

/-- `INVALID_FILE`. -/
def invalidFile : File := uszMax

/-- `EXDEV`. -/
def exdev : UInt32 := 18

/-- The system calls. -/
structure MoveCalls (σ : Type) extends FileCalls σ, DirCalls σ where
  openFile : List UInt8 → UInt32 → UInt32 → σ → File × σ
  closeFile : File → σ → σ
  /-- Without offsets: at the positions of the files. -/
  copyFileRange : File → File → Usz → σ → Isz × σ
  /-- The result is `errno`, or none if it is 0. -/
  rename : List UInt8 → List UInt8 → σ → Option UInt32 × σ

section
variable {σ : Type} (sys : MoveCalls σ)

/-- The local array of `_NewFile` is at `newBuf`. -/
def openFileHandle (filename newBuf : Ptr) (flags : UInt32) (m : Mem) (s : σ) : Res (File × σ) := do
  let (result, s) ← newFile sys.openFile filename newBuf false flags m s
  if flags &&& forceOpen ≠ 0 ∧ result = invalidFile then
    newFile sys.openFile filename newBuf true flags m s
  else pure (result, s)

def duplicateFile (srcPath dstPath newBuf : Ptr) (overwriteIfExists : Bool) (m : Mem) (s : σ) :
    Res (Bool × σ) := do
  let (srcFile, s) ← openFileHandle sys srcPath newBuf readShare m s
  if srcFile ≠ invalidFile then do
    let flags := if overwriteIfExists then writeShare ||| forceCreate else writeShare
    let (dstFile, s) ← createNewFile sys.openFile dstPath newBuf flags m s
    if dstFile ≠ invalidFile then
      let size := fileSizeOf sys.toFileCalls srcFile s
      let copied := sys.copyFileRange srcFile dstFile size s
      let s := sys.closeFile srcFile copied.2
      let s := sys.closeFile dstFile s
      let result := copied.1.toUInt64 == size
      pure (result, sys.closeFile srcFile s)
    else pure (false, sys.closeFile srcFile s)
  else pure (false, s)

end

/-- What a file is: regular, with its bytes, or a block device, or neither, such as a directory or a
pipe. -/
inductive Node where
  | regular (bytes : List UInt8)
  | block
  | other
deriving DecidableEq

/-- The entries of the directories, and the files that they are for. -/
structure FileTree (κ ι : Type) where
  /-- The entry that a path names: its last name, in the directory in front of it. -/
  entry : List UInt8 → Option κ
  /-- The entry that `open` comes to, which follows symbolic links. -/
  opens : List UInt8 → Option κ
  /-- Several entries can be for the same file. -/
  file : κ → Option ι
  node : ι → Node

namespace FileTree
variable {κ ι : Type} (t : FileTree κ ι)

/-- The file that is opened. -/
def target (text : List UInt8) : Option ι := (t.opens text).bind t.file

def setFile [DecidableEq κ] (k : κ) (i : Option ι) : FileTree κ ι :=
  { t with file := Function.update t.file k i }

theorem node_setFile [DecidableEq κ] (k : κ) (i : Option ι) : (t.setFile k i).node = t.node := rfl

variable [DecidableEq ι]

def setNode (i : ι) (n : Node) : FileTree κ ι := { t with node := Function.update t.node i n }

theorem file_setNode (i : ι) (n : Node) : (t.setNode i n).file = t.file := rfl

theorem target_setNode (i : ι) (n : Node) (text : List UInt8) :
    (t.setNode i n).target text = t.target text := rfl

theorem node_setNode_self (i : ι) (n : Node) : (t.setNode i n).node i = n := Function.update_self ..

theorem node_setNode_of_ne {i j : ι} (h : j ≠ i) (n : Node) : (t.setNode i n).node j = t.node j :=
  Function.update_of_ne h ..

theorem setNode_self {t : FileTree κ ι} {i : ι} {n : Node} (h : t.node i = n) :
    t.setNode i n = t := by
  rw [setNode, ← h, Function.update_eq_self]

/-- A regular file loses its bytes. -/
def truncate (i : ι) : FileTree κ ι :=
  match t.node i with
  | .regular _ => t.setNode i (.regular [])
  | .block | .other => t

theorem truncate_regular {i : ι} {bytes : List UInt8} (h : t.node i = .regular bytes) :
    t.truncate i = t.setNode i (.regular []) := by rw [truncate, h]

theorem truncate_other {i : ι} (h : ∀ bytes, t.node i ≠ .regular bytes) : t.truncate i = t := by
  rw [truncate]
  cases hkind : t.node i with
  | regular bytes => exact absurd hkind (h bytes)
  | block | other => rfl

theorem file_truncate (i : ι) : (t.truncate i).file = t.file := by
  rw [truncate]
  cases t.node i <;> rfl

theorem target_truncate (i : ι) (text : List UInt8) :
    (t.truncate i).target text = t.target text := by
  rw [truncate]
  cases t.node i <;> rfl

theorem node_truncate_of_ne {i j : ι} (h : j ≠ i) : (t.truncate i).node j = t.node j := by
  rw [truncate]
  cases t.node i with
  | regular bytes => exact t.node_setNode_of_ne h _
  | block | other => rfl

end FileTree

/-- What is seen of a state: the files, and what is open, with its position. -/
structure FileView (σ κ ι : Type) where
  tree : σ → FileTree κ ι
  opened : σ → File → Option (ι × Nat)

section
variable {σ κ ι : Type} (fs : FileView σ κ ι)

/-- There is no such file. -/
structure FileView.Fresh (s : σ) (i : ι) : Prop where
  file_ne : ∀ k, (fs.tree s).file k ≠ some i
  opened_ne : ∀ f pos, fs.opened s f ≠ some (i, pos)

/-- How `open` creates a file. -/
def createOpts (overwrite : Bool) : UInt32 :=
  openOpts true (if overwrite then writeShare ||| forceCreate else writeShare)

variable [DecidableEq κ] [DecidableEq ι]

/-- `open` with `O_CREAT`: the file `i` is new; or there is one already, which is made empty unless
it is refused. Where it is refused no symbolic link is followed, either. -/
inductive Creates (text : List UInt8) (overwrite : Bool) (s : σ) (i : ι) (t' : FileTree κ ι) : Prop
  | new (k : κ) (hopens : (fs.tree s).opens text = some k)
      (hexcl : overwrite = false → (fs.tree s).entry text = some k)
      (hnone : (fs.tree s).file k = none)
      (hfresh : fs.Fresh s i) (ht : t' = ((fs.tree s).setFile k (some i)).setNode i (.regular []))
  | old (hover : overwrite = true) (htarget : (fs.tree s).target text = some i)
      (ht : t' = (fs.tree s).truncate i)

/-- The entry is taken from one name to another; nothing is done if both are for the same file. -/
structure Renames (src dst : List UInt8) (t t' : FileTree κ ι) (a b : κ) (i : ι) : Prop where
  entry_src : t.entry src = some a
  entry_dst : t.entry dst = some b
  file_src : t.file a = some i
  file_eq : t'.file = if t.file b = some i then t.file
    else Function.update (Function.update t.file b (some i)) a none
  node_eq : t'.node = t.node

/-- What the system calls do. A call that fails changes nothing, but for a copy, which can stop at
any byte. -/
structure MoveCalls.Posix (sys : MoveCalls σ) : Prop where
  size_lt : ∀ s i bytes, (fs.tree s).node i = .regular bytes → bytes.length < 2 ^ 63
  openRead : ∀ text s, let r := sys.openFile text 0 0 s
    fs.tree r.2 = fs.tree s ∧
    if r.1 = invalidFile then fs.opened r.2 = fs.opened s
    else fs.opened s r.1 = none ∧
      (∀ a, (fs.tree s).entry text = some a → (fs.tree s).file a ≠ none) ∧
      ∃ i, (fs.tree s).target text = some i ∧
      fs.opened r.2 = Function.update (fs.opened s) r.1 (some (i, 0))
  create : ∀ text overwrite s, let r := sys.openFile text (createOpts overwrite) 0o600 s
    if r.1 = invalidFile then fs.tree r.2 = fs.tree s ∧ fs.opened r.2 = fs.opened s
    else fs.opened s r.1 = none ∧ ∃ i, Creates fs text overwrite s i (fs.tree r.2) ∧
      fs.opened r.2 = Function.update (fs.opened s) r.1 (some (i, 0))
  closeFile : ∀ f s, fs.tree (sys.closeFile f s) = fs.tree s ∧
    fs.opened (sys.closeFile f s) = Function.update (fs.opened s) f none
  fstat_regular : ∀ f s i pos bytes, fs.opened s f = some (i, pos) →
    (fs.tree s).node i = .regular bytes →
    sys.fstat f s = some (.regular, UInt64.ofNat bytes.length)
  fstat_block : ∀ f s i pos, fs.opened s f = some (i, pos) → (fs.tree s).node i = .block →
    ∃ stSize size,
    sys.fstat f s = some (.block, stSize) ∧ sys.blkGetSize64 f s = some size ∧ size ≠ uszMax
  fstat_other : ∀ f s i pos, fs.opened s f = some (i, pos) → (fs.tree s).node i = .other → ∃ stSize,
    sys.fstat f s = some (.other, stSize)
  copy_opened : ∀ f g size s h, h ≠ f → h ≠ g →
    fs.opened (sys.copyFileRange f g size s).2 h = fs.opened s h
  copy_regular : ∀ f g s i j bytes, fs.opened s f = some (i, 0) →
    fs.opened s g = some (j, 0) → i ≠ j →
    (fs.tree s).node i = .regular bytes → (fs.tree s).node j = .regular [] →
    let r := sys.copyFileRange f g (UInt64.ofNat bytes.length) s
    ∃ n ≤ bytes.length, (r.1 = Int64.ofNat n ∨ r.1 = -1 ∧ n = 0) ∧
      fs.tree r.2 = (fs.tree s).setNode j (.regular (bytes.take n))
  copy_refused : ∀ f g size s i j pos pos', fs.opened s f = some (i, pos) →
    fs.opened s g = some (j, pos') →
    (∀ bytes, (fs.tree s).node i ≠ .regular bytes) ∨
    (∀ bytes, (fs.tree s).node j ≠ .regular bytes) →
    (sys.copyFileRange f g size s).1 = -1 ∧ fs.tree (sys.copyFileRange f g size s).2 = fs.tree s
  copy_nothing : ∀ f g s, fs.tree (sys.copyFileRange f g 0 s).2 = fs.tree s
  rename : ∀ src dst s, let r := sys.rename src dst s
    fs.opened r.2 = fs.opened s ∧
    if r.1 = none then ∃ a b i, Renames src dst (fs.tree s) (fs.tree r.2) a b i
      else fs.tree r.2 = fs.tree s
  unlink : ∀ text s, let r := sys.unlink text s
    fs.opened r.2 = fs.opened s ∧
    if r.1 then ∃ a, (fs.tree s).entry text = some a ∧ (fs.tree r.2).node = (fs.tree s).node ∧
      (fs.tree r.2).file = Function.update (fs.tree s).file a none
    else fs.tree r.2 = fs.tree s

end

/-- A path as a C string in memory. -/
structure PathAt (m : Mem) (p : Ptr) (text : List UInt8) : Prop where
  holds : Holds m.read p (text ++ [0])
  zero_notMem : 0 ∉ text
  length_lt : text.length < 2 ^ 64

theorem PathAt.cString_eq {m : Mem} {p : Ptr} {text : List UInt8} (h : PathAt m p text) :
    cString m.read p = .ok text :=
  TinyBase.cString_eq h.holds h.zero_notMem h.length_lt

/-- What a copy from `i` to `j` leaves: a part of the bytes, all of them if it returns true; or
nothing is copied, and it returns true for a source that has no size. -/
inductive Copies {κ ι : Type} [DecidableEq ι] (t : FileTree κ ι) (i j : ι) (ok : Bool)
    (t' : FileTree κ ι) : Prop
  | bytes (bytes : List UInt8) (n : Nat) (hsrc : t.node i = .regular bytes)
      (hdst : t.node j = .regular [])
      (hn : n ≤ bytes.length) (hok : ok = true → n = bytes.length)
      (ht : t' = t.setNode j (.regular (bytes.take n)))
  | nothing (hnode : (∀ bytes, t.node i ≠ .regular bytes) ∨ ∀ bytes, t.node j ≠ .regular bytes)
      (hok : ok = true → t.node i = .other) (ht : t' = t)

/-- What `DuplicateFile` does: nothing, or it creates the destination and copies to it. -/
inductive Duplicates {σ κ ι : Type} [DecidableEq κ] [DecidableEq ι]
    (fs : FileView σ κ ι) (src dst : List UInt8) (overwrite : Bool) (s : σ) (ok : Bool)
    (t' : FileTree κ ι) : Prop
  | refused (hok : ok = false) (ht : t' = fs.tree s)
  | copied (i j : ι) (t : FileTree κ ι) (hentry : ∀ a, (fs.tree s).entry src = some a →
      (fs.tree s).file a ≠ none)
      (htarget : (fs.tree s).target src = some i) (hcreates : Creates fs dst overwrite s j t)
      (hcopies : Copies t i j ok t')

section
variable {σ κ ι : Type} [DecidableEq κ] [DecidableEq ι] {sys : MoveCalls σ}
  {fs : FileView σ κ ι} {m : Mem} {srcPath dstPath newBuf : Ptr} {src dst : List UInt8} {s : σ}
  {f g : File} {overwrite : Bool} {t t' : FileTree κ ι} {i j : ι}

theorem newFile_eq (openFile : List UInt8 → UInt32 → UInt32 → σ → File × σ)
    (h : PathAt m srcPath src) (isCreate : Bool) {flags : UInt32}
    (hflags : flags &&& hiddenFile = 0) : newFile openFile srcPath newBuf isCreate flags m s =
      .ok (openFile src (openOpts isCreate flags) (openMode isCreate) s) := by
  rw [newFile, if_neg (not_not.2 hflags)]
  show (cString m.read srcPath >>= fun text => _) = _
  rw [h.cString_eq]
  rfl

theorem openFileHandle_eq (h : PathAt m srcPath src) :
    openFileHandle sys srcPath newBuf readShare m s = .ok (sys.openFile src 0 0 s) := by
  have hforce : ¬ (readShare &&& forceOpen ≠ 0 ∧ (sys.openFile src 0 0 s).1 = invalidFile) :=
    fun hand => hand.1 (by decide)
  rw [openFileHandle, newFile_eq sys.openFile h false (by decide), Except.ok_bind]
  exact if_neg hforce

theorem createNewFile_eq (h : PathAt m dstPath dst) (overwrite : Bool) :
    createNewFile sys.openFile dstPath newBuf (if overwrite then writeShare ||| forceCreate
      else writeShare) m s =
      .ok (sys.openFile dst (createOpts overwrite) 0o600 s) := by
  rw [createNewFile, newFile_eq sys.openFile h true (by cases overwrite <;> decide)]
  rfl

/-- `DuplicateFile`, with the paths read. -/
theorem duplicateFile_eq (hsrc : PathAt m srcPath src) (hdst : PathAt m dstPath dst) :
    duplicateFile sys srcPath dstPath newBuf overwrite m s = .ok (
      let srcFile := sys.openFile src 0 0 s
      if srcFile.1 = invalidFile then (false, srcFile.2)
      else
        let dstFile := sys.openFile dst (createOpts overwrite) 0o600 srcFile.2
        if dstFile.1 = invalidFile then (false, sys.closeFile srcFile.1 dstFile.2)
        else
          let size := fileSizeOf sys.toFileCalls srcFile.1 dstFile.2
          let copied := sys.copyFileRange srcFile.1 dstFile.1 size dstFile.2
          (copied.1.toUInt64 == size,
            sys.closeFile srcFile.1
            (sys.closeFile dstFile.1 (sys.closeFile srcFile.1 copied.2)))) := by
  rw [duplicateFile, openFileHandle_eq hsrc, Except.ok_bind]
  generalize sys.openFile src 0 0 s = srcFile
  dsimp only
  by_cases hf : srcFile.1 = invalidFile
  · rw [if_neg (not_not.2 hf), if_pos hf]
    rfl
  rw [if_pos hf, if_neg hf, createNewFile_eq hdst overwrite, Except.ok_bind]
  generalize sys.openFile dst (createOpts overwrite) 0o600 srcFile.2 = dstFile
  by_cases hg : dstFile.1 = invalidFile
  · rw [if_neg (not_not.2 hg), if_pos hg]
    rfl
  · rw [if_pos hg, if_neg hg]
    rfl

/-- What has been created is empty, if it is a regular file. -/
theorem Creates.empty {text : List UInt8} (h : Creates fs text overwrite s i t) {bytes : List UInt8}
    (hnode : t.node i = .regular bytes) : bytes = [] := by
  cases h with
  | new k hopens hexcl hnone hfresh ht =>
    rw [ht, FileTree.node_setNode_self] at hnode
    exact (Node.regular.inj hnode).symm
  | old hover htarget ht =>
    by_cases hkind : ∀ bytes, (fs.tree s).node i ≠ .regular bytes
    · rw [ht, FileTree.truncate_other _ hkind] at hnode
      exact absurd hnode (hkind bytes)
    · obtain ⟨bytes', hkind⟩ := not_forall.1 hkind
      rw [ht, FileTree.truncate_regular _ (not_not.1 hkind), FileTree.node_setNode_self] at hnode
      exact (Node.regular.inj hnode).symm

/-- A file that there is not in a state is not there either when less is open. -/
theorem Creates.of_opened {s1 : σ} {text : List UInt8} (h : Creates fs text overwrite s1 i t)
    (htree : fs.tree s1 = fs.tree s) (hopened : ∀ f file, fs.opened s f = some file →
      fs.opened s1 f = some file) : Creates fs text overwrite s i t := by
  cases h with
  | new k hopens hexcl hnone hfresh ht =>
    rw [htree] at hopens hexcl hnone ht
    refine .new k hopens hexcl hnone ⟨fun k => ?_,
      fun f pos hf => hfresh.opened_ne f pos (hopened f _ hf)⟩ ht
    rw [← htree]
    exact hfresh.file_ne k
  | old hover htarget ht =>
    rw [htree] at htarget ht
    exact .old hover htarget ht

namespace MoveCalls.Posix
variable (hsys : sys.Posix fs)
include hsys

/-- The copy, between two files that are open at their beginnings; the destination is empty. -/
theorem copies_of_opened (hf : fs.opened s f = some (i, 0)) (hg : fs.opened s g = some (j, 0))
    (hempty : ∀ bytes, (fs.tree s).node j = .regular bytes → bytes = []) {size : Usz}
    (hsize : fileSizeOf sys.toFileCalls f s = size) :
    Copies (fs.tree s) i j ((sys.copyFileRange f g size s).1.toUInt64 == size)
      (fs.tree (sys.copyFileRange f g size s).2) := by
  have hminus : (-1 : Isz).toUInt64 = uszMax := rfl
  have hregular {bytes : List UInt8} (hkind : (fs.tree s).node i = .regular bytes) :
      size = UInt64.ofNat bytes.length := by
    rw [← hsize, fileSizeOf, hsys.fstat_regular f s i 0 bytes hf hkind]
  have hlen {bytes : List UInt8} (hkind : (fs.tree s).node i = .regular bytes) :
      (UInt64.ofNat bytes.length).toNat = bytes.length :=
    UInt64.toNat_ofNat_of_lt_two_pow (Nat.lt_trans (hsys.size_lt s i bytes hkind) (by decide))
  by_cases hnode : (∀ bytes, (fs.tree s).node i ≠ .regular bytes) ∨
    ∀ bytes, (fs.tree s).node j ≠ .regular bytes
  · obtain ⟨hret, htree⟩ := hsys.copy_refused f g size s i j 0 0 hf hg hnode
    refine .nothing hnode (fun hok => ?_) htree
    rw [hret, hminus, beq_iff_eq] at hok
    cases hkind : (fs.tree s).node i with
    | other => rfl
    | regular bytes =>
      have hsmall := hsys.size_lt s i bytes hkind
      rw [← hlen hkind] at hsmall
      exact absurd (hminus.trans (hok.trans (hregular hkind))) (toUInt64_minusOne_ne hsmall)
    | block =>
      obtain ⟨stSize, blkSize, hstat, hioctl, hne⟩ := hsys.fstat_block f s i 0 hf hkind
      have hblk : fileSizeOf sys.toFileCalls f s = blkSize := by
        rw [fileSizeOf, hstat]
        dsimp only
        rw [hioctl]
        rfl
      exact absurd (hblk.symm.trans (hsize.trans hok.symm)) hne
  · rw [not_or, not_forall, not_forall] at hnode
    obtain ⟨⟨bytes, hsrc⟩, ⟨bytes', hdst⟩⟩ := hnode
    rw [not_not] at hsrc hdst
    obtain rfl := hempty bytes' hdst
    by_cases hij : i = j
    · -- the source has been made empty, too
      subst hij
      obtain rfl := hempty bytes hsrc
      refine .bytes [] 0 hsrc hdst (Nat.zero_le _) (fun _ => rfl) ?_
      rw [hregular hsrc, List.take_nil, FileTree.setNode_self hdst]
      exact hsys.copy_nothing f g s
    · obtain ⟨n, hn, hret, hcopied⟩ := hsys.copy_regular f g s i j bytes hf hg hij hsrc hdst
      rw [hregular hsrc]
      refine .bytes bytes n hsrc hdst hn (fun hok => ?_) hcopied
      have hsmall := hsys.size_lt s i bytes hsrc
      rw [beq_iff_eq] at hok
      rcases hret with hret | ⟨hret, -⟩
      · rw [hret, toUInt64_ofNat_eq_iff (by omega), hlen hsrc] at hok
        exact hok
      · rw [hret] at hok
        exact absurd hok (toUInt64_minusOne_ne (by rw [hlen hsrc]; exact hsmall))

/-- Both files are closed, the source twice; the handles are as they were before the source was
opened. -/
theorem opened_closed {s1 s2 s3 : σ} (hf : fs.opened s f = none)
    (hopened1 : fs.opened s1 = Function.update (fs.opened s) f (some (i, 0)))
    (hg : fs.opened s1 g = none)
    (hopened2 : fs.opened s2 = Function.update (fs.opened s1) g (some (j, 0)))
    (hopened3 : ∀ h, h ≠ f → h ≠ g → fs.opened s3 h = fs.opened s2 h) :
    fs.opened (sys.closeFile f (sys.closeFile g (sys.closeFile f s3))) = fs.opened s := by
  rw [(hsys.closeFile _ _).2, (hsys.closeFile _ _).2, (hsys.closeFile _ _).2]
  funext h
  by_cases hhf : h = f
  · rw [hhf, Function.update_self, hf]
  rw [Function.update_of_ne hhf]
  by_cases hhg : h = g
  · rw [hopened1, ← hhg, Function.update_of_ne hhf] at hg
    rw [hhg, Function.update_self, ← hhg, hg]
  · rw [Function.update_of_ne hhg, Function.update_of_ne hhf, hopened3 h hhf hhg, hopened2,
      Function.update_of_ne hhg, hopened1, Function.update_of_ne hhf]

theorem duplicateFile_duplicates (newBuf : Ptr) (overwrite : Bool) (s : σ)
    (hsrc : PathAt m srcPath src) (hdst : PathAt m dstPath dst) :
    ∃ r, duplicateFile sys srcPath dstPath newBuf overwrite m s = .ok r ∧
      fs.opened r.2 = fs.opened s ∧ Duplicates fs src dst overwrite s r.1 (fs.tree r.2) := by
  rw [duplicateFile_eq hsrc hdst]
  refine ⟨_, rfl, ?_⟩
  obtain ⟨htree1, hopened1⟩ := hsys.openRead src s
  generalize sys.openFile src 0 0 s = r1 at htree1 hopened1 ⊢
  obtain ⟨f, s1⟩ := r1
  dsimp only at htree1 hopened1 ⊢
  by_cases hf : f = invalidFile
  · rw [if_pos hf] at hopened1
    rw [if_pos hf]
    exact ⟨hopened1, .refused rfl htree1⟩
  rw [if_neg hf] at hopened1 ⊢
  obtain ⟨hclosed, hentry, i, htarget, hopened1⟩ := hopened1
  have hcreate := hsys.create dst overwrite s1
  generalize sys.openFile dst (createOpts overwrite) 0o600 s1 = r2 at hcreate ⊢
  obtain ⟨g, s2⟩ := r2
  dsimp only at hcreate ⊢
  by_cases hg : g = invalidFile
  · rw [if_pos hg] at hcreate
    rw [if_pos hg]
    refine ⟨?_, .refused rfl ?_⟩
    · rw [(hsys.closeFile _ _).2, hcreate.2, hopened1, Function.update_idem, ← hclosed,
        Function.update_eq_self]
    · rw [(hsys.closeFile _ _).1, hcreate.1, htree1]
  rw [if_neg hg] at hcreate ⊢
  obtain ⟨hclosed2, j, hcreates, hopened2⟩ := hcreate
  have hfg : f ≠ g := fun heq => by
    rw [← heq, hopened1, Function.update_self] at hclosed2
    cases hclosed2
  have hf2 : fs.opened s2 f = some (i, 0) := by
    rw [hopened2, Function.update_of_ne hfg, hopened1, Function.update_self]
  have hg2 : fs.opened s2 g = some (j, 0) := by rw [hopened2, Function.update_self]
  have hcopies := hsys.copies_of_opened hf2 hg2 (fun _ => hcreates.empty) rfl
  refine ⟨?_, .copied i j (fs.tree s2) hentry htarget ?_ ?_⟩
  · exact hsys.opened_closed hclosed hopened1 hclosed2 hopened2 fun h => hsys.copy_opened f g _ s2 h
  · refine hcreates.of_opened htree1 fun h file hfile => ?_
    have hne : h ≠ f := fun heq => by
      rw [heq, hclosed] at hfile
      cases hfile
    rw [hopened1, Function.update_of_ne hne, hfile]
  · rw [(hsys.closeFile _ _).1, (hsys.closeFile _ _).1, (hsys.closeFile _ _).1]
    exact hcopies

end MoveCalls.Posix

end

/-- The destination is as the source was, which still is: it has the bytes of a regular file, or is
the source itself. -/
def IsCopied {κ ι : Type} (src dst : List UInt8) (t t' : FileTree κ ι) : Prop :=
  ∃ i j, t.target src = some i ∧ t'.target src = some i ∧
    t'.target dst = some j ∧ t'.node i = t.node i ∧
    (j = i ∨ ∃ bytes, t.node i = .regular bytes ∧ t'.node j = .regular bytes)

/-- The source is a regular file, and the destination is not; or they are the same, and there is
nothing in it that could be lost. -/
def CanCopy {κ ι : Type} (src dst : List UInt8) (t : FileTree κ ι) : Prop :=
  ∃ i, t.target src = some i ∧
    (t.target dst = some i → ∀ bytes, t.node i = .regular bytes → bytes = []) ∧
    (t.target dst ≠ some i → ∃ bytes, t.node i = .regular bytes)

theorem FileTree.file_of_target {κ ι : Type} {t : FileTree κ ι} {text : List UInt8} {i : ι}
    (h : t.target text = some i) : ∃ k, t.opens text = some k ∧ t.file k = some i :=
  Option.bind_eq_some_iff.1 h

namespace Copies
variable {κ ι : Type} [DecidableEq ι] {t t' : FileTree κ ι} {i j : ι} {ok : Bool}

theorem file_eq (h : Copies t i j ok t') : t'.file = t.file := by
  cases h with
  | bytes bytes n hsrc hdst hn hok ht => rw [ht, FileTree.file_setNode]
  | nothing hnode hok ht => rw [ht]

theorem target_eq (h : Copies t i j ok t') (text : List UInt8) :
    t'.target text = t.target text := by
  cases h with
  | bytes bytes n hsrc hdst hn hok ht => rw [ht, FileTree.target_setNode]
  | nothing hnode hok ht => rw [ht]

theorem node_eq (h : Copies t i j ok t') {i' : ι} (hne : i' ≠ j) : t'.node i' = t.node i' := by
  cases h with
  | bytes bytes n hsrc hdst hn hok ht => rw [ht, FileTree.node_setNode_of_ne _ hne]
  | nothing hnode hok ht => rw [ht]

end Copies

section
variable {σ κ ι : Type} [DecidableEq κ] [DecidableEq ι] {fs : FileView σ κ ι}
  {src dst text : List UInt8} {s : σ} {overwrite ok : Bool} {t t' : FileTree κ ι} {i j : ι}

namespace Creates

/-- The destination is opened, and nothing else is another file than before. -/
theorem target_eq (h : Creates fs text overwrite s i t) : t.target text = some i := by
  cases h with
  | new k hopens hexcl hnone hfresh ht =>
    rw [ht, FileTree.target_setNode, FileTree.target]
    show ((fs.tree s).opens text).bind (Function.update (fs.tree s).file k (some i)) = some i
    rw [hopens, Option.bind_some, Function.update_self]
  | old hover htarget ht => 
    rw [ht, FileTree.target_truncate, htarget]

theorem file_eq (h : Creates fs text overwrite s i t) {k : κ}
    (hk : (fs.tree s).opens text ≠ some k) : t.file k = (fs.tree s).file k := by
  cases h with
  | new k' hopens hexcl hnone hfresh ht =>
    rw [ht]
    exact Function.update_of_ne (fun heq : k = k' => hk (heq.symm ▸ hopens)) ..
  | old hover htarget ht => rw [ht, FileTree.file_truncate]

theorem node_eq (h : Creates fs text overwrite s i t) (hj : j ≠ i) :
    t.node j = (fs.tree s).node j := by
  cases h with
  | new k hopens hexcl hnone hfresh ht =>
    rw [ht, FileTree.node_setNode_of_ne _ hj, FileTree.node_setFile]
  | old hover htarget ht => rw [ht, FileTree.node_truncate_of_ne _ hj]

/-- A file that is open by another path is as it was. -/
theorem target_of_ne (h : Creates fs text overwrite s i t) (hj : (fs.tree s).target src = some j) :
    t.target src = some j := by
  cases h with
  | new k hopens hexcl hnone hfresh ht =>
    obtain ⟨k', hopens', hfile⟩ := FileTree.file_of_target hj
    have hne : k' ≠ k := fun heq => by
      rw [heq, hnone] at hfile
      cases hfile
    rw [ht, FileTree.target_setNode, FileTree.target]
    show ((fs.tree s).opens src).bind (Function.update (fs.tree s).file k (some i)) = some j
    rw [hopens', Option.bind_some, Function.update_of_ne hne, hfile]
  | old hover htarget ht => rw [ht, FileTree.target_truncate, hj]

/-- Only a file that there has been already is the source. -/
theorem eq_truncate (h : Creates fs text overwrite s i t) (hi : (fs.tree s).target src = some i) :
    t = (fs.tree s).truncate i := by
  cases h with
  | new k hopens hexcl hnone hfresh ht =>
    obtain ⟨k', -, hfile⟩ := FileTree.file_of_target hi
    exact absurd hfile (hfresh.file_ne k')
  | old hover htarget ht => exact ht

theorem target_eq_iff (h : Creates fs text overwrite s j t) (hi : (fs.tree s).target src = some i) :
    (fs.tree s).target text = some i ↔ i = j := by
  cases h with
  | new k hopens hexcl hnone hfresh ht =>
    have hmissing : (fs.tree s).target text = none := by
      rw [FileTree.target, hopens, Option.bind_some, hnone]
    obtain ⟨k', -, hfile⟩ := FileTree.file_of_target hi
    rw [hmissing]
    exact iff_of_false (Option.some_ne_none i).symm fun heq => hfresh.file_ne k' (heq ▸ hfile)
  | old hover htarget ht => rw [htarget, Option.some_inj, eq_comm]

end Creates

/-- A copy to another file, for which true is returned. -/
theorem isCopied_iff_of_ne (htarget : (fs.tree s).target src = some i)
    (hcreates : Creates fs dst overwrite s j t) (hcopies : Copies t i j true t') (hij : i ≠ j) :
    IsCopied src dst (fs.tree s) t' ↔ ∃ bytes, (fs.tree s).node i = .regular bytes := by
  have hnode : t'.node i = (fs.tree s).node i := (hcopies.node_eq hij).trans (hcreates.node_eq hij)
  have hdst : t'.target dst = some j := (hcopies.target_eq dst).trans hcreates.target_eq
  have hsrc : t'.target src = some i :=
    (hcopies.target_eq src).trans (hcreates.target_of_ne htarget)
  constructor
  · rintro ⟨i', j', hi, -, hj, -, hsame⟩
    obtain rfl := Option.some_inj.1 (htarget.symm.trans hi)
    obtain rfl := Option.some_inj.1 (hdst.symm.trans hj)
    rcases hsame with hsame | ⟨bytes, hbytes, -⟩
    · exact absurd hsame.symm hij
    · exact ⟨bytes, hbytes⟩
  · rintro ⟨bytes, hbytes⟩
    refine ⟨i, j, htarget, hsrc, hdst, hnode, .inr ⟨bytes, hbytes, ?_⟩⟩
    rw [← hcreates.node_eq hij] at hbytes
    cases hcopies with
    | bytes bytes' n hsrc hdst hn hok ht =>
      obtain rfl := Node.regular.inj (hbytes.symm.trans hsrc)
      rw [ht, FileTree.node_setNode_self, hok rfl, List.take_length]
    | nothing hnode hok ht => exact absurd (hbytes.symm.trans (hok rfl)) Node.noConfusion

/-- A copy to the file itself: it has been made empty before. -/
theorem isCopied_iff_self (htarget : (fs.tree s).target src = some i)
    (hcreates : Creates fs dst overwrite s i t) (hcopies : Copies t i i true t') :
    IsCopied src dst (fs.tree s) t' ↔
      ∀ bytes, (fs.tree s).node i = .regular bytes → bytes = [] := by
  have hdst : t'.target dst = some i := (hcopies.target_eq dst).trans hcreates.target_eq
  have hsrc : t'.target src = some i :=
    (hcopies.target_eq src).trans (hcreates.target_of_ne htarget)
  have hnode : t'.node i = ((fs.tree s).truncate i).node i := by
    rw [← hcreates.eq_truncate htarget]
    cases hcopies with
    | bytes bytes n hfrom hto hn hok ht =>
      rw [ht, FileTree.node_setNode_self, hok rfl, List.take_length, hfrom]
    | nothing hnode hok ht => rw [ht]
  constructor
  · rintro ⟨i', j', hi, -, -, hsame, -⟩ bytes hbytes
    obtain rfl := Option.some_inj.1 (htarget.symm.trans hi)
    rw [hnode, FileTree.truncate_regular _ hbytes, FileTree.node_setNode_self, hbytes] at hsame
    exact (Node.regular.inj hsame).symm
  · intro hnil
    refine ⟨i, i, htarget, hsrc, hdst, hnode.trans ?_, .inl rfl⟩
    by_cases hkind : ∀ bytes, (fs.tree s).node i ≠ .regular bytes
    · rw [FileTree.truncate_other _ hkind]
    · obtain ⟨bytes, hkind⟩ := not_forall.1 hkind
      rw [not_not] at hkind
      rw [FileTree.truncate_regular _ hkind, FileTree.node_setNode_self, hkind, hnil bytes hkind]

end

/-- Where `DuplicateFile` returns true, the destination is as the source was, and the source still
is, exactly if it can be copied; nothing else is touched, and what is opened is closed. -/
theorem duplicateFile_copies_iff {σ κ ι : Type} [DecidableEq κ] [DecidableEq ι]
    (sys : MoveCalls σ) (fs : FileView σ κ ι) (hsys : sys.Posix fs) (srcPath dstPath newBuf : Ptr)
    (src dst : List UInt8) (overwrite : Bool) (m : Mem) (hsrc : PathAt m srcPath src)
    (hdst : PathAt m dstPath dst) (s : σ) :
    ∃ r, duplicateFile sys srcPath dstPath newBuf overwrite m s = .ok r ∧
      fs.opened r.2 = fs.opened s ∧
      (∀ k, (fs.tree s).opens dst ≠ some k → (fs.tree r.2).file k = (fs.tree s).file k) ∧
      (∀ i, (fs.tree r.2).target dst ≠ some i → (fs.tree r.2).node i = (fs.tree s).node i) ∧
      (r.1 = true →
        (IsCopied src dst (fs.tree s) (fs.tree r.2) ↔ CanCopy src dst (fs.tree s))) := by
  obtain ⟨⟨ok, s'⟩, hrun, hopened, hdup⟩ :=
    hsys.duplicateFile_duplicates newBuf overwrite s hsrc hdst
  refine ⟨_, hrun, hopened, ?_⟩
  cases hdup with
  | refused hok ht =>
    refine ⟨fun k _ => by rw [ht], fun i _ => by rw [ht], fun h => ?_⟩
    rw [hok] at h
    cases h
  | copied i j t hentry htarget hcreates hcopies =>
    refine ⟨fun k hk => ?_, fun i' hi => ?_, fun hok => ?_⟩
    · rw [hcopies.file_eq, hcreates.file_eq hk]
    · have hne : i' ≠ j := fun heq => hi (heq ▸ (hcopies.target_eq dst).trans hcreates.target_eq)
      rw [hcopies.node_eq hne, hcreates.node_eq hne]
    · dsimp only at hok
      subst hok
      have hdst := hcreates.target_eq_iff htarget
      by_cases hij : i = j
      · have hsame := hdst.2 hij
        subst hij
        rw [isCopied_iff_self htarget hcreates hcopies]
        refine ⟨fun h => ⟨i, htarget, fun _ => h, fun hne => absurd hsame hne⟩, ?_⟩
        rintro ⟨i', hi, hnil, -⟩
        obtain rfl := Option.some_inj.1 (htarget.symm.trans hi)
        exact hnil hsame
      · rw [isCopied_iff_of_ne htarget hcreates hcopies hij]
        refine ⟨fun h => ⟨i, htarget, fun hsame => absurd (hdst.1 hsame) hij, fun _ => h⟩, ?_⟩
        rintro ⟨i', hi, -, hregular⟩
        obtain rfl := Option.some_inj.1 (htarget.symm.trans hi)
        exact hregular (mt hdst.1 hij)

/-! ### Moving -/

/-- The bytes of a file; what is not a regular file has none. -/
def Node.bytes : Node → List UInt8
  | .regular bytes => bytes
  | .block | .other => []

section
variable {κ ι : Type} [DecidableEq κ] [DecidableEq ι]

/-- At the destination, where there was nothing, is a new file with the first bytes of what the
source leads to. -/
structure NewCopy (src dst : List UInt8) (t t' : FileTree κ ι) (b : κ) (i j : ι)
    (bytes : List UInt8) : Prop where
  entry_dst : t.entry dst = some b
  file_dst : t.file b = none
  entry_src : ∀ a, t.entry src = some a → t.file a ≠ none
  target_src : t.target src = some i
  fresh : ∀ k, t.file k ≠ some j
  part : bytes <+: (t.node i).bytes
  tree_eq : t' = (t.setFile b (some j)).setNode j (.regular bytes)

/-- What `ChangeFileLocation` does: all is as before, or there is a part of a copy; or the file is
moved, as it is or as a copy. What is not a regular file is lost in the last case, as its copy has
no bytes. -/
inductive MovesFile (src dst : List UInt8) (t t' : FileTree κ ι) : Bool → Prop
  | kept (hfile : t'.file = t.file) (hnode : t'.node = t.node) : MovesFile src dst t t' false
  | part (b : κ) (i j : ι) (bytes : List UInt8) (h : NewCopy src dst t t' b i j bytes) :
      MovesFile src dst t t' false
  | renamed (a b : κ) (i : ι) (h : Renames src dst t t' a b i) : MovesFile src dst t t' true
  | copied (a b : κ) (i j : ι) (t1 : FileTree κ ι) (hkind : t.node i ≠ .block)
      (h : NewCopy src dst t t1 b i j (t.node i).bytes) (hentry : t.entry src = some a)
      (hfile : t'.file = Function.update t1.file a none) (hnode : t'.node = t1.node) :
      MovesFile src dst t t' true

variable {src dst : List UInt8} {t t' : FileTree κ ι} {ok : Bool} {b k : κ}
  {i i' j : ι} {bytes : List UInt8}

theorem NewCopy.node_eq (h : NewCopy src dst t t' b i j bytes) (hk : t.file k = some i') :
    t'.node i' = t.node i' := by
  rw [h.tree_eq, FileTree.node_setNode_of_ne _ (fun heq : i' = j => h.fresh k (heq ▸ hk)),
    FileTree.node_setFile]

theorem NewCopy.file_eq (h : NewCopy src dst t t' b i j bytes) (hk : t.entry dst ≠ some k) :
    t'.file k = t.file k := by
  rw [h.tree_eq, FileTree.file_setNode]
  exact Function.update_of_ne (fun heq : k = b => hk (heq.symm ▸ h.entry_dst)) ..

/-- No file is changed that there was before. -/
theorem MovesFile.node_eq (h : MovesFile src dst t t' ok) (hk : t.file k = some i) :
    t'.node i = t.node i := by
  cases h with
  | kept hfile hnode => rw [hnode]
  | part b i' j bytes h => exact h.node_eq hk
  | renamed a b i' h => rw [h.node_eq]
  | copied a b i' j t1 hkind h hentry hfile hnode => rw [hnode, h.node_eq hk]

/-- No other name is of another file than before. -/
theorem MovesFile.file_eq (h : MovesFile src dst t t' ok) (hsrc : t.entry src ≠ some k)
    (hdst : t.entry dst ≠ some k) : t'.file k = t.file k := by
  cases h with
  | kept hfile hnode => rw [hfile]
  | part b i j bytes h => exact h.file_eq hdst
  | renamed a b i h =>
    rw [h.file_eq]
    split_ifs
    · rfl
    · rw [Function.update_of_ne (fun heq : k = a => hsrc (heq.symm ▸ h.entry_src)),
        Function.update_of_ne (fun heq : k = b => hdst (heq.symm ▸ h.entry_dst))]
  | copied a b i j t1 hkind h hentry hfile hnode =>
    rw [hfile, Function.update_of_ne (fun heq : k = a => hsrc (heq.symm ▸ hentry)), h.file_eq hdst]

end

theorem removeFile_eq {σ : Type} (sys : DirCalls σ) {p : Ptr} {m : Mem} {text : List UInt8}
    (h : PathAt m p text) (s : σ) : removeFile sys p m s = .ok (sys.unlink text s) := by
  rw [removeFile, h.cString_eq]
  rfl

/-- The bytes of a regular file, or nothing for another one. -/
abbrev Content := Option { bytes : List UInt8 // bytes.length < 2 ^ 63 }

/-- Files are numbered in the order in which they are created; a path is the name of its entry. -/
structure Mounts where
  file : List UInt8 → Option Nat
  content : Nat → Content
  opened : File → Option (Nat × Nat)
  next : Nat
  file_lt : ∀ k i, file k = some i → i < next
  opened_lt : ∀ f p, opened f = some p → p.1 < next

namespace Mounts

theorem forall_update {α β : Type} [DecidableEq α] {f : α → Option β} {P : β → Prop}
    (hf : ∀ a b, f a = some b → P b) {a : α} {v : Option β} (hv : ∀ b, v = some b → P b) (a' : α)
    (b : β) (h : Function.update f a v a' = some b) : P b := by
  by_cases heq : a' = a
  · rw [heq, Function.update_self] at h
    exact hv b h
  · rw [Function.update_of_ne heq] at h
    exact hf a' b h

def node (c : Content) : Node := c.elim .other fun bytes => .regular bytes.1

def view : FileView Mounts (List UInt8) Nat :=
  ⟨fun s => ⟨some, some, s.file, fun i => node (s.content i)⟩, Mounts.opened⟩

/-- A handle that is not open. -/
def handle (s : Mounts) : File :=
  if s.opened 3 = none then 3 else if s.opened 4 = none then 4 else invalidFile

def setOpened (s : Mounts) (f : File) (p : Option (Nat × Nat))
    (h : ∀ q, p = some q → q.1 < s.next) : Mounts :=
  { s with
    opened := Function.update s.opened f p
    opened_lt := forall_update s.opened_lt h }

def setFile (s : Mounts) (text : List UInt8) (i : Option Nat) (h : ∀ j, i = some j → j < s.next) :
    Mounts :=
  { s with
    file := Function.update s.file text i
    file_lt := forall_update s.file_lt h }

def setContent (s : Mounts) (i : Nat) (c : Content) : Mounts :=
  { s with content := Function.update s.content i c }

/-- The file is opened; there is a handle for it. -/
def enter (s : Mounts) (i : Nat) (h : i < s.next) : Mounts :=
  s.setOpened s.handle (some (i, 0)) fun _ heq => Option.some_inj.1 heq ▸ h

/-- A new file, which is empty. -/
def add (s : Mounts) (text : List UInt8) : Mounts where
  file := Function.update s.file text (some s.next)
  content := Function.update s.content s.next (some ⟨[], by decide⟩)
  opened := s.opened
  next := s.next + 1
  file_lt := forall_update (fun k i hk => Nat.lt_succ_of_lt (s.file_lt k i hk)) fun _ heq =>
    Option.some_inj.1 heq ▸ Nat.lt_succ_self _
  opened_lt f p hf := Nat.lt_succ_of_lt (s.opened_lt f p hf)

/-- `open`, if there is a handle. -/
def openFile (text : List UInt8) (opts : UInt32) (s : Mounts) : File × Mounts :=
  if s.handle = invalidFile then (invalidFile, s)
  else match h : s.file text with
    | some i =>
      if opts &&& oExcl ≠ 0 then (invalidFile, s)
      else
        let s' := s.enter i (s.file_lt text i h)
        (s.handle, if opts &&& oTrunc ≠ 0 ∧ s.content i ≠ none then
          s'.setContent i (some ⟨[], by decide⟩) else s')
    | none =>
      if opts &&& oCreat = 0 then (invalidFile, s)
        else (s.handle, (s.add text).enter s.next (Nat.lt_succ_self _))

def copied (s : Mounts) (i j : Nat) (size : Usz) : Isz × Mounts :=
  match s.content i, s.content j with
  | some bytes, some _ =>
    if size = 0 then (0, s)
    else (Int64.ofNat (bytes.1.take size.toNat).length, s.setContent j
      (some ⟨bytes.1.take size.toNat, Nat.lt_of_le_of_lt (List.length_take_le' _ _) bytes.2⟩))
  | _, _ => (-1, s)

def renamed (s : Mounts) (src dst : List UInt8) : Option UInt32 × Mounts :=
  if src.head? ≠ dst.head? then (some exdev, s)
  else match h : s.file src with
    | none => (some enoent, s)
    | some i => (none, if s.file dst = some i then s
        else (s.setFile dst (some i) fun _ heq => Option.some_inj.1 heq ▸ s.file_lt src i h).setFile
          src none nofun)

def calls : MoveCalls Mounts where
  fstat f s := (s.opened f).map fun file =>
    (s.content file.1).elim (.other, 0) fun bytes => (.regular, UInt64.ofNat bytes.1.length)
  blkGetSize64 _ _ := none
  lseek _ _ s := (-1, s)
  read _ _ s := (none, s)
  opendir _ s := (0, s)
  readdir _ s := ((0, none), s)
  closedir _ s := s
  unlink text s := (true, s.setFile text none nofun)
  rmdir _ s := (false, s)
  openFile text opts _ s := s.openFile text opts
  closeFile f s := s.setOpened f none nofun
  copyFileRange f g size s :=
    match s.opened f, s.opened g with
    | some (i, _), some (j, _) => s.copied i j size
    | _, _ => (-1, s)
  rename src dst s := s.renamed src dst

variable {s : Mounts} {text : List UInt8} {i j : Nat} {size : Usz}

theorem content_of_regular {bytes : List UInt8} (h : (view.tree s).node i = .regular bytes) :
    ∃ hlt : bytes.length < 2 ^ 63, s.content i = some ⟨bytes, hlt⟩ := by
  have h : node (s.content i) = .regular bytes := h
  cases hc : s.content i with
  | none =>
    rw [hc] at h
    cases h
  | some bytes' =>
    rw [hc] at h
    cases h
    exact ⟨bytes'.2, rfl⟩

theorem content_of_not_regular (h : ∀ bytes, (view.tree s).node i ≠ .regular bytes) :
    s.content i = none := by
  cases hc : s.content i with
  | none => rfl
  | some bytes => exact absurd (congrArg node hc) (h bytes.1)

theorem tree_setContent (s : Mounts) (i : Nat) (c : Content) :
    view.tree (s.setContent i c) = (view.tree s).setNode i (node c) := by
  show FileTree.mk some some s.file (fun j => node (Function.update s.content i c j)) = _
  rw [FileTree.setNode, FileTree.mk.injEq]
  refine ⟨rfl, rfl, rfl, ?_⟩
  exact Function.comp_update node s.content i c

theorem tree_add (s : Mounts) (text : List UInt8) :
    view.tree (s.add text) = ((view.tree s).setFile text (some s.next)).setNode s.next
      (.regular []) := by
  show FileTree.mk some some _ (fun j => node (Function.update s.content s.next _ j)) = _
  rw [FileTree.setNode, FileTree.mk.injEq]
  exact ⟨rfl, rfl, rfl, Function.comp_update node s.content s.next _⟩

theorem opened_handle (h : s.handle ≠ invalidFile) : s.opened s.handle = none := by
  rw [handle] at h ⊢
  split_ifs at h ⊢ with h3 h4
  · exact h3
  · exact h4
  · exact absurd rfl h

theorem openFile_missing (hh : s.handle ≠ invalidFile) (opts : UInt32) (h : s.file text = none) :
    s.openFile text opts =
    if opts &&& oCreat = 0 then (invalidFile, s)
    else (s.handle, (s.add text).enter s.next (Nat.lt_succ_self _)) := by
  rw [openFile, if_neg hh]
  split
  · next heq => rw [h] at heq; cases heq
  · rfl

theorem openFile_there (hh : s.handle ≠ invalidFile) (opts : UInt32) (h : s.file text = some i) :
    s.openFile text opts =
    if opts &&& oExcl ≠ 0 then (invalidFile, s)
    else (s.handle, if opts &&& oTrunc ≠ 0 ∧ s.content i ≠ none
      then (s.enter i (s.file_lt text i h)).setContent i (some ⟨[], by decide⟩)
      else s.enter i (s.file_lt text i h)) := by
  rw [openFile, if_neg hh]
  split
  · next i' heq =>
    obtain rfl := Option.some_inj.1 (h.symm.trans heq)
    rfl
  · next heq => rw [h] at heq; cases heq

theorem creates_new {overwrite : Bool} (h : s.file text = none) :
    Creates view text overwrite s s.next
      (view.tree ((s.add text).enter s.next (Nat.lt_succ_self _))) := by
  refine .new text rfl (fun _ => rfl) h ⟨fun k hk => ?_, fun f pos hf => ?_⟩ (tree_add s text)
  · exact absurd (s.file_lt k s.next hk) (Nat.lt_irrefl _)
  · exact absurd (s.opened_lt f _ hf) (Nat.lt_irrefl _)

/-- A file that is opened with `O_TRUNC` is made empty if it is a regular one. -/
theorem creates_old (h : s.file text = some i) :
    Creates view text true s i
      (view.tree (if createOpts true &&& oTrunc ≠ 0 ∧ s.content i ≠ none
        then (s.enter i (s.file_lt text i h)).setContent i (some ⟨[], by decide⟩)
        else s.enter i (s.file_lt text i h))) := by
  have htrunc : createOpts true &&& oTrunc ≠ 0 := by decide
  refine .old rfl h ?_
  by_cases hc : s.content i = none
  · rw [if_neg fun h => h.2 hc, FileTree.truncate]
    show _ = match node (s.content i) with | .regular _ => _ | .block | .other => _
    rw [hc]
    rfl
  · rw [if_pos ⟨htrunc, hc⟩]
    obtain ⟨bytes, hc⟩ := Option.ne_none_iff_exists'.1 hc
    rw [FileTree.truncate_regular _
      (show (view.tree s).node i = .regular bytes.1 from congrArg node hc)]
    exact tree_setContent _ i _

/-- All the bytes are copied. -/
theorem copied_regular {bytes : List UInt8} (hi : (view.tree s).node i = .regular bytes)
    (hj : (view.tree s).node j = .regular []) :
    let r := s.copied i j (UInt64.ofNat bytes.length)
    ∃ n ≤ bytes.length, (r.1 = Int64.ofNat n ∨ r.1 = -1 ∧ n = 0) ∧
      view.tree r.2 = (view.tree s).setNode j (.regular (bytes.take n)) := by
  obtain ⟨hlt, hci⟩ := content_of_regular hi
  obtain ⟨hlt0, hcj⟩ := content_of_regular hj
  have hsize : (UInt64.ofNat bytes.length).toNat = bytes.length :=
    UInt64.toNat_ofNat_of_lt_two_pow (by omega)
  simp only [copied, hci, hcj]
  by_cases hzero : UInt64.ofNat bytes.length = 0
  · rw [if_pos hzero]
    exact ⟨0, Nat.zero_le _, .inl rfl, (FileTree.setNode_self hj).symm⟩
  · have htake : bytes.take (UInt64.ofNat bytes.length).toNat = bytes := by
      rw [hsize, List.take_length]
    rw [if_neg hzero]
    refine ⟨bytes.length, Nat.le_refl _,
      .inl (congrArg (fun bs : List UInt8 => Int64.ofNat bs.length) htake), ?_⟩
    rw [List.take_length]
    refine (tree_setContent s j _).trans ?_
    rw [node, Option.elim_some]
    dsimp only
    rw [htake]

theorem posix : calls.Posix view where
  size_lt s i bytes h := (content_of_regular h).1
  openRead text s := by
    dsimp only
    generalize hr : calls.openFile text 0 0 s = r
    have hr : s.openFile text 0 = r := hr
    by_cases hh : s.handle = invalidFile
    · rw [openFile, if_pos hh] at hr
      subst hr
      exact ⟨rfl, rfl⟩
    cases hfile : s.file text with
    | none =>
      rw [openFile_missing hh 0 hfile, if_pos (by decide)] at hr
      subst hr
      exact ⟨rfl, rfl⟩
    | some i =>
      rw [openFile_there hh 0 hfile, if_neg (by decide), if_neg fun h => h.1 (by decide)] at hr
      subst hr
      refine ⟨rfl, ?_⟩
      rw [if_neg hh]
      refine ⟨opened_handle hh, fun a ha => ?_, i, hfile, rfl⟩
      obtain rfl := Option.some_inj.1 ha
      exact fun hnone => absurd (hfile.symm.trans hnone) (Option.some_ne_none i)
  create text overwrite s := by
    have hcreat : createOpts overwrite &&& oCreat ≠ 0 := by cases overwrite <;> decide
    dsimp only
    generalize hr : calls.openFile text (createOpts overwrite) 0o600 s = r
    have hr : s.openFile text (createOpts overwrite) = r := hr
    by_cases hh : s.handle = invalidFile
    · rw [openFile, if_pos hh] at hr
      subst hr
      exact ⟨rfl, rfl⟩
    cases hfile : s.file text with
    | none =>
      rw [openFile_missing hh _ hfile, if_neg hcreat] at hr
      subst hr
      rw [if_neg hh]
      exact ⟨opened_handle hh, s.next, creates_new hfile, rfl⟩
    | some i =>
      rw [openFile_there hh _ hfile] at hr
      cases overwrite with
      | false =>
        rw [if_pos (by decide)] at hr
        subst hr
        exact ⟨rfl, rfl⟩
      | true =>
        rw [if_neg (by decide)] at hr
        subst hr
        rw [if_neg hh]
        refine ⟨opened_handle hh, i, creates_old hfile, ?_⟩
        split_ifs <;> rfl
  closeFile _ _ := ⟨rfl, rfl⟩
  fstat_regular f s i pos bytes hopened hnode := by
    obtain ⟨hlt, hc⟩ := content_of_regular hnode
    have hopened : s.opened f = some (i, pos) := hopened
    simp only [calls, hopened, Option.map_some, hc, Option.elim_some]
  fstat_block f s i pos hopened hnode := by
    have hnode : node (s.content i) = .block := hnode
    cases hc : s.content i with
    | none => rw [hc] at hnode; cases hnode
    | some bytes => rw [hc] at hnode; cases hnode
  fstat_other f s i pos hopened hnode := by
    have hc : s.content i = none :=
      content_of_not_regular fun bytes h => Node.noConfusion (hnode.symm.trans h)
    have hopened : s.opened f = some (i, pos) := hopened
    exact ⟨0, by simp only [calls, hopened, Option.map_some, hc, Option.elim_none]⟩
  copy_opened f g size s h _ _ := by
    simp only [calls]
    split
    · rw [copied]
      split <;> (try split_ifs) <;> rfl
    · rfl
  copy_regular f g s i j bytes hf hg hij hi hj := by
    have hf : s.opened f = some (i, 0) := hf
    have hg : s.opened g = some (j, 0) := hg
    simp only [calls, hf, hg]
    exact copied_regular hi hj
  copy_refused f g size s i j pos pos' hf hg h := by
    have hf : s.opened f = some (i, pos) := hf
    have hg : s.opened g = some (j, pos') := hg
    simp only [calls, hf, hg, copied]
    rcases h with h | h <;> simp [content_of_not_regular h]
  copy_nothing f g s := by
    simp only [calls]
    split
    · rw [copied]
      split <;> (try split_ifs) <;> first | rfl | contradiction
    · rfl
  rename src dst s := by
    dsimp only
    generalize hr : calls.rename src dst s = r
    have hr : s.renamed src dst = r := hr
    rw [renamed] at hr
    split_ifs at hr with hhead
    · subst hr
      exact ⟨rfl, rfl⟩
    split at hr
    · subst hr
      exact ⟨rfl, rfl⟩
    · next i hfile =>
      subst hr
      refine ⟨by split_ifs <;> rfl, src, dst, i, rfl, rfl, hfile, ?_, by split_ifs <;> rfl⟩
      show (ite _ _ _ : Mounts).file = if s.file dst = some i then _ else _
      split_ifs <;> rfl
  unlink text s := ⟨rfl, text, rfl, rfl, rfl⟩

end Mounts

namespace Mounts

/-- There is one file, at `a`. -/
def single (c : Content) : Mounts where
  file text := if text = [97] then some 0 else none
  content _ := c
  opened _ := none
  next := 1
  file_lt k i hk := by
    split_ifs at hk
    cases hk
    exact Nat.one_pos
  opened_lt _ _ h := absurd h (Option.some_ne_none _).symm

/-- The paths `a` and `b`. -/
def names : Mem := textMem [97, 0] [98, 0]

theorem pathAt_a : PathAt names 64 [97] where
  holds := Mem.reads_store (Mem.holds_store fun _ _ => rfl) (apart_of_le (by decide) (by decide))
    (Nat.le_refl 2)
  zero_notMem := by decide
  length_lt := by decide

theorem pathAt_b : PathAt names 128 [98] where
  holds := Mem.holds_store fun _ _ => rfl
  zero_notMem := by decide
  length_lt := by decide

/-- Three bytes. -/
def three : Content := some ⟨[1, 2, 3], by decide⟩

/-- At `a` and at `b` are two things that are no regular files. -/
def others : Mounts where
  file text := if text = [97] then some 0 else if text = [98] then some 1 else none
  content _ := none
  opened _ := none
  next := 2
  file_lt k i hk := by
    split_ifs at hk <;> cases hk <;> decide
  opened_lt _ _ h := absurd h (Option.some_ne_none _).symm

end Mounts

/-- Three bytes are copied; where there is nothing to copy, true is returned, too. -/
theorem duplicateFile_copies_iff_three :
    (∃ s', duplicateFile Mounts.calls 64 128 256 false Mounts.names (.single Mounts.three) =
      .ok (true, s') ∧
      IsCopied [97] [98] (Mounts.view.tree (.single Mounts.three)) (Mounts.view.tree s')) ∧
    ∃ s', duplicateFile Mounts.calls 64 128 256 true Mounts.names .others = .ok (true, s') ∧
      ¬ IsCopied [97] [98] (Mounts.view.tree .others) (Mounts.view.tree s') := by
  constructor
  · obtain ⟨r, hrun, -, -, -, hiff⟩ :=
      duplicateFile_copies_iff Mounts.calls Mounts.view Mounts.posix 64 128 256 [97] [98] false
      Mounts.names Mounts.pathAt_a Mounts.pathAt_b (.single Mounts.three)
    obtain ⟨s', hrun'⟩ : ∃ s', duplicateFile Mounts.calls 64 128 256 false Mounts.names
      (.single Mounts.three) = .ok (true, s') :=
      ⟨_, (duplicateFile_eq Mounts.pathAt_a Mounts.pathAt_b).trans rfl⟩
    obtain rfl := Except.ok.inj (hrun.symm.trans hrun')
    refine ⟨s', hrun', (hiff rfl).2 ⟨0, rfl, fun h => ?_, fun _ => ⟨[1, 2, 3], rfl⟩⟩⟩
    exact absurd h (by decide)
  · obtain ⟨r, hrun, -, -, -, hiff⟩ :=
      duplicateFile_copies_iff Mounts.calls Mounts.view Mounts.posix 64 128 256 [97] [98] true
      Mounts.names Mounts.pathAt_a Mounts.pathAt_b .others
    obtain ⟨s', hrun'⟩ :
      ∃ s', duplicateFile Mounts.calls 64 128 256 true Mounts.names .others = .ok (true, s') :=
      ⟨_, (duplicateFile_eq Mounts.pathAt_a Mounts.pathAt_b).trans rfl⟩
    obtain rfl := Except.ok.inj (hrun.symm.trans hrun')
    refine ⟨s', hrun', fun h => ?_⟩
    obtain ⟨i, hi, -, hregular⟩ := (hiff rfl).1 h
    obtain rfl : 0 = i := Option.some_inj.1 hi
    obtain ⟨bytes, hbytes⟩ := hregular (by decide)
    cases hbytes

end TinyBase
