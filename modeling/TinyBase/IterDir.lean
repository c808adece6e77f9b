import TinyBase.Lib.Yields
import TinyBase.MakeDir

/-!
# Listing a directory (`ListFiles`, Linux)

`ListFiles` opens the directory when it is called for the first time, and gives one entry after the
other; `.` and `..` are passed over. At the end the directory is closed, and the next call opens it
again. The calls of the system are parameters, functions of a state of the file system and of the
paths that they read from memory.
-/

namespace TinyBase
open LexicalPath

/-- `DT_DIR`. -/
def dtDir : UInt8 := 4

/-- `struct dirent`: what `ListFiles` reads of it. -/
structure Dirent where
  dType : UInt8
  dName : List UInt8

/-- `Entry->d_type & DT_DIR`. -/
def Dirent.isDir (d : Dirent) : Bool := d.dType &&& dtDir ≠ 0

/-- The calls. `opendir` gives a null pointer if it fails, and `readdir_r` its error code and the
entry, if there is one. -/
structure DirCalls (σ : Type) where
  opendir : List UInt8 → σ → Usz × σ
  readdir : Usz → σ → (UInt32 × Option Dirent) × σ
  closedir : Usz → σ → σ
  unlink : List UInt8 → σ → Bool × σ
  rmdir : List UInt8 → σ → Bool × σ

/-- `iter_dir`: `AllFilesBuf` is at the address of the struct, and `OSData` has the stream, the
pointer to the entry and the entry. -/
structure IterDir where
  base : Ptr
  allFiles : String
  filename : Ptr
  dir : Usz
  isDir : Bool

namespace IterDir

/-- `sizeof(iter_dir)`. -/
def size : Usz := 4744

/-- `Entry->d_name`. -/
def dName (iter : IterDir) : Ptr := iter.base + 4171

/-- `{0}`. -/
def zero (base : Ptr) : IterDir :=
  { base := base, allFiles := { base := 0, writeCur := 0, size := 0, enc := .ascii }, filename := 0,
    dir := 0, isDir := false }

end IterDir

def initIterDir (iter : IterDir) (dirPath : String) (m : Mem) : Res (IterDir × Mem) := do
  let (_, m) ← clearBuffer iter.allFiles.toBuffer m
  let (_, allFiles, m) ← appendStringToString dirPath (path iter.base) m
  pure ({ iter with allFiles := allFiles }, m)

/-- The name is `.` or `..`. -/
def isDots (dName : Ptr) (m : Mem) : Res Bool := do
  let c0 ← m.read dName
  if c0 = 46 then do
    let c1 ← m.read (dName + 1)
    if c1 = 0 then pure true
    else if c1 = 46 then do
      let c2 ← m.read (dName + 2)
      pure (c2 = 0)
    else pure false
  else pure false

section
variable {σ : Type} (sys : DirCalls σ)

/-- The first call of `ListFiles` opens the directory. -/
def openDir (iter : IterDir) (m : Mem) (s : σ) : Res (IterDir × σ) :=
  if iter.dir = 0 then do
    let text ← cString m.read iter.base
    let opened := sys.opendir text s
    pure ({ iter with dir := opened.1 }, opened.2)
  else pure (iter, s)

/-- The body of the loop of `ListFiles`, and what is done when it ends. `readdir_r` reads the stream
through its pointer, also where `opendir` has failed and the pointer is null. -/
def listStep (iter : IterDir) (st : Mem × σ) : Res (Ctl (Mem × σ) (Bool × IterDir × Mem × σ)) :=
  if iter.dir = 0 then .error (.read 0)
  else match sys.readdir iter.dir st.2 with
  | ((error, some d), s) =>
    if error = 0 then do
      let m ← st.1.writeBytes iter.dName (d.dName ++ [0])
      let dots ← isDots iter.dName m
      if dots then pure (.next (m, s))
      else pure (.done (true, { iter with filename := iter.dName, isDir := d.isDir }, m, s))
    else pure (.done (false, { iter with dir := 0 }, st.1, sys.closedir iter.dir s))
  | ((_, none), s) => pure (.done (false, { iter with dir := 0 }, st.1, sys.closedir iter.dir s))

def listFiles (iter : IterDir) (m : Mem) (s : σ) : Res (Bool × IterDir × Mem × σ) := do
  let (iter, s) ← openDir sys iter m s
  whileLoop (listStep sys iter) (m, s)

end

/-! ### The calls -/

theorem Name.eq_of_bytes {n n' : Name} (h : n.bytes = n'.bytes) : n = n' := by
  cases n
  cases n'
  dsimp only at h
  subst h
  rfl

instance : DecidableEq Name := fun _ _ => decidable_of_iff _ ⟨Name.eq_of_bytes, congrArg Name.bytes⟩

/-- What there is at a path: a pipe, a character device, a directory, a block device, a regular
file, a link or a socket. -/
inductive Kind where
  | fifo
  | chr
  | dir
  | blk
  | reg
  | lnk
  | sock
deriving DecidableEq

namespace Kind

/-- `DT_FIFO` to `DT_SOCK`. -/
def dType : Kind → UInt8
  | fifo => 1
  | chr => 2
  | dir => 4
  | blk => 6
  | reg => 8
  | lnk => 10
  | sock => 12

/-- The bit of `DT_DIR` is also in the types of block devices and sockets. -/
def hasDirBit (k : Kind) : Bool := k = dir ∨ k = blk ∨ k = sock

end Kind

/-- `DT_UNKNOWN`. -/
def dtUnknown : UInt8 := 0

/-- The entries are those of the directory, each once, and perhaps `.` and `..`. The type of a file
is given, or it is not known. -/
structure Lists (typed : List Name → Bool) (node : List Name → Option Kind) (ps : List Name)
    (entries : List Dirent) : Prop where
  entry : ∀ d ∈ entries, d.dName = [46] ∨ d.dName = [46, 46] ∨
    ∃ (n : Name) (k : Kind), d.dName = n.bytes ∧ n.bytes.length ≤ 255 ∧ node (ps ++ [n]) = some k ∧
      d.dType = if typed (ps ++ [n]) then k.dType else dtUnknown
  all : ∀ n : Name, node (ps ++ [n]) ≠ none → n.bytes ∈ entries.map Dirent.dName
  once : (entries.map Dirent.dName).Nodup
  count : entries.length < 2 ^ 64

/-- What is open: the directory of a stream, and the entries still to be read. -/
abbrev Streams := Usz → Option (List Name × List Dirent)

/-- What is seen of a state: what there is at a path, what is open, and how many streams that is;
and of which files the file system gives the types, and which directories the program is permitted
to open. -/
structure DirView (σ : Type) where
  node : σ → List Name → Option Kind
  opened : σ → Streams
  used : σ → Nat
  typed : List Name → Bool
  permits : List Name → Bool

section
variable {σ : Type} (sys : DirCalls σ) (absolute : Bool) (fs : DirView σ) (limit : Nat)

/-- A stream is left as it is, unless it has the entry `ps` still to be read. -/
def KeepsStreams (ps : List Name) (open1 open2 : Streams) : Prop :=
  ∀ h qs es, open1 h = some (qs, es) →
    (∀ n : Name, ps = qs ++ [n] → n.bytes ∉ es.map Dirent.dName) → open2 h = some (qs, es)

/-- What is at `ps` has been removed, or nothing has changed. -/
def Tries (ps : List Name) (s : σ) (res : Bool × σ) : Prop :=
  fs.used res.2 = fs.used s ∧
    if res.1 then
      fs.node res.2 ps = none ∧ (∀ qs, qs ≠ ps → fs.node res.2 qs = fs.node s qs) ∧
        (∀ h, fs.opened s h = none → fs.opened res.2 h = none) ∧
        KeepsStreams ps (fs.opened s) (fs.opened res.2)
    else fs.node res.2 = fs.node s ∧ fs.opened res.2 = fs.opened s

/-- There is a directory that can be opened: it is permitted, and fewer than `limit` streams are
open. -/
def Opens (ps : List Name) (s : σ) : Prop :=
  fs.node s ps = some .dir ∧ fs.permits ps ∧ fs.used s < limit

/-- What the calls do. What removes something may fail, and `unlink` does so for a directory. -/
structure DirCalls.Posix : Prop where
  inDir : ∀ s ps n, fs.node s (ps ++ [n]) ≠ none → fs.node s ps = some .dir
  opendir : ∀ s ps text, IsPathText absolute ps text → ps ≠ [] →
    text.length ≤ 4095 → Opens fs limit ps s →
    ∃ dir s' entries, sys.opendir text s = (dir, s') ∧ dir ≠ 0 ∧
    Lists fs.typed (fs.node s) ps entries ∧
      fs.opened s dir = none ∧ fs.node s' = fs.node s ∧
      fs.opened s' = Function.update (fs.opened s) dir (some (ps, entries)) ∧
      fs.used s' = fs.used s + 1
  opendir_fails : ∀ s ps text, IsPathText absolute ps text → ps ≠ [] →
    text.length ≤ 4095 → ¬ Opens fs limit ps s →
    (sys.opendir text s).1 = 0
  readdir : ∀ s dir ps d es, fs.opened s dir = some (ps, d :: es) →
    ∃ s', sys.readdir dir s = ((0, some d), s') ∧
    fs.node s' = fs.node s ∧ fs.opened s' = Function.update (fs.opened s) dir (some (ps, es)) ∧
    fs.used s' = fs.used s
  readdir_nil : ∀ s dir ps, fs.opened s dir = some (ps, []) →
    ∃ s', sys.readdir dir s = ((0, none), s') ∧
    fs.node s' = fs.node s ∧ fs.opened s' = fs.opened s ∧ fs.used s' = fs.used s
  closedir : ∀ s dir, fs.opened s dir ≠ none → fs.node (sys.closedir dir s) = fs.node s ∧
    fs.opened (sys.closedir dir s) = Function.update (fs.opened s) dir none ∧
    fs.used (sys.closedir dir s) + 1 = fs.used s
  unlink : ∀ s ps text k, IsPathText absolute ps text → ps ≠ [] →
    text.length ≤ 4095 → fs.node s ps = some k →
    Tries fs ps s (sys.unlink text s) ∧ (k = .dir → (sys.unlink text s).1 = false)
  rmdir : ∀ s ps text, IsPathText absolute ps text → ps ≠ [] → text.length ≤ 4095 →
    fs.node s ps = some .dir →
    (∀ n, fs.node s (ps ++ [n]) = none) → Tries fs ps s (sys.rmdir text s)

end

/-! ### Names in memory -/

/-- The path with the text `bs`, in the bytes from `base` on. -/
def textAt (base : Ptr) (bs : List UInt8) : String :=
  { path base with writeCur := .ofNat bs.length }

/-- What `PathCString` makes of the text `bs` at `p`. -/
def cStringAt (p : Ptr) (bs : List UInt8) : String :=
  { base := p, writeCur := .ofNat bs.length, size := 0, enc := .utf8 }

section
variable {m : Mem} {p : Ptr} {bs : List UInt8}

theorem pathCString_eq (h : Holds m.read p (bs ++ [0])) (hzero : 0 ∉ bs) (hlen : bs.length ≤ 4095) :
    pathCString p m = .ok (cStringAt p bs) := by
  have hword : (UInt64.ofNat bs.length).toNat = bs.length :=
    UInt64.toNat_ofNat_of_lt_two_pow (by omega)
  have hsize : maxPathSize.toNat = 4096 := rfl
  rw [pathCString, strlen_eq h hzero (by omega), Except.ok_bind,
    if_pos (UInt64.lt_iff_toNat_lt.2 (by omega))]
  rfl

theorem isDots_eq (h : Holds m.read p (bs ++ [0])) (hzero : 0 ∉ bs) :
    isDots p m = .ok (decide (bs = [46] ∨ bs = [46, 46])) := by
  have hread (i : Usz) (b : UInt8) (hget : (bs ++ [0])[i.toNat]? = some b) :
    m.read (p + i) = .ok b := h.read hget
  have hfirst (b : UInt8) (hget : (bs ++ [0])[0]? = some b) : m.read p = .ok b := by
    have hread0 := hread 0 b hget
    rwa [UInt64.add_zero] at hread0
  cases bs with
  | nil => rw [isDots, hfirst 0 rfl]; rfl
  | cons a bs =>
    rw [isDots, hfirst a rfl, Except.ok_bind]
    by_cases ha : a = 46
    · subst ha
      rw [if_pos rfl]
      cases bs with
      | nil => rw [hread 1 0 rfl]; rfl
      | cons b bs =>
        have hb0 : b ≠ 0 := fun h0 => hzero (h0 ▸ List.mem_cons_of_mem _ List.mem_cons_self)
        rw [hread 1 b rfl, Except.ok_bind, if_neg hb0]
        by_cases hb : b = 46
        · subst hb
          rw [if_pos rfl]
          cases bs with
          | nil => rw [hread 2 0 rfl]; rfl
          | cons c bs =>
            have hc0 : c ≠ 0 := fun h0 =>
              hzero (h0 ▸ List.mem_cons_of_mem _ (List.mem_cons_of_mem _ List.mem_cons_self))
            rw [hread 2 c rfl, Except.ok_bind, decide_eq_false hc0, decide_eq_false (by simp)]
            rfl
        · rw [if_neg hb, decide_eq_false (by simp [hb])]
          rfl
    · rw [if_neg ha, decide_eq_false (by simp [ha])]
      rfl

end

/-- The variable `Iter` of a call. -/
structure FrameMem (base : Ptr) (m : Mem) : Prop where
  readable : m.Readable base 4744
  writable : ∀ i : Usz, i.toNat < 4744 → m.writable (base + i)

section
variable {m m1 : Mem} {base dirPath : Ptr} {src : String} {text bs : List UInt8}

theorem FrameMem.same {p : Ptr} {n : Nat} (h : FrameMem base m) (hm : Mem.SameOutside p n m m1) :
    FrameMem base m1 where
  readable := hm.readable h.readable
  writable i hi := by
    rw [hm.writable_eq]
    exact h.writable i hi

theorem FrameMem.joinMem (h : FrameMem base m) (henc : src.enc = .utf8)
    (hread : m.Readable src.base src.writeCur.toNat)
    (hapart : Apart src.base src.writeCur.toNat base 4096) : JoinMem src (textAt base bs) m where
  src_enc := henc
  dst_enc := rfl
  src_readable := hread
  dst_readable i hi := h.readable i (Nat.lt_trans hi (by decide : 4095 < 4744))
  dst_writable i hi :=
    h.writable i (Nat.lt_of_le_of_lt (UInt64.le_iff_toNat_le.1 hi) (by decide : 4095 < 4744))
  small := (by decide : 4095 + 4 < 2 ^ 64)
  apart := hapart

/-- The variable is zero, and then has the path in it. -/
theorem initIterDir_eq (h : FrameMem base m) (hholds : Holds m.read dirPath (text ++ [0]))
    (hlen : text.length ≤ 4095) (hapart : Apart dirPath (text.length + 1) base 4744) :
    ∃ m1 m', m.memset base 0 IterDir.size = .ok m1 ∧
      initIterDir (.zero base) (cStringAt dirPath text) m1 =
        .ok ({ IterDir.zero base with allFiles := textAt base text }, m') ∧
      Holds m'.read base (text ++ [0]) ∧ Mem.SameOutside base 4744 m m' := by
  have hsize : IterDir.size.toNat = 4744 := rfl
  have hword : (UInt64.ofNat text.length).toNat = text.length :=
    UInt64.toNat_ofNat_of_lt_two_pow (by omega)
  have hzeros : (List.replicate 4744 (0 : UInt8)).length = 4744 := List.length_replicate
  have hset : m.memset base 0 IterDir.size = .ok (m.store base (List.replicate 4744 0)) := by
    rw [Mem.memset, hsize]
    exact Mem.writeBytes_eq (by rw [hzeros]; exact h.writable) (by rw [hzeros]; decide)
  have hpath : Holds (m.store base (List.replicate 4744 0)).read dirPath (text ++ [0]) := by
    refine Mem.reads_store hholds ?_ (Nat.le_of_eq hzeros)
    rw [List.length_append, List.length_singleton]
    exact hapart
  have hread := Mem.readable_of_reads hpath.of_append
  rw [← hword] at hread
  have hcap : (path base).size.toNat = 4095 := rfl
  have hwritable : Writable (m.store base (List.replicate 4744 0)) (path base) :=
    .of_storage rfl rfl (Nat.zero_le _) (by rw [hcap]; decide) fun i hi => h.writable i (by omega)
  have hspec := @appendStringToString_spec _ (cStringAt dirPath text) _ hwritable rfl
    hread
  rw [stringBytes_of_holds hpath.of_append hword] at hspec
  have happend := hspec.of_le (by rw [String.room, hcap]; exact hlen)
  have hfirst : (path base).base + (path base).writeCur = base + 0 := rfl
  have hgrown : (path base).grown text.length = textAt base text := by
    rw [String.grown, textAt]
    exact congrArg (fun w => ({ path base with writeCur := w } : String)) (UInt64.zero_add _)
  have hwithin : (0 : Usz).toNat + text.length ≤ (List.replicate 4744 (0 : UInt8)).length := by
    rw [hzeros, UInt64.toNat_zero]
    omega
  have hrest : (List.replicate 4744 (0 : UInt8)).drop ((0 : Usz).toNat + text.length) =
      0 :: List.replicate (4743 - text.length) 0 := by
    rw [List.drop_replicate, UInt64.toNat_zero, Nat.zero_add, ← List.replicate_succ]
    congr 1
    omega
  rw [hgrown, hfirst, Mem.store_within hwithin (by rw [hzeros]; decide),
    UInt64.toNat_zero, List.take_zero, List.nil_append] at happend
  rw [UInt64.toNat_zero] at hrest
  rw [hrest] at happend
  have hall : (text ++ 0 :: List.replicate (4743 - text.length) 0).length = 4744 := by
    rw [List.length_append, List.length_cons, List.length_replicate]
    omega
  have hclear (m : Mem) : clearBuffer (IterDir.zero base).allFiles.toBuffer m =
      .ok ((IterDir.zero base).allFiles.toBuffer, m) :=
    if_neg (not_not.2 rfl)
  refine ⟨_, m.store base (text ++ 0 :: List.replicate (4743 - text.length) 0), hset, ?_, ?_, ?_⟩
  · rw [initIterDir, hclear, Except.ok_bind]
    dsimp only
    rw [show (IterDir.zero base).base = base from rfl, happend]
    rfl
  · have hbytes : text ++ 0 :: List.replicate (4743 - text.length) 0 =
        (text ++ [0]) ++ List.replicate (4743 - text.length) 0 := by
      rw [List.append_assoc]
      rfl
    have hstored :
        Holds (m.store base (text ++ 0 :: List.replicate (4743 - text.length) 0)).read base
        (text ++ 0 :: List.replicate (4743 - text.length) 0) :=
          Mem.holds_store (by rw [hall]; exact h.readable)
    rw [hbytes] at hstored ⊢
    exact hstored.of_append
  · exact .store m fun a ha => by rwa [hall] at ha

end

/-! ### Listing -/

/-- An entry that `ListFiles` passes over. -/
def Dirent.IsDots (d : Dirent) : Prop := d.dName = [46] ∨ d.dName = [46, 46]

section
variable {σ : Type} {sys : DirCalls σ} {absolute : Bool} {fs : DirView σ} {limit : Nat}
  {frame : Nat → Ptr} {levels depth : Nat} {ps : List Name} {es : List Dirent} {d : Dirent}
  {iter : IterDir} {m m1 : Mem} {s : σ}

theorem Lists.entry_fits (h : Lists fs.typed (fs.node s) ps es) (d : Dirent) (hd : d ∈ es) :
    0 ∉ d.dName ∧ d.dName.length ≤ 255 := by
  rcases h.entry d hd with hname | hname | ⟨n, k, hname, hlen, -⟩
  · rw [hname]
    decide
  · rw [hname]
    decide
  · rw [hname]
    exact ⟨n.no_zero, hlen⟩

/-- What is taken for a directory. -/
theorem isDir_eq {typed : Bool} {k : Kind}
    (htype : d.dType = if typed then k.dType else dtUnknown) :
    d.isDir = (typed && k.hasDirBit) := by
  rw [Dirent.isDir, htype]
  cases typed <;> cases k <;> decide

/-- The name of an entry is stored behind the pointers. -/
theorem storeName_eq (h : FrameMem iter.base m) (hlen : d.dName.length ≤ 255) : ∃ m',
    m.writeBytes iter.dName (d.dName ++ [0]) = .ok m' ∧ Holds m'.read iter.dName (d.dName ++ [0]) ∧
      Mem.SameOutside iter.dName 256 m m' := by
  have hbytes : (d.dName ++ [0]).length ≤ 256 := by
    rw [List.length_append, List.length_singleton]
    omega
  have hat : (4171 : Usz).toNat = 4171 := rfl
  have hsum (i : Usz) (hi : i.toNat < (d.dName ++ [0]).length) : (4171 + i).toNat < 4744 := by
    rw [UInt64.toNat_add_of_lt (by omega)]
    omega
  refine ⟨_, Mem.writeBytes_eq (fun i hi => ?_) (by omega), Mem.holds_store fun i hi => ?_, ?_⟩
  · rw [IterDir.dName, UInt64.add_assoc]
    exact h.writable _ (hsum i hi)
  · rw [IterDir.dName, UInt64.add_assoc]
    exact h.readable _ (hsum i hi)
  · exact .store m fun a ha => Nat.lt_of_lt_of_le ha hbytes

/-- Where `ListFiles` has come to: the entries in front of `es'` have been passed over. -/
structure Skips (fs : DirView σ) (iter : IterDir) (ps : List Name) (es : List Dirent)
    (m : Mem) (s : σ) (es' : List Dirent) (st : Mem × σ) : Prop where
  split : ∃ dots, es = dots ++ es' ∧ ∀ d ∈ dots, d.IsDots
  same : Mem.SameOutside iter.dName 256 m st.1
  node_eq : fs.node st.2 = fs.node s
  opened_eq : fs.opened st.2 = Function.update (fs.opened s) iter.dir (some (ps, es'))
  used_eq : fs.used st.2 = fs.used s

/-- What `ListFiles` returns for an open stream: the first entry that is not passed over, or false
at the end. -/
def ListsNext (fs : DirView σ) (iter : IterDir) (ps : List Name)
    (es : List Dirent) (m : Mem) (s : σ) (res : Bool × IterDir × Mem × σ) : Prop :=
  Mem.SameOutside iter.dName 256 m res.2.2.1 ∧ fs.node res.2.2.2 = fs.node s ∧
    if res.1 then ∃ d es', (∃ dots, es = dots ++ d :: es' ∧ ∀ d ∈ dots, d.IsDots) ∧ ¬ d.IsDots ∧
      res.2.1 = { iter with filename := iter.dName, isDir := d.isDir } ∧
      Holds res.2.2.1.read iter.dName (d.dName ++ [0]) ∧
      fs.opened res.2.2.2 = Function.update (fs.opened s) iter.dir (some (ps, es')) ∧
      fs.used res.2.2.2 = fs.used s
    else res.2.1 = { iter with dir := 0 } ∧ (∀ d ∈ es, d.IsDots) ∧
      fs.opened res.2.2.2 = Function.update (fs.opened s) iter.dir none ∧
      fs.used res.2.2.2 + 1 = fs.used s

theorem Skips.step (hsys : sys.Posix absolute fs limit) (h : FrameMem iter.base m)
    (hdir : iter.dir ≠ 0) (hshort : ∀ d ∈ es, 0 ∉ d.dName ∧ d.dName.length ≤ 255)
    {es' : List Dirent} {st : Mem × σ} (hst : Skips fs iter ps es m s es' st) :
    (listStep sys iter st).wp
      (Ctl.Post (fun st' => ∃ es1, es1.length < es'.length ∧ Skips fs iter ps es m s es1 st')
        (ListsNext fs iter ps es m s)) := by
  obtain ⟨dots, hes, hdots⟩ := hst.split
  have hopen : fs.opened st.2 iter.dir = some (ps, es') := by
    rw [hst.opened_eq, Function.update_self]
  cases es' with
  | nil =>
    obtain ⟨s1, hread, hnode, hopened, hused⟩ := hsys.readdir_nil _ _ _ hopen
    obtain ⟨hclose, hclosed, hused'⟩ :=
      hsys.closedir s1 iter.dir (by rw [hopened, hopen]; exact Option.some_ne_none _)
    rw [List.append_nil] at hes
    rw [listStep, if_neg hdir, hread]
    refine ⟨hst.same, hclose.trans (hnode.trans hst.node_eq), ?_⟩
    rw [if_neg Bool.false_ne_true]
    refine ⟨rfl, hes ▸ hdots, ?_, hused'.trans (hused.trans hst.used_eq)⟩
    rw [hclosed, hopened, hst.opened_eq, Function.update_idem]
  | cons d es' =>
    obtain ⟨s1, hread, hnode, hopened, hused⟩ := hsys.readdir _ _ _ _ _ hopen
    rw [hst.opened_eq, Function.update_idem] at hopened
    obtain ⟨hzero, hlen⟩ := hshort d (hes ▸ List.mem_append_right _ List.mem_cons_self)
    obtain ⟨m', hstore, hholds, hsame⟩ := @storeName_eq d iter st.1 (h.same hst.same) hlen
    have hname := isDots_eq hholds hzero
    rw [listStep, if_neg hdir, hread]
    dsimp only
    rw [if_pos rfl, hstore, Except.ok_bind, hname, Except.ok_bind]
    by_cases hd : d.dName = [46] ∨ d.dName = [46, 46]
    · rw [if_pos (decide_eq_true hd)]
      refine ⟨es', Nat.lt_succ_self _, ⟨dots ++ [d], ?_, ?_⟩, hst.same.trans hsame,
        hnode.trans hst.node_eq, hopened, hused.trans hst.used_eq⟩
      · rw [List.append_assoc, List.singleton_append]
        exact hes
      · exact fun d' hd' => (List.mem_append.1 hd').elim (hdots d') fun hd' =>
          List.mem_singleton.1 hd' ▸ hd
    · rw [if_neg (by rw [decide_eq_true_iff]; exact hd)]
      refine ⟨hst.same.trans hsame, hnode.trans hst.node_eq, ?_⟩
      dsimp only
      rw [if_pos rfl]
      exact ⟨d, es', ⟨dots, hes, hdots⟩, hd, rfl, hholds, hopened, hused.trans hst.used_eq⟩

theorem listFiles_opened (hsys : sys.Posix absolute fs limit) (h : FrameMem iter.base m)
    (hdir : iter.dir ≠ 0) (hopen : fs.opened s iter.dir = some (ps, es))
    (hshort : ∀ d ∈ es, 0 ∉ d.dName ∧ d.dName.length ≤ 255) (hcount : es.length < 2 ^ 64) :
    (listFiles sys iter m s).wp (ListsNext fs iter ps es m s) := by
  rw [listFiles, openDir, if_neg hdir]
  refine wp_whileLoop_of_bound (fun k st => ∃ es', es'.length = k ∧ Skips fs iter ps es m s es' st)
    ?_ ⟨es, rfl, ⟨[], rfl, by simp⟩, .refl _ _ m, rfl, ?_, rfl⟩ hcount
  · rintro _ st ⟨es', rfl, hst⟩
    refine (hst.step hsys h hdir hshort).mono fun c hc => ?_
    cases c with
    | next st' =>
      obtain ⟨es1, hlt, hst'⟩ := hc
      exact ⟨es1.length, hlt, es1, rfl, hst'⟩
    | done res => exact hc
  · rw [← hopen, Function.update_eq_self]

end

/-! ### All entries -/

/-- The name, if it is one. -/
def Name.ofBytes (bs : List UInt8) : Option Name :=
  if h : bs ≠ [] ∧ 47 ∉ bs ∧ 0 ∉ bs ∧ bs ≠ [46] ∧ bs ≠ [46, 46] then
    some ⟨bs, h.1, h.2.1, h.2.2.1, h.2.2.2.1, h.2.2.2.2⟩
  else none

/-- What the entries say of the files in the directory: which they are, and which are taken for
directories. -/
def listed (es : List Dirent) : List (Name × Bool) :=
  es.filterMap fun d => (Name.ofBytes d.dName).map fun n => (n, d.isDir)

/-- What is stored of the directory: the variable has its path, and it is not open. -/
structure Closed {σ : Type} (base : Ptr) (text : List UInt8) (st : IterDir × Mem × σ) : Prop where
  base_eq : st.1.base = base
  dir_eq : st.1.dir = 0
  frame : FrameMem base st.2.1
  holds : Holds st.2.1.read base (text ++ [0])

/-- The directory is open, and has the last of `all` its entries still to be read, `es`. -/
structure Listing {σ : Type} (fs : DirView σ) (base : Ptr) (text : List UInt8) (ps : List Name)
    (s0 : σ) (all es : List Dirent) (st : IterDir × Mem × σ) : Prop where
  base_eq : st.1.base = base
  dir_ne : st.1.dir ≠ 0
  fresh : fs.opened s0 st.1.dir = none
  frame : FrameMem base st.2.1
  holds : Holds st.2.1.read base (text ++ [0])
  opened_eq : fs.opened st.2.2 = Function.update (fs.opened s0) st.1.dir (some (ps, es))
  suffix : es <:+ all
  node_eq : fs.node st.2.2 = fs.node s0
  used_eq : fs.used st.2.2 = fs.used s0 + 1

section
variable {typed : List Name → Bool} {node : List Name → Option Kind} {ps : List Name}
  {es dots : List Dirent} {d : Dirent} {n : Name} {b : Bool}

theorem Name.ofBytes_bytes (n : Name) : Name.ofBytes n.bytes = some n :=
  dif_pos ⟨n.ne_nil, n.no_slash, n.no_zero, n.ne_dot, n.ne_dots⟩

theorem Name.ofBytes_eq_some_iff {bs : List UInt8} : Name.ofBytes bs = some n ↔ bs = n.bytes := by
  refine ⟨fun h => ?_, fun h => h ▸ n.ofBytes_bytes⟩
  rw [Name.ofBytes] at h
  split_ifs at h
  cases h
  rfl

theorem mem_listed_iff : (n, b) ∈ listed es ↔ ∃ d ∈ es, d.dName = n.bytes ∧ d.isDir = b := by
  simp only [listed, List.mem_filterMap, Option.map_eq_some_iff,
    Name.ofBytes_eq_some_iff, Prod.mk.injEq]
  constructor
  · rintro ⟨d, hd, n', hname, rfl, hb⟩
    exact ⟨d, hd, hname, hb⟩
  · rintro ⟨d, hd, hname, hb⟩
    exact ⟨d, hd, n, hname, rfl, hb⟩

theorem listed_append (es es' : List Dirent) : listed (es ++ es') = listed es ++ listed es' :=
  List.filterMap_append

theorem listed_cons (hd : d.dName = n.bytes) (es : List Dirent) :
    listed (d :: es) = (n, d.isDir) :: listed es := by
  rw [listed, List.filterMap_cons_some]
  · rfl
  · rw [hd, n.ofBytes_bytes]
    rfl

theorem listed_dots (hdots : ∀ d ∈ es, d.IsDots) : listed es = [] := by
  refine List.eq_nil_iff_forall_not_mem.2 fun x hx => ?_
  obtain ⟨d, hd, hname, -⟩ := mem_listed_iff.1 hx
  rcases hdots d hd with hdot | hdot
  · exact x.1.ne_dot (hname.symm.trans hdot)
  · exact x.1.ne_dots (hname.symm.trans hdot)

end

section
variable {σ : Type} {sys : DirCalls σ} {absolute : Bool} {fs : DirView σ} {limit : Nat}
  {base : Ptr} {text : List UInt8} {ps : List Name} {all es : List Dirent}
  {s0 : σ} {st : IterDir × Mem × σ}

/-- What a caller of `ListFiles` sees: the name of the file, and whether it is a directory. -/
def nextFile (sys : DirCalls σ) (st : IterDir × Mem × σ) :
    Res (Option (List UInt8 × Bool) × IterDir × Mem × σ) := do
  let (more, iter, m, s) ← listFiles sys st.1 st.2.1 st.2.2
  if more then do
    let name ← cString m.read iter.filename
    pure (some (name, iter.isDir), iter, m, s)
  else pure (none, iter, m, s)

/-- What of it a caller sees. -/
def shown (x : Name × Bool) : List UInt8 × Bool := (x.1.bytes, x.2)

theorem Listing.next (h : Listing fs base text ps s0 all es st) (hsys : sys.Posix absolute fs limit)
    (hlen : text.length ≤ 4095) (hlists : Lists fs.typed (fs.node s0) ps all) :
    (nextFile sys st).wp fun r =>
      (∃ x es', listed es = x :: listed es' ∧ r.1 = some (shown x) ∧
        Listing fs base text ps s0 all es' r.2) ∨
      listed es = [] ∧ r.1 = none ∧ Closed base text r.2 ∧ fs.node r.2.2.2 = fs.node s0 ∧
      fs.opened r.2.2.2 = fs.opened s0 ∧
        fs.used r.2.2.2 = fs.used s0 := by
  have hframe : FrameMem st.1.base st.2.1 := h.base_eq ▸ h.frame
  have hopen : fs.opened st.2.2 st.1.dir = some (ps, es) := by
    rw [h.opened_eq, Function.update_self]
  obtain ⟨⟨more, iter, m1, s1⟩, hlist, hsame, hnode, hres⟩ :=
    Except.wp_iff.1 (listFiles_opened hsys hframe h.dir_ne hopen
      (fun d hd => hlists.entry_fits d (h.suffix.mem hd))
      (Nat.lt_of_le_of_lt h.suffix.length_le hlists.count))
  dsimp only at hsame hnode hres
  have hholds : Holds m1.read base (text ++ [0]) := by
    have hat : (4171 : Usz).toNat = 4171 := rfl
    rw [← h.base_eq]
    refine hsame.holds (h.base_eq ▸ h.holds) (apart_add ?_ (by omega))
    rw [List.length_append, List.length_singleton]
    omega
  have hframe1 := h.frame.same hsame
  rw [nextFile, hlist, Except.ok_bind]
  dsimp only
  cases more with
  | false =>
    obtain ⟨hiter, hdots, hopened, hused⟩ := hres
    refine .inr ⟨listed_dots hdots, rfl, ⟨?_, ?_, hframe1, hholds⟩, hnode.trans h.node_eq, ?_, ?_⟩
    · rw [hiter]
      exact h.base_eq
    · rw [hiter]
    · rw [hopened, h.opened_eq, Function.update_idem, ← h.fresh, Function.update_eq_self]
    · exact Nat.succ_inj.1 (hused.trans h.used_eq)
  | true =>
    obtain ⟨d, es', ⟨dots, hes, hdots⟩, hd, hiter, hname, hopened, hused⟩ := hres
    have hsuffix : d :: es' <:+ all :=
      (hes ▸ List.suffix_append dots (d :: es') : d :: es' <:+ es).trans h.suffix
    obtain ⟨n, k, hn, hshort, -⟩ :=
      (or_assoc.2 (hlists.entry d (hsuffix.mem List.mem_cons_self))).resolve_left hd
    rw [hn] at hname
    have hcString : cString m1.read iter.filename = .ok n.bytes := by
      rw [hiter]
      exact cString_eq hname n.no_zero (by omega)
    have hlisted : listed es = (n, d.isDir) :: listed es' := by
      rw [hes, listed_append, listed_dots hdots, List.nil_append, listed_cons hn]
    rw [if_pos rfl, hcString]
    refine .inl ⟨(n, d.isDir), es', hlisted, ?_, ?_, ?_, ?_, hframe1, hholds, ?_,
      (List.suffix_cons d es').trans hsuffix, hnode.trans h.node_eq, hused.trans h.used_eq⟩
    · rw [hiter]
      rfl
    · rw [hiter]
      exact h.base_eq
    · rw [hiter]
      exact h.dir_ne
    · rw [hiter]
      exact h.fresh
    · rw [hopened, h.opened_eq, Function.update_idem, hiter]

end

/-! ### A file system

The files in the current directory, and two streams. -/

structure Volume where
  files : List (List Name × Kind)
  once : (files.map Prod.fst).Nodup
  inDir : ∀ f ∈ files, f.1.dropLast = [] ∨ (f.1.dropLast, Kind.dir) ∈ files
  short : ∀ f ∈ files, ∀ n ∈ f.1, n.bytes.length ≤ 255
  count : files.length + 2 < 2 ^ 64
  streams : Bool → Option (List Name × List Dirent)

namespace Volume

def handle (b : Bool) : Usz := if b then 2 else 1

def setStream (v : Volume) (b : Bool) (x : Option (List Name × List Dirent)) : Volume :=
  { v with streams := Function.update v.streams b x }

/-- Nothing is in `ps`. -/
def Leaf (v : Volume) (ps : List Name) : Prop := ∀ f ∈ v.files, f.1.dropLast ≠ ps

instance (v : Volume) (ps : List Name) : Decidable (v.Leaf ps) :=
  inferInstanceAs (Decidable (∀ _ ∈ _, _))

def remove (v : Volume) (ps : List Name) (hleaf : v.Leaf ps) : Volume where
  files := v.files.filter (·.1 ≠ ps)
  once := v.once.sublist (List.filter_sublist.map Prod.fst)
  inDir f hf := by
    have hmem := (List.mem_filter.1 hf).1
    exact (v.inDir f hmem).imp_right fun hdir =>
      List.mem_filter.2 ⟨hdir, decide_eq_true (hleaf f hmem)⟩
  short f hf := v.short f (List.mem_filter.1 hf).1
  count := Nat.lt_of_le_of_lt (Nat.add_le_add_right (List.length_filter_le _ _) 2) v.count
  streams := v.streams

def node (v : Volume) (ps : List Name) : Option Kind :=
  if ps = [] then some .dir else (v.files.find? (·.1 = ps)).map Prod.snd

/-- The name in `ps`, of a file in it. -/
def childOf (ps qs : List Name) : Option Name := if qs.dropLast = ps then qs.getLast? else none

def entries (v : Volume) (ps : List Name) : List Dirent :=
  ⟨dtDir, [46]⟩ :: ⟨dtDir, [46, 46]⟩ ::
    v.files.filterMap fun f => (childOf ps f.1).map fun n => ⟨f.2.dType, n.bytes⟩

def opened (v : Volume) (dir : Usz) : Option (List Name × List Dirent) :=
  if dir = handle false then v.streams false else if dir = handle true then v.streams true else none

def used (v : Volume) : Nat := (v.streams false).toList.length + (v.streams true).toList.length

def view : DirView Volume where
  node := node
  opened := opened
  used := used
  typed _ := true
  permits _ := true

/-- The path that the text is one of. -/
def find (v : Volume) (text : List UInt8) : Option (List Name) :=
  (v.files.map Prod.fst).find? fun ps => ps.map Name.bytes = segments text

def free (v : Volume) : Option Bool := [false, true].find? fun b => (v.streams b).isNone

def opendir (text : List UInt8) (v : Volume) : Usz × Volume :=
  match v.find text with
  | none => (0, v)
  | some ps =>
    if v.node ps = some .dir then
      match v.free with
      | none => (0, v)
      | some b => (handle b, v.setStream b (some (ps, v.entries ps)))
    else (0, v)

def readdir (dir : Usz) (v : Volume) : (UInt32 × Option Dirent) × Volume :=
  match v.opened dir with
  | some (ps, d :: es) => ((0, some d), v.setStream (dir = handle true) (some (ps, es)))
  | _ => ((0, none), v)

def tryRemove (v : Volume) (ps : List Name) (ok : Bool) : Bool × Volume :=
  if h : ok ∧ v.Leaf ps then (true, v.remove ps h.2) else (false, v)

def calls : DirCalls Volume where
  opendir := opendir
  readdir := readdir
  closedir dir v := v.setStream (dir = handle true) none
  unlink text v :=
    ((v.find text).map fun ps => v.tryRemove ps (v.node ps ≠ some .dir)).getD (false, v)
  rmdir text v :=
    ((v.find text).map fun ps => v.tryRemove ps (v.node ps = some .dir)).getD (false, v)

section
variable {v : Volume} {ps qs : List Name} {n : Name} {k : Kind} {text : List UInt8}
  {dir : Usz} {es : List Dirent} {b : Bool} {x : Option (List Name × List Dirent)}

theorem find?_eq_some_iff {files : List (List Name × Kind)} (honce : (files.map Prod.fst).Nodup) :
    (files.find? (·.1 = ps)).map Prod.snd = some k ↔ (ps, k) ∈ files := by
  rw [Option.map_eq_some_iff]
  constructor
  · rintro ⟨f, hf, rfl⟩
    have hps := List.find?_some hf
    rw [decide_eq_true_iff] at hps
    exact hps ▸ List.mem_of_find?_eq_some hf
  · intro hmem
    have hsome : (files.find? (·.1 = ps)).isSome := List.find?_isSome.2 ⟨_, hmem, by simp⟩
    obtain ⟨f, hf⟩ := Option.isSome_iff_exists.1 hsome
    have hps := List.find?_some hf
    rw [decide_eq_true_iff] at hps
    have heq : f = (ps, k) := List.inj_on_of_nodup_map honce (List.mem_of_find?_eq_some hf) hmem hps
    exact ⟨f, hf, congrArg Prod.snd heq⟩

theorem node_eq_some_iff (hne : ps ≠ []) : v.node ps = some k ↔ (ps, k) ∈ v.files := by
  rw [node, if_neg hne, find?_eq_some_iff v.once]

theorem childOf_eq_some_iff : childOf ps qs = some n ↔ qs = ps ++ [n] := by
  rw [childOf]
  constructor
  · intro h
    split_ifs at h with hps
    obtain ⟨rs, rfl⟩ := List.getLast?_eq_some_iff.1 h
    rw [← hps, List.dropLast_concat]
  · rintro rfl
    rw [List.dropLast_concat, if_pos rfl, List.getLast?_concat]

theorem mem_entries_iff {d : Dirent} :
    d ∈ v.entries ps ↔ d = ⟨dtDir, [46]⟩ ∨ d = ⟨dtDir, [46, 46]⟩ ∨
    ∃ n k, (ps ++ [n], k) ∈ v.files ∧ d = ⟨k.dType, n.bytes⟩ := by
  rw [entries, List.mem_cons, List.mem_cons, List.mem_filterMap]
  refine or_congr_right (or_congr_right ⟨?_, ?_⟩)
  · rintro ⟨⟨qs, k⟩, hmem, hd⟩
    obtain ⟨n, hn, rfl⟩ := Option.map_eq_some_iff.1 hd
    rw [childOf_eq_some_iff] at hn
    exact ⟨n, k, hn ▸ hmem, rfl⟩
  · rintro ⟨n, k, hmem, rfl⟩
    exact ⟨_, hmem, by rw [childOf_eq_some_iff.2 rfl]; rfl⟩

theorem lists (v : Volume) (ps : List Name) : Lists view.typed v.node ps (v.entries ps) where
  entry d hd := by
    rcases mem_entries_iff.1 hd with rfl | rfl | ⟨n, k, hmem, rfl⟩
    · exact .inl rfl
    · exact .inr (.inl rfl)
    · exact .inr (.inr ⟨n, k, rfl, v.short _ hmem n (List.mem_append_right _ List.mem_cons_self),
        (node_eq_some_iff (by simp)).2 hmem, rfl⟩)
  all n hne := by
    obtain ⟨k, hk⟩ := Option.ne_none_iff_exists'.1 hne
    rw [node_eq_some_iff (by simp)] at hk
    exact List.mem_map_of_mem (mem_entries_iff.2 (.inr (.inr ⟨n, k, hk, rfl⟩)))
  once := by
    have hchild :
        ((v.files.filterMap fun f => (childOf ps f.1).map fun n =>
          (⟨f.2.dType, n.bytes⟩ : Dirent)).map
        Dirent.dName) = ((v.files.map Prod.fst).filterMap (childOf ps)).map Name.bytes := by
      rw [List.map_filterMap, List.filterMap_map, List.map_filterMap]
      refine congrArg (List.filterMap · v.files) (funext fun f => ?_)
      cases hf : childOf ps f.1 <;> simp [hf]
    have hnodup : ((v.files.map Prod.fst).filterMap (childOf ps)).Nodup := by
      refine v.once.filterMap fun qs rs n hq hr => ?_
      rw [childOf_eq_some_iff.1 hq, childOf_eq_some_iff.1 hr]
    have hnames : (((v.files.map Prod.fst).filterMap (childOf ps)).map Name.bytes).Nodup :=
      hnodup.map fun _ _ => Name.eq_of_bytes
    rw [entries, List.map_cons, List.map_cons, hchild, List.nodup_cons,
      List.nodup_cons, List.mem_cons]
    refine ⟨?_, ?_, hnames⟩
    · rintro (hdots | hmem)
      · exact absurd hdots (by decide)
      · obtain ⟨n, -, hn⟩ := List.mem_map.1 hmem
        exact n.ne_dot hn
    · intro hmem
      obtain ⟨n, -, hn⟩ := List.mem_map.1 hmem
      exact n.ne_dots hn
  count := by
    refine Nat.lt_of_le_of_lt ?_ v.count
    rw [entries, List.length_cons, List.length_cons]
    exact Nat.add_le_add_right (List.length_filterMap_le _ _) 2

theorem find_eq (htext : IsPathText false ps text) (hne : ps ≠ []) :
    v.find text = if ps ∈ v.files.map Prod.fst then some ps else none := by
  have hseg : segments text = ps.map Name.bytes := (Directories.segments_eq htext hne).2
  have hinj : ∀ qs : List Name, qs.map Name.bytes = segments text ↔ qs = ps := fun qs => by
    rw [hseg]
    exact (List.map_injective_iff.2 fun _ _ => Name.eq_of_bytes).eq_iff
  rw [find]
  split_ifs with hmem
  · have hsome :
        ((v.files.map Prod.fst).find? fun qs => qs.map Name.bytes = segments text).isSome :=
      List.find?_isSome.2 ⟨ps, hmem, decide_eq_true ((hinj ps).2 rfl)⟩
    obtain ⟨qs, hqs⟩ := Option.isSome_iff_exists.1 hsome
    have heq := List.find?_some hqs
    rw [decide_eq_true_iff, hinj] at heq
    rw [hqs, heq]
  · refine List.find?_eq_none.2 fun qs hqs hdec => hmem ?_
    rw [decide_eq_true_iff, hinj] at hdec
    exact hdec ▸ hqs

theorem find_of_node (htext : IsPathText false ps text) (hne : ps ≠ [])
    (hnode : v.node ps = some k) : v.find text = some ps := by
  rw [find_eq htext hne,
    if_pos (List.mem_map_of_mem (f := Prod.fst) ((node_eq_some_iff hne).1 hnode))]

theorem opened_setStream (v : Volume) (b : Bool) (x : Option (List Name × List Dirent)) :
    (v.setStream b x).opened = Function.update v.opened (handle b) x := by
  funext dir
  rw [Function.update_apply]
  cases b <;> simp only [opened, setStream, handle, Function.update_apply] <;> split_ifs <;>
    simp_all

theorem of_opened {y : List Name × List Dirent} (h : v.opened dir = some y) :
    handle (dir = handle true) = dir ∧ v.streams (dir = handle true) = some y := by
  rw [opened] at h
  split_ifs at h with hfalse htrue
  · subst hfalse
    exact ⟨rfl, h⟩
  · subst htrue
    exact ⟨rfl, h⟩

theorem used_setStream (v : Volume) (b : Bool) (x : Option (List Name × List Dirent)) :
    (v.setStream b x).used + (v.streams b).toList.length = v.used + x.toList.length := by
  cases b <;> simp [used, setStream] <;> omega

theorem free_eq_none_iff : v.free = none ↔ 2 ≤ v.used := by
  rw [free, used]
  cases hfalse : v.streams false <;> cases htrue : v.streams true <;> simp [hfalse, htrue]

theorem of_free (h : v.free = some b) : v.streams b = none := by
  have hnone := List.find?_some h
  rwa [Option.isNone_iff_eq_none] at hnone

theorem opens_iff : Opens view 2 ps v ↔ v.node ps = some .dir ∧ v.free ≠ none := by
  refine and_congr_right fun _ => ?_
  rw [Ne, free_eq_none_iff, Nat.not_le]
  exact and_iff_right rfl

theorem node_remove (hleaf : v.Leaf ps) (hne : ps ≠ []) :
    (v.remove ps hleaf).node ps = none ∧ ∀ qs, qs ≠ ps →
      (v.remove ps hleaf).node qs = v.node qs := by
  have hmem (qs : List Name) (k : Kind) : (qs, k) ∈ (v.remove ps hleaf).files ↔
      (qs, k) ∈ v.files ∧ qs ≠ ps :=
    List.mem_filter.trans (and_congr_right fun _ => decide_eq_true_iff)
  refine ⟨Option.eq_none_iff_forall_ne_some.2 fun k hk => ?_, fun qs hqs => Option.ext fun k => ?_⟩
  · rw [node_eq_some_iff hne, hmem] at hk
    exact hk.2 rfl
  · by_cases hnil : qs = []
    · rw [hnil]
      rfl
    · rw [node_eq_some_iff hnil, node_eq_some_iff hnil, hmem, and_iff_left hqs]

theorem tries_tryRemove (hne : ps ≠ []) (ok : Bool) : Tries view ps v (v.tryRemove ps ok) := by
  rw [tryRemove]
  split_ifs with h
  · obtain ⟨hnone, hkept⟩ := node_remove h.2 hne
    refine ⟨rfl, ?_⟩
    rw [if_pos rfl]
    exact ⟨hnone, hkept, fun _ h => h, fun _ _ _ h _ => h⟩
  · exact ⟨rfl, rfl, rfl⟩

theorem node_parent (h : v.node (ps ++ [n]) ≠ none) : v.node ps = some .dir := by
  obtain ⟨k, hk⟩ := Option.ne_none_iff_exists'.1 h
  rw [node_eq_some_iff (by simp)] at hk
  have hparent := v.inDir _ hk
  rw [List.dropLast_concat] at hparent
  by_cases hnil : ps = []
  · rw [node, if_pos hnil]
  · exact (node_eq_some_iff hnil).2 (hparent.resolve_left hnil)

end

theorem posix : calls.Posix false view 2 where
  inDir _ _ _ h := node_parent h
  opendir v ps text htext hne _ hopens := by
    obtain ⟨hnode, hfree⟩ := opens_iff.1 hopens
    obtain ⟨b, hb⟩ := Option.ne_none_iff_exists'.1 hfree
    have hstream := of_free hb
    have hused := used_setStream v b (some (ps, v.entries ps))
    rw [hstream] at hused
    refine ⟨handle b, v.setStream b (some (ps, v.entries ps)), v.entries ps, ?_,
      by cases b <;> decide, lists v ps, ?_, rfl, opened_setStream v b _, hused⟩
    · show opendir text v = _
      simp only [opendir, find_of_node htext hne hnode, if_pos hnode, hb]
    · cases b <;> exact hstream
  opendir_fails v ps text htext hne _ hopens := by
    show (opendir text v).1 = 0
    rw [opens_iff] at hopens
    rw [opendir, find_eq htext hne]
    split_ifs
    · dsimp only
      split_ifs with hnode
      · have hfree : v.free = none := not_not.1 fun hfree => hopens ⟨hnode, hfree⟩
        rw [hfree]
      · rfl
    · rfl
  readdir v dir ps d es h := by
    obtain ⟨hhandle, hstream⟩ := of_opened h
    have hopened := opened_setStream v (dir = handle true) (some (ps, es))
    have hused := used_setStream v (dir = handle true) (some (ps, es))
    rw [hhandle] at hopened
    rw [hstream] at hused
    have h' : v.opened dir = some (ps, d :: es) := h
    refine ⟨v.setStream (dir = handle true) (some (ps, es)), ?_, rfl, hopened, Nat.succ_inj.1 hused⟩
    show readdir dir v = _
    simp only [readdir, h']
  readdir_nil v dir ps h := by
    have h' : v.opened dir = some (ps, []) := h
    refine ⟨v, ?_, rfl, rfl, rfl⟩
    show readdir dir v = _
    simp only [readdir, h']
  closedir v dir h := by
    obtain ⟨y, hy⟩ := Option.ne_none_iff_exists'.1 h
    obtain ⟨hhandle, hstream⟩ := of_opened hy
    have hopened := opened_setStream v (dir = handle true) none
    have hused := used_setStream v (dir = handle true) none
    rw [hhandle] at hopened
    rw [hstream] at hused
    exact ⟨rfl, hopened, hused⟩
  unlink v ps text k htext hne _ hnode := by
    have hcall : calls.unlink text v = v.tryRemove ps (v.node ps ≠ some .dir) := by
      show ((v.find text).map _).getD _ = _
      rw [find_of_node htext hne hnode]
      rfl
    rw [hcall]
    refine ⟨tries_tryRemove hne _, fun hdir => ?_⟩
    rw [tryRemove, dif_neg]
    rintro ⟨hok, -⟩
    rw [decide_eq_true_iff] at hok
    exact hok (hdir ▸ hnode)
  rmdir v ps text htext hne _ hnode _ := by
    have hcall : calls.rmdir text v = v.tryRemove ps (v.node ps = some .dir) := by
      show ((v.find text).map _).getD _ = _
      rw [find_of_node htext hne hnode]
      rfl
    rw [hcall]
    exact tries_tryRemove hne _

/-- The variable with the path `text`, and the files. -/
def fresh (text : List UInt8) (v : Volume) : IterDir × Mem × Volume :=
  ({ IterDir.zero 64 with allFiles := textAt 64 text }, textMem (text ++ [0]) [], v)

end Volume

end TinyBase
