import TinyBase.Win32Append

/-!
# Removing a directory with what is in it (`RemoveDir`, Windows)

`RemoveDir` goes through the entries of the directory, but both branches of the loop return: it
removes what its first entry leads to, and returns the result of that. The calls of the system are
parameters, functions of a state of the file system; the paths that they get are read from memory.
-/

namespace TinyBase.Win32
open LexicalPath

/-- `MAX_PATH_SIZE`. -/
def maxPathSize : Usz := 520

def path (mem : Ptr) : String :=
  { base := mem, writeCur := 0, size := maxPathSize - 2, enc := .utf16le }

/-- `wcslen`. -/
def wcslen (rd : Reader) (cString : Ptr) : Res Usz :=
  whileLoop (fun idx => do
    let u ← loadUnit rd (cString + 2 * idx)
    if u ≠ 0 then pure (.next (idx + 1)) else pure (.done idx)) (0 : Usz)

def pathCString (cString : Ptr) (m : Mem) : Res String := do
  let length ← wcslen m.read cString
  let cStringSize := 2 * length
  pure { base := cString, writeCur := if cStringSize < maxPathSize then cStringSize
    else maxPathSize, size := 0, enc := .utf16le }

def appendDataToPath (newPart : Ptr) (newPartSize : Usz) (dst : String) (m : Mem) :
    Res (Bool × String × Mem) :=
  appendPathToPathUnchecked { path newPart with writeCur := newPartSize } dst m

def readUnits (rd : Reader) (ptr : Ptr) : Nat → Res (List UInt16)
  | 0 => pure []
  | n + 1 => do
    let u ← loadUnit rd ptr
    let us ← readUnits rd (ptr + 2) n
    pure (u :: us)

/-- The units of a C string. -/
def wideCString (rd : Reader) (ptr : Ptr) : Res (List UInt16) := do
  let length ← wcslen rd ptr
  readUnits rd ptr length.toNat

/-! ### The calls of the system -/

/-- `FILE_ATTRIBUTE_DIRECTORY`. -/
def fileAttributeDirectory : UInt32 := 0x10

/-- `FILE_ATTRIBUTE_NORMAL`. -/
def fileAttributeNormal : UInt32 := 0x80

/-- `ERROR_ACCESS_DENIED`. -/
def errorAccessDenied : UInt32 := 5

/-- `INVALID_HANDLE_VALUE`. -/
def invalidHandleValue : Usz := uszMax

/-- `WIN32_FIND_DATAW`. -/
structure FindData where
  fileAttributes : UInt32
  fileName : List UInt16
deriving DecidableEq

/-- The calls; a call that deletes a file gives the error code, if there is an error. -/
structure DirCalls (σ : Type) where
  findFirstFile : List UInt16 → σ → (Usz × Option FindData) × σ
  findNextFile : Usz → σ → Option FindData × σ
  findClose : Usz → σ → σ
  deleteFile : List UInt16 → σ → Option UInt32 × σ
  setFileAttributes : List UInt16 → UInt32 → σ → σ
  removeDirectory : List UInt16 → σ → Bool × σ

/-- `iter_dir`: `AllFilesBuf` is at the address of the struct, and `OSData` has the handle and the
data of the file. -/
structure IterDir where
  base : Ptr
  allFiles : String
  filename : Ptr
  file : Usz
  isDir : Bool

namespace IterDir

/-- `sizeof(iter_dir)`. -/
def size : Usz := 1168

/-- `Data->cFileName`: the data are behind the handle in `OSData`. -/
def cFileName (iter : IterDir) : Ptr := iter.base + 612

/-- `{0}`. -/
def zero (base : Ptr) : IterDir :=
  { base := base, allFiles := { base := 0, writeCur := 0, size := 0, enc := .ascii }, filename := 0,
    file := 0, isDir := false }

end IterDir

/-- What a call that finds a file stores in `Data`. -/
def storeFound (data : Ptr) (found : Option FindData) (m : Mem) : Res Mem :=
  match found with
  | some d => m.writeBytes data (unitBytes (d.fileName ++ [0]))
  | none => pure m

/-- `InitIterDir`; the literal `L"*"` is at `star`. -/
def initIterDir (star : Ptr) (iter : IterDir) (dirPath : String) (m : Mem) :
    Res (IterDir × Mem) := do
  let (_, m) ← clearBuffer iter.allFiles.toBuffer m
  let (_, allFiles, m) ← appendPathToPath dirPath (path iter.base) m
  let (_, allFiles, m) ← appendDataToPath star 2 allFiles m
  pure ({ iter with allFiles := allFiles }, m)

section
variable {σ : Type} (sys : DirCalls σ)

/-- `ListFiles` looks for the first file, and skips one more. -/
def openFiles (iter : IterDir) (m : Mem) (s : σ) : Res (IterDir × Mem × σ) :=
  if iter.file = 0 then do
    let pattern ← wideCString m.read iter.base
    let first := sys.findFirstFile pattern s
    let m ← storeFound iter.cFileName first.1.2 m
    let next := sys.findNextFile first.1.1 first.2
    let m ← storeFound iter.cFileName next.1 m
    pure ({ iter with file := first.1.1 }, m, next.2)
  else pure (iter, m, s)

def listFiles (iter : IterDir) (m : Mem) (s : σ) : Res (Bool × IterDir × Mem × σ) := do
  let (iter, m, s) ← openFiles sys iter m s
  match sys.findNextFile iter.file s with
  | (none, s) =>
    pure (false, { iter with file := invalidHandleValue }, m, sys.findClose iter.file s)
  | (some d, s) => do
    let m ← storeFound iter.cFileName (some d) m
    pure (true, { iter with filename := iter.cFileName,
                            isDir := d.fileAttributes &&& fileAttributeDirectory ≠ 0 }, m, s)

/-- What `RemoveFile` does with a name. -/
def removeFileNamed (filename : List UInt16) (s : σ) : Bool × σ :=
  match sys.deleteFile filename s with
  | (none, s) => (true, s)
  | (some error, s) =>
    if error = errorAccessDenied then
      let (error, s) :=
        sys.deleteFile filename (sys.setFileAttributes filename fileAttributeNormal s)
      (error.isNone, s)
    else (false, s)

def removeFile (filename : Ptr) (m : Mem) (s : σ) : Res (Bool × σ) := do
  let text ← wideCString m.read filename
  pure (removeFileNamed sys text s)

/-- `RemoveDirectoryW`. -/
def removeDirectoryAt (dirPath : Ptr) (m : Mem) (s : σ) : Res (Bool × σ) := do
  let text ← wideCString m.read dirPath
  pure (sys.removeDirectory text s)

/-- The body of the loop of `RemoveDir`; `again` is the function itself. A result is one that is
returned from the loop. -/
def removeDirStep (again : Ptr → Mem → σ → Res (Bool × Mem × σ)) (st : IterDir × Mem × σ) :
    Res (Ctl (IterDir × Mem × σ) (Option Bool × Mem × σ)) := do
  let (more, iter, m, s) ← listFiles sys st.1 st.2.1 st.2.2
  if more then do
    let (_, scratchPath) ← moveUpPath iter.allFiles 1 m
    let filename ← pathCString iter.filename m
    let (_, scratchPath, m) ← appendPathToPath filename scratchPath m
    if iter.isDir then do
      let (result, m, s) ← again scratchPath.base m s
      pure (.done (some result, m, s))
    else do
      let (result, s) ← removeFile sys scratchPath.base m s
      pure (.done (some result, m, s))
  else pure (.done (none, m, s))

/-- `RemoveDir`. The variable `Iter` of the call that is `depth` calls deep is at `frame depth`;
`fuel` bounds how deep the calls go. -/
def removeDir (frame : Nat → Ptr) (star : Ptr) :
    Nat → Nat → Ptr → Bool → Mem → σ → Res (Bool × Mem × σ)
  | 0, _, _, _, _, _ => .error .rounds
  | fuel + 1, depth, dirPath, removeAllFiles, m, s =>
    if removeAllFiles then do
      let removePath ← pathCString dirPath m
      let m ← m.memset (frame depth) 0 IterDir.size
      let (iter, m) ← initIterDir star (.zero (frame depth)) removePath m
      let (returned, m, s) ← whileLoop (removeDirStep sys fun path m s =>
        removeDir frame star fuel (depth + 1) path true m s) (iter, m, s)
      match returned with
      | some result => pure (result, m, s)
      | none => do
        let (result, s) ← removeDirectoryAt sys dirPath m s
        pure (result, m, s)
    else do
      let (result, s) ← removeDirectoryAt sys dirPath m s
      pure (result, m, s)

end

/-! ### The tree below the directory -/

/-- The name of an entry. -/
structure EntryName where
  units : List UInt16
  isName : IsName units
deriving DecidableEq

inductive Kind where
  | file
  | dir
deriving DecidableEq

def FindData.kind (d : FindData) : Kind :=
  if d.fileAttributes &&& fileAttributeDirectory ≠ 0 then .dir else .file

/-- The entries `.` and `..`. -/
def dot : FindData := { fileAttributes := fileAttributeDirectory, fileName := [46] }

def dotDot : FindData := { fileAttributes := fileAttributeDirectory, fileName := [46, 46] }

/-- `units` is a path with the names `ds`: a separator of either kind between two of them, and
perhaps one at the end. -/
structure IsDirPath (ds : List (List UInt16)) (units : List UInt16) : Prop where
  ne_nil : ds ≠ []
  names : ∀ d ∈ ds, IsName d
  separated : SeparatedBy IsSeparator ds units ∨ SeparatedBy IsSeparator (ds ++ [[]]) units

section
variable (ds : List (List UInt16)) (units : List UInt16)

/-- The names of what is at `ps` below the directory, which is itself at the empty path. -/
def nodeNames (ps : List EntryName) : List (List UInt16) := ds ++ ps.map EntryName.units

/-- The path of a directory with a separator at its end. -/
def nodeDir (ps : List EntryName) : List UInt16 := dirText 92 false (nodeNames ds ps)

/-- The path. -/
def nodeText (ps : List EntryName) : List UInt16 :=
  if ps = [] then units else [92].intercalate (nodeNames ds ps)

/-- The entries are those of the directory, each once. -/
structure Lists (node : List EntryName → Option Kind) (ps : List EntryName)
    (entries : List FindData) : Prop where
  entry : ∀ d ∈ entries, ∃ n : EntryName, d.fileName = n.units ∧ node (ps ++ [n]) = some d.kind
  all : ∀ n k, node (ps ++ [n]) = some k → ∃ d ∈ entries, d.fileName = n.units ∧ d.kind = k
  once : (entries.map FindData.fileName).Nodup

/-- What the calls do: `node` says what there is at a path below the directory, and `pending` what
is still to be found with a handle. The entries `.` and `..` are found first. -/
structure DirCalls.Windows {σ : Type} (sys : DirCalls σ) (node : σ → List EntryName → Option Kind)
    (pending : Usz → σ → List FindData) : Prop where
  inDir : ∀ s ps n, node s (ps ++ [n]) ≠ none → node s ps = some .dir
  findFirst : ∀ s ps, node s ps = some .dir → ∃ file s' entries,
    sys.findFirstFile (nodeDir ds ps ++ [42]) s = ((file, some dot), s') ∧
    file ≠ 0 ∧ node s' = node s ∧
      pending file s' = dotDot :: entries ∧ Lists (node s) ps entries
  findNext : ∀ file s d rest, pending file s = d :: rest →
    ∃ s', sys.findNextFile file s = (some d, s') ∧ node s' = node s ∧ pending file s' = rest
  findNext_nil : ∀ file s, pending file s = [] → ∃ s', sys.findNextFile file s = (none, s') ∧
    node s' = node s
  findClose : ∀ file s, node (sys.findClose file s) = node s
  removeFile : ∀ s ps, node s ps = some .file → ∃ s',
    removeFileNamed sys (nodeText ds units ps) s = (true, s') ∧
    node s' = Function.update (node s) ps none
  removeDirectory : ∀ s ps, node s ps = some .dir → (∀ n, node s (ps ++ [n]) = none) → ∃ s',
    sys.removeDirectory (nodeText ds units ps) s = (true, s') ∧
    node s' = Function.update (node s) ps none
  removeDirectory_full : ∀ s ps n, node s (ps ++ [n]) ≠ none → ∃ s',
    sys.removeDirectory (nodeText ds units ps) s = (false, s') ∧ node s' = node s

/-- The paths of the tree fit in `AllFilesBuf`, with the asterisk behind that of a directory, and a
path append keeps them: where two of their parts meet, a unit whose low byte is that of a separator
is one. -/
structure Fits (node : List EntryName → Option Kind) : Prop where
  told : ToldByLow units units
  dir : ∀ ps, node ps = some .dir → 2 * (nodeDir ds ps ++ [42]).length ≤ 518
  file : ∀ ps, node ps = some .file → 2 * (nodeText ds units ps).length ≤ 518
  told_front : ∀ ps n k, node (ps ++ [n]) = some k → ToldByLow [] n.units
  told_end : ∀ ps n, node (ps ++ [n]) = some .dir → ToldByLow n.units []

end

/-- The memory: the path of the directory and the literal are strings; the variables of the calls
can be written, and they are apart from these and those of one call from those of the next. -/
structure RemoveDirMem (frame : Nat → Ptr) (star : Ptr) (depth : Nat) (dirPath : Ptr) (m : Mem)
    (units : List UInt16) : Prop where
  path_holds : Holds m.read dirPath (unitBytes (units ++ [0]))
  star_holds : Holds m.read star (unitBytes [42, 0])
  readable : ∀ d, m.Readable (frame d) 1168
  writable : ∀ d, ∀ i : Usz, i.toNat < 1168 → m.writable (frame d + i)
  path_apart : Apart dirPath (2 * (units.length + 1)) (frame depth) 1168
  star_apart : ∀ d, Apart star 4 (frame d) 1168
  apart : ∀ d, Apart (frame d) 1168 (frame (d + 1)) 1168

/-- Whenever `RemoveDir` returns true, nothing is left of the directory and of what was below it. -/
def RemovesAll {σ : Type} (sys : DirCalls σ) (node : σ → List EntryName → Option Kind)
    (frame : Nat → Ptr) (star dirPath : Ptr) (m : Mem) (s : σ) : Prop :=
  ∀ fuel m' s', removeDir sys frame star fuel 0 dirPath true m s = .ok (true, m', s') →
    ∀ ps, node s' ps = none

/-! ### C strings -/

section
variable {rd : Reader} {p : Ptr} {us vs : List UInt16} {m : Mem}

theorem wcslen_eq (h : Holds rd p (unitBytes (us ++ [0]))) (hzero : 0 ∉ us)
    (hlen : 2 * (us.length + 1) < 2 ^ 64) : wcslen rd p = .ok (UInt64.ofNat us.length) := by
  refine Except.wp_eq.1
    (wp_whileLoop (fun idx : Usz => idx.toNat ≤ us.length) (fun idx => us.length - idx.toNat) ?_ 0
    (Nat.zero_le _) (Nat.lt_of_le_of_lt (Nat.sub_le _ _) (by omega)))
  intro idx hle
  have htwo : (2 : Usz).toNat = 2 := rfl
  have hidx : (2 * idx).toNat = 2 * idx.toNat := by
    rw [UInt64.toNat_mul, htwo]
    exact Nat.mod_eq_of_lt (by omega)
  have hin : idx.toNat < (us ++ [0]).length := by
    rw [List.length_append, List.length_singleton]
    omega
  have hunit := loadUnit_eq h hin hidx (by omega)
  rcases Nat.lt_or_eq_of_le hle with hlt | heq
  · have hne : us[idx.toNat] ≠ 0 := fun h0 => hzero (h0 ▸ List.getElem_mem hlt)
    have hnext : (idx + 1).toNat = idx.toNat + 1 := UInt64.toNat_add_one (by omega)
    rw [List.getElem_append_left hlt] at hunit
    rw [hunit, Except.ok_bind, if_pos hne, Except.wp_pure, Ctl.post_next, hnext]
    exact ⟨hlt, by omega⟩
  · rw [List.getElem_concat_length heq] at hunit
    rw [hunit, Except.ok_bind, if_neg (not_not.2 rfl), Except.wp_pure,
      Ctl.post_done, ← heq, UInt64.ofNat_toNat]

theorem readUnits_eq (h : Holds rd p (unitBytes (us ++ vs)))
    (hlen : 2 * (us.length + vs.length) < 2 ^ 64) : readUnits rd p us.length = .ok us := by
  induction us generalizing p with
  | nil => rfl
  | cons u us ih =>
    rw [List.length_cons] at hlen
    have hunit := loadUnit_eq h (Nat.succ_pos _) (rfl : (0 : Usz).toNat = 2 * 0) (by decide)
    rw [UInt64.add_zero] at hunit
    have hrest : Holds rd (p + 2) (unitBytes (us ++ vs)) := by
      rw [List.cons_append, unitBytes_cons] at h
      exact @Holds.of_append_right rd p [low u, high u] (unitBytes (us ++ vs)) h
        (by rw [length_unitBytes, List.length_append]; show 2 + _ ≤ _; omega)
    rw [List.length_cons, readUnits, hunit, Except.ok_bind, ih hrest (by omega)]
    rfl

theorem wideCString_eq (h : Holds rd p (unitBytes (us ++ [0]))) (hzero : 0 ∉ us)
    (hlen : 2 * (us.length + 1) < 2 ^ 64) : wideCString rd p = .ok us := by
  have hword : (UInt64.ofNat us.length).toNat = us.length :=
    UInt64.toNat_ofNat_of_lt_two_pow (by omega)
  rw [wideCString, wcslen_eq h hzero hlen, Except.ok_bind, hword]
  exact readUnits_eq h hlen

/-- A path of the units `us`. -/
def unitsAt (p : Ptr) (size : Usz) (us : List UInt16) : String :=
  { base := p, writeCur := UInt64.ofNat (2 * us.length), size := size, enc := .utf16le }

theorem pathCString_eq (h : Holds m.read p (unitBytes (us ++ [0]))) (hzero : 0 ∉ us)
    (hlen : 2 * us.length ≤ 518) : pathCString p m = .ok (unitsAt p 0 us) := by
  have hword : (UInt64.ofNat us.length).toNat = us.length :=
    UInt64.toNat_ofNat_of_lt_two_pow (by omega)
  have htwo : 2 * UInt64.ofNat us.length = UInt64.ofNat (2 * us.length) :=
    (UInt64.ofNat_mul 2 us.length).symm
  have hlt : UInt64.ofNat (2 * us.length) < maxPathSize := UInt64.lt_iff_toNat_lt.2 (by
    rw [UInt64.toNat_ofNat_of_lt_two_pow (by omega)]
    show _ < 520
    omega)
  rw [pathCString, wcslen_eq h hzero (by omega), Except.ok_bind]
  dsimp only
  rw [htwo, if_pos hlt]
  rfl

end

/-! ### Appending in `AllFilesBuf` -/

section
variable {m m1 : Mem} {base : Ptr} {src : String} {us units last : List UInt16}
  {init : List (List UInt16)}

theorem toNat_unitsAt (h : 2 * us.length < 2 ^ 64) (size : Usz) :
    (unitsAt base size us).writeCur.toNat = (unitBytes us).length := by
  rw [length_unitBytes]
  exact UInt64.toNat_ofNat_of_lt_two_pow h

/-- The variable `Iter` of a call. -/
structure FrameMem (base : Ptr) (m : Mem) : Prop where
  readable : m.Readable base 1168
  writable : ∀ i : Usz, i.toNat < 1168 → m.writable (base + i)

theorem FrameMem.same {p : Ptr} {n : Nat} (h : FrameMem base m) (hm : Mem.SameOutside p n m m1) :
    FrameMem base m1 where
  readable := hm.readable h.readable
  writable i hi := by
    rw [hm.writable_eq]
    exact h.writable i hi

theorem FrameMem.joinMem (h : FrameMem base m) (henc : src.enc = .utf16le)
    (hread : m.Readable src.base src.writeCur.toNat)
    (hapart : Apart src.base src.writeCur.toNat base 520) :
    JoinMem src (unitsAt base 518 us) m where
  src_enc := henc
  dst_enc := rfl
  src_readable := hread
  dst_readable i hi := h.readable i (Nat.lt_trans hi (by decide : 518 < 1168))
  dst_writable i hi := h.writable i (Nat.lt_trans hi (by decide : 520 < 1168))
  small := (by decide : 518 + 4 < 2 ^ 64)
  apart := hapart

theorem appendPathToPathUnchecked_at (h : FrameMem base m)
    (hmem : JoinMem src (unitsAt base 518 us) m) (hus : Holds m.read base (unitBytes us))
    (hunits : stringBytes src m = unitBytes units) (hne : units ≠ [])
    (hsep : SeparatedBy IsSeparator (init ++ [last]) (withoutSeparator units))
    (hinit : ∀ d ∈ init, IsName d) (hlast : last = [] ∨ IsName last)
    (hroom : 2 * (withSeparator us).length + src.writeCur.toNat ≤ 518) {all : List UInt16}
    (hall : withSeparator us ++ [92].intercalate (init ++ [last]) = all) : ∃ m',
      appendPathToPathUnchecked src (unitsAt base 518 us) m = .ok (true, unitsAt base 518 all, m') ∧
        Holds m'.read base (unitBytes (all ++ [0])) ∧ Mem.SameOutside base 520 m m' := by
  have hle : us.length ≤ (withSeparator us).length := by
    rcases List.eq_nil_or_concat us with rfl | ⟨l, u, rfl⟩
    · exact Nat.le_refl _
    · rw [List.concat_eq_append, withSeparator_concat]
      split_ifs <;> simp
  have hcur := @toNat_unitsAt base us (by omega) 518
  obtain ⟨new, hnew, hfits, hrun⟩ :=
    appendPathToPathUnchecked_run hmem hroom (stringBytes_of_holds hus hcur) hunits hne hsep
    hinit hlast
  rw [hall] at hnew
  subst hnew
  have hsize : (unitsAt base 518 us).size.toNat = 518 := rfl
  have hlen := length_unitBytes us
  have hlen' := length_unitBytes new
  have hgrown : (unitsAt base 518 us).grown (2 * new.length) = unitsAt base 518 (us ++ new) := by
    rw [unitsAt, String.grown, unitsAt, List.length_append, Nat.mul_add, UInt64.ofNat_add]
  have hend : (unitBytes new ++ [0, 0]).length = 2 * new.length + 2 := by
    rw [List.length_append, hlen']; rfl
  have hbytes : unitBytes (us ++ new ++ [0]) = unitBytes us ++ (unitBytes new ++ [0, 0]) := by
    rw [unitBytes_append, unitBytes_append, List.append_assoc]
    rfl
  rw [hgrown] at hrun
  refine ⟨_, hrun, ?_, .store_add m (by omega)⟩
  rw [hbytes]
  have hword : (UInt64.ofNat (2 * us.length)).toNat = 2 * us.length :=
    UInt64.toNat_ofNat_of_lt_two_pow (by omega)
  refine Holds.append ?_ ?_
  · exact Mem.reads_store hus (apart_add (by omega) (by omega)) (Nat.le_of_eq hend)
  · rw [hlen]
    refine Mem.holds_store fun i hi => ?_
    have hsum : (UInt64.ofNat (2 * us.length) + i).toNat = 2 * us.length + i.toNat :=
      UInt64.toNat_ofNat_add (by omega)
    rw [UInt64.add_assoc]
    exact h.readable (UInt64.ofNat (2 * us.length) + i) (by omega)

theorem path_eq (p : Ptr) : path p = unitsAt p 518 [] := by
  have hsize : maxPathSize - 2 = 518 := by decide
  rw [path, hsize]
  rfl

theorem appendAsterisk_eq {star : Ptr} (h : FrameMem base m)
    (hstar : Holds m.read star (unitBytes [42, 0])) (hapart : Apart star 4 base 1168)
    (hus : Holds m.read base (unitBytes us)) (hroom : 2 * (withSeparator us).length + 2 ≤ 518) :
    ∃ m', appendDataToPath star 2 (unitsAt base 518 us) m = .ok (true,
      unitsAt base 518 (withSeparator us ++ [42]), m') ∧
      Holds m'.read base (unitBytes (withSeparator us ++ [42] ++ [0])) ∧
      Mem.SameOutside base 520 m m' := by
  have hstar' : Holds m.read star (unitBytes [42]) :=
    @Holds.of_append _ _ (unitBytes [42]) (unitBytes [0]) hstar
  have hmem : JoinMem (unitsAt star 518 [42]) (unitsAt base 518 us) m :=
    h.joinMem rfl (Mem.readable_of_reads hstar') (hapart.mono (by decide : 2 ≤ 4) (by decide))
  have hdata : appendDataToPath star 2 (unitsAt base 518 us) m =
      appendPathToPathUnchecked (unitsAt star 518 [42]) (unitsAt base 518 us) m := by
    rw [appendDataToPath, path_eq]
    rfl
  rw [hdata]
  exact @appendPathToPathUnchecked_at _ _ _ us [42] [42] [] h hmem hus
    (stringBytes_of_holds hstar' rfl) (List.cons_ne_nil _ _)
    (.one [42]) (by simp) (.inr (by decide)) hroom _ rfl

end

/-! ### The path of a directory -/

section
variable {ds cs : List (List UInt16)} {units l c : List UInt16} {u : UInt16}

theorem eq_zero_or_mem_of_separatedBy (h : SeparatedBy IsSeparator cs l) (hu : u ∈ l) :
    IsSeparator u ∨ ∃ c ∈ cs, u ∈ c := by
  induction h with
  | one c => exact .inr ⟨c, List.mem_cons_self, hu⟩
  | @cons cs l a c ha _ ih =>
    rcases List.mem_append.1 hu with hu | hu
    · exact .inr ⟨c, List.mem_cons_self, hu⟩
    · rcases List.mem_cons.1 hu with rfl | hu
      · exact .inl ha
      · exact (ih hu).imp_right fun ⟨d, hd, hu⟩ => ⟨d, List.mem_cons_of_mem c hd, hu⟩

theorem prefix_of_separatedBy (h : SeparatedBy IsSeparator (c :: cs) l) : c <+: l := by
  cases h with
  | one => exact List.prefix_refl l
  | cons _ ha h => exact List.prefix_append c _

theorem suffix_of_separatedBy (h : SeparatedBy IsSeparator cs l) : ∀ c ∈ cs.getLast?, c <:+ l := by
  induction h with
  | one c =>
    intro d hd
    obtain rfl : c = d := Option.some.inj hd
    exact List.suffix_refl c
  | @cons cs l a c ha h ih =>
    intro d hd
    obtain ⟨e, es, rfl⟩ := List.exists_cons_of_ne_nil h.ne_nil
    rw [List.getLast?_cons_cons] at hd
    exact ((ih d hd).trans (List.suffix_cons a l)).trans (List.suffix_append c _)

theorem separatedBy_intercalate (hne : cs ≠ []) :
    SeparatedBy IsSeparator cs ([92].intercalate cs) := by
  induction cs with
  | nil => exact absurd rfl hne
  | cons c cs ih =>
    cases cs with
    | nil =>
      rw [List.intercalate_singleton]
      exact .one c
    | cons d cs =>
      rw [List.intercalate_cons_cons, List.append_assoc]
      exact .cons c (.inl rfl) (ih (List.cons_ne_nil d cs))

namespace IsDirPath

theorem head (h : IsDirPath ds units) : ∃ u t, units = u :: t ∧ ¬ IsSeparator u := by
  obtain ⟨d, ds, rfl⟩ := List.exists_cons_of_ne_nil h.ne_nil
  have hd := h.names d List.mem_cons_self
  obtain ⟨u, t, rfl⟩ := List.exists_cons_of_ne_nil hd.1
  obtain ⟨rest, rfl⟩ : (u :: t) <+: units :=
    h.separated.elim prefix_of_separatedBy prefix_of_separatedBy
  exact ⟨u, t ++ rest, rfl, (hd.2.1 u List.mem_cons_self).2⟩

theorem zero_notMem (h : IsDirPath ds units) : 0 ∉ units := fun hzero => by
  have hsep : IsSeparator 0 ∨ ∃ d ∈ ds ++ [[]], (0 : UInt16) ∈ d := by
    rcases h.separated with hs | hs
    · exact (eq_zero_or_mem_of_separatedBy hs hzero).imp_right fun ⟨d, hd, hmem⟩ =>
        ⟨d, List.mem_append_left _ hd, hmem⟩
    · exact eq_zero_or_mem_of_separatedBy hs hzero
  rcases hsep with hs | ⟨d, hd, hmem⟩
  · exact absurd hs (by decide)
  · rcases List.mem_append.1 hd with hd | hd
    · exact ((h.names d hd).2.1 0 hmem).1 rfl
    · rw [List.mem_singleton.1 hd] at hmem
      exact List.not_mem_nil hmem

theorem withoutSeparator_eq (h : IsDirPath ds units) (htold : ToldByLow units units) :
    withoutSeparator units = units := by
  obtain ⟨u, t, rfl, hu⟩ := h.head
  exact if_neg fun hlow => hu (htold.2 u rfl hlow)

/-- The path is copied with a backslash for each separator, and what is put behind the copy is the
last of them. -/
theorem copy (h : IsDirPath ds units) (htold : ToldByLow units units) : ∃ init last,
    SeparatedBy IsSeparator (init ++ [last]) units ∧ (∀ d ∈ init, IsName d) ∧
      (last = [] ∨ IsName last) ∧
      withSeparator ([92].intercalate (init ++ [last])) = dirText 92 false ds ∧
      units.length ≤ (dirText 92 false ds).length := by
  rcases h.separated with hs | hs
  · obtain ⟨init, last, rfl⟩ := (List.eq_nil_or_concat ds).resolve_left h.ne_nil
    rw [List.concat_eq_append] at *
    have hlast := h.names last (List.mem_append_right _ List.mem_cons_self)
    have hinit (d) (hd : d ∈ init) := h.names d (List.mem_append_left _ hd)
    have hend : ∀ u ∈ ([92].intercalate (init ++ [last])).getLast?, low u = 92 → u = 92 := by
      obtain ⟨rest, hrest⟩ := suffix_of_separatedBy hs last (by rw [List.getLast?_concat]; rfl)
      intro u hu
      rw [intercalate_concat, List.getLast?_append_of_ne_nil _ hlast.1] at hu
      refine htold.1 u ?_
      rwa [← hrest, List.getLast?_append_of_ne_nil _ hlast.1]
    have htext : IsText 92 false (init ++ [last]) ([92].intercalate (init ++ [last])) := by
      rw [intercalate_concat]
      exact .bare init last
    refine ⟨init, last, hs, hinit, .inr hlast, (withSeparator_eq h.names htext).2.1 hend, ?_⟩
    rw [hs.length_eq 92, intercalate_concat, dirText_append, List.length_append,
      List.length_append, List.length_append]
    omega
  · have htext : [92].intercalate (ds ++ [[]]) = dirText 92 false ds := by
      rw [intercalate_concat, List.append_nil]
    refine ⟨ds, [], hs, h.names, .inl rfl, ?_, ?_⟩
    · rw [htext, withSeparator_dirText]
    · rw [hs.length_eq 92, htext]

end IsDirPath

end

/-! ### One call -/

namespace RemoveDirMem
variable {frame : Nat → Ptr} {star dirPath : Ptr} {depth : Nat} {m m1 : Mem}
  {ds : List (List UInt16)} {units : List UInt16}

theorem frameMem (h : RemoveDirMem frame star depth dirPath m units) : FrameMem (frame depth) m :=
  ⟨h.readable depth, h.writable depth⟩

theorem length_path (units : List UInt16) :
    (unitBytes (units ++ [0])).length = 2 * (units.length + 1) := by
  rw [length_unitBytes, List.length_append, List.length_singleton]

/-- The path and the literal are still there when the variable is written. -/
theorem strings_same (h : RemoveDirMem frame star depth dirPath m units)
    (hm : Mem.SameOutside (frame depth) 1168 m m1) :
    Holds m1.read dirPath (unitBytes (units ++ [0])) ∧ Holds m1.read star (unitBytes [42, 0]) :=
  ⟨hm.holds h.path_holds (by rw [length_path]; exact h.path_apart),
    hm.holds h.star_holds (h.star_apart depth)⟩

/-- The call of the directory that the variable has the path of. -/
theorem next (h : RemoveDirMem frame star depth dirPath m units)
    (hm : Mem.SameOutside (frame depth) 1168 m m1) {units' : List UInt16}
    (hpath : Holds m1.read (frame depth) (unitBytes (units' ++ [0])))
    (hlen : 2 * units'.length ≤ 518) :
    RemoveDirMem frame star (depth + 1) (frame depth) m1 units' where
  path_holds := hpath
  star_holds := (h.strings_same hm).2
  readable d := hm.readable (h.readable d)
  writable d i hi := by
    rw [hm.writable_eq]
    exact h.writable d i hi
  path_apart := (h.apart depth).mono (by omega) (Nat.le_refl _)
  star_apart := h.star_apart
  apart := h.apart

theorem copy_eq (h : RemoveDirMem frame star depth dirPath m units) (hpath : IsDirPath ds units)
    (htold : ToldByLow units units) (hfits : 2 * (dirText 92 false ds).length ≤ 518)
    (hm : Mem.SameOutside (frame depth) 1168 m m1) : ∃ us m2,
      withSeparator us = dirText 92 false ds ∧
      appendPathToPath (unitsAt dirPath 0 units) (path (frame depth)) m1 =
      .ok (true, unitsAt (frame depth) 518 us, m2) ∧
      Holds m2.read (frame depth) (unitBytes us) ∧ Mem.SameOutside (frame depth) 1168 m m2 := by
  obtain ⟨init, last, hsep, hinit, hlast, hcopy, hle⟩ := hpath.copy htold
  have hholds := (h.strings_same hm).1
  rw [unitBytes_append] at hholds
  have hframe := h.frameMem.same hm
  have hcur : (unitsAt dirPath 0 units).writeCur.toNat = 2 * units.length :=
    UInt64.toNat_ofNat_of_lt_two_pow (by omega)
  have hread := Mem.readable_of_reads hholds.of_append
  rw [length_unitBytes, ← hcur] at hread
  have hmem : JoinMem (unitsAt dirPath 0 units) (unitsAt (frame depth) 518 []) m1 := by
    refine hframe.joinMem rfl hread ?_
    rw [hcur]
    exact h.path_apart.mono (by omega) (by decide)
  have hempty : Holds m1.read (frame depth) (unitBytes []) :=
    fun i hi => absurd hi (Nat.not_lt_zero _)
  obtain ⟨u, t, hcons, -⟩ := hpath.head
  obtain ⟨m2, hrun, hholds2, hsame⟩ := appendPathToPathUnchecked_at hframe hmem hempty
    (stringBytes_of_holds hholds.of_append (toNat_unitsAt (by omega) 0))
    (by rw [hcons]; exact List.cons_ne_nil u t)
    (by rw [hpath.withoutSeparator_eq htold]; exact hsep) hinit hlast
    (by rw [hcur]; show 2 * 0 + _ ≤ _; omega) rfl
  rw [unitBytes_append] at hholds2
  refine ⟨_, m2, hcopy, ?_, hholds2.of_append, hm.trans (hsame.mono (by decide))⟩
  have hroom : (unitsAt (frame depth) 518 []).size - (unitsAt (frame depth) 518 []).writeCur =
    518 := by simp [unitsAt]
  have hfree : (unitsAt dirPath 0 units).writeCur ≤ 518 :=
    UInt64.le_iff_toNat_le.2 (by rw [hcur]; show _ ≤ 518; omega)
  rw [path_eq, appendPathToPath, if_pos ⟨rfl, hroom.symm ▸ hfree⟩, hrun]
  rfl

theorem initIterDir_eq (h : RemoveDirMem frame star depth dirPath m units)
    (hpath : IsDirPath ds units) (htold : ToldByLow units units)
    (hfits : 2 * (dirText 92 false ds ++ [42]).length ≤ 518)
    (hm : Mem.SameOutside (frame depth) 1168 m m1) : ∃ m2,
      initIterDir star (.zero (frame depth)) (unitsAt dirPath 0 units) m1 =
        .ok ({ IterDir.zero (frame depth) with
          allFiles := unitsAt (frame depth) 518 (dirText 92 false ds ++ [42]) }, m2) ∧
      Holds m2.read (frame depth) (unitBytes (dirText 92 false ds ++ [42] ++ [0])) ∧
      Mem.SameOutside (frame depth) 1168 m m2 := by
  rw [List.length_append, List.length_singleton] at hfits
  obtain ⟨us, m2, hcopy, hrun, hholds, hsame⟩ := h.copy_eq hpath htold (by omega) hm
  obtain ⟨m3, hrun', hholds', hsame'⟩ :=
    appendAsterisk_eq (h.frameMem.same hsame) (h.strings_same hsame).2 (h.star_apart depth) hholds
    (by rw [hcopy]; omega)
  rw [hcopy] at hrun' hholds'
  refine ⟨m3, ?_, hholds', hsame.trans (hsame'.mono (by decide))⟩
  have hclear : clearBuffer (IterDir.zero (frame depth)).allFiles.toBuffer m1 =
      .ok ((IterDir.zero (frame depth)).allFiles.toBuffer, m1) := if_neg (not_not.2 rfl)
  rw [initIterDir, hclear, Except.ok_bind]
  dsimp only
  rw [show (IterDir.zero (frame depth)).base = frame depth from rfl, hrun, Except.ok_bind]
  dsimp only
  rw [hrun']
  rfl

end RemoveDirMem

section
variable {σ : Type} {sys : DirCalls σ} {node : σ → List EntryName → Option Kind}
  {pending : Usz → σ → List FindData} {ds : List (List UInt16)} {units pattern : List UInt16}
  {iter : IterDir} {m : Mem} {s : σ} {ps : List EntryName} {d : FindData}

theorem storeFound_eq (h : FrameMem iter.base m) (hlen : 2 * d.fileName.length ≤ 518) : ∃ m',
    storeFound iter.cFileName (some d) m = .ok m' ∧
      Holds m'.read iter.cFileName (unitBytes (d.fileName ++ [0])) ∧
      Mem.SameOutside iter.cFileName 520 m m' := by
  have hbytes : (unitBytes (d.fileName ++ [0])).length ≤ 520 := by
    rw [length_unitBytes, List.length_append, List.length_singleton]
    omega
  have hat : (612 : Usz).toNat = 612 := rfl
  have hsum : ∀ i : Usz, i.toNat < (unitBytes (d.fileName ++ [0])).length →
      (612 + i).toNat < 1168 := fun i hi => by
    rw [UInt64.toNat_add_of_lt (by omega), hat]
    omega
  refine ⟨_, Mem.writeBytes_eq (fun i hi => ?_) (by omega), Mem.holds_store fun i hi => ?_, ?_⟩
  · rw [IterDir.cFileName, UInt64.add_assoc]
    exact h.writable _ (hsum i hi)
  · rw [IterDir.cFileName, UInt64.add_assoc]
    exact h.readable _ (hsum i hi)
  · exact .store m fun a ha => Nat.lt_of_lt_of_le ha hbytes

/-- `AllFilesBuf` is in front of the name of the file. -/
theorem holds_pattern {us : List UInt16} {m' : Mem} (hus : Holds m.read iter.base (unitBytes us))
    (hlen : 2 * us.length ≤ 520) (hm : Mem.SameOutside iter.cFileName 520 m m') :
    Holds m'.read iter.base (unitBytes us) :=
  hm.holds hus
    (apart_add (by rw [length_unitBytes]; exact Nat.le_trans hlen (by decide)) (by decide))

theorem same_frame {m' : Mem} (hm : Mem.SameOutside iter.cFileName 520 m m') :
    Mem.SameOutside iter.base 1168 m m' :=
  hm.of_add (by decide : (612 : Usz).toNat + 520 ≤ 1168)

theorem openFiles_eq (hsys : sys.Windows ds units node pending) (h : FrameMem iter.base m)
    (hfile : iter.file = 0)
    (hpattern : Holds m.read iter.base (unitBytes (nodeDir ds ps ++ [42] ++ [0])))
    (hzero : 0 ∉ nodeDir ds ps) (hlen : 2 * (nodeDir ds ps ++ [42]).length ≤ 518)
    (hdir : node s ps = some .dir) : ∃ file m' s',
      openFiles sys iter m s = .ok ({ iter with file := file }, m', s') ∧ node s' = node s ∧
      Lists (node s) ps (pending file s') ∧ Mem.SameOutside iter.cFileName 520 m m' := by
  obtain ⟨file, s1, entries, hfirst, -, hnode, hpending, hlists⟩ := hsys.findFirst s ps hdir
  obtain ⟨s2, hnext, hnode', hpending'⟩ := hsys.findNext file s1 dotDot entries hpending
  obtain ⟨m1, hstore, -, hsame⟩ := @storeFound_eq iter m dot h (by decide)
  obtain ⟨m2, hstore', -, hsame'⟩ := @storeFound_eq iter m1 dotDot (h.same hsame) (by decide)
  have htext : wideCString m.read iter.base = .ok (nodeDir ds ps ++ [42]) := by
    refine wideCString_eq hpattern (fun hmem => ?_) (by omega)
    rcases List.mem_append.1 hmem with hmem | hmem
    · exact hzero hmem
    · exact absurd hmem (by decide)
  refine ⟨file, m2, s2, ?_, hnode'.trans hnode, hpending' ▸ hlists, hsame.trans hsame'⟩
  rw [openFiles, if_pos hfile, htext, Except.ok_bind]
  dsimp only
  rw [hfirst]
  dsimp only
  rw [hstore, Except.ok_bind, hnext]
  dsimp only
  rw [hstore']
  rfl

theorem moveUpPath_asterisk {base : Ptr} {cs : List (List UInt16)} (hcs : ∀ c ∈ cs, IsName c)
    (hholds : Holds m.read base (unitBytes (dirText 92 false cs ++ [42])))
    (hlen : 2 * (dirText 92 false cs ++ [42]).length ≤ 518) :
    ∃ r, moveUpPath (unitsAt base 518 (dirText 92 false cs ++ [42])) 1 m =
      .ok (r, unitsAt base 518 (dirText 92 false cs)) := by
  have hcur := @toNat_unitsAt base (dirText 92 false cs ++ [42]) (by omega) 518
  have hread := Mem.readable_of_reads hholds
  rw [← hcur] at hread
  have hcomponents : ∀ c ∈ cs ++ [[42]], IsComponent 92 c := by
    intro c hc
    have hname : IsName c := by
      rcases List.mem_append.1 hc with hc | hc
      · exact hcs c hc
      · rw [List.mem_singleton.1 hc]
        decide
    exact ⟨hname.1, fun hmem => (hname.2.1 92 hmem).2 (.inl rfl)⟩
  obtain ⟨r, us', w, hdir, -, hback, hrun⟩ :=
    moveUpPath_run rfl hread (stringBytes_of_holds hholds hcur) hcomponents
    (List.append_ne_nil_of_right_ne_nil _ (List.cons_ne_nil _ _)) (.bare cs [42])
    (by decide : 1 ≤ (1 : Usz).toNat)
  have hend := hback.iff hcomponents hdir (Nat.le_refl 1)
  have hpred : (cs ++ [[42]]).length - 1 = cs.length := by
    rw [List.length_append, List.length_singleton, Nat.add_sub_cancel]
  rw [hpred, List.take_left, List.drop_left] at hend
  have hback' := hend.2 (Nat.zero_le _)
  refine ⟨r, ?_⟩
  rw [hrun, hback']
  rfl

theorem appendName_eq {cs : List (List UInt16)} {c : List UInt16} (h : FrameMem iter.base m)
    (hc : IsName c) (htold : ToldByLow [] c)
    (hname : Holds m.read iter.cFileName (unitBytes (c ++ [0])))
    (hdir : Holds m.read iter.base (unitBytes (dirText 92 false cs)))
    (hlen : 2 * (dirText 92 false cs ++ c).length ≤ 518) : ∃ m',
      appendPathToPath (unitsAt iter.cFileName 0 c) (unitsAt iter.base 518 (dirText 92 false cs))
      m =
        .ok (true, unitsAt iter.base 518 (dirText 92 false cs ++ c), m') ∧
      Holds m'.read iter.base (unitBytes (dirText 92 false cs ++ c ++ [0])) ∧
      Mem.SameOutside iter.base 520 m m' := by
  rw [List.length_append] at hlen
  rw [unitBytes_append] at hname
  have hcur : (unitsAt iter.cFileName 0 c).writeCur.toNat = 2 * c.length :=
    UInt64.toNat_ofNat_of_lt_two_pow (by omega)
  have hcur' : (unitsAt iter.base 518 (dirText 92 false cs)).writeCur.toNat =
      2 * (dirText 92 false cs).length :=
    UInt64.toNat_ofNat_of_lt_two_pow (by omega)
  have hsize : (unitsAt iter.base 518 (dirText 92 false cs)).size.toNat = 518 := rfl
  have hread := Mem.readable_of_reads hname.of_append
  rw [length_unitBytes, ← hcur] at hread
  have hmem :
      JoinMem (unitsAt iter.cFileName 0 c) (unitsAt iter.base 518 (dirText 92 false cs)) m := by
    refine h.joinMem rfl hread ?_
    have hat : (612 : Usz).toNat = 612 := rfl
    have hbehind : Apart iter.base 520 (iter.base + 612) (2 * c.length) :=
      apart_add (by omega) (by omega)
    rw [hcur]
    exact hbehind.symm
  obtain ⟨u, t, rfl⟩ := List.exists_cons_of_ne_nil hc.1
  have hwhole : withoutSeparator (u :: t) = u :: t :=
    if_neg fun hlow => (hc.2.1 u List.mem_cons_self).2 (htold.2 u rfl hlow)
  have hfree : (unitsAt iter.cFileName 0 (u :: t)).writeCur ≤
      (unitsAt iter.base 518 (dirText 92 false cs)).size -
      (unitsAt iter.base 518 (dirText 92 false cs)).writeCur := by
    rw [UInt64.le_iff_toNat_le, UInt64.toNat_sub_of_toNat_le (by omega)]
    omega
  rw [appendPathToPath, if_pos ⟨hmem.src_enc.trans hmem.dst_enc.symm, hfree⟩]
  exact @appendPathToPathUnchecked_at _ _ _ _ (u :: t) (u :: t) [] h hmem hdir
    (stringBytes_of_holds hname.of_append (toNat_unitsAt (by omega) 0)) (List.cons_ne_nil u t)
    (by rw [hwhole]; exact .one _) (by simp) (.inr hc) (by rw [withSeparator_dirText]; omega) _
    (by rw [withSeparator_dirText, List.nil_append, List.intercalate_singleton])

theorem isDir_eq (d : FindData) :
    decide (d.fileAttributes &&& fileAttributeDirectory ≠ 0) = decide (d.kind = .dir) := by
  rw [FindData.kind, decide_eq_decide]
  split_ifs with hattr
  · exact iff_of_true hattr rfl
  · exact iff_of_false hattr (by decide)

/-- The first call for a directory: the first entry is found, or there is none. -/
theorem listFiles_eq (hsys : sys.Windows ds units node pending) (h : FrameMem iter.base m)
    (hfile : iter.file = 0)
    (hpattern : Holds m.read iter.base (unitBytes (nodeDir ds ps ++ [42] ++ [0])))
    (hzero : 0 ∉ nodeDir ds ps) (hlen : 2 * (nodeDir ds ps ++ [42]).length ≤ 518)
    (hdir : node s ps = some .dir)
    (hshort : ∀ n k, node s (ps ++ [n]) = some k → 2 * n.units.length ≤ 518) : ∃ m' s',
      node s' = node s ∧ Mem.SameOutside iter.cFileName 520 m m' ∧
      ((∀ n, node s (ps ++ [n]) = none) ∧
        (∃ iter', listFiles sys iter m s = .ok (false, iter', m', s')) ∨
        ∃ n k file, node s (ps ++ [n]) = some k ∧
        Holds m'.read iter.cFileName (unitBytes (n.units ++ [0])) ∧
          listFiles sys iter m s =
            .ok (true, { iter with file := file, filename := iter.cFileName,
                                   isDir := decide (k = .dir) }, m', s')) := by
  obtain ⟨file, m1, s1, hopen, hnode, hlists, hsame⟩ :=
    openFiles_eq hsys h hfile hpattern hzero hlen hdir
  cases hpending : pending file s1 with
  | nil =>
    obtain ⟨s2, hnext, hnode'⟩ := hsys.findNext_nil file s1 hpending
    refine ⟨m1, sys.findClose file s2, (hsys.findClose file s2).trans (hnode'.trans hnode), hsame,
      .inl ⟨fun n => ?_, { iter with file := invalidHandleValue }, ?_⟩⟩
    · rw [hpending] at hlists
      by_contra hne
      obtain ⟨k, hk⟩ := Option.ne_none_iff_exists'.1 hne
      obtain ⟨d, hd, -⟩ := hlists.all n k hk
      exact List.not_mem_nil hd
    · rw [listFiles, hopen, Except.ok_bind]
      dsimp only
      rw [hnext]
      rfl
  | cons d entries =>
    obtain ⟨s2, hnext, hnode', -⟩ := hsys.findNext file s1 d entries hpending
    rw [hpending] at hlists
    obtain ⟨n, hname, hentry⟩ := hlists.entry d List.mem_cons_self
    obtain ⟨m2, hstore, hholds, hsame'⟩ :=
      @storeFound_eq { iter with file := file } m1 d ((h.same hsame))
      (by rw [hname]; exact hshort n _ hentry)
    rw [hname] at hholds
    refine ⟨m2, s2, hnode'.trans hnode, hsame.trans hsame',
      .inr ⟨n, d.kind, file, hentry, hholds, ?_⟩⟩
    rw [listFiles, hopen, Except.ok_bind]
    dsimp only
    rw [hnext]
    dsimp only
    rw [hstore, ← isDir_eq]
    rfl

/-- The first entry decides what the body of the loop does. -/
theorem removeDirStep_eq (hsys : sys.Windows ds units node pending) (h : FrameMem iter.base m)
    (hfile : iter.file = 0) (hall : iter.allFiles = unitsAt iter.base 518 (nodeDir ds ps ++ [42]))
    (hpattern : Holds m.read iter.base (unitBytes (nodeDir ds ps ++ [42] ++ [0])))
    (hnames : ∀ c ∈ nodeNames ds ps, IsName c) (hzero : 0 ∉ nodeDir ds ps)
    (hlen : 2 * (nodeDir ds ps ++ [42]).length ≤ 518) (hdir : node s ps = some .dir)
    (hfits : ∀ n k, node s (ps ++ [n]) = some k → ToldByLow [] n.units ∧
      2 * (nodeDir ds ps ++ n.units).length ≤ 518) :
    ∃ m' s', node s' = node s ∧ Mem.SameOutside iter.base 1168 m m' ∧
      ((∀ n, node s (ps ++ [n]) = none) ∧
        (∀ again, removeDirStep sys again (iter, m, s) = .ok (.done (none, m', s'))) ∨
        ∃ n k, node s (ps ++ [n]) = some k ∧
        Holds m'.read iter.base (unitBytes (nodeDir ds ps ++ n.units ++ [0])) ∧
          ∀ again, removeDirStep sys again (iter, m, s) =
            if k = .dir then again iter.base m' s' >>= fun r => .ok (.done (some r.1, r.2))
            else removeFile sys iter.base m' s' >>= fun r => .ok (.done (some r.1, m', r.2))) := by
  have hshort (n : EntryName) (k : Kind) (hk : node s (ps ++ [n]) = some k) :
      2 * n.units.length ≤ 518 := by
    have hle := (hfits n k hk).2
    rw [List.length_append] at hle
    omega
  obtain ⟨m1, s1, hnode, hsame, hlist⟩ := listFiles_eq hsys h hfile hpattern hzero hlen hdir hshort
  rcases hlist with ⟨hempty, iter', hlist⟩ | ⟨n, k, file, hentry, hholds, hlist⟩
  · refine ⟨m1, s1, hnode, same_frame hsame, .inl ⟨hempty, fun again => ?_⟩⟩
    rw [removeDirStep, hlist]
    rfl
  · have hframe := h.same hsame
    have hpattern' :=
      holds_pattern hpattern (by rw [List.length_append, List.length_singleton]; omega) hsame
    rw [unitBytes_append] at hpattern'
    have hall' := hpattern'.of_append
    obtain ⟨r, hup⟩ := moveUpPath_asterisk hnames hall' hlen
    rw [unitBytes_append] at hall'
    obtain ⟨m2, happend, hholds', hsame'⟩ :=
      appendName_eq hframe n.isName (hfits n k hentry).1 hholds hall'.of_append (hfits n k hentry).2
    have hfilename :=
      pathCString_eq hholds (fun hmem => (n.isName.2.1 0 hmem).1 rfl) (hshort n k hentry)
    refine ⟨m2, s1, hnode, (same_frame hsame).trans (hsame'.mono (by decide)),
      .inr ⟨n, k, hentry, hholds', fun again => ?_⟩⟩
    rw [removeDirStep, hlist, Except.ok_bind]
    dsimp only
    rw [if_pos rfl, hall, nodeDir, hup, Except.ok_bind]
    dsimp only
    rw [hfilename, Except.ok_bind, happend, Except.ok_bind]
    dsimp only
    cases k with
    | dir => rfl
    | file => rfl

end

/-! ### The paths of the tree -/

section
variable {node : List EntryName → Option Kind} {ds : List (List UInt16)}
  {units : List UInt16} {ps : List EntryName} {n : EntryName}

theorem nodeNames_concat (ps : List EntryName) (n : EntryName) :
    nodeNames ds (ps ++ [n]) = nodeNames ds ps ++ [n.units] := by
  rw [nodeNames, List.map_append, ← List.append_assoc]
  rfl

theorem nodeText_concat (ps : List EntryName) (n : EntryName) :
    nodeText ds units (ps ++ [n]) = nodeDir ds ps ++ n.units := by
  rw [nodeText, if_neg (List.append_ne_nil_of_right_ne_nil _ (List.cons_ne_nil n [])),
    nodeNames_concat, intercalate_concat, nodeDir]

theorem nodeDir_concat (ps : List EntryName) (n : EntryName) :
    nodeDir ds (ps ++ [n]) = nodeDir ds ps ++ (n.units ++ [92]) := by
  rw [nodeDir, nodeNames_concat, dirText_append, nodeDir]

namespace IsDirPath

theorem names_below (h : IsDirPath ds units) (ps : List EntryName) :
    ∀ d ∈ nodeNames ds ps, IsName d := by
  intro d hd
  rcases List.mem_append.1 hd with hd | hd
  · exact h.names d hd
  · obtain ⟨n, -, rfl⟩ := List.mem_map.1 hd
    exact n.isName

theorem below (h : IsDirPath ds units) (ps : List EntryName) :
    IsDirPath (nodeNames ds ps) (nodeText ds units ps) := by
  by_cases hps : ps = []
  · subst hps
    rw [nodeNames, List.map_nil, List.append_nil, nodeText, if_pos rfl]
    exact h
  · have hne : nodeNames ds ps ≠ [] := List.append_ne_nil_of_left_ne_nil h.ne_nil _
    rw [nodeText, if_neg hps]
    exact ⟨hne, h.names_below ps, .inl (separatedBy_intercalate hne)⟩

theorem zero_notMem_nodeDir (h : IsDirPath ds units) (ps : List EntryName) : 0 ∉ nodeDir ds ps := by
  have hne : nodeNames ds ps ≠ [] := List.append_ne_nil_of_left_ne_nil h.ne_nil _
  have hpath : IsDirPath (nodeNames ds ps) (nodeDir ds ps) := by
    refine ⟨hne, h.names_below ps, .inr ?_⟩
    have hsep := @separatedBy_intercalate (nodeNames ds ps ++ [[]])
      (List.append_ne_nil_of_right_ne_nil _ (List.cons_ne_nil _ _))
    rwa [intercalate_concat, List.append_nil] at hsep
  exact hpath.zero_notMem

theorem head?_eq (h : IsDirPath ds units) (ps : List EntryName) :
    (nodeText ds units ps).head? = units.head? := by
  obtain ⟨d, ds, rfl⟩ := List.exists_cons_of_ne_nil h.ne_nil
  have hd := (h.names d List.mem_cons_self).1
  obtain ⟨l, rfl⟩ : d <+: units := h.separated.elim prefix_of_separatedBy prefix_of_separatedBy
  obtain ⟨l', hl⟩ : d <+: nodeText (d :: ds) (d ++ l) ps :=
    (h.below ps).separated.elim prefix_of_separatedBy prefix_of_separatedBy
  rw [← hl, List.head?_append_of_ne_nil _ hd, List.head?_append_of_ne_nil _ hd]

end IsDirPath

theorem Fits.told_node (h : Fits ds units node) (hpath : IsDirPath ds units)
    (hdir : node ps = some .dir) : ToldByLow (nodeText ds units ps) (nodeText ds units ps) := by
  refine ⟨?_, by rw [hpath.head?_eq]; exact h.told.2⟩
  rcases List.eq_nil_or_concat ps with rfl | ⟨qs, n, rfl⟩
  · exact h.told.1
  · rw [List.concat_eq_append] at *
    rw [nodeText_concat, List.getLast?_append_of_ne_nil _ n.isName.1]
    exact (h.told_end qs n hdir).1

theorem Fits.entry (h : Fits ds units node) {k : Kind} (hk : node (ps ++ [n]) = some k) :
    ToldByLow [] n.units ∧ 2 * (nodeDir ds ps ++ n.units).length ≤ 518 := by
  refine ⟨h.told_front ps n k hk, ?_⟩
  cases k with
  | file =>
    have hle := h.file _ hk
    rwa [nodeText_concat] at hle
  | dir =>
    have hle := h.dir _ hk
    rw [nodeDir_concat] at hle
    simp only [List.length_append, List.length_singleton] at hle ⊢
    omega

end

/-! ### The function -/

section
variable {σ : Type} {sys : DirCalls σ} {node : σ → List EntryName → Option Kind}
  {pending : Usz → σ → List FindData} {ds : List (List UInt16)} {units : List UInt16}
  {frame : Nat → Ptr} {star dirPath : Ptr} {depth : Nat} {m : Mem} {s : σ} {ps : List EntryName}

theorem whileLoop_of_bind_done {α β τ : Type} {body : α → Res (Ctl α β)}
    {st : α} {x : Res τ} {f : τ → β} (h : body st = x >>= fun r => .ok (.done (f r))) :
    whileLoop body st = x >>= fun r => .ok (f r) := by
  cases x with
  | error e => exact whileLoop_of_error h
  | ok r => exact whileLoop_of_done h

theorem length_nodeText_le (hpath : IsDirPath ds units) (hfits : Fits ds units (node s))
    (hdir : node s ps = some .dir) : 2 * (nodeText ds units ps).length ≤ 516 := by
  obtain ⟨-, -, -, -, -, -, hle⟩ := (hpath.below ps).copy (hfits.told_node hpath hdir)
  have hlen := hfits.dir ps hdir
  rw [List.length_append, List.length_singleton, nodeDir] at hlen
  omega

/-- A call removes the directory if it is empty, and returns what comes of its first entry if it is
not. -/
theorem removeDir_eq (hsys : sys.Windows ds units node pending) (hpath : IsDirPath ds units)
    (hfits : Fits ds units (node s))
    (hmem : RemoveDirMem frame star depth dirPath m (nodeText ds units ps))
    (hdir : node s ps = some .dir) : ∃ m' s',
      node s' = node s ∧ Mem.SameOutside (frame depth) 1168 m m' ∧
      ((∀ n, node s (ps ++ [n]) = none) ∧
        (∀ fuel, removeDir sys frame star (fuel + 1) depth dirPath true m s =
          removeDirectoryAt sys dirPath m' s' >>= fun r => .ok (r.1, m', r.2)) ∨
        ∃ n k, node s (ps ++ [n]) = some k ∧
        Holds m'.read (frame depth) (unitBytes (nodeText ds units (ps ++ [n]) ++ [0])) ∧
          ∀ fuel, removeDir sys frame star (fuel + 1) depth dirPath true m s =
            if k = .dir then removeDir sys frame star fuel (depth + 1) (frame depth) true m' s'
            else removeFile sys (frame depth) m' s' >>= fun r => .ok (r.1, m', r.2)) := by
  have hbelow := hpath.below ps
  have htold := hfits.told_node hpath hdir
  have hlen := hfits.dir ps hdir
  have hshort := length_nodeText_le hpath hfits hdir
  have hremovePath := pathCString_eq hmem.path_holds hbelow.zero_notMem (by omega)
  have hsize : IterDir.size.toNat = 1168 := rfl
  have hclear : m.memset (frame depth) 0 IterDir.size =
      .ok (m.store (frame depth) (List.replicate 1168 0)) := by
    rw [Mem.memset, hsize]
    exact Mem.writeBytes_eq (by rw [List.length_replicate]; exact hmem.writable depth)
      (by rw [List.length_replicate]; decide)
  have hcleared :
      Mem.SameOutside (frame depth) 1168 m (m.store (frame depth) (List.replicate 1168 0)) :=
    .store m fun a ha => by rwa [List.length_replicate] at ha
  obtain ⟨m1, hinit, hpattern, hsame⟩ := hmem.initIterDir_eq hbelow htold hlen hcleared
  obtain ⟨m2, s', hnode, hsame', hstep⟩ := @removeDirStep_eq _ sys node pending ds units
    { IterDir.zero (frame depth) with
      allFiles := unitsAt (frame depth) 518 (dirText 92 false (nodeNames ds ps) ++ [42]) } m1 s ps
    hsys (hmem.frameMem.same hsame) rfl rfl hpattern (hpath.names_below ps)
    (hpath.zero_notMem_nodeDir ps) hlen hdir fun n k hk => hfits.entry hk
  refine ⟨m2, s', hnode, hsame.trans hsame', ?_⟩
  rcases hstep with ⟨hempty, hstep⟩ | ⟨n, k, hk, hholds, hstep⟩
  · refine .inl ⟨hempty, fun fuel => ?_⟩
    rw [removeDir, if_pos rfl, hremovePath, Except.ok_bind, hclear,
      Except.ok_bind, hinit, Except.ok_bind]
    dsimp only
    rw [whileLoop_of_done (hstep _)]
    rfl
  · rw [← nodeText_concat] at hholds
    refine .inr ⟨n, k, hk, hholds, fun fuel => ?_⟩
    rw [removeDir, if_pos rfl, hremovePath, Except.ok_bind, hclear,
      Except.ok_bind, hinit, Except.ok_bind]
    dsimp only
    cases k with
    | dir =>
      rw [whileLoop_of_bind_done (x := removeDir sys frame star fuel (depth + 1) (frame depth) true
        m2 s') (hstep _), if_pos rfl]
      cases removeDir sys frame star fuel (depth + 1) (frame depth) true m2 s' <;> rfl
    | file =>
      rw [whileLoop_of_bind_done (x := removeFile sys (frame depth) m2 s') (hstep _),
        if_neg (by decide)]
      cases removeFile sys (frame depth) m2 s' <;> rfl

theorem removeDirectoryAt_eq (hsys : sys.Windows ds units node pending) (hpath : IsDirPath ds units)
    (hholds : Holds m.read dirPath (unitBytes (nodeText ds units ps ++ [0])))
    (hlen : 2 * (nodeText ds units ps).length ≤ 518) (hdir : node s ps = some .dir)
    (hempty : ∀ n, node s (ps ++ [n]) = none) : ∃ s',
      removeDirectoryAt sys dirPath m s = .ok (true, s') ∧
      node s' = Function.update (node s) ps none := by
  obtain ⟨s', hremove, hnode⟩ := hsys.removeDirectory s ps hdir hempty
  refine ⟨s', ?_, hnode⟩
  rw [removeDirectoryAt, wideCString_eq hholds (hpath.below ps).zero_notMem (by omega),
    Except.ok_bind, hremove]
  rfl

theorem removeFile_eq (hsys : sys.Windows ds units node pending) (hpath : IsDirPath ds units)
    (hholds : Holds m.read dirPath (unitBytes (nodeText ds units ps ++ [0])))
    (hlen : 2 * (nodeText ds units ps).length ≤ 518) (hfile : node s ps = some .file) : ∃ s',
      removeFile sys dirPath m s = .ok (true, s') ∧ node s' = Function.update (node s) ps none := by
  obtain ⟨s', hremove, hnode⟩ := hsys.removeFile s ps hfile
  refine ⟨s', ?_, hnode⟩
  rw [removeFile, wideCString_eq hholds (hpath.below ps).zero_notMem (by omega), Except.ok_bind,
    hremove]
  rfl

/-- The path of a directory is in memory until it is removed. -/
theorem RemoveDirMem.holds_path (h : RemoveDirMem frame star depth dirPath m units) {m' : Mem}
    (hm : Mem.SameOutside (frame depth) 1168 m m') :
    Holds m'.read dirPath (unitBytes (units ++ [0])) := (h.strings_same hm).1

theorem removeDir_empty (hsys : sys.Windows ds units node pending) (hpath : IsDirPath ds units)
    (hfits : Fits ds units (node s))
    (hmem : RemoveDirMem frame star depth dirPath m (nodeText ds units ps))
    (hdir : node s ps = some .dir) (hempty : ∀ n, node s (ps ++ [n]) = none) :
    ∃ m' s', node s' = Function.update (node s) ps none ∧
      ∀ fuel, removeDir sys frame star (fuel + 1) depth dirPath true m s = .ok (true, m', s') := by
  obtain ⟨m', s1, hnode, hsame, hrun⟩ := removeDir_eq hsys hpath hfits hmem hdir
  rcases hrun with ⟨-, hrun⟩ | ⟨n, k, hk, -⟩
  · have hlen := length_nodeText_le hpath hfits hdir
    obtain ⟨s', hremove, hnode'⟩ :=
      removeDirectoryAt_eq hsys hpath (hmem.holds_path hsame) (by omega) (hnode ▸ hdir)
      (hnode ▸ hempty)
    refine ⟨m', s', hnode ▸ hnode', fun fuel => ?_⟩
    rw [hrun, hremove]
    rfl
  · rw [hempty n] at hk
    cases hk

/-- There is a call that removes one thing in the directory, or the directory if it is empty, and
returns true. -/
theorem removeDir_one (hsys : sys.Windows ds units node pending)
    (hpath : IsDirPath ds units) (k : Nat) :
    ∀ (ps : List EntryName) (depth : Nat) (dirPath : Ptr) (m : Mem) (s : σ),
      Fits ds units (node s) →
      RemoveDirMem frame star depth dirPath m (nodeText ds units ps) → node s ps = some .dir →
      259 ≤ (nodeDir ds ps).length + k →
      ∃ fuel m' s' qs, removeDir sys frame star fuel depth dirPath true m s = .ok (true, m', s') ∧
        node s' = Function.update (node s) qs none ∧ ps <+: qs ∧
        (qs = ps → ∀ n, node s (ps ++ [n]) = none) := by
  induction k with
  | zero =>
    intro ps depth dirPath m s hfits _ hdir hk
    have hlen := hfits.dir ps hdir
    rw [List.length_append, List.length_singleton] at hlen
    omega
  | succ k ih =>
    intro ps depth dirPath m s hfits hmem hdir hk
    by_cases hempty : ∀ n, node s (ps ++ [n]) = none
    · obtain ⟨m', s', hnode, hrun⟩ := removeDir_empty hsys hpath hfits hmem hdir hempty
      exact ⟨1, m', s', ps, hrun 0, hnode, List.prefix_refl ps, fun _ => hempty⟩
    · obtain ⟨m', s1, hnode, hsame, hrun⟩ := removeDir_eq hsys hpath hfits hmem hdir
      rcases hrun with ⟨hempty', -⟩ | ⟨n, kind, hk, hholds, hrun⟩
      · exact absurd hempty' hempty
      · have hlonger (qs : List EntryName) (hqs : ps ++ [n] <+: qs) : ps <+: qs ∧
            (qs = ps → ∀ n, node s (ps ++ [n]) = none) := by
          refine ⟨(List.prefix_append ps [n]).trans hqs, fun heq => ?_⟩
          have hle := hqs.length_le
          rw [heq, List.length_append, List.length_singleton] at hle
          omega
        have hfits' : Fits ds units (node s1) := hnode ▸ hfits
        have hlen := (hfits.entry hk).2
        rw [← nodeText_concat] at hlen
        cases kind with
        | file =>
          obtain ⟨s', hremove, hnode'⟩ := removeFile_eq hsys hpath hholds hlen (hnode ▸ hk)
          refine ⟨1, m', s', ps ++ [n], ?_, hnode ▸ hnode', hlonger _ (List.prefix_refl _)⟩
          rw [hrun 0, if_neg (by decide), hremove]
          rfl
        | dir =>
          have hdeeper : 259 ≤ (nodeDir ds (ps ++ [n])).length + k := by
            rw [nodeDir_concat, List.length_append, List.length_append, List.length_singleton]
            omega
          obtain ⟨fuel, m2, s', qs, hcall, hnode', hqs, -⟩ :=
            ih (ps ++ [n]) (depth + 1) (frame depth) m' s1 hfits'
            (hmem.next hsame hholds hlen) (hnode ▸ hk) hdeeper
          refine ⟨fuel + 1, m2, s', qs, ?_, hnode ▸ hnode', hlonger qs hqs⟩
          rw [hrun fuel, if_pos rfl, hcall]

/-- What is in the directory is in one of its entries. -/
theorem entry_ne_none (hsys : sys.Windows ds units node pending) {n : EntryName}
    (h : node s (n :: ps) ≠ none) : node s [n] ≠ none := by
  induction ps using List.reverseRecOn with
  | nil => exact h
  | append_singleton ps n' ih =>
    refine ih ?_
    rw [hsys.inDir s (n :: ps) n' h]
    exact Option.some_ne_none _

theorem removesAll_of_empty (hsys : sys.Windows ds units node pending) (hpath : IsDirPath ds units)
    (hfits : Fits ds units (node s)) (hmem : RemoveDirMem frame star 0 dirPath m units)
    (hdir : node s [] = some .dir) (hempty : ∀ n, node s [n] = none) :
    RemovesAll sys node frame star dirPath m s := by
  intro fuel m' s' hrun ps
  obtain ⟨m1, s1, hnode, hremove⟩ :=
    @removeDir_empty _ sys node pending ds units frame star dirPath 0 m s [] hsys hpath hfits hmem
    hdir hempty
  cases fuel with
  | zero => cases hrun
  | succ fuel =>
    rw [hremove fuel] at hrun
    cases hrun
    rw [hnode]
    cases ps with
    | nil => exact Function.update_self ..
    | cons n ps =>
      rw [Function.update_of_ne (List.cons_ne_nil n ps)]
      by_contra hne
      exact entry_ne_none hsys hne (hempty n)

theorem not_removesAll (hsys : sys.Windows ds units node pending) (hpath : IsDirPath ds units)
    (hfits : Fits ds units (node s)) (hmem : RemoveDirMem frame star 0 dirPath m units)
    (hdir : node s [] = some .dir) {n : EntryName} (hn : node s [n] ≠ none) :
    ¬ RemovesAll sys node frame star dirPath m s := fun h => by
  obtain ⟨fuel, m', s', qs, hrun, hnode, -, hempty⟩ :=
    removeDir_one hsys hpath 259 [] 0 dirPath m s hfits hmem hdir (Nat.le_add_left _ _)
  have hgone := h fuel m' s' hrun []
  rw [hnode] at hgone
  by_cases hqs : qs = []
  · exact hn (hempty hqs n)
  · rw [Function.update_of_ne (Ne.symm hqs), hdir] at hgone
    cases hgone

end

/-- The directory is removed with all that is below it if there is nothing below it. -/
theorem removeDir_removesAll_iff {σ : Type} (sys : DirCalls σ)
    (node : σ → List EntryName → Option Kind) (pending : Usz → σ → List FindData)
    (ds : List (List UInt16)) (units : List UInt16) (frame : Nat → Ptr) (star dirPath : Ptr)
    (m : Mem) (s : σ) (hsys : sys.Windows ds units node pending) (hpath : IsDirPath ds units)
    (hfits : Fits ds units (node s)) (hmem : RemoveDirMem frame star 0 dirPath m units)
    (hdir : node s [] = some .dir) :
    RemovesAll sys node frame star dirPath m s ↔ ∀ n, node s [n] = none := by
  refine ⟨fun h n => ?_, removesAll_of_empty hsys hpath hfits hmem hdir⟩
  by_contra hn
  exact not_removesAll hsys hpath hfits hmem hdir hn h

/-! A directory `d` that may have a file `a` in it. -/

structure Volume where
  hasDir : Bool
  hasFile : Bool
  pending : List FindData

namespace Volume

def nameA : EntryName := ⟨[97], by decide⟩

def fileA : FindData := { fileAttributes := fileAttributeNormal, fileName := [97] }

def node (v : Volume) (ps : List EntryName) : Option Kind :=
  if ps = [] then (if v.hasDir then some .dir else none)
  else if ps = [nameA] then (if v.hasDir ∧ v.hasFile then some .file else none)
  else none

def next (v : Volume) : Option FindData × Volume :=
  match v.pending with
  | [] => (none, v)
  | d :: rest => (some d, { v with pending := rest })

def calls : DirCalls Volume where
  findFirstFile text v :=
    if text = [100, 92, 42] ∧ v.hasDir then
      ((1, some dot), { v with pending := dotDot :: if v.hasFile then [fileA] else [] })
    else ((invalidHandleValue, none), v)
  findNextFile _ v := v.next
  findClose _ v := v
  deleteFile text v := if text = [100, 92, 97] ∧ v.hasDir ∧ v.hasFile then
    (none, { v with hasFile := false }) else (some 2, v)
  setFileAttributes _ _ v := v
  removeDirectory text v :=
    if text = [100] ∧ v.hasDir ∧ ¬ v.hasFile then (true, { v with hasDir := false }) else (false, v)

theorem node_eq_dir_iff {v : Volume} {ps : List EntryName} :
    v.node ps = some .dir ↔ ps = [] ∧ v.hasDir := by
  rw [node]
  split_ifs <;> simp_all

theorem node_eq_file_iff {v : Volume} {ps : List EntryName} :
    v.node ps = some .file ↔ ps = [nameA] ∧ v.hasDir ∧ v.hasFile := by
  rw [node]
  split_ifs <;> simp_all

theorem node_file (v : Volume) :
    v.node [nameA] = if v.hasDir ∧ v.hasFile then some .file else none := by
  rw [node, if_neg (List.cons_ne_nil _ _), if_pos rfl]

theorem of_node_concat {v : Volume} {ps : List EntryName} {n : EntryName}
    (h : v.node (ps ++ [n]) ≠ none) : ps = [] ∧ n = nameA ∧ v.hasDir ∧ v.hasFile := by
  obtain ⟨k, hk⟩ := Option.ne_none_iff_exists'.1 h
  cases k with
  | dir =>
    exact absurd (node_eq_dir_iff.1 hk).1
      (List.append_ne_nil_of_right_ne_nil _ (List.cons_ne_nil n []))
  | file =>
    obtain ⟨hps, hthere⟩ := node_eq_file_iff.1 hk
    obtain ⟨rfl, hn⟩ := List.append_inj' (hps.trans (List.nil_append [nameA]).symm) rfl
    exact ⟨rfl, List.singleton_inj.1 hn, hthere⟩

theorem lists {v : Volume} (hdir : v.hasDir) :
    Lists v.node [] (if v.hasFile then [fileA] else []) where
  entry d hd := by
    split_ifs at hd with hfile
    · obtain rfl := List.mem_singleton.1 hd
      exact ⟨nameA, rfl, node_eq_file_iff.2 ⟨rfl, hdir, hfile⟩⟩
    · exact absurd hd List.not_mem_nil
  all n k hk := by
    obtain ⟨-, rfl, -, hfile⟩ := @of_node_concat v [] n (by rw [hk]; exact Option.some_ne_none k)
    have hnode := node_eq_file_iff.2 ⟨rfl, hdir, hfile⟩
    rw [List.nil_append, hnode] at hk
    rw [if_pos hfile]
    exact ⟨fileA, List.mem_singleton_self _, rfl, Option.some.inj hk⟩
  once := by split_ifs <;> decide

theorem windows : calls.Windows [[100]] [100] node fun _ v => v.pending where
  inDir v ps n h := by
    obtain ⟨rfl, -, hdir, -⟩ := of_node_concat h
    exact node_eq_dir_iff.2 ⟨rfl, hdir⟩
  findFirst v ps h := by
    obtain ⟨rfl, hdir⟩ := node_eq_dir_iff.1 h
    exact ⟨1, { v with pending := dotDot :: if v.hasFile then [fileA] else [] }, _,
      if_pos ⟨by decide, hdir⟩, by decide, rfl, rfl, lists hdir⟩
  findNext _ v d rest h := by
    refine ⟨{ v with pending := rest }, ?_, rfl, rfl⟩
    show v.next = _
    rw [next, h]
  findNext_nil _ v h := by
    refine ⟨v, ?_, rfl⟩
    show v.next = _
    rw [next, h]
  findClose _ _ := rfl
  removeFile v ps h := by
    obtain ⟨rfl, hthere⟩ := node_eq_file_iff.1 h
    refine ⟨{ v with hasFile := false }, ?_, ?_⟩
    · have hdelete : calls.deleteFile (nodeText [[100]] [100] [nameA]) v =
          (none, { v with hasFile := false }) :=
        if_pos ⟨by decide, hthere⟩
      rw [removeFileNamed, hdelete]
    · funext ps
      by_cases hps : ps = [nameA]
      · subst hps
        rw [Function.update_self, node_file, if_neg fun h => Bool.false_ne_true h.2]
      · rw [Function.update_of_ne hps, node, node, if_neg hps, if_neg hps]
  removeDirectory v ps h hempty := by
    obtain ⟨rfl, hdir⟩ := node_eq_dir_iff.1 h
    have hfile : ¬ v.hasFile := fun hfile => by
      have hnone := hempty nameA
      rw [List.nil_append, node_file, if_pos ⟨hdir, hfile⟩] at hnone
      cases hnone
    refine ⟨{ v with hasDir := false }, if_pos ⟨rfl, hdir, hfile⟩, ?_⟩
    funext ps
    by_cases hps : ps = []
    · subst hps
      rw [Function.update_self]
      rfl
    · rw [Function.update_of_ne hps, node, node, if_neg hps, if_neg hps]
      split_ifs <;> simp_all
  removeDirectory_full v ps n h := by
    obtain ⟨rfl, -, -, hfile⟩ := of_node_concat h
    exact ⟨v, if_neg fun h => h.2.2 hfile, rfl⟩

theorem fits (v : Volume) : Fits [[100]] [100] v.node where
  told := by decide
  dir ps h := by
    obtain ⟨rfl, -⟩ := node_eq_dir_iff.1 h
    decide
  file ps h := by
    obtain ⟨rfl, -⟩ := node_eq_file_iff.1 h
    decide
  told_front ps n k h := by
    obtain ⟨-, rfl, -⟩ := @of_node_concat v ps n (by rw [h]; exact Option.some_ne_none k)
    decide
  told_end ps n h :=
    absurd (node_eq_dir_iff.1 h).1 (List.append_ne_nil_of_right_ne_nil _ (List.cons_ne_nil n []))

/-- The literal at `64`, the path at `128`, and two places that the variables of the calls have in
turn. -/
def mem : Mem :=
  ((⟨fun _ => 0, fun _ => true, fun _ => true⟩ : Mem).store 64 (unitBytes [42, 0])).store 128
    (unitBytes [100, 0])

def frame (depth : Nat) : Ptr := if depth % 2 = 0 then 4096 else 8192

theorem removeDirMem : RemoveDirMem frame 64 0 128 mem [100] where
  path_holds := Mem.holds_store fun _ _ => rfl
  star_holds := Mem.reads_store (Mem.holds_store fun _ _ => rfl)
    (apart_of_le (by decide) (by decide) : Apart 64 4 128 4) (by decide)
  readable _ _ _ := rfl
  writable _ _ _ := rfl
  path_apart := apart_of_le (by decide) (by decide)
  star_apart d := by
    rw [frame]
    split_ifs
    · exact apart_of_le (by decide) (by decide)
    · exact apart_of_le (by decide) (by decide)
  apart d := by
    rcases Nat.mod_two_eq_zero_or_one d with h | h
    · rw [frame, frame, if_pos h, if_neg (by omega)]
      exact apart_of_le (by decide) (by decide)
    · rw [frame, frame, if_neg (by omega), if_pos (by omega)]
      exact (apart_of_le (by decide) (by decide) : Apart 4096 1168 8192 1168).symm

end Volume

theorem removeDir_removesAll_empty :
    RemovesAll Volume.calls Volume.node Volume.frame 64 128 Volume.mem
      { hasDir := true, hasFile := false, pending := [] } :=
  (removeDir_removesAll_iff _ _ (fun _ v => v.pending) [[100]] [100] _ _ _ _
    { hasDir := true, hasFile := false, pending := [] }
    Volume.windows ⟨by decide, by decide, .inl (.one [100])⟩ (Volume.fits _)
    Volume.removeDirMem rfl).2 fun n => by
      by_contra h
      exact Bool.false_ne_true (@Volume.of_node_concat _ [] n h).2.2.2

/-- The file in the directory is deleted, and the directory stays. -/
theorem removeDir_not_removesAll :
    Volume.calls.Windows [[100]] [100] Volume.node (fun _ v => v.pending) ∧
    IsDirPath [[100]] [100] ∧
      Fits [[100]] [100] (Volume.node { hasDir := true, hasFile := true, pending := [] }) ∧
    RemoveDirMem Volume.frame 64 0 128 Volume.mem [100] ∧
    ¬ RemovesAll Volume.calls Volume.node Volume.frame 64 128 Volume.mem
      { hasDir := true, hasFile := true, pending := [] } := by
  have hpath : IsDirPath [[100]] [100] := ⟨by decide, by decide, .inl (.one [100])⟩
  refine ⟨Volume.windows, hpath, Volume.fits _, Volume.removeDirMem, ?_⟩
  exact not_removesAll Volume.windows hpath (Volume.fits _) Volume.removeDirMem rfl
    (n := Volume.nameA) (by decide)

end TinyBase.Win32
