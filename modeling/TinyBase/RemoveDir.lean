import TinyBase.IterDir
import TinyBase.PathAncestor

/-!
# Removing a directory with what is in it (`RemoveDir`, Linux)

`RemoveDir` lists the entries of the directory with `ListFiles`, and removes each of them before it
removes the directory. Any of the calls of the system that remove something may fail.
-/

namespace TinyBase
open LexicalPath

section
variable {σ : Type} (sys : DirCalls σ)

def removeFile (filename : Ptr) (m : Mem) (s : σ) : Res (Bool × σ) := do
  let text ← cString m.read filename
  pure (sys.unlink text s)

/-- `rmdir`. -/
def rmdirAt (dirPath : Ptr) (m : Mem) (s : σ) : Res (Bool × σ) := do
  let text ← cString m.read dirPath
  pure (sys.rmdir text s)

/-- What is done with an entry; `again` is `RemoveDir` itself. -/
def removeEntry (again : Ptr → Mem → σ → Res (Bool × Mem × σ)) (iter : IterDir)
    (scratchPath : String) (m : Mem) (s : σ) : Res (Bool × Mem × σ) :=
  if iter.isDir then again scratchPath.base m s
  else do
    let (result, s) ← removeFile sys scratchPath.base m s
    pure (result, m, s)

/-- The body of the loop of `RemoveDir`. It is left with false where the function returns false. -/
def removeDirStep (again : Ptr → Mem → σ → Res (Bool × Mem × σ)) (st : IterDir × Mem × σ) :
    Res (Ctl (IterDir × Mem × σ) (Bool × Mem × σ)) := do
  let (more, iter, m, s) ← listFiles sys st.1 st.2.1 st.2.2
  if more then do
    let filename ← pathCString iter.filename m
    let (_, scratchPath, m) ← appendPathToPath filename iter.allFiles m
    let (result, m, s) ← removeEntry sys again iter scratchPath m s
    let _ ← moveUpPath scratchPath 1 m
    if result then pure (.next (iter, m, s)) else pure (.done (false, m, s))
  else pure (.done (true, m, s))

/-- `RemoveDir`. The variable `Iter` of the call that is `depth` calls deep is at `frame depth`;
`fuel` bounds how deep the calls go. -/
def removeDir (frame : Nat → Ptr) : Nat → Nat → Ptr → Bool → Mem → σ → Res (Bool × Mem × σ)
  | 0, _, _, _, _, _ => .error .rounds
  | fuel + 1, depth, dirPath, removeAllFiles, m, s =>
    if removeAllFiles then do
      let removePath ← pathCString dirPath m
      let m ← m.memset (frame depth) 0 IterDir.size
      let (iter, m) ← initIterDir (.zero (frame depth)) removePath m
      let (result, m, s) ← whileLoop (removeDirStep sys fun path m s =>
        removeDir frame fuel (depth + 1) path true m s) (iter, m, s)
      if result then do
        let (result, s) ← rmdirAt sys dirPath m s
        pure (result, m, s)
      else pure (false, m, s)
    else do
      let (result, s) ← rmdirAt sys dirPath m s
      pure (result, m, s)

end

/-- The path of an entry of the directory `ps`. -/
def entryText (absolute : Bool) (ps : List Name) (n : Name) : List UInt8 :=
  dirText 47 absolute (ps.map Name.bytes) ++ n.bytes

section
variable {σ : Type} (sys : DirCalls σ) (absolute : Bool) (fs : DirView σ)

/-- No file or empty directory is protected, and the file system gives the types of the
directories. -/
structure DirCalls.Allows : Prop where
  typed : ∀ s ps, fs.node s ps = some .dir → fs.typed ps
  unlink : ∀ s ps n k, k ≠ .dir → fs.node s (ps ++ [n]) = some k →
    (sys.unlink (entryText absolute ps n) s).1 = true
  rmdir : ∀ s ps text, IsPathText absolute ps text → ps ≠ [] → fs.node s ps = some .dir →
    (∀ n, fs.node s (ps ++ [n]) = none) →
    (sys.rmdir text s).1 = true

end

/-- The paths of what is in the directory fit in `AllFilesBuf`, with a byte for another slash, and
the stack has a place for each call: there are `levels` of them, and the directory is removed by a
call that is `depth` calls deep. -/
structure Fits (absolute : Bool) (levels depth : Nat) (ps : List Name)
    (node : List Name → Option Kind) : Prop where
  text : ∀ qs n, ps <+: qs → node (qs ++ [n]) ≠ none → (entryText absolute qs n).length < 4095
  deep : ∀ qs, ps <+: qs → node qs = some .dir → qs.length + depth < ps.length + levels

/-- What is taken for a directory at `ps` and below is one that the program is permitted to open. -/
def Walkable {σ : Type} (fs : DirView σ) (ps : List Name) (node : List Name → Option Kind) : Prop :=
  ∀ qs k, ps <+: qs → node qs = some k → fs.typed qs → k.hasDirBit → k = .dir ∧ fs.permits qs

/-- The memory: the path of the directory is a string; the variables of the calls can be written,
and they are apart from one another and from the path. -/
structure RemoveDirMem (frame : Nat → Ptr) (levels depth : Nat) (dirPath : Ptr) (m : Mem)
    (text : List UInt8) : Prop where
  path_holds : Holds m.read dirPath (text ++ [0])
  readable : ∀ d < levels, m.Readable (frame d) 4744
  writable : ∀ d < levels, ∀ i : Usz, i.toNat < 4744 → m.writable (frame d + i)
  path_apart : ∀ d < levels, depth ≤ d → Apart dirPath (text.length + 1) (frame d) 4744
  apart : ∀ d e, d < e → e < levels → Apart (frame d) 4744 (frame e) 4744

/-! ### The path of an entry -/

section
variable {m : Mem} {src dst : String} {absolute : Bool} {cs : List (List UInt8)} {c : List UInt8}

/-- One name is put behind the path, with a slash between them, and the zero byte behind it. -/
theorem appendName_eq (hmem : JoinMem src dst m) (hcs : ∀ c ∈ cs, IsComponent 47 c)
    (htext : IsText 47 absolute cs (stringBytes dst m)) (hname : stringBytes src m = c)
    (hc : IsComponent 47 c) (hroom : dst.writeCur.toNat + c.length + 1 ≤ dst.size.toNat)
    (hread : m.Readable dst.base (dst.size.toNat + 1)) : ∃ m',
      appendPathToPathUnchecked src dst m =
        .ok (true, { dst with writeCur := .ofNat (dirText 47 absolute cs ++ c).length }, m') ∧
      Holds m'.read dst.base (dirText 47 absolute cs ++ c ++ [0]) ∧
      Mem.SameOutside dst.base (dst.size.toNat + 1) m m' := by
  have hcur : src.writeCur.toNat = c.length := by rw [← hname, length_stringBytes]
  have hsmall := hmem.small
  obtain ⟨tmp, m1, hsep, h, hwritten⟩ := joins_start hmem hcs htext (by rw [hcur]; exact hroom)
  have hskip : skipSeparator src dst m1 = .ok src := by
    have hnone : ∀ c ∈ ([] : List (List UInt8)), IsComponent 47 c := fun c hc => nomatch hc
    refine skipSeparator_eq hmem (fun h0 => ?_) hnone hc.2 hname h.bytes_eq hwritten
    rw [h0] at hcur
    exact absurd (List.eq_nil_of_length_eq_zero hcur.symm) hc.1
  have hrest : (stringBytes src m).drop 0 = c := hname
  obtain ⟨hle, hfits⟩ := h.spaceLeft_last hrest
  have hrun :=
    h.unchecked_eq hmem hrest hsep hskip (h.whileLoop_eq hmem hrest hc.2 fun _ hres => hres)
  have hbase : tmp.base = dst.base := h.base_eq
  have hsize : tmp.size = dst.size := h.size_eq
  have hdir : stringBytes tmp m1 = dirText 47 absolute cs := h.text
  have hdirLen : tmp.writeCur.toNat = (dirText 47 absolute cs).length := by
    rw [← hdir, length_stringBytes]
  dsimp only at hrun hle hfits
  rw [spaceLeft_eq hle] at hfits
  have hgrown : (tmp.grown c.length).writeCur = tmp.writeCur + UInt64.ofNat c.length := rfl
  have hsum : (tmp.writeCur + UInt64.ofNat c.length).toNat = tmp.writeCur.toNat + c.length := by
    rw [← hgrown]
    exact toNat_grown_writeCur hle (by rw [spaceLeft_eq hle]; exact hfits)
  rw [hgrown, ← UInt64.add_assoc, Mem.store_append (by rw [List.length_singleton]; omega)] at hrun
  have hlen : (c ++ [0]).length = c.length + 1 := by rw [List.length_append, List.length_singleton]
  have hsizeNat := congrArg UInt64.toNat hsize
  have hsame : Mem.SameOutside dst.base (dst.size.toNat + 1) m m1 := 
    ⟨h.readable_eq, h.writable_eq, fun a ha => hwritten.byte_eq (by omega) ha⟩
  have hgrows : tmp.grown c.length =
      { dst with writeCur := .ofNat (dirText 47 absolute cs ++ c).length } := by
    have henc : tmp.enc = dst.enc := h.enc_eq.trans hmem.dst_enc.symm
    have hcur' : UInt64.ofNat (dirText 47 absolute cs ++ c).length = tmp.writeCur +
        UInt64.ofNat c.length := by
      rw [List.length_append, UInt64.ofNat_add, ← hdirLen, UInt64.ofNat_toNat]
    rw [hcur', String.grown]
    obtain ⟨⟨base, cur, size⟩, enc⟩ := tmp
    dsimp only at hbase hsize henc
    subst hbase hsize henc
    rfl
  rw [hgrows] at hrun
  refine ⟨_, hrun, ?_, hsame.trans ?_⟩
  · have hread' : m1.Readable tmp.base (dst.size.toNat + 1) := by
      rw [hbase]
      exact hsame.readable hread
    have hholds : Holds m1.read tmp.base (dirText 47 absolute cs) := by
      rw [← hdir]
      exact holds_stringBytes fun i hi => hread' i (by omega)
    rw [List.append_assoc, ← hbase]
    refine Holds.append (Mem.reads_store hholds (apart_add (by omega) (by omega)) (Nat.le_refl _))
      ?_
    rw [← hdirLen, UInt64.ofNat_toNat]
    refine Mem.holds_store fun i hi => ?_
    have hat : (tmp.writeCur + i).toNat = tmp.writeCur.toNat + i.toNat :=
      UInt64.toNat_add_of_lt (by omega)
    rw [UInt64.add_assoc]
    exact hread' _ (by omega)
  · rw [hbase]
    exact .store_add m1 (by omega)

end

/-! ### The variables of the calls -/

/-- `m'` differs from `m` at most in the variables of the calls that are `depth` calls deep, or
deeper. -/
structure SameAbove (frame : Nat → Ptr) (levels depth : Nat) (m m' : Mem) : Prop where
  readable_eq : m'.readable = m.readable
  writable_eq : m'.writable = m.writable
  byte_eq : ∀ a, (∀ d < levels, depth ≤ d → ¬ InRange (frame d) 4744 a) → m'.byte a = m.byte a

namespace SameAbove
variable {frame : Nat → Ptr} {levels depth : Nat} {m m' m'' : Mem} {p : Ptr} {n : Nat}
  {bs text : List UInt8} {dirPath : Ptr}

theorem refl (frame : Nat → Ptr) (levels depth : Nat) (m : Mem) :
    SameAbove frame levels depth m m := ⟨rfl, rfl, fun _ _ => rfl⟩

theorem trans (h : SameAbove frame levels depth m m') (h' : SameAbove frame levels depth m' m'') :
    SameAbove frame levels depth m m'' :=
  ⟨h'.readable_eq.trans h.readable_eq, h'.writable_eq.trans h.writable_eq,
    fun a ha => (h'.byte_eq a ha).trans (h.byte_eq a ha)⟩

theorem of_next (h : SameAbove frame levels (depth + 1) m m') : SameAbove frame levels depth m m' :=
  ⟨h.readable_eq, h.writable_eq, fun a ha => h.byte_eq a fun d hd hdepth =>
    ha d hd (Nat.le_of_succ_le hdepth)⟩

theorem of_sameOutside (h : Mem.SameOutside (frame depth) n m m') (hn : n ≤ 4744)
    (hdepth : depth < levels) :
    SameAbove frame levels depth m m' :=
  ⟨h.readable_eq, h.writable_eq,
    fun a ha => (h.mono hn).byte_eq a (ha depth hdepth (Nat.le_refl _))⟩

theorem holds (h : SameAbove frame levels depth m m') (hbs : Holds m.read p bs)
    (hapart : ∀ d < levels, depth ≤ d → Apart p bs.length (frame d) 4744) :
    Holds m'.read p bs := fun i hi => by
  have hread := hbs i hi
  rw [Mem.read] at hread ⊢
  rw [h.readable_eq, h.byte_eq _ fun d hd hdepth => hapart d hd hdepth _ (inRange_add.2 hi)]
  exact hread

theorem frameMem (h : SameAbove frame levels depth m m') (hframe : FrameMem p m) :
    FrameMem p m' where
  readable i hi := by
    rw [h.readable_eq]
    exact hframe.readable i hi
  writable i hi := by
    rw [h.writable_eq]
    exact hframe.writable i hi

end SameAbove

namespace RemoveDirMem
variable {frame : Nat → Ptr} {levels depth : Nat} {m m' m'' : Mem}
  {bs text : List UInt8} {dirPath : Ptr}

theorem frameMem (h : RemoveDirMem frame levels depth dirPath m text) {d : Nat} (hd : d < levels) :
    FrameMem (frame d) m :=
  ⟨h.readable d hd, h.writable d hd⟩

theorem holds_path (h : RemoveDirMem frame levels depth dirPath m text)
    (hm : SameAbove frame levels depth m m') : Holds m'.read dirPath (text ++ [0]) := by
  refine hm.holds h.path_holds fun d hd hdepth => ?_
  rw [List.length_append, List.length_singleton]
  exact h.path_apart d hd hdepth

/-- The call for an entry, whose path is in the variable of this one. -/
theorem next (h : RemoveDirMem frame levels depth dirPath m text)
    (hm : SameAbove frame levels depth m m') {text' : List UInt8}
    (hpath : Holds m'.read (frame depth) (text' ++ [0])) (hlen : text'.length + 1 ≤ 4744) :
    RemoveDirMem frame levels (depth + 1) (frame depth) m' text' where
  path_holds := hpath
  readable _ hd := (hm.frameMem (h.frameMem hd)).readable
  writable _ hd := (hm.frameMem (h.frameMem hd)).writable
  path_apart d hd hdepth := (h.apart depth d hdepth hd).mono hlen (Nat.le_refl _)
  apart := h.apart

/-- What is in the variable of this call stays there in the call for an entry. -/
theorem holds_frame (h : RemoveDirMem frame levels depth dirPath m text)
    (hm : SameAbove frame levels (depth + 1) m' m'') (hbs : Holds m'.read (frame depth) bs)
    (hlen : bs.length ≤ 4744) : Holds m''.read (frame depth) bs :=
  hm.holds hbs fun d hd hdepth => (h.apart depth d hdepth hd).mono hlen (Nat.le_refl _)

end RemoveDirMem

/-! ### What is removed -/

/-- A stream stays as it is if it has nothing of what is at or below `ps` still to be read. -/
def KeepsBelow (ps : List Name) (open1 open2 : Streams) : Prop :=
  ∀ h qs es, open1 h = some (qs, es) →
    (∀ n : Name, ps <+: qs ++ [n] → n.bytes ∉ es.map Dirent.dName) → open2 h = some (qs, es)

namespace KeepsBelow
variable {ps qs : List Name} {open1 open2 open3 : Streams}

theorem refl (ps : List Name) (open1 : Streams) : KeepsBelow ps open1 open1 := fun _ _ _ h _ => h

theorem trans (h12 : KeepsBelow ps open1 open2) (h23 : KeepsBelow ps open2 open3) :
    KeepsBelow ps open1 open3 :=
  fun h rs es hopen hes => h23 h rs es (h12 h rs es hopen hes) hes

theorem mono (h : KeepsBelow qs open1 open2) (hpq : ps <+: qs) : KeepsBelow ps open1 open2 :=
  fun h' rs es hopen hes => h h' rs es hopen fun n hn => hes n (hpq.trans hn)

theorem of_keepsStreams (h : KeepsStreams ps open1 open2) : KeepsBelow ps open1 open2 :=
  fun h' rs es hopen hes => h h' rs es hopen fun n hn => hes n (hn ▸ List.prefix_refl _)

/-- Another stream is opened, read or closed. -/
theorem update (h : KeepsBelow ps open1 open2) {dir : Usz} (hdir : open1 dir = none)
    (x : Option (List Name × List Dirent)) : KeepsBelow ps open1 (Function.update open2 dir x) := by
  intro h' rs es hopen hes
  have hne : h' ≠ dir := by
    rintro rfl
    rw [hdir] at hopen
    cases hopen
  rw [Function.update_of_ne hne]
  exact h h' rs es hopen hes

end KeepsBelow

/-- What has become of what is at `ps` and below it. -/
structure Outcome {σ : Type} (sys : DirCalls σ) (absolute : Bool) (fs : DirView σ)
    (ps : List Name) (s : σ) (r : Bool) (s' : σ) : Prop where
  thins : Thins ps (fs.node s) (fs.node s')
  keeps : KeepsBelow ps (fs.opened s) (fs.opened s')
  success : r = true → Prunes ps (fs.node s) (fs.node s') ∧
    (∀ h, fs.opened s h = none → fs.opened s' h = none) ∧
    fs.used s' = fs.used s
  failure : r = false → fs.node s' ps = fs.node s ps
  allowed : sys.Allows absolute fs → r = true

section
variable {σ : Type} {sys : DirCalls σ} {absolute : Bool} {fs : DirView σ} {limit : Nat}
  {ps : List Name} {s s0 s1 : σ} {r : Bool} {res : Bool × σ}

/-- Something without anything in it is removed, or is not. -/
theorem Tries.outcome (h : Tries fs ps s res) (hsys : sys.Posix absolute fs limit)
    (hthins : Thins ps (fs.node s0) (fs.node s))
    (hkeeps : KeepsBelow ps (fs.opened s0) (fs.opened s))
    (hnones : ∀ h, fs.opened s0 h = none → fs.opened s h = none) (hused : fs.used s = fs.used s0)
    (hp : fs.node s ps = fs.node s0 ps) (hempty : ∀ n, fs.node s (ps ++ [n]) = none)
    (hallowed : sys.Allows absolute fs → res.1 = true) :
    Outcome sys absolute fs ps s0 res.1 res.2 := by
  obtain ⟨hused', h⟩ := h
  split_ifs at h with hr
  · obtain ⟨hnone, hkept, hnones', hkeeps'⟩ := h
    have hinside (q : List Name) (n : Name) (hne : fs.node s (q ++ [n]) ≠ none) :
        fs.node s q ≠ none := by
      rw [hsys.inDir s q n hne]
      exact Option.some_ne_none _
    have hprunes := hthins.prunes hinside hempty hnone hkept
    exact ⟨hprunes.thins, hkeeps.trans (.of_keepsStreams hkeeps'),
      fun _ => ⟨hprunes, fun h ho => hnones' h (hnones h ho), hused'.trans hused⟩,
      fun hf => absurd (hf.symm.trans hr) Bool.false_ne_true, fun _ => hr⟩
  · obtain ⟨hnode, hopened⟩ := h
    rw [← hnode] at hthins hp
    rw [← hopened] at hkeeps
    exact ⟨hthins, hkeeps, fun ht => absurd ht hr, fun _ => hp, fun h => absurd (hallowed h) hr⟩

end

/-! ### One call -/

section
variable {m m1 : Mem} {base dirPath : Ptr} {absolute : Bool} {ps : List Name} {n : Name}
  {text : List UInt8} {frame : Nat → Ptr} {levels depth : Nat}

theorem isComponent_bytes (ps : List Name) : ∀ c ∈ ps.map Name.bytes, IsComponent 47 c := by
  intro c hc
  obtain ⟨n, -, rfl⟩ := List.mem_map.1 hc
  exact ⟨n.ne_nil, n.no_slash⟩

theorem isPathText_entryText (absolute : Bool) (ps : List Name) (n : Name) :
    IsPathText absolute (ps ++ [n]) (entryText absolute ps n) := by
  rw [IsPathText, List.map_append]
  exact .bare (ps.map Name.bytes) n.bytes

theorem prefix_dirText (h : IsPathText absolute ps text) :
    text <+: dirText 47 absolute (ps.map Name.bytes) := by
  rcases IsText.eq_or_append h with rfl | happ
  · exact List.prefix_refl _
  · exact ⟨[47], happ⟩

theorem prefix_entryText (h : IsPathText absolute ps text) (n : Name) :
    text <+: entryText absolute ps n :=
  (prefix_dirText h).trans (List.prefix_append _ _)

/-- `MoveUpPath` on the path of an entry; the path of the directory is still in front. -/
theorem moveUpPath_entry {base : Ptr} (htext : IsPathText absolute ps text)
    (hholds : Holds m.read base (entryText absolute ps n))
    (hlen : (entryText absolute ps n).length < 2 ^ 64) :
    (∃ r, moveUpPath (textAt base (entryText absolute ps n)) 1 m = .ok r) ∧
      Holds m.read base text := by
  have hcur : (textAt base (entryText absolute ps n)).writeCur.toNat =
      (entryText absolute ps n).length :=
    UInt64.toNat_ofNat_of_lt_two_pow hlen
  have hread := Mem.readable_of_reads hholds
  rw [← hcur] at hread
  have hbytes : stringBytes (textAt base (entryText absolute ps n)) m = entryText absolute ps n :=
    stringBytes_of_holds hholds hcur
  have hpos : 0 < (entryText absolute ps n).length := by
    have hname := List.length_pos_iff.2 n.ne_nil
    rw [entryText, List.length_append]
    omega
  constructor
  · obtain ⟨up, hup⟩ := moveUpPath_run rfl hread (isComponent_bytes (ps ++ [n]))
      (hbytes ▸ isPathText_entryText absolute ps n) (by rw [hcur]; exact hpos) 1
    exact ⟨_, hup⟩
  · obtain ⟨rest, hrest⟩ := prefix_entryText htext n
    rw [← hrest] at hholds
    exact hholds.of_append

/-- The path of an entry is made of that of the directory. -/
theorem appendEntry_eq {iter : IterDir} (h : FrameMem iter.base m)
    (htext : IsPathText absolute ps text) (hholds : Holds m.read iter.base text)
    (hname : Holds m.read iter.dName (n.bytes ++ [0]))
    (hlen : (entryText absolute ps n).length < 4095) : ∃ m',
      appendPathToPath (cStringAt iter.dName n.bytes) (textAt iter.base text) m =
        .ok (true, textAt iter.base (entryText absolute ps n), m') ∧
      Holds m'.read iter.base (entryText absolute ps n ++ [0]) ∧
      Mem.SameOutside iter.base 4096 m m' := by
  have hle := (prefix_dirText htext).length_le
  rw [entryText, List.length_append] at hlen
  have hcur : (UInt64.ofNat text.length).toNat = text.length :=
    UInt64.toNat_ofNat_of_lt_two_pow (by omega)
  have hcur' : (UInt64.ofNat n.bytes.length).toNat = n.bytes.length :=
    UInt64.toNat_ofNat_of_lt_two_pow (by omega)
  have hsize : (textAt iter.base text).size.toNat = 4095 := rfl
  have hread := Mem.readable_of_reads hname.of_append
  rw [← hcur'] at hread
  have hbehind : Apart iter.base 4096 (iter.base + 4171) n.bytes.length :=
    apart_add (by decide) (by have hat : (4171 : Usz).toNat = 4171 := rfl; omega)
  have hmem : JoinMem (cStringAt iter.dName n.bytes) (textAt iter.base text) m := by
    refine h.joinMem rfl hread ?_
    rw [cStringAt, hcur']
    exact hbehind.symm
  have hfree : UInt64.ofNat n.bytes.length ≤
      (textAt iter.base text).size - (textAt iter.base text).writeCur := by
    have hwrite : (textAt iter.base text).writeCur.toNat = text.length := hcur
    rw [UInt64.le_iff_toNat_le, UInt64.toNat_sub_of_toNat_le (by omega)]
    omega
  rw [appendPathToPath, if_pos ⟨rfl, hfree⟩]
  refine appendName_eq hmem (isComponent_bytes ps) ?_ (stringBytes_of_holds hname.of_append hcur')
    ⟨n.ne_nil, n.no_slash⟩ ?_ ?_
  · have hbytes : stringBytes (textAt iter.base text) m = text := stringBytes_of_holds hholds hcur
    rw [hbytes]
    exact htext
  · show (UInt64.ofNat text.length).toNat + _ + 1 ≤ 4095
    omega
  · exact fun i hi => h.readable i (Nat.lt_trans hi (by decide : 4096 < 4744))

end

/-- What a call leaves that is to remove what is at `ps`. -/
structure Removes {σ : Type} (sys : DirCalls σ) (absolute : Bool) (fs : DirView σ)
    (frame : Nat → Ptr) (levels depth : Nat) (ps : List Name) (m : Mem) (s : σ)
    (res : Bool × Mem × σ) : Prop where
  same : SameAbove frame levels depth m res.2.1
  outcome : Outcome sys absolute fs ps s res.1 res.2.2

/-- What the calls for the directories in `ps` do. -/
def RemovesDirs {σ : Type} (sys : DirCalls σ) (absolute : Bool) (fs : DirView σ)
    (frame : Nat → Ptr) (levels depth : Nat) (ps : List Name) (s0 : σ)
    (again : Ptr → Mem → σ → Res (Bool × Mem × σ)) : Prop :=
  ∀ n m s, fs.node s (ps ++ [n]) = some .dir → fs.permits (ps ++ [n]) →
    Fits absolute levels (depth + 1) (ps ++ [n]) (fs.node s) → Walkable fs (ps ++ [n]) (fs.node s) →
    RemoveDirMem frame levels (depth + 1) (frame depth) m (entryText absolute ps n) →
    (entryText absolute ps n).length ≤ 4095 →
    fs.used s = fs.used s0 + 1 →
    (again (frame depth) m s).wp (Removes sys absolute fs frame levels (depth + 1) (ps ++ [n]) m s)

/-- The loop has come to the entries `es`; it began in the state `s0`. -/
structure Emptying {σ : Type} (fs : DirView σ) (frame : Nat → Ptr) (levels depth : Nat)
    (ps : List Name) (text : List UInt8) (m0 : Mem) (s0 : σ) (es : List Dirent)
    (st : IterDir × Mem × σ) : Prop where
  base_eq : st.1.base = frame depth
  allFiles_eq : st.1.allFiles = textAt (frame depth) text
  dir_ne : st.1.dir ≠ 0
  fresh : fs.opened s0 st.1.dir = none
  same : SameAbove frame levels depth m0 st.2.1
  holds : Holds st.2.1.read (frame depth) text
  opened_eq : fs.opened st.2.2 st.1.dir = some (ps, es)
  lists : Lists fs.typed (fs.node st.2.2) ps es
  thins : Thins ps (fs.node s0) (fs.node st.2.2)
  keeps : KeepsBelow ps (fs.opened s0) (fs.opened st.2.2)
  nones : ∀ h, h ≠ st.1.dir → fs.opened s0 h = none → fs.opened st.2.2 h = none
  used_eq : fs.used st.2.2 = fs.used s0 + 1
  dir : fs.node st.2.2 ps = fs.node s0 ps

/-- The directory is empty, or what is there of it is what could not be removed. -/
structure Emptied {σ : Type} (sys : DirCalls σ) (absolute : Bool) (fs : DirView σ)
    (frame : Nat → Ptr) (levels depth : Nat) (ps : List Name) (m0 : Mem) (s0 : σ)
    (res : Bool × Mem × σ) : Prop where
  same : SameAbove frame levels depth m0 res.2.1
  thins : Thins ps (fs.node s0) (fs.node res.2.2)
  keeps : KeepsBelow ps (fs.opened s0) (fs.opened res.2.2)
  dir : fs.node res.2.2 ps = fs.node s0 ps
  success : res.1 = true → (∀ h, fs.opened s0 h = none → fs.opened res.2.2 h = none) ∧
    fs.used res.2.2 = fs.used s0 ∧
    ∀ n, fs.node res.2.2 (ps ++ [n]) = none
  allowed : sys.Allows absolute fs → res.1 = true

section
variable {σ : Type} {sys : DirCalls σ} {absolute : Bool} {fs : DirView σ} {limit : Nat}
  {frame : Nat → Ptr} {levels depth : Nat} {ps : List Name} {text : List UInt8} {n : Name}
  {es : List Dirent} {d : Dirent} {dirPath : Ptr} {m m0 : Mem} {s s0 : σ}
  {again : Ptr → Mem → σ → Res (Bool × Mem × σ)} {st : IterDir × Mem × σ}

theorem Fits.next (h : Fits absolute levels depth ps (fs.node s0))
    (hthins : Thins ps (fs.node s0) (fs.node s)) (n : Name) :
    Fits absolute levels (depth + 1) (ps ++ [n]) (fs.node s) where
  text qs n' hqs hne :=
    h.text qs n' ((List.prefix_append ps [n]).trans hqs) fun hnone => hne (hthins.eq_none hnone)
  deep qs hqs hdir := by
    have hdir' : fs.node s0 qs = some .dir := by
      rcases hthins.below qs with heq | hnone
      · rwa [← heq]
      · rw [hdir] at hnone
        cases hnone
    have hlt := h.deep qs ((List.prefix_append ps [n]).trans hqs) hdir'
    rw [List.length_append, List.length_singleton]
    omega

theorem Walkable.mono (h : Walkable fs ps (fs.node s0))
    (hthins : Thins ps (fs.node s0) (fs.node s)) : Walkable fs ps (fs.node s) := by
  intro qs k hqs hnode
  refine h qs k hqs ?_
  rcases hthins.below qs with heq | hnone
  · rwa [← heq]
  · rw [hnode] at hnone
    cases hnone

theorem Walkable.below {node : List Name → Option Kind} (h : Walkable fs ps node) (n : Name) :
    Walkable fs (ps ++ [n]) node := fun qs k hqs => h qs k ((List.prefix_append ps [n]).trans hqs)

/-- An entry is removed by a call of `RemoveDir` or by `RemoveFile`. A directory whose type is not
known is not removed. -/
theorem removeEntry_spec (hsys : sys.Posix absolute fs limit) {iter : IterDir}
    {scratchPath : String} {k : Kind} (hwalk : Walkable fs ps (fs.node s))
    (hagain : fs.node s (ps ++ [n]) = some .dir → fs.permits (ps ++ [n]) →
      (again (frame depth) m s).wp
      (Removes sys absolute fs frame levels (depth + 1) (ps ++ [n]) m s))
    (hisDir : iter.isDir = (fs.typed (ps ++ [n]) && k.hasDirBit))
    (hscratch : scratchPath.base = frame depth)
    (hholds : Holds m.read (frame depth) (entryText absolute ps n ++ [0]))
    (hlen : (entryText absolute ps n).length < 4095) (hk : fs.node s (ps ++ [n]) = some k) :
    (removeEntry sys again iter scratchPath m s).wp
      (Removes sys absolute fs frame levels (depth + 1) (ps ++ [n]) m s) := by
  have htext := isPathText_entryText absolute ps n
  have hne : ps ++ [n] ≠ [] := List.append_ne_nil_of_right_ne_nil _ (List.cons_ne_nil n [])
  rw [removeEntry, hisDir, hscratch]
  by_cases hdir : (fs.typed (ps ++ [n]) && k.hasDirBit) = true
  · rw [Bool.and_eq_true] at hdir
    obtain ⟨rfl, hpermits⟩ := hwalk _ k (List.prefix_append ps [n]) hk hdir.1 hdir.2
    rw [if_pos (by rw [hdir.1]; rfl)]
    exact hagain hk hpermits
  · obtain ⟨htries, hprotected⟩ := hsys.unlink s (ps ++ [n]) _ k htext hne (by omega) hk
    rw [if_neg hdir, removeFile, cString_eq hholds htext.zero_notMem (by omega)]
    refine ⟨.refl _ _ _ _, ?_⟩
    by_cases hkind : k = .dir
    · -- `unlink` leaves the directory, and all below it
      obtain ⟨hused, hsame⟩ := htries
      have hfalse := hprotected hkind
      rw [if_neg (by rw [hfalse]; exact Bool.false_ne_true)] at hsame
      show Outcome sys absolute fs (ps ++ [n]) s (sys.unlink _ s).1 (sys.unlink _ s).2
      rw [hfalse]
      refine ⟨?_, ?_, fun ht => absurd ht Bool.false_ne_true, fun _ => congrFun hsame.1 _,
        fun hallows => ?_⟩
      · rw [hsame.1]
        exact .refl _ _
      · rw [hsame.2]
        exact .refl _ _
      · subst hkind
        exact absurd (by rw [hallows.typed s _ hk]; rfl) hdir
    · refine htries.outcome hsys (.refl _ _) (.refl _ _) (fun _ h => h) rfl rfl (fun n' => ?_)
        fun h => h.unlink s ps n k hkind hk
      by_contra hne
      have hparent := hsys.inDir s _ n' hne
      rw [hk] at hparent
      exact hkind (Option.some.inj hparent)

/-- The stream has the entries behind the one that has been removed. -/
theorem Lists.tail {s' : σ} (h : Lists fs.typed (fs.node s) ps (d :: es)) (hd : d.dName = n.bytes)
    (hgone : fs.node s' (ps ++ [n]) = none)
    (hkept : ∀ n', n' ≠ n → fs.node s' (ps ++ [n']) = fs.node s (ps ++ [n'])) :
    Lists fs.typed (fs.node s') ps es where
  entry e he := by
    refine (h.entry e (List.mem_cons_of_mem d he)).imp_right fun hdots => hdots.imp_right ?_
    rintro ⟨n', k, hname, hlen, hnode, htype⟩
    refine ⟨n', k, hname, hlen, ?_, htype⟩
    rw [hkept n', hnode]
    rintro rfl
    have honce := h.once
    rw [List.map_cons, List.nodup_cons, hd, ← hname] at honce
    exact honce.1 (List.mem_map_of_mem he)
  all n' hne := by
    have hn' : n' ≠ n := by
      rintro rfl
      exact hne hgone
    rw [hkept n' hn'] at hne
    have hmem := h.all n' hne
    rw [List.map_cons, List.mem_cons, hd] at hmem
    exact hmem.resolve_left fun heq => hn' (Name.eq_of_bytes heq)
  once := (List.nodup_cons.1 (by rw [← List.map_cons]; exact h.once)).2
  count := Nat.lt_of_le_of_lt (Nat.le_succ _) h.count

/-- `.` and `..` are passed over. -/
theorem Lists.drop_dots {dots : List Dirent} (h : Lists fs.typed (fs.node s) ps (dots ++ es))
    (hdots : ∀ d ∈ dots, d.IsDots) : Lists fs.typed (fs.node s) ps es where
  entry e he := h.entry e (List.mem_append_right dots he)
  all n hne := by
    have hmem := h.all n hne
    rw [List.map_append, List.mem_append] at hmem
    refine hmem.resolve_left fun hin => ?_
    obtain ⟨d, hd, heq⟩ := List.mem_map.1 hin
    rcases hdots d hd with hdot | hdot
    · exact n.ne_dot (heq.symm.trans hdot)
    · exact n.ne_dots (heq.symm.trans hdot)
  once := by
    have honce := h.once
    rw [List.map_append] at honce
    exact honce.of_append_right
  count := by
    have hcount := h.count
    rw [List.length_append] at hcount
    omega

theorem Lists.none_of_dots (h : Lists fs.typed (fs.node s) ps es) (hdots : ∀ d ∈ es, d.IsDots)
    (n : Name) : fs.node s (ps ++ [n]) = none := by
  by_contra hne
  obtain ⟨d, hd, heq⟩ := List.mem_map.1 (h.all n hne)
  rcases hdots d hd with hdot | hdot
  · exact n.ne_dot (heq.symm.trans hdot)
  · exact n.ne_dots (heq.symm.trans hdot)

end

theorem not_concat_prefix {α : Type} {l : List α} {a : α} : ¬ l ++ [a] <+: l := fun h => by
  have hle := h.length_le
  rw [List.length_append, List.length_singleton] at hle
  omega

theorem concat_prefix_concat {α : Type} {l : List α} {a b : α} (h : l ++ [a] <+: l ++ [b]) :
    a = b :=
  (List.cons_prefix_cons.1 ((List.prefix_append_right_inj l).1 h)).1

section
variable {σ : Type} {sys : DirCalls σ} {absolute : Bool} {fs : DirView σ} {limit : Nat}
  {frame : Nat → Ptr} {levels depth : Nat} {ps : List Name} {text : List UInt8} {n : Name}
  {es : List Dirent} {d : Dirent} {dirPath : Ptr} {m m0 m1 m2 : Mem} {s s0 s1 s2 : σ}
  {again : Ptr → Mem → σ → Res (Bool × Mem × σ)} {st : IterDir × Mem × σ}

namespace Emptying

theorem frameMem (h : Emptying fs frame levels depth ps text m0 s0 es st)
    (hmem : RemoveDirMem frame levels depth dirPath m0 text) (hdepth : depth < levels) :
    FrameMem st.1.base st.2.1 := by
  rw [h.base_eq]
  exact h.same.frameMem (hmem.frameMem hdepth)

/-- All that is left has been passed over. -/
theorem emptied (h : Emptying fs frame levels depth ps text m0 s0 es st)
    (hsame : SameAbove frame levels depth st.2.1 m1) (hnode : fs.node s1 = fs.node st.2.2)
    (hdots : ∀ d ∈ es, d.IsDots) (hopened : fs.opened s1 = Function.update (fs.opened st.2.2)
      st.1.dir none) (hused : fs.used s1 + 1 = fs.used st.2.2) :
    Emptied sys absolute fs frame levels depth ps m0 s0 (true, m1, s1) where
  same := h.same.trans hsame
  thins := by
    rw [hnode]
    exact h.thins
  keeps := by
    rw [hopened]
    exact h.keeps.update h.fresh none
  dir := by
    rw [hnode]
    exact h.dir
  success _ := by
    refine ⟨fun h' hnone => ?_, Nat.succ_inj.1 (hused.trans h.used_eq), fun n => ?_⟩
    · rw [hopened]
      by_cases heq : h' = st.1.dir
      · rw [heq, Function.update_self]
      · rw [Function.update_of_ne heq]
        exact h.nones h' heq hnone
    · rw [hnode]
      exact h.lists.none_of_dots hdots n
  allowed _ := rfl

/-- An entry has been read, and has been removed or not. -/
theorem entry (h : Emptying fs frame levels depth ps text m0 s0 es st) (iter : IterDir)
    {es' : List Dirent} {r : Bool} (hbase : iter.base = st.1.base)
    (hall : iter.allFiles = st.1.allFiles) (hdir : iter.dir = st.1.dir)
    (hsame : SameAbove frame levels depth st.2.1 m2) (hholds : Holds m2.read (frame depth) text)
    (hnode : fs.node s1 = fs.node st.2.2)
    (hopened : fs.opened s1 = Function.update (fs.opened st.2.2) st.1.dir (some (ps, es')))
    (hlists : Lists fs.typed (fs.node s1) ps (d :: es'))
    (hused : fs.used s1 = fs.used st.2.2) (hname : d.dName = n.bytes)
    (hout : Outcome sys absolute fs (ps ++ [n]) s1 r s2) :
    if r then Emptying fs frame levels depth ps text m0 s0 es' (iter, m2, s2)
    else Emptied sys absolute fs frame levels depth ps m0 s0 (false, m2, s2) := by
  have hprefix := List.prefix_append ps [n]
  have hthins : Thins ps (fs.node s0) (fs.node s2) := by
    have hthins1 := h.thins
    rw [← hnode] at hthins1
    exact hthins1.trans (hout.thins.mono hprefix)
  have hkeeps : KeepsBelow ps (fs.opened s0) (fs.opened s2) := by
    have hkeeps1 := h.keeps.update h.fresh (some (ps, es'))
    rw [← hopened] at hkeeps1
    exact hkeeps1.trans (hout.keeps.mono hprefix)
  have hps : fs.node s2 ps = fs.node s0 ps := by
    rw [hout.thins.outside ps not_concat_prefix, hnode]
    exact h.dir
  cases r with
  | false =>
    exact ⟨h.same.trans hsame, hthins, hkeeps, hps, fun hf => absurd hf Bool.false_ne_true,
      hout.allowed⟩
  | true =>
    obtain ⟨hprunes, hnones, hused'⟩ := hout.success rfl
    have hgone := hprunes.gone _ (List.prefix_refl _)
    refine ⟨hbase.trans h.base_eq, hall.trans h.allFiles_eq, hdir ▸ h.dir_ne, hdir ▸ h.fresh,
      h.same.trans hsame, hholds, ?_, ?_,
      hthins, hkeeps, fun h' hne hnone => hnones h' ?_, hused'.trans (hused.trans h.used_eq), hps⟩
    · refine hout.keeps _ _ _ (by rw [hopened, hdir, Function.update_self]) fun n' hn' => ?_
      have honce := hlists.once
      rw [List.map_cons, List.nodup_cons, hname] at honce
      rw [← concat_prefix_concat hn']
      exact honce.1
    · exact hlists.tail hname hgone fun n' hne => hprunes.outside _ fun hn' =>
        hne (concat_prefix_concat hn').symm
    · dsimp only at hne
      rw [hdir] at hne
      rw [hopened, Function.update_of_ne hne]
      exact h.nones h' hne hnone

theorem step (h : Emptying fs frame levels depth ps text m0 s0 es st)
    (hsys : sys.Posix absolute fs limit) (hfits : Fits absolute levels depth ps (fs.node s0))
    (hwalk : Walkable fs ps (fs.node s0)) (hmem : RemoveDirMem frame levels depth dirPath m0 text)
    (htext : IsPathText absolute ps text) (hlen : text.length ≤ 4095)
    (hdir : fs.node s0 ps = some .dir)
    (hagain : RemovesDirs sys absolute fs frame levels depth ps s0 again) :
    (removeDirStep sys again st).wp (Ctl.Post
      (fun st' => ∃ es', es'.length < es.length ∧
        Emptying fs frame levels depth ps text m0 s0 es' st')
      (Emptied sys absolute fs frame levels depth ps m0 s0)) := by
  have hdepth : depth < levels := by
    have hlt := hfits.deep ps (List.prefix_refl ps) hdir
    omega
  have hframe := h.frameMem hmem hdepth
  obtain ⟨⟨more, iter, m1, s1⟩, hlist, hsame1, hnode, hres⟩ :=
    Except.wp_iff.1
      (listFiles_opened hsys hframe h.dir_ne h.opened_eq h.lists.entry_fits h.lists.count)
  dsimp only at hsame1 hnode hres
  have habove1 : SameAbove frame levels depth st.2.1 m1 := by
    have hin := hsame1.of_add (by decide : (4171 : Usz).toNat + 256 ≤ 4744)
    rw [h.base_eq] at hin
    exact .of_sameOutside hin (Nat.le_refl _) hdepth
  rw [removeDirStep, hlist, Except.ok_bind]
  dsimp only
  cases more with
  | false =>
    obtain ⟨-, hdots, hopened, hused⟩ := hres
    exact h.emptied habove1 hnode hdots hopened hused
  | true =>
    obtain ⟨d, es', ⟨dots, hes, hdots⟩, hd, hiter, hholds, hopened, hused⟩ := hres
    have hfilename : iter.filename = st.1.dName := by rw [hiter]
    have hallFiles : iter.allFiles = textAt (frame depth) text := by rw [hiter]; exact h.allFiles_eq
    have hlists1 := h.lists
    rw [hes, ← hnode] at hlists1
    have hlists := hlists1.drop_dots hdots
    obtain ⟨n, k, hname, hshort, hk, htype⟩ :=
      (or_assoc.2 (hlists.entry d List.mem_cons_self)).resolve_left hd
    have hisDir : iter.isDir = (fs.typed (ps ++ [n]) && k.hasDirBit) := by
      rw [hiter]
      exact isDir_eq htype
    rw [hname] at hholds
    have hthins1 := h.thins
    rw [← hnode] at hthins1
    have hfits1 := hfits.text ps n (List.prefix_refl ps) fun hnone => by
      rw [hthins1.eq_none hnone] at hk
      cases hk
    have hframe1 := hframe.same hsame1
    have hdirText : Holds m1.read st.1.base text := by
      have hat : (4171 : Usz).toNat = 4171 := rfl
      have hholds0 := h.holds
      rw [← h.base_eq] at hholds0
      exact hsame1.holds hholds0 (apart_add (by omega) (by omega))
    obtain ⟨m2, happend, hentry, hsame2⟩ := appendEntry_eq hframe1 htext hdirText hholds hfits1
    rw [h.base_eq] at happend hentry hsame2
    have habove2 := habove1.trans (.of_sameOutside hsame2 (by decide) hdepth)
    have hmem2 := hmem.next (h.same.trans habove2) hentry (by omega)
    have hspec :
        (removeEntry sys again iter (textAt (frame depth) (entryText absolute ps n)) m2 s1).wp
        (Removes sys absolute fs frame levels (depth + 1) (ps ++ [n]) m2 s1) :=
      removeEntry_spec hsys (hwalk.mono hthins1) (fun hdir' hpermits =>
        hagain n m2 s1 hdir' hpermits (hfits.next hthins1 n)
        ((hwalk.mono hthins1).below n) hmem2 (Nat.le_of_lt hfits1) (hused.trans h.used_eq))
        hisDir rfl hentry hfits1 hk
    obtain ⟨⟨r, m3, s3⟩, hremove, hsame3, hout⟩ := Except.wp_iff.1 hspec
    have hentry3 :=
      (hmem.holds_frame hsame3 hentry
        (by rw [List.length_append, List.length_singleton]; omega)).of_append
    obtain ⟨⟨up, hup⟩, hdirText3⟩ := moveUpPath_entry htext hentry3 (by omega)
    have hstep := h.entry iter (by rw [hiter]) (by rw [hiter]) (by rw [hiter])
      (habove2.trans hsame3.of_next) hdirText3 hnode hopened hlists hused hname hout
    rw [if_pos rfl, hfilename, pathCString_eq hholds n.no_zero (by omega), Except.ok_bind,
      hallFiles, happend, Except.ok_bind]
    dsimp only
    rw [hremove, Except.ok_bind]
    dsimp only
    rw [hup, Except.ok_bind]
    cases r with
    | false => exact hstep
    | true => exact ⟨es', by rw [hes, List.length_append, List.length_cons]; omega, hstep⟩

end Emptying

end

/-! ### The function -/

section
variable {σ : Type} {sys : DirCalls σ} {absolute : Bool} {fs : DirView σ} {limit : Nat}
  {frame : Nat → Ptr} {levels depth : Nat} {ps : List Name} {text : List UInt8}
  {dirPath : Ptr} {m m0 : Mem} {s s0 : σ}

end

namespace Volume
variable {v : Volume}

theorem ne_nil_of_isPrefix {ps qs : List Name} (hne : ps ≠ []) (h : ps <+: qs) : qs ≠ [] := by
  rintro rfl
  exact hne (List.prefix_nil.1 h)

theorem fits {ps : List Name} {levels : Nat} (hne : ps ≠ [])
    (hpath : ∀ f ∈ v.files, (dirText 47 false (f.1.map Name.bytes)).length ≤ 4095)
    (hdeep : ∀ f ∈ v.files, f.2 = .dir → f.1.length < ps.length + levels) :
    Fits false levels 0 ps v.node where
  text qs n _ hnode := by
    obtain ⟨k, hk⟩ := Option.ne_none_iff_exists'.1 hnode
    have hlen := hpath _
      ((node_eq_some_iff (List.append_ne_nil_of_right_ne_nil _ (List.cons_ne_nil n []))).1 hk)
    rw [List.map_append, List.map_singleton, dirText_append, ← List.append_assoc,
      List.length_append, List.length_singleton] at hlen
    exact hlen
  deep qs hqs hdir := hdeep _ ((node_eq_some_iff (ne_nil_of_isPrefix hne hqs)).1 hdir) rfl

end Volume

end TinyBase
