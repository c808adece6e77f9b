import TinyBase.Lib.DirTree
import TinyBase.PathBounds
import TinyBase.Replace

/-!
# Making a directory and those above it (`MakeDir`, Linux)

If `mkdir` does not find the directory above, `MakeDir` copies the path to an array of its own and
makes one directory after the other: it writes a zero byte over each slash, calls `mkdir` on the
array, and writes the slash back. `mkdir` itself is a parameter, a function of the bytes in front of
the zero byte and of the state of the file system.
-/

namespace TinyBase
open LexicalPath

/-- `ENOENT`. -/
def enoent : UInt32 := 2

/-- `EEXIST`. -/
def eexist : UInt32 := 17

/-- The bytes of a C string. -/
def cString (rd : Reader) (ptr : Ptr) : Res (List UInt8) := do
  let size ← strlen rd ptr
  readBytes rd ptr size.toNat

/-- The variables of the loop of `MakeDir`, with the memory and the file system. -/
structure MakeDirState (σ : Type) where
  workPath : String
  m : Mem
  fs : σ

section
variable {σ : Type} (mkdir : List UInt8 → σ → Option UInt32 × σ)

/-- `mkdir` on a path in memory. The result is `errno`, or none if it is 0. -/
def mkdirAt (path : Ptr) (m : Mem) (fs : σ) : Res (Option UInt32 × σ) := do
  let text ← cString m.read path
  pure (mkdir text fs)

/-- The body of the loop of `MakeDir`. It is left with false where the function returns false. -/
def makeDirStep (workPathBuf : Ptr) (st : MakeDirState σ) :
    Res (Ctl (MakeDirState σ) (Bool × MakeDirState σ)) := do
  let slash ← charInString 47 st.workPath returnIdxFind st.m
  if slash ≠ invalidIdx then do
    let m ← st.m.write (st.workPath.base + slash) 0
    let (errno, fs) ← mkdirAt mkdir workPathBuf m st.fs
    if errno ≠ none ∧ errno ≠ some eexist then pure (.done (false, { st with m := m, fs := fs }))
    else do
      let m ← m.write (st.workPath.base + slash) 47
      pure (.next { workPath := { st.workPath with
        toBuffer := advanceBuffer st.workPath.toBuffer (slash + 1) }, m := m, fs := fs })
  else pure (.done (true, st))

/-- What `MakeDir` does behind the loop. -/
def makeLast (dirPath : Ptr) (result : Bool) (st : MakeDirState σ) : Res (Bool × Mem × σ) :=
  if result then
    if st.workPath.writeCur > 0 then do
      let (errno, fs) ← mkdirAt mkdir dirPath st.m st.fs
      pure (errno.isNone, st.m, fs)
    else pure (false, st.m, st.fs)
  else pure (false, st.m, st.fs)

/-- `MakeDir`; the local array `WorkPathBuf` is at the given address. -/
def makeDir (dirPath workPathBuf : Ptr) (m : Mem) (fs : σ) : Res (Bool × Mem × σ) := do
  let (errno, fs) ← mkdirAt mkdir dirPath m fs
  if errno = some enoent then do
    let m ← m.memset workPathBuf 0 maxPathSize
    let (_, workPath, m) ← appendArrayToPath dirPath (path workPathBuf) m
    let (result, st) ← whileLoop (makeDirStep mkdir workPathBuf)
      { workPath := workPath, m := m, fs := fs }
    makeLast mkdir dirPath result st
  else pure (errno.isNone, m, fs)

end

/-! ### C strings -/

section
variable {m : Mem} {rd : Reader} {p : Ptr} {bs cs : List UInt8}

theorem strlen_eq (h : Holds rd p (bs ++ 0 :: cs)) (hzero : 0 ∉ bs) (hlen : bs.length < 2 ^ 64) :
    strlen rd p = .ok (UInt64.ofNat bs.length) := by
  refine Except.wp_eq.1
    (wp_whileLoop (fun idx : Usz => idx.toNat ≤ bs.length) (fun idx => bs.length - idx.toNat) ?_ 0
    (Nat.zero_le _) (Nat.lt_of_le_of_lt (Nat.sub_le _ _) hlen))
  intro idx hle
  rcases Nat.lt_or_eq_of_le hle with hlt | heq
  · have hget : (bs ++ 0 :: cs)[idx.toNat]? = some bs[idx.toNat] := by
      rw [List.getElem?_append_left hlt, List.getElem?_eq_getElem hlt]
    have hne : bs[idx.toNat] ≠ 0 := fun h0 => hzero (h0 ▸ List.getElem_mem hlt)
    have hnext : (idx + 1).toNat = idx.toNat + 1 := UInt64.toNat_add_one (by omega)
    rw [h.read hget, Except.ok_bind, if_pos hne, Except.wp_pure, Ctl.post_next, hnext]
    exact ⟨hlt, by omega⟩
  · have hget : (bs ++ 0 :: cs)[idx.toNat]? = some 0 := by
      rw [heq, List.getElem?_append_right (Nat.le_refl _), Nat.sub_self]; rfl
    rw [h.read hget, Except.ok_bind, if_neg (not_not.2 rfl), Except.wp_pure,
      Ctl.post_done, ← heq, UInt64.ofNat_toNat]

theorem cString_eq (h : Holds rd p (bs ++ 0 :: cs)) (hzero : 0 ∉ bs) (hlen : bs.length < 2 ^ 64) :
    cString rd p = .ok bs := by
  have hsize : (UInt64.ofNat bs.length).toNat = bs.length := UInt64.toNat_ofNat_of_lt_two_pow hlen
  rw [cString, strlen_eq h hzero hlen, Except.ok_bind, hsize]
  exact readBytes_of_holds h.of_append (Nat.le_of_lt hlen)

theorem mkdirAt_of_holds {σ : Type} (mkdir : List UInt8 → σ → Option UInt32 × σ)
    (h : Holds m.read p (bs ++ 0 :: cs)) (hzero : 0 ∉ bs) (hlen : bs.length < 2 ^ 64) (fs : σ) :
    mkdirAt mkdir p m fs = .ok (mkdir bs fs) := by
  rw [mkdirAt, cString_eq h hzero hlen]
  rfl

end

/-! ### Copying the path -/

/-- A component that `_AppendPathToPath` copies as it is. -/
def Plain (c : List UInt8) : Prop := 47 ∉ c ∧ c ≠ [46] ∧ c ≠ [46, 46]

section
variable {m m0 : Mem} {src dst : String} {st : JoinState} {cs stack : List (List UInt8)}
  {last : List UInt8} {i : Nat}

theorem Joins.plain (h : Joins src dst m0 false stack st i) (hmem : JoinMem src dst m0)
    (hcs : ∀ c ∈ cs, Plain c)
    (hrest : (stringBytes src m0).drop i = (cs.flatMap fun c => c ++ [47]) ++ last)
    (hm : st.m = m0.store dst.base (dirText 47 false stack)) :
    ∃ st' j, Joins src dst m0 false (stack ++ cs) st' j ∧
      st'.m = m0.store dst.base (dirText 47 false (stack ++ cs)) ∧
      (stringBytes src m0).drop j = last ∧
        ∀ res, Leaves (joinStep src) st' res → Leaves (joinStep src) st res := by
  induction cs generalizing stack st i with
  | nil =>
    rw [List.append_nil]
    exact ⟨st, i, h, hm, hrest, fun _ hres => hres⟩
  | cons c cs ih =>
    rw [List.forall_mem_cons] at hcs
    obtain ⟨hc, hd, hdd⟩ := hcs.1
    have hrest' :
        (stringBytes src m0).drop i = c ++ 47 :: ((cs.flatMap fun c => c ++ [47]) ++ last) := by
      rw [hrest, List.flatMap_cons, List.append_assoc, List.append_assoc]
      rfl
    obtain ⟨st1, h1, hm1, hback⟩ := h.component_name hmem hc hrest' hd hdd
    have hcur : st.tmp.writeCur = UInt64.ofNat (dirText 47 false stack).length := by
      rw [← h.text, length_stringBytes, UInt64.ofNat_toNat]
    have hlen : (dirText 47 false stack).length + (c ++ [47]).length ≤ 2 ^ 64 := by
      have hlt := st1.tmp.writeCur.toNat_lt
      rw [← length_stringBytes _ st1.m, h1.text, dirText_append, List.length_append] at hlt
      exact Nat.le_of_lt hlt
    have hm1' : st1.m = m0.store dst.base (dirText 47 false (stack ++ [c])) := by
      rw [hm1, hm, h.base_eq, hcur, Mem.store_append hlen, dirText_append]
    obtain ⟨st', j, h', hm', hlast, hback'⟩ := ih h1 hcs.2 (rest_next hrest') hm1'
    rw [List.append_assoc] at h' hm'
    exact ⟨st', j, h', hm', hlast, fun res hres => hback res (hback' res hres)⟩

/-- Behind an empty path the part is copied as it is. -/
theorem appendPathToPathUnchecked_plain (hmem : JoinMem src dst m) (hcur : dst.writeCur = 0)
    (hroom : src.writeCur.toNat ≤ dst.size.toNat) (hcs : ∀ c ∈ cs, Plain c) (hlast : 47 ∉ last)
    (htext : stringBytes src m = dirText 47 false cs ++ last) :
    appendPathToPathUnchecked src dst m =
      .ok (true, { dst with writeCur := src.writeCur },
        m.store dst.base (stringBytes src m ++ [0])) := by
  have hstart : Joins src dst m false [] { tmp := dst, m := m } 0 := by
    refine ⟨⟨rfl, rfl, rfl⟩, rfl, rfl, hmem.dst_enc, ?_, ?_, rfl, rfl, rfl⟩
    · exact List.eq_nil_of_length_eq_zero
        (by rw [length_stringBytes]; exact congrArg UInt64.toNat hcur)
    · show dst.writeCur.toNat + (src.writeCur.toNat - 0) ≤ _
      rw [hcur, UInt64.toNat_zero]
      omega
  have hpos : ¬ dst.writeCur > 0 := by rw [hcur]; decide
  obtain ⟨st, j, h, hm, hrest, hback⟩ :=
    hstart.plain hmem hcs (by rw [List.drop_zero, htext]; rfl) rfl
  rw [List.nil_append] at h hm
  have heq := h.unchecked_eq hmem hrest (by rw [appendSeparator, if_neg hpos]; rfl)
    (by rw [skipSeparator, if_neg hpos]; rfl) (h.whileLoop_eq hmem hrest hlast hback)
  have hwrite : st.tmp.writeCur = UInt64.ofNat (dirText 47 false cs).length := by
    rw [← h.text, length_stringBytes, UInt64.ofNat_toNat]
  have hlen : src.writeCur.toNat = (dirText 47 false cs).length + last.length := by
    rw [← length_stringBytes src m, htext, List.length_append]
  have hgrown : (st.tmp.grown last.length).writeCur = src.writeCur := by
    show st.tmp.writeCur + UInt64.ofNat last.length = _
    rw [hwrite, ← UInt64.ofNat_add, ← hlen, UInt64.ofNat_toNat]
  have hcur' : src.writeCur = UInt64.ofNat (dirText 47 false cs ++ last).length := by
    rw [List.length_append, ← hlen, UInt64.ofNat_toNat]
  have hlt := src.writeCur.toNat_lt
  have hsmall := hmem.small
  have htmp : st.tmp.grown last.length = { dst with writeCur := src.writeCur } := by
    have hbase := h.base_eq
    have hsize := h.size_eq
    have henc := h.enc_eq.trans hmem.dst_enc.symm
    rw [← hgrown]
    generalize st.tmp = tmp at *
    obtain ⟨⟨base, cur, size⟩, enc⟩ := tmp
    dsimp only at hbase hsize henc
    subst hbase hsize henc
    rfl
  rw [heq, htmp, hm, h.base_eq, hwrite, Mem.store_append (by omega), hcur',
    Mem.store_append, ← htext]
  · rw [List.length_append, List.length_singleton]
    omega

end

/-! ### The array -/

/-- What `MakeDir` needs of the memory: the path is a C string, and the local array is apart from
it. -/
structure MakeDirMem (dirPath workPathBuf : Ptr) (m : Mem) (text : List UInt8) : Prop where
  holds : Holds m.read dirPath (text ++ [0])
  readable : m.Readable workPathBuf 4096
  writable : ∀ i : Usz, i.toNat < 4096 → m.writable (workPathBuf + i)
  apart : Apart dirPath (text.length + 1) workPathBuf 4096

/-- The array with the path in it. -/
def padded (text : List UInt8) : List UInt8 := text ++ 0 :: List.replicate (4095 - text.length) 0

theorem length_padded {text : List UInt8} (hlen : text.length ≤ 4095) :
    (padded text).length = 4096 := by
  rw [padded, List.length_append, List.length_cons, List.length_replicate]
  omega

theorem store_zeroArray {m : Mem} {p : Ptr} {bs : List UInt8} (hlen : bs.length ≤ 4096) :
    (m.store p (List.replicate 4096 0)).store p bs =
      m.store p (bs ++ List.replicate (4096 - bs.length) 0) := by
  have hwithin := @Mem.store_within m p (List.replicate 4096 0) bs 0
    (by rw [List.length_replicate, UInt64.toNat_zero, Nat.zero_add]; exact hlen)
    (by rw [List.length_replicate]; decide)
  rwa [UInt64.add_zero, UInt64.toNat_zero, List.take_zero, List.nil_append, Nat.zero_add,
    List.drop_replicate] at hwithin

theorem padded_eq {text : List UInt8} (hlen : text.length ≤ 4095) :
    padded text = text ++ List.replicate (4096 - text.length) 0 := by
  rw [padded, ← List.replicate_succ, Nat.succ_sub hlen]

theorem padded_eq_append_zero {text : List UInt8} :
    padded text = (text ++ [0]) ++ List.replicate (4096 - (text ++ [0]).length) 0 := by
  rw [padded, List.append_assoc, List.singleton_append, List.length_append,
    List.length_singleton, Nat.sub_add_eq, Nat.sub_right_comm]

section
variable {m m' : Mem} {s : String} {p dirPath workPathBuf : Ptr}
  {text bs cs : List UInt8} {b : UInt8}

theorem memset_zeroArray (hw : ∀ i : Usz, i.toNat < 4096 → m.writable (p + i)) :
    m.memset p 0 maxPathSize = .ok (m.store p (List.replicate 4096 0)) := by
  have hsize : maxPathSize.toNat = 4096 := rfl
  rw [Mem.memset, hsize]
  exact Mem.writeBytes_eq (by rw [List.length_replicate]; exact hw)
    (by rw [List.length_replicate]; decide)

theorem write_store_append (b' : UInt8) (hlen : (bs ++ b :: cs).length ≤ 2 ^ 64)
    (hw : ∀ i : Usz, i.toNat < (bs ++ b :: cs).length → m.writable (p + i)) :
    (m.store p (bs ++ b :: cs)).write (p + UInt64.ofNat bs.length) b' =
      .ok (m.store p (bs ++ b' :: cs)) := by
  rw [List.length_append, List.length_cons] at hlen
  have hword : (UInt64.ofNat bs.length).toNat = bs.length :=
    UInt64.toNat_ofNat_of_lt_two_pow (by omega)
  have hin : (UInt64.ofNat bs.length).toNat < (bs ++ b :: cs).length := by
    rw [hword, List.length_append, List.length_cons]
    omega
  have hwrite :=
    Mem.write_store b' (hw _ hin) hin (by rw [List.length_append, List.length_cons]; exact hlen)
  rw [hword, List.set_append_right _ _ (Nat.le_refl _), Nat.sub_self, List.set_cons_zero] at hwrite
  exact hwrite

theorem charInString_slash (henc : s.enc = .utf8) (h : Holds m.read s.base bs)
    (hlen : s.writeCur.toNat = bs.length) :
    (∀ c t, bs = c ++ 47 :: t → 47 ∉ c →
      charInString 47 s returnIdxFind m = .ok (UInt64.ofNat c.length)) ∧
      (47 ∉ bs → charInString 47 s returnIdxFind m = .ok invalidIdx) := by
  have hsearch :
      charInString 47 s returnIdxFind m = byteInBuffer 47 (s.toBuffer.view m) returnIdxFind := by
    rw [charInString, henc]
    exact if_pos (by decide)
  rw [hsearch]
  rcases @byteInBuffer_find s.toBuffer m bs h hlen 47 with ⟨hnone, hrun⟩ |
    ⟨i, hi, hslash, hnone, -, hrun⟩
  · refine ⟨fun c t hbs _ => absurd ?_ hnone, fun _ => hrun⟩
    rw [hbs]
    exact List.mem_append_right c List.mem_cons_self
  · refine ⟨fun c t hbs hc => ?_, fun hnone' => absurd (hslash ▸ List.getElem_mem hi) hnone'⟩
    subst hbs
    have heq : i.toNat = c.length := by
      rcases Nat.lt_trichotomy i.toNat c.length with hlt | heq | hgt
      · rw [List.getElem_append_left hlt] at hslash
        exact absurd (hslash ▸ List.getElem_mem hlt) hc
      · exact heq
      · have htake : 47 ∈ (c ++ 47 :: t).take i.toNat := by
          rw [List.take_append, List.mem_append]
          refine .inr ?_
          obtain ⟨k, hk⟩ := Nat.exists_eq_succ_of_ne_zero (Nat.sub_ne_zero_of_lt hgt)
          rw [hk]
          exact List.mem_cons_self
        exact absurd htake hnone
    rw [hrun, ← heq, UInt64.ofNat_toNat]

namespace MakeDirMem

/-- The path can still be read while the array holds something else. -/
theorem holds_store (h : MakeDirMem dirPath workPathBuf m text) (hbs : bs.length ≤ 4096) :
    Holds (m.store workPathBuf bs).read dirPath (text ++ [0]) := by
  refine Mem.reads_store h.holds ?_ hbs
  rw [List.length_append, List.length_singleton]
  exact h.apart

theorem append_eq (h : MakeDirMem dirPath workPathBuf m text) (hlen : text.length ≤ 4095)
    (hzero : 0 ∉ text) {names : List (List UInt8)} {last : List UInt8}
    (hnames : ∀ c ∈ names, Plain c) (hlast : 47 ∉ last)
    (htext : text = dirText 47 false names ++ last) :
    (m.memset workPathBuf 0 maxPathSize >>= fun m =>
      appendArrayToPath dirPath (path workPathBuf) m) =
      .ok (true, { path workPathBuf with writeCur := UInt64.ofNat text.length },
        m.store workPathBuf (padded text)) := by
  have hsize : maxPathSize.toNat = 4096 := rfl
  have hcap : (path workPathBuf).size.toNat = 4095 := rfl
  have hword : (UInt64.ofNat text.length).toNat = text.length :=
    UInt64.toNat_ofNat_of_lt_two_pow (by omega)
  have hholds := @holds_store m dirPath workPathBuf text (List.replicate 4096 0) h
    (by rw [List.length_replicate])
  have hpath : pathCString dirPath (m.store workPathBuf (List.replicate 4096 0)) =
      .ok { base := dirPath, writeCur := UInt64.ofNat text.length, size := 0, enc := .utf8 } := by
    rw [pathCString, strlen_eq hholds hzero (by omega), Except.ok_bind,
      if_pos (UInt64.lt_iff_toNat_lt.2 (by omega))]
    rfl
  have hbytes :
    stringBytes { base := dirPath, writeCur := UInt64.ofNat text.length, size := 0, enc := .utf8 }
      (m.store workPathBuf (List.replicate 4096 0)) = text :=
        stringBytes_of_holds hholds.of_append hword
  have hjoin : JoinMem { base := dirPath, writeCur := UInt64.ofNat text.length, size := 0,
                         enc := .utf8 } (path workPathBuf)
      (m.store workPathBuf (List.replicate 4096 0)) := by
    refine ⟨rfl, rfl, ?_, fun i hi => h.readable i (by omega), fun i hi => h.writable i ?_,
      by rw [hcap]; decide, ?_⟩
    · have hread := Mem.readable_of_reads hholds.of_append
      rwa [← hword] at hread
    · have hle := UInt64.le_iff_toNat_le.1 hi
      omega
    · intro a ha
      refine h.apart a (Nat.lt_of_lt_of_le ha ?_)
      rw [hword]
      exact Nat.le_succ _
  have happend := appendPathToPathUnchecked_plain hjoin rfl (by rw [hword]; exact hlen) hnames
    hlast (hbytes.trans htext)
  have hstore := @store_zeroArray m workPathBuf (text ++ [0])
    (by rw [List.length_append, List.length_singleton]; omega)
  rw [← padded_eq_append_zero] at hstore
  rw [memset_zeroArray h.writable, Except.ok_bind, appendArrayToPath, hpath,
    Except.ok_bind, happend, hbytes]
  exact congrArg (fun m => Except.ok (true, _, m)) hstore

end MakeDirMem

end

/-! ### The file system -/

/-- A name in a directory. -/
structure Name where
  bytes : List UInt8
  ne_nil : bytes ≠ []
  no_slash : 47 ∉ bytes
  no_zero : 0 ∉ bytes
  ne_dot : bytes ≠ [46]
  ne_dots : bytes ≠ [46, 46]

/-- The texts of a path, with or without a slash at the end. -/
def IsPathText (absolute : Bool) (ps : List Name) (text : List UInt8) : Prop :=
  IsText 47 absolute (ps.map Name.bytes) text

/-- What `mkdir` does. There is a tree of the absolute paths, and one of those from the current
directory on. -/
structure MkdirLaws {σ : Type} (mkdir : List UInt8 → σ → Option UInt32 × σ)
    (tree : Bool → DirTree σ Name) : Prop where
  empty : ∀ s, mkdir [] s = (some enoent, s)
  existing : ∀ {absolute ps text s}, IsPathText absolute ps text → ps ≠ [] →
    (tree absolute).Exists s ps →
    mkdir text s = (some eexist, s)
  orphan : ∀ {absolute ps text s}, IsPathText absolute ps text → ps ≠ [] →
    ¬ (tree absolute).Exists s ps.dropLast →
    mkdir text s = (some enoent, s)
  makes : ∀ {absolute ps text s}, IsPathText absolute ps text → ps ≠ [] →
    (tree absolute).IsDir s ps.dropLast →
    ¬ (tree absolute).Exists s ps → ∃ s', mkdir text s = (none, s') ∧ (tree absolute).Makes s ps s'

section
variable {σ : Type} {mkdir : List UInt8 → σ → Option UInt32 × σ} {tree : Bool → DirTree σ Name}
  {absolute : Bool} {ps : List Name} {text : List UInt8} {s s0 : σ} {k : Nat}

theorem Name.plain (n : Name) : Plain n.bytes := ⟨n.no_slash, n.ne_dot, n.ne_dots⟩

/-- The names with a slash behind them, and what is behind the last slash. -/
theorem IsPathText.split (h : IsPathText absolute ps text) :
    ∃ qs last, text = dirText 47 absolute (qs.map Name.bytes) ++ last ∧
    (qs = ps ∧ last = [] ∨ ∃ n : Name, ps = qs ++ [n] ∧ last = n.bytes) := by
  obtain ⟨as, last, htext, ⟨rfl, rfl⟩ | hps⟩ := IsText.eq_append h
  · exact ⟨ps, [], htext, .inl ⟨rfl, rfl⟩⟩
  · obtain ⟨qs, l, rfl, rfl, hl⟩ := List.map_eq_append_iff.1 hps
    obtain ⟨n, rfl, rfl⟩ := List.map_eq_singleton_iff.1 hl
    exact ⟨qs, n.bytes, htext, .inr ⟨n, rfl, rfl⟩⟩

theorem IsPathText.zero_notMem (h : IsPathText absolute ps text) : 0 ∉ text := by
  have hdir (qs : List Name) : 0 ∉ dirText 47 absolute (qs.map Name.bytes) := by
    rw [dirText, List.mem_append, List.mem_flatMap, not_or]
    refine ⟨by cases absolute <;> decide, ?_⟩
    rintro ⟨c, hc, hzero⟩
    obtain ⟨n, -, rfl⟩ := List.mem_map.1 hc
    rcases List.mem_append.1 hzero with hzero | hzero
    · exact n.no_zero hzero
    · exact absurd (List.mem_singleton.1 hzero) (by decide)
  obtain ⟨qs, last, rfl, ⟨-, rfl⟩ | ⟨n, -, rfl⟩⟩ := h.split
  · rw [List.append_nil]
    exact hdir qs
  · rw [List.mem_append, not_or]
    exact ⟨hdir qs, n.no_zero⟩

theorem MkdirLaws.next (hlaws : MkdirLaws mkdir tree) (h : (tree absolute).MadeUpTo ps s0 k s)
    (hpass : (tree absolute).Passable s0 ps) (hk : k < ps.length)
    (htext : IsPathText absolute (ps.take (k + 1)) text) :
    ∃ errno s', mkdir text s = (errno, s') ∧ (errno = none ∨ errno = some eexist) ∧
      (tree absolute).MadeUpTo ps s0 (k + 1) s' := by
  have hne : ps.take (k + 1) ≠ [] := List.length_pos_iff.1 (by rw [List.length_take]; omega)
  by_cases hexists : (tree absolute).Exists s (ps.take (k + 1))
  · exact ⟨_, s, hlaws.existing htext hne hexists, .inr rfl, h.succ_of_exists hpass hk hexists⟩
  · have hparent : (tree absolute).IsDir s (ps.take (k + 1)).dropLast := by
      rw [← List.take_concat_get' ps k hk, List.dropLast_concat]
      exact h.dirs k (Nat.le_refl k)
    obtain ⟨s', hmkdir, hmakes⟩ := hlaws.makes htext hne hparent hexists
    exact ⟨none, s', hmkdir, .inl rfl, h.succ_of_makes hmakes⟩

end

/-! ### The loop -/

/-- The text of the directories, each with a slash behind it. -/
def dirBytes (ps : List Name) : List UInt8 := dirText 47 false (ps.map Name.bytes)

/-- The loop is about to look for the slash behind the first name that is not in `done`. -/
structure AtName {σ : Type} (T : DirTree σ Name) (workPathBuf : Ptr) (m : Mem)
    (text : List UInt8) (ps : List Name) (s0 : σ) (done : List Name) (st : MakeDirState σ) :
    Prop where
  base_eq : st.workPath.base = workPathBuf + UInt64.ofNat (dirBytes done).length
  enc_eq : st.workPath.enc = .utf8
  cur_eq : (dirBytes done).length + st.workPath.writeCur.toNat = text.length
  m_eq : st.m = m.store workPathBuf (padded text)
  made : T.MadeUpTo ps s0 done.length st.fs

section
variable {σ : Type} {mkdir : List UInt8 → σ → Option UInt32 × σ} {tree : Bool → DirTree σ Name}
  {dirPath workPathBuf : Ptr} {m : Mem} {text t last : List UInt8} {ps done qs : List Name}
  {n : Name} {s0 : σ} {st : MakeDirState σ}

theorem dirBytes_append (ps : List Name) (n : Name) :
    dirBytes (ps ++ [n]) = dirBytes ps ++ n.bytes ++ [47] := by
  rw [dirBytes, List.map_append, List.map_singleton, dirText_append, List.append_assoc]
  rfl

theorem padded_append (as bs : List UInt8) :
    padded (as ++ bs) = as ++ (bs ++ 0 :: List.replicate (4095 - (as ++ bs).length) 0) := by
  rw [padded, List.append_assoc]

theorem AtName.holds (h : AtName (tree false) workPathBuf m text ps s0 done st)
    (hmem : MakeDirMem dirPath workPathBuf m text) (hlen : text.length ≤ 4095)
    (htext : text = dirBytes done ++ t) :
    Holds st.m.read st.workPath.base t ∧ st.workPath.writeCur.toNat = t.length := by
  have hpadded := length_padded hlen
  have hcur := h.cur_eq
  have hle := congrArg List.length htext
  rw [List.length_append] at hle
  have hword : (UInt64.ofNat (dirBytes done).length).toNat = (dirBytes done).length :=
    UInt64.toNat_ofNat_of_lt_two_pow (by omega)
  refine ⟨?_, by omega⟩
  have hall := @Mem.holds_store m workPathBuf (padded text) (by rw [hpadded]; exact hmem.readable)
  have hdrop := hall.drop (UInt64.ofNat (dirBytes done).length) (by omega) (by omega)
  rw [h.m_eq, h.base_eq]
  have hrest : (padded text).drop (dirBytes done).length =
      t ++ 0 :: List.replicate (4095 - text.length) 0 := by
    rw [htext, padded_append, List.drop_left]
  rw [hword, hrest] at hdrop
  exact hdrop.of_append

theorem AtName.step_last (h : AtName (tree false) workPathBuf m text ps s0 done st)
    (hmem : MakeDirMem dirPath workPathBuf m text) (hlen : text.length ≤ 4095)
    (htext : text = dirBytes done ++ last) (hlast : 47 ∉ last) :
    makeDirStep mkdir workPathBuf st = .ok (.done (true, st)) := by
  obtain ⟨hholds, hcur⟩ := h.holds hmem hlen htext
  rw [makeDirStep, (charInString_slash h.enc_eq hholds hcur).2 hlast,
    Except.ok_bind, if_neg (not_not.2 rfl)]
  rfl

/-- The round that finds a slash: `mkdir` sees the bytes in front of it, and then the slash is put
back. -/
theorem makeDirStep_slash {as bs : List UInt8} {slash : Usz}
    (hmem : MakeDirMem dirPath workPathBuf m text)
    (hslash : charInString 47 st.workPath returnIdxFind st.m = .ok slash)
    (hvalid : slash ≠ invalidIdx)
    (haddr : st.workPath.base + slash = workPathBuf + UInt64.ofNat as.length)
    (hm : st.m = m.store workPathBuf (as ++ 47 :: bs)) (hsize : (as ++ 47 :: bs).length = 4096)
    (hzero : 0 ∉ as) : makeDirStep mkdir workPathBuf st =
      if (mkdir as st.fs).1 ≠ none ∧ (mkdir as st.fs).1 ≠ some eexist then
        .ok (.done (false,
          { st with m := m.store workPathBuf (as ++ 0 :: bs), fs := (mkdir as st.fs).2 }))
      else .ok
      (.next { workPath := { st.workPath with
        toBuffer := advanceBuffer st.workPath.toBuffer (slash + 1) },
                        m := st.m, fs := (mkdir as st.fs).2 }) := by
  have hsize' (b : UInt8) : (as ++ b :: bs).length = 4096 := by
    rw [← hsize, List.length_append, List.length_append]; rfl
  have hwrite (b b' : UInt8) :=
    @write_store_append m workPathBuf as bs b b' (by rw [hsize']; decide)
    (by rw [hsize']; exact hmem.writable)
  have hholds :=
    @Mem.holds_store m workPathBuf (as ++ 0 :: bs) (by rw [hsize']; exact hmem.readable)
  have hlen : as.length < 2 ^ 64 := by
    rw [List.length_append] at hsize
    omega
  rw [makeDirStep, hslash, Except.ok_bind, if_pos hvalid, haddr, hm, hwrite, Except.ok_bind,
    mkdirAt_of_holds mkdir hholds hzero hlen, Except.ok_bind]
  obtain ⟨errno, fs⟩ := mkdir as st.fs
  dsimp only
  split_ifs
  · rfl
  · rw [hwrite]
    rfl

theorem AtName.step_next (h : AtName (tree false) workPathBuf m text ps s0 done st)
    (hlaws : MkdirLaws mkdir tree) (hmem : MakeDirMem dirPath workPathBuf m text)
    (hlen : text.length ≤ 4095) (hzero : 0 ∉ text) (hpass : (tree false).Passable s0 ps)
    (hps : done ++ [n] <+: ps) (htext : text = dirBytes done ++ (n.bytes ++ 47 :: t)) :
    ∃ st', makeDirStep mkdir workPathBuf st = .ok (.next st') ∧
      AtName (tree false) workPathBuf m text ps s0 (done ++ [n]) st' := by
  obtain ⟨hholds, hcur⟩ := h.holds hmem hlen htext
  have hslash := (charInString_slash h.enc_eq hholds hcur).1 n.bytes t rfl n.no_slash
  have hcur' := h.cur_eq
  rw [List.length_append, List.length_cons] at hcur
  have hword : (UInt64.ofNat n.bytes.length).toNat = n.bytes.length :=
    UInt64.toNat_ofNat_of_lt_two_pow (by omega)
  have hvalid : UInt64.ofNat n.bytes.length ≠ invalidIdx := by
    intro heq
    have hmax : UInt64.toNat invalidIdx = 2 ^ 64 - 1 := rfl
    rw [← heq, hword] at hmax
    omega
  have haddr : st.workPath.base + UInt64.ofNat n.bytes.length = workPathBuf +
      UInt64.ofNat (dirBytes done ++ n.bytes).length := by
    rw [h.base_eq, UInt64.add_assoc, ← UInt64.ofNat_add, ← List.length_append]
  have htext' : text = (dirBytes done ++ n.bytes) ++ 47 :: t := by rw [htext, List.append_assoc]
  have hcut := padded_append (dirBytes done ++ n.bytes) (47 :: t)
  rw [← htext', List.cons_append] at hcut
  have hzero' : 0 ∉ dirBytes done ++ n.bytes :=
    fun hmem' => hzero (by rw [htext']; exact List.mem_append_left _ hmem')
  have hstep : makeDirStep mkdir workPathBuf st = _ :=
    makeDirStep_slash hmem hslash hvalid haddr (by rw [h.m_eq, hcut])
      (by rw [← hcut, length_padded hlen]) hzero'
  -- the directory that this makes
  have htake : ps.take (done.length + 1) = done ++ [n] := by
    have hprefix := List.prefix_iff_eq_take.1 hps
    rw [List.length_append, List.length_singleton] at hprefix
    exact hprefix.symm
  have hpath : IsPathText false (ps.take (done.length + 1)) (dirBytes done ++ n.bytes) := by
    rw [htake, IsPathText, List.map_append]
    exact .bare _ _
  have hk : done.length < ps.length := by
    have hle := hps.length_le
    rw [List.length_append, List.length_singleton] at hle
    exact hle
  obtain ⟨errno, s', hmkdir, herrno, hmade⟩ := hlaws.next h.made hpass hk hpath
  rw [hmkdir, if_neg fun hboth => herrno.elim hboth.1 hboth.2] at hstep
  have hdir : (dirBytes (done ++ [n])).length = (dirBytes done ++ n.bytes).length + 1 := by
    rw [dirBytes_append, List.length_append, List.length_singleton]
  refine ⟨_, hstep, ?_, h.enc_eq, ?_, h.m_eq, ?_⟩
  · show st.workPath.base + (UInt64.ofNat n.bytes.length + 1) = _
    rw [← UInt64.add_assoc, haddr, UInt64.add_assoc, hdir, UInt64.ofNat_add]
    rfl
  · have hnext : (UInt64.ofNat n.bytes.length + 1).toNat = n.bytes.length + 1 := by
      rw [UInt64.toNat_add_one (by omega), hword]
    have hsub := UInt64.toNat_sub_of_le st.workPath.writeCur (UInt64.ofNat n.bytes.length + 1)
      (UInt64.le_iff_toNat_le.2 (by omega))
    show _ + (st.workPath.writeCur - (UInt64.ofNat n.bytes.length + 1)).toNat = _
    rw [hdir, List.length_append]
    omega
  · rw [List.length_append, List.length_singleton]
    exact hmade

theorem dirBytes_append_cons (done rest : List Name) (n : Name) :
    dirBytes (done ++ n :: rest) = dirBytes done ++ (n.bytes ++ 47 :: dirBytes rest) := by
  simp [dirBytes, dirText]

theorem length_le_dirBytes (qs : List Name) : qs.length ≤ (dirBytes qs).length := by
  induction qs with
  | nil => exact Nat.le_refl 0
  | cons n qs ih =>
    have hcons := congrArg List.length (dirBytes_append_cons [] qs n)
    rw [List.nil_append, List.length_append, List.length_append, List.length_cons] at hcons
    rw [List.length_cons, hcons]
    omega

/-- The loop makes one directory after the other, up to the last slash. -/
theorem AtName.loop (h : AtName (tree false) workPathBuf m text ps s0 [] st)
    (hlaws : MkdirLaws mkdir tree) (hmem : MakeDirMem dirPath workPathBuf m text)
    (hlen : text.length ≤ 4095) (hzero : 0 ∉ text) (hpass : (tree false).Passable s0 ps)
    (hps : qs <+: ps) (htext : text = dirBytes qs ++ last) (hlast : 47 ∉ last) :
    ∃ st', whileLoop (makeDirStep mkdir workPathBuf) st = .ok (true, st') ∧
      AtName (tree false) workPathBuf m text ps s0 qs st' := by
  have hshort : qs.length < 2 ^ 64 := by
    have hle := congrArg List.length htext
    have hqs := length_le_dirBytes qs
    rw [List.length_append] at hle
    omega
  have hloop : (whileLoop (makeDirStep mkdir workPathBuf) st).wp fun res =>
      res.1 = true ∧ AtName (tree false) workPathBuf m text ps s0 qs res.2 := by
    refine wp_whileLoop_of_bound (fun k st => ∃ done rest, qs = done ++ rest ∧ rest.length = k ∧
      AtName (tree false) workPathBuf m text ps s0 done st) ?_ ⟨[], qs, rfl, rfl, h⟩ hshort
    rintro k st ⟨done, rest, rfl, rfl, h⟩
    cases rest with
    | nil =>
      rw [List.append_nil] at htext
      rw [h.step_last hmem hlen htext hlast, Except.wp_ok, Ctl.post_done, List.append_nil]
      exact ⟨rfl, h⟩
    | cons n rest =>
      rw [dirBytes_append_cons, List.append_assoc, List.append_assoc, List.cons_append] at htext
      have hps' : done ++ [n] <+: ps := by
        rw [List.append_cons] at hps
        exact (List.prefix_append _ _).trans hps
      obtain ⟨st', hstep, h'⟩ := h.step_next hlaws hmem hlen hzero hpass hps' htext
      rw [hstep, Except.wp_ok, Ctl.post_next]
      exact ⟨rest.length, Nat.lt_succ_self _, done ++ [n], rest,
        by rw [List.append_assoc]; rfl, rfl, h'⟩
  obtain ⟨⟨r, st'⟩, hres, rfl, h'⟩ := Except.wp_iff.1 hloop
  exact ⟨st', hres, h'⟩

end

/-! ### The function -/

/-- The loop starts with the whole path in the array. -/
def startState {σ : Type} (workPathBuf : Ptr) (m : Mem) (text : List UInt8) (fs : σ) :
    MakeDirState σ where
  workPath := { path workPathBuf with writeCur := UInt64.ofNat text.length }
  m := m.store workPathBuf (padded text)
  fs := fs

/-- The directory and those above it have been made. -/
def MakesChain {σ : Type} (T : DirTree σ Name) (ps : List Name) (res : Bool × Mem × σ) : Prop :=
  res.1 = true ∧ ∀ k, T.IsDir res.2.2 (ps.take k)

section
variable {σ : Type} {mkdir : List UInt8 → σ → Option UInt32 × σ} {tree : Bool → DirTree σ Name}
  {dirPath workPathBuf : Ptr} {m : Mem} {text last : List UInt8} {ps qs : List Name}
  {absolute : Bool} {fs fs' : σ}

theorem MakeDirMem.mkdirAt_eq (hmem : MakeDirMem dirPath workPathBuf m text)
    (hlen : text.length ≤ 4095) (hzero : 0 ∉ text) (fs : σ) :
    mkdirAt mkdir dirPath m fs = .ok (mkdir text fs) :=
  mkdirAt_of_holds mkdir hmem.holds hzero (by omega) fs

theorem makeDir_of_makes (hmem : MakeDirMem dirPath workPathBuf m text) (hlen : text.length ≤ 4095)
    (hzero : 0 ∉ text) (hmkdir : mkdir text fs = (none, fs')) :
    makeDir mkdir dirPath workPathBuf m fs = .ok (true, m, fs') := by
  rw [makeDir, hmem.mkdirAt_eq hlen hzero, hmkdir]
  rfl

/-- The directory above is missing: the loop runs over a copy of the path. -/
theorem makeDir_of_orphan (hmem : MakeDirMem dirPath workPathBuf m text) (hlen : text.length ≤ 4095)
    (hzero : 0 ∉ text) (hmkdir : mkdir text fs = (some enoent, fs))
    (htext : text = dirText 47 absolute (qs.map Name.bytes) ++ last) (hlast : 47 ∉ last) :
    makeDir mkdir dirPath workPathBuf m fs =
      whileLoop (makeDirStep mkdir workPathBuf) (startState workPathBuf m text fs) >>= fun res =>
      makeLast mkdir dirPath res.1 res.2 := by
  have hplain : ∀ c ∈ (if absolute then [[]] else []) ++ qs.map Name.bytes, Plain c := by
    intro c hc
    rcases List.mem_append.1 hc with hc | hc
    · split_ifs at hc
      · rw [List.mem_singleton.1 hc]
        exact ⟨by decide, by decide, by decide⟩
      · exact absurd hc List.not_mem_nil
    · obtain ⟨n, -, rfl⟩ := List.mem_map.1 hc
      exact n.plain
  have htext' :
      text = dirText 47 false ((if absolute then [[]] else []) ++ qs.map Name.bytes) ++ last := by
    rw [htext]
    cases absolute <;> rfl
  have happend := hmem.append_eq hlen hzero hplain hlast htext'
  rw [makeDir, hmem.mkdirAt_eq hlen hzero, hmkdir, Except.ok_bind]
  dsimp only
  rw [if_pos rfl, ← bind_assoc, happend]
  rfl

/-- An absolute path begins with a slash, and `mkdir` is called with an empty path. -/
theorem makeDir_absolute (hlaws : MkdirLaws mkdir tree)
    (hmem : MakeDirMem dirPath workPathBuf m text) (hlen : text.length ≤ 4095) (hzero : 0 ∉ text)
    (hmkdir : mkdir text fs = (some enoent, fs))
    (htext : text = dirText 47 true (qs.map Name.bytes) ++ last) (hlast : 47 ∉ last) :
    ∃ m', makeDir mkdir dirPath workPathBuf m fs = .ok (false, m', fs) := by
  have hcons : text = 47 :: ((qs.map Name.bytes).flatMap (fun c => c ++ [47]) ++ last) := htext
  have hpadded := length_padded hlen
  have hword : (UInt64.ofNat text.length).toNat = text.length :=
    UInt64.toNat_ofNat_of_lt_two_pow (by omega)
  have hholds : Holds (startState workPathBuf m text fs).m.read
      (startState workPathBuf m text fs).workPath.base text :=
    (@Mem.holds_store m workPathBuf (padded text) (by rw [hpadded]; exact hmem.readable)).of_append
  have hslash := (charInString_slash rfl hholds hword).1 [] _ hcons List.not_mem_nil
  have hcut : padded text = [] ++ 47 :: ((qs.map Name.bytes).flatMap (fun c => c ++ [47]) ++ last ++
      0 :: List.replicate (4095 - text.length) 0) := by
    conv_lhs => rw [padded]
    rw [hcons]
    rfl
  have hstep : makeDirStep mkdir workPathBuf (startState workPathBuf m text fs) = _ :=
    makeDirStep_slash hmem hslash (by decide) rfl (congrArg (m.store workPathBuf) hcut)
      (by rw [← hcut, hpadded]) List.not_mem_nil
  rw [show (startState workPathBuf m text fs).fs = fs from rfl, hlaws.empty,
    if_pos ⟨Option.some_ne_none _, (by decide : some enoent ≠ some eexist)⟩] at hstep
  rw [makeDir_of_orphan hmem hlen hzero hmkdir htext hlast, whileLoop_of_done hstep]
  exact ⟨_, rfl⟩

theorem atName_start (tree : Bool → DirTree σ Name) (m : Mem) (hlen : text.length ≤ 4095) :
    AtName (tree false) workPathBuf m text ps fs [] (startState workPathBuf m text fs) where
  base_eq := (UInt64.add_zero workPathBuf).symm
  enc_eq := rfl
  cur_eq := by
    rw [dirBytes, List.map_nil, startState, UInt64.toNat_ofNat_of_lt_two_pow (by omega)]
    exact Nat.zero_add _
  m_eq := rfl
  made := .zero (tree false) ps fs

/-- The directories above a relative path are made; the last one only if there is something behind
the last slash. -/
theorem makeDir_relative (hlaws : MkdirLaws mkdir tree)
    (hmem : MakeDirMem dirPath workPathBuf m text) (hlen : text.length ≤ 4095) (hzero : 0 ∉ text)
    (hmkdir : mkdir text fs = (some enoent, fs)) (htext : text = dirBytes qs ++ last)
    (hlast : 47 ∉ last) (hpass : (tree false).Passable fs ps) (hps : qs <+: ps) :
    ∃ s', (tree false).MadeUpTo ps fs qs.length s' ∧ makeDir mkdir dirPath workPathBuf m fs =
      if last = [] then .ok (false, m.store workPathBuf (padded text), s')
      else .ok ((mkdir text s').1.isNone, m.store workPathBuf (padded text),
        (mkdir text s').2) := by
  obtain ⟨st, hloop, h⟩ :=
    (atName_start tree m hlen).loop hlaws hmem hlen hzero hpass hps htext hlast
  have hcur : st.workPath.writeCur.toNat = last.length := by
    have hcur' := h.cur_eq
    rw [htext, List.length_append] at hcur'
    omega
  have hat : mkdirAt mkdir dirPath st.m st.fs = .ok (mkdir text st.fs) := by
    rw [h.m_eq]
    exact mkdirAt_of_holds mkdir (hmem.holds_store (by rw [length_padded hlen])) hzero
      (by omega) st.fs
  refine ⟨st.fs, h.made, ?_⟩
  rw [makeDir_of_orphan hmem hlen hzero hmkdir htext hlast, hloop, Except.ok_bind,
    makeLast, if_pos rfl, ← h.m_eq]
  by_cases hnil : last = []
  · rw [if_pos hnil, if_neg fun hpos =>
      absurd (UInt64.lt_iff_toNat_lt.1 hpos) (by rw [hcur, hnil]; exact Nat.lt_irrefl 0)]
    rfl
  · rw [if_neg hnil,
      if_pos (UInt64.lt_iff_toNat_lt.2 (by rw [hcur]; exact List.length_pos_iff.2 hnil)), hat]
    rfl

/-- A slash at the end is one that has no name behind it. -/
theorem getLast?_ne_slash_iff (hne : ps ≠ [])
    (hps : qs = ps ∧ last = [] ∨ ∃ n : Name, ps = qs ++ [n] ∧ last = n.bytes) :
    (dirText 47 absolute (qs.map Name.bytes) ++ last).getLast? ≠ some 47 ↔ last ≠ [] := by
  rcases hps with ⟨rfl, rfl⟩ | ⟨n, -, rfl⟩
  · have hdir : dirText 47 absolute (qs.map Name.bytes) ≠ [] := by
      obtain ⟨init, n, rfl⟩ := (List.eq_nil_or_concat qs).resolve_left hne
      rw [List.concat_eq_append, List.map_append, List.map_singleton, dirText_append]
      simp
    obtain ⟨l, hl⟩ := dirText_eq_append hdir
    rw [List.append_nil, hl, List.getLast?_concat]
    simp
  · rw [List.getLast?_append_of_ne_nil _ n.ne_nil]
    exact ⟨fun _ => n.ne_nil, fun _ h => n.no_slash (List.mem_of_getLast? h)⟩

end

/-- `MakeDir` makes the directory and those above it if only the last one is missing, or the path is
relative and has no slash at its end. -/
theorem makeDir_makesChain_iff {σ : Type} (mkdir : List UInt8 → σ → Option UInt32 × σ)
    (tree : Bool → DirTree σ Name) (dirPath workPathBuf : Ptr) (m : Mem) (fs : σ) (absolute : Bool)
    (ps : List Name) (text : List UInt8) (hlaws : MkdirLaws mkdir tree)
    (hmem : MakeDirMem dirPath workPathBuf m text) (htext : IsPathText absolute ps text)
    (hne : ps ≠ []) (hlen : text.length ≤ (maxPathSize - 1).toNat)
    (hnew : ¬ (tree absolute).Exists fs ps) (hpass : (tree absolute).Passable fs ps) :
    (makeDir mkdir dirPath workPathBuf m fs).wp (MakesChain (tree absolute) ps) ↔
      (tree absolute).Exists fs ps.dropLast ∨ absolute = false ∧ text.getLast? ≠ some 47 := by
  have hzero := htext.zero_notMem
  by_cases hparent : (tree absolute).Exists fs ps.dropLast
  · have hdir : (tree absolute).IsDir fs ps.dropLast := by
      rw [List.dropLast_eq_take] at hparent ⊢
      exact hpass _ hparent
    obtain ⟨fs', hmkdir, hmakes⟩ := hlaws.makes htext hne hdir hnew
    rw [makeDir_of_makes hmem hlen hzero hmkdir, Except.wp_ok]
    exact iff_of_true ⟨rfl, hmakes.isDir_take hpass hparent⟩ (.inl hparent)
  · have hmkdir := hlaws.orphan htext hne hparent
    obtain ⟨qs, last, htext', hcase⟩ := htext.split
    have hlast : 47 ∉ last := by
      rcases hcase with ⟨-, rfl⟩ | ⟨n, -, rfl⟩
      · exact List.not_mem_nil
      · exact n.no_slash
    rw [or_iff_right hparent, htext', getLast?_ne_slash_iff hne hcase]
    cases absolute with
    | true =>
      obtain ⟨m', hrun⟩ := makeDir_absolute hlaws hmem hlen hzero hmkdir htext' hlast
      rw [hrun, Except.wp_ok]
      exact iff_of_false (fun h => Bool.false_ne_true h.1) fun h => Bool.false_ne_true h.1.symm
    | false =>
      have hprefix : qs <+: ps := by
        rcases hcase with ⟨rfl, -⟩ | ⟨n, rfl, -⟩
        · exact List.prefix_refl qs
        · exact List.prefix_append qs [n]
      obtain ⟨s', hmade, hrun⟩ :=
        makeDir_relative hlaws hmem hlen hzero hmkdir htext' hlast hpass hprefix
      rw [hrun]
      by_cases hnil : last = []
      · rw [if_pos hnil, Except.wp_ok]
        exact iff_of_false (fun h => Bool.false_ne_true h.1) fun h => h.2 hnil
      · obtain ⟨n, rfl, -⟩ := hcase.resolve_left fun h => hnil h.2
        have hparent' : (tree false).IsDir s' (qs ++ [n]).dropLast := by
          have hdir := hmade.dirs qs.length (Nat.le_refl _)
          rw [List.take_left] at hdir
          rw [List.dropLast_concat]
          exact hdir
        have hnew' : ¬ (tree false).Exists s' (qs ++ [n]) := fun hexists => by
          have hfresh := hmade.fresh (qs ++ [n]).length (Nat.le_refl _) (by simp)
          rw [List.take_length] at hfresh
          exact hnew (hfresh hexists)
        obtain ⟨fs', hmkdir', hmakes⟩ := hlaws.makes htext hne hparent' hnew'
        have hall : (qs ++ [n]).take (qs.length + 1) = qs ++ [n] := List.take_of_length_le (by simp)
        have hmade' : (tree false).MadeUpTo (qs ++ [n]) fs (qs ++ [n]).length fs' := by
          rw [List.length_append]
          exact hmade.succ_of_makes (by rw [hall]; exact hmakes)
        rw [if_neg hnil, hmkdir', Except.wp_ok]
        exact iff_of_true ⟨rfl, hmade'.isDir_take⟩ ⟨rfl, hnil⟩

/-! ### A file system of directories -/

/-- The directories of a file system, each by its names; an absolute path has an empty one in
front. -/
structure Directories where
  dirs : List (List (List UInt8))
  nil_mem : [] ∈ dirs
  root_mem : [[]] ∈ dirs
  parent_mem : ∀ {ds d}, ds ++ [d] ∈ dirs → ds ∈ dirs

namespace Directories

/-- The names of a path as a text has them. -/
def names (absolute : Bool) (ps : List Name) : List (List UInt8) :=
  (if absolute then [[]] else []) ++ ps.map Name.bytes

def insert (s : Directories) (ds : List (List UInt8)) (hparent : ds.dropLast ∈ s.dirs) :
    Directories where
  dirs := ds :: s.dirs
  nil_mem := List.mem_cons_of_mem ds s.nil_mem
  root_mem := List.mem_cons_of_mem ds s.root_mem
  parent_mem {es e} hmem := by
    refine List.mem_cons_of_mem ds ((List.mem_cons.1 hmem).elim (fun heq => ?_) s.parent_mem)
    rwa [← heq, List.dropLast_concat] at hparent

def mkdir (text : List UInt8) (s : Directories) : Option UInt32 × Directories :=
  if text = [] then (some enoent, s)
  else if segments text ∈ s.dirs then (some eexist, s)
  else if hparent : (segments text).dropLast ∈ s.dirs then (none, s.insert (segments text) hparent)
  else (some enoent, s)

theorem names_append (absolute : Bool) (ps : List Name) (n : Name) :
    names absolute (ps ++ [n]) = names absolute ps ++ [n.bytes] := by
  rw [names, names, List.map_append, List.append_assoc]
  rfl

def tree (absolute : Bool) : DirTree Directories Name where
  Exists s ps := names absolute ps ∈ s.dirs
  IsDir s ps := names absolute ps ∈ s.dirs
  exists_of_isDir h := h
  isDir_nil s := by
    cases absolute
    · exact s.nil_mem
    · exact s.root_mem
  exists_parent {s ps n} h := s.parent_mem (names_append absolute ps n ▸ h)

section
variable {absolute : Bool} {ps : List Name} {text : List UInt8} {s : Directories}

theorem segments_eq (h : IsPathText absolute ps text) (hne : ps ≠ []) :
    text ≠ [] ∧ segments text = names absolute ps := by
  have hnames (qs : List Name) : dirText 47 absolute (qs.map Name.bytes) =
      dirText 47 false (names absolute qs) := by
    cases absolute <;> rfl
  have hslash : ∀ c ∈ names absolute ps, 47 ∉ c := by
    intro c hc
    rcases List.mem_append.1 hc with hc | hc
    · split_ifs at hc
      · rw [List.mem_singleton.1 hc]
        exact List.not_mem_nil
      · exact absurd hc List.not_mem_nil
    · obtain ⟨n, -, rfl⟩ := List.mem_map.1 hc
      exact n.no_slash
  obtain ⟨qs, last, htext, hcase⟩ := h.split
  have hlast := @getLast?_ne_slash_iff last ps qs absolute hne hcase
  rw [← htext] at hlast
  have hpath : (if text.getLast? = some 47 then text else text ++ [47]) =
      dirText 47 false (names absolute ps) := by
    rcases hcase with ⟨rfl, rfl⟩ | ⟨n, rfl, rfl⟩
    · rw [if_pos (not_not.1 (mt hlast.1 (not_not.2 rfl))), htext, List.append_nil, hnames]
    · rw [if_neg (hlast.2 n.ne_nil), htext, ← hnames, List.map_append, List.map_singleton,
        dirText_append, List.append_assoc]
  have hne' : text ≠ [] := by
    rintro rfl
    have hempty := hlast.1 (by simp)
    rw [eq_comm, List.append_eq_nil_iff] at htext
    exact hempty htext.2
  refine ⟨hne', ?_⟩
  rw [← dirText_segments hne'] at hpath
  exact (@segments_inj _ 47 [] [] _ _ (fun _ => not_mem_segments) hslash
    List.not_mem_nil List.not_mem_nil (congrArg (· ++ []) hpath)).1

theorem mkdirLaws : MkdirLaws mkdir tree where
  empty _ := rfl
  existing {absolute ps text s} htext hne hexists := by
    obtain ⟨hnil, hnames⟩ := segments_eq htext hne
    have hmem : names absolute ps ∈ s.dirs := hexists
    rw [mkdir, if_neg hnil, hnames, if_pos hmem]
  orphan {absolute ps text s} htext hne hparent := by
    obtain ⟨hnil, hnames⟩ := segments_eq htext hne
    obtain ⟨qs, n, rfl⟩ := (List.eq_nil_or_concat ps).resolve_left hne
    rw [List.concat_eq_append] at *
    rw [List.dropLast_concat] at hparent
    have hnew : names absolute (qs ++ [n]) ∉ s.dirs := mt (tree absolute).exists_parent hparent
    have hparent' : (names absolute (qs ++ [n])).dropLast ∉ s.dirs := by
      rw [names_append, List.dropLast_concat]
      exact hparent
    rw [mkdir, if_neg hnil, hnames, if_neg hnew, dif_neg hparent']
  makes {absolute ps text s} htext hne hparent hnew := by
    obtain ⟨hnil, hnames⟩ := segments_eq htext hne
    obtain ⟨qs, n, rfl⟩ := (List.eq_nil_or_concat ps).resolve_left hne
    rw [List.concat_eq_append] at *
    have hparent' : (segments text).dropLast ∈ s.dirs := by
      rw [hnames, names_append, List.dropLast_concat]
      rwa [List.dropLast_concat] at hparent
    have hnew' : segments text ∉ s.dirs := by rwa [hnames]
    refine ⟨s.insert (segments text) hparent',
      by rw [mkdir, if_neg hnil, if_neg hnew', dif_pos hparent'], ?_, ?_, ?_⟩
    · show names absolute (qs ++ [n]) ∈ segments text :: s.dirs
      rw [hnames]
      exact List.mem_cons_self
    · exact fun _ => List.mem_cons_of_mem _
    · intro k hexists
      rcases List.mem_cons.1 hexists with heq | hmem
      · rw [names_append, hnames] at heq
        exact absurd (congrArg List.length heq) (by simp)
      · exact hnew ((tree absolute).exists_parent hmem)

end

end Directories

/-! The path in memory of its own, and a file system with only the root and the current
directory. -/

theorem makeDirMem_textMem (text : List UInt8) (hlen : text.length ≤ 4095) :
    MakeDirMem 64 8192 (textMem (text ++ [0]) []) text where
  holds := Mem.holds_store fun _ _ => rfl
  readable _ _ := rfl
  writable _ _ := rfl
  apart := by
    refine apart_of_le ?_ (by decide)
    show 64 + (text.length + 1) ≤ 8192
    omega

def emptyDirectories : Directories where
  dirs := [[], [[]]]
  nil_mem := by decide
  root_mem := by decide
  parent_mem {ds d} hmem := by
    have hlen : ds.length = 0 := by
      rcases List.mem_cons.1 hmem with heq | hmem
      · exact absurd heq (by simp)
      · have hlen := congrArg List.length (List.mem_singleton.1 hmem)
        simpa using hlen
    rw [List.eq_nil_of_length_eq_zero hlen]
    decide

def nameA : Name := ⟨[97], by decide, by decide, by decide, by decide, by decide⟩

def nameB : Name := ⟨[98], by decide, by decide, by decide, by decide, by decide⟩

theorem emptyDirectories_new (absolute : Bool) :
    ¬ (Directories.tree absolute).Exists emptyDirectories [nameA] ∧
    ¬ (Directories.tree absolute).Exists emptyDirectories [nameA, nameB] ∧
    (Directories.tree absolute).Passable emptyDirectories [nameA, nameB] := by
  have hparent : ¬ (Directories.tree absolute).Exists emptyDirectories [nameA] := by
    cases absolute
    · exact (by decide : [[97]] ∉ [[], [([] : List UInt8)]])
    · exact (by decide : [[], [97]] ∉ [[], [([] : List UInt8)]])
  exact ⟨hparent, mt (@DirTree.exists_parent _ _ _ _ [nameA] nameB) hparent, fun _ h => h⟩

theorem makeDir_makesChain_two :
    (makeDir Directories.mkdir 64 8192 (textMem ([97, 47, 98] ++ [0]) []) emptyDirectories).wp
    (MakesChain (Directories.tree false) [nameA, nameB]) :=
  (makeDir_makesChain_iff Directories.mkdir Directories.tree 64 8192
    (textMem ([97, 47, 98] ++ [0]) []) emptyDirectories false
    [nameA, nameB] [97, 47, 98] Directories.mkdirLaws (makeDirMem_textMem _ (by decide))
    (.bare [[97]] [98]) (by decide)
    (by decide) (emptyDirectories_new false).2.1 (emptyDirectories_new false).2.2).2
      (.inr ⟨rfl, by decide⟩)

/-- Nothing is there in front of `/a/b`, and the last directory of `a/b/` is made in the loop. -/
theorem makeDir_not_makesChain : MkdirLaws Directories.mkdir Directories.tree ∧
    (IsPathText true [nameA, nameB] [47, 97, 47, 98] ∧
      ¬ (Directories.tree true).Exists emptyDirectories [nameA, nameB] ∧
      (Directories.tree true).Passable emptyDirectories [nameA, nameB] ∧
      ¬ (makeDir Directories.mkdir 64 8192 (textMem ([47, 97, 47, 98] ++ [0]) [])
        emptyDirectories).wp (MakesChain (Directories.tree true) [nameA, nameB])) ∧
    (IsPathText false [nameA, nameB] [97, 47, 98, 47] ∧
      ¬ (Directories.tree false).Exists emptyDirectories [nameA, nameB] ∧
      (Directories.tree false).Passable emptyDirectories [nameA, nameB] ∧
      ¬ (makeDir Directories.mkdir 64 8192 (textMem ([97, 47, 98, 47] ++ [0]) [])
        emptyDirectories).wp (MakesChain (Directories.tree false) [nameA, nameB])) := by
  have habsolute : IsPathText true [nameA, nameB] [47, 97, 47, 98] := .bare [[97]] [98]
  have hslash : IsPathText false [nameA, nameB] [97, 47, 98, 47] := .slash [[97], [98]]
  obtain ⟨hparent, hnew, hpass⟩ := emptyDirectories_new true
  obtain ⟨hparent', hnew', hpass'⟩ := emptyDirectories_new false
  refine ⟨Directories.mkdirLaws, ⟨habsolute, hnew, hpass, fun h => ?_⟩, hslash,
    hnew', hpass', fun h => ?_⟩
  · have hmkdir := Directories.mkdirLaws.orphan habsolute (by decide) hparent
    obtain ⟨m', hrun⟩ := @makeDir_absolute _ _ _ 64 8192 _ _ [98] [nameA] _ Directories.mkdirLaws
      (makeDirMem_textMem [47, 97, 47, 98] (by decide)) (by decide) habsolute.zero_notMem hmkdir
      rfl (by decide)
    rw [hrun, Except.wp_ok] at h
    exact Bool.false_ne_true h.1
  · have hmkdir := Directories.mkdirLaws.orphan hslash (by decide) hparent'
    obtain ⟨s', -, hrun⟩ :=
      @makeDir_relative _ _ _ 64 8192 _ _ [] [nameA, nameB] _ _ Directories.mkdirLaws
      (makeDirMem_textMem [97, 47, 98, 47] (by decide)) (by decide) hslash.zero_notMem
      hmkdir rfl (by decide) hpass' (List.prefix_refl _)
    rw [hrun, if_pos rfl, Except.wp_ok] at h
    exact Bool.false_ne_true h.1

end TinyBase
