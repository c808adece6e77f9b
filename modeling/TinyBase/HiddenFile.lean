import Mathlib.Data.List.DropRight
import TinyBase.CStrings
import TinyBase.Files

/-!
# Names of hidden files (`CreateNewFile`, `IsFileHidden`, Linux)

A hidden file has a dot in front of its name. `_NewFile` uses the index behind the last slash to say
where the dot goes, but where there is no slash this index is `INVALID_IDX`, and it is used all the
same.
-/

namespace TinyBase

/-! ### Flags -/

def readSolo : UInt32 := 0x1
def writeSolo : UInt32 := 0x2
def readShare : UInt32 := 0x4
def writeShare : UInt32 := 0x8
def hiddenFile : UInt32 := 0x20
def asyncFile : UInt32 := 0x40
def appendFile : UInt32 := 0x80
def forceCreate : UInt32 := 0x100

/-- `O_RDONLY` is zero. -/
def oWrOnly : UInt32 := 0o1
def oRdWr : UInt32 := 0o2
def oCreat : UInt32 := 0o100
def oExcl : UInt32 := 0o200
def oTrunc : UInt32 := 0o1000
def oAppend : UInt32 := 0o2000
def oNonblock : UInt32 := 0o4000
def oAsync : UInt32 := 0o20000

def openOpts (isCreate : Bool) (flags : UInt32) : UInt32 :=
  let create :=
    if isCreate then oCreat ||| (if flags &&& forceCreate ≠ 0 then oTrunc else oExcl) else 0
  let read := flags &&& (readSolo ||| readShare) ≠ 0
  let write := flags &&& (writeSolo ||| writeShare) ≠ 0
  let access := if read ∧ write then oRdWr else if read then 0 else if write then oWrOnly else 0
  create ||| access ||| (if flags &&& appendFile ≠ 0 then oAppend else 0) |||
    (if flags &&& asyncFile ≠ 0 then oAsync ||| oNonblock else 0)

/-- `Mode`: `S_IRUSR|S_IWUSR` for a new file. -/
def openMode (isCreate : Bool) : UInt32 := if isCreate then 0o600 else 0

/-! ### The name -/

/-- A C string as a `string` of the given `Size`. -/
def measured (base : Ptr) (size : Usz) (m : Mem) : Res String := do
  let s : String := { base := base, writeCur := 0, size := size, enc := .utf8 }
  let writeCur ← stringLen s .cstring m
  pure { s with toBuffer := { s.toBuffer with writeCur := writeCur } }

/-- The dot that goes in front of a name whose first byte is given. -/
def appendDot (first : UInt8) (new : String) (m : Mem) : Res (String × Mem) :=
  if first ≠ 46 then do
    let m ← m.write (new.base + new.writeCur) 46
    pure ({ new with toBuffer := { new.toBuffer with writeCur := new.writeCur + 1 } }, m)
  else pure (new, m)

/-- `New` at first. -/
def newString (newBuf : Ptr) : String :=
  { base := newBuf, writeCur := 0, size := maxPathSize, enc := .utf8 }

/-- `_NewFile` copies the part up to `Slash`, and what is behind it with a dot. -/
def appendHidden (old : String) (slash : Usz) (new : String) (m : Mem) : Res Mem := do
  let (_, new, m) ← if slash ≠ invalidIdx then appendToString m.read old.base slash new m
      else pure (true, new, m)
  let first ← m.read (old.base + slash)
  let (new, m) ← appendDot first new m
  let (_, _, m) ← appendToString m.read (old.base + slash) (old.writeCur - slash) new m
  pure m

/-- What `_NewFile` writes to `NewBuf`. -/
def hiddenName (filename newBuf : Ptr) (m : Mem) : Res Mem := do
  let m ← m.memset newBuf 0 maxPathSize
  let old ← measured filename maxPathSize m
  let slash ← charInString 47 old (returnIdxAfter ||| searchReverse) m
  appendHidden old slash (newString newBuf) m

section
variable {σ : Type} (openFile : List UInt8 → UInt32 → UInt32 → σ → File × σ)

/-- `_NewFile`; the local array `NewBuf` is at the given address, and `open` is a parameter. -/
def newFile (filename newBuf : Ptr) (isCreate : Bool) (flags : UInt32) (m : Mem) (s : σ) :
    Res (File × σ) := do
  let (filename, m) ←
    if flags &&& hiddenFile ≠ 0 then do
      let m ← hiddenName filename newBuf m
      pure (newBuf, m)
    else pure (filename, m)
  let text ← cString m.read filename
  pure (openFile text (openOpts isCreate flags) (openMode isCreate) s)

def createNewFile (filename newBuf : Ptr) (flags : UInt32) (m : Mem) (s : σ) : Res (File × σ) :=
  newFile openFile filename newBuf true flags m s

end

/-- The name test of `IsFileHidden`. -/
def nameIsHidden (filename : Ptr) (m : Mem) : Res Bool := do
  let file ← measured filename 0 m
  let slash ← charInString 47 file (returnIdxAfter ||| searchReverse) m
  let firstByte ← m.read (if slash ≠ invalidIdx then file.base + slash else file.base)
  pure (firstByte == 46)

/-- `IsFileHidden`; `access` says if there is a file of the name. -/
def isFileHidden (access : List UInt8 → Bool) (filename : Ptr) (m : Mem) : Res Bool := do
  let text ← cString m.read filename
  if access text then nameIsHidden filename m else pure false

/-! ### What the name should be -/

/-- The part up to and including the last slash. -/
def dirPart (name : List UInt8) : List UInt8 := name.rdropWhile (· != 47)

/-- The last component. -/
def lastPart (name : List UInt8) : List UInt8 := name.rtakeWhile (· != 47)

/-- A component with a dot in front. -/
def dotted (last : List UInt8) : List UInt8 := if last.head? = some 46 then last else 46 :: last

/-- The name of the hidden file. -/
def hiddenNameOf (name : List UInt8) : List UInt8 := dirPart name ++ dotted (lastPart name)

/-- The memory of `_NewFile`: the filename with its zero byte, and the array. Nothing else can be
read. -/
structure HiddenMem (filename newBuf : Ptr) (m : Mem) (name : List UInt8) : Prop where
  holds : Holds m.read filename (name ++ [0])
  readable : m.Readable newBuf 4096
  writable : ∀ i : Usz, i.toNat < 4096 → m.writable (newBuf + i)
  apart : Apart filename (name.length + 1) newBuf 4096
  only : ∀ a, m.readable a → InRange filename (name.length + 1) a ∨ InRange newBuf 4096 a

/-- `CreateNewFile` with `HIDDEN_FILE` passes `result` to `open`, wherever the name is and whatever
is in the array. -/
def PassesName (name result : List UInt8) : Prop :=
  ∀ (σ : Type) (openFile : List UInt8 → UInt32 → UInt32 → σ →
    File × σ) (filename newBuf : Ptr) (flags : UInt32) (m : Mem) (s : σ),
    flags &&& hiddenFile ≠ 0 → HiddenMem filename newBuf m name →
      createNewFile openFile filename newBuf flags m s =
      .ok (openFile result (openOpts true flags) (openMode true) s)

/-- The name is right, it is one of a hidden file, and it stays as it is. -/
structure HidesName (name : List UInt8) : Prop where
  passes : PassesName name (hiddenNameOf name)
  accepts : ∀ access p m, Holds m.read p (hiddenNameOf name ++ [0]) →
    isFileHidden access p m = .ok (access (hiddenNameOf name))
  again : PassesName (hiddenNameOf name) (hiddenNameOf name)

/-! ### The parts of a name -/

section
variable {name dir last : List UInt8}

theorem dirPart_append_lastPart (name : List UInt8) : dirPart name ++ lastPart name = name :=
  List.rdropWhile_append_rtakeWhile

theorem slash_notMem_lastPart (name : List UInt8) : 47 ∉ lastPart name := fun h => by
  have hne := List.mem_rtakeWhile_imp h
  simp at hne

theorem dirPart_eq_nil_iff : dirPart name = [] ↔ 47 ∉ name := by
  rw [dirPart, List.rdropWhile_eq_nil_iff]
  exact ⟨fun h hmem => by simpa using h 47 hmem,
    fun h b hb => by simpa using fun heq : b = 47 => h (heq ▸ hb)⟩

theorem dirPart_eq_append (h : 47 ∈ name) : ∃ l, dirPart name = l ++ [47] := by
  have hne : dirPart name ≠ [] := fun hnil => dirPart_eq_nil_iff.1 hnil h
  have hslash : (dirPart name).getLast hne = 47 := by
    have hnot : ¬ ((dirPart name).getLast hne != 47) = true := List.rdropWhile_last_not _ _ hne
    simpa using hnot
  exact ⟨(dirPart name).dropLast, by rw [← hslash, List.dropLast_append_getLast]⟩

theorem lastPart_ne_nil (hne : name ≠ []) (hlast : name.getLast? ≠ some 47) : lastPart name ≠ [] :=
  fun hnil => by
  rw [lastPart, List.rtakeWhile_eq_nil_iff] at hnil
  have hslash := hnil hne
  rw [List.getLast?_eq_some_getLast hne] at hlast
  exact hlast (by simpa using hslash)

theorem parts_append (hdir : dir = [] ∨ ∃ l, dir = l ++ [47]) (hlast : 47 ∉ last) :
    dirPart (dir ++ last) = dir ∧ lastPart (dir ++ last) = last := by
  have hdir' : dirPart (dir ++ last) = dir := by
    induction last using List.reverseRecOn with
    | nil =>
      rw [List.append_nil]
      rcases hdir with rfl | ⟨l, rfl⟩
      · rfl
      · exact List.rdropWhile_concat_neg _ _ _ (by decide)
    | append_singleton last b ih =>
      rw [List.mem_append, List.mem_singleton, not_or] at hlast
      rw [← List.append_assoc, dirPart,
        List.rdropWhile_concat_pos _ _ _ (by simpa using Ne.symm hlast.2)]
      exact ih hlast.1
  have happ := dirPart_append_lastPart (dir ++ last)
  rw [hdir'] at happ
  exact ⟨hdir', List.append_cancel_left happ⟩

theorem dotted_eq_cons (last : List UInt8) : ∃ rest, dotted last = 46 :: rest := by
  rw [dotted]
  split_ifs with h
  · exact List.head?_eq_some_iff.1 h
  · exact ⟨last, rfl⟩

theorem mem_of_mem_dotted {b : UInt8} (h : b ∈ dotted last) : b = 46 ∨ b ∈ last := by
  rw [dotted] at h
  split_ifs at h
  · exact .inr h
  · exact List.mem_cons.1 h

theorem length_dotted_le (last : List UInt8) : (dotted last).length ≤ last.length + 1 := by
  rw [dotted]
  split_ifs
  · exact Nat.le_succ _
  · exact Nat.le_refl _

/-- A slash of the name is also one of the hidden name, and the parts of this are the same but for
the dot. -/
theorem parts_hiddenNameOf (h : 47 ∈ name) : dirPart (hiddenNameOf name) = dirPart name ∧
    lastPart (hiddenNameOf name) = dotted (lastPart name) :=
  parts_append (.inr (dirPart_eq_append h)) fun hmem =>
    (mem_of_mem_dotted hmem).elim (by decide) (slash_notMem_lastPart name)

theorem hiddenNameOf_hiddenNameOf (h : 47 ∈ name) :
    hiddenNameOf (hiddenNameOf name) = hiddenNameOf name := by
  obtain ⟨rest, hrest⟩ := dotted_eq_cons (lastPart name)
  rw [hiddenNameOf, (parts_hiddenNameOf h).1, (parts_hiddenNameOf h).2, hiddenNameOf, dotted,
    if_pos (by rw [hrest]; rfl)]

theorem zero_notMem_hiddenNameOf (hzero : 0 ∉ name) : 0 ∉ hiddenNameOf name := fun hmem => by
  rw [← dirPart_append_lastPart name, List.mem_append, not_or] at hzero
  rcases List.mem_append.1 hmem with hdir | hlast
  · exact hzero.1 hdir
  · exact (mem_of_mem_dotted hlast).elim (by decide) hzero.2

theorem le_length_dotted (last : List UInt8) : last.length ≤ (dotted last).length := by
  rw [dotted]
  split_ifs
  · exact Nat.le_refl _
  · exact Nat.le_succ _

theorem le_length_hiddenNameOf (name : List UInt8) : name.length ≤ (hiddenNameOf name).length := by
  have hlen := congrArg List.length (dirPart_append_lastPart name)
  have hdot := le_length_dotted (lastPart name)
  rw [List.length_append] at hlen
  rw [hiddenNameOf, List.length_append]
  omega

theorem length_hiddenNameOf_le (name : List UInt8) :
    (hiddenNameOf name).length ≤ name.length + 1 := by
  have hlen := congrArg List.length (dirPart_append_lastPart name)
  have hdot := length_dotted_le (lastPart name)
  rw [List.length_append] at hlen
  rw [hiddenNameOf, List.length_append]
  omega

end

/-! ### One call -/

section
variable {name : List UInt8} {m : Mem} {p : Ptr} {size : Usz} {s : String}

theorem measured_eq (h : Holds m.read p (name ++ [0])) (hzero : 0 ∉ name)
    (hlen : name.length + 1 < 2 ^ 64) :
    measured p size m = .ok { base := p, writeCur := UInt64.ofNat name.length,
                              size := size, enc := .utf8 } := by
  have hunits : NonzeroUnits 1 name := .of_bytes fun b hb h0 => hzero (h0 ▸ hb)
  have hscan : stringLen { base := p, writeCur := 0, size := size, enc := .utf8 } .cstring m =
      .ok (UInt64.ofNat name.length) :=
    lenCString_eq hunits h (Nat.succ_pos 0) hlen
  rw [measured, hscan]
  rfl

/-- The length of the part is an index that is not `INVALID_IDX`. -/
theorem dirPart_index (hlen : name.length + 1 < 2 ^ 64) :
    (UInt64.ofNat (dirPart name).length).toNat = (dirPart name).length ∧
    UInt64.ofNat (dirPart name).length ≠ invalidIdx := by
  have hsum := congrArg List.length (dirPart_append_lastPart name)
  rw [List.length_append] at hsum
  have hdir : (UInt64.ofNat (dirPart name).length).toNat = (dirPart name).length :=
    UInt64.toNat_ofNat_of_lt_two_pow (by omega)
  refine ⟨hdir, fun heq => ?_⟩
  have hmax : invalidIdx.toNat = 2 ^ 64 - 1 := rfl
  rw [heq, hmax] at hdir
  omega

theorem charInString_slash_after (henc : s.enc = .utf8) (h : Holds m.read s.base name)
    (hlen : s.writeCur.toNat = name.length) :
    charInString 47 s (returnIdxAfter ||| searchReverse) m =
      .ok (if 47 ∈ name then UInt64.ofNat (dirPart name).length else invalidIdx) := by
  have hbytes : needleBytes 47 .utf8 = [47] := by decide +kernel
  obtain ⟨r, hrun, idx, hr, hidx⟩ :=
    Except.wp_iff.1 (charInString_spec 47 h hlen (returnIdxAfter ||| searchReverse))
  have hr' : r = if idx ≠ invalidIdx then idx + 1 else idx := by
    rw [henc] at hr
    exact hr
  have hfound : IsFound true [47] (dirPart name ++ lastPart name) idx := by
    rw [henc, hbytes] at hidx
    rw [dirPart_append_lastPart]
    exact hidx
  obtain ⟨hnone, hsome⟩ := isFound_slash (slash_notMem_lastPart name) hfound
  rw [hrun, hr']
  by_cases hslash : 47 ∈ name
  · obtain ⟨l, hl⟩ := dirPart_eq_append hslash
    have hidx' : idx.toNat = l.length := hsome l hl
    have hshort : l.length + 1 ≤ name.length := by
      rw [← dirPart_append_lastPart name, hl, List.length_append, List.length_append]
      exact Nat.le_add_right _ _
    have hlt := s.writeCur.toNat_lt
    have hne : idx ≠ invalidIdx := fun heq => by
      have hmax : invalidIdx.toNat = 2 ^ 64 - 1 := rfl
      rw [heq] at hidx'
      omega
    rw [if_pos hne, if_pos hslash, hl, List.length_append, UInt64.ofNat_add, ← hidx',
      UInt64.ofNat_toNat]
    rfl
  · have hidx' := hnone (dirPart_eq_nil_iff.2 hslash)
    rw [if_neg (not_not.2 hidx'), if_neg hslash, hidx']

/-- The dot in front of a name that begins with the byte. -/
def dotOf (first : UInt8) : List UInt8 := if first = 46 then [] else [46]

theorem dotted_cons (b : UInt8) (rest : List UInt8) :
    dotted (b :: rest) = dotOf b ++ (b :: rest) := by
  rw [dotted, dotOf, List.head?_cons]
  simp only [Option.some_inj]
  split_ifs <;> rfl

theorem appendDot_eq (h : Writable m s) (hroom : 0 < s.room) (b : UInt8) :
    appendDot b s m = .ok (s.grown (dotOf b).length, m.store (s.base + s.writeCur) (dotOf b)) := by
  rw [appendDot, dotOf]
  by_cases hdot : b = 46
  · rw [if_neg (not_not.2 hdot), if_pos hdot, Mem.store_nil, List.length_nil, String.grown_zero]
    rfl
  · have hfree := h.free 0 (by rwa [UInt64.toNat_zero])
    rw [UInt64.add_zero] at hfree
    rw [if_pos hdot, if_neg hdot, Mem.write, if_pos hfree, Mem.store_singleton]
    rfl

theorem appendHidden_eq {dir rest : List UInt8} {b : UInt8} {old new : String}
    {slash : Usz} (hnew : Writable m new)
    (hold : ∀ bs : List UInt8, bs.length ≤ new.room →
      Holds (m.store (new.base + new.writeCur) bs).read old.base (dir ++ b :: rest))
    (hslash : slash.toNat = dir.length) (hfound : slash ≠ invalidIdx)
    (hcur : old.writeCur.toNat = (dir ++ b :: rest).length)
    (hlen : (dir ++ dotted (b :: rest)).length ≤ new.room) :
    appendHidden old slash new m =
      .ok (m.store (new.base + new.writeCur) (dir ++ dotted (b :: rest))) := by
  rw [dotted_cons, List.length_append, List.length_append] at hlen
  rw [List.length_append] at hcur
  have hpos : 0 < (b :: rest).length := Nat.succ_pos _
  have hlt := old.writeCur.toNat_lt
  have hrest : (old.writeCur - slash).toNat = (b :: rest).length := by
    rw [UInt64.toNat_sub_of_toNat_le (by omega), hcur, hslash, Nat.add_sub_cancel_left]
  have hdir := appendToString_of_holds hnew (hold [] (Nat.zero_le _)).of_append hslash (by omega)
  rw [Mem.store_nil] at hdir
  -- the byte that says if there is a dot
  have hget : (dir ++ b :: rest)[slash.toNat]? = some b := by
    rw [hslash, List.getElem?_append_right (Nat.le_refl _), Nat.sub_self]
    rfl
  have hread := (hold dir (by omega)).read hget
  have hfits : dir.length ≤ new.room := by omega
  have hroom := hnew.room_grown hfits
  have hdot :=
    appendDot_eq (hnew.grown hfits (m.store (new.base + new.writeCur) dir) rfl) (by omega) b
  rw [hnew.store_grown (by omega), String.grown_grown] at hdot
  -- the last component
  have hlast := (hold (dir ++ dotOf b) (by rw [List.length_append]; omega)).drop slash
    (by rw [List.length_append]; omega) (by rw [List.length_append]; omega)
  rw [hslash, List.drop_left] at hlast
  have hfits' : dir.length + (dotOf b).length ≤ new.room := by omega
  have hroom' := hnew.room_grown hfits'
  have hend :=
    appendToString_of_holds
      (hnew.grown hfits' (m.store (new.base + new.writeCur) (dir ++ dotOf b)) rfl) hlast hrest
    (by omega)
  rw [← List.length_append, hnew.store_grown (by rw [List.length_append]; omega),
    List.append_assoc, ← dotted_cons, List.length_append] at hend
  unfold appendHidden
  rw [if_pos hfound, hdir, Except.ok_bind]
  dsimp only
  rw [hread, Except.ok_bind, hdot, Except.ok_bind]
  dsimp only
  rw [hend]
  rfl

end

namespace HiddenMem
variable {filename newBuf : Ptr} {m : Mem} {name bs : List UInt8}

/-- The filename is still there when the array is written. -/
theorem holds_store (h : HiddenMem filename newBuf m name) (hbs : bs.length ≤ 4096) :
    Holds (m.store newBuf bs).read filename (name ++ [0]) := by
  refine Mem.reads_store h.holds ?_ hbs
  rw [List.length_append, List.length_singleton]
  exact h.apart

theorem writable_newString (h : HiddenMem filename newBuf m name) (bs : List UInt8) :
    Writable (m.store newBuf bs) (newString newBuf) := by
  refine ⟨UInt64.zero_le, (by decide : (4096 : Usz).toNat + 4 < 2 ^ 64), fun i hi => ?_⟩
  show m.writable (newBuf + 0 + i)
  rw [UInt64.add_zero]
  exact h.writable i hi

theorem hiddenName_eq (h : HiddenMem filename newBuf m name) (hzero : 0 ∉ name) (hslash : 47 ∈ name)
    (hlast : lastPart name ≠ []) (hlen : (hiddenNameOf name).length ≤ 4095) :
    hiddenName filename newBuf m = .ok (m.store newBuf (padded (hiddenNameOf name))) := by
  obtain ⟨b, rest, hcons⟩ := List.exists_cons_of_ne_nil hlast
  have hname : dirPart name ++ (b :: rest) = name := by rw [← hcons, dirPart_append_lastPart]
  have hshort := le_length_hiddenNameOf name
  obtain ⟨hdir, hfound⟩ := @dirPart_index name (by omega)
  have hcur : (UInt64.ofNat name.length).toNat = name.length :=
    UInt64.toNat_ofNat_of_lt_two_pow (by omega)
  have hholds := @holds_store _ _ _ _ (List.replicate 4096 0) h (by rw [List.length_replicate])
  have hstart : (newString newBuf).base + (newString newBuf).writeCur = newBuf :=
    UInt64.add_zero newBuf
  have happ := @appendHidden_eq _ (dirPart name) rest b
    { base := filename, writeCur := UInt64.ofNat name.length, size := maxPathSize, enc := .utf8 } _
    (UInt64.ofNat (dirPart name).length) (h.writable_newString (List.replicate 4096 0))
    (fun bs hbs => by
      rw [hstart, store_zeroArray hbs, hname]
      refine (h.holds_store ?_).of_append
      rw [List.length_append, List.length_replicate]
      exact Nat.le_of_eq (Nat.add_sub_of_le hbs)) hdir hfound
        (hcur.trans (congrArg List.length hname.symm))
    (by rw [← hcons]; exact Nat.le_succ_of_le hlen)
  rw [hstart, ← hcons, ← hiddenNameOf, store_zeroArray (Nat.le_succ_of_le hlen), ← padded_eq hlen]
    at happ
  rw [hiddenName, memset_zeroArray h.writable, Except.ok_bind, measured_eq hholds hzero (by omega),
    Except.ok_bind,
    charInString_slash_after rfl hholds.of_append hcur, Except.ok_bind, if_pos hslash, happ]

/-- Where there is no slash, the byte in front of the filename is read. -/
theorem hiddenName_of_no_slash (h : HiddenMem filename newBuf m name)
    (hzero : 0 ∉ name) (hslash : 47 ∉ name) (hlen : name.length < 4095)
    (hbefore : ¬ InRange newBuf 4096 (filename - 1)) :
    hiddenName filename newBuf m = .error (.read (filename - 1)) := by
  have hcur : (UInt64.ofNat name.length).toNat = name.length :=
    UInt64.toNat_ofNat_of_lt_two_pow (by omega)
  have hholds := @holds_store _ _ _ _ (List.replicate 4096 0) h (by rw [List.length_replicate])
  have hindex : filename + invalidIdx = filename - 1 := by
    rw [invalidIdx, uszMax]
    grind
  have hname : ¬ InRange filename (name.length + 1) (filename - 1) := by
    rw [← hindex, inRange_add]
    have hmax : invalidIdx.toNat = 2 ^ 64 - 1 := rfl
    omega
  have hread : (m.store newBuf (List.replicate 4096 0)).read (filename - 1) =
      .error (.read (filename - 1)) := by
    rw [Mem.read, Mem.store_readable]
    exact if_neg fun hreadable => (h.only _ hreadable).elim hname hbefore
  rw [hiddenName, memset_zeroArray h.writable, Except.ok_bind, measured_eq hholds hzero (by omega),
    Except.ok_bind,
    charInString_slash_after rfl hholds.of_append hcur, Except.ok_bind, if_neg hslash]
  unfold appendHidden
  rw [if_neg (not_not.2 rfl)]
  show ((m.store newBuf (List.replicate 4096 0)).read (filename + invalidIdx) >>= _) = _
  rw [hindex, hread]
  rfl

end HiddenMem

section
variable {name : List UInt8}

theorem passesName_of_slash (hzero : 0 ∉ name) (hslash : 47 ∈ name) (hlast : lastPart name ≠ [])
    (hlen : (hiddenNameOf name).length ≤ 4095) : PassesName name (hiddenNameOf name) := by
  intro σ openFile filename newBuf flags m s hflag hmem
  have hholds : Holds (m.store newBuf (padded (hiddenNameOf name))).read newBuf
      (padded (hiddenNameOf name)) :=
    Mem.holds_store fun i hi => hmem.readable i (by rwa [length_padded hlen] at hi)
  have htext := cString_eq hholds (zero_notMem_hiddenNameOf hzero) (by omega)
  rw [createNewFile, newFile, if_pos hflag, hmem.hiddenName_eq hzero hslash hlast hlen]
  show (cString _ newBuf >>= _) = _
  rw [htext]
  rfl

/-- The test holds of a name with a dot behind its last slash. -/
theorem nameIsHidden_of_dot {p : Ptr} {m : Mem} {rest : List UInt8}
    (h : Holds m.read p (name ++ [0])) (hzero : 0 ∉ name) (hslash : 47 ∈ name)
    (hlast : lastPart name = 46 :: rest) (hlen : name.length + 1 < 2 ^ 64) :
    nameIsHidden p m = .ok true := by
  have hcur : (UInt64.ofNat name.length).toNat = name.length :=
    UInt64.toNat_ofNat_of_lt_two_pow (by omega)
  obtain ⟨hdir, hfound⟩ := dirPart_index hlen
  have hname : dirPart name ++ 46 :: rest = name := by rw [← hlast, dirPart_append_lastPart]
  have hget : (dirPart name ++ 46 :: rest)[(UInt64.ofNat (dirPart name).length).toNat]? =
      some 46 := by
    rw [hdir, List.getElem?_append_right (Nat.le_refl _), Nat.sub_self]
    rfl
  rw [hname] at hget
  rw [nameIsHidden, measured_eq h hzero hlen, Except.ok_bind,
    charInString_slash_after rfl h.of_append hcur, Except.ok_bind,
    if_pos hslash, if_pos hfound, h.of_append.read hget]
  rfl

theorem isFileHidden_of_dot (access : List UInt8 → Bool) {p : Ptr} {m : Mem} {rest : List UInt8}
    (h : Holds m.read p (name ++ [0])) (hzero : 0 ∉ name) (hslash : 47 ∈ name)
    (hlast : lastPart name = 46 :: rest) (hlen : name.length + 1 < 2 ^ 64) :
    isFileHidden access p m = .ok (access name) := by
  rw [isFileHidden, cString_eq h hzero (by omega), Except.ok_bind,
    nameIsHidden_of_dot h hzero hslash hlast hlen]
  cases access name <;> rfl

theorem hidesName_of_slash (hne : name ≠ []) (hzero : 0 ∉ name) (hlast : name.getLast? ≠ some 47)
    (hlen : name.length < 4095) (hslash : 47 ∈ name) : HidesName name := by
  have hpart := lastPart_ne_nil hne hlast
  have hlen' := length_hiddenNameOf_le name
  obtain ⟨rest, hrest⟩ := dotted_eq_cons (lastPart name)
  obtain ⟨-, hparts⟩ := parts_hiddenNameOf hslash
  have hslash' : 47 ∈ hiddenNameOf name := by
    obtain ⟨l, hl⟩ := dirPart_eq_append hslash
    rw [hiddenNameOf, hl]
    simp
  have hagain := hiddenNameOf_hiddenNameOf hslash
  have hpass := passesName_of_slash (zero_notMem_hiddenNameOf hzero) hslash'
    (by rw [hparts, hrest]; exact List.cons_ne_nil _ _) (by rw [hagain]; omega)
  rw [hagain] at hpass
  exact ⟨passesName_of_slash hzero hslash hpart (by omega),
    fun access p m h => isFileHidden_of_dot access h (zero_notMem_hiddenNameOf hzero) hslash'
    (hparts.trans hrest) (by omega), hpass⟩

/-! A name in memory of its own. -/

def hiddenMem (name : List UInt8) : Mem :=
  (⟨fun _ => 0xEE, fun a => decide (InRange 8192 (name.length + 1) a) ||
    decide (InRange 16384 4096 a), fun _ => true⟩ : Mem).store
    8192 (name ++ [0])

theorem hiddenMem_spec (hlen : name.length < 4095) :
    HiddenMem 8192 16384 (hiddenMem name) name where
  holds := Mem.holds_store fun i hi => by
    rw [List.length_append, List.length_singleton] at hi
    exact Bool.or_eq_true_iff.2 (.inl (decide_eq_true (inRange_add.2 hi)))
  readable i hi := Bool.or_eq_true_iff.2 (.inr (decide_eq_true (inRange_add.2 hi)))
  writable _ _ := rfl
  apart := apart_of_le (by
    show 8192 + (name.length + 1) ≤ 16384
    omega) (by decide)
  only a h := (Bool.or_eq_true_iff.1 h).imp of_decide_eq_true of_decide_eq_true

theorem not_hidesName (hzero : 0 ∉ name) (hslash : 47 ∉ name) (hlen : name.length < 4095) :
    ¬ HidesName name := fun h => by
  have hpass := h.passes Unit (fun _ _ _ s => (0, s)) 8192 16384 hiddenFile (hiddenMem name) ()
    (by decide) (hiddenMem_spec hlen)
  have hrun := (hiddenMem_spec hlen).hiddenName_of_no_slash hzero hslash hlen (by decide)
  rw [createNewFile, newFile, if_pos (by decide), hrun] at hpass
  cases hpass

end

/-- The name is right if it has a slash. -/
theorem hidesName_iff (name : List UInt8) (hne : name ≠ []) (hzero : 0 ∉ name)
    (hlast : name.getLast? ≠ some 47) (hlen : name.length < (maxPathSize - 1).toNat) :
    HidesName name ↔ 47 ∈ name :=
  ⟨fun h => Decidable.by_contra fun hslash => not_hidesName hzero hslash hlen h,
    hidesName_of_slash hne hzero hlast hlen⟩

theorem hidesName_iff_inDir : HidesName [100, 47, 97] :=
  (hidesName_iff [100, 47, 97] (by decide) (by decide) (by decide) (by decide)).2 (by decide)

/-- A name without a directory part: the byte in front of it is read. -/
theorem hidesName_not_bare :
    [97] ≠ ([] : List UInt8) ∧ (0 : UInt8) ∉ [97] ∧ [97].getLast? ≠ some (47 : UInt8) ∧
    ([97] : List UInt8).length < (maxPathSize - 1).toNat ∧
      HiddenMem 8192 16384 (hiddenMem [97]) [97] ∧
    hiddenName 8192 16384 (hiddenMem [97]) = .error (.read 8191) ∧ ¬ HidesName [97] :=
  have hmem := @hiddenMem_spec [97] (by decide)
  ⟨by decide, by decide, by decide, by decide, hmem,
    hmem.hiddenName_of_no_slash (by decide) (by decide) (by decide) (by decide),
    not_hidesName (by decide) (by decide) (by decide)⟩

end TinyBase
