import TinyBase.Lib.LexicalPath
import TinyBase.PathAppend

/-!
# What a path append makes of `.` and `..`

`_AppendPathToPath` resolves the components of the new part one by one, on the bytes of the
destination. Two kinds of input go wrong: the last component is copied as it is when no slash is
behind it, and `MoveUpPath` takes the slash in front of an absolute path for the one behind a
component.
-/

namespace TinyBase
open LexicalPath

/-! ### The bytes of a path -/

section
variable {m : Mem} {tmp : String} {bs l c : List UInt8} {r : Usz}

theorem stringBytes_grown (hcur : tmp.writeCur.toNat ≤ tmp.size.toNat)
    (hfits : bs.length ≤ spaceLeft tmp) :
    stringBytes (tmp.grown bs.length) (m.store (tmp.base + tmp.writeCur) bs) =
      stringBytes tmp m ++ bs := by
  have hgrown := toNat_grown_writeCur hcur hfits
  have hlt := tmp.size.toNat_lt
  have hspace := spaceLeft_eq hcur
  rw [stringBytes, hgrown]
  exact Mem.map_bytesFrom_store_behind (by omega)

theorem stringBytes_take {n : Usz} (hn : n ≤ tmp.writeCur) :
    stringBytes { tmp with writeCur := n } m = (stringBytes tmp m).take n.toNat := by
  rw [stringBytes, stringBytes, ← List.map_take, List.take_range,
    Nat.min_eq_left (UInt64.le_iff_toNat_le.1 hn)]

theorem isFound_slash (hc : 47 ∉ c) (h : IsFound true [47] (l ++ c) r) :
    (l = [] → r = invalidIdx) ∧ ∀ l', l = l' ++ [47] → r.toNat = l'.length := by
  have hiff (i : Nat) : [47] <+: (l ++ c).drop i ↔ (l ++ c)[i]? = some 47 := by
    rw [← List.head?_drop]
    cases (l ++ c).drop i <;> simp [eq_comm]
  have hbehind (i : Nat) (hi : l.length ≤ i) : ¬ [47] <+: (l ++ c).drop i := by
    rw [hiff, List.getElem?_append_right hi]
    exact fun hget => hc (List.mem_of_getElem? hget)
  rw [IsFound, if_pos rfl] at h
  constructor
  · rintro rfl
    exact (h.resolve_left fun hfound => hbehind _ (Nat.zero_le _) hfound.sat).1
  · rintro l' rfl
    have hlast : [47] <+: (l' ++ [47] ++ c).drop l'.length := by simp
    rcases h with hfound | ⟨-, hnone⟩
    · refine Nat.le_antisymm (Nat.le_of_lt_succ ?_) ?_
      · refine Nat.lt_of_not_le fun hge => hbehind r.toNat (by simpa using hge) hfound.sat
      · refine Nat.le_of_not_lt fun hlt => hfound.none _ hlt ?_ hlast
        simp
    · exact absurd hlast (hnone _ (by simp))

end

/-! ### `MoveUpPath` -/

section
variable {m : Mem} {path : String} {c : List UInt8} {absolute : Bool} {stack : List (List UInt8)}

theorem holds_stringBytes (hread : m.Readable path.base path.writeCur.toNat) :
    Holds m.read path.base (stringBytes path m) := by
  rw [Holds, length_stringBytes]
  refine hread.reads.congr fun i hi => ?_
  simp [stringBytes, List.getD_eq_getElem?_getD, hi]

theorem stringBytes_of_holds {bs : List UInt8} (h : Holds m.read path.base bs)
    (hlen : path.writeCur.toNat = bs.length) : stringBytes path m = bs := by
  have hlt := path.writeCur.toNat_lt
  refine List.ext_getElem (by rw [length_stringBytes, hlen]) fun i hi hi' => ?_
  have hword : (UInt64.ofNat i).toNat = i := UInt64.toNat_ofNat_of_lt_two_pow (by omega)
  have hget : bs[(UInt64.ofNat i).toNat]? = some bs[i] := by
    rw [hword, List.getElem?_eq_getElem hi']
  rw [getElem_stringBytes, Mem.byte_of_read (h.read hget)]

theorem read_last {l : List UInt8} {b : UInt8} (hread : m.Readable path.base path.writeCur.toNat)
    (htext : stringBytes path m = l ++ [b]) :
    (path.writeCur - 1).toNat = l.length ∧ m.read (path.base + (path.writeCur - 1)) = .ok b := by
  have hlen := congrArg List.length htext
  rw [length_stringBytes, List.length_append, List.length_singleton] at hlen
  have hpred : (path.writeCur - 1).toNat = path.writeCur.toNat - 1 :=
    UInt64.toNat_sub_of_toNat_le (by simp; omega)
  refine ⟨by omega, ?_⟩
  rw [holds_stringBytes hread _ (by rw [length_stringBytes, hpred]; omega), hpred,
    htext, hlen, Nat.add_sub_cancel]
  simp

/-- `MoveUpPath` goes back to the last slash but one, and behind it, if it is not the first byte. -/
theorem moveUpPath_eq {l : List UInt8} (henc : path.enc = .utf8)
    (hread : m.Readable path.base path.writeCur.toNat) (htext : stringBytes path m = l ++ c ++ [47])
    (hc : 47 ∉ c) (hl : l ≠ [] → ∃ l', l = l' ++ [47]) :
    ∃ r, moveUpPath path 1 m = .ok (r,
      { path with writeCur := UInt64.ofNat (if l.length ≤ 1 then 0 else l.length) }) := by
  have hlt := path.writeCur.toNat_lt
  have hlen := congrArg List.length htext
  rw [length_stringBytes, List.length_append, List.length_append, List.length_singleton] at hlen
  obtain ⟨hpred, hlast⟩ := read_last hread htext
  rw [List.length_append] at hpred
  have htext' : stringBytes { path with writeCur := path.writeCur - 1 } m = l ++ c := by
    rw [stringBytes_take (UInt64.le_iff_toNat_le.2 (by omega)), htext, hpred, ← List.length_append,
      List.take_left]
  have hread' : m.Readable path.base (path.writeCur - 1).toNat := fun i hi => hread i (by omega)
  have hsearch := charInString_idxFind_reverse 47
    (@holds_stringBytes m { path with writeCur := path.writeCur - 1 } hread')
    (length_stringBytes ..).symm
  obtain ⟨idx, hidx, hfound⟩ := Except.wp_iff.1 hsearch
  have hneedle :
      needleBytes 47 ({ path with writeCur := path.writeCur - 1 } : String).enc = [47] := by
    show needleBytes 47 path.enc = _
    rw [henc]
    decide +kernel
  rw [htext', hneedle] at hfound
  obtain ⟨hnil, hcons⟩ := isFound_slash hc hfound
  rw [moveUpPath, hlast, Except.ok_bind]
  dsimp only
  rw [if_pos rfl]
  by_cases hl0 : l = []
  · rw [whileLoop_of_done (r := { path with writeCur := 0 })]
    · subst hl0
      exact ⟨_, rfl⟩
    · dsimp only
      rw [if_pos (by decide), hidx, Except.ok_bind, if_pos (hnil hl0)]
      rfl
  · obtain ⟨l', rfl⟩ := hl hl0
    have hidx' := hcons l' rfl
    rw [List.length_append, List.length_singleton] at hlen
    have hne : idx ≠ invalidIdx := by
      rintro rfl
      have hmax : UInt64.toNat invalidIdx = 2 ^ 64 - 1 := rfl
      omega
    rw [whileLoop_of_iterate (r := { path with writeCur := idx }) 2 (by decide)]
    · refine ⟨_, congrArg Except.ok (Prod.ext rfl ?_)⟩
      have hidx0 : idx = UInt64.ofNat l'.length := by rw [← hidx', UInt64.ofNat_toNat]
      rw [List.length_append, List.length_singleton]
      dsimp only
      by_cases h0 : l' = []
      · subst h0
        rw [hidx0]
        rfl
      · have hpos := List.length_pos_iff.2 h0
        rw [if_pos (UInt64.lt_iff_toNat_lt.2 (by rw [hidx']; exact hpos)),
          if_neg (by omega), UInt64.ofNat_add, hidx0]
        rfl
    · rw [iterate]
      dsimp only
      rw [if_pos (by decide), hidx, Except.ok_bind, if_neg hne]
      rfl

end

/-! ### The loop -/

/-- What the function needs of the memory: the part can be read, the path and the byte behind its
size can be written, and they are apart. -/
structure JoinMem (src dst : String) (m : Mem) : Prop where
  src_enc : src.enc = .utf8
  dst_enc : dst.enc = .utf8
  src_readable : m.Readable src.base src.writeCur.toNat
  dst_readable : m.Readable dst.base dst.size.toNat
  dst_writable : ∀ i ≤ dst.size, m.writable (dst.base + i)
  small : dst.size.toNat + 4 < 2 ^ 64
  apart : Apart src.base src.writeCur.toNat dst.base (dst.size.toNat + 1)

/-- The loop is about to read the component at `i`; the path has the components `stack`, each with a
slash behind it. -/
structure Visits (src dst : String) (m0 : Mem) (absolute : Bool) (stack : List (List UInt8))
    (st : JoinState) (i : Nat) : Prop where
  starts : st.StartsAt i
  base_eq : st.tmp.base = dst.base
  size_eq : st.tmp.size = dst.size
  enc_eq : st.tmp.enc = .utf8
  cur_le : st.tmp.writeCur.toNat ≤ dst.size.toNat
  text : stringBytes st.tmp st.m = dirText 47 absolute stack
  bytes_eq : stringBytes src st.m = stringBytes src m0
  readable_eq : st.m.readable = m0.readable
  writable_eq : st.m.writable = m0.writable

/-- And there is room for all that is left of the part. -/
structure Joins (src dst : String) (m0 : Mem) (absolute : Bool) (stack : List (List UInt8))
    (st : JoinState) (i : Nat) : Prop where
  starts : st.StartsAt i
  base_eq : st.tmp.base = dst.base
  size_eq : st.tmp.size = dst.size
  enc_eq : st.tmp.enc = .utf8
  text : stringBytes st.tmp st.m = dirText 47 absolute stack
  room : st.tmp.writeCur.toNat + (src.writeCur.toNat - i) ≤ dst.size.toNat
  bytes_eq : stringBytes src st.m = stringBytes src m0
  readable_eq : st.m.readable = m0.readable
  writable_eq : st.m.writable = m0.writable

section
variable {m m0 : Mem} {src dst tmp : String} {st : JoinState} {res : Bool × JoinState}
  {c t : List UInt8} {i : Nat} {absolute : Bool} {stack stack' : List (List UInt8)}

theorem JoinMem.writable (hmem : JoinMem src dst m0) (hbase : tmp.base = dst.base)
    (hsize : tmp.size = dst.size) (hcur : tmp.writeCur.toNat ≤ dst.size.toNat)
    (hm : m.writable = m0.writable) : Writable m tmp := by
  refine .of_storage hbase hsize hcur hmem.small fun i hi => ?_
  rw [hm]
  exact hmem.dst_writable i (UInt64.le_iff_toNat_le.2 (Nat.le_of_lt hi))

theorem appendStringToString_spec (h : Writable m tmp) (henc : src.enc = tmp.enc)
    (hread : m.Readable src.base src.writeCur.toNat) :
    Appends (appendStringToString src tmp m) tmp m (stringBytes src m) := by
  rw [appendStringToString, if_pos henc]
  exact appendToString_spec h hread.reads

theorem appendSlash_eq (h : Writable m tmp) (henc : tmp.enc = .utf8) (hfits : 1 ≤ tmp.room) :
    appendCharToString 47 tmp m = .ok (true, tmp.grown 1,
      m.store (tmp.base + tmp.writeCur) [47]) := by
  have happends := appendCharToString_spec h 47
  have hbytes : charBytes 47 .utf8 = [47] := by decide +kernel
  rw [henc, hbytes] at happends
  exact happends.of_le hfits

theorem leaves_of_takes (hread : st.m.Readable src.base src.writeCur.toNat)
    (hrest : (stringBytes src st.m).drop st.readIdx.toNat = c ++ t) (hc : 47 ∉ c)
    (h : Leaves (joinStep src) (c.foldl JoinState.take st) res) : Leaves (joinStep src) st res := by
  induction c generalizing st with
  | nil => exact h
  | cons b c ih =>
    obtain ⟨hlt, hb, hrest'⟩ := rest_cons hrest
    rw [List.mem_cons, not_or] at hc
    have hnext : Leaves (joinStep src) (st.take b) res := @ih (st.take b) hread hrest' hc.2 h
    refine .next ?_ hnext
    rw [joinStep, if_pos hlt, Mem.read, if_pos (hread _ (UInt64.lt_iff_toNat_lt.1 hlt)), hb,
      Except.ok_bind, if_neg (Ne.symm hc.1)]
    rfl

theorem readable_dir (hread : m.Readable src.base src.writeCur.toNat)
    (hle : st.readStart.toNat + (st.dir src).writeCur.toNat ≤ src.writeCur.toNat) :
    m.Readable (st.dir src).base (st.dir src).writeCur.toNat := fun k hk => by
  have hlt := src.writeCur.toNat_lt
  have hsum : (st.readStart + k).toNat = st.readStart.toNat + k.toNat :=
    UInt64.toNat_add_of_lt (by omega)
  rw [JoinState.dir, UInt64.add_assoc]
  exact hread _ (by omega)

namespace Visits

theorem writable (h : Visits src dst m0 absolute stack st i) (hmem : JoinMem src dst m0) :
    Writable st.m st.tmp :=
  hmem.writable h.base_eq h.size_eq h.cur_le h.writable_eq

theorem src_readable (h : Visits src dst m0 absolute stack st i) (hmem : JoinMem src dst m0) :
    st.m.Readable src.base src.writeCur.toNat := fun k hk => by
  rw [h.readable_eq]
  exact hmem.src_readable k hk

theorem tmp_readable (h : Visits src dst m0 absolute stack st i) (hmem : JoinMem src dst m0) :
    st.m.Readable st.tmp.base st.tmp.writeCur.toNat := fun k hk => by
  have hcur := h.cur_le
  rw [h.readable_eq, h.base_eq]
  exact hmem.dst_readable k (by omega)

theorem slash_dot (h : Visits src dst m0 absolute stack st i) {st1 : JoinState}
    (htmp : st1.tmp = st.tmp) (hm : st1.m = st.m) {j : Nat} (hidx : (st1.readIdx + 1).toNat = j) :
    Visits src dst m0 absolute stack (st1.slash st1.tmp st1.m) j where
  starts := ⟨rfl, rfl, hidx⟩
  base_eq := (congrArg (·.base) htmp).trans h.base_eq
  size_eq := (congrArg (·.size) htmp).trans h.size_eq
  enc_eq := (congrArg (·.enc) htmp).trans h.enc_eq
  cur_le := by
    show st1.tmp.writeCur.toNat ≤ _
    rw [htmp]
    exact h.cur_le
  text := by
    show stringBytes st1.tmp st1.m = _
    rw [htmp, hm]
    exact h.text
  bytes_eq := by
    show stringBytes src st1.m = _
    rw [hm]
    exact h.bytes_eq
  readable_eq := (congrArg (·.readable) hm).trans h.readable_eq
  writable_eq := (congrArg (·.writable) hm).trans h.writable_eq

theorem slash_append (h : Visits src dst m0 absolute stack st i) (hmem : JoinMem src dst m0)
    {st1 : JoinState} {j : Nat} (hfits : c.length + 1 ≤ st.tmp.room)
    (hidx : (st1.readIdx + 1).toNat = j) :
    (st.tmp.grown (c.length + 1)).writeCur.toNat = st.tmp.writeCur.toNat + (c.length + 1) ∧
    Visits src dst m0 absolute (stack ++ [c])
      (st1.slash (st.tmp.grown (c.length + 1))
        (st.m.store (st.tmp.base + st.tmp.writeCur) (c ++ [47]))) j := by
  have hcur : st.tmp.writeCur.toNat ≤ st.tmp.size.toNat := by
    rw [h.size_eq]
    exact h.cur_le
  have hspace : (c ++ [47]).length ≤ spaceLeft st.tmp := by
    rw [spaceLeft_eq hcur, List.length_append, List.length_singleton]
    exact hfits
  have hgrown := toNat_grown_writeCur hcur hspace
  have htext := stringBytes_grown (m := st.m) hcur hspace
  rw [List.length_append, List.length_singleton] at hgrown htext
  refine ⟨hgrown, ⟨rfl, rfl, hidx⟩, h.base_eq, h.size_eq, h.enc_eq, ?_, ?_, ?_,
    h.readable_eq, h.writable_eq⟩
  · rw [String.room, h.size_eq] at hfits
    show (st.tmp.grown (c.length + 1)).writeCur.toNat ≤ _
    have := h.cur_le
    omega
  · rw [dirText_append, ← h.text]
    exact htext
  · rw [← h.bytes_eq]
    exact stringBytes_store hmem.apart h.base_eq h.size_eq hcur hspace

/-- A component that is removed. If nothing but the slash in front of it is left, that goes too. -/
theorem slash_dots {d : List UInt8} (h : Visits src dst m0 absolute (stack ++ [d]) st i)
    (hmem : JoinMem src dst m0) (hd : 47 ∉ d) : ∃ r tmp', moveUpPath st.tmp 1 st.m = .ok (r, tmp') ∧
      tmp'.writeCur.toNat ≤ st.tmp.writeCur.toNat ∧
      ∀ {st1 : JoinState} {j : Nat}, st1.m = st.m → (st1.readIdx + 1).toNat = j →
        if (dirText 47 absolute stack).length ≤ 1 then
        Visits src dst m0 false [] (st1.slash tmp' st1.m) j
        else Visits src dst m0 absolute stack (st1.slash tmp' st1.m) j := by
  have hcur := h.cur_le
  have htext := h.text
  rw [dirText_append, ← List.append_assoc] at htext
  obtain ⟨r, hup⟩ := moveUpPath_eq h.enc_eq (h.tmp_readable hmem) htext hd dirText_eq_append
  have hlen := congrArg List.length htext
  rw [length_stringBytes, List.length_append, List.length_append, List.length_singleton] at hlen
  have hlt := st.tmp.writeCur.toNat_lt
  split_ifs at hup ⊢ with hone
  · refine ⟨r, _, hup, Nat.zero_le _, fun {st1 j} hm hidx =>
      ⟨⟨rfl, rfl, hidx⟩, h.base_eq, h.size_eq, h.enc_eq, Nat.zero_le _, rfl, ?_, ?_, ?_⟩⟩
    · show stringBytes src st1.m = _
      rw [hm]
      exact h.bytes_eq
    · exact (congrArg (·.readable) hm).trans h.readable_eq
    · exact (congrArg (·.writable) hm).trans h.writable_eq
  · have hword : (UInt64.ofNat (dirText 47 absolute stack).length).toNat =
      (dirText 47 absolute stack).length := UInt64.toNat_ofNat_of_lt_two_pow (by omega)
    refine ⟨r, _, hup, ?_,
      fun {st1 j} hm hidx => ⟨⟨rfl, rfl, hidx⟩, h.base_eq, h.size_eq, h.enc_eq, ?_, ?_, ?_, ?_, ?_⟩⟩
    · show (UInt64.ofNat _).toNat ≤ _
      omega
    · show (UInt64.ofNat _).toNat ≤ _
      omega
    · show stringBytes { st.tmp with writeCur := _ } st1.m = _
      rw [hm, stringBytes_take (UInt64.le_iff_toNat_le.2 (by omega)), htext, hword,
        List.append_assoc, List.take_left]
    · show stringBytes src st1.m = _
      rw [hm]
      exact h.bytes_eq
    · exact (congrArg (·.readable) hm).trans h.readable_eq
    · exact (congrArg (·.writable) hm).trans h.writable_eq

theorem read_slash (h : Visits src dst m0 absolute stack st i) (hmem : JoinMem src dst m0)
    {st1 : JoinState} (hat : AtSlash src st c i st1) :
    st1.m.read (src.base + st1.readIdx) = .ok 47 := by
  rw [Mem.read, hat.slash, hat.m_eq,
    if_pos (h.src_readable hmem _ (UInt64.lt_iff_toNat_lt.1 hat.lt))]

theorem appendDir_spec (h : Visits src dst m0 absolute stack st i) (hmem : JoinMem src dst m0)
    {st1 : JoinState} (hat : AtSlash src st c i st1) :
    Appends (appendStringToString (st1.dir src) st.tmp st.m) st.tmp st.m c := by
  have hle := hat.le_writeCur
  have hdirLen : (st1.dir src).writeCur.toNat = c.length := by
    rw [← length_stringBytes (st1.dir src) st.m, hat.dir_eq]
  have hread :=
    @readable_dir st.m src st1 (h.src_readable hmem) (by rw [hat.start_eq, hdirLen]; omega)
  have hspec := @appendStringToString_spec st.m (st1.dir src) st.tmp (h.writable hmem)
    (hmem.src_enc.trans h.enc_eq.symm) hread
  rwa [hat.dir_eq] at hspec

theorem joinStep_dir (h : Visits src dst m0 absolute stack st i) (hmem : JoinMem src dst m0)
    {st1 : JoinState} (hat : AtSlash src st c i st1) (hd : c ≠ [46]) (hdd : c ≠ [46, 46])
    (hfits : c.length + 1 ≤ st.tmp.room) : joinStep src st1 =
      .ok (.next (st1.slash (st.tmp.grown (c.length + 1))
        (st.m.store (st.tmp.base + st.tmp.writeCur) (c ++ [47])))) := by
  have hwritable := h.writable hmem
  have happend := (h.appendDir_spec hmem hat).of_le (by omega)
  have hgrown :=
    hwritable.grown (n := c.length) (by omega) (st.m.store (st.tmp.base + st.tmp.writeCur) c) rfl
  have hroom : 1 ≤ (st.tmp.grown c.length).room := by
    rw [String.room, hwritable.toNat_grown (by omega)]
    rw [String.room] at hfits
    show 1 ≤ st.tmp.size.toNat - _
    omega
  rw [joinStep, if_pos hat.lt, h.read_slash hmem hat, Except.ok_bind,
    if_pos rfl, if_neg (mt hat.dot.1 hd),
    if_neg (mt hat.dots.1 hdd), hat.tmp_eq, hat.m_eq, happend, Except.ok_bind]
  dsimp only
  rw [if_pos rfl, appendSlash_eq hgrown h.enc_eq hroom, Except.ok_bind]
  dsimp only
  rw [if_pos rfl, String.grown_grown, hwritable.store_grown hfits]
  rfl

end Visits

namespace Joins

theorem visits (h : Joins src dst m0 absolute stack st i) :
    Visits src dst m0 absolute stack st i where
  starts := h.starts
  base_eq := h.base_eq
  size_eq := h.size_eq
  enc_eq := h.enc_eq
  cur_le := Nat.le_trans (Nat.le_add_right ..) h.room
  text := h.text
  bytes_eq := h.bytes_eq
  readable_eq := h.readable_eq
  writable_eq := h.writable_eq

theorem of_visits (h : Visits src dst m0 absolute stack st i)
    (hroom : st.tmp.writeCur.toNat + (src.writeCur.toNat - i) ≤ dst.size.toNat) :
    Joins src dst m0 absolute stack st i where
  starts := h.starts
  base_eq := h.base_eq
  size_eq := h.size_eq
  enc_eq := h.enc_eq
  text := h.text
  room := hroom
  bytes_eq := h.bytes_eq
  readable_eq := h.readable_eq
  writable_eq := h.writable_eq

/-- A component that is removed. With the last one an absolute path loses the slash in front of
it. -/
theorem slash_dots {d : List UInt8} (h : Joins src dst m0 absolute (stack ++ [d]) st i)
    (hmem : JoinMem src dst m0) (hstack : ∀ c ∈ stack ++ [d], IsComponent 47 c) :
    ∃ r tmp', moveUpPath st.tmp 1 st.m = .ok (r, tmp') ∧
      ∀ {st1 : JoinState} {j : Nat}, st1.m = st.m → i ≤ j → (st1.readIdx + 1).toNat = j →
        Joins src dst m0 (absolute && !(stack ++ [d]).length == 1) stack
        (st1.slash tmp' st1.m) j := by
  have hroom := h.room
  have hone : (dirText 47 absolute stack).length ≤ 1 ↔ stack = [] :=
    length_dirText_le_one_iff 47 absolute fun c hc => (hstack c (List.mem_append_left _ hc)).1
  obtain ⟨r, tmp', hup, hle, hnext⟩ :=
    h.visits.slash_dots hmem (hstack d (List.mem_append_right _ List.mem_cons_self)).2
  refine ⟨r, tmp', hup, fun {st1 j} hm hj hidx => ?_⟩
  have hvisits := hnext hm hidx
  have hroom' : (st1.slash tmp' st1.m).tmp.writeCur.toNat + (src.writeCur.toNat - j) ≤
      dst.size.toNat := by
    show tmp'.writeCur.toNat + _ ≤ _
    omega
  refine of_visits ?_ hroom'
  split_ifs at hvisits with hshort
  · obtain rfl := hone.1 hshort
    rw [List.nil_append, List.length_singleton, beq_self_eq_true, Bool.not_true, Bool.and_false]
    exact hvisits
  · have hlen : ((stack ++ [d]).length == 1) = false := by
      have hpos := List.length_pos_iff.2 (mt hone.2 hshort)
      rw [List.length_append, List.length_singleton, beq_eq_false_iff_ne]
      omega
    rw [hlen, Bool.not_false, Bool.and_true]
    exact hvisits

theorem fits (h : Joins src dst m0 absolute stack st i) {st1 : JoinState}
    (hat : AtSlash src st c i st1) : c.length + 1 ≤ st.tmp.room := by
  have hroom := h.room
  have hle := hat.le_writeCur
  rw [String.room, h.size_eq]
  omega

/-- Any component but `.` and `..` is copied with the slash behind it. -/
theorem component_name (h : Joins src dst m0 absolute stack st i) (hmem : JoinMem src dst m0)
    (hc : 47 ∉ c) (hrest : (stringBytes src m0).drop i = c ++ 47 :: t)
    (hd : c ≠ [46]) (hdd : c ≠ [46, 46]) :
    ∃ st', Joins src dst m0 absolute (stack ++ [c]) st' (i + c.length + 1) ∧
      st'.m = st.m.store (st.tmp.base + st.tmp.writeCur) (c ++ [47]) ∧
      ∀ res, Leaves (joinStep src) st' res → Leaves (joinStep src) st res := by
  have hat := atSlash h.starts (by rw [h.bytes_eq]; exact hrest)
  have hback : ∀ res, Leaves (joinStep src) (c.foldl JoinState.take st) res →
    Leaves (joinStep src) st res := fun res =>
    leaves_of_takes (h.visits.src_readable hmem) (by rw [h.starts.idx_eq, h.bytes_eq]; exact hrest)
      hc
  obtain ⟨hgrown, hnext⟩ := h.visits.slash_append hmem (h.fits hat) hat.next_eq
  refine ⟨_, of_visits hnext ?_, rfl,
    fun res hres => hback res (.next (h.visits.joinStep_dir hmem hat hd hdd (h.fits hat)) hres)⟩
  have hroom := h.room
  have hle := hat.le_writeCur
  show (st.tmp.grown (c.length + 1)).writeCur.toNat + _ ≤ _
  omega

theorem component (h : Joins src dst m0 absolute stack st i) (hmem : JoinMem src dst m0)
    (hstack : ∀ c ∈ stack, IsComponent 47 c) (hc : 47 ∉ c)
    (hrest : (stringBytes src m0).drop i = c ++ 47 :: t)
    (hres : resolveStep 46 stack c = some stack') :
    ∃ st', Joins src dst m0 (absolute && !emptied 46 stack [c]) stack' st' (i + c.length + 1) ∧
      ∀ res, Leaves (joinStep src) st' res → Leaves (joinStep src) st res := by
  have hat := atSlash h.starts (by rw [h.bytes_eq]; exact hrest)
  have hback : ∀ res, Leaves (joinStep src) (c.foldl JoinState.take st) res →
    Leaves (joinStep src) st res := fun res =>
    leaves_of_takes (h.visits.src_readable hmem) (by rw [h.starts.idx_eq, h.bytes_eq]; exact hrest)
      hc
  generalize c.foldl JoinState.take st = st1 at *
  have hroom := h.room
  have hread := h.visits.read_slash hmem hat
  rw [resolveStep] at hres
  by_cases hd : c = [46]
  · rw [if_pos hd] at hres
    cases hres
    have hstep : joinStep src st1 = .ok (.next (st1.slash st1.tmp st1.m)) := by
      rw [joinStep, if_pos hat.lt, hread, Except.ok_bind, if_pos rfl, if_pos (hat.dot.2 hd)]
      rfl
    refine ⟨_, ?_, fun res hres => hback res (.next hstep hres)⟩
    rw [emptied, if_pos hd, emptied, Bool.not_false, Bool.and_true]
    refine of_visits (h.visits.slash_dot hat.tmp_eq hat.m_eq hat.next_eq) ?_
    show st1.tmp.writeCur.toNat + _ ≤ _
    rw [hat.tmp_eq]
    omega
  · rw [if_neg hd] at hres
    by_cases hdd : c = [46, 46]
    · rw [if_pos hdd] at hres
      split_ifs at hres with hnil
      cases hres
      obtain ⟨init, d, rfl⟩ := (List.eq_nil_or_concat stack).resolve_left hnil
      rw [List.concat_eq_append] at *
      obtain ⟨r, tmp', hup, hjoins⟩ := h.slash_dots hmem hstack
      have hstep : joinStep src st1 = .ok (.next (st1.slash tmp' st1.m)) := by
        rw [joinStep, if_pos hat.lt, hread, Except.ok_bind, if_pos rfl, if_neg (mt hat.dot.1 hd),
          if_pos (hat.dots.2 hdd), hat.tmp_eq, hat.m_eq, hup, Except.ok_bind]
        rfl
      refine ⟨_, ?_, fun res hres => hback res (.next hstep hres)⟩
      rw [emptied, if_neg hd, if_pos hdd, emptied, Bool.or_false, List.dropLast_concat]
      exact hjoins hat.m_eq (by omega) hat.next_eq
    · rw [if_neg hdd] at hres
      cases hres
      obtain ⟨st', hnext, -, hback'⟩ := h.component_name hmem hc hrest hd hdd
      refine ⟨st', ?_, hback'⟩
      rw [emptied, if_neg hd, if_neg hdd, emptied, Bool.not_false, Bool.and_true]
      exact hnext

theorem run {cs : List (List UInt8)} {last : List UInt8} (h : Joins src dst m0 absolute stack st i)
    (hmem : JoinMem src dst m0) (hstack : ∀ c ∈ stack, IsComponent 47 c)
    (hcs : ∀ c ∈ cs, IsComponent 47 c) (hrest : (stringBytes src m0).drop i =
      (cs.flatMap fun c => c ++ [47]) ++ last) (hres : resolve 46 stack cs = some stack') :
    ∃ st' j, Joins src dst m0 (absolute && !emptied 46 stack cs) stack' st' j ∧
      (stringBytes src m0).drop j = last ∧
      ∀ res, Leaves (joinStep src) st' res → Leaves (joinStep src) st res := by
  induction cs generalizing absolute stack st i with
  | nil =>
    cases hres
    refine ⟨st, i, ?_, hrest, fun _ hres => hres⟩
    rwa [emptied, Bool.not_false, Bool.and_true]
  | cons c cs ih =>
    rw [List.forall_mem_cons] at hcs
    rw [resolve_cons, Option.bind_eq_some_iff] at hres
    obtain ⟨stack1, hstep, hres⟩ := hres
    have hrest' :
        (stringBytes src m0).drop i = c ++ 47 :: ((cs.flatMap fun c => c ++ [47]) ++ last) := by
      rw [hrest, List.flatMap_cons, List.append_assoc, List.append_assoc]
      rfl
    obtain ⟨st1, h1, hback⟩ := h.component hmem hstack hcs.1.2 hrest' hstep
    obtain ⟨st', j, h', hlast, hback'⟩ :=
      ih h1 (resolveStep_isComponent hstack hcs.1 hstep) hcs.2 (rest_next hrest') hres
    refine ⟨st', j, ?_, hlast, fun res hres => hback res (hback' res hres)⟩
    rwa [emptied_cons hstep, Bool.not_or, ← Bool.and_assoc]

end Joins

theorem joinStep_next {st' : JoinState} (h : joinStep src st = .ok (.next st')) :
    st.readIdx < src.writeCur ∧ st'.readIdx = st.readIdx + 1 := by
  rw [joinStep] at h
  split_ifs at h with hlt
  · refine ⟨hlt, ?_⟩
    rw [Except.bind_eq_ok] at h
    obtain ⟨c2, -, h⟩ := h
    dsimp only at h
    split_ifs at h
    · cases h
      rfl
    · rw [Except.bind_eq_ok] at h
      obtain ⟨⟨r, tmp⟩, -, h⟩ := h
      cases h
      rfl
    · rw [Except.bind_eq_ok] at h
      obtain ⟨⟨r, tmp, m1⟩, -, h⟩ := h
      dsimp only at h
      split_ifs at h
      · rw [Except.bind_eq_ok] at h
        obtain ⟨⟨r', tmp', m2⟩, -, h⟩ := h
        dsimp only at h
        split_ifs at h
        · cases h
          rfl
        · cases h
      · cases h
    · cases h
      rfl
  · cases h

theorem whileLoop_joinStep_of_leaves (h : Leaves (joinStep src) st res) :
    whileLoop (joinStep src) st = .ok res := by
  refine whileLoop_of_leaves (fun st => src.writeCur.toNat - st.readIdx.toNat) (fun s s' hs => ?_) h
    (Nat.lt_of_le_of_lt (Nat.sub_le _ _) src.writeCur.toNat_lt)
  obtain ⟨hlt, hnext⟩ := joinStep_next hs
  have hlt' := UInt64.lt_iff_toNat_lt.1 hlt
  have hcur := src.writeCur.toNat_lt
  have hsum : s'.readIdx.toNat = s.readIdx.toNat + 1 := by
    rw [hnext, UInt64.toNat_add_one (by omega)]
  omega

/-- Behind the last slash the loop only reads on to the end. -/
theorem Joins.whileLoop_eq {st' : JoinState} {last : List UInt8} {j : Nat}
    (h : Joins src dst m0 absolute stack st' j) (hmem : JoinMem src dst m0)
    (hrest : (stringBytes src m0).drop j = last) (hlast : 47 ∉ last)
    (hback : ∀ res, Leaves (joinStep src) st' res → Leaves (joinStep src) st res) :
    whileLoop (joinStep src) st = .ok (true, last.foldl JoinState.take st') := by
  have hrest' : (stringBytes src st'.m).drop j = last ++ [] := by
    rw [h.bytes_eq, hrest, List.append_nil]
  have hlen := congrArg List.length hrest
  rw [List.length_drop, length_stringBytes] at hlen
  have hidx := readIdx_foldl h.starts hrest'
  have hdone : joinStep src (last.foldl JoinState.take st') =
      .ok (.done (true, last.foldl JoinState.take st')) := by
    rw [joinStep, if_neg (by rw [UInt64.lt_iff_toNat_lt, hidx]; omega)]
    rfl
  have hleaves :=
    hback _ (leaves_of_takes (h.visits.src_readable hmem) (by rw [h.starts.idx_eq]; exact hrest')
      hlast (.done hdone))
  exact whileLoop_joinStep_of_leaves hleaves

theorem whileLoop_joinStep {cs : List (List UInt8)} {last : List UInt8}
    (h : Joins src dst m0 absolute stack st 0) (hmem : JoinMem src dst m0)
    (hstack : ∀ c ∈ stack, IsComponent 47 c) (hcs : ∀ c ∈ cs, IsComponent 47 c)
    (htext : stringBytes src m0 = (cs.flatMap fun c => c ++ [47]) ++ last) (hlast : 47 ∉ last)
    (hres : resolve 46 stack cs = some stack') :
    ∃ st' j, Joins src dst m0 (absolute && !emptied 46 stack cs) stack' st' j ∧
      (stringBytes src m0).drop j = last ∧
      whileLoop (joinStep src) st = .ok (true, last.foldl JoinState.take st') := by
  obtain ⟨st', j, h', hrest, hback⟩ := h.run hmem hstack hcs htext hres
  exact ⟨st', j, h', hrest, h'.whileLoop_eq hmem hrest hlast hback⟩

end

/-! ### The function -/

/-- `Src.Base[0]` is read also where `Src` is empty and `Dst` is not. The byte can be read and is no
slash, neither in memory nor when the separator has been written behind `Dst`. -/
def EmptyPart (src dst : String) (m : Mem) : Prop :=
  src.writeCur = 0 → dst.writeCur > 0 →
    m.readable src.base ∧ m.byte src.base ≠ 47 ∧
    ¬ (NeedsSeparator dst m ∧ src.base = dst.base + dst.writeCur)

instance (src dst : String) (m : Mem) : Decidable (EmptyPart src dst m) :=
  inferInstanceAs (Decidable (_ → _ → _))

/-- The memory when the separator has been written. -/
def SeparatorWritten (dst : String) (m m1 : Mem) : Prop :=
  m1.readable = m.readable ∧ ∀ a, m1.byte a = if NeedsSeparator dst m ∧
    a = dst.base + dst.writeCur then 47 else m.byte a

theorem SeparatorWritten.byte_eq {dst : String} {m m1 : Mem} (h : SeparatorWritten dst m m1)
    (hcur : dst.writeCur.toNat ≤ dst.size.toNat) {a : Ptr}
    (ha : ¬ InRange dst.base (dst.size.toNat + 1) a) : m1.byte a = m.byte a := by
  rw [h.2, if_neg]
  rintro ⟨-, rfl⟩
  exact ha (inRange_add.2 (by omega))

section
variable {m m1 : Mem} {src dst tmp : String} {st : JoinState}
  {c last : List UInt8} {absolute : Bool} {cs ds stack : List (List UInt8)}

/-- The path at the beginning of the loop: all its components have a slash behind them. -/
theorem joins_start (hmem : JoinMem src dst m) (hcs : ∀ c ∈ cs, IsComponent 47 c)
    (htext : IsText 47 absolute cs (stringBytes dst m))
    (hroom : dst.writeCur.toNat + src.writeCur.toNat + 1 ≤ dst.size.toNat) : ∃ tmp m1,
    appendSeparator dst m = .ok (true, tmp, m1) ∧
      Joins src dst m absolute cs { tmp := tmp, m := m1 } 0 ∧
      SeparatorWritten dst m m1 := by
  have hread : m.Readable dst.base dst.writeCur.toNat := fun i hi => hmem.dst_readable i (by omega)
  have hlen := length_stringBytes dst m
  generalize hl : stringBytes dst m = l at htext hlen
  cases htext with
  | slash =>
    have hnone : appendSeparator dst m = .ok (true, dst, m) ∧ ¬ NeedsSeparator dst m := by
      rw [appendSeparator]
      by_cases hnil : dirText 47 absolute cs = []
      · rw [hnil, List.length_nil] at hlen
        have hpos : ¬ dst.writeCur > 0 := fun hpos =>
          absurd (UInt64.lt_iff_toNat_lt.1 hpos) (by rw [← hlen]; exact Nat.lt_irrefl 0)
        rw [if_neg hpos]
        exact ⟨rfl, fun hneeds => hpos hneeds.1⟩
      · obtain ⟨l, hslash⟩ := dirText_eq_append hnil
        rw [hslash] at hl hlen
        have hlast := (read_last hread hl).2
        rw [if_pos (UInt64.lt_iff_toNat_lt.2
          (by rw [← hlen, List.length_append]; exact Nat.succ_pos _)), hlast]
        exact ⟨rfl, fun hneeds => hneeds.2 (Mem.byte_of_read hlast)⟩
    refine ⟨dst, m, hnone.1, ⟨⟨rfl, rfl, rfl⟩, rfl, rfl, hmem.dst_enc, hl, ?_, rfl, rfl, rfl⟩, rfl,
      fun a => ?_⟩
    · show dst.writeCur.toNat + (src.writeCur.toNat - 0) ≤ _
      omega
    · exact (if_neg fun hboth => hnone.2 hboth.1).symm
  | bare cs c =>
    obtain ⟨c', b, rfl, hb⟩ := (hcs c (List.mem_append_right _ List.mem_cons_self)).exists_last
    rw [← List.append_assoc] at hl
    have hwritable : Writable m dst := hmem.writable rfl rfl (by omega) rfl
    have hfits : ([47] : List UInt8).length ≤ spaceLeft dst := by
      rw [spaceLeft_eq (by omega), List.length_singleton]
      omega
    have hgrown := toNat_grown_writeCur (by omega) hfits
    have hcur : dst.writeCur > 0 := by
      refine UInt64.lt_iff_toNat_lt.2 ?_
      rw [← hlen, List.length_append, List.length_append]
      exact Nat.lt_add_left _ (Nat.succ_pos _)
    have hlast := (read_last hread hl).2
    have hneeds : NeedsSeparator dst m := ⟨hcur, by rwa [Mem.byte_of_read hlast]⟩
    refine ⟨dst.grown 1, m.store (dst.base + dst.writeCur) [47], ?_,
      ⟨⟨rfl, rfl, rfl⟩, rfl, rfl, hmem.dst_enc, ?_, ?_, ?_, rfl, rfl⟩, rfl, fun a => ?_⟩
    · rw [appendSeparator, if_pos hcur, hlast, Except.ok_bind, if_pos hb]
      exact appendSlash_eq hwritable hmem.dst_enc (by rw [String.room]; omega)
    · have htext := stringBytes_grown (m := m) (by omega) hfits
      rw [dirText_append, ← List.append_assoc, ← List.append_assoc, ← hl]
      exact htext
    · show (dst.grown 1).writeCur.toNat + (src.writeCur.toNat - 0) ≤ _
      rw [List.length_singleton] at hgrown
      omega
    · exact stringBytes_store hmem.apart rfl rfl (by omega) hfits
    · rw [Mem.store_singleton, if_congr (and_iff_right hneeds) rfl rfl]
      exact Function.update_apply ..

theorem skipSeparator_eq (hmem : JoinMem src dst m) (hempty : EmptyPart src dst m)
    (hcs : ∀ c ∈ cs, IsComponent 47 c) (hlast : 47 ∉ last)
    (htext : stringBytes src m = (cs.flatMap fun c => c ++ [47]) ++ last)
    (hbytes : stringBytes src m1 = stringBytes src m) (hsep : SeparatorWritten dst m m1) :
    skipSeparator src dst m1 = .ok src := by
  rw [skipSeparator]
  by_cases hcur : dst.writeCur > 0
  · rw [if_pos hcur]
    have hfirst : m.readable src.base ∧ m1.byte src.base ≠ 47 := by
      by_cases h0 : src.writeCur = 0
      · obtain ⟨hread, hne, hout⟩ := hempty h0 hcur
        exact ⟨hread, by rwa [hsep.2, if_neg hout]⟩
      · have hpos : 0 < src.writeCur.toNat := Nat.pos_of_ne_zero fun h => h0 (UInt64.toNat_inj.1 h)
        have hread := hmem.src_readable 0 hpos
        rw [UInt64.add_zero] at hread
        refine ⟨hread, fun hslash => ?_⟩
        obtain ⟨b, l, hl⟩ := List.exists_cons_of_length_pos
          (by rw [length_stringBytes]; exact hpos : 0 < (stringBytes src m1).length)
        have hb := @byte_of_getElem? src m1 0 b (by rw [hl]; rfl)
        rw [show src.base + UInt64.ofNat 0 = src.base from UInt64.add_zero _, hslash] at hb
        rw [hbytes, htext, ← hb] at hl
        exact segments_ne_cons hcs hlast hl
    rw [Mem.read, hsep.1, if_pos hfirst.1, Except.ok_bind, if_neg hfirst.2]
    rfl
  · rw [if_neg hcur]
    rfl

/-- What is behind the last slash is appended as it is. -/
theorem Visits.appendLast_spec {m0 : Mem} {j : Nat} (h : Visits src dst m0 absolute stack st j)
    (hmem : JoinMem src dst m0) (hrest : (stringBytes src m0).drop j = last) :
    Appends (appendLast src (last.foldl JoinState.take st)) st.tmp st.m last := by
  have hrest' : (stringBytes src st.m).drop j = last ++ [] := by
    rw [h.bytes_eq, hrest, List.append_nil]
  have hcount := dirCharCount_foldl h.starts.count_eq (length_component_lt hrest')
  have htmp := foldl_take_tmp last st
  have hm := foldl_take_m last st
  rw [appendLast, htmp, hm]
  rcases List.eq_nil_or_concat last with rfl | ⟨l, b, hcons⟩
  · rw [if_neg fun hpos =>
      absurd (UInt64.lt_iff_toNat_lt.1 hpos) (by rw [hcount]; exact Nat.lt_irrefl 0)]
    have hnone := @Appended.of_le st.m st.tmp [] (Nat.zero_le _)
    rwa [List.length_nil, String.grown_zero, Mem.store_nil] at hnone
  · have hpos : 0 < last.length := by simp [hcons]
    have hle := (length_component hrest').resolve_right (List.length_pos_iff.1 hpos)
    have hdir := stringBytes_dir h.starts hrest'
    have hdirLen : ((last.foldl JoinState.take st).dir src).writeCur.toNat = last.length := by
      rw [← length_stringBytes _ st.m, hdir]
    have hstart : (last.foldl JoinState.take st).readStart.toNat = j := by
      rw [foldl_take_eq (·.readStart) (fun _ _ => rfl), h.starts.start_eq, h.starts.idx_eq]
    have hread := @readable_dir st.m src (last.foldl JoinState.take st) (h.src_readable hmem)
      (by rw [hstart, hdirLen]; exact hle)
    have hspec := @appendStringToString_spec st.m ((last.foldl JoinState.take st).dir src) st.tmp
      (h.writable hmem) (hmem.src_enc.trans h.enc_eq.symm) hread
    rw [hdir] at hspec
    rw [if_pos (UInt64.lt_iff_toNat_lt.2 (by rw [hcount]; exact hpos))]
    exact hspec

theorem Joins.appendLast_eq {m0 : Mem} {j : Nat} (h : Joins src dst m0 absolute stack st j)
    (hmem : JoinMem src dst m0) (hrest : (stringBytes src m0).drop j = last) :
    appendLast src (last.foldl JoinState.take st) =
      .ok (true, st.tmp.grown last.length, st.m.store (st.tmp.base + st.tmp.writeCur) last) := by
  have hroom := h.room
  have hlen := congrArg List.length hrest
  rw [List.length_drop, length_stringBytes] at hlen
  exact (h.visits.appendLast_spec hmem hrest).of_le (by rw [String.room, h.size_eq]; omega)

theorem stringBytes_update (b : UInt8) :
    stringBytes tmp { m with byte := Function.update m.byte (tmp.base + tmp.writeCur) b } =
      stringBytes tmp m := by
  refine List.map_congr_left fun i hi => ?_
  refine Function.update_of_ne (fun heq => ?_) _ _
  have hcur := tmp.writeCur.toNat_lt
  have hlt := List.mem_range.1 hi
  rw [UInt64.add_right_inj, ← UInt64.toNat_inj, UInt64.toNat_ofNat_of_lt_two_pow (by omega)] at heq
  omega

theorem Joins.spaceLeft_last {m0 : Mem} {j : Nat} (h : Joins src dst m0 absolute stack st j)
    (hrest : (stringBytes src m0).drop j = last) :
    st.tmp.writeCur.toNat ≤ st.tmp.size.toNat ∧ last.length ≤ spaceLeft st.tmp := by
  have hle := congrArg List.length hrest
  rw [List.length_drop, length_stringBytes] at hle
  have hroom := h.room
  have hcur : st.tmp.writeCur.toNat ≤ st.tmp.size.toNat := by
    rw [h.size_eq]
    omega
  refine ⟨hcur, ?_⟩
  rw [spaceLeft_eq hcur, h.size_eq]
  omega

/-- From the last slash on: the last component and the zero byte are written. -/
theorem Joins.unchecked_eq {tmp : String} {m1 : Mem} {j : Nat}
    (h : Joins src dst m absolute stack st j) (hmem : JoinMem src dst m)
    (hrest : (stringBytes src m).drop j = last) (hsep : appendSeparator dst m = .ok (true, tmp, m1))
    (hskip : skipSeparator src dst m1 = .ok src)
    (hloop : whileLoop (joinStep src) { tmp := tmp, m := m1 } =
      .ok (true, last.foldl JoinState.take st)) :
    appendPathToPathUnchecked src dst m = .ok (true, st.tmp.grown last.length,
      (st.m.store (st.tmp.base + st.tmp.writeCur) last).store
      (st.tmp.base + (st.tmp.grown last.length).writeCur) [0]) := by
  obtain ⟨hcur, hfits⟩ := h.spaceLeft_last hrest
  have hgrown := toNat_grown_writeCur hcur hfits
  rw [spaceLeft_eq hcur, h.size_eq] at hfits
  rw [h.size_eq] at hcur
  have hwritable :
      st.m.writable ((st.tmp.grown last.length).base + (st.tmp.grown last.length).writeCur) := by
    rw [h.writable_eq, String.grown_base, h.base_eq]
    exact hmem.dst_writable _ (UInt64.le_iff_toNat_le.2 (by omega))
  rw [appendPathToPathUnchecked, hsep, Except.ok_bind]
  dsimp only
  rw [if_pos rfl, hskip, Except.ok_bind, hloop, Except.ok_bind]
  dsimp only
  rw [if_pos rfl, h.appendLast_eq hmem hrest, Except.ok_bind]
  dsimp only
  rw [if_pos rfl, Mem.store_singleton, Mem.write, Mem.store_writable, if_pos hwritable]
  rfl

/-- What `_AppendPathToPath` makes of the components with a slash behind them, and of what is behind
the last slash. -/
theorem appendPathToPathUnchecked_eq {stack : List (List UInt8)} (hmem : JoinMem src dst m)
    (hempty : EmptyPart src dst m) (hcs : ∀ c ∈ cs, IsComponent 47 c)
    (htext : IsText 47 absolute cs (stringBytes dst m))
    (hroom : dst.writeCur.toNat + src.writeCur.toNat + 1 ≤ dst.size.toNat)
    (hds : ∀ c ∈ ds, IsComponent 47 c) (hlast : 47 ∉ last)
    (hpart : stringBytes src m = (ds.flatMap fun c => c ++ [47]) ++ last)
    (hres : resolve 46 cs ds = some stack) :
    ∃ dst' m', appendPathToPathUnchecked src dst m = .ok (true, dst', m') ∧
      dst'.base = dst.base ∧ dst'.size = dst.size ∧ m'.byte (dst'.base + dst'.writeCur) = 0 ∧
      stringBytes dst' m' = dirText 47 (absolute && !emptied 46 cs ds) stack ++ last := by
  obtain ⟨tmp, m1, hsep, hjoins, hwritten⟩ := joins_start hmem hcs htext hroom
  have hskip := skipSeparator_eq hmem hempty hds hlast hpart hjoins.bytes_eq hwritten
  obtain ⟨st, j, h, hrest, hloop⟩ := whileLoop_joinStep hjoins hmem hcs hds hpart hlast hres
  obtain ⟨hcur, hfits⟩ := h.spaceLeft_last hrest
  refine ⟨_, _, h.unchecked_eq hmem hrest hsep hskip hloop, h.base_eq, h.size_eq, ?_, ?_⟩
  · rw [Mem.store_singleton]
    exact Function.update_self ..
  · rw [Mem.store_singleton, ← h.text, ← stringBytes_grown hcur hfits]
    exact @stringBytes_update _ (st.tmp.grown last.length) 0

/-! ### An empty part with a slash at its base -/

theorem Copied.kept {s s' : String} {bs : List UInt8} {r : Bool} (h : Copied s m bs r s' m1) :
    m1.readable = m.readable ∧ s'.enc = s.enc := by
  rw [Copied] at h
  split_ifs at h <;>
  · obtain ⟨-, rfl, rfl⟩ := h
    exact ⟨rfl, rfl⟩

/-- A round that goes on has read a byte of the part. -/
theorem joinStep_kept {st' : JoinState} (hsrc : src.enc = .utf8) (henc : st.tmp.enc = .utf8)
    (h : joinStep src st = .ok (.next st')) :
    st.readIdx < src.writeCur ∧ st.m.readable (src.base + st.readIdx) ∧
      st'.readIdx = st.readIdx + 1 ∧ st'.m.readable = st.m.readable ∧ st'.tmp.enc = .utf8 := by
  rw [joinStep] at h
  split_ifs at h with hlt
  · rw [Except.bind_eq_ok] at h
    obtain ⟨c2, hread, h⟩ := h
    have hreadable : st.m.readable (src.base + st.readIdx) := by
      rw [Mem.read] at hread
      split_ifs at hread with hreadable
      exact hreadable
    refine ⟨hlt, hreadable, ?_⟩
    split_ifs at h with hslash hdot hdots
    · cases h
      exact ⟨rfl, rfl, henc⟩
    · rw [Except.bind_eq_ok] at h
      obtain ⟨⟨r, tmp'⟩, hup, h⟩ := h
      cases h
      exact ⟨rfl, rfl, (moveUpPath_enc hup).trans henc⟩
    · rw [Except.bind_eq_ok] at h
      obtain ⟨⟨r, tmp1, m1⟩, hdir, h⟩ := h
      have hsame : (st.dir src).enc = st.tmp.enc := hsrc.trans henc.symm
      have hkept := (copied_of_appendStringToString hsame hdir).kept
      dsimp only at h
      cases r with
      | false => cases h
      | true =>
        rw [if_pos rfl, Except.bind_eq_ok] at h
        obtain ⟨⟨r, tmp2, m2⟩, hchar, h⟩ := h
        have hkept' := (copied_of_appendCharToString (hkept.2.trans henc) hchar).kept
        dsimp only at h
        cases r with
        | false => cases h
        | true =>
          cases h
          exact ⟨rfl, hkept'.1.trans hkept.1, (hkept'.2.trans hkept.2).trans henc⟩
    · cases h
      exact ⟨rfl, rfl, henc⟩
  · cases h

/-- A loop that gets to the end of the part has read all of it. -/
theorem readable_of_whileLoop {st' : JoinState} (hsrc : src.enc = .utf8) (henc : st.tmp.enc = .utf8)
    (hidx : st.readIdx = 0) (h : whileLoop (joinStep src) st = .ok (true, st')) :
    st.m.Readable src.base src.writeCur.toNat := by
  refine of_whileLoop_ok (Q := fun res : Bool × JoinState => res.1 = true →
    st.m.Readable src.base src.writeCur.toNat)
    (fun s : JoinState => s.tmp.enc = .utf8 ∧ s.m.readable = st.m.readable ∧
      ∀ i : Usz, i.toNat < s.readIdx.toNat → st.m.readable (src.base + i)) ?_ ⟨henc, rfl, ?_⟩ h rfl
  · rintro s (s' | ⟨r, s'⟩) ⟨henc, hreadable, hseen⟩ hstep
    · obtain ⟨hlt, hread, hnext, hsame, henc'⟩ := joinStep_kept hsrc henc hstep
      have hlt' := UInt64.lt_iff_toNat_lt.1 hlt
      have hcur := src.writeCur.toNat_lt
      refine ⟨henc', hsame.trans hreadable, fun i hi => ?_⟩
      have hone : (s.readIdx + 1).toNat = s.readIdx.toNat + 1 :=
        UInt64.toNat_add_of_lt (show _ + 1 < _ by omega)
      rw [hnext, hone] at hi
      by_cases heq : i = s.readIdx
      · rw [heq, ← hreadable]
        exact hread
      · exact hseen i (Nat.lt_of_le_of_ne (Nat.le_of_lt_succ hi) fun h =>
          heq (UInt64.toNat_inj.1 h))
    · rintro rfl i hi
      refine hseen i (Nat.lt_of_lt_of_le hi (Nat.le_of_not_lt fun hlt => ?_))
      -- in front of the end the loop goes on or is left with false
      rw [joinStep, if_pos (UInt64.lt_iff_toNat_lt.2 hlt)] at hstep
      simp only [Except.bind_eq_ok] at hstep
      obtain ⟨c2, -, hstep⟩ := hstep
      split_ifs at hstep
      · cases hstep
      · rw [Except.bind_eq_ok] at hstep
        obtain ⟨up, -, hstep⟩ := hstep
        cases hstep
      · rw [Except.bind_eq_ok] at hstep
        obtain ⟨⟨r, tmp1, m1⟩, -, hstep⟩ := hstep
        dsimp only at hstep
        split_ifs at hstep
        · rw [Except.bind_eq_ok] at hstep
          obtain ⟨⟨r', tmp2, m2⟩, -, hstep⟩ := hstep
          dsimp only at hstep
          split_ifs at hstep <;> cases hstep
        · cases hstep
      · cases hstep
  · intro i hi
    rw [hidx] at hi
    exact absurd hi (Nat.not_lt_zero _)

/-- Behind a slash at the base of an empty part `WriteCur` wraps around, and the loop reads on
through the address space. -/
theorem unchecked_ne_true (hmem : JoinMem src dst m) (hnull : m.readable 0 = false)
    (hempty : ¬ EmptyPart src dst m) (hcs : ∀ c ∈ cs, IsComponent 47 c)
    (htext : IsText 47 absolute cs (stringBytes dst m))
    (hroom : dst.writeCur.toNat + src.writeCur.toNat + 1 ≤ dst.size.toNat)
    (dst' : String) (m' : Mem) : appendPathToPathUnchecked src dst m ≠ .ok (true, dst', m') := by
  intro h
  obtain ⟨tmp, m1, hsep, hjoins, hreadable, hbyte⟩ := joins_start hmem hcs htext hroom
  rw [EmptyPart] at hempty
  push Not at hempty
  obtain ⟨hzero, hcur, hslash⟩ := hempty
  rw [appendPathToPathUnchecked, hsep, Except.ok_bind] at h
  dsimp only at h
  rw [if_pos rfl, skipSeparator, if_pos hcur, Mem.read, hreadable] at h
  by_cases hread : m.readable src.base
  · have hfirst : m1.byte src.base = 47 := by
      rw [hbyte]
      split_ifs with hboth
      · rfl
      · by_contra hne
        exact hboth (hslash hread hne)
    rw [if_pos hread, Except.ok_bind, if_pos hfirst] at h
    dsimp only [pure, Except.pure] at h
    rw [Except.ok_bind, Except.bind_eq_ok] at h
    obtain ⟨⟨r, st'⟩, hloop, h⟩ := h
    dsimp only at h
    cases r with
    | false => cases h
    | true =>
      have hsrc : ({ src with toBuffer := advanceBuffer src.toBuffer 1 } : String).enc = .utf8 :=
        hmem.src_enc
      have hall := readable_of_whileLoop hsrc hjoins.enc_eq rfl hloop (0 - (src.base + 1)) ?_
      · have hnull' : src.base + 1 + (0 - (src.base + 1)) = 0 := by grind
        have hall : m1.readable (src.base + 1 + (0 - (src.base + 1))) = true := hall
        rw [hnull', hreadable, hnull] at hall
        cases hall
      · have hne : src.base ≠ 0 := fun h0 => by
          rw [h0, hnull] at hread
          cases hread
        have hlast : (src.writeCur - 1).toNat = 2 ^ 64 - 1 := by
          rw [hzero]
          rfl
        show _ < (src.writeCur - 1).toNat
        have hlt := (0 - (src.base + 1)).toNat_lt
        rw [hlast]
        refine Nat.lt_of_le_of_ne (by omega) fun htop => hne ?_
        have hwrap : 0 - (src.base + 1) = 0 - 1 := UInt64.toNat_inj.1 (htop.trans (by rfl))
        grind
  · rw [if_neg hread] at h
    cases h

/-- The append has returned true, and `Dst` has the components `cs` now, with a zero byte behind
them. -/
structure JoinedAs (absolute : Bool) (cs : List (List UInt8)) (dst : String)
    (res : Bool × String × Mem) : Prop where
  result : res.1 = true
  base_eq : res.2.1.base = dst.base
  text : IsText 47 absolute cs (stringBytes res.2.1 res.2.2)
  zero : res.2.2.byte (res.2.1.base + res.2.1.writeCur) = 0

/-- The part ends in a slash, or its last component is neither `.` nor `..`. -/
def LastTaken (ds : List (List UInt8)) (l : List UInt8) : Prop :=
  l.getLast? = some 47 ∨ ds.getLast? ≠ some [46] ∧ ds.getLast? ≠ some [46, 46]

theorem lastTaken_slash (ds : List (List UInt8)) : LastTaken ds (dirText 47 false ds) := by
  by_cases hnil : dirText 47 false ds = []
  · refine .inr ?_
    cases ds with
    | nil => exact ⟨by decide, by decide⟩
    | cons d ds => simp [dirText] at hnil
  · obtain ⟨l, hl⟩ := dirText_eq_append hnil
    rw [hl]
    exact .inl List.getLast?_concat

theorem lastTaken_bare_iff (init : List (List UInt8)) (hlast : IsComponent 47 last) :
    LastTaken (init ++ [last]) (dirText 47 false init ++ last) ↔ last ≠ [46] ∧ last ≠ [46, 46] := by
  rw [LastTaken, List.getLast?_concat, List.getLast?_append_of_ne_nil _ hlast.1]
  refine ⟨fun h => ?_,
    fun h => .inr ⟨fun heq => h.1 (Option.some.inj heq), fun heq => h.2 (Option.some.inj heq)⟩⟩
  rcases h with hslash | h
  · exact absurd (List.mem_of_getLast? hslash) hlast.2
  · exact ⟨fun heq => h.1 (congrArg some heq), fun heq => h.2 (congrArg some heq)⟩

/-- An empty part with a slash at its base is not appended. -/
theorem not_joinedAs {newPart : String} {r : List (List UInt8)} (hmem : JoinMem newPart dst m)
    (hnull : m.readable 0 = false) (hempty : ¬ EmptyPart newPart dst m)
    (hcur : dst.writeCur ≤ dst.size) (hroom : newPart.writeCur.toNat + 1 ≤
      (dst.size - dst.writeCur).toNat) (hcs : ∀ c ∈ cs, IsComponent 47 c)
    (hpath : IsText 47 absolute cs (stringBytes dst m)) :
    ¬ (appendPathToPath newPart dst m).wp (JoinedAs absolute r dst) := by
  intro h
  have hspace := UInt64.toNat_sub_of_le _ _ hcur
  have hcur' := UInt64.le_iff_toNat_le.1 hcur
  obtain ⟨⟨result, dst', m'⟩, hrun, hjoined⟩ := Except.wp_iff.1 h
  obtain rfl : result = true := hjoined.result
  rw [appendPathToPath,
    if_pos ⟨hmem.src_enc.trans hmem.dst_enc.symm, UInt64.le_iff_toNat_le.2 (by omega)⟩] at hrun
  exact unchecked_ne_true hmem hnull hempty hcs hpath (by omega) dst' m' hrun

theorem joinedAs_iff_of_emptyPart {newPart : String} {r : List (List UInt8)}
    (hmem : JoinMem newPart dst m) (hempty : EmptyPart newPart dst m)
    (hcur : dst.writeCur ≤ dst.size) (hroom : newPart.writeCur.toNat + 1 ≤
      (dst.size - dst.writeCur).toNat) (hcs : ∀ c ∈ cs, IsComponent 47 c)
    (hpath : IsText 47 absolute cs (stringBytes dst m)) (hds : ∀ c ∈ ds, IsComponent 47 c)
    (hpart : IsText 47 false ds (stringBytes newPart m)) (hres : resolve 46 cs ds = some r) :
    (appendPathToPath newPart dst m).wp (JoinedAs absolute r dst) ↔
      LastTaken ds (stringBytes newPart m) ∧ (absolute = true → emptied 46 cs ds = false) := by
  have hspace := UInt64.toNat_sub_of_le _ _ hcur
  have hcur' := UInt64.le_iff_toNat_le.1 hcur
  have hrcs := resolve_isComponent hcs hds hres
  obtain ⟨init, last, htext, hsplit⟩ := hpart.eq_append
  have hinit : ∀ c ∈ init, IsComponent 47 c := by
    rcases hsplit with ⟨rfl, -⟩ | rfl
    · exact hds
    · exact fun c hc => hds c (List.mem_append_left _ hc)
  have hlast : 47 ∉ last := by
    rcases hsplit with ⟨-, rfl⟩ | rfl
    · exact List.not_mem_nil
    · exact (hds last (List.mem_append_right _ List.mem_cons_self)).2
  -- what the function computes, as a question about the text
  have hjoined : ∀ stack, resolve 46 cs init = some stack →
      ((appendPathToPath newPart dst m).wp (JoinedAs absolute r dst) ↔
      IsText 47 absolute r (dirText 47 (absolute && !emptied 46 cs init) stack ++ last)) := by
    intro stack hstack
    obtain ⟨dst', m', heq, hbase, -, hzero, htext'⟩ :=
      appendPathToPathUnchecked_eq hmem hempty hcs hpath (by omega) hinit hlast htext hstack
    rw [appendPathToPath, if_pos ⟨hmem.src_enc.trans hmem.dst_enc.symm,
      UInt64.le_iff_toNat_le.2 (by omega)⟩, heq, Except.wp_ok, ← htext']
    exact ⟨fun h => h.text, fun h => ⟨rfl, hbase, h, hzero⟩⟩
  have habs : ∀ e : Bool, absolute = (absolute && !e) ↔ (absolute = true → e = false) := by
    cases absolute <;> simp
  rcases hsplit with ⟨rfl, rfl⟩ | rfl
  · rw [hjoined r hres, List.append_nil, isText_slash_iff hrcs, habs]
    refine ⟨fun h => ⟨?_, h⟩, fun h => h.2⟩
    rw [htext, List.append_nil]
    exact lastTaken_slash ds
  · have hlast' := hds last (List.mem_append_right _ List.mem_cons_self)
    rw [resolve_append, Option.bind_eq_some_iff] at hres
    obtain ⟨stack, hstack, hstep⟩ := hres
    have hstep' : resolveStep 46 stack last = some r := by
      rw [resolve_cons, Option.bind_eq_some_iff] at hstep
      obtain ⟨r', hstep, hr⟩ := hstep
      cases hr
      exact hstep
    rw [hjoined stack hstack, isText_bare_iff (resolve_isComponent hcs hinit hstack) hrcs hlast',
      eq_append_iff_of_resolveStep hstep', habs, htext, lastTaken_bare_iff init hlast',
      and_comm, emptied_append hstack]
    refine and_congr_right fun hord => ?_
    rw [emptied, if_neg hord.1, if_neg hord.2, emptied, Bool.or_false]

end

/-- A path append resolves the components of the part if the last one can be copied as it is, if,
where the path is absolute, its last component is never removed, and if an empty part has no slash
at its base. -/
theorem appendPathToPath_joinedAs_iff (newPart dst : String) (m : Mem) (absolute : Bool)
    (cs ds r : List (List UInt8)) (hmem : JoinMem newPart dst m)
    (hnull : newPart.writeCur = 0 → m.readable 0 = false) (hcur : dst.writeCur ≤ dst.size)
    (hroom : newPart.writeCur.toNat + 1 ≤ (dst.size - dst.writeCur).toNat)
    (hcs : ∀ c ∈ cs, IsComponent 47 c) (hpath : IsText 47 absolute cs (stringBytes dst m))
    (hds : ∀ c ∈ ds, IsComponent 47 c) (hpart : IsText 47 false ds (stringBytes newPart m))
    (hres : resolve 46 cs ds = some r) :
    (appendPathToPath newPart dst m).wp (JoinedAs absolute r dst) ↔
      LastTaken ds (stringBytes newPart m) ∧ (absolute = true → emptied 46 cs ds = false) ∧
      EmptyPart newPart dst m := by
  by_cases hempty : EmptyPart newPart dst m
  · rw [joinedAs_iff_of_emptyPart hmem hempty hcur hroom hcs hpath hds hpart hres,
      and_iff_left hempty]
  · refine iff_of_false (fun h => ?_) fun h => hempty h.2.2
    have hzero : newPart.writeCur = 0 := by
      by_contra hne
      exact hempty fun h => absurd h hne
    exact not_joinedAs hmem (hnull hzero) hempty hcur hroom hcs hpath h

/-! The path `l` in front of the part `part`, in memory of their own. -/

def textMem (l part : List UInt8) : Mem :=
  (Mem.store { byte := fun _ => 0, readable := fun _ => true, writable := fun _ => true } 64
    l).store 128 part

/-- The same, where the address zero cannot be read. -/
def nullMem (l part : List UInt8) : Mem := { textMem l part with readable := fun a => a ≠ 0 }

def textPath (l : List UInt8) : String :=
  { base := 64, writeCur := UInt64.ofNat l.length, size := 16, enc := .utf8 }

def textPart (part : List UInt8) : String :=
  { base := 128, writeCur := UInt64.ofNat part.length, size := 0, enc := .utf8 }

theorem joinMem_textMem (l part : List UInt8) (hpart : part.length ≤ 16) :
    JoinMem (textPart part) (textPath l) (textMem l part) where
  src_enc := rfl
  dst_enc := rfl
  src_readable _ _ := rfl
  dst_readable _ _ := rfl
  dst_writable _ _ := rfl
  small := (by decide : 16 + 4 < 2 ^ 64)
  apart a hin hin' := by
    have hlen : (UInt64.ofNat part.length).toNat ≤ 16 := by
      rw [UInt64.toNat_ofNat']
      exact Nat.le_trans (Nat.mod_le _ _) hpart
    have hend : (128 : Ptr).toNat + (UInt64.ofNat part.length).toNat ≤ 2 ^ 64 :=
      Nat.le_trans (Nat.add_le_add_left hlen _) (by decide)
    exact (apart_of_le (by decide) hend : Apart 64 17 128 (UInt64.ofNat part.length).toNat) a hin'
      hin

theorem joinMem_nullMem (l bs : List UInt8) :
    JoinMem (textPart []) (textPath l) (nullMem l bs) where
  src_enc := rfl
  dst_enc := rfl
  src_readable i hi := absurd hi (Nat.not_lt_zero _)
  dst_readable i hi := by
    refine decide_eq_true fun h0 => ?_
    have hi : i.toNat < 16 := hi
    have hsum : ((64 : Ptr) + i).toNat = 64 + i.toNat :=
      UInt64.toNat_add_of_lt (show 64 + i.toNat < _ by omega)
    rw [show (64 : Ptr) + i = 0 from h0, UInt64.toNat_zero] at hsum
    omega
  dst_writable _ _ := rfl
  small := (by decide : 16 + 4 < 2 ^ 64)
  apart a hin _ := absurd hin (Nat.not_lt_zero _)

theorem appendPathToPath_joinedAs_up : (appendPathToPath (textPart [46, 46, 47, 98]) (textPath [97])
    (textMem [97] [46, 46, 47, 98])).wp (JoinedAs false [[98]] (textPath [97])) := by
  have hpath : stringBytes (textPath [97]) (textMem [97] [46, 46, 47, 98]) =
    dirText 47 false [] ++ [97] := by decide +kernel
  have hpart : stringBytes (textPart [46, 46, 47, 98]) (textMem [97] [46, 46, 47, 98]) =
      dirText 47 false [[46, 46]] ++ [98] := by
    decide +kernel
  refine (appendPathToPath_joinedAs_iff _ _ _ false [[97]]
    [[46, 46], [98]] [[98]] (joinMem_textMem _ _ (by decide))
    (fun h => absurd h (by decide)) (by decide) (by decide) (by decide) ?_ (by decide) ?_ rfl).2
    ⟨.inr (by decide), fun h => absurd h (by decide), fun h => absurd h (by decide)⟩
  · rw [hpath]
    exact .bare [] [97]
  · rw [hpart]
    exact .bare [[46, 46]] [98]

/-- `..` without a slash behind it is copied, `..` takes the slash in front of `/a` along, and an
empty part with a slash at its base is not taken for one. -/
theorem appendPathToPath_not_joinedAs :
    (resolve 46 [[97]] [[46, 46]] = some [] ∧
      ¬ (appendPathToPath (textPart [46, 46]) (textPath [97])
      (textMem [97] [46, 46])).wp (JoinedAs false [] (textPath [97]))) ∧
    (resolve 46 [[97]] [[46, 46], [98]] = some [[98]] ∧
      ¬ (appendPathToPath (textPart [46, 46, 47, 98]) (textPath [47, 97])
      (textMem [47, 97] [46, 46, 47, 98])).wp (JoinedAs true [[98]] (textPath [47, 97]))) ∧
    (resolve 46 [[97]] [] = some [[97]] ∧ ¬ (appendPathToPath (textPart []) (textPath [97])
      (nullMem [97] [47])).wp (JoinedAs false [[97]] (textPath [97]))) := by
  refine ⟨⟨rfl, fun h => ?_⟩, ⟨rfl, fun h => ?_⟩, rfl, ?_⟩
  · have hpath : stringBytes (textPath [97]) (textMem [97] [46, 46]) =
      dirText 47 false [] ++ [97] := by decide +kernel
    have htext : IsText 47 false [[97]] (stringBytes (textPath [97]) (textMem [97] [46, 46])) := by
      rw [hpath]
      exact .bare [] [97]
    have hpart : stringBytes (textPart [46, 46]) (textMem [97] [46, 46]) =
        (([] : List (List UInt8)).flatMap fun c => c ++ [47]) ++ [46, 46] := by decide +kernel
    obtain ⟨dst', m', heq, -, -, -, hbytes⟩ :=
      appendPathToPathUnchecked_eq (joinMem_textMem _ _ (by decide))
      (fun h => absurd h (by decide)) (by decide) htext (by decide)
      (List.forall_mem_nil _) (by decide) hpart rfl
    rw [appendPathToPath, if_pos ⟨rfl, by decide⟩, heq] at h
    have hjoined := h.text
    rw [hbytes, isText_bare_iff (by decide) (List.forall_mem_nil _) (by decide)] at hjoined
    exact absurd hjoined.2 (by decide)
  · have hpath : stringBytes (textPath [47, 97]) (textMem [47, 97] [46, 46, 47, 98]) =
        dirText 47 true [] ++ [97] := by
      decide +kernel
    have htext : IsText 47 true [[97]]
        (stringBytes (textPath [47, 97]) (textMem [47, 97] [46, 46, 47, 98])) := by
      rw [hpath]
      exact .bare [] [97]
    have hpart : stringBytes (textPart [46, 46, 47, 98]) (textMem [47, 97] [46, 46, 47, 98]) =
        ([[46, 46]].flatMap fun c => c ++ [47]) ++ [98] := by decide +kernel
    obtain ⟨dst', m', heq, -, -, -, hbytes⟩ :=
      appendPathToPathUnchecked_eq (joinMem_textMem _ _ (by decide))
      (fun h => absurd h (by decide)) (by decide) htext (by decide)
      (by decide) (by decide) hpart rfl
    rw [appendPathToPath, if_pos ⟨rfl, by decide⟩, heq] at h
    have hjoined := h.text
    rw [hbytes, isText_bare_iff (by decide) (by decide) (by decide)] at hjoined
    exact absurd hjoined.1 nofun
  · have hpath : stringBytes (textPath [97]) (nullMem [97] [47]) = dirText 47 false [] ++ [97] := by
      decide +kernel
    have htext : IsText 47 false [[97]] (stringBytes (textPath [97]) (nullMem [97] [47])) := by
      rw [hpath]
      exact .bare [] [97]
    exact not_joinedAs (joinMem_nullMem [97] [47]) (by decide) (by decide +kernel) (by decide)
      (by decide) (by decide) htext

end TinyBase
