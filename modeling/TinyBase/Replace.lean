import TinyBase.Utf8Search

/-!
# Replacing (`ReplaceByteInBuffer`, `ReplaceCharInString`)

Both functions search, write over what they have found and go on from there. For a byte "from there"
is the byte just written, so the loop moves on only if that byte is not found again; for a character
of several bytes it is the byte behind.
-/

namespace TinyBase
open Unicode Code

def replaceByteInBuffer (oldByte newByte : UInt8) (buf : Buffer) (m : Mem) : Res Mem :=
  whileLoop (fun (buf, m) => do
    let foundIdx ← byteInBuffer oldByte (buf.view m) returnIdxFind
    if foundIdx ≠ invalidIdx then do
      let m ← m.write (buf.base + foundIdx) newByte
      pure (.next (advanceBuffer buf foundIdx, m))
    else pure (.done m)) (buf, m)

def replaceCharInString (old new : MbChar) (a : String) (m : Mem) : Res (Bool × Mem) :=
  let oldLen := getMultibyteCharSize old a.enc
  let newLen := getMultibyteCharSize new a.enc
  if oldLen ≠ newLen then pure (false, m)
  else if newLen = 1 then do
    let m ← replaceByteInBuffer old.toUInt8 new.toUInt8 a.toBuffer m
    pure (true, m)
  else
    whileLoop (fun (a, m) => do
      let foundIdx ← charInString old a returnIdxFind m
      if foundIdx ≠ invalidIdx then do
        let a := { a with toBuffer := advanceBuffer a.toBuffer foundIdx }
        let (_, m) ← copyData m a.base a.writeCur (localObject (leBytes 4 new.toNat)) 0
            newLen.toUInt64
        pure (.next ({ a with toBuffer := advanceBuffer a.toBuffer newLen.toUInt64 }, m))
      else pure (.done (true, m))) (a, m)

/-- `new` in the place of `old`. -/
def replaced {α : Type} [DecidableEq α] (old new x : α) : α := if x = old then new else x

section
variable {α : Type} [DecidableEq α] {old new : α} {xs : List α}

theorem map_replaced_of_notMem (h : old ∉ xs) : xs.map (replaced old new) = xs := by
  have hsame : ∀ x ∈ xs, replaced old new x = id x := by
    intro x hx
    refine if_neg ?_
    rintro rfl
    exact h hx
  rw [List.map_congr_left hsame, List.map_id]

theorem map_replaced_set (hne : old ≠ new) {i : Nat} (hi : i < xs.length) (hold : xs[i] = old) :
    (xs.set i new).map (replaced old new) = xs.map (replaced old new) := by
  have hi' : i < (xs.map (replaced old new)).length := by rwa [List.length_map]
  have hnew : replaced old new new = (xs.map (replaced old new))[i] := by
    rw [List.getElem_map, hold, replaced, replaced, if_neg hne.symm, if_pos rfl]
  rw [List.map_set, hnew, List.set_getElem_self]

theorem count_set_new (hne : old ≠ new) {i : Nat} (hi : i < xs.length) (hold : xs[i] = old) :
    (xs.set i new).count old + 1 = xs.count old := by
  have hpos : 0 < xs.count old := List.count_pos_iff.2 (hold ▸ List.getElem_mem hi)
  rw [List.count_set hi, hold, beq_self_eq_true, if_pos rfl, beq_eq_false_iff_ne.2 hne.symm,
    if_neg Bool.false_ne_true]
  omega

end

/-! ### Bytes -/

section
variable {old new : UInt8} {buf buf' : Buffer} {m m' : Mem} {bs cs : List UInt8}

theorem Mem.store_of_holds {p : Ptr} (h : Holds m.read p cs) : m.store p cs = m := by
  have hbyte (a : Ptr) : (m.store p cs).byte a = m.byte a := by
    by_cases hin : InRange p cs.length a
    · obtain ⟨i, hi, rfl⟩ := hin.exists
      rw [Mem.store_byte_add hi, Mem.byte_of_read (h i hi)]
    · exact Mem.store_byte_of_not_inRange hin
  have hfun : (m.store p cs).byte = m.byte := funext hbyte
  show { m with byte := (m.store p cs).byte } = m
  rw [hfun]

theorem stands_singleton {i : Nat} : Stands [old] cs i ↔ ∃ h : i < cs.length, cs[i] = old := by
  constructor
  · rintro ⟨hlt, t, ht⟩
    have hi : i < cs.length := hlt
    rw [List.drop_eq_getElem_cons hi] at ht
    exact ⟨hi, (List.cons.inj ht).1.symm⟩
  · rintro ⟨hi, rfl⟩
    exact ⟨hi, cs.drop (i + 1), (List.drop_eq_getElem_cons hi).symm⟩

/-- The search of one round, in a buffer that holds `cs`. -/
theorem byteInBuffer_find (hbuf : Holds m.read buf.base cs) (hlen : buf.writeCur.toNat = cs.length)
    (old : UInt8) : (old ∉ cs ∧ byteInBuffer old (buf.view m) returnIdxFind = .ok invalidIdx) ∨
    ∃ i : Usz, ∃ hi : i.toNat < cs.length, cs[i.toNat] = old ∧
      old ∉ cs.take i.toNat ∧ i ≠ invalidIdx ∧
      byteInBuffer old (buf.view m) returnIdxFind = .ok i := by
  obtain ⟨start, hstart, hrun⟩ := @byteInBuffer_answer cs (buf.view m) old hbuf hlen .idxFind false
  cases start with
  | none =>
    refine .inl ⟨fun hmem => ?_, hrun⟩
    obtain ⟨i, hi, hold⟩ := List.getElem_of_mem hmem
    exact hstart i (stands_singleton.2 ⟨hi, hold⟩)
  | some i =>
    obtain ⟨hi, hold⟩ := stands_singleton.1 hstart.1
    have hlt := buf.writeCur.toNat_lt
    have hword : (UInt64.ofNat i).toNat = i := UInt64.toNat_ofNat_of_lt_two_pow (by omega)
    refine .inr ⟨UInt64.ofNat i, by rwa [hword], by simpa only [hword] using hold,
      fun hmem => ?_, fun h => ?_, hrun⟩
    · rw [hword] at hmem
      obtain ⟨j, hj, hj'⟩ := List.getElem_of_mem hmem
      rw [List.length_take] at hj
      rw [List.getElem_take] at hj'
      have hle : i ≤ j := hstart.2 j (stands_singleton.2 ⟨by omega, hj'⟩)
      omega
    · have hinvalid : invalidIdx.toNat = 2 ^ 64 - 1 := rfl
      rw [← h, hword] at hinvalid
      omega

/-- `k` bytes are still to be replaced; those in front of the buffer of the round are done. -/
structure Replacing (old new : UInt8) (buf : Buffer) (m : Mem) (bs : List UInt8) (k : Nat)
    (buf' : Buffer) (m' : Mem) (j : Usz) (cs : List UInt8) : Prop where
  base_eq : buf'.base = buf.base + j
  len_eq : j.toNat + buf'.writeCur.toNat = cs.length
  m_eq : m' = m.store buf.base cs
  length_eq : cs.length = bs.length
  same : cs.map (replaced old new) = bs.map (replaced old new)
  passed : old ∉ cs.take j.toNat
  count_eq : cs.count old = k

theorem Replacing.holds {k : Nat} {j : Usz} (h : Replacing old new buf m bs k buf' m' j cs)
    (hbuf : Holds m.read buf.base bs) (hlen : bs.length < 2 ^ 64) :
    Holds m'.read buf'.base (cs.drop j.toNat) := by
  have hj := h.len_eq
  have heq := h.length_eq
  rw [h.m_eq, h.base_eq]
  have hread : m.Readable buf.base cs.length := by rw [heq]; exact Mem.readable_of_reads hbuf
  exact (Mem.holds_store hread).drop j (by omega) (by omega)

theorem Replacing.next {k : Nat} {j i : Usz} (h : Replacing old new buf m bs k buf' m' j cs)
    (hne : old ≠ new) (hlen : bs.length < 2 ^ 64)
    (hw : ∀ i : Usz, i.toNat < bs.length → m.writable (buf.base + i))
    (hi : i.toNat < (cs.drop j.toNat).length) (hold : (cs.drop j.toNat)[i.toNat] = old)
    (hnone : old ∉ (cs.drop j.toNat).take i.toNat) :
    ∃ m'', m'.write (buf'.base + i) new = .ok m'' ∧ 0 < k ∧
      Replacing old new buf m bs (k - 1) (advanceBuffer buf' i) m'' (j + i)
      (cs.set (j.toNat + i.toNat) new) := by
  have hj := h.len_eq
  have heq := h.length_eq
  rw [List.length_drop] at hi
  have hji : (j + i).toNat = j.toNat + i.toNat := UInt64.toNat_add_of_lt (by omega)
  have hin : j.toNat + i.toNat < cs.length := by omega
  have hold' : cs[j.toNat + i.toNat] = old := by rwa [List.getElem_drop] at hold
  have hcount := count_set_new hne hin hold'
  have hwrite := @Mem.write_store m buf.base cs (j + i) new (hw _ (by omega)) (by omega) (by omega)
  rw [hji] at hwrite
  refine ⟨m.store buf.base (cs.set (j.toNat + i.toNat) new), ?_, ?_, ?_⟩
  · rw [h.m_eq, h.base_eq, UInt64.add_assoc]
    exact hwrite
  · have := h.count_eq
    omega
  · refine ⟨?_, ?_, rfl, by rw [List.length_set]; exact heq, ?_, ?_, by have := h.count_eq; omega⟩
    · show buf'.base + i = _
      rw [h.base_eq, UInt64.add_assoc]
    · have hsub : (buf'.writeCur - i).toNat = buf'.writeCur.toNat - i.toNat :=
        UInt64.toNat_sub_of_toNat_le (by omega)
      show (j + i).toNat + (buf'.writeCur - i).toNat = _
      rw [hji, hsub, List.length_set]
      omega
    · rw [map_replaced_set hne hin hold', h.same]
    · rw [hji, List.take_set_of_le (Nat.le_refl _), List.take_add, List.mem_append]
      exact not_or.2 ⟨h.passed, hnone⟩

/-- Two different bytes: the loop ends, with each old byte replaced. -/
theorem replaceByteInBuffer_of_ne (hne : old ≠ new) (hbuf : Holds m.read buf.base bs)
    (hlen : buf.writeCur.toNat = bs.length)
    (hw : ∀ i : Usz, i.toNat < bs.length → m.writable (buf.base + i)) :
    replaceByteInBuffer old new buf m = .ok (m.store buf.base (bs.map (replaced old new))) := by
  have hlt := buf.writeCur.toNat_lt
  have hlen64 : bs.length < 2 ^ 64 := by omega
  refine Except.wp_eq.1
    (wp_whileLoop_of_bound (fun k st => ∃ j cs, Replacing old new buf m bs k st.1 st.2 j cs) ?_
    (k := bs.count old) ⟨0, bs, ?_⟩ (Nat.lt_of_le_of_lt List.count_le_length hlen64))
  · rintro k ⟨buf', m'⟩ ⟨j, cs, (h : Replacing old new buf m bs k buf' m' j cs)⟩
    have hholds := h.holds hbuf hlen64
    have hrest : buf'.writeCur.toNat = (cs.drop j.toNat).length := by
      have := h.len_eq
      rw [List.length_drop]
      omega
    rcases byteInBuffer_find hholds hrest old with ⟨hnone, hrun⟩ |
      ⟨i, hi, hold, hnone, hvalid, hrun⟩
    · have hall : old ∉ cs := fun hmem => by
        rw [← List.take_append_drop j.toNat cs, List.mem_append] at hmem
        exact hmem.elim h.passed hnone
      dsimp only
      rw [hrun, Except.ok_bind, if_neg (not_not.2 rfl), Except.wp_pure, Ctl.post_done, ← h.same,
        map_replaced_of_notMem hall]
      exact h.m_eq
    · obtain ⟨m'', hwrite, hpos, hnext⟩ := h.next hne hlen64 hw hi hold hnone
      dsimp only
      rw [hrun, Except.ok_bind, if_pos hvalid, hwrite, Except.ok_bind, Except.wp_pure]
      exact ⟨k - 1, by omega, _, _, hnext⟩
  · exact ⟨(UInt64.add_zero _).symm, by simpa using hlen, (Mem.store_of_holds hbuf).symm, rfl, rfl,
      by simp, rfl⟩

/-- A byte replaced by itself is found again in every round. -/
theorem replaceByteInBuffer_self (hbuf : Holds m.read buf.base bs)
    (hlen : buf.writeCur.toNat = bs.length) (hmem : old ∈ bs) (m' : Mem) :
    replaceByteInBuffer old old buf m ≠ .ok m' := by
  intro h
  refine of_whileLoop_ok (Q := fun _ => False)
    (fun st => ∃ cs, Holds st.2.read st.1.base cs ∧ st.1.writeCur.toNat = cs.length ∧ old ∈ cs)
    ?_ ⟨bs, hbuf, hlen, hmem⟩ h
  rintro ⟨buf', m'⟩ c ⟨cs, hholds, hcs, hold⟩ hc
  dsimp only at hholds hcs hc
  have hlt := buf'.writeCur.toNat_lt
  rcases byteInBuffer_find hholds hcs old with ⟨hnone, -⟩ | ⟨i, hi, hfound, -, hvalid, hrun⟩
  · exact absurd hold hnone
  · rw [hrun, Except.ok_bind, if_pos hvalid, Except.bind_eq_ok] at hc
    obtain ⟨m'', hwrite, hc⟩ := hc
    cases hc
    -- the byte written is the one that is there
    have hbyte : m'.byte (buf'.base + i) = old := by
      rw [Mem.byte_of_read (hholds i hi)]
      dsimp only
      rw [List.getD_eq_getElem _ _ hi, hfound]
    have hsame : m'' = m' := by
      rw [Mem.write] at hwrite
      split_ifs at hwrite
      cases hwrite
      rw [← hbyte, Function.update_eq_self]
    subst hsame
    have hsub : (buf'.writeCur - i).toNat = buf'.writeCur.toNat - i.toNat :=
      UInt64.toNat_sub_of_toNat_le (by omega)
    refine ⟨cs.drop i.toNat, hholds.drop i (by omega) (by omega), ?_, ?_⟩
    · show (buf'.writeCur - i).toNat = _
      rw [hsub, List.length_drop, hcs]
    · rw [List.drop_eq_getElem_cons hi, hfound]
      exact List.mem_cons_self

end

/-- `ReplaceByteInBuffer` replaces all old bytes, and changes nothing else, unless it is to replace
a byte that is there by itself. -/
theorem replaceByteInBuffer_iff (old new : UInt8) (buf : Buffer) (m : Mem) (bs : List UInt8)
    (hbuf : Holds m.read buf.base bs) (hlen : buf.writeCur.toNat = bs.length)
    (hw : ∀ i : Usz, i.toNat < bs.length → m.writable (buf.base + i)) :
    replaceByteInBuffer old new buf m = .ok (m.store buf.base (bs.map (replaced old new))) ↔
      old ≠ new ∨ old ∉ bs := by
  by_cases hne : old = new
  · subst hne
    refine ⟨fun h => .inr fun hmem => replaceByteInBuffer_self hbuf hlen hmem _ h, fun h => ?_⟩
    have hmem : old ∉ bs := h.resolve_left (not_not.2 rfl)
    rw [map_replaced_of_notMem hmem, Mem.store_of_holds hbuf]
    refine whileLoop_of_done ?_
    rcases byteInBuffer_find hbuf hlen old with ⟨-, hrun⟩ | ⟨i, hi, hold, -⟩
    · dsimp only
      rw [hrun, Except.ok_bind, if_neg (not_not.2 rfl)]
      rfl
    · exact absurd (hold ▸ List.getElem_mem hi) hmem
  · exact ⟨fun _ => .inl hne, fun _ => replaceByteInBuffer_of_ne hne hbuf hlen hw⟩

def slashes : Mem := (⟨fun _ => 0, fun _ => true, fun _ => true⟩ : Mem).store 16 [47, 97, 47, 47]

theorem replaceByteInBuffer_slashes :
    replaceByteInBuffer 47 92 ⟨16, 4, 4⟩ slashes = .ok (slashes.store 16 [92, 97, 92, 92]) :=
  (replaceByteInBuffer_iff 47 92 ⟨16, 4, 4⟩ slashes
    [47, 97, 47, 47] (Mem.holds_store fun _ _ => rfl) rfl fun _ _ => rfl).2 (.inl (by decide))

/-- A slash replaced by a slash: the loop does not end. -/
theorem replaceByteInBuffer_same_slash :
    ¬ ∃ m', replaceByteInBuffer 47 47 ⟨16, 4, 4⟩ slashes = .ok m' := by
  have hbuf : Holds slashes.read 16 [47, 97, 47, 47] := Mem.holds_store fun _ _ => rfl
  rintro ⟨m', hrun⟩
  exact replaceByteInBuffer_self hbuf rfl (by decide) m' hrun

/-! ### Characters of UTF-8 text -/

section
variable {old new : Char} {pre post cs : List Char} {a : String} {m : Mem}

theorem length_encode_replaced {F : Form} (hsize : (F.bytes old).length = (F.bytes new).length)
    (cs : List Char) : (F.encode (cs.map (replaced old new))).length = (F.encode cs).length := by
  induction cs with
  | nil => rfl
  | cons c cs ih =>
    rw [List.map_cons, Form.encode_cons, Form.encode_cons, List.length_append,
      List.length_append, ih, replaced]
    split_ifs with hc
    · rw [hc, hsize]
    · rfl

theorem take_leBytes_utf8 (c : Char) :
    (leBytes 4 (encodeChar c.val .utf8).toNat).take (Form.utf8.bytes c).length =
      Form.utf8.bytes c := by
  have hlen := length_bytes .utf8 c
  have hsize := getMultibyteCharSize_le (packed .utf8 c) (encodingOf .utf8)
  show (leBytes 4 (packed .utf8 c).toNat).take _ = _
  rw [hlen, take_leBytes hsize.2, bytes_eq]
  rfl

theorem charInString_find (htext : HoldsText m a .utf8 post) (old : Char) :
    (old ∉ post ∧ charInString (encodeChar old.val .utf8) a returnIdxFind m = .ok invalidIdx) ∨
    ∃ (p1 p2 : List Char) (idx : Usz), post = p1 ++ old :: p2 ∧ old ∉ p1 ∧
      idx.toNat = (Form.utf8.encode p1).length ∧
      charInString (encodeChar old.val .utf8) a returnIdxFind m = .ok idx := by
  obtain ⟨idx, hrun, _, rfl, hidx⟩ := Except.wp_iff.1 (charInString_utf8 htext old returnIdxFind)
  rcases hidx with ⟨k, hk, hleast⟩ | ⟨rfl, hnone⟩
  · obtain ⟨t, ht⟩ := hleast.sat
    refine .inr ⟨post.take k, t, idx, ?_, fun hmem => ?_, hk, hrun⟩
    · rw [show old :: t = post.drop k from ht, List.take_append_drop]
    · obtain ⟨j, hj, hold⟩ := List.getElem_of_mem hmem
      rw [List.length_take] at hj
      rw [List.getElem_take] at hold
      refine hleast.none j (by omega) ⟨post.drop (j + 1), ?_⟩
      rw [← hold]
      exact (List.drop_eq_getElem_cons (by omega)).symm
  · refine .inl ⟨fun hmem => ?_, hrun⟩
    obtain ⟨j, hj, hold⟩ := List.getElem_of_mem hmem
    refine hnone j hj ⟨post.drop (j + 1), ?_⟩
    rw [← hold]
    exact (List.drop_eq_getElem_cons hj).symm

/-- The text of `a` in the middle of a replacement: `pre` is done, the string `a'` of the round
holds `post`. -/
structure ReplacingText (old new : Char) (a : String) (m : Mem) (pre post : List Char)
    (a' : String) (m' : Mem) : Prop where
  enc : a'.enc = .utf8
  base_eq : a'.base = a.base + UInt64.ofNat (Form.utf8.encode pre).length
  len_eq : a'.writeCur.toNat = (Form.utf8.encode post).length
  m_eq : m' = m.store a.base (Form.utf8.encode (pre.map (replaced old new) ++ post))

namespace ReplacingText
variable {a' : String} {m' : Mem}

theorem holdsText (h : ReplacingText old new a m pre post a' m')
    (htext : HoldsText m a .utf8 (pre ++ post))
    (hsize : (Form.utf8.bytes old).length = (Form.utf8.bytes new).length) :
    HoldsText m' a' .utf8 post := by
  have hlt := a.writeCur.toNat_lt
  have hlen := htext.len
  have hpre := length_encode_replaced hsize pre
  have hlen' : (Form.utf8.encode (pre ++ post)).length =
      (Form.utf8.encode (pre.map (replaced old new) ++ post)).length := by
    rw [Form.encode_append, Form.encode_append, List.length_append, List.length_append, hpre]
  have hread := Mem.readable_of_reads htext.bytes
  rw [hlen'] at hread
  have hall : HoldsText m' a .utf8 (pre.map (replaced old new) ++ post) := by
    rw [h.m_eq]
    exact ⟨htext.enc, by rw [hlen, hlen'], Mem.holds_store hread⟩
  rw [Form.encode_append, List.length_append] at hlen
  have hidx : (UInt64.ofNat (Form.utf8.encode pre).length).toNat =
      (Form.utf8.encode (pre.map (replaced old new))).length := by
    rw [UInt64.toNat_ofNat', hpre]
    exact Nat.mod_eq_of_lt (by omega)
  refine ⟨h.enc, h.len_eq, ?_⟩
  rw [h.base_eq]
  exact hall.reads_shift hidx

/-- What `CopyData` leaves when the character behind `p1` is replaced. -/
theorem copyData_eq {p1 p2 : List Char} {idx : Usz}
    (h : ReplacingText old new a m pre (p1 ++ old :: p2) a' m')
    (htext : HoldsText m a .utf8 (pre ++ (p1 ++ old :: p2)))
    (hw : ∀ i : Usz, i.toNat < (Form.utf8.encode (pre ++ (p1 ++ old :: p2))).length →
      m.writable (a.base + i))
    (hsize : (Form.utf8.bytes old).length = (Form.utf8.bytes new).length) (hold : old ∉ p1)
    (hidx : idx.toNat = (Form.utf8.encode p1).length) {newLen : Usz}
    (hnew : newLen.toNat = (Form.utf8.bytes new).length) :
    copyData m' (a'.base + idx) (a'.writeCur - idx)
      (localObject (leBytes 4 (encodeChar new.val .utf8).toNat)) 0 newLen =
      .ok (true, m.store a.base
        (Form.utf8.encode ((pre ++ (p1 ++ [old])).map (replaced old new) ++ p2))) := by
  have hlt := a.writeCur.toNat_lt
  have hlen := htext.len
  have hcur := h.len_eq
  have hpre := length_encode_replaced hsize pre
  have hsize4 := getMultibyteCharSize_le (packed .utf8 new) .utf8
  have hnew4 := length_bytes .utf8 new
  simp only [Form.encode_append, Form.encode_cons, List.length_append] at hlen hcur hw
  have hsub : (a'.writeCur - idx).toNat = a'.writeCur.toNat - idx.toNat :=
    UInt64.toNat_sub_of_toNat_le (by omega)
  have hat : (UInt64.ofNat (Form.utf8.encode pre).length + idx).toNat =
      (Form.utf8.encode pre).length + idx.toNat :=
    UInt64.toNat_ofNat_add (by omega)
  have hobj : newLen.toNat ≤ (leBytes 4 (encodeChar new.val .utf8).toNat).length := by
    rw [length_leBytes, hnew, hnew4]
    exact hsize4.2
  have hfree (i : Usz) (hi : i.toNat < newLen.toNat) : m'.writable (a'.base + idx + i) := by
    have hati : (UInt64.ofNat (Form.utf8.encode pre).length + idx + i).toNat =
        (Form.utf8.encode pre).length + idx.toNat + i.toNat := by
      rw [UInt64.toNat_add_of_lt (by omega), hat]
    rw [h.base_eq, h.m_eq, UInt64.add_assoc a.base, UInt64.add_assoc a.base]
    exact hw _ (by omega)
  rw [copyData_of_le ((localObject_reads _).mono hobj) (UInt64.le_iff_toNat_le.2 (by omega)) hfree,
    map_getD_range hobj,
    hnew, take_leBytes_utf8, h.base_eq, h.m_eq, UInt64.add_assoc, Mem.store_within]
  · -- the bytes in front of the character, its own, and those behind it
    have hsplit : Form.utf8.encode (pre.map (replaced old new) ++ (p1 ++ old :: p2)) =
        Form.utf8.encode (pre.map (replaced old new) ++ p1) ++
        (Form.utf8.bytes old ++ Form.utf8.encode p2) := by
      simp only [Form.encode_append, Form.encode_cons, List.append_assoc]
    have hfront : (UInt64.ofNat (Form.utf8.encode pre).length + idx).toNat =
        (Form.utf8.encode (pre.map (replaced old new) ++ p1)).length := by
      rw [hat, hidx, Form.encode_append, List.length_append, hpre]
    rw [hsplit, hfront, List.take_left, ← List.drop_drop, List.drop_left, ← hsize,
      List.drop_left, List.map_append,
      List.map_append, map_replaced_of_notMem hold, List.map_singleton, replaced, if_pos rfl]
    simp only [Form.encode_append, Form.encode_cons, Form.encode_nil,
      List.append_nil, List.append_assoc]
  · simp only [Form.encode_append, Form.encode_cons, List.length_append]
    omega
  · simp only [Form.encode_append, Form.encode_cons, List.length_append]
    omega

end ReplacingText

end

/-- `ReplaceCharInString` on UTF-8 text, with the portable search, for characters of the same size
of more than one byte, is a map on characters. -/
theorem replaceCharInString_utf8 (old new : Char) (cs : List Char) (a : String) (m : Mem)
    (htext : HoldsText m a .utf8 cs)
    (hw : ∀ i : Usz, i.toNat < a.writeCur.toNat → m.writable (a.base + i))
    (hsize : (Form.utf8.bytes old).length = (Form.utf8.bytes new).length)
    (hmulti : 2 ≤ (Form.utf8.bytes new).length) :
    replaceCharInString (encodeChar old.val .utf8) (encodeChar new.val .utf8) a m =
      .ok (true, m.store a.base (Form.utf8.encode (cs.map (replaced old new)))) := by
  have henc : a.enc = .utf8 := htext.enc
  have hlt := a.writeCur.toNat_lt
  have hold : (getMultibyteCharSize (encodeChar old.val .utf8) .utf8).toNat =
      (Form.utf8.bytes old).length :=
    (length_bytes .utf8 old).symm
  have hnew : (getMultibyteCharSize (encodeChar new.val .utf8) .utf8).toNat =
      (Form.utf8.bytes new).length :=
    (length_bytes .utf8 new).symm
  have hsame : getMultibyteCharSize (encodeChar old.val .utf8) .utf8 =
      getMultibyteCharSize (encodeChar new.val .utf8) .utf8 :=
    UInt32.toNat_inj.1 (by rw [hold, hnew, hsize])
  have hone : getMultibyteCharSize (encodeChar new.val .utf8) .utf8 ≠ 1 := fun h => by
    rw [h] at hnew
    have : (1 : UInt32).toNat = 1 := rfl
    omega
  rw [replaceCharInString, henc]
  simp only [hsame, ne_eq, not_true_eq_false, if_false, if_neg hone]
  generalize hlen : (getMultibyteCharSize (encodeChar new.val .utf8) .utf8).toUInt64 = newLen
  have hnewLen : newLen.toNat = (Form.utf8.bytes new).length := by
    rw [← hlen, UInt32.toNat_toUInt64, hnew]
  refine Except.wp_eq.1 (wp_whileLoop (fun st => ∃ pre post, cs = pre ++ post ∧
    ReplacingText old new a m pre post st.1 st.2)
    (fun st => st.1.writeCur.toNat) ?_ _ ⟨[], cs, rfl, henc, by simp, htext.len, ?_⟩ hlt)
  · rintro ⟨a', m'⟩ ⟨pre, post, rfl, (h : ReplacingText old new a m pre post a' m')⟩
    dsimp only
    have hcur := h.len_eq
    rcases charInString_find (h.holdsText htext hsize) old with ⟨hnone, hrun⟩ |
      ⟨p1, p2, idx, rfl, hpre, hidx, hrun⟩
    · rw [hrun, Except.ok_bind, if_neg (not_not.2 rfl), Except.wp_pure,
        Ctl.post_done, h.m_eq, List.map_append, map_replaced_of_notMem hnone]
    · simp only [Form.encode_append, Form.encode_cons, List.length_append] at hcur
      have hcur' := a'.writeCur.toNat_lt
      have hvalid : idx ≠ invalidIdx := fun hinv => by
        have : invalidIdx.toNat = 2 ^ 64 - 1 := rfl
        rw [hinv] at hidx
        omega
      have hcopy :=
        h.copyData_eq htext (fun i hi => hw i (by rw [htext.len]; exact hi)) hsize hpre hidx hnewLen
      have hsub : (a'.writeCur - idx).toNat = a'.writeCur.toNat - idx.toNat :=
        UInt64.toNat_sub_of_toNat_le (by omega)
      have hsub' :
          (a'.writeCur - idx - newLen).toNat = a'.writeCur.toNat - idx.toNat - newLen.toNat := by
        rw [UInt64.toNat_sub_of_toNat_le (by omega), hsub]
      rw [hrun, Except.ok_bind, if_pos hvalid]
      simp only [advanceBuffer, hcopy, Except.ok_bind, Except.wp_pure, Ctl.post_next]
      refine ⟨⟨pre ++ (p1 ++ [old]), p2, by simp, h.enc, ?_, ?_, rfl⟩, by omega⟩
      · have hsum : (Form.utf8.encode (pre ++ (p1 ++ [old]))).length =
            (Form.utf8.encode pre).length + idx.toNat + newLen.toNat := by
          simp only [Form.encode_append, Form.encode_cons, Form.encode_nil,
            List.append_nil, List.length_append]
          omega
        show a'.base + idx + newLen = _
        rw [h.base_eq, hsum, UInt64.ofNat_add, UInt64.ofNat_add, UInt64.ofNat_toNat,
          UInt64.ofNat_toNat, UInt64.add_assoc, UInt64.add_assoc, UInt64.add_assoc]
      · show (a'.writeCur - idx - newLen).toNat = _
        omega
  · exact (Mem.store_of_holds htext.bytes).symm

/-! ### Characters of one byte -/

section
variable {old new : Char} {cs : List Char} {b b' : UInt8}

theorem bytes_utf8_of_length_one {c : Char} (h : (Form.utf8.bytes c).length = 1) :
    Form.utf8.bytes c = [(encodeChar c.val .utf8).toUInt8] := by
  have hone : (getMultibyteCharSize (encodeChar c.val .utf8) .utf8).toNat = 1 :=
    (length_bytes .utf8 c).symm.trans h
  have hbytes := needleBytes_utf8 c
  rw [needleBytes, hone, Form.encode_cons, Form.encode_nil, List.append_nil] at hbytes
  rw [← hbytes]
  simp [leBytes]

theorem mem_encode_iff (hold : Form.utf8.bytes old = [b]) : b ∈ Form.utf8.encode cs ↔ old ∈ cs := by
  rw [Form.encode, List.mem_flatMap]
  constructor
  · rintro ⟨c, hc, hb⟩
    by_contra hmem
    exact synchronising_utf8.notMem_of_ne hold (fun h => hmem (h ▸ hc)) hb
  · exact fun hmem => ⟨old, hmem, by rw [hold]; exact List.mem_singleton_self b⟩

/-- Its byte is replaced. -/
theorem encode_map_replaced (hold : Form.utf8.bytes old = [b]) (hnew : Form.utf8.bytes new = [b'])
    (cs : List Char) :
    Form.utf8.encode (cs.map (replaced old new)) = (Form.utf8.encode cs).map (replaced b b') := by
  induction cs with
  | nil => rfl
  | cons c cs ih =>
    rw [List.map_cons, Form.encode_cons, Form.encode_cons, List.map_append, ih]
    refine congrArg (· ++ _) ?_
    by_cases hc : c = old
    · subst hc
      rw [replaced, if_pos rfl, hnew, hold, List.map_singleton, replaced, if_pos rfl]
    · rw [replaced, if_neg hc,
        map_replaced_of_notMem (synchronising_utf8.notMem_of_ne hold fun h => hc h.symm)]

end

/-- A character of one byte is replaced, too, unless it is to be replaced by itself. -/
theorem replaceCharInString_utf8_one {old new : Char} {cs : List Char} {a : String} {m : Mem}
    (htext : HoldsText m a .utf8 cs) (hw : ∀ i : Usz, i.toNat < a.writeCur.toNat →
      m.writable (a.base + i)) (hold : (Form.utf8.bytes old).length = 1)
    (hnew : (Form.utf8.bytes new).length = 1) (hne : old ≠ new ∨ old ∉ cs) :
    replaceCharInString (encodeChar old.val .utf8) (encodeChar new.val .utf8) a m =
      .ok (true, m.store a.base (Form.utf8.encode (cs.map (replaced old new)))) := by
  have henc : a.enc = .utf8 := htext.enc
  have hone : ∀ c : Char, (Form.utf8.bytes c).length = 1 →
      getMultibyteCharSize (encodeChar c.val .utf8) .utf8 = 1 :=
    fun c hc => UInt32.toNat_inj.1 ((length_bytes .utf8 c).symm.trans hc)
  have hold' := bytes_utf8_of_length_one hold
  have hnew' := bytes_utf8_of_length_one hnew
  have hbytes : (encodeChar old.val .utf8).toUInt8 ≠ (encodeChar new.val .utf8).toUInt8 ∨
      (encodeChar old.val .utf8).toUInt8 ∉ Form.utf8.encode cs := by
    refine hne.imp (fun hne heq => ?_) (mt (mem_encode_iff hold').1)
    rw [← heq] at hnew'
    have hsame : old = new := synchronising_utf8.eq_of_prefix _ _ (by rw [hold', hnew'])
    exact hne hsame
  have hrun :=
    (replaceByteInBuffer_iff _ (encodeChar new.val .utf8).toUInt8 a.toBuffer m _
    htext.bytes htext.len (fun i hi => hw i (by rw [htext.len]; exact hi))).2 hbytes
  rw [replaceCharInString, henc, hone old hold, hone new hnew, if_neg (not_not.2 rfl),
    if_pos rfl, hrun, Except.ok_bind, encode_map_replaced hold' hnew']
  rfl

theorem replaceCharInString_utf8_euro :
    replaceCharInString 0xAC82E2 0xB080E2 euroSrc euroMem =
      .ok (true, euroMem.store 16 (Form.utf8.encode ['‰', '😀'])) := by
  have htext : HoldsText euroMem euroSrc .utf8 euroText :=
    ⟨rfl, by decide, Mem.holds_store fun _ _ => rfl⟩
  exact replaceCharInString_utf8 '€' '‰' euroText euroSrc euroMem htext
    (fun _ _ => rfl) (by decide) (by decide)

end TinyBase
