import TinyBase.StringRuns

/-!
# Runs on a read-only string

A string of size `0` is documented as read-only. The functions that append test `Size - WriteCur`,
which wraps around: with something in the string it is nearly the whole address space, and the
append is made. `StringOp.Rejected` is the exact condition under which a call leaves such a string
and all of the memory alone; a rejected call changes nothing, so a run is decided in the state it
begins in.
-/

namespace TinyBase

/-- A call on a buffer or string. -/
inductive StringOp where
  | advanceString (numChars : Usz)
  | appendDataToBuffer (src : Ptr) (srcSize : Usz)
  | appendBufferToBuffer (src : Buffer)
  | append (op : AppendOp)

namespace StringOp

/-- The call on the string `s.1`, or on its buffer, in the memory `s.2`. `AdvanceString` returns
nothing. -/
def exec : StringOp → String × Mem → Res (Option Bool × (String × Mem))
  | advanceString numChars, (dst, m) => do
    let dst ← TinyBase.advanceString dst numChars m
    pure (none, dst, m)
  | appendDataToBuffer src srcSize, (dst, m) => do
    let (result, s) ← appendToString m.read src srcSize dst m
    pure (some result, s)
  | appendBufferToBuffer src, (dst, m) => do
    let (result, s) ← appendBufferToString (src.view m) dst m
    pure (some result, s)
  | append op, s => do
    let (result, s) ← op.exec s
    pure (some result, s)

/-- What a caller has to grant: the characters advanced over are in the string, an appended source
is not empty, and the first character of one that is transcoded can be read. -/
def Pre : StringOp → String × Mem → Prop
  | advanceString numChars, (dst, m) => m.Readable dst.base dst.writeCur.toNat ∧
      skipBytes dst.enc numChars.toNat (m.bytesFrom dst.base) ≤ dst.writeCur.toNat
  | appendDataToBuffer _ srcSize, _ => srcSize ≠ 0
  | appendBufferToBuffer src, _ => src.writeCur ≠ 0
  | append (.appendDataToString _ srcSize), _ => srcSize ≠ 0
  | append (.appendStringToString src), (dst, m) => src.writeCur ≠ 0 ∧ (src.enc ≠ dst.enc →
      m.Readable src.base (nextCharSize (m.bytesFrom src.base) src.enc).toNat)
  | append _, _ => True

/-- No `n` bytes fit between a `WriteCur` of `writeCur` and a `Size` of `0`, counted modulo `2 ^
64`. -/
def NoRoom (writeCur : Usz) (n : Nat) : Prop := writeCur = 0 ∨ 2 ^ 64 < writeCur.toNat + n

/-- The size of the first character a transcoding of `src` stores. -/
def firstSize (src : String) (D : Encoding) (m : Mem) : Nat :=
  (getMultibyteCharSize
    (encodeChar (decodeChar (nextChar (m.bytesFrom src.base) src.enc) src.enc) D) D).toNat

/-- The call does nothing to a string of size `0`. -/
def Rejected : StringOp → String × Mem → Prop
  | advanceString numChars, _ => numChars = 0
  | appendDataToBuffer _ srcSize, (dst, _) => NoRoom dst.writeCur srcSize.toNat
  | appendBufferToBuffer src, (dst, _) => NoRoom dst.writeCur src.writeCur.toNat
  | append (.appendStringToString src), (dst, m) =>
    if src.enc = dst.enc then NoRoom dst.writeCur src.writeCur.toNat
    else dst.writeCur.toNat + firstSize src dst.enc m ≠ 2 ^ 64
  | append op, s => NoRoom s.1.writeCur (op.producedSize s)

end StringOp

/-- The call did not write: the size is still `0`, an append returned `false`, and memory is as it
was. -/
structure ReadOnly (s : String × Mem) (_ : StringOp) (r : Option Bool) (s' : String × Mem) :
    Prop where
  size : s'.1.size = 0
  result : r ≠ some true
  same : s'.2 = s.2

/-- The memory `m`, of which `w` says what may be written. -/
def Mem.withWritable (m : Mem) (w : Ptr → Bool) : Mem := { m with writable := w }

/-- The run writes nothing, whatever part of the memory may be written. Where nothing may, a write
would be a fault, so none is made, not even of bytes that are there already. -/
def NeverWritten (ops : List StringOp) (dst : String) (m : Mem) : Prop :=
  ∀ w, Always StringOp.exec ReadOnly ops (dst, m.withWritable w)

section
variable {m : Mem} {dst : String}

/-! ### Appends to a string of size `0` -/

/-- The append `x` to `dst` does nothing if `c`, and otherwise writes. -/
structure Refuses (x : Res (Bool × String × Mem)) (dst : String) (m : Mem) (c : Prop) : Prop where
  rejected : c → x = .ok (false, dst, m)
  writes : ¬ c → (∀ p, m.writable p = false) → ∃ e, x = .error e

theorem le_sub_iff_not_noRoom {size writeCur n : Usz} (hsize : size = 0) (hn : n ≠ 0) :
    n ≤ size - writeCur ↔ ¬ StringOp.NoRoom writeCur n.toNat := by
  have hpos : 0 < n.toNat := Nat.pos_of_ne_zero fun h => hn (UInt64.toNat_inj.1 h)
  have hcur := writeCur.toNat_lt
  have hlt := n.toNat_lt
  rw [StringOp.NoRoom, UInt64.le_iff_toNat_le, UInt64.toNat_sub, hsize, ← UInt64.toNat_inj]
  simp only [UInt64.toNat_zero]
  omega

theorem length_readBytes {rd : Reader} {p : Ptr} {n : Nat} {bs : List UInt8}
    (h : readBytes rd p n = .ok bs) : bs.length = n := by
  induction n generalizing p bs with
  | zero => cases h; rfl
  | succ n ih =>
    rw [readBytes] at h
    cases hb : rd p with
    | error e => rw [hb] at h; cases h
    | ok b =>
      cases hbs : readBytes rd (p + 1) n with
      | error e => rw [hb, Except.ok_bind, hbs] at h; cases h
      | ok bs' =>
        rw [hb, Except.ok_bind, hbs] at h
        cases h
        rw [List.length_cons, ih hbs]

theorem writeBytes_error {p : Ptr} {bs : List UInt8} (hbs : bs ≠ [])
    (hm : ∀ p, m.writable p = false) : ∃ e, m.writeBytes p bs = .error e := by
  cases bs with
  | nil => exact absurd rfl hbs
  | cons b bs => exact ⟨_, Mem.writeBytes_cons_of_not_writable (hm p)⟩

theorem appendToString_refuses (hsize : dst.size = 0) {rd : Reader} {src : Ptr}
    {srcSize : Usz} (hn : srcSize ≠ 0) :
    Refuses (appendToString rd src srcSize dst m) dst m
      (StringOp.NoRoom dst.writeCur srcSize.toNat) := by
  have hroom : srcSize ≤ dst.size - dst.writeCur ↔ _ := le_sub_iff_not_noRoom hsize hn
  constructor
  · intro h
    have hlt : dst.size - dst.writeCur < srcSize := UInt64.not_le.1 fun hle => hroom.1 hle h
    rw [appendToString, appendDataToBuffer_of_lt hlt]
    rfl
  · intro h hm
    rw [appendToString, appendDataToBuffer, copyData, if_pos (hroom.2 h), Mem.memcpy]
    cases hbs : readBytes rd src srcSize.toNat with
    | error e => exact ⟨e, rfl⟩
    | ok bs =>
      have hlen := length_readBytes hbs
      have hne : bs ≠ [] := by
        rintro rfl
        exact hn (UInt64.toNat_inj.1 hlen.symm)
      obtain ⟨e, he⟩ := writeBytes_error (p := dst.base + dst.writeCur) hne hm
      exact ⟨e, by rw [Except.ok_bind, he]; rfl⟩

/-- The text of a number: the first test, without the size of a character, refuses less. -/
theorem appendLaid_refuses (hsize : dst.size = 0) {digits : List UInt8} {total : Usz} {n : Nat}
    (htotal : total.toNat * (digitSize dst.enc).toNat = n) (hn : 0 < n ∧ n ≤ 80) :
    Refuses (appendLaid digits total dst m) dst m (StringOp.NoRoom dst.writeCur n) := by
  obtain ⟨hoff, hcs⟩ := digitSize_le dst.enc
  have hmul : (total * digitSize dst.enc).toNat = n := by
    rw [toNat_mul_digitSize (by omega), htotal]
  have hpos : total * digitSize dst.enc ≠ 0 := by
    intro h
    rw [h] at hmul
    exact absurd hmul (Nat.ne_of_lt hn.1)
  have hcopy : Refuses (appendToString (localObject digits) 0 _ dst m) dst m _ :=
    appendToString_refuses hsize hpos
  rw [hmul] at hcopy
  rw [appendLaid]
  by_cases hroom : dst.size - dst.writeCur ≥ total
  · rw [if_pos hroom]
    exact hcopy
  · rw [if_neg hroom]
    refine ⟨fun _ => rfl, fun h => absurd ?_ hroom⟩
    rw [← hmul, ← le_sub_iff_not_noRoom hsize hpos, UInt64.le_iff_toNat_le, hmul] at h
    have hge : total.toNat ≤ total.toNat * (digitSize dst.enc).toNat :=
      Nat.le_mul_of_pos_right _ (by omega)
    rw [ge_iff_le, UInt64.le_iff_toNat_le]
    omega

/-- A transcoding is decided at its first character: what does not fit there is rejected, and if the
sum wraps around to `0` the character is written. -/
theorem transcode_refuses (hsize : dst.size = 0) {src : String} (hn : src.writeCur ≠ 0)
    (hread : m.Readable src.base (nextCharSize (m.bytesFrom src.base) src.enc).toNat) :
    Refuses (transcode src dst m) dst m
      (dst.writeCur.toNat + StringOp.firstSize src dst.enc m ≠ 2 ^ 64) := by
  obtain ⟨encodedSizeOf, stored, hsizeOf, hstored, heq⟩ := transcode_eq src dst m
  have hlt : (0 : Usz) < src.writeCur := UInt64.pos_iff_ne_zero.2 hn
  have hchar :
      getNextChar m.read src.base src.enc = .ok (nextChar (m.bytesFrom src.base) src.enc) :=
    getNextChar_eq hread.reads
  rw [heq, StringOp.firstSize]
  generalize hx :
    encodeChar (decodeChar (nextChar (m.bytesFrom src.base) src.enc) src.enc) dst.enc = encoded
  obtain ⟨hpos, hle⟩ := getMultibyteCharSize_le encoded dst.enc
  have hfits : dst.writeCur + (getMultibyteCharSize encoded dst.enc).toUInt64 ≤ dst.size ↔
      ¬ dst.writeCur.toNat + (getMultibyteCharSize encoded dst.enc).toNat ≠ 2 ^ 64 := by
    have hcur := dst.writeCur.toNat_lt
    rw [hsize, UInt64.le_iff_toNat_le, UInt64.toNat_add, UInt32.toNat_toUInt64]
    simp only [UInt64.toNat_zero]
    omega
  constructor
  · intro h
    refine whileLoop_of_done ?_
    simp only [transcodeStep, if_pos hlt, UInt64.add_zero, hchar, Except.ok_bind, hx, hsizeOf,
      if_neg fun hle => hfits.1 hle h]
    rfl
  · intro h hm
    have hne : charBytes encoded dst.enc ≠ [] := by
      intro h0
      have hlen := length_charBytes encoded dst.enc
      rw [h0] at hlen
      exact absurd hlen (Nat.ne_of_lt hpos)
    obtain ⟨e, he⟩ := writeBytes_error (p := dst.base + dst.writeCur) hne hm
    refine ⟨e, whileLoop_of_error ?_⟩
    simp only [transcodeStep, if_pos hlt, UInt64.add_zero, hchar,
      Except.ok_bind, hx, hsizeOf, hstored, if_pos (hfits.2 h), he, Except.error_bind]

/-! ### Runs -/

namespace StringOp

theorem append_refuses (hsize : dst.size = 0) {op : AppendOp} (hpre : (append op).Pre (dst, m)) :
    Refuses (op.exec (dst, m)) dst m ((append op).Rejected (dst, m)) := by
  cases op with
  | appendCharToString src =>
    have hpos := (getMultibyteCharSize_le src dst.enc).1
    have hne : (getMultibyteCharSize src dst.enc).toUInt64 ≠ 0 := fun h => by
      rw [← UInt64.toNat_inj, UInt32.toNat_toUInt64] at h
      exact absurd h (Nat.ne_of_gt hpos)
    have h : Refuses (appendCharToString src dst m) dst m _ := appendToString_refuses hsize hne
    rwa [UInt32.toNat_toUInt64] at h
  | appendDataToString src srcSize => exact appendToString_refuses hsize hpre
  | appendStringToString src =>
    show Refuses (if src.enc = dst.enc then appendBufferToString (src.toBuffer.view m) dst m
      else transcode src dst m) dst m (if src.enc = dst.enc then _ else _)
    by_cases henc : src.enc = dst.enc
    · rw [if_pos henc, if_pos henc]
      exact appendToString_refuses hsize hpre.1
    · rw [if_neg henc, if_neg henc]
      exact transcode_refuses hsize hpre.1 (hpre.2 henc)
  | appendIntToString integer =>
    obtain ⟨rest, total, htotal, heq⟩ := appendIntToString_eq integer dst m
    show Refuses (appendIntToString integer dst m) dst m _
    rw [heq]
    exact appendLaid_refuses hsize htotal (intSize_le integer dst.enc)
  | appendUIntToString integer =>
    obtain ⟨rest, total, htotal, heq⟩ := appendUIntToString_eq integer dst m
    show Refuses (appendUIntToString integer dst m) dst m _
    rw [heq]
    exact appendLaid_refuses hsize htotal (uintSize_le integer dst.enc)

/-- What may be written matters neither to the callers nor to whether a call is rejected. -/
theorem pre_withWritable (op : StringOp) (w : Ptr → Bool) :
    op.Pre (dst, m.withWritable w) ↔ op.Pre (dst, m) := by
  rcases op with _ | _ | _ | op
  case append => cases op <;> exact Iff.rfl
  all_goals exact Iff.rfl

theorem rejected_withWritable (op : StringOp) (w : Ptr → Bool) :
    op.Rejected (dst, m.withWritable w) ↔ op.Rejected (dst, m) := by
  rcases op with _ | _ | _ | op
  case append => cases op <;> exact Iff.rfl
  all_goals exact Iff.rfl

/-- Every call but `AdvanceString` is an append. -/
theorem exec_cases (hsize : dst.size = 0) {op : StringOp} (hpre : op.Pre (dst, m)) :
    (∃ numChars, op = advanceString numChars) ∨
      ∃ x, Refuses x dst m (op.Rejected (dst, m)) ∧
      op.exec (dst, m) = x >>= fun (r, s) => pure (some r, s) := by
  cases op with
  | advanceString numChars => exact .inl ⟨numChars, rfl⟩
  | appendDataToBuffer src srcSize => exact .inr ⟨_, appendToString_refuses hsize hpre, rfl⟩
  | appendBufferToBuffer src => exact .inr ⟨_, appendToString_refuses hsize hpre, rfl⟩
  | append op => exact .inr ⟨_, append_refuses hsize hpre, rfl⟩

theorem exec_of_rejected (hsize : dst.size = 0) {op : StringOp} (hpre : op.Pre (dst, m))
    (h : op.Rejected (dst, m)) : ∃ r, r ≠ some true ∧ op.exec (dst, m) = .ok (r, dst, m) := by
  obtain ⟨numChars, rfl⟩ | ⟨x, hx, hexec⟩ := exec_cases hsize hpre
  · obtain rfl : numChars = 0 := h
    refine ⟨none, by decide, ?_⟩
    rw [exec, advanceString_spec hpre.1.reads hpre.2]
    simp [skipBytes, String.advanced]
  · refine ⟨some false, by decide, ?_⟩
    rw [hexec, hx.rejected h]
    rfl

/-- Any other call writes to memory, or changes the size. -/
theorem exec_of_not_rejected (hsize : dst.size = 0) {op : StringOp} (hpre : op.Pre (dst, m))
    (h : ¬ op.Rejected (dst, m)) (hm : ∀ p, m.writable p = false) :
    ¬ (op.exec (dst, m)).wp fun (_, s') => s'.1.size = 0 := by
  obtain ⟨numChars, rfl⟩ | ⟨x, hx, hexec⟩ := exec_cases hsize hpre
  · have hcur := dst.writeCur.toNat_lt
    have hle := hpre.2
    have hnum : 0 < numChars.toNat := Nat.pos_of_ne_zero fun h0 => h (UInt64.toNat_inj.1 h0)
    have hskip : 0 < skipBytes dst.enc numChars.toNat (m.bytesFrom dst.base) := skipBytes_pos hnum _
    rw [exec, advanceString_spec hpre.1.reads hle, Except.ok_bind, Except.wp_pure]
    intro h0
    have h0' : (0 : Usz) - UInt64.ofNat (skipBytes dst.enc numChars.toNat (m.bytesFrom dst.base)) =
      0 := hsize ▸ h0
    rw [← UInt64.toNat_inj, UInt64.toNat_sub, UInt64.toNat_ofNat'] at h0'
    simp only [UInt64.toNat_zero] at h0'
    omega
  · obtain ⟨e, he⟩ := hx.writes h hm
    rw [hexec, he]
    exact id

end StringOp

/-- A run on a string of size `0` writes nothing exactly if each of its calls is rejected. -/
theorem neverWritten_iff (ops : List StringOp) (dst : String) (m : Mem) (hsize : dst.size = 0)
    (hpre : Respects StringOp.exec (fun s op => op.Pre s) ops (dst, m)) :
    NeverWritten ops dst m ↔ ∀ op ∈ ops, op.Rejected (dst, m) := by
  induction ops with
  | nil => exact ⟨fun _ => nofun, fun _ _ => trivial⟩
  | cons op ops ih =>
    obtain ⟨hop, hrest⟩ := hpre
    rw [List.forall_mem_cons]
    by_cases hrej : op.Rejected (dst, m)
    · -- the run goes on in the state it began in
      have hstep : ∀ w, ∃ r, r ≠ some true ∧ op.exec (dst, m.withWritable w) =
        .ok (r, dst, m.withWritable w) := fun w =>
        StringOp.exec_of_rejected hsize ((op.pre_withWritable w).2 hop)
          ((op.rejected_withWritable w).2 hrej)
      obtain ⟨r, -, hexec⟩ := StringOp.exec_of_rejected hsize hop hrej
      rw [← ih (hrest r _ hexec)]
      refine ⟨fun h => ⟨hrej, fun w => ?_⟩, fun h w => ?_⟩
      · obtain ⟨r, -, hexec⟩ := hstep w
        exact ((always_cons_of_eq hexec).1 (h w)).2
      · obtain ⟨r, hr, hexec⟩ := hstep w
        exact (always_cons_of_eq hexec).2 ⟨⟨hsize, hr, rfl⟩, h.2 w⟩
    · -- where nothing may be written, the run stops here
      have hfault :=
        StringOp.exec_of_not_rejected hsize ((op.pre_withWritable fun _ => false).2 hop)
        (fun h => hrej ((op.rejected_withWritable _).1 h)) fun _ => rfl
      refine ⟨fun h => absurd ?_ hfault, fun h => absurd h.1 hrej⟩
      exact (h fun _ => false).mono fun _ h => h.1.size

end

/-! `StringLit("abc")` at address `16`, in memory all of which may be written. -/

def abcMem : Mem :=
  ⟨fun a => if a = 16 then 97 else if a = 17 then 98 else if a = 18 then 99 else 0, fun _ => true,
  fun _ => true⟩

def abcLit : String := { base := 16, writeCur := 3, size := 0, enc := .ascii }

/-- Appending `d` to the literal succeeds, and writes behind it. -/
theorem literal_written :
    abcLit.size = 0 ∧ Respects StringOp.exec (fun s op => op.Pre s)
      [.append (.appendCharToString 100)] (abcLit, abcMem) ∧
      ¬ NeverWritten [.append (.appendCharToString 100)] abcLit abcMem ∧
      ∃ s', StringOp.exec (.append (.appendCharToString 100))
        (abcLit, abcMem) = .ok (some true, s') ∧
        abcMem.byte 19 = 0 ∧ s'.2.byte 19 = 100 ∧ s'.1.writeCur = 4 ∧ s'.1.size = 0 := by
  refine ⟨rfl, ⟨trivial, fun _ _ _ => trivial⟩, fun h => ?_, ⟨_, rfl, by decide +kernel⟩⟩
  obtain ⟨⟨-, hfalse, -⟩, -⟩ := h fun _ => true
  exact hfalse rfl

/-- Rejected calls keep the state, and with it what the caller of the rest has to grant. -/
theorem respects_append {ops rest : List StringOp} {dst : String} {m : Mem} (hsize : dst.size = 0)
    (hpre : ∀ op ∈ ops, op.Pre (dst, m)) (hrej : ∀ op ∈ ops, op.Rejected (dst, m))
    (hrest : Respects StringOp.exec (fun s op => op.Pre s) rest (dst, m)) :
    Respects StringOp.exec (fun s op => op.Pre s) (ops ++ rest) (dst, m) := by
  induction ops with
  | nil => exact hrest
  | cons op ops ih =>
    rw [List.forall_mem_cons] at hpre hrej
    obtain ⟨r, -, hexec⟩ := StringOp.exec_of_rejected hsize hpre.1 hrej.1
    refine ⟨hpre.1, fun r' s' h => ?_⟩
    cases hexec.symm.trans h
    exact ih hpre.2 hrej.2

/-- Calls the literal rejects: a text in another encoding, no characters, and more bytes than follow
it. -/
def refused : List StringOp :=
  [.append (.appendStringToString { base := 16, writeCur := 2, size := 0, enc := .utf16le }),
    .advanceString 0, .appendDataToBuffer 16 uszMax]

theorem refused_pre : ∀ op ∈ refused, op.Pre (abcLit, abcMem) := by
  rw [refused, List.forall_mem_cons, List.forall_mem_cons, List.forall_mem_singleton]
  exact ⟨⟨by decide, fun _ _ _ => rfl⟩, ⟨fun _ _ => rfl, Nat.zero_le _⟩, (by decide : uszMax ≠ 0)⟩

theorem refused_rejected : ∀ op ∈ refused, op.Rejected (abcLit, abcMem) := by
  rw [refused, List.forall_mem_cons, List.forall_mem_cons, List.forall_mem_singleton]
  refine ⟨?_, rfl, .inr (by decide)⟩
  rw [StringOp.Rejected, if_neg (by decide)]
  decide

/-- The run writes nothing until a character is appended behind it. -/
theorem neverWritten_iff_refused : NeverWritten refused abcLit abcMem ∧
    ¬ NeverWritten (refused ++ [.append (.appendCharToString 100)]) abcLit abcMem := by
  have hrespects : ∀ rest, Respects StringOp.exec (fun s op => op.Pre s) rest (abcLit, abcMem) →
      Respects StringOp.exec (fun s op => op.Pre s) (refused ++ rest) (abcLit, abcMem) :=
    fun rest => respects_append rfl refused_pre refused_rejected
  constructor
  · exact (neverWritten_iff refused abcLit abcMem rfl
      (List.append_nil refused ▸ hrespects [] trivial)).2 refused_rejected
  · intro h
    have hall :=
      (neverWritten_iff _ abcLit abcMem rfl (hrespects [.append (.appendCharToString 100)]
      ⟨trivial, fun _ _ _ => trivial⟩)).1 h
    have hchar : StringOp.NoRoom 3 1 := hall (.append (.appendCharToString 100)) (by simp)
    exact absurd hchar (by unfold StringOp.NoRoom; decide)

end TinyBase
