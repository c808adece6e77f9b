import TinyBase.StringLen
import TinyBase.Utf8Search

/-!
# Moving through a string

`StringLen` counts the code points of a string in a way of its own for each encoding,
`AdvanceString` takes characters off its front by `GetNextCharSize`. On the encoding of a list both
are about its elements. `EatNextChar` should move a pointer in the same way, and leaves it where it
is.
-/

namespace TinyBase
open Unicode

/-! ### Counting block by block -/

section
variable {α : Type} {start stop : Usz} {charAt : Usz → Res (Bool × UInt32)}

/-- A loop that goes through the blocks `xs` one by one and looks at each. -/
theorem countLoop_blocks (size : α → Nat) (counted : α → Bool) (xs : List α)
    (hstop : start.toNat + (xs.map size).sum = stop.toNat)
    (hchar : ∀ pre x post, xs = pre ++ x :: post → ∀ cur : Usz,
      cur.toNat = start.toNat + (pre.map size).sum →
      0 < size x ∧ ∃ w : UInt32, charAt cur = .ok (counted x, w) ∧ w.toNat = size x) :
    countLoop start stop charAt = .ok (UInt64.ofNat (xs.countP counted)) := by
  have hlt := stop.toNat_lt
  refine Except.wp_eq.1 (wp_whileLoop (fun st => ∃ pre post, xs = pre ++ post ∧
    st.1.toNat = start.toNat + (pre.map size).sum ∧ st.2 = UInt64.ofNat (pre.countP counted))
    (fun st => stop.toNat - st.1.toNat) ?_ _
      ⟨[], xs, rfl, rfl, rfl⟩ (Nat.lt_of_le_of_lt (Nat.sub_le _ _) hlt))
  rintro ⟨cur, result⟩ ⟨pre, post, rfl, hcur, rfl⟩
  have hcur : cur.toNat = start.toNat + (pre.map size).sum := hcur
  rw [List.map_append, List.sum_append] at hstop
  rw [Except.wp_ite]
  cases post with
  | nil =>
    have hend : ¬ cur < stop := fun h => by
      have := UInt64.lt_iff_toNat_lt.1 h
      rw [List.map_nil, List.sum_nil] at hstop
      omega
    refine ⟨fun h => absurd h hend, fun _ => ?_⟩
    rw [Except.wp_pure, Ctl.post_done, List.append_nil]
  | cons x post =>
    obtain ⟨hpos, w, hw, hsize⟩ := hchar pre x post rfl cur hcur
    rw [List.map_cons, List.sum_cons] at hstop
    refine ⟨fun _ => ?_, fun h => absurd (UInt64.lt_iff_toNat_lt.2 (by omega)) h⟩
    have hnext : (cur + w.toUInt64).toNat = start.toNat + ((pre ++ [x]).map size).sum := by
      rw [UInt64.toNat_add, UInt32.toNat_toUInt64, hsize, hcur, List.map_append,
        List.sum_append, List.map_singleton,
        List.sum_singleton, Nat.mod_eq_of_lt (by omega), Nat.add_assoc]
    rw [hw, Except.ok_bind, Except.wp_pure, Ctl.post_next]
    refine ⟨⟨pre ++ [x], post, by simp, hnext, ?_⟩, ?_⟩
    · rw [List.countP_append, UInt64.ofNat_add]
      cases hx : counted x <;> simp [hx]
    · show stop.toNat - (cur + w.toUInt64).toNat < stop.toNat - cur.toNat
      rw [hnext, List.map_append, List.sum_append, List.map_singleton, List.sum_singleton]
      omega

end

/-! ### `StringLen` -/

section
variable {F : Form} {m : Mem} {s : String} {cs : List Char}

theorem length_encode (F : Form) (cs : List Char) :
    (F.encode cs).length = (cs.map fun c => (F.bytes c).length).sum := by
  rw [Form.encode, List.length_flatMap]

theorem lead_iff (b : UInt8) : decide (b &&& 0xc0 ≠ 0x80) = true ↔ Lead b := by
  have hbits : ∀ n < 256, (n &&& 0xc0 = 0x80 ↔ n / 64 = 2) := by decide +kernel
  have hb := hbits b.toNat b.toNat_lt
  rw [decide_eq_true_iff, Lead, not_iff_not, ← hb, ← UInt8.toNat_inj, UInt8.toNat_and]
  rfl

theorem length_bytes_utf32 (hF : F = .utf32le ∨ F = .utf32be) (c : Char) :
    (F.bytes c).length = 4 := by
  rcases hF with rfl | rfl
  · exact length_leBytes _ _
  · exact (List.length_reverse ..).trans (length_leBytes _ _)

theorem utf8LenCodePoints_text (h : HoldsText m s .utf8 cs) :
    utf8LenCodePoints s m = .ok (UInt64.ofNat cs.length) := by
  have hcount : (Form.utf8.encode cs).countP (fun b => decide (b &&& 0xc0 ≠ 0x80)) = cs.length :=
    synchronising_utf8.countP_lead lead_iff
  rw [← hcount, utf8LenCodePoints, countByIdx]
  refine countLoop_blocks (fun _ => 1) _ (Form.utf8.encode cs) (by simp [h.len])
    fun pre b post hbytes cur hcur => ?_
  have hcur' : cur.toNat = pre.length := by simpa using hcur
  have hread := h.bytes cur (by rw [hbytes, hcur', List.length_append, List.length_cons]; omega)
  rw [hbytes, hcur'] at hread
  simp only [List.getD_append_right, Nat.le_refl, Nat.sub_self, List.getD_cons_zero] at hread
  exact ⟨Nat.one_pos, 1, by rw [hread]; rfl, rfl⟩

theorem utf16LenCodePoints_text (h : HoldsText m s F cs) :
    countByIdx s (fun ptr => do let size ← getNextCharSize m.read ptr s.enc; pure (true, size)) =
      .ok (UInt64.ofNat cs.length) := by
  have hcount : cs.countP (fun _ => true) = cs.length := congrFun List.countP_true cs
  rw [← hcount, countByIdx]
  refine countLoop_blocks (fun c => (F.bytes c).length) _ cs (by rw [h.len, length_encode]; simp)
    fun pre c post hcs cur hcur => ?_
  subst hcs
  obtain ⟨-, size, hsize, hlen⟩ := h.next (by rw [hcur, length_encode]; simp)
  exact ⟨length_bytes_pos F c, size, by rw [hsize]; rfl, hlen⟩

theorem utf32LenCodePoints_text (h : HoldsText m s F cs) (hF : F = .utf32le ∨ F = .utf32be) :
    s.writeCur / 4 = UInt64.ofNat cs.length := by
  have hlen : (F.encode cs).length = 4 * cs.length := by
    rw [length_encode, List.map_congr_left fun c _ => length_bytes_utf32 hF c, List.map_const',
      List.sum_replicate_nat, Nat.mul_comm]
  have hlt := s.writeCur.toNat_lt
  apply UInt64.toNat_inj.1
  rw [UInt64.toNat_div, h.len, hlen, UInt64.toNat_ofNat',
    Nat.mod_eq_of_lt (a := cs.length) (by rw [h.len, hlen] at hlt; omega)]
  exact Nat.mul_div_cancel_left _ (by decide)

/-- `LEN_CODEPOINT` is the number of scalar values. -/
theorem stringLen_codepoint_text (h : HoldsText m s F cs) :
    stringLen s .codepoint m = .ok (UInt64.ofNat cs.length) := by
  have henc := h.enc
  rw [stringLen, henc]
  cases F with
  | utf8 => exact utf8LenCodePoints_text h
  | utf16le | utf16be =>
    have hlen := utf16LenCodePoints_text h
    rwa [henc] at hlen
  | utf32le => exact congrArg Except.ok (utf32LenCodePoints_text h (.inl rfl))
  | utf32be => exact congrArg Except.ok (utf32LenCodePoints_text h (.inr rfl))

/-! ### `AdvanceString` -/

theorem HoldsText.advanced {pre post : List Char} (h : HoldsText m s F (pre ++ post)) :
    HoldsText m (s.advanced (F.encode pre).length) F post := by
  have hlt := s.writeCur.toNat_lt
  have hlen := h.len
  rw [Form.encode_append, List.length_append] at hlen
  have hpre : (UInt64.ofNat (F.encode pre).length).toNat = (F.encode pre).length :=
    UInt64.toNat_ofNat_of_lt_two_pow (by omega)
  refine ⟨h.enc, ?_, h.reads_shift hpre⟩
  show (s.writeCur - UInt64.ofNat _).toNat = _
  rw [UInt64.toNat_sub_of_toNat_le (by omega), hpre]
  omega

theorem length_le_encode (F : Form) (cs : List Char) : cs.length ≤ (F.encode cs).length := by
  induction cs with
  | nil => exact Nat.le_refl 0
  | cons c cs ih =>
    have hpos := length_bytes_pos F c
    rw [Form.encode_cons, List.length_append, List.length_cons]
    omega

theorem HoldsText.length_lt (h : HoldsText m s F cs) : cs.length < 2 ^ 64 :=
  Nat.lt_of_le_of_lt (length_le_encode F cs) (h.len ▸ s.writeCur.toNat_lt)

theorem skipBytes_encode (F : Form) {cs : List Char} {k : Nat} (hk : k ≤ cs.length) :
    skipBytes (encodingOf F) k ((F.encode cs).getD · 0) = (F.encode (cs.take k)).length := by
  induction k generalizing cs with
  | zero => rfl
  | succ k ih =>
    obtain ⟨c, cs, rfl⟩ := List.exists_cons_of_length_pos (Nat.lt_of_lt_of_le (Nat.succ_pos k) hk)
    obtain ⟨-, hsize, -⟩ := walk_cons F c cs
    rw [skipBytes, hsize, Form.encode_cons, shift_getD_append, ih (Nat.le_of_succ_le_succ hk),
      List.take_succ_cons, Form.encode_cons, List.length_append]

/-- `AdvanceString` passes over as many scalar values as asked for. -/
theorem advanceString_text (h : HoldsText m s F cs) {k : Usz} (hk : k.toNat ≤ cs.length) :
    advanceString s k m = .ok (s.advanced (F.encode (cs.take k.toNat)).length) := by
  have hread : Reads m.read s.base s.writeCur.toNat ((F.encode cs).getD · 0) := by
    rw [h.len]
    exact h.bytes
  have hskip := skipBytes_encode F hk
  have hsplit := List.take_append_drop k.toNat cs
  have hle : (F.encode (cs.take k.toNat)).length ≤ s.writeCur.toNat := by
    rw [h.len, ← hsplit, Form.encode_append, List.length_append, hsplit]
    exact Nat.le_add_right ..
  rw [← hskip, ← h.enc] at hle ⊢
  exact advanceString_spec hread hle

end

/-- The code points of an encoded list are counted, and any number of them is taken off the
front. -/
theorem stringLen_advanceString (F : Form) (cs : List Char) (m : Mem)
    (s : String) (h : HoldsText m s F cs) (hsize : s.writeCur ≤ s.size) :
    ((stringLen s .codepoint m).wp fun n => n.toNat = cs.length) ∧
      ∀ k : Usz, k.toNat ≤ cs.length → ∃ s' moved, advanceString s k m = .ok s' ∧
        HoldsText m s' F (cs.drop k.toNat) ∧ s'.base = s.base + moved ∧
        s'.writeCur.toNat + moved.toNat = s.writeCur.toNat ∧
        s'.size.toNat + moved.toNat = s.size.toNat ∧
        (stringLen s' .codepoint m).wp fun n => n.toNat = cs.length - k.toNat := by
  have hcount : ∀ {s cs}, HoldsText m s F cs → (stringLen s .codepoint m).wp fun n =>
      n.toNat = cs.length := fun h => by
    rw [stringLen_codepoint_text h, Except.wp_ok, UInt64.toNat_ofNat_of_lt_two_pow h.length_lt]
  refine ⟨hcount h, fun k hk => ?_⟩
  have hsplit : cs.take k.toNat ++ cs.drop k.toNat = cs := List.take_append_drop _ _
  have hrest : HoldsText m (s.advanced (F.encode (cs.take k.toNat)).length) F (cs.drop k.toNat) :=
    HoldsText.advanced (hsplit.symm ▸ h)
  have hlen := h.len
  rw [← hsplit, Form.encode_append, List.length_append] at hlen
  have hmoved : (UInt64.ofNat (F.encode (cs.take k.toNat)).length).toNat =
      (F.encode (cs.take k.toNat)).length := by
    have hlt := s.writeCur.toNat_lt
    rw [UInt64.toNat_ofNat']
    exact Nat.mod_eq_of_lt (by omega)
  have hcur : UInt64.ofNat (F.encode (cs.take k.toNat)).length ≤ s.writeCur :=
    UInt64.le_iff_toNat_le.2 (by omega)
  refine ⟨_, _, advanceString_text h hk, hrest, rfl, ?_, ?_, ?_⟩
  · exact (congrArg (· + _) (UInt64.toNat_sub_of_le _ _ hcur)).trans
      (Nat.sub_add_cancel (UInt64.le_iff_toNat_le.1 hcur))
  · have hle : UInt64.ofNat (F.encode (cs.take k.toNat)).length ≤ s.size :=
      UInt64.le_trans hcur hsize
    exact (congrArg (· + _) (UInt64.toNat_sub_of_le _ _ hle)).trans
      (Nat.sub_add_cancel (UInt64.le_iff_toNat_le.1 hle))
  · rw [← List.length_drop]
    exact hcount hrest

/-! The text of `euroSrc` without its first character. -/

theorem stringLen_advanceString_euro :
    ((stringLen euroSrc .codepoint euroMem).wp fun n => n.toNat = 2) ∧
    ∃ s' moved, advanceString euroSrc 1 euroMem = .ok s' ∧ HoldsText euroMem s' .utf8 ['😀'] ∧
      s'.base = euroSrc.base + moved ∧ s'.writeCur.toNat + moved.toNat = euroSrc.writeCur.toNat ∧
      s'.size.toNat + moved.toNat = euroSrc.size.toNat ∧
      (stringLen s' .codepoint euroMem).wp fun n => n.toNat = 1 := by
  have hsrc : HoldsText euroMem euroSrc .utf8 euroText :=
    ⟨rfl, by decide, Mem.holds_store fun _ _ => rfl⟩
  obtain ⟨hlen, hadvance⟩ := stringLen_advanceString .utf8 euroText euroMem euroSrc hsrc (by decide)
  exact ⟨hlen, hadvance 1 (by decide)⟩

/-! ### `EatNextChar` -/

/-- `n` calls of `EatNextChar`: the characters, and the pointer after each call. -/
def eatChars (src : Ptr) (enc : Encoding) : Nat → Mem → Res (List (MbChar × Ptr) × Mem)
  | 0, m => pure ([], m)
  | n + 1, m => do
    let (char, m) ← eatNextChar m src enc
    let ptr ← loadPtr m.read src
    let (rest, m) ← eatChars src enc n m
    pure ((char, ptr) :: rest, m)

/-- Each call has moved the pointer by the size of its character. -/
def Moves (enc : Encoding) : Ptr → List (MbChar × Ptr) → Prop
  | _, [] => True
  | ptr, (char, ptr') :: rest =>
    ptr' = ptr + (getMultibyteCharSize char enc).toUInt64 ∧ Moves enc ptr' rest

/-- As many calls as `s` has characters return them in order and leave the pointer at the end. -/
def EatsAll (m : Mem) (s : String) (src : Ptr) (cs : List Char) : Prop :=
  (eatChars src s.enc cs.length m).wp fun (eaten, m') =>
    eaten.map (fun e => decodeChar e.1 s.enc) = cs.map Char.val ∧ Moves s.enc s.base eaten ∧
      loadPtr m'.read src = .ok (s.base + s.writeCur)

section
variable {m m' : Mem} {src ptr : Ptr} {enc : Encoding} {char : MbChar}

theorem loadPtr_storePtr (hread : ∀ i : Usz, i.toNat < 8 → m.readable (src + i))
    (h : storePtr m src ptr = .ok m') : loadPtr m'.read src = .ok ptr := by
  have hlen := length_leBytes 8 ptr.toNat
  have hm := Mem.eq_of_writeBytes (by rw [hlen]; decide) h
  have hholds : Holds m'.read src (leBytes 8 ptr.toNat) := by
    rw [hm]
    exact Mem.holds_store fun i hi => hread i (by rw [← hlen]; exact hi)
  rw [Holds, hlen] at hholds
  rw [loadPtr, readBytes_eq hholds (by decide), Except.ok_bind,
    map_getD_range (Nat.le_of_eq hlen.symm),
    List.take_of_length_le (Nat.le_of_eq hlen), ofLeBytes_leBytes ptr.toNat_lt, UInt64.ofNat_toNat]
  rfl

/-- A call of `EatNextChar` does not move the pointer. -/
theorem eatNextChar_keeps (hptr : loadPtr m.read src = .ok ptr)
    (h : eatNextChar m src enc = .ok (char, m')) : loadPtr m'.read src = .ok ptr := by
  obtain ⟨bytes, hbytes, -⟩ := Except.bind_eq_ok.1 hptr
  rw [eatNextChar, hptr, Except.ok_bind, Except.bind_eq_ok] at h
  obtain ⟨size, -, h⟩ := h
  rw [Except.bind_eq_ok] at h
  obtain ⟨_, -, h⟩ := h
  rw [Except.bind_eq_ok] at h
  obtain ⟨m₁, hstore, h⟩ := h
  cases h
  exact loadPtr_storePtr (Mem.readable_of_readBytes hbytes) hstore

end

/-- The calls do what they should only if there is nothing to eat. -/
theorem eatNextChar_text_iff (F : Form) (cs : List Char) (m : Mem) (s : String)
    (src : Ptr) (h : HoldsText m s F cs) (hptr : loadPtr m.read src = .ok s.base) :
    EatsAll m s src cs ↔ cs = [] := by
  constructor
  · intro heats
    cases cs with
    | nil => rfl
    | cons c cs =>
      obtain ⟨⟨eaten, m'⟩, hcalls, hchars, hmoves, -⟩ := Except.wp_iff.1 heats
      rw [List.length_cons, eatChars, Except.bind_eq_ok] at hcalls
      obtain ⟨⟨char, m₁⟩, hfirst, hcalls⟩ := hcalls
      dsimp only at hcalls
      rw [eatNextChar_keeps hptr hfirst, Except.ok_bind, Except.bind_eq_ok] at hcalls
      obtain ⟨⟨rest, m₂⟩, -, hcalls⟩ := hcalls
      cases hcalls
      have hstay : s.base = s.base + (getMultibyteCharSize char s.enc).toUInt64 := hmoves.1
      have hsize := (getMultibyteCharSize_le char s.enc).1
      have hzero : (getMultibyteCharSize char s.enc).toUInt64 = 0 := by grind
      have htoNat := congrArg UInt64.toNat hzero
      rw [UInt32.toNat_toUInt64] at htoNat
      exact absurd htoNat (Nat.pos_iff_ne_zero.1 hsize)
  · rintro rfl
    have hempty : s.writeCur = 0 := UInt64.toNat_inj.1 h.len
    rw [EatsAll, hempty, UInt64.add_zero]
    exact ⟨rfl, trivial, hptr⟩

/-! A pointer at 16 to the text at 64. -/

def cursorMem (bs : List UInt8) : Mem :=
  ((⟨fun _ => 0, fun _ => true, fun _ => true⟩ : Mem).store 16 (leBytes 8 64)).store 64 bs

def cursorText (n : Usz) : String := { base := 64, writeCur := n, size := n, enc := .utf8 }

/-- Two characters are not eaten; of an empty text there is nothing to eat. -/
theorem eatNextChar_text_iff_two :
    ¬ EatsAll (cursorMem [0x41, 0xc3, 0xa9]) (cursorText 3) 16 ['A', 'é'] ∧
    EatsAll (cursorMem []) (cursorText 0) 16 [] := by
  have htwo : HoldsText (cursorMem [0x41, 0xc3, 0xa9]) (cursorText 3) .utf8 ['A', 'é'] :=
    ⟨rfl, by decide, Mem.holds_store fun _ _ => rfl⟩
  have hnone : HoldsText (cursorMem []) (cursorText 0) .utf8 [] :=
    ⟨rfl, rfl, Mem.holds_store fun _ _ => rfl⟩
  have hiff := eatNextChar_text_iff .utf8 ['A', 'é'] (cursorMem [0x41, 0xc3, 0xa9]) (cursorText 3)
    16 htwo (by decide +kernel)
  exact ⟨fun h => List.cons_ne_nil _ _ (hiff.1 h),
    (eatNextChar_text_iff .utf8 [] (cursorMem []) (cursorText 0) 16 hnone (by decide +kernel)).2
    rfl⟩

/-- `EatNextChar` returns the `A` and leaves the pointer in front of it. -/
theorem eatNextChar_stays : HoldsText (cursorMem [65]) (cursorText 1) .utf8 ['A'] ∧
    loadPtr (cursorMem [65]).read 16 = .ok 64 ∧
    ((eatNextChar (cursorMem [65]) 16 .utf8).wp fun (char, m') => char = 65 ∧
      loadPtr m'.read 16 = .ok 64) ∧
    ¬ EatsAll (cursorMem [65]) (cursorText 1) 16 ['A'] := by
  have htext : HoldsText (cursorMem [65]) (cursorText 1) .utf8 ['A'] :=
    ⟨rfl, rfl, Mem.holds_store fun _ _ => rfl⟩
  have hload : loadPtr (cursorMem [65]).read 16 = .ok 64 := by decide +kernel
  have hsize : getNextCharSize (cursorMem [65]).read 16 .utf8 = .ok 1 := by decide +kernel
  have hbytes : readBytes (cursorMem [65]).read 64 (1 : UInt32).toNat = .ok [65] := by
    decide +kernel
  obtain ⟨m', hstore⟩ : ∃ m', storePtr (cursorMem [65]) 16 64 = .ok m' :=
    ⟨_, Mem.writeBytes_eq (fun _ _ => rfl) (by decide)⟩
  have hcall : eatNextChar (cursorMem [65]) 16 .utf8 = .ok (65, m') := by
    rw [eatNextChar, hload, Except.ok_bind, hsize, Except.ok_bind, hbytes, Except.ok_bind, hstore]
    rfl
  have hkept := eatNextChar_keeps hload hcall
  refine ⟨htext, hload, by rw [hcall]; exact ⟨rfl, hkept⟩, fun heats => ?_⟩
  rw [EatsAll, List.length_singleton, show (cursorText 1).enc = .utf8 from rfl, eatChars,
    hcall, Except.ok_bind] at heats
  dsimp only at heats
  rw [hkept] at heats
  exact absurd heats.2.1.1 (by decide)

end TinyBase
