import TinyBase.StringSpec

/-!
# ASCII text in the six encodings

The functions that write and read numbers give every character the same size, `digitSize`, of which
the byte at `digitOffset` is the character and the others are zero. For ASCII characters this is the
text as the encoding prescribes it (`textBytes`), and `GetNextChar` reads the characters back one by
one.
-/

namespace TinyBase
open Unicode

/-- The bytes of the characters `cs`, all ASCII. -/
def textBytes : Encoding → List Char → List UInt8
  | .ascii, cs => cs.map fun c => UInt8.ofNat c.toNat
  | .utf8, cs => Form.utf8.encode cs
  | .utf16le, cs => Form.utf16le.encode cs
  | .utf16be, cs => Form.utf16be.encode cs
  | .utf32le, cs => Form.utf32le.encode cs
  | .utf32be, cs => Form.utf32be.encode cs

/-- One character of the layout. -/
def wideChar (enc : Encoding) (b : UInt8) : List UInt8 :=
  (List.replicate (digitSize enc).toNat 0).set (digitOffset enc).toNat b

@[simp] theorem length_wideChar (enc : Encoding) (b : UInt8) :
    (wideChar enc b).length = (digitSize enc).toNat := by
  simp [wideChar]

theorem digitSize_le (enc : Encoding) :
    (digitOffset enc).toNat < (digitSize enc).toNat ∧ (digitSize enc).toNat ≤ 4 := by
  cases enc <;> decide

section
variable {enc : Encoding} {c : Char} {cs : List Char}

@[simp] theorem textBytes_nil : textBytes enc [] = [] := by
  cases enc <;> rfl

theorem textBytes_append (cs ds : List Char) :
    textBytes enc (cs ++ ds) = textBytes enc cs ++ textBytes enc ds := by
  cases enc <;> simp [textBytes]

theorem textBytes_cons (c : Char) (cs : List Char) :
    textBytes enc (c :: cs) = textBytes enc [c] ++ textBytes enc cs :=
  textBytes_append [c] cs

theorem charBytes_eq_wideChar {x : MbChar} (hx : x.toNat < 128) (enc : Encoding) :
    charBytes x enc = wideChar enc (UInt8.ofNat x.toNat) ∧
      (getMultibyteCharSize x enc).toNat = (digitSize enc).toNat := by
  have hle (b : UInt32) (hb : 128 ≤ b.toNat) : x ≤ b := UInt32.le_iff_toNat_le.2 (by omega)
  have hff : x ≤ 0xFF := hle _ (by decide)
  have hffff : x ≤ 0xFFFF := hle _ (by decide)
  have h16 := toNat_flipEndian16x2 x
  have h32 : (flipEndian32 x).toNat = x.toNat * 16777216 := by
    have hdiv (k : Nat) (hk : 128 ≤ k) : x.toNat / k = 0 := Nat.div_eq_of_lt (by omega)
    rw [toNat_flipEndian32, hdiv 16777216 (by decide), hdiv 65536 (by decide), hdiv 256 (by decide),
      Nat.mod_eq_of_lt (a := x.toNat) (by omega)]
    omega
  cases enc with
  | ascii | utf8 =>
    rw [charBytes, getMultibyteCharSize, if_pos hff]
    exact ⟨leBytes_one (by show x.toNat < 256; omega), rfl⟩
  | utf16le =>
    rw [charBytes, getMultibyteCharSize, if_pos hffff]
    refine ⟨?_, rfl⟩
    show leBytes 2 x.toNat = _
    rw [show x.toNat = x.toNat + 0 * 256 by omega, leBytes_two (by omega) (by decide),
      Nat.zero_mul, Nat.add_zero]
    rfl
  | utf16be =>
    rw [charBytes, getMultibyteCharSize, if_pos hffff]
    refine ⟨?_, rfl⟩
    show leBytes 2 (flipEndian16x2 x).toNat = _
    rw [show (flipEndian16x2 x).toNat = 0 + x.toNat * 256 by omega,
      leBytes_two (by decide) (by omega)]
    rfl
  | utf32le =>
    rw [charBytes, getMultibyteCharSize]
    refine ⟨?_, rfl⟩
    show leBytes 4 x.toNat = _
    rw [show x.toNat = x.toNat + 0 * 256 + 0 * 65536 + 0 * 16777216 by omega,
      leBytes_four (by omega) (by decide) (by decide) (by decide)]
    simp only [Nat.zero_mul, Nat.add_zero]
    rfl
  | utf32be =>
    rw [charBytes, getMultibyteCharSize]
    refine ⟨?_, rfl⟩
    show leBytes 4 (flipEndian32 x).toNat = _
    rw [show (flipEndian32 x).toNat = 0 + 0 * 256 + 0 * 65536 + x.toNat * 16777216 by omega,
      leBytes_four (by decide) (by decide) (by decide) (by omega)]
    rfl

/-- An ASCII character is itself in every encoding scheme. -/
theorem packed_of_lt (hc : c.toNat < 128) (F : Form) : packed F c = c.val := by
  have h80 : c.val < 0x80 := UInt32.lt_iff_toNat_lt.2 hc
  have hffff : ¬ c.val > 0xFFFF := fun h => by
    have := UInt32.lt_iff_toNat_lt.1 h
    have : c.val.toNat < 128 := hc
    simp at *
    omega
  cases F with
  | utf8 => exact if_pos h80
  | utf16le | utf16be => exact if_neg hffff
  | utf32le | utf32be => rfl

/-- In UTF-8 the first byte of any other character is from 0x80 on. -/
theorem utf8EncodeChar_first (c : Char) :
    ∃ b bs, String.utf8EncodeChar c = b :: bs ∧
      (b.toUInt32 = c.val ∨ 128 ≤ c.toNat ∧ 128 ≤ b.toNat) := by
  have hv := scalar_lt c
  have hval : c.val.toNat = c.toNat := rfl
  rw [← hval]
  simp only [String.utf8EncodeChar, ← UInt32.toNat_inj, UInt8.toNat_toUInt32]
  generalize c.val.toNat = v at hv
  split_ifs with h1 h2 h3
  · refine ⟨_, _, rfl, .inl ?_⟩
    rw [UInt8.toNat_ofNat']
    omega
  all_goals
    refine ⟨_, _, rfl, .inr ⟨by omega, ?_⟩⟩
    rw [UInt8.toNat_ofNat']
    omega

theorem textBytes_singleton (hc : c.toNat < 128) (enc : Encoding) :
    textBytes enc [c] = wideChar enc (UInt8.ofNat c.toNat) := by
  have hF (F : Form) : F.encode [c] = wideChar (encodingOf F) (UInt8.ofNat c.toNat) := by
    rw [Form.encode_cons, Form.encode_nil, List.append_nil, bytes_eq, packed_of_lt hc]
    exact (charBytes_eq_wideChar hc _).1
  cases enc with
  | ascii => rfl
  | utf8 => exact hF .utf8
  | utf16le => exact hF .utf16le
  | utf16be => exact hF .utf16be
  | utf32le => exact hF .utf32le
  | utf32be => exact hF .utf32be

theorem textBytes_eq (hcs : ∀ c ∈ cs, c.toNat < 128) :
    textBytes enc cs = (cs.map fun c => UInt8.ofNat c.toNat).flatMap (wideChar enc) := by
  induction cs with
  | nil => simp
  | cons c cs ih =>
    rw [textBytes_cons, textBytes_singleton (hcs c List.mem_cons_self),
      ih fun d hd => hcs d (List.mem_cons_of_mem c hd), List.map_cons, List.flatMap_cons]

@[simp] theorem length_flatMap_wideChar (bs : List UInt8) :
    (bs.flatMap (wideChar enc)).length = bs.length * (digitSize enc).toNat := by
  simp [List.length_flatMap, List.map_const']

theorem length_textBytes (hcs : ∀ c ∈ cs, c.toNat < 128) :
    (textBytes enc cs).length = cs.length * (digitSize enc).toNat := by
  rw [textBytes_eq hcs, length_flatMap_wideChar, List.length_map]

theorem wideChar_inj {a b : UInt8} (h : wideChar enc a = wideChar enc b) : a = b := by
  have hoff := (digitSize_le enc).1
  have hget (x : UInt8) : (wideChar enc x)[(digitOffset enc).toNat]? = some x := by
    rw [wideChar, List.getElem?_set_self (by simpa using hoff)]
  simpa [hget] using congrArg (fun l : List UInt8 => l[(digitOffset enc).toNat]?) h

theorem flatMap_wideChar_inj {as bs : List UInt8}
    (h : as.flatMap (wideChar enc) = bs.flatMap (wideChar enc)) : as = bs := by
  have hpos := (digitSize_le enc).1
  induction as generalizing bs with
  | nil =>
    cases bs with
    | nil => rfl
    | cons b bs =>
      have hlen := congrArg List.length h
      simp only [length_flatMap_wideChar, List.length_cons, Nat.succ_mul, List.length_nil] at hlen
      omega
  | cons a as ih =>
    cases bs with
    | nil =>
      have hlen := congrArg List.length h
      simp only [length_flatMap_wideChar, List.length_cons, Nat.succ_mul, List.length_nil] at hlen
      omega
    | cons b bs =>
      obtain ⟨hhead, htail⟩ := List.append_inj h (by simp)
      rw [wideChar_inj hhead, ih htail]

end

/-! ### Reading the characters back -/

/-- `s` holds the ASCII characters `cs`, and nothing else. -/
structure HoldsAscii (m : Mem) (s : String) (cs : List Char) : Prop where
  ascii : ∀ c ∈ cs, c.toNat < 128
  len : s.writeCur.toNat = (textBytes s.enc cs).length
  bytes : Holds m.read s.base (textBytes s.enc cs)

theorem nextChar_wideChar {f : Nat → UInt8} {x : MbChar} {enc : Encoding} (hx : x.toNat < 128)
    (hf : ∀ i < (digitSize enc).toNat, f i = (wideChar enc (UInt8.ofNat x.toNat)).getD i 0) :
    nextChar f enc = x ∧ (nextCharSize f enc).toNat = (digitSize enc).toNat := by
  obtain ⟨hbytes, hsize⟩ := charBytes_eq_wideChar hx enc
  have hnext : nextCharSize f enc = getMultibyteCharSize x enc := by
    apply UInt32.toNat_inj.1
    rw [hsize]
    have h128 : UInt8.ofNat x.toNat ≤ 0x7f := by
      rw [UInt8.le_iff_toNat_le, UInt8.toNat_ofNat']
      simp
      omega
    cases enc with
    | ascii | utf32le | utf32be => rfl
    | utf8 =>
      rw [nextCharSize, hf 0 (by decide), utf8CharSize, if_pos]
      · rfl
      · exact h128
    | utf16le =>
      rw [nextCharSize, utf16LECharSize, hf 1 (by decide)]
      rfl
    | utf16be =>
      rw [nextCharSize, utf16BECharSize, hf 0 (by decide)]
      rfl
  refine ⟨nextChar_charBytes hnext fun i hi => ?_, by rw [hnext, hsize]⟩
  rw [hf i (by omega), hbytes]

namespace HoldsAscii
variable {m : Mem} {s : String} {cs : List Char} {c : Char}

theorem length_eq (h : HoldsAscii m s cs) :
    s.writeCur.toNat = cs.length * (digitSize s.enc).toNat := by
  rw [h.len, length_textBytes h.ascii]

/-- `GetNextChar` behind the characters `pre`. -/
theorem getNextChar_eq {pre post : List Char} (h : HoldsAscii m s (pre ++ c :: post)) {idx : Usz}
    (hidx : idx.toNat = pre.length * (digitSize s.enc).toNat) :
    getNextChar m.read (s.base + idx) s.enc = .ok c.val := by
  have hpre : ∀ d ∈ pre, d.toNat < 128 := fun d hd => h.ascii d (List.mem_append_left _ hd)
  have hc : c.toNat < 128 := h.ascii c (List.mem_append_right _ List.mem_cons_self)
  have hlt := s.writeCur.toNat_lt
  have hlen := h.length_eq
  rw [List.length_append, List.length_cons, Nat.add_mul, Nat.succ_mul] at hlen
  have hf : ∀ i < (digitSize s.enc).toNat,
      shift ((textBytes s.enc (pre ++ c :: post)).getD · 0) idx.toNat i =
      (wideChar s.enc (UInt8.ofNat c.val.toNat)).getD i 0 := by
    intro i hi
    rw [textBytes_append, textBytes_cons, textBytes_singleton hc, hidx, ← length_textBytes hpre,
      shift_getD_append]
    exact getD_append_left (by rw [length_wideChar]; exact hi)
  obtain ⟨hchar, hsize⟩ := nextChar_wideChar hc hf
  have hreads : Reads m.read (s.base + idx) (digitSize s.enc).toNat _ :=
    h.bytes.shift idx (by rw [← h.len]; omega) (by omega)
  rw [← hchar]
  exact TinyBase.getNextChar_eq (hreads.mono (Nat.le_of_eq hsize))

theorem getNextChar_head (h : HoldsAscii m s (c :: cs)) :
    getNextChar m.read s.base s.enc = .ok c.val := by
  have h' : HoldsAscii m s ([] ++ c :: cs) := h
  have hidx : (0 : Usz).toNat = ([] : List Char).length * (digitSize s.enc).toNat := by simp
  simpa using h'.getNextChar_eq hidx

end HoldsAscii

end TinyBase
