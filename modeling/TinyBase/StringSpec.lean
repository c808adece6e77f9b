import TinyBase.Strings
import TinyBase.Walk

/-!
# What the string functions append

Every function that appends to a string produces some bytes, and either all of them fit in the room
of the string and are appended, or the string stays as it was (`Appended`). The copying functions
leave the memory alone in the second case; a transcoding loop may have written into the room.
-/

namespace TinyBase
open Unicode

/-- The bytes that are left in a string. -/
def String.room (s : String) : Nat := s.size.toNat - s.writeCur.toNat

/-- A string that can be written. No object reaches to the end of the address space, so that
`WriteCur` and the size of a character can be added. -/
structure Writable (m : Mem) (s : String) : Prop where
  cur : s.writeCur ≤ s.size
  small : s.size.toNat + 4 < 2 ^ 64
  free : ∀ i : Usz, i.toNat < s.room → m.writable (s.base + s.writeCur + i)

/-- `s` with `n` more bytes written. -/
def String.grown (s : String) (n : Nat) : String :=
  { s with writeCur := s.writeCur + UInt64.ofNat n }

/-- The result `r` and the state after appending `bs`: all of them, or none. -/
def Appended (s : String) (m : Mem) (bs : List UInt8) (r : Bool) (s' : String) (m' : Mem) : Prop :=
  if bs.length ≤ s.room then r = true ∧ s' = s.grown bs.length ∧
    m' = m.store (s.base + s.writeCur) bs
  else r = false ∧ s' = s ∧ ∃ out : List UInt8, out.length ≤ s.room ∧
    m' = m.store (s.base + s.writeCur) out

/-- The computation `x` appends `bs` to `s` in the memory `m`. -/
def Appends (x : Res (Bool × String × Mem)) (s : String) (m : Mem) (bs : List UInt8) : Prop :=
  x.wp fun (r, s', m') => Appended s m bs r s' m'

section
variable {m : Mem} {s : String}

@[simp] theorem String.grown_zero (s : String) : s.grown 0 = s := by simp [String.grown]

@[simp] theorem String.grown_grown (s : String) (j k : Nat) :
    (s.grown j).grown k = s.grown (j + k) := by
  simp only [String.grown, UInt64.ofNat_add, UInt64.add_assoc]

@[simp] theorem String.grown_base (n : Nat) : (s.grown n).base = s.base := rfl

@[simp] theorem String.grown_size (n : Nat) : (s.grown n).size = s.size := rfl

@[simp] theorem String.grown_enc (n : Nat) : (s.grown n).enc = s.enc := rfl

theorem Writable.of_storage {dst : String} (hbase : s.base = dst.base) (hsize : s.size = dst.size)
    (hcur : s.writeCur.toNat ≤ dst.size.toNat) (hsmall : dst.size.toNat + 4 < 2 ^ 64)
    (hfree : ∀ i : Usz, i.toNat < dst.size.toNat → m.writable (dst.base + i)) : Writable m s := by
  refine ⟨UInt64.le_iff_toNat_le.2 (by rw [hsize]; exact hcur), by rw [hsize]; exact hsmall,
    fun i hi => ?_⟩
  rw [String.room, hsize] at hi
  have hsum : (s.writeCur + i).toNat = s.writeCur.toNat + i.toNat :=
    UInt64.toNat_add_of_lt (by omega)
  rw [hbase, UInt64.add_assoc]
  exact hfree _ (by omega)

theorem Writable.toNat_room (h : Writable m s) : (s.size - s.writeCur).toNat = s.room :=
  UInt64.toNat_sub_of_le _ _ h.cur

theorem Writable.room_eq (h : Writable m s) : s.writeCur.toNat + s.room = s.size.toNat := by
  have := UInt64.le_iff_toNat_le.1 h.cur
  rw [String.room]; omega

theorem Writable.toNat_grown (h : Writable m s) {n : Nat} (hn : n ≤ s.room) :
    (s.grown n).writeCur.toNat = s.writeCur.toNat + n := by
  have := h.room_eq
  have := h.small
  exact UInt64.toNat_add_ofNat (by omega)

theorem Writable.room_grown (h : Writable m s) {n : Nat} (hn : n ≤ s.room) :
    (s.grown n).room = s.room - n := by
  have hcur := h.toNat_grown hn
  have hsize : (s.grown n).size.toNat = s.size.toNat := rfl
  rw [String.room, String.room, hcur, hsize, Nat.sub_add_eq]

theorem Writable.grown (h : Writable m s) {n : Nat} (hn : n ≤ s.room) (m' : Mem)
    (hm : m'.writable = m.writable) : Writable m' (s.grown n) := by
  have hroom := h.room_eq
  have hsmall := h.small
  have hcur := h.toNat_grown hn
  refine ⟨UInt64.le_iff_toNat_le.2 (by rw [hcur]; show _ ≤ s.size.toNat; omega), hsmall,
    fun i hi => ?_⟩
  rw [String.room, hcur] at hi
  have hi' : i.toNat < s.size.toNat - (s.writeCur.toNat + n) := hi
  have hni : (UInt64.ofNat n + i).toNat = n + i.toNat := UInt64.toNat_ofNat_add (by omega)
  have := h.free (UInt64.ofNat n + i) (by omega)
  rw [hm,
    show (s.grown n).base + (s.grown n).writeCur + i = s.base + s.writeCur + (UInt64.ofNat n + i) by
    show s.base + (s.writeCur + UInt64.ofNat n) + i = _
    grind]
  exact this

theorem Writable.store_grown (h : Writable m s) {bs cs : List UInt8}
    (hfits : bs.length + cs.length ≤ s.room) :
    (m.store (s.base + s.writeCur) bs).store
      ((s.grown bs.length).base + (s.grown bs.length).writeCur) cs =
      m.store (s.base + s.writeCur) (bs ++ cs) := by
  have hroom := h.room_eq
  have hsmall := h.small
  show (m.store _ bs).store (s.base + (s.writeCur + UInt64.ofNat bs.length)) cs = _
  rw [← UInt64.add_assoc, Mem.store_append (by omega)]

theorem Appended.of_le {bs : List UInt8} (hle : bs.length ≤ s.room) :
    Appended s m bs true (s.grown bs.length) (m.store (s.base + s.writeCur) bs) := by
  rw [Appended, if_pos hle]
  exact ⟨rfl, rfl, rfl⟩

theorem Appended.of_lt {bs out : List UInt8} (hlt : s.room < bs.length)
    (hout : out.length ≤ s.room) : Appended s m bs false s (m.store (s.base + s.writeCur) out) := by
  rw [Appended, if_neg (Nat.not_le.2 hlt)]
  exact ⟨rfl, rfl, out, hout, rfl⟩

/-- A failed append that writes nothing. -/
theorem Appended.of_lt_of_not_written {bs : List UInt8} (hlt : s.room < bs.length) :
    Appended s m bs false s m :=
  have hout : ([] : List UInt8).length ≤ s.room := Nat.zero_le _
  Appended.of_lt hlt hout

theorem Appends.of_le {x : Res (Bool × String × Mem)} {bs : List UInt8} (h : Appends x s m bs)
    (hle : bs.length ≤ s.room) :
    x = .ok (true, s.grown bs.length, m.store (s.base + s.writeCur) bs) := by
  obtain ⟨⟨r, s', m'⟩, hx, happ⟩ := Except.wp_iff.1 h
  simp only [Appended, if_pos hle] at happ
  obtain ⟨rfl, rfl, rfl⟩ := happ
  exact hx

theorem Appends.of_lt {x : Res (Bool × String × Mem)} {bs : List UInt8} (h : Appends x s m bs)
    (hlt : s.room < bs.length) :
    ∃ out : List UInt8, out.length ≤ s.room ∧
      x = .ok (false, s, m.store (s.base + s.writeCur) out) := by
  obtain ⟨⟨r, s', m'⟩, hx, happ⟩ := Except.wp_iff.1 h
  simp only [Appended, if_neg (Nat.not_le.2 hlt)] at happ
  obtain ⟨rfl, rfl, out, hout, rfl⟩ := happ
  exact ⟨out, hout, hx⟩

theorem Writable.writeBytes (h : Writable m s) {bs : List UInt8} (hbs : bs.length ≤ s.room) :
    m.writeBytes (s.base + s.writeCur) bs = .ok (m.store (s.base + s.writeCur) bs) := by
  have hroom := h.room_eq
  have hsmall := h.small
  exact Mem.writeBytes_eq (fun i hi => h.free i (by omega)) (by omega)

/-! ### Copying -/

/-- A copied append produces the bytes of its source. -/
theorem appendToString_spec (h : Writable m s) {rd : Reader} {src : Ptr}
    {srcSize : Usz} {f : Nat → UInt8} (hsrc : Reads rd src srcSize.toNat f) :
    Appends (appendToString rd src srcSize s m) s m ((List.range srcSize.toNat).map f) := by
  have hlen : ((List.range srcSize.toNat).map f).length = srcSize.toNat := by simp
  by_cases hle : srcSize.toNat ≤ s.room
  · have hfits : ((List.range srcSize.toNat).map f).length ≤ s.room := by rw [hlen]; exact hle
    have hdone := Appended.of_le (m := m) hfits
    rw [hlen, String.grown, UInt64.ofNat_toNat] at hdone
    rw [appendToString,
      appendDataToBuffer_of_le hsrc (UInt64.le_iff_toNat_le.2 (by rw [h.toNat_room]; exact hle))
      fun i hi => h.free i (by omega)]
    exact hdone
  · rw [appendToString,
      appendDataToBuffer_of_lt (UInt64.lt_iff_toNat_lt.2 (by rw [h.toNat_room]; omega))]
    exact Appended.of_lt_of_not_written (by rw [hlen]; omega)

theorem localObject_reads (bs : List UInt8) : Reads (localObject bs) 0 bs.length (bs.getD · 0) :=
  fun i hi => by
  rw [UInt64.zero_add, localObject, if_pos hi]

theorem map_getD_range {bs : List UInt8} {n : Nat} (hn : n ≤ bs.length) :
    (List.range n).map (bs.getD · 0) = bs.take n := by
  refine List.ext_getElem? fun i => ?_
  by_cases hi : i < n
  · simp [hi, Nat.lt_of_lt_of_le hi hn]
  · simp [hi]

/-- `AppendCharToString` produces the bytes of the character. -/
theorem appendCharToString_spec (h : Writable m s) (src : MbChar) :
    Appends (appendCharToString src s m) s m (charBytes src s.enc) := by
  have hsize := getMultibyteCharSize_le src s.enc
  have hlen : (getMultibyteCharSize src s.enc).toUInt64.toNat =
    (getMultibyteCharSize src s.enc).toNat := by simp
  have hle : (getMultibyteCharSize src s.enc).toUInt64.toNat ≤
      (leBytes 4 (adjustEndianness src s.enc).toNat).length := by
    rw [hlen, length_leBytes]; exact hsize.2
  have hsrc := (localObject_reads _).mono hle
  have hbytes : (List.range (getMultibyteCharSize src s.enc).toUInt64.toNat).map
      ((leBytes 4 (adjustEndianness src s.enc).toNat).getD · 0) = charBytes src s.enc := by
    rw [hlen, charBytes]
    refine List.map_congr_left fun i hi => ?_
    rw [List.mem_range] at hi
    exact getD_leBytes (by omega)
  rw [appendCharToString, appendBufferToString_eq, ← hbytes]
  exact appendToString_spec h hsrc

/-! ### Advancing -/

/-- The bytes of the first `k` characters by `GetNextCharSize`. -/
def skipBytes (E : Encoding) : Nat → (Nat → UInt8) → Nat
  | 0, _ => 0
  | k + 1, f => (nextCharSize f E).toNat + skipBytes E k (shift f (nextCharSize f E).toNat)

/-- `s` with its first `k` bytes cut off. -/
def String.advanced (s : String) (k : Nat) : String :=
  { s with base := s.base + UInt64.ofNat k, writeCur := s.writeCur - UInt64.ofNat k,
           size := s.size - UInt64.ofNat k }

theorem skipBytes_pos {E : Encoding} {k : Nat} (hk : 0 < k) (f : Nat → UInt8) :
    0 < skipBytes E k f := by
  obtain ⟨k, rfl⟩ := Nat.exists_eq_succ_of_ne_zero (Nat.ne_of_gt hk)
  have hsize := (nextCharSize_le f E).1
  rw [skipBytes]
  omega

theorem String.advanced_advanced (s : String) (j k : Nat) :
    (s.advanced j).advanced k = s.advanced (j + k) := by
  simp only [String.advanced, UInt64.ofNat_add, String.mk.injEq, Buffer.mk.injEq, and_true]
  refine ⟨?_, ?_, ?_⟩ <;> grind

/-- `AdvanceString` within the string cuts off its first characters, also from its size. -/
theorem advanceString_spec {numChars : Usz} {f : Nat → UInt8}
    (hread : Reads m.read s.base s.writeCur.toNat f)
    (hle : skipBytes s.enc numChars.toNat f ≤ s.writeCur.toNat) :
    advanceString s numChars m = .ok (s.advanced (skipBytes s.enc numChars.toNat f)) := by
  have hcur := s.writeCur.toNat_lt
  generalize htotal : skipBytes s.enc numChars.toNat f = total at hle ⊢
  refine Except.wp_eq.1 (wp_whileLoop (fun st => ∃ k, st.1 = s.advanced k ∧
    k + skipBytes s.enc st.2.toNat (shift f k) = total) (fun st => st.2.toNat) ?_ _
    ⟨0, by simp [String.advanced], by simpa using htotal⟩ numChars.toNat_lt)
  rintro ⟨_, n⟩ ⟨k, rfl, hk⟩
  dsimp only at hk
  rw [Except.wp_ite]
  refine ⟨fun hn => ?_, fun hn => ?_⟩
  · have hpos : 0 < n.toNat := Nat.pos_of_ne_zero fun h => hn (UInt64.toNat_inj.1 h)
    have hpred : (n - 1).toNat + 1 = n.toNat := by
      have hone : (1 : Usz) ≤ n := UInt64.le_iff_toNat_le.2 hpos
      rw [UInt64.toNat_sub_of_le _ _ hone]
      exact Nat.sub_add_cancel hpos
    rw [← hpred, skipBytes, shift_shift] at hk
    have hreads : Reads m.read (s.base + UInt64.ofNat k) (nextCharSize (shift f k) s.enc).toNat
        (shift f k) := by
      have hmod : (UInt64.ofNat k).toNat = k := UInt64.toNat_ofNat_of_lt_two_pow (by omega)
      have hend : (UInt64.ofNat k).toNat + (nextCharSize (shift f k) s.enc).toNat ≤
          s.writeCur.toNat := by rw [hmod]; omega
      have h := hread.shift (UInt64.ofNat k) hend (by omega)
      rwa [hmod] at h
    rw [show getNextCharSize m.read (s.advanced k).base (s.advanced k).enc = _
      from getNextCharSize_eq hreads, Except.ok_bind, Except.wp_pure]
    refine ⟨⟨k + (nextCharSize (shift f k) s.enc).toNat, ?_, (Nat.add_assoc ..).trans hk⟩,
      show (n - 1).toNat < n.toNat by omega⟩
    rw [← String.advanced_advanced]
    simp only [String.advanced, UInt64.ofNat_uInt32ToNat]
  · obtain rfl : n = 0 := not_not.1 hn
    rw [Except.wp_pure]
    show s.advanced k = s.advanced total
    rw [← hk]
    rfl

end

end TinyBase
