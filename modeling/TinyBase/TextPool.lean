import TinyBase.Lib.Simulation
import TinyBase.Arena
import TinyBase.Classify
import TinyBase.NumberRoundTrip
import TinyBase.RepeatedAppend
import TinyBase.Replace
import TinyBase.StringCursor

/-!
# Strings in an arena, as texts

A program gets the memory of its strings from an arena, and calls the functions of
`tinybase-strings.c` on them. Seen from outside, each string is a text (`Text`): a list of Unicode
scalar values in an encoding, with some bytes to grow into. The calls do with the memory what
`PoolOp.spec` does with the texts, in every run.
-/

namespace TinyBase
open Unicode Decimal

/-- `EqualStrings`. -/
def equalStrings (a b : String) (m : Mem) : Res Bool :=
  if a.enc = b.enc then equalBuffers (a.toBuffer.view m) (b.toBuffer.view m) else pure false

/-- What a call returns. -/
inductive Reply where
  | none
  | bool (r : Bool)
  | usz (n : Usz)
deriving DecidableEq

/-- A call that makes a string, or one on strings that there are. -/
inductive PoolOp (ι : Type) where
  | pushString (x : ι) (size : Usz) (form : Form)
  | clearBuffer (x : ι)
  | advanceString (numChars : Usz) (x : ι)
  | appendChar (src : Char) (x : ι)
  | appendCharNTimes (src : Char) (count : Usz) (x : ι)
  | appendString (src x : ι)
  | appendStringNTimes (src : ι) (count : Usz) (x : ι)
  | appendUInt (integer : Usz) (x : ι)
  | appendInt (integer : Isz) (x : ι)
  | replaceChar (old new : Char) (x : ι)
  | stringLen (x : ι)
  | stringIsDigit (x : ι)
  | stringToUInt (x : ι)
  | equalStrings (x y : ι)
  | stringInString (needle haystack : ι)
  | charInString (needle : Char) (haystack : ι)
  | countChar (needle : Char) (haystack : ι)

/-! ### In memory -/

/-- The arena, the strings by their names, and the memory. -/
structure Pool (ι : Type) where
  arena : Buffer
  strings : ι → String
  m : Mem

namespace Pool
variable {ι : Type} [DecidableEq ι]

def set (p : Pool ι) (x : ι) (s : String) (m : Mem) : Pool ι :=
  { p with strings := Function.update p.strings x s, m := m }

/-- The string `x`, in memory that is from now on handed out. -/
def add (p : Pool ι) (x : ι) (s : String) (arena : Buffer) : Pool ι :=
  { p with arena := arena, strings := Function.update p.strings x s }

/-- A call that writes to the string `x`. -/
def writes (p : Pool ι) (x : ι) (call : String → Mem → Res (Bool × String × Mem)) :
    Res (Reply × Pool ι) := do
  let (result, s, m) ← call (p.strings x) p.m
  pure (.bool result, p.set x s m)

/-- A call that only reads. -/
def reads (p : Pool ι) (call : Mem → Res Usz) : Res (Reply × Pool ι) := do
  let result ← call p.m
  pure (.usz result, p)

end Pool

/-- The calls. A character is given as the code unit word in the encoding of the string. -/
def PoolOp.exec {ι : Type} [DecidableEq ι] : PoolOp ι → Pool ι → Res (Reply × Pool ι)
  | pushString x size form, p =>
    let (base, arena) := pushIntoArena p.arena size
    if base ≠ 0 then
      pure (.bool true,
        p.add x { base := base, writeCur := 0, size := size, enc := encodingOf form } arena)
    else pure (.bool false, { p with arena := arena })
  | clearBuffer x, p => do
    let (buffer, m) ← TinyBase.clearBuffer (p.strings x).toBuffer p.m
    pure (.none, p.set x { p.strings x with toBuffer := buffer } m)
  | advanceString numChars x, p => do
    let s ← TinyBase.advanceString (p.strings x) numChars p.m
    pure (.none, p.set x s p.m)
  | appendChar src x, p => p.writes x (appendCharToString (encodeChar src.val (p.strings x).enc))
  | appendCharNTimes src count x, p =>
    p.writes x (appendCharToStringNTimes (encodeChar src.val (p.strings x).enc) count)
  | appendString src x, p => p.writes x (appendStringToString (p.strings src))
  | appendStringNTimes src count x, p =>
    p.writes x (appendStringToStringNTimes (p.strings src) count)
  | appendUInt integer x, p => p.writes x (appendUIntToString integer)
  | appendInt integer x, p => p.writes x (appendIntToString integer)
  | replaceChar old new x, p => do
    let s := p.strings x
    let (result, m) ← replaceCharInString (encodeChar old.val s.enc)
        (encodeChar new.val s.enc) s p.m
    pure (.bool result, { p with m := m })
  | stringLen x, p => p.reads (TinyBase.stringLen (p.strings x) .codepoint)
  | stringIsDigit x, p => do
    let result ← TinyBase.stringIsDigit (p.strings x) p.m
    pure (.bool result, p)
  | stringToUInt x, p => p.reads (TinyBase.stringToUInt (p.strings x))
  | equalStrings x y, p => do
    let result ← TinyBase.equalStrings (p.strings x) (p.strings y) p.m
    pure (.bool result, p)
  | stringInString needle haystack, p =>
    p.reads (TinyBase.stringInString (p.strings needle) (p.strings haystack) returnIdxFind)
  | charInString needle haystack, p =>
    p.reads (TinyBase.charInString (encodeChar needle.val (p.strings haystack).enc)
      (p.strings haystack) returnIdxFind)
  | countChar needle haystack, p =>
    p.reads
      (countCharInString (encodeChar needle.val (p.strings haystack).enc) (p.strings haystack))

/-! ### As texts -/

/-- A text in an encoding, in a string of `capacity` bytes. -/
structure Text where
  form : Form
  capacity : Nat
  chars : List Char
  fits : (form.encode chars).length ≤ capacity

namespace Text

def empty (form : Form) (capacity : Nat) : Text := ⟨form, capacity, [], Nat.zero_le _⟩

/-- All of `cs` is appended, or nothing. -/
def append (t : Text) (cs : List Char) : Bool × Text :=
  if h : (t.form.encode (t.chars ++ cs)).length ≤ t.capacity then
    (true, { t with chars := t.chars ++ cs, fits := h })
  else (false, t)

/-- The first `n` characters are given up, with the bytes that they have. -/
def dropped (t : Text) (n : Nat) : Text where
  form := t.form
  capacity := t.capacity - (t.form.encode (t.chars.take n)).length
  chars := t.chars.drop n
  fits := by
    have hfits := t.fits
    rw [← List.take_append_drop n t.chars, Form.encode_append, List.length_append] at hfits
    omega

/-- One character in the place of another of the same size. -/
def replaced (t : Text) (old new : Char)
    (hsize : (t.form.bytes old).length = (t.form.bytes new).length) : Text where
  form := t.form
  capacity := t.capacity
  chars := t.chars.map (TinyBase.replaced old new)
  fits := by
    rw [length_encode_replaced hsize]
    exact t.fits

/-- The offset of the first place where `ns` stands, or `INVALID_IDX`. -/
def find (t : Text) (ns : List Char) : Usz :=
  match (List.range t.chars.length).find? fun k => ns.isPrefixOf (t.chars.drop k) with
  | some k => UInt64.ofNat (t.form.encode (t.chars.take k)).length
  | none => invalidIdx

end Text

/-- The texts by their names, and how much of the arena is handed out. -/
structure Texts (ι : Type) where
  used : Nat
  size : Nat
  text : ι → Text

namespace Texts
variable {ι : Type} [DecidableEq ι]

def set (t : Texts ι) (x : ι) (text : Text) : Texts ι :=
  { t with text := Function.update t.text x text }

def add (t : Texts ι) (x : ι) (text : Text) (used : Nat) : Texts ι :=
  { t with used := used, text := Function.update t.text x text }

def append (t : Texts ι) (x : ι) (cs : List Char) : Reply × Texts ι :=
  (.bool ((t.text x).append cs).1, t.set x ((t.text x).append cs).2)

end Texts

/-- What is promised of a call. Nothing is where the sizes wrap around, where a number is too large
for the function, where not all of several transcoded copies fit, of more characters advanced over
than there are, and of replacing and searching in the other encodings than UTF-8, of replacing by
itself a character of one byte that is there, or of looking for nothing. -/
def PoolOp.spec {ι : Type} [DecidableEq ι] : PoolOp ι → Texts ι → Option (Reply × Texts ι)
  | pushString x size form, t =>
    if t.used + size.toNat < 2 ^ 64 then
      if t.used + size.toNat ≤ t.size then
        some (.bool true, t.add x (.empty form size.toNat) (t.used + size.toNat))
      else some (.bool false, t)
    else none
  | clearBuffer x, t => some (.none, t.set x (.empty (t.text x).form (t.text x).capacity))
  | advanceString numChars x, t =>
    if numChars.toNat ≤ (t.text x).chars.length then
      some (.none, t.set x ((t.text x).dropped numChars.toNat)) else none
  | appendChar src x, t => some (t.append x [src])
  | appendCharNTimes src count x, t =>
    if count.toNat * ((t.text x).form.bytes src).length < 2 ^ 64 then
      some (t.append x (List.replicate count.toNat src))
    else none
  | appendString src x, t => some (t.append x (t.text src).chars)
  | appendStringNTimes src count x, t =>
    let r := t.append x (List.replicate count.toNat (t.text src).chars).flatten
    let size := ((t.text src).form.encode (t.text src).chars).length
    if (t.text src).form = (t.text x).form ∧ count.toNat * size < 2 ^ 64 ∨
      r.1 = .bool true then some r else none
  | appendUInt integer x, t =>
    if integer.toNat < 10 ^ 19 then some (t.append x (Nat.toDigits 10 integer.toNat)) else none
  | appendInt integer x, t =>
    if integer ≠ Int64.minValue then
      some (t.append x (signed (integer < 0) (Nat.toDigits 10 integer.toInt.natAbs))) else none
  | replaceChar old new x, t =>
    if h : ((t.text x).form.bytes old).length = ((t.text x).form.bytes new).length then
      if (t.text x).form = .utf8 ∧
        (old ≠ new ∨ old ∉ (t.text x).chars ∨ 2 ≤ ((t.text x).form.bytes old).length) then
        some (.bool true, t.set x ((t.text x).replaced old new h))
      else none
    else some (.bool false, t)
  | stringLen x, t => some (.usz (UInt64.ofNat (t.text x).chars.length), t)
  | stringIsDigit x, t => some (.bool ((t.text x).chars.all Char.isDigit), t)
  | stringToUInt x, t =>
    if (t.text x).chars.all Char.isDigit then
      if Nat.ofDigitChars 10 (t.text x).chars 0 < 2 ^ 64 then
        some (.usz (UInt64.ofNat (Nat.ofDigitChars 10 (t.text x).chars 0)), t)
      else none
    else some (.usz uszMax, t)
  | equalStrings x y, t =>
    some (.bool ((t.text x).form = (t.text y).form ∧ (t.text x).chars = (t.text y).chars), t)
  | stringInString needle haystack, t =>
    if (t.text haystack).form = .utf8 ∧ (t.text needle).chars ≠ [] then
      some (.usz (if (t.text needle).form = .utf8 then (t.text haystack).find (t.text needle).chars
        else invalidIdx), t)
    else none
  | charInString needle haystack, t =>
    if (t.text haystack).form = .utf8 then some (.usz ((t.text haystack).find [needle]), t)
      else none
  | countChar needle haystack, t =>
    if (t.text haystack).form = .utf8 then
      some (.usz (UInt64.ofNat ((t.text haystack).chars.count needle)), t) else none

/-! ### Strings that hold texts -/

/-- A region inside another is not longer. -/
theorem le_of_inRange {p q : Ptr} {n k : Nat} (hn : n ≤ 2 ^ 64) (hk : k < 2 ^ 64)
    (h : ∀ a, InRange p n a → InRange q k a) : n ≤ k := by
  have hoff : ∀ i : Usz, i.toNat < n → ((p - q).toNat + i.toNat) % 2 ^ 64 < k := fun i hi => by
    have hin := h _ (inRange_add.2 hi)
    rwa [InRange, show p + i - q = p - q + i by grind, UInt64.toNat_add] at hin
  have hd := (p - q).toNat_lt
  rcases Nat.eq_zero_or_pos n with rfl | hpos
  · exact Nat.zero_le k
  · by_cases hwrap : (p - q).toNat + (n - 1) < 2 ^ 64
    · have hlast :=
        hoff (UInt64.ofNat (n - 1)) (by rw [UInt64.toNat_ofNat_of_lt_two_pow (by omega)]; omega)
      rw [UInt64.toNat_ofNat_of_lt_two_pow (by omega), Nat.mod_eq_of_lt hwrap] at hlast
      omega
    · have htop := hoff (UInt64.ofNat (2 ^ 64 - 1 - (p - q).toNat))
        (by rw [UInt64.toNat_ofNat_of_lt_two_pow (by omega)]; omega)
      rw [UInt64.toNat_ofNat_of_lt_two_pow (by omega)] at htop
      omega

/-- The strings hold the texts, each in bytes of its own, which are in the part of the arena that is
handed out. -/
structure Pool.Holds {ι : Type} (p : Pool ι) (t : Texts ι) : Prop where
  isArena : IsArena p.arena
  small : p.arena.size.toNat + 4 < 2 ^ 64
  readable : p.m.Readable p.arena.base p.arena.size.toNat
  writable : ∀ i : Usz, i.toNat < p.arena.size.toNat → p.m.writable (p.arena.base + i)
  used_eq : p.arena.writeCur.toNat = t.used
  size_eq : p.arena.size.toNat = t.size
  inside : ∀ x a, InRange (p.strings x).base (p.strings x).size.toNat a →
    InRange p.arena.base p.arena.writeCur.toNat a
  apart : ∀ x y, x ≠ y →
    Apart (p.strings x).base (p.strings x).size.toNat (p.strings y).base (p.strings y).size.toNat
  text : ∀ x, HoldsText p.m (p.strings x) (t.text x).form (t.text x).chars
  capacity : ∀ x, (p.strings x).size.toNat = (t.text x).capacity

section
variable {ι : Type} [DecidableEq ι] {p : Pool ι} {t : Texts ι} {x y : ι} {m : Mem}
  {s : String} {text : Text}

theorem Pool.set_strings : p.set x (p.strings x) m = { p with m := m } := by
  rw [Pool.set, Function.update_eq_self]

theorem Pool.strings_set_self : (p.set x s m).strings x = s := Function.update_self ..

theorem Pool.strings_set_of_ne (h : y ≠ x) : (p.set x s m).strings y = p.strings y :=
  Function.update_of_ne h ..

theorem Pool.strings_add_self {arena : Buffer} : (p.add x s arena).strings x = s :=
  Function.update_self ..

theorem Pool.strings_add_of_ne {arena : Buffer} (h : y ≠ x) :
    (p.add x s arena).strings y = p.strings y :=
  Function.update_of_ne h ..

theorem Texts.text_set_self : (t.set x text).text x = text := Function.update_self ..

theorem Texts.text_set_of_ne (h : y ≠ x) : (t.set x text).text y = t.text y :=
  Function.update_of_ne h ..

theorem Texts.text_add_self {used : Nat} : (t.add x text used).text x = text :=
  Function.update_self ..

theorem Texts.text_add_of_ne {used : Nat} (h : y ≠ x) : (t.add x text used).text y = t.text y :=
  Function.update_of_ne h ..

namespace Pool.Holds

omit [DecidableEq ι] in
theorem cur_le (h : p.Holds t) (x : ι) :
    (p.strings x).writeCur.toNat ≤ (p.strings x).size.toNat := by
  rw [(h.text x).len, h.capacity]
  exact (t.text x).fits

omit [DecidableEq ι] in
theorem room_eq (h : p.Holds t) (x : ι) :
    (p.strings x).writeCur.toNat + (p.strings x).room = (p.strings x).size.toNat :=
  Nat.add_sub_cancel' (h.cur_le x)

omit [DecidableEq ι] in
theorem cur_le_size (h : p.Holds t) : p.arena.writeCur.toNat ≤ p.arena.size.toNat :=
  UInt64.le_iff_toNat_le.1 h.isArena.cur

omit [DecidableEq ι] in
theorem inArena (h : p.Holds t) (x : ι) {i : Usz} (hi : i.toNat < (p.strings x).size.toNat) :
    ∃ j : Usz, j.toNat < p.arena.size.toNat ∧ (p.strings x).base + i = p.arena.base + j := by
  obtain ⟨j, hj, heq⟩ := (h.inside x _ (inRange_add.2 hi)).exists
  exact ⟨j, Nat.lt_of_lt_of_le hj h.cur_le_size, heq⟩

omit [DecidableEq ι] in
theorem string_writable (h : p.Holds t) (x : ι) {i : Usz}
    (hi : i.toNat < (p.strings x).size.toNat) : p.m.writable ((p.strings x).base + i) := by
  obtain ⟨j, hj, heq⟩ := h.inArena x hi
  rw [heq]
  exact h.writable j hj

omit [DecidableEq ι] in
theorem string_readable (h : p.Holds t) (x : ι) :
    p.m.Readable (p.strings x).base (p.strings x).size.toNat := fun i hi => by
  obtain ⟨j, hj, heq⟩ := h.inArena x hi
  rw [heq]
  exact h.readable j hj

omit [DecidableEq ι] in
theorem string_small (h : p.Holds t) (x : ι) : (p.strings x).size.toNat + 4 < 2 ^ 64 := by
  have hcur := p.arena.writeCur.toNat_lt
  have hle := le_of_inRange (Nat.le_of_lt (p.strings x).size.toNat_lt) hcur (h.inside x)
  have hsmall := h.small
  have := h.cur_le_size
  omega

omit [DecidableEq ι] in
theorem toWritable (h : p.Holds t) (x : ι) : Writable p.m (p.strings x) := by
  refine .of_storage rfl rfl (h.cur_le x) (h.string_small x) fun i hi => h.string_writable x hi

omit [DecidableEq ι] in
/-- What is written to one string is not in another. -/
theorem text_same (h : p.Holds t)
    (hm : Mem.SameOutside (p.strings x).base (p.strings x).size.toNat p.m m) (hy : y ≠ x) :
    HoldsText m (p.strings y) (t.text y).form (t.text y).chars where
  enc := (h.text y).enc
  len := (h.text y).len
  bytes := by
    refine hm.holds (h.text y).bytes ((h.apart y x hy).mono ?_ (Nat.le_refl _))
    rw [← (h.text y).len]
    exact h.cur_le y

/-- A call changes one string and its bytes. -/
theorem set (h : p.Holds t) (hm : Mem.SameOutside (p.strings x).base (p.strings x).size.toNat p.m m)
    (hin : ∀ a, InRange s.base s.size.toNat a →
      InRange (p.strings x).base (p.strings x).size.toNat a)
    (htext : HoldsText m s text.form text.chars) (hsize : s.size.toNat = text.capacity) :
    (p.set x s m).Holds (t.set x text) where
  isArena := h.isArena
  small := h.small
  readable := hm.readable h.readable
  writable := by
    intro i hi
    show m.writable _
    rw [hm.writable_eq]
    exact h.writable i hi
  used_eq := h.used_eq
  size_eq := h.size_eq
  inside := by
    intro y a ha
    by_cases hy : y = x
    · subst hy
      rw [strings_set_self] at ha
      exact h.inside y a (hin a ha)
    · rw [strings_set_of_ne hy] at ha
      exact h.inside y a ha
  apart := by
    intro y z hyz a hy hz
    refine h.apart y z hyz a ?_ ?_
    · by_cases hyx : y = x
      · subst hyx
        rw [strings_set_self] at hy
        exact hin a hy
      · rwa [strings_set_of_ne hyx] at hy
    · by_cases hzx : z = x
      · subst hzx
        rw [strings_set_self] at hz
        exact hin a hz
      · rwa [strings_set_of_ne hzx] at hz
  text := by
    intro y
    by_cases hy : y = x
    · subst hy
      rw [strings_set_self, Texts.text_set_self]
      exact htext
    · rw [strings_set_of_ne hy, Texts.text_set_of_ne hy]
      exact h.text_same hm hy
  capacity := by
    intro y
    by_cases hy : y = x
    · subst hy
      rw [strings_set_self, Texts.text_set_self]
      exact hsize
    · rw [strings_set_of_ne hy, Texts.text_set_of_ne hy]
      exact h.capacity y

end Pool.Holds

/-! ### Appending -/

/-- What is appended to a text makes a text with it. -/
theorem HoldsText.grown {F : Form} {cs ds : List Char} (h : HoldsText m s F cs) (hw : Writable m s)
    (hread : m.Readable s.base s.size.toNat) (hfits : (F.encode ds).length ≤ s.room) :
    HoldsText (m.store (s.base + s.writeCur) (F.encode ds)) (s.grown (F.encode ds).length) F
      (cs ++ ds) := by
  have hroom := hw.room_eq
  have hsmall := hw.small
  have hcur : UInt64.ofNat (F.encode cs).length = s.writeCur := by rw [← h.len, UInt64.ofNat_toNat]
  refine ⟨h.enc, ?_, ?_⟩
  · rw [hw.toNat_grown hfits, h.len, Form.encode_append, List.length_append]
  · show Holds _ s.base _
    rw [Form.encode_append]
    have hbehind : Apart s.base (F.encode cs).length (s.base + s.writeCur) (F.encode ds).length :=
      apart_add (Nat.le_of_eq h.len.symm) (by omega)
    refine Holds.append (Mem.reads_store h.bytes hbehind (Nat.le_refl _)) ?_
    rw [hcur]
    refine Mem.holds_store fun i hi => ?_
    have hsum : (s.writeCur + i).toNat = s.writeCur.toNat + i.toNat :=
      UInt64.toNat_add_of_lt (by omega)
    rw [UInt64.add_assoc]
    exact hread _ (by omega)

namespace Pool.Holds

omit [DecidableEq ι] in
theorem fits_iff (h : p.Holds t) (x : ι) (cs : List Char) :
    ((t.text x).form.encode cs).length ≤ (p.strings x).room ↔
    ((t.text x).form.encode ((t.text x).chars ++ cs)).length ≤ (t.text x).capacity := by
  have hlen := (h.text x).len
  have hroom := h.room_eq x
  rw [h.capacity x] at hroom
  rw [Form.encode_append, List.length_append]
  omega

/-- A call that appends the bytes of `cs`, or nothing. -/
theorem appends (h : p.Holds t) (call : String → Mem → Res (Bool × String × Mem)) {cs : List Char}
    (happ : Appends (call (p.strings x) p.m) (p.strings x) p.m ((t.text x).form.encode cs)) :
    ∃ p', p.writes x call = .ok ((t.append x cs).1, p') ∧ p'.Holds (t.append x cs).2 := by
  have hroom := h.room_eq x
  have hw := h.toWritable x
  rw [Pool.writes, Texts.append, Text.append]
  by_cases hfits : ((t.text x).form.encode cs).length ≤ (p.strings x).room
  · rw [happ.of_le hfits, dif_pos ((h.fits_iff x cs).1 hfits)]
    refine ⟨_, rfl,
      h.set ?_ (fun a ha => ha) ((h.text x).grown hw (h.string_readable x) hfits) (h.capacity x)⟩
    exact Mem.SameOutside.store_add p.m (by omega)
  · obtain ⟨out, hout, hrun⟩ := happ.of_lt (Nat.not_le.1 hfits)
    rw [hrun, dif_neg (mt (h.fits_iff x cs).2 hfits)]
    refine ⟨_, rfl, h.set ?_ (fun a ha => ha) ⟨(h.text x).enc, (h.text x).len, ?_⟩ (h.capacity x)⟩
    · exact Mem.SameOutside.store_add p.m (by omega)
    · refine Mem.reads_store (h.text x).bytes (apart_add (k := out.length) ?_ ?_) (Nat.le_refl _)
      · exact Nat.le_of_eq (h.text x).len.symm
      · have := h.string_small x
        omega

omit [DecidableEq ι] in
/-- What is written in a string is not in the room of a string. -/
theorem apart_room (h : p.Holds t) (y x : ι) : Apart (p.strings y).base (p.strings y).writeCur.toNat
    ((p.strings x).base + (p.strings x).writeCur) (p.strings x).room := by
  have hroom := h.room_eq x
  by_cases hy : y = x
  · subst hy
    refine apart_add (Nat.le_refl _) ?_
    have := h.string_small y
    omega
  · exact fun a ha ha' => h.apart y x hy a (Nat.lt_of_lt_of_le ha (h.cur_le y))
      (ha'.of_add (Nat.le_of_eq hroom))

end Pool.Holds

theorem encode_singleton (F : Form) (c : Char) :
    F.encode [c] = charBytes (encodeChar c.val (encodingOf F)) (encodingOf F) := by
  rw [Form.encode_cons, Form.encode_nil, List.append_nil, bytes_eq]
  rfl

theorem encode_copies (F : Form) (n : Nat) (cs : List Char) :
    F.encode (List.replicate n cs).flatten = (List.replicate n (F.encode cs)).flatten := by
  induction n with
  | zero => rfl
  | succ n ih =>
    rw [List.replicate_succ, List.replicate_succ, List.flatten_cons,
      List.flatten_cons, Form.encode_append, ih]

theorem encodingOf_injective {F G : Form} (h : encodingOf F = encodingOf G) : F = G := by
  cases F <;> cases G <;> first | rfl | cases h

theorem textBytes_encodingOf (F : Form) (cs : List Char) :
    textBytes (encodingOf F) cs = F.encode cs := by cases F <;> rfl

theorem uintDigits_eq {n : Usz} (h : n.toNat < 10 ^ 19) :
    uintDigits n = (Nat.toDigits 10 n.toNat).map charByte := by
  rw [uintDigits, laidDigits_uint, (digitCount_toInt64 n).2 h, lowDigits_length_toDigits]

theorem intDigits_eq {n : Isz} (h : n ≠ Int64.minValue) :
    intDigits n = (signed (n < 0) (Nat.toDigits 10 n.toInt.natAbs)).map charByte := by
  rw [map_signed, intDigits, laidDigits_int _ (toInt_abs h), digitCount, ← length_toDigits,
    lowDigits_length_toDigits]
  simp only [decide_eq_true_iff]

theorem flatMap_wideChar_eq (F : Form) {cs : List Char} (hcs : ∀ c ∈ cs, c.toNat < 128) :
    (cs.map charByte).flatMap (wideChar (encodingOf F)) = F.encode cs :=
  (textBytes_eq hcs).symm.trans (textBytes_encodingOf F cs)

theorem encode_inj {F : Form} {cs ds : List Char} : F.encode cs = F.encode ds ↔ cs = ds := by
  refine ⟨fun h => ?_, fun h => h ▸ rfl⟩
  have hpre : cs <+: ds :=
    (prefixFree_bytes F).flatMap_prefix_iff.1 ⟨[], (List.append_nil _).trans h⟩
  have hpre' : ds <+: cs :=
    (prefixFree_bytes F).flatMap_prefix_iff.1 ⟨[], (List.append_nil _).trans h.symm⟩
  exact hpre.eq_of_length_le hpre'.length_le

/-- `EqualBuffers` compares what is in the buffers. -/
theorem equalBuffers_holds {a b : Buffer} {m : Mem} {bs cs : List UInt8}
    (ha : Holds m.read a.base bs) (halen : a.writeCur.toNat = bs.length)
    (hb : Holds m.read b.base cs) (hblen : b.writeCur.toNat = cs.length) :
    equalBuffers (a.view m) (b.view m) = .ok (decide (bs = cs)) := by
  by_cases hlen : a.writeCur = b.writeCur
  · have hsame : bs.length = cs.length := by rw [← halen, ← hblen, hlen]
    rw [TinyBase.Holds, ← halen] at ha
    rw [TinyBase.Holds, ← hsame, ← halen] at hb
    obtain ⟨r, hrun, hr⟩ :=
      Except.wp_iff.1 (equalBuffers_spec (a := a.view m) (b := b.view m) hlen ha hb)
    rw [hrun]
    refine congrArg Except.ok (Bool.eq_iff_iff.2 (hr.trans ?_))
    rw [decide_eq_true_iff]
    refine ⟨fun h => List.ext_getElem hsame fun i hi hi' => ?_, fun h i _ => by rw [h]⟩
    have hi0 : bs.getD i 0 = cs.getD i 0 := h i (halen ▸ hi)
    rwa [List.getD_eq_getElem _ _ hi, List.getD_eq_getElem _ _ hi'] at hi0
  · have hne : bs ≠ cs := fun h => hlen (UInt64.toNat_inj.1 (by rw [halen, hblen, h]))
    rw [decide_eq_false hne]
    exact if_neg hlen

/-- All copies or none, as an append of all of them. -/
theorem CopiesAppended.appended {s : String} {m m' : Mem} {bs : List UInt8}
    {n : Nat} {r : Bool} {buf : Buffer} (h : CopiesAppended bs n s.toBuffer m (r, buf, m')) :
    Appended s m (List.replicate n bs).flatten r { s with toBuffer := buf } m' := by
  obtain ⟨hdone, -⟩ := h
  have hlen := length_copies n bs
  split_ifs at hdone with hle
  · cases hdone
    rw [← hlen]
    exact .of_le (by rw [hlen]; exact hle)
  · cases hdone
    exact .of_lt_of_not_written (by rw [hlen]; exact Nat.lt_of_not_le hle)

/-- A call that is promised to do something simulates it. -/
def PoolOp.Done (op : PoolOp ι) (p : Pool ι) (r : Reply × Texts ι) : Prop :=
  ∃ p', op.exec p = .ok (r.1, p') ∧ p'.Holds r.2

namespace Pool.Holds

theorem appendChar (h : p.Holds t) (c : Char) (x : ι) :
    (PoolOp.appendChar c x).Done p (t.append x [c]) := by
  refine h.appends (appendCharToString (encodeChar c.val (p.strings x).enc)) ?_
  have happ := appendCharToString_spec (h.toWritable x) (encodeChar c.val (p.strings x).enc)
  rw [(h.text x).enc] at happ ⊢
  rw [encode_singleton]
  exact happ

theorem appendString (h : p.Holds t) (y x : ι) :
    (PoolOp.appendString y x).Done p (t.append x (t.text y).chars) := by
  refine h.appends (appendStringToString (p.strings y)) ?_
  have hy := h.text y
  have henc := (h.text x).enc
  rw [appendStringToString]
  by_cases hsame : (p.strings y).enc = (p.strings x).enc
  · rw [if_pos hsame]
    have hform : (t.text y).form = (t.text x).form :=
      encodingOf_injective (hy.enc.symm.trans (hsame.trans henc))
    have hread := hy.bytes
    rw [TinyBase.Holds, ← hy.len] at hread
    have happ := appendToString_spec (h.toWritable x) hread
    rwa [map_getD_range (Nat.le_of_eq hy.len), hy.len, List.take_length, hform] at happ
  · rw [if_neg hsame]
    exact transcode_text_spec hy (h.toWritable x) henc (h.apart_room y x)

theorem appendUInt (h : p.Holds t) {n : Usz} (hn : n.toNat < 10 ^ 19) (x : ι) :
    (PoolOp.appendUInt n x).Done p (t.append x (Nat.toDigits 10 n.toNat)) := by
  refine h.appends (appendUIntToString n) ?_
  have happ := appendUIntToString_appends (h.toWritable x) n
  rwa [(h.text x).enc, uintDigits_eq hn, flatMap_wideChar_eq _ fun c hc =>
    lt_of_isDigit (isDigit_toDigits c hc)] at happ

theorem appendInt (h : p.Holds t) {n : Isz} (hn : n ≠ Int64.minValue) (x : ι) :
    (PoolOp.appendInt n x).Done p
      (t.append x (signed (n < 0) (Nat.toDigits 10 n.toInt.natAbs))) := by
  refine h.appends (appendIntToString n) ?_
  have happ := appendIntToString_appends (h.toWritable x) n
  rwa [(h.text x).enc, intDigits_eq hn, flatMap_wideChar_eq _ (signed_lt isDigit_toDigits)] at happ

/-! ### Copies -/

omit [DecidableEq ι] in
theorem append_fits {cs : List Char} (hfits : ((t.text x).append cs).1 = true) (h : p.Holds t) :
    ((t.text x).form.encode cs).length ≤ (p.strings x).room := by
  rw [Text.append] at hfits
  split_ifs at hfits with hle
  exact (h.fits_iff x cs).2 hle

theorem appendCharNTimes (h : p.Holds t) {c : Char} {count : Usz} {x : ι}
    (hprod : count.toNat * ((t.text x).form.bytes c).length < 2 ^ 64) :
    (PoolOp.appendCharNTimes c count x).Done p (t.append x (List.replicate count.toNat c)) := by
  refine h.appends (appendCharToStringNTimes (encodeChar c.val (p.strings x).enc) count) ?_
  have henc := (h.text x).enc
  have hbytes : (t.text x).form.bytes c =
      charBytes (encodeChar c.val (p.strings x).enc) (p.strings x).enc := by
    rw [henc]
    exact bytes_eq (t.text x).form c
  rw [hbytes] at hprod
  have hcopies : (t.text x).form.encode (List.replicate count.toNat c) =
      (List.replicate count.toNat
        (charBytes (encodeChar c.val (p.strings x).enc) (p.strings x).enc)).flatten := by
    rw [← List.flatten_replicate_singleton, encode_copies, Form.encode_cons,
      Form.encode_nil, List.append_nil, hbytes]
  rw [hcopies]
  refine ((appendCharToStringNTimes_iff _ count _ p.m (h.toWritable x)).2 (.inl hprod)).mono ?_
  rintro ⟨r, ⟨buf, enc⟩, m'⟩ ⟨hdone, rfl⟩
  exact hdone.appended

theorem appendStringNTimes (h : p.Holds t) {y : ι} {count : Usz} {x : ι}
    (hr : (t.text y).form = (t.text x).form ∧
      count.toNat * ((t.text y).form.encode (t.text y).chars).length < 2 ^ 64 ∨
      (t.append x (List.replicate count.toNat (t.text y).chars).flatten).1 = .bool true) :
    (PoolOp.appendStringNTimes y count x).Done p
      (t.append x (List.replicate count.toNat (t.text y).chars).flatten) := by
  refine h.appends (appendStringToStringNTimes (p.strings y) count) ?_
  have hw := h.toWritable x
  have hy := h.text y
  have henc := (h.text x).enc
  have hlen := length_copies count.toNat ((t.text x).form.encode (t.text y).chars)
  have hle : (t.append x (List.replicate count.toNat (t.text y).chars).flatten).1 = .bool true →
      count.toNat * ((t.text x).form.encode (t.text y).chars).length ≤ (p.strings x).room :=
        fun hfits => by
    have hle := append_fits (Reply.bool.inj hfits) h
    rwa [encode_copies, hlen] at hle
  rw [encode_copies]
  by_cases hsame : (p.strings y).enc = (p.strings x).enc
  · have hform : (t.text y).form = (t.text x).form :=
      encodingOf_injective (hy.enc.symm.trans (hsame.trans henc))
    rw [← hform] at hle ⊢
    have hread : ∀ out : List UInt8, out.length ≤ (p.strings x).toBuffer.room →
        TinyBase.Holds (p.m.store ((p.strings x).base + (p.strings x).writeCur) out).read
        (p.strings y).toBuffer.base
          ((t.text y).form.encode (t.text y).chars) := fun out hout =>
      Mem.reads_store hy.bytes (hy.len ▸ h.apart_room y x) hout
    have hprod : count.toNat * (p.strings y).writeCur.toNat < 2 ^ 64 := by
      have hsize := (p.strings x).size.toNat_lt
      have hroom := hw.room_eq
      rw [hy.len]
      rcases hr with ⟨-, hprod⟩ | hfits
      · exact hprod
      · have := hle hfits
        omega
    have hrun := (appendNTimes_wp_iff hread hy.len hw.cur hw.free).2 (.inl hprod)
    rw [appendStringToStringNTimes, if_pos hsame, appendBufferToStringNTimes, Appends,
      Except.wp_bind]
    refine hrun.mono ?_
    rintro ⟨r, buf, m'⟩ hdone
    exact hdone.appended
  · have hfits := hr.resolve_left fun h => hsame (by rw [hy.enc, henc, h.1])
    refine (appendsCopies_iff (hy.sourceOf (h.apart_room y x)) hw hsame ?_).2 (hle hfits)
    rw [hy.enc, henc, hy.len, transcoded_encode]

/-! ### New strings, and strings that get smaller -/

/-- The new string is behind all others. -/
theorem added (h : p.Holds t) {size : Usz} (hle : p.arena.writeCur + size ≤ p.arena.size) (F : Form)
    (hsum : (p.arena.writeCur + size).toNat = p.arena.writeCur.toNat + size.toNat) :
    (p.add x { base := p.arena.base + p.arena.writeCur, writeCur := 0,
               size := size, enc := encodingOf F }
      { p.arena with writeCur := p.arena.writeCur + size }).Holds (t.add x (.empty F size.toNat)
      (t.used + size.toNat)) := by
  have hin := UInt64.le_iff_toNat_le.1 hle
  have hlt := p.arena.size.toNat_lt
  have hnew : ∀ a, InRange (p.arena.base + p.arena.writeCur) size.toNat a →
      p.arena.writeCur.toNat ≤ (a - p.arena.base).toNat ∧
        (a - p.arena.base).toNat < p.arena.writeCur.toNat + size.toNat :=
          fun a ha => ha.of_offset (by omega)
  refine ⟨⟨hle, h.isArena.nonNull⟩, h.small, h.readable, h.writable, ?_, h.size_eq,
    fun y a ha => ?_, fun y z hyz a hy hz => ?_, fun y => ?_, fun y => ?_⟩
  · show (p.arena.writeCur + size).toNat = t.used + size.toNat
    rw [hsum, h.used_eq]
  · show (a - p.arena.base).toNat < (p.arena.writeCur + size).toNat
    rw [hsum]
    by_cases hyx : y = x
    · subst hyx
      rw [strings_add_self] at ha
      exact (hnew a ha).2
    · rw [strings_add_of_ne hyx] at ha
      exact Nat.lt_add_right _ (h.inside y a ha)
  · by_cases hyx : y = x
    · subst hyx
      rw [strings_add_self] at hy
      rw [strings_add_of_ne hyz.symm] at hz
      exact absurd (h.inside z a hz) (Nat.not_lt.2 (hnew a hy).1)
    · rw [strings_add_of_ne hyx] at hy
      by_cases hzx : z = x
      · subst hzx
        rw [strings_add_self] at hz
        exact absurd (h.inside y a hy) (Nat.not_lt.2 (hnew a hz).1)
      · rw [strings_add_of_ne hzx] at hz
        exact h.apart y z hyz a hy hz
  · by_cases hyx : y = x
    · subst hyx
      rw [strings_add_self, Texts.text_add_self]
      exact ⟨rfl, rfl, fun _ hi => absurd hi (Nat.not_lt_zero _)⟩
    · rw [strings_add_of_ne hyx, Texts.text_add_of_ne hyx]
      exact h.text y
  · by_cases hyx : y = x
    · subst hyx
      rw [strings_add_self, Texts.text_add_self]
      rfl
    · rw [strings_add_of_ne hyx, Texts.text_add_of_ne hyx]
      exact h.capacity y

theorem pushString (h : p.Holds t) {x : ι} {size : Usz} {F : Form} {r : Reply × Texts ι}
    (hr : (PoolOp.pushString x size F).spec t = some r) :
    (PoolOp.pushString x size F).Done p r := by
  rw [PoolOp.spec] at hr
  split_ifs at hr with hsum hle
  · cases hr
    rw [← h.used_eq] at hsum hle
    rw [← h.size_eq] at hle
    have hadd : (p.arena.writeCur + size).toNat = p.arena.writeCur.toNat + size.toNat :=
      UInt64.toNat_add_of_lt hsum
    have hfits : p.arena.writeCur + size ≤ p.arena.size := UInt64.le_iff_toNat_le.2 (hadd ▸ hle)
    refine ⟨_, ?_, h.added hfits F hadd⟩
    rw [PoolOp.exec, pushIntoArena, if_pos hfits]
    exact if_pos (h.isArena.nonNull _ h.isArena.cur)
  · cases hr
    rw [← h.used_eq] at hsum hle
    rw [← h.size_eq] at hle
    have hadd : (p.arena.writeCur + size).toNat = p.arena.writeCur.toNat + size.toNat :=
      UInt64.toNat_add_of_lt hsum
    refine ⟨p, ?_, h⟩
    rw [PoolOp.exec, pushIntoArena, if_neg fun hfits => hle (hadd ▸ UInt64.le_iff_toNat_le.1 hfits)]
    exact if_neg (not_not.2 rfl)

theorem clearBuffer (h : p.Holds t) (x : ι) :
    (PoolOp.clearBuffer x).Done p (.none,
      t.set x (.empty (t.text x).form (t.text x).capacity)) := by
  rw [PoolOp.Done, PoolOp.exec, TinyBase.clearBuffer]
  by_cases hbase : (p.strings x).base ≠ 0
  · have hzeros : (List.replicate (p.strings x).size.toNat (0 : UInt8)).length =
        (p.strings x).size.toNat :=
      List.length_replicate
    have hset : p.m.memset (p.strings x).base 0 (p.strings x).size =
        .ok (p.m.store (p.strings x).base (List.replicate (p.strings x).size.toNat 0)) :=
      Mem.writeBytes_eq (fun i hi => h.string_writable x (hzeros ▸ hi))
        (by rw [hzeros]; exact Nat.le_of_lt (UInt64.toNat_lt _))
    rw [if_pos hbase, hset]
    refine ⟨_, rfl, h.set (Mem.SameOutside.store p.m fun a ha => ?_) (fun a ha => ha)
      ⟨(h.text x).enc, rfl, ?_⟩ (h.capacity x)⟩
    · rwa [hzeros] at ha
    · exact fun _ hi => absurd hi (Nat.not_lt_zero _)
  · -- at the null pointer there is only a string without storage
    have hsize : (p.strings x).size.toNat = 0 := by
      by_contra hne
      obtain ⟨j, hj, heq⟩ := h.inArena x (i := 0) (Nat.pos_of_ne_zero hne)
      rw [UInt64.add_zero, not_not.1 hbase] at heq
      exact h.isArena.nonNull j (UInt64.le_iff_toNat_le.2 (Nat.le_of_lt hj)) heq.symm
    rw [if_neg hbase]
    refine ⟨_, rfl, h.set (.refl _ _ _) (fun a ha => ha) ⟨(h.text x).enc, ?_, ?_⟩ (h.capacity x)⟩
    · have := h.cur_le x
      show (p.strings x).writeCur.toNat = 0
      omega
    · exact fun _ hi => absurd hi (Nat.not_lt_zero _)

theorem advanceString (h : p.Holds t) {x : ι} {numChars : Usz}
    (hle : numChars.toNat ≤ (t.text x).chars.length) :
    (PoolOp.advanceString numChars x).Done p (.none,
      t.set x ((t.text x).dropped numChars.toNat)) := by
  have hx := h.text x
  have hcur := h.cur_le x
  have hlen := hx.len
  rw [← List.take_append_drop numChars.toNat (t.text x).chars, Form.encode_append,
    List.length_append] at hlen
  have hmoved :
      (UInt64.ofNat ((t.text x).form.encode ((t.text x).chars.take numChars.toNat)).length).toNat =
      ((t.text x).form.encode ((t.text x).chars.take numChars.toNat)).length := by
    have hlt := (p.strings x).writeCur.toNat_lt
    exact UInt64.toNat_ofNat_of_lt_two_pow (by omega)
  have hsize :
      ((p.strings x).advanced
        ((t.text x).form.encode ((t.text x).chars.take numChars.toNat)).length).size.toNat =
      (p.strings x).size.toNat - ((t.text x).form.encode
        ((t.text x).chars.take numChars.toNat)).length := by
    show ((p.strings x).size - UInt64.ofNat _).toNat = _
    rw [UInt64.toNat_sub_of_toNat_le (by omega), hmoved]
  rw [PoolOp.Done, PoolOp.exec, advanceString_text hx hle]
  refine ⟨_, rfl, h.set (.refl _ _ _) (fun a ha => ?_) (HoldsText.advanced ?_) ?_⟩
  · rw [hsize] at ha
    exact InRange.of_add (by omega) ha
  · show HoldsText _ _ _ (_ ++ (t.text x).chars.drop numChars.toNat)
    rw [List.take_append_drop]
    exact hx
  · rw [hsize, h.capacity]
    rfl

/-! ### Replacing -/

/-- A text of the same size is written over the old one. -/
theorem overwrite (h : p.Holds t) (hform : text.form = (t.text x).form)
    (hcap : text.capacity = (t.text x).capacity)
    (hlen : (text.form.encode text.chars).length = (p.strings x).writeCur.toNat) :
    (p.set x (p.strings x) (p.m.store (p.strings x).base (text.form.encode text.chars))).Holds
      (t.set x text) := by
  have hcur := h.cur_le x
  have hsame : Mem.SameOutside (p.strings x).base (p.strings x).size.toNat p.m
      (p.m.store (p.strings x).base (text.form.encode text.chars)) :=
    Mem.SameOutside.store p.m fun a ha => Nat.lt_of_lt_of_le ha (hlen ▸ hcur)
  refine h.set hsame (fun a ha => ha) ⟨?_, hlen.symm, Mem.holds_store fun i hi =>
    h.string_readable x i ?_⟩ ?_
  · rw [hform]
    exact (h.text x).enc
  · rw [hlen] at hi
    exact Nat.lt_of_lt_of_le hi hcur
  · rw [hcap]
    exact h.capacity x

theorem replaceChar (h : p.Holds t) {old new : Char} {x : ι} {r : Reply × Texts ι}
    (hr : (PoolOp.replaceChar old new x).spec t = some r) :
    (PoolOp.replaceChar old new x).Done p r := by
  have hx := h.text x
  have hbytes : ∀ c : Char,
      (getMultibyteCharSize (encodeChar c.val (p.strings x).enc) (p.strings x).enc).toNat =
      ((t.text x).form.bytes c).length := fun c => by
    rw [hx.enc]
    exact (length_bytes (t.text x).form c).symm
  rw [PoolOp.spec] at hr
  split_ifs at hr with hsize hutf8
  · cases hr
    obtain ⟨hutf8, hne⟩ := hutf8
    have hw : ∀ i : Usz, i.toNat < (p.strings x).writeCur.toNat →
        p.m.writable ((p.strings x).base + i) :=
      fun i hi => h.string_writable x (Nat.lt_of_lt_of_le hi (h.cur_le x))
    have hrun : replaceCharInString (encodeChar old.val (p.strings x).enc)
        (encodeChar new.val (p.strings x).enc)
        (p.strings x) p.m = .ok (true, p.m.store (p.strings x).base
          ((t.text x).form.encode ((t.text x).chars.map (TinyBase.replaced old new)))) := by
      rw [hx.enc]
      rw [hutf8] at hx hsize hne ⊢
      by_cases hmulti : 2 ≤ (Form.utf8.bytes new).length
      · exact replaceCharInString_utf8 old new _ _ _ hx hw hsize hmulti
      · have hpos := length_bytes_pos .utf8 new
        have hne' : old ≠ new ∨ old ∉ (t.text x).chars :=
          hne.imp_right fun h => h.resolve_right (by omega)
        exact replaceCharInString_utf8_one hx hw (by omega) (by omega) hne'
    have hlen := (length_encode_replaced hsize (t.text x).chars).trans hx.len.symm
    have hholds : Pool.Holds _ (t.set x ((t.text x).replaced old new hsize)) :=
      h.overwrite rfl rfl hlen
    refine ⟨_, ?_, hholds⟩
    rw [PoolOp.exec, hrun, Pool.set_strings]
    rfl
  · cases hr
    refine ⟨p, ?_, h⟩
    rw [PoolOp.exec, replaceCharInString,
      if_pos fun hsame => hsize (by rw [← hbytes, ← hbytes, hsame])]
    rfl

/-! ### What only reads -/

omit [DecidableEq ι] in
theorem reads_ok {call : Mem → Res Usz} {n : Usz} (hcall : call p.m = .ok n) :
    p.reads call = .ok (.usz n, p) := by
  rw [Pool.reads, hcall]
  rfl

theorem stringLen (h : p.Holds t) (x : ι) :
    (PoolOp.stringLen x).Done p (.usz (UInt64.ofNat (t.text x).chars.length), t) :=
  ⟨p, reads_ok (stringLen_codepoint_text (h.text x)), h⟩

theorem stringIsDigit (h : p.Holds t) (x : ι) :
    (PoolOp.stringIsDigit x).Done p (.bool ((t.text x).chars.all Char.isDigit), t) := by
  refine ⟨p, ?_, h⟩
  rw [PoolOp.exec, TinyBase.stringIsDigit, stringIs_text (fun _ => charIsDigit_of_le) (h.text x)]
  rfl

theorem stringToUInt (h : p.Holds t) {x : ι} {r : Reply × Texts ι}
    (hr : (PoolOp.stringToUInt x).spec t = some r) : (PoolOp.stringToUInt x).Done p r := by
  have hrun := stringToUInt_text (h.text x)
  rw [PoolOp.spec] at hr
  split_ifs at hr with hdigits hfits
  · cases hr
    rw [uintOf_digits (List.all_eq_true.1 hdigits)] at hrun
    exact ⟨p, reads_ok hrun, h⟩
  · cases hr
    rw [List.all_eq_true] at hdigits
    rw [uintOf_of_not_digit (by simpa using hdigits)] at hrun
    exact ⟨p, reads_ok hrun, h⟩

theorem equalStrings (h : p.Holds t) (x y : ι) : (PoolOp.equalStrings x y).Done p
    (.bool ((t.text x).form = (t.text y).form ∧ (t.text x).chars = (t.text y).chars), t) := by
  refine ⟨p, ?_, h⟩
  have hx := h.text x
  have hy := h.text y
  rw [PoolOp.exec, TinyBase.equalStrings]
  by_cases henc : (p.strings x).enc = (p.strings y).enc
  · have hform : (t.text x).form = (t.text y).form :=
      encodingOf_injective (hx.enc.symm.trans (henc.trans hy.enc))
    rw [← hform] at hy
    rw [if_pos henc, equalBuffers_holds hx.bytes hx.len hy.bytes hy.len, Except.ok_bind]
    simp only [hform, true_and, encode_inj]
    rfl
  · have hform : (t.text x).form ≠ (t.text y).form :=
      fun hform => henc (by rw [hx.enc, hy.enc, hform])
    rw [if_neg henc]
    simp only [hform, false_and, decide_false]
    rfl

omit [DecidableEq ι] in
/-- The offset that a search is to return. -/
theorem find_unique {ns : List Char} {r : Usz} (hr : IsCharOffset false text.form ns text.chars r) :
    r = text.find ns := by
  rw [Text.find]
  rcases hr with ⟨k, hk, hleast⟩ | ⟨rfl, hnone⟩
  · have hleast : Least (fun k => ns <+: text.chars.drop k) text.chars.length k := hleast
    have hfind : (List.range text.chars.length).find? (fun k => ns.isPrefixOf (text.chars.drop k)) =
        some k := by
      rw [List.find?_range_eq_some]
      refine ⟨List.isPrefixOf_iff_prefix.2 hleast.sat, List.mem_range.2 hleast.lt, fun j hj => ?_⟩
      rw [Bool.not_eq_true', Bool.eq_false_iff, ne_eq, List.isPrefixOf_iff_prefix]
      exact hleast.none j hj
    rw [hfind]
    show r = UInt64.ofNat _
    rw [← hk, UInt64.ofNat_toNat]
  · have hfind : (List.range text.chars.length).find? (fun k => ns.isPrefixOf (text.chars.drop k)) =
        none := by
      rw [List.find?_eq_none]
      intro k hk
      rw [List.isPrefixOf_iff_prefix]
      exact hnone k (List.mem_range.1 hk)
    rw [hfind]

theorem stringInString (h : p.Holds t) {x y : ι} (hform : (t.text y).form = .utf8)
    (hne : (t.text x).chars ≠ []) : (PoolOp.stringInString x y).Done p
      (.usz (if (t.text x).form = .utf8 then (t.text y).find (t.text x).chars else invalidIdx),
        t) := by
  refine ⟨p, reads_ok ?_, h⟩
  have hx := h.text x
  have hy := h.text y
  by_cases hx8 : (t.text x).form = .utf8
  · rw [if_pos hx8]
    rw [hx8] at hx
    rw [hform] at hy
    obtain ⟨r, hrun, idx, hr, hidx⟩ := Except.wp_iff.1 (stringInString_utf8 hy hx hne returnIdxFind)
    rw [hrun]
    refine congrArg Except.ok (find_unique ?_)
    rw [hr, hform]
    exact hidx
  · rw [if_neg hx8, TinyBase.stringInString, if_neg]
    · rfl
    · rw [hx.enc, hy.enc, hform]
      exact fun henc => hx8 (encodingOf_injective henc)

theorem charInString (h : p.Holds t) {c : Char} {x : ι} (hform : (t.text x).form = .utf8) :
    (PoolOp.charInString c x).Done p (.usz ((t.text x).find [c]), t) := by
  refine ⟨p, reads_ok ?_, h⟩
  have hx := h.text x
  have henc := hx.enc
  rw [hform] at hx henc
  obtain ⟨r, hrun, idx, hr, hidx⟩ := Except.wp_iff.1 (charInString_utf8 hx c returnIdxFind)
  rw [henc]
  show TinyBase.charInString (encodeChar c.val .utf8) _ _ _ = _
  rw [hrun]
  refine congrArg Except.ok (find_unique ?_)
  rw [hr, hform]
  exact hidx

theorem countChar (h : p.Holds t) {c : Char} {x : ι} (hform : (t.text x).form = .utf8) :
    (PoolOp.countChar c x).Done p (.usz (UInt64.ofNat ((t.text x).chars.count c)), t) := by
  refine ⟨p, reads_ok ?_, h⟩
  have hx := h.text x
  have henc := hx.enc
  rw [hform] at hx henc
  have hmax : (p.strings x).writeCur ≠ invalidIdx := fun hmax => by
    have := h.cur_le x
    have hsmall := h.string_small x
    rw [hmax] at this
    have hinv : invalidIdx.toNat = 2 ^ 64 - 1 := rfl
    omega
  obtain ⟨r, hrun, hr⟩ := Except.wp_iff.1 (countCharInString_utf8 hx hmax c)
  rw [henc]
  show countCharInString (encodeChar c.val .utf8) _ _ = _
  rw [hrun, ← hr, UInt64.ofNat_toNat]

end Pool.Holds

/-! ### Runs -/

/-- Each call does with the memory what it is promised to do with the texts. -/
theorem simulates : Simulates (PoolOp.exec (ι := ι)) PoolOp.spec Pool.Holds := by
  intro op p t r t' h hspec
  cases op with
  | pushString x size form => exact h.pushString hspec
  | clearBuffer x =>
    cases hspec
    exact h.clearBuffer x
  | advanceString numChars x =>
    rw [PoolOp.spec] at hspec
    split_ifs at hspec with hle
    cases hspec
    exact h.advanceString hle
  | appendChar src x =>
    cases hspec
    exact h.appendChar src x
  | appendCharNTimes src count x =>
    rw [PoolOp.spec] at hspec
    split_ifs at hspec with hprod
    cases hspec
    exact h.appendCharNTimes hprod
  | appendString src x =>
    cases hspec
    exact h.appendString src x
  | appendStringNTimes src count x =>
    rw [PoolOp.spec] at hspec
    split_ifs at hspec with hboth
    cases hspec
    exact h.appendStringNTimes hboth
  | appendUInt integer x =>
    rw [PoolOp.spec] at hspec
    split_ifs at hspec with hlt
    cases hspec
    exact h.appendUInt hlt x
  | appendInt integer x =>
    rw [PoolOp.spec] at hspec
    split_ifs at hspec with hne
    cases hspec
    exact h.appendInt hne x
  | replaceChar old new x => exact h.replaceChar hspec
  | stringLen x =>
    cases hspec
    exact h.stringLen x
  | stringIsDigit x =>
    cases hspec
    exact h.stringIsDigit x
  | stringToUInt x => exact h.stringToUInt hspec
  | equalStrings x y =>
    cases hspec
    exact h.equalStrings x y
  | stringInString needle haystack =>
    by_cases hboth : (t.text haystack).form = .utf8 ∧ (t.text needle).chars ≠ []
    · rw [PoolOp.spec, if_pos hboth] at hspec
      cases hspec
      exact h.stringInString hboth.1 hboth.2
    · rw [PoolOp.spec, if_neg hboth] at hspec
      cases hspec
  | charInString needle haystack =>
    rw [PoolOp.spec] at hspec
    split_ifs at hspec with hform
    cases hspec
    exact h.charInString hform
  | countChar needle haystack =>
    rw [PoolOp.spec] at hspec
    split_ifs at hspec with hform
    cases hspec
    exact h.countChar hform

/-- An arena of which nothing is handed out; the strings have no storage yet. -/
def Pool.start (arena : Buffer) (m : Mem) : Pool ι :=
  ⟨arena, fun _ => { base := 0, writeCur := 0, size := 0, enc := .utf8 }, m⟩

def Texts.start (size : Nat) : Texts ι := ⟨0, size, fun _ => .empty .utf8 0⟩

omit [DecidableEq ι] in
theorem Pool.holds_start {arena : Buffer} (harena : IsArena arena) (hcur : arena.writeCur = 0)
    (hsmall : arena.size.toNat + 4 < 2 ^ 64) (hread : m.Readable arena.base arena.size.toNat)
    (hw : ∀ i : Usz, i.toNat < arena.size.toNat → m.writable (arena.base + i)) :
    (Pool.start arena m).Holds (Texts.start arena.size.toNat : Texts ι) where
  isArena := harena
  small := hsmall
  readable := hread
  writable := hw
  used_eq := by
    show arena.writeCur.toNat = 0
    rw [hcur]
    rfl
  size_eq := rfl
  inside _ _ ha := absurd ha (Nat.not_lt_zero _)
  apart _ _ _ _ ha := absurd ha (Nat.not_lt_zero _)
  text _ := ⟨rfl, rfl, fun _ hi => absurd hi (Nat.not_lt_zero _)⟩
  capacity _ := rfl

end

/-- A run of calls on strings in an arena, each of them one whose result is promised, returns what
is promised, and then the strings hold the texts. -/
theorem runPool_refines {ι : Type} [DecidableEq ι] (arena : Buffer) (m : Mem)
    (harena : IsArena arena) (hcur : arena.writeCur = 0) (hsmall : arena.size.toNat + 4 < 2 ^ 64)
    (hread : m.Readable arena.base arena.size.toNat)
    (hw : ∀ i : Usz, i.toNat < arena.size.toNat → m.writable (arena.base + i))
    (ops : List (PoolOp ι)) (replies : List Reply) (texts : Texts ι)
    (hspec : runIn PoolOp.spec ops (Texts.start arena.size.toNat) = some (replies, texts)) :
    ∃ p, runIn PoolOp.exec ops (Pool.start arena m) = .ok (replies, p) ∧ p.Holds texts :=
  runIn_of_simulates simulates (Pool.holds_start harena hcur hsmall hread hw) hspec

/-! Two strings in 64 bytes: a number in UTF-8, and a copy of it in UTF-16. -/

def poolArena : Buffer := ⟨0x1000, 0, 64⟩

def poolMem : Mem := ⟨fun _ => 0, fun _ => true, fun _ => true⟩

def poolOps : List (PoolOp Bool) :=
  [.pushString true 10 .utf8, .pushString false 30 .utf16le,
    .appendUInt 1234 true, .appendString true false,
    .appendChar '€' true, .replaceChar '2' '9' true, .stringLen true,
    .charInString '€' true, .stringToUInt false,
    .advanceString 2 true, .appendString false true, .equalStrings true false,
    .pushString true 30 .utf8]

def poolReplies : List Reply :=
  [.bool true, .bool true, .bool true, .bool true, .bool true, .bool true, .usz 5, .usz 4,
    .usz 1234, .none, .bool false, .bool false, .bool false]

theorem runPool_refines_two :
    ∃ p, runIn PoolOp.exec poolOps (Pool.start poolArena poolMem) = .ok (poolReplies, p) ∧
    HoldsText p.m (p.strings true) .utf8 ['3', '4', '€'] ∧
      HoldsText p.m (p.strings false) .utf16le ['1', '2', '3', '4'] := by
  have hspec : ∃ texts, runIn PoolOp.spec poolOps (Texts.start poolArena.size.toNat) =
      some (poolReplies, texts) ∧
      ((texts.text true).form = .utf8 ∧ (texts.text true).chars = ['3', '4', '€']) ∧
      ((texts.text false).form = .utf16le ∧ (texts.text false).chars = ['1', '2', '3', '4']) :=
    ⟨_, rfl, ⟨rfl, rfl⟩, rfl, rfl⟩
  obtain ⟨texts, hspec, ⟨hform, hchars⟩, hform', hchars'⟩ := hspec
  have harena : IsArena poolArena := .of_lt (by decide) (by decide) (by decide)
  obtain ⟨p, hrun, hholds⟩ :=
    runPool_refines poolArena poolMem harena rfl (by decide) (fun _ _ => rfl) (fun _ _ => rfl)
    poolOps poolReplies texts hspec
  have htrue := hholds.text true
  have hfalse := hholds.text false
  rw [hform, hchars] at htrue
  rw [hform', hchars'] at hfalse
  exact ⟨p, hrun, htrue, hfalse⟩

end TinyBase
