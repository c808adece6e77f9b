import TinyBase.MakeDir
import TinyBase.Numbers
import TinyBase.StringLen
import TinyBase.Transcode

/-!
# Strings that end in a zero (`StringC`, `AppendArrayToString`)

The length is found by a scan for a zero code unit. An encoding is a list of code units that are not
zero, though there are zero bytes in them, so the scan stops at the end of the text.
-/

namespace TinyBase
open Unicode

def stringC (base : Ptr) (enc : Encoding) (m : Mem) : Res String := do
  let result : String := { base := base, writeCur := 0, size := 0, enc := enc }
  let writeCur ← stringLen result .cstring m
  pure { result with toBuffer := { result.toBuffer with writeCur := writeCur } }

def appendArrayToString (src : Ptr) (dst : String) (m : Mem) : Res (Bool × String × Mem) := do
  let nulIdx ← stringLen { base := src, writeCur := 0, size := 0, enc := dst.enc } .cstring m
  appendToString m.read src nulIdx dst m

/-! ### Code units -/

/-- `bs` is made of units of `w` bytes, and none of them is zero. -/
def NonzeroUnits (w : Nat) (bs : List UInt8) : Prop :=
  ∃ us : List (List UInt8), us.flatten = bs ∧ ∀ u ∈ us, u.length = w ∧ ∃ b ∈ u, b ≠ 0

namespace NonzeroUnits
variable {w v : Nat} {bs bs' : List UInt8}

theorem nil : NonzeroUnits w [] := ⟨[], rfl, by simp⟩

theorem single (hlen : bs.length = w) (hbs : ∃ b ∈ bs, b ≠ 0) : NonzeroUnits w bs :=
  ⟨[bs], List.flatten_singleton, fun u hu => by rw [List.mem_singleton.1 hu]; exact ⟨hlen, hbs⟩⟩

theorem append (h : NonzeroUnits w bs) (h' : NonzeroUnits w bs') : NonzeroUnits w (bs ++ bs') := by
  obtain ⟨us, rfl, hus⟩ := h
  obtain ⟨us', rfl, hus'⟩ := h'
  refine ⟨us ++ us', List.flatten_append, fun u hu => ?_⟩
  rcases List.mem_append.1 hu with hu | hu
  · exact hus u hu
  · exact hus' u hu

theorem flatMap {α : Type} {f : α → List UInt8} {xs : List α} (h : ∀ x ∈ xs, NonzeroUnits w (f x)) :
    NonzeroUnits w (xs.flatMap f) := by
  induction xs with
  | nil => exact nil
  | cons x xs ih =>
    rw [List.forall_mem_cons] at h
    rw [List.flatMap_cons]
    exact h.1.append (ih h.2)

theorem of_bytes (h : ∀ b ∈ bs, b ≠ 0) : NonzeroUnits 1 bs := by
  have hunits : NonzeroUnits 1 (bs.flatMap fun b => [b]) :=
    flatMap fun b hb => single rfl ⟨b, List.mem_singleton_self b, h b hb⟩
  rwa [List.flatMap_singleton'] at hunits

theorem of_leBytes (hv : v < 256 ^ w) (h0 : v ≠ 0) : NonzeroUnits w (leBytes w v) :=
  single (length_leBytes w v) (exists_leBytes_ne_zero hv h0)

theorem of_leBytes_reverse (hv : v < 256 ^ w) (h0 : v ≠ 0) :
    NonzeroUnits w (leBytes w v).reverse := by
  obtain ⟨b, hb, hne⟩ := exists_leBytes_ne_zero hv h0
  exact single (by rw [List.length_reverse, length_leBytes]) ⟨b, List.mem_reverse.2 hb, hne⟩

end NonzeroUnits

/-- The bytes of a code unit. -/
def unitSize : Form → Nat
  | .utf8 => 1
  | .utf16le | .utf16be => 2
  | .utf32le | .utf32be => 4

theorem utf16Units_ne_zero {c : Char} (hc : c.val.toNat ≠ 0) :
    ∀ u ∈ utf16Units c, u ≠ 0 ∧ u < 256 ^ 2 := by
  have hlt := scalar_lt c
  intro u hu
  rw [utf16Units] at hu
  generalize c.val.toNat = v at hc hlt hu
  split_ifs at hu with hsmall
  · rw [List.mem_singleton.1 hu]
    omega
  · have hhigh : (v - 0x10000) / 0x400 < 0x400 := by omega
    have hlow : (v - 0x10000) % 0x400 < 0x400 := Nat.mod_lt _ (by decide)
    rcases List.mem_pair.1 hu with hu | hu
    · rw [hu]; omega
    · rw [hu]; omega

theorem utf8EncodeChar_ne_zero {c : Char} (hc : c.val.toNat ≠ 0) :
    ∀ b ∈ String.utf8EncodeChar c, b ≠ 0 := by
  have hlt := scalar_lt c
  simp only [String.utf8EncodeChar]
  generalize c.val.toNat = v at hc hlt
  intro b hb
  rw [← UInt8.toNat_inj.ne]
  split_ifs at hb <;> simp only [List.mem_cons, List.not_mem_nil, or_false] at hb
  · subst hb; simp; omega
  · rcases hb with rfl | rfl <;> simp <;> omega
  · rcases hb with rfl | rfl | rfl <;> simp <;> omega
  · rcases hb with rfl | rfl | rfl | rfl <;> simp <;> omega

theorem nonzeroUnits_bytes (F : Form) {c : Char} (hc : c.val.toNat ≠ 0) :
    NonzeroUnits (unitSize F) (F.bytes c) := by
  have hlt := scalar_lt c
  cases F with
  | utf8 => exact .of_bytes (utf8EncodeChar_ne_zero hc)
  | utf16le =>
    exact .flatMap fun u hu =>
      .of_leBytes (utf16Units_ne_zero hc u hu).2 (utf16Units_ne_zero hc u hu).1
  | utf16be =>
    exact .flatMap fun u hu =>
      .of_leBytes_reverse (utf16Units_ne_zero hc u hu).2 (utf16Units_ne_zero hc u hu).1
  | utf32le => exact .of_leBytes (by simp only [unitSize]; omega) hc
  | utf32be => exact .of_leBytes_reverse (by simp only [unitSize]; omega) hc

theorem lenCString_eq {w : Nat} {rd : Reader} {p : Ptr} {bs : List UInt8} (hbs : NonzeroUnits w bs)
    (h : Holds rd p (bs ++ zeros w)) (hw : 0 < w) (hlen : bs.length + w < 2 ^ 64) :
    lenCString (UInt64.ofNat w) p rd = .ok (UInt64.ofNat bs.length) := by
  obtain ⟨us, rfl, hus⟩ := hbs
  have hword : (UInt64.ofNat w).toNat = w := UInt64.toNat_ofNat_of_lt_two_pow (by omega)
  refine Except.wp_eq.1
    (wp_whileLoop_of_bound (fun k ptr => ∃ done rest, us = done ++ rest ∧ rest.flatten.length = k ∧
    ptr = p + UInt64.ofNat done.flatten.length) ?_
      ⟨[], us, rfl, rfl, by simp⟩ (Nat.lt_of_le_of_lt (Nat.le_add_right _ w) hlen))
  rintro k _ ⟨done, rest, rfl, rfl, rfl⟩
  rw [List.flatten_append, List.length_append] at hlen
  have hdone : (UInt64.ofNat done.flatten.length).toNat = done.flatten.length :=
    UInt64.toNat_ofNat_of_lt_two_pow (by omega)
  have hrest : Holds rd (p + UInt64.ofNat done.flatten.length) (rest.flatten ++ zeros w) := by
    have hdrop := h.drop (UInt64.ofNat done.flatten.length)
      (by rw [hdone, List.flatten_append]; simp only [List.length_append]; omega)
      (by rw [List.flatten_append]; simp only [List.length_append, length_zeros]; omega)
    rwa [hdone, List.flatten_append, List.append_assoc, List.drop_left] at hdrop
  cases rest with
  | nil =>
    have hzero : readBytes rd (p + UInt64.ofNat done.flatten.length) (zeros w).length =
        .ok (zeros w) :=
      readBytes_of_holds hrest (by rw [length_zeros]; omega)
    rw [length_zeros] at hzero
    have hall : (zeros w).all (· == 0) = true := by simp [zeros]
    have hback : p + UInt64.ofNat done.flatten.length - p = UInt64.ofNat done.flatten.length := by
      grind
    rw [hword, hzero, Except.ok_bind, if_pos hall, Except.wp_pure,
      Ctl.post_done, hback, List.append_nil]
  | cons u rest =>
    obtain ⟨hu, b, hb, hne⟩ := hus u (by simp)
    rw [List.flatten_cons, List.append_assoc] at hrest
    rw [List.flatten_cons, List.length_append] at hlen ⊢
    have hread := readBytes_of_holds hrest.of_append (by omega)
    rw [hu] at hread
    have hall : ¬ u.all (· == 0) = true := fun h0 => hne (by simpa using List.all_eq_true.1 h0 b hb)
    rw [hword, hread, Except.ok_bind, if_neg hall, Except.wp_pure, Ctl.post_next]
    refine ⟨rest.flatten.length, by omega, done ++ [u], rest, by simp, rfl, ?_⟩
    rw [UInt64.add_assoc, ← UInt64.ofNat_add, List.flatten_append, List.length_append,
      List.flatten_singleton, hu]

theorem appendToString_of_holds {rd : Reader} {src : Ptr} {srcSize : Usz}
    {bs : List UInt8} {m : Mem} {dst : String} (hdst : Writable m dst) (h : Holds rd src bs)
    (hsize : srcSize.toNat = bs.length) (hroom : bs.length ≤ dst.room) :
    appendToString rd src srcSize dst m = .ok (true, dst.grown bs.length,
      m.store (dst.base + dst.writeCur) bs) := by
  have hreads : Reads rd src srcSize.toNat (bs.getD · 0) := by rwa [hsize]
  have happ := appendToString_spec hdst hreads
  rw [hsize, map_getD_range (Nat.le_refl _), List.take_length] at happ
  exact happ.of_le hroom

section
variable {F : Form} {cs : List Char} {base : Ptr} {m : Mem}

/-- Text with a zero code unit behind it. -/
def HoldsCString (m : Mem) (base : Ptr) (F : Form) (cs : List Char) : Prop :=
  Holds m.read base (F.encode cs ++ zeros (unitSize F))

theorem stringLen_cstring (h : HoldsCString m base F cs) (hcs : ∀ c ∈ cs, c.val.toNat ≠ 0)
    (hlen : (F.encode cs).length + unitSize F < 2 ^ 64) :
    stringLen { base := base, writeCur := 0, size := 0, enc := encodingOf F } .cstring m =
      .ok (UInt64.ofNat (F.encode cs).length) := by
  have hunits : NonzeroUnits (unitSize F) (F.encode cs) :=
    .flatMap fun c hc => nonzeroUnits_bytes F (hcs c hc)
  have hscan := lenCString_eq hunits h (by cases F <;> decide) hlen
  cases F <;> exact hscan

end

/-- A text in one of the five encoding schemes is found whole, whatever zero bytes are in it. The
text and the free room of the destination are taken not to overlap: `memcpy` is not for them if they
do, which the copy here does not notice. -/
theorem cString_text (F : Form) (cs : List Char) (hcs : ∀ c ∈ cs, c ≠ Char.ofNat 0) (m : Mem)
    (base : Ptr) (h : HoldsCString m base F cs)
    (hlen : (F.encode cs).length + unitSize F < 2 ^ 64) :
    (∃ src, stringC base (encodingOf F) m = .ok src ∧ src.base = base ∧
      src.writeCur.toNat = (F.encode cs).length ∧ HoldsText m src F cs) ∧
    ∀ dst, Writable m dst → dst.enc = encodingOf F → (F.encode cs).length ≤ dst.room →
      appendArrayToString base dst m =
        .ok (true, dst.grown (F.encode cs).length,
          m.store (dst.base + dst.writeCur) (F.encode cs)) := by
  have hne : ∀ c ∈ cs, c.val.toNat ≠ 0 := fun c hc h0 => hcs c hc (Char.ext (UInt32.toNat_inj.1 h0))
  have hscan := stringLen_cstring h hne hlen
  have hcount : (UInt64.ofNat (F.encode cs).length).toNat = (F.encode cs).length :=
    UInt64.toNat_ofNat_of_lt_two_pow (by omega)
  constructor
  · refine ⟨_, by rw [stringC, hscan]; rfl, rfl, hcount, rfl, hcount, h.of_append⟩
  · intro dst hdst henc hroom
    rw [appendArrayToString, henc, hscan, Except.ok_bind]
    exact appendToString_of_holds hdst h.of_append hcount hroom

/-! Zero bytes in front of and behind those of a unit. -/

def zeroByteText : List Char := ['Ā', 'a', '😀']

def zeroByteMem : Mem :=
  (⟨fun _ => 0xEE, fun _ => true, fun _ => true⟩ : Mem).store 16
    (Form.utf16be.encode zeroByteText ++ zeros 2)

theorem cString_text_zeroBytes :
    (∃ src, stringC 16 .utf16be zeroByteMem = .ok src ∧ src.writeCur.toNat = 8) ∧
    appendArrayToString 16 { base := 64, writeCur := 1, size := 9, enc := .utf16be } zeroByteMem =
      .ok (true, { base := 64, writeCur := 9, size := 9, enc := .utf16be },
        zeroByteMem.store 65 (Form.utf16be.encode zeroByteText)) := by
  have hholds : HoldsCString zeroByteMem 16 .utf16be zeroByteText := Mem.holds_store fun _ _ => rfl
  obtain ⟨⟨src, hsrc, -, hlen, -⟩, happ⟩ :=
    cString_text .utf16be zeroByteText (by simp [zeroByteText]) zeroByteMem 16 hholds (by decide)
  exact ⟨⟨src, hsrc, hlen⟩, happ _ ⟨by decide, by decide, fun _ _ => rfl⟩ rfl (by decide)⟩

end TinyBase
