import TinyBase.CharByChar
import TinyBase.Parse

/-!
# Classifying and reading a string in any encoding (`StringIsDigit`, `StringIsLetter`,
`StringIsAlphanum`)

The loops go on by a size that depends on the encoding alone, and the `StringIs` functions take
UTF-8 for ASCII. They give up at the first character that is not ASCII, and so never get into the
middle of one: what they return depends on the scalar values only.
-/

namespace TinyBase
open Unicode

def charIsLetter (char : MbChar) : Bool := (char ≥ 97 && char ≤ 122) || (char ≥ 65 && char ≤ 90)

def charIsAlphanum (char : MbChar) : Bool :=
  (char ≥ 97 && char ≤ 122) || (char ≥ 65 && char ≤ 90) || (char ≥ 48 && char ≤ 57)

/-- `StringIsDigit`, `StringIsLetter` and `StringIsAlphanum`: UTF-8 is read as ASCII. -/
def stringIs (charIs : MbChar → Bool) (src : String) (m : Mem) : Res Bool := do
  let ec := if src.enc = .utf8 then .ascii else src.enc
  let all ← parseChars (fun (_ : Unit) char => if charIs char then some ()
    else none) { src with enc := ec } m 0 ()
  pure all.isSome

def stringIsDigit (src : String) (m : Mem) : Res Bool := stringIs charIsDigit src m

def stringIsLetter (src : String) (m : Mem) : Res Bool := stringIs charIsLetter src m

def stringIsAlphanum (src : String) (m : Mem) : Res Bool := stringIs charIsAlphanum src m

/-! ### Characters that are not ASCII -/

section
variable {F : Form} {c : Char} {cs : List Char} {m : Mem} {src : String} {x : MbChar}

theorem not_le_of_le {y : MbChar} (hx : 128 ≤ x.toNat) (hy : y.toNat < 128) : ¬ x ≤ y := fun hle =>
  absurd (UInt32.le_iff_toNat_le.1 hle) (by omega)

theorem charIsDigit_of_le (hx : 128 ≤ x.toNat) : charIsDigit x = false := by
  simp [charIsDigit, not_le_of_le hx]

theorem charIsHexDigit_of_le (hx : 128 ≤ x.toNat) : charIsHexDigit x = false := by
  simp [charIsHexDigit, not_le_of_le hx]

theorem charIsLetter_of_le (hx : 128 ≤ x.toNat) : charIsLetter x = false := by
  simp [charIsLetter, not_le_of_le hx]

theorem charIsAlphanum_eq (x : MbChar) : charIsAlphanum x = (charIsLetter x || charIsDigit x) := rfl

theorem charIsLetter_val (c : Char) : charIsLetter c.val = c.isAlpha := by
  show _ = (decide (c.val ≥ 65 ∧ c.val ≤ 90) || c.isLower)
  rw [charIsLetter, Bool.or_comm, Bool.decide_and]
  rfl

/-- The packed form of a character that is not ASCII is no ASCII character. -/
theorem le_packed (hc : 128 ≤ c.toNat) (F : Form) : 128 ≤ (packed F c).toNat := by
  by_contra hlt
  have hlt : (packed F c).toNat < 128 := Nat.lt_of_not_le hlt
  have hdecode := decodeChar_packed F c
  have h80 : packed F c < 0x80 := UInt32.lt_iff_toNat_lt.2 hlt
  have hffff : packed F c ≤ 0xFFFF := UInt32.le_iff_toNat_le.2 (by simp; omega)
  have hsame : decodeChar (packed F c) (encodingOf F) = packed F c := by
    generalize packed F c = x at h80 hffff
    cases F with
    | utf8 => exact if_pos h80
    | utf16le | utf16be =>
      exact if_neg fun hgt =>
        absurd (UInt32.lt_iff_toNat_lt.1 hgt) (Nat.not_lt.2 (UInt32.le_iff_toNat_le.1 hffff))
    | utf32le | utf32be => rfl
  rw [hsame] at hdecode
  rw [hdecode] at hlt
  exact Nat.not_le.2 hlt hc

theorem digitSize_le_length_bytes (F : Form) (c : Char) :
    (digitSize (encodingOf F)).toNat ≤ (F.bytes c).length := by
  rw [length_bytes]
  cases F with
  | utf8 => exact (getMultibyteCharSize_le _ _).1
  | utf16le | utf16be =>
    simp only [encodingOf, getMultibyteCharSize]
    split_ifs <;> decide
  | utf32le | utf32be => exact Nat.le_refl _

theorem length_encode_ascii (hcs : ∀ c ∈ cs, c.toNat < 128) (F : Form) :
    (F.encode cs).length = cs.length * (digitSize (encodingOf F)).toNat := by
  rw [← length_textBytes hcs]
  cases F <;> rfl

theorem HoldsText.readsChars (h : HoldsText m src F cs) : ReadsChars m src cs where
  len hcs := by rw [h.len, length_encode_ascii hcs, h.enc]
  next {pre post c} hcs hpre idx hidx := by
    subst hcs
    rw [h.enc, ← length_encode_ascii hpre] at hidx
    have hlen := h.len
    have hsize := digitSize_le_length_bytes F c
    rw [Form.encode_append, Form.encode_cons, List.length_append, List.length_append] at hlen
    refine ⟨by rw [h.enc]; omega, _, (h.next hidx).1, ?_⟩
    rcases Nat.lt_or_ge c.toNat 128 with hlt | hge
    · exact .inl (packed_of_lt hlt F)
    · exact .inr ⟨hge, le_packed hge F⟩

theorem HoldsText.readsChars_ascii (h : HoldsText m src .utf8 cs) :
    ReadsChars m { src with enc := .ascii } cs where
  len hcs := h.len.trans (length_encode_ascii hcs .utf8)
  next {pre post c} hcs hpre idx hidx := by
    subst hcs
    have hidx : idx.toNat = (Form.utf8.encode pre).length :=
      hidx.trans (length_encode_ascii hpre .utf8).symm
    obtain ⟨b, bs, hb, hfirst⟩ := utf8EncodeChar_first c
    have hbytes : Form.utf8.encode (c :: post) = b :: (bs ++ Form.utf8.encode post) := by
      rw [Form.encode_cons, Form.bytes, hb]
      rfl
    have hread : m.read (src.base + idx) = .ok b := by
      have hzero := (h.reads_shift hidx).zero (by rw [hbytes]; exact Nat.succ_pos _)
      rwa [hbytes] at hzero
    have hlen := h.len
    rw [Form.encode_append, hbytes, List.length_append, List.length_cons] at hlen
    refine ⟨?_, b.toUInt32, ?_, ?_⟩
    · show idx.toNat + 1 ≤ src.writeCur.toNat
      omega
    · show (readBytes m.read (src.base + idx) 1 >>= _) = _
      rw [readBytes, hread]
      rfl
    · rwa [UInt8.toNat_toUInt32]

/-! ### What the functions return -/

theorem foldlM_all (p : Char → Bool) (cs : List Char) :
    cs.foldlM (fun (_ : Unit) c => if p c then some () else none) () = if cs.all p then some ()
      else none := by
  induction cs with
  | nil => rfl
  | cons c cs ih =>
    rw [List.foldlM_cons, List.all_cons]
    cases p c
    · rfl
    · exact ih

/-- The `StringIs` functions test every scalar value. -/
theorem stringIs_text {charIs : MbChar → Bool} (hreject : ∀ x, 128 ≤ x.toNat → charIs x = false)
    (h : HoldsText m src F cs) : stringIs charIs src m = .ok (cs.all fun c => charIs c.val) := by
  have hchars :
      ReadsChars m { src with enc := if src.enc = .utf8 then .ascii else src.enc } cs := by
    split_ifs with henc
    · have hF : F = .utf8 := by
        rw [h.enc] at henc
        cases F <;> first | rfl | cases henc
      subst hF
      exact h.readsChars_ascii
    · exact h.readsChars
  have hloop := hchars.parseChars_eq (fun (_ : Unit) char => if charIs char then some () else none)
    (fun _ _ _ _ x hx => by rw [hreject x hx]; rfl) [] cs rfl (List.forall_mem_nil _)
    (show (0 : Usz).toNat = _ by simp) ()
  rw [stringIs, hloop, Except.ok_bind, foldlM_all (fun c => charIs c.val)]
  cases cs.all fun c => charIs c.val <;> rfl

/-- The number that the characters are the digits of, in 64 bits, or what stands for no number. -/
def uintOf (cs : List Char) : Usz := (cs.foldlM (fun s c => uintStep s c.val) 0).getD uszMax

def hexOf (cs : List Char) : Usz := (cs.foldlM (fun s c => hexStep s c.val) 0).getD uszMax

def intOf : List Char → Isz
  | [] => 0
  | c :: cs =>
    if c.val = 45 then ((cs.foldlM (fun s c => intStep s c.val) 0).map (· * -1)).getD iszMax
    else (((c :: cs).foldlM (fun s c => intStep s c.val) 0).map (· * 1)).getD iszMax

theorem uintStep_of_le (hx : 128 ≤ x.toNat) (s : Usz) : uintStep s x = none := by
  rw [uintStep, charIsDigit_of_le hx]
  rfl

theorem intStep_of_le (hx : 128 ≤ x.toNat) (s : Isz) : intStep s x = none := by
  rw [intStep, charIsDigit_of_le hx]
  rfl

theorem hexStep_of_le (hx : 128 ≤ x.toNat) (s : Usz) : hexStep s x = none := by
  rw [hexStep, charIsDigit_of_le hx, charIsHexDigit_of_le hx]
  rfl

theorem stringToUInt_text (h : HoldsText m src F cs) : stringToUInt src m = .ok (uintOf cs) := by
  rw [stringToUInt, uintOf,
    h.readsChars.parseChars_eq uintStep (fun _ _ _ s _ hx => uintStep_of_le hx s) [] cs rfl
    (List.forall_mem_nil _) (by simp) 0, Except.ok_bind]
  cases cs.foldlM (fun s c => uintStep s c.val) 0 <;> rfl

theorem uintOf_digits (hcs : ∀ c ∈ cs, c.isDigit) :
    uintOf cs = UInt64.ofNat (Nat.ofDigitChars 10 cs 0) := by
  have hrun : cs.foldlM (fun s (c : Char) => uintStep s c.val) 0 =
      some (UInt64.ofNat (Nat.ofDigitChars 10 cs 0)) :=
    foldlM_uintStep hcs 0
  rw [uintOf, hrun, Option.getD_some]

/-- A character that is no digit is not read over. -/
theorem uintOf_of_not_digit (hcs : ∃ c ∈ cs, ¬ c.isDigit) : uintOf cs = uszMax := by
  have hnone : ∀ s, cs.foldlM (fun s (c : Char) => uintStep s c.val) s = none := by
    induction cs with
    | nil =>
      obtain ⟨c, hc, -⟩ := hcs
      exact absurd hc List.not_mem_nil
    | cons d ds ih =>
      intro s
      rw [List.foldlM_cons, uintStep]
      split_ifs with hd
      · obtain ⟨c, hc, hnot⟩ := hcs
        rcases List.mem_cons.1 hc with rfl | hc
        · exact absurd ((charIsDigit_iff c).1 hd) hnot
        · exact ih ⟨c, hc, hnot⟩ _
      · rfl
  rw [uintOf, hnone]
  rfl

theorem ReadsChars.stringToHex_eq (h : ReadsChars m src cs) :
    stringToHex src m = .ok (hexOf cs) := by
  rw [stringToHex, hexOf, h.parseChars_eq hexStep (fun _ _ _ s _ hx => hexStep_of_le hx s) [] cs rfl
    (List.forall_mem_nil _) (by simp) 0, Except.ok_bind]
  cases cs.foldlM (fun s c => hexStep s c.val) 0 <;> rfl

/-- A sign is read only if it is there. -/
theorem stringToInt_text (h : HoldsText m src F (c :: cs)) :
    stringToInt src m = .ok (intOf (c :: cs)) := by
  have hreject : ∀ d ∈ c :: cs, 128 ≤ d.toNat → ∀ (s : Isz) (x : MbChar),
      128 ≤ x.toNat → intStep s x = none :=
    fun _ _ _ s _ hx => intStep_of_le hx s
  obtain ⟨-, x, hx, hxc⟩ :=
    h.readsChars.next (show c :: cs = [] ++ c :: cs from rfl) (List.forall_mem_nil _)
    (show (0 : Usz).toNat = _ by simp)
  rw [UInt64.add_zero] at hx
  have hsign : x = 45 ↔ c.val = 45 := by
    have hval : c.val.toNat = c.toNat := rfl
    rcases hxc with rfl | ⟨hc, hx⟩
    · rfl
    · rw [← UInt32.toNat_inj, ← UInt32.toNat_inj, hval]
      simp only [UInt32.reduceToNat]
      omega
  rw [stringToInt, hx, Except.ok_bind, intOf]
  simp only [hsign]
  split_ifs with hminus
  · have hascii : c.toNat < 128 := by
      show c.val.toNat < 128
      rw [hminus]
      decide
    rw [h.readsChars.parseChars_eq intStep hreject [c] cs rfl (by simpa using hascii) (by simp) 0,
      Except.ok_bind]
    cases cs.foldlM (fun s c => intStep s c.val) 0 <;> rfl
  · rw [h.readsChars.parseChars_eq intStep hreject [] (c :: cs) rfl (List.forall_mem_nil _)
      (by simp) 0, Except.ok_bind]
    cases (c :: cs).foldlM (fun s c => intStep s c.val) 0 <;> rfl

end

/-- In two encodings of a list that is not empty the functions return the same: the `StringIs`
functions what the scalar values are, the others the number that they come to. -/
theorem classify_agree (F G : Form) (cs : List Char) (hne : cs ≠ [])
    (m m' : Mem) (src src' : String) (h : HoldsText m src F cs) (h' : HoldsText m' src' G cs) :
    (stringIsDigit src m = .ok (cs.all Char.isDigit) ∧
      stringIsDigit src' m' = .ok (cs.all Char.isDigit)) ∧
      (stringIsLetter src m = .ok (cs.all Char.isAlpha) ∧
        stringIsLetter src' m' = .ok (cs.all Char.isAlpha)) ∧
      (stringIsAlphanum src m = .ok (cs.all Char.isAlphanum) ∧
        stringIsAlphanum src' m' = .ok (cs.all Char.isAlphanum)) ∧
      (stringToInt src m = .ok (intOf cs) ∧ stringToInt src' m' = .ok (intOf cs)) ∧
      (stringToUInt src m = .ok (uintOf cs) ∧ stringToUInt src' m' = .ok (uintOf cs)) ∧
      stringToHex src m = .ok (hexOf cs) ∧ stringToHex src' m' = .ok (hexOf cs) := by
  obtain ⟨c, cs, rfl⟩ := List.exists_cons_of_ne_nil hne
  have hdigit : (fun c : Char => charIsDigit c.val) = Char.isDigit := rfl
  have hletter : (fun c : Char => charIsLetter c.val) = Char.isAlpha := funext charIsLetter_val
  have halphanum : (fun c : Char => charIsAlphanum c.val) = Char.isAlphanum := funext fun c => by
    rw [charIsAlphanum_eq, charIsLetter_val]
    rfl
  have hreject : ∀ x : MbChar, 128 ≤ x.toNat → charIsAlphanum x = false := fun x hx => by
    rw [charIsAlphanum_eq, charIsLetter_of_le hx, charIsDigit_of_le hx]
    rfl
  rw [← hdigit, ← hletter, ← halphanum]
  exact ⟨⟨stringIs_text (fun _ => charIsDigit_of_le) h,
    stringIs_text (fun _ => charIsDigit_of_le) h'⟩,
    ⟨stringIs_text (fun _ => charIsLetter_of_le) h, stringIs_text (fun _ => charIsLetter_of_le) h'⟩,
    ⟨stringIs_text hreject h, stringIs_text hreject h'⟩, ⟨stringToInt_text h, stringToInt_text h'⟩,
    ⟨stringToUInt_text h, stringToUInt_text h'⟩, h.readsChars.stringToHex_eq,
    h'.readsChars.stringToHex_eq⟩

/-! The two characters of `euroText`, in UTF-8 and in UTF-32LE. -/

theorem classify_agree_euro :
    stringIsDigit euroSrc euroMem = .ok false ∧ stringIsDigit wideSrc wideMem = .ok false ∧
    stringToHex euroSrc euroMem = .ok uszMax ∧ stringToHex wideSrc wideMem = .ok uszMax := by
  have hsrc : HoldsText euroMem euroSrc .utf8 euroText :=
    ⟨rfl, by decide, Mem.holds_store fun _ _ => rfl⟩
  have hwide : HoldsText wideMem wideSrc .utf32le euroText :=
    ⟨rfl, by decide, Mem.holds_store fun _ _ => rfl⟩
  obtain ⟨⟨hdigit, hdigit'⟩, -, -, -, -, hhex⟩ :=
    classify_agree .utf8 .utf32le euroText (by decide) euroMem wideMem euroSrc wideSrc hsrc hwide
  exact ⟨hdigit, hdigit', hhex⟩

end TinyBase
