import TinyBase.AsciiText
import TinyBase.Lib.Decimal

/-!
# Reading integers (`StringToInt`, `StringToUInt`, `StringToHex`)

The loops take the characters of a string one by one, with a character size that depends on the
encoding alone, and leave the string at the first character that is no digit. The accumulator is a
64-bit word: it is the number the digits denote, modulo 2^64.
-/

namespace TinyBase

open Decimal

def charIsDigit (char : MbChar) : Bool := char ≥ 48 && char ≤ 57

def charIsHexDigit (char : MbChar) : Bool :=
  (char ≥ 48 && char ≤ 57) || (char ≥ 65 && char ≤ 70) || (char ≥ 97 && char ≤ 102)

/-- `ISZ_MAX`. -/
def iszMax : Isz := 0x7FFFFFFFFFFFFFFF

/-- The loop over the characters of a number: `step` takes a character in, or rejects it. -/
def parseChars {σ : Type} (step : σ → MbChar → Option σ) (src : String)
    (m : Mem) (idx : Usz) (s : σ) : Res (Option σ) :=
  whileLoop (fun (idx, s) =>
    if idx < src.writeCur then do
      let char ← getNextChar m.read (src.base + idx) src.enc
      match step s char with
      | none => pure (.done none)
      | some s => pure (.next (idx + digitSize src.enc, s))
    else pure (.done (some s))) (idx, s)

/-- The body of the loop of `StringToInt`. -/
def intStep (result : Isz) (char : MbChar) : Option Isz :=
  if charIsDigit char then some (result * 10 + char.toUInt64.toInt64 - 48) else none

def stringToInt (src : String) (m : Mem) : Res Isz := do
  let char ← getNextChar m.read src.base src.enc
  let sign : Isz := if char = 45 then -1 else 1
  let idx : Usz := if char = 45 then digitSize src.enc else 0
  match ← parseChars intStep src m idx 0 with
  | none => pure iszMax
  | some result => pure (result * sign)

/-- The body of the loop of `StringToUInt`. -/
def uintStep (result : Usz) (char : MbChar) : Option Usz :=
  if charIsDigit char then some (result * 10 + char.toUInt64 - 48) else none

def stringToUInt (src : String) (m : Mem) : Res Usz := do
  match ← parseChars uintStep src m 0 0 with
  | none => pure uszMax
  | some result => pure result

/-- The body of the loop of `StringToHex`. -/
def hexStep (result : Usz) (char : MbChar) : Option Usz :=
  if charIsDigit char then some (result * 16 + char.toUInt64 - 48)
  else if charIsHexDigit char then some (result * 16 + char.toUInt64 - 65 + 10)
  else none

def stringToHex (src : String) (m : Mem) : Res Usz := do
  match ← parseChars hexStep src m 0 0 with
  | none => pure uszMax
  | some result => pure result

section
variable {σ : Type} {m : Mem} {src : String} {cs : List Char}

/-- Taken one by one at the size that depends on the encoding alone, the characters read are those
of `cs` as far as they are ASCII; the first other one is read as some number that is not ASCII
either. -/
structure ReadsChars (m : Mem) (src : String) (cs : List Char) : Prop where
  len : (∀ c ∈ cs, c.toNat < 128) → src.writeCur.toNat = cs.length * (digitSize src.enc).toNat
  next : ∀ {pre post c}, cs = pre ++ c :: post → (∀ d ∈ pre, d.toNat < 128) →
    ∀ {idx : Usz}, idx.toNat = pre.length * (digitSize src.enc).toNat →
      idx.toNat + (digitSize src.enc).toNat ≤ src.writeCur.toNat ∧
        ∃ x, getNextChar m.read (src.base + idx) src.enc = .ok x ∧
        (x = c.val ∨ 128 ≤ c.toNat ∧ 128 ≤ x.toNat)

theorem HoldsAscii.readsChars (h : HoldsAscii m src cs) : ReadsChars m src cs where
  len _ := h.length_eq
  next hcs _ _ hidx := by
    subst hcs
    have hlen := h.length_eq
    rw [List.length_append, List.length_cons, Nat.add_mul, Nat.succ_mul] at hlen
    exact ⟨by omega, _, h.getNextChar_eq hidx, .inl rfl⟩

/-- The loop takes in the characters, if it gives up at those that are not ASCII. -/
theorem ReadsChars.parseChars_eq (h : ReadsChars m src cs) (step : σ → MbChar → Option σ)
    (hreject : ∀ c ∈ cs, 128 ≤ c.toNat → ∀ s x, 128 ≤ x.toNat → step s x = none)
    (pre rest : List Char) (hcs : cs = pre ++ rest) (hpre : ∀ c ∈ pre, c.toNat < 128) {idx : Usz}
    (hidx : idx.toNat = pre.length * (digitSize src.enc).toNat) (s : σ) :
    parseChars step src m idx s = .ok (rest.foldlM (fun s c => step s c.val) s) := by
  have hsize := (digitSize_le src.enc).1
  rw [← Except.wp_eq]
  refine wp_whileLoop (fun (idx, s') => ∃ pre' rest' : List Char, cs = pre' ++ rest' ∧
    (∀ c ∈ pre', c.toNat < 128) ∧
      idx.toNat = pre'.length * (digitSize src.enc).toNat ∧
      rest.foldlM (fun s c => step s c.val) s = rest'.foldlM (fun s c => step s c.val) s')
    (fun (idx, _) => src.writeCur.toNat - idx.toNat) ?_ _ ⟨pre, rest, hcs, hpre, hidx, rfl⟩
    (Nat.lt_of_le_of_lt (Nat.sub_le _ _) src.writeCur.toNat_lt)
  rintro ⟨idx, s'⟩ ⟨pre', rest', hcs, hpre, hidx, hfold⟩
  have hlt := src.writeCur.toNat_lt
  rw [Except.wp_ite]
  cases rest' with
  | nil =>
    rw [List.append_nil] at hcs
    have hlen := h.len (hcs ▸ hpre)
    rw [hcs, ← hidx] at hlen
    exact ⟨fun hin => absurd (UInt64.lt_iff_toNat_lt.1 hin) (by omega), fun _ => hfold.symm⟩
  | cons c rest' =>
    obtain ⟨hle, x, hx, hxc⟩ := h.next hcs hpre hidx
    refine ⟨fun _ => ?_, fun hout => absurd (UInt64.lt_iff_toNat_lt.2 (by omega)) hout⟩
    rw [List.foldlM_cons] at hfold
    rw [hx, Except.ok_bind]
    by_cases hascii : c.toNat < 128
    · obtain rfl : x = c.val := hxc.resolve_right fun hge => Nat.not_le.2 hascii hge.1
      have hnext : (idx + digitSize src.enc).toNat = idx.toNat + (digitSize src.enc).toNat :=
        UInt64.toNat_add_of_lt (by omega)
      cases hstep : step s' c.val with
      | none =>
        rw [hstep] at hfold
        exact hfold.symm
      | some s'' =>
        rw [hstep] at hfold
        refine ⟨⟨pre' ++ [c], rest', by rw [hcs, List.append_assoc]; rfl, ?_, ?_, hfold⟩, ?_⟩
        · exact fun d hd => (List.mem_append.1 hd).elim (hpre d) fun hd => by
            rwa [List.mem_singleton.1 hd]
        · rw [hnext, hidx, List.length_append, Nat.add_mul, List.length_singleton, Nat.one_mul]
        · dsimp only
          omega
    · -- here the list and the string are given up alike
      have hge : 128 ≤ c.toNat := Nat.le_of_not_lt hascii
      have hmem : c ∈ cs := hcs ▸ List.mem_append_right _ List.mem_cons_self
      have hxge : 128 ≤ x.toNat := hxc.elim (fun hxc => hxc ▸ hge) And.right
      rw [hreject c hmem hge s' c.val hge] at hfold
      rw [hreject c hmem hge s' x hxge]
      exact hfold.symm

theorem parseChars_eq (step : σ → MbChar → Option σ) (pre rest : List Char)
    (h : HoldsAscii m src (pre ++ rest)) {idx : Usz}
    (hidx : idx.toNat = pre.length * (digitSize src.enc).toNat) (s : σ) :
    parseChars step src m idx s = .ok (rest.foldlM (fun s c => step s c.val) s) :=
  h.readsChars.parseChars_eq step (fun c hc hge => absurd (h.ascii c hc) (Nat.not_lt.2 hge))
    pre rest rfl (fun c hc => h.ascii c (List.mem_append_left _ hc)) hidx s

theorem isDigit_iff {c : Char} : c.isDigit ↔ 48 ≤ c.toNat ∧ c.toNat ≤ 57 := by
  rw [Char.isDigit, Bool.and_eq_true, decide_eq_true_iff, decide_eq_true_iff,
    ge_iff_le, UInt32.le_iff_toNat_le, UInt32.le_iff_toNat_le]
  exact Iff.rfl

theorem lt_of_isDigit {c : Char} (hc : c.isDigit) : c.toNat < 128 := by
  have := isDigit_iff.1 hc
  omega

theorem charIsDigit_iff (c : Char) : charIsDigit c.val ↔ c.isDigit := Iff.rfl

theorem digit_step {c : Char} (hc : c.isDigit) (a : Nat) :
    UInt64.ofNat a * 10 + c.val.toUInt64 - 48 = UInt64.ofNat (10 * a + (c.toNat - '0'.toNat)) := by
  obtain ⟨d, hd⟩ := Nat.exists_eq_add_of_le (isDigit_iff.1 hc).1
  have hval : c.val.toUInt64 = UInt64.ofNat (48 + d) := by
    rw [← hd, ← UInt64.ofNat_uInt32ToNat]
    rfl
  rw [hval, hd, show 48 + d - '0'.toNat = d from Nat.add_sub_cancel_left ..,
    UInt64.ofNat_add, UInt64.ofNat_add, UInt64.ofNat_mul]
  grind

theorem uintStep_digit {c : Char} (hc : c.isDigit) (a : Nat) :
    uintStep (UInt64.ofNat a) c.val = some (UInt64.ofNat (10 * a + (c.toNat - '0'.toNat))) := by
  rw [uintStep, if_pos ((charIsDigit_iff c).2 hc), digit_step hc]

theorem intStep_digit {c : Char} (hc : c.isDigit) (a : Nat) :
    intStep (UInt64.ofNat a).toInt64 c.val =
      some (UInt64.ofNat (10 * a + (c.toNat - '0'.toNat))).toInt64 := by
  rw [intStep, if_pos ((charIsDigit_iff c).2 hc), ← digit_step hc]
  rfl

/-- The number that digits denote, with what came before them. -/
theorem foldlM_uintStep (hcs : ∀ c ∈ cs, c.isDigit) (a : Nat) :
    cs.foldlM (fun s (c : Char) => uintStep s c.val) (UInt64.ofNat a) =
      some (UInt64.ofNat (Nat.ofDigitChars 10 cs a)) :=
  foldlM_digits (fun a _ => UInt64.ofNat a) (fun a _ _ hc => uintStep_digit hc a) hcs a 0

theorem foldlM_intStep (hcs : ∀ c ∈ cs, c.isDigit) (a : Nat) :
    cs.foldlM (fun s (c : Char) => intStep s c.val) (UInt64.ofNat a).toInt64 =
      some (Int64.ofInt (Nat.ofDigitChars 10 cs a : Nat)) := by
  rw [Int64.ofInt_eq_ofNat, ← UInt64.toInt64_ofNat']
  exact foldlM_digits (fun a _ => (UInt64.ofNat a).toInt64)
    (fun a _ _ hc => intStep_digit hc a) hcs a 0

/-- The text of an integer: a sign, if it is negative, and digits. -/
def signed (neg : Bool) (cs : List Char) : List Char := if neg then '-' :: cs else cs

/-- The number such a text denotes. -/
def valueOf (neg : Bool) (cs : List Char) : Int :=
  (if neg then -1 else 1) * (Nat.ofDigitChars 10 cs 0 : Nat)

/-- `StringToUInt` returns the number modulo 2^64. -/
theorem stringToUInt_eq (h : HoldsAscii m src cs) (hcs : ∀ c ∈ cs, c.isDigit) :
    stringToUInt src m = .ok (UInt64.ofNat (Nat.ofDigitChars 10 cs 0)) := by
  have hidx : (0 : Usz).toNat = ([] : List Char).length * (digitSize src.enc).toNat := by simp
  have hparse := parseChars_eq uintStep [] cs h hidx 0
  have hfold := foldlM_uintStep hcs 0
  rw [show UInt64.ofNat 0 = (0 : Usz) from rfl] at hfold
  rw [stringToUInt, hparse, hfold]
  rfl

/-- `StringToInt` returns the number modulo 2^64, as a signed word. -/
theorem stringToInt_eq {neg : Bool} (h : HoldsAscii m src (signed neg cs))
    (hcs : ∀ c ∈ cs, c.isDigit) (hne : cs ≠ []) :
    stringToInt src m = .ok (Int64.ofInt (valueOf neg cs)) := by
  have hfold := foldlM_intStep hcs 0
  rw [show (UInt64.ofNat 0).toInt64 = (0 : Isz) from rfl] at hfold
  cases neg with
  | true =>
    have hidx : (digitSize src.enc).toNat = ['-'].length * (digitSize src.enc).toNat := by simp
    have hparse := parseChars_eq intStep ['-'] cs h hidx 0
    have hminus : '-'.val = 45 := rfl
    rw [stringToInt, HoldsAscii.getNextChar_head h, Except.ok_bind, if_pos hminus, if_pos hminus]
    dsimp only
    rw [hparse, hfold, valueOf, if_pos rfl, Int64.ofInt_mul]
    exact congrArg Except.ok (Int64.mul_comm _ _)
  | false =>
    obtain ⟨c, cs, rfl⟩ := List.exists_cons_of_ne_nil hne
    have hidx : (0 : Usz).toNat = ([] : List Char).length * (digitSize src.enc).toNat := by simp
    have hparse := parseChars_eq intStep [] (c :: cs) h hidx 0
    have hdigit := isDigit_iff.1 (hcs c List.mem_cons_self)
    have hminus : c.val ≠ 45 := fun h45 => by
      have : c.toNat = 45 := congrArg UInt32.toNat h45
      omega
    rw [stringToInt, HoldsAscii.getNextChar_head h, Except.ok_bind, if_neg hminus, if_neg hminus]
    dsimp only
    rw [hparse, hfold, valueOf, if_neg Bool.false_ne_true, Int.one_mul]
    show Except.ok (_ * 1) = Except.ok _
    rw [Int64.mul_one]

end

/-! ### Overflow -/

/-- `StringToUInt` returns the number `n` if it is a word, and `USZ_MAX` otherwise. -/
def ReadsUInt (x : Res Usz) (n : Nat) : Prop :=
  x = .ok (if n < 2 ^ 64 then UInt64.ofNat n else uszMax)

/-- `StringToInt` returns the number `n` if it is a signed word, and `ISZ_MAX` otherwise. -/
def ReadsInt (x : Res Isz) (n : Int) : Prop :=
  x = .ok (if -2 ^ 63 ≤ n ∧ n < 2 ^ 63 then Int64.ofInt n else iszMax)

theorem readsUInt_iff (n : Nat) :
    ReadsUInt (.ok (UInt64.ofNat n)) n ↔ n < 2 ^ 64 ∨ n % 2 ^ 64 = 2 ^ 64 - 1 := by
  rw [ReadsUInt]
  split_ifs with h
  · exact iff_of_true rfl (.inl h)
  · rw [or_iff_right h, Except.ok.injEq, ← UInt64.toNat_inj, UInt64.toNat_ofNat']
    rfl

theorem readsInt_iff (n : Int) :
    ReadsInt (.ok (Int64.ofInt n)) n ↔ (-2 ^ 63 ≤ n ∧ n < 2 ^ 63) ∨ n % 2 ^ 64 = 2 ^ 63 - 1 := by
  rw [ReadsInt]
  split_ifs with h
  · exact iff_of_true rfl (.inl h)
  · rw [or_iff_right h, Except.ok.injEq, ← Int64.toInt_inj, Int64.toInt_ofInt]
    show n.bmod (2 ^ 64) = 2 ^ 63 - 1 ↔ _
    rw [Int.bmod_def]
    split_ifs <;> omega

/-- Both functions return the number, or fail, exactly if it does not overflow or its remainder is
the failure value. -/
theorem parse_overflow_iff (m : Mem) (cs : List Char) (hcs : ∀ c ∈ cs, c.isDigit)
    (hne : cs ≠ []) (neg : Bool) (src src' : String) (h : HoldsAscii m src cs)
    (h' : HoldsAscii m src' (signed neg cs)) :
    (ReadsUInt (stringToUInt src m) (Nat.ofDigitChars 10 cs 0) ↔
      Nat.ofDigitChars 10 cs 0 < 2 ^ 64 ∨ Nat.ofDigitChars 10 cs 0 % 2 ^ 64 = 2 ^ 64 - 1) ∧
    (ReadsInt (stringToInt src' m) (valueOf neg cs) ↔
      (-2 ^ 63 ≤ valueOf neg cs ∧ valueOf neg cs < 2 ^ 63) ∨
      valueOf neg cs % 2 ^ 64 = 2 ^ 63 - 1) := by
  rw [stringToUInt_eq h hcs, stringToInt_eq h' hcs hne]
  exact ⟨readsUInt_iff _, readsInt_iff _⟩

/-! 2^64 is read as zero. -/

def digitsMem (cs : List Char) : Mem :=
  (⟨fun _ => 0, fun _ => true, fun _ => true⟩ : Mem).store 16 (textBytes .ascii cs)

def digitsSrc (cs : List Char) : String :=
  { base := 16, writeCur := UInt64.ofNat (textBytes .ascii cs).length, size := 0, enc := .ascii }

theorem holdsAscii_digits {cs : List Char} (hcs : ∀ c ∈ cs, c.isDigit) (hlen : cs.length < 2 ^ 64) :
    HoldsAscii (digitsMem cs) (digitsSrc cs) cs := by
  refine ⟨fun c hc => lt_of_isDigit (hcs c hc), ?_, Mem.holds_store fun _ _ => rfl⟩
  show (UInt64.ofNat (textBytes .ascii cs).length).toNat = (textBytes .ascii cs).length
  rw [UInt64.toNat_ofNat', textBytes, List.length_map, Nat.mod_eq_of_lt hlen]

def maxDigits : List Char := "18446744073709551615".toList

def overflowDigits : List Char := "18446744073709551616".toList

theorem parse_overflow_iff_maxDigits :
    ReadsUInt (stringToUInt (digitsSrc maxDigits) (digitsMem maxDigits)) (2 ^ 64 - 1) := by
  have hcs : ∀ c ∈ maxDigits, c.isDigit := List.all_eq_true.1 (by decide)
  have h : HoldsAscii (digitsMem maxDigits) (digitsSrc maxDigits) maxDigits :=
    holdsAscii_digits hcs (by decide)
  exact (parse_overflow_iff _ _ hcs (by decide) false _ _ h h).1.2 (.inl (by decide +kernel))

theorem stringToUInt_wraps :
    HoldsAscii (digitsMem overflowDigits) (digitsSrc overflowDigits) overflowDigits ∧
      ¬ ReadsUInt (stringToUInt (digitsSrc overflowDigits) (digitsMem overflowDigits)) (2 ^ 64) ∧
      stringToUInt (digitsSrc overflowDigits) (digitsMem overflowDigits) = .ok 0 := by
  have hcs : ∀ c ∈ overflowDigits, c.isDigit := List.all_eq_true.1 (by decide)
  have h : HoldsAscii (digitsMem overflowDigits) (digitsSrc overflowDigits) overflowDigits :=
    holdsAscii_digits hcs (by decide)
  have hval : Nat.ofDigitChars 10 overflowDigits 0 = 2 ^ 64 := by decide +kernel
  have hrun := stringToUInt_eq h hcs
  have hiff := readsUInt_iff (2 ^ 64)
  rw [hval] at hrun
  rw [hrun, hiff]
  exact ⟨h, by omega, rfl⟩

end TinyBase
