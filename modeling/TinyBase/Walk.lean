import TinyBase.EncodingSpec

/-!
# Walking over the characters of a string

`chars E f n` are the characters that a transcoding loop takes from the `n` bytes `f`: it reads with
`GetNextChar` and moves on by `GetMultibyteCharSize`. On malformed bytes the two sizes differ, and
the last character may reach behind the `n` bytes: `readEnd` is the end of the bytes read, `walkEnd`
the index the walk ends at. On the encoding of a list of scalar values both are `n`.
-/

namespace TinyBase
open Unicode

/-- The bytes `f` from `k` on. -/
def shift (f : Nat → UInt8) (k : Nat) : Nat → UInt8 := fun i => f (k + i)

@[simp] theorem shift_zero (f : Nat → UInt8) : shift f 0 = f := by
  funext i; simp [shift]

@[simp] theorem shift_shift (f : Nat → UInt8) (j k : Nat) :
    shift (shift f j) k = shift f (j + k) := by
  funext i; simp [shift, Nat.add_assoc]

/-- The number of bytes the walk moves on from the beginning of `f`. -/
def stepSize (E : Encoding) (f : Nat → UInt8) : Nat := (getMultibyteCharSize (nextChar f E) E).toNat

theorem stepSize_le (E : Encoding) (f : Nat → UInt8) : 0 < stepSize E f ∧ stepSize E f ≤ 4 :=
  getMultibyteCharSize_le _ _

/-- The characters of the `n` bytes `f`. -/
def chars (E : Encoding) (f : Nat → UInt8) (n : Nat) : List MbChar :=
  if n = 0 then [] else nextChar f E :: chars E (shift f (stepSize E f)) (n - stepSize E f)
termination_by n
decreasing_by have := stepSize_le E f; omega

/-- The end of the bytes that are read on the way. -/
def readEnd (E : Encoding) (f : Nat → UInt8) (n : Nat) : Nat :=
  if n = 0 then 0
  else max (nextCharSize f E).toNat
    (stepSize E f + readEnd E (shift f (stepSize E f)) (n - stepSize E f))
termination_by n
decreasing_by have := stepSize_le E f; omega

/-- The index at which the walk ends. -/
def walkEnd (E : Encoding) (f : Nat → UInt8) (n : Nat) : Nat :=
  if n = 0 then 0 else stepSize E f + walkEnd E (shift f (stepSize E f)) (n - stepSize E f)
termination_by n
decreasing_by have := stepSize_le E f; omega

section
variable {E : Encoding} {f : Nat → UInt8} {n : Nat}

@[simp] theorem chars_zero : chars E f 0 = [] := by rw [chars]; rfl

@[simp] theorem readEnd_zero : readEnd E f 0 = 0 := by rw [readEnd]; rfl

@[simp] theorem walkEnd_zero : walkEnd E f 0 = 0 := by rw [walkEnd]; rfl

theorem chars_of_pos (hn : 0 < n) :
    chars E f n = nextChar f E :: chars E (shift f (stepSize E f)) (n - stepSize E f) := by
  rw [chars, if_neg (Nat.pos_iff_ne_zero.1 hn)]

theorem readEnd_of_pos (hn : 0 < n) : readEnd E f n =
    max (nextCharSize f E).toNat
      (stepSize E f + readEnd E (shift f (stepSize E f)) (n - stepSize E f)) := by
  rw [readEnd, if_neg (Nat.pos_iff_ne_zero.1 hn)]

theorem walkEnd_of_pos (hn : 0 < n) :
    walkEnd E f n = stepSize E f + walkEnd E (shift f (stepSize E f)) (n - stepSize E f) := by
  rw [walkEnd, if_neg (Nat.pos_iff_ne_zero.1 hn)]

theorem readEnd_le (E : Encoding) (f : Nat → UInt8) (n : Nat) : readEnd E f n ≤ n + 3 := by
  induction n using Nat.strongRecOn generalizing f with
  | ind n ih =>
    rcases Nat.eq_zero_or_pos n with rfl | hn
    · simp
    · have hstep := stepSize_le E f
      have hsize := (nextCharSize_le f E).2
      have hrest := ih (n - stepSize E f) (by omega) (shift f (stepSize E f))
      rw [readEnd_of_pos hn]
      rcases Nat.lt_or_ge (stepSize E f) n with hlt | hge
      · omega
      · rw [show n - stepSize E f = 0 by omega, readEnd_zero]
        omega

theorem walkEnd_le (E : Encoding) (f : Nat → UInt8) (n : Nat) : walkEnd E f n ≤ n + 3 := by
  induction n using Nat.strongRecOn generalizing f with
  | ind n ih =>
    rcases Nat.eq_zero_or_pos n with rfl | hn
    · simp
    · have hstep := stepSize_le E f
      have hrest := ih (n - stepSize E f) (by omega) (shift f (stepSize E f))
      rw [walkEnd_of_pos hn]
      rcases Nat.lt_or_ge (stepSize E f) n with hlt | hge
      · omega
      · rw [show n - stepSize E f = 0 by omega, walkEnd_zero]
        omega

end

/-! ### Well-formed strings -/

section
variable (F : Form)

theorem getD_append_left {bs cs : List UInt8} {i : Nat} (hi : i < bs.length) :
    (bs ++ cs).getD i 0 = bs.getD i 0 := by
  rw [List.getD_eq_getElem?_getD, List.getElem?_append_left hi, List.getD_eq_getElem?_getD]

theorem shift_getD_append (bs cs : List UInt8) :
    shift ((bs ++ cs).getD · 0) bs.length = (cs.getD · 0) := by
  funext i
  rw [shift, List.getD_eq_getElem?_getD, List.getElem?_append_right (Nat.le_add_right _ _),
    Nat.add_sub_cancel_left, List.getD_eq_getElem?_getD]

/-- A walk over an encoding begins with the first scalar value and goes on with the others. -/
theorem walk_cons (c : Char) (cs : List Char) :
    nextChar ((F.encode (c :: cs)).getD · 0) (encodingOf F) = packed F c ∧
      (nextCharSize ((F.encode (c :: cs)).getD · 0) (encodingOf F)).toNat = (F.bytes c).length ∧
      stepSize (encodingOf F) ((F.encode (c :: cs)).getD · 0) = (F.bytes c).length := by
  have hf : ∀ i < (F.bytes c).length, (F.encode (c :: cs)).getD i 0 = (F.bytes c).getD i 0 :=
    fun i hi => by
    rw [Form.encode_cons, getD_append_left hi]
  have hchar := nextChar_packed hf
  refine ⟨hchar, ?_, ?_⟩
  · rw [nextCharSize_packed hf, length_bytes]
  · rw [stepSize, hchar, length_bytes]

theorem length_bytes_pos (c : Char) : 0 < (F.bytes c).length := by
  rw [length_bytes]; exact (getMultibyteCharSize_le _ _).1

/-- The characters of an encoding are those of its scalar values. -/
theorem chars_encode (cs : List Char) :
    chars (encodingOf F) ((F.encode cs).getD · 0) (F.encode cs).length = cs.map (packed F) := by
  induction cs with
  | nil => simp
  | cons c cs ih =>
    obtain ⟨hchar, -, hstep⟩ := walk_cons F c cs
    have hpos := length_bytes_pos F c
    rw [chars_of_pos (by rw [Form.encode_cons, List.length_append]; omega),
      hchar, hstep, Form.encode_cons,
      shift_getD_append, List.length_append, Nat.add_sub_cancel_left, ih, List.map_cons]

theorem readEnd_encode (cs : List Char) :
    readEnd (encodingOf F) ((F.encode cs).getD · 0) (F.encode cs).length =
      (F.encode cs).length := by
  induction cs with
  | nil => simp
  | cons c cs ih =>
    obtain ⟨-, hsize, hstep⟩ := walk_cons F c cs
    have hpos := length_bytes_pos F c
    rw [readEnd_of_pos (by rw [Form.encode_cons, List.length_append]; omega),
      hsize, hstep, Form.encode_cons,
      shift_getD_append, List.length_append, Nat.add_sub_cancel_left, ih]
    omega

theorem walkEnd_encode (cs : List Char) :
    walkEnd (encodingOf F) ((F.encode cs).getD · 0) (F.encode cs).length =
      (F.encode cs).length := by
  induction cs with
  | nil => simp
  | cons c cs ih =>
    obtain ⟨-, -, hstep⟩ := walk_cons F c cs
    have hpos := length_bytes_pos F c
    rw [walkEnd_of_pos (by rw [Form.encode_cons, List.length_append]; omega), hstep,
      Form.encode_cons, shift_getD_append, List.length_append, Nat.add_sub_cancel_left, ih]

end

end TinyBase
