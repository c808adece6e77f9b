import Mathlib.Algebra.Group.Nat.Defs
import Mathlib.Data.List.Range

/-!
# Encoding forms of Unicode

`Form.encode F cs`: the bytes of the list `cs` of Unicode scalar values in the encoding scheme `F`,
as the standard defines them. `Char` is the type of the scalar values, and UTF-8 is the one of the
core library.
-/

namespace Unicode

/-- The `n` low bytes of `v`, the lowest first. -/
def leBytes (n v : Nat) : List UInt8 := (List.range n).map fun i => UInt8.ofNat (v / 256 ^ i)

@[simp] theorem length_leBytes (n v : Nat) : (leBytes n v).length = n := by simp [leBytes]

theorem getD_leBytes {n v i : Nat} (hi : i < n) :
    (leBytes n v).getD i 0 = UInt8.ofNat (v / 256 ^ i) := by
  simp [leBytes, List.getD_eq_getElem?_getD, hi]

@[simp] theorem leBytes_zero (v : Nat) : leBytes 0 v = [] := rfl

theorem leBytes_succ {n d r : Nat} (hd : d < 256) :
    leBytes (n + 1) (d + r * 256) = UInt8.ofNat d :: leBytes n r := by
  have hlow : UInt8.ofNat (d + r * 256) = UInt8.ofNat d := by
    apply UInt8.toNat_inj.1
    rw [UInt8.toNat_ofNat', UInt8.toNat_ofNat']
    omega
  have hdiv (i : Nat) : (d + r * 256) / 256 ^ (i + 1) = r / 256 ^ i := by
    have h1 : (d + r * 256) / 256 = r := by omega
    rw [Nat.pow_succ', ← Nat.div_div_eq_div_mul, h1]
  rw [leBytes, List.range_succ_eq_map, List.map_cons, List.map_map, Nat.pow_zero, Nat.div_one, hlow]
  simp [leBytes, Function.comp_def, hdiv]

theorem leBytes_one {d : Nat} (hd : d < 256) : leBytes 1 d = [UInt8.ofNat d] := by
  simpa using leBytes_succ (n := 0) (r := 0) hd

theorem leBytes_two {d0 d1 : Nat} (h0 : d0 < 256) (h1 : d1 < 256) :
    leBytes 2 (d0 + d1 * 256) = [UInt8.ofNat d0, UInt8.ofNat d1] := by
  rw [leBytes_succ h0, leBytes_one h1]

theorem leBytes_four {d0 d1 d2 d3 : Nat} (h0 : d0 < 256) (h1 : d1 < 256)
    (h2 : d2 < 256) (h3 : d3 < 256) : leBytes 4 (d0 + d1 * 256 + d2 * 65536 + d3 * 16777216) =
      [UInt8.ofNat d0, UInt8.ofNat d1, UInt8.ofNat d2, UInt8.ofNat d3] := by
  rw [show d0 + d1 * 256 + d2 * 65536 + d3 * 16777216 =
    d0 + (d1 + (d2 + d3 * 256) * 256) * 256 by omega,
    leBytes_succ h0, leBytes_succ h1, leBytes_two h2 h3]

/-- The number whose bytes are `bs`, the lowest first. -/
def ofLeBytes : List UInt8 → Nat
  | [] => 0
  | b :: bs => b.toNat + ofLeBytes bs * 256

theorem ofLeBytes_leBytes {n v : Nat} (hv : v < 256 ^ n) : ofLeBytes (leBytes n v) = v := by
  induction n generalizing v with
  | zero => exact (Nat.lt_one_iff.1 hv).symm
  | succ n ih =>
    have hsplit : v % 256 + v / 256 * 256 = v := Nat.mod_add_div' v 256
    have hlow : v % 256 < 256 := Nat.mod_lt _ (by decide)
    have hhigh : v / 256 < 256 ^ n := Nat.div_lt_of_lt_mul (by rw [← Nat.pow_succ']; exact hv)
    rw [← hsplit, leBytes_succ hlow, ofLeBytes, ih hhigh, UInt8.toNat_ofNat', Nat.mod_eq_of_lt hlow]

theorem ofLeBytes_of_zero {bs : List UInt8} (h : ∀ b ∈ bs, b = 0) : ofLeBytes bs = 0 := by
  induction bs with
  | nil => rfl
  | cons b bs ih =>
    rw [List.forall_mem_cons] at h
    rw [ofLeBytes, h.1, ih h.2]
    rfl

/-- A number other than zero has a byte other than zero. -/
theorem exists_leBytes_ne_zero {n v : Nat} (hv : v < 256 ^ n) (h0 : v ≠ 0) :
    ∃ b ∈ leBytes n v, b ≠ 0 := by
  by_contra hall
  simp only [not_exists, not_and, not_not] at hall
  have hzero := ofLeBytes_of_zero hall
  rw [ofLeBytes_leBytes hv] at hzero
  exact h0 hzero

/-- The code units of UTF-16: one, or a surrogate pair. -/
def utf16Units (c : Char) : List Nat :=
  let v := c.val.toNat
  if v < 0x10000 then [v] else [0xD800 + (v - 0x10000) / 0x400, 0xDC00 + (v - 0x10000) % 0x400]

/-- The encoding schemes without a byte order mark. -/
inductive Form where
  | utf8
  | utf16le
  | utf16be
  | utf32le
  | utf32be
deriving DecidableEq, Repr

namespace Form

/-- The bytes of one scalar value. -/
def bytes : Form → Char → List UInt8
  | utf8, c => String.utf8EncodeChar c
  | utf16le, c => (utf16Units c).flatMap (leBytes 2)
  | utf16be, c => (utf16Units c).flatMap fun u => (leBytes 2 u).reverse
  | utf32le, c => leBytes 4 c.val.toNat
  | utf32be, c => (leBytes 4 c.val.toNat).reverse

/-- The bytes of a list of scalar values. -/
def encode (F : Form) (cs : List Char) : List UInt8 := cs.flatMap F.bytes

@[simp] theorem encode_nil (F : Form) : F.encode [] = [] := rfl

@[simp] theorem encode_cons (F : Form) (c : Char) (cs : List Char) :
    F.encode (c :: cs) = F.bytes c ++ F.encode cs := by
  simp [encode]

@[simp] theorem encode_append (F : Form) (cs ds : List Char) :
    F.encode (cs ++ ds) = F.encode cs ++ F.encode ds := by
  simp [encode]

end Form

/-- A scalar value is below `0x110000` and not a surrogate. -/
theorem scalar (c : Char) :
    c.val.toNat < 0xD800 ∨ (0xDFFF < c.val.toNat ∧ c.val.toNat < 0x110000) := c.valid

end Unicode
