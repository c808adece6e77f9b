import Mathlib.Data.List.Range
import Mathlib.Logic.Function.Basic
import TinyBase.Types

/-!
# Memory

A `Reader` reads one byte at an address; the functions that only look at memory take one. A `Mem`
also says which bytes may be read and written, and the functions that store into memory pass it on.
Reading or writing a byte that may not be touched is a `Fault`, so a computation that returns has
stayed inside what it may touch.

Offsets are 64-bit words and addresses wrap around, as in the machine: `p + i` for `i : Usz`.
-/

namespace TinyBase

/-- Reads the byte at an address. -/
abbrev Reader := Ptr → Res UInt8

/-- The `n` bytes from `p` can be read and are `f 0`, `f 1`, ... -/
def Reads (rd : Reader) (p : Ptr) (n : Nat) (f : Nat → UInt8) : Prop :=
  ∀ i : Usz, i.toNat < n → rd (p + i) = .ok (f i.toNat)

/-- The bytes `bs` are at `p`. -/
def Holds (rd : Reader) (p : Ptr) (bs : List UInt8) : Prop :=
  Reads rd p bs.length (bs.getD · 0)

namespace Reads
variable {rd : Reader} {p : Ptr} {n : Nat} {f : Nat → UInt8}

theorem mono {n' : Nat} (h : Reads rd p n f) (hn : n' ≤ n) : Reads rd p n' f :=
  fun i hi => h i (Nat.lt_of_lt_of_le hi hn)

theorem congr {g : Nat → UInt8} (h : Reads rd p n f) (hfg : ∀ i < n, f i = g i) : Reads rd p n g :=
  fun i hi => by rw [h i hi, hfg _ hi]

theorem unique {g : Nat → UInt8} (h : Reads rd p n f) (h' : Reads rd p n g)
    (i : Usz) (hi : i.toNat < n) : f i.toNat = g i.toNat := by
  have := (h i hi).symm.trans (h' i hi)
  simpa using this

/-- The bytes from `k` on. -/
theorem shift (h : Reads rd p n f) (k : Usz) {n' : Nat} (hk : k.toNat + n' ≤ n)
    (hn : k.toNat + n' ≤ 2 ^ 64) : Reads rd (p + k) n' (fun i => f (k.toNat + i)) := by
  intro i hi
  have hki : (k + i).toNat = k.toNat + i.toNat := UInt64.toNat_add_of_lt (by omega)
  rw [UInt64.add_assoc, h (k + i) (by omega), hki]

theorem zero (h : Reads rd p n f) (hn : 0 < n) : rd p = .ok (f 0) := by
  simpa using h 0 hn

theorem holds (h : Reads rd p n f) : Holds rd p ((List.range n).map f) := by
  rw [Holds, List.length_map, List.length_range]
  refine h.congr fun i hi => ?_
  rw [List.getD_eq_getElem?_getD, List.getElem?_map, List.getElem?_range hi,
    Option.map_some, Option.getD_some]

end Reads

theorem Holds.read {rd : Reader} {p : Ptr} {bs : List UInt8} {b : UInt8}
    {i : Usz} (h : Holds rd p bs) (hget : bs[i.toNat]? = some b) : rd (p + i) = .ok b := by
  obtain ⟨hi, -⟩ := List.getElem?_eq_some_iff.1 hget
  have hread := h i hi
  dsimp only at hread
  rw [hread, List.getD_eq_getElem?_getD, hget, Option.getD_some]

/-- The bytes at `p, p + 1, ..., p + n - 1`. -/
def readBytes (rd : Reader) (p : Ptr) : Nat → Res (List UInt8)
  | 0 => pure []
  | n + 1 => do
    let b ← rd p
    let bs ← readBytes rd (p + 1) n
    pure (b :: bs)

theorem readBytes_eq {rd : Reader} {p : Ptr} {n : Nat} {f : Nat → UInt8} (h : Reads rd p n f)
    (hn : n ≤ 2 ^ 64) : readBytes rd p n = .ok ((List.range n).map f) := by
  induction n generalizing p f with
  | zero => rfl
  | succ n ih =>
    have h1 : Reads rd (p + 1) n (fun i => f (1 + i)) :=
      h.shift 1 (by simp; omega) (by simp; omega)
    rw [readBytes, h.zero (Nat.succ_pos n), ih h1 (by omega), List.range_succ_eq_map]
    simp [Function.comp_def, Nat.add_comm]

namespace Holds
variable {rd : Reader} {p : Ptr} {bs cs : List UInt8}

theorem of_append (h : Holds rd p (bs ++ cs)) : Holds rd p bs := by
  have hprefix : Reads rd p bs.length ((bs ++ cs).getD · 0) :=
    h.mono (by rw [List.length_append]; exact Nat.le_add_right _ _)
  refine hprefix.congr fun i hi => ?_
  rw [List.getD_eq_getElem?_getD, List.getD_eq_getElem?_getD, List.getElem?_append_left hi]

theorem drop (h : Holds rd p cs) (i : Usz) (hi : i.toNat ≤ cs.length) (hlen : cs.length ≤ 2 ^ 64) :
    Holds rd (p + i) (cs.drop i.toNat) := by
  rw [Holds, List.length_drop]
  refine (h.shift i (by omega : i.toNat + (cs.length - i.toNat) ≤ cs.length) (by omega)).congr
    fun k _ => ?_
  rw [List.getD_eq_getElem?_getD, List.getD_eq_getElem?_getD, List.getElem?_drop]

theorem of_append_right (h : Holds rd p (bs ++ cs)) (hlen : bs.length + cs.length ≤ 2 ^ 64) :
    Holds rd (p + UInt64.ofNat bs.length) cs := by
  rcases Nat.eq_zero_or_pos cs.length with hzero | hpos
  · exact fun i hi => absurd hi (by rw [hzero]; exact Nat.not_lt_zero _)
  · have hword : (UInt64.ofNat bs.length).toNat = bs.length :=
      UInt64.toNat_ofNat_of_lt_two_pow (by omega)
    have hdrop := h.drop (UInt64.ofNat bs.length)
      (by rw [hword, List.length_append]; exact Nat.le_add_right _ _)
      (by rw [List.length_append]; exact hlen)
    rwa [hword, List.drop_left] at hdrop

theorem append (h : Holds rd p bs) (h' : Holds rd (p + UInt64.ofNat bs.length) cs) :
    Holds rd p (bs ++ cs) := by
  intro i hi
  rw [List.length_append] at hi
  have hlt := i.toNat_lt
  dsimp only
  rw [List.getD_eq_getElem?_getD]
  by_cases hleft : i.toNat < bs.length
  · have hread := h i hleft
    dsimp only at hread
    rw [hread, List.getD_eq_getElem?_getD, List.getElem?_append_left hleft]
  · have hword : (UInt64.ofNat bs.length).toNat = bs.length :=
      UInt64.toNat_ofNat_of_lt_two_pow (by omega)
    have hsub : (i - UInt64.ofNat bs.length).toNat = i.toNat - bs.length := by
      rw [UInt64.toNat_sub_of_toNat_le (by omega), hword]
    have hread := h' (i - UInt64.ofNat bs.length) (by omega)
    dsimp only at hread
    rw [show p + UInt64.ofNat bs.length + (i - UInt64.ofNat bs.length) = p + i by grind, hsub]
      at hread
    rw [hread, List.getD_eq_getElem?_getD, List.getElem?_append_right (by omega)]

end Holds

theorem readBytes_of_holds {rd : Reader} {p : Ptr} {bs : List UInt8} (h : Holds rd p bs)
    (hlen : bs.length ≤ 2 ^ 64) : readBytes rd p bs.length = .ok bs := by
  rw [readBytes_eq h hlen]
  refine congrArg _ (List.ext_getElem (by simp) fun i hi hi' => ?_)
  simp [List.getD_eq_getElem?_getD, hi']

/-- Memory: the bytes, and which of them may be read and written. -/
structure Mem where
  byte : Ptr → UInt8
  readable : Ptr → Bool
  writable : Ptr → Bool

/-- `a` is one of the `n` bytes from `p`. -/
def InRange (p : Ptr) (n : Nat) (a : Ptr) : Prop := (a - p).toNat < n

instance (p : Ptr) (n : Nat) (a : Ptr) : Decidable (InRange p n a) :=
  inferInstanceAs (Decidable (_ < _))

theorem inRange_add {p : Ptr} {n : Nat} {i : Usz} : InRange p n (p + i) ↔ i.toNat < n := by
  rw [InRange, UInt64.add_comm, UInt64.add_sub_cancel]

theorem InRange.exists {p : Ptr} {n : Nat} {a : Ptr} (h : InRange p n a) :
    ∃ i : Usz, i.toNat < n ∧ a = p + i :=
  ⟨a - p, h, by rw [UInt64.add_comm, UInt64.sub_add_cancel]⟩

theorem InRange.of_add {p w : Ptr} {n k : Nat} {a : Ptr} (hle : w.toNat + n ≤ k)
    (h : InRange (p + w) n a) : InRange p k a := by
  obtain ⟨i, hi, rfl⟩ := h.exists
  have := Nat.mod_le (w.toNat + i.toNat) (2 ^ 64)
  rw [UInt64.add_assoc, inRange_add, UInt64.toNat_add]
  omega

/-- A region that does not wrap around is an interval. -/
theorem inRange_iff {p : Ptr} {n : Nat} (h : p.toNat + n ≤ 2 ^ 64) {a : Ptr} :
    InRange p n a ↔ p.toNat ≤ a.toNat ∧ a.toNat < p.toNat + n := by
  have hp := p.toNat_lt
  have ha := a.toNat_lt
  rw [InRange, UInt64.toNat_sub]
  omega

/-- Two regions without a common byte. -/
def Apart (p : Ptr) (n : Nat) (q : Ptr) (k : Nat) : Prop := ∀ a, InRange p n a → ¬ InRange q k a

theorem apart_of_le {p q : Ptr} {n k : Nat} (hpq : p.toNat + n ≤ q.toNat)
    (hk : q.toNat + k ≤ 2 ^ 64) :
    Apart p n q k := fun a ha ha' => by
  have hq := q.toNat_lt
  rw [inRange_iff (by omega)] at ha ha'
  omega

theorem Apart.symm {p q : Ptr} {n k : Nat} (h : Apart p n q k) : Apart q k p n :=
  fun a ha ha' => h a ha' ha

theorem Apart.mono {p q : Ptr} {n n' k k' : Nat} (h : Apart p n q k) (hn : n' ≤ n) (hk : k' ≤ k) :
    Apart p n' q k' :=
  fun a ha ha' => h a (Nat.lt_of_lt_of_le ha hn) (Nat.lt_of_lt_of_le ha' hk)

theorem apart_add {p : Ptr} {w : Usz} {n k : Nat} (hn : n ≤ w.toNat) (hk : w.toNat + k ≤ 2 ^ 64) :
    Apart p n (p + w) k := by
  intro a ha hin
  obtain ⟨i, hi, rfl⟩ := ha.exists
  have hw := w.toNat_lt
  rw [InRange, show p + i - (p + w) = i - w by grind, UInt64.toNat_sub] at hin
  omega

namespace Mem
variable {m : Mem} {p : Ptr}

def read (m : Mem) : Reader := fun p => if m.readable p then .ok (m.byte p) else .error (.read p)

def write (m : Mem) (p : Ptr) (b : UInt8) : Res Mem :=
  if m.writable p then .ok { m with byte := Function.update m.byte p b } else .error (.write p)

/-- Writes `bs` to `p, p + 1, ...` in this order. -/
def writeBytes (m : Mem) (p : Ptr) : List UInt8 → Res Mem
  | [] => pure m
  | b :: bs => do
    let m ← m.write p b
    m.writeBytes (p + 1) bs

/-- `memcpy(Dst, Src, Size)`; the language leaves overlapping copies undefined. -/
def memcpy (m : Mem) (dst : Ptr) (rd : Reader) (src : Ptr) (size : Usz) : Res Mem := do
  let bs ← readBytes rd src size.toNat
  m.writeBytes dst bs

/-- `memset(Dst, Value, Count)`. -/
def memset (m : Mem) (dst : Ptr) (value : UInt8) (count : Usz) : Res Mem :=
  m.writeBytes dst (List.replicate count.toNat value)

/-- The memory with `bs` at `p`. -/
def store (m : Mem) (p : Ptr) (bs : List UInt8) : Mem :=
  { m with byte := fun a => bs.getD (a - p).toNat (m.byte a) }

@[simp] theorem store_readable (bs : List UInt8) : (m.store p bs).readable = m.readable := rfl

@[simp] theorem store_writable (bs : List UInt8) : (m.store p bs).writable = m.writable := rfl

theorem store_byte (bs : List UInt8) (a : Ptr) :
    (m.store p bs).byte a = bs.getD (a - p).toNat (m.byte a) := rfl

@[simp] theorem store_nil : m.store p [] = m := rfl

theorem store_byte_of_not_inRange {bs : List UInt8} {a : Ptr} (h : ¬ InRange p bs.length a) :
    (m.store p bs).byte a = m.byte a := by
  rw [store_byte, List.getD_eq_getElem?_getD, List.getElem?_eq_none (Nat.le_of_not_lt h),
    Option.getD_none]

theorem store_byte_add {bs : List UInt8} {i : Usz} (hi : i.toNat < bs.length) :
    (m.store p bs).byte (p + i) = bs.getD i.toNat 0 := by
  rw [store_byte, UInt64.add_comm, UInt64.add_sub_cancel]
  simp [List.getD_eq_getElem?_getD, hi]

/-- Two stores one after the other are one store. -/
theorem store_append {bs cs : List UInt8} (h : bs.length + cs.length ≤ 2 ^ 64) :
    (m.store p bs).store (p + UInt64.ofNat bs.length) cs = m.store p (bs ++ cs) := by
  simp only [store, Mem.mk.injEq, and_self, and_true]
  funext a
  have hsub : a - (p + UInt64.ofNat bs.length) = (a - p) - UInt64.ofNat bs.length := by grind
  rw [hsub, UInt64.toNat_sub, UInt64.toNat_ofNat']
  have ha := (a - p).toNat_lt
  simp only [List.getD_eq_getElem?_getD, List.getElem?_append]
  split
  · next hlt =>
    rw [List.getElem?_eq_none (by omega), Option.getD_none]
  · next hge =>
    by_cases hbs : bs.length = 2 ^ 64
    · omega
    · rw [show (2 ^ 64 - bs.length % 2 ^ 64 + (a - p).toNat) % 2 ^ 64 =
        (a - p).toNat - bs.length by omega]
      rw [List.getElem?_eq_none (l := bs) (by omega), Option.getD_none]

theorem store_singleton (b : UInt8) :
    m.store p [b] = { m with byte := Function.update m.byte p b } := by
  simp only [store, Mem.mk.injEq, and_self, and_true]
  funext a
  by_cases ha : a = p
  · subst ha; simp
  · have : (a - p).toNat ≠ 0 := fun h0 => by
      have hap : a - p = 0 := UInt64.toNat_inj.1 (by simpa using h0)
      exact ha (by grind)
    rw [Function.update_of_ne ha, List.getD_eq_getElem?_getD,
      List.getElem?_eq_none (by simp; omega), Option.getD_none]

theorem store_within {cs ds : List UInt8} {i : Usz} (h : i.toNat + ds.length ≤ cs.length)
    (hlen : cs.length ≤ 2 ^ 64) :
    (m.store p cs).store (p + i) ds =
      m.store p (cs.take i.toNat ++ ds ++ cs.drop (i.toNat + ds.length)) := by
  simp only [store, Mem.mk.injEq, and_self, and_true]
  funext a
  have hsub : a - (p + i) = (a - p) - i := by grind
  rw [hsub, UInt64.toNat_sub]
  have ha := (a - p).toNat_lt
  generalize (a - p).toNat = j at ha
  have htake : (cs.take i.toNat).length = i.toNat := by rw [List.length_take]; omega
  simp only [List.getD_eq_getElem?_getD, List.append_assoc, List.getElem?_append, htake]
  split_ifs with hlow hmid
  · rw [List.getElem?_eq_none (l := ds) (by omega), Option.getD_none, List.getElem?_take_of_lt hlow]
  · rw [show (2 ^ 64 - i.toNat + j) % 2 ^ 64 = j - i.toNat by omega, List.getElem?_eq_getElem hmid,
      Option.getD_some, Option.getD_some]
  · rw [show (2 ^ 64 - i.toNat + j) % 2 ^ 64 = j - i.toNat by omega,
      List.getElem?_eq_none (l := ds) (by omega),
      Option.getD_none, List.getElem?_drop,
      show i.toNat + ds.length + (j - i.toNat - ds.length) = j by omega]

theorem write_store {cs : List UInt8} {i : Usz} (b : UInt8) (hw : m.writable (p + i))
    (hi : i.toNat < cs.length) (hlen : cs.length ≤ 2 ^ 64) :
    (m.store p cs).write (p + i) b = .ok (m.store p (cs.set i.toNat b)) := by
  have hone : i.toNat + [b].length ≤ cs.length := hi
  have hset : cs.take i.toNat ++ [b] ++ cs.drop (i.toNat + [b].length) = cs.set i.toNat b := by
    rw [List.set_eq_take_append_cons_drop, if_pos hi, List.append_assoc]
    rfl
  have hw' : (m.store p cs).writable (p + i) := hw
  rw [write, if_pos hw', ← store_singleton, store_within hone hlen, hset]

theorem writeBytes_eq {bs : List UInt8} (h : ∀ i : Usz, i.toNat < bs.length → m.writable (p + i))
    (hlen : bs.length ≤ 2 ^ 64) : m.writeBytes p bs = .ok (m.store p bs) := by
  induction bs generalizing m p with
  | nil => rfl
  | cons b bs ih =>
    have hp : m.writable p := by simpa using h 0 (by simp)
    have hrest : ∀ i : Usz, i.toNat < bs.length → (m.store p [b]).writable (p + 1 + i) := by
      intro i hi
      rw [List.length_cons] at hlen h
      have hi1 : (1 + i).toNat = 1 + i.toNat := UInt64.toNat_add_of_lt (by simp; omega)
      rw [store_writable, UInt64.add_assoc]
      exact h (1 + i) (by omega)
    rw [writeBytes, write, if_pos hp, ← store_singleton]
    show (m.store p [b]).writeBytes (p + 1) bs = _
    rw [ih hrest (by rw [List.length_cons] at hlen; omega)]
    have happ : [b].length + bs.length ≤ 2 ^ 64 := by simpa [Nat.add_comm] using hlen
    exact congrArg _ (store_append happ)

/-- A fault of a write is at a byte that may not be written. -/
theorem write_of_writeBytes_error {bs : List UInt8} {e : Fault} (h : m.writeBytes p bs = .error e) :
    ∃ q, e = .write q := by
  induction bs generalizing m p with
  | nil => cases h
  | cons b bs ih =>
    rw [writeBytes, write] at h
    split_ifs at h
    · exact ih h
    · cases h
      exact ⟨p, rfl⟩

theorem eq_of_writeBytes {bs : List UInt8} {m' : Mem} (hlen : bs.length ≤ 2 ^ 64)
    (h : m.writeBytes p bs = .ok m') : m' = m.store p bs := by
  induction bs generalizing m p with
  | nil => cases h; rfl
  | cons b bs ih =>
    rw [List.length_cons] at hlen
    rw [writeBytes, write] at h
    split_ifs at h
    · rw [Except.ok_bind, ← store_singleton] at h
      have happ : [b].length + bs.length ≤ 2 ^ 64 := by simpa [Nat.add_comm] using hlen
      rw [ih (by omega) h]
      exact store_append happ
    · cases h

theorem byte_of_read {b : UInt8} (h : m.read p = .ok b) : m.byte p = b := by
  rw [read] at h
  split_ifs at h
  cases h
  rfl

theorem eq_of_readBytes {n : Nat} {bs : List UInt8} (h : readBytes m.read p n = .ok bs) :
    bs = (List.range n).map fun i => m.byte (p + UInt64.ofNat i) := by
  induction n generalizing p bs with
  | zero => cases h; rfl
  | succ n ih =>
    rw [readBytes, Except.bind_eq_ok] at h
    obtain ⟨b, hb, h⟩ := h
    rw [Except.bind_eq_ok] at h
    obtain ⟨bs', hbs, h⟩ := h
    cases h
    rw [ih hbs, List.range_succ_eq_map, List.map_cons, List.map_map, ← byte_of_read hb]
    congr 1
    · simp
    · refine List.map_congr_left fun i _ => ?_
      rw [Function.comp_apply, Nat.succ_eq_add_one, UInt64.ofNat_add,
        UInt64.add_assoc, UInt64.add_comm 1]
      rfl

theorem readable_of_readBytes {n : Nat} {bs : List UInt8} (h : readBytes m.read p n = .ok bs) :
    ∀ i : Usz, i.toNat < n → m.readable (p + i) := by
  induction n generalizing p bs with
  | zero => exact fun i hi => absurd hi (Nat.not_lt_zero _)
  | succ n ih =>
    rw [readBytes, Except.bind_eq_ok] at h
    obtain ⟨b, hb, h⟩ := h
    rw [Except.bind_eq_ok] at h
    obtain ⟨bs', hbs, -⟩ := h
    intro i hi
    by_cases h0 : i = 0
    · subst h0
      rw [read] at hb
      split_ifs at hb with hp
      rw [UInt64.add_zero]
      exact hp
    · have hone : (1 : Usz).toNat = 1 := rfl
      have hpos : 0 < i.toNat := Nat.pos_of_ne_zero fun hi0 => h0 (UInt64.toNat_inj.1 hi0)
      have hpred : (i - 1).toNat = i.toNat - 1 := UInt64.toNat_sub_of_toNat_le (by omega)
      have hrest := ih hbs (i - 1) (by omega)
      rwa [show p + 1 + (i - 1) = p + i by grind] at hrest

/-- Writing a byte that may not be written is a fault. -/
theorem writeBytes_cons_of_not_writable {b : UInt8} {bs : List UInt8} (h : m.writable p = false) :
    m.writeBytes p (b :: bs) = .error (.write p) := by
  simp [writeBytes, write, h]

/-- The bytes from `p` on. -/
def bytesFrom (m : Mem) (p : Ptr) : Nat → UInt8 := fun i => m.byte (p + UInt64.ofNat i)

theorem map_bytesFrom_store {bs : List UInt8} (hlen : bs.length ≤ 2 ^ 64) :
    (List.range bs.length).map ((m.store p bs).bytesFrom p) = bs := by
  refine List.ext_getElem (by rw [List.length_map, List.length_range]) fun i hi hi' => ?_
  have hword : (UInt64.ofNat i).toNat = i := UInt64.toNat_ofNat_of_lt_two_pow (by omega)
  rw [List.getElem_map, List.getElem_range, bytesFrom, store_byte_add (by rw [hword]; exact hi'),
    hword, List.getD_eq_getElem _ _ hi']

theorem map_bytesFrom_store_behind {bs : List UInt8} {w : Usz}
    (hlen : w.toNat + bs.length ≤ 2 ^ 64) :
    (List.range (w.toNat + bs.length)).map ((m.store (p + w) bs).bytesFrom p) =
      (List.range w.toNat).map (m.bytesFrom p) ++ bs := by
  have hw := w.toNat_lt
  have hfront : (List.range w.toNat).map ((m.store (p + w) bs).bytesFrom p) =
      (List.range w.toNat).map (m.bytesFrom p) := by
    refine List.map_congr_left fun i hi =>
      store_byte_of_not_inRange (apart_add (Nat.le_refl _) hlen _ (inRange_add.2 ?_))
    rw [UInt64.toNat_ofNat', Nat.mod_eq_of_lt (Nat.lt_trans (List.mem_range.1 hi) hw)]
    exact List.mem_range.1 hi
  have hback : ((m.store (p + w) bs).bytesFrom p ∘ fun i => w.toNat + i) =
      (m.store (p + w) bs).bytesFrom (p + w) := by
    funext i
    rw [Function.comp_apply, bytesFrom, bytesFrom, UInt64.ofNat_add,
      UInt64.ofNat_toNat, UInt64.add_assoc]
  rw [List.range_add, List.map_append, List.map_map, hfront, hback, map_bytesFrom_store (by omega)]

/-- The `n` bytes from `p` can be read. -/
def Readable (m : Mem) (p : Ptr) (n : Nat) : Prop := ∀ i : Usz, i.toNat < n → m.readable (p + i)

theorem Readable.reads {n : Nat} (h : m.Readable p n) : Reads m.read p n (m.bytesFrom p) :=
  fun i hi => by rw [read, if_pos (h i hi), bytesFrom, UInt64.ofNat_toNat]

theorem readable_of_reads {n : Nat} {f : Nat → UInt8} (h : Reads m.read p n f) : m.Readable p n :=
  fun i hi => by
  have hread := h i hi
  rw [read] at hread
  split_ifs at hread with hp
  exact hp

theorem holds_store {bs : List UInt8} (h : m.Readable p bs.length) :
    Holds (m.store p bs).read p bs := fun i hi => by
  rw [read, store_readable, if_pos (h i hi), store_byte_add hi]

theorem reads_store {q : Ptr} {n k : Nat} {f : Nat → UInt8}
    {bs : List UInt8} (h : Reads m.read p n f) (hapart : Apart p n q k) (hbs : bs.length ≤ k) :
    Reads (m.store q bs).read p n f := fun i hi => by
  have hout : ¬ InRange q bs.length (p + i) := fun hin =>
    hapart (p + i) (inRange_add.2 hi) (Nat.lt_of_lt_of_le hin hbs)
  rw [← h i hi, read, read, store_byte_of_not_inRange hout, store_readable]

/-- `m'` differs from `m` at most in the `n` bytes from `p`. -/
structure SameOutside (p : Ptr) (n : Nat) (m m' : Mem) : Prop where
  readable_eq : m'.readable = m.readable
  writable_eq : m'.writable = m.writable
  byte_eq : ∀ a, ¬ InRange p n a → m'.byte a = m.byte a

namespace SameOutside
variable {n k : Nat} {q : Ptr} {m' m'' : Mem} {bs : List UInt8}

theorem refl (p : Ptr) (n : Nat) (m : Mem) : SameOutside p n m m := ⟨rfl, rfl, fun _ _ => rfl⟩

theorem trans (h : SameOutside p n m m') (h' : SameOutside p n m' m'') : SameOutside p n m m'' :=
  ⟨h'.readable_eq.trans h.readable_eq, h'.writable_eq.trans h.writable_eq,
    fun a ha => (h'.byte_eq a ha).trans (h.byte_eq a ha)⟩

theorem store (m : Mem) (hin : ∀ a, InRange q bs.length a → InRange p n a) :
    SameOutside p n m (m.store q bs) :=
  ⟨rfl, rfl, fun _ ha => store_byte_of_not_inRange fun h => ha (hin _ h)⟩

theorem store_add (m : Mem) {i : Usz} (hle : i.toNat + bs.length ≤ n) :
    SameOutside p n m (m.store (p + i) bs) :=
  store m fun _ h => h.of_add hle

theorem of_add {w : Usz} (h : SameOutside (p + w) n m m') (hle : w.toNat + n ≤ k) :
    SameOutside p k m m' :=
  ⟨h.readable_eq, h.writable_eq, fun a ha => h.byte_eq a fun hin => ha (hin.of_add hle)⟩

theorem mono (h : SameOutside p n m m') (hle : n ≤ k) : SameOutside p k m m' :=
  ⟨h.readable_eq, h.writable_eq, fun a ha => h.byte_eq a fun hin => ha (Nat.lt_of_lt_of_le hin hle)⟩

theorem readable (h : SameOutside p n m m') (hread : m.Readable q k) : m'.Readable q k :=
  fun i hi => by
  rw [h.readable_eq]
  exact hread i hi

theorem holds (h : SameOutside p n m m') (hbs : Holds m.read q bs)
    (hapart : Apart q bs.length p n) : Holds m'.read q bs :=
  fun i hi => by
    have hread := hbs i hi
    rw [read] at hread ⊢
    rw [h.readable_eq, h.byte_eq _ (hapart _ (inRange_add.2 hi))]
    exact hread

end SameOutside

end Mem

end TinyBase
