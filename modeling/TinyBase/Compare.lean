import Mathlib.Order.Bounds.Basic
import TinyBase.Query

/-!
# Comparing a part of two buffers (`CompareBuffers`)

The loop compares as many bytes as it is told to and does not ask for the lengths of the buffers;
only a difference ends it before.
-/

namespace TinyBase

/-- `RETURN_IDX_DIFF`. -/
def returnIdxDiff : UInt32 := 0x8

/-- `RETURN_PTR_DIFF`. -/
def returnPtrDiff : UInt32 := 0x40

/-- `_CompareBool`. -/
def compareBool (a b : View) (amountToCompare : Usz) : Res Bool := do
  let result ← compareIdx a b amountToCompare
  pure (result == amountToCompare)

def compareBuffers (a b : View) (amountToCompare : Usz) (flag : UInt32) : Res Usz :=
  if flag &&& returnBool ≠ 0 then do
    let result ← compareBool a b amountToCompare
    pure (if result then 1 else 0)
  else if flag &&& returnIdxDiff ≠ 0 then compareIdx a b amountToCompare
  else comparePtrSimple a b amountToCompare

/-- The three forms of the result. -/
inductive DiffFlag where
  | bool
  | idxDiff
  | ptrDiff
deriving DecidableEq, Repr

namespace DiffFlag

def value : DiffFlag → UInt32
  | bool => returnBool
  | idxDiff => returnIdxDiff
  | ptrDiff => returnPtrDiff

/-- The answer when the first `n` bytes of `amount` are the same. -/
def answer (flag : DiffFlag) (base : Ptr) (amount : Usz) (n : Nat) : Usz :=
  match flag with
  | bool => if n = amount.toNat then 1 else 0
  | idxDiff => UInt64.ofNat n
  | ptrDiff => base + UInt64.ofNat n

end DiffFlag

/-- The buffer has the bytes `bs`, and no byte behind them can be read. -/
structure Confined (v : View) (bs : List UInt8) : Prop where
  writeCur_eq : v.writeCur.toNat = bs.length
  holds : Holds v.rd v.base bs
  outside : ∀ i : Usz, bs.length ≤ i.toNat → ∃ e, v.rd (v.base + i) = .error e

/-- The comparison stays within the buffers, and answers with the length of the longest prefix they
have in common, as far as it is to look. -/
def ComparesPrefix (a b : View) (as bs : List UInt8) (amount : Usz) (flag : DiffFlag) : Prop :=
  ∃ n, IsGreatest {k | k ≤ amount.toNat ∧ k ≤ as.length ∧ k ≤ bs.length ∧ as.take k = bs.take k} n ∧
    compareBuffers a b amount flag.value = .ok (flag.answer a.base amount n)

/-! ### What a scan does -/

section
variable {n : Usz} {test : Usz → Res Bool} {d : Nat}

/-- A scan that gets to `d`. -/
theorem scan_eq_of_hit (hd : d < n.toNat) (hbelow : ∀ i : Usz, i.toNat < d → test i = .ok false)
    (hat : ∀ i : Usz, i.toNat = d → test i = .ok true) :
    scan n test = .ok (some (UInt64.ofNat d)) := by
  have hn := n.toNat_lt
  refine Except.wp_eq.1
    (wp_whileLoop (fun idx : Usz => idx.toNat ≤ d) (fun idx => d - idx.toNat) ?_ 0 (Nat.zero_le d)
    (Nat.lt_of_le_of_lt (Nat.sub_le ..) (by omega)))
  intro idx hle
  rw [if_pos (UInt64.lt_iff_toNat_lt.2 (by omega))]
  rcases Nat.lt_or_eq_of_le hle with hlt | heq
  · have hnext : (idx + 1).toNat = idx.toNat + 1 := UInt64.toNat_add_one (by omega)
    rw [hbelow idx hlt, Except.ok_bind, if_neg (by decide), Except.wp_pure, Ctl.post_next, hnext]
    exact ⟨hlt, by omega⟩
  · rw [hat idx heq, Except.ok_bind, if_pos rfl, Except.wp_pure,
      Ctl.post_done, ← heq, UInt64.ofNat_toNat]

theorem scan_eq_none (hbelow : ∀ i : Usz, i.toNat < n.toNat → test i = .ok false) :
    scan n test = .ok none := by
  have htest : ∀ i : Usz, i.toNat < n.toNat → (test i).wp fun b => b = true ↔ False :=
    fun i hi => by
    rw [hbelow i hi, Except.wp_ok]
    decide
  obtain ⟨r, hr, hspec⟩ := Except.wp_iff.1 (wp_scan (fun _ => False) htest)
  cases r with
  | none => exact hr
  | some idx => exact absurd hspec.sat id

theorem scan_ne_ok (hd : d < n.toNat) (hbelow : ∀ i : Usz, i.toNat < d → test i = .ok false)
    (hat : ∀ i : Usz, i.toNat = d → ∃ e, test i = .error e) (r : Option Usz) :
    scan n test ≠ .ok r := by
  have hn := n.toNat_lt
  intro hok
  refine of_whileLoop_ok (Q := fun _ => False) (fun idx : Usz => idx.toNat ≤ d)
    (s := 0) ?_ (Nat.zero_le d) hok
  intro idx c hle hc
  rw [if_pos (UInt64.lt_iff_toNat_lt.2 (by omega))] at hc
  rcases Nat.lt_or_eq_of_le hle with hlt | heq
  · have hnext : (idx + 1).toNat = idx.toNat + 1 := UInt64.toNat_add_one (by omega)
    rw [hbelow idx hlt] at hc
    cases hc
    show (idx + 1).toNat ≤ d
    omega
  · obtain ⟨e, he⟩ := hat idx heq
    rw [he] at hc
    cases hc

end

section
variable {a b : View} {as bs : List UInt8} {amount : Usz} {d : Nat}

/-- The comparison of one byte. -/
def differAt (a b : View) (idx : Usz) : Res Bool := do
  let x ← a.rd (a.base + idx)
  let y ← b.rd (b.base + idx)
  pure (x != y)

theorem Confined.read (h : Confined a as) {i : Usz} (hi : i.toNat < as.length) :
    a.rd (a.base + i) = .ok as[i.toNat] := h.holds.read (List.getElem?_eq_getElem hi)

theorem differAt_eq (ha : Confined a as) (hb : Confined b bs) {i : Usz}
    (hi : i.toNat < min as.length bs.length) :
    differAt a b i = .ok (decide (as[i.toNat]? ≠ bs[i.toNat]?)) := by
  rw [Nat.lt_min] at hi
  rw [differAt, ha.read hi.1, Except.ok_bind, hb.read hi.2, Except.ok_bind,
    List.getElem?_eq_getElem hi.1, List.getElem?_eq_getElem hi.2]
  refine congrArg Except.ok ?_
  rw [Bool.eq_iff_iff, bne_iff_ne, decide_eq_true_iff, Ne, Ne, Option.some.injEq]

theorem differAt_error (ha : Confined a as) (hb : Confined b bs) {i : Usz}
    (hi : min as.length bs.length ≤ i.toNat) : ∃ e, differAt a b i = .error e := by
  rw [differAt]
  rcases Nat.lt_or_ge i.toNat as.length with hlt | hge
  · obtain ⟨e, he⟩ := hb.outside i (by omega)
    exact ⟨e, by rw [ha.read hlt, Except.ok_bind, he]; rfl⟩
  · obtain ⟨e, he⟩ := ha.outside i hge
    exact ⟨e, by rw [he]; rfl⟩

/-- Up to a difference, or to the end of the shorter buffer, the bytes are the same. -/
theorem differAt_of_same (ha : Confined a as) (hb : Confined b bs)
    (hd : d ≤ min as.length bs.length) (hsame : NoneBelow (fun i => as[i]? ≠ bs[i]?) d) :
    ∀ i : Usz, i.toNat < d → differAt a b i = .ok false := by
  intro i hi
  rw [differAt_eq ha hb (Nat.lt_of_lt_of_le hi hd), decide_eq_false (hsame i.toNat hi)]

theorem comparePtrSimple_eq (r : Option Usz) (h : scan amount (differAt a b) = .ok r) :
    comparePtrSimple a b amount = .ok (a.base + r.getD amount) := by
  unfold differAt at h
  rw [comparePtrSimple, h, Except.ok_bind]
  cases r with
  | none => rfl
  | some idx => rfl

theorem compareBuffers_eq {n : Usz} (flag : DiffFlag)
    (h : comparePtrSimple a b amount = .ok (a.base + n)) :
    compareBuffers a b amount flag.value = .ok (flag.answer a.base amount n.toNat) := by
  have hidx : compareIdx a b amount = .ok n := by
    rw [compareIdx, h, Except.ok_bind, UInt64.add_comm, UInt64.add_sub_cancel]
    rfl
  cases flag with
  | bool =>
    have hbool : compareBuffers a b amount DiffFlag.bool.value = compareBool a b amount >>=
      fun result =>
      pure (if result then 1 else 0) := rfl
    rw [hbool, compareBool, hidx]
    show Except.ok (if (n == amount) = true then (1 : Usz) else 0) = _
    simp only [DiffFlag.answer, UInt64.toNat_inj, beq_iff_eq]
  | idxDiff =>
    have hself : compareBuffers a b amount DiffFlag.idxDiff.value = compareIdx a b amount := rfl
    rw [hself, hidx, DiffFlag.answer, UInt64.ofNat_toNat]
  | ptrDiff =>
    have hself : compareBuffers a b amount DiffFlag.ptrDiff.value = comparePtrSimple a b amount :=
      rfl
    rw [hself, h, DiffFlag.answer, UInt64.ofNat_toNat]

theorem compareBuffers_ne_ok {flag : DiffFlag} {r : Usz}
    (h : ∀ diff, scan amount (differAt a b) ≠ .ok diff) :
    compareBuffers a b amount flag.value ≠ .ok r := by
  have hptr : ∀ ptr, comparePtrSimple a b amount ≠ .ok ptr := by
    intro ptr hptr
    rw [comparePtrSimple, Except.bind_eq_ok] at hptr
    obtain ⟨diff, hdiff, -⟩ := hptr
    exact h diff hdiff
  have hidx : ∀ idx, compareIdx a b amount ≠ .ok idx := by
    intro idx hidx
    rw [compareIdx, Except.bind_eq_ok] at hidx
    obtain ⟨ptr, hptr', -⟩ := hidx
    exact hptr ptr hptr'
  intro hrun
  cases flag with
  | bool =>
    have hbool : (compareBool a b amount >>= fun result => pure (if result then (1 : Usz) else 0)) =
      .ok r := hrun
    rw [compareBool, bind_assoc, Except.bind_eq_ok] at hbool
    obtain ⟨idx, hidx', -⟩ := hbool
    exact hidx idx hidx'
  | idxDiff => exact hidx r hrun
  | ptrDiff => exact hptr r hrun

theorem take_eq_take_iff {k : Nat} :
    as.take k = bs.take k ↔ NoneBelow (fun i => as[i]? ≠ bs[i]?) k := by
  constructor
  · intro h i hi
    rw [not_not, ← List.getElem?_take_of_lt hi, h, List.getElem?_take_of_lt hi]
  · intro h
    refine List.ext_getElem? fun i => ?_
    rcases Nat.lt_or_ge i k with hlt | hge
    · rw [List.getElem?_take_of_lt hlt, List.getElem?_take_of_lt hlt]
      exact not_not.1 (h i hlt)
    · rw [List.getElem?_take_eq_none hge, List.getElem?_take_eq_none hge]

end

/-- The comparison is right exactly if it has not to go beyond the shorter buffer, or meets a
difference before. -/
theorem compareBuffers_prefix_iff (a b : View) (as bs : List UInt8) (ha : Confined a as)
    (hb : Confined b bs) (amount : Usz) (flag : DiffFlag) : ComparesPrefix a b as bs amount flag ↔
      amount.toNat ≤ min as.length bs.length ∨ ∃ i < min as.length bs.length, as[i]? ≠ bs[i]? := by
  rcases exists_least_or_noneBelow (fun i => as[i]? ≠ bs[i]?)
    (min amount.toNat (min as.length bs.length)) with ⟨d, hd⟩ | hnone
  · -- the difference is met
    have hlt := hd.lt
    have hscan : scan amount (differAt a b) = .ok (some (UInt64.ofNat d)) := by
      refine scan_eq_of_hit (by omega) (differAt_of_same ha hb (by omega) hd.none) fun i hi => ?_
      rw [differAt_eq ha hb (by omega), decide_eq_true (by rw [hi]; exact hd.sat)]
    have hword : (UInt64.ofNat d).toNat = d :=
      UInt64.toNat_ofNat_of_lt_two_pow (by have := amount.toNat_lt; omega)
    have hrun := compareBuffers_eq flag (comparePtrSimple_eq _ hscan)
    rw [Option.getD_some, hword] at hrun
    refine iff_of_true ⟨d, ⟨⟨by omega, by omega, by omega, take_eq_take_iff.2 hd.none⟩, ?_⟩,
      hrun⟩ (.inr ⟨d, by omega, hd.sat⟩)
    rintro k ⟨-, -, -, hk⟩
    by_contra hgt
    exact take_eq_take_iff.1 hk d (Nat.lt_of_not_le hgt) hd.sat
  · rcases Nat.lt_or_ge (min as.length bs.length) amount.toNat with hlt | hge
    · -- the loop runs over the end of the shorter buffer
      rw [Nat.min_eq_right (Nat.le_of_lt hlt)] at hnone
      refine iff_of_false ?_ ?_
      · rintro ⟨n, -, hrun⟩
        exact compareBuffers_ne_ok
          (scan_ne_ok hlt (differAt_of_same ha hb (Nat.le_refl _) hnone) fun i hi =>
          differAt_error ha hb (Nat.le_of_eq hi.symm)) hrun
      · rintro (hle | ⟨i, hi, hne⟩)
        · omega
        · exact hnone i hi hne
    · rw [Nat.min_eq_left hge] at hnone
      have hrun := compareBuffers_eq flag
        (comparePtrSimple_eq _ (scan_eq_none (differAt_of_same ha hb hge hnone)))
      rw [Option.getD_none] at hrun
      exact iff_of_true ⟨amount.toNat,
        ⟨⟨Nat.le_refl _, by omega, by omega, take_eq_take_iff.2 hnone⟩, fun k hk => hk.1⟩, hrun⟩
        (.inl hge)

/-- A local object as a buffer. -/
def localView (bs : List UInt8) : View := ⟨localObject bs, 0, UInt64.ofNat bs.length⟩

theorem confined_localView {bs : List UInt8} (h : bs.length < 2 ^ 64) :
    Confined (localView bs) bs where
  writeCur_eq := UInt64.toNat_ofNat_of_lt_two_pow h
  holds := localObject_reads bs
  outside i hi := by
    refine ⟨.bounds i, ?_⟩
    show localObject bs (0 + i) = _
    rw [UInt64.zero_add]
    exact if_neg (Nat.not_lt.2 hi)

theorem compareBuffers_prefix_two : ComparesPrefix (localView [97, 98]) (localView [97, 99, 100])
    [97, 98] [97, 99, 100] 5 .ptrDiff :=
  (compareBuffers_prefix_iff _ _ _ _ (confined_localView (by decide))
    (confined_localView (by decide)) 5 .ptrDiff).2 (.inr ⟨1, by decide, by decide⟩)

/-- Two bytes of two buffers of one. -/
theorem compareBuffers_not_prefix :
    (∃ e, compareBuffers (localView [97]) (localView [97]) 2 returnIdxDiff = .error e) ∧
    ¬ ComparesPrefix (localView [97]) (localView [97]) [97] [97] 2 .idxDiff := by
  have hnot : ¬ ComparesPrefix (localView [97]) (localView [97]) [97] [97] 2 .idxDiff := fun h =>
    absurd ((compareBuffers_prefix_iff _ _ _ _ (confined_localView (by decide))
      (confined_localView (by decide)) 2 .idxDiff).1 h) (by decide)
  refine ⟨?_, hnot⟩
  cases hrun : compareBuffers (localView [97]) (localView [97]) 2 returnIdxDiff with
  | error e => exact ⟨e, rfl⟩
  | ok r =>
    have hflag : returnIdxDiff = DiffFlag.idxDiff.value := rfl
    rw [hflag] at hrun
    refine absurd hrun (compareBuffers_ne_ok (scan_ne_ok (d := 1) (by decide) ?_ ?_))
    · exact differAt_of_same (confined_localView (by decide)) (confined_localView (by decide))
        (by decide) (by unfold NoneBelow; decide)
    · exact fun i hi => differAt_error (confined_localView (by decide))
        (confined_localView (by decide)) (Nat.le_of_eq hi.symm)

end TinyBase
