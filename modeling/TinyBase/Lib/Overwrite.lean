import Mathlib.Data.List.Basic
import Mathlib.Logic.Function.Basic

/-!
# Overwriting a part of a list

A row of values written at an index replaces what is there, and makes the list longer where it goes
behind its end. Of what is then between the old end and the index only a predicate is known. A log
of such writes to a family of lists is read from its end: a value is that of the last write over it.
-/

section
variable {κ α : Type} {G : α → Prop}

/-- `xs'` is `xs` with `ys` from index `i` on; the values in a gap satisfy `G`. -/
structure Overwrites (G : α → Prop) (xs : List α) (i : Nat) (ys xs' : List α) : Prop where
  length_eq : xs'.length = if ys = [] then xs.length else max xs.length (i + ys.length)
  written : ∀ j < ys.length, xs'[i + j]? = ys[j]?
  kept : ∀ j < xs.length, j < i ∨ i + ys.length ≤ j → xs'[j]? = xs[j]?
  gap : ∀ j, xs.length ≤ j → j < i → ∀ b, xs'[j]? = some b → G b

namespace Overwrites
variable {xs xs' xs'' ys zs : List α} {i j : Nat}

theorem refl (G : α → Prop) (xs : List α) (i : Nat) : Overwrites G xs i [] xs where
  length_eq := by rw [if_pos rfl]
  written j hj := absurd hj (Nat.not_lt_zero j)
  kept _ _ _ := rfl
  gap j hj _ b hb := by
    rw [List.getElem?_eq_none hj] at hb
    cases hb

theorem mono {H : α → Prop} (h : Overwrites G xs i ys xs') (hGH : ∀ b, G b → H b) :
    Overwrites H xs i ys xs' :=
  ⟨h.length_eq, h.written, h.kept, fun j hj hlt b hb => hGH b (h.gap j hj hlt b hb)⟩

theorem eq_of_nil (h : Overwrites G xs i [] xs') : xs' = xs := by
  have hlen := h.length_eq
  rw [if_pos rfl] at hlen
  refine List.ext_getElem? fun j => ?_
  rcases Nat.lt_or_ge j xs.length with hj | hj
  · exact h.kept j hj (by rw [List.length_nil]; omega)
  · rw [List.getElem?_eq_none hj, List.getElem?_eq_none (by omega)]

theorem length_le (h : Overwrites G xs i ys xs') : xs.length ≤ xs'.length := by
  rw [h.length_eq]
  split_ifs
  · exact Nat.le_refl _
  · exact Nat.le_max_left ..

/-- Values written behind one another are one row of values. -/
theorem append (h : Overwrites G xs i ys xs') (h' : Overwrites G xs' (i + ys.length) zs xs'') :
    Overwrites G xs i (ys ++ zs) xs'' := by
  rcases eq_or_ne ys [] with rfl | hys
  · cases h.eq_of_nil
    exact h'
  rcases eq_or_ne zs [] with rfl | hzs
  · cases h'.eq_of_nil
    rwa [List.append_nil]
  have hlen := h.length_eq
  have hlen' := h'.length_eq
  have hpos := List.length_pos_iff.2 hys
  rw [if_neg hys] at hlen
  rw [if_neg hzs] at hlen'
  constructor
  · rw [if_neg (List.append_ne_nil_of_left_ne_nil hys zs), List.length_append]
    omega
  · intro j hj
    rw [List.length_append] at hj
    rcases Nat.lt_or_ge j ys.length with hlt | hge
    · rw [h'.kept (i + j) (by omega) (by omega), h.written j hlt, List.getElem?_append_left hlt]
    · rw [show i + j = i + ys.length + (j - ys.length) by omega, h'.written _ (by omega),
        List.getElem?_append_right hge]
  · intro j hj hout
    rw [List.length_append] at hout
    rw [h'.kept j (by omega) (by omega), h.kept j hj (by omega)]
  · intro j hj hlt b hb
    refine h.gap j hj hlt b ?_
    rwa [← h'.kept j (by omega) (by omega)]

end Overwrites

/-- `xs` with `ys` from index `i` on, and `fill` in the gap. -/
def overwrite (fill : α) (xs : List α) (i : Nat) (ys : List α) : List α :=
  if ys.isEmpty then xs
    else xs.take i ++ List.replicate (i - xs.length) fill ++ ys ++ xs.drop (i + ys.length)

theorem overwrites_overwrite (fill : α) (xs : List α) (i : Nat) (ys : List α) :
    Overwrites (· = fill) xs i ys (overwrite fill xs i ys) := by
  rcases eq_or_ne ys [] with rfl | hys
  · exact .refl _ xs i
  have hfront : (xs.take i ++ List.replicate (i - xs.length) fill).length = i := by
    rw [List.length_append, List.length_take, List.length_replicate]
    omega
  rw [overwrite, if_neg (by rwa [List.isEmpty_iff])]
  constructor
  · rw [if_neg hys, List.length_append, List.length_append, hfront, List.length_drop]
    omega
  · intro j hj
    rw [List.getElem?_append_left (by rw [List.length_append, hfront]; omega),
      List.getElem?_append_right (by omega), hfront, Nat.add_sub_cancel_left]
  · intro j hj hout
    rcases Nat.lt_or_ge j i with hlt | hge
    · rw [List.append_assoc, List.append_assoc,
        List.getElem?_append_left (by rw [List.length_take]; omega), List.getElem?_take_of_lt hlt]
    · rw [List.getElem?_append_right (by rw [List.length_append, hfront]; omega),
        List.length_append, hfront, List.getElem?_drop]
      congr 1
      omega
  · intro j hj hlt b hb
    rw [List.append_assoc, List.append_assoc,
      List.getElem?_append_right (by rw [List.length_take]; omega),
      List.getElem?_append_left (by rw [List.length_take, List.length_replicate]; omega)] at hb
    exact List.eq_of_mem_replicate (List.mem_of_getElem? hb)

/-! ### Logs -/

/-- A write of `data` at `start` of the list `key`. -/
structure Patch (κ α : Type) where
  key : κ
  start : Nat
  data : List α

namespace Patch

/-- The write takes the lists `s` to `s'`. -/
structure Applies (G : α → Prop) (p : Patch κ α) (s s' : κ → List α) : Prop where
  overwrites : Overwrites G (s p.key) p.start p.data (s' p.key)
  others : ∀ k, k ≠ p.key → s' k = s k

/-- The writes of the log, one after the other. -/
inductive Log (G : α → Prop) : (κ → List α) → List (Patch κ α) → (κ → List α) → Prop where
  | nil (s : κ → List α) : Log G s [] s
  | cons {s s1 s' : κ → List α} {p : Patch κ α} {log : List (Patch κ α)} (h : p.Applies G s s1)
      (hrest : Log G s1 log s') : Log G s (p :: log) s'

section
variable [DecidableEq κ]

/-- The value that the write puts at an index of a list. -/
def get? (p : Patch κ α) (k : κ) (i : Nat) : Option α :=
  if p.key = k ∧ p.start ≤ i then p.data[i - p.start]? else none

theorem outside_of_none {p : Patch κ α} {i : Nat} (hnone : p.get? p.key i = none) :
    i < p.start ∨ p.start + p.data.length ≤ i := by
  rcases Nat.lt_or_ge i p.start with hlt | hge
  · exact .inl hlt
  · rw [get?, if_pos ⟨rfl, hge⟩, List.getElem?_eq_none_iff] at hnone
    omega

/-- How far the write makes the list `k` reach. -/
def extent (p : Patch κ α) (k : κ) : Nat :=
  if p.key = k ∧ p.data ≠ [] then p.start + p.data.length else 0

/-- The value of the last write over an index. -/
def lastAt (k : κ) (i : Nat) : List (Patch κ α) → Option α
  | [] => none
  | p :: log => (lastAt k i log).or (p.get? k i)

/-- How far a log makes the list `k` reach. -/
def reach (k : κ) : List (Patch κ α) → Nat
  | [] => 0
  | p :: log => max (p.extent k) (reach k log)

/-- What an index has after a log: the last write decides, then what was there at first, then a
gap. -/
def Decides (G : α → Prop) (s : κ → List α) (log : List (Patch κ α)) (k : κ) (i : Nat) (b : α) :
    Prop :=
  match lastAt k i log with
  | some c => b = c
  | none => if i < (s k).length then (s k)[i]? = some b else G b

end

end Patch

namespace Patch.Applies
variable [DecidableEq κ] {p : Patch κ α} {s s' : κ → List α} {k : κ} {i : Nat} {b : α}

theorem length_eq (h : p.Applies G s s') (k : κ) :
    (s' k).length = max (s k).length (p.extent k) := by
  rw [extent]
  rcases eq_or_ne p.key k with rfl | hk
  · rw [h.overwrites.length_eq]
    split_ifs <;> simp_all
  · rw [if_neg fun hkey => hk hkey.1, h.others k hk.symm, Nat.max_zero]

theorem getElem?_of_some (h : p.Applies G s s') (hb : p.get? k i = some b) :
    (s' k)[i]? = some b := by
  rw [get?] at hb
  split_ifs at hb with hin
  obtain ⟨rfl, hle⟩ := hin
  have hlt := (List.getElem?_eq_some_iff.1 hb).1
  rw [show i = p.start + (i - p.start) by omega, h.overwrites.written _ hlt, hb]

theorem getElem?_of_none (h : p.Applies G s s') (hnone : p.get? k i = none)
    (hi : i < (s k).length) : (s' k)[i]? = (s k)[i]? := by
  rcases eq_or_ne p.key k with rfl | hk
  · exact h.overwrites.kept i hi (outside_of_none hnone)
  · rw [h.others k hk.symm]

theorem of_gap (h : p.Applies G s s') (hnone : p.get? k i = none) (hi : (s k).length ≤ i)
    (hb : (s' k)[i]? = some b) : G b := by
  have hlt := (List.getElem?_eq_some_iff.1 hb).1
  rcases eq_or_ne p.key k with rfl | hk
  · refine h.overwrites.gap i hi ?_ b hb
    have hlen := h.overwrites.length_eq
    have hout := outside_of_none hnone
    split_ifs at hlen <;> omega
  · rw [h.others k hk.symm] at hlt
    omega

end Patch.Applies

namespace Patch.Log
variable [DecidableEq κ] {s s' : κ → List α} {log : List (Patch κ α)} {k : κ} {i : Nat} {b : α}

theorem length_eq (h : Log G s log s') (k : κ) :
    (s' k).length = max (s k).length (reach k log) := by
  induction h with
  | nil => rw [reach, Nat.max_zero]
  | cons h _ ih => rw [ih, h.length_eq, reach, Nat.max_assoc]

/-- The last write over an index decides what is there. -/
theorem decides (h : Log G s log s') (hb : (s' k)[i]? = some b) : Decides G s log k i b := by
  induction h with
  | nil s =>
    rw [Decides, lastAt]
    dsimp only
    rw [if_pos (List.getElem?_eq_some_iff.1 hb).1]
    exact hb
  | @cons s s1 s' p log h hrest ih =>
    have hlen := h.length_eq k
    have hlast := ih hb
    rw [Decides] at hlast ⊢
    rw [lastAt]
    cases hrec : lastAt k i log with
    | some c =>
      rw [hrec] at hlast
      exact hlast
    | none =>
      rw [hrec] at hlast
      dsimp only at hlast
      rw [Option.none_or]
      cases hget : p.get? k i with
      | some c =>
        have hput := h.getElem?_of_some hget
        rw [if_pos (List.getElem?_eq_some_iff.1 hput).1, hput] at hlast
        exact (Option.some.inj hlast).symm
      | none =>
        dsimp only
        by_cases hi : i < (s k).length
        · rw [if_pos (by omega), h.getElem?_of_none hget hi] at hlast
          rwa [if_pos hi]
        · rw [if_neg hi]
          by_cases hi1 : i < (s1 k).length
          · rw [if_pos hi1] at hlast
            exact h.of_gap hget (Nat.le_of_not_lt hi) hlast
          · rwa [if_neg hi1] at hlast

end Patch.Log

end
