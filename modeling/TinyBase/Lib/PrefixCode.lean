import Mathlib.Data.List.Basic
import TinyBase.Lib.Hits

/-!
# Prefix codes and synchronising codes

`code` gives every symbol a word of units. A list of symbols is written as the words one after the
other, and `offset code bs k` is the index at which the word of the `k`-th symbol of `bs` begins. In
a prefix code an occurrence that begins at such an index is an occurrence of symbols; in a
synchronising code the first unit of a word is no other unit of a word, and there are no occurrences
anywhere else.
-/

namespace Code

section
variable {α β : Type}

/-- No word is empty, and none begins with another. -/
structure PrefixFree (code : α → List β) : Prop where
  ne_nil : ∀ a, code a ≠ []
  eq_of_prefix : ∀ a b, code a <+: code b → a = b

/-- Moreover a unit that satisfies `lead` begins a word, and no other unit of a word does. -/
structure Synchronising (code : α → List β) (lead : β → Prop) : Prop extends PrefixFree code where
  split : ∀ a, ∃ u us, code a = u :: us ∧ lead u ∧ ∀ x ∈ us, ¬ lead x

/-- The index at which the word of symbol `k` begins. -/
def offset (code : α → List β) (bs : List α) (k : Nat) : Nat := ((bs.take k).flatMap code).length

variable {code : α → List β} {lead : β → Prop} {as bs : List α} {a b : α} {i j k : Nat}

@[simp] theorem offset_zero : offset code bs 0 = 0 := by simp [offset]

@[simp] theorem offset_cons_succ :
    offset code (b :: bs) (k + 1) = (code b).length + offset code bs k := by
  simp [offset]

theorem drop_offset : (bs.flatMap code).drop (offset code bs k) = (bs.drop k).flatMap code := by
  have happ : bs.flatMap code = (bs.take k).flatMap code ++ (bs.drop k).flatMap code := by
    rw [← List.flatMap_append, List.take_append_drop]
  rw [happ, offset, List.drop_left]

theorem offset_succ (h : bs.drop k = b :: as) :
    offset code bs (k + 1) = offset code bs k + (code b).length := by
  have hget : bs[k]? = some b := by rw [← List.head?_drop, h, List.head?_cons]
  rw [offset, offset, List.take_add_one, hget]
  simp

theorem offset_add_length_le :
    offset code bs k + ((bs.drop k).flatMap code).length = (bs.flatMap code).length := by
  conv_rhs => rw [← List.take_append_drop k bs, List.flatMap_append, List.length_append]
  rfl

/-- The occurrences of one symbol are hits that do not overlap. -/
theorem exists_hits [DecidableEq α] (a : α) (bs : List α) :
    ∃ is, Hits (fun i => code a <+: (bs.flatMap code).drop i)
      (code a).length (bs.flatMap code).length 0 is ∧ is.length = bs.count a := by
  induction bs with
  | nil => exact ⟨[], trivial, rfl⟩
  | cons b bs ih =>
    obtain ⟨is, his, hlen⟩ := ih
    have hshift := his.shift (code b).length
    rw [Nat.zero_add] at hshift
    have hrest : Hits (fun i => code a <+: ((b :: bs).flatMap code).drop i) (code a).length
        ((b :: bs).flatMap code).length (code b).length (is.map (· + (code b).length)) := by
      rw [List.flatMap_cons, List.length_append,
        Nat.add_comm (code b).length (bs.flatMap code).length]
      refine hshift.congr fun i hi _ hp => ?_
      rwa [List.drop_append, List.drop_of_length_le hi, List.nil_append]
    by_cases hab : b = a
    · subst hab
      refine ⟨0 :: is.map (· + (code b).length), ⟨Nat.le_refl _, ?_, ?_, by rwa [Nat.zero_add]⟩, ?_⟩
      · simp
      · simp
      · simp [hlen]
    · exact ⟨_, hrest.mono (Nat.zero_le _),
        by rw [List.length_map, hlen, List.count_cons_of_ne hab]⟩

namespace PrefixFree
variable (hcode : PrefixFree code)
include hcode

theorem length_pos (a : α) : 0 < (code a).length := List.length_pos_iff.2 (hcode.ne_nil a)

/-- A list whose words begin the words of another begins the other. -/
theorem flatMap_prefix_iff : as.flatMap code <+: bs.flatMap code ↔ as <+: bs := by
  constructor
  · intro h
    induction as generalizing bs with
    | nil => exact List.nil_prefix
    | cons a as ih =>
      rw [List.flatMap_cons] at h
      have hpos := hcode.length_pos a
      cases bs with
      | nil =>
        have hlen := h.length_le
        rw [List.length_append, List.flatMap_nil, List.length_nil] at hlen
        omega
      | cons b bs =>
        rw [List.flatMap_cons] at h
        have hab : a = b := by
          rcases List.prefix_or_prefix_of_prefix ((List.prefix_append _ _).trans h)
            (List.prefix_append _ _) with hp | hp
          · exact hcode.eq_of_prefix a b hp
          · exact (hcode.eq_of_prefix b a hp).symm
        subst hab
        rw [List.cons_prefix_cons]
        exact ⟨rfl, ih ((List.prefix_append_right_inj _).1 h)⟩
  · rintro ⟨cs, rfl⟩
    rw [List.flatMap_append]
    exact List.prefix_append _ _

/-- At the beginning of a word, occurrences are those of symbols. -/
theorem prefix_drop_offset_iff :
    as.flatMap code <+: (bs.flatMap code).drop (offset code bs k) ↔ as <+: bs.drop k := by
  rw [drop_offset, hcode.flatMap_prefix_iff]

theorem offset_lt (hjk : j < k) (hk : k ≤ bs.length) : offset code bs j < offset code bs k := by
  induction bs generalizing j k with
  | nil => simp at hk; omega
  | cons b bs ih =>
    obtain ⟨k, rfl⟩ : ∃ k', k = k' + 1 := ⟨k - 1, by omega⟩
    have hpos := hcode.length_pos b
    cases j with
    | zero => simp; omega
    | succ j =>
      simp only [offset_cons_succ]
      have := ih (j := j) (k := k) (by omega) (by simpa using hk)
      omega

/-- The words of `as` at the symbol `k` end with the text or before. -/
theorem offset_add_le (h : as <+: bs.drop k) :
    offset code bs k + (as.flatMap code).length ≤ (bs.flatMap code).length := by
  have := (hcode.flatMap_prefix_iff.2 h).length_le
  have hsum : offset code bs k + ((bs.drop k).flatMap code).length = (bs.flatMap code).length :=
    offset_add_length_le
  omega

end PrefixFree

namespace Synchronising
variable (hcode : Synchronising code lead)
include hcode

theorem exists_offset {u : β} (hu : (bs.flatMap code)[i]? = some u) (hlead : lead u) :
    ∃ k < bs.length, i = offset code bs k := by
  induction bs generalizing i with
  | nil => simp at hu
  | cons b bs ih =>
    obtain ⟨v, vs, hb, -, hvs⟩ := hcode.split b
    rw [List.flatMap_cons] at hu
    rcases Nat.lt_or_ge i (code b).length with hlt | hge
    · rw [List.getElem?_append_left hlt, hb] at hu
      cases i with
      | zero => exact ⟨0, by simp, by simp⟩
      | succ i =>
        rw [List.getElem?_cons_succ] at hu
        exact absurd hlead (hvs u (List.mem_of_getElem? hu))
    · rw [List.getElem?_append_right hge] at hu
      obtain ⟨k, hk, hik⟩ := ih hu
      exact ⟨k + 1, by simpa using hk, by rw [offset_cons_succ]; omega⟩

/-- All occurrences of a list that is not empty are occurrences of symbols. -/
theorem prefix_drop_iff (has : as ≠ []) :
    as.flatMap code <+: (bs.flatMap code).drop i ↔
      ∃ k < bs.length, i = offset code bs k ∧ as <+: bs.drop k := by
  constructor
  · intro h
    obtain ⟨a, as', rfl⟩ := List.exists_cons_of_ne_nil has
    obtain ⟨u, us, ha, hu, -⟩ := hcode.split a
    have hhead : (bs.flatMap code)[i]? = some u := by
      obtain ⟨t, ht⟩ := h
      rw [← List.head?_drop, ← ht, List.flatMap_cons, ha]
      rfl
    obtain ⟨k, hk, rfl⟩ := hcode.exists_offset hhead hu
    exact ⟨k, hk, rfl, hcode.prefix_drop_offset_iff.1 h⟩
  · rintro ⟨k, -, rfl, h⟩
    exact hcode.prefix_drop_offset_iff.2 h

/-- Hits that do not overlap are at most as many as the symbol is there. -/
theorem length_hits_le [DecidableEq α] {is : List Nat} {n : Nat}
    (h : Hits (fun i => code a <+: (bs.flatMap code).drop i)
      (code a).length n (offset code bs k) is) :
    is.length ≤ (bs.drop k).count a := by
  induction is generalizing k with
  | nil => exact Nat.zero_le _
  | cons i is ih =>
    obtain ⟨hle, hp, -, hrest⟩ := h
    have hp : [a].flatMap code <+: (bs.flatMap code).drop i := by simpa using hp
    obtain ⟨l, hl, rfl, hal⟩ := (hcode.prefix_drop_iff (by simp)).1 hp
    have hkl : k ≤ l := by
      by_contra hlt
      have hlt' : offset code bs l < offset code bs (min k bs.length) :=
        hcode.offset_lt (by omega) (by omega)
      have hmin : offset code bs (min k bs.length) = offset code bs k := by
        rcases Nat.le_total k bs.length with hk | hk
        · rw [Nat.min_eq_left hk]
        · rw [Nat.min_eq_right hk, offset, offset, List.take_length, List.take_of_length_le hk]
      omega
    obtain ⟨cs, hcs⟩ := hal
    rw [← offset_succ hcs.symm] at hrest
    have hcount := ih hrest
    have hdrop : bs.drop k = (bs.drop k).take (l - k) ++ a :: bs.drop (l + 1) := by
      conv_lhs => rw [← List.take_append_drop (l - k) (bs.drop k)]
      have hrest' : bs.drop (l + 1) = cs := by
        rw [← List.drop_drop, ← hcs]; rfl
      rw [List.drop_drop, Nat.add_sub_cancel' hkl, ← hcs, hrest']
      rfl
    rw [hdrop, List.count_append, List.count_cons_self, List.length_cons]
    omega

/-- The hits of a symbol are as many as there are occurrences of it. -/
theorem mostHits_count [DecidableEq α] (a : α) (bs : List α) :
    MostHits (fun i => code a <+: (bs.flatMap code).drop i)
      (code a).length (bs.flatMap code).length 0 (bs.count a) := by
  refine ⟨exists_hits a bs, fun is his => ?_⟩
  have hzero : offset code bs 0 = 0 := offset_zero
  rw [← hzero] at his
  exact hcode.length_hits_le his

/-- The unit of a word that is only this unit is in no other word. -/
theorem notMem_of_ne {u : β} (ha : code a = [u]) (hab : a ≠ b) : u ∉ code b := by
  obtain ⟨v, vs, hb, -, hvs⟩ := hcode.split b
  obtain ⟨w, ws, ha', hw, -⟩ := hcode.split a
  obtain ⟨rfl, rfl⟩ := List.cons_eq_cons.1 (ha.symm.trans ha')
  rw [hb, List.mem_cons]
  rintro (rfl | hmem)
  · exact hab (hcode.eq_of_prefix a b ⟨vs, by rw [ha, hb]; rfl⟩)
  · exact hvs u hmem hw

theorem countP_lead {p : β → Bool} (hp : ∀ x, p x = true ↔ lead x) :
    (bs.flatMap code).countP p = bs.length := by
  induction bs with
  | nil => rfl
  | cons b bs ih =>
    obtain ⟨u, us, hb, hu, hus⟩ := hcode.split b
    have hrest : us.countP p = 0 := List.countP_eq_zero.2 fun x hx => mt (hp x).1 (hus x hx)
    rw [List.flatMap_cons, List.countP_append, ih, hb, List.countP_cons_of_pos ((hp u).2 hu), hrest,
      List.length_cons]
    omega

end Synchronising

end

end Code
