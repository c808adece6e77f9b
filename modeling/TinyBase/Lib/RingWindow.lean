import Mathlib.Data.List.Basic
import Mathlib.Logic.Function.Basic

/-!
# A list in a ring of slots

`items` are all the items that were ever put into a ring of `n` slots, of which the first `first`
have been taken out again. Item `j` lies in slot `j % n`, and a slot without an item holds `zero`.
-/

section
variable {α : Type}

structure RingWindow (n : Nat) (slot : Nat → α) (zero : α) (items : List α) (first : Nat) :
    Prop where
  le : first ≤ items.length
  fits : items.length ≤ first + n
  holds : ∀ j (hj : j < items.length), first ≤ j → slot (j % n) = items[j]
  empty : ∀ i, i < n → slot i ≠ zero → ∃ j, first ≤ j ∧ j < items.length ∧ j % n = i
  nonzero : ∀ x ∈ items, x ≠ zero

namespace RingWindow
variable {n : Nat} {slot : Nat → α} {zero : α} {items : List α} {first : Nat}

/-- Positions that are less than `n` apart have different slots. -/
theorem eq_of_mod_eq {i j : Nat} (hij : i ≤ j) (hlt : j < i + n) (hmod : j % n = i % n) :
    j = i := by
  have hdvd : (j - i) % n = 0 := Nat.sub_mod_eq_zero_of_mod_eq hmod
  have hsub : (j - i) % n = j - i := Nat.mod_eq_of_lt (by omega)
  omega

theorem init : RingWindow n (fun _ => zero) zero [] 0 where
  le := Nat.le_refl 0
  fits := Nat.zero_le _
  holds _ hj := absurd hj (Nat.not_lt_zero _)
  empty _ _ h := absurd rfl h
  nonzero _ := nofun

theorem congr {slot' : Nat → α} (h : RingWindow n slot zero items first)
    (hslot : ∀ i, i < n → slot' i = slot i) : RingWindow n slot' zero items first where
  le := h.le
  fits := h.fits
  holds j hj hfirst := by
    have hn : 0 < n := by have := h.fits; omega
    rw [hslot _ (Nat.mod_lt _ hn)]
    exact h.holds j hj hfirst
  empty i hi hne := h.empty i hi (by rw [← hslot i hi]; exact hne)
  nonzero := h.nonzero

/-- A slot is occupied exactly if it is that of a position in the window. -/
theorem slot_ne_iff (h : RingWindow n slot zero items first) {i : Nat} (hi : i < n) :
    slot i ≠ zero ↔ ∃ j, first ≤ j ∧ j < items.length ∧ j % n = i := by
  refine ⟨h.empty i hi, ?_⟩
  rintro ⟨j, hfirst, hj, rfl⟩
  rw [h.holds j hj hfirst]
  exact h.nonzero _ (List.getElem_mem hj)

/-- The next slot to be filled is free exactly if the ring is not full. -/
theorem next_eq_iff (h : RingWindow n slot zero items first) (hn : 0 < n) :
    slot (items.length % n) = zero ↔ items.length < first + n := by
  have hfits := h.fits
  rw [← not_iff_not, ← ne_eq, h.slot_ne_iff (Nat.mod_lt _ hn)]
  constructor
  · rintro ⟨j, hfirst, hj, hmod⟩
    intro hlt
    exact Nat.ne_of_lt hj (eq_of_mod_eq (Nat.le_of_lt hj) (by omega) hmod.symm).symm
  · intro hfull
    refine ⟨first, Nat.le_refl _, by omega, ?_⟩
    rw [show items.length = first + n by omega, Nat.add_mod_right]

/-- There is a free slot exactly if the ring is not full. -/
theorem exists_free_iff (h : RingWindow n slot zero items first) (hn : 0 < n) :
    (∃ i, i < n ∧ slot i = zero) ↔ items.length < first + n := by
  constructor
  · rintro ⟨i, hi, hfree⟩
    by_contra hfull
    -- the position of slot `i` in the window
    have hpos : (first + (i + (n - first % n)) % n) % n = i := by
      have hr := Nat.mod_lt first hn
      rw [Nat.add_mod_mod, ← Nat.mod_add_mod,
        show first % n + (i + (n - first % n)) = i + n by omega,
        Nat.add_mod_right, Nat.mod_eq_of_lt hi]
    have hlt := Nat.mod_lt (i + (n - first % n)) hn
    exact (h.slot_ne_iff hi).2 ⟨_, Nat.le_add_right _ _, by omega, hpos⟩ hfree
  · intro hlt
    exact ⟨_, Nat.mod_lt _ hn, (h.next_eq_iff hn).2 hlt⟩

/-- The next slot to be emptied holds the oldest item, if there is one. -/
theorem oldest (h : RingWindow n slot zero items first) (hn : 0 < n) :
    slot (first % n) = items.getD first zero := by
  have hfits := h.fits
  by_cases hlt : first < items.length
  · rw [h.holds first hlt (Nat.le_refl _), List.getD_eq_getElem?_getD, List.getElem?_eq_getElem hlt,
      Option.getD_some]
  · rw [List.getD_eq_getElem?_getD, List.getElem?_eq_none (Nat.not_lt.1 hlt), Option.getD_none]
    by_contra hne
    obtain ⟨j, hfirst, hj, -⟩ := h.empty _ (Nat.mod_lt _ hn) hne
    omega

variable {x : α}

theorem push (h : RingWindow n slot zero items first) (hn : 0 < n)
    (hfree : slot (items.length % n) = zero) (hx : x ≠ zero) :
    RingWindow n (Function.update slot (items.length % n) x) zero (items ++ [x]) first := by
  have hlt := (h.next_eq_iff hn).1 hfree
  have hle := h.le
  refine ⟨by rw [List.length_append]; omega, by rw [List.length_append]; exact hlt,
    fun j hj hfirst => ?_, fun i hi hne => ?_, fun y hy => ?_⟩
  · rw [List.length_append, List.length_singleton] at hj
    by_cases hlast : j = items.length
    · subst hlast
      rw [Function.update_self, List.getElem_concat_length rfl]
    · have hne : j % n ≠ items.length % n := fun hmod =>
        hlast (eq_of_mod_eq (i := j) (by omega) (by omega) hmod.symm).symm
      rw [Function.update_of_ne hne, List.getElem_append_left (by omega)]
      exact h.holds j (by omega) hfirst
  · rw [List.length_append, List.length_singleton]
    by_cases hi' : i = items.length % n
    · exact ⟨items.length, hle, by omega, hi'.symm⟩
    · rw [Function.update_of_ne hi'] at hne
      obtain ⟨j, hfirst, hj, hmod⟩ := h.empty i hi hne
      exact ⟨j, hfirst, by omega, hmod⟩
  · rcases List.mem_append.1 hy with hy | hy
    · exact h.nonzero y hy
    · rw [List.mem_singleton.1 hy]
      exact hx

theorem pop (h : RingWindow n slot zero items first) (hn : 0 < n) (hne : slot (first % n) ≠ zero) :
    RingWindow n (Function.update slot (first % n) zero) zero items (first + 1) ∧
      items[first]? = some (slot (first % n)) := by
  have hfits := h.fits
  have hlt : first < items.length := by
    obtain ⟨j, hfirst, hj, -⟩ := h.empty _ (Nat.mod_lt _ hn) hne
    omega
  refine ⟨⟨hlt, by omega, fun j hj hfirst => ?_, fun i hi hne' => ?_, h.nonzero⟩, ?_⟩
  · have hmod : j % n ≠ first % n := fun hmod => by
      have := eq_of_mod_eq (i := first) (j := j) (by omega) (by omega) hmod
      omega
    rw [Function.update_of_ne hmod]
    exact h.holds j hj (by omega)
  · have hi' : i ≠ first % n := by
      rintro rfl
      exact hne' (Function.update_self ..)
    rw [Function.update_of_ne hi'] at hne'
    obtain ⟨j, hfirst, hj, hmod⟩ := h.empty i hi hne'
    refine ⟨j, ?_, hj, hmod⟩
    have hjf : j ≠ first := fun hjf => hi' (hjf ▸ hmod.symm)
    omega
  · rw [List.getElem?_eq_getElem hlt, h.holds first hlt (Nat.le_refl _)]

end RingWindow

end
