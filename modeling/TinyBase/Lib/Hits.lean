import Mathlib.Data.List.Basic

/-!
# Hits that do not overlap

`Hits p w n a is`: the indices `is`, in order, satisfy `p`; each takes `w` places, none begins
before `a`, no two overlap, and the last ends by `n`. `MostHits p w n a c`: the greatest number of
such hits is `c`. Taking the first hit there is and going on behind it gives the greatest number.
-/

section
variable {p q : Nat → Prop} {w n a b i c c' : Nat} {is : List Nat}

def Hits (p : Nat → Prop) (w n : Nat) : Nat → List Nat → Prop
  | _, [] => True
  | a, i :: is => a ≤ i ∧ p i ∧ i + w ≤ n ∧ Hits p w n (i + w) is

/-- The greatest number of hits from `a` on is `c`. -/
structure MostHits (p : Nat → Prop) (w n a c : Nat) : Prop where
  exists_hits : ∃ is, Hits p w n a is ∧ is.length = c
  length_le : ∀ is, Hits p w n a is → is.length ≤ c

namespace Hits

theorem mono (h : Hits p w n b is) (hab : a ≤ b) : Hits p w n a is := by
  cases is with
  | nil => trivial
  | cons i is => exact ⟨Nat.le_trans hab h.1, h.2⟩

theorem congr (h : Hits p w n a is) (hpq : ∀ i, a ≤ i → i + w ≤ n → p i → q i) :
    Hits q w n a is := by
  induction is generalizing a with
  | nil => trivial
  | cons i is ih =>
    obtain ⟨hai, hp, hn, hrest⟩ := h
    exact ⟨hai, hpq i hai hn hp, hn, ih hrest fun j hj => hpq j (by omega)⟩

theorem shift (h : Hits p w n a is) (k : Nat) :
    Hits (fun i => p (i - k)) w (n + k) (a + k) (is.map (· + k)) := by
  induction is generalizing a with
  | nil => trivial
  | cons i is ih =>
    obtain ⟨hai, hp, hn, hrest⟩ := h
    have hback : i + k - k = i := Nat.add_sub_cancel i k
    refine ⟨Nat.add_le_add_right hai k, by simpa only [hback] using hp, ?_, ?_⟩
    · show i + k + w ≤ n + k
      omega
    · have := ih hrest
      rwa [Nat.add_right_comm] at this

end Hits

namespace MostHits

theorem unique (h : MostHits p w n a c) (h' : MostHits p w n a c') : c = c' := by
  obtain ⟨is, his, rfl⟩ := h.exists_hits
  obtain ⟨is', his', rfl⟩ := h'.exists_hits
  exact Nat.le_antisymm (h'.length_le is his) (h.length_le is' his')

theorem zero (h : ∀ i, a ≤ i → i + w ≤ n → ¬ p i) : MostHits p w n a 0 := by
  refine ⟨⟨[], trivial, rfl⟩, fun is his => ?_⟩
  cases is with
  | nil => exact Nat.le_refl _
  | cons i is => exact absurd his.2.1 (h i his.1 his.2.2.1)

theorem succ (h : MostHits p w n (i + w) c) (hai : a ≤ i) (hp : p i) (hn : i + w ≤ n)
    (hfirst : ∀ j, a ≤ j → j < i → ¬ p j) : MostHits p w n a (c + 1) := by
  obtain ⟨is, his, rfl⟩ := h.exists_hits
  refine ⟨⟨i :: is, ⟨hai, hp, hn, his⟩, rfl⟩, fun js hjs => ?_⟩
  cases js with
  | nil => exact Nat.zero_le _
  | cons j js =>
    obtain ⟨haj, hpj, -, hrest⟩ := hjs
    have hij : i ≤ j := Nat.le_of_not_lt fun hji => hfirst j haj hji hpj
    exact Nat.succ_le_succ (h.length_le js (hrest.mono (by omega)))

end MostHits

end
