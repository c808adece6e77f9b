import Mathlib.Order.Basic
import Mathlib.Data.Nat.Count
import Mathlib.Data.Nat.Find

/-!
# The least and the greatest index below a bound

`Least p n i`: `i` is the least index that satisfies `p`, and it is below `n`. `Greatest p n i`: it
is the greatest below `n`. `NoneBelow p n`: no index below `n` satisfies `p`. A search that looks at
the indices in order keeps `NoneBelow p i` for the indices it has passed.
-/

/-- No index below `n` satisfies `p`. -/
def NoneBelow (p : Nat → Prop) (n : Nat) : Prop := ∀ i < n, ¬ p i

/-- `i < n` is the least index that satisfies `p`. -/
structure Least (p : Nat → Prop) (n i : Nat) : Prop where
  lt : i < n
  sat : p i
  none : NoneBelow p i

/-- `i < n` is the greatest index below `n` that satisfies `p`. -/
structure Greatest (p : Nat → Prop) (n i : Nat) : Prop where
  lt : i < n
  sat : p i
  none : ∀ j, i < j → j < n → ¬ p j

namespace NoneBelow
variable {p q : Nat → Prop} {a b : Nat}

theorem zero : NoneBelow p 0 := fun _ h => absurd h (Nat.not_lt_zero _)

theorem mono (h : NoneBelow p b) (hab : a ≤ b) : NoneBelow p a :=
  fun i hi => h i (Nat.lt_of_lt_of_le hi hab)

theorem succ (h : NoneBelow p a) (ha : ¬ p a) : NoneBelow p (a + 1) := fun i hi =>
  (Nat.lt_succ_iff_lt_or_eq.1 hi).elim (h i) fun e => e ▸ ha

/-- A block of indices without a hit is passed at once. -/
theorem append (h : NoneBelow p a) (hb : ∀ i, a ≤ i → i < b → ¬ p i) : NoneBelow p b := fun i hi =>
  (Nat.lt_or_ge i a).elim (h i) fun hai => hb i hai hi

/-- A search that starts over at index `a` and finds nothing. -/
theorem add (h : NoneBelow p a) (hb : NoneBelow (fun i => p (a + i)) b) : NoneBelow p (a + b) :=
  h.append fun i hai hi hp =>
    hb (i - a) (by omega) (by show p (a + (i - a)); rwa [Nat.add_sub_cancel' hai])

theorem congr (h : NoneBelow p a) (hpq : ∀ i < a, q i → p i) : NoneBelow q a :=
  fun i hi hq => h i hi (hpq i hi hq)

end NoneBelow

namespace Least
variable {p q : Nat → Prop} {n i j : Nat}

theorem unique (h : Least p n i) (h' : Least p n j) : i = j := by
  rcases Nat.lt_trichotomy i j with hlt | he | hgt
  · exact absurd h.sat (h'.none i hlt)
  · exact he
  · exact absurd h'.sat (h.none j hgt)

/-- A search that starts over at index `a` and finds a hit. -/
theorem add {a : Nat} (h : Least (fun i => p (a + i)) n i) (ha : NoneBelow p a) :
    Least p (a + n) (a + i) :=
  ⟨Nat.add_lt_add_left h.lt a, h.sat, ha.add h.none⟩

theorem not_noneBelow (h : Least p n i) : ¬ NoneBelow p n := fun hn => hn i h.lt h.sat

theorem congr (h : Least p n i) (hpq : ∀ k < n, p k ↔ q k) : Least q n i :=
  ⟨h.lt, (hpq i h.lt).1 h.sat, h.none.congr fun k hk => (hpq k (Nat.lt_trans hk h.lt)).2⟩

end Least

theorem exists_least_or_noneBelow (p : Nat → Prop) (n : Nat) :
    (∃ i, Least p n i) ∨ NoneBelow p n := by
  classical
  by_cases h : ∃ i, i < n ∧ p i
  · refine .inl ⟨Nat.find h, (Nat.find_spec h).1, (Nat.find_spec h).2, fun i hi hp => ?_⟩
    exact Nat.find_min h hi ⟨Nat.lt_trans hi (Nat.find_spec h).1, hp⟩
  · exact .inr fun i hi hp => h ⟨i, hi, hp⟩

/-! ### Indices counted in two ways

The indices below `n` that satisfy `p` are the places `e k`, in order, of the `k` below `N` that
satisfy `q`. -/

section
variable {p q : Nat → Prop} {e : Nat → Nat} {n N i : Nat}

theorem NoneBelow.of_image (hp : ∀ k < N, q k → e k < n ∧ p (e k)) (h : NoneBelow p n) :
    NoneBelow q N :=
  fun k hk hq => h (e k) (hp k hk hq).1 (hp k hk hq).2

theorem Least.of_image (hmono : ∀ j k, j < k → k < N → e j < e k)
    (hp : ∀ k < N, q k → e k < n ∧ p (e k)) (hq : ∀ i < n, p i → ∃ k < N, i = e k ∧ q k)
    (h : Least p n i) : ∃ k, i = e k ∧ Least q N k := by
  obtain ⟨k, hk, rfl, hqk⟩ := hq i h.lt h.sat
  refine ⟨k, rfl, hk, hqk, fun j hj hqj => ?_⟩
  exact h.none (e j) (hmono j k hj hk) (hp j (Nat.lt_trans hj hk) hqj).2

theorem Greatest.of_image (hmono : ∀ j k, j < k → k < N → e j < e k)
    (hp : ∀ k < N, q k → e k < n ∧ p (e k)) (hq : ∀ i < n, p i → ∃ k < N, i = e k ∧ q k)
    (h : Greatest p n i) : ∃ k, i = e k ∧ Greatest q N k := by
  obtain ⟨k, hk, rfl, hqk⟩ := hq i h.lt h.sat
  refine ⟨k, rfl, hk, hqk, fun j hkj hj hqj => ?_⟩
  exact h.none (e j) (hmono k j hkj hj) (hp j hj hqj).1 (hp j hj hqj).2

end

/-! ### How many there are -/

section
variable {p : Nat → Prop} [DecidablePred p] {n i : Nat}

theorem NoneBelow.count (h : NoneBelow p n) : Nat.count p n = 0 := Nat.count_iff_forall_not.2 h

theorem Greatest.count (h : Greatest p n i) : Nat.count p n = Nat.count p i + 1 := by
  obtain ⟨d, rfl⟩ := Nat.exists_eq_add_of_lt h.lt
  have hrest : NoneBelow (fun k => p (i + 1 + k)) d :=
    fun k hk => h.none (i + 1 + k) (by omega) (by omega)
  rw [Nat.add_right_comm, Nat.count_add, hrest.count, Nat.count_succ, if_pos h.sat]

end
