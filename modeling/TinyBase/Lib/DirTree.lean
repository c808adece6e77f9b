import Mathlib.Data.List.Induction
import Mathlib.Data.List.TakeDrop

/-!
# Trees of directories

A state of a file system says which paths exist and which of them are directories; a path is the
list of its names, from the root on. Directories that are made one after the other, each in the one
before, are all there at the end, whatever there was of them at the beginning. A directory goes with
all that is in it when what is in it goes first.
-/

/-- The paths of a file system: what exists lies in something that exists. -/
structure DirTree (σ ν : Type) where
  Exists : σ → List ν → Prop
  IsDir : σ → List ν → Prop
  exists_of_isDir : ∀ {s p}, IsDir s p → Exists s p
  isDir_nil : ∀ s, IsDir s []
  exists_parent : ∀ {s p n}, Exists s (p ++ [n]) → Exists s p

namespace DirTree
variable {σ ν : Type} {T : DirTree σ ν} {s s' s0 : σ} {p q : List ν} {k : Nat}

/-- `p` becomes a directory with nothing in it; the other directories stay. -/
structure Makes (T : DirTree σ ν) (s : σ) (p : List ν) (s' : σ) : Prop where
  isDir : T.IsDir s' p
  kept : ∀ q, T.IsDir s q → T.IsDir s' q
  empty : ∀ n, ¬ T.Exists s' (p ++ [n])

/-- What exists of the way to `p` are directories. -/
def Passable (T : DirTree σ ν) (s : σ) (p : List ν) : Prop :=
  ∀ k, T.Exists s (p.take k) → T.IsDir s (p.take k)

/-- The first `k` directories on the way to `p` have been made, from the state `s0` on. -/
structure MadeUpTo (T : DirTree σ ν) (p : List ν) (s0 : σ) (k : Nat) (s : σ) : Prop where
  dirs : ∀ j ≤ k, T.IsDir s (p.take j)
  kept : ∀ q, T.IsDir s0 q → T.IsDir s q
  fresh : ∀ j ≤ p.length, k < j → T.Exists s (p.take j) → T.Exists s0 (p.take j)

theorem exists_above (hqp : q <+: p) (h : T.Exists s p) : T.Exists s q := by
  obtain ⟨t, rfl⟩ := hqp
  induction t using List.reverseRecOn with
  | nil => rwa [List.append_nil] at h
  | append_singleton t n ih =>
    rw [← List.append_assoc] at h
    exact ih (T.exists_parent h)

theorem Makes.isDir_take (h : T.Makes s p s') (hpass : T.Passable s p)
    (hparent : T.Exists s p.dropLast) (k : Nat) : T.IsDir s' (p.take k) := by
  by_cases hk : k < p.length
  · have hprefix : p.take k <+: p.dropLast := by
      rw [List.dropLast_eq_take]
      exact List.take_prefix_take_left (by omega)
    exact h.kept _ (hpass k (exists_above hprefix hparent))
  · rw [List.take_of_length_le (Nat.le_of_not_lt hk)]
    exact h.isDir

namespace MadeUpTo

theorem zero (T : DirTree σ ν) (p : List ν) (s : σ) : T.MadeUpTo p s 0 s where
  dirs j hj := by
    rw [Nat.le_zero.1 hj, List.take_zero]
    exact T.isDir_nil s
  kept _ hq := hq
  fresh _ _ _ hj := hj

theorem succ_of_exists (h : T.MadeUpTo p s0 k s) (hpass : T.Passable s0 p) (hk : k < p.length)
    (hexists : T.Exists s (p.take (k + 1))) : T.MadeUpTo p s0 (k + 1) s where
  dirs j hj := by
    rcases Nat.lt_or_eq_of_le hj with hlt | rfl
    · exact h.dirs j (Nat.le_of_lt_succ hlt)
    · exact h.kept _ (hpass _ (h.fresh _ hk (Nat.lt_succ_self k) hexists))
  kept := h.kept
  fresh j hj hkj := h.fresh j hj (Nat.lt_of_succ_lt hkj)

/-- The next directory is made; behind it there is nothing yet. -/
theorem succ_of_makes (h : T.MadeUpTo p s0 k s) (hmakes : T.Makes s (p.take (k + 1)) s') :
    T.MadeUpTo p s0 (k + 1) s' where
  dirs j hj := by
    rcases Nat.lt_or_eq_of_le hj with hlt | rfl
    · exact hmakes.kept _ (h.dirs j (Nat.le_of_lt_succ hlt))
    · exact hmakes.isDir
  kept q hq := hmakes.kept q (h.kept q hq)
  fresh j hj hkj hexists := by
    have hnext : k + 1 < p.length := Nat.lt_of_lt_of_le hkj hj
    have hbehind : T.Exists s' (p.take (k + 1) ++ [p[k + 1]]) := by
      rw [List.take_concat_get' p (k + 1) hnext]
      exact exists_above (List.take_prefix_take_left hkj) hexists
    exact absurd hbehind (hmakes.empty _)

theorem isDir_take (h : T.MadeUpTo p s0 p.length s) (k : Nat) : T.IsDir s (p.take k) := by
  rcases Nat.le_total k p.length with hle | hge
  · exact h.dirs k hle
  · rw [List.take_of_length_le hge, ← List.take_length (l := p)]
    exact h.dirs p.length (Nat.le_refl _)

end MadeUpTo

end DirTree

/-! ### Removing -/

section
variable {ν κ : Type} {p q : List ν} {f g h : List ν → Option κ}

/-- From `f` to `g` nothing has changed but at and below `p`, where things may be gone. -/
structure Thins (p : List ν) (f g : List ν → Option κ) : Prop where
  outside : ∀ q, ¬ p <+: q → g q = f q
  below : ∀ q, g q = f q ∨ g q = none

/-- From `f` to `g` nothing has changed but at and below `p`, where everything is gone. -/
structure Prunes (p : List ν) (f g : List ν → Option κ) : Prop where
  outside : ∀ q, ¬ p <+: q → g q = f q
  gone : ∀ q, p <+: q → g q = none

theorem Prunes.thins (h : Prunes p f g) : Thins p f g := by
  refine ⟨h.outside, fun q => ?_⟩
  by_cases hq : p <+: q
  · exact .inr (h.gone q hq)
  · exact .inl (h.outside q hq)

namespace Thins

theorem refl (p : List ν) (f : List ν → Option κ) : Thins p f f :=
  ⟨fun _ _ => rfl, fun _ => .inl rfl⟩

theorem trans (hfg : Thins p f g) (hgh : Thins p g h) : Thins p f h := by
  refine ⟨fun q hq => (hgh.outside q hq).trans (hfg.outside q hq), fun q => ?_⟩
  rcases hgh.below q with heq | hnone
  · rcases hfg.below q with heq' | hnone
    · exact .inl (heq.trans heq')
    · exact .inr (heq.trans hnone)
  · exact .inr hnone

theorem mono (h : Thins q f g) (hpq : p <+: q) : Thins p f g :=
  ⟨fun r hr => h.outside r fun hq => hr (hpq.trans hq), h.below⟩

theorem eq_none (h : Thins p f g) (hf : f q = none) : g q = none :=
  (h.below q).elim (fun heq => heq.trans hf) id

/-- When there is nothing in `p` and then `p` goes, all of it is gone. -/
theorem prunes (hfg : Thins p f g) (hinside : ∀ q n, g (q ++ [n]) ≠ none → g q ≠ none)
    (hempty : ∀ n, g (p ++ [n]) = none) (hp : h p = none) (hkept : ∀ q, q ≠ p → h q = g q) :
    Prunes p f h := by
  have hbelow : ∀ t, t ≠ [] → g (p ++ t) = none := by
    intro t
    induction t using List.reverseRecOn with
    | nil => exact fun hne => absurd rfl hne
    | append_singleton t n ih =>
      intro _
      by_cases ht : t = []
      · rw [ht]
        exact hempty n
      · by_contra hne
        rw [← List.append_assoc] at hne
        exact hinside _ n hne (ih ht)
  refine ⟨fun q hq => ?_, ?_⟩
  · rw [hkept q fun heq => hq (heq ▸ List.prefix_refl q)]
    exact hfg.outside q hq
  · rintro _ ⟨t, rfl⟩
    by_cases ht : t = []
    · rw [ht, List.append_nil]
      exact hp
    · rw [hkept _ fun heq => ht (List.append_cancel_left (heq.trans (List.append_nil p).symm))]
      exact hbelow t ht

end Thins

end
