import TinyBase.Lib.Calls
import TinyBase.Memory

/-!
# The arena (`PushIntoArena`)

The test whether a region fits adds two 64-bit words, and the sum may wrap around. As long as it
does not, the regions handed out are disjoint parts of the arena.
-/

namespace TinyBase

/-- `PushIntoArena`; zero is `NULL`. -/
def pushIntoArena (arena : Buffer) (size : Usz) : Ptr × Buffer :=
  if arena.writeCur + size ≤ arena.size then
    (arena.base + arena.writeCur, { arena with writeCur := arena.writeCur + size })
  else (0, arena)

/-- The regions that calls with these sizes return. -/
def arenaRegions (arena : Buffer) (sizes : List Usz) : List (Ptr × Usz) :=
  ((answers pushIntoArena arena sizes).zip sizes).filter (·.1 ≠ 0)

/-- What a call does: `WriteCur` does not decrease and stays at most `Size`, and `NULL` is returned
and nothing changed exactly if the region does not fit. -/
structure PushesRegion (arena : Buffer) (size : Usz) (result : Ptr) (arena' : Buffer) : Prop where
  grows : arena.writeCur ≤ arena'.writeCur
  le : arena'.writeCur ≤ arena'.size
  null_iff : (result = 0 ∧ arena'.writeCur = arena.writeCur) ↔ arena.size - arena.writeCur < size

/-- What a run of calls does. -/
structure ArenaSound (arena : Buffer) (sizes : List Usz) : Prop where
  calls : AllCalls pushIntoArena PushesRegion arena sizes
  inside : ∀ r ∈ arenaRegions arena sizes, ∀ a, InRange r.1 r.2.toNat a →
    InRange arena.base arena.size.toNat a
  disjoint : (arenaRegions arena sizes).Pairwise fun r r' => Apart r.1 r.2.toNat r'.1 r'.2.toNat

/-- The sum of the test does not wrap around. -/
def SumFits (arena : Buffer) (size : Usz) : Prop := arena.writeCur.toNat + size.toNat < 2 ^ 64

instance (arena : Buffer) (size : Usz) : Decidable (SumFits arena size) :=
  inferInstanceAs (Decidable (_ < _))

/-- An arena in memory: `WriteCur` is at most `Size`, and the address zero is not in it. -/
structure IsArena (arena : Buffer) : Prop where
  cur : arena.writeCur ≤ arena.size
  nonNull : ∀ i, i ≤ arena.size → arena.base + i ≠ 0

section
variable {arena : Buffer} {size : Usz} {sizes : List Usz}

theorem arenaRegions_cons (arena : Buffer) (size : Usz) (sizes : List Usz) :
    arenaRegions arena (size :: sizes) = (if (pushIntoArena arena size).1 ≠ 0 then
      [((pushIntoArena arena size).1, size)] else []) ++
      arenaRegions (pushIntoArena arena size).2 sizes := by
  rw [arenaRegions, answers_cons, List.zip_cons_cons, List.filter_cons]
  by_cases h : (pushIntoArena arena size).1 ≠ 0
  · rw [if_pos h, if_pos (decide_eq_true h)]; rfl
  · rw [if_neg h, if_neg (by simpa using h)]; rfl

theorem pushIntoArena_base (arena : Buffer) (size : Usz) :
    (pushIntoArena arena size).2.base = arena.base ∧
      (pushIntoArena arena size).2.size = arena.size := by
  rw [pushIntoArena]
  split_ifs <;> exact ⟨rfl, rfl⟩

/-- A region that does not wrap around is where it should be. -/
theorem InRange.of_offset {p w a : Ptr} {n : Nat} (hsmall : w.toNat + n ≤ 2 ^ 64)
    (h : InRange (p + w) n a) : w.toNat ≤ (a - p).toNat ∧ (a - p).toNat < w.toNat + n := by
  obtain ⟨i, hi, rfl⟩ := h.exists
  rw [show p + w + i - p = w + i by grind, UInt64.toNat_add, Nat.mod_eq_of_lt (by omega)]
  omega

namespace IsArena

/-- It is one if it does not wrap around. -/
theorem of_lt (hcur : arena.writeCur ≤ arena.size) (hbase : 0 < arena.base.toNat)
    (hend : arena.base.toNat + arena.size.toNat < 2 ^ 64) : IsArena arena := by
  refine ⟨hcur, fun i hi h0 => ?_⟩
  have hi := UInt64.le_iff_toNat_le.1 hi
  have hsum : (arena.base + i).toNat = arena.base.toNat + i.toNat :=
    UInt64.toNat_add_of_lt (by omega)
  rw [h0, UInt64.toNat_zero] at hsum
  omega

theorem push (h : IsArena arena) (hle : arena.writeCur + size ≤ arena.size) :
    IsArena (pushIntoArena arena size).2 := by
  rw [pushIntoArena, if_pos hle]
  exact ⟨hle, h.nonNull⟩

theorem keep (h : IsArena arena) (size : Usz) : IsArena (pushIntoArena arena size).2 := by
  by_cases hle : arena.writeCur + size ≤ arena.size
  · exact h.push hle
  · rw [pushIntoArena, if_neg hle]
    exact h

/-- The test is right if its sum does not wrap around. -/
theorem le_iff (h : IsArena arena) (hsum : SumFits arena size) :
    arena.writeCur + size ≤ arena.size ↔ ¬ arena.size - arena.writeCur < size := by
  have hcur := UInt64.le_iff_toNat_le.1 h.cur
  rw [SumFits] at hsum
  rw [UInt64.le_iff_toNat_le, UInt64.lt_iff_toNat_lt, UInt64.toNat_add, Nat.mod_eq_of_lt hsum,
    UInt64.toNat_sub_of_le _ _ h.cur]
  omega

theorem pushesRegion (h : IsArena arena) (hsum : SumFits arena size) :
    PushesRegion arena size (pushIntoArena arena size).1 (pushIntoArena arena size).2 := by
  have hiff := h.le_iff hsum
  rw [SumFits] at hsum
  by_cases hle : arena.writeCur + size ≤ arena.size
  · rw [pushIntoArena, if_pos hle]
    refine ⟨?_, hle, iff_of_false (fun hnull => h.nonNull _ h.cur hnull.1) (hiff.1 hle)⟩
    rw [UInt64.le_iff_toNat_le]
    show _ ≤ (arena.writeCur + size).toNat
    rw [UInt64.toNat_add, Nat.mod_eq_of_lt hsum]
    omega
  · rw [pushIntoArena, if_neg hle]
    exact ⟨UInt64.le_refl _, h.cur, iff_of_true ⟨rfl, rfl⟩ (not_not.1 (mt hiff.2 hle))⟩

/-- A sum that wraps around passes the test. -/
theorem sumFits_of_pushesRegion (h : IsArena arena)
    (hpush : PushesRegion arena size (pushIntoArena arena size).1 (pushIntoArena arena size).2) :
    SumFits arena size := by
  by_contra hwraps
  rw [SumFits, Nat.not_lt] at hwraps
  have hcur := UInt64.le_iff_toNat_le.1 h.cur
  have hcur64 := arena.writeCur.toNat_lt
  have hsize := arena.size.toNat_lt
  have hn := size.toNat_lt
  have hsum : (arena.writeCur + size).toNat = arena.writeCur.toNat + size.toNat - 2 ^ 64 := by
    rw [UInt64.toNat_add, Nat.mod_eq_sub_mod hwraps]
    exact Nat.mod_eq_of_lt (by omega)
  have hle : arena.writeCur + size ≤ arena.size := UInt64.le_iff_toNat_le.2 (by omega)
  have hnull :=
    hpush.null_iff.2 (UInt64.lt_iff_toNat_lt.2 (by rw [UInt64.toNat_sub_of_le _ _ h.cur]; omega))
  rw [pushIntoArena, if_pos hle] at hnull
  exact h.nonNull _ h.cur hnull.1

/-- The regions lie between `WriteCur` and `Size`. -/
theorem region (h : IsArena arena)
    (hsums : AllCalls pushIntoArena (fun arena size _ _ => SumFits arena size) arena sizes)
    {r : Ptr × Usz} (hr : r ∈ arenaRegions arena sizes) :
    ∃ w : Usz, r.1 = arena.base + w ∧ arena.writeCur.toNat ≤ w.toNat ∧
      w.toNat + r.2.toNat ≤ arena.size.toNat := by
  induction sizes generalizing arena with
  | nil => exact absurd hr List.not_mem_nil
  | cons size sizes ih =>
    obtain ⟨hsum, hrest⟩ := hsums
    obtain ⟨hbase, hsize⟩ := pushIntoArena_base arena size
    have hgrows := UInt64.le_iff_toNat_le.1 (h.pushesRegion hsum).grows
    rw [arenaRegions_cons, List.mem_append] at hr
    rcases hr with hr | hr
    · by_cases hle : arena.writeCur + size ≤ arena.size
      · rw [pushIntoArena, if_pos hle] at hr
        dsimp only at hr
        split_ifs at hr with hne
        · obtain rfl := List.mem_singleton.1 hr
          rw [UInt64.le_iff_toNat_le, UInt64.toNat_add, Nat.mod_eq_of_lt hsum] at hle
          exact ⟨arena.writeCur, rfl, Nat.le_refl _, hle⟩
        · exact absurd hr List.not_mem_nil
      · rw [pushIntoArena, if_neg hle] at hr
        exact absurd hr List.not_mem_nil
    · obtain ⟨w, hw, hlo, hhi⟩ := ih (h.keep size) hrest hr
      rw [hbase] at hw
      rw [hsize] at hhi
      exact ⟨w, hw, Nat.le_trans hgrows hlo, hhi⟩

theorem disjoint (h : IsArena arena)
    (hsums : AllCalls pushIntoArena (fun arena size _ _ => SumFits arena size) arena sizes) :
    (arenaRegions arena sizes).Pairwise fun r r' => Apart r.1 r.2.toNat r'.1 r'.2.toNat := by
  induction sizes generalizing arena with
  | nil => exact List.Pairwise.nil
  | cons size sizes ih =>
    obtain ⟨hsum, hrest⟩ := hsums
    obtain ⟨hbase, hsize⟩ := pushIntoArena_base arena size
    have hlater := ih (h.keep size) hrest
    have hsize64 := arena.size.toNat_lt
    rw [arenaRegions_cons]
    by_cases hle : arena.writeCur + size ≤ arena.size
    · have hcur' : (pushIntoArena arena size).2.writeCur.toNat =
          arena.writeCur.toNat + size.toNat := by
        rw [pushIntoArena, if_pos hle]
        show (arena.writeCur + size).toNat = _
        rw [UInt64.toNat_add, Nat.mod_eq_of_lt hsum]
      have hfirst : (pushIntoArena arena size).1 = arena.base + arena.writeCur := by
        rw [pushIntoArena, if_pos hle]
      have hne : (pushIntoArena arena size).1 ≠ 0 := by rw [hfirst]; exact h.nonNull _ h.cur
      rw [if_pos hne, List.singleton_append, List.pairwise_cons]
      refine ⟨fun r hr a ha ha' => ?_, hlater⟩
      obtain ⟨w, hw, hlo, hhi⟩ := (h.keep size).region hrest hr
      rw [hfirst] at ha
      rw [hw, hbase] at ha'
      rw [hsize] at hhi
      -- the first region ends where the others begin
      have h1 := (InRange.of_offset (Nat.le_of_lt hsum) ha).2
      have h2 := (InRange.of_offset (by omega) ha').1
      omega
    · rw [if_neg (by rw [pushIntoArena, if_neg hle]; exact fun h => h rfl), List.nil_append]
      exact hlater

end IsArena

/-- A run of calls hands out disjoint parts of the arena exactly if no sum wraps around. -/
theorem arenaSound_iff (arena : Buffer) (h : IsArena arena) (sizes : List Usz) :
    ArenaSound arena sizes ↔
      AllCalls pushIntoArena (fun arena size _ _ => SumFits arena size) arena sizes := by
  constructor
  · intro hsound
    exact hsound.calls.of_inv IsArena (fun arena size h hpush =>
      ⟨h.sumFits_of_pushesRegion hpush, h.keep size⟩) h
  · intro hsums
    refine ⟨hsums.of_inv IsArena (fun arena size h hsum => ⟨h.pushesRegion hsum, h.keep size⟩) h,
      ?_, h.disjoint hsums⟩
    intro r hr a ha
    obtain ⟨w, hw, -, hhi⟩ := h.region hsums hr
    rw [hw] at ha
    exact ha.of_add hhi

end

/-! An arena of sixteen bytes, of which eight are handed out. -/

def smallArena : Buffer := ⟨16, 8, 16⟩

theorem smallArena_isArena : IsArena smallArena := .of_lt (by decide) (by decide) (by decide)

theorem arenaSound_iff_smallArena : ArenaSound smallArena [4, 8, 4] :=
  have h1 : SumFits smallArena 4 := by decide
  have h2 : SumFits ⟨16, 12, 16⟩ 8 := by decide
  have h3 : SumFits ⟨16, 12, 16⟩ 4 := by decide
  (arenaSound_iff smallArena smallArena_isArena [4, 8, 4]).2 ⟨h1, h2, h3, trivial⟩

/-- A request for nearly all of the address space is granted, and the next region is the one handed
out before. -/
theorem pushIntoArena_wraps : IsArena smallArena ∧ ¬ ArenaSound smallArena [0xFFFFFFFFFFFFFFF8, 8] ∧
    arenaRegions smallArena [0xFFFFFFFFFFFFFFF8, 8] = [(24, 0xFFFFFFFFFFFFFFF8), (16, 8)] := by
  refine ⟨smallArena_isArena, fun h => ?_, by decide⟩
  exact absurd h.calls.1.grows (by decide)

end TinyBase
