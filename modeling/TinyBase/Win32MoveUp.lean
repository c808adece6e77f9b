import TinyBase.PathResolve
import TinyBase.Win32Paths

/-!
# How far up `MoveUpPath` goes in a path of units

The two bytes of a backslash are searched for at every byte, so they are also found where one unit
ends in `0x5C` and the next begins with a zero byte: in the bytes, not in the units, of a component.
-/

namespace TinyBase.Win32
open LexicalPath
open Unicode (leBytes leBytes_two ofLeBytes_leBytes)

/-! ### Bytes of units -/

/-- The bytes of units. -/
def unitBytes (us : List UInt16) : List UInt8 := us.flatMap fun u => leBytes 2 u.toNat

def low (u : UInt16) : UInt8 := UInt8.ofNat (u.toNat % 256)

def high (u : UInt16) : UInt8 := UInt8.ofNat (u.toNat / 256)

/-- The bytes of a backslash stand at `i`. -/
def BackslashAt (bs : List UInt8) (i : Nat) : Prop := [92, 0] <+: bs.drop i

instance (bs : List UInt8) : DecidablePred (BackslashAt bs) :=
  fun i => inferInstanceAs (Decidable (_ <+: bs.drop i))

/-- How often they stand across two units. -/
def straddling : List UInt16 → Nat
  | [] => 0
  | [_] => 0
  | u :: v :: us => (if high u = 92 ∧ low v = 0 then 1 else 0) + straddling (v :: us)

section
variable {u v : UInt16} {us vs c : List UInt16} {cs : List (List UInt16)}
  {bs : List UInt8} {b : UInt8} {i w : Nat}

theorem leBytes_unit (u : UInt16) : leBytes 2 u.toNat = [low u, high u] := by
  have hlt := u.toNat_lt
  rw [low, high, ← leBytes_two (Nat.mod_lt _ (by decide)) (by omega), Nat.mod_add_div' u.toNat 256]

theorem unitBytes_cons (u : UInt16) (us : List UInt16) :
    unitBytes (u :: us) = low u :: high u :: unitBytes us := by
  rw [unitBytes, List.flatMap_cons, leBytes_unit]
  rfl

theorem unitBytes_append (us vs : List UInt16) :
    unitBytes (us ++ vs) = unitBytes us ++ unitBytes vs := List.flatMap_append

@[simp] theorem length_unitBytes (us : List UInt16) : (unitBytes us).length = 2 * us.length := by
  induction us with
  | nil => rfl
  | cons u us ih =>
    rw [unitBytes_cons, List.length_cons, List.length_cons, ih, List.length_cons]
    omega

theorem unit_inj (hlow : low u = low v) (hhigh : high u = high v) : u = v := by
  have hu := u.toNat_lt
  have hv := v.toNat_lt
  rw [low, low] at hlow
  rw [high, high] at hhigh
  have hlow' := congrArg UInt8.toNat hlow
  have hhigh' := congrArg UInt8.toNat hhigh
  simp only [UInt8.toNat_ofNat'] at hlow' hhigh'
  exact UInt16.toNat_inj.1 (by omega)

theorem eq_backslash_iff : u = 92 ↔ low u = 92 ∧ high u = 0 :=
  ⟨fun h => h ▸ ⟨rfl, rfl⟩, fun h => unit_inj h.1 h.2⟩

theorem not_backslashAt_succ (h : BackslashAt bs i) : ¬ BackslashAt bs (i + 1) := by
  rintro ⟨t, ht⟩
  obtain ⟨s, hs⟩ := h
  have hdrop : bs.drop (i + 1) = 0 :: s := by
    rw [← List.drop_drop, ← hs]
    rfl
  rw [hdrop] at ht
  exact absurd (List.head_eq_of_cons_eq ht) (by decide)

theorem not_backslashAt_of_le (h : bs.length ≤ i + 1) : ¬ BackslashAt bs i := by
  intro hat
  have := hat.length_le
  rw [List.length_drop] at this
  simp at this
  omega

/-- How often the bytes of a backslash stand in `bs`. -/
def backslashCount (bs : List UInt8) : Nat := Nat.count (BackslashAt bs) bs.length

theorem backslashCount_cons (b : UInt8) (bs : List UInt8) :
    backslashCount (b :: bs) = backslashCount bs + if [92, 0] <+: b :: bs then 1 else 0 := by
  rw [backslashCount, List.length_cons, Nat.count_succ']
  rfl

theorem backslashCount_drop (h : i ≤ bs.length) :
    backslashCount bs = Nat.count (BackslashAt bs) i + backslashCount (bs.drop i) := by
  obtain ⟨n, hn⟩ := Nat.exists_eq_add_of_le h
  have hshift : (fun k => BackslashAt bs (i + k)) = BackslashAt (bs.drop i) := by
    funext k
    rw [BackslashAt, BackslashAt, List.drop_drop]
  rw [backslashCount, backslashCount, List.length_drop, hn, Nat.count_add, Nat.add_sub_cancel_left]
  simp only [hshift]

/-- In the bytes of units: the backslashes, and the other places. -/
theorem backslashCount_unitBytes (us : List UInt16) :
    backslashCount (unitBytes us) = us.count 92 + straddling us := by
  induction us with
  | nil => rfl
  | cons u us ih =>
    have hunit : ([92, 0] <+: low u :: high u :: unitBytes us) ↔ u = 92 := by
      rw [List.cons_prefix_cons, List.cons_prefix_cons, eq_backslash_iff]
      simp [eq_comm]
    rw [unitBytes_cons, backslashCount_cons, backslashCount_cons, ih, List.count_cons]
    simp only [hunit, beq_iff_eq]
    cases us with
    | nil =>
      rw [if_neg (by simp [unitBytes]), straddling, straddling]
      omega
    | cons v us =>
      have hpair : ([92, 0] <+: high u :: unitBytes (v :: us)) ↔ high u = 92 ∧ low v = 0 := by
        rw [unitBytes_cons, List.cons_prefix_cons, List.cons_prefix_cons]
        simp [eq_comm]
      simp only [hpair]
      rw [straddling]
      omega

/-! ### Components -/

theorem straddling_cons_cons (u v : UInt16) (us : List UInt16) :
    straddling (u :: v :: us) = (if high u = 92 ∧ low v = 0 then 1 else 0) + straddling (v :: us) :=
  rfl

theorem straddling_backslash (us : List UInt16) : straddling (92 :: us) = straddling us := by
  cases us with
  | nil => rfl
  | cons v us =>
    rw [straddling_cons_cons, if_neg fun h => absurd h.1 (by decide), Nat.zero_add]

/-- A backslash is no part of such a place. -/
theorem straddling_append_backslash (c us : List UInt16) :
    straddling (c ++ 92 :: us) = straddling c + straddling us := by
  induction c with
  | nil =>
    rw [List.nil_append, straddling_backslash, straddling, Nat.zero_add]
  | cons u c ih =>
    cases c with
    | nil =>
      have hlow : ¬ (high u = 92 ∧ low 92 = 0) := fun h => absurd h.2 (by decide)
      rw [List.cons_append, List.nil_append, straddling_cons_cons,
        if_neg hlow, straddling_backslash]
      rfl
    | cons v c =>
      rw [List.cons_append, List.cons_append, straddling_cons_cons, ← List.cons_append, ih,
        straddling_cons_cons, Nat.add_assoc]

theorem backslashCount_components (hcs : ∀ c ∈ cs, IsComponent 92 c) :
    backslashCount (unitBytes (cs.flatMap fun c => c ++ [92])) =
      cs.length + (cs.map straddling).sum := by
  rw [backslashCount_unitBytes]
  induction cs with
  | nil => rfl
  | cons c cs ih =>
    rw [List.forall_mem_cons] at hcs
    have hc := List.count_eq_zero.2 hcs.1.2
    rw [List.flatMap_cons, List.append_assoc, List.singleton_append, straddling_append_backslash,
      List.count_append, hc, List.count_cons_self, List.length_cons, List.map_cons, List.sum_cons]
    have := ih hcs.2
    omega

end

/-! ### Reading units -/

section
variable {rd : Reader} {p : Ptr} {us : List UInt16} {i : Nat} {idx : Usz}

theorem drop_unitBytes (i : Nat) (us : List UInt16) :
    (unitBytes us).drop (2 * i) = unitBytes (us.drop i) := by
  induction i generalizing us with
  | zero => rfl
  | succ i ih =>
    cases us with
    | nil => rfl
    | cons u us => exact ih us

theorem getElem?_unitBytes (hi : i < us.length) :
    (unitBytes us)[2 * i]? = some (low us[i]) ∧ (unitBytes us)[2 * i + 1]? = some (high us[i]) := by
  have hdrop := drop_unitBytes i us
  rw [List.drop_eq_getElem_cons hi, unitBytes_cons] at hdrop
  constructor
  · rw [← List.head?_drop, hdrop, List.head?_cons]
  · rw [← List.getElem?_drop, hdrop]
    rfl

theorem read_low (h : Holds rd p (unitBytes us)) (hi : i < us.length) (hidx : idx.toNat = 2 * i) :
    rd (p + idx) = .ok (low us[i]) := h.read (hidx ▸ (getElem?_unitBytes hi).1)

theorem loadUnit_eq (h : Holds rd p (unitBytes us)) (hi : i < us.length) (hidx : idx.toNat = 2 * i)
    (hlt : 2 * i + 1 < 2 ^ 64) : loadUnit rd (p + idx) = .ok us[i] := by
  have hnext : (idx + 1).toNat = 2 * i + 1 := by rw [UInt64.toNat_add_one (by omega), hidx]
  have hhigh := h.read (hnext ▸ (getElem?_unitBytes hi).2)
  rw [← UInt64.add_assoc] at hhigh
  have hpow : us[i].toNat < 256 ^ 2 := us[i].toNat_lt
  simp only [loadUnit, readBytes]
  rw [read_low h hi hidx, Except.ok_bind, hhigh]
  show Except.ok (UInt16.ofNat (Unicode.ofLeBytes [low us[i], high us[i]])) = _
  rw [← leBytes_unit, ofLeBytes_leBytes hpow, UInt16.ofNat_toNat]

end

/-! ### The loop of `MoveUpPath` -/

section
variable {m : Mem} {path : String} {bs : List UInt8} {w : Usz}

theorem backslashInString_spec (henc : path.enc = .utf16le)
    (hread : m.Readable path.base path.writeCur.toNat) (hle : w ≤ path.writeCur) :
    (backslashInString { path with writeCur := w } (returnIdxFind ||| searchReverse) m).wp
      (IsLastIdx (BackslashAt (stringBytes path m)) (w.toNat - 1)) := by
  have hle' := UInt64.le_iff_toNat_le.1 hle
  have htake := stringBytes_take (m := m) hle
  have hlen := length_stringBytes { path with writeCur := w } m
  have hread' : m.Readable path.base w.toNat := fun i hi => hread i (Nat.lt_of_lt_of_le hi hle')
  have hheld := @holds_stringBytes m { path with writeCur := w } hread'
  have hneedle : Holds (localObject [92, 0]) 0 [92, 0] := localObject_reads _
  rw [backslashInString, if_pos henc]
  refine (bufferInBuffer_spec (by decide) (hneedle : Holds backslash.rd backslash.base _) rfl
    hheld hlen.symm _).mono ?_
  rintro _ ⟨idx, hidx, hfound⟩
  have hlast : IsLastIdx (fun i => [92, 0] <+: (stringBytes { path with writeCur := w } m).drop i)
      ((stringBytes { path with writeCur := w } m).length + 1 - 2) idx := hfound
  rw [hlen] at hlast
  obtain rfl : _ = idx := hidx
  refine hlast.congr fun i hi => ?_
  rw [htake, List.drop_take, List.prefix_take_iff, BackslashAt, and_iff_left_iff_imp]
  intro _
  show 2 ≤ _
  have : i < w.toNat - 1 := hi
  omega

/-- There is no backslash at the last byte in front of a backslash or of the end. -/
theorem count_back {w : Nat} (hw : w = bs.length ∨ BackslashAt bs w) :
    Nat.count (BackslashAt bs) w = Nat.count (BackslashAt bs) (w - 1) := by
  cases w with
  | zero => rfl
  | succ w =>
    rw [Nat.add_sub_cancel, Nat.count_succ, if_neg, Nat.add_zero]
    rcases hw with hw | hw
    · exact not_backslashAt_of_le (Nat.le_of_eq hw.symm)
    · exact fun h => not_backslashAt_succ h hw

/-- From the end of `bs` as many steps back as `n`, or none was left for the last of them. -/
def WentBack (bs : List UInt8) (n w : Nat) : Prop :=
  (w = 0 ∧ backslashCount bs < n) ∨ BackslashAt bs w ∧
    backslashCount bs = Nat.count (BackslashAt bs) w + n

theorem goUp_spec (henc : path.enc = .utf16le) (hread : m.Readable path.base path.writeCur.toNat)
    {count : Usz} (hcount : 1 ≤ count.toNat) :
    (goUp path count m).wp fun r => ∃ w : Usz, r = { path with writeCur := w } ∧
      WentBack (stringBytes path m) count.toNat w.toNat := by
  have hlen := length_stringBytes path m
  have hlt := count.toNat_lt
  generalize hbs : stringBytes path m = bs at hlen ⊢
  refine wp_whileLoop (fun st => st.2.toNat ≤ count.toNat ∧
    ∃ w ≤ path.writeCur, st.1 = { path with writeCur := w } ∧
    (w.toNat = bs.length ∧ st.2.toNat = 0 ∨
      BackslashAt bs w.toNat ∧ backslashCount bs = Nat.count (BackslashAt bs) w.toNat + st.2.toNat))
    (fun st => count.toNat - st.2.toNat) ?_ _
    ⟨Nat.zero_le _, path.writeCur, UInt64.le_refl _, rfl, .inl ⟨hlen.symm, rfl⟩⟩
    (Nat.lt_of_le_of_lt (Nat.sub_le _ _) hlt)
  rintro ⟨path', i⟩ ⟨hi, w, hw, hpath', hback⟩
  dsimp only at hi hpath' hback ⊢
  subst hpath'
  rw [Except.wp_ite]
  refine ⟨fun hmore => ?_, fun hdone => ?_⟩
  · rw [UInt64.lt_iff_toNat_lt] at hmore
    have hnext : (i + 1).toNat = i.toNat + 1 := UInt64.toNat_add_one (by omega)
    have hbehind : Nat.count (BackslashAt bs) w.toNat = Nat.count (BackslashAt bs) (w.toNat - 1) :=
      count_back (hback.imp (·.1) (·.1))
    have hsofar : backslashCount bs = Nat.count (BackslashAt bs) w.toNat + i.toNat := by
      rcases hback with ⟨hend, hzero⟩ | ⟨-, hcur⟩
      · rw [backslashCount, ← hend, hzero, Nat.add_zero]
      · exact hcur
    obtain ⟨idx, hrun, hidx⟩ := Except.wp_iff.1 (backslashInString_spec henc hread hw)
    rw [hrun, Except.ok_bind]
    rw [hbs] at hidx
    rcases hidx with hfound | ⟨rfl, hnone⟩
    · have hcount' := hfound.count
      have hw' := UInt64.le_iff_toNat_le.1 hw
      have hlow := hfound.lt
      have hvalid : idx ≠ invalidIdx := by
        rintro rfl
        have hmax : UInt64.toNat invalidIdx = 2 ^ 64 - 1 := rfl
        have := w.toNat_lt
        omega
      rw [if_neg hvalid, Except.wp_pure, Ctl.post_next, hnext]
      exact ⟨⟨hmore, idx, UInt64.le_iff_toNat_le.2 (by omega), rfl, .inr ⟨hfound.sat, by omega⟩⟩,
        by omega⟩
    · have hzero := hnone.count
      rw [if_pos rfl, Except.wp_pure, Ctl.post_done]
      exact ⟨0, rfl, .inl ⟨rfl, by omega⟩⟩
  · rw [UInt64.lt_iff_toNat_lt] at hdone
    rw [Except.wp_pure, Ctl.post_done]
    refine ⟨w, rfl, .inr ?_⟩
    rcases hback with ⟨-, hzero⟩ | hcur
    · omega
    · rwa [show i.toNat = count.toNat by omega] at hcur

end

/-! ### Back to a component -/

section
variable {us us' t : List UInt16} {cs : List (List UInt16)} {i n w : Nat}

theorem backslashAt_unitBytes : BackslashAt (unitBytes us) (2 * i) ↔ us[i]? = some 92 := by
  rw [BackslashAt, drop_unitBytes, ← List.head?_drop]
  cases us.drop i with
  | nil => simp [unitBytes]
  | cons u us =>
    rw [unitBytes_cons, List.cons_prefix_cons, List.cons_prefix_cons, List.head?_cons,
      Option.some_inj, eq_backslash_iff]
    simp [eq_comm]

theorem backslashCount_append_backslash (us : List UInt16) :
    backslashCount (unitBytes (us ++ [92])) = backslashCount (unitBytes us) + 1 := by
  rw [backslashCount_unitBytes, backslashCount_unitBytes, straddling_append_backslash,
    List.count_append]
  show us.count 92 + 1 + (straddling us + 0) = _
  omega

theorem WentBack.le {bs : List UInt8} (h : WentBack bs n w) : w = 0 ∨ w + 2 ≤ bs.length := by
  rcases h with ⟨hzero, -⟩ | ⟨hat, -⟩
  · exact .inl hzero
  · exact .inr (Nat.le_of_not_lt fun hgt => not_backslashAt_of_le (by omega) hat)

/-- There is no backslash in front of the first component, so a step back to the first byte is
none. -/
theorem WentBack.eq_zero_iff (hcs : ∀ c ∈ cs, IsComponent 92 c)
    (hus : dirText 92 false cs = us ++ [92]) (h : WentBack (unitBytes us) n w) :
    w = 0 ↔ backslashCount (unitBytes us) < n := by
  have hfirst : ¬ BackslashAt (unitBytes us) 0 := by
    intro hat
    have hhead := (backslashAt_unitBytes (i := 0)).1 hat
    rw [← List.head?_eq_getElem?, List.head?_eq_some_iff] at hhead
    obtain ⟨t, rfl⟩ := hhead
    exact segments_ne_cons hcs List.not_mem_nil ((List.append_nil _).trans hus)
  rcases h with ⟨hzero, hlt⟩ | ⟨hat, hcount⟩
  · exact ⟨fun _ => hlt, fun _ => hzero⟩
  · refine ⟨fun hzero => absurd (hzero ▸ hat) hfirst, fun hlt => ?_⟩
    omega

/-- The place of the backslash in front of the last components. -/
theorem backslashAt_component (hcs : ∀ c ∈ cs, IsComponent 92 c)
    (hus : dirText 92 false cs = us ++ [92]) (hi : i < cs.length)
    (ht : dirText 92 false (cs.take i) = t ++ [92]) : BackslashAt (unitBytes us) (2 * t.length) ∧
      backslashCount (unitBytes us) = Nat.count (BackslashAt (unitBytes us)) (2 * t.length) +
        (cs.length - i + ((cs.drop i).map straddling).sum) := by
  have hsplit := dirText_split (92 : UInt16) false i cs
  rw [ht, hus, List.append_assoc] at hsplit
  have hne : ((cs.drop i).flatMap fun c => c ++ [92]) ≠ [] := by
    rw [List.drop_eq_getElem_cons hi, List.flatMap_cons]
    simp
  have hlen := congrArg List.length hsplit
  have hpos := List.length_pos_iff.2 hne
  simp only [List.length_append, List.length_singleton] at hlen
  have hdrop : us.drop t.length ++ [92] = 92 :: (cs.drop i).flatMap fun c => c ++ [92] := by
    rw [← List.drop_append_of_le_length (by omega), hsplit, List.drop_left]
    rfl
  have hat : us[t.length]? = some 92 := by
    have hhead := congrArg (·[0]?) hdrop
    rw [List.getElem?_append_left (by rw [List.length_drop]; omega), List.getElem?_drop] at hhead
    exact hhead
  refine ⟨backslashAt_unitBytes.2 hat, ?_⟩
  have hcount :=
    backslashCount_components fun c (hc : c ∈ cs.drop i) => hcs c (List.mem_of_mem_drop hc)
  have hrest := backslashCount_append_backslash (us.drop t.length)
  rw [hdrop, backslashCount_unitBytes, List.count_cons_self, straddling_backslash,
    Nat.add_right_comm, ← backslashCount_unitBytes, hcount, List.length_drop] at hrest
  rw [backslashCount_drop (i := 2 * t.length) (by rw [length_unitBytes]; omega), drop_unitBytes]
  omega

/-- It is at the backslash behind the first components exactly when no other place has been counted
for one. -/
theorem WentBack.iff (hcs : ∀ c ∈ cs, IsComponent 92 c) (hus : dirText 92 false cs = us ++ [92])
    (hn : 1 ≤ n) (h : WentBack (unitBytes us) n w) :
    (if 0 < w then w + 2 else w) = 2 * (dirText 92 false (cs.take (cs.length - n))).length ↔
      ((cs.drop (cs.length - n)).map straddling).sum ≤ n - cs.length := by
  have hzero := h.eq_zero_iff hcs hus
  rcases Nat.lt_or_ge n cs.length with hlt | hge
  · have hne : dirText (92 : UInt16) false (cs.take (cs.length - n)) ≠ [] := fun hnil => by
      have hone := (length_dirText_le_one_iff 92 false
        fun c hc => (hcs c (List.mem_of_mem_take hc)).1).1 (by rw [hnil]; exact Nat.zero_le 1)
      rw [List.take_eq_nil_iff] at hone
      rcases hone with hone | rfl
      · omega
      · exact absurd hlt (Nat.not_lt_zero _)
    obtain ⟨t, ht⟩ := dirText_eq_append hne
    obtain ⟨hat, hcount⟩ := backslashAt_component hcs hus (by omega) ht
    rw [ht, List.length_append, List.length_singleton, Nat.sub_eq_zero_of_le (Nat.le_of_lt hlt),
      Nat.le_zero]
    rw [show cs.length - (cs.length - n) = n by omega] at hcount
    rcases h with ⟨-, hless⟩ | ⟨hat', hcount'⟩
    · omega
    · have hpos : 0 < w := Nat.pos_of_ne_zero fun h0 => by
        have := hzero.1 h0
        omega
      rw [if_pos hpos]
      constructor
      · intro hw
        obtain rfl : w = 2 * t.length := by omega
        omega
      · intro hsum
        rw [Nat.count_injective hat' hat (by omega)]
        omega
  · rw [Nat.sub_eq_zero_of_le hge, List.take_zero, List.drop_zero]
    have hall := backslashCount_components hcs
    rw [show (cs.flatMap fun c => c ++ [92]) = us ++ [92] from hus, backslashCount_append_backslash]
      at hall
    have hend : (if 0 < w then w + 2 else w) = 0 ↔ w = 0 := by
      rcases Nat.eq_zero_or_pos w with rfl | hpos
      · exact Iff.rfl
      · rw [if_pos hpos]
        omega
    refine hend.trans (hzero.trans ?_)
    omega

end

/-! ### `MoveUpPath` -/

section
variable {m : Mem} {path : String} {l us : List UInt16} {u : UInt16} {cs : List (List UInt16)}

theorem writeCur_sub_two (hcur : path.writeCur.toNat = 2 * (l.length + 1)) :
    (path.writeCur - 2).toNat = 2 * l.length := by
  have htwo : (2 : Usz) ≤ path.writeCur :=
    UInt64.le_iff_toNat_le.2 (by rw [hcur]; show 2 ≤ _; omega)
  rw [UInt64.toNat_sub_of_le _ _ htwo, hcur]
  show 2 * (l.length + 1) - 2 = _
  omega

theorem loadUnit_last (hread : m.Readable path.base path.writeCur.toNat)
    (hus : stringBytes path m = unitBytes (l ++ [u])) :
    (path.writeCur - 2).toNat = 2 * l.length ∧
      loadUnit m.read (path.base + path.writeCur - 2) = .ok u := by
  have hlt := path.writeCur.toNat_lt
  have hlen := congrArg List.length hus
  rw [length_stringBytes, length_unitBytes, List.length_append, List.length_singleton] at hlen
  have hback := writeCur_sub_two hlen
  have hheld := holds_stringBytes hread
  have hlast : l.length < (l ++ [u]).length := by simp
  rw [hus] at hheld
  have hunit := loadUnit_eq hheld hlast hback (by omega)
  rw [List.getElem_concat_length rfl] at hunit
  rw [show path.base + path.writeCur - 2 = path.base + (path.writeCur - 2) by grind]
  exact ⟨hback, hunit⟩

/-- The path that is searched has lost its final backslash. -/
theorem strip_backslash (hread : m.Readable path.base path.writeCur.toNat)
    (hcs : ∀ c ∈ cs, IsComponent 92 c) (hne : cs ≠ []) (htext : IsText 92 false cs us)
    (hus : stringBytes path m = unitBytes us) : ∃ us' last w,
      dirText 92 false cs = us' ++ [92] ∧
      loadUnit m.read (path.base + path.writeCur - 2) = .ok last ∧
      path.writeCur - (if last = 92 then 2 else 0) = w ∧ w ≤ path.writeCur ∧
      stringBytes { path with writeCur := w } m = unitBytes us' := by
  have hlen := length_stringBytes path m
  cases htext with
  | slash =>
    have hnonempty : dirText (92 : UInt16) false cs ≠ [] := fun hnil =>
      hne ((length_dirText_le_one_iff 92 false fun c hc => (hcs c hc).1).1
        (by rw [hnil]; exact Nat.zero_le 1))
    obtain ⟨l, hl⟩ := dirText_eq_append hnonempty
    rw [hl] at hus
    obtain ⟨hback, hlast⟩ := loadUnit_last hread hus
    rw [hus, length_unitBytes, List.length_append, List.length_singleton] at hlen
    have hle : path.writeCur - 2 ≤ path.writeCur := UInt64.le_iff_toNat_le.2 (by omega)
    refine ⟨l, 92, path.writeCur - 2, hl, hlast, rfl, hle, ?_⟩
    rw [stringBytes_take hle, hus, hback, unitBytes_append, ← length_unitBytes, List.take_left]
  | bare cs c =>
    obtain ⟨hc, hfree⟩ := hcs c (List.mem_append_right _ List.mem_cons_self)
    obtain ⟨c', b, rfl⟩ := (List.eq_nil_or_concat c).resolve_left hc
    rw [List.concat_eq_append] at hus hfree hcs hne ⊢
    have hb : b ≠ 92 := fun h => hfree (h ▸ List.mem_append_right _ List.mem_cons_self)
    have hlast := (loadUnit_last hread (by rw [List.append_assoc]; exact hus)).2
    refine ⟨dirText 92 false cs ++ (c' ++ [b]), b, path.writeCur, ?_, hlast,
      ?_, UInt64.le_refl _, hus⟩
    · rw [dirText_append, ← List.append_assoc (dirText 92 false cs)]
    · rw [if_neg hb, UInt64.sub_zero]

theorem moveUpPath_le {path' : String} {count : Usz} {r : Bool} (henc : path.enc = .utf16le)
    (hread : m.Readable path.base path.writeCur.toNat) (hpos : 2 ≤ path.writeCur.toNat)
    (hcount : 1 ≤ count.toNat) (h : moveUpPath path count m = .ok (r, path')) :
    path'.base = path.base ∧ path'.size = path.size ∧ path'.enc = .utf16le ∧
      path'.writeCur.toNat ≤ path.writeCur.toNat := by
  rw [moveUpPath, Except.bind_eq_ok] at h
  obtain ⟨last, -, h⟩ := h
  dsimp only at h
  have hle : (path.writeCur - if last = 92 then 2 else 0).toNat ≤ path.writeCur.toNat := by
    have htwo : (2 : Usz) ≤ path.writeCur := UInt64.le_iff_toNat_le.2 hpos
    split_ifs
    · rw [UInt64.toNat_sub_of_le _ _ htwo]
      exact Nat.sub_le _ _
    · rw [UInt64.sub_zero]
  generalize path.writeCur - (if last = 92 then 2 else 0) = w0 at h hle
  have hread' : m.Readable path.base w0.toNat := fun i hi => hread i (Nat.lt_of_lt_of_le hi hle)
  obtain ⟨_, hrun, w, rfl, hback⟩ :=
    Except.wp_iff.1 (@goUp_spec m { path with writeCur := w0 } henc hread' count hcount)
  have hroom := hback.le
  rw [length_stringBytes] at hroom
  dsimp only at hroom
  rw [hrun, Except.ok_bind] at h
  cases h
  dsimp only
  split_ifs with hw
  · have hw' : 0 < w.toNat := UInt64.lt_iff_toNat_lt.1 hw
    have hlt := w0.toNat_lt
    have hsum : (w + 2).toNat = w.toNat + 2 :=
      UInt64.toNat_add_of_lt (by show w.toNat + 2 < _; omega)
    exact ⟨rfl, rfl, henc, by show (w + 2).toNat ≤ _; omega⟩
  · have hw' : ¬ 0 < w.toNat := fun hw' => hw (UInt64.lt_iff_toNat_lt.2 hw')
    exact ⟨rfl, rfl, henc, by show w.toNat ≤ _; omega⟩

theorem moveUpPath_run (henc : path.enc = .utf16le)
    (hread : m.Readable path.base path.writeCur.toNat) (hus : stringBytes path m = unitBytes us)
    (hcs : ∀ c ∈ cs, IsComponent 92 c) (hne : cs ≠ []) (htext : IsText 92 false cs us) {count : Usz}
    (hcount : 1 ≤ count.toNat) :
    ∃ r us' w, dirText 92 false cs = us' ++ [92] ∧ 2 * us'.length < 2 ^ 64 ∧
      WentBack (unitBytes us') count.toNat w ∧
      moveUpPath path count m =
      .ok (r, { path with writeCur := .ofNat (if 0 < w then w + 2 else w) }) := by
  obtain ⟨us', last, w0, hdir, hlast, hw0, hle, hus'⟩ := strip_backslash hread hcs hne htext hus
  have hread' : m.Readable path.base w0.toNat :=
    fun i hi => hread i (Nat.lt_of_lt_of_le hi (UInt64.le_iff_toNat_le.1 hle))
  obtain ⟨_, hrun, w, rfl, hback⟩ :=
    Except.wp_iff.1 (@goUp_spec m { path with writeCur := w0 } henc hread' count hcount)
  rw [hus'] at hback
  have hlen : (stringBytes { path with writeCur := w0 } m).length = w0.toNat :=
    length_stringBytes ..
  rw [hus', length_unitBytes] at hlen
  have hend :
    (if w > 0 then { path with writeCur := w + 2 } else { path with writeCur := w } : String) =
      { path with writeCur := UInt64.ofNat (if 0 < w.toNat then w.toNat + 2 else w.toNat) } := by
    by_cases hw : w > 0
    · have hw' : 0 < w.toNat := UInt64.lt_iff_toNat_lt.1 hw
      simp only [if_pos hw, if_pos hw', UInt64.ofNat_add, UInt64.ofNat_toNat]
      rfl
    · have hw' : ¬ 0 < w.toNat := fun h => hw (UInt64.lt_iff_toNat_lt.2 h)
      simp only [if_neg hw, if_neg hw', UInt64.ofNat_toNat]
  rw [moveUpPath, hlast, Except.ok_bind]
  dsimp only
  rw [hw0, hrun, Except.ok_bind]
  exact ⟨_, us', w.toNat, hdir, hlen ▸ w0.toNat_lt, hback, congrArg Except.ok (Prod.ext rfl hend)⟩

end

/-- `MoveUpPath` leaves the first `k - n` components of `k` exactly when the places in the bytes of
the components it takes off that look like a backslash are not more than the steps it has to
spare. -/
theorem moveUpPath_units_iff (path : String) (count : Usz) (m : Mem)
    (cs : List (List UInt16)) (us : List UInt16) (henc : path.enc = .utf16le)
    (hread : m.Readable path.base path.writeCur.toNat) (hus : stringBytes path m = unitBytes us)
    (hcs : ∀ c ∈ cs, IsComponent 92 c) (hne : cs ≠ []) (htext : IsText 92 false cs us)
    (hcount : 1 ≤ count.toNat) : (moveUpPath path count m).wp (fun r => r.2 =
      { path with
        writeCur := .ofNat (2 * (dirText 92 false (cs.take (cs.length - count.toNat))).length) }) ↔
      ((cs.drop (cs.length - count.toNat)).map straddling).sum ≤ count.toNat - cs.length := by
  obtain ⟨r, us', w, hdir, hlt, hback, hrun⟩ := moveUpPath_run henc hread hus hcs hne htext hcount
  have hpos := List.length_pos_iff.2 hne
  have hshort := @length_dirText_take_lt _ cs 92 false (cs.length - count.toNat) (by omega)
  rw [hdir, List.length_append, List.length_singleton] at hshort
  have hend : (if 0 < w then w + 2 else w) < 2 ^ 64 := by
    have := hback.le
    rw [length_unitBytes] at this
    split_ifs <;> omega
  rw [hrun, Except.wp_ok, ← hback.iff hcs hdir hcount]
  refine ⟨fun h => ?_, fun h => by rw [h]⟩
  have hcur := congrArg (fun s => UInt64.toNat s.writeCur) h
  dsimp only at hcur
  rwa [UInt64.toNat_ofNat_of_lt_two_pow hend, UInt64.toNat_ofNat_of_lt_two_pow (by omega)] at hcur

/-- A path of the units `us` at `64`. -/
def unitsPath (us : List UInt16) : String :=
  { base := 64, writeCur := UInt64.ofNat (2 * us.length), size := 64, enc := .utf16le }

/-- Memory of which only the bytes of the units can be read. -/
def onlyUnits (us : List UInt16) : Mem :=
  Mem.store ⟨fun _ => 0, fun a => decide (InRange 64 (2 * us.length) a),
    fun _ => false⟩ 64 (unitBytes us)

theorem moveUpPath_units_two :
    (moveUpPath (unitsPath [97, 92, 98, 92, 99]) 2 (onlyUnits [97, 92, 98, 92, 99])).wp
    (fun r => r.2 = unitsPath [97, 92]) := by
  have hus : stringBytes (unitsPath [97, 92, 98, 92, 99]) (onlyUnits [97, 92, 98, 92, 99]) =
      unitBytes [97, 92, 98, 92, 99] := by decide +kernel
  exact (moveUpPath_units_iff (unitsPath [97, 92, 98, 92, 99]) 2 (onlyUnits [97, 92, 98, 92, 99])
    [[97], [98], [99]]
    [97, 92, 98, 92, 99] rfl (fun i hi => decide_eq_true (inRange_add.2 hi))
    hus (by decide) (by decide) (.bare [[97], [98]] [99]) (by decide)).2 (by decide)

/-- The high byte of U+5C41 and the low byte of U+4100 are the bytes of a backslash. -/
theorem moveUpPath_not_units :
    ¬ (moveUpPath (unitsPath [0x5C41, 0x4100]) 1 (onlyUnits [0x5C41, 0x4100])).wp
    (fun r => r.2 = unitsPath []) := by
  have hus : stringBytes (unitsPath [0x5C41, 0x4100]) (onlyUnits [0x5C41, 0x4100]) =
    unitBytes [0x5C41, 0x4100] := by decide +kernel
  have hcs : ∀ c ∈ [[0x5C41, 0x4100]], IsComponent (92 : UInt16) c := by decide
  obtain ⟨r, us', w, hdir, hlt, hback, hrun⟩ :=
    @moveUpPath_run _ (unitsPath [0x5C41, 0x4100]) _ _ rfl
    (fun i hi => decide_eq_true (inRange_add.2 hi)) hus hcs (by decide) (.bare [] [0x5C41, 0x4100])
    1 (by decide)
  obtain rfl : us' = [0x5C41, 0x4100] := (List.append_cancel_right hdir).symm
  have hzero := hback.eq_zero_iff hcs hdir
  have hle := hback.le
  intro h
  rw [hrun, Except.wp_ok] at h
  have hcur := congrArg (fun s => UInt64.toNat s.writeCur) h
  have hcount : ¬ backslashCount (unitBytes [0x5C41, 0x4100]) < (1 : Usz).toNat := by decide +kernel
  have hw : w ≠ 0 := mt hzero.1 hcount
  rw [show (unitBytes [0x5C41, 0x4100]).length = 4 from rfl] at hle
  dsimp only at hcur
  rw [if_pos (Nat.pos_of_ne_zero hw), UInt64.toNat_ofNat_of_lt_two_pow (by omega)] at hcur
  exact absurd hcur (Nat.succ_ne_zero _)

end TinyBase.Win32
