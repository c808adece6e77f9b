import TinyBase.PathResolve

/-!
# How far up `MoveUpPath` goes

The function takes the slash at the end off, goes back from slash to slash, and puts a slash behind
what is left, if anything is. So it works on the text without its last byte, and a text of one byte,
the slash of an absolute path, is nothing to it.
-/

namespace TinyBase
open LexicalPath

/-- What is left of `n` bytes: the slash of an absolute path does not stay alone. -/
def withoutRoot (n : Nat) : Nat := if n ≤ 1 then 0 else n

section
variable {m : Mem} {path : String} {absolute : Bool} {cs : List (List UInt8)}
  {l : List UInt8} {k : Nat}

/-- The first byte looked at is the last one; after that the path has lost its final slash. -/
theorem strip_slash (hread : m.Readable path.base path.writeCur.toNat)
    (hcs : ∀ c ∈ cs, IsComponent 47 c) (htext : IsText 47 absolute cs (stringBytes path m))
    (hpos : 0 < path.writeCur.toNat) : ∃ last, m.read (path.base + (path.writeCur - 1)) = .ok last ∧
      (if last = 47 then { path with writeCur := path.writeCur - 1 } else path) =
        { path with writeCur := UInt64.ofNat ((dirText 47 absolute cs).length - 1) } := by
  have hlen := length_stringBytes path m
  generalize hl : stringBytes path m = l at htext hlen
  cases htext with
  | slash =>
    obtain ⟨l, hslash⟩ := dirText_eq_append (List.length_pos_iff.1 (hlen ▸ hpos))
    rw [hslash] at hl ⊢
    obtain ⟨hpred, hlast⟩ := read_last hread hl
    refine ⟨47, hlast, ?_⟩
    rw [if_pos rfl, List.length_append, List.length_singleton, Nat.add_sub_cancel, ← hpred,
      UInt64.ofNat_toNat]
  | bare cs c =>
    obtain ⟨c', b, rfl, hb⟩ := (hcs c (List.mem_append_right _ List.mem_cons_self)).exists_last
    rw [← List.append_assoc] at hl
    refine ⟨b, (read_last hread hl).2, ?_⟩
    rw [if_neg hb, dirText_append, ← List.append_assoc, List.length_append,
      List.length_singleton, Nat.add_sub_cancel, hlen, UInt64.ofNat_toNat]

/-- The text of `k` components without its last byte is at the beginning of the path. -/
theorem stringBytes_bare (htext : IsText 47 absolute cs (stringBytes path m)) (k : Nat) :
    (UInt64.ofNat ((dirText 47 absolute (cs.take k)).length - 1)).toNat =
      (dirText 47 absolute (cs.take k)).length - 1 ∧
      (dirText 47 absolute (cs.take k)).length - 1 ≤ path.writeCur.toNat ∧
      stringBytes { path with
        writeCur := UInt64.ofNat ((dirText 47 absolute (cs.take k)).length - 1) } m =
        (dirText 47 absolute (cs.take k)).dropLast := by
  have hlt := path.writeCur.toNat_lt
  have hsplit := dirText_split (47 : UInt8) absolute k cs
  have hfull : (dirText 47 absolute cs).length - 1 ≤ path.writeCur.toNat ∧
      (stringBytes path m).take ((dirText 47 absolute cs).length - 1) =
      (dirText 47 absolute cs).dropLast := by
    rw [← length_stringBytes path m]
    rcases htext.eq_or_append with heq | happ
    · rw [← heq, List.dropLast_eq_take]
      exact ⟨Nat.sub_le _ _, rfl⟩
    · rw [← happ, List.length_append, List.length_singleton, Nat.add_sub_cancel,
        List.dropLast_concat, List.take_length]
      exact ⟨Nat.le_refl _, rfl⟩
  have hle : (dirText 47 absolute (cs.take k)).length ≤ (dirText 47 absolute cs).length := by
    rw [hsplit, List.length_append]
    exact Nat.le_add_right _ _
  have hword : (UInt64.ofNat ((dirText 47 absolute (cs.take k)).length - 1)).toNat =
      (dirText 47 absolute (cs.take k)).length - 1 := UInt64.toNat_ofNat_of_lt_two_pow (by omega)
  refine ⟨hword, by omega, ?_⟩
  rw [stringBytes_take (UInt64.le_iff_toNat_le.2 (by rw [hword]; omega)),
    hword, List.dropLast_eq_take]
  have htake := congrArg (List.take ((dirText 47 absolute (cs.take k)).length - 1)) hfull.2
  rw [List.take_take, Nat.min_eq_left (by omega), List.dropLast_eq_take, List.take_take,
    Nat.min_eq_left (by omega), hsplit, List.take_append_of_le_length (Nat.sub_le _ _)] at htake
  exact htake

/-- One search back, in the text of `k` components without its last byte. -/
theorem charInString_bare (henc : path.enc = .utf8)
    (hread : m.Readable path.base path.writeCur.toNat) (hcs : ∀ c ∈ cs, IsComponent 47 c)
    (hk : k ≤ cs.length) (htext : stringBytes path m = (dirText 47 absolute (cs.take k)).dropLast) :
    ∃ idx, charInString 47 path (returnIdxFind ||| searchReverse) m = .ok idx ∧
      (idx = invalidIdx ∧ (dirText 47 absolute (cs.take (k - 1))).length ≤ 1 ∨
        idx ≠ invalidIdx ∧ idx.toNat = (dirText 47 absolute (cs.take (k - 1))).length - 1) := by
  have hlt := path.writeCur.toNat_lt
  have hlen := congrArg List.length htext
  rw [length_stringBytes] at hlen
  obtain ⟨idx, hrun, hfound⟩ := Except.wp_iff.1
    (charInString_idxFind_reverse 47 (holds_stringBytes hread) (length_stringBytes path m).symm)
  refine ⟨idx, hrun, ?_⟩
  have hneedle : needleBytes 47 path.enc = [47] := by
    rw [henc]
    decide +kernel
  rw [hneedle, htext] at hfound
  cases k with
  | zero =>
    -- nothing is left but the slash of an absolute path
    have hnil : (dirText 47 absolute (cs.take 0)).dropLast = [] ++ [] := by cases absolute <;> rfl
    rw [hnil] at hfound
    refine .inl ⟨(isFound_slash List.not_mem_nil hfound).1 rfl, ?_⟩
    exact (length_dirText_le_one_iff 47 absolute (fun c hc => absurd hc List.not_mem_nil)).2 rfl
  | succ k =>
    have hc := hcs cs[k] (List.getElem_mem _)
    rw [List.take_succ_eq_append_getElem hk, dirText_append, ← List.append_assoc,
      List.dropLast_concat] at hfound hlen
    rw [Nat.add_sub_cancel]
    obtain ⟨hnone, hsome⟩ := isFound_slash hc.2 hfound
    by_cases hnil : dirText 47 absolute (cs.take k) = []
    · exact .inl ⟨hnone hnil, by rw [hnil]; exact Nat.zero_le 1⟩
    · obtain ⟨l', hl'⟩ := dirText_eq_append hnil
      have hidx := hsome l' hl'
      rw [hl', List.length_append, List.length_append, List.length_singleton] at hlen
      refine .inr ⟨?_,
        by rw [hl', List.length_append, List.length_singleton, Nat.add_sub_cancel, hidx]⟩
      rintro rfl
      have hmax : UInt64.toNat invalidIdx = 2 ^ 64 - 1 := rfl
      omega

/-- `MoveUpPath` leaves the text of the first components, or nothing if that is not more than a
slash. -/
theorem moveUpPath_run (henc : path.enc = .utf8) (hread : m.Readable path.base path.writeCur.toNat)
    (hcs : ∀ c ∈ cs, IsComponent 47 c) (htext : IsText 47 absolute cs (stringBytes path m))
    (hpos : 0 < path.writeCur.toNat) (count : Usz) : ∃ r, moveUpPath path count m = .ok (r,
      { path with
        writeCur := .ofNat (withoutRoot
          (dirText 47 absolute (cs.take (cs.length - count.toNat))).length) }) := by
  have hcount := count.toNat_lt
  obtain ⟨last, hlast, hstrip⟩ := strip_slash hread hcs htext hpos
  suffices h : (moveUpPath path count m).wp fun r => r.2 =
      { path with
        writeCur := .ofNat (withoutRoot
          (dirText 47 absolute (cs.take (cs.length - count.toNat))).length) } by
    obtain ⟨⟨r, _⟩, hrun, rfl⟩ := Except.wp_iff.1 h
    exact ⟨r, hrun⟩
  rw [moveUpPath, hlast, Except.ok_bind]
  dsimp only
  rw [hstrip, Except.wp_bind]
  refine Except.wp.mono (?_ : Except.wp _ (· =
    { path with
      writeCur := UInt64.ofNat
        ((dirText 47 absolute (cs.take (cs.length - count.toNat))).length - 1) })) ?_
  · refine wp_whileLoop (fun st => st.2.toNat ≤ count.toNat ∧ st.1 =
      { path with
        writeCur := UInt64.ofNat
          ((dirText 47 absolute (cs.take (cs.length - st.2.toNat))).length - 1) })
      (fun st => count.toNat - st.2.toNat) ?_ _ ⟨Nat.zero_le _, ?_⟩
      (Nat.lt_of_le_of_lt (Nat.sub_le _ _) hcount)
    · rintro ⟨path', i⟩ ⟨hi, hpath'⟩
      dsimp only at hi hpath' ⊢
      subst hpath'
      obtain ⟨hword, hle, htext'⟩ := stringBytes_bare htext (cs.length - i.toNat)
      generalize UInt64.ofNat ((dirText 47 absolute (cs.take (cs.length - i.toNat))).length - 1) = w
        at hword htext' ⊢
      rw [Except.wp_ite]
      refine ⟨fun hmore => ?_, fun hdone => ?_⟩
      · rw [UInt64.lt_iff_toNat_lt] at hmore
        have hnext : (i + 1).toNat = i.toNat + 1 := UInt64.toNat_add_one (by omega)
        have hread' : m.Readable path.base w.toNat := fun j hj => hread j (by omega)
        obtain ⟨idx, hrun, hidx⟩ :=
          @charInString_bare m { path with writeCur := w } absolute cs _ henc hread' hcs
          (Nat.sub_le _ _) htext'
        rw [hrun, Except.ok_bind]
        rw [Nat.sub_sub] at hidx
        rcases hidx with ⟨rfl, hshort⟩ | ⟨hvalid, hidx⟩
        · have hend := @length_dirText_take_le _ 47 absolute cs (cs.length - count.toNat)
            (cs.length - (i.toNat + 1)) (by omega)
          rw [if_pos rfl, Except.wp_pure, Ctl.post_done,
            Nat.sub_eq_zero_of_le (Nat.le_trans hend hshort)]
          rfl
        · rw [if_neg hvalid, Except.wp_pure, Ctl.post_next, hnext, ← hidx, UInt64.ofNat_toNat]
          exact ⟨⟨hmore, rfl⟩, by omega⟩
      · rw [UInt64.lt_iff_toNat_lt] at hdone
        rw [show i.toNat = count.toNat by omega] at hword
        rw [Except.wp_pure, Ctl.post_done, ← hword, UInt64.ofNat_toNat]
    · show _ = { path with
        writeCur := UInt64.ofNat ((dirText 47 absolute (cs.take (cs.length - 0))).length - 1) }
      rw [Nat.sub_zero, List.take_length]
  · rintro _ rfl
    obtain ⟨hword, -, -⟩ := stringBytes_bare htext (cs.length - count.toNat)
    rw [Except.wp_pure, withoutRoot]
    dsimp only
    split_ifs with hgt hle hle
    · rw [gt_iff_lt, UInt64.lt_iff_toNat_lt, hword, UInt64.toNat_zero] at hgt
      omega
    · rw [gt_iff_lt, UInt64.lt_iff_toNat_lt, hword, UInt64.toNat_zero] at hgt
      refine congrArg (fun n => ({ path with writeCur := n } : String)) ?_
      rw [show (1 : Usz) = UInt64.ofNat 1 from rfl, ← UInt64.ofNat_add,
        Nat.sub_add_cancel (by omega)]
    · rw [Nat.sub_eq_zero_of_le hle]
    · rw [gt_iff_lt, UInt64.lt_iff_toNat_lt, hword, UInt64.toNat_zero] at hgt
      omega

/-- The text of an ancestor is that of the root, which has no component left, or longer. -/
theorem length_ancestor_le_one_iff (hcs : ∀ c ∈ cs, IsComponent 47 c) (n : Nat) :
    (dirText 47 absolute (cs.take (cs.length - n))).length ≤ 1 ↔ cs.length ≤ n := by
  rw [length_dirText_le_one_iff 47 absolute fun c hc => (hcs c (List.mem_of_mem_take hc)).1,
    List.take_eq_nil_iff, Nat.sub_eq_zero_iff_le, or_iff_left_iff_imp]
  rintro rfl
  exact Nat.zero_le _

theorem length_ancestor_lt (hcs : ∀ c ∈ cs, IsComponent 47 c)
    (htext : IsText 47 absolute cs (stringBytes path m)) {n : Nat} (hn : 1 ≤ n) :
    (dirText 47 absolute (cs.take (cs.length - n))).length < 2 ^ 64 := by
  by_cases hshort : (dirText 47 absolute (cs.take (cs.length - n))).length ≤ 1
  · exact Nat.lt_of_le_of_lt hshort (by decide)
  · have hlt := path.writeCur.toNat_lt
    have hmore := mt (length_ancestor_le_one_iff hcs n).2 hshort
    have hfewer := @length_dirText_take_lt _ cs 47 absolute (cs.length - n) (by omega)
    obtain ⟨-, hfull, -⟩ := stringBytes_bare htext cs.length
    rw [List.take_length] at hfull
    omega

theorem writeCur_withoutRoot_iff {n : Nat} (hn : n < 2 ^ 64) :
    ({ path with writeCur := .ofNat (withoutRoot n) } : String) =
      { path with writeCur := .ofNat n } ↔ withoutRoot n = n := by
  refine ⟨fun h => ?_, fun h => by rw [h]⟩
  have hcur := congrArg (fun s => UInt64.toNat s.writeCur) h
  dsimp only at hcur
  rwa [UInt64.toNat_ofNat_of_lt_two_pow hn, UInt64.toNat_ofNat_of_lt_two_pow] at hcur
  rw [withoutRoot]
  split_ifs <;> omega

/-- Nothing is lost when no component was to be left, nor the slash of the root. -/
theorem withoutRoot_length_iff (hcs : ∀ c ∈ cs, IsComponent 47 c)
    (hcs0 : absolute = false → cs ≠ []) {n : Nat} :
    withoutRoot (dirText 47 absolute (cs.take (cs.length - n))).length =
      (dirText 47 absolute (cs.take (cs.length - n))).length ↔
      cs ≠ [] ∧ (absolute = true → n < cs.length) := by
  have hone := @length_ancestor_le_one_iff absolute cs hcs n
  have hnil (hle : cs.length ≤ n) : cs.take (cs.length - n) = [] := by
    rw [Nat.sub_eq_zero_of_le hle, List.take_zero]
  rw [withoutRoot]
  cases absolute with
  | false =>
    refine ⟨fun _ => ⟨hcs0 rfl, fun h => absurd h Bool.false_ne_true⟩, fun _ => ?_⟩
    split_ifs with hshort
    · rw [hnil (hone.1 hshort)]
      rfl
    · rfl
  | true =>
    split_ifs with hshort
    · rw [hnil (hone.1 hshort)]
      exact ⟨fun h => absurd h (by decide),
        fun h => absurd (hone.1 hshort) (Nat.not_le.2 (h.2 rfl))⟩
    · have hmore : n < cs.length := Nat.lt_of_not_le fun h => hshort (hone.2 h)
      exact ⟨fun _ => ⟨List.ne_nil_of_length_pos (Nat.zero_lt_of_lt hmore), fun _ => hmore⟩,
        fun _ => rfl⟩

end

/-- `MoveUpPath` leaves the first `k - n` components exactly for a path that has a component, and,
if it is absolute, more than it is to go up. Only the bytes of the path can be read. -/
theorem moveUpPath_ancestor_iff (path : String) (count : Usz) (m : Mem)
    (absolute : Bool) (cs : List (List UInt8)) (henc : path.enc = .utf8)
    (hread : ∀ a, m.readable a = decide (InRange path.base path.writeCur.toNat a))
    (hcs : ∀ c ∈ cs, IsComponent 47 c) (htext : IsText 47 absolute cs (stringBytes path m))
    (hcount : 1 ≤ count.toNat) : (moveUpPath path count m).wp (fun r => r.2 =
      { path with
        writeCur := .ofNat (dirText 47 absolute (cs.take (cs.length - count.toNat))).length }) ↔
      cs ≠ [] ∧ (absolute = true → count.toNat < cs.length) := by
  have hreadable : m.Readable path.base path.writeCur.toNat := fun i hi => by
    rw [hread]
    exact decide_eq_true (inRange_add.2 hi)
  have hlen := length_stringBytes path m
  rcases Nat.eq_zero_or_pos path.writeCur.toNat with hzero | hpos
  · -- the byte in front of an empty path cannot be read
    have hempty : absolute = false ∧ cs = [] := by
      rw [hzero, List.length_eq_zero_iff] at hlen
      rw [hlen] at htext
      exact htext.unique (IsText.slash [] : IsText (47 : UInt8) false [] []) hcs fun c hc =>
        absurd hc List.not_mem_nil
    have hfail : m.read (path.base + (path.writeCur - 1)) =
        .error (.read (path.base + (path.writeCur - 1))) := by
      have hout : ¬ InRange path.base 0 (path.base + (path.writeCur - 1)) := Nat.not_lt_zero _
      rw [Mem.read, hread, hzero, decide_eq_false hout, if_neg Bool.false_ne_true]
    rw [moveUpPath, hfail, hempty.2]
    exact ⟨fun h => absurd h id, fun h => absurd rfl h.1⟩
  · obtain ⟨r, hrun⟩ := moveUpPath_run henc hreadable hcs htext hpos count
    have hcs0 : absolute = false → cs ≠ [] := by
      rintro rfl rfl
      rw [show stringBytes path m = [] from ?_, List.length_nil] at hlen
      · omega
      · rcases htext.eq_or_append with h | h
        · exact h
        · exact absurd (congrArg List.length h) (by simp [dirText])
    rw [hrun, Except.wp_ok, writeCur_withoutRoot_iff (length_ancestor_lt hcs htext hcount),
      withoutRoot_length_iff hcs hcs0]

/-- Memory of which only the bytes of the text `l` at `64` can be read. -/
def onlyText (l : List UInt8) : Mem :=
  Mem.store ⟨fun _ => 0, fun a => decide (InRange 64 l.length a), fun _ => false⟩ 64 l

theorem moveUpPath_ancestor_two :
    (moveUpPath (textPath [47, 97, 47, 98, 47, 99]) 2 (onlyText [47, 97, 47, 98, 47, 99])).wp
    (fun r => r.2 = textPath [47, 97, 47]) := by
  have htext : stringBytes (textPath [47, 97, 47, 98, 47, 99]) (onlyText [47, 97, 47, 98, 47, 99]) =
      dirText 47 true [[97], [98]] ++ [99] := by decide +kernel
  refine (moveUpPath_ancestor_iff (textPath [47, 97, 47, 98, 47, 99]) 2
    (onlyText [47, 97, 47, 98, 47, 99]) true
    [[97], [98], [99]] rfl (fun _ => rfl) (by decide) ?_ (by decide)).2 ⟨by decide, fun _ => by
      decide⟩
  rw [htext]
  exact .bare [[97], [98]] [99]

/-- One up from `/a` nothing is left instead of `/`, and up from the empty path a byte in front of
it is read. -/
theorem moveUpPath_not_ancestor :
    ¬ (moveUpPath (textPath [47, 97]) 1 (onlyText [47, 97])).wp (fun r => r.2 = textPath [47]) ∧
      moveUpPath (textPath []) 1 (onlyText []) = .error (.read 63) := by
  have htext : stringBytes (textPath [47, 97]) (onlyText [47, 97]) =
    dirText 47 true [] ++ [97] := by decide +kernel
  have hread :
      (onlyText [47, 97]).Readable (textPath [47, 97]).base (textPath [47, 97]).writeCur.toNat :=
    fun i hi => decide_eq_true (inRange_add.2 hi)
  obtain ⟨r, hrun⟩ :=
    @moveUpPath_run _ _ true [[97]] rfl hread (by decide) (htext ▸ .bare [] [97]) (by decide) 1
  refine ⟨fun h => ?_, rfl⟩
  rw [hrun, Except.wp_ok] at h
  have hcur : (0 : Usz) = 1 := congrArg (fun s => s.writeCur) h
  exact absurd hcur (by decide)

end TinyBase
