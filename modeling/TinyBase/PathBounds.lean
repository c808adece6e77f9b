import TinyBase.PathResolve

/-!
# Which bytes a path append touches

`_AppendPathToPath` reads the first byte of the part before it asks whether there is one, and
`MoveUpPath` does the same with the last byte of the path. On everything else it stays inside the
part and the storage of the path, whatever the bytes are.
-/

namespace TinyBase
open LexicalPath

/-! ### The components of any path -/

/-- The components of a path, the slash at its end left out. An absolute path begins with an empty
one. -/
def segments (l : List UInt8) : List (List UInt8) :=
  if l = [] then [] else (if l.getLast? = some 47 then l.dropLast else l).splitOn 47

/-- What `MoveUpPath` leaves: the slash of an absolute path does not stay alone. -/
def removeLast (stack : List (List UInt8)) : List (List UInt8) :=
  if stack.dropLast = [[]] then [] else stack.dropLast

/-- What a component does that fits. -/
def pushed (stack : List (List UInt8)) (c : List UInt8) : List (List UInt8) :=
  if c = [46] then stack else if c = [46, 46] then removeLast stack else stack ++ [c]

/-- The component is to be copied with the slash behind it, and there is no room for them. -/
def TooLong (size : Nat) (stack : List (List UInt8)) (c : List UInt8) : Prop :=
  c ≠ [46] ∧ c ≠ [46, 46] ∧ size < (dirText 47 false (stack ++ [c])).length

instance (size : Nat) (stack : List (List UInt8)) (c : List UInt8) :
    Decidable (TooLong size stack c) :=
  inferInstanceAs (Decidable (_ ∧ _))

/-- Each `..` with a slash behind it finds a component to remove, as long as everything in front of
it fits. -/
def upsInside (size : Nat) : List (List UInt8) → List (List UInt8) → Bool
  | stack, c :: c' :: cs =>
    decide (c = [46, 46] → stack ≠ []) &&
      (decide (TooLong size stack c) || upsInside size (pushed stack c) (c' :: cs))
  | _, _ => true

section
variable {α : Type} {sep : α} {stack : List (List α)}

theorem length_segments_le_one :
    (dirText sep false stack).length ≤ 1 ↔ stack = [] ∨ stack = [[]] := by
  constructor
  · intro hlen
    cases stack with
    | nil => exact .inl rfl
    | cons c stack =>
      simp only [dirText, Bool.false_eq_true, if_false, List.nil_append,
        List.flatMap_cons, List.length_append, List.length_singleton] at hlen
      have hc : c = [] := List.eq_nil_of_length_eq_zero (by omega)
      cases stack with
      | nil => rw [hc]; exact .inr rfl
      | cons c' stack =>
        simp only [List.flatMap_cons, List.length_append, List.length_singleton] at hlen
        omega
  · rintro (rfl | rfl) <;> simp [dirText]

end

theorem dirText_segments {l : List UInt8} (hne : l ≠ []) :
    dirText 47 false (segments l) = if l.getLast? = some 47 then l else l ++ [47] := by
  rw [dirText, if_neg Bool.false_ne_true, List.nil_append, segments, if_neg hne,
    flatMap_eq_intercalate (List.splitOn_ne_nil 47 _), List.intercalate_splitOn]
  split_ifs with hlast
  · obtain ⟨l', rfl⟩ := List.getLast?_eq_some_iff.1 hlast
    rw [List.dropLast_concat]
  · rfl

theorem not_mem_segments {l c : List UInt8} (hc : c ∈ segments l) : 47 ∉ c := by
  rw [segments] at hc
  split_ifs at hc
  · exact absurd hc List.not_mem_nil
  · exact not_mem_of_mem_splitOn hc
  · exact not_mem_of_mem_splitOn hc

theorem removeLast_concat (stack : List (List UInt8)) (d : List UInt8) :
    removeLast (stack ++ [d]) = if (dirText (47 : UInt8) false stack).length ≤ 1 then []
      else stack := by
  rw [removeLast, List.dropLast_concat]
  by_cases hnil : stack = []
  · subst hnil
    rfl
  · have hiff : (dirText (47 : UInt8) false stack).length ≤ 1 ↔ stack = [[]] := by
      rw [length_segments_le_one, or_iff_right hnil]
    rw [if_congr hiff rfl rfl]

theorem not_mem_pushed {stack : List (List UInt8)} {c d : List UInt8} (hstack : ∀ c ∈ stack, 47 ∉ c)
    (hc : 47 ∉ c) (hd : d ∈ pushed stack c) : 47 ∉ d := by
  rw [pushed, removeLast] at hd
  split_ifs at hd
  · exact hstack d hd
  · exact absurd hd List.not_mem_nil
  · exact hstack d (List.dropLast_subset stack hd)
  · exact (List.mem_append.1 hd).elim (hstack d) fun hd => by rwa [List.mem_singleton.1 hd]

/-! ### The loop -/

section
variable {m m0 : Mem} {src dst : String} {st st1 : JoinState} {res : Bool × JoinState}
  {c t : List UInt8} {i : Nat} {stack : List (List UInt8)}

theorem Visits.writeCur_eq (h : Visits src dst m0 false stack st i) :
    st.tmp.writeCur.toNat = (dirText (47 : UInt8) false stack).length := by
  rw [← h.text, length_stringBytes]

/-- The component, or the slash behind it, does not fit: the loop is left. -/
theorem Visits.joinStep_tooLong (h : Visits src dst m0 false stack st i) (hmem : JoinMem src dst m0)
    (hat : AtSlash src st c i st1) (hd : c ≠ [46]) (hdd : c ≠ [46, 46])
    (hlong : st.tmp.room < c.length + 1) : ∃ st', joinStep src st1 = .ok (.done (false, st')) := by
  have hwritable := h.writable hmem
  have hspec := h.appendDir_spec hmem hat
  rw [joinStep, if_pos hat.lt, h.read_slash hmem hat, Except.ok_bind,
    if_pos rfl, if_neg (mt hat.dot.1 hd), if_neg (mt hat.dots.1 hdd), hat.tmp_eq, hat.m_eq]
  by_cases hfits : c.length ≤ st.tmp.room
  · have hgrown := hwritable.grown hfits (st.m.store (st.tmp.base + st.tmp.writeCur) c) rfl
    have hfull :
        (st.tmp.grown c.length).room < (charBytes 47 (st.tmp.grown c.length).enc).length := by
      have hslash : charBytes 47 .utf8 = [47] := by decide +kernel
      rw [String.grown_enc, h.enc_eq, hslash, String.room, hwritable.toNat_grown hfits]
      rw [String.room] at hlong
      show st.tmp.size.toNat - _ < 1
      omega
    obtain ⟨out, -, hchar⟩ := (appendCharToString_spec hgrown 47).of_lt hfull
    rw [hspec.of_le hfits, Except.ok_bind]
    dsimp only
    rw [if_pos rfl, hchar]
    exact ⟨_, rfl⟩
  · obtain ⟨out, -, hdir⟩ := hspec.of_lt (Nat.lt_of_not_le hfits)
    rw [hdir]
    exact ⟨_, rfl⟩

/-- Going up from an empty path reads the byte in front of it. -/
theorem Visits.joinStep_below (h : Visits src dst m0 false [] st i) (hmem : JoinMem src dst m0)
    (hfence : m0.readable (dst.base - 1) = false) (hat : AtSlash src st [46, 46] i st1) :
    joinStep src st1 = .error (.read (dst.base - 1)) := by
  have hcur : st.tmp.writeCur = 0 := UInt64.toNat_inj.1 h.writeCur_eq
  have hread : st.m.read (st.tmp.base + (st.tmp.writeCur - 1)) = .error (.read (dst.base - 1)) := by
    rw [hcur, h.base_eq, show dst.base + (0 - 1) = dst.base - 1 by grind,
      Mem.read, h.readable_eq, hfence, if_neg Bool.false_ne_true]
  rw [joinStep, if_pos hat.lt, h.read_slash hmem hat, Except.ok_bind, if_pos rfl,
    if_neg (mt hat.dot.1 (by decide)),
    if_pos (hat.dots.2 rfl), hat.tmp_eq, hat.m_eq, moveUpPath, hread]
  rfl

theorem Visits.component (h : Visits src dst m0 false stack st i) (hmem : JoinMem src dst m0)
    (hstack : ∀ c ∈ stack, 47 ∉ c) (hc : 47 ∉ c)
    (hrest : (stringBytes src m0).drop i = c ++ 47 :: t) :
    (TooLong dst.size.toNat stack c → ∃ st', Leaves (joinStep src) st (false, st')) ∧
    (¬ TooLong dst.size.toNat stack c → (c = [46, 46] → stack ≠ []) →
      ∃ st', Visits src dst m0 false (pushed stack c) st' (i + c.length + 1) ∧
        ∀ res, Leaves (joinStep src) st res ↔ Leaves (joinStep src) st' res) ∧
    (m0.readable (dst.base - 1) = false → ∀ res, Leaves (joinStep src) st res →
      c = [46, 46] → stack ≠ []) := by
  rw [← h.bytes_eq] at hrest
  have hat := atSlash h.starts hrest
  have hrest' : (stringBytes src st.m).drop st.readIdx.toNat = c ++ 47 :: t := by
    rw [h.starts.idx_eq]; exact hrest
  have hiff : ∀ res, Leaves (joinStep src) st res ↔
    Leaves (joinStep src) (c.foldl JoinState.take st) res := fun res =>
    ⟨fun h' => leaves_takes h' hrest' hc, leaves_of_takes (h.src_readable hmem) hrest' hc⟩
  generalize c.foldl JoinState.take st = st1 at *
  have hcur := h.writeCur_eq
  have hle := h.cur_le
  have hread := h.read_slash hmem hat
  have hnext : ∀ {st'}, joinStep src st1 = .ok (.next st') → ∀ res, Leaves (joinStep src) st res ↔
      Leaves (joinStep src) st' res :=
    fun hstep res => (hiff res).trans ⟨fun h' => h'.of_next hstep, .next hstep⟩
  have hroom : (dirText (47 : UInt8) false (stack ++ [c])).length =
      st.tmp.writeCur.toNat + (c.length + 1) := by
    rw [dirText_append, List.length_append, List.length_append, List.length_singleton, hcur]
  refine ⟨fun hlong => ?_, fun hshort hdots => ?_, fun hfence res hleaves hdd hnil => ?_⟩
  · obtain ⟨hd, hdd, hlong⟩ := hlong
    obtain ⟨st', hstep⟩ :=
      h.joinStep_tooLong hmem hat hd hdd (by rw [String.room, h.size_eq]; omega)
    exact ⟨st', (hiff _).2 (.done hstep)⟩
  · rw [pushed]
    by_cases hd : c = [46]
    · rw [if_pos hd]
      refine ⟨_, h.slash_dot hat.tmp_eq hat.m_eq hat.next_eq, hnext ?_⟩
      rw [joinStep, if_pos hat.lt, hread, Except.ok_bind, if_pos rfl, if_pos (hat.dot.2 hd)]
      rfl
    · rw [if_neg hd]
      by_cases hdd : c = [46, 46]
      · rw [if_pos hdd]
        obtain ⟨init, d, rfl⟩ := (List.eq_nil_or_concat stack).resolve_left (hdots hdd)
        rw [List.concat_eq_append] at *
        obtain ⟨r, tmp', hup, -, hvisits⟩ :=
          h.slash_dots hmem (hstack d (List.mem_append_right _ List.mem_cons_self))
        refine ⟨st1.slash tmp' st1.m, ?_, hnext ?_⟩
        · have hvisits' := hvisits hat.m_eq hat.next_eq
          rw [removeLast_concat]
          split_ifs at hvisits' ⊢
          · exact hvisits'
          · exact hvisits'
        · rw [joinStep, if_pos hat.lt, hread, Except.ok_bind, if_pos rfl,
            if_neg (mt hat.dot.1 hd), if_pos (hat.dots.2 hdd), hat.tmp_eq, hat.m_eq, hup]
          rfl
      · rw [if_neg hdd]
        have hfits : c.length + 1 ≤ st.tmp.room := by
          have hnot : ¬ dst.size.toNat < _ := fun hlong => hshort ⟨hd, hdd, hlong⟩
          rw [String.room, h.size_eq]
          omega
        exact ⟨_, (h.slash_append hmem hfits hat.next_eq).2,
          hnext (h.joinStep_dir hmem hat hd hdd hfits)⟩
  · subst hdd hnil
    obtain ⟨ctl, hctl⟩ := ((hiff res).1 hleaves).body_ok
    rw [h.joinStep_below hmem hfence hat] at hctl
    cases hctl

/-- The loop is left when every `..` finds a component, and only then if the byte in front of the
path cannot be read. -/
theorem Visits.leaves {cs : List (List UInt8)} (h : Visits src dst m0 false stack st i)
    (hmem : JoinMem src dst m0) (hstack : ∀ c ∈ stack, 47 ∉ c)
    (hcs : ∀ c ∈ cs, 47 ∉ c) (hne : cs ≠ [])
    (hrest : (stringBytes src m0).drop i = [47].intercalate cs) :
    (upsInside dst.size.toNat stack cs = true → ∃ res, Leaves (joinStep src) st res ∧
      (res.1 = true → ∃ st' stack' j last,
      Visits src dst m0 false stack' st' j ∧ (stringBytes src m0).drop j = last ∧
      res.2 = last.foldl JoinState.take st')) ∧
    (m0.readable (dst.base - 1) = false → ∀ res, Leaves (joinStep src) st res →
      upsInside dst.size.toNat stack cs = true) := by
  induction cs generalizing stack st i with
  | nil => exact absurd rfl hne
  | cons c cs ih =>
    rw [List.forall_mem_cons] at hcs
    cases cs with
    | nil =>
      rw [List.intercalate_singleton] at hrest
      refine ⟨fun _ => ⟨(true, c.foldl JoinState.take st), ?_,
        fun _ => ⟨st, stack, i, c, h, hrest, rfl⟩⟩, fun _ _ _ => rfl⟩
      have hrest' : (stringBytes src st.m).drop i = c ++ [] := by
        rw [h.bytes_eq, hrest, List.append_nil]
      refine leaves_of_takes (h.src_readable hmem) (by rw [h.starts.idx_eq]; exact hrest')
        hcs.1 (.done ?_)
      have hlen := congrArg List.length hrest
      rw [List.length_drop, length_stringBytes] at hlen
      rw [joinStep, if_neg (by rw [UInt64.lt_iff_toNat_lt, readIdx_foldl h.starts hrest']; omega)]
      rfl
    | cons c' cs =>
      have hrest' : (stringBytes src m0).drop i = c ++ 47 :: [47].intercalate (c' :: cs) := by
        rw [hrest, List.intercalate_cons_cons, List.append_assoc]
        rfl
      obtain ⟨hlong, hnext, hbelow⟩ := h.component hmem hstack hcs.1 hrest'
      rw [upsInside, Bool.and_eq_true, Bool.or_eq_true, decide_eq_true_iff, decide_eq_true_iff]
      have hgo :=
        fun st' (hvisits : Visits src dst m0 false (pushed stack c) st' (i + c.length + 1)) =>
        ih hvisits (fun d hd => not_mem_pushed hstack hcs.1 hd) hcs.2
          (List.cons_ne_nil c' cs) (rest_next hrest')
      constructor
      · rintro ⟨hdots, hor⟩
        by_cases hshort : TooLong dst.size.toNat stack c
        · obtain ⟨st', hleaves⟩ := hlong hshort
          exact ⟨_, hleaves, fun h => absurd h Bool.false_ne_true⟩
        · obtain ⟨st', hvisits, hiff⟩ := hnext hshort hdots
          obtain ⟨res, hleaves, hend⟩ := (hgo st' hvisits).1 (hor.resolve_left hshort)
          exact ⟨res, (hiff res).2 hleaves, hend⟩
      · intro hfence res hleaves
        have hdots := hbelow hfence res hleaves
        refine ⟨hdots, ?_⟩
        by_cases hshort : TooLong dst.size.toNat stack c
        · exact .inl hshort
        · obtain ⟨st', hvisits, hiff⟩ := hnext hshort hdots
          exact .inr ((hgo st' hvisits).2 hfence res ((hiff res).1 hleaves))

end

/-! ### The function -/

/-- The part can be read, the storage of the path can be read and written, and nothing else can. -/
structure Fenced (src dst : String) (m : Mem) : Prop where
  src_enc : src.enc = .utf8
  dst_enc : dst.enc = .utf8
  readable : ∀ a, m.readable a = true ↔ InRange src.base src.writeCur.toNat a ∨
    InRange dst.base (dst.size.toNat + 1) a
  writable : ∀ a, m.writable a = true ↔ InRange dst.base (dst.size.toNat + 1) a
  cur : dst.writeCur ≤ dst.size
  small : dst.size.toNat + 4 < 2 ^ 64
  apart : Apart src.base src.writeCur.toNat dst.base (dst.size.toNat + 1)

/-- The path that is returned lies where it did, within its size. -/
def StaysInside (dst : String) (res : Bool × String × Mem) : Prop :=
  res.2.1.base = dst.base ∧ res.2.1.size = dst.size ∧ res.2.1.writeCur ≤ dst.size

section
variable {m m1 : Mem} {src dst : String}

theorem inRange_behindSlash (hpart : dst.writeCur > 0 → src.writeCur > 0) {a : Ptr}
    (ha : InRange (behindSlash src dst m).base (behindSlash src dst m).writeCur.toNat a) :
    InRange src.base src.writeCur.toNat a := by
  rw [behindSlash] at ha
  split_ifs at ha with hskip
  · have hpos := UInt64.lt_iff_toNat_lt.1 (hpart hskip.1)
    have hpred : (src.writeCur - 1).toNat = src.writeCur.toNat - 1 :=
      UInt64.toNat_sub_of_toNat_le hpos
    have ha' : InRange (src.base + 1) (src.writeCur - 1).toNat a := ha
    have hpos' : 0 < src.writeCur.toNat := hpos
    exact ha'.of_add (by rw [hpred, UInt64.toNat_one]; omega)
  · exact ha

theorem Fenced.joinMem {src' : String} (h : Fenced src dst m) (henc : src'.enc = .utf8)
    (hin : ∀ a, InRange src'.base src'.writeCur.toNat a → InRange src.base src.writeCur.toNat a) :
    JoinMem src' dst m where
  src_enc := henc
  dst_enc := h.dst_enc
  src_readable i hi := (h.readable _).2 (.inl (hin _ (inRange_add.2 hi)))
  dst_readable i hi := (h.readable _).2 (.inr (inRange_add.2 (by omega)))
  dst_writable i hi :=
    (h.writable _).2 (inRange_add.2 (by have := UInt64.le_iff_toNat_le.1 hi; omega))
  small := h.small
  apart a ha := h.apart a (hin a ha)

theorem Fenced.joinMem_behindSlash (h : Fenced src dst m)
    (hpart : dst.writeCur > 0 → src.writeCur > 0) : JoinMem (behindSlash src dst m) dst m :=
  h.joinMem ((behindSlash_enc src dst m).trans h.src_enc) fun _ => inRange_behindSlash hpart

/-- The separator behind the path, where it needs one. -/
theorem JoinMem.start (hmem : JoinMem src dst m) (hcur : dst.writeCur ≤ dst.size)
    (hroom : NeedsSeparator dst m → 1 ≤ spaceLeft dst) :
    ∃ tmp m1, appendSeparator dst m = .ok (true, tmp, m1) ∧
      Visits src dst m false (segments (stringBytes dst m)) { tmp := tmp, m := m1 } 0 ∧
      ∀ a, ¬ InRange dst.base (dst.size.toNat + 1) a → m1.byte a = m.byte a := by
  have hcur' := UInt64.le_iff_toNat_le.1 hcur
  have hlen := length_stringBytes dst m
  rcases List.eq_nil_or_concat (stringBytes dst m) with hnil | ⟨l, b, hl⟩
  · rw [hnil] at hlen ⊢
    refine ⟨dst, m, ?_, ⟨⟨rfl, rfl, rfl⟩, rfl, rfl, hmem.dst_enc, hcur', hnil, rfl, rfl, rfl⟩,
      fun _ _ => rfl⟩
    rw [appendSeparator, if_neg fun hpos =>
      absurd (UInt64.lt_iff_toNat_lt.1 hpos) (by rw [← hlen]; exact Nat.lt_irrefl 0)]
    rfl
  · rw [List.concat_eq_append] at hl
    have hread : m.Readable dst.base dst.writeCur.toNat :=
      fun i hi => hmem.dst_readable i (by omega)
    obtain ⟨-, hlast⟩ := read_last hread hl
    have hpos : dst.writeCur > 0 := by
      rw [hl, List.length_append, List.length_singleton] at hlen
      exact UInt64.lt_iff_toNat_lt.2 (by rw [← hlen]; exact Nat.succ_pos _)
    have htext := dirText_segments (l := stringBytes dst m) (by rw [hl]; simp)
    have hget : (stringBytes dst m).getLast? = some b := by rw [hl, List.getLast?_concat]
    rw [hget] at htext
    by_cases hb : b = 47
    · rw [hb] at hlast htext
      rw [if_pos rfl] at htext
      refine ⟨dst, m, ?_, ⟨⟨rfl, rfl, rfl⟩, rfl, rfl, hmem.dst_enc, hcur', htext.symm, rfl,
        rfl, rfl⟩, fun _ _ => rfl⟩
      rw [appendSeparator, if_pos hpos, hlast]
      rfl
    · have hneeds : NeedsSeparator dst m := ⟨hpos, by rwa [Mem.byte_of_read hlast]⟩
      have hone := hroom hneeds
      have hspace := spaceLeft_eq hcur'
      have hgrown := toNat_grown_writeCur hcur' hone
      rw [if_neg fun h => hb (Option.some.inj h)] at htext
      refine ⟨dst.grown 1, m.store (dst.base + dst.writeCur) [47], ?_,
        ⟨⟨rfl, rfl, rfl⟩, rfl, rfl, hmem.dst_enc, ?_, ?_, ?_, rfl, rfl⟩, fun a ha => ?_⟩
      · rw [appendSeparator, if_pos hpos, hlast, Except.ok_bind, if_pos hb]
        exact appendSlash_eq (hmem.writable rfl rfl hcur' rfl) hmem.dst_enc
          (by rw [String.room]; omega)
      · show (dst.grown 1).writeCur.toNat ≤ _
        omega
      · rw [htext]
        exact @stringBytes_grown _ dst [47] hcur' hone
      · exact stringBytes_store hmem.apart rfl rfl hcur' hone
      · exact Mem.store_byte_of_not_inRange fun hin => ha (inRange_storage hcur' hone hin)

theorem appendSeparator_full (henc : dst.enc = .utf8)
    (hread : m.Readable dst.base dst.writeCur.toNat) (hneeds : NeedsSeparator dst m)
    (hfull : spaceLeft dst < 1) : appendSeparator dst m = .ok (false, dst, m) := by
  have hpos := UInt64.lt_iff_toNat_lt.1 hneeds.1
  have hpred : (dst.writeCur - 1).toNat = dst.writeCur.toNat - 1 :=
    UInt64.toNat_sub_of_toNat_le hpos
  have hlast : m.readable (dst.base + (dst.writeCur - 1)) :=
    hread _ (by rw [hpred]; exact Nat.sub_lt hpos Nat.one_pos)
  have hsize : (getMultibyteCharSize 47 .utf8).toUInt64 = 1 := by decide
  rw [appendSeparator, if_pos hneeds.1, Mem.read, if_pos hlast, Except.ok_bind,
    if_pos hneeds.2, appendCharToString, henc,
    appendBufferToString_eq, appendToString, appendDataToBuffer_of_lt]
  · rfl
  · rw [hsize]
    exact UInt64.lt_iff_toNat_lt.2 hfull

theorem skipSeparator_inside (h : Fenced src dst m) (hpart : dst.writeCur > 0 → src.writeCur > 0)
    (hreadable : m1.readable = m.readable)
    (hframe : ∀ a, ¬ InRange dst.base (dst.size.toNat + 1) a → m1.byte a = m.byte a) :
    skipSeparator src dst m1 = .ok (behindSlash src dst m) := by
  rw [skipSeparator, behindSlash]
  by_cases hcur : dst.writeCur > 0
  · have hfirst : InRange src.base src.writeCur.toNat (src.base + 0) :=
      inRange_add.2 (UInt64.lt_iff_toNat_lt.1 (hpart hcur))
    rw [UInt64.add_zero] at hfirst
    rw [if_pos hcur, Mem.read, hreadable, if_pos ((h.readable _).2 (.inl hfirst)),
      hframe _ (h.apart _ hfirst), Except.ok_bind]
    split_ifs with hslash hboth hboth
    · rfl
    · exact absurd ⟨hcur, hslash⟩ hboth
    · exact absurd hboth.2 hslash
    · rfl
  · rw [if_neg hcur, if_neg fun hboth => hcur hboth.1]
    rfl

end

/-- No separator fits; or there is a part behind a path that is not empty, and each of its `..`
finds a component. -/
def JoinsInside (src dst : String) (m : Mem) : Prop :=
  NeedsSeparator dst m ∧ spaceLeft dst < 1 ∨
    (dst.writeCur > 0 → src.writeCur > 0) ∧
      upsInside dst.size.toNat (segments (stringBytes dst m)) (components src dst m) = true

instance (src dst : String) (m : Mem) : Decidable (JoinsInside src dst m) :=
  inferInstanceAs (Decidable (_ ∨ _))

section
variable {m : Mem} {src dst : String}

/-- Behind the loop: the last component is appended if there is room for it, and the zero byte is
within the storage. -/
theorem stays_of_leaves {src' tmp : String} {m1 : Mem} {res : Bool × JoinState}
    (hmem : JoinMem src' dst m) (hcur : dst.writeCur ≤ dst.size)
    (hsep : appendSeparator dst m = .ok (true, tmp, m1))
    (hskip : skipSeparator src dst m1 = .ok src')
    (hloop : whileLoop (joinStep src') { tmp := tmp, m := m1 } = .ok res)
    (hend : res.1 = true → ∃ st' stack' j last, Visits src' dst m false stack' st' j ∧
      (stringBytes src' m).drop j = last ∧ res.2 = last.foldl JoinState.take st') :
    (appendPathToPathUnchecked src dst m).wp (StaysInside dst) := by
  obtain ⟨r, st⟩ := res
  rw [appendPathToPathUnchecked, hsep, Except.ok_bind]
  dsimp only
  rw [if_pos rfl, hskip, Except.ok_bind, hloop, Except.ok_bind]
  cases r with
  | false => exact ⟨rfl, rfl, hcur⟩
  | true =>
    obtain ⟨st', stack', j, last, hvisits, hrest, hst⟩ := hend rfl
    dsimp only at hst ⊢
    subst hst
    have hwritable := hvisits.writable hmem
    have hspec := hvisits.appendLast_spec hmem hrest
    rw [if_pos rfl]
    by_cases hfits : last.length ≤ st'.tmp.room
    · have hgrown := hwritable.toNat_grown hfits
      have hsize : (st'.tmp.grown last.length).writeCur ≤ dst.size := by
        have hroom := hwritable.room_eq
        rw [hvisits.size_eq] at hroom
        exact UInt64.le_iff_toNat_le.2 (by omega)
      have hend : (st'.m.store (st'.tmp.base + st'.tmp.writeCur) last).writable
          ((st'.tmp.grown last.length).base + (st'.tmp.grown last.length).writeCur) := by
        rw [Mem.store_writable, hvisits.writable_eq, String.grown_base, hvisits.base_eq]
        exact hmem.dst_writable _ hsize
      rw [hspec.of_le hfits, Except.ok_bind]
      dsimp only
      rw [if_pos rfl, Mem.write, if_pos hend]
      exact ⟨hvisits.base_eq, hvisits.size_eq, hsize⟩
    · obtain ⟨out, -, hlast⟩ := hspec.of_lt (Nat.lt_of_not_le hfits)
      rw [hlast]
      exact ⟨rfl, rfl, hcur⟩

theorem stays_of_joinsInside (h : Fenced src dst m) (hin : JoinsInside src dst m) :
    (appendPathToPathUnchecked src dst m).wp (StaysInside dst) := by
  have hcur' := UInt64.le_iff_toNat_le.1 h.cur
  by_cases hfull : NeedsSeparator dst m ∧ spaceLeft dst < 1
  · have hread : m.Readable dst.base dst.writeCur.toNat :=
      fun i hi => (h.readable _).2 (.inr (inRange_add.2 (by omega)))
    rw [appendPathToPathUnchecked, appendSeparator_full h.dst_enc hread hfull.1 hfull.2]
    exact ⟨rfl, rfl, h.cur⟩
  · obtain ⟨hpart, hups⟩ := hin.resolve_left hfull
    have hmem := h.joinMem_behindSlash hpart
    obtain ⟨tmp, m1, hsep, hvisits, hframe⟩ :=
      hmem.start h.cur fun hneeds => Nat.le_of_not_lt fun hlt => hfull ⟨hneeds, hlt⟩
    have hrest : (stringBytes (behindSlash src dst m) m).drop 0 =
        [47].intercalate (components src dst m) :=
      (List.intercalate_splitOn 47).symm
    obtain ⟨res, hleaves, hend⟩ :=
      (hvisits.leaves hmem (fun _ => not_mem_segments) (fun _ => not_mem_of_mem_splitOn)
      (List.splitOn_ne_nil 47 _) hrest).1 hups
    exact stays_of_leaves hmem h.cur hsep (skipSeparator_inside h hpart hvisits.readable_eq hframe)
      (whileLoop_joinStep_of_leaves hleaves) hend

/-- If neither the byte in front of the path nor, for an empty part, the one the part points to can
be read, nothing else returns. -/
theorem joinsInside_of_stays (h : Fenced src dst m) (hfence : m.readable (dst.base - 1) = false)
    (hempty : src.writeCur = 0 → m.readable src.base = false)
    (hstays : (appendPathToPathUnchecked src dst m).wp (StaysInside dst)) :
    JoinsInside src dst m := by
  by_cases hfull : NeedsSeparator dst m ∧ spaceLeft dst < 1
  · exact .inl hfull
  have hroom : NeedsSeparator dst m → 1 ≤ spaceLeft dst :=
    fun hneeds => Nat.le_of_not_lt fun hlt => hfull ⟨hneeds, hlt⟩
  have hcur' := UInt64.le_iff_toNat_le.1 h.cur
  obtain ⟨res, hres, -⟩ := Except.wp_iff.1 hstays
  have hpart : dst.writeCur > 0 → src.writeCur > 0 := by
    intro hpos
    by_contra hzero
    have hzero' : src.writeCur = 0 := by
      rw [gt_iff_lt, UInt64.lt_iff_toNat_lt, UInt64.toNat_zero] at hzero
      exact UInt64.toNat_inj.1 (Nat.eq_zero_of_not_pos hzero)
    obtain ⟨tmp, m1, hsep, hvisits, -⟩ := (h.joinMem h.src_enc fun _ ha => ha).start h.cur hroom
    have hread : m1.read src.base = .error (.read src.base) := by
      rw [Mem.read, show m1.readable = m.readable from hvisits.readable_eq, hempty hzero',
        if_neg Bool.false_ne_true]
    have hskip : skipSeparator src dst m1 = .error (.read src.base) := by
      rw [skipSeparator, if_pos hpos, hread]
      rfl
    rw [appendPathToPathUnchecked, hsep, Except.ok_bind] at hres
    dsimp only at hres
    rw [if_pos rfl, hskip] at hres
    cases hres
  have hmem := h.joinMem_behindSlash hpart
  obtain ⟨tmp, m1, hsep, hvisits, hframe⟩ := hmem.start h.cur hroom
  have hrest : (stringBytes (behindSlash src dst m) m).drop 0 =
      [47].intercalate (components src dst m) :=
    (List.intercalate_splitOn 47).symm
  rw [appendPathToPathUnchecked, hsep, Except.ok_bind] at hres
  dsimp only at hres
  rw [if_pos rfl, skipSeparator_inside h hpart hvisits.readable_eq hframe, Except.ok_bind,
    Except.bind_eq_ok] at hres
  obtain ⟨loopRes, hloop, -⟩ := hres
  exact .inr ⟨hpart,
    (hvisits.leaves hmem (fun _ => not_mem_segments) (fun _ => not_mem_of_mem_splitOn)
    (List.splitOn_ne_nil 47 _) hrest).2 hfence _ (leaves_of_whileLoop hloop)⟩

end

/-- `_AppendPathToPath` touches nothing outside the part and the storage of the path if it
`JoinsInside`; and only then, where what it would touch otherwise, the byte in front of the path and
the first one of an empty part, cannot be read. -/
theorem appendPathToPath_stays_iff (src dst : String) (m : Mem) (h : Fenced src dst m) :
    (JoinsInside src dst m → (appendPathToPathUnchecked src dst m).wp (StaysInside dst)) ∧
      (m.readable (dst.base - 1) = false → (src.writeCur = 0 → m.readable src.base = false) →
        (appendPathToPathUnchecked src dst m).wp (StaysInside dst) → JoinsInside src dst m) :=
  ⟨stays_of_joinsInside h, joinsInside_of_stays h⟩

/-- The memory of `textMem`, and nothing around it. -/
def fencedMem (l part : List UInt8) : Mem where
  byte := (textMem l part).byte
  readable a := decide (InRange 128 (textPart part).writeCur.toNat a ∨ InRange 64 17 a)
  writable a := decide (InRange 64 17 a)

theorem fenced_fencedMem (l part : List UInt8) (hl : l.length ≤ 16) (hpart : part.length ≤ 16) :
    Fenced (textPart part) (textPath l) (fencedMem l part) where
  src_enc := rfl
  dst_enc := rfl
  readable _ := decide_eq_true_iff
  writable _ := decide_eq_true_iff
  cur := by
    have hlen : (UInt64.ofNat l.length).toNat ≤ 16 := by
      rw [UInt64.toNat_ofNat']
      exact Nat.le_trans (Nat.mod_le _ _) hl
    exact UInt64.le_iff_toNat_le.2 hlen
  small := (joinMem_textMem l part hpart).small
  apart := (joinMem_textMem l part hpart).apart

theorem appendPathToPath_stays_up :
    (appendPathToPathUnchecked (textPart [46, 46, 47, 98]) (textPath [47, 97])
    (fencedMem [47, 97] [46, 46, 47, 98])).wp (StaysInside (textPath [47, 97])) :=
  (appendPathToPath_stays_iff _ _ _ (fenced_fencedMem _ _ (by decide) (by decide))).1
    (by decide +kernel)

/-- An empty part behind `a` is read, and so is the byte in front of an empty path for `../b`. -/
theorem appendPathToPath_not_stays :
    ¬ (appendPathToPathUnchecked (textPart []) (textPath [97]) (fencedMem [97] [])).wp
      (StaysInside (textPath [97])) ∧
      ¬ (appendPathToPathUnchecked (textPart [46, 46, 47, 98]) (textPath [])
        (fencedMem [] [46, 46, 47, 98])).wp (StaysInside (textPath [])) := by
  refine ⟨fun h => ?_, fun h => ?_⟩
  · have hin :=
      joinsInside_of_stays (fenced_fencedMem _ _ (by decide) (by decide)) rfl (fun _ => rfl) h
    exact absurd hin (by decide +kernel)
  · have hin := joinsInside_of_stays (fenced_fencedMem _ _ (by decide) (by decide)) rfl
      (fun h => absurd h (by decide)) h
    exact absurd hin (by decide +kernel)

end TinyBase
