import TinyBase.Win32MoveUp

/-!
# Which names a path append keeps

`_AppendPathToPath` reads the part unit by unit, and there every separator is one. Where the two
paths meet it looks at a byte: a unit whose low byte is that of a separator is taken for one. Behind
the path the separator is then left out, and in front of the part the unit is dropped.
-/

namespace TinyBase.Win32
open LexicalPath

abbrev IsSeparator (u : UInt16) : Prop := u = 92 ∨ u = 47

/-- What a component is here: `.` and `..` are none. -/
def IsName (c : List UInt16) : Prop :=
  c ≠ [] ∧ (∀ u ∈ c, u ≠ 0 ∧ ¬ IsSeparator u) ∧ c ≠ [46] ∧ c ≠ [46, 46]

instance (c : List UInt16) : Decidable (IsName c) :=
  @instDecidableAnd _ _ _ (@instDecidableAnd _ _ (List.decidableBAll _ c) _)

/-- What the function needs of the memory: the part can be read, the path and the unit behind its
size can be written, and they are apart. -/
structure JoinMem (src dst : String) (m : Mem) : Prop where
  src_enc : src.enc = .utf16le
  dst_enc : dst.enc = .utf16le
  src_readable : m.Readable src.base src.writeCur.toNat
  dst_readable : m.Readable dst.base dst.size.toNat
  dst_writable : ∀ i : Usz, i.toNat < dst.size.toNat + 2 → m.writable (dst.base + i)
  small : dst.size.toNat + 4 < 2 ^ 64
  apart : Apart src.base src.writeCur.toNat dst.base (dst.size.toNat + 2)

/-- The loop is about to read the component at the unit `i` of `part`; the path has the units
`text`, and there is room for all that is left of the part. -/
structure Copies (src dst : String) (m0 : Mem) (part text : List UInt16)
    (st : JoinState) (i : Nat) : Prop where
  count_eq : st.dirCharCount = 0
  start_eq : st.readStart = st.readIdx
  idx_eq : st.readIdx.toNat = 2 * i
  base_eq : st.tmp.base = dst.base
  size_eq : st.tmp.size = dst.size
  enc_eq : st.tmp.enc = .utf16le
  text_eq : stringBytes st.tmp st.m = unitBytes text
  room : st.tmp.writeCur.toNat + 2 * (part.length - i) ≤ dst.size.toNat
  part_eq : stringBytes src st.m = unitBytes part
  readable_eq : st.m.readable = m0.readable
  writable_eq : st.m.writable = m0.writable

/-- `st1` is behind the component `c` that began at `i` in `st`. -/
structure AfterName (src : String) (st : JoinState) (c : List UInt16) (i : Nat) (st1 : JoinState) :
    Prop where
  tmp_eq : st1.tmp = st.tmp
  m_eq : st1.m = st.m
  idx_eq : st1.readIdx.toNat = 2 * (i + c.length)
  count_eq : st1.dirCharCount.toNat = c.length
  not_dot : ¬ (st1.dirCharCount = 1 ∧ st1.c2 = 46)
  not_dots : ¬ (st1.dirCharCount = 2 ∧ st1.c1 = 46 ∧ st1.c2 = 46)
  dir_eq : stringBytes (st1.dir src) st.m = unitBytes c
  dir_readable : st.m.Readable (st1.dir src).base (st1.dir src).writeCur.toNat

/-- The units `new` have been written behind the path. -/
structure Wrote (tmp : String) (m : Mem) (new : List UInt16) (tmp' : String) (m' : Mem) : Prop where
  tmp_eq : tmp' = tmp.grown (2 * new.length)
  m_eq : m' = m.store (tmp.base + tmp.writeCur) (unitBytes new)

namespace Wrote
variable {tmp tmp' tmp'' : String} {m m' m'' : Mem} {us vs : List UInt16}

theorem refl (tmp : String) (m : Mem) : Wrote tmp m [] tmp m := ⟨(String.grown_zero tmp).symm, rfl⟩

theorem trans (h : Wrote tmp m us tmp' m') (h' : Wrote tmp' m' vs tmp'' m'')
    (hlen : 2 * (us.length + vs.length) ≤ 2 ^ 64) : Wrote tmp m (us ++ vs) tmp'' m'' := by
  obtain ⟨rfl, rfl⟩ := h
  obtain ⟨rfl, rfl⟩ := h'
  have hnext : (tmp.grown (2 * us.length)).base + (tmp.grown (2 * us.length)).writeCur =
      tmp.base + tmp.writeCur + UInt64.ofNat (unitBytes us).length := by
    rw [length_unitBytes, UInt64.add_assoc]
    rfl
  refine ⟨by rw [String.grown_grown, ← Nat.mul_add, List.length_append], ?_⟩
  rw [hnext, unitBytes_append, Mem.store_append (by rw [length_unitBytes, length_unitBytes]; omega)]

end Wrote

section
variable {m m0 : Mem} {src dst tmp : String} {st : JoinState} {res : Bool × JoinState}
  {c t part text : List UInt16} {i : Nat}

theorem JoinMem.writable (hmem : JoinMem src dst m0) (hbase : tmp.base = dst.base)
    (hsize : tmp.size = dst.size) (hcur : tmp.writeCur.toNat ≤ dst.size.toNat)
    (hm : m.writable = m0.writable) : Writable m tmp := by
  refine .of_storage hbase hsize hcur hmem.small fun i hi => ?_
  rw [hm]
  exact hmem.dst_writable i (by omega)

theorem appendBackslash_spec (h : Writable m tmp) (henc : tmp.enc = .utf16le) :
    Appends (appendBackslash tmp m) tmp m (unitBytes [92]) := by
  have hread : Reads backslash.rd backslash.base backslash.writeCur.toNat ([92, 0].getD · 0) :=
    localObject_reads [92, 0]
  rw [appendBackslash, if_pos henc]
  exact appendToString_spec h hread

theorem loadUnit_next {u : UInt16} (hread : m.Readable src.base src.writeCur.toNat)
    (hpart : stringBytes src m = unitBytes part) {idx : Usz} (hidx : idx.toNat = 2 * i)
    (hrest : part.drop i = u :: t) :
    idx < src.writeCur ∧ loadUnit m.read (src.base + idx) = .ok u ∧ (idx + 2).toNat = 2 * (i + 1) ∧
      part.drop (i + 1) = t := by
  have hlt := src.writeCur.toNat_lt
  have hlen := congrArg List.length hpart
  rw [length_stringBytes, length_unitBytes] at hlen
  have hi : i < part.length := by
    by_contra hge
    rw [List.drop_of_length_le (Nat.le_of_not_lt hge)] at hrest
    cases hrest
  rw [List.drop_eq_getElem_cons hi, List.cons.injEq] at hrest
  have hheld := holds_stringBytes hread
  rw [hpart] at hheld
  have hnext : (idx + 2).toNat = idx.toNat + 2 :=
    UInt64.toNat_add_of_lt (by show idx.toNat + 2 < _; omega)
  exact ⟨UInt64.lt_iff_toNat_lt.2 (by omega), hrest.1 ▸ loadUnit_eq hheld hi hidx (by omega),
    by omega, hrest.2⟩

theorem leaves_of_takes (hread : st.m.Readable src.base src.writeCur.toNat)
    (hpart : stringBytes src st.m = unitBytes part) (hidx : st.readIdx.toNat = 2 * i)
    (hrest : part.drop i = c ++ t) (hc : ∀ u ∈ c, ¬ IsSeparator u)
    (h : Leaves (joinStep src) (c.foldl JoinState.take st) res) : Leaves (joinStep src) st res := by
  induction c generalizing st i with
  | nil => exact h
  | cons u c ih =>
    obtain ⟨hlt, hu, hnext, hrest'⟩ := loadUnit_next hread hpart hidx hrest
    rw [List.forall_mem_cons] at hc
    have hgo : Leaves (joinStep src) (st.take u) res :=
      @ih (st.take u) (i + 1) hread hpart hnext hrest' hc.2 h
    refine .next ?_ hgo
    rw [joinStep, if_pos hlt, hu, Except.ok_bind, if_neg hc.1]
    rfl

theorem afterName (hmem : JoinMem src dst m0) (h : Copies src dst m0 part text st i)
    (hrest : part.drop i = c ++ t) (hc : IsName c) :
    AfterName src st c i (c.foldl JoinState.take st) := by
  have hlt := src.writeCur.toNat_lt
  have hlen := congrArg List.length h.part_eq
  rw [length_stringBytes, length_unitBytes] at hlen
  have hleft := congrArg List.length hrest
  rw [List.length_drop, List.length_append] at hleft
  have hpos := List.length_pos_iff.2 hc.1
  have hstart := foldl_eq (g := JoinState.take) (·.readStart) (fun _ _ => rfl) c st
  have hm := foldl_eq (g := JoinState.take) (·.m) (fun _ _ => rfl) c st
  have hidx := foldl_add (g := JoinState.take) (·.readIdx) 2 (fun _ _ => rfl) c st
  have hcount := foldl_add (g := JoinState.take) (·.dirCharCount) 1 (fun _ _ => rfl) c st
  have hcount' : (c.foldl JoinState.take st).dirCharCount.toNat = c.length := by
    rw [hcount, h.count_eq, UInt64.zero_add, Nat.one_mul, UInt64.toNat_ofNat']
    exact Nat.mod_eq_of_lt (by omega)
  have hcur : ((c.foldl JoinState.take st).dir src).writeCur.toNat = 2 * c.length := by
    rw [JoinState.dir, hstart, hidx, h.start_eq, UInt64.add_comm st.readIdx (UInt64.ofNat _),
      UInt64.add_sub_cancel, UInt64.toNat_ofNat']
    exact Nat.mod_eq_of_lt (by omega)
  have hbase : ((c.foldl JoinState.take st).dir src).base = src.base + st.readIdx := by
    rw [JoinState.dir, hstart, h.start_eq]
  have htmp := foldl_eq (g := JoinState.take) (·.tmp) (fun _ _ => rfl) c st
  have hwindow : st.readIdx.toNat + ((c.foldl JoinState.take st).dir src).writeCur.toNat ≤
      src.writeCur.toNat := by
    rw [hcur, h.idx_eq]
    omega
  refine ⟨htmp, hm, ?_, hcount', fun hdot => hc.2.2.1 ?_, fun hdots => hc.2.2.2 ?_, ?_,
    fun k hk => ?_⟩
  · rw [hidx, UInt64.toNat_add, h.idx_eq, UInt64.toNat_ofNat',
      Nat.mod_eq_of_lt (a := 2 * c.length) (by omega), Nat.mul_add]
    exact Nat.mod_eq_of_lt (by omega)
  · rw [hdot.1] at hcount'
    obtain ⟨u, rfl⟩ := List.length_eq_one_iff.1 hcount'.symm
    exact congrArg ([·]) hdot.2
  · rw [hdots.1] at hcount'
    obtain ⟨u, v, rfl⟩ := List.length_eq_two.1 hcount'.symm
    have hu : u = 46 := hdots.2.1
    have hv : v = 46 := hdots.2.2
    rw [hu, hv]
  · rw [stringBytes_window hbase hwindow, h.part_eq, h.idx_eq, drop_unitBytes,
      hrest, hcur, unitBytes_append, ← length_unitBytes, List.take_left]
  · have hsum : (st.readIdx + k).toNat = st.readIdx.toNat + k.toNat :=
      UInt64.toNat_add_of_lt (by omega)
    rw [h.readable_eq, hbase, UInt64.add_assoc]
    exact hmem.src_readable _ (by omega)

theorem JoinMem.apart_storage (hmem : JoinMem src dst m0) :
    Apart src.base src.writeCur.toNat dst.base (dst.size.toNat + 1) := fun a ha hin =>
  hmem.apart a ha (Nat.lt_succ_of_lt hin)

namespace Copies

theorem cur_le (h : Copies src dst m0 part text st i) :
    st.tmp.writeCur.toNat ≤ st.tmp.size.toNat := by
  have hroom := h.room
  rw [h.size_eq]
  omega

theorem writable (h : Copies src dst m0 part text st i) (hmem : JoinMem src dst m0) :
    Writable st.m st.tmp :=
  hmem.writable h.base_eq h.size_eq (h.size_eq ▸ h.cur_le) h.writable_eq

theorem src_readable (h : Copies src dst m0 part text st i) (hmem : JoinMem src dst m0) :
    st.m.Readable src.base src.writeCur.toNat := fun k hk => by
  rw [h.readable_eq]
  exact hmem.src_readable k hk

/-- The component in front of `ReadIdx` is appended: there is room for it. -/
theorem appendDir_eq (h : Copies src dst m0 part text st i) (hmem : JoinMem src dst m0)
    (hrest : part.drop i = c ++ t) {st1 : JoinState} (hat : AfterName src st c i st1) :
    2 * (c.length + t.length) ≤ st.tmp.room ∧
      appendStringToString (st1.dir src) st.tmp st.m =
        .ok (true, st.tmp.grown (2 * c.length),
          st.m.store (st.tmp.base + st.tmp.writeCur) (unitBytes c)) := by
  have hleft := congrArg List.length hrest
  rw [List.length_drop, List.length_append] at hleft
  have hroom : 2 * (c.length + t.length) ≤ st.tmp.room := by
    have := h.room
    rw [String.room, h.size_eq]
    omega
  have hspec := @appendStringToString_spec st.m (st1.dir src) st.tmp (h.writable hmem)
    (hmem.src_enc.trans h.enc_eq.symm) hat.dir_readable
  rw [hat.dir_eq] at hspec
  have heq := hspec.of_le (by rw [length_unitBytes]; omega)
  rw [length_unitBytes] at heq
  exact ⟨hroom, heq⟩

theorem name (h : Copies src dst m0 part text st i) (hmem : JoinMem src dst m0)
    (hc : IsName c) {s : UInt16} (hs : IsSeparator s) (hrest : part.drop i = c ++ s :: t) : ∃ st',
      Copies src dst m0 part (text ++ (c ++ [92])) st' (i + c.length + 1) ∧
      part.drop (i + c.length + 1) = t ∧
      Wrote st.tmp st.m (c ++ [92]) st'.tmp st'.m ∧ ∀ res, Leaves (joinStep src) st' res →
      Leaves (joinStep src) st res := by
  have hat := afterName hmem h hrest hc
  have hread := h.src_readable hmem
  have hback : ∀ res, Leaves (joinStep src) (c.foldl JoinState.take st) res →
    Leaves (joinStep src) st res := fun res =>
    leaves_of_takes hread h.part_eq h.idx_eq hrest fun u hu => (hc.2.1 u hu).2
  obtain ⟨hroom, hdir⟩ := h.appendDir_eq hmem hrest hat
  generalize c.foldl JoinState.take st = st1 at *
  have hrest' : part.drop (i + c.length) = s :: t := by rw [← List.drop_drop, hrest, List.drop_left]
  obtain ⟨hlt, hunit, hnext, htail⟩ := loadUnit_next hread h.part_eq hat.idx_eq hrest'
  have hwritable := h.writable hmem
  have hcur := h.cur_le
  rw [List.length_cons] at hroom
  have hgrown := hwritable.grown (n := 2 * c.length) (by omega)
    (st.m.store (st.tmp.base + st.tmp.writeCur) (unitBytes c)) rfl
  have hslash := (appendBackslash_spec hgrown h.enc_eq).of_le (by
    rw [length_unitBytes, String.room, hwritable.toNat_grown (by omega)]
    rw [String.room] at hroom
    show 2 ≤ st.tmp.size.toNat - _
    omega)
  have hfits : (unitBytes (c ++ [92])).length ≤ spaceLeft st.tmp := by
    rw [spaceLeft_eq hcur, length_unitBytes, List.length_append, List.length_singleton]
    rw [String.room] at hroom
    omega
  have hboth : (unitBytes c).length + (unitBytes [92]).length ≤ st.tmp.room := by
    rw [length_unitBytes, length_unitBytes, List.length_singleton]
    omega
  have hstore := hwritable.store_grown hboth
  rw [length_unitBytes] at hstore
  have hend := toNat_grown_writeCur hcur hfits
  have htext := stringBytes_grown (m := st.m) hcur hfits
  rw [length_unitBytes, List.length_append, List.length_singleton] at hend htext
  have hstep : joinStep src st1 = .ok (.next (st1.separator s (st.tmp.grown (2 * (c.length + 1)))
      (st.m.store (st.tmp.base + st.tmp.writeCur) (unitBytes (c ++ [92]))))) := by
    rw [joinStep, if_pos hlt, hat.m_eq, hat.tmp_eq, hunit, Except.ok_bind, if_pos hs,
      if_neg hat.not_dot, if_neg hat.not_dots, hdir, Except.ok_bind]
    dsimp only
    rw [if_pos rfl, hslash, Except.ok_bind]
    dsimp only
    rw [if_pos rfl, String.grown_grown, length_unitBytes, hstore, ← unitBytes_append]
    rfl
  refine ⟨st1.separator s (st.tmp.grown (2 * (c.length + 1)))
    (st.m.store (st.tmp.base + st.tmp.writeCur) (unitBytes (c ++ [92]))),
    ⟨rfl, rfl, hnext, h.base_eq, h.size_eq, h.enc_eq, ?_, ?_, ?_, h.readable_eq, h.writable_eq⟩,
    htail, ⟨by rw [List.length_append]; rfl, rfl⟩, fun res hres => hback res (.next hstep hres)⟩
  · rw [unitBytes_append text, ← h.text_eq]
    exact htext
  · show (st.tmp.grown _).writeCur.toNat + _ ≤ _
    rw [hend]
    have := h.room
    have hleft := congrArg List.length hrest
    rw [List.length_drop, List.length_append, List.length_cons] at hleft
    omega
  · rw [← h.part_eq]
    exact stringBytes_store hmem.apart_storage h.base_eq h.size_eq hcur hfits

theorem run {ds : List (List UInt16)} {rest : List UInt16} (h : Copies src dst m0 part text st i)
    (hmem : JoinMem src dst m0) (hsep : SeparatedBy IsSeparator ds rest)
    (hds : ∀ d ∈ ds.dropLast, IsName d) (hrest : part.drop i = rest) :
    ∃ init last st' j, ds = init ++ [last] ∧
      Copies src dst m0 part (text ++ init.flatMap fun c => c ++ [92]) st' j ∧
      part.drop j = last ∧ Wrote st.tmp st.m (init.flatMap fun c => c ++ [92]) st'.tmp st'.m ∧
      ∀ res, Leaves (joinStep src) st' res → Leaves (joinStep src) st res := by
  induction hsep generalizing text st i with
  | one c =>
    exact ⟨[], c, st, i, rfl, by rwa [List.flatMap_nil, List.append_nil], hrest,
      .refl st.tmp st.m, fun _ hres => hres⟩
  | cons c ha hsep ih =>
    rw [List.dropLast_cons_of_ne_nil hsep.ne_nil, List.forall_mem_cons] at hds
    obtain ⟨st1, h1, hrest1, hwrote, hback⟩ := h.name hmem hds.1 ha hrest
    obtain ⟨init, last, st', j, rfl, h', hlast, hwrote', hback'⟩ := ih h1 hds.2 hrest1
    refine ⟨c :: init, last, st', j, rfl, ?_, hlast, ?_,
      fun res hres => hback res (hback' res hres)⟩
    · rwa [List.flatMap_cons, ← List.append_assoc]
    · rw [List.flatMap_cons]
      refine hwrote.trans hwrote' ?_
      have hend := congrArg List.length h'.text_eq
      rw [length_stringBytes, length_unitBytes, List.length_append, List.length_append] at hend
      have hlt := st'.tmp.writeCur.toNat_lt
      omega

theorem leaves_last (h : Copies src dst m0 part text st i) (hmem : JoinMem src dst m0)
    (hc : c = [] ∨ IsName c) (hrest : part.drop i = c) :
    Leaves (joinStep src) st (true, c.foldl JoinState.take st) := by
  have hlen := congrArg List.length h.part_eq
  have hidx := h.idx_eq
  rw [length_stringBytes, length_unitBytes] at hlen
  have hleft := congrArg List.length hrest
  rw [List.length_drop] at hleft
  rcases hc with rfl | hc
  · refine .done ?_
    rw [joinStep,
      if_neg (by rw [UInt64.lt_iff_toNat_lt, hidx]; rw [List.length_nil] at hleft; omega)]
    rfl
  · rw [← List.append_nil c] at hrest
    have hat := afterName hmem h hrest hc
    have hpos := List.length_pos_iff.2 hc.1
    refine leaves_of_takes (h.src_readable hmem) h.part_eq h.idx_eq hrest
      (fun u hu => (hc.2.1 u hu).2) (.done ?_)
    rw [joinStep, if_neg (by rw [UInt64.lt_iff_toNat_lt, hat.idx_eq]; omega)]
    rfl

theorem appendLast_eq (h : Copies src dst m0 part text st i) (hmem : JoinMem src dst m0)
    (hc : c = [] ∨ IsName c) (hrest : part.drop i = c) :
    ∃ tmp' m', appendLast src (c.foldl JoinState.take st) = .ok (true, tmp', m') ∧
      tmp'.base = dst.base ∧ tmp'.writeCur.toNat ≤ dst.size.toNat ∧
      stringBytes tmp' m' = unitBytes (text ++ c) ∧
      m'.writable = m0.writable ∧ Wrote st.tmp st.m c tmp' m' := by
  have hcur := h.cur_le
  rw [h.size_eq] at hcur
  rcases hc with rfl | hc
  · refine ⟨st.tmp, st.m, ?_, h.base_eq, hcur, by rw [h.text_eq, List.append_nil],
      h.writable_eq, .refl st.tmp st.m⟩
    have hzero : ¬ st.dirCharCount > 0 := by rw [h.count_eq]; decide
    exact if_neg hzero
  · rw [← List.append_nil c] at hrest
    have hat := afterName hmem h hrest hc
    obtain ⟨hroom, hdir⟩ := h.appendDir_eq hmem hrest hat
    have hcount : (c.foldl JoinState.take st).dirCharCount > 0 :=
      UInt64.lt_iff_toNat_lt.2 (by rw [hat.count_eq]; exact List.length_pos_iff.2 hc.1)
    have hfits : (unitBytes c).length ≤ spaceLeft st.tmp := by
      rw [spaceLeft_eq h.cur_le, length_unitBytes]
      rw [String.room] at hroom
      omega
    have hend := toNat_grown_writeCur h.cur_le hfits
    have htext := stringBytes_grown (m := st.m) h.cur_le hfits
    rw [spaceLeft_eq h.cur_le, h.size_eq] at hfits
    rw [length_unitBytes] at hend htext hfits
    rw [h.text_eq, ← unitBytes_append] at htext
    rw [appendLast, if_pos hcount, hat.tmp_eq, hat.m_eq, hdir]
    exact ⟨_, _, rfl, h.base_eq, by omega, htext, h.writable_eq, rfl, rfl⟩

theorem small (h : Copies src dst m0 part text st 0) (hmem : JoinMem src dst m0) :
    src.writeCur.toNat + 2 < 2 ^ 64 := by
  have hroom := h.room
  have hsmall := hmem.small
  have hlen := congrArg List.length h.part_eq
  rw [length_stringBytes, length_unitBytes] at hlen
  omega

end Copies

theorem JoinMem.storeUnit_zero (hmem : JoinMem src dst m0) (hbase : tmp.base = dst.base)
    (hcur : tmp.writeCur.toNat ≤ dst.size.toNat) (hm : m.writable = m0.writable) :
    storeUnit m (tmp.base + tmp.writeCur) 0 = .ok (m.store (tmp.base + tmp.writeCur) [0, 0]) := by
  have hsmall := hmem.small
  refine Mem.writeBytes_eq (fun k hk => ?_) (by decide)
  have hk' : k.toNat < 2 := hk
  have hsum : (tmp.writeCur + k).toNat = tmp.writeCur.toNat + k.toNat :=
    UInt64.toNat_add_of_lt (by omega)
  rw [hm, hbase, UInt64.add_assoc]
  exact hmem.dst_writable _ (by omega)

theorem joinStep_next {st' : JoinState} (h : joinStep src st = .ok (.next st')) :
    st.readIdx < src.writeCur ∧ st'.readIdx = st.readIdx + 2 := by
  rw [joinStep] at h
  split_ifs at h with hlt
  · refine ⟨hlt, ?_⟩
    rw [Except.bind_eq_ok] at h
    obtain ⟨c2, -, h⟩ := h
    dsimp only at h
    split_ifs at h
    · cases h
      rfl
    · rw [Except.bind_eq_ok] at h
      obtain ⟨⟨r, tmp⟩, -, h⟩ := h
      cases h
      rfl
    · rw [Except.bind_eq_ok] at h
      obtain ⟨⟨r, tmp, m1⟩, -, h⟩ := h
      dsimp only at h
      split_ifs at h
      · rw [Except.bind_eq_ok] at h
        obtain ⟨⟨r', tmp', m2⟩, -, h⟩ := h
        dsimp only at h
        split_ifs at h
        · cases h
          rfl
        · cases h
      · cases h
    · cases h
      rfl
  · cases h

theorem whileLoop_joinStep_of_leaves (hsmall : src.writeCur.toNat + 2 < 2 ^ 64)
    (h : Leaves (joinStep src) st res) : whileLoop (joinStep src) st = .ok res := by
  refine whileLoop_of_leaves (fun st => src.writeCur.toNat - st.readIdx.toNat) (fun s s' hs => ?_) h
    (Nat.lt_of_le_of_lt (Nat.sub_le _ _) src.writeCur.toNat_lt)
  obtain ⟨hlt, hnext⟩ := joinStep_next hs
  have hlt' := UInt64.lt_iff_toNat_lt.1 hlt
  have hsum : s'.readIdx.toNat = s.readIdx.toNat + 2 := by
    rw [hnext]
    exact UInt64.toNat_add_of_lt (by show s.readIdx.toNat + 2 < _; omega)
  omega

end

/-! ### Where the paths meet -/

/-- The path with what is put behind it: nothing where the last low byte is that of a backslash. -/
def withSeparator (us : List UInt16) : List UInt16 :=
  match us.getLast? with
  | none => us
  | some u => if low u = 92 then us else us ++ [92]

/-- The part without its first unit where the low byte of that is the one of a separator. -/
def withoutSeparator : List UInt16 → List UInt16
  | [] => []
  | u :: us => if low u = 92 ∨ low u = 47 then us else u :: us

section
variable {m m1 : Mem} {newPart dst : String} {us units : List UInt16}

theorem withSeparator_concat (us : List UInt16) (u : UInt16) :
    withSeparator (us ++ [u]) = if low u = 92 then us ++ [u] else us ++ [u] ++ [92] := by
  rw [withSeparator, List.getLast?_concat]

theorem length_withSeparator_le (us : List UInt16) : (withSeparator us).length ≤ us.length + 1 := by
  rcases List.eq_nil_or_concat us with rfl | ⟨l, u, rfl⟩
  · exact Nat.zero_le 1
  · rw [List.concat_eq_append, withSeparator_concat]
    split_ifs
    · exact Nat.le_succ _
    · exact Nat.le_of_eq (List.length_append ..)

theorem appendSeparator_eq (hmem : JoinMem newPart dst m) (hus : stringBytes dst m = unitBytes us)
    (hroom : 2 * (withSeparator us).length ≤ dst.size.toNat) :
    ∃ tmp m1 sep, appendSeparator dst m = .ok (true, tmp, m1) ∧
      tmp.base = dst.base ∧ tmp.size = dst.size ∧ tmp.enc = .utf16le ∧
      withSeparator us = us ++ sep ∧ Wrote dst m sep tmp m1 ∧
      stringBytes tmp m1 = unitBytes (withSeparator us) ∧
      stringBytes newPart m1 = stringBytes newPart m ∧
      m1.readable = m.readable ∧ m1.writable = m.writable := by
  have hlen := length_stringBytes dst m
  rw [hus, length_unitBytes] at hlen
  rcases List.eq_nil_or_concat us with rfl | ⟨l, u, rfl⟩
  · refine ⟨dst, m, [], ?_, rfl, rfl, hmem.dst_enc, rfl, .refl dst m, hus, rfl, rfl, rfl⟩
    rw [appendSeparator, if_neg fun hpos =>
      absurd (UInt64.lt_iff_toNat_lt.1 hpos) (by rw [← hlen]; exact Nat.lt_irrefl 0)]
    rfl
  · rw [List.concat_eq_append] at *
    rw [List.length_append, List.length_singleton] at hlen
    rw [withSeparator_concat] at hroom
    have hcur : dst.writeCur.toNat ≤ dst.size.toNat := by
      split_ifs at hroom <;> simp only [List.length_append, List.length_singleton] at hroom <;>
        omega
    have hread : m.Readable dst.base dst.writeCur.toNat :=
      fun i hi => hmem.dst_readable i (by omega)
    have hheld := holds_stringBytes hread
    rw [hus] at hheld
    have hlast := read_low hheld (i := l.length) (by simp) (writeCur_sub_two hlen.symm)
    rw [List.getElem_concat_length rfl] at hlast
    have hpos : dst.writeCur > 0 := UInt64.lt_iff_toNat_lt.2 (by rw [← hlen]; exact Nat.succ_pos _)
    rw [appendSeparator, if_pos hpos, hlast, Except.ok_bind, withSeparator_concat]
    by_cases hlow : low u = 92
    · rw [if_neg (not_not.2 hlow), if_pos hlow]
      exact ⟨dst, m, [], rfl, rfl, rfl, hmem.dst_enc, (List.append_nil _).symm,
        .refl dst m, hus, rfl, rfl, rfl⟩
    · rw [if_neg hlow, List.length_append, List.length_append, List.length_singleton,
        List.length_singleton] at hroom
      have hwritable : Writable m dst := hmem.writable rfl rfl hcur rfl
      have hfits : (unitBytes [92]).length ≤ spaceLeft dst := by
        rw [spaceLeft_eq hcur, length_unitBytes, List.length_singleton]
        omega
      have hslash := (appendBackslash_spec hwritable hmem.dst_enc).of_le (by
        rw [length_unitBytes, String.room, List.length_singleton]
        omega)
      rw [if_pos hlow, if_neg hlow, hslash]
      refine ⟨_, _, [92], rfl, rfl, rfl, hmem.dst_enc, rfl, ⟨rfl, rfl⟩, ?_,
        stringBytes_store hmem.apart_storage rfl rfl hcur hfits, rfl, rfl⟩
      rw [stringBytes_grown hcur hfits, hus, unitBytes_append (l ++ [u])]

theorem JoinMem.window {src : String} {off : Usz} (hmem : JoinMem newPart dst m)
    (henc : src.enc = newPart.enc) (hbase : src.base = newPart.base + off)
    (hle : off.toNat + src.writeCur.toNat ≤ newPart.writeCur.toNat) : JoinMem src dst m where
  src_enc := henc.trans hmem.src_enc
  dst_enc := hmem.dst_enc
  src_readable k hk := by
    have hlt := newPart.writeCur.toNat_lt
    have hsum : (off + k).toNat = off.toNat + k.toNat := UInt64.toNat_add_of_lt (by omega)
    rw [hbase, UInt64.add_assoc]
    exact hmem.src_readable _ (by omega)
  dst_readable := hmem.dst_readable
  dst_writable := hmem.dst_writable
  small := hmem.small
  apart a ha := hmem.apart a (by rw [hbase] at ha; exact ha.of_add hle)

theorem skipSeparator_eq (hmem : JoinMem newPart dst m)
    (hunits : stringBytes newPart m1 = unitBytes units) (hne : units ≠ [])
    (hreadable : m1.readable = m.readable) :
    ∃ src, skipSeparator newPart m1 = .ok src ∧ JoinMem src dst m ∧
      stringBytes src m1 = unitBytes (withoutSeparator units) := by
  obtain ⟨u, us, rfl⟩ := List.exists_cons_of_ne_nil hne
  have hlen := congrArg List.length hunits
  rw [length_stringBytes, length_unitBytes, List.length_cons] at hlen
  have hread : m1.Readable newPart.base newPart.writeCur.toNat := fun i hi => by
    rw [hreadable]
    exact hmem.src_readable i hi
  have hheld := holds_stringBytes hread
  rw [hunits] at hheld
  have hfirst := read_low hheld (by simp : 0 < (u :: us).length) (rfl : (0 : Usz).toNat = 2 * 0)
  rw [UInt64.add_zero, List.getElem_cons_zero] at hfirst
  rw [skipSeparator, hfirst, Except.ok_bind, withoutSeparator]
  by_cases hlow : low u = 92 ∨ low u = 47
  · rw [if_pos hlow, if_pos hlow]
    have hcur : (newPart.writeCur - 2).toNat = newPart.writeCur.toNat - 2 :=
      UInt64.toNat_sub_of_toNat_le (by show 2 ≤ _; omega)
    have hwindow : (2 : Usz).toNat + (newPart.writeCur - 2).toNat ≤ newPart.writeCur.toNat := by
      rw [hcur]
      show 2 + _ ≤ _
      omega
    refine ⟨_, rfl, hmem.window rfl rfl hwindow, ?_⟩
    rw [stringBytes_window rfl hwindow, hunits, unitBytes_cons]
    show (unitBytes us).take (newPart.writeCur - 2).toNat = _
    exact List.take_of_length_le (by rw [length_unitBytes]; omega)
  · rw [if_neg hlow, if_neg hlow]
    exact ⟨newPart, rfl, hmem, hunits⟩

theorem copies_start (hmem : JoinMem newPart dst m) (hus : stringBytes dst m = unitBytes us)
    (hunits : stringBytes newPart m = unitBytes units) (hne : units ≠ [])
    (hroom : 2 * (withSeparator us).length + newPart.writeCur.toNat ≤ dst.size.toNat) :
    ∃ tmp m1 src sep,
      appendSeparator dst m = .ok (true, tmp, m1) ∧ skipSeparator newPart m1 = .ok src ∧
      JoinMem src dst m ∧ withSeparator us = us ++ sep ∧ Wrote dst m sep tmp m1 ∧
      Copies src dst m (withoutSeparator units) (withSeparator us) { tmp := tmp, m := m1 } 0 := by
  obtain ⟨tmp, m1, sep, hsep, hbase, hsize, henc, hsame, hwrote, htext,
    hpart, hreadable, hwritable⟩ :=
    appendSeparator_eq hmem hus (by omega)
  obtain ⟨src, hskip, hmem', hsrc⟩ := skipSeparator_eq hmem (hpart.trans hunits) hne hreadable
  refine ⟨tmp, m1, src, sep, hsep, hskip, hmem', hsame, hwrote, rfl, rfl, rfl, hbase, hsize, henc,
    htext, ?_, hsrc, hreadable, hwritable⟩
  have hlen := length_stringBytes newPart m
  have hcur := congrArg List.length htext
  rw [hunits, length_unitBytes] at hlen
  rw [length_stringBytes, length_unitBytes] at hcur
  have hle : (withoutSeparator units).length ≤ units.length := by
    obtain ⟨u, us, rfl⟩ := List.exists_cons_of_ne_nil hne
    rw [withoutSeparator]
    split_ifs
    · exact Nat.le_succ _
    · exact Nat.le_refl _
  show tmp.writeCur.toNat + 2 * ((withoutSeparator units).length - 0) ≤ _
  omega

theorem stringBytes_store_end {tmp : String} {bs : List UInt8}
    (hle : tmp.writeCur.toNat + bs.length ≤ 2 ^ 64) :
    stringBytes tmp (m.store (tmp.base + tmp.writeCur) bs) = stringBytes tmp m := by
  refine List.map_congr_left fun i hi => Mem.store_byte_of_not_inRange ?_
  have hlt := List.mem_range.1 hi
  have hcur := tmp.writeCur.toNat_lt
  rw [InRange, show tmp.base + UInt64.ofNat i - (tmp.base + tmp.writeCur) =
    UInt64.ofNat i - tmp.writeCur by grind,
    UInt64.toNat_sub, @UInt64.toNat_ofNat_of_lt_two_pow i (by omega)]
  omega

end

/-- The append has returned true, and `Dst` has the units `us` now, with a zero unit behind them. -/
structure JoinedUnits (us : List UInt16) (dst : String) (res : Bool × String × Mem) : Prop where
  result : res.1 = true
  base_eq : res.2.1.base = dst.base
  text : stringBytes res.2.1 res.2.2 = unitBytes us
  zero_low : res.2.2.byte (res.2.1.base + res.2.1.writeCur) = 0
  zero_high : res.2.2.byte (res.2.1.base + res.2.1.writeCur + 1) = 0

section
variable {m : Mem} {newPart dst : String} {us units : List UInt16} {ds : List (List UInt16)}

/-- What is left of the part is written behind the path as it is, with a backslash for each of its
separators. -/
theorem appendPathToPathUnchecked_run {init : List (List UInt16)} {last : List UInt16}
    (hmem : JoinMem newPart dst m) (hroom : 2 * (withSeparator us).length + newPart.writeCur.toNat ≤
      dst.size.toNat) (hus : stringBytes dst m = unitBytes us)
    (hunits : stringBytes newPart m = unitBytes units) (hne : units ≠ [])
    (hsep : SeparatedBy IsSeparator (init ++ [last]) (withoutSeparator units))
    (hinit : ∀ d ∈ init, IsName d) (hlast : last = [] ∨ IsName last) :
    ∃ new, us ++ new = withSeparator us ++ [92].intercalate (init ++ [last]) ∧
      dst.writeCur.toNat + 2 * new.length ≤ dst.size.toNat ∧
      appendPathToPathUnchecked newPart dst m =
        .ok (true, dst.grown (2 * new.length),
          m.store (dst.base + dst.writeCur) (unitBytes new ++ [0, 0])) := by
  have hsmall := hmem.small
  obtain ⟨tmp, m1, src, sep, htmp, hsrc, hmem', hsame, hwrote, hcopies⟩ :=
    copies_start hmem hus hunits hne hroom
  obtain ⟨init', last', st, j, heq, h, hrest, hwrote', hback⟩ :=
    hcopies.run hmem' hsep (by rwa [List.dropLast_concat]) rfl
  obtain ⟨rfl, hlast'⟩ := List.append_inj' heq rfl
  obtain rfl : last = last' := List.singleton_inj.1 hlast'
  have hloop :=
    whileLoop_joinStep_of_leaves (hcopies.small hmem') (hback _ (h.leaves_last hmem' hlast hrest))
  obtain ⟨tmp2, m2, happend, hbase, hle, htext, hwritable, hwrote''⟩ :=
    h.appendLast_eq hmem' hlast hrest
  have hend := congrArg List.length htext
  have hcur := length_stringBytes dst m
  rw [length_stringBytes, length_unitBytes, hsame] at hend
  rw [hus, length_unitBytes] at hcur
  simp only [List.length_append] at hend
  have hall := (hwrote.trans hwrote' (by omega)).trans hwrote'' (by rw [List.length_append]; omega)
  refine ⟨sep ++ init.flatMap (fun c => c ++ [92]) ++ last, ?_,
    by simp only [List.length_append]; omega, ?_⟩
  · rw [intercalate_concat, hsame, dirText]
    simp only [List.append_assoc, Bool.false_eq_true, if_false, List.nil_append]
  · rw [appendPathToPathUnchecked, htmp, Except.ok_bind]
    dsimp only
    rw [if_pos rfl, hsrc, Except.ok_bind, hloop, Except.ok_bind]
    dsimp only
    rw [if_pos rfl, happend, Except.ok_bind]
    dsimp only
    rw [if_pos rfl, hmem.storeUnit_zero hbase hle hwritable, Except.ok_bind, hall.tmp_eq,
      hall.m_eq, String.grown_base]
    have hnext : dst.base +
        (dst.grown (2 * (sep ++ init.flatMap (fun c => c ++ [92]) ++ last).length)).writeCur =
        dst.base + dst.writeCur +
        UInt64.ofNat (unitBytes (sep ++ init.flatMap (fun c => c ++ [92]) ++ last)).length := by
      rw [length_unitBytes, UInt64.add_assoc]
      rfl
    rw [hnext, Mem.store_append (by
      rw [length_unitBytes]
      simp only [List.length_append, List.length_cons, List.length_nil]
      omega)]
    rfl

theorem appendPathToPath_run (hmem : JoinMem newPart dst m) (hcur : dst.writeCur ≤ dst.size)
    (hroom : newPart.writeCur.toNat + 2 ≤ (dst.size - dst.writeCur).toNat)
    (hus : stringBytes dst m = unitBytes us) (hunits : stringBytes newPart m = unitBytes units)
    (hne : units ≠ []) (hsep : SeparatedBy IsSeparator ds (withoutSeparator units))
    (hds : ∀ d ∈ ds, IsName d) :
    (appendPathToPath newPart dst m).wp
      (JoinedUnits (withSeparator us ++ [92].intercalate ds) dst) := by
  have hspace := UInt64.toNat_sub_of_le _ _ hcur
  have hcur' := UInt64.le_iff_toNat_le.1 hcur
  have hlen := length_stringBytes dst m
  have hlt := dst.size.toNat_lt
  rw [hus, length_unitBytes] at hlen
  have hbehind := length_withSeparator_le us
  obtain ⟨init, last, rfl⟩ := (List.eq_nil_or_concat ds).resolve_left hsep.ne_nil
  rw [List.concat_eq_append] at *
  obtain ⟨new, hnew, hfits, hrun⟩ :=
    appendPathToPathUnchecked_run hmem (by omega) hus hunits hne hsep
    (fun d hd => hds d (List.mem_append_left _ hd))
    (.inr (hds last (List.mem_append_right _ List.mem_cons_self)))
  rw [appendPathToPath, if_pos ⟨hmem.src_enc.trans hmem.dst_enc.symm,
    UInt64.le_iff_toNat_le.2 (by omega)⟩, hrun, Except.wp_ok, ← hnew]
  have hfits' : (unitBytes new).length ≤ spaceLeft dst := by
    rw [spaceLeft_eq hcur', length_unitBytes]
    omega
  have hgrown := toNat_grown_writeCur hcur' hfits'
  have htext := stringBytes_grown (m := m) hcur' hfits'
  have hsplit : m.store (dst.base + dst.writeCur) (unitBytes new ++ [0, 0]) =
      (m.store (dst.base + dst.writeCur) (unitBytes new)).store
      ((dst.grown (2 * new.length)).base + (dst.grown (2 * new.length)).writeCur) [0, 0] := by
    rw [← Mem.store_append (by rw [length_unitBytes]; show _ + 2 ≤ _; omega),
      length_unitBytes, UInt64.add_assoc]
    rfl
  rw [length_unitBytes] at hgrown htext
  have hbyte : ∀ k : Usz, k.toNat < 2 → ((m.store (dst.base + dst.writeCur) (unitBytes new)).store
      ((dst.grown (2 * new.length)).base + (dst.grown (2 * new.length)).writeCur) [0, 0]).byte
        ((dst.grown (2 * new.length)).base + (dst.grown (2 * new.length)).writeCur + k) =
        [0, 0].getD k.toNat 0 :=
    fun k hk => Mem.store_byte_add hk
  rw [← hsplit] at hbyte
  refine ⟨rfl, rfl, ?_, by simpa using hbyte 0 (by decide), hbyte 1 (by decide)⟩
  show stringBytes (dst.grown (2 * new.length))
    (m.store (dst.base + dst.writeCur) (unitBytes new ++ [0, 0])) = _
  rw [hsplit, stringBytes_store_end (by rw [hgrown]; show _ + 2 ≤ _; omega),
    htext, hus, ← unitBytes_append]

end

/-! ### How long the path gets -/

/-- The path is not longer than `K` bytes, nor will it be when all that is left of the part is
appended. -/
structure Bounded (src dst : String) (m0 : Mem) (K : Nat) (st : JoinState) : Prop where
  base_eq : st.tmp.base = dst.base
  size_eq : st.tmp.size = dst.size
  enc_eq : st.tmp.enc = .utf16le
  cur_le : st.tmp.writeCur.toNat ≤ dst.size.toNat
  start_le : st.readStart.toNat ≤ st.readIdx.toNat
  idx_even : st.readIdx.toNat % 2 = 0
  idx_le : st.readIdx.toNat ≤ src.writeCur.toNat
  bound : st.tmp.writeCur.toNat + (src.writeCur.toNat - st.readStart.toNat) ≤ K
  readable_eq : st.m.readable = m0.readable

section
variable {m m' m0 : Mem} {src dst tmp tmp' : String} {st : JoinState} {K : Nat}

theorem copied_of_appendBackslash (henc : tmp.enc = .utf16le) {r : Bool}
    (h : appendBackslash tmp m = .ok (r, tmp', m')) : Copied tmp m [92, 0] r tmp' m' := by
  rw [appendBackslash, if_pos henc] at h
  refine copied_of_appendToString rfl (fun bs' hbs => ?_) h
  cases hbs
  rfl

/-- Where the byte in front of the path cannot be read, there is no way up from an empty one. -/
theorem two_le_of_moveUpPath {count : Usz} {r : Bool} (hfence : m.readable (tmp.base - 1) = false)
    (h : moveUpPath tmp count m = .ok (r, tmp')) : 2 ≤ tmp.writeCur.toNat := by
  by_contra hlt
  rw [moveUpPath, Except.bind_eq_ok] at h
  obtain ⟨last, hload, -⟩ := h
  rw [loadUnit, Except.bind_eq_ok] at hload
  obtain ⟨bs, hbs, -⟩ := hload
  have hone : tmp.writeCur ≤ 1 :=
    UInt64.le_iff_toNat_le.2 (Nat.le_of_lt_succ (Nat.lt_of_not_le hlt))
  have hback : (1 - tmp.writeCur).toNat < 2 := by
    rw [UInt64.toNat_sub_of_le _ _ hone]
    exact Nat.lt_of_le_of_lt (Nat.sub_le _ _) (by decide)
  have hread := Mem.readable_of_readBytes hbs _ hback
  rw [show tmp.base + tmp.writeCur - 2 + (1 - tmp.writeCur) = tmp.base - 1 by grind, hfence]
    at hread
  exact absurd hread Bool.false_ne_true

theorem grows_of_copied {bs : List UInt8} (h : Copied tmp m bs true tmp' m')
    (hcur : tmp.writeCur.toNat ≤ tmp.size.toNat) :
    tmp'.base = tmp.base ∧ tmp'.size = tmp.size ∧ tmp'.enc = tmp.enc ∧
      tmp'.writeCur.toNat = tmp.writeCur.toNat + bs.length ∧
      tmp'.writeCur.toNat ≤ tmp.size.toNat ∧ m'.readable = m.readable := by
  obtain ⟨hfits, rfl, rfl⟩ := h.of_true
  have hend := toNat_grown_writeCur hcur hfits
  rw [spaceLeft_eq hcur] at hfits
  exact ⟨rfl, rfl, rfl, hend, by omega, rfl⟩

namespace Bounded

theorem append (h : Bounded src dst m0 K st) (hmem : JoinMem src dst m0)
    (happend : appendStringToString (st.dir src) st.tmp st.m = .ok (true, tmp', m')) :
    tmp'.base = dst.base ∧
      tmp'.size = dst.size ∧ tmp'.enc = .utf16le ∧ tmp'.writeCur.toNat ≤ dst.size.toNat ∧
      tmp'.writeCur.toNat + (src.writeCur.toNat - st.readIdx.toNat) ≤ K ∧
      m'.readable = m0.readable := by
  have hstart := h.start_le
  have hidx := h.idx_le
  have hbound := h.bound
  have hdir : (st.dir src).writeCur.toNat = st.readIdx.toNat - st.readStart.toNat :=
    UInt64.toNat_sub_of_toNat_le hstart
  have hcopied := @copied_of_appendStringToString _ _ (st.dir src) _ _ _
    (hmem.src_enc.trans h.enc_eq.symm) happend
  obtain ⟨hb, hs, he, hcur, hle, hm⟩ := grows_of_copied hcopied (by rw [h.size_eq]; exact h.cur_le)
  rw [length_stringBytes, hdir] at hcur
  exact ⟨hb.trans h.base_eq, hs.trans h.size_eq, he.trans h.enc_eq, h.size_eq ▸ hle,
    by omega, hm.trans h.readable_eq⟩

theorem step (h : Bounded src dst m0 K st) (hmem : JoinMem src dst m0)
    (heven : src.writeCur.toNat % 2 = 0) (hsmall : src.writeCur.toNat + 2 < 2 ^ 64)
    (hfence : m0.readable (dst.base - 1) = false) {ctl : Ctl JoinState (Bool × JoinState)}
    (hctl : joinStep src st = .ok ctl) :
    ctl.Post (Bounded src dst m0 K) fun res => res.1 = true → Bounded src dst m0 K res.2 := by
  have hstart := h.start_le
  have hidx := h.idx_le
  have hbound := h.bound
  have hidxEven := h.idx_even
  rw [joinStep] at hctl
  split_ifs at hctl with hlt
  · rw [UInt64.lt_iff_toNat_lt] at hlt
    have hnext : (st.readIdx + 2).toNat = st.readIdx.toNat + 2 :=
      UInt64.toNat_add_of_lt (by show st.readIdx.toNat + 2 < _; omega)
    rw [Except.bind_eq_ok] at hctl
    obtain ⟨c2, -, hctl⟩ := hctl
    dsimp only at hctl
    -- a path that is not longer than before, with the component in front of the separator left out
    have hseparator : ∀ tmp' m', tmp'.base = dst.base → tmp'.size = dst.size → tmp'.enc = .utf16le →
        tmp'.writeCur.toNat ≤ dst.size.toNat →
        tmp'.writeCur.toNat + (src.writeCur.toNat - (st.readIdx.toNat + 2)) ≤ K →
        m'.readable = m0.readable →
        Bounded src dst m0 K (st.separator c2 tmp' m') := fun tmp' m' hb hs he hc hk hm =>
      ⟨hb, hs, he, hc, Nat.le_refl _, by show (st.readIdx + 2).toNat % 2 = 0; omega,
        by show (st.readIdx + 2).toNat ≤ _; omega, by
          show tmp'.writeCur.toNat + (_ - (st.readIdx + 2).toNat) ≤ _; omega, hm⟩
    split_ifs at hctl
    · cases hctl
      exact hseparator _ _ h.base_eq h.size_eq h.enc_eq h.cur_le (by omega) h.readable_eq
    · rw [Except.bind_eq_ok] at hctl
      obtain ⟨⟨r, tmp'⟩, hup, hctl⟩ := hctl
      cases hctl
      dsimp only
      have htwo := two_le_of_moveUpPath (by rw [h.base_eq, h.readable_eq]; exact hfence) hup
      have hread : st.m.Readable st.tmp.base st.tmp.writeCur.toNat := fun i hi => by
        rw [h.readable_eq, h.base_eq]
        exact hmem.dst_readable i (Nat.lt_of_lt_of_le hi h.cur_le)
      obtain ⟨hbase, hsize, henc, hle⟩ := moveUpPath_le h.enc_eq hread htwo (by decide) hup
      exact hseparator _ _ (hbase.trans h.base_eq) (hsize.trans h.size_eq) henc
        (Nat.le_trans hle h.cur_le) (by omega) h.readable_eq
    · rw [Except.bind_eq_ok] at hctl
      obtain ⟨⟨r, tmp1, m1⟩, hdir, hctl⟩ := hctl
      dsimp only at hctl
      split_ifs at hctl with hr
      · subst hr
        obtain ⟨hbase1, hsize1, henc1, hcur1, hbound1, hm1⟩ := h.append hmem hdir
        rw [Except.bind_eq_ok] at hctl
        obtain ⟨⟨r', tmp2, m2⟩, hslash, hctl⟩ := hctl
        dsimp only at hctl
        split_ifs at hctl with hr'
        · subst hr'
          cases hctl
          have hcopied := copied_of_appendBackslash henc1 hslash
          obtain ⟨hb, hs, he, hcur2, hle, hm⟩ :=
            grows_of_copied hcopied (by rw [hsize1]; exact hcur1)
          have hcur2' : tmp2.writeCur.toNat = tmp1.writeCur.toNat + 2 := hcur2
          exact hseparator _ _ (hb.trans hbase1) (hs.trans hsize1) (he.trans henc1)
            (hsize1 ▸ hle) (by omega) (hm.trans hm1)
        · cases hctl
          exact fun htrue => absurd htrue Bool.false_ne_true
      · cases hctl
        exact fun htrue => absurd htrue Bool.false_ne_true
    · cases hctl
      exact ⟨h.base_eq, h.size_eq, h.enc_eq, h.cur_le,
        by show st.readStart.toNat ≤ (st.readIdx + 2).toNat; omega,
        by show (st.readIdx + 2).toNat % 2 = 0; omega, by
          show (st.readIdx + 2).toNat ≤ _; omega, hbound, h.readable_eq⟩
  · cases hctl
    exact fun _ => h

end Bounded

end

/-! ### The low bytes where the paths meet -/

/-- The last unit of the path and the first one of the part, if they have the low byte of a
separator, are one. -/
def ToldByLow (us units : List UInt16) : Prop :=
  (∀ u ∈ us.getLast?, low u = 92 → u = 92) ∧ ∀ u ∈ units.head?, low u = 92 ∨
    low u = 47 → IsSeparator u

instance (us units : List UInt16) : Decidable (ToldByLow us units) :=
  @instDecidableAnd _ _ (Option.decidableForallMem _) (Option.decidableForallMem _)

section
variable {us part : List UInt16} {cs ds : List (List UInt16)} {lead : Option UInt16}

theorem withSeparator_dirText (cs : List (List UInt16)) :
    withSeparator (dirText 92 false cs) = dirText 92 false cs := by
  by_cases hnil : dirText 92 false cs = []
  · rw [hnil]
    rfl
  · obtain ⟨l, hl⟩ := dirText_eq_append hnil
    rw [hl, withSeparator_concat]
    exact if_pos rfl

theorem withSeparator_eq (hcs : ∀ c ∈ cs, IsName c) (hpath : IsText 92 false cs us) :
    (withSeparator us).length ≤ (dirText 92 false cs).length ∧
      ((∀ u ∈ us.getLast?, low u = 92 → u = 92) → withSeparator us = dirText 92 false cs) ∧
      ((withSeparator us).length = (dirText 92 false cs).length →
        ∀ u ∈ us.getLast?, low u = 92 → u = 92) := by
  cases hpath with
  | slash =>
    by_cases hnil : dirText 92 false cs = []
    · rw [hnil]
      exact ⟨Nat.le_refl _, fun _ => rfl, fun _ u hu => absurd hu (by simp)⟩
    · obtain ⟨l, hl⟩ := dirText_eq_append hnil
      rw [withSeparator_dirText]
      refine ⟨Nat.le_refl _, fun _ => rfl, fun _ u hu _ => ?_⟩
      rw [hl, List.getLast?_concat, Option.mem_some] at hu
      exact hu.symm
  | bare cs c =>
    have hc := hcs c (List.mem_append_right _ List.mem_cons_self)
    obtain ⟨c', u, rfl⟩ := (List.eq_nil_or_concat c).resolve_left hc.1
    rw [List.concat_eq_append] at *
    have hu : u ≠ 92 := fun h => (hc.2.1 u (List.mem_append_right _ List.mem_cons_self)).2 (.inl h)
    rw [← List.append_assoc, dirText_append, ← List.append_assoc, ← List.append_assoc,
      withSeparator, List.getLast?_concat]
    dsimp only
    simp only [Option.mem_some, forall_eq', hu, imp_false]
    split_ifs with hlow
    · have hlt : (dirText 92 false cs ++ c' ++ [u]).length <
        (dirText 92 false cs ++ c' ++ [u] ++ [92]).length := by simp
      exact ⟨Nat.le_of_lt hlt, fun h => absurd hlow h, fun h => absurd h (Nat.ne_of_lt hlt)⟩
    · exact ⟨Nat.le_refl _, fun _ => rfl, fun _ => hlow⟩

theorem exists_cons_of_separatedBy (hds : ∀ d ∈ ds, IsName d)
    (hpart : SeparatedBy IsSeparator ds part) : ∃ u t, part = u :: t ∧ ¬ IsSeparator u := by
  cases hpart with
  | one c =>
    obtain ⟨u, t, rfl⟩ := List.exists_cons_of_ne_nil (hds part List.mem_cons_self).1
    exact ⟨u, t, rfl, ((hds _ List.mem_cons_self).2.1 u List.mem_cons_self).2⟩
  | cons c ha h =>
    obtain ⟨u, t, rfl⟩ := List.exists_cons_of_ne_nil (hds c List.mem_cons_self).1
    exact ⟨u, _, rfl, ((hds _ List.mem_cons_self).2.1 u List.mem_cons_self).2⟩

theorem withoutSeparator_eq (hds : ∀ d ∈ ds, IsName d) (hlead : ∀ a ∈ lead, IsSeparator a)
    (hpart : SeparatedBy IsSeparator ds part) :
    (withoutSeparator (lead.toList ++ part)).length ≤ part.length ∧
      ((∀ u ∈ (lead.toList ++ part).head?, low u = 92 ∨ low u = 47 → IsSeparator u) →
        withoutSeparator (lead.toList ++ part) = part) ∧
      ((withoutSeparator (lead.toList ++ part)).length = part.length →
        ∀ u ∈ (lead.toList ++ part).head?, low u = 92 ∨ low u = 47 → IsSeparator u) := by
  cases lead with
  | some a =>
    have ha := hlead a rfl
    have hlow : low a = 92 ∨ low a = 47 := by
      rcases ha with rfl | rfl
      · exact .inl rfl
      · exact .inr rfl
    have hsame : withoutSeparator ((some a).toList ++ part) = part := if_pos hlow
    rw [hsame]
    refine ⟨Nat.le_refl _, fun _ => rfl, fun _ u hu _ => ?_⟩
    obtain rfl : a = u := Option.some.inj hu
    exact ha
  | none =>
    obtain ⟨u, t, rfl, hu⟩ := exists_cons_of_separatedBy hds hpart
    show (withoutSeparator (u :: t)).length ≤ (u :: t).length ∧
      ((∀ v ∈ some u, _) → withoutSeparator (u :: t) = u :: t) ∧
      ((withoutSeparator (u :: t)).length = (u :: t).length → ∀ v ∈ some u, _)
    rw [withoutSeparator]
    simp only [Option.mem_some, forall_eq', hu, imp_false]
    split_ifs with hlow
    · exact ⟨Nat.le_succ _, fun h => absurd hlow h,
        fun h => absurd h (Nat.ne_of_lt (Nat.lt_succ_self _))⟩
    · exact ⟨Nat.le_refl _, fun _ => rfl, fun _ => hlow⟩

end

/-! ### The function -/

section
variable {m : Mem} {newPart dst : String} {us units part : List UInt16} {cs ds : List (List UInt16)}
  {lead : Option UInt16}

/-- The path never gets longer than what is put behind it, whatever the components are. -/
theorem appendPathToPath_le (hmem : JoinMem newPart dst m) (hcur : dst.writeCur ≤ dst.size)
    (hroom : newPart.writeCur.toNat + 2 ≤ (dst.size - dst.writeCur).toNat)
    (hus : stringBytes dst m = unitBytes us) (hunits : stringBytes newPart m = unitBytes units)
    (hne : units ≠ []) (hfence : m.readable (dst.base - 1) = false) {dst' : String} {m' : Mem}
    (h : appendPathToPath newPart dst m = .ok (true, dst', m')) :
    dst'.writeCur.toNat ≤ 2 * ((withSeparator us).length + (withoutSeparator units).length) := by
  have hspace := UInt64.toNat_sub_of_le _ _ hcur
  have hcur' := UInt64.le_iff_toNat_le.1 hcur
  have hbehind := length_withSeparator_le us
  have hlen := length_stringBytes dst m
  rw [hus, length_unitBytes] at hlen
  have hroom' : 2 * (withSeparator us).length + newPart.writeCur.toNat ≤ dst.size.toNat := by omega
  obtain ⟨tmp, m1, src, -, htmp, hsrc, hmem', -, -, hcopies⟩ :=
    copies_start hmem hus hunits hne hroom'
  have hlen := congrArg List.length hcopies.text_eq
  have hlen' := congrArg List.length hcopies.part_eq
  rw [length_stringBytes, length_unitBytes] at hlen hlen'
  have hstart : Bounded src dst m
      (2 * ((withSeparator us).length + (withoutSeparator units).length)) { tmp := tmp, m := m1 } :=
    ⟨hcopies.base_eq, hcopies.size_eq, hcopies.enc_eq, hcopies.size_eq ▸ hcopies.cur_le,
      Nat.le_refl _, rfl, Nat.zero_le _, by show _ + (_ - 0) ≤ _; omega, hcopies.readable_eq⟩
  rw [appendPathToPath,
    if_pos ⟨hmem.src_enc.trans hmem.dst_enc.symm, UInt64.le_iff_toNat_le.2 (by omega)⟩,
    appendPathToPathUnchecked, htmp, Except.ok_bind] at h
  dsimp only at h
  rw [if_pos rfl, hsrc, Except.ok_bind, Except.bind_eq_ok] at h
  obtain ⟨⟨r, st⟩, hloop, h⟩ := h
  have hbounded := of_whileLoop_ok (Bounded src dst m _) (fun st ctl hst hctl =>
    hst.step hmem' (by omega) (hcopies.small hmem') hfence hctl) hstart hloop
  dsimp only at h
  split_ifs at h with hr
  · have hst : Bounded src dst m _ st := hbounded hr
    rw [Except.bind_eq_ok] at h
    obtain ⟨⟨r', tmp', m2⟩, hlast, h⟩ := h
    dsimp only at h
    split_ifs at h with hr'
    · subst hr'
      rw [Except.bind_eq_ok] at h
      obtain ⟨m3, -, h⟩ := h
      cases h
      rw [appendLast] at hlast
      split_ifs at hlast
      · have hle := (hst.append hmem' hlast).2.2.2.2.1
        omega
      · cases hlast
        have hle := hst.bound
        omega
    · cases h
  · cases h

end

/-- A path append keeps the names of both paths if the low bytes tell where they meet, and, where
the byte in front of the path cannot be read, only then. -/
theorem appendPathToPath_keeps_iff (newPart dst : String) (m : Mem) (cs ds : List (List UInt16))
    (us part : List UInt16) (lead : Option UInt16) (hmem : JoinMem newPart dst m)
    (hcur : dst.writeCur ≤ dst.size)
    (hroom : newPart.writeCur.toNat + 2 ≤ (dst.size - dst.writeCur).toNat)
    (hcs : ∀ c ∈ cs, IsName c) (hpath : IsText 92 false cs us)
    (hus : stringBytes dst m = unitBytes us) (hds : ∀ d ∈ ds, IsName d)
    (hlead : ∀ a ∈ lead, IsSeparator a) (hpart : SeparatedBy IsSeparator ds part)
    (hunits : stringBytes newPart m = unitBytes (lead.toList ++ part)) :
    (ToldByLow us (lead.toList ++ part) →
      (appendPathToPath newPart dst m).wp (JoinedUnits ([92].intercalate (cs ++ ds)) dst)) ∧
    (m.readable (dst.base - 1) = false →
      (appendPathToPath newPart dst m).wp (JoinedUnits ([92].intercalate (cs ++ ds)) dst) →
      ToldByLow us (lead.toList ++ part)) := by
  obtain ⟨hbehind, htold, htold'⟩ := withSeparator_eq hcs hpath
  obtain ⟨hfront, hfirst, hfirst'⟩ := withoutSeparator_eq hds hlead hpart
  have hlength := hpart.length_eq 92
  obtain ⟨u, t, hcons, -⟩ := exists_cons_of_separatedBy hds hpart
  have hne : lead.toList ++ part ≠ [] :=
    List.append_ne_nil_of_right_ne_nil _ (hcons ▸ List.cons_ne_nil u t)
  rw [intercalate_append cs hpart.ne_nil]
  constructor
  · intro h
    rw [← htold h.1]
    exact appendPathToPath_run hmem hcur hroom hus hunits hne ((hfirst h.2).symm ▸ hpart) hds
  · intro hfence h
    obtain ⟨⟨r, dst', m'⟩, hrun, hjoined⟩ := Except.wp_iff.1 h
    obtain rfl : r = true := hjoined.result
    have hle := appendPathToPath_le hmem hcur hroom hus hunits hne hfence hrun
    have hlen := congrArg List.length hjoined.text
    rw [length_stringBytes, length_unitBytes, List.length_append] at hlen
    dsimp only at hlen
    exact ⟨htold' (by omega), hfirst' (by omega)⟩

/-! The path `us` in front of the part `units`; the byte in front of the path cannot be read. -/

def unitsMem (us units : List UInt16) : Mem :=
  (Mem.store ⟨fun _ => 0, fun a => decide (a ≠ 63), fun _ => true⟩ 64 (unitBytes us)).store 160
    (unitBytes units)

def unitsPart (units : List UInt16) : String :=
  { base := 160, writeCur := UInt64.ofNat (2 * units.length), size := 0, enc := .utf16le }

theorem joinMem_unitsMem (us units : List UInt16) (hunits : units.length ≤ 16) :
    JoinMem (unitsPart units) (unitsPath us) (unitsMem us units) := by
  have hlen : (UInt64.ofNat (2 * units.length)).toNat ≤ 32 := by
    rw [UInt64.toNat_ofNat']
    exact Nat.le_trans (Nat.mod_le _ _) (Nat.mul_le_mul_left 2 hunits)
  have hreadable : ∀ (p : Ptr) (i : Usz), 64 ≤ p.toNat → p.toNat ≤ 160 → i.toNat < 64 →
      (unitsMem us units).readable (p + i) :=
    fun p i hp hp' hi => decide_eq_true fun heq => by
      have hsum : (p + i).toNat = p.toNat + i.toNat := UInt64.toNat_add_of_lt (by omega)
      rw [heq, show (63 : Ptr).toNat = 63 from rfl] at hsum
      omega
  refine ⟨rfl, rfl, fun i hi =>
    hreadable 160 i (by decide) (by decide) (Nat.lt_of_lt_of_le hi (Nat.le_trans hlen (by decide))),
    fun i hi => hreadable 64 i (by decide) (by decide) hi, fun _ _ => rfl,
    (by decide : 64 + 4 < 2 ^ 64), fun a hin hin' => ?_⟩
  have hend : (160 : Ptr).toNat + (UInt64.ofNat (2 * units.length)).toNat ≤ 2 ^ 64 :=
    Nat.le_trans (Nat.add_le_add_left hlen _) (by decide)
  exact (apart_of_le (by decide) hend : Apart 64 66 160 (UInt64.ofNat (2 * units.length)).toNat) a
    hin' hin

theorem appendPathToPath_keeps_three :
    (appendPathToPath (unitsPart [47, 98, 47, 99]) (unitsPath [97])
    (unitsMem [97] [47, 98, 47, 99])).wp (JoinedUnits [97, 92, 98, 92, 99] (unitsPath [97])) := by
  have hus : stringBytes (unitsPath [97]) (unitsMem [97] [47, 98, 47, 99]) = unitBytes [97] := by
    decide +kernel
  have hunits : stringBytes (unitsPart [47, 98, 47, 99]) (unitsMem [97] [47, 98, 47, 99]) =
      unitBytes [47, 98, 47, 99] := by
    decide +kernel
  have hcs : ∀ c ∈ [[97]], IsName c := by decide +kernel
  have hds : ∀ d ∈ [[98], [99]], IsName d := by decide +kernel
  have hlead : ∀ a ∈ some 47, IsSeparator a := fun a ha => .inr (Option.some.inj ha).symm
  have htold : ToldByLow [97] [47, 98, 47, 99] := by decide +kernel
  exact (appendPathToPath_keeps_iff _ _ _ [[97]] [[98], [99]] [97] [98, 47, 99] (some 47)
    (joinMem_unitsMem _ _ (by decide))
    (by decide) (by decide) hcs (.bare [] [97]) hus hds hlead (.cons [98] (.inr rfl) (.one [99]))
    hunits).1 htold

/-- The low byte of U+4E5C is that of a backslash: behind `a`, it is dropped from the front of the
part. -/
theorem appendPathToPath_not_keeps : ¬ (appendPathToPath (unitsPart [0x4E5C, 98]) (unitsPath [97])
    (unitsMem [97] [0x4E5C, 98])).wp (JoinedUnits [97, 92, 0x4E5C, 98] (unitsPath [97])) := by
  have hus : stringBytes (unitsPath [97]) (unitsMem [97] [0x4E5C, 98]) = unitBytes [97] := by
    decide +kernel
  have hunits : stringBytes (unitsPart [0x4E5C, 98]) (unitsMem [97] [0x4E5C, 98]) =
    unitBytes [0x4E5C, 98] := by decide +kernel
  intro h
  obtain ⟨⟨r, dst', m'⟩, hrun, hjoined⟩ := Except.wp_iff.1 h
  obtain rfl : r = true := hjoined.result
  have hle := appendPathToPath_le (joinMem_unitsMem _ _ (by decide)) (by decide) (by decide) hus
    hunits (by decide) (by decide) hrun
  have hlen := congrArg List.length hjoined.text
  rw [length_stringBytes, length_unitBytes] at hlen
  rw [show withSeparator [97] = [97, 92] from by decide +kernel,
    show withoutSeparator [0x4E5C, 98] = [98] from by decide +kernel]
    at hle
  dsimp only [List.length_cons, List.length_nil] at hlen hle
  omega

end TinyBase.Win32
