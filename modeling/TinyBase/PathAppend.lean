import TinyBase.PathJoin

/-!
# A path append that fails

`_AppendPathToPath` writes the pieces into the destination one by one and gives up at the first one
that does not fit; nothing takes back what it has written before. So the bytes of the destination
are as they were if the first piece does not fit, and the zero byte behind them is gone if it does.
-/

namespace TinyBase

/-! ### Failing before anything is written -/

/-- The first piece to be written of the components does not fit: a component that is not the last
one takes the slash behind it along, `.` takes nothing, and `..` moves up. -/
def FirstTooLong (m : Mem) : List (List UInt8) → String → Prop
  | [], _ => True
  | [c], tmp => c = [] ∨ spaceLeft tmp < c.length
  | c :: c' :: cs, tmp =>
    if c = [46] then FirstTooLong m (c' :: cs) tmp
    else if c = [46, 46] then ∀ r tmp', moveUpPath tmp 1 m = .ok (r, tmp') →
      FirstTooLong m (c' :: cs) tmp'
    else spaceLeft tmp < max c.length 1

section
variable {src : String} {st : JoinState} {res : Bool × JoinState} {i : Nat}

/-- If the first piece does not fit, the loop writes nothing, and neither does what comes behind
it. -/
theorem kept_of_firstTooLong (hsrc : src.enc = .utf8) {cs : List (List UInt8)}
    (hcs : ∀ c ∈ cs, 47 ∉ c) (hne : cs ≠ []) (henc : st.tmp.enc = .utf8) (hst : st.StartsAt i)
    (hrest : (stringBytes src st.m).drop i = [47].intercalate cs)
    (hlong : FirstTooLong st.m cs st.tmp) (h : Leaves (joinStep src) st res) :
    res.2.m = st.m ∧ (res.1 = true → res.2.dirCharCount ≠ 0 →
      res.2.tmp.enc = .utf8 ∧ spaceLeft res.2.tmp < (stringBytes (res.2.dir src) st.m).length) := by
  induction cs generalizing st i with
  | nil => exact absurd rfl hne
  | cons c cs ih =>
    rw [List.forall_mem_cons] at hcs
    cases cs with
    | nil =>
      rw [List.intercalate_singleton] at hrest
      obtain rfl := leaves_last hst hrest hcs.1 h
      have htmp := foldl_take_tmp c st
      have hm := foldl_take_m c st
      have hrest' : (stringBytes src st.m).drop i = c ++ [] := by rw [List.append_nil, hrest]
      have hcount := dirCharCount_foldl hst.count_eq (length_component_lt hrest')
      refine ⟨hm, fun _ hpos => ⟨by rw [htmp]; exact henc, ?_⟩⟩
      rw [htmp, stringBytes_dir hst hrest']
      refine hlong.resolve_left ?_
      rintro rfl
      exact hpos (UInt64.toNat_inj.1 hcount)
    | cons c' cs =>
      have hrest' : (stringBytes src st.m).drop i = c ++ 47 :: [47].intercalate (c' :: cs) := by
        rw [hrest, List.intercalate_cons_cons, List.append_assoc]
        rfl
      have hnext := rest_next hrest'
      obtain ⟨r, tmp', m', htakes, hres⟩ := leaves_component henc hsrc hst hrest' hcs.1 h
      rw [FirstTooLong] at hlong
      have hgo : ∀ tmp' : String, tmp'.enc = .utf8 → FirstTooLong st.m (c' :: cs) tmp' →
          (∃ st' : JoinState,
          st'.StartsAt (i + c.length + 1) ∧ st'.tmp = tmp' ∧ st'.m = st.m ∧
          Leaves (joinStep src) st' res) → res.2.m = st.m ∧ (res.1 = true → res.2.dirCharCount ≠ 0 →
            res.2.tmp.enc = .utf8 ∧
            spaceLeft res.2.tmp < (stringBytes (res.2.dir src) st.m).length) := by
        rintro tmp' henc' hlong' ⟨st', hst', rfl, hm, h'⟩
        have hkept := ih hcs.2 (List.cons_ne_nil _ _) henc' hst' (by rw [hm]; exact hnext)
          (by rw [hm]; exact hlong') h'
        rwa [hm] at hkept
      cases htakes with
      | dot hc =>
        rw [if_pos hc] at hlong
        exact hgo _ henc hlong hres
      | dots hc hup =>
        rw [if_neg (by rw [hc]; decide), if_pos hc] at hlong
        exact hgo _ ((moveUpPath_enc hup).trans henc) (hlong _ _ hup) hres
      | dirFails hne hne' hlong' =>
        exact ⟨hres.2, fun h => absurd (hres.1.symm.trans h) (by decide)⟩
      | slashFails hne hne' hfits hlong' =>
        rw [if_neg hne, if_neg hne'] at hlong
        have hnil : c = [] := List.eq_nil_of_length_eq_zero (by omega)
        rw [hnil, Mem.store_nil] at hres
        exact ⟨hres.2, fun h => absurd (hres.1.symm.trans h) (by decide)⟩
      | dir hne hne' hfits hfits' =>
        rw [if_neg hne, if_neg hne'] at hlong
        have hnil : c = [] := List.eq_nil_of_length_eq_zero (by omega)
        rw [hnil, List.length_nil, String.grown_zero] at hfits'
        omega

end

/-- The first piece that is to be written does not fit. -/
def NothingFits (src dst : String) (m : Mem) : Prop :=
  if NeedsSeparator dst m then spaceLeft dst < 1 else FirstTooLong m (components src dst m) dst

section
variable {m m' : Mem} {src dst dst' : String}

/-- A path append that fails before it has written anything changes nothing. -/
theorem unchanged_of_nothingFits (hsrc : src.enc = .utf8) (henc : dst.enc = .utf8)
    (hn : NothingFits src dst m) (h : appendPathToPathUnchecked src dst m = .ok (false, dst', m')) :
    m' = m := by
  obtain ⟨-, r, tmp, m1, hsep, hfail⟩ := unchecked_false h
  rw [NothingFits] at hn
  rcases appendSeparator_ok henc hsep with ⟨hneeds, hcopied⟩ | ⟨hneeds, rfl, rfl, rfl⟩
  · rw [if_pos hneeds] at hn
    cases r with
    | false =>
      obtain ⟨-, -, rfl⟩ := hcopied.of_false
      exact hfail
    | true => exact absurd hcopied.of_true.1 (Nat.not_le.2 hn)
  · rw [if_neg hneeds] at hn
    rw [if_pos rfl] at hfail
    obtain ⟨⟨result, st⟩, hleaves, hfail⟩ := hfail
    have hsrc' := (behindSlash_enc src tmp m1).trans hsrc
    obtain ⟨hm, hlast⟩ :=
      @kept_of_firstTooLong _ { tmp := tmp, m := m1 } _ 0 hsrc' _ (fun _ => not_mem_of_mem_splitOn)
      (List.splitOn_ne_nil 47 _) henc ⟨rfl, rfl, rfl⟩ (List.intercalate_splitOn 47).symm hn hleaves
    cases result with
    | false => exact hfail.trans hm
    | true =>
      obtain ⟨hcount, tmp2, happ⟩ := hfail
      obtain ⟨henc', hlong⟩ := hlast rfl hcount
      rw [hm] at happ
      have hcopied := @copied_of_appendStringToString _ _ (st.dir (behindSlash src tmp m1)) _ _ _
        (hsrc'.trans henc'.symm) happ
      exact hcopied.of_false.2.2

end

/-! ### Failing after something has been written -/

/-- Something has been written behind `dst`: the zero byte at its end is gone. The bytes of `src`
are still those they were in `m0`. -/
structure Overwritten (dst src : String) (m0 : Mem) (tmp : String) (m : Mem) : Prop where
  base_eq : tmp.base = dst.base
  size_eq : tmp.size = dst.size
  enc_eq : tmp.enc = .utf8
  cur_lt : dst.writeCur.toNat < tmp.writeCur.toNat
  cur_le : tmp.writeCur.toNat ≤ dst.size.toNat
  zero_gone : m.byte (dst.base + dst.writeCur) ≠ 0
  bytes_eq : stringBytes src m = stringBytes src m0

section
variable {m m0 : Mem} {src dst tmp : String} {bs : List UInt8}

theorem spaceLeft_eq (h : tmp.writeCur.toNat ≤ tmp.size.toNat) :
    spaceLeft tmp = tmp.size.toNat - tmp.writeCur.toNat :=
  UInt64.toNat_sub_of_toNat_le h

theorem toNat_grown_writeCur (h : tmp.writeCur.toNat ≤ tmp.size.toNat) {n : Nat}
    (hn : n ≤ spaceLeft tmp) : (tmp.grown n).writeCur.toNat = tmp.writeCur.toNat + n := by
  have hsize := tmp.size.toNat_lt
  rw [spaceLeft_eq h] at hn
  exact UInt64.toNat_add_ofNat (by omega)

theorem inRange_storage {n : Nat} {a : Ptr} (hcur : tmp.writeCur.toNat ≤ tmp.size.toNat)
    (hn : n ≤ spaceLeft tmp) (h : InRange (tmp.base + tmp.writeCur) n a) :
    InRange tmp.base (tmp.size.toNat + 1) a := by
  rw [spaceLeft_eq hcur] at hn
  exact h.of_add (by omega)

theorem stringBytes_store (hapart : Apart src.base src.writeCur.toNat dst.base (dst.size.toNat + 1))
    (hbase : tmp.base = dst.base) (hsize : tmp.size = dst.size)
    (hcur : tmp.writeCur.toNat ≤ tmp.size.toNat) (hfits : bs.length ≤ spaceLeft tmp) :
    stringBytes src (m.store (tmp.base + tmp.writeCur) bs) = stringBytes src m := by
  refine List.map_congr_left fun i hi => Mem.store_byte_of_not_inRange fun hin => ?_
  have hsrc : InRange src.base src.writeCur.toNat (src.base + UInt64.ofNat i) := by
    rw [inRange_add, UInt64.toNat_ofNat']
    exact Nat.lt_of_le_of_lt (Nat.mod_le _ _) (List.mem_range.1 hi)
  have hstorage := inRange_storage hcur hfits hin
  rw [hbase, hsize] at hstorage
  exact hapart _ hsrc hstorage

theorem overwritten_first {b : UInt8} (hb : b ≠ 0) (henc : dst.enc = .utf8)
    (hapart : Apart src.base src.writeCur.toNat dst.base (dst.size.toNat + 1))
    (hcur : dst.writeCur.toNat ≤ dst.size.toNat) (hfits : (b :: bs).length ≤ spaceLeft dst) :
    Overwritten dst src m (dst.grown (b :: bs).length)
      (m.store (dst.base + dst.writeCur) (b :: bs)) := by
  have hgrown := toNat_grown_writeCur hcur hfits
  have hspace := spaceLeft_eq hcur
  rw [List.length_cons] at hfits hgrown
  refine ⟨rfl, rfl, henc, ?_, ?_, ?_, stringBytes_store hapart rfl rfl hcur hfits⟩
  · rw [List.length_cons, hgrown]
    omega
  · rw [List.length_cons, hgrown]
    omega
  · have hbyte : (m.store (dst.base + dst.writeCur) (b :: bs)).byte (dst.base + dst.writeCur + 0) =
        (b :: bs).getD (0 : Usz).toNat 0 := Mem.store_byte_add (Nat.succ_pos _)
    rw [UInt64.add_zero] at hbyte
    rw [hbyte]
    exact hb

namespace Overwritten

theorem append (h : Overwritten dst src m0 tmp m)
    (hapart : Apart src.base src.writeCur.toNat dst.base (dst.size.toNat + 1))
    (hfits : bs.length ≤ spaceLeft tmp) :
    Overwritten dst src m0 (tmp.grown bs.length) (m.store (tmp.base + tmp.writeCur) bs) := by
  have hcur : tmp.writeCur.toNat ≤ tmp.size.toNat := by rw [h.size_eq]; exact h.cur_le
  have hgrown := toNat_grown_writeCur hcur hfits
  have hspace := spaceLeft_eq hcur
  have hlt := h.cur_lt
  have hle := h.cur_le
  have hsize := dst.size.toNat_lt
  rw [h.size_eq] at hspace
  refine ⟨h.base_eq, h.size_eq, h.enc_eq, by omega, by omega, ?_, ?_⟩
  · rw [Mem.store_byte_of_not_inRange]
    · exact h.zero_gone
    · rw [InRange, h.base_eq]
      have hsub : dst.base + dst.writeCur - (dst.base + tmp.writeCur) =
        dst.writeCur - tmp.writeCur := by grind
      rw [hsub, UInt64.toNat_sub]
      omega
  · rw [stringBytes_store hapart h.base_eq h.size_eq hcur hfits]
    exact h.bytes_eq

end Overwritten

theorem zero_gone_of_overwritten {st : JoinState} {res : Bool × JoinState}
    {i : Nat} (hsrc : src.enc = .utf8) (hapart : Apart src.base src.writeCur.toNat dst.base
      (dst.size.toNat + 1)) {cs : List (List UInt8)}
    (hcs : ∀ c ∈ cs, 47 ∉ c) (hdots : ∀ c ∈ cs, c ≠ [46, 46]) (hne : cs ≠ []) (hst : st.StartsAt i)
    (hrest : (stringBytes src m0).drop i = [47].intercalate cs)
    (hover : Overwritten dst src m0 st.tmp st.m) (h : Leaves (joinStep src) st res) :
    res.2.m.byte (dst.base + dst.writeCur) ≠ 0 ∧ (res.1 = true → res.2.tmp.enc = .utf8) := by
  induction cs generalizing st i with
  | nil => exact absurd rfl hne
  | cons c cs ih =>
    rw [List.forall_mem_cons] at hcs hdots
    cases cs with
    | nil =>
      rw [List.intercalate_singleton, ← hover.bytes_eq] at hrest
      obtain rfl := leaves_last hst hrest hcs.1 h
      have htmp := foldl_take_tmp c st
      have hm := foldl_take_m c st
      rw [htmp, hm]
      exact ⟨hover.zero_gone, fun _ => hover.enc_eq⟩
    | cons c' cs =>
      have hrest' : (stringBytes src st.m).drop i = c ++ 47 :: [47].intercalate (c' :: cs) := by
        rw [hover.bytes_eq, hrest, List.intercalate_cons_cons, List.append_assoc]
        rfl
      have hnext := rest_next hrest'
      obtain ⟨r, tmp', m', htakes, hres⟩ := leaves_component hover.enc_eq hsrc hst hrest' hcs.1 h
      have hgo : Overwritten dst src m0 tmp' m' →
          (∃ st' : JoinState, st'.StartsAt (i + c.length + 1) ∧ st'.tmp = tmp' ∧
          st'.m = m' ∧ Leaves (joinStep src) st' res) →
          res.2.m.byte (dst.base + dst.writeCur) ≠ 0 ∧ (res.1 = true → res.2.tmp.enc = .utf8) := by
        rintro hover' ⟨st', hst', rfl, rfl, h'⟩
        rw [hover.bytes_eq] at hnext
        exact ih hcs.2 hdots.2 (List.cons_ne_nil _ _) hst' hnext hover' h'
      cases htakes with
      | dot hc => exact hgo hover hres
      | dots hc hup => exact absurd hc hdots.1
      | dirFails hne hne' hlong =>
        rw [hres.2]
        exact ⟨hover.zero_gone, fun h => absurd (hres.1.symm.trans h) (by decide)⟩
      | slashFails hne hne' hfits hlong =>
        rw [hres.2]
        exact ⟨(hover.append hapart hfits).zero_gone,
          fun h => absurd (hres.1.symm.trans h) (by decide)⟩
      | dir hne hne' hfits hfits' =>
        have hslash : ([47] : List UInt8).length ≤ spaceLeft (st.tmp.grown c.length) := hfits'
        exact hgo ((hover.append hapart hfits).append hapart hslash) hres

/-- If the first piece fits, the loop writes it, or what comes behind it does. -/
theorem zero_gone_of_fits {st : JoinState} {res : Bool × JoinState} {i : Nat}
    (hsrc : src.enc = .utf8) (henc : dst.enc = .utf8)
    (hapart : Apart src.base src.writeCur.toNat dst.base (dst.size.toNat + 1))
    (hcur : dst.writeCur.toNat ≤ dst.size.toNat) {cs : List (List UInt8)} (hcs : ∀ c ∈ cs, 47 ∉ c)
    (hdots : ∀ c ∈ cs, c ≠ [46, 46]) (hzero : ∀ c ∈ cs, c.head? ≠ some 0) (hst : st.StartsAt i)
    (hrest : (stringBytes src m0).drop i = [47].intercalate cs) (htmp : st.tmp = dst)
    (hm : st.m = m0) (hfits : ¬ FirstTooLong m0 cs dst) (h : Leaves (joinStep src) st res) :
    (res.2.m.byte (dst.base + dst.writeCur) ≠ 0 ∨ res.1 = true ∧
      (stringBytes (res.2.dir src) res.2.m).length ≤ spaceLeft res.2.tmp) ∧
      (res.1 = true → res.2.tmp.enc = .utf8) := by
  induction cs generalizing st i with
  | nil => exact absurd trivial hfits
  | cons c cs ih =>
    rw [List.forall_mem_cons] at hcs hdots hzero
    cases cs with
    | nil =>
      rw [List.intercalate_singleton, ← hm] at hrest
      obtain rfl := leaves_last hst hrest hcs.1 h
      have htmp' := foldl_take_tmp c st
      have hm' := foldl_take_m c st
      have hrest' : (stringBytes src st.m).drop i = c ++ [] := by rw [List.append_nil, hrest]
      rw [FirstTooLong, not_or, Nat.not_lt] at hfits
      rw [htmp', hm', stringBytes_dir hst hrest', htmp]
      exact ⟨.inr ⟨rfl, hfits.2⟩, fun _ => henc⟩
    | cons c' cs =>
      have hrest' : (stringBytes src st.m).drop i = c ++ 47 :: [47].intercalate (c' :: cs) := by
        rw [hm, hrest, List.intercalate_cons_cons, List.append_assoc]
        rfl
      have hnext := rest_next hrest'
      obtain ⟨r, tmp', m', htakes, hres⟩ :=
        leaves_component (by rw [htmp]; exact henc) hsrc hst hrest' hcs.1 h
      rw [FirstTooLong] at hfits
      subst htmp hm
      have hgo : Overwritten st.tmp src st.m tmp' m' →
          (∃ st' : JoinState, st'.StartsAt (i + c.length + 1) ∧
          st'.tmp = tmp' ∧ st'.m = m' ∧ Leaves (joinStep src) st' res) →
          (res.2.m.byte (st.tmp.base + st.tmp.writeCur) ≠ 0 ∨ res.1 = true ∧
            (stringBytes (res.2.dir src) res.2.m).length ≤ spaceLeft res.2.tmp) ∧
            (res.1 = true → res.2.tmp.enc = .utf8) := by
        rintro hover ⟨st', hst', rfl, rfl, h'⟩
        have hgone := zero_gone_of_overwritten hsrc hapart hcs.2 hdots.2 (List.cons_ne_nil _ _) hst'
          hnext hover h'
        exact ⟨.inl hgone.1, hgone.2⟩
      cases htakes with
      | dot hc =>
        rw [if_pos hc] at hfits
        obtain ⟨st', hst', htmp, hm, h'⟩ := hres
        exact ih hcs.2 hdots.2 hzero.2 hst' hnext htmp hm hfits h'
      | dots hc hup => exact absurd hc hdots.1
      | dirFails hne hne' hlong =>
        rw [if_neg hne, if_neg hne'] at hfits
        omega
      | slashFails hne hne' hfits' hlong =>
        rw [if_neg hne, if_neg hne'] at hfits
        cases c with
        | nil =>
          rw [List.length_nil, String.grown_zero] at hlong
          exact absurd (Nat.lt_of_lt_of_le hlong (Nat.le_max_right _ _)) hfits
        | cons b c =>
          have hover := @overwritten_first st.m _ _ _ _ (fun h0 => hzero.1 (congrArg some h0)) henc
            hapart hcur hfits'
          rw [hres.2]
          exact ⟨.inl hover.zero_gone, fun h => absurd (hres.1.symm.trans h) (by decide)⟩
      | dir hne hne' hfits' hslash =>
        have hslash' : ([47] : List UInt8).length ≤ spaceLeft (st.tmp.grown c.length) := hslash
        cases c with
        | nil =>
          refine hgo ?_ hres
          rw [List.length_nil, String.grown_zero] at hslash' ⊢
          exact overwritten_first (by decide) henc hapart hcur hslash'
        | cons b c =>
          have hover := @overwritten_first st.m _ _ _ _ (fun h0 => hzero.1 (congrArg some h0)) henc
            hapart hcur hfits'
          exact hgo (hover.append hapart hslash') hres

end

/-- A part in memory of its own that has no `..` and no component that begins with a zero byte. -/
structure PlainPart (src dst : String) (m : Mem) : Prop where
  nonempty : 0 < src.writeCur.toNat
  no_dots : ∀ c ∈ components src dst m, c ≠ [46, 46]
  no_zero : ∀ c ∈ components src dst m, c.head? ≠ some 0
  apart : Apart src.base src.writeCur.toNat dst.base (dst.size.toNat + 1)

section
variable {m m' : Mem} {src dst dst' : String}

theorem PlainPart.apart_behindSlash (h : PlainPart src dst m) :
    Apart (behindSlash src dst m).base (behindSlash src dst m).writeCur.toNat dst.base
      (dst.size.toNat + 1) := by
  have hpos := h.nonempty
  have hcur := src.writeCur.toNat_lt
  rw [behindSlash]
  split_ifs
  · intro a ha
    have hpred : (src.writeCur - 1).toNat = src.writeCur.toNat - 1 :=
      UInt64.toNat_sub_of_toNat_le hpos
    have ha' : InRange (src.base + 1) (src.writeCur - 1).toNat a := ha
    exact h.apart a (ha'.of_add (by rw [hpred]; simp; omega))
  · exact h.apart

theorem PlainPart.behindSlash_store (h : PlainPart src dst m)
    (hcur : dst.writeCur.toNat ≤ dst.size.toNat) {b : UInt8} (hroom : [b].length ≤ spaceLeft dst) :
    behindSlash src dst (m.store (dst.base + dst.writeCur) [b]) = behindSlash src dst m := by
  have hbyte : (m.store (dst.base + dst.writeCur) [b]).byte src.base = m.byte src.base := by
    refine Mem.store_byte_of_not_inRange fun hin => ?_
    have hfirst : InRange src.base src.writeCur.toNat (src.base + 0) := inRange_add.2 h.nonempty
    rw [UInt64.add_zero] at hfirst
    exact h.apart _ hfirst (inRange_storage hcur hroom hin)
  rw [behindSlash, behindSlash, hbyte]

/-- A plain part that leaves the zero byte where it was when it fails has not been begun. -/
theorem nothingFits_of_zero (hsrc : src.enc = .utf8) (henc : dst.enc = .utf8)
    (hcur : dst.writeCur.toNat ≤ dst.size.toNat) (hplain : PlainPart src dst m)
    (h : appendPathToPathUnchecked src dst m = .ok (false, dst', m'))
    (hzero : m'.byte (dst.base + dst.writeCur) = 0) : NothingFits src dst m := by
  by_contra hfits
  refine absurd hzero ?_
  obtain ⟨-, r, tmp, m1, hsep, hfail⟩ := unchecked_false h
  have hsrc' := (behindSlash_enc src dst m).trans hsrc
  have hrest : [47].intercalate ((stringBytes (behindSlash src dst m) m).splitOn 47) =
      stringBytes (behindSlash src dst m) m :=
    List.intercalate_splitOn 47
  rw [NothingFits] at hfits
  rcases appendSeparator_ok henc hsep with ⟨hneeds, hcopied⟩ | ⟨hneeds, rfl, rfl, rfl⟩
  · rw [if_pos hneeds, Nat.not_lt] at hfits
    cases r with
    | false => exact absurd hcopied.of_false.1 (Nat.not_lt.2 hfits)
    | true =>
      obtain ⟨hone, rfl, rfl⟩ := hcopied.of_true
      have hover :=
        @overwritten_first m _ _ _ 47 (by decide) henc hplain.apart_behindSlash hcur hone
      rw [if_pos rfl, hplain.behindSlash_store hcur hone] at hfail
      obtain ⟨⟨result, st⟩, hleaves, hfail⟩ := hfail
      obtain ⟨hgone, henc'⟩ := @zero_gone_of_overwritten m _ _
        { tmp := dst.grown 1, m := m.store (dst.base + dst.writeCur) [47] }
        _ 0 hsrc' hplain.apart_behindSlash _ (fun _ => not_mem_of_mem_splitOn) hplain.no_dots
        (List.splitOn_ne_nil 47 _)
        ⟨rfl, rfl, rfl⟩ hrest.symm hover hleaves
      cases result with
      | false =>
        rw [if_neg Bool.false_ne_true] at hfail
        rw [hfail]
        exact hgone
      | true =>
        obtain ⟨-, tmp2, happ⟩ := hfail
        have hcopied :=
          @copied_of_appendStringToString _ _ (st.dir _) _ _ _ (hsrc'.trans (henc' rfl).symm) happ
        rw [hcopied.of_false.2.2]
        exact hgone
  · rw [if_neg hneeds] at hfits
    rw [if_pos rfl] at hfail
    obtain ⟨⟨result, st⟩, hleaves, hfail⟩ := hfail
    obtain ⟨hgone, henc'⟩ :=
      @zero_gone_of_fits m1 _ _ { tmp := tmp, m := m1 } _ 0 hsrc' henc hplain.apart_behindSlash hcur
      _ (fun _ => not_mem_of_mem_splitOn) hplain.no_dots hplain.no_zero
        ⟨rfl, rfl, rfl⟩ hrest.symm rfl rfl hfits hleaves
    cases result with
    | false =>
      rw [if_neg Bool.false_ne_true] at hfail
      rw [hfail]
      exact hgone.resolve_right fun h => Bool.false_ne_true h.1
    | true =>
      obtain ⟨-, tmp2, happ⟩ := hfail
      have hcopied :=
        @copied_of_appendStringToString _ _ (st.dir _) _ _ _ (hsrc'.trans (henc' rfl).symm) happ
      obtain ⟨hlong, -, hm⟩ := hcopied.of_false
      rw [hm]
      exact hgone.resolve_right fun h => absurd h.2 (Nat.not_le.2 hlong)

end

/-! ### The four functions -/

/-- The ways to give a new part. -/
inductive NewPart where
  | path (newPart : String)
  | string (newPart : String)
  | data (newPart : Ptr) (newPartSize : Usz)
  | array (newPart : Ptr)

namespace NewPart

/-- The function for each of them. -/
def append (dst : String) (newPartUTF8 : Ptr) (m : Mem) : NewPart → Res (Bool × String × Mem)
  | path newPart => appendPathToPath newPart dst m
  | string newPart => appendStringToPath newPart dst newPartUTF8 m
  | data newPart newPartSize => appendDataToPath newPart newPartSize dst m
  | array newPart => appendArrayToPath newPart dst m

/-- What `_AppendPathToPath` is called with, in which memory; nothing where it is not called. -/
def taken (dst : String) (newPartUTF8 : Ptr) (m : Mem) : NewPart → Res (Option String × Mem)
  | path newPart =>
    pure (if newPart.enc = dst.enc ∧ newPart.writeCur ≤ dst.size - dst.writeCur then
      some newPart else none, m)
  | string newPart =>
    if newPart.enc ≠ dst.enc then do
      let m ← m.memset newPartUTF8 0 maxPathSize
      let (result, src, m) ← transcode newPart (TinyBase.path newPartUTF8) m
      pure (if result then some src else none, m)
    else pure (some newPart, m)
  | data newPart newPartSize =>
    pure (some { TinyBase.path newPart with writeCur := newPartSize }, m)
  | array newPart => do
    let newPartPath ← pathCString newPart m
    pure (some newPartPath, m)

variable {part : NewPart} {m m' : Mem} {dst dst' : String} {newPartUTF8 : Ptr}

theorem append_eq (part : NewPart) (dst : String) (newPartUTF8 : Ptr) (m : Mem) :
    part.append dst newPartUTF8 m = part.taken dst newPartUTF8 m >>= fun (src, m) =>
      match src with
      | some src => appendPathToPathUnchecked src dst m
      | none => pure (false, dst, m) := by
  cases part with
  | path newPart =>
    rw [append, appendPathToPath, taken]
    split_ifs <;> rfl
  | string newPart =>
    rw [append, appendStringToPath, taken]
    split_ifs
    · simp only [bind_assoc]
      refine congrArg _ (funext fun m => congrArg _ (funext fun ⟨result, src, m⟩ => ?_))
      cases result <;> rfl
    · rfl
  | data newPart newPartSize => rfl
  | array newPart =>
    rw [append, appendArrayToPath, taken, bind_assoc]
    rfl

theorem enc_of_pathCString {rd : Ptr} {s : String} (h : pathCString rd m = .ok s) :
    s.enc = .utf8 := by
  rw [pathCString, Except.bind_eq_ok] at h
  obtain ⟨size, -, h⟩ := h
  cases h
  rfl

/-- The part is in UTF-8, and what is outside the local array is as it was. -/
theorem taken_ok (henc : dst.enc = .utf8) {src : Option String}
    (h : part.taken dst newPartUTF8 m = .ok (src, m')) :
    (∀ s ∈ src, s.enc = .utf8) ∧ ∀ a, ¬ InRange newPartUTF8 maxPathSize.toNat a →
      m'.byte a = m.byte a := by
  cases part with
  | path newPart =>
    cases h
    refine ⟨fun s hs => ?_, fun _ _ => rfl⟩
    split_ifs at hs with hboth
    · cases hs
      exact hboth.1.trans henc
    · cases hs
  | string newPart =>
    rw [taken] at h
    split_ifs at h with hne
    · simp only [Except.bind_eq_ok] at h
      obtain ⟨m1, hset, ⟨result, s, m2⟩, htrans, h⟩ := h
      cases h
      have hsize : (TinyBase.path newPartUTF8).size.toNat = 4095 := rfl
      obtain ⟨henc', hframe⟩ := transcode_frame (Nat.zero_le _) (by rw [hsize]; decide) htrans
      have hset' :=
        Mem.eq_of_writeBytes (by rw [List.length_replicate]; exact Nat.le_of_lt (UInt64.toNat_lt _))
          hset
      refine ⟨fun s' hs => ?_, fun a ha => ?_⟩
      · split_ifs at hs
        · cases hs
          exact henc'
        · cases hs
      · rw [hframe a, hset', Mem.store_byte_of_not_inRange]
        · rwa [List.length_replicate]
        · exact fun hin => ha (Nat.lt_of_lt_of_le hin (by rw [hsize]; decide))
    · cases h
      refine ⟨fun s hs => ?_, fun _ _ => rfl⟩
      cases hs
      rw [← henc]
      exact not_not.1 hne
  | data newPart newPartSize =>
    cases h
    refine ⟨fun s hs => ?_, fun _ _ => rfl⟩
    cases hs
    rfl
  | array newPart =>
    rw [taken, Except.bind_eq_ok] at h
    obtain ⟨s, hs, h⟩ := h
    cases h
    refine ⟨fun s' hs' => ?_, fun _ _ => rfl⟩
    cases hs'
    exact enc_of_pathCString hs

/-- The call fails before it has written anything. -/
def NotBegun (part : NewPart) (dst : String) (newPartUTF8 : Ptr) (m : Mem) : Prop :=
  ∀ src m1, part.taken dst newPartUTF8 m = .ok (some src, m1) → NothingFits src dst m1

/-- The part is a plain one. -/
def Plain (part : NewPart) (dst : String) (newPartUTF8 : Ptr) (m : Mem) : Prop :=
  ∀ src m1, part.taken dst newPartUTF8 m = .ok (some src, m1) → PlainPart src dst m1

end NewPart

/-- A path, with a zero byte at its end. -/
structure IsPath (m : Mem) (dst : String) : Prop where
  enc_eq : dst.enc = .utf8
  cur_le : dst.writeCur ≤ dst.size
  zero : m.byte (dst.base + dst.writeCur) = 0

/-- The bytes of the path and the zero byte behind them are as they were. -/
def PathKept (dst : String) (m m' : Mem) : Prop :=
  ∀ i ≤ dst.writeCur, m'.byte (dst.base + i) = m.byte (dst.base + i)

/-- A path append that fails leaves the path as it was if it fails before it has written anything,
and for a plain part only then. -/
theorem failed_append_iff (part : NewPart) (m m' : Mem) (dst dst' : String)
    (newPartUTF8 : Ptr) (hdst : IsPath m dst)
    (hlocal : Apart newPartUTF8 maxPathSize.toNat dst.base (dst.size.toNat + 1))
    (hfail : part.append dst newPartUTF8 m = .ok (false, dst', m')) :
    dst' = dst ∧ (part.NotBegun dst newPartUTF8 m → PathKept dst m m') ∧
      (part.Plain dst newPartUTF8 m → (PathKept dst m m' ↔ part.NotBegun dst newPartUTF8 m)) := by
  have henc := hdst.enc_eq
  have hcur := UInt64.le_iff_toNat_le.1 hdst.cur_le
  rw [NewPart.append_eq, Except.bind_eq_ok] at hfail
  obtain ⟨⟨src, m1⟩, htaken, hfail⟩ := hfail
  obtain ⟨hsrc, hframe⟩ := NewPart.taken_ok henc htaken
  have hkept1 : PathKept dst m m1 := fun i hi => hframe _ fun hin => hlocal _ hin (inRange_add.2 (by
    have := UInt64.le_iff_toNat_le.1 hi
    omega))
  cases src with
  | none =>
    cases hfail
    have hnot : part.NotBegun dst newPartUTF8 m := by
      intro src m2 h
      rw [htaken] at h
      cases h
    exact ⟨rfl, fun _ => hkept1, fun _ => ⟨fun _ => hnot, fun _ => hkept1⟩⟩
  | some src =>
    have hsrc' := hsrc src rfl
    have hnot : part.NotBegun dst newPartUTF8 m → PathKept dst m m' := by
      intro hn
      rw [unchanged_of_nothingFits hsrc' henc (hn src m1 htaken) hfail]
      exact hkept1
    refine ⟨(unchecked_false hfail).1, hnot, fun hplain => ⟨fun hkept => ?_, hnot⟩⟩
    intro src' m2 h
    rw [htaken] at h
    cases h
    refine nothingFits_of_zero hsrc' henc hcur (hplain src m1 htaken) hfail ?_
    rw [hkept _ UInt64.le_rfl, hdst.zero]

/-! The path `a` with room for one byte, or for four, and the part `bcd`. -/

def letterMem : Mem where
  byte a := if a = 64 then 97 else if a = 128 then 98 else if a = 129 then 99
    else if a = 130 then 100 else 0
  readable _ := true
  writable _ := true

def letterPath (size : Usz) : String := { base := 64, writeCur := 1, size := size, enc := .utf8 }

def letterPart : String := { base := 128, writeCur := 3, size := 0, enc := .utf8 }

theorem isPath_letterPath {size : Usz} (hsize : 1 ≤ size) : IsPath letterMem (letterPath size) :=
  ⟨rfl, hsize, rfl⟩

/-- The bytes `bc` taken as one character of UTF-16, which is transcoded into the local array
first. -/
def utf16Part : String := { base := 128, writeCur := 2, size := 0, enc := .utf16le }

/-- The memory with the transcoded part in the local array at 256. -/
def letterTaken : Mem := (letterMem.store 256 (List.replicate 4096 0)).store 256 [0xe6, 0x8d, 0xa2]

theorem taken_utf16Part :
    (NewPart.string utf16Part).taken (letterPath 1) 256 letterMem =
      .ok (some ((path 256).grown 3), letterTaken) := by
  have hset :
      letterMem.memset 256 0 maxPathSize = .ok (letterMem.store 256 (List.replicate 4096 0)) :=
    Mem.writeBytes_eq (fun _ _ => rfl) (by rw [List.length_replicate]; decide)
  have hdst : Writable (letterMem.store 256 (List.replicate 4096 0)) (path 256) :=
    ⟨by decide, by decide, fun _ _ => rfl⟩
  have hbytes : Holds letterMem.read 128 [98, 99] := fun i hi => by
    have hlt : i.toNat < 2 := hi
    obtain rfl | rfl : i = 0 ∨ i = 1 := by
      rw [← UInt64.toNat_inj, ← UInt64.toNat_inj]
      show i.toNat = 0 ∨ i.toNat = 1
      omega
    · rfl
    · rfl
  have hsrc : HoldsText (letterMem.store 256 (List.replicate 4096 0)) utf16Part .utf16le ['换'] :=
    ⟨rfl, by decide,
      Mem.reads_store hbytes (apart_of_le (by decide) (by decide) : Apart 128 2 256 4096)
      (Nat.le_of_eq List.length_replicate)⟩
  have hrun := transcode_spec hdst (hsrc.sourceOf (apart_of_le (by decide) (by decide)))
  rw [hsrc.enc, hsrc.len, show (path 256).enc = encodingOf .utf8 from rfl, transcoded_encode]
    at hrun
  rw [NewPart.taken, if_pos (by decide), hset, Except.ok_bind, hrun.of_le (by decide)]
  rfl

/-- The local array is all that has changed. -/
theorem letterTaken_same : Mem.SameOutside 256 4096 letterMem letterTaken :=
  ((Mem.SameOutside.store letterMem fun _ h => h).mono (Nat.le_of_eq List.length_replicate)).trans
    ((Mem.SameOutside.store _ fun _ h => h).mono (by decide))

theorem failed_append_iff_full :
    (NewPart.string utf16Part).append (letterPath 1) 256 letterMem =
      .ok (false, letterPath 1, letterTaken) ∧
      letterMem.byte 256 = 0 ∧ letterTaken.byte 256 = 0xe6 ∧
      PathKept (letterPath 1) letterMem letterTaken := by
  have hlocal : Apart 256 maxPathSize.toNat (letterPath 1).base ((letterPath 1).size.toNat + 1) :=
    fun a ha hin => (apart_of_le (by decide) (by decide) : Apart 64 2 256 4096) a hin ha
  have hlast : letterTaken.byte ((letterPath 1).base + ((letterPath 1).writeCur - 1)) = 97 :=
    letterTaken_same.byte_eq 64 (by decide)
  have hread : letterTaken.read ((letterPath 1).base + ((letterPath 1).writeCur - 1)) = .ok 97 := by
    rw [Mem.read, hlast]
    rfl
  have hfail : (NewPart.string utf16Part).append (letterPath 1) 256 letterMem =
      .ok (false, letterPath 1, letterTaken) := by
    rw [NewPart.append_eq, taken_utf16Part, Except.ok_bind]
    dsimp only
    rw [appendPathToPathUnchecked, appendSeparator, if_pos (by decide), hread]
    rfl
  have hnot : (NewPart.string utf16Part).NotBegun (letterPath 1) 256 letterMem := by
    intro src m1 h
    rw [taken_utf16Part] at h
    cases h
    rw [NothingFits, if_pos ⟨by decide, by rw [hlast]; decide⟩]
    decide
  exact ⟨hfail, rfl, rfl,
    (failed_append_iff (.string utf16Part) letterMem letterTaken (letterPath 1) (letterPath 1) 256
    (isPath_letterPath (by decide)) hlocal hfail).2.1 hnot⟩

theorem appendPathToPath_not_kept :
    ∃ m', appendPathToPath letterPart (letterPath 4) letterMem = .ok (false, letterPath 4, m') ∧
    m'.byte 65 = 47 ∧ ¬ PathKept (letterPath 4) letterMem m' := by
  have hsep : appendSeparator (letterPath 4) letterMem = .ok (true, (letterPath 4).grown 1,
      letterMem.store 65 [47]) := by
    rw [Mem.store_singleton]
    rfl
  have hloop : whileLoop (joinStep letterPart) { tmp := (letterPath 4).grown 1,
                                                 m := letterMem.store 65 [47] } =
      .ok (true, [98, 99, 100].foldl JoinState.take { tmp := (letterPath 4).grown 1,
                                                      m := letterMem.store 65 [47] }) :=
    whileLoop_of_iterate 4 (by decide) rfl
  have hskip : skipSeparator letterPart (letterPath 4) (letterMem.store 65 [47]) = .ok letterPart :=
    rfl
  have hlast : appendLast letterPart ([98, 99, 100].foldl JoinState.take
      { tmp := (letterPath 4).grown 1, m := letterMem.store 65 [47] }) =
      .ok (false, (letterPath 4).grown 1, letterMem.store 65 [47]) := rfl
  refine ⟨letterMem.store 65 [47], ?_, rfl, fun hkept => ?_⟩
  · rw [appendPathToPath, if_pos ⟨rfl, by decide⟩, appendPathToPathUnchecked, hsep, Except.ok_bind]
    dsimp only
    rw [if_pos rfl, hskip, Except.ok_bind, hloop, Except.ok_bind]
    dsimp only
    rw [if_pos rfl, hlast]
    rfl
  · exact absurd (hkept 1 UInt64.le_rfl) (by decide)

end TinyBase
