import TinyBase.Paths
import TinyBase.Transcode

/-!
# What `_AppendPathToPath` does with the components of its new part

The loop reads the part byte by byte. `TakesComponent` is what it makes of a component and the slash
behind it, for a run that returns; nothing is assumed of the memory, so the part may lie anywhere.
-/

namespace TinyBase
open Unicode (leBytes)

/-- `Size - WriteCur`, as the appends compute it. -/
def spaceLeft (s : String) : Nat := (s.size - s.writeCur).toNat

/-- The bytes of a string. -/
def stringBytes (s : String) (m : Mem) : List UInt8 :=
  (List.range s.writeCur.toNat).map (m.bytesFrom s.base)

@[simp] theorem length_stringBytes (s : String) (m : Mem) :
    (stringBytes s m).length = s.writeCur.toNat := by
  simp [stringBytes]

/-- The result of copying `bs` behind `dst`: all of them, or nothing where they do not fit. -/
def Copied (dst : String) (m : Mem) (bs : List UInt8) (r : Bool) (dst' : String) (m' : Mem) :
    Prop :=
  if bs.length ≤ spaceLeft dst then r = true ∧ dst' = dst.grown bs.length ∧
    m' = m.store (dst.base + dst.writeCur) bs
  else r = false ∧ dst' = dst ∧ m' = m

section
variable {m m' : Mem} {src dst dst' : String} {bs : List UInt8} {r : Bool}

theorem Copied.of_false (h : Copied dst m bs false dst' m') :
    spaceLeft dst < bs.length ∧ dst' = dst ∧ m' = m := by
  rw [Copied] at h
  split_ifs at h with hfits
  · exact absurd h.1 (by decide)
  · exact ⟨Nat.lt_of_not_le hfits, h.2⟩

theorem Copied.of_true (h : Copied dst m bs true dst' m') :
    bs.length ≤ spaceLeft dst ∧ dst' = dst.grown bs.length ∧
      m' = m.store (dst.base + dst.writeCur) bs := by
  rw [Copied] at h
  split_ifs at h with hfits
  · exact ⟨hfits, h.2⟩
  · exact absurd h.1 (by decide)

theorem copied_of_appendToString {rd : Reader} {p : Ptr} {srcSize : Usz}
    (hlen : bs.length = srcSize.toNat)
    (hread : ∀ bs', readBytes rd p srcSize.toNat = .ok bs' → bs' = bs)
    (h : appendToString rd p srcSize dst m = .ok (r, dst', m')) : Copied dst m bs r dst' m' := by
  have hsize := srcSize.toNat_lt
  rw [appendToString, appendDataToBuffer, copyData] at h
  rw [Copied, hlen]
  by_cases hle : dst.size - dst.writeCur ≥ srcSize
  · rw [if_pos hle, Mem.memcpy] at h
    simp only [Except.bind_eq_ok] at h
    obtain ⟨⟨r1, dst1, m1⟩, ⟨⟨r2, m2⟩, ⟨m3, ⟨bs', hbs, hwrite⟩, h2⟩, h1⟩, h⟩ := h
    cases h2
    cases h1
    cases h
    rw [hread bs' hbs] at hwrite
    have hle' : srcSize.toNat ≤ spaceLeft dst := UInt64.le_iff_toNat_le.1 hle
    rw [if_pos hle']
    refine ⟨rfl, ?_, Mem.eq_of_writeBytes (by omega) hwrite⟩
    rw [String.grown, UInt64.ofNat_toNat]
  · rw [if_neg hle] at h
    cases h
    have hle' : ¬ srcSize.toNat ≤ spaceLeft dst := mt UInt64.le_iff_toNat_le.2 hle
    rw [if_neg hle']
    exact ⟨rfl, rfl, rfl⟩

theorem copied_of_appendStringToString (henc : src.enc = dst.enc)
    (h : appendStringToString src dst m = .ok (r, dst', m')) :
    Copied dst m (stringBytes src m) r dst' m' := by
  rw [appendStringToString, if_pos henc] at h
  exact copied_of_appendToString (length_stringBytes ..) (fun _ => Mem.eq_of_readBytes) h

theorem copied_of_appendCharToString (henc : dst.enc = .utf8)
    (h : appendCharToString 47 dst m = .ok (r, dst', m')) : Copied dst m [47] r dst' m' := by
  rw [appendCharToString, henc] at h
  have hslash : readBytes (localObject (leBytes 4 (adjustEndianness 47 .utf8).toNat)) 0
      (getMultibyteCharSize 47 .utf8).toUInt64.toNat = .ok [47] := by decide +kernel
  refine copied_of_appendToString (by decide +kernel) (fun bs' hbs => ?_) h
  rw [hslash] at hbs
  cases hbs
  rfl

end

/-! ### The components of the new part -/

section
variable {σ β : Type} {g : σ → β → σ}

theorem foldl_eq {α : Type} (f : σ → α) (hf : ∀ s b, f (g s b) = f s) (c : List β) (s : σ) :
    f (c.foldl g s) = f s := by
  induction c generalizing s with
  | nil => rfl
  | cons b c ih => rw [List.foldl_cons, ih, hf]

theorem foldl_add (f : σ → Usz) (k : Nat) (hf : ∀ s b, f (g s b) = f s + UInt64.ofNat k)
    (c : List β) (s : σ) : f (c.foldl g s) = f s + UInt64.ofNat (k * c.length) := by
  induction c generalizing s with
  | nil => simp
  | cons b c ih =>
    rw [List.foldl_cons, ih, hf, List.length_cons, Nat.mul_succ, UInt64.ofNat_add, UInt64.add_assoc,
      UInt64.add_comm (UInt64.ofNat k)]

end

section
variable {src : String} {st : JoinState} {res : Bool × JoinState} {c t : List UInt8}

theorem byte_of_getElem? {m : Mem} {i : Nat} {b : UInt8} (h : (stringBytes src m)[i]? = some b) :
    m.byte (src.base + UInt64.ofNat i) = b := by
  obtain ⟨hi, h⟩ := List.getElem?_eq_some_iff.1 h
  simpa [stringBytes, Mem.bytesFrom] using h

theorem getElem_stringBytes {m : Mem} {i : Nat} (hi : i < (stringBytes src m).length) :
    (stringBytes src m)[i] = m.byte (src.base + UInt64.ofNat i) := by
  simp [stringBytes, Mem.bytesFrom]

theorem stringBytes_window {m : Mem} {d : String} {off : Usz} (hbase : d.base = src.base + off)
    (hle : off.toNat + d.writeCur.toNat ≤ src.writeCur.toNat) :
    stringBytes d m = ((stringBytes src m).drop off.toNat).take d.writeCur.toNat := by
  refine List.ext_getElem (by simp; omega) fun k hk hk' => ?_
  rw [List.getElem_take, List.getElem_drop, getElem_stringBytes, getElem_stringBytes, hbase,
    UInt64.ofNat_add, UInt64.ofNat_toNat, UInt64.add_assoc]

/-- The bytes that are left begin with the one at `ReadIdx`. -/
theorem rest_cons {b : UInt8} (h : (stringBytes src st.m).drop st.readIdx.toNat = b :: t) :
    st.readIdx < src.writeCur ∧ st.m.byte (src.base + st.readIdx) = b ∧
      (stringBytes src st.m).drop (st.readIdx + 1).toNat = t := by
  have hlt : st.readIdx.toNat < (stringBytes src st.m).length := by
    by_contra hge
    rw [List.drop_of_length_le (Nat.le_of_not_lt hge)] at h
    cases h
  rw [List.drop_eq_getElem_cons hlt, List.cons.injEq, getElem_stringBytes, UInt64.ofNat_toNat] at h
  rw [length_stringBytes] at hlt
  have hcur := src.writeCur.toNat_lt
  have hnext : (st.readIdx + 1).toNat = st.readIdx.toNat + 1 := UInt64.toNat_add_one (by omega)
  rw [hnext]
  exact ⟨UInt64.lt_iff_toNat_lt.2 hlt, h⟩

theorem read_of_leaves (h : Leaves (joinStep src) st res) (hlt : st.readIdx < src.writeCur) :
    st.m.read (src.base + st.readIdx) = .ok (st.m.byte (src.base + st.readIdx)) := by
  obtain ⟨ctl, hctl⟩ := h.body_ok
  rw [joinStep, if_pos hlt, Except.bind_eq_ok] at hctl
  obtain ⟨b, hb, -⟩ := hctl
  rw [Mem.byte_of_read hb]
  exact hb

theorem leaves_takes (h : Leaves (joinStep src) st res)
    (hrest : (stringBytes src st.m).drop st.readIdx.toNat = c ++ t) (hc : 47 ∉ c) :
    Leaves (joinStep src) (c.foldl JoinState.take st) res := by
  induction c generalizing st with
  | nil => exact h
  | cons b c ih =>
    obtain ⟨hlt, hb, hrest'⟩ := rest_cons hrest
    rw [List.mem_cons, not_or] at hc
    refine ih (h.of_next ?_) hrest' hc.2
    rw [joinStep, if_pos hlt, read_of_leaves h hlt, hb, Except.ok_bind, if_neg (Ne.symm hc.1)]
    rfl

theorem foldl_take_eq {α : Type} (f : JoinState → α) (hf : ∀ st b, f (st.take b) = f st)
    (c : List UInt8) (st : JoinState) : f (c.foldl JoinState.take st) = f st := foldl_eq f hf c st

theorem foldl_take_tmp (c : List UInt8) (st : JoinState) :
    (c.foldl JoinState.take st).tmp = st.tmp :=
  foldl_take_eq (·.tmp) (fun _ _ => rfl) c st

theorem foldl_take_m (c : List UInt8) (st : JoinState) : (c.foldl JoinState.take st).m = st.m :=
  foldl_take_eq (·.m) (fun _ _ => rfl) c st

theorem foldl_take_add (f : JoinState → Usz) (hf : ∀ st b, f (st.take b) = f st + 1)
    (c : List UInt8) (st : JoinState) :
    f (c.foldl JoinState.take st) = f st + UInt64.ofNat c.length := by
  rw [foldl_add f 1 hf, Nat.one_mul]

theorem dirCharCount_foldl (hcount : st.dirCharCount = 0) (hlen : c.length < 2 ^ 64) :
    (c.foldl JoinState.take st).dirCharCount.toNat = c.length := by
  rw [foldl_take_add (·.dirCharCount) (fun _ _ => rfl), hcount,
    UInt64.zero_add, UInt64.toNat_ofNat']
  exact Nat.mod_eq_of_lt hlen

theorem dot_iff (hcount : st.dirCharCount = 0) (hlen : c.length < 2 ^ 64) :
    (c.foldl JoinState.take st).dirCharCount = 1 ∧ (c.foldl JoinState.take st).c2 = 46 ↔
      c = [46] := by
  rw [← UInt64.toNat_inj, dirCharCount_foldl hcount hlen]
  constructor
  · rintro ⟨h1, hdot⟩
    obtain ⟨b, rfl⟩ := List.length_eq_one_iff.1 h1
    exact congrArg ([·]) hdot
  · rintro rfl
    exact ⟨rfl, rfl⟩

theorem dots_iff (hcount : st.dirCharCount = 0) (hlen : c.length < 2 ^ 64) :
    (c.foldl JoinState.take st).dirCharCount = 2 ∧ (c.foldl JoinState.take st).c1 = 46 ∧
      (c.foldl JoinState.take st).c2 = 46 ↔ c = [46, 46] := by
  rw [← UInt64.toNat_inj, dirCharCount_foldl hcount hlen]
  constructor
  · rintro ⟨h2, hdot, hdot'⟩
    obtain ⟨a, b, rfl⟩ := List.length_eq_two.1 h2
    have ha : a = 46 := hdot
    have hb : b = 46 := hdot'
    rw [ha, hb]
  · rintro rfl
    exact ⟨rfl, rfl, rfl⟩

end

/-- What the loop makes of a component with a slash behind it: whether it goes on, and with which
path. -/
inductive TakesComponent (c : List UInt8) (tmp : String) (m : Mem) :
    Bool → String → Mem → Prop where
  | dot : c = [46] → TakesComponent c tmp m true tmp m
  | dots {r : Bool} {tmp' : String} : c = [46, 46] → moveUpPath tmp 1 m = .ok (r, tmp') →
      TakesComponent c tmp m true tmp' m
  | dirFails : c ≠ [46] → c ≠ [46, 46] → spaceLeft tmp < c.length →
      TakesComponent c tmp m false tmp m
  | slashFails : c ≠ [46] → c ≠ [46, 46] → c.length ≤ spaceLeft tmp →
      spaceLeft (tmp.grown c.length) < 1 →
      TakesComponent c tmp m false (tmp.grown c.length) (m.store (tmp.base + tmp.writeCur) c)
  | dir : c ≠ [46] → c ≠ [46, 46] → c.length ≤ spaceLeft tmp → 1 ≤ spaceLeft (tmp.grown c.length) →
      TakesComponent c tmp m true ((tmp.grown c.length).grown 1)
      ((m.store (tmp.base + tmp.writeCur) c).store
        ((tmp.grown c.length).base + (tmp.grown c.length).writeCur) [47])

/-- The loop is about to read the component at `i`. -/
structure JoinState.StartsAt (st : JoinState) (i : Nat) : Prop where
  count_eq : st.dirCharCount = 0
  start_eq : st.readStart = st.readIdx
  idx_eq : st.readIdx.toNat = i

section
variable {src : String} {st : JoinState} {res : Bool × JoinState} {c t : List UInt8} {i : Nat}

theorem length_component (hrest : (stringBytes src st.m).drop i = c ++ t) :
    i + c.length ≤ src.writeCur.toNat ∨ c = [] := by
  have hlen := congrArg List.length hrest
  rw [List.length_drop, length_stringBytes, List.length_append] at hlen
  rcases Nat.eq_zero_or_pos c.length with h0 | hpos
  · exact .inr (List.eq_nil_of_length_eq_zero h0)
  · exact .inl (by omega)

theorem length_component_lt (hrest : (stringBytes src st.m).drop i = c ++ t) :
    c.length < 2 ^ 64 := by
  have hcur := src.writeCur.toNat_lt
  rcases length_component hrest with h | rfl
  · omega
  · exact Nat.two_pow_pos 64

theorem stringBytes_dir (hst : st.StartsAt i) (hrest : (stringBytes src st.m).drop i = c ++ t) :
    stringBytes ((c.foldl JoinState.take st).dir src) st.m = c := by
  have hstart := foldl_take_eq (·.readStart) (fun _ _ => rfl) c st
  have hidx := foldl_take_add (·.readIdx) (fun _ _ => rfl) c st
  have hcur : ((c.foldl JoinState.take st).dir src).writeCur.toNat = c.length := by
    rw [JoinState.dir, hstart, hidx, hst.start_eq,
      UInt64.add_comm st.readIdx (UInt64.ofNat c.length), UInt64.add_sub_cancel,
      UInt64.toNat_ofNat']
    exact Nat.mod_eq_of_lt (length_component_lt hrest)
  refine List.ext_getElem (by rw [length_stringBytes, hcur]) fun k hk hk' => ?_
  have hbyte : (stringBytes src st.m)[i + k]? = some ((c)[k]) := by
    rw [← List.getElem?_drop, hrest, List.getElem?_append_left hk', List.getElem?_eq_getElem hk']
  rw [getElem_stringBytes, JoinState.dir, hstart, hst.start_eq, ← byte_of_getElem? hbyte,
    UInt64.ofNat_add, ← hst.idx_eq, UInt64.ofNat_toNat, UInt64.add_assoc]

theorem readIdx_foldl (hst : st.StartsAt i) (hrest : (stringBytes src st.m).drop i = c ++ t) :
    (c.foldl JoinState.take st).readIdx.toNat = i + c.length := by
  have hcur := src.writeCur.toNat_lt
  have hidx := st.readIdx.toNat_lt
  rw [foldl_take_add (·.readIdx) (fun _ _ => rfl), UInt64.toNat_add,
    hst.idx_eq, UInt64.toNat_ofNat', Nat.mod_eq_of_lt (length_component_lt hrest)]
  refine Nat.mod_eq_of_lt ?_
  rcases length_component hrest with hroom | rfl
  · omega
  · rw [← hst.idx_eq]
    exact hidx

/-- `st1` is at the slash behind the component `c` that began at `i` in `st`. -/
structure AtSlash (src : String) (st : JoinState) (c : List UInt8) (i : Nat) (st1 : JoinState) :
    Prop where
  tmp_eq : st1.tmp = st.tmp
  m_eq : st1.m = st.m
  lt : st1.readIdx < src.writeCur
  slash : st1.m.byte (src.base + st1.readIdx) = 47
  dot : st1.dirCharCount = 1 ∧ st1.c2 = 46 ↔ c = [46]
  dots : st1.dirCharCount = 2 ∧ st1.c1 = 46 ∧ st1.c2 = 46 ↔ c = [46, 46]
  start_eq : st1.readStart.toNat = i
  dir_eq : stringBytes (st1.dir src) st.m = c
  next_eq : (st1.readIdx + 1).toNat = i + c.length + 1

theorem AtSlash.le_writeCur {st1 : JoinState} (h : AtSlash src st c i st1) :
    i + c.length + 1 ≤ src.writeCur.toNat := by
  have hlt := UInt64.lt_iff_toNat_lt.1 h.lt
  have hnext := h.next_eq
  rw [UInt64.toNat_add_one (by have := src.writeCur.toNat_lt; omega)] at hnext
  omega

theorem atSlash (hst : st.StartsAt i) (hrest : (stringBytes src st.m).drop i = c ++ 47 :: t) :
    AtSlash src st c i (c.foldl JoinState.take st) := by
  have hlen := length_component_lt hrest
  have hm := foldl_take_m c st
  have hidx := readIdx_foldl hst hrest
  have hrest1 : (stringBytes src (c.foldl JoinState.take st).m).drop
      (c.foldl JoinState.take st).readIdx.toNat = 47 :: t := by
    rw [hm, hidx, ← List.drop_drop, hrest, List.drop_left]
  obtain ⟨hlt, hslash, -⟩ := rest_cons hrest1
  have hlt' := UInt64.lt_iff_toNat_lt.1 hlt
  have hcur := src.writeCur.toNat_lt
  refine ⟨foldl_take_tmp c st, hm, hlt, hslash, dot_iff hst.count_eq hlen,
    dots_iff hst.count_eq hlen, ?_, stringBytes_dir hst hrest, ?_⟩
  · rw [foldl_take_eq (·.readStart) (fun _ _ => rfl), hst.start_eq, hst.idx_eq]
  · rw [UInt64.toNat_add_one (by omega), hidx]

/-- The loop reads a component and the slash behind it. -/
theorem leaves_component (henc : st.tmp.enc = .utf8) (hsrc : src.enc = .utf8) (hst : st.StartsAt i)
    (hrest : (stringBytes src st.m).drop i = c ++ 47 :: t) (hc : 47 ∉ c)
    (h : Leaves (joinStep src) st res) : ∃ r tmp' m', TakesComponent c st.tmp st.m r tmp' m' ∧
      if r then ∃ st' : JoinState, st'.StartsAt (i + c.length + 1) ∧ st'.tmp = tmp' ∧ st'.m = m' ∧
      Leaves (joinStep src) st' res
      else res.1 = false ∧ res.2.m = m' := by
  have h1 := leaves_takes h (by rw [hst.idx_eq]; exact hrest) hc
  have hat := atSlash hst hrest
  have hnext : ∀ tmp' m', ((c.foldl JoinState.take st).slash tmp' m').StartsAt (i + c.length + 1) :=
    fun _ _ => ⟨rfl, rfl, hat.next_eq⟩
  generalize c.foldl JoinState.take st = st1 at *
  have hdir := hat.dir_eq
  obtain ⟨ctl, hctl⟩ := h1.body_ok
  have hbody := hctl
  rw [joinStep, if_pos hat.lt, read_of_leaves h1 hat.lt, hat.slash, Except.ok_bind, if_pos rfl]
    at hbody
  by_cases hd : st1.dirCharCount = 1 ∧ st1.c2 = 46
  · rw [if_pos hd] at hbody
    cases hbody
    exact ⟨true, _, _, .dot (hat.dot.1 hd), _, hnext _ _, hat.tmp_eq, hat.m_eq, h1.of_next hctl⟩
  · rw [if_neg hd] at hbody
    by_cases hdd : st1.dirCharCount = 2 ∧ st1.c1 = 46 ∧ st1.c2 = 46
    · rw [if_pos hdd, Except.bind_eq_ok] at hbody
      obtain ⟨⟨r, tmp'⟩, hup, hbody⟩ := hbody
      cases hbody
      rw [hat.tmp_eq, hat.m_eq] at hup
      exact ⟨true, _, _, .dots (hat.dots.1 hdd) hup, _, hnext _ _, rfl, hat.m_eq, h1.of_next hctl⟩
    · rw [if_neg hdd, Except.bind_eq_ok] at hbody
      obtain ⟨⟨r, tmp1, m1⟩, happ, hbody⟩ := hbody
      rw [hat.tmp_eq, hat.m_eq] at happ
      have hcopied :=
        @copied_of_appendStringToString _ _ (st1.dir src) _ _ _ (hsrc.trans henc.symm) happ
      rw [hdir] at hcopied
      have hne := mt hat.dot.2 hd
      have hne' := mt hat.dots.2 hdd
      cases r with
      | false =>
        cases hbody
        obtain ⟨hlong, rfl, rfl⟩ := hcopied.of_false
        refine ⟨false, _, _, .dirFails hne hne' hlong, ?_⟩
        rw [h1.of_done hctl]
        exact ⟨rfl, rfl⟩
      | true =>
        obtain ⟨hfits, rfl, rfl⟩ := hcopied.of_true
        dsimp only at hbody
        rw [if_pos rfl, Except.bind_eq_ok] at hbody
        obtain ⟨⟨r, tmp2, m2⟩, happ', hbody⟩ := hbody
        have henc' : (st.tmp.grown c.length).enc = .utf8 := henc
        have hcopied' := copied_of_appendCharToString henc' happ'
        cases r with
        | false =>
          cases hbody
          obtain ⟨hlong, rfl, rfl⟩ := hcopied'.of_false
          refine ⟨false, _, _, .slashFails hne hne' hfits hlong, ?_⟩
          rw [h1.of_done hctl]
          exact ⟨rfl, rfl⟩
        | true =>
          cases hbody
          obtain ⟨hfits', rfl, rfl⟩ := hcopied'.of_true
          exact ⟨true, _, _, .dir hne hne' hfits hfits', _, hnext _ _, rfl, rfl, h1.of_next hctl⟩

theorem leaves_last (hst : st.StartsAt i) (hrest : (stringBytes src st.m).drop i = c) (hc : 47 ∉ c)
    (h : Leaves (joinStep src) st res) : res = (true, c.foldl JoinState.take st) := by
  have hrest' : (stringBytes src st.m).drop i = c ++ [] := by rw [List.append_nil, hrest]
  have h1 := leaves_takes h (by rw [hst.idx_eq]; exact hrest') hc
  have hidx := readIdx_foldl hst hrest'
  have hlen := congrArg List.length hrest
  rw [List.length_drop, length_stringBytes] at hlen
  refine h1.of_done ?_
  rw [joinStep, if_neg (by rw [UInt64.lt_iff_toNat_lt, hidx]; omega)]
  rfl

theorem rest_next {l : List UInt8} (h : l.drop i = c ++ 47 :: t) :
    l.drop (i + c.length + 1) = t := by
  rw [← List.drop_drop, ← List.drop_drop, h, List.drop_left]
  rfl

end

/-- `MoveUpPath` changes nothing but `WriteCur`. -/
theorem moveUpPath_enc {path path' : String} {count : Usz} {m : Mem} {r : Bool}
    (h : moveUpPath path count m = .ok (r, path')) : path'.enc = path.enc := by
  rw [moveUpPath, Except.bind_eq_ok] at h
  obtain ⟨last, -, h⟩ := h
  dsimp only at h
  rw [Except.bind_eq_ok] at h
  obtain ⟨path1, hloop, h⟩ := h
  cases h
  have henc : path1.enc = path.enc := by
    refine of_whileLoop_ok (Q := fun p => p.enc = path.enc)
      (fun st => st.1.enc = path.enc) ?_ ?_ hloop
    · rintro ⟨p, k⟩ ctl hp hctl
      dsimp only at hctl
      split_ifs at hctl
      · rw [Except.bind_eq_ok] at hctl
        obtain ⟨idx, -, hctl⟩ := hctl
        split_ifs at hctl <;>
        · cases hctl
          exact hp
      · cases hctl
        exact hp
    · show (if last = 47 then { path with writeCur := path.writeCur - 1 } else path).enc = path.enc
      split_ifs <;> rfl
  split_ifs
  · exact henc
  · exact henc

/-! ### The function -/

/-- `Dst` is not empty and does not end in a slash. -/
def NeedsSeparator (dst : String) (m : Mem) : Prop :=
  dst.writeCur > 0 ∧ m.byte (dst.base + (dst.writeCur - 1)) ≠ 47

instance (dst : String) (m : Mem) : Decidable (NeedsSeparator dst m) :=
  inferInstanceAs (Decidable (_ ∧ _))

/-- `Src` without the slash in front of it that a path behind another one does not need. -/
def behindSlash (src dst : String) (m : Mem) : String :=
  if dst.writeCur > 0 ∧ m.byte src.base = 47 then
    { src with toBuffer := advanceBuffer src.toBuffer 1 } else src

/-- The components of the new part. -/
def components (src dst : String) (m : Mem) : List (List UInt8) :=
  (stringBytes (behindSlash src dst m) m).splitOn 47

theorem not_mem_of_mem_splitOn {l c : List UInt8} (hc : c ∈ l.splitOn 47) : 47 ∉ c := by
  induction l generalizing c with
  | nil =>
    rw [List.splitOn_nil, List.mem_singleton] at hc
    rw [hc]
    exact List.not_mem_nil
  | cons b l ih =>
    rw [List.splitOn_cons_eq_if_modifyHead] at hc
    split_ifs at hc with hb
    · rcases List.mem_cons.1 hc with rfl | hc
      · exact List.not_mem_nil
      · exact ih hc
    · obtain ⟨d, ds, hds⟩ := List.exists_cons_of_ne_nil (List.splitOn_ne_nil 47 l)
      rw [hds, List.modifyHead_cons] at hc
      rcases List.mem_cons.1 hc with rfl | hc
      · rw [List.mem_cons, not_or]
        exact ⟨fun h => hb (beq_iff_eq.2 h.symm), ih (hds ▸ List.mem_cons_self)⟩
      · exact ih (hds ▸ List.mem_cons_of_mem d hc)

section
variable {m m' : Mem} {src dst dst' : String}

theorem appendSeparator_ok (henc : dst.enc = .utf8) {r : Bool}
    (h : appendSeparator dst m = .ok (r, dst', m')) :
    NeedsSeparator dst m ∧ Copied dst m [47] r dst' m' ∨ ¬ NeedsSeparator dst m ∧
      r = true ∧ dst' = dst ∧ m' = m := by
  rw [appendSeparator] at h
  by_cases hcur : dst.writeCur > 0
  · rw [if_pos hcur, Except.bind_eq_ok] at h
    obtain ⟨last, hlast, h⟩ := h
    rw [← Mem.byte_of_read hlast] at h
    split_ifs at h with hslash
    · exact .inl ⟨⟨hcur, hslash⟩, copied_of_appendCharToString henc h⟩
    · cases h
      exact .inr ⟨fun hneeds => hslash hneeds.2, rfl, rfl, rfl⟩
  · rw [if_neg hcur] at h
    cases h
    exact .inr ⟨fun hneeds => hcur hneeds.1, rfl, rfl, rfl⟩

theorem behindSlash_of_skipSeparator {src' : String} (h : skipSeparator src dst m = .ok src') :
    src' = behindSlash src dst m := by
  rw [skipSeparator] at h
  rw [behindSlash]
  by_cases hcur : dst.writeCur > 0
  · rw [if_pos hcur, Except.bind_eq_ok] at h
    obtain ⟨first, hfirst, h⟩ := h
    rw [← Mem.byte_of_read hfirst] at h
    split_ifs at h with hslash
    · cases h
      rw [if_pos ⟨hcur, hslash⟩]
    · cases h
      rw [if_neg fun hboth => hslash hboth.2]
  · rw [if_neg hcur] at h
    cases h
    rw [if_neg fun hboth => hcur hboth.1]

theorem behindSlash_enc (src dst : String) (m : Mem) : (behindSlash src dst m).enc = src.enc := by
  rw [behindSlash]
  split_ifs <;> rfl

/-- Where `_AppendPathToPath` can fail: at the separator, in the loop, or at the component behind
it. -/
theorem unchecked_false (h : appendPathToPathUnchecked src dst m = .ok (false, dst', m')) :
    dst' = dst ∧ ∃ r tmp m1,
    appendSeparator dst m = .ok (r, tmp, m1) ∧ if r then ∃ res : Bool × JoinState,
      Leaves (joinStep (behindSlash src dst m1)) { tmp := tmp, m := m1 } res ∧
        if res.1 then res.2.dirCharCount ≠ 0 ∧ ∃ tmp2,
          appendStringToString (res.2.dir (behindSlash src dst m1)) res.2.tmp res.2.m =
          .ok (false, tmp2, m')
        else m' = res.2.m
      else m' = m1 := by
  rw [appendPathToPathUnchecked, Except.bind_eq_ok] at h
  obtain ⟨⟨r, tmp, m1⟩, hsep, h⟩ := h
  dsimp only at h
  cases r with
  | false =>
    cases h
    exact ⟨rfl, _, _, _, hsep, rfl⟩
  | true =>
    rw [if_pos rfl, Except.bind_eq_ok] at h
    obtain ⟨src', hskip, h⟩ := h
    obtain rfl := behindSlash_of_skipSeparator hskip
    rw [Except.bind_eq_ok] at h
    obtain ⟨⟨result, st⟩, hloop, h⟩ := h
    dsimp only at h
    cases result with
    | false =>
      cases h
      exact ⟨rfl, _, _, _, hsep, _, leaves_of_whileLoop hloop, rfl⟩
    | true =>
      rw [if_pos rfl, Except.bind_eq_ok] at h
      obtain ⟨⟨r2, tmp2, m2⟩, happ, h⟩ := h
      dsimp only at h
      cases r2 with
      | true =>
        rw [if_pos rfl, Except.bind_eq_ok] at h
        obtain ⟨m3, -, h⟩ := h
        cases h
      | false =>
        cases h
        rw [appendLast] at happ
        split_ifs at happ with hcount
        · refine ⟨rfl, _, _, _, hsep, _, leaves_of_whileLoop hloop, ?_, _, happ⟩
          exact fun h0 => absurd hcount (by rw [h0]; decide)
        · cases happ

end

end TinyBase
