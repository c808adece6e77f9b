import TinyBase.StringLen
import TinyBase.Transcode

/-!
# Reading behind the end of a string

The loops over the characters of a string ask whether a character begins in front of `WriteCur`, not
whether it ends there. In a memory in which only the bytes of the string can be read, a loop returns
exactly if none of the characters it gets to is cut off (`Walk.Uncut`).
-/

namespace TinyBase
open Unicode

/-- A walk over the bytes of a string: the places it may be at, the index of a place, the number of
bytes read there, and the place it goes on to, if it does. -/
structure Walk (π : Type) where
  start : π
  idx : π → Nat
  size : π → Nat
  next : π → Option π

namespace Walk
variable {π : Type}

/-- The places a walk gets to. -/
inductive Stop (W : Walk π) : π → Prop where
  | start : Stop W W.start
  | next {p q : π} : Stop W p → W.next p = some q → Stop W q

/-- Wherever the walk stops in front of `n`, the bytes read there are in front of `n` too. -/
def Uncut (W : Walk π) (n : Nat) : Prop := ∀ p, W.Stop p → W.idx p < n → W.idx p + W.size p ≤ n

end Walk

/-- The memory `m` in which only the `n` bytes from `base` can be read. -/
def Mem.fenced (m : Mem) (base : Ptr) (n : Nat) : Mem :=
  { m with readable := fun a => decide (InRange base n a) }

section
variable {π σ ρ : Type} {W : Walk π} {body : σ → Res (Ctl σ ρ)} {n : Nat} {s : σ}

/-- A loop that is at the places of a walk, and fails exactly where the walk is cut, returns exactly
if it is not. -/
theorem wp_whileLoop_iff_uncut (At : π → σ → Prop) (μ : σ → Nat)
    (hstart : At W.start s) (hn : n < 2 ^ 64) (hμ : ∀ p s, At p s → μ s = n - W.idx p)
    (hnext : ∀ p q, W.next p = some q → W.idx p < W.idx q)
    (hdone : ∀ p s, At p s → n ≤ W.idx p → ∃ r, body s = .ok (.done r))
    (hcut : ∀ p s, At p s → W.idx p < n → n < W.idx p + W.size p → ∃ e, body s = .error e)
    (hround : ∀ p s, At p s → W.idx p < n → W.idx p + W.size p ≤ n →
      (∃ q s', W.next p = some q ∧ body s = .ok (.next s') ∧ At q s') ∨
      (W.next p = none ∧ ∃ r, body s = .ok (.done r))) :
    (whileLoop body s).wp (fun _ => True) ↔ W.Uncut n := by
  constructor
  · intro h
    obtain ⟨r, hr, -⟩ := Except.wp_iff.1 h
    have hok : ∀ {s'}, Rounds body s s' → ∃ c, body s' = .ok c :=
      fun hs' => whileLoop_ok_of_rounds hr hs'
    have huncut : ∀ {p s'}, Rounds body s s' → At p s' → W.idx p < n → W.idx p + W.size p ≤ n := by
      intro p s' hs' hat hlt
      refine Nat.le_of_not_lt fun hgt => ?_
      obtain ⟨c, hc⟩ := hok hs'
      obtain ⟨e, he⟩ := hcut p s' hat hlt hgt
      rw [hc] at he
      cases he
    have hreach : ∀ p, W.Stop p → W.idx p < n → ∃ s', Rounds body s s' ∧ At p s' := by
      intro p hp
      induction hp with
      | start => exact fun _ => ⟨s, .refl, hstart⟩
      | next _ hpq ih =>
        intro hlt
        have hlt' := Nat.lt_trans (hnext _ _ hpq) hlt
        obtain ⟨s', hs', hat⟩ := ih hlt'
        rcases hround _ _ hat hlt' (huncut hs' hat hlt') with ⟨q, s'', hq, hbody, hat'⟩ | ⟨hnone, -⟩
        · rw [hpq] at hq
          cases hq
          exact ⟨s'', hs'.next hbody, hat'⟩
        · rw [hpq] at hnone
          cases hnone
    intro p hp hlt
    obtain ⟨s', hs', hat⟩ := hreach p hp hlt
    exact huncut hs' hat hlt
  · intro huncut
    refine wp_whileLoop (fun s => ∃ p, W.Stop p ∧ At p s) μ ?_ s ⟨W.start, .start, hstart⟩ ?_
    · rintro s ⟨p, hp, hat⟩
      rcases Nat.lt_or_ge (W.idx p) n with hlt | hge
      · rcases hround p s hat hlt (huncut p hp hlt) with ⟨q, s', hq, hbody, hat'⟩ | ⟨-, r, hbody⟩
        · rw [hbody]
          refine ⟨⟨q, hp.next hq, hat'⟩, ?_⟩
          have := hnext p q hq
          rw [hμ p s hat, hμ q s' hat']
          omega
        · rw [hbody]
          trivial
      · obtain ⟨r, hbody⟩ := hdone p s hat hge
        rw [hbody]
        trivial
    · rw [hμ _ _ hstart]
      omega

end

/-! ### The fence -/

section
variable {m : Mem} {base : Ptr} {n i : Nat} {f : Nat → UInt8} {E : Encoding}

/-- What a loop needs to know of the memory: of the bytes from `base` on, those below `n` can be
read and are those of `f`; no object reaches to the end of the address space. -/
structure Fence (m : Mem) (base : Ptr) (n : Nat) (f : Nat → UInt8) : Prop where
  small : base.toNat + n + 4 < 2 ^ 64
  byte : ∀ i < n, m.byte (base + UInt64.ofNat i) = f i
  readable : ∀ a, m.readable a ↔ InRange base n a

theorem Fence.readable_iff (h : Fence m base n f) (hi : i ≤ n + 4) :
    m.readable (base + UInt64.ofNat i) ↔ i < n := by
  have hsmall := h.small
  rw [h.readable, inRange_add, UInt64.toNat_ofNat_of_lt_two_pow (by omega)]

theorem Fence.read_eq (h : Fence m base n f) (hi : i < n) :
    m.read (base + UInt64.ofNat i) = .ok (f i) := by
  rw [Mem.read, if_pos ((h.readable_iff (by omega)).2 hi), h.byte i hi]

theorem Fence.read_error (h : Fence m base n f) (hi : n ≤ i) (hi' : i ≤ n + 4) :
    m.read (base + UInt64.ofNat i) = .error (.read (base + UInt64.ofNat i)) := by
  rw [Mem.read, if_neg fun hr => Nat.not_le.2 ((h.readable_iff hi').1 hr) hi]

theorem Fence.reads (h : Fence m base n f) {k : Nat} (hk : i + k ≤ n) :
    Reads m.read (base + UInt64.ofNat i) k (shift f i) := by
  intro j hj
  have hsmall := h.small
  have hij : UInt64.ofNat i + j = UInt64.ofNat (i + j.toNat) := by
    rw [UInt64.ofNat_add, UInt64.ofNat_toNat]
  rw [UInt64.add_assoc, hij, h.read_eq (by omega)]
  rfl

theorem Fence.readBytes_error (h : Fence m base n f) {k : Nat} (hi : i ≤ n)
    (hk : n < i + k) (hk4 : i + k ≤ n + 4) :
    ∃ e, readBytes m.read (base + UInt64.ofNat i) k = .error e := by
  induction k generalizing i with
  | zero => omega
  | succ k ih =>
    rcases Nat.eq_or_lt_of_le hi with rfl | hlt
    · exact ⟨_, by rw [readBytes, h.read_error (Nat.le_refl _) (by omega)]; rfl⟩
    · obtain ⟨e, he⟩ := ih (i := i + 1) (by omega) (by omega) (by omega)
      have hnext : base + UInt64.ofNat i + 1 = base + UInt64.ofNat (i + 1) := by
        rw [UInt64.ofNat_add, UInt64.add_assoc]; rfl
      exact ⟨e, by rw [readBytes, h.read_eq hlt, Except.ok_bind, hnext, he]; rfl⟩

theorem Fence.getNextCharSize_eq (h : Fence m base n f) (hi : i < n) :
    getNextCharSize m.read (base + UInt64.ofNat i) E = .ok (nextCharSize (shift f i) E) ∨
      (n < i + (nextCharSize (shift f i) E).toNat ∧
        ∃ e, getNextCharSize m.read (base + UInt64.ofNat i) E = .error e) := by
  have h0 : m.read (base + UInt64.ofNat i) = .ok (shift f i 0) := h.read_eq hi
  have hnext : base + UInt64.ofNat i + 1 = base + UInt64.ofNat (i + 1) := by
    rw [UInt64.ofNat_add, UInt64.add_assoc]; rfl
  cases E with
  | ascii | utf32le | utf32be => exact .inl rfl
  | utf8 | utf16be => exact .inl (by rw [getNextCharSize, h0]; rfl)
  | utf16le =>
    rcases Nat.lt_or_ge (i + 1) n with hlt | hge
    · exact .inl (by rw [getNextCharSize, hnext, h.read_eq hlt]; rfl)
    · have htwo : 1 < (nextCharSize (shift f i) .utf16le).toNat := by
        simp only [nextCharSize, utf16LECharSize, utf16CharSize]; split_ifs <;> decide
      exact .inr ⟨by omega, _, by rw [getNextCharSize, hnext, h.read_error hge (by omega)]; rfl⟩

/-- `GetNextChar` returns exactly if the character ends in front of the fence. -/
theorem Fence.getNextChar_eq (h : Fence m base n f)
    (hfits : i + (nextCharSize (shift f i) E).toNat ≤ n) :
    getNextChar m.read (base + UInt64.ofNat i) E = .ok (nextChar (shift f i) E) :=
  TinyBase.getNextChar_eq (h.reads hfits)

theorem Fence.getNextChar_error (h : Fence m base n f) (hi : i < n)
    (hcut : n < i + (nextCharSize (shift f i) E).toNat) :
    ∃ e, getNextChar m.read (base + UInt64.ofNat i) E = .error e := by
  have hle := (nextCharSize_le (shift f i) E).2
  rw [getNextChar]
  rcases h.getNextCharSize_eq hi (E := E) with hsize | ⟨-, e, he⟩
  · obtain ⟨e, he⟩ := h.readBytes_error (Nat.le_of_lt hi) hcut (by omega)
    exact ⟨e, by rw [hsize, Except.ok_bind, he]; rfl⟩
  · exact ⟨e, by rw [he]; rfl⟩

/-- What is stored apart from the string leaves the fence as it is. -/
theorem Fence.store (h : Fence m base n f) {q : Ptr} {bs : List UInt8}
    (hapart : Apart base n q bs.length) : Fence (m.store q bs) base n f where
  small := h.small
  byte i hi := by
    have hsmall := h.small
    have hin : InRange base n (base + UInt64.ofNat i) := by
      rw [inRange_add, UInt64.toNat_ofNat_of_lt_two_pow (by omega)]
      exact hi
    rw [Mem.store_byte_of_not_inRange (hapart _ hin), h.byte i hi]
  readable := h.readable

theorem fence_fenced (m : Mem) (hsmall : base.toNat + n + 4 < 2 ^ 64) :
    Fence (m.fenced base n) base n (m.bytesFrom base) where
  small := hsmall
  byte _ _ := rfl
  readable a := by simp [Mem.fenced]

end

/-! ### `StringLen` -/

/-- A walk over the indices that moves on from `i` by `step i`. -/
def indexWalk (size step : Nat → Nat) : Walk Nat where
  start := 0
  idx i := i
  size := size
  next i := some (i + step i)

/-- The walk of the loops that count code points. The size of a UTF-16LE character is in its second
byte. -/
def codePointWalk (E : Encoding) (f : Nat → UInt8) : Walk Nat :=
  indexWalk (fun _ => if E = .utf16le then 2 else 1) fun i =>
    if E = .utf16le ∨ E = .utf16be then (nextCharSize (shift f i) E).toNat else 1

/-- The word of the character `f` in the loops that count printable characters. -/
def printChar (E : Encoding) (f : Nat → UInt8) : UInt32 :=
  packChars (swapUnits E f) (nextCharSize f E)

/-- How far these loops move on from it. -/
def printStep (E : Encoding) (f : Nat → UInt8) : UInt32 :=
  match E with
  | .utf16le | .utf16be => if printChar E f > 0xFFFF then 4 else 2
  | _ => nextCharSize f E

/-- The walk of the loops that count printable characters. -/
def printWalk (E : Encoding) (f : Nat → UInt8) : Walk Nat :=
  indexWalk (fun i => (nextCharSize (shift f i) E).toNat) fun i => (printStep E (shift f i)).toNat

section
variable {start stop base : Usz} {n : Nat} {size step : Nat → Nat}
  {charAt : Usz → Res (Bool × UInt32)}

/-- What a loop needs to know of the function that looks at a character. -/
structure LooksAt (charAt : Usz → Res (Bool × UInt32)) (start : Usz) (n : Nat)
    (size step : Nat → Nat) : Prop where
  bound : ∀ i, 0 < step i ∧ step i ≤ 4
  error : ∀ i < n, n < i + size i → ∃ e, charAt (start + UInt64.ofNat i) = .error e
  ok : ∀ i < n, i + size i ≤ n → ∃ b w, charAt (start + UInt64.ofNat i) = .ok (b, w) ∧
    w.toNat = step i

theorem countLoop_iff (hstop : start.toNat + n = stop.toNat) (hsmall : stop.toNat + 4 < 2 ^ 64)
    (h : LooksAt charAt start n size step) :
    (countLoop start stop charAt).wp (fun _ => True) ↔ (indexWalk size step).Uncut n := by
  have hcur : ∀ i, i < n + 4 → (start + UInt64.ofNat i).toNat = start.toNat + i := fun i hi =>
    UInt64.toNat_add_ofNat (by omega)
  have hlt : ∀ i, i < n + 4 → (start + UInt64.ofNat i < stop ↔ i < n) := fun i hi => by
    rw [UInt64.lt_iff_toNat_lt, hcur i hi]
    omega
  refine wp_whileLoop_iff_uncut (fun i s => i < n + 4 ∧ s.1 = start + UInt64.ofNat i)
    (fun s => n + start.toNat - s.1.toNat)
      ⟨Nat.succ_pos _, by simp [indexWalk]⟩ (by omega) ?_ ?_ ?_ ?_ ?_
  · rintro i ⟨cur, result⟩ ⟨hi, rfl⟩
    rw [hcur i hi]
    show n + start.toNat - (start.toNat + i) = n - i
    omega
  · rintro i j hij
    cases hij
    exact Nat.lt_add_of_pos_right (h.bound i).1
  · rintro i ⟨cur, result⟩ ⟨hi, rfl⟩ hge
    exact ⟨result, if_neg fun hlt' => Nat.not_lt.2 hge ((hlt i hi).1 hlt')⟩
  · rintro i ⟨cur, result⟩ ⟨hi, rfl⟩ hin hcut
    obtain ⟨e, he⟩ := h.error i hin hcut
    refine ⟨e, ?_⟩
    dsimp only
    rw [if_pos ((hlt i hi).2 hin), he]
    rfl
  · rintro i ⟨cur, result⟩ ⟨hi, rfl⟩ hin hfits
    obtain ⟨b, w, hb, hw⟩ := h.ok i hin hfits
    have hstep := (h.bound i).2
    have hin : i < n := hin
    refine .inl ⟨i + step i, (start + UInt64.ofNat i + w.toUInt64, if b then result + 1
      else result), rfl, ?_, by omega, ?_⟩
    · dsimp only
      rw [if_pos ((hlt i hi).2 hin), hb]
      rfl
    · dsimp only
      rw [← hw, UInt64.ofNat_add, UInt64.ofNat_uInt32ToNat, UInt64.add_assoc]

/-- Nothing is cut off when no more than one byte is looked at. -/
theorem uncut_of_size_le_one (h : ∀ i, size i ≤ 1) : (indexWalk size step).Uncut n :=
  fun i _ hi => by
  have := h i
  show i + size i ≤ n
  have hi : i < n := hi
  omega

end

section
variable {m : Mem} {a : String} {n : Nat} {f : Nat → UInt8}

theorem printStep_le (E : Encoding) (f : Nat → UInt8) :
    0 < (printStep E f).toNat ∧ (printStep E f).toNat ≤ 4 := by
  cases E with
  | ascii | utf8 | utf32le | utf32be => exact nextCharSize_le f _
  | utf16le | utf16be => simp only [printStep]; split_ifs <;> decide

theorem packChars_congr {g : Nat → UInt8} (E : Encoding)
    (h : ∀ i < (nextCharSize f E).toNat, g i = f i) :
    packChars (swapUnits E g) (nextCharSize f E) =
      packChars (swapUnits E f) (nextCharSize f E) := by
  cases E with
  | ascii => simp only [nextCharSize, packChars, swapUnits, if_true] at h ⊢; rw [h 0 (by decide)]
  | utf32le | utf32be =>
    simp only [nextCharSize, packChars, swapUnits] at h ⊢
    rw [h 0 (by decide), h 1 (by decide), h 2 (by decide), h 3 (by decide)]
  | utf8 =>
    simp only [nextCharSize, utf8CharSize, packChars, swapUnits] at h ⊢
    split_ifs at h ⊢ <;> simp_all
  | utf16le | utf16be =>
    simp only [nextCharSize, utf16LECharSize, utf16BECharSize, utf16CharSize, packChars, swapUnits]
      at h ⊢
    split_ifs at h ⊢ <;> simp_all

/-- A round of the loops that count printable characters, when the character can be read. -/
theorem printCharAt_eq {ptr : Ptr} (E : Encoding)
    (h : Reads m.read ptr (nextCharSize f E).toNat f) :
    printCharAt E m ptr = .ok (isPrintable (printChar E f), printStep E f) := by
  have hle : (nextCharSize f E).toNat ≤ 2 ^ 64 := Nat.le_trans (nextCharSize_le _ E).2 (by decide)
  have hword := packChars_congr (f := f) E (g := fun j =>
    ((List.range (nextCharSize f E).toNat).map f).getD j 0)
    fun j hj => by simp [List.getD_eq_getElem?_getD, hj]
  rw [printCharAt, TinyBase.getNextCharSize_eq h, Except.ok_bind,
    readBytes_eq h hle, Except.ok_bind]
  simp only [hword]
  cases E <;> rfl

theorem printCharAt_looksAt (h : Fence m a.base n f) (E : Encoding) :
    LooksAt (printCharAt E m) a.base n
    (fun i => (nextCharSize (shift f i) E).toNat) fun i => (printStep E (shift f i)).toNat where
  bound i := printStep_le E _
  error i hi hcut := by
    have hle := (nextCharSize_le (shift f i) E).2
    rw [printCharAt]
    rcases h.getNextCharSize_eq hi (E := E) with hsize | ⟨-, e, he⟩
    · obtain ⟨e, he⟩ := h.readBytes_error (Nat.le_of_lt hi) hcut (by omega)
      exact ⟨e, by rw [hsize, Except.ok_bind, he]; rfl⟩
    · exact ⟨e, by rw [he]; rfl⟩
  ok i _ hfits := ⟨_, _, printCharAt_eq E (h.reads hfits), rfl⟩

theorem utf16_looksAt (h : Fence m a.base n f) {E : Encoding} {size : Nat}
    (hE : E = .utf16le ∧ size = 2 ∨ E = .utf16be ∧ size = 1) :
    LooksAt (fun ptr => do
        let size ← getNextCharSize m.read ptr E
        pure (true, size)) a.base n (fun _ => size)
      fun i => (nextCharSize (shift f i) E).toNat where
  bound i := nextCharSize_le _ E
  error i hi hcut := by
    rcases hE with ⟨rfl, rfl⟩ | ⟨rfl, rfl⟩
    · have hnext : a.base + UInt64.ofNat i + 1 = a.base + UInt64.ofNat (i + 1) := by
        rw [UInt64.ofNat_add, UInt64.add_assoc]; rfl
      exact ⟨_, by rw [getNextCharSize, hnext, h.read_error (by omega) (by omega)]; rfl⟩
    · omega
  ok i hi hfits := by
    refine ⟨true, nextCharSize (shift f i) E, ?_, rfl⟩
    rcases hE with ⟨rfl, rfl⟩ | ⟨rfl, rfl⟩
    · have hnext : a.base + UInt64.ofNat i + 1 = a.base + UInt64.ofNat (i + 1) := by
        rw [UInt64.ofNat_add, UInt64.add_assoc]; rfl
      rw [getNextCharSize, hnext, h.read_eq (by omega)]
      rfl
    · rw [getNextCharSize, h.read_eq hi]
      rfl

theorem byte_looksAt (h : Fence m a.base n f) (test : UInt8 → Bool) :
    LooksAt (fun ptr => do let b ← m.read ptr; pure (test b, 1)) a.base n (fun _ => 1) fun _ =>
      1 where
  bound _ := by decide
  error i hi hcut := by omega
  ok i hi _ := ⟨test (f i), 1, by rw [h.read_eq hi]; rfl, rfl⟩

theorem countByIdx_iff (h : Fence m a.base n f) (hn : a.writeCur.toNat = n)
    {charAt : Ptr → Res (Bool × UInt32)} {size step : Nat → Nat}
    (hchar : LooksAt charAt a.base n size step) :
    (countByIdx a charAt).wp (fun _ => True) ↔ (indexWalk size step).Uncut n := by
  have hsmall := h.small
  refine countLoop_iff (by rw [hn]; simp) (by omega) ⟨hchar.bound,
    fun i hi hcut => ?_, fun i hi hfits => ?_⟩
  · rw [UInt64.zero_add]
    exact hchar.error i hi hcut
  · rw [UInt64.zero_add]
    exact hchar.ok i hi hfits

theorem countByPtr_iff (h : Fence m a.base n f) (hn : a.writeCur.toNat = n)
    {charAt : Ptr → Res (Bool × UInt32)} {size step : Nat → Nat}
    (hchar : LooksAt charAt a.base n size step) :
    (countByPtr a charAt).wp (fun _ => True) ↔ (indexWalk size step).Uncut n := by
  have hsmall := h.small
  have hend : (a.base + a.writeCur).toNat = a.base.toNat + n := by
    rw [UInt64.toNat_add, hn]; exact Nat.mod_eq_of_lt (by omega)
  exact countLoop_iff hend.symm (by omega) hchar

theorem wp_true_iff_uncut {size step : Nat → Nat} {r : Usz} (h : ∀ i, size i ≤ 1) :
    (pure r : Res Usz).wp (fun _ => True) ↔ (indexWalk size step).Uncut n :=
  iff_of_true trivial (uncut_of_size_le_one h)

theorem stringLen_codepoint_iff (h : Fence m a.base n f) (hn : a.writeCur.toNat = n) :
    (stringLen a .codepoint m).wp (fun _ => True) ↔ (codePointWalk a.enc f).Uncut n := by
  rw [stringLen, codePointWalk]
  cases a.enc with
  | ascii | utf32le | utf32be => exact wp_true_iff_uncut fun _ => Nat.le_refl 1
  | utf8 => exact countByIdx_iff h hn (byte_looksAt h fun b => b &&& 0xc0 ≠ 0x80)
  | utf16le => exact countByIdx_iff h hn (utf16_looksAt h (.inl ⟨rfl, rfl⟩))
  | utf16be => exact countByIdx_iff h hn (utf16_looksAt h (.inr ⟨rfl, rfl⟩))

theorem stringLen_printchar_iff (h : Fence m a.base n f) (hn : a.writeCur.toNat = n) :
    (stringLen a .printchar m).wp (fun _ => True) ↔ (printWalk a.enc f).Uncut n := by
  rw [stringLen, printWalk]
  cases a.enc with
  | ascii => exact countByIdx_iff h hn (byte_looksAt h fun b => b ≥ 0x20 && b < 0x7f)
  | utf8 => exact countByPtr_iff h hn (printCharAt_looksAt h .utf8)
  | utf16le => exact countByPtr_iff h hn (printCharAt_looksAt h .utf16le)
  | utf16be => exact countByPtr_iff h hn (printCharAt_looksAt h .utf16be)
  | utf32le => exact countByPtr_iff h hn (printCharAt_looksAt h .utf32le)
  | utf32be => exact countByPtr_iff h hn (printCharAt_looksAt h .utf32be)

end

/-! ### `Transcode` -/

/-- The walk of a transcoding loop: the index in the source, and the number of bytes stored. It ends
where the destination, with `room` bytes left, is full. -/
def transcodeWalk (E D : Encoding) (f : Nat → UInt8) (room : Nat) : Walk (Nat × Nat) where
  start := (0, 0)
  idx p := p.1
  size p := (nextCharSize (shift f p.1) E).toNat
  next p :=
    let encoded := encodeChar (decodeChar (nextChar (shift f p.1) E) E) D
    if p.2 + (getMultibyteCharSize encoded D).toNat ≤ room then
      some (p.1 + stepSize E (shift f p.1), p.2 + (getMultibyteCharSize encoded D).toNat)
    else none

section
variable {m : Mem} {src dst : String} {n : Nat} {f : Nat → UInt8}

/-- A transcoding loop at index `p.1` of its source, having stored `p.2` bytes. -/
structure TranscodeAt (m : Mem) (dst : String) (n : Nat) (p : Nat × Nat) (st : TranscodeState) :
    Prop where
  idx_lt : p.1 < n + 4
  idx_eq : st.srcIdx = UInt64.ofNat p.1
  fits : p.2 ≤ dst.room
  dst_eq : st.dst = dst.grown p.2
  m_eq : ∃ out : List UInt8, out.length = p.2 ∧ st.m = m.store (dst.base + dst.writeCur) out

namespace TranscodeAt
variable {p : Nat × Nat} {st : TranscodeState}

theorem fence (h : TranscodeAt m dst n p st) (hfence : Fence m src.base n f)
    (hapart : Apart src.base n (dst.base + dst.writeCur) dst.room) : Fence st.m src.base n f := by
  obtain ⟨out, hout, hm⟩ := h.m_eq
  rw [hm]
  refine hfence.store fun a ha ha' => hapart a ha (Nat.lt_of_lt_of_le ha' ?_)
  rw [hout]
  exact h.fits

theorem next (h : TranscodeAt m dst n p st) (hdst : Writable m dst) {bs : List UInt8} {step : Nat}
    (hfits : p.2 + bs.length ≤ dst.room) (hidx : p.1 + step < n + 4) :
    ∃ m', st.m.writeBytes (st.dst.base + st.dst.writeCur) bs = .ok m' ∧
      TranscodeAt m dst n (p.1 + step, p.2 + bs.length)
        ⟨UInt64.ofNat (p.1 + step), dst.grown (p.2 + bs.length), m'⟩ := by
  obtain ⟨out, hout, hm⟩ := h.m_eq
  have hroom := hdst.room_eq
  have hleft : bs.length ≤ (dst.grown p.2).room := by
    rw [String.room, hdst.toNat_grown h.fits]; show _ ≤ dst.size.toNat - _; omega
  have hw := (hdst.grown h.fits st.m (by rw [hm]; rfl)).writeBytes hleft
  refine ⟨_, by rw [h.dst_eq]; exact hw, hidx, rfl, hfits, rfl, out ++ bs,
    by rw [List.length_append, hout], ?_⟩
  rw [hm, ← hout, hdst.store_grown (by rw [hout]; exact hfits)]

end TranscodeAt

theorem transcode_iff (hfence : Fence m src.base n f) (hn : src.writeCur.toNat = n)
    (hdst : Writable m dst) (hapart : Apart src.base n (dst.base + dst.writeCur) dst.room) :
    (transcode src dst m).wp (fun _ => True) ↔
      (transcodeWalk src.enc dst.enc f dst.room).Uncut n := by
  have hsmall := hfence.small
  have hroom := hdst.room_eq
  have hsmall' := hdst.small
  obtain ⟨encodedSizeOf, stored, hsize, hstored, heq⟩ := transcode_eq src dst m
  have hlt : ∀ i, i < n + 4 → (UInt64.ofNat i < src.writeCur ↔ i < n) := fun i hi => by
    rw [UInt64.lt_iff_toNat_lt, UInt64.toNat_ofNat_of_lt_two_pow (by omega), hn]
  rw [heq]
  refine wp_whileLoop_iff_uncut (TranscodeAt m dst n) (fun st => n - st.srcIdx.toNat)
    ⟨Nat.succ_pos _, rfl, Nat.zero_le _, by simp [transcodeWalk], [], rfl,
      by simp⟩ (by omega) ?_ ?_ ?_ ?_ ?_
  · rintro ⟨i, k⟩ st h
    have hi : i < n + 4 := h.idx_lt
    rw [h.idx_eq, UInt64.toNat_ofNat_of_lt_two_pow (by omega)]
    rfl
  · rintro ⟨i, k⟩ q hq
    have hstep := (stepSize_le src.enc (shift f i)).1
    simp only [transcodeWalk] at hq ⊢
    split_ifs at hq
    cases hq
    omega
  · rintro ⟨i, k⟩ st h hge
    have hdone : ¬ st.srcIdx < src.writeCur := by
      rw [h.idx_eq]
      exact fun hlt' => Nat.not_lt.2 hge ((hlt i h.idx_lt).1 hlt')
    exact ⟨_, by rw [transcodeStep, if_neg hdone]; rfl⟩
  · rintro ⟨i, k⟩ st h hin hcut
    have hin : i < n := hin
    have hcut : n < i + (nextCharSize (shift f i) src.enc).toNat := hcut
    obtain ⟨e, he⟩ := (h.fence hfence hapart).getNextChar_error hin hcut
    exact ⟨e, by rw [transcodeStep, h.idx_eq, if_pos ((hlt i h.idx_lt).2 hin), he]; rfl⟩
  · rintro ⟨i, k⟩ st h hin hfits
    have hin : i < n := hin
    have hfits : i + (nextCharSize (shift f i) src.enc).toNat ≤ n := hfits
    have hchar := (h.fence hfence hapart).getNextChar_eq hfits
    have hk : k ≤ dst.room := h.fits
    have hstep := (stepSize_le src.enc (shift f i)).2
    simp only [transcodeStep, h.idx_eq, if_pos ((hlt i h.idx_lt).2 hin),
      hchar, Except.ok_bind, h.dst_eq, String.grown_enc, String.grown_size, hsize, hstored]
    simp only [transcodeWalk]
    generalize encodeChar (decodeChar (nextChar (shift f i) src.enc) src.enc) dst.enc = encoded
    have hbytes := getMultibyteCharSize_le encoded dst.enc
    have hsum : ((dst.grown k).writeCur + (getMultibyteCharSize encoded dst.enc).toUInt64).toNat =
        dst.writeCur.toNat + k + (getMultibyteCharSize encoded dst.enc).toNat := by
      rw [UInt64.toNat_add, hdst.toNat_grown hk, UInt32.toNat_toUInt64]
      exact Nat.mod_eq_of_lt (by omega)
    have hle : (dst.grown k).writeCur + (getMultibyteCharSize encoded dst.enc).toUInt64 ≤ dst.size ↔
        k + (getMultibyteCharSize encoded dst.enc).toNat ≤ dst.room := by
      rw [UInt64.le_iff_toNat_le, hsum]; omega
    by_cases hfull : k + (getMultibyteCharSize encoded dst.enc).toNat ≤ dst.room
    · rw [if_pos hfull, if_pos (hle.2 hfull)]
      have hfits : k + (charBytes encoded dst.enc).length ≤ dst.room := by
        rw [length_charBytes]; exact hfull
      have hidx : i + stepSize src.enc (shift f i) < n + 4 := by omega
      obtain ⟨m', hwrite, hnext⟩ := h.next hdst hfits hidx
      rw [length_charBytes] at hnext
      rw [h.dst_eq] at hwrite
      refine .inl ⟨_, _, rfl, ?_, hnext⟩
      rw [hwrite, Except.ok_bind]
      have hidx :
          UInt64.ofNat i + (getMultibyteCharSize (nextChar (shift f i) src.enc) src.enc).toUInt64 =
          UInt64.ofNat (i + stepSize src.enc (shift f i)) := by
        rw [stepSize, UInt64.ofNat_add, UInt64.ofNat_uInt32ToNat]
      have hcur : (dst.grown k).writeCur + (getMultibyteCharSize encoded dst.enc).toUInt64 =
          (dst.grown (k + (getMultibyteCharSize encoded dst.enc).toNat)).writeCur := by
        simp only [String.grown, UInt64.ofNat_add, UInt64.ofNat_uInt32ToNat, UInt64.add_assoc]
      rw [hidx, hcur]
      rfl
    · rw [if_neg hfull, if_neg fun h => hfull (hle.1 h)]
      exact .inr ⟨rfl, _, rfl⟩

end

/-- On any bytes, in a memory in which only the string can be read, the functions that walk over it
return exactly if no character they get to is cut off by its end. -/
theorem overRead_iff (m : Mem) (src dst : String)
    (hsmall : src.base.toNat + src.writeCur.toNat + 4 < 2 ^ 64) (hdst : Writable m dst)
    (hapart : Apart src.base src.writeCur.toNat (dst.base + dst.writeCur) dst.room) :
    ((transcode src dst (m.fenced src.base src.writeCur.toNat)).wp (fun _ => True) ↔
      (transcodeWalk src.enc dst.enc (m.bytesFrom src.base) dst.room).Uncut src.writeCur.toNat) ∧
    ((stringLen src .codepoint (m.fenced src.base src.writeCur.toNat)).wp (fun _ => True) ↔
      (codePointWalk src.enc (m.bytesFrom src.base)).Uncut src.writeCur.toNat) ∧
    ((stringLen src .printchar (m.fenced src.base src.writeCur.toNat)).wp (fun _ => True) ↔
      (printWalk src.enc (m.bytesFrom src.base)).Uncut src.writeCur.toNat) := by
  have hfence := fence_fenced m hsmall
  have hdst' : Writable (m.fenced src.base src.writeCur.toNat) dst :=
    ⟨hdst.cur, hdst.small, hdst.free⟩
  refine ⟨transcode_iff hfence rfl hdst' hapart, ?_, ?_⟩
  · exact stringLen_codepoint_iff hfence rfl
  · exact stringLen_printchar_iff hfence rfl

/-! The first byte of a two-byte character alone. -/

def cutMem : Mem := ⟨fun _ => 0xC3, fun _ => true, fun _ => true⟩

def cutSrc : String := { base := 16, writeCur := 1, size := 1, enc := .utf8 }

def cutDst : String := { base := 64, writeCur := 0, size := 8, enc := .utf32le }

theorem overRead_iff_cut : ¬ (transcode cutSrc cutDst (cutMem.fenced 16 1)).wp (fun _ => True) := by
  have hdst : Writable cutMem cutDst := ⟨by decide, by decide, fun _ _ => rfl⟩
  have hiff :=
    (overRead_iff cutMem cutSrc cutDst (by decide) hdst (apart_of_le (by decide) (by decide))).1
  refine fun h => absurd (hiff.1 h _ .start (by decide)) (by decide)

theorem cut_overRead : transcode cutSrc cutDst (cutMem.fenced 16 1) = .error (.read 17) ∧
    stringLen cutSrc .printchar (cutMem.fenced 16 1) = .error (.read 17) := by
  constructor
  · refine whileLoop_of_error ?_
    rfl
  · decide +kernel

end TinyBase
