import TinyBase.ToAscii

/-!
# Malformed UTF-8

On bytes that are not UTF-8 the walk still takes them group by group (`groups`): a first byte and
those its size class gives it, less the zero bytes at the end, since the size to move on by is read
off the packed value. A group is decoded as if it were well formed (`groupValue`), so that it may
hold ASCII bytes that it does not give, or give one that it does not hold.
-/

namespace TinyBase
open Unicode

/-- The groups of bytes that the walk takes from the `n` bytes `f`. -/
def groups (E : Encoding) (f : Nat → UInt8) (n : Nat) : List (List UInt8) :=
  if n = 0 then []
  else (List.range (stepSize E f)).map f :: groups E (shift f (stepSize E f)) (n - stepSize E f)
termination_by n
decreasing_by have := stepSize_le E f; omega

/-- The bits that UTF-8 reads from a group. -/
def groupValue : List UInt8 → Nat
  | [b] => if b.toNat < 0x80 then b.toNat else b.toNat % 32 * 64
  | [b, c] => b.toNat % 32 * 64 + c.toNat % 64
  | [b, c, d] => b.toNat % 16 * 4096 + c.toNat % 64 * 64 + d.toNat % 64
  | [b, c, d, e] => b.toNat % 8 * 262144 + c.toNat % 64 * 4096 + d.toNat % 64 * 64 + e.toNat % 64
  | _ => 0

/-- The numbers of a list that are ASCII. -/
def asciiOf (xs : List Nat) : List Nat := xs.filter (· < 0x80)

/-- The ASCII bytes of a group. -/
def heldBy (g : List UInt8) : List Nat := asciiOf (g.map UInt8.toNat)

/-- The ASCII characters a group gives. -/
def givenBy (g : List UInt8) : List Nat := asciiOf [groupValue g]

/-- A group that has no ASCII byte and a value that is none, or its value as its only one. -/
def Kept (g : List UInt8) : Prop :=
  if groupValue g < 0x80 then heldBy g = [groupValue g] else heldBy g = []

instance : DecidablePred Kept := fun g =>
  inferInstanceAs
    (Decidable (if groupValue g < 0x80 then heldBy g = [groupValue g] else heldBy g = []))

/-- An ASCII byte of the group is lost. -/
def Swallows (g : List UInt8) : Prop := (givenBy g).length < (heldBy g).length

/-- The group gives an ASCII character that no byte of it is. -/
def Invents (g : List UInt8) : Prop := (heldBy g).length < (givenBy g).length

/-- The computation `x` appends code points to `dst` whose ASCII is that of the `n` bytes `f`. -/
def KeepsAscii (x : Res (Bool × String × Mem)) (dst : String) (f : Nat → UInt8) (n : Nat) : Prop :=
  ∃ dst' m', ∃ cs : List UInt32, x = .ok (true, dst', m') ∧
    appendedBytes dst dst' m' = cs.flatMap (leBytes 4 ∘ UInt32.toNat) ∧
    asciiOf (cs.map UInt32.toNat) = asciiOf ((List.range n).map fun i => (f i).toNat)

theorem asciiOf_append (xs ys : List Nat) : asciiOf (xs ++ ys) = asciiOf xs ++ asciiOf ys :=
  List.filter_append ..

theorem asciiOf_singleton (x : Nat) : asciiOf [x] = if x < 0x80 then [x] else [] := by
  rw [asciiOf, List.filter_singleton]
  by_cases h : x < 0x80 <;> simp [h]

theorem kept_iff (g : List UInt8) : Kept g ↔ givenBy g = heldBy g := by
  unfold Kept givenBy
  split_ifs with h
  · rw [asciiOf_singleton, if_pos h, eq_comm]
  · rw [asciiOf_singleton, if_neg h, eq_comm]

/-! ### The groups of a walk -/

section
variable {f : Nat → UInt8} {n : Nat}

@[simp] theorem groups_zero (E : Encoding) (f : Nat → UInt8) :
    groups E f 0 = [] := by rw [groups]; rfl

theorem groups_of_pos {E : Encoding} (hn : 0 < n) : groups E f n =
    (List.range (stepSize E f)).map f :: groups E (shift f (stepSize E f)) (n - stepSize E f) := by
  rw [groups, if_neg (Nat.pos_iff_ne_zero.1 hn)]

theorem toNat_utf8Size (x : MbChar) : (getMultibyteCharSize x .utf8).toNat =
    if x.toNat ≤ 0xFF then 1 else if x.toNat ≤ 0xFFFF then 2 else if x.toNat ≤ 0xFFFFFF then 3
      else 4 := by
  simp only [getMultibyteCharSize, UInt32.le_iff_toNat_le, UInt32.reduceToNat]
  split_ifs <;> rfl

/-- A packed character by its size and its first byte. -/
theorem nextChar_utf8_cases (f : Nat → UInt8) :
    (nextCharSize f .utf8 = 1 ∧ (nextChar f .utf8).toNat = (f 0).toNat) ∨
      (nextCharSize f .utf8 = 2 ∧ (f 0).toNat / 32 = 6 ∧
        (nextChar f .utf8).toNat = (f 1).toNat * 256 + (f 0).toNat) ∨
      (nextCharSize f .utf8 = 3 ∧ (f 0).toNat / 16 = 14 ∧
        (nextChar f .utf8).toNat = (f 2).toNat * 65536 + (f 1).toNat * 256 + (f 0).toNat) ∨
      (nextCharSize f .utf8 = 4 ∧ (f 0).toNat / 8 = 30 ∧
        (nextChar f .utf8).toNat = (f 3).toNat * 16777216 + (f 2).toNat * 65536 +
        (f 1).toNat * 256 + (f 0).toNat) := by
  have hv := toNat_packBytes f (utf8CharSize (f 0))
  have hsize := utf8CharSize_eq (f 0)
  simp only [nextChar, nextCharSize, adjustEndianness]
  split_ifs at hsize with h1 h2 h3 h4
  all_goals
    rw [hsize] at hv ⊢
    simp only [← UInt32.toNat_inj, UInt32.reduceToNat, Nat.reduceEqDiff, if_true, if_false] at hv
  · exact .inl ⟨rfl, hv⟩
  · exact .inr (.inl ⟨rfl, h2, hv⟩)
  · exact .inr (.inr (.inl ⟨rfl, h3, hv⟩))
  · exact .inr (.inr (.inr ⟨rfl, h4, hv⟩))
  · exact .inl ⟨rfl, hv⟩

/-- The size to move on by is at most the one that is read: a group is the bytes read without the
zeros at their end. -/
theorem stepSize_le_nextCharSize (f : Nat → UInt8) :
    stepSize .utf8 f ≤ (nextCharSize f .utf8).toNat := by
  have h0 := (f 0).toNat_lt
  have h1 := (f 1).toNat_lt
  have h2 := (f 2).toNat_lt
  rw [stepSize, toNat_utf8Size]
  rcases nextChar_utf8_cases f with ⟨ht, hv⟩ | ⟨ht, -, hv⟩ | ⟨ht, -, hv⟩ | ⟨ht, -, hv⟩
  all_goals
    rw [ht, hv]
    simp only [UInt32.reduceToNat]
    split_ifs <;> omega

theorem groupValue_eq (f : Nat → UInt8) :
    (utf8ToUnicode (nextChar f .utf8)).toNat =
      groupValue ((List.range (stepSize .utf8 f)).map f) := by
  have h0 := (f 0).toNat_lt
  have h1 := (f 1).toNat_lt
  have h2 := (f 2).toNat_lt
  have h3 := (f 3).toNat_lt
  rw [stepSize, toNat_utf8Size, toNat_utf8ToUnicode]
  rcases nextChar_utf8_cases f with ⟨-, hv⟩ | ⟨-, hb, hv⟩ | ⟨-, hb, hv⟩ | ⟨-, hb, hv⟩
  all_goals
    rw [hv]
    split_ifs <;> simp only [List.range_succ, List.range_zero, List.nil_append,
      List.cons_append, List.map_cons, List.map_nil, groupValue] <;> (try split_ifs) <;> omega

/-- The characters of a walk are the values of its groups. -/
theorem chars_eq_groupValue (f : Nat → UInt8) (n : Nat) :
    (chars .utf8 f n).map (fun c => (utf8ToUnicode c).toNat) =
      (groups .utf8 f n).map groupValue := by
  induction n using Nat.strongRecOn generalizing f with
  | ind n ih =>
    rcases Nat.eq_zero_or_pos n with rfl | hn
    · simp
    · have := stepSize_le .utf8 f
      rw [chars_of_pos hn, groups_of_pos hn, List.map_cons, List.map_cons,
        groupValue_eq, ih _ (by omega)]

theorem range_map_add (f : Nat → UInt8) (j k : Nat) :
    (List.range (j + k)).map f = (List.range j).map f ++ (List.range k).map (shift f j) := by
  rw [List.range_add, List.map_append, List.map_map]
  rfl

theorem asciiOf_eq_heldBy (hbehind : ∀ i, n ≤ i → i < readEnd .utf8 f n → 0x80 ≤ (f i).toNat) :
    asciiOf ((List.range n).map fun i => (f i).toNat) = (groups .utf8 f n).flatMap heldBy := by
  induction n using Nat.strongRecOn generalizing f with
  | ind n ih =>
    rcases Nat.eq_zero_or_pos n with rfl | hn
    · simp [asciiOf]
    · have hstep := stepSize_le .utf8 f
      have hle := stepSize_le_nextCharSize f
      rw [readEnd_of_pos hn] at hbehind
      rw [groups_of_pos hn, List.flatMap_cons]
      rcases Nat.le_total (stepSize .utf8 f) n with hin | hover
      · have hrest :=
          ih (n - stepSize .utf8 f) (by omega) (f := shift f (stepSize .utf8 f)) fun i hi hi' =>
          hbehind (stepSize .utf8 f + i) (by omega) (by omega)
        rw [← hrest]
        obtain ⟨k, rfl⟩ := Nat.exists_eq_add_of_le hin
        rw [heldBy, ← asciiOf_append, Nat.add_sub_cancel_left]
        have := congrArg (List.map UInt8.toNat) (range_map_add f (stepSize .utf8 f) k)
        simpa [Function.comp_def] using congrArg asciiOf this
      · rw [Nat.sub_eq_zero_of_le hover, groups_zero, List.flatMap_nil, List.append_nil, heldBy]
        obtain ⟨k, hk⟩ := Nat.exists_eq_add_of_le hover
        rw [hk, range_map_add, List.map_append, asciiOf_append, List.map_map, List.map_map]
        have hrest : asciiOf ((List.range k).map (UInt8.toNat ∘ shift f n)) = [] := by
          refine List.filter_eq_nil_iff.2 fun b hb => ?_
          obtain ⟨i, hi, rfl⟩ := List.mem_map.1 hb
          rw [List.mem_range] at hi
          have := hbehind (n + i) (by omega) (by omega)
          show ¬ decide ((f (n + i)).toNat < 0x80) = true
          rw [decide_eq_true_iff]
          omega
        rw [hrest, List.append_nil]
        rfl

end

/-! ### What the output has -/

section
variable {α β : Type} {a b : α → List β} {l : List α}

theorem length_flatMap_le (hle : ∀ x ∈ l, (a x).length ≤ (b x).length) :
    (l.flatMap a).length ≤ (l.flatMap b).length := by
  induction l with
  | nil => exact Nat.le_refl _
  | cons x l ih =>
    have hx := hle x List.mem_cons_self
    have hl := ih fun y hy => hle y (List.mem_cons_of_mem x hy)
    simp only [List.flatMap_cons, List.length_append]
    omega

/-- If no piece of one list is longer than that of the other, equal lists have equal pieces. -/
theorem eq_of_flatMap_eq (hle : ∀ x ∈ l, (a x).length ≤ (b x).length)
    (h : l.flatMap a = l.flatMap b) : ∀ x ∈ l, a x = b x := by
  induction l with
  | nil => exact fun x hx => absurd hx List.not_mem_nil
  | cons x l ih =>
    have hx := hle x List.mem_cons_self
    have hl : ∀ y ∈ l, (a y).length ≤ (b y).length := fun y hy => hle y (List.mem_cons_of_mem x hy)
    have hlen := congrArg List.length h
    have htail := length_flatMap_le hl
    simp only [List.flatMap_cons, List.length_append] at hlen h
    obtain ⟨hhead, hrest⟩ := List.append_inj h (by omega)
    intro y hy
    rcases List.mem_cons.1 hy with rfl | hy
    · exact hhead
    · exact ih hl hrest y hy

end

section
variable {m : Mem} {src dst : String} {f : Nat → UInt8}

/-- The code points that a walk over UTF-8 gives. -/
def codePoints (f : Nat → UInt8) (n : Nat) : List UInt32 := (chars .utf8 f n).map utf8ToUnicode

theorem transcoded_utf32le (f : Nat → UInt8) (n : Nat) :
    transcoded .utf8 .utf32le f n = (codePoints f n).flatMap (leBytes 4 ∘ UInt32.toNat) := by
  rw [transcoded, codePoints, List.flatMap_map]
  rfl

theorem leBytes_four_inj {x y : UInt32} (h : leBytes 4 x.toNat = leBytes 4 y.toNat) : x = y := by
  have hpack (z : UInt32) : packBytes ((leBytes 4 z.toNat).getD · 0) 4 = z :=
    packBytes_leBytes (by decide) z.toNat_lt fun i hi => getD_leBytes hi
  rw [← hpack x, h, hpack]

theorem flatMap_leBytes_inj {cs ds : List UInt32}
    (h : cs.flatMap (leBytes 4 ∘ UInt32.toNat) = ds.flatMap (leBytes 4 ∘ UInt32.toNat)) :
    cs = ds := by
  induction cs generalizing ds with
  | nil =>
    cases ds with
    | nil => rfl
    | cons d ds =>
      have hlen := congrArg List.length h
      simp only [List.flatMap_nil, List.flatMap_cons, List.length_nil,
        List.length_append, Function.comp_apply, length_leBytes] at hlen
      omega
  | cons c cs ih =>
    cases ds with
    | nil => simpa using congrArg List.length h
    | cons d ds =>
      obtain ⟨hhead, htail⟩ := List.append_inj h (by simp)
      rw [leBytes_four_inj hhead, ih htail]

/-- The property is that the groups give the ASCII they hold. -/
theorem keepsAscii_iff (hsrc : SourceOf m src dst f)
    (henc : src.enc = .utf8) (hdst : Writable m dst) (hdenc : dst.enc = .utf32le)
    (hroom : 4 * (chars .utf8 f src.writeCur.toNat).length ≤ dst.room)
    (hbehind : ∀ i, src.writeCur.toNat ≤ i → i < readEnd .utf8 f src.writeCur.toNat →
      0x80 ≤ (f i).toNat) :
    KeepsAscii (transcode src dst m) dst f src.writeCur.toNat ↔
      (groups .utf8 f src.writeCur.toNat).flatMap givenBy =
      (groups .utf8 f src.writeCur.toNat).flatMap heldBy := by
  have happ := transcode_spec hdst hsrc
  rw [henc, hdenc, transcoded_utf32le] at happ
  have hlen : ((codePoints f src.writeCur.toNat).flatMap (leBytes 4 ∘ UInt32.toNat)).length ≤
      dst.room := by
    simp only [List.length_flatMap, Function.comp_apply, length_leBytes,
      List.map_const', List.sum_replicate_nat, codePoints, List.length_map]
    omega
  have hrun := happ.of_le hlen
  have hgiven : asciiOf ((codePoints f src.writeCur.toNat).map UInt32.toNat) =
      (groups .utf8 f src.writeCur.toNat).flatMap givenBy := by
    have hval := chars_eq_groupValue f src.writeCur.toNat
    rw [codePoints, List.map_map]
    show asciiOf ((chars .utf8 f src.writeCur.toNat).map fun c => (utf8ToUnicode c).toNat) = _
    rw [hval]
    induction groups .utf8 f src.writeCur.toNat with
    | nil => rfl
    | cons g gs ih =>
      rw [List.map_cons, ← List.singleton_append, asciiOf_append, ih, List.flatMap_cons]; rfl
  rw [← hgiven, ← asciiOf_eq_heldBy hbehind]
  constructor
  · rintro ⟨dst', m', cs, hrun', hcs, hascii⟩
    rw [hrun] at hrun'
    cases hrun'
    rw [appendedBytes_store hdst hlen] at hcs
    rw [flatMap_leBytes_inj hcs, hascii]
  · exact fun h => ⟨_, _, _, hrun, appendedBytes_store hdst hlen, h⟩

end

/-- A walk whose groups are all kept keeps the ASCII; otherwise it does so only if one group
swallows a character and another one invents it. -/
theorem malformed_ascii_iff (m : Mem) (src dst : String) (f : Nat → UInt8)
    (hsrc : SourceOf m src dst f) (henc : src.enc = .utf8) (hdst : Writable m dst)
    (hdenc : dst.enc = .utf32le) (hroom : 4 * (chars .utf8 f src.writeCur.toNat).length ≤ dst.room)
    (hbehind : ∀ i, src.writeCur.toNat ≤ i → i < readEnd .utf8 f src.writeCur.toNat →
      0x80 ≤ (f i).toNat) :
    ((∀ g ∈ groups .utf8 f src.writeCur.toNat, Kept g) →
      KeepsAscii (transcode src dst m) dst f src.writeCur.toNat) ∧
    (KeepsAscii (transcode src dst m) dst f src.writeCur.toNat →
      (∀ g ∈ groups .utf8 f src.writeCur.toNat, Kept g) ∨
        (∃ g ∈ groups .utf8 f src.writeCur.toNat, Swallows g) ∧
        ∃ g ∈ groups .utf8 f src.writeCur.toNat, Invents g) := by
  rw [keepsAscii_iff hsrc henc hdst hdenc hroom hbehind]
  simp only [kept_iff]
  constructor
  · intro h
    exact List.flatMap_congr h
  · intro h
    by_cases hsw : ∃ g ∈ groups .utf8 f src.writeCur.toNat, Swallows g
    · by_cases hin : ∃ g ∈ groups .utf8 f src.writeCur.toNat, Invents g
      · exact .inr ⟨hsw, hin⟩
      · exact .inl (eq_of_flatMap_eq (fun g hg => Nat.le_of_not_lt fun hlt => hin ⟨g, hg, hlt⟩) h)
    · have hle : ∀ g ∈ groups .utf8 f src.writeCur.toNat, (heldBy g).length ≤ (givenBy g).length :=
        fun g hg =>
        Nat.le_of_not_lt fun hlt => hsw ⟨g, hg, hlt⟩
      exact .inl fun g hg => (eq_of_flatMap_eq hle h.symm g hg).symm

/-! A slash behind a first byte that keeps it, and a quote and a slash for which the decoder gives
another character each. -/

/-- The source of the bytes `bs`. -/
def bytesMem (bs : List UInt8) : Mem :=
  (⟨fun _ => 0, fun _ => true, fun _ => true⟩ : Mem).store 16 bs

def bytesSrc (bs : List UInt8) : String :=
  { base := 16, writeCur := UInt64.ofNat bs.length, size := UInt64.ofNat bs.length, enc := .utf8 }

def utf32Dst : String := { base := 64, writeCur := 0, size := 16, enc := .utf32le }

def slashBytes : List UInt8 := [0x22, 0xC0, 0x2F]

def quoteBytes : List UInt8 := [0xC2, 0x22, 0xC0, 0xAF]

theorem sourceOf_bytes {bs : List UInt8} (hlen : bs.length ≤ 16)
    (hread : readEnd .utf8 (bs.getD · 0) bs.length = bs.length)
    (hwalk : walkEnd .utf8 (bs.getD · 0) bs.length = bs.length) :
    SourceOf (bytesMem bs) (bytesSrc bs) utf32Dst (bs.getD · 0) := by
  have hcur : (bytesSrc bs).writeCur.toNat = bs.length := by
    show (UInt64.ofNat bs.length).toNat = _
    rw [UInt64.toNat_ofNat_of_lt_two_pow (by omega)]
  have henc : (bytesSrc bs).enc = .utf8 := rfl
  refine ⟨?_, ?_, ?_, ?_⟩ <;> simp only [hcur, henc, hread, hwalk]
  · exact Mem.holds_store fun _ _ => rfl
  · exact apart_of_le (by show 16 + _ ≤ 64; omega) (by decide)
  · omega
  · omega

theorem malformed_ascii_iff_slash :
    KeepsAscii (transcode (bytesSrc slashBytes) utf32Dst (bytesMem slashBytes)) utf32Dst
      (slashBytes.getD · 0) 3 :=
  (malformed_ascii_iff (bytesMem slashBytes) (bytesSrc slashBytes) utf32Dst (slashBytes.getD · 0)
    (sourceOf_bytes (by decide) (by decide +kernel) (by decide +kernel)) rfl
      ⟨by decide, by decide, fun _ _ => rfl⟩ rfl
    (by decide +kernel) (fun i hi hi' => absurd (Nat.lt_of_le_of_lt hi hi') (by decide +kernel))).1
    (by decide +kernel)

theorem transcode_quote_slash :
    ¬ KeepsAscii (transcode (bytesSrc quoteBytes) utf32Dst (bytesMem quoteBytes))
      utf32Dst (quoteBytes.getD · 0) 4 ∧
      groups .utf8 (quoteBytes.getD · 0) 4 = [[0xC2, 0x22], [0xC0, 0xAF]] ∧
      codePoints (quoteBytes.getD · 0) 4 = [0xA2, 0x2F] := by
  have hsrc : SourceOf (bytesMem quoteBytes) (bytesSrc quoteBytes) utf32Dst (quoteBytes.getD · 0) :=
    sourceOf_bytes (by decide) (by decide +kernel) (by decide +kernel)
  have hiff :=
    keepsAscii_iff hsrc rfl ⟨by decide, by decide, fun _ _ => rfl⟩ rfl (by decide +kernel)
    (fun i hi hi' => absurd (Nat.lt_of_le_of_lt hi hi') (by decide +kernel))
  exact ⟨fun h => absurd (hiff.1 h) (by decide +kernel), by decide +kernel, by decide +kernel⟩

end TinyBase
