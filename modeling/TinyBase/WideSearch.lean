import TinyBase.Utf8Search

/-!
# Searching characters in UTF-16 and UTF-32

`CharInString` looks for the bytes of the needle's word, the lowest first, at every byte offset. In
the big-endian encodings these are not the bytes of the character, and in all four they may stand
across two characters. `CharSearchable` is the exact condition under which neither happens.
-/

namespace TinyBase
open Unicode Code

/-- The bytes `CharInString` looks for when it is given the character `c`. -/
def searchedBytes (F : Form) (c : Char) : List UInt8 := needleBytes (packed F c) (encodingOf F)

/-- The searches for `c` in the text `cs` meet the character only. -/
structure CharSearchable (F : Form) (c : Char) (cs : List Char) : Prop where
  /-- The bytes looked for are those of the character, if it is there. -/
  same : c ∈ cs → searchedBytes F c = F.bytes c
  /-- They stand nowhere in front of its first occurrence. -/
  behind : ∀ i, searchedBytes F c <+: (F.encode cs).drop i →
    ∃ k, cs[k]? = some c ∧ offset F.bytes cs k ≤ i
  /-- They cannot be placed, without an overlap, more often than it occurs. -/
  crowded :
    ∀ is, Hits (fun i => searchedBytes F c <+: (F.encode cs).drop i) (searchedBytes F c).length
    (F.encode cs).length 0 is → is.length ≤ cs.count c

section
variable {F : Form} {c : Char} {cs : List Char} {r : Usz}

theorem singleton_prefix_drop_iff {k : Nat} : [c] <+: cs.drop k ↔ cs[k]? = some c := by
  rw [← List.head?_drop]
  cases cs.drop k with
  | nil => simp
  | cons d ds => simp [List.cons_prefix_cons, eq_comm]

theorem length_searchedBytes (F : Form) (c : Char) :
    (searchedBytes F c).length = (F.bytes c).length := by
  rw [searchedBytes, length_needleBytes, length_bytes]

theorem length_searchedBytes_pos (F : Form) (c : Char) : 0 < (searchedBytes F c).length := by
  rw [length_searchedBytes]
  exact length_bytes_pos F c

theorem bytes_prefix_drop {k : Nat} (hk : cs[k]? = some c) :
    F.bytes c <+: (F.encode cs).drop (offset F.bytes cs k) := by
  have h : [c].flatMap F.bytes <+: (cs.flatMap F.bytes).drop (offset F.bytes cs k) :=
    (prefixFree_bytes F).prefix_drop_offset_iff.2 (singleton_prefix_drop_iff.2 hk)
  rwa [List.flatMap_singleton] at h

theorem offset_lt_length {k : Nat} (hk : cs[k]? = some c) :
    offset F.bytes cs k < (F.encode cs).length := by
  have hle : offset F.bytes cs k + ([c].flatMap F.bytes).length ≤ (F.encode cs).length :=
    (prefixFree_bytes F).offset_add_le (singleton_prefix_drop_iff.2 hk)
  rw [List.flatMap_singleton] at hle
  have := length_bytes_pos F c
  omega

theorem exists_first (hc : c ∈ cs) : ∃ k, Least (fun k => [c] <+: cs.drop k) cs.length k := by
  obtain ⟨k, hk, hget⟩ := List.getElem_of_mem hc
  rcases exists_least_or_noneBelow (fun k => [c] <+: cs.drop k) cs.length with h | h
  · exact h
  · exact absurd (singleton_prefix_drop_iff.2 (by rw [List.getElem?_eq_getElem hk, hget])) (h k hk)

theorem offset_le {j k : Nat} (hjk : j ≤ k) (hk : k ≤ cs.length) :
    offset F.bytes cs j ≤ offset F.bytes cs k := by
  rcases Nat.eq_or_lt_of_le hjk with rfl | hlt
  · exact Nat.le_refl _
  · exact Nat.le_of_lt ((prefixFree_bytes F).offset_lt hlt hk)

/-- What is found is right exactly if the bytes looked for are those of the character, and stand
nowhere in front of it. -/
theorem IsFound.isCharOffset_iff (h : IsFound false (searchedBytes F c) (F.encode cs) r)
    (hlen : (F.encode cs).length < 2 ^ 64) :
    IsCharOffset false F [c] cs r ↔ (c ∈ cs → searchedBytes F c = F.bytes c) ∧
      ∀ i, searchedBytes F c <+: (F.encode cs).drop i → ∃ k, cs[k]? = some c ∧
      offset F.bytes cs k ≤ i := by
  have hpos := length_searchedBytes_pos F c
  have hinvalid : invalidIdx.toNat = 2 ^ 64 - 1 := rfl
  constructor
  · rintro (⟨k, hk, hleast⟩ | ⟨rfl, hnone⟩)
    · have hk : r.toNat = offset F.bytes cs k := hk
      have hget := singleton_prefix_drop_iff.1 hleast.sat
      have hlt := offset_lt_length (F := F) hget
      rcases h with hfound | ⟨rfl, -⟩
      · refine ⟨fun _ => ?_, fun i hi => ⟨k, hget, ?_⟩⟩
        · have hsat := hfound.sat
          rw [hk] at hsat
          exact (List.prefix_of_prefix_length_le hsat (bytes_prefix_drop hget)
            (Nat.le_of_eq (length_searchedBytes F c))).eq_of_length (length_searchedBytes F c)
        · rw [← hk]
          refine Nat.le_of_not_lt fun hir => hfound.none i hir hi
      · omega
    · have hmem : c ∉ cs := fun hc => by
        obtain ⟨k, hk⟩ := exists_first hc
        exact hnone k hk.lt hk.sat
      refine ⟨fun hc => absurd hc hmem, fun i hi => ?_⟩
      rcases h with hfound | ⟨-, hnowhere⟩
      · have := hfound.lt
        omega
      · have hle := hi.length_le
        rw [List.length_drop] at hle
        exact absurd hi (hnowhere i (by omega))
  · rintro ⟨hsame, hbehind⟩
    rcases h with hfound | ⟨hr, hnowhere⟩
    · obtain ⟨k, hget, hki⟩ := hbehind _ hfound.sat
      have hk : k < cs.length := (List.getElem?_eq_some_iff.1 hget).1
      have hmem : c ∈ cs := List.mem_of_getElem? hget
      obtain ⟨l, hl⟩ := exists_first hmem
      have hlk : l ≤ k :=
        Nat.le_of_not_lt fun hkl => hl.none k hkl (singleton_prefix_drop_iff.2 hget)
      have hle := offset_le (F := F) hlk (Nat.le_of_lt hk)
      have hplace := bytes_prefix_drop (F := F) (singleton_prefix_drop_iff.1 hl.sat)
      rw [← hsame hmem] at hplace
      have hge : r.toNat ≤ offset F.bytes cs l :=
        Nat.le_of_not_lt fun hlt => hfound.none _ hlt hplace
      exact .inl ⟨l, by show r.toNat = offset F.bytes cs l; omega, hl⟩
    · refine .inr ⟨hr, fun k hk hck => ?_⟩
      have hget := singleton_prefix_drop_iff.1 hck
      have hplace := bytes_prefix_drop (F := F) hget
      rw [← hsame (List.mem_of_getElem? hget)] at hplace
      have hle := hplace.length_le
      have hlt := offset_lt_length (F := F) hget
      rw [List.length_drop] at hle
      exact hnowhere _ (by omega) hplace

/-- If the bytes looked for are those of the character, the count is right exactly if they cannot be
placed more often than it occurs. -/
theorem mostHits_eq_count_iff (hsame : c ∈ cs → searchedBytes F c = F.bytes c) {n : Nat}
    (h : MostHits (fun i => searchedBytes F c <+: (F.encode cs).drop i) (searchedBytes F c).length
      (F.encode cs).length 0 n) :
    n = cs.count c ↔
      ∀ is, Hits (fun i => searchedBytes F c <+: (F.encode cs).drop i) (searchedBytes F c).length
      (F.encode cs).length 0 is → is.length ≤ cs.count c := by
  constructor
  · rintro rfl
    exact h.length_le
  · intro hle
    refine h.unique ⟨?_, hle⟩
    by_cases hc : c ∈ cs
    · rw [hsame hc]
      exact exists_hits c cs
    · exact ⟨[], trivial, (List.count_eq_zero_of_not_mem hc).symm⟩

theorem length_encode_even (hF : F ≠ .utf8) (cs : List Char) : (F.encode cs).length % 2 = 0 := by
  have hbytes : ∀ c, (F.bytes c).length % 2 = 0 := fun c => by
    rw [length_bytes]
    cases F with
    | utf8 => exact absurd rfl hF
    | utf16le | utf16be => simp only [encodingOf, getMultibyteCharSize]; split_ifs <;> rfl
    | utf32le | utf32be => simp [encodingOf, getMultibyteCharSize]
  induction cs with
  | nil => rfl
  | cons c cs ih =>
    have := hbytes c
    rw [Form.encode_cons, List.length_append]
    omega

end

/-- `CharInString` and `CountCharInString` answer for the characters of the text exactly if the text
is searchable for the character. -/
theorem wideSearch_chars_iff (F : Form) (hF : F ≠ .utf8) (c : Char) (cs : List Char)
    (m : Mem) (haystack : String) (hhay : HoldsText m haystack F cs) :
    ((charInString (packed F c) haystack returnIdxFind m).wp (IsCharOffset false F [c] cs) ∧
      (countCharInString (packed F c) haystack m).wp fun r => r.toNat = cs.count c) ↔
      CharSearchable F c cs := by
  have heven := length_encode_even hF cs
  have hlt := haystack.writeCur.toNat_lt
  have hlen := hhay.len
  have hmax : haystack.writeCur ≠ invalidIdx := fun h => by
    rw [h] at hlen
    have hinvalid : invalidIdx.toNat = 2 ^ 64 - 1 := rfl
    omega
  obtain ⟨r, hr, hfound⟩ := Except.wp_iff.1 (charInString_idxFind (packed F c) hhay.bytes hlen)
  obtain ⟨n, hn, hmost⟩ :=
    Except.wp_iff.1 (countCharInString_spec (packed F c) hhay.bytes hlen hmax)
  rw [hhay.enc] at hfound hmost
  have hfind := hfound.isCharOffset_iff (by omega)
  rw [hr, hn, Except.wp_ok, Except.wp_ok, hfind]
  constructor
  · rintro ⟨⟨hsame, hbehind⟩, hcount⟩
    exact ⟨hsame, hbehind, (mostHits_eq_count_iff hsame hmost).1 hcount⟩
  · intro h
    exact ⟨⟨h.same, h.behind⟩, (mostHits_eq_count_iff h.same hmost).2 h.crowded⟩

/-! The letter A: big-endian, where its word is searched for in the other byte order, and the
character U+0100, little-endian, whose two bytes stand across an A and the character U+0001. -/

def beMem : Mem :=
  (⟨fun _ => 0, fun _ => true, fun _ => true⟩ : Mem).store 16 (Form.utf16be.encode ['A'])

def beText : String := { base := 16, writeCur := 2, size := 2, enc := .utf16be }

def leMem : Mem :=
  (⟨fun _ => 0, fun _ => true, fun _ => true⟩ : Mem).store 16 (Form.utf16le.encode ['A', '\x01'])

def leText : String := { base := 16, writeCur := 4, size := 4, enc := .utf16le }

theorem wideSearch_chars_iff_bigEndian : ¬ ((charInString 0x41 beText returnIdxFind beMem).wp
    (IsCharOffset false .utf16be ['A'] ['A']) ∧ (countCharInString 0x41 beText beMem).wp fun r =>
      r.toNat = 1) := by
  have hhay : HoldsText beMem beText .utf16be ['A'] :=
    ⟨rfl, by decide, Mem.holds_store fun _ _ => rfl⟩
  have hiff := wideSearch_chars_iff .utf16be (by decide) 'A' ['A'] beMem beText hhay
  exact fun h => absurd ((hiff.1 h).same (by decide)) (by decide)

theorem charInString_wide_wrong :
    (HoldsText beMem beText .utf16be ['A'] ∧
      charInString (packed .utf16be 'A') beText returnIdxFind beMem = .ok invalidIdx ∧
      ¬ IsCharOffset false .utf16be ['A'] ['A'] invalidIdx) ∧
    (HoldsText leMem leText .utf16le ['A', '\x01'] ∧
      charInString (packed .utf16le '\u0100') leText returnIdxFind leMem = .ok 1 ∧
      ¬ IsCharOffset false .utf16le ['\u0100'] ['A', '\x01'] 1) := by
  refine ⟨⟨⟨rfl, by decide, Mem.holds_store fun _ _ => rfl⟩, by decide +kernel, ?_⟩,
    ⟨rfl, by decide, Mem.holds_store fun _ _ => rfl⟩, by decide +kernel, ?_⟩
  · rintro (⟨k, hk, hleast⟩ | ⟨-, hnone⟩)
    · obtain rfl : k = 0 := Nat.lt_one_iff.1 hleast.lt
      exact absurd hk (by decide)
    · exact hnone 0 (by decide) (by decide)
  · rintro (⟨k, -, hleast⟩ | ⟨h, -⟩)
    · have hall : ∀ k < 2, ¬ ['\u0100'] <+: ['A', '\x01'].drop k := by decide
      exact hall k hleast.lt hleast.sat
    · exact absurd h (by decide)

end TinyBase
