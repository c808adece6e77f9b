import TinyBase.FileStore

/-!
# Writing files, and what is read afterwards (Linux)

`AppendToFile` is one call of `write`, at the position of the handle; `WriteEntireFile` and
`WriteToFile` seek first. `write` can write less than it is given, and writes at the end of the file
for a handle that appends.
-/

namespace TinyBase

/-- The system calls on open files, with `write`: how much it writes, below zero if it fails. -/
structure WriteCalls (σ : Type) extends FileCalls σ where
  write : File → List UInt8 → σ → Isz × σ

section
variable {σ : Type} (sys : WriteCalls σ)

/-- `write` from memory. -/
def writeFrom (file : File) (buf : Ptr) (count : Usz) (m : Mem) (s : σ) : Res (Isz × σ) := do
  let bytes ← readBytes m.read buf count.toNat
  pure (sys.write file bytes s)

def appendToFile (file : File) (content : Buffer) (m : Mem) (s : σ) : Res (Bool × σ) := do
  let (bytesWritten, s) ← writeFrom sys file content.base content.writeCur m s
  pure (bytesWritten.toUInt64 == content.writeCur, s)

def writeEntireFile (file : File) (content : Buffer) (m : Mem) (s : σ) : Res (Bool × σ) :=
  let (_, s) := seekFile sys.toFileCalls file 0 s
  appendToFile sys file content m s

def writeToFile (file : File) (content : Buffer) (startPos : Usz) (m : Mem) (s : σ) :
    Res (Bool × σ) :=
  let (_, s) := seekFile sys.toFileCalls file startPos s
  appendToFile sys file content m s

def FileOp.call (op : FileOp) (m : Mem) (s : σ) : Res (Bool × σ) :=
  match op with
  | .seek file pos => pure (seekFile sys.toFileCalls file pos s)
  | .read file dst amountToRead startPos => do
    let (ok, _, _, s) ← readFromFile sys.toFileCalls file dst amountToRead startPos m s
    pure (ok, s)
  | .append file content => appendToFile sys file content m s
  | .writeEntire file content => writeEntireFile sys file content m s
  | .write file content startPos => writeToFile sys file content startPos m s

end

/-- The most that one `read` gives. -/
def maxRead : Nat := 0x7FFFF000

/-- The handles are of regular files, some of them of the same: each has a position of its own, up
to the greatest that its file system has, and for those that append, what is written goes to the end
of the file. A `read` by a handle that can be read by gives what there is from its position on. A
`write` writes the first bytes of what it is given, and zeros in front of them if it begins behind
the end. -/
structure WriteCalls.Posix {σ ι : Type} (sys : WriteCalls σ) (limit : File → Nat)
    (isOpen : File → Prop) (node : File → ι) (canRead appends : File → Bool)
    (disk : ι → σ → List UInt8) (position : File → σ → Nat) : Prop where
  limit_lt : ∀ f, isOpen f → limit f < 2 ^ 63
  size_le : ∀ f s, isOpen f → (disk (node f) s).length ≤ limit f
  fstat_eq : ∀ f s, isOpen f →
    sys.fstat f s = some (.regular, UInt64.ofNat (disk (node f) s).length)
  lseek_eq : ∀ f pos s, isOpen f → 0 ≤ pos → pos.toInt.toNat ≤ limit f →
    (sys.lseek f pos s).1 = pos ∧ position f (sys.lseek f pos s).2 = pos.toInt.toNat
  lseek_fails : ∀ f pos s, isOpen f → pos < 0 ∨ limit f < pos.toInt.toNat →
    (sys.lseek f pos s).1 = -1 ∧ position f (sys.lseek f pos s).2 = position f s
  lseek_disk : ∀ f pos s k, isOpen f → disk k (sys.lseek f pos s).2 = disk k s
  lseek_others : ∀ f g pos s, isOpen f → g ≠ f → position g (sys.lseek f pos s).2 = position g s
  read_eq : ∀ f n s, isOpen f → canRead f = true → ∃ bytes,
    bytes = ((disk (node f) s).drop (position f s)).take (min n.toNat maxRead) ∧
    (sys.read f n s).1 = some bytes ∧
      position f (sys.read f n s).2 = position f s + bytes.length
  read_fails : ∀ f n s, isOpen f → canRead f = false → (sys.read f n s).1 = none
  read_disk : ∀ f n s k, isOpen f → disk k (sys.read f n s).2 = disk k s
  read_others : ∀ f g n s, isOpen f → g ≠ f → position g (sys.read f n s).2 = position g s
  write_eq : ∀ f bytes s, isOpen f → bytes.length < 2 ^ 63 → ∃ n ≤ bytes.length,
    ((sys.write f bytes s).1 = Int64.ofNat n ∨ (sys.write f bytes s).1 = -1 ∧ n = 0) ∧
    Overwrites (· = 0) (disk (node f) s) (if appends f then (disk (node f) s).length
      else position f s) (bytes.take n)
      (disk (node f) (sys.write f bytes s).2) ∧
    (appends f = false → position f (sys.write f bytes s).2 = position f s + n)
  write_disk : ∀ f bytes s k, isOpen f → k ≠ node f → disk k (sys.write f bytes s).2 = disk k s
  write_others : ∀ f g bytes s, isOpen f → g ≠ f → position g (sys.write f bytes s).2 = position g s

/-- The bytes of the files are as before, and so are the positions of all handles but one. -/
structure KeepsFiles {σ ι : Type} (disk : ι → σ → List UInt8) (position : File → σ → Nat)
    (file : File) (s s' : σ) : Prop where
  disk_eq : ∀ k, disk k s' = disk k s
  position_eq : ∀ g, g ≠ file → position g s' = position g s

namespace WriteCalls.Posix
variable {σ ι : Type} {sys : WriteCalls σ} {limit : File → Nat}
  {isOpen : File → Prop} {node : File → ι} {canRead appends : File → Bool}
  {disk : ι → σ → List UInt8} {position : File → σ → Nat} {file : File} {dst content : Buffer}
  {amount start : Usz} {m : Mem} {s : σ}

variable (hsys : sys.Posix limit isOpen node canRead appends disk position)
include hsys

theorem fileStore_seekFile (start : Usz) (hopen : isOpen file) :
    fileStore disk position (seekFile sys.toFileCalls file start s).2 =
      (fileStore disk position s).moved file
      ((fileStore disk position s).landing limit file start) := by
  have hlimit := hsys.limit_lt file hopen
  have hlanding : position file (sys.lseek file start.toInt64 s).2 =
      (fileStore disk position s).landing limit file start := by
    rw [FileStore.landing]
    split_ifs with hle
    · have hpos : 0 ≤ start.toInt64 :=
        Int64.not_lt.1 fun hneg => absurd (toInt64_neg_iff.1 hneg) (by omega)
      have hval : start.toInt64.toInt.toNat = start.toNat := by
        rw [toInt_toInt64, if_pos (by omega), Int.toNat_natCast]
      rw [(hsys.lseek_eq file _ s hopen hpos (by rwa [hval])).2, hval]
    · refine (hsys.lseek_fails file _ s hopen ?_).2
      by_cases hsmall : start.toNat < 2 ^ 63
      · refine .inr ?_
        rw [toInt_toInt64, if_pos hsmall, Int.toNat_natCast]
        exact Nat.lt_of_not_le hle
      · exact .inl (toInt64_neg_iff.2 (Nat.le_of_not_lt hsmall))
  rw [fileStore, fileStore, FileStore.moved, FileStore.mk.injEq]
  refine ⟨funext fun k => hsys.lseek_disk file _ s k hopen, funext fun g => ?_⟩
  rcases eq_or_ne g file with rfl | hg
  · rw [Function.update_self]
    exact hlanding
  · rw [Function.update_of_ne hg]
    exact hsys.lseek_others file g _ s hopen hg

theorem toNat_fileSizeOf (hopen : isOpen file) :
    (fileSizeOf sys.toFileCalls file s).toNat = (disk (node file) s).length := by
  have hsize := hsys.size_le file s hopen
  have hlimit := hsys.limit_lt file hopen
  rw [fileSizeOf, hsys.fstat_eq file s hopen]
  exact UInt64.toNat_ofNat_of_lt_two_pow (by omega)

/-- The test of `ReadFromFile`. -/
theorem guard_iff (hopen : isOpen file) (hcur : dst.writeCur ≤ dst.size) :
    start + amount ≤ fileSizeOf sys.toFileCalls file s ∧ amount ≤ dst.size - dst.writeCur ↔
      (start + amount).toNat ≤ (disk (node file) s).length ∧ amount.toNat ≤ dst.room := by
  rw [UInt64.le_iff_toNat_le, UInt64.le_iff_toNat_le, hsys.toNat_fileSizeOf hopen,
    (Buffer.room_eq hcur).1]

theorem readFromFile_of_refused (hopen : isOpen file) (hcur : dst.writeCur ≤ dst.size)
    (h : ¬ ((start + amount).toNat ≤ (disk (node file) s).length ∧ amount.toNat ≤ dst.room)) :
    readFromFile sys.toFileCalls file dst amount start m s = .ok (false, dst, m, s) :=
  if_neg ((hsys.guard_iff hopen hcur).not.2 h)

/-- What a read that passes the test comes to, from where the handle is moved. -/
theorem readFromFile_of_guard (hopen : isOpen file) (htarget : dst.Target m)
    {pos : Nat} {bytes : List UInt8}
    (hpos : (fileStore disk position s).landing limit file start = pos)
    (hbytes : ((disk (node file) s).drop pos).take (min amount.toNat maxRead) = bytes)
    (hguard : (start + amount).toNat ≤ (disk (node file) s).length ∧ amount.toNat ≤ dst.room) :
    ∃ s', KeepsFiles disk position file s s' ∧
      (canRead file = false → readFromFile sys.toFileCalls file dst amount start m s =
        .ok (false, dst, m, s')) ∧
      (canRead file = true → position file s' = pos + bytes.length ∧
        readFromFile sys.toFileCalls file dst amount start m s =
          if bytes.length = amount.toNat then
            .ok (true, { dst with writeCur := dst.writeCur + amount },
              m.store (dst.base + dst.writeCur) bytes, s')
          else .ok (false, dst, m.store (dst.base + dst.writeCur) bytes, s')) := by
  have hlen : bytes.length ≤ amount.toNat := by
    rw [← hbytes, List.length_take]
    omega
  have hroom : dst.room ≤ dst.size.toNat := Nat.sub_le _ _
  have hsmall := htarget.small
  have hmoved := hsys.fileStore_seekFile (s := s) start hopen
  rw [hpos] at hmoved
  have hdisk : ∀ k, disk k (seekFile sys.toFileCalls file start s).2 = disk k s := fun k =>
    congrFun (congrArg FileStore.bytes hmoved) k
  have hposition : ∀ g, position g (seekFile sys.toFileCalls file start s).2 =
      ((fileStore disk position s).moved file pos).position g :=
        fun g => congrFun (congrArg FileStore.position hmoved) g
  have hkeeps : KeepsFiles disk position file s
      (sys.read file amount (seekFile sys.toFileCalls file start s).2).2 :=
    ⟨fun k => (hsys.read_disk file amount _ k hopen).trans (hdisk k), fun g hg =>
      (hsys.read_others file g amount _ hopen hg).trans
        ((hposition g).trans (FileStore.position_moved_of_ne _ hg _))⟩
  have hpassed := (hsys.guard_iff hopen htarget.cur_le).2 hguard
  refine ⟨_, hkeeps, fun hcannot => ?_, fun hcan => ?_⟩
  · have hread :=
      hsys.read_fails file amount (seekFile sys.toFileCalls file start s).2 hopen hcannot
    exact readFromFile_of_read_none hpassed (Prod.ext hread rfl) (by omega)
  · obtain ⟨bytes', hbytes', hread, hat⟩ :=
      hsys.read_eq file amount (seekFile sys.toFileCalls file start s).2 hopen hcan
    rw [hposition, FileStore.position_moved] at hbytes' hat
    rw [hdisk, hbytes] at hbytes'
    subst hbytes'
    exact ⟨hat, readFromFile_of_read hpassed (Prod.ext hread rfl) hlen fun i hi =>
      htarget.writable i (by omega)⟩

theorem appendToFile_does (hopen : isOpen file) (hsrc : content.Source m) :
    ∃ ok s' p, appendToFile sys file content m s = .ok (ok, s') ∧
      (FileOp.append file content).Does limit node appends (· = 0) m ok p
      (fileStore disk position s) (fileStore disk position s') := by
  have hlen : (content.bytes m).length = content.writeCur.toNat := by
    rw [Buffer.bytes, List.length_map, List.length_range]
  have hsmall := hsrc.small
  have hread : readBytes m.read content.base content.writeCur.toNat = .ok (content.bytes m) :=
    readBytes_eq hsrc.readable.reads (Nat.le_of_lt content.writeCur.toNat_lt)
  obtain ⟨n, hn, hret, hover, hmoved⟩ := hsys.write_eq file (content.bytes m) s hopen (by omega)
  have hcount : (Int64.ofNat n).toUInt64 = content.writeCur ↔ n = (content.bytes m).length := by
    rw [toUInt64_ofNat_eq_iff (by omega), hlen]
  have hfailed : (-1 : Isz).toUInt64 ≠ content.writeCur := toUInt64_minusOne_ne hsmall
  have hdata : ((content.bytes m).take n).length = n := List.length_take_of_le hn
  refine ⟨_, _, ⟨node file, if appends file then (disk (node file) s).length else position file s,
    (content.bytes m).take n⟩, by rw [appendToFile, writeFrom, hread]; rfl, ?_⟩
  constructor
  · rfl
  · rfl
  · exact List.take_prefix ..
  · intro hok
    rw [beq_iff_eq] at hok
    rcases hret with hret | ⟨hret, -⟩
    · rw [hret, hcount] at hok
      exact List.take_of_length_le (Nat.le_of_eq hok.symm)
    · rw [hret] at hok
      exact absurd hok hfailed
  · intro hok hne
    rw [beq_eq_false_iff_ne] at hok
    rintro heq
    have hall := congrArg List.length heq
    rw [hdata] at hall
    rcases hret with hret | ⟨-, rfl⟩
    · rw [hret] at hok
      exact hok (hcount.2 hall)
    · exact hne (List.eq_nil_of_length_eq_zero hall.symm)
  · exact ⟨hover, fun k hk => hsys.write_disk file _ s k hopen hk⟩
  · intro happ _
    rw [hdata]
    exact hmoved happ
  · exact fun g hg => hsys.write_others file g _ s hopen hg

theorem seek_append_does {op : FileOp} (hopen : isOpen file)
    (hsrc : content.Source m) (hfile : op.file = file)
    (hpos : op.start limit (fileStore disk position s) =
      (fileStore disk position s).landing limit file start)
    (hamount : op.amount = 0) (hcontents : op.contents m = content.bytes m) : ∃ ok s' p,
      appendToFile sys file content m (seekFile sys.toFileCalls file start s).2 = .ok (ok, s') ∧
        op.Does limit node appends (· = 0) m ok p (fileStore disk position s)
        (fileStore disk position s') := by
  obtain ⟨ok, s', p, hrun, hdoes⟩ :=
    hsys.appendToFile_does (s := (seekFile sys.toFileCalls file start s).2) hopen hsrc
  rw [hsys.fileStore_seekFile start hopen] at hdoes
  exact ⟨ok, s', p, hrun, hdoes.of_moved hfile hpos hamount hcontents⟩

theorem read_does (hopen : isOpen file) (htarget : dst.Target m) :
    ∃ ok s' p, FileOp.call sys (.read file dst amount start) m s = .ok (ok, s') ∧
      (FileOp.read file dst amount start).Does limit node appends (· = 0) m ok p
      (fileStore disk position s)
        (fileStore disk position s') := by
  by_cases hguard : (start + amount).toNat ≤ (disk (node file) s).length ∧ amount.toNat ≤ dst.room
  · obtain ⟨s', hkeeps, hcannot, hcan⟩ := hsys.readFromFile_of_guard hopen htarget rfl rfl hguard
    cases hfile : canRead file with
    | false =>
      refine ⟨false, s', _, by rw [FileOp.call, hcannot hfile]; rfl,
        .of_silent rfl (funext hkeeps.disk_eq) (fun h => ?_) hkeeps.position_eq⟩
      rcases h with h | h <;> cases h
    | true =>
      obtain ⟨hat, hrun⟩ := hcan hfile
      split_ifs at hrun with hall
      · refine ⟨true, s', _, by rw [FileOp.call, hrun]; rfl, .of_silent rfl (funext hkeeps.disk_eq)
          (fun _ => ?_) hkeeps.position_eq⟩
        rw [hall] at hat
        exact hat
      · refine ⟨false, s', _, by rw [FileOp.call, hrun]; rfl, .of_silent rfl (funext hkeeps.disk_eq)
          (fun h => ?_) hkeeps.position_eq⟩
        rcases h with h | h <;> cases h
  · refine ⟨false, s, _,
      by rw [FileOp.call, hsys.readFromFile_of_refused hopen htarget.cur_le hguard]; rfl,
      .of_silent rfl rfl (fun h => ?_) fun _ _ => rfl⟩
    rcases h with h | h <;> cases h

theorem call_does {op : FileOp} (hop : op.Fits isOpen m) :
    ∃ ok s' p, op.call sys m s = .ok (ok, s') ∧
    op.Does limit node appends (· = 0) m ok p (fileStore disk position s)
      (fileStore disk position s') := by
  cases op with
  | seek file pos =>
    obtain ⟨p, hdoes⟩ := FileOp.Does.of_seek limit node appends (· = 0) file pos m
      (seekFile sys.toFileCalls file pos s).1 (fileStore disk position s)
    refine ⟨(seekFile sys.toFileCalls file pos s).1, (seekFile sys.toFileCalls file pos s).2, p,
      rfl, ?_⟩
    rwa [hsys.fileStore_seekFile pos hop]
  | read file dst amount start => exact hsys.read_does hop.1 hop.2
  | append file content => exact hsys.appendToFile_does hop.1 hop.2
  | writeEntire file content =>
    have hzero : (fileStore disk position s).landing limit file 0 = 0 :=
      FileStore.landing_of_le _ (Nat.zero_le _)
    exact hsys.seek_append_does hop.1 hop.2 rfl hzero.symm rfl rfl
  | write file content start => exact hsys.seek_append_does hop.1 hop.2 rfl rfl rfl rfl

end WriteCalls.Posix

/-- Each call returns, and writes what it has to write or, if it returns false, a part of it, at the
position that the handle has been moved to or, if that is refused, the one it had. What
`ReadFromFile` then gives is what the last write over each byte has put there. -/
theorem runFileOps_readsLast {σ ι : Type} [DecidableEq ι] (sys : WriteCalls σ)
    (limit : File → Nat) (isOpen : File → Prop) (node : File → ι) (canRead appends : File → Bool)
    (disk : ι → σ → List UInt8) (position : File → σ → Nat)
    (hsys : sys.Posix limit isOpen node canRead appends disk position) (ops : List (FileOp × Mem))
    (hops : ∀ o ∈ ops, o.1.Fits isOpen o.2) (s : σ) :
    ∃ es s', ops = es.map (·.asked) ∧ runFileOps (FileOp.call sys) ops s = .ok (es.map (·.ok), s') ∧
      FileStore.Run limit node appends (· = 0) (fileStore disk position s) es
      (fileStore disk position s') ∧
      ∀ file dst amount start m, isOpen file → dst.Target m → start.toNat + amount.toNat < 2 ^ 64 →
      ∃ ok dst' m' s'',
        readFromFile sys.toFileCalls file dst amount start m s' = .ok (ok, dst', m', s'') ∧
        (ok = true ↔
          start.toNat + amount.toNat ≤
          max (disk (node file) s).length (Patch.reach (node file) (FileEvent.log es)) ∧
            amount.toNat ≤ dst.room ∧ canRead file = true ∧ amount.toNat ≤ maxRead) ∧
        (ok = true → dst' = { dst with writeCur := dst.writeCur + amount } ∧
          ∃ bytes, bytes.length = amount.toNat ∧
          (fileStore disk position s).LeftBy (· = 0) (FileEvent.log es)
          (node file) start.toNat bytes ∧ m' = m.store (dst.base + dst.writeCur) bytes) ∧
        (ok = false → dst' = dst ∧ Mem.SameOutside (dst.base + dst.writeCur) dst.room m m') := by
  obtain ⟨es, rest, s', hsplit, hrun, hstore, hhead⟩ := runFileOps_of_step (fun _ _ => True)
    (fun op m s hop _ => hsys.call_does (s := s) hop) ops hops s
  cases rest with
  | cons o rest => exact absurd trivial (hhead o rfl)
  | nil =>
    rw [List.append_nil] at hsplit
    rw [← hsplit] at hrun
    refine ⟨es, s', hsplit, hrun, hstore, ?_⟩
    intro file dst amount start m hopen htarget hsmall
    have hlen : (disk (node file) s').length =
        max (disk (node file) s).length (Patch.reach (node file) (FileEvent.log es)) :=
          hstore.log.length_eq (node file)
    rw [← hlen]
    have hsum : (start + amount).toNat = start.toNat + amount.toNat := UInt64.toNat_add_of_lt hsmall
    by_cases hguard : start.toNat + amount.toNat ≤ (disk (node file) s').length ∧
      amount.toNat ≤ dst.room
    · have hland : (fileStore disk position s').landing limit file start = start.toNat :=
        FileStore.landing_of_le _ (by have := hsys.size_le file s' hopen; omega)
      obtain ⟨s'', -, hcannot, hcan⟩ :=
        hsys.readFromFile_of_guard hopen htarget hland rfl (by rwa [hsum])
      have hcount :
          (((disk (node file) s').drop start.toNat).take (min amount.toNat maxRead)).length =
          amount.toNat ↔ amount.toNat ≤ maxRead := by
        rw [List.length_take, List.length_drop]
        omega
      cases hfile : canRead file with
      | false =>
        exact ⟨false, dst, m, s'', hcannot hfile, iff_of_false Bool.false_ne_true fun h =>
          Bool.false_ne_true h.2.2.1,
          fun h => absurd h Bool.false_ne_true, fun _ => ⟨rfl, .refl _ _ _⟩⟩
      | true =>
        obtain ⟨-, hread⟩ := hcan hfile
        split_ifs at hread with hall
        · refine ⟨true, _, _, s'', hread, iff_of_true rfl ⟨hguard.1, hguard.2, rfl, hcount.1 hall⟩,
            fun _ => ⟨rfl, _, hall, ?_, rfl⟩, fun h => nomatch h⟩
          exact hstore.leftBy (node file) start.toNat _
        · refine ⟨false, _, _, s'', hread,
            iff_of_false Bool.false_ne_true fun h => hall (hcount.2 h.2.2.2),
            fun h => absurd h Bool.false_ne_true,
            fun _ => ⟨rfl, .store m fun a ha => Nat.lt_of_lt_of_le ha ?_⟩⟩
          rw [List.length_take]
          omega
    · refine ⟨false, dst, m, s', hsys.readFromFile_of_refused hopen htarget.cur_le (by rwa [hsum]),
        iff_of_false Bool.false_ne_true fun h => hguard ⟨h.1, h.2.1⟩,
        fun h => absurd h Bool.false_ne_true, fun _ => ⟨rfl, .refl _ _ _⟩⟩

/-- All handles are of one file. -/
def oneFile (canRead appends : File → Bool) : WriteCalls OneFile where
  fstat _ s := some (.regular, UInt64.ofNat s.1.1.length)
  blkGetSize64 _ _ := none
  lseek file pos s :=
    if pos < 0 then (-1, s) else (pos, s.1, Function.update s.2 file pos.toInt.toNat)
  read file count s :=
    let bytes := (s.1.1.drop (s.2 file)).take (min count.toNat maxRead)
    if canRead file then (some bytes, s.1, Function.update s.2 file (s.2 file + bytes.length))
      else (none, s)
  write file bytes s :=
    let start := if appends file then s.1.1.length else s.2 file
    if h : (overwrite 0 s.1.1 start bytes).length < 2 ^ 63 then
      (Int64.ofNat bytes.length, ⟨_, h⟩, Function.update s.2 file (start + bytes.length))
    else (-1, s)

theorem posix_oneFile (canRead appends : File → Bool) :
    (oneFile canRead appends).Posix (fun _ => 2 ^ 63 - 1) (fun _ => True)
    (fun _ => ()) canRead appends (fun _ s => s.1.1) (fun f s => s.2 f) where
  limit_lt _ _ := by decide
  size_le _ s _ := Nat.le_sub_one_of_lt s.1.2
  fstat_eq _ _ _ := rfl
  lseek_eq f pos s _ hpos _ := by
    simp only [oneFile, if_neg (Int64.not_lt.2 hpos), Function.update_self, and_self]
  lseek_fails f pos s _ hpos := by
    have hneg : pos < 0 := hpos.resolve_right fun h => by
      have := Int64.toInt_lt pos
      omega
    simp only [oneFile, if_pos hneg, and_self]
  lseek_disk f pos s _ _ := by
    simp only [oneFile]
    split_ifs <;> rfl
  lseek_others f g pos s _ hg := by
    simp only [oneFile]
    split_ifs
    · rfl
    · exact Function.update_of_ne hg ..
  read_eq f n s _ hcan := by
    refine ⟨_, rfl, ?_⟩
    simp only [oneFile, if_pos hcan, Function.update_self, and_self]
  read_fails f n s _ hcan := by simp only [oneFile, hcan, if_neg Bool.false_ne_true]
  read_disk f n s _ _ := by
    simp only [oneFile]
    split_ifs <;> rfl
  read_others f g n s _ hg := by
    simp only [oneFile]
    split_ifs
    · exact Function.update_of_ne hg ..
    · rfl
  write_eq f bytes s _ hlen := by
    simp only [oneFile]
    split_ifs with happ hfits hfits
    · refine ⟨bytes.length, Nat.le_refl _, .inl rfl, ?_,
        fun h => absurd happ (by rw [h]; exact Bool.false_ne_true)⟩
      rw [List.take_length]
      exact overwrites_overwrite ..
    · exact ⟨0, Nat.zero_le _, .inr ⟨rfl, rfl⟩, .refl _ _ _, fun _ => rfl⟩
    · refine ⟨bytes.length, Nat.le_refl _, .inl rfl, ?_, fun _ => Function.update_self ..⟩
      rw [List.take_length]
      exact overwrites_overwrite ..
    · exact ⟨0, Nat.zero_le _, .inr ⟨rfl, rfl⟩, .refl _ _ _, fun _ => rfl⟩
  write_disk f _ _ k _ hk := absurd rfl hk
  write_others f g bytes s _ hg := by
    simp only [oneFile]
    split_ifs
    · exact Function.update_of_ne hg ..
    · rfl
    · exact Function.update_of_ne hg ..
    · rfl

/-- The handle that appends cannot be read by. The two writes leave `1 2 3 8 9 32 33`. -/
theorem runFileOps_readsLast_two :
    ∃ (es : List (FileEvent Unit)) (s' s'' : OneFile), twoWrites = es.map (·.asked) ∧
    es.map (·.ok) = [true, true] ∧
    runFileOps (FileOp.call (oneFile (· != 4) (· == 4))) twoWrites fourBytes =
      .ok ([true, true], s') ∧
    FileStore.LeftBy (· = 0) (fileStore (fun _ (s : OneFile) => s.1.1) (fun f s => s.2 f) fourBytes)
      (FileEvent.log es) () 1 [2, 3, 8] ∧
    readFromFile (oneFile (· != 4) (· == 4)).toFileCalls 5 ⟨64, 0, 8⟩ 3 1 anyMem s' =
      .ok (true, ⟨64, 3, 8⟩, anyMem.store 64 [2, 3, 8], s'') := by
  have hsys := posix_oneFile (· != 4) (· == 4)
  have htarget : Buffer.Target ⟨64, 0, 8⟩ anyMem := ⟨by decide, by decide, fun _ _ => rfl⟩
  obtain ⟨es, s', hsplit, hrun, -, hread⟩ :=
    runFileOps_readsLast (oneFile (· != 4) (· == 4)) _ _ _ _ _ _ _ hsys twoWrites
    twoWrites_fit fourBytes
  obtain ⟨s2, hrun1, hbytes⟩ : ∃ s2 : OneFile,
      runFileOps (FileOp.call (oneFile (· != 4) (· == 4))) twoWrites fourBytes =
      .ok ([true, true], s2) ∧ s2.1.1 = [1, 2, 3, 8, 9, 32, 33] := ⟨_, rfl, rfl⟩
  obtain ⟨hoks, rfl⟩ := Prod.mk.inj (Except.ok.inj (hrun.symm.trans hrun1))
  obtain ⟨ok, dst', m', s'', hread, -, htrue, -⟩ :=
    hread 5 ⟨64, 0, 8⟩ 3 1 anyMem trivial htarget (by decide)
  have hslice : (s'.1.1.drop 1).take (min (3 : Usz).toNat maxRead) = [2, 3, 8] := by
    rw [hbytes]
    rfl
  have hguard : ((1 : Usz) + 3).toNat ≤ s'.1.1.length ∧
      (3 : Usz).toNat ≤ Buffer.room ⟨64, 0, 8⟩ := by
    rw [hbytes]
    decide
  obtain ⟨s3, -, -, hcan⟩ := hsys.readFromFile_of_guard trivial htarget rfl hslice hguard
  have hread1 := hread.symm.trans ((hcan rfl).2.trans (if_pos rfl))
  obtain ⟨rfl, rfl, rfl, rfl⟩ := Except.ok.inj hread1
  obtain ⟨-, bytes, hcount, hleft, hmem⟩ := htrue rfl
  have hback (bs : List UInt8) (h : bs.length = 3) :
      Buffer.bytes ⟨64, 3, 8⟩ (anyMem.store 64 bs) = bs :=
    Buffer.bytes_store_base h
  obtain rfl : [2, 3, 8] = bytes := by
    rw [← hback bytes hcount, ← hback [2, 3, 8] rfl]
    exact congrArg _ hmem
  exact ⟨es, s', s'', hsplit, hoks, hrun1, hleft, hread⟩

end TinyBase
