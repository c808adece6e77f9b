import TinyBase.FilesAsync
import TinyBase.Lib.Overwrite

/-!
# Calls on open files

What a row of calls on open files comes to, on either platform. A file is a row of bytes, and
several handles can be of one file, each with a position of its own. A call writes one row of bytes
to one file, or nothing.
-/

namespace TinyBase

/-- A call on an open file. -/
inductive FileOp where
  | seek (file : File) (pos : Usz)
  | read (file : File) (dst : Buffer) (amountToRead startPos : Usz)
  | append (file : File) (content : Buffer)
  | writeEntire (file : File) (content : Buffer)
  | write (file : File) (content : Buffer) (startPos : Usz)

/-- The bytes of the files, and where the handles are. -/
structure FileStore (ι : Type) where
  bytes : ι → List UInt8
  position : File → Nat

/-- The files and positions of a state. -/
def fileStore {σ ι : Type} (disk : ι → σ → List UInt8) (position : File → σ → Nat) (s : σ) :
    FileStore ι :=
  ⟨fun k => disk k s, fun f => position f s⟩

namespace FileStore
variable {ι : Type} (t : FileStore ι)

/-- The handle is moved to a position. -/
def moved (file : File) (pos : Nat) : FileStore ι :=
  { t with position := Function.update t.position file pos }

theorem bytes_moved (file : File) (pos : Nat) : (t.moved file pos).bytes = t.bytes := rfl

theorem position_moved (file : File) (pos : Nat) : (t.moved file pos).position file = pos :=
  Function.update_self ..

theorem position_moved_of_ne {file g : File} (h : g ≠ file) (pos : Nat) :
    (t.moved file pos).position g = t.position g :=
  Function.update_of_ne h ..

/-- Where the handle is when it has been asked to move: a position above its limit is refused, and
the handle stays. -/
def landing (limit : File → Nat) (file : File) (pos : Usz) : Nat :=
  if pos.toNat ≤ limit file then pos.toNat else t.position file

theorem landing_of_le {limit : File → Nat} {file : File} {pos : Usz} (h : pos.toNat ≤ limit file) :
    t.landing limit file pos = pos.toNat :=
  if_pos h

end FileStore

/-- What is written in the buffer can be read. -/
structure Buffer.Source (buf : Buffer) (m : Mem) : Prop where
  readable : m.Readable buf.base buf.writeCur.toNat
  small : buf.writeCur.toNat < 2 ^ 63

/-- The room of the buffer can be written. -/
structure Buffer.Target (buf : Buffer) (m : Mem) : Prop where
  cur_le : buf.writeCur ≤ buf.size
  small : buf.size.toNat < 2 ^ 63
  writable : ∀ i : Usz, i.toNat < buf.room → m.writable (buf.base + buf.writeCur + i)

namespace FileOp

def file : FileOp → File
  | seek file _ | read file _ _ _ | append file _ | writeEntire file _ | write file _ _ => file

/-- Where the call begins. -/
def start {ι : Type} (limit : File → Nat) (t : FileStore ι) : FileOp → Nat
  | seek file pos => t.landing limit file pos
  | read file _ _ startPos | write file _ startPos => t.landing limit file startPos
  | append file _ => t.position file
  | writeEntire _ _ => 0

/-- How much the call reads. -/
def amount : FileOp → Nat
  | read _ _ amountToRead _ => amountToRead.toNat
  | _ => 0

/-- What the call has to write. -/
def contents (m : Mem) : FileOp → List UInt8
  | seek _ _ | read _ _ _ _ => []
  | append _ content | writeEntire _ content | write _ content _ => content.bytes m

def isRead : FileOp → Bool
  | read _ _ _ _ => true
  | _ => false

/-- The handle is open, and the buffer is in memory. -/
def Fits (isOpen : File → Prop) (m : Mem) : FileOp → Prop
  | seek file _ => isOpen file
  | read file dst _ _ => isOpen file ∧ dst.Target m
  | append file content | writeEntire file content | write file content _ =>
    isOpen file ∧ content.Source m

section
variable {ι : Type}

/-- What a call does: it writes the patch `p`, which is all that it has to write if it returns true,
and less if it returns false. -/
structure Does (limit : File → Nat) (node : File → ι) (appends : File → Bool)
    (G : UInt8 → Prop) (op : FileOp) (m : Mem) (ok : Bool) (p : Patch ι UInt8)
    (t t' : FileStore ι) : Prop where
  key_eq : p.key = node op.file
  start_eq : p.start = if appends op.file then (t.bytes (node op.file)).length else op.start limit t
  data_prefix : p.data <+: op.contents m
  data_eq : ok = true → p.data = op.contents m
  data_ne : ok = false → op.contents m ≠ [] → p.data ≠ op.contents m
  applies : p.Applies G t.bytes t'.bytes
  position_eq : appends op.file = false → op.isRead = false ∨ ok = true →
    t'.position op.file = op.start limit t + op.amount + p.data.length
  position_others : ∀ g, g ≠ op.file → t'.position g = t.position g

variable {limit : File → Nat} {node : File → ι} {appends : File → Bool}
  {G : UInt8 → Prop} {m : Mem} {ok : Bool} {p : Patch ι UInt8} {t t' : FileStore ι} {file : File}
  {content : Buffer} {pos : Nat}

/-- A call that writes nothing. -/
theorem Does.of_silent {op : FileOp} (hcontents : op.contents m = []) (hbytes : t'.bytes = t.bytes)
    (hpos : op.isRead = false ∨ ok = true → t'.position op.file = op.start limit t + op.amount)
    (hothers : ∀ g, g ≠ op.file → t'.position g = t.position g) : op.Does limit node appends G m ok
      ⟨node op.file, if appends op.file then (t.bytes (node op.file)).length
        else op.start limit t, []⟩ t t' where
  key_eq := rfl
  start_eq := rfl
  data_prefix := List.nil_prefix
  data_eq _ := hcontents.symm
  data_ne _ hne := absurd hcontents hne
  applies := by
    rw [hbytes]
    exact ⟨.refl G _ _, fun _ _ => rfl⟩
  position_eq _ hread := hpos hread
  position_others := hothers

theorem Does.of_seek (limit : File → Nat) (node : File → ι) (appends : File → Bool)
    (G : UInt8 → Prop) (file : File) (pos : Usz) (m : Mem) (ok : Bool) (t : FileStore ι) :
    ∃ p, (seek file pos).Does limit node appends G m ok p t
      (t.moved file (t.landing limit file pos)) :=
  ⟨_, .of_silent rfl (t.bytes_moved ..) (fun _ => t.position_moved ..) fun _ hg =>
    t.position_moved_of_ne hg _⟩

/-- A write at a position: the handle is moved there first. -/
theorem Does.of_moved {op : FileOp} (hfile : op.file = file) (hstart : op.start limit t = pos)
    (hamount : op.amount = 0) (hcontents : op.contents m = content.bytes m)
    (h : (append file content).Does limit node appends G m ok p (t.moved file pos) t') :
    op.Does limit node appends G m ok p t t' := by
  subst hfile
  have hmoved : (append op.file content).start limit (t.moved op.file pos) = pos :=
    t.position_moved op.file pos
  have hwritten : (append op.file content).contents m = op.contents m := hcontents.symm
  constructor
  · exact h.key_eq
  · rw [h.start_eq, hmoved, hstart]
    rfl
  · exact hwritten ▸ h.data_prefix
  · exact hwritten ▸ h.data_eq
  · exact hwritten ▸ h.data_ne
  · exact h.applies
  · intro happ _
    rw [hstart, hamount, ← hmoved]
    exact h.position_eq happ (.inl rfl)
  · intro g hg
    rw [h.position_others g hg]
    exact t.position_moved_of_ne hg pos

end

end FileOp

/-- A call with the memory it is made in, what it returned and what it wrote. -/
structure FileEvent (ι : Type) where
  op : FileOp
  mem : Mem
  ok : Bool
  patch : Patch ι UInt8

namespace FileEvent
variable {ι : Type}

/-- The call with its memory. -/
def asked (e : FileEvent ι) : FileOp × Mem := (e.op, e.mem)

/-- What the calls wrote. -/
def log (es : List (FileEvent ι)) : List (Patch ι UInt8) := es.map (·.patch)

end FileEvent

/-- Each call does what it does in the store that the calls before it leave. -/
inductive FileStore.Run {ι : Type} (limit : File → Nat) (node : File → ι)
    (appends : File → Bool) (G : UInt8 → Prop) :
    FileStore ι → List (FileEvent ι) → FileStore ι → Prop where
  | nil (t : FileStore ι) : Run limit node appends G t [] t
  | cons {t t1 t' : FileStore ι} {e : FileEvent ι} {es : List (FileEvent ι)}
      (h : e.op.Does limit node appends G e.mem e.ok e.patch t t1)
      (hrest : Run limit node appends G t1 es t') : Run limit node appends G t (e :: es) t'

/-- Each of the bytes from `start` on is decided by the last write over it. -/
def FileStore.LeftBy {ι : Type} [DecidableEq ι] (G : UInt8 → Prop) (t : FileStore ι)
    (log : List (Patch ι UInt8)) (k : ι) (start : Nat) (bytes : List UInt8) : Prop :=
  ∀ i b, bytes[i]? = some b → Patch.Decides G t.bytes log k (start + i) b

/-- The calls, one after the other, each with the memory it is made in. -/
def runFileOps {σ : Type} (call : FileOp → Mem → σ → Res (Bool × σ)) :
    List (FileOp × Mem) → σ → Res (List Bool × σ)
  | [], s => pure ([], s)
  | (op, m) :: ops, s => do
    let (ok, s) ← call op m s
    let (oks, s) ← runFileOps call ops s
    pure (ok :: oks, s)

section
variable {ι σ : Type} {limit : File → Nat} {node : File → ι} {appends : File → Bool}
  {G : UInt8 → Prop} {t t' : FileStore ι} {es : List (FileEvent ι)}

theorem FileStore.Run.log (h : FileStore.Run limit node appends G t es t') :
    Patch.Log G t.bytes (FileEvent.log es) t'.bytes := by
  induction h with
  | nil t => exact .nil t.bytes
  | cons h _ ih => exact .cons h.applies ih

theorem FileStore.Run.leftBy [DecidableEq ι] (h : FileStore.Run limit node appends G t es t')
    (k : ι) (start count : Nat) :
    t.LeftBy G (FileEvent.log es) k start (((t'.bytes k).drop start).take count) := by
  intro i b hb
  refine h.log.decides ?_
  rw [← List.getElem?_drop]
  have hi := (List.getElem?_eq_some_iff.1 hb).1
  rw [List.length_take] at hi
  rwa [List.getElem?_take_of_lt (by omega)] at hb

/-- A run of calls, from what each of them does; it can end early at a call that is not ready. -/
theorem runFileOps_of_step {call : FileOp → Mem → σ → Res (Bool × σ)}
    {store : σ → FileStore ι} {isOpen : File → Prop} (Ready : FileOp → FileStore ι → Prop)
    (hstep : ∀ op m s, op.Fits isOpen m → Ready op (store s) →
      ∃ ok s' p, call op m s = .ok (ok, s') ∧ op.Does limit node appends G m ok p
      (store s) (store s'))
    (ops : List (FileOp × Mem)) (hops : ∀ o ∈ ops, o.1.Fits isOpen o.2) (s : σ) :
    ∃ es rest s', ops = es.map (·.asked) ++ rest ∧
      runFileOps call (es.map (·.asked)) s = .ok (es.map (·.ok), s') ∧
      FileStore.Run limit node appends G (store s) es (store s') ∧
      ∀ o ∈ rest.head?, ¬ Ready o.1 (store s') := by
  induction ops generalizing s with
  | nil => exact ⟨[], [], s, rfl, rfl, .nil _, fun _ ho => nomatch ho⟩
  | cons o ops ih =>
    obtain ⟨op, m⟩ := o
    by_cases hready : Ready op (store s)
    · obtain ⟨ok, s1, p, hcall, hdoes⟩ := hstep op m s (hops (op, m) List.mem_cons_self) hready
      obtain ⟨es, rest, s', heq, hrun, hstore, hhead⟩ :=
        ih (fun o ho => hops o (List.mem_cons_of_mem _ ho)) s1
      refine ⟨⟨op, m, ok, p⟩ :: es, rest, s', by rw [heq]; rfl, ?_, .cons hdoes hstore, hhead⟩
      rw [List.map_cons, FileEvent.asked, runFileOps, hcall, Except.ok_bind]
      dsimp only
      rw [hrun]
      rfl
    · refine ⟨[], (op, m) :: ops, s, rfl, rfl, .nil _, fun o ho => ?_⟩
      cases ho
      exact hready

end

/-! One file, with all handles on it. -/

abbrev OneFile := { bytes : List UInt8 // bytes.length < 2 ^ 63 } × (File → Nat)

/-- A file of four bytes, with all handles at its beginning. -/
def fourBytes : OneFile := (⟨[1, 2, 3, 4], by decide⟩, fun _ => 0)

def anyMem : Mem := ⟨fun a => a.toUInt8, fun _ => true, fun _ => true⟩

/-- Two bytes go to index 3 by one handle, and behind them by another, which appends. -/
def twoWrites : List (FileOp × Mem) :=
  [(.write 3 ⟨8, 2, 2⟩ 3, anyMem), (.append 4 ⟨32, 2, 2⟩, anyMem)]

theorem twoWrites_fit : ∀ o ∈ twoWrites, o.1.Fits (fun _ => True) o.2 := by
  refine List.forall_mem_cons.2 ⟨⟨trivial, fun _ _ => rfl, by decide⟩,
    List.forall_mem_cons.2 ⟨?_, fun _ h => nomatch h⟩⟩
  exact ⟨trivial, fun _ _ => rfl, by decide⟩

end TinyBase
