import TinyBase.MpmcRingBuffer

/-!
# Uses of the ring buffer that keep the claims in turn

Two ways to use the ring buffer from several threads are safe. If the pushes exclude one another,
and the pops do (one thread pushes and one pops, or each side has a lock), then the ring is a queue
at every moment, and a call fails only if the ring is full or empty then. If the threads push and
pop in phases, any number of threads in each, then the items lie in the ring in the order of their
claims, although a push can fail with slots free.
-/

namespace TinyBase

def RingOp.isPush : RingOp → Bool
  | .push _ => true
  | .pop => false

namespace RingBuffer
variable {θ : Type}

/-- As `Allowed`, and a call begins only when no call of its side is in flight. -/
def AllowedAlone (s : RingState θ) (t : θ) : Option RingOp → Prop
  | none => True
  | some op => Allowed s t (some op) ∧ ∀ u, ∀ call ∈ s.running u, call.1.isPush ≠ op.isPush

/-- As `Allowed`, and a call begins only when no call of the other side is in flight. -/
def AllowedPhased (s : RingState θ) (t : θ) : Option RingOp → Prop
  | none => True
  | some op => Allowed s t (some op) ∧ ∀ u, ∀ call ∈ s.running u, call.1.isPush = op.isPush

/-- The ring as a queue: what the pops return is what the pushes have put in, from the oldest on,
and the last call has failed only if there was nothing else to do. -/
structure Queue (k : Nat) (history : List (RingEvent θ)) : Prop where
  popped : popped history <+: filled history
  succeeded : succeeded history <+: filled history
  full : ∀ before t item, history = before ++ [.ret t (.push item) (.pushed false)] →
    (filled before).length = (drained before).length + 2 ^ k
  empty : ∀ before t, history = before ++ [.ret t .pop (.popped 0)] →
    (filled before).length = (drained before).length

theorem eq_of_ret {history before : List (RingEvent θ)} {t u : θ} {op op' : RingOp}
    {a : Access RingLoc UInt64} {out : Out} {r : RingResult}
    (h : history ++ .access t op a :: out.events t op = before ++ [.ret u op' r]) :
    out = .returns r ∧ op' = op ∧ before = history ++ [.access t op a] := by
  cases out with
  | goes pt =>
    have hlast := (List.append_inj' h rfl).2
    cases hlast
  | returns r' =>
    have hsplit : (history ++ [.access t op a]) ++ [.ret t op r'] = before ++ [.ret u op' r] := by
      rw [← h]; simp [Outcome.events]
    obtain ⟨hbefore, hlast⟩ := List.append_inj' hsplit rfl
    cases hlast
    exact ⟨rfl, rfl, hbefore.symm⟩

namespace Point

theorem isPush_of_filling {pt : Point} {item : Ptr} (h : pt.filling = some item) :
    pt.op.isPush = true := by
  cases pt <;> cases h
  rfl

theorem isPush_of_draining {pt : Point} {item : Ptr} (h : pt.draining = some item) :
    pt.op.isPush = false := by
  cases pt <;> cases h
  rfl

end Point

/-- A call that returns has no next point. -/
theorem of_none {P : Point → Prop} (pt : Point) (h : none = some pt) : P pt := by cases h

/-! ### One push and one pop -/

/-- What the local variables of a call say about the ring if its side is alone. -/
def Knows (k : Nat) (mem : RingLoc → UInt64) (history : List (RingEvent θ)) : Point → Prop
  | .fill _ writeCur => writeCur = UInt64.ofNat (filled history).length
  | .readSlot readCur => readCur = UInt64.ofNat (drained history).length
  | .readReadCurAgain item => slots mem ((drained history).length % 2 ^ k) = item
  | .drain item readCur =>
    readCur = UInt64.ofNat (drained history).length ∧
      slots mem ((drained history).length % 2 ^ k) = item
  | _ => True

/-- At most one push and at most one pop are in flight, and they know where they are. -/
structure Alone (k : Nat) (mem : RingLoc → UInt64) (history : List (RingEvent θ))
    (points : θ → Option Point) : Prop where
  alone : ∀ t u pt pu, points t = some pt → points u = some pu → pt.op.isPush = pu.op.isPush → t = u
  knows : ∀ t pt, points t = some pt → Knows k mem history pt
  succeeded : succeeded history <+: filled history
  popped : popped history <+: drained history

section
variable [DecidableEq θ] {k : Nat} {mem : RingLoc → UInt64} {history : List (RingEvent θ)}
  {points : θ → Option Point} {fillers drainers : List (θ × Ptr)} {t : θ} {pt : Point}

omit [DecidableEq θ] in
/-- The roster of a side that is alone. -/
theorem roster_alone {sel : Point → Option Ptr} {l : List (θ × Ptr)} (h : Roster points sel l)
    (honly : ∀ u pu, points u = some pu → sel pu ≠ none → u = t) (hpt : points t = some pt) :
    l = (sel pt).toList.map fun item => (t, item) := by
  cases hsel : sel pt with
  | none =>
    refine List.eq_nil_iff_forall_not_mem.2 fun ⟨u, item⟩ hmem => ?_
    obtain ⟨pu, hpu, hitem⟩ := (h.mem_iff u item).1 hmem
    obtain rfl := honly u pu hpu (by rw [hitem]; nofun)
    rw [hpt] at hpu
    cases hpu
    rw [hsel] at hitem
    cases hitem
  | some item =>
    have hall : ∀ x ∈ l, x = (t, item) := by
      rintro ⟨u, item'⟩ hmem
      obtain ⟨pu, hpu, hitem⟩ := (h.mem_iff u item').1 hmem
      obtain rfl := honly u pu hpu (by rw [hitem]; nofun)
      rw [hpt] at hpu
      cases hpu
      rw [hsel] at hitem
      cases hitem
      rfl
    have hmem := (h.mem_iff t item).2 ⟨pt, hpt, hsel⟩
    obtain ⟨x, l, rfl⟩ := List.exists_cons_of_ne_nil (List.ne_nil_of_mem hmem)
    obtain rfl := hall x List.mem_cons_self
    cases l with
    | nil => rfl
    | cons y l =>
      obtain rfl := hall y (List.mem_cons_of_mem _ List.mem_cons_self)
      exact absurd List.mem_cons_self (List.nodup_cons.1 h.nodup).1

/-- The item that is not yet accounted for, if there is one, comes last. -/
theorem prefix_of_perm {l₁ l₂ : List Ptr} {x : Ptr} (h : l₁ <+: l₂) (hperm : l₂.Perm (l₁ ++ [x])) :
    l₂ = l₁ ++ [x] := by
  obtain ⟨l, rfl⟩ := h
  rw [List.perm_append_left_iff, List.perm_singleton] at hperm
  rw [hperm]

namespace Alone

omit [DecidableEq θ] in
theorem eq_push (h : Alone k mem history points) (hpt : points t = some pt)
    (hpush : pt.op.isPush = true) {u : θ} {pu : Point} (hpu : points u = some pu)
    (hfilling : pu.filling ≠ none) : u = t := by
  obtain ⟨item, hitem⟩ := Option.ne_none_iff_exists'.1 hfilling
  exact h.alone u t pu pt hpu hpt ((Point.isPush_of_filling hitem).trans hpush.symm)

omit [DecidableEq θ] in
theorem eq_pop (h : Alone k mem history points) (hpt : points t = some pt)
    (hpop : pt.op.isPush = false) {u : θ} {pu : Point} (hpu : points u = some pu)
    (hdraining : pu.draining ≠ none) : u = t := by
  obtain ⟨item, hitem⟩ := Option.ne_none_iff_exists'.1 hdraining
  exact h.alone u t pu pt hpu hpt ((Point.isPush_of_draining hitem).trans hpop.symm)

omit [DecidableEq θ] in
/-- A push that has not claimed its slot finds the number of items in `WriteCur`. -/
theorem writeCur_eq (h : Alone k mem history points)
    (hinv : Inv k mem history points fillers drainers) (hpt : points t = some pt)
    (hpush : pt.op.isPush = true) (hfilling : pt.filling = none) :
    mem .writeCur = UInt64.ofNat (filled history).length := by
  have hfillers := roster_alone hinv.filling (fun u pu hpu => h.eq_push hpt hpush hpu) hpt
  rw [hfilling] at hfillers
  subst hfillers
  simpa using hinv.writeCur

omit [DecidableEq θ] in
theorem readCur_eq (h : Alone k mem history points)
    (hinv : Inv k mem history points fillers drainers) (hpt : points t = some pt)
    (hpop : pt.op.isPush = false) (hdraining : pt.draining = none) :
    mem .readCur = UInt64.ofNat (drained history).length := by
  have hdrainers := roster_alone hinv.draining (fun u pu hpu => h.eq_pop hpt hpop hpu) hpt
  rw [hdraining] at hdrainers
  subst hdrainers
  simpa using hinv.readCur

end Alone

omit [DecidableEq θ] in
theorem Knows.congr (h : Knows k mem history pt) {mem' : RingLoc → UInt64}
    {history' : List (RingEvent θ)} (hslots : slots mem' = slots mem)
    (hfilled : filled history' = filled history) (hdrained : drained history' = drained history) :
    Knows k mem' history' pt := by
  revert h
  cases pt <;> simp only [Knows, hslots, hfilled, hdrained, imp_self]

omit [DecidableEq θ] in
/-- A push into a free slot does not change what a pop knows. -/
theorem Knows.fill (h : Knows k mem history pt) (hk : k < 64) (hpop : pt.op.isPush = false)
    (hnonNull : pt.NonNull) {i : Usz} {x : Ptr} (hfree : mem (.slot i) = 0)
    {history' : List (RingEvent θ)} (hdrained : drained history' = drained history) :
    Knows k (Function.update mem (.slot i) x) history' pt := by
  have hlt : (drained history).length % 2 ^ k < 2 ^ 64 :=
    Nat.lt_of_lt_of_le (Nat.mod_lt _ (Nat.two_pow_pos k))
      (Nat.pow_le_pow_right (by decide) (by omega))
  have hslot : ∀ item, item ≠ 0 → slots mem ((drained history).length % 2 ^ k) = item →
      slots (Function.update mem (.slot i) x) ((drained history).length % 2 ^ k) = item := by
    intro item hitem hheld
    rw [Inv.slots_update hlt, Function.update_of_ne, hheld]
    rintro heq
    rw [heq, slots, UInt64.ofNat_toNat, hfree] at hheld
    exact hitem hheld.symm
  cases pt with
  | fill | readWriteCur | addWriteCur => cases hpop
  | readReadCur | addReadCur => trivial
  | readSlot readCur => simpa only [Knows, hdrained] using h
  | readReadCurAgain item =>
    rw [Knows, hdrained]
    exact hslot item hnonNull h
  | drain item readCur =>
    rw [Knows, hdrained]
    exact ⟨h.1, hslot item hnonNull h.2⟩

omit [DecidableEq θ] in
/-- A pop does not change what a push knows. -/
theorem Knows.drain (h : Knows k mem history pt) (hpush : pt.op.isPush = true)
    {mem' : RingLoc → UInt64} {history' : List (RingEvent θ)}
    (hfilled : filled history' = filled history) : Knows k mem' history' pt := by
  cases pt with
  | fill item writeCur => simpa only [Knows, hfilled] using h
  | readWriteCur | addWriteCur => trivial
  | readReadCur | readSlot | readReadCurAgain | drain | addReadCur => cases hpush

namespace Alone

/-- The slot that a call which knows where it is claims. -/
theorem toNat_slot (hk : k < 64) {cur : Usz} {n : Nat} (hcur : cur = UInt64.ofNat n) :
    (cur &&& maxCur k).toNat = n % 2 ^ k := by
  rw [toNat_and_maxCur hk, hcur, Inv.toNat_mod hk]

/-- Thread `t` makes an access; the other calls still know where they are. -/
theorem after (h : Alone k mem history points) (hpt : points t = some pt) {mem' : RingLoc → UInt64}
    {history' : List (RingEvent θ)} {o : Option Point}
    (hop : ∀ pt', o = some pt' → pt'.op = pt.op ∧ Knows k mem' history' pt')
    (hother : ∀ pu, pu.op.isPush = !pt.op.isPush → Knows k mem history pu →
      pu.NonNull → Knows k mem' history' pu)
    (hnonNull : ∀ u pu, points u = some pu → pu.NonNull)
    (hsucceeded : RingBuffer.succeeded history' <+: filled history')
    (hpopped : RingBuffer.popped history' <+: drained history') :
    Alone k mem' history' (Function.update points t o) := by
  have hside : ∀ u pu, Function.update points t o u = some pu →
      ∃ pu', points u = some pu' ∧ pu'.op = pu.op := by
    intro u pu hu
    by_cases hut : u = t
    · subst hut
      rw [Function.update_self] at hu
      exact ⟨pt, hpt, (hop pu hu).1.symm⟩
    · rw [Function.update_of_ne hut] at hu
      exact ⟨pu, hu, rfl⟩
  refine ⟨fun u v pu pv hu hv hsame => ?_, fun u pu hu => ?_, hsucceeded, hpopped⟩
  · obtain ⟨pu', hpu', hopu⟩ := hside u pu hu
    obtain ⟨pv', hpv', hopv⟩ := hside v pv hv
    exact h.alone u v pu' pv' hpu' hpv' (by rw [hopu, hopv]; exact hsame)
  · by_cases hut : u = t
    · subst hut
      rw [Function.update_self] at hu
      exact (hop pu hu).2
    · rw [Function.update_of_ne hut] at hu
      refine hother pu ?_ (h.knows u pu hu) (hnonNull u pu hu)
      have hne : pu.op.isPush ≠ pt.op.isPush := fun hsame => hut (h.alone u t pu pt hu hpt hsame)
      cases hpu : pu.op.isPush <;> cases hpt' : pt.op.isPush <;> simp_all

/-- An access that changes neither a slot nor a cursor. -/
theorem quiet (h : Alone k mem history points) (hinv : Inv k mem history points fillers drainers)
    (hpt : points t = some pt) {a : Access RingLoc UInt64} {out : Out}
    (ha : filled [(.access t pt.op a : RingEvent θ)] = [] ∧
      drained [(.access t pt.op a : RingEvent θ)] = [])
    (hret : RingBuffer.succeeded (out.events t pt.op : List (RingEvent θ)) = [] ∧
      RingBuffer.popped (out.events t pt.op : List (RingEvent θ)) = [])
    (hout : ∀ pt', out.point = some pt' → pt'.op = pt.op ∧ Knows k mem history pt') :
    Alone k mem (history ++ .access t pt.op a :: out.events t pt.op)
      (Function.update points t out.point) := by
  have hfilled := filled_after history t pt.op a out
  have hdrained := drained_after history t pt.op a out
  have hsucceeded := succeeded_after history t pt.op a out
  have hpopped := popped_after history t pt.op a out
  rw [ha.1, List.append_nil] at hfilled
  rw [ha.2, List.append_nil] at hdrained
  rw [hret.1, List.append_nil] at hsucceeded
  rw [hret.2, List.append_nil] at hpopped
  refine h.after hpt (fun pt' hpt' =>
    ⟨(hout pt' hpt').1, (hout pt' hpt').2.congr rfl hfilled hdrained⟩)
    (fun pu _ hpu _ => hpu.congr rfl hfilled hdrained) hinv.nonNull ?_ ?_
  · rw [hsucceeded, hfilled]; exact h.succeeded
  · rw [hpopped, hdrained]; exact h.popped

/-- A push that fills a slot. -/
theorem fill (h : Alone k mem history points) (hinv : Inv k mem history points fillers drainers)
    (hk : k < 64) {item : Ptr} {writeCur i : Usz} (hpt : points t = some (.fill item writeCur))
    (hfree : mem (.slot i) = 0) :
    Alone k (Function.update mem (.slot i) item)
      (history ++ [.access t (.push item) (.rmw (.slot i) 0 item)])
      (Function.update points t (some (.addWriteCur item))) := by
  have hitem : item ≠ 0 := hinv.nonNull t _ hpt
  have hfilled : filled (history ++ [.access t (.push item) (.rmw (.slot i) 0 item)]) =
      filled history ++ [item] := by
    simp [filled, Ne.symm hitem]
  have hdrained : drained (history ++ [.access t (.push item) (.rmw (.slot i) 0 item)]) =
    drained history := by simp [drained]
  have hsucceeded :
      RingBuffer.succeeded (history ++ [.access t (.push item) (.rmw (.slot i) 0 item)]) =
      RingBuffer.succeeded history := by simp [RingBuffer.succeeded]
  have hpopped : RingBuffer.popped (history ++ [.access t (.push item) (.rmw (.slot i) 0 item)]) =
      RingBuffer.popped history := by
    simp [RingBuffer.popped]
  refine h.after hpt (fun pt' hpt' => Option.some.inj hpt' ▸ ⟨rfl, trivial⟩)
    (fun pu hpop hpu hnonNull => hpu.fill hk hpop hnonNull hfree hdrained) hinv.nonNull ?_ ?_
  · rw [hsucceeded, hfilled]
    exact h.succeeded.trans (List.prefix_append _ _)
  · rw [hpopped, hdrained]
    exact h.popped

/-- A pop that empties a slot. -/
theorem drain (h : Alone k mem history points) (hinv : Inv k mem history points fillers drainers)
    {item : Ptr} {readCur i : Usz} (hpt : points t = some (.drain item readCur)) :
    Alone k (Function.update mem (.slot i) 0) (history ++ [.access t .pop (.rmw (.slot i) item 0)])
      (Function.update points t (some (.addReadCur item))) := by
  have hitem : item ≠ 0 := hinv.nonNull t _ hpt
  have hfilled : filled (history ++ [.access t .pop (.rmw (.slot i) item 0)]) = filled history := by
    simp [filled]
  have hdrained : drained (history ++ [.access t .pop (.rmw (.slot i) item 0)]) =
      drained history ++ [item] := by
    simp [drained, hitem]
  have hsucceeded : RingBuffer.succeeded (history ++ [.access t .pop (.rmw (.slot i) item 0)]) =
      RingBuffer.succeeded history := by
    simp [RingBuffer.succeeded]
  have hpopped : RingBuffer.popped (history ++ [.access t .pop (.rmw (.slot i) item 0)]) =
      RingBuffer.popped history := by
    simp [RingBuffer.popped]
  refine h.after hpt (fun pt' hpt' => Option.some.inj hpt' ▸ ⟨rfl, trivial⟩)
    (fun pu hpush hpu _ => hpu.drain hpush hfilled) hinv.nonNull ?_ ?_
  · rw [hsucceeded, hfilled]
    exact h.succeeded
  · rw [hpopped, hdrained]
    exact h.popped.trans (List.prefix_append _ _)

/-- A push that returns was the only one. -/
theorem addWriteCur (h : Alone k mem history points)
    (hinv : Inv k mem history points fillers drainers) {item : Ptr}
    (hpt : points t = some (.addWriteCur item)) {old new : UInt64} :
    Alone k (Function.update mem .writeCur (mem .writeCur + 1))
      (history ++ [.access t (.push item) (.rmw .writeCur old new),
        .ret t (.push item) (.pushed true)])
      (Function.update points t none) := by
  have hfilled : filled (history ++ [.access t (.push item) (.rmw .writeCur old new),
      .ret t (.push item) (.pushed true)]) = filled history := by simp [filled]
  have hdrained : drained (history ++ [.access t (.push item) (.rmw .writeCur old new),
      .ret t (.push item) (.pushed true)]) = drained history := by simp [drained]
  have hsucceeded :
      RingBuffer.succeeded (history ++ [.access t (.push item) (.rmw .writeCur old new),
      .ret t (.push item) (.pushed true)]) = RingBuffer.succeeded history ++ [item] := by
        simp [RingBuffer.succeeded]
  have hpopped : RingBuffer.popped (history ++ [.access t (.push item) (.rmw .writeCur old new),
      .ret t (.push item) (.pushed true)]) = RingBuffer.popped history := by
        simp [RingBuffer.popped]
  have hfillers := roster_alone hinv.filling (fun u pu hpu => h.eq_push hpt rfl hpu) hpt
  refine h.after hpt of_none (fun pu _ hpu _ => hpu.congr rfl hfilled hdrained) hinv.nonNull ?_ ?_
  · have hperm := hinv.pushes
    rw [hfillers] at hperm
    have hall := prefix_of_perm h.succeeded hperm
    exact ⟨[], by rw [hsucceeded, hfilled, hall, List.append_nil]⟩
  · rw [hpopped, hdrained]
    exact h.popped

/-- A pop that returns was the only one. -/
theorem addReadCur (h : Alone k mem history points)
    (hinv : Inv k mem history points fillers drainers) {item : Ptr}
    (hpt : points t = some (.addReadCur item)) {old new : UInt64} :
    Alone k (Function.update mem .readCur (mem .readCur + 1))
      (history ++ [.access t .pop (.rmw .readCur old new), .ret t .pop (.popped item)])
      (Function.update points t none) := by
  have hitem : item ≠ 0 := hinv.nonNull t _ hpt
  have hfilled : filled (history ++ [.access t .pop (.rmw .readCur old new),
      .ret t .pop (.popped item)]) = filled history := by
    simp [filled]
  have hdrained : drained (history ++ [.access t .pop (.rmw .readCur old new),
      .ret t .pop (.popped item)]) = drained history := by
    simp [drained]
  have hsucceeded : RingBuffer.succeeded (history ++ [.access t .pop (.rmw .readCur old new),
      .ret t .pop (.popped item)]) = RingBuffer.succeeded history := by simp [RingBuffer.succeeded]
  have hpopped : RingBuffer.popped (history ++ [.access t .pop (.rmw .readCur old new),
      .ret t .pop (.popped item)]) =
      RingBuffer.popped history ++ [item] := by simp [RingBuffer.popped, hitem]
  have hdrainers := roster_alone hinv.draining (fun u pu hpu => h.eq_pop hpt rfl hpu) hpt
  refine h.after hpt of_none (fun pu _ hpu _ => hpu.congr rfl hfilled hdrained) hinv.nonNull ?_ ?_
  · rw [hsucceeded, hfilled]
    exact h.succeeded
  · have hperm := hinv.pops
    rw [hdrainers] at hperm
    have hall := prefix_of_perm h.popped hperm
    exact ⟨[], by rw [hpopped, hdrained, hall, List.append_nil]⟩

/-- One access of a call at any of its points. -/
theorem step (h : Alone k mem history points) (hinv : Inv k mem history points fillers drainers)
    (hk : k < 64) (hpt : points t = some pt) :
    Alone k (pt.step (maxCur k) mem).2.1
      (history ++ .access t pt.op (pt.step (maxCur k) mem).1 ::
        (pt.step (maxCur k) mem).2.2.events t pt.op)
      (Function.update points t (pt.step (maxCur k) mem).2.2.point) := by
  have hknows := h.knows t pt hpt
  cases pt with
  | readWriteCur item =>
    exact h.quiet hinv hpt ⟨rfl, rfl⟩ ⟨rfl, rfl⟩ fun pt' hpt' =>
      Option.some.inj hpt' ▸ ⟨rfl, h.writeCur_eq hinv hpt rfl rfl⟩
  | fill item writeCur =>
    unfold Point.step
    dsimp only
    by_cases hfree : mem (.slot (writeCur &&& maxCur k)) = 0
    · rw [if_pos hfree, if_pos hfree, hfree]
      exact h.fill hinv hk hpt hfree
    · rw [if_neg hfree, if_neg hfree, Function.update_eq_self]
      exact h.quiet hinv hpt (by simp [filled, drained, Point.op]) ⟨rfl, rfl⟩ of_none
  | addWriteCur item => exact h.addWriteCur hinv hpt
  | readReadCur =>
    exact h.quiet hinv hpt ⟨rfl, rfl⟩ ⟨rfl, rfl⟩ fun pt' hpt' =>
      Option.some.inj hpt' ▸ ⟨rfl, h.readCur_eq hinv hpt rfl rfl⟩
  | readSlot readCur =>
    unfold Point.step
    dsimp only
    by_cases hne : mem (.slot (readCur &&& maxCur k)) ≠ 0
    · rw [if_pos hne]
      exact h.quiet hinv hpt ⟨rfl, rfl⟩ ⟨rfl, rfl⟩ fun pt' hpt' =>
        Option.some.inj hpt' ▸ ⟨rfl, (Inv.slot_cursor mem hk hknows).symm⟩
    · rw [if_neg hne]
      exact h.quiet hinv hpt ⟨rfl, rfl⟩ ⟨rfl, rfl⟩ of_none
  | readReadCurAgain item =>
    exact h.quiet hinv hpt ⟨rfl, rfl⟩ ⟨rfl, rfl⟩ fun pt' hpt' =>
      Option.some.inj hpt' ▸ ⟨rfl, h.readCur_eq hinv hpt rfl rfl, hknows⟩
  | drain item readCur =>
    have hslot : mem (.slot (readCur &&& maxCur k)) = item :=
      (Inv.slot_cursor mem hk hknows.1).trans hknows.2
    unfold Point.step
    dsimp only
    rw [if_pos hslot, if_pos hslot, hslot]
    exact h.drain hinv hpt
  | addReadCur item => exact h.addReadCur hinv hpt

omit [DecidableEq θ] in
/-- A push fails only when the ring is full. -/
theorem full (h : Alone k mem history points) (hinv : Inv k mem history points fillers drainers)
    (hk : k < 64) (hpt : points t = some pt)
    (hout : (pt.step (maxCur k) mem).2.2 = .returns (.pushed false)) :
    (filled history).length = (drained history).length + 2 ^ k := by
  have hknows := h.knows t pt hpt
  cases pt with
  | fill item writeCur =>
    unfold Point.step at hout
    dsimp only at hout
    split at hout
    · cases hout
    · next hheld =>
      rw [Inv.slot_cursor mem hk hknows, hinv.window.next_eq_iff (Nat.two_pow_pos k)] at hheld
      exact Nat.le_antisymm hinv.window.fits (Nat.le_of_not_lt hheld)
  | readSlot readCur => unfold Point.step at hout; dsimp only at hout; split at hout <;> cases hout
  | drain item readCur =>
    unfold Point.step at hout; dsimp only at hout; split at hout <;> cases hout
  | readWriteCur | addWriteCur | readReadCur | readReadCurAgain | addReadCur => cases hout

omit [DecidableEq θ] in
/-- A pop returns null only when the ring is empty. -/
theorem empty (h : Alone k mem history points) (hinv : Inv k mem history points fillers drainers)
    (hk : k < 64) (hpt : points t = some pt)
    (hout : (pt.step (maxCur k) mem).2.2 = .returns (.popped 0)) :
    (filled history).length = (drained history).length := by
  have hknows := h.knows t pt hpt
  have hnonNull := hinv.nonNull t pt hpt
  cases pt with
  | readSlot readCur =>
    unfold Point.step at hout
    dsimp only at hout
    split at hout
    · cases hout
    · next hfree =>
      rw [not_not, Inv.slot_cursor mem hk hknows, hinv.window.oldest (Nat.two_pow_pos k)] at hfree
      by_contra hne
      have hlt : (drained history).length < (filled history).length :=
        Nat.lt_of_le_of_ne hinv.window.le (Ne.symm hne)
      rw [List.getD_eq_getElem _ _ hlt] at hfree
      exact hinv.window.nonzero _ (List.getElem_mem hlt) hfree
  | drain item readCur =>
    have hslot : mem (.slot (readCur &&& maxCur k)) = item :=
      (Inv.slot_cursor mem hk hknows.1).trans hknows.2
    unfold Point.step at hout
    dsimp only at hout
    rw [if_pos hslot] at hout
    cases hout
  | addReadCur item =>
    cases hout
    exact absurd rfl hnonNull
  | fill item writeCur =>
    unfold Point.step at hout; dsimp only at hout; split at hout <;> cases hout
  | readWriteCur | addWriteCur | readReadCur | readReadCurAgain => cases hout

end Alone

/-- The invariant, whatever the threads' points are. -/
def GoodAlone (k : Nat) (s : RingState θ) : Prop :=
  ∃ points fillers drainers, Shared.At (callPoints (maxCur k)) s points ∧
    Inv k s.mem s.history points fillers drainers ∧ Alone k s.mem s.history points

theorem goodAlone_start (k : Nat) : GoodAlone k (start : RingState θ) := by
  obtain ⟨points, fillers, drainers, hat, h⟩ := good_start (θ := θ) k
  have hidle : ∀ t, points t = none := fun t => hat.eq_none rfl
  refine ⟨points, fillers, drainers, hat, h, fun t u pt pu hpt => ?_, fun t pt hpt => ?_,
    List.prefix_refl _, List.prefix_refl _⟩
  · rw [hidle t] at hpt; cases hpt
  · rw [hidle t] at hpt; cases hpt

theorem Alone.call {s : RingState θ} (hat : Shared.At (callPoints (maxCur k)) s points)
    (h : Alone k s.mem s.history points) (pt : Point) (hknows : Knows k s.mem s.history pt)
    (hop : AllowedAlone s t (some pt.op)) :
    Alone k s.mem (s.history ++ [.call t pt.op]) (Function.update points t (some pt)) := by
  have hfilled : filled (s.history ++ [.call t pt.op]) = filled s.history := by simp [filled]
  have hdrained : drained (s.history ++ [.call t pt.op]) = drained s.history := by simp [drained]
  have hsucceeded : RingBuffer.succeeded (s.history ++ [.call t pt.op]) =
      RingBuffer.succeeded s.history := by
    simp [RingBuffer.succeeded]
  have hpopped : RingBuffer.popped (s.history ++ [.call t pt.op]) =
    RingBuffer.popped s.history := by simp [RingBuffer.popped]
  have hother : ∀ u pu, points u = some pu → pu.op.isPush ≠ pt.op.isPush := fun u pu hpu =>
    hop.2 u (pu.op, pu.rest (maxCur k)) (hat.eq_some hpu)
  refine ⟨fun u v pu pv hu hv hsame => ?_, fun u pu hu => ?_, ?_, ?_⟩
  · by_cases hut : u = t
    · by_cases hvt : v = t
      · rw [hut, hvt]
      · subst hut
        rw [Function.update_self] at hu
        rw [Function.update_of_ne hvt] at hv
        cases hu
        exact absurd hsame.symm (hother v pv hv)
    · rw [Function.update_of_ne hut] at hu
      by_cases hvt : v = t
      · subst hvt
        rw [Function.update_self] at hv
        cases hv
        exact absurd hsame (hother u pu hu)
      · rw [Function.update_of_ne hvt] at hv
        exact h.alone u v pu pv hu hv hsame
  · have hpu : Knows k s.mem s.history pu := by
      by_cases hut : u = t
      · subst hut
        rw [Function.update_self] at hu
        exact Option.some.inj hu ▸ hknows
      · rw [Function.update_of_ne hut] at hu
        exact h.knows u pu hu
    exact hpu.congr rfl hfilled hdrained
  · rw [hsucceeded, hfilled]; exact h.succeeded
  · rw [hpopped, hdrained]; exact h.popped

theorem GoodAlone.step {s s' : RingState θ} (hk : k < 64) (h : GoodAlone k s)
    (hstep : Shared.Step (code (maxCur k)) AllowedAlone s s') : GoodAlone k s' := by
  obtain ⟨points, fillers, drainers, hat, hinv, halone⟩ := h
  cases hstep with
  | call t op hidle hop =>
    have hpoint := hat.eq_none hidle
    cases op with
    | push item =>
      exact ⟨_, _, _, hat.call (.readWriteCur item) rfl,
        hinv.begin hpoint (.readWriteCur item) hop.1 ⟨rfl, rfl⟩,
        halone.call hat (.readWriteCur item) trivial hop⟩
    | pop =>
      exact ⟨_, _, _, hat.call .readReadCur rfl, hinv.begin hpoint .readReadCur trivial ⟨rfl, rfl⟩,
        halone.call hat .readReadCur trivial hop⟩
  | access t hmay hacc =>
    obtain ⟨pt, hpt, hat', hmem, hhistory⟩ := hat.access hacc
    obtain ⟨fillers', drainers', hinv'⟩ := hinv.step hk hpt
      (by rintro item writeCur rfl -; exact Alone.toNat_slot hk (halone.knows t _ hpt))
      (by rintro item readCur rfl -; exact Alone.toNat_slot hk (halone.knows t _ hpt).1)
    exact ⟨_, fillers', drainers', hat', by rw [hmem, hhistory]; exact hinv',
      by rw [hmem, hhistory]; exact halone.step hinv hk hpt⟩

/-- A call that fails with this step had no room, or no item. -/
theorem GoodAlone.failed {s s' : RingState θ} (hk : k < 64) (h : GoodAlone k s)
    (hstep : Shared.Step (code (maxCur k)) AllowedAlone s s') :
    (∀ before t item, s'.history = before ++ [.ret t (.push item) (.pushed false)] →
      (filled before).length = (drained before).length + 2 ^ k) ∧
    (∀ before t, s'.history = before ++ [.ret t .pop (.popped 0)] →
      (filled before).length = (drained before).length) := by
  obtain ⟨points, fillers, drainers, hat, hinv, halone⟩ := h
  cases hstep with
  | call t op hidle hop =>
    constructor
    · intro before u item heq
      cases (List.append_inj' heq rfl).2
    · intro before u heq
      cases (List.append_inj' heq rfl).2
  | access t hmay hacc =>
    obtain ⟨pt, hpt, -, -, hhistory⟩ := hat.access hacc
    -- the access that fails does not change a slot
    have hsame : ∀ r, (pt.step (maxCur k) s.mem).2.2 = .returns r →
        r = .pushed false ∨ r = .popped 0 →
        filled (s.history ++ [.access t pt.op (pt.step (maxCur k) s.mem).1]) = filled s.history ∧
        drained (s.history ++ [.access t pt.op (pt.step (maxCur k) s.mem).1]) =
        drained s.history := by
      intro r hout hr
      cases pt with
      | fill item writeCur =>
        unfold Point.step at hout ⊢
        dsimp only at hout ⊢
        split at hout
        · cases hout
        · next hheld => rw [if_neg hheld]; simp [filled, drained, Point.op]
      | drain item readCur =>
        unfold Point.step at hout ⊢
        dsimp only at hout ⊢
        split at hout
        · cases hout
        · next hheld => rw [if_neg hheld]; simp [filled, drained, Point.op]
      | _ => simp [filled, drained, Point.op, Point.step]
    refine ⟨fun before u item heq => ?_, fun before u heq => ?_⟩
    · rw [hhistory] at heq
      obtain ⟨hout, -, rfl⟩ := eq_of_ret heq
      obtain ⟨hfilled, hdrained⟩ := hsame _ hout (.inl rfl)
      exact (congrArg List.length hfilled).trans
        ((halone.full hinv hk hpt hout).trans (congrArg (·.length + 2 ^ k) hdrained.symm))
    · rw [hhistory] at heq
      obtain ⟨hout, -, rfl⟩ := eq_of_ret heq
      obtain ⟨hfilled, hdrained⟩ := hsame _ hout (.inr rfl)
      exact (congrArg List.length hfilled).trans
        ((halone.empty hinv hk hpt hout).trans (congrArg List.length hdrained.symm))

/-- In the GCC build: if the calls of a side exclude one another, the ring is a queue in every
interleaving of the two sides. -/
theorem ringBuffer_alone (k : Nat) (hk : k < 64) (s : RingState θ)
    (hs : Shared.Reaches (code (maxCur k)) AllowedAlone start s) :
    Queue k s.history ∧ (s.Quiescent → Settled k s) := by
  obtain ⟨points, fillers, drainers, hat, hinv, halone⟩ :=
    hs.inv (goodAlone_start k) fun _ _ => GoodAlone.step hk
  have hfailed : (∀ before t item, s.history = before ++ [.ret t (.push item) (.pushed false)] →
      (filled before).length = (drained before).length + 2 ^ k) ∧
      (∀ before t, s.history = before ++ [.ret t .pop (.popped 0)] →
        (filled before).length = (drained before).length) := by
    cases hs with
    | refl =>
      have hne : ∀ (before : List (RingEvent θ)) e, (start : RingState θ).history ≠ before ++ [e] :=
        fun before e heq =>
        List.append_ne_nil_of_right_ne_nil before (List.cons_ne_nil e []) heq.symm
      exact ⟨fun before u item heq => absurd heq (hne _ _),
        fun before u heq => absurd heq (hne _ _)⟩
    | tail hs hstep =>
      exact (Shared.Reaches.inv hs (goodAlone_start k) fun _ _ => GoodAlone.step hk).failed hk hstep
  exact ⟨⟨halone.popped.trans hinv.isPrefix, halone.succeeded, hfailed.1, hfailed.2⟩,
    hinv.settled hk hat⟩

end

/-! ### Phases -/

/-- In a phase of pushes a cursor that was read may lag behind, and then its slot is occupied; in a
phase of pops its slot is free. -/
def Lags (k nFilled nDrained nFillers nDrainers : Nat) : Point → Prop
  | .fill _ writeCur =>
    ∃ j, writeCur = UInt64.ofNat j ∧ nDrained ≤ j ∧ j ≤ nFilled ∧ (j = nFilled → nFillers = 0)
  | .drain _ readCur =>
    ∃ j, readCur = UInt64.ofNat j ∧ nFilled ≤ j + 2 ^ k ∧ j ≤ nDrained ∧
      (j = nDrained → nDrainers = 0)
  | _ => True

/-- All the calls in flight are of one side. -/
structure Phased (k : Nat) (history : List (RingEvent θ)) (points : θ → Option Point)
    (nFillers nDrainers : Nat) : Prop where
  side : ∀ t u pt pu, points t = some pt → points u = some pu → pt.op.isPush = pu.op.isPush
  fillers_le : (drained history).length + nFillers ≤ (filled history).length
  drainers_le : (filled history).length + nDrainers ≤ (drained history).length + 2 ^ k
  lags : ∀ t pt, points t = some pt →
    Lags k (filled history).length (drained history).length nFillers nDrainers pt
  counts : ∀ item, (popped history).count item ≤ (succeeded history).count item

section
variable [DecidableEq θ] {k : Nat} {mem mem' : RingLoc → UInt64}
  {history history' : List (RingEvent θ)} {points : θ → Option Point}
  {fillers drainers fillers' drainers' : List (θ × Ptr)} {t : θ} {pt : Point}

theorem Lags.of_eq {nFilled nDrained nFillers nDrainers nFillers' nDrainers' : Nat}
    (h : Lags k nFilled nDrained nFillers nDrainers pt) (hfillers : nFillers = 0 → nFillers' = 0)
    (hdrainers : nDrainers = 0 → nDrainers' = 0) :
    Lags k nFilled nDrained nFillers' nDrainers' pt := by
  cases pt with
  | fill item writeCur =>
    obtain ⟨j, hj, hle, hle', heq⟩ := h
    exact ⟨j, hj, hle, hle', fun hlast => hfillers (heq hlast)⟩
  | drain item readCur =>
    obtain ⟨j, hj, hle, hle', heq⟩ := h
    exact ⟨j, hj, hle, hle', fun hlast => hdrainers (heq hlast)⟩
  | _ => trivial

namespace Phased

omit [DecidableEq θ] in
theorem fillers_eq_nil (h : Phased k history points fillers.length drainers.length)
    (hfilling : Roster points Point.filling fillers) (hpt : points t = some pt)
    (hpop : pt.op.isPush = false) : fillers = [] := by
  refine List.eq_nil_iff_forall_not_mem.2 fun ⟨u, item⟩ hmem => ?_
  obtain ⟨pu, hpu, hitem⟩ := (hfilling.mem_iff u item).1 hmem
  have hside := h.side u t pu pt hpu hpt
  rw [Point.isPush_of_filling hitem, hpop] at hside
  cases hside

omit [DecidableEq θ] in
theorem drainers_eq_nil (h : Phased k history points fillers.length drainers.length)
    (hdraining : Roster points Point.draining drainers) (hpt : points t = some pt)
    (hpush : pt.op.isPush = true) : drainers = [] := by
  refine List.eq_nil_iff_forall_not_mem.2 fun ⟨u, item⟩ hmem => ?_
  obtain ⟨pu, hpu, hitem⟩ := (hdraining.mem_iff u item).1 hmem
  have hside := h.side u t pu pt hpu hpt
  rw [Point.isPush_of_draining hitem, hpush] at hside
  cases hside

omit [DecidableEq θ] in
/-- The slot that a push finds free is the next one. -/
theorem fill_inTurn (h : Phased k history points fillers.length drainers.length)
    (hinv : Inv k mem history points fillers drainers) (hk : k < 64) {item : Ptr} {writeCur : Usz}
    (hpt : points t = some (.fill item writeCur))
    (hfree : mem (.slot (writeCur &&& maxCur k)) = 0) :
    (writeCur &&& maxCur k).toNat = (filled history).length % 2 ^ k ∧ fillers = [] := by
  obtain ⟨j, hj, hfirst, hle, hlast⟩ := h.lags t _ hpt
  rw [Inv.slot_cursor mem hk hj] at hfree
  have heq : j = (filled history).length := by
    refine Nat.le_antisymm hle (Nat.le_of_not_lt fun hlt => ?_)
    rw [hinv.window.holds j hlt hfirst] at hfree
    exact hinv.window.nonzero _ (List.getElem_mem hlt) hfree
  exact ⟨heq ▸ Alone.toNat_slot hk hj, List.length_eq_zero_iff.1 (hlast heq)⟩

omit [DecidableEq θ] in
/-- The slot in which a pop finds its item is the next one. -/
theorem drain_inTurn (h : Phased k history points fillers.length drainers.length)
    (hinv : Inv k mem history points fillers drainers) (hk : k < 64) {item : Ptr} {readCur : Usz}
    (hpt : points t = some (.drain item readCur))
    (hslot : mem (.slot (readCur &&& maxCur k)) = item) :
    (readCur &&& maxCur k).toNat = (drained history).length % 2 ^ k ∧ drainers = [] := by
  obtain ⟨j, hj, hfits, hle, hlast⟩ := h.lags t _ hpt
  have hitem : item ≠ 0 := hinv.nonNull t _ hpt
  rw [← hslot, Inv.slot_cursor mem hk hj,
    hinv.window.slot_ne_iff (Nat.mod_lt _ (Nat.two_pow_pos k))] at hitem
  obtain ⟨i, hfirst, hi, hmod⟩ := hitem
  have heq : i = j := RingWindow.eq_of_mod_eq (Nat.le_trans hle hfirst) (by omega) hmod
  have heq' : j = (drained history).length := by omega
  exact ⟨heq' ▸ Alone.toNat_slot hk hj, List.length_eq_zero_iff.1 (hlast heq')⟩

/-- Thread `t` makes an access; the others lag behind as before. -/
theorem after (h : Phased k history points fillers.length drainers.length)
    (hpt : points t = some pt) {o : Option Point} (hop : ∀ pt', o = some pt' → pt'.op = pt.op ∧
      Lags k (filled history').length
      (drained history').length fillers'.length drainers'.length pt')
    (hother : ∀ pu, pu.op.isPush = pt.op.isPush →
      Lags k (filled history).length (drained history).length fillers.length drainers.length pu →
      Lags k (filled history').length (drained history').length fillers'.length drainers'.length pu)
    (hfillers : (drained history').length + fillers'.length ≤ (filled history').length)
    (hdrainers : (filled history').length + drainers'.length ≤ (drained history').length + 2 ^ k)
    (hcounts : ∀ item, (popped history').count item ≤ (succeeded history').count item) :
    Phased k history' (Function.update points t o) fillers'.length drainers'.length := by
  have hside : ∀ u pu, Function.update points t o u = some pu → pu.op.isPush = pt.op.isPush := by
    intro u pu hu
    by_cases hut : u = t
    · subst hut
      rw [Function.update_self] at hu
      exact congrArg RingOp.isPush (hop pu hu).1
    · rw [Function.update_of_ne hut] at hu
      exact h.side u t pu pt hu hpt
  refine ⟨fun u v pu pv hu hv => (hside u pu hu).trans (hside v pv hv).symm, hfillers, hdrainers,
    fun u pu hu => ?_, hcounts⟩
  by_cases hut : u = t
  · subst hut
    rw [Function.update_self] at hu
    exact (hop pu hu).2
  · rw [Function.update_of_ne hut] at hu
    exact hother pu (h.side u t pu pt hu hpt) (h.lags u pu hu)

/-- An access that changes neither a slot nor a cursor. -/
theorem quiet (h : Phased k history points fillers.length drainers.length)
    (hinv : Inv k mem history points fillers drainers) (hpt : points t = some pt)
    (hpoint : pt.filling = none ∧ pt.draining = none) {a : Access RingLoc UInt64} {out : Out}
    (ha : filled [(.access t pt.op a : RingEvent θ)] = [] ∧
      drained [(.access t pt.op a : RingEvent θ)] = [])
    (hret : succeeded (out.events t pt.op : List (RingEvent θ)) = [] ∧
      popped (out.events t pt.op : List (RingEvent θ)) = [])
    (hout : ∀ pt', out.point = some pt' → pt'.op = pt.op ∧
      pt'.filling = none ∧ pt'.draining = none ∧
      Lags k (filled history).length (drained history).length fillers.length drainers.length pt')
    (hfilling : Roster (Function.update points t out.point) Point.filling fillers')
    (hdraining : Roster (Function.update points t out.point) Point.draining drainers') :
    Phased k (history ++ .access t pt.op a :: out.events t pt.op)
      (Function.update points t out.point) fillers'.length drainers'.length := by
  have hold : ∀ pt', points t = some pt' → pt'.filling = none ∧ pt'.draining = none :=
    fun pt' hpt' =>
    Option.some.inj (hpt.symm.trans hpt') ▸ hpoint
  have hlen := hfilling.length_eq (hinv.filling.other (fun pt' hpt' => (hold pt' hpt').1)
    fun pt' hpt' => (hout pt' hpt').2.1)
  have hlen' := hdraining.length_eq
    (hinv.draining.other (fun pt' hpt' => (hold pt' hpt').2) fun pt' hpt' => (hout pt' hpt').2.2.1)
  have hfilled := filled_after history t pt.op a out
  have hdrained := drained_after history t pt.op a out
  have hsucceeded := succeeded_after history t pt.op a out
  have hpopped := popped_after history t pt.op a out
  rw [ha.1, List.append_nil] at hfilled
  rw [ha.2, List.append_nil] at hdrained
  rw [hret.1, List.append_nil] at hsucceeded
  rw [hret.2, List.append_nil] at hpopped
  refine h.after hpt ?_ ?_ ?_ ?_ ?_
  · intro pt' hpt'
    rw [hfilled, hdrained, hlen, hlen']
    exact ⟨(hout pt' hpt').1, (hout pt' hpt').2.2.2⟩
  · intro pu _ hpu
    rw [hfilled, hdrained, hlen, hlen']
    exact hpu
  · rw [hfilled, hdrained, hlen]
    exact h.fillers_le
  · rw [hfilled, hdrained, hlen']
    exact h.drainers_le
  · rw [hsucceeded, hpopped]
    exact h.counts

theorem fill (h : Phased k history points fillers.length drainers.length)
    (hinv : Inv k mem history points fillers drainers) (hk : k < 64) {item : Ptr} {writeCur : Usz}
    (hpt : points t = some (.fill item writeCur)) (hfree : mem (.slot (writeCur &&& maxCur k)) = 0)
    {i : Usz}
    (hfilling : Roster (Function.update points t (some (.addWriteCur item))) Point.filling fillers')
    (hdraining : Roster (Function.update points t (some (.addWriteCur item)))
      Point.draining drainers') :
    Phased k (history ++ [.access t (.push item) (.rmw (.slot i) 0 item)])
      (Function.update points t (some (.addWriteCur item))) fillers'.length drainers'.length := by
  have hitem : item ≠ 0 := hinv.nonNull t _ hpt
  obtain ⟨hturn, hnil⟩ := h.fill_inTurn hinv hk hpt hfree
  have hnil' := h.drainers_eq_nil hinv.draining hpt rfl
  have hlen := hfilling.length_eq
    (hinv.filling.enter (b := item) (fun pt' hpt' => Option.some.inj (hpt.symm.trans hpt') ▸ rfl)
      rfl)
  have hlen' :=
    hdraining.length_eq
      (hinv.draining.other (fun pt' hpt' => Option.some.inj (hpt.symm.trans hpt') ▸ rfl)
    (fun pt' hpt' => Option.some.inj hpt' ▸ rfl))
  have hroom : (filled history).length < (drained history).length + 2 ^ k := by
    refine (hinv.window.next_eq_iff (Nat.two_pow_pos k)).1 ?_
    rw [← hturn, slots, UInt64.ofNat_toNat]
    exact hfree
  have hfilled : filled (history ++ [.access t (.push item) (.rmw (.slot i) 0 item)]) =
      filled history ++ [item] := by
    simp [filled, Ne.symm hitem]
  have hdrained : drained (history ++ [.access t (.push item) (.rmw (.slot i) 0 item)]) =
    drained history := by simp [drained]
  have hsucceeded : succeeded (history ++ [.access t (.push item) (.rmw (.slot i) 0 item)]) =
      succeeded history := by
    simp [succeeded]
  have hpopped : popped (history ++ [.access t (.push item) (.rmw (.slot i) 0 item)]) =
    popped history := by simp [popped]
  have hle := hinv.window.le
  subst hnil hnil'
  rw [List.length_cons, List.length_nil, Nat.zero_add] at hlen
  rw [List.length_nil] at hlen'
  refine h.after hpt (fun pt' hpt' => Option.some.inj hpt' ▸ ⟨rfl, trivial⟩)
    (fun pu hpush hpu => ?_) ?_ ?_ ?_
  · rw [hfilled, hdrained, List.length_append, List.length_singleton]
    cases pu with
    | fill item' writeCur' =>
      obtain ⟨j, hj, hfirst, hlast, -⟩ := hpu
      exact ⟨j, hj, hfirst, Nat.le_succ_of_le hlast, fun heq => by omega⟩
    | drain => cases hpush
    | _ => trivial
  · rw [hfilled, hdrained, hlen, List.length_append, List.length_singleton]
    omega
  · rw [hfilled, hdrained, hlen', List.length_append, List.length_singleton]
    omega
  · rw [hsucceeded, hpopped]
    exact h.counts

theorem drain (h : Phased k history points fillers.length drainers.length)
    (hinv : Inv k mem history points fillers drainers) (hk : k < 64) {item : Ptr} {readCur : Usz}
    (hpt : points t = some (.drain item readCur))
    (hslot : mem (.slot (readCur &&& maxCur k)) = item) {i : Usz}
    (hfilling : Roster (Function.update points t (some (.addReadCur item))) Point.filling fillers')
    (hdraining : Roster (Function.update points t (some (.addReadCur item)))
      Point.draining drainers') :
    Phased k (history ++ [.access t .pop (.rmw (.slot i) item 0)])
      (Function.update points t (some (.addReadCur item))) fillers'.length drainers'.length := by
  have hitem : item ≠ 0 := hinv.nonNull t _ hpt
  obtain ⟨hturn, hnil⟩ := h.drain_inTurn hinv hk hpt hslot
  have hnil' := h.fillers_eq_nil hinv.filling hpt rfl
  have hlen := hdraining.length_eq
    (hinv.draining.enter (b := item) (fun pt' hpt' => Option.some.inj (hpt.symm.trans hpt') ▸ rfl)
      rfl)
  have hlen' :=
    hfilling.length_eq
      (hinv.filling.other (fun pt' hpt' => Option.some.inj (hpt.symm.trans hpt') ▸ rfl)
    (fun pt' hpt' => Option.some.inj hpt' ▸ rfl))
  have hsome : (drained history).length < (filled history).length := by
    have hheld : slots mem ((drained history).length % 2 ^ k) ≠ 0 := by
      rw [← hturn, slots, UInt64.ofNat_toNat, hslot]
      exact hitem
    exact (List.getElem?_eq_some_iff.1 (hinv.window.pop (Nat.two_pow_pos k) hheld).2).1
  have hfilled : filled (history ++ [.access t .pop (.rmw (.slot i) item 0)]) = filled history := by
    simp [filled]
  have hdrained : drained (history ++ [.access t .pop (.rmw (.slot i) item 0)]) =
      drained history ++ [item] := by
    simp [drained, hitem]
  have hsucceeded : succeeded (history ++ [.access t .pop (.rmw (.slot i) item 0)]) =
    succeeded history := by simp [succeeded]
  have hpopped : popped (history ++ [.access t .pop (.rmw (.slot i) item 0)]) = popped history := by
    simp [popped]
  have hfits := hinv.window.fits
  subst hnil hnil'
  rw [List.length_cons, List.length_nil, Nat.zero_add] at hlen
  rw [List.length_nil] at hlen'
  refine h.after hpt (fun pt' hpt' => Option.some.inj hpt' ▸ ⟨rfl, trivial⟩)
    (fun pu hpop hpu => ?_) ?_ ?_ ?_
  · rw [hfilled, hdrained, List.length_append, List.length_singleton]
    cases pu with
    | drain item' readCur' =>
      obtain ⟨j, hj, hfirst, hlast, -⟩ := hpu
      exact ⟨j, hj, hfirst, Nat.le_succ_of_le hlast, fun heq => by omega⟩
    | fill => cases hpop
    | _ => trivial
  · rw [hfilled, hdrained, hlen', List.length_append, List.length_singleton]
    omega
  · rw [hfilled, hdrained, hlen, List.length_append, List.length_singleton]
    omega
  · rw [hsucceeded, hpopped]
    exact h.counts

theorem addWriteCur (h : Phased k history points fillers.length drainers.length)
    (hinv : Inv k mem history points fillers drainers) {item : Ptr}
    (hpt : points t = some (.addWriteCur item)) {old new : UInt64}
    (hfilling : Roster (Function.update points t none) Point.filling fillers')
    (hdraining : Roster (Function.update points t none) Point.draining drainers') :
    Phased k (history ++ [.access t (.push item) (.rmw .writeCur old new),
      .ret t (.push item) (.pushed true)])
      (Function.update points t none) fillers'.length drainers'.length := by
  obtain ⟨hleave, hmem⟩ := hinv.filling.leave hpt rfl (o := none) nofun
  have hlen := (hfilling.length_eq hleave).trans (List.length_erase_of_mem hmem)
  have hlen' := hdraining.length_eq
    (hinv.draining.other (fun pt' hpt' => Option.some.inj (hpt.symm.trans hpt') ▸ rfl) nofun)
  have hfilled : filled (history ++ [.access t (.push item) (.rmw .writeCur old new),
      .ret t (.push item) (.pushed true)]) = filled history := by simp [filled]
  have hdrained : drained (history ++ [.access t (.push item) (.rmw .writeCur old new),
      .ret t (.push item) (.pushed true)]) = drained history := by simp [drained]
  have hsucceeded : succeeded (history ++ [.access t (.push item) (.rmw .writeCur old new),
      .ret t (.push item) (.pushed true)]) = succeeded history ++ [item] := by simp [succeeded]
  have hpopped : popped (history ++ [.access t (.push item) (.rmw .writeCur old new),
      .ret t (.push item) (.pushed true)]) = popped history := by simp [popped]
  have hle := h.fillers_le
  refine h.after hpt of_none (fun pu _ hpu => ?_) ?_ ?_ fun x => ?_
  · rw [hfilled, hdrained, hlen, hlen']
    exact hpu.of_eq (fun hzero => by rw [hzero]) id
  · rw [hfilled, hdrained, hlen]
    omega
  · rw [hfilled, hdrained, hlen']
    exact h.drainers_le
  · rw [hsucceeded, hpopped, List.count_append]
    exact Nat.le_add_right_of_le (h.counts x)

/-- All the pushes have returned when a pop returns. -/
theorem addReadCur (h : Phased k history points fillers.length drainers.length)
    (hinv : Inv k mem history points fillers drainers) {item : Ptr}
    (hpt : points t = some (.addReadCur item)) {old new : UInt64}
    (hfilling : Roster (Function.update points t none) Point.filling fillers')
    (hdraining : Roster (Function.update points t none) Point.draining drainers') :
    Phased k (history ++ [.access t .pop (.rmw .readCur old new), .ret t .pop (.popped item)])
      (Function.update points t none) fillers'.length drainers'.length := by
  have hitem : item ≠ 0 := hinv.nonNull t _ hpt
  obtain ⟨hleave, hmem⟩ := hinv.draining.leave hpt rfl (o := none) nofun
  have hlen := (hdraining.length_eq hleave).trans (List.length_erase_of_mem hmem)
  have hlen' := hfilling.length_eq
    (hinv.filling.other (fun pt' hpt' => Option.some.inj (hpt.symm.trans hpt') ▸ rfl) nofun)
  have hnil := h.fillers_eq_nil hinv.filling hpt rfl
  have hfilled : filled (history ++ [.access t .pop (.rmw .readCur old new),
      .ret t .pop (.popped item)]) = filled history := by
    simp [filled]
  have hdrained : drained (history ++ [.access t .pop (.rmw .readCur old new),
      .ret t .pop (.popped item)]) = drained history := by
    simp [drained]
  have hsucceeded :
      succeeded (history ++ [.access t .pop (.rmw .readCur old new), .ret t .pop (.popped item)]) =
      succeeded history := by simp [succeeded]
  have hpopped :
      popped (history ++ [.access t .pop (.rmw .readCur old new), .ret t .pop (.popped item)]) =
      popped history ++ [item] := by simp [popped, hitem]
  have hle := h.drainers_le
  refine h.after hpt of_none (fun pu _ hpu => ?_) ?_ ?_ fun x => ?_
  · rw [hfilled, hdrained, hlen, hlen']
    exact hpu.of_eq id fun hzero => by rw [hzero]
  · rw [hfilled, hdrained, hlen']
    exact h.fillers_le
  · rw [hfilled, hdrained, hlen]
    omega
  · have hpushes := hinv.pushes
    rw [hnil, List.map_nil, List.append_nil] at hpushes
    have hreturned : (popped history ++ [item]).count x ≤ (drained history).count x := by
      rw [hinv.pops.count_eq, List.count_append, List.count_append]
      have hsub : [item].Sublist (drainers.map Prod.snd) :=
        List.singleton_sublist.2 (List.mem_map_of_mem (f := Prod.snd) hmem)
      exact Nat.add_le_add_left (hsub.count_le x) _
    rw [hsucceeded, hpopped, ← hpushes.count_eq]
    exact hreturned.trans (hinv.isPrefix.sublist.count_le x)

/-- One access of a call at any of its points. -/
theorem step (h : Phased k history points fillers.length drainers.length)
    (hinv : Inv k mem history points fillers drainers) (hk : k < 64) (hpt : points t = some pt)
    (hfilling : Roster (Function.update points t (pt.step (maxCur k) mem).2.2.point) Point.filling
      fillers')
    (hdraining : Roster (Function.update points t (pt.step (maxCur k) mem).2.2.point)
      Point.draining drainers') :
    Phased k (history ++ .access t pt.op (pt.step (maxCur k) mem).1 ::
      (pt.step (maxCur k) mem).2.2.events t pt.op) (Function.update points t
      (pt.step (maxCur k) mem).2.2.point) fillers'.length drainers'.length := by
  have hfillers := h.fillers_le
  have hdrainers := h.drainers_le
  cases pt with
  | readWriteCur item =>
    refine h.quiet hinv hpt ⟨rfl, rfl⟩ ⟨rfl, rfl⟩
      ⟨rfl, rfl⟩ (fun pt' hpt' => Option.some.inj hpt' ▸ ⟨rfl, rfl, rfl, ?_⟩)
      hfilling hdraining
    refine ⟨(filled history).length - fillers.length, ?_, by omega,
      Nat.sub_le _ _, fun heq => by omega⟩
    rw [UInt64.ofNat_sub (by omega), ← hinv.writeCur, UInt64.add_sub_cancel]
  | fill item writeCur =>
    unfold Point.step at hfilling hdraining ⊢
    dsimp only at hfilling hdraining ⊢
    by_cases hfree : mem (.slot (writeCur &&& maxCur k)) = 0
    · rw [if_pos hfree] at hfilling hdraining
      rw [if_pos hfree, if_pos hfree, hfree]
      exact h.fill hinv hk hpt hfree hfilling hdraining
    · rw [if_neg hfree] at hfilling hdraining
      rw [if_neg hfree, if_neg hfree]
      exact h.quiet hinv hpt ⟨rfl, rfl⟩ (by simp [filled, drained, Point.op])
        ⟨rfl, rfl⟩ of_none hfilling hdraining
  | addWriteCur item => exact h.addWriteCur hinv hpt hfilling hdraining
  | readReadCur =>
    exact h.quiet hinv hpt ⟨rfl, rfl⟩ ⟨rfl, rfl⟩
      ⟨rfl, rfl⟩ (fun pt' hpt' => Option.some.inj hpt' ▸ ⟨rfl, rfl, rfl, trivial⟩)
      hfilling hdraining
  | readSlot readCur =>
    unfold Point.step at hfilling hdraining ⊢
    dsimp only at hfilling hdraining ⊢
    by_cases hne : mem (.slot (readCur &&& maxCur k)) ≠ 0
    · rw [if_pos hne] at hfilling hdraining ⊢
      exact h.quiet hinv hpt ⟨rfl, rfl⟩ ⟨rfl, rfl⟩
        ⟨rfl, rfl⟩ (fun pt' hpt' => Option.some.inj hpt' ▸ ⟨rfl, rfl, rfl, trivial⟩)
        hfilling hdraining
    · rw [if_neg hne] at hfilling hdraining ⊢
      exact h.quiet hinv hpt ⟨rfl, rfl⟩ ⟨rfl, rfl⟩ ⟨rfl, rfl⟩ of_none hfilling hdraining
  | readReadCurAgain item =>
    refine h.quiet hinv hpt ⟨rfl, rfl⟩ ⟨rfl, rfl⟩
      ⟨rfl, rfl⟩ (fun pt' hpt' => Option.some.inj hpt' ▸ ⟨rfl, rfl, rfl, ?_⟩)
      hfilling hdraining
    have hle : drainers.length ≤ (drained history).length := by
      have hcount := hinv.pops.length_eq
      rw [List.length_append, List.length_map] at hcount
      omega
    refine ⟨(drained history).length - drainers.length, ?_, by omega,
      Nat.sub_le _ _, fun heq => by omega⟩
    rw [UInt64.ofNat_sub hle, ← hinv.readCur, UInt64.add_sub_cancel]
  | drain item readCur =>
    unfold Point.step at hfilling hdraining ⊢
    dsimp only at hfilling hdraining ⊢
    by_cases hslot : mem (.slot (readCur &&& maxCur k)) = item
    · rw [if_pos hslot] at hfilling hdraining
      rw [if_pos hslot, if_pos hslot, hslot]
      exact h.drain hinv hk hpt hslot hfilling hdraining
    · rw [if_neg hslot] at hfilling hdraining
      rw [if_neg hslot, if_neg hslot]
      exact h.quiet hinv hpt ⟨rfl, rfl⟩ (by simp [filled, drained, Point.op])
        ⟨rfl, rfl⟩ of_none hfilling hdraining
  | addReadCur item => exact h.addReadCur hinv hpt hfilling hdraining

end Phased

/-- The invariant, whatever the threads' points are. -/
def GoodPhased (k : Nat) (s : RingState θ) : Prop :=
  ∃ points fillers drainers, Shared.At (callPoints (maxCur k)) s points ∧
    Inv k s.mem s.history points fillers drainers ∧
    Phased k s.history points fillers.length drainers.length

theorem goodPhased_start (k : Nat) : GoodPhased k (start : RingState θ) := by
  obtain ⟨points, fillers, drainers, hat, h⟩ := good_start (θ := θ) k
  have hidle : ∀ t, points t = none := fun t => hat.eq_none rfl
  obtain rfl := h.filling.eq_nil hidle
  obtain rfl := h.draining.eq_nil hidle
  refine ⟨points, [], [], hat, h, fun t u pt pu hpt => ?_, Nat.le_refl _, Nat.zero_le _,
    fun t pt hpt => ?_, fun item => Nat.le_refl _⟩
  · rw [hidle t] at hpt; cases hpt
  · rw [hidle t] at hpt; cases hpt

theorem Phased.call {s : RingState θ} (hat : Shared.At (callPoints (maxCur k)) s points)
    (h : Phased k s.history points fillers.length drainers.length) (pt : Point)
    (hlags : Lags k (filled s.history).length (drained s.history).length fillers.length
      drainers.length pt)
    (hop : AllowedPhased s t (some pt.op)) :
    Phased k (s.history ++ [.call t pt.op]) (Function.update points t (some pt))
      fillers.length drainers.length := by
  have hfilled : filled (s.history ++ [.call t pt.op]) = filled s.history := by simp [filled]
  have hdrained : drained (s.history ++ [.call t pt.op]) = drained s.history := by simp [drained]
  have hsucceeded : succeeded (s.history ++ [.call t pt.op]) = succeeded s.history := by
    simp [succeeded]
  have hpopped : popped (s.history ++ [.call t pt.op]) = popped s.history := by simp [popped]
  have hside : ∀ u pu, Function.update points t (some pt) u = some pu →
      pu.op.isPush = pt.op.isPush := by
    intro u pu hu
    by_cases hut : u = t
    · subst hut
      rw [Function.update_self] at hu
      exact Option.some.inj hu ▸ rfl
    · rw [Function.update_of_ne hut] at hu
      exact hop.2 u (pu.op, pu.rest (maxCur k)) (hat.eq_some hu)
  refine ⟨fun u v pu pv hu hv => (hside u pu hu).trans (hside v pv hv).symm, ?_,
    ?_, fun u pu hu => ?_, ?_⟩
  · rw [hfilled, hdrained]; exact h.fillers_le
  · rw [hfilled, hdrained]; exact h.drainers_le
  · rw [hfilled, hdrained]
    by_cases hut : u = t
    · subst hut
      rw [Function.update_self] at hu
      exact Option.some.inj hu ▸ hlags
    · rw [Function.update_of_ne hut] at hu
      exact h.lags u pu hu
  · rw [hsucceeded, hpopped]; exact h.counts

theorem GoodPhased.step {s s' : RingState θ} (hk : k < 64) (h : GoodPhased k s)
    (hstep : Shared.Step (code (maxCur k)) AllowedPhased s s') : GoodPhased k s' := by
  obtain ⟨points, fillers, drainers, hat, hinv, hphased⟩ := h
  cases hstep with
  | call t op hidle hop =>
    have hpoint := hat.eq_none hidle
    cases op with
    | push item =>
      exact ⟨_, _, _, hat.call (.readWriteCur item) rfl,
        hinv.begin hpoint (.readWriteCur item) hop.1 ⟨rfl, rfl⟩,
        hphased.call hat (.readWriteCur item) trivial hop⟩
    | pop =>
      exact ⟨_, _, _, hat.call .readReadCur rfl, hinv.begin hpoint .readReadCur trivial ⟨rfl, rfl⟩,
        hphased.call hat .readReadCur trivial hop⟩
  | access t hmay hacc =>
    obtain ⟨pt, hpt, hat', hmem, hhistory⟩ := hat.access hacc
    obtain ⟨fillers', drainers', hinv'⟩ := hinv.step hk hpt
      (by rintro item writeCur rfl hfree; exact (hphased.fill_inTurn hinv hk hpt hfree).1)
      (by rintro item readCur rfl hslot; exact (hphased.drain_inTurn hinv hk hpt hslot).1)
    exact ⟨_, fillers', drainers', hat', by rw [hmem, hhistory]; exact hinv',
      by rw [hhistory]; exact hphased.step hinv hk hpt hinv'.filling hinv'.draining⟩

/-- In the GCC build: if pushes overlap only with pushes and pops only with pops, no item is
returned more often than it was pushed, the items come out in the order in which they were put in,
and whenever no call is in flight the ring is settled. -/
theorem ringBuffer_phased (k : Nat) (hk : k < 64) (s : RingState θ)
    (hs : Shared.Reaches (code (maxCur k)) AllowedPhased start s) :
    (∀ item, (popped s.history).count item ≤ (succeeded s.history).count item) ∧
      drained s.history <+: filled s.history ∧ (s.Quiescent → Settled k s) := by
  obtain ⟨points, fillers, drainers, hat, hinv, hphased⟩ :=
    hs.inv (goodPhased_start k) fun _ _ => GoodPhased.step hk
  exact ⟨hphased.counts, hinv.isPrefix, hinv.settled hk hat⟩

end

/-! ### Schedules on a ring of two slots -/

instance {n : Nat} (s : RingState (Fin n)) (t : Fin n) (o : Option RingOp) :
    Decidable (AllowedAlone s t o) :=
  match o with
  | some op => inferInstanceAs (Decidable (Allowed s t (some op) ∧ ∀ u, ∀ call ∈ s.running u, _))
  | none => inferInstanceAs (Decidable True)

instance {n : Nat} (s : RingState (Fin n)) (t : Fin n) (o : Option RingOp) :
    Decidable (AllowedPhased s t o) :=
  match o with
  | some op => inferInstanceAs (Decidable (Allowed s t (some op) ∧ ∀ u, ∀ call ∈ s.running u, _))
  | none => inferInstanceAs (Decidable True)

/-- Thread `0` pushes two items and fails to push a third, while thread `1` pops the first. -/
def overlapping : List (Fin 2 × Option RingOp) :=
  [(0, some (.push 8)), (0, none), (1, some .pop), (0, none), (1, none), (1, none), (0, none),
    (1, none), (0, some (.push 16)),
    (0, none), (0, none), (0, none), (0, some (.push 24)), (0, none),
    (0, none), (1, none), (1, none)]

def overlappingState : RingState (Fin 2) :=
  (Shared.schedule (code (maxCur 1)) AllowedAlone overlapping start).getD start

theorem ringBuffer_alone_overlapping :
    popped overlappingState.history = [8] ∧ succeeded overlappingState.history = [8, 16] ∧
    Queue 1 overlappingState.history ∧ Settled 1 overlappingState := by
  have hsched : Shared.schedule (code (maxCur 1)) AllowedAlone overlapping start =
      some overlappingState :=
    Option.eq_some_of_isSome (by decide +kernel)
  obtain ⟨hqueue, hsettled⟩ :=
    ringBuffer_alone 1 (by decide) overlappingState (Shared.reaches_of_schedule hsched)
  exact ⟨by decide +kernel, by decide +kernel, hqueue, hsettled fun t =>
    Option.isNone_iff_eq_none.1 ((by decide +kernel : ∀ t, (overlappingState.running t).isNone) t)⟩

/-- Two threads push at once, and one of them fails although the other slot is free; then both
pop. -/
def phases : List (Fin 2 × Option RingOp) :=
  [(0, some (.push 8)), (1, some (.push 16)), (0, none), (1, none), (1, none), (0, none), (1, none),
    (0, some .pop), (1, some .pop),
    (0, none), (1, none), (0, none), (1, none), (1, none), (0, none),
    (0, none), (1, none), (0, none)]

def phasesState : RingState (Fin 2) :=
  (Shared.schedule (code (maxCur 1)) AllowedPhased phases start).getD start

theorem ringBuffer_phased_phases :
    succeeded phasesState.history = [16] ∧ popped phasesState.history = [16] ∧
    Settled 1 phasesState := by
  have hsched : Shared.schedule (code (maxCur 1)) AllowedPhased phases start = some phasesState :=
    Option.eq_some_of_isSome (by decide +kernel)
  obtain ⟨-, -, hsettled⟩ :=
    ringBuffer_phased 1 (by decide) phasesState (Shared.reaches_of_schedule hsched)
  exact ⟨by decide +kernel, by decide +kernel, hsettled fun t =>
    Option.isNone_iff_eq_none.1 ((by decide +kernel : ∀ t, (phasesState.running t).isNone) t)⟩

end RingBuffer

end TinyBase
