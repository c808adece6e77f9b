import TinyBase.MpscFreeList

/-!
# When `Pop` finds the free list empty

`MPSCFreeListPop` returns `NULL` when it meets a link that is missing, also when the node behind it
was pushed by a call that has returned. It does so only if another push stands between its exchange
and its last store, or comes in between the reads of `Tail->Next` and `Head`. In a run where neither
happens to a `Pop` that has always had a node to find, `NULL` means that there was a moment without
one.
-/

namespace TinyBase
namespace FreeList
variable {ι θ : Type} [DecidableEq ι]

/-! ### The moments of a call -/

/-- The nodes whose pushes have returned. -/
def pushReturned (history : List (FreeListEvent θ ι)) : List ι :=
  history.filterMap fun
    | .ret _ (.push n) _ => some n
    | _ => none

/-- No node is left of those whose pushes have returned: all have been popped. -/
def AllPopped (history : List (FreeListEvent θ ι)) : Prop :=
  ∀ n ∈ pushReturned history, (pushReturned history).count n ≤ (returned history).count (.node n)

/-- Since thread `t` called `Pop` for the last time, there was a moment when no node was left. -/
def FoundEmpty (t : θ) (history : List (FreeListEvent θ ι)) : Prop :=
  ∃ k ≤ history.length, .call t .pop ∉ history.drop k ∧ AllPopped (history.take k)

/-- If the last event is that `Pop` returned `NULL`, no node was left at some moment during that
call. -/
def NullMeansEmpty (history : List (FreeListEvent θ ι)) : Prop :=
  ∀ before t op, history = before ++ [.ret t op (some .null)] → FoundEmpty t before

omit [DecidableEq ι] in
theorem pushReturned_append (history later : List (FreeListEvent θ ι)) :
    pushReturned (history ++ later) = pushReturned history ++ pushReturned later :=
  List.filterMap_append

theorem FoundEmpty.append {t : θ} {history later : List (FreeListEvent θ ι)}
    (h : FoundEmpty t history) (hlater : .call t .pop ∉ later) :
    FoundEmpty t (history ++ later) := by
  obtain ⟨k, hk, hcall, hpopped⟩ := h
  refine ⟨k, Nat.le_trans hk (by simp), ?_, ?_⟩
  · rw [List.drop_append_of_le_length hk, List.mem_append]
    exact fun hmem => hmem.elim hcall hlater
  · rwa [List.take_append_of_le_length hk]

theorem AllPopped.foundEmpty {history : List (FreeListEvent θ ι)} (h : AllPopped history) (t : θ) :
    FoundEmpty t history :=
  ⟨history.length, Nat.le_refl _, by simp, by rwa [List.take_length]⟩

/-! ### The condition -/

/-- Thread `t` has exchanged a node in behind `p` and has yet to store the link. -/
def HalfPushed (s : FreeListState θ ι) (t : θ) (p : NodePtr ι) : Prop :=
  ∃ q, AboutToStore s t (.next p) q

/-- When thread `c` reads a link, no push behind that node is half done; when it reads `Head`, that
is `Tail`. -/
def LinksThere (c : θ) (s : FreeListState θ ι) : Prop :=
  match s.running c with
  | some (_, .read (.next p) _) => ∀ t, ¬ HalfPushed s t p
  | some (_, .read .head _) => s.mem .head = s.mem .tail
  | _ => True

/-- As `Allowed`, and the accesses of a `Pop` that has always had a node to find are made when the
links are there. -/
def AllowedLinked (c : θ) (s : FreeListState θ ι) (t : θ) (o : Option (FreeListOp ι)) : Prop :=
  Allowed c s t o ∧ (t = c → o = none → ¬ FoundEmpty c s.history → LinksThere c s)

/-! ### What the points say about the logs -/

/-- A push returns after its exchange, and a node has come in behind `Tail` when `Pop` reads
`Tail->Next` for the last time. -/
structure Behind (mem : FreeListLoc ι → NodePtr ι) (history : List (FreeListEvent θ ι))
    (points : θ → Option (Point ι)) : Prop where
  le : ∀ n, (pushReturned history).count n ≤ (pushed history).count n
  link : ∀ t n p, points t = some (.push n (.link p)) →
    (pushReturned history).count n < (pushed history).count n
  last : ∀ t tail, points t = some (.lastRead tail) → mem .head ≠ tail

omit [DecidableEq ι] in
theorem pushReturned_after (history : List (FreeListEvent θ ι)) (t : θ) (op : FreeListOp ι)
    (a : Access (FreeListLoc ι) (NodePtr ι)) (out : Out ι) :
    pushReturned (history ++ .access t op a :: out.events t op) =
      pushReturned history ++ pushReturned (out.events t op : List (FreeListEvent θ ι)) := by
  rw [pushReturned_append]
  rfl

section
variable [DecidableEq θ] {c : θ} {mem : FreeListLoc ι → NodePtr ι}
  {history : List (FreeListEvent θ ι)} {points : θ → Option (Point ι)}
  {flight : NodePtr ι → Option (θ × Phase (NodePtr ι))} {chain : List (NodePtr ι)}

omit [DecidableEq θ] in
theorem afterNext_ne_lastRead {tail tail' next : NodePtr ι} :
    afterNext tail next ≠ .goes (.lastRead tail') := by
  intro h
  rw [afterNext] at h
  split at h <;> cases h

omit [DecidableEq θ] in
/-- `Pop` comes to its last read with the stub behind `Tail`. -/
theorem Inv.head_ne_of_lastRead (h : Inv c mem history points flight chain) {t : θ} {pt : Point ι}
    (hpt : points t = some pt) {tail : NodePtr ι}
    (hout : (pt.step mem).2.2 = .goes (.lastRead tail)) : (pt.step mem).2.1 .head ≠ tail := by
  cases pt with
  | pushStub tail' ph =>
    cases ph with
    | clear => cases hout
    | exchange => cases hout
    | link p =>
      cases hout
      have hflight := (h.owner t .stub (.link p)).1 ⟨_, hpt, rfl⟩
      have hfollows := (h.queue.inside _ _ _ hflight).1
      intro hhead
      rw [h.queue.chain_eq_singleton ((h.knows t _ hpt).1.trans hhead.symm)] at hfollows
      exact hfollows
  | push n ph => cases ph <;> cases hout
  | readNext tail' =>
    unfold Point.step at hout
    dsimp only at hout
    split at hout
    · split at hout <;> cases hout
    · exact absurd hout afterNext_ne_lastRead
  | readNextAgain tail' => exact absurd hout afterNext_ne_lastRead
  | readHead tail' =>
    unfold Point.step at hout
    dsimp only at hout
    split at hout <;> cases hout
  | lastRead tail' =>
    unfold Point.step at hout
    dsimp only at hout
    split at hout <;> cases hout
  | readTail => cases hout
  | moveTail next => cases hout
  | takeTail tail' next => cases hout

theorem Behind.pop (h : Inv c mem history points flight chain) (hbehind : Behind mem history points)
    {t : θ} {pt : Point ι} (hpt : points t = some pt) (hop : pt.op = .pop) :
    Behind (pt.step mem).2.1
      (history ++ .access t pt.op (pt.step mem).1 :: (pt.step mem).2.2.events t pt.op)
      (Function.update points t (pt.step mem).2.2.point) := by
  have hpushed : pushed [(.access t pt.op (pt.step mem).1 : FreeListEvent θ ι)] = [] := by
    rw [hop]; rfl
  have hreturned :
      pushReturned ((pt.step mem).2.2.events t pt.op : List (FreeListEvent θ ι)) = [] := by
    rw [hop]
    cases (pt.step mem).2.2 <;> rfl
  refine ⟨fun n => ?_, fun u n p hu => ?_, fun u tail hu => ?_⟩
  · rw [pushed_after, pushReturned_after, hpushed, hreturned, List.append_nil, List.append_nil]
    exact hbehind.le n
  · rw [pushed_after, pushReturned_after, hpushed, hreturned, List.append_nil, List.append_nil]
    by_cases hut : u = t
    · subst hut
      rw [Function.update_self] at hu
      cases hout : (pt.step mem).2.2 with
      | returns r => rw [hout] at hu; cases hu
      | goes pt' =>
        rw [hout] at hu
        cases hu
        have hop' := op_step mem pt _ hout
        rw [hop] at hop'
        cases hop'
    · rw [Function.update_of_ne hut] at hu
      exact hbehind.link u n p hu
  · by_cases hut : u = t
    · subst hut
      rw [Function.update_self] at hu
      cases hout : (pt.step mem).2.2 with
      | returns r => rw [hout] at hu; cases hu
      | goes pt' =>
        rw [hout] at hu
        cases hu
        exact h.head_ne_of_lastRead hpt hout
    · rw [Function.update_of_ne hut] at hu
      exact absurd ((h.consumer u _ hu rfl).trans (h.consumer t pt hpt hop).symm) hut

/-- An access of a push: the exchange is logged as pushed, the last store as returned. -/
theorem Behind.push (h : Inv c mem history points flight chain)
    (hbehind : Behind mem history points) {t : θ} {n : ι} {ph : Phase (NodePtr ι)}
    (hpt : points t = some (.push n ph)) : Behind ((Point.push n ph).step mem).2.1
      (history ++ .access t (.push n) ((Point.push n ph).step mem).1 ::
        ((Point.push n ph).step mem).2.2.events t (.push n))
      (Function.update points t ((Point.push n ph).step mem).2.2.point) := by
  have hx := (h.owner t (.node n) ph).1 ⟨_, hpt, rfl⟩
  have hne : ∀ {u n' p}, u ≠ t → points u = some (.push n' (.link p)) → n' ≠ n := by
    intro u n' p hut hu heq
    have hu' := (h.owner u (.node n') _).1 ⟨_, hu, rfl⟩
    rw [heq, hx] at hu'
    cases hu'
    exact hut rfl
  have hlast : ∀ {u tail}, points u = some (.lastRead tail) → u ≠ t := by
    rintro u tail hu rfl
    rw [hpt] at hu
    cases hu
  have hpushed :=
    pushed_after history t (.push n) ((Point.push n ph).step mem).1 ((Point.push n ph).step mem).2.2
  have hreturned := pushReturned_after history t (.push n) ((Point.push n ph).step mem).1
    ((Point.push n ph).step mem).2.2
  refine ⟨fun n' => ?_, fun u n' p hu => ?_, fun u tail hu => ?_⟩
  · rw [hpushed, hreturned, List.count_append, List.count_append]
    have hle := hbehind.le n'
    cases ph with
    | clear => exact hle
    | exchange => exact Nat.le_add_right_of_le hle
    | link p =>
      show _ + List.count n' [n] ≤ _ + List.count n' []
      by_cases hn : n = n'
      · subst hn
        simpa using Nat.succ_le_of_lt (hbehind.link t n p hpt)
      · simpa [hn] using hle
  · rw [hpushed, hreturned, List.count_append, List.count_append]
    by_cases hut : u = t
    · subst hut
      rw [Function.update_self] at hu
      cases ph with
      | clear => cases hu
      | exchange =>
        cases hu
        show _ + List.count n [] < _ + List.count n [n]
        have hle := hbehind.le n
        simpa using Nat.lt_succ_of_le hle
      | link p => cases hu
    · rw [Function.update_of_ne hut] at hu
      have hlt := hbehind.link u n' p hu
      cases ph with
      | clear => exact hlt
      | exchange => exact Nat.lt_add_right _ hlt
      | link p' =>
        show _ + List.count n' [n] < _ + List.count n' []
        simpa [(hne hut hu).symm] using hlt
  · have hut : u ≠ t := by
      rintro rfl
      rw [Function.update_self] at hu
      cases ph <;> cases hu
    rw [Function.update_of_ne hut] at hu
    cases ph with
    | clear => exact hbehind.last u tail hu
    | exchange =>
      -- the node comes in behind `Tail`
      rintro rfl
      have hmem := h.queue.tail_mem
      rw [(h.knows u _ hu).1] at hmem
      exact (h.queue.outside _ t _ hx trivial).1 hmem
    | link p => exact hbehind.last u tail hu

theorem Behind.step (h : Inv c mem history points flight chain)
    (hbehind : Behind mem history points) {t : θ} {pt : Point ι} (hpt : points t = some pt) :
    Behind (pt.step mem).2.1
      (history ++ .access t pt.op (pt.step mem).1 :: (pt.step mem).2.2.events t pt.op)
      (Function.update points t (pt.step mem).2.2.point) := by
  cases pt with
  | push n ph => exact hbehind.push h hpt
  | _ => exact hbehind.pop h hpt rfl

theorem Behind.call (hbehind : Behind mem history points) (t : θ) (op : FreeListOp ι) (pt : Point ι)
    (hlink : ∀ n p, pt ≠ .push n (.link p)) (hlast : ∀ tail, pt ≠ .lastRead tail) :
    Behind mem (history ++ [.call t op]) (Function.update points t (some pt)) := by
  have hpushed : pushed (history ++ [(.call t op : FreeListEvent θ ι)]) = pushed history := by
    simp [pushed]
  have hreturned : pushReturned (history ++ [(.call t op : FreeListEvent θ ι)]) =
      pushReturned history := by
    simp [pushReturned]
  refine ⟨fun n => by rw [hpushed, hreturned]; exact hbehind.le n,
    fun u n p hu => ?_, fun u tail hu => ?_⟩
  · rw [hpushed, hreturned]
    rcases update_eq_iff.1 hu with ⟨-, hpt⟩ | ⟨-, hu⟩
    · exact absurd (Option.some.inj hpt) (hlink n p)
    · exact hbehind.link u n p hu
  · rcases update_eq_iff.1 hu with ⟨-, hpt⟩ | ⟨-, hu⟩
    · exact absurd (Option.some.inj hpt) (hlast tail)
    · exact hbehind.last u tail hu

/-- The invariant, and what the points say about the logs. -/
def GoodBehind (c : θ) (s : FreeListState θ ι) : Prop :=
  ∃ points flight chain, Shared.At (callPoints ι) s points ∧
    Inv c s.mem s.history points flight chain ∧ Behind s.mem s.history points

/-! ### `NULL` -/

omit [DecidableEq ι] [DecidableEq θ] in
/-- A missing link in front of a node: some push behind `Tail` is half done. -/
theorem Chained.halfPushed {s : FreeListState θ ι} (h : Chained s chain)
    (hnull : .null ∉ chain) {x : NodePtr ι} (hx : x ∈ chain) (hne : x ≠ s.mem .tail)
    (hnext : s.mem (.next (s.mem .tail)) = .null) : ∃ t, HalfPushed s t (s.mem .tail) := by
  have htail := h.tail
  match hchain : chain with
  | [] => cases htail
  | [a] =>
    cases htail
    exact absurd (List.mem_singleton.1 hx) hne
  | a :: b :: l =>
    cases htail
    rcases h.linked _ b (.inl ⟨rfl, rfl⟩) with heq | ⟨-, t, hstore⟩
    · exact absurd (List.mem_cons_of_mem _ (heq.symm.trans hnext ▸ List.mem_cons_self)) hnull
    · exact ⟨t, b, hstore⟩

omit [DecidableEq θ] in
/-- A node whose push has returned and that was not popped is in the chain. -/
theorem Inv.waiting (h : Inv c mem history points flight chain)
    (hbehind : Behind mem history points) (hwaits : ¬ AllPopped history) :
    ∃ n, .node n ∈ chain := by
  simp only [AllPopped, not_forall, not_le] at hwaits
  obtain ⟨n, -, hn⟩ := hwaits
  refine ⟨n, List.count_pos_iff.1 ?_⟩
  have hle := hbehind.le n
  rw [h.count_pushed n] at hle
  omega

omit [DecidableEq θ] in
theorem afterNext_ne_returns {tail next : NodePtr ι} {r : Option (NodePtr ι)} :
    afterNext tail next ≠ .returns r := by
  intro h
  rw [afterNext] at h
  split at h <;> cases h

omit [DecidableEq θ] in
/-- `Pop` does not return `NULL` when a node waits and the links are there. -/
theorem Inv.returns_ne_null {s : FreeListState θ ι} (hat : Shared.At (callPoints ι) s points)
    (h : Inv c s.mem s.history points flight chain) (hbehind : Behind s.mem s.history points)
    {pt : Point ι} (hpt : points c = some pt) (hlinks : LinksThere c s)
    (hwaits : ¬ AllPopped s.history) : (pt.step s.mem).2.2 ≠ .returns (some .null) := by
  have hrun := hat.eq_some hpt
  have hknows := h.knows c pt hpt
  have hchained := h.chained hat
  rw [LinksThere, hrun] at hlinks
  intro hout
  cases pt with
  | push n ph => cases ph <;> cases hout
  | readNext tail =>
    replace hlinks : ∀ t, ¬ HalfPushed s t tail := hlinks
    obtain rfl : s.mem .tail = tail := hknows
    unfold Point.step at hout
    dsimp only at hout
    split at hout
    · next hstub =>
      split at hout
      · next hnext =>
        obtain ⟨n, hn⟩ := h.waiting hbehind hwaits
        obtain ⟨t, ht⟩ := hchained.halfPushed h.queue.null_not_mem hn (by rw [hstub]; nofun) hnext
        exact hlinks t ht
      · cases hout
    · exact afterNext_ne_returns hout
  | readNextAgain tail => exact afterNext_ne_returns hout
  | readHead tail =>
    replace hlinks : s.mem .head = s.mem .tail := hlinks
    unfold Point.step at hout
    dsimp only at hout
    rw [if_neg (not_not.2 (hknows.1.symm.trans hlinks.symm))] at hout
    cases hout
  | lastRead tail =>
    replace hlinks : ∀ t, ¬ HalfPushed s t tail := hlinks
    obtain rfl : s.mem .tail = tail := hknows.1
    unfold Point.step at hout
    dsimp only at hout
    split at hout
    · cases hout
    · next hnext =>
      obtain ⟨t, ht⟩ := hchained.halfPushed h.queue.null_not_mem h.queue.head_mem
        (hbehind.last c _ hpt) (not_not.1 hnext)
      exact hlinks t ht
  | readTail => cases hout
  | moveTail next => cases hout
  | pushStub tail ph => cases ph <;> cases hout
  | takeTail tail next =>
    cases hout
    exact h.queue.null_not_mem (hknows.1 ▸ h.queue.tail_mem)

omit [DecidableEq ι] [DecidableEq θ] in
theorem eq_of_ret {history before : List (FreeListEvent θ ι)} {t u : θ} {op op' : FreeListOp ι}
    {a : Access (FreeListLoc ι) (NodePtr ι)} {out : Out ι} {r : Option (NodePtr ι)}
    (h : history ++ .access t op a :: out.events t op = before ++ [.ret u op' r]) :
    out = .returns r ∧ u = t ∧ before = history ++ [.access t op a] := by
  cases out with
  | goes pt =>
    have hlast := (List.append_inj' h rfl).2
    cases hlast
  | returns r' =>
    have hsplit : (history ++ [.access t op a]) ++ [.ret t op r'] = before ++ [.ret u op' r] := by
      rw [← h]; simp [Outcome.events]
    obtain ⟨hbefore, hlast⟩ := List.append_inj' hsplit rfl
    cases hlast
    exact ⟨rfl, rfl, hbefore.symm⟩

theorem GoodBehind.step {s s' : FreeListState θ ι} (hgood : GoodBehind c s)
    (hstep : Shared.Step code (AllowedLinked c) s s') :
    GoodBehind c s' ∧ NullMeansEmpty s'.history := by
  obtain ⟨points, flight, chain, hat, h, hbehind⟩ := hgood
  cases hstep with
  | call t op hidle hop =>
    have hpoint := hat.eq_none hidle
    refine ⟨?_, fun before u op' hhistory => ?_⟩
    · cases op with
      | push n =>
        exact ⟨_, _, _, hat.call (.push n .clear) rfl, h.beginPush hpoint hop.1,
          hbehind.call t _ _ nofun nofun⟩
      | pop =>
        obtain rfl : t = c := hop.1
        exact ⟨_, _, _, hat.call .readTail rfl, h.beginPop hpoint, hbehind.call t _ _ nofun nofun⟩
    · cases (List.append_inj' hhistory rfl).2
  | access t hmay hacc =>
    obtain ⟨pt, hpt, hat', hmem, hhistory⟩ := hat.access hacc
    obtain ⟨flight', chain', h'⟩ := h.step hpt
    refine ⟨⟨_, flight', chain', hat', by rw [hmem, hhistory]; exact h',
      by rw [hmem, hhistory]; exact hbehind.step h hpt⟩, fun before u op' hret => ?_⟩
    rw [hhistory] at hret
    obtain ⟨hout, rfl, rfl⟩ := eq_of_ret hret
    have hpop : pt.op = .pop := by
      cases pt with
      | push n ph => cases ph <;> cases hout
      | _ => rfl
    obtain rfl : u = c := h.consumer u pt hpt hpop
    by_contra hfound
    have hbefore : ¬ FoundEmpty u s.history := fun hf => hfound (hf.append (by simp))
    exact h.returns_ne_null hat hbehind hpt (hmay.2 rfl rfl hbefore)
      (fun hall => hbefore (hall.foundEmpty u)) hout

/-- In a run whose steps are all made when the links are there, `NULL` means that no node was
left. -/
theorem freeList_null (c : θ) (mem : FreeListLoc ι → NodePtr ι)
    (hmem : Zeroed mem) (s : FreeListState θ ι)
    (hs : Shared.Reaches code (AllowedLinked c) (start mem) s) : NullMeansEmpty s.history := by
  have hstart : GoodBehind c (start mem : FreeListState θ ι) := by
    obtain ⟨points, flight, chain, hat, h, -⟩ := good_start c hmem
    have hidle : ∀ t, points t = none := fun t => hat.eq_none rfl
    exact ⟨points, flight, chain, hat, h, fun n => Nat.zero_le _,
      fun t n p ht => absurd ((hidle t).symm.trans ht) nofun,
      fun t tail ht => absurd ((hidle t).symm.trans ht) nofun⟩
  have hnull : NullMeansEmpty (start mem : FreeListState θ ι).history := fun before t op h =>
    absurd h.symm (List.append_ne_nil_of_right_ne_nil _ nofun)
  cases hs with
  | refl => exact hnull
  | tail hs hstep =>
    have hgood := Shared.Reaches.inv hs hstart fun _ _ h hstep => (h.step hstep).1
    exact (hgood.step hstep).2

end

/-! ### Runs -/

instance (history : List (FreeListEvent θ ι)) : Decidable (AllPopped history) :=
  inferInstanceAs (Decidable (∀ n ∈ pushReturned history, _))

instance [DecidableEq θ] (t : θ) (history : List (FreeListEvent θ ι)) :
    Decidable (FoundEmpty t history) :=
  inferInstanceAs (Decidable (∃ k ≤ history.length, _))

instance (s : FreeListState θ ι) (t : θ) (p : NodePtr ι) : Decidable (HalfPushed s t p) :=
  match hrun : s.running t with
  | some (op, .write (.next p') q k) => decidable_of_iff (p' = p)
      ⟨fun h => h ▸ ⟨q, op, k, hrun⟩, fun ⟨_, _, _, h⟩ => by rw [hrun] at h; cases h; rfl⟩
  | some (_, .write .head _ _) | some (_, .write .tail _ _) | some (_, .read _ _)
      | some (_, .rmw _ _ _) | some (_, .ret _)
  | none => isFalse fun ⟨_, _, _, h⟩ => by rw [hrun] at h; cases h

/-- With two threads. -/
instance (c : Bool) (s : FreeListState Bool ι) : Decidable (LinksThere c s) :=
  match hrun : s.running c with
  | some (_, .read (.next p) _) =>
    decidable_of_iff (∀ t, ¬ HalfPushed s t p) (by rw [LinksThere, hrun])
  | some (_, .read .head _) =>
    decidable_of_iff (s.mem .head = s.mem .tail) (by rw [LinksThere, hrun])
  | some (_, .read .tail _) | some (_, .write _ _ _) | some (_, .rmw _ _ _)
      | some (_, .ret _) | none =>
    isTrue (by rw [LinksThere, hrun]; trivial)

instance (c : Bool) (s : FreeListState Bool ι) (t : Bool) (o : Option (FreeListOp ι)) :
    Decidable (AllowedLinked c s t o) :=
  inferInstanceAs (Decidable (_ ∧ (_ → _ → ¬ _ → _)))

/-! One node is pushed and popped, and the second `Pop` returns `NULL`. -/

def emptied : List (Bool × Option (FreeListOp Nat)) :=
  [(false, some (.push 0)), (false, none), (false, none), (false, none), (true, some .pop)] ++
    List.replicate 10 (true, none) ++ [(true, some .pop), (true, none), (true, none)]

def emptiedState : FreeListState Bool Nat :=
  (Shared.schedule code (AllowedLinked true) emptied (start fun _ => .null)).getD (start fun _ =>
    .null)

theorem freeList_null_emptied : returned emptiedState.history = [.node 0] ∧
    emptiedState.history.getLast? = some (.ret true .pop (some .null)) ∧
      FoundEmpty true emptiedState.history.dropLast := by
  have hsched : Shared.schedule code (AllowedLinked true) emptied (start fun _ => .null) =
      some emptiedState :=
    Option.eq_some_of_isSome (by decide +kernel)
  have hlast : emptiedState.history.getLast? = some (.ret true .pop (some .null)) := by
    decide +kernel
  exact ⟨by decide +kernel, hlast, freeList_null true (fun _ => .null) ⟨rfl, rfl, rfl⟩ emptiedState
    (Shared.reaches_of_schedule hsched) _ true .pop (List.dropLast_append_getLast? _ hlast).symm⟩

/-! Thread `0` has exchanged its node in but not linked it, thread `1` has pushed another behind
it. -/

def hidden : List (Nat × Option (FreeListOp Nat)) :=
  [(0, some (.push 0)), (0, none), (0, none), (1, some (.push 1)), (1, none), (1, none), (1, none),
    (2, some .pop), (2, none), (2, none)]

def hiddenState : FreeListState Nat Nat :=
  (Shared.schedule code (Allowed 2) hidden (start fun _ => .null)).getD (start fun _ => .null)

theorem pop_null_hidden : Shared.Reaches code (Allowed 2) (start fun _ => .null) hiddenState ∧
    hiddenState.history.getLast? = some (.ret 2 .pop (some .null)) ∧
      ¬ NullMeansEmpty hiddenState.history := by
  have hsched : Shared.schedule code (Allowed 2) hidden (start fun _ => .null) = some hiddenState :=
    Option.eq_some_of_isSome (by decide +kernel)
  have hlast : hiddenState.history.getLast? = some (.ret 2 .pop (some .null)) := by decide +kernel
  refine ⟨Shared.reaches_of_schedule hsched, hlast, fun h => ?_⟩
  exact absurd (h _ 2 .pop (List.dropLast_append_getLast? _ hlast).symm) (by decide +kernel)

end FreeList
end TinyBase
