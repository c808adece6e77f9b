import Mathlib.Data.List.Infix
import Mathlib.Data.List.Nodup
import Mathlib.Logic.Function.Basic

/-!
# A linked queue whose links are stored late

A node is put at the end of the queue by an exchange of the pointer to the last node, and only then
is the link from its predecessor stored. Between the two the chain has a missing link, and there may
be several. `LinkedQueue` describes such a chain: `flight` says which nodes are on their way in, by
whom and how far, and every link is either there or about to be stored.
-/

section
variable {α θ : Type}

/-! ### Neighbours in a list -/

/-- `q` comes right behind `p`. -/
def Follows : List α → α → α → Prop
  | a :: b :: l, p, q => (p = a ∧ q = b) ∨ Follows (b :: l) p q
  | _, _, _ => False

section
variable {l : List α} {a b p p' q q' x : α}

@[simp] theorem follows_nil : Follows [] p q ↔ False := Iff.rfl

@[simp] theorem follows_singleton : Follows [a] p q ↔ False := Iff.rfl

@[simp] theorem follows_cons_cons :
    Follows (a :: b :: l) p q ↔ (p = a ∧ q = b) ∨ Follows (b :: l) p q := Iff.rfl

theorem Follows.cons (h : Follows l p q) : Follows (a :: l) p q := by
  cases l with
  | nil => exact h.elim
  | cons b l => exact .inr h

theorem Follows.mem (h : Follows l p q) : p ∈ l ∧ q ∈ l.tail := by
  induction l with
  | nil => exact h.elim
  | cons a l ih =>
    cases l with
    | nil => exact h.elim
    | cons b l =>
      rcases h with ⟨rfl, rfl⟩ | h
      · exact ⟨List.mem_cons_self, List.mem_cons_self⟩
      · exact ⟨List.mem_cons_of_mem _ (ih h).1, List.mem_cons_of_mem _ (ih h).2⟩

theorem Follows.right_mem (h : Follows l p q) : q ∈ l := List.mem_of_mem_tail h.mem.2

theorem follows_append_singleton :
    Follows (l ++ [x]) p q ↔ Follows l p q ∨ (l.getLast? = some p ∧ q = x) := by
  induction l with
  | nil => simp
  | cons a l ih =>
    cases l with
    | nil => simp [eq_comm]
    | cons b l =>
      rw [List.cons_append, List.cons_append, follows_cons_cons, ← List.cons_append, ih,
        follows_cons_cons, List.getLast?_cons_cons, or_assoc]

theorem Follows.right_unique (hl : l.Nodup) (h : Follows l p q) (h' : Follows l p q') : q = q' := by
  induction l with
  | nil => exact h.elim
  | cons a l ih =>
    cases l with
    | nil => exact h.elim
    | cons b l =>
      obtain ⟨ha, hl⟩ := List.nodup_cons.1 hl
      rcases h with ⟨rfl, rfl⟩ | h
      · rcases h' with ⟨-, rfl⟩ | h'
        · rfl
        · exact absurd h'.mem.1 ha
      · rcases h' with ⟨rfl, -⟩ | h'
        · exact absurd h.mem.1 ha
        · exact ih hl h h'

theorem Follows.left_unique (hl : l.Nodup) (h : Follows l p q) (h' : Follows l p' q) : p = p' := by
  induction l with
  | nil => exact h.elim
  | cons a l ih =>
    cases l with
    | nil => exact h.elim
    | cons b l =>
      obtain ⟨-, hl⟩ := List.nodup_cons.1 hl
      have hb := (List.nodup_cons.1 hl).1
      rcases h with ⟨rfl, rfl⟩ | h
      · rcases h' with ⟨rfl, -⟩ | h'
        · rfl
        · exact absurd h'.mem.2 hb
      · rcases h' with ⟨-, rfl⟩ | h'
        · exact absurd h.mem.2 hb
        · exact ih hl h h'

theorem not_follows_getLast (hl : l.Nodup) (hp : l.getLast? = some p) : ¬ Follows l p q := by
  induction l with
  | nil => exact id
  | cons a l ih =>
    cases l with
    | nil => exact id
    | cons b l =>
      obtain ⟨ha, hl⟩ := List.nodup_cons.1 hl
      rw [List.getLast?_cons_cons] at hp
      rintro (⟨rfl, -⟩ | h)
      · exact ha (List.mem_of_getLast? hp)
      · exact ih hl hp h

end

/-! ### The queue -/

/-- How far the insertion of a node is: its own link is to be cleared, it is to be exchanged in, or
it is in and the link from its predecessor is to be stored. -/
inductive Phase (α : Type) where
  | clear
  | exchange
  | link (prev : α)
deriving DecidableEq

/-- The node is not in the queue yet. -/
def Phase.Before : Phase α → Prop
  | .link _ => False
  | _ => True

/-- The queue from `tail`, where nodes are taken out, to `head`, where they come in, is `chain`. -/
structure LinkedQueue (null : α) (next : α → α) (head tail : α) (flight : α → Option (θ × Phase α))
    (chain : List α) : Prop where
  tail_eq : chain.head? = some tail
  head_eq : chain.getLast? = some head
  nodup : chain.Nodup
  null_not_mem : null ∉ chain
  /-- Every link is there or about to be stored. -/
  linked : ∀ p q, Follows chain p q → next p = q ∨
    (next p = null ∧ ∃ t, flight q = some (t, .link p))
  last : next head = null
  outside : ∀ x t ph, flight x = some (t, ph) → ph.Before → x ∉ chain ∧ x ≠ null
  cleared : ∀ x t, flight x = some (t, .exchange) → next x = null
  inside : ∀ x t p, flight x = some (t, .link p) → Follows chain p x ∧ next p = null

theorem update_eq_iff [DecidableEq α] {β : Type} {f : α → β} {x y : α} {v w : β} :
    Function.update f x v y = w ↔ (y = x ∧ v = w) ∨ (y ≠ x ∧ f y = w) := by
  rw [Function.update_apply]
  by_cases h : y = x <;> simp [h]

namespace LinkedQueue
variable {null : α} {next : α → α} {head tail x : α} {flight : α → Option (θ × Phase α)}
  {chain : List α} {t : θ}

theorem head_mem (h : LinkedQueue null next head tail flight chain) : head ∈ chain :=
  List.mem_of_getLast? h.head_eq

theorem tail_mem (h : LinkedQueue null next head tail flight chain) : tail ∈ chain :=
  List.mem_of_head? h.tail_eq

theorem chain_eq_singleton (h : LinkedQueue null next head tail flight chain) (heq : tail = head) :
    chain = [tail] := by
  have htail := h.tail_eq
  have hhead := h.head_eq
  have hnodup := h.nodup
  match chain with
  | [] => cases htail
  | [a] => cases htail; rfl
  | a :: b :: l =>
    cases htail
    rw [List.getLast?_cons_cons, ← heq] at hhead
    exact absurd (List.mem_of_getLast? hhead) (List.nodup_cons.1 hnodup).1

/-- A link that is there leads to the second node. -/
theorem chain_eq_cons (h : LinkedQueue null next head tail flight chain)
    (hnext : next tail ≠ null) : ∃ l, chain = tail :: next tail :: l := by
  have htail := h.tail_eq
  match hchain : chain with
  | [] => cases htail
  | [a] =>
    have hhead := h.head_eq
    cases htail
    cases hhead
    exact absurd h.last hnext
  | a :: b :: l =>
    cases htail
    obtain heq | ⟨heq, -⟩ := h.linked tail b (.inl ⟨rfl, rfl⟩)
    · exact ⟨l, by rw [heq]⟩
    · exact absurd heq hnext

/-- The first node is taken out, which needs the link to the second. -/
theorem advance {l : List α} (h : LinkedQueue null next head tail flight (tail :: next tail :: l))
    (hnext : next tail ≠ null) :
    LinkedQueue null next head (next tail) flight (next tail :: l) ∧ flight tail = none ∧
      tail ∉ next tail :: l := by
  have hnot := (List.nodup_cons.1 h.nodup).1
  have hpred : ∀ {p y}, Follows (tail :: next tail :: l) p y → next p = null →
      Follows (next tail :: l) p y := by
    rintro p y (⟨rfl, -⟩ | hpy) hp
    · exact absurd hp hnext
    · exact hpy
  have hflight : flight tail = none := by
    cases hf : flight tail with
    | none => rfl
    | some tph =>
      obtain ⟨u, ph⟩ := tph
      cases ph with
      | clear => exact absurd h.tail_mem (h.outside tail u _ hf trivial).1
      | exchange => exact absurd h.tail_mem (h.outside tail u _ hf trivial).1
      | link p => exact absurd (h.inside tail u p hf).1.mem.2 hnot
  refine ⟨⟨rfl, ?_, (List.nodup_cons.1 h.nodup).2,
    fun hmem => h.null_not_mem (List.mem_cons_of_mem _ hmem),
    fun p q hpq => h.linked p q hpq.cons, h.last, fun y u ph hy hph => ?_, h.cleared,
    fun y u p hy => ?_⟩, hflight, hnot⟩
  · have hhead := h.head_eq
    rwa [List.getLast?_cons_cons] at hhead
  · obtain ⟨hy', hnull⟩ := h.outside y u ph hy hph
    exact ⟨fun hmem => hy' (List.mem_cons_of_mem _ hmem), hnull⟩
  · obtain ⟨hpy, hp⟩ := h.inside y u p hy
    exact ⟨hpred hpy hp, hp⟩

section
variable [DecidableEq α]

theorem enter (h : LinkedQueue null next head tail flight chain)
    (hx : x ∉ chain) (hnull : x ≠ null) :
    LinkedQueue null next head tail (Function.update flight x (some (t, .clear))) chain where
  tail_eq := h.tail_eq
  head_eq := h.head_eq
  nodup := h.nodup
  null_not_mem := h.null_not_mem
  linked p q hpq := by
    have hq : q ≠ x := fun hq => hx (hq ▸ hpq.right_mem)
    rw [Function.update_of_ne hq]
    exact h.linked p q hpq
  last := h.last
  outside y u ph hy hph := by
    rcases update_eq_iff.1 hy with ⟨rfl, -⟩ | ⟨-, hy⟩
    · exact ⟨hx, hnull⟩
    · exact h.outside y u ph hy hph
  cleared y u hy := by
    rcases update_eq_iff.1 hy with ⟨-, hy⟩ | ⟨-, hy⟩
    · cases hy
    · exact h.cleared y u hy
  inside y u p hy := by
    rcases update_eq_iff.1 hy with ⟨-, hy⟩ | ⟨-, hy⟩
    · cases hy
    · exact h.inside y u p hy

theorem clear (h : LinkedQueue null next head tail flight chain)
    (hx : flight x = some (t, .clear)) :
    LinkedQueue null (Function.update next x null) head tail
      (Function.update flight x (some (t, .exchange))) chain := by
  obtain ⟨hout, hnull⟩ := h.outside x t _ hx trivial
  have hne : ∀ {y}, y ∈ chain → y ≠ x := fun hy hyx => hout (hyx ▸ hy)
  refine ⟨h.tail_eq, h.head_eq, h.nodup, h.null_not_mem, fun p q hpq => ?_,
    ?_, fun y u ph hy hph => ?_, fun y u hy => ?_, fun y u p hy => ?_⟩
  · rw [Function.update_of_ne (hne hpq.mem.1), Function.update_of_ne (hne hpq.right_mem)]
    exact h.linked p q hpq
  · rw [Function.update_of_ne (hne h.head_mem)]
    exact h.last
  · rcases update_eq_iff.1 hy with ⟨rfl, -⟩ | ⟨-, hy⟩
    · exact ⟨hout, hnull⟩
    · exact h.outside y u ph hy hph
  · rcases update_eq_iff.1 hy with ⟨rfl, -⟩ | ⟨hyx, hy⟩
    · exact Function.update_self ..
    · rw [Function.update_of_ne hyx]
      exact h.cleared y u hy
  · rcases update_eq_iff.1 hy with ⟨-, hy⟩ | ⟨-, hy⟩
    · cases hy
    · obtain ⟨hpy, hnext⟩ := h.inside y u p hy
      exact ⟨hpy, by rw [Function.update_of_ne (hne hpy.mem.1)]; exact hnext⟩

/-- It is exchanged in: it is the last node from now on, but nothing leads to it yet. -/
theorem exchange (h : LinkedQueue null next head tail flight chain)
    (hx : flight x = some (t, .exchange)) :
    LinkedQueue null next x tail (Function.update flight x (some (t, .link head)))
      (chain ++ [x]) := by
  obtain ⟨hout, hnull⟩ := h.outside x t _ hx trivial
  have hlast : ∀ {p q}, Follows chain p q → p ≠ head := fun hpq hp =>
    not_follows_getLast h.nodup (hp ▸ h.head_eq) hpq
  refine ⟨?_, List.getLast?_concat, ?_, ?_, fun p q hpq => ?_,
    h.cleared x t hx, fun y u ph hy hph => ?_, fun y u hy => ?_, fun y u p hy => ?_⟩
  · rw [List.head?_append_of_ne_nil _ (List.ne_nil_of_mem h.tail_mem)]
    exact h.tail_eq
  · exact List.nodup_append'.2 ⟨h.nodup, List.nodup_singleton x,
      fun y hy hy' => hout (List.mem_singleton.1 hy' ▸ hy)⟩
  · rw [List.mem_append, List.mem_singleton]
    exact fun hmem => hmem.elim h.null_not_mem fun heq => hnull heq.symm
  · rcases follows_append_singleton.1 hpq with hpq | ⟨hp, rfl⟩
    · have hq : q ≠ x := fun hq => hout (hq ▸ hpq.right_mem)
      rw [Function.update_of_ne hq]
      exact h.linked p q hpq
    · obtain rfl : head = p := Option.some.inj (h.head_eq.symm.trans hp)
      exact .inr ⟨h.last, t, Function.update_self ..⟩
  · rcases update_eq_iff.1 hy with ⟨-, hy⟩ | ⟨hyx, hy⟩
    · cases hy; exact hph.elim
    · obtain ⟨hy', hnull'⟩ := h.outside y u ph hy hph
      rw [List.mem_append, List.mem_singleton]
      exact ⟨fun hmem => hmem.elim hy' hyx, hnull'⟩
  · rcases update_eq_iff.1 hy with ⟨-, hy⟩ | ⟨-, hy⟩
    · cases hy
    · exact h.cleared y u hy
  · rcases update_eq_iff.1 hy with ⟨rfl, heq⟩ | ⟨-, hy⟩
    · cases heq
      exact ⟨follows_append_singleton.2 (.inr ⟨h.head_eq, rfl⟩), h.last⟩
    · obtain ⟨hpy, hnext⟩ := h.inside y u p hy
      exact ⟨follows_append_singleton.2 (.inl hpy), hnext⟩

theorem link {p : α} (h : LinkedQueue null next head tail flight chain)
    (hx : flight x = some (t, .link p)) :
    LinkedQueue null (Function.update next p x) head tail
      (Function.update flight x none) chain := by
  obtain ⟨hpx, hnext⟩ := h.inside x t p hx
  have hhead : head ≠ p := fun hp => not_follows_getLast h.nodup (hp ▸ h.head_eq) hpx
  refine ⟨h.tail_eq, h.head_eq, h.nodup, h.null_not_mem, fun p' q hpq => ?_,
    ?_, fun y u ph hy hph => ?_, fun y u hy => ?_, fun y u p' hy => ?_⟩
  · by_cases hp : p' = p
    · subst hp
      left
      rw [Function.update_self]
      exact hpx.right_unique h.nodup hpq
    · have hq : q ≠ x := fun hq => hp (Follows.left_unique h.nodup (hq ▸ hpq) hpx)
      rw [Function.update_of_ne hp, Function.update_of_ne hq]
      exact h.linked p' q hpq
  · rw [Function.update_of_ne hhead]
    exact h.last
  · rcases update_eq_iff.1 hy with ⟨-, hy⟩ | ⟨-, hy⟩
    · cases hy
    · exact h.outside y u ph hy hph
  · rcases update_eq_iff.1 hy with ⟨-, hy⟩ | ⟨-, hy⟩
    · cases hy
    · have hyp : y ≠ p := fun hyp => (h.outside y u _ hy trivial).1 (hyp ▸ hpx.mem.1)
      rw [Function.update_of_ne hyp]
      exact h.cleared y u hy
  · rcases update_eq_iff.1 hy with ⟨-, hy⟩ | ⟨hyx, hy⟩
    · cases hy
    · obtain ⟨hpy, hnext'⟩ := h.inside y u p' hy
      have hp : p' ≠ p := fun hp => hyx (Follows.right_unique h.nodup (hp ▸ hpy) hpx)
      exact ⟨hpy, by rw [Function.update_of_ne hp]; exact hnext'⟩

/-- An insertion that nobody sees half done. -/
theorem insert (t : θ)
    (h : LinkedQueue null next head tail (fun _ => (none : Option (θ × Phase α))) chain)
    (hx : x ∉ chain) (hnull : x ≠ null) :
    LinkedQueue null (Function.update (Function.update next x null) head x) x tail
      (fun _ => (none : Option (θ × Phase α))) (chain ++ [x]) := by
  have hready := (h.enter (t := t) hx hnull).clear (Function.update_self ..)
  have hlinked := (hready.exchange (Function.update_self ..)).link (Function.update_self ..)
  have hflight : ∀ a b c : Option (θ × Phase α),
      Function.update (Function.update (Function.update (Function.update
      (fun _ => (none : Option (θ × Phase α))) x a) x b) x c) x none = fun _ => none := by
    intro a b c
    rw [Function.update_idem, Function.update_idem, Function.update_idem,
      Function.update_eq_self_iff]
  rwa [hflight] at hlinked

end

/-- Without insertions under way a missing link is the end of the queue. -/
theorem eq_singleton_of_next
    (h : LinkedQueue null next head tail (fun _ => (none : Option (θ × Phase α))) chain)
    (hnext : next tail = null) : chain = [tail] := by
  have htail := h.tail_eq
  match hchain : chain with
  | [] => cases htail
  | [a] => cases htail; rfl
  | a :: b :: l =>
    cases htail
    rcases h.linked tail b (.inl ⟨rfl, rfl⟩) with heq | ⟨-, t, ht⟩
    · exact absurd (List.mem_cons_of_mem _ (heq.symm.trans hnext ▸ List.mem_cons_self))
        h.null_not_mem
    · cases ht

end LinkedQueue

end
