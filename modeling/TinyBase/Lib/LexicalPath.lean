import Mathlib.Data.List.Basic

/-!
# Paths as lists of components

The text of a path is its components with a separator between them; the path may begin with a
separator, which makes it absolute, and end in one. `resolve` is the lexical resolution of `.` and
`..` on a stack of components: it fails where `..` finds nothing to remove.
-/

namespace LexicalPath

section
variable {α : Type} [DecidableEq α] (sep dot : α)

/-- The components, each with a separator behind it. -/
def dirText (absolute : Bool) (cs : List (List α)) : List α :=
  (if absolute then [sep] else []) ++ cs.flatMap fun c => c ++ [sep]

/-- The texts of a path: the separator at the end may be missing. -/
inductive IsText (absolute : Bool) : List (List α) → List α → Prop where
  | slash (cs : List (List α)) : IsText absolute cs (dirText sep absolute cs)
  | bare (cs : List (List α)) (c : List α) :
      IsText absolute (cs ++ [c]) (dirText sep absolute cs ++ c)

/-- A list of units that can be a component. -/
def IsComponent (c : List α) : Prop := c ≠ [] ∧ sep ∉ c

instance (c : List α) : Decidable (IsComponent sep c) := inferInstanceAs (Decidable (_ ∧ _))

/-- What a component does to the ones before it. -/
def resolveStep (stack : List (List α)) (c : List α) : Option (List (List α)) :=
  if c = [dot] then some stack
  else if c = [dot, dot] then (if stack = [] then none else some stack.dropLast)
  else some (stack ++ [c])

/-- The lexical resolution of `cs` behind the components `stack`. -/
def resolve (stack cs : List (List α)) : Option (List (List α)) := cs.foldlM (resolveStep dot) stack

/-- Some `..` of `cs` removes the last component that is left. -/
def emptied : List (List α) → List (List α) → Bool
  | _, [] => false
  | stack, c :: cs =>
    if c = [dot] then emptied stack cs
    else if c = [dot, dot] then stack.length == 1 || emptied stack.dropLast cs
    else emptied (stack ++ [c]) cs

end

/-- The components `cs` with a separator between two of them, which may be any that satisfies
`p`. -/
inductive SeparatedBy {α : Type} (p : α → Prop) : List (List α) → List α → Prop where
  | one (c : List α) : SeparatedBy p [c] c
  | cons {cs : List (List α)} {l : List α} {a : α} (c : List α) (ha : p a)
    (h : SeparatedBy p cs l) : SeparatedBy p (c :: cs) (c ++ a :: l)

section
variable {α : Type} {sep dot : α} {absolute absolute' : Bool} {c d s t l : List α}
  {cs ds stack stack' : List (List α)}

theorem IsComponent.exists_last (h : IsComponent sep c) : ∃ c' b, c = c' ++ [b] ∧ b ≠ sep := by
  obtain ⟨c', b, rfl⟩ := (List.eq_nil_or_concat' c).resolve_left h.1
  exact ⟨c', b, rfl, fun hb => h.2 (hb ▸ List.mem_append_right _ List.mem_cons_self)⟩

theorem dirText_append (cs : List (List α)) (c : List α) :
    dirText sep absolute (cs ++ [c]) = dirText sep absolute cs ++ (c ++ [sep]) := by
  simp [dirText]

theorem dirText_split (sep : α) (absolute : Bool) (k : Nat) (cs : List (List α)) :
    dirText sep absolute cs = dirText sep absolute (cs.take k) ++ (cs.drop k).flatMap fun c =>
      c ++ [sep] := by
  rw [dirText, dirText, List.append_assoc, ← List.flatMap_append, List.take_append_drop]

/-- The text of the first `k` components gets shorter with `k`. -/
theorem length_dirText_take_le (sep : α) (absolute : Bool) (cs : List (List α))
    {j k : Nat} (hjk : j ≤ k) :
    (dirText sep absolute (cs.take j)).length ≤ (dirText sep absolute (cs.take k)).length := by
  rw [dirText_split sep absolute j (cs.take k), List.take_take,
    Nat.min_eq_left hjk, List.length_append]
  exact Nat.le_add_right _ _

theorem length_dirText_take_lt (sep : α) (absolute : Bool) {k : Nat} (hk : k < cs.length) :
    (dirText sep absolute (cs.take k)).length < (dirText sep absolute cs).length := by
  rw [dirText_split sep absolute k cs, List.length_append, List.drop_eq_getElem_cons hk,
    List.flatMap_cons, List.length_append, List.length_append, List.length_singleton]
  omega

/-- Only a path without components can have the empty text, or that of the separator alone. -/
theorem length_dirText_le_one_iff (sep : α) (absolute : Bool) (hcs : ∀ c ∈ cs, c ≠ []) :
    (dirText sep absolute cs).length ≤ 1 ↔ cs = [] := by
  constructor
  · intro hlen
    cases cs with
    | nil => rfl
    | cons c cs =>
      have hc := List.length_pos_iff.2 (hcs c List.mem_cons_self)
      simp only [dirText, List.flatMap_cons, List.length_append, List.length_singleton] at hlen
      omega
  · rintro rfl
    cases absolute <;> simp [dirText]

theorem dirText_eq_append (h : dirText sep absolute cs ≠ []) :
    ∃ l, dirText sep absolute cs = l ++ [sep] := by
  rcases List.eq_nil_or_concat cs with rfl | ⟨cs, c, rfl⟩
  · cases absolute
    · exact absurd rfl h
    · exact ⟨[], rfl⟩
  · rw [List.concat_eq_append, dirText_append]
    exact ⟨dirText sep absolute cs ++ c, (List.append_assoc ..).symm⟩

theorem flatMap_eq_intercalate (hne : cs ≠ []) :
    (cs.flatMap fun c => c ++ [sep]) = [sep].intercalate cs ++ [sep] := by
  induction cs with
  | nil => exact absurd rfl hne
  | cons c cs ih =>
    cases cs with
    | nil => simp
    | cons c' cs =>
      rw [List.flatMap_cons, ih (List.cons_ne_nil c' cs), List.intercalate_cons_cons,
        List.append_assoc, List.append_assoc, List.append_assoc]

theorem intercalate_concat (cs : List (List α)) (c : List α) :
    [sep].intercalate (cs ++ [c]) = dirText sep false cs ++ c := by
  have htext : dirText sep false (cs ++ [c]) = [sep].intercalate (cs ++ [c]) ++ [sep] :=
    flatMap_eq_intercalate (List.append_ne_nil_of_right_ne_nil _ (List.cons_ne_nil c []))
  rw [dirText_append, ← List.append_assoc] at htext
  exact (List.append_cancel_right htext).symm

theorem intercalate_append (cs : List (List α)) {ds : List (List α)} (hne : ds ≠ []) :
    [sep].intercalate (cs ++ ds) = dirText sep false cs ++ [sep].intercalate ds := by
  obtain ⟨init, d, rfl⟩ := (List.eq_nil_or_concat ds).resolve_left hne
  rw [List.concat_eq_append, ← List.append_assoc, intercalate_concat, intercalate_concat,
    dirText, dirText, dirText, List.flatMap_append]
  simp only [List.append_assoc, Bool.false_eq_true, if_false, List.nil_append]

theorem SeparatedBy.ne_nil {p : α → Prop} (h : SeparatedBy p cs l) : cs ≠ [] := by
  cases h <;> exact List.cons_ne_nil _ _

/-- Where the first separator stands is clear. -/
theorem append_sep_inj (hc : sep ∉ c) (hd : sep ∉ d) (h : c ++ sep :: s = d ++ sep :: t) :
    c = d ∧ s = t := by
  induction c generalizing d with
  | nil =>
    cases d with
    | nil => exact ⟨rfl, List.tail_eq_of_cons_eq h⟩
    | cons b d => exact absurd (List.head_eq_of_cons_eq h ▸ List.mem_cons_self) hd
  | cons a c ih =>
    cases d with
    | nil => exact absurd (List.head_eq_of_cons_eq h ▸ List.mem_cons_self) hc
    | cons b d =>
      obtain ⟨rfl, htail⟩ := List.cons.inj h
      obtain ⟨rfl, hst⟩ := ih (fun hmem => hc (List.mem_cons_of_mem a hmem)) (fun hmem =>
        hd (List.mem_cons_of_mem a hmem)) htail
      exact ⟨rfl, hst⟩

/-- Components and what is behind the last separator are read off the text in one way. -/
theorem segments_inj (hcs : ∀ c ∈ cs, sep ∉ c) (hds : ∀ c ∈ ds, sep ∉ c)
    (hs : sep ∉ s) (ht : sep ∉ t) (h : (cs.flatMap fun c => c ++ [sep]) ++ s =
      (ds.flatMap fun c => c ++ [sep]) ++ t) : cs = ds ∧ s = t := by
  induction cs generalizing ds with
  | nil =>
    cases ds with
    | nil => exact ⟨rfl, h⟩
    | cons d ds =>
      refine absurd ?_ hs
      rw [show s = ((d :: ds).flatMap fun c => c ++ [sep]) ++ t from h]
      simp
  | cons c cs ih =>
    rw [List.forall_mem_cons] at hcs
    cases ds with
    | nil =>
      refine absurd ?_ ht
      rw [show t = ((c :: cs).flatMap fun c => c ++ [sep]) ++ s from h.symm]
      simp
    | cons d ds =>
      rw [List.forall_mem_cons] at hds
      simp only [List.flatMap_cons, List.append_assoc, List.cons_append, List.nil_append] at h
      obtain ⟨rfl, hrest⟩ := append_sep_inj hcs.1 hds.1 h
      obtain ⟨rfl, hst⟩ := ih hcs.2 hds.2 hrest
      exact ⟨rfl, hst⟩

/-- There is no separator in front of the first component. -/
theorem segments_ne_cons (hcs : ∀ c ∈ cs, IsComponent sep c) (hs : sep ∉ s) :
    (cs.flatMap fun c => c ++ [sep]) ++ s ≠ sep :: l := by
  intro hl
  cases cs with
  | nil =>
    rw [show s = sep :: l from hl] at hs
    exact hs List.mem_cons_self
  | cons c cs =>
    obtain ⟨hne, hsep⟩ := hcs c List.mem_cons_self
    obtain ⟨a, c, rfl⟩ := List.exists_cons_of_ne_nil hne
    rw [List.flatMap_cons, List.cons_append, List.cons_append, List.cons_append, List.cons.injEq]
      at hl
    exact hsep (hl.1 ▸ List.mem_cons_self)

theorem dirText_inj (hcs : ∀ c ∈ cs, IsComponent sep c) (hds : ∀ c ∈ ds, IsComponent sep c)
    (hs : sep ∉ s) (ht : sep ∉ t) (h : dirText sep absolute cs ++ s = dirText sep absolute' ds ++
      t) : absolute = absolute' ∧ cs = ds ∧ s = t := by
  have hsame : absolute = absolute' := by
    cases absolute <;> cases absolute'
    · rfl
    · exact absurd h (segments_ne_cons hcs hs)
    · exact absurd h.symm (segments_ne_cons hds ht)
    · rfl
  subst hsame
  rw [dirText, dirText, List.append_assoc, List.append_assoc, List.append_cancel_left_eq] at h
  exact ⟨rfl, segments_inj (fun c hc => (hcs c hc).2) (fun c hc => (hds c hc).2) hs ht h⟩

namespace IsText

theorem eq_append (h : IsText sep absolute cs l) : ∃ ds s, l = dirText sep absolute ds ++ s ∧
    (cs = ds ∧ s = [] ∨ cs = ds ++ [s]) := by
  cases h with
  | slash cs => exact ⟨cs, [], (List.append_nil _).symm, .inl ⟨rfl, rfl⟩⟩
  | bare cs c => exact ⟨cs, c, rfl, .inr rfl⟩

/-- Only the separator at the end can be missing. -/
theorem eq_or_append (h : IsText sep absolute cs l) :
    l = dirText sep absolute cs ∨ l ++ [sep] = dirText sep absolute cs := by
  cases h with
  | slash cs => exact .inl rfl
  | bare cs c => exact .inr (by rw [dirText_append, List.append_assoc])

/-- A text is the text of one path. -/
theorem unique (h : IsText sep absolute cs l) (h' : IsText sep absolute' ds l)
    (hcs : ∀ c ∈ cs, IsComponent sep c) (hds : ∀ c ∈ ds, IsComponent sep c) :
    absolute = absolute' ∧ cs = ds := by
  obtain ⟨as, s, rfl, hs⟩ := h.eq_append
  obtain ⟨bs, t, hl, ht⟩ := h'.eq_append
  have hfree : ∀ {cs as s}, (∀ c ∈ cs, IsComponent sep c) → (cs = as ∧ s = [] ∨ cs = as ++ [s]) →
      (∀ c ∈ as, IsComponent sep c) ∧ sep ∉ s ∧ (s = [] → cs = as) := by
    rintro cs as s hcs (⟨rfl, rfl⟩ | rfl)
    · exact ⟨hcs, List.not_mem_nil, fun _ => rfl⟩
    · have hc := hcs s (List.mem_append_right _ List.mem_cons_self)
      exact ⟨fun c hc => hcs c (List.mem_append_left _ hc), hc.2, fun hnil => absurd hnil hc.1⟩
  obtain ⟨has, hs', hsnil⟩ := hfree hcs hs
  obtain ⟨hbs, ht', htnil⟩ := hfree hds ht
  obtain ⟨rfl, rfl, rfl⟩ := dirText_inj has hbs hs' ht' hl
  refine ⟨rfl, ?_⟩
  by_cases hnil : s = []
  · rw [hsnil hnil, htnil hnil]
  · rw [hs.resolve_left fun h => hnil h.2, ht.resolve_left fun h => hnil h.2]

end IsText

theorem isText_slash_iff (hcs : ∀ c ∈ cs, IsComponent sep c) :
    IsText sep absolute cs (dirText sep absolute' cs) ↔ absolute = absolute' :=
  ⟨fun h => (h.unique (.slash cs) hcs hcs).1, fun h => h ▸ .slash cs⟩

theorem isText_bare_iff (hcs : ∀ c ∈ cs, IsComponent sep c) (hds : ∀ c ∈ ds, IsComponent sep c)
    (hc : IsComponent sep c) :
    IsText sep absolute ds (dirText sep absolute' cs ++ c) ↔
      absolute = absolute' ∧ ds = cs ++ [c] := by
  constructor
  · intro h
    refine h.unique (.bare cs c) hds fun d hd => ?_
    exact (List.mem_append.1 hd).elim (hcs d) fun hd => by rwa [List.mem_singleton.1 hd]
  · rintro ⟨rfl, rfl⟩
    exact .bare cs c

theorem SeparatedBy.length_eq {p : α → Prop} (sep : α) (h : SeparatedBy p cs l) :
    l.length = ([sep].intercalate cs).length := by
  induction h with
  | one c => rw [List.intercalate_singleton]
  | @cons cs l a c _ h ih =>
    obtain ⟨d, ds, rfl⟩ := List.exists_cons_of_ne_nil h.ne_nil
    rw [List.intercalate_cons_cons, List.length_append, List.length_cons, ih,
      List.length_append, List.length_append, List.length_singleton]
    omega

/-! ### Resolution -/

section
variable [DecidableEq α]

theorem resolve_cons (stack cs : List (List α)) (c : List α) :
    resolve dot stack (c :: cs) = (resolveStep dot stack c).bind (resolve dot · cs) := rfl

theorem resolve_append (stack cs ds : List (List α)) :
    resolve dot stack (cs ++ ds) = (resolve dot stack cs).bind (resolve dot · ds) :=
  List.foldlM_append

theorem resolveStep_isComponent (hstack : ∀ c ∈ stack, IsComponent sep c) (hc : IsComponent sep c)
    (h : resolveStep dot stack c = some stack') : ∀ c ∈ stack', IsComponent sep c := by
  rw [resolveStep] at h
  split_ifs at h
  · cases h
    exact hstack
  · cases h
    exact fun d hd => hstack d (List.dropLast_subset stack hd)
  · cases h
    exact fun d hd => (List.mem_append.1 hd).elim (hstack d) fun hd => by
      rwa [List.mem_singleton.1 hd]

/-- Only `.` and `..` are not pushed as they are. -/
theorem eq_append_iff_of_resolveStep (h : resolveStep dot stack c = some stack') :
    stack' = stack ++ [c] ↔ c ≠ [dot] ∧ c ≠ [dot, dot] := by
  rw [resolveStep] at h
  constructor
  · rintro rfl
    split_ifs at h with hd hdd
    · exact absurd (congrArg List.length (Option.some.inj h)) (by simp)
    · exact absurd (congrArg List.length (Option.some.inj h)) (by simp)
    · exact ⟨hd, hdd⟩
  · rintro ⟨hd, hdd⟩
    rw [if_neg hd, if_neg hdd] at h
    exact (Option.some.inj h).symm

theorem resolve_isComponent (hstack : ∀ c ∈ stack, IsComponent sep c)
    (hcs : ∀ c ∈ cs, IsComponent sep c) (h : resolve dot stack cs = some stack') :
    ∀ c ∈ stack', IsComponent sep c := by
  induction cs generalizing stack with
  | nil =>
    cases h
    exact hstack
  | cons c cs ih =>
    rw [List.forall_mem_cons] at hcs
    rw [resolve_cons, Option.bind_eq_some_iff] at h
    obtain ⟨stack₁, hstep, h⟩ := h
    exact ih (resolveStep_isComponent hstack hcs.1 hstep) hcs.2 h

theorem emptied_cons (h : resolveStep dot stack c = some stack') (cs : List (List α)) :
    emptied dot stack (c :: cs) = (emptied dot stack [c] || emptied dot stack' cs) := by
  rw [resolveStep] at h
  rw [emptied, emptied]
  split_ifs at h ⊢ <;> cases h <;> simp [emptied]

theorem emptied_append (h : resolve dot stack cs = some stack') (ds : List (List α)) :
    emptied dot stack (cs ++ ds) = (emptied dot stack cs || emptied dot stack' ds) := by
  induction cs generalizing stack with
  | nil =>
    cases h
    rfl
  | cons c cs ih =>
    rw [resolve_cons, Option.bind_eq_some_iff] at h
    obtain ⟨stack₁, hstep, h⟩ := h
    rw [List.cons_append, emptied_cons hstep (cs ++ ds), emptied_cons hstep cs, ih h, Bool.or_assoc]

end

end

end LexicalPath
