import Mathlib.Tactic

/-!
# Depth-first search with a bounded stack

The top of the stack is taken off, and its children are pushed in their order as
long as there is room. While a node is on top of the stack, the nodes below it are
one for each elder sibling of the node and of its ancestors. So the shape of the
tree says which nodes find room, and the search meets these and no others.
-/

namespace XinuRpi4.Foundation

variable {α : Type*}

/-- The nodes under a root, each with the number of nodes that wait below it on the stack. -/
inductive Waits (kids : α → List α) (root : α) : α → ℕ → Prop
  | root : Waits kids root root 0
  | child {d c : α} {b i : ℕ} (hd : Waits kids root d b) (hc : (kids d)[i]? = some c) :
      Waits kids root c (b + i)

structure IsTree (kids : α → List α) (parent : α → Option α) (root : α) : Prop where
  top : parent root = none
  parent : ∀ d, ∀ c ∈ kids d, parent c = some d
  nodup : ∀ d, (kids d).Nodup

/-- The nodes met so far, the latest first, and the stack, its top last. -/
structure Search (kids : α → List α) (root : α) (room : ℕ) (done stack : List α) : Prop where
  nodup : (done ++ stack).Nodup
  fits : stack.length ≤ room
  met : ∀ n ∈ done, ∃ b < room, Waits kids root n b
  waiting : ∀ i n, stack[i]? = some n → Waits kids root n i
  closed : ∀ d ∈ done, ∀ b, Waits kids root d b → ∀ i c, (kids d)[i]? = some c → b + i < room →
    c ∈ done ++ stack
  origin : ∀ n ∈ done ++ stack, n ≠ root → ∃ d ∈ done, n ∈ kids d
  root : root ∈ done ++ stack

section Tree

variable {kids : α → List α} {parent : α → Option α} {root n : α} {room b b' : ℕ}
  {done stack : List α}

theorem IsTree.ne_root (h : IsTree kids parent root) {d c : α} (hc : c ∈ kids d) : c ≠ root := by
  rintro rfl
  have htop := h.parent d c hc
  rw [h.top] at htop
  cases htop

theorem IsTree.parent_unique (h : IsTree kids parent root) {d e c : α} (hd : c ∈ kids d)
    (he : c ∈ kids e) : d = e :=
  Option.some.inj ((h.parent d c hd).symm.trans (h.parent e c he))

/-- A node has one place in a tree. -/
theorem Waits.unique (h : IsTree kids parent root) (hn : Waits kids root n b)
    (hn' : Waits kids root n b') : b = b' := by
  induction hn generalizing b' with
  | root =>
    cases hn' with
    | root => rfl
    | child _ hc => exact absurd rfl (h.ne_root (List.mem_of_getElem? hc))
  | @child d c b i hd hc ih =>
    cases hn' with
    | root => exact absurd rfl (h.ne_root (List.mem_of_getElem? hc))
    | @child e _ b₂ j he hc' =>
      obtain rfl := h.parent_unique (List.mem_of_getElem? hc) (List.mem_of_getElem? hc')
      obtain ⟨hi, hci⟩ := List.getElem?_eq_some_iff.mp hc
      obtain ⟨hj, hcj⟩ := List.getElem?_eq_some_iff.mp hc'
      have hij : i = j := (h.nodup d).getElem_inj_iff.mp (hci.trans hcj.symm)
      rw [ih he, hij]

theorem Search.start (hroom : 0 < room) : Search kids root room [] [root] where
  nodup := List.nodup_singleton root
  fits := hroom
  met _ hn := absurd hn List.not_mem_nil
  waiting i n hn := by
    cases i with
    | zero =>
      obtain rfl := Option.some.inj hn
      exact Waits.root
    | succ i => cases hn
  closed _ hd := absurd hd List.not_mem_nil
  origin _ hn hne := absurd (List.mem_singleton.mp hn) hne
  root := List.mem_singleton_self root

/-- A child that is pushed is new. -/
theorem Search.kid_new (h : IsTree kids parent root) (hs : Search kids root room done (stack ++ [n]))
    {c : α} (hc : c ∈ kids n) : c ∉ done ++ (stack ++ [n]) := by
  intro hold
  obtain ⟨d, hd, hcd⟩ := hs.origin c hold (h.ne_root hc)
  obtain rfl := h.parent_unique hc hcd
  exact (List.disjoint_of_nodup_append hs.nodup) hd (List.mem_append_right _ (List.mem_singleton_self _))

theorem Search.mem_step (new : List α) {c : α} (hc : c ∈ done ++ (stack ++ [n])) :
    c ∈ (n :: done) ++ (stack ++ new) := by
  simp only [List.mem_append, List.mem_cons, List.not_mem_nil, or_false] at hc ⊢
  tauto

/-- One turn of the search. -/
theorem Search.step (h : IsTree kids parent root) (hs : Search kids root room done (stack ++ [n])) :
    Search kids root room (n :: done) (stack ++ (kids n).take (room - stack.length)) := by
  have hplace : Waits kids root n stack.length :=
    hs.waiting _ n List.getElem?_concat_length
  have hfits : stack.length + 1 ≤ room := by simpa using hs.fits
  have hsub := List.take_subset (room - stack.length) (kids n)
  constructor
  case nodup =>
    have hperm : (done ++ (stack ++ [n])).Perm ((n :: done) ++ stack) := by
      rw [← List.append_assoc]
      exact List.perm_append_singleton n _
    rw [← List.append_assoc]
    refine List.Nodup.append (hperm.nodup_iff.mp hs.nodup) ((List.take_sublist _ _).nodup (h.nodup n)) ?_
    intro c hold hnew
    exact hs.kid_new h (hsub hnew) (hperm.mem_iff.mpr hold)
  case fits =>
    rw [List.length_append, List.length_take]
    omega
  case met =>
    intro m hm
    rcases List.mem_cons.mp hm with rfl | hm
    · exact ⟨stack.length, hfits, hplace⟩
    · exact hs.met m hm
  case waiting =>
    intro i m hm
    rw [List.getElem?_append] at hm
    split_ifs at hm with hi
    · refine hs.waiting i m ?_
      rwa [List.getElem?_append_left hi]
    · rw [List.getElem?_take] at hm
      split_ifs at hm
      have hkid := hplace.child hm
      rwa [Nat.add_sub_cancel' (not_lt.mp hi)] at hkid
  case closed =>
    intro d hd b hb i c hc hroom
    rcases List.mem_cons.mp hd with rfl | hd
    · obtain rfl := hb.unique h hplace
      have hnew : c ∈ (kids d).take (room - stack.length) := by
        refine List.mem_of_getElem? (i := i) ?_
        rwa [List.getElem?_take_of_lt (by omega)]
      exact List.mem_append_right _ (List.mem_append_right _ hnew)
    · exact Search.mem_step _ (hs.closed d hd b hb i c hc hroom)
  case origin =>
    intro c hc hroot
    have hcases : c ∈ done ++ (stack ++ [n]) ∨ c ∈ kids n := by
      simp only [List.mem_append, List.mem_cons, List.not_mem_nil, or_false] at hc ⊢
      rcases hc with (rfl | hc) | hc | hc
      · exact Or.inl (Or.inr (Or.inr rfl))
      · exact Or.inl (Or.inl hc)
      · exact Or.inl (Or.inr (Or.inl hc))
      · exact Or.inr (hsub hc)
    rcases hcases with hold | hkid
    · obtain ⟨d, hd, hcd⟩ := hs.origin c hold hroot
      exact ⟨d, List.mem_cons_of_mem _ hd, hcd⟩
    · exact ⟨n, List.mem_cons_self, hkid⟩
  case root => exact Search.mem_step _ hs.root

/-- When the stack is empty, the nodes met are those that found room. -/
theorem Search.mem_done (hs : Search kids root room done []) :
    n ∈ done ↔ ∃ b < room, Waits kids root n b := by
  refine ⟨hs.met n, ?_⟩
  rintro ⟨b, hb, hn⟩
  induction hn with
  | root => simpa using hs.root
  | child hd hc ih => simpa using hs.closed _ (ih (by omega)) _ hd _ _ hc hb

end Tree

end XinuRpi4.Foundation
