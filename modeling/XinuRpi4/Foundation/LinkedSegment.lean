import Mathlib.Tactic

/-!
# Singly linked lists in a successor function

A list threaded through nodes of type `α` is a successor function and a start
pointer. `Segment next p l q` says that following `next` from `p` visits
exactly the nodes of `l` and then stands at `q`. The edits of pointer code
(append behind a last node, drop the first node, bypass a node in the middle)
are rewritings of segments; a node outside the list may be relinked freely. The
loops that walk along a list stop where the list says.
-/

namespace XinuRpi4.Foundation

variable {α : Type*}

def Segment (next : α → Option α) : Option α → List α → Option α → Prop
  | p, [], q => p = q
  | p, a :: l, q => p = some a ∧ Segment next (next a) l q

instance Segment.decidable [DecidableEq α] (next : α → Option α) :
    ∀ p l q, Decidable (Segment next p l q)
  | p, [], q => inferInstanceAs (Decidable (p = q))
  | p, a :: l, q =>
    have := Segment.decidable next (next a) l q
    inferInstanceAs (Decidable (p = some a ∧ Segment next (next a) l q))

namespace Segment

variable {next next' : α → Option α} {p q r : Option α} {a : α} {l l₁ l₂ : List α}

@[simp] theorem nil_iff : Segment next p [] q ↔ p = q := Iff.rfl

@[simp] theorem cons_iff :
    Segment next p (a :: l) q ↔ p = some a ∧ Segment next (next a) l q := Iff.rfl

theorem append_iff :
    Segment next p (l₁ ++ l₂) q ↔ ∃ r, Segment next p l₁ r ∧ Segment next r l₂ q := by
  induction l₁ generalizing p with
  | nil => simp
  | cons a l ih => simp [ih, and_assoc]

theorem concat_iff :
    Segment next p (l ++ [a]) q ↔ Segment next p l (some a) ∧ next a = q := by
  simp [append_iff]

/-- A segment only reads the successors of its own nodes. -/
theorem congr (h : ∀ a ∈ l, next' a = next a) :
    Segment next' p l q ↔ Segment next p l q := by
  induction l generalizing p with
  | nil => rfl
  | cons a l ih =>
    rw [cons_iff, cons_iff, h a (by simp), ih fun b hb => h b (by simp [hb])]

theorem head?_eq (h : Segment next p l none) : p = l.head? := by
  cases l with
  | nil => exact h
  | cons a l => exact h.1

theorem unique (h₁ : Segment next p l₁ none) (h₂ : Segment next p l₂ none) : l₁ = l₂ := by
  induction l₁ generalizing p l₂ with
  | nil =>
    cases l₂ with
    | nil => rfl
    | cons b l₂ => simp_all
  | cons a l₁ ih =>
    cases l₂ with
    | nil => simp_all
    | cons b l₂ =>
      have hab : a = b := Option.some.inj (h₁.1.symm.trans h₂.1)
      subst hab
      rw [ih h₁.2 h₂.2]

/-- Behind a node that is not the last one stands another node of the list. -/
theorem next_mem {b c : α} (h : Segment next p (l ++ [b]) q) (hc : c ∈ l) :
    ∃ d ∈ l ++ [b], next c = some d := by
  induction l generalizing p with
  | nil => cases hc
  | cons a l ih =>
    obtain ⟨-, hrest⟩ := h
    rcases List.mem_cons.mp hc with rfl | hc
    · cases l with
      | nil => exact ⟨b, by simp, hrest.1⟩
      | cons d l => exact ⟨d, by simp, hrest.1⟩
    · obtain ⟨d, hd, hnext⟩ := ih hrest hc
      exact ⟨d, List.mem_cons_of_mem a hd, hnext⟩

theorem next_eq_none_iff (h : Segment next p (l₁ ++ a :: l₂) none) : next a = none ↔ l₂ = [] := by
  obtain ⟨r, -, -, hrest⟩ := append_iff.mp h
  rw [hrest.head?_eq, List.head?_eq_none_iff]

section Update

variable [DecidableEq α]

theorem update_of_notMem (ha : a ∉ l) :
    Segment (Function.update next a r) p l q ↔ Segment next p l q := by
  apply congr
  intro b hb
  apply Function.update_of_ne
  rintro rfl
  exact ha hb

/-- Redirecting the last node of a segment moves its end and nothing else. -/
theorem relink (h : Segment next p (l ++ [a]) q) (ha : a ∉ l) :
    Segment (Function.update next a r) p (l ++ [a]) r := by
  rw [concat_iff] at h ⊢
  exact ⟨(update_of_notMem ha).mpr h.1, Function.update_self ..⟩

/-- Bypassing a node of the middle takes it out of the segment. -/
theorem bypass {b : α} (h : Segment next p (l₁ ++ b :: a :: l₂) q) (hb : b ∉ l₁ ++ a :: l₂) :
    Segment (Function.update next b (next a)) p (l₁ ++ b :: l₂) q := by
  simp only [List.mem_append, List.mem_cons, not_or] at hb
  obtain ⟨r, h₁, rfl, hnext, h₂⟩ := append_iff.mp h
  refine append_iff.mpr ⟨some b, (update_of_notMem hb.1).mpr h₁, rfl, ?_⟩
  rw [Function.update_self]
  exact (update_of_notMem hb.2.2).mpr h₂

end Update

end Segment

/-- `while (!stop(a)) a = a->next;` of at most so many rounds. -/
def walk (next : α → Option α) (stop : α → Bool) : ℕ → α → Option α
  | 0, _ => none
  | n + 1, a => if stop a then some a else (next a).bind (walk next stop n)

/-- `for (; p; p = p->next) if (test(p)) hit = p;` -/
def lastHit (next : α → Option α) (test : α → Bool) : ℕ → Option α → Option α → Option (Option α)
  | _, none, hit => some hit
  | 0, some _, _ => none
  | n + 1, some a, hit => lastHit next test n (next a) (if test a then some a else hit)

namespace Segment

variable {next : α → Option α} {p q : Option α} {a b : α} {l l₁ l₂ : List α}

/-- The loop stops at the first node of the list that passes the test. -/
theorem walk_eq {stop : α → Bool} {n : ℕ} (h : Segment next (some a) (l₁ ++ b :: l₂) q)
    (hbefore : ∀ c ∈ l₁, stop c = false) (hstop : stop b = true) (hn : l₁.length < n) :
    walk next stop n a = some b := by
  induction l₁ generalizing a n with
  | nil =>
    obtain ⟨n, rfl⟩ := Nat.exists_eq_succ_of_ne_zero (Nat.ne_of_gt hn)
    cases h.1
    rw [walk, if_pos hstop]
  | cons c l₁ ih =>
    obtain ⟨n, rfl⟩ := Nat.exists_eq_succ_of_ne_zero (Nat.ne_of_gt (Nat.lt_of_le_of_lt (Nat.zero_le _) hn))
    obtain ⟨hac, hrest⟩ := h
    obtain rfl := Option.some_inj.mp hac
    obtain ⟨d, hd⟩ : ∃ d, next a = some d := by
      cases l₁ with
      | nil => exact ⟨b, hrest.1⟩
      | cons d l₁ => exact ⟨d, hrest.1⟩
    rw [walk, hbefore a List.mem_cons_self, if_neg Bool.false_ne_true, hd, Option.bind_some]
    rw [hd] at hrest
    exact ih hrest (fun c hc => hbefore c (List.mem_cons_of_mem a hc)) (Nat.lt_of_succ_lt_succ hn)

/-- The loop finds the last node that passes the test. -/
theorem lastHit_eq (test : α → Bool) {n : ℕ} (h : Segment next p l none) (hn : l.length ≤ n)
    (hit : Option α) : lastHit next test n p hit = some ((l.filter test).getLast?.or hit) := by
  induction l generalizing p n hit with
  | nil =>
    cases (show p = none from h)
    cases n <;> rfl
  | cons a l ih =>
    obtain ⟨n, rfl⟩ := Nat.exists_eq_succ_of_ne_zero (Nat.ne_of_gt (Nat.lt_of_le_of_lt (Nat.zero_le _) hn))
    cases h.1
    rw [lastHit, ih h.2 (Nat.le_of_succ_le_succ hn), List.filter_cons]
    split_ifs
    · rw [List.getLast?_cons]
      cases (l.filter test).getLast? <;> rfl
    · rfl

end Segment

end XinuRpi4.Foundation
