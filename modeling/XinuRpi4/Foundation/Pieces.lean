import Mathlib.Data.List.GetD
import Mathlib.Tactic

/-!
# Copies piece by piece

A list written in pieces, and copies that may leave positions out.

A list divided into pieces, each with the position where it begins. Writing pieces at
their positions, in any order and any number of times, leaves the list in memory where
they reach, and nothing else changes.

A copy moves elements from a source to a destination, position by position; at the
positions it leaves out the destination keeps what it had. Copies of stretches that follow
each other make up the copy of the whole.
-/

namespace XinuRpi4.Foundation

section

variable {α : Type*}

/-- The pieces with their positions, the first one at `o`. -/
def pieces : ℕ → List (List α) → List (ℕ × List α)
  | _, [] => []
  | o, c :: cs => (o, c) :: pieces (o + c.length) cs

/-- The memory with the data from a position on. -/
def patch (m : ℤ → α) (pos : ℤ) (data : List α) : ℤ → α :=
  fun x => if pos ≤ x then data.getD (x - pos).toNat (m x) else m x

section Pieces

variable {o : ℕ} {cs : List (List α)} {p : ℕ × List α}

/-- A piece lies in the whole where its position says. -/
theorem pieces_drop (hp : p ∈ pieces o cs) :
    o ≤ p.1 ∧ p.1 ≤ o + cs.flatten.length ∧ p.2 <+: cs.flatten.drop (p.1 - o) := by
  induction cs generalizing o with
  | nil => simp [pieces] at hp
  | cons c cs ih =>
    rw [pieces, List.mem_cons] at hp
    rcases hp with rfl | hp
    · simp
    · obtain ⟨hle, hend, hpre⟩ := ih hp
      have hdrop : (c :: cs).flatten.drop (p.1 - o) = cs.flatten.drop (p.1 - (o + c.length)) := by
        rw [List.flatten_cons, List.drop_append, List.drop_of_length_le (by omega),
          List.nil_append]
        congr 1
        omega
      have hlen : (c :: cs).flatten.length = c.length + cs.flatten.length := by simp
      exact ⟨by omega, by omega, hdrop ▸ hpre⟩

theorem pieces_end (hp : p ∈ pieces 0 cs) : p.1 + p.2.length ≤ cs.flatten.length := by
  obtain ⟨-, hle, hpre⟩ := pieces_drop hp
  have hlen := hpre.length_le
  rw [List.length_drop] at hlen
  omega

theorem pieces_getElem? (hp : p ∈ pieces 0 cs) {i : ℕ} (hi : i < p.2.length) :
    cs.flatten[p.1 + i]? = p.2[i]? := by
  obtain ⟨t, ht⟩ := (pieces_drop hp).2.2
  rw [← List.getElem?_drop, Nat.sub_zero] at *
  rw [← ht, List.getElem?_append_left hi]

/-- The pieces reach every position of the whole. -/
theorem exists_piece {i : ℕ} (hi : i < cs.flatten.length) :
    ∃ p ∈ pieces o cs, p.1 ≤ o + i ∧ o + i < p.1 + p.2.length := by
  induction cs generalizing o i with
  | nil => simp at hi
  | cons c cs ih =>
    by_cases hc : i < c.length
    · exact ⟨(o, c), List.mem_cons_self, by simp, by simpa using hc⟩
    · rw [List.flatten_cons, List.length_append] at hi
      obtain ⟨p, hp, hle, hlt⟩ := ih (o := o + c.length) (i := i - c.length) (by omega)
      exact ⟨p, List.mem_cons_of_mem _ hp, by omega, by omega⟩

/-- No stretch of `k` positions without the start of a piece, where no piece is longer. -/
theorem exists_piece_start {k b : ℕ} (hk : ∀ c ∈ cs, c.length ≤ k) (ho : o < b)
    (hp : p ∈ pieces o cs) (hb : b ≤ p.1) : ∃ q ∈ pieces o cs, b ≤ q.1 ∧ q.1 < b + k := by
  induction cs generalizing o with
  | nil => simp [pieces] at hp
  | cons c cs ih =>
    have hc := hk c List.mem_cons_self
    rw [pieces, List.mem_cons] at hp
    rcases hp with rfl | hp
    · exact absurd hb (by simpa using ho)
    · by_cases hnext : o + c.length < b
      · obtain ⟨q, hq, hrange⟩ := ih (fun c hc => hk c (List.mem_cons_of_mem _ hc)) hnext hp
        exact ⟨q, List.mem_cons_of_mem _ hq, hrange⟩
      · cases cs with
        | nil => simp [pieces] at hp
        | cons c' cs =>
          exact ⟨(o + c.length, c'), by simp [pieces], by simpa using hnext, by simp; omega⟩

end Pieces

section Patch

variable {m : ℤ → α} {pos x : ℤ} {data : List α}

theorem patch_of_outside (h : x < pos ∨ pos + data.length ≤ x) : patch m pos data x = m x := by
  rw [patch]
  split_ifs with hle
  · rw [List.getD_eq_default _ _ (by omega)]
  · rfl

theorem patch_of_inside {i : ℕ} (hi : i < data.length) :
    some (patch m pos data (pos + i)) = data[i]? := by
  have hidx : (pos + i - pos).toNat = i := by omega
  rw [patch, if_pos (by omega), hidx, List.getD_eq_getElem _ _ hi, List.getElem?_eq_getElem hi]

/-- Writing a list from its first element on. -/
theorem patch_concat (data : List α) (a : α) :
    patch m pos (data ++ [a]) = Function.update (patch m pos data) (pos + data.length) a := by
  funext y
  rcases lt_trichotomy y (pos + data.length) with hy | rfl | hy
  · rw [Function.update_of_ne hy.ne, patch, patch]
    split_ifs with hle
    · rw [List.getD_append _ _ _ _ (by omega)]
    · rfl
  · have hin : some (patch m pos (data ++ [a]) (pos + data.length)) = (data ++ [a])[data.length]? :=
      patch_of_inside (by simp)
    simpa using hin
  · rw [Function.update_of_ne hy.ne', patch_of_outside (Or.inr hy.le),
      patch_of_outside (Or.inr (by simp; omega))]

/-- The writes of pieces, one after the other. -/
def patchAll (m : ℤ → α) (l : List (ℕ × List α)) : ℤ → α :=
  l.foldl (fun m p => patch m p.1 p.2) m

theorem patchAll_cons (m : ℤ → α) (p : ℕ × List α) (l : List (ℕ × List α)) :
    patchAll m (p :: l) = patchAll (patch m p.1 p.2) l := rfl

variable {cs : List (List α)} {l : List (ℕ × List α)}

theorem patch_piece {p : ℕ × List α} (hp : p ∈ pieces 0 cs) {i : ℕ} (hi : i < cs.flatten.length) :
    some (patch m p.1 p.2 i) =
      if p.1 ≤ i ∧ i < p.1 + p.2.length then cs.flatten[i]? else some (m i) := by
  split_ifs with h
  · obtain ⟨j, rfl⟩ := Nat.exists_eq_add_of_le h.1
    rw [Nat.cast_add, patch_of_inside (by omega), pieces_getElem? hp (by omega)]
  · rw [patch_of_outside (by omega)]

/-- What is right stays right. -/
theorem patchAll_keeps (hl : ∀ p ∈ l, p ∈ pieces 0 cs) {i : ℕ} (hi : i < cs.flatten.length)
    (hm : some (m i) = cs.flatten[i]?) : some (patchAll m l i) = cs.flatten[i]? := by
  induction l generalizing m with
  | nil => exact hm
  | cons p l ih =>
    apply ih fun q hq => hl q (List.mem_cons_of_mem _ hq)
    rw [patch_piece (hl p List.mem_cons_self) hi]
    split_ifs
    · rfl
    · exact hm

/-- Pieces that are all written, in any order, and again, make up the whole. -/
theorem patchAll_inside (hl : ∀ p ∈ l, p ∈ pieces 0 cs) (hall : ∀ p ∈ pieces 0 cs, p ∈ l) {i : ℕ}
    (hi : i < cs.flatten.length) : some (patchAll m l i) = cs.flatten[i]? := by
  obtain ⟨p, hp, hle, hlt⟩ := exists_piece (o := 0) hi
  rw [Nat.zero_add] at hle hlt
  obtain ⟨before, after, rfl⟩ := List.append_of_mem (hall p hp)
  have hafter : ∀ q ∈ after, q ∈ pieces 0 cs := fun q hq => hl q (by simp [hq])
  rw [patchAll, List.foldl_append, List.foldl_cons]
  apply patchAll_keeps hafter hi
  rw [patch_piece hp hi, if_pos ⟨hle, hlt⟩]

theorem patchAll_outside (hl : ∀ p ∈ l, p ∈ pieces 0 cs) {x : ℤ}
    (hx : x < 0 ∨ cs.flatten.length ≤ x) : patchAll m l x = m x := by
  induction l generalizing m with
  | nil => rfl
  | cons p l ih =>
    have hend := pieces_end (hl p List.mem_cons_self)
    rw [patchAll_cons, ih fun q hq => hl q (List.mem_cons_of_mem _ hq)]
    exact patch_of_outside (by omega)

end Patch

end

section

variable {α ι κ : Type*}

/-- At each of the first `n` positions, `A i` has got the element at `B i` if the position is
one of those that arrive; nothing else has changed. -/
structure Copies (dst : ι → α) (src : κ → α) (dst' : ι → α) (A : ℕ → ι) (B : ℕ → κ) (n : ℕ)
    (arrives : ℕ → Prop) : Prop where
  inside : ∀ i < n, arrives i → dst' (A i) = src (B i)
  left : ∀ i < n, ¬ arrives i → dst' (A i) = dst (A i)
  outside : ∀ x, (∀ i < n, x ≠ A i) → dst' x = dst x

namespace Copies

variable {dst dst₁ dst₂ : ι → α} {src : κ → α} {A : ℕ → ι} {B : ℕ → κ} {m n : ℕ}
  {P Q R : ℕ → Prop}

theorem zero : Copies dst src dst A B 0 P where
  inside _ hi := absurd hi (Nat.not_lt_zero _)
  left _ hi := absurd hi (Nat.not_lt_zero _)
  outside _ _ := rfl

theorem congr (h : Copies dst src dst₁ A B n P) (hP : ∀ i < n, (P i ↔ Q i)) :
    Copies dst src dst₁ A B n Q where
  inside i hi hQ := h.inside i hi ((hP i hi).mpr hQ)
  left i hi hQ := h.left i hi fun hp => hQ ((hP i hi).mp hp)
  outside := h.outside

/-- The positions of the destination and the source, under other names. -/
theorem places {A' : ℕ → ι} {B' : ℕ → κ} (h : Copies dst src dst₁ A B n P)
    (hA : ∀ i < n, A' i = A i) (hB : ∀ i < n, B' i = B i) : Copies dst src dst₁ A' B' n P where
  inside i hi hP := by
    rw [hA i hi, hB i hi]
    exact h.inside i hi hP
  left i hi hP := by
    rw [hA i hi]
    exact h.left i hi hP
  outside x hx := h.outside x fun i hi => by
    rw [← hA i hi]
    exact hx i hi

/-- One stretch and the next one, where no position of the one is one of the other. -/
theorem append (h₁ : Copies dst src dst₁ A B m P)
    (h₂ : Copies dst₁ src dst₂ (fun i => A (m + i)) (fun i => B (m + i)) n Q)
    (hA : ∀ i < m, ∀ j < n, A i ≠ A (m + j))
    (hP : ∀ i < m, (R i ↔ P i)) (hQ : ∀ i < n, (R (m + i) ↔ Q i)) :
    Copies dst src dst₂ A B (m + n) R where
  inside i hi hR := by
    rcases Nat.lt_or_ge i m with him | him
    · rw [h₂.outside _ fun j hj => hA i him j hj]
      exact h₁.inside i him ((hP i him).mp hR)
    · obtain ⟨k, rfl⟩ := Nat.exists_eq_add_of_le him
      exact h₂.inside k (by omega) ((hQ k (by omega)).mp hR)
  left i hi hR := by
    rcases Nat.lt_or_ge i m with him | him
    · rw [h₂.outside _ fun j hj => hA i him j hj]
      exact h₁.left i him fun hp => hR ((hP i him).mpr hp)
    · obtain ⟨k, rfl⟩ := Nat.exists_eq_add_of_le him
      rw [h₂.left k (by omega) fun hq => hR ((hQ k (by omega)).mpr hq)]
      exact h₁.outside _ fun j hj hAj => hA j hj k (by omega) hAj.symm
  outside x hx := by
    rw [h₂.outside x fun j hj => hx (m + j) (by omega)]
    exact h₁.outside x fun i hi => hx i (by omega)

/-- Positions behind those that arrive may be added. -/
theorem extend (h : Copies dst src dst₁ A B m P) (hle : m ≤ n)
    (hA : ∀ i < m, ∀ j < n - m, A i ≠ A (m + j)) :
    Copies dst src dst₁ A B n fun i => i < m ∧ P i := by
  obtain ⟨k, rfl⟩ := Nat.exists_eq_add_of_le hle
  have hrest : Copies dst₁ src dst₁ (fun i => A (m + i)) (fun i => B (m + i)) k fun _ => False :=
    ⟨fun _ _ h => h.elim, fun _ _ _ => rfl, fun _ _ => rfl⟩
  refine h.append hrest (by rwa [Nat.add_sub_cancel_left] at hA) (fun i hi => ?_) fun i _ => ?_
  · exact and_iff_right hi
  · exact iff_of_false (fun hlt => absurd hlt.1 (by omega)) id

end Copies

end

end XinuRpi4.Foundation
