import Mathlib.Data.List.GetD
import Mathlib.Tactic

/-!
# Streams cut into blocks

A stream is taken in element by element. A buffer collects the elements of the
block under way, and each full block is folded into a chaining value. However
the stream is handed over, the chaining value is the fold over its whole blocks
and the buffer holds the rest.
-/

namespace XinuRpi4.Foundation

variable {σ β : Type*} {b : ℕ}

/-- Block `i` of a stream. -/
def block [Inhabited β] (b : ℕ) (xs : List β) (i : ℕ) : Fin b → β :=
  fun j => xs.getD (b * i + j) default

/-- Fold the whole blocks of a stream. -/
def foldBlocks [Inhabited β] (f : σ → (Fin b → β) → σ) (h : σ) (xs : List β) : σ :=
  (List.range (xs.length / b)).foldl (fun h i => f h (block b xs i)) h

/-- The chaining value and the block under way, of which `n` elements have
arrived. -/
structure Buffered (σ β : Type*) (b : ℕ) where
  h : σ
  buf : Fin b → β
  n : ℕ
  n_lt : n < b

namespace Buffered

/-- Take in one element. -/
def put (f : σ → (Fin b → β) → σ) (s : Buffered σ β b) (x : β) : Buffered σ β b :=
  let buf := Function.update s.buf ⟨s.n, s.n_lt⟩ x
  if hfull : s.n + 1 = b then
    { h := f s.h buf, buf := buf, n := 0, n_lt := by omega }
  else
    { h := s.h, buf := buf, n := s.n + 1, n_lt := by have := s.n_lt; omega }

/-- The stream `xs` has been taken in, from the chaining value `h`. -/
structure Holds [Inhabited β] (f : σ → (Fin b → β) → σ) (h : σ) (xs : List β)
    (s : Buffered σ β b) : Prop where
  chain : s.h = foldBlocks f h xs
  fill : s.n = xs.length % b
  rest : ∀ j : Fin b, j.val < s.n → s.buf j = block b xs (xs.length / b) j

end Buffered

variable [Inhabited β] {f : σ → (Fin b → β) → σ} {h : σ} {xs ys : List β} {x : β}
  {s : Buffered σ β b}

theorem block_append_of_lt {i : ℕ} (hi : i < xs.length / b) :
    block b (xs ++ ys) i = block b xs i := by
  funext j
  have hj : b * i + j.val < xs.length := by
    have hle : b * (i + 1) ≤ xs.length :=
      (Nat.mul_le_mul_left b hi).trans (Nat.mul_div_le xs.length b)
    have := j.isLt
    rw [Nat.mul_succ] at hle
    omega
  simp only [block]
  rw [List.getD_append _ _ _ _ hj]

/-- Elements behind the whole blocks do not change them. -/
theorem foldBlocks_append_rest (hlen : (xs ++ ys).length / b = xs.length / b) :
    foldBlocks f h (xs ++ ys) = foldBlocks f h xs := by
  unfold foldBlocks
  rw [hlen]
  refine List.foldl_ext _ _ _ fun t i hi => ?_
  rw [block_append_of_lt (List.mem_range.mp hi)]

/-- An element that completes a block. -/
theorem foldBlocks_append_full (hlen : (xs ++ ys).length / b = xs.length / b + 1) :
    foldBlocks f h (xs ++ ys) = f (foldBlocks f h xs) (block b (xs ++ ys) (xs.length / b)) := by
  unfold foldBlocks
  rw [hlen, List.range_succ, List.foldl_append, List.foldl_cons, List.foldl_nil]
  congr 1
  refine List.foldl_ext _ _ _ fun t i hi => ?_
  rw [block_append_of_lt (List.mem_range.mp hi)]

theorem block_snoc_of_lt {j : Fin b} (hj : j.val < xs.length % b) :
    block b (xs ++ [x]) (xs.length / b) j = block b xs (xs.length / b) j := by
  simp only [block]
  rw [List.getD_append _ _ _ _ (by have := Nat.div_add_mod xs.length b; omega)]

theorem block_snoc_self {j : Fin b} (hj : j.val = xs.length % b) :
    block b (xs ++ [x]) (xs.length / b) j = x := by
  simp only [block]
  rw [hj, Nat.div_add_mod, List.getD_append_right _ _ _ _ le_rfl]
  simp

namespace Buffered

/-- Nothing has been taken in. -/
theorem holds_nil (hn : s.n = 0) : s.Holds f s.h [] where
  chain := by simp [foldBlocks]
  fill := by simp [hn]
  rest := by simp [hn]

/-- The buffer with one more element holds the beginning of its block. -/
theorem Holds.buf_put (hs : s.Holds f h xs) (x : β) {j : Fin b} (hj : j.val < s.n + 1) :
    Function.update s.buf ⟨s.n, s.n_lt⟩ x j = block b (xs ++ [x]) (xs.length / b) j := by
  by_cases hj' : j = ⟨s.n, s.n_lt⟩
  · have hval : j.val = xs.length % b := by rw [hj', ← hs.fill]
    rw [block_snoc_self hval, hj', Function.update_self]
  · have hlt : j.val < s.n := by
      have : j.val ≠ s.n := fun he => hj' (Fin.ext he)
      omega
    rw [Function.update_of_ne hj', hs.rest j hlt, block_snoc_of_lt (by rw [← hs.fill]; exact hlt)]

theorem Holds.put (hs : s.Holds f h xs) (x : β) : (s.put f x).Holds f h (xs ++ [x]) := by
  have hb : s.n < b := s.n_lt
  have hdiv := Nat.div_add_mod xs.length b
  have hlen : (xs ++ [x]).length = b * (xs.length / b) + (s.n + 1) := by
    rw [List.length_append, List.length_singleton, hs.fill]
    omega
  unfold Buffered.put
  by_cases hfull : s.n + 1 = b
  · have hquot : (xs ++ [x]).length / b = xs.length / b + 1 := by
      rw [hlen, hfull, ← Nat.mul_succ, Nat.mul_div_cancel_left _ (by omega)]
    rw [dif_pos hfull]
    refine ⟨?_, ?_, fun j hj => absurd hj (Nat.not_lt_zero _)⟩
    · rw [foldBlocks_append_full hquot, ← hs.chain]
      change f s.h _ = f s.h _
      congr 1
      funext j
      exact hs.buf_put x (by have := j.isLt; omega)
    · rw [hlen, hfull, ← Nat.mul_succ, Nat.mul_mod_right]
  · have hrest : s.n + 1 < b := by omega
    have hquot : (xs ++ [x]).length / b = xs.length / b := by
      rw [hlen, Nat.mul_add_div (by omega), Nat.div_eq_of_lt hrest, Nat.add_zero]
    rw [dif_neg hfull]
    refine ⟨?_, ?_, fun j hj => ?_⟩
    · rw [foldBlocks_append_rest hquot]
      exact hs.chain
    · rw [hlen, Nat.mul_add_mod, Nat.mod_eq_of_lt hrest]
    · rw [hquot]
      exact hs.buf_put x hj

theorem Holds.foldl (hs : s.Holds f h xs) (ys : List β) :
    (ys.foldl (Buffered.put f) s).Holds f h (xs ++ ys) := by
  induction ys generalizing s xs with
  | nil => simpa using hs
  | cons y ys ih => simpa using ih (hs.put y)

end Buffered

end XinuRpi4.Foundation
