import Mathlib.Tactic

/-!
# Queues of descriptors

A ring of `n` descriptors, used in turn. The entries of the queue stand at the
descriptors from a base on, modulo `n`, and `P i x` says that descriptor `i`
holds the entry `x`. Producer and consumer count in words of sixteen bits; when
`n` divides their range, a wrapped index names the same descriptor.
-/

namespace XinuRpi4.Foundation

variable {β : Type*} {n base : ℕ} {P P' : ℕ → β → Prop} {x : β} {xs : List β}

def Queued (n : ℕ) (P : ℕ → β → Prop) (base : ℕ) (xs : List β) : Prop :=
  ∀ k x, xs[k]? = some x → P ((base + k) % n) x

namespace Queued

theorem nil : Queued n P base [] := by
  intro k x hx
  simp at hx

theorem head (h : Queued n P base (x :: xs)) : P (base % n) x := h 0 x rfl

theorem tail (h : Queued n P base (x :: xs)) : Queued n P (base + 1) xs := by
  intro k y hy
  have hslot : base + 1 + k = base + (k + 1) := by omega
  rw [hslot]
  exact h (k + 1) y hy

/-- Only the descriptor at the base matters. -/
theorem congr {base' : ℕ} (h : Queued n P base xs) (hbase : base' % n = base % n) :
    Queued n P base' xs := by
  intro k y hy
  rw [Nat.add_mod, hbase, ← Nat.add_mod]
  exact h k y hy

/-- The descriptors behind the base are different up to the size of the ring. -/
theorem slot_ne {k : ℕ} (hk : k < xs.length) (hroom : xs.length < n) :
    (base + k) % n ≠ (base + xs.length) % n := by
  intro heq
  have hmod : k ≡ xs.length [MOD n] := Nat.ModEq.add_left_cancel' base heq
  rw [Nat.ModEq, Nat.mod_eq_of_lt (by omega), Nat.mod_eq_of_lt hroom] at hmod
  omega

/-- The descriptor behind the last entry takes one more. -/
theorem append (h : Queued n P base xs) (hroom : xs.length < n)
    (hkeep : ∀ i y, i ≠ (base + xs.length) % n → P i y → P' i y)
    (hnew : P' ((base + xs.length) % n) x) : Queued n P' base (xs ++ [x]) := by
  intro k y hy
  by_cases hk : k < xs.length
  · rw [List.getElem?_append_left hk] at hy
    exact hkeep _ _ (slot_ne hk hroom) (h k y hy)
  · have hlast : k = xs.length := by
      have hlt := (List.getElem?_eq_some_iff.mp hy).1
      simp at hlt
      omega
    subst hlast
    cases (List.getElem?_concat_length).symm.trans hy
    exact hnew

/-- Work on the first descriptor leaves the others. -/
theorem tail_keep (h : Queued n P base (x :: xs)) (hlen : xs.length < n)
    (hkeep : ∀ i y, i ≠ base % n → P i y → P' i y) : Queued n P' (base + 1) xs := by
  intro k y hy
  have hk : k < xs.length := (List.getElem?_eq_some_iff.mp hy).1
  refine hkeep _ _ ?_ (h.tail k y hy)
  intro heq
  have hmod : 1 + k ≡ 0 [MOD n] := by
    refine Nat.ModEq.add_left_cancel' base ?_
    rw [Nat.ModEq, ← Nat.add_assoc]
    exact heq
  rw [Nat.ModEq, Nat.mod_eq_of_lt (by omega), Nat.zero_mod] at hmod
  omega

end Queued

theorem index_succ_mod (c : UInt16) (hn : n ∣ 2 ^ 16) : (c + 1).toNat % n = (c.toNat + 1) % n := by
  rw [UInt16.toNat_add, Nat.mod_mod_of_dvd _ hn]
  rfl

theorem index_add_mod (c : UInt16) (m : ℕ) (hn : n ∣ 2 ^ 16) :
    (c + UInt16.ofNat m).toNat % n = (c.toNat + m) % n := by
  rw [UInt16.toNat_add, Nat.mod_mod_of_dvd _ hn, UInt16.toNat_ofNat', Nat.add_mod,
    Nat.mod_mod_of_dvd _ hn, ← Nat.add_mod]

end XinuRpi4.Foundation
