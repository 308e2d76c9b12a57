import Mathlib.Tactic

/-!
# Rings owned by a cycle bit

Entries `0` to `n - 1` of a ring are filled in turn, and entry `n` links back to the
first. Each carries one bit. The producer writes its cycle bit to what it hands over
and toggles it at each lap; the consumer takes an entry whose bit equals its own, and
toggles its own where it follows the link. No index is shared. The rules below follow
the entries that are handed over and not taken yet, as long as there are fewer than `n`.
-/

namespace XinuRpi4.Foundation

variable {E : Type*} {n idx pos : ℕ} {cycle own link : Bool} {w : List ℕ}

/-- The entries between consumer and producer, and the laps the two are on. -/
inductive Between (n idx : ℕ) (cycle : Bool) (pos : ℕ) (own link : Bool) : List ℕ → Prop
  | same (hown : own = cycle) (hle : pos ≤ idx) :
      Between n idx cycle pos own link (List.range' pos (idx - pos))
  | behind (hown : own = !cycle) (hlt : idx < pos) (hle : pos ≤ n) (hlink : link = !cycle) :
      Between n idx cycle pos own link (List.range' pos (n - pos) ++ List.range' 0 idx)
  /-- The consumer follows the link before the producer rewrites it. -/
  | ahead (hown : own = !cycle) (hpos : pos = 0) (hidx : idx = n) :
      Between n idx cycle pos own link []

/-- Producer and consumer agree on the lap of every entry; `w` is what is handed over. -/
structure InStep (n : ℕ) (bit : E → Bool) (mem : ℕ → E) (idx : ℕ) (cycle : Bool) (pos : ℕ)
    (own : Bool) (w : List ℕ) : Prop where
  idx_le : idx ≤ n
  bits : ∀ j < n, bit (mem j) = if j < idx then cycle else !cycle
  between : Between n idx cycle pos own (bit (mem n)) w

namespace InStep

variable {bit : E → Bool} {mem mem' : ℕ → E}

/-- All bits are clear, and both ends are at the first entry. -/
theorem init (h : ∀ j < n, bit (mem j) = false) : InStep n bit mem 0 true 0 true [] where
  idx_le := Nat.zero_le n
  bits j hj := by simp [h j hj]
  between := Between.same rfl le_rfl

theorem pos_le (h : InStep n bit mem idx cycle pos own w) : pos ≤ n := by
  have hidx := h.idx_le
  cases h.between with
  | same _ hle => omega
  | behind _ _ hle _ => exact hle
  | ahead _ hpos _ => omega

/-- The entry that is filled next is not among those handed over. -/
theorem notMem (h : InStep n bit mem idx cycle pos own w) : idx ∉ w := by
  cases h.between with
  | same _ _ =>
    rw [List.mem_range'_1]
    omega
  | behind _ hlt _ _ =>
    rw [List.mem_append, List.mem_range'_1, List.mem_range'_1]
    omega
  | ahead _ _ _ => exact List.not_mem_nil

theorem lt_of_mem (h : InStep n bit mem idx cycle pos own w) {j : ℕ} (hj : j ∈ w) : j < n := by
  have hidx := h.idx_le
  cases h.between with
  | same _ _ =>
    rw [List.mem_range'_1] at hj
    omega
  | behind _ _ _ _ =>
    rw [List.mem_append, List.mem_range'_1, List.mem_range'_1] at hj
    omega
  | ahead _ _ _ => cases hj

/-- Writes that leave the bits alone. -/
theorem congr (h : InStep n bit mem idx cycle pos own w)
    (hmem : ∀ j ≤ n, bit (mem' j) = bit (mem j)) : InStep n bit mem' idx cycle pos own w where
  idx_le := h.idx_le
  bits j hj := by rw [hmem j hj.le, h.bits j hj]
  between := by
    rw [hmem n le_rfl]
    exact h.between

/-- The producer sets the bit of the entry it has filled. -/
theorem publish (h : InStep n bit mem idx cycle pos own w) (hidx : idx < n) {e : E}
    (he : bit e = cycle) (hroom : w.length + 1 < n) :
    InStep n bit (Function.update mem idx e) (idx + 1) cycle pos own (w ++ [idx]) where
  idx_le := hidx
  bits j hj := by
    by_cases hji : j = idx
    · subst hji
      simp [he]
    · rw [Function.update_of_ne hji, h.bits j hj]
      have hiff : j < idx ↔ j < idx + 1 := by omega
      simp only [hiff]
  between := by
    rw [Function.update_of_ne (by omega)]
    cases h.between with
    | same hown hle =>
      have hw : List.range' pos (idx - pos) ++ [idx] = List.range' pos (idx + 1 - pos) := by
        have hlen : idx + 1 - pos = idx - pos + 1 := by omega
        have hlast : idx = pos + (idx - pos) := by omega
        rw [hlen, List.range'_1_concat, ← hlast]
      rw [hw]
      exact Between.same hown (by omega)
    | behind hown hlt hle hlink =>
      have hw : List.range' pos (n - pos) ++ List.range' 0 idx ++ [idx] =
          List.range' pos (n - pos) ++ List.range' 0 (idx + 1) := by
        rw [List.append_assoc, List.range'_1_concat, Nat.zero_add]
      have hlt' : idx + 1 < pos := by
        simp only [List.length_append, List.length_range'] at hroom
        omega
      rw [hw]
      exact Between.behind hown hlt' hle hlink
    | ahead hown hpos hidx' => omega

/-- The producer rewrites the link and starts the next lap. -/
theorem close (h : InStep n bit mem n cycle pos own w) {e : E} (he : bit e = cycle)
    (hroom : w.length < n) :
    InStep n bit (Function.update mem n e) 0 (!cycle) pos own w where
  idx_le := Nat.zero_le n
  bits j hj := by
    rw [Function.update_of_ne hj.ne, h.bits j hj]
    simp [hj]
  between := by
    rw [Function.update_self, he]
    cases h.between with
    | same hown hle =>
      have hpos : 0 < pos := by
        rw [List.length_range'] at hroom
        omega
      have hnext : Between n 0 (!cycle) pos own cycle
          (List.range' pos (n - pos) ++ List.range' 0 0) :=
        Between.behind (by simp [hown]) hpos hle (by simp)
      simpa using hnext
    | behind hown hlt hle hlink => omega
    | ahead hown hpos hidx =>
      have hnext : Between n 0 (!cycle) pos own cycle (List.range' pos (0 - pos)) :=
        Between.same hown (by omega)
      simpa using hnext

/-- The consumer takes an entry whose bit equals its own. -/
theorem take (h : InStep n bit mem idx cycle pos own w) (hpos : pos < n)
    (hbit : bit (mem pos) = own) :
    ∃ w', w = pos :: w' ∧ InStep n bit mem idx cycle (pos + 1) own w' := by
  have hbits := h.bits pos hpos
  rw [hbit] at hbits
  obtain ⟨hidx, hall, hbetween⟩ := h
  cases hbetween with
  | same hown hle =>
    have hlt : pos < idx := by
      by_contra hno
      simp [hno, hown] at hbits
    refine ⟨List.range' (pos + 1) (idx - (pos + 1)), ?_, hidx, hall, Between.same hown hlt⟩
    have hlen : idx - pos = idx - (pos + 1) + 1 := by omega
    rw [hlen, List.range'_succ]
  | behind hown hlt hle hlink =>
    refine ⟨List.range' (pos + 1) (n - (pos + 1)) ++ List.range' 0 idx, ?_, hidx, hall,
      Between.behind hown (by omega) hpos hlink⟩
    have hlen : n - pos = n - (pos + 1) + 1 := by omega
    rw [hlen, List.range'_succ, List.cons_append]
  | ahead hown hpos0 hidxn =>
    have hlt : pos < idx := by omega
    simp [hlt, hown] at hbits

/-- The consumer follows the link. This is safe at any time, also before the producer has
rewritten it. -/
theorem follow (h : InStep n bit mem idx cycle n own w) (hn : 0 < n) :
    InStep n bit mem idx cycle 0 (!own) w := by
  obtain ⟨hidx, hall, hbetween⟩ := h
  refine ⟨hidx, hall, ?_⟩
  cases hbetween with
  | same hown hle =>
    have hidxn : idx = n := by omega
    rw [hidxn, Nat.sub_self]
    exact Between.ahead (by simp [hown]) rfl rfl
  | behind hown hlt hle hlink =>
    have hnext : Between n idx cycle 0 (!own) (bit (mem n)) (List.range' 0 (idx - 0)) :=
      Between.same (by simp [hown]) (Nat.zero_le idx)
    simpa using hnext
  | ahead hown hpos hidxn => omega

/-- The consumer never waits while an entry is handed over. -/
theorem ready (h : InStep n bit mem idx cycle pos own w) (hw : w ≠ []) :
    bit (mem pos) = own := by
  obtain ⟨hidx, hall, hbetween⟩ := h
  cases hbetween with
  | same hown hle =>
    have hlt : pos < idx := by
      by_contra hno
      have hzero : idx - pos = 0 := by omega
      simp [hzero] at hw
    rw [hall pos (by omega), if_pos hlt, hown]
  | behind hown hlt hle hlink =>
    by_cases hpos : pos = n
    · rw [hpos, hlink, hown]
    · rw [hall pos (by omega), if_neg (by omega), hown]
  | ahead _ _ _ => exact absurd rfl hw

end InStep

end XinuRpi4.Foundation
