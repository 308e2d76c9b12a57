import XinuRpi4.Foundation.Runs
import XinuRpi4.Memory.Getmem
import XinuRpi4.Memory.Freemem

/-!
# The heap invariant

The blocks that clients hold stand beside the state: `getmem` adds the
block it hands out and `freemem` removes the one it takes back. The invariant
relates them to the free list behind the allocator's pointers. Both calls keep
it when the header words of every address are cells of their own.
-/

namespace XinuRpi4.Memory

open Foundation MemoryProgram

/-- A block handed out by `getmem(nbytes)`. -/
structure LiveBlk where
  addr : ℕ
  nbytes : ℕ
  deriving DecidableEq

/-- The bytes the block occupies: the request is rounded up. -/
def LiveBlk.extent (b : LiveBlk) : MemBlk := ⟨b.addr, roundmb b.nbytes⟩

/-- The extents of the live blocks. -/
def extents (live : List LiveBlk) : List MemBlk := live.map LiveBlk.extent

@[simp] theorem extents_nil : extents [] = [] := rfl

@[simp] theorem extents_cons (b : LiveBlk) (live : List LiveBlk) :
    extents (b :: live) = b.extent :: extents live := rfl

/-- The header cells `c` hold the free list `l`, and `live` is what clients own. -/
structure HeapInvariant (g : HeapBounds) (c : Loc → ℕ) (live : List LiveBlk) (l : List MemBlk) :
    Prop where
  heapLo_pos : 0 < g.heapLo
  heapHi_lt : g.heapHi < ulongSize
  total_eq : g.heapLo + g.heapTotal = g.heapHi
  represents : Represents c l
  coalesced : Coalesced g l
  free_bytes : c (.memlistHead, .mlength) = bytes l
  live_nonempty : ∀ x ∈ extents live, 0 < x.mlength
  live_inside : ∀ x ∈ extents live, g.heapLo ≤ x.addr ∧ x.stop ≤ g.heapHi
  live_disjoint : (extents live).Pairwise MemBlk.Disjoint
  free_live_disjoint : ∀ b ∈ l, ∀ x ∈ extents live, b.Disjoint x
  accounted : bytes l + bytes (extents live) = g.heapTotal

theorem roundmb_bounds {n : ℕ} (hn : n + 7 < ulongSize) :
    n ≤ roundmb n ∧ roundmb n < n + 8 ∧ 8 ∣ roundmb n := by
  unfold roundmb
  rw [uadd_eq hn]
  omega

theorem roundmb_zero : roundmb 0 = 0 := by decide

theorem length_le_bytes {l : List MemBlk} (h : ∀ b ∈ l, 0 < b.mlength) : l.length ≤ bytes l := by
  induction l with
  | nil => simp
  | cons b l ih =>
    have hb := h b (by simp)
    have hl := ih fun x hx => h x (by simp [hx])
    simp only [List.length_cons, bytes_cons]
    omega

/-- The first block that is large enough, if there is one. -/
theorem exists_first_fit (l : List MemBlk) (m : ℕ) :
    (∀ b ∈ l, b.mlength < m) ∨
      ∃ pre b post, l = pre ++ b :: post ∧ (∀ x ∈ pre, x.mlength < m) ∧ m ≤ b.mlength := by
  induction l with
  | nil => exact Or.inl (by simp)
  | cons b l ih =>
    by_cases hb : m ≤ b.mlength
    · exact Or.inr ⟨[], b, l, rfl, by simp, hb⟩
    · rcases ih with h | ⟨pre, d, post, rfl, hpre, hd⟩
      · refine Or.inl fun x hx => ?_
        rcases List.mem_cons.mp hx with rfl | hx
        · omega
        · exact h x hx
      · refine Or.inr ⟨b :: pre, d, post, rfl, fun x hx => ?_, hd⟩
        rcases List.mem_cons.mp hx with rfl | hx
        · omega
        · exact hpre x hx

namespace MemBlk

/-- Two non-empty blocks are disjoint when they share no byte. -/
theorem disjoint_of_no_common {a b : MemBlk} (ha : 0 < a.mlength) (hb : 0 < b.mlength)
    (h : ∀ x, a.addr ≤ x → x < a.stop → ¬ (b.addr ≤ x ∧ x < b.stop)) : a.Disjoint b := by
  have h₁ := h a.addr le_rfl (by simp only [stop]; omega)
  have h₂ := h b.addr
  simp only [Disjoint, stop] at *
  omega

/-- A part of a block avoids what the block avoids. -/
theorem Disjoint.of_part {a a' b : MemBlk} (h : a.Disjoint b) (hlo : a.addr ≤ a'.addr)
    (hhi : a'.stop ≤ a.stop) : a'.Disjoint b := by
  rcases h with h | h
  · exact Or.inl (hhi.trans h)
  · exact Or.inr (h.trans hlo)

end MemBlk

namespace HeapInvariant

variable {g : HeapBounds} {c : Loc → ℕ} {live : List LiveBlk} {l : List MemBlk}

theorem length_lt (h : HeapInvariant g c live l) : l.length < ulongSize := by
  have h₁ := length_le_bytes h.coalesced.nonempty
  have h₂ := h.accounted
  have h₃ := h.total_eq
  have h₄ := h.heapHi_lt
  omega

theorem nbytes_ne_zero (h : HeapInvariant g c live l) {b : LiveBlk} (hb : b ∈ live) :
    b.nbytes ≠ 0 := by
  intro h0
  have hpos := h.live_nonempty b.extent (List.mem_map_of_mem hb)
  simp [LiveBlk.extent, h0, roundmb_zero] at hpos

theorem of_perm {live' : List LiveBlk} (h : HeapInvariant g c live l) (hp : live.Perm live') :
    HeapInvariant g c live' l := by
  have hext : (extents live).Perm (extents live') := hp.map LiveBlk.extent
  exact
    { h with
      live_nonempty := fun x hx => h.live_nonempty x (hext.mem_iff.mpr hx)
      live_inside := fun x hx => h.live_inside x (hext.mem_iff.mpr hx)
      live_disjoint := (hext.pairwise_iff MemBlk.Disjoint.symm).mp h.live_disjoint
      free_live_disjoint := fun b hb x hx => h.free_live_disjoint b hb x (hext.mem_iff.mpr hx)
      accounted := by
        have : bytes (extents live) = bytes (extents live') := (hext.map MemBlk.mlength).sum_eq
        rw [← this]
        exact h.accounted }

/-- No block is handed out twice. -/
theorem live_nodup (h : HeapInvariant g c live l) : live.Nodup := by
  have hdis := h.live_disjoint
  rw [extents, List.pairwise_map] at hdis
  apply hdis.imp_of_mem
  intro a b ha _ hab heq
  subst heq
  have hpos := h.live_nonempty a.extent (List.mem_map_of_mem ha)
  simp only [MemBlk.Disjoint, MemBlk.stop] at hab
  omega

/-- Taking the front of a free block moves its bytes from free to live. -/
theorem take {pre post : List MemBlk} {b : MemBlk} {n : ℕ} {c' : Loc → ℕ}
    (h : HeapInvariant g c live (pre ++ b :: post)) (hpos : 0 < roundmb n)
    (hfit : roundmb n ≤ b.mlength) (hrep : Represents c' (pre ++ cut (roundmb n) b ++ post))
    (hfree : c' (.memlistHead, .mlength) =
      usub (c (.memlistHead, .mlength)) (roundmb n)) :
    HeapInvariant g c' (⟨b.addr, n⟩ :: live) (pre ++ cut (roundmb n) b ++ post) := by
  obtain ⟨-, hpre, hpost⟩ := h.coalesced.pairwise_middle
  have hb := h.coalesced.inside b (by simp)
  have hlive := h.free_live_disjoint b (by simp)
  have hcutBytes : bytes (cut (roundmb n) b) + roundmb n = b.mlength := by
    unfold cut
    split_ifs with heq
    · simpa using heq.symm
    · simp only [bytes_cons, bytes_nil]
      omega
  have htotal : bytes (pre ++ b :: post) = bytes pre + b.mlength + bytes post := by
    simp only [bytes_append, bytes_cons]
    omega
  have hfreeList : ∀ d ∈ pre ++ cut (roundmb n) b ++ post,
      d ∈ pre ∨ d ∈ post ∨ b.addr + roundmb n = d.addr ∧ d.stop = b.stop := by
    intro d hd
    simp only [List.mem_append] at hd
    rcases hd with (hd | hd) | hd
    · exact Or.inl hd
    · unfold cut at hd
      split_ifs at hd with heq
      · simp at hd
      · rw [List.mem_singleton.mp hd]
        have hstop : b.addr + roundmb n + (b.mlength - roundmb n) = b.addr + b.mlength := by omega
        exact Or.inr (Or.inr ⟨rfl, hstop⟩)
    · exact Or.inr (Or.inl hd)
  have hpart : ∀ x ∈ extents live, (⟨b.addr, roundmb n⟩ : MemBlk).Disjoint x :=
    fun x hx => (hlive x hx).of_part le_rfl (by simp only [MemBlk.stop]; omega)
  have hacc := h.accounted
  have hlt : bytes (pre ++ b :: post) < ulongSize := by
    have := h.total_eq
    have := h.heapHi_lt
    omega
  constructor
  · exact h.heapLo_pos
  · exact h.heapHi_lt
  · exact h.total_eq
  · exact hrep
  · exact h.coalesced.cut hfit
  · rw [hfree, h.free_bytes, usub_eq (by omega) hlt, htotal, bytes_append, bytes_append]
    omega
  · intro x hx
    rcases List.mem_cons.mp hx with rfl | hx
    · exact hpos
    · exact h.live_nonempty x hx
  · intro x hx
    rcases List.mem_cons.mp hx with rfl | hx
    · simp only [LiveBlk.extent, MemBlk.stop] at hb ⊢
      omega
    · exact h.live_inside x hx
  · exact List.pairwise_cons.mpr ⟨hpart, h.live_disjoint⟩
  · intro d hd x hx
    rcases List.mem_cons.mp hx with rfl | hx
    · simp only [MemBlk.Disjoint, LiveBlk.extent, MemBlk.stop] at *
      rcases hfreeList d hd with hd | hd | hd
      · have := hpre d hd
        omega
      · have := hpost d hd
        omega
      · omega
    · rcases hfreeList d hd with hd | hd | hd
      · exact h.free_live_disjoint d (by simp [hd]) x hx
      · exact h.free_live_disjoint d (by simp [hd]) x hx
      · exact (hlive x hx).of_part (by omega) hd.2.le
  · simp only [extents_cons, bytes_append, bytes_cons, LiveBlk.extent] at *
    omega

/-- Giving a live block back moves its bytes from live to free. -/
theorem give {b : LiveBlk} {l' : List MemBlk} {c' : Loc → ℕ} (h : HeapInvariant g c live l)
    (hb : b ∈ live) (hrep : Represents c' l') (hrel : Released g b.extent l l')
    (hfree : c' (.memlistHead, .mlength) =
      uadd (c (.memlistHead, .mlength)) b.extent.mlength) :
    HeapInvariant g c' (live.erase b) l' := by
  have hperm : (extents live).Perm (b.extent :: extents (live.erase b)) :=
    (List.perm_cons_erase hb).map LiveBlk.extent
  have hsub : ∀ x ∈ extents (live.erase b), x ∈ extents live :=
    fun x hx => hperm.mem_iff.mpr (by simp [hx])
  have hpair : (b.extent :: extents (live.erase b)).Pairwise MemBlk.Disjoint :=
    (hperm.pairwise_iff MemBlk.Disjoint.symm).mp h.live_disjoint
  have hbytes : bytes (extents live) = b.extent.mlength + bytes (extents (live.erase b)) := by
    rw [← bytes_cons]
    exact (hperm.map MemBlk.mlength).sum_eq
  have hacc := h.accounted
  have htotal := h.total_eq
  have hhi := h.heapHi_lt
  constructor
  · exact h.heapLo_pos
  · exact h.heapHi_lt
  · exact h.total_eq
  · exact hrep
  · exact hrel.coalesced
  · rw [hfree, h.free_bytes, uadd_eq (by omega), hrel.bytes_eq]
  · exact fun x hx => h.live_nonempty x (hsub x hx)
  · exact fun x hx => h.live_inside x (hsub x hx)
  · exact (List.pairwise_cons.mp hpair).2
  · intro d hd x hx
    -- a byte common to `d` and `x` would be a byte of an old free block or of `b`
    apply MemBlk.disjoint_of_no_common (hrel.coalesced.nonempty d hd)
      (h.live_nonempty x (hsub x hx))
    intro y hy₁ hy₂ hyx
    rcases (hrel.covers_iff y).mp ⟨d, hd, hy₁, hy₂⟩ with ⟨e, he, hye⟩ | hyb
    · have := h.free_live_disjoint e he x (hsub x hx)
      simp only [MemBlk.Disjoint] at this
      omega
    · have := (List.pairwise_cons.mp hpair).1 x hx
      simp only [MemBlk.Disjoint] at this
      omega
  · rw [hrel.bytes_eq]
    omega

/-- `getmem` under the invariant: null and no change, or a fresh live block. -/
theorem getmem_spec (h : HeapInvariant g c live l) {n : ℕ} (hn : n + 7 < ulongSize) :
    (getmem n).run headerCells c = (some 0, c) ∨
      ∃ p c' l', p ≠ 0 ∧ (getmem n).run headerCells c = (some p, c') ∧
        HeapInvariant g c' (⟨p, n⟩ :: live) l' := by
  by_cases h0 : n = 0
  · left
    simp [getmem, h0]
  · have hround := roundmb_bounds hn
    rcases exists_first_fit l (roundmb n) with hsmall | ⟨pre, b, post, rfl, hsmall, hfit⟩
    · exact Or.inl (getmem_run_of_small h.represents h0 hsmall h.length_lt).1
    · have hlen := h.length_lt
      obtain ⟨c', hrun, hrep, hfree, -⟩ := getmem_run_of_fit h.represents h.coalesced h.heapHi_lt
        h0 hsmall hfit (by simp at hlen; omega)
      exact Or.inr ⟨b.addr, c', _, h.represents.addr_ne_zero, hrun,
        h.take (by omega) hfit hrep hfree⟩

/-- `freemem` of a live block succeeds and keeps the invariant. -/
theorem freemem_spec (h : HeapInvariant g c live l) {b : LiveBlk} (hb : b ∈ live) :
    ∃ c' l', (freemem g b.addr b.nbytes).run headerCells c = (some 0, c') ∧
      HeapInvariant g c' (live.erase b) l' := by
  have hmem : b.extent ∈ extents live := List.mem_map_of_mem hb
  obtain ⟨c', l', hrun, hrep, hrel, hfree, -⟩ := freemem_run (f := b.extent) h.represents
    h.coalesced h.heapHi_lt h.heapLo_pos (h.nbytes_ne_zero hb) rfl (h.live_nonempty _ hmem)
    (h.live_inside _ hmem) (fun d hd => (h.free_live_disjoint d hd _ hmem).symm) h.length_lt
  exact ⟨c', l', hrun, h.give hb hrep hrel hfree⟩

end HeapInvariant

/-- `mem_init` establishes the invariant with one free block and nothing live. -/
theorem memInit_invariant {lo hi : ℕ} (c : Loc → ℕ) (hhi : hi < ulongSize)
    (hlo : 0 < roundmb lo) (hlt : roundmb lo < truncmb hi) :
    HeapInvariant (memInitBounds lo hi) ((memInit (memInitBounds lo hi)).run headerCells c).2 []
      [⟨roundmb lo, truncmb hi - roundmb lo⟩] := by
  have htrunc : truncmb hi ≤ hi := Nat.div_mul_le_self hi 8
  have htotal : (memInitBounds lo hi).heapTotal = truncmb hi - roundmb lo :=
    usub_eq hlt.le (by omega)
  constructor
  · exact hlo
  · simp only [memInitBounds]
    omega
  · rw [htotal]
    simp only [memInitBounds]
    omega
  · constructor
    · have hne : roundmb lo ≠ 0 := by omega
      simp [memInit, setMnext, setMlength, memInitBounds, MemBlk.header, nextOf_update_mnext,
        ptr, hne]
    · simp [memInit, setMnext, setMlength, memInitBounds, MemBlk.header, ← htotal]
  · constructor
    · simp
    · simp
      omega
    · simp [memInitBounds, MemBlk.stop]
      omega
  · rw [bytes_cons, bytes_nil]
    simp [memInit, setMnext, setMlength, htotal]
  · simp
  · simp
  · simp
  · simp
  · simp [htotal]

end XinuRpi4.Memory
