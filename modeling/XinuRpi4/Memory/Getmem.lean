import XinuRpi4.Memory.FreeList

/-!
# What `getmem` does to the free list

The search loop passes the blocks that are too small without writing, and takes
the front of the first block that fits. Each result also bounds the headers the
call touches.
-/

namespace XinuRpi4.Memory

open Foundation MemoryProgram

/-- What is left of a free block after `m` bytes are taken from its front. -/
def cut (m : ℕ) (b : MemBlk) : List MemBlk :=
  if b.mlength = m then [] else [⟨b.addr + m, b.mlength - m⟩]

theorem Coalesced.cut {g : HeapBounds} {pre post : List MemBlk} {b : MemBlk} {m : ℕ}
    (h : Coalesced g (pre ++ b :: post)) (hfit : m ≤ b.mlength) :
    Coalesced g (pre ++ cut m b ++ post) := by
  obtain ⟨hrest, hpre, hpost⟩ := h.pairwise_middle
  have hb := h.inside b (by simp)
  unfold Memory.cut
  split_ifs with hm
  · simpa using hrest
  · rw [List.append_assoc, List.singleton_append]
    apply hrest.insert_middle
    · simp only
      omega
    · simp only [MemBlk.stop] at hb ⊢
      omega
    · intro x hx
      have := hpre x hx
      simp only
      omega
    · intro y hy
      have := hpost y hy
      simp only [MemBlk.stop] at this ⊢
      omega

variable {c : Loc → ℕ} {m : ℕ}

/-- The search loop passes blocks that are too small without writing. -/
theorem getmemLoop_skip (pre : List MemBlk) (fuel : ℕ) (prev : Header) (curr q : ℕ)
    (hseg : Segment (nextOf c) (ptr curr) (pre.map MemBlk.header) (ptr q))
    (hlen : ∀ b ∈ pre, c (b.header, .mlength) = b.mlength) (hsmall : ∀ b ∈ pre, b.mlength < m) :
    (getmemLoop m (fuel + pre.length) prev curr).run headerCells c =
        (getmemLoop m fuel ((pre.map MemBlk.header).getLastD prev) q).run headerCells c ∧
      ∃ t, (∀ a ∈ t, InFootprint (pre.map MemBlk.header) a) ∧
        (getmemLoop m (fuel + pre.length) prev curr).trace headerCells c =
          t ++ (getmemLoop m fuel ((pre.map MemBlk.header).getLastD prev) q).trace headerCells c := by
  induction pre generalizing prev curr with
  | nil =>
    have hq : curr = q := ptr_injective hseg
    subst hq
    exact ⟨rfl, [], by simp, rfl⟩
  | cons b pre ih =>
    obtain ⟨hcurr, hseg⟩ := hseg
    obtain ⟨hne, hb⟩ := ptr_eq_some.mp hcurr
    have hblen : c (.blk curr, .mlength) = b.mlength := hb ▸ hlen b (by simp)
    have hbm : b.mlength < m := hsmall b (by simp)
    rw [hb, nextOf] at hseg
    obtain ⟨hrun, t, ht, htrace⟩ := ih (.blk curr) (c (.blk curr, .mnext)) hseg
      (fun x hx => hlen x (by simp [hx])) (fun x hx => hsmall x (by simp [hx]))
    have hlast : ((b :: pre).map MemBlk.header).getLastD prev =
        (pre.map MemBlk.header).getLastD (.blk curr) := by
      rw [← hb, List.map_cons, List.getLastD_cons]
    rw [hlast, List.length_cons, ← Nat.add_assoc]
    constructor
    · simp only [getmemLoop, mlength, mnext, run_fetch_bind, headerCells_get, if_neg hne, hblen,
        if_neg hbm.ne, if_neg hbm.le.not_gt]
      exact hrun
    · refine ⟨.read (b.header, .mlength) :: .read (b.header, .mlength) ::
        .read (b.header, .mnext) :: t, ?_, ?_⟩
      · have ht' : ∀ a ∈ t, InFootprint ((b :: pre).map MemBlk.header) a :=
          fun a ha => (ht a ha).mono (List.subset_cons_self _ _)
        simpa using ht'
      · simp only [getmemLoop, mlength, mnext, trace_fetch_bind, headerCells_get, if_neg hne,
          hblen, if_neg hbm.ne, if_neg hbm.le.not_gt, htrace, hb, List.cons_append]

/-- No block is large enough: `getmem` answers null and writes nothing. -/
theorem getmem_run_of_small {l : List MemBlk} {n : ℕ} (hrep : Represents c l) (hn : n ≠ 0)
    (hsmall : ∀ b ∈ l, b.mlength < roundmb n) (hfuel : l.length < ulongSize) :
    (getmem n).run headerCells c = (some 0, c) ∧
      ∀ a ∈ (getmem n).trace headerCells c, InFootprint (l.map MemBlk.header) a := by
  obtain ⟨fuel, hf⟩ : ∃ fuel, ulongSize = fuel + 1 + l.length :=
    ⟨ulongSize - l.length - 1, by omega⟩
  have hseg : Segment (nextOf c) (ptr (c (.memlistHead, .mnext))) (l.map MemBlk.header) (ptr 0) :=
    hrep.chain.2
  obtain ⟨hrun, t, ht, htrace⟩ :=
    getmemLoop_skip l (fuel + 1) .memlistHead _ 0 hseg hrep.lengths hsmall
  constructor
  · simp only [getmem, if_neg hn, mnext, run_fetch_bind, headerCells_get, hf, hrun]
    simp [getmemLoop]
  · simp only [getmem, if_neg hn, mnext, trace_fetch_bind, headerCells_get, hf, htrace]
    simpa [getmemLoop] using ht

/-- The exact-fit branch of the search loop. -/
theorem getmemLoop_exact (prev : Header) (fuel : ℕ) {a : ℕ} (ha : a ≠ 0)
    (hlen : c (.blk a, .mlength) = m) :
    (getmemLoop m (fuel + 1) prev a).run headerCells c =
        (some a, Function.update (Function.update c (prev, .mnext) (c (.blk a, .mnext)))
          (.memlistHead, .mlength) (usub (c (.memlistHead, .mlength)) m)) ∧
      (getmemLoop m (fuel + 1) prev a).trace headerCells c =
        [.read (.blk a, .mlength), .read (.blk a, .mnext),
          .write (prev, .mnext) (c (.blk a, .mnext)), .read (.memlistHead, .mlength),
          .write (.memlistHead, .mlength) (usub (c (.memlistHead, .mlength)) m)] := by
  simp [getmemLoop, mlength, mnext, setMnext, setMlength, ha, hlen]

/-- The splitting branch of the search loop. -/
theorem getmemLoop_split (prev : Header) (fuel : ℕ) {a : ℕ} (ha : a ≠ 0)
    (hlen : m < c (.blk a, .mlength)) :
    (getmemLoop m (fuel + 1) prev a).run headerCells c =
        (some a, Function.update (Function.update (Function.update (Function.update c
          (.blk (uadd a m), .mnext) (c (.blk a, .mnext)))
          (.blk (uadd a m), .mlength) (usub (c (.blk a, .mlength)) m))
          (prev, .mnext) (uadd a m))
          (.memlistHead, .mlength) (usub (c (.memlistHead, .mlength)) m)) ∧
      (getmemLoop m (fuel + 1) prev a).trace headerCells c =
        [.read (.blk a, .mlength), .read (.blk a, .mlength), .read (.blk a, .mnext),
          .write (.blk (uadd a m), .mnext) (c (.blk a, .mnext)), .read (.blk a, .mlength),
          .write (.blk (uadd a m), .mlength) (usub (c (.blk a, .mlength)) m),
          .write (prev, .mnext) (uadd a m), .read (.memlistHead, .mlength),
          .write (.memlistHead, .mlength) (usub (c (.memlistHead, .mlength)) m)] := by
  simp [getmemLoop, mlength, mnext, setMnext, setMlength, ha, hlen, hlen.ne']

/-- What the search loop does once it stands at a block that fits. -/
theorem getmemLoop_fit {g : HeapBounds} {pre post : List MemBlk} {b : MemBlk} (fuel : ℕ)
    (hrep : Represents c (pre ++ b :: post)) (hl : Coalesced g (pre ++ b :: post))
    (hhi : g.heapHi < ulongSize) (hfit : m ≤ b.mlength) :
    ∃ c', (getmemLoop m (fuel + 1) (lastHeader pre) b.addr).run headerCells c =
        (some b.addr, c') ∧
      Represents c' (pre ++ cut m b ++ post) ∧
      c' (.memlistHead, .mlength) = usub (c (.memlistHead, .mlength)) m ∧
      Untouched c c' (pre ++ cut m b ++ post) ∧
      ∀ a ∈ (getmemLoop m (fuel + 1) (lastHeader pre) b.addr).trace headerCells c,
        InFootprint ((pre ++ b :: (cut m b ++ post)).map MemBlk.header) a := by
  have hb0 : b.addr ≠ 0 := hrep.addr_ne_zero
  have hblen : c (.blk b.addr, .mlength) = b.mlength := hrep.lengths b (by simp)
  have hnext : c (.blk b.addr, .mnext) < ulongSize := by
    have hsplit : Represents c ((pre ++ [b]) ++ post) := by simpa using hrep
    have h := hsplit.mnext_lt fun y hy => hl.addr_lt hhi y (by simp [hy])
    simpa [MemBlk.header] using h
  have hprev : lastHeader pre = .memlistHead ∨ lastHeader pre ∈ pre.map MemBlk.header := by
    simpa using lastHeader_mem pre
  have hprev' : lastHeader pre = .memlistHead ∨
      lastHeader pre ∈ (pre ++ b :: (cut m b ++ post)).map MemBlk.header := by
    rw [List.map_append, List.mem_append]
    tauto
  have hb' : b.header ∈ (pre ++ b :: (cut m b ++ post)).map MemBlk.header :=
    List.mem_map_of_mem (by simp)
  have hlast : lastHeader pre ∈
      Header.memlistHead :: (pre ++ cut m b ++ post).map MemBlk.header := by
    rw [List.append_assoc, List.map_append, List.mem_cons, List.mem_append]
    tauto
  by_cases heq : b.mlength = m
  · obtain ⟨hrun, htrace⟩ := getmemLoop_exact (lastHeader pre) fuel hb0
      (hblen.trans heq)
    refine ⟨_, hrun, ?_, by simp, ?_, ?_⟩
    · rw [cut, if_pos heq, List.append_nil]
      exact (hrep.bypass hl.nodup_headers).update_head_mlength _
    · exact ((Untouched.refl c _).update hlast .mnext _).update List.mem_cons_self .mlength _
    · rw [htrace]
      rw [MemBlk.header] at hb'
      simp [-List.map_append, -List.map_cons, -List.mem_map, hb', hprev', hnext, usub_lt]
  · have hlt : m < b.mlength := lt_of_le_of_ne hfit (Ne.symm heq)
    have hin := hl.inside b (by simp)
    simp only [MemBlk.stop] at hin
    have hadd : uadd b.addr m = b.addr + m := uadd_eq (by omega)
    have hsub : usub b.mlength m = b.mlength - m := usub_eq hfit (by omega)
    have hcut := hl.cut hfit
    obtain ⟨hrun, htrace⟩ := getmemLoop_split (lastHeader pre) fuel hb0
      (hblen.symm ▸ hlt)
    rw [hadd, hblen, hsub] at hrun htrace
    simp only [cut, if_neg heq, List.append_assoc, List.singleton_append] at hcut hprev' hb' hlast ⊢
    refine ⟨_, hrun, ?_, by simp, ?_, ?_⟩
    · apply Represents.update_head_mlength
      obtain ⟨hpre, hpost⟩ := hrep.split
      apply Represents.splice hpre hpost.2 hcut.nodup_headers (by omega)
      intro x hx
      apply hrep.lengths x
      rcases List.mem_append.mp hx with hx | hx <;> simp [hx]
    · have hnew : Header.blk (b.addr + m) ∈ Header.memlistHead ::
          (pre ++ ⟨b.addr + m, b.mlength - m⟩ :: post).map MemBlk.header := by
        simp [MemBlk.header]
      exact ((((Untouched.refl c _).update hnew .mnext _).update hnew .mlength _).update hlast
        .mnext _).update List.mem_cons_self .mlength _
    · rw [htrace]
      have hleft : Header.blk (b.addr + m) ∈
          (pre ++ b :: ⟨b.addr + m, b.mlength - m⟩ :: post).map MemBlk.header :=
        List.mem_map_of_mem (f := MemBlk.header) (a := ⟨b.addr + m, b.mlength - m⟩) (by simp)
      have hlt' : b.addr + m < ulongSize := by omega
      have hlt'' : b.mlength - m < ulongSize := by omega
      rw [MemBlk.header] at hb'
      simp [-List.map_append, -List.map_cons, -List.mem_map, hb', hleft, hprev', hnext, hlt',
        hlt'', usub_lt]

/-- First fit: the first block that is large enough loses its front. -/
theorem getmem_run_of_fit {g : HeapBounds} {pre post : List MemBlk} {b : MemBlk} {n : ℕ}
    (hrep : Represents c (pre ++ b :: post)) (hl : Coalesced g (pre ++ b :: post))
    (hhi : g.heapHi < ulongSize) (hn : n ≠ 0)
    (hsmall : ∀ x ∈ pre, x.mlength < roundmb n) (hfit : roundmb n ≤ b.mlength)
    (hfuel : pre.length < ulongSize) :
    ∃ c', (getmem n).run headerCells c = (some b.addr, c') ∧
      Represents c' (pre ++ cut (roundmb n) b ++ post) ∧
      c' (.memlistHead, .mlength) = usub (c (.memlistHead, .mlength)) (roundmb n) ∧
      Untouched c c' (pre ++ cut (roundmb n) b ++ post) ∧
      ∀ a ∈ (getmem n).trace headerCells c,
        InFootprint ((pre ++ b :: (cut (roundmb n) b ++ post)).map MemBlk.header) a := by
  obtain ⟨fuel, hf⟩ : ∃ fuel, ulongSize = fuel + 1 + pre.length :=
    ⟨ulongSize - pre.length - 1, by omega⟩
  obtain ⟨hpre, hpost⟩ := hrep.split
  have hprev : nextOf c (lastHeader pre) = ptr b.addr :=
    hpost.1.trans (ptr_eq_some.mpr ⟨hrep.addr_ne_zero, rfl⟩).symm
  have hseg : Segment (nextOf c) (ptr (c (.memlistHead, .mnext))) (pre.map MemBlk.header)
      (ptr b.addr) := hprev ▸ hpre.2
  obtain ⟨hskip, t, ht, htrace⟩ := getmemLoop_skip pre (fuel + 1) .memlistHead _ b.addr hseg
    (fun x hx => hrep.lengths x (by simp [hx])) hsmall
  obtain ⟨c', hrun, hrep', hfree, huntouched, hfoot⟩ :=
    getmemLoop_fit fuel hrep hl hhi hfit
  have hgetmem : (getmem n).run headerCells c = (some b.addr, c') := by
    simp only [getmem, if_neg hn, mnext, run_fetch_bind, headerCells_get, hf, hskip]
    exact hrun
  refine ⟨c', hgetmem, hrep', hfree, huntouched, ?_⟩
  simp only [getmem, if_neg hn, mnext, trace_fetch_bind, headerCells_get, hf, htrace]
  intro a ha
  rcases List.mem_cons.mp ha with rfl | ha
  · simp
  · rcases List.mem_append.mp ha with ha | ha
    · apply (ht a ha).mono
      rw [List.map_append]
      exact List.subset_append_left _ _
    · exact hfoot a ha

end XinuRpi4.Memory
