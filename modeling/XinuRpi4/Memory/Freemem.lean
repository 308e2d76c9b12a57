import XinuRpi4.Memory.FreeList

/-!
# What `freemem` does to the free list

A released block that overlaps no free block is put between its neighbours. It
grows the predecessor when it touches it, absorbs the successor when it touches
that one, and is a node of its own otherwise; the four combinations are one
lemma for the left side and one for the right side.
-/

namespace XinuRpi4.Memory

open Foundation MemoryProgram

/-- `b` in front of `post`, with the first block of `post` absorbed when adjacent. -/
def joinRight (b : MemBlk) : List MemBlk → List MemBlk
  | [] => [b]
  | d :: post =>
    if b.stop = d.addr then ⟨b.addr, b.mlength + d.mlength⟩ :: post else b :: d :: post

theorem covers_joinRight (b : MemBlk) (post : List MemBlk) (x : ℕ) :
    Covers (joinRight b post) x ↔ Covers (b :: post) x := by
  cases post with
  | nil => rfl
  | cons d post =>
    rw [joinRight]
    split_ifs with h
    · simp only [covers_cons, ← or_assoc]
      apply or_congr_left
      simp only [MemBlk.stop] at h ⊢
      omega
    · rfl

theorem bytes_joinRight (b : MemBlk) (post : List MemBlk) :
    bytes (joinRight b post) = b.mlength + bytes post := by
  cases post with
  | nil => simp [joinRight]
  | cons d post =>
    rw [joinRight]
    split_ifs <;> simp [add_assoc]

/-- Lengths only grow by addition. -/
theorem forall_mlength_joinRight {P : ℕ → Prop} (hP : ∀ a b, P a → P b → P (a + b)) {b : MemBlk}
    {post : List MemBlk} (h : ∀ x ∈ b :: post, P x.mlength) :
    ∀ x ∈ joinRight b post, P x.mlength := by
  cases post with
  | nil => exact h
  | cons d post =>
    rw [joinRight]
    split_ifs with heq
    · intro x hx
      rcases List.mem_cons.mp hx with rfl | hx
      · exact hP _ _ (h b (by simp)) (h d (by simp))
      · exact h x (by simp [hx])
    · exact h

theorem headers_joinRight (b : MemBlk) (post : List MemBlk) :
    (joinRight b post).map MemBlk.header ⊆ (b :: post).map MemBlk.header := by
  cases post with
  | nil => exact List.Subset.refl _
  | cons d post =>
    rw [joinRight]
    split_ifs with h
    · exact List.cons_subset_cons _ (List.subset_cons_self _ _)
    · exact List.Subset.refl _

theorem header_mem_joinRight (b : MemBlk) (post : List MemBlk) :
    b.header ∈ (joinRight b post).map MemBlk.header := by
  cases post with
  | nil => exact List.mem_cons_self
  | cons d post =>
    rw [joinRight]
    split_ifs with h
    · exact List.mem_cons_self
    · exact List.mem_cons_self

theorem Coalesced.joinRight {g : HeapBounds} {pre post : List MemBlk} {b : MemBlk}
    (h : Coalesced g (pre ++ post)) (hpos : 0 < b.mlength)
    (hin : g.heapLo ≤ b.addr ∧ b.stop ≤ g.heapHi) (hpre : ∀ x ∈ pre, x.stop < b.addr)
    (hpost : ∀ y ∈ post, b.stop ≤ y.addr) : Coalesced g (pre ++ joinRight b post) := by
  cases post with
  | nil => exact h.insert_middle hpos hin hpre (by simp)
  | cons d post =>
    obtain ⟨hrest, -, hd⟩ := h.pairwise_middle
    have hdin := h.inside d (by simp)
    have hbd := hpost d (by simp)
    rw [Memory.joinRight]
    split_ifs with heq
    · apply hrest.insert_middle
      · simp only
        omega
      · simp only [MemBlk.stop] at *
        omega
      · exact hpre
      · intro y hy
        have := hd y hy
        simp only [MemBlk.stop] at *
        omega
    · apply h.insert_middle hpos hin hpre
      intro y hy
      rcases List.mem_cons.mp hy with rfl | hy
      · omega
      · have := hd y hy
        simp only [MemBlk.stop] at *
        omega

section Walk

variable {St : Type} (store : Store St Loc ℕ) (st : St)

/-- The walk passes the blocks below `start` without writing. -/
theorem freememWalk_skip {start : ℕ} (pre : List MemBlk) (fuel : ℕ) (prev : Header) (curr q : ℕ)
    (hseg : Segment (nextOf (store.get st)) (ptr curr) (pre.map MemBlk.header) (ptr q))
    (hlow : ∀ b ∈ pre, b.addr < start) :
    (freememWalk start (fuel + pre.length) prev curr).run store st =
        (freememWalk start fuel ((pre.map MemBlk.header).getLastD prev) q).run store st ∧
      ∃ t, (∀ a ∈ t, InFootprint (pre.map MemBlk.header) a) ∧
        (freememWalk start (fuel + pre.length) prev curr).trace store st =
          t ++ (freememWalk start fuel ((pre.map MemBlk.header).getLastD prev) q).trace
            store st := by
  induction pre generalizing prev curr with
  | nil =>
    have hq : curr = q := ptr_injective hseg
    subst hq
    exact ⟨rfl, [], by simp, rfl⟩
  | cons b pre ih =>
    obtain ⟨hcurr, hseg⟩ := hseg
    obtain ⟨hne, hb⟩ := ptr_eq_some.mp hcurr
    have hba : b.addr = curr := by simpa [MemBlk.header] using hb
    have hgo : curr ≠ 0 ∧ curr < start := ⟨hne, hba ▸ hlow b (by simp)⟩
    rw [hb, nextOf] at hseg
    obtain ⟨hrun, t, ht, htrace⟩ := ih (.blk curr) (store.get st (.blk curr, .mnext)) hseg
      (fun x hx => hlow x (by simp [hx]))
    have hlast : ((b :: pre).map MemBlk.header).getLastD prev =
        (pre.map MemBlk.header).getLastD (.blk curr) := by
      rw [← hb, List.map_cons, List.getLastD_cons]
    rw [hlast, List.length_cons, ← Nat.add_assoc]
    constructor
    · simp only [freememWalk, mnext, run_fetch_bind, if_pos hgo]
      exact hrun
    · refine ⟨.read (b.header, .mnext) :: t, ?_, ?_⟩
      · have ht' : ∀ a ∈ t, InFootprint ((b :: pre).map MemBlk.header) a :=
          fun a ha => (ht a ha).mono (List.subset_cons_self _ _)
        simpa using ht'
      · simp only [freememWalk, mnext, trace_fetch_bind, if_pos hgo, htrace, hb,
          List.cons_append]

/-- The walk ends at the last block below `start`. -/
theorem freememWalk_run (start : ℕ) {pre post : List MemBlk}
    (hrep : Represents (store.get st) (pre ++ post)) (hpre : ∀ b ∈ pre, b.addr < start)
    (hpost : ∀ b ∈ post, start ≤ b.addr) (hfuel : pre.length < ulongSize) :
    (freememWalk start ulongSize .memlistHead (store.get st (.memlistHead, .mnext))).run store st =
        (some (lastHeader pre, store.get st (lastHeader pre, .mnext)), st) ∧
      ∀ a ∈ (freememWalk start ulongSize .memlistHead
        (store.get st (.memlistHead, .mnext))).trace store st,
        InFootprint (pre.map MemBlk.header) a := by
  obtain ⟨fuel, hf⟩ : ∃ fuel, ulongSize = fuel + 1 + pre.length :=
    ⟨ulongSize - pre.length - 1, by omega⟩
  have hstop : ¬ (store.get st (lastHeader pre, .mnext) ≠ 0 ∧
      store.get st (lastHeader pre, .mnext) < start) := by
    rintro ⟨hne, hlt⟩
    have hnext := hrep.next_eq
    cases post with
    | nil => exact hne (by simpa [nextOf] using hnext)
    | cons d post =>
      obtain ⟨-, hd⟩ := ptr_eq_some.mp hnext
      have := hpost d (by simp)
      simp only [MemBlk.header, Header.blk.injEq] at hd
      omega
  obtain ⟨hrun, t, ht, htrace⟩ :=
    freememWalk_skip store st pre (fuel + 1) .memlistHead _ _ hrep.split.1.2 hpre
  rw [hf]
  constructor
  · rw [hrun]
    simp only [freememWalk]
    rw [if_neg hstop]
    rfl
  · rw [htrace]
    simp only [freememWalk]
    rw [if_neg hstop]
    simpa using ht

end Walk

variable {c : Loc → ℕ} {m : ℕ}

/-- No successor to absorb: `freememMerge` only counts the bytes. -/
theorem freememMerge_apart (a curr : ℕ)
    (h : curr = 0 ∨ uadd a (c (.blk a, .mlength)) ≠ curr) :
    (freememMerge m a curr).run headerCells c =
        ((), Function.update c (.memlistHead, .mlength) (uadd (c (.memlistHead, .mlength)) m)) ∧
      ∀ x ∈ (freememMerge m a curr).trace headerCells c, InFootprint [.blk a] x := by
  by_cases h0 : curr = 0
  · simp [freememMerge, mlength, setMlength, h0, uadd_lt]
  · have hne := h.resolve_left h0
    simp [freememMerge, mlength, setMlength, h0, hne, uadd_lt]

/-- The successor is absorbed. -/
theorem freememMerge_absorb {a curr : ℕ} (h0 : curr ≠ 0)
    (h : uadd a (c (.blk a, .mlength)) = curr) (hnext : c (.blk curr, .mnext) < ulongSize) :
    (freememMerge m a curr).run headerCells c =
        ((), Function.update (Function.update (Function.update c
          (.blk a, .mlength) (uadd (c (.blk a, .mlength)) (c (.blk curr, .mlength))))
          (.blk a, .mnext) (c (.blk curr, .mnext)))
          (.memlistHead, .mlength) (uadd (c (.memlistHead, .mlength)) m)) ∧
      ∀ x ∈ (freememMerge m a curr).trace headerCells c,
        InFootprint [.blk a, .blk curr] x := by
  simp [freememMerge, mlength, mnext, setMlength, setMnext, h0, h, uadd_lt, hnext]

/-- The last part of `freemem`: absorb an adjacent successor, count the bytes. -/
theorem freememMerge_run {pre post : List MemBlk} {b : MemBlk}
    (hrep : Represents c (pre ++ b :: post)) (hnd : ((pre ++ b :: post).map MemBlk.header).Nodup)
    (hb : b.stop < ulongSize) (hpost : ∀ y ∈ post, y.stop < ulongSize) :
    ∃ c', (freememMerge m b.addr (c (b.header, .mnext))).run headerCells c = ((), c') ∧
      Represents c' (pre ++ joinRight b post) ∧
      c' (.memlistHead, .mlength) = uadd (c (.memlistHead, .mlength)) m ∧
      Untouched c c' (pre ++ joinRight b post) ∧
      ∀ a ∈ (freememMerge m b.addr (c (b.header, .mnext))).trace headerCells c,
        InFootprint ((pre ++ b :: post).map MemBlk.header) a := by
  have hblen : c (.blk b.addr, .mlength) = b.mlength := hrep.lengths b (by simp)
  have hbmem : [Header.blk b.addr] ⊆ (pre ++ b :: post).map MemBlk.header := by
    simp [MemBlk.header]
  have hsum : uadd b.addr (c (.blk b.addr, .mlength)) = b.stop := by
    rw [hblen]
    exact uadd_eq hb
  have hbjoin : b.header ∈
      Header.memlistHead :: (pre ++ joinRight b post).map MemBlk.header := by
    rw [List.map_append]
    exact List.mem_cons_of_mem _ (List.mem_append_right _ (header_mem_joinRight b post))
  have hsplit : Represents c ((pre ++ [b]) ++ post) := by simpa using hrep
  have hnext := hsplit.next_eq
  rw [lastHeader_concat] at hnext
  cases post with
  | nil =>
    have h0 : c (b.header, .mnext) = 0 := by simpa [nextOf] using hnext
    obtain ⟨hrun, hfoot⟩ := freememMerge_apart (m := m) b.addr _ (Or.inl h0)
    exact ⟨_, hrun, hrep.update_head_mlength _, by simp,
      (Untouched.refl c _).update List.mem_cons_self .mlength _,
      fun a ha => (hfoot a ha).mono hbmem⟩
  | cons d post =>
    obtain ⟨hne, hd⟩ := ptr_eq_some.mp hnext
    have hda : c (b.header, .mnext) = d.addr := by simpa [MemBlk.header, eq_comm] using hd
    rw [hda] at hne ⊢
    by_cases hadj : b.stop = d.addr
    · have hdlen : c (.blk d.addr, .mlength) = d.mlength := hrep.lengths d (by simp)
      have hdnext : c (.blk d.addr, .mnext) < ulongSize := by
        have hsplit' : Represents c ((pre ++ [b, d]) ++ post) := by simpa using hrep
        have h := hsplit'.mnext_lt fun y hy => by
          have := hpost y (by simp [hy])
          simp only [MemBlk.stop] at this
          omega
        simpa [lastHeader, MemBlk.header] using h
      obtain ⟨hrun, hfoot⟩ := freememMerge_absorb (m := m) hne (hsum.trans hadj) hdnext
      refine ⟨_, hrun, ?_, by simp, ?_, ?_⟩
      · have hlen : uadd b.mlength d.mlength = b.mlength + d.mlength := by
          have hdstop := hpost d (by simp)
          simp only [MemBlk.stop] at hadj hdstop
          exact uadd_eq (by omega)
        have hgrow := hrep.update_mlength hnd (b.mlength + d.mlength)
        have hgrow' : Represents (Function.update c (b.header, .mlength) (b.mlength + d.mlength))
            ((pre ++ [⟨b.addr, b.mlength + d.mlength⟩]) ++ d :: post) := by simpa using hgrow
        have hskip := hgrow'.bypass (by simpa [MemBlk.header] using hnd)
        rw [hblen, hdlen, hlen, joinRight, if_pos hadj]
        apply Represents.update_head_mlength
        simpa [MemBlk.header] using hskip
      · exact (((Untouched.refl c _).update hbjoin .mlength _).update hbjoin .mnext _).update
          List.mem_cons_self .mlength _
      · intro a ha
        apply (hfoot a ha).mono
        simp [MemBlk.header]
    · obtain ⟨hrun, hfoot⟩ := freememMerge_apart (m := m) (c := c) b.addr d.addr
        (Or.inr (hsum.symm ▸ hadj))
      refine ⟨_, hrun, ?_, by simp, (Untouched.refl c _).update List.mem_cons_self .mlength _,
        fun a ha => (hfoot a ha).mono hbmem⟩
      rw [joinRight, if_neg hadj]
      exact hrep.update_head_mlength _

/-- The blocks whose headers a release of `f` goes through: its own unless `f` only makes the free
block in front of it longer. -/
def touched (f : MemBlk) (l : List MemBlk) : List MemBlk :=
  if ∃ b ∈ l, b.stop = f.addr then l else f :: l

theorem touched_subset (f : MemBlk) (l : List MemBlk) : touched f l ⊆ f :: l := by
  unfold touched
  split_ifs
  · exact List.subset_cons_self f l
  · exact List.Subset.refl _

theorem touched_insert {pre post : List MemBlk} {f : MemBlk} (hpos : 0 < f.mlength)
    (hpre : ∀ x ∈ pre, x.stop < f.addr) (hpost : ∀ y ∈ post, f.stop ≤ y.addr) :
    touched f (pre ++ post) = f :: (pre ++ post) := by
  apply if_neg
  rintro ⟨b, hb, hbf⟩
  rcases List.mem_append.mp hb with hb | hb
  · have := hpre b hb
    omega
  · have := hpost b hb
    simp only [MemBlk.stop] at *
    omega

theorem touched_coalesce {pre post : List MemBlk} {p f : MemBlk} (hadj : p.stop = f.addr) :
    touched f (pre ++ p :: post) = pre ++ p :: post :=
  if_pos ⟨p, by simp, hadj⟩

/-- The list `l'` is `l` with the bytes of `f` added to it. -/
structure Released (g : HeapBounds) (f : MemBlk) (l l' : List MemBlk) : Prop where
  coalesced : Coalesced g l'
  bytes_eq : bytes l' = bytes l + f.mlength
  covers_iff : ∀ x, Covers l' x ↔ Covers l x ∨ f.addr ≤ x ∧ x < f.stop
  lengths : ∀ P : ℕ → Prop, (∀ a b, P a → P b → P (a + b)) →
    (∀ x ∈ f :: l, P x.mlength) → ∀ x ∈ l', P x.mlength
  headers_touched : l'.map MemBlk.header ⊆ (touched f l).map MemBlk.header

theorem Released.headers {g : HeapBounds} {f : MemBlk} {l l' : List MemBlk}
    (h : Released g f l l') : l'.map MemBlk.header ⊆ (f :: l).map MemBlk.header :=
  List.Subset.trans h.headers_touched (List.map_subset _ (touched_subset f l))

theorem released_insert {g : HeapBounds} {pre post : List MemBlk} {f : MemBlk}
    (hl : Coalesced g (pre ++ post)) (hpos : 0 < f.mlength)
    (hin : g.heapLo ≤ f.addr ∧ f.stop ≤ g.heapHi) (hpre : ∀ x ∈ pre, x.stop < f.addr)
    (hpost : ∀ y ∈ post, f.stop ≤ y.addr) :
    Released g f (pre ++ post) (pre ++ joinRight f post) where
  coalesced := hl.joinRight hpos hin hpre hpost
  bytes_eq := by
    rw [bytes_append, bytes_joinRight, bytes_append]
    omega
  covers_iff x := by
    rw [covers_append, covers_joinRight, covers_cons, covers_append]
    tauto
  lengths P hP h := by
    intro x hx
    rcases List.mem_append.mp hx with hx | hx
    · exact h x (by simp [hx])
    · refine forall_mlength_joinRight hP (fun y hy => h y ?_) x hx
      rcases List.mem_cons.mp hy with rfl | hy <;> simp [*]
  headers_touched := by
    have hjoin := headers_joinRight f post
    rw [touched_insert hpos hpre hpost]
    intro h hh
    simp only [List.map_append, List.map_cons, List.mem_append, List.mem_cons] at hh ⊢
    rcases hh with hh | hh
    · tauto
    · have := hjoin hh
      simp only [List.map_cons, List.mem_cons] at this
      tauto

theorem released_coalesce {g : HeapBounds} {pre post : List MemBlk} {p f : MemBlk}
    (hl : Coalesced g (pre ++ p :: post)) (hin : f.stop ≤ g.heapHi)
    (hadj : p.stop = f.addr) (hpost : ∀ y ∈ post, f.stop ≤ y.addr) :
    Released g f (pre ++ p :: post)
      (pre ++ joinRight ⟨p.addr, p.mlength + f.mlength⟩ post) where
  coalesced := by
    obtain ⟨hrest, hpre, -⟩ := hl.pairwise_middle
    have hp := hl.inside p (by simp)
    have hp0 := hl.nonempty p (by simp)
    simp only [MemBlk.stop] at hadj hin hpost hp
    apply hrest.joinRight
    · simp only
      omega
    · simp only [MemBlk.stop]
      omega
    · exact hpre
    · intro y hy
      have := hpost y hy
      simp only [MemBlk.stop]
      omega
  bytes_eq := by
    simp only [bytes_append, bytes_joinRight, bytes_cons]
    omega
  covers_iff x := by
    simp only [covers_append, covers_joinRight, covers_cons]
    simp only [MemBlk.stop] at hadj ⊢
    have hsplit : p.addr ≤ x ∧ x < p.addr + (p.mlength + f.mlength) ↔
        p.addr ≤ x ∧ x < p.addr + p.mlength ∨ f.addr ≤ x ∧ x < f.addr + f.mlength := by omega
    rw [hsplit]
    tauto
  lengths P hP h := by
    intro x hx
    rcases List.mem_append.mp hx with hx | hx
    · exact h x (by simp [hx])
    · refine forall_mlength_joinRight hP ?_ x hx
      intro y hy
      rcases List.mem_cons.mp hy with rfl | hy
      · exact hP _ _ (h p (by simp)) (h f (by simp))
      · exact h y (by simp [hy])
  headers_touched := by
    have hjoin := headers_joinRight ⟨p.addr, p.mlength + f.mlength⟩ post
    rw [touched_coalesce hadj]
    intro h hh
    simp only [List.map_append, List.map_cons, List.mem_append, List.mem_cons] at hh ⊢
    rcases hh with hh | hh
    · tauto
    · have := hjoin hh
      simp only [List.map_cons, List.mem_cons, MemBlk.header] at this ⊢
      tauto

/-- The fresh-node branch of `freememLink`, for any predecessor. -/
theorem freememInsert_run {g : HeapBounds} {pre post : List MemBlk} {f : MemBlk}
    (hrep : Represents c (pre ++ post)) (hl : Coalesced g (pre ++ post))
    (hhi : g.heapHi < ulongSize) (hlo : 0 < g.heapLo) (hpos : 0 < f.mlength)
    (hin : g.heapLo ≤ f.addr ∧ f.stop ≤ g.heapHi) (hpre : ∀ x ∈ pre, x.stop < f.addr)
    (hpost : ∀ y ∈ post, f.stop ≤ y.addr) :
    let insert : Prog Unit := do
      setMnext (.blk f.addr) (c (lastHeader pre, .mnext))
      setMlength (.blk f.addr) f.mlength
      setMnext (lastHeader pre) f.addr
      freememMerge f.mlength f.addr (c (lastHeader pre, .mnext))
    ∃ c' l', insert.run headerCells c = ((), c') ∧ Represents c' l' ∧
      Released g f (pre ++ post) l' ∧
      c' (.memlistHead, .mlength) = uadd (c (.memlistHead, .mlength)) f.mlength ∧
      Untouched c c' l' ∧
      ∀ a ∈ insert.trace headerCells c,
        InFootprint ((f :: (pre ++ post)).map MemBlk.header) a := by
  intro insert
  have hrel := released_insert hl hpos hin hpre hpost
  obtain ⟨hsegPre, hsegPost⟩ := hrep.split
  have hfpre : Header.blk f.addr ∉ pre.map MemBlk.header := by
    simp only [List.mem_map, not_exists, not_and, MemBlk.header, Header.blk.injEq]
    intro x hx heq
    have := hpre x hx
    simp only [MemBlk.stop] at this
    omega
  have hfpost : Header.blk f.addr ∉ post.map MemBlk.header := by
    simp only [List.mem_map, not_exists, not_and, MemBlk.header, Header.blk.injEq]
    intro y hy heq
    have := hpost y hy
    simp only [MemBlk.stop] at this
    omega
  have hnd : ((pre ++ f :: post).map MemBlk.header).Nodup := by
    rw [List.map_append, List.map_cons, List.nodup_middle, List.nodup_cons, ← List.map_append]
    refine ⟨?_, hl.nodup_headers⟩
    rw [List.map_append, List.mem_append, not_or]
    exact ⟨hfpre, hfpost⟩
  have hlast : lastHeader pre ≠ .blk f.addr := by
    intro h
    rcases List.mem_cons.mp (lastHeader_mem pre) with hm | hm
    · simp [h] at hm
    · exact hfpre (h ▸ hm)
  have hsplice := Represents.splice (n := f.mlength) hsegPre hsegPost hnd (by omega)
    (fun b hb => hrep.lengths b hb)
  have hnext : Function.update (Function.update (Function.update c (.blk f.addr, .mnext)
      (c (lastHeader pre, .mnext))) (.blk f.addr, .mlength) f.mlength)
      (lastHeader pre, .mnext) f.addr (f.header, .mnext) = c (lastHeader pre, .mnext) := by
    rw [Function.update_of_ne (by simp [MemBlk.header, hlast.symm]),
      Function.update_of_ne (by simp), MemBlk.header, Function.update_self]
  obtain ⟨c', hrun, hrep', hfree, huntouched, hfoot⟩ :=
    freememMerge_run (b := f) (m := f.mlength) hsplice hnd
      (by omega) (fun y hy => (hl.inside y (by simp [hy])).2.trans_lt hhi)
  rw [hnext] at hrun hfoot
  refine ⟨c', _, ?_, hrep', hrel, ?_, ?_, ?_⟩
  · simpa [insert, setMnext, setMlength] using hrun
  · rw [hfree]
    simp
  · have hfmem : Header.blk f.addr ∈
        Header.memlistHead :: (pre ++ joinRight f post).map MemBlk.header := by
      rw [List.map_append]
      exact List.mem_cons_of_mem _ (List.mem_append_right _ (header_mem_joinRight f post))
    have hlmem : lastHeader pre ∈
        Header.memlistHead :: (pre ++ joinRight f post).map MemBlk.header := by
      rcases List.mem_cons.mp (lastHeader_mem pre) with hm | hm
      · rw [hm]
        exact List.mem_cons_self
      · rw [List.map_append]
        exact List.mem_cons_of_mem _ (List.mem_append_left _ hm)
    have hlinked := (((Untouched.refl c _).update hfmem .mnext
      (c (lastHeader pre, .mnext))).update hfmem .mlength f.mlength).update hlmem .mnext f.addr
    exact hlinked.trans huntouched
  · have hsub : (pre ++ f :: post).map MemBlk.header ⊆ (f :: (pre ++ post)).map MemBlk.header := by
      intro h
      simp only [List.map_append, List.map_cons, List.mem_append, List.mem_cons]
      tauto
    have hlt := hrep.mnext_lt (fun y hy => hl.addr_lt hhi y (by simp [hy]))
    have hmem : lastHeader pre = .memlistHead ∨
        lastHeader pre ∈ (f :: (pre ++ post)).map MemBlk.header := by
      rcases List.mem_cons.mp (lastHeader_mem pre) with hm | hm
      · exact Or.inl hm
      · right
        rw [List.map_cons, List.map_append]
        simp [hm]
    have hf : Header.blk f.addr ∈ (f :: (pre ++ post)).map MemBlk.header :=
      List.mem_map_of_mem (f := MemBlk.header) (a := f) (by simp)
    have hfa : f.addr < ulongSize ∧ f.mlength < ulongSize := by
      simp only [MemBlk.stop] at hin
      omega
    intro a ha
    simp only [insert, setMnext, setMlength, trace_put_bind, headerCells_set, List.mem_cons] at ha
    rcases ha with rfl | rfl | rfl | ha
    · exact inFootprint_write.mpr ⟨Or.inr hf, hlt⟩
    · exact inFootprint_write.mpr ⟨Or.inr hf, hfa.2⟩
    · exact inFootprint_write.mpr ⟨hmem, hfa.1⟩
    · exact (hfoot a ha).mono hsub

/-- The part of `freemem` behind its checks, on a block that overlaps no free one. -/
theorem freememLink_run {g : HeapBounds} {pre post : List MemBlk} {f : MemBlk}
    (hrep : Represents c (pre ++ post)) (hl : Coalesced g (pre ++ post))
    (hhi : g.heapHi < ulongSize) (hlo : 0 < g.heapLo) (hpos : 0 < f.mlength)
    (hin : g.heapLo ≤ f.addr ∧ f.stop ≤ g.heapHi) (hpre : ∀ x ∈ pre, x.stop ≤ f.addr)
    (hpost : ∀ y ∈ post, f.stop ≤ y.addr) {prevEnd : ℕ}
    (hprevEnd : ∀ pre' (p : MemBlk), pre = pre' ++ [p] → prevEnd = p.stop) :
    let link := freememLink f.addr f.mlength (lastHeader pre) prevEnd (c (lastHeader pre, .mnext))
    ∃ c' l', link.run headerCells c = ((), c') ∧ Represents c' l' ∧
      Released g f (pre ++ post) l' ∧
      c' (.memlistHead, .mlength) = uadd (c (.memlistHead, .mlength)) f.mlength ∧
      Untouched c c' l' ∧
      ∀ a ∈ link.trace headerCells c,
        InFootprint ((touched f (pre ++ post)).map MemBlk.header) a := by
  intro link
  rcases List.eq_nil_or_concat' pre with rfl | ⟨pre', p, rfl⟩
  · rw [touched_insert hpos (by simp) hpost]
    exact freememInsert_run hrep hl hhi hlo hpos hin (by simp) hpost
  · have hend := hprevEnd pre' p rfl
    by_cases hadj : p.stop = f.addr
    · -- the predecessor grows; its length is the only cell that changes before the merge
      have hrep₁ : Represents c (pre' ++ p :: post) := by simpa using hrep
      have hl₁ : Coalesced g (pre' ++ p :: post) := by simpa using hl
      have hplen : c (.blk p.addr, .mlength) = p.mlength := hrep₁.lengths p (by simp)
      have hsum : uadd p.mlength f.mlength = p.mlength + f.mlength := by
        simp only [MemBlk.stop] at hadj hin
        exact uadd_eq (by omega)
      have hgrow := hrep₁.update_mlength hl₁.nodup_headers (p.mlength + f.mlength)
      obtain ⟨c', hrun, hrep', hfree, huntouched, hfoot⟩ := freememMerge_run (m := f.mlength)
        (b := ⟨p.addr, p.mlength + f.mlength⟩) hgrow
        (by simpa [MemBlk.header] using hl₁.nodup_headers)
        (by simp only [MemBlk.stop] at *; omega)
        (fun y hy => (hl.inside y (by simp [hy])).2.trans_lt hhi)
      refine ⟨c', _, ?_, hrep', by simpa using released_coalesce hl₁ hin.2 hadj hpost, ?_, ?_, ?_⟩
      · simpa [link, freememLink, mlength, setMlength, MemBlk.header, hend, hadj, hplen, hsum]
          using hrun
      · simpa [MemBlk.header] using hfree
      · have hpjoin : p.header ∈ Header.memlistHead ::
            (pre' ++ joinRight ⟨p.addr, p.mlength + f.mlength⟩ post).map MemBlk.header := by
          rw [List.map_append]
          exact List.mem_cons_of_mem _ (List.mem_append_right _ (header_mem_joinRight _ post))
        have hgrown := (Untouched.refl c _).update hpjoin .mlength (p.mlength + f.mlength)
        exact hgrown.trans huntouched
      · rw [List.append_assoc, List.singleton_append, touched_coalesce hadj]
        have hp : Header.blk p.addr ∈ (pre' ++ p :: post).map MemBlk.header :=
          List.mem_map_of_mem (f := MemBlk.header) (a := p) (by simp)
        have hplt : p.mlength + f.mlength < ulongSize := by
          simp only [MemBlk.stop] at hadj hin
          omega
        intro a ha
        simp only [link, freememLink, mlength, setMlength, lastHeader_concat, MemBlk.header,
          hend, hadj, if_true, trace_fetch_bind, trace_put_bind, headerCells_get, headerCells_set,
          hplen, hsum, List.mem_cons] at ha
        rcases ha with rfl | rfl | ha
        · exact inFootprint_read.mpr (Or.inr hp)
        · exact inFootprint_write.mpr ⟨Or.inr hp, hplt⟩
        · refine (hfoot a ?_).mono ?_
          · simpa [MemBlk.header] using ha
          · intro h hh
            simpa [MemBlk.header] using hh
    · have hlt : ∀ x ∈ pre' ++ [p], x.stop < f.addr := by
        intro x hx
        have hle := hpre x hx
        rcases List.mem_append.mp hx with hx | hx
        · have hxp := (List.pairwise_append.mp (List.pairwise_append.mp hl.separated).1).2.2 x hx p
            (by simp)
          have := hpre p (by simp)
          simp only [MemBlk.stop] at *
          omega
        · rw [List.mem_singleton.mp hx] at hle ⊢
          exact lt_of_le_of_ne hle hadj
      have hinsert := freememInsert_run hrep hl hhi hlo hpos hin hlt hpost
      rw [touched_insert hpos hlt hpost]
      simpa [link, freememLink, MemBlk.header, hend, hadj] using hinsert

/-- Every free list splits at an address, and disjointness decides the sides. -/
theorem Coalesced.split_at {g : HeapBounds} {l : List MemBlk} (hl : Coalesced g l) {f : MemBlk}
    (hdis : ∀ b ∈ l, f.Disjoint b) :
    ∃ pre post, l = pre ++ post ∧ (∀ x ∈ pre, x.stop ≤ f.addr) ∧ ∀ y ∈ post, f.stop ≤ y.addr := by
  induction l with
  | nil => exact ⟨[], [], rfl, by simp, by simp⟩
  | cons b l ih =>
    have hrest : Coalesced g l :=
      ⟨(List.pairwise_cons.mp hl.separated).2, fun x hx => hl.nonempty x (by simp [hx]),
        fun x hx => hl.inside x (by simp [hx])⟩
    rcases hdis b (by simp) with h | h
    · refine ⟨[], b :: l, rfl, by simp, ?_⟩
      intro y hy
      rcases List.mem_cons.mp hy with rfl | hy
      · exact h
      · have := (List.pairwise_cons.mp hl.separated).1 y hy
        simp only [MemBlk.stop] at *
        omega
    · obtain ⟨pre, post, rfl, hpre, hpost⟩ := ih hrest (fun x hx => hdis x (by simp [hx]))
      refine ⟨b :: pre, post, rfl, ?_, hpost⟩
      intro x hx
      rcases List.mem_cons.mp hx with rfl | hx
      · exact h
      · exact hpre x hx

/-- `freemem` on a block that lies in the heap and overlaps no free block. -/
theorem freemem_run {g : HeapBounds} {l : List MemBlk} {f : MemBlk} {n : ℕ}
    (hrep : Represents c l) (hl : Coalesced g l) (hhi : g.heapHi < ulongSize)
    (hlo : 0 < g.heapLo) (hn : n ≠ 0) (hf : f.mlength = roundmb n) (hpos : 0 < f.mlength)
    (hin : g.heapLo ≤ f.addr ∧ f.stop ≤ g.heapHi) (hdis : ∀ b ∈ l, f.Disjoint b)
    (hfuel : l.length < ulongSize) :
    ∃ c' l', (freemem g f.addr n).run headerCells c = (some 0, c') ∧ Represents c' l' ∧
      Released g f l l' ∧
      c' (.memlistHead, .mlength) = uadd (c (.memlistHead, .mlength)) f.mlength ∧
      Untouched c c' l' ∧
      ∀ a ∈ (freemem g f.addr n).trace headerCells c,
        InFootprint ((touched f l).map MemBlk.header) a := by
  obtain ⟨pre, post, rfl, hpre, hpost⟩ := hl.split_at hdis
  have hargs : ¬ (f.addr = 0 ∨ n = 0) := by omega
  have hstop : uadd f.addr (roundmb n) = f.stop := by
    rw [← hf]
    exact uadd_eq (by simp only [MemBlk.stop] at hin; omega)
  have hbounds : ¬ (f.addr < g.heapLo ∨ g.heapHi < f.stop) := by omega
  obtain ⟨hwalk, hwalkFoot⟩ := freememWalk_run headerCells c f.addr hrep
    (fun x hx => by
      have := hpre x hx
      have := hl.nonempty x (by simp [hx])
      simp only [MemBlk.stop] at *
      omega)
    (fun y hy => by
      have := hpost y hy
      simp only [MemBlk.stop] at *
      omega)
    (by simp at hfuel; omega)
  simp only [headerCells_get] at hwalk hwalkFoot
  obtain ⟨prevEnd, hprevRun, hprevEnd, hprevLe, hprevFoot⟩ :
      ∃ prevEnd, (freememPrevEnd (lastHeader pre)).run headerCells c = (prevEnd, c) ∧
        (∀ pre' (p : MemBlk), pre = pre' ++ [p] → prevEnd = p.stop) ∧ prevEnd ≤ f.addr ∧
        ∀ a ∈ (freememPrevEnd (lastHeader pre)).trace headerCells c,
          InFootprint (pre.map MemBlk.header) a := by
    rcases List.eq_nil_or_concat' pre with rfl | ⟨pre', p, rfl⟩
    · exact ⟨0, rfl, by simp, by simp, by simp [freememPrevEnd]⟩
    · have hplen : c (p.header, .mlength) = p.mlength := hrep.lengths p (by simp)
      have hpin := hl.inside p (by simp)
      refine ⟨p.stop, ?_, ?_, hpre p (by simp), ?_⟩
      · rw [MemBlk.stop, ← uadd_eq (by simp only [MemBlk.stop] at hpin; omega)]
        rw [MemBlk.header] at hplen
        simp [freememPrevEnd, mlength, MemBlk.header, hplen]
      · intro pre'' p' heq
        rw [(List.append_inj' heq rfl).2 |> List.singleton_inj.mp]
      · simp [freememPrevEnd, mlength, MemBlk.header]
  have hcurr : ¬ (c (lastHeader pre, .mnext) ≠ 0 ∧ c (lastHeader pre, .mnext) < f.stop) := by
    rintro ⟨hne, hlt⟩
    have hnext := hrep.next_eq
    cases post with
    | nil => exact hne (by simpa [nextOf] using hnext)
    | cons d post =>
      obtain ⟨-, hd⟩ := ptr_eq_some.mp hnext
      have := hpost d (by simp)
      simp only [MemBlk.header, Header.blk.injEq] at hd
      omega
  obtain ⟨c', l', hrun, hrep', hrel, hfree, huntouched, hfoot⟩ :=
    freememLink_run hrep hl hhi hlo hpos hin hpre hpost hprevEnd
  rw [hf] at hrun hfoot
  refine ⟨c', l', ?_, hrep', hrel, hfree, huntouched, ?_⟩
  · simp only [freemem, if_neg hargs, hstop, if_neg hbounds, mnext, run_fetch,
      headerCells_get, run_bind, hwalk, hprevRun, if_neg hprevLe.not_gt, if_neg hcurr, hrun,
      run_pure]
  · have hsub : pre.map MemBlk.header ⊆ (touched f (pre ++ post)).map MemBlk.header := by
      apply List.map_subset
      unfold touched
      split_ifs
      · exact List.subset_append_left pre post
      · exact List.subset_cons_of_subset f (List.subset_append_left pre post)
    intro a ha
    simp only [freemem, if_neg hargs, hstop, if_neg hbounds, mnext, trace_fetch,
      run_fetch, headerCells_get, trace_bind, hwalk, hprevRun, if_neg hprevLe.not_gt, if_neg hcurr,
      trace_pure, List.append_nil, List.singleton_append, List.mem_cons, List.mem_append] at ha
    rcases ha with rfl | ha | ha | ha
    · simp
    · exact (hwalkFoot a ha).mono hsub
    · exact (hprevFoot a ha).mono hsub
    · exact hfoot a ha

end XinuRpi4.Memory
