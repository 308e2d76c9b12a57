import XinuRpi4.Memory.HeapBytes
import XinuRpi4.Memory.ReleaseChecks

/-!
# Whole runs over bytes, and the order in which blocks are freed

Over bytes the invariant of the heap needs every header of the list to be intact: a
block of 8 bytes is too short for a header, and only at the end of the heap
there is nothing behind it that the header could share bytes with. Runs whose
requests leave room for the headers keep it. A coalesced free list is determined
by the bytes it covers, and a release adds the bytes of its block. The list that a
series of releases leaves therefore does not depend on their order, and once
nothing is live it is the one block that `mem_init` made.
-/

namespace XinuRpi4.Memory

open Foundation MemoryProgram

section Canonical

variable {g : HeapBounds} {l l' : List MemBlk}

/-- Two blocks of a coalesced list are the same, or a gap lies between them. -/
theorem Coalesced.eq_or_gap (hl : Coalesced g l) {a b : MemBlk} (ha : a ∈ l) (hb : b ∈ l) :
    a = b ∨ a.stop < b.addr ∨ b.stop < a.addr := by
  induction l with
  | nil => simp at ha
  | cons d l ih =>
    have hgap := (List.pairwise_cons.mp hl.separated).1
    rcases List.mem_cons.mp ha with rfl | ha'
    · rcases List.mem_cons.mp hb with rfl | hb'
      · exact Or.inl rfl
      · exact Or.inr (Or.inl (hgap b hb'))
    · rcases List.mem_cons.mp hb with rfl | hb'
      · exact Or.inr (Or.inr (hgap a ha'))
      · exact ih hl.tail ha' hb'

/-- A range that a coalesced list covers lies in one of its blocks. -/
theorem Coalesced.exists_block (hl : Coalesced g l) {lo hi : ℕ} (hlt : lo < hi)
    (hcov : ∀ x, lo ≤ x → x < hi → Covers l x) : ∃ b ∈ l, b.addr ≤ lo ∧ hi ≤ b.stop := by
  obtain ⟨b, hb, hblo, hbhi⟩ := hcov lo le_rfl hlt
  refine ⟨b, hb, hblo, ?_⟩
  by_contra hshort
  obtain ⟨d, hd, hdlo, hdhi⟩ := hcov b.stop (by omega) (by omega)
  have hgap := hl.eq_or_gap hb hd
  rcases hgap with rfl | hgap | hgap
  · omega
  · omega
  · omega

theorem Coalesced.mem_of_covers (hl : Coalesced g l) (hl' : Coalesced g l')
    (hcov : ∀ x, Covers l x ↔ Covers l' x) {b : MemBlk} (hb : b ∈ l) : b ∈ l' := by
  have hpos := hl.nonempty b hb
  have hbstop : b.stop = b.addr + b.mlength := rfl
  obtain ⟨d, hd, hdlo, hdhi⟩ := hl'.exists_block (show b.addr < b.stop by omega)
    fun x hlo hhi => (hcov x).mp ⟨b, hb, hlo, hhi⟩
  obtain ⟨e, he, helo, hehi⟩ := hl.exists_block (show d.addr < d.stop by omega)
    fun x hlo hhi => (hcov x).mpr ⟨d, hd, hlo, hhi⟩
  have hbe : b = e := by
    rcases hl.eq_or_gap hb he with h | h | h
    · exact h
    · omega
    · omega
  subst hbe
  have hdstop : d.stop = d.addr + d.mlength := rfl
  have hbd : b = d := MemBlk.ext (by omega) (by omega)
  exact hbd ▸ hd

/-- A coalesced list is determined by the bytes it covers. -/
theorem Coalesced.eq_of_covers (hl : Coalesced g l) (hl' : Coalesced g l')
    (hcov : ∀ x, Covers l x ↔ Covers l' x) : l = l' := by
  have hsorted : ∀ {k : List MemBlk}, Coalesced g k → k.Pairwise fun a b => a.addr < b.addr := by
    intro k hk
    apply hk.separated.imp
    intro a b hab
    simp only [MemBlk.stop] at hab
    omega
  have hnodup : ∀ {k : List MemBlk}, Coalesced g k → k.Nodup := by
    intro k hk
    apply (hsorted hk).imp
    rintro a b hab rfl
    omega
  have hperm : l.Perm l' := (List.perm_ext_iff_of_nodup (hnodup hl) (hnodup hl')).mpr fun b =>
    ⟨hl.mem_of_covers hl' hcov, hl'.mem_of_covers hl fun x => (hcov x).symm⟩
  apply hperm.eq_of_pairwise _ (hsorted hl) (hsorted hl')
  intro a b _ _ hab hba
  omega

/-- A coalesced list with as many bytes as the heap is the whole heap. -/
theorem Coalesced.eq_whole (hl : Coalesced g l) (hlt : g.heapLo < g.heapHi)
    (hbytes : g.heapLo + bytes l = g.heapHi) : l = [⟨g.heapLo, g.heapHi - g.heapLo⟩] := by
  cases l with
  | nil =>
    rw [bytes_nil] at hbytes
    omega
  | cons b l =>
    have hb := hl.inside b (by simp)
    have hbstop : b.stop = b.addr + b.mlength := rfl
    rw [bytes_cons] at hbytes
    by_cases hnil : l = []
    · subst hnil
      rw [bytes_nil] at hbytes
      have hwhole : b = ⟨g.heapLo, g.heapHi - g.heapLo⟩ :=
        MemBlk.ext (by simp only; omega) (by simp only; omega)
      rw [hwhole]
    · have hrest := hl.tail.bytes_le (a := b.stop + 1)
        (fun d hd => (List.pairwise_cons.mp hl.separated).1 d hd) hnil
      omega

end Canonical

/-- What a call does to the cells it does to the bytes, if it keeps to headers
that are apart. -/
theorem HeapInvariant.of_cells {α : Type} {p : Prog α} {r : α} {g : HeapBounds} {h : ByteHeap}
    {c' : Loc → ℕ} {live' : List LiveBlk} {l' : List MemBlk} {hs : List Header} (happart : Apart hs)
    (hfoot : ∀ a ∈ p.trace headerCells h.view, InFootprint hs a)
    (hrun : p.run headerCells h.view = (r, c')) (hinv : HeapInvariant g c' live' l')
    (hsub : l'.map MemBlk.header ⊆ hs) :
    ∃ h', p.run byteStore h = (r, h') ∧ HeapInvariant g h'.view live' l' := by
  obtain ⟨hval, hag, -⟩ := run_bytes p happart h hfoot
  rw [hrun] at hval hag
  refine ⟨(p.run byteStore h).2, Prod.ext hval rfl, hinv.congr fun hd hhd f => hag hd ?_ f⟩
  exact List.cons_subset_cons _ hsub hhd

/-- The block has room for a header, or nothing lies behind it. -/
def HasRoom (g : HeapBounds) (b : MemBlk) : Prop := 16 ≤ b.mlength ∨ b.stop = g.heapHi

instance (g : HeapBounds) (b : MemBlk) : Decidable (HasRoom g b) :=
  inferInstanceAs (Decidable (_ ∨ _))

/-- If the list can serve `n` bytes, the request does not wrap, and neither the block nor the
remainder is shorter than a header, unless nothing lies behind it. -/
def ServesRoom (g : HeapBounds) (l : List MemBlk) (n : ℕ) : Prop :=
  n ≠ 0 → ∀ b ∈ l.find? (fun b => roundmb n ≤ b.mlength),
    n + 7 < ulongSize ∧ (roundmb n = 8 → b.mlength = 8) ∧
      (b.mlength = roundmb n + 8 → b.stop = g.heapHi)

instance (g : HeapBounds) (l : List MemBlk) (n : ℕ) : Decidable (ServesRoom g l n) :=
  inferInstanceAs (Decidable (n ≠ 0 → ∀ b ∈ l.find? (fun b => roundmb n ≤ b.mlength),
    n + 7 < ulongSize ∧ (roundmb n = 8 → b.mlength = 8) ∧
      (b.mlength = roundmb n + 8 → b.stop = g.heapHi)))

/-- The free list of a byte memory in which only the end of the heap may be shorter
than a header. -/
structure EdgeInvariant (g : HeapBounds) (h : ByteHeap) (live : List LiveBlk) (l : List MemBlk) :
    Prop where
  heap : HeapInvariant g h.view live l
  granular : ∀ b ∈ l, 8 ∣ b.mlength
  room : ∀ b ∈ l, HasRoom g b
  live_room : ∀ x ∈ extents live, HasRoom g x

/-- Headers of disjoint blocks are apart when only the last one may be short. -/
theorem apart_of_hasRoom {g : HeapBounds} {l : List MemBlk} (hpos : ∀ b ∈ l, 0 < b.mlength)
    (hin : ∀ b ∈ l, b.stop ≤ g.heapHi) (hroom : ∀ b ∈ l, HasRoom g b)
    (hdis : l.Pairwise MemBlk.Disjoint) : Apart (l.map MemBlk.header) := by
  have hne : ∀ x ∈ l, ∀ y ∈ l, x ≠ y → x.Disjoint y := by
    have : Std.Symm MemBlk.Disjoint := ⟨fun _ _ h => h.symm⟩
    exact fun x hx y hy hxy => hdis.forall hx hy hxy
  intro a b ha hb
  obtain ⟨x, hx, hxa⟩ := List.mem_map.mp ha
  obtain ⟨y, hy, hyb⟩ := List.mem_map.mp hb
  cases hxa
  cases hyb
  by_cases hxy : x = y
  · exact Or.inl (congrArg MemBlk.addr hxy)
  · have := hne x hx y hy hxy
    have := hroom x hx
    have := hroom y hy
    have := hpos x hx
    have := hpos y hy
    have := hin x hx
    have := hin y hy
    simp only [MemBlk.Disjoint, HasRoom, MemBlk.stop] at *
    omega

/-- A block that takes up what had room has room. -/
theorem HasRoom.of_part {g : HeapBounds} {a b : MemBlk} (ha : HasRoom g a) (hlo : b.addr = a.addr)
    (hhi : a.stop ≤ b.stop) (hb : b.stop ≤ g.heapHi) : HasRoom g b := by
  unfold HasRoom at *
  simp only [MemBlk.stop] at *
  omega

/-- A released block and its neighbours make blocks that have room. -/
theorem Released.hasRoom {g : HeapBounds} {f : MemBlk} {l l' : List MemBlk}
    (h : Released g f l l') (hroom : ∀ b ∈ f :: l, HasRoom g b)
    (hpos : ∀ b ∈ f :: l, 0 < b.mlength) : ∀ b ∈ l', HasRoom g b := by
  intro b hb
  obtain ⟨d, hd, hdb⟩ := List.mem_map.mp (h.headers (List.mem_map_of_mem hb))
  have haddr : d.addr = b.addr := Header.blk.inj hdb
  have hdpos := hpos d hd
  have hdstop : d.stop = d.addr + d.mlength := rfl
  have hcov : ∀ x, d.addr ≤ x → x < d.stop → Covers l' x := by
    intro x hlo hhi
    have hcons : Covers (f :: l) x := ⟨d, hd, hlo, hhi⟩
    rw [covers_cons] at hcons
    exact (h.covers_iff x).mpr hcons.symm
  obtain ⟨e, he, helo, hehi⟩ := h.coalesced.exists_block (show d.addr < d.stop by omega) hcov
  have heb : e = b := by
    have hbpos := h.coalesced.nonempty b hb
    have hbstop : b.stop = b.addr + b.mlength := rfl
    rcases h.coalesced.eq_or_gap he hb with heq | hgap | hgap
    · exact heq
    · omega
    · omega
  subst heb
  exact (hroom d hd).of_part haddr.symm hehi (h.coalesced.inside e he).2

/-- The headers that serving a request touches, before and behind the cut. -/
theorem apart_cut_of_room {g : HeapBounds} {pre post : List MemBlk} {b : MemBlk} {m : ℕ}
    (hl : Coalesced g (pre ++ b :: post)) (hroom : ∀ x ∈ pre ++ post, HasRoom g x)
    (hm : 0 < m) (hfit : m ≤ b.mlength) (hfront : HasRoom g ⟨b.addr, m⟩)
    (hcut : ∀ d ∈ cut m b, HasRoom g d) :
    Apart ((pre ++ b :: (cut m b ++ post)).map MemBlk.header) := by
  have hsame : (pre ++ b :: (cut m b ++ post)).map MemBlk.header =
      (pre ++ ⟨b.addr, m⟩ :: (cut m b ++ post)).map MemBlk.header := by
    simp [MemBlk.header]
  rw [hsame]
  have hb := hl.inside b (by simp)
  have hcoal : Coalesced g (pre ++ (cut m b ++ post)) := by
    simpa using hl.cut hfit
  obtain ⟨-, hpre, hpost⟩ := hl.pairwise_middle
  have hdis : (⟨b.addr, m⟩ :: (pre ++ (cut m b ++ post))).Pairwise MemBlk.Disjoint := by
    refine List.pairwise_cons.mpr ⟨fun x hx => ?_, hcoal.pairwise_disjoint⟩
    simp only [List.mem_append] at hx
    simp only [MemBlk.Disjoint, MemBlk.stop] at *
    rcases hx with hx | hx | hx
    · have := hpre x hx
      omega
    · unfold cut at hx
      split_ifs at hx with heq
      · simp at hx
      · rw [List.mem_singleton.mp hx]
        exact Or.inl le_rfl
    · have := hpost x hx
      omega
  have hperm : (pre ++ ⟨b.addr, m⟩ :: (cut m b ++ post)).Perm
      (⟨b.addr, m⟩ :: (pre ++ (cut m b ++ post))) := List.perm_middle
  have hall : ∀ x ∈ pre ++ ⟨b.addr, m⟩ :: (cut m b ++ post),
      0 < x.mlength ∧ x.stop ≤ g.heapHi ∧ HasRoom g x := by
    intro x hx
    rcases List.mem_cons.mp (hperm.mem_iff.mp hx) with rfl | hx
    · simp only [MemBlk.stop] at *
      exact ⟨hm, by omega, hfront⟩
    · refine ⟨hcoal.nonempty x hx, (hcoal.inside x hx).2, ?_⟩
      simp only [List.mem_append] at hx
      rcases hx with hx | hx | hx
      · exact hroom x (by simp [hx])
      · exact hcut x hx
      · exact hroom x (by simp [hx])
  exact apart_of_hasRoom (fun x hx => (hall x hx).1) (fun x hx => (hall x hx).2.1)
    (fun x hx => (hall x hx).2.2) ((hperm.pairwise_iff MemBlk.Disjoint.symm).mpr hdis)

/-- The headers of the list behind a request are among those that it touches. -/
theorem headers_cut_subset {pre post : List MemBlk} (m : ℕ) (b : MemBlk) :
    (pre ++ cut m b ++ post).map MemBlk.header ⊆
      (pre ++ b :: (cut m b ++ post)).map MemBlk.header := by
  intro x hx
  simp only [List.map_append, List.map_cons, List.mem_append, List.mem_cons] at hx ⊢
  tauto

/-- First fit finds the block behind those that are too small. -/
theorem find?_firstFit {pre post : List MemBlk} {b : MemBlk} {m : ℕ}
    (hsmall : ∀ x ∈ pre, x.mlength < m) (hfit : m ≤ b.mlength) :
    (pre ++ b :: post).find? (fun b => m ≤ b.mlength) = some b := by
  rw [List.find?_append, List.find?_eq_none.mpr (by simpa using hsmall)]
  simp [hfit]

/-- A request that leaves room leaves room everywhere on the list. -/
theorem room_of_served {g : HeapBounds} {pre post : List MemBlk} {b : MemBlk} {n : ℕ}
    (hl : Coalesced g (pre ++ b :: post))
    (hroom : ∀ x ∈ pre ++ b :: post, 8 ∣ x.mlength ∧ HasRoom g x) (hn : n + 7 < ulongSize)
    (h0 : n ≠ 0) (hfit : roundmb n ≤ b.mlength) (hshort : roundmb n = 8 → b.mlength = 8)
    (hrest : b.mlength = roundmb n + 8 → b.stop = g.heapHi) :
    Apart ((pre ++ b :: (cut (roundmb n) b ++ post)).map MemBlk.header) ∧
      HasRoom g ⟨b.addr, roundmb n⟩ ∧
      ∀ d ∈ pre ++ cut (roundmb n) b ++ post, 8 ∣ d.mlength ∧ HasRoom g d := by
  have hround := roundmb_bounds hn
  have hround8 := dvd_roundmb n
  obtain ⟨hbgran, hbroom⟩ := hroom b (by simp)
  have hcut : ∀ d ∈ cut (roundmb n) b, 8 ∣ d.mlength ∧ HasRoom g d := by
    intro d hd
    unfold cut at hd
    split_ifs at hd with heq
    · simp at hd
    · rw [List.mem_singleton.mp hd]
      simp only [HasRoom, MemBlk.stop] at *
      omega
  have hfront : HasRoom g ⟨b.addr, roundmb n⟩ := by
    simp only [HasRoom, MemBlk.stop] at *
    omega
  have hothers : ∀ x ∈ pre ++ post, 8 ∣ x.mlength ∧ HasRoom g x := by
    intro x hx
    simp only [List.mem_append] at hx
    exact hroom x (by simp only [List.mem_append, List.mem_cons]; tauto)
  refine ⟨apart_cut_of_room hl (fun x hx => (hothers x hx).2) (by omega) hfit hfront
    fun d hd => (hcut d hd).2, hfront, fun d hd => ?_⟩
  simp only [List.mem_append] at hd
  rcases hd with (hd | hd) | hd
  · exact hothers d (by simp [hd])
  · exact hcut d hd
  · exact hothers d (by simp [hd])

namespace EdgeInvariant

variable {g : HeapBounds} {h : ByteHeap} {live : List LiveBlk} {l : List MemBlk}

theorem freeList_eq (hi : EdgeInvariant g h live l) : h.freeList = l :=
  Memory.freeList_eq hi.heap.represents hi.heap.length_lt

theorem apart (hi : EdgeInvariant g h live l) : Apart (l.map MemBlk.header) :=
  apart_of_hasRoom hi.heap.coalesced.nonempty (fun b hb => (hi.heap.coalesced.inside b hb).2)
    hi.room hi.heap.coalesced.pairwise_disjoint

/-- `getmem` over bytes, for a request that leaves only the end of the heap short. -/
theorem getmem_spec (hi : EdgeInvariant g h live l) {n : ℕ} (hserved : ServesRoom g l n) :
    ∃ p h' l', (getmem n).run byteStore h = (some p, h') ∧
      EdgeInvariant g h' (if p = 0 then live else ⟨p, n⟩ :: live) l' := by
  by_cases h0 : n = 0
  · exact ⟨0, h, l, by simp [getmem, h0], by simpa using hi⟩
  rcases exists_first_fit l (roundmb n) with hsmall | ⟨pre, b, post, rfl, hsmall, hfit⟩
  · obtain ⟨hrun, hfoot⟩ := getmem_run_of_small hi.heap.represents h0 hsmall hi.heap.length_lt
    obtain ⟨h', hrun', hinv⟩ := HeapInvariant.of_cells hi.apart hfoot hrun hi.heap
      (List.Subset.refl _)
    exact ⟨0, h', l, hrun', by simpa using ⟨hinv, hi.granular, hi.room, hi.live_room⟩⟩
  · obtain ⟨hn, hshort, hrest⟩ := hserved h0 b (find?_firstFit hsmall hfit)
    have hround := roundmb_bounds hn
    have hlen := hi.heap.length_lt
    have hl := hi.heap.coalesced
    obtain ⟨hapart, hfront, hall⟩ := room_of_served hl
      (fun x hx => ⟨hi.granular x hx, hi.room x hx⟩) hn h0 hfit hshort hrest
    obtain ⟨c', hrun, hrep, hfree, -, hfoot⟩ := getmem_run_of_fit hi.heap.represents hl
      hi.heap.heapHi_lt h0 hsmall hfit (by simp at hlen; omega)
    obtain ⟨h', hrun', hinv⟩ := HeapInvariant.of_cells hapart hfoot hrun
      (hi.heap.take (by omega) hfit hrep hfree) (headers_cut_subset (roundmb n) b)
    have hb0 : b.addr ≠ 0 := hi.heap.represents.addr_ne_zero
    refine ⟨b.addr, h', pre ++ cut (roundmb n) b ++ post, hrun', ?_⟩
    rw [if_neg hb0]
    refine ⟨hinv, fun d hd => (hall d hd).1, fun d hd => (hall d hd).2, ?_⟩
    exact List.forall_mem_cons.mpr ⟨hfront, hi.live_room⟩

/-- `freemem` of a live block over bytes: its bytes are free, and nothing else changes. -/
theorem freemem_spec (hi : EdgeInvariant g h live l) {b : LiveBlk} (hb : b ∈ live) :
    ∃ h' l', (freemem g b.addr b.nbytes).run byteStore h = (some 0, h') ∧
      EdgeInvariant g h' (live.erase b) l' ∧ Released g b.extent l l' := by
  have hmem : b.extent ∈ extents live := List.mem_map_of_mem hb
  have hdis : ∀ d ∈ l, b.extent.Disjoint d :=
    fun d hd => (hi.heap.free_live_disjoint d hd _ hmem).symm
  have hroom : ∀ d ∈ b.extent :: l, HasRoom g d :=
    List.forall_mem_cons.mpr ⟨hi.live_room _ hmem, hi.room⟩
  have hpos : ∀ d ∈ b.extent :: l, 0 < d.mlength :=
    List.forall_mem_cons.mpr ⟨hi.heap.live_nonempty _ hmem, hi.heap.coalesced.nonempty⟩
  have hin : ∀ d ∈ b.extent :: l, d.stop ≤ g.heapHi :=
    List.forall_mem_cons.mpr ⟨(hi.heap.live_inside _ hmem).2,
      fun d hd => (hi.heap.coalesced.inside d hd).2⟩
  have hapart : Apart ((b.extent :: l).map MemBlk.header) := apart_of_hasRoom hpos hin hroom
    (List.pairwise_cons.mpr ⟨hdis, hi.heap.coalesced.pairwise_disjoint⟩)
  obtain ⟨c', l', hrun, hrep, hrel, hfree, -, hfoot⟩ := freemem_run (f := b.extent)
    hi.heap.represents hi.heap.coalesced hi.heap.heapHi_lt hi.heap.heapLo_pos
    (hi.heap.nbytes_ne_zero hb) rfl (hi.heap.live_nonempty _ hmem) (hi.heap.live_inside _ hmem)
    hdis hi.heap.length_lt
  obtain ⟨h', hrun', hinv⟩ := HeapInvariant.of_cells
    (hapart.subset (List.map_subset _ (touched_subset _ l))) hfoot hrun
    (hi.heap.give hb hrep hrel hfree) hrel.headers_touched
  refine ⟨h', l', hrun', ⟨hinv, ?_, hrel.hasRoom hroom hpos, ?_⟩, hrel⟩
  · exact hrel.lengths (8 ∣ ·) (fun _ _ => dvd_add)
      (List.forall_mem_cons.mpr ⟨dvd_roundmb _, hi.granular⟩)
  · intro x hx
    obtain ⟨d, hd, rfl⟩ := List.mem_map.mp hx
    exact hi.live_room _ (List.mem_map_of_mem (List.mem_of_mem_erase hd))

/-- A client's write to a live byte lies on no header word. -/
theorem write (hi : EdgeInvariant g h live l) {x : ℕ} (v : UInt8) (hx : Covers (extents live) x) :
    EdgeInvariant g { h with mem := Function.update h.mem x v } live l := by
  refine ⟨hi.heap.congr fun hd hhd f => ?_, hi.granular, hi.room, hi.live_room⟩
  cases hd with
  | memlistHead => rfl
  | blk a =>
    obtain ⟨b, hb, hba⟩ :=
      List.mem_map.mp (by simpa using hhd : Header.blk a ∈ l.map MemBlk.header)
    rw [MemBlk.header, Header.blk.injEq] at hba
    obtain ⟨e, he, helo, hehi⟩ := hx
    have hbe := hi.heap.free_live_disjoint b hb e he
    have hroom := hi.room b hb
    have hein := hi.heap.live_inside e he
    have hf := f.offset_le
    apply loadWord_congr
    intro y hy₁ hy₂
    apply Function.update_of_ne
    rintro rfl
    simp only [MemBlk.Disjoint, HasRoom, MemBlk.stop] at *
    omega

end EdgeInvariant

/-- After `mem_init` there is one free block, however short the heap. -/
theorem memInit_edge (h : ByteHeap) {lo hi : ℕ} (hhi : hi < ulongSize) (hlo : 0 < roundmb lo)
    (hlt : roundmb lo < truncmb hi) :
    EdgeInvariant (memInitBounds lo hi) ((memInit (memInitBounds lo hi)).run byteStore h).2 []
      [⟨roundmb lo, truncmb hi - roundmb lo⟩] := by
  have htrunc : truncmb hi ≤ hi := Nat.div_mul_le_self hi 8
  have hlo8 := dvd_roundmb lo
  have hhi8 : 8 ∣ truncmb hi := Nat.dvd_mul_left 8 _
  have hfoot : ∀ a ∈ (memInit (memInitBounds lo hi)).trace headerCells h.view,
      InFootprint [.blk (roundmb lo)] a := by
    have hlo' : roundmb lo < ulongSize := by omega
    have htot : (memInitBounds lo hi).heapTotal < ulongSize := usub_lt _ _
    have hb : (memInitBounds lo hi).heapLo = roundmb lo := rfl
    simp [memInit, setMnext, setMlength, hb, hlo', htot]
  obtain ⟨h', hrun, hinv⟩ := HeapInvariant.of_cells (r := ())
    (by intro a b ha hb; simp at ha hb; omega) hfoot rfl
    (memInit_invariant h.view hhi hlo hlt) (by simp [MemBlk.header])
  rw [hrun]
  refine ⟨hinv, by simp; omega, ?_, by simp⟩
  simp only [List.mem_singleton, forall_eq, HasRoom, MemBlk.stop, memInitBounds]
  omega

namespace ByteState

/-- A request that is served does not wrap, and neither the block nor the remainder
is shorter than a header, unless nothing lies behind it. -/
def LeavesRoom (s : ByteState) : ByteOp → Prop
  | .getmem n => n ≠ 0 → ∀ b ∈ s.firstFit (roundmb n), n + 7 < ulongSize ∧
      (roundmb n = 8 → b.mlength = 8) ∧ (b.mlength = roundmb n + 8 → b.stop = s.bounds.heapHi)
  | _ => True

instance (s : ByteState) : ∀ op, Decidable (s.LeavesRoom op)
  | .getmem n => inferInstanceAs (Decidable (n ≠ 0 → ∀ b ∈ s.firstFit (roundmb n), _))
  | .freemem _ => inferInstanceAs (Decidable True)
  | .write _ _ => inferInstanceAs (Decidable True)

def Roomy (s : ByteState) (op : ByteOp) : Prop := s.WellBehaved op ∧ s.LeavesRoom op

instance (s : ByteState) (op : ByteOp) : Decidable (s.Roomy op) :=
  inferInstanceAs (Decidable (_ ∧ _))

/-- Free the blocks in this order. -/
def release (s : ByteState) (order : List LiveBlk) : Option ByteState :=
  exec step s (order.map .freemem)

def EdgeInv (s : ByteState) (l : List MemBlk) : Prop := EdgeInvariant s.bounds s.heap s.live l

/-- The condition on a request, said of the list. -/
theorem EdgeInv.served {s : ByteState} {l : List MemBlk} (h : s.EdgeInv l) {n : ℕ}
    (hroom : s.LeavesRoom (.getmem n)) : ServesRoom s.bounds l n := by
  have hlist : s.heap.freeList = l := EdgeInvariant.freeList_eq h
  simp only [LeavesRoom, firstFit, hlist] at hroom
  exact hroom

theorem EdgeInv.step {s s' : ByteState} {op : ByteOp} {l : List MemBlk} (h : s.EdgeInv l)
    (hop : s.Roomy op) (hstep : s.step op = some s') :
    s'.bounds = s.bounds ∧ ∃ l', s'.EdgeInv l' := by
  obtain ⟨hwb, hroom⟩ := hop
  cases op with
  | getmem n =>
    obtain ⟨p, h', l', hrun, hinv⟩ := EdgeInvariant.getmem_spec h (h.served hroom)
    rw [ByteState.step, hrun] at hstep
    cases hstep
    exact ⟨rfl, l', hinv⟩
  | freemem b =>
    obtain ⟨h', l', hrun, hinv, -⟩ := EdgeInvariant.freemem_spec h hwb
    rw [ByteState.step, hrun] at hstep
    cases hstep
    exact ⟨rfl, l', hinv⟩
  | write x v =>
    cases hstep
    exact ⟨rfl, l, EdgeInvariant.write h v hwb⟩

/-- In a run from a fresh heap whose served requests leave room for the headers. -/
theorem reachable_edge (h : ByteHeap) {lo hi : ℕ} (hhi : hi < ulongSize) (hlo : 0 < roundmb lo)
    (hlt : roundmb lo < truncmb hi) {s : ByteState}
    (hs : Reachable step Roomy (init h lo hi) s) :
    s.bounds = memInitBounds lo hi ∧ ∃ l, s.EdgeInv l := by
  apply hs.invariant (fun s => s.bounds = memInitBounds lo hi ∧ ∃ l, s.EdgeInv l)
    ⟨rfl, _, memInit_edge h hhi hlo hlt⟩
  rintro s op s' ⟨hb, l, hinv⟩ hop hstep
  obtain ⟨hb', hinv'⟩ := hinv.step hop hstep
  exact ⟨hb'.trans hb, hinv'⟩

/-- No such call gets stuck. -/
theorem EdgeInv.step_isSome {s : ByteState} {op : ByteOp} {l : List MemBlk} (h : s.EdgeInv l)
    (hop : s.Roomy op) : (s.step op).isSome := by
  obtain ⟨hwb, hroom⟩ := hop
  cases op with
  | getmem n =>
    obtain ⟨p, h', l', hrun, -⟩ := EdgeInvariant.getmem_spec h (h.served hroom)
    simp [ByteState.step, hrun]
  | freemem b =>
    obtain ⟨h', l', hrun, -⟩ := EdgeInvariant.freemem_spec h hwb
    simp [ByteState.step, hrun]
  | write x v => rfl

/-- In every state of such a run the free list is sorted, coalesced and disjoint from what is
live, every byte of the heap is accounted for, every further call returns, and every release of
a held block is accepted. -/
theorem heap_run_invariant (h : ByteHeap) {lo hi : ℕ} (hhi : hi < ulongSize)
    (hlo : 0 < roundmb lo) (hlt : roundmb lo < truncmb hi) {s : ByteState}
    (hs : Reachable step Roomy (init h lo hi) s) :
    s.bounds = memInitBounds lo hi ∧
      HeapInvariant s.bounds s.heap.view s.live s.heap.freeList ∧
      (∀ op, s.Roomy op → (s.step op).isSome) ∧
      ∀ b ∈ s.live, ((freemem s.bounds b.addr b.nbytes).run byteStore s.heap).1 = some 0 := by
  obtain ⟨hbounds, l, hinv⟩ := reachable_edge h hhi hlo hlt hs
  refine ⟨hbounds, ?_, fun op hop => hinv.step_isSome hop, fun b hb => ?_⟩
  · rw [EdgeInvariant.freeList_eq hinv]
    exact hinv.heap
  · obtain ⟨h', l', hrun, -⟩ := EdgeInvariant.freemem_spec hinv hb
    rw [hrun]

/-- Two requests on a heap of 72 bytes, a write to the first block, and its release. -/
theorem heap_run_invariant_after_freemem :
    ∃ s, exec step (init zeroHeap 4096 4168)
        [.getmem 16, .getmem 24, .write 4096 7, .freemem ⟨4096, 16⟩] = some s ∧
      s.bounds = memInitBounds 4096 4168 ∧
      HeapInvariant s.bounds s.heap.view s.live s.heap.freeList ∧
      (∀ op, s.Roomy op → (s.step op).isSome) ∧
      ∀ b ∈ s.live, ((freemem s.bounds b.addr b.nbytes).run byteStore s.heap).1 = some 0 := by
  have hok : EachStep step Roomy (init zeroHeap 4096 4168)
    [.getmem 16, .getmem 24, .write 4096 7, .freemem ⟨4096, 16⟩] := by decide
  obtain ⟨s, hs⟩ := Option.isSome_iff_exists.mp (by decide : (exec step (init zeroHeap 4096 4168)
    [.getmem 16, .getmem 24, .write 4096 7, .freemem ⟨4096, 16⟩]).isSome)
  exact ⟨s, hs, heap_run_invariant zeroHeap (by decide) (by decide) (by decide)
    (Reachable.start.exec hok hs)⟩

/-- Requests whose rounding does not wrap, and releases of blocks that are held. -/
def Promised (s : ByteState) : ByteOp → Prop
  | .getmem n => n + 7 < ulongSize
  | .freemem b => b ∈ s.live
  | .write x _ => Covers (extents s.live) x

/-- The header behind 8 bytes is written over the length it is to take up: the free list has a
block that is longer than the heap. -/
theorem short_request_breaks_heap :
    ¬ ∀ (h : ByteHeap) (lo hi : ℕ), hi < ulongSize → 0 < roundmb lo → roundmb lo < truncmb hi →
      ∀ s, Reachable step Promised (init h lo hi) s →
        ∃ l, HeapInvariant s.bounds s.heap.view s.live l := by
  intro hclaim
  obtain ⟨s, hs⟩ := Option.isSome_iff_exists.mp
    (by decide : ((init zeroHeap 4096 4160).step (.getmem 8)).isSome)
  have hreach : Reachable step Promised (init zeroHeap 4096 4160) s :=
    Reachable.start.next (i := .getmem 8) (by decide : 8 + 7 < ulongSize) hs
  have hlist : ((init zeroHeap 4096 4160).step (.getmem 8)).map
      (fun s => (s.bounds.heapHi, s.heap.freeList)) = some (4160, [⟨4104, 2 ^ 64 - 8⟩]) := by decide
  rw [hs] at hlist
  obtain ⟨hhi, hfree⟩ := Prod.mk.inj (Option.some.inj hlist)
  obtain ⟨l, hinv⟩ := hclaim zeroHeap 4096 4160 (by decide) (by decide) (by decide) s hreach
  rw [freeList_eq hinv.represents hinv.length_lt] at hfree
  have hin := (hinv.coalesced.inside ⟨4104, 2 ^ 64 - 8⟩ (by simp [hfree])).2
  rw [hhi] at hin
  exact absurd hin (by decide)

/-- Freeing blocks that are held adds their bytes to the free list, one after the other. -/
theorem EdgeInv.release {s : ByteState} {l : List MemBlk} (h : s.EdgeInv l)
    {order : List LiveBlk} (horder : order.Subperm s.live) :
    ∃ s' l', s.release order = some s' ∧ s'.bounds = s.bounds ∧ s'.EdgeInv l' ∧
      (order ++ s'.live).Perm s.live ∧
      ∀ x, Covers l' x ↔ Covers l x ∨ Covers (extents order) x := by
  induction order generalizing s l with
  | nil => exact ⟨s, l, rfl, rfl, h, List.Perm.refl _, by simp [extents]⟩
  | cons b order ih =>
    have hb : b ∈ s.live := horder.subset List.mem_cons_self
    have hrest : order.Subperm (s.live.erase b) := by
      simpa using horder.erase b
    obtain ⟨h₁, l₁, hrun, hinv, hrel⟩ := EdgeInvariant.freemem_spec h hb
    have hstep : s.step (.freemem b) = some { s with heap := h₁, live := s.live.erase b } := by
      rw [ByteState.step, hrun]
    obtain ⟨s', l', hrel', hbounds, hinv', hperm, hcov⟩ :=
      ih (s := { s with heap := h₁, live := s.live.erase b }) hinv hrest
    refine ⟨s', l', ?_, hbounds, hinv', ?_, fun x => ?_⟩
    · simp only [ByteState.release, List.map_cons, exec, hstep]
      exact hrel'
    · exact (hperm.cons b).trans (List.perm_cons_erase hb).symm
    · rw [hcov, hrel.covers_iff, extents_cons, covers_cons, or_assoc]

/-- The allocator's own variable is determined by the list. -/
theorem EdgeInv.head_eq {s s' : ByteState} {l : List MemBlk} (h : s.EdgeInv l)
    (h' : s'.EdgeInv l) : s.heap.head = s'.heap.head := by
  funext f
  cases f with
  | mlength => exact h.heap.free_bytes.trans h'.heap.free_bytes.symm
  | mnext =>
    have hfirst := (@Represents.split _ [] l h.heap.represents).2.head?_eq
    have hfirst' := (@Represents.split _ [] l h'.heap.represents).2.head?_eq
    exact ptr_injective (hfirst.trans hfirst'.symm)

/-- Two orders of the same blocks leave the same free list. -/
theorem EdgeInv.release_perm {s : ByteState} {l : List MemBlk} (h : s.EdgeInv l)
    {order order' : List LiveBlk} (horder : order.Subperm s.live) (hperm : order.Perm order') :
    ∃ t t', s.release order = some t ∧ s.release order' = some t' ∧
      t.heap.freeList = t'.heap.freeList ∧ t.heap.head = t'.heap.head := by
  obtain ⟨t, k, hrun, hbounds, hinv, -, hcov⟩ := h.release horder
  obtain ⟨t', k', hrun', hbounds', hinv', -, hcov'⟩ := h.release (hperm.subperm_right.mp horder)
  have hcoal : Coalesced s.bounds k := hbounds ▸ hinv.heap.coalesced
  have hcoal' : Coalesced s.bounds k' := hbounds' ▸ hinv'.heap.coalesced
  have hextents : ∀ x, Covers (extents order) x ↔ Covers (extents order') x := fun x =>
    exists_congr fun b => and_congr_left fun _ => (hperm.map LiveBlk.extent).mem_iff
  have hsame : k = k' := hcoal.eq_of_covers hcoal' fun x => by
    rw [hcov, hcov', hextents]
  subst hsame
  refine ⟨t, t', hrun, hrun', ?_, hinv.head_eq hinv'⟩
  rw [hinv.freeList_eq, hinv'.freeList_eq]

/-- In every run from a fresh heap whose served requests leave room for the headers,
freeing all that is live gives the one block of the fresh heap back in whatever order
it is done, and any two live blocks may be freed in either order. -/
theorem release_order_independent (h : ByteHeap) {lo hi : ℕ} (hhi : hi < ulongSize)
    (hlo : 0 < roundmb lo) (hlt : roundmb lo < truncmb hi) {s : ByteState}
    (hs : Reachable step Roomy (init h lo hi) s) :
    (∀ order, order.Perm s.live → ∃ s', s.release order = some s' ∧ s'.live = [] ∧
      s'.heap.freeList = [⟨roundmb lo, truncmb hi - roundmb lo⟩] ∧
      s'.heap.head = (init h lo hi).heap.head) ∧
    ∀ a ∈ s.live, ∀ b ∈ s.live, a ≠ b → ∃ t t', s.release [a, b] = some t ∧
      s.release [b, a] = some t' ∧ t.heap.freeList = t'.heap.freeList ∧
      t.heap.head = t'.heap.head := by
  have hfresh : (init h lo hi).EdgeInv [⟨roundmb lo, truncmb hi - roundmb lo⟩] :=
    memInit_edge h hhi hlo hlt
  obtain ⟨hbounds, l, hinv⟩ := reachable_edge h hhi hlo hlt hs
  constructor
  · intro order horder
    obtain ⟨s', l', hrun, hbounds', hinv', hperm, -⟩ := hinv.release horder.subperm
    have hdone : s'.live = [] := by
      have hlen := hperm.length_eq
      rw [List.length_append, horder.length_eq] at hlen
      exact List.length_eq_zero_iff.mp (by omega)
    have hg : s'.bounds = memInitBounds lo hi := hbounds'.trans hbounds
    have htotal := hinv'.heap.total_eq
    have hall := hinv'.heap.accounted
    rw [hdone, extents, List.map_nil, bytes_nil] at hall
    rw [hg] at htotal hall
    have hwhole : l' = [⟨roundmb lo, truncmb hi - roundmb lo⟩] :=
      (hg ▸ hinv'.heap.coalesced : Coalesced (memInitBounds lo hi) l').eq_whole hlt (by omega)
    subst hwhole
    exact ⟨s', hrun, hdone, EdgeInvariant.freeList_eq hinv', hinv'.head_eq hfresh⟩
  · intro a ha b hb hab
    have hsub : [a, b].Subperm s.live :=
      List.Nodup.subperm (by simp [hab]) (by simp [ha, hb])
    exact hinv.release_perm hsub (List.Perm.swap b a [])

/-- Three requests on a heap of 72 bytes, the last of which leaves 8 bytes at its end. -/
theorem release_order_independent_three :
    ∃ s, exec step (init zeroHeap 4096 4168) [.getmem 16, .getmem 24, .getmem 24] = some s ∧
      (∀ order, order.Perm s.live → ∃ s', s.release order = some s' ∧ s'.live = [] ∧
        s'.heap.freeList = [⟨4096, 72⟩] ∧ s'.heap.head = (init zeroHeap 4096 4168).heap.head) ∧
      ∀ a ∈ s.live, ∀ b ∈ s.live, a ≠ b → ∃ t t', s.release [a, b] = some t ∧
        s.release [b, a] = some t' ∧ t.heap.freeList = t'.heap.freeList ∧
        t.heap.head = t'.heap.head := by
  obtain ⟨s, hs⟩ := Option.isSome_iff_exists.mp (by decide : (exec step (init zeroHeap 4096 4168)
    [.getmem 16, .getmem 24, .getmem 24]).isSome)
  have hok : EachStep step Roomy (init zeroHeap 4096 4168) [.getmem 16, .getmem 24, .getmem 24] := by
    decide
  exact ⟨s, hs, release_order_independent zeroHeap (by decide) (by decide) (by decide)
    (Reachable.start.exec hok hs)⟩

/-- A request of 8 bytes is split off by a header that is written over the length it is
to take up: after its release the free list has a block of no bytes. -/
theorem short_request_ruins_list :
    ¬ ∀ (h : ByteHeap) (lo hi : ℕ), hi < ulongSize → 0 < roundmb lo → roundmb lo < truncmb hi →
      ∀ sizes : List ℕ, (∀ n ∈ sizes, n < ulongSize) →
        ∀ s, exec step (init h lo hi) (sizes.map .getmem) = some s →
          ∀ order, order.Perm s.live → ∃ s', s.release order = some s' ∧
            s'.heap.freeList = [⟨roundmb lo, truncmb hi - roundmb lo⟩] := by
  intro hclaim
  obtain ⟨s, hs⟩ := Option.isSome_iff_exists.mp
    (by decide : (exec step (init zeroHeap 4096 4160) ([8].map .getmem)).isSome)
  have hlive : (exec step (init zeroHeap 4096 4160) ([8].map .getmem)).map live =
      some [⟨4096, 8⟩] := by decide
  have hfreed : ((exec step (init zeroHeap 4096 4160) ([8].map .getmem)).bind fun s =>
      s.release [⟨4096, 8⟩]).map (fun s => s.heap.freeList) = some [⟨4096, 0⟩] := by decide
  rw [hs] at hlive hfreed
  obtain ⟨s', hrun, hlist⟩ := hclaim zeroHeap 4096 4160 (by decide) (by decide) (by decide) [8]
    (by decide) s hs s.live (List.Perm.refl _)
  rw [Option.some.inj hlive] at hrun
  rw [Option.bind_some, hrun, Option.map_some, hlist] at hfreed
  exact absurd (Option.some.inj hfreed) (by decide)

end ByteState

end XinuRpi4.Memory
