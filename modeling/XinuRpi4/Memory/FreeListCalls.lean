import XinuRpi4.Memory.FreeingOrder

/-!
# Calls on the free list by anyone

`getmem` with any size and `freemem` with any range that does not wrap keep the
free list in order, whoever owns the range. Over bytes the request and the range
have to leave room for the headers. Where all sizes and addresses are
multiples of some `m`, the free list keeps to multiples of `m`.
-/

namespace XinuRpi4.Memory

open Foundation MemoryProgram

/-- Addresses and lengths of the blocks are multiples of `m`. -/
def OnGrid (m : ℕ) (l : List MemBlk) : Prop := ∀ b ∈ l, m ∣ b.addr ∧ m ∣ b.mlength

theorem OnGrid.cut {m n : ℕ} {pre post : List MemBlk} {b : MemBlk}
    (h : OnGrid m (pre ++ b :: post)) (hn : m ∣ n) : OnGrid m (pre ++ cut n b ++ post) := by
  intro d hd
  simp only [List.mem_append] at hd
  rcases hd with (hd | hd) | hd
  · exact h d (by simp [hd])
  · have hb := h b (by simp)
    unfold Memory.cut at hd
    split_ifs at hd with heq
    · simp at hd
    · rw [List.mem_singleton.mp hd]
      exact ⟨dvd_add hb.1 hn, Nat.dvd_sub hb.2 hn⟩
  · exact h d (by simp [hd])

theorem OnGrid.released {g : HeapBounds} {m : ℕ} {f : MemBlk} {l l' : List MemBlk}
    (h : OnGrid m l) (hf : m ∣ f.addr ∧ m ∣ f.mlength) (hrel : Released g f l l') :
    OnGrid m l' := by
  have hall : OnGrid m (f :: l) := List.forall_mem_cons.mpr ⟨hf, h⟩
  intro b hb
  constructor
  · obtain ⟨d, hd, hdb⟩ := List.mem_map.mp (hrel.headers (List.mem_map_of_mem hb))
    have haddr : d.addr = b.addr := Header.blk.inj hdb
    rw [← haddr]
    exact (hall d hd).1
  · exact hrel.lengths (m ∣ ·) (fun _ _ => dvd_add) (fun x hx => (hall x hx).2) b hb

theorem bytes_cut {n : ℕ} {b : MemBlk} (hfit : n ≤ b.mlength) :
    bytes (cut n b) + n = b.mlength := by
  unfold cut
  split_ifs with heq
  · simpa using heq.symm
  · simp only [bytes_cons, bytes_nil]
    omega

namespace FreeListInvariant

variable {g : HeapBounds} {c c' : Loc → ℕ} {l : List MemBlk}

/-- The first block that is large enough is cut. -/
theorem take {pre post : List MemBlk} {b : MemBlk} {n : ℕ}
    (h : FreeListInvariant g c (pre ++ b :: post)) (hfit : roundmb n ≤ b.mlength)
    (hrep : Represents c' (pre ++ cut (roundmb n) b ++ post))
    (hfree : c' (.memlistHead, .mlength) = usub (c (.memlistHead, .mlength)) (roundmb n)) :
    FreeListInvariant g c' (pre ++ cut (roundmb n) b ++ post) := by
  have hlt := h.coalesced.bytes_lt h.heapHi_lt
  have hcut := bytes_cut hfit
  refine ⟨h.heapLo_pos, h.heapHi_lt, hrep, h.coalesced.cut hfit, ?_⟩
  simp only [bytes_append, bytes_cons] at hlt ⊢
  rw [hfree, h.free_bytes, usub_eq (by simp only [bytes_append, bytes_cons]; omega)
    (by simp only [bytes_append, bytes_cons]; omega), bytes_append, bytes_cons]
  omega

/-- Any release whose range does not wrap is refused and changes nothing, or adds the range. -/
theorem freemem_spec (h : FreeListInvariant g c l) {blk n : ℕ} {r : ℤ}
    (hfits : blk + roundUp n < ulongSize)
    (hrun : (freemem g blk n).run headerCells c = (some r, c')) :
    c' = c ∨ ∃ l', FreeListInvariant g c' l' ∧ Released g (releasedRange blk n) l l' := by
  have hrefused := (freemem_verdict headerCells c h blk n).1
  by_cases hno : n = 0 ∨ BadRelease g l (releasedRange blk n)
  · have hrefuse : Refuses g l blk n := by
      by_cases h0 : n = 0
      · exact Or.inr (Or.inl h0)
      · exact (refuses_iff_badRelease h h0 hfits).mpr (hno.resolve_left h0)
    rw [hrefused hrefuse, Prod.mk.injEq] at hrun
    exact Or.inl hrun.2.symm
  · obtain ⟨hn, hgood⟩ := not_or.mp hno
    obtain ⟨c₁, l', hrun₁, hinv, hrel, -⟩ := freemem_accepts h hn hfits hgood
    rw [hrun₁, Prod.mk.injEq] at hrun
    obtain ⟨-, rfl⟩ := hrun
    exact Or.inr ⟨l', hinv, hrel⟩

end FreeListInvariant

/-- The free list of a byte memory in which only the end of the heap may be shorter than a
header, apart from what clients hold. -/
structure EdgeList (g : HeapBounds) (h : ByteHeap) (l : List MemBlk) : Prop where
  list : FreeListInvariant g h.view l
  room : ∀ b ∈ l, 8 ∣ b.mlength ∧ HasRoom g b

theorem EdgeInvariant.edgeList {g : HeapBounds} {h : ByteHeap} {live : List LiveBlk}
    {l : List MemBlk} (hi : EdgeInvariant g h live l) : EdgeList g h l :=
  ⟨hi.heap.freeList, fun b hb => ⟨hi.granular b hb, hi.room b hb⟩⟩

namespace EdgeList

variable {g : HeapBounds} {h : ByteHeap} {l : List MemBlk}

theorem freeList_eq (hi : EdgeList g h l) : h.freeList = l :=
  Memory.freeList_eq hi.list.represents (hi.list.coalesced.length_lt hi.list.heapHi_lt)

theorem byteList (hi : EdgeList g h l) : ByteListInvariant g h l where
  list := hi.list
  apart := apart_of_hasRoom hi.list.coalesced.nonempty
    (fun b hb => (hi.list.coalesced.inside b hb).2) (fun b hb => (hi.room b hb).2)
    hi.list.coalesced.pairwise_disjoint

/-- A request that leaves room is not served and changes nothing, or takes the front of the
first block that is large enough. -/
theorem getmem_spec (hi : EdgeList g h l) {n : ℕ} (hserved : ServesRoom g l n) :
    ∃ p h', (getmem n).run byteStore h = (some p, h') ∧
      (p = 0 ∧ EdgeList g h' l ∧ (n ≠ 0 → l.find? (fun b => roundmb n ≤ b.mlength) = none) ∨
        ∃ pre b post, l = pre ++ b :: post ∧ n ≠ 0 ∧
          l.find? (fun b => roundmb n ≤ b.mlength) = some b ∧ p = b.addr ∧
          HasRoom g ⟨b.addr, roundmb n⟩ ∧ roundmb n ≤ b.mlength ∧
          EdgeList g h' (pre ++ cut (roundmb n) b ++ post)) := by
  have hlen := hi.list.coalesced.length_lt hi.list.heapHi_lt
  by_cases h0 : n = 0
  · exact ⟨0, h, by simp [getmem, h0], Or.inl ⟨rfl, hi, fun hn => absurd h0 hn⟩⟩
  rcases exists_first_fit l (roundmb n) with hsmall | ⟨pre, b, post, rfl, hsmall, hfit⟩
  · obtain ⟨hrun, hfoot⟩ := getmem_run_of_small hi.list.represents h0 hsmall hlen
    obtain ⟨hval, hag, -⟩ := run_bytes _ hi.byteList.apart h hfoot
    rw [hrun] at hval hag
    refine ⟨0, _, Prod.ext hval rfl, Or.inl ⟨rfl, ⟨hi.list.congr hag, hi.room⟩, fun _ => ?_⟩⟩
    exact List.find?_eq_none.mpr (by simpa using hsmall)
  · have hfind : (pre ++ b :: post).find? (fun b => roundmb n ≤ b.mlength) = some b :=
      find?_firstFit hsmall hfit
    obtain ⟨hn, hshort, hrest⟩ := hserved h0 b hfind
    obtain ⟨hapart, hfront, hall⟩ := room_of_served hi.list.coalesced hi.room hn h0 hfit hshort hrest
    obtain ⟨c', hrun, hrep, hfree, -, hfoot⟩ := getmem_run_of_fit hi.list.represents
      hi.list.coalesced hi.list.heapHi_lt h0 hsmall hfit (by simp at hlen; omega)
    obtain ⟨hval, hag, -⟩ := run_bytes _ hapart h hfoot
    rw [hrun] at hval hag
    refine ⟨b.addr, _, Prod.ext hval rfl, Or.inr ⟨pre, b, post, rfl, h0, hfind, rfl, hfront, hfit,
      (hi.list.take hfit hrep hfree).congr fun hd hhd f => hag hd ?_ f, hall⟩⟩
    exact List.cons_subset_cons _ (headers_cut_subset (roundmb n) b) hhd

/-- Any release of a range that does not wrap and has room is refused and changes nothing, or
adds the range. -/
theorem freemem_spec (hi : EdgeList g h l) {blk n : ℕ} (hfits : blk + roundUp n < ulongSize)
    (hroom : n ≠ 0 → HasRoom g (releasedRange blk n)) :
    ∃ r h', (freemem g blk n).run byteStore h = (some r, h') ∧
      (h' = h ∨ ∃ l', EdgeList g h' l' ∧ Released g (releasedRange blk n) l l') := by
  by_cases hno : n = 0 ∨ BadRelease g l (releasedRange blk n)
  · exact ⟨-1, h, hi.byteList.freemem_refused hfits hno, Or.inl rfl⟩
  obtain ⟨hn, hgood⟩ := not_or.mp hno
  have hpos : 0 < (releasedRange blk n).mlength := roundUp_pos hn
  have hin : g.heapLo ≤ blk ∧ (releasedRange blk n).stop ≤ g.heapHi :=
    not_not.mp (not_or.mp hgood).1
  have hrange := hroom hn
  have hclear : HeaderClear l (releasedRange blk n) := by
    refine Or.inr fun b hb => ?_
    have hbin := hi.list.coalesced.inside b hb
    have hbpos := hi.list.coalesced.nonempty b hb
    have hbroom := (hi.room b hb).2
    have hdis : (releasedRange blk n).Disjoint b := by
      by_contra hno
      exact (not_or.mp hgood).2 ⟨b, hb, (MemBlk.overlaps_iff hpos hbpos).mpr hno⟩
    simp only [MemBlk.Disjoint, HasRoom, MemBlk.stop] at *
    omega
  obtain ⟨h', l', hrun, hinv, hrel⟩ := hi.byteList.freemem_accepted hn hfits hgood hclear
  refine ⟨0, h', hrun, Or.inr ⟨l', ⟨hinv.list, fun d hd => ⟨?_, ?_⟩⟩, hrel⟩⟩
  · have h8 : 8 ∣ (releasedRange blk n).mlength := Nat.dvd_mul_left 8 _
    exact hrel.lengths (8 ∣ ·) (fun _ _ => dvd_add)
      (List.forall_mem_cons.mpr ⟨h8, fun b hb => (hi.room b hb).1⟩) d hd
  · exact hrel.hasRoom (List.forall_mem_cons.mpr ⟨hrange, fun b hb => (hi.room b hb).2⟩)
      (List.forall_mem_cons.mpr ⟨hpos, hi.list.coalesced.nonempty⟩) d hd

end EdgeList

end XinuRpi4.Memory
