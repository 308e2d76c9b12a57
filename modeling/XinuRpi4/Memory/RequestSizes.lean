import XinuRpi4.Memory.HeapClients

/-!
# Requests up to the largest `unsigned long`

`getmem` rounds a request up and `kmalloc` adds its header to it, both modulo
`2 ^ 64`. As long as neither step wraps, what a client gets is the range it asked
for; a request that wraps is served by whatever block fits the wrapped size.
-/

namespace XinuRpi4.Memory

open Foundation MemoryProgram

/-- The bytes of a request that is served were free, and no others are taken. -/
theorem Taken.covers {g : HeapBounds} {n p : ℕ} {l l' : List MemBlk} (h : Taken n p l l')
    (hl : Coalesced g l) (hn : n + 7 < ulongSize) :
    (g.heapLo ≤ p ∧ p + n ≤ g.heapHi) ∧ ∀ x, p ≤ x → x < p + n → Covers l x ∧ ¬ Covers l' x := by
  obtain ⟨pre, b, post, rfl, -, rfl, hfit, rfl⟩ := h
  have hround := roundmb_bounds hn
  have hb := hl.inside b (by simp)
  obtain ⟨-, hpre, hpost⟩ := hl.pairwise_middle
  simp only [MemBlk.stop] at hb
  refine ⟨⟨hb.1, by omega⟩, fun x hlo hhi => ⟨⟨b, by simp, hlo, ?_⟩, ?_⟩⟩
  · simp only [MemBlk.stop]
    omega
  · rintro ⟨d, hd, hdlo, hdhi⟩
    simp only [List.mem_append] at hd
    rcases hd with (hd | hd) | hd
    · have := hpre d hd
      omega
    · unfold cut at hd
      split_ifs at hd with heq
      · simp at hd
      · rw [List.mem_singleton.mp hd] at hdlo
        simp only at hdlo
        omega
    · have := hpost d hd
      simp only [MemBlk.stop] at this
      omega

namespace HeapClients

/-- Neither the block nor its remainder is too short for a header of the free list. -/
def Room (s : HeapClients) (m : ℕ) : Prop := ∀ b ∈ s.firstFit m, m ≠ 8 ∧ b.mlength ≠ m + 8

/-- What a client of `getmem` relies on: the range it asked for lies in the heap and was
taken from the free list. -/
def GetmemLaw (s : HeapClients) (n : ℕ) : Prop :=
  ∀ p s', s.getmem n = some (p, s') → p ≠ 0 →
    (s.km.bounds.heapLo ≤ p ∧ p + n ≤ s.km.bounds.heapHi) ∧
      ∀ x, p ≤ x → x < p + n → Covers s.freeList x ∧ ¬ Covers s'.freeList x

/-- What a client of `kmalloc` relies on: the range is reserved, no other block has a part
of it, and the header in front of it is filled in. -/
def KmallocLaw (s : HeapClients) (n : ℕ) : Prop :=
  ∀ p s', s.kmalloc n = some (p, s') → p ≠ 0 →
    ∃ a, p = a + kmHeaderBytes ∧ HeaderIntact s'.km.heap.mem a (n + kmHeaderBytes) ∧
      (s.km.bounds.heapLo ≤ a ∧ p + n ≤ s.km.bounds.heapHi) ∧
      (∀ x, a ≤ x → x < p + n → Covers s.freeList x ∧ ¬ Covers s'.freeList x) ∧
      ∀ b ∈ s.blocks, (⟨a, kmHeaderBytes + n⟩ : MemBlk).Disjoint b.extent

variable {s s' : HeapClients} {l : List MemBlk} {n : ℕ}

/-- The laws of requests that do not wrap when they are served. -/
theorem ClientsInv.laws (h : s.ClientsInv l) :
    (s.Fits (.getmem n) → s.GetmemLaw n) ∧ (s.Fits (.kmalloc n) → s.KmallocLaw n) := by
  constructor
  · intro hfits p s' hget hp
    obtain ⟨p', t, l', hget', hinv, hserved⟩ := h.step_getmem hfits
    cases hget.symm.trans hget'
    obtain ⟨h0, htaken⟩ := hserved hp
    have hn : n + 7 < ulongSize := by
      obtain ⟨pre, b, post, -, hb, -⟩ := htaken
      exact (hfits h0 b (by rw [firstFit, h.freeList_eq]; exact hb)).1
    rw [h.freeList_eq, hinv.freeList_eq]
    exact htaken.covers h.bytes.heap.coalesced hn
  · intro hfits p s' hget hp
    obtain ⟨p', t, l', hget', hinv, hserved⟩ := h.step_kmalloc hfits
    cases hget.symm.trans hget'
    obtain ⟨hn, a, rfl, hlive, hraw, htaken⟩ := hserved hp
    have hk : kmHeaderBytes = 32 := rfl
    obtain ⟨hin, hcov⟩ := htaken.covers h.bytes.heap.coalesced (by omega)
    have hhead := hinv.headers ⟨a, n⟩ (by simp [hlive])
    refine ⟨a, rfl, hhead, ⟨hin.1, by omega⟩, fun x hlo hhi => ?_, fun b hb => ?_⟩
    · rw [h.freeList_eq, hinv.freeList_eq]
      exact hcov x hlo (by omega)
    · -- a byte of a live block was not free before
      have hbpos := h.bytes.heap.live_nonempty b.extent (List.mem_map_of_mem hb)
      refine MemBlk.disjoint_of_no_common (by simp only; omega) hbpos fun x hlo hhi hx => ?_
      simp only [MemBlk.stop] at hhi
      exact h.bytes.not_covers_live hb hx.1 hx.2 (hcov x hlo (by omega)).1

/-- Where there is room, `getmem` answers with the first block that fits the rounded size,
also when the rounding wrapped. -/
theorem ClientsInv.getmem_value (h : s.ClientsInv l) (h0 : n ≠ 0) {b : MemBlk}
    (hb : s.firstFit (roundmb n) = some b) (hroom : s.Room (roundmb n)) :
    ((Memory.getmem n).run byteStore s.km.heap).1 = some b.addr ∧ b ∈ l := by
  have hi := h.bytes
  obtain ⟨hm8, hb8⟩ := hroom b hb
  rw [firstFit, h.freeList_eq, List.find?_eq_some_iff_append] at hb
  obtain ⟨hfit, pre, post, rfl, hsmall⟩ := hb
  have hfit : roundmb n ≤ b.mlength := by simpa using hfit
  have hsmall : ∀ x ∈ pre, x.mlength < roundmb n := by simpa using hsmall
  have hlen := hi.heap.length_lt
  have hgran := hi.granular b (by simp)
  have hdvd := dvd_roundmb n
  obtain ⟨c', hrun, -, -, -, hfoot⟩ := getmem_run_of_fit hi.heap.represents hi.heap.coalesced
    hi.heap.heapHi_lt h0 hsmall hfit (by simp at hlen; omega)
  have hcut : ∀ d ∈ cut (roundmb n) b, 16 ≤ d.mlength := by
    intro d hd
    unfold cut at hd
    split_ifs at hd with heq
    · simp at hd
    · rw [List.mem_singleton.mp hd]
      simp only
      omega
  have happart : Apart ((pre ++ b :: (cut (roundmb n) b ++ post)).map MemBlk.header) := by
    by_cases hz : roundmb n = 0
    · -- nothing is cut off: the remainder is the block itself
      have hself : cut (roundmb n) b = [b] := by
        rw [hz, cut, if_neg (by omega)]
        rfl
      rw [hself]
      apply (apart_headers hi.room hi.heap.coalesced.pairwise_disjoint).subset
      intro x hx
      simp only [List.map_append, List.map_cons, List.map_nil, List.mem_append, List.mem_cons,
        List.not_mem_nil] at hx ⊢
      tauto
    · exact ByteInvariant.apart_cut hi.heap.coalesced hi.room (by omega) hfit hcut
  obtain ⟨hval, -⟩ := run_bytes _ happart s.km.heap hfoot
  refine ⟨?_, by simp⟩
  rw [hval, hrun]

/-- `getmem` finds a free block for the rounded size. -/
def GetmemServed (s : HeapClients) (n : ℕ) : Prop := n ≠ 0 ∧ s.firstFit (roundmb n) ≠ none

/-- `kmalloc` finds a free block for the rounded sum, and does not end up at null. -/
def KmallocServed (s : HeapClients) (n : ℕ) : Prop :=
  n ≠ 0 ∧ uadd n kmHeaderBytes ≠ 0 ∧
    ∃ b ∈ s.firstFit (roundmb (uadd n kmHeaderBytes)), uadd b.addr kmHeaderBytes ≠ 0

/-- Free blocks lie above the first 8 bytes of the address range. -/
theorem ClientsInv.addr_bounds (h : s.ClientsInv l) {b : MemBlk} (hb : b ∈ l) :
    8 ≤ b.addr ∧ b.addr < ulongSize := by
  have hin := h.bytes.heap.coalesced.inside b hb
  have hlo := h.bytes.heap.heapLo_pos
  have hdvd := h.aligned b hb
  exact ⟨by omega, h.bytes.heap.coalesced.addr_lt h.bytes.heap.heapHi_lt b hb⟩

/-- A request whose rounding wraps gets a range that reaches out of the heap. -/
theorem ClientsInv.not_getmemLaw (h : s.ClientsInv l) (hserved : s.GetmemServed n)
    (hroom : s.Room (roundmb n)) (hwrap : ulongSize ≤ n + 7) : ¬ s.GetmemLaw n := by
  intro hlaw
  obtain ⟨h0, hfind⟩ := hserved
  obtain ⟨b, hb⟩ := Option.ne_none_iff_exists'.mp hfind
  obtain ⟨hval, hmem⟩ := h.getmem_value h0 hb hroom
  obtain ⟨hb8, -⟩ := h.addr_bounds hmem
  have hin := (hlaw _ _ (getmem_of (Prod.ext hval rfl)) (by omega)).1
  have hhi := h.bytes.heap.heapHi_lt
  omega

/-- The pointer that `kmalloc` answers, also when a sum wrapped. -/
theorem ClientsInv.kmalloc_value (h : s.ClientsInv l) (h0 : n ≠ 0)
    (ht : uadd n kmHeaderBytes ≠ 0) {b : MemBlk}
    (hb : s.firstFit (roundmb (uadd n kmHeaderBytes)) = some b)
    (hroom : s.Room (roundmb (uadd n kmHeaderBytes))) :
    ∃ s', s.kmalloc n = some (uadd b.addr kmHeaderBytes, s') ∧ b ∈ l := by
  obtain ⟨hval, hmem⟩ := h.getmem_value ht hb hroom
  obtain ⟨hb8, -⟩ := h.addr_bounds hmem
  have hrun : (Memory.getmem (uadd n kmHeaderBytes)).run byteStore s.km.heap =
      (some b.addr, ((Memory.getmem (uadd n kmHeaderBytes)).run byteStore s.km.heap).2) :=
    Prod.ext hval rfl
  have hkm := KmState.KmInv.kmalloc_eq h0 hrun
  rw [if_neg (by omega)] at hkm
  exact ⟨_, kmalloc_of hkm, hmem⟩

theorem ClientsInv.not_kmallocLaw (h : s.ClientsInv l) (hserved : s.KmallocServed n)
    (hroom : s.Room (roundmb (uadd n kmHeaderBytes))) (hwrap : ulongSize ≤ n + 39) :
    ¬ s.KmallocLaw n := by
  intro hlaw
  obtain ⟨h0, ht, b, hb, hp⟩ := hserved
  obtain ⟨s', hmalloc, hmem⟩ := h.kmalloc_value h0 ht hb hroom
  obtain ⟨a, ha, -, hin, -⟩ := hlaw _ _ hmalloc hp
  obtain ⟨hb8, hblt⟩ := h.addr_bounds hmem
  have hhi := h.bytes.heap.heapHi_lt
  have hk : kmHeaderBytes = 32 := rfl
  have hsize : ulongSize = 2 ^ 64 := rfl
  rw [uadd, hsize] at ha hin
  omega

/-- In every state that clients reach by requests that fit and releases of what they hold, a
request is answered as its client relies on exactly when it is not served or its sums do not
wrap, as long as neither the block found nor its remainder is too short for a header. -/
theorem request_law_iff (h : ByteHeap) {lo hi : ℕ} (hhi : hi < ulongSize)
    (hlo : 0 < roundmb lo) (hlt : roundmb lo + 16 ≤ truncmb hi)
    (hs : Reachable step Fits (init h lo hi) s) (n : ℕ) :
    (s.Room (roundmb n) → (s.GetmemLaw n ↔ (s.GetmemServed n → n + 7 < ulongSize))) ∧
      (s.Room (roundmb (uadd n kmHeaderBytes)) →
        (s.KmallocLaw n ↔ (s.KmallocServed n → n + 39 < ulongSize))) := by
  have hinv : ∃ l, s.ClientsInv l := by
    refine hs.invariant (fun s => ∃ l, s.ClientsInv l) (init_inv h hhi hlo hlt) ?_
    rintro s op s' ⟨l, hl⟩ hop hstep
    obtain ⟨t, l', ht, hl'⟩ := hl.step hop
    rw [hstep] at ht
    cases ht
    exact ⟨l', hl'⟩
  obtain ⟨l, hl⟩ := hinv
  refine ⟨fun hroom => ⟨fun hlaw hserved => ?_, fun hfits => ?_⟩,
    fun hroom => ⟨fun hlaw hserved => ?_, fun hfits => ?_⟩⟩
  · by_contra hwrap
    exact hl.not_getmemLaw hserved hroom (not_lt.mp hwrap) hlaw
  · apply hl.laws.1
    intro h0 b hb
    exact ⟨hfits ⟨h0, by rw [Option.mem_def.mp hb]; exact Option.some_ne_none b⟩, hroom b hb⟩
  · by_contra hwrap
    exact hl.not_kmallocLaw hserved hroom (not_lt.mp hwrap) hlaw
  · by_cases hserved : s.KmallocServed n
    · have hn := hfits hserved
      have hk : kmHeaderBytes = 32 := rfl
      have htotal : uadd n kmHeaderBytes = n + kmHeaderBytes := uadd_eq (by omega)
      apply hl.laws.2
      intro _ _ b hb
      have hb8 := (hroom b hb).2
      rw [htotal] at hb8
      exact ⟨by omega, hb8⟩
    · by_cases hnull : n ≠ 0 ∧ uadd n kmHeaderBytes ≠ 0 ∧
          ∃ b, s.firstFit (roundmb (uadd n kmHeaderBytes)) = some b
      · -- the sum with the header's size is null itself
        obtain ⟨h0, ht, b, hb⟩ := hnull
        obtain ⟨s', hmalloc, -⟩ := hl.kmalloc_value h0 ht hb hroom
        intro p s'' hmalloc' hp
        cases hmalloc.symm.trans hmalloc'
        exact absurd ⟨h0, ht, b, hb, hp⟩ hserved
      · apply hl.laws.2
        intro h0 ht b hb
        exact absurd ⟨h0, ht, b, hb⟩ hnull

/-- A request of 40 bytes on a heap of 128, then any other one. -/
theorem request_law_iff_after_getmem :
    ∃ s, (init ByteState.zeroHeap 4096 4224).step (.getmem 40) = some s ∧
      (s.Room (roundmb 24) → (s.GetmemLaw 24 ↔ (s.GetmemServed 24 → 24 + 7 < ulongSize))) ∧
      (s.Room (roundmb (uadd 24 kmHeaderBytes)) →
        (s.KmallocLaw 24 ↔ (s.KmallocServed 24 → 24 + 39 < ulongSize))) := by
  have hfirst : (init ByteState.zeroHeap 4096 4224).Fits (.getmem 40) := by
    intro _
    decide
  obtain ⟨s, hs⟩ := Option.isSome_iff_exists.mp
    (by decide : ((init ByteState.zeroHeap 4096 4224).step (.getmem 40)).isSome)
  exact ⟨s, hs, request_law_iff ByteState.zeroHeap (by decide) (by decide) (by decide)
    (Reachable.start.next hfirst hs) 24⟩

/-- The largest request rounds to nothing, and gets the first free block for it. -/
theorem largest_request_served :
    ¬ ∀ (h : ByteHeap) (lo hi : ℕ), hi < ulongSize → 0 < roundmb lo →
      roundmb lo + 16 ≤ truncmb hi → ∀ s, Reachable step Fits (init h lo hi) s →
        ∀ n < ulongSize, s.GetmemLaw n ∧ s.KmallocLaw n := by
  intro hclaim
  have hrun : ((init ByteState.zeroHeap 4096 4224).getmem (2 ^ 64 - 1)).map Prod.fst =
      some 4096 := by decide
  obtain ⟨⟨p, s'⟩, hget, hp⟩ := Option.map_eq_some_iff.mp hrun
  have hlaw := (hclaim ByteState.zeroHeap 4096 4224 (by decide) (by decide) (by decide) _
    Reachable.start (2 ^ 64 - 1) (by decide)).1 p s' hget
  simp only at hp
  subst hp
  exact absurd (hlaw (by decide)).1.2 (by decide)

end HeapClients

end XinuRpi4.Memory
