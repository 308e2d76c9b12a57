import XinuRpi4.Memory.Kmalloc

/-!
# Accounting and double frees of `kmalloc`

The header of a live block lies in memory that the allocator and the clients leave
alone. The magic word of a freed pointer lies in free memory, where the allocator
only ever writes addresses and lengths; these are multiples of 8 and the magic word
is odd, so the pointer stays rejected until the word is handed out again. All this
needs that no request leaves a free block that is too short for its own header.
-/

namespace XinuRpi4.Memory

open Foundation MemoryProgram

theorem not_dvd_kmallocMagic : ¬ 8 ∣ kmallocMagic := by decide

/-- The header of a block that was filled in. -/
theorem setKmHeader_words (h : ByteHeap) {a total : ℕ} (ht : total < ulongSize) :
    loadWord (h.setKmHeader a total).mem 8 a = total ∧
      loadWord (h.setKmHeader a total).mem 8 (a + 8) = kmallocMagic := by
  have hmagic : kmallocMagic < 256 ^ 8 := by decide
  constructor
  · calc loadWord (h.setKmHeader a total).mem 8 a
        = loadWord (storeWord h.mem 8 a total) 8 a := by
          apply loadWord_congr
          intro x hlo hhi
          simp only [ByteHeap.setKmHeader]
          rw [storeWord_of_lt (by omega), storeWord_of_lt (by omega), storeWord_of_lt (by omega)]
      _ = total := loadWord_storeWord_self ht
  · calc loadWord (h.setKmHeader a total).mem 8 (a + 8)
        = loadWord (storeWord (storeWord h.mem 8 a total) 8 (a + 8) kmallocMagic) 8 (a + 8) := by
          apply loadWord_congr
          intro x hlo hhi
          simp only [ByteHeap.setKmHeader]
          rw [storeWord_of_lt (by omega), storeWord_of_lt (by omega)]
      _ = kmallocMagic := loadWord_storeWord_self hmagic

/-- Only the header changes. -/
theorem setKmHeader_mem (h : ByteHeap) {a total x : ℕ} (hx : x < a ∨ a + 32 ≤ x) :
    (h.setKmHeader a total).mem x = h.mem x := by
  simp only [ByteHeap.setKmHeader]
  rcases hx with hx | hx
  · rw [storeWord_of_lt (by omega), storeWord_of_lt (by omega), storeWord_of_lt (by omega),
      storeWord_of_lt (by omega)]
  · rw [storeWord_of_le (by omega), storeWord_of_le (by omega), storeWord_of_le (by omega),
      storeWord_of_le (by omega)]

/-- The extent of a block that fits has room for the header and the client's bytes. -/
theorem KmBlk.extent_bounds {b : KmBlk} (hb : b.size + 39 < ulongSize) :
    b.block.extent.addr = b.addr ∧ b.addr + b.size + 32 ≤ b.block.extent.stop ∧
      8 ∣ b.block.extent.mlength := by
  have hk : kmHeaderBytes = 32 := rfl
  have hround := roundmb_bounds (n := b.size + kmHeaderBytes) (by omega)
  refine ⟨rfl, ?_, hround.2.2⟩
  simp only [block, LiveBlk.extent, MemBlk.stop]
  omega

/-- Blocks are told apart by their addresses. -/
theorem KmBlk.eraseP_eq {live : List KmBlk} {b : KmBlk}
    (hpair : live.Pairwise fun b d => b.block.extent.Disjoint d.block.extent)
    (hsizes : ∀ b ∈ live, b.size + 39 < ulongSize) (hb : b ∈ live) :
    ∃ pre post, live = pre ++ b :: post ∧
      (live.eraseP fun d => d.addr = b.addr) = pre ++ post ∧
      (live.map KmBlk.block).erase b.block = (pre ++ post).map KmBlk.block ∧
      ∀ d ∈ pre ++ post, d ∈ live ∧ d.block.extent.Disjoint b.block.extent := by
  obtain ⟨pre, post, hlive⟩ := List.append_of_mem hb
  rw [hlive, List.pairwise_append, List.pairwise_cons] at hpair
  obtain ⟨-, ⟨hpost, -⟩, hpre⟩ := hpair
  have hlen : ∀ d ∈ live, d.addr < d.block.extent.stop := by
    intro d hd
    have := KmBlk.extent_bounds (hsizes d hd)
    omega
  have hbl := hlen b hb
  have hne : ∀ d ∈ pre, d.addr ≠ b.addr := by
    intro d hd heq
    have hdis := hpre d hd b (by simp)
    have hdl := hlen d (by simp [hlive, hd])
    have h₁ : d.block.extent.addr = d.addr := rfl
    have h₂ : b.block.extent.addr = b.addr := rfl
    simp only [MemBlk.Disjoint] at hdis
    omega
  have hneb : b.block ∉ pre.map KmBlk.block := by
    intro hmem
    obtain ⟨d, hd, heq⟩ := List.mem_map.mp hmem
    exact hne d hd (congrArg LiveBlk.addr heq)
  refine ⟨pre, post, hlive, ?_, ?_, ?_⟩
  · rw [hlive, List.eraseP_append_right _ (by simpa using hne)]
    simp
  · rw [hlive, List.map_append, List.map_cons, List.erase_append_right _ hneb]
    simp
  · intro d hd
    rcases List.mem_append.mp hd with hd | hd
    · exact ⟨by simp [hlive, hd], hpre d hd b (by simp)⟩
    · exact ⟨by simp [hlive, hd], (hpost d hd).symm⟩

namespace KmState

variable {s s' : KmState} {l : List MemBlk}

/-- The request is served without wrapping and leaves no remainder of 8 bytes, which
would be too short for a header of the free list. -/
def LeavesRoom (s : KmState) (n : ℕ) : Prop :=
  uadd n kmHeaderBytes ≠ 0 →
    ∀ b ∈ s.heap.freeList.find? (fun b => roundmb (uadd n kmHeaderBytes) ≤ b.mlength),
      n + kmHeaderBytes + 7 < ulongSize ∧ b.mlength ≠ roundmb (n + kmHeaderBytes) + 8

/-- What clients may do: ask for sizes that leave room, free what they hold, once or more,
or pointers without the magic word in front of them, and write to what they hold. -/
def Admitted (s : KmState) : KmOp → Prop
  | .kmalloc n => s.LeavesRoom n
  | .kfree ptr =>
    s.WellBehaved (.kfree ptr) ∨ loadWord s.heap.mem 8 (magicAddr ptr) ≠ kmallocMagic
  | .write x v => s.WellBehaved (.write x v)

structure KmInv (s : KmState) (l : List MemBlk) : Prop where
  bytes : ByteInvariant s.bounds s.heap (s.live.map KmBlk.block) l
  aligned : ∀ b ∈ l, 8 ∣ b.addr
  live_aligned : ∀ b ∈ s.live, 8 ∣ b.addr
  sizes : ∀ b ∈ s.live, b.size + 39 < ulongSize
  headers : ∀ b ∈ s.live, loadWord s.heap.mem 8 b.addr = b.size + kmHeaderBytes ∧
    loadWord s.heap.mem 8 (b.addr + 8) = kmallocMagic
  stale : ∀ ptr ∈ s.freed, ptr ≠ 0 ∧ 8 ∣ magicAddr ptr ∧
    8 ∣ loadWord s.heap.mem 8 (magicAddr ptr) ∧ ∀ b ∈ s.live, ¬ HandedOut b.block.extent ptr
  live_blocks : s.liveBlocks = s.live.length
  live_bytes : s.liveBytes = (s.live.map fun b => b.size + kmHeaderBytes).sum
  frees_lt : s.totalFrees < ulongSize
  frees : s.totalAllocs = uadd s.totalFrees s.liveBlocks

namespace KmInv

theorem extent_mem {b : KmBlk} (hb : b ∈ s.live) :
    b.block.extent ∈ extents (s.live.map KmBlk.block) :=
  List.mem_map_of_mem (List.mem_map_of_mem hb)

/-- Two live blocks are disjoint. -/
theorem disjoint (h : s.KmInv l) {b d : KmBlk} (hb : b ∈ s.live) (hd : d ∈ s.live) (hne : b ≠ d) :
    b.block.extent.Disjoint d.block.extent := by
  have hpair : s.live.Pairwise fun b d => b.block.extent.Disjoint d.block.extent := by
    have hpair := h.bytes.heap.live_disjoint
    rw [extents, List.map_map, List.pairwise_map] at hpair
    exact hpair
  have : Std.Symm fun b d : KmBlk => b.block.extent.Disjoint d.block.extent :=
    ⟨fun _ _ hbd => hbd.symm⟩
  exact hpair.forall hb hd hne

theorem addr_lt (h : s.KmInv l) {b : KmBlk} (hb : b ∈ s.live) :
    0 < b.addr ∧ b.block.extent.stop < ulongSize := by
  have hin := h.bytes.heap.live_inside _ (extent_mem hb)
  have hlo := h.bytes.heap.heapLo_pos
  have hhi := h.bytes.heap.heapHi_lt
  have heq : b.block.extent.addr = b.addr := rfl
  omega

/-- The live blocks together fit into an `unsigned long`. -/
theorem live_bytes_lt (h : s.KmInv l) :
    s.live.length + (s.live.map fun b => b.size + kmHeaderBytes).sum < 2 * ulongSize ∧
      s.live.length < ulongSize ∧
      (s.live.map fun b => b.size + kmHeaderBytes).sum < ulongSize := by
  have hsum : ∀ live : List KmBlk, (∀ b ∈ live, b.size + 39 < ulongSize) →
      live.length ≤ (live.map fun b => b.size + kmHeaderBytes).sum ∧
        (live.map fun b => b.size + kmHeaderBytes).sum ≤
          Memory.bytes (extents (live.map KmBlk.block)) := by
    intro live hsizes
    induction live with
    | nil => simp
    | cons b live ih =>
      obtain ⟨h₁, h₂⟩ := ih fun d hd => hsizes d (by simp [hd])
      have hb := KmBlk.extent_bounds (hsizes b (by simp))
      have hk : kmHeaderBytes = 32 := rfl
      simp only [MemBlk.stop] at hb
      simp only [List.length_cons, List.map_cons, List.sum_cons, extents_cons, bytes_cons]
      omega
  have hacc := h.bytes.heap.accounted
  have htot := h.bytes.heap.total_eq
  have hhi := h.bytes.heap.heapHi_lt
  have := hsum s.live h.sizes
  omega

/-- The words of a live block that no write touches. -/
theorem headers_of_mem (h : s.KmInv l) {mem : ℕ → UInt8} {b : KmBlk} (hb : b ∈ s.live)
    (hmem : ∀ x, b.addr ≤ x → x < b.addr + 16 → mem x = s.heap.mem x) :
    loadWord mem 8 b.addr = b.size + kmHeaderBytes ∧
      loadWord mem 8 (b.addr + 8) = kmallocMagic := by
  obtain ⟨h₁, h₂⟩ := h.headers b hb
  refine ⟨(loadWord_congr fun x hlo hhi => ?_).trans h₁, (loadWord_congr fun x hlo hhi => ?_).trans h₂⟩
  · exact hmem x hlo (by omega)
  · exact hmem x (by omega) (by omega)

/-- A client writes to its range. -/
theorem write (h : s.KmInv l) {x : ℕ} (v : UInt8) (hx : s.WellBehaved (.write x v)) :
    KmInv { s with heap.mem := Function.update s.heap.mem x v } l := by
  obtain ⟨b, hb, hlo, hhi⟩ := hx
  have hk : kmHeaderBytes = 32 := rfl
  have hext := KmBlk.extent_bounds (h.sizes b hb)
  have hbx : b.block.extent.addr ≤ x ∧ x < b.block.extent.stop := by omega
  refine { h with bytes := ?_, headers := fun d hd => ?_, stale := fun ptr hptr => ?_ }
  · apply h.bytes.of_mem
    intro y hy
    apply Function.update_of_ne
    rintro rfl
    exact h.bytes.not_covers_live (List.mem_map_of_mem hb) hbx.1 hbx.2 hy
  · apply h.headers_of_mem hd
    intro y hy₁ hy₂
    apply Function.update_of_ne
    rintro rfl
    have hd' := KmBlk.extent_bounds (h.sizes d hd)
    by_cases hdb : d = b
    · subst hdb
      omega
    · have hdis := h.disjoint hd hb hdb
      simp only [MemBlk.Disjoint] at hdis
      omega
  · obtain ⟨h0, h8, hw, hout⟩ := h.stale ptr hptr
    refine ⟨h0, h8, ?_, hout⟩
    have hnot := hout b hb
    rw [HandedOut, not_not] at hnot
    have hkept : loadWord (Function.update s.heap.mem x v) 8 (magicAddr ptr) =
        loadWord s.heap.mem 8 (magicAddr ptr) := by
      apply loadWord_congr
      intro y hy₁ hy₂
      apply Function.update_of_ne
      rintro rfl
      omega
    simp only [hkept]
    exact hw

/-- A pointer whose magic word is gone is only counted. -/
theorem kfree_bad (h : s.KmInv l) : KmInv { s with badFrees := uadd s.badFrees 1 } l := { h with }

/-- The magic word of a pointer that a client holds. -/
theorem magicAddr_eq (h : s.KmInv l) {b : KmBlk} (hb : b ∈ s.live) :
    usub (b.addr + kmHeaderBytes) kmHeaderBytes = b.addr ∧
      magicAddr (b.addr + kmHeaderBytes) = b.addr + 8 := by
  have hk : kmHeaderBytes = 32 := rfl
  have hlt := h.addr_lt hb
  have hext := KmBlk.extent_bounds (h.sizes b hb)
  have hsub : usub (b.addr + kmHeaderBytes) kmHeaderBytes = b.addr := by
    rw [usub_eq (by omega) (by omega)]
    omega
  refine ⟨hsub, ?_⟩
  rw [magicAddr, hsub]
  exact uadd_eq (by omega)

/-- Releasing a block takes it out of the list. -/
theorem eraseP_eq (h : s.KmInv l) {b : KmBlk} (hb : b ∈ s.live) :
    ∃ pre post, s.live = pre ++ b :: post ∧
      (s.live.eraseP fun d => d.addr = b.addr) = pre ++ post ∧
      (s.live.map KmBlk.block).erase b.block = (pre ++ post).map KmBlk.block ∧
      ∀ d ∈ pre ++ post, d ∈ s.live ∧ d.block.extent.Disjoint b.block.extent := by
  have hpair := h.bytes.heap.live_disjoint
  rw [extents, List.map_map, List.pairwise_map] at hpair
  exact KmBlk.eraseP_eq hpair h.sizes hb

/-- Words that are free stay multiples of 8 when a live block is written. -/
theorem stale_of_mem (h : s.KmInv l) {mem : ℕ → UInt8} {b : KmBlk} (hb : b ∈ s.live) {ptr : ℕ}
    (hptr : ptr ∈ s.freed) (hmem : ∀ x, x < b.addr ∨ b.block.extent.stop ≤ x → mem x = s.heap.mem x) :
    8 ∣ loadWord mem 8 (magicAddr ptr) := by
  obtain ⟨-, -, hw, hout⟩ := h.stale ptr hptr
  have hnot := hout b hb
  rw [HandedOut, not_not] at hnot
  have heq : b.block.extent.addr = b.addr := rfl
  have hkept : loadWord mem 8 (magicAddr ptr) = loadWord s.heap.mem 8 (magicAddr ptr) := by
    apply loadWord_congr
    intro x hx₁ hx₂
    exact hmem x (by omega)
  rw [hkept]
  exact hw

theorem kfree_held (h : s.KmInv l) {b : KmBlk} (hb : b ∈ s.live) :
    ∃ s' l', s.kfree (b.addr + kmHeaderBytes) = some s' ∧ s'.KmInv l' := by
  have hk : kmHeaderBytes = 32 := rfl
  obtain ⟨hsub, hmagic⟩ := h.magicAddr_eq hb
  obtain ⟨hsize, hword⟩ := h.headers b hb
  have hext := KmBlk.extent_bounds (h.sizes b hb)
  obtain ⟨pre, post, hlive, herase, heraseBlk, hrest⟩ := h.eraseP_eq hb
  have hadd : uadd b.addr 8 = b.addr + 8 := by
    rw [← hmagic, magicAddr, hsub]
  -- the magic word is cleared
  have hzero : ∀ x, x < b.addr ∨ b.block.extent.stop ≤ x →
      storeWord s.heap.mem 8 (b.addr + 8) 0 x = s.heap.mem x := by
    rintro x (hx | hx)
    · exact storeWord_of_lt (by omega)
    · exact storeWord_of_le (by omega)
  have hbytes : ByteInvariant s.bounds { s.heap with mem := storeWord s.heap.mem 8 (b.addr + 8) 0 }
      (s.live.map KmBlk.block) l := by
    apply h.bytes.of_mem
    intro x hx
    apply hzero
    by_contra hin
    exact h.bytes.not_covers_live (List.mem_map_of_mem hb)
      (by simp only [KmBlk.block]; omega) (by omega) hx
  obtain ⟨heap', l', hrun, hinv, hcov, hal⟩ := hbytes.freemem_spec (List.mem_map_of_mem hb)
  obtain ⟨haligned, hwords⟩ := hal (by
    intro d hd
    rcases List.mem_cons.mp hd with rfl | hd
    · exact h.live_aligned b hb
    · exact h.aligned d hd)
  rw [heraseBlk] at hinv
  have hkfree : s.kfree (b.addr + kmHeaderBytes) = some { s with
      heap := heap'
      liveBlocks := if s.liveBlocks ≠ 0 then usub s.liveBlocks 1 else s.liveBlocks
      liveBytes := if b.size + kmHeaderBytes ≤ s.liveBytes then
        usub s.liveBytes (b.size + kmHeaderBytes) else s.liveBytes
      totalFrees := uadd s.totalFrees 1
      live := pre ++ post
      freed := (b.addr + kmHeaderBytes) :: s.freed } := by
    have h0 : b.addr + kmHeaderBytes ≠ 0 := by omega
    have hrun' : (freemem s.bounds b.addr (b.size + kmHeaderBytes)).run byteStore
        { s.heap with mem := storeWord s.heap.mem 8 (b.addr + 8) 0 } = (some 0, heap') := hrun
    unfold kfree
    simp only [if_neg h0, hsub, hadd, hword, hsize, hrun', ne_eq, not_true_eq_false, if_false,
      herase]
  have hkept : ∀ d ∈ pre ++ post, ∀ x, d.addr ≤ x → x < d.block.extent.stop →
      heap'.mem x = s.heap.mem x := by
    intro d hd x hlo hhi
    obtain ⟨hdl, hdis⟩ := hrest d hd
    have hfree : heap'.mem x = storeWord s.heap.mem 8 (b.addr + 8) 0 x := by
      have heq : heap' = ((freemem s.bounds b.block.addr b.block.nbytes).run byteStore
          { s.heap with mem := storeWord s.heap.mem 8 (b.addr + 8) 0 }).2 := by rw [hrun]
      rw [heq]
      apply run_mem_of_not_onByte
      intro a ha hx
      rcases hcov a ha x hx with hc | hc
      · exact hbytes.not_covers_live (List.mem_map_of_mem hdl) hlo hhi hc
      · exact hinv.not_covers_live (List.mem_map_of_mem hd) hlo hhi hc
    rw [hfree]
    apply hzero
    have h₁ : d.block.extent.addr = d.addr := rfl
    have h₂ : b.block.extent.addr = b.addr := rfl
    simp only [MemBlk.Disjoint] at hdis
    omega
  have hsum : (s.live.map fun b => b.size + kmHeaderBytes).sum =
      b.size + kmHeaderBytes + ((pre ++ post).map fun b => b.size + kmHeaderBytes).sum := by
    rw [hlive]
    simp only [List.map_append, List.map_cons, List.sum_append, List.sum_cons]
    omega
  have hlen : s.live.length = (pre ++ post).length + 1 := by
    rw [hlive]
    simp
    omega
  have hlt := h.live_bytes_lt
  have hblocks := h.live_blocks
  have hbytesEq := h.live_bytes
  refine ⟨_, l', hkfree, hinv, haligned, fun d hd => h.live_aligned d (hrest d hd).1,
    fun d hd => h.sizes d (hrest d hd).1, fun d hd => ?_, fun ptr hptr => ?_, ?_, ?_,
    uadd_lt _ _, ?_⟩
  · have hd' := KmBlk.extent_bounds (h.sizes d (hrest d hd).1)
    exact h.headers_of_mem (hrest d hd).1 fun x hlo hhi => hkept d hd x hlo (by omega)
  · rcases List.mem_cons.mp hptr with rfl | hptr
    · refine ⟨by omega, ?_, ?_, fun d hd => ?_⟩
      · rw [hmagic]
        exact dvd_add (h.live_aligned b hb) (dvd_refl 8)
      · rw [hmagic]
        apply hwords
        · exact dvd_add (h.live_aligned b hb) (dvd_refl 8)
        · rw [loadWord_storeWord_self (by norm_num)]
          exact dvd_zero 8
      · have hdis := (hrest d hd).2
        have h₁ : d.block.extent.addr = d.addr := rfl
        have h₂ : b.block.extent.addr = b.addr := rfl
        rw [HandedOut, not_not, hmagic]
        simp only [MemBlk.Disjoint] at hdis
        omega
    · obtain ⟨hp0, h8, -, hout⟩ := h.stale ptr hptr
      refine ⟨hp0, h8, hwords _ h8 (h.stale_of_mem hb hptr hzero), fun d hd => ?_⟩
      exact hout d (hrest d hd).1
  · simp only
    rw [if_pos (by omega), usub_eq (by omega) (by omega)]
    omega
  · simp only
    rw [if_pos (by omega), usub_eq (by omega) (by omega)]
    omega
  · simp only
    rw [if_pos (by omega), usub_eq (by omega) (by omega), h.frees]
    have hfl := h.frees_lt
    unfold uadd ulongSize at *
    omega

/-- `getmem` leaves the headers of live blocks and the free words as they should be. -/
theorem getmem (h : s.KmInv l) {n : ℕ}
    (hfits : n ≠ 0 → ∀ b ∈ l.find? (fun b => roundmb n ≤ b.mlength),
      n + 7 < ulongSize ∧ roundmb n ≠ 8 ∧ b.mlength ≠ roundmb n + 8) :
    ∃ p heap' l', (Memory.getmem n).run byteStore s.heap = (some p, heap') ∧
      ByteInvariant s.bounds heap'
        (if p = 0 then s.live.map KmBlk.block else ⟨p, n⟩ :: s.live.map KmBlk.block) l' ∧
      (∀ b ∈ l', 8 ∣ b.addr) ∧ 8 ∣ p ∧ KeepsWords s.heap heap' ∧
      (p ≠ 0 → n ≠ 0 ∧ Taken n p l l') ∧
      ∀ b ∈ s.live, ∀ x, b.addr ≤ x → x < b.block.extent.stop → heap'.mem x = s.heap.mem x := by
  obtain ⟨p, heap', l', hrun, hinv, hcov, hserved, hal⟩ := h.bytes.getmem_spec hfits
  obtain ⟨haligned, hp8, hwords⟩ := hal h.aligned
  refine ⟨p, heap', l', hrun, hinv, haligned, hp8, hwords, hserved, fun b hb x hlo hhi => ?_⟩
  have heq : heap' = ((Memory.getmem n).run byteStore s.heap).2 := by rw [hrun]
  rw [heq]
  apply run_mem_of_not_onByte
  intro a ha hx
  exact h.bytes.not_covers_live (List.mem_map_of_mem hb) hlo hhi (hcov a ha x hx)

/-- A request that is not served changes nothing that matters. -/
theorem kmalloc_null (h : s.KmInv l) {heap' : ByteHeap} {l' : List MemBlk}
    (hinv : ByteInvariant s.bounds heap' (s.live.map KmBlk.block) l')
    (haligned : ∀ b ∈ l', 8 ∣ b.addr) (hwords : KeepsWords s.heap heap')
    (hkept : ∀ b ∈ s.live, ∀ x, b.addr ≤ x → x < b.block.extent.stop →
      heap'.mem x = s.heap.mem x) : KmInv { s with heap := heap' } l' := by
  refine { h with
    bytes := hinv, aligned := haligned, headers := fun b hb => ?_, stale := fun ptr hptr => ?_ }
  · have hext := KmBlk.extent_bounds (h.sizes b hb)
    exact h.headers_of_mem hb fun x hlo hhi => hkept b hb x hlo (by omega)
  · obtain ⟨h0, h8, hw, hout⟩ := h.stale ptr hptr
    exact ⟨h0, h8, hwords _ h8 hw, hout⟩

/-- A request that is served. -/
theorem kmalloc_taken (h : s.KmInv l) {n p : ℕ} {heap' : ByteHeap} {l' : List MemBlk}
    (hn : n + 39 < ulongSize)
    (hinv : ByteInvariant s.bounds heap' (⟨p, n + kmHeaderBytes⟩ :: s.live.map KmBlk.block) l')
    (haligned : ∀ b ∈ l', 8 ∣ b.addr) (hp : 8 ∣ p) (hwords : KeepsWords s.heap heap')
    (hkept : ∀ b ∈ s.live, ∀ x, b.addr ≤ x → x < b.block.extent.stop →
      heap'.mem x = s.heap.mem x) :
    KmInv { s with
      heap := heap'.setKmHeader p (n + kmHeaderBytes)
      liveBlocks := uadd s.liveBlocks 1
      liveBytes := uadd s.liveBytes (n + kmHeaderBytes)
      totalAllocs := uadd s.totalAllocs 1
      live := ⟨p, n⟩ :: s.live
      freed := s.freed.filter fun ptr =>
        ¬ HandedOut ⟨p, roundmb (n + kmHeaderBytes)⟩ ptr } l' := by
  have hk : kmHeaderBytes = 32 := rfl
  have hnew : (KmBlk.block ⟨p, n⟩).extent.addr = p ∧
      p + n + 32 ≤ (KmBlk.block ⟨p, n⟩).extent.stop ∧ 8 ∣ (KmBlk.block ⟨p, n⟩).extent.mlength :=
    KmBlk.extent_bounds hn
  have hdis : ∀ b ∈ s.live, b.block.extent.Disjoint (KmBlk.block ⟨p, n⟩).extent := by
    intro b hb
    have hpair := (List.pairwise_cons.mp hinv.heap.live_disjoint).1 _ (extent_mem hb)
    exact hpair.symm
  have hbytes : ByteInvariant s.bounds (heap'.setKmHeader p (n + kmHeaderBytes))
      ((KmBlk.mk p n :: s.live).map KmBlk.block) l' := by
    apply hinv.of_mem
    intro x hx
    apply setKmHeader_mem
    by_contra hin
    refine hinv.not_covers_live (b := ⟨p, n + kmHeaderBytes⟩) (by simp) (by simp only; omega) ?_ hx
    change x < (KmBlk.block ⟨p, n⟩).extent.stop
    omega
  have hlive : ∀ b ∈ s.live, loadWord (heap'.setKmHeader p (n + kmHeaderBytes)).mem 8 b.addr =
        b.size + kmHeaderBytes ∧
      loadWord (heap'.setKmHeader p (n + kmHeaderBytes)).mem 8 (b.addr + 8) = kmallocMagic := by
    intro b hb
    have hext := KmBlk.extent_bounds (h.sizes b hb)
    have hbp := hdis b hb
    simp only [MemBlk.Disjoint] at hbp
    apply h.headers_of_mem hb
    intro x hlo hhi
    rw [setKmHeader_mem heap' (by omega)]
    exact hkept b hb x hlo (by omega)
  have hinv' : KmInv { s with
      heap := heap'.setKmHeader p (n + kmHeaderBytes), live := ⟨p, n⟩ :: s.live, freed := []
      liveBlocks := s.live.length + 1
      liveBytes := n + kmHeaderBytes + (s.live.map fun b => b.size + kmHeaderBytes).sum
      totalAllocs := uadd s.totalAllocs 1 } l' := by
    refine ⟨hbytes, haligned, ?_, ?_, ?_, by simp, rfl, rfl, h.frees_lt, ?_⟩
    · exact List.forall_mem_cons.mpr ⟨hp, h.live_aligned⟩
    · exact List.forall_mem_cons.mpr ⟨hn, h.sizes⟩
    · refine List.forall_mem_cons.mpr ⟨?_, hlive⟩
      exact setKmHeader_words heap' (by omega)
    · have hfrees := h.frees
      have hblocks := h.live_blocks
      simp only [hfrees, hblocks]
      unfold uadd ulongSize
      omega
  have hlt := hinv'.live_bytes_lt
  simp only [List.length_cons, List.map_cons, List.sum_cons] at hlt
  have hblocks : uadd s.liveBlocks 1 = s.live.length + 1 := by
    rw [h.live_blocks]
    exact uadd_eq (by omega)
  have hsum : uadd s.liveBytes (n + kmHeaderBytes) =
      n + kmHeaderBytes + (s.live.map fun b => b.size + kmHeaderBytes).sum := by
    rw [h.live_bytes, uadd_eq (by omega)]
    omega
  rw [hblocks, hsum]
  refine { hinv' with stale := fun ptr hptr => ?_ }
  obtain ⟨hptr, hnot⟩ := List.mem_filter.mp hptr
  obtain ⟨h0, h8, hw, hout⟩ := h.stale ptr hptr
  have hnot' : ¬ HandedOut ⟨p, roundmb (n + kmHeaderBytes)⟩ ptr := by simpa using hnot
  refine ⟨h0, h8, ?_, List.forall_mem_cons.mpr ⟨hnot', hout⟩⟩
  have hkeptWord : loadWord (heap'.setKmHeader p (n + kmHeaderBytes)).mem 8 (magicAddr ptr) =
      loadWord heap'.mem 8 (magicAddr ptr) := by
    apply loadWord_congr
    intro x hx₁ hx₂
    apply setKmHeader_mem
    have hin : ¬ HandedOut (KmBlk.block ⟨p, n⟩).extent ptr := hnot'
    rw [HandedOut, not_not] at hin
    omega
  rw [hkeptWord]
  exact hwords _ h8 hw

theorem kmalloc_eq {n p : ℕ} {heap' : ByteHeap} (h0 : n ≠ 0)
    (hrun : (Memory.getmem (uadd n kmHeaderBytes)).run byteStore s.heap = (some p, heap')) :
    s.kmalloc n = if p = 0 then some (0, { s with heap := heap' })
      else
        some (uadd p kmHeaderBytes,
          { s with
            heap := heap'.setKmHeader p (uadd n kmHeaderBytes)
            liveBlocks := uadd s.liveBlocks 1
            liveBytes := uadd s.liveBytes (uadd n kmHeaderBytes)
            totalAllocs := uadd s.totalAllocs 1
            live := ⟨p, n⟩ :: s.live
            freed := s.freed.filter fun ptr =>
              ¬ HandedOut ⟨p, roundmb (uadd n kmHeaderBytes)⟩ ptr }) := by
  unfold kmalloc
  simp only [if_neg h0, hrun]

theorem kfree_of_bad {ptr : ℕ} (h0 : ptr ≠ 0)
    (hword : loadWord s.heap.mem 8 (magicAddr ptr) ≠ kmallocMagic) :
    s.kfree ptr = some { s with badFrees := uadd s.badFrees 1 } := by
  rw [magicAddr] at hword
  unfold kfree
  rw [if_neg h0]
  exact if_pos hword

/-- One step: it returns and keeps the invariant. -/
theorem step (h : s.KmInv l) {op : KmOp} (hop : s.Admitted op) :
    ∃ s' l', s.step op = some s' ∧ s'.KmInv l' := by
  have hk : kmHeaderBytes = 32 := rfl
  cases op with
  | kmalloc n =>
    by_cases h0 : n = 0
    · refine ⟨s, l, ?_, h⟩
      rw [KmState.step, h0, kmalloc, if_pos rfl, Option.map_some]
    · have hfits : uadd n kmHeaderBytes ≠ 0 →
          ∀ b ∈ l.find? (fun b => roundmb (uadd n kmHeaderBytes) ≤ b.mlength),
            uadd n kmHeaderBytes + 7 < ulongSize ∧ roundmb (uadd n kmHeaderBytes) ≠ 8 ∧
              b.mlength ≠ roundmb (uadd n kmHeaderBytes) + 8 := by
        intro ht b hb
        rw [← h.bytes.freeList_eq] at hb
        obtain ⟨hlt, hb8⟩ := hop ht b hb
        have hround := roundmb_bounds hlt
        rw [uadd_eq (by omega)]
        exact ⟨hlt, by omega, hb8⟩
      obtain ⟨p, heap', l', hrun, hinv, haligned, hp8, hwords, hserved, hkept⟩ := h.getmem hfits
      by_cases hp : p = 0
      · rw [if_pos hp] at hinv
        refine ⟨{ s with heap := heap' }, l', ?_, h.kmalloc_null hinv haligned hwords hkept⟩
        rw [KmState.step, kmalloc_eq h0 hrun, if_pos hp, Option.map_some]
      · rw [if_neg hp] at hinv
        -- the request was served, so it did not wrap
        obtain ⟨ht, -, b, -, -, hb, -⟩ := hserved hp
        have hlt := (hop ht b (by rw [h.bytes.freeList_eq]; exact hb)).1
        have htotal : uadd n kmHeaderBytes = n + kmHeaderBytes := uadd_eq (by omega)
        have htaken := h.kmalloc_taken (by omega) (htotal ▸ hinv) haligned hp8 hwords hkept
        refine ⟨_, l', ?_, htaken⟩
        rw [KmState.step, kmalloc_eq h0 hrun, if_neg hp, Option.map_some, htotal]
  | kfree ptr =>
    by_cases hp0 : ptr = 0
    · refine ⟨s, l, ?_, h⟩
      rw [KmState.step, kfree, if_pos hp0]
    · by_cases hword : loadWord s.heap.mem 8 (magicAddr ptr) = kmallocMagic
      · rcases hop with (hnull | ⟨b, hb, rfl⟩ | hfreed) | hbad
        · exact absurd hnull hp0
        · exact h.kfree_held hb
        · have h8 := (h.stale ptr hfreed).2.2.1
          rw [hword] at h8
          exact absurd h8 not_dvd_kmallocMagic
        · exact absurd hword hbad
      · exact ⟨_, l, kfree_of_bad hp0 hword, h.kfree_bad⟩
  | write x v => exact ⟨_, l, rfl, h.write v hop⟩

/-- The counters are right, and every freed pointer is rejected. -/
theorem accounted (h : s.KmInv l) : s.Accounted where
  live_blocks := h.live_blocks
  live_bytes := h.live_bytes
  frees := by
    have hlt := h.live_bytes_lt
    have hfl := h.frees_lt
    rw [h.frees, h.live_blocks]
    unfold usub uadd ulongSize at *
    omega
  rejects ptr hptr := by
    obtain ⟨h0, -, h8, -⟩ := h.stale ptr hptr
    refine kfree_of_bad h0 fun heq => ?_
    rw [heq] at h8
    exact not_dvd_kmallocMagic h8

end KmInv

theorem init_inv (h : ByteHeap) {lo hi : ℕ} (hhi : hi < ulongSize) (hlo : 0 < roundmb lo)
    (hlt : roundmb lo + 16 ≤ truncmb hi) : ∃ l, (init h lo hi).KmInv l := by
  refine ⟨_, ByteState.memInit_bytes h hhi hlo hlt, ?_, ?_, ?_, ?_, ?_, rfl, rfl, ?_, ?_⟩
  · intro b hb
    rw [List.mem_singleton.mp hb]
    exact dvd_roundmb lo
  all_goals simp [init, uadd]

/-- In every run whose requests leave room for the headers of the free list and whose
frees are of held, freed or unmarked pointers, the counters are right and freed pointers
are rejected. -/
theorem kmalloc_accounts (h : ByteHeap) {lo hi : ℕ} (hhi : hi < ulongSize)
    (hlo : 0 < roundmb lo) (hlt : roundmb lo + 16 ≤ truncmb hi)
    (hs : Reachable step Admitted (init h lo hi) s) :
    s.Accounted ∧ ∀ op, s.Admitted op → (s.step op).isSome := by
  have hinv : ∃ l, s.KmInv l := by
    refine hs.invariant (fun s => ∃ l, s.KmInv l) (init_inv h hhi hlo hlt) ?_
    rintro s op s' ⟨l, hl⟩ hop hstep
    obtain ⟨t, l', ht, hl'⟩ := hl.step hop
    rw [hstep] at ht
    cases ht
    exact ⟨l', hl'⟩
  obtain ⟨l, hl⟩ := hinv
  refine ⟨hl.accounted, fun op hop => ?_⟩
  obtain ⟨t, l', ht, -⟩ := hl.step hop
  rw [ht]
  rfl

/-- A block of 16 bytes is taken, freed and freed again. -/
theorem kmalloc_accounts_freed_twice :
    ∃ s, exec step (init ByteState.zeroHeap 4096 8192)
        [.kmalloc 16, .write 4130 7, .kfree 4128, .kfree 4128] = some s ∧
      s.badFrees = 1 ∧ 4128 ∈ s.freed ∧ s.Accounted := by
  have hrun : (exec step (init ByteState.zeroHeap 4096 8192)
      [.kmalloc 16, .write 4130 7, .kfree 4128, .kfree 4128]).map (fun s => (s.badFrees, s.freed)) =
        some (1, [4128]) := by decide
  obtain ⟨s, hs, hfacts⟩ := Option.map_eq_some_iff.mp hrun
  simp only [Prod.mk.injEq] at hfacts
  refine ⟨s, hs, hfacts.1, by simp [hfacts.2], (kmalloc_accounts ByteState.zeroHeap (by decide)
    (by decide) (by decide) (.exec .start ?_ hs)).1⟩
  have hroom : (init ByteState.zeroHeap 4096 8192).LeavesRoom 16 := by
    intro _
    decide
  have hheld : (exec step (init ByteState.zeroHeap 4096 8192) [.kmalloc 16]).map live =
      some [⟨4096, 16⟩] := by decide
  have hfreed : (exec step (init ByteState.zeroHeap 4096 8192)
      [.kmalloc 16, .write 4130 7, .kfree 4128]).map freed = some [4128] := by decide
  refine ⟨hroom, fun s₁ h₁ => ?_⟩
  simp only [exec, h₁, Option.bind_some, Option.map_some, Option.some.injEq] at hheld hfreed
  refine ⟨⟨⟨4096, 16⟩, by simp [hheld], by decide, by decide⟩, fun s₂ h₂ => ?_⟩
  have hlive : s₂.live = s₁.live := by
    cases h₂
    rfl
  simp only [h₂, Option.bind_some] at hfreed
  refine ⟨Or.inl (Or.inr (Or.inl ⟨⟨4096, 16⟩, by simp [hlive, hheld], rfl⟩)), fun s₃ h₃ => ?_⟩
  simp only [h₃, Option.bind_some, Option.map_some, Option.some.injEq] at hfreed
  exact ⟨Or.inl (Or.inr (Or.inr (by simp [hfreed]))), fun _ _ => trivial⟩

/-- A remainder of 8 bytes has its length written into the header of the next block: that
block is then freed as if it had 8 bytes. -/
theorem live_bytes_wrong_after_short_remainder :
    ¬ ∀ (h : ByteHeap) (lo hi : ℕ), hi < ulongSize → 0 < roundmb lo →
      roundmb lo + 16 ≤ truncmb hi →
        ∀ s, Reachable step WellBehaved (init h lo hi) s → s.Accounted := by
  intro hclaim
  let ops : List KmOp := [.kmalloc 16, .kmalloc 16, .kfree 4128, .kmalloc 8, .kfree 4176]
  have hrun : (exec step (init ByteState.zeroHeap 4096 8192) ops).map
      (fun s => (s.liveBytes, s.live)) = some (80, [⟨4096, 8⟩]) := by decide
  obtain ⟨s, hs, hfacts⟩ := Option.map_eq_some_iff.mp hrun
  simp only [Prod.mk.injEq] at hfacts
  have hok : EachStep step WellBehaved (init ByteState.zeroHeap 4096 8192) ops := by decide
  have hacc := hclaim ByteState.zeroHeap 4096 8192 (by decide) (by decide) (by decide) s
    (Reachable.start.exec hok hs)
  have hbytes := hacc.live_bytes
  rw [hfacts.1, hfacts.2] at hbytes
  exact absurd hbytes (by decide)

end KmState

end XinuRpi4.Memory
