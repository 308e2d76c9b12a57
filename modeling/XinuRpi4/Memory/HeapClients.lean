import XinuRpi4.Memory.KmallocAccounting

/-!
# Clients of `getmem` and of `kmalloc` on one heap

The two allocators share the free list. The blocks held by the clients of either are
disjoint from it and from each other, and the header in front of each `kmalloc` block
stays as it was filled in, whatever the clients write to their ranges.
-/

namespace XinuRpi4.Memory

open Foundation MemoryProgram

/-- The four words of a `struct km_header` as `kmalloc` leaves them. -/
def HeaderIntact (mem : ℕ → UInt8) (a total : ℕ) : Prop :=
  loadWord mem 8 a = total ∧ loadWord mem 8 (a + 8) = kmallocMagic ∧
    loadWord mem 8 (a + 16) = 0 ∧ loadWord mem 8 (a + 24) = 0

/-- The heap with the clients of `getmem` and of `kmalloc`. -/
structure HeapClients where
  km : KmState
  /-- ghost: the blocks handed out by `getmem` itself -/
  raw : List LiveBlk

inductive ClientOp
  | getmem (nbytes : ℕ)
  | freemem (b : LiveBlk)
  | kmalloc (nbytes : ℕ)
  | kfree (ptr : ℕ)
  | write (x : ℕ) (v : UInt8)

namespace HeapClients

def init (h : ByteHeap) (lo hi : ℕ) : HeapClients := ⟨KmState.init h lo hi, []⟩

/-- `getmem`; the answer `0` is the null pointer. -/
def getmem (s : HeapClients) (n : ℕ) : Option (ℕ × HeapClients) :=
  match (Memory.getmem n).run byteStore s.km.heap with
  | (none, _) => none
  | (some p, heap) =>
    some (p, { km := { s.km with heap }, raw := if p = 0 then s.raw else ⟨p, n⟩ :: s.raw })

/-- `freemem` of a block that a client holds. -/
def freemem (s : HeapClients) (b : LiveBlk) : Option HeapClients :=
  match (Memory.freemem s.km.bounds b.addr b.nbytes).run byteStore s.km.heap with
  | (none, _) => none
  | (some _, heap) => some { km := { s.km with heap }, raw := s.raw.erase b }

/-- `kmalloc`. -/
def kmalloc (s : HeapClients) (n : ℕ) : Option (ℕ × HeapClients) :=
  (s.km.kmalloc n).map fun r => (r.1, { s with km := r.2 })

def step (s : HeapClients) : ClientOp → Option HeapClients
  | .getmem n => (s.getmem n).map Prod.snd
  | .freemem b => s.freemem b
  | .kmalloc n => (s.kmalloc n).map Prod.snd
  | .kfree ptr => (s.km.kfree ptr).map fun km => { s with km }
  | .write x v => some { s with km.heap.mem := Function.update s.km.heap.mem x v }

/-- All blocks that are handed out. -/
def blocks (s : HeapClients) : List LiveBlk := s.raw ++ s.km.live.map KmBlk.block

def freeList (s : HeapClients) : List MemBlk := s.km.heap.freeList

/-- The first free block of at least `m` bytes. -/
def firstFit (s : HeapClients) (m : ℕ) : Option MemBlk := s.freeList.find? fun b => m ≤ b.mlength

/-- What clients do in a run: requests that are served without wrapping and leave room,
releases of what is held, and writes to what is held. -/
def Fits (s : HeapClients) : ClientOp → Prop
  | .getmem n => n ≠ 0 → ∀ b ∈ s.firstFit (roundmb n),
      n + 7 < ulongSize ∧ roundmb n ≠ 8 ∧ b.mlength ≠ roundmb n + 8
  | .freemem b => b ∈ s.raw
  | .kmalloc n => n ≠ 0 → uadd n kmHeaderBytes ≠ 0 →
      ∀ b ∈ s.firstFit (roundmb (uadd n kmHeaderBytes)),
        n + kmHeaderBytes + 7 < ulongSize ∧ b.mlength ≠ roundmb (n + kmHeaderBytes) + 8
  | .kfree ptr => ptr = 0 ∨ s.km.Holds ptr
  | .write x _ => Covers (extents s.raw) x ∨
      ∃ b ∈ s.km.live, b.addr + kmHeaderBytes ≤ x ∧ x < b.addr + kmHeaderBytes + b.size

structure ClientsInv (s : HeapClients) (l : List MemBlk) : Prop where
  bytes : ByteInvariant s.km.bounds s.km.heap s.blocks l
  aligned : ∀ b ∈ l, 8 ∣ b.addr
  blocks_aligned : ∀ b ∈ s.blocks, 8 ∣ b.addr
  sizes : ∀ b ∈ s.km.live, b.size + 39 < ulongSize
  headers : ∀ b ∈ s.km.live, HeaderIntact s.km.heap.mem b.addr (b.size + kmHeaderBytes)

end HeapClients

theorem setKmHeader_intact (h : ByteHeap) {a total : ℕ} (ht : total < ulongSize) :
    HeaderIntact (h.setKmHeader a total).mem a total := by
  have hzero : (0 : ℕ) < 256 ^ 8 := by decide
  obtain ⟨hsize, hmagic⟩ := setKmHeader_words h (a := a) ht
  refine ⟨hsize, hmagic, ?_, ?_⟩
  · simp only [ByteHeap.setKmHeader]
    rw [loadWord_storeWord_of_disjoint (by omega)]
    exact loadWord_storeWord_self hzero
  · exact loadWord_storeWord_self hzero

theorem HeaderIntact.congr {mem mem' : ℕ → UInt8} {a total : ℕ} (h : HeaderIntact mem a total)
    (hmem : ∀ x, a ≤ x → x < a + kmHeaderBytes → mem' x = mem x) : HeaderIntact mem' a total := by
  obtain ⟨h₁, h₂, h₃, h₄⟩ := h
  have hk : kmHeaderBytes = 32 := rfl
  refine ⟨(loadWord_congr fun x hlo hhi => ?_).trans h₁, (loadWord_congr fun x hlo hhi => ?_).trans
    h₂, (loadWord_congr fun x hlo hhi => ?_).trans h₃, (loadWord_congr fun x hlo hhi => ?_).trans h₄⟩
  all_goals exact hmem x (by omega) (by omega)

namespace ByteInvariant

variable {g : HeapBounds} {h h' : ByteHeap} {live : List LiveBlk} {l l' : List MemBlk}

/-- The order in which the live blocks are listed does not matter. -/
theorem of_perm {live' : List LiveBlk} (hi : ByteInvariant g h live l) (hp : live.Perm live') :
    ByteInvariant g h live' l :=
  ⟨hi.heap.of_perm hp, hi.granular,
    fun x hx => hi.live_room x ((hp.map LiveBlk.extent).mem_iff.mpr hx)⟩

/-- A call that keeps to free bytes leaves the live ones alone. -/
theorem live_kept {α : Type} {p : Prog α} (hi : ByteInvariant g h live l)
    (hcov : ∀ a ∈ p.trace byteStore h, ∀ x, OnByte x a.loc → Covers l x ∨ Covers l' x)
    (hi' : ByteInvariant g h' live l') {b : LiveBlk} (hb : b ∈ live) {x : ℕ}
    (hlo : b.addr ≤ x) (hhi : x < b.extent.stop) :
    (p.run byteStore h).2.mem x = h.mem x := by
  apply run_mem_of_not_onByte
  intro a ha hx
  rcases hcov a ha x hx with hc | hc
  · exact hi.not_covers_live hb hlo hhi hc
  · exact hi'.not_covers_live hb hlo hhi hc

end ByteInvariant

namespace HeapClients

variable {s s' : HeapClients} {l : List MemBlk} {n : ℕ}

theorem ClientsInv.freeList_eq (h : s.ClientsInv l) : s.freeList = l := h.bytes.freeList_eq

theorem mem_blocks {b : LiveBlk} :
    b ∈ s.blocks ↔ b ∈ s.raw ∨ ∃ d ∈ s.km.live, d.block = b := by
  simp [blocks]

/-- Headers of `kmalloc` blocks survive a call that leaves live bytes alone. -/
theorem ClientsInv.headers_of_kept (h : s.ClientsInv l) {mem : ℕ → UInt8} {d : KmBlk}
    (hd : d ∈ s.km.live)
    (hmem : ∀ x, d.addr ≤ x → x < d.block.extent.stop → mem x = s.km.heap.mem x) :
    HeaderIntact mem d.addr (d.size + kmHeaderBytes) := by
  have hk : kmHeaderBytes = 32 := rfl
  have hext := KmBlk.extent_bounds (h.sizes d hd)
  exact (h.headers d hd).congr fun x hlo hhi => hmem x hlo (by omega)

/-- `getmem` under the invariant: null, or a fresh block cut from the free list. -/
theorem ClientsInv.getmem (h : s.ClientsInv l) (hfits : s.Fits (.getmem n)) :
    ∃ p heap' l', (Memory.getmem n).run byteStore s.km.heap = (some p, heap') ∧
      ByteInvariant s.km.bounds heap' (if p = 0 then s.blocks else ⟨p, n⟩ :: s.blocks) l' ∧
      ((∀ b ∈ l', 8 ∣ b.addr) ∧ 8 ∣ p) ∧ (p ≠ 0 → n ≠ 0 ∧ Taken n p l l') ∧
      ∀ b ∈ s.blocks, ∀ x, b.addr ≤ x → x < b.extent.stop → heap'.mem x = s.km.heap.mem x := by
  obtain ⟨p, heap', l', hrun, hinv, hcov, hserved, hal⟩ := h.bytes.getmem_spec (n := n) (by
    rw [← h.freeList_eq]
    exact hfits)
  obtain ⟨haligned, hp8, -⟩ := hal h.aligned
  refine ⟨p, heap', l', hrun, hinv, ⟨haligned, hp8⟩, hserved, fun b hb x hlo hhi => ?_⟩
  have hcov' : ∀ a ∈ (Memory.getmem n).trace byteStore s.km.heap, ∀ x, OnByte x a.loc →
      Covers l x ∨ Covers l x := fun a ha x hx => Or.inl (hcov a ha x hx)
  have hkept := h.bytes.live_kept hcov' h.bytes hb hlo hhi
  rwa [hrun] at hkept

theorem getmem_of {p : ℕ} {heap' : ByteHeap}
    (hrun : (Memory.getmem n).run byteStore s.km.heap = (some p, heap')) :
    s.getmem n = some (p,
      { km := { s.km with heap := heap' }, raw := if p = 0 then s.raw else ⟨p, n⟩ :: s.raw }) := by
  rw [HeapClients.getmem, hrun]

theorem ClientsInv.step_getmem (h : s.ClientsInv l) (hfits : s.Fits (.getmem n)) :
    ∃ p s' l', s.getmem n = some (p, s') ∧ s'.ClientsInv l' ∧
      (p ≠ 0 → n ≠ 0 ∧ Taken n p l l') := by
  obtain ⟨p, heap', l', hrun, hinv, ⟨haligned, hp8⟩, hserved, hkept⟩ := h.getmem hfits
  refine ⟨p, _, l', getmem_of hrun, ?_, hserved⟩
  have hheaders : ∀ d ∈ s.km.live, HeaderIntact heap'.mem d.addr (d.size + kmHeaderBytes) :=
    fun d hd => h.headers_of_kept hd fun x hlo hhi =>
      hkept d.block (mem_blocks.mpr (Or.inr ⟨d, hd, rfl⟩)) x hlo hhi
  by_cases hp : p = 0
  · rw [if_pos hp] at hinv ⊢
    exact ⟨hinv, haligned, h.blocks_aligned, h.sizes, hheaders⟩
  · rw [if_neg hp] at hinv ⊢
    exact ⟨hinv, haligned, List.forall_mem_cons.mpr ⟨hp8, h.blocks_aligned⟩, h.sizes, hheaders⟩

/-- The request that `kmalloc` passes on does not wrap when it is served. -/
theorem ClientsInv.fits_total (h : s.ClientsInv l) (h0 : n ≠ 0) (hfits : s.Fits (.kmalloc n)) :
    s.Fits (.getmem (uadd n kmHeaderBytes)) ∧
      ∀ p l', Taken (uadd n kmHeaderBytes) p l l' → uadd n kmHeaderBytes ≠ 0 →
        n + 39 < ulongSize ∧ uadd n kmHeaderBytes = n + kmHeaderBytes := by
  have hk : kmHeaderBytes = 32 := rfl
  constructor
  · intro ht b hb
    obtain ⟨hlt, hb8⟩ := hfits h0 ht b hb
    have hround := roundmb_bounds hlt
    rw [uadd_eq (by omega)]
    exact ⟨hlt, by omega, hb8⟩
  · rintro p l' ⟨pre, b, post, -, hb, -⟩ ht
    have hlt := (hfits h0 ht b (by rw [firstFit, h.freeList_eq]; exact hb)).1
    exact ⟨by omega, uadd_eq (by omega)⟩

theorem kmalloc_of {r : ℕ × KmState} (h : s.km.kmalloc n = some r) :
    s.kmalloc n = some (r.1, { s with km := r.2 }) := by
  rw [HeapClients.kmalloc, h, Option.map_some]

/-- `kmalloc` under the invariant: null, or a fresh block with its header filled in. -/
theorem ClientsInv.step_kmalloc (h : s.ClientsInv l) (hfits : s.Fits (.kmalloc n)) :
    ∃ p s' l', s.kmalloc n = some (p, s') ∧ s'.ClientsInv l' ∧
      (p ≠ 0 → n + 39 < ulongSize ∧ ∃ a, p = a + kmHeaderBytes ∧
        s'.km.live = ⟨a, n⟩ :: s.km.live ∧ s'.raw = s.raw ∧ Taken (n + kmHeaderBytes) a l l') := by
  have hk : kmHeaderBytes = 32 := rfl
  by_cases h0 : n = 0
  · refine ⟨0, s, l, ?_, h, fun hne => absurd rfl hne⟩
    rw [HeapClients.kmalloc, KmState.kmalloc, if_pos h0, Option.map_some]
  obtain ⟨hfits', htotal⟩ := h.fits_total h0 hfits
  obtain ⟨a, heap', l', hrun, hinv, ⟨haligned, ha8⟩, hserved, hkept⟩ := h.getmem hfits'
  have hheaders : ∀ d ∈ s.km.live, HeaderIntact heap'.mem d.addr (d.size + kmHeaderBytes) :=
    fun d hd => h.headers_of_kept hd fun x hlo hhi =>
      hkept d.block (mem_blocks.mpr (Or.inr ⟨d, hd, rfl⟩)) x hlo hhi
  have hkm := KmState.KmInv.kmalloc_eq h0 hrun
  by_cases ha : a = 0
  · rw [if_pos ha] at hkm hinv
    refine ⟨0, { s with km := { s.km with heap := heap' } }, l', ?_,
      ⟨hinv, haligned, h.blocks_aligned, h.sizes, hheaders⟩, fun hne => absurd rfl hne⟩
    rw [HeapClients.kmalloc, hkm, Option.map_some]
  · rw [if_neg ha] at hkm hinv
    obtain ⟨ht, htaken⟩ := hserved ha
    obtain ⟨hn, heq⟩ := htotal a l' htaken ht
    rw [heq] at hkm hinv htaken
    have hin := hinv.heap.live_inside (LiveBlk.extent ⟨a, n + kmHeaderBytes⟩) (by simp)
    have hhi := hinv.heap.heapHi_lt
    have hnew := KmBlk.extent_bounds (b := ⟨a, n⟩) hn
    have hstop : (KmBlk.block ⟨a, n⟩).extent.stop =
        (LiveBlk.extent ⟨a, n + kmHeaderBytes⟩).stop := rfl
    have hadd : uadd a kmHeaderBytes = a + kmHeaderBytes := uadd_eq (by
      simp only at hnew
      omega)
    refine ⟨_, _, l', kmalloc_of hkm, ?_, fun _ => ⟨hn, a, hadd, rfl, rfl, htaken⟩⟩
    -- the header of the new block lies in the block
    have hperm : (LiveBlk.mk a (n + kmHeaderBytes) :: s.blocks).Perm
        (s.raw ++ (KmBlk.mk a n :: s.km.live).map KmBlk.block) := by
      rw [blocks, List.map_cons]
      exact List.perm_middle.symm
    have hheap : ∀ x, x < a ∨ a + 32 ≤ x →
        (heap'.setKmHeader a (n + kmHeaderBytes)).mem x = heap'.mem x :=
      fun x hx => setKmHeader_mem heap' hx
    refine ⟨(hinv.of_mem fun x hx => hheap x ?_).of_perm hperm, haligned, ?_, ?_, ?_⟩
    · by_contra hno
      refine hinv.not_covers_live (b := ⟨a, n + kmHeaderBytes⟩) (by simp) (by simp only; omega) ?_ hx
      simp only at hnew
      omega
    · intro b hb
      rcases List.mem_cons.mp (hperm.mem_iff.mpr hb) with rfl | hb
      · exact ha8
      · exact h.blocks_aligned b hb
    · exact List.forall_mem_cons.mpr ⟨hn, h.sizes⟩
    · refine List.forall_mem_cons.mpr ⟨setKmHeader_intact heap' (by omega), fun d hd => ?_⟩
      have hext := KmBlk.extent_bounds (h.sizes d hd)
      have hdis := (List.pairwise_cons.mp hinv.heap.live_disjoint).1 d.block.extent
        (List.mem_map_of_mem (mem_blocks.mpr (Or.inr ⟨d, hd, rfl⟩)))
      have haddr : (LiveBlk.extent ⟨a, n + kmHeaderBytes⟩).addr = a := rfl
      simp only [MemBlk.Disjoint] at hdis hnew
      refine (hheaders d hd).congr fun x hlo hhi => hheap x ?_
      omega

/-- Any part of the memory that is not free may be written. -/
theorem ClientsInv.of_mem (h : s.ClientsInv l) {mem : ℕ → UInt8}
    (hmem : ∀ x, Covers l x → mem x = s.km.heap.mem x)
    (hheaders : ∀ d ∈ s.km.live, HeaderIntact mem d.addr (d.size + kmHeaderBytes)) :
    ClientsInv { s with km.heap.mem := mem } l :=
  ⟨h.bytes.of_mem hmem, h.aligned, h.blocks_aligned, h.sizes, hheaders⟩

theorem ClientsInv.step_write (h : s.ClientsInv l) {x : ℕ} (v : UInt8)
    (hfits : s.Fits (.write x v)) :
    ClientsInv { s with km.heap.mem := Function.update s.km.heap.mem x v } l := by
  have hk : kmHeaderBytes = 32 := rfl
  -- the block whose byte is written, and the headers, which the byte is not part of
  obtain ⟨b, hb, hlo, hhi, hout⟩ : ∃ b ∈ s.blocks, b.addr ≤ x ∧ x < b.extent.stop ∧
      ∀ d ∈ s.km.live, x < d.addr ∨ d.addr + 32 ≤ x := by
    have hdis := h.bytes.heap.live_disjoint
    rw [blocks, extents, List.map_append, List.pairwise_append] at hdis
    rcases hfits with ⟨e, he, hlo, hhi⟩ | ⟨b, hb, hlo, hhi⟩
    · obtain ⟨b, hb, rfl⟩ := List.mem_map.mp he
      refine ⟨b, mem_blocks.mpr (Or.inl hb), hlo, hhi, fun d hd => ?_⟩
      have hbd := hdis.2.2 b.extent he d.block.extent
        (List.mem_map_of_mem (List.mem_map_of_mem hd))
      have hext := KmBlk.extent_bounds (h.sizes d hd)
      simp only [MemBlk.Disjoint] at hbd
      omega
    · have hext := KmBlk.extent_bounds (h.sizes b hb)
      refine ⟨b.block, mem_blocks.mpr (Or.inr ⟨b, hb, rfl⟩), by simp only [KmBlk.block]; omega,
        by omega, fun d hd => ?_⟩
      by_cases hdb : d = b
      · subst hdb
        exact Or.inr hlo
      · have hpair := hdis.2.1
        rw [List.map_map, List.pairwise_map] at hpair
        have : Std.Symm fun b d : KmBlk => (LiveBlk.extent ∘ KmBlk.block) b |>.Disjoint
            ((LiveBlk.extent ∘ KmBlk.block) d) := ⟨fun _ _ hbd => hbd.symm⟩
        have hbd : d.block.extent.Disjoint b.block.extent := hpair.forall hd hb hdb
        have hext' := KmBlk.extent_bounds (h.sizes d hd)
        simp only [MemBlk.Disjoint] at hbd
        omega
  apply h.of_mem
  · intro y hy
    apply Function.update_of_ne
    rintro rfl
    exact h.bytes.not_covers_live hb hlo hhi hy
  · intro d hd
    have hdx := hout d hd
    exact (h.headers d hd).congr fun y hlo hhi => Function.update_of_ne (by omega) ..

theorem ClientsInv.step_freemem (h : s.ClientsInv l) {b : LiveBlk} (hb : b ∈ s.raw) :
    ∃ s' l', s.freemem b = some s' ∧ s'.ClientsInv l' := by
  have hmem := mem_blocks.mpr (Or.inl hb)
  obtain ⟨heap', l', hrun, hinv, hcov, hal⟩ := h.bytes.freemem_spec hmem
  have haligned := (hal (List.forall_mem_cons.mpr ⟨h.blocks_aligned b hmem, h.aligned⟩)).1
  have herase : s.blocks.erase b = s.raw.erase b ++ s.km.live.map KmBlk.block :=
    List.erase_append_left _ hb
  have hsub : ∀ d ∈ s.km.live, d.block ∈ s.blocks.erase b := by
    intro d hd
    rw [herase]
    simp only [List.mem_append]
    exact Or.inr (List.mem_map_of_mem hd)
  have hrun' : s.freemem b = some { km := { s.km with heap := heap' }, raw := s.raw.erase b } := by
    rw [HeapClients.freemem, hrun]
  refine ⟨_, l', hrun', ?_, haligned, ?_, h.sizes, fun d hd => ?_⟩
  · rw [herase] at hinv
    exact hinv
  · intro d hd
    have hd' : d ∈ s.blocks.erase b := by
      rw [herase]
      exact hd
    exact h.blocks_aligned d (List.mem_of_mem_erase hd')
  · apply h.headers_of_kept hd
    intro x hlo hhi
    -- the block is live before and after
    have hkept : ((Memory.freemem s.km.bounds b.addr b.nbytes).run byteStore s.km.heap).2.mem x =
        s.km.heap.mem x := by
      apply run_mem_of_not_onByte
      intro a ha hx
      rcases hcov a ha x hx with hc | hc
      · exact h.bytes.not_covers_live (mem_blocks.mpr (Or.inr ⟨d, hd, rfl⟩)) hlo hhi hc
      · exact hinv.not_covers_live (hsub d hd) hlo hhi hc
    rwa [hrun] at hkept

/-- The words that `kfree` reads in front of a pointer that a client holds. -/
theorem ClientsInv.kfree_words (h : s.ClientsInv l) {b : KmBlk} (hb : b ∈ s.km.live) :
    usub (b.addr + kmHeaderBytes) kmHeaderBytes = b.addr ∧ uadd b.addr 8 = b.addr + 8 ∧
      loadWord s.km.heap.mem 8 (b.addr + 8) = kmallocMagic ∧
      loadWord s.km.heap.mem 8 b.addr = b.size + kmHeaderBytes := by
  have hk : kmHeaderBytes = 32 := rfl
  have hin := h.bytes.heap.live_inside b.block.extent
    (List.mem_map_of_mem (mem_blocks.mpr (Or.inr ⟨b, hb, rfl⟩)))
  have hhi := h.bytes.heap.heapHi_lt
  have hext := KmBlk.extent_bounds (h.sizes b hb)
  obtain ⟨hsize, hmagic, -⟩ := h.headers b hb
  refine ⟨?_, uadd_eq (by omega), hmagic, hsize⟩
  rw [usub_eq (by omega) (by omega)]
  omega

theorem ClientsInv.step_kfree (h : s.ClientsInv l) {b : KmBlk} (hb : b ∈ s.km.live) :
    ∃ km' l', s.km.kfree (b.addr + kmHeaderBytes) = some km' ∧
      ClientsInv { s with km := km' } l' := by
  have hk : kmHeaderBytes = 32 := rfl
  obtain ⟨hsub, hadd, hmagic, hsize⟩ := h.kfree_words hb
  have hmem : b.block ∈ s.blocks := mem_blocks.mpr (Or.inr ⟨b, hb, rfl⟩)
  have hext := KmBlk.extent_bounds (h.sizes b hb)
  have hdis := h.bytes.heap.live_disjoint
  rw [blocks, extents, List.map_append, List.pairwise_append] at hdis
  have hpair := hdis.2.1
  rw [List.map_map, List.pairwise_map] at hpair
  obtain ⟨pre, post, hlive, herase, heraseBlk, hrest⟩ := KmBlk.eraseP_eq hpair h.sizes hb
  -- the magic word is cleared first
  have hzero : ∀ x, x < b.addr ∨ b.block.extent.stop ≤ x →
      storeWord s.km.heap.mem 8 (b.addr + 8) 0 x = s.km.heap.mem x := by
    rintro x (hx | hx)
    · exact storeWord_of_lt (by omega)
    · exact storeWord_of_le (by omega)
  have hbytes : ByteInvariant s.km.bounds
      { s.km.heap with mem := storeWord s.km.heap.mem 8 (b.addr + 8) 0 } s.blocks l := by
    apply h.bytes.of_mem
    intro x hx
    apply hzero
    by_contra hin
    exact h.bytes.not_covers_live hmem (by simp only [KmBlk.block]; omega) (by omega) hx
  obtain ⟨heap', l', hrun, hinv, hcov, hal⟩ := hbytes.freemem_spec hmem
  have haligned := (hal (List.forall_mem_cons.mpr ⟨h.blocks_aligned _ hmem, h.aligned⟩)).1
  have hblocks : s.blocks.erase b.block = s.raw ++ (pre ++ post).map KmBlk.block := by
    have hnot : b.block ∉ s.raw := by
      intro hraw
      have hself := hdis.2.2 b.block.extent (List.mem_map_of_mem hraw) b.block.extent
        (List.mem_map_of_mem (List.mem_map_of_mem hb))
      simp only [MemBlk.Disjoint] at hself
      omega
    rw [blocks, List.erase_append_right _ hnot, heraseBlk]
  rw [hblocks] at hinv
  have hkfree : ∃ km', s.km.kfree (b.addr + kmHeaderBytes) = some km' ∧ km'.heap = heap' ∧
      km'.live = pre ++ post ∧ km'.bounds = s.km.bounds := by
    have hne : b.addr + kmHeaderBytes ≠ 0 := by omega
    have hblock : b.block.addr = b.addr ∧ b.block.nbytes = b.size + kmHeaderBytes := ⟨rfl, rfl⟩
    rw [hblock.1, hblock.2] at hrun
    simp only [KmState.kfree, if_neg hne, hsub, hadd, hmagic, hsize, ne_eq, not_true_eq_false,
      if_false, hrun]
    exact ⟨_, rfl, rfl, herase, rfl⟩
  obtain ⟨km', hkfree, hheap, hlive', hbounds⟩ := hkfree
  refine ⟨km', l', hkfree, ?_, haligned, ?_, ?_, fun d hd => ?_⟩
  · change ByteInvariant km'.bounds km'.heap (s.raw ++ km'.live.map KmBlk.block) l'
    rw [hbounds, hheap, hlive']
    exact hinv
  · intro d hd
    change d ∈ s.raw ++ km'.live.map KmBlk.block at hd
    rw [hlive', ← hblocks] at hd
    exact h.blocks_aligned d (List.mem_of_mem_erase hd)
  · intro d hd
    change d ∈ km'.live at hd
    rw [hlive'] at hd
    exact h.sizes d (hrest d hd).1
  · change d ∈ km'.live at hd
    change HeaderIntact km'.heap.mem d.addr _
    rw [hlive'] at hd
    obtain ⟨hds, hdis'⟩ := hrest d hd
    have hext' := KmBlk.extent_bounds (h.sizes d hds)
    simp only [MemBlk.Disjoint] at hdis'
    rw [hheap]
    apply h.headers_of_kept hds
    intro x hlo hhi
    have hkept : ((Memory.freemem s.km.bounds b.block.addr b.block.nbytes).run byteStore
        { s.km.heap with mem := storeWord s.km.heap.mem 8 (b.addr + 8) 0 }).2.mem x =
          storeWord s.km.heap.mem 8 (b.addr + 8) 0 x := by
      apply run_mem_of_not_onByte
      intro a ha hx
      rcases hcov a ha x hx with hc | hc
      · exact h.bytes.not_covers_live (mem_blocks.mpr (Or.inr ⟨d, hds, rfl⟩)) hlo hhi hc
      · exact hinv.not_covers_live
          (List.mem_append_right _ (List.mem_map_of_mem hd)) hlo hhi hc
    rw [hrun] at hkept
    exact hkept.trans (hzero x (by omega))

/-- Every call returns, and the invariant is kept. -/
theorem ClientsInv.step (h : s.ClientsInv l) {op : ClientOp} (hop : s.Fits op) :
    ∃ s' l', s.step op = some s' ∧ s'.ClientsInv l' := by
  cases op with
  | getmem n =>
    obtain ⟨p, s', l', hget, hinv, -⟩ := h.step_getmem hop
    exact ⟨s', l', by rw [HeapClients.step, hget, Option.map_some], hinv⟩
  | freemem b => exact h.step_freemem hop
  | kmalloc n =>
    obtain ⟨p, s', l', hget, hinv, -⟩ := h.step_kmalloc hop
    exact ⟨s', l', by rw [HeapClients.step, hget, Option.map_some], hinv⟩
  | kfree ptr =>
    rcases hop with rfl | ⟨b, hb, rfl⟩
    · refine ⟨s, l, ?_, h⟩
      rw [HeapClients.step, KmState.kfree, if_pos rfl, Option.map_some]
    · obtain ⟨km', l', hfree, hinv⟩ := h.step_kfree hb
      exact ⟨_, l', by rw [HeapClients.step, hfree, Option.map_some], hinv⟩
  | write x v => exact ⟨_, l, rfl, h.step_write v hop⟩

theorem init_inv (h : ByteHeap) {lo hi : ℕ} (hhi : hi < ulongSize) (hlo : 0 < roundmb lo)
    (hlt : roundmb lo + 16 ≤ truncmb hi) : ∃ l, (init h lo hi).ClientsInv l := by
  refine ⟨_, ByteState.memInit_bytes h hhi hlo hlt, ?_, ?_, ?_, ?_⟩
  · intro b hb
    rw [List.mem_singleton.mp hb]
    exact dvd_roundmb lo
  all_goals simp [init, KmState.init, blocks]

end HeapClients

end XinuRpi4.Memory
