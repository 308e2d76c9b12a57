import XinuRpi4.Foundation.ByteWords
import XinuRpi4.Memory.HeapInvariant

/-!
# The allocator over bytes

The same `getmem` and `freemem`, run over a byte memory that the clients write
too. `struct memblk` takes 16 bytes while the granularity is 8, so the second
word of a header may lie behind an 8-byte block. Headers that are at least 16
bytes apart behave like cells of their own; this carries the invariant of the
free list over to bytes as long as no block shorter than a header arises.
-/

namespace XinuRpi4.Memory

open Foundation MemoryProgram

/-- Offset of a field in `struct memblk`. -/
def Field.offset : Field → ℕ
  | .mnext => 0
  | .mlength => 8

/-- `memlist_head`, a variable of the allocator, and the memory of the heap. -/
structure ByteHeap where
  head : Field → ℕ
  mem : ℕ → UInt8

/-- Headers of blocks are read and written in place. -/
def byteStore : Store ByteHeap Loc ℕ where
  get h
    | (.memlistHead, f) => h.head f
    | (.blk a, f) => loadWord h.mem 8 (a + f.offset)
  set h
    | (.memlistHead, f), v => { h with head := Function.update h.head f v }
    | (.blk a, f), v => { h with mem := storeWord h.mem 8 (a + f.offset) v }

/-- The header words that a byte memory holds. -/
def ByteHeap.view (h : ByteHeap) : Loc → ℕ := byteStore.get h

/-- No two of the headers overlap. -/
def Apart (hs : List Header) : Prop :=
  ∀ a b, .blk a ∈ hs → .blk b ∈ hs → a = b ∨ a + 16 ≤ b ∨ b + 16 ≤ a

theorem Field.offset_disjoint {f f' : Field} (h : f ≠ f') :
    f.offset + 8 ≤ f'.offset ∨ f'.offset + 8 ≤ f.offset := by
  cases f <;> cases f' <;> simp_all [Field.offset]

theorem Field.offset_le (f : Field) : f.offset ≤ 8 := by
  cases f <;> simp [Field.offset]

theorem byteStore_separates {hs : List Header} (h : Apart hs) :
    byteStore.Separates {loc | loc.1 ∈ Header.memlistHead :: hs} {v | v < ulongSize} where
  get_set_self := by
    rintro m ⟨hd, f⟩ - v hv
    cases hd with
    | memlistHead => exact Function.update_self ..
    | blk a => exact loadWord_storeWord_self hv
  get_set_of_ne := by
    rintro m ⟨hd, f⟩ hl ⟨hd', f'⟩ hl' v hne
    cases hd with
    | memlistHead =>
      cases hd' with
      | memlistHead =>
        have hf : f' ≠ f := by
          rintro rfl
          exact hne rfl
        exact Function.update_of_ne hf ..
      | blk b => rfl
    | blk a =>
      cases hd' with
      | memlistHead => rfl
      | blk b =>
        apply loadWord_storeWord_of_disjoint
        have ha : Header.blk a ∈ hs := by simpa using hl
        have hb : Header.blk b ∈ hs := by simpa using hl'
        have := f.offset_le
        have := f'.offset_le
        rcases h a b ha hb with rfl | hab | hab
        · have hf : f ≠ f' := by
            rintro rfl
            exact hne rfl
          have := Field.offset_disjoint hf
          omega
        · omega
        · omega

/-- A program whose cell run keeps to headers that are apart does the same over bytes. -/
theorem run_bytes {α : Type} (p : Prog α) {hs : List Header} (happart : Apart hs) (h : ByteHeap)
    (hfoot : ∀ a ∈ p.trace headerCells h.view, InFootprint hs a) :
    (p.run byteStore h).1 = (p.run headerCells h.view).1 ∧
      (∀ hd ∈ Header.memlistHead :: hs, ∀ f,
        (p.run byteStore h).2.view (hd, f) = (p.run headerCells h.view).2 (hd, f)) ∧
      p.trace byteStore h = p.trace headerCells h.view := by
  obtain ⟨hval, hag, htrace⟩ := MemoryProgram.run_agrees (byteStore_separates happart) p h h.view
    (fun l _ => rfl) (fun a ha => (hfoot a ha).1) (fun a ha => (hfoot a ha).2)
  exact ⟨hval, fun hd hhd f => hag (hd, f) hhd, htrace⟩

/-- The bytes of a header word; `memlist_head` lies outside the heap. -/
def OnByte (x : ℕ) : Loc → Prop
  | (.memlistHead, _) => False
  | (.blk a, f) => a + f.offset ≤ x ∧ x < a + f.offset + 8

theorem OnByte.bounds {x : ℕ} {loc : Loc} (h : OnByte x loc) :
    ∃ a, loc.1 = .blk a ∧ a ≤ x ∧ x < a + 16 := by
  obtain ⟨hd, f⟩ := loc
  cases hd with
  | memlistHead => exact h.elim
  | blk a =>
    have := f.offset_le
    obtain ⟨hlo, hhi⟩ := h
    exact ⟨a, rfl, by omega, by omega⟩

/-- A byte on which no written word lies keeps its value. -/
theorem run_mem_of_not_onByte {α : Type} (p : Prog α) (h : ByteHeap) {x : ℕ}
    (hx : ∀ a ∈ p.trace byteStore h, ¬ OnByte x a.loc) :
    (p.run byteStore h).2.mem x = h.mem x := by
  apply run_frame byteStore p h (fun h => h.mem x)
  rintro ⟨hd, f⟩ v hw h'
  have hnot := hx _ hw
  cases hd with
  | memlistHead => rfl
  | blk a => exact if_neg hnot

theorem Represents.congr {c c' : Loc → ℕ} {l : List MemBlk} (h : Represents c l)
    (hc : ∀ hd ∈ Header.memlistHead :: l.map MemBlk.header, ∀ f, c' (hd, f) = c (hd, f)) :
    Represents c' l where
  chain := by
    apply (Segment.congr _).mpr h.chain
    intro hd hhd
    rw [nextOf, nextOf, hc hd hhd]
  lengths b hb := by
    rw [hc b.header (List.mem_cons_of_mem _ (List.mem_map_of_mem hb))]
    exact h.lengths b hb

theorem HeapInvariant.congr {g : HeapBounds} {c c' : Loc → ℕ} {live : List LiveBlk}
    {l : List MemBlk} (h : HeapInvariant g c live l)
    (hc : ∀ hd ∈ Header.memlistHead :: l.map MemBlk.header, ∀ f, c' (hd, f) = c (hd, f)) :
    HeapInvariant g c' live l :=
  { h with
    represents := h.represents.congr hc
    free_bytes := (hc _ List.mem_cons_self _).trans h.free_bytes }

/-- The blocks on the list that starts at `curr`. -/
def freeBlocks : ℕ → ℕ → Prog (List MemBlk)
  | 0, _ => return []
  | fuel + 1, curr =>
    if curr = 0 then return []
    else do
      let length ← mlength (.blk curr)
      let next ← mnext (.blk curr)
      let rest ← freeBlocks fuel next
      return ⟨curr, length⟩ :: rest

/-- The free list that a walk from `memlist_head` finds. -/
def ByteHeap.freeList (h : ByteHeap) : List MemBlk :=
  ((mnext .memlistHead >>= freeBlocks ulongSize).run byteStore h).1

theorem freeBlocks_run {St : Type} {store : Store St Loc ℕ} {st : St} {l : List MemBlk}
    (fuel : ℕ) {curr : ℕ}
    (hseg : Segment (nextOf (store.get st)) (ptr curr) (l.map MemBlk.header) none)
    (hlen : ∀ b ∈ l, store.get st (b.header, .mlength) = b.mlength) (hfuel : l.length < fuel) :
    (freeBlocks fuel curr).run store st = (l, st) := by
  induction l generalizing fuel curr with
  | nil =>
    obtain ⟨fuel, rfl⟩ : ∃ k, fuel = k + 1 := ⟨fuel - 1, by omega⟩
    have h0 : curr = 0 := by simpa using hseg
    simp [freeBlocks, h0]
  | cons b l ih =>
    obtain ⟨fuel, rfl⟩ : ∃ k, fuel = k + 1 := ⟨fuel - 1, by omega⟩
    obtain ⟨hcurr, hseg⟩ := hseg
    obtain ⟨hne, hb⟩ := ptr_eq_some.mp hcurr
    have hba : b.addr = curr := by simpa [MemBlk.header] using hb
    subst hba
    have hblen : store.get st (.blk b.addr, .mlength) = b.mlength := hlen b (by simp)
    have hrest := ih fuel hseg (fun x hx => hlen x (by simp [hx])) (by simpa using hfuel)
    rw [MemBlk.header] at hrest
    simp only [freeBlocks, mlength, mnext, if_neg hne, run_bind, run_fetch, hblen, hrest, run_pure]

theorem freeList_eq {h : ByteHeap} {l : List MemBlk} (hrep : Represents h.view l)
    (hlen : l.length < ulongSize) : h.freeList = l := by
  have hrun := freeBlocks_run ulongSize hrep.chain.2 hrep.lengths hlen
  rw [ByteHeap.freeList, mnext, run_fetch_bind]
  exact congrArg Prod.fst hrun

/-- The request of `n` bytes is served at `p`, by the first block that is large enough. -/
def Taken (n p : ℕ) (l l' : List MemBlk) : Prop :=
  ∃ pre b post, l = pre ++ b :: post ∧ l.find? (fun b => roundmb n ≤ b.mlength) = some b ∧
    p = b.addr ∧ roundmb n ≤ b.mlength ∧ l' = pre ++ cut (roundmb n) b ++ post

/-- The free list of a byte memory, with no block shorter than a header. -/
structure ByteInvariant (g : HeapBounds) (h : ByteHeap) (live : List LiveBlk) (l : List MemBlk) :
    Prop where
  heap : HeapInvariant g h.view live l
  granular : ∀ b ∈ l, 16 ≤ b.mlength ∧ 8 ∣ b.mlength
  live_room : ∀ x ∈ extents live, 16 ≤ x.mlength

theorem dvd_roundmb (n : ℕ) : 8 ∣ roundmb n := Nat.dvd_mul_left 8 _

/-- Headers of disjoint blocks that have room for them are apart. -/
theorem apart_headers {l : List MemBlk} (hroom : ∀ b ∈ l, 16 ≤ b.mlength)
    (hdis : l.Pairwise MemBlk.Disjoint) : Apart (l.map MemBlk.header) := by
  have hne : ∀ x ∈ l, ∀ y ∈ l, x ≠ y → x.Disjoint y := by
    have : Std.Symm MemBlk.Disjoint := ⟨fun _ _ h => h.symm⟩
    exact fun x hx y hy hxy => hdis.forall hx hy hxy
  intro a b ha hb
  obtain ⟨x, hx, hxa⟩ := List.mem_map.mp ha
  obtain ⟨y, hy, hyb⟩ := List.mem_map.mp hb
  cases hxa
  cases hyb
  by_cases hxy : x = y
  · exact Or.inl (congrArg MemBlk.addr hxy)
  · have := hne x hx y hy hxy
    have := hroom x hx
    have := hroom y hy
    simp only [MemBlk.Disjoint, MemBlk.stop] at *
    omega

theorem Apart.subset {hs hs' : List Header} (h : Apart hs) (hsub : hs' ⊆ hs) : Apart hs' :=
  fun a b ha hb => h a b (hsub ha) (hsub hb)

theorem Coalesced.pairwise_disjoint {g : HeapBounds} {l : List MemBlk} (h : Coalesced g l) :
    l.Pairwise MemBlk.Disjoint :=
  h.separated.imp fun hab => Or.inl hab.le

/-- Both words of a header lie in the block when the block has room for them. -/
theorem covers_of_onByte {l : List MemBlk} (hroom : ∀ b ∈ l, 16 ≤ b.mlength) {loc : Loc} {x : ℕ}
    (hloc : loc.1 ∈ Header.memlistHead :: l.map MemBlk.header) (hx : OnByte x loc) :
    Covers l x := by
  obtain ⟨a, hla, hlo, hhi⟩ := hx.bounds
  rw [hla] at hloc
  obtain ⟨b, hb, hba⟩ := List.mem_map.mp (by simpa using hloc : Header.blk a ∈ l.map MemBlk.header)
  rw [MemBlk.header, Header.blk.injEq] at hba
  have := hroom b hb
  exact ⟨b, hb, by omega, by simp only [MemBlk.stop]; omega⟩

/-- A link of the free list is null or the address of a block. -/
theorem Represents.dvd_mnext {c : Loc → ℕ} {l : List MemBlk} (h : Represents c l)
    (halign : ∀ b ∈ l, 8 ∣ b.addr) {b : MemBlk} (hb : b ∈ l) : 8 ∣ c (b.header, .mnext) := by
  obtain ⟨pre, post, rfl⟩ := List.append_of_mem hb
  have hsplit : Represents c ((pre ++ [b]) ++ post) := by simpa using h
  have hnext := hsplit.next_eq
  rw [lastHeader_concat] at hnext
  cases post with
  | nil =>
    have h0 : c (b.header, .mnext) = 0 := by simpa [nextOf] using hnext
    rw [h0]
    exact dvd_zero 8
  | cons d post =>
    obtain ⟨-, hd⟩ := ptr_eq_some.mp hnext
    have hda : d.addr = c (b.header, .mnext) := by simpa [MemBlk.header] using hd
    rw [← hda]
    exact halign d (by simp)

theorem dvd_of_header {l : List MemBlk} (h : ∀ b ∈ l, 8 ∣ b.addr) (a : ℕ)
    (ha : .blk a ∈ l.map MemBlk.header) : 8 ∣ a := by
  obtain ⟨b, hb, hba⟩ := List.mem_map.mp ha
  cases hba
  exact h b hb

theorem aligned_cut {m : ℕ} {b d : MemBlk} (hb : 8 ∣ b.addr) (hm : 8 ∣ m) (hd : d ∈ cut m b) :
    8 ∣ d.addr := by
  unfold cut at hd
  split_ifs at hd with heq
  · simp at hd
  · rw [List.mem_singleton.mp hd]
    exact dvd_add hb hm

/-- Aligned words that hold multiples of 8 keep doing so. -/
def KeepsWords (h h' : ByteHeap) : Prop :=
  ∀ w, 8 ∣ w → 8 ∣ loadWord h.mem 8 w → 8 ∣ loadWord h'.mem 8 w

/-- A call that writes to the headers of its free list, all of them aligned, leaves
multiples of 8 in the words it writes. -/
theorem keepsWords_run {α : Type} {p : Prog α} {h : ByteHeap} {r : α} {c' : Loc → ℕ}
    {l' : List MemBlk} {hs : List Header} (happart : Apart hs)
    (hfoot : ∀ a ∈ p.trace headerCells h.view, InFootprint hs a)
    (hrun : p.run headerCells h.view = (r, c')) (hrep : Represents c' l')
    (hgran : ∀ b ∈ l', 16 ≤ b.mlength ∧ 8 ∣ b.mlength) (huntouched : Untouched h.view c' l')
    (halign' : ∀ b ∈ l', 8 ∣ b.addr) (halign : ∀ a, .blk a ∈ hs → 8 ∣ a) :
    KeepsWords h (p.run byteStore h).2 := by
  obtain ⟨-, hag, htrace⟩ := run_bytes p happart h hfoot
  intro w hw hold
  by_cases hon : ∃ a f, Header.blk a ∈ hs ∧ a + Field.offset f = w
  · obtain ⟨a, f, ha, rfl⟩ := hon
    have hview : loadWord (p.run byteStore h).2.mem 8 (a + f.offset) = c' (.blk a, f) := by
      have heq := hag (.blk a) (List.mem_cons_of_mem _ ha) f
      rw [hrun] at heq
      exact heq
    rw [hview]
    by_cases hmem : Header.blk a ∈ l'.map MemBlk.header
    · obtain ⟨b, hb, hba⟩ := List.mem_map.mp hmem
      rw [← hba]
      cases f with
      | mnext => exact hrep.dvd_mnext halign' hb
      | mlength =>
        rw [hrep.lengths b hb]
        exact (hgran b hb).2
    · rw [huntouched (.blk a) (by simpa using hmem) f]
      exact hold
  · have hkept : loadWord (p.run byteStore h).2.mem 8 w = loadWord h.mem 8 w := by
      apply loadWord_congr
      intro x hlo hhi
      apply run_mem_of_not_onByte
      rw [htrace]
      rintro acc hacc hx
      obtain ⟨hloc, -⟩ := hfoot acc hacc
      obtain ⟨⟨hd, f⟩, hacc'⟩ : ∃ loc, acc.loc = loc := ⟨_, rfl⟩
      rw [hacc'] at hx hloc
      cases hd with
      | memlistHead => exact hx
      | blk a =>
        have ha : Header.blk a ∈ hs := by simpa using hloc
        have h8 := halign a ha
        have hf8 : 8 ∣ f.offset := by cases f <;> simp [Field.offset]
        obtain ⟨hx₁, hx₂⟩ := hx
        exact hon ⟨a, f, ha, by omega⟩
    rw [hkept]
    exact hold

namespace ByteInvariant

variable {g : HeapBounds} {h : ByteHeap} {live : List LiveBlk} {l : List MemBlk}

theorem room (hi : ByteInvariant g h live l) : ∀ b ∈ l, 16 ≤ b.mlength :=
  fun b hb => (hi.granular b hb).1

theorem freeList_eq (hi : ByteInvariant g h live l) : h.freeList = l :=
  Memory.freeList_eq hi.heap.represents hi.heap.length_lt

theorem not_covers_live (hi : ByteInvariant g h live l) {b : LiveBlk} (hb : b ∈ live) {x : ℕ}
    (hlo : b.addr ≤ x) (hhi : x < b.extent.stop) : ¬ Covers l x := by
  rintro ⟨d, hd, hdlo, hdhi⟩
  have := hi.heap.free_live_disjoint d hd b.extent (List.mem_map_of_mem hb)
  simp only [MemBlk.Disjoint, LiveBlk.extent, MemBlk.stop] at *
  omega

/-- Bytes outside the free blocks do not matter. -/
theorem of_mem (hi : ByteInvariant g h live l) {mem : ℕ → UInt8}
    (hmem : ∀ x, Covers l x → mem x = h.mem x) : ByteInvariant g { h with mem } live l := by
  refine ⟨hi.heap.congr fun hd hhd f => ?_, hi.granular, hi.live_room⟩
  cases hd with
  | memlistHead => rfl
  | blk a =>
    apply loadWord_congr
    intro y hy₁ hy₂
    have hon : OnByte y (.blk a, f) := ⟨hy₁, hy₂⟩
    exact hmem y (covers_of_onByte hi.room hhd hon)

/-- What a call does to the cells it does to the bytes, if it keeps to headers
that are apart. -/
theorem of_cells {α : Type} {p : Prog α} {r : α} {c' : Loc → ℕ} {live' : List LiveBlk}
    {l' : List MemBlk} {hs : List Header} (happart : Apart hs)
    (hfoot : ∀ a ∈ p.trace headerCells h.view, InFootprint hs a)
    (hrun : p.run headerCells h.view = (r, c')) (hinv : HeapInvariant g c' live' l')
    (hsub : l'.map MemBlk.header ⊆ hs) (hgran : ∀ b ∈ l', 16 ≤ b.mlength ∧ 8 ∣ b.mlength)
    (hlive : ∀ x ∈ extents live', 16 ≤ x.mlength) :
    ∃ h', p.run byteStore h = (r, h') ∧ ByteInvariant g h' live' l' ∧
      ∀ a ∈ p.trace byteStore h, a.loc.1 ∈ Header.memlistHead :: hs := by
  obtain ⟨hval, hag, htrace⟩ := run_bytes p happart h hfoot
  rw [hrun] at hval hag
  refine ⟨(p.run byteStore h).2, Prod.ext hval rfl, ?_, ?_⟩
  · refine ⟨hinv.congr fun hd hhd f => hag hd ?_ f, hgran, hlive⟩
    exact List.cons_subset_cons _ hsub hhd
  · rw [htrace]
    exact fun a ha => (hfoot a ha).1

/-- The headers that serving a request touches, before and behind the cut. -/
theorem apart_cut {pre post : List MemBlk} {b : MemBlk} {m : ℕ}
    (hl : Coalesced g (pre ++ b :: post)) (hroom : ∀ x ∈ pre ++ b :: post, 16 ≤ x.mlength)
    (hm : 16 ≤ m) (hfit : m ≤ b.mlength) (hcut : ∀ d ∈ cut m b, 16 ≤ d.mlength) :
    Apart ((pre ++ b :: (cut m b ++ post)).map MemBlk.header) := by
  -- the front of `b` keeps the header of `b`
  have hfront : (pre ++ b :: (cut m b ++ post)).map MemBlk.header =
      (pre ++ ⟨b.addr, m⟩ :: (cut m b ++ post)).map MemBlk.header := by
    simp [MemBlk.header]
  rw [hfront]
  obtain ⟨-, hpre, hpost⟩ := hl.pairwise_middle
  have hcoal : Coalesced g (pre ++ (cut m b ++ post)) := by
    simpa using hl.cut hfit
  have hmemCut : ∀ d ∈ cut m b, b.addr + m = d.addr := by
    intro d hd
    unfold cut at hd
    split_ifs at hd with heq
    · simp at hd
    · rw [List.mem_singleton.mp hd]
  apply apart_headers
  · intro x hx
    simp only [List.mem_append, List.mem_cons] at hx
    rcases hx with hx | rfl | hx | hx
    · exact hroom x (by simp [hx])
    · exact hm
    · exact hcut x hx
    · exact hroom x (by simp [hx])
  · obtain ⟨h₁, h₂, h₃⟩ := List.pairwise_append.mp hcoal.pairwise_disjoint
    refine List.pairwise_append.mpr ⟨h₁, List.pairwise_cons.mpr ⟨?_, h₂⟩, ?_⟩
    · intro x hx
      rcases List.mem_append.mp hx with hx | hx
      · exact Or.inl (hmemCut x hx).le
      · have := hpost x hx
        simp only [MemBlk.Disjoint, MemBlk.stop] at *
        omega
    · intro x hx y hy
      rcases List.mem_cons.mp hy with rfl | hy
      · exact Or.inl (hpre x hx).le
      · exact h₃ x hx y hy

/-- `getmem` over bytes, for a request that keeps the header size. -/
theorem getmem_spec (hi : ByteInvariant g h live l) {n : ℕ}
    (hfits : n ≠ 0 → ∀ b ∈ l.find? (fun b => roundmb n ≤ b.mlength),
      n + 7 < ulongSize ∧ roundmb n ≠ 8 ∧ b.mlength ≠ roundmb n + 8) :
    ∃ p h' l', (getmem n).run byteStore h = (some p, h') ∧
      ByteInvariant g h' (if p = 0 then live else ⟨p, n⟩ :: live) l' ∧
      (∀ a ∈ (getmem n).trace byteStore h, ∀ x, OnByte x a.loc → Covers l x) ∧
      (p ≠ 0 → n ≠ 0 ∧ Taken n p l l') ∧
      ((∀ b ∈ l, 8 ∣ b.addr) → (∀ b ∈ l', 8 ∣ b.addr) ∧ 8 ∣ p ∧ KeepsWords h h') := by
  have hapart := apart_headers hi.room hi.heap.coalesced.pairwise_disjoint
  by_cases h0 : n = 0
  · refine ⟨0, h, l, by simp [getmem, h0], by simpa using hi, by simp [getmem, h0], by simp,
      fun hl => ?_⟩
    exact ⟨hl, dvd_zero 8, fun _ _ hold => hold⟩
  · rcases exists_first_fit l (roundmb n) with hsmall | ⟨pre, b, post, rfl, hsmall, hfit⟩
    · obtain ⟨hrun, hfoot⟩ := getmem_run_of_small hi.heap.represents h0 hsmall hi.heap.length_lt
      obtain ⟨h', hrun', hinv, hloc⟩ := of_cells hapart hfoot hrun hi.heap (List.Subset.refl _)
        hi.granular hi.live_room
      refine ⟨0, h', l, hrun', by simpa using hinv,
        fun a ha x hx => covers_of_onByte hi.room (hloc a ha) hx, by simp,
        fun hl => ⟨hl, dvd_zero 8, ?_⟩⟩
      have hwords := keepsWords_run hapart hfoot hrun hi.heap.represents hi.granular
        (Untouched.refl _ _) hl (dvd_of_header hl)
      rw [hrun'] at hwords
      exact hwords
    · have hfind : (pre ++ b :: post).find? (fun b => roundmb n ≤ b.mlength) = some b := by
        rw [List.find?_append, List.find?_eq_none.mpr (by simpa using hsmall)]
        simp [hfit]
      obtain ⟨hn, hr8, hb8⟩ := hfits h0 b hfind
      have hround := roundmb_bounds hn
      have hlen := hi.heap.length_lt
      have hbgran := hi.granular b (by simp)
      have hr16 : 16 ≤ roundmb n := by omega
      have hcut : ∀ d ∈ cut (roundmb n) b, 16 ≤ d.mlength ∧ 8 ∣ d.mlength := by
        intro d hd
        unfold cut at hd
        split_ifs at hd with heq
        · simp at hd
        · rw [List.mem_singleton.mp hd]
          simp only
          omega
      have hl := hi.heap.coalesced
      have hap := apart_cut hl hi.room hr16 hfit fun d hd => (hcut d hd).1
      obtain ⟨c', hrun, hrep, hfree, huntouched, hfoot⟩ := getmem_run_of_fit hi.heap.represents hl
        hi.heap.heapHi_lt h0 hsmall hfit (by simp at hlen; omega)
      have hgran : ∀ d ∈ pre ++ cut (roundmb n) b ++ post, 16 ≤ d.mlength ∧ 8 ∣ d.mlength := by
        intro d hd
        simp only [List.mem_append] at hd
        rcases hd with (hd | hd) | hd
        · exact hi.granular d (by simp [hd])
        · exact hcut d hd
        · exact hi.granular d (by simp [hd])
      obtain ⟨h', hrun', hinv, hloc⟩ := of_cells hap hfoot hrun
        (hi.heap.take (by omega) hfit hrep hfree)
        (by
          intro x hx
          simp only [List.map_append, List.map_cons, List.mem_append, List.mem_cons] at hx ⊢
          tauto)
        hgran
        (by
          intro x hx
          rcases List.mem_cons.mp hx with rfl | hx
          · exact hr16
          · exact hi.live_room x hx)
      have hb0 : b.addr ≠ 0 := hi.heap.represents.addr_ne_zero
      refine ⟨b.addr, h', pre ++ cut (roundmb n) b ++ post, hrun', by simpa [hb0] using hinv,
        fun a ha x hx => ?_,
        fun _ => ⟨h0, pre, b, post, rfl, hfind, rfl, hfit, rfl⟩, fun hal => ?_⟩
      · -- the front of the block and the remainder both lie in the block
        obtain ⟨y, hla, hylo, hyhi⟩ := hx.bounds
        have hmem := hloc a ha
        rw [hla] at hmem
        simp only [List.mem_cons, List.mem_map, List.mem_append, reduceCtorEq, false_or] at hmem
        obtain ⟨d, hd, hdy⟩ := hmem
        rw [MemBlk.header, Header.blk.injEq] at hdy
        rcases hd with hd | rfl | hd | hd
        · have := hi.room d (by simp [hd])
          exact ⟨d, by simp [hd], by omega, by simp only [MemBlk.stop]; omega⟩
        · exact ⟨d, by simp, by omega, by simp only [MemBlk.stop]; omega⟩
        · unfold cut at hd
          split_ifs at hd with heq
          · simp at hd
          · rw [List.mem_singleton.mp hd] at hdy
            simp only at hdy
            exact ⟨b, by simp, by omega, by simp only [MemBlk.stop]; omega⟩
        · have := hi.room d (by simp [hd])
          exact ⟨d, by simp [hd], by omega, by simp only [MemBlk.stop]; omega⟩
      · have hal' : ∀ d ∈ pre ++ cut (roundmb n) b ++ post, 8 ∣ d.addr := by
          intro d hd
          simp only [List.mem_append] at hd
          rcases hd with (hd | hd) | hd
          · exact hal d (by simp [hd])
          · exact aligned_cut (hal b (by simp)) (dvd_roundmb n) hd
          · exact hal d (by simp [hd])
        refine ⟨hal', hal b (by simp), ?_⟩
        have hwords := keepsWords_run hap hfoot hrun hrep hgran huntouched hal' (dvd_of_header ?_)
        · rw [hrun'] at hwords
          exact hwords
        · intro d hd
          simp only [List.mem_append, List.mem_cons] at hd
          rcases hd with hd | rfl | hd | hd
          · exact hal d (by simp [hd])
          · exact hal d (by simp)
          · exact hal' d (by simp [hd])
          · exact hal d (by simp [hd])

/-- `freemem` of a live block over bytes needs no condition. -/
theorem freemem_spec (hi : ByteInvariant g h live l) {b : LiveBlk} (hb : b ∈ live) :
    ∃ h' l', (freemem g b.addr b.nbytes).run byteStore h = (some 0, h') ∧
      ByteInvariant g h' (live.erase b) l' ∧
      (∀ a ∈ (freemem g b.addr b.nbytes).trace byteStore h, ∀ x, OnByte x a.loc →
        Covers l x ∨ Covers l' x) ∧
      ((∀ d ∈ b.extent :: l, 8 ∣ d.addr) → (∀ d ∈ l', 8 ∣ d.addr) ∧ KeepsWords h h') := by
  have hmem : b.extent ∈ extents live := List.mem_map_of_mem hb
  have hdis : ∀ d ∈ l, b.extent.Disjoint d :=
    fun d hd => (hi.heap.free_live_disjoint d hd _ hmem).symm
  have hroom : ∀ d ∈ b.extent :: l, 16 ≤ d.mlength := by
    intro d hd
    rcases List.mem_cons.mp hd with rfl | hd
    · exact hi.live_room _ hmem
    · exact hi.room d hd
  have hapart : Apart ((b.extent :: l).map MemBlk.header) :=
    apart_headers hroom (List.pairwise_cons.mpr ⟨hdis, hi.heap.coalesced.pairwise_disjoint⟩)
  obtain ⟨c', l', hrun, hrep, hrel, hfree, huntouched, hfoot⟩ := freemem_run (f := b.extent)
    hi.heap.represents hi.heap.coalesced hi.heap.heapHi_lt hi.heap.heapLo_pos
    (hi.heap.nbytes_ne_zero hb) rfl (hi.heap.live_nonempty _ hmem) (hi.heap.live_inside _ hmem)
    hdis hi.heap.length_lt
  have hfoot : ∀ a ∈ (freemem g b.addr b.nbytes).trace headerCells h.view,
      InFootprint ((b.extent :: l).map MemBlk.header) a :=
    fun a ha => (hfoot a ha).mono (List.map_subset _ (touched_subset _ l))
  have hgran : ∀ d ∈ l', 16 ≤ d.mlength ∧ 8 ∣ d.mlength := by
    apply hrel.lengths (fun k => 16 ≤ k ∧ 8 ∣ k)
    · intro a b ha hb
      omega
    · intro d hd
      rcases List.mem_cons.mp hd with rfl | hd
      · exact ⟨hi.live_room _ hmem, dvd_roundmb _⟩
      · exact hi.granular d hd
  obtain ⟨h', hrun', hinv, hloc⟩ := of_cells hapart hfoot hrun
    (hi.heap.give hb hrep hrel hfree) hrel.headers hgran (by
      intro x hx
      obtain ⟨d, hd, rfl⟩ := List.mem_map.mp hx
      exact hi.live_room _ (List.mem_map_of_mem (List.mem_of_mem_erase hd)))
  refine ⟨h', l', hrun', hinv, fun a ha x hx => ?_, fun hal => ?_⟩
  · have hcov := covers_of_onByte hroom (hloc a ha) hx
    rw [covers_cons] at hcov
    exact Or.inr ((hrel.covers_iff x).mpr (by tauto))
  · have hal' : ∀ d ∈ l', 8 ∣ d.addr := fun d hd =>
      dvd_of_header hal d.addr (hrel.headers (List.mem_map_of_mem hd))
    refine ⟨hal', ?_⟩
    have hwords := keepsWords_run hapart hfoot hrun hrep hgran huntouched hal' (dvd_of_header hal)
    rw [hrun'] at hwords
    exact hwords

end ByteInvariant

/-- The bytes of the heap, and the blocks its clients hold. -/
structure ByteState where
  bounds : HeapBounds
  heap : ByteHeap
  live : List LiveBlk

/-- Calls on the heap, and a client's write of one byte. -/
inductive ByteOp
  | getmem (nbytes : ℕ)
  | freemem (b : LiveBlk)
  | write (x : ℕ) (v : UInt8)

namespace ByteState

def init (h : ByteHeap) (lo hi : ℕ) : ByteState where
  bounds := memInitBounds lo hi
  heap := ((memInit (memInitBounds lo hi)).run byteStore h).2
  live := []

def step (s : ByteState) : ByteOp → Option ByteState
  | .getmem n =>
    match (getmem n).run byteStore s.heap with
    | (none, _) => none
    | (some p, heap) => some { s with heap, live := if p = 0 then s.live else ⟨p, n⟩ :: s.live }
  | .freemem b =>
    match (freemem s.bounds b.addr b.nbytes).run byteStore s.heap with
    | (none, _) => none
    | (some _, heap) => some { s with heap, live := s.live.erase b }
  | .write x v => some { s with heap.mem := Function.update s.heap.mem x v }

/-- The header words that a call reads and writes. -/
def accesses (s : ByteState) : ByteOp → List (Access Loc ℕ)
  | .getmem n => (getmem n).trace byteStore s.heap
  | .freemem b => (freemem s.bounds b.addr b.nbytes).trace byteStore s.heap
  | .write _ _ => []

/-- Clients release what they hold and write to what they hold. -/
def WellBehaved (s : ByteState) : ByteOp → Prop
  | .getmem _ => True
  | .freemem b => b ∈ s.live
  | .write x _ => Covers (extents s.live) x

instance (s : ByteState) : ∀ op, Decidable (s.WellBehaved op)
  | .getmem _ => inferInstanceAs (Decidable True)
  | .freemem b => inferInstanceAs (Decidable (b ∈ s.live))
  | .write x _ =>
    inferInstanceAs (Decidable (∃ b ∈ extents s.live, b.addr ≤ x ∧ x < b.stop))

/-- The block that first fit chooses for a request of rounded size `m`. -/
def firstFit (s : ByteState) (m : ℕ) : Option MemBlk :=
  s.heap.freeList.find? fun b => m ≤ b.mlength

/-- The request does not wrap, and if it can be served then neither the block
nor the remainder is too short for a header. -/
def HeaderFits (s : ByteState) : ByteOp → Prop
  | .getmem n => n = 0 ∨ n + 7 < ulongSize ∧
      ∀ b ∈ s.firstFit (roundmb n), roundmb n ≠ 8 ∧ b.mlength ≠ roundmb n + 8
  | _ => True

/-- Bookkeeping and client data keep apart in the step from `s` to `s'`. -/
structure Clean (s : ByteState) (op : ByteOp) (s' : ByteState) : Prop where
  accesses_free : ∀ a ∈ s.accesses op, ∀ x, OnByte x a.loc →
    Covers s.heap.freeList x ∨ Covers s'.heap.freeList x
  live_kept : (∀ x v, op ≠ .write x v) → ∀ b ∈ s.live, b ∈ s'.live →
    ∀ x, b.addr ≤ x → x < b.extent.stop → s'.heap.mem x = s.heap.mem x
  freeList_kept : ∀ x v, op = .write x v →
    s'.heap.freeList = s.heap.freeList ∧ s'.heap.head = s.heap.head

def Invariant (s : ByteState) : Prop := ∃ l, ByteInvariant s.bounds s.heap s.live l

/-- After `mem_init` there is one free block, the whole heap. -/
theorem memInit_bytes (h : ByteHeap) {lo hi : ℕ} (hhi : hi < ulongSize) (hlo : 0 < roundmb lo)
    (hlt : roundmb lo + 16 ≤ truncmb hi) :
    ByteInvariant (memInitBounds lo hi) ((memInit (memInitBounds lo hi)).run byteStore h).2 []
      [⟨roundmb lo, truncmb hi - roundmb lo⟩] := by
  have htrunc : truncmb hi ≤ hi := Nat.div_mul_le_self hi 8
  have hlo8 := dvd_roundmb lo
  have hhi8 : 8 ∣ truncmb hi := Nat.dvd_mul_left 8 _
  have hfoot : ∀ a ∈ (memInit (memInitBounds lo hi)).trace headerCells h.view,
      InFootprint [.blk (roundmb lo)] a := by
    have hlo' : roundmb lo < ulongSize := by omega
    have htot : (memInitBounds lo hi).heapTotal < ulongSize := usub_lt _ _
    have hb : (memInitBounds lo hi).heapLo = roundmb lo := rfl
    simp [memInit, setMnext, setMlength, hb, hlo', htot]
  obtain ⟨h', hrun, hinv, -⟩ := ByteInvariant.of_cells (r := ())
    (by intro a b ha hb; simp at ha hb; omega) hfoot rfl
    (memInit_invariant h.view hhi hlo (by omega)) (by simp [MemBlk.header])
    (by simp; omega) (by simp)
  rw [hrun]
  exact hinv

theorem init_invariant (h : ByteHeap) {lo hi : ℕ} (hhi : hi < ulongSize) (hlo : 0 < roundmb lo)
    (hlt : roundmb lo + 16 ≤ truncmb hi) : (init h lo hi).Invariant :=
  ⟨_, memInit_bytes h hhi hlo hlt⟩

/-- A client's write to a live byte lies on no header word. -/
theorem write_invariant {s : ByteState} {l : List MemBlk} {x : ℕ} (v : UInt8)
    (hi : ByteInvariant s.bounds s.heap s.live l) (hx : Covers (extents s.live) x) :
    ByteInvariant s.bounds { s.heap with mem := Function.update s.heap.mem x v } s.live l := by
  obtain ⟨e, he, hlo, hhi⟩ := hx
  obtain ⟨b, hb, rfl⟩ := List.mem_map.mp he
  have hfree : ¬ Covers l x := hi.not_covers_live hb hlo hhi
  apply hi.of_mem
  intro y hy
  apply Function.update_of_ne
  rintro rfl
  exact hfree hy

/-- An allocator call that only touches free memory changes no live byte. -/
theorem clean_of_call {α : Type} {s s' : ByteState} {op : ByteOp} {p : Prog α}
    {l l' : List MemBlk} (hi : ByteInvariant s.bounds s.heap s.live l)
    (hi' : ByteInvariant s'.bounds s'.heap s'.live l') (hop : ∀ x v, op ≠ .write x v)
    (hacc : s.accesses op = p.trace byteStore s.heap)
    (hheap : s'.heap = (p.run byteStore s.heap).2)
    (hcov : ∀ a ∈ p.trace byteStore s.heap, ∀ x, OnByte x a.loc → Covers l x ∨ Covers l' x) :
    s.Clean op s' where
  accesses_free := by
    rw [hacc, hi.freeList_eq, hi'.freeList_eq]
    exact hcov
  live_kept := by
    intro _ b hb hb' x hlo hhi
    rw [hheap]
    apply run_mem_of_not_onByte
    intro a ha hx
    rcases hcov a ha x hx with h | h
    · exact hi.not_covers_live hb hlo hhi h
    · exact hi'.not_covers_live hb' hlo hhi h
  freeList_kept x v h := (hop x v h).elim

/-- One step: it returns, it keeps the invariant, and it is clean. -/
theorem step_clean {s : ByteState} {op : ByteOp} (h : s.Invariant) (hwb : s.WellBehaved op)
    (hfits : s.HeaderFits op) :
    ∃ s', s.step op = some s' ∧ s'.Invariant ∧ s.Clean op s' := by
  obtain ⟨l, hi⟩ := h
  cases op with
  | getmem n =>
    have hfits' : n ≠ 0 → ∀ b ∈ l.find? (fun b => roundmb n ≤ b.mlength),
        n + 7 < ulongSize ∧ roundmb n ≠ 8 ∧ b.mlength ≠ roundmb n + 8 := by
      intro h0 b hb
      obtain ⟨hn, hfits⟩ := hfits.resolve_left h0
      rw [firstFit, hi.freeList_eq] at hfits
      exact ⟨hn, hfits b hb⟩
    obtain ⟨p, heap', l', hrun, hinv, hcov, -⟩ := hi.getmem_spec hfits'
    refine ⟨_, by rw [step, hrun], ⟨l', hinv⟩, ?_⟩
    exact clean_of_call (p := getmem n) hi hinv (by simp) rfl (by rw [hrun])
      fun a ha x hx => Or.inl (hcov a ha x hx)
  | freemem b =>
    obtain ⟨heap', l', hrun, hinv, hcov, -⟩ := hi.freemem_spec hwb
    refine ⟨_, by rw [step, hrun], ⟨l', hinv⟩, ?_⟩
    exact clean_of_call (p := freemem s.bounds b.addr b.nbytes) hi hinv (by simp) rfl
      (by rw [hrun]) hcov
  | write x v =>
    have hinv := write_invariant v hi hwb
    refine ⟨_, rfl, ⟨l, hinv⟩, ?_⟩
    constructor
    · simp [accesses]
    · intro h
      exact (h x v rfl).elim
    · intro _ _ _
      exact ⟨hinv.freeList_eq.trans hi.freeList_eq.symm, rfl⟩

/-- What well-behaved clients may do without a block becoming shorter than a header. -/
def Admitted (s : ByteState) (op : ByteOp) : Prop := s.WellBehaved op ∧ s.HeaderFits op

/-- In every run whose requests leave room for headers, the allocator touches
free memory only: it changes no live byte, and no client's write changes the
free list. -/
theorem metadata_apart_from_data (h : ByteHeap) {lo hi : ℕ} (hhi : hi < ulongSize)
    (hlo : 0 < roundmb lo) (hlt : roundmb lo + 16 ≤ truncmb hi) {s : ByteState}
    (hs : Reachable step Admitted (init h lo hi) s) (op : ByteOp) (hop : s.Admitted op) :
    ∃ s', s.step op = some s' ∧ s.Clean op s' := by
  have hinv : s.Invariant := by
    apply hs.invariant Invariant (init_invariant h hhi hlo hlt)
    intro s op s' hinv hop hstep
    obtain ⟨t, ht, htinv, -⟩ := step_clean hinv hop.1 hop.2
    rw [hstep] at ht
    cases ht
    exact htinv
  obtain ⟨s', hstep, -, hclean⟩ := step_clean hinv hop.1 hop.2
  exact ⟨s', hstep, hclean⟩

/-- Memory that is zero everywhere. -/
def zeroHeap : ByteHeap := ⟨fun _ => 0, fun _ => 0⟩

/-- A request of 40 bytes on a heap of 64, then one of 24: both fit exactly or
leave room for a header. -/
theorem metadata_apart_from_data_after_getmem :
    ∃ s s', (init zeroHeap 4096 4160).step (.getmem 40) = some s ∧
      s.step (.getmem 24) = some s' ∧ s.Clean (.getmem 24) s' := by
  have hfirst : (init zeroHeap 4096 4160).Admitted (.getmem 40) := by
    refine ⟨trivial, Or.inr ⟨by decide, ?_⟩⟩
    decide
  obtain ⟨s, hs⟩ := Option.isSome_iff_exists.mp
    (by decide : ((init zeroHeap 4096 4160).step (.getmem 40)).isSome)
  have hsecond : ∀ t, (init zeroHeap 4096 4160).step (.getmem 40) = some t →
      t.HeaderFits (.getmem 24) := by
    rintro t ⟨⟩
    exact Or.inr ⟨by decide, by decide⟩
  obtain ⟨s', hstep, hclean⟩ := metadata_apart_from_data zeroHeap (by decide) (by decide)
    (by decide) (Reachable.start.next hfirst hs) (.getmem 24) ⟨trivial, hsecond s hs⟩
  exact ⟨s, s', hs, hstep, hclean⟩

/-- With nothing but well-behaved clients a remainder of 8 bytes can arise in
front of a live block, and its `mlength` is written into that block. -/
theorem metadata_overwrites_live_block :
    ¬ ∀ (h : ByteHeap) (lo hi : ℕ), hi < ulongSize → 0 < roundmb lo → roundmb lo < truncmb hi →
      ∀ s, Reachable step WellBehaved (init h lo hi) s →
        ∀ op s', s.WellBehaved op → s.step op = some s' → s.Clean op s' := by
  intro hclaim
  let calls : List ByteOp := [.getmem 40, .getmem 16, .freemem ⟨4096, 40⟩]
  obtain ⟨s, hs⟩ := Option.isSome_iff_exists.mp
    (by decide : (exec step (init zeroHeap 4096 4160) calls).isSome)
  have hreach : Reachable step WellBehaved (init zeroHeap 4096 4160) s :=
    Reachable.start.exec (by decide : EachStep step WellBehaved (init zeroHeap 4096 4160) calls) hs
  have hlive : ((exec step (init zeroHeap 4096 4160) calls).map live) = some [⟨4136, 16⟩] := by
    decide
  have hbyte : ((exec step (init zeroHeap 4096 4160) calls).map fun s => s.heap.mem 4136) =
      some 0 := by decide
  have hsplit : ((exec step (init zeroHeap 4096 4160) calls).bind fun s => (s.step (.getmem 32)).map
      fun s' => (s'.live, s'.heap.mem 4136)) = some ([⟨4096, 32⟩, ⟨4136, 16⟩], 8) := by decide
  rw [hs] at hlive hbyte hsplit
  obtain ⟨s', hs', hpair⟩ := Option.map_eq_some_iff.mp hsplit
  obtain ⟨hlive', hbyte'⟩ := Prod.mk.inj hpair
  have hclean := hclaim zeroHeap 4096 4160 (by decide) (by decide) (by decide) s hreach
    (.getmem 32) s' trivial hs'
  have hkept := hclean.live_kept (by simp) ⟨4136, 16⟩
    (by rw [Option.some.inj hlive]; simp) (by rw [hlive']; simp) 4136
    (by decide) (by decide)
  exact absurd (hbyte'.symm.trans (hkept.trans (Option.some.inj hbyte))) (by decide)

end ByteState

end XinuRpi4.Memory
