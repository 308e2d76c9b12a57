import XinuRpi4.Memory.HeapBytes

/-!
# Which releases `freemem` refuses

`freemem` compares the released range with the bounds of the heap and with its two
neighbours on the free list. On a sorted list the neighbours stand for all blocks,
so the verdict is a condition on the whole list; the range in that condition is
the one the code computes, modulo `2 ^ 64`. An accepted range becomes part of the
list. Unless it only makes the block in front of it longer it gets a header of 16
bytes, which the last 8 bytes of a shorter range do not hold.
-/

namespace XinuRpi4.Memory

open Foundation MemoryProgram

/-- The free list, apart from what clients hold. -/
structure FreeListInvariant (g : HeapBounds) (c : Loc → ℕ) (l : List MemBlk) : Prop where
  heapLo_pos : 0 < g.heapLo
  heapHi_lt : g.heapHi < ulongSize
  represents : Represents c l
  coalesced : Coalesced g l
  free_bytes : c (.memlistHead, .mlength) = bytes l

theorem HeapInvariant.freeList {g : HeapBounds} {c : Loc → ℕ} {live : List LiveBlk}
    {l : List MemBlk} (h : HeapInvariant g c live l) : FreeListInvariant g c l :=
  { h with }

/-- `ROUNDMB(x)` without wrap-around. -/
def roundUp (x : ℕ) : ℕ := (x + 7) / 8 * 8

/-- The range of a release, computed without wrap-around. -/
def releasedRange (blk nbytes : ℕ) : MemBlk := ⟨blk, roundUp nbytes⟩

/-- The two blocks share a byte. -/
def MemBlk.Overlaps (a b : MemBlk) : Prop :=
  ∃ x, (a.addr ≤ x ∧ x < a.stop) ∧ b.addr ≤ x ∧ x < b.stop

/-- The range is not contained in the heap, or overlaps a free block. -/
def BadRelease (g : HeapBounds) (l : List MemBlk) (f : MemBlk) : Prop :=
  ¬ (g.heapLo ≤ f.addr ∧ f.stop ≤ g.heapHi) ∨ ∃ b ∈ l, f.Overlaps b

/-- The free list in a byte memory, with no byte in two of its headers. -/
structure ByteListInvariant (g : HeapBounds) (h : ByteHeap) (l : List MemBlk) : Prop where
  list : FreeListInvariant g h.view l
  apart : Apart (l.map MemBlk.header)

/-- The release answers `-1` and changes nothing. -/
def Refused (g : HeapBounds) (h : ByteHeap) (blk nbytes : ℕ) : Prop :=
  (freemem g blk nbytes).run byteStore h = (some (-1), h)

/-- The release answers `0` and the free bytes grow by its range. -/
def Accepted (g : HeapBounds) (h : ByteHeap) (l : List MemBlk) (blk nbytes : ℕ) : Prop :=
  ∃ h' l', (freemem g blk nbytes).run byteStore h = (some 0, h') ∧ ByteListInvariant g h' l' ∧
    ∀ x, Covers l' x ↔ Covers l x ∨ blk ≤ x ∧ x < (releasedRange blk nbytes).stop

/-- A bad release is refused, any other one is accepted. -/
def ReleaseLaw (g : HeapBounds) (h : ByteHeap) (l : List MemBlk) (blk nbytes : ℕ) : Prop :=
  (BadRelease g l (releasedRange blk nbytes) → Refused g h blk nbytes) ∧
    (¬ BadRelease g l (releasedRange blk nbytes) → Accepted g h l blk nbytes)

/-- The range makes a free block longer, or a header at its start shares no byte with the header
of a free block. -/
def HeaderClear (l : List MemBlk) (f : MemBlk) : Prop :=
  (∃ b ∈ l, b.stop = f.addr) ∨ ∀ b ∈ l, b.addr + 16 ≤ f.addr ∨ f.addr + 16 ≤ b.addr

/-- What the checks of `freemem` amount to on the whole free list. -/
def Refuses (g : HeapBounds) (l : List MemBlk) (blk nbytes : ℕ) : Prop :=
  blk = 0 ∨ nbytes = 0 ∨ blk < g.heapLo ∨ g.heapHi < uadd blk (roundmb nbytes) ∨
    ∃ b ∈ l, b.addr < blk ∧ blk < b.stop ∨
      blk ≤ b.addr ∧ b.addr < uadd blk (roundmb nbytes)

theorem MemBlk.overlaps_iff {a b : MemBlk} (ha : 0 < a.mlength) (hb : 0 < b.mlength) :
    a.Overlaps b ↔ ¬ a.Disjoint b := by
  constructor
  · rintro ⟨x, hxa, hxb⟩ hdis
    simp only [Disjoint, stop] at *
    omega
  · intro h
    refine ⟨max a.addr b.addr, ?_⟩
    simp only [Disjoint, stop] at *
    omega

theorem Coalesced.tail {g : HeapBounds} {b : MemBlk} {l : List MemBlk} (hl : Coalesced g (b :: l)) :
    Coalesced g l := by
  have hsplit : Coalesced g ([] ++ b :: l) := hl
  exact hsplit.pairwise_middle.1

/-- A sorted list splits at an address. -/
theorem Coalesced.split_addr {g : HeapBounds} {l : List MemBlk} (hl : Coalesced g l) (a : ℕ) :
    ∃ pre post, l = pre ++ post ∧ (∀ x ∈ pre, x.addr < a) ∧ ∀ y ∈ post, a ≤ y.addr := by
  induction l with
  | nil => exact ⟨[], [], rfl, by simp, by simp⟩
  | cons b l ih =>
    have hrest := hl.tail
    by_cases hb : b.addr < a
    · obtain ⟨pre, post, rfl, hpre, hpost⟩ := ih hrest
      exact ⟨b :: pre, post, rfl, List.forall_mem_cons.mpr ⟨hb, hpre⟩, hpost⟩
    · refine ⟨[], b :: l, rfl, by simp, List.forall_mem_cons.mpr ⟨by omega, fun y hy => ?_⟩⟩
      have hlt := (List.pairwise_cons.mp hl.separated).1 y hy
      simp only [MemBlk.stop] at hlt
      omega

/-- The addresses are different, and all of them lie below the end of the heap. -/
theorem Coalesced.length_lt {g : HeapBounds} {l : List MemBlk} (hl : Coalesced g l)
    (hhi : g.heapHi < ulongSize) : l.length < ulongSize := by
  have hbytes : l.length ≤ g.heapHi := by
    have hnd : (l.map MemBlk.addr).Nodup := by
      rw [List.Nodup, List.pairwise_map]
      apply hl.separated.imp
      intro a b hab heq
      simp only [MemBlk.stop] at hab
      omega
    have hsub : l.map MemBlk.addr ⊆ List.range g.heapHi := by
      intro x hx
      obtain ⟨b, hb, rfl⟩ := List.mem_map.mp hx
      have hin := hl.inside b hb
      have hpos := hl.nonempty b hb
      simp only [MemBlk.stop] at hin
      exact List.mem_range.mpr (by omega)
    simpa using (hnd.subperm hsub).length_le
  omega

/-- The blocks lie side by side below the end of the heap. -/
theorem Coalesced.bytes_le {g : HeapBounds} {l : List MemBlk} (hl : Coalesced g l) {a : ℕ}
    (ha : ∀ b ∈ l, a ≤ b.addr) (hne : l ≠ []) : a + bytes l ≤ g.heapHi := by
  induction l generalizing a with
  | nil => exact absurd rfl hne
  | cons b l ih =>
    have hb := hl.inside b (by simp)
    have hab := ha b (by simp)
    simp only [MemBlk.stop] at hb
    rw [bytes_cons]
    by_cases hnil : l = []
    · subst hnil
      rw [bytes_nil]
      omega
    · have hnext := ih (a := b.stop) hl.tail
        (fun d hd => ((List.pairwise_cons.mp hl.separated).1 d hd).le) hnil
      simp only [MemBlk.stop] at hnext
      omega

theorem Coalesced.bytes_lt {g : HeapBounds} {l : List MemBlk} (hl : Coalesced g l)
    (hhi : g.heapHi < ulongSize) : bytes l < ulongSize := by
  by_cases hnil : l = []
  · subst hnil
    simp
  · have := hl.bytes_le (a := 0) (fun _ _ => Nat.zero_le _) hnil
    omega

section Verdict

variable {g : HeapBounds} {c : Loc → ℕ} {l : List MemBlk} {blk nbytes : ℕ}
variable {St : Type} (store : Store St Loc ℕ) (st : St)

/-- `prev_end`, behind the last block in front of the release. -/
theorem freememPrevEnd_run {pre post : List MemBlk}
    (hrep : Represents (store.get st) (pre ++ post)) (hl : Coalesced g (pre ++ post))
    (hhi : g.heapHi < ulongSize) :
    (freememPrevEnd (lastHeader pre)).run store st =
      ((pre.getLast?.map MemBlk.stop).getD 0, st) := by
  rcases List.eq_nil_or_concat' pre with rfl | ⟨pre', p, rfl⟩
  · rfl
  · have hplen : store.get st (p.header, .mlength) = p.mlength := hrep.lengths p (by simp)
    have hpin := hl.inside p (by simp)
    have hsum : uadd p.addr p.mlength = p.stop := uadd_eq (by simp only [MemBlk.stop] at hpin; omega)
    rw [MemBlk.header] at hplen
    simp [freememPrevEnd, mlength, MemBlk.header, hplen, hsum]

/-- The last block in front of the release reaches furthest. -/
theorem Coalesced.prevEnd_lt_iff {pre post : List MemBlk} (hl : Coalesced g (pre ++ post))
    (a : ℕ) : a < (pre.getLast?.map MemBlk.stop).getD 0 ↔ ∃ b ∈ pre, a < b.stop := by
  rcases List.eq_nil_or_concat' pre with rfl | ⟨pre', p, rfl⟩
  · simp
  · simp only [List.getLast?_append, List.getLast?_singleton, Option.some_or, Option.map_some,
      Option.getD_some]
    refine ⟨fun h => ⟨p, by simp, h⟩, ?_⟩
    rintro ⟨b, hb, hab⟩
    rcases List.mem_append.mp hb with hb | hb
    · have hlt := (List.pairwise_append.mp (List.pairwise_append.mp hl.separated).1).2.2 b hb p
        (by simp)
      have hp : p.addr ≤ p.stop := Nat.le_add_right _ _
      omega
    · rwa [← List.mem_singleton.mp hb]

/-- `curr`, the first block at or behind the release, starts first. -/
theorem next_lt_iff {pre post : List MemBlk} (hrep : Represents c (pre ++ post))
    (hl : Coalesced g (pre ++ post)) (e : ℕ) :
    c (lastHeader pre, .mnext) ≠ 0 ∧ c (lastHeader pre, .mnext) < e ↔ ∃ b ∈ post, b.addr < e := by
  have hnext := hrep.next_eq
  cases post with
  | nil =>
    have h0 : c (lastHeader pre, .mnext) = 0 := by simpa [nextOf] using hnext
    simp [h0]
  | cons d post =>
    obtain ⟨hne, hd⟩ := ptr_eq_some.mp hnext
    have hda : c (lastHeader pre, .mnext) = d.addr := by simpa [MemBlk.header, eq_comm] using hd
    rw [hda] at hne ⊢
    refine ⟨fun h => ⟨d, by simp, h.2⟩, ?_⟩
    rintro ⟨b, hb, hbe⟩
    rcases List.mem_cons.mp hb with rfl | hb
    · exact ⟨hne, hbe⟩
    · have hlt := hl.pairwise_middle.2.2 b hb
      simp only [MemBlk.stop] at hlt
      exact ⟨hne, by omega⟩

/-- The verdict of `freemem`, for every request and also where the sums wrap. -/
theorem freemem_verdict (h : FreeListInvariant g (store.get st) l) (blk nbytes : ℕ) :
    (Refuses g l blk nbytes → (freemem g blk nbytes).run store st = (some (-1), st)) ∧
      (¬ Refuses g l blk nbytes → ((freemem g blk nbytes).run store st).1 = some 0) := by
  by_cases hargs : blk = 0 ∨ nbytes = 0
  · have hrefuse : Refuses g l blk nbytes := hargs.elim Or.inl fun hn => Or.inr (Or.inl hn)
    have hrun : (freemem g blk nbytes).run store st = (some (-1), st) := by
      simp only [freemem, if_pos hargs, run_pure]
    exact ⟨fun _ => hrun, fun hno => absurd hrefuse hno⟩
  by_cases hbounds : blk < g.heapLo ∨ g.heapHi < uadd blk (roundmb nbytes)
  · have hrefuse : Refuses g l blk nbytes := by
      rcases hbounds with hlo | hhi
      · exact Or.inr (Or.inr (Or.inl hlo))
      · exact Or.inr (Or.inr (Or.inr (Or.inl hhi)))
    have hrun : (freemem g blk nbytes).run store st = (some (-1), st) := by
      simp only [freemem, if_neg hargs, if_pos hbounds, run_pure]
    exact ⟨fun _ => hrun, fun hno => absurd hrefuse hno⟩
  obtain ⟨pre, post, rfl, hpre, hpost⟩ := h.coalesced.split_addr blk
  have hlen := h.coalesced.length_lt h.heapHi_lt
  have hwalk := (freememWalk_run store st blk h.represents hpre hpost (by simp at hlen; omega)).1
  have hprevRun := freememPrevEnd_run store st h.represents h.coalesced h.heapHi_lt
  have hprev := h.coalesced.prevEnd_lt_iff blk
  have hcurr := next_lt_iff h.represents h.coalesced (uadd blk (roundmb nbytes))
  have hrefuses : Refuses g (pre ++ post) blk nbytes ↔
      (∃ b ∈ pre, blk < b.stop) ∨ ∃ b ∈ post, b.addr < uadd blk (roundmb nbytes) := by
    constructor
    · rintro (hz | hz | hz | hz | ⟨b, hb, hov⟩)
      · exact absurd (Or.inl hz) hargs
      · exact absurd (Or.inr hz) hargs
      · exact absurd (Or.inl hz) hbounds
      · exact absurd (Or.inr hz) hbounds
      · rcases List.mem_append.mp hb with hb | hb
        · have := hpre b hb
          exact Or.inl ⟨b, hb, by omega⟩
        · have := hpost b hb
          exact Or.inr ⟨b, hb, by omega⟩
    · rintro (⟨b, hb, hlt⟩ | ⟨b, hb, hlt⟩)
      · exact Or.inr (Or.inr (Or.inr (Or.inr ⟨b, by simp [hb], Or.inl ⟨hpre b hb, hlt⟩⟩)))
      · exact Or.inr (Or.inr (Or.inr (Or.inr ⟨b, by simp [hb], Or.inr ⟨hpost b hb, hlt⟩⟩)))
  rw [hrefuses, ← hprev, ← hcurr]
  constructor
  · rintro (hlt | hlt)
    · simp only [freemem, if_neg hargs, if_neg hbounds, mnext, run_fetch, run_bind, hwalk, hprevRun,
        if_pos hlt, run_pure]
    · simp only [freemem, if_neg hargs, if_neg hbounds, mnext, run_fetch, run_bind, hwalk, hprevRun,
        if_pos hlt, run_pure, ite_self]
  · intro hno
    obtain ⟨hno₁, hno₂⟩ := not_or.mp hno
    simp only [freemem, if_neg hargs, if_neg hbounds, mnext, run_fetch, run_bind, hwalk, hprevRun,
      if_neg hno₁, if_neg hno₂, run_pure]

/-- `freemem` always returns. -/
theorem freemem_returns (h : FreeListInvariant g (store.get st) l) (blk nbytes : ℕ) :
    ∃ r st', (freemem g blk nbytes).run store st = (some r, st') := by
  obtain ⟨hrefuse, haccept⟩ := freemem_verdict store st h blk nbytes
  by_cases hr : Refuses g l blk nbytes
  · exact ⟨-1, st, hrefuse hr⟩
  · exact ⟨0, _, Prod.ext (haccept hr) rfl⟩

/-- Below `2 ^ 64` the macro computes the rounded size. -/
theorem roundmb_eq_roundUp {n : ℕ} (h : roundUp n < ulongSize) : roundmb n = roundUp n := by
  have hn : n + 7 < ulongSize := by
    have hsize : ulongSize = 2 ^ 64 := rfl
    unfold roundUp at h
    omega
  rw [roundmb, uadd_eq hn, roundUp]

theorem roundUp_pos {n : ℕ} (h : n ≠ 0) : 0 < roundUp n := by
  unfold roundUp
  omega

/-- Without wrap-around, the two neighbours stand for the whole free list. -/
theorem refuses_iff_badRelease (h : FreeListInvariant g c l) (hn : nbytes ≠ 0)
    (hfits : blk + roundUp nbytes < ulongSize) :
    Refuses g l blk nbytes ↔ BadRelease g l (releasedRange blk nbytes) := by
  have hpos : 0 < (releasedRange blk nbytes).mlength := roundUp_pos hn
  have hround : roundmb nbytes = roundUp nbytes := roundmb_eq_roundUp (by omega)
  have hstop : uadd blk (roundmb nbytes) = (releasedRange blk nbytes).stop := by
    rw [hround]
    exact uadd_eq hfits
  have hover : ∀ b ∈ l, (releasedRange blk nbytes).Overlaps b ↔
      b.addr < blk ∧ blk < b.stop ∨ blk ≤ b.addr ∧ b.addr < (releasedRange blk nbytes).stop := by
    intro b hb
    have hb0 := h.coalesced.nonempty b hb
    rw [MemBlk.overlaps_iff hpos hb0]
    simp only [MemBlk.Disjoint, MemBlk.stop, releasedRange] at *
    omega
  have hlo := h.heapLo_pos
  rw [Refuses, BadRelease, hstop]
  constructor
  · rintro (hz | hz | hz | hz | ⟨b, hb, hov⟩)
    · exact Or.inl fun hin => absurd hin.1 (by simp only [releasedRange]; omega)
    · exact absurd hz hn
    · exact Or.inl fun hin => absurd hin.1 (by simp only [releasedRange]; omega)
    · exact Or.inl fun hin => absurd hin.2 (by omega)
    · exact Or.inr ⟨b, hb, (hover b hb).mpr hov⟩
  · rintro (hout | ⟨b, hb, hov⟩)
    · by_cases hblk : blk < g.heapLo
      · exact Or.inr (Or.inr (Or.inl hblk))
      · have hend : ¬ (releasedRange blk nbytes).stop ≤ g.heapHi :=
          fun hle => hout ⟨not_lt.mp hblk, hle⟩
        exact Or.inr (Or.inr (Or.inr (Or.inl (by omega))))
    · exact Or.inr (Or.inr (Or.inr (Or.inr ⟨b, hb, (hover b hb).mp hov⟩)))

/-- The accepted release, with its range added to the free bytes, and the headers it goes through. -/
theorem freemem_accepts (h : FreeListInvariant g c l) (hn : nbytes ≠ 0)
    (hfits : blk + roundUp nbytes < ulongSize)
    (hgood : ¬ BadRelease g l (releasedRange blk nbytes)) :
    ∃ c' l', (freemem g blk nbytes).run headerCells c = (some 0, c') ∧
      FreeListInvariant g c' l' ∧ Released g (releasedRange blk nbytes) l l' ∧
      ∀ a ∈ (freemem g blk nbytes).trace headerCells c,
        InFootprint ((touched (releasedRange blk nbytes) l).map MemBlk.header) a := by
  obtain ⟨hin, hdis⟩ := not_or.mp hgood
  have hin := not_not.mp hin
  have hpos : 0 < (releasedRange blk nbytes).mlength := roundUp_pos hn
  have hapart : ∀ b ∈ l, (releasedRange blk nbytes).Disjoint b := by
    intro b hb
    by_contra hno
    exact hdis ⟨b, hb, (MemBlk.overlaps_iff hpos (h.coalesced.nonempty b hb)).mpr hno⟩
  have hround : (releasedRange blk nbytes).mlength = roundmb nbytes :=
    (roundmb_eq_roundUp (by omega)).symm
  obtain ⟨c', l', hrun, hrep, hrel, hfree, -, hfoot⟩ := freemem_run (f := releasedRange blk nbytes)
    h.represents h.coalesced h.heapHi_lt h.heapLo_pos hn hround hpos hin hapart
    (h.coalesced.length_lt h.heapHi_lt)
  refine ⟨c', l', hrun, ⟨h.heapLo_pos, h.heapHi_lt, hrep, hrel.coalesced, ?_⟩, hrel, hfoot⟩
  have hlt : bytes l' < ulongSize := hrel.coalesced.bytes_lt h.heapHi_lt
  rw [hrel.bytes_eq] at hlt
  rw [hfree, h.free_bytes, uadd_eq hlt, hrel.bytes_eq]

end Verdict

theorem FreeListInvariant.congr {g : HeapBounds} {c c' : Loc → ℕ} {l : List MemBlk}
    (h : FreeListInvariant g c l)
    (hc : ∀ hd ∈ Header.memlistHead :: l.map MemBlk.header, ∀ f, c' (hd, f) = c (hd, f)) :
    FreeListInvariant g c' l :=
  { h with
    represents := h.represents.congr hc
    free_bytes := (hc _ List.mem_cons_self _).trans h.free_bytes }

theorem HeaderClear.apart {l : List MemBlk} {f : MemBlk} (h : HeaderClear l f)
    (hl : Apart (l.map MemBlk.header)) : Apart ((touched f l).map MemBlk.header) := by
  unfold touched
  split_ifs with hadj
  · exact hl
  · have hclear := h.resolve_left hadj
    intro a b ha hb
    rw [List.map_cons, List.mem_cons, MemBlk.header, Header.blk.injEq] at ha hb
    rcases ha with rfl | ha
    · rcases hb with rfl | hb
      · exact Or.inl rfl
      · obtain ⟨d, hd, hdb⟩ := List.mem_map.mp hb
        cases hdb
        have := hclear d hd
        omega
    · rcases hb with rfl | hb
      · obtain ⟨d, hd, hda⟩ := List.mem_map.mp ha
        cases hda
        have := hclear d hd
        omega
      · exact hl a b ha hb

/-- On addresses that are multiples of 8 only a range of 8 bytes right in front of a free block
has no room for its header. -/
theorem headerClear_of_aligned {l : List MemBlk} {f : MemBlk} (hl : ∀ b ∈ l, 8 ∣ b.addr ∧ 8 ∣ b.stop)
    (hf : 8 ∣ f.addr ∧ 8 ∣ f.mlength) (hpos : ∀ b ∈ f :: l, 0 < b.mlength)
    (hdis : ∀ b ∈ l, f.Disjoint b) (hlong : f.mlength = 8 → ∀ b ∈ l, f.stop ≠ b.addr) :
    HeaderClear l f := by
  by_cases hadj : ∃ b ∈ l, b.stop = f.addr
  · exact Or.inl hadj
  · refine Or.inr fun b hb => ?_
    have hends : b.stop ≠ f.addr := fun heq => hadj ⟨b, hb, heq⟩
    have hbl := hl b hb
    have hbpos := hpos b (by simp [hb])
    have hfpos := hpos f (by simp)
    have hapart := hdis b hb
    by_cases h8 : f.mlength = 8
    · have := hlong h8 b hb
      simp only [MemBlk.Disjoint, MemBlk.stop] at *
      omega
    · simp only [MemBlk.Disjoint, MemBlk.stop] at *
      omega

namespace ByteListInvariant

variable {g : HeapBounds} {h : ByteHeap} {l : List MemBlk} {blk nbytes : ℕ}

/-- A bad release over bytes. -/
theorem freemem_refused (hi : ByteListInvariant g h l) (hfits : blk + roundUp nbytes < ulongSize)
    (hbad : nbytes = 0 ∨ BadRelease g l (releasedRange blk nbytes)) : Refused g h blk nbytes := by
  apply (freemem_verdict byteStore h hi.list blk nbytes).1
  by_cases h0 : nbytes = 0
  · exact Or.inr (Or.inl h0)
  · exact (refuses_iff_badRelease hi.list h0 hfits).mpr (hbad.resolve_left h0)

/-- Any other release over bytes, when its header shares no byte with another one. -/
theorem freemem_accepted (hi : ByteListInvariant g h l) (hn : nbytes ≠ 0)
    (hfits : blk + roundUp nbytes < ulongSize)
    (hgood : ¬ BadRelease g l (releasedRange blk nbytes))
    (hclear : HeaderClear l (releasedRange blk nbytes)) :
    ∃ h' l', (freemem g blk nbytes).run byteStore h = (some 0, h') ∧ ByteListInvariant g h' l' ∧
      Released g (releasedRange blk nbytes) l l' := by
  obtain ⟨c', l', hrun, hinv, hrel, hfoot⟩ := freemem_accepts hi.list hn hfits hgood
  have happart := hclear.apart hi.apart
  obtain ⟨hval, hag, -⟩ := run_bytes _ happart h hfoot
  rw [hrun] at hval hag
  refine ⟨_, l', Prod.ext hval rfl, ⟨hinv.congr fun hd hhd f => hag hd ?_ f, ?_⟩, hrel⟩
  · exact List.cons_subset_cons _ hrel.headers_touched hhd
  · exact happart.subset hrel.headers_touched

/-- An empty release is refused. Any other one whose range can be computed is refused when it is
bad, and accepted when it is not and its header shares no byte with one on the free list. -/
theorem freemem_release_law (hi : ByteListInvariant g h l) (blk nbytes : ℕ) :
    (nbytes = 0 → Refused g h blk nbytes) ∧
      (nbytes ≠ 0 → blk + roundUp nbytes < ulongSize →
        (BadRelease g l (releasedRange blk nbytes) → Refused g h blk nbytes) ∧
        (¬ BadRelease g l (releasedRange blk nbytes) → HeaderClear l (releasedRange blk nbytes) →
          Accepted g h l blk nbytes)) := by
  constructor
  · intro h0
    exact (freemem_verdict byteStore h hi.list blk nbytes).1 (Or.inr (Or.inl h0))
  · intro hn hfits
    refine ⟨fun hbad => hi.freemem_refused hfits (Or.inr hbad), fun hgood hclear => ?_⟩
    obtain ⟨h', l', hrun, hinv, hrel⟩ := hi.freemem_accepted hn hfits hgood hclear
    exact ⟨h', l', hrun, hinv, hrel.covers_iff⟩

end ByteListInvariant

/-- Memory that is zero everywhere holds the empty free list. -/
theorem zeroHeap_byteList : ByteListInvariant ⟨4096, 4160, 64⟩ ByteState.zeroHeap [] where
  list := ⟨by decide, by decide,
    ⟨by simp [nextOf, ptr, ByteHeap.view, byteStore, ByteState.zeroHeap], by simp⟩,
    ⟨by simp, by simp, by simp⟩, rfl⟩
  apart := by simp [Apart]

/-- A heap that is handed out as a whole takes its first 40 bytes back, and neither an empty range
nor one that leaves the heap. -/
theorem freemem_release_law_first_block :
    Refused ⟨4096, 4160, 64⟩ ByteState.zeroHeap 4096 0 ∧
      Refused ⟨4096, 4160, 64⟩ ByteState.zeroHeap 4144 24 ∧
      Accepted ⟨4096, 4160, 64⟩ ByteState.zeroHeap [] 4096 40 := by
  have hgood : ¬ BadRelease ⟨4096, 4160, 64⟩ [] (releasedRange 4096 40) := by
    simp [BadRelease, releasedRange, roundUp, MemBlk.stop]
  have hbad : BadRelease ⟨4096, 4160, 64⟩ [] (releasedRange 4144 24) := by
    simp [BadRelease, releasedRange, roundUp, MemBlk.stop]
  have hclear : HeaderClear [] (releasedRange 4096 40) := by simp [HeaderClear]
  have hlaw := zeroHeap_byteList.freemem_release_law
  exact ⟨(hlaw 4096 0).1 rfl, ((hlaw 4144 24).2 (by decide) (by decide)).1 hbad,
    ((hlaw 4096 40).2 (by decide) (by decide)).2 hgood hclear⟩

/-- The empty range at the start of a heap is contained in it and overlaps nothing,
and its release is refused. -/
theorem empty_release_refused :
    ¬ ∀ (g : HeapBounds) (h : ByteHeap) (l : List MemBlk) (blk nbytes : ℕ),
      ByteListInvariant g h l → ReleaseLaw g h l blk nbytes := by
  intro hclaim
  have hgood : ¬ BadRelease ⟨4096, 4160, 64⟩ [] (releasedRange 4096 0) := by
    simp [BadRelease, releasedRange, roundUp, MemBlk.stop]
  obtain ⟨h', l', hrun, -⟩ := (hclaim _ _ _ 4096 0 zeroHeap_byteList).2 hgood
  have hval : ((freemem ⟨4096, 4160, 64⟩ 4096 0).run byteStore ByteState.zeroHeap).1 = some 0 :=
    congrArg Prod.fst hrun
  exact absurd hval (by decide)

/-- A range that wraps around is never in the heap. The checks see the wrapped end
only, and let it pass unless it starts inside a free block. -/
theorem wrapped_release_accepted_iff {g : HeapBounds} {h : ByteHeap} {l : List MemBlk}
    {blk nbytes : ℕ} (hi : FreeListInvariant g h.view l) (hblk : blk < ulongSize)
    (hn : nbytes < ulongSize) (hwrap : ulongSize ≤ blk + roundUp nbytes) :
    BadRelease g l (releasedRange blk nbytes) ∧
      (((freemem g blk nbytes).run byteStore h).1 = some 0 ↔
        g.heapLo ≤ blk ∧ uadd blk (roundmb nbytes) ≤ g.heapHi ∧
          ∀ b ∈ l, ¬ (b.addr < blk ∧ blk < b.stop)) := by
  have hlo := hi.heapLo_pos
  have hhi := hi.heapHi_lt
  refine ⟨Or.inl fun hin => ?_, ?_⟩
  · have hend : (releasedRange blk nbytes).stop = blk + roundUp nbytes := rfl
    omega
  have hsize : ulongSize = 2 ^ 64 := rfl
  have hle : uadd blk (roundmb nbytes) ≤ blk := by
    by_cases hround : nbytes + 7 < ulongSize
    · rw [roundmb, uadd_eq hround]
      unfold roundUp at hwrap
      rw [uadd, hsize]
      omega
    · have hzero : roundmb nbytes = 0 := by
        rw [roundmb, uadd, hsize]
        omega
      rw [hzero, uadd_eq hblk, add_zero]
  have hn0 : nbytes ≠ 0 := by
    rintro rfl
    simp only [roundUp] at hwrap
    omega
  have hiff : ¬ Refuses g l blk nbytes ↔ g.heapLo ≤ blk ∧ uadd blk (roundmb nbytes) ≤ g.heapHi ∧
      ∀ b ∈ l, ¬ (b.addr < blk ∧ blk < b.stop) := by
    simp only [Refuses, not_or, not_exists, not_and, not_lt]
    constructor
    · rintro ⟨-, -, h₁, h₂, h₃⟩
      exact ⟨h₁, h₂, fun b hb => (h₃ b hb).1⟩
    · rintro ⟨h₁, h₂, h₃⟩
      exact ⟨by omega, hn0, h₁, h₂, fun b hb => ⟨h₃ b hb, fun hba => hle.trans hba⟩⟩
  rw [← hiff]
  obtain ⟨hrefused, haccepted⟩ := freemem_verdict byteStore h hi blk nbytes
  refine ⟨fun hval hno => ?_, haccepted⟩
  rw [hrefused hno] at hval
  cases hval

end XinuRpi4.Memory
