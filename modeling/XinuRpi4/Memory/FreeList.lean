import XinuRpi4.Foundation.LinkedSegment
import XinuRpi4.Memory.Allocator

/-!
# The free list behind the allocator's pointers

A memory of independent header cells represents a list of `(address, length)`
nodes when following `mnext` from `memlist_head` visits exactly these nodes.
The loops of `getmem` and `freemem` are described once, by what they do to the
represented list: a walk skips a prefix without writing, and the writes behind
it bypass a node, splice one in, or change a length.
-/

namespace XinuRpi4.Memory

open Foundation MemoryProgram

/-- A node of the abstract free list. -/
@[ext] structure MemBlk where
  addr : ℕ
  mlength : ℕ
  deriving DecidableEq

namespace MemBlk

/-- First address behind the block. -/
def stop (b : MemBlk) : ℕ := b.addr + b.mlength

def header (b : MemBlk) : Header := .blk b.addr

def Disjoint (a b : MemBlk) : Prop := a.stop ≤ b.addr ∨ b.stop ≤ a.addr

theorem Disjoint.symm {a b : MemBlk} (h : a.Disjoint b) : b.Disjoint a := h.elim Or.inr Or.inl

end MemBlk

/-- The store of header cells in which two headers never overlap. -/
abbrev headerCells : Store (Loc → ℕ) Loc ℕ := cells Loc ℕ

@[simp] theorem headerCells_get (c : Loc → ℕ) (l : Loc) : headerCells.get c l = c l := rfl

@[simp] theorem headerCells_set (c : Loc → ℕ) (l : Loc) (v : ℕ) :
    headerCells.set c l v = Function.update c l v := rfl

/-- A pointer value as an optional header. -/
def ptr (a : ℕ) : Option Header := if a = 0 then none else some (.blk a)

@[simp] theorem ptr_eq_none {a : ℕ} : ptr a = none ↔ a = 0 := by
  unfold ptr
  split_ifs with h <;> simp [h]

theorem ptr_injective {a b : ℕ} (h : ptr a = ptr b) : a = b := by
  unfold ptr at h
  split_ifs at h <;> simp_all

theorem ptr_eq_some {a : ℕ} {h : Header} : ptr a = some h ↔ a ≠ 0 ∧ h = .blk a := by
  unfold ptr
  split_ifs with ha
  · simp [ha]
  · simp [ha, eq_comm]

/-- The successor function of the header cells. -/
def nextOf (c : Loc → ℕ) (h : Header) : Option Header := ptr (c (h, .mnext))

theorem nextOf_update_mnext (c : Loc → ℕ) (h : Header) (v : ℕ) :
    nextOf (Function.update c (h, .mnext) v) = Function.update (nextOf c) h (ptr v) := by
  funext k
  by_cases hk : k = h
  · subst hk
    simp [nextOf]
  · simp [nextOf, hk]

@[simp] theorem nextOf_update_mlength (c : Loc → ℕ) (h : Header) (v : ℕ) :
    nextOf (Function.update c (h, .mlength) v) = nextOf c := by
  funext k
  simp [nextOf]

/-- The header cells `c` hold the free list `l`. -/
structure Represents (c : Loc → ℕ) (l : List MemBlk) : Prop where
  chain : Segment (nextOf c) (some .memlistHead) (.memlistHead :: l.map MemBlk.header) none
  lengths : ∀ b ∈ l, c (b.header, .mlength) = b.mlength

/-- The header in front of the nodes that follow `pre`. -/
def lastHeader (pre : List MemBlk) : Header := (pre.map MemBlk.header).getLastD .memlistHead

@[simp] theorem lastHeader_nil : lastHeader [] = .memlistHead := rfl

@[simp] theorem lastHeader_concat (pre : List MemBlk) (b : MemBlk) :
    lastHeader (pre ++ [b]) = b.header := by
  simp [lastHeader, List.getLastD_eq_getLast?]

theorem memlistHead_notMem (l : List MemBlk) : Header.memlistHead ∉ l.map MemBlk.header := by
  simp [MemBlk.header]

/-- The headers up to `lastHeader pre`, with the last one split off. -/
theorem headers_eq_concat (pre : List MemBlk) :
    Header.memlistHead :: pre.map MemBlk.header =
      (Header.memlistHead :: pre.map MemBlk.header).dropLast ++ [lastHeader pre] := by
  have hne : Header.memlistHead :: pre.map MemBlk.header ≠ [] := by simp
  have hlast : (Header.memlistHead :: pre.map MemBlk.header).getLast hne = lastHeader pre := by
    simp [lastHeader, List.getLast_eq_getLastD]
  rw [← hlast, List.dropLast_append_getLast]

theorem lastHeader_mem (pre : List MemBlk) :
    lastHeader pre ∈ Header.memlistHead :: pre.map MemBlk.header := by
  rw [headers_eq_concat]
  simp

namespace Represents

variable {c : Loc → ℕ} {l pre post : List MemBlk} {b : MemBlk}

theorem addr_ne_zero (h : Represents c (pre ++ b :: post)) : b.addr ≠ 0 := by
  have hc := h.chain
  rw [List.map_append, ← List.cons_append, Segment.append_iff, headers_eq_concat] at hc
  obtain ⟨r, hpre, hpost⟩ := hc
  have hr : nextOf c (lastHeader pre) = some b.header :=
    (Segment.concat_iff.mp hpre).2.trans hpost.1
  obtain ⟨hne, hb⟩ := ptr_eq_some.mp hr
  rw [MemBlk.header, Header.blk.injEq] at hb
  rwa [hb]

/-- Walking to the last header of a prefix, and on from there. -/
theorem split (h : Represents c (pre ++ post)) :
    Segment (nextOf c) (some .memlistHead) (.memlistHead :: pre.map MemBlk.header)
        (nextOf c (lastHeader pre)) ∧
      Segment (nextOf c) (nextOf c (lastHeader pre)) (post.map MemBlk.header) none := by
  have hc := h.chain
  rw [List.map_append, ← List.cons_append, Segment.append_iff] at hc
  obtain ⟨r, hpre, hpost⟩ := hc
  have hr : nextOf c (lastHeader pre) = r := by
    rw [headers_eq_concat] at hpre
    exact (Segment.concat_iff.mp hpre).2
  rw [hr]
  exact ⟨hpre, hpost⟩

theorem next_eq (h : Represents c (pre ++ post)) :
    nextOf c (lastHeader pre) = (post.map MemBlk.header).head? :=
  h.split.2.head?_eq

theorem update_head_mlength (h : Represents c l) (v : ℕ) :
    Represents (Function.update c (.memlistHead, .mlength) v) l := by
  refine ⟨by simpa using h.chain, ?_⟩
  intro b hb
  rw [Function.update_of_ne (by simp [MemBlk.header])]
  exact h.lengths b hb

/-- Writing the length of one node. -/
theorem update_mlength (h : Represents c (pre ++ b :: post))
    (hnd : ((pre ++ b :: post).map MemBlk.header).Nodup) (v : ℕ) :
    Represents (Function.update c (b.header, .mlength) v) (pre ++ ⟨b.addr, v⟩ :: post) := by
  refine ⟨by simpa [MemBlk.header] using h.chain, ?_⟩
  have hne : ∀ x ∈ pre ++ post, x.header ≠ b.header := by
    intro x hx hxb
    have hmem : b.header ∈ (pre ++ post).map MemBlk.header := hxb ▸ List.mem_map_of_mem hx
    rw [List.map_append, List.map_cons] at hnd
    exact (List.nodup_middle.mp hnd).notMem (by simpa using hmem)
  intro x hx
  rcases List.mem_append.mp hx with hx | hx
  · rw [Function.update_of_ne (by simp [hne x (by simp [hx])])]
    exact h.lengths x (by simp [hx])
  · rcases List.mem_cons.mp hx with rfl | hx
    · exact Function.update_self ..
    · rw [Function.update_of_ne (by simp [hne x (by simp [hx])])]
      exact h.lengths x (by simp [hx])

/-- Redirecting the last header of a prefix to a chain of later nodes. -/
theorem redirect {q : ℕ}
    (hpre : Segment (nextOf c) (some .memlistHead) (.memlistHead :: pre.map MemBlk.header)
      (nextOf c (lastHeader pre)))
    (hpost : Segment (nextOf c) (ptr q) (post.map MemBlk.header) none)
    (hnd : ((pre ++ post).map MemBlk.header).Nodup)
    (hlen : ∀ b ∈ pre ++ post, c (b.header, .mlength) = b.mlength) :
    Represents (Function.update c (lastHeader pre, .mnext) q) (pre ++ post) := by
  have hnd' : (Header.memlistHead :: (pre ++ post).map MemBlk.header).Nodup :=
    List.nodup_cons.mpr ⟨memlistHead_notMem _, hnd⟩
  rw [List.map_append, ← List.cons_append] at hnd'
  constructor
  · rw [nextOf_update_mnext, List.map_append, ← List.cons_append, Segment.append_iff]
    refine ⟨ptr q, ?_, ?_⟩
    · have hnl := (List.nodup_append.mp hnd').1
      rw [headers_eq_concat] at hpre hnl ⊢
      apply hpre.relink
      exact fun hmem => (List.nodup_append.mp hnl).2.2 _ hmem _ (by simp) rfl
    · rw [Segment.update_of_notMem]
      · exact hpost
      · intro hmem
        exact (List.nodup_append.mp hnd').2.2 _ (lastHeader_mem pre) _ hmem rfl
  · intro b hb
    rw [Function.update_of_ne (by simp)]
    exact hlen b hb

/-- Unlinking a node: its predecessor takes over its successor. -/
theorem bypass (h : Represents c (pre ++ b :: post))
    (hnd : ((pre ++ b :: post).map MemBlk.header).Nodup) :
    Represents (Function.update c (lastHeader pre, .mnext) (c (b.header, .mnext)))
      (pre ++ post) := by
  obtain ⟨hpre, hpost⟩ := h.split
  apply redirect hpre hpost.2
  · rw [List.map_append, List.map_cons] at hnd
    simpa using (List.nodup_middle.mp hnd).of_cons
  · intro x hx
    apply h.lengths x
    rcases List.mem_append.mp hx with hx | hx <;> simp [hx]

/-- Writing a fresh node and linking it behind `pre`, in front of a chain `q`. -/
theorem splice {q a n : ℕ}
    (hpre : Segment (nextOf c) (some .memlistHead) (.memlistHead :: pre.map MemBlk.header)
      (nextOf c (lastHeader pre)))
    (hpost : Segment (nextOf c) (ptr q) (post.map MemBlk.header) none)
    (hnd : ((pre ++ ⟨a, n⟩ :: post).map MemBlk.header).Nodup) (ha : a ≠ 0)
    (hlen : ∀ b ∈ pre ++ post, c (b.header, .mlength) = b.mlength) :
    Represents
      (Function.update (Function.update (Function.update c (.blk a, .mnext) q)
        (.blk a, .mlength) n) (lastHeader pre, .mnext) a)
      (pre ++ ⟨a, n⟩ :: post) := by
  have hmid := hnd
  rw [List.map_append, List.map_cons] at hmid
  have hfresh := (List.nodup_middle.mp hmid).notMem
  have hfreshPre : Header.blk a ∉ Header.memlistHead :: pre.map MemBlk.header := by
    intro hmem
    rcases List.mem_cons.mp hmem with h | h
    · simp at h
    · exact hfresh (List.mem_append_left _ h)
  have hfreshPost : Header.blk a ∉ post.map MemBlk.header :=
    fun hmem => hfresh (List.mem_append_right _ hmem)
  have hnext : nextOf (Function.update (Function.update c (.blk a, .mnext) q)
      (.blk a, .mlength) n) = Function.update (nextOf c) (.blk a) (ptr q) := by
    rw [nextOf_update_mlength, nextOf_update_mnext]
  have hlast : lastHeader pre ≠ .blk a := fun h => hfreshPre (h ▸ lastHeader_mem pre)
  apply redirect
  · rw [hnext, Segment.update_of_notMem hfreshPre, Function.update_of_ne hlast]
    exact hpre
  · rw [hnext, List.map_cons, Segment.cons_iff]
    refine ⟨ptr_eq_some.mpr ⟨ha, rfl⟩, ?_⟩
    rw [Segment.update_of_notMem hfreshPost]
    simpa [MemBlk.header] using hpost
  · exact hnd
  · have hne : ∀ b ∈ pre ++ post, b.header ≠ .blk a := by
      intro b hb hba
      exact hfresh (by simpa [← hba, MemBlk.header] using List.mem_map_of_mem (f := MemBlk.header) hb)
    have hold : ∀ b ∈ pre ++ post, Function.update (Function.update c (.blk a, .mnext) q)
        (.blk a, .mlength) n (b.header, .mlength) = b.mlength := by
      intro b hb
      rw [Function.update_of_ne (by simp [hne b hb]), Function.update_of_ne (by simp), hlen b hb]
    intro b hb
    rcases List.mem_append.mp hb with hb | hb
    · exact hold b (by simp [hb])
    · rcases List.mem_cons.mp hb with rfl | hb
      · exact Function.update_self ..
      · exact hold b (by simp [hb])

end Represents

/-- Strictly sorted, non-empty, pairwise disjoint and never adjacent blocks of
a heap that ends below `2 ^ 64`. -/
structure Coalesced (g : HeapBounds) (l : List MemBlk) : Prop where
  separated : l.Pairwise fun a b => a.stop < b.addr
  nonempty : ∀ b ∈ l, 0 < b.mlength
  inside : ∀ b ∈ l, g.heapLo ≤ b.addr ∧ b.stop ≤ g.heapHi

namespace Coalesced

variable {g : HeapBounds} {l : List MemBlk}

theorem nodup_headers (h : Coalesced g l) : (l.map MemBlk.header).Nodup := by
  rw [List.Nodup, List.pairwise_map]
  apply h.separated.imp
  intro a b hab heq
  simp only [MemBlk.header, Header.blk.injEq] at heq
  simp only [MemBlk.stop] at hab
  omega

theorem pairwise_middle {pre post : List MemBlk} {b : MemBlk}
    (h : Coalesced g (pre ++ b :: post)) :
    Coalesced g (pre ++ post) ∧ (∀ x ∈ pre, x.stop < b.addr) ∧ ∀ y ∈ post, b.stop < y.addr := by
  obtain ⟨hpre, hbpost, hcross⟩ := List.pairwise_append.mp h.separated
  obtain ⟨hb, hpost⟩ := List.pairwise_cons.mp hbpost
  refine ⟨⟨List.pairwise_append.mpr ⟨hpre, hpost, ?_⟩, ?_, ?_⟩, ?_, hb⟩
  · exact fun x hx y hy => hcross x hx y (by simp [hy])
  · exact fun x hx => h.nonempty x (by simp at hx ⊢; tauto)
  · exact fun x hx => h.inside x (by simp at hx ⊢; tauto)
  · exact fun x hx => hcross x hx b (by simp)

/-- Putting a block into a gap that it does not fill to either side. -/
theorem insert_middle {pre post : List MemBlk} {b : MemBlk} (h : Coalesced g (pre ++ post))
    (hpos : 0 < b.mlength) (hin : g.heapLo ≤ b.addr ∧ b.stop ≤ g.heapHi)
    (hpre : ∀ x ∈ pre, x.stop < b.addr) (hpost : ∀ y ∈ post, b.stop < y.addr) :
    Coalesced g (pre ++ b :: post) := by
  obtain ⟨h₁, h₂, h₃⟩ := List.pairwise_append.mp h.separated
  refine ⟨List.pairwise_append.mpr ⟨h₁, List.pairwise_cons.mpr ⟨hpost, h₂⟩, ?_⟩, ?_, ?_⟩
  · intro x hx y hy
    rcases List.mem_cons.mp hy with rfl | hy
    · exact hpre x hx
    · exact h₃ x hx y hy
  · intro x hx
    rcases (by simpa using hx : x ∈ pre ∨ x = b ∨ x ∈ post) with hx | rfl | hx
    · exact h.nonempty x (by simp [hx])
    · exact hpos
    · exact h.nonempty x (by simp [hx])
  · intro x hx
    rcases (by simpa using hx : x ∈ pre ∨ x = b ∨ x ∈ post) with hx | rfl | hx
    · exact h.inside x (by simp [hx])
    · exact hin
    · exact h.inside x (by simp [hx])

end Coalesced

/-- An access to `memlist_head` or to one of the headers `hs` that stores, if
anything, an `unsigned long`. -/
def InFootprint (hs : List Header) (a : Access Loc ℕ) : Prop :=
  a.loc.1 ∈ Header.memlistHead :: hs ∧ a.StoresIn {v | v < ulongSize}

theorem InFootprint.mono {hs hs' : List Header} {a : Access Loc ℕ} (h : InFootprint hs a)
    (hsub : hs ⊆ hs') : InFootprint hs' a :=
  ⟨List.cons_subset_cons _ hsub h.1, h.2⟩

@[simp] theorem inFootprint_read {hs : List Header} {h : Header} {f : Field} :
    InFootprint hs (.read (h, f)) ↔ h = .memlistHead ∨ h ∈ hs := by
  simp [InFootprint, Access.loc, Access.StoresIn]

@[simp] theorem inFootprint_write {hs : List Header} {h : Header} {f : Field} {v : ℕ} :
    InFootprint hs (.write (h, f) v) ↔ (h = .memlistHead ∨ h ∈ hs) ∧ v < ulongSize := by
  simp [InFootprint, Access.loc, Access.StoresIn]

/-- The headers outside the list are as they were. -/
def Untouched (c c' : Loc → ℕ) (l : List MemBlk) : Prop :=
  ∀ hd, hd ∉ Header.memlistHead :: l.map MemBlk.header → ∀ f, c' (hd, f) = c (hd, f)

theorem Untouched.refl (c : Loc → ℕ) (l : List MemBlk) : Untouched c c l := fun _ _ _ => rfl

theorem Untouched.trans {c c' c'' : Loc → ℕ} {l : List MemBlk} (h : Untouched c c' l)
    (h' : Untouched c' c'' l) : Untouched c c'' l :=
  fun hd hhd f => (h' hd hhd f).trans (h hd hhd f)

theorem Untouched.update {c c' : Loc → ℕ} {l : List MemBlk} (h : Untouched c c' l) {hd : Header}
    (hhd : hd ∈ Header.memlistHead :: l.map MemBlk.header) (f : Field) (v : ℕ) :
    Untouched c (Function.update c' (hd, f) v) l := by
  intro hd' hhd' f'
  have hne : (hd', f') ≠ (hd, f) := by
    intro heq
    cases heq
    exact hhd' hhd
  rw [Function.update_of_ne hne]
  exact h hd' hhd' f'

theorem uadd_lt (a b : ℕ) : uadd a b < ulongSize := Nat.mod_lt _ (by norm_num)

theorem usub_lt (a b : ℕ) : usub a b < ulongSize := Nat.mod_lt _ (by norm_num)

theorem uadd_eq {a b : ℕ} (h : a + b < ulongSize) : uadd a b = a + b := Nat.mod_eq_of_lt h

theorem usub_eq {a b : ℕ} (hb : b ≤ a) (ha : a < ulongSize) : usub a b = a - b := by
  unfold usub
  rw [show a + (ulongSize - b) = a - b + ulongSize by omega, Nat.add_mod_right]
  exact Nat.mod_eq_of_lt (by omega)

theorem Coalesced.addr_lt {g : HeapBounds} {l : List MemBlk} (h : Coalesced g l)
    (hhi : g.heapHi < ulongSize) : ∀ b ∈ l, b.addr < ulongSize := by
  intro b hb
  have hin := h.inside b hb
  simp only [MemBlk.stop] at hin
  omega

theorem Represents.mnext_lt {c : Loc → ℕ} {pre post : List MemBlk}
    (h : Represents c (pre ++ post)) (hpost : ∀ b ∈ post, b.addr < ulongSize) :
    c (lastHeader pre, .mnext) < ulongSize := by
  have hnext := h.next_eq
  cases post with
  | nil =>
    have h0 : c (lastHeader pre, .mnext) = 0 := by simpa [nextOf] using hnext
    rw [h0]
    norm_num
  | cons d post =>
    obtain ⟨-, hd⟩ := ptr_eq_some.mp hnext
    have hda : d.addr = c (lastHeader pre, .mnext) := by simpa [MemBlk.header] using hd
    exact hda ▸ hpost d (by simp)

/-- The bytes of a list of blocks. -/
def Covers (l : List MemBlk) (x : ℕ) : Prop := ∃ b ∈ l, b.addr ≤ x ∧ x < b.stop

@[simp] theorem covers_nil (x : ℕ) : ¬ Covers [] x := by simp [Covers]

@[simp] theorem covers_cons (b : MemBlk) (l : List MemBlk) (x : ℕ) :
    Covers (b :: l) x ↔ b.addr ≤ x ∧ x < b.stop ∨ Covers l x := by
  simp [Covers]

@[simp] theorem covers_append (l₁ l₂ : List MemBlk) (x : ℕ) :
    Covers (l₁ ++ l₂) x ↔ Covers l₁ x ∨ Covers l₂ x := by
  simp [Covers, or_and_right, exists_or]

/-- Total length of a list of blocks. -/
def bytes (l : List MemBlk) : ℕ := (l.map MemBlk.mlength).sum

@[simp] theorem bytes_nil : bytes [] = 0 := rfl

@[simp] theorem bytes_cons (b : MemBlk) (l : List MemBlk) :
    bytes (b :: l) = b.mlength + bytes l := by simp [bytes]

@[simp] theorem bytes_append (l₁ l₂ : List MemBlk) :
    bytes (l₁ ++ l₂) = bytes l₁ + bytes l₂ := by simp [bytes]

end XinuRpi4.Memory
