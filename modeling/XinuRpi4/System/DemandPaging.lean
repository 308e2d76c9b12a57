import XinuRpi4.System.LinkLayout
import XinuRpi4.System.Probe

/-!
# Demand paging

The window from 0x80000000 on has no memory behind it until it is touched. A page gets the next
frame of `vmd_pool` at its first touch, so that the pages in the order of their first touches
say which frame is whose.
-/

namespace XinuRpi4.System

open Foundation

/-- With the frames of `vmd_pool`. -/
structure DemandLayout extends Layout where
  vmdPool : ℕ
  vmdPool_page : vmdPool % page = 0
  vmdPool_end : vmdPool + 512 * page ≤ 2 ^ 48

def vmdBase64 : UInt64 := 0x80000000
def vmdEnd64 : UInt64 := 0x80400000

/-- The tables, the memory, and the counters of the handler. -/
structure VmdTables where
  mem : TableMemory
  ram : ℕ → UInt8
  poolNext : ℕ
  faults : UInt64
  mapped : UInt64
  oom : UInt64

/-- The frame at a physical address is filled with zeros. -/
def zeroFill (ram : ℕ → UInt8) (pa : ℕ) : ℕ → UInt8 :=
  fun a => if pa ≤ a ∧ a < pa + page then 0 else ram a

namespace DemandLayout

variable (L : DemandLayout)

/-- `vm_demand_init`, with what was in memory before. -/
def init (mem : TableMemory) (ram : ℕ → UInt8) : VmdTables := ⟨L.vmDemandInit mem, ram, 0, 0, 0, 0⟩

/-- The entry of a page that has got the frame at `pa`. -/
def pageEntry (pa : ℕ) : BitVec 64 :=
  (BitVec.ofNat 64 pa &&& ~~~BitVec.ofNat 64 (page - 1)) ||| normalAttr false true ||| dPage

def vmFault (s : VmdTables) (va : UInt64) : Bool × VmdTables :=
  if va < vmdBase64 ∨ va ≥ vmdEnd64 then (false, s)
  else
    let off := va - vmdBase64
    let l2i := (off >>> 21).toNat
    let l3i := ((off >>> 12) &&& 0x1FF).toNat
    if l2i ≥ 2 then (false, s)
    else if s.mem (L.l3Vmd + l2i * page) l3i &&& 1#64 ≠ 0#64 then (true, s)
    else if s.poolNext ≥ vmdPoolPages then (false, { s with oom := s.oom + 1 })
    else
      let pa := L.vmdPool + s.poolNext * page
      let table := Function.update (s.mem (L.l3Vmd + l2i * page)) l3i (pageEntry pa)
      (true, { s with
        mem := Function.update s.mem (L.l3Vmd + l2i * page) table
        ram := zeroFill s.ram pa
        poolNext := s.poolNext + 1
        faults := s.faults + 1
        mapped := s.mapped + 1 })

/-- What an access through the window reaches; `none` is a fault. -/
def access (s : VmdTables) (va : UInt64) : Option ℕ :=
  (tableWalk s.mem L.l1Table va.toNat).map Mapping.pa

def load (s : VmdTables) (va : UInt64) : Option UInt8 := (L.access s va).map s.ram

/-- A store that faults writes nothing. -/
def store (s : VmdTables) (va : UInt64) (b : UInt8) : VmdTables :=
  match L.access s va with
  | some pa => { s with ram := Function.update s.ram pa b }
  | none => s

end DemandLayout

inductive VmEvent
  | fault (va : UInt64)
  | store (va : UInt64) (b : UInt8)

namespace DemandLayout

variable (L : DemandLayout)

def step (s : VmdTables) : VmEvent → VmdTables
  | .fault va => (L.vmFault s va).2
  | .store va b => L.store s va b

def run (s : VmdTables) (es : List VmEvent) : VmdTables := es.foldl L.step s

/-- In the demand window. -/
def InWindow (va : UInt64) : Prop := vmdBase64 ≤ va ∧ va < vmdEnd64

instance (va : UInt64) : Decidable (InWindow va) := inferInstanceAs (Decidable (_ ∧ _))

/-- The page of the window, counted from its first one. -/
def windowPage (va : UInt64) : ℕ := (va.toNat - 2 ^ 31) / page

/-- The entry of a page of the window. -/
def entry (s : VmdTables) (n : ℕ) : BitVec 64 := s.mem (L.l3Vmd + n / 512 * page) (n % 512)

def Present (s : VmdTables) (n : ℕ) : Prop := L.entry s n &&& 1#64 ≠ 0#64

instance (s : VmdTables) (n : ℕ) : Decidable (L.Present s n) := inferInstanceAs (Decidable (_ ≠ _))

variable {L} {s s' : VmdTables} {va va' : UInt64} {n : ℕ}

theorem inWindow_iff : InWindow va ↔ 2 ^ 31 ≤ va.toNat ∧ va.toNat < 2 ^ 31 + 2 ^ 22 := by
  rw [InWindow, UInt64.le_iff_toNat_le, UInt64.lt_iff_toNat_lt]
  exact Iff.rfl

theorem windowPage_lt (h : InWindow va) : windowPage va < 1024 := by
  rw [inWindow_iff] at h
  unfold windowPage page
  omega

theorem indices (h : InWindow va) : ((va - vmdBase64) >>> 21).toNat = windowPage va / 512 ∧
    (((va - vmdBase64) >>> 12) &&& 0x1FF).toNat = windowPage va % 512 := by
  have hw := inWindow_iff.mp h
  have hbase : vmdBase64.toNat = 2 ^ 31 := rfl
  have hoff : (va - vmdBase64).toNat = va.toNat - 2 ^ 31 := by
    rw [UInt64.toNat_sub_of_le _ _ h.1, hbase]
  constructor
  · rw [UInt64.toNat_shiftRight, hoff, Nat.shiftRight_eq_div_pow]
    unfold windowPage page
    have h21 : (21 : UInt64).toNat % 64 = 21 := rfl
    rw [h21]
    omega
  · have h12 : (12 : UInt64).toNat % 64 = 12 := rfl
    have hmask : (0x1FF : UInt64).toNat = 2 ^ 9 - 1 := rfl
    rw [UInt64.toNat_and, UInt64.toNat_shiftRight, hoff, Nat.shiftRight_eq_div_pow, h12, hmask,
      Nat.and_two_pow_sub_one_eq_mod]
    rfl

/-- The state when a page gets the next frame. -/
def mapPage (L : DemandLayout) (s : VmdTables) (n : ℕ) : VmdTables :=
  { s with
    mem := Function.update s.mem (L.l3Vmd + n / 512 * page)
      (Function.update (s.mem (L.l3Vmd + n / 512 * page)) (n % 512)
        (pageEntry (L.vmdPool + s.poolNext * page)))
    ram := zeroFill s.ram (L.vmdPool + s.poolNext * page)
    poolNext := s.poolNext + 1
    faults := s.faults + 1
    mapped := s.mapped + 1 }

theorem vmFault_outside (h : ¬InWindow va) : L.vmFault s va = (false, s) := by
  rw [InWindow, not_and_or, UInt64.not_le, UInt64.not_lt] at h
  exact if_pos h

theorem vmFault_inside (h : InWindow va) : L.vmFault s va =
    if L.Present s (windowPage va) then (true, s)
    else if vmdPoolPages ≤ s.poolNext then (false, { s with oom := s.oom + 1 })
    else (true, L.mapPage s (windowPage va)) := by
  obtain ⟨hl2, hl3⟩ := indices h
  have hlt := windowPage_lt h
  have hin : ¬(va < vmdBase64 ∨ va ≥ vmdEnd64) := by
    rw [not_or, UInt64.not_lt, ge_iff_le, UInt64.not_le]
    exact h
  have hrow : ¬windowPage va / 512 ≥ 2 := by omega
  simp only [vmFault, hl2, hl3, if_neg hin, if_neg hrow]
  rfl

/-- Frame `k` of the pool. -/
def frame (L : DemandLayout) (k : ℕ) : ℕ := L.vmdPool + k * page

/-- The pages that have been touched, after one more touch. -/
def touch (ps : List ℕ) (n : ℕ) : List ℕ :=
  if n ∈ ps then ps else if ps.length < vmdPoolPages then ps ++ [n] else ps

/-- The pages with a frame, each with the one of its place in the list. -/
structure Touched (L : DemandLayout) (s : VmdTables) (ps : List ℕ) : Prop where
  nodup : ps.Nodup
  lt : ∀ n ∈ ps, n < 1024
  length : ps.length ≤ vmdPoolPages
  poolNext : s.poolNext = ps.length
  mapped : s.mapped.toNat = ps.length
  entries : ∀ n < 1024, L.entry s n = if n ∈ ps then pageEntry (L.frame (ps.idxOf n)) else 0#64
  l1 : s.mem L.l1Table 2 = BitVec.ofNat 64 L.l2Vmd ||| dTable
  l2 : ∀ i < 2, s.mem L.l2Vmd i = BitVec.ofNat 64 (L.l3Vmd + i * page) ||| dTable

theorem pageEntry_eq {pa : ℕ} (hpage : pa % page = 0) :
    pageEntry pa = BitVec.ofNat 64 pa ||| (normalAttr false true ||| dPage) := by
  have hclear : BitVec.ofNat 64 pa &&& ~~~BitVec.ofNat 64 (page - 1) = BitVec.ofNat 64 pa := by
    apply BitVec.eq_of_getLsbD_eq
    intro i hi
    rw [BitVec.getLsbD_and, BitVec.getLsbD_not]
    rcases lt_or_ge i 12 with h12 | h12
    · have hbit : (BitVec.ofNat 64 pa).getLsbD i = false := by
        have hmod : (pa % 2 ^ 12).testBit i = pa.testBit i := by
          rw [Nat.testBit_mod_two_pow, decide_eq_true h12, Bool.true_and]
        have hzero : pa % 2 ^ 12 = 0 := hpage
        rw [BitVec.getLsbD_ofNat, ← hmod, hzero, Nat.zero_testBit, Bool.and_false]
      rw [hbit, Bool.false_and]
    · have hmask : (BitVec.ofNat 64 (page - 1)).getLsbD i = false := by
        rw [BitVec.getLsbD_ofNat, Nat.testBit_lt_two_pow, Bool.and_false]
        exact (show page - 1 < 2 ^ 12 by decide).trans_le (Nat.pow_le_pow_right (by decide) h12)
      rw [hmask, decide_eq_true hi, Bool.not_false, Bool.and_true, Bool.and_true]
  rw [pageEntry, hclear, BitVec.or_assoc]

theorem frame_page (k : ℕ) : L.frame k % page = 0 := by
  rw [frame, Nat.add_mul_mod_self_right, L.vmdPool_page]

theorem frame_lt {k : ℕ} (hk : k < 512) : L.frame k + page ≤ 2 ^ 48 := by
  have hend := L.vmdPool_end
  unfold frame page at *
  omega

theorem pageEntry_address {k : ℕ} (hk : k < 512) : descAddress (pageEntry (L.frame k)) = L.frame k := by
  have hlt := L.frame_lt hk
  rw [pageEntry_eq (frame_page k)]
  refine desc_address (frame_page k) ?_ (by decide)
  unfold page at hlt
  omega

theorem pageEntry_type {k : ℕ} (hk : k < 512) : pageEntry (L.frame k) &&& 3#64 = 3#64 := by
  have hlt := L.frame_lt hk
  rw [pageEntry_eq (frame_page k), desc_type (frame_page k) (by unfold page at hlt; omega)]
  decide

theorem pageEntry_present {k : ℕ} (hk : k < 512) : pageEntry (L.frame k) &&& 1#64 ≠ 0#64 := by
  have htype := pageEntry_type (L := L) hk
  intro hzero
  have hone : pageEntry (L.frame k) &&& 3#64 &&& 1#64 = pageEntry (L.frame k) &&& 1#64 := by
    rw [BitVec.and_assoc]
    rfl
  rw [htype, hzero] at hone
  exact absurd hone (by decide)

namespace Touched

variable {ps : List ℕ}

theorem present_iff (h : Touched L s ps) (hn : n < 1024) : L.Present s n ↔ n ∈ ps := by
  rw [Present, h.entries n hn]
  split_ifs with hmem
  · have hidx := List.idxOf_lt_length_of_mem hmem
    have hlen : ps.length ≤ 512 := h.length
    exact iff_of_true (pageEntry_present (by omega)) hmem
  · exact iff_of_false (fun hne => hne (by decide)) hmem

end Touched

theorem tables_ne (L : DemandLayout) {t : ℕ} (ht : t < 2) :
    L.l1Table ≠ L.l3Vmd + t * page ∧ L.l2Vmd ≠ L.l3Vmd + t * page ∧ L.l1Table ≠ L.l2Vmd := by
  have hd := L.tables_distinct
  simp only [List.nodup_cons, List.mem_cons, List.not_mem_nil, or_false, not_or] at hd
  obtain ⟨⟨-, -, h12, h1, h1'⟩, -, -, ⟨h2, h2'⟩, -⟩ := hd
  have ht' : t = 0 ∨ t = 1 := by omega
  rcases ht' with rfl | rfl
  · simpa using ⟨h1, h2, h12⟩
  · simpa using ⟨h1', h2', h12⟩

theorem init_touched (L : DemandLayout) (mem : TableMemory) (ram : ℕ → UInt8) :
    Touched L (L.init mem ram) [] where
  nodup := List.nodup_nil
  lt := by simp
  length := Nat.zero_le _
  poolNext := rfl
  mapped := rfl
  entries n hn := by
    have hrow : n / 512 < 2 := by omega
    obtain ⟨h1, h2, -⟩ := L.tables_ne hrow
    rw [if_neg List.not_mem_nil]
    have hrow' : n / 512 = 0 ∨ n / 512 = 1 := by omega
    simp only [entry, init, Layout.vmDemandInit, writeTable, Function.update_of_ne h1.symm,
      Function.update_of_ne h2.symm]
    rcases hrow' with hr | hr
    · have hne : L.l3Vmd ≠ L.l3Vmd + page := by
        unfold page
        omega
      simp [hr, Function.update_of_ne hne]
    · simp [hr]
  l1 := by
    simp [init, Layout.vmDemandInit, writeTable]
  l2 i hi := by
    obtain ⟨-, -, h12⟩ := L.tables_ne (show 0 < 2 by decide)
    simp only [init, Layout.vmDemandInit, writeTable, Function.update_of_ne h12.symm,
      Function.update_self]
    exact if_pos hi

theorem entry_mapPage (L : DemandLayout) (s : VmdTables) (n n' : ℕ) : L.entry (L.mapPage s n) n' =
    if n' = n then pageEntry (L.frame s.poolNext) else L.entry s n' := by
  unfold entry mapPage
  by_cases hrow : n' / 512 = n / 512
  · simp only [hrow, Function.update_self]
    by_cases hcol : n' % 512 = n % 512
    · have hn : n' = n := by omega
      rw [hcol, Function.update_self, if_pos hn]
      rfl
    · have hn : n' ≠ n := fun h => hcol (by rw [h])
      rw [Function.update_of_ne hcol, if_neg hn]
  · have hn : n' ≠ n := fun h => hrow (by rw [h])
    have hbase : L.l3Vmd + n' / 512 * page ≠ L.l3Vmd + n / 512 * page := by
      unfold page
      omega
    simp only [Function.update_of_ne hbase, if_neg hn]

namespace Touched

variable {ps : List ℕ}

theorem mapPage (h : Touched L s ps) (hn : n < 1024) (hnew : n ∉ ps)
    (hroom : ps.length < vmdPoolPages) : Touched L (L.mapPage s n) (ps ++ [n]) where
  nodup := by
    rw [List.nodup_append]
    exact ⟨h.nodup, List.nodup_singleton n, by
      intro a ha b hb
      rw [List.mem_singleton.mp hb]
      rintro rfl
      exact hnew ha⟩
  lt := List.forall_mem_append.mpr ⟨h.lt, by simpa using hn⟩
  length := by
    rw [List.length_append, List.length_singleton]
    exact hroom
  poolNext := by
    rw [List.length_append, List.length_singleton, ← h.poolNext]
    rfl
  mapped := by
    have hmapped := h.mapped
    have hlen : ps.length < 512 := hroom
    have hone : (1 : UInt64).toNat = 1 := rfl
    rw [List.length_append, List.length_singleton]
    change (s.mapped + 1).toNat = ps.length + 1
    rw [UInt64.toNat_add, hone]
    omega
  entries n' hn' := by
    rw [entry_mapPage]
    by_cases hsame : n' = n
    · rw [if_pos hsame, hsame, if_pos (by simp), h.poolNext,
        List.idxOf_append_of_notMem hnew, List.idxOf_cons_self, Nat.add_zero]
    · rw [if_neg hsame, h.entries n' hn']
      by_cases hmem : n' ∈ ps
      · rw [if_pos hmem, if_pos (by simp [hmem]), List.idxOf_append_of_mem hmem]
      · rw [if_neg hmem, if_neg (by simp [hmem, hsame])]
  l1 := by
    obtain ⟨h1, -, -⟩ := L.tables_ne (show n / 512 < 2 by omega)
    rw [← h.l1]
    exact congrFun (Function.update_of_ne h1 _ _) 2
  l2 i hi := by
    obtain ⟨-, h2, -⟩ := L.tables_ne (show n / 512 < 2 by omega)
    rw [← h.l2 i hi]
    exact congrFun (Function.update_of_ne h2 _ _) i

/-- A fault does what a touch does. -/
theorem vmFault (h : Touched L s ps) (hva : InWindow va) :
    Touched L (L.vmFault s va).2 (touch ps (windowPage va)) := by
  have hlt := windowPage_lt hva
  rw [vmFault_inside hva, touch]
  by_cases hmem : windowPage va ∈ ps
  · rw [if_pos ((h.present_iff hlt).mpr hmem), if_pos hmem]
    exact h
  · rw [if_neg (mt (h.present_iff hlt).mp hmem), if_neg hmem]
    by_cases hroom : ps.length < vmdPoolPages
    · rw [if_neg (by rw [h.poolNext]; omega), if_pos hroom]
      exact h.mapPage hlt hmem hroom
    · rw [if_pos (by rw [h.poolNext]; omega), if_neg hroom]
      exact ⟨h.nodup, h.lt, h.length, h.poolNext, h.mapped, h.entries, h.l1, h.l2⟩

theorem store (h : Touched L s ps) (va : UInt64) (b : UInt8) : Touched L (L.store s va b) ps := by
  unfold DemandLayout.store
  split
  · exact ⟨h.nodup, h.lt, h.length, h.poolNext, h.mapped, h.entries, h.l1, h.l2⟩
  · exact h

/-- The pages touched so far stay the first ones. -/
theorem step (h : Touched L s ps) (e : VmEvent) : ∃ qs, ps <+: qs ∧ Touched L (L.step s e) qs := by
  cases e with
  | fault va =>
    by_cases hva : InWindow va
    · refine ⟨_, ?_, h.vmFault hva⟩
      unfold touch
      split_ifs
      · exact List.prefix_rfl
      · exact List.prefix_append ps _
      · exact List.prefix_rfl
    · refine ⟨ps, List.prefix_rfl, ?_⟩
      rw [DemandLayout.step, vmFault_outside hva]
      exact h
  | store va b => exact ⟨ps, List.prefix_rfl, h.store va b⟩

theorem run (h : Touched L s ps) (es : List VmEvent) :
    ∃ qs, ps <+: qs ∧ Touched L (L.run s es) qs := by
  induction es generalizing s ps with
  | nil => exact ⟨ps, List.prefix_rfl, h⟩
  | cons e es ih =>
    obtain ⟨qs, hpre, hstep⟩ := h.step e
    obtain ⟨rs, hpre', hrun⟩ := ih hstep
    exact ⟨rs, hpre.trans hpre', hrun⟩

end Touched

/-- What a probe sees of the window. -/
def seen (ps : List ℕ) : Vmd := ⟨ps.reverse, ps.length⟩

theorem walk_indices (hva : InWindow va) : va.toNat < 2 ^ 39 ∧ va.toNat / 2 ^ 30 % 512 = 2 ∧
    va.toNat / 2 ^ 21 % 512 = windowPage va / 512 ∧ va.toNat / 2 ^ 12 % 512 = windowPage va % 512 := by
  rw [inWindow_iff] at hva
  unfold windowPage page
  omega

theorem pageEntry_leaf {k : ℕ} (hk : k < 512) (a : ℕ) : leafMapping (pageEntry (L.frame k)) 12 a false false =
    some ⟨L.frame k + a % page, true, false⟩ := by
  obtain ⟨-, -, haf, hro, hxn⟩ := normalAttr_leaf false true dPage (.inl rfl)
  have hpage := L.frame_page k
  have hlt : L.frame k < 2 ^ 48 := by
    have hend := L.frame_lt hk
    unfold page at hend
    omega
  have hdiv : L.frame k / 2 ^ 12 * 2 ^ 12 = L.frame k := by
    unfold page at hpage
    omega
  rw [leafMapping, pageEntry_address hk, pageEntry_eq hpage, getLsbD_desc hpage hlt (by omega),
    getLsbD_desc hpage hlt (by omega), getLsbD_desc hpage hlt (by omega), haf, hro, hxn, hdiv]
  rfl

namespace Touched

variable {ps : List ℕ}

theorem access (h : Touched L s ps) (hva : InWindow va) : L.access s va =
    if windowPage va ∈ ps then some (L.frame (ps.idxOf (windowPage va)) + va.toNat % page)
    else none := by
  obtain ⟨hlt, h1, h2, h3⟩ := walk_indices hva
  have hrow : windowPage va / 512 < 2 := by
    have hpage := windowPage_lt hva
    omega
  have hl2 := L.tables_page L.l2Vmd (by simp)
  have hl3 : (L.l3Vmd + windowPage va / 512 * page) % page = 0 ∧
      L.l3Vmd + windowPage va / 512 * page < 2 ^ 48 := by
    have hcase : windowPage va / 512 = 0 ∨ windowPage va / 512 = 1 := by omega
    rcases hcase with hr | hr <;> rw [hr]
    · simpa using L.tables_page L.l3Vmd (by simp)
    · simpa using L.tables_page (L.l3Vmd + page) (by simp)
  obtain ⟨hd₁, ha₁, hn₁, hx₁⟩ := table_desc hl2.1 hl2.2
  obtain ⟨hd₂, ha₂, hn₂, hx₂⟩ := table_desc hl3.1 hl3.2
  have hentry : s.mem (L.l3Vmd + windowPage va / 512 * page) (windowPage va % 512) =
      if windowPage va ∈ ps then pageEntry (L.frame (ps.idxOf (windowPage va))) else 0#64 :=
    h.entries _ (windowPage_lt hva)
  simp only [DemandLayout.access, tableWalk, if_neg (not_le.mpr hlt), h1, h2, h3, h.l1, hd₁, ha₁,
    if_neg three_ne_one, if_true, h.l2 _ hrow, hd₂, ha₂, hentry, hn₁, hn₂, hx₁, hx₂, Bool.or_false]
  by_cases hmem : windowPage va ∈ ps
  · have hidx : ps.idxOf (windowPage va) < 512 :=
      (List.idxOf_lt_length_of_mem hmem).trans_le h.length
    simp only [if_pos hmem, if_pos (pageEntry_type hidx), pageEntry_leaf hidx]
    rfl
  · have hfault : ¬0#64 &&& 3#64 = 3#64 := by decide
    simp only [if_neg hmem, if_neg hfault]
    rfl

/-- What is stored through one page is not loaded through another. -/
theorem load_store (h : Touched L s ps) (hva : InWindow va) (hva' : InWindow va')
    (hne : windowPage va ≠ windowPage va') (b : UInt8) :
    L.load (L.store s va b) va' = L.load s va' := by
  have hacc := h.access hva
  have hacc' := h.access hva'
  unfold DemandLayout.store
  split
  · next pa hpa =>
    have hmem' : L.access { s with ram := Function.update s.ram pa b } va' = L.access s va' := rfl
    rw [load, load, hmem', hacc']
    split_ifs with hin'
    · rw [hacc] at hpa
      split_ifs at hpa with hin
      obtain rfl := Option.some_injective _ hpa
      have hidx : ps.idxOf (windowPage va) ≠ ps.idxOf (windowPage va') :=
        fun heq => hne ((List.idxOf_inj hin).mp heq)
      have hpa : L.frame (ps.idxOf (windowPage va')) + va'.toNat % page ≠
          L.frame (ps.idxOf (windowPage va)) + va.toNat % page := by
        unfold frame page
        omega
      simp only [Option.map_some, Function.update_of_ne hpa]
    · rfl
  · rfl

theorem entry_of_present (h : Touched L s ps) {n : ℕ} (hn : n < 1024) (hp : L.Present s n) :
    ∃ k < ps.length, ps[k]? = some n ∧ L.entry s n = pageEntry (L.frame k) ∧
      descAddress (L.entry s n) = L.frame k := by
  have hmem := (h.present_iff hn).mp hp
  have hidx := List.idxOf_lt_length_of_mem hmem
  have hlen := h.length
  have hentry : L.entry s n = pageEntry (L.frame (ps.idxOf n)) := by rw [h.entries n hn, if_pos hmem]
  refine ⟨ps.idxOf n, hidx, ?_, hentry, ?_⟩
  · rw [List.getElem?_eq_getElem hidx, List.getElem_idxOf]
  · rw [hentry, pageEntry_address (hidx.trans_le hlen)]

/-- Two pages do not share a frame. -/
theorem frames_distinct (h : Touched L s ps) {n n' : ℕ} (hn : n < 1024) (hn' : n' < 1024)
    (hp : L.Present s n) (hp' : L.Present s n')
    (heq : descAddress (L.entry s n) = descAddress (L.entry s n')) : n = n' := by
  obtain ⟨k, hk, hnk, -, ha⟩ := h.entry_of_present hn hp
  obtain ⟨k', hk', hnk', -, ha'⟩ := h.entry_of_present hn' hp'
  have hkk : k = k' := by
    rw [ha, ha'] at heq
    unfold frame page at heq
    omega
  rw [hkk] at hnk
  exact Option.some_injective _ (hnk.symm.trans hnk')

theorem card_present (h : Touched L s ps) :
    ((Finset.range 1024).filter fun n => L.Present s n).card = ps.length := by
  have hset : (Finset.range 1024).filter (fun n => L.Present s n) = ps.toFinset := by
    ext n
    rw [Finset.mem_filter, Finset.mem_range, List.mem_toFinset]
    constructor
    · rintro ⟨hn, hp⟩
      exact (h.present_iff hn).mp hp
    · intro hmem
      exact ⟨h.lt n hmem, (h.present_iff (h.lt n hmem)).mpr hmem⟩
  rw [hset, List.toFinset_card_of_nodup h.nodup]

/-- An entry stays as it is once it is valid. -/
theorem entry_stays (h : Touched L s ps) {n : ℕ} (hn : n < 1024) (hp : L.Present s n)
    (es : List VmEvent) : L.entry (L.run s es) n = L.entry s n := by
  obtain ⟨qs, ⟨rs, rfl⟩, hrun⟩ := h.run es
  have hmem := (h.present_iff hn).mp hp
  rw [hrun.entries n hn, h.entries n hn, if_pos hmem, if_pos (List.mem_append_left rs hmem),
    List.idxOf_append_of_mem hmem]

/-- What the handler returns, and what it leaves alone. -/
theorem vmFault_spec (h : Touched L s ps) (va : UInt64) :
    ((L.vmFault s va).1 = true ↔
      InWindow va ∧ L.Present (L.vmFault s va).2 (windowPage va)) ∧
    (¬InWindow va ∨ s.poolNext = vmdPoolPages ∧ ¬L.Present s (windowPage va) →
      (L.vmFault s va).1 = false ∧ (L.vmFault s va).2.mem = s.mem) ∧
    (InWindow va → ¬L.Present s (windowPage va) → (L.vmFault s va).1 = true →
      ∀ i < page, (L.vmFault s va).2.ram
        (descAddress (L.entry (L.vmFault s va).2 (windowPage va)) + i) = 0) := by
  by_cases hva : InWindow va
  · have hlt := windowPage_lt hva
    have hafter := h.vmFault hva
    rw [vmFault_inside hva] at hafter ⊢
    by_cases hp : L.Present s (windowPage va)
    · rw [if_pos hp]
      refine ⟨iff_of_true rfl ⟨hva, hp⟩, ?_, fun _ hnot => absurd hp hnot⟩
      rintro (hout | ⟨-, hnot⟩)
      · exact absurd hva hout
      · exact absurd hp hnot
    · rw [if_neg hp] at hafter ⊢
      by_cases hfull : vmdPoolPages ≤ s.poolNext
      · rw [if_pos hfull]
        exact ⟨iff_of_false Bool.false_ne_true fun hin => hp hin.2, fun _ => ⟨rfl, rfl⟩,
          fun _ _ hret => absurd hret Bool.false_ne_true⟩
      · rw [if_neg hfull] at hafter ⊢
        have hroom : s.poolNext < 512 := not_le.mp hfull
        have hentry : L.entry (L.mapPage s (windowPage va)) (windowPage va) =
            pageEntry (L.frame s.poolNext) := by
          rw [entry_mapPage, if_pos rfl]
        have hpresent : L.Present (L.mapPage s (windowPage va)) (windowPage va) := by
          rw [Present, hentry]
          exact pageEntry_present hroom
        refine ⟨iff_of_true rfl ⟨hva, hpresent⟩, ?_, fun _ _ _ i hi => ?_⟩
        · rintro (hout | ⟨hnext, -⟩)
          · exact absurd hva hout
          · exact absurd hnext.ge hfull
        · rw [hentry, pageEntry_address hroom]
          exact if_pos ⟨Nat.le_add_right _ _, Nat.add_lt_add_left hi _⟩
  · rw [vmFault_outside hva]
    exact ⟨iff_of_false Bool.false_ne_true fun hin => hva hin.1, fun _ => ⟨rfl, rfl⟩,
      fun hin => absurd hin hva⟩

end Touched

/-- What holds after every run from `vm_demand_init` on: frames are not shared and not taken away,
the counters count the valid entries, a frame is clean when it is mapped, and the pages of the
window are apart. -/
theorem demand_paging (L : DemandLayout) (mem : TableMemory) (ram : ℕ → UInt8) (es : List VmEvent) :
    let s := L.run (L.init mem ram) es
    (∀ n < 1024, L.Present s n → ∃ k < vmdPoolPages, descAddress (L.entry s n) = L.frame k) ∧
    (∀ n < 1024, ∀ n' < 1024, L.Present s n → L.Present s n' →
      descAddress (L.entry s n) = descAddress (L.entry s n') → n = n') ∧
    (∀ n < 1024, L.Present s n → ∀ es', L.entry (L.run s es') n = L.entry s n) ∧
    (s.poolNext = s.mapped.toNat ∧
      s.mapped.toNat = ((Finset.range 1024).filter fun n => L.Present s n).card ∧
      s.poolNext ≤ vmdPoolPages) ∧
    (∀ va, ((L.vmFault s va).1 = true ↔
        InWindow va ∧ L.Present (L.vmFault s va).2 (windowPage va)) ∧
      (¬InWindow va ∨ s.poolNext = vmdPoolPages ∧ ¬L.Present s (windowPage va) →
        (L.vmFault s va).1 = false ∧ (L.vmFault s va).2.mem = s.mem) ∧
      (InWindow va → ¬L.Present s (windowPage va) → (L.vmFault s va).1 = true →
        ∀ i < page, (L.vmFault s va).2.ram
          (descAddress (L.entry (L.vmFault s va).2 (windowPage va)) + i) = 0)) ∧
    ∀ va va', InWindow va → InWindow va' → windowPage va ≠ windowPage va' → ∀ b,
      L.load (L.store s va b) va' = L.load s va' := by
  obtain ⟨ps, -, h⟩ := (L.init_touched mem ram).run es
  refine ⟨fun n hn hp => ?_, fun n hn n' hn' => h.frames_distinct hn hn',
    fun n hn hp es' => h.entry_stays hn hp es', ⟨?_, ?_, ?_⟩, h.vmFault_spec,
    fun va va' hva hva' hne b => h.load_store hva hva' hne b⟩
  · obtain ⟨k, hk, -, -, ha⟩ := h.entry_of_present hn hp
    exact ⟨k, hk.trans_le h.length, ha⟩
  · rw [h.poolNext, h.mapped]
  · rw [h.mapped, h.card_present]
  · rw [h.poolNext]
    exact h.length

/-- The address of a page of the window. -/
def pageAddress (n : ℕ) : UInt64 := vmdBase64 + UInt64.ofNat (n * page)

theorem pageAddress_window {n : ℕ} (hn : n < 1024) :
    InWindow (pageAddress n) ∧ windowPage (pageAddress n) = n := by
  have hval : (pageAddress n).toNat = 2 ^ 31 + n * page := by
    have hbase : vmdBase64.toNat = 2 ^ 31 := rfl
    rw [pageAddress, UInt64.toNat_add, UInt64.toNat_ofNat', hbase]
    unfold page
    omega
  rw [inWindow_iff, windowPage, hval]
  unfold page
  omega

/-- The first pages touched one after the other have got the frames in this order. -/
theorem touch_pages (L : DemandLayout) (mem : TableMemory) (ram : ℕ → UInt8) {k : ℕ}
    (hk : k ≤ vmdPoolPages) :
    Touched L (L.run (L.init mem ram) ((List.range k).map fun n => .fault (pageAddress n)))
      (List.range k) := by
  induction k with
  | zero => exact L.init_touched mem ram
  | succ k ih =>
    have hprev := ih (Nat.le_of_succ_le hk)
    have hlt : k < 512 := hk
    obtain ⟨hwin, hpage⟩ := pageAddress_window (show k < 1024 by omega)
    have hnext := hprev.vmFault hwin
    rw [hpage, touch, if_neg List.not_mem_range_self, List.length_range,
      if_pos (show k < vmdPoolPages from hk)] at hnext
    rw [List.range_succ, List.map_append, run, List.foldl_append]
    exact hnext

/-- The board's layout, with the pool at the end of the image. -/
def raspberryPi : DemandLayout where
  toLayout := Layout.raspberryPi
  vmdPool := 0x88000
  vmdPool_page := by decide
  vmdPool_end := by decide

/-- When no frame is left, a fault on a page that has one is still answered with 1. -/
theorem exhausted_pool_serves_mapped_page :
    ¬ ∀ (L : DemandLayout) (mem : TableMemory) (ram : ℕ → UInt8) (es : List VmEvent) (va : UInt64),
      (L.run (L.init mem ram) es).poolNext = vmdPoolPages →
        (L.vmFault (L.run (L.init mem ram) es) va).1 = false := by
  intro h
  have hfull := raspberryPi.touch_pages (fun _ _ => 0) (fun _ => 0) (le_refl vmdPoolPages)
  have hnext := hfull.poolNext.trans List.length_range
  have hret := h raspberryPi (fun _ _ => 0) (fun _ => 0) _ (pageAddress 0) hnext
  obtain ⟨hwin, hpage⟩ := pageAddress_window (show 0 < 1024 by decide)
  have hmapped : raspberryPi.Present (raspberryPi.run (raspberryPi.init (fun _ _ => 0) fun _ => 0)
      ((List.range vmdPoolPages).map fun n => .fault (pageAddress n))) (windowPage (pageAddress 0)) := by
    rw [hpage, hfull.present_iff (by decide), List.mem_range]
    decide
  rw [vmFault_inside hwin, if_pos hmapped] at hret
  exact absurd hret (by decide)

end DemandLayout

end XinuRpi4.System
