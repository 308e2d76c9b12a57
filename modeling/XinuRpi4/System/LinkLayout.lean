import XinuRpi4.System.Mmu

/-!
# Which link layouts keep W^X

Addresses of the block with `_start` in it get the permissions of their page, all other
RAM of the gigabyte is writable and executable. So the law holds when that block is the
first one of the RAM and the whole image is in it, and when neither the first-level table
nor the demand window stands in the way.
-/

namespace XinuRpi4.System

open Foundation

theorem normalAttr_leaf (ro xn : Bool) (d : BitVec 64) (hd : d = dPage ∨ d = dBlock) :
    (normalAttr ro xn ||| d) &&& addressMask = 0#64 ∧ (normalAttr ro xn ||| d) &&& 3#64 = d ∧
      (normalAttr ro xn ||| d).getLsbD 10 = true ∧ (normalAttr ro xn ||| d).getLsbD 7 = ro ∧
      (normalAttr ro xn ||| d).getLsbD 53 = xn := by
  rcases hd with rfl | rfl
  · cases ro <;> cases xn <;> decide
  · cases ro <;> cases xn <;> decide

/-- A leaf with the attributes of normal memory maps an address to itself. -/
theorem leafMapping_normal {va shift : ℕ} (h12 : 12 ≤ shift) (hva : va < 2 ^ 48) (ro xn : Bool)
    {d : BitVec 64} (hd : d = dPage ∨ d = dBlock) :
    leafMapping (BitVec.ofNat 64 (va / 2 ^ shift * 2 ^ shift) ||| normalAttr ro xn ||| d) shift va
      false false = some ⟨va, !ro, !xn⟩ := by
  obtain ⟨hmask, -, haf, hro, hxn⟩ := normalAttr_leaf ro xn d hd
  have hle : va / 2 ^ shift * 2 ^ shift ≤ va := Nat.div_mul_le_self va _
  have hpage : va / 2 ^ shift * 2 ^ shift % 2 ^ 12 = 0 := by
    obtain ⟨k, rfl⟩ := Nat.exists_eq_add_of_le h12
    rw [pow_add, ← mul_assoc, mul_right_comm]
    exact Nat.mul_mod_left _ _
  have hlt : va / 2 ^ shift * 2 ^ shift < 2 ^ 48 := by omega
  rw [BitVec.or_assoc, leafMapping, getLsbD_desc hpage hlt (by omega),
    getLsbD_desc hpage hlt (by omega), getLsbD_desc hpage hlt (by omega),
    desc_address hpage hlt hmask, haf, hro, hxn, Nat.mul_div_cancel _ (Nat.two_pow_pos shift)]
  simp only [if_true, Bool.or_false]
  rw [Nat.div_add_mod' va]

theorem three_ne_one : ¬ 3#64 = 1#64 := by decide

/-- A descriptor of a table. -/
theorem table_desc {t : ℕ} (hpage : t % page = 0) (hlt : t < 2 ^ 48) :
    (BitVec.ofNat 64 t ||| dTable) &&& 3#64 = 3#64 ∧
      descAddress (BitVec.ofNat 64 t ||| dTable) = t ∧
      (BitVec.ofNat 64 t ||| dTable).getLsbD 62 = false ∧
      (BitVec.ofNat 64 t ||| dTable).getLsbD 59 = false := by
  refine ⟨?_, desc_address hpage hlt (by decide), ?_, ?_⟩
  · rw [desc_type hpage hlt]
    decide
  · rw [getLsbD_desc hpage hlt (by omega)]
    decide
  · rw [getLsbD_desc hpage hlt (by omega)]
    decide

namespace Layout

variable {L : Layout} {mem : TableMemory}

theorem mmuInit_l1 (i : ℕ) : L.mmuInit mem L.l1Table i =
    if i = 2 then BitVec.ofNat 64 L.l2Vmd ||| dTable else L.l1Entry i := by
  have hd := L.tables_distinct
  simp only [List.nodup_cons, List.mem_cons, List.not_mem_nil, or_false, not_or] at hd
  obtain ⟨⟨-, -, h4, h5, h6⟩, -⟩ := hd
  simp only [mmuInit, vmDemandInit, writeTable, Function.update_self, Function.update_of_ne h4,
    Function.update_of_ne h5, Function.update_of_ne h6]
  by_cases hi : i = 2
  · rw [if_pos hi, hi, Function.update_self]
  · rw [if_neg hi, Function.update_of_ne hi]

theorem mmuInit_l2 : L.mmuInit mem L.l2Table = L.l2Entry := by
  have hd := L.tables_distinct
  simp only [List.nodup_cons, List.mem_cons, List.not_mem_nil, or_false, not_or] at hd
  obtain ⟨⟨h1, -⟩, ⟨-, h4, h5, h6⟩, -⟩ := hd
  simp only [mmuInit, vmDemandInit, writeTable, Function.update_of_ne (Ne.symm h1),
    Function.update_of_ne h4, Function.update_of_ne h5, Function.update_of_ne h6,
    Function.update_self]

theorem mmuInit_l3 : L.mmuInit mem L.l3Table = L.l3Entry := by
  have hd := L.tables_distinct
  simp only [List.nodup_cons, List.mem_cons, List.not_mem_nil, or_false, not_or] at hd
  obtain ⟨⟨-, h1, -⟩, ⟨h2, -⟩, ⟨h4, h5, h6⟩, -⟩ := hd
  simp only [mmuInit, vmDemandInit, writeTable, Function.update_of_ne (Ne.symm h1),
    Function.update_of_ne (Ne.symm h2), Function.update_of_ne h4, Function.update_of_ne h5,
    Function.update_of_ne h6, Function.update_self]

theorem mmuInit_l2Vmd : L.mmuInit mem L.l2Vmd 0 = BitVec.ofNat 64 L.l3Vmd ||| dTable := by
  have hd := L.tables_distinct
  simp only [List.nodup_cons, List.mem_cons, List.not_mem_nil, or_false, not_or] at hd
  obtain ⟨⟨-, -, h4, -⟩, -⟩ := hd
  simp [mmuInit, vmDemandInit, writeTable, Function.update_of_ne (Ne.symm h4)]

theorem mmuInit_l3Vmd (i : ℕ) : L.mmuInit mem L.l3Vmd i = 0#64 := by
  have hd := L.tables_distinct
  simp only [List.nodup_cons, List.mem_cons, List.not_mem_nil, or_false, not_or] at hd
  obtain ⟨⟨-, -, -, h5, -⟩, -, -, ⟨h45, -⟩, h56, -⟩ := hd
  simp [mmuInit, vmDemandInit, writeTable, Function.update_of_ne (Ne.symm h5),
    Function.update_of_ne (Ne.symm h45), Function.update_of_ne h56]

/-- The gigabyte is mapped by the second-level table. -/
structure Reached (L : Layout) : Prop where
  below : L.ramBase < 2 ^ 39
  slot : L.ramBase / oneGb ≠ 2

section

variable {va : ℕ} (hlo : L.ramBase ≤ va) (hhi : va < L.ramBase + oneGb)

include hlo hhi

theorem gb_of_ram : va / 2 ^ 30 * oneGb = L.ramBase := by
  simp only [ramBase, oneGb] at *
  omega

theorem block_of_ram : L.ramBase + va / 2 ^ 21 % 512 * twoMb = va / 2 ^ 21 * 2 ^ 21 := by
  simp only [ramBase, oneGb, twoMb] at *
  omega

theorem ram_lt (h : L.Reached) : va < 2 ^ 39 := by
  have hbelow := h.below
  simp only [ramBase, oneGb] at *
  omega

theorem slot_of_ram (h : L.Reached) : va / 2 ^ 30 ≠ 2 := by
  have hslot := h.slot
  simp only [ramBase, oneGb] at *
  omega

omit hlo hhi

theorem page_of_block (hkern : va / 2 ^ 21 * 2 ^ 21 = L.kern2mb) :
    L.kern2mb + va / 2 ^ 12 % 512 * page = va / 2 ^ 12 * 2 ^ 12 := by
  have hdiv : va / 2 ^ 21 = va / 2 ^ 12 / 512 := by
    rw [Nat.div_div_eq_div_mul]
    norm_num
  calc L.kern2mb + va / 2 ^ 12 % 512 * page
      = (512 * (va / 2 ^ 12 / 512) + va / 2 ^ 12 % 512) * 2 ^ 12 := by
        rw [← hkern, hdiv, page]
        ring
    _ = va / 2 ^ 12 * 2 ^ 12 := by rw [Nat.div_add_mod]

end

theorem translate_ram (h : L.Reached) {va : ℕ} (hlo : L.ramBase ≤ va)
    (hhi : va < L.ramBase + oneGb) :
    L.translate mem va =
      let d₂ := L.l2Entry (va / 2 ^ 21 % 512)
      if d₂ &&& 3#64 = 1#64 then leafMapping d₂ 21 va false false
      else if d₂ &&& 3#64 = 3#64 then
        let d₃ := L.mmuInit mem (descAddress d₂) (va / 2 ^ 12 % 512)
        if d₃ &&& 3#64 = 3#64 then leafMapping d₃ 12 va (d₂.getLsbD 62) (d₂.getLsbD 59) else none
      else none := by
  have hva : ¬ 2 ^ 39 ≤ va := not_le.mpr (ram_lt hlo hhi h)
  have hindex : va / 2 ^ 30 % 512 = va / 2 ^ 30 := by omega
  have hd₁ : L.mmuInit mem L.l1Table (va / 2 ^ 30 % 512) =
      BitVec.ofNat 64 L.l2Table ||| dTable := by
    rw [mmuInit_l1, hindex, if_neg (slot_of_ram hlo hhi h), l1Entry, if_pos (gb_of_ram hlo hhi)]
  obtain ⟨hpage, hlt⟩ := L.tables_page L.l2Table (by simp)
  obtain ⟨htype, haddr, h62, h59⟩ := table_desc hpage hlt
  rw [translate, tableWalk, if_neg hva]
  simp only [hd₁, htype, haddr, h62, h59, mmuInit_l2, Bool.false_or, three_ne_one, if_false, if_true]

/-- Addresses outside the block with `_start` in it. -/
theorem translate_block (h : L.Reached) {va : ℕ} (hlo : L.ramBase ≤ va)
    (hhi : va < L.ramBase + oneGb) (hram : va < L.heapEnd)
    (hkern : va / 2 ^ 21 * 2 ^ 21 ≠ L.kern2mb) :
    L.translate mem va = some ⟨va, true, true⟩ := by
  have hlt := ram_lt hlo hhi h
  have hin : L.ramBase ≤ va / 2 ^ 21 * 2 ^ 21 := by
    rw [← block_of_ram hlo hhi]
    exact Nat.le_add_right _ _
  have hd₂ : L.l2Entry (va / 2 ^ 21 % 512) =
      BitVec.ofNat 64 (va / 2 ^ 21 * 2 ^ 21) ||| normalAttr false false ||| dBlock := by
    rw [l2Entry, block_of_ram hlo hhi, if_neg hkern, if_pos ⟨hin, by omega⟩]
  have htype : (BitVec.ofNat 64 (va / 2 ^ 21 * 2 ^ 21) ||| normalAttr false false ||| dBlock) &&&
      3#64 = 1#64 := by
    rw [BitVec.or_assoc, desc_type (by omega) (by omega)]
    decide
  rw [translate_ram h hlo hhi]
  simp only [hd₂, htype, if_true]
  exact leafMapping_normal (by decide) (by omega) false false (Or.inr rfl)

/-- Addresses of the block with `_start` in it have the attributes of their page. -/
theorem translate_page (h : L.Reached) {va : ℕ} (hlo : L.ramBase ≤ va)
    (hhi : va < L.ramBase + oneGb) (hkern : va / 2 ^ 21 * 2 ^ 21 = L.kern2mb) {ro xn : Bool}
    (hattr : L.pageAttr (va / 2 ^ 12 * 2 ^ 12) = normalAttr ro xn) :
    L.translate mem va = some ⟨va, !ro, !xn⟩ := by
  have hlt : va / 2 ^ 12 * 2 ^ 12 < 2 ^ 48 := by
    have := ram_lt hlo hhi h
    clear hattr
    omega
  have hd₂ : L.l2Entry (va / 2 ^ 21 % 512) = BitVec.ofNat 64 L.l3Table ||| dTable := by
    rw [l2Entry, block_of_ram hlo hhi, if_pos hkern]
  obtain ⟨hpage, hl3⟩ := L.tables_page L.l3Table (by simp)
  obtain ⟨htable, haddr, h62, h59⟩ := table_desc hpage hl3
  have hd₃ : L.l3Entry (va / 2 ^ 12 % 512) =
      BitVec.ofNat 64 (va / 2 ^ 12 * 2 ^ 12) ||| normalAttr ro xn ||| dPage := by
    rw [l3Entry, page_of_block hkern, hattr]
  have htype : (BitVec.ofNat 64 (va / 2 ^ 12 * 2 ^ 12) ||| normalAttr ro xn ||| dPage) &&& 3#64 =
      3#64 := by
    rw [BitVec.or_assoc, desc_type (Nat.mul_mod_left _ _) hlt]
    exact (normalAttr_leaf ro xn dPage (Or.inl rfl)).2.1
  rw [translate_ram h hlo hhi]
  simp only [hd₂, htable, haddr, h62, h59, mmuInit_l3, hd₃, htype]
  exact leafMapping_normal le_rfl ((ram_lt hlo hhi h).trans (by decide)) ro xn (Or.inl rfl)

/-- The layouts for which the header's picture is right. -/
structure Fits (L : Layout) : Prop extends L.Reached where
  first : L.kern2mb = L.ramBase
  oneBlock : L.end_ ≤ L.kern2mb + twoMb

theorem Fits.wx (h : L.Fits) : L.Wx mem := by
  intro va hlo hhi hram
  have hr := h.toReached
  have hfirst := h.first
  have hone := h.oneBlock
  have h1 := L.start_le_etext
  have h2 := L.etext_le_data
  have h3 := L.data_le_end
  have p1 := L.start_page
  have p2 := L.etext_page
  have p3 := L.data_page
  by_cases hkern : va / 2 ^ 21 * 2 ^ 21 = L.kern2mb
  · -- the sections start at pages, so the page of an address is in the same one
    have hpage : ∀ {ro xn : Bool}, L.pageAttr (va / 2 ^ 12 * 2 ^ 12) = normalAttr ro xn →
        L.translate mem va = some ⟨va, !ro, !xn⟩ := fun hattr => translate_page hr hlo hhi hkern hattr
    have hstrt : L.heapStrt = (L.end_ + 2 ^ 12 - 1) / 2 ^ 12 * 2 ^ 12 := rfl
    simp only [page] at p1 p2 p3
    rw [pageAttr] at hpage
    by_cases c1 : va < L.start
    · refine ⟨_, hpage (if_pos (by omega)), rfl, ?_, ?_, ?_, ?_⟩ <;> intros <;> first | omega | simp_all
    · rw [if_neg (by omega)] at hpage
      by_cases c2 : va < L.etext
      · refine ⟨_, hpage (if_pos (by omega)), rfl, ?_, ?_, ?_, ?_⟩ <;> intros <;>
          first | omega | simp_all
      · rw [if_neg (by omega)] at hpage
        by_cases c3 : va < L.data
        · refine ⟨_, hpage (if_pos (by omega)), rfl, ?_, ?_, ?_, ?_⟩ <;> intros <;>
            first | omega | simp_all
        · rw [if_neg (by omega)] at hpage
          by_cases c4 : va / 2 ^ 12 * 2 ^ 12 < L.heapStrt
          · refine ⟨_, hpage (if_pos c4), rfl, ?_, ?_, ?_, ?_⟩ <;> intros <;> first | omega | simp_all
          · refine ⟨_, hpage (if_neg c4), rfl, ?_, ?_, ?_, ?_⟩ <;> intros <;> omega
  · -- behind the image
    have hend : L.end_ ≤ va := by
      simp only [twoMb] at hone
      simp only [ramBase, kern2mb, oneGb, twoMb] at *
      omega
    refine ⟨_, translate_block hr hlo hhi hram hkern, rfl, ?_, ?_, ?_, fun _ _ => hend⟩ <;>
      intros <;> omega

theorem Wx.fits (h : L.Wx mem) : L.Fits := by
  have hram := L.ram
  have hbase : L.WxAt mem L.ramBase := by
    apply h L.ramBase le_rfl
    · simp only [oneGb]
      omega
    · exact hram
  have hbelow : L.ramBase < 2 ^ 39 := by
    obtain ⟨t, ht, -⟩ := hbase
    by_contra hge
    rw [translate, tableWalk, if_pos (by omega)] at ht
    cases ht
  have hslot : L.ramBase / oneGb ≠ 2 := by
    intro h2
    obtain ⟨t, ht, -⟩ := hbase
    have hva : L.ramBase = 2 * 2 ^ 30 := by
      simp only [ramBase, oneGb] at h2 ⊢
      omega
    -- the walk ends at the demand window, which maps nothing
    obtain ⟨hp2, hl2⟩ := L.tables_page L.l2Vmd (by simp)
    obtain ⟨ht2, ha2, -, -⟩ := table_desc hp2 hl2
    obtain ⟨hp3, hl3⟩ := L.tables_page L.l3Vmd (by simp)
    obtain ⟨ht3, ha3, -, -⟩ := table_desc hp3 hl3
    have hd₁ : L.mmuInit mem L.l1Table 2 = BitVec.ofNat 64 L.l2Vmd ||| dTable := by
      rw [mmuInit_l1, if_pos rfl]
    have h39 : ¬ 2 ^ 39 ≤ 2 * 2 ^ 30 := by decide
    have hi₁ : 2 * 2 ^ 30 / 2 ^ 30 % 512 = 2 := by decide
    have hi₂ : 2 * 2 ^ 30 / 2 ^ 21 % 512 = 0 := by decide
    have h0 : ¬ (0#64 &&& 3#64 = 3#64) := by decide
    rw [translate, tableWalk, hva, if_neg h39] at ht
    simp only [hi₁, hi₂, hd₁, ht2, ha2, mmuInit_l2Vmd, ht3, ha3, mmuInit_l3Vmd, three_ne_one, h0,
      if_false, if_true] at ht
    cases ht
  have hreached : L.Reached := ⟨hbelow, hslot⟩
  -- a block outside the one of `_start` is writable and executable
  have hblock : ∀ va, L.ramBase ≤ va → va < L.ramBase + oneGb → va < L.heapEnd →
      va / 2 ^ 21 * 2 ^ 21 ≠ L.kern2mb → L.end_ ≤ va := by
    intro va hlo hhi hva hkern
    obtain ⟨t, ht, -, -, -, -, hwx⟩ := h va hlo hhi hva
    rw [translate_block hreached hlo hhi hva hkern, Option.some.injEq] at ht
    subst ht
    exact hwx rfl rfl
  have h1 := L.start_le_etext
  have h2 := L.etext_le_data
  have h3 := L.data_le_end
  have himage := L.image
  have hheap := L.end_le_heapEnd
  refine ⟨hreached, ?_, ?_⟩
  · by_contra hne
    have hb := hblock L.ramBase le_rfl (by simp only [oneGb]; omega) hram
    simp only [ramBase, kern2mb, oneGb, twoMb] at *
    omega
  · by_contra hlt
    have hb := hblock (L.kern2mb + twoMb)
    simp only [ramBase, kern2mb, oneGb, twoMb] at *
    omega

/-- The law holds for exactly the layouts whose image ends in the first block of its RAM. -/
theorem wx_iff_fits (L : Layout) (mem : TableMemory) :
    L.Wx mem ↔ L.ramBase < 2 ^ 39 ∧ L.ramBase / oneGb ≠ 2 ∧ L.kern2mb = L.ramBase ∧
      L.end_ ≤ L.kern2mb + twoMb := by
  constructor
  · intro h
    obtain ⟨⟨hbelow, hslot⟩, hfirst, hone⟩ := h.fits
    exact ⟨hbelow, hslot, hfirst, hone⟩
  · rintro ⟨hbelow, hslot, hfirst, hone⟩
    exact Fits.wx ⟨⟨hbelow, hslot⟩, hfirst, hone⟩

/-- The board's layout, with the smallest image that holds `vmd_pool`. -/
def raspberryPi : Layout where
  start := 0x80000
  etext := 0x81000
  data := 0x82000
  end_ := 0x288000
  heapEnd := 0x40000000
  l1Table := 0x82000
  l2Table := 0x83000
  l3Table := 0x84000
  l2Vmd := 0x85000
  l3Vmd := 0x86000
  start_le_etext := by decide
  etext_le_data := by decide
  data_le_end := by decide
  start_page := by decide
  etext_page := by decide
  data_page := by decide
  image := by decide
  ram := by decide
  end_le_heapEnd := by decide
  tables_distinct := by decide
  tables_page := by decide

/-- The image with its pool of 2 MiB reaches into the second block. -/
theorem image_beyond_first_block : ¬ ∀ (L : Layout) (mem : TableMemory), L.Wx mem := by
  intro h
  have hone := (h raspberryPi fun _ _ => 0).fits.oneBlock
  revert hone
  decide

end Layout

end XinuRpi4.System
