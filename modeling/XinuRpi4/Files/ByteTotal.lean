import XinuRpi4.Files.TreeInvariant
import XinuRpi4.Foundation.BoundedSearch

/-!
# The byte total

`vfs_total_file_bytes` searches the tree with a stack of 64 nodes. A child for which
there is no room is passed over, with everything below it.
-/

namespace XinuRpi4.Files

open XinuRpi4.Foundation

def stackRoom : ℕ := 64

/-- `vfs_node_t *stack[64]` with `top`; a cell that was never written holds nothing. -/
structure NodeStack where
  cells : ℕ → Option NodeRef
  top : ℕ

namespace NodeStack

/-- `stack[top++] = c`; a store outside the array has no result. -/
def push (k : NodeStack) (c : NodeRef) : Option NodeStack :=
  if k.top < stackRoom then some ⟨Function.update k.cells k.top (some c), k.top + 1⟩ else none

/-- `stack[--top]`; nor has a load outside the array or of a cell that was never written. -/
def pop (k : NodeStack) : Option (NodeRef × NodeStack) :=
  if 0 < k.top ∧ k.top ≤ stackRoom then
    (k.cells (k.top - 1)).map fun n => (n, { k with top := k.top - 1 })
  else none

/-- The stack with these nodes, the top last. -/
structure Holds (k : NodeStack) (l : List NodeRef) : Prop where
  top : k.top = l.length
  cells : ∀ i n, l[i]? = some n → k.cells i = some n

variable {k : NodeStack} {l : List NodeRef}

theorem push_holds (h : k.Holds l) (hroom : l.length < stackRoom) (c : NodeRef) :
    ∃ k', k.push c = some k' ∧ k'.Holds (l ++ [c]) := by
  have htop : k.top < stackRoom := by rwa [h.top]
  refine ⟨_, if_pos htop, by simp [h.top], ?_⟩
  intro i n hi
  rw [List.getElem?_append] at hi
  dsimp only
  split_ifs at hi with hold
  · rw [Function.update_of_ne (by rw [h.top]; omega)]
    exact h.cells i n hi
  · obtain ⟨hlast, rfl⟩ := List.getElem?_eq_some_iff.mp hi
    rw [List.length_singleton] at hlast
    obtain rfl : i = k.top := by rw [h.top]; omega
    simp

theorem pop_holds {n : NodeRef} (h : k.Holds (l ++ [n])) (hroom : l.length < stackRoom) :
    ∃ k', k.pop = some (n, k') ∧ k'.Holds l := by
  have htop : k.top = l.length + 1 := by simpa using h.top
  have hlast : k.cells (k.top - 1) = some n := by
    rw [htop]
    exact h.cells l.length n List.getElem?_concat_length
  refine ⟨{ k with top := k.top - 1 }, ?_, by simp [htop], ?_⟩
  · rw [pop, if_pos ⟨by omega, by omega⟩, hlast]
    rfl
  · intro i m hi
    refine h.cells i m ?_
    rwa [List.getElem?_append_left (List.getElem?_eq_some_iff.mp hi).1]

end NodeStack

namespace Vfs

/-- `for (c = n->children; c && top < 64; c = c->next) stack[top++] = c;` -/
def pushChildren (s : Vfs) : ℕ → Option NodeRef → NodeStack → Option NodeStack
  | 0, _, _ => none
  | _ + 1, none, k => some k
  | fuel + 1, some c, k =>
    if k.top < stackRoom then (k.push c).bind (pushChildren s fuel (s.node c).next) else some k

/-- What a node adds to the total. -/
def fileBytes (s : Vfs) (n : NodeRef) : ℕ := if (s.node n).kind = .file then (s.node n).size else 0

/-- The total is an `unsigned long`. There is no result if the loop never ends. -/
def totalLoop (s : Vfs) : ℕ → ℕ → NodeStack → Option ℕ
  | 0, _, _ => none
  | fuel + 1, total, k =>
    if 0 < k.top then
      k.pop.bind fun (n, k) =>
        (s.pushChildren walkFuel (s.node n).children k).bind
          (totalLoop s fuel ((total + s.fileBytes n) % 2 ^ 64))
    else some total

/-- Every node but the root has an address. -/
def vfsTotalFileBytes (s : Vfs) : Option ℕ :=
  (NodeStack.push ⟨fun _ => none, 0⟩ .gRoot).bind (s.totalLoop (walkFuel + 1) 0)

/-- The number of nodes that wait below a node on the stack: one for each elder sibling of
the node and of its ancestors. -/
inductive Waiting (s : Vfs) : NodeRef → ℕ → Prop
  | root : Waiting s .gRoot 0
  | child {d c : NodeRef} {kids : List NodeRef} {b i : ℕ} (hd : Waiting s d b)
      (hkids : Segment s.nextOf (s.node d).children kids none) (hc : kids[i]? = some c) :
      Waiting s c (b + i)

variable {s : Vfs}

theorem pushChildren_holds {fuel : ℕ} {p : Option NodeRef} {kids l : List NodeRef} {k : NodeStack}
    (hkids : Segment s.nextOf p kids none) (hfuel : kids.length < fuel) (h : k.Holds l) :
    ∃ k', s.pushChildren fuel p k = some k' ∧ k'.Holds (l ++ kids.take (stackRoom - l.length)) := by
  induction kids generalizing fuel p l k with
  | nil =>
    obtain ⟨fuel, rfl⟩ : ∃ n, fuel = n + 1 := ⟨fuel - 1, by omega⟩
    obtain rfl : p = none := hkids
    exact ⟨k, rfl, by simpa using h⟩
  | cons c kids ih =>
    obtain ⟨fuel, rfl⟩ : ∃ n, fuel = n + 1 := ⟨fuel - 1, by omega⟩
    obtain ⟨rfl, hrest⟩ := hkids
    rw [pushChildren, h.top]
    split_ifs with hroom
    · obtain ⟨k₁, hpush, hk₁⟩ := k.push_holds h hroom c
      obtain ⟨k', hloop, hk'⟩ := ih hrest (by simpa using hfuel) hk₁
      refine ⟨k', by rw [hpush]; exact hloop, ?_⟩
      have hleft : stackRoom - l.length = stackRoom - (l ++ [c]).length + 1 := by
        rw [List.length_append, List.length_singleton]
        omega
      rwa [hleft, List.take_succ_cons, List.append_cons]
    · have hzero : stackRoom - l.length = 0 := by omega
      exact ⟨k, rfl, by rwa [hzero, List.take_zero, List.append_nil]⟩

/-- The children of a node of the tree. -/
noncomputable def WellFormed.kids (h : s.WellFormed) (d : NodeRef) : List NodeRef :=
  open Classical in if hd : s.InTree d then Classical.choose (h.lists d hd) else []

theorem WellFormed.kids_segment (h : s.WellFormed) {d : NodeRef} (hd : s.InTree d) :
    Segment s.nextOf (s.node d).children (h.kids d) none := by
  rw [kids, dif_pos hd]
  exact (Classical.choose_spec (h.lists d hd)).1

theorem WellFormed.isTree (h : s.WellFormed) :
    IsTree h.kids (fun n => (s.node n).parent) .gRoot := by
  constructor
  case top => exact h.rootTop
  case parent =>
    intro d c hc
    by_cases hd : s.InTree d
    · rw [kids, dif_pos hd] at hc
      exact ((Classical.choose_spec (h.lists d hd)).2.2.1 c hc).1
    · rw [kids, dif_neg hd] at hc
      exact absurd hc List.not_mem_nil
  case nodup =>
    intro d
    by_cases hd : s.InTree d
    · rw [kids, dif_pos hd]
      exact (Classical.choose_spec (h.lists d hd)).2.1
    · rw [kids, dif_neg hd]
      exact List.nodup_nil

variable {n : NodeRef} {b : ℕ}

theorem Waiting.inTree (hn : s.Waiting n b) : s.InTree n := by
  induction hn with
  | root => exact InTree.root
  | child _ hkids hc ih => exact ih.child hkids (List.mem_of_getElem? hc)

theorem InTree.waiting (hn : s.InTree n) : ∃ b, s.Waiting n b := by
  induction hn with
  | root => exact ⟨0, Waiting.root⟩
  | child _ hkids hc ih =>
    obtain ⟨b, hb⟩ := ih
    obtain ⟨i, hi⟩ := List.mem_iff_getElem?.mp hc
    exact ⟨b + i, hb.child hkids hi⟩

theorem WellFormed.waits_iff (h : s.WellFormed) : Waits h.kids .gRoot n b ↔ s.Waiting n b := by
  constructor
  · intro hn
    induction hn with
    | root => exact Waiting.root
    | child _ hc ih => exact ih.child (h.kids_segment ih.inTree) hc
  · intro hn
    induction hn with
    | root => exact Waits.root
    | child hd hkids hc ih =>
      refine ih.child ?_
      rwa [(h.kids_segment hd.inTree).unique hkids]

theorem WellFormed.waiting_unique (h : s.WellFormed) {b' : ℕ} (hn : s.Waiting n b)
    (hn' : s.Waiting n b') : b = b' :=
  (h.waits_iff.mpr hn).unique h.isTree (h.waits_iff.mpr hn')

/-- There are as many nodes as addresses, and the root. -/
theorem length_le_walkFuel {l : List NodeRef} (hnodup : l.Nodup) : l.length ≤ walkFuel := by
  have hlt : (l.erase .gRoot).length < walkFuel := by
    refine length_lt_walkFuel (hnodup.erase _) ?_
    rintro c hc rfl
    exact hnodup.not_mem_erase hc
  rw [List.length_erase] at hlt
  split_ifs at hlt <;> omega

/-- The search ends with the bytes of all nodes that it met. -/
theorem WellFormed.totalLoop_spec (h : s.WellFormed) {fuel total : ℕ} {done stack : List NodeRef}
    {k : NodeStack} (hsearch : Search h.kids .gRoot stackRoom done stack) (hk : k.Holds stack)
    (htotal : total = (done.map s.fileBytes).sum % 2 ^ 64) (hfuel : walkFuel < done.length + fuel) :
    ∃ met, Search h.kids .gRoot stackRoom met [] ∧
      s.totalLoop fuel total k = some ((met.map s.fileBytes).sum % 2 ^ 64) := by
  induction fuel generalizing total done stack k with
  | zero =>
    have hlen := length_le_walkFuel (List.nodup_append.mp hsearch.nodup).1
    omega
  | succ fuel ih =>
    rcases List.eq_nil_or_concat stack with rfl | ⟨stack, n, rfl⟩
    · refine ⟨done, hsearch, ?_⟩
      rw [totalLoop, if_neg (by rw [hk.top]; exact Nat.lt_irrefl 0), htotal]
    · rw [List.concat_eq_append] at *
      have hroom : stack.length < stackRoom := by simpa using hsearch.fits
      obtain ⟨k₁, hpop, hk₁⟩ := k.pop_holds hk hroom
      have hn : s.InTree n :=
        (h.waits_iff.mp (hsearch.waiting _ n List.getElem?_concat_length)).inTree
      have hfew : (h.kids n).length < walkFuel :=
        length_lt_walkFuel (h.isTree.nodup n) fun _ hc => h.isTree.ne_root hc
      obtain ⟨k₂, hpush, hk₂⟩ := pushChildren_holds (h.kids_segment hn) hfew hk₁
      have hsum : (total + s.fileBytes n) % 2 ^ 64 =
          (((n :: done).map s.fileBytes).sum) % 2 ^ 64 := by
        rw [htotal, Nat.mod_add_mod, List.map_cons, List.sum_cons, Nat.add_comm]
      obtain ⟨met, hmet, hloop⟩ := ih (hsearch.step h.isTree) hk₂ hsum (by simp; omega)
      refine ⟨met, hmet, ?_⟩
      rw [totalLoop, if_pos (by rw [hk.top]; simp), hpop]
      simp only [Option.bind_some, hpush]
      exact hloop

theorem WellFormed.total_met (h : s.WellFormed) :
    ∃ met, Search h.kids .gRoot stackRoom met [] ∧
      s.vfsTotalFileBytes = some ((met.map s.fileBytes).sum % 2 ^ 64) := by
  have hempty : NodeStack.Holds ⟨fun _ => none, 0⟩ [] :=
    ⟨rfl, fun _ _ hi => by cases hi⟩
  obtain ⟨k, hpush, hk⟩ := NodeStack.push_holds hempty (by decide) .gRoot
  have hnone : 0 = (([] : List NodeRef).map s.fileBytes).sum % 2 ^ 64 := rfl
  have hfuel : walkFuel < ([] : List NodeRef).length + (walkFuel + 1) :=
    Nat.lt_of_lt_of_eq (Nat.lt_succ_self _) (Nat.zero_add _).symm
  obtain ⟨met, hmet, hloop⟩ := h.totalLoop_spec (Search.start (by decide)) hk hnone hfuel
  refine ⟨met, hmet, ?_⟩
  rw [vfsTotalFileBytes, hpush]
  exact hloop

/-- The search ends inside its stack. Its answer is the sum over all files if and only if the
files that wait above 64 nodes or more are empty and the sum is an `unsigned long`. -/
theorem total_iff (h : s.WellFormed) :
    ∃ total, s.vfsTotalFileBytes = some total ∧
      (total = ∑ n ∈ h.finite.toFinset, s.fileBytes n ↔
        (∀ n b, s.Waiting n b → stackRoom ≤ b → s.fileBytes n = 0) ∧
          ∑ n ∈ h.finite.toFinset, s.fileBytes n < 2 ^ 64) := by
  obtain ⟨met, hmet, htotal⟩ := h.total_met
  refine ⟨_, htotal, ?_⟩
  have hmem : ∀ n, n ∈ met ↔ ∃ b < stackRoom, s.Waiting n b := by
    intro n
    simp only [hmet.mem_done, h.waits_iff]
  have hsub : met.toFinset ⊆ h.finite.toFinset := by
    intro n hn
    obtain ⟨b, -, hb⟩ := (hmem n).mp (List.mem_toFinset.mp hn)
    exact h.finite.mem_toFinset.mpr hb.inTree
  have hsum : (met.map s.fileBytes).sum = ∑ n ∈ met.toFinset, s.fileBytes n :=
    (List.sum_toFinset _ (List.nodup_append.mp hmet.nodup).1).symm
  have hrest := Finset.sum_sdiff (f := s.fileBytes) hsub
  have hzero : ∑ n ∈ h.finite.toFinset \ met.toFinset, s.fileBytes n = 0 ↔
      ∀ n b, s.Waiting n b → stackRoom ≤ b → s.fileBytes n = 0 := by
    rw [Finset.sum_eq_zero_iff]
    constructor
    · intro hall n b hb hfull
      refine hall n (Finset.mem_sdiff.mpr ⟨h.finite.mem_toFinset.mpr hb.inTree, ?_⟩)
      rw [List.mem_toFinset, hmem]
      rintro ⟨b', hb', hn'⟩
      have := h.waiting_unique hb hn'
      omega
    · intro hall n hn
      obtain ⟨hin, hnot⟩ := Finset.mem_sdiff.mp hn
      obtain ⟨b, hb⟩ := (h.finite.mem_toFinset.mp hin : s.InTree n).waiting
      refine hall n b hb (not_lt.mp fun hlt => hnot ?_)
      exact List.mem_toFinset.mpr ((hmem n).mpr ⟨b, hlt, hb⟩)
  rw [← hzero, hsum]
  omega

/-- The total after the sample run: two files of five bytes, one found on the way. -/
theorem total_iff_sample : ∃ s, exec Vfs.step (Vfs.start spelled noNode) sampleRun = some s ∧
    ∃ h : s.WellFormed, ∃ total, s.vfsTotalFileBytes = some total ∧
      (total = ∑ n ∈ h.finite.toFinset, s.fileBytes n ↔
        (∀ n b, s.Waiting n b → stackRoom ≤ b → s.fileBytes n = 0) ∧
          ∑ n ∈ h.finite.toFinset, s.fileBytes n < 2 ^ 64) := by
  have hrun := (Option.some_get sampleRun_runs).symm
  have hwell := vfs_tree (Reachable.start.exec (eachStep_opOk sampleRun_ok) hrun)
  exact ⟨_, hrun, hwell, total_iff hwell⟩

/-- The root with 65 files, of which the last has two bytes. -/
def wideNode : NodeRef → VfsNode
  | .gRoot => { noNode with kind := .dir, children := some (.block 1) }
  | .block a =>
    { noNode with
      name := [UInt8.ofNat (a + 64)]
      size := if a = 65 then 2 else 0
      capacity := if a = 65 then 2 else 0
      data := if a = 65 then some 66 else none
      parent := some .gRoot
      next := if a < 65 then some (.block (a + 1)) else none }

def wide : Vfs where
  node := wideNode
  bytes _ _ := 104
  block a := if a < 66 then some nodeSize else if a = 66 then some 2 else none
  kmem := []
  gNodeCount := 66
  gCwd := none
  touched := []

def wideKids : List NodeRef := (List.range 65).map fun i => .block (Fin.ofNat _ (i + 1))

theorem wide_children : Segment wide.nextOf (wide.node .gRoot).children wideKids none := by
  decide

theorem wide_inTree {n : NodeRef} : wide.InTree n ↔ n ∈ NodeRef.gRoot :: wideKids := by
  constructor
  · intro hn
    induction hn with
    | root => exact List.mem_cons_self
    | @child d c l _ hl hc _ =>
      cases d with
      | gRoot =>
        obtain rfl := hl.unique wide_children
        exact List.mem_cons_of_mem _ hc
      | block a =>
        have hnone : Segment wide.nextOf (wide.node (.block a)).children [] none := rfl
        obtain rfl : l = [] := hl.unique hnone
        exact absurd hc List.not_mem_nil
  · intro hn
    rcases List.mem_cons.mp hn with rfl | hn
    · exact InTree.root
    · exact InTree.root.child wide_children hn

theorem wide_wellFormed : wide.WellFormed := by
  have hset : {n | wide.InTree n} = ↑(NodeRef.gRoot :: wideKids).toFinset := by
    ext n
    rw [List.coe_toFinset]
    exact wide_inTree
  constructor
  case finite =>
    rw [hset]
    exact Finset.finite_toSet _
  case lists =>
    intro d _
    cases d with
    | gRoot => exact ⟨wideKids, wide_children, by decide, by decide +kernel, by decide +kernel⟩
    | block a => exact ⟨[], rfl, List.nodup_nil, fun _ hc => absurd hc List.not_mem_nil, List.nodup_nil⟩
  case rootTop => rfl
  case files =>
    intro f _ hkind
    cases f with
    | gRoot => cases hkind
    | block a => rfl
  case count =>
    rw [hset, Set.ncard_coe_finset]
    decide +kernel
  case cwd => exact ⟨InTree.root, rfl⟩
  case buffers =>
    intro f g _ _ hne a hf hg
    cases f with
    | gRoot => cases hf
    | block b =>
      cases g with
      | gRoot => cases hg
      | block c =>
        simp only [wide, wideNode] at hf hg
        split_ifs at hf hg with hb hc
        exact hne (by rw [hb, hc])
  case live =>
    intro a ha
    have hkid : NodeRef.block a ∈ wideKids :=
      (List.mem_cons.mp (wide_inTree.mp ha)).resolve_left NodeRef.noConfusion
    obtain ⟨i, hi, hia⟩ := List.mem_map.mp hkid
    have hheld : ∀ i ∈ List.range 65, wide.block (Fin.ofNat _ (i + 1)) ≠ none := by decide +kernel
    rw [← NodeRef.block.inj hia]
    exact hheld i hi

theorem wide_total : wide.vfsTotalFileBytes = some 0 := by
  decide +kernel

/-- The last of 65 files in one directory is not counted. -/
theorem wide_directory_total : ¬ ∀ s : Vfs, ∀ h : s.WellFormed,
    s.vfsTotalFileBytes = some (∑ n ∈ h.finite.toFinset, s.fileBytes n) := by
  intro hall
  have hlast : wide.InTree (.block 65) := wide_inTree.mpr (by decide)
  have hle : wide.fileBytes (.block 65) ≤ ∑ n ∈ wide_wellFormed.finite.toFinset, wide.fileBytes n :=
    Finset.single_le_sum (fun _ _ => Nat.zero_le _)
      (wide_wellFormed.finite.mem_toFinset.mpr hlast)
  have htotal := Option.some.inj (wide_total.symm.trans (hall wide wide_wellFormed))
  have hbytes : wide.fileBytes (.block 65) = 2 := by decide
  omega

end Vfs

end XinuRpi4.Files
