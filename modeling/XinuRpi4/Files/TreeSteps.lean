import XinuRpi4.Files.Tree

/-!
# What the calls of `fs/vfs.c` do to the tree

A new node grows the tree under its parent, a removal prunes a node without
children, and a write changes one file. The links change in one node, the rest
of every node of the tree stays.
-/

namespace XinuRpi4.Files

open XinuRpi4.Foundation

/-- A node without its links to children and siblings. -/
def VfsNode.core (v : VfsNode) : VfsNode := { v with children := none, next := none }

namespace VfsNode

variable {v w : VfsNode}

theorem name_of_core (h : v.core = w.core) : v.name = w.name := (VfsNode.mk.inj h).1
theorem kind_of_core (h : v.core = w.core) : v.kind = w.kind := (VfsNode.mk.inj h).2.1
theorem size_of_core (h : v.core = w.core) : v.size = w.size := (VfsNode.mk.inj h).2.2.1
theorem capacity_of_core (h : v.core = w.core) : v.capacity = w.capacity :=
  (VfsNode.mk.inj h).2.2.2.1
theorem data_of_core (h : v.core = w.core) : v.data = w.data := (VfsNode.mk.inj h).2.2.2.2.1
theorem parent_of_core (h : v.core = w.core) : v.parent = w.parent :=
  (VfsNode.mk.inj h).2.2.2.2.2.1

end VfsNode

namespace VfsTree

/-- A new last child of `p`. -/
def grow (t : VfsTree) (p n : NodeRef) : VfsTree where
  nodes := insert n t.nodes
  kids := Function.update (Function.update t.kids n []) p (t.kids p ++ [n])
  rank := Function.update t.rank n (t.rank p + 1)

def prune (t : VfsTree) (n : NodeRef) : VfsTree where
  nodes := t.nodes.erase n
  kids d := (t.kids d).erase n
  rank := t.rank

variable {t : VfsTree} {p n d : NodeRef}

@[simp] theorem mem_grow : d ∈ (t.grow p n).nodes ↔ d = n ∨ d ∈ t.nodes := Finset.mem_insert

@[simp] theorem mem_prune : d ∈ (t.prune n).nodes ↔ d ≠ n ∧ d ∈ t.nodes := Finset.mem_erase

@[simp] theorem grow_kids_parent : (t.grow p n).kids p = t.kids p ++ [n] := Function.update_self ..

theorem grow_kids_new (h : n ≠ p) : (t.grow p n).kids n = [] := by
  simp [grow, Function.update_of_ne h]

theorem grow_kids_of_ne (hp : d ≠ p) (hn : d ≠ n) : (t.grow p n).kids d = t.kids d := by
  simp [grow, Function.update_of_ne hp, Function.update_of_ne hn]

theorem grow_rank_of_ne (hn : d ≠ n) : (t.grow p n).rank d = t.rank d := by
  simp [grow, Function.update_of_ne hn]

@[simp] theorem grow_rank_new : (t.grow p n).rank n = t.rank p + 1 := Function.update_self ..

theorem grow_subset : t.nodes ⊆ (t.grow p n).nodes := Finset.subset_insert _ _

end VfsTree

namespace Vfs

variable {s s' : Vfs} {t : VfsTree} {p n : NodeRef} {v : VfsNode}

@[simp] theorem node_setNode_self : (s.setNode n v).node n = v := Function.update_self ..

theorem node_setNode_of_ne {m : NodeRef} (h : m ≠ n) : (s.setNode n v).node m = s.node m :=
  Function.update_of_ne h ..

theorem nextOf_setNode : (s.setNode n v).nextOf = Function.update s.nextOf n v.next := by
  funext m
  by_cases h : m = n
  · subst h
    simp [nextOf]
  · simp [nextOf, node_setNode_of_ne h, Function.update_of_ne h]

/-- Only links changed. -/
structure Relinked (s s' : Vfs) : Prop where
  core : ∀ m, (s'.node m).core = (s.node m).core
  bytes : s'.bytes = s.bytes
  block : s'.block = s.block
  count : s'.gNodeCount = s.gNodeCount
  cwd : s'.gCwd = s.gCwd
  touched : s'.touched = s.touched

theorem relinked_setNode (h : v.core = (s.node n).core) : Relinked s (s.setNode n v) where
  core m := by
    by_cases hm : m = n
    · subst hm
      rwa [node_setNode_self]
    · rw [node_setNode_of_ne hm]
  bytes := rfl
  block := rfl
  count := rfl
  cwd := rfl
  touched := rfl

theorem appendChild_spec {l : List NodeRef} (h : Segment s.nextOf (s.node p).children l none)
    (hl : l.Nodup) (hlen : l.length < walkFuel) (hn : n ∉ l) (hnext : s.nextOf n = none) :
    Relinked s (s.appendChild p n) ∧
      Segment (s.appendChild p n).nextOf ((s.appendChild p n).node p).children (l ++ [n]) none ∧
      (∀ d, d ≠ p → ((s.appendChild p n).node d).children = (s.node d).children) ∧
      ∀ m ∉ l, (s.appendChild p n).nextOf m = s.nextOf m := by
  rcases List.eq_nil_or_concat l with rfl | ⟨l', z, rfl⟩
  · have hchildren : (s.node p).children = none := h
    have heq : s.appendChild p n = s.setNode p { s.node p with children := some n } := by
      simp [appendChild, hchildren]
    have hkeep : (s.setNode p { s.node p with children := some n }).nextOf = s.nextOf := by
      rw [nextOf_setNode]
      exact Function.update_eq_self p s.nextOf
    rw [heq, hkeep]
    refine ⟨relinked_setNode rfl, ?_, fun d hd => by rw [node_setNode_of_ne hd], fun _ _ => rfl⟩
    simp [hnext]
  · simp only [List.concat_eq_append] at *
    obtain ⟨t, hchildren⟩ : ∃ t, (s.node p).children = some t := by
      cases l' with
      | nil => exact ⟨_, h.1⟩
      | cons c l => exact ⟨_, h.1⟩
    have hlast : s.tailLoop walkFuel t = z := by
      rw [hchildren] at h
      refine tailLoop_eq h ?_
      rw [List.length_append] at hlen
      omega
    have heq : s.appendChild p n = s.setNode z { s.node z with next := some n } := by
      simp [appendChild, hchildren, hlast]
    have hz : z ∉ l' := fun hmem => by simpa using (List.nodup_append.mp hl).2.2 z hmem z
    have hnz : n ≠ z := fun he => hn (by simp [he])
    have hsame : ∀ d, ((s.setNode z { s.node z with next := some n }).node d).children =
        (s.node d).children := by
      intro d
      by_cases hd : d = z
      · subst hd
        rw [node_setNode_self]
      · rw [node_setNode_of_ne hd]
    rw [heq, hsame, nextOf_setNode]
    refine ⟨relinked_setNode rfl, ?_, fun d _ => hsame d, ?_⟩
    · refine Segment.concat_iff.mpr ⟨Segment.relink h hz, ?_⟩
      rwa [Function.update_of_ne hnz]
    · intro m hm
      refine Function.update_of_ne ?_ _ _
      rintro rfl
      simp at hm

theorem detachChild_spec {l : List NodeRef} (hparent : (s.node n).parent = some p)
    (h : Segment s.nextOf (s.node p).children l none) (hl : l.Nodup)
    (hlen : l.length < walkFuel) (hn : n ∈ l) :
    (s.detachChild n).1 = 0 ∧ Relinked s (s.detachChild n).2 ∧
      Segment (s.detachChild n).2.nextOf ((s.detachChild n).2.node p).children (l.erase n) none ∧
      (∀ d, d ≠ p → ((s.detachChild n).2.node d).children = (s.node d).children) ∧
      ∀ m ∉ l, (s.detachChild n).2.nextOf m = s.nextOf m := by
  obtain ⟨l₁, l₂, hnl, rfl, herase⟩ := List.exists_erase_eq hn
  rw [herase]
  have hfound := detachLoop_eq none h hnl
    (show l₁.length < walkFuel by rw [List.length_append] at hlen; omega)
  rcases List.eq_nil_or_concat l₁ with rfl | ⟨l, b, rfl⟩
  · have heq : s.detachChild n =
        (0, s.setNode p { s.node p with children := (s.node n).next }) := by
      simp [detachChild, hparent, hfound]
    have hkeep : (s.setNode p { s.node p with children := (s.node n).next }).nextOf = s.nextOf := by
      rw [nextOf_setNode]
      exact Function.update_eq_self p s.nextOf
    rw [heq]
    refine ⟨rfl, relinked_setNode rfl, ?_, fun d hd => by rw [node_setNode_of_ne hd], ?_⟩
    · simp only [hkeep, node_setNode_self]
      exact h.2
    · intro m _
      rw [hkeep]
  · simp only [List.concat_eq_append] at *
    have heq : s.detachChild n = (0, s.setNode b { s.node b with next := (s.node n).next }) := by
      simp [detachChild, hparent, hfound]
    have hsame : ∀ d, ((s.setNode b { s.node b with next := (s.node n).next }).node d).children =
        (s.node d).children := by
      intro d
      by_cases hd : d = b
      · subst hd
        rw [node_setNode_self]
      · rw [node_setNode_of_ne hd]
    rw [heq]
    refine ⟨rfl, relinked_setNode rfl, ?_, fun d _ => hsame d, ?_⟩
    · simp only [hsame, nextOf_setNode, List.append_assoc, List.singleton_append] at h hl ⊢
      refine Segment.bypass h ?_
      have := (List.nodup_middle.mp hl)
      exact (List.nodup_cons.mp this).1
    · intro m hm
      simp only [nextOf_setNode]
      refine Function.update_of_ne ?_ _ _
      rintro rfl
      simp at hm

namespace Holds

/-- A block that the tree uses, for a node or for a buffer. -/
def Uses (s : Vfs) (t : VfsTree) (a : Addr) : Prop :=
  .block a ∈ t.nodes ∨ ∃ f ∈ t.nodes, (s.node f).data = some a

theorem live_of_uses (h : s.Holds t) {a : Addr} (ha : Uses s t a) : s.block a ≠ none := by
  obtain hn | ⟨f, hf, hdata⟩ := ha
  · exact h.live a hn
  · simp [(h.data f hf a hdata).1]

/-- Memory the tree does not use may change. -/
theorem of_memory (h : s.Holds t) (hnode : s'.node = s.node)
    (hblock : ∀ a, Uses s t a → s'.block a = s.block a) (hcount : s'.gNodeCount = s.gNodeCount)
    (hcwd : s'.gCwd = s.gCwd) : s'.Holds t := by
  have hcwd' : s'.vfsCwd = s.vfsCwd := by rw [vfsCwd, vfsCwd, hcwd]
  have hnext : s'.nextOf = s.nextOf := by
    funext m
    rw [nextOf, nextOf, hnode]
  exact
    { root := h.root
      rootDir := by rw [hnode, h.rootDir]
      rootTop := by rw [hnode, h.rootTop]
      chain := by simpa only [hnode, hnext] using h.chain
      nodup := h.nodup
      kid := by simpa only [hnode] using h.kid
      listed := h.listed
      rank := h.rank
      leaf := by simpa only [hnode] using h.leaf
      live := fun a ha => by
        rw [hblock a (Or.inl ha)]
        exact h.live a ha
      count := hcount.trans h.count
      cwd := by rw [hcwd']; exact h.cwd
      cwdDir := by rw [hnode, hcwd', h.cwdDir]
      data := fun f hf a hdata => by
        rw [hnode] at hdata ⊢
        rw [hblock a (Or.inr ⟨f, hf, hdata⟩)]
        exact h.data f hf a hdata
      apart := by simpa only [hnode] using h.apart
      bare := by simpa only [hnode] using h.bare }

/-- The tree grows: the nodes of the tree keep all but their links, the parent's
list ends with the new node, and the other lists stay. -/
theorem grow (h : s.Holds t) (hp : p ∈ t.nodes) (hdir : (s.node p).kind = .dir) {a : Addr}
    (hfresh : ¬ Uses s t a) {v : VfsNode}
    (hnew : (s'.node (.block a)).core = v.core) (hparent : v.parent = some p)
    (hdata : v.data = none) (hcap : v.capacity = 0)
    (hnone : (s'.node (.block a)).children = none)
    (hcore : ∀ m ∈ t.nodes, (s'.node m).core = (s.node m).core)
    (hchain : Segment s'.nextOf (s'.node p).children (t.kids p ++ [NodeRef.block a]) none)
    (hother : ∀ d ∈ t.nodes, d ≠ p → (s'.node d).children = (s.node d).children ∧
      Segment s'.nextOf (s.node d).children (t.kids d) none)
    (hblock : ∀ b, b ≠ a → s'.block b = s.block b) (hlive : s'.block a ≠ none)
    (hcount : s'.gNodeCount = s.gNodeCount + 1) (hcwd : s'.gCwd = s.gCwd) :
    s'.Holds (t.grow p (.block a)) := by
  have hn : NodeRef.block a ∉ t.nodes := fun hmem => hfresh (Or.inl hmem)
  have hnp : NodeRef.block a ≠ p := fun he => hn (he ▸ hp)
  have hold : ∀ m ∈ t.nodes, m ≠ .block a := fun m hm he => hn (he ▸ hm)
  have hcwd' : s'.vfsCwd = s.vfsCwd := by rw [vfsCwd, vfsCwd, hcwd]
  have hnewData : (s'.node (.block a)).data = none := (VfsNode.data_of_core hnew).trans hdata
  have hkids : ∀ d ∈ t.nodes, d ≠ p → (t.grow p (.block a)).kids d = t.kids d :=
    fun d hd hdp => VfsTree.grow_kids_of_ne hdp (hold d hd)
  have hcase : ∀ d ∈ (t.grow p (.block a)).nodes, ∀ c ∈ (t.grow p (.block a)).kids d,
      d ∈ t.nodes ∧ c ∈ t.kids d ∨ d = p ∧ c = .block a := by
    intro d hd c hc
    obtain rfl | hmem := VfsTree.mem_grow.mp hd
    · rw [VfsTree.grow_kids_new hnp] at hc
      cases hc
    · by_cases hdp : d = p
      · subst hdp
        rw [VfsTree.grow_kids_parent, List.mem_append, List.mem_singleton] at hc
        exact hc.imp (⟨hmem, ·⟩) (⟨rfl, ·⟩)
      · rw [hkids d hmem hdp] at hc
        exact Or.inl ⟨hmem, hc⟩
  have hbuf : ∀ f ∈ (t.grow p (.block a)).nodes, ∀ b, (s'.node f).data = some b →
      f ∈ t.nodes ∧ (s.node f).data = some b := by
    intro f hf b hb
    obtain rfl | hmem := VfsTree.mem_grow.mp hf
    · rw [hnewData] at hb
      cases hb
    · rw [VfsNode.data_of_core (hcore f hmem)] at hb
      exact ⟨hmem, hb⟩
  constructor
  case root => simp [h.root]
  case rootDir => rw [VfsNode.kind_of_core (hcore _ h.root), h.rootDir]
  case rootTop => rw [VfsNode.parent_of_core (hcore _ h.root), h.rootTop]
  case chain =>
    intro d hd
    obtain rfl | hmem := VfsTree.mem_grow.mp hd
    · rw [VfsTree.grow_kids_new hnp, hnone]
      rfl
    · by_cases hdp : d = p
      · subst hdp
        rwa [VfsTree.grow_kids_parent]
      · rw [hkids d hmem hdp, (hother d hmem hdp).1]
        exact (hother d hmem hdp).2
  case nodup =>
    intro d hd
    obtain rfl | hmem := VfsTree.mem_grow.mp hd
    · rw [VfsTree.grow_kids_new hnp]
      exact List.nodup_nil
    · by_cases hdp : d = p
      · subst hdp
        rw [VfsTree.grow_kids_parent, List.nodup_append]
        refine ⟨h.nodup d hmem, List.nodup_singleton _, ?_⟩
        intro x hx y hy
        rw [List.mem_singleton.mp hy]
        exact hold x (h.kid d hmem x hx).1
      · rw [hkids d hmem hdp]
        exact h.nodup d hmem
  case kid =>
    intro d hd c hc
    obtain ⟨hmem, hcd⟩ | ⟨rfl, rfl⟩ := hcase d hd c hc
    · obtain ⟨hc, hpar⟩ := h.kid d hmem c hcd
      refine ⟨VfsTree.mem_grow.mpr (Or.inr hc), ?_⟩
      rw [VfsNode.parent_of_core (hcore c hc), hpar]
    · exact ⟨by simp, (VfsNode.parent_of_core hnew).trans hparent⟩
  case listed =>
    intro c hc hroot
    obtain rfl | hmem := VfsTree.mem_grow.mp hc
    · exact ⟨p, by simp [hp], by simp⟩
    · obtain ⟨d, hd, hcd⟩ := h.listed c hmem hroot
      refine ⟨d, by simp [hd], ?_⟩
      by_cases hdp : d = p
      · subst hdp
        simp [hcd]
      · rwa [hkids d hd hdp]
  case rank =>
    intro d hd c hc
    obtain ⟨hmem, hcd⟩ | ⟨rfl, rfl⟩ := hcase d hd c hc
    · rw [VfsTree.grow_rank_of_ne (hold d hmem),
        VfsTree.grow_rank_of_ne (hold c (h.kid d hmem c hcd).1)]
      exact h.rank d hmem c hcd
    · rw [VfsTree.grow_rank_of_ne hnp.symm, VfsTree.grow_rank_new]
      exact Nat.lt_succ_self _
  case leaf =>
    intro f hf hkind
    obtain rfl | hmem := VfsTree.mem_grow.mp hf
    · exact hnone
    · rw [VfsNode.kind_of_core (hcore f hmem)] at hkind
      have hfp : f ≠ p := by
        rintro rfl
        simp [hdir] at hkind
      rw [(hother f hmem hfp).1]
      exact h.leaf f hmem hkind
  case live =>
    intro b hb
    by_cases hba : b = a
    · rwa [hba]
    · rw [hblock b hba]
      exact h.live b (by simpa [hba] using hb)
  case count => rw [hcount, h.count, VfsTree.grow, Finset.card_insert_of_notMem hn]
  case cwd => simp [hcwd', h.cwd]
  case cwdDir => rw [hcwd', VfsNode.kind_of_core (hcore _ h.cwd), h.cwdDir]
  case data =>
    intro f hf b hb
    obtain ⟨hmem, hb'⟩ := hbuf f hf b hb
    have hba : b ≠ a := by
      rintro rfl
      exact hfresh (Or.inr ⟨f, hmem, hb'⟩)
    obtain ⟨hbl, hnot⟩ := h.data f hmem b hb'
    rw [VfsNode.capacity_of_core (hcore f hmem), hblock b hba]
    exact ⟨hbl, by simp [hba, hnot]⟩
  case apart =>
    intro f hf g hg hfg b hb hgb
    obtain ⟨hmem, hb'⟩ := hbuf f hf b hb
    obtain ⟨hmemg, hgb'⟩ := hbuf g hg b hgb
    exact h.apart f hmem g hmemg hfg b hb' hgb'
  case bare =>
    intro f hf hb
    obtain rfl | hmem := VfsTree.mem_grow.mp hf
    · rw [VfsNode.capacity_of_core hnew, hcap]
    · rw [VfsNode.data_of_core (hcore f hmem)] at hb
      rw [VfsNode.capacity_of_core (hcore f hmem)]
      exact h.bare f hmem hb

/-- The tree loses a node without children. -/
theorem prune (h : s.Holds t) (hn : n ∈ t.nodes) (hroot : n ≠ .gRoot) (hkids : t.kids n = [])
    (hcwdn : n ≠ s.vfsCwd)
    (hcore : ∀ m ∈ t.nodes, (s'.node m).core = (s.node m).core)
    (hchain : ∀ d ∈ t.nodes, d ≠ n → Segment s'.nextOf (s'.node d).children ((t.kids d).erase n) none)
    (hleaf : ∀ f ∈ t.nodes, (s.node f).kind = .file → (s'.node f).children = none)
    (hblock : ∀ b, Uses s t b → .block b ≠ n → (s.node n).data ≠ some b → s'.block b = s.block b)
    (hcount : s'.gNodeCount = s.gNodeCount - 1) (hcwd : s'.gCwd = s.gCwd) :
    s'.Holds (t.prune n) := by
  have hcwd' : s'.vfsCwd = s.vfsCwd := by rw [vfsCwd, vfsCwd, hcwd]
  have hkid : ∀ d ∈ (t.prune n).nodes, ∀ c ∈ (t.prune n).kids d, c ∈ t.kids d ∧ c ≠ n := by
    intro d hd c hc
    have hd' := (VfsTree.mem_prune.mp hd).2
    exact ⟨List.mem_of_mem_erase hc, fun he => (h.nodup d hd').not_mem_erase (he ▸ hc)⟩
  constructor
  case root => simp [h.root, hroot.symm]
  case rootDir => rw [VfsNode.kind_of_core (hcore _ h.root), h.rootDir]
  case rootTop => rw [VfsNode.parent_of_core (hcore _ h.root), h.rootTop]
  case chain =>
    intro d hd
    obtain ⟨hdn, hd⟩ := VfsTree.mem_prune.mp hd
    exact hchain d hd hdn
  case nodup =>
    intro d hd
    exact (h.nodup d (VfsTree.mem_prune.mp hd).2).erase n
  case kid =>
    intro d hd c hc
    obtain ⟨hcd, hcn⟩ := hkid d hd c hc
    obtain ⟨hmem, hpar⟩ := h.kid d (VfsTree.mem_prune.mp hd).2 c hcd
    refine ⟨VfsTree.mem_prune.mpr ⟨hcn, hmem⟩, ?_⟩
    rw [VfsNode.parent_of_core (hcore c hmem), hpar]
  case listed =>
    intro c hc hcroot
    obtain ⟨hcn, hc⟩ := VfsTree.mem_prune.mp hc
    obtain ⟨d, hd, hcd⟩ := h.listed c hc hcroot
    have hdn : d ≠ n := by
      rintro rfl
      rw [hkids] at hcd
      cases hcd
    exact ⟨d, VfsTree.mem_prune.mpr ⟨hdn, hd⟩, (List.mem_erase_of_ne hcn).mpr hcd⟩
  case rank =>
    intro d hd c hc
    exact h.rank d (VfsTree.mem_prune.mp hd).2 c (hkid d hd c hc).1
  case leaf =>
    intro f hf hkind
    have hf' := (VfsTree.mem_prune.mp hf).2
    rw [VfsNode.kind_of_core (hcore f hf')] at hkind
    exact hleaf f hf' hkind
  case live =>
    intro b hb
    obtain ⟨hbn, hb⟩ := VfsTree.mem_prune.mp hb
    rw [hblock b (Or.inl hb) hbn fun hdata => (h.data n hn b hdata).2 hb]
    exact h.live b hb
  case count => rw [hcount, h.count, VfsTree.prune, Finset.card_erase_of_mem hn]
  case cwd => simp [hcwd', h.cwd, hcwdn.symm]
  case cwdDir => rw [hcwd', VfsNode.kind_of_core (hcore _ h.cwd), h.cwdDir]
  case data =>
    intro f hf b hb
    obtain ⟨hfn, hf⟩ := VfsTree.mem_prune.mp hf
    rw [VfsNode.data_of_core (hcore f hf)] at hb
    obtain ⟨hbl, hnot⟩ := h.data f hf b hb
    have hbn : NodeRef.block b ≠ n := fun he => hnot (he ▸ hn)
    rw [VfsNode.capacity_of_core (hcore f hf),
      hblock b (Or.inr ⟨f, hf, hb⟩) hbn (h.apart f hf n hn hfn b hb)]
    exact ⟨hbl, by simp [hnot]⟩
  case apart =>
    intro f hf g hg hfg b hb
    have hf' := (VfsTree.mem_prune.mp hf).2
    have hg' := (VfsTree.mem_prune.mp hg).2
    rw [VfsNode.data_of_core (hcore f hf')] at hb
    rw [VfsNode.data_of_core (hcore g hg')]
    exact h.apart f hf' g hg' hfg b hb
  case bare =>
    intro f hf hb
    have hf' := (VfsTree.mem_prune.mp hf).2
    rw [VfsNode.data_of_core (hcore f hf')] at hb
    rw [VfsNode.capacity_of_core (hcore f hf')]
    exact h.bare f hf' hb

/-- One file gets another size, capacity and buffer. -/
theorem of_file (h : s.Holds t) {f : NodeRef} (hf : f ∈ t.nodes) {size capacity : ℕ}
    {data : Option Addr} (hrest : ∀ m, m ≠ f → s'.node m = s.node m)
    (hself : s'.node f = { s.node f with size := size, capacity := capacity, data := data })
    (hdata : ∀ a, data = some a → s'.block a = some capacity ∧ .block a ∉ t.nodes ∧
      ∀ g ∈ t.nodes, g ≠ f → (s.node g).data ≠ some a)
    (hbare : data = none → capacity = 0)
    (hblock : ∀ b, Uses s t b → (s.node f).data ≠ some b → s'.block b = s.block b)
    (hcount : s'.gNodeCount = s.gNodeCount) (hcwd : s'.gCwd = s.gCwd) : s'.Holds t := by
  have hcwd' : s'.vfsCwd = s.vfsCwd := by rw [vfsCwd, vfsCwd, hcwd]
  have hlinks : ∀ m, (s'.node m).kind = (s.node m).kind ∧ (s'.node m).parent = (s.node m).parent ∧
      (s'.node m).children = (s.node m).children ∧ (s'.node m).next = (s.node m).next := by
    intro m
    by_cases hm : m = f
    · subst hm
      simp [hself]
    · simp [hrest m hm]
  have hkind := fun m => (hlinks m).1
  have hparent := fun m => (hlinks m).2.1
  have hchildren := fun m => (hlinks m).2.2.1
  have hnext : s'.nextOf = s.nextOf := funext fun m => (hlinks m).2.2.2
  have hnot : ∀ b, .block b ∈ t.nodes → (s.node f).data ≠ some b :=
    fun b hb hfb => (h.data f hf b hfb).2 hb
  constructor
  case root => exact h.root
  case rootDir => rw [hkind, h.rootDir]
  case rootTop => rw [hparent, h.rootTop]
  case chain => simpa only [hnext, hchildren] using h.chain
  case nodup => exact h.nodup
  case kid => simpa only [hparent] using h.kid
  case listed => exact h.listed
  case rank => exact h.rank
  case leaf => simpa only [hkind, hchildren] using h.leaf
  case live =>
    intro a ha
    rw [hblock a (Or.inl ha) (hnot a ha)]
    exact h.live a ha
  case count => exact hcount.trans h.count
  case cwd =>
    rw [hcwd']
    exact h.cwd
  case cwdDir => rw [hkind, hcwd', h.cwdDir]
  case data =>
    intro g hg a ha
    by_cases hgf : g = f
    · subst hgf
      rw [hself] at ha ⊢
      exact ⟨(hdata a ha).1, (hdata a ha).2.1⟩
    · rw [hrest g hgf] at ha ⊢
      rw [hblock a (Or.inr ⟨g, hg, ha⟩) fun hfa => h.apart g hg f hf hgf a ha hfa]
      exact h.data g hg a ha
  case apart =>
    intro g hg m hm hgm a ha hma
    by_cases hgf : g = f
    · subst hgf
      rw [hself] at ha
      rw [hrest m hgm.symm] at hma
      exact (hdata a ha).2.2 m hm hgm.symm hma
    · rw [hrest g hgf] at ha
      by_cases hmf : m = f
      · subst hmf
        rw [hself] at hma
        exact (hdata a hma).2.2 g hg hgf ha
      · rw [hrest m hmf] at hma
        exact h.apart g hg m hm hgm a ha hma
  case bare =>
    intro g hg ha
    by_cases hgf : g = f
    · subst hgf
      rw [hself] at ha ⊢
      exact hbare ha
    · rw [hrest g hgf] at ha ⊢
      exact h.bare g hg ha

end Holds

end Vfs

end XinuRpi4.Files
