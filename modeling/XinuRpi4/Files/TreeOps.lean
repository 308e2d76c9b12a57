import XinuRpi4.Files.TreeSteps

/-!
# The calls of `fs/vfs.c`

Each call keeps the tree. Whether the names are well formed and whether every
file has its buffer are kept apart, since each depends on a condition of its
own; a frame says which files a call leaves as they are.
-/

namespace XinuRpi4.Files

open XinuRpi4.Foundation

namespace Vfs

/-- The tree, its names and its buffers; the last two as far as asked for. -/
structure Good (names buffers : Prop) (s : Vfs) (t : VfsTree) : Prop where
  holds : s.Holds t
  named : names → s.Named t
  backed : buffers → s.Backed t

/-- A node without its links, and the bytes of its buffer. -/
def view (s : Vfs) (f : NodeRef) : VfsNode × (ℕ → UInt8) :=
  ((s.node f).core, s.bytes (s.node f).data)

/-- Every node is still there as it was, and no file was written. -/
structure Grown (s s' : Vfs) (t t' : VfsTree) : Prop where
  nodes : t.nodes ⊆ t'.nodes
  view : ∀ f ∈ t.nodes, s'.view f = s.view f
  touched : s'.touched = s.touched

/-- The files that were not touched are still there as they were. -/
def Frame (s s' : Vfs) (t t' : VfsTree) : Prop :=
  ∃ new, s'.touched = new ++ s.touched ∧
    ∀ f ∈ t.nodes, (s.node f).kind = .file → f ∉ new → f ∈ t'.nodes ∧ s'.view f = s.view f

variable {names buffers : Prop} {s s' s'' : Vfs} {t t' t'' : VfsTree} {f p n : NodeRef}

theorem core_of_view (h : s'.view f = s.view f) : (s'.node f).core = (s.node f).core :=
  (Prod.mk.inj h).1

theorem kind_of_view (h : s'.view f = s.view f) : (s'.node f).kind = (s.node f).kind :=
  VfsNode.kind_of_core (core_of_view h)

theorem view_eq (hcore : (s'.node f).core = (s.node f).core) (hbytes : s'.bytes = s.bytes) :
    s'.view f = s.view f := by
  simp only [view, hcore, hbytes, VfsNode.data_of_core hcore]

namespace Grown

theorem refl (s : Vfs) (t : VfsTree) : Grown s s t t :=
  ⟨Finset.Subset.refl _, fun _ _ => rfl, rfl⟩

theorem trans (h : Grown s s' t t') (h' : Grown s' s'' t' t'') : Grown s s'' t t'' :=
  ⟨h.nodes.trans h'.nodes, fun f hf => (h'.view f (h.nodes hf)).trans (h.view f hf),
    h'.touched.trans h.touched⟩

theorem frame (h : Grown s s' t t') : Frame s s' t t' :=
  ⟨[], h.touched, fun f hf _ _ => ⟨h.nodes hf, h.view f hf⟩⟩

end Grown

namespace Frame

theorem refl (s : Vfs) (t : VfsTree) : Frame s s t t := (Grown.refl s t).frame

theorem trans (h : Frame s s' t t') (h' : Frame s' s'' t' t'') : Frame s s'' t t'' := by
  obtain ⟨new, htouched, hkeep⟩ := h
  obtain ⟨new', htouched', hkeep'⟩ := h'
  refine ⟨new' ++ new, by rw [htouched', htouched, List.append_assoc], ?_⟩
  intro f hf hkind hnot
  rw [List.mem_append, not_or] at hnot
  obtain ⟨hf', hview⟩ := hkeep f hf hkind hnot.2
  obtain ⟨hf'', hview'⟩ := hkeep' f hf' (by rw [kind_of_view hview, hkind]) hnot.1
  exact ⟨hf'', hview'.trans hview⟩

end Frame

theorem kmalloc_cases (s : Vfs) (len : ℕ) :
    (∃ kmem, s.kmalloc len = (none, { s with kmem := kmem })) ∨
      ∃ a kmem, s.block a = none ∧
        s.kmalloc len =
          (some a, { s with kmem := kmem, block := Function.update s.block a (some len) }) := by
  unfold kmalloc
  split
  · exact Or.inl ⟨s.kmem, rfl⟩
  · exact Or.inl ⟨_, rfl⟩
  · rename_i a kmem _
    split_ifs with ha
    · exact Or.inr ⟨a, kmem, ha, rfl⟩
    · exact Or.inl ⟨_, rfl⟩

section KfreeData

variable {d : Option Addr}

@[simp] theorem kfreeData_node : (s.kfreeData d).node = s.node := by cases d <;> rfl
@[simp] theorem kfreeData_bytes : (s.kfreeData d).bytes = s.bytes := by cases d <;> rfl
@[simp] theorem kfreeData_count : (s.kfreeData d).gNodeCount = s.gNodeCount := by cases d <;> rfl
@[simp] theorem kfreeData_cwd : (s.kfreeData d).gCwd = s.gCwd := by cases d <;> rfl
@[simp] theorem kfreeData_touched : (s.kfreeData d).touched = s.touched := by cases d <;> rfl

theorem kfreeData_block_of_ne {b : Addr} (h : d ≠ some b) :
    (s.kfreeData d).block b = s.block b := by
  cases d with
  | none => rfl
  | some a => exact Function.update_of_ne (fun hb => h (by rw [hb])) ..

end KfreeData

/-- Names and buffers only depend on the nodes. -/
theorem Good.of_node (h : s.Good names buffers t) (hs' : s'.Holds t) (hnode : s'.node = s.node) :
    s'.Good names buffers t where
  holds := hs'
  named hn := by
    obtain ⟨hok, hunique⟩ := h.named hn
    exact ⟨by simpa only [hnode] using hok, by simpa only [hnode] using hunique⟩
  backed hb := by simpa only [Backed, hnode] using h.backed hb

theorem Good.kmem (h : s.Good names buffers t) (kmem : List (Option Addr)) :
    ({ s with kmem := kmem } : Vfs).Good names buffers t :=
  h.of_node (h.holds.of_memory rfl (fun _ _ => rfl) rfl rfl) rfl

/-- A block that no one holds is not the tree's. -/
theorem Holds.not_uses (h : s.Holds t) {a : Addr} (ha : s.block a = none) :
    ¬ Holds.Uses s t a := fun hu => h.live_of_uses hu ha

/-- Blocks come and go outside the tree. -/
theorem Good.block (h : s.Good names buffers t) {a : Addr} (ha : ¬ Holds.Uses s t a)
    (v : Option ℕ) (kmem : List (Option Addr)) :
    ({ s with kmem := kmem, block := Function.update s.block a v } : Vfs).Good names buffers t := by
  refine h.of_node (h.holds.of_memory rfl ?_ rfl rfl) rfl
  intro b hb
  refine Function.update_of_ne ?_ _ _
  rintro rfl
  exact ha hb

theorem Named.grow (hs : s.Holds t) (h : s.Named t) {a : Addr} (ha : .block a ∉ t.nodes)
    (hp : p ∈ t.nodes) {name : Text} (hname : (s'.node (.block a)).name = name) (hok : NameOk name)
    (hother : ∀ c ∈ t.kids p, (s.node c).name ≠ name)
    (hcore : ∀ m ∈ t.nodes, (s'.node m).core = (s.node m).core) :
    s'.Named (t.grow p (.block a)) := by
  have hold : ∀ m ∈ t.nodes, m ≠ .block a := fun m hm he => ha (he ▸ hm)
  have hkidName : ∀ d ∈ t.nodes, ∀ c ∈ t.kids d, (s'.node c).name = (s.node c).name :=
    fun d hd c hc => VfsNode.name_of_core (hcore c (hs.kid d hd c hc).1)
  have hmap : ∀ d ∈ t.nodes, (t.kids d).map (fun c => (s'.node c).name) =
      (t.kids d).map fun c => (s.node c).name :=
    fun d hd => List.map_congr_left (hkidName d hd)
  constructor
  · intro d hd c hc
    obtain rfl | hmem := VfsTree.mem_grow.mp hd
    · rw [VfsTree.grow_kids_new (hold p hp).symm] at hc
      cases hc
    · by_cases hdp : d = p
      · subst hdp
        rw [VfsTree.grow_kids_parent, List.mem_append, List.mem_singleton] at hc
        obtain hc | rfl := hc
        · rw [hkidName d hmem c hc]
          exact h.ok d hmem c hc
        · rwa [hname]
      · rw [VfsTree.grow_kids_of_ne hdp (hold d hmem)] at hc
        rw [hkidName d hmem c hc]
        exact h.ok d hmem c hc
  · intro d hd
    obtain rfl | hmem := VfsTree.mem_grow.mp hd
    · rw [VfsTree.grow_kids_new (hold p hp).symm]
      exact List.nodup_nil
    · by_cases hdp : d = p
      · subst hdp
        rw [VfsTree.grow_kids_parent, List.map_append, hmap d hmem, List.nodup_append]
        refine ⟨h.unique d hmem, List.nodup_singleton _, ?_⟩
        intro x hx y hy
        obtain ⟨c, hc, rfl⟩ := List.mem_map.mp hx
        rw [List.map_singleton, List.mem_singleton, hname] at hy
        rw [hy]
        exact hother c hc
      · rw [VfsTree.grow_kids_of_ne hdp (hold d hmem), hmap d hmem]
        exact h.unique d hmem

/-- What `new_node` writes into the new block. -/
def newborn (kind : VfsKind) (name : Text) (parent : NodeRef) : VfsNode where
  name := name.take vfsNameMax
  kind := kind
  size := 0
  capacity := 0
  data := none
  parent := some parent
  children := none
  next := none

theorem newNode_good (h : s.Good names buffers t) (hp : p ∈ t.nodes)
    (hdir : (s.node p).kind = .dir) (kind : VfsKind) (name : Text)
    (hname : names → (s.kmalloc nodeSize).1 ≠ none →
      NameOk name ∧ ∀ c ∈ t.kids p, (s.node c).name ≠ name) :
    ((s.newNode kind name p).1 = none ∧ ∃ kmem, (s.newNode kind name p).2 = { s with kmem := kmem }) ∨
      ∃ a, (s.newNode kind name p).1 = some (.block a) ∧
        (s.newNode kind name p).2.Good names buffers (t.grow p (.block a)) ∧
        Grown s (s.newNode kind name p).2 t (t.grow p (.block a)) ∧ NodeRef.block a ∉ t.nodes ∧
        ((s.newNode kind name p).2.node (.block a)).core = newborn kind name p := by
  obtain ⟨kmem, hnone⟩ | ⟨a, kmem, ha, hsome⟩ := kmalloc_cases s nodeSize
  · left
    have heq : s.newNode kind name p = (none, { s with kmem := kmem }) := by simp [newNode, hnone]
    rw [heq]
    exact ⟨rfl, kmem, rfl⟩
  · right
    have hfresh := h.holds.not_uses ha
    have hn : NodeRef.block a ∉ t.nodes := fun hmem => hfresh (Or.inl hmem)
    have hold : ∀ m ∈ t.nodes, m ≠ .block a := fun m hm he => hn (he ▸ hm)
    have hpn := hold p hp
    let v := newborn kind name p
    let s₁ : Vfs := { s with kmem := kmem, block := Function.update s.block a (some nodeSize) }
    let s₂ := s₁.setNode (.block a) v
    let s₃ := s₂.appendChild p (.block a)
    have heq : s.newNode kind name p =
        (some (.block a), { s₃ with gNodeCount := s₃.gNodeCount + 1 }) := by
      simp only [newNode, hsome]
      rfl
    have hnode₂ : ∀ m ∈ t.nodes, s₂.node m = s.node m := fun m hm => node_setNode_of_ne (hold m hm)
    have hnext₂ : ∀ m ∈ t.nodes, s₂.nextOf m = s.nextOf m := by
      intro m hm
      rw [nextOf, nextOf, hnode₂ m hm]
    have hchain₂ : ∀ d ∈ t.nodes, Segment s₂.nextOf (s₂.node d).children (t.kids d) none := by
      intro d hd
      rw [hnode₂ d hd]
      exact (Segment.congr fun m hm => hnext₂ m (h.holds.kid d hd m hm).1).mpr (h.holds.chain d hd)
    have hkid : NodeRef.block a ∉ t.kids p := fun hmem => hn (h.holds.kid p hp _ hmem).1
    obtain ⟨hrel, hseg, hchildren, hnext⟩ := appendChild_spec (n := .block a) (hchain₂ p hp)
      (h.holds.nodup p hp) (h.holds.kids_length hp) hkid
      (by rw [nextOf, node_setNode_self]; rfl)
    have hcore : ∀ m ∈ t.nodes, (s₃.node m).core = (s.node m).core :=
      fun m hm => (hrel.core m).trans (by rw [hnode₂ m hm])
    have hnew : (s₃.node (.block a)).core = v.core :=
      (hrel.core _).trans (by rw [node_setNode_self])
    rw [heq]
    refine ⟨a, rfl, ⟨?_, ?_, ?_⟩, ⟨VfsTree.grow_subset, ?_, hrel.touched⟩, hn, hnew⟩
    · refine h.holds.grow hp hdir hfresh hnew rfl rfl rfl ?_ hcore hseg ?_ ?_ ?_ ?_ hrel.cwd
      · rw [hchildren _ hpn.symm, node_setNode_self]
        rfl
      · intro d hd hdp
        refine ⟨by rw [hchildren d hdp, hnode₂ d hd], ?_⟩
        rw [← hnode₂ d hd]
        refine (Segment.congr fun m hm => hnext m ?_).mpr (hchain₂ d hd)
        exact fun hmp => hdp (h.holds.parent_unique hd hp hm hmp)
      · intro b hb
        exact (congrFun hrel.block b).trans (Function.update_of_ne hb ..)
      · have hblock : s₃.block a = some nodeSize :=
          (congrFun hrel.block a).trans (Function.update_self ..)
        exact fun hdead => Option.some_ne_none _ (hblock.symm.trans hdead)
      · exact congrArg (· + 1) hrel.count
    · intro hnames
      obtain ⟨hok, hother⟩ := hname hnames (by rw [hsome]; exact Option.some_ne_none _)
      have hlabel : (s₃.node (.block a)).name = name :=
        (VfsNode.name_of_core hnew).trans (List.take_of_length_le hok.2.1)
      exact (h.named hnames).grow h.holds hn hp hlabel hok hother hcore
    · intro hb f hf hkind
      obtain rfl | hmem := VfsTree.mem_grow.mp hf
      · rw [VfsNode.size_of_core hnew]
        exact Nat.zero_le _
      · rw [VfsNode.kind_of_core (hcore f hmem)] at hkind
        rw [VfsNode.size_of_core (hcore f hmem), VfsNode.capacity_of_core (hcore f hmem)]
        exact h.backed hb f hmem hkind
    · intro f hf
      exact view_eq (hcore f hf) hrel.bytes

theorem makeChild_good (h : s.Good names buffers t) (kind : VfsKind) {parent : Option NodeRef}
    (hparent : ∀ p, parent = some p → p ∈ t.nodes) (name : Text)
    (hname : names → (makeChild kind s parent name).1 ≠ none → NameOk name) :
    ∃ t', (makeChild kind s parent name).2.Good names buffers t' ∧
      Grown s (makeChild kind s parent name).2 t t' ∧
      ∀ n, (makeChild kind s parent name).1 = some n → n ∈ t'.nodes ∧ n ∉ t.nodes ∧
        ((makeChild kind s parent name).2.node n).kind = kind ∧
        ((makeChild kind s parent name).2.node n).data = none := by
  have hsame : makeChild kind s parent name = (none, s) →
      ∃ t', (makeChild kind s parent name).2.Good names buffers t' ∧
        Grown s (makeChild kind s parent name).2 t t' ∧
        ∀ n, (makeChild kind s parent name).1 = some n → n ∈ t'.nodes ∧ n ∉ t.nodes ∧
          ((makeChild kind s parent name).2.node n).kind = kind ∧
          ((makeChild kind s parent name).2.node n).data = none := by
    intro heq
    rw [heq]
    exact ⟨t, h, Grown.refl s t, nofun⟩
  cases parent with
  | none => exact hsame rfl
  | some p =>
    have hp := hparent p rfl
    by_cases hdir : (s.node p).kind = .dir
    · cases hfind : s.findChild (some p) name with
      | some c => exact hsame (by simp [makeChild, hdir, hfind])
      | none =>
        have heq : makeChild kind s (some p) name = s.newNode kind name p := by
          simp [makeChild, hdir, hfind]
        have hother : ∀ c ∈ t.kids p, (s.node c).name ≠ name := by
          rw [h.holds.findChild_eq hp hdir, List.find?_eq_none] at hfind
          simpa using hfind
        have hmade : (s.kmalloc nodeSize).1 ≠ none → (s.newNode kind name p).1 ≠ none := by
          obtain ⟨kmem, hnone⟩ | ⟨a, kmem, _, hsome⟩ := kmalloc_cases s nodeSize
          · simp [hnone]
          · simp [newNode, hsome]
        rw [heq] at hname ⊢
        obtain ⟨hnone, kmem, hkept⟩ | ⟨a, hnew, hgood, hgrown, hnot, hcore⟩ :=
          newNode_good h hp hdir kind name fun hn hk => ⟨hname hn (hmade hk), hother⟩
        · rw [hkept, hnone]
          exact ⟨t, h.kmem kmem, ⟨Finset.Subset.refl _, fun _ _ => rfl, rfl⟩, nofun⟩
        · refine ⟨_, hgood, hgrown, ?_⟩
          intro n hn
          obtain rfl := Option.some.inj (hnew.symm.trans hn)
          exact ⟨by simp, hnot, (VfsNode.mk.inj hcore).2.1, (VfsNode.mk.inj hcore).2.2.2.2.1⟩
    · exact hsame (by simp [makeChild, hdir])

/-- The file `f` holds the `len` bytes of `buf`, and the others what they held. -/
structure Wrote (s s' : Vfs) (t : VfsTree) (f : NodeRef) (buf : ℕ → UInt8) (len : ℕ) : Prop where
  was : (s.node f).kind = .file
  kind : (s'.node f).kind = .file
  size : (s'.node f).size = len
  bytes : ∀ i < len, s'.bytes (s'.node f).data i = buf i
  touched : s'.touched = f :: s.touched
  others : ∀ g ∈ t.nodes, g ≠ f → s'.view g = s.view g
  buffer : ∀ a, (s'.node f).data = some a → (s.node f).data = some a ∨ s.block a = none

theorem Wrote.frame {buf : ℕ → UInt8} {len : ℕ} (h : Wrote s s' t f buf len) : Frame s s' t t := by
  refine ⟨[f], h.touched, fun g hg _ hnot => ⟨hg, h.others g hg ?_⟩⟩
  simpa using hnot

/-- The names are kept where the nodes keep theirs. -/
theorem Named.of_name (h : s.Named t) (hname : ∀ m, (s'.node m).name = (s.node m).name) :
    s'.Named t :=
  ⟨by simpa only [hname] using h.ok, by simpa only [hname] using h.unique⟩

theorem fillFile_good (h : s.Good names buffers t) (hf : f ∈ t.nodes)
    (hkind : (s.node f).kind = .file) (buf : ℕ → UInt8) {len : ℕ}
    (hlen : len ≤ (s.node f).capacity) :
    (s.fillFile f buf len).2.Good names buffers t ∧ (s.fillFile f buf len).1 = 0 ∧
      Wrote s (s.fillFile f buf len).2 t f buf len := by
  have hself : (s.fillFile f buf len).2.node f = { s.node f with size := len } :=
    Function.update_self ..
  have hrest : ∀ m, m ≠ f → (s.fillFile f buf len).2.node m = s.node m :=
    fun m hm => Function.update_of_ne hm ..
  have hname : ∀ m, ((s.fillFile f buf len).2.node m).name = (s.node m).name := by
    intro m
    by_cases hm : m = f
    · subst hm
      rw [hself]
    · rw [hrest m hm]
  refine ⟨⟨?_, fun hn => (h.named hn).of_name hname, ?_⟩, rfl, hkind, ?_, ?_, ?_, rfl, ?_, ?_⟩
  · refine h.holds.of_file hf hrest hself ?_ (h.holds.bare f hf) (fun _ _ _ => rfl) rfl rfl
    intro a ha
    obtain ⟨hblock, hnot⟩ := h.holds.data f hf a ha
    exact ⟨hblock, hnot, fun g hg hgf => h.holds.apart f hf g hg hgf.symm a ha⟩
  · intro hb g hg hgk
    by_cases hgf : g = f
    · subst hgf
      rw [hself]
      exact hlen
    · rw [hrest g hgf] at hgk ⊢
      exact h.backed hb g hg hgk
  · rw [hself, hkind]
  · rw [hself]
  · intro i hi
    rw [hself]
    simp [fillFile, copyIn, setNode, hi]
  · intro g hg hgf
    have hbytes : (s.fillFile f buf len).2.bytes (s.node g).data = s.bytes (s.node g).data := by
      by_cases hdata : (s.node g).data = (s.node f).data
      · -- only null is shared, and then nothing is written
        cases hd : (s.node f).data with
        | some a => exact absurd (hdata.trans hd) (h.holds.apart f hf g hg hgf.symm a hd)
        | none =>
          have hcap := h.holds.bare f hf hd
          obtain rfl : len = 0 := by omega
          rw [hdata, hd]
          simp [fillFile, copyIn, setNode, hd]
      · exact Function.update_of_ne hdata ..
    simp only [view, hrest g hgf, hbytes]
  · intro a ha
    rw [hself] at ha
    exact Or.inl ha

/-- The buffer of a file is replaced by a larger one. -/
theorem regrow_good (h : s.Good names buffers t) (hf : f ∈ t.nodes) {len : ℕ}
    (hlen : (s.node f).capacity < len) {nb : Addr} (hnb : s.block nb = none)
    (hself : s'.node f = { s.node f with data := some nb, capacity := len })
    (hrest : ∀ m, m ≠ f → s'.node m = s.node m) (hnew : s'.block nb = some len)
    (hblock : ∀ b, b ≠ nb → (s.node f).data ≠ some b → s'.block b = s.block b)
    (hcount : s'.gNodeCount = s.gNodeCount) (hcwd : s'.gCwd = s.gCwd) :
    s'.Good names buffers t := by
  have hfresh := h.holds.not_uses hnb
  have hused : ∀ b, Holds.Uses s t b → b ≠ nb := by
    rintro b hb rfl
    exact hfresh hb
  refine ⟨?_, fun hn => (h.named hn).of_name ?_, ?_⟩
  · refine h.holds.of_file hf hrest hself ?_ nofun
      (fun b hb hd => hblock b (hused b hb) hd) hcount hcwd
    intro a ha
    obtain rfl := Option.some.inj ha
    exact ⟨hnew, fun hmem => hfresh (Or.inl hmem), fun g hg _ hd => hfresh (Or.inr ⟨g, hg, hd⟩)⟩
  · intro m
    by_cases hm : m = f
    · subst hm
      rw [hself]
    · rw [hrest m hm]
  · intro hb g hg hgk
    by_cases hgf : g = f
    · subst hgf
      rw [hself] at hgk ⊢
      exact ((h.backed hb g hg hgk).trans_lt hlen).le
    · rw [hrest g hgf] at hgk ⊢
      exact h.backed hb g hg hgk

/-- A write succeeds and changes its file only, or fails and changes nothing. -/
theorem vfsWrite_good (h : s.Good names buffers t) {file : Option NodeRef}
    (hfile : ∀ f, file = some f → f ∈ t.nodes) (buf : ℕ → UInt8) (len : ℕ) :
    (s.vfsWrite file buf len).2.Good names buffers t ∧
      (((s.vfsWrite file buf len).1 = -1 ∧
          ∃ kmem, (s.vfsWrite file buf len).2 = { s with kmem := kmem }) ∨
        (s.vfsWrite file buf len).1 = 0 ∧
          ∃ f, file = some f ∧ Wrote s (s.vfsWrite file buf len).2 t f buf len) := by
  cases file with
  | none => exact ⟨h, Or.inl ⟨rfl, s.kmem, rfl⟩⟩
  | some f =>
    have hf := hfile f rfl
    by_cases hkind : (s.node f).kind = .file
    · by_cases hlen : (s.node f).capacity < len
      · obtain ⟨kmem, hnone⟩ | ⟨nb, kmem, hnb, hsome⟩ := kmalloc_cases s len
        · have heq : s.vfsWrite (some f) buf len = (-1, { s with kmem := kmem }) := by
            simp [vfsWrite, hkind, hlen, hnone]
          rw [heq]
          exact ⟨h.kmem kmem, Or.inl ⟨rfl, kmem, rfl⟩⟩
        · let s₁ : Vfs := { s with kmem := kmem, block := Function.update s.block nb (some len) }
          let s₂ := s₁.kfreeData (s₁.node f).data
          let s₃ := s₂.setNode f { s₂.node f with data := some nb, capacity := len }
          have heq : s.vfsWrite (some f) buf len = s₃.fillFile f buf len := by
            simp [vfsWrite, hkind, hlen, hsome, s₃, s₂, s₁]
          have hself : s₃.node f = { s.node f with data := some nb, capacity := len } := by
            simp only [s₃, s₂, node_setNode_self, kfreeData_node]
            rfl
          have hrest : ∀ m, m ≠ f → s₃.node m = s.node m := by
            intro m hm
            simp only [s₃, s₂, node_setNode_of_ne hm, kfreeData_node]
            rfl
          have hdata : (s.node f).data ≠ some nb := by
            intro hd
            simp [(h.holds.data f hf nb hd).1] at hnb
          have hnew : s₃.block nb = some len :=
            (kfreeData_block_of_ne hdata).trans (Function.update_self ..)
          have hblock : ∀ b, b ≠ nb → (s.node f).data ≠ some b → s₃.block b = s.block b :=
            fun b hb hd => (kfreeData_block_of_ne hd).trans (Function.update_of_ne hb ..)
          have hgood := regrow_good h hf hlen hnb hself hrest hnew hblock kfreeData_count kfreeData_cwd
          obtain ⟨hfill, hzero, hwrote⟩ := fillFile_good hgood hf (by rw [hself, hkind]) buf
            (show len ≤ (s₃.node f).capacity by rw [hself])
          rw [heq]
          refine ⟨hfill, Or.inr ⟨hzero, f, rfl, hkind, hwrote.kind, hwrote.size, hwrote.bytes,
            ?_, ?_, ?_⟩⟩
          · rw [hwrote.touched]
            exact congrArg _ kfreeData_touched
          · intro g hg hgf
            rw [hwrote.others g hg hgf]
            exact view_eq (by rw [hrest g hgf]) kfreeData_bytes
          · intro a ha
            obtain hd | hd := hwrote.buffer a ha
            · rw [hself] at hd
              obtain rfl := Option.some.inj hd
              exact Or.inr hnb
            · by_cases hd' : (s.node f).data = some a
              · exact Or.inl hd'
              · by_cases han : a = nb
                · exact Or.inr (han ▸ hnb)
                · exact Or.inr ((hblock a han hd').symm.trans hd)
      · have heq : s.vfsWrite (some f) buf len = s.fillFile f buf len := by
          simp [vfsWrite, hkind, hlen]
        obtain ⟨hfill, hzero, hwrote⟩ := fillFile_good h hf hkind buf (not_lt.mp hlen)
        rw [heq]
        exact ⟨hfill, Or.inr ⟨hzero, f, rfl, hwrote⟩⟩
    · have heq : s.vfsWrite (some f) buf len = (-1, s) := by simp [vfsWrite, hkind]
      rw [heq]
      exact ⟨h, Or.inl ⟨rfl, s.kmem, rfl⟩⟩

theorem vfsWrite_frame (h : s.Good names buffers t) {file : Option NodeRef}
    (hfile : ∀ f, file = some f → f ∈ t.nodes) (buf : ℕ → UInt8) (len : ℕ) :
    (s.vfsWrite file buf len).2.Good names buffers t ∧
      Frame s (s.vfsWrite file buf len).2 t t := by
  obtain ⟨hgood, ⟨_, kmem, hkept⟩ | ⟨_, f, _, hwrote⟩⟩ := vfsWrite_good h hfile buf len
  · refine ⟨hgood, ?_⟩
    rw [hkept]
    exact Grown.frame ⟨Finset.Subset.refl _, fun _ _ => rfl, rfl⟩
  · exact ⟨hgood, hwrote.frame⟩

/-- A write takes no block that someone else holds. -/
theorem vfsWrite_not_uses (h : s.Good names buffers t) {file : Option NodeRef}
    (hfile : ∀ f, file = some f → f ∈ t.nodes) (buf : ℕ → UInt8) (len : ℕ) {a : Addr}
    (ha : ¬ Holds.Uses s t a) (hlive : s.block a ≠ none) :
    ¬ Holds.Uses (s.vfsWrite file buf len).2 t a := by
  obtain ⟨_, ⟨_, kmem, hkept⟩ | ⟨_, f, rfl, hwrote⟩⟩ := vfsWrite_good h hfile buf len
  · rw [hkept]
    exact ha
  · rintro (hn | ⟨g, hg, hd⟩)
    · exact ha (Or.inl hn)
    · by_cases hgf : g = f
      · subst hgf
        exact (hwrote.buffer a hd).elim (fun hold => ha (Or.inr ⟨g, hg, hold⟩)) hlive
      · rw [VfsNode.data_of_core (core_of_view (hwrote.others g hg hgf))] at hd
        exact ha (Or.inr ⟨g, hg, hd⟩)

theorem Holds.kids_nil (h : s.Holds t) (hn : n ∈ t.nodes) (hnone : (s.node n).children = none) :
    t.kids n = [] := by
  have hchain := h.chain n hn
  rw [hnone] at hchain
  cases hkids : t.kids n with
  | nil => rfl
  | cons c l =>
    rw [hkids] at hchain
    exact nomatch hchain.1

/-- The detached node leaves the tree when its block is given back, and a buffer
of its own with it. -/
theorem detach_good (h : s.Good names buffers t) (hn : n ∈ t.nodes) (hroot : n ≠ .gRoot)
    (hnone : (s.node n).children = none) (hcwd : n ≠ s.vfsCwd) :
    (s.detachChild n).1 = 0 ∧ (∀ m, ((s.detachChild n).2.node m).core = (s.node m).core) ∧
      (s.detachChild n).2.bytes = s.bytes ∧ (s.detachChild n).2.touched = s.touched ∧
      ∀ s' : Vfs, s'.node = (s.detachChild n).2.node →
        (∀ b, .block b ≠ n → (s.node n).data ≠ some b →
          s'.block b = (s.detachChild n).2.block b) →
        s'.gNodeCount = (s.detachChild n).2.gNodeCount - 1 →
        s'.gCwd = (s.detachChild n).2.gCwd → s'.Good names buffers (t.prune n) := by
  obtain ⟨p, hp, hnp⟩ := h.holds.listed n hn hroot
  have hkids := h.holds.kids_nil hn hnone
  obtain ⟨hzero, hrel, hseg, hchildren, hnext⟩ := detachChild_spec (h.holds.kid p hp n hnp).2
    (h.holds.chain p hp) (h.holds.nodup p hp) (h.holds.kids_length hp) hnp
  refine ⟨hzero, hrel.core, hrel.bytes, hrel.touched, ?_⟩
  intro s' hnode hblock hcount hcwd'
  have hcore : ∀ m, (s'.node m).core = (s.node m).core := fun m => by rw [hnode, hrel.core]
  have hnextOf : s'.nextOf = (s.detachChild n).2.nextOf := by
    funext m
    rw [nextOf, nextOf, hnode]
  have hsub : ∀ d ∈ (t.prune n).nodes, ∀ c ∈ (t.prune n).kids d, c ∈ t.kids d :=
    fun d _ c hc => List.mem_of_mem_erase hc
  refine ⟨?_, ?_, ?_⟩
  · refine h.holds.prune hn hroot hkids hcwd (fun m _ => hcore m) ?_ ?_ ?_
      (by rw [hcount, hrel.count]) (by rw [hcwd', hrel.cwd])
    · intro d hd _
      rw [hnextOf, hnode]
      by_cases hdp : d = p
      · subst hdp
        exact hseg
      · have hnd : n ∉ t.kids d := fun hmem => hdp (h.holds.parent_unique hd hp hmem hnp)
        rw [List.erase_of_not_mem hnd, hchildren d hdp]
        refine (Segment.congr fun m hm => hnext m ?_).mpr (h.holds.chain d hd)
        exact fun hmp => hdp (h.holds.parent_unique hd hp hm hmp)
    · intro f hf hkind
      have hfp : f ≠ p := by
        rintro rfl
        rw [h.holds.kids_nil hf (h.holds.leaf f hf hkind)] at hnp
        cases hnp
      rw [hnode, hchildren f hfp]
      exact h.holds.leaf f hf hkind
    · intro b _ hbn hd
      rw [hblock b hbn hd, hrel.block]
  · intro hnames
    have hname : ∀ m, (s'.node m).name = (s.node m).name := fun m => VfsNode.name_of_core (hcore m)
    obtain ⟨hok, hunique⟩ := h.named hnames
    constructor
    · intro d hd c hc
      rw [hname]
      exact hok d (VfsTree.mem_prune.mp hd).2 c (hsub d hd c hc)
    · intro d hd
      simp only [hname]
      exact (hunique d (VfsTree.mem_prune.mp hd).2).sublist (List.erase_sublist.map _)
  · intro hb f hf hkind
    have hf' := (VfsTree.mem_prune.mp hf).2
    rw [VfsNode.kind_of_core (hcore f)] at hkind
    rw [VfsNode.size_of_core (hcore f), VfsNode.capacity_of_core (hcore f)]
    exact h.backed hb f hf' hkind

theorem freeNode_fields (s : Vfs) (n : NodeRef) :
    (s.freeNode n).node = s.node ∧ (s.freeNode n).bytes = s.bytes ∧
      (s.freeNode n).gNodeCount = s.gNodeCount - 1 ∧ (s.freeNode n).gCwd = s.gCwd ∧
      (s.freeNode n).touched = s.touched ∧
      ∀ b, .block b ≠ n → (s.freeNode n).block b = s.block b := by
  cases n with
  | gRoot => exact ⟨rfl, rfl, rfl, rfl, rfl, fun _ _ => rfl⟩
  | block a =>
    refine ⟨rfl, rfl, rfl, rfl, rfl, fun b hb => Function.update_of_ne ?_ _ _⟩
    rintro rfl
    exact hb rfl

/-- The nodes but `n` are those of the smaller tree, as they were. -/
theorem prune_frame (new : List NodeRef) (hnode : ∀ m, (s'.node m).core = (s.node m).core)
    (hbytes : s'.bytes = s.bytes) (htouched : s'.touched = new ++ s.touched)
    (hn : (s.node n).kind = .file → n ∈ new) : Frame s s' t (t.prune n) := by
  refine ⟨new, htouched, fun f hf hkind hnot => ⟨?_, view_eq (hnode f) hbytes⟩⟩
  refine VfsTree.mem_prune.mpr ⟨?_, hf⟩
  rintro rfl
  exact hnot (hn hkind)

/-- A file of the tree is taken out of it. -/
theorem vfsUnlink_prune (h : s.Good names buffers t) (hf : f ∈ t.nodes)
    (hkind : (s.node f).kind = .file) :
    (s.vfsUnlink (some f)).1 = 0 ∧ (s.vfsUnlink (some f)).2.Good names buffers (t.prune f) ∧
      (∀ m, ((s.vfsUnlink (some f)).2.node m).core = (s.node m).core) ∧
      (s.vfsUnlink (some f)).2.bytes = s.bytes ∧
      (s.vfsUnlink (some f)).2.touched = f :: s.touched := by
  have hroot : f ≠ .gRoot := by
    rintro rfl
    simp [h.holds.rootDir] at hkind
  have hcwd : f ≠ s.vfsCwd := by
    rintro rfl
    simp [h.holds.cwdDir] at hkind
  obtain ⟨hzero, hcore, hbytes, htouched, hgood⟩ :=
    detach_good h hf hroot (h.holds.leaf f hf hkind) hcwd
  let s₁ := (s.detachChild f).2
  let s₂ := s₁.kfreeData (s₁.node f).data
  have hdetach : s.detachChild f = (0, s₁) := Prod.ext hzero rfl
  have heq : s.vfsUnlink (some f) =
      (0, { s₂.freeNode f with touched := f :: (s₂.freeNode f).touched }) := by
    simp only [vfsUnlink, hkind, ne_eq, not_true_eq_false, if_false, hdetach]
    rfl
  obtain ⟨hnode', hbytes', hcount', hcwd', htouched', hblock'⟩ := freeNode_fields s₂ f
  rw [heq]
  refine ⟨rfl, hgood _ ?_ ?_ ?_ ?_, ?_, ?_, ?_⟩
  · exact hnode'.trans kfreeData_node
  · intro b hb hd
    refine (hblock' b hb).trans (kfreeData_block_of_ne ?_)
    rwa [VfsNode.data_of_core (hcore f)]
  · exact hcount'.trans (congrArg (· - 1) kfreeData_count)
  · exact hcwd'.trans kfreeData_cwd
  · intro m
    rw [← hcore m]
    exact congrArg VfsNode.core (congrFun (hnode'.trans kfreeData_node) m)
  · exact (hbytes'.trans kfreeData_bytes).trans hbytes
  · exact congrArg _ ((htouched'.trans kfreeData_touched).trans htouched)

theorem vfsUnlink_good (h : s.Good names buffers t) {file : Option NodeRef}
    (hfile : ∀ f, file = some f → f ∈ t.nodes) :
    ∃ t', (s.vfsUnlink file).2.Good names buffers t' ∧ Frame s (s.vfsUnlink file).2 t t' := by
  cases file with
  | none => exact ⟨t, h, Frame.refl s t⟩
  | some f =>
    have hf := hfile f rfl
    by_cases hkind : (s.node f).kind = .file
    · obtain ⟨-, hgood, hcore, hbytes, htouched⟩ := vfsUnlink_prune h hf hkind
      exact ⟨t.prune f, hgood,
        prune_frame [f] hcore hbytes htouched fun _ => List.mem_singleton_self f⟩
    · have heq : s.vfsUnlink (some f) = (-1, s) := by simp [vfsUnlink, hkind]
      rw [heq]
      exact ⟨t, h, Frame.refl s t⟩

theorem vfsRmdir_good (h : s.Good names buffers t) {dir : Option NodeRef}
    (hdir : ∀ d, dir = some d → d ∈ t.nodes) (hcwd : dir ≠ some s.vfsCwd) :
    ∃ t', (s.vfsRmdir dir).2.Good names buffers t' ∧ Frame s (s.vfsRmdir dir).2 t t' := by
  cases dir with
  | none => exact ⟨t, h, Frame.refl s t⟩
  | some d =>
    by_cases hrefused : (s.node d).kind ≠ .dir ∨ d = .gRoot ∨ (s.node d).children.isSome
    · have heq : s.vfsRmdir (some d) = (-1, s) := by
        unfold vfsRmdir
        rcases hrefused with hk | hk | hk <;> simp [hk]
      rw [heq]
      exact ⟨t, h, Frame.refl s t⟩
    · simp only [not_or, ne_eq, not_not, Bool.not_eq_true, Option.isSome_eq_false_iff,
        Option.isNone_iff_eq_none] at hrefused
      obtain ⟨hkind, hroot, hnone⟩ := hrefused
      have hd := hdir d rfl
      obtain ⟨hzero, hcore, hbytes, htouched, hgood⟩ :=
        detach_good h hd hroot hnone fun he => hcwd (by rw [he])
      let s₁ := (s.detachChild d).2
      have hdetach : s.detachChild d = (0, s₁) := Prod.ext hzero rfl
      have heq : s.vfsRmdir (some d) = (0, s₁.freeNode d) := by
        simp [vfsRmdir, hkind, hroot, hnone, hdetach]
      obtain ⟨hnode', hbytes', hcount', hcwd', htouched', hblock'⟩ := freeNode_fields s₁ d
      rw [heq]
      refine ⟨t.prune d, hgood _ hnode' (fun b hb _ => hblock' b hb) hcount' hcwd', ?_⟩
      refine prune_frame [] ?_ (hbytes'.trans hbytes) (htouched'.trans htouched)
        (fun hfile => by simp [hkind] at hfile)
      intro m
      rw [← hcore m]
      exact congrArg VfsNode.core (congrFun hnode' m)

theorem vfsChdir_good (h : s.Good names buffers t) {dir : Option NodeRef}
    (hdir : ∀ d, dir = some d → d ∈ t.nodes) :
    (s.vfsChdir dir).2.Good names buffers t ∧ Grown s (s.vfsChdir dir).2 t t := by
  cases dir with
  | none => exact ⟨h, Grown.refl s t⟩
  | some d =>
    by_cases hkind : (s.node d).kind = .dir
    · have heq : s.vfsChdir (some d) = (0, { s with gCwd := some d }) := by
        simp [vfsChdir, hkind]
      rw [heq]
      have hholds : ({ s with gCwd := some d } : Vfs).Holds t :=
        { h.holds with cwd := hdir d rfl, cwdDir := hkind }
      exact ⟨h.of_node hholds rfl, Finset.Subset.refl _, fun _ _ => rfl, rfl⟩
    · have heq : s.vfsChdir (some d) = (-1, s) := by simp [vfsChdir, hkind]
      rw [heq]
      exact ⟨h, Grown.refl s t⟩

end Vfs

end XinuRpi4.Files
