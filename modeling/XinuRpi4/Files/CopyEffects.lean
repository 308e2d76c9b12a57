import XinuRpi4.Files.PathRoundTrip

/-!
# What `cp` and `mv` leave behind

Both find the file to write before they copy, and make it if it is not there. When the
memory for its contents is not found, the new file stays. `touch`, `write` and `edit`
give no name for a file in a directory.
-/

namespace XinuRpi4.Files

open XinuRpi4.Foundation

namespace Vfs

/-- The copy loop of `dst_file`; a load through a null pointer has no result. -/
def altLeafLoaded (altname : Option Text) : Option Text := altname.map fun name => name.take vfsNameMax

def dstFileLoaded (s : Vfs) (path : Text) (altname : Option Text) :
    Option (Option NodeRef × Vfs) :=
  match s.vfsResolve path with
  | some n =>
    if (s.node n).kind = .file then some (some n, s)
    else (altLeafLoaded altname).map (s.dstIn n)
  | none =>
    match s.vfsResolveParent path (vfsNameMax + 1) with
    | none => some (none, s)
    | some (dir, leaf) => some (s.dstIn dir leaf)

/-- The directory and the name under which `dst_file` looks for the file, where the path
does not lead to a file. -/
def target (s : Vfs) (path name : Text) : Option (NodeRef × Text) :=
  match s.vfsResolve path with
  | some n => if (s.node n).kind = .file then none else some (n, name.take vfsNameMax)
  | none => s.vfsResolveParent path (vfsNameMax + 1)

def contents (s : Vfs) (f : NodeRef) : List UInt8 :=
  (List.range (s.node f).size).map (s.bytes (s.node f).data)

/-- The nodes and all file contents are as before. -/
structure Untouched (s s' : Vfs) : Prop where
  nodes : ∀ n, s'.InTree n ↔ s.InTree n
  views : ∀ n, s.InTree n → s'.view n = s.view n

/-- The file `dst` holds what `src` held, the nodes of `gone` are away, and every other node is
as before. -/
structure Copied (s s' : Vfs) (src dst : NodeRef) (gone : List NodeRef) : Prop where
  nodes : ∀ n, s'.InTree n ↔ (s.InTree n ∨ n = dst) ∧ n ∉ gone
  file : (s'.node dst).kind = .file
  contents : s'.contents dst = s.contents src
  views : ∀ n, s.InTree n → n ≠ dst → n ∉ gone → s'.view n = s.view n

/-- The first argument leads to the file `src`, and the second is `path`. -/
def CopyArgs (s : Vfs) (argv : List Text) (src : NodeRef) (path : Text) : Prop :=
  ∃ p rest, argv = p :: path :: rest ∧ s.vfsResolve p = some src ∧ (s.node src).kind = .file

/-- The path leads to the file `dst`, or `dst` is found in the end where `dst_file` looks. -/
def Destination (s s' : Vfs) (path name : Text) (dst : NodeRef) : Prop :=
  (s.vfsResolve path = some dst ∧ (s.node dst).kind = .file) ∨
    ∃ dir leaf, s.target path name = some (dir, leaf) ∧ s'.vfsChild (some dir) leaf = some dst

/-- What `cp` promises. -/
def CpMeets (s : Vfs) (argv : List Text) : Prop :=
  ((s.cmdCp argv).1 = 0 → ∃ src path dst, s.CopyArgs argv src path ∧
    s.Destination (s.cmdCp argv).2 path (s.node src).name dst ∧ src ≠ dst ∧
      Copied s (s.cmdCp argv).2 src dst []) ∧
  ((s.cmdCp argv).1 = -1 → Untouched s (s.cmdCp argv).2)

/-- What `mv` promises. -/
def MvMeets (s : Vfs) (argv : List Text) : Prop :=
  ((s.cmdMv argv).1 = 0 → ∃ src path dst, s.CopyArgs argv src path ∧
    s.Destination (s.cmdMv argv).2 path (s.node src).name dst ∧
      ((src = dst ∧ Untouched s (s.cmdMv argv).2) ∨
        src ≠ dst ∧ Copied s (s.cmdMv argv).2 src dst [src] ∧
          ∀ d, (s.node src).parent = some d →
            (s.cmdMv argv).2.vfsChild (some d) (s.node src).name = none)) ∧
  ((s.cmdMv argv).1 = -1 → Untouched s (s.cmdMv argv).2)

/-- The file to write is not there and is made, and then there is no memory for the contents. -/
def Stranded (s : Vfs) (argv : List Text) : Prop :=
  ∃ src path dir leaf a s₁, s.CopyArgs argv src path ∧
    s.target path (s.node src).name = some (dir, leaf) ∧ s.vfsChild (some dir) leaf = none ∧
      s.kmalloc nodeSize = (some a, s₁) ∧ 0 < (s.node src).size ∧
        (s₁.kmalloc (s.node src).size).1 = none

variable {s s' s₁ : Vfs} {t t' : VfsTree} {path name leaf : Text} {altname : Option Text}
  {argv : List Text} {buffers : Prop} {f n p src dst dir : NodeRef} {a : Addr}

theorem dstFileLoaded_some (path name : Text) : (s.dstFileLoaded path (some name)).isSome := by
  unfold dstFileLoaded
  split
  · split_ifs <;> rfl
  · split <;> rfl

/-- `dst_file` without a name reads one exactly where the path leads to a directory. -/
theorem dstFileLoaded_none_iff :
    (s.dstFileLoaded path none).isSome ↔
      ∀ n, s.vfsResolve path = some n → (s.node n).kind = .file := by
  unfold dstFileLoaded
  split
  · rename_i n hn
    rw [hn]
    split_ifs with hkind
    · exact iff_of_true rfl fun m hm => Option.some.inj hm ▸ hkind
    · exact iff_of_false nofun fun hall => hkind (hall n rfl)
  · rename_i hn
    rw [hn]
    refine iff_of_true ?_ nofun
    split <;> rfl

theorem dstFile_of_target (htarget : s.target path name = some (dir, leaf)) :
    s.dstFile path (some name) = s.dstIn dir leaf := by
  rw [target] at htarget
  rw [dstFile]
  cases hres : s.vfsResolve path with
  | some n =>
    simp only [hres] at htarget ⊢
    split_ifs at htarget ⊢
    obtain ⟨rfl, rfl⟩ := Prod.mk.inj (Option.some.inj htarget)
    rfl
  | none =>
    simp only [hres] at htarget ⊢
    rw [htarget]

theorem dstFile_of_no_target (htarget : s.target path name = none) :
    s.dstFile path (some name) = (none, s) ∨
      ∃ n, s.vfsResolve path = some n ∧ (s.node n).kind = .file ∧
        s.dstFile path (some name) = (some n, s) := by
  rw [target] at htarget
  rw [dstFile]
  cases hres : s.vfsResolve path with
  | some n =>
    simp only [hres] at htarget ⊢
    split_ifs at htarget ⊢ with hkind
    exact Or.inr ⟨n, rfl, hkind, rfl⟩
  | none =>
    simp only [hres] at htarget ⊢
    rw [htarget]
    exact Or.inl rfl

theorem target_good (h : s.Good True buffers t) (hname : NameOk name)
    (htarget : s.target path name = some (dir, leaf)) :
    dir ∈ t.nodes ∧ (s.node dir).kind = .dir ∧ NameOk leaf := by
  unfold target at htarget
  split at htarget
  · rename_i n hn
    split_ifs at htarget with hkind
    obtain ⟨rfl, rfl⟩ := Prod.mk.inj (Option.some.inj htarget)
    refine ⟨h.holds.mem_of_vfsResolve hn, ?_, ?_⟩
    · cases hk : (s.node n).kind with
      | dir => rfl
      | file => exact absurd hk hkind
    · rwa [List.take_of_length_le hname.2.1]
  · exact h.holds.of_vfsResolveParent htarget

theorem appendChild_kmem (s : Vfs) (p n : NodeRef) :
    (s.appendChild p n).kmem = s.kmem ∧ (s.appendChild p n).block = s.block := by
  unfold appendChild
  split <;> exact ⟨rfl, rfl⟩

/-- A new node takes one block. -/
theorem newNode_kmem (hkmalloc : s.kmalloc nodeSize = (some a, s₁)) (kind : VfsKind) (name : Text) :
    (s.newNode kind name p).1 = some (.block a) ∧ (s.newNode kind name p).2.kmem = s₁.kmem ∧
      (s.newNode kind name p).2.block = s₁.block := by
  rw [newNode, hkmalloc]
  exact ⟨rfl, appendChild_kmem _ _ _⟩

/-- What `kmalloc` finds is a matter of the memory. -/
theorem kmalloc_congr (hkmem : s'.kmem = s.kmem) (hblock : s'.block = s.block) (len : ℕ) :
    (s'.kmalloc len).1 = (s.kmalloc len).1 := by
  rw [kmalloc, kmalloc, hkmem]
  cases s.kmem with
  | nil => rfl
  | cons found kmem =>
    cases found with
    | none => rfl
    | some a =>
      simp only [hblock]
      split_ifs <;> rfl

/-- A made file, under the directory and the name asked for. -/
structure Made (s s' s₁ : Vfs) (buffers : Prop) (t : VfsTree) (dir : NodeRef) (leaf : Text) (a : Addr) :
    Prop where
  absent : s.vfsChild (some dir) leaf = none
  taken : s.kmalloc nodeSize = (some a, s₁)
  good : s'.Good True buffers (t.grow dir (.block a))
  grown : Grown s s' t (t.grow dir (.block a))
  fresh : NodeRef.block a ∉ t.nodes
  core : (s'.node (.block a)).core = newborn .file leaf dir
  kmem : s'.kmem = s₁.kmem
  block : s'.block = s₁.block

theorem dstIn_absent (hkind : (s.node dir).kind = .dir) (hchild : s.vfsChild (some dir) leaf = none) :
    s.dstIn dir leaf = s.newNode .file leaf dir := by
  have hfind : s.findChild (some dir) leaf = none := hchild
  rw [dstIn, hchild]
  simp only [vfsCreateFile, makeChild, hkind, ne_eq, not_true_eq_false, if_false, hfind]
  rfl

/-- The file is found, or it is made, or there is none. -/
theorem dstIn_cases (h : s.Good True buffers t) (hdir : dir ∈ t.nodes)
    (hkind : (s.node dir).kind = .dir) (hleaf : NameOk leaf) :
    ((s.dstIn dir leaf).1 = none ∧ ∃ kmem, (s.dstIn dir leaf).2 = { s with kmem := kmem }) ∨
      (∃ f, s.dstIn dir leaf = (some f, s) ∧ f ∈ t.kids dir ∧ (s.node f).kind = .file ∧
        (s.node f).name = leaf) ∨
      ∃ a s₁, (s.dstIn dir leaf).1 = some (.block a) ∧
        Made s (s.dstIn dir leaf).2 s₁ buffers t dir leaf a := by
  have hfind := h.holds.findChild_eq hdir hkind leaf
  cases hchild : s.vfsChild (some dir) leaf with
  | some ex =>
    have heq : s.dstIn dir leaf =
        if (s.node ex).kind = .file then (some ex, s) else (none, s) := by
      rw [dstIn, hchild]
    have hex := hfind.symm.trans hchild
    rw [heq]
    split_ifs with hfile
    · have hname : (s.node ex).name = leaf := by simpa using List.find?_some hex
      exact Or.inr (Or.inl ⟨ex, rfl, List.mem_of_find?_eq_some hex, hfile, hname⟩)
    · exact Or.inl ⟨rfl, s.kmem, rfl⟩
  | none =>
    have hother : ∀ c ∈ t.kids dir, (s.node c).name ≠ leaf := by
      simpa using List.find?_eq_none.mp (hfind.symm.trans hchild)
    rw [dstIn_absent hkind hchild]
    obtain ⟨hnone, hkept⟩ | ⟨a, hnew, hgood, hgrown, hfresh, hcore⟩ :=
      newNode_good h hdir hkind .file leaf fun _ _ => ⟨hleaf, hother⟩
    · exact Or.inl ⟨hnone, hkept⟩
    · obtain ⟨_, hk⟩ | ⟨b, kmem, hb, hk⟩ := kmalloc_cases s nodeSize
      · rw [newNode, hk] at hnew
        cases hnew
      · obtain ⟨hnew', hkmem, hblock⟩ := newNode_kmem (p := dir) hk .file leaf
        obtain rfl := NodeRef.block.inj (Option.some.inj (hnew.symm.trans hnew'))
        exact Or.inr (Or.inr ⟨a, _, hnew, hchild, hk, hgood, hgrown, hfresh, hcore, hkmem, hblock⟩)

theorem Good.vfsChild_kid (h : s.Good True buffers t) (hd : dir ∈ t.nodes) (hf : f ∈ t.kids dir) :
    s.vfsChild (some dir) (s.node f).name = some f :=
  (h.wellFormed.child (h.holds.inTree_iff.mpr hd) (h.holds.chain dir hd) hf).2.2.2

theorem setNode_name {v : VfsNode} (hv : v.name = (s.node f).name) (m : NodeRef) :
    ((s.setNode f v).node m).name = (s.node m).name := by
  by_cases hm : m = f
  · subst hm
    rw [node_setNode_self, hv]
  · rw [node_setNode_of_ne hm]

theorem fillFile_name (s : Vfs) (f : NodeRef) (buf : ℕ → UInt8) (len : ℕ) (m : NodeRef) :
    ((s.fillFile f buf len).2.node m).name = (s.node m).name := by
  have hcopy := setNode_name (s := s.copyIn (s.node f).data buf len) (f := f)
    (v := { s.node f with size := len }) rfl m
  exact hcopy

theorem vfsWrite_name (s : Vfs) (file : Option NodeRef) (buf : ℕ → UInt8) (len : ℕ) (m : NodeRef) :
    ((s.vfsWrite file buf len).2.node m).name = (s.node m).name := by
  cases file with
  | none => rfl
  | some f =>
    rw [vfsWrite]
    split_ifs with hkind hlen
    · rfl
    · obtain ⟨kmem, hk⟩ | ⟨nb, kmem, hnb, hk⟩ := kmalloc_cases s len
      · rw [hk]
      · rw [hk]
        refine (fillFile_name _ f buf len m).trans ?_
        rw [setNode_name, kfreeData_node]
        rfl
    · exact fillFile_name s f buf len m

/-- The contents of a node are read from its view. -/
theorem contents_of_view (hview : s'.view f = s.view f) : s'.contents f = s.contents f := by
  obtain ⟨hcore, hbytes⟩ := Prod.mk.inj hview
  rw [contents, contents, VfsNode.size_of_core hcore]
  exact List.map_congr_left fun i _ => congrFun hbytes i

/-- A write fails where a larger buffer is needed and not found. -/
theorem vfsWrite_fails_iff (hkind : (s.node f).kind = .file) (buf : ℕ → UInt8) (len : ℕ) :
    (s.vfsWrite (some f) buf len).1 ≠ 0 ↔ (s.node f).capacity < len ∧ (s.kmalloc len).1 = none := by
  have hminus : (-1 : ℤ) ≠ 0 := by decide
  rw [vfsWrite, if_neg (not_not.mpr hkind)]
  split_ifs with hlen
  · obtain ⟨kmem, hk⟩ | ⟨nb, kmem, hnb, hk⟩ := kmalloc_cases s len
    · rw [hk]
      exact iff_of_true hminus ⟨hlen, rfl⟩
    · rw [hk]
      exact iff_of_false (fun hne => hne rfl) fun hboth => by cases hboth.2
  · exact iff_of_false (fun hne => hne rfl) fun hboth => hlen hboth.1

/-- The destination is written, and nothing else. -/
theorem Wrote.copied (h : s.Good True buffers t) (hsrc : src ∈ t.nodes)
    (hgrown : Grown s s₁ t t') (hnodes : ∀ n, n ∈ t'.nodes ↔ n ∈ t.nodes ∨ n = dst)
    (hgood : s'.Good True buffers t')
    (hwrote : Wrote s₁ s' t' dst (s₁.bytes (s₁.node src).data) (s₁.node src).size) :
    Copied s s' src dst [] := by
  constructor
  case nodes =>
    intro n
    rw [hgood.holds.inTree_iff, h.holds.inTree_iff, hnodes]
    simp
  case file => exact hwrote.kind
  case contents =>
    rw [← contents_of_view (hgrown.view src hsrc), contents, contents, hwrote.size]
    refine List.map_congr_left fun i hi => hwrote.bytes i (List.mem_range.mp hi)
  case views =>
    intro n hn hdst _
    have hmem := h.holds.inTree_iff.mp hn
    exact (hwrote.others n (hgrown.nodes hmem) hdst).trans (hgrown.view n hmem)

theorem CopyArgs.copyFile_eq (hargs : s.CopyArgs argv src path) :
    s.copyFile argv =
      match s.dstFile path (some (s.node src).name) with
      | (none, s) => (none, s)
      | (some dst, s) =>
        if dst = src then (some (src, none), s)
        else
          match s.vfsWrite (some dst) (s.bytes (s.node src).data) (s.node src).size with
          | (0, s) => (some (src, some dst), s)
          | (_, s) => (none, s) := by
  obtain ⟨p, rest, rfl, hres, hkind⟩ := hargs
  rw [copyFile]
  simp only [hres]
  exact if_neg (not_not.mpr hkind)

theorem CopyArgs.mem (h : s.Good True buffers t) (hargs : s.CopyArgs argv src path) :
    src ∈ t.nodes ∧ (s.node src).kind = .file ∧ NameOk (s.node src).name := by
  obtain ⟨p, rest, -, hres, hkind⟩ := hargs
  have hsrc := h.holds.mem_of_vfsResolve hres
  exact ⟨hsrc, hkind, (h.named trivial).nameOk h.holds hsrc (h.holds.ne_root_of_file hkind)⟩

theorem copyFile_of_no_args (hargs : ¬ ∃ src path, s.CopyArgs argv src path) :
    s.copyFile argv = (none, s) := by
  rw [copyFile.eq_def]
  split
  · rename_i p path rest
    cases hres : s.vfsResolve p with
    | none => rfl
    | some src =>
      have hkind : (s.node src).kind ≠ .file := fun hk => hargs ⟨src, path, p, rest, rfl, hres, hk⟩
      exact if_pos hkind
  · rfl

/-- Where the file written is: where the path leads, or under the name that was looked for. -/
def Placed (s s' : Vfs) (t : VfsTree) (path name : Text) (dst : NodeRef) : Prop :=
  (s.vfsResolve path = some dst ∧ (s.node dst).kind = .file) ∨
    ∃ dir leaf, s.target path name = some (dir, leaf) ∧ dir ∈ t.nodes ∧ dst ∈ t.kids dir ∧
      (s'.node dst).name = leaf

theorem Placed.destination (h : s'.Good True buffers t) (hplaced : Placed s s' t path name dst) :
    s.Destination s' path name dst := by
  rcases hplaced with hfile | ⟨dir, leaf, htarget, hdir, hkid, rfl⟩
  · exact Or.inl hfile
  · exact Or.inr ⟨dir, _, htarget, h.vfsChild_kid hdir hkid⟩

/-- How a copy can end. -/
inductive CopyOutcome (s : Vfs) (buffers : Prop) (t : VfsTree) (argv : List Text) : Prop
  | refused (hnone : (s.copyFile argv).1 = none) {kmem : List (Option Addr)}
      (hkept : (s.copyFile argv).2 = { s with kmem := kmem })
  | same {src : NodeRef} {path : Text} (hargs : s.CopyArgs argv src path)
      (heq : s.copyFile argv = (some (src, none), s)) (hplaced : Placed s s t path (s.node src).name src)
  | copied (t' : VfsTree) {src dst : NodeRef} {path : Text} (hargs : s.CopyArgs argv src path)
      (hsome : (s.copyFile argv).1 = some (src, some dst)) (hne : src ≠ dst)
      (hgood : (s.copyFile argv).2.Good True buffers t')
      (hcopied : Copied s (s.copyFile argv).2 src dst [])
      (hplaced : Placed s (s.copyFile argv).2 t' path (s.node src).name dst)
  | stranded (h : s.Stranded argv)

/-- A file that is there is written, unless it is the source itself. -/
theorem copy_to_found (h : s.Good True buffers t) (hargs : s.CopyArgs argv src path)
    (hdst : dst ∈ t.nodes) (hfound : s.dstFile path (some (s.node src).name) = (some dst, s))
    (hplaced : Placed s s t path (s.node src).name dst) : CopyOutcome s buffers t argv := by
  obtain ⟨hsrc, -, -⟩ := hargs.mem h
  have heq := hargs.copyFile_eq
  rw [hfound] at heq
  dsimp only at heq
  by_cases hself : dst = src
  · subst hself
    rw [if_pos rfl] at heq
    exact CopyOutcome.same hargs heq hplaced
  · rw [if_neg hself] at heq
    obtain ⟨hgood, ⟨hfail, kmem, hkept⟩ | ⟨hzero, g, hg, hwrote⟩⟩ := vfsWrite_good h (mem_of_some hdst)
      (s.bytes (s.node src).data) (s.node src).size
    · have hwrite : s.vfsWrite (some dst) (s.bytes (s.node src).data) (s.node src).size =
          (-1, { s with kmem := kmem }) := Prod.ext hfail hkept
      rw [hwrite] at heq
      exact CopyOutcome.refused (congrArg Prod.fst heq) (congrArg Prod.snd heq)
    · obtain rfl := Option.some.inj hg
      have hsub : ∀ n, n ∈ t.nodes ↔ n ∈ t.nodes ∨ n = dst := fun n =>
        ⟨Or.inl, fun hor => hor.elim id fun he => he ▸ hdst⟩
      have hcopied := hwrote.copied h hsrc (Grown.refl s t) hsub hgood
      have hname := vfsWrite_name s (some dst) (s.bytes (s.node src).data) (s.node src).size dst
      generalize hw : s.vfsWrite (some dst) (s.bytes (s.node src).data) (s.node src).size = w
        at heq hgood hzero hcopied hname
      obtain ⟨r, s'⟩ := w
      obtain rfl : r = 0 := hzero
      have hstate : (s.copyFile argv).2 = s' := congrArg Prod.snd heq
      refine CopyOutcome.copied t hargs (congrArg Prod.fst heq) (Ne.symm hself) ?_ ?_ ?_
      · rwa [hstate]
      · rwa [hstate]
      · rw [hstate]
        refine hplaced.imp_right ?_
        rintro ⟨dir, leaf, htarget, hdir, hkid, hleaf⟩
        exact ⟨dir, leaf, htarget, hdir, hkid, hname.trans hleaf⟩

section Making

variable {s₂ : Vfs}

/-- The write into a new file fails where there is something to copy and no memory for it. -/
theorem Made.write_fails_iff (hmade : Made s s₂ s₁ buffers t dir leaf a) (buf : ℕ → UInt8) (len : ℕ) :
    (s₂.vfsWrite (some (.block a)) buf len).1 ≠ 0 ↔ 0 < len ∧ (s₁.kmalloc len).1 = none := by
  have hkind : (s₂.node (.block a)).kind = .file := (VfsNode.mk.inj hmade.core).2.1
  have hcapacity : (s₂.node (.block a)).capacity = 0 := (VfsNode.mk.inj hmade.core).2.2.2.1
  rw [vfsWrite_fails_iff hkind, hcapacity, kmalloc_congr hmade.kmem hmade.block]

/-- The source is none of the nodes made, and it is as it was. -/
theorem Made.source (h : s.Good True buffers t) (hmade : Made s s₂ s₁ buffers t dir leaf a)
    (hargs : s.CopyArgs argv src path) :
    src ≠ .block a ∧ (s₂.node src).size = (s.node src).size := by
  obtain ⟨hsrc, -, -⟩ := hargs.mem h
  refine ⟨?_, VfsNode.size_of_core (core_of_view (hmade.grown.view src hsrc))⟩
  rintro rfl
  exact hmade.fresh hsrc

/-- A file that was made is written, or it is stranded. -/
theorem copy_to_made (h : s.Good True buffers t) (hargs : s.CopyArgs argv src path)
    (htarget : s.target path (s.node src).name = some (dir, leaf)) (hdir : dir ∈ t.nodes)
    (hdst : s.dstFile path (some (s.node src).name) = (some (.block a), s₂))
    (hmade : Made s s₂ s₁ buffers t dir leaf a) : CopyOutcome s buffers t argv := by
  obtain ⟨hsrc, -, -⟩ := hargs.mem h
  obtain ⟨hne, hsize⟩ := hmade.source h hargs
  have heq := hargs.copyFile_eq
  rw [hdst] at heq
  dsimp only at heq
  rw [if_neg (Ne.symm hne)] at heq
  have hnew : NodeRef.block a ∈ (t.grow dir (.block a)).nodes := VfsTree.mem_grow.mpr (Or.inl rfl)
  by_cases hfails : (s₂.vfsWrite (some (.block a)) (s₂.bytes (s₂.node src).data) (s₂.node src).size).1 = 0
  · obtain ⟨hgood, ⟨hminus, -⟩ | ⟨hzero, g, hg, hwrote⟩⟩ := vfsWrite_good hmade.good (mem_of_some hnew)
      (s₂.bytes (s₂.node src).data) (s₂.node src).size
    · rw [hfails] at hminus
      cases hminus
    · obtain rfl := Option.some.inj hg
      have hnodes : ∀ n, n ∈ (t.grow dir (.block a)).nodes ↔ n ∈ t.nodes ∨ n = .block a := fun n =>
        VfsTree.mem_grow.trans or_comm
      have hcopied := hwrote.copied h hsrc hmade.grown hnodes hgood
      have hname : (s₂.node (.block a)).name = leaf := by
        obtain ⟨-, -, hleaf⟩ := target_good h (hargs.mem h).2.2 htarget
        exact (VfsNode.mk.inj hmade.core).1.trans (List.take_of_length_le hleaf.2.1)
      have hkept := vfsWrite_name s₂ (some (.block a)) (s₂.bytes (s₂.node src).data)
        (s₂.node src).size (.block a)
      generalize s₂.vfsWrite (some (.block a)) (s₂.bytes (s₂.node src).data) (s₂.node src).size = w
        at heq hgood hzero hcopied hkept
      obtain ⟨r, s'⟩ := w
      obtain rfl : r = 0 := hzero
      have hstate : (s.copyFile argv).2 = s' := congrArg Prod.snd heq
      refine CopyOutcome.copied (t.grow dir (.block a)) hargs (congrArg Prod.fst heq) hne ?_ ?_ ?_
      · rwa [hstate]
      · rwa [hstate]
      · rw [hstate]
        refine Or.inr ⟨dir, leaf, htarget, VfsTree.mem_grow.mpr (Or.inr hdir), ?_, hkept.trans hname⟩
        rw [VfsTree.grow_kids_parent]
        exact List.mem_append_right _ (List.mem_singleton_self _)
  · obtain ⟨hpos, hmemory⟩ := (hmade.write_fails_iff _ _).mp hfails
    rw [hsize] at hpos hmemory
    exact CopyOutcome.stranded
      ⟨src, path, dir, leaf, a, s₁, hargs, htarget, hmade.absent, hmade.taken, hpos, hmemory⟩

/-- A stranded copy fails and leaves a node that was not there. -/
theorem Stranded.leaves (h : s.Good True buffers t) (hstranded : s.Stranded argv) :
    (s.copyFile argv).1 = none ∧ ¬ ∀ n, (s.copyFile argv).2.InTree n ↔ s.InTree n := by
  obtain ⟨src, path, dir, leaf, a, s₁, hargs, htarget, habsent, hk, hpos, hmemory⟩ := hstranded
  obtain ⟨hdir, hkind, hleaf⟩ := target_good h (hargs.mem h).2.2 htarget
  obtain ⟨s₂, hdst, hmade⟩ : ∃ s₂, s.dstIn dir leaf = (some (.block a), s₂) ∧
      Made s s₂ s₁ buffers t dir leaf a := by
    obtain ⟨hnone, -⟩ | ⟨f, -, hkid, -, hname⟩ | ⟨b, s₁', hsome, hmade⟩ :=
      dstIn_cases h hdir hkind hleaf
    · rw [dstIn_absent hkind habsent, (newNode_kmem hk .file leaf).1] at hnone
      cases hnone
    · rw [← hname, h.vfsChild_kid hdir hkid] at habsent
      cases habsent
    · obtain ⟨hab, rfl⟩ := Prod.mk.inj (hk.symm.trans hmade.taken)
      obtain rfl := Option.some.inj hab
      exact ⟨_, Prod.ext hsome rfl, hmade⟩
  obtain ⟨hne, hsize⟩ := hmade.source h hargs
  have heq := hargs.copyFile_eq
  rw [dstFile_of_target htarget, hdst] at heq
  dsimp only at heq
  rw [if_neg (Ne.symm hne)] at heq
  have hnew : NodeRef.block a ∈ (t.grow dir (.block a)).nodes := VfsTree.mem_grow.mpr (Or.inl rfl)
  have hfails := (hmade.write_fails_iff (s₂.bytes (s₂.node src).data) (s₂.node src).size).mpr
    (by rw [hsize]; exact ⟨hpos, hmemory⟩)
  obtain ⟨hgood, ⟨hminus, -⟩ | ⟨hzero, -⟩⟩ := vfsWrite_good hmade.good (mem_of_some hnew)
    (s₂.bytes (s₂.node src).data) (s₂.node src).size
  · generalize s₂.vfsWrite (some (.block a)) (s₂.bytes (s₂.node src).data) (s₂.node src).size = w
      at heq hgood hminus
    obtain ⟨r, s'⟩ := w
    obtain rfl : r = -1 := hminus
    rw [heq]
    refine ⟨rfl, fun hsame => hmade.fresh ?_⟩
    exact h.holds.inTree_iff.mp ((hsame _).mp (hgood.holds.inTree_iff.mpr hnew))
  · exact absurd hzero hfails

end Making

theorem copyFile_outcome (h : s.Good True buffers t) (argv : List Text) :
    CopyOutcome s buffers t argv := by
  by_cases hargs : ∃ src path, s.CopyArgs argv src path
  · obtain ⟨src, path, hargs⟩ := hargs
    have heq := hargs.copyFile_eq
    obtain ⟨-, -, hname⟩ := hargs.mem h
    cases htarget : s.target path (s.node src).name with
    | none =>
      obtain hnone | ⟨n, hres, hkind, hfound⟩ := dstFile_of_no_target htarget
      · rw [hnone] at heq
        exact CopyOutcome.refused (congrArg Prod.fst heq) (congrArg Prod.snd heq)
      · exact copy_to_found h hargs (h.holds.mem_of_vfsResolve hres) hfound (Or.inl ⟨hres, hkind⟩)
    | some dest =>
      obtain ⟨dir, leaf⟩ := dest
      obtain ⟨hdir, hkind, hleaf⟩ := target_good h hname htarget
      have hdst := dstFile_of_target htarget
      obtain ⟨hnone, kmem, hkept⟩ | ⟨f, hfound, hkid, -, hlabel⟩ | ⟨a, s₁, hsome, hmade⟩ :=
        dstIn_cases h hdir hkind hleaf
      · have hin : s.dstIn dir leaf = (none, { s with kmem := kmem }) := Prod.ext hnone hkept
        rw [hdst, hin] at heq
        exact CopyOutcome.refused (congrArg Prod.fst heq) (congrArg Prod.snd heq)
      · exact copy_to_found h hargs (h.holds.kid dir hdir f hkid).1 (hdst.trans hfound)
          (Or.inr ⟨dir, leaf, htarget, hdir, hkid, hlabel⟩)
      · exact copy_to_made h hargs htarget hdir (hdst.trans (Prod.ext hsome rfl)) hmade
  · have heq := copyFile_of_no_args hargs
    exact CopyOutcome.refused (congrArg Prod.fst heq) (congrArg Prod.snd heq)

theorem cmdCp_of_none (hnone : (s.copyFile argv).1 = none) :
    s.cmdCp argv = (-1, (s.copyFile argv).2) := by
  rw [cmdCp]
  generalize s.copyFile argv = r at hnone
  obtain ⟨o, s'⟩ := r
  obtain rfl : o = none := hnone
  rfl

theorem cmdMv_of_none (hnone : (s.copyFile argv).1 = none) :
    s.cmdMv argv = (-1, (s.copyFile argv).2) := by
  rw [cmdMv]
  generalize s.copyFile argv = r at hnone
  obtain ⟨o, s'⟩ := r
  obtain rfl : o = none := hnone
  rfl

theorem cmdCp_of_copied (hsome : (s.copyFile argv).1 = some (src, some dst)) :
    s.cmdCp argv = (0, (s.copyFile argv).2) := by
  rw [cmdCp]
  generalize s.copyFile argv = r at hsome
  obtain ⟨o, s'⟩ := r
  obtain rfl : o = some (src, some dst) := hsome
  rfl

theorem cmdMv_of_copied (hsome : (s.copyFile argv).1 = some (src, some dst)) :
    s.cmdMv argv = (0, ((s.copyFile argv).2.vfsUnlink (some src)).2) := by
  rw [cmdMv]
  generalize s.copyFile argv = r at hsome
  obtain ⟨o, s'⟩ := r
  obtain rfl : o = some (src, some dst) := hsome
  rfl

theorem Good.untouched_kmem (h : s.Good True buffers t) (kmem : List (Option Addr)) :
    Untouched s { s with kmem := kmem } :=
  ⟨fun n => by rw [(h.kmem kmem).holds.inTree_iff, h.holds.inTree_iff], fun _ _ => rfl⟩

theorem cp_meets_iff (h : s.Good True buffers t) (argv : List Text) :
    s.CpMeets argv ↔ ¬ s.Stranded argv := by
  constructor
  · intro hmeets hstranded
    obtain ⟨hnone, hnodes⟩ := hstranded.leaves h
    have hcp := cmdCp_of_none hnone
    have hkept := hmeets.2 (congrArg Prod.fst hcp)
    rw [hcp] at hkept
    exact hnodes hkept.nodes
  · intro hnot
    cases copyFile_outcome h argv with
    | @refused hnone kmem hkept =>
      rw [CpMeets, cmdCp_of_none hnone, hkept]
      exact ⟨nofun, fun _ => h.untouched_kmem kmem⟩
    | same _ heq _ =>
      have hcp : s.cmdCp argv = (-1, s) := by rw [cmdCp, heq]
      rw [CpMeets, hcp]
      exact ⟨nofun, fun _ => ⟨fun _ => Iff.rfl, fun _ _ => rfl⟩⟩
    | copied t' hargs hsome hne hgood hcopied hplaced =>
      rw [CpMeets, cmdCp_of_copied hsome]
      exact ⟨fun _ => ⟨_, _, _, hargs, hplaced.destination hgood, hne, hcopied⟩, nofun⟩
    | stranded hstranded => exact absurd hstranded hnot

/-- After the copy the source is taken out of the tree. -/
theorem Copied.unlink (h : s.Good True buffers t) (hargs : s.CopyArgs argv src path) (hne : src ≠ dst)
    (hgood : s₁.Good True buffers t') (hcopied : Copied s s₁ src dst [])
    (hplaced : Placed s s₁ t' path (s.node src).name dst) :
    s.Destination (s₁.vfsUnlink (some src)).2 path (s.node src).name dst ∧
      Copied s (s₁.vfsUnlink (some src)).2 src dst [src] ∧
        ∀ d, (s.node src).parent = some d →
          (s₁.vfsUnlink (some src)).2.vfsChild (some d) (s.node src).name = none := by
  obtain ⟨hsrc, hkind, -⟩ := hargs.mem h
  have hview := hcopied.views src (h.holds.inTree_iff.mpr hsrc) hne List.not_mem_nil
  have hmem : src ∈ t'.nodes := by
    rw [← hgood.holds.inTree_iff, hcopied.nodes]
    exact ⟨Or.inl (h.holds.inTree_iff.mpr hsrc), List.not_mem_nil⟩
  obtain ⟨-, hpruned, hcore, hbytes, -⟩ := vfsUnlink_prune hgood hmem ((kind_of_view hview).trans hkind)
  have hviews : ∀ n, (s₁.vfsUnlink (some src)).2.view n = s₁.view n := fun n => view_eq (hcore n) hbytes
  have hname : ∀ n, ((s₁.vfsUnlink (some src)).2.node n).name = (s₁.node n).name := fun n =>
    VfsNode.name_of_core (hcore n)
  refine ⟨?_, ⟨?_, ?_, ?_, ?_⟩, ?_⟩
  · refine Placed.destination hpruned (hplaced.imp_right ?_)
    rintro ⟨dir, leaf, htarget, hdir, hkid, hleaf⟩
    refine ⟨dir, leaf, htarget, VfsTree.mem_prune.mpr ⟨?_, hdir⟩, ?_, (hname dst).trans hleaf⟩
    · rintro rfl
      have hfile := hgood.holds.leaf dir hdir ((kind_of_view hview).trans hkind)
      rw [hgood.holds.kids_nil hdir hfile] at hkid
      cases hkid
    · exact (List.mem_erase_of_ne (Ne.symm hne)).mpr hkid
  · intro n
    rw [hpruned.holds.inTree_iff, VfsTree.mem_prune, ← hgood.holds.inTree_iff, hcopied.nodes]
    simp [and_comm]
  · rw [VfsNode.kind_of_core (hcore dst)]
    exact hcopied.file
  · rw [contents_of_view (hviews dst)]
    exact hcopied.contents
  · intro n hn hdst _
    rw [hviews n]
    exact hcopied.views n hn hdst List.not_mem_nil
  · intro d hparent
    have hroot := hgood.holds.ne_root_of_file ((kind_of_view hview).trans hkind)
    obtain ⟨e, he, hkid⟩ := hgood.holds.listed src hmem hroot
    have hparent' : (s₁.node src).parent = some d :=
      (VfsNode.parent_of_core (core_of_view hview)).trans hparent
    obtain rfl := Option.some.inj (hparent'.symm.trans (hgood.holds.kid e he src hkid).2)
    by_cases hdir : ((s₁.vfsUnlink (some src)).2.node d).kind = .dir
    · have hd : d ∈ (t'.prune src).nodes := by
        refine VfsTree.mem_prune.mpr ⟨?_, he⟩
        rintro rfl
        exact absurd (hgood.holds.rank d he d hkid) (lt_irrefl _)
      rw [vfsChild, hpruned.holds.findChild_eq hd hdir, List.find?_eq_none]
      intro c hc hsame
      have hcmem := List.mem_of_mem_erase hc
      have hlabel : (s₁.node c).name = (s₁.node src).name := by
        rw [← hname c, VfsNode.name_of_core (core_of_view hview)]
        simpa using hsame
      obtain rfl := List.inj_on_of_nodup_map ((hgood.named trivial).unique d he) hcmem hkid hlabel
      exact (hgood.holds.nodup d he).not_mem_erase hc
    · exact findChild_of_ne_dir hdir _

theorem mv_meets_iff (h : s.Good True buffers t) (argv : List Text) :
    s.MvMeets argv ↔ ¬ s.Stranded argv := by
  constructor
  · intro hmeets hstranded
    obtain ⟨hnone, hnodes⟩ := hstranded.leaves h
    have hmv := cmdMv_of_none hnone
    have hkept := hmeets.2 (congrArg Prod.fst hmv)
    rw [hmv] at hkept
    exact hnodes hkept.nodes
  · intro hnot
    cases copyFile_outcome h argv with
    | @refused hnone kmem hkept =>
      rw [MvMeets, cmdMv_of_none hnone, hkept]
      exact ⟨nofun, fun _ => h.untouched_kmem kmem⟩
    | same hargs heq hplaced =>
      have hmv : s.cmdMv argv = (0, s) := by rw [cmdMv, heq]
      rw [MvMeets, hmv]
      exact ⟨fun _ => ⟨_, _, _, hargs, hplaced.destination h,
        Or.inl ⟨rfl, fun _ => Iff.rfl, fun _ _ => rfl⟩⟩, nofun⟩
    | copied t' hargs hsome hne hgood hcopied hplaced =>
      rw [MvMeets, cmdMv_of_copied hsome]
      obtain ⟨hdest, hmoved, hgone⟩ := hcopied.unlink h hargs hne hgood hplaced
      exact ⟨fun _ => ⟨_, _, _, hargs, hdest, Or.inr ⟨hne, hmoved, hgone⟩⟩, nofun⟩
    | stranded hstranded => exact absurd hstranded hnot

/-- In every tree `cp` and `mv` keep their promises exactly where they do not strand a new file.
They give `dst_file` a name; without one it reads a name exactly where the path leads to a
directory. -/
theorem copy_effects_iff (s : Vfs) (t : VfsTree) (h : s.Good True False t) :
    (∀ argv, (s.CpMeets argv ↔ ¬ s.Stranded argv) ∧ (s.MvMeets argv ↔ ¬ s.Stranded argv)) ∧
      (∀ path name, (s.dstFileLoaded path (some name)).isSome) ∧
        ∀ path, (s.dstFileLoaded path none).isSome ↔
          ∀ n, s.vfsResolve path = some n → (s.node n).kind = .file :=
  ⟨fun argv => ⟨cp_meets_iff h argv, mv_meets_iff h argv⟩, dstFileLoaded_some,
    fun _ => dstFileLoaded_none_iff⟩

/-- `write /f hi` -/
def oneFileRun : List FileEvent := [⟨.write [[47, 102], [104, 105]], [some 1, some 2]⟩]

theorem oneFileRun_ok : EachStep Vfs.step
    (fun s e => ({ s with kmem := e.kmem } : Vfs).CommandOk True False e.op)
    (Vfs.start spelled noNode) oneFileRun := by
  decide

theorem oneFileRun_runs : (exec Vfs.step (Vfs.start spelled noNode) oneFileRun).isSome := by
  decide

/-- A tree with the file `/f`, and what the next calls of `kmalloc` find. -/
def oneFile (kmem : List (Option Addr)) : Vfs :=
  { (exec Vfs.step (Vfs.start spelled noNode) oneFileRun).get oneFileRun_runs with kmem := kmem }

theorem oneFile_good (kmem : List (Option Addr)) : ∃ t, (oneFile kmem).Good True False t := by
  obtain ⟨t, hgood⟩ := reachable_good
    (Reachable.start.exec (eachStep_opOk oneFileRun_ok) (Option.some_get oneFileRun_runs).symm)
  exact ⟨t, hgood.kmem kmem⟩

/-- `cp /f /g` and `mv /f /g` -/
def copyArgv : List Text := [[47, 102], [47, 103]]

theorem oneFile_copyArgs (kmem : List (Option Addr)) :
    (oneFile kmem).CopyArgs copyArgv src path ↔ src = .block 1 ∧ path = [47, 103] := by
  have hres : (oneFile kmem).vfsResolve [47, 102] = some (.block 1) := by
    have hnil : (oneFile []).vfsResolve [47, 102] = some (.block 1) := by decide
    exact hnil
  have hkind : ((oneFile kmem).node (.block 1)).kind = .file := by
    have hnil : ((oneFile []).node (.block 1)).kind = .file := by decide
    exact hnil
  constructor
  · rintro ⟨p, rest, hargv, hp, -⟩
    obtain ⟨rfl, hrest⟩ := List.cons.inj hargv
    obtain ⟨rfl, -⟩ := List.cons.inj hrest
    exact ⟨Option.some.inj (hp.symm.trans hres), rfl⟩
  · rintro ⟨rfl, rfl⟩
    exact ⟨[47, 102], [], rfl, hres, hkind⟩

/-- With memory for both blocks `cp /f /g` copies the three bytes of `/f`. -/
theorem copy_effects_oneFile : (oneFile [some 3, some 4]).CpMeets copyArgv ∧
    ((oneFile [some 3, some 4]).cmdCp copyArgv).2.contents (.block 3) = [104, 105, 10] := by
  obtain ⟨t, hgood⟩ := oneFile_good [some 3, some 4]
  refine ⟨((copy_effects_iff _ t hgood).1 copyArgv).1.mpr ?_, by decide⟩
  rintro ⟨src, path, dir, leaf, a, s₁, hargs, -, -, hk, -, hmemory⟩
  obtain ⟨rfl, -⟩ := (oneFile_copyArgs _).mp hargs
  obtain rfl : ((oneFile [some 3, some 4]).kmalloc nodeSize).2 = s₁ := congrArg Prod.snd hk
  have hfound : (((oneFile [some 3, some 4]).kmalloc nodeSize).2.kmalloc
      ((oneFile [some 3, some 4]).node (.block 1)).size).1 = some 4 := by decide
  rw [hmemory] at hfound
  cases hfound

/-- Without memory for the contents `cp /f /g` fails and leaves an empty file. -/
theorem cp_leaves_empty_file :
    ¬ ∀ s : Vfs, ∀ t, s.Good True False t → ∀ argv, s.CpMeets argv ∧ s.MvMeets argv := by
  intro hall
  obtain ⟨t, hgood⟩ := oneFile_good [some 3]
  refine (cp_meets_iff hgood copyArgv).mp (hall _ t hgood copyArgv).1 ?_
  exact ⟨.block 1, [47, 103], .gRoot, [103], 3, _, (oneFile_copyArgs _).mpr ⟨rfl, rfl⟩,
    by decide, by decide, by exact Prod.ext (by decide) rfl,
    by decide, by decide⟩

end Vfs

end XinuRpi4.Files
