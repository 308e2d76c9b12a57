import XinuRpi4.Files.TreeOps

/-!
# The commands and the mount keep the tree

Every command is a few calls of `fs/vfs.c` on nodes found by a path. The names
stay well formed unless `dst_file` takes a bad one from address 0 or the card
has a bad one; the buffers stay unless the card has a file that is not empty.
-/

namespace XinuRpi4.Files

open XinuRpi4.Foundation

namespace Vfs

variable {names buffers : Prop} {s s' : Vfs} {t t' : VfsTree} {f p n : NodeRef}

/-- Where `path` is a directory, the name read at address 0 is well formed. -/
def TargetOk (s : Vfs) (path : Text) : Prop :=
  match s.vfsResolve path with
  | none => True
  | some n => (s.node n).kind = .file ∨ NameOk (s.altLeaf none)

instance (s : Vfs) (path : Text) : Decidable (s.TargetOk path) := by
  unfold TargetOk
  split <;> infer_instance

theorem Named.nameOk (hs : s.Holds t) (h : s.Named t) (hn : n ∈ t.nodes) (hroot : n ≠ .gRoot) :
    NameOk (s.node n).name := by
  obtain ⟨d, hd, hnd⟩ := hs.listed n hn hroot
  exact h.ok d hd n hnd

theorem Holds.ne_root_of_file (h : s.Holds t) (hkind : (s.node n).kind = .file) : n ≠ .gRoot := by
  rintro rfl
  simp [h.rootDir] at hkind

theorem mem_of_some (hp : p ∈ t.nodes) : ∀ q, some p = some q → q ∈ t.nodes :=
  fun _ hq => Option.some.inj hq ▸ hp

/-- The file to write is in the tree, or there is none. -/
theorem dstIn_good (h : s.Good names buffers t) (hp : p ∈ t.nodes) {leaf : Text}
    (hleaf : names → NameOk leaf) :
    ∃ t', (s.dstIn p leaf).2.Good names buffers t' ∧ Grown s (s.dstIn p leaf).2 t t' ∧
      ∀ f, (s.dstIn p leaf).1 = some f → f ∈ t'.nodes ∧
        ((s.dstIn p leaf).2.node f).kind = .file := by
  unfold dstIn
  split
  · rename_i ex hfind
    split_ifs with hkind
    · refine ⟨t, h, Grown.refl s t, fun f hf => ?_⟩
      obtain rfl := Option.some.inj hf
      exact ⟨h.holds.mem_of_findChild hp hfind, hkind⟩
    · exact ⟨t, h, Grown.refl s t, nofun⟩
  · obtain ⟨t', hgood, hgrown, hnew⟩ :=
      makeChild_good h .file (mem_of_some hp) leaf fun hn _ => hleaf hn
    exact ⟨t', hgood, hgrown, fun f hf => ⟨(hnew f hf).1, (hnew f hf).2.2.1⟩⟩

theorem dstFile_good (h : s.Good names buffers t) (path : Text) (altname : Option Text)
    (hok : names → ∀ n, s.vfsResolve path = some n → (s.node n).kind = .dir →
      NameOk (s.altLeaf altname)) :
    ∃ t', (s.dstFile path altname).2.Good names buffers t' ∧
      Grown s (s.dstFile path altname).2 t t' ∧
      ∀ f, (s.dstFile path altname).1 = some f → f ∈ t'.nodes ∧
        ((s.dstFile path altname).2.node f).kind = .file := by
  unfold dstFile
  split
  · rename_i n hres
    have hn := h.holds.mem_of_vfsResolve hres
    split_ifs with hkind
    · refine ⟨t, h, Grown.refl s t, fun f hf => ?_⟩
      obtain rfl := Option.some.inj hf
      exact ⟨hn, hkind⟩
    · refine dstIn_good h hn fun hnames => hok hnames n hres ?_
      cases hk : (s.node n).kind with
      | dir => rfl
      | file => exact absurd hk hkind
  · split
    · exact ⟨t, h, Grown.refl s t, nofun⟩
    · rename_i dir leaf hparent
      obtain ⟨hdir, _, hleaf⟩ := h.holds.of_vfsResolveParent hparent
      exact dstIn_good h hdir fun _ => hleaf

theorem dstFile_null (h : s.Good names buffers t) (path : Text) (hok : names → s.TargetOk path) :
    ∃ t', (s.dstFile path none).2.Good names buffers t' ∧ Grown s (s.dstFile path none).2 t t' ∧
      ∀ f, (s.dstFile path none).1 = some f → f ∈ t'.nodes ∧
        ((s.dstFile path none).2.node f).kind = .file := by
  refine dstFile_good h path none fun hnames n hres hkind => ?_
  have htarget := hok hnames
  rw [TargetOk, hres] at htarget
  exact htarget.resolve_left (by simp [hkind])

/-- What a command makes of a tree. -/
def Kept (names buffers : Prop) (s s' : Vfs) (t : VfsTree) : Prop :=
  ∃ t', s'.Good names buffers t' ∧ Frame s s' t t'

theorem Good.kept (h : s.Good names buffers t) : Kept names buffers s s t := ⟨t, h, Frame.refl s t⟩

theorem Kept.of_grown (h : s'.Good names buffers t') (hgrown : Grown s s' t t') :
    Kept names buffers s s' t := ⟨t', h, hgrown.frame⟩

theorem Kept.trans {s'' : Vfs} (hframe : Frame s s' t t')
    (h : Kept names buffers s' s'' t') : Kept names buffers s s'' t := by
  obtain ⟨t'', hgood', hframe'⟩ := h
  exact ⟨t'', hgood', hframe.trans hframe'⟩

theorem cmdCd_kept (h : s.Good names buffers t) (argv : List Text) :
    Kept names buffers s (s.cmdCd argv).2 t := by
  unfold cmdCd
  simp only
  split
  · exact h.kept
  · rename_i n hn
    have hmem : n ∈ t.nodes := by
      cases argv with
      | nil =>
        obtain rfl := Option.some.inj hn
        exact h.holds.root
      | cons path _ => exact h.holds.mem_of_vfsResolve hn
    obtain ⟨hgood, hgrown⟩ := vfsChdir_good h (mem_of_some hmem)
    have hkept : Kept names buffers s (s.vfsChdir (some n)).2 t := Kept.of_grown hgood hgrown
    split
    · rename_i s' heq
      rwa [heq] at hkept
    · rename_i s' _ heq
      rwa [heq] at hkept

theorem cmdMkdir_kept (h : s.Good names buffers t) (argv : List Text) :
    Kept names buffers s (s.cmdMkdir argv).2 t := by
  unfold cmdMkdir
  split
  · exact h.kept
  · split
    · exact h.kept
    · rename_i path _ parent leaf hparent
      obtain ⟨hdir, _, hleaf⟩ := h.holds.of_vfsResolveParent hparent
      obtain ⟨t', hgood, hgrown, _⟩ :=
        makeChild_good h .dir (mem_of_some hdir) leaf fun _ _ => hleaf
      have hkept : Kept names buffers s (s.vfsMkdir (some parent) leaf).2 t :=
        Kept.of_grown hgood hgrown
      split
      · rename_i s' heq
        rwa [heq] at hkept
      · rename_i s' heq
        rwa [heq] at hkept

theorem cmdTouch_kept (h : s.Good names buffers t) {argv : List Text}
    (hok : names → ∀ path ∈ argv.head?, s.TargetOk path) :
    Kept names buffers s (s.cmdTouch argv).2 t := by
  unfold cmdTouch
  split
  · exact h.kept
  · rename_i path _
    obtain ⟨t', hgood, hgrown, _⟩ := dstFile_null h path fun hn => hok hn path rfl
    have hkept : Kept names buffers s (s.dstFile path none).2 t := Kept.of_grown hgood hgrown
    split
    · rename_i s' heq
      rwa [heq] at hkept
    · rename_i s' heq
      rwa [heq] at hkept

theorem cmdWrite_kept (h : s.Good names buffers t) {argv : List Text}
    (hok : names → ∀ path ∈ argv.head?, s.TargetOk path) :
    Kept names buffers s (s.cmdWrite argv).2 t := by
  unfold cmdWrite
  split
  · exact h.kept
  · rename_i path args
    obtain ⟨t', hgood, hgrown, hfile⟩ := dstFile_null h path fun hn => hok hn path rfl
    split
    · rename_i s' heq
      rw [heq] at hgood hgrown
      exact Kept.of_grown hgood hgrown
    · rename_i f s' heq
      rw [heq] at hgood hgrown hfile
      exact Kept.trans hgrown.frame ⟨t', vfsWrite_frame hgood (mem_of_some (hfile f rfl).1) _ _⟩

/-- The editor's own block is none of the tree's. -/
theorem cmdEdit_kept (h : s.Good names buffers t) {argv : List Text} (lines : List Text)
    (hok : names → ∀ path ∈ argv.head?, s.TargetOk path) :
    Kept names buffers s (s.cmdEdit argv lines).2 t := by
  unfold cmdEdit
  split
  · exact h.kept
  · rename_i path _
    obtain ⟨t', hgood, hgrown, hfile⟩ := dstFile_null h path fun hn => hok hn path rfl
    split
    · rename_i s' heq
      rw [heq] at hgood hgrown
      exact Kept.of_grown hgood hgrown
    · rename_i f s' heq
      rw [heq] at hgood hgrown hfile
      obtain ⟨hf, _⟩ := hfile f rfl
      obtain ⟨kmem, hnone⟩ | ⟨acc, kmem, hacc, hsome⟩ := kmalloc_cases s' editCap
      · rw [hnone]
        exact Kept.trans hgrown.frame
          ⟨t', hgood.kmem kmem, Grown.frame ⟨Finset.Subset.refl _, fun _ _ => rfl, rfl⟩⟩
      · rw [hsome]
        have hfree := hgood.holds.not_uses hacc
        have hgood₁ := hgood.block hfree (some editCap) kmem
        obtain ⟨hgood₂, hframe⟩ := vfsWrite_frame hgood₁ (mem_of_some hf)
          (fun i => (editText [] lines).getD i 0) (editText [] lines).length
        have hfree₂ := vfsWrite_not_uses hgood₁ (mem_of_some hf)
          (fun i => (editText [] lines).getD i 0) (editText [] lines).length (a := acc)
          (fun hu => hfree hu) (by simp)
        exact Kept.trans hgrown.frame ⟨t', hgood₂.block hfree₂ none _, hframe⟩

theorem rmFile_kept (h : s.Good names buffers t) (path : Text) :
    Kept names buffers s (s.rmFile path) t := by
  unfold rmFile
  split
  · exact h.kept
  · rename_i n hres
    split_ifs
    · exact h.kept
    · exact vfsUnlink_good h (mem_of_some (h.holds.mem_of_vfsResolve hres))

theorem rmFiles_kept (h : s.Good names buffers t) (argv : List Text) :
    Kept names buffers s (argv.foldl rmFile s) t := by
  induction argv generalizing s t with
  | nil => exact h.kept
  | cons path argv ih =>
    obtain ⟨t', hgood, hframe⟩ := rmFile_kept h path
    exact Kept.trans hframe (ih hgood)

theorem cmdRm_kept (h : s.Good names buffers t) (argv : List Text) :
    Kept names buffers s (s.cmdRm argv).2 t := by
  unfold cmdRm
  split
  · exact h.kept
  · exact rmFiles_kept h _

theorem cmdRmdir_kept (h : s.Good names buffers t) (argv : List Text) :
    Kept names buffers s (s.cmdRmdir argv).2 t := by
  unfold cmdRmdir
  split
  · exact h.kept
  · split
    · exact h.kept
    · rename_i n hres
      split_ifs with hcwd
      · exact h.kept
      · have hkept : Kept names buffers s (s.vfsRmdir (some n)).2 t :=
          vfsRmdir_good h (mem_of_some (h.holds.mem_of_vfsResolve hres)) (by simpa using hcwd)
        split
        · rename_i s' heq
          rwa [heq] at hkept
        · rename_i s' _ heq
          rwa [heq] at hkept

/-- A copy writes a file other than its source, which stays in the tree. -/
theorem copyFile_good (h : s.Good names buffers t) (argv : List Text) :
    ∃ t', (s.copyFile argv).2.Good names buffers t' ∧ Frame s (s.copyFile argv).2 t t' ∧
      ∀ src dst, (s.copyFile argv).1 = some (src, some dst) → src ∈ t'.nodes := by
  unfold copyFile
  split
  · rename_i srcPath dstPath _
    split
    · exact ⟨t, h, Frame.refl s t, by simp⟩
    · rename_i src hres
      have hsrc := h.holds.mem_of_vfsResolve hres
      split_ifs with hkind
      · exact ⟨t, h, Frame.refl s t, by simp⟩
      · have hfile : (s.node src).kind = .file := by simpa using hkind
        obtain ⟨t', hgood, hgrown, hdst⟩ := dstFile_good h dstPath
          (some (s.node src).name) fun hnames _ _ _ => by
            have hname := (h.named hnames).nameOk h.holds hsrc (h.holds.ne_root_of_file hfile)
            rwa [altLeaf, List.take_of_length_le hname.2.1]
        split
        · rename_i s' heq
          rw [heq] at hgood hgrown
          exact ⟨t', hgood, hgrown.frame, by simp⟩
        · rename_i dst s' heq
          rw [heq] at hgood hgrown hdst
          split_ifs with hself
          · exact ⟨t', hgood, hgrown.frame, by simp⟩
          · obtain ⟨hwritten, hframe⟩ := vfsWrite_frame hgood (mem_of_some (hdst dst rfl).1)
              (s'.bytes (s'.node src).data) (s'.node src).size
            split
            · rename_i s'' heq'
              rw [heq'] at hwritten hframe
              refine ⟨t', hwritten, hgrown.frame.trans hframe, ?_⟩
              intro src' dst' hres'
              obtain ⟨rfl, _⟩ := Prod.mk.inj (Option.some.inj hres')
              exact hgrown.nodes hsrc
            · rename_i s'' _ heq'
              rw [heq'] at hwritten hframe
              exact ⟨t', hwritten, hgrown.frame.trans hframe, by simp⟩
  · exact ⟨t, h, Frame.refl s t, by simp⟩

theorem cmdCp_kept (h : s.Good names buffers t) (argv : List Text) :
    Kept names buffers s (s.cmdCp argv).2 t := by
  obtain ⟨t', hgood, hframe, _⟩ := copyFile_good h argv
  have hkept : Kept names buffers s (s.copyFile argv).2 t := ⟨t', hgood, hframe⟩
  unfold cmdCp
  split
  · rename_i heq
    rwa [heq] at hkept
  · rename_i heq
    rwa [heq] at hkept

theorem cmdMv_kept (h : s.Good names buffers t) (argv : List Text) :
    Kept names buffers s (s.cmdMv argv).2 t := by
  obtain ⟨t', hgood, hframe, hsrc⟩ := copyFile_good h argv
  unfold cmdMv
  split
  · rename_i heq
    rw [heq] at hgood hframe
    exact ⟨t', hgood, hframe⟩
  · rename_i src dst s' heq
    rw [heq] at hgood hframe hsrc
    exact Kept.trans hframe (vfsUnlink_good hgood (mem_of_some (hsrc src dst rfl)))
  · rename_i heq
    rw [heq] at hgood hframe
    exact ⟨t', hgood, hframe⟩

end Vfs

end XinuRpi4.Files
