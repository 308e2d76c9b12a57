import XinuRpi4.Files.TreeInvariant

/-!
# The contents of files

A file that was written keeps its bytes until it is written again or removed,
and a write that fails changes nothing. Every file has the buffer its size asks
for, as long as the mount meets only empty files.
-/

namespace XinuRpi4.Files

open XinuRpi4.Foundation

namespace Vfs

variable {names buffers : Prop} {s s' : Vfs} {t t' : VfsTree} {f : NodeRef}

theorem run_kept (h : s.Good names buffers t) {es : List FileEvent}
    (hok : EachStep Vfs.step (OpOk names buffers) s es) (hrun : exec Vfs.step s es = some s') :
    Kept names buffers s s' t := by
  induction es generalizing s t with
  | nil =>
    obtain rfl := Option.some.inj hrun
    exact h.kept
  | cons e es ih =>
    obtain ⟨s₁, hstep, hrest⟩ := Option.bind_eq_some_iff.mp hrun
    obtain ⟨t₁, hgood, hframe⟩ := step_kept h hok.1 hstep
    exact Kept.trans hframe (ih hgood (hok.2 s₁ hstep) hrest)

/-- A file reads what its view holds. -/
theorem vfsRead_of_view (hkind : (s.node f).kind = .file) (hview : s'.view f = s.view f)
    (max : ℕ) : (s'.vfsRead (some f) max).2 =
      (List.range (min (s.node f).size max)).map (s.bytes (s.node f).data) := by
  obtain ⟨hcore, hbytes⟩ := Prod.mk.inj hview
  have hkind' : (s'.node f).kind = .file := (VfsNode.kind_of_core hcore).trans hkind
  simp only [vfsRead, hkind', ne_eq, not_true_eq_false, if_false, VfsNode.size_of_core hcore, hbytes]

theorem Wrote.read {buf : ℕ → UInt8} {len : ℕ} (h : Wrote s s' t f buf len) {s'' : Vfs}
    (hview : s''.view f = s'.view f) (max : ℕ) :
    (s''.vfsRead (some f) max).2 = (List.range (min len max)).map buf := by
  rw [vfsRead_of_view h.kind hview, h.size]
  refine List.map_congr_left fun i hi => h.bytes i ?_
  have := List.mem_range.mp hi
  omega

/-- Every file has the buffer its size asks for. -/
def Stored (s : Vfs) : Prop :=
  ∀ f, s.InTree f → (s.node f).kind = .file → (s.node f).size ≤ (s.node f).capacity ∧
    (0 < (s.node f).size → ∃ a, (s.node f).data = some a ∧ s.block a = some (s.node f).capacity)

theorem Good.stored (h : s.Good names True t) : s.Stored := by
  intro f hf hkind
  have hmem := h.holds.inTree_iff.mp hf
  have hsize := h.backed trivial f hmem hkind
  refine ⟨hsize, fun hpos => ?_⟩
  cases hdata : (s.node f).data with
  | none =>
    have := h.holds.bare f hmem hdata
    omega
  | some a => exact ⟨a, rfl, (h.holds.data f hmem a hdata).1⟩

/-- A write of an allowed run is read back until the file is touched. -/
theorem written_read (h : s.Good names buffers t) (hf : s.InTree f) {buf : ℕ → UInt8} {len : ℕ}
    (hzero : (s.vfsWrite (some f) buf len).1 = 0) {es : List FileEvent}
    (hok : EachStep Vfs.step (OpOk names buffers) (s.vfsWrite (some f) buf len).2 es)
    (hrun : exec Vfs.step (s.vfsWrite (some f) buf len).2 es = some s') {new : List NodeRef}
    (hnew : s'.touched = new ++ (s.vfsWrite (some f) buf len).2.touched) (hnot : f ∉ new)
    (max : ℕ) : (s'.vfsRead (some f) max).2 = (List.range (min len max)).map buf := by
  have hmem := h.holds.inTree_iff.mp hf
  obtain ⟨hgood, ⟨hfail, _⟩ | ⟨_, g, hg, hwrote⟩⟩ := vfsWrite_good h (mem_of_some hmem) buf len
  · rw [hzero] at hfail
    cases hfail
  · obtain rfl := Option.some.inj hg
    obtain ⟨t', _, new', htouched, hkeep⟩ := run_kept hgood hok hrun
    obtain rfl := List.append_cancel_right (hnew.symm.trans htouched)
    exact hwrote.read (hkeep f hmem hwrote.kind hnot).2 max

theorem failed_write (h : s.Good names buffers t) (hf : s.InTree f) {buf : ℕ → UInt8} {len : ℕ}
    (hfail : (s.vfsWrite (some f) buf len).1 ≠ 0) :
    (s.vfsWrite (some f) buf len).2.node = s.node ∧
      (s.vfsWrite (some f) buf len).2.bytes = s.bytes ∧
      (s.vfsWrite (some f) buf len).2.block = s.block := by
  have hmem := h.holds.inTree_iff.mp hf
  obtain ⟨_, ⟨_, kmem, hkept⟩ | ⟨hzero, _⟩⟩ := vfsWrite_good h (mem_of_some hmem) buf len
  · rw [hkept]
    exact ⟨rfl, rfl, rfl⟩
  · exact absurd hzero hfail

variable {memory : Option Addr → ℕ → UInt8} {garbage : VfsNode}

/-- After every run in which the mount meets only empty files, every file has its
buffer. Whatever `kmalloc` finds for a write then, a write that succeeds is read
back after every such run that does not touch the file, and a write that fails
changes no file. -/
theorem file_contents
    (h : Reachable Vfs.step (OpOk False True) (Vfs.start memory garbage) s) :
    s.Stored ∧ ∀ kmem f buf len, s.InTree f →
      let r := ({ s with kmem := kmem } : Vfs).vfsWrite (some f) buf len
      (r.1 = 0 → ∀ es s' new, EachStep Vfs.step (OpOk False True) r.2 es →
        exec Vfs.step r.2 es = some s' → s'.touched = new ++ r.2.touched → f ∉ new →
        ∀ max, (s'.vfsRead (some f) max).2 = (List.range (min len max)).map buf) ∧
      (r.1 ≠ 0 → r.2.node = s.node ∧ r.2.bytes = s.bytes ∧ r.2.block = s.block) := by
  obtain ⟨t, hgood⟩ := reachable_good h
  refine ⟨hgood.stored, fun kmem f buf len hf => ?_⟩
  have hgood' := hgood.kmem kmem
  have hf' : ({ s with kmem := kmem } : Vfs).InTree f :=
    hgood'.holds.inTree_iff.mpr (hgood.holds.inTree_iff.mp hf)
  exact ⟨fun hzero es s' new hok hrun hnew hnot max =>
    written_read hgood' hf' hzero hok hrun hnew hnot max, failed_write hgood' hf'⟩

/-- `mkdir /a`, `write /a/f hi`, and the mount of a card with an empty file. -/
def firstRun : List FileEvent :=
  [⟨.mkdir [[47, 97]], [some 1]⟩,
    ⟨.write [[47, 97, 47, 102], [104, 105]], [some 2, some 3]⟩,
    ⟨.mountSd (some { rootCluster := 2, chain := fun _ => [fileEntry 0] }), [some 4, some 5]⟩]

example : ((exec Vfs.step (Vfs.start spelled noNode) firstRun).map fun s =>
    s.cmdCat [[47, 97, 47, 102]]) = some [104, 105, 10] := by
  decide

theorem firstRun_ok : EachStep Vfs.step
    (fun s e => ({ s with kmem := e.kmem } : Vfs).CommandOk False True e.op)
    (Vfs.start spelled noNode) firstRun := by
  decide

theorem firstRun_runs : (exec Vfs.step (Vfs.start spelled noNode) firstRun).isSome := by
  decide

def firstState : Vfs := (exec Vfs.step (Vfs.start spelled noNode) firstRun).get firstRun_runs

/-- The bytes of `ok`. -/
def okBytes : ℕ → UInt8 := fun i => [111, 107].getD i 0

def writtenState : Vfs := (({ firstState with kmem := [] } : Vfs).vfsWrite (some (.block 2)) okBytes 2).2

/-- `cp /a/f /g`, `write /g other` and `rm /g`. -/
def laterRun : List FileEvent :=
  [⟨.cp [[47, 97, 47, 102], [47, 103]], [some 6, some 7]⟩,
    ⟨.write [[47, 103], [111, 116, 104, 101, 114]], [some 8]⟩, ⟨.rm [[47, 103]], []⟩]

theorem laterRun_ok : EachStep Vfs.step
    (fun s e => ({ s with kmem := e.kmem } : Vfs).CommandOk False True e.op)
    writtenState laterRun := by
  decide

theorem laterRun_runs : (exec Vfs.step writtenState laterRun).isSome := by
  decide

theorem firstState_inTree : firstState.InTree (.block 2) :=
  InTree.child (d := .block 1) (l := [.block 2])
    (InTree.child (l := [.block 1, .block 4]) InTree.root (by decide) (by simp))
    (by decide) (by simp)

theorem file_contents_kept :
    firstState.Stored ∧ ∃ s, exec Vfs.step writtenState laterRun = some s ∧
      (s.vfsRead (some (.block 2)) 5).2 = [111, 107] := by
  have h := file_contents (Reachable.start.exec (eachStep_opOk firstRun_ok)
    (Option.some_get firstRun_runs).symm)
  refine ⟨h.1, _, (Option.some_get laterRun_runs).symm, ?_⟩
  have hread := (h.2 [] (.block 2) okBytes 2 firstState_inTree).1 (by decide) laterRun _
    [.block 6, .block 6, .block 6] (eachStep_opOk laterRun_ok) (Option.some_get laterRun_runs).symm
    (by decide) (by decide) 5
  exact hread

/-- The mount of a card with a file of five bytes. -/
def mountRun : List FileEvent :=
  [⟨.mountSd (some { rootCluster := 2, chain := fun _ => [fileEntry 5] }), [some 1, some 2]⟩]

theorem mountRun_runs : (exec Vfs.step (Vfs.start spelled noNode) mountRun).isSome := by
  decide

/-- After the mount the file has five bytes and no buffer, and `cat` prints the
bytes at address 0. -/
theorem mounted_file_unbacked :
    ∃ s, exec Vfs.step (Vfs.start spelled noNode) mountRun = some s ∧ ¬ s.Stored ∧
      (s.node (.block 2)).size = 5 ∧ (s.node (.block 2)).data = none ∧
      s.cmdCat [[47, 115, 100, 47, 78, 79, 84, 69, 46, 84, 88, 84]] = [65, 65, 65, 0, 0, 10] := by
  refine ⟨_, (Option.some_get mountRun_runs).symm, fun h => ?_, by decide,
    by decide, by decide⟩
  have hfile := h (.block 2) (InTree.child (d := .block 1) (l := [.block 2])
    (InTree.child (l := [.block 1]) InTree.root (by decide) (by simp))
    (by decide) (by simp)) (by decide)
  exact absurd hfile.1 (by decide)

end Vfs

end XinuRpi4.Files
