import XinuRpi4.Files.MountRuns

/-!
# The tree invariant

Along every run of commands, mounts and calls the nodes that the root reaches
through the child lists form a tree, as long as no name comes from a null
pointer or from a damaged directory entry.
-/

namespace XinuRpi4.Files

open XinuRpi4.Foundation

namespace Vfs

variable {names buffers : Prop} {s s' : Vfs} {t t' : VfsTree}

/-- The nodes reached from the root through child lists that end. -/
inductive InTree (s : Vfs) : NodeRef → Prop
  | root : InTree s .gRoot
  | child {d c : NodeRef} {l : List NodeRef} (hd : InTree s d)
      (hl : Segment s.nextOf (s.node d).children l none) (hc : c ∈ l) : InTree s c

theorem Holds.inTree_iff (h : s.Holds t) {n : NodeRef} : s.InTree n ↔ n ∈ t.nodes := by
  constructor
  · intro hn
    induction hn with
    | root => exact h.root
    | @child d c l _ hl hc ih =>
      obtain rfl := hl.unique (h.chain d ih)
      exact (h.kid d ih c hc).1
  · intro hn
    induction hr : t.rank n using Nat.strong_induction_on generalizing n with
    | h r ih =>
      subst hr
      by_cases hroot : n = .gRoot
      · subst hroot
        exact InTree.root
      · obtain ⟨d, hd, hnd⟩ := h.listed n hn hroot
        exact InTree.child (ih _ (h.rank d hd n hnd) hd rfl) (h.chain d hd) hnd

/-- The tree invariant of the file system. -/
structure WellFormed (s : Vfs) : Prop where
  finite : {n | s.InTree n}.Finite
  lists : ∀ d, s.InTree d → ∃ l, Segment s.nextOf (s.node d).children l none ∧ l.Nodup ∧
    (∀ c ∈ l, (s.node c).parent = some d ∧ NameOk (s.node c).name) ∧
    (l.map fun c => (s.node c).name).Nodup
  rootTop : (s.node .gRoot).parent = none
  files : ∀ f, s.InTree f → (s.node f).kind = .file → (s.node f).children = none
  count : s.gNodeCount = {n | s.InTree n}.ncard
  cwd : s.InTree s.vfsCwd ∧ (s.node s.vfsCwd).kind = .dir
  buffers : ∀ f g, s.InTree f → s.InTree g → f ≠ g → ∀ a, (s.node f).data = some a →
    (s.node g).data ≠ some a
  live : ∀ a, s.InTree (.block a) → s.block a ≠ none

theorem Good.wellFormed (h : s.Good True buffers t) : s.WellFormed := by
  have hmem : ∀ n, s.InTree n ↔ n ∈ t.nodes := fun n => h.holds.inTree_iff
  have hset : {n | s.InTree n} = ↑t.nodes := Set.ext hmem
  obtain ⟨hok, hunique⟩ := h.named trivial
  constructor
  case finite =>
    rw [hset]
    exact t.nodes.finite_toSet
  case lists =>
    intro d hd
    rw [hmem] at hd
    exact ⟨t.kids d, h.holds.chain d hd, h.holds.nodup d hd,
      fun c hc => ⟨(h.holds.kid d hd c hc).2, hok d hd c hc⟩, hunique d hd⟩
  case rootTop => exact h.holds.rootTop
  case files =>
    intro f hf
    exact h.holds.leaf f ((hmem f).mp hf)
  case count => rw [hset, Set.ncard_coe_finset, h.holds.count]
  case cwd => exact ⟨(hmem _).mpr h.holds.cwd, h.holds.cwdDir⟩
  case buffers =>
    intro f g hf hg
    exact h.holds.apart f ((hmem f).mp hf) g ((hmem g).mp hg)
  case live =>
    intro a ha
    exact h.holds.live a ((hmem _).mp ha)

/-- A shell command or a mount that meets the conditions. -/
def CommandOk (names buffers : Prop) (s : Vfs) : FileOp → Prop
  | .touch argv | .write argv | .edit argv _ => names → ∀ path ∈ argv.head?, s.TargetOk path
  | .mountSd card => ∀ c ∈ card, c.Ok names buffers
  | .cd _ | .mkdir _ | .rm _ | .rmdir _ | .cp _ | .mv _ => True
  | _ => False

/-- A pointer that other code may hold. -/
def Valid (s : Vfs) (p : Option NodeRef) : Prop := ∀ n, p = some n → s.InTree n

/-- A call by other code, which takes care of names and of the working directory
as the commands do. -/
def CallOk (names : Prop) (s : Vfs) : FileOp → Prop
  | .vfsMkdir parent name | .vfsCreateFile parent name => s.Valid parent ∧ (names → NameOk name)
  | .vfsWrite file _ _ | .vfsUnlink file => s.Valid file
  | .vfsRmdir dir => s.Valid dir ∧ dir ≠ some s.vfsCwd
  | .vfsChdir dir => s.Valid dir
  | _ => False

def OpOk (names buffers : Prop) (s : Vfs) (e : FileEvent) : Prop :=
  ({ s with kmem := e.kmem } : Vfs).CommandOk names buffers e.op ∨
    ({ s with kmem := e.kmem } : Vfs).CallOk names e.op

instance [Decidable names] [Decidable buffers] (s : Vfs) (op : FileOp) :
    Decidable (s.CommandOk names buffers op) := by
  cases op <;> unfold CommandOk <;> infer_instance

theorem commandOk_kept (h : s.Good names buffers t) {op : FileOp}
    (hok : s.CommandOk names buffers op) : Kept names buffers s (s.run op) t := by
  cases op with
  | cd argv => exact cmdCd_kept h argv
  | mkdir argv => exact cmdMkdir_kept h argv
  | touch argv => exact cmdTouch_kept h hok
  | write argv => exact cmdWrite_kept h hok
  | edit argv lines => exact cmdEdit_kept h lines hok
  | rm argv => exact cmdRm_kept h argv
  | rmdir argv => exact cmdRmdir_kept h argv
  | cp argv => exact cmdCp_kept h argv
  | mv argv => exact cmdMv_kept h argv
  | mountSd card => exact mountSd_kept h fun c hc => hok c hc
  | _ => exact hok.elim

theorem Valid.mem (h : s.Holds t) {p : Option NodeRef} (hp : s.Valid p) :
    ∀ n, p = some n → n ∈ t.nodes := fun n hn => h.inTree_iff.mp (hp n hn)

theorem callOk_kept (h : s.Good names buffers t) {op : FileOp} (hok : s.CallOk names op) :
    Kept names buffers s (s.run op) t := by
  cases op with
  | vfsMkdir parent name =>
    obtain ⟨t', hgood, hgrown, _⟩ :=
      makeChild_good h .dir (hok.1.mem h.holds) name fun hn _ => hok.2 hn
    exact Kept.of_grown hgood hgrown
  | vfsCreateFile parent name =>
    obtain ⟨t', hgood, hgrown, _⟩ :=
      makeChild_good h .file (hok.1.mem h.holds) name fun hn _ => hok.2 hn
    exact Kept.of_grown hgood hgrown
  | vfsWrite file buf len => exact ⟨t, vfsWrite_frame h (Valid.mem h.holds hok) buf len⟩
  | vfsUnlink file => exact vfsUnlink_good h (Valid.mem h.holds hok)
  | vfsRmdir dir => exact vfsRmdir_good h (hok.1.mem h.holds) hok.2
  | vfsChdir dir =>
    obtain ⟨hgood, hgrown⟩ := vfsChdir_good h (Valid.mem h.holds hok)
    exact Kept.of_grown hgood hgrown
  | _ => exact hok.elim

theorem step_kept (h : s.Good names buffers t) {e : FileEvent} (hok : s.OpOk names buffers e)
    (hstep : s.step e = some s') : Kept names buffers s s' t := by
  obtain rfl := Option.some.inj hstep
  have hgood := h.kmem e.kmem
  have hgrown : Grown s { s with kmem := e.kmem } t t :=
    ⟨Finset.Subset.refl _, fun _ _ => rfl, rfl⟩
  exact Kept.trans hgrown.frame (hok.elim (commandOk_kept hgood) (callOk_kept hgood))

/-- The root alone. -/
def VfsTree.start : VfsTree where
  nodes := {.gRoot}
  kids _ := []
  rank _ := 0

variable {memory : Option Addr → ℕ → UInt8} {garbage : VfsNode}

theorem start_good : (Vfs.start memory garbage).Good names buffers VfsTree.start := by
  have hroot : ∀ n ∈ VfsTree.start.nodes, n = .gRoot := fun n hn => Finset.mem_singleton.mp hn
  refine ⟨⟨by simp [VfsTree.start], rfl, rfl, ?_, ?_, ?_, ?_, ?_, ?_, ?_, rfl,
    by simp [VfsTree.start, vfsCwd, Vfs.start], rfl, ?_, ?_, ?_⟩, fun _ => ⟨?_, ?_⟩, fun _ => ?_⟩
  · intro d hd
    obtain rfl := hroot d hd
    rfl
  · exact fun _ _ => List.nodup_nil
  · exact fun _ _ _ hc => absurd hc List.not_mem_nil
  · exact fun c hc hne => absurd (hroot c hc) hne
  · exact fun _ _ _ hc => absurd hc List.not_mem_nil
  · intro f hf hkind
    obtain rfl := hroot f hf
    cases hkind
  · intro a ha
    cases hroot _ ha
  · intro f hf a ha
    obtain rfl := hroot f hf
    cases ha
  · intro f hf g hg hfg
    exact absurd ((hroot f hf).trans (hroot g hg).symm) hfg
  · intro f hf _
    obtain rfl := hroot f hf
    rfl
  · exact fun _ _ _ hc => absurd hc List.not_mem_nil
  · exact fun _ _ => List.nodup_nil
  · intro f hf hkind
    obtain rfl := hroot f hf
    cases hkind

theorem reachable_good
    (h : Reachable Vfs.step (OpOk names buffers) (Vfs.start memory garbage) s) :
    ∃ t, s.Good names buffers t := by
  refine h.invariant (fun s => ∃ t, s.Good names buffers t) ⟨_, start_good⟩ ?_
  rintro s e s' ⟨t, hgood⟩ hok hstep
  obtain ⟨t', hgood', _⟩ := step_kept hgood hok hstep
  exact ⟨t', hgood'⟩

/-- The file system is a tree after every run in which no `touch`, `write` or
`edit` takes a bad name from address 0 and no card has a bad name. -/
theorem vfs_tree (h : Reachable Vfs.step (OpOk True False) (Vfs.start memory garbage) s) :
    s.WellFormed := by
  obtain ⟨t, hgood⟩ := reachable_good h
  exact hgood.wellFormed

theorem not_wellFormed {c : NodeRef} (hc : (s.node .gRoot).children = some c)
    (hname : ¬ NameOk (s.node c).name) : ¬ s.WellFormed := by
  intro h
  obtain ⟨l, hl, _, hok, _⟩ := h.lists _ InTree.root
  cases l with
  | nil => exact Option.some_ne_none c (hc.symm.trans hl)
  | cons d l =>
    obtain rfl := Option.some.inj (hc.symm.trans hl.1)
    exact hname (hok c List.mem_cons_self).2

/-- Commands whose conditions hold make an allowed run. -/
theorem eachStep_opOk {s : Vfs} {es : List FileEvent}
    (h : EachStep Vfs.step
      (fun s e => ({ s with kmem := e.kmem } : Vfs).CommandOk names buffers e.op) s es) :
    EachStep Vfs.step (OpOk names buffers) s es :=
  h.imp fun _ _ => Or.inl

def noNode : VfsNode where
  name := []
  kind := .file
  size := 0
  capacity := 0
  data := none
  parent := none
  children := none
  next := none

/-- The bytes at address 0 spell a name, `AAA`. -/
def spelled : Option Addr → ℕ → UInt8 := fun _ i => if i < 3 then 65 else 0

/-- An entry with the name `DIR` or `NOTE.TXT`. -/
def dirEntry : RawDirEntry where
  name := ![68, 73, 82, 32, 32, 32, 32, 32, 32, 32, 32]
  attr := 0x10
  size := 0
  firstCluster := 7

def fileEntry (size : UInt32) : RawDirEntry where
  name := ![78, 79, 84, 69, 32, 32, 32, 32, 84, 88, 84]
  attr := 0x20
  size := size
  firstCluster := 9

def goodCard : SdCard where
  rootCluster := 2
  chain cluster := if cluster = 2 then [dirEntry, fileEntry 5] else if cluster = 7 then [fileEntry 5] else []

/-- `mkdir /a`, `write /a/f hi`, `cp /a/f /g`, `touch /a`, `mv /g /a/h`, `cd /a`,
`rm f`, `rmdir /a`, and the mount. -/
def sampleRun : List FileEvent :=
  [⟨.mkdir [[47, 97]], [some 1]⟩,
    ⟨.write [[47, 97, 47, 102], [104, 105]], [some 2, some 3]⟩,
    ⟨.cp [[47, 97, 47, 102], [47, 103]], [some 4, some 5]⟩,
    ⟨.touch [[47, 97]], [some 6]⟩,
    ⟨.mv [[47, 103], [47, 97, 47, 104]], [some 7, some 8]⟩,
    ⟨.cd [[47, 97]], []⟩,
    ⟨.rm [[102]], []⟩,
    ⟨.rmdir [[47, 97]], []⟩,
    ⟨.mountSd (some goodCard), [some 9, some 10, some 11, some 12]⟩]

theorem sampleRun_ok : EachStep Vfs.step
    (fun s e => ({ s with kmem := e.kmem } : Vfs).CommandOk True False e.op)
    (Vfs.start spelled noNode) sampleRun := by
  decide

theorem sampleRun_runs : (exec Vfs.step (Vfs.start spelled noNode) sampleRun).isSome := by
  decide

theorem vfs_tree_sample : ∃ s, exec Vfs.step (Vfs.start spelled noNode) sampleRun = some s ∧
    s.gNodeCount = 8 ∧ s.WellFormed := by
  refine ⟨_, (Option.some_get sampleRun_runs).symm, by decide +kernel, ?_⟩
  exact vfs_tree (Reachable.start.exec (eachStep_opOk sampleRun_ok)
    (Option.some_get sampleRun_runs).symm)

/-- An entry whose name is blank. -/
def blankCard : SdCard where
  rootCluster := 2
  chain cluster := if cluster = 2 then [{ fileEntry 0 with name := fun _ => 32 }] else []

def touchRoot : List FileEvent := [⟨.touch [[47]], [some 1]⟩]

def mountBlank : List FileEvent := [⟨.mountSd (some blankCard), [some 1, some 2]⟩]

theorem touchRoot_runs : (exec Vfs.step (Vfs.start (fun _ _ => 0) noNode) touchRoot).isSome := by
  decide +kernel

theorem mountBlank_runs : (exec Vfs.step (Vfs.start (fun _ _ => 0) noNode) mountBlank).isSome := by
  decide

/-- `touch /` makes a file without a name where address 0 holds a `NUL`, and so
does the mount for a blank entry. -/
theorem nameless_nodes :
    (∃ s, exec Vfs.step (Vfs.start (fun _ _ => 0) noNode) touchRoot = some s ∧ ¬ s.WellFormed) ∧
      ∃ s, exec Vfs.step (Vfs.start (fun _ _ => 0) noNode) mountBlank = some s ∧
        (s.node (.block 1)).children = some (.block 2) ∧ (s.node (.block 2)).name = [] := by
  refine ⟨⟨_, (Option.some_get touchRoot_runs).symm, ?_⟩, _, (Option.some_get mountBlank_runs).symm,
    by decide, by decide +kernel⟩
  exact not_wellFormed (c := .block 1) (by decide +kernel) (by decide +kernel)

end Vfs

end XinuRpi4.Files
