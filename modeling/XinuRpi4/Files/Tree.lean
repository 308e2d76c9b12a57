import XinuRpi4.Files.FileCommands
import XinuRpi4.Foundation.LinkedSegment

/-!
# The node table as a tree

A tree is given by its nodes, the children of each node in their order, and a
rank that grows downwards. A file system holds a tree if its child lists, its
parent pointers and its buffers are those of the tree. The walks of the code
are list functions on the children.
-/

namespace XinuRpi4.Files

open XinuRpi4.Foundation

structure VfsTree where
  nodes : Finset NodeRef
  kids : NodeRef → List NodeRef
  rank : NodeRef → ℕ

namespace Vfs

def nextOf (s : Vfs) (n : NodeRef) : Option NodeRef := (s.node n).next

structure Holds (s : Vfs) (t : VfsTree) : Prop where
  root : .gRoot ∈ t.nodes
  rootDir : (s.node .gRoot).kind = .dir
  rootTop : (s.node .gRoot).parent = none
  chain : ∀ d ∈ t.nodes, Segment s.nextOf (s.node d).children (t.kids d) none
  nodup : ∀ d ∈ t.nodes, (t.kids d).Nodup
  kid : ∀ d ∈ t.nodes, ∀ c ∈ t.kids d, c ∈ t.nodes ∧ (s.node c).parent = some d
  listed : ∀ c ∈ t.nodes, c ≠ .gRoot → ∃ d ∈ t.nodes, c ∈ t.kids d
  rank : ∀ d ∈ t.nodes, ∀ c ∈ t.kids d, t.rank d < t.rank c
  leaf : ∀ f ∈ t.nodes, (s.node f).kind = .file → (s.node f).children = none
  live : ∀ a, .block a ∈ t.nodes → s.block a ≠ none
  count : s.gNodeCount = t.nodes.card
  cwd : s.vfsCwd ∈ t.nodes
  cwdDir : (s.node s.vfsCwd).kind = .dir
  data : ∀ f ∈ t.nodes, ∀ a, (s.node f).data = some a →
    s.block a = some (s.node f).capacity ∧ .block a ∉ t.nodes
  apart : ∀ f ∈ t.nodes, ∀ g ∈ t.nodes, f ≠ g → ∀ a, (s.node f).data = some a →
    (s.node g).data ≠ some a
  bare : ∀ f ∈ t.nodes, (s.node f).data = none → (s.node f).capacity = 0

/-- A name that a path component can spell. -/
def NameOk (name : Text) : Prop := name ≠ [] ∧ name.length ≤ vfsNameMax ∧ slash ∉ name

instance (name : Text) : Decidable (NameOk name) := inferInstanceAs (Decidable (_ ∧ _ ∧ _))

structure Named (s : Vfs) (t : VfsTree) : Prop where
  ok : ∀ d ∈ t.nodes, ∀ c ∈ t.kids d, NameOk (s.node c).name
  unique : ∀ d ∈ t.nodes, ((t.kids d).map fun c => (s.node c).name).Nodup

/-- No file is larger than its buffer. -/
def Backed (s : Vfs) (t : VfsTree) : Prop :=
  ∀ f ∈ t.nodes, (s.node f).kind = .file → (s.node f).size ≤ (s.node f).capacity

/-- What the component loop copies behind a run of slashes is a name. -/
theorem component_ok {path : Text} (hend : path.dropWhile (· = slash) ≠ []) :
    NameOk (((path.dropWhile (· = slash)).take vfsNameMax).takeWhile (· ≠ slash)) := by
  obtain ⟨b, rest, hp⟩ := List.exists_cons_of_ne_nil hend
  have hb : b ≠ slash := by
    have := List.head_dropWhile_not (· = slash) hend
    simpa [hp] using this
  rw [hp]
  refine ⟨?_, ?_, ?_⟩
  · simp [vfsNameMax, hb]
  · exact (List.takeWhile_prefix _).length_le.trans (List.length_take_le _ _)
  · intro hmem
    simpa using List.all_eq_true.mp List.all_takeWhile _ hmem

section Walks

variable {s : Vfs} {l l₁ l₂ : List NodeRef} {p : Option NodeRef}

theorem findLoop_eq (name : Text) {fuel : ℕ} (h : Segment s.nextOf p l none)
    (hfuel : l.length < fuel) :
    s.findLoop name fuel p = l.find? fun c => (s.node c).name = name := by
  induction l generalizing p fuel with
  | nil =>
    obtain ⟨fuel, rfl⟩ : ∃ n, fuel = n + 1 := ⟨fuel - 1, by omega⟩
    obtain rfl : p = none := h
    rfl
  | cons c l ih =>
    obtain ⟨fuel, rfl⟩ : ∃ n, fuel = n + 1 := ⟨fuel - 1, by omega⟩
    obtain ⟨rfl, h⟩ := h
    by_cases hname : (s.node c).name = name
    · simp [findLoop, hname]
    · rw [findLoop, if_neg hname, List.find?_cons_of_neg (by simpa using hname)]
      exact ih h (by simpa using hfuel)

theorem tailLoop_eq {t z : NodeRef} {fuel : ℕ} (h : Segment s.nextOf (some t) (l ++ [z]) none)
    (hfuel : l.length < fuel) : s.tailLoop fuel t = z := by
  induction l generalizing t fuel with
  | nil =>
    obtain ⟨fuel, rfl⟩ : ∃ n, fuel = n + 1 := ⟨fuel - 1, by omega⟩
    obtain ⟨htz, hnext⟩ := h
    obtain rfl := Option.some.inj htz
    have hnone : (s.node t).next = none := hnext
    simp [tailLoop, hnone]
  | cons c l ih =>
    obtain ⟨fuel, rfl⟩ : ∃ n, fuel = n + 1 := ⟨fuel - 1, by omega⟩
    obtain ⟨htc, h⟩ := h
    obtain rfl := Option.some.inj htc
    cases hnext : (s.node t).next with
    | none =>
      have hend : s.nextOf t = none := hnext
      rw [hend] at h
      cases l <;> simp at h
    | some u =>
      have hgo : s.nextOf t = some u := hnext
      rw [hgo] at h
      rw [tailLoop, hnext]
      exact ih h (by simpa using hfuel)

theorem detachLoop_eq {n : NodeRef} (pp : Option NodeRef) {fuel : ℕ}
    (h : Segment s.nextOf p (l₁ ++ n :: l₂) none) (hn : n ∉ l₁) (hfuel : l₁.length < fuel) :
    s.detachLoop n fuel pp p = some (l₁.foldl (fun _ c => some c) pp) := by
  induction l₁ generalizing p pp fuel with
  | nil =>
    obtain ⟨fuel, rfl⟩ : ∃ n, fuel = n + 1 := ⟨fuel - 1, by omega⟩
    obtain ⟨rfl, _⟩ := h
    simp [detachLoop]
  | cons c l ih =>
    obtain ⟨fuel, rfl⟩ : ∃ n, fuel = n + 1 := ⟨fuel - 1, by omega⟩
    obtain ⟨rfl, h⟩ := h
    simp only [List.mem_cons, not_or] at hn
    rw [detachLoop, if_neg (Ne.symm hn.1)]
    exact ih (some c) h hn.2 (by simpa using hfuel)

end Walks

def addr : NodeRef → Addr
  | .gRoot => 0
  | .block a => a

/-- There are no more children than addresses. -/
theorem length_lt_walkFuel {kids : List NodeRef} (hnodup : kids.Nodup)
    (hroot : ∀ c ∈ kids, c ≠ .gRoot) : kids.length < walkFuel := by
  have hinj : (kids.map addr).Nodup := by
    refine hnodup.map_on ?_
    intro x hx y hy hxy
    have hx' := hroot x hx
    have hy' := hroot y hy
    cases x <;> cases y <;> simp_all [addr]
  have hlen := hinj.length_le_card
  rw [List.length_map, Fintype.card_fin] at hlen
  exact Nat.lt_succ_of_le hlen

namespace Holds

variable {s : Vfs} {t : VfsTree}

theorem ne_root (h : s.Holds t) {d c : NodeRef} (hd : d ∈ t.nodes) (hc : c ∈ t.kids d) :
    c ≠ .gRoot := by
  rintro rfl
  have := (h.kid d hd _ hc).2
  rw [h.rootTop] at this
  cases this

theorem kids_length (h : s.Holds t) {d : NodeRef} (hd : d ∈ t.nodes) :
    (t.kids d).length < walkFuel :=
  length_lt_walkFuel (h.nodup d hd) fun _ hc => h.ne_root hd hc

/-- A directory has one parent. -/
theorem parent_unique (h : s.Holds t) {d e c : NodeRef} (hd : d ∈ t.nodes) (he : e ∈ t.nodes)
    (hcd : c ∈ t.kids d) (hce : c ∈ t.kids e) : d = e :=
  Option.some.inj ((h.kid d hd c hcd).2.symm.trans (h.kid e he c hce).2)

theorem findChild_eq (h : s.Holds t) {d : NodeRef} (hd : d ∈ t.nodes)
    (hdir : (s.node d).kind = .dir) (name : Text) :
    s.findChild (some d) name = (t.kids d).find? fun c => (s.node c).name = name := by
  simp only [findChild, hdir, ne_eq, not_true_eq_false, if_false]
  exact findLoop_eq name (h.chain d hd) (h.kids_length hd)

theorem mem_of_findChild (h : s.Holds t) {d c : NodeRef} {name : Text} (hd : d ∈ t.nodes)
    (hfind : s.findChild (some d) name = some c) : c ∈ t.nodes := by
  by_cases hdir : (s.node d).kind = .dir
  · rw [h.findChild_eq hd hdir] at hfind
    exact (h.kid d hd c (List.mem_of_find?_eq_some hfind)).1
  · simp [findChild, hdir] at hfind

theorem parent_mem (h : s.Holds t) {n : NodeRef} (hn : n ∈ t.nodes) :
    (s.node n).parent.getD n ∈ t.nodes := by
  by_cases hroot : n = .gRoot
  · subst hroot
    rw [h.rootTop]
    exact h.root
  · obtain ⟨d, hd, hnd⟩ := h.listed n hn hroot
    rw [(h.kid d hd n hnd).2]
    exact hd

/-- A resolved path leads to a node of the tree, and a last component asked for
is a name, in a directory. -/
theorem resolveLoop_spec (h : s.Holds t) {wantParent : Bool} {leafmax fuel : ℕ} {path leaf : Text}
    {cur n : NodeRef} (hcur : cur ∈ t.nodes)
    (hres : s.resolveLoop wantParent leafmax fuel path cur = some (n, leaf)) :
    n ∈ t.nodes ∧ (wantParent = true → (s.node n).kind = .dir ∧
      ∃ name, NameOk name ∧ leaf = name.take (leafmax - 1)) := by
  induction fuel generalizing path cur with
  | zero => simp [resolveLoop] at hres
  | succ fuel ih =>
    rw [resolveLoop] at hres
    simp only at hres
    split_ifs at hres with hend hwant hlong hlast hkind hdots hdot hdotdot hdir
    · obtain ⟨rfl, rfl⟩ := Prod.mk.inj (Option.some.inj hres)
      exact ⟨hcur, fun hw => absurd hw hwant⟩
    · obtain ⟨rfl, rfl⟩ := Prod.mk.inj (Option.some.inj hres)
      exact ⟨hcur, fun _ => ⟨by simpa using hkind, _, component_ok hend, rfl⟩⟩
    · exact ih hcur hres
    · exact ih (h.parent_mem hcur) hres
    · split at hres
      · cases hres
      · rename_i c hfind
        exact ih (h.mem_of_findChild hcur hfind) hres

theorem mem_of_vfsResolve (h : s.Holds t) {path : Text} {n : NodeRef}
    (hres : s.vfsResolve path = some n) : n ∈ t.nodes := by
  unfold vfsResolve at hres
  split_ifs at hres with hempty
  · obtain rfl := Option.some.inj hres
    exact h.cwd
  · obtain ⟨⟨m, leaf⟩, hwalk, rfl⟩ := Option.map_eq_some_iff.mp hres
    unfold resolveWalk at hwalk
    refine (h.resolveLoop_spec ?_ hwalk).1
    split_ifs
    · exact h.root
    · exact h.cwd

theorem of_vfsResolveParent (h : s.Holds t) {path leaf : Text} {dir : NodeRef}
    (hres : s.vfsResolveParent path (vfsNameMax + 1) = some (dir, leaf)) :
    dir ∈ t.nodes ∧ (s.node dir).kind = .dir ∧ NameOk leaf := by
  simp only [vfsResolveParent, vfsNameMax, Nat.reduceAdd, Nat.reduceLT, if_false] at hres
  unfold resolveWalk at hres
  have hcur : (if path.head? = some slash then NodeRef.gRoot else s.vfsCwd) ∈ t.nodes := by
    split_ifs
    · exact h.root
    · exact h.cwd
  obtain ⟨hdir, hspec⟩ := h.resolveLoop_spec hcur hres
  obtain ⟨hkind, name, hname, rfl⟩ := hspec rfl
  refine ⟨hdir, hkind, ?_⟩
  have hlen : name.length ≤ 32 - 1 := hname.2.1
  rwa [List.take_of_length_le hlen]

end Holds

end Vfs

end XinuRpi4.Files
