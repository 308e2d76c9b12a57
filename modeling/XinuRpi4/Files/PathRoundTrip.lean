import Mathlib.Data.UInt
import XinuRpi4.Files.PathText
import XinuRpi4.Files.TreeInvariant
import XinuRpi4.Foundation.TextBuffer

/-!
# From a node to its path and back

`vfs_path` climbs from a node to the root and writes the names on the way down. The
resolver reads them back, whatever slashes and dots are put between them.
-/

namespace XinuRpi4.Files

open XinuRpi4.Foundation

namespace Vfs

/-- `buf[len++] = c` for each byte, until the buffer is full. -/
def putChars (max : ℤ) : Text → (ℕ → UInt8) → ℕ → Option ℕ × (ℕ → UInt8)
  | [], buf, len => (some len, buf)
  | c :: cs, buf, len =>
    if max - 1 ≤ len then (none, buf)
    else putChars max cs (Function.update buf len c) (len + 1)

/-- The ancestors up to the root, the node last; there is room for so many on the stack. -/
def climb (s : Vfs) : ℕ → Option NodeRef → List NodeRef → Option (List NodeRef)
  | room, n, stack =>
    match n with
    | none => some stack
    | some n =>
      if n = .gRoot then some stack
      else
        match room with
        | 0 => none
        | room + 1 => climb s room (s.node n).parent (n :: stack)

/-- The second loop of `vfs_path`. -/
def emitPath (s : Vfs) (max : ℤ) : List NodeRef → (ℕ → UInt8) → ℕ → Option ℕ × (ℕ → UInt8)
  | [], buf, len => (some len, buf)
  | n :: stack, buf, len =>
    match putChars max (slash :: (s.node n).name) buf len with
    | (none, buf) => (none, buf)
    | (some len, buf) => emitPath s max stack buf len

def pathStack : ℕ := 32

/-- The value returned and the buffer. -/
def vfsPath (s : Vfs) (node : Option NodeRef) (buf : ℕ → UInt8) (max : ℤ) : ℤ × (ℕ → UInt8) :=
  match node with
  | none => (-1, buf)
  | some n =>
    if max < 2 then (-1, buf)
    else if n = .gRoot then (1, fill buf 0 [slash, 0])
    else
      match s.climb pathStack (some n) [] with
      | none => (-1, buf)
      | some stack =>
        match s.emitPath max stack buf 0 with
        | (none, buf) => (-1, buf)
        | (some len, buf) => (len, Function.update buf len 0)

/-- The nodes from below the root down to a node. -/
inductive Lineage (s : Vfs) : NodeRef → List NodeRef → Prop
  | root : Lineage s .gRoot []
  | child {d c : NodeRef} {l kids : List NodeRef} (hd : Lineage s d l)
      (hkids : Segment s.nextOf (s.node d).children kids none) (hc : c ∈ kids) :
      Lineage s c (l ++ [c])

def namesText (s : Vfs) (l : List NodeRef) : Text := l.flatMap fun n => slash :: (s.node n).name

/-- `/` for the root, and else a slash and a name for each node on the way down. -/
def pathText (s : Vfs) (l : List NodeRef) : Text := if l = [] then [slash] else s.namesText l

/-- No node has a dot name. -/
def NoDotNames (s : Vfs) : Prop :=
  ∀ n, s.InTree n → (s.node n).name ≠ dot ∧ (s.node n).name ≠ dotdot

/-- One change of a path that leaves its meaning. -/
inductive Respelled (s : Vfs) : Text → Text → Prop
  | doubledSlash (a b : Text) : Respelled s (a ++ slash :: b) (a ++ slash :: slash :: b)
  | dotStep (a b : Text) : Respelled s (a ++ slash :: b) (a ++ slash :: (dot ++ slash :: b))
  | trailingSlash (a : Text) : Respelled s a (a ++ [slash])
  | detour (a b : Text) {d e : NodeRef} (hd : s.vfsResolve (a ++ [slash]) = some d)
      (he : (s.node e).kind = .dir ∧ s.vfsChild (some d) (s.node e).name = some e) :
      Respelled s (a ++ slash :: b)
        (a ++ slash :: ((s.node e).name ++ slash :: (dotdot ++ slash :: b)))

section Writing

variable {s : Vfs} {n : NodeRef} {l stack : List NodeRef} {max : ℤ} {buf : ℕ → UInt8} {len : ℕ}
  {a b : Text}

theorem putChars_append (a b : Text) (buf : ℕ → UInt8) (len : ℕ) :
    putChars max (a ++ b) buf len =
      match putChars max a buf len with
      | (none, buf) => (none, buf)
      | (some len, buf) => putChars max b buf len := by
  induction a generalizing buf len with
  | nil => rfl
  | cons c a ih =>
    rw [List.cons_append, putChars, putChars]
    split_ifs
    · rfl
    · exact ih _ _

theorem emitPath_eq (l : List NodeRef) (buf : ℕ → UInt8) (len : ℕ) :
    s.emitPath max l buf len = putChars max (s.namesText l) buf len := by
  induction l generalizing buf len with
  | nil => rfl
  | cons n l ih =>
    rw [namesText, List.flatMap_cons, putChars_append, emitPath]
    simp only [ih]
    rfl

theorem putChars_fits (h : (len : ℤ) + a.length ≤ max - 1) :
    putChars max a buf len = (some (len + a.length), fill buf len a) := by
  induction a generalizing buf len with
  | nil => rfl
  | cons c a ih =>
    rw [List.length_cons] at h
    push_cast at h
    rw [putChars, if_neg (by omega), ih (by push_cast; omega), List.length_cons, fill]
    exact Prod.ext (congrArg some (by omega)) rfl

theorem putChars_full (h : max - 1 < (len : ℤ) + a.length) (hlen : (len : ℤ) ≤ max - 1) :
    (putChars max a buf len).1 = none := by
  induction a generalizing buf len with
  | nil =>
    rw [List.length_nil] at h
    push_cast at h
    omega
  | cons c a ih =>
    rw [List.length_cons] at h
    push_cast at h
    rw [putChars]
    split_ifs with hfull
    · rfl
    · exact ih (by push_cast; omega) (by push_cast; omega)

end Writing

section Lines

variable {s : Vfs} {n d c : NodeRef} {l kids stack : List NodeRef} {room : ℕ}

theorem Lineage.inTree (h : s.Lineage n l) : s.InTree n := by
  induction h with
  | root => exact InTree.root
  | child _ hkids hc ih => exact InTree.child ih hkids hc

/-- The children of a directory are searched by name. -/
theorem WellFormed.vfsChild_eq (h : s.WellFormed) (hd : s.InTree d)
    (hkids : Segment s.nextOf (s.node d).children kids none) (name : Text) :
    s.vfsChild (some d) name = kids.find? fun m => (s.node m).name = name := by
  obtain ⟨kids', hkids', hnodup, hkid, -⟩ := h.lists d hd
  obtain rfl := hkids.unique hkids'
  have hroot : ∀ m ∈ kids, m ≠ .gRoot := by
    rintro m hm rfl
    have hparent := (hkid _ hm).1
    rw [h.rootTop] at hparent
    cases hparent
  by_cases hdir : (s.node d).kind ≠ .dir
  · have hfile : (s.node d).kind = .file := by
      cases hk : (s.node d).kind with
      | dir => exact absurd hk hdir
      | file => rfl
    rw [h.files d hd hfile] at hkids
    cases kids with
    | nil => exact findChild_of_ne_dir hdir name
    | cons m kids => cases hkids.1
  · exact (if_neg hdir).trans (findLoop_eq _ hkids (length_lt_walkFuel hnodup hroot))

/-- What the invariant says of a child. -/
theorem WellFormed.child (h : s.WellFormed) (hd : s.InTree d)
    (hkids : Segment s.nextOf (s.node d).children kids none) (hc : c ∈ kids) :
    (s.node c).parent = some d ∧ NameOk (s.node c).name ∧ c ≠ .gRoot ∧
      s.vfsChild (some d) (s.node c).name = some c := by
  obtain ⟨kids', hkids', -, hkid, hnames⟩ := h.lists d hd
  obtain rfl := hkids.unique hkids'
  obtain ⟨hparent, hname⟩ := hkid c hc
  refine ⟨hparent, hname, ?_, ?_⟩
  · rintro rfl
    rw [h.rootTop] at hparent
    cases hparent
  have hsome : (kids.find? fun m => (s.node m).name = (s.node c).name).isSome := by
    rw [List.find?_isSome]
    exact ⟨c, hc, by simp⟩
  obtain ⟨m, hm⟩ := Option.isSome_iff_exists.mp hsome
  have hmc : (s.node m).name = (s.node c).name := by simpa using List.find?_some hm
  rw [h.vfsChild_eq hd hkids, hm,
    List.inj_on_of_nodup_map hnames (List.mem_of_find?_eq_some hm) hc hmc]

/-- What is found by name is a child. -/
theorem WellFormed.of_vfsChild (h : s.WellFormed) (hd : s.InTree d) {name : Text}
    (hc : s.vfsChild (some d) name = some c) :
    ∃ kids, Segment s.nextOf (s.node d).children kids none ∧ c ∈ kids := by
  obtain ⟨kids, hkids, -⟩ := h.lists d hd
  rw [h.vfsChild_eq hd hkids] at hc
  exact ⟨kids, hkids, List.mem_of_find?_eq_some hc⟩

theorem WellFormed.parent_inTree (h : s.WellFormed) (hn : s.InTree n) :
    s.InTree ((s.node n).parent.getD n) := by
  cases hn with
  | root =>
    rw [h.rootTop]
    exact InTree.root
  | child hd hkids hc =>
    rw [(h.child hd hkids hc).1]
    exact hd

theorem WellFormed.walk_inTree (h : s.WellFormed) {names : List Text} (hd : s.InTree d)
    (hn : s.walk d names = some n) : s.InTree n := by
  induction names generalizing d with
  | nil =>
    obtain rfl := Option.some.inj hn
    exact hd
  | cons name names ih =>
    rw [walk_cons] at hn
    obtain ⟨c, hstep, hrest⟩ := Option.bind_eq_some_iff.mp hn
    refine ih ?_ hrest
    rw [stepTo] at hstep
    split_ifs at hstep with hlong hdot hdotdot
    · obtain rfl := Option.some.inj hstep
      exact hd
    · obtain rfl := Option.some.inj hstep
      exact h.parent_inTree hd
    · obtain ⟨kids, hkids, hc⟩ := h.of_vfsChild hd hstep
      exact hd.child hkids hc

theorem climb_eq (h : s.WellFormed) (hl : s.Lineage n l) (room : ℕ) (stack : List NodeRef) :
    s.climb room (some n) stack = if l.length ≤ room then some (l ++ stack) else none := by
  induction hl generalizing room stack with
  | root => cases room <;> rfl
  | @child d c l kids hd hkids hc ih =>
    obtain ⟨hparent, -, hroot, -⟩ := h.child hd.inTree hkids hc
    rw [List.length_append, List.length_singleton]
    cases room with
    | zero =>
      have hnot : ¬ l.length + 1 ≤ 0 := Nat.not_succ_le_zero _
      rw [if_neg hnot, climb]
      exact if_neg hroot
    | succ room =>
      rw [climb]
      simp only [if_neg hroot, hparent, ih, List.append_assoc, List.singleton_append]
      exact if_congr (by omega) rfl rfl

theorem Lineage.nameOk (h : s.WellFormed) (hl : s.Lineage n l) :
    ∀ m ∈ l, NameOk (s.node m).name := by
  induction hl with
  | root => exact fun m hm => absurd hm List.not_mem_nil
  | child hd hkids hc ih =>
    intro m hm
    rcases List.mem_append.mp hm with hm | hm
    · exact ih m hm
    · rw [List.mem_singleton.mp hm]
      exact (h.child hd.inTree hkids hc).2.1

theorem components_namesText (hok : ∀ m ∈ l, NameOk (s.node m).name) :
    components (s.namesText l) = l.map fun m => (s.node m).name := by
  induction l with
  | nil => rfl
  | cons m l ih =>
    obtain ⟨⟨hne, -, hslash⟩, hok⟩ := List.forall_mem_cons.mp hok
    have hrest : s.namesText l = [] ∨ (s.namesText l).head? = some slash := by
      cases l with
      | nil => exact Or.inl rfl
      | cons m' l => exact Or.inr rfl
    have htext : s.namesText (m :: l) = slash :: ((s.node m).name ++ s.namesText l) := rfl
    rw [htext, components_slash, components_name_append hne hslash hrest, ih hok, List.map_cons]

theorem components_pathText (h : s.WellFormed) (hl : s.Lineage n l) :
    components (s.pathText l) = l.map fun m => (s.node m).name := by
  unfold pathText
  split_ifs with hnil
  · rw [hnil]
    rfl
  · exact components_namesText (hl.nameOk h)

/-- The names on the way down lead to the node. -/
theorem walk_lineage (h : s.WellFormed) (hdots : s.NoDotNames) (hl : s.Lineage n l) :
    s.walk .gRoot (l.map fun m => (s.node m).name) = some n := by
  induction hl with
  | root => rfl
  | @child d c l kids hd hkids hc ih =>
    obtain ⟨-, hname, -, hfind⟩ := h.child hd.inTree hkids hc
    obtain ⟨hdot, hdotdot⟩ := hdots c (hd.inTree.child hkids hc)
    rw [List.map_append, walk_append, ih, Option.bind_some, List.map_singleton, walk_cons,
      stepTo_of_name hname.2.1 hdot hdotdot, hfind]
    rfl

end Lines

section Paths

variable {s : Vfs} {n : NodeRef} {l : List NodeRef} {a b p q : Text}

theorem vfsResolve_absolute (h : p.head? = some slash) :
    s.vfsResolve p = s.walk .gRoot (components p) := by
  rw [vfsResolve_eq, pathStart, if_pos h]

theorem head?_pathText (l : List NodeRef) : (s.pathText l).head? = some slash := by
  unfold pathText
  split_ifs with h
  · rfl
  · obtain ⟨m, l, rfl⟩ := List.exists_cons_of_ne_nil h
    rfl

theorem head?_behind (b b' : Text) (h : (a ++ slash :: b).head? = some slash) :
    (a ++ slash :: b').head? = some slash := by
  cases a with
  | nil => rfl
  | cons x a => exact h

/-- The step down to a subdirectory and back up leads nowhere else. -/
theorem walk_detour (h : s.WellFormed) (hdots : s.NoDotNames) {d e : NodeRef} (hd : s.InTree d)
    (he : s.vfsChild (some d) (s.node e).name = some e) (b : Text) :
    s.walk d (components ((s.node e).name ++ slash :: (dotdot ++ slash :: b))) =
      s.walk d (components b) := by
  obtain ⟨kids, hkids, hmem⟩ := h.of_vfsChild hd he
  obtain ⟨hparent, ⟨hne, hlen, hslash⟩, -, -⟩ := h.child hd hkids hmem
  obtain ⟨hdot, hdotdot⟩ := hdots e (hd.child hkids hmem)
  have hdots : components dotdot = [dotdot] := components_name (by decide) (by decide)
  have hup : s.stepTo e dotdot = some d := by
    rw [stepTo, if_neg (by decide), if_neg (by decide), if_pos rfl, hparent]
    rfl
  rw [components_append, components_append, components_name hne hslash, hdots,
    List.singleton_append, List.singleton_append, walk_cons, stepTo_of_name hlen hdot hdotdot, he,
    Option.bind_some, walk_cons, hup, Option.bind_some]

theorem Respelled.resolve (h : s.WellFormed) (hdots : s.NoDotNames) (hr : s.Respelled p q)
    (hp : p.head? = some slash) : q.head? = some slash ∧ s.vfsResolve q = s.vfsResolve p := by
  cases hr with
  | doubledSlash a b =>
    have hq := head?_behind b (slash :: b) hp
    refine ⟨hq, ?_⟩
    rw [vfsResolve_absolute hq, vfsResolve_absolute hp, components_append, components_append,
      components_slash]
  | dotStep a b =>
    have hq := head?_behind b (dot ++ slash :: b) hp
    refine ⟨hq, ?_⟩
    rw [vfsResolve_absolute hq, vfsResolve_absolute hp, components_append, components_append,
      components_append]
    rw [walk_append, walk_append]
    rfl
  | trailingSlash =>
    obtain ⟨rest, rfl⟩ := List.head?_eq_some_iff.mp hp
    refine ⟨rfl, ?_⟩
    rw [vfsResolve_absolute rfl, vfsResolve_absolute rfl]
    have happend := components_append (slash :: rest) []
    rw [components_nil, List.append_nil] at happend
    rw [happend]
  | @detour a b d e hd he =>
    have hq := head?_behind b ((s.node e).name ++ slash :: (dotdot ++ slash :: b)) hp
    have hdir := head?_behind b [] hp
    rw [vfsResolve_absolute hdir, components_append, components_nil, List.append_nil] at hd
    refine ⟨hq, ?_⟩
    rw [vfsResolve_absolute hq, vfsResolve_absolute hp, components_append a, components_append a b,
      walk_append, walk_append, hd, Option.bind_some, Option.bind_some]
    exact walk_detour h hdots (h.walk_inTree InTree.root hd) he.2 b

theorem Respelled.resolve_all (h : s.WellFormed) (hdots : s.NoDotNames)
    (hr : Relation.ReflTransGen s.Respelled p q) (hp : p.head? = some slash) :
    q.head? = some slash ∧ s.vfsResolve q = s.vfsResolve p := by
  induction hr with
  | refl => exact ⟨hp, rfl⟩
  | tail _ hstep ih =>
    obtain ⟨hhead, heq⟩ := ih
    obtain ⟨hhead', heq'⟩ := hstep.resolve h hdots hhead
    exact ⟨hhead', heq'.trans heq⟩

theorem Lineage.nil_iff (h : s.WellFormed) (hl : s.Lineage n l) : n = .gRoot ↔ l = [] := by
  cases hl with
  | root => exact iff_of_true rfl rfl
  | child hd hkids hc =>
    exact iff_of_false (h.child hd.inTree hkids hc).2.2.1 (List.append_ne_nil_of_right_ne_nil _
      (List.cons_ne_nil _ _))

theorem length_pathText_pos (l : List NodeRef) : 1 ≤ (s.pathText l).length := by
  obtain ⟨rest, hrest⟩ := List.head?_eq_some_iff.mp (head?_pathText (s := s) l)
  rw [hrest]
  exact Nat.succ_le_succ (Nat.zero_le _)

/-- `vfs_path` writes the path if there is room for it. -/
theorem vfsPath_fits (h : s.WellFormed) (hl : s.Lineage n l) (hdepth : l.length ≤ pathStack)
    {max : ℕ} (hmax : (s.pathText l).length < max) (buf : ℕ → UInt8) :
    s.vfsPath (some n) buf max =
      (((s.pathText l).length : ℤ), fill buf 0 (s.pathText l ++ [0])) := by
  have hpos := length_pathText_pos (s := s) l
  have htwo : ¬ (max : ℤ) < 2 := by omega
  rw [vfsPath]
  simp only [if_neg htwo]
  by_cases hroot : n = .gRoot
  · rw [if_pos hroot]
    have hnil := (hl.nil_iff h).mp hroot
    rw [pathText, if_pos hnil]
    rfl
  · have hne : l ≠ [] := fun hnil => hroot ((hl.nil_iff h).mpr hnil)
    have htext : s.pathText l = s.namesText l := if_neg hne
    rw [htext] at hmax ⊢
    have hfits : ((0 : ℕ) : ℤ) + (s.namesText l).length ≤ (max : ℤ) - 1 := by
      push_cast
      omega
    rw [if_neg hroot, climb_eq h hl, if_pos hdepth, List.append_nil]
    simp only [emitPath_eq, putChars_fits hfits, Nat.zero_add]
    rw [fill_append, Nat.zero_add]
    rfl

theorem vfsPath_fails (h : s.WellFormed) (hl : s.Lineage n l) {max : ℤ}
    (hmax : pathStack < l.length ∨ max ≤ (s.pathText l).length) (buf : ℕ → UInt8) :
    (s.vfsPath (some n) buf max).1 = -1 := by
  rw [vfsPath]
  split_ifs with htwo hroot
  · rfl
  · have hnil := (hl.nil_iff h).mp hroot
    rw [hnil, pathText, if_pos rfl] at hmax
    rcases hmax with hmax | hmax
    · exact absurd hmax (Nat.not_lt_zero _)
    · rw [List.length_singleton] at hmax
      push_cast at hmax
      omega
  · have hne : l ≠ [] := fun hnil => hroot ((hl.nil_iff h).mpr hnil)
    have htext : s.pathText l = s.namesText l := if_neg hne
    rw [climb_eq h hl]
    by_cases hdepth : l.length ≤ pathStack
    · have hfull : max - 1 < ((0 : ℕ) : ℤ) + (s.namesText l).length := by
        rw [← htext]
        push_cast
        have := hmax.resolve_left (not_lt.mpr hdepth)
        omega
      have hnone : (putChars max (s.namesText l) buf 0).1 = none :=
        putChars_full hfull (by push_cast; omega)
      rw [if_pos hdepth, List.append_nil]
      simp only [emitPath_eq]
      generalize putChars max (s.namesText l) buf 0 = r at hnone
      obtain ⟨len, buf'⟩ := r
      obtain rfl : len = none := hnone
      rfl
    · rw [if_neg hdepth]

/-- For every node with the nodes on the way down to it: the path is written with its zero if the
depth is at most 32 and the buffer holds it, and the failure is reported else. In a tree without
dot names the path leads to the node from every working directory, however it is spelled. -/
theorem path_round_trip (s : Vfs) (h : s.WellFormed) (n : NodeRef) (l : List NodeRef)
    (hl : s.Lineage n l) :
    (∀ buf (max : ℕ), l.length ≤ pathStack → (s.pathText l).length < max →
      (s.vfsPath (some n) buf max).1 = (s.pathText l).length ∧
        HoldsString buf (s.vfsPath (some n) buf max).2 max (s.pathText l)) ∧
    (∀ buf (max : ℤ), (s.vfsPath (some n) buf max).1 = -1 ↔
      pathStack < l.length ∨ max ≤ (s.pathText l).length) ∧
    (s.NoDotNames → ∀ cwd q, Relation.ReflTransGen s.Respelled (s.pathText l) q →
      ({ s with gCwd := cwd } : Vfs).vfsResolve q = some n) := by
  refine ⟨fun buf max hdepth hmax => ?_, fun buf max => ⟨fun hfail => ?_, fun hmax => ?_⟩,
    fun hdots cwd q hq => ?_⟩
  · rw [vfsPath_fits h hl hdepth hmax]
    exact ⟨rfl, holdsString_fill buf hmax⟩
  · by_contra hnot
    obtain ⟨hdepth, hmax⟩ := not_or.mp hnot
    obtain ⟨k, rfl⟩ : ∃ k : ℕ, max = k := ⟨max.toNat, by omega⟩
    rw [vfsPath_fits h hl (not_lt.mp hdepth) (by omega)] at hfail
    dsimp only at hfail
    omega
  · exact vfsPath_fails h hl hmax buf
  · obtain ⟨hhead, heq⟩ := Respelled.resolve_all h hdots hq (head?_pathText l)
    have hcwd : ({ s with gCwd := cwd } : Vfs).vfsResolve q = s.vfsResolve q := by
      have hnode : ({ s with gCwd := cwd } : Vfs).node = s.node := rfl
      rw [vfsResolve_absolute hhead, vfsResolve_absolute hhead]
      exact walk_of_node hnode _ _
    rw [hcwd, heq, vfsResolve_absolute (head?_pathText l), components_pathText h hl,
      walk_lineage h hdots hl]

end Paths

/-- The root with one directory. -/
def oneDir (name : Text) : Vfs :=
  (({ Vfs.start spelled noNode with kmem := [some 1] } : Vfs).vfsMkdir (some .gRoot) name).2

theorem oneDir_wellFormed {name : Text} (h : NameOk name) : (oneDir name).WellFormed := by
  have hstart : (Vfs.start spelled noNode).Good True False VfsTree.start := start_good
  have hgood := hstart.kmem [some 1]
  obtain ⟨t, hdir, -⟩ :=
    makeChild_good hgood .dir (mem_of_some hgood.holds.root) name fun _ _ => h
  exact hdir.wellFormed

theorem oneDir_lineage {name : Text} (h : Segment (oneDir name).nextOf
    ((oneDir name).node .gRoot).children [.block 1] none) :
    (oneDir name).Lineage (.block 1) [.block 1] := Lineage.root.child h (List.mem_singleton_self _)

/-- Below the directory `a` a directory `b`. -/
def twoDirs : Vfs :=
  (({ oneDir [97] with kmem := [some 2] } : Vfs).vfsMkdir (some (.block 1)) [98]).2

theorem twoDirs_wellFormed : twoDirs.WellFormed := by
  have hname : NameOk [97] := by decide
  have hname' : NameOk [98] := by decide
  have hstart : (Vfs.start spelled noNode).Good True False VfsTree.start := start_good
  obtain ⟨t, hdir, -, hmade⟩ := makeChild_good (hstart.kmem [some 1]) .dir
    (mem_of_some (hstart.kmem [some 1]).holds.root) [97] fun _ _ => hname
  obtain ⟨hmem, -⟩ := hmade (.block 1) (by decide)
  obtain ⟨t', hdir', -⟩ := makeChild_good (hdir.kmem [some 2]) .dir
    (mem_of_some hmem) [98] fun _ _ => hname'
  exact hdir'.wellFormed

theorem twoDirs_children :
    Segment twoDirs.nextOf (twoDirs.node .gRoot).children [.block 1] none ∧
      Segment twoDirs.nextOf (twoDirs.node (.block 1)).children [.block 2] none ∧
      Segment twoDirs.nextOf (twoDirs.node (.block 2)).children [] none := by
  decide

theorem twoDirs_lineage : twoDirs.Lineage (.block 2) [.block 1, .block 2] :=
  (Lineage.root.child twoDirs_children.1 (List.mem_singleton_self _)).child twoDirs_children.2.1
    (List.mem_singleton_self _)

theorem twoDirs_noDotNames : twoDirs.NoDotNames := by
  obtain ⟨hroot, ha, hb⟩ := twoDirs_children
  have hnodes : ∀ n, twoDirs.InTree n → n = .gRoot ∨ n = .block 1 ∨ n = .block 2 := by
    intro n hn
    induction hn with
    | root => exact Or.inl rfl
    | child _ hkids hc ih =>
      rcases ih with rfl | rfl | rfl
      · obtain rfl := hkids.unique hroot
        exact Or.inr (Or.inl (List.mem_singleton.mp hc))
      · obtain rfl := hkids.unique ha
        exact Or.inr (Or.inr (List.mem_singleton.mp hc))
      · obtain rfl := hkids.unique hb
        exact absurd hc List.not_mem_nil
  intro n hn
  rcases hnodes n hn with rfl | rfl | rfl <;> decide

/-- `/a/b`, and `/a/./b/` -/
theorem path_round_trip_twoDirs :
    (twoDirs.vfsPath (some (.block 2)) (fun _ => 7) 5).1 = 4 ∧
      (twoDirs.vfsPath (some (.block 2)) (fun _ => 7) 4).1 = -1 ∧
      twoDirs.vfsResolve [47, 97, 47, 46, 47, 98, 47] = some (.block 2) := by
  obtain ⟨hwrite, hfail, hread⟩ :=
    path_round_trip twoDirs twoDirs_wellFormed (.block 2) [.block 1, .block 2] twoDirs_lineage
  have htext : twoDirs.pathText [.block 1, .block 2] = [47, 97, 47, 98] := by decide
  rw [htext] at hwrite hread
  have hdot : twoDirs.Respelled [47, 97, 47, 98] [47, 97, 47, 46, 47, 98] :=
    Respelled.dotStep [47, 97] [98]
  have hrespelled := (Relation.ReflTransGen.single hdot).tail (Respelled.trailingSlash _)
  refine ⟨(hwrite (fun _ => 7) 5 (by decide) (by decide)).1, (hfail _ 4).mpr (Or.inr ?_),
    hread twoDirs_noDotNames twoDirs.gCwd _ hrespelled⟩
  rw [htext]
  decide

/-- A directory named `.` -/
theorem dot_directory_unreachable :
    ¬ ∀ s : Vfs, s.WellFormed → ∀ n l, s.Lineage n l → l.length ≤ pathStack →
      ∀ cwd, ({ s with gCwd := cwd } : Vfs).vfsResolve (s.pathText l) = some n := by
  intro hall
  have hfound := hall (oneDir [46]) (oneDir_wellFormed (by decide)) (.block 1) [.block 1]
    (oneDir_lineage (by decide)) (by decide) none
  have hroot : ({ oneDir [46] with gCwd := none } : Vfs).vfsResolve
      ((oneDir [46]).pathText [.block 1]) = some .gRoot := by decide
  rw [hroot] at hfound
  cases hfound

end Vfs

end XinuRpi4.Files
