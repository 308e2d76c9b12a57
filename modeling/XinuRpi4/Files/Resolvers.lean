import XinuRpi4.Files.PathText
import XinuRpi4.Files.TreeInvariant

/-!
# The resolvers agree

`vfs_resolve`, `vfs_resolve_parent` and `vfs_lookup` on one path. The first two walk the
same way, and differ in nothing but the last component. The third cuts a name that is too
long into pieces, and takes each piece for a component.
-/

namespace XinuRpi4.Files

/-- A name cut into pieces that `vfs_lookup` can hold. -/
def pieces (name : Text) : List Text :=
  if name = [] then [] else name.take vfsNameMax :: pieces (name.drop vfsNameMax)
termination_by name.length
decreasing_by
  rename_i h
  have := List.length_pos_of_ne_nil h
  rw [List.length_drop, vfsNameMax]
  omega

namespace Vfs

/-- The loop of `vfs_lookup`. One turn takes one name and the slash behind it off the path. -/
def lookupLoop (s : Vfs) : ℕ → Text → NodeRef → Option NodeRef
  | 0, _, _ => none
  | fuel + 1, p, cur =>
    if p = [] then some cur
    else
      let name := (p.take vfsNameMax).takeWhile (· ≠ slash)
      let p := p.drop name.length
      let p := if p.head? = some slash then p.tail else p
      if name = [] then lookupLoop s fuel p cur
      else
        match s.findChild (some cur) name with
        | none => none
        | some c => lookupLoop s fuel p c

def vfsLookup (s : Vfs) (path : Text) : Option NodeRef :=
  if path.head? ≠ some slash then none else s.lookupLoop path.length path.tail .gRoot

/-- Children, one below the other, by their names. -/
def childWalk (s : Vfs) (cur : NodeRef) (names : List Text) : Option NodeRef :=
  names.foldlM (fun c name => s.vfsChild (some c) name) cur

/-- The last component is there, and is no dot name. -/
def ProperLast (path : Text) : Prop :=
  ∃ name, (components path).getLast? = some name ∧ name ≠ dot ∧ name ≠ dotdot

/-- What the header says of `vfs_resolve` and `vfs_resolve_parent`. -/
structure SplitAgrees (s : Vfs) (path : Text) (leafmax : ℕ) : Prop where
  split : ∀ d leaf, s.vfsResolveParent path leafmax = some (d, leaf) →
    (s.node d).kind = .dir ∧ s.vfsResolve path = s.vfsChild (some d) leaf
  absent : s.vfsResolveParent path leafmax = none →
    ¬ ProperLast path ∨ s.vfsResolve path = none
  /-- a component that others follow names a file -/
  through : ∀ a b f, a ≠ [] → path = a ++ slash :: b → components b ≠ [] →
    s.vfsResolve a = some f → (s.node f).kind = .file → s.vfsResolve path = none

/-- The components behind a file lead nowhere: behind dots there is a name, or a step up and
then nothing that is found. -/
def LeadsNowhere (s : Vfs) (f : NodeRef) : List Text → Prop
  | [] => False
  | name :: rest =>
    if name = dot then LeadsNowhere s f rest
    else if name = dotdot then s.walk ((s.node f).parent.getD f) rest = none
    else True

section Split

variable {s : Vfs} {cur d f : NodeRef} {names : List Text} {name leaf path a b : Text} {leafmax : ℕ}

theorem walk_of_splitWalk (hmax : vfsNameMax < leafmax)
    (h : s.splitWalk leafmax cur names = some (d, leaf)) :
    (s.node d).kind = .dir ∧ s.walk cur names = s.vfsChild (some d) leaf := by
  induction names generalizing cur with
  | nil => cases h
  | cons name names ih =>
    by_cases hlast : names = []
    · subst hlast
      rw [splitWalk] at h
      split_ifs at h with hlong hkind hdots
      obtain ⟨rfl, rfl⟩ := Prod.mk.inj (Option.some.inj h)
      obtain ⟨hdot, hdotdot⟩ := not_or.mp hdots
      refine ⟨by simpa using hkind, ?_⟩
      rw [List.take_of_length_le (by omega), walk_cons,
        stepTo_of_name (not_lt.mp hlong) hdot hdotdot]
      exact Option.bind_fun_some _
    · rw [splitWalk_cons hlast] at h
      obtain ⟨c, hc, hrest⟩ := Option.bind_eq_some_iff.mp h
      rw [walk_cons, hc, Option.bind_some]
      exact ih hrest

theorem walk_of_not_splitWalk (h : s.splitWalk leafmax cur names = none) :
    (∀ name, names.getLast? = some name → name = dot ∨ name = dotdot) ∨ s.walk cur names = none := by
  induction names generalizing cur with
  | nil => exact Or.inl fun name hname => by cases hname
  | cons name names ih =>
    by_cases hlast : names = []
    · subst hlast
      rw [splitWalk] at h
      by_cases hdots : name = dot ∨ name = dotdot
      · left
        intro last hlast
        obtain rfl := Option.some.inj hlast
        exact hdots
      · right
        obtain ⟨hdot, hdotdot⟩ := not_or.mp hdots
        rw [walk_cons, stepTo]
        split_ifs at h with hlong hkind
        · rw [if_pos hlong]
          rfl
        · rw [if_neg hlong, if_neg hdot, if_neg hdotdot, findChild_of_ne_dir hkind]
          rfl
    · rw [splitWalk_cons hlast] at h
      rw [walk_cons]
      cases hc : s.stepTo cur name with
      | none => exact Or.inr rfl
      | some c =>
        rw [hc, Option.bind_some] at h
        rw [Option.bind_some]
        refine (ih h).imp_left fun hdots last hl => hdots last ?_
        rwa [List.getLast?_cons_of_ne_nil hlast] at hl

theorem walk_eq_none_of_file (hf : (s.node f).kind = .file) :
    s.walk f names = none ↔ s.LeadsNowhere f names := by
  induction names with
  | nil => exact iff_of_false (Option.some_ne_none f) id
  | cons name names ih =>
    rw [walk_cons, LeadsNowhere, stepTo]
    by_cases hlong : vfsNameMax < name.length
    · have hdot : name ≠ dot := by
        rintro rfl
        exact absurd hlong (by decide)
      have hdotdot : name ≠ dotdot := by
        rintro rfl
        exact absurd hlong (by decide)
      rw [if_pos hlong, if_neg hdot, if_neg hdotdot]
      exact iff_of_true rfl trivial
    rw [if_neg hlong]
    split_ifs with hdot hdotdot
    · exact ih
    · rfl
    · have hdir : (s.node f).kind ≠ .dir := by
        rw [hf]
        decide
      rw [findChild_of_ne_dir hdir]
      exact iff_of_true rfl trivial

/-- The two resolvers agree as the header says exactly if no file is left behind. -/
theorem splitAgrees_iff (s : Vfs) (path : Text) (leafmax : ℕ) (hmax : vfsNameMax < leafmax) :
    s.SplitAgrees path leafmax ↔
      ∀ a b f, a ≠ [] → path = a ++ slash :: b → components b ≠ [] → s.vfsResolve a = some f →
        (s.node f).kind = .file → s.LeadsNowhere f (components b) := by
  have hparent : s.vfsResolveParent path leafmax =
      s.splitWalk leafmax (s.pathStart path) (components path) := vfsResolveParent_eq s path (by omega)
  have hthrough : ∀ a b f, a ≠ [] → path = a ++ slash :: b → s.vfsResolve a = some f →
      (s.node f).kind = .file →
        (s.vfsResolve path = none ↔ s.LeadsNowhere f (components b)) := by
    intro a b f ha hpath hres hfile
    rw [hpath, vfsResolve_append ha, hres, Option.bind_some, walk_eq_none_of_file hfile]
  constructor
  · intro h a b f ha hpath hb hres hfile
    exact (hthrough a b f ha hpath hres hfile).mp (h.through a b f ha hpath hb hres hfile)
  · intro h
    refine ⟨fun d leaf hsplit => ?_, fun hnone => ?_, fun a b f ha hpath hb hres hfile => ?_⟩
    · rw [hparent] at hsplit
      rw [vfsResolve_eq]
      exact walk_of_splitWalk hmax hsplit
    · rw [hparent] at hnone
      rw [vfsResolve_eq]
      refine (walk_of_not_splitWalk hnone).imp_left fun hdots => ?_
      rintro ⟨name, hlast, hdot, hdotdot⟩
      exact (hdots name hlast).elim hdot hdotdot
    · exact (hthrough a b f ha hpath hres hfile).mpr (h a b f ha hpath hb hres hfile)

end Split

/-- A file `f` in the root. -/
def fileState : Vfs :=
  (({ Vfs.start spelled noNode with kmem := [some 1] } : Vfs).vfsCreateFile (some .gRoot) [102]).2

/-- `f/x` -/
theorem splitAgrees_file_then_name : fileState.SplitAgrees [102, 47, 120] (vfsNameMax + 1) := by
  refine (splitAgrees_iff fileState [102, 47, 120] (vfsNameMax + 1) (by decide)).mpr ?_
  intro a b f ha hpath hb hres hfile
  obtain rfl : b = [120] := by
    rcases a with _ | ⟨x, _ | ⟨y, a⟩⟩
    · exact absurd rfl ha
    · have hparts : x = 102 ∧ slash = 47 ∧ b = [120] := by simpa using hpath.symm
      exact hparts.2.2
    · simp [List.cons_eq_append_iff, slash] at hpath
  have hcomp : components [120] = [[120]] := by decide
  rw [hcomp]
  exact trivial

/-- `f/..` -/
theorem file_then_dotdot_resolves :
    ¬ ∀ (s : Vfs) (path : Text), s.SplitAgrees path (vfsNameMax + 1) := by
  intro hall
  have hnone := (hall fileState [102, 47, 46, 46]).through [102] [46, 46] (.block 1) (by decide) rfl
    (by decide) (by decide) (by decide)
  have hsome : fileState.vfsResolve [102, 47, 46, 46] = some .gRoot := by decide
  rw [hnone] at hsome
  cases hsome

section Lookup

variable {s : Vfs} {cur : NodeRef} {names : List Text} {name path : Text} {fuel : ℕ}

theorem pieces_short (hne : name ≠ []) (h : name.length ≤ vfsNameMax) : pieces name = [name] := by
  rw [pieces, if_neg hne, List.take_of_length_le h, List.drop_of_length_le h, pieces, if_pos rfl]

theorem pieces_long (h : vfsNameMax < name.length) :
    pieces name = name.take vfsNameMax :: pieces (name.drop vfsNameMax) := by
  rw [pieces, if_neg]
  rintro rfl
  exact absurd h (Nat.not_lt_zero _)

theorem childWalk_cons : s.childWalk cur (name :: names) =
    (s.findChild (some cur) name).bind fun c => s.childWalk c names := rfl

theorem lookupLoop_eq (h : path.length < fuel) : s.lookupLoop fuel path cur =
    s.childWalk cur ((components path).flatMap pieces) := by
  induction fuel generalizing path cur with
  | zero => exact absurd h (Nat.not_lt_zero _)
  | succ fuel ih =>
    rw [lookupLoop]
    by_cases hend : path = []
    · rw [if_pos hend, hend]
      rfl
    rw [if_neg hend, ← List.take_takeWhile]
    have hsplit := List.takeWhile_append_dropWhile (p := (· ≠ slash)) (l := path)
    have hclean := slash_notMem_takeWhile path
    have hhead := head?_dropWhile_name path
    have hlen := congrArg List.length hsplit
    rw [List.length_append] at hlen
    by_cases hname : path.takeWhile (· ≠ slash) = []
    · -- the path is at a slash
      rw [hname, List.nil_append] at hsplit
      rw [hsplit] at hhead
      obtain ⟨rest, rfl⟩ := List.head?_eq_some_iff.mp (hhead.resolve_left hend)
      rw [components_slash]
      simp only [hname, List.take_nil, List.length_nil, List.drop_zero, List.head?_cons, if_true,
        List.tail_cons]
      exact ih (Nat.lt_of_succ_lt_succ h)
    have hcomp : components path = path.takeWhile (· ≠ slash) ::
        components (path.dropWhile (· ≠ slash)) := by
      rw [← components_name_append hname hclean hhead, hsplit]
    have hpos := List.length_pos_of_ne_nil hname
    have hmax : 0 < vfsNameMax := by decide
    rw [hcomp, List.flatMap_cons]
    by_cases hlong : vfsNameMax < (path.takeWhile (· ≠ slash)).length
    · -- the rest of the name is taken for the next component
      obtain ⟨hdrop, x, tail, htail, hx⟩ := drop_of_long hlong
      have htake : (path.takeWhile (· ≠ slash)).take vfsNameMax ≠ [] := by
        refine List.ne_nil_of_length_pos ?_
        rw [List.length_take]
        omega
      have hrest : components (path.drop vfsNameMax) =
          (path.takeWhile (· ≠ slash)).drop vfsNameMax ::
            components (path.dropWhile (· ≠ slash)) := by
        rw [hdrop]
        refine components_name_append (htail ▸ List.cons_ne_nil x tail) ?_ hhead
        exact fun hmem => hclean (List.mem_of_mem_drop hmem)
      have hnot : (path.drop vfsNameMax).head? ≠ some slash := by
        rw [hdrop, htail]
        exact fun h => hx (Option.some.inj h)
      have hnext : ∀ c, s.lookupLoop fuel (path.drop vfsNameMax) c =
          s.childWalk c (pieces ((path.takeWhile (· ≠ slash)).drop vfsNameMax) ++
            (components (path.dropWhile (· ≠ slash))).flatMap pieces) := by
        intro c
        rw [ih (by rw [List.length_drop]; omega), hrest, List.flatMap_cons]
      rw [pieces_long hlong, List.cons_append, childWalk_cons]
      simp only [if_neg htake, List.length_take, min_eq_left hlong.le, if_neg hnot]
      cases s.findChild (some cur) ((path.takeWhile (· ≠ slash)).take vfsNameMax) with
      | none => rfl
      | some c => exact hnext c
    · have htake : (path.takeWhile (· ≠ slash)).take vfsNameMax = path.takeWhile (· ≠ slash) :=
        List.take_of_length_le (not_lt.mp hlong)
      rw [pieces_short hname (not_lt.mp hlong), List.singleton_append, childWalk_cons, htake]
      simp only [if_neg hname, Foundation.drop_length_takeWhile]
      cases s.findChild (some cur) (path.takeWhile (· ≠ slash)) with
      | none => rfl
      | some c =>
        have hrest : components (if (path.dropWhile (· ≠ slash)).head? = some slash then
            (path.dropWhile (· ≠ slash)).tail else path.dropWhile (· ≠ slash)) =
              components (path.dropWhile (· ≠ slash)) := by
          split_ifs with hslash
          · obtain ⟨rest, hcons⟩ := List.head?_eq_some_iff.mp hslash
            rw [hcons, components_slash]
            rfl
          · rfl
        have hshort : (if (path.dropWhile (· ≠ slash)).head? = some slash then
            (path.dropWhile (· ≠ slash)).tail else path.dropWhile (· ≠ slash)).length ≤
              (path.dropWhile (· ≠ slash)).length := by
          split_ifs
          · exact (List.tail_suffix _).length_le
          · exact le_rfl
        dsimp only
        rw [ih (by omega), hrest]
        rfl

theorem vfsLookup_eq (habs : path.head? = some slash) :
    s.vfsLookup path = s.childWalk .gRoot ((components path).flatMap pieces) := by
  obtain ⟨rest, rfl⟩ := List.head?_eq_some_iff.mp habs
  rw [vfsLookup, if_neg (not_not.mpr habs), components_slash]
  exact lookupLoop_eq (Nat.lt_succ_self _)

theorem walk_eq_childWalk (hshort : ∀ c ∈ names, c.length ≤ vfsNameMax)
    (hproper : ∀ c ∈ names, c ≠ dot ∧ c ≠ dotdot) : s.walk cur names = s.childWalk cur names := by
  induction names generalizing cur with
  | nil => rfl
  | cons name names ih =>
    obtain ⟨hlen, hshort⟩ := List.forall_mem_cons.mp hshort
    obtain ⟨⟨hdot, hdotdot⟩, hproper⟩ := List.forall_mem_cons.mp hproper
    rw [walk_cons, stepTo_of_name hlen hdot hdotdot, childWalk_cons]
    exact congrArg _ (funext fun c => ih hshort hproper)

theorem walk_of_long {name : Text} (hmem : name ∈ names) (hlong : vfsNameMax < name.length) :
    s.walk cur names = none := by
  induction names generalizing cur with
  | nil => exact absurd hmem List.not_mem_nil
  | cons first names ih =>
    rw [walk_cons]
    rcases List.mem_cons.mp hmem with rfl | hmem
    · rw [stepTo, if_pos hlong]
      rfl
    · exact Option.bind_eq_none_iff.mpr fun c _ => ih hmem

theorem flatMap_pieces_short (hshort : ∀ c ∈ names, c.length ≤ vfsNameMax)
    (hne : ∀ c ∈ names, c ≠ []) : names.flatMap pieces = names := by
  induction names with
  | nil => rfl
  | cons name names ih =>
    obtain ⟨hlen, hshort⟩ := List.forall_mem_cons.mp hshort
    obtain ⟨hname, hne⟩ := List.forall_mem_cons.mp hne
    rw [List.flatMap_cons, pieces_short hname hlen, ih hshort hne, List.singleton_append]

/-- On a path without dot names `vfs_lookup` and `vfs_resolve` agree exactly if no component is
too long for a name, or no node is found by the pieces of such components. -/
theorem lookup_eq_resolve_iff (s : Vfs) (path : Text) (habs : path.head? = some slash)
    (hproper : ∀ c ∈ components path, c ≠ dot ∧ c ≠ dotdot) :
    s.vfsLookup path = s.vfsResolve path ↔ (∀ c ∈ components path, c.length ≤ vfsNameMax) ∨
      s.childWalk .gRoot ((components path).flatMap pieces) = none := by
  have hstart : s.pathStart path = .gRoot := if_pos habs
  rw [vfsLookup_eq habs, vfsResolve_eq, hstart]
  by_cases hshort : ∀ c ∈ components path, c.length ≤ vfsNameMax
  · refine iff_of_true ?_ (Or.inl hshort)
    rw [walk_eq_childWalk hshort hproper,
      flatMap_pieces_short hshort fun c hc => ne_nil_of_mem_components hc]
  · obtain ⟨name, hmem, hlong⟩ := not_forall₂.mp hshort
    rw [walk_of_long hmem (not_le.mp hlong)]
    exact (or_iff_right hshort).symm

end Lookup

/-- 31 times `a` -/
def longName : Text := List.replicate vfsNameMax 97

/-- A directory with a name of 31 letters in the root, and a file `b` in it. -/
def longState : Vfs :=
  let s : Vfs := { Vfs.start spelled noNode with kmem := [some 1, some 2] }
  let s := (s.vfsMkdir (some .gRoot) longName).2
  (s.vfsCreateFile (some (.block 1)) [98]).2

theorem lookup_eq_resolve_short :
    longState.vfsLookup (slash :: longName) = longState.vfsResolve (slash :: longName) ∧
      longState.vfsLookup (slash :: longName) = some (.block 1) := by
  refine ⟨(lookup_eq_resolve_iff longState (slash :: longName) rfl ?_).mpr (Or.inl ?_), ?_⟩
  · decide
  · decide
  · decide

/-- The name of 31 letters with `b` behind it, as one component -/
theorem long_name_looked_up : ¬ ∀ (s : Vfs) (path : Text), path.head? = some slash →
    (∀ c ∈ components path, c ≠ dot ∧ c ≠ dotdot) → s.vfsLookup path = s.vfsResolve path := by
  intro hall
  have heq := hall longState (slash :: (longName ++ [98])) rfl (by decide)
  have hlookup : longState.vfsLookup (slash :: (longName ++ [98])) = some (.block 2) := by
    decide
  have hresolve : longState.vfsResolve (slash :: (longName ++ [98])) = none := by decide
  rw [hlookup, hresolve] at heq
  cases heq

end Vfs

end XinuRpi4.Files
