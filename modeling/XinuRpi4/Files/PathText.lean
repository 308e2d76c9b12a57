import Mathlib.Data.List.TakeWhile
import XinuRpi4.Files.Tree
import XinuRpi4.Foundation.Scan

/-!
# The components of a path

The walker of the paths takes the components of a text one by one, whatever slashes stand
between them. So a path is what its components make of the node where the walk starts.
-/

namespace XinuRpi4.Files

/-- The names that slashes separate. -/
def components (path : Text) : List Text := (path.splitOn Vfs.slash).filter fun c => c ≠ []

section Components

open Vfs (slash)

variable {a b c path : Text}

@[simp] theorem components_nil : components [] = [] := rfl

theorem components_append (a b : Text) :
    components (a ++ slash :: b) = components a ++ components b := by
  rw [components, List.splitOn_append_cons_self, List.filter_append]
  rfl

theorem components_slash (b : Text) : components (slash :: b) = components b :=
  components_append [] b

theorem components_name (h : c ≠ []) (hc : slash ∉ c) : components c = [c] := by
  rw [components, List.splitOn_eq_singleton hc]
  simp [h]

theorem components_dropWhile (path : Text) :
    components (path.dropWhile (· = slash)) = components path := by
  induction path with
  | nil => rfl
  | cons x path ih =>
    by_cases hx : x = slash
    · rw [hx, components_slash, List.dropWhile_cons_of_pos (by simp), ih]
    · rw [List.dropWhile_cons_of_neg (by simpa using hx)]

theorem slash_notMem_takeWhile (path : Text) : slash ∉ path.takeWhile (· ≠ slash) := by
  intro hmem
  simpa using List.mem_takeWhile_imp hmem

theorem takeWhile_ne_nil (h : path.dropWhile (· = slash) ≠ []) :
    (path.dropWhile (· = slash)).takeWhile (· ≠ slash) ≠ [] := by
  have hhead := List.head?_dropWhile_not (· = slash) path
  obtain ⟨x, rest, hrest⟩ := List.exists_cons_of_ne_nil h
  rw [hrest] at hhead ⊢
  rw [List.takeWhile_cons_of_pos (by simpa using hhead)]
  exact List.cons_ne_nil _ _

/-- Behind a name the path is at its end or at a slash. -/
theorem head?_dropWhile_name (p : Text) :
    p.dropWhile (· ≠ slash) = [] ∨ (p.dropWhile (· ≠ slash)).head? = some slash := by
  have hhead := List.head?_dropWhile_not (· ≠ slash) p
  cases hrest : p.dropWhile (· ≠ slash) with
  | nil => exact Or.inl rfl
  | cons x rest =>
    rw [hrest] at hhead
    exact Or.inr (congrArg some (by simpa using hhead))

theorem components_name_append (h : c ≠ []) (hc : slash ∉ c)
    (hb : b = [] ∨ b.head? = some slash) : components (c ++ b) = c :: components b := by
  rcases hb with rfl | hb
  · rw [List.append_nil, components_name h hc, components_nil]
  · obtain ⟨rest, rfl⟩ := List.head?_eq_some_iff.mp hb
    rw [components_append, components_name h hc, components_slash]
    rfl

/-- Behind the slashes at its start a path has its first component. -/
theorem components_cons (h : path.dropWhile (· = slash) ≠ []) :
    components path = (path.dropWhile (· = slash)).takeWhile (· ≠ slash) ::
      components ((path.dropWhile (· = slash)).dropWhile (· ≠ slash)) := by
  rw [← components_name_append (takeWhile_ne_nil h) (slash_notMem_takeWhile _)
    (head?_dropWhile_name _), List.takeWhile_append_dropWhile, components_dropWhile]

theorem components_ne_nil (h : path.dropWhile (· = slash) ≠ []) : components path ≠ [] := by
  rw [components_cons h]
  exact List.cons_ne_nil _ _

/-- A path gets shorter by a component. -/
theorem length_behind_component (h : path.dropWhile (· = slash) ≠ []) :
    (((path.dropWhile (· = slash)).dropWhile (· ≠ slash)).dropWhile (· = slash)).length <
      path.length := by
  have hskip := (List.dropWhile_suffix (p := (· = slash)) (l := path)).length_le
  have hbehind := (List.dropWhile_suffix (p := (· = slash))
    (l := (path.dropWhile (· = slash)).dropWhile (· ≠ slash))).length_le
  have hsplit := congrArg List.length
    (List.takeWhile_append_dropWhile (p := (· ≠ slash)) (l := path.dropWhile (· = slash)))
  have hpos := List.length_pos_of_ne_nil (takeWhile_ne_nil h)
  rw [List.length_append] at hsplit
  omega

theorem ne_nil_of_mem_components (h : c ∈ components path) : c ≠ [] := by
  simpa using List.of_mem_filter h

/-- What is left of a name behind as much of it as fits does not begin with a slash. -/
theorem drop_of_long {n : ℕ} {p : Text} (h : n < (p.takeWhile (· ≠ slash)).length) :
    p.drop n = (p.takeWhile (· ≠ slash)).drop n ++ p.dropWhile (· ≠ slash) ∧
      ∃ x tail, (p.takeWhile (· ≠ slash)).drop n = x :: tail ∧ x ≠ slash := by
  constructor
  · have hleft : (p.takeWhile (· ≠ slash) ++ p.dropWhile (· ≠ slash)).drop n =
        (p.takeWhile (· ≠ slash)).drop n ++ p.dropWhile (· ≠ slash) :=
      List.drop_append_of_le_length h.le
    rwa [List.takeWhile_append_dropWhile] at hleft
  · obtain ⟨x, tail, htail⟩ := List.exists_cons_of_ne_nil
      (List.ne_nil_of_length_pos (l := (p.takeWhile (· ≠ slash)).drop n)
        (by rw [List.length_drop]; omega))
    have hmem : x ∈ p.takeWhile (· ≠ slash) := List.mem_of_mem_drop (htail ▸ List.mem_cons_self ..)
    exact ⟨x, tail, htail, by simpa using List.mem_takeWhile_imp hmem⟩

end Components

namespace Vfs

variable (s : Vfs)

/-- One component. -/
def stepTo (cur : NodeRef) (name : Text) : Option NodeRef :=
  if vfsNameMax < name.length then none
  else if name = dot then some cur
  else if name = dotdot then some ((s.node cur).parent.getD cur)
  else s.findChild (some cur) name

/-- The components of a path, one after the other. -/
def walk (cur : NodeRef) (names : List Text) : Option NodeRef := names.foldlM s.stepTo cur

/-- The components but the last, which is given by its name. -/
def splitWalk (leafmax : ℕ) : NodeRef → List Text → Option (NodeRef × Text)
  | _, [] => none
  | cur, [name] =>
    if vfsNameMax < name.length then none
    else if (s.node cur).kind ≠ .dir then none
    else if name = dot ∨ name = dotdot then none
    else some (cur, name.take (leafmax - 1))
  | cur, name :: rest => (s.stepTo cur name).bind fun c => splitWalk leafmax c rest

/-- Where the walk along a path starts. -/
def pathStart (path : Text) : NodeRef := if path.head? = some slash then .gRoot else s.vfsCwd

section Walk

variable {s : Vfs} {cur : NodeRef} {names names' : List Text} {name path a b : Text} {leafmax fuel : ℕ}

@[simp] theorem walk_nil : s.walk cur [] = some cur := rfl

theorem walk_cons : s.walk cur (name :: names) = (s.stepTo cur name).bind fun c => s.walk c names :=
  rfl

theorem walk_append : s.walk cur (names ++ names') =
    (s.walk cur names).bind fun c => s.walk c names' := List.foldlM_append ..

theorem stepTo_of_name (hlen : name.length ≤ vfsNameMax) (hdot : name ≠ dot)
    (hdotdot : name ≠ dotdot) : s.stepTo cur name = s.vfsChild (some cur) name := by
  rw [stepTo, if_neg (not_lt.mpr hlen), if_neg hdot, if_neg hdotdot]
  rfl

theorem splitWalk_cons (h : names ≠ []) : s.splitWalk leafmax cur (name :: names) =
    (s.stepTo cur name).bind fun c => s.splitWalk leafmax c names := by
  cases names with
  | nil => exact absurd rfl h
  | cons name' names => rfl

theorem findChild_of_ne_dir (h : (s.node cur).kind ≠ .dir) (name : Text) :
    s.findChild (some cur) name = none := if_pos h

theorem findLoop_of_node {s' : Vfs} (h : s'.node = s.node) (name : Text) (n : ℕ)
    (c : Option NodeRef) : s'.findLoop name n c = s.findLoop name n c := by
  induction n generalizing c with
  | zero => rfl
  | succ n ih =>
    cases c with
    | none => rfl
    | some c => rw [findLoop, findLoop, ih, h]

/-- A walk reads the nodes only. -/
theorem walk_of_node {s' : Vfs} (h : s'.node = s.node) (cur : NodeRef) (names : List Text) :
    s'.walk cur names = s.walk cur names := by
  have hstep : s'.stepTo = s.stepTo := by
    funext c name
    simp only [stepTo, findChild, findLoop_of_node h, h]
  rw [walk, walk, hstep]

/-- One turn of the walker, which takes the first component off the path. -/
theorem resolveLoop_succ (wantParent : Bool) (h : path.dropWhile (· = slash) ≠ []) :
    s.resolveLoop wantParent leafmax (fuel + 1) path cur =
      let name := (path.dropWhile (· = slash)).takeWhile (· ≠ slash)
      let rest := (path.dropWhile (· = slash)).dropWhile (· ≠ slash)
      if vfsNameMax < name.length then none
      else if wantParent ∧ rest.dropWhile (· = slash) = [] then
        if (s.node cur).kind ≠ .dir then none
        else if name = dot ∨ name = dotdot then none
        else some (cur, name.take (leafmax - 1))
      else (s.stepTo cur name).bind fun c =>
        s.resolveLoop wantParent leafmax fuel (rest.dropWhile (· = slash)) c := by
  generalize hp : path.dropWhile (· = slash) = p at h
  rw [resolveLoop]
  simp only [hp, if_neg h, ← List.take_takeWhile]
  by_cases hlong : vfsNameMax < (p.takeWhile (· ≠ slash)).length
  · obtain ⟨hdrop, x, tail, htail, hx⟩ := drop_of_long hlong
    rw [if_pos hlong, List.length_take, min_eq_left hlong.le, hdrop, htail]
    simp [hx]
  · have htake : (p.takeWhile (· ≠ slash)).take vfsNameMax = p.takeWhile (· ≠ slash) :=
      List.take_of_length_le (not_lt.mp hlong)
    have hhead : ¬ (p.dropWhile (· ≠ slash) ≠ [] ∧ (p.dropWhile (· ≠ slash)).head? ≠ some slash) := by
      rintro ⟨hne, hhead⟩
      exact (head?_dropWhile_name p).elim hne hhead
    rw [htake, Foundation.drop_length_takeWhile, if_neg hhead, if_neg hlong]
    refine ite_congr rfl (fun _ => rfl) fun _ => ?_
    generalize p.takeWhile (· ≠ slash) = name at *
    rw [stepTo, if_neg hlong]
    by_cases hdot : name = dot
    · rw [if_pos hdot, if_pos hdot]
      rfl
    by_cases hdotdot : name = dotdot
    · rw [if_neg hdot, if_neg hdot, if_pos hdotdot, if_pos hdotdot]
      rfl
    rw [if_neg hdot, if_neg hdot, if_neg hdotdot, if_neg hdotdot]
    by_cases hdir : (s.node cur).kind ≠ .dir
    · rw [if_pos hdir, findChild_of_ne_dir hdir]
      rfl
    · rw [if_neg hdir]
      cases s.findChild (some cur) name <;> rfl

/-- The walker without a last component to split off. -/
theorem resolveLoop_eq_walk (h : path.length < fuel) :
    s.resolveLoop false leafmax fuel path cur =
      (s.walk cur (components path)).map fun n => (n, []) := by
  induction fuel generalizing path cur with
  | zero => exact absurd h (Nat.not_lt_zero _)
  | succ fuel ih =>
    by_cases hend : path.dropWhile (· = slash) = []
    · rw [← components_dropWhile, hend, resolveLoop]
      simp only [hend, if_pos, Bool.false_eq_true, if_false, components_nil, walk_nil, Option.map_some]
    · rw [resolveLoop_succ false hend, components_cons hend, walk_cons]
      simp only [Bool.false_eq_true, false_and, if_false]
      have hshort := length_behind_component hend
      have hstep : ∀ c, s.resolveLoop false leafmax fuel
          (((path.dropWhile (· = slash)).dropWhile (· ≠ slash)).dropWhile (· = slash)) c =
            (s.walk c (components ((path.dropWhile (· = slash)).dropWhile (· ≠ slash)))).map
              fun n => (n, []) := by
        intro c
        rw [ih (by omega), components_dropWhile]
      rw [Option.map_bind]
      split_ifs with hlong
      · rw [stepTo, if_pos hlong]
        rfl
      · exact congrArg _ (funext hstep)

/-- The walker with one. -/
theorem resolveLoop_eq_splitWalk (h : path.length < fuel) :
    s.resolveLoop true leafmax fuel path cur = s.splitWalk leafmax cur (components path) := by
  induction fuel generalizing path cur with
  | zero => exact absurd h (Nat.not_lt_zero _)
  | succ fuel ih =>
    by_cases hend : path.dropWhile (· = slash) = []
    · rw [← components_dropWhile, hend, resolveLoop]
      simp only [hend, if_pos, components_nil, splitWalk]
    · rw [resolveLoop_succ true hend, components_cons hend]
      have hshort := length_behind_component hend
      have hbehind := components_dropWhile ((path.dropWhile (· = slash)).dropWhile (· ≠ slash))
      by_cases hlast : ((path.dropWhile (· = slash)).dropWhile (· ≠ slash)).dropWhile (· = slash) = []
      · rw [← hbehind, hlast, components_nil, splitWalk]
        simp only [hlast, true_and, if_true]
      · have hne : components ((path.dropWhile (· = slash)).dropWhile (· ≠ slash)) ≠ [] := by
          refine components_ne_nil fun h => hlast ?_
          rw [h]
        rw [splitWalk_cons hne]
        simp only [hlast, true_and, if_false]
        have hstep : ∀ c, s.resolveLoop true leafmax fuel
            (((path.dropWhile (· = slash)).dropWhile (· ≠ slash)).dropWhile (· = slash)) c =
              s.splitWalk leafmax c
                (components ((path.dropWhile (· = slash)).dropWhile (· ≠ slash))) := by
          intro c
          rw [ih (by omega), components_dropWhile]
        split_ifs with hlong
        · rw [stepTo, if_pos hlong]
          rfl
        · exact congrArg _ (funext hstep)

theorem vfsResolve_eq (s : Vfs) (path : Text) :
    s.vfsResolve path = s.walk (s.pathStart path) (components path) := by
  unfold vfsResolve
  split_ifs with h
  · rw [h]
    rfl
  · rw [resolveWalk, resolveLoop_eq_walk (Nat.lt_succ_self _), Option.map_map]
    exact Option.map_id'

theorem pathStart_append (ha : a ≠ []) : s.pathStart (a ++ b) = s.pathStart a := by
  rw [pathStart, pathStart, List.head?_append_of_ne_nil _ ha]

/-- A path goes on behind any of its slashes. -/
theorem vfsResolve_append (ha : a ≠ []) : s.vfsResolve (a ++ slash :: b) =
    (s.vfsResolve a).bind fun n => s.walk n (components b) := by
  rw [vfsResolve_eq, vfsResolve_eq, pathStart_append ha, components_append, walk_append]

theorem vfsResolveParent_eq (s : Vfs) (path : Text) (h : 1 ≤ leafmax) :
    s.vfsResolveParent path leafmax =
      s.splitWalk leafmax (s.pathStart path) (components path) := by
  rw [vfsResolveParent, if_neg (not_lt.mpr h), resolveWalk,
    resolveLoop_eq_splitWalk (Nat.lt_succ_self _)]
  rfl

end Walk

end Vfs

end XinuRpi4.Files
