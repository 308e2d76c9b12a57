import XinuRpi4.Compiler.ParserState
import XinuRpi4.Foundation.LinkedSegment

/-!
# What a full arena does

The registries of structs and typedefs are linked lists of entries from the arena. As
long as the arena has room, a registry is the list of the parser's state. A full arena
serves every request with the one sink: two entries of it are the same block, which is
then its own successor, and the search for a third name does not end.
-/

namespace XinuRpi4.Compiler

open XinuRpi4.Foundation

namespace Arena

variable {a : Arena} {m n : ℕ}

theorem alloc_of_fits (h : a.Fits n) : a.alloc n = (a.base + a.pos,
    { a with pos := a.pos + align16 n, served := (a.base + a.pos, n) :: a.served }) := if_pos h

theorem alloc_of_full (h : ¬ a.Fits n) :
    a.alloc n = (a.sink, { a with served := (a.sink, n) :: a.served }) := if_neg h

/-- Requests on a full arena are served at one address. -/
theorem full_alloc_twice (hm : ¬ a.Fits m) (hn : ¬ a.Fits n) :
    ((a.alloc m).2.alloc n).2.served = (a.sink, n) :: (a.sink, m) :: a.served := by
  rw [alloc_of_full hm, alloc_of_full]
  exact hn

theorem alloc_end_le (a : Arena) (n : ℕ) :
    a.base + a.pos ≤ (a.alloc n).2.base + (a.alloc n).2.pos := by
  by_cases h : a.Fits n
  · rw [alloc_of_fits h]
    dsimp only
    omega
  · rw [alloc_of_full h]

end Arena

/-- `g_structs` or `g_typedefs`, with the entries by their addresses. -/
structure Registry (β : Type) where
  arena : Arena
  /-- the first entry; none for the null pointer -/
  head : Option ℕ
  /-- `name` and `ty` -/
  entry : ℕ → String × β
  next : ℕ → Option ℕ

namespace Registry

variable {β : Type} (r : Registry β)

/-- The entry at `p` is written and put in front. -/
def enter (p : ℕ) (name : String) (ty : β) : Registry β where
  arena := r.arena
  head := some p
  entry := Function.update r.entry p (name, ty)
  next := Function.update r.next p r.head

/-- `register_struct` and `register_typedef`, by the size of an entry. -/
def register (size : ℕ) (name : String) (ty : β) : Registry β :=
  { r with arena := (r.arena.alloc size).2 }.enter (r.arena.alloc size).1 name ty

/-- `find_struct` and `find_typedef`, of at most so many rounds. -/
def find (name : String) : ℕ → Option ℕ → Option (Option β)
  | _, none => some none
  | 0, some _ => none
  | n + 1, some p =>
    if (r.entry p).1 = name then some (some (r.entry p).2) else find name n (r.next p)

/-- The registry is the list `ds`, its entries lie in the used part of the arena. -/
structure Lists (ds : List (String × β)) (ps : List ℕ) : Prop where
  linked : Segment r.next r.head ps none
  entries : ps.map r.entry = ds
  used : ∀ p ∈ ps, p < r.arena.base + r.arena.pos

variable {r} {ds : List (String × β)} {ps : List ℕ} {size : ℕ} {name : String} {ty : β}

/-- Blocks for something else leave the registry alone. -/
theorem Lists.request (h : r.Lists ds ps) (n : ℕ) :
    { r with arena := (r.arena.alloc n).2 }.Lists ds ps :=
  ⟨h.linked, h.entries, fun p hp => (h.used p hp).trans_le (r.arena.alloc_end_le n)⟩

/-- An entry that fits into the arena is put in front. -/
theorem Lists.register (h : r.Lists ds ps) (hfit : r.arena.Fits size) (hsize : 0 < size) :
    (r.register size name ty).Lists ((name, ty) :: ds) ((r.arena.base + r.arena.pos) :: ps) := by
  have hnew : r.arena.base + r.arena.pos ∉ ps := fun hp => absurd (h.used _ hp) (lt_irrefl _)
  have hentries : ps.map (Function.update r.entry (r.arena.base + r.arena.pos) (name, ty)) =
      ps.map r.entry := by
    refine List.map_congr_left fun p hp => Function.update_of_ne ?_ _ _
    rintro rfl
    exact hnew hp
  have hgrows : 0 < Arena.align16 size := by
    rw [Arena.align16]
    omega
  rw [Registry.register, Arena.alloc_of_fits hfit, enter]
  refine ⟨⟨rfl, ?_⟩, ?_, fun p hp => ?_⟩ <;> dsimp only
  · rw [Function.update_self]
    exact (Segment.update_of_notMem hnew).mpr h.linked
  · rw [List.map_cons, Function.update_self, hentries, h.entries]
  · rcases List.mem_cons.mp hp with rfl | hp
    · omega
    · have := h.used p hp
      omega

/-- The search ends, with what the list of the parser's state gives. -/
theorem Lists.find_eq (h : r.Lists ds ps) (name : String) {n : ℕ} (hn : ps.length ≤ n) :
    r.find name n r.head = some ((ds.find? fun d => d.1 = name).map fun d => d.2) := by
  obtain ⟨hlinked, rfl, -⟩ := h
  generalize r.head = p at hlinked
  induction ps generalizing n p with
  | nil =>
    cases (show p = none from hlinked)
    cases n <;> rfl
  | cons q ps ih =>
    obtain ⟨rfl, hrest⟩ := hlinked
    obtain ⟨n, rfl⟩ := Nat.exists_eq_succ_of_ne_zero (Nat.ne_of_gt (Nat.lt_of_lt_of_le (by simp) hn))
    rw [find, List.map_cons, List.find?_cons]
    by_cases hq : (r.entry q).1 = name
    · rw [if_pos hq, decide_eq_true hq]
      rfl
    · rw [if_neg hq, decide_eq_false hq]
      exact ih (Nat.le_of_succ_le_succ hn) _ hrest

/-- What the compiler asks the arena for. -/
inductive Request (β : Type)
  | block (n : ℕ)
  | entry (name : String) (ty : β)

namespace Request

/-- A block for something else leaves the registry alone. -/
def step (size : ℕ) (r : Registry β) : Request β → Registry β
  | .block n => { r with arena := (r.arena.alloc n).2 }
  | .entry name ty => r.register size name ty

/-- The request is served from the arena. -/
def Served (size : ℕ) (r : Registry β) : Request β → Prop
  | .block n => r.arena.Fits n
  | .entry _ _ => r.arena.Fits size

/-- The entry that is put in front. -/
def entered : Request β → List (String × β)
  | .block _ => []
  | .entry name ty => [(name, ty)]

end Request

/-- Every request is served from the arena. -/
def AllServed (size : ℕ) : Registry β → List (Request β) → Prop
  | _, [] => True
  | r, q :: qs => q.Served size r ∧ AllServed size (q.step size r) qs

/-- As long as the arena has room, the registry is the list of its entries, the last one in
front. -/
theorem lists_run (hsize : 0 < size) (qs : List (Request β)) (h : r.Lists ds ps)
    (hserved : AllServed size r qs) : ∃ ps', (qs.foldl (Request.step size) r).Lists
      ((qs.flatMap Request.entered).reverse ++ ds) ps' := by
  induction qs generalizing r ds ps with
  | nil => exact ⟨ps, h⟩
  | cons q qs ih =>
    obtain ⟨hq, hqs⟩ := hserved
    cases q with
    | block n => exact ih (h.request n) hqs
    | entry name ty =>
      have hentered : (r.register size name ty).Lists ((name, ty) :: ds) _ := h.register hq hsize
      obtain ⟨ps', h'⟩ := ih hentered hqs
      refine ⟨ps', ?_⟩
      rw [List.flatMap_cons, List.reverse_append, List.append_assoc]
      exact h'

theorem register_of_full (hfull : ¬ r.arena.Fits size) : r.register size name ty =
    { r with arena := { r.arena with served := (r.arena.sink, size) :: r.arena.served } }.enter
      r.arena.sink name ty := by
  rw [Registry.register, Arena.alloc_of_full hfull]

/-- The second entry of a full arena is its own successor. -/
theorem register_twice (hfull : ¬ r.arena.Fits size) (x y : String) (s t : β) :
    ∃ r₂, (r.register size x s).register size y t = r₂ ∧ r₂.head = some r.arena.sink ∧
      (r₂.entry r.arena.sink).1 = y ∧ r₂.next r.arena.sink = some r.arena.sink := by
  rw [register_of_full hfull, register_of_full]
  · refine ⟨_, rfl, rfl, ?_, ?_⟩
    · rw [enter, enter]
      dsimp only
      rw [Function.update_self]
    · exact Function.update_self ..
  · exact hfull

/-- After two entries on a full arena the search for any other name does not end. -/
theorem find_after_twice (hfull : ¬ r.arena.Fits size) {x y z : String} (hz : y ≠ z) (s t : β)
    (n : ℕ) :
    ((r.register size x s).register size y t).find z n
      ((r.register size x s).register size y t).head = none := by
  obtain ⟨r₂, heq, hhead, hname, hnext⟩ := register_twice hfull x y s t
  rw [heq, hhead]
  induction n with
  | zero => rfl
  | succ n ih =>
    rw [find, hname, if_neg hz, hnext]
    exact ih

end Registry

section Searches

variable (s : PState) {ps : List ℕ} {n : ℕ}

theorem PState.findStruct_linked {r : Registry ℕ} (h : r.Lists s.tags ps) (tag : String)
    (hn : ps.length ≤ n) : r.find tag n r.head = some (s.findStruct tag) := h.find_eq tag hn

theorem PState.findTypedef_linked {r : Registry Ty} (h : r.Lists s.typedefs ps) (name : String)
    (hn : ps.length ≤ n) : r.find name n r.head = some (s.findTypedef name) := h.find_eq name hn

end Searches

end XinuRpi4.Compiler
