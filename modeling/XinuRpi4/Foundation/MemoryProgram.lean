import Mathlib.Data.Set.Basic
import Mathlib.Tactic

/-!
# Programs that load and store

A program is a tree of loads, stores and returned values over locations `L`
holding values `V`. The same tree is run over independent cells, where no two
locations share storage, or over any other store whose locations may overlap.
The accesses a run makes are recorded in a trace, so footprints are statements
about the code and not about its final memory. A run over an overlapping store
agrees with the run over cells as long as the trace stays inside a set of
locations that the store keeps apart.
-/

namespace XinuRpi4.Foundation

inductive MemoryProgram (L V α : Type) : Type
  | ret (a : α)
  | load (l : L) (k : V → MemoryProgram L V α)
  | store (l : L) (v : V) (k : MemoryProgram L V α)

/-- One access of a run, with the value for a write. -/
inductive Access (L V : Type)
  | read (l : L)
  | write (l : L) (v : V)
  deriving DecidableEq

/-- A memory with a reading and a writing operation for every location. -/
structure Store (M L V : Type) where
  get : M → L → V
  set : M → L → V → M

/-- The store in which every location is a cell of its own. -/
def cells (L V : Type) [DecidableEq L] : Store (L → V) L V where
  get m l := m l
  set m l v := Function.update m l v

namespace Access

variable {L V : Type}

def loc : Access L V → L
  | read l => l
  | write l _ => l

/-- The writes of an access carry values from `W`. -/
def StoresIn (W : Set V) : Access L V → Prop
  | read _ => True
  | write _ v => v ∈ W

end Access

namespace MemoryProgram

variable {L V M α β : Type}

def bind : MemoryProgram L V α → (α → MemoryProgram L V β) → MemoryProgram L V β
  | ret a, f => f a
  | load l k, f => load l fun v => (k v).bind f
  | store l v k, f => store l v (k.bind f)

instance : Monad (MemoryProgram L V) where
  pure := ret
  bind := bind

/-- Read one location. -/
def fetch (l : L) : MemoryProgram L V V := load l ret

/-- Write one location. -/
def put (l : L) (v : V) : MemoryProgram L V Unit := store l v (ret ())

def run (S : Store M L V) : MemoryProgram L V α → M → α × M
  | ret a, m => (a, m)
  | load l k, m => (k (S.get m l)).run S m
  | store l v k, m => k.run S (S.set m l v)

/-- The accesses of a run, in the order the program makes them. -/
def trace (S : Store M L V) : MemoryProgram L V α → M → List (Access L V)
  | ret _, _ => []
  | load l k, m => .read l :: (k (S.get m l)).trace S m
  | store l v k, m => .write l v :: k.trace S (S.set m l v)

section Run

variable (S : Store M L V) (m : M)

@[simp] theorem run_pure (a : α) : (pure a : MemoryProgram L V α).run S m = (a, m) := rfl

@[simp] theorem run_fetch_bind (l : L) (f : V → MemoryProgram L V β) :
    (fetch l >>= f).run S m = (f (S.get m l)).run S m := rfl

@[simp] theorem run_put_bind (l : L) (v : V) (f : Unit → MemoryProgram L V β) :
    (put l v >>= f).run S m = (f ()).run S (S.set m l v) := rfl

@[simp] theorem run_fetch (l : L) : (fetch l : MemoryProgram L V V).run S m = (S.get m l, m) := rfl

@[simp] theorem run_put (l : L) (v : V) : (put l v).run S m = ((), S.set m l v) := rfl

theorem run_bind (p : MemoryProgram L V α) (f : α → MemoryProgram L V β) :
    (p >>= f).run S m = (f (p.run S m).1).run S (p.run S m).2 := by
  induction p generalizing m with
  | ret a => rfl
  | load l k ih => exact ih (S.get m l) m
  | store l v k ih => exact ih (S.set m l v)

@[simp] theorem trace_pure (a : α) : (pure a : MemoryProgram L V α).trace S m = [] := rfl

@[simp] theorem trace_fetch_bind (l : L) (f : V → MemoryProgram L V β) :
    (fetch l >>= f).trace S m = .read l :: (f (S.get m l)).trace S m := rfl

@[simp] theorem trace_put_bind (l : L) (v : V) (f : Unit → MemoryProgram L V β) :
    (put l v >>= f).trace S m = .write l v :: (f ()).trace S (S.set m l v) := rfl

@[simp] theorem trace_fetch (l : L) :
    (fetch l : MemoryProgram L V V).trace S m = [.read l] := rfl

@[simp] theorem trace_put (l : L) (v : V) : (put l v).trace S m = [.write l v] := rfl

theorem trace_bind (p : MemoryProgram L V α) (f : α → MemoryProgram L V β) :
    (p >>= f).trace S m =
      p.trace S m ++ (f (p.run S m).1).trace S (p.run S m).2 := by
  induction p generalizing m with
  | ret a => rfl
  | load l k ih => exact congrArg (Access.read l :: ·) (ih (S.get m l) m)
  | store l v k ih => exact congrArg (Access.write l v :: ·) (ih (S.set m l v))

end Run

/-- An observation that no write of the trace changes is the same after the run. -/
theorem run_frame (S : Store M L V) (p : MemoryProgram L V α) (m : M) (observe : M → β)
    (h : ∀ l v, .write l v ∈ p.trace S m →
      ∀ m', observe (S.set m' l v) = observe m') :
    observe (p.run S m).2 = observe m := by
  induction p generalizing m with
  | ret a => rfl
  | load l k ih =>
    exact ih (S.get m l) m fun l' v' hw => h l' v' (List.mem_cons_of_mem _ hw)
  | store l v k ih =>
    have hrest := ih (S.set m l v) fun l' v' hw => h l' v' (List.mem_cons_of_mem _ hw)
    exact hrest.trans (h l v List.mem_cons_self m)

end MemoryProgram

/-- On the locations of `A` the store behaves like cells, for values in `W`. -/
structure Store.Separates {M L V : Type} (S : Store M L V) (A : Set L) (W : Set V) : Prop where
  get_set_self : ∀ m, ∀ l ∈ A, ∀ v ∈ W, S.get (S.set m l v) l = v
  get_set_of_ne : ∀ m, ∀ l ∈ A, ∀ l' ∈ A, ∀ v, l ≠ l' → S.get (S.set m l v) l' = S.get m l'

/-- The store `S` holds on `A` what the cells hold. -/
def Store.Agrees {M L V : Type} (S : Store M L V) (A : Set L) (m : M) (c : L → V) : Prop :=
  ∀ l ∈ A, S.get m l = c l

theorem Store.Separates.agrees_set {M L V : Type} [DecidableEq L] {S : Store M L V} {A : Set L}
    {W : Set V} (hS : S.Separates A W) {m : M} {c : L → V} (hag : S.Agrees A m c)
    {l : L} (hl : l ∈ A) {v : V} (hv : v ∈ W) :
    S.Agrees A (S.set m l v) (Function.update c l v) := by
  intro l' hl'
  by_cases h : l = l'
  · subst h
    rw [hS.get_set_self m l hl v hv, Function.update_self]
  · rw [hS.get_set_of_ne m l hl l' hl' v h, Function.update_of_ne (Ne.symm h), hag l' hl']

/-- The cell run simulates the run over `S`: as long as the cells' trace stays
in the separated set, value, trace and contents agree. -/
theorem MemoryProgram.run_agrees {M L V α : Type} [DecidableEq L] {S : Store M L V} {A : Set L}
    {W : Set V} (hS : S.Separates A W) (p : MemoryProgram L V α) (m : M) (c : L → V)
    (hag : S.Agrees A m c) (hA : ∀ a ∈ p.trace (cells L V) c, a.loc ∈ A)
    (hW : ∀ a ∈ p.trace (cells L V) c, a.StoresIn W) :
    (p.run S m).1 = (p.run (cells L V) c).1 ∧
      S.Agrees A (p.run S m).2 (p.run (cells L V) c).2 ∧
      p.trace S m = p.trace (cells L V) c := by
  induction p generalizing m c with
  | ret a => exact ⟨rfl, hag, rfl⟩
  | load l k ih =>
    have hl : S.get m l = c l := hag l (hA _ List.mem_cons_self)
    have hrest := ih (c l) m c hag (fun a ha => hA a (List.mem_cons_of_mem _ ha))
      (fun a ha => hW a (List.mem_cons_of_mem _ ha))
    simp only [run, trace, hl]
    exact ⟨hrest.1, hrest.2.1, congrArg _ hrest.2.2⟩
  | store l v k ih =>
    have hl : l ∈ A := hA _ List.mem_cons_self
    have hv : v ∈ W := hW _ List.mem_cons_self
    have hrest := ih (S.set m l v) (Function.update c l v) (hS.agrees_set hag hl hv)
      (fun a ha => hA a (List.mem_cons_of_mem _ ha))
      (fun a ha => hW a (List.mem_cons_of_mem _ ha))
    exact ⟨hrest.1, hrest.2.1, congrArg _ hrest.2.2⟩

theorem cells_separates {L V : Type} [DecidableEq L] (A : Set L) :
    (cells L V).Separates A Set.univ where
  get_set_self m l _ v _ := by simp [cells]
  get_set_of_ne m l _ l' _ v hne := by simp [cells, Ne.symm hne]

namespace MemoryProgram

variable {L V α β : Type}

def Reading : MemoryProgram L V α → Prop
  | ret _ => True
  | load _ k => ∀ v, Reading (k v)
  | store _ _ _ => False

@[simp] theorem reading_pure (a : α) : Reading (pure a : MemoryProgram L V α) := trivial

@[simp] theorem reading_fetch (l : L) : Reading (fetch l : MemoryProgram L V V) := fun _ => trivial

theorem Reading.ite {c : Prop} [Decidable c] {p q : MemoryProgram L V α} (hp : Reading p)
    (hq : Reading q) : Reading (if c then p else q) := by
  split_ifs
  · exact hp
  · exact hq

theorem Reading.bind {p : MemoryProgram L V α} {g : α → MemoryProgram L V β} (h : Reading p)
    (hg : ∀ a, Reading (g a)) : Reading (p >>= g) := by
  induction p with
  | ret a => exact hg a
  | load l k ih => exact fun v => ih v (h v)
  | store l v k ih => exact h.elim

variable [DecidableEq L] {p : MemoryProgram L V α} {m m' : L → V}

/-- What a program returns on the contents of the cells. -/
def readValue (p : MemoryProgram L V α) (m : L → V) : α := (p.run (cells L V) m).1

/-- The locations that a program accesses, in order. -/
def readOffsets (p : MemoryProgram L V α) (m : L → V) : List L :=
  (p.trace (cells L V) m).map Access.loc

theorem Reading.run_snd (h : Reading p) (m : L → V) : (p.run (cells L V) m).2 = m := by
  induction p with
  | ret a => rfl
  | load l k ih => exact ih (m l) (h (m l))
  | store l v k ih => exact h.elim

theorem readValue_bind (h : Reading p) (g : α → MemoryProgram L V β) (m : L → V) :
    readValue (p >>= g) m = readValue (g (readValue p m)) m := by
  unfold readValue
  rw [run_bind, h.run_snd]

theorem readOffsets_bind (h : Reading p) (g : α → MemoryProgram L V β) (m : L → V) :
    readOffsets (p >>= g) m = readOffsets p m ++ readOffsets (g (readValue p m)) m := by
  unfold readOffsets readValue
  rw [trace_bind, h.run_snd, List.map_append]

@[simp] theorem readValue_pure (a : α) (m : L → V) : readValue (pure a) m = a := rfl

@[simp] theorem readOffsets_pure (a : α) (m : L → V) : readOffsets (pure a) m = [] := rfl

@[simp] theorem readValue_fetch (l : L) (m : L → V) : readValue (fetch l) m = m l := rfl

@[simp] theorem readOffsets_fetch (l : L) (m : L → V) : readOffsets (fetch l) m = [l] := rfl

theorem readValue_ite {c : Prop} [Decidable c] (p q : MemoryProgram L V α) (m : L → V) :
    readValue (if c then p else q) m = if c then readValue p m else readValue q m := by
  split_ifs <;> rfl

theorem readOffsets_ite {c : Prop} [Decidable c] (p q : MemoryProgram L V α) (m : L → V) :
    readOffsets (if c then p else q) m = if c then readOffsets p m else readOffsets q m := by
  split_ifs <;> rfl

/-- All locations that are read are in a set. -/
def ReadsIn (A : Set L) (p : MemoryProgram L V α) (m : L → V) : Prop := ∀ l ∈ readOffsets p m, l ∈ A

section ReadsIn

variable {A : Set L}

@[simp] theorem readsIn_pure (a : α) : ReadsIn A (pure a : MemoryProgram L V α) m := by
  simp [ReadsIn]

@[simp] theorem readsIn_fetch (l : L) : ReadsIn A (fetch l : MemoryProgram L V V) m ↔ l ∈ A := by
  simp [ReadsIn]

theorem readsIn_bind (h : Reading p) (g : α → MemoryProgram L V β) :
    ReadsIn A (p >>= g) m ↔ ReadsIn A p m ∧ ReadsIn A (g (readValue p m)) m := by
  simp only [ReadsIn, readOffsets_bind h, List.mem_append, or_imp, forall_and]

theorem ReadsIn.ite {c : Prop} [Decidable c] {p q : MemoryProgram L V α}
    (hp : c → ReadsIn A p m) (hq : ¬ c → ReadsIn A q m) : ReadsIn A (if c then p else q) m := by
  split_ifs with h
  · exact hp h
  · exact hq h

end ReadsIn

/-- A program returns the same from cells that agree where it reads. -/
theorem readValue_congr (h : ∀ l ∈ readOffsets p m, m' l = m l) :
    readValue p m' = readValue p m := by
  have hreads : ∀ a ∈ p.trace (cells L V) m, a.loc ∈ {l | m' l = m l} :=
    fun a ha => h a.loc (List.mem_map_of_mem ha)
  have hwrites : ∀ a ∈ p.trace (cells L V) m, a.StoresIn (Set.univ : Set V) := by
    intro a _
    cases a <;> simp [Access.StoresIn]
  exact (run_agrees (cells_separates _) p m' m (fun l hl => hl) hreads hwrites).1

end MemoryProgram

end XinuRpi4.Foundation
