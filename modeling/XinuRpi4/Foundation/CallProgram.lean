import Mathlib.Tactic

/-!
# Programs over a state

What a stateful program keeps, and programs that are trees of calls to operations on a state.

A program over a state that may fail to return keeps a relation if it relates
the state before to the state after in every run that returns. For a preorder
the programs that keep it are closed under sequencing and branching, so a
program keeps it if its updates do.

A program is a tree of calls to operations `ι`, each of which answers with a value
in `ρ`, and of returned values. The operations act on a state `σ` and may fail to
return. What every call that meets a condition keeps, every program keeps whose
calls all meet the condition.
-/

namespace XinuRpi4.Foundation

section

variable {σ α β : Type} {R : σ → σ → Prop}

/-- A program in two steps returns where both do. -/
theorem bind_run_iff {m : StateT σ Option α} {f : α → StateT σ Option β} {s s' : σ} {b : β} :
    (m >>= f).run s = some (b, s') ↔ ∃ a t, m.run s = some (a, t) ∧ (f a).run t = some (b, s') := by
  constructor
  · intro h
    obtain ⟨⟨a, t⟩, hfirst, hrest⟩ := Option.bind_eq_some_iff.mp h
    exact ⟨a, t, hfirst, hrest⟩
  · rintro ⟨a, t, hfirst, hrest⟩
    exact Option.bind_eq_some_iff.mpr ⟨(a, t), hfirst, hrest⟩

def Keeps (R : σ → σ → Prop) (m : StateT σ Option α) : Prop :=
  ∀ s a s', m.run s = some (a, s') → R s s'

namespace Keeps

theorem pure (hR : ∀ s, R s s) (a : α) : Keeps R (Pure.pure a : StateT σ Option α) := by
  intro s b s' h
  obtain ⟨_, rfl⟩ := Prod.mk.inj (Option.some.inj h)
  exact hR s

theorem bind (hR : ∀ s t u, R s t → R t u → R s u) {m : StateT σ Option α}
    {f : α → StateT σ Option β} (hm : Keeps R m) (hf : ∀ a, Keeps R (f a)) :
    Keeps R (m >>= f) := by
  intro s b s' h
  obtain ⟨a, t, hfirst, hrest⟩ := bind_run_iff.mp h
  exact hR s t s' (hm s a t hfirst) (hf a t b s' hrest)

theorem failure : Keeps R (failure : StateT σ Option α) := by
  intro s a s' h
  cases h

theorem get (hR : ∀ s, R s s) : Keeps R (MonadState.get : StateT σ Option σ) := by
  intro s a s' h
  obtain ⟨_, rfl⟩ := Prod.mk.inj (Option.some.inj h)
  exact hR s

theorem lift (hR : ∀ s, R s s) (o : Option α) : Keeps R (liftM o : StateT σ Option α) := by
  intro s a s' h
  obtain ⟨b, _, hb⟩ := Option.bind_eq_some_iff.mp h
  obtain ⟨_, rfl⟩ := Prod.mk.inj (Option.some.inj hb)
  exact hR s

theorem modify {f : σ → σ} (hf : ∀ s, R s (f s)) :
    Keeps R (modify f : StateT σ Option PUnit) := by
  intro s a s' h
  obtain ⟨_, rfl⟩ := Prod.mk.inj (Option.some.inj h)
  exact hf s

theorem ite {p : Prop} [Decidable p] {m m' : StateT σ Option α} (hm : Keeps R m)
    (hm' : Keeps R m') : Keeps R (if p then m else m') := by
  split
  · exact hm
  · exact hm'

end Keeps

end

inductive CallProgram (ι ρ α : Type) : Type
  | ret (a : α)
  | call (i : ι) (k : ρ → CallProgram ι ρ α)

namespace CallProgram

variable {ι ρ σ α β : Type}

def bind : CallProgram ι ρ α → (α → CallProgram ι ρ β) → CallProgram ι ρ β
  | ret a, f => f a
  | call i k, f => call i fun r => (k r).bind f

instance : Monad (CallProgram ι ρ) where
  pure := ret
  bind := bind

/-- One operation. -/
def op (i : ι) : CallProgram ι ρ ρ := call i ret

def run (exec : σ → ι → Option (ρ × σ)) : CallProgram ι ρ α → σ → Option (α × σ)
  | ret a, s => some (a, s)
  | call i k, s => (exec s i).bind fun r => (k r.1).run exec r.2

/-- A condition on every call of a run, read in the state before the call. -/
def EachCall (exec : σ → ι → Option (ρ × σ)) (ok : σ → ι → Prop) :
    CallProgram ι ρ α → σ → Prop
  | ret _, _ => True
  | call i k, s => ok s i ∧ ∀ r s', exec s i = some (r, s') → (k r).EachCall exec ok s'

section

variable {exec : σ → ι → Option (ρ × σ)} {ok : σ → ι → Prop} {s : σ}

theorem run_bind (p : CallProgram ι ρ α) (f : α → CallProgram ι ρ β) (s : σ) :
    (p >>= f).run exec s = (p.run exec s).bind fun r => (f r.1).run exec r.2 := by
  induction p generalizing s with
  | ret a => rfl
  | call i k ih =>
    have heq : ((call i k >>= f : CallProgram ι ρ β)).run exec s =
        (exec s i).bind fun r => (k r.1 >>= f).run exec r.2 := rfl
    rw [heq]
    simp only [run, Option.bind_assoc, ih]

theorem eachCall_bind (p : CallProgram ι ρ α) (f : α → CallProgram ι ρ β) (s : σ) :
    (p >>= f).EachCall exec ok s ↔ p.EachCall exec ok s ∧
      ∀ a s', p.run exec s = some (a, s') → (f a).EachCall exec ok s' := by
  induction p generalizing s with
  | ret a =>
    constructor
    · intro h
      refine ⟨trivial, ?_⟩
      rintro _ _ ⟨⟩
      exact h
    · exact fun h => h.2 a s rfl
  | call i k ih =>
    have heq : (call i k >>= f : CallProgram ι ρ β).EachCall exec ok s ↔
        ok s i ∧ ∀ r s', exec s i = some (r, s') → (k r >>= f).EachCall exec ok s' := Iff.rfl
    rw [heq]
    simp only [EachCall, ih]
    constructor
    · rintro ⟨hok, h⟩
      refine ⟨⟨hok, fun r s' hr => (h r s' hr).1⟩, fun a s'' hrun => ?_⟩
      obtain ⟨⟨r, s'⟩, hr, hrest⟩ := Option.bind_eq_some_iff.mp hrun
      exact (h r s' hr).2 a s'' hrest
    · rintro ⟨⟨hok, h⟩, hrest⟩
      refine ⟨hok, fun r s' hr => ⟨h r s' hr, fun a s'' hrun => hrest a s'' ?_⟩⟩
      rw [run, hr]
      exact hrun

theorem run_op (i : ι) (s : σ) : (op i : CallProgram ι ρ ρ).run exec s = exec s i := by
  have heq : (op i : CallProgram ι ρ ρ).run exec s = (exec s i).bind fun r => some (r.1, r.2) := rfl
  rw [heq]
  exact Option.bind_fun_some _

theorem eachCall_op (i : ι) : (op i : CallProgram ι ρ ρ).EachCall exec ok s ↔ ok s i :=
  ⟨fun h => h.1, fun h => ⟨h, fun _ _ _ => trivial⟩⟩

/-- A program goes on where its first part has ended. -/
theorem run_bind_of_run {p : CallProgram ι ρ α} {a : α} {s' : σ} (hp : p.run exec s = some (a, s'))
    (f : α → CallProgram ι ρ β) : (p >>= f).run exec s = (f a).run exec s' := by
  rw [run_bind, hp, Option.bind_some]

theorem run_op_bind {i : ι} {r : ρ} {s' : σ} (hexec : exec s i = some (r, s'))
    (f : ρ → CallProgram ι ρ β) : (op i >>= f).run exec s = (f r).run exec s' :=
  run_bind_of_run ((run_op i s).trans hexec) f

theorem eachCall_op_bind {i : ι} {r : ρ} {s' : σ} (hexec : exec s i = some (r, s'))
    {f : ρ → CallProgram ι ρ β} (h : (op i >>= f).EachCall exec ok s) :
    ok s i ∧ (f r).EachCall exec ok s' := by
  rw [eachCall_bind, eachCall_op] at h
  exact ⟨h.1, h.2 r s' ((run_op i s).trans hexec)⟩

/-- What one call keeps, and how it relates the states, holds of whole programs. -/
theorem run_of_eachCall (I : σ → Prop) (R : σ → σ → Prop) (hrefl : ∀ s, R s s)
    (htrans : ∀ s s' s'', R s s' → R s' s'' → R s s'')
    (hcall : ∀ s i, I s → ok s i → ∃ r s', exec s i = some (r, s') ∧ I s' ∧ R s s')
    (p : CallProgram ι ρ α) (hs : I s) (hp : p.EachCall exec ok s) :
    ∃ a s', p.run exec s = some (a, s') ∧ I s' ∧ R s s' := by
  induction p generalizing s with
  | ret a => exact ⟨a, s, rfl, hs, hrefl s⟩
  | call i k ih =>
    obtain ⟨r, s', hexec, hI, hR⟩ := hcall s i hs hp.1
    obtain ⟨a, s'', hrun, hI', hR'⟩ := ih r hI (hp.2 r s' hexec)
    refine ⟨a, s'', ?_, hI', htrans _ _ _ hR hR'⟩
    rw [run, hexec]
    exact hrun

end

end CallProgram

end XinuRpi4.Foundation
