import Mathlib.Tactic
import Mathlib.Logic.Relation

/-!
# Next-hop graphs with distance estimates

Every node of a network may hold, for one destination, a next hop and an
estimate of its distance. `Descends` is the distance-vector condition: the
next hop is the destination or holds an estimate that is smaller. It rules out
cycles, and bounds the number of hops to the destination by the estimate.
-/

namespace XinuRpi4.Foundation

variable {ι : Type*}

/-- `via i j h`: node `i` sends towards the destination through `j`, which it
takes to be `h` hops away. -/
structure Descends (target : ι → Prop) (via : ι → ι → ℕ → Prop) : Prop where
  oneEstimate : ∀ {i j j' h h'}, via i j h → via i j' h' → h = h'
  closer : ∀ {i j h}, ¬ target i → via i j h →
    0 < h ∧ (target j ∨ ∃ k h', via j k h' ∧ h' < h)

/-- What is sent on from `i` goes to `j`; at the destination nothing is sent on. -/
def Hop (target : ι → Prop) (via : ι → ι → ℕ → Prop) (i j : ι) : Prop :=
  ¬ target i ∧ ∃ h, via i j h

/-- Following `hop` from the first node for `n` steps leads to the second. -/
inductive Follows (hop : ι → ι → Prop) : ℕ → ι → ι → Prop
  | here (i : ι) : Follows hop 0 i i
  | onward {n : ℕ} {i j k : ι} : hop i j → Follows hop n j k → Follows hop (n + 1) i k

namespace Descends

variable {target : ι → Prop} {via : ι → ι → ℕ → Prop} {i j : ι} {h : ℕ}

/-- Along the graph the estimates fall until the destination is reached. -/
theorem falls (hd : Descends target via) (hvia : via i j h) {k : ι}
    (hpath : Relation.TransGen (Hop target via) i k) :
    target k ∨ ∃ l h', via k l h' ∧ h' < h := by
  induction hpath with
  | single hop =>
    obtain ⟨hi, h₁, hvia₁⟩ := hop
    obtain rfl := hd.oneEstimate hvia hvia₁
    exact (hd.closer hi hvia₁).2
  | tail _ hop ih =>
    obtain ⟨hk, h₁, hvia₁⟩ := hop
    obtain htarget | ⟨l, h₂, hvia₂, hlt⟩ := ih
    · exact absurd htarget hk
    · obtain rfl := hd.oneEstimate hvia₂ hvia₁
      obtain htarget | ⟨l', h₃, hvia₃, hlt'⟩ := (hd.closer hk hvia₁).2
      · exact Or.inl htarget
      · exact Or.inr ⟨l', h₃, hvia₃, hlt'.trans hlt⟩

theorem acyclic (hd : Descends target via) (i : ι) :
    ¬ Relation.TransGen (Hop target via) i i := by
  intro hcycle
  obtain ⟨j, hop, _⟩ := Relation.TransGen.head'_iff.mp hcycle
  obtain ⟨hi, h, hvia⟩ := hop
  obtain htarget | ⟨l, h', hvia', hlt⟩ := hd.falls hvia hcycle
  · exact hi htarget
  · have := hd.oneEstimate hvia hvia'
    omega

theorem reaches (hd : Descends target via) (hvia : via i j h) :
    ∃ n ≤ h, ∃ k, target k ∧ Follows (Hop target via) n i k := by
  induction h using Nat.strong_induction_on generalizing i j with
  | _ h ih =>
    by_cases hi : target i
    · exact ⟨0, Nat.zero_le _, i, hi, .here i⟩
    · have hop : Hop target via i j := ⟨hi, h, hvia⟩
      obtain ⟨hpos, htarget | ⟨k, h', hvia', hlt⟩⟩ := hd.closer hi hvia
      · exact ⟨1, hpos, j, htarget, .onward hop (.here j)⟩
      · obtain ⟨n, hn, t, ht, hpath⟩ := ih h' hlt hvia'
        exact ⟨n + 1, by omega, t, ht, .onward hop hpath⟩

end Descends

end XinuRpi4.Foundation
