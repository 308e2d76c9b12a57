import XinuRpi4.Foundation.Runs
import XinuRpi4.Llm.Conversation

/-!
# When a conversation keeps to itself

Any generation writes the rows from position 0 on. An open conversation is not changed
by it as long as the tokens that it feeds are those of the conversation, as far as both
go.
-/

namespace XinuRpi4.Llm

open Foundation

variable {Row F : Type} [LT F] [DecidableLT F]

namespace Model

variable (m : Model Row F)

/-- The tokens that `llm_generate` feeds. -/
def fed (toks : List ℕ) (maxNew : ℕ) : List ℕ :=
  if maxNew = 0 then []
  else toks.take m.seqLen ++ m.continuation (min (maxNew - 1) (m.seqLen - toks.length)) toks

variable {m}

/-- The loop behind the prompt. -/
theorem generateLoop_answering {c₀ : ℕ → Row} {toks ts : List ℕ} {maxNew gen : ℕ}
    (hgen : gen < maxNew) (hts : toks.length ≤ ts.length + 1) (echo : Bool) (left token : ℕ)
    (text : List UInt8) :
    (m.generateLoop toks maxNew echo (left + 1) (overlay c₀ (m.rows ts)) token ts.length gen
      text).1 = overlay c₀ (m.rows (ts ++ [token] ++
        m.continuation (min (maxNew - gen - 1) left) (ts ++ [token]))) := by
  induction left generalizing ts token gen text with
  | zero =>
    have hnone : toks[ts.length + 1]? = none := List.getElem?_eq_none (by omega)
    simp only [generateLoop, hgen, if_true, hnone, forward_overlay, Nat.min_zero, continuation,
      List.append_nil]
    split <;> rfl
  | succ left ih =>
    have hnone : toks[ts.length + 1]? = none := List.getElem?_eq_none (by omega)
    rw [generateLoop]
    simp only [hgen, if_true, hnone, forward_overlay]
    by_cases hstop : argmax (m.logits (ts ++ [token])) m.vocab.size = 1 ∨
        argmax (m.logits (ts ++ [token])) m.vocab.size = 2
    · have hend : ∀ n, m.continuation n (ts ++ [token]) = [] := by
        intro n
        cases n with
        | zero => rfl
        | succ n => simp only [continuation, hstop, if_true]
      simp only [hstop, if_true, hend, List.append_nil]
    · simp only [hstop, if_false]
      by_cases hgen' : gen + 1 < maxNew
      · have hmin : min (maxNew - gen - 1) (left + 1) = min (maxNew - (gen + 1) - 1) left + 1 := by
          omega
        have hlen : (ts ++ [token]).length = ts.length + 1 := by simp
        have hrec := @ih (ts ++ [token]) (gen + 1) hgen' (by omega)
          (argmax (m.logits (ts ++ [token])) m.vocab.size)
          (text ++ m.vocab.emitPiece token (argmax (m.logits (ts ++ [token])) m.vocab.size))
        rw [hlen] at hrec
        rw [hrec, hmin, continuation]
        simp only [hstop, if_false, List.append_assoc, List.cons_append, List.nil_append]
      · have hmin : min (maxNew - gen - 1) (left + 1) = 0 := by omega
        simp only [generateLoop, hgen', if_false, hmin, continuation, List.append_nil]

/-- The loop over the prompt and behind it. -/
theorem generateLoop_cache {c₀ : ℕ → Row} {toks : List ℕ} {maxNew : ℕ} (hnew : 0 < maxNew)
    (echo : Bool) (left pos token : ℕ) (hpos : pos + left = m.seqLen)
    (htok : toks[pos]? = some token) (text : List UInt8) :
    (m.generateLoop toks maxNew echo left (overlay c₀ (m.rows (toks.take pos))) token pos 0
      text).1 = overlay c₀ (m.rows (m.fed toks maxNew)) := by
  have hlt : pos < toks.length := (List.getElem?_eq_some_iff.mp htok).1
  induction left generalizing pos token text with
  | zero =>
    have hzero : min (maxNew - 1) (m.seqLen - toks.length) = 0 := by omega
    rw [generateLoop, fed, if_neg (by omega), hzero, continuation, List.append_nil, ← hpos,
      Nat.add_zero]
  | succ left ih =>
    have htake : toks.take pos ++ [token] = toks.take (pos + 1) := by
      rw [List.take_add_one, htok, Option.toList_some]
    have hlen : (toks.take pos).length = pos := List.length_take_of_le hlt.le
    cases hnext : toks[pos + 1]? with
    | some next =>
      have hlt' : pos + 1 < toks.length := (List.getElem?_eq_some_iff.mp hnext).1
      have hfwd : m.forward (overlay c₀ (m.rows (toks.take pos))) token pos =
          (overlay c₀ (m.rows (toks.take (pos + 1))), m.logits (toks.take (pos + 1))) := by
        have h := @forward_overlay Row F m c₀ (toks.take pos) token
        rw [hlen, htake] at h
        exact h
      rw [generateLoop]
      simp only [hnew, if_true, hnext, hfwd]
      exact ih (pos + 1) next (by omega) hnext _ hlt'
    | none =>
      have hend : toks.length = pos + 1 := by
        have := List.getElem?_eq_none_iff.mp hnext
        omega
      have hall : toks.take pos ++ [token] = toks := by
        rw [htake, ← hend, List.take_length]
      have h := @generateLoop_answering Row F _ _ m c₀ toks (toks.take pos) maxNew 0 hnew
        (by omega) echo left token text
      rw [hlen, hall] at h
      have hleft : m.seqLen - toks.length = left := by omega
      rw [h, fed, if_neg (by omega), hleft, List.take_of_length_le (by omega), Nat.sub_zero]

/-- A generation lays the rows of the tokens it feeds over the cache. -/
theorem llmGenerate_cache (cache : ℕ → Row) (prompt : List UInt8) (maxNew : ℕ) (echo : Bool) :
    (m.llmGenerate cache prompt maxNew echo).1 =
      overlay cache (m.rows (m.fed (m.vocab.bpeEncode prompt 250 true) maxNew)) := by
  rw [llmGenerate]
  cases maxNew with
  | zero =>
    have hseq := m.seqLen_pos
    obtain ⟨n, hn⟩ : ∃ n, m.seqLen = n + 1 := ⟨m.seqLen - 1, by omega⟩
    simp [hn, generateLoop, fed]
  | succ n =>
    have hne := m.vocab.bpeEncode_ne_nil m.blank prompt (by omega : 0 < 250) true
    cases htoks : m.vocab.bpeEncode prompt 250 true with
    | nil => exact absurd htoks hne
    | cons t ts =>
      exact generateLoop_cache (Nat.succ_pos n) echo m.seqLen 0 t (by omega) rfl []

end Model

/-- The session, with the turns since the last reset. -/
structure Sys (Row : Type) where
  session : Head Row
  turns : List (ChatCall × Reply)

inductive LlmOp
  | reset
  | chat (c : ChatCall)
  | run (prompt : List UInt8) (maxNew outcap : ℕ) (echo : Bool)
  | generate (prompt : List UInt8) (maxNew : ℕ) (echo : Bool)

namespace Sys

/-- Nothing is loaded; the cache holds anything. -/
def init (cache : ℕ → Row) : Sys Row := ⟨⟨cache, 0, 0⟩, []⟩

def calls (s : Sys Row) : List ChatCall := s.turns.map (·.1)

variable (m : Model Row F)

def step (s : Sys Row) : LlmOp → Option (Sys Row)
  | .reset => some ⟨{ s.session with pos := 0, prev := 1 }, []⟩
  | .chat c =>
    let r := m.llmChat s.session c
    some ⟨r.1, s.turns ++ [(c, r.2)]⟩
  | .run prompt maxNew outcap echo =>
    some { s with
      session := { s.session with
        cache := (m.llmRun s.session.cache prompt maxNew outcap echo).1 } }
  | .generate prompt maxNew echo =>
    some { s with
      session := { s.session with cache := (m.llmGenerate s.session.cache prompt maxNew echo).1 } }

/-- Every reply is that of a fresh model, and the position counts its tokens. -/
def Isolated (s : Sys Row) : Prop :=
  s.turns.map (·.2) = m.replies s.calls ∧ s.session.pos = (m.conversation s.calls).length

instance Isolated.decidable (s : Sys Row) : Decidable (Isolated m s) :=
  inferInstanceAs (Decidable (_ ∧ _))

/-- The tokens that a call feeds from position 0 on, outside the conversation. -/
def foreign : LlmOp → List ℕ
  | .run prompt maxNew _ _ => m.fed (m.vocab.bpeEncode prompt 250 true) maxNew
  | .generate prompt maxNew _ => m.fed (m.vocab.bpeEncode prompt 250 true) maxNew
  | _ => []

/-- The tokens of a generation are those of the conversation as far as both go. -/
def KeepsOff (s : Sys Row) (op : LlmOp) : Prop :=
  m.conversation s.calls <+: foreign m op ∨ foreign m op <+: m.conversation s.calls

instance KeepsOff.decidable (s : Sys Row) (op : LlmOp) : Decidable (KeepsOff m s op) :=
  inferInstanceAs (Decidable (_ ∨ _))

/-- The cache holds the rows of the conversation. -/
structure Follows (s : Sys Row) : Prop where
  stands : ∃ c₀, m.Stands c₀ (m.conversation s.calls) s.session
  answered : s.turns.map (·.2) = m.replies s.calls

namespace Follows

variable {m} {s s' : Sys Row}

/-- Another generation, which feeds the tokens `us`. -/
theorem overlay (h : Follows m s) {us : List ℕ}
    (hus : m.conversation s.calls <+: us ∨ us <+: m.conversation s.calls) :
    Follows m { s with session := { s.session with
      cache := Llm.overlay s.session.cache (m.rows us) } } := by
  obtain ⟨⟨c₀, hcache, hpos, hprev⟩, hans⟩ := h
  refine ⟨⟨Llm.overlay s.session.cache (m.rows us), ?_, hpos, hprev⟩, hans⟩
  symm
  apply overlay_overlay
  · exact hus.imp m.rows_prefix m.rows_prefix
  · change Llm.overlay s.session.cache (m.rows (m.conversation s.calls)) = s.session.cache
    rw [hcache, overlay_self]

theorem step (h : Follows m s) {op : LlmOp} (hop : KeepsOff m s op)
    (hstep : s.step m op = some s') : Follows m s' := by
  cases op with
  | reset =>
    cases Option.some.inj hstep
    exact ⟨⟨s.session.cache, rfl, rfl, fun hne => absurd rfl hne⟩, rfl⟩
  | chat c =>
    cases Option.some.inj hstep
    obtain ⟨⟨c₀, hstands⟩, hans⟩ := h
    obtain ⟨hstands', hreply⟩ := hstands.llmChat (m.length_conversation s.calls) c
    constructor
    · refine ⟨c₀, ?_⟩
      simpa [calls] using hstands'
    · simp only [calls] at hans hreply ⊢
      simp [hans, hreply]
  | run prompt maxNew outcap echo =>
    cases Option.some.inj hstep
    have hcache := m.llmGenerate_cache s.session.cache prompt maxNew echo
    rw [Model.llmRun, hcache]
    exact h.overlay hop
  | generate prompt maxNew echo =>
    cases Option.some.inj hstep
    rw [m.llmGenerate_cache]
    exact h.overlay hop

theorem isolated (h : Follows m s) : Isolated m s := by
  obtain ⟨⟨c₀, hstands⟩, hans⟩ := h
  exact ⟨hans, hstands.pos⟩

end Follows

/-- Chats answer like a fresh model as long as no other generation writes other rows
under them. -/
theorem chat_isolated (cache : ℕ → Row) {ops : List LlmOp}
    (hops : EachStep (step m) (KeepsOff m) (init cache) ops) :
    Always (step m) (Isolated m) (init cache) ops := by
  apply always_of_eachStep (Follows m) (Isolated m) (fun _ h => h.isolated) _ _ hops
  · intro s op s' h hop hstep
    exact h.step hop hstep
  · exact ⟨⟨cache, rfl, rfl, fun hne => absurd rfl hne⟩, rfl⟩

end Sys

/-- A model that always names the token at position 2. -/
def firstLetter : Model ℕ ℕ where
  vocab :=
    { size := 6
      piece := fun i => [[0x3f], [0x5e], [0x24], [0x20], [0x61], [0x62]].getD i []
      score := fun _ => 0
      lowest := 0 }
  blank := ⟨3, by decide, rfl⟩
  seqLen := 16
  seqLen_pos := by decide
  layers t rows := (t, fun v => if v = (rows ++ [t]).getD 2 2 then 1 else 0)

theorem chat_isolated_same_prompt :
    Always (Sys.step firstLetter) (Sys.Isolated firstLetter) (Sys.init fun _ => 0)
      [.chat ⟨[0x61], 1, 420⟩, .run [0x61] 1 700 true, .chat ⟨[0x62], 2, 420⟩, .reset,
        .generate [0x62] 3 false, .chat ⟨[0x62], 1, 420⟩] :=
  Sys.chat_isolated firstLetter (fun _ => 0) (by decide)

/-- A run with another prompt between two messages changes the second reply. -/
theorem run_changes_next_reply :
    ¬ ∀ ops : List LlmOp,
      Always (Sys.step firstLetter) (Sys.Isolated firstLetter) (Sys.init fun _ => 0) ops := by
  intro h
  have hrun := h [.chat ⟨[0x61], 0, 420⟩, .run [0x62] 1 700 true, .chat ⟨[0x61], 1, 420⟩]
  revert hrun
  decide

end XinuRpi4.Llm
