import Mathlib.Tactic

/-!
# Generation and chat

All calls share one cache of keys and values, a row for each position. `forward` writes
the row of its position and reads the rows up to it. `llm_generate` starts at position 0;
`llm_chat` goes on where the session stands.

The vocabulary gives each token its text and a score. `bpe_encode` starts from the
single bytes behind a blank and merges the pair of neighbours with the best score as
long as one is in the vocabulary. `emit_piece` turns a token back into text.
-/

namespace XinuRpi4.Llm

/-- `g_piece`, `g_plen` and `g_score`, read from `tok_data`. Scores are compared only. -/
structure Vocab (F : Type) where
  size : ℕ
  piece : ℕ → List UInt8
  score : ℕ → F
  /-- `-1e30f` -/
  lowest : F

/-- The value of a hexadecimal digit. -/
def hexv (c : UInt8) : Option ℕ :=
  if 0x30 ≤ c ∧ c ≤ 0x39 then some (c.toNat - 0x30)
  else if 0x61 ≤ c ∧ c ≤ 0x66 then some (c.toNat - 0x61 + 10)
  else if 0x41 ≤ c ∧ c ≤ 0x46 then some (c.toNat - 0x41 + 10)
  else none

/-- The byte of a piece of the form `<0xHH>`. -/
def rawByte : List UInt8 → Option UInt8
  | [0x3c, 0x30, 0x78, h, l, 0x3e] =>
    match hexv h, hexv l with
    | some hi, some lo => some (UInt8.ofNat (hi * 16 + lo))
    | _, _ => none
  | _ => none

namespace Vocab

variable {F : Type}

/-- `find_piece`. -/
def findPiece (v : Vocab F) (s : List UInt8) : Option ℕ :=
  (List.range v.size).find? fun i => v.piece i = s

theorem findPiece_blank (v : Vocab F) (hblank : ∃ i < v.size, v.piece i = [0x20]) :
    (v.findPiece [0x20]).isSome := by
  obtain ⟨i, hi, hp⟩ := hblank
  rw [findPiece, List.find?_isSome]
  exact ⟨i, List.mem_range.mpr hi, by simpa using hp⟩

/-- What `emit_piece` sends to the sink. -/
def emitPiece (v : Vocab F) (prev tok : ℕ) : List UInt8 :=
  let p := v.piece tok
  match rawByte p with
  | some c => [c]
  | none => if prev = 1 ∧ p.head? = some 0x20 then p.tail else p

/-- The text of tokens behind the token `prev`. -/
def spell (v : Vocab F) : ℕ → List ℕ → List UInt8
  | _, [] => []
  | prev, t :: ts => v.emitPiece prev t ++ v.spell t ts

variable [LT F] [DecidableLT F]

/-- The search for the best pair: its index and the token of both together. -/
def bestMerge (v : Vocab F) (best : F) (found : Option (ℕ × ℕ)) (i : ℕ) :
    List ℕ → Option (ℕ × ℕ)
  | a :: b :: ts =>
    if 15 < (v.piece a).length + (v.piece b).length then v.bestMerge best found (i + 1) (b :: ts)
    else
      match v.findPiece (v.piece a ++ v.piece b) with
      | some id =>
        if best < v.score id then v.bestMerge (v.score id) (some (i, id)) (i + 1) (b :: ts)
        else v.bestMerge best found (i + 1) (b :: ts)
      | none => v.bestMerge best found (i + 1) (b :: ts)
  | _ => found

/-- The loop of merges; each one takes a token away. -/
def mergeAll (v : Vocab F) : ℕ → List ℕ → List ℕ
  | 0, ts => ts
  | n + 1, ts =>
    match v.bestMerge v.lowest none 0 ts with
    | some (i, id) => v.mergeAll n (ts.take i ++ id :: ts.drop (i + 2))
    | none => ts

/-- `bpe_encode`. The text is cut behind 255 bytes. -/
def bpeEncode (v : Vocab F) (prompt : List UInt8) (maxtoks : ℕ) (withBos : Bool) : List ℕ :=
  let bos := if withBos then [1] else []
  let ids := (0x20 :: prompt.take 255).filterMap fun c => v.findPiece [c]
  let toks := bos ++ ids.take (maxtoks - bos.length)
  v.mergeAll toks.length toks

theorem mergeAll_ne_nil (v : Vocab F) (n : ℕ) {ts : List ℕ} (h : ts ≠ []) :
    v.mergeAll n ts ≠ [] := by
  induction n generalizing ts with
  | zero => exact h
  | succ n ih =>
    rw [mergeAll]
    cases v.bestMerge v.lowest none 0 ts with
    | none => exact h
    | some m =>
      apply ih
      simp

/-- The blank in front is never lost. -/
theorem bpeEncode_ne_nil (v : Vocab F) (hblank : ∃ i < v.size, v.piece i = [0x20])
    (prompt : List UInt8) {maxtoks : ℕ} (h : 0 < maxtoks) (withBos : Bool) :
    v.bpeEncode prompt maxtoks withBos ≠ [] := by
  apply mergeAll_ne_nil
  cases withBos with
  | true => simp
  | false =>
    obtain ⟨id, hid⟩ := Option.isSome_iff_exists.mp (v.findPiece_blank hblank)
    simp only [Bool.false_eq_true, if_false, List.nil_append, List.length_nil, Nat.sub_zero,
      List.filterMap_cons, hid]
    intro hnil
    rw [List.take_eq_nil_iff] at hnil
    rcases hnil with h0 | h0
    · omega
    · cases h0

end Vocab

/-- `C`, `W` and the vocabulary. The layers are any function of the token and the rows in
front of it; they give the row of the token and the logits. -/
structure Model (Row F : Type) where
  vocab : Vocab F
  /-- the vocabulary that is linked in has a piece for the blank -/
  blank : ∃ i < vocab.size, vocab.piece i = [0x20]
  seqLen : ℕ
  seqLen_pos : 0 < seqLen
  layers : ℕ → List Row → Row × (ℕ → F)

/-- A call of `llm_chat`; a negative `max_new` does what zero does. -/
structure ChatCall where
  msg : List UInt8
  maxNew : ℕ
  outcap : ℕ

/-- The text in `out` and the value that is returned. -/
abbrev Reply := List UInt8 × ℕ

/-- Where a pass over the model stands: the cache, the next position, the last token. -/
structure Head (Row : Type) where
  cache : ℕ → Row
  pos : ℕ
  prev : ℕ

/-- `argmax`. -/
def argmax {F : Type} [LT F] [DecidableLT F] (v : ℕ → F) (n : ℕ) : ℕ :=
  (List.range' 1 (n - 1)).foldl (fun mi i => if v mi < v i then i else mi) 0

namespace Model

variable {Row F : Type}

/-- `forward`. -/
def forward (m : Model Row F) (cache : ℕ → Row) (token pos : ℕ) : (ℕ → Row) × (ℕ → F) :=
  let r := m.layers token ((List.range pos).map cache)
  (Function.update cache pos r.1, r.2)

/-- `forward` at the next position. -/
def feed (m : Model Row F) (h : Head Row) (token : ℕ) : Head Row × (ℕ → F) :=
  let r := m.forward h.cache token h.pos
  (⟨r.1, h.pos + 1, token⟩, r.2)

/-- The loop over the tokens of a message. -/
def feedAll (m : Model Row F) (h : Head Row) (logits : Option (ℕ → F)) :
    List ℕ → Head Row × Option (ℕ → F)
  | [] => (h, logits)
  | t :: ts =>
    if h.pos < m.seqLen then m.feedAll (m.feed h t).1 (some (m.feed h t).2) ts
    else (h, logits)

variable [LT F] [DecidableLT F]

/-- The loop of `llm_generate`, with the positions that are left. -/
def generateLoop (m : Model Row F) (toks : List ℕ) (maxNew : ℕ) (echo : Bool) :
    ℕ → (ℕ → Row) → (token pos gen : ℕ) → List UInt8 → (ℕ → Row) × Reply
  | 0, cache, _, _, gen, text => (cache, text, gen)
  | left + 1, cache, token, pos, gen, text =>
    if gen < maxNew then
      let r := m.forward cache token pos
      match toks[pos + 1]? with
      | some next =>
        m.generateLoop toks maxNew echo left r.1 next (pos + 1) gen
          (if echo then text ++ m.vocab.emitPiece token next else text)
      | none =>
        let next := argmax r.2 m.vocab.size
        if next = 1 ∨ next = 2 then (r.1, text, gen)
        else
          m.generateLoop toks maxNew echo left r.1 next (pos + 1) (gen + 1)
            (text ++ m.vocab.emitPiece token next)
    else (cache, text, gen)

/-- `llm_generate`, with what it sends to the sink. -/
def llmGenerate (m : Model Row F) (cache : ℕ → Row) (prompt : List UInt8) (maxNew : ℕ)
    (echo : Bool) : (ℕ → Row) × Reply :=
  let toks := m.vocab.bpeEncode prompt 250 true
  m.generateLoop toks maxNew echo m.seqLen cache (toks.headD 1) 0 0 []

/-- `llm_run`. -/
def llmRun (m : Model Row F) (cache : ℕ → Row) (prompt : List UInt8) (maxNew outcap : ℕ)
    (echo : Bool) : (ℕ → Row) × Reply :=
  let r := m.llmGenerate cache prompt maxNew echo
  (r.1, r.2.1.take (outcap - 1), r.2.2)

/-- The loop that answers, with the positions that are left. -/
def chatLoop (m : Model Row F) (maxNew : ℕ) :
    ℕ → Head Row → (ℕ → F) → ℕ → List UInt8 → Head Row × Reply
  | 0, h, _, gen, text => (h, text, gen)
  | left + 1, h, logits, gen, text =>
    if gen < maxNew then
      let next := argmax logits m.vocab.size
      if next = 1 ∨ next = 2 then (h, text, gen)
      else
        m.chatLoop maxNew left (m.feed h next).1 (m.feed h next).2 (gen + 1)
          (text ++ m.vocab.emitPiece h.prev next)
    else (h, text, gen)

/-- `llm_chat`; the session is `g_sess_pos` and `g_sess_last` with the cache. -/
def llmChat (m : Model Row F) (s : Head Row) (c : ChatCall) : Head Row × Reply :=
  let start : Head Row × Option (ℕ → F) :=
    if s.pos = 0 then ((m.feed s 1).1, some (m.feed s 1).2) else (s, none)
  let f := m.feedAll start.1 start.2 (m.vocab.bpeEncode c.msg 250 false)
  match f.2 with
  | none => ({ f.1 with prev := s.prev }, [], 0)
  | some logits =>
    let g := m.chatLoop c.maxNew (m.seqLen - f.1.pos) f.1 logits 0 []
    (g.1, g.2.1.take (c.outcap - 1), g.2.2)

end Model

end XinuRpi4.Llm
