import Mathlib.Data.List.GetD
import XinuRpi4.Llm.Generation

/-!
# Conversations of a fresh model

The reply to a message is what a model gives that has been fed the whole conversation
from position 0. It depends on nothing but the messages.

The code follows it as long as the rows in the cache are those of the conversation. What
a call writes is said once: the cache is the old one with the rows of the tokens laid
over it.
-/

namespace XinuRpi4.Llm

/-- The cache with the rows from position 0 on replaced. -/
def overlay {Row : Type} (cache : ℕ → Row) (rows : List Row) : ℕ → Row :=
  fun i => rows.getD i (cache i)

section

variable {Row : Type} (cache : ℕ → Row)

@[simp] theorem overlay_nil : overlay cache [] = cache := rfl

theorem overlay_range (rows : List Row) :
    (List.range rows.length).map (overlay cache rows) = rows := by
  apply List.ext_getElem
  · simp
  · intro i hi hi'
    simp [overlay, hi']

theorem overlay_concat (rows : List Row) (r : Row) :
    Function.update (overlay cache rows) rows.length r = overlay cache (rows ++ [r]) := by
  funext i
  rcases lt_trichotomy i rows.length with hi | rfl | hi
  · rw [Function.update_of_ne (by omega), overlay, overlay, List.getD_append _ _ _ _ hi]
  · simp [overlay]
  · rw [Function.update_of_ne (by omega), overlay, overlay, List.getD_eq_default _ _ (by omega),
      List.getD_eq_default _ _ (by simp; omega)]

@[simp] theorem overlay_self (rows : List Row) :
    overlay (overlay cache rows) rows = overlay cache rows := by
  funext i
  by_cases hi : i < rows.length
  · simp [overlay, hi]
  · rw [overlay, List.getD_eq_default _ _ (by omega)]

/-- Rows that agree with the ones laid over them are not lost. -/
theorem overlay_overlay {rows rows' : List Row} (h : rows <+: rows' ∨ rows' <+: rows)
    (hcache : overlay cache rows = cache) :
    overlay (overlay cache rows') rows = overlay cache rows' := by
  have hprefix : ∀ {us vs : List Row}, us <+: vs → ∀ i < us.length, ∀ d, vs.getD i d = us.getD i d := by
    rintro us vs ⟨ws, rfl⟩ i hi d
    exact List.getD_append _ _ _ _ hi
  funext i
  by_cases hi : i < rows.length
  · by_cases hi' : i < rows'.length
    · rcases h with hpre | hpre
      · rw [overlay, overlay, hprefix hpre i hi]
        simp [hi]
      · rw [overlay, overlay, hprefix hpre i hi', List.getD_eq_getElem _ _ hi',
          List.getD_eq_getElem _ _ hi']
    · have hrow : rows.getD i (cache i) = cache i := congrFun hcache i
      rw [overlay, overlay, List.getD_eq_default _ (cache i) (by omega : rows'.length ≤ i)]
      exact hrow
  · rw [overlay, List.getD_eq_default _ _ (by omega)]

end

namespace Model

variable {Row F : Type} (m : Model Row F)

/-- The rows of a fresh model that was fed the tokens. -/
def rows : List ℕ → List Row := List.foldl (fun rs t => rs ++ [(m.layers t rs).1]) []

@[simp] theorem rows_nil : m.rows [] = [] := rfl

theorem rows_concat (ts : List ℕ) (t : ℕ) :
    m.rows (ts ++ [t]) = m.rows ts ++ [(m.layers t (m.rows ts)).1] := by
  simp [rows]

@[simp] theorem length_rows (ts : List ℕ) : (m.rows ts).length = ts.length := by
  induction ts using List.reverseRecOn with
  | nil => rfl
  | append_singleton ts t ih => simp [rows_concat, ih]

theorem rows_prefix {ts us : List ℕ} (h : ts <+: us) : m.rows ts <+: m.rows us := by
  obtain ⟨vs, rfl⟩ := h
  induction vs using List.reverseRecOn with
  | nil => simp
  | append_singleton vs v ih =>
    rw [← List.append_assoc, rows_concat]
    exact ih.trans (List.prefix_append _ _)

/-- Its logits behind the last token. -/
def logits (ts : List ℕ) : ℕ → F := (m.layers (ts.getLastD 1) (m.rows ts.dropLast)).2

@[simp] theorem logits_concat (ts : List ℕ) (t : ℕ) :
    m.logits (ts ++ [t]) = (m.layers t (m.rows ts)).2 := by
  simp [logits]

section

variable [LT F] [DecidableLT F]

/-- At most `n` tokens that the model adds. -/
def continuation : ℕ → List ℕ → List ℕ
  | 0, _ => []
  | n + 1, ts =>
    let next := argmax (m.logits ts) m.vocab.size
    if next = 1 ∨ next = 2 then [] else next :: continuation n (ts ++ [next])

/-- The conversation with a message added. -/
def opened (ts : List ℕ) (c : ChatCall) : List ℕ :=
  ((if ts = [] then [1] else ts) ++ m.vocab.bpeEncode c.msg 250 false).take m.seqLen

/-- The tokens of the answer. -/
def answer (ts : List ℕ) (c : ChatCall) : List ℕ :=
  m.continuation (min c.maxNew (m.seqLen - (m.opened ts c).length)) (m.opened ts c)

def reply (ts : List ℕ) (c : ChatCall) : Reply :=
  ((m.vocab.spell ((m.opened ts c).getLastD 1) (m.answer ts c)).take (c.outcap - 1),
    (m.answer ts c).length)

/-- The tokens of a whole conversation. -/
def conversation : List ChatCall → List ℕ :=
  List.foldl (fun ts c => m.opened ts c ++ m.answer ts c) []

@[simp] theorem conversation_nil : m.conversation [] = [] := rfl

@[simp] theorem conversation_concat (cs : List ChatCall) (c : ChatCall) :
    m.conversation (cs ++ [c]) =
      m.opened (m.conversation cs) c ++ m.answer (m.conversation cs) c := by
  simp [conversation]

/-- The replies of a fresh model in a conversation. -/
def replies (cs : List ChatCall) : List Reply :=
  cs.mapIdx fun i c => m.reply (m.conversation (cs.take i)) c

@[simp] theorem replies_concat (cs : List ChatCall) (c : ChatCall) :
    m.replies (cs ++ [c]) = m.replies cs ++ [m.reply (m.conversation cs) c] := by
  simp only [replies, List.mapIdx_append, List.mapIdx_singleton, Nat.zero_add, List.take_left]
  congr 1
  apply List.ext_getElem
  · simp
  · intro i hi hi'
    have hle : i ≤ cs.length := by
      rw [List.length_mapIdx] at hi
      omega
    simp [List.take_append_of_le_length hle]

theorem length_continuation (n : ℕ) (ts : List ℕ) : (m.continuation n ts).length ≤ n := by
  induction n generalizing ts with
  | zero => exact le_rfl
  | succ n ih =>
    rw [continuation]
    split
    · exact Nat.zero_le _
    · exact Nat.succ_le_succ (ih _)

theorem length_conversation (cs : List ChatCall) : (m.conversation cs).length ≤ m.seqLen := by
  induction cs using List.reverseRecOn with
  | nil => exact Nat.zero_le _
  | append_singleton cs c ih =>
    have hopened : (m.opened (m.conversation cs) c).length ≤ m.seqLen := List.length_take_le _ _
    have hanswer := m.length_continuation
      (min c.maxNew (m.seqLen - (m.opened (m.conversation cs) c).length))
      (m.opened (m.conversation cs) c)
    rw [conversation_concat, List.length_append, answer]
    omega

end

/-- The head stands behind the tokens: their rows lie over the cache `c₀`. -/
structure Stands (c₀ : ℕ → Row) (ts : List ℕ) (h : Head Row) : Prop where
  cache : h.cache = overlay c₀ (m.rows ts)
  pos : h.pos = ts.length
  prev : ts ≠ [] → h.prev = ts.getLastD 1

variable {m} {c₀ : ℕ → Row} {ts : List ℕ} {h : Head Row}

theorem forward_overlay (t : ℕ) : m.forward (overlay c₀ (m.rows ts)) t ts.length =
    (overlay c₀ (m.rows (ts ++ [t])), m.logits (ts ++ [t])) := by
  have hrows := overlay_range c₀ (m.rows ts)
  rw [length_rows] at hrows
  have hcat := overlay_concat c₀ (m.rows ts) (m.layers t (m.rows ts)).1
  rw [length_rows] at hcat
  rw [forward, hrows, rows_concat, logits_concat, ← hcat]

theorem Stands.feed (hs : m.Stands c₀ ts h) (t : ℕ) :
    m.Stands c₀ (ts ++ [t]) (m.feed h t).1 ∧ (m.feed h t).2 = m.logits (ts ++ [t]) := by
  have hf : m.forward h.cache t h.pos =
      (overlay c₀ (m.rows (ts ++ [t])), m.logits (ts ++ [t])) := by
    rw [hs.cache, hs.pos, forward_overlay]
  refine ⟨⟨?_, ?_, ?_⟩, ?_⟩
  · rw [Model.feed, hf]
  · simp [Model.feed, hs.pos]
  · simp [Model.feed]
  · rw [Model.feed, hf]

/-- The loop over a message stops where the positions end. -/
theorem Stands.feedAll (hs : m.Stands c₀ ts h) (hlen : ts.length ≤ m.seqLen) (lg : Option (ℕ → F))
    (us : List ℕ) :
    m.Stands c₀ ((ts ++ us).take m.seqLen) (m.feedAll h lg us).1 ∧
      (((ts ++ us).take m.seqLen = ts ∧ m.feedAll h lg us = (h, lg)) ∨
        (m.feedAll h lg us).2 = some (m.logits ((ts ++ us).take m.seqLen))) := by
  induction us generalizing ts h lg with
  | nil =>
    have htake : (ts ++ []).take m.seqLen = ts := by
      rw [List.append_nil, List.take_of_length_le hlen]
    rw [htake]
    exact ⟨hs, Or.inl ⟨rfl, rfl⟩⟩
  | cons u us ih =>
    rw [Model.feedAll]
    by_cases hpos : h.pos < m.seqLen
    · rw [if_pos hpos]
      obtain ⟨hs', hlg⟩ := hs.feed u
      have hlen' : (ts ++ [u]).length ≤ m.seqLen := by
        have := hs.pos
        simp only [List.length_append, List.length_singleton]
        omega
      obtain ⟨hstand, hor⟩ := ih hs' hlen' (some (m.feed h u).2)
      rw [List.append_assoc, List.singleton_append] at hstand hor
      refine ⟨hstand, Or.inr ?_⟩
      rcases hor with ⟨htake, heq⟩ | hsome
      · rw [heq, htake, hlg]
      · exact hsome
    · rw [if_neg hpos]
      have htake : (ts ++ u :: us).take m.seqLen = ts := by
        have := hs.pos
        rw [List.take_append_of_le_length (by omega), List.take_of_length_le hlen]
      rw [htake]
      exact ⟨hs, Or.inl ⟨rfl, rfl⟩⟩

variable [LT F] [DecidableLT F]

/-- The loop that answers gives the continuation of a fresh model. -/
theorem Stands.chatLoop (hs : m.Stands c₀ ts h) (hne : ts ≠ []) {lg : ℕ → F}
    (hlg : lg = m.logits ts) (maxNew left gen : ℕ) (text : List UInt8) :
    m.Stands c₀ (ts ++ m.continuation (min (maxNew - gen) left) ts)
        (m.chatLoop maxNew left h lg gen text).1 ∧
      (m.chatLoop maxNew left h lg gen text).2 =
        (text ++ m.vocab.spell (ts.getLastD 1) (m.continuation (min (maxNew - gen) left) ts),
          gen + (m.continuation (min (maxNew - gen) left) ts).length) := by
  induction left generalizing ts h lg gen text with
  | zero => simpa [Model.chatLoop, continuation, Vocab.spell] using hs
  | succ left ih =>
    rw [Model.chatLoop]
    by_cases hgen : gen < maxNew
    · have hmin : min (maxNew - gen) (left + 1) = min (maxNew - (gen + 1)) left + 1 := by omega
      rw [if_pos hgen, hmin, continuation, hlg]
      by_cases hstop : argmax (m.logits ts) m.vocab.size = 1 ∨ argmax (m.logits ts) m.vocab.size = 2
      · simpa [hstop, Vocab.spell] using hs
      · simp only [hstop, if_false]
        obtain ⟨hs', hlg'⟩ := hs.feed (argmax (m.logits ts) m.vocab.size)
        obtain ⟨hstand, hout⟩ := ih hs' (by simp) hlg' (gen + 1)
          (text ++ m.vocab.emitPiece h.prev (argmax (m.logits ts) m.vocab.size))
        rw [List.append_assoc, List.singleton_append] at hstand
        refine ⟨hstand, ?_⟩
        rw [hout, hs.prev hne, Vocab.spell, List.length_cons]
        simp only [List.append_assoc, List.getLastD_concat]
        congr 1
        omega
    · have hmin : min (maxNew - gen) (left + 1) = 0 := by omega
      rw [if_neg hgen, hmin]
      simpa [continuation, Vocab.spell] using hs

omit [LT F] [DecidableLT F] in
/-- A conversation without tokens begins with BOS. -/
theorem Stands.begin (hs : m.Stands c₀ ts h) (hlen : ts.length ≤ m.seqLen) :
    ∃ us h' lg, us = (if ts = [] then [1] else ts) ∧
      (if h.pos = 0 then ((m.feed h 1).1, some (m.feed h 1).2) else (h, none)) = (h', lg) ∧
      m.Stands c₀ us h' ∧ us.length ≤ m.seqLen ∧ (lg = none → us = ts ∧ h' = h) ∧
      ∀ l, lg = some l → l = m.logits us := by
  by_cases hts : ts = []
  · have hpos : h.pos = 0 := by rw [hs.pos, hts, List.length_nil]
    obtain ⟨hs', hlg⟩ := hs.feed 1
    rw [hts, List.nil_append] at hs' hlg
    refine ⟨[1], _, _, by rw [if_pos hts], if_pos hpos, hs', m.seqLen_pos, by simp, ?_⟩
    intro l hl
    rw [← Option.some.inj hl, hlg]
  · have hpos : ¬ h.pos = 0 := by
      rw [hs.pos, List.length_eq_zero_iff]
      exact hts
    exact ⟨ts, h, none, by rw [if_neg hts], if_neg hpos, hs, hlen, fun _ => ⟨rfl, rfl⟩, by simp⟩

/-- One call of `llm_chat` answers like a fresh model. -/
theorem Stands.llmChat (hs : m.Stands c₀ ts h) (hlen : ts.length ≤ m.seqLen) (c : ChatCall) :
    m.Stands c₀ (m.opened ts c ++ m.answer ts c) (m.llmChat h c).1 ∧
      (m.llmChat h c).2 = m.reply ts c := by
  obtain ⟨us, h', lg, hus, hstart, hs', hlen', hnone, hsome⟩ := hs.begin hlen
  have hne : us ≠ [] := by
    rw [hus]
    split
    · simp
    · assumption
  obtain ⟨hstand, hor⟩ := hs'.feedAll hlen' lg (m.vocab.bpeEncode c.msg 250 false)
  have hopened : (us ++ m.vocab.bpeEncode c.msg 250 false).take m.seqLen = m.opened ts c := by
    rw [opened, hus]
  have hopne : m.opened ts c ≠ [] := by
    rw [← hopened]
    have := m.seqLen_pos
    simp only [ne_eq, List.take_eq_nil_iff, List.append_eq_nil_iff, not_or, not_and]
    exact ⟨by omega, fun hnil => absurd hnil hne⟩
  rw [hopened] at hstand hor
  rw [Model.llmChat]
  simp only [hstart]
  cases hlg : (m.feedAll h' lg (m.vocab.bpeEncode c.msg 250 false)).2 with
  | none =>
    -- nothing was fed: the positions are used up
    rw [hlg] at hor
    obtain ⟨hsame, heq⟩ := hor.resolve_right (by simp)
    rw [heq] at hlg
    obtain ⟨rfl, rfl⟩ := hnone hlg
    have hfull : m.seqLen ≤ us.length := by
      by_contra hlt
      have hblank := m.vocab.bpeEncode_ne_nil m.blank c.msg (by omega : 0 < 250) false
      have hlength := congrArg List.length (hopened.trans hsame)
      rw [List.length_take, List.length_append] at hlength
      have hpos := List.length_pos_iff.mpr hblank
      omega
    have hanswer : m.answer us c = [] := by
      have hzero : min c.maxNew (m.seqLen - us.length) = 0 := by omega
      rw [answer, hsame, hzero, continuation]
    rw [reply, hanswer, hsame, heq]
    simp only [List.append_nil, Vocab.spell, List.take_nil, List.length_nil, and_true]
    exact ⟨hs.cache, hs.pos, hs.prev⟩
  | some l =>
    have hl : l = m.logits (m.opened ts c) := by
      rcases hor with ⟨hsame, heq⟩ | h2
      · rw [heq] at hlg
        rw [hsome l hlg, hsame]
      · rw [hlg] at h2
        exact Option.some.inj h2
    obtain ⟨hstand', hout⟩ := hstand.chatLoop hopne hl c.maxNew
      (m.seqLen - (m.feedAll h' lg (m.vocab.bpeEncode c.msg 250 false)).1.pos) 0 []
    rw [hstand.pos, Nat.sub_zero] at hstand' hout
    simp only [hstand.pos]
    refine ⟨hstand', ?_⟩
    rw [hout, reply, answer]
    simp

end Model

end XinuRpi4.Llm
