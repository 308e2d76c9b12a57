import XinuRpi4.Llm.Generation

/-!
# Merges of the encoder

Each turn of the loop in `bpe_encode` merges the first one of the best pairs of neighbours,
and the loop ends when no two neighbours make a piece. A merge leaves the text as it is.
-/

namespace XinuRpi4.Llm

namespace Vocab

variable {F : Type} (v : Vocab F) {ts ts' : List ℕ} {i id : ℕ}

/-- The text of the pieces one behind the other. -/
def text (ts : List ℕ) : List UInt8 := ts.flatMap v.piece

/-- The neighbours at `i` are short enough and make the piece `id`. -/
def Mergeable (ts : List ℕ) (i id : ℕ) : Prop :=
  ∃ a b, ts[i]? = some a ∧ ts[i + 1]? = some b ∧
    (v.piece a).length + (v.piece b).length ≤ 15 ∧
    v.findPiece (v.piece a ++ v.piece b) = some id

variable [LinearOrder F]

/-- The first pair of the highest score has become one token. -/
def MergesBest (ts ts' : List ℕ) : Prop :=
  ∃ i id, v.Mergeable ts i id ∧
    (∀ j id', v.Mergeable ts j id' → v.score id' ≤ v.score id) ∧
    (∀ j < i, ∀ id', v.Mergeable ts j id' → v.score id' < v.score id) ∧
    ts' = ts.take i ++ id :: ts.drop (i + 2)

/-- What the search for the best pair finds beyond `best`, counted from position `i`. -/
def FindsBest (best : F) (found : Option (ℕ × ℕ)) (i : ℕ) (ts : List ℕ)
    (r : Option (ℕ × ℕ)) : Prop :=
  (r = found ∧ ∀ j id, v.Mergeable ts j id → v.score id ≤ best) ∨
  ∃ k id, r = some (i + k, id) ∧ v.Mergeable ts k id ∧ best < v.score id ∧
    (∀ j id', v.Mergeable ts j id' → v.score id' ≤ v.score id) ∧
    ∀ j < k, ∀ id', v.Mergeable ts j id' → v.score id' < v.score id

section Search

omit [LinearOrder F]

theorem findPiece_spec {s : List UInt8} (h : v.findPiece s = some id) :
    id < v.size ∧ v.piece id = s := by
  refine ⟨List.mem_range.mp (List.mem_of_find?_eq_some h), ?_⟩
  simpa using List.find?_some h

theorem findPiece_none {s : List UInt8} (h : v.findPiece s = none) :
    ∀ id < v.size, v.piece id ≠ s := by
  intro id hid
  simpa using List.find?_eq_none.mp h id (List.mem_range.mpr hid)

theorem mergeable_succ (a : ℕ) : v.Mergeable (a :: ts) (i + 1) id ↔ v.Mergeable ts i id := by
  simp [Mergeable]

theorem mergeable_zero (a b : ℕ) : v.Mergeable (a :: b :: ts) 0 id ↔
    (v.piece a).length + (v.piece b).length ≤ 15 ∧
      v.findPiece (v.piece a ++ v.piece b) = some id := by
  simp [Mergeable]

theorem Mergeable.lt (h : v.Mergeable ts i id) : i + 1 < ts.length := by
  obtain ⟨a, b, -, hb, -⟩ := h
  exact (List.getElem?_eq_some_iff.mp hb).1

theorem Mergeable.unique {id' : ℕ} (h : v.Mergeable ts i id) (h' : v.Mergeable ts i id') :
    id' = id := by
  obtain ⟨a, b, ha, hb, -, hid⟩ := h
  obtain ⟨a', b', ha', hb', -, hid'⟩ := h'
  obtain rfl : a = a' := Option.some_injective _ (ha.symm.trans ha')
  obtain rfl : b = b' := Option.some_injective _ (hb.symm.trans hb')
  exact Option.some_injective _ (hid'.symm.trans hid)

end Search

/-- The pair in front is left out or is not better than what has been found. -/
theorem FindsBest.skip {best : F} {found r : Option (ℕ × ℕ)} {a : ℕ}
    (hfront : ∀ id, v.Mergeable (a :: ts) 0 id → v.score id ≤ best)
    (h : v.FindsBest best found (i + 1) ts r) : v.FindsBest best found i (a :: ts) r := by
  rcases h with ⟨hr, hall⟩ | ⟨k, id, hr, hk, hbest, hall, hfirst⟩
  · refine .inl ⟨hr, fun j id hj => ?_⟩
    cases j with
    | zero => exact hfront id hj
    | succ j => exact hall j id ((v.mergeable_succ a).mp hj)
  · refine .inr ⟨k + 1, id, ?_, (v.mergeable_succ a).mpr hk, hbest, ?_, ?_⟩
    · rw [hr, Nat.add_right_comm, Nat.add_assoc]
    · intro j id' hj
      cases j with
      | zero => exact (hfront id' hj).trans hbest.le
      | succ j => exact hall j id' ((v.mergeable_succ a).mp hj)
    · intro j hjk id' hj
      cases j with
      | zero => exact (hfront id' hj).trans_lt hbest
      | succ j => exact hfirst j (by omega) id' ((v.mergeable_succ a).mp hj)

/-- The pair in front is better than what has been found. -/
theorem FindsBest.take {best : F} {found r : Option (ℕ × ℕ)} {a : ℕ}
    (hfront : v.Mergeable (a :: ts) 0 id) (hbest : best < v.score id)
    (h : v.FindsBest (v.score id) (some (i, id)) (i + 1) ts r) :
    v.FindsBest best found i (a :: ts) r := by
  rcases h with ⟨hr, hall⟩ | ⟨k, id', hr, hk, hbest', hall, hfirst⟩
  · refine .inr ⟨0, id, hr, hfront, hbest, fun j id' hj => ?_, fun j hj => absurd hj (by omega)⟩
    cases j with
    | zero => rw [hfront.unique v hj]
    | succ j => exact hall j id' ((v.mergeable_succ a).mp hj)
  · refine .inr ⟨k + 1, id', ?_, (v.mergeable_succ a).mpr hk, hbest.trans hbest', ?_, ?_⟩
    · rw [hr, Nat.add_right_comm, Nat.add_assoc]
    · intro j id'' hj
      cases j with
      | zero => rw [hfront.unique v hj]; exact hbest'.le
      | succ j => exact hall j id'' ((v.mergeable_succ a).mp hj)
    · intro j hjk id'' hj
      cases j with
      | zero => rw [hfront.unique v hj]; exact hbest'
      | succ j => exact hfirst j (by omega) id'' ((v.mergeable_succ a).mp hj)

theorem findsBest_short (best : F) (found : Option (ℕ × ℕ)) (i : ℕ) (h : ts.length < 2) :
    v.FindsBest best found i ts found :=
  .inl ⟨rfl, fun _ _ hj => absurd (hj.lt v) (by omega)⟩

theorem bestMerge_finds (ts : List ℕ) (best : F) (found : Option (ℕ × ℕ)) (i : ℕ) :
    v.FindsBest best found i ts (v.bestMerge best found i ts) := by
  induction ts generalizing best found i with
  | nil => exact v.findsBest_short best found i Nat.two_pos
  | cons a ts ih =>
    cases ts with
    | nil => exact v.findsBest_short best found i Nat.one_lt_two
    | cons b ts =>
      rw [bestMerge]
      split_ifs with hlen
      · exact .skip v (fun id h => absurd ((v.mergeable_zero a b).mp h).1 (by omega)) (ih _ _ _)
      · split
        · next id hid =>
          have hfront : v.Mergeable (a :: b :: ts) 0 id :=
            (v.mergeable_zero a b).mpr ⟨by omega, hid⟩
          split_ifs with hbest
          · exact .take v hfront hbest (ih _ _ _)
          · refine .skip v (fun id' h => ?_) (ih _ _ _)
            rw [hfront.unique v h]
            exact not_lt.mp hbest
        · next hnone =>
          refine .skip v (fun id h => ?_) (ih _ _ _)
          rw [mergeable_zero, hnone] at h
          cases h.2

theorem MergesBest.length (h : v.MergesBest ts ts') : ts'.length + 1 = ts.length := by
  obtain ⟨i, id, hi, -, -, rfl⟩ := h
  have hlt := hi.lt
  simp only [List.length_append, List.length_take, List.length_cons, List.length_drop]
  omega

theorem MergesBest.text (h : v.MergesBest ts ts') : v.text ts' = v.text ts := by
  obtain ⟨i, id, ⟨a, b, ha, hb, -, hid⟩, -, -, rfl⟩ := h
  obtain ⟨hi, rfl⟩ := List.getElem?_eq_some_iff.mp ha
  obtain ⟨hi', rfl⟩ := List.getElem?_eq_some_iff.mp hb
  have hsplit : ts = ts.take i ++ ts[i] :: ts[i + 1] :: ts.drop (i + 2) := by
    rw [List.getElem_cons_drop, List.getElem_cons_drop, List.take_append_drop]
  rw [Vocab.text, Vocab.text, List.flatMap_append, List.flatMap_cons, (v.findPiece_spec hid).2]
  conv_rhs => rw [hsplit]
  rw [List.flatMap_append, List.flatMap_cons, List.flatMap_cons, List.append_assoc]

/-- The turns of the loop up to its end, when there is fuel for each token. -/
theorem mergeAll_run (hscore : ∀ id < v.size, v.lowest < v.score id) {n : ℕ}
    (h : ts.length ≤ n) :
    Relation.ReflTransGen v.MergesBest ts (v.mergeAll n ts) ∧
      ∀ i id, ¬ v.Mergeable (v.mergeAll n ts) i id := by
  induction n generalizing ts with
  | zero => exact ⟨.refl, fun i id hi => absurd (hi.lt v) (by rw [mergeAll]; omega)⟩
  | succ n ih =>
    rw [mergeAll]
    rcases v.bestMerge_finds ts v.lowest none 0 with ⟨hr, hall⟩ | ⟨k, id, hr, hk, -, hall, hfirst⟩
    · rw [hr]
      refine ⟨.refl, fun i id hi => ?_⟩
      have hle := hall i id hi
      obtain ⟨a, b, -, -, -, hid⟩ := hi
      exact hle.not_gt (hscore id (v.findPiece_spec hid).1)
    · rw [hr, Nat.zero_add]
      have hstep : v.MergesBest ts (ts.take k ++ id :: ts.drop (k + 2)) :=
        ⟨k, id, hk, hall, hfirst, rfl⟩
      have hlen : (ts.take k ++ id :: ts.drop (k + 2)).length ≤ n := by
        have hone := hstep.length
        omega
      obtain ⟨hrun, hend⟩ := ih hlen
      exact ⟨.head hstep hrun, hend⟩

theorem length_le_of_run (h : Relation.ReflTransGen v.MergesBest ts ts') :
    ts'.length ≤ ts.length := by
  induction h with
  | refl => exact le_rfl
  | tail _ hstep ih =>
    have hlen := hstep.length
    omega

theorem text_of_run (h : Relation.ReflTransGen v.MergesBest ts ts') : v.text ts' = v.text ts := by
  induction h with
  | refl => rfl
  | tail _ hstep ih => rw [hstep.text, ih]

/-- The characters of a blank and the prompt that have a piece. -/
def pieceChars (prompt : List UInt8) : List UInt8 :=
  (0x20 :: prompt.take 255).filter fun c => (v.findPiece [c]).isSome

/-- The tokens before the first merge. -/
def singles (prompt : List UInt8) (maxtoks : ℕ) (withBos : Bool) : List ℕ :=
  let bos := if withBos then [1] else []
  bos ++ ((v.pieceChars prompt).take (maxtoks - bos.length)).filterMap fun c => v.findPiece [c]

section Singles

omit [LinearOrder F]

theorem filterMap_findPiece (cs : List UInt8) (n : ℕ) :
    (cs.filterMap fun c => v.findPiece [c]).take n =
      ((cs.filter fun c => (v.findPiece [c]).isSome).take n).filterMap fun c => v.findPiece [c] := by
  induction cs generalizing n with
  | nil => simp
  | cons c cs ih =>
    cases hc : v.findPiece [c] with
    | none => simp [hc, ih]
    | some id =>
      cases n with
      | zero => rfl
      | succ n => simp [hc, ih]

theorem text_singles {cs : List UInt8} (h : ∀ c ∈ cs, (v.findPiece [c]).isSome) :
    v.text (cs.filterMap fun c => v.findPiece [c]) = cs := by
  induction cs with
  | nil => rfl
  | cons c cs ih =>
    obtain ⟨id, hid⟩ := Option.isSome_iff_exists.mp (h c List.mem_cons_self)
    have htail := ih fun c' hc' => h c' (List.mem_cons_of_mem c hc')
    rw [List.filterMap_cons]
    simp only [hid]
    rw [text, List.flatMap_cons, (v.findPiece_spec hid).2]
    exact congrArg (c :: ·) htail

theorem singles_length_le (prompt : List UInt8) {maxtoks : ℕ} {withBos : Bool}
    (hmax : withBos = true → 0 < maxtoks) : (v.singles prompt maxtoks withBos).length ≤ maxtoks := by
  rw [singles, List.length_append]
  have hfilter := List.length_filterMap_le (fun c => v.findPiece [c])
    ((v.pieceChars prompt).take (maxtoks - (if withBos then [1] else []).length))
  have htake := List.length_take_le (maxtoks - (if withBos then [1] else []).length)
    (v.pieceChars prompt)
  cases withBos with
  | true => simp at *; omega
  | false => simp at *; omega

end Singles

/-- The encoder ends with a text of at most so many tokens that no merge is left for; each turn has
merged the first of the best pairs, and the text is that of the single characters. -/
theorem bpe_encode_merges (hscore : ∀ id < v.size, v.lowest < v.score id) (prompt : List UInt8)
    (maxtoks : ℕ) (withBos : Bool) (hmax : withBos = true → 0 < maxtoks) :
    (v.bpeEncode prompt maxtoks withBos).length ≤ maxtoks ∧
    (withBos = false → v.text (v.bpeEncode prompt maxtoks withBos) =
      (v.pieceChars prompt).take maxtoks) ∧
    Relation.ReflTransGen v.MergesBest (v.singles prompt maxtoks withBos)
      (v.bpeEncode prompt maxtoks withBos) ∧
    ∀ i a b, (v.bpeEncode prompt maxtoks withBos)[i]? = some a →
      (v.bpeEncode prompt maxtoks withBos)[i + 1]? = some b →
      (v.piece a).length + (v.piece b).length ≤ 15 →
      ∀ id < v.size, v.piece id ≠ v.piece a ++ v.piece b := by
  have hsingles : v.bpeEncode prompt maxtoks withBos = v.mergeAll
      (v.singles prompt maxtoks withBos).length (v.singles prompt maxtoks withBos) := by
    rw [bpeEncode, filterMap_findPiece]
    rfl
  obtain ⟨hrun, hend⟩ := v.mergeAll_run hscore (le_refl (v.singles prompt maxtoks withBos).length)
  rw [← hsingles] at hrun hend
  refine ⟨(v.length_le_of_run hrun).trans (v.singles_length_le prompt hmax), ?_, hrun, ?_⟩
  · rintro rfl
    rw [v.text_of_run hrun]
    exact v.text_singles fun c hc => (List.mem_filter.mp (List.mem_of_mem_take hc)).2
  · intro i a b ha hb hlen
    cases hid : v.findPiece (v.piece a ++ v.piece b) with
    | none => exact v.findPiece_none hid
    | some id => exact absurd ⟨a, b, ha, hb, hlen, hid⟩ (hend i id)

end Vocab

/-- Three letters and the two pieces that begin with them. -/
def fewPieces : Vocab ℕ where
  size := 5
  piece i := [[0x20], [0x61], [0x62], [0x61, 0x62], [0x20, 0x61]].getD i []
  score i := if i = 3 then 2 else 1
  lowest := 0

theorem bpe_encode_merges_few :
    (fewPieces.bpeEncode [0x61, 0x62] 250 false).length ≤ 250 ∧
    fewPieces.text (fewPieces.bpeEncode [0x61, 0x62] 250 false) = [0x20, 0x61, 0x62] ∧
    Relation.ReflTransGen fewPieces.MergesBest (fewPieces.singles [0x61, 0x62] 250 false) [0, 3] ∧
    ∀ id < 5, fewPieces.piece id ≠ [0x20, 0x61, 0x62] := by
  obtain ⟨hlen, htext, hmerges, hend⟩ :=
    Vocab.bpe_encode_merges fewPieces (by decide) [0x61, 0x62] 250 false (by decide)
  have htokens : fewPieces.bpeEncode [0x61, 0x62] 250 false = [0, 3] := by decide
  rw [htokens] at hmerges hend
  exact ⟨hlen, htext rfl, hmerges, hend 0 0 3 rfl rfl (by decide)⟩

end XinuRpi4.Llm
