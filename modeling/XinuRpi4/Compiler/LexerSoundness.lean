import XinuRpi4.Compiler.LexerMunch

/-!
# Soundness of the lexer

Where no lexeme begins, the round is an error, or the text ends there in a literal that is
cut off. So the lexer is sound for exactly the texts that do not end in this way.
-/

namespace XinuRpi4.Compiler.Lexer

open Foundation

section Stuck

variable {c : UInt8} {text tl rest : List UInt8}

theorem begins_intro {l : Lexeme} (hv : l.Valid) (r : List UInt8) (h : text = l.spelling ++ r) :
    lexicon.Begins l text := ⟨hv, ⟨r, h.symm⟩⟩

theorem peek_eq {d : UInt8} (hd : d ≠ 0) (h : peek tl = d) : ∃ r, tl = d :: r := by
  cases tl with
  | nil => exact absurd h.symm hd
  | cons x r => exact ⟨r, by rw [← h]; rfl⟩

/-- A char literal, an error, or a read behind the NUL. -/
theorem charLit_cases (p : List UInt8) :
    (charLit p = none ∧ (p = [] ∨ p = [backslash])) ∨ charLit p = some none ∨
      ∃ (x : LitChar) (r : List UInt8), x.Ok none ∧ p = x.spelling ++ quote :: r := by
  match p with
  | [] => exact Or.inl ⟨rfl, Or.inl rfl⟩
  | [c] =>
    by_cases hc : c = backslash
    · subst hc
      exact Or.inl ⟨rfl, Or.inr rfl⟩
    · refine Or.inr (Or.inl ?_)
      have h0 : (0 : UInt8) ≠ quote := by decide
      simp [charLit, deref, next, peek, hc, h0]
  | [c, d] =>
    by_cases hc : c = backslash
    · subst hc
      exact Or.inr (Or.inl rfl)
    · by_cases hd : d = quote
      · subst hd
        exact Or.inr (Or.inr ⟨.plain c, [], ⟨hc, by simp⟩, rfl⟩)
      · refine Or.inr (Or.inl ?_)
        simp [charLit, deref, next, peek, hc, hd]
  | c :: d :: e :: r =>
    by_cases hc : c = backslash
    · subst hc
      by_cases he : e = quote
      · subst he
        exact Or.inr (Or.inr ⟨.escaped d, r, trivial, rfl⟩)
      · refine Or.inr (Or.inl ?_)
        simp [charLit, deref, next, peek, readEscape, he]
    · by_cases hd : d = quote
      · subst hd
        exact Or.inr (Or.inr ⟨.plain c, e :: r, ⟨hc, by simp⟩, rfl⟩)
      · refine Or.inr (Or.inl ?_)
        simp [charLit, deref, next, peek, hc, hd]

/-- The loop over a string literal stops behind some bytes and escapes, or behind the NUL. -/
theorem strLoop_cases (p buf : List UInt8) (k : ℕ) (h0 : 0 ∉ p) :
    ∃ xs : List LitChar, (∀ x ∈ xs, x.Ok (some dquote)) ∧
      ((strLoop (some p) buf k = none ∧ xs.length < k ∧ p = litSpelling xs ++ [backslash]) ∨
        ∃ buf' q, strLoop (some p) buf k = some (buf', some q) ∧ xs.length ≤ k ∧
          p = litSpelling xs ++ q) := by
  induction k generalizing p buf with
  | zero => exact ⟨[], by simp, Or.inr ⟨buf, p, rfl, le_rfl, rfl⟩⟩
  | succ k ih =>
    match p with
    | [] => exact ⟨[], by simp, Or.inr ⟨buf, [], rfl, Nat.zero_le _, rfl⟩⟩
    | c :: r =>
      rw [List.mem_cons, not_or] at h0
      by_cases hq : c = dquote
      · subst hq
        exact ⟨[], by simp, Or.inr ⟨buf, dquote :: r, rfl, Nat.zero_le _, rfl⟩⟩
      by_cases hb : c = backslash
      · subst hb
        match r with
        | [] =>
          refine ⟨[], by simp, Or.inl ⟨?_, Nat.succ_pos k, rfl⟩⟩
          cases k with
          | zero => rfl
          | succ k => rfl
        | e :: r =>
          have hstep : strLoop (some (backslash :: e :: r)) buf (k + 1) =
              strLoop (some r) (buf ++ [unescape e]) k := rfl
          obtain ⟨xs, hxs, hcases⟩ := ih r (buf ++ [unescape e]) fun h =>
            h0.2 (List.mem_cons_of_mem _ h)
          refine ⟨.escaped e :: xs, List.forall_mem_cons.mpr ⟨trivial, hxs⟩, ?_⟩
          rw [hstep]
          obtain ⟨hnone, hlt, rfl⟩ | ⟨buf', q, hsome, hle, rfl⟩ := hcases
          · exact Or.inl ⟨hnone, Nat.succ_lt_succ hlt, rfl⟩
          · exact Or.inr ⟨buf', q, hsome, Nat.succ_le_succ hle, rfl⟩
      · have hstep : strLoop (some (c :: r)) buf (k + 1) = strLoop (some r) (buf ++ [c]) k := by
          simp only [strLoop, deref, Option.map_some, peek, Option.bind_eq_bind, Option.bind_some,
            next]
          rw [if_neg (by simp [Ne.symm h0.1, hq]), if_neg hb]
        obtain ⟨xs, hxs, hcases⟩ := ih r (buf ++ [c]) h0.2
        have hok : (LitChar.plain c).Ok (some dquote) := ⟨hb, fun h => hq (Option.some.inj h)⟩
        refine ⟨.plain c :: xs, List.forall_mem_cons.mpr ⟨hok, hxs⟩, ?_⟩
        rw [hstep]
        obtain ⟨hnone, hlt, rfl⟩ | ⟨buf', q, hsome, hle, rfl⟩ := hcases
        · exact Or.inl ⟨hnone, Nat.succ_lt_succ hlt, rfl⟩
        · exact Or.inr ⟨buf', q, hsome, Nat.succ_le_succ hle, rfl⟩

/-- Where no lexeme begins, the round is an error, unless a literal is cut off. -/
theorem round_stuck (h : ∀ l, ¬ lexicon.Begins l (c :: tl)) (h0 : 0 ∉ c :: tl) :
    (∃ msg, round c tl = .error msg) ∨ CutLiteral (c :: tl) := by
  have hspace : isSpace c = false := by
    by_contra hc
    rw [Bool.not_eq_false] at hc
    exact h (.space c) (begins_intro hc tl rfl)
  have hdigit : isDigit c = false := by
    by_contra hc
    rw [Bool.not_eq_false] at hc
    have hv : (Lexeme.number [c]).Valid := ⟨List.cons_ne_nil _ _, by simpa using hc⟩
    exact h _ (begins_intro hv tl rfl)
  have halpha : isAlpha c = false := by
    by_contra hc
    rw [Bool.not_eq_false] at hc
    have hv : (Lexeme.word [c]).Valid := ⟨by simpa using hc, by simp [isAlnum, hc]⟩
    exact h _ (begins_intro hv tl rfl)
  have hslash : c ≠ slash := by
    rintro rfl
    have hv : (Lexeme.punct [slash]).Valid := Or.inr ⟨slash, by decide, rfl⟩
    exact h _ (begins_intro hv tl rfl)
  by_cases hquote : c = quote
  · subst hquote
    obtain ⟨-, rfl | rfl⟩ | herr | ⟨x, r, hx, rfl⟩ := charLit_cases tl
    · exact Or.inr (Or.inl rfl)
    · exact Or.inr (Or.inr (Or.inl rfl))
    · exact Or.inl ⟨_, by rw [round_quote, herr]⟩
    · exact absurd (begins_intro (l := .charLit x) hx r (by simp [Lexeme.spelling])) (h _)
  by_cases hdquote : c = dquote
  · subst hdquote
    have h0' : 0 ∉ tl := fun h' => h0 (List.mem_cons_of_mem _ h')
    obtain ⟨xs, hxs, ⟨-, hlt, rfl⟩ | ⟨buf, q, hloop, hle, rfl⟩⟩ := strLoop_cases tl [] strMax h0'
    · exact Or.inr (Or.inr (Or.inr ⟨xs, hxs, hlt, rfl⟩))
    · have hq : peek q ≠ dquote := by
        intro hq
        obtain ⟨r, rfl⟩ := peek_eq (by decide) hq
        exact h (.strLit xs) (begins_intro ⟨hxs, hle⟩ r (by simp [Lexeme.spelling]))
      refine Or.inl ⟨"unterminated string literal", ?_⟩
      rw [round_dquote, strLit, hloop]
      simp [deref, hq]
  · have hround := @round_punct c tl ⟨hspace, hdigit, hquote, hdquote, halpha⟩
      (fun h' => hslash h'.1)
    have htwo : (two.find? fun t => t == [c, peek tl]) = none := by
      cases hf : two.find? fun t => t == [c, peek tl] with
      | none => rfl
      | some t =>
        exfalso
        have ht := (mem_of_find_two hf).2
        obtain ⟨a, b, hab, -, -, hb⟩ := two_first _ ht
        cases hab
        obtain ⟨r, hr⟩ := peek_eq hb rfl
        refine h (.punct [c, peek tl]) (begins_intro (Or.inl ht) r ?_)
        exact congrArg (c :: ·) hr
    have hsingle : single.contains c = false := by
      by_contra hc
      rw [Bool.not_eq_false, List.contains_iff_mem] at hc
      have hv : (Lexeme.punct [c]).Valid := Or.inr ⟨c, hc, rfl⟩
      exact h _ (begins_intro hv tl rfl)
    refine Or.inl ⟨"unexpected character '" ++ String.singleton (Char.ofNat c.toNat) ++ "'", ?_⟩
    rw [hround, punct, htwo]
    exact if_neg (by rw [hsingle]; exact Bool.false_ne_true)

/-- In a literal that is cut off the lexer reads behind the NUL. -/
theorem round_cut (h : CutLiteral text) (h0 : 0 ∉ text) :
    ∃ c tl, text = c :: tl ∧ round c tl = .beyond := by
  obtain rfl | rfl | ⟨xs, hxs, hlt, rfl⟩ := h
  · exact ⟨quote, [], rfl, rfl⟩
  · exact ⟨quote, [backslash], rfl, rfl⟩
  · refine ⟨dquote, _, rfl, ?_⟩
    obtain ⟨k, hk⟩ : ∃ k, strMax = xs.length + (k + 1) := ⟨strMax - xs.length - 1, by omega⟩
    have h0' : 0 ∉ litSpelling xs := fun h' => h0 (by simp [h'])
    have hloop := strLoop_litSpelling xs [backslash] [] (k + 1) hxs h0'
    have hend : strLoop (some [backslash]) ([] ++ xs.map LitChar.value) (k + 1) = none := by
      cases k with
      | zero => rfl
      | succ k => rfl
    rw [round_dquote, strLit, hk, hloop, hend]
    rfl

end Stuck

section Run

variable {text tail : List UInt8} {ls : List Lexeme}

/-- The run takes the text apart as maximal munch does. -/
theorem lexLoop_munch (hm : lexicon.Munch text ls tail) (h0 : 0 ∉ text) (n : ℕ)
    (toks : List LexToken) (s : LexState) :
    ∃ s', lexLoop (ls.length + n) text toks s =
      lexLoop n tail (toks ++ ls.filterMap Lexeme.token) s' := by
  induction hm generalizing toks s with
  | nil text => exact ⟨s, by simp⟩
  | @cons l text rest tail ls hl hrest hm ih =>
    obtain ⟨c, tl, rfl, htakes⟩ := takes_of_longest hl hrest h0
    have h0' : 0 ∉ rest := fun h => h0 (hrest ▸ List.mem_append_right _ h)
    rw [List.length_cons, show ls.length + 1 + n = ls.length + n + 1 by omega, lexLoop]
    unfold Takes at htakes
    cases ht : l.token with
    | none =>
      rw [ht] at htakes
      obtain ⟨s', hs'⟩ := ih h0' toks s
      refine ⟨s', ?_⟩
      rw [htakes, List.filterMap_cons_none ht]
      exact hs'
    | some t =>
      rw [ht] at htakes
      obtain ⟨blocks, hround⟩ := htakes
      obtain ⟨s', hs'⟩ := ih h0' (toks ++ [t]) (blocks.foldl LexState.alloc s)
      refine ⟨s', ?_⟩
      rw [hround, List.filterMap_cons_some ht]
      rw [List.append_assoc, List.singleton_append] at hs'
      exact hs'

theorem munch_zero_notMem (hm : lexicon.Munch text ls tail) (h0 : 0 ∉ text) : 0 ∉ tail := by
  intro h
  rw [hm.flatten] at h0
  exact h0 (List.mem_append_right _ h)

/-- The lexer is sound for a text exactly when the text does not end in a literal that is
cut off. -/
theorem lexesSoundly_iff (src : CText) (s : LexState) : LexesSoundly src s ↔ ¬ CutOff src := by
  constructor
  · rintro hsound ⟨ls, tail, hm, hcut⟩
    have h0 := munch_zero_notMem hm src.2
    obtain ⟨c, tl, rfl, hround⟩ := round_cut hcut h0
    obtain ⟨s', hrun⟩ := lexLoop_munch hm src.2 (src.1.length + 1) [] s
    obtain ⟨r, s'', hdone, -⟩ := hsound (ls.length + (src.1.length + 1)) (by omega)
    rw [ccLex, hrun, lexLoop, hround] at hdone
    cases hdone
  · intro hcut n hn
    obtain ⟨ls, tail, hm, hstuck⟩ := lexicon.exists_munch src.1
    have hlen := hm.length_le
    obtain ⟨k, rfl⟩ : ∃ k, n = ls.length + (k + 1) := ⟨n - ls.length - 1, by omega⟩
    obtain ⟨s', hrun⟩ := lexLoop_munch hm src.2 (k + 1) [] s
    have h0 := munch_zero_notMem hm src.2
    rw [ccLex, hrun]
    cases tail with
    | nil =>
      refine ⟨_, _, rfl, Or.inr ⟨_, ls, rfl, ?_, hm, rfl⟩⟩
      have hflat := hm.flatten
      rw [List.append_nil] at hflat
      exact hflat.symm
    | cons c tl =>
      obtain ⟨msg, hround⟩ | hlit := round_stuck hstuck h0
      · refine ⟨none, s'.fail msg, ?_, Or.inl ?_⟩
        · rw [lexLoop, hround]
        · unfold LexState.fail
          cases s'.err with
          | none => rfl
          | some e => rfl
      · exact absurd ⟨ls, _, hm, hlit⟩ hcut

/-- A text that is one single quote. -/
theorem quote_at_end_read_past : ¬ ∀ (src : CText) (s : LexState), LexesSoundly src s := by
  intro hall
  let arena : Arena := { base := 0, cap := 0, pos := 0, sink := 0, served := [] }
  let s : LexState := { err := none, arena := arena }
  obtain ⟨r, s', hdone, -⟩ := hall ⟨[quote], by decide⟩ s 2 (by decide)
  have hrun : ccLex 2 [quote] s = .beyond := rfl
  rw [hrun] at hdone
  cases hdone

end Run

end XinuRpi4.Compiler.Lexer
