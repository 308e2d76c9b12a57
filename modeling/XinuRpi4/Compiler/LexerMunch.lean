import XinuRpi4.Compiler.Lexer

/-!
# The lexer takes the longest lexemes

One round of the lexer consumes the longest lexeme at its place, so a whole run takes the
text apart by maximal munch. Where no lexeme begins the lexer records an error, unless the
text ends in a literal at a place where the lexer does not look for the NUL.
-/

namespace XinuRpi4.Compiler.Lexer

open Foundation

section Bytes

theorem forall_byte {P : UInt8 → Prop} (h : ∀ n : Fin 256, P (UInt8.ofFin n)) (c : UInt8) : P c :=
  h c.toFin

theorem isDigit_first : ∀ c : UInt8, isDigit c = true → isSpace c = false ∧ c ≠ slash :=
  forall_byte (by decide +kernel)

theorem isAlpha_first : ∀ c : UInt8, isAlpha c = true →
    isSpace c = false ∧ c ≠ slash ∧ isDigit c = false ∧ c ≠ quote ∧ c ≠ dquote :=
  forall_byte (by decide +kernel)

/-- The first byte of a punctuator begins no other lexeme, unless a comment. -/
def PunctFirst (c : UInt8) : Prop :=
  isSpace c = false ∧ isDigit c = false ∧ c ≠ quote ∧ c ≠ dquote ∧ isAlpha c = false

instance (c : UInt8) : Decidable (PunctFirst c) := inferInstanceAs (Decidable (_ ∧ _))

theorem single_first : ∀ c ∈ single, PunctFirst c := by decide +kernel

theorem two_first : ∀ t ∈ two, ∃ a b, t = [a, b] ∧ PunctFirst a ∧ a ≠ slash ∧ b ≠ 0 := by
  have h : ∀ t ∈ two, ∃ a ∈ t.head?, ∃ b ∈ t.tail.head?,
      t = [a, b] ∧ PunctFirst a ∧ a ≠ slash ∧ b ≠ 0 := by decide +kernel
  intro t ht
  obtain ⟨a, -, b, -, hab⟩ := h t ht
  exact ⟨a, b, hab⟩

theorem value_escaped : ∀ c : UInt8, (LitChar.escaped c).value = unescape c :=
  forall_byte (by decide +kernel)

end Bytes

section Loops

variable {xs ys : List UInt8}

theorem lineEnd_append (h : newline ∉ xs) : lineEnd (xs ++ ys) = lineEnd ys := by
  induction xs with
  | nil => rfl
  | cons x xs ih =>
    rw [List.mem_cons, not_or] at h
    rw [List.cons_append, lineEnd, if_neg (Ne.symm h.1), ih h.2]

/-- The byte behind a star does not close the comment. -/
theorem not_closed {x : UInt8} (h : ¬ [star, slash] <:+: x :: xs) :
    ¬ (x = star ∧ peek xs = slash) := by
  rintro ⟨rfl, hpeek⟩
  cases xs with
  | nil => exact absurd hpeek (by decide)
  | cons y xs =>
    obtain rfl : y = slash := hpeek
    exact h ⟨[], xs, rfl⟩

theorem blockEnd_closed (h : ¬ [star, slash] <:+: xs) :
    blockEnd (xs ++ star :: slash :: ys) = ys := by
  induction xs with
  | nil => rfl
  | cons x xs ih =>
    have hnot : ¬ (x = star ∧ peek (xs ++ star :: slash :: ys) = slash) := by
      cases xs with
      | nil =>
        rintro ⟨-, hpeek⟩
        exact absurd (show star = slash from hpeek) (by decide)
      | cons y xs =>
        rintro ⟨rfl, hpeek⟩
        obtain rfl : y = slash := hpeek
        exact h ⟨[], xs, rfl⟩
    rw [List.cons_append, blockEnd, if_neg hnot]
    exact ih fun hin => h (hin.trans (List.suffix_cons x xs).isInfix)

theorem blockEnd_open (h : ¬ [star, slash] <:+: xs) : blockEnd xs = [] := by
  induction xs with
  | nil => rfl
  | cons x xs ih =>
    rw [blockEnd, if_neg (not_closed h)]
    exact ih fun hin => h (hin.trans (List.suffix_cons x xs).isInfix)

theorem numLoop_append (hxs : ∀ d ∈ xs, isDigit d = true) (hys : isDigit (peek ys) = false) (v : ℕ) :
    numLoop (BitVec.ofNat 64 v) (xs ++ ys) =
      (BitVec.ofNat 64 (horner 10 v (xs.map fun d => (d - 48).toNat)), ys) := by
  induction xs generalizing v with
  | nil =>
    cases ys with
    | nil => rfl
    | cons y ys =>
      rw [List.nil_append, numLoop, if_neg (by rw [peek] at hys; simp [hys])]
      rfl
  | cons x xs ih =>
    have hstep : BitVec.ofNat 64 v * 10 + BitVec.ofNat 64 (x - 48).toNat =
        BitVec.ofNat 64 (v * 10 + (x - 48).toNat) := by
      rw [BitVec.ofNat_add, BitVec.ofNat_mul]
      rfl
    rw [List.cons_append, numLoop, if_pos (hxs x List.mem_cons_self), hstep,
      ih fun d hd => hxs d (List.mem_cons_of_mem _ hd)]
    rfl

theorem kwMatch_iff (k s : List UInt8) : kwMatch k s = true ↔ k = s := by
  induction k generalizing s with
  | nil => cases s <;> simp [kwMatch]
  | cons a k ih =>
    cases s with
    | nil => simp [kwMatch]
    | cons b s =>
      rw [kwMatch, List.cons.injEq]
      split_ifs with hab
      · rw [ih]
        exact ⟨fun h => ⟨hab, h⟩, fun h => h.2⟩
      · simp [hab]

theorem isKeyword_iff (s : List UInt8) : isKeyword s = true ↔ s ∈ kwTab := by
  rw [isKeyword, List.any_eq_true]
  constructor
  · rintro ⟨k, hk, hmatch⟩
    exact (kwMatch_iff k s).mp hmatch ▸ hk
  · exact fun hs => ⟨s, hs, (kwMatch_iff s s).mpr rfl⟩

/-- The loop over a string literal goes on behind some of its bytes and escapes. -/
theorem strLoop_litSpelling (ls : List LitChar) (tail buf : List UInt8) (k : ℕ)
    (hok : ∀ x ∈ ls, x.Ok (some dquote)) (h0 : 0 ∉ litSpelling ls) :
    strLoop (some (litSpelling ls ++ tail)) buf (ls.length + k) =
      strLoop (some tail) (buf ++ ls.map LitChar.value) k := by
  induction ls generalizing buf with
  | nil => simp [litSpelling]
  | cons x ls ih =>
    have hspell : litSpelling (x :: ls) = x.spelling ++ litSpelling ls := rfl
    rw [hspell, List.mem_append, not_or] at h0
    have hrest := fun b => ih b (fun y hy => hok y (List.mem_cons_of_mem _ hy)) h0.2
    have hx := hok x List.mem_cons_self
    rw [hspell, List.length_cons, show ls.length + 1 + k = ls.length + k + 1 by omega, List.map_cons,
      ← List.singleton_append, ← List.append_assoc]
    cases x with
    | plain c =>
      have hc0 : c ≠ 0 := fun h => h0.1 (by simp [LitChar.spelling, h])
      have hcq : c ≠ dquote := fun h => hx.2 (congrArg some h)
      simp only [LitChar.spelling, List.cons_append, List.nil_append, strLoop,
        deref, Option.map_some, peek, Option.bind_eq_bind, Option.bind_some, next]
      rw [if_neg (by simp [hc0, hcq]), if_neg hx.1]
      exact hrest _
    | escaped c =>
      have hv := value_escaped c
      simp only [LitChar.spelling, List.cons_append, List.nil_append, strLoop,
        deref, Option.map_some, peek, Option.bind_eq_bind, Option.bind_some, next, readEscape]
      rw [if_neg (by decide), if_pos trivial, hv]
      exact hrest _

end Loops

section Round

variable {c : UInt8} {text tl rest : List UInt8} {l l' : Lexeme}

/-- The round takes the lexeme. -/
def Takes (c : UInt8) (tl : List UInt8) (l : Lexeme) (rest : List UInt8) : Prop :=
  match l.token with
  | none => round c tl = .skip rest
  | some t => ∃ blocks, round c tl = .token t blocks rest

theorem not_longer (hl : lexicon.Longest l text) (hv : l'.Valid) (r : List UInt8)
    (htext : text = l'.spelling ++ r) : l'.spelling.length ≤ l.spelling.length :=
  hl.2 l' ⟨hv, ⟨r, htext.symm⟩⟩

theorem takes_space (h : isSpace c = true) : Takes c rest (.space c) rest := if_pos h

theorem takes_lineComment {body : List UInt8} (hv : newline ∉ body)
    (hl : lexicon.Longest (.lineComment body) (slash :: slash :: (body ++ rest))) :
    Takes slash (slash :: (body ++ rest)) (.lineComment body) rest := by
  have hround : round slash (slash :: (body ++ rest)) =
      .skip (lineEnd (slash :: slash :: (body ++ rest))) := rfl
  have hend : lineEnd (slash :: slash :: (body ++ rest)) = lineEnd rest := by
    have hno : newline ∉ slash :: slash :: body := by
      simp only [List.mem_cons, not_or]
      exact ⟨by decide, by decide, hv⟩
    exact @lineEnd_append (slash :: slash :: body) rest hno
  have hrest : lineEnd rest = rest := by
    cases rest with
    | nil => rfl
    | cons d r =>
      by_cases hd : d = newline
      · rw [lineEnd, if_pos hd]
      · have hv' : (Lexeme.lineComment (body ++ [d])).Valid := by
          simp only [Lexeme.Valid, List.mem_append, List.mem_singleton, not_or]
          exact ⟨hv, Ne.symm hd⟩
        have hle := not_longer hl hv' r (by simp [Lexeme.spelling])
        simp [Lexeme.spelling] at hle
  change round slash (slash :: (body ++ rest)) = .skip rest
  rw [hround, hend, hrest]

theorem takes_blockComment {body : List UInt8} (hv : ¬ [star, slash] <:+: body) :
    Takes slash (star :: (body ++ star :: slash :: rest)) (.blockComment body) rest := by
  have hround : round slash (star :: (body ++ star :: slash :: rest)) =
      .skip (blockEnd (body ++ star :: slash :: rest)) := rfl
  change round slash (star :: (body ++ star :: slash :: rest)) = .skip rest
  rw [hround, blockEnd_closed hv]

/-- A comment that is not closed goes on to the end. -/
theorem openComment_rest {body : List UInt8} (hv : ¬ [star, slash] <:+: body)
    (hl : lexicon.Longest (.openComment body) (slash :: star :: (body ++ rest))) : rest = [] := by
  cases rest with
  | nil => rfl
  | cons d r =>
    exfalso
    by_cases hin : [star, slash] <:+: body ++ [d]
    · -- the byte closes the comment
      have hsuffix := (List.infix_concat_iff.mp hin).resolve_right hv
      obtain ⟨b, hb⟩ := hsuffix
      have hsplit : (b ++ [star]) ++ [slash] = body ++ [d] := by simpa using hb
      obtain ⟨hbody, hd⟩ := List.append_inj' hsplit rfl
      subst hbody
      have hv' : (Lexeme.blockComment b).Valid :=
        fun hb' => hv (hb'.trans (List.prefix_append b [star]).isInfix)
      have hd' : d = slash := (List.cons.inj hd).1.symm
      have hle := not_longer hl hv' r (by simp [Lexeme.spelling, hd'])
      simp [Lexeme.spelling] at hle
    · have hv' : (Lexeme.openComment (body ++ [d])).Valid := hin
      have hle := not_longer hl hv' r (by simp [Lexeme.spelling])
      simp [Lexeme.spelling] at hle

theorem takes_openComment {body : List UInt8} (hv : ¬ [star, slash] <:+: body)
    (hl : lexicon.Longest (.openComment body) (slash :: star :: (body ++ rest))) :
    Takes slash (star :: (body ++ rest)) (.openComment body) rest := by
  obtain rfl := openComment_rest hv hl
  have hround : round slash (star :: (body ++ [])) = .skip (blockEnd (body ++ [])) := rfl
  change round slash (star :: (body ++ [])) = .skip []
  rw [hround, List.append_nil, blockEnd_open hv]

theorem takes_number {ds : List UInt8} (hv : ∀ d ∈ c :: ds, isDigit d = true)
    (hl : lexicon.Longest (.number (c :: ds)) (c :: (ds ++ rest))) :
    Takes c (ds ++ rest) (.number (c :: ds)) rest := by
  have hc := hv c List.mem_cons_self
  obtain ⟨hspace, hslash⟩ := isDigit_first c hc
  have hpeek : isDigit (peek rest) = false := by
    cases rest with
    | nil => rfl
    | cons d r =>
      by_contra hd
      rw [Bool.not_eq_false] at hd
      have hv' : (Lexeme.number (c :: ds ++ [d])).Valid := by
        refine ⟨List.cons_ne_nil _ _, ?_⟩
        exact List.forall_mem_append.mpr ⟨hv, List.forall_mem_singleton.mpr hd⟩
      have hle := not_longer hl hv' r (by simp [Lexeme.spelling])
      simp [Lexeme.spelling] at hle
  have hloop := numLoop_append hv hpeek 0
  refine ⟨[tokenSize], ?_⟩
  rw [round, if_neg (by simp [hspace]), if_neg (fun h => hslash h.1),
    if_neg (fun h => hslash h.1), if_pos hc, ← List.cons_append]
  exact congrArg (fun p : Word × List UInt8 => Round.token (.num p.1) [tokenSize] p.2) hloop

theorem charLit_of_spelling {x : LitChar} (hv : x.Ok none) :
    charLit (x.spelling ++ quote :: rest) = some (some (x.value, some rest)) := by
  cases x with
  | plain c =>
    have hb : c ≠ backslash := hv.1
    simp [charLit, LitChar.spelling, deref, next, peek, hb, LitChar.value]
  | escaped c =>
    rw [value_escaped]
    simp [charLit, LitChar.spelling, deref, next, peek, readEscape]

theorem round_quote (text : List UInt8) :
    round quote text =
      match charLit text with
      | some (some (c, some rest)) => .token (.num (BitVec.ofNat 64 c.toNat)) [tokenSize] rest
      | some _ => .error "unterminated char literal"
      | none => .beyond := rfl

theorem takes_charLit {x : LitChar} (hv : x.Ok none) :
    Takes quote (x.spelling ++ quote :: rest) (.charLit x) rest := by
  exact ⟨[tokenSize], by rw [round_quote, charLit_of_spelling hv]⟩

theorem strLit_of_spelling {xs : List LitChar} (hv : ∀ x ∈ xs, x.Ok (some dquote))
    (hlen : xs.length ≤ strMax) (h0 : 0 ∉ litSpelling xs) :
    strLit (litSpelling xs ++ dquote :: rest) =
      some (some (xs.map LitChar.value, some rest)) := by
  obtain ⟨k, hk⟩ : ∃ k, strMax = xs.length + k := ⟨strMax - xs.length, by omega⟩
  have hloop := strLoop_litSpelling xs (dquote :: rest) [] k hv h0
  have hend : strLoop (some (dquote :: rest)) ([] ++ xs.map LitChar.value) k =
      some (xs.map LitChar.value, some (dquote :: rest)) := by
    cases k with
    | zero => rfl
    | succ k => rfl
  rw [strLit, hk, hloop, hend]
  rfl

theorem round_dquote (text : List UInt8) :
    round dquote text =
      match strLit text with
      | some (some (s, some rest)) => .token (.string s) [tokenSize, s.length + 1] rest
      | some _ => .error "unterminated string literal"
      | none => .beyond := rfl

theorem takes_strLit {xs : List LitChar} (hv : ∀ x ∈ xs, x.Ok (some dquote))
    (hlen : xs.length ≤ strMax) (h0 : 0 ∉ litSpelling xs) :
    Takes dquote (litSpelling xs ++ dquote :: rest) (.strLit xs) rest := by
  exact ⟨_, by rw [round_dquote, strLit_of_spelling hv hlen h0]⟩

theorem takes_word {s : List UInt8} (hc : isAlpha c = true)
    (hs : ∀ x ∈ c :: s, isAlnum x = true)
    (hl : lexicon.Longest (.word (c :: s)) (c :: (s ++ rest))) :
    Takes c (s ++ rest) (.word (c :: s)) rest := by
  obtain ⟨hspace, hslash, hdigit, hquote, hdquote⟩ := isAlpha_first c hc
  have hpeek : ∀ d r, rest = d :: r → isAlnum d = false := by
    rintro d r rfl
    by_contra hd
    rw [Bool.not_eq_false] at hd
    have hv' : (Lexeme.word (c :: s ++ [d])).Valid := by
      refine ⟨by simpa using hc, ?_⟩
      exact List.forall_mem_append.mpr ⟨hs, List.forall_mem_singleton.mpr hd⟩
    have hle := not_longer hl hv' r (by simp [Lexeme.spelling])
    simp [Lexeme.spelling] at hle
  have hends : rest.takeWhile isAlnum = [] ∧ rest.dropWhile isAlnum = rest := by
    cases rest with
    | nil => exact ⟨rfl, rfl⟩
    | cons d r =>
      have hd := hpeek d r rfl
      simp [hd]
  have htake : (c :: (s ++ rest)).takeWhile isAlnum = c :: s := by
    rw [← List.cons_append, List.takeWhile_append_of_pos hs, hends.1, List.append_nil]
  have hdrop : (c :: (s ++ rest)).dropWhile isAlnum = rest := by
    rw [← List.cons_append, List.dropWhile_append_of_pos hs, hends.2]
  have hkw : (if isKeyword (c :: s) = true then TokKind.kw else .ident) =
      if c :: s ∈ kwTab then .kw else .ident := by
    simp only [isKeyword_iff]
  refine ⟨[tokenSize, (c :: s).length + 1], ?_⟩
  rw [round, if_neg (by simp [hspace]), if_neg (fun h => hslash h.1),
    if_neg (fun h => hslash h.1), if_neg (by simp [hdigit]), if_neg hquote, if_neg hdquote,
    if_pos hc]
  dsimp only
  rw [htake, hdrop, hkw]

theorem mem_of_find_two {t u : List UInt8} (hf : (two.find? fun v => v == t) = some u) :
    u = t ∧ t ∈ two := by
  have hbeq := List.find?_some hf
  have heq : u = t := eq_of_beq hbeq
  exact ⟨heq, heq ▸ List.mem_of_find?_eq_some hf⟩

theorem find_two {t : List UInt8} (ht : t ∈ two) :
    (two.find? fun u => u == t) = some t := by
  cases hf : two.find? fun u => u == t with
  | none =>
    rw [List.find?_eq_none] at hf
    exact absurd (beq_self_eq_true t) (hf t ht)
  | some u => rw [(mem_of_find_two hf).1]

/-- In front of a punctuator the round comes to the table of operators. -/
theorem round_punct (hc : PunctFirst c) (h : ¬ (c = slash ∧ (peek tl = slash ∨ peek tl = star))) :
    round c tl = punct c tl := by
  obtain ⟨hspace, hdigit, hquote, hdquote, halpha⟩ := hc
  rw [round, if_neg (by simp [hspace]), if_neg (fun h' => h ⟨h'.1, Or.inl h'.2⟩),
    if_neg (fun h' => h ⟨h'.1, Or.inr h'.2⟩), if_neg (by simp [hdigit]), if_neg hquote,
    if_neg hdquote, if_neg (by simp [halpha])]

theorem takes_two {b : UInt8} (ht : [c, b] ∈ two) : Takes c (b :: rest) (.punct [c, b]) rest := by
  obtain ⟨x, y, hxy, hfirst, hslash, -⟩ := two_first _ ht
  cases hxy
  refine ⟨[tokenSize, 3], ?_⟩
  rw [round_punct hfirst fun h => hslash h.1, punct]
  simp only [peek, find_two ht, List.tail_cons]

theorem takes_single (hc : c ∈ single) (hl : lexicon.Longest (.punct [c]) (c :: rest)) :
    Takes c rest (.punct [c]) rest := by
  have hcomment : ¬ (c = slash ∧ (peek rest = slash ∨ peek rest = star)) := by
    rintro ⟨rfl, hpeek⟩
    cases rest with
    | nil => exact absurd hpeek (by decide)
    | cons d r =>
      obtain rfl | rfl : d = slash ∨ d = star := hpeek
      · have hv : (Lexeme.lineComment []).Valid := by simp [Lexeme.Valid]
        have hle := not_longer hl hv r rfl
        exact absurd hle (by decide)
      · have hv : (Lexeme.openComment []).Valid := by simp [Lexeme.Valid]
        have hle := not_longer hl hv r rfl
        exact absurd hle (by decide)
  have hfind : (two.find? fun t => t == [c, peek rest]) = none := by
    cases hf : two.find? fun t => t == [c, peek rest] with
    | none => rfl
    | some t =>
      exfalso
      have ht := (mem_of_find_two hf).2
      cases rest with
      | nil =>
        obtain ⟨x, y, hxy, -, -, h0⟩ := two_first _ ht
        cases hxy
        exact h0 rfl
      | cons d r =>
        have hv : (Lexeme.punct [c, d]).Valid := Or.inl ht
        have hle := not_longer hl hv r rfl
        simp [Lexeme.spelling] at hle
  refine ⟨[tokenSize, 2], ?_⟩
  rw [round_punct (single_first c hc) hcomment, punct, hfind]
  exact if_pos (by simpa using hc)

/-- One round takes the longest lexeme. -/
theorem takes_of_longest (hl : lexicon.Longest l text) (hrest : text = l.spelling ++ rest)
    (h0 : 0 ∉ text) : ∃ c tl, text = c :: tl ∧ Takes c tl l rest := by
  have hv : l.Valid := hl.1.1
  subst hrest
  cases l with
  | space c => exact ⟨c, rest, rfl, takes_space hv⟩
  | lineComment body => exact ⟨_, _, rfl, takes_lineComment hv hl⟩
  | blockComment body =>
    refine ⟨slash, star :: (body ++ star :: slash :: rest), by simp [Lexeme.spelling], ?_⟩
    exact takes_blockComment hv
  | openComment body => exact ⟨_, _, rfl, takes_openComment hv hl⟩
  | number ds =>
    cases ds with
    | nil => exact absurd rfl hv.1
    | cons d ds => exact ⟨_, _, rfl, takes_number hv.2 hl⟩
  | charLit x =>
    refine ⟨quote, x.spelling ++ quote :: rest, by simp [Lexeme.spelling], ?_⟩
    exact takes_charLit hv
  | strLit xs =>
    refine ⟨dquote, litSpelling xs ++ dquote :: rest, by simp [Lexeme.spelling], ?_⟩
    refine takes_strLit hv.1 hv.2 fun h => h0 ?_
    simp [Lexeme.spelling, h]
  | word s =>
    cases s with
    | nil => simp [Lexeme.Valid] at hv
    | cons c s => exact ⟨_, _, rfl, takes_word (by simpa using hv.1) hv.2 hl⟩
  | punct s =>
    obtain hs | ⟨c, hc, rfl⟩ := hv
    · obtain ⟨a, b, rfl, -⟩ := two_first s hs
      exact ⟨_, _, rfl, takes_two hs⟩
    · exact ⟨_, _, rfl, takes_single hc hl⟩

end Round

end XinuRpi4.Compiler.Lexer
