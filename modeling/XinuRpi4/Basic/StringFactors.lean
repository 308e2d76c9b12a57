import XinuRpi4.Basic.Variables
import XinuRpi4.Foundation.Scan

/-!
# Where a string begins

`peek_is_string` and `var_name` read the name of a variable each in its own way. They agree
on the names of letters with at most one digit behind them, and on names that are followed
by no `$`.
-/

namespace XinuRpi4.Basic

open XinuRpi4.Foundation

variable {ν : Type}

/-- The letters and digits at the start of the text. -/
def word (t : Text) : Text := t.takeWhile isAlnum

def behindWord (t : Text) : Text := t.dropWhile isAlnum

theorem word_append (t : Text) : word t ++ behindWord t = t := List.takeWhile_append_dropWhile

theorem alnum_of_mem_word {t : Text} {c : UInt8} (h : c ∈ word t) : isAlnum c = true :=
  List.mem_takeWhile_imp h

theorem behindWord_head (t : Text) : isAlnum ((behindWord t).headD 0) = false := by
  cases ht : behindWord t with
  | nil => decide
  | cons c r =>
    have hne : behindWord t ≠ [] := by simp [ht]
    have hhead := List.head_dropWhile_not isAlnum hne
    have hc : (behindWord t).head hne = c := by simp [ht]
    rw [← hc]
    exact hhead

/-- Letters, and at most one digit behind them. -/
def LettersDigit (w : Text) : Prop := (w.dropWhile bIsalpha).length ≤ 1

instance (w : Text) : Decidable (LettersDigit w) := inferInstanceAs (Decidable (_ ≤ _))

theorem isStringName_append (w : Text) : isStringName (w ++ [chr '$']) = true := by
  simp [isStringName]

theorem not_isStringName {w : Text} (hw : ∀ c ∈ w, isAlnum c = true) :
    isStringName (w.map bUp) = false := by
  rw [isStringName, beq_eq_false_iff_ne]
  intro hlast
  obtain ⟨c, hc, hup⟩ := List.mem_map.mp (List.mem_of_getLast? hlast)
  exact alnum_ne_dollar (hw c hc) (bUp_dollar.mp hup)

/-- `var_name` reads ten letters and digits at most. -/
theorem isStringName_scanName (t : Text) :
    isStringName (scanName t).1 = true ↔
      bIsalpha (t.headD 0) = true ∧ (word t).length ≤ 10 ∧ (behindWord t).headD 0 = chr '$' := by
  have hname : ∀ c ∈ (t.take 10).takeWhile isAlnum, isAlnum c = true :=
    fun c hc => List.mem_takeWhile_imp hc
  unfold scanName
  by_cases halpha : bIsalpha (t.headD 0) = true
  · rw [if_pos halpha]
    simp only [halpha, true_and]
    by_cases hlen : (word t).length ≤ 10
    · have hdrop : t.drop ((t.take 10).takeWhile isAlnum).length = behindWord t :=
        drop_scan_of_le isAlnum hlen
      rw [hdrop]
      by_cases hdollar : (behindWord t).headD 0 = chr '$'
      · rw [if_pos hdollar]
        simp only [isStringName_append, hlen, hdollar, and_self]
      · rw [if_neg hdollar]
        simp only [not_isStringName hname, hdollar, and_false, Bool.false_eq_true]
    · have hdrop : t.drop ((t.take 10).takeWhile isAlnum).length = (word t).drop 10 ++ behindWord t :=
        drop_scan_of_lt isAlnum (not_le.mp hlen)
      obtain ⟨c, r, hr⟩ := List.exists_cons_of_ne_nil
        (List.ne_nil_of_length_pos (l := (word t).drop 10) (by rw [List.length_drop]; omega))
      have hc : isAlnum c = true :=
        alnum_of_mem_word (List.mem_of_mem_drop (hr ▸ List.mem_cons_self ..))
      have hdollar : ¬ ((word t).drop 10 ++ behindWord t).headD 0 = chr '$' := by
        rw [hr]
        exact alnum_ne_dollar hc
      rw [hdrop, if_neg hdollar]
      simp only [not_isStringName hname, hlen, false_and, Bool.false_eq_true]
  · rw [if_neg halpha]
    simp only [halpha, Bool.false_eq_true, false_and, iff_false]
    decide

/-- `peek_is_string` passes letters and one digit. -/
theorem looksString_iff (t : Text) :
    looksString t = true ↔ t.headD 0 = chr '"' ∨
      bIsalpha (t.headD 0) = true ∧ LettersDigit (word t) ∧ (behindWord t).headD 0 = chr '$' := by
  unfold looksString
  by_cases hquote : t.headD 0 = chr '"'
  · rw [if_pos hquote]
    simp only [hquote, true_or]
  rw [if_neg hquote]
  by_cases halpha : bIsalpha (t.headD 0) = true
  · have hbehind := behindWord_head t
    have hnotAlpha : bIsalpha ((behindWord t).headD 0) = false := by
      cases h : bIsalpha ((behindWord t).headD 0) with
      | false => rfl
      | true => rw [alpha_alnum h] at hbehind; exact absurd hbehind (by decide)
    have hnotDigit : bIsdigit ((behindWord t).headD 0) = false := by
      rw [isAlnum, Bool.or_eq_false_iff] at hbehind
      exact hbehind.2
    have hsplit : t.dropWhile bIsalpha =
        if ((word t).dropWhile bIsalpha).isEmpty then behindWord t
        else (word t).dropWhile bIsalpha ++ behindWord t := by
      conv_lhs => rw [← word_append t]
      rw [List.dropWhile_append]
      congr 1
      cases hr : behindWord t with
      | nil => rfl
      | cons c r =>
        rw [hr] at hnotAlpha
        rw [List.dropWhile_cons_of_neg (by simpa using hnotAlpha)]
    rw [if_pos halpha]
    simp only [hquote, halpha, false_or, true_and]
    rw [hsplit]
    cases hd : (word t).dropWhile bIsalpha with
    | nil =>
      have hfits : LettersDigit (word t) := by rw [LettersDigit, hd]; exact Nat.zero_le 1
      simp only [List.isEmpty_nil, if_true, hnotDigit, hfits, true_and, decide_eq_true_eq,
        Bool.false_eq_true, if_false]
    | cons x d =>
      have hx : bIsdigit x = true := by
        have hne : (word t).dropWhile bIsalpha ≠ [] := by simp [hd]
        have hhead := List.head_dropWhile_not bIsalpha hne
        have hmem : x ∈ word t := (List.dropWhile_suffix _).subset (hd ▸ List.mem_cons_self ..)
        have hxhead : ((word t).dropWhile bIsalpha).head hne = x := by simp [hd]
        rw [hxhead] at hhead
        exact digit_not_alpha (alnum_of_mem_word hmem) hhead
      cases d with
      | nil =>
        have hfits : LettersDigit (word t) := by rw [LettersDigit, hd]; exact le_rfl
        simp [hx, hfits]
      | cons y d =>
        have hlong : ¬ LettersDigit (word t) := by
          rw [LettersDigit, hd]
          simp
        have hmem : y ∈ word t := by
          refine (List.dropWhile_suffix bIsalpha).subset ?_
          rw [hd]
          exact List.mem_cons_of_mem _ List.mem_cons_self
        have hy : y ≠ chr '$' := alnum_ne_dollar (alnum_of_mem_word hmem)
        simp [hx, hlong, hy]
  · rw [if_neg halpha]
    simp only [hquote, halpha, false_and, or_false, Bool.false_eq_true]

def stringFunctions : List String := ["MID$", "LEFT$", "RIGHT$", "CHR$", "STR$"]

/-- A literal, a string function, or the name of a string variable as `var_name` reads it. -/
inductive BeginsString (t : Text) : Prop
  | literal (h : t.headD 0 = chr '"')
  | function (k : String) (hk : k ∈ stringFunctions) (h : (matchKw (bytes k) t).isSome)
  | variable (h : isStringName (scanName t).1)

/-- The text that begins with the name of a function reads as a name too. -/
theorem functionName {k : String} {t : Text} (hk : k ∈ stringFunctions)
    (h : (matchKw (bytes k) t).isSome) : isStringName (scanName t).1 = true := by
  obtain ⟨r, hr⟩ := Option.isSome_iff_exists.mp h
  obtain ⟨u, rfl, hu, -⟩ := matchKw_eq_some hr
  have hletters : ∃ w, bytes k = w ++ [chr '$'] ∧ w.length ≤ 10 ∧ bIsalpha (w.headD 0) = true ∧
      w.all fun c => isAlnum c && (isAlnum (c + 32) && bIsalpha (c + 32)) := by
    simp only [stringFunctions, List.mem_cons, List.not_mem_nil, or_false] at hk
    rcases hk with rfl | rfl | rfl | rfl | rfl
    · exact ⟨bytes "MID", by decide, by decide, by decide, by decide⟩
    · exact ⟨bytes "LEFT", by decide, by decide, by decide, by decide⟩
    · exact ⟨bytes "RIGHT", by decide, by decide, by decide, by decide⟩
    · exact ⟨bytes "CHR", by decide, by decide, by decide, by decide⟩
    · exact ⟨bytes "STR", by decide, by decide, by decide, by decide⟩
  obtain ⟨w, hw, hlen, hhead, hcapital⟩ := hletters
  simp only [List.all_eq_true, Bool.and_eq_true] at hcapital
  rw [hw] at hu
  obtain ⟨v, d, rfl, hv, hd⟩ := List.map_eq_append_iff.mp hu
  obtain ⟨c, d, rfl, hc, hnil⟩ := List.map_eq_cons_iff.mp hd
  obtain rfl := List.map_eq_nil_iff.mp hnil
  obtain rfl := bUp_dollar.mp hc
  have hletter : ∀ c ∈ v, isAlnum c = true := by
    intro c hc
    have hmem : bUp c ∈ w := hv ▸ List.mem_map_of_mem hc
    obtain ⟨hplain, hsmall, -⟩ := hcapital _ hmem
    rcases bUp_cases (c := c) rfl with h | h
    · rwa [h]
    · rwa [h]
  have htext : v ++ [chr '$'] ++ r = v ++ (chr '$' :: r) := by simp
  have hword : word (v ++ (chr '$' :: r)) = v := by
    rw [word, List.takeWhile_append_of_pos hletter, List.takeWhile_cons_of_neg (by decide),
      List.append_nil]
  have hbehind : behindWord (v ++ (chr '$' :: r)) = chr '$' :: r := by
    rw [behindWord, List.dropWhile_append_of_pos hletter, List.dropWhile_cons_of_neg (by decide)]
  rw [htext, isStringName_scanName, hword, hbehind]
  refine ⟨?_, by rw [← hv, List.length_map] at hlen; exact hlen, rfl⟩
  cases v with
  | nil =>
    rw [← hv] at hhead
    exact absurd hhead (by decide)
  | cons c v =>
    have hfirst : bUp c ∈ w := by rw [← hv]; exact List.mem_cons_self
    obtain ⟨-, -, hsmall⟩ := hcapital _ hfirst
    have hplain : bIsalpha (bUp c) = true := by rw [← hv] at hhead; exact hhead
    rcases bUp_cases (c := c) rfl with h | h
    · rw [List.cons_append, List.headD_cons, h]
      exact hplain
    · rw [List.cons_append, List.headD_cons, h]
      exact hsmall

theorem beginsString_iff (t : Text) :
    BeginsString t ↔ t.headD 0 = chr '"' ∨ bIsalpha (t.headD 0) = true ∧
      (word t).length ≤ 10 ∧ (behindWord t).headD 0 = chr '$' := by
  rw [← isStringName_scanName]
  constructor
  · intro h
    cases h with
    | literal h => exact Or.inl h
    | function k hk h => exact Or.inr (functionName hk h)
    | «variable» h => exact Or.inr h
  · rintro (h | h)
    · exact .literal h
    · exact .variable h

/-- The name and its `$` are behind the cursor. -/
theorem length_scanName {t : Text} (h : isStringName (scanName t).1 = true) :
    (scanName t).2.length < t.length := by
  unfold scanName at h ⊢
  by_cases halpha : bIsalpha (t.headD 0) = true
  · rw [if_pos halpha] at h ⊢
    by_cases hdollar : (t.drop ((t.take 10).takeWhile isAlnum).length).headD 0 = chr '$'
    · simp only [hdollar, if_true]
      cases t with
      | nil => exact absurd halpha (by decide)
      | cons c t =>
        have hc : isAlnum c = true := alpha_alnum halpha
        simp only [List.take_succ_cons, List.takeWhile_cons_of_pos hc, List.length_cons,
          List.drop_succ_cons, List.length_tail, List.length_drop]
        omega
    · simp only [hdollar, if_false] at h
      rw [not_isStringName fun c hc => List.mem_takeWhile_imp hc] at h
      exact absurd h (by decide)
  · rw [if_neg halpha] at h
    simp [isStringName] at h

section Sfactor

variable (N : NumOps ν)

/-- `sfactor` reads nothing and reports that there is no string. -/
def NoString (s : Interp ν) : Prop :=
  ∀ E, (sfactor N E none svarLen).run s =
    some ([], { skipped s with err := s.err <|> some "string expr" })

variable {N} {s : Interp ν} {E : Evals ν}

theorem stringVar_run (s : Interp ν) :
    (stringVar N none svarLen).run s = ((svaridx N).run s).bind fun r =>
      (match r.1 with
        | some si => do finish none svarLen ((← get).vstr si)
        | none => do
          setIp s.ip
          berr "string expr"
          finish none svarLen [] : BasicM ν Text).run r.2 := rfl

/-- A name that `var_name` reads is there: the slot is found, made, or refused as one too
many. -/
theorem stringVar_accepts (hblank : skipped s = s) (herr : s.err = none)
    (h : isStringName (scanName s.ip.rest).1 = true) :
    (stringVar N none svarLen).run s ≠ some ([], { s with err := some "string expr" }) := by
  rw [stringVar_run, svaridx_run N hblank, if_pos h]
  intro heq
  have hshort := length_scanName h
  rcases varSlot_cases N (scanName s.ip.rest).1
      { s with ip := { s.ip with rest := (scanName s.ip.rest).2 } } with
    ⟨i, -, -, hslot⟩ | ⟨-, ⟨-, hslot⟩ | ⟨-, hslot⟩⟩
  · rw [hslot] at heq
    have hip := congrArg (fun u => u.ip.rest.length) (Prod.mk.inj (Option.some.inj heq)).2
    exact absurd hip hshort.ne
  · rw [hslot] at heq
    have hip := congrArg (fun u => u.ip.rest.length) (Prod.mk.inj (Option.some.inj heq)).2
    exact absurd hip hshort.ne
  · rw [hslot] at heq
    have hmessage := congrArg Interp.err (Prod.mk.inj (Option.some.inj heq)).2
    simp only [herr] at hmessage
    exact absurd hmessage (by decide)

/-- No name of a string variable is there. -/
theorem stringVar_rejects (hblank : skipped s = s) (h : isStringName (scanName s.ip.rest).1 = false) :
    (stringVar N none svarLen).run s =
      some ([], { s with err := s.err <|> some "string expr" }) := by
  rw [stringVar_run, svaridx_run N hblank, if_neg (by rw [h]; decide)]
  rfl

theorem bind_run_none {α β : Type} {m : BasicM ν α} {f : α → BasicM ν β}
    (h : ∀ a u, (f a).run u = none) : (m >>= f).run s = none := by
  rw [StateT.run_bind]
  cases m.run s with
  | none => rfl
  | some r => exact h r.1 r.2

/-- Where the evaluators have no result, a function that is there has none. -/
theorem namedString_function (hblank : skipped s = s)
    (h : ∃ k ∈ stringFunctions, (matchKw (bytes k) s.ip.rest).isSome) :
    (namedString N (evals N 0) none svarLen).run s = none := by
  have hstep : ∀ (k : String) (m m' : BasicM ν Text), (∀ u, m.run u = none) →
      (matchKw (bytes k) s.ip.rest = none → m'.run s = none) →
      (do if ← kw k then m else m' : BasicM ν Text).run s = none := by
    intro k m m' hm hm'
    rw [kw_ite hblank]
    cases hk : matchKw (bytes k) s.ip.rest with
    | some r => exact hm _
    | none => exact hm' hk
  have hargs : ∀ (c : Char) (k : String) (f : Text → BasicM ν Text) (u : Interp ν),
      (do
        skipsp
        expect c k
        let t ← (evals N 0).seval none svarLen
        f t : BasicM ν Text).run u = none :=
    fun _ _ _ _ => bind_run_none fun _ _ => bind_run_none fun _ _ => rfl
  have hparen : ∀ (f : ν → BasicM ν Text) (u : Interp ν),
      (do
        let v ← parenNum (evals N 0)
        f v : BasicM ν Text).run u = none := by
    intro f u
    have hnum : (parenNum (evals N 0)).run u = none := bind_run_none fun _ _ => rfl
    rw [StateT.run_bind, hnum]
    rfl
  refine hstep "MID$" _ _ (hargs _ _ _) fun hmid => hstep "LEFT$" _ _ (hargs _ _ _) fun hleft =>
    hstep "RIGHT$" _ _ (hargs _ _ _) fun hright => hstep "CHR$" _ _ (hparen _) fun hchr =>
    hstep "STR$" _ _ (hparen _) fun hstr => ?_
  obtain ⟨k, hk, hsome⟩ := h
  have hall : ∀ k ∈ stringFunctions, matchKw (bytes k) s.ip.rest = none := by
    simp only [stringFunctions, List.forall_mem_cons, List.not_mem_nil, false_implies, implies_true,
      and_true]
    exact ⟨hmid, hleft, hright, hchr, hstr⟩
  rw [hall k hk] at hsome
  exact absurd hsome (by decide)

theorem namedString_variable (hblank : skipped s = s)
    (h : ¬ ∃ k ∈ stringFunctions, (matchKw (bytes k) s.ip.rest).isSome) :
    (namedString N E none svarLen).run s = (stringVar N none svarLen).run s := by
  have hnone : ∀ k ∈ stringFunctions, matchKw (bytes k) s.ip.rest = none := by
    simpa using h
  rw [namedString, kw_ite hblank, hnone "MID$" (by decide), kw_ite hblank,
    hnone "LEFT$" (by decide), kw_ite hblank, hnone "RIGHT$" (by decide), kw_ite hblank,
    hnone "CHR$" (by decide), kw_ite hblank, hnone "STR$" (by decide)]

/-- Apart from a bracket, `sfactor` accepts what a string factor begins with and nothing
else. -/
theorem noString_iff (herr : s.err = none) (hparen : (skipped s).ip.rest.headD 0 ≠ chr '(') :
    NoString N s ↔ ¬ BeginsString (skipped s).ip.rest := by
  have hblank := skipped_skipped s
  have hbody : ∀ E, (sfactor N E none svarLen).run s =
      (if (skipped s).ip.rest.headD 0 = chr '"' then literal none svarLen
        else namedString N E none svarLen).run (skipped s) := by
    intro E
    change (if (skipped s).ip.rest.headD 0 = chr '"' then literal none svarLen
      else if (skipped s).ip.rest.headD 0 = chr '(' then _
      else namedString N E none svarLen : BasicM ν Text).run (skipped s) = _
    rw [if_neg hparen]
  have herr' : (skipped s).err = none := herr
  unfold NoString
  simp only [hbody]
  by_cases hquote : (skipped s).ip.rest.headD 0 = chr '"'
  · refine iff_of_false (fun h => ?_) (not_not.mpr (.literal hquote))
    have hrun := h (evals N 0)
    rw [if_pos hquote] at hrun
    have hmessage := congrArg (fun r => r.2.err) (Option.some.inj hrun)
    rw [herr] at hmessage
    have hkept : (skipped s).err = some "string expr" := hmessage
    rw [herr'] at hkept
    exact absurd hkept (by decide)
  · simp only [if_neg hquote]
    by_cases hfunction : ∃ k ∈ stringFunctions, (matchKw (bytes k) (skipped s).ip.rest).isSome
    · obtain ⟨k, hk, hsome⟩ := hfunction
      refine iff_of_false (fun h => ?_) (not_not.mpr (.function k hk hsome))
      have hrun := h (evals N 0)
      rw [namedString_function hblank ⟨k, hk, hsome⟩] at hrun
      exact absurd hrun (by simp)
    · simp only [namedString_variable hblank hfunction]
      cases hname : isStringName (scanName (skipped s).ip.rest).1 with
      | true =>
        refine iff_of_false (fun h => ?_) (not_not.mpr (.variable hname))
        rw [herr] at h
        exact stringVar_accepts hblank herr' hname (h (evals N 0))
      | false =>
        refine iff_of_true (fun _ => stringVar_rejects hblank hname) fun h => ?_
        cases h with
        | literal h => exact hquote h
        | function k hk h => exact hfunction ⟨k, hk, h⟩
        | «variable» h => rw [hname] at h; exact absurd h (by decide)

variable (N)

/-- At a text behind blanks, `peek_is_string` answers yes where a string factor begins, and
this is what `sfactor` accepts apart from a bracket. -/
structure ToldApart (t : Text) : Prop where
  answers : ∀ s : Interp ν, (skipped s).ip.rest = t →
    ((peekIsString.run s).map Prod.fst = some true ↔ BeginsString t)
  accepted : ∀ s : Interp ν, (skipped s).ip.rest = t → s.err = none → t.headD 0 ≠ chr '(' →
    (¬ NoString N s ↔ BeginsString t)

/-- The letters and digits at the text are in front of no `$`, or they are letters with at
most one digit behind them and also no more than ten, or neither. -/
def NameFits (t : Text) : Prop :=
  bIsalpha (t.headD 0) = true → (behindWord t).headD 0 = chr '$' →
    (LettersDigit (word t) ↔ (word t).length ≤ 10)

theorem looksString_beginsString (t : Text) :
    (looksString t = true ↔ BeginsString t) ↔ NameFits t := by
  rw [looksString_iff, beginsString_iff, NameFits]
  have hquote : t.headD 0 = chr '"' → ¬ bIsalpha (t.headD 0) = true := by
    intro h
    rw [h]
    decide
  tauto

/-- The two agree on a text just if its name is one that both read, or neither. -/
theorem toldApart_iff (t : Text) : ToldApart N t ↔ NameFits t := by
  have hpeek : ∀ s : Interp ν, (skipped s).ip.rest = t →
      (((peekIsString.run s).map Prod.fst = some true ↔ BeginsString t) ↔ NameFits t) := by
    intro s hs
    have hrun : (peekIsString.run s).map Prod.fst = some (looksString (skipped s).ip.rest) := rfl
    rw [hrun, hs, Option.some_inj, looksString_beginsString]
  constructor
  · intro h halpha hdollar
    have hcursor : (skipped { basicInit N with ip := ⟨none, t⟩ }).ip.rest = t := by
      cases t with
      | nil => rfl
      | cons c t =>
        have hblank : isBlank c = false := by
          cases hc : isBlank c with
          | false => rfl
          | true =>
            have hcases : c = 32 ∨ c = 9 := by simpa [isBlank] using hc
            have hletter : bIsalpha c = true := halpha
            rcases hcases with rfl | rfl
            · exact absurd hletter (by decide)
            · exact absurd hletter (by decide)
        exact List.dropWhile_cons_of_neg (by rw [hblank]; decide)
    exact (hpeek _ hcursor).mp (h.answers _ hcursor) halpha hdollar
  · intro h
    refine ⟨fun s hs => (hpeek s hs).mpr h, fun s hs herr hparen => ?_⟩
    rw [noString_iff herr (by rw [hs]; exact hparen), hs, not_not]

/-- The name `A12$` is one that `sfactor` reads. -/
theorem two_digits_not_string : ¬ ∀ t : Text, ToldApart ratOps t := by
  intro h
  have hanswer := (h (bytes "A12$")).answers { basicInit ratOps with ip := ⟨none, bytes "A12$"⟩ } rfl
  have hstring : BeginsString (bytes "A12$") := .variable (by decide)
  exact absurd (hanswer.mpr hstring) (by decide)

end Sfactor

end XinuRpi4.Basic
