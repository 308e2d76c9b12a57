import XinuRpi4.Basic.StringLet

/-!
# Keywords

What the lexer takes for a keyword, and the chain of the keywords that are tried one after
the other.

A text begins with one keyword at most, so a statement that begins with a keyword of the list
does what stands beside it there.
-/

namespace XinuRpi4.Basic

section

variable {ν : Type}

theorem alnum_ne_dollar {c : UInt8} (h : isAlnum c = true) : c ≠ chr '$' := by
  rintro rfl
  exact absurd h (by decide)

theorem alpha_alnum {c : UInt8} (h : bIsalpha c = true) : isAlnum c = true := by
  rw [isAlnum, h, Bool.true_or]

theorem digit_not_alpha {c : UInt8} (h : isAlnum c = true) (hc : bIsalpha c = false) :
    bIsdigit c = true := by
  rwa [isAlnum, hc, Bool.false_or] at h

/-- A small letter and its capital. -/
theorem bUp_cases {c d : UInt8} (h : bUp c = d) : c = d ∨ c = d + 32 := by
  unfold bUp at h
  split_ifs at h with hc
  · right
    rw [← h]
    exact (UInt8.sub_add_cancel c 32).symm
  · exact Or.inl h

theorem bUp_dollar {c : UInt8} : bUp c = chr '$' ↔ c = chr '$' := by
  constructor
  · intro h
    rcases bUp_cases h with hc | hc
    · exact hc
    · rw [hc] at h
      exact absurd h (by decide)
  · rintro rfl
    decide

/-- A keyword that is there: its letters in either case, and no letter or digit behind. -/
theorem matchKw_eq_some {k t r : Text} (h : matchKw k t = some r) :
    ∃ u, t = u ++ r ∧ u.map bUp = k ∧ isAlnum (r.headD 0) = false := by
  induction k generalizing t with
  | nil =>
    rw [matchKw] at h
    split_ifs at h with hhead
    obtain rfl := Option.some.inj h
    exact ⟨[], rfl, rfl, by simpa using hhead⟩
  | cons x k ih =>
    cases t with
    | nil => simp [matchKw] at h
    | cons c t =>
      rw [matchKw] at h
      split_ifs at h with hc
      obtain ⟨u, rfl, hu, hend⟩ := ih h
      exact ⟨c :: u, rfl, by rw [List.map_cons, hc, hu], hend⟩

section Lexer

variable {s : Interp ν}

theorem kw_present {k : String} {r : Text} (hblank : skipped s = s)
    (h : matchKw (bytes k) s.ip.rest = some r) :
    (kw k).run s = some (true, { s with ip := { s.ip with rest := r } }) := by
  rw [kw_run, hblank, h]
  rfl

/-- One turn of the chain of keywords. -/
theorem kw_ite {α : Type} {k : String} (hblank : skipped s = s) (m m' : BasicM ν α) :
    (do if ← kw k then m else m' : BasicM ν α).run s =
      (match matchKw (bytes k) s.ip.rest with
        | some r => m.run { s with ip := { s.ip with rest := r } }
        | none => m'.run s) := by
  cases h : matchKw (bytes k) s.ip.rest with
  | none =>
    rw [StateT.run_bind, kw_absent hblank h]
    rfl
  | some r =>
    rw [StateT.run_bind, kw_present hblank h]
    rfl

end Lexer

end

section

variable {ν : Type} {s : Interp ν}

/-- A name in capitals, as a keyword or a label is. -/
def Capitals (k : Text) : Prop := ∀ c d, c ∈ k → bUp d = c → isAlnum d = true

theorem capitals_of_letters {k : Text} (h : k.all fun c => 65 ≤ c && c ≤ 90) : Capitals k := by
  intro c d hc hd
  have hc := List.all_eq_true.mp h c hc
  simp only [Bool.and_eq_true, decide_eq_true_eq] at hc
  obtain ⟨hlo, hhi⟩ := hc
  obtain rfl | rfl := bUp_cases hd
  · simp [isAlnum, bIsalpha, hlo, hhi]
  · have hup : 97 ≤ c + 32 ∧ c + 32 ≤ 122 := by
      rw [UInt8.le_iff_toNat_le] at hlo hhi ⊢
      rw [UInt8.le_iff_toNat_le, UInt8.toNat_add]
      simp at hlo hhi ⊢
      omega
    simp [isAlnum, bIsalpha, hup]

/-- Two names that a text begins with are the same. -/
theorem matchKw_unique {k k' t r r' : Text} (hk : Capitals k) (hk' : Capitals k')
    (h : matchKw k t = some r) (h' : matchKw k' t = some r') : k = k' := by
  induction k generalizing k' t with
  | nil =>
    cases k' with
    | nil => rfl
    | cons x k' =>
      cases t with
      | nil => simp [matchKw] at h'
      | cons c t =>
        simp only [matchKw] at h h'
        split_ifs at h h' with hend hc
        exact absurd (hk' x c List.mem_cons_self hc) hend
  | cons x k ih =>
    cases t with
    | nil => simp [matchKw] at h
    | cons c t =>
      rw [matchKw] at h
      split_ifs at h with hc
      cases k' with
      | nil =>
        rw [matchKw] at h'
        split_ifs at h' with hend
        exact absurd (hk x c List.mem_cons_self hc) hend
      | cons y k' =>
        rw [matchKw] at h'
        split_ifs at h' with hc'
        have hrest := ih (fun a d ha => hk a d (List.mem_cons_of_mem _ ha))
          (fun a d ha => hk' a d (List.mem_cons_of_mem _ ha)) h h'
        rw [← hc, ← hc', hrest]

/-- The keyword at the cursor decides. -/
theorem dispatch_present (hblank : skipped s = s) (other : BasicM ν Unit)
    {ks : List (String × BasicM ν Unit)} {k : String} {m : BasicM ν Unit} {r : Text}
    (hmem : (k, m) ∈ ks) (hcapitals : ∀ km ∈ ks, Capitals (bytes km.1))
    (hnodup : (ks.map fun km => bytes km.1).Nodup) (h : matchKw (bytes k) s.ip.rest = some r) :
    (dispatch ks other).run s = m.run { s with ip := { s.ip with rest := r } } := by
  induction ks with
  | nil => cases hmem
  | cons km ks ih =>
    rw [dispatch, kw_ite hblank]
    rw [List.map_cons, List.nodup_cons] at hnodup
    obtain rfl | hmem := List.mem_cons.mp hmem
    · rw [h]
    · have hother : matchKw (bytes km.1) s.ip.rest = none := by
        by_contra hsome
        obtain ⟨r', hr'⟩ := Option.ne_none_iff_exists'.mp hsome
        have hsame := matchKw_unique (hcapitals km List.mem_cons_self)
          (hcapitals (k, m) (List.mem_cons_of_mem _ hmem)) hr' h
        exact hnodup.1 (hsame ▸ List.mem_map_of_mem hmem)
      rw [hother]
      exact ih hmem (fun km' hkm' => hcapitals km' (List.mem_cons_of_mem _ hkm')) hnodup.2

section Statement

variable (N : NumOps ν)

theorem keywords_capitals (self : BasicM ν Unit) : ∀ km ∈ keywords N self, Capitals (bytes km.1) := by
  intro km hkm
  apply capitals_of_letters
  have hname : km.1 ∈ (keywords N self).map Prod.fst := List.mem_map_of_mem hkm
  revert hname
  generalize km.1 = k
  simp only [keywords, List.map_cons, List.map_nil]
  revert k
  decide

theorem keywords_nodup (self : BasicM ν Unit) : ((keywords N self).map fun km => bytes km.1).Nodup := by
  simp only [keywords, List.map_cons, List.map_nil]
  decide

/-- No keyword of the list is empty or the one of a remark. -/
theorem keywords_other (self : BasicM ν Unit) :
    ∀ km ∈ keywords N self, bytes km.1 ≠ [] ∧ bytes km.1 ≠ bytes "REM" := by
  intro km hkm
  have hname : km.1 ∈ (keywords N self).map Prod.fst := List.mem_map_of_mem hkm
  revert hname
  generalize km.1 = k
  simp only [keywords, List.map_cons, List.map_nil]
  revert k
  decide

/-- A name begins with a letter or a digit. -/
theorem alnum_of_matchKw {k t r : Text} (hk : Capitals k) (hne : k ≠ []) (h : matchKw k t = some r) :
    isAlnum (t.headD 0) = true := by
  cases k with
  | nil => exact absurd rfl hne
  | cons x k =>
    cases t with
    | nil => simp [matchKw] at h
    | cons c t =>
      rw [matchKw] at h
      split_ifs at h with hc
      exact hk x c List.mem_cons_self hc

theorem capitals_rem : Capitals (bytes "REM") := capitals_of_letters (by decide)

/-- The part of `exec_stmt` behind the blanks. -/
theorem execStmt_run (depth : ℕ) (s : Interp ν) : (execStmt N (depth + 1)).run s =
    (if (atStatement s).ip.rest.headD 0 = 0 then return ()
      else if (atStatement s).ip.rest.headD 0 = chr '*' then setRest []
      else do
        if ← kw "REM" then setRest []
        else if (atStatement s).ip.rest.headD 0 = chr '?' then
          advance
          doPrint N
        else dispatch (keywords N (execStmt N depth)) (assign N) : BasicM ν Unit).run
      (atStatement s) := rfl

/-- A statement that begins with a keyword. -/
theorem execStmt_keyword {depth : ℕ} {k : String} {m : BasicM ν Unit} {r : Text}
    (hmem : (k, m) ∈ keywords N (execStmt N depth))
    (h : matchKw (bytes k) (atStatement s).ip.rest = some r) :
    (execStmt N (depth + 1)).run s =
      m.run { atStatement s with ip := { (atStatement s).ip with rest := r } } := by
  have hcapitals := keywords_capitals N (execStmt N depth)
  obtain ⟨hne, hrem⟩ := keywords_other N (execStmt N depth) (k, m) hmem
  have halnum := alnum_of_matchKw (hcapitals (k, m) hmem) hne h
  have hhead {c : UInt8} (hc : isAlnum c = false) : (atStatement s).ip.rest.headD 0 ≠ c := by
    intro heq
    rw [heq, hc] at halnum
    cases halnum
  have hnot : matchKw (bytes "REM") (atStatement s).ip.rest = none := by
    by_contra hsome
    obtain ⟨r', hr'⟩ := Option.ne_none_iff_exists'.mp hsome
    exact hrem (matchKw_unique (hcapitals (k, m) hmem) capitals_rem h hr')
  rw [execStmt_run, if_neg (hhead (by decide)), if_neg (hhead (by decide)), StateT.run_bind,
    kw_absent (skipped_atStatement s) hnot]
  have hdispatch := dispatch_present (skipped_atStatement s) (assign N) hmem hcapitals
    (keywords_nodup N _) h
  rw [← hdispatch]
  exact congrArg (StateT.run · (atStatement s)) (if_neg (hhead (by decide)))

end Statement

end

end XinuRpi4.Basic
