import XinuRpi4.Actor.CallProtocol

/-!
# A call returns the answer to its own request

Replies carry no mark of the call they answer: `ap_call` takes the first `AP_REPLY`
in the mailbox of its slot. The ghost tags say which call a message belongs to. There
is never more than one message with a given tag, since messages are moved and not
copied; so when a call has taken its reply nothing of it is left, and the next call
from the slot starts from a clean state. A slot that is taken over with a request or
a reply of its last owner still under way is the exception.
-/

namespace XinuRpi4.Actor

open Process

/-- Changing one value changes a sum by the difference. -/
theorem sum_update_add {ι α : Type*} [Fintype ι] [DecidableEq ι] (g : α → ℕ) (f : ι → α) (i : ι)
    (a : α) : ∑ j, g (Function.update f i a j) + g (f i) = ∑ j, g (f j) + g a := by
  have hg : ∀ j, g (Function.update f i a j) = Function.update (fun j => g (f j)) i (g a) j := by
    intro j
    by_cases hj : j = i
    · subst hj
      simp
    · simp [hj]
  have hsplit := Finset.add_sum_erase Finset.univ (fun j => g (f j)) (Finset.mem_univ i)
  simp only [hg]
  rw [Finset.sum_update_of_mem (Finset.mem_univ i), Finset.sdiff_singleton_eq_erase, ← hsplit]
  omega

/-- The message belongs to the call with the tag. -/
def ApMsg.tagged (n : ℕ) (m : ApMsg) : Bool := m.tag = some n

/-- One if there is a message and it belongs to the call with the tag. -/
def countTag (n : ℕ) : Option (ActorId × ApMsg) → ℕ
  | none => 0
  | some (_, m) => if m.tag = some n then 1 else 0

/-- How many messages of the call a process holds or is about to post. -/
def Load.count (n : ℕ) (l : Load) : ℕ := countTag n l.hand + countTag n l.flight

namespace CallView

variable {v v' : CallView} {a : CallAct} {p q : Slot} {c : Call} {d i : ActorId} {m : ApMsg} {n : ℕ}

/-- How many messages belong to the call with the tag. -/
def copies (v : CallView) (n : ℕ) : ℕ :=
  ∑ i, (v.queue i).countP (ApMsg.tagged n) + ∑ p, (v.load p).count n

theorem copies_setQueue (v : CallView) (i : ActorId) (l : List ApMsg) (n : ℕ) :
    (v.setQueue i l).copies n + (v.queue i).countP (ApMsg.tagged n) =
      v.copies n + l.countP (ApMsg.tagged n) := by
  have h := sum_update_add (fun l : List ApMsg => l.countP (ApMsg.tagged n)) v.queue i l
  unfold copies
  simp only [setQueue] at h ⊢
  omega

theorem copies_setLoad (v : CallView) (p : Slot) (l : Load) (n : ℕ) :
    (v.setLoad p l).copies n + (v.load p).count n = v.copies n + l.count n := by
  have h := sum_update_add (fun l : Load => l.count n) v.load p l
  unfold copies
  simp only [setLoad] at h ⊢
  omega

theorem Has.copies_pos (h : v.Has m) (ht : m.tag = some n) : 0 < v.copies n := by
  have hload : ∀ p, 0 < (v.load p).count n → 0 < v.copies n := by
    intro p hpos
    have hle : (v.load p).count n ≤ ∑ p, (v.load p).count n :=
      Finset.single_le_sum (f := fun p => (v.load p).count n) (fun _ _ => Nat.zero_le _)
        (Finset.mem_univ p)
    unfold copies
    omega
  rcases h with ⟨i, hi⟩ | ⟨p, i, hi⟩ | ⟨p, i, hi⟩
  · have hpos : 0 < (v.queue i).countP (ApMsg.tagged n) :=
      List.countP_pos_iff.mpr ⟨m, hi, by simp [ApMsg.tagged, ht]⟩
    have hle : (v.queue i).countP (ApMsg.tagged n) ≤ ∑ i, (v.queue i).countP (ApMsg.tagged n) :=
      Finset.single_le_sum (f := fun i => (v.queue i).countP (ApMsg.tagged n))
        (fun _ _ => Nat.zero_le _) (Finset.mem_univ i)
    unfold copies
    omega
  · exact hload p (by simp [Load.count, countTag, hi, ht])
  · exact hload p (by simp [Load.count, countTag, hi, ht])

/-- Taking a message out of a queue. -/
theorem countP_eraseP {l : List ApMsg} {w : ApMsg → Bool} (hfind : l.find? w = some m) (n : ℕ) :
    (l.eraseP w).countP (ApMsg.tagged n) + (if m.tag = some n then 1 else 0) =
      l.countP (ApMsg.tagged n) := by
  obtain ⟨hm, l₁, l₂, rfl, hl₁⟩ := List.find?_eq_some_iff_append.mp hfind
  have hno : ∀ y ∈ l₁, ¬ w y := by simpa using hl₁
  rw [List.eraseP_append_right _ hno, List.eraseP_cons_of_pos hm, List.countP_append,
    List.countP_append, List.countP_cons]
  simp only [ApMsg.tagged, decide_eq_true_eq]
  omega

/-- When a call returns its reply is gone. -/
theorem copies_reply {w : ApMsg → Bool} (hfind : (v.queue c.self).find? w = some m) (n : ℕ) :
    ((v.setQueue c.self ((v.queue c.self).eraseP w)).setLoad p
      { v.load p with call := none }).copies n + (if m.tag = some n then 1 else 0) =
      v.copies n := by
  have h₁ := copies_setQueue v c.self ((v.queue c.self).eraseP w) n
  have h₂ := copies_setLoad (v.setQueue c.self ((v.queue c.self).eraseP w)) p
    { v.load p with call := none } n
  have h₃ := countP_eraseP hfind n
  simp only [setQueue_load, Load.count] at h₂ ⊢
  omega

/-- Messages are moved and not copied; a call makes one new message. -/
theorem Next.copies_le (hn : Next v a v') :
    v'.nextTag = v.nextTag ∧ (∀ n, v'.copies n ≤ v.copies n) ∨
      v'.nextTag = v.nextTag + 1 ∧
        ∀ n, v'.copies n ≤ v.copies n + if n = v.nextTag then 1 else 0 := by
  cases hn with
  | idle => exact Or.inl ⟨rfl, fun _ => le_rfl⟩
  | send p d m hcall hflight htag hto =>
    refine Or.inl ⟨rfl, fun n => ?_⟩
    have h := copies_setLoad v p { v.load p with flight := some (d, m) } n
    simp only [Load.count, hflight, countTag, htag, reduceCtorEq, if_false] at h ⊢
    omega
  | call p c m d hcall hflight hctag htag hto hd =>
    refine Or.inr ⟨rfl, fun n => ?_⟩
    have h := copies_setLoad v p
      { v.load p with call := some c, flight := d.map fun i => (i, m) } n
    have hnew : countTag n (d.map fun i => (i, m)) ≤ if n = v.nextTag then 1 else 0 := by
      cases d with
      | none => exact Nat.zero_le _
      | some i => simp [countTag, htag, hctag, eq_comm]
    simp only [Load.count, hflight] at h
    have h0 : countTag n none = 0 := rfl
    change (v.setLoad p _).copies n ≤ _
    dsimp only at h ⊢
    omega
  | post p d m full hflight =>
    refine Or.inl ⟨by cases full <;> rfl, fun n => ?_⟩
    have h := copies_setLoad (if full then v else v.setQueue d (v.queue d ++ [m])) p
      { v.load p with flight := none } n
    have hq : (if full then v else v.setQueue d (v.queue d ++ [m])).copies n ≤
        v.copies n + countTag n (v.load p).flight := by
      cases full with
      | true => exact Nat.le_add_right ..
      | false =>
        have h' := copies_setQueue v d (v.queue d ++ [m]) n
        rw [List.countP_append, List.countP_singleton] at h'
        rw [hflight]
        simp only [countTag, ApMsg.tagged, decide_eq_true_eq] at h' ⊢
        simp only [Bool.false_eq_true, if_false]
        omega
    have hl : (if full then v else v.setQueue d (v.queue d ++ [m])).load = v.load := by
      cases full <;> rfl
    rw [hl] at h
    simp only [Load.count] at h
    have h0 : countTag n none = 0 := rfl
    dsimp only at h ⊢
    omega
  | recv p i m rest howner hempty hq =>
    refine Or.inl ⟨rfl, fun n => ?_⟩
    have h₁ := copies_setQueue v i rest n
    have h₂ := copies_setLoad (v.setQueue i rest) p ⟨none, some (i, m), none⟩ n
    rw [hq, List.countP_cons] at h₁
    simp only [setQueue_load, hempty, Load.empty, Load.count, countTag, ApMsg.tagged,
      decide_eq_true_eq] at h₁ h₂
    change ((v.setQueue i rest).setLoad p _).copies n ≤ _
    omega
  | select p i m meths hcall hfind =>
    refine Or.inl ⟨rfl, fun n => ?_⟩
    have h₁ := copies_setQueue v i ((v.queue i).eraseP (ApMsg.wanted meths)) n
    have h₂ := countP_eraseP hfind n
    omega
  | reply p c m hcall hflight hfind =>
    refine Or.inl ⟨rfl, fun n => ?_⟩
    have h := copies_reply (p := p) hfind n
    change ((v.setQueue c.self _).setLoad p _).copies n ≤ _
    omega
  | answer p i m r hl =>
    refine Or.inl ⟨rfl, fun n => ?_⟩
    have h := copies_setLoad v p
      ⟨none, none, (v.replySlot m).map fun src => (src, replyMsg r m.tag)⟩ n
    have hnew : countTag n ((v.replySlot m).map fun src => (src, replyMsg r m.tag)) ≤
        if m.tag = some n then 1 else 0 := by
      cases v.replySlot m with
      | none => exact Nat.zero_le _
      | some src => exact le_rfl
    have hold : (v.load p).count n = if m.tag = some n then 1 else 0 := by
      rw [hl]
      rfl
    have h0 : countTag n none = 0 := rfl
    simp only [Load.count] at h hold
    change (v.setLoad p _).copies n ≤ _
    omega
  | doom i => exact Or.inl ⟨rfl, fun _ => le_rfl⟩
  | release D v' howner hdoomed hkilled hkept hq hreply htag hans hret =>
    refine Or.inl ⟨htag, fun n => Nat.add_le_add ?_ ?_⟩
    · refine Finset.sum_le_sum fun i _ => ?_
      rcases hq with hq | ⟨hq, -⟩
      · rw [hq]
      · rw [hq i]
        exact Nat.zero_le _
    · refine Finset.sum_le_sum fun p _ => ?_
      rcases load_of_release hkilled hkept p with hl | hl
      · rw [hl]
        exact Nat.zero_le _
      · rw [hl]
  | spawn i p hfree hp =>
    refine Or.inl ⟨rfl, fun n => ?_⟩
    have h := copies_setQueue v i [] n
    simp only [List.countP_nil] at h
    change (v.setQueue i []).copies n ≤ _
    omega

/-- A message that is no reply; a request comes from a call to the slot, which still
waits for it, if its caller is still there. -/
def Asked (v : CallView) (d : ActorId) (m : ApMsg) : Prop :=
  m.method ≠ apReply ∧
    (m.tag = none ∧ m.replyTo = -1 ∨
      ∃ n src, m.tag = some n ∧ m.replyTo = Int.ofNat src.val ∧
        ∀ p, v.owner src = some p → (v.load p).call = some ⟨src, d.val, n⟩)

/-- A reply for the slot; if the slot has an owner, it is in the call that the reply
answers. -/
def Answers (v : CallView) (d : ActorId) (m : ApMsg) : Prop :=
  m.method = apReply ∧ m.replyTo = -1 ∧ ∃ n, m.tag = some n ∧
    ∀ p, v.owner d = some p → ∃ c, (v.load p).call = some c ∧ c.tag = n ∧
      (⟨n, c.dest, m.a0⟩ : Outcome) ∈ v.answers

/-- Requests and replies belong to the calls that wait for them, each call has at most
one message, and calls have returned what was answered. -/
structure Matched (v : CallView) : Prop extends Sound v where
  once : ∀ n, v.copies n ≤ 1
  fresh : ∀ n, v.nextTag ≤ n → v.copies n = 0
  queued : ∀ i m, v.owner i ≠ none → m ∈ v.queue i → v.Asked i m ∨ v.Answers i m
  held : ∀ p i m, (v.load p).hand = some (i, m) → v.Asked i m
  flying : ∀ p d m, (v.load p).flight = some (d, m) → v.Asked d m ∨ v.Answers d m
  matched : ∀ r ∈ v.returns, r ∈ v.answers

/-- A request or a reply of the last owner of the slot is under way. -/
def Outstanding (v : CallView) (i : ActorId) : Prop :=
  (∃ j m, v.owner j ≠ none ∧ m ∈ v.queue j ∧ m.replyTo = i.val) ∨
    (∃ p d m, (v.load p).hand = some (d, m) ∧ m.replyTo = i.val) ∨
      ∃ p d m, (v.load p).flight = some (d, m) ∧
        (m.replyTo = i.val ∨ d = i ∧ m.method = apReply)

/-- The step cannot mix up calls: no message of a send or a call poses as a reply, a
call is made by the owner of its slot, and no slot gets a new owner while requests or
replies of the last one are under way. -/
def Separate (v : CallView) : CallAct → Prop
  | .send _ _ m => m.method ≠ apReply
  | .call p c m _ => v.owner c.self = some p ∧ m.method ≠ apReply
  | .spawn i => ¬ v.Outstanding i
  | _ => True

theorem Separate.ownCall (h : v.Separate a) : v.OwnCall a := by
  cases a with
  | call p c m d => exact h.1
  | _ => trivial

/-- Who owns a slot owned it before, and is still in its call. -/
def KeepsCalls (v v' : CallView) : Prop :=
  ∀ i p, v'.owner i = some p → v.owner i = some p ∧
    ∀ c, (v.load p).call = some c → (v'.load p).call = some c

theorem Asked.mono (h : v.Asked d m) (hk : v.KeepsCalls v') : v'.Asked d m := by
  refine ⟨h.1, ?_⟩
  rcases h.2 with hplain | ⟨n, src, ht, hto, hcall⟩
  · exact Or.inl hplain
  · refine Or.inr ⟨n, src, ht, hto, fun p hp => ?_⟩
    obtain ⟨hold, hkeep⟩ := hk src p hp
    exact hkeep _ (hcall p hold)

theorem Answers.mono (h : v.Answers d m) (hk : v.KeepsCalls v')
    (hans : ∀ r ∈ v.answers, r ∈ v'.answers) : v'.Answers d m := by
  obtain ⟨hmeth, hto, n, ht, hcall⟩ := h
  refine ⟨hmeth, hto, n, ht, fun p hp => ?_⟩
  obtain ⟨hold, hkeep⟩ := hk d p hp
  obtain ⟨c, hc, htag, hmem⟩ := hcall p hold
  exact ⟨c, hkeep c hc, htag, hans _ hmem⟩

theorem Matched.counts (h : v.Matched) (hn : Next v a v') :
    (∀ n, v'.copies n ≤ 1) ∧ ∀ n, v'.nextTag ≤ n → v'.copies n = 0 := by
  rcases hn.copies_le with ⟨htag, hle⟩ | ⟨htag, hle⟩
  · refine ⟨fun n => (hle n).trans (h.once n), fun n hn => ?_⟩
    have h0 := h.fresh n (by omega)
    have := hle n
    omega
  · constructor
    · intro n
      have hn := hle n
      split_ifs at hn with heq
      · have h0 := h.fresh n (by omega)
        omega
      · have := h.once n
        omega
    · intro n hn
      have hn' := hle n
      have h0 := h.fresh n (by omega)
      rw [if_neg (by omega)] at hn'
      omega

/-- A step that keeps calls, and whose messages were there before or are right. -/
theorem Matched.of_kept (h : v.Matched) (hn : Next v a v') (hsound : v'.Sound)
    (hk : v.KeepsCalls v') (hans : ∀ r ∈ v.answers, r ∈ v'.answers)
    (hret : v'.returns = v.returns)
    (hqueue : ∀ i m, v'.owner i ≠ none → m ∈ v'.queue i →
      m ∈ v.queue i ∨ v'.Asked i m ∨ v'.Answers i m)
    (hhand : ∀ p i m, (v'.load p).hand = some (i, m) →
      (v.load p).hand = some (i, m) ∨ v'.Asked i m)
    (hflight : ∀ p d m, (v'.load p).flight = some (d, m) →
      (v.load p).flight = some (d, m) ∨ v'.Asked d m ∨ v'.Answers d m) : v'.Matched := by
  have hmono : ∀ d m, v.Asked d m ∨ v.Answers d m → v'.Asked d m ∨ v'.Answers d m :=
    fun d m => Or.imp (fun h => h.mono hk) fun h => h.mono hk hans
  refine ⟨hsound, (h.counts hn).1, (h.counts hn).2, ?_, ?_, ?_, ?_⟩
  · intro i m hi hm
    rcases hqueue i m hi hm with hold | hnew
    · have hlive : v.owner i ≠ none := by
        obtain ⟨p, hp⟩ := Option.ne_none_iff_exists'.mp hi
        rw [(hk i p hp).1]
        simp
      exact hmono i m (h.queued i m hlive hold)
    · exact hnew
  · intro p i m hm
    rcases hhand p i m hm with hold | hnew
    · exact (h.held p i m hold).mono hk
    · exact hnew
  · intro p d m hm
    rcases hflight p d m hm with hold | hnew
    · exact hmono d m (h.flying p d m hold)
    · exact hnew
  · intro r hr
    rw [hret] at hr
    exact hans r (h.matched r hr)

/-- The same, when the load of one process changes. -/
theorem Matched.of_load (h : v.Matched) (hn : Next v a v') (hsound : v'.Sound)
    (howner : v'.owner = v.owner) (hother : ∀ q, q ≠ p → v'.load q = v.load q)
    (hcall : ∀ c, (v.load p).call = some c → (v'.load p).call = some c)
    (hans : ∀ r ∈ v.answers, r ∈ v'.answers) (hret : v'.returns = v.returns)
    (hqueue : v.KeepsCalls v' → ∀ i m, v'.owner i ≠ none → m ∈ v'.queue i →
      m ∈ v.queue i ∨ v'.Asked i m ∨ v'.Answers i m)
    (hhand : v.KeepsCalls v' → ∀ i m, (v'.load p).hand = some (i, m) →
      (v.load p).hand = some (i, m) ∨ v'.Asked i m)
    (hflight : v.KeepsCalls v' → ∀ d m, (v'.load p).flight = some (d, m) →
      (v.load p).flight = some (d, m) ∨ v'.Asked d m ∨ v'.Answers d m) : v'.Matched := by
  have hk : v.KeepsCalls v' := by
    intro i q hq
    refine ⟨howner ▸ hq, fun c hc => ?_⟩
    by_cases hqp : q = p
    · subst hqp
      exact hcall c hc
    · rwa [hother q hqp]
  refine h.of_kept hn hsound hk hans hret (hqueue hk) ?_ ?_
  · intro q i m hm
    by_cases hqp : q = p
    · subst hqp
      exact hhand hk i m hm
    · exact Or.inl (hother q hqp ▸ hm)
  · intro q d m hm
    by_cases hqp : q = p
    · subst hqp
      exact hflight hk d m hm
    · exact Or.inl (hother q hqp ▸ hm)

theorem replySlot_replyTo (h : v.replySlot m = some d) : m.replyTo = d.val := by
  unfold replySlot at h
  split_ifs at h with hto
  simp only at h
  split_ifs at h with hnone
  obtain rfl := Option.some.inj h
  simp only
  omega

/-- A call returns: nothing of it is left. -/
theorem Matched.reply (h : v.Matched) (hsound : v'.Sound) (hcall : (v.load p).call = some c)
    (hflight : (v.load p).flight = none)
    (hfind : (v.queue c.self).find? (ApMsg.wanted [apReply]) = some m)
    (hv : v' = { (v.setQueue c.self ((v.queue c.self).eraseP (ApMsg.wanted [apReply]))).setLoad p
      { v.load p with call := none } with returns := ⟨c.tag, c.dest, m.a0⟩ :: v.returns }) :
    v'.Matched := by
  have hn : Next v (.reply p c m) v' := (Next.reply p c m hcall hflight hfind).of_eq hv
  have hown := h.own p c hcall
  -- the message that is taken is the reply to the call
  have hmeth : m.method = apReply := by
    have := List.find?_some hfind
    simpa [ApMsg.wanted] using this
  have hmem := List.mem_of_find?_eq_some hfind
  have hans : m.tag = some c.tag ∧ (⟨c.tag, c.dest, m.a0⟩ : Outcome) ∈ v.answers := by
    rcases h.queued c.self m (by rw [hown]; simp) hmem with hask | ⟨-, -, n, ht, hc⟩
    · exact absurd hmeth hask.1
    · obtain ⟨c', hc', htag, hout⟩ := hc p hown
      rw [hcall] at hc'
      obtain rfl := Option.some.inj hc'
      rw [htag]
      exact ⟨ht, hout⟩
  have hgone : ∀ x, v'.Has x → x.tag ≠ some c.tag := by
    intro x hx ht
    have hpos := hx.copies_pos ht
    have hcount := copies_reply (p := p) hfind c.tag
    have honce := h.once c.tag
    rw [if_pos hans.1] at hcount
    have heq : v'.copies c.tag = ((v.setQueue c.self
        ((v.queue c.self).eraseP (ApMsg.wanted [apReply]))).setLoad p
          { v.load p with call := none }).copies c.tag := by
      rw [hv]
      rfl
    omega
  have howner : v'.owner = v.owner := by rw [hv]; rfl
  have hload : ∀ q, q ≠ p → v'.load q = v.load q := by
    intro q hq
    rw [hv]
    exact setLoad_load_of_ne _ _ hq
  have hself : v'.load p = { v.load p with call := none } := by
    rw [hv]
    exact setLoad_load_self ..
  have hanswers : v'.answers = v.answers := by rw [hv]; rfl
  have hasked : ∀ d x, v'.Has x → v.Asked d x → v'.Asked d x := by
    rintro d x hx ⟨hm, hplain | ⟨n, src, ht, hto, hc⟩⟩
    · exact ⟨hm, Or.inl hplain⟩
    · refine ⟨hm, Or.inr ⟨n, src, ht, hto, fun q hq => ?_⟩⟩
      rw [howner] at hq
      have hqp : q ≠ p := by
        rintro rfl
        have := hc q hq
        rw [hcall] at this
        obtain rfl := Option.some.inj this
        exact hgone x hx ht
      rw [hload q hqp]
      exact hc q hq
  have hanswered : ∀ d x, v'.Has x → v.Answers d x → v'.Answers d x := by
    rintro d x hx ⟨hm, hto, n, ht, hc⟩
    refine ⟨hm, hto, n, ht, fun q hq => ?_⟩
    rw [howner] at hq
    obtain ⟨c', hc', htag, hout⟩ := hc q hq
    have hqp : q ≠ p := by
      rintro rfl
      rw [hcall] at hc'
      obtain rfl := Option.some.inj hc'
      exact hgone x hx (htag ▸ ht)
    refine ⟨c', by rw [hload q hqp]; exact hc', htag, by rw [hanswers]; exact hout⟩
  refine ⟨hsound, (h.counts hn).1, (h.counts hn).2, ?_, ?_, ?_, ?_⟩
  · intro i x hi hx
    have hold : x ∈ v.queue i := by
      rw [hv] at hx
      by_cases hic : i = c.self
      · subst hic
        have hx' : x ∈ (v.queue c.self).eraseP (ApMsg.wanted [apReply]) := by simpa using hx
        exact List.mem_of_mem_eraseP hx'
      · simpa only [setLoad_queue, setQueue_queue_of_ne _ _ hic] using hx
    rw [howner] at hi
    have hhas : v'.Has x := Or.inl ⟨i, hx⟩
    exact (h.queued i x hi hold).imp (hasked i x hhas) (hanswered i x hhas)
  · intro q i x hx
    have hhas : v'.Has x := Or.inr (Or.inl ⟨q, i, hx⟩)
    by_cases hqp : q = p
    · subst hqp
      rw [hself] at hx
      exact hasked i x hhas (h.held q i x hx)
    · rw [hload q hqp] at hx
      exact hasked i x hhas (h.held q i x hx)
  · intro q d x hx
    have hhas : v'.Has x := Or.inr (Or.inr ⟨q, d, hx⟩)
    by_cases hqp : q = p
    · subst hqp
      rw [hself] at hx
      exact (h.flying q d x hx).imp (hasked d x hhas) (hanswered d x hhas)
    · rw [hload q hqp] at hx
      exact (h.flying q d x hx).imp (hasked d x hhas) (hanswered d x hhas)
  · intro r hr
    rw [hanswers]
    rw [hv] at hr
    rcases List.mem_cons.mp hr with rfl | hr
    · exact hans.2
    · exact h.matched r hr

/-- A slot gets a new owner that nothing refers to. -/
theorem Matched.spawn {o : Option Slot} (h : v.Matched) (hok : ¬ v.Outstanding i)
    (hn : Next v (.spawn i) v') (hsound : v'.Sound)
    (hv : v' = { v.setQueue i [] with
      owner := Function.update v.owner i o, doomed := Function.update v.doomed i false }) :
    v'.Matched := by
  have hload : v'.load = v.load := by rw [hv]; rfl
  have hother : ∀ j, j ≠ i → v'.owner j = v.owner j := by
    intro j hj
    rw [hv]
    exact Function.update_of_ne hj ..
  have hasked : ∀ d x, v.Asked d x → x.replyTo ≠ i.val → v'.Asked d x := by
    rintro d x ⟨hm, hplain | ⟨n, src, ht, hto, hc⟩⟩ hne
    · exact ⟨hm, Or.inl hplain⟩
    · refine ⟨hm, Or.inr ⟨n, src, ht, hto, fun q hq => ?_⟩⟩
      have hsrc : src ≠ i := by
        rintro rfl
        exact hne hto
      rw [hother src hsrc] at hq
      rw [hload]
      exact hc q hq
  have hanswered : ∀ d x, d ≠ i → v.Answers d x → v'.Answers d x := by
    rintro d x hd ⟨hm, hto, n, ht, hc⟩
    refine ⟨hm, hto, n, ht, fun q hq => ?_⟩
    rw [hother d hd] at hq
    rw [hload, show v'.answers = v.answers by rw [hv]; rfl]
    exact hc q hq
  refine ⟨hsound, (h.counts hn).1, (h.counts hn).2, ?_, ?_, ?_, ?_⟩
  · intro j x hj hx
    by_cases hji : j = i
    · subst hji
      rw [hv] at hx
      simp only [setQueue_queue_self] at hx
      cases hx
    · rw [hother j hji] at hj
      have hold : x ∈ v.queue j := by
        rw [hv] at hx
        simpa only [setQueue_queue_of_ne _ _ hji] using hx
      have hne : x.replyTo ≠ i.val := fun heq => hok (Or.inl ⟨j, x, hj, hold, heq⟩)
      exact (h.queued j x hj hold).imp (fun ha => hasked j x ha hne) (hanswered j x hji)
  · intro p j x hx
    rw [hload] at hx
    exact hasked j x (h.held p j x hx) fun heq => hok (Or.inr (Or.inl ⟨p, j, x, hx, heq⟩))
  · intro p d x hx
    rw [hload] at hx
    rcases h.flying p d x hx with ha | ha
    · exact Or.inl (hasked d x ha fun heq => hok (Or.inr (Or.inr ⟨p, d, x, hx, Or.inl heq⟩)))
    · refine Or.inr (hanswered d x ?_ ha)
      rintro rfl
      exact hok (Or.inr (Or.inr ⟨p, d, x, hx, Or.inr ⟨rfl, ha.1⟩⟩))
  · intro r hr
    rw [hv] at hr ⊢
    exact h.matched r hr

theorem Matched.next (h : v.Matched) (hok : v.Separate a) (hn : Next v a v') : v'.Matched := by
  have hsound := h.toSound.next hok.ownCall hn
  cases hn with
  | idle => exact h
  | send p d m hcall hflight htag hto =>
    refine h.of_load (p := p) (Next.send p d m hcall hflight htag hto) hsound rfl
      (fun q hq => setLoad_load_of_ne v _ hq) ?_ (fun _ hr => hr) rfl
      (fun _ i m _ hm => Or.inl hm) ?_ ?_
    · intro c hc
      rw [hcall] at hc
      cases hc
    · intro _ i x hx
      exact Or.inl (by simpa using hx)
    · intro _ e x hx
      simp only [setLoad_load_self, Option.some.injEq, Prod.mk.injEq] at hx
      obtain ⟨rfl, rfl⟩ := hx
      exact Or.inr (Or.inl ⟨hok, Or.inl ⟨htag, hto⟩⟩)
  | call p c m d hcall hflight hctag htag hto hd =>
    refine h.of_load (p := p) (Next.call p c m d hcall hflight hctag htag hto hd) hsound rfl
      (fun q hq => setLoad_load_of_ne v _ hq) ?_ (fun _ hr => hr) rfl
      (fun _ i m _ hm => Or.inl hm) ?_ ?_
    · intro c hc
      rw [hcall] at hc
      cases hc
    · intro _ i x hx
      exact Or.inl (by simpa using hx)
    · intro _ e x hx
      simp only [setLoad_load_self] at hx
      obtain ⟨j, hj, heq⟩ := Option.map_eq_some_iff.mp hx
      cases heq
      refine Or.inr (Or.inl ⟨hok.2, Or.inr ⟨c.tag, c.self, htag, hto, fun q hq => ?_⟩⟩)
      have hq' : v.owner c.self = some q := hq
      rw [hok.1] at hq'
      obtain rfl := Option.some.inj hq'
      simp only [setLoad_load_self, ← hd _ hj]
  | post p d m full hflight =>
    refine h.of_load (p := p) (Next.post p d m full hflight) hsound (by cases full <;> rfl) ?_ ?_ ?_
      (by cases full <;> rfl) ?_ ?_ ?_
    · intro q hq
      rw [setLoad_load_of_ne _ _ hq]
      cases full <;> rfl
    · intro c hc
      rw [setLoad_load_self]
      exact hc
    · intro r hr
      cases full <;> exact hr
    · intro hk i x _ hx
      cases full with
      | true => exact Or.inl hx
      | false =>
        by_cases hid : i = d
        · subst hid
          have hx' : x ∈ v.queue i ++ [m] := by simpa using hx
          rcases List.mem_append.mp hx' with hold | hnew
          · exact Or.inl hold
          · obtain rfl := List.mem_singleton.mp hnew
            exact Or.inr ((h.flying p i x hflight).imp (fun ha => ha.mono hk)
              fun ha => ha.mono hk fun _ hr => hr)
        · refine Or.inl ?_
          simpa [setQueue_queue_of_ne _ _ hid] using hx
    · intro _ i x hx
      rw [setLoad_load_self] at hx
      exact Or.inl hx
    · intro _ e x hx
      rw [setLoad_load_self] at hx
      cases hx
  | recv p i m rest howner hempty hq =>
    have hm : m ∈ v.queue i := by
      rw [hq]
      exact List.mem_cons_self
    have hask : v.Asked i m := by
      rcases h.queued i m (by rw [howner]; simp) hm with ha | ⟨-, -, n, -, hc⟩
      · exact ha
      · obtain ⟨c, hc, -⟩ := hc p howner
        rw [hempty] at hc
        cases hc
    refine h.of_load (p := p) (Next.recv p i m rest howner hempty hq) hsound rfl
      (fun q hq => setLoad_load_of_ne _ _ hq) ?_ (fun _ hr => hr) rfl ?_ ?_ ?_
    · intro c hc
      rw [hempty] at hc
      cases hc
    · intro _ j x _ hx
      refine Or.inl ?_
      by_cases hji : j = i
      · subst hji
        rw [hq]
        have hx' : x ∈ rest := by simpa using hx
        exact List.mem_cons_of_mem m hx'
      · simpa only [setLoad_queue, setQueue_queue_of_ne _ _ hji] using hx
    · intro hk j x hx
      simp only [setLoad_load_self, Option.some.injEq, Prod.mk.injEq] at hx
      obtain ⟨rfl, rfl⟩ := hx
      exact Or.inr (hask.mono hk)
    · intro _ e x hx
      simp at hx
  | select p i m meths hcall hfind =>
    refine h.of_kept (Next.select p i m meths hcall hfind) hsound
      (fun _ _ hq => ⟨hq, fun _ hc => hc⟩) (fun _ hr => hr) rfl ?_ (fun _ _ _ hx => Or.inl hx)
      fun _ _ _ hx => Or.inl hx
    intro j x _ hx
    refine Or.inl ?_
    by_cases hji : j = i
    · subst hji
      rw [setQueue_queue_self] at hx
      exact List.mem_of_mem_eraseP hx
    · rwa [setQueue_queue_of_ne _ _ hji] at hx
  | reply p c m hcall hflight hfind => exact h.reply hsound hcall hflight hfind rfl
  | answer p i m r hl =>
    refine h.of_load (p := p) (Next.answer p i m r hl) hsound rfl
      (fun q hq => setLoad_load_of_ne v _ hq) ?_ (fun _ hr => List.mem_append_right _ hr) rfl
      (fun _ j x _ hx => Or.inl hx) ?_ ?_
    · intro c hc
      rw [hl] at hc
      cases hc
    · intro _ j x hx
      simp at hx
    · intro hk e x hx
      simp only [setLoad_load_self] at hx
      obtain ⟨src, hsrc, heq⟩ := Option.map_eq_some_iff.mp hx
      cases heq
      have hto := replySlot_replyTo hsrc
      rcases (h.held p i m (by rw [hl])).2 with ⟨-, hnone⟩ | ⟨n, src', ht, hto', hc⟩
      · omega
      · obtain rfl : src' = e := by
          rw [hto] at hto'
          exact Fin.ext (by simpa using hto'.symm)
        refine Or.inr (Or.inr ⟨rfl, rfl, n, ht, fun q hq => ?_⟩)
        obtain ⟨hold, hkeep⟩ := hk src' q hq
        exact ⟨⟨src', i.val, n⟩, hkeep _ (hc q hold), rfl, by simp [ht, replyMsg]⟩
  | doom i =>
    exact h.of_kept (Next.doom i) hsound (fun _ _ hq => ⟨hq, fun _ hc => hc⟩) (fun _ hr => hr) rfl
      (fun _ _ _ hx => Or.inl hx) (fun _ _ _ hx => Or.inl hx) fun _ _ _ hx => Or.inl hx
  | release D v' howner hdoomed hkilled hkept hq hreply htag hans hret =>
    have hn := Next.release D v' howner hdoomed hkilled hkept hq hreply htag hans hret
    have hload := load_of_release hkilled hkept
    refine h.of_kept hn hsound ?_ (by rw [hans]; exact fun _ hr => hr) hret ?_ ?_ ?_
    · intro i p hp
      rw [howner] at hp
      split_ifs at hp with hD
      refine ⟨hp, fun c hc => ?_⟩
      rw [hkept p fun j hj hjp => hD (h.owner_inj j i p hjp hp ▸ hj)]
      exact hc
    · intro i x hi hx
      rcases hq with hq | ⟨-, hnone⟩
      · exact Or.inl (hq ▸ hx)
      · exact absurd (hnone i) hi
    · intro p i x hx
      rcases hload p with hl | hl
      · rw [hl] at hx
        cases hx
      · exact Or.inl (hl ▸ hx)
    · intro p d x hx
      rcases hload p with hl | hl
      · rw [hl] at hx
        cases hx
      · exact Or.inl (hl ▸ hx)
  | spawn i p hfree hp => exact h.spawn hok (Next.spawn i p hfree hp) hsound rfl

end CallView

end XinuRpi4.Actor
