import XinuRpi4.Actor.Table

/-!
# The protocol of synchronous calls

What `ap_call` is for, without processes, locks and flags: slots have an owner or
none, every slot has a queue, and a process may be in a call, hold a message that
it handles, and be about to post a message. A call sends a request with the slot
of its caller as `reply_to`; the handler of the request answers it; the call takes
the first message with method `AP_REPLY` out of the queue of its slot.
-/

namespace XinuRpi4.Actor

open Process

/-- What a process carries: its call, the message it handles, and the message it
is about to post with the slot it goes to. -/
structure Load where
  call : Option Call
  hand : Option (ActorId × ApMsg)
  flight : Option (ActorId × ApMsg)

def Load.empty : Load := ⟨none, none, none⟩

/-- The state of the protocol. -/
@[ext] structure CallView where
  owner : ActorId → Option Slot
  /-- the actor ends when it is done with its message -/
  doomed : ActorId → Bool
  queue : ActorId → List ApMsg
  load : Slot → Load
  /-- `g_cur_reply` -/
  curReply : ActorId → ℤ
  nextTag : ℕ
  answers : List Outcome
  returns : List Outcome

/-- The reply address is a slot, or there is none. -/
def ApMsg.Addressed (m : ApMsg) : Prop := m.replyTo = -1 ∨ ∃ i : ActorId, m.replyTo = i.val

/-- Actions of the protocol. -/
inductive CallAct
  | idle
  | send (p : Slot) (d : ActorId) (m : ApMsg)
  | call (p : Slot) (c : Call) (m : ApMsg) (d : Option ActorId)
  | post (p : Slot) (d : ActorId) (m : ApMsg) (full : Bool)
  | recv (p : Slot) (i : ActorId) (m : ApMsg)
  | select (p : Slot) (i : ActorId) (m : ApMsg)
  | reply (p : Slot) (c : Call) (m : ApMsg)
  | answer (p : Slot) (i : ActorId) (m : ApMsg) (r : ℤ)
  | doom (i : ActorId)
  | release (D : ActorId → Bool)
  | spawn (i : ActorId)

namespace CallView

/-- The slot that waits for the reply to a request, if it has an owner. -/
def replySlot (v : CallView) (m : ApMsg) : Option ActorId :=
  if h : 0 ≤ m.replyTo ∧ m.replyTo < apNact then
    let i : ActorId := ⟨m.replyTo.toNat, by omega⟩
    if v.owner i = none then none else some i
  else none

def setLoad (v : CallView) (p : Slot) (l : Load) : CallView :=
  { v with load := Function.update v.load p l }

def setQueue (v : CallView) (i : ActorId) (q : List ApMsg) : CallView :=
  { v with queue := Function.update v.queue i q }

/-- The steps. Slots in `D` lose their owners together; an owner that is the
running process itself survives, and is in no call. -/
inductive Next (v : CallView) : CallAct → CallView → Prop
  | idle : Next v .idle v
  | send (p : Slot) (d : ActorId) (m : ApMsg) (hcall : (v.load p).call = none)
      (hflight : (v.load p).flight = none) (htag : m.tag = none) (hto : m.replyTo = -1) :
      Next v (.send p d m) (v.setLoad p { v.load p with flight := some (d, m) })
  | call (p : Slot) (c : Call) (m : ApMsg) (d : Option ActorId) (hcall : (v.load p).call = none)
      (hflight : (v.load p).flight = none) (hctag : c.tag = v.nextTag)
      (htag : m.tag = some c.tag) (hto : m.replyTo = c.self.val)
      (hd : ∀ i, d = some i → c.dest = i.val) :
      Next v (.call p c m d)
        { v.setLoad p { v.load p with call := some c, flight := d.map fun i => (i, m) } with
          nextTag := v.nextTag + 1 }
  | post (p : Slot) (d : ActorId) (m : ApMsg) (full : Bool)
      (hflight : (v.load p).flight = some (d, m)) :
      Next v (.post p d m full)
        ((if full then v else v.setQueue d (v.queue d ++ [m])).setLoad p
          { v.load p with flight := none })
  | recv (p : Slot) (i : ActorId) (m : ApMsg) (rest : List ApMsg) (howner : v.owner i = some p)
      (hload : v.load p = .empty) (hqueue : v.queue i = m :: rest) :
      Next v (.recv p i m)
        { (v.setQueue i rest).setLoad p ⟨none, some (i, m), none⟩ with
          curReply := Function.update v.curReply i m.replyTo }
  | select (p : Slot) (i : ActorId) (m : ApMsg) (meths : List ℤ) (hcall : (v.load p).call = none)
      (hfind : (v.queue i).find? (ApMsg.wanted meths) = some m) :
      Next v (.select p i m) (v.setQueue i ((v.queue i).eraseP (ApMsg.wanted meths)))
  | reply (p : Slot) (c : Call) (m : ApMsg) (hcall : (v.load p).call = some c)
      (hflight : (v.load p).flight = none)
      (hfind : (v.queue c.self).find? (ApMsg.wanted [apReply]) = some m) :
      Next v (.reply p c m)
        { (v.setQueue c.self ((v.queue c.self).eraseP (ApMsg.wanted [apReply]))).setLoad p
            { v.load p with call := none } with
          returns := ⟨c.tag, c.dest, m.a0⟩ :: v.returns }
  | answer (p : Slot) (i : ActorId) (m : ApMsg) (r : ℤ)
      (hload : v.load p = ⟨none, some (i, m), none⟩) :
      Next v (.answer p i m r)
        { v.setLoad p ⟨none, none, (v.replySlot m).map fun src => (src, replyMsg r m.tag)⟩ with
          answers := (m.tag.map fun n => (⟨n, i.val, r⟩ : Outcome)).toList ++ v.answers }
  | doom (i : ActorId) : Next v (.doom i) { v with doomed := Function.update v.doomed i true }
  | release (D : ActorId → Bool) (v' : CallView)
      (howner : ∀ i, v'.owner i = if D i then none else v.owner i)
      (hdoomed : ∀ i, ¬ D i → v'.doomed i = v.doomed i)
      (hkilled : ∀ p i, D i → v.owner i = some p → v'.load p = .empty ∨
        v'.load p = v.load p ∧ (v.load p).call = none)
      (hkept : ∀ p, (∀ i, D i → v.owner i ≠ some p) → v'.load p = v.load p)
      (hqueue : v'.queue = v.queue ∨ (∀ i, v'.queue i = []) ∧ ∀ i, v'.owner i = none)
      (hreply : v'.curReply = v.curReply) (htag : v'.nextTag = v.nextTag)
      (hans : v'.answers = v.answers) (hret : v'.returns = v.returns) : Next v (.release D) v'
  | spawn (i : ActorId) (p : Option Slot) (hfree : v.owner i = none)
      (hp : ∀ q, p = some q → v.load q = .empty ∧ ∀ j, v.owner j ≠ some q) :
      Next v (.spawn i)
        { v.setQueue i [] with
          owner := Function.update v.owner i p, doomed := Function.update v.doomed i false }

variable {v v' : CallView} {a : CallAct} {p q : Slot} {i : ActorId}

@[simp] theorem setLoad_owner (v : CallView) (p : Slot) (l : Load) :
    (v.setLoad p l).owner = v.owner := rfl

@[simp] theorem setLoad_queue (v : CallView) (p : Slot) (l : Load) :
    (v.setLoad p l).queue = v.queue := rfl

@[simp] theorem setLoad_curReply (v : CallView) (p : Slot) (l : Load) :
    (v.setLoad p l).curReply = v.curReply := rfl

@[simp] theorem setLoad_load_self (v : CallView) (p : Slot) (l : Load) :
    (v.setLoad p l).load p = l := Function.update_self ..

theorem setLoad_load_of_ne (v : CallView) (l : Load) (h : q ≠ p) :
    (v.setLoad p l).load q = v.load q := Function.update_of_ne h ..

@[simp] theorem setQueue_owner (v : CallView) (i : ActorId) (l : List ApMsg) :
    (v.setQueue i l).owner = v.owner := rfl

@[simp] theorem setQueue_load (v : CallView) (i : ActorId) (l : List ApMsg) :
    (v.setQueue i l).load = v.load := rfl

@[simp] theorem setQueue_curReply (v : CallView) (i : ActorId) (l : List ApMsg) :
    (v.setQueue i l).curReply = v.curReply := rfl

@[simp] theorem setQueue_queue_self (v : CallView) (i : ActorId) (l : List ApMsg) :
    (v.setQueue i l).queue i = l := Function.update_self ..

@[simp] theorem setLoad_doomed (v : CallView) (p : Slot) (l : Load) :
    (v.setLoad p l).doomed = v.doomed := rfl

@[simp] theorem setQueue_doomed (v : CallView) (i : ActorId) (l : List ApMsg) :
    (v.setQueue i l).doomed = v.doomed := rfl

theorem setQueue_queue_of_ne (v : CallView) (l : List ApMsg) {j : ActorId} (h : j ≠ i) :
    (v.setQueue i l).queue j = v.queue j := Function.update_of_ne h ..

theorem Next.of_eq {w : CallView} (h : Next v a v') (hw : w = v') : Next v a w := hw ▸ h

/-- The message is somewhere in the system. -/
def Has (v : CallView) (m : ApMsg) : Prop :=
  (∃ i, m ∈ v.queue i) ∨ (∃ p i, (v.load p).hand = some (i, m)) ∨
    ∃ p i, (v.load p).flight = some (i, m)

/-- Owners are different, a call is made by the owner of its slot, the reply
address of a handler is that of its message, and reply addresses are slots. -/
structure Sound (v : CallView) : Prop where
  owner_inj : ∀ i j p, v.owner i = some p → v.owner j = some p → i = j
  own : ∀ p c, (v.load p).call = some c → v.owner c.self = some p
  replyTo : ∀ p i m, (v.load p).hand = some (i, m) → v.owner i = some p → v.curReply i = m.replyTo
  addressed : ∀ m, v.Has m → m.Addressed

/-- A call is made for the slot of its process. -/
def OwnCall (v : CallView) : CallAct → Prop
  | .call p c _ _ => v.owner c.self = some p
  | _ => True

/-- Killed processes carry nothing, and the others what they carried. -/
theorem load_of_release {D : ActorId → Bool}
    (hkilled : ∀ p i, D i → v.owner i = some p → v'.load p = .empty ∨
      v'.load p = v.load p ∧ (v.load p).call = none)
    (hkept : ∀ p, (∀ i, D i → v.owner i ≠ some p) → v'.load p = v.load p) (p : Slot) :
    v'.load p = .empty ∨ v'.load p = v.load p := by
  by_cases hp : ∃ i, D i ∧ v.owner i = some p
  · obtain ⟨i, hD, hi⟩ := hp
    exact (hkilled p i hD hi).imp id And.left
  · push Not at hp
    exact Or.inr (hkept p hp)

/-- A message that a step puts into the system has a good reply address. -/
theorem Next.has {m : ApMsg} (hn : Next v a v') (hm : v'.Has m) : v.Has m ∨ m.Addressed := by
  have hload : ∀ {w : CallView} {p : Slot} {l : Load}, (w.setLoad p l).Has m →
      w.Has m ∨ (∃ i, l.hand = some (i, m)) ∨ ∃ i, l.flight = some (i, m) := by
    rintro w p l (hq | ⟨q, i, hi⟩ | ⟨q, i, hi⟩)
    · exact Or.inl (Or.inl hq)
    · by_cases hqp : q = p
      · subst hqp
        exact Or.inr (Or.inl ⟨i, by simpa using hi⟩)
      · rw [setLoad_load_of_ne _ _ hqp] at hi
        exact Or.inl (Or.inr (Or.inl ⟨q, i, hi⟩))
    · by_cases hqp : q = p
      · subst hqp
        exact Or.inr (Or.inr ⟨i, by simpa using hi⟩)
      · rw [setLoad_load_of_ne _ _ hqp] at hi
        exact Or.inl (Or.inr (Or.inr ⟨q, i, hi⟩))
  have hqueue : ∀ {w : CallView} {i : ActorId} {l : List ApMsg}, (w.setQueue i l).Has m →
      w.Has m ∨ m ∈ l := by
    rintro w i l (⟨j, hj⟩ | hrest)
    · by_cases hji : j = i
      · subst hji
        exact Or.inr (by simpa using hj)
      · rw [setQueue_queue_of_ne _ _ hji] at hj
        exact Or.inl (Or.inl ⟨j, hj⟩)
    · exact Or.inl (Or.inr hrest)
  cases hn with
  | idle => exact Or.inl hm
  | send p d m' hcall hflight htag hto =>
    rcases hload hm with h | ⟨i, hi⟩ | ⟨i, hi⟩
    · exact Or.inl h
    · exact Or.inl (Or.inr (Or.inl ⟨p, i, hi⟩))
    · cases hi
      exact Or.inr (Or.inl hto)
  | call p c m' d hcall hflight hctag htag hto hd =>
    have hm' : (v.setLoad p { v.load p with
        call := some c, flight := d.map fun i => (i, m') }).Has m := hm
    rcases hload hm' with h | ⟨i, hi⟩ | ⟨i, hi⟩
    · exact Or.inl h
    · exact Or.inl (Or.inr (Or.inl ⟨p, i, hi⟩))
    · obtain ⟨j, -, heq⟩ := Option.map_eq_some_iff.mp hi
      cases heq
      exact Or.inr (Or.inr ⟨c.self, hto⟩)
  | post p d m' full hflight =>
    rcases hload hm with h | ⟨i, hi⟩ | ⟨i, hi⟩
    · cases full with
      | true => exact Or.inl h
      | false =>
        rcases hqueue h with h | h
        · exact Or.inl h
        · rcases List.mem_append.mp h with h | h
          · exact Or.inl (Or.inl ⟨d, h⟩)
          · obtain rfl := List.mem_singleton.mp h
            exact Or.inl (Or.inr (Or.inr ⟨p, d, hflight⟩))
    · exact Or.inl (Or.inr (Or.inl ⟨p, i, hi⟩))
    · cases hi
  | recv p i m' rest howner hempty hq =>
    have hm' : ((v.setQueue i rest).setLoad p ⟨none, some (i, m'), none⟩).Has m := hm
    rcases hload hm' with h | ⟨j, hj⟩ | ⟨j, hj⟩
    · rcases hqueue h with h | h
      · exact Or.inl h
      · exact Or.inl (Or.inl ⟨i, by rw [hq]; exact List.mem_cons_of_mem m' h⟩)
    · cases hj
      exact Or.inl (Or.inl ⟨i, by rw [hq]; exact List.mem_cons_self⟩)
    · cases hj
  | select p i m' meths hcall hfind =>
    rcases hqueue hm with h | h
    · exact Or.inl h
    · exact Or.inl (Or.inl ⟨i, List.mem_of_mem_eraseP h⟩)
  | reply p c m' hcall hflight hfind =>
    have hm' : ((v.setQueue c.self ((v.queue c.self).eraseP (ApMsg.wanted [apReply]))).setLoad p
        { v.load p with call := none }).Has m := hm
    rcases hload hm' with h | ⟨i, hi⟩ | ⟨i, hi⟩
    · rcases hqueue h with h | h
      · exact Or.inl h
      · exact Or.inl (Or.inl ⟨c.self, List.mem_of_mem_eraseP h⟩)
    · exact Or.inl (Or.inr (Or.inl ⟨p, i, hi⟩))
    · exact Or.inl (Or.inr (Or.inr ⟨p, i, hi⟩))
  | answer p i m' r hl =>
    have hm' : (v.setLoad p
        ⟨none, none, (v.replySlot m').map fun src => (src, replyMsg r m'.tag)⟩).Has m := hm
    rcases hload hm' with h | ⟨j, hj⟩ | ⟨j, hj⟩
    · exact Or.inl h
    · cases hj
    · obtain ⟨src, -, heq⟩ := Option.map_eq_some_iff.mp hj
      cases heq
      exact Or.inr (Or.inl rfl)
  | doom i => exact Or.inl hm
  | release D v' howner hdoomed hkilled hkept hq hreply htag hans hret =>
    have hl := load_of_release hkilled hkept
    refine Or.inl ?_
    rcases hm with ⟨i, hi⟩ | ⟨p, i, hi⟩ | ⟨p, i, hi⟩
    · rcases hq with hq | ⟨hq, -⟩
      · exact Or.inl ⟨i, hq ▸ hi⟩
      · rw [hq i] at hi
        cases hi
    · rcases hl p with hp | hp
      · rw [hp] at hi
        cases hi
      · exact Or.inr (Or.inl ⟨p, i, hp ▸ hi⟩)
    · rcases hl p with hp | hp
      · rw [hp] at hi
        cases hi
      · exact Or.inr (Or.inr ⟨p, i, hp ▸ hi⟩)
  | spawn i p hfree hp =>
    have hm' : (v.setQueue i []).Has m := hm
    rcases hqueue hm' with h | h
    · exact Or.inl h
    · cases h

/-- Loads change in one process, which starts no call and handles no new message. -/
theorem Sound.of_setLoad (h : v.Sound) (p : Slot) (howner : v'.owner = v.owner)
    (hreply : v'.curReply = v.curReply) (hother : ∀ q, q ≠ p → v'.load q = v.load q)
    (hcall : ∀ c, (v'.load p).call = some c → v.owner c.self = some p)
    (hhand : ∀ r, (v'.load p).hand = some r → (v.load p).hand = some r)
    (haddr : ∀ m, v'.Has m → m.Addressed) : v'.Sound where
  addressed := haddr
  owner_inj := by
    rw [howner]
    exact h.owner_inj
  own q c hc := by
    rw [howner]
    by_cases hq : q = p
    · subst hq
      exact hcall c hc
    · rw [hother q hq] at hc
      exact h.own q c hc
  replyTo q i m hm hi := by
    rw [howner] at hi
    rw [hreply]
    by_cases hq : q = p
    · subst hq
      exact h.replyTo q i m (hhand _ hm) hi
    · rw [hother q hq] at hm
      exact h.replyTo q i m hm hi

theorem Sound.next (h : v.Sound) (hok : v.OwnCall a) (hn : Next v a v') : v'.Sound := by
  have haddr : ∀ m, v'.Has m → m.Addressed := fun m hm => (hn.has hm).elim (h.addressed m) id
  cases hn with
  | idle => exact h
  | send p d m hcall hflight htag hto =>
    refine h.of_setLoad p rfl rfl (fun q hq => setLoad_load_of_ne v _ hq) ?_ ?_ haddr
    · intro c hc
      simp [hcall] at hc
    · intro r hr
      simpa using hr
  | call p c m d hcall hflight hctag htag hto hd =>
    refine h.of_setLoad p rfl rfl (fun q hq => setLoad_load_of_ne v _ hq) ?_ ?_ haddr
    · intro c' hc
      simp only [setLoad_load_self] at hc
      cases hc
      exact hok
    · intro r hr
      simpa using hr
  | post p d m full hflight =>
    refine h.of_setLoad p ?_ ?_ ?_ ?_ ?_ haddr
    · cases full <;> rfl
    · cases full <;> rfl
    · intro q hq
      rw [setLoad_load_of_ne _ _ hq]
      cases full <;> rfl
    · intro c hc
      rw [setLoad_load_self] at hc
      exact h.own p c hc
    · intro r hr
      rw [setLoad_load_self] at hr
      exact hr
  | recv p i m rest howner hload hqueue =>
    refine ⟨h.owner_inj, ?_, ?_, haddr⟩
    · intro q c hc
      by_cases hq : q = p
      · subst hq
        simp at hc
      · simp only [setLoad_load_of_ne _ _ hq] at hc
        exact h.own q c hc
    · intro q j m' hm hj
      by_cases hq : q = p
      · subst hq
        simp only [setLoad_load_self, Option.some.injEq, Prod.mk.injEq] at hm
        obtain ⟨rfl, rfl⟩ := hm
        simp
      · simp only [setLoad_load_of_ne _ _ hq] at hm
        have hji : j ≠ i := by
          rintro rfl
          exact hq (Option.some.inj (hj.symm.trans howner))
        simp only [Function.update_of_ne hji]
        exact h.replyTo q j m' hm hj
  | select p i m meths hcall hfind => exact ⟨h.owner_inj, h.own, h.replyTo, haddr⟩
  | reply p c m hcall hflight hfind =>
    refine h.of_setLoad p rfl rfl (fun q hq => setLoad_load_of_ne _ _ hq) ?_ ?_ haddr
    · intro c' hc
      simp at hc
    · intro r hr
      simpa using hr
  | answer p i m r hload =>
    refine h.of_setLoad p rfl rfl (fun q hq => setLoad_load_of_ne v _ hq) ?_ ?_ haddr
    · intro c hc
      simp at hc
    · intro r hr
      simp at hr
  | doom i => exact ⟨h.owner_inj, h.own, h.replyTo, haddr⟩
  | release D v' howner hdoomed hkilled hkept hqueue hreply htag hans hret =>
    have hsub : ∀ i p, v'.owner i = some p → v.owner i = some p ∧ ¬ D i := by
      intro i p hi
      rw [howner] at hi
      split_ifs at hi with hD
      exact ⟨hi, hD⟩
    have hload := load_of_release hkilled hkept
    refine ⟨fun i j p hi hj => h.owner_inj i j p (hsub i p hi).1 (hsub j p hj).1, ?_, ?_,
      haddr⟩
    · intro p c hc
      rcases hload p with hl | hl
      · rw [hl] at hc
        cases hc
      · have hown := h.own p c (hl ▸ hc)
        rw [howner, if_neg, hown]
        intro hD
        rcases hkilled p c.self hD hown with he | ⟨-, hnone⟩
        · rw [he] at hc
          cases hc
        · rw [hl, hnone] at hc
          cases hc
    · intro p i m hm hi
      rw [hreply]
      rcases hload p with hl | hl
      · rw [hl] at hm
        cases hm
      · exact h.replyTo p i m (hl ▸ hm) (hsub i p hi).1
  | spawn i p hfree hp =>
    have hsub : ∀ j q, Function.update v.owner i p j = some q →
        j = i ∧ p = some q ∨ j ≠ i ∧ v.owner j = some q := by
      intro j q hj
      by_cases hji : j = i
      · subst hji
        exact Or.inl ⟨rfl, by simpa using hj⟩
      · exact Or.inr ⟨hji, by simpa [hji] using hj⟩
    refine ⟨?_, ?_, ?_, haddr⟩
    · intro j k q hj hk
      rcases hsub j q hj with ⟨hji, hq⟩ | ⟨-, hjq⟩ <;> rcases hsub k q hk with ⟨hki, hq'⟩ | ⟨-, hkq⟩
      · rw [hji, hki]
      · exact absurd hkq ((hp q hq).2 k)
      · exact absurd hjq ((hp q hq').2 j)
      · exact h.owner_inj j k q hjq hkq
    · intro q c hc
      have hown := h.own q c hc
      have hci : c.self ≠ i := by
        intro heq
        rw [heq, hfree] at hown
        cases hown
      simpa only [Function.update_of_ne hci] using hown
    · intro q j m hm hj
      rcases hsub j q hj with ⟨rfl, hq⟩ | ⟨-, hj⟩
      · have hempty := (hp q hq).1
        simp only [setQueue_load, hempty, Load.empty] at hm
        cases hm
      · exact h.replyTo q j m hm hj

end CallView

end XinuRpi4.Actor
