import XinuRpi4.Actor.Table

/-!
# A mailbox is a bounded list

The ring of a slot, read from head to tail, behaves as a list of at most
`AP_QLEN - 1` messages: `ap_post` appends or drops, `ap_recv` takes the first
message and `ap_select` the first one with a method that is asked for.
-/

namespace XinuRpi4.Actor

open Foundation

/-- Calls on the mailbox of one slot. -/
inductive MailOp
  | post (m : ApMsg)
  | recv (nowMs : ℕ)
  | select (meths : List ℤ)

/-- The abstract mailbox: the queued messages, and how many found it full. -/
structure MailList where
  queue : List ApMsg
  dropFull : ℕ

namespace MailList

/-- Room for one more message. -/
def HasRoom (a : MailList) : Prop := a.queue.length < apQlen - 1

instance (a : MailList) : Decidable a.HasRoom := inferInstanceAs (Decidable (_ < _))

/-- One call on a slot that accepts messages (`live`) or not. -/
def step (live : Bool) (a : MailList) : MailOp → MailList × Option ApMsg
  | .post m =>
    if live then
      if a.HasRoom then ({ a with queue := a.queue ++ [m] }, none)
      else ({ a with dropFull := a.dropFull + 1 }, none)
    else (a, none)
  | .recv _ => ({ a with queue := a.queue.tail }, a.queue.head?)
  | .select meths =>
    ({ a with queue := a.queue.eraseP (ApMsg.wanted meths) }, a.queue.find? (ApMsg.wanted meths))

/-- The message that a call adds to the queue. -/
def accepted (live : Bool) (a : MailList) : MailOp → Option ApMsg
  | .post m => if live ∧ a.HasRoom then some m else none
  | _ => none

/-- The abstract run, with the message each call returns. -/
def run (live : Bool) : MailList → List MailOp → MailList × List (Option ApMsg)
  | a, [] => (a, [])
  | a, op :: ops =>
    let r := run live (a.step live op).1 ops
    (r.1, (a.step live op).2 :: r.2)

/-- The messages that a run accepts. -/
def acceptedRun (live : Bool) : MailList → List MailOp → List ApMsg
  | _, [] => []
  | a, op :: ops => (a.accepted live op).toList ++ acceptedRun live (a.step live op).1 ops

end MailList

namespace ActorTable

/-- One call on the mailbox of slot `i`; `none` for a receive that blocks. -/
def mailStep (t : ActorTable) (i : ActorId) : MailOp → ActorTable × Option ApMsg
  | .post m => ((t.apPost i.val m).1, none)
  | .recv nowMs => t.recvSection i nowMs
  | .select meths => t.selectSection i meths

def mailRun (i : ActorId) : ActorTable → List MailOp → ActorTable × List (Option ApMsg)
  | t, [] => (t, [])
  | t, op :: ops =>
    let r := mailRun i (t.mailStep i op).1 ops
    (r.1, (t.mailStep i op).2 :: r.2)

/-- `ap_post` accepts messages for the slot. -/
def live (t : ActorTable) (i : ActorId) : Bool := i.val < t.nact.val ∧ (t.act i).pid ≠ -1

/-- The abstract mailbox of a slot. -/
def mailList (t : ActorTable) (i : ActorId) : MailList := ⟨t.queue i, t.dropFull⟩

end ActorTable

/-- The scan from offset `o` finds the first wanted message, if there is one. -/
theorem selectScan_offset (b : Mailbox) (meths : List ℤ) {o : ℕ} (fuel : ℕ) (ho : o ≤ b.length)
    (hfuel : b.length < o + fuel)
    (hbefore : ∀ k, (hk : k < b.contents.length) → k < o → ¬ b.contents[k].wanted meths) :
    (selectScan b meths fuel ((b.head + o) % apQlen)).map
        (fun r => (r.1, r.2.contents)) =
      (b.contents.find? (ApMsg.wanted meths)).map
        fun m => (m, b.contents.eraseP (ApMsg.wanted meths)) := by
  induction fuel generalizing o with
  | zero => omega
  | succ fuel ih =>
    have hhead := b.head_lt
    have hlen := b.length_lt
    rw [selectScan]
    by_cases hend : o = b.length
    · rw [if_pos (by rw [hend, b.tail_eq])]
      have hnone : b.contents.find? (ApMsg.wanted meths) = none := by
        rw [List.find?_eq_none]
        intro m hm
        obtain ⟨k, hk, rfl⟩ := List.getElem_of_mem hm
        exact hbefore k hk (by rw [Ring.length_contents] at hk; omega)
      rw [hnone]
      rfl
    · have hlt : o < b.contents.length := by
        rw [Ring.length_contents]
        omega
      have hcell : b.contents[o] = b.cell ((b.head + o) % apQlen) := by
        simp [Ring.contents]
      have hne : (b.head + o) % apQlen ≠ b.tail := by
        rw [b.tail_eq, Ne, Ring.offset_inj hhead (by omega) hlen]
        exact hend
      rw [if_neg hne]
      by_cases hw : b.contents[o].wanted meths
      · have hmem : (b.cell ((b.head + o) % apQlen)).method ∈ meths := by
          rw [← hcell]
          simpa [ApMsg.wanted] using hw
        have hfind : b.contents.find? (ApMsg.wanted meths) = some b.contents[o] := by
          rw [List.find?_eq_some_iff_getElem]
          exact ⟨hw, o, hlt, rfl, fun k hk => by simpa using hbefore k (by omega) hk⟩
        have hidx : b.contents.findIdx? (ApMsg.wanted meths) = some o := by
          rw [List.findIdx?_eq_some_iff_getElem]
          exact ⟨hlt, hw, fun k hk => by simpa using hbefore k (by omega) hk⟩
        rw [if_pos hmem, hfind, List.eraseP_eq_eraseIdx, hidx, ← hcell]
        rw [Option.map_some, Option.map_some, Ring.contents_removeAt b (by omega)]
      · have hmem : (b.cell ((b.head + o) % apQlen)).method ∉ meths := by
          rw [← hcell]
          simpa [ApMsg.wanted] using hw
        have hstep : ((b.head + o) % apQlen + 1) % apQlen = (b.head + (o + 1)) % apQlen := by
          rw [Nat.mod_add_mod]
          rfl
        rw [if_neg hmem, hstep]
        apply ih (by omega) (by omega)
        intro k hk hko
        rcases Nat.lt_succ_iff_lt_or_eq.mp hko with hlt' | rfl
        · exact hbefore k hk hlt'
        · exact hw

/-- The scan of `ap_select` is a search of the list. -/
theorem selectScan_head (b : Mailbox) (meths : List ℤ) :
    (selectScan b meths apQlen b.head).map (fun r => (r.1, r.2.contents)) =
      (b.contents.find? (ApMsg.wanted meths)).map
        fun m => (m, b.contents.eraseP (ApMsg.wanted meths)) := by
  have h := selectScan_offset b meths (o := 0) apQlen (by omega)
    (by have := b.length_lt; omega) (by omega)
  rwa [Nat.add_zero, Nat.mod_eq_of_lt b.head_lt] at h

namespace ActorTable

variable {t : ActorTable} {i j : ActorId}

@[simp] theorem modify_act_self (t : ActorTable) (i : ActorId) (f : ActorEnt → ActorEnt) :
    (t.modify i f).act i = f (t.act i) := Function.update_self ..

theorem modify_act_of_ne (t : ActorTable) (f : ActorEnt → ActorEnt) (h : j ≠ i) :
    (t.modify i f).act j = t.act j := Function.update_of_ne h ..

/-- Writing other fields than the pid leaves a slot open or closed. -/
theorem modify_live {f : ActorEnt → ActorEnt} (h : (f (t.act i)).pid = (t.act i).pid) :
    (t.modify i f).live i = t.live i := by
  simp only [live, modify_act_self, h]
  rfl

theorem slotOf_val (h : i.val < t.nact.val) : t.slotOf i.val = some i := by
  unfold slotOf
  rw [dif_pos ⟨by omega, by omega⟩]
  simp

theorem slotOf_eq_some {id : ℤ} (h : t.slotOf id = some i) : id = i.val ∧ i.val < t.nact.val := by
  unfold slotOf at h
  split_ifs at h with hid
  cases h
  refine ⟨?_, ?_⟩
  · simp only
    omega
  · simp only
    omega

theorem hasRoom_iff (t : ActorTable) (i : ActorId) :
    (t.mailList i).HasRoom ↔ ¬ (t.act i).mailbox.Full := by
  rw [Ring.full_iff, MailList.HasRoom, mailList, queue]
  have h := (t.act i).mailbox.length_lt
  rw [← Ring.length_contents] at h
  simp only
  omega

/-- The masked section of `ap_post` appends, or counts a drop. -/
theorem postSection_mailList (t : ActorTable) (i : ActorId) (m : ApMsg) :
    (t.postSection i m).1.mailList i = ((t.mailList i).step true (.post m)).1 := by
  by_cases hfull : (t.act i).mailbox.Full
  · have hroom : ¬ (t.mailList i).HasRoom := by
      rw [hasRoom_iff]
      exact not_not.mpr hfull
    simp only [postSection, MailList.step, if_pos hfull, hroom, if_true, if_false]
    rfl
  · have hroom : (t.mailList i).HasRoom := (hasRoom_iff t i).mpr hfull
    simp only [postSection, MailList.step, if_neg hfull, hroom, if_true]
    simp only [mailList, queue, modify_act_self, Ring.contents_push _ m hfull]
    rfl

theorem recvSection_queue (t : ActorTable) (i : ActorId) (nowMs : ℕ) :
    (t.recvSection i nowMs).1.queue i = (t.queue i).tail ∧
      (t.recvSection i nowMs).2 = (t.queue i).head? := by
  unfold recvSection
  by_cases hempty : (t.act i).mailbox.Empty
  · rw [if_pos hempty]
    have hnil := (Ring.empty_iff _).mp hempty
    simp only [queue, modify_act_self, hnil]
    exact ⟨rfl, rfl⟩
  · rw [if_neg hempty]
    have hcons := Ring.contents_advance _ hempty
    simp only [queue, modify_act_self]
    rw [hcons]
    exact ⟨rfl, rfl⟩

theorem selectSection_queue (t : ActorTable) (i : ActorId) (meths : List ℤ) :
    (t.selectSection i meths).1.queue i = (t.queue i).eraseP (ApMsg.wanted meths) ∧
      (t.selectSection i meths).2 = (t.queue i).find? (ApMsg.wanted meths) := by
  have hscan := selectScan_head (t.act i).mailbox meths
  unfold selectSection
  cases h : selectScan (t.act i).mailbox meths apQlen (t.act i).mailbox.head with
  | none =>
    rw [h, Option.map_none, eq_comm, Option.map_eq_none_iff] at hscan
    have hnone := List.find?_eq_none.mp hscan
    simp only [queue, modify_act_self]
    exact ⟨(List.eraseP_of_forall_not hnone).symm, hscan.symm⟩
  | some r =>
    obtain ⟨m, b⟩ := r
    rw [h, Option.map_some, eq_comm, Option.map_eq_some_iff] at hscan
    obtain ⟨m', hfind, heq⟩ := hscan
    obtain ⟨rfl, hb⟩ := Prod.mk.inj heq
    simp only [queue, modify_act_self]
    exact ⟨hb.symm, hfind.symm⟩

theorem postSection_act_of_ne (t : ActorTable) (m : ApMsg) (h : j ≠ i) :
    (t.postSection i m).1.act j = t.act j := by
  unfold postSection
  by_cases hfull : (t.act i).mailbox.Full
  · simp only [if_pos hfull]
  · simp only [if_neg hfull, modify_act_of_ne _ _ h]

theorem recvSection_act_of_ne (t : ActorTable) (nowMs : ℕ) (h : j ≠ i) :
    (t.recvSection i nowMs).1.act j = t.act j := by
  unfold recvSection
  by_cases hempty : (t.act i).mailbox.Empty
  · simp only [if_pos hempty, modify_act_of_ne _ _ h]
  · simp only [if_neg hempty, modify_act_of_ne _ _ h]

theorem selectSection_act_of_ne (t : ActorTable) (meths : List ℤ) (h : j ≠ i) :
    (t.selectSection i meths).1.act j = t.act j := by
  unfold selectSection
  cases selectScan (t.act i).mailbox meths apQlen (t.act i).mailbox.head with
  | none => simp only [modify_act_of_ne _ _ h]
  | some r => simp only [modify_act_of_ne _ _ h]

/-- A receive sets the flag exactly when it blocks, and never clears it. -/
theorem recvSection_waiting (t : ActorTable) (i : ActorId) (nowMs : ℕ) :
    ((t.recvSection i nowMs).1.act i).waiting =
      ((t.recvSection i nowMs).2.isNone || (t.act i).waiting) := by
  unfold recvSection
  by_cases hempty : (t.act i).mailbox.Empty
  · simp [if_pos hempty]
  · simp [if_neg hempty]

theorem selectSection_waiting (t : ActorTable) (i : ActorId) (meths : List ℤ) :
    ((t.selectSection i meths).1.act i).waiting =
      ((t.selectSection i meths).2.isNone || (t.act i).waiting) := by
  unfold selectSection
  cases selectScan (t.act i).mailbox meths apQlen (t.act i).mailbox.head with
  | none => simp
  | some r => simp

theorem apPost_live (h : t.live i) (m : ApMsg) : t.apPost i.val m = t.postSection i m := by
  have ⟨hi, hpid⟩ : i.val < t.nact.val ∧ (t.act i).pid ≠ -1 := by simpa [live] using h
  simp only [apPost, postCheck, slotOf_val hi, if_neg hpid]

theorem apPost_not_live (h : ¬ t.live i) (m : ApMsg) :
    (t.apPost i.val m).1.act = t.act ∧ (t.apPost i.val m).1.nact = t.nact ∧
      (t.apPost i.val m).1.dropFull = t.dropFull := by
  unfold apPost postCheck
  cases hs : t.slotOf i.val with
  | none => exact ⟨rfl, rfl, rfl⟩
  | some j =>
    obtain ⟨hij, hj⟩ := slotOf_eq_some hs
    obtain rfl : i = j := Fin.ext (by omega)
    have hpid : (t.act i).pid = -1 := by
      simp only [live, decide_eq_true_eq] at h
      tauto
    simp only [if_pos hpid]
    exact ⟨trivial, trivial, trivial⟩

/-- A write to one slot leaves the others alone. -/
theorem modify_frame {f : ActorEnt → ActorEnt} (h : (f (t.act i)).pid = (t.act i).pid) :
    (∀ j, j ≠ i → (t.modify i f).act j = t.act j) ∧ (t.modify i f).live i = t.live i :=
  ⟨fun _ hj => modify_act_of_ne t f hj, modify_live h⟩

/-- A call leaves the other slots, and who accepts messages, as they were. -/
theorem mailStep_frame (t : ActorTable) (i : ActorId) (op : MailOp) :
    (∀ j, j ≠ i → (t.mailStep i op).1.act j = t.act j) ∧
      (t.mailStep i op).1.live i = t.live i := by
  cases op with
  | post m =>
    by_cases h : t.live i
    · simp only [mailStep, apPost_live h, postSection]
      by_cases hfull : (t.act i).mailbox.Full
      · simp only [if_pos hfull]
        exact ⟨fun _ _ => trivial, rfl⟩
      · simp only [if_neg hfull]
        exact modify_frame rfl
    · obtain ⟨hact, hnact, -⟩ := apPost_not_live h m
      refine ⟨fun j _ => by rw [mailStep, hact], ?_⟩
      simp only [mailStep, live, hact, hnact]
  | recv nowMs =>
    by_cases hempty : (t.act i).mailbox.Empty
    · simp only [mailStep, recvSection, if_pos hempty]
      exact modify_frame rfl
    · simp only [mailStep, recvSection, if_neg hempty]
      exact modify_frame rfl
  | select meths =>
    simp only [mailStep, selectSection]
    cases selectScan (t.act i).mailbox meths apQlen (t.act i).mailbox.head with
    | none => exact modify_frame (f := fun a => { a with waiting := true }) rfl
    | some r => exact modify_frame (f := fun a => { a with mailbox := r.2 }) rfl

/-- Each call does to the ring what it does to the list. -/
theorem mailStep_refines (t : ActorTable) (i : ActorId) (op : MailOp) :
    (t.mailStep i op).1.mailList i = ((t.mailList i).step (t.live i) op).1 ∧
      (t.mailStep i op).2 = ((t.mailList i).step (t.live i) op).2 := by
  cases op with
  | post m =>
    by_cases h : t.live i
    · rw [mailStep, apPost_live h, h, postSection_mailList]
      refine ⟨rfl, ?_⟩
      simp only [MailList.step, if_true]
      split_ifs <;> rfl
    · obtain ⟨hact, -, hdrop⟩ := apPost_not_live h m
      have hstep : (t.mailList i).step (t.live i) (.post m) = (t.mailList i, none) := by
        simp [MailList.step, h]
      rw [hstep]
      simp only [mailStep, mailList, queue, hact, hdrop, and_self]
  | recv nowMs =>
    obtain ⟨hqueue, hout⟩ := t.recvSection_queue i nowMs
    refine ⟨?_, hout⟩
    simp only [mailStep, mailList, MailList.step, hqueue]
    rw [recvSection]
    split_ifs <;> rfl
  | select meths =>
    obtain ⟨hqueue, hout⟩ := t.selectSection_queue i meths
    refine ⟨?_, hout⟩
    simp only [mailStep, mailList, MailList.step, hqueue]
    rw [selectSection]
    split <;> rfl

theorem mailRun_frame (t : ActorTable) (i : ActorId) (ops : List MailOp) :
    (∀ j, j ≠ i → (mailRun i t ops).1.act j = t.act j) ∧ (mailRun i t ops).1.live i = t.live i := by
  induction ops generalizing t with
  | nil => exact ⟨fun _ _ => rfl, rfl⟩
  | cons op ops ih =>
    obtain ⟨hact, hlive⟩ := t.mailStep_frame i op
    obtain ⟨hact', hlive'⟩ := ih (t.mailStep i op).1
    exact ⟨fun j hj => (hact' j hj).trans (hact j hj), hlive'.trans hlive⟩

theorem mailRun_refines (t : ActorTable) (i : ActorId) (ops : List MailOp) :
    (mailRun i t ops).1.mailList i = ((t.mailList i).run (t.live i) ops).1 ∧
      (mailRun i t ops).2 = ((t.mailList i).run (t.live i) ops).2 := by
  induction ops generalizing t with
  | nil => exact ⟨rfl, rfl⟩
  | cons op ops ih =>
    obtain ⟨hlist, hout⟩ := t.mailStep_refines i op
    obtain ⟨hlist', hout'⟩ := ih (t.mailStep i op).1
    rw [(t.mailStep_frame i op).2, hlist] at hlist' hout'
    simp only [mailRun, MailList.run]
    exact ⟨hlist', by rw [hout, hout']⟩

theorem apActorStat_qlen (t : ActorTable) (i : ActorId) :
    (t.apActorStat i.val).map Stat.qlen =
      if i.val < t.nact.val then some (t.queue i).length else none := by
  split_ifs with h
  · rw [apActorStat, slotOf_val h, queue, Ring.length_contents]
    rfl
  · cases hs : t.slotOf i.val with
    | none => simp [apActorStat, hs]
    | some j =>
      have := slotOf_eq_some hs
      omega

end ActorTable

namespace MailList

/-- A call hands out or keeps every message that was queued or is accepted now. -/
theorem step_perm (live : Bool) (a : MailList) (op : MailOp) :
    ((a.step live op).2.toList ++ (a.step live op).1.queue).Perm
      (a.queue ++ (a.accepted live op).toList) := by
  cases op with
  | post m =>
    cases live with
    | false => simp [step, accepted]
    | true =>
      by_cases h : a.HasRoom
      · simp [step, accepted, h]
      · simp [step, accepted, h]
  | recv nowMs =>
    cases hq : a.queue with
    | nil => simp [step, accepted, hq]
    | cons m l => simp [step, accepted, hq]
  | select meths =>
    simp only [step, accepted, Option.toList_none, List.append_nil]
    cases hf : a.queue.find? (ApMsg.wanted meths) with
    | none =>
      rw [List.eraseP_of_forall_not (List.find?_eq_none.mp hf)]
      rfl
    | some m =>
      obtain ⟨hm, l₁, l₂, hsplit, hl₁⟩ := List.find?_eq_some_iff_append.mp hf
      have hno : ∀ x ∈ l₁, ¬ ApMsg.wanted meths x := by simpa using hl₁
      rw [hsplit, List.eraseP_append_right _ hno, List.eraseP_cons_of_pos hm]
      rw [Option.toList_some, List.singleton_append]
      exact List.perm_middle.symm

/-- What stays queued keeps its order. -/
theorem step_sublist (live : Bool) (a : MailList) (op : MailOp) :
    (a.step live op).1.queue.Sublist (a.queue ++ (a.accepted live op).toList) := by
  cases op with
  | post m =>
    cases live with
    | false => simp [step, accepted]
    | true =>
      by_cases h : a.HasRoom
      · simp [step, accepted, h]
      · simp [step, accepted, h]
  | recv nowMs => simpa [step, accepted] using List.tail_sublist a.queue
  | select meths => simpa [step, accepted] using List.eraseP_sublist

theorem run_perm (live : Bool) (a : MailList) (ops : List MailOp) :
    ((a.run live ops).2.reduceOption ++ (a.run live ops).1.queue).Perm
      (a.queue ++ a.acceptedRun live ops) := by
  induction ops generalizing a with
  | nil =>
    simp only [run, acceptedRun, List.append_nil]
    exact List.Perm.refl a.queue
  | cons op ops ih =>
    have hstep := a.step_perm live op
    have hrest := ih (a.step live op).1
    have hcons : ((a.step live op).2 :: ((a.step live op).1.run live ops).2).reduceOption =
        (a.step live op).2.toList ++ ((a.step live op).1.run live ops).2.reduceOption := by
      cases (a.step live op).2 <;> rfl
    simp only [run, acceptedRun]
    rw [hcons, List.append_assoc, ← List.append_assoc a.queue]
    have hleft := hrest.append_left (a.step live op).2.toList
    rw [← List.append_assoc (a.step live op).2.toList (a.step live op).1.queue] at hleft
    exact hleft.trans (hstep.append_right _)

theorem run_sublist (live : Bool) (a : MailList) (ops : List MailOp) :
    (a.run live ops).1.queue.Sublist (a.queue ++ a.acceptedRun live ops) := by
  induction ops generalizing a with
  | nil => simp [run, acceptedRun]
  | cons op ops ih =>
    simp only [run, acceptedRun]
    rw [← List.append_assoc]
    exact (ih _).trans ((a.step_sublist live op).append_right _)

end MailList

open ActorTable in
/-- For every placement of head and tail and every sequence of calls, a mailbox
is the bounded list: it returns the same messages, holds the same ones in the
same order and counts the same drops. So no accepted message is lost or
duplicated, those that remain are in their order, and `ap_actor_stat` reports
the length of the list. -/
theorem mailbox_refines_list (t : ActorTable) (i : ActorId) (ops : List MailOp) :
    let r := mailRun i t ops
    let a := (t.mailList i).run (t.live i) ops
    let accepted := (t.mailList i).acceptedRun (t.live i) ops
    r.1.queue i = a.1.queue ∧ r.1.dropFull = a.1.dropFull ∧ r.2 = a.2 ∧
      (r.2.reduceOption ++ r.1.queue i).Perm (t.queue i ++ accepted) ∧
      (r.1.queue i).Sublist (t.queue i ++ accepted) ∧
      (∀ j, j ≠ i → r.1.queue j = t.queue j) ∧
      (r.1.apActorStat i.val).map Stat.qlen =
        if i.val < r.1.nact.val then some a.1.queue.length else none := by
  obtain ⟨hlist, hout⟩ := t.mailRun_refines i ops
  have hqueue : (mailRun i t ops).1.queue i = ((t.mailList i).run (t.live i) ops).1.queue :=
    congrArg MailList.queue hlist
  refine ⟨hqueue, congrArg MailList.dropFull hlist, hout, ?_, ?_, ?_, ?_⟩
  · rw [hqueue, hout]
    exact MailList.run_perm ..
  · rw [hqueue]
    exact MailList.run_sublist ..
  · intro j hj
    rw [queue, (t.mailRun_frame i ops).1 j hj, queue]
  · rw [← hqueue]
    exact apActorStat_qlen ..

end XinuRpi4.Actor
