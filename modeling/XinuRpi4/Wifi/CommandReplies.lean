import XinuRpi4.Wifi.Wlcmd
import XinuRpi4.Foundation.Runs

/-!
# Commands and their replies

The driver together with the firmware, which answers the commands in the order in
which they came, as late as it likes, and sends other frames in between. What it
has sent waits in a queue, from which a command, or a reader of frames between the
commands, takes one after the other.

A reply belongs to the command that takes it when none to an earlier command is
still to come, and what is copied lies in it when the firmware sends as much as
the command asks for. Sequence numbers are never skipped or used for two packets.
-/

namespace XinuRpi4.Wifi

open XinuRpi4.Foundation XinuRpi4.Net

/-- A frame of the firmware, and the command that it answers if it is a reply. -/
structure FwFrame where
  packet : ℕ → UInt8
  answers : Option WlCommand

/-- What a command has returned, and the frame that it was looking at then. -/
structure WlResult where
  command : WlCommand
  res : Option (List UInt8)
  consumed : Option FwFrame

inductive WlEvent
  /-- A command; `sent` tells whether the packet gets over the bus. -/
  | wlcmd (write : Bool) (op : UInt32) (data : List UInt8) (rlen : ℕ) (sent : Bool)
  /-- No header can be read, or there is none. -/
  | idle
  /-- The next frame is read by the command under way. -/
  | read (bodyRead : Bool)
  /-- The next frame is read by `wifi_read_frame`. -/
  | drain
  | dataTx (eth : List UInt8) (sent : Bool)
  /-- The firmware answers the oldest command it has. -/
  | reply (p : ℕ → UInt8)
  /-- The firmware sends an event or data. -/
  | emit (p : ℕ → UInt8)

/-- The driver with the command under way, the number of requests it has built, the
packets it has sent and the results; the firmware with the commands it has not
answered and the frames that have not been read. -/
structure WlSystem where
  driver : WlDriver
  issued : ℕ
  sent : List (List UInt8)
  call : Option WlCall
  results : List WlResult
  pending : List WlCommand
  queue : List FwFrame

namespace WlSystem

def boot : WlSystem where
  driver := .boot
  issued := 0
  sent := []
  call := none
  results := []
  pending := []
  queue := []

/-- A command returns before it has looked at a frame. -/
def fail (s : WlSystem) (k : WlCommand) : WlSystem :=
  { s with results := s.results ++ [{ command := k, res := none, consumed := none }] }

/-- The driver has sent a packet. -/
def transmit (s : WlSystem) (packet : List UInt8) : WlSystem :=
  { s with
    driver := { s.driver with wlTxseq := s.driver.wlTxseq + 1 }
    sent := s.sent ++ [packet] }

/-- A request is built. -/
def issue (s : WlSystem) : WlSystem :=
  { s with
    driver := { s.driver with wlReqid := s.driver.wlReqid + 1 }
    issued := s.issued + 1 }

/-- The oldest frame in the queue has been read. -/
def dequeue (s : WlSystem) (f : FwFrame) (queue : List FwFrame) : WlSystem :=
  { s with driver := s.driver.credit 2048 f.packet, queue }

/-- A turn of the command under way has come out. -/
def afterTurn (s : WlSystem) (c : WlCall) (consumed : Option FwFrame) : WlTurn → WlSystem
  | .more c' => { s with call := some c' }
  | .returned res =>
    { s with
      call := none
      results := s.results ++ [{ command := c.command, res, consumed }] }

/-- The command that a call issues. -/
def command (s : WlSystem) (write : Bool) (op : UInt32) (data : List UInt8) (rlen : ℕ) :
    WlCommand where
  serial := s.issued
  write := write
  op := op
  data := data
  rlen := rlen

def step (s : WlSystem) : WlEvent → Option WlSystem
  | .wlcmd write op data rlen sent =>
    let k := s.command write op data rlen
    if s.call.isSome then none
    else if 2048 < k.len then some (s.fail k)
    else if sent then
      some
        { s.issue.transmit (k.request s.issue.driver) with
          call := some { command := k, tries := 0 }
          pending := s.pending ++ [k] }
    else some (s.issue.fail k)
  | .idle => s.call.map fun c => s.afterTurn c none c.next
  | .read bodyRead =>
    match s.queue with
    | [] => none
    | f :: queue =>
      s.call.map fun c => (s.dequeue f queue).afterTurn c (some f) (c.read f.packet bodyRead)
  | .drain =>
    if s.call.isSome then none
    else
      match s.queue with
      | [] => none
      | f :: queue => some (s.dequeue f queue)
  | .dataTx eth sent =>
    if s.call.isSome then none
    else if sent ∧ 12 + 4 + eth.length ≤ 1600 then some (s.transmit (s.driver.dataPacket eth))
    else some s
  | .reply p =>
    match s.pending with
    | [] => none
    | k :: pending =>
      if chan (frameOf p) = 0 then
        some { s with pending, queue := s.queue ++ [{ packet := p, answers := some k }] }
      else none
  | .emit p =>
    if chan (frameOf p) ≠ 0 then
      some { s with queue := s.queue ++ [{ packet := p, answers := none }] }
    else none

/-- A command that succeeds has its own reply, and has copied bytes of that only. -/
def Sound (s : WlSystem) : Prop :=
  ∀ r ∈ s.results, r.res.isSome → ∃ f ∈ r.consumed, f.answers = some r.command ∧
    r.res = some ((r.command.offsets (frameOf f.packet)).map f.packet) ∧
    ∀ o ∈ r.command.offsets (frameOf f.packet), o < (frameOf f.packet).len

/-- The packets on the bus have the sequence numbers from 0 on, and the driver has the
next one; the request ids are the numbers of the requests. -/
structure Numbered (s : WlSystem) : Prop where
  next : s.driver.wlTxseq = UInt8.ofNat s.sent.length
  packets : ∀ i packet, s.sent[i]? = some packet → packet[4]? = some (UInt8.ofNat i)
  reqid : s.driver.wlReqid = UInt16.ofNat s.issued

/-- A reply to a command with the bytes that it asks for. -/
def Full (k : WlCommand) (p : ℕ → UInt8) : Prop :=
  replyStatus (frameOf p) = 0 → ∀ o ∈ k.offsets (frameOf p), o < (frameOf p).len

/-- A command is sent when no reply to an earlier one is to come, and the firmware
sends full replies. -/
def Prompt (s : WlSystem) : WlEvent → Prop
  | .wlcmd write op data rlen sent =>
    sent = true → (s.command write op data rlen).len ≤ 2048 →
      s.pending = [] ∧ ∀ f ∈ s.queue, f.answers = none
  | .reply p => ∀ k ∈ s.pending.head?, Full k p
  | _ => True

instance (k : WlCommand) (p : ℕ → UInt8) : Decidable (Full k p) :=
  inferInstanceAs (Decidable (_ → ∀ o ∈ k.offsets (frameOf p), _))

instance (s : WlSystem) : DecidablePred s.Prompt
  | .wlcmd .. => inferInstanceAs (Decidable (_ → _ → _ ∧ ∀ f ∈ s.queue, f.answers = none))
  | .reply _ => inferInstanceAs (Decidable (∀ k ∈ s.pending.head?, _))
  | .idle | .read _ | .drain | .dataTx .. | .emit _ => .isTrue trivial

/-- What holds whatever the firmware does. -/
structure Inv (s : WlSystem) : Prop where
  numbered : s.Numbered
  serials : ∀ k ∈ s.pending, k.serial < s.issued
  replies : ∀ f ∈ s.queue, f.answers = none → chan (frameOf f.packet) ≠ 0

/-- The replies to come are to the command under way. -/
def Owned (s : WlSystem) : Prop :=
  ∀ c ∈ s.call, (∀ k ∈ s.pending, k = c.command) ∧
    ∀ f ∈ s.queue, ∀ k ∈ f.answers, k = c.command ∧ Full k f.packet

theorem boot_inv : boot.Inv where
  numbered :=
    { next := rfl
      packets := nofun
      reqid := rfl }
  serials := nofun
  replies := nofun

theorem issue_numbered {s : WlSystem} (h : s.Numbered) : s.issue.Numbered :=
  { h with
    reqid := by
      simp only [issue, h.reqid, UInt16.ofNat_add]
      rfl }

theorem transmit_numbered {s : WlSystem} {packet : List UInt8} (h : s.Numbered)
    (hseq : packet[4]? = some s.driver.wlTxseq) : (s.transmit packet).Numbered where
  next := by
    simp only [transmit, h.next, List.length_append, UInt8.ofNat_add]
    rfl
  packets i q hq := by
    simp only [transmit, List.getElem?_append, List.getElem?_singleton] at hq
    split_ifs at hq with hi hlast
    · exact h.packets i q hq
    · cases hq
      rw [hseq, h.next, show i = s.sent.length by omega]
  reqid := h.reqid

theorem dequeue_inv {s : WlSystem} {f : FwFrame} {queue : List FwFrame} (h : s.Inv)
    (hqueue : s.queue = f :: queue) : (s.dequeue f queue).Inv :=
  { h with
    numbered :=
      { h.numbered with
        next := (s.driver.credit_wlTxseq 2048 f.packet).trans h.numbered.next
        reqid := (s.driver.credit_wlReqid 2048 f.packet).trans h.numbered.reqid }
    replies := fun g hg => h.replies g (hqueue ▸ List.mem_cons_of_mem f hg) }

theorem afterTurn_inv {s : WlSystem} (h : s.Inv) (c : WlCall) (consumed : Option FwFrame)
    (turn : WlTurn) : (s.afterTurn c consumed turn).Inv := by
  cases turn with
  | more c' => exact { h with numbered := { h.numbered with } }
  | returned res => exact { h with numbered := { h.numbered with } }

theorem step_inv {s s' : WlSystem} {e : WlEvent} (h : s.Inv) (hstep : s.step e = some s') :
    s'.Inv := by
  cases e with
  | wlcmd write op data rlen sent =>
    simp only [step] at hstep
    split_ifs at hstep with _ hlong hsent <;> cases hstep
    · exact { h with numbered := { h.numbered with } }
    · exact
        { h with
          numbered :=
            { transmit_numbered (issue_numbered h.numbered) (WlCommand.request_seq _ _) with }
          serials :=
            forall_mem_snoc (fun k hk => Nat.lt_succ_of_lt (h.serials k hk)) (Nat.lt_succ_self _) }
    · exact
        { h with
          numbered := { issue_numbered h.numbered with }
          serials := fun k hk => Nat.lt_succ_of_lt (h.serials k hk) }
  | idle =>
    obtain ⟨c, hc, rfl⟩ := Option.map_eq_some_iff.mp hstep
    exact afterTurn_inv h c none c.next
  | read bodyRead =>
    simp only [step] at hstep
    cases hqueue : s.queue with
    | nil => simp [hqueue] at hstep
    | cons f queue =>
      rw [hqueue] at hstep
      obtain ⟨c, hc, rfl⟩ := Option.map_eq_some_iff.mp hstep
      exact afterTurn_inv (dequeue_inv h hqueue) c (some f) _
  | drain =>
    simp only [step] at hstep
    split_ifs at hstep
    cases hqueue : s.queue with
    | nil => simp [hqueue] at hstep
    | cons f queue =>
      rw [hqueue] at hstep
      cases hstep
      exact dequeue_inv h hqueue
  | dataTx eth sent =>
    simp only [step] at hstep
    split_ifs at hstep <;> cases hstep
    · exact { h with numbered := transmit_numbered h.numbered (s.driver.dataPacket_seq eth) }
    · exact h
  | reply p =>
    simp only [step] at hstep
    cases hpending : s.pending with
    | nil => simp [hpending] at hstep
    | cons k pending =>
      rw [hpending] at hstep
      split_ifs at hstep
      cases hstep
      exact
        { numbered := { h.numbered with }
          serials := fun k' hk' => h.serials k' (hpending ▸ List.mem_cons_of_mem k hk')
          replies := forall_mem_snoc h.replies nofun }
  | emit p =>
    simp only [step] at hstep
    split_ifs at hstep with hchan
    cases hstep
    exact
      { h with
        numbered := { h.numbered with }
        replies := forall_mem_snoc h.replies fun _ => hchan }

/-- The call that has read a frame goes on with the same command, or has taken the
reply to it, or has failed. -/
theorem afterTurn_owned {s : WlSystem} {c : WlCall} {consumed : Option FwFrame} {turn : WlTurn}
    (h : s.Owned) (hsound : s.Sound) (hc : c ∈ s.call)
    (hmore : ∀ c', turn = .more c' → c'.command = c.command)
    (hreturned : ∀ res, turn = .returned (some res) → ∃ f ∈ consumed,
      f.answers = some c.command ∧ Full c.command f.packet ∧
        replyStatus (frameOf f.packet) = 0 ∧
        res = (c.command.offsets (frameOf f.packet)).map f.packet) :
    (s.afterTurn c consumed turn).Owned ∧ (s.afterTurn c consumed turn).Sound := by
  cases turn with
  | more c' =>
    refine ⟨?_, hsound⟩
    rintro _ ⟨⟩
    rw [hmore c' rfl]
    exact h c hc
  | returned res =>
    refine ⟨nofun, forall_mem_snoc hsound fun hres => ?_⟩
    obtain ⟨res, rfl⟩ := Option.isSome_iff_exists.mp hres
    obtain ⟨f, hf, hanswers, hfull, hstatus, rfl⟩ := hreturned res rfl
    exact ⟨f, hf, hanswers, rfl, hfull hstatus⟩

theorem fail_owned {s : WlSystem} (hcall : s.call = none) (hsound : s.Sound) (k : WlCommand) :
    (s.fail k).Owned ∧ (s.fail k).Sound := by
  refine ⟨fun c hc => ?_, forall_mem_snoc hsound nofun⟩
  exact absurd (hcall.symm.trans hc) nofun

theorem dequeue_owned {s : WlSystem} {f : FwFrame} {queue : List FwFrame} (h : s.Owned)
    (hqueue : s.queue = f :: queue) : (s.dequeue f queue).Owned :=
  fun c hc => ⟨(h c hc).1, fun g hg => (h c hc).2 g (hqueue ▸ List.mem_cons_of_mem f hg)⟩

theorem step_owned {s s' : WlSystem} {e : WlEvent} (h : s.Inv ∧ s.Owned ∧ s.Sound)
    (he : s.Prompt e) (hstep : s.step e = some s') : s'.Inv ∧ s'.Owned ∧ s'.Sound := by
  obtain ⟨hinv, howned, hsound⟩ := h
  refine ⟨step_inv hinv hstep, ?_⟩
  cases e with
  | wlcmd write op data rlen sent =>
    simp only [step] at hstep
    split_ifs at hstep with hcall hlong hsent <;> cases hstep
    · exact fail_owned (Option.not_isSome_iff_eq_none.mp hcall) hsound _
    · obtain ⟨hpending, hqueue⟩ := he hsent (Nat.le_of_not_lt hlong)
      refine ⟨?_, hsound⟩
      rintro _ ⟨⟩
      refine ⟨fun k hk => ?_, fun f hf k hk => ?_⟩
      · rw [hpending] at hk
        exact List.mem_singleton.mp hk
      · exact absurd ((hqueue f hf).symm.trans hk) nofun
    · exact fail_owned (s := s.issue) (Option.not_isSome_iff_eq_none.mp hcall) hsound _
  | idle =>
    obtain ⟨c, hc, rfl⟩ := Option.map_eq_some_iff.mp hstep
    refine afterTurn_owned howned hsound hc (fun c' => WlCall.next_command) fun res hres => ?_
    exact absurd (WlCall.next_returned hres) nofun
  | read bodyRead =>
    simp only [step] at hstep
    cases hqueue : s.queue with
    | nil => simp [hqueue] at hstep
    | cons f queue =>
      rw [hqueue] at hstep
      obtain ⟨c, hc, rfl⟩ := Option.map_eq_some_iff.mp hstep
      have hhead : f ∈ s.queue := hqueue ▸ List.mem_cons_self
      refine afterTurn_owned (dequeue_owned howned hqueue) hsound hc (fun c' hc' => ?_)
        fun res hres => ?_
      all_goals
        rcases WlCall.read_cases (c := c) f.packet bodyRead with hnext | hfail |
          ⟨hchan, hstatus, htake⟩
      · exact WlCall.next_command (hnext.symm.trans hc')
      · cases hfail.symm.trans hc'
      · cases htake.symm.trans hc'
      · exact absurd (WlCall.next_returned (hnext.symm.trans hres)) nofun
      · cases hfail.symm.trans hres
      · cases htake.symm.trans hres
        -- Events and data come on other channels, so this is a reply.
        obtain ⟨k, hk⟩ : ∃ k, f.answers = some k :=
          Option.ne_none_iff_exists'.mp fun hnone => hinv.replies f hhead hnone hchan
        obtain ⟨rfl, hfull⟩ := (howned c hc).2 f hhead k hk
        exact ⟨f, rfl, hk, hfull, hstatus, rfl⟩
  | drain =>
    simp only [step] at hstep
    split_ifs at hstep
    cases hqueue : s.queue with
    | nil => simp [hqueue] at hstep
    | cons f queue =>
      rw [hqueue] at hstep
      cases hstep
      exact ⟨dequeue_owned howned hqueue, hsound⟩
  | dataTx eth sent =>
    simp only [step] at hstep
    split_ifs at hstep <;> cases hstep
    · exact ⟨howned, hsound⟩
    · exact ⟨howned, hsound⟩
  | reply p =>
    simp only [step] at hstep
    cases hpending : s.pending with
    | nil => simp [hpending] at hstep
    | cons k pending =>
      rw [hpending] at hstep
      split_ifs at hstep
      cases hstep
      have hfull : Full k p := he k (by rw [hpending, List.head?_cons, Option.mem_def])
      refine ⟨fun c hc => ⟨fun k' hk' => ?_, forall_mem_snoc (howned c hc).2 ?_⟩, hsound⟩
      · exact (howned c hc).1 k' (hpending ▸ List.mem_cons_of_mem k hk')
      · rintro _ ⟨⟩
        exact ⟨(howned c hc).1 k (hpending ▸ List.mem_cons_self), hfull⟩
  | emit p =>
    simp only [step] at hstep
    split_ifs at hstep
    cases hstep
    exact ⟨fun c hc => ⟨(howned c hc).1, forall_mem_snoc (howned c hc).2 nofun⟩, hsound⟩

/-- Between the commands the frames in the queue can all be read. -/
theorem exec_drain {s : WlSystem} (hcall : s.call = none) :
    ∃ t, exec step s (List.replicate s.queue.length .drain) = some t ∧
      t.call = none ∧ t.queue = [] ∧ t.pending = s.pending ∧ t.issued = s.issued := by
  generalize hn : s.queue.length = n
  induction n generalizing s with
  | zero => exact ⟨s, rfl, hcall, List.eq_nil_of_length_eq_zero hn, rfl, rfl⟩
  | succ n ih =>
    cases hqueue : s.queue with
    | nil => simp [hqueue] at hn
    | cons f queue =>
      have hlen : queue.length = n := by simpa [hqueue] using hn
      have hdrain : s.step .drain = some (s.dequeue f queue) := by
        simp [step, hcall, hqueue]
      obtain ⟨t, ht, hrest⟩ := ih (s := s.dequeue f queue) hcall hlen
      refine ⟨t, ?_, hrest⟩
      rw [List.replicate_succ, exec, hdrain, Option.bind_some, ht]

/-- When the firmware still has a command to answer, the next one can get its reply. -/
theorem unanswered_unsound {s : WlSystem} (h : s.Inv) (hcall : s.call = none)
    (hpending : s.pending ≠ []) : ∃ es, ¬ Always step Sound s es := by
  obtain ⟨k, pending, hk⟩ := List.exists_cons_of_ne_nil hpending
  obtain ⟨t, ht, htcall, htqueue, htpending, htissued⟩ := exec_drain hcall
  let c : WlCall := { command := t.command true 0 [] 0, tries := 0 }
  let f : FwFrame := { packet := successPacket, answers := some k }
  let called : WlSystem :=
    { t.issue.transmit (c.command.request t.issue.driver) with
      call := some c
      pending := t.pending ++ [c.command] }
  let answered : WlSystem := { called with pending := pending ++ [c.command], queue := [f] }
  have hwlcmd : t.step (.wlcmd true 0 [] 0 true) = some called := by
    have hlen : ¬ 2048 < (t.command true 0 [] 0).len := by
      simp [WlCommand.len, WlCommand.tlen, command]
    simp [step, htcall, hlen, called, c]
  have hreply : called.step (.reply successPacket) = some answered := by
    have hchan : chan (frameOf successPacket) = 0 := by decide
    simp [step, called, answered, transmit, issue, htpending, hk, htqueue, hchan, f]
  have hread : answered.step (.read true) =
      some ((answered.dequeue f []).afterTurn c (some f) (c.read successPacket true)) := rfl
  rw [read_successPacket] at hread
  refine ⟨List.replicate s.queue.length WlEvent.drain ++ [WlEvent.wlcmd true 0 [] 0 true,
    .reply successPacket, .read true], fun halways => ?_⟩
  have hsound := (((halways.of_append ht).2 _ hwlcmd).2 _ hreply).2 _ hread
  obtain ⟨_, ⟨⟩, hanswers, -⟩ := hsound _ (List.mem_append_right _ List.mem_cons_self) rfl
  have hserial : k.serial = s.issued := by
    rw [Option.some.inj hanswers, ← htissued]
    rfl
  have hlt := h.serials k (hk ▸ List.mem_cons_self)
  omega

/-- Packets are numbered in every run, and commands that are sent in time succeed with
their own replies; a command that is sent earlier need not. -/
theorem prompt_sound (es : List WlEvent) :
    Always step Numbered boot es ∧
      (EachStep step Prompt boot es → Always step Sound boot es) ∧
      ∀ s, exec step boot es = some s → s.call = none → s.pending ≠ [] →
        ∃ es', ¬ Always step Sound boot (es ++ es') := by
  refine ⟨?_, fun hprompt => ?_, fun s hrun hcall hpending => ?_⟩
  · exact always_of_invariant Inv Numbered (fun _ h => h.numbered) (fun _ _ _ => step_inv) boot_inv es
  · exact always_of_eachStep (fun s => s.Inv ∧ s.Owned ∧ s.Sound) Sound (fun _ h => h.2.2)
      (fun _ _ _ => step_owned) ⟨boot_inv, nofun, nofun⟩ hprompt
  · have hinv : s.Inv := exec_invariant Inv (fun _ _ _ _ => step_inv) boot_inv hrun
    obtain ⟨es', hunsound⟩ := unanswered_unsound hinv hcall hpending
    exact ⟨es', fun halways => hunsound (halways.of_append hrun)⟩

/-- A command that is answered after an event. -/
theorem reply_taken :
    let event : ℕ → UInt8 := fun o => [28, 0, 0xE3, 0xFF, 0, 1, 0, 12].getD o 0
    let es := [.wlcmd true 2 [1, 0, 0, 0] 0 true, .emit event, .idle, .read true,
      .reply successPacket, .read true]
    EachStep step Prompt boot es ∧ Always step Sound boot es := by
  intro event es
  have hprompt : EachStep step Prompt boot es := by
    decide
  exact ⟨hprompt, (prompt_sound es).2.1 hprompt⟩

/-- The first command runs out of turns, and its reply comes when the second one has
been sent. -/
def lateReply : List WlEvent :=
  WlEvent.wlcmd true 2 [1, 0, 0, 0] 0 true :: List.replicate 400 WlEvent.idle ++
    [WlEvent.wlcmd true 49 [0, 0, 0, 0] 0 true, .reply successPacket, .read true]

theorem late_reply_taken :
    ¬ (Always step Numbered boot lateReply ∧ Always step Sound boot lateReply) := by
  rintro ⟨-, hsound⟩
  have hrun : (exec step boot lateReply).any fun s =>
      ∃ r ∈ s.results, r.res.isSome ∧ r.consumed.bind FwFrame.answers ≠ some r.command := by
    decide +kernel
  obtain ⟨s, hs, hresult⟩ := (Option.any_eq_true _ _).mp hrun
  obtain ⟨r, hr, hres, hother⟩ := of_decide_eq_true hresult
  obtain ⟨f, hf, hanswers, -⟩ := hsound.of_exec hs r hr hres
  rw [hf, Option.bind_some] at hother
  exact hother hanswers

end WlSystem

end XinuRpi4.Wifi
