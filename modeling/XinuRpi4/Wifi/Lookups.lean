import XinuRpi4.Wifi.Resolve
import XinuRpi4.Foundation.Runs

/-!
# DNS lookups

Calls of the resolver after each other, with the queries and the responses that are
on their way. Each of them is known here by the host that was asked for; the
datagrams themselves say nothing that the resolver looks at.

A call gets the answer to its own question when nothing that can still bring an
address for another name is on its way at the start of it. When something is, the
call can return that address.
-/

namespace XinuRpi4.Wifi

open XinuRpi4.Foundation XinuRpi4.Net

/-- A query on its way, and the host that it is for. -/
structure DnsQuery where
  host : HostName
  tx : UdpTx

/-- A response on its way as the frame it will be read in, and the host of the query
that it answers. -/
structure DnsResponse where
  host : HostName
  frame : Frame

/-- What a call has returned, and for which host the datagram was that ended it. -/
structure DnsResult where
  host : HostName
  got : Option Ip4
  source : Option HostName

inductive DnsEvent
  /-- A call; it returns at once when there is no way to the server. -/
  | resolve (host : HostName) (reachable : Bool)
  | quiet
  /-- A frame that the resolver does not look at is read. -/
  | other (f : Frame)
  /-- A response is read in the frame `f`. -/
  | deliver (i : ℕ) (f : Frame)
  /-- The server sends a response to a query. -/
  | respond (i : ℕ) (f : Frame)
  /-- The network loses, copies and reorders: the queries and the responses with these
  positions are on their way now. -/
  | carry (is js : List ℕ)

structure DnsSystem where
  call : Option Resolve
  queries : List DnsQuery
  responses : List DnsResponse
  results : List DnsResult

namespace DnsSystem

def boot : DnsSystem where
  call := none
  queries := []
  responses := []
  results := []

/-- A call sends its query. -/
def ask (s : DnsSystem) (host : HostName) : DnsSystem :=
  { s with
    call := some (.start host)
    queries := s.queries ++ [{ host, tx := (Resolve.start host).query }] }

/-- A turn of the call under way, in which a datagram for `source` was read if any. -/
def afterTurn (s : DnsSystem) (c : Resolve) (source : Option HostName) : ResolveTurn → DnsSystem
  | .more c' => { s with call := some c' }
  | .returned got =>
    { s with call := none, results := s.results ++ [{ host := c.host, got, source }] }

/-- A call gets as far as to its query. -/
def asks (dns : Ip4) (reachable : Bool) : Prop := reachable = true ∧ ¬ (dns 0 = 0 ∧ dns 1 = 0)

instance (dns : Ip4) (reachable : Bool) : Decidable (asks dns reachable) :=
  inferInstanceAs (Decidable (_ ∧ _))

variable (dns : Ip4)

def step (s : DnsSystem) : DnsEvent → Option DnsSystem
  | .resolve host reachable =>
    if s.call.isSome then none
    else if asks dns reachable then some (s.ask host)
    else some { s with results := s.results ++ [{ host, got := none, source := none }] }
  | .quiet => s.call.map fun c => s.afterTurn c none c.next
  | .other f =>
    if resolveIn dns f = none then s.call.map fun c => s.afterTurn c none (c.frame dns f) else none
  | .deliver i f =>
    s.responses[i]?.bind fun r =>
      if SameFrame r.frame f then
        s.call.map fun c =>
          { s with responses := s.responses.eraseIdx i }.afterTurn c r.host (c.frame dns f)
      else none
  | .respond i f =>
    s.queries[i]?.map fun q =>
      { s with
        queries := s.queries.eraseIdx i
        responses := s.responses ++ [{ host := q.host, frame := f }] }
  | .carry is js =>
    some
      { s with
        queries := is.filterMap (s.queries[·]?)
        responses := js.filterMap (s.responses[·]?) }

/-- An address that a call returns is from a response to a query for its host. -/
def Sound (s : DnsSystem) : Prop :=
  ∀ r ∈ s.results, r.got.isSome → r.source = some r.host

/-- No query for another host is on its way, and no response with an address in it
to such a query. -/
def QuietFor (s : DnsSystem) (host : HostName) : Prop :=
  (∀ q ∈ s.queries, q.host = host) ∧
    ∀ r ∈ s.responses, r.host ≠ host → ∀ ip, resolveIn dns r.frame ≠ some (some ip)

/-- A call begins when it is quiet for its host. -/
def Unmixed (s : DnsSystem) : DnsEvent → Prop
  | .resolve host reachable => asks dns reachable → s.QuietFor dns host
  | _ => True

/-- It stays quiet for the host of the call under way. -/
structure Inv (s : DnsSystem) : Prop where
  quiet : ∀ c ∈ s.call, s.QuietFor dns c.host
  sound : s.Sound

variable {dns}

theorem QuietFor.mono {s s' : DnsSystem} {host : HostName} (h : s.QuietFor dns host)
    (hqueries : ∀ q ∈ s'.queries, q ∈ s.queries)
    (hresponses : ∀ r ∈ s'.responses, r ∈ s.responses) : s'.QuietFor dns host :=
  ⟨fun q hq => h.1 q (hqueries q hq), fun r hr => h.2 r (hresponses r hr)⟩

/-- A turn that ends with an address has read it in a response to the call's query. -/
theorem afterTurn_inv {s : DnsSystem} {c : Resolve} {source : Option HostName}
    {turn : ResolveTurn} (h : s.Inv dns) (hc : c ∈ s.call)
    (hmore : ∀ c', turn = .more c' → c'.host = c.host)
    (hreturned : ∀ ip, turn = .returned (some ip) → source = some c.host) :
    (s.afterTurn c source turn).Inv dns := by
  cases turn with
  | more c' =>
    refine { h with quiet := ?_ }
    rintro _ ⟨⟩
    rw [hmore c' rfl]
    exact h.quiet c hc
  | returned got =>
    refine { quiet := nofun, sound := forall_mem_snoc h.sound fun hgot => ?_ }
    obtain ⟨ip, rfl⟩ := Option.isSome_iff_exists.mp hgot
    exact hreturned ip rfl

theorem step_inv {s s' : DnsSystem} {e : DnsEvent} (h : s.Inv dns) (he : s.Unmixed dns e)
    (hstep : s.step dns e = some s') : s'.Inv dns := by
  cases e with
  | resolve host reachable =>
    simp only [step] at hstep
    split_ifs at hstep with _ hasks <;> cases hstep
    · refine { h with quiet := ?_ }
      rintro _ ⟨⟩
      exact ⟨forall_mem_snoc (he hasks).1 rfl, (he hasks).2⟩
    · exact { h with sound := forall_mem_snoc h.sound nofun }
  | quiet =>
    obtain ⟨c, hc, rfl⟩ := Option.map_eq_some_iff.mp hstep
    refine afterTurn_inv h hc (fun c' => Resolve.next_host) fun ip hip => ?_
    exact absurd (Resolve.next_returned hip) nofun
  | other f =>
    simp only [step] at hstep
    split_ifs at hstep with hother
    obtain ⟨c, hc, rfl⟩ := Option.map_eq_some_iff.mp hstep
    refine afterTurn_inv h hc (fun c' => Resolve.frame_host) fun ip hip => ?_
    exact absurd (hother.symm.trans (Resolve.frame_returned hip)) nofun
  | deliver i f =>
    obtain ⟨r, hr, hstep⟩ := Option.bind_eq_some_iff.mp hstep
    split_ifs at hstep with hsame
    obtain ⟨c, hc, rfl⟩ := Option.map_eq_some_iff.mp hstep
    have herase : ({ s with responses := s.responses.eraseIdx i } : DnsSystem).Inv dns :=
      { h with
        quiet := fun c hc =>
          (h.quiet c hc).mono (fun _ hq => hq) fun _ hr => List.mem_of_mem_eraseIdx hr }
    refine afterTurn_inv herase hc (fun c' => Resolve.frame_host) fun ip hip => ?_
    by_contra hhost
    refine (h.quiet c hc).2 r (List.mem_of_getElem? hr) (fun heq => hhost (congrArg some heq)) ip ?_
    exact resolveIn_same hsame.symm (Resolve.frame_returned hip)
  | respond i f =>
    obtain ⟨q, hq, rfl⟩ := Option.map_eq_some_iff.mp hstep
    refine { h with quiet := fun c hc => ⟨fun q' hq' => ?_, forall_mem_snoc (h.quiet c hc).2 ?_⟩ }
    · exact (h.quiet c hc).1 q' (List.mem_of_mem_eraseIdx hq')
    · exact fun hne => absurd ((h.quiet c hc).1 q (List.mem_of_getElem? hq)) hne
  | carry is js =>
    cases hstep
    refine { h with quiet := fun c hc => (h.quiet c hc).mono (fun q hq => ?_) fun r hr => ?_ }
    · obtain ⟨i, -, hi⟩ := List.mem_filterMap.mp hq
      exact List.mem_of_getElem? hi
    · obtain ⟨j, -, hj⟩ := List.mem_filterMap.mp hr
      exact List.mem_of_getElem? hj

/-- A response to a query for another name is taken for the answer. -/
theorem deliver_unsound {s : DnsSystem} {host : HostName} {j : ℕ} {r : DnsResponse} {ip : Ip4}
    (hcall : s.call = some (.start host)) (hr : s.responses[j]? = some r) (hhost : r.host ≠ host)
    (hip : resolveIn dns r.frame = some (some ip)) :
    ∃ s', s.step dns (.deliver j r.frame) = some s' ∧ ¬ s'.Sound := by
  have hframe : (Resolve.start host).frame dns r.frame = .returned (some ip) := by
    simp only [Resolve.frame, hip]
  have hstep : s.step dns (.deliver j r.frame) =
      some (({ s with responses := s.responses.eraseIdx j } : DnsSystem).afterTurn (.start host)
        r.host (.returned (some ip))) := by
    simp only [step, hr, Option.bind_some, if_pos (SameFrame.refl r.frame), hcall,
      Option.map_some, hframe]
  refine ⟨_, hstep, fun hsound => ?_⟩
  have hsource := hsound _ (List.mem_append_right _ List.mem_cons_self) rfl
  exact hhost (Option.some.inj hsource)

/-- A call that begins when it is not quiet can return an address of another host. -/
theorem mixed_unsound {s : DnsSystem} {host : HostName} {reachable : Bool}
    (hcall : s.call = none) (h : ¬ s.Unmixed dns (.resolve host reachable)) :
    ∃ es, ¬ Always (step dns) Sound s (.resolve host reachable :: es) := by
  obtain ⟨hasks, hmixed⟩ := Classical.not_imp.mp h
  have hbegin : s.step dns (.resolve host reachable) = some (s.ask host) := by
    simp [step, hcall, hasks]
  by_cases hqueries : ∀ q ∈ s.queries, q.host = host
  · simp only [QuietFor, not_and, not_forall, not_not] at hmixed
    obtain ⟨r, hr, hhost, ip, hip⟩ := hmixed hqueries
    obtain ⟨j, hj⟩ := List.mem_iff_getElem?.mp hr
    obtain ⟨t, ht, hunsound⟩ := deliver_unsound (s := s.ask host) rfl hj hhost hip
    refine ⟨[.deliver j r.frame], fun halways => hunsound ?_⟩
    exact (halways.2 _ hbegin).2 t ht
  · simp only [not_forall] at hqueries
    obtain ⟨q, hq, hhost⟩ := hqueries
    obtain ⟨i, hi⟩ := List.mem_iff_getElem?.mp hq
    -- The server answers the other query now, and its answer is the next datagram.
    let answer : DnsResponse := { host := q.host, frame := addressFrame dns }
    let answered : DnsSystem :=
      { s.ask host with
        queries := (s.ask host).queries.eraseIdx i
        responses := s.responses ++ [answer] }
    have hask : (s.ask host).queries[i]? = some q := by
      rw [ask, List.getElem?_append_left (List.getElem?_eq_some_iff.mp hi).1, hi]
    have hanswer : (s.ask host).step dns (.respond i (addressFrame dns)) = some answered := by
      simp only [step, hask, Option.map_some]
      rfl
    have hlast : answered.responses[s.responses.length]? = some answer :=
      List.getElem?_concat_length
    obtain ⟨t, ht, hunsound⟩ :=
      deliver_unsound (s := answered) rfl hlast hhost (resolveIn_addressFrame dns)
    refine ⟨[.respond i (addressFrame dns), .deliver s.responses.length (addressFrame dns)],
      fun halways => hunsound ?_⟩
    exact ((halways.2 _ hbegin).2 _ hanswer).2 t ht

/-- Calls that begin when it is quiet for their hosts return the addresses of these,
and a call that begins otherwise may not. -/
theorem unmixed_sound (dns : Ip4) :
    (∀ es, EachStep (step dns) (Unmixed dns) boot es → Always (step dns) Sound boot es) ∧
      ∀ es s host reachable, exec (step dns) boot es = some s → s.call = none →
        ¬ s.Unmixed dns (.resolve host reachable) →
        ∃ es', ¬ Always (step dns) Sound boot (es ++ .resolve host reachable :: es') := by
  constructor
  · intro es hunmixed
    have hboot : boot.Inv dns := { quiet := nofun, sound := nofun }
    exact always_of_eachStep (Inv dns) Sound (fun _ h => h.sound) (fun _ _ _ => step_inv) hboot
      hunmixed
  · intro es s host reachable hrun hcall hmixed
    obtain ⟨es', hunsound⟩ := mixed_unsound hcall hmixed
    exact ⟨es', fun halways => hunsound (halways.of_append hrun)⟩

def firstHost : HostName := ⟨[0x61], by decide⟩

def secondHost : HostName := ⟨[0x62], by decide⟩

def nameServer : Ip4 := ![192, 168, 1, 1]

/-- A call that begins when nothing is on its way. -/
theorem first_host_resolved :
    let f := addressFrame nameServer
    let es := [.resolve firstHost true, .respond 0 f, .deliver 0 f]
    EachStep (step nameServer) (Unmixed nameServer) boot es ∧
      Always (step nameServer) Sound boot es := by
  intro f es
  have hunmixed : EachStep (step nameServer) (Unmixed nameServer) boot es := by
    refine ⟨fun _ => ⟨nofun, nofun⟩, fun _ _ => ?_⟩
    exact ⟨trivial, fun _ _ => ⟨trivial, fun _ _ => trivial⟩⟩
  exact ⟨hunmixed, (unmixed_sound nameServer).1 es hunmixed⟩

/-- The answer for the first host comes twice, the second time when the second host
is asked for. -/
def lateAnswer : List DnsEvent :=
  let f := addressFrame nameServer
  [.resolve firstHost true, .respond 0 f, .carry [] [0, 0], .deliver 0 f,
    .resolve secondHost true, .deliver 0 f]

theorem late_answer_accepted : ¬ Always (step nameServer) Sound boot lateAnswer := by
  intro hsound
  have hrun : (exec (step nameServer) boot lateAnswer).any fun s =>
      ∃ r ∈ s.results, r.got.isSome ∧ r.source ≠ some r.host := by
    decide
  obtain ⟨s, hs, hresult⟩ := (Option.any_eq_true _ _).mp hrun
  obtain ⟨r, hr, hgot, hsource⟩ := of_decide_eq_true hresult
  exact hsource (hsound.of_exec hs r hr hgot)

end DnsSystem

end XinuRpi4.Wifi
