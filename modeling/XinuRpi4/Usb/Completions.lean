import XinuRpi4.Usb.Events

/-!
# When completions go to the right waiter

While a request waits, the events in front of its completion are ones that its wait may
drop. Each transfer of an endpoint is armed, in the ring, or about to be armed again by
the call that took its report.
-/

namespace XinuRpi4.Usb

open Foundation

/-- A wait for `q` gets to its completion, or to the end, and loses nothing. -/
def Ahead (q : Request) : List BusEvent → Prop
  | [] => True
  | e :: es => e = .completion q ∨ (Bus.Harmless q.want e ∧ Ahead q es)

theorem Ahead.of_harmless {q : Request} {es : List BusEvent}
    (h : ∀ e ∈ es, Bus.Harmless q.want e) : Ahead q es := by
  induction es with
  | nil => trivial
  | cons e es ih =>
    exact Or.inr ⟨h e List.mem_cons_self, ih fun e' he => h e' (List.mem_cons_of_mem e he)⟩

theorem Ahead.concat {q : Request} {es : List BusEvent} {e : BusEvent} (h : Ahead q es)
    (he : .completion q ∉ es → e = .completion q ∨ Bus.Harmless q.want e) :
    Ahead q (es ++ [e]) := by
  induction es with
  | nil =>
    rcases he (by simp) with rfl | hharm
    · exact Or.inl rfl
    · exact Or.inr ⟨hharm, trivial⟩
  | cons d es ih =>
    rcases h with hd | ⟨hd, hrest⟩
    · exact Or.inl hd
    · by_cases hdq : d = .completion q
      · exact Or.inl hdq
      · refine Or.inr ⟨hd, ih hrest fun hnot => he ?_⟩
        rw [List.mem_cons, not_or]
        exact ⟨fun heq => hdq heq.symm, hnot⟩

theorem Request.want_ne_zero (q : Request) : q.want ≠ 0 := by
  rw [Request.want]
  split <;> decide

theorem Bus.Harmless.not_matches {q : Request} {e : BusEvent} (h : Bus.Harmless q.want e) :
    ¬ e.Matches q.want := by
  rintro (h0 | htype)
  · exact q.want_ne_zero h0
  · cases e with
    | report ep => exact h
    | completion q' => exact h htype
    | notice => exact h htype

theorem Bus.Harmless.ne_report {want : ℕ} {e : BusEvent} (h : Bus.Harmless want e) (ep : HidEp) :
    e ≠ .report ep := by
  rintro rfl
  exact h

/-- Transfers that the calls under way will arm. -/
def toArm (ep : HidEp) : List BusCall → ℕ
  | [] => 0
  | .arming ep' _ left :: cs => (if ep' = ep then left else 0) + toArm ep cs
  | .handle _ ep' :: cs => (if ep' = ep then 1 else 0) + toArm ep cs
  | .wait _ _ _ :: cs => toArm ep cs
  | .pump _ :: cs => toArm ep cs

@[simp] theorem toArm_nil (ep : HidEp) : toArm ep [] = 0 := rfl

@[simp] theorem toArm_arming (ep ep' : HidEp) (role : HidRole) (left : ℕ) (cs : List BusCall) :
    toArm ep (.arming ep' role left :: cs) = (if ep' = ep then left else 0) + toArm ep cs := rfl

@[simp] theorem toArm_handle (ep ep' : HidEp) (n : ℕ) (cs : List BusCall) :
    toArm ep (.handle n ep' :: cs) = (if ep' = ep then 1 else 0) + toArm ep cs := rfl

@[simp] theorem toArm_wait (ep : HidEp) (q : Request) (spin : ℕ) (ev : Option BusEvent)
    (cs : List BusCall) : toArm ep (.wait q spin ev :: cs) = toArm ep cs := rfl

@[simp] theorem toArm_pump (ep : HidEp) (n : ℕ) (cs : List BusCall) :
    toArm ep (.pump n :: cs) = toArm ep cs := rfl

/-- Waits and setups are on their own; a pump runs inside handlers only. -/
def Nested : List BusCall → Prop
  | [] => True
  | .wait _ _ _ :: cs => cs = []
  | .arming _ _ _ :: cs => cs = []
  | .pump _ :: cs => ∀ c ∈ cs, ∃ n ep, c = .handle n ep
  | .handle _ _ :: cs => ∀ c ∈ cs, ∃ n ep, c = .handle n ep

theorem Nested.of_handles {cs : List BusCall} (h : ∀ c ∈ cs, ∃ n ep, c = .handle n ep) :
    Nested cs := by
  cases cs with
  | nil => trivial
  | cons c cs =>
    obtain ⟨n, ep, rfl⟩ := h c List.mem_cons_self
    exact fun c' hc => h c' (List.mem_cons_of_mem _ hc)

namespace Bus

variable {s s' : Bus}

/-- All transfers of an endpoint, wherever they are. -/
def transfers (s : Bus) (ep : HidEp) : ℕ :=
  s.armed ep + s.events.count (.report ep) + toArm ep s.calls

/-- What holds between any two steps. -/
structure BusOk (s : Bus) : Prop where
  own : ∀ p ∈ s.returned, p.2 = .completion p.1
  two : ∀ ep, s.transfers ep = if ep ∈ s.configured then 2 else 0
  nested : Nested s.calls
  ahead : ∀ q spin ev, s.calls = [.wait q spin ev] → Ahead q s.events
  known : ∀ ep ∈ s.configured, (∃ role, s.registered role = some ep) ∨
    ∃ role left, s.calls = [.arming ep role left]
  free : ∀ ep role left, s.calls = [.arming ep role left] → s.registered role = none

theorem BusOk.routed (h : s.BusOk) : s.Routed := by
  refine ⟨h.own, fun hcalls ep hep => ?_⟩
  have h2 := h.two ep
  rwa [transfers, hcalls, toArm_nil, Nat.add_zero, if_pos hep] at h2

theorem BusOk.init : init.BusOk where
  own := by simp [Bus.init]
  two := by simp [Bus.init, transfers]
  nested := trivial
  ahead := by simp [Bus.init]
  known := by simp [Bus.init]
  free := by simp [Bus.init]

namespace BusOk

/-- Steps of the pump: the ring and the armed transfers change, and each endpoint keeps
its transfers. -/
theorem pumping (h : s.BusOk) {events : List BusEvent} {armed : HidEp → ℕ} {calls : List BusCall}
    (hold : ∀ c ∈ calls, (∃ n, c = .pump n) ∨ ∃ n ep, c = .handle n ep)
    (hreg : ∀ ep role left, s.calls ≠ [.arming ep role left]) (hnested : Nested calls)
    (htransfers : ∀ ep, armed ep + events.count (.report ep) + toArm ep calls = s.transfers ep) :
    BusOk { s with events := events, armed := armed, calls := calls } where
  own := h.own
  two ep := by
    rw [← h.two ep, ← htransfers ep]
    rfl
  nested := hnested
  ahead q spin ev hcalls := by
    rcases hold (.wait q spin ev) (by simp [show calls = _ from hcalls]) with ⟨n, hc⟩ | ⟨n, ep, hc⟩
    · cases hc
    · cases hc
  known ep hep := by
    rcases h.known ep hep with hrole | ⟨role, left, hcalls⟩
    · exact Or.inl hrole
    · exact absurd hcalls (hreg ep role left)
  free ep role left hcalls := by
    rcases hold (.arming ep role left) (by simp [show calls = _ from hcalls]) with
      ⟨n, hc⟩ | ⟨n, ep', hc⟩
    · cases hc
    · cases hc

theorem wait (h : s.BusOk) {q : Request} {spin : ℕ} {ev : Option BusEvent}
    (hcalls : s.calls = [.wait q spin ev]) (hop : s.Orderly .cpu) :
    (s.cpu [] (.wait q spin ev)).BusOk := by
  have hreg : ∀ ep ∈ s.configured, ∃ role, s.registered role = some ep := by
    intro ep hep
    rcases h.known ep hep with hrole | ⟨role, left, hc⟩
    · exact hrole
    · rw [hcalls] at hc
      cases hc
  have htwo : ∀ ep, s.armed ep + s.events.count (.report ep) =
      if ep ∈ s.configured then 2 else 0 := by
    intro ep
    rw [← h.two ep, transfers, hcalls]
    simp
  have hahead := h.ahead q spin ev hcalls
  cases hev : s.events with
  | nil =>
    by_cases hspin : spin + 1 < 500
    · have hcpu : s.cpu [] (.wait q spin ev) = { s with calls := [.wait q (spin + 1) ev] } := by
        simp [Bus.cpu, hev, hspin]
      rw [hcpu]
      refine ⟨h.own, fun ep => ?_, rfl, ?_, fun ep hep => Or.inl (hreg ep hep), by simp⟩
      · simpa [transfers] using htwo ep
      · rintro q' spin' ev' hc
        cases hc
        exact hahead
    · cases ev with
      | some e =>
        have hout : s.RunsOut := by
          simp only [RunsOut, hev, hcalls]
          omega
        exact absurd hout hop
      | none =>
        have hcpu : s.cpu [] (.wait q spin none) = { s with calls := [] } := by
          simp [Bus.cpu, hev, hspin, giveUp]
        rw [hcpu]
        refine ⟨h.own, fun ep => ?_, trivial, by simp, fun ep hep => Or.inl (hreg ep hep), by simp⟩
        simpa [transfers] using htwo ep
  | cons e es =>
    rw [hev] at hahead
    rcases hahead with rfl | ⟨hharm, hrest⟩
    · -- its own completion
      have hmatch : (BusEvent.completion q).Matches q.want := Or.inr rfl
      have hcpu : s.cpu [] (.wait q spin ev) =
          { s with events := es, calls := [], returned := s.returned ++ [(q, .completion q)] } := by
        simp [Bus.cpu, hev, hmatch]
      rw [hcpu]
      refine ⟨forall_mem_snoc h.own rfl, fun ep => ?_, trivial, by simp,
        fun ep hep => Or.inl (hreg ep hep), by simp⟩
      have h2 := htwo ep
      rw [hev] at h2
      simpa [transfers] using h2
    · have hcpu : s.cpu [] (.wait q spin ev) =
          { s with events := es, calls := [.wait q 1 (some e)] } := by
        simp [Bus.cpu, hev, hharm.not_matches]
      rw [hcpu]
      refine ⟨h.own, fun ep => ?_, rfl, ?_, fun ep hep => Or.inl (hreg ep hep), by simp⟩
      · have h2 := htwo ep
        rw [hev, List.count_cons_of_ne (hharm.ne_report ep)] at h2
        simpa [transfers] using h2
      · rintro q' spin' ev' hc
        cases hc
        exact hrest

theorem arming (h : s.BusOk) {ep : HidEp} {role : HidRole} {left : ℕ}
    (hcalls : s.calls = [.arming ep role left]) : (s.cpu [] (.arming ep role left)).BusOk := by
  have hfree := h.free ep role left hcalls
  cases left with
  | zero =>
    have hcpu : s.cpu [] (.arming ep role 0) =
        { s with registered := Function.update s.registered role (some ep), calls := [] } := rfl
    rw [hcpu]
    refine ⟨h.own, fun ep' => ?_, trivial, by simp, fun ep' hep => Or.inl ?_, by simp⟩
    · rw [← h.two ep', transfers, transfers, hcalls]
      simp
    · by_cases heq : ep' = ep
      · subst heq
        exact ⟨role, Function.update_self role _ _⟩
      · rcases h.known ep' hep with ⟨role', hrole⟩ | ⟨role', left, hc⟩
        · have hne : role' ≠ role := by
            rintro rfl
            rw [hfree] at hrole
            cases hrole
          exact ⟨role', (Function.update_of_ne hne _ _).trans hrole⟩
        · rw [hcalls] at hc
          cases hc
          exact absurd rfl heq
  | succ left =>
    have hcpu : s.cpu [] (.arming ep role (left + 1)) =
        { s with
          armed := Function.update s.armed ep (s.armed ep + 1)
          calls := [.arming ep role left] } := rfl
    rw [hcpu]
    refine ⟨h.own, fun ep' => ?_, rfl, by simp, fun ep' hep => ?_, ?_⟩
    · rw [← h.two ep', transfers, transfers, hcalls]
      by_cases heq : ep' = ep
      · subst heq
        simp
        omega
      · have hne : ¬ ep = ep' := fun he => heq he.symm
        simp [heq, hne]
    · rcases h.known ep' hep with hrole | ⟨role', left', hc⟩
      · exact Or.inl hrole
      · rw [hcalls] at hc
        cases hc
        exact Or.inr ⟨role, left, rfl⟩
    · rintro ep' role' left' hc
      cases hc
      exact hfree

theorem pump (h : s.BusOk) {n : ℕ} {cs : List BusCall} (hcalls : s.calls = .pump n :: cs) :
    (s.cpu cs (.pump n)).BusOk := by
  have hcs : ∀ c ∈ cs, ∃ n ep, c = .handle n ep := by
    have hn := h.nested
    rw [hcalls] at hn
    exact hn
  have hold : ∀ c ∈ cs, (∃ n, c = .pump n) ∨ ∃ n ep, c = .handle n ep :=
    fun c hc => Or.inr (hcs c hc)
  have hreg : ∀ ep role left, s.calls ≠ [.arming ep role left] := by simp [hcalls]
  have htransfers : ∀ ep, s.transfers ep =
      s.armed ep + s.events.count (.report ep) + toArm ep cs := by
    intro ep
    rw [transfers, hcalls, toArm_pump]
  have hreturn : BusOk { s with calls := cs } :=
    h.pumping hold hreg (Nested.of_handles hcs) fun ep => (htransfers ep).symm
  have hdrop : ∀ {e es m}, s.events = e :: es → (∀ ep ∈ s.configured, e ≠ .report ep) →
      BusOk { s with events := es, calls := .pump m :: cs } := by
    intro e es m hev hne
    have hnested : Nested (.pump m :: cs) := hcs
    apply h.pumping (by simpa using hold) hreg hnested
    intro ep
    rw [htransfers, hev, toArm_pump]
    by_cases hep : ep ∈ s.configured
    · rw [List.count_cons_of_ne (hne ep hep)]
    · -- an endpoint that is not set up has nothing in the ring
      have h0 := h.two ep
      rw [if_neg hep, transfers, hev, List.count_cons] at h0
      rw [List.count_cons]
      omega
  cases n with
  | zero => exact hreturn
  | succ n =>
    cases hev : s.events with
    | nil =>
      have hcpu : s.cpu cs (.pump (n + 1)) = { s with calls := cs } := by simp [Bus.cpu, hev]
      rw [hcpu]
      exact hreturn
    | cons e es =>
      cases e with
      | completion q =>
        have hcpu : s.cpu cs (.pump (n + 1)) = { s with events := es, calls := .pump n :: cs } := by
          simp [Bus.cpu, hev]
        rw [hcpu]
        exact hdrop hev (by simp)
      | notice =>
        have hcpu : s.cpu cs (.pump (n + 1)) = { s with events := es, calls := .pump n :: cs } := by
          simp [Bus.cpu, hev]
        rw [hcpu]
        exact hdrop hev (by simp)
      | report ep =>
        by_cases hknown : s.registered .mouse = some ep ∨ s.registered .kbd = some ep
        · have hcpu : s.cpu cs (.pump (n + 1)) =
              { s with events := es, calls := .handle n ep :: cs } := by
            simp [Bus.cpu, hev, hknown]
          rw [hcpu]
          have hnested : Nested (.handle n ep :: cs) := hcs
          apply h.pumping (by simpa using hold) hreg hnested
          intro ep'
          rw [htransfers, hev, toArm_handle, List.count_cons]
          by_cases heq : ep = ep'
          · simp [heq]
            omega
          · simp [heq]
        · have hcpu : s.cpu cs (.pump (n + 1)) =
              { s with events := es, calls := .pump n :: cs } := by
            simp [Bus.cpu, hev, hknown]
          rw [hcpu]
          apply hdrop hev
          rintro ep' hep heq
          cases heq
          rcases h.known ep hep with ⟨role, hrole⟩ | ⟨role, left, hc⟩
          · cases role with
            | mouse => exact hknown (Or.inl hrole)
            | kbd => exact hknown (Or.inr hrole)
          · exact hreg ep role left hc

theorem handle (h : s.BusOk) {n : ℕ} {ep : HidEp} {cs : List BusCall}
    (hcalls : s.calls = .handle n ep :: cs) : (s.cpu cs (.handle n ep)).BusOk := by
  have hcs : ∀ c ∈ cs, ∃ n ep, c = .handle n ep := by
    have hn := h.nested
    rw [hcalls] at hn
    exact hn
  have hold : ∀ c ∈ cs, (∃ n, c = .pump n) ∨ ∃ n ep, c = .handle n ep :=
    fun c hc => Or.inr (hcs c hc)
  have hnested : Nested (.pump n :: cs) := hcs
  apply h.pumping (by simpa using hold) (by simp [hcalls]) hnested
  intro ep'
  rw [transfers, hcalls, toArm_handle, toArm_pump]
  by_cases heq : ep' = ep
  · subst heq
    simp
    omega
  · have hne : ¬ ep = ep' := fun he => heq he.symm
    simp [heq, hne]

theorem cpu (h : s.BusOk) {c : BusCall} {cs : List BusCall} (hcalls : s.calls = c :: cs)
    (hop : s.Orderly .cpu) : (s.cpu cs c).BusOk := by
  have hn := h.nested
  rw [hcalls] at hn
  cases c with
  | wait q spin ev =>
    obtain rfl : cs = [] := hn
    exact h.wait hcalls hop
  | arming ep role left =>
    obtain rfl : cs = [] := hn
    exact h.arming hcalls
  | pump n => exact h.pump hcalls
  | handle n ep => exact h.handle hcalls

/-- The controller posts an event. -/
theorem post (h : s.BusOk) {e : BusEvent} (armed : HidEp → ℕ) (outstanding : List Request)
    (he : s.Undisturbed e)
    (htransfers : ∀ ep, armed ep + (if e = .report ep then 1 else 0) = s.armed ep) :
    BusOk { s with events := s.events ++ [e], armed := armed, outstanding := outstanding } where
  own := h.own
  two ep := by
    have hcount : (s.events ++ [e]).count (.report ep) =
        s.events.count (.report ep) + if e = .report ep then 1 else 0 := by
      rw [List.count_append, List.count_singleton]
      congr 1
      by_cases heq : e = .report ep
      · simp [heq]
      · simp [heq]
    rw [← h.two ep, transfers, transfers]
    simp only [hcount]
    have := htransfers ep
    omega
  nested := h.nested
  ahead q spin ev hcalls := by
    apply (h.ahead q spin ev hcalls).concat
    intro hnot
    apply he q
    have hcalls' : s.calls = [.wait q spin ev] := hcalls
    simp [awaited, hcalls', hnot]
  known := h.known
  free := h.free

theorem step (h : s.BusOk) {op : BusOp} (hop : s.Orderly op) (hstep : s.step op = some s') :
    s'.BusOk := by
  cases op with
  | issue slot =>
    simp only [Bus.step, Option.ite_none_right_eq_some] at hstep
    obtain ⟨hcalls, heq⟩ := hstep
    cases Option.some.inj heq
    refine ⟨h.own, fun ep => ?_, rfl, ?_, fun ep hep => Or.inl ?_, by simp⟩
    · rw [← h.two ep, transfers, transfers, hcalls]
      simp
    · rintro q spin ev hc
      cases hc
      exact Ahead.of_harmless hop
    · rcases h.known ep hep with hrole | ⟨role, left, hc⟩
      · exact hrole
      · rw [hcalls] at hc
        cases hc
  | setup ep role =>
    simp only [Bus.step, Option.ite_none_right_eq_some] at hstep
    obtain ⟨hcalls, heq⟩ := hstep
    cases Option.some.inj heq
    obtain ⟨hnew, hfree⟩ := hop
    refine ⟨h.own, fun ep' => ?_, rfl, by simp, fun ep' hep => ?_, ?_⟩
    · have h2 := h.two ep'
      rw [transfers, hcalls] at h2
      by_cases heq : ep = ep'
      · subst heq
        rw [if_neg hnew] at h2
        simp only [transfers, toArm_arming, toArm_nil, if_true, List.mem_append,
          List.mem_singleton, or_true] at h2 ⊢
        omega
      · have hne : ¬ ep' = ep := fun he => heq he.symm
        simpa [transfers, heq, hne] using h2
    · rcases List.mem_append.mp hep with hep | hep
      · rcases h.known ep' hep with hrole | ⟨role', left, hc⟩
        · exact Or.inl hrole
        · rw [hcalls] at hc
          cases hc
      · rw [List.mem_singleton.mp hep]
        exact Or.inr ⟨role, 2, rfl⟩
    · rintro ep' role' left hc
      cases hc
      exact hfree
  | pump =>
    simp only [Bus.step, Option.ite_none_right_eq_some] at hstep
    obtain ⟨hpumps, heq⟩ := hstep
    split at heq
    · cases Option.some.inj heq
      exact h
    · cases Option.some.inj heq
      have hhandles : ∀ c ∈ s.calls, ∃ n ep, c = .handle n ep := by
        have hn := h.nested
        cases hcalls : s.calls with
        | nil => simp
        | cons c cs =>
          rw [hcalls] at hpumps hn
          cases c with
          | handle n ep =>
            intro c hc
            rcases List.mem_cons.mp hc with rfl | hc
            · exact ⟨n, ep, rfl⟩
            · exact hn c hc
          | wait => exact absurd hpumps id
          | arming => exact absurd hpumps id
          | pump => exact absurd hpumps id
      apply h.pumping
      · intro c hc
        rcases List.mem_cons.mp hc with rfl | hc
        · exact Or.inl ⟨32, rfl⟩
        · exact Or.inr (hhandles c hc)
      · rintro ep role left hc
        obtain ⟨n, ep', hbad⟩ := hhandles (.arming ep role left) (by simp [hc])
        cases hbad
      · exact hhandles
      · intro ep
        rw [toArm_pump]
        rfl
  | cpu =>
    cases hcalls : s.calls with
    | nil => simp [Bus.step, hcalls] at hstep
    | cons c cs =>
      simp only [Bus.step, hcalls, Option.some.injEq] at hstep
      rw [← hstep]
      exact h.cpu hcalls hop
  | complete q =>
    simp only [Bus.step, Option.ite_none_right_eq_some] at hstep
    cases Option.some.inj hstep.2
    exact h.post s.armed (s.outstanding.erase q) hop (by simp)
  | report ep =>
    simp only [Bus.step, Option.ite_none_right_eq_some] at hstep
    obtain ⟨harmed, heq⟩ := hstep
    cases Option.some.inj heq
    apply h.post (Function.update s.armed ep (s.armed ep - 1)) s.outstanding hop
    intro ep'
    by_cases heq : ep = ep'
    · subst heq
      simp
      omega
    · have hne : ¬ ep' = ep := fun he => heq he.symm
      simp [heq, hne]
  | notice =>
    cases Option.some.inj hstep
    exact h.post s.armed s.outstanding hop (by simp)

end BusOk

/-- Completions go to the right waiter and no endpoint falls silent as long as nothing
comes between a request and its completion that its wait could take. -/
theorem completions_routed {ops : List BusOp} (hops : EachStep step Orderly init ops) :
    Always step Routed init ops :=
  always_of_eachStep BusOk Routed (fun _ h => h.routed)
    (fun _ _ _ h hop hstep => h.step hop hstep) BusOk.init hops

/-- The endpoint of a mouse in slot 3. -/
def mouseEp : HidEp := ⟨3, 3, by decide⟩

/-- A mouse is set up and moves; a command runs out, and its completion goes to the pump. -/
theorem completions_routed_mouse :
    Always step Routed init ([BusOp.issue none, .notice, .complete ⟨0, none⟩, .cpu, .cpu,
      .setup mouseEp .mouse, .cpu, .cpu, .cpu, .report mouseEp, .report mouseEp,
      .pump, .cpu, .cpu, .cpu, .pump, .cpu, .cpu, .cpu, .cpu] ++
      [BusOp.issue (some 3), .complete ⟨1, some 3⟩, .cpu, .report mouseEp]) :=
  completions_routed (by decide)

/-- The mouse moves while a control transfer of another slot is under way: its report is
taken for the completion and its transfer is not armed again. -/
theorem report_taken_for_completion :
    ¬ ∀ ops : List BusOp, Always step Routed init ops := by
  intro h
  have hrun := h [.setup mouseEp .mouse, .cpu, .cpu, .cpu, .issue (some 4), .report mouseEp, .cpu]
  revert hrun
  decide

end Bus

end XinuRpi4.Usb
