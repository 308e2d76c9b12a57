import XinuRpi4.Usb.HidReports

/-!
# When every report is delivered once

Mouse and keyboard are followed apart. For the mouse the reports split into those that
have been read and those that are pending; the buffer stands for all the pending ones. For
the keyboard at most one is pending, and it may be half typed.
-/

namespace XinuRpi4.Usb

open Foundation

@[simp] theorem changes_nil (b : UInt8) : changes b [] = [] := rfl

theorem changes_concat (b : UInt8) (xs : List UInt8) (x : UInt8) :
    changes b (xs ++ [x]) = changes b xs ++ if x = xs.getLastD b then [] else [x] := by
  induction xs generalizing b with
  | nil =>
    by_cases hx : x = b
    · simp [changes, hx]
    · simp [changes, hx]
  | cons y xs ih =>
    rw [List.cons_append, changes, changes, List.getLastD_cons]
    by_cases hy : y = b
    · rw [if_pos hy, if_pos hy, ih, hy]
    · rw [if_neg hy, if_neg hy, ih, List.cons_append]

/-- The buttons of the last report. -/
def lastButtons (rs : List Report) : UInt8 := (rs.map (· 0)).getLastD 0

@[simp] theorem lastButtons_concat (rs : List Report) (r : Report) :
    lastButtons (rs ++ [r]) = r 0 := by
  simp [lastButtons]

/-- A report without motion does not release a button. -/
def NoSilentRelease (rs : List Report) : Prop :=
  ∀ pre r, pre ++ [r] <+: rs → r.mouseEvent.Moves ∨ lastButtons pre = 0

theorem NoSilentRelease.concat {rs : List Report} {r : Report} (h : NoSilentRelease rs)
    (hr : r.mouseEvent.Moves ∨ lastButtons rs = 0) : NoSilentRelease (rs ++ [r]) := by
  intro pre r' hpre
  rcases List.prefix_concat_iff.mp hpre with heq | hpre
  · obtain ⟨rfl, hlast⟩ := List.append_inj' heq rfl
    cases hlast
    exact hr
  · exact h pre r' hpre

theorem NoSilentRelease.mono {rs rs' : List Report} (h : NoSilentRelease rs) (hpre : rs' <+: rs) :
    NoSilentRelease rs' :=
  fun pre r hr => h pre r (hr.trans hpre)

/-- The events of a sequence of reports. -/
def eventsOf (rs : List Report) : List MouseEvent :=
  (rs.map Report.mouseEvent).filter (·.Moves)

theorem eventsOf_concat (rs : List Report) (r : Report) :
    eventsOf (rs ++ [r]) =
      if r.mouseEvent.Moves then eventsOf rs ++ [r.mouseEvent] else eventsOf rs := by
  by_cases hr : r.mouseEvent.Moves
  · simp [eventsOf, hr]
  · simp [eventsOf, hr]

/-- Reports that are not delivered move nothing. -/
theorem sum_eventsOf (f : MouseEvent → ℤ) (hf : ∀ e, ¬ e.Moves → f e = 0) (rs : List Report) :
    ((eventsOf rs).map f).sum = (rs.map (f ·.mouseEvent)).sum := by
  induction rs with
  | nil => rfl
  | cons r rs ih =>
    by_cases hr : r.mouseEvent.Moves
    · simp only [eventsOf, List.map_cons, List.filter_cons, hr, decide_true, if_true,
        List.sum_cons] at ih ⊢
      rw [ih]
    · simp only [eventsOf, List.map_cons, List.filter_cons, hr, decide_false, Bool.false_eq_true,
        if_false, List.sum_cons] at ih ⊢
      rw [ih, hf _ hr, zero_add]

/-- The states of the buttons that are delivered, and the last one. -/
theorem changes_eventsOf {rs : List Report} (h : NoSilentRelease rs) :
    changes 0 ((eventsOf rs).map (·.buttons)) = changes 0 (rs.map (· 0)) ∧
      ((eventsOf rs).map (·.buttons)).getLastD 0 = lastButtons rs := by
  induction rs using List.reverseRecOn with
  | nil => exact ⟨rfl, rfl⟩
  | append_singleton rs r ih =>
    obtain ⟨hch, hlast⟩ := ih (h.mono (List.prefix_append rs [r]))
    have hr := h rs r (List.prefix_refl _)
    rw [eventsOf_concat, List.map_append, List.map_singleton, changes_concat, lastButtons_concat]
    by_cases hm : r.mouseEvent.Moves
    · rw [if_pos hm, List.map_append, List.map_singleton, changes_concat, hch, hlast]
      exact ⟨rfl, by simp [Report.mouseEvent]⟩
    · -- the report shows no button, like the one before it
      have hzero : lastButtons rs = 0 := hr.resolve_left hm
      have hr0 : r 0 = 0 := by
        by_contra hne
        exact hm (Or.inr (Or.inr hne))
      have hprev : (rs.map (· 0)).getLastD 0 = 0 := hzero
      rw [if_neg hm, hch, hlast, hzero, hr0, hprev, if_pos rfl, List.append_nil]
      exact ⟨rfl, rfl⟩

@[simp] theorem reading_loop (h : Hid) (n : ℕ) (fs : List Frame) :
    reading h (.loop n :: fs) = reading h fs := by
  simp [reading, Frame.reads]

@[simp] theorem reading_rearm (h h' : Hid) (n : ℕ) (fs : List Frame) :
    reading h (.rearm n h' :: fs) = reading h fs := by
  simp [reading, Frame.reads]

@[simp] theorem reading_mouse (n : ℕ) (fs : List Frame) :
    reading .mouse (.mouse n :: fs) = .mouse n :: reading .mouse fs := by
  simp [reading, Frame.reads]

@[simp] theorem reading_mouse_kbd (n : ℕ) (fs : List Frame) :
    reading .mouse (.kbd n :: fs) = reading .mouse fs := by
  simp [reading, Frame.reads]

@[simp] theorem reading_mouse_keys (n i : ℕ) (shift ctrl : Bool) (fs : List Frame) :
    reading .mouse (.keys n shift ctrl i :: fs) = reading .mouse fs := by
  simp [reading, Frame.reads]

@[simp] theorem reading_kbd_mouse (n : ℕ) (fs : List Frame) :
    reading .kbd (.mouse n :: fs) = reading .kbd fs := by
  simp [reading, Frame.reads]

@[simp] theorem reading_kbd (n : ℕ) (fs : List Frame) :
    reading .kbd (.kbd n :: fs) = .kbd n :: reading .kbd fs := by
  simp [reading, Frame.reads]

@[simp] theorem reading_keys (n i : ℕ) (shift ctrl : Bool) (fs : List Frame) :
    reading .kbd (.keys n shift ctrl i :: fs) = .keys n shift ctrl i :: reading .kbd fs := by
  simp [reading, Frame.reads]

namespace HidState

variable {s s' : HidState}

/-- What a report changes. -/
theorem report_eq {h : Hid} {r : Report} (hstep : s.step (.report h r) = some s') :
    s' = { s with
      hidBuf := Function.update s.hidBuf h r
      armed := Function.update s.armed h (s.armed h - 1)
      events := s.events ++ [.transfer h]
      sent := Function.update s.sent h (s.sent h ++ [r]) } := by
  simp only [step, Option.ite_none_right_eq_some] at hstep
  exact (Option.some.inj hstep.2).symm

theorem pending_report {h : Hid} {r : Report} (hstep : s.step (.report h r) = some s')
    (h' : Hid) : s'.pending h' = s.pending h' + if h' = h then 1 else 0 := by
  rw [report_eq hstep]
  by_cases hh : h' = h
  · subst hh
    simp only [pending, List.count_append, List.count_singleton_self, if_pos]
    omega
  · have hne : ¬ h = h' := fun heq => hh heq.symm
    simp [pending, List.count_append, hh, hne]

/-- The reports of the mouse: those that were read, and those that are pending, which
say what the buffer says. -/
structure MouseOk (s : HidState) : Prop where
  split : ∃ done rest, s.sent .mouse = done ++ rest ∧ rest.length = s.pending .mouse ∧
    (∀ r ∈ rest, r.mouseEvent = (s.hidBuf .mouse).mouseEvent) ∧ s.mouseEvents = eventsOf done
  last : s.hidBuf .mouse 0 = lastButtons (s.sent .mouse)
  quiet : NoSilentRelease (s.sent .mouse)

namespace MouseOk

/-- Steps that concern the mouse in none of its parts. -/
theorem congr (h : s.MouseOk) (hsent : s'.sent .mouse = s.sent .mouse)
    (hpend : s'.pending .mouse = s.pending .mouse) (hbuf : s'.hidBuf .mouse = s.hidBuf .mouse)
    (hev : s'.mouseEvents = s.mouseEvents) : s'.MouseOk := by
  obtain ⟨hsplit, hlast, hquiet⟩ := h
  constructor
  · rw [hsent, hpend, hbuf, hev]
    exact hsplit
  · rw [hsent, hbuf]
    exact hlast
  · rw [hsent]
    exact hquiet

theorem report (h : s.MouseOk) {r : Report} (hr : s.Separate (.report .mouse r))
    (hstep : s.step (.report .mouse r) = some s') : s'.MouseOk := by
  obtain ⟨⟨done, rest, hsent, hlen, hrest, hev⟩, hlast, hquiet⟩ := h
  obtain ⟨hsep, hrel⟩ := hr
  have hpend : s'.pending .mouse = s.pending .mouse + 1 := pending_report hstep .mouse
  have hbuf : s'.hidBuf .mouse = r := by simp [report_eq hstep]
  have hsent' : s'.sent .mouse = s.sent .mouse ++ [r] := by simp [report_eq hstep]
  have hrest' : ∀ r' ∈ rest, r'.mouseEvent = r.mouseEvent := by
    intro r' hr'
    rcases hsep with h0 | heq
    · rw [← hlen, List.length_eq_zero_iff] at h0
      simp [h0] at hr'
    · rw [hrest r' hr', heq]
  constructor
  · refine ⟨done, rest ++ [r], ?_, ?_, ?_, by rw [report_eq hstep]; exact hev⟩
    · rw [hsent', hsent, List.append_assoc]
    · simp [hpend, hlen]
    · rw [hbuf]
      simpa [or_imp, forall_and] using hrest'
  · simp [hbuf, hsent']
  · rw [hsent']
    apply hquiet.concat
    rw [← hlast]
    exact hrel

/-- The pump reads the buffer for one event. -/
theorem read (h : s.MouseOk) {fs : List Frame} {n : ℕ} (hcalls : s.calls = .mouse n :: fs) :
    (s.cpu fs (.mouse n)).MouseOk := by
  obtain ⟨⟨done, rest, hsent, hlen, hrest, hev⟩, hlast, hquiet⟩ := h
  have hpend : s.pending .mouse = (s.cpu fs (.mouse n)).pending .mouse + 1 := by
    simp only [pending, cpu, hcalls, reading_mouse, reading_rearm, List.length_cons]
    omega
  cases rest with
  | nil =>
    rw [hpend] at hlen
    cases hlen
  | cons r rest =>
    refine ⟨⟨done ++ [r], rest, ?_, ?_, ?_, ?_⟩, hlast, hquiet⟩
    · change s.sent .mouse = _
      rw [hsent, List.append_assoc, List.singleton_append]
    · rw [List.length_cons] at hlen
      omega
    · intro r' hr'
      exact hrest r' (List.mem_cons_of_mem r hr')
    · rw [eventsOf_concat, hrest r List.mem_cons_self, ← hev]
      rfl

theorem handled_eq (h : s.MouseOk) : ∃ done, s.handled = done ∧ s.mouseEvents = eventsOf done ∧
    NoSilentRelease done := by
  obtain ⟨⟨done, rest, hsent, hlen, -, hev⟩, -, hquiet⟩ := h
  refine ⟨done, ?_, hev, hquiet.mono (hsent ▸ List.prefix_append _ _)⟩
  rw [handled, hsent, ← hlen]
  simp

end MouseOk

/-- Where the last report of the keyboard is: typed, pending, or in the middle. -/
inductive KbdPhase (s : HidState) : Prop
  | typed (hpend : s.pending .kbd = 0) (hprev : s.kbdPrev = (s.sent .kbd).getLastD Report.none)
      (hkeys : s.keyEvents = typed Report.none (s.sent .kbd))
  | waiting (done : List Report) (hpend : s.pending .kbd = 1)
      (hframe : ∀ f ∈ reading .kbd s.calls, ∃ n, f = .kbd n)
      (hsent : s.sent .kbd = done ++ [s.hidBuf .kbd])
      (hprev : s.kbdPrev = done.getLastD Report.none)
      (hkeys : s.keyEvents = Usb.typed Report.none done)
  | typing (done : List Report) (n i : ℕ) (hpend : s.pending .kbd = 1)
      (hframe : reading .kbd s.calls = [.keys n (s.hidBuf .kbd).shift (s.hidBuf .kbd).ctrl i])
      (hi : i ≤ 6) (hsent : s.sent .kbd = done ++ [s.hidBuf .kbd])
      (hprev : s.kbdPrev = done.getLastD Report.none)
      (hkeys : s.keyEvents = Usb.typed Report.none done ++
        ((s.hidBuf .kbd).usages.take i).flatMap
          (newKey s.kbdPrev · (s.hidBuf .kbd).shift (s.hidBuf .kbd).ctrl))

/-- Steps that concern the keyboard in none of its parts. -/
theorem KbdPhase.congr (h : s.KbdPhase) (hsent : s'.sent .kbd = s.sent .kbd)
    (hpend : s'.pending .kbd = s.pending .kbd) (hread : reading .kbd s'.calls = reading .kbd s.calls)
    (hbuf : s'.hidBuf .kbd = s.hidBuf .kbd) (hprev : s'.kbdPrev = s.kbdPrev)
    (hkeys : s'.keyEvents = s.keyEvents) : s'.KbdPhase := by
  cases h with
  | typed h₁ h₂ h₃ =>
    apply KbdPhase.typed
    · rw [hpend, h₁]
    · rw [hprev, hsent, h₂]
    · rw [hkeys, hsent, h₃]
  | waiting done h₁ h₂ h₃ h₄ h₅ =>
    apply KbdPhase.waiting done
    · rw [hpend, h₁]
    · rw [hread]
      exact h₂
    · rw [hsent, hbuf, h₃]
    · rw [hprev, h₄]
    · rw [hkeys, h₅]
  | typing done n i h₁ h₂ h₃ h₄ h₅ h₆ =>
    apply KbdPhase.typing done n i
    · rw [hpend, h₁]
    · rw [hread, hbuf]
      exact h₂
    · exact h₃
    · rw [hsent, hbuf, h₄]
    · rw [hprev, h₅]
    · rw [hkeys, hbuf, hprev, h₆]

namespace KbdPhase

theorem report (h : s.KbdPhase) {r : Report} (hr : s.pending .kbd = 0)
    (hstep : s.step (.report .kbd r) = some s') : s'.KbdPhase := by
  have hpend : s'.pending .kbd = 1 := by
    have := pending_report hstep .kbd
    simpa [hr] using this
  have hnone : reading .kbd s'.calls = [] := by
    have hlen : (reading .kbd s.calls).length = 0 := by
      simp only [pending] at hr
      omega
    rw [report_eq hstep]
    exact List.length_eq_zero_iff.mp hlen
  cases h with
  | typed _ h₂ h₃ =>
    apply KbdPhase.waiting (s.sent .kbd) hpend
    · simp [hnone]
    · simp [report_eq hstep]
    · rw [report_eq hstep]
      exact h₂
    · rw [report_eq hstep]
      exact h₃
  | waiting _ h₁ => omega
  | typing _ _ _ h₁ => omega

/-- The pump takes the event of the keyboard. -/
theorem takeEvent (h : s.KbdPhase) {fs : List Frame} {n : ℕ} {es : List HidEvent}
    (hcalls : s.calls = .loop (n + 1) :: fs) (hev : s.events = .transfer .kbd :: es) :
    KbdPhase { s with events := es, calls := .kbd n :: fs } := by
  have hread : reading .kbd s.calls = reading .kbd fs := by
    rw [hcalls, reading_loop]
  have hpend : s.pending .kbd =
      es.count (.transfer .kbd) + 1 + (reading .kbd fs).length := by
    rw [pending, hread, hev, List.count_cons_self]
  have hpend' : ({ s with events := es, calls := .kbd n :: fs } : HidState).pending .kbd =
      s.pending .kbd := by
    rw [hpend]
    simp only [pending, reading_kbd, List.length_cons]
    omega
  cases h with
  | typed h₁ => omega
  | waiting done h₁ _ h₃ h₄ h₅ =>
    refine KbdPhase.waiting done (hpend'.trans h₁) ?_ h₃ h₄ h₅
    have hnil : reading .kbd fs = [] := by
      apply List.length_eq_zero_iff.mp
      omega
    simp [hnil]
  | typing _ _ _ h₁ h₂ =>
    rw [← hread, h₂, List.length_singleton] at hpend
    omega

/-- The pump reads the modifiers. -/
theorem start (h : s.KbdPhase) {fs : List Frame} {n : ℕ} (hcalls : s.calls = .kbd n :: fs) :
    (s.cpu fs (.kbd n)).KbdPhase := by
  have hread : reading .kbd s.calls = .kbd n :: reading .kbd fs := by
    rw [hcalls, reading_kbd]
  have hread' : reading .kbd (s.cpu fs (.kbd n)).calls =
      .keys n (s.hidBuf .kbd).shift (s.hidBuf .kbd).ctrl 0 ::
        reading .kbd fs := by
    simp [cpu]
  have hpend : (s.cpu fs (.kbd n)).pending .kbd = s.pending .kbd := by
    simp only [pending, hread, hread', List.length_cons]
    rfl
  cases h with
  | typed h₁ =>
    simp only [pending, hread, List.length_cons] at h₁
    omega
  | waiting done h₁ _ h₃ h₄ h₅ =>
    have hnil : reading .kbd fs = [] := by
      simp only [pending, hread, List.length_cons] at h₁
      apply List.length_eq_zero_iff.mp
      omega
    rw [hnil] at hread'
    exact KbdPhase.typing done n 0 (hpend.trans h₁) hread' (by omega) h₃ h₄ (by simpa [cpu] using h₅)
  | typing _ _ _ _ h₂ =>
    rw [hread] at h₂
    cases h₂

/-- One usage of the report, or the end of the loop over them. -/
theorem key (h : s.KbdPhase) {fs : List Frame} {n i : ℕ} {shift ctrl : Bool}
    (hcalls : s.calls = .keys n shift ctrl i :: fs) :
    (s.cpu fs (.keys n shift ctrl i)).KbdPhase := by
  have hread : reading .kbd s.calls = .keys n shift ctrl i :: reading .kbd fs := by
    rw [hcalls, reading_keys]
  cases h with
  | typed h₁ =>
    simp only [pending, hread, List.length_cons] at h₁
    omega
  | waiting _ _ h₂ =>
    obtain ⟨m, hm⟩ := h₂ (.keys n shift ctrl i) (by simp [hread])
    cases hm
  | typing done m j h₁ h₂ h₃ h₄ h₅ h₆ =>
    rw [hread, List.cons.injEq] at h₂
    obtain ⟨hframe, hnil⟩ := h₂
    cases hframe
    have hcount : s.events.count (.transfer .kbd) = 0 := by
      simp only [pending, hread, hnil, List.length_singleton] at h₁
      omega
    have hlen : (s.hidBuf .kbd).usages.length = 6 := rfl
    by_cases hi : i < 6
    · obtain ⟨u, hu⟩ : ∃ u, (s.hidBuf .kbd).usages[i]? = some u := by
        exact ⟨_, List.getElem?_eq_getElem (by omega)⟩
      have hcpu : s.cpu fs (.keys n (s.hidBuf .kbd).shift (s.hidBuf .kbd).ctrl i) =
          { s with
            keyEvents := s.keyEvents ++
              newKey s.kbdPrev u (s.hidBuf .kbd).shift (s.hidBuf .kbd).ctrl
            calls := .keys n (s.hidBuf .kbd).shift (s.hidBuf .kbd).ctrl (i + 1) :: fs } := by
        simp only [cpu, hu]
      rw [hcpu]
      refine KbdPhase.typing done n (i + 1) ?_ ?_ hi h₄ h₅ ?_
      · simp [pending, hnil, hcount]
      · simp [hnil]
      · simp only
        rw [h₆, List.append_assoc, List.take_add_one, hu, List.flatMap_append]
        simp
    · have hnone : (s.hidBuf .kbd).usages[i]? = none := List.getElem?_eq_none (by omega)
      have hcpu : s.cpu fs (.keys n (s.hidBuf .kbd).shift (s.hidBuf .kbd).ctrl i) =
          { s with kbdPrev := s.hidBuf .kbd, calls := .rearm n .kbd :: fs } := by
        simp only [cpu, hnone]
      rw [hcpu]
      apply KbdPhase.typed
      · simp [pending, hnil, hcount]
      · simp [h₄]
      · have htake : (s.hidBuf .kbd).usages.take i = (s.hidBuf .kbd).usages :=
          List.take_of_length_le (by omega)
        simp only
        rw [h₆, h₄, typed_concat, htake, h₅, flatMap_newKey]

end KbdPhase

/-- What holds between any two steps. -/
structure HidOk (s : HidState) : Prop where
  mouse : s.MouseOk
  kbd : s.KbdPhase

theorem HidOk.init : init.HidOk := by
  constructor
  · refine ⟨⟨[], [], rfl, rfl, by simp, rfl⟩, rfl, ?_⟩
    intro pre r hpre
    simp [HidState.init] at hpre
  · exact KbdPhase.typed rfl rfl rfl

namespace HidOk

theorem report (h : s.HidOk) {d : Hid} {r : Report} (hr : s.Separate (.report d r))
    (hstep : s.step (.report d r) = some s') : s'.HidOk := by
  cases d with
  | mouse =>
    refine ⟨h.mouse.report hr hstep, h.kbd.congr ?_ ?_ ?_ ?_ ?_ ?_⟩
    · simp [report_eq hstep]
    · simpa using pending_report hstep .kbd
    all_goals simp [report_eq hstep]
  | kbd =>
    refine ⟨h.mouse.congr ?_ ?_ ?_ ?_, h.kbd.report hr hstep⟩
    · simp [report_eq hstep]
    · simpa using pending_report hstep .mouse
    all_goals simp [report_eq hstep]

/-- Steps of the ring and of the calls that keep the count of pending reports and the
calls in the middle of one. -/
theorem frame (h : s.HidOk) {events : List HidEvent} {calls : List Frame} {armed : Hid → ℕ}
    (hpend : ∀ d, events.count (.transfer d) + (reading d calls).length = s.pending d)
    (hread : reading .kbd calls = reading .kbd s.calls) :
    HidOk { s with events := events, calls := calls, armed := armed } :=
  ⟨h.mouse.congr rfl (hpend .mouse) rfl rfl,
    h.kbd.congr rfl (hpend .kbd) hread rfl rfl rfl⟩

/-- The pump takes the next event, or returns. -/
theorem loop (h : s.HidOk) {fs : List Frame} {n : ℕ} (hcalls : s.calls = .loop n :: fs) :
    (s.cpu fs (.loop n)).HidOk := by
  have hread : ∀ d, reading d s.calls = reading d fs := by
    intro d
    rw [hcalls, reading_loop]
  have hreturn : HidOk { s with calls := fs } := by
    apply h.frame
    · intro d
      rw [pending, hread]
    · exact (hread .kbd).symm
  cases n with
  | zero => exact hreturn
  | succ n =>
    cases hev : s.events with
    | nil =>
      have hcpu : s.cpu fs (.loop (n + 1)) = { s with calls := fs } := by simp [cpu, hev]
      rw [hcpu]
      exact hreturn
    | cons e es =>
      cases e with
      | other =>
        have hcpu : s.cpu fs (.loop (n + 1)) = { s with events := es, calls := .loop n :: fs } := by
          simp [cpu, hev]
        rw [hcpu]
        apply h.frame
        · intro d
          rw [pending, hread, hev, reading_loop]
          simp
        · rw [reading_loop, hread]
      | transfer d =>
        cases d with
        | mouse =>
          have hcpu : s.cpu fs (.loop (n + 1)) =
              { s with events := es, calls := .mouse n :: fs } := by
            simp [cpu, hev]
          rw [hcpu]
          apply h.frame
          · intro d
            cases d with
            | mouse =>
              rw [pending, hread, hev, reading_mouse, List.count_cons_self, List.length_cons]
              omega
            | kbd =>
              rw [pending, hread, hev, reading_kbd_mouse]
              simp
          · rw [reading_kbd_mouse, hread]
        | kbd =>
          have hcpu : s.cpu fs (.loop (n + 1)) =
              { s with events := es, calls := .kbd n :: fs } := by
            simp [cpu, hev]
          rw [hcpu]
          refine ⟨h.mouse.congr rfl ?_ rfl rfl, h.kbd.takeEvent hcalls hev⟩
          rw [pending, pending, hread, hev, reading_mouse_kbd]
          simp

/-- One step of a call of the pump. -/
theorem cpu (h : s.HidOk) {f : Frame} {fs : List Frame} (hcalls : s.calls = f :: fs) :
    (s.cpu fs f).HidOk := by
  cases f with
  | loop n => exact h.loop hcalls
  | mouse n =>
    refine ⟨h.mouse.read hcalls, h.kbd.congr rfl ?_ ?_ rfl rfl rfl⟩
    · simp [pending, HidState.cpu, hcalls]
    · simp [HidState.cpu, hcalls]
  | kbd n =>
    refine ⟨h.mouse.congr rfl ?_ rfl rfl, h.kbd.start hcalls⟩
    simp [pending, HidState.cpu, hcalls]
  | keys n shift ctrl i =>
    refine ⟨?_, h.kbd.key hcalls⟩
    cases hu : (s.hidBuf .kbd).usages[i]? with
    | some u =>
      apply h.mouse.congr
      all_goals simp [pending, HidState.cpu, hu, hcalls]
    | none =>
      apply h.mouse.congr
      all_goals simp [pending, HidState.cpu, hu, hcalls]
  | rearm n d =>
    apply h.frame
    · intro d'
      rw [pending, hcalls, reading_loop, reading_rearm]
    · rw [hcalls, reading_loop, reading_rearm]

theorem step (h : s.HidOk) {op : HidOp} (hop : s.Separate op) (hstep : s.step op = some s') :
    s'.HidOk := by
  cases op with
  | report d r => exact h.report hop hstep
  | other =>
    cases Option.some.inj hstep
    apply h.frame
    · intro d
      simp [pending]
    · rfl
  | call =>
    cases Option.some.inj hstep
    apply h.frame
    · intro d
      rw [pending, reading_loop]
    · rw [reading_loop]
  | cpu =>
    cases hcalls : s.calls with
    | nil => simp [HidState.step, hcalls] at hstep
    | cons f fs =>
      simp only [HidState.step, hcalls, Option.some.injEq] at hstep
      rw [← hstep]
      exact h.cpu hcalls

theorem delivered (h : s.HidOk) : s.Delivered := by
  obtain ⟨hmouse, hkbd⟩ := h
  obtain ⟨done, hdone, hev, hquiet⟩ := hmouse.handled_eq
  constructor
  · rw [hdone, hev]
    apply sum_eventsOf
    intro e he
    by_contra hne
    exact he (Or.inl hne)
  · rw [hdone, hev]
    apply sum_eventsOf
    intro e he
    by_contra hne
    exact he (Or.inr (Or.inl hne))
  · rw [hdone, hev]
    exact (changes_eventsOf hquiet).1
  · cases hkbd with
    | typed _ _ hkeys => rw [hkeys]
    | waiting done _ _ hsent _ hkeys =>
      rw [hkeys, hsent, typed_concat]
      exact List.prefix_append _ _
    | typing done _ i _ _ _ hsent hprev hkeys =>
      rw [hkeys, hsent, typed_concat, ← hprev, ← flatMap_newKey, List.prefix_append_right_inj]
      conv => rhs; rw [← List.take_append_drop i (s.hidBuf .kbd).usages]
      rw [List.flatMap_append]
      exact List.prefix_append _ _
  · intro hpend
    cases hkbd with
    | typed _ _ hkeys => exact hkeys
    | waiting _ h₁ => omega
    | typing _ _ _ h₁ => omega

end HidOk

/-- Every report is delivered once when each is read before its buffer is used again. -/
theorem reports_delivered {ops : List HidOp} (hops : EachStep step Separate init ops) :
    Always step Delivered init ops :=
  always_of_eachStep HidOk Delivered (fun _ h => h.delivered)
    (fun _ _ _ h hop hstep => h.step hop hstep) HidOk.init hops

/-- A click with motion, and two keys one after the other, a pump behind each report. -/
def clickAndType : List HidOp :=
  [HidOp.report .mouse ![1, 5, 0, 0, 0, 0, 0, 0], .report .kbd ![0, 0, 0x12, 0, 0, 0, 0, 0],
      .call] ++ List.replicate 14 HidOp.cpu ++
    [HidOp.report .mouse ![0, 1, 0xff, 0, 0, 0, 0, 0], .report .kbd ![0, 0, 0x0e, 0, 0, 0, 0, 0],
      .call] ++ List.replicate 14 HidOp.cpu

theorem reports_delivered_click : (exec step init clickAndType).isSome ∧
    Always step Delivered init clickAndType :=
  ⟨by decide, reports_delivered (by decide)⟩

/-- Two motions complete before a pump; it delivers the second one twice. -/
theorem second_report_overwrites_first :
    ¬ ∀ ops s, exec step init ops = some s → s.Delivered := by
  intro h
  let ops := [HidOp.report .mouse ![0, 5, 0, 0, 0, 0, 0, 0],
    .report .mouse ![0, 3, 0, 0, 0, 0, 0, 0], .call] ++ List.replicate 7 HidOp.cpu
  have hgot : (exec step init ops).map (fun s => (s.mouseEvents.map (·.dx)).sum) = some 6 := by
    decide
  have hsent : (exec step init ops).map (fun s => (s.handled.map (·.mouseEvent.dx)).sum) =
      some 8 := by
    decide
  obtain ⟨s, hs, hsum⟩ := Option.map_eq_some_iff.mp hgot
  have hsum' : (s.handled.map (·.mouseEvent.dx)).sum = 8 := by
    rw [hs] at hsent
    exact Option.some.inj hsent
  have hx := (h ops s hs).motion_x
  omega

end HidState

end XinuRpi4.Usb
