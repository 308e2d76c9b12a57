import XinuRpi4.Actor.CallProtocol

/-!
# A blocked call has an answer on the way

The request of a call that waits is queued at its callee, in the hands of the
callee, or answered by a reply that the callee is about to post; or a reply is in
the queue of the caller already. A callee may itself wait in a call, but not in a
circle: the answer of its own call is on the way too.
-/

namespace XinuRpi4.Actor

open Process

/-- The message is the request of the call. -/
def ApMsg.Asks (m : ApMsg) (c : Call) : Prop := m.tag = some c.tag ∧ m.replyTo = c.self.val

theorem mem_eraseP_of_ne {α : Type*} {l : List α} {w : α → Bool} {m x : α}
    (hfind : l.find? w = some m) (hx : x ∈ l) (hne : x ≠ m) : x ∈ l.eraseP w := by
  obtain ⟨hm, l₁, l₂, rfl, hl₁⟩ := List.find?_eq_some_iff_append.mp hfind
  have hno : ∀ y ∈ l₁, ¬ w y := by simpa using hl₁
  rw [List.eraseP_append_right _ hno, List.eraseP_cons_of_pos hm]
  simpa [hne] using hx

namespace CallView

variable {v v' : CallView} {a : CallAct} {p q : Slot} {c : Call} {d : ActorId}

/-- The process has posted the request of its call and waits. -/
def Blocked (v : CallView) (p : Slot) (c : Call) : Prop :=
  (v.load p).call = some c ∧ (v.load p).flight = none

/-- The owner `q` of slot `d` has the request of the call, or its answer. -/
def Carries (v : CallView) (d : ActorId) (q : Slot) (c : Call) : Prop :=
  (¬ v.doomed d ∧ ∃ m ∈ v.queue d, m.Asks c) ∨
    (∃ m, (v.load q).hand = some (d, m) ∧ m.Asks c) ∨
      ∃ m, (v.load q).flight = some (c.self, m) ∧ m.method = apReply ∧ m.tag = some c.tag

def Replied (v : CallView) (c : Call) : Prop := ∃ m ∈ v.queue c.self, m.method = apReply

/-- The call is answered, or will be when its callee gets on; a callee that waits
in a call of its own gets on. -/
inductive Coming (v : CallView) : Call → Prop
  | replied (c : Call) (h : v.Replied c) : Coming v c
  | carried (c : Call) (d : ActorId) (q : Slot) (hd : c.dest = d.val) (hq : v.owner d = some q)
      (hcar : v.Carries d q c) (hnext : ∀ c', v.Blocked q c' → Coming v c') : Coming v c

/-- The process waits for an answer of process `q`. -/
def WaitsOn (v : CallView) (p q : Slot) : Prop :=
  ∃ c d, v.Blocked p c ∧ c.dest = Int.ofNat d.val ∧ v.owner d = some q

/-- Every call that waits has an answer on the way. -/
structure Pending (v : CallView) : Prop extends Sound v where
  posting : ∀ p c d m, (v.load p).call = some c → (v.load p).flight = some (d, m) →
    c.dest = d.val ∧ m.Asks c
  coming : ∀ p c, v.Blocked p c → v.Coming c

/-- The step loses no request and no answer. A call is made by the owner of its
slot, for an actor that exists; when its request is queued there is room, and the
callee exists, is not about to end, and does not wait for the caller; a reply finds
room. Nobody selects the request of a waiting call, or its reply. Who is about to
end has no request queued; who ends has answered all calls, or ends with the
callers. -/
def Answerable (v : CallView) : CallAct → Prop
  | .call p c _ d => v.owner c.self = some p ∧ d ≠ none
  | .post p d m full => (m.tag ≠ none → full = false) ∧
      ((v.load p).call ≠ none → ¬ v.doomed d ∧
        ∃ q, v.owner d = some q ∧ ¬ Relation.ReflTransGen v.WaitsOn q p)
  | .select _ i m => ∀ p c, v.Blocked p c →
      ¬ m.Asks c ∧ (c.self = i → m.method ≠ apReply)
  | .reply p _ m => ∀ q c, v.Blocked q c → q = p ∨ ¬ m.Asks c
  | .doom i => ∀ p c, v.Blocked p c → (∃ m ∈ v.queue i, m.Asks c) → v.Replied c
  | .release D => ∀ p c (j : ActorId), v.Blocked p c → c.dest = j.val → D j →
      D c.self ∨ v.Replied c
  | _ => True

theorem Answerable.ownCall (h : v.Answerable a) : v.OwnCall a := by
  cases a with
  | call p c m d => exact h.1
  | _ => trivial

/-- Answers on the way stay on the way, for the calls in `S`. -/
theorem Coming.transfer {S : Call → Prop} (h : v.Coming c) (hc : S c)
    (hrep : ∀ c, S c → v.Replied c → v'.Coming c)
    (hcar : ∀ c d q, S c → c.dest = Int.ofNat d.val → v.owner d = some q → v.Carries d q c →
      v'.Replied c ∨ v'.owner d = some q ∧ v'.Carries d q c ∧
        ∀ c', v'.Blocked q c' → v'.Coming c' ∨ v.Blocked q c' ∧ S c') : v'.Coming c := by
  induction h with
  | replied c h => exact hrep c hc h
  | carried c d q hd hq hcarries _ ih =>
    rcases hcar c d q hc hd hq hcarries with h | ⟨hq', hcarries', hnext⟩
    · exact .replied c h
    · refine .carried c d q hd hq' hcarries' fun c' hc' => ?_
      rcases hnext c' hc' with h | ⟨hold, hS⟩
      · exact h
      · exact ih c' hold hS

/-- A step after which nobody new waits, and what a waiting call needs is kept. -/
theorem Pending.of_kept (h : v.Pending) (hb : ∀ p c, v'.Blocked p c → v.Blocked p c)
    (hrep : ∀ p c, v.Blocked p c → v'.Blocked p c → v.Replied c → v'.Replied c)
    (hcar : ∀ p c d q, v.Blocked p c → v'.Blocked p c → c.dest = Int.ofNat d.val →
      v.owner d = some q → v.Carries d q c →
      v'.Replied c ∨ v'.owner d = some q ∧ v'.Carries d q c) :
    ∀ p c, v'.Blocked p c → v'.Coming c := by
  intro p c hc
  refine (h.coming p c (hb p c hc)).transfer (S := fun c => ∃ p, v'.Blocked p c) ⟨p, hc⟩ ?_ ?_
  · rintro c ⟨p, hp⟩ hr
    exact .replied c (hrep p c (hb p c hp) hp hr)
  · rintro c d q ⟨p, hp⟩ hd hq hcarries
    rcases hcar p c d q (hb p c hp) hp hd hq hcarries with hr | ⟨hq', hcarries'⟩
    · exact Or.inl hr
    · exact Or.inr ⟨hq', hcarries', fun c' hc' => Or.inr ⟨hb q c' hc', q, hc'⟩⟩

/-- What carries the answer is kept where it is. -/
theorem Carries.of_kept (h : v.Carries d q c) (hdoomed : ¬ v.doomed d → ¬ v'.doomed d)
    (hqueue : ∀ m ∈ v.queue d, m.Asks c → m ∈ v'.queue d)
    (hhand : ∀ r, (v.load q).hand = some r → (v'.load q).hand = some r)
    (hflight : ∀ r, (v.load q).flight = some r → (v'.load q).flight = some r) :
    v'.Carries d q c := by
  rcases h with ⟨hd, m, hm, hask⟩ | ⟨m, hm, hask⟩ | ⟨m, hm, hrest⟩
  · exact Or.inl ⟨hdoomed hd, m, hqueue m hm hask, hask⟩
  · exact Or.inr (Or.inl ⟨m, hhand _ hm, hask⟩)
  · exact Or.inr (Or.inr ⟨m, hflight _ hm, hrest⟩)

/-- A process that is not blocked takes a message into flight. -/
theorem Pending.takeOff {l : Load} (h : v.Pending) (hqueue : v'.queue = v.queue)
    (howner : v'.owner = v.owner) (hdoomed : v'.doomed = v.doomed)
    (hload : v'.load = Function.update v.load p l) (hhand : l.hand = (v.load p).hand)
    (hold : (v.load p).flight = none) (hnew : l.flight ≠ none) :
    ∀ q c, v'.Blocked q c → v'.Coming c := by
  have hother : ∀ q, q ≠ p → v'.load q = v.load q := fun q hq => by
    rw [hload, Function.update_of_ne hq]
  have hself : v'.load p = l := by rw [hload, Function.update_self]
  refine h.of_kept ?_ ?_ ?_
  · rintro q c ⟨hc, hf⟩
    have hq : q ≠ p := by
      rintro rfl
      rw [hself] at hf
      exact hnew hf
    rw [hother q hq] at hc hf
    exact ⟨hc, hf⟩
  · intro q c _ _ hr
    rwa [Replied, hqueue]
  · intro q c d q' _ _ _ hq' hcar
    refine Or.inr ⟨by rw [howner]; exact hq', hcar.of_kept ?_ ?_ ?_ ?_⟩
    · rw [hdoomed]
      exact id
    · rw [hqueue]
      exact fun m hm _ => hm
    · intro r hr
      by_cases hqp : q' = p
      · subst hqp
        rwa [hself, hhand]
      · rwa [hother q' hqp]
    · intro r hr
      by_cases hqp : q' = p
      · subst hqp
        rw [hold] at hr
        cases hr
      · rwa [hother q' hqp]

/-- A message in flight lands: what it carried is where it landed. -/
theorem Carries.land {l : Load} {e : ActorId} {m : ApMsg} {full : Bool} (h : v.Carries d q c)
    (hflight : (v.load p).flight = some (e, m)) (hfull : m.tag ≠ none → full = false)
    (hqueue : v'.queue = if full then v.queue else Function.update v.queue e (v.queue e ++ [m]))
    (hdoomed : v'.doomed = v.doomed)
    (hload : v'.load = Function.update v.load p l) (hhand : l.hand = (v.load p).hand) :
    v'.Replied c ∨ v'.Carries d q c := by
  have hother : ∀ q, q ≠ p → v'.load q = v.load q := fun q hq => by
    rw [hload, Function.update_of_ne hq]
  have hkeep : ∀ i, ∀ x ∈ v.queue i, x ∈ v'.queue i := by
    intro i x hx
    rw [hqueue]
    cases full with
    | true => exact hx
    | false =>
      by_cases hi : i = e
      · subst hi
        simp [hx]
      · simpa [hi] using hx
  rcases h with ⟨hd, x, hx, hask⟩ | ⟨x, hx, hask⟩ | ⟨x, hx, hmeth, htag⟩
  · exact Or.inr (Or.inl ⟨by rw [hdoomed]; exact hd, x, hkeep d x hx, hask⟩)
  · refine Or.inr (Or.inr (Or.inl ⟨x, ?_, hask⟩))
    by_cases hqp : q = p
    · subst hqp
      rwa [hload, Function.update_self, hhand]
    · rwa [hother q hqp]
  · by_cases hqp : q = p
    · subst hqp
      rw [hflight] at hx
      cases hx
      have hroom : full = false := hfull (by rw [htag]; simp)
      refine Or.inl ⟨m, ?_, hmeth⟩
      rw [hqueue, hroom]
      simp
    · exact Or.inr (Or.inr (Or.inr ⟨x, by rw [hother q hqp]; exact hx, hmeth, htag⟩))

/-- A process posts the request of its call and waits from now on. -/
theorem Pending.post_call {m : ApMsg} (h : v.Pending) (hcall : (v.load p).call = some c)
    (hflight : (v.load p).flight = some (d, m)) (hdoomed : ¬ v.doomed d) (hq : v.owner d = some q)
    (hacyclic : ¬ Relation.ReflTransGen v.WaitsOn q p) (howner : v'.owner = v.owner)
    (hqueue : m ∈ v'.queue d) (hdoomed' : v'.doomed = v.doomed)
    (hother : ∀ r, r ≠ p → ∀ c, v'.Blocked r c → v.Blocked r c)
    (hself : ∀ c', v'.Blocked p c' → c' = c) (hrep : ∀ c, v.Replied c → v'.Replied c)
    (hcar : ∀ c d q, v.Carries d q c → v'.Replied c ∨ v'.Carries d q c) :
    ∀ r c, v'.Blocked r c → v'.Coming c := by
  obtain ⟨hdest, hask⟩ := h.posting p c d m hcall hflight
  -- first the calls of those that do not wait for the caller
  have hfar : ∀ r c, v.Blocked r c → ¬ Relation.ReflTransGen v.WaitsOn r p → v'.Coming c := by
    intro r c hr hno
    refine (h.coming r c hr).transfer
      (S := fun c => ∃ r, v.Blocked r c ∧ ¬ Relation.ReflTransGen v.WaitsOn r p) ⟨r, hr, hno⟩ ?_ ?_
    · exact fun c _ hc => .replied c (hrep c hc)
    · rintro c e s ⟨r, hr, hno⟩ he hs hcarries
      rcases hcar c e s hcarries with hc | hc
      · exact Or.inl hc
      · have hno' : ¬ Relation.ReflTransGen v.WaitsOn s p :=
          fun hpath => hno (.head ⟨c, e, hr, he, hs⟩ hpath)
        refine Or.inr ⟨by rw [howner]; exact hs, hc, fun c' hc' => Or.inr ?_⟩
        have hsp : s ≠ p := by
          rintro rfl
          exact hno' .refl
        exact ⟨hother s hsp c' hc', s, hother s hsp c' hc', hno'⟩
  -- then the call that is posted
  have hnew : v'.Coming c := by
    refine .carried c d q hdest (by rw [howner]; exact hq) ?_ fun c' hc' => ?_
    · exact Or.inl ⟨by rw [hdoomed']; exact hdoomed, m, hqueue, hask⟩
    · have hqp : q ≠ p := by
        rintro rfl
        exact hacyclic .refl
      exact hfar q c' (hother q hqp c' hc') hacyclic
  intro r c' hr
  by_cases hrp : r = p
  · subst hrp
    rw [hself c' hr]
    exact hnew
  · refine (h.coming r c' (hother r hrp c' hr)).transfer (S := fun c => ∃ r, v.Blocked r c)
      ⟨r, hother r hrp c' hr⟩ ?_ ?_
    · exact fun c _ hc => .replied c (hrep c hc)
    · rintro c₁ e s - he hs hcarries
      rcases hcar c₁ e s hcarries with hc | hc
      · exact Or.inl hc
      · refine Or.inr ⟨by rw [howner]; exact hs, hc, fun c₂ hc₂ => ?_⟩
        by_cases hsp : s = p
        · subst hsp
          rw [hself c₂ hc₂]
          exact Or.inl hnew
        · exact Or.inr ⟨hother s hsp c₂ hc₂, s, hother s hsp c₂ hc₂⟩

theorem Pending.post {m : ApMsg} {full : Bool} (h : v.Pending)
    (hok : v.Answerable (.post p d m full)) (hflight : (v.load p).flight = some (d, m)) :
    let v' := (if full then v else v.setQueue d (v.queue d ++ [m])).setLoad p
      { v.load p with flight := none }
    ∀ r c, v'.Blocked r c → v'.Coming c := by
  intro v'
  have howner : v'.owner = v.owner := by cases full <;> rfl
  have hdoomed : v'.doomed = v.doomed := by cases full <;> rfl
  have hload : v'.load = Function.update v.load p { v.load p with flight := none } := by
    cases full <;> rfl
  have hqueue : v'.queue =
      if full then v.queue else Function.update v.queue d (v.queue d ++ [m]) := by
    cases full <;> rfl
  have hcar : ∀ c e q, v.Carries e q c → v'.Replied c ∨ v'.Carries e q c :=
    fun c e q hc => hc.land hflight hok.1 hqueue hdoomed hload rfl
  have hrep : ∀ c, v.Replied c → v'.Replied c := by
    rintro c ⟨x, hx, hmeth⟩
    refine ⟨x, ?_, hmeth⟩
    rw [hqueue]
    cases full with
    | true => exact hx
    | false =>
      by_cases hc : c.self = d
      · rw [hc] at hx ⊢
        simp [hx]
      · simpa [hc] using hx
  have hother : ∀ r, r ≠ p → ∀ c, v'.Blocked r c → v.Blocked r c := by
    intro r hr c hb
    rwa [Blocked, hload, Function.update_of_ne hr] at hb
  cases hcall : (v.load p).call with
  | none =>
    refine h.of_kept ?_ (fun r c _ _ => hrep c) ?_
    · intro r c hb
      by_cases hr : r = p
      · subst hr
        rw [Blocked, hload, Function.update_self] at hb
        rw [hcall] at hb
        cases hb.1
      · exact hother r hr c hb
    · intro r c e q _ _ _ hq hc
      exact (hcar c e q hc).imp id fun hc' => ⟨by rw [howner]; exact hq, hc'⟩
  | some c =>
    obtain ⟨hlive, q, hq, hacyclic⟩ := hok.2 (by rw [hcall]; simp)
    have htag := (h.posting p c d m hcall hflight).2.1
    have hroom : full = false := hok.1 (by rw [htag]; simp)
    refine h.post_call hcall hflight hlive hq hacyclic howner ?_ hdoomed hother ?_ hrep hcar
    · rw [hqueue, hroom]
      simp
    · intro c' hc'
      rw [Blocked, hload, Function.update_self, hcall] at hc'
      exact (Option.some.inj hc'.1).symm

/-- The owner of a slot takes a message: a request moves from the queue to its hands. -/
theorem Pending.recv {m : ApMsg} {rest : List ApMsg} (h : v.Pending) (howner : v.owner d = some p)
    (hempty : v.load p = .empty) (hm : v.queue d = m :: rest) :
    let v' := { (v.setQueue d rest).setLoad p ⟨none, some (d, m), none⟩ with
      curReply := Function.update v.curReply d m.replyTo }
    ∀ r c, v'.Blocked r c → v'.Coming c := by
  intro v'
  have hload : ∀ r, r ≠ p → v'.load r = v.load r := fun r hr => setLoad_load_of_ne _ _ hr
  have hself : v'.load p = ⟨none, some (d, m), none⟩ := setLoad_load_self ..
  have hqueue : ∀ e, e ≠ d → v'.queue e = v.queue e := fun e he => setQueue_queue_of_ne v rest he
  have hb : ∀ r c, v'.Blocked r c → r ≠ p ∧ v.Blocked r c := by
    intro r c hc
    have hr : r ≠ p := by
      rintro rfl
      rw [Blocked, hself] at hc
      cases hc.1
    rw [Blocked, hload r hr] at hc
    exact ⟨hr, hc⟩
  refine h.of_kept (fun r c hc => (hb r c hc).2) ?_ ?_
  · rintro r c hold hnew ⟨x, hx, hmeth⟩
    have hcd : c.self ≠ d := by
      intro heq
      have hown := h.own r c hold.1
      rw [heq, howner] at hown
      exact (hb r c hnew).1 (Option.some.inj hown).symm
    exact ⟨x, by rw [hqueue _ hcd]; exact hx, hmeth⟩
  · intro r c e q _ _ _ hq hcar
    refine Or.inr ⟨hq, ?_⟩
    rcases hcar with ⟨hd, x, hx, hask⟩ | ⟨x, hx, hask⟩ | ⟨x, hx, hrest⟩
    · by_cases hed : e = d
      · subst hed
        rw [hm] at hx
        rcases List.mem_cons.mp hx with rfl | hx
        · obtain rfl : p = q := Option.some.inj (howner.symm.trans hq)
          exact Or.inr (Or.inl ⟨x, by rw [hself], hask⟩)
        · refine Or.inl ⟨hd, x, ?_, hask⟩
          have hrest : v'.queue e = rest := setQueue_queue_self v e rest
          rw [hrest]
          exact hx
      · exact Or.inl ⟨hd, x, by rw [hqueue e hed]; exact hx, hask⟩
    · have hqp : q ≠ p := by
        rintro rfl
        rw [hempty] at hx
        cases hx
      exact Or.inr (Or.inl ⟨x, by rw [hload q hqp]; exact hx, hask⟩)
    · have hqp : q ≠ p := by
        rintro rfl
        rw [hempty] at hx
        cases hx
      exact Or.inr (Or.inr ⟨x, by rw [hload q hqp]; exact hx, hrest⟩)

/-- A message is selected that no waiting call needs. -/
theorem Pending.take {m : ApMsg} {w : ApMsg → Bool} (h : v.Pending)
    (hfind : (v.queue d).find? w = some m) (hqueue : v'.queue d = (v.queue d).eraseP w)
    (hkeep : ∀ e, e ≠ d → v'.queue e = v.queue e) (howner : v'.owner = v.owner)
    (hdoomed : v'.doomed = v.doomed) (hb : ∀ r c, v'.Blocked r c → v.Blocked r c)
    (hhand : ∀ r, (v'.load r).hand = (v.load r).hand)
    (hflight : ∀ r, (v'.load r).flight = (v.load r).flight)
    (hask : ∀ r c, v.Blocked r c → v'.Blocked r c → ¬ m.Asks c)
    (hrep : ∀ r c, v.Blocked r c → v'.Blocked r c → c.self = d → m.method ≠ apReply) :
    ∀ r c, v'.Blocked r c → v'.Coming c := by
  have hmem : ∀ e x, x ∈ v.queue e → x ≠ m ∨ e ≠ d → x ∈ v'.queue e := by
    intro e x hx hor
    by_cases hed : e = d
    · subst hed
      rw [hqueue]
      exact mem_eraseP_of_ne hfind hx (hor.resolve_right (by simp))
    · rwa [hkeep e hed]
  refine h.of_kept hb ?_ ?_
  · rintro r c hold hnew ⟨x, hx, hmeth⟩
    refine ⟨x, hmem _ x hx ?_, hmeth⟩
    by_cases hc : c.self = d
    · refine Or.inl ?_
      rintro rfl
      exact hrep r c hold hnew hc hmeth
    · exact Or.inr hc
  · intro r c e q hold hnew _ hq hcar
    refine Or.inr ⟨by rw [howner]; exact hq, hcar.of_kept ?_ ?_ ?_ ?_⟩
    · rw [hdoomed]
      exact id
    · intro x hx hxask
      refine hmem e x hx (Or.inl ?_)
      rintro rfl
      exact hask r c hold hnew hxask
    · intro x hx
      rwa [hhand]
    · intro x hx
      rwa [hflight]

/-- A call takes its reply and returns. -/
theorem Pending.reply {m : ApMsg} {o : List Outcome} (h : v.Pending)
    (hok : v.Answerable (.reply p c m)) (hcall : (v.load p).call = some c)
    (hfind : (v.queue c.self).find? (ApMsg.wanted [apReply]) = some m) :
    let v' := { (v.setQueue c.self ((v.queue c.self).eraseP (ApMsg.wanted [apReply]))).setLoad p
      { v.load p with call := none } with returns := o }
    ∀ q c, v'.Blocked q c → v'.Coming c := by
  intro v'
  have hload : ∀ r, r ≠ p → v'.load r = v.load r := fun r hr => setLoad_load_of_ne _ _ hr
  have hself : v'.load p = { v.load p with call := none } := setLoad_load_self ..
  have hb : ∀ r c, v'.Blocked r c → r ≠ p ∧ v.Blocked r c := by
    intro r c hc
    have hr : r ≠ p := by
      rintro rfl
      rw [Blocked, hself] at hc
      cases hc.1
    rw [Blocked, hload r hr] at hc
    exact ⟨hr, hc⟩
  refine h.take hfind (setQueue_queue_self ..) (fun e he => setQueue_queue_of_ne v _ he) rfl rfl
    (fun r c hc => (hb r c hc).2) ?_ ?_ ?_ ?_
  · intro r
    by_cases hr : r = p
    · rw [hr, hself]
    · rw [hload r hr]
  · intro r
    by_cases hr : r = p
    · rw [hr, hself]
    · rw [hload r hr]
  · exact fun r c' hold hnew => (hok r c' hold).resolve_left (hb r c' hnew).1
  · intro r c' hold hnew heq
    have hown := h.own r c' hold.1
    rw [heq, h.own p c hcall] at hown
    exact absurd (Option.some.inj hown).symm (hb r c' hnew).1

/-- The handler of a request ends: its answer takes off. -/
theorem Pending.answer {m : ApMsg} {r : ℤ} {i : ActorId} {o : List Outcome} (h : v.Pending)
    (hl : v.load p = ⟨none, some (i, m), none⟩) :
    let v' := { v.setLoad p
      ⟨none, none, (v.replySlot m).map fun src => (src, replyMsg r m.tag)⟩ with answers := o }
    ∀ q c, v'.Blocked q c → v'.Coming c := by
  intro v'
  have hload : ∀ q, q ≠ p → v'.load q = v.load q := fun q hq => setLoad_load_of_ne v _ hq
  have hself : v'.load p = ⟨none, none, (v.replySlot m).map fun src => (src, replyMsg r m.tag)⟩ :=
    setLoad_load_self ..
  have hb : ∀ q c, v'.Blocked q c → v.Blocked q c := by
    intro q c hc
    have hq : q ≠ p := by
      rintro rfl
      rw [Blocked, hself] at hc
      cases hc.1
    rwa [Blocked, hload q hq] at hc
  refine h.of_kept hb (fun q c _ _ hr => hr) ?_
  intro q c e q' hold _ _ hq' hcar
  refine Or.inr ⟨hq', ?_⟩
  rcases hcar with ⟨hd, x, hx, hask⟩ | ⟨x, hx, hask⟩ | ⟨x, hx, hrest⟩
  · exact Or.inl ⟨hd, x, hx, hask⟩
  · by_cases hqp : q' = p
    · subst hqp
      rw [hl] at hx
      cases hx
      have hown := h.own q c hold.1
      have hlt := c.self.isLt
      have hslot : v.replySlot m = some c.self := by
        unfold replySlot
        rw [dif_pos ⟨by rw [hask.2]; omega, by rw [hask.2]; omega⟩]
        simp [hask.2, hown]
      refine Or.inr (Or.inr ⟨replyMsg r m.tag, ?_, rfl, hask.1⟩)
      rw [hself, hslot]
      rfl
    · exact Or.inr (Or.inl ⟨x, by rw [hload q' hqp]; exact hx, hask⟩)
  · have hqp : q' ≠ p := by
      rintro rfl
      rw [hl] at hx
      cases hx
    exact Or.inr (Or.inr ⟨x, by rw [hload q' hqp]; exact hx, hrest⟩)

/-- Actors end that nobody waits for, or together with those that do. -/
theorem Pending.release {D : ActorId → Bool} (h : v.Pending) (hok : v.Answerable (.release D))
    (hown : ∀ p c, (v'.load p).call = some c → v'.owner c.self = some p)
    (howner : ∀ i, v'.owner i = if D i then none else v.owner i)
    (hdoomed : ∀ i, ¬ D i → v'.doomed i = v.doomed i)
    (hkilled : ∀ p i, D i → v.owner i = some p → v'.load p = .empty ∨
      v'.load p = v.load p ∧ (v.load p).call = none)
    (hkept : ∀ p, (∀ i, D i → v.owner i ≠ some p) → v'.load p = v.load p)
    (hqueue : v'.queue = v.queue ∨ (∀ i, v'.queue i = []) ∧ ∀ i, v'.owner i = none) :
    ∀ p c, v'.Blocked p c → v'.Coming c := by
  intro p₀ c₀ hb₀
  rcases hqueue with hqueue | ⟨-, hnone⟩
  · revert p₀ c₀
    refine h.of_kept ?_ ?_ ?_
    · intro p c hc
      rcases load_of_release hkilled hkept p with hl | hl
      · rw [Blocked, hl] at hc
        cases hc.1
      · rwa [Blocked, hl] at hc
    · intro p c _ _ hr
      rwa [Replied, hqueue]
    · intro p c d q hold hnew hd hq hcar
      by_cases hD : D d
      · rcases hok p c d hold hd hD with hself | hr
        · have := hown p c hnew.1
          rw [howner, if_pos hself] at this
          cases this
        · exact Or.inl (by rwa [Replied, hqueue])
      · have hl : v'.load q = v.load q := by
          refine hkept q fun i hi hiq => hD ?_
          rwa [h.owner_inj d i q hq hiq]
        refine Or.inr ⟨by rw [howner, if_neg hD]; exact hq, hcar.of_kept ?_ ?_ ?_ ?_⟩
        · rw [hdoomed d hD]
          exact id
        · rw [hqueue]
          exact fun m hm _ => hm
        · rw [hl]
          exact fun _ hr => hr
        · rw [hl]
          exact fun _ hr => hr
  · have := hown p₀ c₀ hb₀.1
    rw [hnone] at this
    cases this

/-- A slot without owner is taken: no call involves it. -/
theorem Pending.spawn {i : ActorId} {o : Option Slot} (h : v.Pending) (hfree : v.owner i = none) :
    let v' := { v.setQueue i [] with
      owner := Function.update v.owner i o, doomed := Function.update v.doomed i false }
    ∀ q c, v'.Blocked q c → v'.Coming c := by
  intro v'
  refine h.of_kept (fun q c hc => hc) ?_ ?_
  · rintro q c hold - ⟨x, hx, hmeth⟩
    have hci : c.self ≠ i := by
      intro heq
      have hown := h.own q c hold.1
      rw [heq, hfree] at hown
      cases hown
    exact ⟨x, by rw [show v'.queue c.self = _ from setQueue_queue_of_ne v [] hci]; exact hx, hmeth⟩
  · intro q c d q' _ _ _ hq' hcar
    have hdi : d ≠ i := by
      rintro rfl
      rw [hfree] at hq'
      cases hq'
    refine Or.inr ⟨?_, hcar.of_kept ?_ ?_ (fun _ hr => hr) fun _ hr => hr⟩
    · exact (Function.update_of_ne hdi ..).trans hq'
    · rw [show v'.doomed d = v.doomed d from Function.update_of_ne hdi ..]
      exact id
    · rw [show v'.queue d = v.queue d from setQueue_queue_of_ne v [] hdi]
      exact fun m hm _ => hm

theorem Pending.doom {i : ActorId} (h : v.Pending) (hok : v.Answerable (.doom i)) :
    let v' := { v with doomed := Function.update v.doomed i true }
    ∀ q c, v'.Blocked q c → v'.Coming c := by
  intro v'
  refine h.of_kept (fun q c hc => hc) (fun q c _ _ hr => hr) ?_
  intro q c d q' hold _ _ hq' hcar
  by_cases hdi : d = i
  · subst hdi
    rcases hcar with ⟨-, hm⟩ | hrest
    · exact Or.inl (hok q c hold hm)
    · exact Or.inr ⟨hq', Or.inr hrest⟩
  · refine Or.inr ⟨hq', hcar.of_kept ?_ (fun _ hm _ => hm) (fun _ hr => hr) fun _ hr => hr⟩
    rw [show v'.doomed d = v.doomed d from Function.update_of_ne hdi ..]
    exact id

/-- A process in a call that has a message in flight posts the request of the call. -/
theorem Pending.next_posting (h : v.Pending) (hn : Next v a v') :
    ∀ p c d m, (v'.load p).call = some c → (v'.load p).flight = some (d, m) →
      c.dest = d.val ∧ m.Asks c := by
  -- one process gets a new load, and has no call or nothing in flight
  have hset : ∀ {w : CallView} {q : Slot} {l : Load}, w.load = v.load →
      (∀ c d m, l.call = some c → l.flight = some (d, m) → c.dest = d.val ∧ m.Asks c) →
      ∀ p c d m, ((w.setLoad q l).load p).call = some c →
        ((w.setLoad q l).load p).flight = some (d, m) → c.dest = d.val ∧ m.Asks c := by
    intro w q l hw hl p c d m hc hf
    by_cases hpq : p = q
    · subst hpq
      rw [setLoad_load_self] at hc hf
      exact hl c d m hc hf
    · rw [setLoad_load_of_ne _ _ hpq, hw] at hc hf
      exact h.posting p c d m hc hf
  cases hn with
  | idle => exact h.posting
  | send p d m hcall hflight htag hto =>
    refine hset rfl fun c e x hc _ => ?_
    rw [hcall] at hc
    cases hc
  | call p c m d hcall hflight hctag htag hto hd =>
    refine hset (w := v) rfl fun c' e x hc hf => ?_
    cases hc
    obtain ⟨i, hi, heq⟩ := Option.map_eq_some_iff.mp hf
    cases heq
    exact ⟨hd _ hi, htag, hto⟩
  | post p d m full hflight =>
    refine hset (by cases full <;> rfl) fun c e x _ hf => ?_
    cases hf
  | recv p i m rest howner hempty hq =>
    refine hset (w := v.setQueue i rest) rfl fun c e x hc _ => ?_
    cases hc
  | select p i m meths hcall hfind => exact h.posting
  | reply p c m hcall hflight hfind =>
    refine hset (w := v.setQueue c.self _) rfl fun c e x hc _ => ?_
    cases hc
  | answer p i m r hl =>
    refine hset (w := v) rfl fun c e x hc _ => ?_
    cases hc
  | doom i => exact h.posting
  | release D v' howner hdoomed hkilled hkept hq hreply htag hans hret =>
    intro p c d m hc hf
    rcases load_of_release hkilled hkept p with hl | hl
    · rw [hl] at hc
      cases hc
    · rw [hl] at hc hf
      exact h.posting p c d m hc hf
  | spawn i p hfree hp => exact h.posting

theorem Pending.next (h : v.Pending) (hok : v.Answerable a) (hn : Next v a v') : v'.Pending := by
  have hsound := h.toSound.next hok.ownCall hn
  refine ⟨hsound, h.next_posting hn, ?_⟩
  cases hn with
  | idle => exact h.coming
  | send p d m hcall hflight htag hto => exact h.takeOff rfl rfl rfl rfl rfl hflight (by simp)
  | call p c m d hcall hflight hctag htag hto hd =>
    have hd' : (d.map fun i => (i, m)) ≠ none := by simpa using hok.2
    exact h.takeOff rfl rfl rfl rfl rfl hflight hd'
  | post p d m full hflight => exact h.post hok hflight
  | recv p i m rest howner hempty hq => exact h.recv howner hempty hq
  | select p i m meths hcall hfind =>
    exact h.take hfind (setQueue_queue_self ..) (fun e he => setQueue_queue_of_ne v _ he) rfl rfl
      (fun _ _ hc => hc) (fun _ => rfl) (fun _ => rfl) (fun r c hold _ => (hok r c hold).1)
      fun r c hold _ => (hok r c hold).2
  | reply p c m hcall hflight hfind => exact h.reply hok hcall hfind
  | answer p i m r hl => exact h.answer hl
  | doom i => exact h.doom hok
  | release D v' howner hdoomed hkilled hkept hq hreply htag hans hret =>
    exact h.release hok hsound.own howner hdoomed hkilled hkept hq
  | spawn i p hfree hp => exact h.spawn hfree

end CallView

end XinuRpi4.Actor
