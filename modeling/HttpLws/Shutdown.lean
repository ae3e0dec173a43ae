import HttpLws.Worker

/-!
# The end of a shutdown

`Kill(true)` waits until the worker has left `Run`, and the worker leaves only when it
reads the cleared flag. A shutdown on the game thread can always be brought to its end,
and soon after the flag is cleared nothing else can happen. A handler that shuts down
holds the worker in the callback that it runs in.
-/

namespace HttpLws

namespace ThreadState

/-- The thread object when its constructor returns: the worker has run `Init`. -/
def started (contextCreated : Bool) : ThreadState :=
  ⟨.atLoop, .notCalled, contextCreated, contextCreated, true⟩

/-- `Stop` has returned and the worker has left `Run`, so that `Kill(true)` returns. -/
def Finished (s : ThreadState) : Prop := s.stop = .waiting ∧ s.worker = .left

instance (s : ThreadState) : Decidable s.Finished :=
  inferInstanceAs (Decidable (s.stop = .waiting ∧ s.worker = .left))

/-- What the two sides have to do with each other at any moment after `Init`. -/
structure Orderly (s : ThreadState) : Prop where
  /-- The worker has run `Init`. -/
  begun : s.worker ≠ .notStarted
  /-- Up to its destruction the context is alive when there is one. -/
  before : s.stop = .notCalled ∨ s.stop = .atDestroy → s.contextAlive = s.context
  /-- The shutdown is about to destroy a context that is there. -/
  pointing : s.stop = .atDestroy → s.context = true
  /-- After its destruction the context is not alive. -/
  after : s.stop = .destroyed ∨ s.stop = .atFlag ∨ s.stop = .waiting → s.contextAlive = false
  /-- Then the variable is cleared. -/
  cleared : s.stop = .atFlag ∨ s.stop = .waiting → s.context = false
  /-- The flag is cleared last. -/
  flag : s.bStartThread = true ↔ s.stop ≠ .waiting
  /-- The worker leaves only when the flag is cleared. -/
  leaves : s.worker = .left → s.stop = .waiting

/-- The worker is on its way through `lws_service` only with a context that nobody has
destroyed. -/
def Serving (s : ThreadState) : Prop :=
  s.worker = .passed ∨ s.worker = .inService →
    s.context = true ∧ (s.stop = .notCalled ∨ s.stop = .atDestroy)

/-- A started thread object is orderly. -/
theorem orderly_started (contextCreated : Bool) : Orderly (started contextCreated) := by
  constructor <;> simp [started]

/-- A step of the worker keeps a thread object orderly, also one that services a
destroyed context: it changes nothing but where the worker is. -/
theorem Orderly.worker {stopper : Stopper} {s t : ThreadState} {e : ThreadEvent}
    (hs : Orderly s) (he : e = .readFlag ∨ e = .testContext ∨ e = .enterService ∨
      e = .runHandlers ∨ e = .leaveService) (hstep : s.step stopper e = some t) : Orderly t := by
  have hmoved : ∀ w, w ≠ .notStarted → (w = .left → s.bStartThread = false) →
      Orderly { s with worker := w } := by
    intro w hw hleft
    refine ⟨hw, hs.before, hs.pointing, hs.after, hs.cleared, hs.flag, fun h => ?_⟩
    by_contra hstop
    have hflag := hs.flag.mpr hstop
    rw [hleft h] at hflag
    exact absurd hflag (by decide)
  rcases he with rfl | rfl | rfl | rfl | rfl <;>
    simp only [step, Option.ite_none_right_eq_some, Option.some.injEq] at hstep <;>
    obtain ⟨henabled, rfl⟩ := hstep
  · apply hmoved
    · split_ifs <;> decide
    · intro h
      by_contra hflag
      simp [hflag] at h
  · apply hmoved
    · split_ifs <;> decide
    · intro h
      split_ifs at h
  · exact hmoved _ (by decide) (by simp)
  · exact hs
  · exact hmoved _ (by decide) (by simp)

/-- A step of the shutdown keeps a thread object orderly. -/
theorem Orderly.stop {stopper : Stopper} {s t : ThreadState} {e : ThreadEvent}
    (hs : Orderly s) (he : e = .stopTest ∨ e = .destroyContext ∨ e = .setNull ∨ e = .clearFlag)
    (hstep : s.step stopper e = some t) : Orderly t := by
  obtain ⟨hbegun, hbefore, hpointing, hafter, hcleared, hflag, hleaves⟩ := hs
  rcases he with rfl | rfl | rfl | rfl <;>
    simp only [step, Option.ite_none_right_eq_some, Option.some.injEq] at hstep <;>
    obtain ⟨henabled, rfl⟩ := hstep
  · have hstop := henabled.1
    have hset : s.bStartThread = true := by simp [hflag, hstop]
    have hsame := hbefore (Or.inl hstop)
    have hin : s.worker ≠ .left := fun h => by simp [hleaves h] at hstop
    cases hcontext : s.context <;> constructor <;> simp_all
  · constructor <;> simp_all
  · constructor <;> simp_all
  · constructor <;> simp_all

/-- Every step keeps a thread object orderly. -/
theorem Orderly.step {stopper : Stopper} {s t : ThreadState} {e : ThreadEvent} (hs : Orderly s)
    (hstep : s.step stopper e = some t) : Orderly t := by
  cases e with
  | init created =>
    simp only [ThreadState.step, Option.ite_none_right_eq_some] at hstep
    exact absurd hstep.1 hs.begun
  | readFlag | testContext | enterService | runHandlers | leaveService =>
    exact hs.worker (by simp) hstep
  | stopTest | destroyContext | setNull | clearFlag => exact hs.stop (by simp) hstep

/-- Under the condition, a worker is serviced by a living context only. -/
theorem Serving.step {stopper : Stopper} {s t : ThreadState} {e : ThreadEvent} (hs : Orderly s)
    (hserving : Serving s) (hstep : s.step stopper e = some t) (hapart : Apart s e t) :
    Serving t := by
  cases e <;>
    simp only [ThreadState.step, Option.ite_none_right_eq_some, Option.some.injEq] at hstep <;>
    obtain ⟨henabled, rfl⟩ := hstep <;> intro hway
  case init created => simp at hway
  case readFlag => split_ifs at hway <;> simp at hway
  case testContext =>
    split_ifs at hway with hcontext
    · refine ⟨hcontext, ?_⟩
      have hnot : s.stop ≠ .destroyed := hapart
      have hcleared := hs.cleared
      rw [hcontext] at hcleared
      cases hstop : s.stop <;> simp_all
    · simp at hway
  case enterService => exact hserving (Or.inl henabled)
  case runHandlers => exact hserving hway
  case leaveService => simp at hway
  case stopTest =>
    obtain ⟨hcontext, -⟩ := hserving hway
    exact ⟨hcontext, by simp [hcontext]⟩
  case destroyContext =>
    rcases hway with hway | hway
    · exact absurd hway hapart.1
    · exact absurd hway hapart.2
  case setNull => simpa [henabled] using (hserving hway).2
  case clearFlag => simpa [henabled] using (hserving hway).2

/-- A worker outside of `lws_service` and not on its way into it. -/
def Outside (s : ThreadState) : Prop :=
  s.worker = .atLoop ∨ s.worker = .atTest ∨ s.worker = .left

/-- The worker can come out of `lws_service`. -/
theorem leads_outside {s : ThreadState} (hs : Orderly s) :
    ∃ t, Runs.Leads (step .gameThread) Apart s t ∧ Outside t := by
  cases hworker : s.worker with
  | notStarted => exact absurd hworker hs.begun
  | atLoop => exact ⟨s, .refl s, Or.inl hworker⟩
  | atTest => exact ⟨s, .refl s, Or.inr (Or.inl hworker)⟩
  | left => exact ⟨s, .refl s, Or.inr (Or.inr hworker)⟩
  | inService =>
    have hleave : s.step .gameThread .leaveService = some { s with worker := .atLoop } := by
      simp [step, hworker]
    exact ⟨_, .head hleave trivial (.refl _), Or.inl rfl⟩
  | passed =>
    have henter : s.step .gameThread .enterService = some { s with worker := .inService } := by
      simp [step, hworker]
    have hleave : ThreadState.step .gameThread { s with worker := .inService } .leaveService =
        some { s with worker := .atLoop } := by
      simp [step]
    exact ⟨_, .head henter trivial (.head hleave trivial (.refl _)), Or.inl rfl⟩

/-- The last step of the shutdown. -/
theorem leads_of_atFlag {s : ThreadState} (hstop : s.stop = .atFlag) (hout : Outside s) :
    ∃ t, Runs.Leads (step .gameThread) Apart s t ∧ Outside t ∧ t.stop = .waiting := by
  have hclear : s.step .gameThread .clearFlag =
      some { s with stop := .waiting, bStartThread := false } := by
    simp [step, hstop]
  exact ⟨_, .head hclear trivial (.refl _), hout, rfl⟩

/-- The shutdown from the destroyed context on. -/
theorem leads_of_destroyed {s : ThreadState} (hstop : s.stop = .destroyed) (hout : Outside s) :
    ∃ t, Runs.Leads (step .gameThread) Apart s t ∧ Outside t ∧ t.stop = .waiting := by
  have hnull : s.step .gameThread .setNull = some { s with stop := .atFlag, context := false } := by
    simp [step, hstop]
  obtain ⟨t, ht, hdone⟩ := leads_of_atFlag (s := { s with stop := .atFlag, context := false })
    rfl hout
  exact ⟨t, .head hnull trivial ht, hdone⟩

/-- The shutdown from its test on. -/
theorem leads_of_atDestroy {s : ThreadState} (hstop : s.stop = .atDestroy) (hout : Outside s) :
    ∃ t, Runs.Leads (step .gameThread) Apart s t ∧ Outside t ∧ t.stop = .waiting := by
  have hdestroy : s.step .gameThread .destroyContext =
      some { s with stop := .destroyed, contextAlive := false } := by
    simp [step, hstop]
  have hapart : Apart s .destroyContext { s with stop := .destroyed, contextAlive := false } := by
    rcases hout with h | h | h <;> simp [Apart, h]
  obtain ⟨t, ht, hdone⟩ := leads_of_destroyed
    (s := { s with stop := .destroyed, contextAlive := false }) rfl hout
  exact ⟨t, .head hdestroy hapart ht, hdone⟩

/-- Beside a worker outside of `lws_service` the whole shutdown can run. -/
theorem leads_waiting {s : ThreadState} (hout : Outside s) :
    ∃ t, Runs.Leads (step .gameThread) Apart s t ∧ Outside t ∧ t.stop = .waiting := by
  cases hstop : s.stop with
  | notCalled =>
    have htest : s.step .gameThread .stopTest =
        some { s with stop := if s.context then .atDestroy else .atFlag } := by
      simp [step, hstop]
    have hrest : ∃ t, Runs.Leads (step .gameThread) Apart
        { s with stop := if s.context then .atDestroy else .atFlag } t ∧ Outside t ∧
          t.stop = .waiting := by
      cases hcontext : s.context with
      | true => exact leads_of_atDestroy rfl hout
      | false => exact leads_of_atFlag rfl hout
    obtain ⟨t, ht, hdone⟩ := hrest
    exact ⟨t, .head htest trivial ht, hdone⟩
  | atDestroy => exact leads_of_atDestroy hstop hout
  | destroyed => exact leads_of_destroyed hstop hout
  | atFlag => exact leads_of_atFlag hstop hout
  | waiting => exact ⟨s, .refl s, hout, hstop⟩

/-- When the flag is cleared, a worker outside of `lws_service` can leave. -/
theorem leads_left {s : ThreadState} (hs : Orderly s) (hout : Outside s)
    (hstop : s.stop = .waiting) :
    ∃ t, Runs.Leads (step .gameThread) Apart s t ∧ Finished t := by
  have hflag : s.bStartThread = false := by
    rw [← Bool.not_eq_true, hs.flag, hstop]
    simp
  have hread : ∀ u : ThreadState, u.worker = .atLoop → u.bStartThread = false →
      u.step .gameThread .readFlag = some { u with worker := .left } := by
    intro u hloop hcleared
    simp [step, hloop, hcleared]
  rcases hout with hworker | hworker | hworker
  · exact ⟨_, .head (hread s hworker hflag) trivial (.refl _), hstop, rfl⟩
  · have htest : s.step .gameThread .testContext = some { s with worker := .atLoop } := by
      simp [step, hworker, hs.cleared (Or.inr hstop)]
    have hapart : Apart s .testContext { s with worker := .atLoop } := by
      simp [Apart, hstop]
    exact ⟨_, .head htest hapart (.head (hread _ rfl hflag) trivial (.refl _)), hstop, rfl⟩
  · exact ⟨s, .refl s, hstop, hworker⟩

/-- From every orderly moment the shutdown can be brought to its end. -/
theorem leads_finished {s : ThreadState} (hs : Orderly s) :
    ∃ t, Runs.Leads (step .gameThread) Apart s t ∧ Finished t := by
  have hkept : ∀ {a b : ThreadState}, Runs.Leads (step .gameThread) Apart a b → Orderly a →
      Orderly b := fun h => h.invariant Orderly fun _ _ _ ho hstep _ => ho.step hstep
  obtain ⟨t, ht, hout⟩ := leads_outside hs
  obtain ⟨u, hu, hout', hwaiting⟩ := leads_waiting hout
  obtain ⟨v, hv, hdone⟩ := leads_left (hkept hu (hkept ht hs)) hout' hwaiting
  exact ⟨v, ht.trans (hu.trans hv), hdone⟩

/-- How many steps a worker outside of `lws_service` takes when the flag is cleared. -/
def stepsLeft (s : ThreadState) : ℕ :=
  match s.worker with
  | .atTest => 2
  | .atLoop => 1
  | _ => 0

/-- After the flag is cleared there are only the steps of a worker on its way out. -/
structure Leaving (s : ThreadState) : Prop where
  /-- The thread object is orderly. -/
  orderly : Orderly s
  /-- The worker is outside of `lws_service`. -/
  out : Outside s
  /-- The flag is cleared. -/
  stop : s.stop = .waiting

/-- Then only two steps are possible. -/
theorem Leaving.step_cases {stopper : Stopper} {s t : ThreadState} {e : ThreadEvent}
    (hs : Leaving s) (hstep : s.step stopper e = some t) :
    (e = .readFlag ∧ s.worker = .atLoop ∧ t = { s with worker := .left }) ∨
      (e = .testContext ∧ s.worker = .atTest ∧ t = { s with worker := .atLoop }) := by
  obtain ⟨hs, hout, hstop⟩ := hs
  have hcontext := hs.cleared (Or.inr hstop)
  have hflag : s.bStartThread = false := by
    rw [← Bool.not_eq_true, hs.flag, hstop]
    simp
  have hservice : s.worker ≠ .passed ∧ s.worker ≠ .inService := by
    rcases hout with h | h | h <;> simp [h]
  cases e with
  | readFlag =>
    simp only [ThreadState.step, Option.ite_none_right_eq_some, Option.some.injEq] at hstep
    obtain ⟨hworker, rfl⟩ := hstep
    exact Or.inl ⟨rfl, hworker, by simp [hflag]⟩
  | testContext =>
    simp only [ThreadState.step, Option.ite_none_right_eq_some, Option.some.injEq] at hstep
    obtain ⟨hworker, rfl⟩ := hstep
    exact Or.inr ⟨rfl, hworker, by simp [hcontext]⟩
  | init created =>
    simp only [ThreadState.step, Option.ite_none_right_eq_some] at hstep
    exact absurd hstep.1 hs.begun
  | enterService =>
    simp only [ThreadState.step, Option.ite_none_right_eq_some] at hstep
    exact absurd hstep.1 hservice.1
  | runHandlers | leaveService =>
    simp only [ThreadState.step, Option.ite_none_right_eq_some] at hstep
    exact absurd hstep.1.1 hservice.2
  | stopTest | destroyContext | setNull | clearFlag =>
    simp [ThreadState.step, hstop] at hstep

/-- Every step then brings the worker nearer to its end. -/
theorem Leaving.step {stopper : Stopper} {s t : ThreadState} {e : ThreadEvent} (hs : Leaving s)
    (hstep : s.step stopper e = some t) : Leaving t ∧ stepsLeft t < stepsLeft s := by
  have horderly := hs.orderly.step hstep
  rcases hs.step_cases hstep with ⟨-, hworker, rfl⟩ | ⟨-, hworker, rfl⟩
  · refine ⟨⟨horderly, Or.inr (Or.inr rfl), hs.stop⟩, ?_⟩
    simp [stepsLeft, hworker]
  · refine ⟨⟨horderly, Or.inl rfl, hs.stop⟩, ?_⟩
    simp [stepsLeft, hworker]

/-- A handler that has begun a shutdown holds the worker in `lws_service`. -/
theorem handler_held {s t : ThreadState} {e : ThreadEvent}
    (hheld : s.stop ≠ .notCalled → s.worker = .inService)
    (hstep : s.step .handler e = some t) : t.stop ≠ .notCalled → t.worker = .inService := by
  cases e <;>
    simp only [ThreadState.step, Option.ite_none_right_eq_some, Option.some.injEq] at hstep <;>
    obtain ⟨henabled, rfl⟩ := hstep <;> intro hstop
  all_goals simp_all

/-- A finished thread object takes no step. -/
theorem Finished.no_step {stopper : Stopper} {s : ThreadState} (hfinished : s.Finished)
    (hs : Orderly s) (e : ThreadEvent) : s.step stopper e = none := by
  cases hstep : s.step stopper e with
  | none => rfl
  | some t =>
    have hleaving : Leaving s := ⟨hs, Or.inr (Or.inr hfinished.2), hfinished.1⟩
    have hcases := hleaving.step_cases hstep
    simp [hfinished.2] at hcases

/-- **The end of a shutdown.** When the game thread shuts down and keeps the destruction
of the context apart from the service, the worker can at every moment still leave
`Run`, and behind the clearing of the flag at most two steps remain. A shutdown that a
handler has begun never ends: the worker stays in the callback. -/
theorem shutdown_ends (contextCreated : Bool) :
    (∀ events s, Runs.EachStep (step .gameThread) Apart (started contextCreated) events →
        Runs.exec (step .gameThread) (started contextCreated) events = some s →
        (∃ t, Runs.Leads (step .gameThread) Apart s t ∧ Finished t) ∧
          (s.stop = .waiting → ∀ more t, Runs.exec (step .gameThread) s more = some t →
            more.length ≤ 2)) ∧
      ∀ events s, Runs.exec (step .handler) (started contextCreated) events = some s →
        s.stop ≠ .notCalled → s.worker = .inService := by
  constructor
  · intro events s hrun hexec
    obtain ⟨hs, hserving⟩ : Orderly s ∧ Serving s :=
      Runs.exec_invariant (fun u => Orderly u ∧ Serving u)
        (fun u e v hu hstep hapart => ⟨hu.1.step hstep, hu.2.step hu.1 hstep hapart⟩)
        ⟨orderly_started contextCreated, by simp [Serving, started]⟩ hrun hexec
    refine ⟨leads_finished hs, fun hstop more t hmore => ?_⟩
    have hout : Outside s := by
      have hservice : ¬(s.worker = .passed ∨ s.worker = .inService) := fun h => by
        simpa [hstop] using (hserving h).2
      have hleft := hs.leaves
      have hbegun := hs.begun
      cases hworker : s.worker <;> simp_all [Outside]
    have hbound := Runs.length_le_of_measure Leaving stepsLeft (fun _ _ _ hu => hu.step)
      ⟨hs, hout, hstop⟩ hmore
    have htwo : stepsLeft s ≤ 2 := by
      unfold stepsLeft
      split <;> omega
    omega
  · intro events s hexec
    have hheld := Runs.exec_preserves
      (fun u : ThreadState => u.stop ≠ .notCalled → u.worker = .inService)
      (fun u e v hu hstep => handler_held hu hstep) (by simp [started]) hexec
    exact hheld

/-- A shutdown that has begun while the worker is in service can still end. -/
theorem shutdown_beside_service_ends :
    ∃ t, Runs.Leads (step .gameThread) Apart ⟨.inService, .atDestroy, true, true, true⟩ t ∧
      Finished t :=
  ((shutdown_ends true).1 [.readFlag, .testContext, .enterService, .stopTest]
    ⟨.inService, .atDestroy, true, true, true⟩ (by decide) rfl).1

end ThreadState

end HttpLws
