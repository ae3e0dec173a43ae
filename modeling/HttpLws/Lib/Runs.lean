import Mathlib.Data.List.Basic

/-!
# Runs of a partial step function

A system is a step function on states and events; an event that is not enabled
has no successor and ends the run. `EachStep` states a property of every step a
run takes. Its rules reduce such a property to single steps: an invariant is
carried along, and a step condition gives the step property where it holds.
-/

namespace Runs

variable {S E : Type*}

/-- The property `Q` holds of every step that the run on `es` from `s` takes. -/
def EachStep (step : S → E → Option S) (Q : S → E → S → Prop) : S → List E → Prop
  | _, [] => True
  | s, e :: es =>
      match step s e with
      | none => True
      | some t => Q s e t ∧ EachStep step Q t es

/-- The state after all of `es`, when every event is enabled in its turn. -/
def exec (step : S → E → Option S) : S → List E → Option S
  | s, [] => some s
  | s, e :: es => (step s e).bind fun t => exec step t es

variable {step : S → E → Option S} {C Q : S → E → S → Prop}

/-- The steps of a run are decided one after another. -/
def decideEachStep [∀ s e t, Decidable (Q s e t)] :
    (s : S) → (es : List E) → Decidable (EachStep step Q s es)
  | _, [] => .isTrue trivial
  | s, e :: es =>
      match h : step s e with
      | none => .isTrue (by simp [EachStep, h])
      | some t =>
          have := decideEachStep t es
          decidable_of_iff (Q s e t ∧ EachStep step Q t es) (by simp [EachStep, h])

instance [∀ s e t, Decidable (Q s e t)] (s : S) (es : List E) :
    Decidable (EachStep step Q s es) := decideEachStep s es

@[simp] theorem eachStep_nil (s : S) : EachStep step Q s [] := trivial

/-- The run ends at an event that is not enabled. -/
theorem eachStep_cons_none {s : S} {e : E} (h : step s e = none) (es : List E) :
    EachStep step Q s (e :: es) := by
  simp [EachStep, h]

/-- The run goes on from the successor of an enabled event. -/
theorem eachStep_cons_some {s t : S} {e : E} (h : step s e = some t) (es : List E) :
    EachStep step Q s (e :: es) ↔ Q s e t ∧ EachStep step Q t es := by
  simp [EachStep, h]

/-- A property of every step that an event of the run can take holds of its steps. -/
theorem eachStep_of_forall_mem {es : List E}
    (hQ : ∀ e ∈ es, ∀ s t, step s e = some t → Q s e t) (s : S) : EachStep step Q s es := by
  induction es generalizing s with
  | nil => trivial
  | cons e es ih =>
    rw [List.forall_mem_cons] at hQ
    cases h : step s e with
    | none => exact eachStep_cons_none h es
    | some t => exact (eachStep_cons_some h es).mpr ⟨hQ.1 s t h, ih hQ.2 t⟩

/-- **Invariant rule.** A step condition that preserves an invariant and gives
`Q` under it makes `Q` hold of every step of a run that meets the condition. -/
theorem EachStep.of_invariant (Inv : S → Prop)
    (hstep : ∀ s e t, Inv s → step s e = some t → C s e t → Q s e t ∧ Inv t)
    {s : S} {es : List E} (hs : Inv s) (hrun : EachStep step C s es) :
    EachStep step Q s es := by
  induction es generalizing s with
  | nil => trivial
  | cons e es ih =>
    cases h : step s e with
    | none => exact eachStep_cons_none h es
    | some t =>
      obtain ⟨hC, hrest⟩ := (eachStep_cons_some h es).mp hrun
      obtain ⟨hQ, ht⟩ := hstep s e t hs h hC
      exact (eachStep_cons_some h es).mpr ⟨hQ, ih ht hrest⟩

/-- When condition and property agree on single steps under an invariant that
the condition preserves, they agree on whole runs. -/
theorem eachStep_iff_of_invariant (Inv : S → Prop)
    (hiff : ∀ s e t, Inv s → step s e = some t → (C s e t ↔ Q s e t))
    (hpres : ∀ s e t, Inv s → step s e = some t → C s e t → Inv t)
    {s : S} {es : List E} (hs : Inv s) : EachStep step C s es ↔ EachStep step Q s es := by
  constructor
  · exact EachStep.of_invariant Inv
      (fun s e t hs h hC => ⟨(hiff s e t hs h).mp hC, hpres s e t hs h hC⟩) hs
  · refine EachStep.of_invariant Inv (fun s e t hs h hQ => ?_) hs
    have hC := (hiff s e t hs h).mpr hQ
    exact ⟨hC, hpres s e t hs h hC⟩

/-- A run that breaks a step property has a first step that breaks it. -/
theorem exists_first_violation {s : S} {es : List E} (hrun : ¬EachStep step C s es) :
    ∃ pre e post t u, es = pre ++ e :: post ∧ EachStep step C s pre ∧
      exec step s pre = some t ∧ step t e = some u ∧ ¬C t e u := by
  induction es generalizing s with
  | nil => exact absurd trivial hrun
  | cons e es ih =>
    cases h : step s e with
    | none => exact absurd (eachStep_cons_none h es) hrun
    | some t =>
      by_cases hC : C s e t
      · have hrest : ¬EachStep step C t es := fun hr =>
          hrun ((eachStep_cons_some h es).mpr ⟨hC, hr⟩)
        obtain ⟨pre, e', post, t', u, rfl, hpre, hexec, hlast, hbad⟩ := ih hrest
        refine ⟨e :: pre, e', post, t', u, rfl, ?_, ?_, hlast, hbad⟩
        · exact (eachStep_cons_some h pre).mpr ⟨hC, hpre⟩
        · simpa [exec, h] using hexec
      · exact ⟨[], e, es, s, t, rfl, trivial, rfl, h, hC⟩

/-- A property of every step of a run holds of the steps after an executed prefix. -/
theorem EachStep.of_exec {s t : S} {pre post : List E}
    (hrun : EachStep step Q s (pre ++ post)) (hexec : exec step s pre = some t) :
    EachStep step Q t post := by
  induction pre generalizing s with
  | nil =>
    obtain rfl : s = t := by simpa [exec] using hexec
    exact hrun
  | cons e pre ih =>
    cases h : step s e with
    | none => simp [exec, h] at hexec
    | some s' =>
      rw [List.cons_append, eachStep_cons_some h] at hrun
      exact ih hrun.2 (by simpa [exec, h] using hexec)

/-- An invariant that every step under the condition preserves holds after the run. -/
theorem exec_invariant (Inv : S → Prop)
    (hpres : ∀ s e t, Inv s → step s e = some t → C s e t → Inv t)
    {s t : S} {es : List E} (hs : Inv s) (hrun : EachStep step C s es)
    (hexec : exec step s es = some t) : Inv t := by
  induction es generalizing s with
  | nil =>
    obtain rfl : s = t := by simpa [exec] using hexec
    exact hs
  | cons e es ih =>
    cases h : step s e with
    | none => simp [exec, h] at hexec
    | some s' =>
      obtain ⟨hC, hrest⟩ := (eachStep_cons_some h es).mp hrun
      exact ih (hpres s e s' hs h hC) hrest (by simpa [exec, h] using hexec)

/-- An invariant that every step preserves holds after every run. -/
theorem exec_preserves (Inv : S → Prop) (hpres : ∀ s e t, Inv s → step s e = some t → Inv t)
    {s t : S} {es : List E} (hs : Inv s) (hexec : exec step s es = some t) : Inv t :=
  exec_invariant (C := fun _ _ _ => True) Inv (fun s e t hs h _ => hpres s e t hs h) hs
    (eachStep_of_forall_mem (fun _ _ _ _ _ => trivial) s) hexec

/-- A run is a fold in `Option`. -/
theorem foldlM_eq_exec (s : S) (es : List E) : es.foldlM step s = exec step s es := by
  induction es generalizing s with
  | nil => rfl
  | cons e es ih =>
    rw [List.foldlM_cons, exec]
    congr 1
    funext t
    exact ih t

/-- An invariant that every step preserves holds after a fold in `Option`. -/
theorem foldlM_invariant (Inv : S → Prop) (hpres : ∀ s e t, Inv s → step s e = some t → Inv t)
    {s t : S} {es : List E} (hs : Inv s) (hfold : es.foldlM step s = some t) : Inv t := by
  rw [foldlM_eq_exec] at hfold
  exact exec_preserves Inv hpres hs hfold

/-- A run on one list of events after another. -/
theorem exec_append (s : S) (es fs : List E) :
    exec step s (es ++ fs) = (exec step s es).bind fun t => exec step t fs := by
  induction es generalizing s with
  | nil => rfl
  | cons e es ih =>
    rw [List.cons_append, exec, exec]
    cases step s e with
    | none => rfl
    | some t => exact ih t

/-- **Refinement rule.** When every step is an abstract action on what is seen of the state
or leaves it alone, a run is seen as a run of its actions. -/
theorem exec_refines {A B : Type*} (view : S → A) (label : E → Option B) (act : A → B → A)
    (hstep : ∀ s e t, step s e = some t → view t = (label e).elim (view s) (act (view s)))
    {s t : S} {es : List E} (hexec : exec step s es = some t) :
    view t = (es.filterMap label).foldl act (view s) := by
  induction es generalizing s with
  | nil =>
    obtain rfl : s = t := by simpa [exec] using hexec
    rfl
  | cons e es ih =>
    obtain ⟨u, hu, hrest⟩ := Option.bind_eq_some_iff.mp hexec
    rw [ih hrest, hstep s e u hu]
    cases hlabel : label e with
    | none => rw [List.filterMap_cons_none hlabel, Option.elim_none]
    | some b => rw [List.filterMap_cons_some hlabel, List.foldl_cons, Option.elim_some]

/-- **Erasure rule.** When every event of a run is an abstract event on what is seen of the
state, or one that goes unseen, the run is seen as the run on its abstract events. -/
theorem exec_filterMap {S' E' : Type*} {step' : S' → E' → Option S'} (view : S → S')
    (label : E → Option E') {es : List E}
    (hstep : ∀ e ∈ es, ∀ s,
      (step s e).map view = (label e).elim (some (view s)) (step' (view s))) (s : S) :
    (exec step s es).map view = exec step' (view s) (es.filterMap label) := by
  induction es generalizing s with
  | nil => rfl
  | cons e es ih =>
    obtain ⟨hfirst, hrest⟩ := List.forall_mem_cons.mp hstep
    have ih := ih hrest
    have hseen : (exec step s (e :: es)).map view =
        ((step s e).map view).bind fun s' => exec step' s' (es.filterMap label) := by
      rw [exec, Option.map_bind, Option.bind_map]
      congr 1
      funext t
      exact ih t
    rw [hseen, hfirst]
    cases hlabel : label e with
    | none => rw [List.filterMap_cons_none hlabel, Option.elim_none, Option.bind_some]
    | some e' => rw [List.filterMap_cons_some hlabel, Option.elim_some, exec]

/-- An event that is enabled in no state ends every run that it occurs in. -/
theorem exec_eq_none_of_mem {e : E} (hnever : ∀ s, step s e = none) {es : List E} (he : e ∈ es)
    (s : S) : exec step s es = none := by
  obtain ⟨before, after, rfl⟩ := List.append_of_mem he
  rw [exec_append]
  cases exec step s before with
  | none => rfl
  | some t => rw [Option.bind_some, exec, hnever, Option.bind_none]

/-- A run whose steps all meet the condition leads from `s` to `t`. -/
def Leads (step : S → E → Option S) (C : S → E → S → Prop) (s t : S) : Prop :=
  ∃ es, EachStep step C s es ∧ exec step s es = some t

/-- The empty run leads nowhere else. -/
theorem Leads.refl (s : S) : Leads step C s s := ⟨[], trivial, rfl⟩

/-- One more step in front. -/
theorem Leads.head {s t u : S} {e : E} (h : step s e = some t) (hC : C s e t)
    (hrest : Leads step C t u) : Leads step C s u := by
  obtain ⟨es, hrun, hexec⟩ := hrest
  refine ⟨e :: es, (eachStep_cons_some h es).mpr ⟨hC, hrun⟩, ?_⟩
  rw [exec, h, Option.bind_some, hexec]

/-- Runs one after the other. -/
theorem Leads.trans {s t u : S} (hst : Leads step C s t) (htu : Leads step C t u) :
    Leads step C s u := by
  obtain ⟨es, hrun, hexec⟩ := hst
  induction es generalizing s with
  | nil =>
    obtain rfl : s = t := by simpa [exec] using hexec
    exact htu
  | cons e es ih =>
    cases h : step s e with
    | none => simp [exec, h] at hexec
    | some s' =>
      obtain ⟨hC, hrest⟩ := (eachStep_cons_some h es).mp hrun
      exact .head h hC (ih hrest (by simpa [exec, h] using hexec))

/-- An invariant that every step under the condition preserves holds where a run leads. -/
theorem Leads.invariant (Inv : S → Prop)
    (hpres : ∀ s e t, Inv s → step s e = some t → C s e t → Inv t) {s t : S}
    (h : Leads step C s t) (hs : Inv s) : Inv t := by
  obtain ⟨es, hrun, hexec⟩ := h
  exact exec_invariant Inv hpres hs hrun hexec

/-- **Simulation rule.** Where every step of one system is a step of another, a run of the
one leads in the other as well. -/
theorem Leads.map {S' E' : Type*} {step' : S' → E' → Option S'} {C' : S' → E' → S' → Prop}
    (f : S → S') (g : E → E')
    (hsim : ∀ s e t, step s e = some t → C s e t →
      step' (f s) (g e) = some (f t) ∧ C' (f s) (g e) (f t))
    {s t : S} (h : Leads step C s t) : Leads step' C' (f s) (f t) := by
  obtain ⟨es, hrun, hexec⟩ := h
  induction es generalizing s with
  | nil =>
    obtain rfl : s = t := by simpa [exec] using hexec
    exact .refl _
  | cons e es ih =>
    cases h : step s e with
    | none => simp [exec, h] at hexec
    | some u =>
      obtain ⟨hC, hrest⟩ := (eachStep_cons_some h es).mp hrun
      obtain ⟨hstep', hC'⟩ := hsim s e u h hC
      exact .head hstep' hC' (ih hrest (by simpa [exec, h] using hexec))

/-- **Measure rule.** When every step lowers a measure, a run has at most as many steps
as the measure says. -/
theorem length_le_of_measure (Inv : S → Prop) (measure : S → ℕ)
    (hpres : ∀ s e t, Inv s → step s e = some t → Inv t ∧ measure t < measure s)
    {s t : S} {es : List E} (hs : Inv s) (hexec : exec step s es = some t) :
    es.length + measure t ≤ measure s := by
  induction es generalizing s with
  | nil =>
    obtain rfl : s = t := by simpa [exec] using hexec
    simp
  | cons e es ih =>
    cases h : step s e with
    | none => simp [exec, h] at hexec
    | some s' =>
      obtain ⟨hs', hlower⟩ := hpres s e s' hs h
      have hrest := ih hs' (by simpa [exec, h] using hexec)
      rw [List.length_cons]
      omega

/-- What is seen of a run: the labels of its steps, where they have one. -/
def trace {B : Type*} (step : S → E → Option S) (label : S → E → Option B) : S → List E → List B
  | _, [] => []
  | s, e :: es => (step s e).elim [] fun t => (label s e).toList ++ trace step label t es

/-- A run whose steps all meet the condition leads from `s` to `t` and is seen as `bs`. -/
def Shows {B : Type*} (step : S → E → Option S) (C : S → E → S → Prop) (label : S → E → Option B)
    (s : S) (bs : List B) (t : S) : Prop :=
  ∃ es, EachStep step C s es ∧ exec step s es = some t ∧ trace step label s es = bs

section Shows

variable {B : Type*} {label : S → E → Option B}

/-- Nothing is seen of the empty run. -/
theorem Shows.refl (s : S) : Shows step C label s [] s := ⟨[], trivial, rfl, rfl⟩

/-- One more step in front. -/
theorem Shows.head {s t u : S} {e : E} {bs : List B} (h : step s e = some t) (hC : C s e t)
    (hrest : Shows step C label t bs u) :
    Shows step C label s ((label s e).toList ++ bs) u := by
  obtain ⟨es, hrun, hexec, rfl⟩ := hrest
  refine ⟨e :: es, (eachStep_cons_some h es).mpr ⟨hC, hrun⟩, ?_, ?_⟩
  · rw [exec, h, Option.bind_some, hexec]
  · rw [trace, h, Option.elim_some]

/-- One step that is seen. -/
theorem Shows.seen {s t : S} {e : E} {b : B} (h : step s e = some t) (hC : C s e t)
    (hlabel : label s e = some b) : Shows step C label s [b] t := by
  have hstep : Shows step C label s ((label s e).toList ++ []) t := .head h hC (.refl t)
  rwa [hlabel] at hstep

/-- One step that goes unseen. -/
theorem Shows.unseen {s t : S} {e : E} (h : step s e = some t) (hC : C s e t)
    (hlabel : label s e = none) : Shows step C label s [] t := by
  have hstep : Shows step C label s ((label s e).toList ++ []) t := .head h hC (.refl t)
  rwa [hlabel] at hstep

/-- Runs one after the other. -/
theorem Shows.trans {s t u : S} {bs cs : List B} (hst : Shows step C label s bs t)
    (htu : Shows step C label t cs u) : Shows step C label s (bs ++ cs) u := by
  obtain ⟨es, hrun, hexec, rfl⟩ := hst
  induction es generalizing s with
  | nil =>
    obtain rfl : s = t := by simpa [exec] using hexec
    exact htu
  | cons e es ih =>
    obtain ⟨s', h, hrest⟩ := Option.bind_eq_some_iff.mp hexec
    obtain ⟨hC, hrun'⟩ := (eachStep_cons_some h es).mp hrun
    rw [trace, h, Option.elim_some, List.append_assoc]
    exact .head h hC (ih hrun' hrest)

/-- **Forward simulation.** When every step under the condition keeps an invariant and is
seen as a step of another system, or goes unseen, what is seen of a run is a run of the
other system. -/
theorem Shows.exec {S' : Type*} {step' : S' → B → Option S'} (view : S → S') (Inv : S → Prop)
    (hsim : ∀ s e t, Inv s → step s e = some t → C s e t →
      Inv t ∧ (label s e).elim (some (view s)) (step' (view s)) = some (view t))
    {s t : S} {bs : List B} (hs : Inv s) (h : Shows step C label s bs t) :
    exec step' (view s) bs = some (view t) := by
  obtain ⟨es, hrun, hexec, rfl⟩ := h
  induction es generalizing s with
  | nil =>
    obtain rfl : s = t := by simpa [Runs.exec] using hexec
    rfl
  | cons e es ih =>
    obtain ⟨u, h, hrest⟩ := Option.bind_eq_some_iff.mp hexec
    obtain ⟨hC, hrun'⟩ := (eachStep_cons_some h es).mp hrun
    obtain ⟨hu, hview⟩ := hsim s e u hs h hC
    rw [trace, h, Option.elim_some]
    cases hlabel : label s e with
    | none =>
      rw [hlabel, Option.elim_none, Option.some.injEq] at hview
      rw [Option.toList_none, List.nil_append, hview]
      exact ih hu hrun' hrest
    | some b =>
      rw [hlabel, Option.elim_some] at hview
      rw [Option.toList_some, List.singleton_append, Runs.exec, hview, Option.bind_some]
      exact ih hu hrun' hrest

/-- What every step under the condition keeps holds where a run leads. -/
theorem Shows.invariant (Inv : S → Prop)
    (hpres : ∀ s e t, Inv s → step s e = some t → C s e t → Inv t) {s t : S} {bs : List B}
    (h : Shows step C label s bs t) (hs : Inv s) : Inv t := by
  obtain ⟨es, hrun, hexec, -⟩ := h
  exact exec_invariant Inv hpres hs hrun hexec

/-- **Realisation.** When moreover every step of the other system from what is seen of a
ready state can be shown on the way to a ready state, its runs are exactly what is seen. -/
theorem Shows.exec_iff {S' : Type*} {step' : S' → B → Option S'} (view : S → S')
    (Inv Ready : S → Prop)
    (hsim : ∀ s e t, Inv s → step s e = some t → C s e t →
      Inv t ∧ (label s e).elim (some (view s)) (step' (view s)) = some (view t))
    (hshow : ∀ s b s', Inv s → Ready s → step' (view s) b = some s' →
      ∃ t, Shows step C label s [b] t ∧ Ready t)
    {s : S} (hs : Inv s) (hready : Ready s) (bs : List B) (s' : S') :
    Runs.exec step' (view s) bs = some s' ↔ ∃ t, Shows step C label s bs t ∧ view t = s' := by
  constructor
  · intro hexec
    induction bs generalizing s with
    | nil => exact ⟨s, .refl s, by simpa [Runs.exec] using hexec⟩
    | cons b bs ih =>
      obtain ⟨u, hu, hrest⟩ := Option.bind_eq_some_iff.mp hexec
      obtain ⟨t, hshown, ht⟩ := hshow s b u hs hready hu
      have hview : step' (view s) b = some (view t) := by
        simpa [Runs.exec] using hshown.exec view Inv hsim hs
      obtain rfl := Option.some.inj (hu.symm.trans hview)
      have hkept := hshown.invariant Inv (fun s e t hs h hC => (hsim s e t hs h hC).1) hs
      obtain ⟨v, hv, hlast⟩ := ih hkept ht hrest
      exact ⟨v, hshown.trans hv, hlast⟩
  · rintro ⟨t, hshown, rfl⟩
    exact hshown.exec view Inv hsim hs

end Shows

end Runs
