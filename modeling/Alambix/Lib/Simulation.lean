/-
  Alambix.Lib.Simulation — observable traces of a system, and forward simulation.

  `obs e` is what an observer sees of an event, `none` for an internal one. `Traces` are the
  finite sequences of what is seen along the runs. A system answers an observation
  (`Answers`) with a run of its own along which exactly that is seen.

  - `traces_subset`: if a relation holds between the first states, and each step of one
    system is answered by the other so that the relation holds again, every trace of the
    first is a trace of the second; if each answers the other, they have the same traces
    (`traces_eq`).
  - `mem_traces_iff`: the traces of a system whose every event is seen.
  - `Maps`: the case where the relation is a function of the first system's state, a
    refinement mapping. `Maps.traces_eq` says when its converse holds too.
-/

import Alambix.Lib.Transition
import Mathlib.Data.Set.Basic

namespace Alambix.Lib.Transition

variable {σ ε τ δ ο : Type}

/-- What is seen along a run. -/
def observed (obs : ε → Option ο) (tr : List (σ × ε)) : List ο := tr.filterMap fun x => obs x.2

def Traces (step : σ → ε → Option σ) (ok : σ → ε → Prop) (obs : ε → Option ο) (s₀ : σ) : Set (List ο) :=
  {l | ∃ tr s, Run step ok s₀ tr s ∧ observed obs tr = l}

/-- A run from `s` to `s'` along which `o` is seen, and nothing else. -/
def Answers (step : σ → ε → Option σ) (ok : σ → ε → Prop) (obs : ε → Option ο) (s : σ) (o : Option ο) (s' : σ) : Prop :=
  ∃ tr, Run step ok s tr s' ∧ observed obs tr = o.toList

variable {step : σ → ε → Option σ} {ok : σ → ε → Prop} {obs : ε → Option ο}

theorem observed_snoc (tr : List (σ × ε)) (s : σ) (e : ε) :
    observed obs (tr ++ [(s, e)]) = observed obs tr ++ (obs e).toList := by
  cases h : obs e <;> simp [observed, h]

theorem Run.append {s₀ s t : σ} {tr tr' : List (σ × ε)} (h₁ : Run step ok s₀ tr s) (h₂ : Run step ok s tr' t) :
    Run step ok s₀ (tr ++ tr') t := by
  induction h₂ with
  | nil => simpa using h₁
  | snoc _ hok hs ih =>
    rw [← List.append_assoc]
    exact ih.snoc hok hs

theorem Answers.refl (s : σ) : Answers step ok obs s none s := ⟨[], .nil, rfl⟩

theorem Answers.of_step {s s' : σ} {e : ε} (hok : ok s e) (hs : step s e = some s') :
    Answers step ok obs s (obs e) s' := by
  refine ⟨[] ++ [(s, e)], Run.nil.snoc hok hs, ?_⟩
  cases h : obs e <;> simp [observed, h]

/-- An internal step before the answer. -/
theorem Answers.silent {s s' t : σ} {e : ε} {o : Option ο} (hok : ok s e) (hs : step s e = some s')
    (he : obs e = none) (h : Answers step ok obs s' o t) : Answers step ok obs s o t := by
  obtain ⟨tr, hr, htr⟩ := h
  refine ⟨([] ++ [(s, e)]) ++ tr, (Run.nil.snoc hok hs).append hr, ?_⟩
  rw [← htr]
  simp [observed, he]

/-- Internal steps after the answer. -/
theorem Answers.before {s s' t : σ} {o : Option ο} (h₁ : Answers step ok obs s o s')
    (h₂ : Answers step ok obs s' none t) : Answers step ok obs s o t := by
  obtain ⟨tr, hr, htr⟩ := h₁
  obtain ⟨tr', hr', htr'⟩ := h₂
  refine ⟨tr ++ tr', hr.append hr', ?_⟩
  rw [← htr, observed, List.filterMap_append]
  have hnone : tr'.filterMap (fun x => obs x.2) = [] := htr'
  rw [hnone, List.append_nil]
  rfl

/-- The step that is seen, with internal steps after it. -/
theorem Answers.shown {s s' t : σ} {e : ε} {o : Option ο} (hok : ok s e) (hs : step s e = some s') (he : obs e = o)
    (h : Answers step ok obs s' none t) : Answers step ok obs s o t := by
  subst he
  exact (Answers.of_step hok hs).before h

/-- Where every event is seen, one event is one step. -/
theorem Answers.step_of_seen {stepA : τ → ο → Option τ} {okA : τ → ο → Prop} {t t' : τ} {o : ο}
    (h : Answers stepA okA some t (some o) t') : stepA t o = some t' := by
  obtain ⟨tr, hr, htr⟩ := h
  cases hr with
  | nil => cases htr
  | snoc hr _ hs =>
    cases hr with
    | nil =>
      obtain ⟨rfl⟩ := htr
      exact hs
    | snoc =>
      have := congrArg List.length htr
      simp [observed] at this

theorem Answers.reach {s s' : σ} {o : Option ο} (h : Answers step ok obs s o s') : Reach step ok s s' := by
  obtain ⟨tr, hr, -⟩ := h
  exact hr.reach

/-- What is seen of a list of events that can be executed. -/
theorem exec_traces [∀ s e, Decidable (ok s e)] {s : σ} (es : List ε) (h : (exec step ok s es).isSome = true) :
    es.filterMap obs ∈ Traces step ok obs s := by
  induction es generalizing s with
  | nil => exact ⟨[], s, .nil, rfl⟩
  | cons e es ih =>
    simp only [exec] at h
    split at h
    · rename_i hok
      obtain ⟨t, ht⟩ := Option.isSome_iff_exists.mp h
      obtain ⟨s', hs, hrest⟩ := Option.bind_eq_some_iff.mp ht
      obtain ⟨tr, u, hr, htr⟩ := ih (by rw [hrest]; rfl)
      refine ⟨([] ++ [(s, e)]) ++ tr, u, (Run.nil.snoc hok hs).append hr, ?_⟩
      have hcons : (e :: es).filterMap obs = (obs e).toList ++ es.filterMap obs := by
        cases he : obs e <;> simp [he]
      rw [hcons, ← htr]
      cases he : obs e <;> simp [observed, he]
    · cases h

/-- A contract on what is seen may as well be asked of the trace. -/
theorem mem_traces_and {Q : ο → Prop} {s₀ : σ} {l : List ο} :
    l ∈ Traces step (fun s e => ok s e ∧ ∀ o ∈ obs e, Q o) obs s₀ ↔ l ∈ Traces step ok obs s₀ ∧ ∀ o ∈ l, Q o := by
  constructor
  · rintro ⟨tr, s, hr, rfl⟩
    refine ⟨⟨tr, s, hr.mono fun _ _ h => h.1, rfl⟩, fun o ho => ?_⟩
    obtain ⟨x, hx, hobs⟩ := List.mem_filterMap.mp ho
    exact (hr.next_visited x hx).2.1.2 o hobs
  · rintro ⟨⟨tr, s, hr, rfl⟩, hQ⟩
    refine ⟨tr, s, ?_, rfl⟩
    induction hr with
    | nil => exact .nil
    | @snoc tr s s' e hr hok hs ih =>
      rw [observed_snoc] at hQ
      refine (ih fun o ho => hQ o (List.mem_append_left _ ho)).snoc ⟨hok, fun o ho => ?_⟩ hs
      exact hQ o (List.mem_append_right _ (Option.mem_toList.mpr ho))

theorem foldlM_snoc {s s' : σ} {l : List ε} {e : ε} :
    (l ++ [e]).foldlM step s = some s' ↔ ∃ t, l.foldlM step s = some t ∧ step t e = some s' := by
  simp [List.foldlM_append, Option.bind_eq_some_iff]

/-- Where every event is seen and none is excluded, a trace is a list of events that can
    happen one after the other. -/
theorem mem_traces_iff {stepA : τ → ο → Option τ} {t₀ : τ} {l : List ο} :
    l ∈ Traces stepA (fun _ _ => True) some t₀ ↔ (l.foldlM stepA t₀).isSome = true := by
  constructor
  · rintro ⟨tr, t, hr, rfl⟩
    have hfold : (observed some tr).foldlM stepA t₀ = some t := by
      induction hr with
      | nil => rfl
      | snoc _ _ hs ih =>
        rw [observed_snoc]
        exact foldlM_snoc.mpr ⟨_, ih, hs⟩
    rw [hfold]
    rfl
  · induction l generalizing t₀ with
    | nil => exact fun _ => ⟨[], t₀, .nil, rfl⟩
    | cons o l ih =>
      intro h
      obtain ⟨t, ht⟩ := Option.isSome_iff_exists.mp h
      rw [List.foldlM_cons] at ht
      obtain ⟨t₁, hs, hrest⟩ := Option.bind_eq_some_iff.mp ht
      obtain ⟨tr, u, hr, htr⟩ := ih (by rw [hrest]; rfl)
      exact ⟨([] ++ [(t₀, o)]) ++ tr, u, (Run.nil.snoc trivial hs).append hr, by rw [← htr]; rfl⟩

/-! ## Simulation -/

variable {step' : τ → δ → Option τ} {ok' : τ → δ → Prop} {obs' : δ → Option ο}

/-- A run of a system whose steps are answered is answered, step by step. -/
theorem Run.simulated {R : σ → τ → Prop} {s s' : σ} {t : τ} {tr : List (σ × ε)} (hr : Run step ok s tr s') (hR : R s t)
    (hsim : ∀ s t e s', R s t → ok s e → step s e = some s' →
      ∃ t', Answers step' ok' obs' t (obs e) t' ∧ R s' t') :
    ∃ tr' t', Run step' ok' t tr' t' ∧ observed obs' tr' = observed obs tr ∧ R s' t' := by
  induction hr with
  | nil => exact ⟨[], t, .nil, rfl, hR⟩
  | @snoc tr s s' e _ hok hs ih =>
    obtain ⟨tr', t', hr', hobs, hR'⟩ := ih
    obtain ⟨t'', ⟨tr'', hr'', hobs''⟩, hR''⟩ := hsim s t' e s' hR' hok hs
    refine ⟨tr' ++ tr'', t'', hr'.append hr'', ?_, hR''⟩
    rw [observed_snoc, ← hobs, ← hobs'']
    simp [observed]

/-- Forward simulation. -/
theorem traces_subset {R : σ → τ → Prop} {s₀ : σ} {t₀ : τ} (h0 : R s₀ t₀)
    (hsim : ∀ s t e s', R s t → ok s e → step s e = some s' →
      ∃ t', Answers step' ok' obs' t (obs e) t' ∧ R s' t') :
    Traces step ok obs s₀ ⊆ Traces step' ok' obs' t₀ := by
  rintro l ⟨tr, s, hr, rfl⟩
  obtain ⟨tr', t, hr', hobs, -⟩ := hr.simulated h0 hsim
  exact ⟨tr', t, hr', hobs⟩

/-- A refinement mapping: each step from a reachable state is answered where it leads. -/
def Maps (step : σ → ε → Option σ) (ok : σ → ε → Prop) (obs : ε → Option ο) (s₀ : σ) (step' : τ → δ → Option τ)
    (ok' : τ → δ → Prop) (obs' : δ → Option ο) (abs : σ → τ) : Prop :=
  ∀ s e s', Reach step ok s₀ s → ok s e → step s e = some s' →
    Answers step' ok' obs' (abs s) (obs e) (abs s')

theorem Maps.run {abs : σ → τ} {s₀ s s' : σ} {tr : List (σ × ε)}
    (hmap : Maps step ok obs s₀ step' ok' obs' abs) (hs : Reach step ok s₀ s) (hr : Run step ok s tr s') :
    ∃ tr', Run step' ok' (abs s) tr' (abs s') ∧ observed obs' tr' = observed obs tr := by
  obtain ⟨tr', t, hr', hobs, rfl, -⟩ :=
    hr.simulated (R := fun s t => t = abs s ∧ Reach step ok s₀ s) ⟨rfl, hs⟩ <| by
      rintro s t e s' ⟨rfl, hreach⟩ hok hstep
      exact ⟨abs s', hmap s e s' hreach hok hstep, rfl, hreach.step hok hstep⟩
  exact ⟨tr', hr', hobs⟩

theorem Maps.answers {abs : σ → τ} {s₀ s s' : σ} {o : Option ο} (hmap : Maps step ok obs s₀ step' ok' obs' abs)
    (hs : Reach step ok s₀ s) (h : Answers step ok obs s o s') : Answers step' ok' obs' (abs s) o (abs s') := by
  obtain ⟨tr, hr, htr⟩ := h
  obtain ⟨tr', hr', hobs⟩ := hmap.run hs hr
  exact ⟨tr', hr', hobs.trans htr⟩

theorem Maps.traces_subset {abs : σ → τ} {s₀ : σ} (hmap : Maps step ok obs s₀ step' ok' obs' abs) :
    Traces step ok obs s₀ ⊆ Traces step' ok' obs' (abs s₀) := by
  rintro l ⟨tr, s, hr, rfl⟩
  obtain ⟨tr', hr', hobs⟩ := hmap.run .refl hr
  exact ⟨tr', abs s, hr', hobs⟩

/-- The converse of a refinement mapping. If every event of the abstract system is seen, it
    is enough that from the states with `P` the concrete one can show the events the abstract
    one takes, and come to a state with `P` again: where that is on the abstract side the
    mapping says. -/
theorem Maps.traces_eq {stepA : τ → ο → Option τ} {abs : σ → τ} {P : σ → Prop} {s₀ : σ}
    (hmap : Maps step ok obs s₀ stepA (fun _ _ => True) some abs) (h0 : P s₀)
    (hback : ∀ s o t, Reach step ok s₀ s → P s → stepA (abs s) o = some t →
      ∃ s', Answers step ok obs s (some o) s' ∧ P s') :
    Traces step ok obs s₀ = Traces stepA (fun _ _ => True) some (abs s₀) := by
  apply Set.Subset.antisymm hmap.traces_subset
  apply Transition.traces_subset (R := fun t s => abs s = t ∧ Reach step ok s₀ s ∧ P s) ⟨rfl, .refl, h0⟩
  rintro t s o t' ⟨rfl, hs, hP⟩ - hstep
  obtain ⟨s', hans, hP'⟩ := hback s o t' hs hP hstep
  refine ⟨s', hans, ?_, hs.trans hans.reach, hP'⟩
  have habs := (hmap.answers hs hans).step_of_seen
  rw [hstep] at habs
  exact (Option.some.inj habs).symm

/-- Two systems that answer each other's steps have the same traces. -/
theorem traces_eq {R : σ → τ → Prop} {s₀ : σ} {t₀ : τ} (h0 : R s₀ t₀)
    (hsim : ∀ s t e s', R s t → ok s e → step s e = some s' →
      ∃ t', Answers step' ok' obs' t (obs e) t' ∧ R s' t')
    (hsim' : ∀ s t e t', R s t → ok' t e → step' t e = some t' →
      ∃ s', Answers step ok obs s (obs' e) s' ∧ R s' t') :
    Traces step ok obs s₀ = Traces step' ok' obs' t₀ := by
  apply Set.Subset.antisymm
  · exact traces_subset h0 hsim
  · apply traces_subset (R := fun t s => R s t) h0
    intro t s e t' h hok hs
    exact hsim' s t e t' h hok hs

end Alambix.Lib.Transition
