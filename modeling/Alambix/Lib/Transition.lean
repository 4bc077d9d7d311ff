/-
  Alambix.Lib.Transition — systems given by a partial step function.

  A system has a state, events, and `step s e`: the state after event `e`, or `none`
  where `e` cannot happen. `ok s e` says which events a run may take (a contract of the
  environment, or a choice of sub-system); it may look at the state before the event.

  - `guarded p t` is how a step is written: enabled where `p` holds, leading to `t`.
  - `Run` is a finite run with its trace, `Reach` forgets the trace.
  - `Reach.inv` / `Reach.inv_with`: what every allowed step keeps holds of every
    reachable state.
  - `Run.safe_iff`: where one step keeps `P` exactly when it meets `C`, a whole run keeps
    `P` exactly when each of its steps meets `C`.
  - `Run.length_le` / `no_infinite_run`: a measure that every allowed step lowers bounds the
    runs; some run then gets stuck (`exists_stuck`).
  - `exec` runs a list of events; what it returns is reachable (`exec_reach`), along the trace
    `traceOf` (`exec_get_run`).
-/

import Mathlib.Logic.Function.Basic

namespace Alambix.Lib.Transition

variable {σ ε : Type}

/-- Enabled where `p` holds, leading to `t`. -/
def guarded (p : Prop) [Decidable p] (t : σ) : Option σ := if p then some t else none

theorem guarded_eq_some {p : Prop} {_ : Decidable p} {t t' : σ} : guarded p t = some t' ↔ p ∧ t = t' := by
  simp [guarded]

theorem guarded_of {p : Prop} {_ : Decidable p} {t : σ} (h : p) : guarded p t = some t := by
  simp [guarded, h]

theorem guarded_map {τ : Type} {f : σ → τ} {p q : Prop} {_ : Decidable p} {_ : Decidable q} {t : σ} {u : τ}
    (h : q ↔ p) (hu : u = f t) : guarded q u = (guarded p t).map f := by
  subst hu
  by_cases hp : p
  · simp [guarded, hp, h.mpr hp]
  · simp [guarded, hp, mt h.mp hp]

variable (step : σ → ε → Option σ) (ok : σ → ε → Prop)

/-- A finite run from `s₀`, with the state before each event and the event. -/
inductive Run (s₀ : σ) : List (σ × ε) → σ → Prop
  | nil : Run s₀ [] s₀
  | snoc {tr : List (σ × ε)} {s s' : σ} {e : ε} :
      Run s₀ tr s → ok s e → step s e = some s' → Run s₀ (tr ++ [(s, e)]) s'

inductive Reach (s₀ : σ) : σ → Prop
  | refl : Reach s₀ s₀
  | step {s s' : σ} {e : ε} : Reach s₀ s → ok s e → step s e = some s' → Reach s₀ s'

/-- Every state a run with this trace and this last state goes through. -/
def visited (tr : List (σ × ε)) (s : σ) : List σ := tr.map Prod.fst ++ [s]

/-- No allowed event can happen. -/
def Stuck (s : σ) : Prop := ∀ e s', ok s e → step s e ≠ some s'

variable {step ok}

theorem Run.reach {s₀ s : σ} {tr : List (σ × ε)} (h : Run step ok s₀ tr s) : Reach step ok s₀ s := by
  induction h with
  | nil => exact .refl
  | snoc _ hok hs ih => exact .step ih hok hs

theorem Reach.run {s₀ s : σ} (h : Reach step ok s₀ s) : ∃ tr, Run step ok s₀ tr s := by
  induction h with
  | refl => exact ⟨[], .nil⟩
  | step _ hok hs ih =>
    obtain ⟨tr, ht⟩ := ih
    exact ⟨_, ht.snoc hok hs⟩

theorem Reach.trans {s₀ s t : σ} (h₁ : Reach step ok s₀ s) (h₂ : Reach step ok s t) : Reach step ok s₀ t := by
  induction h₂ with
  | refl => exact h₁
  | step _ hok hs ih => exact .step ih hok hs

theorem Run.mono {ok' : σ → ε → Prop} (hok : ∀ s e, ok s e → ok' s e) {s₀ s : σ} {tr : List (σ × ε)}
    (h : Run step ok s₀ tr s) : Run step ok' s₀ tr s := by
  induction h with
  | nil => exact .nil
  | snoc _ h hs ih => exact ih.snoc (hok _ _ h) hs

theorem Reach.mono {ok' : σ → ε → Prop} (hok : ∀ s e, ok s e → ok' s e) {s₀ s : σ}
    (h : Reach step ok s₀ s) : Reach step ok' s₀ s := by
  induction h with
  | refl => exact .refl
  | step _ h hs ih => exact .step ih (hok _ _ h) hs

/-! ## Invariants -/

theorem Reach.inv {I : σ → Prop} {s₀ s : σ} (h : Reach step ok s₀ s) (h0 : I s₀)
    (hstep : ∀ s e s', I s → ok s e → step s e = some s' → I s') : I s := by
  induction h with
  | refl => exact h0
  | step _ hok hs ih => exact hstep _ _ _ ih hok hs

/-- As `Reach.inv`, where `J` is already known of every reachable state. -/
theorem Reach.inv_with {I J : σ → Prop} {s₀ s : σ} (h : Reach step ok s₀ s)
    (hJ : ∀ s, Reach step ok s₀ s → J s) (h0 : I s₀)
    (hstep : ∀ s e s', J s → I s → ok s e → step s e = some s' → I s') : I s := by
  induction h with
  | refl => exact h0
  | step hr hok hs ih => exact hstep _ _ _ (hJ _ hr) ih hok hs

/-! ## Safety along one run -/

theorem Run.visited_snoc {tr : List (σ × ε)} {s s' : σ} {e : ε} {P : σ → Prop} :
    (∀ t ∈ visited (tr ++ [(s, e)]) s', P t) ↔ (∀ t ∈ visited tr s, P t) ∧ P s' := by
  simp only [visited, List.map_append, List.map_cons, List.map_nil, List.mem_append, List.mem_singleton]
  constructor
  · intro h; exact ⟨fun t ht => h t (Or.inl ht), h s' (Or.inr rfl)⟩
  · rintro ⟨h1, h2⟩ t (ht | rfl)
    · exact h1 t ht
    · exact h2

theorem Run.mem_visited_last (tr : List (σ × ε)) (s : σ) : s ∈ visited tr s := by
  simp [visited]

/-- Every step of a run was allowed, and leads to a state the run visits. -/
theorem Run.next_visited {s₀ s : σ} {tr : List (σ × ε)} (hr : Run step ok s₀ tr s) :
    ∀ x ∈ tr, Reach step ok s₀ x.1 ∧ ok x.1 x.2 ∧ ∃ s' ∈ visited tr s, step x.1 x.2 = some s' := by
  induction hr with
  | nil => intro x hx; cases hx
  | @snoc tr s s' e hr hok hs ih =>
    intro x hx
    rcases List.mem_append.mp hx with hx | hx
    · obtain ⟨h1, h2, t, ht, hst⟩ := ih x hx
      refine ⟨h1, h2, t, ?_, hst⟩
      simp only [visited, List.map_append, List.mem_append] at ht ⊢
      rcases ht with ht | ht
      · exact Or.inl (Or.inl ht)
      · rw [List.mem_singleton.mp ht]
        exact Or.inl (Or.inr (by simp))
    · rw [List.mem_singleton.mp hx]
      exact ⟨hr.reach, hok, s', Run.mem_visited_last _ _, hs⟩

/-- If, from a state with `P`, one step keeps `P` exactly when it meets `C`, then a run
    keeps `P` in every state it visits exactly when each of its steps meets `C`. -/
theorem Run.safe_iff {J P : σ → Prop} {C : σ → ε → Prop} {s₀ s : σ} {tr : List (σ × ε)}
    (hr : Run step ok s₀ tr s) (hJ : ∀ s, Reach step ok s₀ s → J s) (h0 : P s₀)
    (hstep : ∀ s e s', J s → P s → ok s e → step s e = some s' → (P s' ↔ C s e)) :
    (∀ t ∈ visited tr s, P t) ↔ ∀ x ∈ tr, C x.1 x.2 := by
  induction hr with
  | nil => simp [visited, h0]
  | @snoc tr s s' e hr hok hs ih =>
    rw [Run.visited_snoc]
    have hmem : (∀ x ∈ tr ++ [(s, e)], C x.1 x.2) ↔ (∀ x ∈ tr, C x.1 x.2) ∧ C s e := by
      simp only [List.mem_append, List.mem_singleton]
      constructor
      · intro h; exact ⟨fun x hx => h x (Or.inl hx), h (s, e) (Or.inr rfl)⟩
      · rintro ⟨h1, h2⟩ x (hx | rfl)
        · exact h1 x hx
        · exact h2
    rw [hmem, ih]
    refine and_congr_right fun hC => ?_
    have hP : P s := ih.mpr hC s (Run.mem_visited_last tr s)
    exact hstep s e s' (hJ s hr.reach) hP hok hs

/-- The direction of `Run.safe_iff` that only needs steps meeting `C` to keep `P`. -/
theorem Run.safe_of {J P : σ → Prop} {C : σ → ε → Prop} {s₀ s : σ} {tr : List (σ × ε)}
    (hr : Run step ok s₀ tr s) (hJ : ∀ s, Reach step ok s₀ s → J s) (hC : ∀ x ∈ tr, C x.1 x.2) (h0 : P s₀)
    (hstep : ∀ s e s', J s → P s → ok s e → C s e → step s e = some s' → P s') :
    ∀ t ∈ visited tr s, P t := by
  induction hr with
  | nil => simpa [visited] using h0
  | @snoc tr s s' e hr hok hs ih =>
    have hvis := ih fun x hx => hC x (List.mem_append_left _ hx)
    have hCe : C s e := hC (s, e) (List.mem_append_right _ (List.mem_singleton.mpr rfl))
    have hP : P s := hvis s (Run.mem_visited_last tr s)
    exact Run.visited_snoc.mpr ⟨hvis, hstep s e s' (hJ s hr.reach) hP hok hCe hs⟩

/-- What no step restores held throughout if it holds at the end. -/
theorem Run.safe_iff_last {P : σ → Prop} {s₀ s : σ} {tr : List (σ × ε)} (hr : Run step ok s₀ tr s)
    (hback : ∀ s e s', Reach step ok s₀ s → ok s e → step s e = some s' → P s' → P s) :
    (∀ t ∈ visited tr s, P t) ↔ P s := by
  refine ⟨fun h => h s (Run.mem_visited_last tr s), fun hP => ?_⟩
  induction hr with
  | nil => simpa [visited] using hP
  | snoc hr hok hs ih => exact Run.visited_snoc.mpr ⟨ih (hback _ _ _ hr.reach hok hs hP), hP⟩

/-! ## Termination -/

/-- What a measure says of runs: along a run it pays one for each step. -/
theorem Run.length_le {μ : σ → Nat} {s₀ s : σ} {tr : List (σ × ε)} (hr : Run step ok s₀ tr s)
    (hμ : ∀ s e s', Reach step ok s₀ s → ok s e → step s e = some s' → μ s' < μ s) :
    tr.length + μ s ≤ μ s₀ := by
  induction hr with
  | nil => simp
  | snoc hr hok hs ih =>
    have := hμ _ _ _ hr.reach hok hs
    simp only [List.length_append, List.length_singleton]
    omega

theorem no_infinite_run {μ : σ → Nat} {s₀ : σ}
    (hμ : ∀ s e s', Reach step ok s₀ s → ok s e → step s e = some s' → μ s' < μ s)
    (f : Nat → σ) (h0 : f 0 = s₀) : ¬ ∀ n, ∃ e, ok (f n) e ∧ step (f n) e = some (f (n + 1)) := by
  intro h
  have hrun : ∀ n, ∃ tr : List (σ × ε), tr.length = n ∧ Run step ok s₀ tr (f n) := by
    intro n
    induction n with
    | zero => exact ⟨[], rfl, h0 ▸ .nil⟩
    | succ n ih =>
      obtain ⟨tr, hl, hr⟩ := ih
      obtain ⟨e, hok, hs⟩ := h n
      exact ⟨_, by simp [hl], hr.snoc hok hs⟩
  obtain ⟨tr, hl, hr⟩ := hrun (μ s₀ + 1)
  have := hr.length_le hμ
  omega

/-- A system that every allowed step brings nearer its end gets stuck. -/
theorem exists_stuck (μ : σ → Nat) (s₀ : σ)
    (hμ : ∀ s e s', Reach step ok s₀ s → ok s e → step s e = some s' → μ s' < μ s) :
    ∃ s, Reach step ok s₀ s ∧ Stuck step ok s := by
  induction hn : μ s₀ using Nat.strongRecOn generalizing s₀ with
  | ind n ih =>
    by_cases hstuck : Stuck step ok s₀
    · exact ⟨s₀, .refl, hstuck⟩
    obtain ⟨e, s', hok, hs⟩ : ∃ e s', ok s₀ e ∧ step s₀ e = some s' := by
      by_contra hno
      exact hstuck fun e s' hok hs => hno ⟨e, s', hok, hs⟩
    have hto : Reach step ok s₀ s' := Reach.refl.step hok hs
    obtain ⟨t, ht, hst⟩ := ih (μ s') (hn ▸ hμ s₀ e s' .refl hok hs) s' (fun s e t hr => hμ s e t (hto.trans hr)) rfl
    exact ⟨t, hto.trans ht, hst⟩

/-- A system that never gets stuck goes on for as long as one likes. -/
theorem exists_run_length {s₀ : σ} (h : ∀ s, Reach step ok s₀ s → ¬ Stuck step ok s) (n : Nat) :
    ∃ tr s, Run step ok s₀ tr s ∧ tr.length = n := by
  induction n with
  | zero => exact ⟨[], s₀, .nil, rfl⟩
  | succ n ih =>
    obtain ⟨tr, s, hr, hn⟩ := ih
    obtain ⟨e, s', hok, hs⟩ : ∃ e s', ok s e ∧ step s e = some s' := by
      by_contra hno
      exact h s hr.reach fun e s' hok hs => hno ⟨e, s', hok, hs⟩
    exact ⟨tr ++ [(s, e)], s', hr.snoc hok hs, by simp [hn]⟩

/-! ## Executing a list of events -/

variable (step ok) in
def exec [∀ s e, Decidable (ok s e)] (s : σ) : List ε → Option σ
  | [] => some s
  | e :: es => if ok s e then (step s e).bind (exec · es) else none

/-- The trace of a list of events. -/
def traceOf (step : σ → ε → Option σ) (s : σ) : List ε → List (σ × ε)
  | [] => []
  | e :: es => (s, e) :: (step s e).elim [] fun s' => traceOf step s' es

theorem exec_traceOf [∀ s e, Decidable (ok s e)] {s₀ : σ} :
    ∀ {es : List ε} {tr : List (σ × ε)} {s t : σ}, Run step ok s₀ tr s → exec step ok s es = some t →
      Run step ok s₀ (tr ++ traceOf step s es) t := by
  intro es
  induction es with
  | nil =>
    intro tr s t hr h
    cases h
    simpa [traceOf] using hr
  | cons e es ih =>
    intro tr s t hr h
    simp only [exec] at h
    split at h
    · rename_i hok
      obtain ⟨s', hs, ht⟩ := Option.bind_eq_some_iff.mp h
      simpa [traceOf, hs] using ih (hr.snoc hok hs) ht
    · cases h

theorem exec_reach [∀ s e, Decidable (ok s e)] {s₀ t : σ} {es : List ε}
    (h : exec step ok s₀ es = some t) : Reach step ok s₀ t :=
  (exec_traceOf .nil h).reach

theorem exec_get_reach [∀ s e, Decidable (ok s e)] {s₀ : σ} (es : List ε)
    (h : (exec step ok s₀ es).isSome = true) : Reach step ok s₀ ((exec step ok s₀ es).get h) :=
  exec_reach (Option.some_get h).symm

theorem exec_get_run [∀ s e, Decidable (ok s e)] {s₀ : σ} (es : List ε) (h : (exec step ok s₀ es).isSome = true) :
    Run step ok s₀ (traceOf step s₀ es) ((exec step ok s₀ es).get h) :=
  exec_traceOf .nil (Option.some_get h).symm

end Alambix.Lib.Transition
