/-
  Alambix.Outcome — how a round ends, whatever alambix_has_ordered_drink answers.

  The bartender's loop asks alambix_has_ordered_drink after each drink. One 1 too many and
  it waits for a message that nobody will send; one 0 too many and it leaves drinks in the
  queue. `Doomed` says that one of the two has happened; no event undoes it
  (`step_doomed`), and only a wrong answer brings it about, once there is a drink to order
  (`doomed_iff`).

  Proved of every run of a round that cannot go on: everybody has returned with the whole
  order started exactly when something was ordered and every answer was exact
  (`ends_well_iff`).
-/

import Alambix.Progress
import Alambix.Rounds

namespace Alambix

open Lib.Mqueue Lib.Transition

variable {Drink : Type}

/-- An event of the round in which no call fails; alambix_has_ordered_drink answers anything. -/
def Succeeds (s : St Drink) (e : Ev Drink) : Prop := e.inRound = true ∧ e.succeeds = true ∧ TakesOrder s e

instance [DecidableEq Drink] (s : St Drink) (e : Ev Drink) : Decidable (Succeeds s e) :=
  inferInstanceAs (Decidable (_ ∧ _ ∧ _))

/-- The bartender waits with nothing left to receive, or has left its loop too early. -/
structure Doomed (s : St Drink) : Prop where
  took : s.waiter.tookOrder = true
  wrong : (s.bartender = .mqReceive ∧ s.taken.length ≤ s.received.length) ∨
    (s.bartender.leftLoop = true ∧ s.received.length < s.taken.length)

theorem Doomed.not_well {s : St Drink} (hl : LineInv s) (hd : Doomed s) : ¬ (AllReturned s ∧ s.started = s.taken) := by
  rintro ⟨⟨-, -, hb⟩, hst⟩
  rcases hd.wrong with ⟨hpc, -⟩ | ⟨-, hlt⟩
  · rw [hb] at hpc; cases hpc
  · rw [hl.started, hst, List.length_append] at hlt
    omega

theorem doomed_congr {s s' : St Drink} (h : SameLine s s') : Doomed s' ↔ Doomed s := by
  obtain ⟨⟨h1, h2, -, -⟩, ⟨-, h3, -, -⟩, ⟨h4, -⟩, -⟩ := h
  constructor
  · rintro ⟨ht, hw⟩
    exact ⟨h1 ▸ ht, by rwa [h2, h3, h4] at hw⟩
  · rintro ⟨ht, hw⟩
    exact ⟨h1 ▸ ht, by rwa [h2, h3, h4]⟩

variable [DecidableEq Drink]

/-- Nothing is left in the queue for a bartender that waits in vain. -/
theorem bartender_doomed {s s' : St Drink} {e : BartenderEv Drink} (hl : LineInv s) (hd : Doomed s)
    (hk : Succeeds s (.bartender e)) (h : bartenderThreadFct s e = some s') : Doomed s' := by
  obtain ⟨htook, hwrong⟩ := hd
  cases e with
  | mqReceive d =>
    obtain ⟨⟨hpc, -, hrcv⟩, rfl⟩ := guarded_eq_some.mp h
    rcases hwrong with ⟨-, hle⟩ | ⟨hleft, -⟩
    · rw [hl.taken_eq, hrcv.msgs] at hle
      simp only [List.length_append, List.length_cons] at hle
      omega
    · rw [hpc] at hleft; cases hleft
  | mqReceiveFail | timerSettimeFail => cases hk.2.1
  | provideOrder =>
    obtain ⟨hpc, rfl⟩ := guarded_eq_some.mp h
    rw [hpc] at hwrong
    exact ⟨htook, .inr ⟨rfl, (hwrong.resolve_left fun hw => by cases hw.1).2⟩⟩
  | semPost =>
    obtain ⟨hpc, rfl⟩ := guarded_eq_some.mp h
    rw [hpc] at hwrong
    exact ⟨htook, .inr ⟨rfl, (hwrong.resolve_left fun hw => by cases hw.1).2⟩⟩
  | _ =>
    -- not where a doomed bartender is
    obtain ⟨hpc, rfl⟩ := guarded_eq_some.mp h
    simp_all [BartenderPc.leftLoop]

theorem waiter_doomed {s s' : St Drink} {e : WaiterEv Drink} (hd : Doomed s)
    (h : waiterThreadFct s e = some s') : Doomed s' := by
  obtain ⟨htook, hwrong⟩ := hd
  cases e with
  | exit d =>
    obtain ⟨-, rfl⟩ := guarded_eq_some.mp h
    exact ⟨htook, hwrong⟩
  | semWaitFirst | semWaitSecond =>
    obtain ⟨⟨hpc, -⟩, rfl⟩ := guarded_eq_some.mp h
    rw [hpc] at htook; cases htook
  | takeOrder ds =>
    obtain ⟨hpc, rfl⟩ := guarded_eq_some.mp h
    rw [hpc] at htook; cases htook
  | _ =>
    obtain ⟨-, rfl⟩ := guarded_eq_some.mp h
    exact ⟨rfl, hwrong⟩

theorem step_doomed {s s' : St Drink} {e : Ev Drink} (hl : LineInv s) (hd : Doomed s) (hk : Succeeds s e)
    (h : step s e = some s') : Doomed s' := by
  obtain ⟨-, h⟩ := step_eq_some.mp h
  cases e with
  | main e => cases hk.1
  | client c e => exact (doomed_congr (client_line h)).mpr hd
  | waiter e => exact waiter_doomed hd h
  | bartender e => exact bartender_doomed hl hd hk h
  | timer e => exact (doomed_congr (timer_line h)).mpr hd

/-! ## Only a wrong answer dooms a round -/

theorem waiter_not_doomed {s s' : St Drink} {e : WaiterEv Drink} (hd : DeskInv s) (hl : LineInv s) (hh : HandOverInv s)
    (hne : 1 ≤ (s.wanted .client0).length + (s.wanted .client1).length) (hn : ¬ Doomed s)
    (hk : Succeeds s (.waiter e)) (h : waiterThreadFct s e = some s') : ¬ Doomed s' := by
  cases e with
  | takeOrder ds =>
    obtain ⟨hpc, rfl⟩ := guarded_eq_some.mp h
    obtain rfl : ds = s.order := hk.2.2 ds rfl
    obtain ⟨-, -, -, hrec, -⟩ := hl.empty_before (by rw [hpc]; rfl)
    have hrcv := hh.early (by rw [hpc]; rfl)
    have hlen := hd.order_length (by rw [hpc]; rfl)
    rintro ⟨-, ⟨-, hle⟩ | ⟨hleft, -⟩⟩
    · simp only [hrec, List.length_nil] at hle
      omega
    · cases hb : s.bartender <;> simp [hb, BartenderPc.leftLoop, BartenderPc.receiving] at hleft hrcv
  | semWaitFirst | semWaitSecond =>
    obtain ⟨-, rfl⟩ := guarded_eq_some.mp h
    rintro ⟨htook, -⟩
    cases htook
  | exit d =>
    obtain ⟨-, rfl⟩ := guarded_eq_some.mp h
    exact fun hd => hn ⟨hd.took, hd.wrong⟩
  | getOrderedDrink | getNull | mqSend | semWaitProvide =>
    obtain ⟨⟨hpc, -⟩, rfl⟩ := guarded_eq_some.mp h
    exact fun hd => hn ⟨by rw [hpc]; rfl, hd.wrong⟩
  | _ =>
    obtain ⟨hpc, rfl⟩ := guarded_eq_some.mp h
    exact fun hd => hn ⟨by rw [hpc]; rfl, hd.wrong⟩

theorem bartender_not_doomed {s s' : St Drink} {e : BartenderEv Drink} (hn : ¬ Doomed s)
    (he : (Ev.bartender e : Ev Drink).answer = none) (h : bartenderThreadFct s e = some s') : ¬ Doomed s' := by
  rintro ⟨htook, hwrong⟩
  cases e with
  | hasOrderedDrink more => cases he
  | mqReceive d =>
    obtain ⟨-, rfl⟩ := guarded_eq_some.mp h
    simp [BartenderPc.leftLoop] at hwrong
  | exit | timerSettimeFail =>
    obtain ⟨-, rfl⟩ := guarded_eq_some.mp h
    exact hn ⟨htook, hwrong⟩
  | provideOrder | semPost =>
    obtain ⟨hpc, rfl⟩ := guarded_eq_some.mp h
    exact hn ⟨htook, .inr ⟨by rw [hpc]; rfl, (hwrong.resolve_left fun hw => by cases hw.1).2⟩⟩
  | _ =>
    obtain ⟨-, rfl⟩ := guarded_eq_some.mp h
    simp [BartenderPc.leftLoop] at hwrong

theorem answer_doomed_iff {s s' : St Drink} {more : Bool} (hh : HandOverInv s)
    (h : bartenderThreadFct s (.hasOrderedDrink more) = some s') :
    ¬ Doomed s' ↔ AnswersExactly s (.bartender (.hasOrderedDrink more)) := by
  obtain ⟨hpc, rfl⟩ := guarded_eq_some.mp h
  have htook : s.waiter.tookOrder = true := by
    by_contra hw
    have := hh.early (by simpa using hw)
    rw [hpc] at this; cases this
  have hexact : AnswersExactly s (.bartender (.hasOrderedDrink more)) ↔
      (more = true ↔ s.received.length < s.taken.length) := by
    simp [AnswersExactly, Ev.answer]
  rw [hexact]
  cases more with
  | true =>
    constructor
    · intro hn
      have hlt : ¬ s.taken.length ≤ s.received.length := fun hle => hn ⟨htook, .inl ⟨rfl, hle⟩⟩
      simpa using hlt
    · rintro hlt ⟨-, hwrong⟩
      simp [BartenderPc.leftLoop] at hwrong hlt
      omega
  | false =>
    constructor
    · intro hn
      have hlt : ¬ s.received.length < s.taken.length := fun hlt => hn ⟨htook, .inr ⟨rfl, hlt⟩⟩
      simpa using hlt
    · rintro hle ⟨-, hwrong⟩
      simp [BartenderPc.leftLoop] at hwrong hle
      omega

theorem doomed_iff {s s' : St Drink} {e : Ev Drink} (hd : DeskInv s) (hl : LineInv s) (hh : HandOverInv s)
    (hne : 1 ≤ (s.wanted .client0).length + (s.wanted .client1).length) (hn : ¬ Doomed s) (hk : Succeeds s e)
    (h : step s e = some s') : ¬ Doomed s' ↔ AnswersExactly s e := by
  obtain ⟨-, h⟩ := step_eq_some.mp h
  have hother : e.answer = none → ¬ Doomed s' → (¬ Doomed s' ↔ AnswersExactly s e) :=
    fun he hn' => ⟨fun _ => answersExactly_of he, fun _ => hn'⟩
  cases e with
  | main e => cases hk.1
  | client c e => exact hother rfl (mt (doomed_congr (client_line h)).mp hn)
  | waiter e => exact hother rfl (waiter_not_doomed hd hl hh hne hn hk h)
  | timer e => exact hother rfl (mt (doomed_congr (timer_line h)).mp hn)
  | bartender e =>
    have h : bartenderThreadFct s e = some s' := h
    cases e with
    | hasOrderedDrink more => exact answer_doomed_iff hh h
    | _ => exact hother rfl (bartender_not_doomed hn rfl h)

/-! ## Where nothing is ordered -/

/-- The bartender waits for its first message. -/
structure Idle (s : St Drink) : Prop where
  waits : s.bartender = .mqReceive
  nothing : s.taken = []

theorem step_idle {s s' : St Drink} {e : Ev Drink} (hd : DeskInv s) (hl : LineInv s)
    (hne : (s.wanted .client0).length + (s.wanted .client1).length = 0) (hi : Idle s) (hk : Succeeds s e)
    (h : step s e = some s') : Idle s' := by
  obtain ⟨hb, ht⟩ := hi
  obtain ⟨-, h⟩ := step_eq_some.mp h
  cases e with
  | main e => cases hk.1
  | client c e =>
    rw [client_touches h]
    exact ⟨hb, ht⟩
  | timer e =>
    rw [timer_touches h]
    exact ⟨hb, ht⟩
  | waiter e =>
    have h : waiterThreadFct s e = some s' := h
    cases e with
    | takeOrder ds =>
      obtain ⟨hpc, rfl⟩ := guarded_eq_some.mp h
      obtain rfl : ds = s.order := hk.2.2 ds rfl
      have hlen := hd.order_length (by rw [hpc]; rfl)
      exact ⟨hb, List.eq_nil_of_length_eq_zero (hlen.trans hne)⟩
    | _ =>
      obtain ⟨-, rfl⟩ := guarded_eq_some.mp h
      exact ⟨hb, ht⟩
  | bartender e =>
    have h : bartenderThreadFct s e = some s' := h
    cases e with
    | mqReceive d =>
      obtain ⟨⟨-, -, hrcv⟩, -⟩ := guarded_eq_some.mp h
      have := hl.taken_eq
      rw [ht, hrcv.msgs] at this
      simp at this
    | mqReceiveFail => cases hk.2.1
    | stillStart d =>
      obtain ⟨⟨hpc, -⟩, -⟩ := guarded_eq_some.mp h
      rw [hb] at hpc; cases hpc
    | _ =>
      obtain ⟨hpc, -⟩ := guarded_eq_some.mp h
      rw [hb] at hpc; cases hpc

/-! ## One round -/

theorem succeeds_invs {s₀ s : St Drink} (h0 : Ready s₀) {wanted : Client → List Drink}
    (h : Reach step Succeeds (roundOf s₀ wanted) s) :
    DeskInv s ∧ (LineInv s ∧ HandOverInv s) ∧ s.wanted = wanted :=
  ⟨round_desk (fun _ _ h => h.1) h0.semOrderDrink h0.orderMutex h, round_line (fun _ _ h => h.1) h0 h,
    round_wanted (fun _ _ h => h.1) h⟩

theorem idle_of_empty {s₀ s : St Drink} (h0 : Ready s₀) {wanted : Client → List Drink}
    (hne : (wanted .client0).length + (wanted .client1).length = 0)
    (h : Reach step Succeeds (roundOf s₀ wanted) s) : Idle s :=
  h.inv_with (fun _ hr => succeeds_invs h0 hr) ⟨rfl, rfl⟩
    fun _ _ _ hJ hi hk hs => step_idle hJ.1 hJ.2.1.1 (by rw [hJ.2.2]; exact hne) hi hk hs

/-- Along a run of a round with something to order, no state is doomed exactly when every
    answer is exact; and a doomed state stays so. -/
theorem run_doomed_iff {s₀ s : St Drink} (h0 : Ready s₀) {wanted : Client → List Drink}
    (hne : 1 ≤ (wanted .client0).length + (wanted .client1).length) {tr : List (St Drink × Ev Drink)}
    (hr : Run step Succeeds (roundOf s₀ wanted) tr s) : ¬ Doomed s ↔ ∀ x ∈ tr, AnswersExactly x.1 x.2 := by
  have hlast := hr.safe_iff_last (P := fun s => ¬ Doomed s) fun s e s' hs hk hstep hn hd =>
    hn (step_doomed (succeeds_invs h0 hs).2.1.1 hd hk hstep)
  rw [← hlast]
  exact hr.safe_iff (P := fun s => ¬ Doomed s) (fun s hs => succeeds_invs h0 hs)
    (fun hd => by cases hd.took) fun s e s' hJ hn hk hs =>
      doomed_iff hJ.1 hJ.2.1.1 hJ.2.1.2 (by rw [hJ.2.2]; exact hne) hn hk hs

theorem exact_run {s₀ s : St Drink} {tr : List (St Drink × Ev Drink)} (hr : Run step Succeeds s₀ tr s)
    (ha : ∀ x ∈ tr, AnswersExactly x.1 x.2) : Reach step AsDocumented s₀ s := by
  induction hr with
  | nil => exact .refl
  | @snoc tr s s' e _ hk hs ih =>
    have hprefix := ih fun x hx => ha x (List.mem_append_left _ hx)
    have hlast := ha (s, e) (List.mem_append_right _ (List.mem_singleton.mpr rfl))
    exact hprefix.step ⟨hk.1, hk.2.1, hlast, hk.2.2⟩ hs

/-- In a run of a round whose calls succeed, and that cannot go on: all four threads have
    returned with the whole order started exactly when something was ordered and
    alambix_has_ordered_drink has answered exactly each time. -/
theorem ends_well_iff {s₀ s : St Drink} (h0 : Ready s₀) (hst : StillInv s₀) (wanted : Client → List Drink)
    {tr : List (St Drink × Ev Drink)} (hr : Run step Succeeds (roundOf s₀ wanted) tr s)
    (hstuck : Stuck step Succeeds s) :
    (AllReturned s ∧ s.started = s.taken) ↔
      1 ≤ (wanted .client0).length + (wanted .client1).length ∧ ∀ x ∈ tr, AnswersExactly x.1 x.2 := by
  obtain ⟨-, ⟨hl, -⟩, -⟩ := succeeds_invs h0 hr.reach
  constructor
  · intro hwell
    have hne : 1 ≤ (wanted .client0).length + (wanted .client1).length := by
      by_contra hne
      have hidle := (idle_of_empty h0 (by omega) hr.reach).waits
      rw [hwell.1.2.2] at hidle; cases hidle
    exact ⟨hne, (run_doomed_iff h0 hne hr).mp fun hd => hd.not_well hl hwell⟩
  · rintro ⟨hne, ha⟩
    have hreach := exact_run hr ha
    have hret := ((round_ends h0 hst wanted hne).2.2.2 s hreach fun e s' hk =>
      hstuck e s' ⟨hk.1, hk.2.1, hk.2.2.2⟩).1
    have hc := round_complete (fun _ _ h => h.1) (fun _ _ h => h.2.2.1) h0 hreach
    exact ⟨hret, (started_whole_order hl hc (by rw [hret.2.2]; rfl)).2⟩

/-- One drink each; after the first one the bartender is told that there is no other. -/
def toldTooEarly : List (Ev Nat) :=
  orderPlaced ++
    ([.waiter (.takeOrder [2, 1]), .waiter (.getOrderedDrink 2), .waiter (.mqSend 2), .bartender (.mqReceive 2),
      .bartender (.stillStart 2), .bartender .timerSettime, .bartender (.hasOrderedDrink false),
      .bartender .provideOrder, .bartender .semPost, .waiter (.getOrderedDrink 1), .waiter (.mqSend 1),
      .waiter .getNull, .waiter .semWaitProvide, .waiter .serveOrder, .timer .expire,
      .timer .stillStop] : List (Ev Nat))

theorem served_without_a_drink :
    ∃ tr s, Run step Succeeds (roundOf opened oneEach) tr s ∧ AllReturned s ∧ s.served = true ∧ s.mq.msgs = [1] ∧
      ¬ ∀ x ∈ tr, AnswersExactly x.1 x.2 := by
  have hreach : Reach step Succeeds (roundOf opened oneEach) _ := exec_get_reach toldTooEarly (by decide)
  obtain ⟨tr, hr⟩ := hreach.run
  have hiff := ends_well_iff opened_ready opened_still oneEach hr fun e s' hk =>
    returned_no_step (by decide) (by decide) (by decide) hk.1
  refine ⟨tr, _, hr, by decide, by decide, by decide, fun ha => ?_⟩
  exact absurd (hiff.mpr ⟨by decide, ha⟩).2 (by decide)

end Alambix
