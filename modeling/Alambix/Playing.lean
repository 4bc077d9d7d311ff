/-
  Alambix.Playing — the program never gets stuck, from the first round to the last.

  `round_ends` is about a round whose four threads exist. Here they are created one by one
  by alambix_start, run while it is still creating the others, and the user plays again as
  often as the Start button lets him. The library does what it documents, no call fails,
  the user does not quit and each round has a drink (the Start button asks for two, one of
  each client).

  - Every reachable state is the first one or `InPlay`: up to where the main thread is, a
    state a round reaches on its own from a `Ready` one (`reach_inPlay`).
  - `left`: what is left of the round, and of alambix_start. Every event but a new
    alambix_start lowers it (`step_left`).

  Proved: `every_round_ends`.
-/

import Alambix.Progress
import Alambix.Rounds

namespace Alambix

open Lib.Transition

variable {Drink : Type}

/-- The choices of the round this event starts. -/
def Ev.starts : Ev Drink → Option (Client → List Drink)
  | .main (.alambixStart chosen) => some chosen
  | _ => none

def Ev.quits : Ev Drink → Bool
  | .main .quit => true
  | _ => false

/-- The user goes on playing, orders something in each round, and nothing fails. -/
structure Plays (s : St Drink) (e : Ev Drink) : Prop where
  documented : Documented s e
  succeeds : e.succeeds = true
  stays : e.quits = false
  orders : ∀ chosen ∈ e.starts, 1 ≤ (chosen .client0).length + (chosen .client1).length

instance [DecidableEq Drink] (s : St Drink) (e : Ev Drink) : Decidable (Plays s e) :=
  decidable_of_iff ((AnswersExactly s e ∧ TakesOrder s e) ∧ e.succeeds = true ∧ e.quits = false ∧
      ∀ chosen ∈ e.starts, 1 ≤ (chosen .client0).length + (chosen .client1).length)
    ⟨fun ⟨h1, h2, h3, h4⟩ => ⟨h1, h2, h3, h4⟩, fun ⟨h1, h2, h3, h4⟩ => ⟨h1, h2, h3, h4⟩⟩

/-- Up to the main thread's place, the state a round has reached on its own. -/
def InPlay [DecidableEq Drink] (s : St Drink) : Prop :=
  ∃ s₀ wanted, (Ready s₀ ∧ StillInv s₀) ∧ 1 ≤ (wanted .client0).length + (wanted .client1).length ∧
    Reach step AsDocumented (roundOf s₀ wanted) { s with main := .ui }

/-- Statements alambix_start has still to execute. -/
def MainPc.setupLeft : MainPc → Nat
  | .pthreadCreate t => 2 * (4 - t.rank)
  | .pthreadDetach t => 2 * (4 - t.rank) - 1
  | _ => 0

def left (s : St Drink) : Nat := s.main.setupLeft + remaining s

variable [DecidableEq Drink]

/-- What the main thread does while the user plays. -/
theorem plays_main {s s' : St Drink} {e : MainEv Drink} (hm : s.main ≠ .alambixOpen) (hr : s.main.inRound = true)
    (hp : Plays s (.main e)) (h : mainThread s e = some s') :
    (∃ chosen, e = .alambixStart chosen) ∨ e = .pthreadCreate ∨ e = .pthreadDetach := by
  cases e with
  | alambixInit fs w => exact absurd (guarded_eq_some.mp h).1 hm
  | alambixStart chosen => exact .inl ⟨chosen, rfl⟩
  | pthreadCreate => exact .inr (.inl rfl)
  | pthreadDetach => exact .inr (.inr rfl)
  | pthreadCreateFail => cases hp.succeeds
  | quit => cases hp.stays
  | _ =>
    obtain ⟨hpc, -⟩ := guarded_eq_some.mp h
    rw [hpc] at hr; cases hr

theorem setup_keeps {s s' : St Drink} {e : MainEv Drink} (he : e = .pthreadCreate ∨ e = .pthreadDetach)
    (h : mainThread s e = some s') :
    s' = { s with main := s'.main } ∧ s'.main.inRound = true ∧ s'.main.setupLeft < s.main.setupLeft := by
  rcases he with rfl | rfl
  · obtain ⟨t, ht, rfl⟩ := pthreadCreate_eq_some.mp h
    have hless : (MainPc.pthreadDetach t).setupLeft < (MainPc.pthreadCreate t).setupLeft := by
      rcases t with (_ | _) | _ | _ <;> decide
    exact ⟨rfl, rfl, ht ▸ hless⟩
  · obtain ⟨t, ht, rfl⟩ := pthreadDetach_eq_some.mp h
    have hless : (afterDetach t).inRound = true ∧ (afterDetach t).setupLeft < (MainPc.pthreadDetach t).setupLeft := by
      rcases t with (_ | _) | _ | _ <;> decide
    exact ⟨rfl, hless.1, ht ▸ hless.2⟩

theorem InPlay.sound {s : St Drink} (h : InPlay s) : s.exited = none := by
  obtain ⟨s₀, wanted, ⟨h0, -⟩, hne, hr⟩ := h
  exact (round_sound h0 hne hr).alive

theorem step_inPlay {s s' : St Drink} {e : Ev Drink} (hi : RoundInv s) (hq : QueueInv s) (hs : StillInv s)
    (hm : s.main ≠ .alambixOpen) (hr : s.main.inRound = true) (hround : s = opened ∨ InPlay s) (hp : Plays s e)
    (h : step s e = some s') : InPlay s' ∧ s'.main.inRound = true := by
  cases e with
  | main e =>
    obtain ⟨halive, h⟩ := step_eq_some.mp h
    have h : mainThread s e = some s' := h
    rcases plays_main hm hr hp h with ⟨chosen, rfl⟩ | he
    · obtain ⟨⟨hui, hret⟩, rfl⟩ := guarded_eq_some.mp h
      exact ⟨⟨s, chosen, ⟨ready_again hi hq halive hui hret, hs⟩, hp.orders chosen rfl, .refl⟩, rfl⟩
    · obtain ⟨hs', hin, hless⟩ := setup_keeps he h
      rcases hround with rfl | ⟨s₀, wanted, h0, hne, hreach⟩
      · simp [opened, MainPc.setupLeft] at hless
      · refine ⟨⟨s₀, wanted, h0, hne, ?_⟩, hin⟩
        rw [hs']
        exact hreach
  | client c e | waiter e | bartender e | timer e =>
    rcases hround with rfl | ⟨s₀, wanted, h0, hne, hreach⟩
    · exact absurd h (returned_no_step opened_ready.returned rfl rfl rfl)
    · refine ⟨⟨s₀, wanted, h0, hne, ?_⟩, step_main_unchanged rfl h ▸ hr⟩
      exact hreach.step ⟨rfl, hp.succeeds, hp.documented⟩ (step_atUi rfl h)

/-- What is known of the program while the user plays. -/
structure PlayInv (s : St Drink) : Prop where
  round : RoundInv s
  queue : QueueInv s
  still : StillInv s
  main : s.main ≠ .alambixOpen ∧ s.main.inRound = true
  play : s = opened ∨ InPlay s

theorem opened_playInv : PlayInv (opened : St Drink) :=
  ⟨opened_roundInv, ⟨rfl, fun h => by cases h⟩, opened_still, by simp [opened, MainPc.inRound], .inl rfl⟩

theorem step_playInv {s s' : St Drink} {e : Ev Drink} (hi : PlayInv s) (hp : Plays s e) (h : step s e = some s') :
    PlayInv s' := by
  obtain ⟨hround, hq, hs, ⟨hm, hr⟩, hplay⟩ := hi
  obtain ⟨hround', hm'⟩ := step_roundInv hround hm hp.documented.1 h
  obtain ⟨hplay', hr'⟩ := step_inPlay hround hq hs hm hr hplay hp h
  exact ⟨hround', step_queue hq hm h, step_still hs h, ⟨hm', hr'⟩, .inr hplay'⟩

theorem reach_playInv {s : St Drink} (h : Reach step Plays opened s) : PlayInv s :=
  h.inv opened_playInv fun _ _ _ hi hp hs => step_playInv hi hp hs

theorem PlayInv.alive {s : St Drink} (hi : PlayInv s) : s.exited = none := by
  rcases hi.play with rfl | h
  · rfl
  · exact h.sound

/-! ## No event but a new round is for ever -/

/-- An event that starts no round. -/
def PlaysOn (s : St Drink) (e : Ev Drink) : Prop := Plays s e ∧ e.starts = none

theorem step_left {s s' : St Drink} {e : Ev Drink} (hi : PlayInv s) (hp : PlaysOn s e) (h : step s e = some s') :
    left s' < left s := by
  obtain ⟨hp, hstarts⟩ := hp
  cases e with
  | main e =>
    obtain ⟨-, h⟩ := step_eq_some.mp h
    rcases plays_main hi.main.1 hi.main.2 hp h with ⟨chosen, rfl⟩ | he
    · cases hstarts
    · obtain ⟨hs', -, hless⟩ := setup_keeps he h
      have hsame : remaining s' = remaining s := by rw [hs']; rfl
      rw [left, left, hsame]
      omega
  | client c e | waiter e | bartender e | timer e =>
    rcases hi.play with rfl | ⟨s₀, wanted, ⟨h0, hst⟩, hne, hreach⟩
    · exact absurd h (returned_no_step opened_ready.returned rfl rfl rfl)
    · have hless := (round_ends h0 hst wanted hne).2.1 _ _ _ hreach ⟨rfl, hp.succeeds, hp.documented⟩ (step_atUi rfl h)
      rw [left, left, step_main_unchanged rfl h]
      exact Nat.add_lt_add_left hless _

/-- alambix_start can go on; after it, the round can. -/
theorem can_play_on {s : St Drink} (hi : PlayInv s) (hr : ¬ (s.main = .ui ∧ AllReturned s)) :
    ∃ e s', PlaysOn s e ∧ step s e = some s' := by
  have hx := hi.alive
  by_cases hui : s.main = .ui
  · rcases hi.play with rfl | ⟨s₀, wanted, ⟨h0, hst⟩, hne, hreach⟩
    · exact absurd ⟨rfl, opened_ready.returned⟩ hr
    · have hback : { s with main := .ui } = s := by rw [← hui]
      rw [hback] at hreach
      obtain ⟨e, s', ha, hs⟩ := (round_ends h0 hst wanted hne).1 s hreach fun h => hr ⟨hui, h⟩
      refine ⟨e, s', ⟨⟨ha.2.2, ha.2.1, ?_, ?_⟩, ?_⟩, hs⟩
      · cases e with
        | main e => cases ha.1
        | _ => rfl
      · intro chosen hch
        cases e with
        | main e => cases ha.1
        | _ => cases hch
      · cases e with
        | main e => cases ha.1
        | _ => rfl
  · have hsetup : ∀ e : MainEv Drink, (e = .pthreadCreate ∨ e = .pthreadDetach) →
        (mainThread s e).isSome = true → ∃ e s', PlaysOn s e ∧ step s e = some s' := by
      rintro e he hsome
      obtain ⟨s', hs'⟩ := Option.isSome_iff_exists.mp hsome
      refine ⟨.main e, s', ?_, main_moves hs' hx⟩
      rcases he with rfl | rfl <;> exact ⟨⟨documented_of rfl rfl, rfl, rfl, by intro _ h; cases h⟩, rfl⟩
    have hin := hi.main.2
    cases hpc : s.main with
    | ui => exact absurd hpc hui
    | pthreadCreate t => exact hsetup .pthreadCreate (.inl rfl) (by rw [mainThread, hpc]; rfl)
    | pthreadDetach t => exact hsetup .pthreadDetach (.inr rfl) (by rw [mainThread, hpc]; rfl)
    | _ => rw [hpc] at hin; cases hin

/-- Wherever the program is while the user plays: until the round is over and the Start
    button works again, something can happen; at most `left` events happen until the next
    round is started; and when nothing else can happen, the order is served, all of it was
    started, and the next round can start with nothing left of this one. -/
theorem every_round_ends {s : St Drink} (h : Reach step Plays opened s) :
    (¬ (s.main = .ui ∧ AllReturned s) → ∃ e s', PlaysOn s e ∧ step s e = some s') ∧
    (∀ tr s', Run step PlaysOn s tr s' → tr.length ≤ left s) ∧
    (∀ s', Reach step PlaysOn s s' → Stuck step PlaysOn s' →
      s'.main = .ui ∧ Ready s' ∧ s'.served = true ∧ s'.started = s'.taken) := by
  have hall : ∀ s', Reach step PlaysOn s s' → PlayInv s' := fun s' hs' =>
    reach_playInv (h.trans (hs'.mono fun _ _ hp => hp.1))
  refine ⟨can_play_on (reach_playInv h), fun tr s' hr => ?_, fun s' hs' hstuck => ?_⟩
  · have := hr.length_le (μ := left) fun t e t' ht hp hs => step_left (hall t ht) hp hs
    omega
  · have hi := hall s' hs'
    obtain ⟨hui, hret⟩ : s'.main = .ui ∧ AllReturned s' := by
      by_contra hno
      obtain ⟨e, t, hp, hs⟩ := can_play_on hi hno
      exact hstuck e t hp hs
    exact ⟨hui, ready_again hi.round hi.queue hi.alive hui hret, hi.round.handOver.served hret.2.1,
      (hi.round.clean hret).2.2.2.2⟩

/-- The second round: client0 orders before client1 exists, and the last drink of the first
    round is still being made. -/
def secondRoundBegins : List (Ev Nat) :=
  startRound oneEach ++ orderProvided ++
    ([.waiter .serveOrder, .main (.alambixStart oneEach), .main .pthreadCreate, .main .pthreadDetach,
      .client .client0 (.chooseDrink 1), .client .client0 (.mutexLock 1)] : List (Ev Nat))

theorem second_round_goes_on :
    ∃ s, Reach step Plays (opened : St Nat) s ∧ s.main = .pthreadCreate (.client .client1) ∧ s.still = true ∧
      (∃ e s', PlaysOn s e ∧ step s e = some s') ∧ ∀ tr s', Run step PlaysOn s tr s' → tr.length ≤ 45 := by
  have hr : Reach step Plays (opened : St Nat) _ := exec_get_reach secondRoundBegins (by decide)
  obtain ⟨hgo, hbound, -⟩ := every_round_ends hr
  refine ⟨_, hr, by decide, by decide, hgo (by decide), fun tr s' hr' => ?_⟩
  exact Nat.le_trans (hbound tr s' hr') (by decide)

end Alambix
