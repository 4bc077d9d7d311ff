/-
  Alambix.Scenes — what can be seen of the pub, written down round by round.

  `Pub` (Alambix.Pub) says which call may follow which by a state of its own. Here the same
  is said of the sequences of calls themselves. Leaving out when the still stops, they are
  whole rounds one after the other, the last one perhaps not to its end: Start, the drinks
  put on the list, each client's in the order it chose them, the order taken, its drinks
  started one by one in that order, the order provided and served. And the still makes one
  drink at a time.

  The Start button asks for a drink of each client, so that each round has one.

  - `foldl_next_iff`: the stops apart, the pub goes on as if each drink were made at once.
  - `quiet_rounds_iff`: what such a pub can do is whole rounds.

  Proved: `shows_rounds_iff`, of the program from before alambix_init.
-/

import Alambix.Pub
import Mathlib.Data.List.Induction

namespace Alambix

open Lib.Transition
open Function (update)

variable {Drink : Type}

/-- The drinks of a client. -/
def drinksOf (c : Client) (ordered : List (Client × Drink)) : List Drink := (ordered.filter (·.1 = c)).map Prod.snd

/-- A round: its drinks in the order they were put on the list, with who ordered them. -/
structure Round (Drink : Type) where
  ordered : List (Client × Drink)
  each : ∀ c, drinksOf c ordered ≠ []

namespace Round

def drinks (r : Round Drink) : List Drink := r.ordered.map Prod.snd

def ordering (ordered : List (Client × Drink)) : List (Scene Drink) := ordered.map fun x => .orderDrink x.1 x.2

/-- What is seen of the round, but for when the still stops. -/
def scenes (r : Round Drink) : List (Scene Drink) :=
  [.start fun c => drinksOf c r.ordered] ++ ordering r.ordered ++ [.takeOrder r.drinks] ++
    r.drinks.map .stillStart ++ [.provideOrder, .serveOrder]

end Round

def Scene.starts : Scene Drink → Bool
  | .stillStart _ => true
  | _ => false

def Scene.stops : Scene Drink → Bool
  | .stillStop => true
  | _ => false

/-- The still makes one drink at a time. -/
def OneByOne (l : List (Scene Drink)) : Prop :=
  ∀ p, p <+: l → p.countP Scene.stops ≤ p.countP Scene.starts ∧ p.countP Scene.starts ≤ p.countP Scene.stops + 1

/-- The Start button asks for a drink of each client. -/
def Scene.Chosen : Scene Drink → Prop
  | .start chosen => ∀ c, chosen c ≠ []
  | _ => True

variable [DecidableEq Drink]

/-- The pub when each drink is made at once. -/
def Pub.quiet (p : Pub Drink) (c : Scene Drink) : Option (Pub Drink) :=
  (Pub.next { p with making := false } c).map fun p' => { p' with making := false }

/-! ## The still -/

omit [DecidableEq Drink] in
theorem oneByOne_snoc {l : List (Scene Drink)} {c : Scene Drink} :
    OneByOne (l ++ [c]) ↔ OneByOne l ∧ (l ++ [c]).countP Scene.stops ≤ (l ++ [c]).countP Scene.starts ∧
      (l ++ [c]).countP Scene.starts ≤ (l ++ [c]).countP Scene.stops + 1 := by
  constructor
  · intro h
    exact ⟨fun p hp => h p (hp.trans (List.prefix_append l [c])), h _ (List.prefix_refl _)⟩
  · rintro ⟨h, hlast⟩ p hp
    rcases List.prefix_concat_iff.mp hp with rfl | hp
    · exact hlast
    · exact h p hp

omit [DecidableEq Drink] in
theorem countP_more {f : Scene Drink → Bool} (l : List (Scene Drink)) {c : Scene Drink} (h : f c = true) :
    (l ++ [c]).countP f = l.countP f + 1 := by
  simp [List.countP_append, h]

omit [DecidableEq Drink] in
theorem countP_same {f : Scene Drink → Bool} (l : List (Scene Drink)) {c : Scene Drink} (h : f c = false) :
    (l ++ [c]).countP f = l.countP f := by
  simp [List.countP_append, h]

/-- More drinks started than made. -/
def busy (l : List (Scene Drink)) : Bool := decide (l.countP Scene.stops < l.countP Scene.starts)

omit [DecidableEq Drink] in
theorem oneByOne_stop {l : List (Scene Drink)} : OneByOne (l ++ [.stillStop]) ↔ OneByOne l ∧ busy l = true := by
  rw [oneByOne_snoc, countP_more l (f := Scene.stops) rfl, countP_same l (f := Scene.starts) rfl]
  refine and_congr_right fun h => ?_
  obtain ⟨hle, hlt⟩ := h l (List.prefix_refl l)
  rw [busy, decide_eq_true_eq]
  omega

omit [DecidableEq Drink] in
theorem oneByOne_start {l : List (Scene Drink)} {d : Drink} :
    OneByOne (l ++ [.stillStart d]) ↔ OneByOne l ∧ busy l = false := by
  rw [oneByOne_snoc, countP_same l (f := Scene.stops) rfl, countP_more l (f := Scene.starts) rfl]
  refine and_congr_right fun h => ?_
  obtain ⟨hle, hlt⟩ := h l (List.prefix_refl l)
  rw [busy, decide_eq_false_iff_not]
  omega

omit [DecidableEq Drink] in
theorem oneByOne_other {l : List (Scene Drink)} {c : Scene Drink} (hstart : c.starts = false)
    (hstop : c.stops = false) : OneByOne (l ++ [c]) ↔ OneByOne l := by
  rw [oneByOne_snoc, countP_same l hstop, countP_same l hstart]
  exact and_iff_left_of_imp fun h => h l (List.prefix_refl l)

omit [DecidableEq Drink] in
theorem busy_stop {l : List (Scene Drink)} (h : OneByOne l) : busy (l ++ [.stillStop]) = false := by
  obtain ⟨-, hlt⟩ := h l (List.prefix_refl l)
  rw [busy, countP_more l (f := Scene.stops) rfl, countP_same l (f := Scene.starts) rfl, decide_eq_false_iff_not]
  omega

omit [DecidableEq Drink] in
theorem busy_start {l : List (Scene Drink)} {d : Drink} (h : OneByOne l) : busy (l ++ [.stillStart d]) = true := by
  obtain ⟨hle, -⟩ := h l (List.prefix_refl l)
  rw [busy, countP_same l (f := Scene.stops) rfl, countP_more l (f := Scene.starts) rfl, decide_eq_true_eq]
  omega

omit [DecidableEq Drink] in
theorem busy_other {l : List (Scene Drink)} {c : Scene Drink} (hstart : c.starts = false) (hstop : c.stops = false) :
    busy (l ++ [c]) = busy l := by
  rw [busy, countP_same l hstop, countP_same l hstart, busy]

theorem next_stop {p p' : Pub Drink} {b : Bool} :
    Pub.next { p with making := b } .stillStop = some p' ↔ b = true ∧ { p with making := false } = p' :=
  guarded_eq_some

theorem next_start {p p' : Pub Drink} {b : Bool} {d : Drink} :
    Pub.next { p with making := b } (.stillStart d) = some p' ↔
      b = false ∧ ∃ q, p.quiet (.stillStart d) = some q ∧ { q with making := true } = p' := by
  cases b <;> simp [Pub.quiet, Pub.next, guarded_eq_some]

/-- What has nothing to do with the still does not look at it. -/
theorem next_other {p p' : Pub Drink} {b : Bool} {c : Scene Drink} (hstart : c.starts = false)
    (hstop : c.stops = false) :
    Pub.next { p with making := b } c = some p' ↔ ∃ q, p.quiet c = some q ∧ { q with making := b } = p' := by
  rw [← Option.map_eq_some_iff]
  suffices h : Pub.next { p with making := b } c = (p.quiet c).map fun q => { q with making := b } by rw [h]
  rw [Pub.quiet, Option.map_map]
  cases c with
  | stillStart d => cases hstart
  | stillStop => cases hstop
  | _ => exact guarded_map Iff.rfl rfl

/-- The pub goes on as if each drink were made at once, and is busy with the last one started. -/
theorem foldlM_next {l : List (Scene Drink)} {p : Pub Drink} :
    l.foldlM Pub.next closedPub = some p ↔
      OneByOne l ∧ ∃ q, (l.filter fun c => !c.stops).foldlM Pub.quiet closedPub = some q ∧
        { q with making := busy l } = p := by
  induction l using List.reverseRecOn generalizing p with
  | nil => simp [OneByOne, busy, closedPub]
  | append_singleton l c ih =>
    have hstep : (l ++ [c]).foldlM Pub.next closedPub = some p ↔ OneByOne l ∧
        ∃ q, (l.filter fun c => !c.stops).foldlM Pub.quiet closedPub = some q ∧
          Pub.next { q with making := busy l } c = some p := by
      rw [foldlM_snoc]
      simp only [ih]
      constructor
      · rintro ⟨_, ⟨hl, q, hq, rfl⟩, hp⟩
        exact ⟨hl, q, hq, hp⟩
      · rintro ⟨hl, q, hq, hp⟩
        exact ⟨_, ⟨hl, q, hq, rfl⟩, hp⟩
    rw [hstep]
    -- a stop is left out of the list, a start makes the still busy, the rest is the same on both sides
    cases c with
    | stillStop =>
      have hf : (l ++ [Scene.stillStop]).filter (fun c => !c.stops) = l.filter fun c => !c.stops := by
        simp [Scene.stops]
      rw [hf]
      constructor
      · rintro ⟨hl, q, hq, hp⟩
        obtain ⟨hbusy, rfl⟩ := next_stop.mp hp
        exact ⟨oneByOne_stop.mpr ⟨hl, hbusy⟩, q, hq, by rw [busy_stop hl]⟩
      · rintro ⟨h, q, hq, rfl⟩
        obtain ⟨hl, hbusy⟩ := oneByOne_stop.mp h
        exact ⟨hl, q, hq, next_stop.mpr ⟨hbusy, by rw [busy_stop hl]⟩⟩
    | stillStart d =>
      rw [List.filter_append]
      constructor
      · rintro ⟨hl, q, hq, hp⟩
        obtain ⟨hbusy, q', hq', rfl⟩ := next_start.mp hp
        exact ⟨oneByOne_start.mpr ⟨hl, hbusy⟩, q', foldlM_snoc.mpr ⟨q, hq, hq'⟩, by rw [busy_start hl]⟩
      · rintro ⟨h, q', hq', rfl⟩
        obtain ⟨hl, hbusy⟩ := oneByOne_start.mp h
        obtain ⟨q, hq, hq'⟩ := foldlM_snoc.mp hq'
        exact ⟨hl, q, hq, next_start.mpr ⟨hbusy, q', hq', by rw [busy_start hl]⟩⟩
    | _ =>
      rw [oneByOne_other rfl rfl, busy_other rfl rfl, List.filter_append]
      constructor
      · rintro ⟨hl, q, hq, hp⟩
        obtain ⟨q', hq', rfl⟩ := (next_other rfl rfl).mp hp
        exact ⟨hl, q', foldlM_snoc.mpr ⟨q, hq, hq'⟩, rfl⟩
      · rintro ⟨hl, q', hq', rfl⟩
        obtain ⟨q, hq, hq'⟩ := foldlM_snoc.mp hq'
        exact ⟨hl, q, hq, (next_other rfl rfl).mpr ⟨q', hq', rfl⟩⟩

theorem foldl_next_iff {l : List (Scene Drink)} :
    (l.foldlM Pub.next closedPub).isSome = true ↔
      OneByOne l ∧ ((l.filter fun c => !c.stops).foldlM Pub.quiet closedPub).isSome = true := by
  simp only [Option.isSome_iff_exists, foldlM_next]
  constructor
  · rintro ⟨_, hl, q, hq, -⟩
    exact ⟨hl, q, hq⟩
  · rintro ⟨hl, q, hq⟩
    exact ⟨_, hl, q, hq, rfl⟩

/-! ## The rounds -/

omit [DecidableEq Drink] in
theorem drinksOf_append (c : Client) (xs ys : List (Client × Drink)) :
    drinksOf c (xs ++ ys) = drinksOf c xs ++ drinksOf c ys := by
  simp [drinksOf]

omit [DecidableEq Drink] in
theorem drinksOf_map (c c' : Client) (ds : List Drink) :
    drinksOf c (ds.map fun d => (c', d)) = if c' = c then ds else [] := by
  by_cases h : c' = c <;> simp [drinksOf, List.filter_map, Function.comp_def, h]

omit [DecidableEq Drink] in
/-- A round that has begun can be carried on, one client after the other. -/
theorem exists_round {chosen w : Client → List Drink} {xs : List (Client × Drink)} (heach : ∀ c, chosen c ≠ [])
    (hch : ∀ c, chosen c = drinksOf c xs ++ w c) :
    ∃ r : Round Drink, xs <+: r.ordered ∧ chosen = fun c => drinksOf c r.ordered := by
  let rest : List (Client × Drink) :=
    (w .client0).map (fun d => (.client0, d)) ++ (w .client1).map fun d => (.client1, d)
  have hdrinks : ∀ c, chosen c = drinksOf c (xs ++ rest) := by
    intro c
    rw [hch]
    cases c <;> simp [rest, drinksOf_append, drinksOf_map]
  exact ⟨⟨xs ++ rest, fun c => hdrinks c ▸ heach c⟩, List.prefix_append _ _, funext hdrinks⟩

/-- The drinks go onto the list, each client's in the order it chose them. -/
theorem foldlM_ordering (xs : List (Client × Drink)) (o m : List Drink) :
    (Round.ordering xs).foldlM Pub.quiet ⟨fun c => drinksOf c xs, o, m, false, .ordering⟩ =
      some ⟨fun _ => [], o ++ xs.map Prod.snd, m, false, .ordering⟩ := by
  induction xs generalizing o with
  | nil => simp [Round.ordering, drinksOf]
  | cons x xs ih =>
    obtain ⟨c, d⟩ := x
    have hrest : update (fun c' => drinksOf c' ((c, d) :: xs)) c (drinksOf c xs) = fun c' => drinksOf c' xs := by
      funext c'
      by_cases hc : c' = c
      · rw [hc, Function.update_self]
      · simp [hc, drinksOf, Ne.symm hc]
    have hstep : Pub.quiet ⟨fun c' => drinksOf c' ((c, d) :: xs), o, m, false, .ordering⟩ (.orderDrink c d) =
        some ⟨fun c' => drinksOf c' xs, o ++ [d], m, false, .ordering⟩ := by
      rw [← hrest]
      simp [Pub.quiet, Pub.next, guarded, drinksOf]
    have hcons : Round.ordering ((c, d) :: xs) = .orderDrink c d :: Round.ordering xs := rfl
    rw [hcons, List.foldlM_cons, hstep]
    exact (ih (o ++ [d])).trans (by simp)

/-- The drinks of the order are started one by one. -/
theorem foldlM_preparing (ds o : List Drink) (w : Client → List Drink) :
    (ds.map Scene.stillStart).foldlM Pub.quiet ⟨w, o, ds, false, .preparing⟩ =
      some ⟨w, o, [], false, .preparing⟩ := by
  induction ds with
  | nil => rfl
  | cons d ds ih =>
    have hstep : Pub.quiet ⟨w, o, d :: ds, false, .preparing⟩ (.stillStart d) =
        some ⟨w, o, ds, false, .preparing⟩ := by
      simp [Pub.quiet, Pub.next, guarded]
    rw [List.map_cons, List.foldlM_cons, hstep]
    exact ih

omit [DecidableEq Drink] in
theorem Round.drinks_ne (r : Round Drink) : r.drinks ≠ [] := by
  intro h
  apply r.each .client0
  rw [List.map_eq_nil_iff.mp h]
  rfl

/-- A round takes the pub from one served order to the next. -/
theorem foldlM_round (r : Round Drink) {p : Pub Drink} (hp : p.stage = .served) :
    r.scenes.foldlM Pub.quiet p = some ⟨fun _ => [], r.drinks, [], false, .served⟩ := by
  have hstart : p.quiet (.start fun c => drinksOf c r.ordered) =
      some ⟨fun c => drinksOf c r.ordered, [], [], false, .ordering⟩ := by
    simp [Pub.quiet, Pub.next, guarded, hp]
  have htake : Pub.quiet ⟨fun _ => [], r.drinks, [], false, .ordering⟩ (.takeOrder r.drinks) =
      some ⟨fun _ => [], r.drinks, r.drinks, false, .preparing⟩ := by
    simp [Pub.quiet, Pub.next, guarded]
  have hprovide : Pub.quiet ⟨fun _ => [], r.drinks, [], false, .preparing⟩ .provideOrder =
      some ⟨fun _ => [], r.drinks, [], false, .provided⟩ := by
    simp [Pub.quiet, Pub.next, guarded, r.drinks_ne]
  have hserve : Pub.quiet ⟨fun _ => [], r.drinks, [], false, .provided⟩ .serveOrder =
      some ⟨fun _ => [], r.drinks, [], false, .served⟩ := by
    simp [Pub.quiet, Pub.next, guarded]
  have horder : (Round.ordering r.ordered).foldlM Pub.quiet ⟨fun c => drinksOf c r.ordered, [], [], false, .ordering⟩ =
      some ⟨fun _ => [], r.drinks, [], false, .ordering⟩ := foldlM_ordering r.ordered [] []
  simp [Round.scenes, List.foldlM_append, hstart, horder, htake, foldlM_preparing, hprovide, hserve]

theorem foldlM_rounds (rounds : List (Round Drink)) {p : Pub Drink} (hp : p.stage = .served) :
    ∃ p', (rounds.flatMap Round.scenes).foldlM Pub.quiet p = some p' ∧ p'.stage = .served := by
  induction rounds generalizing p with
  | nil => exact ⟨p, rfl, hp⟩
  | cons r rounds ih =>
    rw [List.flatMap_cons, List.foldlM_append, foldlM_round r hp]
    exact ih rfl

/-- What has been seen of a pub that is in state `p`. -/
inductive Told : List (Scene Drink) → Pub Drink → Prop
  | served (rounds : List (Round Drink)) {p : Pub Drink} (hp : p.stage = .served) :
    Told (rounds.flatMap Round.scenes) p
  | ordering (rounds : List (Round Drink)) (chosen : Client → List Drink) (xs : List (Client × Drink)) {p : Pub Drink}
    (hp : p.stage = .ordering) (heach : ∀ c, chosen c ≠ []) (ho : p.order = xs.map Prod.snd)
    (hch : ∀ c, chosen c = drinksOf c xs ++ p.toOrder c) :
    Told (rounds.flatMap Round.scenes ++ ([.start chosen] ++ Round.ordering xs)) p
  | preparing (rounds : List (Round Drink)) (r : Round Drink) (made : List Drink) {p : Pub Drink}
    (hp : p.stage = .preparing) (hm : made ++ p.toMake = r.drinks) :
    Told (rounds.flatMap Round.scenes ++ ([.start fun c => drinksOf c r.ordered] ++ Round.ordering r.ordered ++
      [.takeOrder r.drinks] ++ made.map .stillStart)) p
  | provided (rounds : List (Round Drink)) (r : Round Drink) {p : Pub Drink} (hp : p.stage = .provided) :
    Told (rounds.flatMap Round.scenes ++ ([.start fun c => drinksOf c r.ordered] ++ Round.ordering r.ordered ++
      [.takeOrder r.drinks] ++ r.drinks.map .stillStart ++ [.provideOrder])) p

omit [DecidableEq Drink] in
theorem Told.still {m : List (Scene Drink)} {p : Pub Drink} (h : Told m p) (b : Bool) :
    Told m { p with making := b } := by
  cases h with
  | served rounds hp => exact .served rounds hp
  | ordering rounds chosen xs hp heach ho hch => exact .ordering rounds chosen xs hp heach ho hch
  | preparing rounds r made hp hm => exact .preparing rounds r made hp hm
  | provided rounds r hp => exact .provided rounds r hp

theorem Told.next {m : List (Scene Drink)} {c : Scene Drink} {p p' : Pub Drink} (ht : Told m p) (hc : c.Chosen)
    (hoff : p.making = false) (h : p.next c = some p') : Told (m ++ [c]) p' := by
  cases c with
  | start chosen =>
    obtain ⟨hst, rfl⟩ := guarded_eq_some.mp h
    cases ht with
    | served rounds => exact .ordering rounds chosen [] rfl hc rfl fun _ => rfl
    -- here and below: at the other stages the call is not enabled
    | _ => simp_all
  | orderDrink c d =>
    obtain ⟨⟨hst, hd⟩, rfl⟩ := guarded_eq_some.mp h
    cases ht with
    | ordering rounds chosen xs hp heach ho hch =>
      obtain ⟨rest, hrest⟩ := List.head?_eq_some_iff.mp hd
      have hxs : Round.ordering xs ++ [.orderDrink c d] = Round.ordering (xs ++ [(c, d)]) := by
        simp [Round.ordering]
      rw [List.append_assoc, List.append_assoc, hxs]
      refine .ordering rounds chosen _ hp heach (by simp [ho]) fun c' => ?_
      by_cases hc' : c' = c
      · subst hc'
        simp [hch, hrest, drinksOf]
      · simp [hch, hc', Ne.symm hc', drinksOf]
    | _ => simp_all
  | takeOrder ds =>
    obtain ⟨⟨hst, ⟨h0, h1⟩, rfl⟩, rfl⟩ := guarded_eq_some.mp h
    cases ht with
    | ordering rounds chosen xs hp heach ho hch =>
      have hall : ∀ c, chosen c = drinksOf c xs := by
        intro c
        rw [hch]
        cases c <;> simp [h0, h1]
      obtain rfl : chosen = fun c => drinksOf c xs := funext hall
      rw [congrArg Scene.takeOrder ho]
      have htaken : Told _ { p with toMake := p.order, stage := .preparing } := .preparing rounds ⟨xs, heach⟩ [] rfl ho
      simpa [Round.drinks] using htaken
    | _ => simp_all
  | stillStart d =>
    obtain ⟨⟨hst, hd, -⟩, rfl⟩ := guarded_eq_some.mp h
    cases ht with
    | preparing rounds r made hp hm =>
      obtain ⟨rest, hrest⟩ := List.head?_eq_some_iff.mp hd
      have hmade : made.map Scene.stillStart ++ [.stillStart d] = (made ++ [d]).map Scene.stillStart := by
        simp
      rw [List.append_assoc, List.append_assoc, hmade]
      exact .preparing rounds r (made ++ [d]) hp (by simp [← hm, hrest])
    | _ => simp_all
  | stillStop =>
    obtain ⟨hon, -⟩ := guarded_eq_some.mp h
    rw [hoff] at hon
    cases hon
  | provideOrder =>
    obtain ⟨⟨hst, hmake, -⟩, rfl⟩ := guarded_eq_some.mp h
    cases ht with
    | preparing rounds r made hp hm =>
      rw [hmake, List.append_nil] at hm
      rw [List.append_assoc, hm]
      exact .provided rounds r rfl
    | _ => simp_all
  | serveOrder =>
    obtain ⟨hst, rfl⟩ := guarded_eq_some.mp h
    cases ht with
    | provided rounds r hp =>
      have hserved : Told _ { p with stage := .served } := .served (rounds ++ [r]) rfl
      simpa [Round.scenes] using hserved
    | _ => simp_all

theorem told_of {m : List (Scene Drink)} {p : Pub Drink} (hc : ∀ c ∈ m, c.Chosen)
    (h : m.foldlM Pub.quiet closedPub = some p) : Told m p := by
  induction m using List.reverseRecOn generalizing p with
  | nil =>
    cases h
    exact .served [] rfl
  | append_singleton m c ih =>
    obtain ⟨q, hq, hstep⟩ := foldlM_snoc.mp h
    obtain ⟨q', hnext, rfl⟩ := Option.map_eq_some_iff.mp hstep
    have ht : Told m q := ih (fun x hx => hc x (List.mem_append_left _ hx)) hq
    exact ((ht.still false).next (hc c (by simp)) rfl hnext).still false

omit [DecidableEq Drink] in
/-- Whole rounds, and the beginning of one more. -/
theorem prefix_rounds (rounds : List (Round Drink)) (r : Round Drink) {now : List (Scene Drink)}
    (h : now <+: r.scenes) :
    ∃ rounds' : List (Round Drink), rounds.flatMap Round.scenes ++ now <+: rounds'.flatMap Round.scenes := by
  refine ⟨rounds ++ [r], ?_⟩
  rw [List.flatMap_append, List.flatMap_singleton]
  exact (List.prefix_append_right_inj _).mpr h

omit [DecidableEq Drink] in
theorem told_prefix {m : List (Scene Drink)} {p : Pub Drink} (ht : Told m p) :
    ∃ rounds : List (Round Drink), m <+: rounds.flatMap Round.scenes := by
  cases ht with
  | served rounds => exact ⟨rounds, List.prefix_refl _⟩
  | ordering rounds chosen xs hp heach ho hch =>
    obtain ⟨r, ⟨rest, hrest⟩, rfl⟩ := exists_round heach hch
    apply prefix_rounds rounds r
    simp [Round.scenes, ← hrest, Round.ordering]
  | preparing rounds r made hp hm =>
    apply prefix_rounds rounds r
    simp [Round.scenes, ← hm]
  | provided rounds r hp =>
    apply prefix_rounds rounds r
    simp [Round.scenes]

omit [DecidableEq Drink] in
theorem Round.chosen {r : Round Drink} {c : Scene Drink} (h : c ∈ r.scenes) : c.Chosen := by
  cases c with
  | start chosen =>
    have hch : chosen = fun c => drinksOf c r.ordered := by simpa [Round.scenes, Round.ordering] using h
    rw [hch]
    exact r.each
  | _ => exact trivial

/-- The pub that makes each drink at once does whole rounds, the last one perhaps not to its end. -/
theorem quiet_rounds_iff {m : List (Scene Drink)} :
    (m.foldlM Pub.quiet closedPub).isSome = true ∧ (∀ c ∈ m, c.Chosen) ↔
      ∃ rounds : List (Round Drink), m <+: rounds.flatMap Round.scenes := by
  constructor
  · rintro ⟨h, hc⟩
    obtain ⟨p, hp⟩ := Option.isSome_iff_exists.mp h
    exact told_prefix (told_of hc hp)
  · rintro ⟨rounds, rest, hm⟩
    refine ⟨?_, fun c hmem => ?_⟩
    · obtain ⟨p, hp, -⟩ := foldlM_rounds rounds (p := closedPub) rfl
      rw [← hm, List.foldlM_append] at hp
      obtain ⟨q, hq, -⟩ := Option.bind_eq_some_iff.mp hp
      rw [hq]
      rfl
    · have hin : c ∈ rounds.flatMap Round.scenes := hm ▸ List.mem_append_left rest hmem
      obtain ⟨r, -, hr⟩ := List.mem_flatMap.mp hin
      exact r.chosen hr

/-- From before alambix_init, with calls that may fail and a user that may quit, and with a
    drink of each client for each Start: what is seen of the program is whole rounds, the
    last one perhaps not to its end, and the still making one drink at a time. -/
theorem shows_rounds_iff {l : List (Scene Drink)} :
    l ∈ Traces step (fun s e => StartsEmpty s e ∧ ∀ c ∈ e.scene, c.Chosen) Ev.scene (boot : St Drink) ↔
      OneByOne l ∧ ∃ rounds : List (Round Drink), (l.filter fun c => !c.stops) <+: rounds.flatMap Round.scenes := by
  have hpub : Traces step StartsEmpty Ev.scene (boot : St Drink) = Traces Pub.next (fun _ _ => True) some closedPub :=
    boot_pub ▸ maps_pub.traces_eq (.inl rfl) fun _ _ _ hr hw h => waits_shows hr hw h
  have hchosen : (∀ c ∈ l, c.Chosen) ↔ ∀ c ∈ l.filter fun c => !c.stops, c.Chosen := by
    refine ⟨fun h c hc => h c (List.mem_filter.mp hc).1, fun h c hc => ?_⟩
    cases c with
    | stillStop => exact trivial
    | _ => exact h _ (List.mem_filter.mpr ⟨hc, rfl⟩)
  rw [mem_traces_and, hpub, mem_traces_iff, foldl_next_iff, ← quiet_rounds_iff, hchosen, and_assoc]

end Alambix
