import DiagramTour.Proofs.Playback.Calls
import DiagramTour.Proofs.Playback.Transition

/-!
# Calls take effect one after another

However the tasks of calls take turns, what can be seen is what could be seen if the moves had been
performed one after another, in the order in which they were given the way.  A move that is relative
starts from where the one before it has led.

## Architecture

- `World.InOrder` relates a world to one in which moves are performed one after another;
  `InOrder.choose` is the simulation of a choice.
- `World.March` counts stops: where the player stands, and how often it has told so, after some calls
  for the next stop.
-/

namespace DiagramTour

namespace World

variable {s : Stage} {u v w w' w₀ : World} {t : Task} {c : Choice} {l : Ledger} {id : Nat}
  {m : Move} {ms : List Move} {os : List Outcome}

/-! ## The simulation -/

/-- What can be seen of `w` can be seen if moves are performed one after another from `w₀`.  The moves
are those that were given the way; the last of them may not have ended. -/
inductive InOrder (s : Stage) (w₀ w : World) : List Move → List Outcome → Prop where
  /-- Nobody is on the way. -/
  | free {v : World} {ms : List Move} {os : List Outcome} : w.traveller = none →
      OneByOne s w₀ (ms.zip os) v → ms.length = os.length → v.traveller = none →
      v.view = w.view → InOrder s w₀ w ms os
  /-- A task is on the way. -/
  | held {u v : World} {id : Nat} {job : Job} {m : Move} {ms : List Move} {os : List Outcome}
      (above : List Wait) : w.traveller = some id →
      ⟨id, job, above ++ [.journey]⟩ ∈ w.active → (∀ m, job ≠ .seek m) →
      OneByOne s w₀ (ms.zip os) u → ms.length = os.length →
      Solo s u m v job (above ++ [.journey]) → v.view = w.view → InOrder s w₀ w (ms ++ [m]) os

/-- Where tasks are besides does not matter. -/
private theorem InOrder.aside (h : InOrder s w₀ w ms os) (hw : w.Aside w')
    (htraveller : w'.traveller = w.traveller)
    (hkeep : ∀ t ∈ w.active, t.HoldsWay → t ∈ w'.active) : InOrder s w₀ w' ms os := by
  cases h with
  | free hfree hserial hlen hv hview =>
      exact .free (htraveller.trans hfree) hserial hlen hv (hview.trans hw.view.symm)
  | held above hheld hmem hseek hserial hlen hsolo hview =>
      refine .held above (htraveller.trans hheld) (hkeep _ hmem ⟨?_, hseek⟩) hseek hserial hlen hsolo
        (hview.trans hw.view.symm)
      simp [Wait.isJourney]

/-- A task that takes the way begins to perform its move. -/
private theorem InOrder.take (hw₀ : Reachable s w₀) (hserial : OneByOne s w₀ (ms.zip os) v)
    (hlen : ms.length = os.length) (hv : v.traveller = none) (hview : v.view = w.view)
    (htraveller : w.traveller = some id) (hmem : ⟨id, .depart m, [.journey]⟩ ∈ w.active) :
    InOrder s w₀ w (ms ++ [m]) os := by
  obtain ⟨v', hsolo, hview'⟩ := Solo.start (hserial.reachable hw₀) hv m
  exact .held [] htraveller hmem (by simp) hserial hlen hsolo (hview'.trans hview)

/-- A step of the task on the way is a step of its performance. -/
private theorem InOrder.go {job : Job} {above : List Wait} {others : List Task}
    (hserial : OneByOne s w₀ (ms.zip os) u) (hlen : ms.length = os.length)
    (hsolo : Solo s u m v job (above ++ [.journey])) (hview : v.view = w.view)
    (hseek : ∀ m, job ≠ .seek m) (hgo : job.isEnded = true → above ≠ [])
    (htraveller : (w.takeTurn s ⟨id, job, above ++ [.journey]⟩ others).traveller = some id) :
    InOrder s w₀ (w.takeTurn s ⟨id, job, above ++ [.journey]⟩ others) (ms ++ [m]) os := by
  obtain ⟨job', above', hturn, hseek'⟩ :=
    Job.step_above s { w with ready := others } id [.journey] hgo rfl hseek
  -- The views are the same, and so are the steps
  obtain ⟨hview', hsame⟩ : SameStep (job.step s v u.nextTask (above ++ [.journey]))
      (job.step s { w with ready := others } id (above ++ [.journey])) :=
    Job.step_congr (hview.trans (aside_ready w others).view.symm) hseek
  obtain ⟨v', hsolo', hview''⟩ := hsolo.step hgo rfl hseek (hsame ▸ hturn)
  refine .held above' htraveller (mem_active_of_left? hturn) hseek' hserial hlen hsolo' ?_
  exact hview''.trans (hview'.trans (aside_place _ _ _).view.symm)

/-- What a choice does to what can be seen is done one after another as well. -/
theorem InOrder.choose (h : InOrder s w₀ w ms os) (hw₀ : Reachable s w₀) (hw : Reachable s w)
    (hstep : CallStep s w c) :
    InOrder s w₀ (w.choose s c) (ms ++ (w.entry s c).given) (os ++ (w.entry s c).landed) := by
  cases hstep with
  | aside haside htraveller hno hgiven hlanded =>
      rw [hgiven, hlanded, List.append_nil, List.append_nil]
      refine h.aside haside htraveller fun t ht hway => ?_
      refine (hw.way.others_keep ht hway fun u hu hid => ?_).1
      -- Who holds the way is the one who holds it
      have hsame : u = t := hw.way.eq_of_id (active_subset_tasks w (mem_active_of_mover? hu))
        (active_subset_tasks w ht) hid
      exact hno u hu (hsame ▸ hway)
  | take hfree haside htraveller hmem hgiven hlanded =>
      rw [hgiven, hlanded, List.append_nil]
      cases h with
      | free _ hserial hlen hv hview =>
          exact .take hw₀ hserial hlen hv (hview.trans haside.view.symm) htraveller hmem
      | held _ hheld => cases hfree.symm.trans hheld
  | @go id job others above hmover hseek hgo _ htraveller hkeep heq hgiven hlanded =>
      rw [hgiven, hlanded, List.append_nil, List.append_nil, heq]
      rw [heq] at hkeep
      cases h with
      | free hfree => cases hfree.symm.trans htraveller
      | @held _ _ i job' _ _ _ above' _ hmem hseek' hserial hlen hsolo hview =>
          have hsame : (⟨i, job', above' ++ [.journey]⟩ : Task) = ⟨id, job, above ++ [.journey]⟩ :=
            hw.way.eq_of_holdsWay hmem (mem_active_of_mover? hmover)
              ⟨by simp [Wait.isJourney], hseek'⟩ ⟨by simp [Wait.isJourney], hseek⟩
          obtain ⟨rfl, rfl, habove⟩ := Task.mk.inj hsame
          rw [habove] at hsolo
          exact .go hserial hlen hsolo hview hseek hgo hkeep
  | @land id o hmover htraveller haside hlanded hnext =>
      cases h with
      | free hfree => cases hfree.symm.trans htraveller
      | @held _ _ i job' m ms _ above' _ hmem hseek' hserial hlen hsolo hview =>
          have hsame : (⟨i, job', above' ++ [.journey]⟩ : Task) = ⟨id, .ended o, [.journey]⟩ :=
            hw.way.eq_of_holdsWay hmem (mem_active_of_mover? hmover)
              ⟨by simp [Wait.isJourney], hseek'⟩ ⟨by simp [Wait.isJourney], by simp⟩
          obtain ⟨rfl, rfl, habove⟩ := Task.mk.inj hsame
          rw [habove] at hsolo
          obtain ⟨v', hperforms, hview', hv', -⟩ := hsolo.finish
          -- What was performed is performed now, and the next may begin
          have hdone := OneByOne.more hserial hperforms
          have hzip : (ms ++ [m]).zip (os ++ [o]) = ms.zip os ++ [(m, o)] := List.zip_append hlen
          rw [← hzip] at hdone
          have hlen' : (ms ++ [m]).length = (os ++ [o]).length := by simp [hlen]
          have hseen := hview'.trans (hview.trans haside.view.symm)
          rw [hlanded]
          rcases hnext with ⟨hfree, hgiven⟩ | ⟨j, m', htraveller', hmem', hgiven⟩
          · rw [hgiven, List.append_nil]
            exact .free hfree hdone hlen' hv' hseen
          · rw [hgiven]
            exact .take hw₀ hdone hlen' hv' hseen htraveller' hmem'

/-! ## Calls for the next stop -/

/-- How often it was told that a stop was reached. -/
def arrivals (w : World) : Nat :=
  (w.journal.filterMap Record.notice?).countP Notice.isStepChange

end World

namespace Stage

/-- Where a player stands that stood at `i` and was asked `k` times for the next stop. -/
def advance (s : Stage) (i : Int) (k : Nat) : Int :=
  min (i + k) (s.document.stops.length - 1)

/-- How many of `k` stops after the one at `i` there are. -/
def advances (s : Stage) (i : Int) (k : Nat) : Nat :=
  min k (s.document.stops.length - 1 - i).toNat

end Stage

namespace World

variable {s : Stage} {w w' : World} {c : Choice}

theorem arrivals_of_view (h : w'.view = w.view) : w'.arrivals = w.arrivals := by
  rw [arrivals, arrivals, (view_eq_iff.mp h).1]

theorem position_of_view (h : w'.view = w.view) : w'.position = w.position :=
  (view_eq_iff.mp h).2.2.2.2.2.1

/-- A step tells that a stop was reached when its job does. -/
theorem arrivals_step (s : Stage) (w : World) (id : Nat) (waits : List Wait) (job : Job) :
    (job.step s w id waits).1.arrivals = w.arrivals + job.announces.countP Notice.isStepChange := by
  obtain ⟨records, hjournal, hrecords⟩ := (Job.step_tells s w id waits job).journal
  rw [arrivals, hjournal, List.filterMap_append, List.countP_append, hrecords]
  rfl

/-- After `k` calls for the next stop that were given the way: where the player stands, and how often
it has told so. -/
inductive March (s : Stage) (i : Int) (a : Nat) (w : World) : Nat → Prop where
  /-- Nobody is on the way. -/
  | free {k : Nat} : w.traveller = none → w.position = s.advance i k →
      w.arrivals = a + s.advances i k → March s i a w k
  /-- The last call has not left. -/
  | leaving {k id : Nat} : ⟨id, .depart (.offset 1), [.journey]⟩ ∈ w.active →
      w.position = s.advance i k → w.arrivals = a + s.advances i k → March s i a w (k + 1)
  /-- The last call stays where it is. -/
  | staying {k id : Nat} : ⟨id, .ended .completed, [.journey]⟩ ∈ w.active →
      w.position = s.advance i k → w.arrivals = a + s.advances i k →
      s.document.stops.length ≤ s.advance i k + 1 → March s i a w (k + 1)
  /-- The last call is on its way to the next stop. -/
  | underway {k j id : Nat} {origin : Int} {before : Option ActionError} {l : Logbook} :
      OnLeg s j origin before id [] l w → (j : Int) = s.advance i k + 1 →
      j < s.document.stops.length →
      w.arrivals = a + s.advances i k + l.told.countP Notice.isStepChange → March s i a w (k + 1)

namespace March

variable {t : Task} {i : Int} {a k j : Nat} {origin : Int} {before : Option ActionError} {book : Logbook}

private theorem advance_add_one (hlt : i < s.document.stops.length) :
    (s.document.stops.length ≤ s.advance i k + 1 ∧ s.advance i (k + 1) = s.advance i k ∧
        s.advances i (k + 1) = s.advances i k) ∨
      (s.advance i k + 1 < s.document.stops.length ∧ s.advance i (k + 1) = s.advance i k + 1 ∧
        s.advances i (k + 1) = s.advances i k + 1) := by
  unfold Stage.advance Stage.advances
  omega

/-- Where nobody is on the way all calls that were given it have ended. -/
theorem of_free (h : March s i a w k) (hway : Way w []) (hfree : w.traveller = none) :
    w.position = s.advance i k ∧ w.arrivals = a + s.advances i k := by
  have hnobody : ∀ t ∈ w.active, ¬ t.HoldsWay := by
    intro t ht hholds
    cases hfree.symm.trans (hway.holder t ht hholds)
  cases h with
  | free _ hp ha => exact ⟨hp, ha⟩
  | leaving hmem => exact absurd ⟨rfl, by simp⟩ (hnobody _ hmem)
  | staying hmem => exact absurd ⟨rfl, by simp⟩ (hnobody _ hmem)
  | underway hon =>
      obtain ⟨job, above, hmem, hleg⟩ := hon.leg
      exact absurd ⟨by simp [Wait.isJourney], leg_ne_seek hleg⟩ (hnobody _ hmem)

/-- A choice of other tasks leaves the march where it is. -/
private theorem aside (h : March s i a w k) (hway : Way w []) (hw : w.Aside (w.choose s c))
    (htraveller : (w.choose s c).traveller = w.traveller)
    (hno : ∀ t, w.mover? c = some t → ¬ t.HoldsWay) : March s i a (w.choose s c) k := by
  have hposition := position_of_view hw.view
  have harrivals := arrivals_of_view hw.view
  have hother : ∀ t ∈ w.active, t.HoldsWay → ∀ u, w.mover? c = some u → u.id ≠ t.id := by
    intro t ht htway u hu hid
    have hsame : u = t := hway.eq_of_id (active_subset_tasks w (mem_active_of_mover? hu))
      (active_subset_tasks w ht) hid
    exact hno u hu (hsame ▸ htway)
  cases h with
  | free hfree hp ha =>
      exact .free (htraveller.trans hfree) (hposition.trans hp) (harrivals.trans ha)
  | @leaving k id hmem hp ha =>
      have hholds : Task.HoldsWay ⟨id, .depart (.offset 1), [.journey]⟩ := ⟨rfl, by simp⟩
      exact .leaving (hway.others_keep hmem hholds (hother _ hmem hholds)).1 (hposition.trans hp)
        (harrivals.trans ha)
  | @staying k id hmem hp ha hlast =>
      have hholds : Task.HoldsWay ⟨id, .ended .completed, [.journey]⟩ := ⟨rfl, by simp⟩
      exact .staying (hway.others_keep hmem hholds (hother _ hmem hholds)).1 (hposition.trans hp)
        (harrivals.trans ha) hlast
  | @underway k j id origin before l hon hj hlt ha =>
      obtain ⟨job, above, hmem, hleg⟩ := hon.leg
      have hne := hother _ hmem ⟨by simp [Wait.isJourney], leg_ne_seek hleg⟩
      have hnote : l.noteOf id (w.mover? c) = l := by
        cases hu : w.mover? c with
        | none => rfl
        | some u =>
            simp only [Logbook.noteOf]
            rw [if_neg (hne u hu)]
      have hnext := hon.choose (c := c) hlt fun o u _ hu => hne u hu
      rw [hnote] at hnext
      exact .underway hnext hj hlt (harrivals.trans ha)

private theorem place?_eq_some {index : Int} (h : place? s index = some j) :
    (j : Int) = index ∧ j < s.document.stops.length := by
  unfold place? at h
  split at h
  · rename_i hbounds
    simp only [Bool.and_eq_true, decide_eq_true_eq] at hbounds
    cases h
    omega
  · cases h

private theorem place?_eq_none {index : Int} (h : place? s index = none) (hlow : 0 ≤ index) :
    s.document.stops.length ≤ index := by
  unfold place? at h
  split at h
  · cases h
  · rename_i hbounds
    simp only [Bool.and_eq_true, decide_eq_true_eq, not_and] at hbounds
    omega

/-- What a step announces while its task is on the way gets into the logbook, as far as it is that a
stop was reached. -/
private theorem told_note (hlast : t.TellsLast) :
    (book.note t).told.countP Notice.isStepChange =
      book.told.countP Notice.isStepChange + t.job.announces.countP Notice.isStepChange := by
  simp only [Notice.countP_isStepChange, book.told_note hlast, List.length_append]

/-- A step of the last call that does not end it. -/
private theorem go {id : Nat} {job : Job} {above : List Wait} (h : March s i a w k)
    (hw : Reachable s w)
    (hmover : w.mover? c = some ⟨id, job, above ++ [.journey]⟩) (hseek : ∀ m, job ≠ .seek m)
    (hgo : job.isEnded = true → above ≠ []) (htraveller : w.traveller = some id)
    (hlive : w.destroyed = false) : March s i a (w.choose s c) k := by
  have hmine := mem_active_of_mover? hmover
  have hholds : Task.HoldsWay ⟨id, job, above ++ [.journey]⟩ := ⟨by simp [Wait.isJourney], hseek⟩
  obtain ⟨t, others, ht, hperm, heq⟩ | ⟨hnone, -⟩ | ⟨d, rfl, -⟩ := choose_cases s w c
  · cases hmover.symm.trans ht
    have harrivals : (w.choose s c).arrivals =
        w.arrivals + job.announces.countP Notice.isStepChange := by
      rw [heq, takeTurn_eq, arrivals_of_view (aside_place _ _ _).view, arrivals_step,
        arrivals_of_view (aside_ready w others).view]
    cases h with
    | free hfree => cases hfree.symm.trans htraveller
    | @leaving k i' hmem hp ha =>
        have hsame := hw.way.eq_of_holdsWay hmem hmine ⟨rfl, by simp⟩ hholds
        obtain ⟨rfl, rfl, habove⟩ := Task.mk.inj hsame
        rw [← habove] at heq hmover
        have hsilent : (w.choose s c).arrivals = w.arrivals := harrivals
        cases htarget : w.target? s (.offset 1) with
        | some j =>
            obtain ⟨hj, hlt⟩ := place?_eq_some htarget
            cases c with
            | turn n =>
                refine .underway (OnLeg.start hw hmover hlive htarget) (hp ▸ hj) hlt ?_
                rw [hsilent, ha]
                rfl
            | _ => cases hmover
        | none =>
            -- There is no stop after this one
            have hlow := hw.inBounds.low
            have hlast := place?_eq_none htarget (by omega)
            have hstep : w.choose s c =
                { w with ready := ⟨i', .ended .completed, [.journey]⟩ :: others } := by
              have hnone : ({ w with ready := others } : World).target? s (.offset 1) = none := htarget
              have hstay : World.depart s { w with ready := others } [.journey] (.offset 1) =
                  ({ w with ready := others }, .ended .completed [.journey]) := by
                unfold depart
                rw [if_neg (by simp [hlive]), hnone]
              rw [heq, takeTurn_eq]
              simp only [Job.step, hstay]
              rfl
            refine @March.staying s i a _ k i' ?_ ?_ (hsilent.trans ha) ?_
            · rw [hstep]
              exact List.mem_cons_self
            · rw [hstep]
              exact hp
            · omega
    | @staying k i' hmem hp ha hlast =>
        have hsame := hw.way.eq_of_holdsWay hmem hmine ⟨rfl, by simp⟩ hholds
        obtain ⟨rfl, rfl, habove⟩ := Task.mk.inj hsame
        exact absurd (List.append_eq_singleton_iff.mp habove.symm) (by simp [hgo rfl])
    | @underway k j i' origin before l hon hj hlt ha =>
        obtain ⟨job', above', hmem, hleg⟩ := hon.leg
        have hsame := hw.way.eq_of_holdsWay hmem hmine
          ⟨by simp [Wait.isJourney], leg_ne_seek hleg⟩ hholds
        obtain ⟨rfl, rfl, -⟩ := Task.mk.inj hsame
        have hnext := hon.choose (c := c) hlt fun o u hlanded hu hid => by
          -- Who had landed would not go on
          obtain ⟨ys, hlanded⟩ := hlanded
          have hsame := hw.way.eq_of_holdsWay hlanded hmine ⟨by simp [Wait.isJourney], by simp⟩ hholds
          obtain ⟨-, rfl, hwaits⟩ := Task.mk.inj hsame
          have hstacked := hw.way.stacked _ (active_subset_tasks w hmine)
          exact hstacked.ne_journey rfl (hgo rfl) ys hwaits.symm
        have htells := hw.isPrivate.last _ (active_subset_tasks w hmine)
        refine .underway hnext hj hlt ?_
        rw [hmover, Logbook.noteOf, if_pos rfl, told_note htells, harrivals, ha]
        exact Nat.add_assoc _ _ _
  · cases hmover.symm.trans hnone
  · cases hmover

/-- The last call has landed: the next stop was reached, if there was one. -/
private theorem land {id : Nat} (h : March s i a w (k + 1)) (hw : Reachable s w)
    (hi : i < s.document.stops.length)
    (hmem : ⟨id, .ended .completed, [.journey]⟩ ∈ w.active) (htraveller : w.traveller = some id) :
    w.position = s.advance i (k + 1) ∧ w.arrivals = a + s.advances i (k + 1) := by
  have hholds : Task.HoldsWay ⟨id, .ended .completed, [.journey]⟩ := ⟨rfl, by simp⟩
  have hnext := @advance_add_one s i k hi
  cases h with
  | free hfree => cases hfree.symm.trans htraveller
  | @leaving _ i' hleaving =>
      have hsame := hw.way.eq_of_holdsWay hleaving hmem ⟨rfl, by simp⟩ hholds
      cases hsame
  | staying _ hp ha hlast =>
      constructor
      · omega
      · omega
  | @underway _ j i' origin before l hon hj hlt ha =>
      obtain ⟨job, above, hmem', hleg⟩ := hon.leg
      have hsame := hw.way.eq_of_holdsWay hmem' hmem ⟨by simp [Wait.isJourney], leg_ne_seek hleg⟩
        hholds
      obtain ⟨rfl, rfl, habove⟩ := Task.mk.inj hsame
      obtain ⟨rfl, -⟩ := List.append_eq_singleton_iff.mp habove |>.resolve_right (by simp)
      obtain ⟨-, htold, hposition, -⟩ := landed_of_leg hleg
      -- It was told once, after the failures
      have honce : l.told.countP Notice.isStepChange = 1 := by
        have hsilent : (l.failures.flatMap Notice.ofFailure).countP Notice.isStepChange = 0 :=
          List.countP_eq_zero.mpr fun n hn => by simp [Delivery.ofFailures_silent _ n hn]
        rw [htold, List.countP_append, hsilent]
        rfl
      constructor
      · omega
      · omega

/-- Every choice takes the march one step further. -/
theorem choose (h : March s i a w k) (hw : Reachable s w) (hi : i < s.document.stops.length)
    (hstep : CallStep s w c) (hlive : w.destroyed = false)
    (hgiven : ∀ m ∈ (w.entry s c).given, m = .offset 1)
    (hlanded : ∀ o ∈ (w.entry s c).landed, o = .completed) :
    March s i a (w.choose s c) (k + (w.entry s c).given.length) := by
  cases hstep with
  | aside haside htraveller hno hnone _ =>
      rw [hnone]
      exact h.aside hw.way haside htraveller hno
  | @take id m hfree haside htraveller hmem hone _ =>
      rw [hone] at hgiven ⊢
      cases hgiven m List.mem_cons_self
      obtain ⟨hp, ha⟩ := h.of_free hw.way hfree
      exact .leaving hmem ((position_of_view haside.view).trans hp)
        ((arrivals_of_view haside.view).trans ha)
  | go above hmover hseek hgo _ htraveller _ _ hnone _ =>
      rw [hnone]
      exact h.go hw hmover hseek hgo htraveller hlive
  | @land id o hmover htraveller haside hone hnext =>
      rw [hone] at hlanded
      cases hlanded o List.mem_cons_self
      have hmem := mem_active_of_mover? hmover
      cases k with
      | zero =>
          cases h with
          | free hfree => cases hfree.symm.trans htraveller
      | succ k =>
          obtain ⟨hp, ha⟩ := h.land hw hi hmem htraveller
          have hp' := (position_of_view haside.view).trans hp
          have ha' := (arrivals_of_view haside.view).trans ha
          rcases hnext with ⟨hfree, hnone⟩ | ⟨id', m, htraveller', hmem', hone'⟩
          · rw [hnone]
            exact .free hfree hp' ha'
          · rw [hone'] at hgiven ⊢
            cases hgiven m List.mem_cons_self
            exact .leaving hmem' hp' ha'

end March

/-! ## Calls in any order of turns -/

/-- Timers are not on the way. -/
theorem Way.free_of_idle (hway : Way w []) (hidle : ∀ t ∈ w.tasks, t.IsTimer) :
    w.traveller = none := by
  cases htraveller : w.traveller with
  | none => rfl
  | some i =>
      obtain ⟨t, ht, -, hholds⟩ := hway.held i htraveller
      exact absurd (hidle t (active_subset_tasks w ht)) (not_isTimer_of_holdsWay hholds)

namespace Calls

variable {w₀ : World} {l : Ledger}

theorem inOrder (h : Calls s w₀ l w) (hw₀ : Reachable s w₀) (hidle : ∀ t ∈ w₀.tasks, t.IsTimer) :
    InOrder s w₀ w l.given l.landed := by
  induction h with
  | start =>
      have hfree := hw₀.way.free_of_idle hidle
      exact .free hfree .none rfl hfree rfl
  | next c hcalls hc ih =>
      have hreach := hcalls.reachable hw₀
      exact ih.choose hw₀ hreach ((hcalls.crew hidle).callStep hreach.way hc)

/-- Calls for the next stop go from stop to stop. -/
theorem march (h : Calls s w₀ l w) (hw₀ : Reachable s w₀) (hidle : ∀ t ∈ w₀.tasks, t.IsTimer)
    (hnext : ∀ m ∈ l.asked, m = .offset 1) (hwhole : ∀ o ∈ l.landed, o = .completed)
    (hlive : w.destroyed = false) : March s w₀.position w₀.arrivals w l.given.length := by
  have hhigh := hw₀.inBounds.high
  induction h with
  | start =>
      refine .free (hw₀.way.free_of_idle hidle) ?_ ?_
      · simp only [List.length_nil, Stage.advance]
        omega
      · simp [Stage.advances]
  | @next v l c hcalls hc ih =>
      have hreach := hcalls.reachable hw₀
      have hv : v.destroyed = false := by
        cases hd : v.destroyed with
        | false => rfl
        | true => cases hlive.symm.trans (destroyed_choose hd)
      have hmarch := ih (fun m hm => hnext m (List.mem_append_left _ hm))
        (fun o ho => hwhole o (List.mem_append_left _ ho)) hv
      -- Who is given the way has asked for it
      have hperm := (Calls.next c hcalls hc).perm hw₀ hidle
      rw [Ledger.given_append, List.length_append]
      refine hmarch.choose hreach hhigh ((hcalls.crew hidle).callStep hreach.way hc) hv ?_
        fun o ho => hwhole o (List.mem_append_right _ ho)
      intro m hm
      refine hnext m (hperm.mem_iff.mpr (List.mem_append_left _ ?_))
      exact List.mem_append_right _ hm

end Calls

/-- In a choice only the task on the way does what can be seen, and it keeps the way until it has
landed. -/
def Orderly (s : Stage) (w : World) (c : Choice) : Prop :=
  w.Aside (w.choose s c) ∧ ((w.choose s c).traveller = w.traveller ∨ w.traveller = none) ∨
    ∃ t, w.mover? c = some t ∧ t.HoldsWay ∧ w.traveller = some t.id ∧
      ((w.choose s c).traveller = w.traveller ∨
        w.Aside (w.choose s c) ∧ ∃ o, t.job = .ended o ∧ t.waits = [.journey])

private theorem CallStep.orderly (h : CallStep s w c) : w.Orderly s c := by
  cases h with
  | aside haside hkeep => exact .inl ⟨haside, .inl hkeep⟩
  | take hfree haside => exact .inl ⟨haside, .inr hfree⟩
  | go above hmover hseek _ _ htraveller hkeep =>
      refine .inr ⟨_, hmover, ⟨by simp [Wait.isJourney], hseek⟩, htraveller, .inl ?_⟩
      exact hkeep.trans htraveller.symm
  | land hmover htraveller haside =>
      exact .inr ⟨_, hmover, ⟨rfl, by simp⟩, htraveller, .inr ⟨haside, _, rfl, rfl⟩⟩

/-- Moves that are asked for from outside or by actions, while tasks take turns in any order, take
effect one after another.  Only the task on the way does what can be seen.  What can be seen is what
could be seen if the moves had been performed one by one, in the order in which they were given the
way; when all tasks have ended these are all the moves that were asked for.  So `n` calls for the
next stop, none of which is given up, lead `n` stops further, or to the last one, and each stop on
the way is told once. -/
theorem calls_take_effect_in_order {w₀ : World} {l : Ledger} (hw₀ : Reachable s w₀)
    (hidle : ∀ t ∈ w₀.tasks, t.IsTimer) (h : Calls s w₀ l w) :
    (∀ c, w.isCall c = true → w.Orderly s c) ∧
      InOrder s w₀ w l.given l.landed ∧
      ((∀ t ∈ w.tasks, t.IsTimer) → w.traveller = none ∧ l.given.Perm l.asked ∧
        ∀ n, l.asked = List.replicate n (.offset 1) → (∀ o ∈ l.landed, o = .completed) →
          w.destroyed = false →
          w.position = min (w₀.position + n) (s.document.stops.length - 1) ∧
            w.arrivals = w₀.arrivals + min n (s.document.stops.length - 1 - w₀.position).toNat) := by
  have hreach := h.reachable hw₀
  refine ⟨fun c hc => ((h.crew hidle).callStep hreach.way hc).orderly, h.inOrder hw₀ hidle, ?_⟩
  intro hdone
  have hfree := hreach.way.free_of_idle hdone
  have hperm : l.given.Perm l.asked := by
    have hall := h.perm hw₀ hidle
    rw [Calls.waiting_of_idle hdone, List.append_nil] at hall
    exact hall.symm
  refine ⟨hfree, hperm, fun n hn hwhole hlive => ?_⟩
  have hmarch := h.march hw₀ hidle (fun m hm => List.eq_of_mem_replicate (hn ▸ hm)) hwhole hlive
  have hlen : l.given.length = n := by rw [hperm.length_eq, hn, List.length_replicate]
  rw [hlen] at hmarch
  exact hmarch.of_free hreach.way hfree

end World

/-- A tour of two stops without actions. -/
def Stage.stroll : Stage where
  document := ⟨[⟨"a", none, [], [], none, []⟩, ⟨"b", none, [], [], none, []⟩], [], none, []⟩
  config := { settleFrames := 0 }

/-- The player of `Stage.stroll` goes to the first stop. -/
def untilStroll : List Choice :=
  .ask (.move (.index 0)) :: List.replicate 18 (.turn 0)

/-- Two calls for the next stop; the second one queues while the first one is on its way. -/
def strolling : List Choice :=
  [.ask (.move (.offset 1)), .ask (.move (.offset 1)), .turn 0, .turn 0, .yield 0, .turn 0, .turn 0] ++
    List.replicate 20 (.turn 0)

namespace World

/-- On `Stage.stroll` two calls for the next stop, made at the first stop without waiting, lead to the
second, which is told once. -/
theorem stroll_takes_effect_in_order : ∃ w₀ w : World, w₀.position = 0 ∧
    (∃ l, Calls .stroll w₀ l w ∧ l.asked = [.offset 1, .offset 1]) ∧ w.position = 1 ∧
    w.arrivals = w₀.arrivals + 1 := by
  have hreach : Reachable .stroll (follow .stroll {} untilStroll) := ⟨_, rfl⟩
  have hidle : (follow .stroll {} untilStroll).tasks = [] :=
    List.isEmpty_iff.mp (by decide +kernel)
  have hcalls : Calls .stroll (follow .stroll {} untilStroll)
      ((follow .stroll {} untilStroll).ledger .stroll strolling)
      ((follow .stroll {} untilStroll).follow .stroll strolling) := by
    have hfollow := @Calls.follow .stroll (follow .stroll {} untilStroll) strolling _ _ .start
      (by decide +kernel)
    rwa [Ledger.nil_append] at hfollow
  have hdone : ((follow .stroll {} untilStroll).follow .stroll strolling).tasks = [] :=
    List.isEmpty_iff.mp (by decide +kernel)
  have hall := (calls_take_effect_in_order hreach (by simp [hidle]) hcalls).2.2 (by simp [hdone])
  have hfirst : (follow .stroll {} untilStroll).position = 0 := by decide +kernel
  have hasked : ((follow .stroll {} untilStroll).ledger .stroll strolling).asked =
      List.replicate 2 (.offset 1) := by decide +kernel
  have hwhole : ∀ o ∈ ((follow .stroll {} untilStroll).ledger .stroll strolling).landed,
      o = .completed := by decide +kernel
  have hlive : ((follow .stroll {} untilStroll).follow .stroll strolling).destroyed = false := by
    decide +kernel
  obtain ⟨hposition, harrivals⟩ := hall.2.2 2 hasked hwhole hlive
  have hlast : min ((0 : Int) + (2 : Nat)) (Stage.stroll.document.stops.length - 1) = 1 := by decide
  have honce : min 2 ((Stage.stroll.document.stops.length : Int) - 1 - 0).toNat = 1 := by decide
  rw [hfirst, hlast] at hposition
  rw [hfirst, honce] at harrivals
  exact ⟨_, _, hfirst, ⟨_, hcalls, hasked⟩, hposition, harrivals⟩

end World

end DiagramTour
