import DiagramTour.Proofs.Playback.Parts

/-!
# What a player remembers

While nobody is on the way to a stop, a player stands where it has said last that it stands, and the
failure it tells is the last one of the actions of a stop, in the last transition that came to an end
of its own.  What was told and what is remembered are written at different moments, and whatever else
runs meanwhile may fail as well; so both are tied to the history of the player.

## Architecture

- A `Chronicle` is the history of the transitions of a schedule: the one on its way, and the last one
  that reached its stop or gave it up.
- `World.stopsTold` are the states that were announced, one for each stop that was reached.
- `World.Recalls` ties a world to its chronicle, and `Recalls.choose` keeps it.
- `World.position_truthful` says what follows for every schedule.
-/

namespace DiagramTour

/-! ## Chronicles -/

/-- The history of the transitions of a schedule.  A transition is known by the place of the stop that
it left for, and by its logbook. -/
structure Chronicle where
  /-- The transition that has left, and has not given the way on. -/
  current : Option (Nat × Logbook) := none
  /-- The last transition that reached its stop, or gave it up because an action of it failed. -/
  last : Option (Nat × Logbook) := none

namespace Chronicle

/-- The last failure of an action of a stop in the last transition. -/
def error (k : Chronicle) : Option ActionError :=
  k.last.bind fun entry => entry.2.failures.getLast?

/-- Notes that a task on the way ends its move.  What breaks off leaves no trace, and a move that led
nowhere has been no transition. -/
def close (k : Chronicle) : Outcome → Chronicle
  | .completed | .failed _ => ⟨none, k.current.or k.last⟩
  | _ => { k with current := none }

/-- Notes a step that the task on the way is about to take. -/
def note (s : Stage) (k : Chronicle) (w : World) (t : Task) : Chronicle :=
  match t.job, t.waits with
  | .depart m, _ =>
    match if w.destroyed then none else w.target? s m with
    | some j => { k with current := some (j, {}) }
    | none => k
  | .ended o, .journey :: _ => k.close o
  | _, _ => { k with current := k.current.map fun entry => (entry.1, entry.2.note t) }

/-- Notes a choice, if the task on the way takes a step in it. -/
def noteOf (s : Stage) (k : Chronicle) (w : World) (c : Choice) : Chronicle :=
  match w.mover? c with
  | some t => if w.traveller = some t.id then k.note s w t else k
  | none => k

/-- Notes the choices of a schedule. -/
def follow (s : Stage) : Chronicle → World → List Choice → Chronicle
  | k, _, [] => k
  | k, w, c :: cs => follow s (k.noteOf s w c) (w.choose s c) cs

end Chronicle

/-! ## Tasks that have not left -/

/-- A task that has the way for a move and has not left, or had nowhere to go. -/
def Task.IsAtRest (t : Task) : Prop :=
  ∃ ys, t.waits = .journey :: ys ∧ ((∃ m, t.job = .depart m) ∨ t.job = .ended .completed)

/-- The last announcement that a stop was reached stands above the way. -/
theorem Task.Stacked.holdsWay_of_concluded {t : Task} (h : t.Stacked) {o : Outcome} {ys : List Wait}
    (hwaits : t.waits = .concluded o :: ys) : t.HoldsWay := by
  have hlegs := h.legs
  rw [hwaits] at hlegs
  obtain ⟨zs, rfl⟩ := hlegs.1 rfl
  refine ⟨by simp [hwaits, Wait.isJourney], fun m hm => ?_⟩
  obtain ⟨zs, hzs⟩ := h.job (by rw [hm]; rfl)
  rw [hwaits] at hzs
  cases hzs

namespace World

variable {s : Stage} {w : World} {t : Task} {c : Choice} {k : Chronicle} {j id : Nat} {ys : List Wait}
  {l : Logbook} {origin : Int} {before : Option ActionError}

/-- Who is the traveller holds the way. -/
theorem Way.holdsWay_of_traveller (h : Way w []) (ht : t ∈ w.active)
    (htraveller : w.traveller = some t.id) : t.HoldsWay := by
  obtain ⟨u, hu, hid, hway⟩ := h.held t.id htraveller
  exact h.eq_of_id (active_subset_tasks w hu) (active_subset_tasks w ht) hid ▸ hway

/-- After a choice whoever has the way is at rest, if this was so before but for a task that gives the
way on, and if nobody leaves. -/
theorem isAtRest_choose (hw : Reachable s w)
    (hrest : ∀ t ∈ w.active, t.HoldsWay → t.IsAtRest ∨
      w.mover? c = some t ∧ ∃ o ys, t.job = .ended o ∧ t.waits = .journey :: ys)
    (hstay : ∀ t m, w.mover? c = some t → t.job = .depart m →
      w.destroyed = true ∨ w.target? s m = none) :
    ∀ t ∈ (w.choose s c).active, t.HoldsWay → t.IsAtRest := by
  intro t' ht' hholds
  have hway := hw.way
  cases hway.toNumbered.comes (active_subset_tasks _ ht') with
  | stays hold hother =>
      rcases List.mem_append.mp hold with hactive | hqueue
      · rcases hrest t' hactive hholds with h | ⟨hmover, -⟩
        · exact h
        · exact absurd rfl (hother t' hmover)
      · obtain ⟨m, ys, hjob, hwaits⟩ := hway.queued t' hqueue
        exact ⟨ys, hwaits, .inl ⟨m, hjob⟩⟩
  | @steps t others hmover hperm hstep =>
      have hmem := mem_active_of_mover? hmover
      have hstacked := hway.stacked t (active_subset_tasks w hmem)
      by_cases hseek : ∃ m, t.job = .seek m
      · -- Who seeks the way is about to leave in any case
        obtain ⟨id, job, waits⟩ := t
        obtain ⟨m, rfl⟩ := hseek
        obtain ⟨ys, rfl⟩ := hstacked.job rfl
        simp only [Job.step, seek] at hstep
        split at hstep <;> cases hstep <;> exact ⟨ys, rfl, .inl ⟨m, rfl⟩⟩
      · by_cases hend : ∃ o ys, t.job = .ended o ∧ t.waits = .journey :: ys
        · -- Who gives the way on has no other one
          obtain ⟨id, job, waits⟩ := t
          obtain ⟨o, ys, rfl, rfl⟩ := hend
          cases hstep
          have honce := hstacked.once
          have hmore : 0 < ys.countP Wait.isJourney := by
            obtain ⟨x, hx, hjourney⟩ := List.any_eq_true.mp hholds.journey
            exact List.countP_pos_iff.mpr ⟨x, hx, hjourney⟩
          rw [List.countP_cons_of_pos rfl] at honce
          omega
        · have hseek' : ∀ m, t.job ≠ .seek m := fun m hm => hseek ⟨m, hm⟩
          have hend' : ∀ o ys, t.job = .ended o → t.waits ≠ .journey :: ys :=
            fun o ys hjob hwaits => hend ⟨o, ys, hjob, hwaits⟩
          have hbefore := ((Task.holdsWay_step_iff (s := s) (w := { w with ready := others }) hseek'
            hend').2.1 t' hstep).mp hholds
          rcases hrest t hmem hbefore with ⟨ys, hwaits, ⟨m, hjob⟩ | hjob⟩ | ⟨-, o, ys, hjob, hwaits⟩
          · -- Who would leave goes nowhere
            have hnone : (t.job.step s { w with ready := others } t.id t.waits).2 =
                .ended .completed t.waits := by
              rw [hjob]
              simp only [Job.step, depart]
              rcases hstay t m hmover hjob with hend | htarget
              · rw [if_pos hend]
              · split
                · rfl
                · rw [show ({ w with ready := others } : World).target? s m = none from htarget]
            rw [hnone] at hstep
            cases hstep
            exact ⟨ys, hwaits, .inr rfl⟩
          · exact absurd hwaits (hend' _ ys hjob)
          · exact absurd hwaits (hend' _ ys hjob)
  | starts _ hfresh =>
      generalize hjob : Task.job _ = job at hfresh
      cases hfresh with
      | move => exact absurd rfl (hholds.job _)
      | reaction => simpa [Wait.isJourney] using hholds.journey
      | timer => simpa using hholds.journey
  | asked _ _ hnew =>
      subst hnew
      simpa using hholds.journey

/-! ## What was told -/

/-- The states that were announced, one for each stop that was reached. -/
def stopsTold (w : World) : List PlayerState :=
  (w.journal.filterMap Record.notice?).filterMap Notice.state?

/-- The place of the stop in the last of some states; -1 where there is none. -/
def lastPlace (states : List PlayerState) : Int :=
  (states.getLast?.map PlayerState.stopIndex).getD (-1)

theorem lastPlace_concat (states : List PlayerState) (state : PlayerState) :
    lastPlace (states ++ [state]) = state.stopIndex := by
  simp [lastPlace]

/-- In a choice it is told that a stop was reached where the job of the task says so. -/
theorem stopsTold_choose (s : Stage) (w : World) (c : Choice) :
    (w.choose s c).stopsTold = w.stopsTold ++
      ((w.mover? c).toList.flatMap fun t => t.job.announces).filterMap Notice.state? := by
  obtain ⟨t, others, hmover, -, heq⟩ | ⟨hnone, hw⟩ | ⟨d, rfl, heq⟩ := choose_cases s w c
  · obtain ⟨records, hjournal, hrecords⟩ :=
      (Job.step_tells s { w with ready := others } t.id t.waits t.job).journal
    have hplace : ∀ (w : World) (id : Nat) (turn : Turn), (w.place id turn).journal = w.journal := by
      intro w id turn
      unfold place
      split <;> rfl
    rw [heq, takeTurn_eq, stopsTold, hplace, hjournal, List.filterMap_append, List.filterMap_append,
      hrecords, hmover]
    simp [stopsTold]
  · obtain ⟨_, _, _, _, heq⟩ := hw.eq
    rw [heq, hnone]
    simp [stopsTold]
  · have hjournal : (w.ask d).journal = w.journal := by
      cases d with
      | subscribe label topic responses =>
          simp only [ask]
          split <;> rfl
      | destroy => exact w.destroy_tells.1
      | _ => rfl
    rw [heq, stopsTold, hjournal]
    simp [stopsTold, mover?]

/-- Nobody but who has the way tells that a stop was reached. -/
theorem stopsTold_of_not_holdsWay (hw : Reachable s w)
    (hno : ∀ t, w.mover? c = some t → ¬ t.HoldsWay) : (w.choose s c).stopsTold = w.stopsTold := by
  rw [stopsTold_choose]
  cases hmover : w.mover? c with
  | none => simp
  | some t =>
      have hmem := active_subset_tasks w (mem_active_of_mover? hmover)
      have hsilent := (hw.isPrivate.last t hmem).silent fun o ys hwaits =>
        hno t hmover ((hw.way.stacked t hmem).holdsWay_of_concluded hwaits)
      simp [hsilent]

/-- Where the player stands changes only when the task of a choice reaches a stop or gives one up. -/
theorem standing_choose (hno : ∀ t, w.mover? c = some t → ∀ o x xs, t.job = .ended o →
      t.waits = x :: xs → (∀ j es, x ≠ .arrived j es) ∧ ∀ j, x ≠ .entered j) :
    (w.choose s c).position = w.position ∧ (w.choose s c).error = w.error := by
  obtain ⟨t, others, hmover, -, heq⟩ | ⟨-, hw⟩ | ⟨d, -, heq⟩ := choose_cases s w c
  · obtain ⟨hposition, herror⟩ := position_effect (hno t hmover)
      (Job.step_effect s { w with ready := others } t.id t.waits t.job)
    rw [heq, takeTurn_eq, (position_place _ _ _).1, (position_place _ _ _).2]
    exact ⟨hposition, herror⟩
  · obtain ⟨_, _, _, _, heq⟩ := hw.eq
    rw [heq]
    exact ⟨rfl, rfl⟩
  · rw [heq]
    exact position_ask w d

/-- Who does not have the way is at no part of it. -/
theorem standing_of_not_holdsWay (hw : Reachable s w)
    (hno : ∀ t, w.mover? c = some t → ¬ t.HoldsWay) :
    (w.choose s c).position = w.position ∧ (w.choose s c).error = w.error := by
  refine standing_choose fun t hmover o x xs hjob hwaits => ?_
  have hmem := active_subset_tasks w (mem_active_of_mover? hmover)
  have hlegs := (hw.way.stacked t hmem).legs
  rw [hwaits] at hlegs
  have hleg : x.isLeg = true → False := by
    intro hx
    obtain ⟨ys, rfl⟩ := hlegs.1 hx
    exact hno t hmover ⟨by simp [hwaits, Wait.isJourney], by simp [hjob]⟩
  constructor
  · rintro j es rfl
    exact hleg rfl
  · rintro j rfl
    exact hleg rfl

/-! ## What is remembered -/

/-- A transition that came to an end of its own: all actions of its stop were carried out, or one of
them failed and was the last. -/
def Chronicled (s : Stage) (entry : Nat × Logbook) : Prop :=
  entry.1 < s.document.stops.length ∧
    (entry.2.IsWhole s entry.1 ∨ ∃ e, entry.2.IsCut s entry.1 (.failed e))

/-- How a world and its chronicle belong together. -/
inductive Recalls (s : Stage) (w : World) : Chronicle → Prop where
  /-- Nobody has left for a stop. -/
  | resting {last : Option (Nat × Logbook)} : (∀ t ∈ w.active, t.HoldsWay → t.IsAtRest) →
      w.position = lastPlace w.stopsTold → w.error = Chronicle.error ⟨none, last⟩ →
      (∀ entry ∈ last, Chronicled s entry) → Recalls s w ⟨none, last⟩
  /-- A transition is on its way; `past` is what was told before it. -/
  | underway {j id : Nat} {ys : List Wait} {l : Logbook} {origin : Int}
      {before : Option ActionError} {past : List PlayerState} {last : Option (Nat × Logbook)} :
      OnLeg s j origin before id ys l w → j < s.document.stops.length →
      w.stopsTold = past ++ l.told.filterMap Notice.state? → origin = lastPlace past →
      before = Chronicle.error ⟨none, last⟩ → (∀ entry ∈ last, Chronicled s entry) →
      Recalls s w ⟨some (j, l), last⟩

namespace Recalls

/-- A choice in which the task on the way takes no step leaves the chronicle as it is. -/
private theorem noteOf_of_not_holdsWay (hw : Reachable s w)
    (hno : ∀ t, w.mover? c = some t → ¬ t.HoldsWay) : k.noteOf s w c = k := by
  unfold Chronicle.noteOf
  cases hmover : w.mover? c with
  | none => rfl
  | some t =>
      have hmem := mem_active_of_mover? hmover
      exact if_neg fun htraveller =>
        hno t hmover (hw.way.holdsWay_of_traveller hmem htraveller)

/-- A choice of the task on the way is noted. -/
private theorem noteOf_of_holdsWay (hw : Reachable s w) (hmover : w.mover? c = some t)
    (hholds : t.HoldsWay) : k.noteOf s w c = k.note s w t := by
  have htraveller := hw.way.holder t (mem_active_of_mover? hmover) hholds
  simp [Chronicle.noteOf, hmover, htraveller]

/-- A step of a task that has the way and has not left. -/
private theorem choose_resting {last : Option (Nat × Logbook)} (hw : Reachable s w)
    (hrest : ∀ t ∈ w.active, t.HoldsWay → t.IsAtRest) (hplace : w.position = lastPlace w.stopsTold)
    (herror : w.error = Chronicle.error ⟨none, last⟩) (hlast : ∀ entry ∈ last, Chronicled s entry)
    (hmover : w.mover? c = some t) (hholds : t.HoldsWay) :
    Recalls s (w.choose s c) (Chronicle.note s ⟨none, last⟩ w t) := by
  have hmem := mem_active_of_mover? hmover
  obtain ⟨ys, hwaits, hjob⟩ := hrest t hmem hholds
  have hsilent : (w.choose s c).stopsTold = w.stopsTold := by
    rw [stopsTold_choose, hmover]
    rcases hjob with ⟨m, hjob⟩ | hjob <;> simp [hjob, Job.announces]
  obtain ⟨hposition, herror'⟩ : (w.choose s c).position = w.position ∧
      (w.choose s c).error = w.error := by
    refine standing_choose fun u hu o x xs hended hxs => ?_
    cases hmover.symm.trans hu
    cases hwaits.symm.trans hxs
    exact ⟨by simp, by simp⟩
  have hstays : (∀ u m, w.mover? c = some u → u.job = .depart m →
      w.destroyed = true ∨ w.target? s m = none) → Recalls s (w.choose s c) ⟨none, last⟩ := by
    intro hstay
    refine .resting (isAtRest_choose hw (fun u hu hway => .inl (hrest u hu hway)) hstay) ?_
      (herror'.trans herror) hlast
    rw [hposition, hsilent, hplace]
  obtain ⟨id, job, waits⟩ := t
  subst hwaits
  rcases hjob with ⟨m, rfl⟩ | rfl
  · simp only [Chronicle.note]
    cases htarget : (if w.destroyed then none else w.target? s m) with
    | none =>
        refine hstays fun u m' hu hjob => ?_
        cases hmover.symm.trans hu
        cases hjob
        split at htarget
        · exact .inl ‹_›
        · exact .inr htarget
    | some j =>
        -- The task leaves for a stop
        split at htarget
        · cases htarget
        · rename_i hlive
          cases c with
          | turn i =>
              refine .underway (OnLeg.start hw hmover (by simpa using hlive) htarget)
                (target?_lt htarget) ?_ hplace herror hlast
              rw [hsilent]
              simp
          | _ => cases hmover
  · refine hstays fun u m hu hjob => ?_
    cases hmover.symm.trans hu
    cases hjob

/-- The task of a transition that has landed gives the way on. -/
private theorem choose_landed {past : List PlayerState} {last : Option (Nat × Logbook)} {o : Outcome}
    (hw : Reachable s w) (hj : j < s.document.stops.length)
    (htold : w.stopsTold = past ++ l.told.filterMap Notice.state?) (horigin : origin = lastPlace past)
    (hbefore : before = Chronicle.error ⟨none, last⟩) (hlast : ∀ entry ∈ last, Chronicled s entry)
    (hlanded : Landed s j origin before l w o)
    (hmover : w.mover? c = some ⟨id, .ended o, .journey :: ys⟩) :
    Recalls s (w.choose s c) (Chronicle.close ⟨some (j, l), last⟩ o) := by
  have hmem := mem_active_of_mover? hmover
  have hholds : Task.HoldsWay ⟨id, .ended o, .journey :: ys⟩ := ⟨by simp [Wait.isJourney], by simp⟩
  have hrest : ∀ t ∈ (w.choose s c).active, t.HoldsWay → t.IsAtRest := by
    refine isAtRest_choose hw (fun u hu hway => .inr ?_) fun u m hu hjob => ?_
    · cases hw.way.eq_of_holdsWay hu hmem hway hholds
      exact ⟨hmover, o, ys, rfl, rfl⟩
    · cases hmover.symm.trans hu
      cases hjob
  have hsilent : (w.choose s c).stopsTold = w.stopsTold := by
    rw [stopsTold_choose, hmover]
    simp [Job.announces]
  obtain ⟨hposition, herror⟩ : (w.choose s c).position = w.position ∧
      (w.choose s c).error = w.error := by
    refine standing_choose fun u hu o' x xs _ hxs => ?_
    cases hmover.symm.trans hu
    cases hxs
    exact ⟨by simp, by simp⟩
  cases o with
  | completed =>
      obtain ⟨hwhole, htells, hstands, hfails⟩ := hlanded
      refine .resting hrest ?_ (herror.trans hfails) ?_
      · rw [hposition, hsilent, htold, htells, List.filterMap_append, Delivery.ofFailures_state?]
        exact hstands.trans (lastPlace_concat past (s.arrival j l.failures.getLast?)).symm
      · rintro entry ⟨⟩
        exact ⟨hj, .inl hwhole⟩
  | failed e =>
      obtain ⟨hcut, htells, hstands, hfails⟩ := hlanded
      have hnone : l.told.filterMap Notice.state? = [] := by
        rw [htells]
        rfl
      refine .resting hrest ?_ ?_ ?_
      · rw [hposition, hsilent, htold, hnone, List.append_nil, hstands, horigin]
      · rw [herror, hfails]
        simp [Chronicle.error, hcut.failures]
      · rintro entry ⟨⟩
        exact ⟨hj, .inr ⟨e, hcut⟩⟩
  | crashed c =>
      obtain ⟨-, htells, hstands, hfails⟩ := hlanded
      have hnone : l.told.filterMap Notice.state? = [] := by
        rw [htells]
        rfl
      refine .resting hrest ?_ ?_ hlast
      · rw [hposition, hsilent, htold, hnone, List.append_nil, hstands, horigin]
      · rw [herror, hfails, hbefore]
  | collected es => cases hlanded
  | counted n => cases hlanded

/-- Every choice takes the chronicle along. -/
theorem choose (h : Recalls s w k) (hw : Reachable s w) :
    Recalls s (w.choose s c) (k.noteOf s w c) := by
  by_cases hmine : ∃ t, w.mover? c = some t ∧ t.HoldsWay
  · obtain ⟨t, hmover, hholds⟩ := hmine
    have hmem := mem_active_of_mover? hmover
    rw [noteOf_of_holdsWay hw hmover hholds]
    cases h with
    | resting hrest hplace herror hlast =>
        exact choose_resting hw hrest hplace herror hlast hmover hholds
    | @underway j id ys l origin before past last hon hj htold horigin hbefore hlast =>
        obtain ⟨job, above, hactive, hleg⟩ := hon.leg
        have hsame := hw.way.eq_of_holdsWay hmem hactive hholds
          ⟨by simp [Wait.isJourney], leg_ne_seek hleg⟩
        subst hsame
        by_cases hended : job.isEnded = true ∧ above = []
        · obtain ⟨hjob, rfl⟩ := hended
          obtain ⟨o, rfl⟩ := Job.eq_ended hjob
          exact choose_landed hw hj htold horigin hbefore hlast (landed_of_leg hleg) hmover
        · -- The transition goes on
          have hgo : ∀ o zs, job = .ended o → above ++ .journey :: ys ≠ .journey :: zs := by
            rintro o zs rfl
            exact (hw.way.stacked _ (active_subset_tasks w hactive)).ne_journey
              (by simp [Wait.isJourney]) (fun habove => hended ⟨rfl, habove⟩) zs
          have hnote : Chronicle.note s ⟨some (j, l), last⟩ w ⟨id, job, above ++ .journey :: ys⟩ =
              ⟨some (j, l.note ⟨id, job, above ++ .journey :: ys⟩), last⟩ := by
            unfold Chronicle.note
            split
            · rename_i hjob
              exact absurd hjob (leg_ne_depart hleg _)
            · rename_i hjob hwaits
              exact absurd hwaits (hgo _ _ hjob)
            · rfl
          have hnext := hon.choose (c := c) hj fun o u hlanded hu hid => by
            obtain ⟨zs, hlanded⟩ := hlanded
            have hsame := hw.way.eq_of_holdsWay hlanded hactive ⟨by simp [Wait.isJourney], by simp⟩
              hholds
            obtain ⟨-, rfl, hwaits⟩ := Task.mk.inj hsame
            exact hgo o zs rfl hwaits.symm
          rw [hmover, Logbook.noteOf, if_pos rfl] at hnext
          rw [hnote]
          have htold' : (w.choose s c).stopsTold = past ++
              (l.note ⟨id, job, above ++ .journey :: ys⟩).told.filterMap Notice.state? := by
            have htells := hw.isPrivate.last _ (active_subset_tasks w hactive)
            rw [stopsTold_choose, htold, hmover, Logbook.told_note htells]
            simp
          exact .underway hnext hj htold' horigin hbefore hlast
  · -- Others change neither where the player stands nor what was told of it
    have hno : ∀ t, w.mover? c = some t → ¬ t.HoldsWay := fun t ht hway => hmine ⟨t, ht, hway⟩
    have hsilent := stopsTold_of_not_holdsWay hw hno
    obtain ⟨hposition, herror'⟩ := standing_of_not_holdsWay hw hno
    rw [noteOf_of_not_holdsWay hw hno]
    cases h with
    | resting hrest hplace herror hlast =>
        refine .resting (isAtRest_choose hw (fun u hu hway => .inl (hrest u hu hway)) ?_) ?_
          (herror'.trans herror) hlast
        · intro u m hu hjob
          have hmem := active_subset_tasks w (mem_active_of_mover? hu)
          obtain ⟨ys, hwaits⟩ := (hw.way.stacked u hmem).job (by rw [hjob]; rfl)
          exact absurd ⟨by simp [hwaits, Wait.isJourney], by simp [hjob]⟩ (hno u hu)
        · rw [hposition, hsilent, hplace]
    | @underway j id ys l origin before past last hon hj htold horigin hbefore hlast =>
        obtain ⟨job, above, hactive, hleg⟩ := hon.leg
        have hother : ∀ u, w.mover? c = some u → u.id ≠ id := by
          intro u hu hid
          have hsame := hw.way.eq_of_id (active_subset_tasks w (mem_active_of_mover? hu))
            (active_subset_tasks w hactive) hid
          subst hsame
          exact hno _ hu ⟨by simp [Wait.isJourney], leg_ne_seek hleg⟩
        have hnote : l.noteOf id (w.mover? c) = l := by
          cases hu : w.mover? c with
          | none => rfl
          | some u => exact if_neg (hother u hu)
        have hnext := hon.choose (c := c) hj fun o u _ hu => hother u hu
        rw [hnote] at hnext
        exact .underway hnext hj (hsilent.trans htold) horigin hbefore hlast

/-- Every schedule takes the chronicle along. -/
theorem follow : ∀ (cs : List Choice) {w : World} {k : Chronicle}, Recalls s w k → Reachable s w →
    Recalls s (w.follow s cs) (k.follow s w cs)
  | [], _, _, h, _ => h
  | c :: cs, _, _, h, hw => follow cs (h.choose hw) (hw.choose c)

end Recalls

/-- In every world that can be reached the chronicle of the schedule tells what is remembered. -/
theorem recalls_chronicle (s : Stage) (cs : List Choice) :
    Recalls s (World.follow s {} cs) (Chronicle.follow s {} {} cs) := by
  refine Recalls.follow cs (.resting ?_ rfl rfl ?_) .initial
  · simp [active]
  · simp

/-! ## Where the player stands -/

/-- No transition is on its way: whoever has the way has not left yet. -/
def IsStill (w : World) : Prop :=
  ∀ t ∈ w.active, t.HoldsWay → ∃ m, t.job = .depart m

/-- Where nobody has left, what was told last and what is remembered hold. -/
theorem Recalls.of_isStill (h : Recalls s w k) (hstill : w.IsStill) :
    w.position = lastPlace w.stopsTold ∧ w.error = k.error ∧ ∀ entry ∈ k.last, Chronicled s entry := by
  cases h with
  | resting _ hplace herror hlast => exact ⟨hplace, herror, hlast⟩
  | underway hon =>
      -- Who is on a leg has left
      obtain ⟨job, above, hmem, hleg⟩ := hon.leg
      obtain ⟨m, hm⟩ := hstill _ hmem ⟨by simp [Wait.isJourney], leg_ne_seek hleg⟩
      exact absurd hm (leg_ne_depart hleg m)

/-- A choice leaves the player where it is, or takes it to a stop. -/
theorem position_choose_nonneg (s : Stage) (w : World) (c : Choice) (h : 0 ≤ w.position) :
    0 ≤ (w.choose s c).position := by
  obtain ⟨t, others, -, -, heq⟩ | ⟨-, hw⟩ | ⟨d, -, heq⟩ := choose_cases s w c
  · rw [heq, takeTurn_eq, (position_place _ _ _).1]
    obtain ⟨hsame, -⟩ | ⟨o, j, es, ys, -, -, harrive⟩ | ⟨o, j, ys, -, -, hsame⟩ :=
      position_cases (Job.step_effect s { w with ready := others } t.id t.waits t.job)
    · rw [hsame]
      exact h
    · rw [harrive]
      exact Int.natCast_nonneg j
    · rw [hsame]
      exact h
  · obtain ⟨_, _, _, _, heq⟩ := hw.eq
    rw [heq]
    exact h
  · rw [heq, (position_ask w d).1]
    exact h

/-- Whoever looks at a player sees it before the first stop or at a stop of its document, under the id
of that very stop. -/
theorem Reachable.state_cases (hw : Reachable s w) :
    ((w.state s).stopIndex = -1 ∧ (w.state s).stopId = none) ∨
      ∃ (j : Nat) (stop : Stop), s.document.stops[j]? = some stop ∧ (w.state s).stopIndex = j ∧
        (w.state s).stopId = some stop.id := by
  have hlow := hw.inBounds.low
  have hhigh := hw.inBounds.high
  by_cases hneg : w.position < 0
  · exact .inl ⟨by simp only [state]; omega, by simp [state, hneg]⟩
  · obtain ⟨j, hj⟩ := Int.eq_ofNat_of_zero_le (Int.not_lt.mp hneg)
    have hlt : j < s.document.stops.length := by omega
    refine .inr ⟨j, s.document.stops[j], List.getElem?_eq_getElem hlt, hj, ?_⟩
    simp [state, hj, hlt]

/-- Whatever is asked of a player, whatever its handlers do and whoever takes turns: it stands before the
first stop or at one, and tells the id of that very stop; once it has reached a stop it never stands
before the first again; and while no transition is on its way it stands where it has said last that it
stands, and the failure it tells is the last one of the actions of the stop of the last transition that
reached its stop or was given up for a failure. -/
theorem position_truthful (s : Stage) (cs : List Choice) :
    let w := World.follow s {} cs
    let k := Chronicle.follow s {} {} cs
    ((w.state s).stopIndex = -1 ∧ (w.state s).stopId = none ∨
      ∃ (j : Nat) (stop : Stop), s.document.stops[j]? = some stop ∧ (w.state s).stopIndex = j ∧
        (w.state s).stopId = some stop.id) ∧
    (0 ≤ (w.state s).stopIndex → ∀ ds, 0 ≤ ((w.follow s ds).state s).stopIndex) ∧
    (w.IsStill → (w.state s).stopIndex = lastPlace w.stopsTold ∧ (w.state s).error = k.error ∧
      ∀ entry ∈ k.last, Chronicled s entry) := by
  intro w k
  have hw : Reachable s w := ⟨cs, rfl⟩
  refine ⟨hw.state_cases, fun hreached ds => ?_, fun hstill => ?_⟩
  · exact follow_induction (P := fun w => 0 ≤ w.position)
      (fun v c hv => position_choose_nonneg s v c hv) ds w hreached
  · exact (recalls_chronicle s cs).of_isStill hstill

end World

/-- A tour of two stops whose actions nobody knows: the first stop is reached all the same, the second
one is not. -/
def Stage.limping : Stage where
  document := ⟨[⟨"a", none, [⟨"x", none⟩], [], some .continueOnError, []⟩,
    ⟨"b", none, [⟨"y", none⟩], [], some .haltOnError, []⟩], [], none, []⟩
  config := { settleFrames := 0 }

namespace World

/-- On `Stage.limping` the player goes to the first stop, and is given up on the way to the second. -/
def untilLimping : List Choice :=
  .ask (.move (.index 0)) :: List.replicate 21 (.turn 0) ++
    .ask (.move (.index 1)) :: List.replicate 17 (.turn 0)

/-- On `Stage.limping` the player stands at the first stop, which it has told with the failure there, and
remembers the failure that kept it from the second. -/
theorem limping_stands_at_first :
    let w := World.follow .limping {} untilLimping
    w.IsStill ∧ w.stopsTold = [⟨0, some "a", 2, some (.unknown "x")⟩] ∧
      (w.state .limping).stopIndex = 0 ∧ (w.state .limping).stopId = some "a" ∧
      (w.state .limping).error = some (.unknown "y") := by
  intro w
  have hstill : w.IsStill := by
    have hnobody : w.active = [] := rfl
    simp [IsStill, hnobody]
  have htold : w.stopsTold = [⟨0, some "a", 2, some (.unknown "x")⟩] := by decide
  obtain ⟨hcases, -, hnow⟩ := position_truthful .limping untilLimping
  obtain ⟨hplace, herror, -⟩ := hnow hstill
  have hzero : (w.state .limping).stopIndex = 0 := hplace.trans (by rw [htold]; rfl)
  refine ⟨hstill, htold, hzero, ?_, herror.trans (by decide)⟩
  rcases hcases with ⟨hbefore, -⟩ | ⟨j, stop, hstop, hj, hid⟩
  · cases hzero.symm.trans hbefore
  · have hfirst : j = 0 := Int.natCast_eq_zero.mp (hj.symm.trans hzero)
    subst hfirst
    cases hstop
    exact hid

end World

end DiagramTour
