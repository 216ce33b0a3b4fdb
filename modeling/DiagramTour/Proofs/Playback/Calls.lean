import DiagramTour.Proofs.Playback.Solo

/-!
# Calls

Whoever asks a player for moves, and for nothing else, need not wait for one move before asking for
the next, and an action may ask for a move as well.  Each call is a task of its own.  A ledger keeps
which moves were asked for, which were given the way, and how those ended.

## Architecture

- `World.isCall` holds of the choices of such a schedule; `World.Calls` is the schedule with its
  ledger.
- `World.Crew`: there are no tasks but timers and those of calls.
- `World.CallStep` lists all that a choice can be, and `Crew.callStep` says that this is all.
- `World.Calls.perm`: a move that was asked for was given the way, or its task waits for it.
-/

namespace DiagramTour

/-! ## Ledgers -/

/-- What becomes of the moves that are asked for. -/
structure Ledger where
  asked : List Move := []
  /-- The moves that were given the way, in this order. -/
  given : List Move := []
  /-- How those of them have ended that have, in the same order. -/
  landed : List Outcome := []

instance : Append Ledger where
  append l l' := ⟨l.asked ++ l'.asked, l.given ++ l'.given, l.landed ++ l'.landed⟩

namespace Ledger

variable (l l' : Ledger)

@[simp] theorem asked_append : (l ++ l').asked = l.asked ++ l'.asked := rfl

@[simp] theorem given_append : (l ++ l').given = l.given ++ l'.given := rfl

@[simp] theorem landed_append : (l ++ l').landed = l.landed ++ l'.landed := rfl

@[simp] theorem append_nil : l ++ ({} : Ledger) = l := by
  show Ledger.mk (l.asked ++ []) (l.given ++ []) (l.landed ++ []) = l
  simp

@[simp] theorem nil_append : ({} : Ledger) ++ l = l := rfl

theorem append_assoc (l'' : Ledger) : l ++ l' ++ l'' = l ++ (l' ++ l'') := by
  show Ledger.mk _ _ _ = Ledger.mk _ _ _
  simp

end Ledger

/-- Whether a job is that of a timer that has elapsed. -/
def Job.isRing : Job → Bool
  | .ring _ _ _ => true
  | _ => false

/-- The move that a task is about to seek the way for. -/
def Task.seeks? (t : Task) : Option Move :=
  match t.job, t.waits with
  | .travel m, [] => some m
  | .seek m, _ => some m
  | _, _ => none

/-- The move that a task is about to leave for. -/
def Task.leaves? (t : Task) : Option Move :=
  match t.job with
  | .depart m => some m
  | _ => none

namespace World

/-- The moves whose tasks wait for the way. -/
def waiting (w : World) : List Move :=
  w.active.filterMap Task.seeks? ++ w.queue.filterMap Task.leaves?

/-- Whether nothing but a move is asked for in a choice, and no timer elapses. -/
def isCall (w : World) : Choice → Bool
  | .ask (.move _) => true
  | .ask _ => false
  | c => (w.mover? c).all fun t => !t.job.isRing

/-- What a step of a task adds to a ledger. -/
def entryOf (s : Stage) (w : World) (t : Task) : Ledger :=
  match t.job, t.waits with
  -- A move that is part of another one is asked for where new tasks can be started
  | .travel m, waits => if waits.any Wait.isJourney && s.concurrent then { asked := [m] } else {}
  | .seek m, _ => if w.traveller.isNone then { given := [m] } else {}
  | .ended o, .journey :: _ =>
    { given := (w.queue.head?.bind Task.leaves?).toList, landed := [o] }
  | _, _ => {}

/-- What a choice adds to a ledger. -/
def entry (s : Stage) (w : World) : Choice → Ledger
  | .ask (.move m) => { asked := [m] }
  | c => ((w.mover? c).map (w.entryOf s)).getD {}

/-- A schedule of calls, with its ledger. -/
inductive Calls (s : Stage) (w : World) : Ledger → World → Prop where
  | start : Calls s w {} w
  | next {v : World} {l : Ledger} (c : Choice) : Calls s w l v → v.isCall c = true →
      Calls s w (l ++ v.entry s c) (v.choose s c)

end World

/-- The ledger of some choices. -/
def World.ledger (s : Stage) : World → List Choice → Ledger
  | _, [] => {}
  | w, c :: cs => w.entry s c ++ World.ledger s (w.choose s c) cs

/-- Whether some choices are a schedule of calls. -/
def World.areCalls (s : Stage) : World → List Choice → Bool
  | _, [] => true
  | w, c :: cs => w.isCall c && World.areCalls s (w.choose s c) cs

/-- Whoever makes such choices has followed a schedule of calls. -/
theorem World.Calls.follow {s : Stage} {w₀ : World} :
    ∀ {cs : List Choice} {l : Ledger} {w : World}, World.Calls s w₀ l w →
      w.areCalls s cs = true → World.Calls s w₀ (l ++ w.ledger s cs) (w.follow s cs)
  | [], l, w, h, _ => by
      rw [World.ledger, Ledger.append_nil]
      exact h
  | c :: cs, l, w, h, hcs => by
      simp only [World.areCalls, Bool.and_eq_true] at hcs
      have hnext := (World.Calls.next c h hcs.1).follow hcs.2
      rwa [Ledger.append_assoc] at hnext

/-! ## The tasks of calls -/

/-- A task as it is from when it is asked for a move until it has ended. -/
inductive Task.IsCaller : Task → Prop where
  | asked {id : Nat} {m : Move} : Task.IsCaller ⟨id, .travel m, []⟩
  | seeking {id : Nat} {m : Move} : Task.IsCaller ⟨id, .seek m, [.journey]⟩
  /-- On its way, or in the queue. -/
  | going {id : Nat} {job : Job} (above : List Wait) : (∀ m, job ≠ .seek m) →
      Task.IsCaller ⟨id, job, above ++ [.journey]⟩
  | ended {id : Nat} {o : Outcome} : Task.IsCaller ⟨id, .ended o, []⟩

/-- A call stays a call until it has ended. -/
theorem Task.IsCaller.step {s : Stage} {w : World} {t t' : Task} (h : t.IsCaller)
    (ht : (t.job.step s w t.id t.waits).2.task? t.id = some t') : t'.IsCaller := by
  cases h with
  | asked =>
      cases ht
      exact .seeking
  | @seeking id m =>
      simp only [Job.step, World.seek] at ht
      split at ht <;> cases ht <;> exact .going [] (by simp)
  | @going id job above hseek =>
      by_cases hlanded : job.isEnded = true ∧ above = []
      · obtain ⟨hended, rfl⟩ := hlanded
        obtain ⟨o, rfl⟩ : ∃ o, job = .ended o := by
          cases job <;> first | exact ⟨_, rfl⟩ | cases hended
        cases ht
        exact .ended
      · obtain ⟨job', above', hturn, hseek'⟩ := Job.step_above s w id [.journey]
          (fun hended habove => hlanded ⟨hended, habove⟩) rfl hseek
        cases (Turn.task?_of_left? hturn id).symm.trans ht
        exact .going above' hseek'
  | ended => cases ht

namespace World

/-- There are no tasks but timers and calls. -/
def Crew (w : World) (hand : List Task) : Prop :=
  ∀ t ∈ hand ++ w.tasks, t.IsTimer ∨ t.IsCaller

variable {s : Stage} {w w₀ : World} {t : Task} {c : Choice}

theorem Crew.step (h : Crew w [t]) (hring : t.job.isRing = false) :
    Crew ((t.job.step s w t.id t.waits).1.place t.id (t.job.step s w t.id t.waits).2) [] := by
  intro u hu
  rcases List.mem_append.mp ((tasks_place _ _ _).subset hu) with hhand | hu
  · have hturn := Option.mem_toList.mp hhand
    rcases h t (by simp) with htimer | hcaller
    · exact .inl (htimer.step hturn)
    · exact .inr (hcaller.step hturn)
  · rcases (Job.step_effect s w t.id t.waits t.job).mem_tasks u hu with hold | ⟨hfresh, -⟩
    · exact h u (List.mem_append_right _ hold)
    · generalize t.job = job at hfresh hring
      cases hfresh with
      | move => exact .inr .seeking
      | reaction => cases hring
      | timer => exact .inl ⟨rfl, rfl⟩

/-- Every choice of a schedule of calls keeps the crew. -/
theorem Crew.choose (h : Crew w []) (hc : w.isCall c = true) : Crew (w.choose s c) [] := by
  obtain ⟨t, others, hmover, hperm, heq⟩ | ⟨-, hw⟩ | ⟨d, rfl, heq⟩ := choose_cases s w c
  · have hring : t.job.isRing = false := by
      cases c with
      | turn i =>
          simp only [isCall, hmover, Option.all_some] at hc
          simpa using hc
      | _ => cases hmover
    have htake : Crew { w with ready := others } [t] :=
      fun u hu => h u ((tasks_take hperm).symm.subset hu)
    rw [heq]
    exact htake.step hring
  · exact fun u hu => h u (hw.tasks.subset hu)
  · cases d with
    | move m =>
        rw [heq]
        intro u hu
        rcases List.mem_cons.mp ((tasks_start w _ _).subset hu) with rfl | hold
        · exact .inr .asked
        · exact h u hold
    | _ => cases hc

/-! ## What a choice can be -/

/-- What a choice of a schedule of calls can be. -/
inductive CallStep (s : Stage) (w : World) (c : Choice) : Prop where
  /-- Whoever holds the way is not concerned, and nobody takes it. -/
  | aside : w.Aside (w.choose s c) → (w.choose s c).traveller = w.traveller →
      (∀ t, w.mover? c = some t → ¬ t.HoldsWay) → (w.entry s c).given = [] →
      (w.entry s c).landed = [] → CallStep s w c
  /-- A task takes the way. -/
  | take {id : Nat} {m : Move} : w.traveller = none → w.Aside (w.choose s c) →
      (w.choose s c).traveller = some id →
      ⟨id, .depart m, [.journey]⟩ ∈ (w.choose s c).active → (w.entry s c).given = [m] →
      (w.entry s c).landed = [] → CallStep s w c
  /-- The task on the way goes on. -/
  | go {id : Nat} {job : Job} {others : List Task} (above : List Wait) :
      w.mover? c = some ⟨id, job, above ++ [.journey]⟩ → (∀ m, job ≠ .seek m) →
      (job.isEnded = true → above ≠ []) →
      w.ready.Perm (⟨id, job, above ++ [.journey]⟩ :: others) → w.traveller = some id →
      (w.choose s c).traveller = some id →
      w.choose s c = w.takeTurn s ⟨id, job, above ++ [.journey]⟩ others →
      (w.entry s c).given = [] → (w.entry s c).landed = [] → CallStep s w c
  /-- The task on the way has landed, and gives the way on to the first in the queue. -/
  | land {id : Nat} {o : Outcome} : w.mover? c = some ⟨id, .ended o, [.journey]⟩ →
      w.traveller = some id → w.Aside (w.choose s c) → (w.entry s c).landed = [o] →
      ((w.choose s c).traveller = none ∧ (w.entry s c).given = [] ∨
        ∃ i m, (w.choose s c).traveller = some i ∧
          ⟨i, .depart m, [.journey]⟩ ∈ (w.choose s c).active ∧ (w.entry s c).given = [m]) →
      CallStep s w c

private theorem entry_of_mover? (h : w.mover? c = some t) : w.entry s c = w.entryOf s t := by
  cases c with
  | turn i => simp [entry, h]
  | _ => cases h

private theorem entry_of_no_mover (h : w.mover? c = none) :
    (w.entry s c).given = [] ∧ (w.entry s c).landed = [] := by
  cases c with
  | ask d => cases d <;> exact ⟨rfl, rfl⟩
  | _ => simp [entry, h]

/-- Who queues for the way is about to leave, and waits for nothing else. -/
private theorem Crew.queued {hand : List Task} (h : Crew w hand) (hw : Way w hand)
    (ht : t ∈ w.queue) :
    ∃ m, t.job = .depart m ∧ t.waits = [.journey] := by
  have htasks : t ∈ hand ++ w.tasks :=
    List.mem_append_right hand (List.mem_append_right w.active ht)
  obtain ⟨m, ys, hjob, hwaits⟩ := hw.queued t ht
  have hstacked := hw.stacked t htasks
  refine ⟨m, hjob, ?_⟩
  rcases h t htasks with htimer | hcaller
  · cases htimer.waits.symm.trans hwaits
  · obtain ⟨id, job, waits⟩ := t
    simp only at hjob hwaits hstacked
    subst hjob
    cases hcaller with
    | going above =>
        cases above with
        | nil => rfl
        | cons x xs => exact absurd hwaits (hstacked.ne_journey rfl (by simp) ys)

/-- A task that goes on with its way neither takes it nor gives it on. -/
private theorem entryOf_going {id : Nat} {job : Job} {above : List Wait}
    (hstacked : Task.Stacked ⟨id, job, above ++ [.journey]⟩) (hseek : ∀ m, job ≠ .seek m)
    (hgo : job.isEnded = true → above ≠ []) :
    (w.entryOf s ⟨id, job, above ++ [.journey]⟩).given = [] ∧
      (w.entryOf s ⟨id, job, above ++ [.journey]⟩).landed = [] := by
  cases job with
  | travel m =>
      simp only [entryOf]
      split <;> exact ⟨rfl, rfl⟩
  | seek m => exact absurd rfl (hseek m)
  | ended o =>
      have hne := hstacked.ne_journey rfl (hgo rfl)
      generalize above ++ [Wait.journey] = waits at hne
      cases waits with
      | nil => exact ⟨rfl, rfl⟩
      | cons x xs =>
          cases x with
          | journey => exact absurd rfl (hne xs)
          | _ => exact ⟨rfl, rfl⟩
  | _ => exact ⟨rfl, rfl⟩

/-- The last step of a task on the way. -/
private theorem callStep_land {id : Nat} {o : Outcome} {others : List Task} (hway : Way w [])
    (hcrew : Crew w []) (hmover : w.mover? c = some ⟨id, .ended o, [.journey]⟩)
    (hperm : w.ready.Perm (⟨id, .ended o, [.journey]⟩ :: others))
    (heq : w.choose s c = w.takeTurn s ⟨id, .ended o, [.journey]⟩ others) : CallStep s w c := by
  have htraveller : w.traveller = some id :=
    hway.holder ⟨id, .ended o, [.journey]⟩ (by simp [active, hperm.mem_iff])
      ⟨by simp [Wait.isJourney], by simp⟩
  have hentry := entry_of_mover? (s := s) hmover
  have haside : w.Aside (w.choose s c) := by
    rw [heq, takeTurn_eq]
    exact ((aside_ready w others).trans (aside_handOver _)).trans (aside_place _ _ _)
  refine .land hmover htraveller haside (by rw [hentry]; rfl) ?_
  rw [hentry, heq, takeTurn_eq, Way.traveller_place]
  simp only [Job.step, Wait.resume, handOver, entryOf]
  cases hqueue : w.queue with
  | nil => exact .inl ⟨rfl, rfl⟩
  | cons u us =>
      obtain ⟨m, hjob, hwaits⟩ := hcrew.queued hway (hqueue ▸ List.mem_cons_self)
      obtain ⟨i, job, waits⟩ := u
      simp only at hjob hwaits
      subst hjob hwaits
      exact .inr ⟨i, m, rfl, by simp [place, Turn.ended, active], rfl⟩

/-- Every choice of a schedule of calls is one of these. -/
theorem Crew.callStep (hcrew : Crew w []) (hway : Way w []) (hc : w.isCall c = true) :
    CallStep s w c := by
  obtain ⟨t, others, hmover, hperm, heq⟩ | ⟨hnone, hw⟩ | ⟨d, rfl, heq⟩ := choose_cases s w c
  · have hentry := entry_of_mover? (s := s) hmover
    have hmem : t ∈ w.active := by simp [active, hperm.mem_iff]
    -- A step that leaves the world as it is
    have hrest : (t.job.step s { w with ready := others } t.id t.waits).1 = { w with ready := others } →
        ¬ t.HoldsWay → (w.entryOf s t).given = [] → (w.entryOf s t).landed = [] → CallStep s w c := by
      intro hsame hno hgiven hlanded
      refine .aside ?_ ?_ ?_ (hentry ▸ hgiven) (hentry ▸ hlanded)
      · rw [heq, takeTurn_eq, hsame]
        exact (aside_ready w others).trans (aside_place _ _ _)
      · rw [heq, takeTurn_eq, Way.traveller_place, hsame]
      · intro u hu
        cases hmover.symm.trans hu
        exact hno
    rcases hcrew t (active_subset_tasks w hmem) with htimer | hcaller
    · have hno := not_isTimer_of_holdsWay.mt (not_not_intro htimer)
      obtain ⟨id, job, waits⟩ := t
      obtain ⟨hjob, rfl⟩ := htimer
      cases job with
      | await setting delay actions => exact hrest rfl hno rfl rfl
      | ring setting delay actions =>
          cases c with
          | turn i => simp [isCall, hmover, Job.isRing] at hc
          | _ => cases hmover
      | ended o => exact hrest rfl hno rfl rfl
      | _ => cases hjob
    · cases hcaller with
      | asked =>
          refine hrest rfl (fun h => ?_) rfl rfl
          simpa using h.journey
      | ended =>
          refine hrest rfl (fun h => ?_) rfl rfl
          simpa using h.journey
      | @seeking id m =>
          cases htraveller : w.traveller with
          | none =>
              have hstep : Job.step s { w with ready := others } id [.journey] (.seek m) =
                  ({ w with ready := others, traveller := some id }, .go (.depart m) [.journey]) := by
                simp [Job.step, seek, htraveller]
              have htake : w.choose s c =
                  { w with ready := ⟨id, .depart m, [.journey]⟩ :: others, traveller := some id } := by
                rw [heq, takeTurn_eq, hstep]
                rfl
              refine @CallStep.take s w c id m htraveller ?_ ?_ ?_ ?_ ?_
              · rw [htake]
                exact ⟨w.now, w.nextTask, _, w.paused, w.asleep, _, w.queue, w.outcomes, rfl⟩
              · rw [htake]
              · rw [htake]
                exact List.mem_cons_self
              · rw [hentry]
                simp [entryOf, htraveller]
              · rw [hentry]
                simp [entryOf, htraveller]
          | some i =>
              refine hrest ?_ (fun h => absurd rfl (h.job m)) ?_ ?_
              · simp [Job.step, seek, htraveller]
              · simp [entryOf, htraveller]
              · simp [entryOf, htraveller]
      | @going id job above hseek =>
          by_cases hlanded : job.isEnded = true ∧ above = []
          · obtain ⟨hended, rfl⟩ := hlanded
            obtain ⟨o, rfl⟩ : ∃ o, job = .ended o := by
              cases job <;> first | exact ⟨_, rfl⟩ | cases hended
            exact callStep_land hway hcrew hmover hperm heq
          · have hgo : job.isEnded = true → above ≠ [] := fun h h' => hlanded ⟨h, h'⟩
            have htraveller : w.traveller = some id :=
              hway.holder ⟨id, job, above ++ [.journey]⟩ hmem ⟨by simp [Wait.isJourney], hseek⟩
            obtain ⟨hgiven, hnone⟩ := entryOf_going (s := s) (w := w)
              (hway.stacked _ (active_subset_tasks w hmem)) hseek hgo
            have hhand := hway.take hperm
            -- Who is still on the way does not give it on
            have hend : ∀ o ys, job = .ended o → above ++ [.journey] ≠ .journey :: ys := by
              rintro o ys rfl
              exact (hhand.stacked _ List.mem_cons_self).ne_journey rfl (hgo rfl) ys
            have hkeep := (hhand.toTimed.undisturbed hseek hend
              (Job.step_effect s { w with ready := others } id (above ++ [.journey]) job)).traveller
            refine .go above hmover hseek hgo hperm htraveller ?_ heq (hentry ▸ hgiven)
              (hentry ▸ hnone)
            rw [heq, takeTurn_eq, Way.traveller_place]
            exact hkeep.trans htraveller
  · obtain ⟨hgiven, hlanded⟩ := entry_of_no_mover (s := s) hnone
    refine .aside hw.aside ?_ (fun t ht => by simp [hnone] at ht) hgiven hlanded
    obtain ⟨_, _, _, _, heq⟩ := hw.eq
    rw [heq]
  · cases d with
    | move m =>
        refine .aside ?_ ?_ (fun t ht => by cases ht) rfl rfl
        · rw [heq]
          exact aside_start w _ _
        · rw [heq]
          rfl
    | _ => cases hc

/-! ## Who waits for the way -/

variable {w' : World} {hand others : List Task}

private theorem waiting_of_active (hactive : w'.active.Perm w.active) (hqueue : w'.queue = w.queue) :
    w'.waiting.Perm w.waiting := by
  rw [waiting, waiting, hqueue]
  exact (hactive.filterMap _).append_right _

private theorem seeks?_of_isTimer (h : t.IsTimer) : t.seeks? = none := by
  obtain ⟨id, job, waits⟩ := t
  obtain ⟨hjob, rfl⟩ := h
  cases job <;> first | rfl | cases hjob

/-- Nobody who waits for the way is cancelled. -/
private theorem waiting_release (h : Timed w hand) (p : Part) : (w.release p).waiting = w.waiting := by
  have hfilter : ∀ ts : List Task, (∀ t ∈ ts, t ∈ w.tasks) →
      (ts.filter fun t => !(w.rig p).timers.contains t.id).filterMap Task.seeks? =
        ts.filterMap Task.seeks? := by
    intro ts hts
    rw [List.filterMap_filter]
    refine List.filterMap_congr fun t ht => ?_
    split
    · rfl
    · rename_i hcancelled
      refine (seeks?_of_isTimer (h.timers t (List.mem_append_right _ (hts t ht)) p ?_)).symm
      simpa using hcancelled
  have hasleep : ((w.asleep.filter fun t => !(w.rig p).timers.contains t.2.id).map Prod.snd) =
      (w.asleep.map Prod.snd).filter fun t => !(w.rig p).timers.contains t.id := by
    rw [List.filter_map]
    rfl
  rw [release_eq, waiting, waiting]
  simp only [active, List.filterMap_append, hasleep]
  rw [hfilter w.ready fun t ht => by simp [tasks, active, ht],
    hfilter (w.asleep.map Prod.snd) fun t ht => by
      simp only [tasks, active, List.mem_append]
      exact .inl (.inr ht)]

private theorem waiting_destroy (h : Timed w hand) : w.destroy.waiting = w.waiting := by
  unfold destroy
  split
  · rfl
  · have h' : Timed { w with destroyed := true } hand := ⟨⟨h.distinct, h.below, h.rigs⟩, h.timers⟩
    exact (waiting_release (h'.release .tour) .stop).trans (waiting_release h' .tour)

private theorem waiting_start (w : World) (job : Job) (waits : List Wait) :
    (w.start job waits).waiting.Perm
      ((Task.seeks? ⟨w.nextTask, job, waits⟩).toList ++ w.waiting) := by
  have hactive : (w.start job waits).active.Perm (⟨w.nextTask, job, waits⟩ :: w.active) := by
    simp [World.start, active]
  rw [waiting, waiting, ← List.append_assoc]
  refine ((hactive.filterMap _).append_right _).trans ?_
  cases hseeks : Task.seeks? ⟨w.nextTask, job, waits⟩ <;> simp [hseeks, World.start]

private theorem waiting_bind (p : Part) (rs : List Reaction) (setting : Setting) :
    (w.bind s p rs setting).waiting = w.waiting := by
  have hnone : (timerTasks setting w.nextTask (timersOf s rs)).filterMap Task.seeks? = [] := by
    refine List.filterMap_eq_nil_iff.mpr fun t ht => ?_
    obtain ⟨r, -, rfl⟩ := List.mem_map.mp ht
    rfl
  rw [bind_eq]
  simp [waiting, active, List.filterMap_append, hnone]

/-- Apart from moves and whoever takes the way or gives it on nobody changes who waits for it. -/
private theorem waiting_effect {id : Nat} {job : Job} {waits : List Wait} (h : Timed w hand)
    (htravel : ∀ m, job ≠ .travel m) (hseek : ∀ m, job ≠ .seek m) (hring : job.isRing = false)
    (hend : ∀ o ys, job = .ended o → waits ≠ .journey :: ys)
    (he : Job.Effect s w id job waits w') : w'.waiting = w.waiting := by
  cases he with
  | calm hcalm =>
      obtain ⟨_, _, _, _, _, rfl⟩ := hcalm.eq
      rfl
  | destroy => exact waiting_destroy h
  | spawn => exact absurd rfl (htravel _)
  | ring => cases hring
  | take => exact absurd rfl (hseek _)
  | leave =>
      obtain ⟨_, _, heq⟩ := (w.release .stop).tidy_eq (s := s) (stopAt s _)
      rw [heq]
      exact waiting_release h .stop
  | @arrive o j es ys =>
      exact @waiting_bind s { w with position := j, error := es.getLast? } .stop _ _
  | «open» => exact waiting_bind _ _ _
  | abort => rfl
  | handOver => exact absurd rfl (hend _ _ rfl)

private theorem waiting_place (w : World) (id : Nat) (turn : Turn) (hturn : turn.isQueue = false) :
    (w.place id turn).waiting.Perm ((turn.task? id).toList.filterMap Task.seeks? ++ w.waiting) := by
  obtain ⟨hactive, hqueue⟩ := Way.active_place w id turn hturn
  rw [waiting, waiting, hqueue, ← List.append_assoc, ← List.filterMap_append]
  exact (hactive.filterMap _).append_right _

private theorem seeks?_of_going {id : Nat} {job : Job} {above : List Wait}
    (hseek : ∀ m, job ≠ .seek m) : Task.seeks? ⟨id, job, above ++ [.journey]⟩ = none := by
  cases job with
  | travel m => cases above <;> rfl
  | seek m => exact absurd rfl (hseek m)
  | _ => rfl

/-- A step of a task on the way that has not landed. -/
private theorem waiting_going {id : Nat} {job : Job} {above : List Wait}
    (h : Way w [⟨id, job, above ++ [.journey]⟩]) (hring : job.isRing = false)
    (hseek : ∀ m, job ≠ .seek m) (hgo : job.isEnded = true → above ≠ []) :
    ((w.entryOf s ⟨id, job, above ++ [.journey]⟩).asked ++ w.waiting).Perm
      ((job.step s w id (above ++ [.journey])).1.place id
        (job.step s w id (above ++ [.journey])).2).waiting := by
  by_cases htravel : ∃ m, job = .travel m
  · -- A move that is part of another one is left to a task of its own
    obtain ⟨m, rfl⟩ := htravel
    simp only [Job.step, travel, entryOf, List.any_append, List.any_cons, List.any_nil,
      Wait.isJourney, Bool.or_false, Bool.or_true, Bool.true_and, if_true]
    cases s.concurrent with
    | true =>
        have hplace := waiting_place (w.start (.seek m) [.journey]) id
          (.ended .completed (above ++ [.journey])) rfl
        exact (hplace.trans (waiting_start w (.seek m) [.journey])).symm
    | false => exact (waiting_place w id (.ended .completed (above ++ [.journey])) rfl).symm
  · have hasked : (w.entryOf s ⟨id, job, above ++ [.journey]⟩).asked = [] := by
      cases job with
      | travel m => exact absurd ⟨m, rfl⟩ htravel
      | seek m => exact absurd rfl (hseek m)
      | ended o =>
          cases above with
          | nil => rfl
          | cons x xs => cases x <;> rfl
      | _ => rfl
    have hend : ∀ o ys, job = .ended o → above ++ [.journey] ≠ .journey :: ys := by
      rintro o ys rfl
      exact (h.stacked _ List.mem_cons_self).ne_journey rfl (hgo rfl) ys
    obtain ⟨job', above', hturn, hseek'⟩ :=
      Job.step_above s w id [.journey] hgo rfl hseek
    have hplace := waiting_place (job.step s w id (above ++ [.journey])).1 id _
      (Turn.isQueue_of_left? hturn)
    have hsame := waiting_effect h.toTimed (fun m hm => htravel ⟨m, hm⟩) hseek hring hend
      (Job.step_effect s w id (above ++ [.journey]) job)
    rw [Turn.task?_of_left? hturn id, hsame] at hplace
    rw [hasked]
    refine List.Perm.trans ?_ hplace.symm
    simp [seeks?_of_going hseek']

/-- The last step of a task on the way. -/
private theorem waiting_land {id : Nat} {o : Outcome} (h : Way w [⟨id, .ended o, [.journey]⟩])
    (hcrew : Crew w [⟨id, .ended o, [.journey]⟩]) :
    w.waiting.Perm ((w.queue.head?.bind Task.leaves?).toList ++
      (w.handOver.place id (.ended o [])).waiting) := by
  have hplace := waiting_place w.handOver id (.ended o []) rfl
  have hnone : (Turn.task? id (.ended o [])).toList.filterMap Task.seeks? = [] := rfl
  rw [hnone, List.nil_append] at hplace
  refine List.Perm.trans ?_ (hplace.symm.append_left _)
  cases hqueue : w.queue with
  | nil =>
      have hsame : w.handOver.waiting = w.waiting := by simp [handOver, hqueue, waiting, active]
      rw [hsame]
      exact .refl _
  | cons u us =>
      obtain ⟨m, hjob, hwaits⟩ := hcrew.queued h (hqueue ▸ List.mem_cons_self)
      obtain ⟨i, job, waits⟩ := u
      simp only at hjob hwaits
      subst hjob hwaits
      -- The first in the queue does not wait any longer
      have hgone : w.handOver.waiting =
          w.active.filterMap Task.seeks? ++ us.filterMap Task.leaves? := by
        have hleaves : Task.seeks? ⟨i, .depart m, [.journey]⟩ = none := rfl
        simp [handOver, hqueue, waiting, active, hleaves]
      rw [hgone, waiting, hqueue]
      exact @List.perm_middle Move m (w.active.filterMap Task.seeks?) (us.filterMap Task.leaves?)

/-- A step of a task in hand. -/
private theorem waiting_step (h : Way w [t]) (hcrew : Crew w [t]) (hring : t.job.isRing = false) :
    ((w.entryOf s t).asked ++ (t.seeks?.toList ++ w.waiting)).Perm ((w.entryOf s t).given ++
      ((t.job.step s w t.id t.waits).1.place t.id (t.job.step s w t.id t.waits).2).waiting) := by
  rcases hcrew t List.mem_cons_self with htimer | hcaller
  · obtain ⟨id, job, waits⟩ := t
    obtain ⟨hjob, rfl⟩ := htimer
    cases job with
    | await setting delay actions =>
        exact (waiting_place w id (.sleep delay (.ring setting delay actions) []) rfl).symm
    | ring setting delay actions => cases hring
    | ended o => exact (waiting_place w id (.finish o) rfl).symm
    | _ => cases hjob
  · cases hcaller with
    | @asked id m => exact (waiting_place w id (.go (.seek m) [.journey]) rfl).symm
    | @ended id o => exact (waiting_place w id (.finish o) rfl).symm
    | @seeking id m =>
        cases htraveller : w.traveller with
        | none =>
            simp only [Job.step, seek, htraveller, entryOf, Option.isNone_none, if_true]
            have hplace := waiting_place { w with traveller := some id } id
              (.go (.depart m) [.journey]) rfl
            exact hplace.symm.append_left [m]
        | some i =>
            simp only [Job.step, seek, htraveller, entryOf, Option.isNone_some, Bool.false_eq_true,
              if_false]
            have hqueued : (w.place id (.queue (.depart m) [.journey])).waiting = w.waiting ++ [m] := by
              simp [waiting, place, active, Task.leaves?]
            rw [hqueued]
            exact @List.perm_append_comm Move [m] w.waiting
    | @going id job above hseek =>
        by_cases hlanded : job.isEnded = true ∧ above = []
        · obtain ⟨hended, rfl⟩ := hlanded
          obtain ⟨o, rfl⟩ : ∃ o, job = .ended o := by
            cases job <;> first | exact ⟨_, rfl⟩ | cases hended
          exact waiting_land h hcrew
        · have hgo : job.isEnded = true → above ≠ [] := fun h h' => hlanded ⟨h, h'⟩
          have hgiven := (entryOf_going (s := s) (w := w) (h.stacked _ List.mem_cons_self) hseek hgo).1
          rw [hgiven, seeks?_of_going hseek]
          exact waiting_going h hring hseek hgo

/-- Whatever a choice asks for was given the way, or waits for it. -/
theorem Crew.waiting_choose (hcrew : Crew w []) (hway : Way w []) (hc : w.isCall c = true) :
    ((w.entry s c).asked ++ w.waiting).Perm ((w.entry s c).given ++ (w.choose s c).waiting) := by
  have hask : ∀ m, c = .ask (.move m) →
      ((w.entry s c).asked ++ w.waiting).Perm ((w.entry s c).given ++ (w.choose s c).waiting) := by
    rintro m rfl
    exact (waiting_start w (.travel m) []).symm
  obtain ⟨t, others, hmover, hperm, heq⟩ | ⟨hnone, hw⟩ | ⟨d, rfl, heq⟩ := choose_cases s w c
  · have hring : t.job.isRing = false := by
      cases c with
      | turn i =>
          simp only [isCall, hmover, Option.all_some] at hc
          simpa using hc
      | _ => cases hmover
    have htake : Crew { w with ready := others } [t] :=
      fun u hu => hcrew u ((tasks_take hperm).symm.subset hu)
    have hstep := waiting_step (s := s) (hway.take hperm) htake hring
    have hwaiting : w.waiting.Perm (t.seeks?.toList ++ ({ w with ready := others } : World).waiting) := by
      have hactive : w.active.Perm (t :: ({ w with ready := others } : World).active) := by
        simp only [active, List.append_assoc]
        exact hperm.append_right _
      rw [waiting, waiting, ← List.append_assoc]
      refine ((hactive.filterMap _).append_right _).trans ?_
      cases hseeks : t.seeks? <;> simp [hseeks]
    rw [entry_of_mover? hmover, heq]
    exact (hwaiting.append_left _).trans hstep
  · cases c with
    | ask d =>
        cases d with
        | move m => exact hask m rfl
        | _ => cases hc
    | _ =>
        simp only [entry, hnone, Option.map_none, Option.getD_none, List.nil_append]
        exact (waiting_of_active hw.active hw.queue).symm
  · cases d with
    | move m => exact hask m rfl
    | _ => cases hc

/-! ## What holds along a schedule of calls -/

namespace Calls

variable {l : Ledger}

theorem reachable (h : Calls s w₀ l w) (hw : Reachable s w₀) : Reachable s w := by
  induction h with
  | start => exact hw
  | next c _ _ ih => exact ih.choose c

theorem crew (h : Calls s w₀ l w) (hidle : ∀ t ∈ w₀.tasks, t.IsTimer) : Crew w [] := by
  induction h with
  | start => exact fun t ht => .inl (hidle t ht)
  | next c _ hc ih => exact ih.choose hc

/-- Timers do not wait for the way. -/
theorem waiting_of_idle (hidle : ∀ t ∈ w.tasks, t.IsTimer) : w.waiting = [] := by
  refine List.append_eq_nil_iff.mpr ⟨List.filterMap_eq_nil_iff.mpr fun t ht => ?_,
    List.filterMap_eq_nil_iff.mpr fun t ht => ?_⟩
  · exact seeks?_of_isTimer (hidle t (active_subset_tasks w ht))
  · obtain ⟨id, job, waits⟩ := t
    have hjob := (hidle ⟨id, job, waits⟩ (List.mem_append_right _ ht)).job
    cases job <;> first | rfl | cases hjob

/-- A move that was asked for was given the way, or its task waits for it. -/
theorem perm (h : Calls s w₀ l w) (hw : Reachable s w₀) (hidle : ∀ t ∈ w₀.tasks, t.IsTimer) :
    l.asked.Perm (l.given ++ w.waiting) := by
  induction h with
  | start =>
      rw [waiting_of_idle hidle]
      exact .refl _
  | @next v l c hcalls hc ih =>
      have hstep := (hcalls.crew hidle).waiting_choose (s := s) (hcalls.reachable hw).way hc
      have hmiddle : ((l.given ++ v.waiting) ++ (v.entry s c).asked).Perm
          (l.given ++ ((v.entry s c).asked ++ v.waiting)) := by
        rw [List.append_assoc]
        exact List.perm_append_comm.append_left _
      have hall := ((ih.append_right _).trans hmiddle).trans (hstep.append_left _)
      rwa [← List.append_assoc] at hall

end Calls

end World

end DiagramTour
