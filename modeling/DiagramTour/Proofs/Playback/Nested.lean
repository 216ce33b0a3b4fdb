import DiagramTour.Proofs.Playback.Calls
import DiagramTour.Proofs.Playback.Opening
import DiagramTour.Proofs.Playback.Passing

/-!
# Moves within a move

A handler that is at work on the way to a stop may ask for a move.  It cannot wait for the way, which
its own task has; so the move is left to a task of its own, and the handler goes on at once.  That task
leaves once, after the move in progress has ended, and whoever has the way never waits for it.

## Architecture

- `Task.Asks`: who is at a move was asked by a handler that waits for it, or from outside.
- `World.Pending` tells where a task is that has not left; it is never put aside.  `World.Past` holds of
  it afterwards, and for good.
- `World.attempts` counts how often a task leaves along a schedule.
- `World.Fair`: an endless schedule in which whoever is ready takes a step, and whoever has the way
  gives it on.  In such a schedule the task gets to the head of the queue, place by place.
- `World.nested_move_deferred` says what becomes of a move that is asked for on the way.
-/

namespace DiagramTour

/-! ## Who asks for moves -/

/-- The opening of the tour is waited for at the bottom of some waits only. -/
def Wait.Bottomed : List Wait → Prop
  | [] => True
  | x :: xs => (x.isOpening = true → xs = []) ∧ Wait.Bottomed xs

theorem Wait.isOpening_of_isInner {x : Wait} (h : x.isInner = true) : x.isOpening = false := by
  cases x <;> simp_all [isInner, isOpening]

theorem Wait.Bottomed.append {top waits : List Wait} (htop : ∀ x ∈ top, x.isInner = true)
    (h : Bottomed waits) : Bottomed (top ++ waits) := by
  induction top with
  | nil => exact h
  | cons x xs ih =>
      refine ⟨?_, ih fun y hy => htop y (List.mem_cons_of_mem _ hy)⟩
      simp [isOpening_of_isInner (htop x List.mem_cons_self)]

theorem Wait.Bottomed.cons {x : Wait} {waits : List Wait} (h : Bottomed waits)
    (hx : x.isOpening = false) : Bottomed (x :: waits) :=
  ⟨fun h' => by simp [hx] at h', h⟩

/-- Who is at a move was asked by a handler, which waits for it, or from outside. -/
structure Task.Asks (t : Task) : Prop where
  travel : ∀ m, t.job = .travel m →
    t.waits = [] ∨ ∃ kind next ys, t.waits = .moved kind next :: ys
  begins : t.job.isOpening = true → t.waits = []
  bottom : Wait.Bottomed t.waits

namespace World

variable {s : Stage} {w w' : World} {t t' u : Task} {c : Choice} {id : Nat} {m : Move}

/-- A step that leads to a move is one of a handler, or the opening of the tour. -/
theorem travel_of_step (ht : (t.job.step s w t.id t.waits).2.task? t.id = some t')
    (hjob : t'.job = .travel m) :
    (∃ kind next, t'.waits = .moved kind next :: t.waits) ∨
      ∃ o, t.job = .ended o ∧ t.waits = .opened :: t'.waits := by
  obtain ⟨id, job, waits⟩ := t
  cases job with
  | run setting event actions errors =>
      cases actions with
      | nil =>
          cases ht
          cases hjob
      | cons a rest =>
          simp only [Job.step, runActions] at ht
          split at ht <;> cases ht <;> cases hjob
  | act kind behaviour =>
      cases behaviour with
      | perform command next =>
          cases command with
          | move m' =>
              cases ht
              exact .inl ⟨kind, next, rfl⟩
          | _ =>
              cases ht
              cases hjob
      | _ =>
          cases ht
          cases hjob
  | fire event listeners total =>
      cases listeners with
      | nil =>
          cases ht
          cases hjob
      | cons l rest =>
          simp only [Job.step, fire] at ht
          split at ht <;> cases ht <;> cases hjob
  | deliver ds =>
      cases ds with
      | nil =>
          cases ht
          cases hjob
      | cons d ds =>
          cases d with
          | respond response => cases response <;> cases ht <;> cases hjob
          | _ =>
              cases ht
              cases hjob
  | travel m' =>
      simp only [Job.step, travel] at ht
      split at ht <;> cases ht <;> cases hjob
  | seek m' =>
      simp only [Job.step, seek] at ht
      split at ht <;> cases ht <;> cases hjob
  | depart m' =>
      simp only [Job.step, depart] at ht
      split at ht
      · cases ht
        cases hjob
      · split at ht <;> cases ht <;> cases hjob
  | settle j n =>
      cases n with
      | zero =>
          cases ht
          cases hjob
      | succ n =>
          simp only [Job.step, settle] at ht
          split at ht <;> cases ht <;> cases hjob
  | ended o =>
      cases waits with
      | nil => cases ht
      | cons wait waits =>
          cases wait with
          | opened =>
              simp only [Job.step, Wait.resume, opened] at ht
              split at ht
              · cases ht
                cases hjob
              · cases ht
                exact .inr ⟨o, rfl, rfl⟩
          | handled kind setting event actions errors =>
              cases o <;> simp only [Job.step, Wait.resume] at ht <;> try split at ht
              all_goals
                cases ht
                cases hjob
          | report outlet => cases o <;> cases outlet <;> cases ht <;> cases hjob
          | arrived j es =>
              cases ht
              cases hjob
          | concluded o' =>
              cases ht
              cases hjob
          | journey =>
              cases ht
              cases hjob
          | _ => cases o <;> cases ht <;> cases hjob
  | _ =>
      cases ht
      cases hjob

/-- Every step of a task leaves it with somebody to ask for its moves. -/
theorem asks_step (h : t.Asks) (ht : (t.job.step s w t.id t.waits).2.task? t.id = some t') :
    t'.Asks := by
  have hkeeps : t'.job.isOpening = false ∧ Wait.Bottomed t'.waits := by
    have hshift := Job.step_shift s w t.id t.waits t.job
    have hbegins := h.begins
    have hbottom := h.bottom
    generalize t.waits = waits at hshift ht hbegins hbottom
    generalize t.job = job at hshift ht hbegins
    generalize (job.step s w t.id waits).2 = turn at hshift ht
    have hinner : ∀ {job : Job}, job.isInner = true ∨ job.isEnded = true → job.isOpening = false := by
      rintro job (h | h) <;> cases job <;> first | rfl | cases h
    cases hshift with
    | inner top _ hleft hjob' htop =>
        cases (Turn.task?_of_left? hleft t.id).symm.trans ht
        refine ⟨?_, hbottom.append htop⟩
        rcases hjob' with h' | h' | ⟨m, rfl⟩
        · exact hinner (.inl h')
        · exact hinner (.inr h')
        · rfl
    | resume _ hjob' =>
        cases ht
        exact ⟨hinner hjob', hbottom.2⟩
    | «begin» =>
        cases ht
        exact ⟨rfl, fun _ => hbegins rfl, hbottom⟩
    | opened hjob' =>
        cases ht
        rcases hjob' with rfl | rfl <;> exact ⟨rfl, hbottom.2⟩
    | cleared hjob' =>
        cases ht
        rcases hjob' with h' | ⟨n, rfl⟩
        · exact ⟨hinner (.inr h'), hbottom.2⟩
        · exact ⟨rfl, hbottom.2⟩
    | settle hleft =>
        cases (Turn.task?_of_left? hleft t.id).symm.trans ht
        exact ⟨rfl, hbottom⟩
    | travel =>
        cases ht
        exact ⟨rfl, hbottom.cons rfl⟩
    | leave =>
        cases ht
        exact ⟨rfl, hbottom.cons rfl⟩
    | enter =>
        cases ht
        exact ⟨rfl, hbottom.cons rfl⟩
    | entered hwait =>
        cases ht
        rcases hwait with ⟨es, -, rfl⟩ | ⟨e, -, rfl⟩ <;> exact ⟨rfl, hbottom.2.cons rfl⟩
    | arrive =>
        cases ht
        exact ⟨rfl, hbottom.2.cons rfl⟩
    | broken =>
        cases ht
        exact ⟨rfl, hbottom.2⟩
    | concluded =>
        cases ht
        exact ⟨rfl, hbottom.2⟩
    | handOver =>
        cases ht
        exact ⟨rfl, hbottom.2⟩
    | finish => cases ht
    | _ =>
        cases ht
        exact ⟨rfl, hbottom⟩
  refine ⟨fun m hjob => ?_, fun h' => by simp [hkeeps.1] at h', hkeeps.2⟩
  rcases travel_of_step ht hjob with ⟨kind, next, hwaits⟩ | ⟨o, -, hwaits⟩
  · exact .inr ⟨kind, next, _, hwaits⟩
  · -- The tour is opened at the bottom of the waits
    have hbottom := h.bottom
    rw [hwaits] at hbottom
    exact .inl (hbottom.1 rfl)

/-- In every world that can be reached every task has somebody to ask for its moves. -/
theorem Reachable.asks (hw : Reachable s w) : ∀ t ∈ w.tasks, t.Asks := by
  obtain ⟨cs, rfl⟩ := hw
  suffices h : ∀ (cs : List Choice) (w : World), Reachable s w → (∀ t ∈ w.tasks, t.Asks) →
      ∀ t ∈ (w.follow s cs).tasks, t.Asks from
    h cs {} .initial (by simp [tasks, active])
  intro cs
  induction cs with
  | nil => exact fun _ _ h => h
  | cons c cs ih =>
      intro w hw h
      refine ih _ (hw.choose c) fun t' ht' => ?_
      cases hw.way.toNumbered.comes ht' with
      | stays hold => exact h t' hold
      | @steps t _ hmover _ hstep =>
          exact asks_step (h t (active_subset_tasks w (mem_active_of_mover? hmover))) hstep
      | starts _ hfresh =>
          generalize Task.job _ = job at hfresh
          cases hfresh with
          | move => exact ⟨by simp, by simp [Job.isOpening], Wait.Bottomed.cons trivial rfl⟩
          | reaction => exact ⟨by simp, by simp [Job.isOpening], Wait.Bottomed.cons trivial rfl⟩
          | timer => exact ⟨by simp, by simp [Job.isOpening], trivial⟩
      | asked _ _ hnew =>
          subst hnew
          exact ⟨fun _ _ => .inl rfl, fun _ => rfl, trivial⟩

/-! ## One attempt -/

/-- Where a task is that is to make a move on its own, and has not left. -/
inductive Pending (w : World) (id : Nat) (m : Move) : Prop where
  | seeking : ⟨id, .seek m, [.journey]⟩ ∈ w.ready → Pending w id m
  | queued : ⟨id, .depart m, [.journey]⟩ ∈ w.queue → Pending w id m
  /-- It was given the way. -/
  | leaving : ⟨id, .depart m, [.journey]⟩ ∈ w.ready → Pending w id m

end World

/-- A task that has left, or has found out that it need not, and makes no other move. -/
def Task.IsPast (t : Task) : Prop :=
  (∃ above, t.waits = above ++ [.journey] ∧ t.leaves? = none ∧ ∀ m, t.job ≠ .seek m) ∨
    t.job.isEnded = true ∧ t.waits = []

namespace World

variable {s : Stage} {w w' : World} {t t' u : Task} {c : Choice} {id : Nat} {m : Move}

/-- No task of that number leaves any more. -/
structure Past (w : World) (id : Nat) : Prop where
  below : id < w.nextTask
  tasks : ∀ t ∈ w.tasks, t.id = id → t.IsPast

/-- How often a task leaves, or finds out that it need not, along a schedule. -/
def attempts (s : Stage) (id : Nat) : World → List Choice → Nat
  | _, [] => 0
  | w, c :: cs =>
    (w.mover? c).toList.countP (fun t => t.id == id && t.leaves?.isSome) +
      attempts s id (w.choose s c) cs

theorem attempts_append (s : Stage) (id : Nat) : ∀ (cs ds : List Choice) (w : World),
    attempts s id w (cs ++ ds) = attempts s id w cs + attempts s id (w.follow s cs) ds
  | [], ds, w => by simp [attempts]
  | c :: cs, ds, w => by
      rw [List.cons_append, attempts, attempts, attempts_append s id cs ds, follow_cons,
        Nat.add_assoc]

/-- Who is about to leave after a step was given the way in it. -/
theorem leaves?_of_step (ht : (t.job.step s w t.id t.waits).2.task? t.id = some t')
    (hleaves : t'.leaves? = some m) : t.job = .seek m := by
  have hshift := Job.step_shift s w t.id t.waits t.job
  generalize t.waits = waits at hshift ht
  generalize t.job = job at hshift ht ⊢
  generalize (job.step s w t.id waits).2 = turn at hshift ht
  have hinner : ∀ {job : Job} {waits : List Wait}, job.isInner = true ∨ job.isEnded = true ∨
      (∃ m, job = .travel m) → Task.leaves? ⟨t.id, job, waits⟩ = none := by
    rintro job waits (h | h | ⟨m, rfl⟩)
    · cases job <;> first | rfl | cases h
    · cases job <;> first | rfl | cases h
    · rfl
  cases hshift with
  | inner _ _ hleft hjob' _ =>
      cases (Turn.task?_of_left? hleft t.id).symm.trans ht
      rw [hinner hjob'] at hleaves
      cases hleaves
  | resume _ hjob' =>
      cases ht
      rw [hinner (hjob'.imp_right .inl)] at hleaves
      cases hleaves
  | opened hjob' =>
      cases ht
      rcases hjob' with rfl | rfl <;> cases hleaves
  | cleared hjob' =>
      cases ht
      rcases hjob' with h' | ⟨n, rfl⟩
      · rw [hinner (.inr (.inl h'))] at hleaves
        cases hleaves
      · cases hleaves
  | settle hleft =>
      cases (Turn.task?_of_left? hleft t.id).symm.trans ht
      cases hleaves
  | take =>
      cases ht
      cases hleaves
      rfl
  | queue =>
      cases ht
      cases hleaves
      rfl
  | finish => cases ht
  | _ =>
      cases ht
      cases hleaves

/-- Who has left makes no other move. -/
theorem isPast_step (h : t.IsPast) (ht : (t.job.step s w t.id t.waits).2.task? t.id = some t') :
    t'.IsPast := by
  obtain ⟨id, job, waits⟩ := t
  rcases h with ⟨above, hwaits, -, hseek⟩ | ⟨hended, hwaits⟩
  · simp only at hwaits hseek
    subst hwaits
    by_cases hended : job.isEnded = true ∧ above = []
    · obtain ⟨hjob, rfl⟩ := hended
      obtain ⟨o, rfl⟩ := Job.eq_ended hjob
      cases ht
      exact .inr ⟨rfl, rfl⟩
    · obtain ⟨job', above', hleft, hseek'⟩ := Job.step_above s w id [.journey]
        (fun h habove => hended ⟨h, habove⟩) rfl hseek
      have hturn := Turn.task?_of_left? hleft id
      refine .inl ⟨above', ?_, ?_, ?_⟩
      · cases hturn.symm.trans ht
        rfl
      · cases hleaves : t'.leaves? with
        | none => rfl
        | some m => exact absurd (leaves?_of_step ht hleaves) (hseek m)
      · cases hturn.symm.trans ht
        exact hseek'
  · simp only at hwaits hended
    subst hwaits
    obtain ⟨o, rfl⟩ := Job.eq_ended hended
    cases ht

/-- Who leaves has left after the step, whether or not it leads anywhere. -/
theorem isPast_of_depart (hjob : t.job = .depart m) (hwaits : t.waits = [.journey])
    (ht : (t.job.step s w t.id t.waits).2.task? t.id = some t') : t'.IsPast := by
  have hshift := Job.step_shift s w t.id t.waits t.job
  rw [hjob, hwaits] at hshift ht
  generalize (Job.step s w t.id [.journey] (.depart m)).2 = turn at hshift ht
  cases hshift with
  | inner _ h => cases h
  | stay =>
      cases ht
      exact .inl ⟨[], rfl, rfl, by simp⟩
  | leave =>
      cases ht
      exact .inl ⟨[.cleared _], rfl, rfl, by simp⟩

theorem nextTask_destroy (w : World) : w.destroy.nextTask = w.nextTask := by
  unfold World.destroy
  split
  · rfl
  · simp [release_eq]

/-- No number is given back in a step. -/
theorem nextTask_effect {job : Job} {waits : List Wait} (he : Job.Effect s w id job waits w') :
    w.nextTask ≤ w'.nextTask := by
  cases he with
  | calm hcalm =>
      obtain ⟨_, _, _, _, _, rfl⟩ := hcalm.eq
      exact Nat.le_refl _
  | destroy => exact Nat.le_of_eq w.nextTask_destroy.symm
  | spawn => exact Nat.le_succ _
  | ring => exact Nat.le_succ _
  | leave =>
      obtain ⟨_, _, heq⟩ := (w.release .stop).tidy_eq (s := s) (stopAt s _)
      exact Nat.le_of_eq (by rw [heq, release_eq])
  | arrive =>
      rw [bind_eq]
      exact Nat.le_add_right _ _
  | «open» =>
      rw [bind_eq]
      exact Nat.le_add_right _ _
  | handOver =>
      unfold World.handOver
      split <;> exact Nat.le_refl _
  | take => exact Nat.le_refl _
  | abort => exact Nat.le_refl _

theorem nextTask_choose (s : Stage) (w : World) (c : Choice) :
    w.nextTask ≤ (w.choose s c).nextTask := by
  obtain ⟨t, others, -, -, heq⟩ | ⟨-, hw⟩ | ⟨d, -, heq⟩ := choose_cases s w c
  · have hplace : ∀ (w : World) (id : Nat) (turn : Turn), (w.place id turn).nextTask = w.nextTask := by
      intro w id turn
      unfold place
      split <;> rfl
    have heffect := nextTask_effect
      (Job.step_effect s { w with ready := others } t.id t.waits t.job)
    rw [heq, takeTurn_eq, hplace]
    exact heffect
  · obtain ⟨_, _, _, _, heq⟩ := hw.eq
    exact Nat.le_of_eq (by rw [heq])
  · rw [heq]
    cases d with
    | subscribe label topic responses =>
        simp only [ask]
        split <;> exact Nat.le_refl _
    | destroy => exact Nat.le_of_eq w.nextTask_destroy.symm
    | unsubscribe label => exact Nat.le_refl _
    | _ => exact Nat.le_succ _

/-- Every choice leaves past what is past. -/
theorem Past.choose (h : Past w id) (hw : Reachable s w) : Past (w.choose s c) id := by
  refine ⟨Nat.lt_of_lt_of_le h.below (nextTask_choose s w c), fun t' ht' hid => ?_⟩
  have hbelow := h.below
  cases hw.way.toNumbered.comes ht' with
  | stays hold => exact h.tasks t' hold hid
  | @steps t _ hmover _ hstep =>
      have hmem := active_subset_tasks w (mem_active_of_mover? hmover)
      exact isPast_step (h.tasks t hmem ((Turn.id_of_task? hstep).symm.trans hid)) hstep
  | starts _ _ hnew => omega
  | asked _ _ hnew =>
      rw [hnew] at hid
      simp only at hid
      omega

/-- Whose moves are past does not leave again. -/
theorem Past.attempts : ∀ (cs : List Choice) {w : World}, Past w id → Reachable s w →
    attempts s id w cs = 0 ∧ Past (w.follow s cs) id
  | [], _, h, _ => ⟨rfl, h⟩
  | c :: cs, w, h, hw => by
      obtain ⟨hnone, hpast⟩ := Past.attempts cs (h.choose (c := c) hw) (hw.choose c)
      refine ⟨?_, hpast⟩
      rw [World.attempts, hnone, Nat.add_zero, List.countP_eq_zero]
      intro t ht hleaves
      simp only [Bool.and_eq_true, beq_iff_eq] at hleaves
      have hmem := active_subset_tasks w (mem_active_of_mover? (Option.mem_toList.mp ht))
      obtain ⟨-, -, hno, -⟩ | ⟨hended, -⟩ := h.tasks t hmem hleaves.1
      · simp [hno] at hleaves
      · obtain ⟨id, job, waits⟩ := t
        obtain ⟨o, rfl⟩ := Job.eq_ended hended
        simp [Task.leaves?] at hleaves

/-- Who seeks the way in a choice has it then, or queues for it. -/
theorem seek_choose {waits : List Wait} (hmover : w.mover? c = some ⟨id, .seek m, waits⟩) :
    ⟨id, .depart m, waits⟩ ∈ (w.choose s c).ready ∨ ⟨id, .depart m, waits⟩ ∈ (w.choose s c).queue := by
  obtain ⟨t, others, hmover', -, heq⟩ | ⟨hnone, -⟩ | ⟨d, rfl, -⟩ := choose_cases s w c
  · cases hmover.symm.trans hmover'
    rw [heq, takeTurn_seek]
    split
    · exact .inl List.mem_cons_self
    · exact .inr (List.mem_append_right _ List.mem_cons_self)
  · cases hmover.symm.trans hnone
  · cases hmover

/-- A task that is to make a move is still to make it after a choice, unless it leaves in it. -/
theorem Pending.choose (h : Pending w id m) (hw : Reachable s w) :
    (∃ t, w.mover? c = some t ∧ t.id = id ∧ t.leaves?.isSome = true ∧ Past (w.choose s c) id) ∨
      (∀ t, w.mover? c = some t → t.id = id → t.leaves? = none) ∧ Pending (w.choose s c) id m := by
  have hway := hw.way
  have hsame : ∀ {t u : Task}, u ∈ w.tasks → w.mover? c = some t → t.id = u.id → t = u :=
    fun hu ht hid => hway.eq_of_id (active_subset_tasks w (mem_active_of_mover? ht)) hu hid
  have hready : ∀ {u : Task}, u ∈ w.ready → u ∈ w.tasks := fun hu => by simp [tasks, active, hu]
  have hno : ∀ {job : Job}, ¬ Task.IsTimer ⟨id, job, [.journey]⟩ := fun h => by cases h.waits
  cases h with
  | seeking hmem =>
      by_cases hmine : ∃ t, w.mover? c = some t ∧ t.id = id
      · obtain ⟨t, hmover, hid⟩ := hmine
        cases hsame (hready hmem) hmover hid
        refine .inr ⟨fun t ht _ => ?_, ?_⟩
        · cases hmover.symm.trans ht
          rfl
        · rcases seek_choose (s := s) hmover with hleaving | hqueued
          · exact .leaving hleaving
          · exact .queued hqueued
      · have hother : ∀ u, w.mover? c = some u → u.id ≠ id := fun u hu hid => hmine ⟨u, hu, hid⟩
        exact .inr ⟨fun t ht hid => absurd hid (hother t ht),
          .seeking (mem_ready_choose hway hmem hno hother)⟩
  | queued hmem =>
      -- Who queues takes no step
      have hother : ∀ u, w.mover? c = some u → u.id ≠ id := by
        intro u hu hid
        cases hsame (List.mem_append_right _ hmem) hu hid
        have hdistinct := hway.distinct
        rw [List.nil_append, tasks, List.map_append, List.nodup_append] at hdistinct
        exact hdistinct.2.2 _ (List.mem_map_of_mem (mem_active_of_mover? hu)) _
          (List.mem_map_of_mem hmem) rfl
      refine .inr ⟨fun t ht hid => absurd hid (hother t ht), ?_⟩
      cases hw.passing c with
      | stay _ hqueue => exact .queued (hqueue ▸ hmem)
      | take _ hfree =>
          rw [hway.free hfree] at hmem
          cases hmem
      | join _ _ _ hqueue => exact .queued (hqueue ▸ List.mem_append_left _ hmem)
      | free _ _ hnobody =>
          rw [hnobody] at hmem
          cases hmem
      | pass _ _ hqueue _ hrest hhead =>
          rw [hqueue] at hmem
          rcases List.mem_cons.mp hmem with rfl | hmem
          · exact .leaving hhead
          · exact .queued (hrest ▸ hmem)
  | leaving hmem =>
      by_cases hmine : ∃ t, w.mover? c = some t ∧ t.id = id
      · obtain ⟨t, hmover, hid⟩ := hmine
        cases hsame (hready hmem) hmover hid
        refine .inl ⟨_, hmover, rfl, rfl, ?_, fun t' ht' hid' => ?_⟩
        · exact Nat.lt_of_lt_of_le (hway.below _ (hready hmem)) (nextTask_choose s w c)
        · obtain ⟨others, hstep⟩ := hway.toNumbered.steps_of_mover hmover ht' hid'
          exact isPast_of_depart rfl rfl hstep
      · have hother : ∀ u, w.mover? c = some u → u.id ≠ id := fun u hu hid => hmine ⟨u, hu, hid⟩
        exact .inr ⟨fun t ht hid => absurd hid (hother t ht),
          .leaving (mem_ready_choose hway hmem hno hother)⟩

/-- Along every schedule a task that is to make a move leaves once, or is still to leave. -/
theorem Pending.attempts : ∀ (cs : List Choice) {w : World}, Pending w id m → Reachable s w →
    attempts s id w cs = 0 ∧ Pending (w.follow s cs) id m ∨
      attempts s id w cs = 1 ∧ Past (w.follow s cs) id
  | [], _, h, _ => .inl ⟨rfl, h⟩
  | c :: cs, w, h, hw => by
      rw [World.attempts, follow_cons]
      rcases h.choose (c := c) hw with ⟨t, hmover, hid, hleaves, hpast⟩ | ⟨hno, hpending⟩
      · obtain ⟨hnone, hpast'⟩ := hpast.attempts cs (hw.choose c)
        refine .inr ⟨?_, hpast'⟩
        simp [hnone, hmover, hid, hleaves]
      · have hzero : (w.mover? c).toList.countP (fun t => t.id == id && t.leaves?.isSome) = 0 := by
          refine List.countP_eq_zero.mpr fun t ht hleaves => ?_
          simp only [Bool.and_eq_true, beq_iff_eq] at hleaves
          simp [hno t (Option.mem_toList.mp ht) hleaves.1] at hleaves
        rw [hzero, Nat.zero_add]
        exact hpending.attempts cs (hw.choose c)

/-! ## Endless schedules -/

/-- The first choices of an endless schedule. -/
def first (σ : Nat → Choice) (k : Nat) : List Choice :=
  (List.range k).map σ

/-- The world after the first choices of an endless schedule. -/
def after (s : Stage) (w : World) (σ : Nat → Choice) (k : Nat) : World :=
  w.follow s (first σ k)

theorem first_succ (σ : Nat → Choice) (k : Nat) : first σ (k + 1) = first σ k ++ [σ k] := by
  simp [first, List.range_succ]

theorem after_succ (s : Stage) (w : World) (σ : Nat → Choice) (k : Nat) :
    after s w σ (k + 1) = (after s w σ k).choose s (σ k) := by
  rw [after, first_succ, follow_append]
  rfl

/-- An endless schedule that is fair to all: whoever is ready takes a step some time, unless it is
cancelled, and whoever has the way gives it on some time. -/
structure Fair (s : Stage) (w : World) (σ : Nat → Choice) : Prop where
  turns : ∀ k, ∀ t ∈ (after s w σ k).ready, ∃ k' ≥ k,
    (∃ u, (after s w σ k').mover? (σ k') = some u ∧ u.id = t.id) ∨
      ∀ u ∈ (after s w σ k').tasks, u.id ≠ t.id
  ends : ∀ k id, (after s w σ k).traveller = some id → ∃ k' ≥ k, (after s w σ k').traveller ≠ some id

variable {σ : Nat → Choice}

/-- Who is ready takes its next step some time. -/
theorem Fair.moves (hf : Fair s w σ) (hw : Reachable s w) {k : Nat} (ht : t ∈ (after s w σ k).ready)
    (hno : ¬ t.IsTimer) : ∃ k' ≥ k, (after s w σ k').mover? (σ k') = some t := by
  obtain ⟨k₁, hk₁, hsome⟩ := hf.turns k t ht
  have htask : ∀ {k : Nat}, t ∈ (after s w σ k).ready → t ∈ (after s w σ k).tasks := by
    intro k h
    simp [tasks, active, h]
  have hsame : ∀ {k : Nat} {u : Task}, t ∈ (after s w σ k).ready →
      (after s w σ k).mover? (σ k) = some u → u.id = t.id → u = t := fun h hu hid =>
    (hw.follow _).way.eq_of_id (active_subset_tasks _ (mem_active_of_mover? hu)) (htask h) hid
  -- The induction is on how long the step is away
  obtain ⟨d, rfl⟩ := Nat.exists_eq_add_of_le hk₁
  induction d generalizing k with
  | zero =>
      rcases hsome with ⟨u, hu, hid⟩ | hgone
      · exact ⟨k, Nat.le_refl k, hsame ht hu hid ▸ hu⟩
      · exact absurd rfl (hgone t (htask ht))
  | succ d ih =>
      by_cases hmine : ∃ u, (after s w σ k).mover? (σ k) = some u ∧ u.id = t.id
      · obtain ⟨u, hu, hid⟩ := hmine
        exact ⟨k, Nat.le_refl k, hsame ht hu hid ▸ hu⟩
      · have hnext : t ∈ (after s w σ (k + 1)).ready := by
          rw [after_succ]
          exact mem_ready_choose (hw.follow _).way ht hno fun u hu hid => hmine ⟨u, hu, hid⟩
        rw [show k + (d + 1) = k + 1 + d by omega] at hsome
        obtain ⟨k', hk', hmover⟩ := ih hnext (Nat.le_add_right _ _) hsome
        exact ⟨k', by omega, hmover⟩

/-- The head of the queue is given the way some time; the others move up, and whoever came meanwhile is
behind them. -/
theorem Fair.hands_over (hf : Fair s w σ) (hw : Reachable s w) {k : Nat} {t : Task} {ts : List Task}
    (hqueue : (after s w σ k).queue = t :: ts) :
    ∃ k' ≥ k, t ∈ (after s w σ k').ready ∧ ∃ more, (after s w σ k').queue = ts ++ more := by
  have hreach : ∀ k, Reachable s (after s w σ k) := fun k => hw.follow _
  obtain ⟨id, hid⟩ : ∃ id, (after s w σ k).traveller = some id := by
    refine Option.ne_none_iff_exists'.mp fun hfree => ?_
    rw [(hreach k).way.free hfree] at hqueue
    cases hqueue
  obtain ⟨k₁, hk₁, hends⟩ := hf.ends k id hid
  -- The induction is on how long the end of the move in progress is away
  obtain ⟨d, rfl⟩ := Nat.exists_eq_add_of_le hk₁
  induction d generalizing k ts with
  | zero => exact absurd hid hends
  | succ d ih =>
      have hlater : ∀ more, (after s w σ (k + 1)).traveller = some id →
          (after s w σ (k + 1)).queue = t :: (ts ++ more) →
          ∃ k' ≥ k, t ∈ (after s w σ k').ready ∧ ∃ more, (after s w σ k').queue = ts ++ more := by
        intro more hstill hnext
        rw [show k + (d + 1) = k + 1 + d by omega] at hends
        obtain ⟨k', hk', hmem, more', hrest⟩ := ih hnext hstill (Nat.le_add_right _ _) hends
        exact ⟨k', by omega, hmem, more ++ more', by rw [hrest, List.append_assoc]⟩
      have hpassing := (hreach k).passing (σ k)
      rw [← after_succ] at hpassing
      cases hpassing with
      | stay hsame hstays =>
          exact hlater [] (hsame.trans hid) (by rw [hstays, hqueue, List.append_nil])
      | take _ hfree => cases hid.symm.trans hfree
      | join _ hheld hstill hjoins =>
          exact hlater _ (hstill.trans (hheld.symm.trans hid)) (by rw [hjoins, hqueue]; rfl)
      | free _ _ hnobody => cases hqueue.symm.trans hnobody
      | pass _ _ hhead _ hrest hready =>
          cases hqueue.symm.trans hhead
          exact ⟨k + 1, Nat.le_succ k, hready, [], by rw [hrest, List.append_nil]⟩

/-- Who queues for the way is given it some time. -/
theorem Fair.reaches_head (hf : Fair s w σ) (hw : Reachable s w) : ∀ (place : Nat) {k : Nat},
    (after s w σ k).queue[place]? = some t → ∃ k' ≥ k, t ∈ (after s w σ k').ready := by
  intro place
  -- The induction is on the place in the queue
  induction place with
  | zero =>
      intro k hplace
      cases hqueue : (after s w σ k).queue with
      | nil => simp [hqueue] at hplace
      | cons v vs =>
          obtain ⟨k', hk', hmem, -⟩ := hf.hands_over hw hqueue
          rw [hqueue] at hplace
          cases hplace
          exact ⟨k', hk', hmem⟩
  | succ place ih =>
      intro k hplace
      cases hqueue : (after s w σ k).queue with
      | nil => simp [hqueue] at hplace
      | cons v vs =>
          obtain ⟨k', hk', -, more, hrest⟩ := hf.hands_over hw hqueue
          rw [hqueue, List.getElem?_cons_succ] at hplace
          have hlt : place < vs.length := (List.getElem?_eq_some_iff.mp hplace).1
          obtain ⟨k'', hk'', hmem⟩ := ih (k := k') (by
            rw [hrest, List.getElem?_append_left hlt]
            exact hplace)
          exact ⟨k'', by omega, hmem⟩

/-- In a fair schedule a task that is to make a move leaves some time. -/
theorem Fair.leaves (hf : Fair s w σ) (hw : Reachable s w) (h : Pending w id m) :
    ∃ k, attempts s id w (first σ k) = 1 := by
  have hno : ∀ {job : Job}, ¬ Task.IsTimer ⟨id, job, [.journey]⟩ := fun h => by cases h.waits
  have hleaving : ∀ {k : Nat}, ⟨id, .depart m, [.journey]⟩ ∈ (after s w σ k).ready →
      ∃ k, attempts s id w (first σ k) = 1 := by
    intro k hmem
    obtain ⟨k', -, hmover⟩ := hf.moves hw hmem hno
    have hpos : 0 < attempts s id w (first σ (k' + 1)) := by
      rw [first_succ, attempts_append]
      refine Nat.lt_of_lt_of_le ?_ (Nat.le_add_left _ _)
      rw [attempts, show (w.follow s (first σ k')).mover? (σ k') = _ from hmover]
      simp [attempts, Task.leaves?]
    rcases h.attempts (first σ (k' + 1)) hw with ⟨hnone, -⟩ | ⟨hone, -⟩
    · omega
    · exact ⟨k' + 1, hone⟩
  have hqueued : ∀ {k : Nat}, ⟨id, .depart m, [.journey]⟩ ∈ (after s w σ k).queue →
      ∃ k, attempts s id w (first σ k) = 1 := by
    intro k hmem
    obtain ⟨place, hplace⟩ := List.mem_iff_getElem?.mp hmem
    obtain ⟨k', -, hready⟩ := hf.reaches_head hw place hplace
    exact hleaving hready
  cases h with
  | seeking hmem =>
      obtain ⟨k, -, hmover⟩ := hf.moves (k := 0) hw hmem hno
      have hsought := seek_choose (s := s) hmover
      rw [← after_succ] at hsought
      rcases hsought with hready | hqueue
      · exact hleaving hready
      · exact hqueued hqueue
  | queued hmem => exact hqueued (k := 0) hmem
  | leaving hmem => exact hleaving (k := 0) hmem

/-! ## Moves that are asked for on the way -/

/-- Who is to leave when the player has ended stays, and changes nothing. -/
theorem depart_of_destroyed {i : Nat} (hend : w.destroyed = true) (ht : w.ready[i]? = some t)
    (hjob : t.job = .depart m) : w.choose s (.turn i) =
      { w with ready := ⟨t.id, .ended .completed, t.waits⟩ :: w.ready.eraseIdx i } := by
  simp [choose, ht, takeTurn, hjob, Job.step, depart, hend, Turn.ended, place]

/-- A move that a handler asks for on the way to a stop is neither lost nor waited for, however tasks take
turns.

- The handler goes on at once, without a failure, and nothing happens but that a task is started.
- Along every schedule that task is to leave, or has left once.
- It leaves only after the task of the handler has given the way on, having come to its stop, failed or
  broken off; and it changes nothing if the player has ended by then.
- In every fair schedule it leaves some time.
- Whoever has the way neither queues for it nor begins to. -/
theorem nested_move_deferred {i : Nat} (hs : s.concurrent = true) (hw : Reachable s w)
    (ht : w.ready[i]? = some t) (hjob : t.job = .travel m) (hway : w.traveller = some t.id) :
    let v := w.choose s (.turn i)
    let n := w.nextTask
    (∃ kind next ys, t.waits = .moved kind next :: ys ∧
      v = { w with
        nextTask := n + 1
        ready := ⟨t.id, .ended .completed, t.waits⟩ ::
          (w.ready.eraseIdx i ++ [⟨n, .seek m, [.journey]⟩]) } ∧
      ∀ u, (Job.ended .completed).step s u t.id t.waits = (u, .go (.act kind (next none)) ys)) ∧
    (∀ cs, attempts s n v cs = 0 ∧ Pending (v.follow s cs) n m ∨
      attempts s n v cs = 1 ∧ Past (v.follow s cs) n) ∧
    (∀ cs k u, (v.follow s cs).ready[k]? = some u → u.id = n → u.job = .depart m →
      (∃ ds c es o, cs = ds ++ c :: es ∧ (v.follow s ds).GivesWay c t.id o ∧
        (o = .completed ∨ (∃ e, o = .failed e) ∨ ∃ crash, o = .crashed crash)) ∧
      ((v.follow s cs).destroyed = true → (v.follow s cs).choose s (.turn k) =
        { v.follow s cs with
          ready := ⟨n, .ended .completed, u.waits⟩ :: (v.follow s cs).ready.eraseIdx k })) ∧
    (∀ σ, Fair s v σ → ∃ k, attempts s n v (first σ k) = 1) ∧
    ∀ cs, ∀ u ∈ (v.follow s cs).tasks, (v.follow s cs).traveller = some u.id →
      u ∈ (v.follow s cs).active ∧ u ∉ (v.follow s cs).queue ∧
        (u.job.step s (v.follow s cs) u.id u.waits).2.isQueue = false := by
  intro v n
  have hready : t ∈ w.ready := List.mem_of_getElem? ht
  have htask : t ∈ w.tasks := by simp [tasks, active, hready]
  have hholds := hw.way.holdsWay_of_traveller (by simp [active, hready]) hway
  have hv : Reachable s v := hw.choose _
  have hnext : v = { w with
      nextTask := n + 1
      ready := ⟨t.id, .ended .completed, t.waits⟩ ::
        (w.ready.eraseIdx i ++ [⟨n, .seek m, [.journey]⟩]) } := by
    simp [v, n, choose, ht, takeTurn, hjob, Job.step, travel, hholds.journey, hs, World.start,
      Turn.ended, place]
  have hpending : Pending v n m := by
    rw [hnext]
    exact .seeking (by simp)
  refine ⟨?_, fun cs => hpending.attempts cs hv, fun cs k u hu hid hdepart => ⟨?_, fun hend => ?_⟩,
    fun σ hf => hf.leaves hv hpending, fun cs u hu => traveller_never_queues (hv.follow cs) hu⟩
  · rcases (hw.asks t htask).travel m hjob with hnone | ⟨kind, next, ys, hwaits⟩
    · -- Who is on the way waits for something
      have hjourney := hholds.journey
      rw [hnone] at hjourney
      cases hjourney
    · exact ⟨kind, next, ys, hwaits, hnext, fun u => by rw [hwaits]; rfl⟩
  · have huready := List.mem_of_getElem? hu
    have hutask : u ∈ (v.follow s cs).tasks := by simp [tasks, active, huready]
    have hreach := hv.follow cs
    obtain ⟨ys, hwaits⟩ := (hreach.way.stacked u hutask).job (by rw [hdepart]; rfl)
    have huway := hreach.way.holder u (by simp [active, huready])
      ⟨by simp [hwaits, Wait.isJourney], by simp [hdepart]⟩
    have htraveller : v.traveller = some t.id := by
      rw [hnext]
      exact hway
    rcases gives_way_before cs hv htraveller with hstill | ⟨ds, c, es, o, hsplit, hgives⟩
    · -- The two tasks have different numbers
      have hlt := hw.way.below t htask
      rw [huway, hid] at hstill
      exact absurd (Option.some.inj hstill) (Nat.ne_of_gt hlt)
    · obtain ⟨zs, hmover⟩ := hgives
      exact ⟨ds, c, es, o, hsplit, ⟨zs, hmover⟩,
        (hv.follow ds).outcome_cases (mem_active_of_mover? hmover)⟩
  · rw [depart_of_destroyed hend hu hdepart, hid]

end World

/-- A tour of two stops, of which the first sends on to the second. -/
def Stage.eager : Stage where
  document := ⟨[⟨"a", none, [⟨"go", none⟩], [], none, []⟩, ⟨"b", none, [], [], none, []⟩], [], none, []⟩
  config := { settleFrames := 0 }
  handlers := ⟨[("go", fun _ => .perform (.move (.offset 1)) fun _ => .succeed)]⟩

namespace World

/-- On `Stage.eager` the player is asked for the first stop, up to where the handler there asks for the
next one. -/
def untilEager : List Choice :=
  .ask (.move (.index 0)) :: List.replicate 10 (.turn 0)

/-- Whoever is ready first takes a step. -/
private theorem eager_fair :
    Fair .eager ((World.follow .eager {} untilEager).choose .eager (.turn 0)) fun _ => .turn 0 := by
  generalize hv : (World.follow .eager {} untilEager).choose .eager (.turn 0) = v
  -- After so many steps everyone has ended
  have hlast : (after .eager v (fun _ => .turn 0) 28).tasks = [] ∧
      (after .eager v (fun _ => .turn 0) 28).traveller = none := by
    subst hv
    exact ⟨rfl, rfl⟩
  have hrests : ∀ j, after .eager v (fun _ => .turn 0) (28 + j) = after .eager v (fun _ => .turn 0) 28 := by
    have hready : (after .eager v (fun _ => .turn 0) 28).ready = [] :=
      List.eq_nil_iff_forall_not_mem.mpr fun t ht =>
        List.not_mem_nil (hlast.1 ▸ (show t ∈ World.tasks _ by simp [tasks, active, ht]))
    intro j
    induction j with
    | zero => rfl
    | succ j ih =>
        rw [← Nat.add_assoc, after_succ, ih]
        simp [choose, hready]
  refine ⟨fun k t _ => ⟨28 + k, Nat.le_add_left _ _, .inr fun u hu => ?_⟩,
    fun k id _ => ⟨28 + k, Nat.le_add_left _ _, ?_⟩⟩
  · rw [hrests, hlast.1] at hu
    cases hu
  · rw [hrests, hlast.2]
    simp

/-- After thirteen steps more the task of the second move leaves. -/
private theorem eager_leaves : ∃ u,
    (((World.follow .eager {} untilEager).choose .eager (.turn 0)).follow .eager
      (List.replicate 13 (.turn 0))).ready[0]? = some u ∧ u.job = .depart (.offset 1) ∧ u.id = 1 :=
  ⟨_, rfl, rfl, rfl⟩

/-- On `Stage.eager` the handler of the first stop goes on when it has asked for the next one; the task of
that move leaves once, and before that the first move has given the way on. -/
theorem eager_move_deferred :
    let v := (World.follow .eager {} untilEager).choose .eager (.turn 0)
    (∃ k, attempts .eager 1 v (first (fun _ => .turn 0) k) = 1) ∧
      ∃ ds c es o, List.replicate 13 (.turn 0) = ds ++ c :: es ∧
        (v.follow .eager ds).GivesWay c 0 o := by
  have hreach : Reachable .eager (World.follow .eager {} untilEager) := ⟨untilEager, rfl⟩
  have hnext : (World.follow .eager {} untilEager).nextTask = 1 := rfl
  have hway : (World.follow .eager {} untilEager).traveller = some 0 := rfl
  obtain ⟨t, ht, hjob, hid⟩ : ∃ t, (World.follow .eager {} untilEager).ready[0]? = some t ∧
      t.job = .travel (.offset 1) ∧ t.id = 0 := ⟨_, rfl, rfl, rfl⟩
  have hdeferred := nested_move_deferred (s := .eager) rfl hreach ht hjob (by rw [hway, hid])
  simp only [hnext, hid] at hdeferred
  obtain ⟨-, -, hafter, hfair, -⟩ := hdeferred
  obtain ⟨u, hu, hdepart, huid⟩ := eager_leaves
  obtain ⟨⟨ds, c, es, o, hsplit, hgives, -⟩, -⟩ := hafter _ 0 u hu huid hdepart
  exact ⟨hfair _ eager_fair, ds, c, es, o, hsplit, hgives⟩

end World

end DiagramTour
