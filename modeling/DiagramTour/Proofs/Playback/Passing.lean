import DiagramTour.Proofs.Playback.Chronicle

/-!
# How the way is passed on

A task gets the way when nobody has it, or at the head of the queue when it is given on.  Whoever has
the way never queues for it, and whoever is ready stays so until it takes a step.

## Architecture

- `World.mem_ready_choose`: nobody who is ready is put aside by others, but for timers.
- `World.Passing` lists what a choice does to the traveller and to the queue, and
  `World.Reachable.passing` says that this is all.
- `World.traveller_never_queues`: who has the way does not wait for it.
- `World.gives_way_before`: before another task has the way it was given on.
-/

namespace DiagramTour

namespace World

variable {s : Stage} {w w' : World} {t u : Task} {c : Choice} {hand : List Task}

/-! ## Who is ready -/

theorem Timed.mem_ready_release (h : Timed w hand) (p : Part) (ht : t ∈ w.ready)
    (hno : ¬ t.IsTimer) : t ∈ (w.release p).ready := by
  have htask : t ∈ hand ++ w.tasks := by simp [tasks, active, ht]
  have hid : t.id ∉ (w.rig p).timers := fun hi => hno (h.timers t htask p hi)
  rw [release_eq]
  exact List.mem_filter.mpr ⟨ht, by simpa using hid⟩

/-- No effect of a step puts anyone aside who is ready, but for timers. -/
theorem Timed.mem_ready_effect {id : Nat} {job : Job} {waits : List Wait} (h : Timed w hand)
    (he : Job.Effect s w id job waits w') (ht : t ∈ w.ready) (hno : ¬ t.IsTimer) : t ∈ w'.ready := by
  cases he with
  | calm hcalm =>
      obtain ⟨_, _, _, _, _, rfl⟩ := hcalm.eq
      exact ht
  | destroy =>
      unfold World.destroy
      split
      · exact ht
      · have h' : Timed { w with destroyed := true } hand := ⟨⟨h.distinct, h.below, h.rigs⟩, h.timers⟩
        exact (h'.release .tour).mem_ready_release .stop (h'.mem_ready_release .tour ht hno) hno
  | leave =>
      obtain ⟨_, _, heq⟩ := (w.release .stop).tidy_eq (s := s) (stopAt s _)
      rw [heq]
      exact h.mem_ready_release .stop ht hno
  | arrive =>
      rw [bind_eq]
      exact List.mem_append_left _ ht
  | «open» =>
      rw [bind_eq]
      exact List.mem_append_left _ ht
  | handOver =>
      unfold World.handOver
      split
      · exact ht
      · exact List.mem_append_left _ ht
  | spawn => exact List.mem_append_left _ ht
  | ring => exact List.mem_append_left _ ht
  | take => exact ht
  | abort => exact ht

theorem mem_ready_place (id : Nat) (turn : Turn) (ht : t ∈ w.ready) : t ∈ (w.place id turn).ready := by
  unfold place
  split
  · exact List.mem_cons_of_mem _ ht
  · exact ht
  · exact List.mem_cons_of_mem _ ht
  · exact ht
  · exact ht
  · exact ht

/-- Who is ready stays so until it takes a step, unless it is a timer. -/
theorem mem_ready_choose (hw : Way w []) (ht : t ∈ w.ready) (hno : ¬ t.IsTimer)
    (hother : ∀ u, w.mover? c = some u → u.id ≠ t.id) : t ∈ (w.choose s c).ready := by
  have herase : ∀ i u, w.ready[i]? = some u → t ∈ w.ready.eraseIdx i ∨ u = t := by
    intro i u hi
    obtain ⟨hlt, rfl⟩ := List.getElem?_eq_some_iff.mp hi
    rcases List.mem_cons.mp ((List.getElem_cons_eraseIdx_perm hlt).symm.subset ht) with h | h
    · exact .inr h.symm
    · exact .inl h
  cases c with
  | turn i =>
      simp only [choose, mover?] at hother ⊢
      cases hi : w.ready[i]? with
      | none => exact ht
      | some u =>
          obtain ⟨hlt, hget⟩ := List.getElem?_eq_some_iff.mp hi
          have hhand := hw.take (hget ▸ (List.getElem_cons_eraseIdx_perm hlt).symm)
          rcases herase i u hi with hrest | rfl
          · exact mem_ready_place _ _
              (hhand.toTimed.mem_ready_effect (Job.step_effect s _ u.id u.waits u.job) hrest hno)
          · exact absurd rfl (hother u hi)
  | yield i =>
      simp only [choose]
      cases hi : w.ready[i]? with
      | none => exact ht
      | some u =>
          rcases herase i u hi with hrest | rfl
          · exact List.mem_append_left _ hrest
          · exact List.mem_append_right _ List.mem_cons_self
  | resume i =>
      simp only [choose]
      split
      · exact List.mem_append_left _ ht
      · exact ht
  | wake i now =>
      simp only [choose]
      split
      · split
        · exact List.mem_append_left _ ht
        · exact ht
      · exact ht
  | ask d =>
      have hstart : ∀ (job : Job), t ∈ (w.start job []).ready := fun _ => List.mem_append_left _ ht
      cases d with
      | subscribe label topic responses =>
          simp only [choose, ask]
          split <;> exact ht
      | unsubscribe label => exact ht
      | destroy =>
          -- A step that destroys the player does the same as who asks for it
          have heffect : Job.Effect s w 0 (.sleep 0) [] w.destroy := .destroy
          exact hw.toTimed.mem_ready_effect heffect ht hno
      | _ => exact hstart _

/-! ## Who has the way, and who queues -/

/-- What a choice does to the traveller and to those who queue. -/
inductive Passing (w : World) (c : Choice) (w' : World) : Prop where
  | stay : w'.traveller = w.traveller → w'.queue = w.queue → Passing w c w'
  /-- A task takes the way, which nobody had. -/
  | take {id : Nat} {m : Move} {ys : List Wait} : w.mover? c = some ⟨id, .seek m, .journey :: ys⟩ →
      w.traveller = none → w'.traveller = some id → w'.queue = w.queue →
      ⟨id, .depart m, .journey :: ys⟩ ∈ w'.ready → Passing w c w'
  /-- A task joins the queue behind all others. -/
  | join {id i : Nat} {m : Move} {ys : List Wait} : w.mover? c = some ⟨id, .seek m, .journey :: ys⟩ →
      w.traveller = some i → w'.traveller = some i →
      w'.queue = w.queue ++ [⟨id, .depart m, .journey :: ys⟩] → Passing w c w'
  /-- The way is given on to nobody. -/
  | free {id : Nat} {o : Outcome} {ys : List Wait} : w.mover? c = some ⟨id, .ended o, .journey :: ys⟩ →
      w.traveller = some id → w.queue = [] → w'.traveller = none → w'.queue = [] → Passing w c w'
  /-- The way is given on to the head of the queue. -/
  | pass {id : Nat} {o : Outcome} {ys : List Wait} {v : Task} {vs : List Task} :
      w.mover? c = some ⟨id, .ended o, .journey :: ys⟩ → w.traveller = some id → w.queue = v :: vs →
      w'.traveller = some v.id → w'.queue = vs → v ∈ w'.ready → Passing w c w'

/-- Who seeks the way takes it, or joins the queue. -/
theorem takeTurn_seek (s : Stage) (w : World) (id : Nat) (m : Move) (waits : List Wait)
    (others : List Task) : w.takeTurn s ⟨id, .seek m, waits⟩ others =
      if w.traveller.isNone then
        { w with ready := ⟨id, .depart m, waits⟩ :: others, traveller := some id }
      else { w with ready := others, queue := w.queue ++ [⟨id, .depart m, waits⟩] } := by
  simp only [takeTurn, Job.step, seek]
  cases w.traveller <;> rfl

/-- Whatever a choice does to the traveller and to those who queue is one of these. -/
theorem Reachable.passing (hw : Reachable s w) (c : Choice) : Passing w c (w.choose s c) := by
  have hway := hw.way
  obtain ⟨t, others, hmover, hperm, heq⟩ | ⟨-, hw'⟩ | ⟨d, rfl, heq⟩ := choose_cases s w c
  · have hhand := hway.take hperm
    have hmem := mem_active_of_mover? hmover
    rw [heq]
    by_cases hseek : ∃ m, t.job = .seek m
    · obtain ⟨id, job, waits⟩ := t
      obtain ⟨m, rfl⟩ := hseek
      obtain ⟨ys, rfl⟩ := (hway.stacked _ (active_subset_tasks w hmem)).job rfl
      rw [takeTurn_seek]
      split
      · rename_i hfree
        exact .take hmover (Option.isNone_iff_eq_none.mp hfree) rfl rfl List.mem_cons_self
      · rename_i hheld
        obtain ⟨i, hi⟩ := Option.ne_none_iff_exists'.mp (by simpa using hheld)
        exact .join hmover hi hi rfl
    · by_cases hend : ∃ o ys, t.job = .ended o ∧ t.waits = .journey :: ys
      · obtain ⟨id, job, waits⟩ := t
        obtain ⟨o, ys, rfl, rfl⟩ := hend
        have htraveller := hway.holder _ hmem ⟨by simp [Wait.isJourney], by simp⟩
        have hstep : w.takeTurn s ⟨id, .ended o, .journey :: ys⟩ others =
            ({ w with ready := others } : World).handOver.place id (.ended o ys) := rfl
        rw [hstep]
        cases hqueue : w.queue with
        | nil =>
            refine .free hmover htraveller hqueue ?_ ?_ <;>
              simp [Turn.ended, place, World.handOver]
        | cons v vs =>
            refine .pass hmover htraveller hqueue ?_ ?_ ?_ <;>
              simp [Turn.ended, place, World.handOver]
      · -- Any other step leaves the way alone
        have hseek' : ∀ m, t.job ≠ .seek m := fun m hm => hseek ⟨m, hm⟩
        have hend' : ∀ o ys, t.job = .ended o → t.waits ≠ .journey :: ys :=
          fun o ys hjob hwaits => hend ⟨o, ys, hjob, hwaits⟩
        have hother := hhand.toTimed.undisturbed hseek' hend'
          (Job.step_effect s { w with ready := others } t.id t.waits t.job)
        obtain ⟨hturn, -⟩ := Task.holdsWay_step_iff (s := s) (w := { w with ready := others }) hseek'
          hend'
        rw [takeTurn_eq]
        exact .stay ((Way.traveller_place _ _ _).trans hother.traveller)
          ((Way.active_place _ t.id _ hturn).2.trans hother.queue)
  · obtain ⟨_, _, _, _, heq⟩ := hw'.eq
    rw [heq]
    exact .stay rfl rfl
  · have hasked := Way.undisturbed_ask hway.toTimed d
    rw [heq]
    exact .stay hasked.traveller hasked.queue

/-- Who has the way neither queues for it nor begins to. -/
theorem traveller_never_queues (hw : Reachable s w) (ht : t ∈ w.tasks)
    (htraveller : w.traveller = some t.id) :
    t ∈ w.active ∧ t ∉ w.queue ∧ (t.job.step s w t.id t.waits).2.isQueue = false := by
  obtain ⟨u, hu, hid, hholds⟩ := hw.way.held t.id htraveller
  have hsame : u = t := hw.way.eq_of_id (active_subset_tasks w hu) ht hid
  subst hsame
  refine ⟨hu, fun hqueue => ?_, ?_⟩
  · -- Its number would be there twice
    have hdistinct := hw.way.distinct
    rw [List.nil_append, tasks, List.map_append, List.nodup_append] at hdistinct
    exact hdistinct.2.2 _ (List.mem_map_of_mem hu) _ (List.mem_map_of_mem hqueue) rfl
  · by_cases hend : ∃ o ys, u.job = .ended o ∧ u.waits = .journey :: ys
    · obtain ⟨o, ys, hjob, hwaits⟩ := hend
      rw [hjob, hwaits]
      rfl
    · exact (Task.holdsWay_step_iff hholds.job
        fun o ys hjob hwaits => hend ⟨o, ys, hjob, hwaits⟩).1

/-- A task that ends its move has come to a stop or gone nowhere, has failed, or has broken off. -/
theorem Reachable.outcome_cases (hw : Reachable s w) {id : Nat} {o : Outcome} {ys : List Wait}
    (ht : ⟨id, .ended o, .journey :: ys⟩ ∈ w.active) :
    o = .completed ∨ (∃ e, o = .failed e) ∨ ∃ crash, o = .crashed crash := by
  have hholds : Task.HoldsWay ⟨id, .ended o, .journey :: ys⟩ := ⟨by simp [Wait.isJourney], by simp⟩
  obtain ⟨cs, rfl⟩ := hw
  have hrecalls := recalls_chronicle s cs
  generalize Chronicle.follow s {} {} cs = k at hrecalls
  cases hrecalls with
  | resting hrest =>
      obtain ⟨zs, -, ⟨m, hm⟩ | hjob⟩ := hrest _ ht hholds
      · cases hm
      · cases hjob
        exact .inl rfl
  | underway hon =>
      obtain ⟨job, above, hmem, hleg⟩ := hon.leg
      have hway := Reachable.way (s := s) ⟨cs, rfl⟩
      have hsame := hway.eq_of_holdsWay ht hmem hholds ⟨by simp [Wait.isJourney], leg_ne_seek hleg⟩
      obtain ⟨rfl, rfl, hwaits⟩ := Task.mk.inj hsame
      have hnone : above = [] := by
        by_contra hne
        exact (hway.stacked _ (active_subset_tasks _ hmem)).ne_journey (by simp [Wait.isJourney]) hne
          ys hwaits.symm
      subst hnone
      have hlanded := landed_of_leg hleg
      cases o with
      | completed => exact .inl rfl
      | failed e => exact .inr (.inl ⟨e, rfl⟩)
      | crashed crash => exact .inr (.inr ⟨crash, rfl⟩)
      | collected es => cases hlanded
      | counted n => cases hlanded

/-- A task gives the way on in a choice. -/
def GivesWay (w : World) (c : Choice) (id : Nat) (o : Outcome) : Prop :=
  ∃ ys, w.mover? c = some ⟨id, .ended o, .journey :: ys⟩

/-- Who has the way keeps it along a schedule until it gives it on. -/
theorem gives_way_before {id : Nat} : ∀ (cs : List Choice) {w : World}, Reachable s w →
    w.traveller = some id → (w.follow s cs).traveller = some id ∨
      ∃ ds c es o, cs = ds ++ c :: es ∧ (w.follow s ds).GivesWay c id o
  | [], _, _, h => .inl h
  | c :: cs, w, hw, h => by
      have hstays : (w.choose s c).traveller = some id → ((w.choose s c).follow s cs).traveller =
          some id ∨ ∃ ds c' es o, c :: cs = ds ++ c' :: es ∧ (w.follow s ds).GivesWay c' id o := by
        intro hstay
        rcases gives_way_before cs (hw.choose c) hstay with h | ⟨ds, c', es, o, rfl, hgives⟩
        · exact .inl h
        · exact .inr ⟨c :: ds, c', es, o, rfl, hgives⟩
      cases hw.passing c with
      | stay hsame => exact hstays (hsame.trans h)
      | take _ hfree => cases hfree.symm.trans h
      | join _ hheld hstill => exact hstays (hstill.trans (hheld.symm.trans h))
      | @free i o ys hmover htraveller =>
          cases htraveller.symm.trans h
          exact .inr ⟨[], c, cs, o, rfl, ys, hmover⟩
      | @pass i o ys v vs hmover htraveller =>
          cases htraveller.symm.trans h
          exact .inr ⟨[], c, cs, o, rfl, ys, hmover⟩

end World

end DiagramTour
