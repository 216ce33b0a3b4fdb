import DiagramTour.Proofs.Playback.Tasks
import Mathlib.Data.List.Nodup

/-!
# The way

At most one task at a time is on the way to a stop.  The way is taken and given on explicitly, so
that this is not obvious: it rests on how the waits of a task are stacked, on who may be in the
queue, and on nobody being cancelled while holding the way.

## Architecture

- `Task.Stacked`: what is done on the way stands right above the wait that gives the way on.
- `Task.HoldsWay`: a task that was given the way and has not given it on.
- `World.Way` ties both to the traveller and the queue, and `World.Way.choose` keeps it.
- `World.Way.others_keep`: while a task holds the way nobody else changes where the player stands.
-/

namespace DiagramTour

/-! ## Stacks -/

/-- Whether a wait belongs to a part of the way. -/
def Wait.isLeg : Wait → Bool
  | .cleared _ | .entered _ | .arrived _ _ | .concluded _ => true
  | _ => false

/-- Whether a job belongs to a part of the way. -/
def Job.isLeg : Job → Bool
  | .seek _ | .depart _ | .settle _ _ => true
  | _ => false

/-- In a list of waits the parts of a way stand right above the way. -/
def Wait.Legged : List Wait → Prop
  | [] => True
  | x :: xs => (x.isLeg = true → ∃ ys, xs = .journey :: ys) ∧ Wait.Legged xs

/-- What is done on the way stands right above the way, and there is one at most. -/
structure Task.Stacked (t : Task) : Prop where
  job : t.job.isLeg = true → ∃ ys, t.waits = .journey :: ys
  legs : Wait.Legged t.waits
  once : t.waits.countP Wait.isJourney ≤ 1

/-- A task that was given the way and has not given it on. -/
structure Task.HoldsWay (t : Task) : Prop where
  journey : t.waits.any Wait.isJourney = true
  job : ∀ m, t.job ≠ .seek m

namespace Wait

theorem isLeg_of_isInner {x : Wait} (h : x.isInner = true) : x.isLeg = false := by
  cases x <;> simp_all [isInner, isLeg]

theorem isJourney_of_isInner {x : Wait} (h : x.isInner = true) : x.isJourney = false := by
  cases x <;> simp_all [isInner, isJourney]

theorem Legged.append {top waits : List Wait} (htop : ∀ x ∈ top, x.isInner = true)
    (h : Legged waits) : Legged (top ++ waits) := by
  induction top with
  | nil => exact h
  | cons x xs ih =>
      refine ⟨?_, ih fun y hy => htop y (List.mem_cons_of_mem _ hy)⟩
      simp [isLeg_of_isInner (htop x List.mem_cons_self)]

theorem countP_append {top waits : List Wait} (htop : ∀ x ∈ top, x.isInner = true) :
    (top ++ waits).countP isJourney = waits.countP isJourney := by
  rw [List.countP_append, List.countP_eq_zero.mpr, Nat.zero_add]
  intro x hx
  simp [isJourney_of_isInner (htop x hx)]

theorem any_append {top waits : List Wait} (htop : ∀ x ∈ top, x.isInner = true) :
    (top ++ waits).any isJourney = waits.any isJourney := by
  rw [List.any_append, List.any_eq_false.mpr, Bool.false_or]
  intro x hx
  simp [isJourney_of_isInner (htop x hx)]

end Wait

namespace Job

theorem isLeg_of_isInner {job : Job} (h : job.isInner = true) : job.isLeg = false := by
  cases job <;> simp_all [isInner, isLeg]

theorem isLeg_of_isEnded {job : Job} (h : job.isEnded = true) : job.isLeg = false := by
  cases job <;> simp_all [isEnded, isLeg]

theorem ne_seek_of_isInner {job : Job} (h : job.isInner = true) (m : Move) : job ≠ .seek m := by
  rintro rfl
  cases h

theorem ne_seek_of_isEnded {job : Job} (h : job.isEnded = true) (m : Move) : job ≠ .seek m := by
  rintro rfl
  cases h

end Job

namespace Task

variable {s : Stage} {w : World} {t t' : Task}

theorem Stacked.of_waits {id : Nat} {job job' : Job} {waits : List Wait}
    (h : Stacked ⟨id, job, waits⟩)
    (hjob : job'.isLeg = true → job.isLeg = true) : Stacked ⟨id, job', waits⟩ :=
  ⟨fun h' => h.job (hjob h'), h.legs, h.once⟩

/-- The wait at the top may go. -/
theorem Stacked.pop {id : Nat} {job job' : Job} {wait : Wait} {waits : List Wait}
    (h : Stacked ⟨id, job, wait :: waits⟩) (hjob : job'.isLeg = true → wait.isLeg = true) :
    Stacked ⟨id, job', waits⟩ where
  job h' := h.legs.1 (hjob h')
  legs := h.legs.2
  once := by
    have honce := h.once
    simp only [List.countP_cons] at honce ⊢
    omega

/-- A wait that is no way may come at the top. -/
theorem Stacked.push {id : Nat} {job job' : Job} {wait : Wait} {waits : List Wait}
    (h : Stacked ⟨id, job, waits⟩) (hwait : wait.isLeg = true → job.isLeg = true)
    (hno : wait.isJourney = false) (hjob : job'.isLeg = false) :
    Stacked ⟨id, job', wait :: waits⟩ where
  job h' := by simp [hjob] at h'
  legs := ⟨fun h' => h.job (hwait h'), h.legs⟩
  once := by simpa [List.countP_cons, hno] using h.once

/-- Above a way there is no other one. -/
theorem Stacked.ne_journey {id : Nat} {job : Job} {above base : List Wait}
    (h : Stacked ⟨id, job, above ++ base⟩) (hway : base.any Wait.isJourney = true)
    (habove : above ≠ []) (ys : List Wait) : above ++ base ≠ .journey :: ys := by
  intro hwaits
  have honce := h.once
  cases above with
  | nil => exact habove rfl
  | cons x xs =>
      cases hwaits
      obtain ⟨y, hy, hjourney⟩ := List.any_eq_true.mp hway
      have hbase : 0 < base.countP Wait.isJourney := List.countP_pos_iff.mpr ⟨y, hy, hjourney⟩
      rw [List.cons_append, List.countP_cons_of_pos rfl, List.countP_append] at honce
      omega

/-- Every step keeps the parts of a way above the way. -/
theorem Stacked.step (h : t.Stacked)
    (ht : (t.job.step s w t.id t.waits).2.task? t.id = some t') : t'.Stacked := by
  have hshift := Job.step_shift s w t.id t.waits t.job
  obtain ⟨id, job, waits⟩ := t
  simp only at hshift ht
  generalize hturn : (job.step s w id waits).2 = turn at hshift ht
  cases hshift with
  | inner _ _ hleft hjob' htop =>
      cases (Turn.task?_of_left? hleft id).symm.trans ht
      refine ⟨?_, h.legs.append htop, Nat.le_trans (Nat.le_of_eq (Wait.countP_append htop)) h.once⟩
      intro hleg
      rcases hjob' with h' | h' | ⟨m, rfl⟩
      · simp [Job.isLeg_of_isInner h'] at hleg
      · simp [Job.isLeg_of_isEnded h'] at hleg
      · cases hleg
  | resume _ hjob' =>
      cases ht
      refine h.pop fun hleg => ?_
      rcases hjob' with h' | h'
      · simp [Job.isLeg_of_isInner h'] at hleg
      · simp [Job.isLeg_of_isEnded h'] at hleg
  | «begin» =>
      cases ht
      exact h.push (fun h' => by cases h') rfl rfl
  | opened hjob' =>
      cases ht
      refine h.pop fun hleg => ?_
      rcases hjob' with rfl | rfl <;> cases hleg
  | travel hno =>
      cases ht
      refine ⟨fun _ => ⟨_, rfl⟩, ⟨fun hleg => (by cases hleg), h.legs⟩, ?_⟩
      rw [List.countP_cons, List.countP_eq_zero.mpr]
      · simp [Wait.isJourney]
      · simpa using hno
  | leave =>
      cases ht
      exact h.push (fun _ => rfl) rfl rfl
  | cleared _ =>
      cases ht
      exact h.pop fun _ => rfl
  | settle hleft =>
      cases (Turn.task?_of_left? hleft id).symm.trans ht
      exact h.of_waits fun _ => rfl
  | enter =>
      cases ht
      exact h.push (fun _ => rfl) rfl rfl
  | entered hwait =>
      cases ht
      have hpop : Stacked ⟨id, .depart (.index 0), _⟩ := h.pop fun _ => rfl
      rcases hwait with ⟨es, -, rfl⟩ | ⟨e, -, rfl⟩
      · exact hpop.push (fun _ => rfl) rfl rfl
      · exact hpop.push (fun _ => rfl) rfl rfl
  | broken =>
      cases ht
      exact h.pop fun _ => rfl
  | arrive =>
      cases ht
      have hpop : Stacked ⟨id, .depart (.index 0), _⟩ := h.pop fun _ => rfl
      exact hpop.push (fun _ => rfl) rfl rfl
  | concluded =>
      cases ht
      exact h.pop fun _ => rfl
  | handOver =>
      cases ht
      exact h.pop fun hleg => by cases hleg
  | finish => cases ht
  | nested =>
      cases ht
      exact h.of_waits fun hleg => by cases hleg
  | ring =>
      cases ht
      exact h.of_waits fun hleg => by cases hleg
  | sleep =>
      cases ht
      exact h.of_waits fun hleg => by cases hleg
  | await =>
      cases ht
      exact h.of_waits fun hleg => by cases hleg
  | _ =>
      cases ht
      exact h.of_waits fun _ => rfl

/-- Only by seeking the way it is taken, and only by ending the wait for it it is given on; every
other step of a task leaves it as it is. -/
theorem holdsWay_step_iff (hseek : ∀ m, t.job ≠ .seek m)
    (hend : ∀ o ys, t.job = .ended o → t.waits ≠ .journey :: ys) :
    (t.job.step s w t.id t.waits).2.isQueue = false ∧
      (∀ t', (t.job.step s w t.id t.waits).2.task? t.id = some t' → (t'.HoldsWay ↔ t.HoldsWay)) ∧
      (t.HoldsWay → ∃ t', (t.job.step s w t.id t.waits).2.task? t.id = some t') := by
  have hshift := Job.step_shift s w t.id t.waits t.job
  obtain ⟨id, job, waits⟩ := t
  simp only at hshift hseek hend ⊢
  generalize hturn : (job.step s w id waits).2 = turn at hshift ⊢
  -- Where the waits have the same ways in them, only a job that seeks the way can differ
  have hsame : ∀ {job' : Job} {waits' : List Wait}, (∀ m, job' ≠ .seek m) →
      waits'.any Wait.isJourney = waits.any Wait.isJourney →
      (HoldsWay ⟨id, job', waits'⟩ ↔ HoldsWay ⟨id, job, waits⟩) := by
    intro job' waits' hjob' hany
    exact ⟨fun h => ⟨hany ▸ h.journey, hseek⟩, fun h => ⟨hany ▸ h.journey, hjob'⟩⟩
  cases hshift with
  | inner _ _ hleft hjob' htop =>
      have hturn' := Turn.task?_of_left? hleft id
      refine ⟨Turn.isQueue_of_left? hleft, fun t' ht => ?_, fun _ => ⟨_, hturn'⟩⟩
      cases hturn'.symm.trans ht
      refine hsame ?_ (Wait.any_append htop)
      rcases hjob' with h' | h' | ⟨m, rfl⟩
      · exact Job.ne_seek_of_isInner h'
      · exact Job.ne_seek_of_isEnded h'
      · simp
  | resume hwait hjob' =>
      refine ⟨rfl, fun t' ht => ?_, fun _ => ⟨_, rfl⟩⟩
      cases ht
      refine hsame ?_ (by simp [Wait.isJourney_of_isInner hwait])
      rcases hjob' with h' | h'
      · exact Job.ne_seek_of_isInner h'
      · exact Job.ne_seek_of_isEnded h'
  | opened hjob' =>
      refine ⟨rfl, fun t' ht => ?_, fun _ => ⟨_, rfl⟩⟩
      cases ht
      refine hsame ?_ (by simp [Wait.isJourney])
      rcases hjob' with rfl | rfl <;> simp
  | travel hno =>
      refine ⟨rfl, fun t' ht => ?_, fun _ => ⟨_, rfl⟩⟩
      cases ht
      exact ⟨fun h => absurd rfl (h.job _), fun h => by simpa [hno] using h.journey⟩
  | take => exact absurd rfl (hseek _)
  | queue => exact absurd rfl (hseek _)
  | cleared hjob' =>
      refine ⟨rfl, fun t' ht => ?_, fun _ => ⟨_, rfl⟩⟩
      cases ht
      refine hsame ?_ (by simp [Wait.isJourney])
      rcases hjob' with h' | ⟨n, rfl⟩
      · exact Job.ne_seek_of_isEnded h'
      · simp
  | settle hleft =>
      have hturn' := Turn.task?_of_left? hleft id
      refine ⟨Turn.isQueue_of_left? hleft, fun t' ht => ?_, fun _ => ⟨_, hturn'⟩⟩
      cases hturn'.symm.trans ht
      exact hsame (by simp) rfl
  | entered hwait =>
      refine ⟨rfl, fun t' ht => ?_, fun _ => ⟨_, rfl⟩⟩
      cases ht
      rcases hwait with ⟨es, -, rfl⟩ | ⟨e, -, rfl⟩
      · exact hsame (by simp) (by simp [Wait.isJourney])
      · exact hsame (by simp) (by simp [Wait.isJourney])
  | handOver => exact absurd rfl (hend _ _ rfl)
  | finish => exact ⟨rfl, fun t' ht => (by cases ht), fun h => (by simpa using h.journey)⟩
  | _ =>
      refine ⟨rfl, fun t' ht => ?_, fun _ => ⟨_, rfl⟩⟩
      cases ht
      exact hsame (by simp) (by simp [Wait.isJourney])

end Task

/-! ## Who is on the way -/

namespace World

/-- Who holds the way is the traveller, and who queues for it queues for a reason. -/
structure Way (w : World) (hand : List Task) : Prop extends Timed w hand where
  stacked : ∀ t ∈ hand ++ w.tasks, t.Stacked
  /-- Who queues is about to leave. -/
  queued : ∀ t ∈ w.queue, ∃ m ys, t.job = .depart m ∧ t.waits = .journey :: ys
  holder : ∀ t ∈ hand ++ w.active, t.HoldsWay → w.traveller = some t.id
  held : ∀ i, w.traveller = some i → ∃ t ∈ hand ++ w.active, t.id = i ∧ t.HoldsWay
  /-- Nobody queues where the way is free. -/
  free : w.traveller = none → w.queue = []

variable {s : Stage} {w w' : World} {t u : Task} {hand : List Task}

theorem active_subset_tasks (w : World) : w.active ⊆ w.tasks :=
  fun _ h => List.mem_append_left _ h

/-- A task is known by its number. -/
theorem Numbered.eq_of_id (h : Numbered w hand) (ht : t ∈ hand ++ w.tasks)
    (hu : u ∈ hand ++ w.tasks) (hid : t.id = u.id) : t = u :=
  List.inj_on_of_nodup_map h.distinct ht hu hid

/-- Nobody but timers is cancelled. -/
theorem Timed.mem_release (h : Timed w hand) (p : Part) (ht : t ∈ w.active)
    (hno : ¬ t.IsTimer) : t ∈ (w.release p).active := by
  have hid : t.id ∉ (w.rig p).timers := fun hi =>
    hno (h.timers t (List.mem_append_right _ (active_subset_tasks w ht)) p hi)
  rw [release_eq]
  simp only [active, List.mem_append, List.mem_map] at ht ⊢
  rcases ht with (ht | ht) | ⟨u, hu, rfl⟩
  · exact .inl (.inl (List.mem_filter.mpr ⟨ht, by simpa using hid⟩))
  · exact .inl (.inr ht)
  · exact .inr ⟨u, List.mem_filter.mpr ⟨hu, by simpa using hid⟩, rfl⟩

theorem Timed.mem_destroy (h : Timed w hand) (ht : t ∈ w.active) (hno : ¬ t.IsTimer) :
    t ∈ w.destroy.active := by
  unfold World.destroy
  split
  · exact ht
  · have h' : Timed { w with destroyed := true } hand := ⟨⟨h.distinct, h.below, h.rigs⟩, h.timers⟩
    exact (h'.release .tour).mem_release .stop (h'.mem_release .tour ht hno) hno

theorem not_isTimer_of_holdsWay (h : t.HoldsWay) : ¬ t.IsTimer := by
  intro ht
  have := h.journey
  simp [ht.waits] at this

/-- What an effect does to the tasks that are not in hand, unless the way is taken or given on. -/
structure Undisturbed (w w' : World) : Prop where
  traveller : w'.traveller = w.traveller
  queue : w'.queue = w.queue
  /-- Who is new is not on the way. -/
  old : ∀ t ∈ w'.active, t ∈ w.active ∨ (t.Stacked ∧ ¬ t.HoldsWay)
  /-- Who is on the way is not cancelled. -/
  kept : ∀ t ∈ w.active, ¬ t.IsTimer → t ∈ w'.active

private theorem Undisturbed.of_active (htraveller : w'.traveller = w.traveller)
    (hqueue : w'.queue = w.queue) (hactive : w'.active = w.active) : Undisturbed w w' :=
  ⟨htraveller, hqueue, fun _ ht => .inl (hactive ▸ ht), fun _ ht _ => hactive ▸ ht⟩

private theorem Undisturbed.start {job : Job} {waits : List Wait}
    (hstacked : Task.Stacked ⟨w.nextTask, job, waits⟩)
    (hno : ¬ Task.HoldsWay ⟨w.nextTask, job, waits⟩) : Undisturbed w (w.start job waits) := by
  refine ⟨rfl, rfl, ?_, ?_⟩
  · intro t ht
    simp only [World.start, active, List.mem_append, List.mem_singleton] at ht ⊢
    rcases ht with ((ht | rfl) | ht) | ht
    · exact .inl (.inl (.inl ht))
    · exact .inr ⟨hstacked, hno⟩
    · exact .inl (.inl (.inr ht))
    · exact .inl (.inr ht)
  · intro t ht _
    simp only [World.start, active, List.mem_append] at ht ⊢
    tauto

private theorem Undisturbed.bind (p : Part) (rs : List Reaction) (setting : Setting) :
    Undisturbed w (w.bind s p rs setting) := by
  rw [bind_eq]
  refine ⟨rfl, rfl, ?_, ?_⟩
  · intro t ht
    simp only [active, List.mem_append] at ht ⊢
    rcases ht with ((ht | ht) | ht) | ht
    · exact .inl (.inl (.inl ht))
    · obtain ⟨r, -, rfl⟩ := List.mem_map.mp ht
      exact .inr ⟨⟨by simp [Job.isLeg], trivial, by simp⟩, fun h => by simpa using h.journey⟩
    · exact .inl (.inl (.inr ht))
    · exact .inl (.inr ht)
  · intro t ht _
    simp only [active, List.mem_append] at ht ⊢
    tauto

private theorem active_release_subset (w : World) (p : Part) : (w.release p).active ⊆ w.active := by
  rw [release_eq]
  intro t ht
  simp only [active, List.mem_append, List.mem_map] at ht ⊢
  rcases ht with (ht | ht) | ⟨u, hu, rfl⟩
  · exact .inl (.inl (List.mem_filter.mp ht).1)
  · exact .inl (.inr ht)
  · exact .inr ⟨u, (List.mem_filter.mp hu).1, rfl⟩

private theorem Undisturbed.release (h : Timed w hand) (p : Part) : Undisturbed w (w.release p) := by
  refine ⟨?_, ?_, fun t ht => .inl (active_release_subset w p ht), fun t ht => h.mem_release p ht⟩
  · rw [release_eq]
  · rw [release_eq]

private theorem Undisturbed.destroy (h : Timed w hand) : Undisturbed w w.destroy := by
  refine ⟨?_, ?_, fun t ht => .inl ?_, fun t ht => h.mem_destroy ht⟩
  · unfold World.destroy
    split
    · rfl
    · simp [release_eq]
  · unfold World.destroy
    split
    · rfl
    · simp [release_eq]
  · unfold World.destroy at ht
    split at ht
    · exact ht
    · exact active_release_subset _ .tour (active_release_subset _ .stop ht)

/-- Every effect but for taking the way and giving it on leaves the others undisturbed. -/
theorem Timed.undisturbed {id : Nat} {job : Job} {waits : List Wait} (h : Timed w hand)
    (hseek : ∀ m, job ≠ .seek m) (hend : ∀ o ys, job = .ended o → waits ≠ .journey :: ys)
    (he : Job.Effect s w id job waits w') : Undisturbed w w' := by
  cases he with
  | calm hcalm =>
      obtain ⟨_, _, _, _, _, rfl⟩ := hcalm.eq
      exact .of_active rfl rfl rfl
  | destroy => exact .destroy h
  | spawn =>
      refine .start ⟨fun _ => ⟨_, rfl⟩, ⟨fun hleg => (by cases hleg), trivial⟩, by simp [Wait.isJourney]⟩ ?_
      exact fun h => absurd rfl (h.job _)
  | ring =>
      refine .start ⟨fun hleg => (by cases hleg), ⟨fun hleg => (by cases hleg), trivial⟩, ?_⟩ ?_
      · simp [Wait.isJourney]
      · exact fun h => by simpa [Wait.isJourney] using h.journey
  | take => exact absurd rfl (hseek _)
  | leave =>
      obtain ⟨_, _, heq⟩ := (w.release .stop).tidy_eq (s := s) (stopAt s _)
      rw [heq]
      have hrelease := Undisturbed.release h .stop
      exact ⟨hrelease.traveller, hrelease.queue, hrelease.old, hrelease.kept⟩
  | @arrive o j es waits =>
      have hbind := Undisturbed.bind (s := s) (w := { w with position := j, error := es.getLast? })
        .stop (stopAt s j).reactions (settingOf s j (stopAt s j))
      exact ⟨hbind.traveller, hbind.queue, hbind.old, hbind.kept⟩
  | «open» => exact .bind _ _ _
  | abort => exact .of_active rfl rfl rfl
  | handOver => exact absurd rfl (hend _ _ rfl)

/-! ## Every choice keeps the way -/

namespace Way

theorem take {others : List Task} (h : Way w []) (hperm : w.ready.Perm (t :: others)) :
    Way { w with ready := others } [t] := by
  have hactive : w.active.Perm (t :: ({ w with ready := others } : World).active) := by
    simp only [active, List.append_assoc]
    exact hperm.append_right _
  have htasks := tasks_take hperm
  refine ⟨h.toTimed.shrink (h.toNumbered.take hperm) htasks.symm.subset fun _ _ hi => hi, ?_, ?_,
    ?_, ?_, ?_⟩
  · exact fun u hu => h.stacked u (htasks.symm.subset hu)
  · exact h.queued
  · exact fun u hu => h.holder u (hactive.symm.subset hu)
  · intro i hi
    obtain ⟨u, hu, hid⟩ := h.held i hi
    exact ⟨u, hactive.subset hu, hid⟩
  · exact h.free

/-- Where a task that goes on need not queue it is active again. -/
theorem active_place (w : World) (id : Nat) (turn : Turn) (hturn : turn.isQueue = false) :
    (w.place id turn).active.Perm ((turn.task? id).toList ++ w.active) ∧
      (w.place id turn).queue = w.queue := by
  cases turn with
  | go job waits => exact ⟨.refl _, rfl⟩
  | pause job waits =>
      refine ⟨?_, rfl⟩
      simpa [World.place, active, Turn.task?] using
        @List.perm_middle Task ⟨id, job, waits⟩ (w.ready ++ w.paused)
          (w.asleep.map Prod.snd)
  | sleep ms job waits =>
      cases ms with
      | zero => exact ⟨.refl _, rfl⟩
      | succ n =>
          refine ⟨?_, rfl⟩
          simpa [World.place, active, Turn.task?] using
            @List.perm_middle Task ⟨id, job, waits⟩ (w.ready ++ w.paused ++ w.asleep.map Prod.snd)
              []
  | queue job waits => cases hturn
  | finish o => exact ⟨.refl _, rfl⟩

theorem traveller_place (w : World) (id : Nat) (turn : Turn) :
    (w.place id turn).traveller = w.traveller := by
  unfold World.place
  split <;> rfl

private theorem step_else (h : Way w [t]) (hseek : ∀ m, t.job ≠ .seek m)
    (hend : ∀ o ys, t.job = .ended o → t.waits ≠ .journey :: ys) :
    Way ((t.job.step s w t.id t.waits).1.place t.id (t.job.step s w t.id t.waits).2) [] := by
  have hmem : t ∈ [t] ++ w.tasks := by simp
  have hstacked : ∀ u, (t.job.step s w t.id t.waits).2.task? t.id = some u → u.Stacked :=
    fun u hu => (h.stacked t hmem).step hu
  have htimed := (h.toTimed.step (s := s)).place
  have hother := h.toTimed.undisturbed hseek hend (Job.step_effect s w t.id t.waits t.job)
  obtain ⟨hgo, hholds, hstays⟩ := Task.holdsWay_step_iff (s := s) (w := w) hseek hend
  generalize (t.job.step s w t.id t.waits).1 = w' at htimed hother ⊢
  generalize (t.job.step s w t.id t.waits).2 = turn at hstacked htimed hgo hholds hstays ⊢
  obtain ⟨hactive, hqueue⟩ := active_place w' t.id turn hgo
  have htraveller := (traveller_place w' t.id turn).trans hother.traveller
  refine ⟨htimed, ?_, ?_, ?_, ?_, ?_⟩
  · intro u hu
    rcases List.mem_append.mp ((tasks_place w' t.id turn).subset hu) with hhand | hu
    · exact hstacked u (Option.mem_toList.mp hhand)
    · rcases List.mem_append.mp hu with hu | hu
      · rcases hother.old u hu with hold | ⟨hnew, -⟩
        · exact h.stacked u (by simp [active_subset_tasks w hold])
        · exact hnew
      · exact h.stacked u (by simp [tasks, hother.queue ▸ hu])
  · intro u hu
    rw [hqueue, hother.queue] at hu
    exact h.queued u hu
  · intro u hu hway
    rw [htraveller]
    rcases List.mem_append.mp (hactive.subset hu) with hhand | hu
    · have hturn := Option.mem_toList.mp hhand
      rw [Turn.id_of_task? hturn]
      exact h.holder t (by simp) ((hholds u hturn).mp hway)
    · rcases hother.old u hu with hold | ⟨-, hno⟩
      · exact h.holder u (by simp [hold]) hway
      · exact absurd hway hno
  · intro i hi
    rw [htraveller] at hi
    obtain ⟨u, hu, hid, hway⟩ := h.held i hi
    rcases List.mem_append.mp hu with hhand | hu
    · cases List.mem_singleton.mp hhand
      obtain ⟨u, hturn⟩ := hstays hway
      refine ⟨u, hactive.symm.subset (by simp [hturn]), ?_, (hholds u hturn).mpr hway⟩
      rw [Turn.id_of_task? hturn, hid]
    · exact ⟨u, hactive.symm.subset (by
        simp [hother.kept u hu (not_isTimer_of_holdsWay hway)]), hid, hway⟩
  · intro hfree
    rw [hqueue, hother.queue]
    exact h.free (htraveller.symm.trans hfree)

private theorem step_seek {id : Nat} {m : Move} {waits : List Wait}
    (h : Way w [⟨id, .seek m, waits⟩]) :
    Way ((Job.step s w id waits (.seek m)).1.place id (Job.step s w id waits (.seek m)).2) [] := by
  have htimed := (h.toTimed.step (s := s)).place
  have hseeker := h.stacked ⟨id, .seek m, waits⟩ (by simp)
  have hleaver : Task.Stacked ⟨id, .depart m, waits⟩ := hseeker.of_waits fun _ => rfl
  obtain ⟨ys, hwaits⟩ := hseeker.job rfl
  have hstacked : ∀ u ∈ w.tasks, u.Stacked := fun u hu => h.stacked u (by simp [hu])
  have hholder : ∀ u ∈ w.active, u.HoldsWay → w.traveller = some u.id :=
    fun u hu => h.holder u (by simp [hu])
  simp only at htimed
  cases htraveller : w.traveller with
  | none =>
      -- The task takes the way
      have hstep : Job.step s w id waits (.seek m) =
          ({ w with traveller := some id }, .go (.depart m) waits) := by
        simp [Job.step, seek, htraveller]
      rw [hstep] at htimed ⊢
      refine ⟨htimed, ?_, h.queued, ?_, ?_, ?_⟩
      · rintro u (_ | ⟨_, hu⟩)
        · exact hleaver
        · exact hstacked u hu
      · rintro u (_ | ⟨_, hu⟩) hway
        · rfl
        · simp [hholder u hu hway] at htraveller
      · intro i hi
        cases hi
        refine ⟨⟨id, .depart m, waits⟩, List.mem_cons_self, rfl, ?_, by simp⟩
        exact List.any_eq_true.mpr ⟨.journey, hwaits ▸ List.mem_cons_self, rfl⟩
      · intro hfree
        cases hfree
  | some i =>
      -- Somebody else holds it
      have hstep : Job.step s w id waits (.seek m) = (w, .queue (.depart m) waits) := by
        simp [Job.step, seek, htraveller]
      rw [hstep] at htimed ⊢
      refine ⟨htimed, ?_, ?_, hholder, ?_, ?_⟩
      · intro u hu
        rcases List.mem_append.mp ((tasks_place w id (.queue (.depart m) waits)).subset hu)
          with hhand | hu
        · cases List.mem_singleton.mp hhand
          exact hleaver
        · exact hstacked u hu
      · intro u hu
        rcases List.mem_append.mp hu with hu | hu
        · exact h.queued u hu
        · cases List.mem_singleton.mp hu
          exact ⟨m, ys, rfl, hwaits⟩
      · intro j hj
        obtain ⟨u, hu, hid, hway⟩ := h.held j hj
        rcases List.mem_append.mp hu with hhand | hu
        · cases List.mem_singleton.mp hhand
          exact absurd rfl (hway.job m)
        · exact ⟨u, hu, hid, hway⟩
      · intro hfree
        cases htraveller.symm.trans hfree

private theorem step_handOver {id : Nat} {o : Outcome} {waits : List Wait}
    (h : Way w [⟨id, .ended o, .journey :: waits⟩]) :
    Way ((Job.step s w id (.journey :: waits) (.ended o)).1.place id
      (Job.step s w id (.journey :: waits) (.ended o)).2) [] := by
  have htimed := (h.toTimed.step (s := s)).place
  have hjourney := h.stacked ⟨id, .ended o, .journey :: waits⟩ (by simp)
  have hended : Task.Stacked ⟨id, .ended o, waits⟩ := hjourney.pop fun hleg => by cases hleg
  have hstacked : ∀ u ∈ w.tasks, u.Stacked := fun u hu => h.stacked u (by simp [hu])
  have htraveller : w.traveller = some id :=
    h.holder ⟨id, .ended o, .journey :: waits⟩ (by simp) ⟨by simp [Wait.isJourney], by simp⟩
  -- There was one way among the waits, and it is gone
  have hno : ¬ Task.HoldsWay ⟨id, .ended o, waits⟩ := by
    intro hway
    have honce := hjourney.once
    have hany := hway.journey
    simp only [List.countP_cons, Wait.isJourney, if_true] at honce
    have hnone : waits.countP Wait.isJourney = 0 := by omega
    rw [List.countP_eq_zero] at hnone
    obtain ⟨x, hx, hx'⟩ := List.any_eq_true.mp hany
    exact hnone x hx hx'
  have hnobody : ∀ u ∈ w.active, ¬ u.HoldsWay := by
    intro u hu hway
    have hid := h.holder u (by simp [hu]) hway
    have heq : (⟨id, .ended o, .journey :: waits⟩ : Task) = u := by
      refine h.eq_of_id (by simp) (by simp [active_subset_tasks w hu]) ?_
      exact Option.some.inj (htraveller.symm.trans hid)
    have hdistinct := h.distinct
    simp only [List.singleton_append, List.map_cons, List.nodup_cons] at hdistinct
    exact hdistinct.1 (List.mem_map.mpr ⟨u, active_subset_tasks w hu, heq ▸ rfl⟩)
  simp only at htimed
  have hstep : Job.step s w id (.journey :: waits) (.ended o) = (w.handOver, .ended o waits) := rfl
  rw [hstep] at htimed ⊢
  have hplace := tasks_place w.handOver id (.ended o waits)
  have hall : ∀ u ∈ (w.handOver.place id (.ended o waits)).tasks, u.Stacked := by
    intro u hu
    rcases List.mem_append.mp (hplace.subset hu) with hhand | hu
    · cases List.mem_singleton.mp hhand
      exact hended
    · exact hstacked u ((tasks_handOver w).subset hu)
  cases hqueue : w.queue with
  | nil =>
      have hover : w.handOver = { w with traveller := none } := by simp [handOver, hqueue]
      rw [hover] at htimed hall ⊢
      refine ⟨htimed, hall, h.queued, ?_, ?_, fun _ => hqueue⟩
      · rintro u (_ | ⟨_, hu⟩) hway
        · exact absurd hway hno
        · exact absurd hway (hnobody u hu)
      · intro i hi
        cases hi
  | cons v vs =>
      have hover : w.handOver =
          { w with traveller := some v.id, queue := vs, ready := w.ready ++ [v] } := by
        simp [handOver, hqueue]
      rw [hover] at htimed hall ⊢
      obtain ⟨m, ys, hjob, hwaits⟩ := h.queued v (by simp [hqueue])
      refine ⟨htimed, hall, fun u hu => h.queued u ?_, ?_, ?_, ?_⟩
      · rw [hqueue]
        exact List.mem_cons_of_mem _ hu
      · intro u hu hway
        simp only [Turn.ended, World.place, active, List.nil_append, List.cons_append,
          List.append_assoc, List.mem_cons, List.mem_append] at hu
        rcases hu with rfl | hu | rfl | hu | hu
        · exact absurd hway hno
        · exact absurd hway (hnobody u (by simp [active, hu]))
        · rfl
        · exact absurd hway (hnobody u (by simp [active, hu]))
        · exact absurd hway (hnobody u (by simp only [active, List.mem_append]; exact .inr hu))
      · intro i hi
        cases hi
        refine ⟨v, ?_, rfl, ?_, ?_⟩
        · simp [Turn.ended, World.place, active]
        · simp [hwaits, Wait.isJourney]
        · simp [hjob]
      · intro hfree
        cases hfree

/-- Every step of a task keeps the way. -/
theorem step (h : Way w [t]) :
    Way ((t.job.step s w t.id t.waits).1.place t.id (t.job.step s w t.id t.waits).2) [] := by
  by_cases hseek : ∃ m, t.job = .seek m
  · obtain ⟨id, job, waits⟩ := t
    obtain ⟨m, rfl⟩ := hseek
    exact h.step_seek
  · by_cases hend : ∃ o ys, t.job = .ended o ∧ t.waits = .journey :: ys
    · obtain ⟨id, job, waits⟩ := t
      obtain ⟨o, ys, rfl, rfl⟩ := hend
      exact h.step_handOver
    · exact h.step_else (fun m hm => hseek ⟨m, hm⟩) fun o ys hjob hwaits => hend ⟨o, ys, hjob, hwaits⟩

private theorem undisturbed (h : Way w []) (hn : Timed w' []) (hw : Undisturbed w w') :
    Way w' [] where
  toTimed := hn
  stacked t ht := by
    rcases List.mem_append.mp (show t ∈ w'.active ++ w'.queue from ht) with ht | ht
    · rcases hw.old t ht with hold | ⟨hnew, -⟩
      · exact h.stacked t (active_subset_tasks w hold)
      · exact hnew
    · rw [hw.queue] at ht
      exact h.stacked t (List.mem_append_right w.active ht)
  queued := hw.queue ▸ h.queued
  holder t ht hway := by
    rw [hw.traveller]
    rcases hw.old t ht with hold | ⟨-, hno⟩
    · exact h.holder t hold hway
    · exact absurd hway hno
  held i hi := by
    rw [hw.traveller] at hi
    obtain ⟨t, ht, hid, hway⟩ := h.held i hi
    exact ⟨t, hw.kept t ht (not_isTimer_of_holdsWay hway), hid, hway⟩
  free hfree := by
    rw [hw.queue]
    exact h.free (hw.traveller.symm.trans hfree)

theorem undisturbed_ask (h : Timed w []) (d : Demand) : Undisturbed w (w.ask d) := by
  have hstart : ∀ {job : Job}, job.isLeg = false → Undisturbed w (w.start job []) := by
    intro job hjob
    refine .start ⟨fun hleg => ?_, trivial, by simp⟩ fun hway => by simpa using hway.journey
    simp [hjob] at hleg
  cases d with
  | «begin» render => exact hstart rfl
  | move m => exact hstart rfl
  | dispatch event => exact hstart rfl
  | sleep ms => exact hstart rfl
  | subscribe label topic responses =>
      simp only [World.ask]
      split <;> exact .of_active rfl rfl rfl
  | unsubscribe label => exact .of_active rfl rfl rfl
  | destroy => exact .destroy h

/-- Every choice keeps the way. -/
theorem choose (h : Way w []) (c : Choice) : Way (w.choose s c) [] := by
  refine choose_induction (P := Way) ?_ ?_ ?_ ?_ c h
  · exact fun h hperm => h.take hperm
  · exact fun h => h.step
  · intro w w' h hw
    have hsub : [] ++ w'.tasks ⊆ [] ++ w.tasks := hw.tasks.subset
    have hactive := hw.active
    have hn := h.toNumbered.shuffle hw
    obtain ⟨_, _, _, _, rfl⟩ := hw.eq
    refine ⟨h.toTimed.shrink hn hsub fun _ _ hi => hi, fun t ht => h.stacked t (hsub ht), h.queued,
      fun t ht => h.holder t (hactive.subset ht), ?_, h.free⟩
    intro i hi
    obtain ⟨t, ht, hid⟩ := h.held i hi
    exact ⟨t, hactive.symm.subset ht, hid⟩
  · intro w d h
    exact h.undisturbed (h.toTimed.ask d) (undisturbed_ask h.toTimed d)

end Way

/-- In every world that can be reached the traveller is the one task that holds the way. -/
theorem Reachable.way (h : Reachable s w) : Way w [] := by
  refine h.induction (P := fun w => Way w []) ?_ fun _ c hw => hw.choose c
  exact ⟨Reachable.initial.timed (s := s), by simp [tasks, active], by simp, by simp [active],
    by simp, by simp⟩

/-! ## What others leave alone -/

/-- Where the player stands changes when a stop is reached, and its failure when one is given up too;
nothing else changes either. -/
theorem position_cases {id : Nat} {job : Job} {waits : List Wait}
    (he : Job.Effect s w id job waits w') :
    (w'.position = w.position ∧ w'.error = w.error) ∨
      (∃ o j es ys, job = .ended o ∧ waits = .arrived j es :: ys ∧ w'.position = j) ∨
      ∃ o j ys, job = .ended o ∧ waits = .entered j :: ys ∧ w'.position = w.position := by
  cases he with
  | calm hcalm =>
      obtain ⟨_, _, _, _, _, rfl⟩ := hcalm.eq
      exact .inl ⟨rfl, rfl⟩
  | destroy =>
      left
      unfold destroy
      split
      · exact ⟨rfl, rfl⟩
      · simp [release_eq]
  | leave =>
      obtain ⟨_, _, heq⟩ := (w.release .stop).tidy_eq (s := s) (stopAt s _)
      rw [heq, release_eq]
      exact .inl ⟨rfl, rfl⟩
  | arrive =>
      rw [bind_eq]
      exact .inr (.inl ⟨_, _, _, _, rfl, rfl, rfl⟩)
  | abort => exact .inr (.inr ⟨_, _, _, rfl, rfl, rfl⟩)
  | «open» =>
      rw [bind_eq]
      exact .inl ⟨rfl, rfl⟩
  | handOver =>
      left
      unfold handOver
      split <;> exact ⟨rfl, rfl⟩
  | _ => exact .inl ⟨rfl, rfl⟩

/-- Where the player stands changes only when a stop is reached or given up. -/
theorem position_effect {id : Nat} {job : Job} {waits : List Wait}
    (hno : ∀ o x xs, job = .ended o → waits = x :: xs →
      (∀ j es, x ≠ .arrived j es) ∧ ∀ j, x ≠ .entered j)
    (he : Job.Effect s w id job waits w') : w'.position = w.position ∧ w'.error = w.error := by
  obtain hsame | ⟨o, j, es, ys, hjob, hwaits, -⟩ | ⟨o, j, ys, hjob, hwaits, -⟩ := position_cases he
  · exact hsame
  · exact absurd rfl ((hno o _ _ hjob hwaits).1 j es)
  · exact absurd rfl ((hno o _ _ hjob hwaits).2 j)

/-- Who does not hold the way does not change where the player stands. -/
theorem position_of_not_holdsWay (hstacked : t.Stacked) (hno : ¬ t.HoldsWay)
    (he : Job.Effect s w t.id t.job t.waits w') : w'.position = w.position ∧ w'.error = w.error := by
  obtain ⟨id, job, waits⟩ := t
  refine position_effect ?_ he
  rintro o x xs rfl rfl
  have hleg : x.isLeg = true → False := by
    intro hx
    obtain ⟨ys, rfl⟩ := hstacked.legs.1 hx
    exact hno ⟨by simp [Wait.isJourney], by simp⟩
  constructor
  · rintro j es rfl
    exact hleg rfl
  · rintro j rfl
    exact hleg rfl

theorem mem_active_place (id : Nat) (turn : Turn) (ht : t ∈ w.active) :
    t ∈ (w.place id turn).active := by
  cases hqueue : turn.isQueue with
  | false => exact (Way.active_place w id turn hqueue).1.symm.subset (List.mem_append_right _ ht)
  | true =>
      cases turn with
      | queue job waits => exact ht
      | _ => cases hqueue

/-- Where a step leaves a task that need not queue. -/
theorem mem_active_of_left? {id : Nat} {job : Job} {waits : List Wait} {turn : Turn}
    (h : turn.left? = some (job, waits)) : ⟨id, job, waits⟩ ∈ (w.place id turn).active := by
  refine (Way.active_place w id turn (Turn.isQueue_of_left? h)).1.symm.subset ?_
  simp [Turn.task?_of_left? h id]

theorem position_place (w : World) (id : Nat) (turn : Turn) :
    (w.place id turn).position = w.position ∧ (w.place id turn).error = w.error := by
  unfold place
  split <;> exact ⟨rfl, rfl⟩

/-- Nothing that is asked for changes by itself where the player stands. -/
theorem position_ask (w : World) (d : Demand) :
    (w.ask d).position = w.position ∧ (w.ask d).error = w.error := by
  cases d with
  | subscribe label topic responses =>
      simp only [ask]
      split <;> exact ⟨rfl, rfl⟩
  | destroy =>
      simp only [ask, destroy]
      split
      · exact ⟨rfl, rfl⟩
      · simp [release_eq]
  | _ => exact ⟨rfl, rfl⟩

theorem mem_ready_of_mover? {c : Choice} (h : w.mover? c = some t) : t ∈ w.ready := by
  cases c with
  | turn i => exact List.mem_of_getElem? h
  | _ => cases h

theorem mem_active_of_mover? {c : Choice} (h : w.mover? c = some t) : t ∈ w.active :=
  List.mem_append_left _ (List.mem_append_left _ (mem_ready_of_mover? h))

/-- No two tasks hold the way. -/
theorem Way.eq_of_holdsWay (h : Way w []) (ht : t ∈ w.active) (hu : u ∈ w.active)
    (htway : t.HoldsWay) (huway : u.HoldsWay) : t = u := by
  refine h.eq_of_id (active_subset_tasks w ht) (active_subset_tasks w hu) ?_
  exact Option.some.inj ((h.holder t ht htway).symm.trans (h.holder u hu huway))

/-- While a task holds the way nobody else cancels it, takes the way or changes where the player
stands. -/
theorem Way.others_keep {c : Choice} (h : Way w []) (ht : t ∈ w.active) (hway : t.HoldsWay)
    (hc : ∀ u, w.mover? c = some u → u.id ≠ t.id) :
    t ∈ (w.choose s c).active ∧ (w.choose s c).position = w.position ∧
      (w.choose s c).error = w.error := by
  have hholder := h.holder t ht hway
  obtain ⟨u, others, hmover, hperm, heq⟩ | ⟨-, hw⟩ | ⟨d, -, heq⟩ := choose_cases s w c
  · have hne := hc u hmover
    have hhand := h.take hperm
    have hactive : t ∈ ({ w with ready := others } : World).active := by
      have hperm' : w.active.Perm (u :: ({ w with ready := others } : World).active) := by
        simp only [active, List.append_assoc]
        exact hperm.append_right _
      rcases List.mem_cons.mp (hperm'.subset ht) with rfl | ht
      · exact absurd rfl hne
      · exact ht
    have hno : ¬ u.HoldsWay := by
      intro hu
      have := hhand.holder u (by simp) hu
      exact hne (Option.some.inj (this.symm.trans hholder))
    have hstacked := hhand.stacked u (by simp)
    obtain ⟨hposition, herror⟩ :=
      position_of_not_holdsWay hstacked hno
        (Job.step_effect s { w with ready := others } u.id u.waits u.job)
    obtain ⟨id, job, waits⟩ := u
    rw [heq, takeTurn_eq]
    refine ⟨mem_active_place _ _ ?_, ?_⟩
    · by_cases hseek : ∃ m, job = .seek m
      · obtain ⟨m, rfl⟩ := hseek
        simp only [Job.step, seek, hholder]
        exact hactive
      · refine (hhand.toTimed.undisturbed (fun m hm => hseek ⟨m, hm⟩) ?_
          (Job.step_effect s _ id waits job)).kept t hactive (not_isTimer_of_holdsWay hway)
        rintro o ys rfl rfl
        exact hno ⟨by simp [Wait.isJourney], by simp⟩
    · obtain ⟨hsame, hsame'⟩ := position_place (job.step s { w with ready := others } id waits).1 id
        (job.step s { w with ready := others } id waits).2
      exact ⟨hsame.trans hposition, hsame'.trans herror⟩
  · have hactive := hw.active.symm.subset ht
    obtain ⟨_, _, _, _, hw'⟩ := hw.eq
    rw [hw'] at hactive ⊢
    exact ⟨hactive, rfl, rfl⟩
  · rw [heq]
    exact ⟨(undisturbed_ask h.toTimed d).kept t ht (not_isTimer_of_holdsWay hway), position_ask w d⟩

end World

end DiagramTour
