import DiagramTour.Proofs.Playback.Nested
import DiagramTour.Proofs.Playback.Rehearsal

/-!
# Timers

Reactions are bound to a player, and at some time they are taken down again.  A timer among them has
one chance: either it elapses, exactly when its delay is over, and sets off its actions once, or it is
taken down before and never does.  Nobody who has been set off is stopped any more.

## Architecture

- A `Bench` binds reactions and takes them down, while its player runs and its clock moves whenever
  nobody can go on without.  It keeps notes of the timers that were set, of the tasks that were
  started and of when the reactions were taken down.
- `World.Spares` is what most of what happens does to a timer: nothing.
- `Alarm.Status` relates what was noted about a timer to where its task is; every move of a bench
  keeps it (`Bench.Kept.move`).
- `timers_ring_once_or_never` reads the status off along a whole run.
-/

namespace DiagramTour

/-! ## Runs -/

/-- A timer as it was set. -/
structure Alarm where
  /-- The number of the task that waits for it. -/
  id : Nat
  /-- When it was set. -/
  time : Nat
  delay : Nat
  setting : Setting
  actions : List Action

/-- When a timer elapses. -/
def Alarm.due (a : Alarm) : Nat :=
  a.time + a.delay

/-- What is noted while reactions are bound and taken down. -/
inductive BenchNote where
  /-- A timer was set. -/
  | set (alarm : Alarm)
  /-- A task, which is given by its number, started another one. -/
  | started (id time : Nat) (task : Task)
  /-- The reactions were taken down. -/
  | shut

namespace BenchNote

/-- Whether a note is about what became of the timer with a number. -/
def concerns (id : Nat) : BenchNote → Bool
  | set _ => false
  | started starter _ _ => starter == id
  | shut => true

/-- The timer that was set, if one was. -/
def alarm? : BenchNote → Option Alarm
  | set a => some a
  | _ => none

end BenchNote

/-- A player with the reactions that were bound to it, and the notes so far. -/
structure Bench where
  world : World := {}
  /-- Whether nothing can be bound any more. -/
  dropped : Bool := false
  notes : List BenchNote := []

/-- What can happen next. -/
inductive BenchMove where
  /-- The ready task at a place takes a step. -/
  | turn (i : Nat)
  /-- Nobody is ready, and all who paused are again. -/
  | resume
  /-- Nobody can go on before some time has passed, and it passes. -/
  | tick
  | bind (reactions : List Reaction) (setting : Setting)
  | sleep (ms : Nat)
  | dispatch (event : HostEvent)
  | destroy
  | drop

namespace Bench

/-- The timers that some reactions set. -/
def alarmsOf (w : World) (reactions : List Reaction) (setting : Setting) : List Alarm :=
  ((reactions.filter Reaction.isTimer).zipIdx w.nextTask).map fun r =>
    ⟨r.2, w.now, r.1.delay, setting, r.1.actions⟩

/-- The notes on a step of a task: the tasks that it started, and whether it ended the player, which
takes the reactions down. -/
def notesOf (id : Nat) (w w' : World) : List BenchNote :=
  (w'.tasks.filter fun t => decide (w.nextTask ≤ t.id)).map (.started id w.now) ++
    if w'.destroyed && !w.destroyed then [.shut] else []

/-- What a move does. -/
def move (s : Stage) (b : Bench) : BenchMove → Bench
  | .turn i =>
    match b.world.ready[i]? with
    | some t =>
      let w := b.world.takeTurn s t (b.world.ready.eraseIdx i)
      { b with world := w, notes := b.notes ++ notesOf t.id b.world w }
    | none => b
  | .resume =>
    if b.world.ready.isEmpty then
      { b with world := { b.world with ready := b.world.paused, paused := [] } }
    else b
  | .tick => if b.world.isQuiet then { b with world := b.world.wake } else b
  | .bind reactions setting =>
    if b.dropped then b
    else { b with
      world := b.world.bind s .tour reactions setting
      notes := b.notes ++ (alarmsOf b.world reactions setting).map .set }
  | .sleep ms => { b with world := (b.world.startFirst [.sleep ms]).1 }
  | .dispatch event =>
    let listeners := b.world.host.matching event
    { b with world := (b.world.startFirst [.fire event listeners listeners.length]).1 }
  | .destroy => { b with world := b.world.release .tour, notes := b.notes ++ [.shut] }
  | .drop => { b with world := b.world.release .tour, notes := b.notes ++ [.shut], dropped := true }

/-- What some moves do, one after the other. -/
def run (s : Stage) (b : Bench) (moves : List BenchMove) : Bench :=
  moves.foldl (move s) b

/-- Whether no two tasks ever sleep until the same time. -/
def Apart (s : Stage) (b : Bench) : List BenchMove → Prop
  | [] => (b.world.asleep.map Prod.fst).Nodup
  | m :: moves => (b.world.asleep.map Prod.fst).Nodup ∧ Apart s (b.move s m) moves

instance decidableApart (s : Stage) : (b : Bench) → (moves : List BenchMove) →
    Decidable (Apart s b moves)
  | b, [] => inferInstanceAs (Decidable (b.world.asleep.map Prod.fst).Nodup)
  | b, m :: moves =>
    have := decidableApart s (b.move s m) moves
    inferInstanceAs (Decidable (_ ∧ Apart s (b.move s m) moves))

/-- A step of a player is a move. -/
theorem world_step (s : Stage) (b : Bench) :
    ∃ m, (b.move s m).world = b.world.step s := by
  cases hready : b.world.ready with
  | nil => exact ⟨.resume, by simp [move, World.step, hready]⟩
  | cons t rest => exact ⟨.turn 0, by simp [move, World.step, World.takeTurn, hready]⟩

/-- Letting everyone who is ready go on is nothing but moves. -/
theorem world_takeTurnsWithin (s : Stage) (b : Bench) (fuel : Nat) :
    ∃ moves, (b.run s moves).world = b.world.takeTurnsWithin s fuel := by
  induction fuel generalizing b with
  | zero => exact ⟨[], rfl⟩
  | succ fuel ih =>
      rw [World.takeTurnsWithin]
      split
      · exact ⟨[], rfl⟩
      · obtain ⟨m, hm⟩ := world_step s b
        obtain ⟨moves, hmoves⟩ := ih (b.move s m)
        exact ⟨m :: moves, hm ▸ hmoves⟩

/-- Waiting until a task has ended is nothing but moves. -/
theorem world_finishWithin (s : Stage) (b : Bench) (id fuel : Nat) :
    ∃ moves, (b.run s moves).world = b.world.finishWithin s id fuel := by
  induction fuel generalizing b with
  | zero => exact ⟨[], rfl⟩
  | succ fuel ih =>
      rw [World.finishWithin]
      split
      · exact ⟨[], rfl⟩
      · split
        · obtain ⟨m, hm⟩ := world_step s b
          obtain ⟨moves, hmoves⟩ := ih (b.move s m)
          exact ⟨m :: moves, hm ▸ hmoves⟩
        · rename_i hquiet
          split
          · exact ⟨[], rfl⟩
          · have hm : (b.move s .tick).world = b.world.wake := by
              rw [move, if_pos (by simpa using hquiet)]
            obtain ⟨moves, hmoves⟩ := ih (b.move s .tick)
            exact ⟨.tick :: moves, hm ▸ hmoves⟩

end Bench

/-! ## Bystanders -/

namespace World

/-- Nothing happens to whoever has a number: its task stays where it is, and so do its timers. -/
structure Spares (i : Nat) (w w' : World) : Prop where
  next : w.nextTask ≤ w'.nextTask
  now : w'.now = w.now
  ready : ∀ t ∈ w.ready, t.id = i → t ∈ w'.ready
  asleep : ∀ x ∈ w.asleep, x.2.id = i → x ∈ w'.asleep
  tasks : ∀ t ∈ w'.tasks, t.id = i → t ∈ w.tasks
  tour : i ∈ w.tourRig.timers → i ∈ w'.tourRig.timers
  rigs : ∀ p, ∀ j ∈ (w'.rig p).timers, j ∈ (w.rig p).timers ∨ w.nextTask ≤ j

namespace Spares

variable {s : Stage} {w w' w'' : World} {i : Nat}

theorem refl (i : Nat) (w : World) : Spares i w w where
  next := Nat.le_refl _
  now := rfl
  ready _ ht _ := ht
  asleep _ hx _ := hx
  tasks _ ht _ := ht
  tour hi := hi
  rigs _ _ hj := .inl hj

theorem trans (h : Spares i w w') (h' : Spares i w' w'') : Spares i w w'' where
  next := h.next.trans h'.next
  now := h'.now.trans h.now
  ready t ht hid := h'.ready t (h.ready t ht hid) hid
  asleep x hx hid := h'.asleep x (h.asleep x hx hid) hid
  tasks t ht hid := h.tasks t (h'.tasks t ht hid) hid
  tour hi := h'.tour (h.tour hi)
  rigs p j hj := by
    rcases h'.rigs p j hj with hj | hj
    · exact h.rigs p j hj
    · exact .inr (h.next.trans hj)

/-- Somebody else is taken in hand. -/
theorem take {t : Task} {others : List Task} (hperm : w.ready.Perm (t :: others)) (hne : t.id ≠ i) :
    Spares i w { w with ready := others } where
  next := Nat.le_refl _
  now := rfl
  ready u hu hid := by
    rcases List.mem_cons.mp (hperm.subset hu) with rfl | hu
    · exact absurd hid hne
    · exact hu
  asleep _ hx _ := hx
  tasks u hu _ := (tasks_take hperm).symm.subset (List.mem_cons_of_mem _ hu)
  tour hi := hi
  rigs _ _ hj := .inl hj

/-- Somebody else is put where it goes on. -/
theorem place {id : Nat} (hne : id ≠ i) (turn : Turn) : Spares i w (w.place id turn) := by
  refine ⟨?_, ?_, fun t ht _ => mem_ready_place id turn ht, ?_, ?_, ?_, ?_⟩
  · unfold World.place
    split <;> exact Nat.le_refl _
  · unfold World.place
    split <;> rfl
  · intro x hx _
    unfold World.place
    split
    case h_4 => exact List.mem_append_left _ hx
    all_goals exact hx
  · intro t ht hid
    rcases List.mem_append.mp ((tasks_place w id turn).subset ht) with ht | ht
    · have := Turn.id_of_task? (Option.mem_toList.mp ht)
      omega
    · exact ht
  · unfold World.place
    split <;> exact fun hi => hi
  · intro p j hj
    unfold World.place at hj
    split at hj <;> exact .inl hj

/-- A task is started. -/
theorem start (hi : i < w.nextTask) (job : Job) (waits : List Wait) :
    Spares i w (w.start job waits) where
  next := Nat.le_succ _
  now := rfl
  ready _ ht _ := List.mem_append_left _ ht
  asleep _ hx _ := hx
  tasks t ht hid := by
    rcases List.mem_cons.mp ((tasks_start w job waits).subset ht) with rfl | ht
    · exact absurd hid (Nat.ne_of_gt hi)
    · exact ht
  tour hi := hi
  rigs _ _ hj := .inl hj

/-- Further reactions are bound. -/
theorem bind (hi : i < w.nextTask) (p : Part) (rs : List Reaction) (setting : Setting) :
    Spares i w (w.bind s p rs setting) where
  next := by
    rw [bind_eq]
    exact Nat.le_add_right _ _
  now := by rw [bind_eq]
  ready t ht _ := by
    rw [bind_eq]
    exact List.mem_append_left _ ht
  asleep x hx _ := by
    rw [bind_eq]
    exact hx
  tasks t ht hid := by
    rcases List.mem_append.mp ((tasks_bind s w p rs setting).subset ht) with hnew | hold
    · have hmem := List.mem_map_of_mem (f := Task.id) hnew
      rw [timerTasks_ids] at hmem
      have := (List.mem_range'_1.mp hmem).1
      omega
    · exact hold
  tour hmem := by
    have hrig := rig_bind s w p .tour rs setting
    rw [rig] at hrig
    rw [hrig]
    split
    · rename_i hp
      subst hp
      exact List.mem_append_left _ hmem
    · exact hmem
  rigs q j hj := by
    rw [rig_bind] at hj
    split at hj
    · rename_i hp
      subst hp
      exact (List.mem_append.mp hj).imp_right fun hj => (List.mem_range'_1.mp hj).1
    · exact .inl hj

/-- A task is started before all others. -/
theorem startFirst (hi : i < w.nextTask) (job : Job) : Spares i w (w.startFirst [job]).1 where
  next := Nat.le_succ _
  now := rfl
  ready _ ht _ := List.mem_cons_of_mem _ ht
  asleep _ hx _ := hx
  tasks t ht hid := by
    rcases List.mem_cons.mp ht with rfl | ht
    · exact absurd hid (Nat.ne_of_gt hi)
    · exact ht
  tour hi := hi
  rigs _ _ hj := .inl hj

/-- The reactions of the stop are taken down. -/
theorem releaseStop (hi : i ∉ w.stopRig.timers) : Spares i w (w.release .stop) where
  next := by rw [release_eq]
  now := by rw [release_eq]
  ready t ht hid := by
    rw [release_eq]
    exact List.mem_filter.mpr ⟨ht, by simpa [rig, hid] using hi⟩
  asleep x hx hid := by
    rw [release_eq]
    exact List.mem_filter.mpr ⟨hx, by simpa [rig, hid] using hi⟩
  tasks t ht _ := (tasks_release w .stop).subset ht
  tour hi := by
    rw [release_eq]
    exact hi
  rigs q j hj := by
    rw [rig_release] at hj
    split at hj
    · simp at hj
    · exact .inl hj

theorem handOver : Spares i w w.handOver := by
  refine ⟨?_, ?_, ?_, ?_, fun t ht _ => (tasks_handOver w).subset ht, ?_, ?_⟩ <;>
    unfold World.handOver <;> split
  · exact Nat.le_refl _
  · exact Nat.le_refl _
  · rfl
  · rfl
  · exact fun _ ht _ => ht
  · exact fun _ ht _ => List.mem_append_left _ ht
  · exact fun _ hx _ => hx
  · exact fun _ hx _ => hx
  · exact fun hi => hi
  · exact fun hi => hi
  · exact fun _ _ hj => .inl hj
  · exact fun _ _ hj => .inl hj

/-- A step of somebody else spares everyone, unless it ends the player. -/
theorem effect {id : Nat} {job : Job} {waits : List Wait} (he : Job.Effect s w id job waits w')
    (hi : i < w.nextTask) (hstop : i ∉ w.stopRig.timers) :
    Spares i w w' ∨ w.destroyed = false ∧ w' = w.destroy := by
  cases he with
  | calm hcalm =>
      obtain ⟨_, _, _, _, _, rfl⟩ := hcalm.eq
      exact .inl ⟨Nat.le_refl _, rfl, fun _ ht _ => ht, fun _ hx _ => hx, fun _ ht _ => ht,
        fun hi => hi, fun p _ hj => by cases p <;> exact .inl hj⟩
  | destroy =>
      cases hd : w.destroyed with
      | true =>
          rw [destroy_eq_self hd]
          exact .inl (.refl i w)
      | false => exact .inr ⟨rfl, rfl⟩
  | spawn => exact .inl (.start hi _ _)
  | ring => exact .inl (.start hi _ _)
  | leave =>
      obtain ⟨_, _, heq⟩ := (w.release .stop).tidy_eq (s := s) (stopAt s _)
      have h := releaseStop hstop
      rw [heq]
      exact .inl ⟨h.next, h.now, h.ready, h.asleep, h.tasks, h.tour,
        fun p j hj => h.rigs p j (by cases p <;> exact hj)⟩
  | @arrive o j es waits =>
      have h := bind (s := s) (w := { w with position := j, error := es.getLast? }) hi .stop
        (stopAt s j).reactions (settingOf s j (stopAt s j))
      exact .inl ⟨h.next, h.now, h.ready, h.asleep, h.tasks, h.tour,
        fun p j hj => (h.rigs p j hj).imp_left fun hj => by cases p <;> exact hj⟩
  | «open» => exact .inl (bind hi _ _ _)
  | handOver => exact .inl handOver
  | take => exact .inl ⟨Nat.le_refl _, rfl, fun _ ht _ => ht, fun _ hx _ => hx, fun _ ht _ => ht,
      fun hi => hi, fun p _ hj => by cases p <;> exact .inl hj⟩
  | abort => exact .inl ⟨Nat.le_refl _, rfl, fun _ ht _ => ht, fun _ hx _ => hx, fun _ ht _ => ht,
      fun hi => hi, fun p _ hj => by cases p <;> exact .inl hj⟩

end Spares

/-- Keeping the earlier one of two keeps the first of the earliest. -/
private theorem foldl_earlier {f : Option (Nat × Task) → Nat × Task → Option (Nat × Task)}
    (hf : ∀ a t, f (some a) t = if t.1 < a.1 then some t else some a) (xs : List (Nat × Task))
    {first x : Nat × Task} (hx : xs.foldl f (some first) = some x) :
    x ∈ first :: xs ∧ ∀ y ∈ first :: xs, x.1 ≤ y.1 := by
  induction xs generalizing first with
  | nil =>
      obtain rfl := Option.some.inj hx
      simp
  | cons t ts ih =>
      rw [List.foldl_cons, hf] at hx
      split at hx
      · rename_i hlt
        obtain ⟨hmem, hle⟩ := ih hx
        refine ⟨List.mem_cons_of_mem _ hmem, fun y hy => ?_⟩
        rcases List.mem_cons.mp hy with rfl | hy
        · exact (hle t List.mem_cons_self).trans hlt.le
        · exact hle y hy
      · rename_i hge
        obtain ⟨hmem, hle⟩ := ih hx
        have hfirst := hle first List.mem_cons_self
        refine ⟨?_, fun y hy => ?_⟩
        · rcases List.mem_cons.mp hmem with rfl | hmem
          · exact List.mem_cons_self
          · exact List.mem_cons_of_mem _ (List.mem_cons_of_mem _ hmem)
        · rcases List.mem_cons.mp hy with rfl | hy
          · exact hfirst
          · rcases List.mem_cons.mp hy with rfl | hy
            · omega
            · exact hle y (List.mem_cons_of_mem _ hy)

/-- Nobody wakes up before the one who wakes up first. -/
theorem earliest_le {w : World} {x : Nat × Task} (h : w.earliest? = some x) :
    x ∈ w.asleep ∧ ∀ y ∈ w.asleep, x.1 ≤ y.1 := by
  unfold earliest? at h
  cases hasleep : w.asleep with
  | nil => simp [hasleep] at h
  | cons y ys =>
      rw [hasleep] at h
      exact foldl_earlier (fun _ _ => rfl) ys h

/-- Who is ready or sleeps neither pauses nor queues. -/
theorem Numbered.apart {w : World} {hand : List Task} (h : Numbered w hand) {t u : Task}
    (ht : t ∈ w.ready ++ w.asleep.map Prod.snd) (hu : u ∈ w.paused ++ w.queue) : t.id ≠ u.id := by
  have hperm : w.tasks.Perm (w.ready ++ w.asleep.map Prod.snd ++ (w.paused ++ w.queue)) := by
    simp only [tasks, active, List.append_assoc]
    refine List.Perm.append_left _ ?_
    rw [← List.append_assoc, ← List.append_assoc]
    exact List.perm_append_comm.append_right _
  have hnodup := ((hperm.map Task.id).nodup_iff).mp
    (h.distinct.sublist ((List.sublist_append_right hand _).map Task.id))
  rw [List.map_append] at hnodup
  exact fun hid => (List.nodup_append.mp hnodup).2.2 _ (List.mem_map_of_mem ht) _
    (List.mem_map_of_mem hu) hid

/-- A step of somebody else ends the player or spares everyone. -/
theorem Spares.turn {s : Stage} {w : World} {i : Nat} {t : Task} {others : List Task}
    (hperm : w.ready.Perm (t :: others)) (hne : t.id ≠ i) (hi : i < w.nextTask)
    (hstop : i ∉ w.stopRig.timers) :
    Spares i w (w.takeTurn s t others) ∧ (w.takeTurn s t others).destroyed = w.destroyed ∨
      w.destroyed = false ∧ ∃ turn, w.takeTurn s t others =
        World.place (World.destroy { w with ready := others }) t.id turn := by
  have heffect := Job.step_effect s { w with ready := others } t.id t.waits t.job
  rw [takeTurn_eq]
  rcases Spares.effect heffect hi hstop with hspares | ⟨hlive, hdestroy⟩
  · rcases destroyed_effect heffect with hkept | hdestroy
    · refine .inl ⟨((Spares.take hperm hne).trans hspares).trans (.place hne _), ?_⟩
      rw [destroyed_place, hkept]
    · by_cases hd : w.destroyed = true
      · refine .inl ⟨((Spares.take hperm hne).trans hspares).trans (.place hne _), ?_⟩
        rw [destroyed_place, hdestroy, destroyed_destroy, hd]
      · exact .inr ⟨by simpa using hd, _, by rw [hdestroy]⟩
  · exact .inr ⟨hlive, _, by rw [hdestroy]⟩

end World

/-! ## What becomes of a timer -/

namespace Alarm

/-- The task of a timer before it has begun to wait. -/
def awaiting (a : Alarm) : Task :=
  ⟨a.id, .await a.setting a.delay a.actions, []⟩

/-- The task of a timer while it waits, and when it has elapsed. -/
def ringing (a : Alarm) : Task :=
  ⟨a.id, .ring a.setting a.delay a.actions, []⟩

/-- The task of a timer that has set off its actions. -/
def rung (a : Alarm) : Task :=
  ⟨a.id, .ended .completed, []⟩

/-- The event of a timer, which is stamped with its delay. -/
def event (a : Alarm) : FiredEvent :=
  ⟨"timer", .element Elements.root, .element Elements.root, .ofNat a.delay, none, none, none⟩

/-- The task that a timer starts for its actions. -/
def reaction (a : Alarm) (id : Nat) : Task :=
  ⟨id, .run a.setting (some a.event) a.actions [], [.report a.setting.outlet]⟩

/-- Where the task of a timer is that has not set off its actions. -/
inductive Waits (a : Alarm) (w : World) : Prop where
  | await (hready : a.awaiting ∈ w.ready) (hnow : w.now = a.time)
  | sleep (hasleep : (a.due, a.ringing) ∈ w.asleep) (hnow : w.now ≤ a.due)
  | ring (hready : a.ringing ∈ w.ready) (hnow : w.now = a.due)

/-- What the notes say that are about a timer, and where its task is. -/
inductive Status (a : Alarm) (w : World) : List BenchNote → Prop where
  /-- Nothing was noted, and the timer waits. -/
  | waits (hheld : a.id ∈ w.tourRig.timers) (hwaits : a.Waits w) : Status a w []
  /-- The timer has set off its actions, and nothing can take them down. -/
  | rang {k : Nat} {rest : List BenchNote} (hover : ∀ t ∈ w.tasks, t.id = a.id → t = a.rung)
      (hbelow : k < w.nextTask) (hfree : ∀ p, k ∉ (w.rig p).timers) (hrest : ∀ n ∈ rest, n = .shut) :
      Status a w (.started a.id a.due (a.reaction k) :: rest)
  /-- The timer was taken down before. -/
  | gone {rest : List BenchNote} (hgone : ∀ t ∈ w.tasks, t.id ≠ a.id)
      (hrest : ∀ n ∈ rest, n = .shut) : Status a w (.shut :: rest)

/-- A timer of a player, and what the notes say that are about it. -/
structure Noted (a : Alarm) (w : World) (notes : List BenchNote) : Prop where
  below : a.id < w.nextTask
  stop : a.id ∉ w.stopRig.timers
  status : a.Status w notes

namespace Noted

open World

variable {s : Stage} {a : Alarm} {w w' : World} {notes : List BenchNote} {t : Task}
  {others hand : List Task}

/-- Who is spared waits on, and what has been set off goes on. -/
theorem spares (h : a.Noted w notes) (hw : Spares a.id w w') : a.Noted w' notes where
  below := Nat.lt_of_lt_of_le h.below hw.next
  stop hi := by
    rcases hw.rigs .stop a.id hi with hi | hi
    · exact h.stop hi
    · exact absurd h.below (Nat.not_lt.mpr hi)
  status := by
    cases h.status with
    | waits hheld hwaits =>
        refine .waits (hw.tour hheld) ?_
        cases hwaits with
        | await hready hnow => exact .await (hw.ready _ hready rfl) (hw.now.trans hnow)
        | sleep hasleep hnow => exact .sleep (hw.asleep _ hasleep rfl) (hw.now.trans_le hnow)
        | ring hready hnow => exact .ring (hw.ready _ hready rfl) (hw.now.trans hnow)
    | rang hover hbelow hfree hrest =>
        refine .rang (fun t ht hid => hover t (hw.tasks t ht hid) hid)
          (Nat.lt_of_lt_of_le hbelow hw.next) (fun p hk => ?_) hrest
        rcases hw.rigs p _ hk with hk | hk
        · exact hfree p hk
        · exact absurd hbelow (Nat.not_lt.mpr hk)
    | gone hgone hrest =>
        exact .gone (fun t ht hid => hgone t (hw.tasks t ht hid) hid) hrest

/-- Where the reactions are taken down a timer that waits is gone, and the others are as they were. -/
theorem release (hn : Numbered w hand) (h : a.Noted w notes) :
    a.Noted (w.release .tour) (notes ++ [.shut]) where
  below := by
    rw [release_eq]
    exact h.below
  stop := by
    rw [release_eq]
    exact h.stop
  status := by
    have hsub := (tasks_release w .tour).subset
    have hshut : ∀ {rest : List BenchNote}, (∀ n ∈ rest, n = .shut) →
        ∀ n ∈ rest ++ [.shut], n = BenchNote.shut := fun hrest n hn => by
      rcases List.mem_append.mp hn with hn | hn
      · exact hrest n hn
      · exact List.mem_singleton.mp hn
    cases h.status with
    | waits hheld hwaits =>
        refine .gone (fun t ht hid => ?_) (by simp)
        -- Whoever has its number is neither ready nor asleep any more, and did neither pause nor queue
        obtain ⟨u, hu, huid⟩ : ∃ u ∈ w.ready ++ w.asleep.map Prod.snd, u.id = a.id := by
          cases hwaits with
          | await hready _ => exact ⟨_, List.mem_append_left _ hready, rfl⟩
          | sleep hasleep _ => exact ⟨_, List.mem_append_right _ (List.mem_map_of_mem hasleep), rfl⟩
          | ring hready _ => exact ⟨_, List.mem_append_left _ hready, rfl⟩
        have hheld' : t.id ∈ (w.rig .tour).timers := hid ▸ hheld
        rw [release_eq] at ht
        simp only [tasks, active, List.mem_append, List.mem_filter, List.mem_map] at ht
        rcases ht with ((⟨-, ht⟩ | ht) | ⟨x, ⟨-, hx⟩, rfl⟩) | ht
        · simp [hheld'] at ht
        · exact hn.apart hu (List.mem_append_left _ ht) (huid.trans hid.symm)
        · simp [hheld'] at hx
        · exact hn.apart hu (List.mem_append_right _ ht) (huid.trans hid.symm)
    | rang hover hbelow hfree hrest =>
        refine .rang (fun t ht hid => hover t (hsub ht) hid) ?_ (fun p hk => ?_) (hshut hrest)
        · rw [release_eq]
          exact hbelow
        · rw [rig_release] at hk
          split at hk
          · simp at hk
          · exact hfree p hk
    | gone hgone hrest => exact .gone (fun t ht => hgone t (hsub ht)) (hshut hrest)

/-- The end of a player takes the reactions down. -/
theorem destroy (hn : Numbered w hand) (hlive : w.destroyed = false) (h : a.Noted w notes) :
    a.Noted w.destroy (notes ++ [.shut]) := by
  have hended : a.Noted { w with destroyed := true } notes :=
    h.spares ⟨Nat.le_refl _, rfl, fun _ ht _ => ht, fun _ hx _ => hx, fun _ ht _ => ht, fun hi => hi,
      fun p _ hj => by cases p <;> exact .inl hj⟩
  have hn' : Numbered { w with destroyed := true } hand := ⟨hn.distinct, hn.below, hn.rigs⟩
  have htour := hended.release hn'
  have hstop := htour.spares (Spares.releaseStop htour.stop)
  rw [World.destroy, hlive]
  exact hstop.spares ⟨Nat.le_refl _, rfl, fun _ ht _ => ht, fun _ hx _ => hx, fun _ ht _ => ht,
    fun hi => hi, fun p _ hj => by cases p <;> exact .inl hj⟩

/-- The step of somebody else is only about a timer if it ends the player. -/
theorem turn_of_ne (hn : Numbered w []) (h : a.Noted w notes) (hperm : w.ready.Perm (t :: others))
    (hne : t.id ≠ a.id) : a.Noted (w.takeTurn s t others)
      (notes ++ (Bench.notesOf t.id w (w.takeTurn s t others)).filter (BenchNote.concerns a.id)) := by
  have hstarted : ((((w.takeTurn s t others).tasks.filter fun u => decide (w.nextTask ≤ u.id)).map
      (.started t.id w.now)).filter (BenchNote.concerns a.id)) = [] := by
    rw [List.filter_eq_nil_iff]
    intro n hmem
    obtain ⟨u, -, rfl⟩ := List.mem_map.mp hmem
    simpa [BenchNote.concerns] using hne
  rw [Bench.notesOf, List.filter_append, hstarted, List.nil_append]
  rcases Spares.turn (s := s) hperm hne h.below h.stop with ⟨hspares, hkept⟩ | ⟨hlive, turn, heq⟩
  · rw [hkept, Bool.and_not_self]
    simpa using h.spares hspares
  · have hended : ((w.takeTurn s t others).destroyed && !w.destroyed) = true := by
      rw [heq, destroyed_place, destroyed_destroy, hlive]
      rfl
    rw [if_pos hended, heq]
    have hdestroy := (h.spares (Spares.take hperm hne)).destroy (hn.take hperm) hlive
    exact hdestroy.spares (Spares.place hne turn)

private theorem notesOf_eq_nil {id : Nat} (hold : ∀ u ∈ w'.tasks, u.id < w.nextTask)
    (hkept : w'.destroyed = w.destroyed) : Bench.notesOf id w w' = [] := by
  have hstarted : (w'.tasks.filter fun u => decide (w.nextTask ≤ u.id)) = [] := by
    rw [List.filter_eq_nil_iff]
    intro u hu
    have := hold u hu
    simpa using this
  rw [Bench.notesOf, hstarted, hkept]
  simp

/-- Who is left when a timer is taken in hand has another number. -/
private theorem id_of_mem_others (hn : Numbered w []) (hperm : w.ready.Perm (t :: others)) :
    ∀ u ∈ ({ w with ready := others } : World).tasks, u.id < w.nextTask ∧ u.id ≠ t.id := by
  intro u hu
  have htake := hn.take hperm
  refine ⟨htake.below u (List.mem_append_right _ hu), fun hid => ?_⟩
  exact (List.nodup_cons.mp htake.distinct).1 (hid ▸ List.mem_map_of_mem hu)

/-- A timer begins to wait; waiting for no time is not waiting. -/
private theorem turn_awaiting (hn : Numbered w []) (hbelow : a.id < w.nextTask)
    (hstop : a.id ∉ w.stopRig.timers) (hheld : a.id ∈ w.tourRig.timers)
    (hperm : w.ready.Perm (a.awaiting :: others)) (hnow : w.now = a.time) :
    a.Noted (w.takeTurn s a.awaiting others)
      (Bench.notesOf a.id w (w.takeTurn s a.awaiting others)) := by
  have hplace : w.takeTurn s a.awaiting others =
      World.place { w with ready := others } a.id (.sleep a.delay a.ringing.job []) := rfl
  have hold : ∀ u ∈ (w.takeTurn s a.awaiting others).tasks, u.id < w.nextTask := fun u hu => by
    rw [hplace] at hu
    rcases List.mem_append.mp ((tasks_place _ _ _).subset hu) with hu | hu
    · obtain rfl := List.mem_singleton.mp hu
      exact hbelow
    · exact (id_of_mem_others hn hperm u hu).1
  rw [notesOf_eq_nil hold (by rw [hplace, destroyed_place]), hplace]
  cases hdelay : a.delay with
  | zero =>
      have hdue : w.now = a.due := by rw [Alarm.due, hdelay, hnow, Nat.add_zero]
      exact ⟨hbelow, hstop, .waits hheld (.ring List.mem_cons_self hdue)⟩
  | succ n =>
      have hdue : w.now + (n + 1) = a.due := by rw [Alarm.due, hdelay, hnow]
      have hle : w.now ≤ a.due := by omega
      refine ⟨hbelow, hstop, .waits hheld (.sleep ?_ hle)⟩
      exact List.mem_append_right _ (by rw [← hdue]; exact List.mem_singleton_self _)

/-- A timer that has elapsed starts a task for its actions, which nothing can take down. -/
private theorem turn_ringing (hn : Numbered w []) (hbelow : a.id < w.nextTask)
    (hstop : a.id ∉ w.stopRig.timers) (hperm : w.ready.Perm (a.ringing :: others))
    (hnow : w.now = a.due) : a.Noted (w.takeTurn s a.ringing others)
      (Bench.notesOf a.id w (w.takeTurn s a.ringing others)) := by
  -- Two tasks are new to the player: the timer, which has rung, and the one it starts
  have hothers := id_of_mem_others hn hperm
  have hplace : w.takeTurn s a.ringing others = World.place (World.start { w with ready := others }
      (a.reaction 0).job (a.reaction 0).waits) a.id (.go a.rung.job []) := rfl
  have htasks : (w.takeTurn s a.ringing others).tasks.Perm
      (a.rung :: a.reaction w.nextTask :: ({ w with ready := others } : World).tasks) := by
    rw [hplace]
    exact (tasks_place _ _ _).trans ((tasks_start _ _ _).cons _)
  have hnew : ((w.takeTurn s a.ringing others).tasks.filter
      fun u => decide (w.nextTask ≤ u.id)) = [a.reaction w.nextTask] := by
    refine List.perm_singleton.mp ((htasks.filter _).trans ?_)
    have hrest : (({ w with ready := others } : World).tasks.filter
        fun u => decide (w.nextTask ≤ u.id)) = [] := by
      rw [List.filter_eq_nil_iff]
      intro u hu
      have := (hothers u hu).1
      simpa using this
    have hrung : ¬ w.nextTask ≤ a.rung.id := Nat.not_le.mpr hbelow
    rw [List.filter_cons_of_neg (by simpa using hrung), List.filter_cons_of_pos (by simp [reaction]),
      hrest]
  have hlive : (w.takeTurn s a.ringing others).destroyed = w.destroyed := by
    rw [hplace, destroyed_place]
    rfl
  have hnotes : Bench.notesOf a.id w (w.takeTurn s a.ringing others) =
      [.started a.id a.due (a.reaction w.nextTask)] := by
    rw [Bench.notesOf, hnew, hlive, hnow, Bool.and_not_self]
    rfl
  rw [hnotes]
  refine ⟨Nat.lt_succ_of_lt hbelow, hstop, .rang ?_ (Nat.lt_succ_self _) ?_ (by simp)⟩
  · intro u hu hid
    rcases List.mem_cons.mp (htasks.subset hu) with hu | hu
    · exact hu
    · rcases List.mem_cons.mp hu with rfl | hu
      · exact absurd hid (Nat.ne_of_gt hbelow)
      · exact absurd hid (hothers u hu).2
  -- The number is new, so it is none of those that are stopped when reactions are taken down
  · intro p hk
    have : w.nextTask < w.nextTask := hn.rigs p _ (by cases p <;> exact hk)
    omega

/-- The task of a timer that has set off its actions only ends. -/
private theorem turn_rung (hn : Numbered w []) (hperm : w.ready.Perm (a.rung :: others))
    (h : a.Noted w notes) : a.Noted (w.takeTurn s a.rung others)
      (notes ++ Bench.notesOf a.id w (w.takeTurn s a.rung others)) := by
  have hplace : w.takeTurn s a.rung others =
      World.place { w with ready := others } a.id (.finish .completed) := rfl
  have hothers := id_of_mem_others hn hperm
  have hmem : a.rung ∈ w.tasks := (tasks_take hperm).symm.subset List.mem_cons_self
  have hold : ∀ u ∈ (w.takeTurn s a.rung others).tasks, u.id < w.nextTask := fun u hu => by
    rw [hplace] at hu
    exact (hothers u hu).1
  rw [notesOf_eq_nil hold (by rw [hplace, destroyed_place]), List.append_nil, hplace]
  refine ⟨h.below, h.stop, ?_⟩
  cases h.status with
  | waits hheld hwaits =>
      -- A timer that waits is not one that has rung, and there is one task with its number
      have hother : ∀ u ∈ w.tasks, u.id = a.id → a.rung = u := fun u hu hid =>
        hn.eq_of_id hmem hu hid.symm
      cases hwaits with
      | await hready _ => cases hother a.awaiting (by simp [tasks, active, hready]) rfl
      | ring hready _ => cases hother a.ringing (by simp [tasks, active, hready]) rfl
      | sleep hasleep _ =>
          have hring : a.ringing ∈ w.tasks :=
            List.mem_append_left _ (List.mem_append_right _ (List.mem_map_of_mem hasleep))
          cases hother a.ringing hring rfl
  | rang hover hbelow hfree hrest =>
      refine .rang (fun u hu hid => absurd hid (hothers u hu).2) hbelow ?_ hrest
      exact fun p hk => hfree p (by cases p <;> exact hk)
  | gone hgone hrest => exact absurd rfl (hgone _ hmem)

/-- A timer begins to wait, sets off its actions, or ends, when it is its turn. -/
theorem turn_of_eq (hn : Numbered w []) (h : a.Noted w notes) (hperm : w.ready.Perm (t :: others))
    (hid : t.id = a.id) : a.Noted (w.takeTurn s t others)
      (notes ++ Bench.notesOf t.id w (w.takeTurn s t others)) := by
  have ht : t ∈ w.tasks := (tasks_take hperm).symm.subset List.mem_cons_self
  -- The task whose turn it is has the number, so it is the one that the status speaks of
  have hself : ∀ u ∈ w.tasks, u.id = a.id → t = u := fun u hu huid =>
    hn.eq_of_id ht hu (hid.trans huid.symm)
  rw [hid]
  cases h.status with
  | waits hheld hwaits =>
      cases hwaits with
      | await hready hnow =>
          obtain rfl := hself a.awaiting (by simp [tasks, active, hready]) rfl
          exact turn_awaiting hn h.below h.stop hheld hperm hnow
      | ring hready hnow =>
          obtain rfl := hself a.ringing (by simp [tasks, active, hready]) rfl
          exact turn_ringing hn h.below h.stop hperm hnow
      | sleep hasleep hnow =>
          -- Whoever sleeps is not ready
          have hmem : a.ringing ∈ ({ w with ready := others } : World).tasks :=
            List.mem_append_left _ (List.mem_append_right _ (List.mem_map_of_mem hasleep))
          exact absurd hid.symm (id_of_mem_others hn hperm _ hmem).2
  | rang hover hbelow hfree hrest =>
      obtain rfl := hover t ht hid
      exact turn_rung hn hperm h
  | gone hgone hrest => exact absurd hid (hgone t ht)

/-- When time passes, no timer misses the moment at which it elapses. -/
theorem wake (hn : Numbered w []) (h : a.Noted w notes) (hquiet : w.isQuiet = true) :
    a.Noted w.wake notes := by
  cases hfirst : w.earliest? with
  | none =>
      rw [World.wake, hfirst]
      exact h
  | some x =>
      obtain ⟨due, u⟩ := x
      obtain ⟨hmem, hle⟩ := earliest_le hfirst
      have hwake : w.wake = { w with
          now := due
          asleep := w.asleep.filter fun x => x.2.id != u.id
          ready := w.ready ++ [u] } := by
        rw [World.wake, hfirst]
      have htasks := (wake_shuffled hn (List.ne_nil_of_mem hmem)).1.tasks.subset
      have hrigs : ∀ p, w.wake.rig p = w.rig p := fun p => by
        rw [hwake]
        cases p <;> rfl
      have hnobody : w.ready = [] := List.isEmpty_iff.mp (Bool.and_eq_true_iff.mp hquiet).1
      refine ⟨by rw [hwake]; exact h.below, by rw [hwake]; exact h.stop, ?_⟩
      cases h.status with
      | waits hheld hwaits =>
          refine .waits (by rw [hwake]; exact hheld) ?_
          cases hwaits with
          | await hready hnow => simp [hnobody] at hready
          | ring hready hnow => simp [hnobody] at hready
          | sleep hasleep hnow =>
              rw [hwake]
              by_cases hid : u.id = a.id
              · -- It is the timer who wakes up first
                have heq : (due, u) = (a.due, a.ringing) :=
                  List.inj_on_of_nodup_map hn.nodup_asleep hmem hasleep hid
                obtain ⟨rfl, rfl⟩ := Prod.mk.inj heq
                exact .ring (List.mem_append_right _ (List.mem_singleton_self _)) rfl
              · refine .sleep (List.mem_filter.mpr ⟨hasleep, ?_⟩) (hle _ hasleep)
                simpa [ringing] using Ne.symm hid
      | rang hover hbelow hfree hrest =>
          refine .rang (fun t ht => hover t (htasks ht)) (by rw [hwake]; exact hbelow) ?_ hrest
          exact fun p hk => hfree p (by rwa [hrigs] at hk)
      | gone hgone hrest => exact .gone (fun t ht => hgone t (htasks ht)) hrest

end Noted

end Alarm

/-! ## What a bench keeps -/

namespace World

/-- Nobody falls asleep by an effect of a step. -/
theorem asleep_effect {s : Stage} {w w' : World} {id : Nat} {job : Job} {waits : List Wait}
    (he : Job.Effect s w id job waits w') : w'.asleep ⊆ w.asleep := by
  have hrelease : ∀ (v : World) (p : Part), (v.release p).asleep ⊆ v.asleep := fun v p => by
    rw [release_eq]
    exact List.filter_sublist.subset
  have hbind : ∀ (v : World) (p : Part) (rs : List Reaction) (setting : Setting),
      (v.bind s p rs setting).asleep = v.asleep := fun v p rs setting => by rw [bind_eq]
  cases he with
  | calm hcalm =>
      obtain ⟨_, _, _, _, _, rfl⟩ := hcalm.eq
      exact List.Subset.refl _
  | destroy =>
      unfold World.destroy
      split
      · exact List.Subset.refl _
      · exact List.Subset.trans (hrelease _ .stop) (hrelease _ .tour)
  | leave =>
      obtain ⟨_, _, heq⟩ := (w.release .stop).tidy_eq (s := s) (stopAt s _)
      rw [heq]
      exact hrelease w .stop
  | arrive =>
      rw [hbind]
      exact List.Subset.refl _
  | «open» =>
      rw [hbind]
      exact List.Subset.refl _
  | handOver =>
      unfold World.handOver
      split <;> exact List.Subset.refl _
  | _ => exact List.Subset.refl _

/-- Whoever falls asleep does so for some time. -/
theorem later_place {w : World} (h : ∀ x ∈ w.asleep, w.now < x.1) (id : Nat) (turn : Turn) :
    ∀ x ∈ (w.place id turn).asleep, (w.place id turn).now < x.1 := by
  unfold place
  split
  case h_4 ms job waits hms =>
    intro x hx
    rcases List.mem_append.mp hx with hx | hx
    · exact h x hx
    · obtain rfl := List.mem_singleton.mp hx
      exact Nat.lt_add_of_pos_right (Nat.pos_of_ne_zero hms)
  all_goals exact h

end World

namespace Bench

open World

variable {s : Stage} {b : Bench}

/-- What holds of every bench that was run from the first. -/
structure Kept (b : Bench) : Prop where
  numbered : Numbered b.world []
  later : ∀ x ∈ b.world.asleep, b.world.now < x.1
  fresh : ((b.notes.filterMap BenchNote.alarm?).map Alarm.id).Nodup
  noted : ∀ before a after, b.notes = before ++ .set a :: after →
    a.Noted b.world (after.filter (BenchNote.concerns a.id))

theorem Kept.initial : Kept {} where
  numbered := .initial
  later := by simp
  fresh := by simp
  noted before a after h := by simp at h

/-- The timers that were noted have numbers in use. -/
theorem Kept.below (h : b.Kept) {a : Alarm} (ha : a ∈ b.notes.filterMap BenchNote.alarm?) :
    a.id < b.world.nextTask := by
  obtain ⟨n, hn, hna⟩ := List.mem_filterMap.mp ha
  obtain ⟨before, after, hnotes⟩ := List.mem_iff_append.mp hn
  cases n with
  | set a' =>
      obtain rfl : a' = a := by simpa [BenchNote.alarm?] using hna
      exact (h.noted before a' after hnotes).below
  | _ => simp [BenchNote.alarm?] at hna

/-- Where no timer was set, only what was noted counts. -/
theorem Kept.extend (h : b.Kept) {w : World} (dropped : Bool) (notes : List BenchNote)
    (hnumbered : Numbered w []) (hlater : ∀ x ∈ w.asleep, w.now < x.1)
    (hnone : ∀ n ∈ notes, n.alarm? = none)
    (hstep : ∀ a ns, Alarm.Noted a b.world ns →
      a.Noted w (ns ++ notes.filter (BenchNote.concerns a.id))) :
    Kept ⟨w, dropped, b.notes ++ notes⟩ where
  numbered := hnumbered
  later := hlater
  fresh := by
    rw [List.filterMap_append, List.filterMap_eq_nil_iff.mpr hnone, List.append_nil]
    exact h.fresh
  noted before a after heq := by
    -- The timer was set among the old notes, as no new one sets any
    have hset : (.set a : BenchNote) ∉ notes := fun hmem => by
      have := hnone _ hmem
      simp [BenchNote.alarm?] at this
    rcases List.append_eq_append_iff.mp heq with ⟨l, hbefore, hl⟩ | ⟨l, hbefore, hl⟩
    · exact absurd (hl ▸ List.mem_append_right _ List.mem_cons_self) hset
    · cases l with
      | nil =>
          have hnotes : .set a :: after = notes := hl
          exact absurd (hnotes ▸ List.mem_cons_self) hset
      | cons n l =>
          obtain ⟨rfl, hafter⟩ := List.cons.inj hl
          rw [hafter, List.append_eq, List.filter_append]
          exact hstep a _ (h.noted before a l hbefore)

/-- All that a step of its own task notes is about a timer. -/
theorem concerns_of_mem_notesOf {id : Nat} {w w' : World} {n : BenchNote}
    (hn : n ∈ notesOf id w w') : n.concerns id = true := by
  rcases List.mem_append.mp hn with hn | hn
  · obtain ⟨t, -, rfl⟩ := List.mem_map.mp hn
    exact beq_self_eq_true id
  · split at hn
    · rw [List.mem_singleton.mp hn]
      rfl
    · simp at hn

/-- What a step of a task notes is not that a timer was set. -/
theorem alarm?_of_mem_notesOf {id : Nat} {w w' : World} {n : BenchNote} (hn : n ∈ notesOf id w w') :
    n.alarm? = none := by
  rcases List.mem_append.mp hn with hn | hn
  · obtain ⟨t, -, rfl⟩ := List.mem_map.mp hn
    rfl
  · split at hn
    · rw [List.mem_singleton.mp hn]
      rfl
    · simp at hn

/-- The notes stay as they are, and nobody is set off. -/
theorem Kept.silent (h : b.Kept) {w : World} (hnumbered : Numbered w [])
    (hlater : ∀ x ∈ w.asleep, w.now < x.1)
    (hstep : ∀ a ns, Alarm.Noted a b.world ns → a.Noted w ns) : Kept { b with world := w } := by
  have := h.extend b.dropped [] hnumbered hlater (by simp)
    fun a ns hns => by simpa using hstep a ns hns
  simpa using this

theorem Kept.turn (h : b.Kept) (i : Nat) : Kept (b.move s (.turn i)) := by
  cases hi : b.world.ready[i]? with
  | none => simpa [move, hi] using h
  | some t =>
      have hperm : b.world.ready.Perm (t :: b.world.ready.eraseIdx i) := by
        obtain ⟨hlt, rfl⟩ := List.getElem?_eq_some_iff.mp hi
        exact (List.getElem_cons_eraseIdx_perm hlt).symm
      have heffect := Job.step_effect s { b.world with ready := b.world.ready.eraseIdx i } t.id t.waits
        t.job
      have hlater : ∀ x ∈ (t.job.step s { b.world with ready := b.world.ready.eraseIdx i } t.id
          t.waits).1.asleep, (t.job.step s { b.world with ready := b.world.ready.eraseIdx i } t.id
            t.waits).1.now < x.1 := fun x hx => by
        rw [(rest_effect heffect).2.1]
        exact h.later x (asleep_effect heffect hx)
      simp only [move, hi]
      refine h.extend _ _ ?_ ?_ (fun n hn => alarm?_of_mem_notesOf hn) ?_
      · exact ((h.numbered.take hperm).effect heffect).change.place
      · exact later_place hlater t.id _
      · intro a ns hns
        -- The step is either the timer's own or that of a bystander
        by_cases hid : t.id = a.id
        · rw [List.filter_eq_self.mpr fun n hn => concerns_of_mem_notesOf (hid ▸ hn)]
          exact hns.turn_of_eq h.numbered hperm hid
        · exact hns.turn_of_ne h.numbered hperm hid

theorem Kept.resume (h : b.Kept) : Kept (b.move s .resume) := by
  simp only [move]
  split
  · rename_i hready
    have hnobody : b.world.ready = [] := List.isEmpty_iff.mp hready
    have htasks : World.tasks { b.world with ready := b.world.paused, paused := [] } = b.world.tasks := by
      simp [tasks, active, hnobody]
    have hspares : ∀ i, Spares i b.world { b.world with ready := b.world.paused, paused := [] } :=
      fun i => ⟨Nat.le_refl _, rfl, by simp [hnobody], fun _ hx _ => hx,
        fun t ht _ => htasks ▸ ht, fun hi => hi, fun p _ hj => by cases p <;> exact .inl hj⟩
    refine h.silent ?_ h.later fun a ns hns => hns.spares (hspares a.id)
    exact h.numbered.shrink (by rw [htasks]) rfl fun p _ hi => by cases p <;> exact hi
  · exact h

theorem Kept.tick (h : b.Kept) (hapart : (b.world.asleep.map Prod.fst).Nodup) :
    Kept (b.move s .tick) := by
  simp only [move]
  split
  · rename_i hquiet
    cases hfirst : b.world.earliest? with
    | none =>
        rw [wake, hfirst]
        exact h
    | some x =>
        obtain ⟨due, u⟩ := x
        obtain ⟨hmem, hle⟩ := earliest_le hfirst
        refine h.silent ?_ ?_ fun a ns hns => hns.wake h.numbered hquiet
        · exact h.numbered.shuffle (wake_shuffled h.numbered (List.ne_nil_of_mem hmem)).1
        · intro y hy
          rw [wake, hfirst] at hy ⊢
          obtain ⟨hy, hne⟩ := List.mem_filter.mp hy
          -- Nobody else sleeps until the same time
          have hdue : due ≠ y.1 := fun heq => by
            have : (due, u) = y := List.inj_on_of_nodup_map hapart hmem hy heq
            simp [← this] at hne
          exact Nat.lt_of_le_of_ne (hle y hy) hdue
  · exact h

theorem Kept.startFirst (h : b.Kept) (job : Job) :
    Kept { b with world := (b.world.startFirst [job]).1 } := by
  refine h.silent ?_ h.later fun a ns hns => hns.spares (.startFirst hns.below job)
  refine h.numbered.grow [⟨b.world.nextTask, job, []⟩] (.refl _) rfl rfl fun p _ hi => .inl ?_
  cases p <;> exact hi

theorem Kept.release (h : b.Kept) (dropped : Bool) :
    Kept ⟨b.world.release .tour, dropped, b.notes ++ [.shut]⟩ := by
  refine h.extend dropped _ (h.numbered.release .tour) ?_ (by simp [BenchNote.alarm?])
    fun a ns hns => hns.release h.numbered
  intro x hx
  rw [release_eq] at hx ⊢
  exact h.later x (List.mem_filter.mp hx).1

/-- Who is bound waits for its timer. -/
theorem noted_bind {w : World} {reactions : List Reaction} {setting : Setting} {a : Alarm}
    (hs : s.concurrent = true) (hn : Numbered w []) (ha : a ∈ alarmsOf w reactions setting) :
    a.Noted (w.bind s .tour reactions setting) [] := by
  have htimers : timersOf s reactions = reactions.filter Reaction.isTimer := if_pos hs
  obtain ⟨⟨r, id⟩, hr, rfl⟩ := List.mem_map.mp ha
  have hid : id ∈ List.range' w.nextTask (reactions.filter Reaction.isTimer).length := by
    rw [← List.zipIdx_map_snd]
    exact List.mem_map_of_mem hr
  obtain ⟨habove, hbelow⟩ := List.mem_range'_1.mp hid
  rw [bind_eq, htimers]
  refine ⟨hbelow, fun hstop => ?_, .waits ?_ (.await ?_ rfl)⟩
  · have := hn.rigs .stop id hstop
    omega
  · show id ∈ (w.grownRig s .tour reactions setting).timers
    rw [grownRig, htimers]
    exact List.mem_append_right _ hid
  · exact List.mem_append_right _ (List.mem_map.mpr ⟨(r, id), hr, rfl⟩)

/-- Every timer that is bound gets a task of its own. -/
theorem Kept.bind (hs : s.concurrent = true) (h : b.Kept) (reactions : List Reaction)
    (setting : Setting) : Kept (b.move s (.bind reactions setting)) := by
  simp only [move]
  split
  · exact h
  · have hids : (alarmsOf b.world reactions setting).map Alarm.id =
        List.range' b.world.nextTask (reactions.filter Reaction.isTimer).length := by
      simp [alarmsOf, Function.comp_def, List.zipIdx_map_snd]
    have hold : (alarmsOf b.world reactions setting |>.map BenchNote.set).filterMap BenchNote.alarm? =
        alarmsOf b.world reactions setting := by
      simp [List.filterMap_map, Function.comp_def, BenchNote.alarm?]
    have hsilent : ∀ (id : Nat) (as : List Alarm),
        (as.map BenchNote.set).filter (BenchNote.concerns id) = [] := fun id as => by
      simp [BenchNote.concerns]
    refine ⟨h.numbered.bind .tour reactions setting, ?_, ?_, ?_⟩
    · rw [bind_eq]
      exact h.later
    · rw [List.filterMap_append, hold, List.map_append, hids]
      refine List.nodup_append.mpr ⟨h.fresh, List.nodup_range', ?_⟩
      intro i hi j hj
      obtain ⟨a, ha, rfl⟩ := List.mem_map.mp hi
      have hbelow := h.below ha
      have habove := (List.mem_range'_1.mp hj).1
      omega
    · intro before a after heq
      -- Of what is bound now, nothing was noted after it
      have hnew : ∀ l, (alarmsOf b.world reactions setting).map BenchNote.set = l ++ .set a :: after →
          a.Noted (b.world.bind s .tour reactions setting)
            (after.filter (BenchNote.concerns a.id)) := fun l hl => by
        obtain ⟨_, as, has, -, hafter⟩ := List.map_eq_append_iff.mp hl
        obtain ⟨a', as, rfl, ha', rfl⟩ := List.map_eq_cons_iff.mp hafter
        obtain rfl := BenchNote.set.inj ha'
        rw [hsilent]
        exact noted_bind hs h.numbered (has ▸ List.mem_append_right _ List.mem_cons_self)
      rcases List.append_eq_append_iff.mp heq with ⟨l, -, hl⟩ | ⟨l, hbefore, hl⟩
      · exact hnew l hl
      · cases l with
        | nil => exact hnew [] hl.symm
        | cons n l =>
            obtain ⟨rfl, hafter⟩ := List.cons.inj hl
            rw [hafter, List.append_eq, List.filter_append, hsilent, List.append_nil]
            have hns := h.noted before a l hbefore
            exact hns.spares (.bind hns.below .tour reactions setting)

/-- Every move of a bench keeps its notes true. -/
theorem Kept.move (hs : s.concurrent = true) (h : b.Kept)
    (hapart : (b.world.asleep.map Prod.fst).Nodup) (m : BenchMove) : Kept (b.move s m) := by
  cases m with
  | turn i => exact h.turn i
  | resume => exact h.resume
  | tick => exact h.tick hapart
  | bind reactions setting => exact h.bind hs reactions setting
  | sleep ms => exact h.startFirst _
  | dispatch event => exact h.startFirst _
  | destroy => exact h.release _
  | drop => exact h.release _

theorem Kept.run (hs : s.concurrent = true) (moves : List BenchMove) (h : b.Kept)
    (hapart : Apart s b moves) : Kept (b.run s moves) := by
  induction moves generalizing b with
  | nil => exact h
  | cons m moves ih =>
      obtain ⟨hnow, hlater⟩ := hapart
      exact ih (h.move hs hnow m) hlater

end Bench

/-! ## The chance of a timer -/

open BenchNote Bench in
/-- Whatever happens, every timer that is set has a number of its own, and what is noted about it after
that is one of three things: it started its actions when its delay was over, as a task that taking the
reactions down does not stop, and from then on nothing but that they were taken down; or they were
taken down, and from then on nothing else; or nothing yet, and then its time has not passed. -/
theorem timers_ring_once_or_never {s : Stage} (hs : s.concurrent = true) (moves : List BenchMove)
    (hapart : Apart s {} moves) :
    let b := run s {} moves
    ((b.notes.filterMap alarm?).map Alarm.id).Nodup ∧
      ∀ before a after, b.notes = before ++ .set a :: after →
        (∃ task rest, after.filter (concerns a.id) = .started a.id (a.time + a.delay) task :: rest ∧
          (∀ n ∈ rest, n = .shut) ∧
          task.job = .run a.setting (some a.event) a.actions [] ∧
          task.waits = [.report a.setting.outlet] ∧
          ∀ t ∈ b.world.tasks, t.id = task.id → t ∈ (b.world.release .tour).tasks) ∨
        (∃ rest, after.filter (concerns a.id) = .shut :: rest ∧ ∀ n ∈ rest, n = .shut) ∨
        (after.filter (concerns a.id) = [] ∧ b.world.now ≤ a.time + a.delay ∧
          (b.world.isQuiet = true → b.world.now < a.time + a.delay)) := by
  intro b
  have hkept : b.Kept := Kept.run hs moves .initial hapart
  refine ⟨hkept.fresh, fun before a after hnotes => ?_⟩
  have hstatus := (hkept.noted before a after hnotes).status
  generalize after.filter (concerns a.id) = ns at hstatus ⊢
  cases hstatus with
  | rang hover hbelow hfree hrest =>
      refine .inl ⟨_, _, rfl, hrest, rfl, rfl, fun t ht hid => ?_⟩
      have hnot : t.id ∉ b.world.tourRig.timers := hid ▸ hfree .tour
      rw [World.release_eq]
      simp only [World.tasks, World.active, List.mem_append, List.mem_map, List.mem_filter] at ht ⊢
      rcases ht with ((ht | ht) | ⟨x, hx, rfl⟩) | ht
      · exact .inl (.inl (.inl ⟨ht, by simpa [World.rig] using hnot⟩))
      · exact .inl (.inl (.inr ht))
      · exact .inl (.inr ⟨x, ⟨hx, by simpa [World.rig] using hnot⟩, rfl⟩)
      · exact .inr ht
  | gone hgone hrest => exact .inr (.inl ⟨_, rfl, hrest⟩)
  | waits hheld hwaits =>
      have hready : ∀ t ∈ b.world.ready, b.world.isQuiet ≠ true := fun t ht hquiet => by
        have : b.world.ready = [] := List.isEmpty_iff.mp (Bool.and_eq_true_iff.mp hquiet).1
        simp [this] at ht
      refine .inr (.inr ⟨rfl, ?_⟩)
      cases hwaits with
      | await hmem hnow => exact ⟨by omega, fun hquiet => absurd hquiet (hready _ hmem)⟩
      | ring hmem hnow =>
          exact ⟨Nat.le_of_eq hnow, fun hquiet => absurd hquiet (hready _ hmem)⟩
      | sleep hmem hnow => exact ⟨hnow, fun _ => hkept.later _ hmem⟩

namespace Bench

/-- Two timers are set at once; the reactions are taken down after the first of them has elapsed, and
before the second does. -/
def twoTimers : List BenchMove :=
  [.bind [⟨.timer, none, none, some 5, none, []⟩, ⟨.timer, none, none, some 9, none, []⟩]
    ⟨-1, none, .haltOnError, .record⟩, .turn 0, .turn 0, .tick, .turn 0, .destroy]

/-- Of the two timers only the first rings, and its actions outlast the reactions. -/
theorem twoTimers_ring_first :
    Stage.guided.concurrent = true ∧ Apart .guided {} twoTimers ∧
      ∃ first second, (run .guided {} twoTimers).notes.filterMap BenchNote.alarm? = [first, second] ∧
        (∃ task, (run .guided {} twoTimers).notes.filter (BenchNote.concerns first.id) =
            [.started first.id 5 task, .shut] ∧ task ∈ (run .guided {} twoTimers).world.tasks) ∧
        (run .guided {} twoTimers).notes.filter (BenchNote.concerns second.id) = [.shut] := by
  have hapart : Apart .guided {} twoTimers := by decide
  obtain ⟨-, hrings⟩ := timers_ring_once_or_never (s := .guided) rfl twoTimers hapart
  refine ⟨rfl, hapart, _, _, rfl, ?_, ?_⟩
  · rcases hrings [] _ _ rfl with ⟨task, rest, hrang, -, -, -, -⟩ | ⟨_, hgone, -⟩ | ⟨hnone, -⟩
    · obtain ⟨htask, rfl⟩ := List.cons.inj hrang
      obtain ⟨-, -, rfl⟩ := BenchNote.started.inj htask
      exact ⟨_, rfl, List.mem_cons_self⟩
    · cases hgone
    · cases hnone
  · rcases hrings [_] _ _ rfl with ⟨_, _, hrang, -⟩ | ⟨rest, hgone, -⟩ | ⟨hnone, -⟩
    · cases hrang
    · exact hgone.trans (congrArg _ (List.cons.inj hgone).2.symm)
    · cases hnone

end Bench

end DiagramTour
