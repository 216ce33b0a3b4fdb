import DiagramTour.Proofs.Playback.Rigging

/-!
# What a choice makes of a part

Along a schedule what a part has put up stays as it is, but for timers that elapse; until the player
ends, a stop is left or reached, or the tour is opened.

## Architecture

- `World.Comes` tells where the tasks come from that are there after a choice.
- `World.Keeps` holds of two worlds when the later one has all that a part had put up in the earlier
  one, but for timers that have elapsed since, and nothing more.  It is reflexive and transitive.
- `World.Turnover` lists what a choice makes of a part, and `World.Reachable.turnover` says that this
  is all.
-/

namespace DiagramTour

/-- What a timer is to do, and when; unless it has gone off. -/
def Job.timer? : Job → Option (Setting × Nat × List Action)
  | .await setting delay actions | .ring setting delay actions => some (setting, delay, actions)
  | _ => none

/-- Whether a timer has not begun to wait. -/
def Job.isAwait : Job → Bool
  | .await _ _ _ => true
  | _ => false

theorem Job.isPending_iff {job : Job} : job.isPending = true ↔ ∃ x, job.timer? = some x := by
  cases job <;> simp [isPending, timer?]

theorem Job.isPending_of_isAwait {job : Job} (h : job.isAwait = true) : job.isPending = true := by
  cases job <;> first | rfl | cases h

/-- Who is a pending timer after a step has begun to wait in it. -/
theorem Job.step_await {s : Stage} {w : World} {t t' : Task}
    (ht : (t.job.step s w t.id t.waits).2.task? t.id = some t') (hp : t'.job.isPending = true) :
    t.job.isAwait = true ∧ t'.job.isAwait = false ∧ t.job.timer? = t'.job.timer? := by
  obtain ⟨hpending, -, -⟩ := Job.step_pending ht hp
  obtain ⟨id, job, waits⟩ := t
  cases job with
  | await setting delay actions =>
      cases ht
      exact ⟨rfl, rfl, rfl⟩
  | ring setting delay actions =>
      cases ht
      cases hp
  | _ => cases hpending

namespace World

variable {s : Stage} {w w' w'' : World} {t t' : Task} {c : Choice} {p : Part}

/-! ## Where tasks come from -/

/-- The job of the task that is started for what is asked for, if one is. -/
def job? (w : World) : Demand → Option Job
  | .begin render => some (.begin render)
  | .move m => some (.travel m)
  | .dispatch event => some (.fire event (w.host.matching event) (w.host.matching event).length)
  | .sleep ms => some (.sleep ms)
  | .subscribe _ _ _ | .unsubscribe _ | .destroy => none

/-- Where a task comes from that is there after a choice. -/
inductive Comes (s : Stage) (w : World) (c : Choice) (t' : Task) : Prop where
  /-- It was there, and did not take a step. -/
  | stays : t' ∈ w.tasks → (∀ u, w.mover? c = some u → u.id ≠ t'.id) → Comes s w c t'
  /-- It took a step. -/
  | steps {t : Task} {others : List Task} : w.mover? c = some t → w.ready.Perm (t :: others) →
      (t.job.step s { w with ready := others } t.id t.waits).2.task? t.id = some t' → Comes s w c t'
  /-- It was started in a step. -/
  | starts {t : Task} : w.mover? c = some t → t'.IsFresh t.job → w.nextTask ≤ t'.id →
      Comes s w c t'
  /-- It was started for what was asked for. -/
  | asked {d : Demand} {job : Job} : c = .ask d → w.job? d = some job →
      t' = ⟨w.nextTask, job, []⟩ → Comes s w c t'

theorem mem_tasks_ask (d : Demand) (ht : t' ∈ (w.ask d).tasks) :
    t' ∈ w.tasks ∨ ∃ job, w.job? d = some job ∧ t' = ⟨w.nextTask, job, []⟩ := by
  have hstart : ∀ {job : Job}, t' ∈ (w.start job []).tasks → w.job? d = some job →
      t' ∈ w.tasks ∨ ∃ job, w.job? d = some job ∧ t' = ⟨w.nextTask, job, []⟩ := by
    intro job ht hjob
    rcases List.mem_cons.mp ((tasks_start w job []).subset ht) with rfl | hold
    · exact .inr ⟨job, hjob, rfl⟩
    · exact .inl hold
  cases d with
  | «begin» render => exact hstart ht rfl
  | move m => exact hstart ht rfl
  | dispatch event => exact hstart ht rfl
  | sleep ms => exact hstart ht rfl
  | subscribe label topic responses =>
      simp only [ask] at ht
      split at ht <;> exact .inl ht
  | unsubscribe label => exact .inl ht
  | destroy => exact .inl ((tasks_destroy w).subset ht)

/-- Whoever is there after a choice comes from one of these. -/
theorem Numbered.comes (hn : Numbered w []) (ht : t' ∈ (w.choose s c).tasks) : Comes s w c t' := by
  obtain ⟨t, others, hmover, hperm, heq⟩ | ⟨hnone, hw⟩ | ⟨d, rfl, heq⟩ := choose_cases s w c
  · rw [heq, takeTurn_eq] at ht
    rcases List.mem_append.mp ((tasks_place _ _ _).subset ht) with hhand | hrest
    · exact .steps hmover hperm (Option.mem_toList.mp hhand)
    · rcases (Job.step_effect s { w with ready := others } t.id t.waits t.job).mem_tasks t' hrest
        with hold | ⟨hfresh, hnew⟩
      · refine .stays ((tasks_take hperm).symm.subset (List.mem_cons_of_mem _ hold)) ?_
        intro u hu hid
        cases hmover.symm.trans hu
        have hdistinct := (hn.take hperm).distinct
        simp only [List.singleton_append, List.map_cons, List.nodup_cons] at hdistinct
        exact hdistinct.1 (List.mem_map.mpr ⟨t', hold, hid.symm⟩)
      · exact .starts hmover hfresh hnew
  · exact .stays (hw.tasks.subset ht) fun u hu => by simp [hnone] at hu
  · rw [heq] at ht
    rcases mem_tasks_ask d ht with hold | ⟨job, hjob, hnew⟩
    · exact .stays hold fun u hu => by cases hu
    · exact .asked rfl hjob hnew

/-- Where a task is after its step. -/
theorem Numbered.steps_of_mover {u : Task} (hn : Numbered w []) (hmover : w.mover? c = some u)
    (ht : t' ∈ (w.choose s c).tasks) (hid : t'.id = u.id) :
    ∃ others, (u.job.step s { w with ready := others } u.id u.waits).2.task? u.id = some t' := by
  cases hn.comes ht with
  | stays _ hother => exact absurd hid.symm (hother u hmover)
  | @steps v others hmover' _ hstep =>
      cases hmover.symm.trans hmover'
      exact ⟨others, hstep⟩
  | starts _ _ hnew =>
      have hlt := hn.below u (active_subset_tasks w (mem_active_of_mover? hmover))
      exact absurd hlt (Nat.not_lt.mpr (hid ▸ hnew))
  | asked hc =>
      subst hc
      cases hmover

/-- Where a task is that does not take a step. -/
theorem Numbered.stays_of_not_mover (hn : Numbered w []) (ht : t ∈ w.tasks)
    (hother : ∀ u, w.mover? c = some u → u.id ≠ t.id) (ht' : t' ∈ (w.choose s c).tasks)
    (hid : t'.id = t.id) : t' = t := by
  have hlt := hn.below t ht
  cases hn.comes ht' with
  | stays hold _ => exact hn.eq_of_id hold ht hid
  | steps hmover _ hstep => exact absurd ((Turn.id_of_task? hstep).symm.trans hid) (hother _ hmover)
  | starts _ _ hnew => exact absurd hlt (Nat.not_lt.mpr (hid ▸ hnew))
  | asked _ _ hnew =>
      rw [hnew] at hid
      exact absurd hlt (Nat.not_lt.mpr (Nat.le_of_eq hid))

/-! ## What stays -/

/-- What a part has put up stays, but for timers that elapse, and nothing more is put up. -/
structure Keeps (p : Part) (w w' : World) : Prop where
  rig : w'.rig p = w.rig p
  listeners : (w'.rigging p).listeners = (w.rigging p).listeners
  clock : w.now ≤ w'.now
  /-- A timer is a task until it ends. -/
  timers : ∀ t ∈ w.tasks, t.id ∈ (w.rig p).timers →
    (∃ t' ∈ w'.tasks, t'.id = t.id) ∨ (t.id, .completed) ∈ w'.outcomes
  outcomes : ∀ x ∈ w.outcomes, x ∈ w'.outcomes
  /-- A pending timer was pending before, and may have begun to wait. -/
  pending : ∀ t' ∈ w'.tasks, t'.id ∈ (w'.rig p).timers → t'.job.isPending = true →
    ∃ t ∈ w.tasks, t.id = t'.id ∧ t.job.timer? = t'.job.timer? ∧ (t'.job.isAwait = true → t.job.isAwait = true)
  /-- Who waits for a timer waits on, unless it has elapsed. -/
  asleep : ∀ due t, t.id ∈ (w.rig p).timers → (due, t) ∈ w.asleep →
    (due, t) ∈ w'.asleep ∨ due ≤ w'.now
  /-- Who waits for a timer has waited for it, unless it began to wait. -/
  slept : ∀ due t', t'.id ∈ (w'.rig p).timers → (due, t') ∈ w'.asleep →
    (due, t') ∈ w.asleep ∨ ∃ t ∈ w.tasks, t.id = t'.id ∧ t.job.isAwait = true

namespace Keeps

theorem refl (p : Part) (w : World) : Keeps p w w where
  rig := rfl
  listeners := rfl
  clock := Nat.le_refl _
  timers t ht _ := .inl ⟨t, ht, rfl⟩
  outcomes _ hx := hx
  pending t ht _ _ := ⟨t, ht, rfl, rfl, id⟩
  asleep _ _ _ h := .inl h
  slept _ _ _ h := .inl h

theorem trans (h : Keeps p w w') (h' : Keeps p w' w'') : Keeps p w w'' where
  rig := h'.rig.trans h.rig
  listeners := h'.listeners.trans h.listeners
  clock := Nat.le_trans h.clock h'.clock
  timers t ht hi := by
    rcases h.timers t ht hi with ⟨t', ht', hid⟩ | hdone
    · rw [← hid]
      exact h'.timers t' ht' (by rwa [h.rig, hid])
    · exact .inr (h'.outcomes _ hdone)
  outcomes x hx := h'.outcomes x (h.outcomes x hx)
  pending t'' ht'' hi hp := by
    obtain ⟨t', ht', hid', htimer', hawait'⟩ := h'.pending t'' ht'' hi hp
    have hp' : t'.job.isPending = true := by
      rwa [Job.isPending_iff, htimer', ← Job.isPending_iff]
    obtain ⟨t, ht, hid, htimer, hawait⟩ := h.pending t' ht' (by rwa [← h'.rig, hid']) hp'
    exact ⟨t, ht, hid.trans hid', htimer.trans htimer', fun ha => hawait (hawait' ha)⟩
  asleep due t hi ht := by
    rcases h.asleep due t hi ht with ht | hdue
    · exact h'.asleep due t (by rwa [h.rig]) ht
    · exact .inr (Nat.le_trans hdue h'.clock)
  slept due t'' hi ht'' := by
    rcases h'.slept due t'' hi ht'' with ht | ⟨t', ht', hid', hawait'⟩
    · exact h.slept due t'' (by rwa [← h'.rig]) ht
    · obtain ⟨t, ht, hid, -, hawait⟩ :=
        h.pending t' ht' (by rwa [← h'.rig, hid']) (Job.isPending_of_isAwait hawait')
      exact .inr ⟨t, ht, hid.trans hid', hawait hawait'⟩

end Keeps

/-- Whoever has the number of a timer of a part is in its rigging. -/
theorem Restless.mem_rigging (h : Restless w) (ht : t ∈ w.tasks) (hi : t.id ∈ (w.rig p).timers) :
    t ∈ (w.rigging p).ready ∨ t ∈ (w.rigging p).asleep.map Prod.snd := by
  rcases mem_tasks.mp ht with ht | ht | ht
  · exact .inl (List.mem_filter.mpr ⟨ht, by simpa using hi⟩)
  · obtain ⟨x, hx, rfl⟩ := List.mem_map.mp ht
    exact .inr (List.mem_map.mpr ⟨x, List.mem_filter.mpr ⟨hx, by simpa using hi⟩, rfl⟩)
  · exact absurd hi (h t ht p)

theorem mem_tasks_of_rigging
    (ht : t ∈ (w.rigging p).ready ∨ t ∈ (w.rigging p).asleep.map Prod.snd) : t ∈ w.tasks := by
  rcases ht with ht | ht
  · exact mem_tasks.mpr (.inl (List.mem_filter.mp ht).1)
  · obtain ⟨x, hx, rfl⟩ := List.mem_map.mp ht
    exact mem_tasks.mpr (.inr (.inl (List.mem_map.mpr ⟨x, (List.mem_filter.mp hx).1, rfl⟩)))

theorem mem_asleep_of_rigging {due : Nat} (heq : w'.rigging p = w.rigging p)
    (hi : t.id ∈ (w.rig p).timers) (ht : (due, t) ∈ w.asleep) : (due, t) ∈ w'.asleep := by
  have hmem : (due, t) ∈ (w.rigging p).asleep := List.mem_filter.mpr ⟨ht, by simpa using hi⟩
  rw [← heq] at hmem
  exact (List.mem_filter.mp hmem).1

/-- Where the numbers of a part stay the same, a pending timer of it was pending before. -/
private theorem pending_choose (hn : Numbered w []) (ht : t' ∈ (w.choose s c).tasks) (hi : t'.id ∈ (w.rig p).timers)
    (hp : t'.job.isPending = true) : ∃ t ∈ w.tasks, t.id = t'.id ∧
      t.job.timer? = t'.job.timer? ∧ (t'.job.isAwait = true → t.job.isAwait = true) := by
  cases hn.comes ht with
  | stays hold => exact ⟨t', hold, rfl, rfl, id⟩
  | @steps t others hmover _ hstep =>
      obtain ⟨hawait, hno, htimer⟩ := Job.step_await hstep hp
      refine ⟨t, active_subset_tasks w (mem_active_of_mover? hmover), ?_, htimer, fun _ => hawait⟩
      exact (Turn.id_of_task? hstep).symm
  | starts _ _ hnew => exact absurd (hn.rigs p _ hi) (Nat.not_lt.mpr hnew)
  | asked _ _ hnew =>
      rw [hnew] at hi
      exact absurd (hn.rigs p _ hi) (Nat.lt_irrefl _)

/-- Who was put where it goes on is a task, or has ended. -/
private theorem placed {id : Nat} {turn : Turn} {o : Outcome} (h : ∀ o', turn = .finish o' → o' = o)
    (w : World) : (∃ u ∈ (w.place id turn).tasks, u.id = id) ∨ (id, o) ∈ (w.place id turn).outcomes := by
  have htasks := (tasks_place w id turn).symm.subset
  cases hturn : turn.task? id with
  | some u => exact .inl ⟨u, htasks (by simp [hturn]), Turn.id_of_task? hturn⟩
  | none =>
      cases turn with
      | finish o' =>
          rw [h o' rfl]
          exact .inr (by simp [place])
      | _ => cases hturn

/-- Who sleeps after a turn did so before, or was put to sleep by it. -/
private theorem mem_asleep_place {id due : Nat} {turn : Turn}
    (h : (due, t') ∈ (w.place id turn).asleep) : (due, t') ∈ w.asleep ∨
      t'.id = id ∧ ∃ ms, turn = .sleep ms t'.job t'.waits := by
  cases turn with
  | sleep ms job waits =>
      cases ms with
      | zero => exact .inl h
      | succ n =>
          rcases List.mem_append.mp h with h | h
          · exact .inl h
          · cases List.mem_singleton.mp h
            exact .inr ⟨rfl, _, rfl⟩
  | _ => exact .inl h

private theorem rest_place (w : World) (id : Nat) (turn : Turn) :
    (w.place id turn).now = w.now ∧ (∀ x ∈ w.outcomes, x ∈ (w.place id turn).outcomes) ∧
      ∀ x ∈ w.asleep, x ∈ (w.place id turn).asleep := by
  unfold place
  split <;> simp +contextual

/-- A timer that is put to sleep has begun to wait, and one that ends is complete. -/
private theorem turn_of_isTimer (h : t.IsTimer) :
    (∀ ms job waits, (t.job.step s w t.id t.waits).2 = .sleep ms job waits → t.job.isAwait = true) ∧
      ∀ o, (t.job.step s w t.id t.waits).2 = .finish o → o = .completed := by
  obtain ⟨id, job, waits⟩ := t
  obtain ⟨hjob, rfl⟩ := h
  cases job with
  | await setting delay actions => exact ⟨fun _ _ _ _ => rfl, fun _ hturn => (by cases hturn)⟩
  | ring setting delay actions =>
      exact ⟨fun _ _ _ hturn => (by cases hturn), fun _ hturn => (by cases hturn)⟩
  | ended o =>
      cases o with
      | completed =>
          refine ⟨fun _ _ _ hturn => (by cases hturn), fun _ hturn => ?_⟩
          cases hturn
          rfl
      | _ => cases hjob
  | _ => cases hjob

/-- Where a step leaves a rigging alone it stays, but for the task that took the step. -/
private theorem keeps_turn {others : List Task} (hw : Reachable s w) (hmover : w.mover? c = some t)
    (hperm : w.ready.Perm (t :: others)) (heq : w.choose s c = w.takeTurn s t others)
    (hsame : (t.job.step s { w with ready := others } t.id t.waits).1.rigging p =
      ({ w with ready := others } : World).rigging p) : Keeps p w (w.choose s c) := by
  have hway := hw.way
  have hmem : t ∈ w.tasks := active_subset_tasks w (mem_active_of_mover? hmover)
  obtain ⟨houtcomes, hnow, -, -⟩ :=
    rest_effect (Job.step_effect s { w with ready := others } t.id t.waits t.job)
  have hplace := heq.trans (takeTurn_eq t others)
  have hturn := fun hi =>
    @turn_of_isTimer s { w with ready := others } t (hway.timers t hmem p hi)
  generalize (t.job.step s { w with ready := others } t.id t.waits).1 = v at *
  generalize (t.job.step s { w with ready := others } t.id t.waits).2 = turn at *
  obtain ⟨hhost, -, -, -, hrig'⟩ := host_place v t.id turn
  obtain ⟨hnow', houtcomes', hasleep'⟩ := rest_place v t.id turn
  have hvrig : v.rig p = w.rig p := congrArg Rigging.rig hsame
  have hrig : (w.choose s c).rig p = w.rig p := by
    rw [hplace, hrig', hvrig]
  refine ⟨hrig, ?_, ?_, ?_, ?_, ?_, ?_, ?_⟩
  · have hlisteners : (v.rigging p).listeners = (w.rigging p).listeners :=
      (congrArg Rigging.listeners hsame :)
    rw [← hlisteners, hplace]
    simp only [rigging, hrig', hhost]
  · exact Nat.le_of_eq (by rw [hplace, hnow', hnow])
  · intro u hu hi
    rw [hplace]
    rcases List.mem_cons.mp ((tasks_take hperm).subset hu) with rfl | hu
    · exact placed (hturn hi).2 v
    · -- The others with numbers of the part are in its rigging
      have hrest : Restless { w with ready := others } := hw.restless
      have hmem := hrest.mem_rigging hu hi
      rw [← hsame] at hmem
      refine .inl ⟨u, (tasks_place v t.id turn).symm.subset ?_, rfl⟩
      exact List.mem_append_right _ (mem_tasks_of_rigging hmem)
  · intro x hx
    rw [hplace]
    exact houtcomes' x (houtcomes ▸ hx)
  · intro u hu hi hp
    exact pending_choose hway.toNumbered hu (hrig ▸ hi) hp
  · intro due u hi hu
    rw [hplace]
    exact .inl (hasleep' _ (mem_asleep_of_rigging (w := { w with ready := others }) hsame hi hu))
  · intro due u hi hu
    rw [hrig] at hi
    rw [hplace] at hu
    rcases mem_asleep_place hu with hu | ⟨hid, ms, hsleep⟩
    · have hslept : (due, u) ∈ ({ w with ready := others } : World).asleep :=
        mem_asleep_of_rigging hsame.symm (hvrig ▸ hi) hu
      exact .inl hslept
    · rw [hid] at hi
      exact .inr ⟨t, hmem, hid.symm, (hturn hi).1 _ _ _ hsleep⟩

/-- A shuffle of the tasks lets time pass, so that timers elapse. -/
private theorem keeps_shuffle (hn : Numbered w []) (hask : ∀ d, c ≠ .ask d) (hnone : w.mover? c = none)
    (hw : w.Shuffled (w.choose s c)) : Keeps p w (w.choose s c) := by
  have htasks := hw.tasks
  have hasleep : w.now ≤ (w.choose s c).now ∧
      (∀ x ∈ w.asleep, x ∈ (w.choose s c).asleep ∨ x.1 ≤ (w.choose s c).now) ∧
      ∀ x ∈ (w.choose s c).asleep, x ∈ w.asleep := by
    cases c with
    | turn i =>
        simp only [mover?] at hnone
        simp only [choose, hnone]
        exact ⟨Nat.le_refl _, fun _ hx => .inl hx, fun _ hx => hx⟩
    | yield i =>
        simp only [choose]
        split <;> exact ⟨Nat.le_refl _, fun _ hx => .inl hx, fun _ hx => hx⟩
    | resume i =>
        simp only [choose]
        split <;> exact ⟨Nat.le_refl _, fun _ hx => .inl hx, fun _ hx => hx⟩
    | wake i now =>
        simp only [choose]
        split
        · rename_i due u hi
          obtain ⟨hlt, hget⟩ := List.getElem?_eq_some_iff.mp hi
          split
          · rename_i htime
            refine ⟨htime.2, fun x hx => ?_, fun x hx => List.mem_of_mem_eraseIdx hx⟩
            -- Only the one that is woken does not sleep on
            rcases List.mem_cons.mp ((List.getElem_cons_eraseIdx_perm hlt).symm.subset hx)
              with hx | hx
            · rw [hx, hget]
              exact .inr htime.1
            · exact .inl hx
          · exact ⟨Nat.le_refl _, fun _ hx => .inl hx, fun _ hx => hx⟩
        · exact ⟨Nat.le_refl _, fun _ hx => .inl hx, fun _ hx => hx⟩
    | ask d => exact absurd rfl (hask d)
  obtain ⟨ready, paused, asleep, now, heq⟩ := hw.eq
  have hrig : (w.choose s c).rig p = w.rig p := by
    rw [heq]
    cases p <;> rfl
  obtain ⟨hnow, helapse, hsleep⟩ := hasleep
  refine ⟨hrig, ?_, hnow, ?_, ?_, ?_, ?_, ?_⟩
  · simp only [rigging, hrig]
    rw [heq]
  · exact fun u hu _ => .inl ⟨u, htasks.symm.subset hu, rfl⟩
  · rw [heq]
    exact fun _ hx => hx
  · exact fun u hu hi hp => pending_choose hn hu (hrig ▸ hi) hp
  · exact fun due u _ hu => helapse (due, u) hu
  · exact fun due u _ hu => .inl (hsleep (due, u) hu)

/-- What is asked for takes no time, and nobody ends by it. -/
theorem rest_ask (w : World) (d : Demand) :
    (w.ask d).now = w.now ∧ (w.ask d).outcomes = w.outcomes := by
  cases d with
  | subscribe label topic responses =>
      simp only [ask]
      split <;> exact ⟨rfl, rfl⟩
  | destroy =>
      simp only [ask, destroy]
      split
      · exact ⟨rfl, rfl⟩
      · simp [release_eq]
  | _ => exact ⟨rfl, rfl⟩

/-- What is asked for leaves all that is up alone, unless it ends the player. -/
private theorem keeps_ask {d : Demand} (hw : Reachable s w)
    (hsame : (w.ask d).rigging p = w.rigging p) : Keeps p w (w.ask d) := by
  have hrig : (w.ask d).rig p = w.rig p := congrArg Rigging.rig hsame
  have hrest := rest_ask w d
  refine ⟨hrig, congrArg Rigging.listeners hsame, ?_, ?_, ?_, ?_, ?_, ?_⟩
  · exact Nat.le_of_eq hrest.1.symm
  · intro u hu hi
    have hmem := hw.restless.mem_rigging hu hi
    rw [← hsame] at hmem
    exact .inl ⟨u, mem_tasks_of_rigging hmem, rfl⟩
  · exact fun x hx => hrest.2 ▸ hx
  · exact fun u hu hi hp =>
      pending_choose (s := s) (c := .ask d) hw.way.toNumbered hu (hrig ▸ hi) hp
  · exact fun due u hi hu => .inl (mem_asleep_of_rigging hsame hi hu)
  · exact fun due u hi hu => .inl (mem_asleep_of_rigging hsame.symm hi hu)

/-! ## Whose listeners and timers are up -/

/-- A part has put up some rules, and nothing else: a listener for each of those that wait for an
event, and a timer for each of those that wait for some time, in their order. -/
structure Holds (s : Stage) (w : World) (p : Part) (rs : List Reaction) (setting : Setting) : Prop where
  listeners : ∃ n, (w.rig p).listeners = List.range' n (listenersOf s setting rs).length ∧
    (w.rigging p).listeners = ((listenersOf s setting rs).zipIdx n).map fun l => l.1 l.2
  timers : ∃ n, (w.rig p).timers = List.range' n (timersOf s rs).length ∧
    -- A timer that is pending is that of the rule at its place
    (∀ t ∈ w.tasks, t.id ∈ (w.rig p).timers → ∀ x, t.job.timer? = some x →
      ∃ r, (timersOf s rs)[t.id - n]? = some r ∧ x = (setting, r.delay, r.actions)) ∧
    -- No timer is lost: it is still there, or is complete
    ∀ i ∈ (w.rig p).timers, (∃ t ∈ w.tasks, t.id = i) ∨ (i, .completed) ∈ w.outcomes

variable {rs : List Reaction} {setting : Setting} {hand others : List Task} {turn : Turn}

theorem Holds.keeps (h : Holds s w p rs setting) (hk : Keeps p w w') : Holds s w' p rs setting where
  listeners := by
    rw [hk.rig, hk.listeners]
    exact h.listeners
  timers := by
    obtain ⟨n, hrig, hpending, hkept⟩ := h.timers
    refine ⟨n, by rw [hk.rig, hrig], ?_, ?_⟩
    · intro t' ht' hi x hx
      obtain ⟨t, ht, hid, htimer, -⟩ := hk.pending t' ht' hi (Job.isPending_iff.mpr ⟨x, hx⟩)
      rw [← hid]
      exact hpending t ht (by rwa [← hk.rig, hid]) x (htimer.trans hx)
    · intro i hi
      rw [hk.rig] at hi
      rcases hkept i hi with ⟨t, ht, rfl⟩ | hdone
      · exact hk.timers t ht hi
      · exact .inr (hk.outcomes _ hdone)

/-- Rules that are bound to a part without any are put up, and nothing else is. -/
theorem Holds.bind (hl : Listed w) (hn : Numbered w hand) (hempty : w.rig p = {}) :
    Holds s (w.bind s p rs setting) p rs setting := by
  have hrig : (w.bind s p rs setting).rig p =
      ⟨List.range' w.host.next (listenersOf s setting rs).length,
        List.range' w.nextTask (timersOf s rs).length⟩ := by
    rw [rig_bind, if_pos rfl, grownRig, hempty]
    rfl
  have htasks := tasks_bind s w p rs setting
  refine ⟨⟨w.host.next, by rw [hrig], ?_⟩, w.nextTask, by rw [hrig], ?_, ?_⟩
  · simp only [rigging, hrig]
    rw [bind_eq, List.filter_append, List.filter_eq_nil_iff.mpr, List.nil_append,
      List.filter_eq_self.mpr]
    · intro l hnew
      obtain ⟨⟨f, i⟩, hf, rfl⟩ := List.mem_map.mp hnew
      have hi := List.mem_zipIdx hf
      rw [id_of_listenersOf (List.fst_mem_of_mem_zipIdx hf)]
      simp only [List.contains_eq_mem, List.mem_range'_1, decide_eq_true_eq]
      omega
    · intro l hold
      have hlt := hl.below l hold
      simp only [List.contains_eq_mem, List.mem_range'_1, decide_eq_true_eq]
      omega
  · intro t ht hi x hx
    rw [hrig] at hi
    have hge := (List.mem_range'_1.mp hi).1
    rcases List.mem_append.mp (htasks.subset ht) with hnew | hold
    · obtain ⟨⟨r, i⟩, hr, rfl⟩ := List.mem_map.mp hnew
      cases hx
      exact ⟨r, (List.mk_mem_zipIdx_iff_le_and_getElem?_sub.mp hr).2, rfl⟩
    · exact absurd (hn.below t (List.mem_append_right _ hold)) (Nat.not_lt.mpr hge)
  · intro i hi
    rw [hrig, ← timerTasks_ids setting] at hi
    obtain ⟨t, ht, rfl⟩ := List.mem_map.mp hi
    exact .inl ⟨t, htasks.symm.subset (List.mem_append_left _ ht), rfl⟩

/-! ## What a choice does -/

/-- A task that is put where it goes on leaves alone what it does not belong to. -/
private theorem keeps_place {id : Nat} (hid : id ∉ (w.rig p).timers) (turn : Turn) :
    Keeps p w (w.place id turn) := by
  obtain ⟨hhost, -, -, -, hrig⟩ := host_place w id turn
  obtain ⟨hnow, houtcomes, hasleep⟩ := rest_place w id turn
  have htasks := tasks_place w id turn
  refine ⟨hrig p, ?_, Nat.le_of_eq hnow.symm, ?_, houtcomes, ?_, ?_, ?_⟩
  · simp only [rigging, hrig, hhost]
  · exact fun t ht _ => .inl ⟨t, htasks.symm.subset (List.mem_append_right _ ht), rfl⟩
  · intro t' ht' hi hp
    rcases List.mem_append.mp (htasks.subset ht') with hhand | hold
    · rw [hrig, Turn.id_of_task? (Option.mem_toList.mp hhand)] at hi
      exact absurd hi hid
    · exact ⟨t', hold, rfl, rfl, fun h => h⟩
  · exact fun due t _ ht => .inl (hasleep _ ht)
  · intro due t' hi ht'
    rcases mem_asleep_place ht' with ht' | ⟨hid', -⟩
    · exact .inl ht'
    · rw [hrig, hid'] at hi
      exact absurd hi hid

/-- A part without any rules that are up is given some in a turn. -/
private theorem holds_turn {v : World} {turn : Turn}
    (hl : Listed v) (hn : Numbered v [t]) (hempty : v.rig p = {}) :
    Holds s ((v.bind s p rs setting).place t.id turn) p rs setting := by
  refine (Holds.bind hl hn hempty).keeps (keeps_place ?_ turn)
  -- The new timers have new numbers
  rw [rig_bind, if_pos rfl, grownRig, hempty]
  intro hi
  have hlt := hn.below t (by simp)
  have hge := (List.mem_range'_1.mp hi).1
  omega

/-- What a choice is in which a task takes a step. -/
private theorem choose_of_mover (hmover : w.mover? c = some t) : ∃ others,
    w.ready.Perm (t :: others) ∧ w.choose s c = w.takeTurn s t others := by
  obtain ⟨u, others, hu, hperm, heq⟩ | ⟨hnone, -⟩ | ⟨d, rfl, -⟩ := choose_cases s w c
  · cases hmover.symm.trans hu
    exact ⟨others, hperm, heq⟩
  · simp [hnone] at hmover
  · cases hmover

variable {o : Outcome} {j : Nat} {es : List ActionError} {ys : List Wait} {m : Move}

private theorem depart_eq {id : Nat} {waits : List Wait} (hlive : w.destroyed = false)
    (hj : w.target? s m = some j) :
    (Job.step s w id waits (.depart m)).1 = (w.release .stop).tidy s (stopAt s j) := by
  simp only [Job.step, depart, hlive, hj, Bool.false_eq_true, if_false]

/-- Who leaves for a stop takes down what is up of the one before. -/
theorem rig_of_leaves (hmover : w.mover? c = some t) (hjob : t.job = .depart m)
    (hlive : w.destroyed = false) (hj : w.target? s m = some j) : (w.choose s c).rig .stop = {} := by
  obtain ⟨others, -, heq⟩ := choose_of_mover (s := s) hmover
  obtain ⟨-, -, -, -, hrig⟩ := host_place (t.job.step s { w with ready := others } t.id t.waits).1
    t.id (t.job.step s { w with ready := others } t.id t.waits).2
  rw [heq, takeTurn_eq, hrig, hjob, depart_eq (w := { w with ready := others }) hlive hj, rig_tidy,
    rig_release, if_pos rfl]

/-- Who reaches a stop puts up its rules. -/
theorem Reachable.holds_of_arrives (hw : Reachable s w) (hmover : w.mover? c = some t)
    (hjob : t.job = .ended o) (hwaits : t.waits = .arrived j es :: ys) (hempty : w.rig .stop = {}) :
    (w.choose s c).position = j ∧
      Holds s (w.choose s c) .stop (stopAt s j).reactions (settingOf s j (stopAt s j)) := by
  obtain ⟨others, hperm, heq⟩ := choose_of_mover (s := s) hmover
  have hhand := hw.way.take hperm
  have hl : Listed { w with ready := others, position := j, error := es.getLast? } :=
    hw.listed.of_eq rfl fun _ => rfl
  have hn : Numbered { w with ready := others, position := j, error := es.getLast? } [t] :=
    ⟨hhand.distinct, hhand.below, hhand.rigs⟩
  rw [heq, takeTurn_eq, hjob, hwaits]
  refine ⟨?_, holds_turn (p := .stop) hl hn hempty⟩
  rw [(position_place _ _ _).1]
  simp [Job.step, Wait.resume, arrive, bind_eq]

/-- Who opens the tour puts up the rules that hold throughout. -/
theorem Reachable.holds_of_opens (hw : Reachable s w) (hmover : w.mover? c = some t)
    (hjob : t.job = .ended o) (hwaits : t.waits = .opened :: ys) (hempty : w.rig .tour = {}) :
    Holds s (w.choose s c) .tour s.document.reactions
      ⟨-1, none, s.config.defaultErrorPolicy, .announce⟩ := by
  obtain ⟨others, hperm, heq⟩ := choose_of_mover (s := s) hmover
  have hl : Listed { w with ready := others } := hw.listed.of_eq rfl fun _ => rfl
  have hstep : (Job.step s { w with ready := others } t.id (.opened :: ys) (.ended o)).1 =
      World.bind s { w with ready := others } .tour s.document.reactions
        ⟨-1, none, s.config.defaultErrorPolicy, .announce⟩ := by
    simp only [Job.step, Wait.resume, opened]
    split <;> rfl
  rw [heq, takeTurn_eq, hjob, hwaits, hstep]
  exact holds_turn (p := .tour) hl (hw.way.take hperm).toNumbered hempty

/-- What a choice makes of what a part has put up. -/
inductive Turnover (s : Stage) (w : World) (c : Choice) : Part → Prop where
  | keeps {p : Part} : Keeps p w (w.choose s c) → (w.choose s c).destroyed = w.destroyed →
      Turnover s w c p
  /-- The player ends. -/
  | ends {p : Part} : w.destroyed = false → (w.choose s c).destroyed = true →
      (w.choose s c).rig p = {} → Turnover s w c p
  /-- A stop is left. -/
  | leaves {t : Task} {m : Move} {j : Nat} : w.mover? c = some t → t.job = .depart m →
      w.destroyed = false → w.target? s m = some j → Turnover s w c .stop
  /-- A stop is reached. -/
  | arrives {t : Task} {o : Outcome} {j : Nat} {es : List ActionError} {ys : List Wait} :
      w.mover? c = some t → t.job = .ended o → t.waits = .arrived j es :: ys → Turnover s w c .stop
  /-- The tour is opened. -/
  | opens {t : Task} {o : Outcome} {ys : List Wait} : w.mover? c = some t → t.job = .ended o →
      t.waits = .opened :: ys → Turnover s w c .tour

/-- A turn in which the player ends takes down all. -/
private theorem turnover_end (hlive : w.destroyed = false) (heq : w.choose s c = w'.place t.id turn)
    (hend : w' = ({ w with ready := others } : World).destroy) : Turnover s w c p := by
  obtain ⟨-, hdestroyed, -, -, hrig⟩ := host_place w' t.id turn
  refine .ends hlive ?_ ?_
  · rw [heq, hdestroyed, hend]
    exact destroyed_destroy _
  · rw [heq, hrig, hend, rig_destroy]
    simp [hlive]

/-- What a turn makes of a part. -/
private theorem turnover_turn (hw : Reachable s w) (hmover : w.mover? c = some t)
    (hperm : w.ready.Perm (t :: others)) (heq : w.choose s c = w.takeTurn s t others) (p : Part) :
    Turnover s w c p := by
  have hl : Listed { w with ready := others } := hw.listed.of_eq rfl fun _ => rfl
  have hplace := heq.trans (takeTurn_eq t others)
  rcases destroyed_effect (Job.step_effect s { w with ready := others } t.id t.waits t.job)
    with hkept | hend
  · cases (hw.way.take hperm).change (s := s) hl t.id t.job t.waits p with
    | none hsame =>
        refine .keeps (keeps_turn hw hmover hperm heq hsame) ?_
        rw [hplace, destroyed_place, hkept]
    | destroy hlive hend => exact turnover_end hlive hplace hend
    | leave hjob hlive hj _ => exact .leaves hmover hjob hlive hj
    | arrive hjob hwaits _ => exact .arrives hmover hjob hwaits
    | «open» hjob hwaits _ => exact .opens hmover hjob hwaits
  · cases hd : w.destroyed with
    | false => exact turnover_end hd hplace hend
    | true =>
        have hsame : (t.job.step s { w with ready := others } t.id t.waits).1 =
            { w with ready := others } :=
          hend.trans (destroy_eq_self (w := { w with ready := others }) hd)
        refine .keeps (keeps_turn hw hmover hperm heq ?_) (by rw [destroyed_choose hd, hd])
        rw [hsame]

/-- Whatever a choice makes of what a part has put up is one of the turnovers. -/
theorem Reachable.turnover (hw : Reachable s w) (c : Choice) (p : Part) : Turnover s w c p := by
  by_cases hask : ∃ d, c = .ask d
  · obtain ⟨d, rfl⟩ := hask
    rcases rigging_ask hw.way.toNumbered d p with ⟨hsame, hdestroyed⟩ | ⟨hlive, heq⟩
    · exact .keeps (keeps_ask hw hsame) hdestroyed
    · have hend : w.choose s (.ask d) = w.destroy := heq
      refine .ends hlive ?_ ?_
      · rw [hend]
        exact destroyed_destroy w
      · rw [hend, rig_destroy, hlive]
        rfl
  · obtain ⟨t, others, hmover, hperm, heq⟩ | ⟨hnone, hshuffle⟩ | ⟨d, hd, -⟩ := choose_cases s w c
    · exact turnover_turn hw hmover hperm heq p
    · refine .keeps (keeps_shuffle hw.way.toNumbered (fun d hd => hask ⟨d, hd⟩) hnone hshuffle) ?_
      obtain ⟨_, _, _, _, heq⟩ := hshuffle.eq
      rw [heq]
    · exact absurd ⟨d, hd⟩ hask

end World

end DiagramTour
