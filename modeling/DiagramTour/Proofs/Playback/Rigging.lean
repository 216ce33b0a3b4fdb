import DiagramTour.Proofs.Playback.Bounds
import DiagramTour.Proofs.Playback.Destruction

/-!
# What a part has put up

The listeners of the two parts stand in one list of the host, and their timers among all other tasks.
They are told apart by their numbers, which are never used twice; so what is done for one part leaves
alone what the other has put up.

## Architecture

- `World.rigging` is what a part has put up: its numbers, and the listeners and timers that have them.
- `World.Listed`: every number in use is below the next one, and the parts have none in common.
- `World.Change` lists what can become of the rigging of a part in a step, and `World.Way.change`
  says that this is all.
-/

namespace DiagramTour

/-- What is up of a part: its numbers, and the listeners and timers that have them. -/
structure Rigging where
  rig : Rig := {}
  listeners : List Listener := []
  /-- The timers that have not begun to wait or have elapsed. -/
  ready : List Task := []
  /-- The timers that wait, and when they elapse. -/
  asleep : List (Nat × Task) := []

/-- Two rigs without a number in common. -/
structure Rig.Apart (r r' : Rig) : Prop where
  listeners : r.listeners.Disjoint r'.listeners
  timers : r.timers.Disjoint r'.timers

theorem Rig.Apart.symm {r r' : Rig} (h : r.Apart r') : r'.Apart r :=
  ⟨List.disjoint_symm h.listeners, List.disjoint_symm h.timers⟩

theorem Rig.Apart.empty_left (r : Rig) : Rig.Apart {} r :=
  ⟨List.disjoint_nil_left _, List.disjoint_nil_left _⟩

namespace World

variable {s : Stage} {w w' : World} {t : Task} {hand : List Task} {p q : Part}

/-- What a part has put up. -/
def rigging (w : World) (p : Part) : Rigging where
  rig := w.rig p
  listeners := w.host.listeners.filter fun l => (w.rig p).listeners.contains l.id
  ready := w.ready.filter fun t => (w.rig p).timers.contains t.id
  asleep := w.asleep.filter fun t => (w.rig p).timers.contains t.2.id

theorem rigging_tidy (stop : Stop) (p : Part) : (w.tidy s stop).rigging p = w.rigging p := by
  obtain ⟨_, _, heq⟩ := w.tidy_eq (s := s) stop
  rw [heq]
  cases p <;> rfl

/-! ## Numbers of listeners -/

/-- Every number that is in use is below the next one, and the two parts have different ones. -/
structure Listed (w : World) : Prop where
  below : ∀ l ∈ w.host.listeners, l.id < w.host.next
  handles : ∀ p, ∀ i ∈ (w.rig p).listeners, i < w.host.next
  apart : ∀ p q, p ≠ q → (w.rig p).Apart (w.rig q)

namespace Listed

theorem of_eq (h : Listed w) (hhost : w'.host = w.host) (hrig : ∀ p, w'.rig p = w.rig p) :
    Listed w' where
  below := hhost ▸ h.below
  handles p := by
    rw [hhost, hrig]
    exact h.handles p
  apart p q hpq := by
    rw [hrig, hrig]
    exact h.apart p q hpq

theorem release (h : Listed w) (p : Part) : Listed (w.release p) where
  below l hl := by
    rw [release_eq] at hl ⊢
    exact h.below l (List.mem_filter.mp hl).1
  handles q i hi := by
    rw [rig_release] at hi
    rw [release_eq]
    split at hi
    · simp at hi
    · exact h.handles q i hi
  apart q r hqr := by
    rw [rig_release, rig_release]
    split
    · exact .empty_left _
    · split
      · exact (Rig.Apart.empty_left _).symm
      · exact h.apart q r hqr

theorem destroy (h : Listed w) : Listed w.destroy := by
  unfold World.destroy
  split
  · exact h
  · have h' : Listed { w with destroyed := true } := h.of_eq rfl fun _ => rfl
    exact ((h'.release .tour).release .stop).of_eq rfl fun _ => rfl

/-- What is put up has new numbers. -/
private theorem grownRig_apart (h : Listed w) (hn : Numbered w hand) (hpq : p ≠ q)
    (rs : List Reaction) (setting : Setting) : (w.grownRig s p rs setting).Apart (w.rig q) where
  listeners i hi hq := by
    rcases List.mem_append.mp hi with hi | hi
    · exact (h.apart p q hpq).listeners hi hq
    · exact absurd (List.mem_range'_1.mp hi).1 (Nat.not_le.mpr (h.handles q i hq))
  timers i hi hq := by
    rcases List.mem_append.mp hi with hi | hi
    · exact (h.apart p q hpq).timers hi hq
    · exact absurd (List.mem_range'_1.mp hi).1 (Nat.not_le.mpr (hn.rigs q i hq))

theorem bind (h : Listed w) (hn : Numbered w hand) (p : Part) (rs : List Reaction)
    (setting : Setting) : Listed (w.bind s p rs setting) where
  below l hl := by
    rw [bind_eq] at hl ⊢
    rcases List.mem_append.mp hl with hl | hl
    · exact Nat.lt_add_right _ (h.below l hl)
    · obtain ⟨⟨f, i⟩, hf, rfl⟩ := List.mem_map.mp hl
      rw [id_of_listenersOf (List.fst_mem_of_mem_zipIdx hf)]
      have hi := List.mem_zipIdx hf
      simp only
      omega
  handles q i hi := by
    rw [rig_bind] at hi
    rw [bind_eq]
    split at hi
    · rcases List.mem_append.mp hi with hi | hi
      · exact Nat.lt_add_right _ (h.handles p i hi)
      · exact (List.mem_range'_1.mp hi).2
    · exact Nat.lt_add_right _ (h.handles q i hi)
  apart q r hqr := by
    rw [rig_bind, rig_bind]
    split
    · rename_i hpq
      subst hpq
      rw [if_neg hqr]
      exact grownRig_apart h hn hqr rs setting
    · rename_i hpq
      split
      · exact (grownRig_apart h hn hpq rs setting).symm
      · exact h.apart q r hqr

theorem handOver (h : Listed w) : Listed w.handOver := by
  unfold World.handOver
  split <;> exact h.of_eq rfl fun _ => rfl

/-- Every effect of a step keeps the numbers of listeners apart. -/
theorem effect {id : Nat} {job : Job} {waits : List Wait} (h : Listed w) (hn : Numbered w hand)
    (he : Job.Effect s w id job waits w') : Listed w' := by
  cases he with
  | calm hcalm =>
      obtain ⟨_, _, _, _, _, rfl⟩ := hcalm.eq
      exact h.of_eq rfl fun _ => rfl
  | destroy => exact h.destroy
  | leave =>
      obtain ⟨_, _, heq⟩ := (w.release .stop).tidy_eq (s := s) (stopAt s _)
      rw [heq]
      exact (h.release .stop).of_eq rfl fun _ => rfl
  | @arrive o j es =>
      have h' : Listed { w with position := j, error := es.getLast? } := h.of_eq rfl fun _ => rfl
      have hn' : Numbered { w with position := j, error := es.getLast? } hand :=
        ⟨hn.distinct, hn.below, hn.rigs⟩
      exact h'.bind hn' _ _ _
  | «open» => exact h.bind hn _ _ _
  | handOver => exact h.handOver
  | _ => exact h.of_eq rfl fun _ => rfl

theorem ask (h : Listed w) (d : Demand) : Listed (w.ask d) := by
  cases d with
  | subscribe label topic responses =>
      simp only [World.ask]
      split
      · exact h.of_eq rfl fun _ => rfl
      · exact h
  | destroy => exact h.destroy
  | _ => exact h.of_eq rfl fun _ => rfl

/-- Every choice keeps the numbers of listeners apart. -/
theorem choose (h : Listed w) (hn : Numbered w []) (c : Choice) : Listed (w.choose s c) := by
  refine (choose_induction (s := s) (P := fun w hand => Listed w ∧ Numbered w hand) ?_ ?_ ?_ ?_ c
    ⟨h, hn⟩).1
  · rintro w t others ⟨h, hn⟩ hperm
    exact ⟨h.of_eq rfl fun _ => rfl, hn.take hperm⟩
  · rintro w t ⟨h, hn⟩
    have he := Job.step_effect s w t.id t.waits t.job
    obtain ⟨hhost, -, -, -, hrig⟩ :=
      host_place (t.job.step s w t.id t.waits).1 t.id (t.job.step s w t.id t.waits).2
    exact ⟨(h.effect hn he).of_eq hhost hrig, (hn.effect he).change.place⟩
  · rintro w w' ⟨h, hn⟩ hw
    refine ⟨?_, hn.shuffle hw⟩
    obtain ⟨_, _, _, _, rfl⟩ := hw.eq
    exact h.of_eq rfl fun _ => rfl
  · rintro w d ⟨h, hn⟩
    exact ⟨h.ask d, hn.ask d⟩

end Listed

/-- In every world that can be reached the numbers of listeners are told apart. -/
theorem Reachable.listed (h : Reachable s w) : Listed w := by
  refine (h.induction (P := fun w => Listed w ∧ Timed w [])
    ⟨⟨?_, ?_, ?_⟩, Reachable.initial.timed (s := s)⟩
    fun _ c hw => ⟨hw.1.choose hw.2.toNumbered c, hw.2.choose c⟩).1
  · simp
  · rintro (_ | _) <;> simp [rig]
  · rintro (_ | _) (_ | _) <;> simp [rig, Rig.Apart.empty_left]

/-! ## What can become of a part -/

/-- What a step of a task can make of what a part has put up. -/
inductive Change (s : Stage) (w : World) (job : Job) (waits : List Wait) (w' : World) : Part → Prop where
  /-- It is left alone. -/
  | none {p : Part} : w'.rigging p = w.rigging p → Change s w job waits w' p
  /-- It is taken down, as the player ends. -/
  | destroy {p : Part} : w.destroyed = false → w' = w.destroy → Change s w job waits w' p
  /-- It is taken down, as a stop is left. -/
  | leave {m : Move} {j : Nat} : job = .depart m → w.destroyed = false → w.target? s m = some j →
      w'.rig .stop = {} → Change s w job waits w' .stop
  /-- The reactions of a stop that is reached are put up. -/
  | arrive {o : Outcome} {j : Nat} {es : List ActionError} {ys : List Wait} :
      job = .ended o → waits = .arrived j es :: ys →
      w' = bind s { w with position := j, error := es.getLast? } .stop (stopAt s j).reactions
        (settingOf s j (stopAt s j)) → Change s w job waits w' .stop
  /-- The reactions that hold throughout are put up. -/
  | open {o : Outcome} {ys : List Wait} : job = .ended o → waits = .opened :: ys →
      w' = w.bind s .tour s.document.reactions
        ⟨-1, .none, s.config.defaultErrorPolicy, .announce⟩ → Change s w job waits w' .tour

/-- A rigging is known by its numbers, and by who has them. -/
private theorem rigging_congr (hrig : w'.rig p = w.rig p)
    (hlisteners : w'.host.listeners.filter (fun l => (w.rig p).listeners.contains l.id) =
      w.host.listeners.filter fun l => (w.rig p).listeners.contains l.id)
    (hready : w'.ready.filter (fun t => (w.rig p).timers.contains t.id) =
      w.ready.filter fun t => (w.rig p).timers.contains t.id)
    (hasleep : w'.asleep.filter (fun t => (w.rig p).timers.contains t.2.id) =
      w.asleep.filter fun t => (w.rig p).timers.contains t.2.id) : w'.rigging p = w.rigging p := by
  simp only [rigging, hrig, hlisteners, hready, hasleep]

/-- Of those with some numbers none goes with those that have others. -/
private theorem filter_filter_disjoint {α : Type} {is js : List Nat} (f : α → Nat)
    (h : is.Disjoint js) (as : List α) :
    (as.filter fun a => !is.contains (f a)).filter (fun a => js.contains (f a)) =
      as.filter fun a => js.contains (f a) := by
  rw [List.filter_filter]
  refine List.filter_congr fun a _ => ?_
  have hno : f a ∈ js → f a ∉ is := fun hj hi => h hi hj
  by_cases hj : f a ∈ js <;> simp_all

/-- What one part has put up stays when the other is taken down. -/
theorem rigging_release (h : Listed w) (hpq : p ≠ q) : (w.release p).rigging q = w.rigging q := by
  have hapart := h.apart p q hpq
  refine rigging_congr ?_ ?_ ?_ ?_
  · rw [rig_release, if_neg hpq]
  · rw [release_eq]
    exact filter_filter_disjoint Listener.id hapart.listeners _
  · rw [release_eq]
    exact filter_filter_disjoint Task.id hapart.timers _
  · rw [release_eq]
    exact filter_filter_disjoint (fun t : Nat × Task => t.2.id) hapart.timers _

/-- What one part has put up stays when the other puts up more. -/
theorem rigging_bind (h : Listed w) (hn : Numbered w hand) (hpq : p ≠ q) (rs : List Reaction)
    (setting : Setting) : (w.bind s p rs setting).rigging q = w.rigging q := by
  refine rigging_congr ?_ ?_ ?_ ?_
  · rw [rig_bind, if_neg hpq]
  · rw [bind_eq, List.filter_append, List.append_right_eq_self, List.filter_eq_nil_iff]
    intro l hl hmem
    obtain ⟨⟨f, i⟩, hf, rfl⟩ := List.mem_map.mp hl
    rw [id_of_listenersOf (List.fst_mem_of_mem_zipIdx hf)] at hmem
    -- The numbers of the new listeners are not below the next one
    have hi := List.mem_zipIdx hf
    have hlt := h.handles q i (by simpa using hmem)
    omega
  · rw [bind_eq, List.filter_append, List.append_right_eq_self, List.filter_eq_nil_iff]
    intro t ht hmem
    have hid := List.mem_map_of_mem (f := Task.id) ht
    rw [timerTasks_ids] at hid
    have hlt := hn.rigs q t.id (by simpa using hmem)
    exact absurd (List.mem_range'_1.mp hid).1 (Nat.not_le.mpr hlt)
  · rw [bind_eq]

/-- A task that is started is no timer that is known. -/
theorem rigging_start (hn : Numbered w hand) (job : Job) (waits : List Wait) (p : Part) :
    (w.start job waits).rigging p = w.rigging p := by
  have hnew : w.nextTask ∉ (w.rig p).timers := fun hi => Nat.lt_irrefl _ (hn.rigs p _ hi)
  refine rigging_congr ?_ rfl ?_ rfl
  · cases p <;> rfl
  · simp [World.start, hnew]

/-- Who is given the way is no timer. -/
theorem rigging_handOver (h : Way w hand) (p : Part) : w.handOver.rigging p = w.rigging p := by
  unfold World.handOver
  split
  · cases p <;> rfl
  · rename_i t ts hqueue
    have hno : t.id ∉ (w.rig p).timers := by
      intro hi
      have htimer := (h.timers t (by simp [tasks, hqueue]) p hi).job
      obtain ⟨m, ys, hjob, -⟩ := h.queued t (hqueue ▸ List.mem_cons_self)
      rw [hjob] at htimer
      cases htimer
    refine rigging_congr ?_ rfl ?_ rfl
    · cases p <;> rfl
    · simp [hno]

/-- Whatever a step makes of what a part has put up is one of the changes. -/
theorem Way.change (h : Way w hand) (hl : Listed w) (id : Nat) (job : Job) (waits : List Wait)
    (p : Part) : Change s w job waits (job.step s w id waits).1 p := by
  have he := Job.step_effect s w id waits job
  generalize (job.step s w id waits).1 = w' at he ⊢
  cases he with
  | calm hcalm =>
      obtain ⟨_, _, _, _, _, rfl⟩ := hcalm.eq
      refine .none ?_
      cases p <;> rfl
  | destroy =>
      cases hd : w.destroyed with
      | true =>
          rw [destroy_eq_self hd]
          exact .none rfl
      | false => exact .destroy hd rfl
  | spawn => exact .none (rigging_start h.toNumbered _ _ p)
  | ring => exact .none (rigging_start h.toNumbered _ _ p)
  | take =>
      refine .none ?_
      cases p <;> rfl
  | leave hlive hj =>
      cases p with
      | tour =>
          refine .none ?_
          rw [rigging_tidy, rigging_release hl (by decide)]
      | stop => exact .leave rfl hlive hj (by rw [rig_tidy, rig_release, if_pos rfl])
  | @arrive o j es ys =>
      cases p with
      | tour =>
          have hl' : Listed { w with position := j, error := es.getLast? } := hl.of_eq rfl fun _ => rfl
          have hn : Numbered { w with position := j, error := es.getLast? } hand :=
            ⟨h.distinct, h.below, h.rigs⟩
          exact .none (rigging_bind hl' hn (by decide) _ _)
      | stop => exact .arrive rfl rfl rfl
  | «open» =>
      cases p with
      | tour => exact .open rfl rfl rfl
      | stop => exact .none (rigging_bind hl h.toNumbered (by decide) _ _)
  | abort =>
      refine .none ?_
      cases p <;> rfl
  | handOver => exact .none (rigging_handOver h p)

/-- What is asked for from outside takes down all or nothing. -/
theorem rigging_ask (hn : Numbered w hand) (d : Demand) (p : Part) :
    ((w.ask d).rigging p = w.rigging p ∧ (w.ask d).destroyed = w.destroyed) ∨
      w.destroyed = false ∧ w.ask d = w.destroy := by
  have hstart : ∀ (job : Job) (waits : List Wait), (w.start job waits).rigging p = w.rigging p ∧
      (w.start job waits).destroyed = w.destroyed :=
    fun job waits => ⟨rigging_start hn job waits p, rfl⟩
  cases d with
  | «begin» render => exact .inl (hstart _ _)
  | move m => exact .inl (hstart _ _)
  | dispatch event => exact .inl (hstart _ _)
  | sleep ms => exact .inl (hstart _ _)
  | subscribe label topic responses =>
      left
      simp only [World.ask]
      split <;> cases p <;> exact ⟨rfl, rfl⟩
  | unsubscribe label =>
      left
      cases p <;> exact ⟨rfl, rfl⟩
  | destroy =>
      cases hd : w.destroyed with
      | true =>
          left
          rw [World.ask, destroy_eq_self hd]
          exact ⟨rfl, hd⟩
      | false => exact .inr ⟨rfl, rfl⟩

/-- What a step puts up has new numbers. -/
theorem Way.rig_step (h : Way w hand) (hl : Listed w) (id : Nat) (job : Job) (waits : List Wait)
    (p : Part) : (∀ i ∈ ((job.step s w id waits).1.rig p).listeners,
        i ∈ (w.rig p).listeners ∨ w.host.next ≤ i) ∧
      ∀ i ∈ ((job.step s w id waits).1.rig p).timers, i ∈ (w.rig p).timers ∨ w.nextTask ≤ i := by
  have hchange := h.change (s := s) hl id job waits p
  generalize (job.step s w id waits).1 = w' at hchange ⊢
  -- Whatever is bound to a part is bound behind what it has, with the next numbers
  have hbind : ∀ (v : World) (rs : List Reaction) (setting : Setting), v.rig p = w.rig p →
      v.host.next = w.host.next → v.nextTask = w.nextTask →
      (∀ i ∈ ((v.bind s p rs setting).rig p).listeners, i ∈ (w.rig p).listeners ∨ w.host.next ≤ i) ∧
        ∀ i ∈ ((v.bind s p rs setting).rig p).timers, i ∈ (w.rig p).timers ∨ w.nextTask ≤ i := by
    intro v rs setting hrig hnext htask
    rw [rig_bind, if_pos rfl, grownRig, hrig, hnext, htask]
    constructor
    · intro i hi
      exact (List.mem_append.mp hi).imp_right fun hi => (List.mem_range'_1.mp hi).1
    · intro i hi
      exact (List.mem_append.mp hi).imp_right fun hi => (List.mem_range'_1.mp hi).1
  cases hchange with
  | none heq =>
      have hrig : w'.rig p = w.rig p := congrArg Rigging.rig heq
      rw [hrig]
      exact ⟨fun _ hi => .inl hi, fun _ hi => .inl hi⟩
  | destroy hlive heq =>
      rw [heq, rig_destroy]
      simp [hlive]
  | leave _ _ _ hrig =>
      rw [hrig]
      simp
  | @arrive o j es ys _ _ heq =>
      rw [heq]
      exact hbind _ _ _ rfl rfl rfl
  | «open» _ _ heq =>
      rw [heq]
      exact hbind w _ _ rfl rfl rfl

/-! ## Timers never pause -/

/-- What an effect does not change. -/
theorem rest_effect {id : Nat} {job : Job} {waits : List Wait}
    (he : Job.Effect s w id job waits w') : w'.outcomes = w.outcomes ∧ w'.now = w.now ∧
      w'.paused = w.paused ∧ ∀ t ∈ w'.queue, t ∈ w.queue := by
  cases he with
  | calm hcalm =>
      obtain ⟨_, _, _, _, _, rfl⟩ := hcalm.eq
      exact ⟨rfl, rfl, rfl, fun _ ht => ht⟩
  | destroy =>
      unfold World.destroy
      split
      · exact ⟨rfl, rfl, rfl, fun _ ht => ht⟩
      · simp [release_eq]
  | leave =>
      obtain ⟨_, _, heq⟩ := (w.release .stop).tidy_eq (s := s) (stopAt s _)
      rw [heq, release_eq]
      exact ⟨rfl, rfl, rfl, fun _ ht => ht⟩
  | arrive =>
      rw [bind_eq]
      exact ⟨rfl, rfl, rfl, fun _ ht => ht⟩
  | «open» =>
      rw [bind_eq]
      exact ⟨rfl, rfl, rfl, fun _ ht => ht⟩
  | handOver =>
      unfold World.handOver
      split
      · exact ⟨rfl, rfl, rfl, fun _ ht => ht⟩
      · rename_i hqueue
        exact ⟨rfl, rfl, rfl, fun t ht => hqueue ▸ List.mem_cons_of_mem _ ht⟩
  | _ => exact ⟨rfl, rfl, rfl, fun _ ht => ht⟩

/-- Nobody who pauses or queues has the number of a timer. -/
def Restless (w : World) : Prop :=
  ∀ t ∈ w.paused ++ w.queue, ∀ p, t.id ∉ (w.rig p).timers

/-- Who pauses or queues after a turn did so before, or took the turn. -/
private theorem id_of_mem_place {id : Nat} {turn : Turn} {u : Task}
    (hu : u ∈ (w.place id turn).paused ++ (w.place id turn).queue) :
    u ∈ w.paused ++ w.queue ∨ u.id = id := by
  cases turn with
  | sleep ms job waits => cases ms <;> exact .inl hu
  | pause job waits =>
      simp only [place, List.append_assoc, List.mem_append, List.mem_singleton] at hu ⊢
      rcases hu with hu | rfl | hu
      · exact .inl (.inl hu)
      · exact .inr rfl
      · exact .inl (.inr hu)
  | queue job waits =>
      simp only [place, List.mem_append, List.mem_singleton] at hu ⊢
      rcases hu with hu | hu | rfl
      · exact .inl (.inl hu)
      · exact .inl (.inr hu)
      · exact .inr rfl
  | _ => exact .inl hu

/-- A timer that takes its turn neither pauses nor queues. -/
private theorem place_of_isTimer (h : t.IsTimer) (v : World) :
    (v.place t.id (t.job.step s w t.id t.waits).2).paused = v.paused ∧
      (v.place t.id (t.job.step s w t.id t.waits).2).queue = v.queue := by
  obtain ⟨id, job, waits⟩ := t
  obtain ⟨hjob, rfl⟩ := h
  cases job with
  | await setting delay actions => cases delay <;> exact ⟨rfl, rfl⟩
  | ring setting delay actions => exact ⟨rfl, rfl⟩
  | ended o => exact ⟨rfl, rfl⟩
  | _ => cases hjob

/-- Every step of a task in hand keeps timers from pausing. -/
private theorem Restless.step (h : Restless w) (hway : Way w [t]) (hl : Listed w) :
    Restless ((t.job.step s w t.id t.waits).1.place t.id (t.job.step s w t.id t.waits).2) := by
  have he := Job.step_effect s w t.id t.waits t.job
  have htimed := hway.toTimed.effect he
  obtain ⟨-, -, hpaused, hqueue⟩ := rest_effect he
  obtain ⟨-, -, -, -, hrig⟩ :=
    host_place (t.job.step s w t.id t.waits).1 t.id (t.job.step s w t.id t.waits).2
  have hold : ∀ u ∈ (t.job.step s w t.id t.waits).1.paused ++ (t.job.step s w t.id t.waits).1.queue,
      ∀ p, u.id ∉ ((t.job.step s w t.id t.waits).1.rig p).timers := by
    intro u hu p hi
    have hu' : u ∈ w.paused ++ w.queue := by
      rcases List.mem_append.mp hu with hu | hu
      · exact List.mem_append_left _ (hpaused ▸ hu)
      · exact List.mem_append_right _ (hqueue u hu)
    rcases (hway.rig_step hl t.id t.job t.waits p).2 u.id hi with hi | hi
    · exact h u hu' p hi
    · refine absurd (hway.below u ?_) (Nat.not_lt.mpr hi)
      simp only [tasks, active, List.mem_append] at hu' ⊢
      tauto
  intro u hu p hi
  rw [hrig] at hi
  by_cases hid : u.id = t.id
  · rw [hid] at hi
    obtain ⟨hpaused', hqueue'⟩ :=
      place_of_isTimer (s := s) (w := w) (htimed.timers t (by simp) p hi)
        (t.job.step s w t.id t.waits).1
    rw [hpaused', hqueue'] at hu
    exact hold u hu p (hid ▸ hi)
  · exact hold u ((id_of_mem_place hu).resolve_right hid) p hi

private theorem Restless.ask (h : Restless w) (hn : Numbered w []) (d : Demand) :
    Restless (w.ask d) := by
  have hrig : ∀ p, (w.ask d).rig p = w.rig p ∨ (w.ask d).rig p = {} := by
    intro p
    rcases rigging_ask hn d p with ⟨heq, -⟩ | ⟨hlive, heq⟩
    · exact .inl (congrArg Rigging.rig heq)
    · exact .inr (by simp [heq, rig_destroy, hlive])
  have hsame : (w.ask d).paused = w.paused ∧ (w.ask d).queue = w.queue := by
    cases d with
    | subscribe label topic responses =>
        simp only [World.ask]
        split <;> exact ⟨rfl, rfl⟩
    | destroy =>
        simp only [World.ask, World.destroy]
        split
        · exact ⟨rfl, rfl⟩
        · simp [release_eq]
    | _ => exact ⟨rfl, rfl⟩
  intro t ht p hi
  rw [hsame.1, hsame.2] at ht
  rcases hrig p with heq | heq
  · exact h t ht p (heq ▸ hi)
  · simp [heq] at hi

/-- In every world that can be reached timers neither pause nor queue. -/
theorem Reachable.restless (h : Reachable s w) : Restless w := by
  suffices Way w [] ∧ Listed w ∧ Restless w from this.2.2
  refine h.induction (P := fun w => Way w [] ∧ Listed w ∧ Restless w)
    ⟨Reachable.initial.way (s := s), Reachable.initial.listed (s := s), ?_⟩ ?_
  · intro t ht
    simp at ht
  · rintro w c ⟨hway, hl, hrest⟩
    refine ⟨hway.choose c, hl.choose hway.toNumbered c, ?_⟩
    obtain ⟨t, others, -, hperm, heq⟩ | ⟨-, hw⟩ | ⟨d, -, heq⟩ := choose_cases s w c
    · rw [heq, takeTurn_eq]
      have hl' : Listed { w with ready := others } := hl.of_eq rfl fun _ => rfl
      exact Restless.step (w := { w with ready := others }) hrest (hway.take hperm) hl'
    · have hpaused := hw.paused
      have hqueue := hw.queue
      obtain ⟨_, _, _, _, heq⟩ := hw.eq
      intro t ht p
      have ht' : t ∈ w.paused ++ w.queue := by
        rcases List.mem_append.mp ht with ht | ht
        · exact List.mem_append_left _ (hpaused t ht)
        · exact List.mem_append_right _ (hqueue ▸ ht)
      have hrig : (w.choose s c).rig p = w.rig p := by
        rw [heq]
        cases p <;> rfl
      rw [hrig]
      exact hrest t ht' p
    · rw [heq]
      exact hrest.ask hway.toNumbered d

end World

end DiagramTour
