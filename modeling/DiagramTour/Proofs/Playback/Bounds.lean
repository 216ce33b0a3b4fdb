import DiagramTour.Proofs.Playback.Way

/-!
# Where a player may stand

A player stands at a stop of its document, or before the first.  A move that leads nowhere never
leaves, so that whatever a task is on the way to is a stop, and nothing else is ever reached.

## Architecture

- `Wait.stop?` and `Job.stop?` are the places of the stops that a task leads to.
- `World.InBounds` holds of the world when all these places are in the document; every choice keeps
  it.
-/

namespace DiagramTour

/-- The place of the stop that a wait leads to. -/
def Wait.stop? : Wait → Option Nat
  | .cleared j | .entered j | .arrived j _ => some j
  | _ => none

/-- The place of the stop that a job leads to. -/
def Job.stop? : Job → Option Nat
  | .settle j _ => some j
  | _ => none

/-- A task that leads to stops of the document, and to nothing else. -/
structure Task.LeadsWithin (t : Task) (s : Stage) : Prop where
  job : ∀ j, t.job.stop? = some j → j < s.document.stops.length
  waits : ∀ x ∈ t.waits, ∀ j, x.stop? = some j → j < s.document.stops.length

namespace World

variable {s : Stage} {w w' : World} {t : Task} {hand : List Task}

/-- A place that a move leads to is one of the document. -/
theorem target?_lt {m : Move} {j : Nat} (h : w.target? s m = some j) :
    j < s.document.stops.length := by
  have hplace : ∀ index, place? s index = some j → j < s.document.stops.length := by
    intro index hindex
    unfold place? at hindex
    split at hindex
    · rename_i hbounds
      simp only [Bool.and_eq_true, decide_eq_true_eq] at hbounds
      cases hindex
      omega
    · cases hindex
  cases m with
  | index index => exact hplace index h
  | id id => exact (List.findIdx?_eq_some_iff_findIdx_eq.mp h).1
  | offset stops => exact hplace _ h

end World

namespace Task

variable {s : Stage} {w : World} {t t' : Task}

private theorem LeadsWithin.of_waits {id i : Nat} {job job' : Job} {waits : List Wait}
    (h : LeadsWithin ⟨id, job, waits⟩ s) (hjob : job'.stop? = none) :
    LeadsWithin ⟨i, job', waits⟩ s :=
  ⟨fun j hj => by simp [hjob] at hj, h.waits⟩

private theorem LeadsWithin.pop {id i : Nat} {job job' : Job} {wait : Wait} {waits : List Wait}
    (h : LeadsWithin ⟨id, job, wait :: waits⟩ s) (hjob : job'.stop? = none) :
    LeadsWithin ⟨i, job', waits⟩ s :=
  ⟨fun j hj => by simp [hjob] at hj, fun x hx => h.waits x (List.mem_cons_of_mem _ hx)⟩

private theorem LeadsWithin.push {id i : Nat} {job job' : Job} {wait : Wait} {waits : List Wait}
    (h : LeadsWithin ⟨id, job, waits⟩ s) (hjob : job'.stop? = none)
    (hwait : ∀ j, wait.stop? = some j → j < s.document.stops.length) :
    LeadsWithin ⟨i, job', wait :: waits⟩ s := by
  refine ⟨fun j hj => by simp [hjob] at hj, ?_⟩
  rintro x (_ | ⟨_, hx⟩)
  · exact hwait
  · exact h.waits x hx

/-- Inner work leads to no stop. -/
theorem stop?_of_isInner {job : Job}
    (h : job.isInner = true ∨ job.isEnded = true ∨ ∃ m, job = .travel m) : job.stop? = none := by
  rcases h with h | h | ⟨m, rfl⟩
  · cases job <;> first | rfl | cases h
  · cases job <;> first | rfl | cases h
  · rfl

theorem stop?_of_isInner_wait {x : Wait} (h : x.isInner = true) : x.stop? = none := by
  cases x <;> simp_all [Wait.isInner, Wait.stop?]

/-- A step leads to no other stop than before, but for one that it leaves for. -/
theorem LeadsWithin.step (h : t.LeadsWithin s)
    (ht : (t.job.step s w t.id t.waits).2.task? t.id = some t') : t'.LeadsWithin s := by
  have hshift := Job.step_shift s w t.id t.waits t.job
  obtain ⟨id, job, waits⟩ := t
  simp only at hshift ht
  generalize (job.step s w id waits).2 = turn at hshift ht
  cases hshift with
  | inner top _ hleft hjob' htop =>
      cases (Turn.task?_of_left? hleft id).symm.trans ht
      refine ⟨fun j hj => by simp [stop?_of_isInner hjob'] at hj, fun x hx => ?_⟩
      rcases List.mem_append.mp hx with hx | hx
      · intro j hj
        simp [stop?_of_isInner_wait (htop x hx)] at hj
      · exact h.waits x hx
  | resume _ hjob' =>
      cases ht
      refine h.pop (stop?_of_isInner ?_)
      rcases hjob' with h' | h'
      · exact .inl h'
      · exact .inr (.inl h')
  | «begin» =>
      cases ht
      exact h.push rfl fun j hj => by cases hj
  | opened hjob' =>
      cases ht
      refine h.pop ?_
      rcases hjob' with rfl | rfl <;> rfl
  | travel =>
      cases ht
      exact h.push rfl fun j hj => by cases hj
  | leave _ hj =>
      -- Only here a stop comes in
      cases ht
      exact h.push rfl fun j' hj' => by
        cases hj'
        exact World.target?_lt hj
  | cleared hjob' =>
      cases ht
      have hj := h.waits _ List.mem_cons_self _ rfl
      rcases hjob' with h' | ⟨n, rfl⟩
      · exact h.pop (stop?_of_isInner (.inr (.inl h')))
      · refine ⟨fun j hj' => ?_, fun x hx => h.waits x (List.mem_cons_of_mem _ hx)⟩
        cases hj'
        exact hj
  | settle hleft =>
      cases (Turn.task?_of_left? hleft id).symm.trans ht
      exact ⟨fun j hj => h.job j hj, h.waits⟩
  | enter =>
      cases ht
      exact h.push rfl fun j hj => by
        cases hj
        exact h.job _ rfl
  | entered hwait =>
      cases ht
      have hj := h.waits _ List.mem_cons_self _ rfl
      have hpop : LeadsWithin ⟨id, .sleep 0, _⟩ s := h.pop rfl
      rcases hwait with ⟨es, -, rfl⟩ | ⟨e, -, rfl⟩
      · exact hpop.push rfl fun j hj' => by
          cases hj'
          exact hj
      · exact hpop.push rfl fun j hj' => by cases hj'
  | broken =>
      cases ht
      exact h.pop rfl
  | arrive =>
      cases ht
      have hpop : LeadsWithin ⟨id, .sleep 0, _⟩ s := h.pop rfl
      exact hpop.push rfl fun j hj => by cases hj
  | concluded =>
      cases ht
      exact h.pop rfl
  | handOver =>
      cases ht
      exact h.pop rfl
  | finish => cases ht
  | _ =>
      cases ht
      exact h.of_waits rfl

end Task

namespace World

variable {s : Stage} {w w' : World} {t : Task} {hand : List Task}

/-- A player stands at a stop or before the first, and its tasks lead to stops. -/
structure InBounds (s : Stage) (w : World) (hand : List Task) : Prop where
  low : -1 ≤ w.position
  high : w.position < s.document.stops.length
  tasks : ∀ t ∈ hand ++ w.tasks, t.LeadsWithin s

private theorem leadsWithin_of_isFresh {job : Job} (h : t.IsFresh job) : t.LeadsWithin s := by
  have hjourney : ∀ j, Wait.journey.stop? = some j → j < s.document.stops.length :=
    fun j hj => by cases hj
  cases h with
  | move => exact ⟨fun j hj => (by cases hj), by simpa using hjourney⟩
  | reaction => exact ⟨fun j hj => (by cases hj), by simp [Wait.stop?]⟩
  | timer => exact ⟨fun j hj => (by cases hj), fun x hx => by cases hx⟩

/-- Every step of a task keeps the player in bounds. -/
theorem InBounds.step (h : InBounds s w [t]) :
    InBounds s ((t.job.step s w t.id t.waits).1.place t.id (t.job.step s w t.id t.waits).2) [] := by
  have heffect := Job.step_effect s w t.id t.waits t.job
  have htasks : ∀ u ∈ ((t.job.step s w t.id t.waits).1.place t.id
      (t.job.step s w t.id t.waits).2).tasks, u.LeadsWithin s := by
    intro u hu
    rcases List.mem_append.mp ((tasks_place _ _ _).subset hu) with hhand | hu
    · exact (h.tasks t (by simp)).step (Option.mem_toList.mp hhand)
    · rcases heffect.mem_tasks u hu with hold | ⟨hfresh, -⟩
      · exact h.tasks u (List.mem_append_right _ hold)
      · exact leadsWithin_of_isFresh hfresh
  have hplace := (position_place (t.job.step s w t.id t.waits).1 t.id
    (t.job.step s w t.id t.waits).2).1
  obtain ⟨hsame, -⟩ | ⟨o, j, es, ys, -, hwaits, harrive⟩ | ⟨o, j, ys, -, -, hsame⟩ :=
    position_cases heffect
  · exact ⟨(hplace.trans hsame).symm ▸ h.low, (hplace.trans hsame).symm ▸ h.high, htasks⟩
  · have hj := (h.tasks t (by simp)).waits (.arrived j es) (by simp [hwaits]) j rfl
    have hposition := hplace.trans harrive
    exact ⟨by omega, by omega, htasks⟩
  · exact ⟨(hplace.trans hsame).symm ▸ h.low, (hplace.trans hsame).symm ▸ h.high, htasks⟩

private theorem InBounds.ask (h : InBounds s w []) (d : Demand) : InBounds s (w.ask d) [] := by
  have hstart : ∀ {job : Job}, job.stop? = none → InBounds s (w.start job []) [] := by
    intro job hjob
    refine ⟨h.low, h.high, fun t ht => ?_⟩
    rcases List.mem_cons.mp ((tasks_start w job []).subset ht) with rfl | hold
    · exact ⟨fun j hj => by simp [hjob] at hj, fun x hx => by cases hx⟩
    · exact h.tasks t hold
  cases d with
  | «begin» render => exact hstart rfl
  | move m => exact hstart rfl
  | dispatch event => exact hstart rfl
  | sleep ms => exact hstart rfl
  | subscribe label topic responses =>
      simp only [World.ask]
      split <;> exact ⟨h.low, h.high, h.tasks⟩
  | unsubscribe label => exact ⟨h.low, h.high, h.tasks⟩
  | destroy =>
      have hsame : w.destroy.position = w.position := by
        unfold World.destroy
        split
        · rfl
        · simp [release_eq]
      exact ⟨hsame.symm ▸ h.low, hsame.symm ▸ h.high,
        fun t ht => h.tasks t ((tasks_destroy w).subset ht)⟩

/-- Every choice keeps the player in bounds. -/
theorem InBounds.choose (h : InBounds s w []) (c : Choice) : InBounds s (w.choose s c) [] := by
  refine choose_induction (P := InBounds s) ?_ ?_ ?_ ?_ c h
  · exact fun h hperm => ⟨h.low, h.high, fun u hu => h.tasks u ((tasks_take hperm).symm.subset hu)⟩
  · exact fun h => h.step
  · intro w w' h hw
    have hsub : w'.tasks ⊆ w.tasks := hw.tasks.subset
    obtain ⟨_, _, _, _, rfl⟩ := hw.eq
    exact ⟨h.low, h.high, fun t ht => h.tasks t (hsub ht)⟩
  · exact fun d h => h.ask d

/-- In every world that can be reached the player stands at a stop or before the first. -/
theorem Reachable.inBounds (h : Reachable s w) : InBounds s w [] := by
  refine h.induction (P := fun w => InBounds s w []) ?_ fun _ c hw => hw.choose c
  exact ⟨by decide, by simp; omega, by simp [tasks, active]⟩

end World

end DiagramTour
