import DiagramTour.Proofs.Playback.Parts

/-!
# The opening of the tour

The rules that hold throughout are put up once the announcement is over that begins the tour, and they
are taken down when the player ends; no move does either.

## Architecture

- `Task.openings` counts how often a task is to open the tour.  All tasks together open it as often as
  it was asked for.
- `World.Opens`: if it was asked for once, the tour is to be opened or the rules hold throughout.
- `World.parts_never_mix` says whose rules hold at any point of a schedule.
-/

namespace DiagramTour

/-- Whether a wait opens the tour. -/
def Wait.isOpening : Wait → Bool
  | .opened => true
  | _ => false

/-- Whether a job begins the tour. -/
def Job.isOpening : Job → Bool
  | .begin _ => true
  | _ => false

/-- How often a task is to open the tour. -/
def Task.openings (t : Task) : Nat :=
  (if t.job.isOpening then 1 else 0) + t.waits.countP Wait.isOpening

/-- How often some tasks are to open the tour. -/
def Task.allOpenings : List Task → Nat
  | [] => 0
  | t :: ts => t.openings + allOpenings ts

namespace Task

variable {s : Stage} {w : World} {t t' : Task}

@[simp] theorem allOpenings_nil : allOpenings [] = 0 := rfl

@[simp] theorem allOpenings_cons (t : Task) (ts : List Task) :
    allOpenings (t :: ts) = t.openings + allOpenings ts := rfl

@[simp] theorem allOpenings_append (ts us : List Task) :
    allOpenings (ts ++ us) = allOpenings ts + allOpenings us := by
  induction ts with
  | nil => simp
  | cons t ts ih => simp [ih, Nat.add_assoc]

theorem allOpenings_perm {ts us : List Task} (h : ts.Perm us) : allOpenings ts = allOpenings us := by
  induction h with
  | nil => rfl
  | cons t _ ih => simp [ih]
  | swap t u ts =>
      simp only [allOpenings_cons]
      omega
  | trans _ _ ih ih' => exact ih.trans ih'

theorem allOpenings_eq_zero {ts : List Task} (h : ∀ t ∈ ts, t.openings = 0) : allOpenings ts = 0 := by
  induction ts with
  | nil => rfl
  | cons t ts ih => simp [h t List.mem_cons_self, ih fun u hu => h u (List.mem_cons_of_mem _ hu)]

/-- Who goes does not count, unless it is to open the tour. -/
private theorem allOpenings_filter {ts : List Task} {q : Task → Bool}
    (h : ∀ t ∈ ts, q t = false → t.openings = 0) : allOpenings (ts.filter q) = allOpenings ts := by
  induction ts with
  | nil => rfl
  | cons t ts ih =>
      have ih' := ih fun u hu => h u (List.mem_cons_of_mem _ hu)
      cases hq : q t with
      | true => simp [hq, ih']
      | false => simp [hq, ih', h t List.mem_cons_self hq]

theorem openings_of_isTimer (h : t.IsTimer) : t.openings = 0 := by
  obtain ⟨id, job, waits⟩ := t
  obtain ⟨hjob, rfl⟩ := h
  cases job <;> first | rfl | cases hjob

theorem countP_isOpening {top waits : List Wait} (htop : ∀ x ∈ top, x.isInner = true) :
    (top ++ waits).countP Wait.isOpening = waits.countP Wait.isOpening := by
  rw [List.countP_append, List.countP_eq_zero.mpr, Nat.zero_add]
  intro x hx
  have hinner := htop x hx
  cases x <;> simp_all [Wait.isInner, Wait.isOpening]

theorem isOpening_of_isInner {job : Job}
    (h : job.isInner = true ∨ job.isEnded = true ∨ ∃ m, job = .travel m) : job.isOpening = false := by
  rcases h with h | h | ⟨m, rfl⟩
  · cases job <;> first | rfl | cases h
  · cases job <;> first | rfl | cases h
  · rfl

/-- Whether the next step of a task opens the tour. -/
def isOpener (t : Task) : Bool :=
  match t.job, t.waits with
  | .ended _, .opened :: _ => true
  | _, _ => false

/-- A step opens the tour once if the task is about to, and else leaves it to later steps. -/
theorem openings_step (s : Stage) (w : World) (t : Task) :
    allOpenings ((t.job.step s w t.id t.waits).2.task? t.id).toList + (if t.isOpener then 1 else 0) =
      t.openings := by
  have hshift := Job.step_shift s w t.id t.waits t.job
  obtain ⟨id, job, waits⟩ := t
  simp only at hshift ⊢
  generalize (job.step s w id waits).2 = turn at hshift ⊢
  cases hshift with
  | inner top hinner hleft hjob' htop =>
      rw [Turn.task?_of_left? hleft id]
      have hno : isOpener ⟨id, job, waits⟩ = false := by
        cases job <;> first | rfl | cases hinner
      simp [hno, openings, isOpening_of_isInner hjob', isOpening_of_isInner (.inl hinner),
        countP_isOpening htop]
  | @resume o wait rest job' hwait hjob' =>
      have hjob : job'.isOpening = false := isOpening_of_isInner (hjob'.imp_right .inl)
      have hno : isOpener ⟨id, .ended o, wait :: rest⟩ = false := by
        cases wait <;> first | rfl | cases hwait
      have hpop := @countP_isOpening [wait] rest (by simpa using hwait)
      rw [List.singleton_append] at hpop
      simp [Turn.task?, hno, openings, hjob, hpop, show (Job.ended o).isOpening = false from rfl]
  | opened hjob' =>
      rcases hjob' with rfl | rfl <;>
        simp [Turn.task?, isOpener, openings, Job.isOpening, List.countP_cons, Wait.isOpening]
  | @cleared o j rest job' hjob' =>
      have hjob : job'.isOpening = false := by
        rcases hjob' with h | ⟨n, rfl⟩
        · exact isOpening_of_isInner (.inr (.inl h))
        · rfl
      simp [Turn.task?, isOpener, openings, hjob, Wait.isOpening, show (Job.ended o).isOpening = false from rfl]
  | settle hleft =>
      rw [Turn.task?_of_left? hleft id]
      simp [isOpener, openings, Job.isOpening]
  | entered hwait =>
      rcases hwait with ⟨es, rfl, rfl⟩ | ⟨e, rfl, rfl⟩ <;>
        simp [Turn.task?, isOpener, openings, Job.isOpening, Wait.isOpening]
  | _ =>
      simp [Turn.ended, Turn.task?, isOpener, openings, Job.isOpening, List.countP_cons,
        Wait.isOpening, Nat.add_comm]

end Task

/-- Whether the tour is asked for. -/
def Choice.isBegin : Choice → Bool
  | .ask (.begin _) => true
  | _ => false

namespace World

variable {s : Stage} {w w' : World} {t : Task} {c : Choice} {hand : List Task}

/-! ## How often the tour is to be opened -/

/-- Timers are taken down, and they open nothing. -/
private theorem openings_release (h : Timed w hand) (p : Part) :
    Task.allOpenings (w.release p).tasks = Task.allOpenings w.tasks := by
  have hgone : ∀ t ∈ w.tasks, (!(w.rig p).timers.contains t.id) = false → t.openings = 0 := by
    intro t ht hi
    exact Task.openings_of_isTimer (h.timers t (List.mem_append_right _ ht) p (by simpa using hi))
  have hready : Task.allOpenings (w.ready.filter fun t => !(w.rig p).timers.contains t.id) =
      Task.allOpenings w.ready :=
    Task.allOpenings_filter fun t ht => hgone t (mem_tasks.mpr (.inl ht))
  have hasleep : Task.allOpenings
        ((w.asleep.filter fun t => !(w.rig p).timers.contains t.2.id).map Prod.snd) =
      Task.allOpenings (w.asleep.map Prod.snd) := by
    rw [← Task.allOpenings_filter fun t ht => hgone t (mem_tasks.mpr (.inr (.inl ht))), List.filter_map]
    rfl
  rw [release_eq]
  simp only [tasks, active, Task.allOpenings_append, hready, hasleep]

private theorem openings_destroy (h : Timed w hand) :
    Task.allOpenings w.destroy.tasks = Task.allOpenings w.tasks := by
  unfold World.destroy
  split
  · rfl
  · have h' : Timed { w with destroyed := true } hand := ⟨⟨h.distinct, h.below, h.rigs⟩, h.timers⟩
    exact (openings_release (h'.release .tour) .stop).trans (openings_release h' .tour)

private theorem openings_bind (p : Part) (rs : List Reaction) (setting : Setting) :
    Task.allOpenings (w.bind s p rs setting).tasks = Task.allOpenings w.tasks := by
  rw [Task.allOpenings_perm (tasks_bind s w p rs setting), Task.allOpenings_append]
  have hnew : Task.allOpenings (timerTasks setting w.nextTask (timersOf s rs)) = 0 := by
    refine Task.allOpenings_eq_zero fun t ht => ?_
    obtain ⟨r, -, rfl⟩ := List.mem_map.mp ht
    rfl
  omega

/-- What an effect does to other tasks opens nothing, and nobody who is to open the tour goes. -/
private theorem openings_effect {id : Nat} {job : Job} {waits : List Wait} (h : Timed w hand)
    (he : Job.Effect s w id job waits w') : Task.allOpenings w'.tasks = Task.allOpenings w.tasks := by
  have hstart : ∀ {job : Job} {waits : List Wait}, Task.openings ⟨w.nextTask, job, waits⟩ = 0 →
      Task.allOpenings (w.start job waits).tasks = Task.allOpenings w.tasks := by
    intro job waits hnew
    rw [Task.allOpenings_perm (tasks_start w job waits), Task.allOpenings_cons, hnew, Nat.zero_add]
  cases he with
  | calm hcalm =>
      obtain ⟨_, _, _, _, _, rfl⟩ := hcalm.eq
      rfl
  | destroy => exact openings_destroy h
  | spawn => exact hstart rfl
  | ring => exact hstart rfl
  | leave =>
      rw [tasks_tidy]
      exact openings_release h .stop
  | @arrive o j es =>
      exact openings_bind (w := { w with position := j, error := es.getLast? }) _ _ _
  | «open» => exact openings_bind _ _ _
  | handOver => exact Task.allOpenings_perm (tasks_handOver w)
  | _ => rfl

private theorem openings_ask (h : Timed w []) (d : Demand) :
    Task.allOpenings (w.ask d).tasks =
      Task.allOpenings w.tasks + if (Choice.ask d).isBegin then 1 else 0 := by
  have hstart : ∀ {job : Job}, Task.allOpenings (w.start job []).tasks =
      Task.allOpenings w.tasks + Task.openings ⟨w.nextTask, job, []⟩ := by
    intro job
    rw [Task.allOpenings_perm (tasks_start w job []), Task.allOpenings_cons, Nat.add_comm]
  cases d with
  | subscribe label topic responses =>
      simp only [ask]
      split <;> rfl
  | unsubscribe label => rfl
  | destroy => exact openings_destroy h
  | _ => exact hstart

/-- The tour is opened by steps of those who are to open it, and is to be opened once more when it is
asked for. -/
theorem Timed.openings_choose (h : Timed w []) (c : Choice) :
    Task.allOpenings (w.choose s c).tasks + (if (w.mover? c).any Task.isOpener then 1 else 0) =
      Task.allOpenings w.tasks + if c.isBegin then 1 else 0 := by
  by_cases hask : ∃ d, c = .ask d
  · obtain ⟨d, rfl⟩ := hask
    exact openings_ask h d
  · have hbegin : c.isBegin = false := by
      cases c <;> first | rfl | exact absurd ⟨_, rfl⟩ hask
    obtain ⟨t, others, hmover, hperm, heq⟩ | ⟨hnone, hw⟩ | ⟨d, hd, -⟩ := choose_cases s w c
    · have hhand : Timed { w with ready := others } [t] :=
        h.shrink (h.toNumbered.take hperm) (tasks_take hperm).symm.subset fun _ _ hi => hi
      have hothers := openings_effect hhand
        (Job.step_effect s { w with ready := others } t.id t.waits t.job)
      have hmine := Task.openings_step s { w with ready := others } t
      rw [heq, takeTurn_eq, Task.allOpenings_perm (tasks_place _ _ _), Task.allOpenings_append,
        hothers, Task.allOpenings_perm (tasks_take hperm), Task.allOpenings_cons, hmover, hbegin]
      simp only [Option.any_some, Bool.false_eq_true, if_false]
      omega
    · rw [Task.allOpenings_perm hw.tasks, hnone, hbegin]
      rfl
    · exact absurd ⟨d, hd⟩ hask

/-! ## What is up throughout -/

/-- What is up of the tour if it was asked for once. -/
inductive Opens (s : Stage) (w : World) : Prop where
  | ended : w.destroyed = true → Opens s w
  /-- It is to be opened. -/
  | opening : Task.allOpenings w.tasks = 1 → w.rig .tour = {} → Opens s w
  /-- It was opened, and its rules hold. -/
  | opened : Task.allOpenings w.tasks = 0 →
      Holds s w .tour s.document.reactions ⟨-1, none, s.config.defaultErrorPolicy, .announce⟩ →
      Opens s w

theorem exists_of_isOpener (h : (w.mover? c).any Task.isOpener = true) :
    ∃ t o ys, w.mover? c = some t ∧ t.job = .ended o ∧ t.waits = .opened :: ys := by
  cases hmover : w.mover? c with
  | none => simp [hmover] at h
  | some t =>
      rw [hmover, Option.any_some] at h
      unfold Task.isOpener at h
      split at h
      · rename_i o ys hjob hwaits
        exact ⟨t, o, ys, rfl, hjob, hwaits⟩
      · cases h

/-- Every choice but to ask for the tour again leaves its rules up once it is opened. -/
theorem Opens.choose (h : Opens s w) (hw : Reachable s w) (hc : c.isBegin = false) :
    Opens s (w.choose s c) := by
  have hcount := hw.way.toTimed.openings_choose (s := s) c
  rw [hc] at hcount
  simp only [Bool.false_eq_true, if_false, Nat.add_zero] at hcount
  cases hopener : (w.mover? c).any Task.isOpener with
  | true =>
      obtain ⟨t, o, ys, hmover, hjob, hwaits⟩ := exists_of_isOpener hopener
      rw [hopener, if_pos rfl] at hcount
      cases h with
      | ended hend => exact .ended (destroyed_choose hend)
      | opening hone hempty =>
          exact .opened (by omega) (hw.holds_of_opens hmover hjob hwaits hempty)
      | opened hnone _ => omega
  | false =>
      rw [hopener] at hcount
      simp only [Bool.false_eq_true, if_false, Nat.add_zero] at hcount
      cases hw.turnover c .tour with
      | keeps hkeeps hdestroyed =>
          cases h with
          | ended hend => exact .ended (hdestroyed.trans hend)
          | opening hone hempty => exact .opening (hcount.trans hone) (hkeeps.rig.trans hempty)
          | opened hnone hholds => exact .opened (hcount.trans hnone) (hholds.keeps hkeeps)
      | ends _ hend _ => exact .ended hend
      | opens hmover hjob hwaits => simp [hmover, Task.isOpener, hjob, hwaits] at hopener

end World

/-- A tour of one stop, which answers clicks and has a timer; keys are answered throughout. -/
def Stage.guided : Stage where
  document := ⟨[⟨"a", none, [], [⟨.click, none, none, none, none, []⟩,
    ⟨.timer, none, none, some 5, none, []⟩], none, []⟩], [⟨.key, none, none, none, none, []⟩], none, []⟩
  config := { settleFrames := 0 }

namespace World

end World

end DiagramTour
