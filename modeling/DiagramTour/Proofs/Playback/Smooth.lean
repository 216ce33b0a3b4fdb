import DiagramTour.Proofs.Playback.Tasks
import Mathlib.Algebra.GroupWithZero.Nat
import Mathlib.Algebra.Order.BigOperators.Group.List
import Mathlib.Algebra.Order.Group.Nat

/-!
# Where nothing fails

On a stage where every action of the tour succeeds, and where nobody is subscribed, a task can do
little: the timers elapse and their reactions run, and whoever was asked for a move comes to the stop
that it leads to.  No handler asks for anything, so that each of these tasks ends after a number of steps
that can be told beforehand.

## Architecture

- `Easy` is a batch of actions none of which has failed; `Bystander` is what timers and their reactions are
  at, and `Errand` where the task of a move to the next stop is.
- `Task.cost` is a bound for the steps that a task has still to take.  The timers of stops that were not
  reached yet are paid for by `Stage.fund`.
- `Stride` is a step of such a task, with what it costs; `Bystander.stride` and `Errand.stride` say that every
  step is one.
-/

namespace DiagramTour

/-! ## Stages on which nothing fails -/

/-- An action whose handler succeeds, whatever it is called with. -/
def Stage.Eases (s : Stage) (a : Action) : Prop :=
  ∃ handler, s.handlers.find? a.kind = some handler ∧ ∀ cue, handler cue = .succeed

/-- A stage on which all actions of the tour succeed, and frames come in intervals. -/
structure Stage.IsObliging (s : Stage) : Prop where
  paced : s.paced = true
  eases : ∀ a ∈ World.clearAction :: s.document.actions, s.Eases a

/-- The place to which a move to the next stop leads. -/
def Stage.placeAfter (s : Stage) (place : Int) : Int :=
  ((World.place? s (place + 1)).map Int.ofNat).getD place

theorem World.stopAt_eq (s : Stage) {j : Nat} (hj : j < s.document.stops.length) :
    World.stopAt s j = s.document.stops[j] := by
  rw [stopAt, List.getD_eq_getElem?_getD, List.getElem?_eq_getElem hj]
  rfl

theorem World.stopAt_mem (s : Stage) {j : Nat} (hj : j < s.document.stops.length) :
    World.stopAt s j ∈ s.document.stops := by
  rw [stopAt_eq s hj]
  exact List.getElem_mem hj

namespace Stage.IsObliging

variable {s : Stage}

theorem eases_stop (h : s.IsObliging) {j : Nat} (hj : j < s.document.stops.length) :
    (∀ a ∈ (World.stopAt s j).actions, s.Eases a) ∧
      ∀ r ∈ (World.stopAt s j).reactions, ∀ a ∈ r.actions, s.Eases a := by
  have hmem := World.stopAt_mem s hj
  refine ⟨fun a ha => h.eases a (List.mem_cons_of_mem _ ?_),
    fun r hr a ha => h.eases a (List.mem_cons_of_mem _ ?_)⟩
  · exact List.mem_append_left _ (List.mem_flatMap.mpr ⟨_, hmem, ha⟩)
  · refine List.mem_append_right _ (List.mem_flatMap.mpr ⟨r, List.mem_append_right _ ?_, ha⟩)
    exact List.mem_flatMap.mpr ⟨_, hmem, hr⟩

theorem eases_tour (h : s.IsObliging) : ∀ r ∈ s.document.reactions, ∀ a ∈ r.actions, s.Eases a :=
  fun r hr a ha => h.eases a (List.mem_cons_of_mem _
    (List.mem_append_right _ (List.mem_flatMap.mpr ⟨r, List.mem_append_left _ hr, ha⟩)))

end Stage.IsObliging

/-! ## What tasks do where nothing fails -/

/-- A batch of actions above some waits, none of which has failed. -/
inductive Easy (s : Stage) (base : List Wait) : Job → List Wait → Prop where
  | next {setting : Setting} {event : Option FiredEvent} {actions : List Action} :
      (∀ a ∈ actions, s.Eases a) → Easy s base (.run setting event actions []) base
  | act {kind : String} {setting : Setting} {event : Option FiredEvent} {rest : List Action} :
      (∀ a ∈ rest, s.Eases a) →
      Easy s base (.act kind .succeed) (.handled kind setting event rest [] :: base)
  | acted {kind : String} {setting : Setting} {event : Option FiredEvent} {rest : List Action} :
      (∀ a ∈ rest, s.Eases a) →
      Easy s base (.ended .completed) (.handled kind setting event rest [] :: base)
  | done : Easy s base (.ended (.collected [])) base

/-- A job that announces some notices, or has done so. -/
inductive Job.Announcing : Job → Prop where
  | deliver (notices : List Notice) : Job.Announcing (.deliver (notices.map .announce))
  | told : Job.Announcing (.ended .completed)

/-- What a timer is at, and the task that its reaction becomes. -/
inductive Bystander (s : Stage) : Job → List Wait → Prop where
  | await {setting : Setting} {delay : Nat} {actions : List Action} :
      (∀ a ∈ actions, s.Eases a) → Bystander s (.await setting delay actions) []
  | ring {setting : Setting} {delay : Nat} {actions : List Action} :
      (∀ a ∈ actions, s.Eases a) → Bystander s (.ring setting delay actions) []
  | reacting {outlet : Outlet} {job : Job} {waits : List Wait} :
      Easy s [.report outlet] job waits → Bystander s job waits
  | announcing {job : Job} : job.Announcing → Bystander s job []

/-- Where the task of a move to the next stop is, the move beginning at `origin`: the place and the
traveller, the job and the waits. -/
inductive Errand (s : Stage) (m : Move) (origin : Int) :
    Int → Option Nat → Job → List Wait → Prop where
  | travel : Errand s m origin origin none (.travel m) []
  | seek : Errand s m origin origin none (.seek m) [.journey]
  | depart {way : Option Nat} : Errand s m origin origin way (.depart m) [.journey]
  /-- The stop before is cleaned up. -/
  | clearing {way : Option Nat} {j : Nat} {job : Job} {waits : List Wait} :
      World.place? s (origin + 1) = some j → Easy s [.cleared j, .journey] job waits →
      Errand s m origin origin way job waits
  | settling {way : Option Nat} {j n : Nat} : World.place? s (origin + 1) = some j →
      Errand s m origin origin way (.settle j n) [.journey]
  /-- The actions of the stop are at work. -/
  | acting {way : Option Nat} {j : Nat} {job : Job} {waits : List Wait} :
      World.place? s (origin + 1) = some j → Easy s [.entered j, .journey] job waits →
      Errand s m origin origin way job waits
  /-- There are no failures to be told. -/
  | telling {way : Option Nat} {j : Nat} {job : Job} : World.place? s (origin + 1) = some j →
      job.Announcing → Errand s m origin origin way job [.arrived j [], .journey]
  /-- The stop is reached, and all are told. -/
  | arriving {way : Option Nat} {job : Job} : job.Announcing →
      Errand s m origin (s.placeAfter origin) way job [.concluded .completed, .journey]
  | leaving {way : Option Nat} :
      Errand s m origin (s.placeAfter origin) way (.ended .completed) [.journey]
  | ended : Errand s m origin (s.placeAfter origin) none (.ended .completed) []

/-! ## What is still to be paid -/

/-- How many steps a stop takes at most, from the end of the frames before it. -/
def Stage.entryCost (s : Stage) : Nat :=
  3 * s.document.actions.length + 8

/-- How many steps a job takes at most. -/
def Job.cost (s : Stage) : Job → Nat
  | .run _ _ actions _ => 3 * actions.length + 1
  | .act _ _ => 1
  | .deliver ds => ds.length + 1
  | .travel _ => s.config.settleFrames + s.entryCost + 9
  | .seek _ => s.config.settleFrames + s.entryCost + 7
  | .depart _ => s.config.settleFrames + s.entryCost + 6
  | .settle _ n => n + s.entryCost
  | .await _ _ actions => 3 * actions.length + 6
  | .ring _ _ actions => 3 * actions.length + 5
  | _ => 0

/-- How many steps are taken at most when what is above a wait has ended. -/
def Wait.cost (s : Stage) : Wait → Nat
  | .handled _ _ _ actions _ => 3 * actions.length + 2
  | .report _ => 2
  | .cleared _ => s.config.settleFrames + s.entryCost + 1
  | .entered _ => 6
  | .arrived _ _ => 4
  | .concluded _ | .journey => 1
  | _ => 0

/-- How many steps a task takes at most, and one in which it ends. -/
def Task.cost (s : Stage) (t : Task) : Nat :=
  t.job.cost s + (t.waits.map (Wait.cost s)).sum + 1

/-- How many steps some tasks take at most. -/
def Task.costs (s : Stage) (ts : List Task) : Nat :=
  (ts.map (Task.cost s)).sum

/-- How many steps a timer takes at most, together with its reaction. -/
def Reaction.cost (r : Reaction) : Nat :=
  3 * r.actions.length + 7

/-- How many steps the timers of some rules take at most. -/
def Reaction.costs (rs : List Reaction) : Nat :=
  (rs.map Reaction.cost).sum

/-- How many steps the timers of the stops after a place take at most. -/
def Stage.fund (s : Stage) (place : Int) : Nat :=
  Reaction.costs ((s.document.stops.drop (place + 1).toNat).flatMap Stop.reactions)

namespace Task

variable {s : Stage} {ts us : List Task}

@[simp] theorem costs_nil : costs s [] = 0 := rfl

@[simp] theorem costs_cons (t : Task) : costs s (t :: ts) = t.cost s + costs s ts := by
  simp [costs]

@[simp] theorem costs_append : costs s (ts ++ us) = costs s ts + costs s us := by
  simp [costs]

theorem costs_perm (h : ts.Perm us) : costs s ts = costs s us :=
  (h.map _).sum_nat

theorem costs_subperm (h : ts.Subperm us) : costs s ts ≤ costs s us := by
  obtain ⟨vs, hperm, hsub⟩ := h
  rw [← costs_perm hperm]
  exact (hsub.map _).sum_le_sum fun _ _ => Nat.zero_le _

/-- Every task has a step to take. -/
theorem length_le_costs (s : Stage) (ts : List Task) : ts.length ≤ costs s ts := by
  induction ts with
  | nil => exact Nat.le_refl _
  | cons t ts ih =>
      rw [List.length_cons, costs_cons, cost]
      omega

end Task

theorem Reaction.costs_append (rs qs : List Reaction) :
    costs (rs ++ qs) = costs rs + costs qs := by
  simp [costs]

theorem World.timersOf_sublist (s : Stage) (rs : List Reaction) : (timersOf s rs).Sublist rs := by
  unfold timersOf
  split
  · exact List.filter_sublist
  · exact List.nil_sublist rs

/-- The timers that are started for some rules cost no more than what is set aside for them. -/
theorem costs_timerTasks (s : Stage) (setting : Setting) (rs : List Reaction) (next : Nat) :
    Task.costs s (timerTasks setting next (World.timersOf s rs)) ≤ Reaction.costs rs := by
  have hcosts : ∀ (qs : List Reaction) (next : Nat),
      Task.costs s (timerTasks setting next qs) = Reaction.costs qs := by
    intro qs
    induction qs with
    | nil => exact fun _ => rfl
    | cons q qs ih =>
        intro next
        have hrest := ih (next + 1)
        simp only [timerTasks, List.zipIdx_cons, List.map_cons, Task.costs_cons] at hrest ⊢
        rw [hrest]
        simp [Task.cost, Job.cost, Reaction.costs, Reaction.cost]
  rw [hcosts]
  exact ((World.timersOf_sublist s rs).map _).sum_le_sum fun _ _ => Nat.zero_le _

theorem mem_timerTasks {setting : Setting} {next : Nat} {rs : List Reaction} {t : Task}
    (h : t ∈ timerTasks setting next rs) :
    next ≤ t.id ∧ ∃ r ∈ rs, t.job = .await setting r.delay r.actions ∧ t.waits = [] := by
  have hid := List.mem_map_of_mem (f := Task.id) h
  rw [timerTasks_ids] at hid
  obtain ⟨⟨r, i⟩, hr, rfl⟩ := List.mem_map.mp h
  exact ⟨(List.mem_range'_1.mp hid).1, r, List.fst_mem_of_mem_zipIdx hr, rfl, rfl⟩

namespace Stage

variable {s : Stage} {p : Int} {j : Nat}

theorem lt_of_place? (h : World.place? s p = some j) : j < s.document.stops.length ∧ p = j := by
  unfold World.place? at h
  split at h
  · rename_i hrange
    simp only [Bool.and_eq_true, decide_eq_true_eq] at hrange
    cases h
    omega
  · cases h

theorem placeAfter_of_place? (h : World.place? s (p + 1) = some j) : s.placeAfter p = j := by
  rw [placeAfter, h]
  rfl

theorem placeAfter_of_none (h : World.place? s (p + 1) = none) : s.placeAfter p = p := by
  rw [placeAfter, h]
  rfl

/-- When a stop is reached its timers are paid for. -/
theorem fund_arrive (h : World.place? s (p + 1) = some j) :
    s.fund p = Reaction.costs (World.stopAt s j).reactions + s.fund j := by
  obtain ⟨hlt, hj⟩ := lt_of_place? h
  rw [fund, fund, hj, Int.toNat_natCast, List.drop_eq_getElem_cons hlt, List.flatMap_cons,
    Reaction.costs_append, World.stopAt_eq s hlt]
  rfl

/-- The actions of a stop are among those of the tour. -/
theorem length_actions_le (hj : j < s.document.stops.length) :
    (World.stopAt s j).actions.length ≤ s.document.actions.length := by
  have hmem := World.stopAt_mem s hj
  have hsub : (World.stopAt s j).actions.Sublist (s.document.stops.flatMap Stop.actions) :=
    List.sublist_flatten_of_mem (List.mem_map_of_mem hmem)
  rw [Document.actions, List.length_append]
  exact Nat.le_trans hsub.length_le (Nat.le_add_right _ _)

end Stage

/-! ## Steps -/

variable {s : Stage} {w w' : World} {t t' : Task} {base : List Wait} {job : Job} {waits : List Wait}

/-- A batch goes on, or is done. -/
theorem Easy.step (s : Stage) (w : World) (id : Nat) (h : Easy s base job waits) :
    (job = .ended (.collected []) ∧ waits = base) ∨
      ∃ journal job' waits', job.step s w id waits = ({ w with journal }, .go job' waits') ∧
        Easy s base job' waits' ∧ Task.cost s ⟨id, job', waits'⟩ < Task.cost s ⟨id, job, waits⟩ := by
  cases h with
  | @next setting event actions hease =>
      right
      cases actions with
      | nil => exact ⟨w.journal, _, _, rfl, .done, by simp [Task.cost, Job.cost]⟩
      | cons a rest =>
          obtain ⟨handler, hfind, hhandler⟩ := hease a List.mem_cons_self
          refine ⟨w.journal ++ [.called ⟨a, setting.stop, setting.stopId, event⟩],
            .act a.kind .succeed, .handled a.kind setting event rest [] :: base, ?_, ?_, ?_⟩
          · simp only [Job.step, World.runActions, hfind, hhandler]
            rfl
          · exact .act fun b hb => hease b (List.mem_cons_of_mem _ hb)
          · simp [Task.cost, Job.cost, Wait.cost]
            omega
  | act hease => exact .inr ⟨w.journal, _, _, rfl, .acted hease, by simp [Task.cost, Job.cost]⟩
  | acted hease =>
      refine .inr ⟨w.journal, _, _, rfl, .next hease, ?_⟩
      simp [Task.cost, Job.cost, Wait.cost]
  | done => exact .inl ⟨rfl, rfl⟩

/-- Nobody is subscribed who would hear an announcement. -/
theorem Job.Announcing.step (s : Stage) (w : World) (id : Nat) (waits : List Wait)
    (h : job.Announcing) (hdeaf : w.bus.subscribers = []) :
    job = .ended .completed ∨ ∃ journal job', job.step s w id waits = ({ w with journal }, .go job' waits) ∧
      job'.Announcing ∧ Task.cost s ⟨id, job', waits⟩ < Task.cost s ⟨id, job, waits⟩ := by
  cases h with
  | told => exact .inl rfl
  | deliver notices =>
      right
      cases notices with
      | nil => exact ⟨w.journal, _, rfl, .told, by simp [Task.cost, Job.cost]⟩
      | cons n ns =>
          refine ⟨w.journal ++ [.announced n], .deliver (ns.map .announce), ?_, .deliver ns,
            by simp [Task.cost, Job.cost]⟩
          simp only [List.map_cons, Job.step, World.deliver, Bus.audience, hdeaf, List.filter_nil,
            List.map_nil, List.nil_append]
          rfl

/-- Nothing has failed, nobody is subscribed, and nobody queues or pauses. -/
structure World.IsSerene (w : World) : Prop where
  live : w.destroyed = false
  error : w.error = none
  deaf : w.bus.subscribers = []
  queue : w.queue = []
  paused : w.paused = []

/-- A step of a task where nothing fails, the task being in hand: what it leaves behind is cheaper than
what was there. -/
structure Stride (s : Stage) (w : World) (t : Task) (started : List Task) (w' : World) (turn : Turn) :
    Prop where
  step : t.job.step s w t.id t.waits = (w', turn)
  serene : w'.IsSerene
  outcomes : w'.outcomes = w.outcomes
  nextTask : w.nextTask ≤ w'.nextTask
  asleep : w'.asleep.length ≤ w.asleep.length
  tasks : w'.tasks.Subperm (started ++ w.tasks)
  bystanders : ∀ u ∈ started, w.nextTask ≤ u.id ∧ Bystander s u.job u.waits
  moves : turn = .finish .completed ∨ (∃ job waits, turn = .go job waits) ∨
    ∃ ms job waits, turn = .sleep ms job waits
  cost : Task.costs s (turn.task? t.id).toList + Task.costs s started + s.fund w'.position <
    t.cost s + s.fund w.position

/-- A step that starts no task and changes nothing that counts here. -/
theorem Stride.quiet {journal : List Record} {host : Host} {resets clears : Nat} {traveller : Option Nat}
    {turn : Turn} (hw : w.IsSerene)
    (hstep : t.job.step s w t.id t.waits = ({ w with journal, host, resets, clears, traveller }, turn))
    (hmoves : turn = .finish .completed ∨ (∃ job waits, turn = .go job waits) ∨
      ∃ ms job waits, turn = .sleep ms job waits)
    (hcost : Task.costs s (turn.task? t.id).toList < t.cost s) :
    Stride s w t [] { w with journal, host, resets, clears, traveller } turn where
  step := hstep
  serene := ⟨hw.live, hw.error, hw.deaf, hw.queue, hw.paused⟩
  outcomes := rfl
  nextTask := Nat.le_refl _
  asleep := Nat.le_refl _
  tasks := .refl _
  bystanders := by simp
  moves := hmoves
  cost := by simpa using hcost

/-- A step in which a task goes on, without anything that counts here. -/
theorem Stride.go {id : Nat} {journal : List Record} {traveller : Option Nat} {job' : Job}
    {waits' : List Wait} (hw : w.IsSerene)
    (hstep : job.step s w id waits = ({ w with journal, traveller }, .go job' waits'))
    (hcost : Task.cost s ⟨id, job', waits'⟩ < Task.cost s ⟨id, job, waits⟩) :
    Stride s w ⟨id, job, waits⟩ [] { w with journal, traveller } (.go job' waits') :=
  .quiet hw hstep (.inr (.inl ⟨_, _, rfl⟩)) (by simpa [Turn.task?] using hcost)

/-- A timer, or the task of its reaction, takes a step and leaves the others alone. -/
theorem Bystander.stride (hw : w.IsSerene) (h : Bystander s t.job t.waits) :
    ∃ started w' turn, Stride s w t started w' turn ∧ w'.position = w.position ∧
      w'.traveller = w.traveller ∧ w.tasks ⊆ w'.tasks ∧
      ∀ t', turn.task? t.id = some t' → Bystander s t'.job t'.waits := by
  obtain ⟨id, job, waits⟩ := t
  cases h with
  | @await setting delay actions hease =>
      refine ⟨[], w, .sleep delay (.ring setting delay actions) [],
        .quiet hw rfl (.inr (.inr ⟨_, _, _, rfl⟩)) ?_, rfl, rfl, fun _ h => h, ?_⟩
      · simp [Turn.task?, Task.cost, Job.cost]
      · rintro t' ⟨⟩
        exact .ring hease
  | @ring setting delay actions hease =>
      refine ⟨[⟨w.nextTask, .run setting
          (some (FiredEvent.ofTimer (.element Elements.root) delay)) actions [],
          [.report setting.outlet]⟩], w.start _ _, .go (.ended .completed) [],
        ⟨rfl, ⟨hw.live, hw.error, hw.deaf, hw.queue, hw.paused⟩, rfl, Nat.le_succ _, Nat.le_refl _,
          (World.tasks_start w _ _).subperm, ?_, .inr (.inl ⟨_, _, rfl⟩), ?_⟩, rfl, rfl, ?_, ?_⟩
      · intro u hu
        cases List.mem_singleton.mp hu
        exact ⟨Nat.le_refl _, .reacting (.next hease)⟩
      · simp [World.start, Turn.task?, Task.cost, Job.cost, Wait.cost]
        omega
      · exact fun u hu => (World.tasks_start w _ _).symm.subset (List.mem_cons_of_mem _ hu)
      · rintro t' ⟨⟩
        exact .announcing .told
  | @reacting outlet _ _ heasy =>
      rcases heasy.step s w id with ⟨rfl, rfl⟩ | ⟨journal, job', waits', hstep, heasy', hcost⟩
      · -- There are no failures to be told
        cases outlet with
        | announce =>
            refine ⟨[], w, _, .go hw rfl ?_, rfl, rfl, fun _ h => h, ?_⟩
            · simp [Delivery.ofFailures, Task.cost, Job.cost, Wait.cost]
            · rintro t' ⟨⟩
              exact .announcing (.deliver [])
        | record =>
            refine ⟨[], _, _, .go hw rfl ?_, rfl, rfl, fun _ h => h, ?_⟩
            · simp [Task.cost, Job.cost, Wait.cost]
            · rintro t' ⟨⟩
              exact .announcing .told
      · refine ⟨[], _, _, .go hw hstep hcost, rfl, rfl, fun _ h => h, ?_⟩
        rintro t' ⟨⟩
        exact .reacting heasy'
  | announcing hjob =>
      rcases hjob.step s w id [] hw.deaf with rfl | ⟨journal, job', hstep, hjob', hcost⟩
      · refine ⟨[], w, _, .quiet hw rfl (.inl rfl) ?_, rfl, rfl, fun _ h => h, ?_⟩
        · simp [Turn.task?, Task.cost]
        · rintro t' ⟨⟩
      · refine ⟨[], _, _, .go hw hstep hcost, rfl, rfl, fun _ h => h, ?_⟩
        rintro t' ⟨⟩
        exact .announcing hjob'

namespace Errand

variable {m : Move} {origin : Int}

/-- Where the task of a move is after a step of it, or that it has come to its end. -/
def Next (s : Stage) (m : Move) (origin : Int) (id : Nat) (w : World) (turn : Turn) : Prop :=
  (turn = .finish .completed ∧ w.position = s.placeAfter origin ∧ w.traveller = none) ∨
    ∃ t, turn.task? id = some t ∧ Errand s m origin w.position w.traveller t.job t.waits

/-- A step that goes on, and starts no task. -/
private theorem stride_go {id : Nat} {journal : List Record} {v : Option Nat} {job' : Job}
    {waits' : List Wait} (hw : w.IsSerene)
    (hstep : job.step s w id waits = ({ w with journal, traveller := v }, .go job' waits'))
    (hcost : Task.cost s ⟨id, job', waits'⟩ < Task.cost s ⟨id, job, waits⟩)
    (hnext : Errand s m origin w.position v job' waits') :
    ∃ started w' turn, Stride s w ⟨id, job, waits⟩ started w' turn ∧
      Task.costs s started + s.fund w'.position ≤ s.fund w.position ∧ Next s m origin id w' turn :=
  ⟨[], _, _, .go hw hstep hcost, by simp, .inr ⟨_, rfl, hnext⟩⟩

/-- The stop before is left. -/
private theorem stride_depart {id : Nat} (hs : s.IsObliging) (hw : w.IsSerene)
    (hm : w.target? s m = World.place? s (origin + 1)) (hposition : w.position = origin) :
    ∃ started w' turn, Stride s w ⟨id, .depart m, [.journey]⟩ started w' turn ∧
      Task.costs s started + s.fund w'.position ≤ s.fund w.position ∧ Next s m origin id w' turn := by
  subst hposition
  cases hgoal : World.place? s (w.position + 1) with
  | none =>
      have hstep : Job.step s w id [.journey] (.depart m) = (w, .ended .completed [.journey]) := by
        simp [Job.step, World.depart, hw.live, hm, hgoal]
      refine stride_go hw hstep (by simp [Task.cost, Job.cost]) ?_
      have hleaving : Errand s m w.position (s.placeAfter w.position) w.traveller _ _ := .leaving
      rwa [Stage.placeAfter_of_none hgoal] at hleaving
  | some j =>
      obtain ⟨resets, clears, htidy⟩ := (w.release .stop).tidy_eq (s := s) (World.stopAt s j)
      have hstep : Job.step s w id [.journey] (.depart m) =
          ((w.release .stop).tidy s (World.stopAt s j),
            .go (.run { World.settingOf s j (World.stopAt s j) with policy := .continueOnError } none
              [World.clearAction] []) [.cleared j, .journey]) := by
        simp [Job.step, World.depart, hw.live, hm, hgoal]
      have htasks : ((w.release .stop).tidy s (World.stopAt s j)).tasks.Subperm w.tasks := by
        rw [World.tasks_tidy]
        exact (World.tasks_release w .stop).subperm
      rw [htidy, World.release_eq] at hstep htasks
      refine ⟨[], _, _, ⟨hstep, ⟨hw.live, hw.error, hw.deaf, hw.queue, hw.paused⟩, rfl, Nat.le_refl _,
        List.length_filter_le _ _, htasks, by simp, .inr (.inl ⟨_, _, rfl⟩), ?_⟩, by simp,
        .inr ⟨_, rfl, .clearing hgoal (.next fun a ha => ?_)⟩⟩
      · simp [Turn.task?, Task.cost, Job.cost, Wait.cost]
        omega
      · cases List.mem_singleton.mp ha
        exact hs.eases _ List.mem_cons_self

/-- The stop is reached. -/
private theorem stride_arrive {id j : Nat} (hs : s.IsObliging) (hw : w.IsSerene)
    (hgoal : World.place? s (origin + 1) = some j) (hposition : w.position = origin) :
    ∃ started w' turn,
      Stride s w ⟨id, .ended .completed, [.arrived j [], .journey]⟩ started w' turn ∧
        Task.costs s started + s.fund w'.position ≤ s.fund w.position ∧
        Next s m origin id w' turn := by
  have hease := (hs.eases_stop (Stage.lt_of_place? hgoal).1).2
  have htimers : Task.costs s (timerTasks (World.settingOf s j (World.stopAt s j)) w.nextTask
      (World.timersOf s (World.stopAt s j).reactions)) + s.fund j ≤ s.fund w.position := by
    rw [hposition, Stage.fund_arrive hgoal]
    exact Nat.add_le_add_right (costs_timerTasks s _ _ _) _
  refine ⟨timerTasks (World.settingOf s j (World.stopAt s j)) w.nextTask
      (World.timersOf s (World.stopAt s j).reactions), _, _, ⟨rfl, ?_, ?_, ?_, ?_, ?_, ?_,
        .inr (.inl ⟨_, _, rfl⟩), ?_⟩, ?_, .inr ⟨_, rfl, ?_⟩⟩
  · rw [World.bind_eq]
    exact ⟨hw.live, rfl, hw.deaf, hw.queue, hw.paused⟩
  · rw [World.bind_eq]
  · rw [World.bind_eq]
    exact Nat.le_add_right _ _
  · rw [World.bind_eq]
  · exact (World.tasks_bind s { w with position := j, error := none } _ _ _).subperm
  · intro u hu
    obtain ⟨hid, r, hr, hjob, hwaits⟩ := mem_timerTasks hu
    refine ⟨hid, ?_⟩
    rw [hjob, hwaits]
    exact .await (hease r ((World.timersOf_sublist s _).subset hr))
  · rw [World.bind_eq]
    simp only [Turn.task?, Option.toList_some, Task.costs_cons, Task.costs_nil]
    simp only [Task.cost, Job.cost, Wait.cost, List.length_singleton, List.map_cons, List.map_nil,
      List.sum_cons, List.sum_nil]
    omega
  · rw [World.bind_eq]
    exact htimers
  · rw [World.bind_eq, ← Stage.placeAfter_of_place? hgoal]
    exact .arriving (.deliver [_])

/-- The task of a move to the next stop takes a step.  Where it starts timers they were paid for. -/
theorem stride (hs : s.IsObliging) (hw : w.IsSerene)
    (hm : ∀ v : World, v.position = origin → v.target? s m = World.place? s (origin + 1))
    (h : Errand s m origin w.position w.traveller t.job t.waits) :
    ∃ started w' turn, Stride s w t started w' turn ∧
      Task.costs s started + s.fund w'.position ≤ s.fund w.position ∧
      Next s m origin t.id w' turn := by
  obtain ⟨id, job, waits⟩ := t
  obtain ⟨position, hposition⟩ : ∃ p, w.position = p := ⟨_, rfl⟩
  obtain ⟨way, hway⟩ : ∃ way, w.traveller = way := ⟨_, rfl⟩
  rw [hposition, hway] at h
  cases h with
  | travel =>
      refine stride_go (v := w.traveller) hw rfl ?_ ?_
      · simp [Task.cost, Job.cost, Wait.cost]
      · rw [hposition, hway]
        exact .seek
  | seek =>
      have hstep : Job.step s w id [.journey] (.seek m) =
          ({ w with traveller := some id }, .go (.depart m) [.journey]) := by
        simp [Job.step, World.seek, hway]
      refine stride_go hw hstep (by simp [Task.cost, Job.cost]) ?_
      rw [hposition]
      exact .depart
  | depart => exact stride_depart hs hw (hm w hposition) hposition
  | @clearing _ j _ _ hgoal heasy =>
      rcases heasy.step s w id with ⟨rfl, rfl⟩ | ⟨journal, job', waits', hstep, heasy', hcost⟩
      · refine stride_go (v := w.traveller) hw rfl ?_ ?_
        · simp [Task.cost, Job.cost, Wait.cost]
        · rw [hposition]
          exact .settling hgoal
      · refine stride_go hw hstep hcost ?_
        rw [hposition]
        exact .clearing hgoal heasy'
  | @settling _ j n hgoal =>
      cases n with
      | zero =>
          have hlt := (Stage.lt_of_place? hgoal).1
          refine stride_go (v := w.traveller) hw rfl ?_ ?_
          · have hle := Stage.length_actions_le hlt
            simp [Task.cost, Job.cost, Wait.cost, Stage.entryCost]
            omega
          · rw [hposition]
            exact .acting hgoal (.next (hs.eases_stop hlt).1)
      | succ n =>
          have hstep : Job.step s w id [.journey] (.settle j (n + 1)) =
              (w, .sleep s.config.frameIntervalMs (.settle j n) [.journey]) := by
            simp [Job.step, World.settle, hs.paced]
          refine ⟨[], w, _, .quiet hw hstep (.inr (.inr ⟨_, _, _, rfl⟩)) ?_, by simp,
            .inr ⟨_, rfl, ?_⟩⟩
          · simp [Turn.task?, Task.cost, Job.cost]
          · rw [hposition]
            exact .settling hgoal
  | @acting _ j _ _ hgoal heasy =>
      rcases heasy.step s w id with ⟨rfl, rfl⟩ | ⟨journal, job', waits', hstep, heasy', hcost⟩
      · refine stride_go (v := w.traveller) hw rfl ?_ ?_
        · simp [Delivery.ofFailures, Task.cost, Job.cost, Wait.cost]
        · rw [hposition]
          exact .telling hgoal (.deliver [])
      · refine stride_go hw hstep hcost ?_
        rw [hposition]
        exact .acting hgoal heasy'
  | telling hgoal hjob =>
      rcases hjob.step s w id _ hw.deaf with rfl | ⟨journal, job', hstep, hjob', hcost⟩
      · exact stride_arrive hs hw hgoal hposition
      · refine stride_go hw hstep hcost ?_
        rw [hposition]
        exact .telling hgoal hjob'
  | arriving hjob =>
      rcases hjob.step s w id _ hw.deaf with rfl | ⟨journal, job', hstep, hjob', hcost⟩
      · refine stride_go (v := w.traveller) hw rfl ?_ ?_
        · simp [Task.cost, Job.cost, Wait.cost]
        · rw [hposition]
          exact .leaving
      · refine stride_go hw hstep hcost ?_
        rw [hposition]
        exact .arriving hjob'
  | leaving =>
      -- Nobody queues for the way
      have hstep : Job.step s w id [.journey] (.ended .completed) =
          ({ w with traveller := none }, .go (.ended .completed) []) := by
        simp [Job.step, Wait.resume, World.handOver, hw.queue, Turn.ended]
      refine stride_go hw hstep (by simp [Task.cost, Job.cost, Wait.cost]) ?_
      rw [hposition]
      exact .ended
  | ended =>
      refine ⟨[], w, .finish .completed, .quiet hw rfl (.inl rfl) ?_, by simp,
        .inl ⟨rfl, hposition, hway⟩⟩
      simp [Turn.task?, Task.cost]

end Errand

end DiagramTour
