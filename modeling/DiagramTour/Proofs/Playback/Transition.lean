import DiagramTour.Proofs.Playback.Batch
import DiagramTour.Proofs.Playback.Bounds
import DiagramTour.Proofs.Playback.Telling

/-!
# Transitions

A task that leaves for a stop reaches it, gives it up because an action failed, or breaks off with a
handler.  Each way a different part of what the player tells and remembers is left alone, whatever
other tasks do meanwhile.

## Architecture

- A `Logbook` collects what the steps of a transition did: the actions they dispatched, how those
  ended, and what they announced.
- `Leg` tells where a transition is, by the job and the waits above the way, and what is in the
  logbook by then; `Leg.step` is a step of it.
- `World.Underway` is a transition in a schedule: other tasks may take steps at any time.
- `Landed` is the account of a transition that has come to its end.
-/

namespace DiagramTour

/-! ## Logbooks -/

/-- What the steps of a transition have done. -/
structure Logbook where
  /-- The actions of the stop that were dispatched. -/
  dispatched : List Action := []
  /-- How those of them have ended that have. -/
  results : List Outcome := []
  /-- The notices that the transition announced. -/
  told : List Notice := []

namespace Logbook

/-- Notes a step that a task on the way is about to take. -/
def note (l : Logbook) (t : Task) : Logbook :=
  match t.job, t.waits with
  | .run _ _ (a :: _) _, .entered _ :: _ => { l with dispatched := l.dispatched ++ [a] }
  | .ended o, .handled _ _ _ _ _ :: .entered _ :: _ => { l with results := l.results ++ [o] }
  | job, .arrived _ _ :: _ | job, .concluded _ :: _ => { l with told := l.told ++ job.announces }
  | _, _ => l

/-- Notes a step if it is one of the task with a number. -/
def noteOf (l : Logbook) (id : Nat) : Option Task → Logbook
  | some t => if t.id = id then l.note t else l
  | none => l

variable {l : Logbook} {id j : Nat} {job : Job} {top rest : List Wait}

/-- While the actions of a stop are at work their batch is noted. -/
theorem note_entered (htop : ∀ x ∈ top, x.isInner = true) :
    l.note ⟨id, job, top ++ .entered j :: rest⟩ =
      { l with
        dispatched := l.dispatched ++ job.dispatches top
        results := l.results ++ job.learns top } := by
  unfold note Job.dispatches Job.learns
  match top with
  | [] =>
      cases job with
      | run setting event actions errors => cases actions <;> simp
      | _ => simp
  | [x] =>
      have hx := htop x List.mem_cons_self
      cases x <;> cases job <;> simp_all [Wait.isInner]
  | x :: y :: ys =>
      have hx := htop x List.mem_cons_self
      have hy := htop y (List.mem_cons_of_mem _ List.mem_cons_self)
      simp only [List.cons_append]
      split <;> simp_all [Wait.isInner]

/-- While the stop before is cleaned up nothing is noted. -/
theorem note_cleared (htop : ∀ x ∈ top, x.isInner = true) :
    l.note ⟨id, job, top ++ .cleared j :: rest⟩ = l := by
  unfold note
  match top with
  | [] => simp
  | [x] =>
      have hx := htop x List.mem_cons_self
      simp only [List.cons_append, List.nil_append]
      split <;> simp_all [Wait.isInner]
  | x :: y :: ys =>
      have hx := htop x List.mem_cons_self
      have hy := htop y (List.mem_cons_of_mem _ List.mem_cons_self)
      simp only [List.cons_append]
      split <;> simp_all [Wait.isInner]

/-- What is announced at the end of a transition is noted. -/
theorem note_arrived {es : List ActionError} :
    l.note ⟨id, job, .arrived j es :: rest⟩ = { l with told := l.told ++ job.announces } := by
  unfold note
  split <;> simp_all

theorem note_concluded {o : Outcome} :
    l.note ⟨id, job, .concluded o :: rest⟩ = { l with told := l.told ++ job.announces } := by
  unfold note
  split <;> simp_all

/-- What a step announces while its task is on the way gets into the logbook, as far as it is that a
stop was reached. -/
theorem told_note {t : Task} (hlast : t.TellsLast) :
    (l.note t).told.filterMap Notice.state? =
      l.told.filterMap Notice.state? ++ t.job.announces.filterMap Notice.state? := by
  by_cases hconcluded : ∃ o ys, t.waits = .concluded o :: ys
  · obtain ⟨id, job, waits⟩ := t
    obtain ⟨o, ys, rfl⟩ := hconcluded
    rw [note_concluded, List.filterMap_append]
  · rw [hlast.silent fun o ys hwaits => hconcluded ⟨o, ys, hwaits⟩, List.append_nil]
    have hsilent := hlast.silent fun o ys hwaits => hconcluded ⟨o, ys, hwaits⟩
    unfold note
    split <;> simp_all

end Logbook

/-! ## The account of a transition -/

/-- The policy for the actions of the stop at a place. -/
def Stage.policyAt (s : Stage) (j : Nat) : ErrorPolicy :=
  (World.stopAt s j).errorPolicy.getD s.config.defaultErrorPolicy

namespace Logbook

/-- The failures of the actions of a stop. -/
def failures (l : Logbook) : List ActionError :=
  DiagramTour.failures l.dispatched l.results

/-- All actions of a stop were carried out, and where a failure is to end them there was none. -/
structure IsWhole (l : Logbook) (s : Stage) (j : Nat) : Prop where
  dispatched : l.dispatched = (World.stopAt s j).actions
  results : l.results.length = l.dispatched.length
  halt : s.policyAt j = .haltOnError → l.failures = []

/-- The first failure ended the actions of a stop: an action ended in this way, those before it did
not fail, and none that follows it was dispatched. -/
structure IsCut (l : Logbook) (s : Stage) (j : Nat) (o : Outcome) : Prop where
  policy : s.policyAt j = .haltOnError
  actions : ∃ done a rest os, (World.stopAt s j).actions = done ++ a :: rest ∧
    l.dispatched = done ++ [a] ∧ l.results = os ++ [o] ∧ os.length = done.length ∧
    DiagramTour.failures done os = []

/-- Where the first failure ended the actions of a stop it was the only one. -/
theorem IsCut.failures {l : Logbook} {s : Stage} {j : Nat} {e : ActionError}
    (h : l.IsCut s j (.failed e)) : l.failures = [e] := by
  obtain ⟨done, a, rest, os, -, hdispatched, hresults, hlen, hnone⟩ := h.actions
  rw [Logbook.failures, hdispatched, hresults, failures_concat hlen, hnone]
  rfl

end Logbook

/-- The state that is announced when a stop is reached. -/
def Stage.arrival (s : Stage) (j : Nat) (error : Option ActionError) : PlayerState :=
  ⟨j, some (World.stopAt s j).id, s.document.stops.length, error⟩

/-- What is so when a transition to the stop at `j` has ended; it left when the player stood at
`origin` with the failure `before`. -/
def Landed (s : Stage) (j : Nat) (origin : Int) (before : Option ActionError) (l : Logbook)
    (w : World) : Outcome → Prop
  -- The stop was reached
  | .completed =>
    l.IsWhole s j ∧
      l.told = l.failures.flatMap Notice.ofFailure ++
        [.stepChange (s.arrival j l.failures.getLast?)] ∧
      w.position = j ∧ w.error = l.failures.getLast?
  -- An action failed
  | .failed e =>
    l.IsCut s j (.failed e) ∧ l.told = Notice.ofFailure e ∧ w.position = origin ∧ w.error = some e
  -- A handler broke off
  | .crashed c =>
    l.IsCut s j (.crashed c) ∧ l.told = [] ∧ w.position = origin ∧ w.error = before
  | _ => False

/-! ## Where a transition is -/

/-- The notices that a job has still to announce, before others. -/
def Job.yetToTell : Job → List Notice
  | .deliver ds => ds.filterMap fun
    | .announce n => some n
    | _ => none
  | _ => []

/-- Whether a job announces, or has done so. -/
def Job.isTelling : Job → Bool
  | .deliver _ | .ended _ => true
  | _ => false

/-- Where a transition to the stop at `j` is: what is in the logbook, where the player stands, the
job, and the waits above the way. -/
inductive Leg (s : Stage) (j : Nat) (origin : Int) (before : Option ActionError) :
    Logbook → World → Job → List Wait → Prop where
  /-- The stop before is cleaned up. -/
  | clearing {w : World} {done : List Action} {os : List Outcome} {job : Job} (top : List Wait) :
      w.position = origin → w.error = before →
      Batch .continueOnError [World.clearAction] done os job top →
      Leg s j origin before {} w job (top ++ [.cleared j])
  /-- Frames pass. -/
  | settling {w : World} {n : Nat} : w.position = origin → w.error = before →
      Leg s j origin before {} w (.settle j n) []
  /-- The actions of the stop are at work. -/
  | acting {l : Logbook} {w : World} {job : Job} (top : List Wait) :
      w.position = origin → w.error = before → l.told = [] →
      Batch (s.policyAt j) (World.stopAt s j).actions l.dispatched l.results job top →
      Leg s j origin before l w job (top ++ [.entered j])
  /-- The failures of the actions are told. -/
  | telling {l : Logbook} {w : World} {job : Job} : l.IsWhole s j → job.isTelling = true →
      l.told ++ job.yetToTell = l.failures.flatMap Notice.ofFailure →
      Leg s j origin before l w job [.arrived j l.failures]
  /-- The stop is reached, and all are told. -/
  | arriving {l : Logbook} {w : World} {job : Job} : l.IsWhole s j → job.isTelling = true →
      l.told ++ job.yetToTell = l.failures.flatMap Notice.ofFailure ++
        [.stepChange (s.arrival j l.failures.getLast?)] →
      w.position = j → w.error = l.failures.getLast? →
      Leg s j origin before l w job [.concluded .completed]
  /-- An action has failed, and all are told. -/
  | halting {l : Logbook} {w : World} {job : Job} {e : ActionError} : l.IsCut s j (.failed e) →
      job.isTelling = true → l.told ++ job.yetToTell = Notice.ofFailure e →
      w.position = origin → w.error = some e →
      Leg s j origin before l w job [.concluded (.failed e)]
  /-- The transition has ended. -/
  | landed {l : Logbook} {w : World} {o : Outcome} : Landed s j origin before l w o →
      Leg s j origin before l w (.ended o) []

namespace Leg

variable {s : Stage} {j : Nat} {origin : Int} {before : Option ActionError} {l : Logbook}
  {w : World} {job : Job} {top above ys : List Wait} {id : Nat}

/-- Work on top of a wait does not change where the player stands. -/
private theorem position_work (s : Stage) (w : World) (id : Nat) (wait : Wait) (ys : List Wait)
    (htop : ∀ x ∈ top, x.isInner = true)
    (hgo : job.isEnded = true → top ≠ []) :
    (job.step s w id (top ++ wait :: ys)).1.position = w.position ∧
      (job.step s w id (top ++ wait :: ys)).1.error = w.error := by
  refine World.position_effect ?_ (Job.step_effect s w id (top ++ wait :: ys) job)
  rintro o x xs rfl hwaits
  cases top with
  | nil => exact absurd rfl (hgo rfl)
  | cons y rest =>
      cases hwaits
      have hinner := htop x List.mem_cons_self
      constructor
      · rintro j es rfl
        cases hinner
      · rintro j rfl
        cases hinner

private theorem yetToTell_ofFailures (es : List ActionError) :
    (Job.deliver (Delivery.ofFailures es)).yetToTell = es.flatMap Notice.ofFailure := by
  simp only [Job.yetToTell, Delivery.ofFailures, List.filterMap_map]
  exact List.filterMap_some

/-- A step of the clean-up. -/
private theorem step_clearing {done : List Action} {os : List Outcome}
    (hposition : w.position = origin) (herror : w.error = before)
    (hbatch : Batch .continueOnError [World.clearAction] done os job top) :
    ∃ job' above', (job.step s w id (top ++ .cleared j :: .journey :: ys)).2.left? =
        some (job', above' ++ .journey :: ys) ∧
      Leg s j origin before {} (job.step s w id (top ++ .cleared j :: .journey :: ys)).1 job' above' := by
  by_cases hended : job.isEnded = true ∧ top = []
  · obtain ⟨hjob, rfl⟩ := hended
    obtain ⟨o, rfl⟩ := Job.eq_ended hjob
    obtain ⟨-, -, -, rfl⟩ | ⟨hpolicy, -⟩ := hbatch.ended
    · exact ⟨_, [], rfl, .settling hposition herror⟩
    · cases hpolicy
  · have hgo : job.isEnded = true → top ≠ [] := fun h htop => hended ⟨h, htop⟩
    obtain ⟨job', top', hbatch', hturn⟩ := hbatch.step s w id (.cleared j :: .journey :: ys) hgo
      (by simp [Wait.isJourney])
    obtain ⟨hposition', herror'⟩ :=
      position_work s w id (.cleared j) (.journey :: ys) hbatch.isInner hgo
    exact ⟨job', top' ++ [.cleared j], by simpa using hturn,
      .clearing _ (hposition'.trans hposition) (herror'.trans herror) hbatch'⟩

/-- A step while frames pass. -/
private theorem step_settling {n : Nat} (hposition : w.position = origin)
    (herror : w.error = before) :
    ∃ job' above', (Job.step s w id (.journey :: ys) (.settle j n)).2.left? =
        some (job', above' ++ .journey :: ys) ∧
      Leg s j origin before {} (Job.step s w id (.journey :: ys) (.settle j n)).1 job' above' := by
  cases n with
  | zero =>
      refine ⟨_, [.entered j], rfl, ?_⟩
      exact .acting [] hposition herror rfl (.next rfl rfl rfl fun _ => rfl)
  | succ n =>
      refine ⟨.settle j n, [], ?_, ?_⟩
      · simp only [Job.step, World.settle]
        split <;> rfl
      · simp only [Job.step, World.settle]
        split <;> exact .settling hposition herror

/-- A step while the actions of the stop are at work. -/
private theorem step_acting (hposition : w.position = origin) (herror : w.error = before)
    (htold : l.told = [])
    (hbatch : Batch (s.policyAt j) (World.stopAt s j).actions l.dispatched l.results job top) :
    ∃ job' above', (job.step s w id (top ++ .entered j :: .journey :: ys)).2.left? =
        some (job', above' ++ .journey :: ys) ∧
      Leg s j origin before (l.note ⟨id, job, top ++ .entered j :: .journey :: ys⟩)
        (job.step s w id (top ++ .entered j :: .journey :: ys)).1 job' above' := by
  rw [Logbook.note_entered hbatch.isInner]
  by_cases hended : job.isEnded = true ∧ top = []
  · obtain ⟨hjob, rfl⟩ := hended
    obtain ⟨o, rfl⟩ := Job.eq_ended hjob
    have hnote : ({ l with
        dispatched := l.dispatched ++ (Job.ended o).dispatches []
        results := l.results ++ (Job.ended o).learns [] } : Logbook) = l := by
      simp [Job.dispatches, Job.learns]
    rw [hnote]
    obtain ⟨hall, hlen, hhalt, rfl⟩ | ⟨hpolicy, ho, done, a, rest, os, hcut⟩ := hbatch.ended
    · have hfailures : DiagramTour.failures (World.stopAt s j).actions l.results = l.failures := by
        rw [Logbook.failures, hall]
      rw [hfailures] at hhalt ⊢
      refine ⟨_, [.arrived j l.failures], rfl, ?_⟩
      refine .telling ⟨hall, hall ▸ hlen, hhalt⟩ rfl ?_
      rw [htold]
      exact yetToTell_ofFailures l.failures
    · have hstopped : l.IsCut s j o := ⟨hpolicy, done, a, rest, os, hcut⟩
      rcases ho with ⟨e, rfl⟩ | ⟨c, rfl⟩
      · refine ⟨_, [.concluded (.failed e)], rfl, ?_⟩
        refine .halting hstopped rfl ?_ hposition rfl
        rw [htold]
        simpa using yetToTell_ofFailures [e]
      · exact ⟨_, [], rfl, .landed ⟨hstopped, htold, hposition, herror⟩⟩
  · have hgo : job.isEnded = true → top ≠ [] := fun h htop => hended ⟨h, htop⟩
    obtain ⟨job', top', hbatch', hturn⟩ := hbatch.step s w id (.entered j :: .journey :: ys) hgo
      (by simp [Wait.isJourney])
    obtain ⟨hposition', herror'⟩ :=
      position_work s w id (.entered j) (.journey :: ys) hbatch.isInner hgo
    exact ⟨job', top' ++ [.entered j], by simpa using hturn,
      .acting (l := ⟨l.dispatched ++ job.dispatches top, l.results ++ job.learns top, l.told⟩) _
        (hposition'.trans hposition) (herror'.trans herror) htold hbatch'⟩

/-- A step of a job that announces: what was to be announced is announced now, or later. -/
theorem step_telling (s : Stage) (w : World) (id : Nat) (waits : List Wait)
    (htelling : job.isTelling = true)
    (hquiet : job.IsQuiet) (hgo : job.isEnded = false) :
    ∃ job', (job.step s w id waits).2.left? = some (job', waits) ∧
      job'.isTelling = true ∧ job.announces ++ job'.yetToTell = job.yetToTell := by
  cases job with
  | deliver ds =>
      match ds with
      | [] => exact ⟨_, rfl, rfl, rfl⟩
      | .announce n :: rest =>
          refine ⟨_, rfl, rfl, ?_⟩
          simp only [Job.announces, Job.yetToTell, List.filterMap_append, List.filterMap_map]
          simp
      | .hear sub n :: rest =>
          refine ⟨_, rfl, rfl, ?_⟩
          simp only [Job.announces, Job.yetToTell, List.filterMap_append, List.filterMap_map]
          simp
      | .respond response :: rest =>
          cases response with
          | announce n => cases hquiet _ List.mem_cons_self
          | review next => cases hquiet _ List.mem_cons_self
          | _ => exact ⟨_, rfl, rfl, rfl⟩
  | ended o => cases hgo
  | _ => cases htelling

/-- A job that is at work does not change where the player stands. -/
private theorem position_telling (s : Stage) (w : World) (id : Nat) (waits : List Wait)
    (hgo : job.isEnded = false) :
    (job.step s w id waits).1.position = w.position ∧ (job.step s w id waits).1.error = w.error := by
  refine World.position_effect ?_ (Job.step_effect s w id waits job)
  rintro o x xs rfl
  cases hgo

/-- The state of a player that has reached a stop. -/
private theorem state_arrival (hj : j < s.document.stops.length) (hposition : w.position = j) :
    w.state s = s.arrival j w.error := by
  simp [World.state, Stage.arrival, World.stopAt, hposition, hj]

/-- A step while the failures are told. -/
private theorem step_arrived (hj : j < s.document.stops.length) (hquiet : job.IsQuiet)
    (hwhole : l.IsWhole s j) (htelling : job.isTelling = true)
    (htold : l.told ++ job.yetToTell = l.failures.flatMap Notice.ofFailure) :
    ∃ job' above',
      (job.step s w id (.arrived j l.failures :: .journey :: ys)).2.left? =
        some (job', above' ++ .journey :: ys) ∧
      Leg s j origin before { l with told := l.told ++ job.announces }
        (job.step s w id (.arrived j l.failures :: .journey :: ys)).1 job' above' := by
  cases hended : job.isEnded with
  | true =>
      obtain ⟨o, rfl⟩ := Job.eq_ended hended
      have hnote : ({ l with told := l.told ++ (Job.ended o).announces } : Logbook) = l := by
        simp [Job.announces]
      rw [hnote]
      simp only [Job.yetToTell, List.append_nil] at htold
      simp only [Job.step, Wait.resume, World.arrive, Turn.left?]
      rw [state_arrival hj (by simp [World.bind_eq])]
      refine ⟨_, [.concluded .completed], rfl, .arriving hwhole rfl ?_ ?_ ?_⟩
      · simp [Job.yetToTell, htold, World.bind_eq]
      · simp [World.bind_eq]
      · simp [World.bind_eq]
  | false =>
      obtain ⟨job', hturn, htelling', htell⟩ :=
        step_telling s w id (.arrived j l.failures :: .journey :: ys) htelling hquiet hended
      refine ⟨job', [.arrived j l.failures], hturn, ?_⟩
      refine .telling (l := { l with told := l.told ++ job.announces })
        ⟨hwhole.dispatched, hwhole.results, hwhole.halt⟩ htelling' ?_
      rw [List.append_assoc, htell, htold]
      rfl

/-- A step while a last announcement is heard. -/
private theorem step_concluded {o : Outcome} (hquiet : job.IsQuiet) (htelling : job.isTelling = true)
    (hend : ∀ o', job = .ended o' → Leg s j origin before l w (.ended o) [])
    (hgo : ∀ job' w', job'.isTelling = true → job.announces ++ job'.yetToTell = job.yetToTell →
      w'.position = w.position → w'.error = w.error →
      Leg s j origin before { l with told := l.told ++ job.announces } w' job' [.concluded o]) :
    ∃ job' above', (job.step s w id (.concluded o :: .journey :: ys)).2.left? =
        some (job', above' ++ .journey :: ys) ∧
      Leg s j origin before { l with told := l.told ++ job.announces }
        (job.step s w id (.concluded o :: .journey :: ys)).1 job' above' := by
  cases hended : job.isEnded with
  | true =>
      obtain ⟨o', rfl⟩ := Job.eq_ended hended
      have hnote : ({ l with told := l.told ++ (Job.ended o').announces } : Logbook) = l := by
        simp [Job.announces]
      rw [hnote]
      exact ⟨.ended o, [], rfl, hend o' rfl⟩
  | false =>
      obtain ⟨job', hturn, htelling', htell⟩ :=
        step_telling s w id (.concluded o :: .journey :: ys) htelling hquiet hended
      obtain ⟨hposition, herror⟩ :=
        position_telling s w id (.concluded o :: .journey :: ys) hended
      exact ⟨job', [.concluded o], hturn, hgo job' _ htelling' htell hposition herror⟩

/-- A step of a transition that has not ended. -/
theorem step (id : Nat) (ys : List Wait) (h : Leg s j origin before l w job above)
    (hj : j < s.document.stops.length) (hquiet : job.IsQuiet) (hgo : job.isEnded = true → above ≠ []) :
    ∃ job' above', (job.step s w id (above ++ .journey :: ys)).2.left? =
        some (job', above' ++ .journey :: ys) ∧
      Leg s j origin before (l.note ⟨id, job, above ++ .journey :: ys⟩)
        (job.step s w id (above ++ .journey :: ys)).1 job' above' := by
  cases h with
  | clearing _ hposition herror hbatch =>
      simp only [List.append_assoc, List.singleton_append]
      rw [Logbook.note_cleared hbatch.isInner]
      exact step_clearing hposition herror hbatch
  | settling hposition herror => exact step_settling hposition herror
  | acting _ hposition herror htold hbatch =>
      simp only [List.append_assoc, List.singleton_append]
      exact step_acting hposition herror htold hbatch
  | telling hwhole htelling htold =>
      rw [List.singleton_append, Logbook.note_arrived]
      exact step_arrived hj hquiet hwhole htelling htold
  | arriving hwhole htelling htold hposition herror =>
      rw [List.singleton_append, Logbook.note_concluded]
      refine step_concluded hquiet htelling ?_ ?_
      · rintro o rfl
        exact .landed ⟨hwhole, by simpa [Job.yetToTell] using htold, hposition, herror⟩
      · intro job' w' htelling' htell hposition' herror'
        refine .arriving (l := { l with told := l.told ++ job.announces })
          ⟨hwhole.dispatched, hwhole.results, hwhole.halt⟩ htelling' ?_
          (hposition'.trans hposition) (herror'.trans herror)
        rw [List.append_assoc, htell, htold]
        rfl
  | halting hcut htelling htold hposition herror =>
      rw [List.singleton_append, Logbook.note_concluded]
      refine step_concluded hquiet htelling ?_ ?_
      · rintro o rfl
        exact .landed ⟨hcut, by simpa [Job.yetToTell] using htold, hposition, herror⟩
      · intro job' w' htelling' htell hposition' herror'
        refine .halting (l := { l with told := l.told ++ job.announces })
          ⟨hcut.policy, hcut.actions⟩ htelling' ?_ (hposition'.trans hposition)
          (herror'.trans herror)
        rw [List.append_assoc, htell, htold]
  | landed => exact absurd rfl (hgo rfl)

/-- The step in which a transition leaves. -/
theorem depart (s : Stage) (w : World) (id : Nat) (ys : List Wait) {m : Move}
    (hlive : w.destroyed = false) (hj : w.target? s m = some j) :
    ∃ job above, (Job.step s w id (.journey :: ys) (.depart m)).2.left? =
        some (job, above ++ .journey :: ys) ∧
      Leg s j w.position w.error {} (Job.step s w id (.journey :: ys) (.depart m)).1 job above := by
  obtain ⟨hposition, herror⟩ := World.position_effect (fun o x xs h => by cases h)
    (Job.step_effect s w id (.journey :: ys) (.depart m))
  revert hposition herror
  simp only [Job.step, World.depart, hlive, hj, Bool.false_eq_true, if_false, Turn.left?]
  intro hposition herror
  refine ⟨_, [.cleared j], rfl, ?_⟩
  have hbatch : Batch .continueOnError [World.clearAction] [] []
      (.run { World.settingOf s j (World.stopAt s j) with policy := .continueOnError } none
        [World.clearAction] []) [] := .next rfl rfl rfl fun _ => rfl
  exact .clearing [] hposition herror hbatch

end Leg

/-! ## Transitions in a schedule -/

namespace World

variable {s : Stage} {w w' : World} {t : Task} {l : Logbook} {id : Nat}

/-- A task whose transition has ended, and which has not given the way on. -/
def HasLanded (w : World) (id : Nat) (o : Outcome) : Prop :=
  ∃ ys, ⟨id, .ended o, .journey :: ys⟩ ∈ w.active

/-- The transition of a task, from when it has left until it ends, with its logbook.  Whatever is
chosen, whether it concerns the task or not, comes next. -/
inductive Underway (s : Stage) (id : Nat) (w : World) : World → Logbook → Prop where
  | start : Underway s id w w {}
  | go {w' : World} {l : Logbook} (c : Choice) : Underway s id w w' l → (∀ o, ¬ w'.HasLanded id o) →
      Underway s id w (w'.choose s c) (l.noteOf id (w'.mover? c))

/-- A task on its way in a world, and where its transition is. -/
structure OnLeg (s : Stage) (j : Nat) (origin : Int) (before : Option ActionError) (id : Nat)
    (ys : List Wait) (l : Logbook) (w : World) : Prop where
  reachable : Reachable s w
  leg : ∃ job above, ⟨id, job, above ++ .journey :: ys⟩ ∈ w.active ∧
    Leg s j origin before l w job above

variable {j : Nat} {origin : Int} {before : Option ActionError} {ys : List Wait}

/-- A leg depends on a world by where the player stands there only. -/
theorem leg_of_position {job : Job} {above : List Wait} (h : Leg s j origin before l w job above)
    (hposition : w'.position = w.position) (herror : w'.error = w.error) :
    Leg s j origin before l w' job above := by
  cases h with
  | clearing top hp he hbatch =>
      exact .clearing top (hposition.trans hp) (herror.trans he) hbatch
  | settling hp he => exact .settling (hposition.trans hp) (herror.trans he)
  | acting top hp he htold hbatch =>
      exact .acting top (hposition.trans hp) (herror.trans he) htold hbatch
  | telling hwhole htelling htold => exact .telling hwhole htelling htold
  | arriving hwhole htelling htold hp he =>
      exact .arriving hwhole htelling htold (hposition.trans hp) (herror.trans he)
  | halting hcut htelling htold hp he =>
      exact .halting hcut htelling htold (hposition.trans hp) (herror.trans he)
  | @landed _ _ o hlanded =>
      refine .landed ?_
      cases o with
      | completed =>
          obtain ⟨hwhole, htold, hp, he⟩ := hlanded
          exact ⟨hwhole, htold, hposition.trans hp, herror.trans he⟩
      | failed e =>
          obtain ⟨hcut, htold, hp, he⟩ := hlanded
          exact ⟨hcut, htold, hposition.trans hp, herror.trans he⟩
      | crashed c =>
          obtain ⟨hcut, htold, hp, he⟩ := hlanded
          exact ⟨hcut, htold, hposition.trans hp, herror.trans he⟩
      | _ => exact hlanded

/-- What a task on a leg may be at. -/
theorem leg_job {job : Job} {above : List Wait} (h : Leg s j origin before l w job above) :
    job.isInner = true ∨ job.isEnded = true ∨ (∃ m, job = .travel m) ∨ ∃ n, job = .settle j n := by
  have hbatch : ∀ {policy : ErrorPolicy} {all done : List Action} {os : List Outcome}
      {top : List Wait}, Batch policy all done os job top →
        job.isInner = true ∨ job.isEnded = true ∨ ∃ m, job = .travel m := by
    rintro policy all done os top (_ | ⟨_, _, _, _, _, hwork⟩ | _ | _ | _)
    case within => exact hwork.job
    case next => exact .inl rfl
    all_goals exact .inr (.inl rfl)
  have htelling : job.isTelling = true → job.isInner = true ∨ job.isEnded = true := by
    intro h
    cases job <;> first | exact .inl rfl | exact .inr rfl | cases h
  cases h with
  | clearing _ _ _ h => rcases hbatch h with h | h | h <;> simp [h]
  | acting _ _ _ _ h => rcases hbatch h with h | h | h <;> simp [h]
  | settling => exact .inr (.inr (.inr ⟨_, rfl⟩))
  | landed => exact .inr (.inl rfl)
  | telling _ h => rcases htelling h with h | h <;> simp [h]
  | arriving _ h => rcases htelling h with h | h <;> simp [h]
  | halting _ h => rcases htelling h with h | h <;> simp [h]

/-- Nobody on a leg seeks the way. -/
theorem leg_ne_seek {job : Job} {above : List Wait} (h : Leg s j origin before l w job above)
    (m : Move) : job ≠ .seek m := by
  rintro rfl
  simpa [Job.isInner, Job.isEnded] using leg_job h

/-- Nobody on a leg is about to leave. -/
theorem leg_ne_depart {job : Job} {above : List Wait} (h : Leg s j origin before l w job above)
    (m : Move) : job ≠ .depart m := by
  rintro rfl
  simpa [Job.isInner, Job.isEnded] using leg_job h

/-- Every choice leads a task on to its next leg, or leaves it where it is, unless the task has landed
and takes its next step. -/
theorem OnLeg.choose {c : Choice} (h : OnLeg s j origin before id ys l w)
    (hj : j < s.document.stops.length)
    (hno : ∀ o u, w.HasLanded id o → w.mover? c = some u → u.id ≠ id) :
    OnLeg s j origin before id ys (l.noteOf id (w.mover? c)) (w.choose s c) := by
  refine ⟨h.reachable.choose c, ?_⟩
  obtain ⟨job, above, hmem, hleg⟩ := h.leg
  have hway := h.reachable.way
  have hholds : Task.HoldsWay ⟨id, job, above ++ .journey :: ys⟩ :=
    ⟨by simp [Wait.isJourney], leg_ne_seek hleg⟩
  by_cases hmine : ∃ u, w.mover? c = some u ∧ u.id = id
  · -- The task itself takes a step
    obtain ⟨u, hu, hid⟩ := hmine
    have hready := mem_ready_of_mover? hu
    have hsame : u = ⟨id, job, above ++ .journey :: ys⟩ :=
      hway.eq_of_id (by simp [tasks, active, hready]) (by simp [active_subset_tasks w hmem]) hid
    obtain ⟨v, others, hv, -, heq⟩ | ⟨hnone, -⟩ | ⟨d, rfl, -⟩ := choose_cases s w c
    · cases hu.symm.trans hv
      subst hsame
      have hgo : job.isEnded = true → above ≠ [] := by
        rintro hended rfl
        obtain ⟨o, rfl⟩ := Job.eq_ended hended
        exact hno o _ ⟨ys, hmem⟩ hu rfl
      have hquiet : job.IsQuiet :=
        h.reachable.isPrivate.tasks ⟨id, job, above ++ .journey :: ys⟩ (by
          simp [active_subset_tasks w hmem])
      have hleg' : Leg s j origin before l { w with ready := others } job above :=
        leg_of_position hleg rfl rfl
      obtain ⟨job', above', hturn, hnext⟩ := hleg'.step id ys hj hquiet hgo
      refine ⟨job', above', ?_, ?_⟩
      · rw [heq, takeTurn_eq]
        exact mem_active_of_left? hturn
      · rw [heq, takeTurn_eq, hu]
        simp only [Logbook.noteOf, if_true]
        exact leg_of_position hnext (position_place _ _ _).1 (position_place _ _ _).2
    · simp [hnone] at hu
    · cases hu
  · -- Somebody else does, or nobody
    have hnote : l.noteOf id (w.mover? c) = l := by
      cases hu : w.mover? c with
      | none => rfl
      | some u =>
          simp only [Logbook.noteOf]
          rw [if_neg fun hid => hmine ⟨u, hu, hid⟩]
    obtain ⟨hmem', hposition, herror⟩ :=
      hway.others_keep (s := s) hmem hholds fun u hu hid => hmine ⟨u, hu, hid⟩
    rw [hnote]
    exact ⟨job, above, hmem', leg_of_position hleg hposition herror⟩

/-- A task that leaves for a stop is on its first leg. -/
theorem OnLeg.start {i : Nat} {m : Move} (hw : Reachable s w)
    (ht : w.ready[i]? = some ⟨id, .depart m, .journey :: ys⟩) (hlive : w.destroyed = false)
    (hj : w.target? s m = some j) :
    OnLeg s j w.position w.error id ys {} (w.choose s (.turn i)) := by
  refine ⟨hw.choose _, ?_⟩
  obtain ⟨v, others, hv, -, heq⟩ | ⟨hnone, -⟩ | ⟨d, hd, -⟩ := choose_cases s w (.turn i)
  · cases ht.symm.trans hv
    obtain ⟨job, above, hturn, hleg⟩ :=
      Leg.depart s { w with ready := others } id ys hlive hj
    refine ⟨job, above, ?_, ?_⟩
    · rw [heq, takeTurn_eq]
      exact mem_active_of_left? hturn
    · rw [heq, takeTurn_eq]
      exact leg_of_position hleg (position_place _ _ _).1 (position_place _ _ _).2
  · cases hnone.symm.trans ht
  · cases hd

theorem landed_of_leg {o : Outcome} (h : Leg s j origin before l w (.ended o) []) :
    Landed s j origin before l w o := by
  generalize hjob : Job.ended o = job at h
  generalize habove : ([] : List Wait) = above at h
  cases h with
  | clearing => simp at habove
  | settling => cases hjob
  | acting => simp at habove
  | telling => cases habove
  | arriving => cases habove
  | halting => cases habove
  | landed h =>
      cases hjob
      exact h

/-- Whether a task has landed, found out by looking. -/
def landed? (w : World) (id : Nat) : Bool :=
  w.active.any fun t => t.id == id && t.job.isEnded && t.waits.head?.any Wait.isJourney

end World

namespace World

end World

end DiagramTour
