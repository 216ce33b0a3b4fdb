import DiagramTour.Proofs.Playback.Way

/-!
# Batches of actions

Actions are carried out one after the other, each to its end, while whatever they wait for runs on
top of them.  What has become of those that were carried out decides what becomes of the batch.

## Architecture

- `Job.IsWork` holds while handlers, listeners and subscribers are at work on top of some waits, and
  `Job.IsWork.step` says that they leave what is below them alone.
- `Batch` tells where a batch is: which actions were dispatched, and how those have ended.
- `Batch.step` is one step of it; `Batch.ended` says how it may end.
-/

namespace DiagramTour

/-! ## Work on top of some waits -/

theorem Job.eq_ended {job : Job} (h : job.isEnded = true) : ∃ o, job = .ended o := by
  cases job <;> first | exact ⟨_, rfl⟩ | cases h

/-- Handlers, listeners and subscribers are at work, with some waits of their own. -/
structure Job.IsWork (job : Job) (top : List Wait) : Prop where
  job : job.isInner = true ∨ job.isEnded = true ∨ ∃ m, job = .travel m
  top : ∀ x ∈ top, x.isInner = true

/-- Work on the way goes on as work, and leaves what is below it alone. -/
theorem Job.IsWork.step {job : Job} {top : List Wait} (s : Stage) (w : World) (id : Nat)
    (base : List Wait) (h : job.IsWork top) (hgo : job.isEnded = true → top ≠ [])
    (hway : base.any Wait.isJourney = true) :
    ∃ job' top', job'.IsWork top' ∧
      (job.step s w id (top ++ base)).2.left? = some (job', top' ++ base) := by
  have hshift := Job.step_shift s w id (top ++ base) job
  have hany : (top ++ base).any Wait.isJourney = true := by simp [hway]
  have htop := h.top
  generalize (job.step s w id (top ++ base)).2 = turn at hshift ⊢
  generalize hwaits : top ++ base = waits at hshift hany
  -- Where a wait goes on it is one of the work itself
  have hpop : ∀ {wait : Wait} {rest : List Wait}, top ++ base = wait :: rest → top ≠ [] →
      wait.isInner = true ∧ ∃ top', (∀ x ∈ top', x.isInner = true) ∧ rest = top' ++ base := by
    intro wait rest heq hne
    cases top with
    | nil => exact absurd rfl hne
    | cons x xs =>
        cases heq
        exact ⟨htop _ List.mem_cons_self, xs, fun y hy => htop y (List.mem_cons_of_mem _ hy), rfl⟩
  cases hshift with
  | @inner job job' more waits turn hinner hleft hjob' hmore =>
      refine ⟨job', more ++ top, ⟨hjob', ?_⟩, ?_⟩
      · intro x hx
        rcases List.mem_append.mp hx with hx | hx
        · exact hmore x hx
        · exact htop x hx
      · rw [hleft, List.append_assoc, hwaits]
  | @resume o wait rest job' hwait hjob' =>
      obtain ⟨-, top', htop', rfl⟩ := hpop hwaits (hgo rfl)
      refine ⟨job', top', ⟨?_, htop'⟩, rfl⟩
      rcases hjob' with h' | h'
      · exact .inl h'
      · exact .inr (.inl h')
  | nested => exact ⟨.ended .completed, top, ⟨.inr (.inl rfl), htop⟩, by rw [hwaits]; rfl⟩
  | travel hno => simp [hno] at hany
  | finish =>
      have := hgo rfl
      simp_all
  | opened => exact absurd (hpop hwaits (hgo rfl)).1 (by simp [Wait.isInner])
  | cleared => exact absurd (hpop hwaits (hgo rfl)).1 (by simp [Wait.isInner])
  | entered => exact absurd (hpop hwaits (hgo rfl)).1 (by simp [Wait.isInner])
  | broken => exact absurd (hpop hwaits (hgo rfl)).1 (by simp [Wait.isInner])
  | arrive => exact absurd (hpop hwaits (hgo rfl)).1 (by simp [Wait.isInner])
  | concluded => exact absurd (hpop hwaits (hgo rfl)).1 (by simp [Wait.isInner])
  | handOver => exact absurd (hpop hwaits (hgo rfl)).1 (by simp [Wait.isInner])
  | _ => rcases h.job with h' | h' | ⟨m, h'⟩ <;> cases h'

/-! ## How actions end -/

/-- The failure of an action that has ended in some way, if it has failed. -/
def Action.failure? (a : Action) : Outcome → Option ActionError
  | .failed e => some e
  | .crashed c => some (.crashed a.kind c.message)
  | _ => none

/-- The failures of some actions, in order, by how they have ended. -/
def failures (as : List Action) (os : List Outcome) : List ActionError :=
  (as.zip os).filterMap fun p => p.1.failure? p.2

@[simp] theorem failures_nil (os : List Outcome) : failures [] os = [] := rfl

theorem failures_concat {as : List Action} {os : List Outcome} (h : os.length = as.length)
    (a : Action) (o : Outcome) :
    failures (as ++ [a]) (os ++ [o]) = failures as os ++ (a.failure? o).toList := by
  unfold failures
  rw [List.zip_append h.symm]
  cases hf : a.failure? o <;> simp [hf]

/-- Where a batch of actions is; `done` are those that were dispatched, and `os` tells how those have
ended that have.  On top of the batch there may be work. -/
inductive Batch (policy : ErrorPolicy) (all : List Action) :
    List Action → List Outcome → Job → List Wait → Prop where
  /-- The next action is to come. -/
  | next {done rest : List Action} {os : List Outcome} {setting : Setting}
      {event : Option FiredEvent} : setting.policy = policy → all = done ++ rest →
      os.length = done.length → (policy = .haltOnError → failures done os = []) →
      Batch policy all done os (.run setting event rest (failures done os)) []
  /-- An action is carried out. -/
  | within {done rest : List Action} {a : Action} {os : List Outcome} {setting : Setting}
      {event : Option FiredEvent} {job : Job} (top : List Wait) : setting.policy = policy →
      all = done ++ a :: rest → os.length = done.length →
      (policy = .haltOnError → failures done os = []) → job.IsWork top →
      Batch policy all (done ++ [a]) os job
        (top ++ [.handled a.kind setting event rest (failures done os)])
  /-- All were carried out. -/
  | whole {os : List Outcome} : os.length = all.length →
      (policy = .haltOnError → failures all os = []) →
      Batch policy all all os (.ended (.collected (failures all os))) []
  /-- An action has failed, and none is to follow it. -/
  | failed {done rest : List Action} {a : Action} {os : List Outcome} {e : ActionError} :
      policy = .haltOnError → all = done ++ a :: rest → os.length = done.length →
      failures done os = [] → Batch policy all (done ++ [a]) (os ++ [.failed e]) (.ended (.failed e)) []
  /-- An action has broken off, and none is to follow it. -/
  | crashed {done rest : List Action} {a : Action} {os : List Outcome} {c : Crash} :
      policy = .haltOnError → all = done ++ a :: rest → os.length = done.length →
      failures done os = [] →
      Batch policy all (done ++ [a]) (os ++ [.crashed c]) (.ended (.crashed c)) []

/-- The action that the next step of a batch dispatches, if it dispatches one. -/
def Job.dispatches (job : Job) (top : List Wait) : List Action :=
  match job, top with
  | .run _ _ (a :: _) _, [] => [a]
  | _, _ => []

/-- How an action has ended, if the next step of a batch learns it. -/
def Job.learns (job : Job) (top : List Wait) : List Outcome :=
  match job, top with
  | .ended o, [.handled _ _ _ _ _] => [o]
  | _, _ => []

namespace Batch

variable {policy : ErrorPolicy} {all done : List Action} {os : List Outcome} {job : Job} {top : List Wait}

/-- A step of a batch that has not ended. -/
theorem step (s : Stage) (w : World) (id : Nat) (base : List Wait)
    (h : Batch policy all done os job top) (hgo : job.isEnded = true → top ≠ []) (hway : base.any Wait.isJourney = true) :
    ∃ job' top', Batch policy all (done ++ job.dispatches top) (os ++ job.learns top) job' top' ∧
      (job.step s w id (top ++ base)).2.left? = some (job', top' ++ base) := by
  cases h with
  | @next _ rest _ setting event hpolicy hall hlen hhalt =>
      cases rest with
      | nil =>
          rw [List.append_nil] at hall
          subst hall
          refine ⟨_, [], ?_, rfl⟩
          simpa [Job.dispatches, Job.learns] using Batch.whole hlen hhalt
      | cons a rest =>
          have hdispatch : ∀ {job' : Job}, job'.isInner = true ∨ job'.isEnded = true →
              Batch policy all (done ++ [a]) (os ++ []) job'
                [.handled a.kind setting event rest (failures done os)] := by
            intro job' hjob'
            rw [List.append_nil]
            refine Batch.within [] hpolicy hall hlen hhalt ⟨?_, by simp⟩
            rcases hjob' with h' | h'
            · exact .inl h'
            · exact .inr (.inl h')
          simp only [Job.step, World.runActions, List.nil_append]
          split
          · exact ⟨_, [.handled a.kind setting event rest (failures done os)],
              hdispatch (.inr rfl), rfl⟩
          · exact ⟨_, [.handled a.kind setting event rest (failures done os)],
              hdispatch (.inl rfl), rfl⟩
  | @within done rest a _ setting event _ top hpolicy hall hlen hhalt hwork =>
      by_cases hended : job.isEnded = true ∧ top = []
      · -- The action has ended
        obtain ⟨hjob, rfl⟩ := hended
        obtain ⟨o, rfl⟩ := Job.eq_ended hjob
        have hall' : all = (done ++ [a]) ++ rest := by simp [hall]
        have hlen' : (os ++ [o]).length = (done ++ [a]).length := by simp [hlen]
        have hconcat := failures_concat hlen a o
        have hnext : (policy = .haltOnError → a.failure? o = none) →
            Batch policy all (done ++ [a] ++ []) (os ++ [o])
              (.run setting event rest (failures done os ++ (a.failure? o).toList)) [] := by
          intro hnone
          rw [← hconcat, List.append_nil]
          refine .next hpolicy hall' hlen' fun hh => ?_
          rw [hconcat, hhalt hh, hnone hh]
          rfl
        have hkeep : a.failure? o = none → Batch policy all (done ++ [a] ++ []) (os ++ [o])
              (.run setting event rest (failures done os)) [] := by
          intro hnone
          simpa [hnone] using hnext fun _ => hnone
        cases o with
        | failed e =>
            cases policy with
            | haltOnError =>
                refine ⟨.ended (.failed e), [], ?_, ?_⟩
                · exact (List.append_nil (done ++ [a])).symm ▸
                    Batch.failed rfl hall hlen (hhalt rfl)
                · simp [Job.step, Wait.resume, hpolicy, Turn.ended, Turn.left?]
            | continueOnError =>
                refine ⟨_, [], hnext fun hh => (by cases hh), ?_⟩
                simp [Job.step, Wait.resume, hpolicy, Turn.left?, Action.failure?]
        | crashed c =>
            cases policy with
            | haltOnError =>
                refine ⟨.ended (.crashed c), [], ?_, ?_⟩
                · exact (List.append_nil (done ++ [a])).symm ▸
                    Batch.crashed rfl hall hlen (hhalt rfl)
                · simp [Job.step, Wait.resume, hpolicy, Turn.ended, Turn.left?]
            | continueOnError =>
                refine ⟨_, [], hnext fun hh => (by cases hh), ?_⟩
                simp [Job.step, Wait.resume, hpolicy, Turn.left?, Action.failure?]
        | _ => exact ⟨_, [], hkeep rfl, rfl⟩
      · -- The action goes on
        have hgo' : job.isEnded = true → top ≠ [] := fun h htop => hended ⟨h, htop⟩
        obtain ⟨job', top', hwork', hstep⟩ := hwork.step s w id
          (.handled a.kind setting event rest (failures done os) :: base) hgo' (by simp [hway])
        refine ⟨job', top' ++ [.handled a.kind setting event rest (failures done os)], ?_, ?_⟩
        · have hdispatches : job.dispatches
              (top ++ [.handled a.kind setting event rest (failures done os)]) = [] := by
            unfold Job.dispatches
            split <;> simp_all
          have hlearns : job.learns
              (top ++ [.handled a.kind setting event rest (failures done os)]) = [] := by
            unfold Job.learns
            split
            · rename_i heq
              cases top with
              | nil => exact absurd rfl (hgo' rfl)
              | cons x xs => simp at heq
            · rfl
          rw [hdispatches, hlearns, List.append_nil, List.append_nil]
          exact .within _ hpolicy hall hlen hhalt hwork'
        · simpa using hstep
  | whole => exact absurd rfl (hgo rfl)
  | failed => exact absurd rfl (hgo rfl)
  | crashed => exact absurd rfl (hgo rfl)

/-- What is on top of a batch is work. -/
theorem isInner (h : Batch policy all done os job top) : ∀ x ∈ top, x.isInner = true := by
  cases h with
  | within _ _ _ _ _ hwork =>
      intro x hx
      rcases List.mem_append.mp hx with hx | hx
      · exact hwork.top x hx
      · cases List.mem_singleton.mp hx
        rfl
  | _ => simp

/-- A batch that has ended was carried out as a whole, or was cut by its first failure. -/
theorem ended {o : Outcome} (h : Batch policy all done os (.ended o) []) :
    (done = all ∧ os.length = all.length ∧ (policy = .haltOnError → failures all os = []) ∧
        o = .collected (failures all os)) ∨
      policy = .haltOnError ∧ ((∃ e, o = .failed e) ∨ ∃ c, o = .crashed c) ∧
        ∃ pre a rest os', all = pre ++ a :: rest ∧ done = pre ++ [a] ∧ os = os' ++ [o] ∧
          os'.length = pre.length ∧ failures pre os' = [] := by
  generalize htop : ([] : List Wait) = top at h
  cases h with
  | within => simp at htop
  | whole hlen hhalt => exact .inl ⟨rfl, hlen, hhalt, rfl⟩
  | failed hpolicy hall hlen hnone =>
      exact .inr ⟨hpolicy, .inl ⟨_, rfl⟩, _, _, _, _, hall, rfl, rfl, hlen, hnone⟩
  | crashed hpolicy hall hlen hnone =>
      exact .inr ⟨hpolicy, .inr ⟨_, rfl⟩, _, _, _, _, hall, rfl, rfl, hlen, hnone⟩

end Batch

end DiagramTour
