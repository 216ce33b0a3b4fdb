import DiagramTour.Proofs.Playback.Transition
import DiagramTour.Proofs.Playback.Turnover

/-!
# Whose rules hold

A player shows one stop at a time, and the rules of no other stop hold.  On the way from one stop to
the next no rules of a stop hold at all.  The rules that hold throughout are not concerned: once the
tour is opened they hold until the player ends.

## Architecture

- `Task.isBound`: a task that has left for a stop and not reached it yet.
- `World.Shown`: while a task is bound for a stop nothing is up of a stop; else the rules of the
  current one are, or none.  `World.Shown.choose` keeps it.
- `World.OnWay` follows one transition: nothing is up of a stop until it is reached.
- `World.Opens` counts the tasks that are to open the tour, and tells what is up of it.
-/

namespace DiagramTour

/-! ## Tasks on their way to a stop -/

/-- Whether a task has left for a stop and not reached it yet. -/
def Task.isBound (t : Task) : Bool :=
  t.job.stop?.isSome || t.waits.any fun x => x.stop?.isSome

theorem Wait.isLeg_of_stop? {x : Wait} (h : x.stop?.isSome = true) : x.isLeg = true := by
  cases x <;> simp_all [stop?, isLeg]

theorem Wait.Legged.suffix {above base : List Wait} (h : Legged (above ++ base)) : Legged base := by
  induction above with
  | nil => exact h
  | cons x xs ih => exact ih h.2

/-- A part of the way stands right above the way, wherever it stands. -/
theorem Wait.Legged.split {waits : List Wait} {x : Wait} (h : Legged waits) (hx : x ∈ waits)
    (hleg : x.isLeg = true) : ∃ above base, waits = above ++ x :: .journey :: base := by
  induction waits with
  | nil => cases hx
  | cons y ys ih =>
      rcases List.mem_cons.mp hx with rfl | hx
      · obtain ⟨base, rfl⟩ := h.1 hleg
        exact ⟨[], base, rfl⟩
      · obtain ⟨above, base, rfl⟩ := ih h.2 hx
        exact ⟨y :: above, base, rfl⟩

namespace Task

variable {s : Stage} {w : World} {t t' : Task}

/-- Below a way there is no part of another one. -/
theorem Stacked.no_leg_below {above base : List Wait} {x : Wait} (h : t.Stacked)
    (hwaits : t.waits = above ++ .journey :: base) (hx : x ∈ base) : x.isLeg = false := by
  cases hleg : x.isLeg with
  | false => rfl
  | true =>
      have honce := h.once
      have hlegs := h.legs
      rw [hwaits] at honce hlegs
      obtain ⟨above', base', rfl⟩ := Wait.Legged.split hlegs.suffix.2 hx hleg
      simp only [List.countP_append, List.countP_cons, Wait.isJourney, if_true] at honce
      omega

theorem stop?_of_mem_below {above base : List Wait} {x : Wait} (h : t.Stacked)
    (hwaits : t.waits = above ++ .journey :: base) (hx : x ∈ base) : x.stop?.isSome = false := by
  cases hstop : x.stop?.isSome with
  | false => rfl
  | true => exact absurd (Wait.isLeg_of_stop? hstop) (by simp [h.no_leg_below hwaits hx])

/-- A task that waits for the way, or has it and is about to leave, is not bound yet. -/
theorem Stacked.not_isBound (h : t.Stacked) {base : List Wait} (hwaits : t.waits = .journey :: base)
    (hjob : t.job.stop? = none) : t.isBound = false := by
  have hbelow := fun x => @stop?_of_mem_below t [] base x h hwaits
  rw [isBound, hjob, hwaits, List.any_cons, show Wait.journey.stop? = none from rfl]
  simpa using hbelow

/-- Who is bound for a stop holds the way. -/
theorem Stacked.holdsWay (h : t.Stacked) (hbound : t.isBound = true) : t.HoldsWay := by
  have hno : ∀ base, t.waits = .journey :: base → t.job.stop? = none → False := by
    intro base hwaits hjob
    simp [h.not_isBound hwaits hjob] at hbound
  rw [isBound, Bool.or_eq_true, List.any_eq_true] at hbound
  rcases hbound with hjob | ⟨x, hx, hstop⟩
  · obtain ⟨base, hwaits⟩ : ∃ base, t.waits = .journey :: base := by
      refine h.job ?_
      cases hj : t.job <;> simp_all [Job.stop?, Job.isLeg]
    refine ⟨by simp [hwaits, Wait.isJourney], fun m hm => ?_⟩
    simp [hm, Job.stop?] at hjob
  · obtain ⟨above, base, hwaits⟩ := h.legs.split hx (Wait.isLeg_of_stop? hstop)
    refine ⟨by simp [hwaits, Wait.isJourney], fun m hm => ?_⟩
    obtain ⟨base', hwaits'⟩ := h.job (by rw [hm]; rfl)
    exact hno base' hwaits' (by rw [hm]; rfl)

theorem isBound_eq_true : t.isBound = true ↔
    t.job.stop?.isSome = true ∨ ∃ x ∈ t.waits, x.stop?.isSome = true := by
  rw [isBound, Bool.or_eq_true, List.any_eq_true]

/-- Only by leaving a task becomes bound. -/
theorem isBound_step (ht : (t.job.step s w t.id t.waits).2.task? t.id = some t')
    (hbound : t'.isBound = true) : t.isBound = true ∨
      ∃ m j, t.job = .depart m ∧ w.destroyed = false ∧ w.target? s m = some j := by
  have hshift := Job.step_shift s w t.id t.waits t.job
  obtain ⟨id, job, waits⟩ := t
  simp only at hshift ht ⊢
  generalize (job.step s w id waits).2 = turn at hshift ht
  -- Where the new job leads to no stop it is a wait that was there before that does
  have hpass : ∀ {job' : Job} {waits' : List Wait}, isBound ⟨id, job', waits'⟩ = true →
      job'.stop? = none → (∀ x ∈ waits', x ∈ waits ∨ x.stop? = none) →
      isBound ⟨id, job, waits⟩ = true := by
    intro job' waits' hbound hjob hwaits
    rcases isBound_eq_true.mp hbound with hstop | ⟨x, hx, hstop⟩
    · simp [hjob] at hstop
    · rcases hwaits x hx with hx | hnone
      · exact isBound_eq_true.mpr (.inr ⟨x, hx, hstop⟩)
      · simp [hnone] at hstop
  have hhead : ∀ {x : Wait} {ys : List Wait}, waits = x :: ys → x.stop?.isSome = true →
      isBound ⟨id, job, waits⟩ = true :=
    fun hwaits hstop => isBound_eq_true.mpr (.inr ⟨_, by simp [hwaits], hstop⟩)
  cases hshift with
  | inner top _ hleft hjob' htop =>
      cases (Turn.task?_of_left? hleft id).symm.trans ht
      refine .inl (hpass hbound (stop?_of_isInner hjob') fun x hx => ?_)
      exact (List.mem_append.mp hx).symm.imp_right fun hx => stop?_of_isInner_wait (htop x hx)
  | resume _ hjob' =>
      cases ht
      refine .inl (hpass hbound (stop?_of_isInner ?_) fun x hx => .inl (List.mem_cons_of_mem _ hx))
      rcases hjob' with h | h
      · exact .inl h
      · exact .inr (.inl h)
  | «begin» =>
      cases ht
      refine .inl (hpass hbound rfl fun x hx => ?_)
      rcases List.mem_cons.mp hx with rfl | hx
      · exact .inr rfl
      · exact .inl hx
  | opened hjob' =>
      cases ht
      refine .inl (hpass hbound ?_ fun x hx => .inl (List.mem_cons_of_mem _ hx))
      rcases hjob' with rfl | rfl <;> rfl
  | travel =>
      cases ht
      refine .inl (hpass hbound rfl fun x hx => ?_)
      rcases List.mem_cons.mp hx with rfl | hx
      · exact .inr rfl
      · exact .inl hx
  | leave hlive hj => exact .inr ⟨_, _, rfl, hlive, hj⟩
  | cleared => exact .inl (hhead rfl rfl)
  | settle => exact .inl (isBound_eq_true.mpr (.inl rfl))
  | enter => exact .inl (isBound_eq_true.mpr (.inl rfl))
  | entered => exact .inl (hhead rfl rfl)
  | broken => exact .inl (hhead rfl rfl)
  | arrive => exact .inl (hhead rfl rfl)
  | concluded =>
      cases ht
      exact .inl (hpass hbound rfl fun x hx => .inl (List.mem_cons_of_mem _ hx))
  | handOver =>
      cases ht
      exact .inl (hpass hbound rfl fun x hx => .inl (List.mem_cons_of_mem _ hx))
  | finish => cases ht
  | _ =>
      cases ht
      exact .inl (hpass hbound rfl fun x hx => .inl hx)

/-- Who has reached a stop is bound no more. -/
theorem not_isBound_of_arrived {o : Outcome} {j : Nat} {es : List ActionError} {ys : List Wait}
    (h : t.Stacked) (hjob : t.job = .ended o) (hwaits : t.waits = .arrived j es :: ys)
    (ht : (t.job.step s w t.id t.waits).2.task? t.id = some t') : t'.isBound = false := by
  have hlegs := h.legs
  rw [hwaits] at hlegs
  obtain ⟨zs, rfl⟩ := hlegs.1 rfl
  have hbelow := fun x => @stop?_of_mem_below t [.arrived j es] zs x h hwaits
  rw [hjob, hwaits] at ht
  cases ht
  rw [isBound, List.any_cons, List.any_cons]
  simpa [Job.stop?, show ∀ o, (Wait.concluded o).stop? = none from fun _ => rfl,
    show Wait.journey.stop? = none from rfl] using hbelow

end Task

namespace World

variable {s : Stage} {w w' : World} {t t' : Task} {c : Choice} {id : Nat}

/-- Nobody who queues for the way is bound for a stop. -/
theorem Way.active_of_isBound (h : Way w []) (ht : t ∈ w.tasks) (hbound : t.isBound = true) :
    t ∈ w.active := by
  rcases List.mem_append.mp ht with ht' | hqueue
  · exact ht'
  · obtain ⟨m, ys, hjob, hwaits⟩ := h.queued t hqueue
    simp [(h.stacked t ht).not_isBound hwaits (by rw [hjob]; rfl)] at hbound

/-- No two tasks are bound for a stop. -/
theorem Way.eq_of_isBound (h : Way w []) (ht : t ∈ w.tasks) (ht' : t' ∈ w.tasks)
    (hbound : t.isBound = true) (hbound' : t'.isBound = true) : t = t' :=
  h.eq_of_holdsWay (h.active_of_isBound ht hbound) (h.active_of_isBound ht' hbound')
    ((h.stacked t ht).holdsWay hbound) ((h.stacked t' ht').holdsWay hbound')

/-- Who comes to be there is not bound for a stop. -/
theorem not_isBound_of_isFresh {job : Job} (h : t.IsFresh job) : t.isBound = false := by
  cases h <;> rfl

theorem not_isBound_of_asked {d : Demand} {job : Job} (h : w.job? d = some job) :
    Task.isBound ⟨id, job, []⟩ = false := by
  cases d <;> cases h <;> rfl

/-- Where nobody who is bound for a stop takes a step the player stays where it is. -/
theorem position_choose (hc : ∀ t, w.mover? c = some t → t.isBound = false) :
    (w.choose s c).position = w.position := by
  obtain ⟨t, others, hmover, -, heq⟩ | ⟨-, hw⟩ | ⟨d, -, heq⟩ := choose_cases s w c
  · rw [heq, takeTurn_eq, (position_place _ _ _).1]
    have hbound := hc t hmover
    obtain ⟨hsame, -⟩ | ⟨o, j, es, ys, -, hwaits, -⟩ | ⟨o, j, ys, -, -, hsame⟩ :=
      position_cases (Job.step_effect s { w with ready := others } t.id t.waits t.job)
    · exact hsame
    · simp [Task.isBound, hwaits, Wait.stop?] at hbound
    · exact hsame
  · obtain ⟨_, _, _, _, heq⟩ := hw.eq
    rw [heq]
  · rw [heq]
    exact (position_ask w d).1

/-! ## Whose rules are up -/

/-- Whose rules hold of those of the stops. -/
structure Shown (s : Stage) (w : World) : Prop where
  /-- Nothing is up of a stop while a task is bound for one. -/
  between : ∀ t ∈ w.tasks, t.isBound = true → w.rig .stop = {}
  /-- What is up of a stop is up of the current one. -/
  stop : w.rig .stop = {} ∨ ∃ j : Nat, w.position = j ∧
    Holds s w .stop (stopAt s j).reactions (settingOf s j (stopAt s j))

/-- A task that is bound after a choice was bound before, or left for its stop. -/
private theorem Shown.isBound_choose (h : Shown s w) (hw : Way w []) (ht : t' ∈ (w.choose s c).tasks)
    (hbound : t'.isBound = true) : w.rig .stop = {} ∨ (w.choose s c).rig .stop = {} := by
  cases hw.toNumbered.comes ht with
  | stays hold => exact .inl (h.between t' hold hbound)
  | @steps t others hmover hperm hstep =>
      rcases Task.isBound_step hstep hbound with hbound | ⟨m, j, hjob, hlive, hj⟩
      · exact .inl (h.between t (active_subset_tasks w (mem_active_of_mover? hmover)) hbound)
      · exact .inr (rig_of_leaves hmover hjob hlive hj)
  | starts _ hfresh => simp [not_isBound_of_isFresh hfresh] at hbound
  | asked _ hjob hnew => simp [hnew, not_isBound_of_asked hjob] at hbound

/-- Every choice shows the rules of one stop at most. -/
theorem Shown.choose (h : Shown s w) (hw : Reachable s w) (c : Choice) : Shown s (w.choose s c) := by
  have hempty : (w.choose s c).rig .stop = {} → Shown s (w.choose s c) :=
    fun hempty => ⟨fun _ _ _ => hempty, .inl hempty⟩
  cases hw.turnover c .stop with
  | keeps hkeeps _ =>
      rcases h.stop with hnone | ⟨j, hj, hholds⟩
      · exact hempty (hkeeps.rig.trans hnone)
      · refine ⟨fun t ht hbound => ?_, ?_⟩
        · rcases h.isBound_choose hw.way ht hbound with hnone | hnone
          · exact hkeeps.rig.trans hnone
          · exact hnone
        · by_cases hmover : ∃ t, w.mover? c = some t ∧ t.isBound = true
          · obtain ⟨t, hmover, hbound⟩ := hmover
            have hmem := active_subset_tasks w (mem_active_of_mover? hmover)
            exact .inl (hkeeps.rig.trans (h.between t hmem hbound))
          · refine .inr ⟨j, ?_, hholds.keeps hkeeps⟩
            rw [position_choose fun t ht => Bool.eq_false_iff.mpr fun hb => hmover ⟨t, ht, hb⟩, hj]
  | ends _ _ hnone => exact hempty hnone
  | leaves hmover hjob hlive hj => exact hempty (rig_of_leaves hmover hjob hlive hj)
  | @arrives t o j es ys hmover hjob hwaits =>
      have hmem := active_subset_tasks w (mem_active_of_mover? hmover)
      have hbound : t.isBound = true :=
        Task.isBound_eq_true.mpr (.inr ⟨.arrived j es, by simp [hwaits], rfl⟩)
      refine ⟨fun t' ht' hbound' => ?_,
        .inr ⟨j, hw.holds_of_arrives hmover hjob hwaits (h.between t hmem hbound)⟩⟩
      -- There was no other task on its way to a stop, and this one has reached it
      cases hw.way.toNumbered.comes ht' with
      | stays hold hother =>
          have hsame := hw.way.eq_of_isBound hmem hold hbound hbound'
          exact absurd (hsame ▸ rfl) (hother t hmover)
      | @steps u others hmover' _ hstep =>
          cases hmover.symm.trans hmover'
          simp [Task.not_isBound_of_arrived (hw.way.stacked t hmem) hjob hwaits hstep] at hbound'
      | starts _ hfresh => simp [not_isBound_of_isFresh hfresh] at hbound'
      | asked _ hjob hnew => simp [hnew, not_isBound_of_asked hjob] at hbound'

end World

/-! ## Along a transition -/

/-- Whether a transition has reached its stop, by its job and the waits above the way. -/
def Leg.isReached (job : Job) (above : List Wait) : Bool :=
  match job, above with
  | _, [.concluded .completed] => true
  | .ended .completed, [] => true
  | _, _ => false

namespace Leg

variable {s : Stage} {j : Nat} {origin : Int} {before : Option ActionError} {l : Logbook}
  {w : World} {job : Job} {above : List Wait}

/-- On top of a part of the way before the stop, the stop is not reached. -/
private theorem not_isReached {top : List Wait} {x : Wait} (hx : x.stop?.isSome = true) :
    isReached job (top ++ [x]) = false := by
  unfold isReached
  split
  · rename_i heq
    cases top with
    | nil =>
        cases heq
        cases hx
    | cons y ys => cases ys <;> cases heq
  · rename_i heq
    cases top <;> cases heq
  · rfl

/-- Actions at work on top of a part of the way before the stop do not reach it. -/
private theorem batch_isReached {policy : ErrorPolicy} {all done : List Action} {os : List Outcome}
    {top : List Wait} {x : Wait} (hx : x.stop?.isSome = true) (hno : ∀ j es, x ≠ .arrived j es)
    (hbatch : Batch policy all done os job top) (hgo : job.isEnded = true → top ≠ []) (s : Stage)
    (w : World) (id : Nat) (ys : List Wait) :
    ∃ job' above', (job.step s w id (top ++ x :: .journey :: ys)).2.left? =
        some (job', above' ++ .journey :: ys) ∧
      (isReached job' above' = true ↔
        isReached job (top ++ [x]) = true ∨ ∃ o es, job = .ended o ∧ top ++ [x] = [.arrived j es]) := by
  obtain ⟨job', top', -, hturn⟩ := hbatch.step s w id (x :: .journey :: ys) hgo (by simp [Wait.isJourney])
  refine ⟨job', top' ++ [x], by simpa using hturn, ?_⟩
  rw [not_isReached hx, not_isReached hx]
  refine iff_of_false (by simp) ?_
  rintro (h | ⟨o, es, -, h⟩)
  · cases h
  · cases top with
    | nil =>
        cases h
        exact hno _ _ rfl
    | cons y zs => cases zs <;> cases h

/-- In a step of a transition the stop is reached just when an arrival is made, or was made before. -/
theorem step_isReached (id : Nat) (ys : List Wait) (h : Leg s j origin before l w job above)
    (hquiet : job.IsQuiet) (hgo : job.isEnded = true → above ≠ []) :
    ∃ job' above', (job.step s w id (above ++ .journey :: ys)).2.left? =
        some (job', above' ++ .journey :: ys) ∧
      (isReached job' above' = true ↔
        isReached job above = true ∨ ∃ o es, job = .ended o ∧ above = [.arrived j es]) := by
  -- Where all are told before the transition goes on, the job stays above its wait
  have htold : ∀ {x : Wait}, above = [x] → job.isTelling = true → job.isEnded = false →
      ∃ job' above', (job.step s w id (above ++ .journey :: ys)).2.left? =
          some (job', above' ++ .journey :: ys) ∧
        (isReached job' above' = true ↔
          isReached job above = true ∨ ∃ o es, job = .ended o ∧ above = [.arrived j es]) := by
    rintro x rfl htelling hended
    obtain ⟨job', hturn, -⟩ := step_telling s w id ([x] ++ .journey :: ys) htelling hquiet hended
    refine ⟨job', [x], hturn, ?_⟩
    have hjob : ∀ o, job ≠ .ended o := by
      rintro o rfl
      cases hended
    cases x with
    | concluded o => cases o <;> simp [isReached, hjob]
    | _ => simp [isReached, hjob]
  cases h with
  | @clearing _ done os _ top _ _ hbatch =>
      by_cases hended : job.isEnded = true ∧ top = []
      · obtain ⟨hjob, rfl⟩ := hended
        obtain ⟨o, rfl⟩ := Job.eq_ended hjob
        obtain ⟨-, -, -, rfl⟩ | ⟨hpolicy, -⟩ := hbatch.ended
        · exact ⟨_, [], rfl, by simp [isReached]⟩
        · cases hpolicy
      · rw [List.append_assoc]
        exact batch_isReached rfl (by simp) hbatch (fun h htop => hended ⟨h, htop⟩) s w id ys
  | @settling _ n =>
      cases n with
      | zero => exact ⟨_, [.entered j], rfl, by simp [isReached]⟩
      | succ n =>
          refine ⟨.settle j n, [], ?_, by simp [isReached]⟩
          simp only [Job.step, World.settle]
          split <;> rfl
  | @acting _ _ _ top _ _ _ hbatch =>
      by_cases hended : job.isEnded = true ∧ top = []
      · obtain ⟨hjob, rfl⟩ := hended
        obtain ⟨o, rfl⟩ := Job.eq_ended hjob
        obtain ⟨-, -, -, rfl⟩ | ⟨-, ⟨e, rfl⟩ | ⟨c, rfl⟩, -⟩ := hbatch.ended
        · exact ⟨_, [.arrived j _], rfl, by simp [isReached]⟩
        · exact ⟨_, [.concluded (.failed e)], rfl, by simp [isReached]⟩
        · exact ⟨_, [], rfl, by simp [isReached]⟩
      · rw [List.append_assoc]
        exact batch_isReached rfl (by simp) hbatch (fun h htop => hended ⟨h, htop⟩) s w id ys
  | telling _ htelling =>
      cases hended : job.isEnded with
      | false => exact htold rfl htelling hended
      | true =>
          obtain ⟨o, rfl⟩ := Job.eq_ended hended
          exact ⟨_, [.concluded .completed], rfl, by simp [isReached]⟩
  | arriving _ htelling =>
      cases hended : job.isEnded with
      | false => exact htold rfl htelling hended
      | true =>
          obtain ⟨o, rfl⟩ := Job.eq_ended hended
          exact ⟨_, [], rfl, by simp [isReached]⟩
  | halting _ htelling =>
      cases hended : job.isEnded with
      | false => exact htold rfl htelling hended
      | true =>
          obtain ⟨o, rfl⟩ := Job.eq_ended hended
          exact ⟨_, [], rfl, by simp [isReached]⟩
  | landed => exact absurd rfl (hgo rfl)

/-- An arrival on the way to a stop is one at that stop. -/
theorem eq_of_arrived {o : Outcome} {i : Nat} {es : List ActionError} {ys zs : List Wait}
    (h : Leg s j origin before l w (.ended o) above)
    (hwaits : above ++ .journey :: ys = .arrived i es :: zs) : i = j ∧ above = [.arrived j es] := by
  -- Work has waits of its own kind only, and what it is on top of is none
  have hwork : ∀ {top : List Wait} {x : Wait}, (∀ y ∈ top, y.isInner = true) →
      (∀ i es, x ≠ .arrived i es) → (top ++ [x]) ++ .journey :: ys = .arrived i es :: zs → False := by
    intro top x htop hx heq
    cases top with
    | nil =>
        cases heq
        exact hx _ _ rfl
    | cons y _ =>
        cases heq
        cases htop _ List.mem_cons_self
  generalize Job.ended o = job at h
  cases h with
  | clearing top _ _ hbatch => exact absurd hwaits (hwork hbatch.isInner (by simp))
  | acting top _ _ _ hbatch => exact absurd hwaits (hwork hbatch.isInner (by simp))
  | telling =>
      cases hwaits
      exact ⟨rfl, rfl⟩
  | _ => cases hwaits

end Leg

namespace World

variable {s : Stage} {w : World} {t : Task} {c : Choice} {id j : Nat} {origin : Int}
  {before : Option ActionError} {l : Logbook} {ys : List Wait}

/-- What is up of a stop along a transition to the stop at `j`: nothing until it is reached, and its
rules from then on, unless the player ends. -/
def OnWay (s : Stage) (j id : Nat) (ys : List Wait) (w : World) : Prop :=
  ∀ job above, ⟨id, job, above ++ .journey :: ys⟩ ∈ w.active →
    if Leg.isReached job above then
      w.destroyed = true ∨ Holds s w .stop (stopAt s j).reactions (settingOf s j (stopAt s j))
    else w.rig .stop = {}

/-- Where a task is that has left. -/
private theorem depart_turn {m : Move} {waits : List Wait} (hlive : w.destroyed = false)
    (hj : w.target? s m = some j) : (Job.step s w id waits (.depart m)).2 =
      .go (.run { settingOf s j (stopAt s j) with policy := .continueOnError } none [clearAction] [])
        (.cleared j :: waits) := by
  simp only [Job.step, depart, hlive, hj, Bool.false_eq_true, if_false]

/-- A task that leaves takes down what is up of a stop. -/
theorem OnWay.start {i : Nat} {m : Move} (hw : Reachable s w)
    (ht : w.ready[i]? = some ⟨id, .depart m, .journey :: ys⟩) (hlive : w.destroyed = false)
    (hj : w.target? s m = some j) : OnWay s j id ys (w.choose s (.turn i)) := by
  intro job above hmem
  obtain ⟨others, hstep⟩ := hw.way.toNumbered.steps_of_mover (c := .turn i) ht
    (active_subset_tasks _ hmem) rfl
  rw [depart_turn (w := { w with ready := others }) hlive hj] at hstep
  simp only [Turn.task?, Option.some.injEq, Task.mk.injEq, true_and] at hstep
  obtain ⟨rfl, hwaits⟩ := hstep
  have habove : above = [.cleared j] :=
    (List.append_cancel_right (show [.cleared j] ++ .journey :: ys = _ from hwaits)).symm
  rw [habove]
  exact rig_of_leaves (c := .turn i) ht rfl hlive hj

/-- The stop is reached, or has been, when a transition takes a step; or it is not, and nothing is
up. -/
private theorem OnWay.turn (hw : Reachable s w) {job job' : Job} {above above' : List Wait}
    (hleg : Leg s j origin before l w job above)
    (hmover : w.mover? c = some ⟨id, job, above ++ .journey :: ys⟩)
    (hnow : if Leg.isReached job above then
      w.destroyed = true ∨ Holds s w .stop (stopAt s j).reactions (settingOf s j (stopAt s j))
    else w.rig .stop = {})
    (hiff : Leg.isReached job' above' = true ↔
      Leg.isReached job above = true ∨ ∃ o es, job = .ended o ∧ above = [.arrived j es]) :
    if Leg.isReached job' above' then
      (w.choose s c).destroyed = true ∨
        Holds s (w.choose s c) .stop (stopAt s j).reactions (settingOf s j (stopAt s j))
    else (w.choose s c).rig .stop = {} := by
  cases hreached' : Leg.isReached job' above' with
  | true =>
      rw [if_pos rfl]
      rcases hiff.mp hreached' with hreached | ⟨o, es, rfl, rfl⟩
      · rw [hreached, if_pos rfl] at hnow
        rcases hnow with hend | hholds
        · exact .inl (destroyed_choose hend)
        · cases hw.turnover c .stop with
          | keeps hkeeps _ => exact .inr (hholds.keeps hkeeps)
          | ends _ hend _ => exact .inl hend
          | leaves hmover' hjob _ _ =>
              -- Who is about to leave has nothing above the way
              cases hmover.symm.trans hmover'
              obtain ⟨zs, hwaits⟩ :=
                (hw.way.stacked _ (active_subset_tasks w (mem_active_of_mover? hmover))).job (by
                  rw [hjob]
                  rfl)
              cases hjob
              unfold Leg.isReached at hreached
              split at hreached
              · cases hwaits
              · rename_i hended
                cases hended
              · cases hreached
          | arrives hmover' hjob hwaits =>
              cases hmover.symm.trans hmover'
              cases hjob
              rw [(hleg.eq_of_arrived hwaits).2] at hreached
              simp [Leg.isReached] at hreached
      · exact .inr (hw.holds_of_arrives hmover rfl rfl hnow).2
  | false =>
      rw [hreached'] at hiff
      have hno : Leg.isReached job above = false :=
        Bool.eq_false_iff.mpr fun h => absurd (hiff.mpr (.inl h)) (by simp)
      rw [hno] at hnow
      have hempty : w.rig .stop = {} := hnow
      show (w.choose s c).rig .stop = {}
      cases hw.turnover c .stop with
      | keeps hkeeps _ => exact hkeeps.rig.trans hempty
      | ends _ _ hnone => exact hnone
      | leaves hmover' hjob hlive hj => exact rig_of_leaves hmover' hjob hlive hj
      | arrives hmover' hjob hwaits =>
          cases hmover.symm.trans hmover'
          cases hjob
          obtain ⟨-, habove⟩ := hleg.eq_of_arrived hwaits
          exact absurd (hiff.mpr (.inr ⟨_, _, rfl, habove⟩)) (by simp)

/-- Every choice leads a transition on, unless it has ended. -/
theorem OnWay.choose (h : OnWay s j id ys w) (hon : OnLeg s j origin before id ys l w)
    (hno : ∀ o, ¬ w.HasLanded id o) : OnWay s j id ys (w.choose s c) := by
  obtain ⟨job, above, hmem, hleg⟩ := hon.leg
  have hw := hon.reachable
  have hnow := h job above hmem
  have hholds : Task.HoldsWay ⟨id, job, above ++ .journey :: ys⟩ :=
    ⟨by simp [Wait.isJourney], leg_ne_seek hleg⟩
  have htask := active_subset_tasks w hmem
  intro job' above' hmem'
  by_cases hmine : ∃ u, w.mover? c = some u ∧ u.id = id
  · -- The task itself takes a step
    obtain ⟨u, hmover, hid⟩ := hmine
    have hsame : u = ⟨id, job, above ++ .journey :: ys⟩ :=
      hw.way.eq_of_id (active_subset_tasks w (mem_active_of_mover? hmover)) htask hid
    subst hsame
    refine OnWay.turn hw hleg hmover hnow ?_
    obtain ⟨others, hstep⟩ := hw.way.toNumbered.steps_of_mover hmover (active_subset_tasks _ hmem') rfl
    have hquiet : job.IsQuiet := hw.isPrivate.tasks ⟨id, job, above ++ .journey :: ys⟩ htask
    have hgo : job.isEnded = true → above ≠ [] := by
      rintro hended rfl
      obtain ⟨o, rfl⟩ := Job.eq_ended hended
      exact hno o ⟨ys, hmem⟩
    have hleg' : Leg s j origin before l { w with ready := others } job above :=
      leg_of_position hleg rfl rfl
    obtain ⟨job'', above'', hturn, hiff⟩ := Leg.step_isReached id ys hleg' hquiet hgo
    have heq := Option.some.inj ((Turn.task?_of_left? hturn id).symm.trans hstep)
    simp only [Task.mk.injEq, true_and, List.append_cancel_right_eq] at heq
    rwa [← heq.1, ← heq.2]
  · -- Somebody else does, or nobody
    have hother : ∀ u, w.mover? c = some u → u.id ≠ id := fun u hu hid => hmine ⟨u, hu, hid⟩
    have hsame := hw.way.toNumbered.stays_of_not_mover htask hother (active_subset_tasks _ hmem') rfl
    simp only [Task.mk.injEq, true_and, List.append_cancel_right_eq] at hsame
    rw [hsame.1, hsame.2]
    have hnobody : ∀ u, w.mover? c = some u → ¬ u.HoldsWay := fun u hu hway =>
      hother u hu (congrArg Task.id (hw.way.eq_of_holdsWay (mem_active_of_mover? hu) hmem hway hholds))
    have hstacked := fun u hu => hw.way.stacked u (active_subset_tasks w (@mem_active_of_mover? w u c hu))
    cases hw.turnover c .stop with
    | keeps hkeeps hdestroyed =>
        split
        · rename_i hreached
          rw [if_pos hreached] at hnow
          exact hnow.imp (fun hend => hdestroyed.trans hend) fun hholds => hholds.keeps hkeeps
        · rename_i hreached
          rw [if_neg hreached] at hnow
          exact hkeeps.rig.trans hnow
    | ends _ hend hnone =>
        split
        · exact .inl hend
        · exact hnone
    | leaves hmover hjob _ _ =>
        obtain ⟨zs, hwaits⟩ := (hstacked _ hmover).job (by rw [hjob]; rfl)
        exact absurd ⟨by simp [hwaits, Wait.isJourney], by simp [hjob]⟩ (hnobody _ hmover)
    | arrives hmover hjob hwaits =>
        refine absurd ((hstacked _ hmover).holdsWay ?_) (hnobody _ hmover)
        exact Task.isBound_eq_true.mpr (.inr ⟨_, by rw [hwaits]; exact List.mem_cons_self, rfl⟩)

/-- What has ended does not begin again along a transition. -/
theorem Underway.destroyed {w' : World} (h : Underway s id w w' l) (hend : w.destroyed = true) :
    w'.destroyed = true := by
  induction h with
  | start => exact hend
  | go c _ _ ih => exact destroyed_choose ih

/-- Who has landed is where the leg ends. -/
theorem OnLeg.eq_of_landed {o : Outcome} {zs : List Wait} (hon : OnLeg s j origin before id ys l w)
    (hlanded : ⟨id, .ended o, .journey :: zs⟩ ∈ w.active) : zs = ys := by
  obtain ⟨job, above, hmem, -⟩ := hon.leg
  have hway := hon.reachable.way
  have htask := active_subset_tasks w hmem
  have hsame := hway.eq_of_id (t := ⟨id, .ended o, .journey :: zs⟩)
    (active_subset_tasks w hlanded) htask rfl
  simp only [Task.mk.injEq, true_and] at hsame
  obtain ⟨-, hwaits⟩ := hsame
  have hnone : above = [] := by
    by_contra hne
    exact (hway.stacked _ htask).ne_journey (by simp [Wait.isJourney]) hne zs hwaits.symm
  simpa [hnone] using hwaits

/-- When a transition is complete the rules of its stop are up, unless the player has ended; when it was
given up nothing is up of a stop. -/
theorem OnWay.landed {o : Outcome} (h : OnWay s j id ys w)
    (hon : OnLeg s j origin before id ys l w) (hlanded : w.HasLanded id o) :
    if o = .completed then
      w.destroyed = true ∨ Holds s w .stop (stopAt s j).reactions (settingOf s j (stopAt s j))
    else w.rig .stop = {} := by
  obtain ⟨zs, hlanded⟩ := hlanded
  have hnow := h (.ended o) [] (hon.eq_of_landed hlanded ▸ hlanded)
  cases o <;> exact hnow

end World

end DiagramTour
