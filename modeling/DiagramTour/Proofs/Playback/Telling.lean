import DiagramTour.Proofs.Playback.Tasks

/-!
# What is told

The journal of a player grows by what each step writes down, and a notice is announced only by a
step that is at an announcement.  Nobody but the player announces on its bus: a subscriber of a
player has no response that does.

## Architecture

- `Job.announces` is what a step announces, and `Job.step_tells` says that this is what gets into the
  journal.
- `Delivery.IsQuiet` holds of deliveries that are announcements of the player itself, or lead to none.
- `World.Private`: all that is delivered is quiet, and so are all subscribers.
-/

namespace DiagramTour

/-- The notice of a record of an announcement. -/
def Record.notice? : Record → Option Notice
  | .announced n => some n
  | _ => none

/-- The notices that the first step of a job announces. -/
def Job.announces : Job → List Notice
  | .deliver (.announce n :: _) => [n]
  | _ => []

/-- What a step writes down, and whom it subscribes. -/
structure Job.Tells (job : Job) (w w' : World) : Prop where
  journal : ∃ records, w'.journal = w.journal ++ records ∧
    records.filterMap Record.notice? = job.announces
  subscribers : ∀ sub ∈ w'.bus.subscribers, sub ∈ w.bus.subscribers ∨
    ∃ label topic rest, job = .deliver (.respond (.subscribe label topic sub.responses) :: rest)

namespace Job.Tells

variable {job : Job} {w w' : World}

/-- A step that announces nothing. -/
theorem silent (records : List Record) (hjob : job.announces = [])
    (hjournal : w'.journal = w.journal ++ records)
    (hrecords : records.filterMap Record.notice? = [])
    (hbus : ∀ sub ∈ w'.bus.subscribers, sub ∈ w.bus.subscribers) : Tells job w w' :=
  ⟨⟨records, hjournal, hrecords.trans hjob.symm⟩, fun sub hsub => .inl (hbus sub hsub)⟩

theorem nothing (hjob : job.announces = []) (hjournal : w'.journal = w.journal)
    (hbus : w'.bus = w.bus) : Tells job w w' :=
  silent [] hjob (by simpa using hjournal) rfl fun _ hsub => hbus ▸ hsub

end Job.Tells

namespace Bus

theorem subscribers_release (b : Bus) (label : String) :
    ∀ sub ∈ (b.release label).subscribers, sub ∈ b.subscribers := by
  intro sub hsub
  unfold release at hsub
  split at hsub
  · exact (List.mem_filter.mp hsub).1
  · exact hsub

end Bus

namespace World

variable {s : Stage} {w : World} {waits : List Wait}

theorem destroy_tells (w : World) :
    w.destroy.journal = w.journal ∧ ∀ sub ∈ w.destroy.bus.subscribers, sub ∈ w.bus.subscribers := by
  unfold destroy
  split
  · exact ⟨rfl, fun _ h => h⟩
  · simp [release_eq, Bus.clear]

theorem bind_tells (p : Part) (rs : List Reaction) (setting : Setting) :
    (w.bind s p rs setting).journal = w.journal ∧ (w.bind s p rs setting).bus = w.bus := by
  rw [bind_eq]
  exact ⟨rfl, rfl⟩

theorem handOver_tells (w : World) : w.handOver.journal = w.journal ∧ w.handOver.bus = w.bus := by
  unfold handOver
  split <;> exact ⟨rfl, rfl⟩

private theorem deliver_tells (ds : List Delivery) :
    Job.Tells (.deliver ds) w (w.deliver waits ds).1 := by
  match ds with
  | [] => exact .nothing rfl rfl rfl
  | .announce n :: rest => exact ⟨⟨[.announced n], rfl, rfl⟩, fun _ h => .inl h⟩
  | .hear sub n :: rest => exact .silent [.heard sub.label n] rfl rfl rfl fun _ h => h
  | .respond response :: rest =>
      cases response with
      | subscribe label topic responses =>
          refine ⟨⟨[], by simp [deliver], rfl⟩, fun sub hsub => ?_⟩
          rcases List.mem_append.mp hsub with hold | hnew
          · exact .inl hold
          · cases List.mem_singleton.mp hnew
            exact .inr ⟨label, topic, rest, rfl⟩
      | unsubscribe label =>
          exact .silent [] rfl (by simp [deliver]) rfl
            (w.bus.subscribers_release label)
      | clear =>
          exact .silent [] rfl (by simp [deliver]) rfl fun _ h => by cases h
      | announce n => exact .nothing rfl rfl rfl
      | review next => exact .nothing rfl rfl rfl
      | destroy =>
          obtain ⟨hjournal, hbus⟩ := w.destroy_tells
          exact .silent [] rfl (by simpa [deliver] using hjournal) rfl hbus

end World

private theorem Command.step_tells {s : Stage} {w : World} {waits : List Wait} (kind : String)
    (c : Command) (next : c.Reply → Behaviour) :
    Job.Tells (.act kind (.perform c next)) w (c.step s w waits kind next).1 := by
  cases c with
  | destroy =>
      obtain ⟨hjournal, hbus⟩ := w.destroy_tells
      exact .silent [] rfl (by simpa [Command.step] using hjournal) rfl hbus
  | unsubscribe label =>
      exact .silent [] rfl (by simp [Command.step]) rfl
        (w.bus.subscribers_release label)
  | resetCamera =>
      simp only [Command.step]
      split <;> exact .nothing rfl rfl rfl
  | clearOverlay =>
      simp only [Command.step]
      split <;> exact .nothing rfl rfl rfl
  | note j => exact .silent [.noted j] rfl rfl rfl fun _ h => h
  | _ => exact .nothing rfl rfl rfl

private theorem Wait.resume_tells {s : Stage} {w : World} {waits : List Wait} (o : Outcome)
    (wait : Wait) : Job.Tells (.ended o) w (wait.resume s w waits o).1 := by
  cases wait with
  | handled kind setting event actions errors =>
      cases o <;> simp only [Wait.resume] <;> try split
      all_goals exact .nothing rfl rfl rfl
  | report outlet =>
      have hunheeded : ∀ es : List ActionError,
          (es.map Record.unheeded).filterMap Record.notice? = [] := by
        intro es
        simp [Record.notice?]
      cases o with
      | collected es =>
          cases outlet with
          | announce => exact .nothing rfl rfl rfl
          | record => exact .silent _ rfl rfl (hunheeded es) fun _ h => h
      | failed e =>
          cases outlet with
          | announce => exact .nothing rfl rfl rfl
          | record => exact .silent _ rfl rfl (hunheeded [e]) fun _ h => h
      | _ => exact .nothing rfl rfl rfl
  | opened =>
      simp only [Wait.resume, World.opened]
      split <;> exact .nothing rfl (World.bind_tells _ _ _).1 (World.bind_tells _ _ _).2
  | arrived index errors =>
      exact .nothing rfl (World.bind_tells _ _ _).1 (World.bind_tells _ _ _).2
  | journey => exact .nothing rfl w.handOver_tells.1 w.handOver_tells.2
  | concluded outcome => exact .nothing rfl rfl rfl
  | _ => cases o <;> exact .nothing rfl rfl rfl

/-- What a step writes down is what its job announces, and things that are no announcements. -/
theorem Job.step_tells (s : Stage) (w : World) (id : Nat) (waits : List Wait) (job : Job) :
    Job.Tells job w (job.step s w id waits).1 := by
  cases job with
  | run setting event actions errors =>
      cases actions with
      | nil => exact .nothing rfl rfl rfl
      | cons a rest =>
          simp only [Job.step, World.runActions]
          split
          · exact .nothing rfl rfl rfl
          · exact .silent [.called _] rfl rfl rfl fun _ h => h
  | act kind behaviour =>
      cases behaviour with
      | perform c next => exact Command.step_tells kind c next
      | _ => exact .nothing rfl rfl rfl
  | fire event listeners total =>
      cases listeners with
      | nil => exact .nothing rfl rfl rfl
      | cons l rest =>
          simp only [Job.step, World.fire]
          split <;> exact .nothing rfl rfl rfl
  | deliver ds => exact World.deliver_tells ds
  | travel m =>
      simp only [Job.step, World.travel]
      split
      · split <;> exact .nothing rfl rfl rfl
      · exact .nothing rfl rfl rfl
  | seek m =>
      simp only [Job.step, World.seek]
      split <;> exact .nothing rfl rfl rfl
  | depart m =>
      simp only [Job.step, World.depart]
      split
      · exact .nothing rfl rfl rfl
      · split
        · exact .nothing rfl rfl rfl
        · rename_i j hj
          obtain ⟨_, _, heq⟩ := (w.release .stop).tidy_eq (s := s) (World.stopAt s j)
          rw [heq, World.release_eq]
          exact .nothing rfl rfl rfl
  | settle j n =>
      cases n with
      | zero => exact .nothing rfl rfl rfl
      | succ n =>
          simp only [Job.step, World.settle]
          split <;> exact .nothing rfl rfl rfl
  | ended o =>
      cases waits with
      | nil => exact .nothing rfl rfl rfl
      | cons wait waits => exact Wait.resume_tells o wait
  | _ => exact .nothing rfl rfl rfl

/-! ## What is delivered -/

/-- Whether a notice says that a stop was reached. -/
def Notice.isStepChange : Notice → Bool
  | .stepChange _ => true
  | _ => false

/-- The state that a notice tells when a stop was reached. -/
def Notice.state? : Notice → Option PlayerState
  | .stepChange state => some state
  | _ => none

theorem Notice.state?_eq_none_iff {n : Notice} : n.state? = none ↔ n.isStepChange = false := by
  cases n <;> simp [state?, isStepChange]

theorem Notice.countP_isStepChange (ns : List Notice) :
    ns.countP Notice.isStepChange = (ns.filterMap Notice.state?).length := by
  induction ns with
  | nil => rfl
  | cons n ns ih =>
      cases n <;> simp [List.countP_cons, List.filterMap_cons, isStepChange, state?, ih]

/-- What may be left to deliver after one of some deliveries. -/
inductive Delivery.Follows (w : World) (ds : List Delivery) : Delivery → Prop where
  | rest {d : Delivery} : d ∈ ds → Delivery.Follows w ds d
  | hear {sub : Subscriber} {n : Notice} : sub ∈ w.bus.subscribers →
      Delivery.Follows w ds (.hear sub n)
  | respond {sub : Subscriber} {n : Notice} {r : Response} : .hear sub n ∈ ds → r ∈ sub.responses →
      Delivery.Follows w ds (.respond r)
  | announce {n : Notice} : .respond (.announce n) ∈ ds → Delivery.Follows w ds (.announce n)
  | review {next : List Record → List Response} {r : Response} : .respond (.review next) ∈ ds →
      r ∈ next w.journal → Delivery.Follows w ds (.respond r)

/-- How a step of a job with some waits may lead to deliver something, with other waits. -/
inductive Job.Delivers (w : World) (job : Job) (waits waits' : List Wait) (ds' : List Delivery) :
    Prop where
  /-- Notices are announced; that a stop was reached is the last thing that is announced. -/
  | announce (ns : List Notice) : ds' = ns.map .announce →
      ((∀ n ∈ ns, n.isStepChange = false) ∨ ∃ o ys, waits' = .concluded o :: ys) →
      Job.Delivers w job waits waits' ds'
  | rest (ds : List Delivery) : job = .deliver ds → waits' = waits → (∀ d ∈ ds', d.Follows w ds) →
      Job.Delivers w job waits waits' ds'

theorem Delivery.ofFailures_silent (es : List ActionError) :
    ∀ n ∈ es.flatMap Notice.ofFailure, n.isStepChange = false := by
  intro n hn
  obtain ⟨e, -, hn⟩ := List.mem_flatMap.mp hn
  rcases List.mem_cons.mp hn with rfl | hn
  · rfl
  · cases List.mem_singleton.mp hn
    rfl

/-- No failure tells that a stop was reached. -/
theorem Delivery.ofFailures_state? (es : List ActionError) :
    (es.flatMap Notice.ofFailure).filterMap Notice.state? = [] :=
  List.filterMap_eq_nil_iff.mpr fun n hn =>
    Notice.state?_eq_none_iff.mpr (Delivery.ofFailures_silent es n hn)

namespace World

variable {s : Stage} {w : World} {waits : List Wait} {t : Task} {ds' : List Delivery}

private theorem deliver_delivers {ds : List Delivery} {id : Nat}
    (ht : (w.deliver waits ds).2.task? id = some t) (hjob : t.job = .deliver ds') :
    Job.Delivers w (.deliver ds) waits t.waits ds' := by
  match ds with
  | [] =>
      cases ht
      cases hjob
  | .announce n :: rest =>
      cases ht
      cases hjob
      refine .rest _ rfl rfl fun d hd => ?_
      rcases List.mem_append.mp hd with hd | hd
      · obtain ⟨sub, hsub, rfl⟩ := List.mem_map.mp hd
        exact .hear (List.mem_filter.mp hsub).1
      · exact .rest (List.mem_cons_of_mem _ hd)
  | .hear sub n :: rest =>
      cases ht
      cases hjob
      refine .rest _ rfl rfl fun d hd => ?_
      rcases List.mem_append.mp hd with hd | hd
      · obtain ⟨r, hr, rfl⟩ := List.mem_map.mp hd
        exact .respond List.mem_cons_self hr
      · exact .rest (List.mem_cons_of_mem _ hd)
  | .respond response :: rest =>
      cases response with
      | announce n =>
          cases ht
          cases hjob
          refine .rest _ rfl rfl fun d hd => ?_
          rcases List.mem_cons.mp hd with rfl | hd
          · exact .announce List.mem_cons_self
          · exact .rest (List.mem_cons_of_mem _ hd)
      | review next =>
          cases ht
          cases hjob
          refine .rest _ rfl rfl fun d hd => ?_
          rcases List.mem_append.mp hd with hd | hd
          · obtain ⟨r, hr, rfl⟩ := List.mem_map.mp hd
            exact .review List.mem_cons_self hr
          · exact .rest (List.mem_cons_of_mem _ hd)
      | _ =>
          cases ht
          cases hjob
          exact .rest _ rfl rfl fun d hd => .rest (List.mem_cons_of_mem _ hd)

private theorem resume_delivers {o : Outcome} {wait : Wait} {id : Nat}
    (ht : (wait.resume s w waits o).2.task? id = some t) (hjob : t.job = .deliver ds') :
    Job.Delivers w (.ended o) (wait :: waits) t.waits ds' := by
  have hfailures : ∀ (es : List ActionError) (ys : List Wait),
      Job.Delivers w (.ended o) (wait :: waits) ys (Delivery.ofFailures es) := fun es ys =>
    .announce _ rfl (.inl (Delivery.ofFailures_silent es))
  cases wait with
  | handled kind setting event actions errors =>
      cases o <;> simp only [Wait.resume] at ht <;> try split at ht
      all_goals
        cases ht
        cases hjob
  | report outlet =>
      cases o <;> cases outlet <;> cases ht <;> cases hjob <;> exact hfailures _ _
  | opened =>
      simp only [Wait.resume, opened] at ht
      split at ht <;> cases ht <;> cases hjob
  | entered j => cases o <;> cases ht <;> cases hjob <;> exact hfailures _ _
  | arrived j es =>
      cases ht
      cases hjob
      exact .announce [_] rfl (.inr ⟨_, _, rfl⟩)
  | concluded o' =>
      cases ht
      cases hjob
  | journey =>
      cases ht
      cases hjob
  | _ => cases o <;> cases ht <;> cases hjob

/-- A step that leads to deliver something goes on to do so, or begins to announce. -/
theorem step_delivers {u : Task} (ht : (u.job.step s w u.id u.waits).2.task? u.id = some t)
    (hjob : t.job = .deliver ds') : Job.Delivers w u.job u.waits t.waits ds' := by
  obtain ⟨id, job, waits⟩ := u
  cases job with
  | run setting event actions errors =>
      cases actions with
      | nil =>
          cases ht
          cases hjob
      | cons a rest =>
          simp only [Job.step, runActions] at ht
          split at ht <;> cases ht <;> cases hjob
  | act kind behaviour =>
      cases behaviour with
      | perform c next => cases c <;> cases ht <;> cases hjob
      | _ =>
          cases ht
          cases hjob
  | fire event listeners total =>
      cases listeners with
      | nil =>
          cases ht
          cases hjob
      | cons l rest =>
          simp only [Job.step, fire] at ht
          split at ht <;> cases ht <;> cases hjob
  | deliver ds => exact deliver_delivers ht hjob
  | «begin» render =>
      cases ht
      cases hjob
      refine .announce (render.toList.map .render) (by simp) (.inl fun n hn => ?_)
      obtain ⟨payload, -, rfl⟩ := List.mem_map.mp hn
      rfl
  | travel m =>
      simp only [Job.step, travel] at ht
      split at ht <;> cases ht <;> cases hjob
  | seek m =>
      simp only [Job.step, seek] at ht
      split at ht <;> cases ht <;> cases hjob
  | depart m =>
      simp only [Job.step, depart] at ht
      split at ht
      · cases ht
        cases hjob
      · split at ht <;> cases ht <;> cases hjob
  | settle j n =>
      cases n with
      | zero =>
          cases ht
          cases hjob
      | succ n =>
          simp only [Job.step, settle] at ht
          split at ht <;> cases ht <;> cases hjob
  | ended o =>
      cases waits with
      | nil => cases ht
      | cons wait waits => exact resume_delivers ht hjob
  | _ =>
      cases ht
      cases hjob

end World

/-! ## The bus of a player -/

/-- Whether a delivery leads to no announcement but its own. -/
def Delivery.IsQuiet : Delivery → Prop
  | .announce _ => True
  | .hear sub _ => Response.areOutside sub.responses = true
  | .respond response => response.isOutside = true

/-- Whether all that a job delivers is quiet. -/
def Job.IsQuiet : Job → Prop
  | .deliver ds => ∀ d ∈ ds, d.IsQuiet
  | _ => True

/-- That a stop was reached a task announces as the last thing of a move. -/
def Task.TellsLast (t : Task) : Prop :=
  ∀ ds state, t.job = .deliver ds → .announce (.stepChange state) ∈ ds →
    ∃ o ys, t.waits = .concluded o :: ys

/-- Who is not at the end of a move does not announce that a stop was reached. -/
theorem Task.TellsLast.silent {t : Task} (h : t.TellsLast) (hno : ∀ o ys, t.waits ≠ .concluded o :: ys) :
    t.job.announces.filterMap Notice.state? = [] := by
  refine List.filterMap_eq_nil_iff.mpr fun n hn => Notice.state?_eq_none_iff.mpr ?_
  unfold Job.announces at hn
  split at hn
  · rename_i hjob
    cases List.mem_singleton.mp hn
    cases n with
    | stepChange state =>
        obtain ⟨o, ys, hwaits⟩ := h _ state hjob List.mem_cons_self
        exact absurd hwaits (hno o ys)
    | _ => rfl
  · cases hn

theorem Response.isOutside_of_areOutside {responses : List Response}
    (h : Response.areOutside responses = true) : ∀ r ∈ responses, r.isOutside = true := by
  induction responses with
  | nil => simp
  | cons r rs ih =>
      simp only [Response.areOutside, Bool.and_eq_true] at h
      rintro r' (_ | ⟨_, hr⟩)
      · exact h.1
      · exact ih h.2 r' hr

theorem Delivery.isQuiet_announce (ns : List Notice) :
    ∀ d ∈ ns.map Delivery.announce, d.IsQuiet := by
  intro d hd
  obtain ⟨n, -, rfl⟩ := List.mem_map.mp hd
  trivial

namespace World

/-- Nobody announces on the bus of a player but the player. -/
structure Private (w : World) (hand : List Task) : Prop where
  bus : ∀ sub ∈ w.bus.subscribers, Response.areOutside sub.responses = true
  tasks : ∀ t ∈ hand ++ w.tasks, t.job.IsQuiet
  last : ∀ t ∈ hand ++ w.tasks, t.TellsLast

variable {s : Stage} {w : World}

/-- What a step leads to deliver is quiet. -/
theorem quiet_step {t t' : Task}
    (hbus : ∀ sub ∈ w.bus.subscribers, Response.areOutside sub.responses = true)
    (hquiet : t.job.IsQuiet) (ht : (t.job.step s w t.id t.waits).2.task? t.id = some t') :
    t'.job.IsQuiet := by
  cases hjob : t'.job with
  | deliver ds' =>
      intro d hd
      cases step_delivers ht hjob with
      | announce ns hds =>
          rw [hds] at hd
          exact Delivery.isQuiet_announce ns d hd
      | rest ds hds _ hfollows =>
          rw [hds] at hquiet
          cases hfollows d hd with
          | rest hd => exact hquiet d hd
          | hear hsub => exact hbus _ hsub
          | respond hsub hr => exact Response.isOutside_of_areOutside (hquiet _ hsub) _ hr
          | announce _ => trivial
          | review hreview _ => cases hquiet _ hreview
  | _ => trivial

/-- What a step leads to announce last was announced last. -/
private theorem last_step {t t' : Task} (hquiet : t.job.IsQuiet) (hlast : t.TellsLast)
    (ht : (t.job.step s w t.id t.waits).2.task? t.id = some t') : t'.TellsLast := by
  intro ds' state hjob hmem
  cases step_delivers ht hjob with
  | announce ns hds hns =>
      rcases hns with hno | hconcluded
      · rw [hds] at hmem
        obtain ⟨n, hn, heq⟩ := List.mem_map.mp hmem
        cases heq
        cases hno _ hn
      · exact hconcluded
  | rest ds hds hwaits hfollows =>
      rw [hwaits]
      cases hfollows _ hmem with
      | rest hmem => exact hlast ds state hds hmem
      | announce hmem =>
          rw [hds] at hquiet
          cases hquiet _ hmem

/-- A task that delivers nothing announces nothing. -/
private theorem tellsLast_of_isFresh {job : Job} {t : Task} (h : t.IsFresh job) : t.TellsLast := by
  intro ds state hjob
  cases h <;> cases hjob

namespace Private

variable {w' : World} {t : Task}

theorem step (h : Private w [t]) :
    Private ((t.job.step s w t.id t.waits).1.place t.id (t.job.step s w t.id t.waits).2) [] where
  bus sub hsub := by
    have htells := Job.step_tells s w t.id t.waits t.job
    have hbus : sub ∈ (t.job.step s w t.id t.waits).1.bus.subscribers := by
      unfold World.place at hsub
      split at hsub <;> exact hsub
    rcases htells.subscribers sub hbus with hold | ⟨label, topic, rest, hjob⟩
    · exact h.bus sub hold
    · have hquiet := h.tasks t (by simp)
      rw [hjob] at hquiet
      exact hquiet _ List.mem_cons_self
  tasks u hu := by
    rcases List.mem_append.mp ((tasks_place _ _ _).subset hu) with hhand | hu
    · exact quiet_step h.bus (h.tasks t (by simp)) (Option.mem_toList.mp hhand)
    · rcases (Job.step_effect s w t.id t.waits t.job).mem_tasks u hu with hold | ⟨hfresh, -⟩
      · exact h.tasks u (List.mem_append_right _ hold)
      · generalize t.job = job at hfresh
        cases hfresh <;> trivial
  last u hu := by
    rcases List.mem_append.mp ((tasks_place _ _ _).subset hu) with hhand | hu
    · exact last_step (h.tasks t (by simp)) (h.last t (by simp)) (Option.mem_toList.mp hhand)
    · rcases (Job.step_effect s w t.id t.waits t.job).mem_tasks u hu with hold | ⟨hfresh, -⟩
      · exact h.last u (List.mem_append_right _ hold)
      · exact tellsLast_of_isFresh hfresh

theorem ask (h : Private w []) (d : Demand) : Private (w.ask d) [] := by
  have hstart : ∀ {job : Job}, (∀ ds, job ≠ .deliver ds) → Private (w.start job []) [] := by
    intro job hjob
    refine ⟨h.bus, fun t ht => ?_, fun t ht => ?_⟩
    · rcases List.mem_cons.mp ((tasks_start w job []).subset ht) with rfl | hold
      · cases job with
        | deliver ds => exact absurd rfl (hjob ds)
        | _ => trivial
      · exact h.tasks t hold
    · rcases List.mem_cons.mp ((tasks_start w job []).subset ht) with rfl | hold
      · exact fun ds _ hds => absurd hds (hjob ds)
      · exact h.last t hold
  cases d with
  | «begin» render => exact hstart (by simp)
  | move m => exact hstart (by simp)
  | dispatch event => exact hstart (by simp)
  | sleep ms => exact hstart (by simp)
  | subscribe label topic responses =>
      simp only [World.ask]
      split
      · rename_i houtside
        refine ⟨fun sub hsub => ?_, h.tasks, h.last⟩
        rcases List.mem_append.mp hsub with hold | hnew
        · exact h.bus sub hold
        · cases List.mem_singleton.mp hnew
          exact houtside
      · exact h
  | unsubscribe label =>
      exact ⟨fun sub hsub => h.bus sub (w.bus.subscribers_release label sub hsub), h.tasks, h.last⟩
  | destroy =>
      exact ⟨fun sub hsub => h.bus sub (w.destroy_tells.2 sub hsub),
        fun t ht => h.tasks t ((tasks_destroy w).subset ht),
        fun t ht => h.last t ((tasks_destroy w).subset ht)⟩

/-- Every choice keeps the bus of a player private. -/
theorem choose (h : Private w []) (c : Choice) : Private (w.choose s c) [] := by
  refine choose_induction (P := Private) ?_ ?_ ?_ ?_ c h
  · exact fun h hperm => ⟨h.bus, fun u hu => h.tasks u ((tasks_take hperm).symm.subset hu),
      fun u hu => h.last u ((tasks_take hperm).symm.subset hu)⟩
  · exact fun h => h.step
  · intro w w' h hw
    have hsub : w'.tasks ⊆ w.tasks := hw.tasks.subset
    obtain ⟨_, _, _, _, rfl⟩ := hw.eq
    exact ⟨h.bus, fun t ht => h.tasks t (hsub ht), fun t ht => h.last t (hsub ht)⟩
  · exact fun d h => h.ask d

end Private

/-- In every world that can be reached nobody but the player announces on its bus. -/
theorem Reachable.isPrivate (h : Reachable s w) : Private w [] := by
  refine h.induction (P := fun w => Private w []) ?_ fun _ c hw => hw.choose c
  exact ⟨by simp, by simp [tasks, active], by simp [tasks, active]⟩

end World

end DiagramTour
