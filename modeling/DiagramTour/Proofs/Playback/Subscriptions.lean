import DiagramTour.Proofs.Playback.Stint

/-!
# Who hears what

A notice is heard by those who were subscribed to its topic when it was announced, whatever happens while
it is heard: subscribers come and go, announce further notices and end the player, and other tasks take
their turns.  A subscription is ended by its id, which is given once and for all.

## Architecture

- `Bus.Op` is a change of who is subscribed; `Bus.Ordered` and `Bus.Reserves` are kept by every change, and
  `World.bus_follow` says that nothing else happens to the bus of a player.
- `Delivery.parts` is what a piece of work leaves to be done before all else.  `Telling` works off some
  pieces above others turn by turn, and `Telling.split` says that of two lists of pieces the second is
  begun when the first is done.
- `Hears` tells one notice to some subscribers, one after the other.
-/

namespace DiagramTour

/-! ## Subscriptions -/

/-- A change of who is subscribed. -/
inductive Bus.Op where
  | subscribe (label : String) (topic : Topic) (responses : List Response)
  /-- Ends the subscription with an id. -/
  | unsubscribe (id : Nat)
  /-- Ends the subscription that a label stands for. -/
  | release (label : String)
  | clear

namespace Bus

/-- Carries out a change. -/
def change (b : Bus) : Op → Bus
  | .subscribe label topic responses => b.subscribe label topic responses
  | .unsubscribe id => b.unsubscribe id
  | .release label => b.release label
  | .clear => b.clear

/-- Carries out some changes. -/
def changes (b : Bus) (ops : List Op) : Bus :=
  ops.foldl change b

/-- Whether a label stands for the same subscription after a change. -/
def Op.keeps (label : String) : Op → Bool
  | .subscribe label' _ _ | .release label' => label' != label
  | .unsubscribe _ | .clear => true

variable {b : Bus} {id : Nat} {label : String}

@[simp] theorem changes_nil : b.changes [] = b := rfl

@[simp] theorem changes_cons (op : Op) (ops : List Op) :
    b.changes (op :: ops) = (b.change op).changes ops := rfl

theorem changes_append (ops ops' : List Op) :
    b.changes (ops ++ ops') = (b.changes ops).changes ops' := List.foldl_append

/-- What holds of a bus and is kept by every change holds after all of them. -/
theorem changes_induction {P : Bus → Prop} (hstep : ∀ b op, P b → P (b.change op)) :
    ∀ (ops : List Op) {b : Bus}, P b → P (b.changes ops)
  | [], _, h => h
  | op :: ops, _, h => changes_induction hstep ops (hstep _ op h)

/-- A change adds the next subscription at the end, or takes some away. -/
theorem change_cases (b : Bus) (op : Op) :
    (∃ label topic responses, op = .subscribe label topic responses) ∨
    ((b.change op).subscribers.Sublist b.subscribers ∧ (b.change op).labels ⊆ b.labels ∧
      (b.change op).next = b.next) := by
  cases op with
  | subscribe label topic responses => exact .inl ⟨label, topic, responses, rfl⟩
  | unsubscribe id => exact .inr ⟨List.filter_sublist, List.Subset.refl _, rfl⟩
  | release label =>
      refine .inr ?_
      simp only [change, release]
      split
      · exact ⟨List.filter_sublist, List.filter_sublist.subset, rfl⟩
      · exact ⟨List.Sublist.refl _, List.Subset.refl _, rfl⟩
  | clear => exact .inr ⟨List.nil_sublist _, List.Subset.refl _, rfl⟩

/-- The ids ascend in the order of the subscriptions, and the next one is above them; a label stands for a
subscription under that label. -/
structure Ordered (b : Bus) : Prop where
  ascending : (b.subscribers.map Subscriber.id).Pairwise (· < ·)
  below : ∀ sub ∈ b.subscribers, sub.id < b.next
  labels : ∀ x ∈ b.labels, x.2 < b.next ∧ ∀ sub ∈ b.subscribers, sub.id = x.2 → sub.label = x.1

theorem Ordered.subscribe (h : Ordered b) (label : String) (topic : Topic) (responses : List Response) :
    Ordered (b.subscribe label topic responses) := by
  refine ⟨?_, fun sub hsub => ?_, fun x hx => ?_⟩
  · simp only [Bus.subscribe, List.map_append, List.pairwise_append]
    refine ⟨h.ascending, List.pairwise_singleton _ _, fun i hi j hj => ?_⟩
    obtain ⟨sub, hsub, rfl⟩ := List.mem_map.mp hi
    rw [List.mem_singleton.mp hj]
    exact h.below sub hsub
  · rcases List.mem_append.mp hsub with hsub | hsub
    · exact Nat.lt_succ_of_lt (h.below sub hsub)
    · rw [List.mem_singleton.mp hsub]
      exact Nat.lt_succ_self _
  · rcases List.mem_cons.mp hx with rfl | hx
    · refine ⟨Nat.lt_succ_self _, fun sub hsub heq => ?_⟩
      rcases List.mem_append.mp hsub with hsub | hsub
      · exact absurd heq (Nat.ne_of_lt (h.below sub hsub))
      · rw [List.mem_singleton.mp hsub]
    · obtain ⟨hlt, hlabel⟩ := h.labels x (List.mem_filter.mp hx).1
      refine ⟨Nat.lt_succ_of_lt hlt, fun sub hsub heq => ?_⟩
      rcases List.mem_append.mp hsub with hsub | hsub
      · exact hlabel sub hsub heq
      · rw [List.mem_singleton.mp hsub] at heq
        exact absurd heq (Nat.ne_of_gt hlt)

theorem Ordered.change (h : Ordered b) (op : Op) : Ordered (b.change op) := by
  rcases change_cases b op with ⟨label, topic, responses, rfl⟩ | ⟨hsubs, hlabels, hnext⟩
  · exact h.subscribe label topic responses
  · refine ⟨h.ascending.sublist (hsubs.map _), fun sub hsub => hnext ▸ h.below sub (hsubs.subset hsub),
      fun x hx => ?_⟩
    obtain ⟨hlt, hlabel⟩ := h.labels x (hlabels hx)
    exact ⟨hnext ▸ hlt, fun sub hsub => hlabel sub (hsubs.subset hsub)⟩

theorem Ordered.changes (h : Ordered b) (ops : List Op) : Ordered (b.changes ops) :=
  changes_induction (fun _ op h => h.change op) ops h

/-- An id has been given to one subscription, and to no other one. -/
structure Reserves (b : Bus) (sub : Subscriber) : Prop where
  given : sub.id < b.next
  only : ∀ other ∈ b.subscribers, other.id = sub.id → other = sub

theorem Reserves.change {sub : Subscriber} (h : Reserves b sub) (op : Op) :
    Reserves (b.change op) sub := by
  rcases change_cases b op with ⟨label, topic, responses, rfl⟩ | ⟨hsubs, -, hnext⟩
  · refine ⟨Nat.lt_succ_of_lt h.given, fun other hother heq => ?_⟩
    rcases List.mem_append.mp hother with hother | hother
    · exact h.only other hother heq
    · rw [List.mem_singleton.mp hother] at heq
      exact absurd heq (Nat.ne_of_gt h.given)
  · exact ⟨hnext ▸ h.given, fun other hother => h.only other (hsubs.subset hother)⟩

theorem Reserves.changes {sub : Subscriber} (h : Reserves b sub) (ops : List Op) :
    Reserves (b.changes ops) sub :=
  changes_induction (P := (Reserves · sub)) (fun _ op h => h.change op) ops h

theorem Ordered.reserves_next (h : Ordered b) (label : String) (topic : Topic)
    (responses : List Response) :
    Reserves (b.subscribe label topic responses) ⟨b.next, label, topic, responses⟩ := by
  refine ⟨Nat.lt_succ_self _, fun other hother heq => ?_⟩
  rcases List.mem_append.mp hother with hother | hother
  · exact absurd heq (Nat.ne_of_lt (h.below other hother))
  · exact List.mem_singleton.mp hother

theorem Ordered.reserves (h : Ordered b) {sub : Subscriber} (hsub : sub ∈ b.subscribers) :
    Reserves b sub := by
  have hnodup : (b.subscribers.map Subscriber.id).Nodup := h.ascending.imp Nat.ne_of_lt
  exact ⟨h.below sub hsub, fun other hother heq => List.inj_on_of_nodup_map hnodup hother hsub heq⟩

/-- Who is unsubscribed by an id is the one it was given to, if that one is still subscribed, and nobody
else. -/
theorem Ordered.unsubscribe_cases {sub : Subscriber} (h : Ordered b) (hsub : Reserves b sub) :
    (sub ∉ b.subscribers ∧ b.unsubscribe sub.id = b) ∨
      ∃ before after, b.subscribers = before ++ sub :: after ∧
        b.unsubscribe sub.id = { b with subscribers := before ++ after } := by
  by_cases hmem : sub ∈ b.subscribers
  · obtain ⟨before, after, hsplit⟩ := List.append_of_mem hmem
    have hasc := h.ascending
    rw [hsplit, List.map_append, List.map_cons, List.pairwise_append, List.pairwise_cons] at hasc
    obtain ⟨-, ⟨hafter, -⟩, hbefore⟩ := hasc
    refine .inr ⟨before, after, hsplit, ?_⟩
    have hkept : (before ++ sub :: after).filter (·.id != sub.id) = before ++ after := by
      rw [List.filter_append, List.filter_cons_of_neg (by simp)]
      congr 1
      · refine List.filter_eq_self.mpr fun other hother => ?_
        have hlt := hbefore _ (List.mem_map_of_mem hother) sub.id List.mem_cons_self
        simpa using Nat.ne_of_lt hlt
      · refine List.filter_eq_self.mpr fun other hother => ?_
        have hlt := hafter _ (List.mem_map_of_mem hother)
        simpa using Nat.ne_of_gt hlt
    rw [unsubscribe, hsplit, hkept]
  · refine .inl ⟨hmem, ?_⟩
    have hall : b.subscribers.filter (·.id != sub.id) = b.subscribers :=
      List.filter_eq_self.mpr fun other hother => by
        simpa using fun heq => hmem (hsub.only other hother heq ▸ hother)
    rw [unsubscribe, hall]

/-- The label of a subscription stands for it until it is given to another one, or released. -/
theorem idOf?_change (h : b.idOf? label = some id) {op : Op} (hop : op.keeps label = true) :
    (b.change op).idOf? label = some id := by
  have hfilter : ∀ label', label' ≠ label →
      (b.labels.filter (·.1 != label')).find? (·.1 == label) = b.labels.find? (·.1 == label) := by
    intro label' hne
    rw [List.find?_filter]
    congr 1
    funext x
    by_cases hx : x.1 = label
    · simp [hx, Ne.symm hne]
    · simp [hx]
  cases op with
  | subscribe label' topic responses =>
      have hne : label' ≠ label := by simpa [Op.keeps] using hop
      rw [← h]
      simp [change, subscribe, idOf?, hne, hfilter label' hne]
  | unsubscribe i => exact h
  | release label' =>
      have hne : label' ≠ label := by simpa [Op.keeps] using hop
      simp only [change, release]
      split
      · rw [← h]
        simp [idOf?, hfilter label' hne]
      · exact h
  | clear => exact h

theorem idOf?_changes {ops : List Op} (h : b.idOf? label = some id)
    (hops : ∀ op ∈ ops, op.keeps label = true) : (b.changes ops).idOf? label = some id := by
  induction ops generalizing b with
  | nil => exact h
  | cons op ops ih =>
      exact ih (idOf?_change h (hops op List.mem_cons_self))
        fun op hop => hops op (List.mem_cons_of_mem _ hop)

theorem idOf?_subscribe (topic : Topic) (responses : List Response) :
    (b.subscribe label topic responses).idOf? label = some b.next := by
  simp [subscribe, idOf?]

theorem subscribers_release_of_idOf? (h : b.idOf? label = some id) :
    (b.release label).subscribers = (b.unsubscribe id).subscribers := by
  simp [release, h]

/-- Releasing a label ends one subscription under that label, or none. -/
theorem Ordered.release_cases (h : Ordered b) (label : String) :
    (b.release label).subscribers = b.subscribers ∨
      ∃ before sub after, sub.label = label ∧ b.subscribers = before ++ sub :: after ∧
        (b.release label).subscribers = before ++ after := by
  cases hid : b.idOf? label with
  | none => exact .inl (by simp [release, hid])
  | some id =>
      obtain ⟨x, hfind, rfl⟩ := Option.map_eq_some_iff.mp hid
      have hlabel : x.1 = label := by simpa using List.find?_some hfind
      rw [subscribers_release_of_idOf? hid]
      by_cases hsub : ∃ sub ∈ b.subscribers, sub.id = x.2
      · obtain ⟨sub, hmem, heq⟩ := hsub
        rcases h.unsubscribe_cases (h.reserves hmem) with ⟨hno, -⟩ | ⟨before, after, hsplit, hrest⟩
        · exact absurd hmem hno
        · refine .inr ⟨before, sub, after, ?_, hsplit, by rw [← heq, hrest]⟩
          exact ((h.labels x (List.mem_of_find?_eq_some hfind)).2 sub hmem heq).trans hlabel
      · refine .inl (List.filter_eq_self.mpr fun sub hmem => ?_)
        simpa using fun heq => hsub ⟨sub, hmem, heq⟩

end Bus

/-! ## Work that an announcement makes -/

/-- Whether a response leads to nothing else. -/
def Response.isPlain : Response → Bool
  | .announce _ | .review _ => false
  | _ => true

namespace Delivery

/-- What a piece of work leaves to be done before all that was left. -/
def parts (w : World) : Delivery → List Delivery
  | .announce n => (w.bus.audience n.topic).map (.hear · n)
  | .hear sub _ => sub.responses.map .respond
  | .respond (.announce n) => [.announce n]
  | .respond (.review next) => (next w.journal).map .respond
  | .respond _ => []

/-- What a piece of work writes down. -/
def records : Delivery → List Record
  | .announce n => [.announced n]
  | .hear sub n => [.heard sub.label n]
  | .respond _ => []

/-- What a piece of work changes about who is subscribed.  When the player ends nobody is subscribed, but
it ends only once. -/
def ops (w : World) : Delivery → List Bus.Op
  | .respond (.subscribe label topic responses) => [.subscribe label topic responses]
  | .respond (.unsubscribe label) => [.release label]
  | .respond .clear => [.clear]
  | .respond .destroy => if w.destroyed then [] else [.clear]
  | _ => []

end Delivery

namespace World

variable {s : Stage} {w w' : World} {waits base : List Wait} {id : Nat}

theorem bus_destroy (w : World) :
    w.destroy.bus = w.bus.changes (if w.destroyed then [] else [.clear]) := by
  unfold destroy
  split
  · rfl
  · simp only [release_eq]
    rfl

/-- One piece of work is done. -/
theorem deliver_cons (w : World) (waits : List Wait) (d : Delivery) (rest : List Delivery) :
    (w.deliver waits (d :: rest)).2 = .go (.deliver (d.parts w ++ rest)) waits ∧
      (w.deliver waits (d :: rest)).1.journal = w.journal ++ d.records ∧
      (w.deliver waits (d :: rest)).1.bus = w.bus.changes (d.ops w) := by
  cases d with
  | announce n => exact ⟨rfl, rfl, rfl⟩
  | hear sub n => exact ⟨rfl, rfl, rfl⟩
  | respond r =>
      cases r with
      | destroy => exact ⟨rfl, w.destroy_tells.1.trans (List.append_nil _).symm, w.bus_destroy⟩
      | _ => exact ⟨rfl, (List.append_nil _).symm, rfl⟩

/-! ## The bus of a player -/

private theorem bus_command (kind : String) (c : Command) (next : c.Reply → Behaviour) :
    ∃ ops, (c.step s w waits kind next).1.bus = w.bus.changes ops := by
  cases c with
  | destroy => exact ⟨_, w.bus_destroy⟩
  | unsubscribe label => exact ⟨[.release label], rfl⟩
  | resetCamera =>
      simp only [Command.step]
      split <;> exact ⟨[], rfl⟩
  | clearOverlay =>
      simp only [Command.step]
      split <;> exact ⟨[], rfl⟩
  | _ => exact ⟨[], rfl⟩

private theorem bus_resume (wait : Wait) (o : Outcome) :
    (wait.resume s w waits o).1.bus = w.bus := by
  cases wait with
  | handled kind setting event actions errors =>
      cases o <;> simp only [Wait.resume] <;> try split
      all_goals rfl
  | report outlet => cases o <;> cases outlet <;> rfl
  | opened =>
      simp only [Wait.resume, opened]
      split <;> exact (bind_tells _ _ _).2
  | arrived index errors => exact (bind_tells _ _ _).2
  | journey => exact w.handOver_tells.2
  | concluded outcome => rfl
  | _ => cases o <;> rfl

/-- A step changes who is subscribed by some changes, if it does at all. -/
private theorem bus_step (job : Job) : ∃ ops, (job.step s w id waits).1.bus = w.bus.changes ops := by
  cases job with
  | deliver ds =>
      cases ds with
      | nil => exact ⟨[], rfl⟩
      | cons d rest => exact ⟨_, (w.deliver_cons waits d rest).2.2⟩
  | act kind behaviour =>
      cases behaviour with
      | perform c next => exact bus_command kind c next
      | _ => exact ⟨[], rfl⟩
  | ended o =>
      cases waits with
      | nil => exact ⟨[], rfl⟩
      | cons wait waits => exact ⟨[], bus_resume wait o⟩
  | run setting event actions errors =>
      refine ⟨[], ?_⟩
      cases actions with
      | nil => rfl
      | cons a rest =>
          simp only [Job.step, runActions]
          split <;> rfl
  | fire event listeners total =>
      refine ⟨[], ?_⟩
      cases listeners with
      | nil => rfl
      | cons l rest =>
          simp only [Job.step, fire]
          split <;> rfl
  | travel m =>
      refine ⟨[], ?_⟩
      simp only [Job.step, travel]
      split
      · split <;> rfl
      · rfl
  | seek m =>
      refine ⟨[], ?_⟩
      simp only [Job.step, seek]
      split <;> rfl
  | depart m =>
      refine ⟨[], ?_⟩
      simp only [Job.step, depart]
      split
      · rfl
      · split
        · rfl
        · rename_i j _
          obtain ⟨_, _, heq⟩ := (w.release .stop).tidy_eq (s := s) (stopAt s j)
          rw [heq, release_eq]
          rfl
  | settle j n =>
      refine ⟨[], ?_⟩
      cases n with
      | zero => rfl
      | succ n =>
          simp only [Job.step, settle]
          split <;> rfl
  | _ => exact ⟨[], rfl⟩

theorem bus_place (turn : Turn) : (w.place id turn).bus = w.bus := by
  unfold place
  split <;> rfl

theorem bus_choose (w : World) (c : Choice) : ∃ ops, (w.choose s c).bus = w.bus.changes ops := by
  obtain ⟨t, others, -, -, heq⟩ | ⟨-, hw⟩ | ⟨d, -, heq⟩ := choose_cases s w c
  · rw [heq, takeTurn_eq, bus_place]
    exact bus_step (w := { w with ready := others }) t.job
  · obtain ⟨_, _, _, _, hw⟩ := hw.eq
    exact ⟨[], by rw [hw]; rfl⟩
  · rw [heq]
    cases d with
    | subscribe label topic responses =>
        simp only [ask]
        split
        · exact ⟨[.subscribe label topic responses], rfl⟩
        · exact ⟨[], rfl⟩
    | unsubscribe label => exact ⟨[.release label], rfl⟩
    | destroy => exact ⟨_, w.bus_destroy⟩
    | _ => exact ⟨[], rfl⟩

/-- Along a schedule the bus of a player goes through some changes, and nothing else happens to it. -/
theorem bus_follow (cs : List Choice) : ∃ ops, (w.follow s cs).bus = w.bus.changes ops := by
  induction cs generalizing w with
  | nil => exact ⟨[], rfl⟩
  | cons c cs ih =>
      obtain ⟨ops, hops⟩ := w.bus_choose (s := s) c
      obtain ⟨later, hlater⟩ := ih (w := w.choose s c)
      exact ⟨ops ++ later, by rw [follow_cons, hlater, hops, Bus.changes_append]⟩

end World

/-! ## From turn to turn -/

/-- Some pieces of work that lie above others are worked off from turn to turn, and what a piece leaves to
be done comes before all else; at the end some are left. -/
inductive Telling (below : List Delivery) : List Delivery → List Moment → List Delivery → Prop where
  | rest (ds : List Delivery) : Telling below ds [] ds
  | turn {m : Moment} {d : Delivery} {ds left : List Delivery} {ms : List Moment} :
      m.job = .deliver (d :: ds ++ below) → Telling below (d.parts m.world ++ ds) ms left →
      Telling below (d :: ds) (m :: ms) left

namespace Telling

variable {below ds left : List Delivery} {ms : List Moment}

/-- One more turn. -/
theorem concat {m : Moment} {d : Delivery} {rest : List Delivery} (h : Telling below ds ms (d :: rest))
    (hm : m.job = .deliver (d :: rest ++ below)) :
    Telling below ds (ms ++ [m]) (d.parts m.world ++ rest) := by
  generalize hleft : d :: rest = left at h
  induction h with
  | rest ds =>
      subst hleft
      exact .turn hm (.rest _)
  | turn hjob _ ih => exact .turn hjob (ih hleft)

/-- What was left after some of the turns is what the others begin with. -/
theorem cut {ms' : List Moment} (h : Telling below ds (ms ++ ms') left) :
    ∃ mid, Telling below ds ms mid ∧ Telling below mid ms' left := by
  induction ms generalizing ds with
  | nil => exact ⟨ds, .rest ds, h⟩
  | cons m ms ih =>
      cases h with
      | turn hjob h =>
          obtain ⟨mid, hfirst, hrest⟩ := ih h
          exact ⟨mid, .turn hjob hfirst, hrest⟩

/-- Of two lists of pieces the second is begun when the first is done, with all that came of it. -/
theorem split {as bs : List Delivery} (h : Telling below (as ++ bs) ms left) :
    (∃ left', left' ≠ [] ∧ left = left' ++ bs ∧ Telling (bs ++ below) as ms left') ∨
      ∃ ms₁ ms₂, ms = ms₁ ++ ms₂ ∧ Telling (bs ++ below) as ms₁ [] ∧ Telling below bs ms₂ left := by
  generalize hds : as ++ bs = ds at h
  induction h generalizing as with
  | rest ds =>
      subst hds
      cases as with
      | nil => exact .inr ⟨[], [], rfl, .rest [], .rest bs⟩
      | cons a as => exact .inl ⟨_, List.cons_ne_nil a as, rfl, .rest _⟩
  | @turn m d ds left ms hjob h ih =>
      cases as with
      | nil =>
          subst hds
          exact .inr ⟨[], m :: ms, rfl, .rest [], .turn hjob h⟩
      | cons a as =>
          rw [List.cons_append] at hds
          obtain ⟨rfl, rfl⟩ := List.cons.inj hds
          have hjob' : m.job = .deliver (a :: as ++ (bs ++ below)) := by
            rw [hjob, List.cons_append, List.cons_append, List.append_assoc]
          have happ : (a.parts m.world ++ as) ++ bs = a.parts m.world ++ (as ++ bs) :=
            List.append_assoc _ _ _
          rcases ih happ with
            ⟨left', hne, hleft, hpart⟩ | ⟨ms₁, ms₂, rfl, hpart, hrest⟩
          · exact .inl ⟨left', hne, hleft, .turn hjob' hpart⟩
          · exact .inr ⟨m :: ms₁, ms₂, rfl, .turn hjob' hpart, hrest⟩

theorem of_nil (h : Telling below [] ms left) : ms = [] ∧ left = [] := by
  cases h
  exact ⟨rfl, rfl⟩

/-- Responses that lead to nothing else take a turn each. -/
theorem length_responses {rs : List Response} (h : Telling below (rs.map .respond) ms left)
    (hquiet : ∀ r ∈ rs, r.isPlain = true) : ms.length + left.length = rs.length := by
  induction rs generalizing ms with
  | nil =>
      obtain ⟨rfl, rfl⟩ := h.of_nil
      rfl
  | cons r rs ih =>
      rw [List.map_cons] at h
      cases h with
      | rest => simp
      | @turn m _ _ _ ms _ h =>
          have hparts : Delivery.parts m.world (.respond r) = [] := by
            have hr := hquiet r List.mem_cons_self
            cases r <;> first | rfl | cases hr
          rw [hparts, List.nil_append] at h
          have hrest := ih h fun r hr => hquiet r (List.mem_cons_of_mem _ hr)
          simp only [List.length_cons]
          omega

end Telling

/-- Some subscribers hear a notice, one after the other: after each all that it does in answer is done,
with all that comes of it, before the next one hears.  At the end some of it is left. -/
inductive Hears (n : Notice) (below : List Delivery) :
    List Subscriber → List Moment → List Delivery → Prop where
  | rest (subs : List Subscriber) : Hears n below subs [] (subs.map (.hear · n))
  /-- The first one has heard, and does something in answer. -/
  | within {sub : Subscriber} {subs : List Subscriber} {m : Moment} {ms : List Moment}
      {left : List Delivery} : m.job = .deliver (.hear sub n :: subs.map (.hear · n) ++ below) →
      Telling (subs.map (.hear · n) ++ below) (sub.responses.map .respond) ms left → left ≠ [] →
      Hears n below (sub :: subs) (m :: ms) (left ++ subs.map (.hear · n))
  /-- The first one has heard and done all in answer, and it is the next one's turn. -/
  | next {sub : Subscriber} {subs : List Subscriber} {m : Moment} {ms ms' : List Moment}
      {left : List Delivery} : m.job = .deliver (.hear sub n :: subs.map (.hear · n) ++ below) →
      Telling (subs.map (.hear · n) ++ below) (sub.responses.map .respond) ms [] →
      Hears n below subs ms' left → Hears n below (sub :: subs) (m :: ms ++ ms') left

/-- When the answers lead to nothing else it is known how many turns it takes until all have heard a
notice. -/
def Subscriber.turns : List Subscriber → Nat
  | [] => 0
  | sub :: subs => sub.responses.length + 1 + turns subs

theorem Telling.hears {n : Notice} {below left : List Delivery} {subs : List Subscriber}
    {ms : List Moment} (h : Telling below (subs.map (.hear · n)) ms left) :
    Hears n below subs ms left := by
  induction subs generalizing ms with
  | nil =>
      obtain ⟨rfl, rfl⟩ := h.of_nil
      exact .rest []
  | cons sub subs ih =>
      rw [List.map_cons] at h
      cases h with
      | rest => exact .rest (sub :: subs)
      | turn hjob h =>
          rcases h.split with ⟨left', hne, rfl, hpart⟩ | ⟨ms₁, ms₂, rfl, hpart, hrest⟩
          · exact .within hjob hpart hne
          · exact .next hjob hpart (ih hrest)

/-- Until all have heard a notice the answers to which lead to nothing else, it takes as many turns as there
are pieces of work. -/
theorem Hears.length {n : Notice} {below left : List Delivery} {subs : List Subscriber}
    {ms : List Moment} (h : Hears n below subs ms left)
    (hquiet : ∀ sub ∈ subs, ∀ r ∈ sub.responses, r.isPlain = true) :
    ms.length ≤ Subscriber.turns subs ∧ (left = [] ↔ ms.length = Subscriber.turns subs) := by
  induction h with
  | rest subs =>
      cases subs with
      | nil => simp [Subscriber.turns]
      | cons sub subs =>
          simp only [List.map_cons, Subscriber.turns, List.length_nil, reduceCtorEq, false_iff]
          omega
  | @within sub subs m ms left _ htelling hne =>
      have hlength := htelling.length_responses (hquiet sub List.mem_cons_self)
      have hpos : 0 < left.length := List.length_pos_iff.mpr hne
      have hleft : left ++ subs.map (Delivery.hear · n) ≠ [] := by simp [hne]
      simp only [Subscriber.turns, List.length_cons, hleft, false_iff]
      omega
  | @next sub subs m ms ms' left _ htelling _ ih =>
      have hlength := htelling.length_responses (hquiet sub List.mem_cons_self)
      obtain ⟨hle, hiff⟩ := ih fun sub hsub => hquiet sub (List.mem_cons_of_mem _ hsub)
      simp only [List.length_nil] at hlength
      simp only [Subscriber.turns, List.length_append, List.length_cons] at hle hiff ⊢
      exact ⟨by omega, hiff.trans (by omega)⟩

/-- Every notice that was announced on the way is heard by those who were subscribed to its topic then.
When all have heard, what was left before the announcement goes on; and if their answers lead to nothing
else, it is known after how many turns all have heard. -/
def Reached (told : List Moment) (left : List Delivery) : Prop :=
  ∀ before m after n rest, told = before ++ m :: after → m.job = .deliver (.announce n :: rest) →
    ∃ block later left', after = block ++ later ∧
      Hears n rest (m.world.bus.audience n.topic) block left' ∧
      (left' = [] ∧ Telling [] rest later left ∨ left' ≠ [] ∧ later = [] ∧ left = left' ++ rest) ∧
      ((∀ sub ∈ m.world.bus.audience n.topic, ∀ r ∈ sub.responses, r.isPlain = true) →
        Subscriber.turns (m.world.bus.audience n.topic) ≤ after.length → left' = [])

theorem Telling.reached {ds left : List Delivery} {told : List Moment} (h : Telling [] ds told left) :
    Reached told left := by
  rintro before m after n rest rfl hjob
  obtain ⟨mid, -, hafter⟩ := h.cut
  cases hafter with
  | turn hjob' hafter =>
      -- What the task is at is what is left to tell
      have heq := Job.deliver.inj (hjob'.symm.trans hjob)
      rw [List.append_nil] at heq
      obtain ⟨rfl, rfl⟩ := List.cons.inj heq
      rcases hafter.split with ⟨left', hne, hleft, hpart⟩ | ⟨block, later, hsplit, hpart, hrest⟩
      · rw [List.append_nil] at hpart
        refine ⟨after, [], left', (List.append_nil _).symm, hpart.hears, .inr ⟨hne, rfl, hleft⟩,
          fun hquiet hlong => ?_⟩
        obtain ⟨hle, hiff⟩ := hpart.hears.length hquiet
        exact hiff.mpr (Nat.le_antisymm hle hlong)
      · rw [List.append_nil] at hpart
        exact ⟨block, later, [], hsplit, hpart.hears, .inl ⟨rfl, hrest⟩, fun _ _ => rfl⟩

/-! ## Announcements of a task -/

/-- What a turn of telling writes down, and what it changes about who is subscribed. -/
theorem Moment.deliver {m : Moment} {d : Delivery} {rest : List Delivery}
    (hjob : m.job = .deliver (d :: rest)) (s : Stage) (id : Nat) (base : List Wait) :
    m.writes s id base = d.records ∧ (m.after s id base).bus = m.world.bus.changes (d.ops m.world) := by
  obtain ⟨-, hjournal, hbus⟩ :=
    m.world.deliver_cons (m.above ++ base) d rest
  refine ⟨?_, by rw [after, hjob]; exact hbus⟩
  rw [writes, after, hjob, Job.step, hjournal, List.drop_left]

namespace World

variable {s : Stage} {w w' : World} {base : List Wait} {id : Nat} {ms : List Moment}

/-- Where a task that has something to tell is after some turns: at what is left, or behind it. -/
inductive Tells (ds : List Delivery) : List Moment → Job → Prop where
  | telling {ms : List Moment} {left : List Delivery} : Telling [] ds ms left → Tells ds ms (.deliver left)
  | told {ms : List Moment} (m : Moment) : Telling [] ds ms [] → Tells ds (ms ++ [m]) (.ended .completed)

/-- A turn of a task that has something to tell. -/
theorem Tells.step {ds : List Delivery} {job : Job} (s : Stage) (w : World) (id : Nat)
    (base : List Wait) (h : Tells ds ms job) (hgo : job.isEnded = false) :
    ∃ job', (job.step s w id base).2.task? id = some ⟨id, job', base⟩ ∧
      Tells ds (ms ++ [⟨w, job, []⟩]) job' := by
  cases h with
  | @telling _ left h =>
      cases left with
      | nil => exact ⟨_, rfl, .told _ h⟩
      | cons d rest =>
          refine ⟨.deliver (d.parts w ++ rest), ?_,
            .telling (h.concat (m := ⟨w, .deliver (d :: rest), []⟩) (by rw [List.append_nil]))⟩
          rw [Job.step, (w.deliver_cons base d rest).1]
          rfl
  | told => cases hgo

/-- What is told along a stint. -/
theorem Stint.tells {ds : List Delivery} (hw : Timed w []) (ht : ⟨id, .deliver ds, base⟩ ∈ w.tasks)
    (h : Stint s id base w w' ms) : ∃ job, ⟨id, job, base⟩ ∈ w'.tasks ∧ Tells ds ms job := by
  obtain ⟨-, -, job, above, hmem, rfl, htells⟩ := h.carry
    (I := fun _ => True) (P := fun ms job above => above = [] ∧ Tells ds ms job) _ []
    (fun _ _ _ => trivial)
    (fun ms v others job above _ hP hgo => by
      obtain ⟨rfl, htells⟩ := hP
      have hlasts : job.isEnded = false := by
        by_contra hended
        exact hgo (by simpa using hended) rfl
      obtain ⟨job', hturn, hnext⟩ := htells.step s { v with ready := others } id base hlasts
      exact ⟨job', [], hturn, rfl, hnext⟩)
    hw trivial ht rfl ⟨rfl, .telling (.rest ds)⟩
  exact ⟨job, hmem, htells⟩

/-- A notice reaches those who were subscribed to its topic when it was announced, and an id ends the
subscription that it was given to.

- A task that has something to tell works off one piece after the other, along any stint: also while other
  tasks take their turns, subscribe, unsubscribe, or end the player.
- When a notice was announced on the way, those who were subscribed to its topic then hear it, one after
  the other in the order of their subscriptions: each does all in answer, and what is announced in answer
  is heard by all who hear it, before the next one hears.  When all have heard, what was left
  before the announcement goes on.
- Whatever a player does, its bus goes through changes, after which the subscriptions are in the order of
  their ids, and a label ends one under that label or none.
- After any changes the id of a subscription ends that subscription if it is still there, and else
  nothing; so does its label, if it has not been released or given to another one. -/
theorem notices_reach_subscribers :
    (∀ s id base ds w w' ms, Timed w [] → ⟨id, .deliver ds, base⟩ ∈ w.tasks → Stint s id base w w' ms →
      ∃ told left, Telling [] ds told left ∧
        ((ms = told ∧ ⟨id, .deliver left, base⟩ ∈ w'.tasks) ∨
          ((∃ m, ms = told ++ [m]) ∧ left = [] ∧ ⟨id, .ended .completed, base⟩ ∈ w'.tasks)) ∧
        (∀ m ∈ told, ∀ d rest, m.job = .deliver (d :: rest) → m.writes s id base = d.records ∧
          (m.after s id base).bus = m.world.bus.changes (d.ops m.world)) ∧
        Reached told left) ∧
    (∀ (s : Stage) (w : World) (cs : List Choice), ∃ ops, (w.follow s cs).bus = w.bus.changes ops) ∧
    ∀ ops, ((Bus.changes {} ops).subscribers.map Subscriber.id).Pairwise (· < ·) ∧
      (∀ label, ((Bus.changes {} ops).release label).subscribers = (Bus.changes {} ops).subscribers ∨
        ∃ before sub after, sub.label = label ∧
          (Bus.changes {} ops).subscribers = before ++ sub :: after ∧
          ((Bus.changes {} ops).release label).subscribers = before ++ after) ∧
      ∀ label topic responses later,
        let sub : Subscriber := ⟨(Bus.changes {} ops).next, label, topic, responses⟩
        let c := ((Bus.changes {} ops).subscribe label topic responses).changes later
        ((sub ∉ c.subscribers ∧ c.unsubscribe sub.id = c) ∨
          ∃ before after, c.subscribers = before ++ sub :: after ∧
            c.unsubscribe sub.id = { c with subscribers := before ++ after }) ∧
        ((∀ op ∈ later, Bus.Op.keeps label op = true) →
          (c.release label).subscribers = (c.unsubscribe sub.id).subscribers) := by
  refine ⟨fun s id base ds w w' ms hw ht hstint => ?_, fun s w cs => bus_follow cs, fun ops => ?_⟩
  · obtain ⟨told, left, htelling, hplace⟩ : ∃ told left, Telling [] ds told left ∧
        ((ms = told ∧ ⟨id, .deliver left, base⟩ ∈ w'.tasks) ∨
          ((∃ m, ms = told ++ [m]) ∧ left = [] ∧ ⟨id, .ended .completed, base⟩ ∈ w'.tasks)) := by
      obtain ⟨job, hmem, htells⟩ := hstint.tells hw ht
      cases htells with
      | telling h => exact ⟨ms, _, h, .inl ⟨rfl, hmem⟩⟩
      | told m h => exact ⟨_, [], h, .inr ⟨⟨m, rfl⟩, rfl, hmem⟩⟩
    exact ⟨told, left, htelling, hplace, fun m _ d rest hjob => Moment.deliver hjob s id base,
      htelling.reached⟩
  · have hordered : Bus.Ordered (Bus.changes {} ops) :=
      Bus.Ordered.changes ⟨List.Pairwise.nil, by simp, by simp⟩ ops
    refine ⟨hordered.ascending, hordered.release_cases, ?_⟩
    intro label topic responses later sub c
    have hlater : Bus.Ordered c :=
      (hordered.subscribe label topic responses).changes later
    refine ⟨hlater.unsubscribe_cases ((hordered.reserves_next label topic responses).changes later),
      fun hkeeps => ?_⟩
    exact Bus.subscribers_release_of_idOf?
      (Bus.idOf?_changes (Bus.idOf?_subscribe topic responses) hkeeps)

end World

/-- A stage without anything on it. -/
def Stage.hall : Stage where
  document := ⟨[], [], none, []⟩

namespace World

/-- On a drawing this subscriber ends the subscription of another one, subscribes a third one, and tells of
a failure if nothing was written down but that it hears the drawing. -/
def meddler : Subscriber :=
  ⟨0, "a", .render, [.unsubscribe "b", .subscribe "d" .render [],
    .review fun records => if records.length ≤ 2 then [.announce (.error (.unknown "x"))] else []]⟩

/-- The meddler and two more are to be subscribed, and a drawing announced. -/
def meddled : World :=
  ({} : World).start (.deliver (List.map .respond [.subscribe "a" .render meddler.responses,
    .subscribe "b" .render [], .subscribe "c" .error [], .announce (.render .null)])) []

/-- The subscription that the meddler ends hears the drawing all the same, after all that the meddler has
done, and the one that it adds does not. -/
theorem meddled_reaches_subscribers : ∃ block : List Moment, block.length = 8 ∧
    Hears (.render .null) [] [meddler, ⟨1, "b", .render, []⟩] block [] ∧
    block.flatMap (Moment.writes .hall 0 []) = [.heard "a" (.render .null),
      .announced (.error (.unknown "x")), .heard "c" (.error (.unknown "x")),
      .heard "b" (.render .null)] := by
  have hw : Timed meddled [] := (Reachable.initial.timed (s := .hall)).start _ _
  have hstint : Stint .hall 0 [] meddled _ _ := .follow (List.replicate 13 (.turn 0)) (by decide)
  have htasks : (meddled.follow .hall (List.replicate 13 (.turn 0))).tasks =
      [⟨0, .deliver [], []⟩] := rfl
  obtain ⟨told, left, -, hplace, -, hreach⟩ :=
    notices_reach_subscribers.1 .hall 0 [] _ _ _ _ hw List.mem_cons_self hstint
  rw [htasks] at hplace
  rcases hplace with ⟨hms, hmem⟩ | ⟨-, -, hmem⟩
  · obtain rfl : left = [] := by simpa using hmem
    obtain ⟨block, later, left', hsplit, hhears, hrest, -⟩ :=
      hreach _ _ _ (.render .null) [] (hms.symm.trans (List.take_append_drop 4 _).symm) rfl
    rcases hrest with ⟨rfl, hrest⟩ | ⟨hne, -, hnil⟩
    · obtain ⟨rfl, -⟩ := hrest.of_nil
      rw [List.append_nil] at hsplit
      subst hsplit
      exact ⟨_, by decide, hhears, rfl⟩
    · exact absurd (List.append_eq_nil_iff.mp hnil.symm).1 hne
  · simp at hmem

end World

end DiagramTour
