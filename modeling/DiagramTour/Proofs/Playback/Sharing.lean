import DiagramTour.Proofs.Playback.Stint

/-!
# Listeners of several owners

One host keeps the listeners of many: those of the two parts of a player, and those of any number of
engines besides, each of which puts reactions up and takes down what it has put up.  Nobody's listeners
are ever taken for those of another one, as a number is given only once.

## Architecture

- `World.putUp` and `World.takeDown` are what an engine does; a part of a player does the same
  (`World.bind_eq_putUp`, `World.release_eq_takeDown`).
- `Premises` are a player and some engines at the same host, and `PremisesMove` is what may happen next.
- `Host.SharedBy` says that the listeners of a host are divided among owners; it is kept when listeners
  are attached for one owner, and when those of one owner are detached.
- `Rounds` tells where the delivery of an event is, and `Rounds.step` is one turn of it.
-/

namespace DiagramTour

/-! ## Engines -/

namespace World

variable {s : Stage} {w : World} {rig : Rig} {p : Part} {rs : List Reaction} {setting : Setting}

/-- Puts up the listeners and timers of some rules, and adds their numbers to those of what was put up
before. -/
def putUp (s : Stage) (w : World) (rig : Rig) (reactions : List Reaction) (setting : Setting) :
    World × Rig :=
  let (host, listeners) := w.host.attach (listenersOf s setting reactions)
  let (w, timers) := startTimers setting (timersOf s reactions) { w with host }
  (w, ⟨rig.listeners ++ listeners, rig.timers ++ timers⟩)

/-- Takes down some listeners and timers. -/
def takeDown (w : World) (rig : Rig) : World :=
  { w with host := w.host.detach rig.listeners }.cancel rig.timers

theorem putUp_eq : w.putUp s rig rs setting = ({ w with
    host := (w.host.attach (listenersOf s setting rs)).1
    nextTask := w.nextTask + (timersOf s rs).length
    ready := w.ready ++ timerTasks setting w.nextTask (timersOf s rs) },
    ⟨rig.listeners ++ (w.host.attach (listenersOf s setting rs)).2,
      rig.timers ++ List.range' w.nextTask (timersOf s rs).length⟩) := by
  simp only [putUp, startTimers_eq]

/-- A part puts reactions up as an engine does. -/
theorem bind_eq_putUp : w.bind s p rs setting =
    (w.putUp s (w.rig p) rs setting).1.setRig p (w.putUp s (w.rig p) rs setting).2 := by
  rw [bind_eq, putUp_eq]
  cases p <;> simp [Host.attach_eq, setRig, rig, grownRig]

/-- A part takes down what it has put up as an engine does. -/
theorem release_eq_takeDown : w.release p = (w.takeDown (w.rig p)).setRig p {} := rfl

end World

/-- Somebody who puts up reactions and takes them down, unless gone for good. -/
structure Engine where
  rig : Rig := {}
  dropped : Bool := false

/-- A player, and engines that share its host. -/
structure Premises where
  world : World := {}
  engines : Nat → Engine := fun _ => {}

/-- What can happen next. -/
inductive PremisesMove where
  /-- Whatever a player can do; also an event may be dispatched. -/
  | choose (choice : Choice)
  /-- An engine puts up reactions. -/
  | bind (engine : Nat) (reactions : List Reaction) (setting : Setting)
  /-- An engine takes down all that it has put up. -/
  | destroy (engine : Nat)
  /-- An engine takes down all that it has put up, and is gone. -/
  | drop (engine : Nat)

namespace Premises

/-- What a move does. -/
def move (s : Stage) (p : Premises) : PremisesMove → Premises
  | .choose c => { p with world := p.world.choose s c }
  | .bind k reactions setting =>
    if (p.engines k).dropped then p
    else
      let (w, rig) := p.world.putUp s (p.engines k).rig reactions setting
      ⟨w, Function.update p.engines k { rig }⟩
  | .destroy k =>
    ⟨p.world.takeDown (p.engines k).rig,
      Function.update p.engines k { dropped := (p.engines k).dropped }⟩
  | .drop k =>
    ⟨p.world.takeDown (p.engines k).rig, Function.update p.engines k { dropped := true }⟩

/-- What some moves do, one after the other. -/
def run (s : Stage) (p : Premises) (moves : List PremisesMove) : Premises :=
  moves.foldl (move s) p

/-- The numbers of the listeners that a part of the player or an engine holds. -/
def own (p : Premises) : Part ⊕ Nat → List Nat :=
  Sum.elim (fun q => (p.world.rig q).listeners) fun k => (p.engines k).rig.listeners

/-- The listeners that a part of the player or an engine holds. -/
def held (p : Premises) (o : Part ⊕ Nat) : List Listener :=
  p.world.host.listeners.filter fun l => (p.own o).contains l.id

end Premises

/-! ## Listeners and their owners -/

/-- The listeners of a host are divided among some owners: each listener has one owner, who has its
number, and all owners have the numbers of their listeners in the order in which these came. -/
structure Host.SharedBy {ι : Type} (h : Host) (own : ι → List Nat) : Prop where
  ascending : (h.listeners.map Listener.id).Pairwise (· < ·)
  below : ∀ l ∈ h.listeners, l.id < h.next
  held : ∀ o, (own o).Sublist (h.listeners.map Listener.id)
  apart : ∀ o o' i, i ∈ own o → i ∈ own o' → o = o'
  covered : ∀ l ∈ h.listeners, ∃ o, l.id ∈ own o

namespace Host

variable {ι : Type} {h : Host} {own own' : ι → List Nat} {o : ι} {ls : List (Nat → Listener)}

/-- Those that are attached get the next numbers. -/
theorem ids_attach (hids : ∀ f ∈ ls, ∀ n, (f n).id = n) :
    (h.attach ls).1.listeners.map Listener.id = h.listeners.map Listener.id ++ (h.attach ls).2 := by
  rw [attach_eq, List.map_append, List.map_map]
  congr 1
  calc (ls.zipIdx h.next).map (Listener.id ∘ fun l => l.1 l.2)
      = (ls.zipIdx h.next).map Prod.snd :=
        List.map_congr_left fun l hl => hids l.1 (List.fst_mem_of_mem_zipIdx hl) l.2
    _ = List.range' h.next ls.length := List.zipIdx_map_snd _ _

namespace SharedBy

theorem lt_next (hs : h.SharedBy own) {i : Nat} (hi : i ∈ own o) : i < h.next := by
  obtain ⟨l, hl, rfl⟩ := List.mem_map.mp ((hs.held o).subset hi)
  exact hs.below l hl

/-- Listeners are attached for one owner. -/
theorem attach (hs : h.SharedBy own) (hids : ∀ f ∈ ls, ∀ n, (f n).id = n)
    (hgrown : own' o = own o ++ (h.attach ls).2) (hsame : ∀ o', o' ≠ o → own' o' = own o') :
    (h.attach ls).1.SharedBy own' := by
  have hmap := ids_attach (h := h) hids
  have hnew : ∀ i ∈ (h.attach ls).2, h.next ≤ i ∧ i < (h.attach ls).1.next := by
    intro i hi
    rw [attach_eq] at hi ⊢
    exact List.mem_range'_1.mp hi
  have hnext : h.next ≤ (h.attach ls).1.next := by
    rw [attach_eq]
    exact Nat.le_add_right _ _
  refine ⟨?_, fun l hl => ?_, fun o' => ?_, ?_, fun l hl => ?_⟩
  · rw [hmap, List.pairwise_append]
    refine ⟨hs.ascending, ?_, fun i hi j hj => ?_⟩
    · rw [attach_eq]
      exact List.pairwise_lt_range'
    · obtain ⟨l, hl, rfl⟩ := List.mem_map.mp hi
      exact Nat.lt_of_lt_of_le (hs.below l hl) (hnew j hj).1
  · have hmem : l.id ∈ (h.attach ls).1.listeners.map Listener.id := List.mem_map_of_mem hl
    rw [hmap] at hmem
    rcases List.mem_append.mp hmem with hmem | hmem
    · obtain ⟨l', hl', heq⟩ := List.mem_map.mp hmem
      exact heq ▸ Nat.lt_of_lt_of_le (hs.below l' hl') hnext
    · exact (hnew _ hmem).2
  · rw [hmap]
    by_cases ho : o' = o
    · rw [ho, hgrown]
      exact (hs.held o).append_right _
    · rw [hsame o' ho]
      exact (hs.held o').trans (List.sublist_append_left _ _)
  · -- Who has an old number has had it before, and nobody but the one owner has a new one
    have hcases : ∀ a i, i ∈ own' a → i ∈ own a ∨ (a = o ∧ h.next ≤ i) := by
      intro a i hi
      by_cases ha : a = o
      · subst ha
        rw [hgrown] at hi
        exact (List.mem_append.mp hi).imp_right fun hi => ⟨rfl, (hnew i hi).1⟩
      · exact .inl (hsame a ha ▸ hi)
    intro a b i ha hb
    rcases hcases a i ha with ha | ⟨rfl, hge⟩ <;> rcases hcases b i hb with hb | ⟨rfl, hge'⟩
    · exact hs.apart a b i ha hb
    · exact absurd (hs.lt_next ha) (Nat.not_lt.mpr hge')
    · exact absurd (hs.lt_next hb) (Nat.not_lt.mpr hge)
    · rfl
  · have hmem : l.id ∈ (h.attach ls).1.listeners.map Listener.id := List.mem_map_of_mem hl
    rw [hmap] at hmem
    rcases List.mem_append.mp hmem with hmem | hmem
    · obtain ⟨l', hl', heq⟩ := List.mem_map.mp hmem
      obtain ⟨a, ha⟩ := hs.covered l' hl'
      refine ⟨a, heq ▸ ?_⟩
      by_cases hao : a = o
      · subst hao
        exact hgrown ▸ List.mem_append_left _ ha
      · exact hsame a hao ▸ ha
    · exact ⟨o, hgrown ▸ List.mem_append_right _ hmem⟩

/-- All listeners of one owner are detached. -/
theorem detach (hs : h.SharedBy own) (hgone : own' o = []) (hsame : ∀ o', o' ≠ o → own' o' = own o') :
    (h.detach (own o)).SharedBy own' := by
  refine ⟨?_, fun l hl => hs.below l (List.mem_filter.mp hl).1, fun a => ?_, fun a b i ha hb => ?_,
    fun l hl => ?_⟩
  · exact hs.ascending.sublist (List.filter_sublist.map _)
  · by_cases ha : a = o
    · rw [ha, hgone]
      exact List.nil_sublist _
    · have hkept : (own a).filter (fun i => !(own o).contains i) = own a :=
        List.filter_eq_self.mpr fun i hi => by
          simpa using fun hio => ha (hs.apart a o i hi hio)
      rw [hsame a ha, ← hkept]
      simpa [Host.detach, List.filter_map, Function.comp_def] using
        (hs.held a).filter fun i => !(own o).contains i
  · have hold : ∀ c, i ∈ own' c → i ∈ own c := by
      intro c hc
      by_cases hco : c = o
      · rw [hco, hgone] at hc
        simp at hc
      · exact hsame c hco ▸ hc
    exact hs.apart a b i (hold a ha) (hold b hb)
  · obtain ⟨hl, hnot⟩ := List.mem_filter.mp hl
    obtain ⟨a, ha⟩ := hs.covered l hl
    refine ⟨a, (hsame a ?_) ▸ ha⟩
    rintro rfl
    simp [ha] at hnot

/-- When one owner's listeners are attached, those of another one are as they were. -/
theorem filter_attach (hs : h.SharedBy own) (hids : ∀ f ∈ ls, ∀ n, (f n).id = n) (o : ι) :
    ((h.attach ls).1.listeners.filter fun l => (own o).contains l.id) =
      h.listeners.filter fun l => (own o).contains l.id := by
  rw [attach_eq, List.filter_append]
  refine List.append_right_eq_self.mpr (List.filter_eq_nil_iff.mpr fun l hl => ?_)
  obtain ⟨⟨f, i⟩, hf, rfl⟩ := List.mem_map.mp hl
  have hge := (List.mem_zipIdx hf).1
  simp only [hids f (List.fst_mem_of_mem_zipIdx hf)]
  simpa using fun hi => absurd (hs.lt_next hi) (Nat.not_lt.mpr hge)

/-- When one owner's listeners are detached, those of another one are as they were. -/
theorem filter_detach (hs : h.SharedBy own) {o' : ι} (hne : o' ≠ o) :
    ((h.detach (own o)).listeners.filter fun l => (own o').contains l.id) =
      h.listeners.filter fun l => (own o').contains l.id := by
  rw [Host.detach, List.filter_filter]
  refine List.filter_congr fun l _ => ?_
  by_cases hmem : l.id ∈ own o'
  · have hnot : l.id ∉ own o := fun hmem' => hne (hs.apart o' o l.id hmem hmem')
    simp [hmem, hnot]
  · simp [hmem]

end SharedBy

end Host

/-! ## A player among others -/

namespace World

variable {s : Stage} {w w' : World} {κ : Type} {others : κ → List Nat}

/-- The listeners of a host are divided among the parts of a player and some others. -/
def SharedWith (w : World) (others : κ → List Nat) : Prop :=
  w.host.SharedBy (Sum.elim (fun q => (w.rig q).listeners) others)

namespace SharedWith

theorem of_eq (h : w.SharedWith others) (hhost : w'.host = w.host) (hrig : ∀ q, w'.rig q = w.rig q) :
    w'.SharedWith others := by
  unfold SharedWith
  simp only [hhost, hrig]
  exact h

theorem bind (h : w.SharedWith others) (p : Part) (rs : List Reaction) (setting : Setting) :
    (w.bind s p rs setting).SharedWith others := by
  have hhost : (w.bind s p rs setting).host = (w.host.attach (listenersOf s setting rs)).1 := by
    rw [bind_eq, Host.attach_eq]
  rw [SharedWith, hhost]
  refine Host.SharedBy.attach (o := Sum.inl p) h (fun f hf n => id_of_listenersOf hf n) ?_ ?_
  · simp [rig_bind, grownRig, Host.attach_eq]
  · rintro (q | k) hne
    · have hpq : p ≠ q := fun heq => hne (heq ▸ rfl)
      simp [rig_bind, hpq]
    · rfl

theorem release (h : w.SharedWith others) (p : Part) : (w.release p).SharedWith others := by
  have hhost : (w.release p).host = w.host.detach (w.rig p).listeners := by rw [release_eq]
  rw [SharedWith, hhost]
  refine Host.SharedBy.detach (o := Sum.inl p) h ?_ ?_
  · simp [rig_release]
  · rintro (q | k) hne
    · have hpq : p ≠ q := fun heq => hne (heq ▸ rfl)
      simp [rig_release, hpq]
    · rfl

theorem destroy (h : w.SharedWith others) : w.destroy.SharedWith others := by
  unfold World.destroy
  split
  · exact h
  · have h' : SharedWith { w with destroyed := true } others := h.of_eq rfl fun _ => rfl
    exact ((h'.release .tour).release .stop).of_eq rfl fun _ => rfl

/-- Every effect of a step leaves the listeners divided. -/
theorem effect {id : Nat} {job : Job} {waits : List Wait} (h : w.SharedWith others)
    (he : Job.Effect s w id job waits w') : w'.SharedWith others := by
  cases he with
  | calm hcalm =>
      obtain ⟨_, _, _, _, _, rfl⟩ := hcalm.eq
      exact h.of_eq rfl fun _ => rfl
  | destroy => exact h.destroy
  | leave =>
      obtain ⟨_, _, heq⟩ := (w.release .stop).tidy_eq (s := s) (stopAt s _)
      rw [heq]
      exact (h.release .stop).of_eq rfl fun _ => rfl
  | @arrive o j es =>
      have h' : SharedWith { w with position := j, error := es.getLast? } others :=
        h.of_eq rfl fun _ => rfl
      exact h'.bind _ _ _
  | «open» => exact h.bind _ _ _
  | handOver =>
      unfold World.handOver
      split <;> exact h.of_eq rfl fun _ => rfl
  | _ => exact h.of_eq rfl fun _ => rfl

theorem ask (h : w.SharedWith others) (d : Demand) : (w.ask d).SharedWith others := by
  cases d with
  | subscribe label topic responses =>
      simp only [World.ask]
      split
      · exact h.of_eq rfl fun _ => rfl
      · exact h
  | destroy => exact h.destroy
  | _ => exact h.of_eq rfl fun _ => rfl

/-- Every choice of a player leaves the listeners divided. -/
theorem choose (h : w.SharedWith others) (c : Choice) : (w.choose s c).SharedWith others := by
  obtain ⟨t, rest, -, -, heq⟩ | ⟨-, hw⟩ | ⟨d, -, heq⟩ := choose_cases s w c
  · have h' : SharedWith { w with ready := rest } others := h.of_eq rfl fun _ => rfl
    obtain ⟨hhost, -, -, -, hrig⟩ := host_place
      (t.job.step s { w with ready := rest } t.id t.waits).1 t.id
      (t.job.step s { w with ready := rest } t.id t.waits).2
    rw [heq, takeTurn_eq]
    exact (h'.effect (Job.step_effect s _ t.id t.waits t.job)).of_eq hhost hrig
  · obtain ⟨_, _, _, _, hw⟩ := hw.eq
    rw [hw]
    exact h.of_eq rfl fun _ => rfl
  · rw [heq]
    exact h.ask d

end SharedWith

/-! ## What an engine leaves to the tasks -/

theorem timed_startTimers {hand : List Task} (setting : Setting) (rs : List Reaction)
    (h : Timed w hand) : Timed (startTimers setting rs w).1 hand := by
  induction rs generalizing w with
  | nil => exact h
  | cons r rs ih => exact ih (h.start _ _)

theorem timed_cancel (ids : List Nat) (h : Timed w []) : Timed (w.cancel ids) [] := by
  have hsub : (w.cancel ids).tasks.Sublist w.tasks :=
    ((List.filter_sublist.append (List.Sublist.refl _)).append (List.filter_sublist.map _)).append
      (List.Sublist.refl _)
  have hrigs : ∀ p, ∀ i ∈ ((w.cancel ids).rig p).timers, i ∈ (w.rig p).timers := by
    rintro (_ | _) i hi <;> exact hi
  exact h.shrink (h.toNumbered.shrink hsub.subperm rfl hrigs) hsub.subset hrigs

end World

/-! ## What an engine does -/

namespace Reaction

/-- Whether a rule waits for an event that has a name. -/
def listens (r : Reaction) : Bool :=
  !r.isTimer && r.native?.isSome

/-- A listener is the one of a rule. -/
structure Becomes (s : Stage) (setting : Setting) (r : Reaction) (l : Listener) : Prop where
  name : r.native? = some l.name
  place : l.place = r.place s.elements
  key : l.key = r.keyFilter
  actions : l.actions = r.actions
  setting : l.setting = setting

theorem listens_eq (r : Reaction) : r.listens = r.native?.isSome := by
  cases h : r.event <;> simp [listens, isTimer, native?, h]

/-- Of some rules those that wait for events become listeners, one each and in their order. -/
theorem becomes_listenersOf (s : Stage) (setting : Setting) (rs : List Reaction) (n : Nat) :
    List.Forall₂ (Becomes s setting) (rs.filter listens)
      (((World.listenersOf s setting rs).zipIdx n).map fun l => l.1 l.2) := by
  induction rs generalizing n with
  | nil => exact .nil
  | cons r rs ih =>
      cases hname : r.native? with
      | none =>
          have hno : r.listens = false := by rw [listens_eq, hname]; rfl
          rw [List.filter_cons_of_neg (by simp [hno])]
          simpa [World.listenersOf, listener?, hname] using ih n
      | some name =>
          have hyes : r.listens = true := by rw [listens_eq, hname]; rfl
          rw [List.filter_cons_of_pos hyes]
          have hbecomes : Becomes s setting r
              ⟨n, r.place s.elements, name, r.keyFilter, r.actions, setting⟩ :=
            ⟨hname, rfl, rfl, rfl, rfl⟩
          simpa [World.listenersOf, listener?, hname] using List.Forall₂.cons hbecomes (ih (n + 1))

end Reaction

namespace Premises

variable {s : Stage} {p : Premises} {k : Nat} {rs : List Reaction} {setting : Setting}

theorem host_bind (hlive : (p.engines k).dropped = false) :
    (p.move s (.bind k rs setting)).world.host =
      (p.world.host.attach (World.listenersOf s setting rs)).1 := by
  simp [move, hlive, World.putUp_eq]

theorem own_bind (hlive : (p.engines k).dropped = false) :
    (p.move s (.bind k rs setting)).own (.inr k) =
      p.own (.inr k) ++ (p.world.host.attach (World.listenersOf s setting rs)).2 := by
  simp [move, hlive, World.putUp_eq, own]

theorem own_bind_of_ne {o : Part ⊕ Nat} (hne : o ≠ .inr k) :
    (p.move s (.bind k rs setting)).own o = p.own o := by
  simp only [move]
  split
  · rfl
  · rcases o with q | j
    · cases q <;> simp [own, World.putUp_eq, World.rig]
    · have hj : j ≠ k := fun heq => hne (heq ▸ rfl)
      simp [own, hj]

/-- A move by which an engine takes down all that it has put up. -/
inductive Ends (k : Nat) : PremisesMove → Prop where
  | destroy : Ends k (.destroy k)
  | drop : Ends k (.drop k)

variable {m : PremisesMove}

theorem world_ends (h : Ends k m) : (p.move s m).world = p.world.takeDown (p.engines k).rig := by
  cases h <;> rfl

theorem host_ends (h : Ends k m) : (p.move s m).world.host = p.world.host.detach (p.own (.inr k)) := by
  rw [world_ends h]
  rfl

theorem own_ends (h : Ends k m) : (p.move s m).own (.inr k) = [] := by
  cases h <;> simp [move, own]

theorem own_ends_of_ne (h : Ends k m) {o : Part ⊕ Nat} (hne : o ≠ .inr k) :
    (p.move s m).own o = p.own o := by
  rcases o with q | j
  · simp only [own, Sum.elim_inl, world_ends h]
    cases q <;> rfl
  · have hj : j ≠ k := fun heq => hne (heq ▸ rfl)
    cases h <;> simp [move, own, hj]

/-- Whoever has nothing up takes nothing down. -/
theorem takeDown_empty (w : World) : w.takeDown {} = w := by
  simp [World.takeDown, World.cancel, Host.detach]

/-- Every move leaves the listeners divided. -/
theorem shared_move (h : p.world.host.SharedBy p.own) (m : PremisesMove) :
    (p.move s m).world.host.SharedBy (p.move s m).own := by
  have hends : ∀ {k}, Ends k m → (p.move s m).world.host.SharedBy (p.move s m).own := fun hm => by
    rw [host_ends hm]
    exact h.detach (own_ends hm) fun _ hne => own_ends_of_ne hm hne
  cases m with
  | choose c => exact World.SharedWith.choose h c
  | bind k rs setting =>
      cases hlive : (p.engines k).dropped with
      | true => simpa [move, hlive] using h
      | false =>
          rw [host_bind hlive]
          exact h.attach (fun f hf n => World.id_of_listenersOf hf n) (own_bind hlive)
            fun _ hne => own_bind_of_ne hne
  | destroy k => exact hends .destroy
  | drop k => exact hends .drop

theorem timed_move (h : p.world.Timed []) (m : PremisesMove) : (p.move s m).world.Timed [] := by
  have hdown : ∀ rig : Rig, (p.world.takeDown rig).Timed [] := fun rig =>
    World.timed_cancel rig.timers (w := { p.world with host := p.world.host.detach rig.listeners })
      (h.shrink (h.toNumbered.shrink (List.Subperm.refl _) rfl fun _ _ hi => hi) (List.Subset.refl _)
        fun _ _ hi => hi)
  cases m with
  | choose c => exact h.choose c
  | bind k rs setting =>
      simp only [move]
      split
      · exact h
      · refine World.timed_startTimers (w := { p.world with
          host := (p.world.host.attach (World.listenersOf s setting rs)).1 }) setting _ ?_
        exact h.shrink (h.toNumbered.shrink (List.Subperm.refl _) rfl fun _ _ hi => hi)
          (List.Subset.refl _) fun _ _ hi => hi
  | destroy k => exact hdown _
  | drop k => exact hdown _

/-- After any moves the listeners are divided among those who hold them. -/
theorem shared_run (s : Stage) (moves : List PremisesMove) :
    (run s {} moves).world.host.SharedBy (run s {} moves).own ∧ (run s {} moves).world.Timed [] := by
  suffices hall : ∀ p : Premises, p.world.host.SharedBy p.own ∧ p.world.Timed [] →
      (p.run s moves).world.host.SharedBy (p.run s moves).own ∧ (p.run s moves).world.Timed [] by
    refine hall {} ⟨⟨List.Pairwise.nil, by simp, ?_, ?_, by simp⟩, World.Reachable.initial.timed (s := s)⟩
    · rintro (q | k)
      · cases q <;> exact .slnil
      · exact .slnil
    · rintro (q | k) o' i hi
      · cases q <;> cases hi
      · cases hi
  induction moves with
  | nil => exact fun p h => h
  | cons m moves ih => exact fun p h => ih _ ⟨shared_move h.1 m, timed_move h.2 m⟩

end Premises

/-! ## The delivery of an event -/

/-- The batch that a listener runs upon an event, if it accepts the event. -/
def Listener.batch? (event : HostEvent) (l : Listener) :
    Option (Setting × Option FiredEvent × List Action) :=
  if l.accepts event then some (l.setting, some (.ofHost event l.place), l.actions) else none

/-- The batch that is to be run from its beginning, if one is. -/
def Job.batch? : Job → Option (Setting × Option FiredEvent × List Action)
  | .run setting event actions [] => some (setting, event, actions)
  | _ => none

/-- Who hears of an event in a turn of its delivery, and the batch that is run then. -/
def Moment.hearing? (s : Stage) (id : Nat) (base : List Wait) (m : Moment) :
    Option (Listener × Option (Setting × Option FiredEvent × List Action)) :=
  match m.above, m.job with
  | [], .fire _ (l :: _) _ =>
    some (l, ((m.job.step s m.world id base).2.task? id).bind fun t => t.job.batch?)
  | _, _ => none

namespace World

/-- Who hears of an event in some turns of its delivery. -/
def hearings (s : Stage) (id : Nat) (base : List Wait) (ms : List Moment) :
    List (Listener × Option (Setting × Option FiredEvent × List Action)) :=
  ms.filterMap (Moment.hearing? s id base)

/-- Some of the listeners to an event have heard of it, and the others are left. -/
structure Heard (s : Stage) (id : Nat) (base : List Wait) (event : HostEvent)
    (listeners heard waiting : List Listener) (ms : List Moment) : Prop where
  split : listeners = heard ++ waiting
  hearings : hearings s id base ms = heard.map fun l => (l, l.batch? event)

/-- Where the delivery of an event to some listeners is, after some turns. -/
inductive Rounds (s : Stage) (id : Nat) (base : List Wait) (event : HostEvent) (listeners : List Listener)
    (total : Nat) : List Moment → Job → List Wait → Prop where
  /-- The next listener is to hear of it, or none is left. -/
  | next {ms : List Moment} {heard waiting : List Listener} :
      Heard s id base event listeners heard waiting ms → ownTurns ms ≤ 2 * heard.length →
      Rounds s id base event listeners total ms (.fire event waiting total) []
  /-- A listener reacts. -/
  | within {ms : List Moment} {heard waiting : List Listener} {l : Listener} {job : Job}
      (top : List Wait) : Heard s id base event listeners (heard ++ [l]) waiting ms →
      ownTurns ms ≤ 2 * heard.length + 1 →
      Rounds s id base event listeners total ms job (top ++ [.fired event waiting total])
  /-- All have heard of it. -/
  | whole {ms : List Moment} : Heard s id base event listeners listeners [] ms →
      ownTurns ms ≤ 2 * listeners.length + 1 →
      Rounds s id base event listeners total ms (.ended (.counted total)) []
  /-- A reaction has broken off. -/
  | broken {ms : List Moment} {heard waiting : List Listener} {c : Crash} :
      Heard s id base event listeners heard waiting ms → ownTurns ms ≤ 2 * heard.length →
      (∃ m ∈ ms, m.above = [.fired event waiting total] ∧ m.job = .ended (.crashed c)) →
      Rounds s id base event listeners total ms (.ended (.crashed c)) []

variable {s : Stage} {w w' : World} {id total : Nat} {base : List Wait} {event : HostEvent}
  {listeners heard waiting : List Listener} {ms : List Moment} {job : Job} {above : List Wait}

theorem Heard.turn {l : Listener} {m : Moment}
    (h : Heard s id base event listeners heard (l :: waiting) ms)
    (hm : m.hearing? s id base = some (l, l.batch? event)) :
    Heard s id base event listeners (heard ++ [l]) waiting (ms ++ [m]) where
  split := by rw [h.split, List.append_assoc, List.singleton_append]
  hearings := by
    rw [World.hearings, List.filterMap_append, ← World.hearings, h.hearings]
    simp [hm]

theorem Heard.idle {m : Moment} (h : Heard s id base event listeners heard waiting ms)
    (hm : m.hearing? s id base = none) : Heard s id base event listeners heard waiting (ms ++ [m]) where
  split := h.split
  hearings := by
    rw [World.hearings, List.filterMap_append, ← World.hearings, h.hearings]
    simp [hm]

/-- The next listener hears of the event, or all have. -/
private theorem Rounds.step_next (hheard : Heard s id base event listeners heard waiting ms)
    (hown : ownTurns ms ≤ 2 * heard.length) :
    ∃ job' above', (Job.step s w id base (.fire event waiting total)).2.task? id =
        some ⟨id, job', above' ++ base⟩ ∧
      Rounds s id base event listeners total (ms ++ [⟨w, .fire event waiting total, []⟩])
        job' above' := by
  have hturns : ownTurns (ms ++ [⟨w, .fire event waiting total, []⟩]) = ownTurns ms + 1 := by
    rw [ownTurns_concat]
    rfl
  cases waiting with
  | nil =>
      obtain rfl : listeners = heard := by rw [hheard.split, List.append_nil]
      exact ⟨_, [], rfl, .whole (hheard.idle rfl) (by omega)⟩
  | cons l waiting =>
      cases haccepts : l.accepts event with
      | true =>
          refine ⟨.run l.setting (some (.ofHost event l.place)) l.actions [],
            [.report l.setting.outlet] ++ [.fired event waiting total], ?_,
            .within [.report l.setting.outlet] (hheard.turn ?_) (by omega)⟩
          · simp only [Job.step, fire, haccepts, if_true]
            rfl
          · simp [Moment.hearing?, Job.step, fire, haccepts, Turn.task?, Job.batch?, Listener.batch?]
      | false =>
          refine ⟨.fire event waiting total, [], ?_, .next (hheard.turn ?_) ?_⟩
          · simp only [Job.step, fire, haccepts, Bool.false_eq_true, if_false]
            rfl
          · simp [Moment.hearing?, Job.step, fire, haccepts, Turn.task?, Job.batch?, Listener.batch?]
          · rw [List.length_append, List.length_singleton]
            omega

/-- A reaction has ended, and it is the next one's turn unless it has broken off. -/
private theorem Rounds.step_resume {l : Listener} (o : Outcome)
    (hheard : Heard s id base event listeners (heard ++ [l]) waiting ms)
    (hown : ownTurns ms ≤ 2 * heard.length + 1) :
    ∃ job' above', (Job.step s w id (.fired event waiting total :: base) (.ended o)).2.task? id =
        some ⟨id, job', above' ++ base⟩ ∧
      Rounds s id base event listeners total (ms ++ [⟨w, .ended o, [.fired event waiting total]⟩])
        job' above' := by
  have hbound : ownTurns (ms ++ [⟨w, .ended o, [.fired event waiting total]⟩]) ≤
      2 * (heard ++ [l]).length := by
    have hturns : ownTurns (ms ++ [⟨w, .ended o, [.fired event waiting total]⟩]) = ownTurns ms + 1 := by
      rw [ownTurns_concat]
      rfl
    rw [List.length_append, List.length_singleton]
    omega
  cases o with
  | crashed c =>
      exact ⟨_, [], rfl, .broken (hheard.idle rfl) hbound
        ⟨_, List.mem_append_right _ List.mem_cons_self, rfl, rfl⟩⟩
  | _ => exact ⟨_, [], rfl, .next (hheard.idle rfl) hbound⟩

/-- A turn in the delivery of an event. -/
theorem Rounds.step (h : Rounds s id base event listeners total ms job above)
    (hgo : job.isEnded = true → above ≠ []) :
    ∃ job' above', (job.step s w id (above ++ base)).2.task? id = some ⟨id, job', above' ++ base⟩ ∧
      Rounds s id base event listeners total (ms ++ [⟨w, job, above⟩]) job' above' := by
  cases h with
  | next hheard hown => exact Rounds.step_next hheard hown
  | @within heard waiting l job top hheard hown =>
      rcases job.ended_or_goes top with ⟨o, rfl, rfl⟩ | hgo'
      · exact Rounds.step_resume o hheard hown
      · -- The reaction goes on, and the delivery waits
        have hidle : Moment.hearing? s id base ⟨w, job, top ++ [.fired event waiting total]⟩ = none := by
          cases top <;> rfl
        obtain ⟨job', top', hturn⟩ := Job.step_over s w id ([.fired event waiting total] ++ base) hgo'
        refine ⟨job', top' ++ [.fired event waiting total], ?_, .within top' (hheard.idle hidle) ?_⟩
        · rw [List.append_assoc, hturn, List.append_assoc]
        · rw [ownTurns_concat, Moment.isOwn_concat hgo']
          simpa using hown
  | whole => exact absurd rfl (hgo rfl)
  | broken => exact absurd rfl (hgo rfl)

/-- The delivery of an event along a stint. -/
theorem Stint.rounds (hw : Timed w []) (ht : ⟨id, .fire event listeners total, base⟩ ∈ w.tasks)
    (h : Stint s id base w w' ms) : Timed w' [] ∧ ∃ job above, ⟨id, job, above ++ base⟩ ∈ w'.tasks ∧
      Rounds s id base event listeners total ms job above := by
  obtain ⟨hw', -, job, above, hmem, hrounds⟩ := h.carry
    (I := fun _ => True) (P := Rounds s id base event listeners total) _ []
    (fun _ _ _ => trivial)
    (fun ms v others job above _ hP hgo => hP.step hgo)
    hw trivial ht rfl
    (.next (⟨rfl, rfl⟩ : Heard s id base event listeners [] listeners []) (Nat.le_refl 0))
  exact ⟨hw', job, above, hmem, hrounds⟩

end World

namespace Premises

variable {s : Stage} {p p' : Premises} {k : Nat} {rs : List Reaction} {setting : Setting}
  {m : PremisesMove}

/-- Nobody but an engine is concerned: all others hold the listeners that they have held, in the same
order. -/
def SparesOthers (k : Nat) (p p' : Premises) : Prop :=
  ∀ o, o ≠ .inr k → p'.own o = p.own o ∧ p'.held o = p.held o

theorem spares_bind (h : p.world.host.SharedBy p.own) (hlive : (p.engines k).dropped = false) :
    SparesOthers k p (p.move s (.bind k rs setting)) := by
  intro o hne
  refine ⟨own_bind_of_ne hne, ?_⟩
  rw [held, own_bind_of_ne hne, host_bind hlive]
  exact h.filter_attach (fun f hf n => World.id_of_listenersOf hf n) o

theorem spares_ends (h : p.world.host.SharedBy p.own) (hm : Ends k m) :
    SparesOthers k p (p.move s m) := by
  intro o hne
  refine ⟨own_ends_of_ne hm hne, ?_⟩
  rw [held, own_ends_of_ne hm hne, host_ends hm]
  exact h.filter_detach hne

/-- What an engine puts up comes behind all that is there, one listener for each rule that waits for an
event. -/
theorem listeners_bind (s : Stage) (rs : List Reaction) (setting : Setting)
    (hlive : (p.engines k).dropped = false) : ∃ new,
    (p.move s (.bind k rs setting)).world.host.listeners = p.world.host.listeners ++ new ∧
    List.Forall₂ (Reaction.Becomes s setting) (rs.filter Reaction.listens) new ∧
    (p.move s (.bind k rs setting)).own (.inr k) = p.own (.inr k) ++ new.map Listener.id := by
  refine ⟨_, ?_, Reaction.becomes_listenersOf s setting rs p.world.host.next, ?_⟩
  · rw [host_bind hlive, Host.attach_eq]
  · have hids : (p.world.host.attach (World.listenersOf s setting rs)).1.listeners.map Listener.id = _ :=
      Host.ids_attach fun f hf n => World.id_of_listenersOf hf n
    simp only [Host.attach_eq, List.map_append, List.append_cancel_left_eq] at hids
    rw [own_bind hlive, Host.attach_eq, hids]

/-- Engines that share a host have their own listeners.

- After any moves the listeners of the host are divided among the engines and the two parts of the player:
  every listener has one owner.
- Putting rules up adds a listener for each rule that waits for an event with a name, behind all that are
  there and in the order of the rules.
- Taking down what one engine has put up takes away its listeners and no others, and all others stay as
  they were.  Doing so twice is the same as once.
- When an event is dispatched, those whose event and place match hear of it, one after the other and in
  their order; who accepts it runs its actions then.  Each takes two turns at most, besides those that its
  reaction takes.  Unless a reaction breaks off, the delivery ends when all have heard, and says how many
  they were. -/
theorem engines_own_their_listeners (s : Stage) (moves : List PremisesMove) :
    let p := run s {} moves
    p.world.host.SharedBy p.own ∧
    (∀ k rs setting, (p.engines k).dropped = false → ∃ new,
      (p.move s (.bind k rs setting)).world.host.listeners = p.world.host.listeners ++ new ∧
      List.Forall₂ (Reaction.Becomes s setting) (rs.filter Reaction.listens) new ∧
      (p.move s (.bind k rs setting)).own (.inr k) = p.own (.inr k) ++ new.map Listener.id ∧
      SparesOthers k p (p.move s (.bind k rs setting))) ∧
    (∀ k m, Ends k m →
      (p.move s m).world.host.listeners =
        p.world.host.listeners.filter (fun l => !(p.own (.inr k)).contains l.id) ∧
      (p.move s m).own (.inr k) = [] ∧ SparesOthers k p (p.move s m) ∧
      ∀ m', Ends k m' → ((p.move s m).move s m').world = (p.move s m).world ∧
        (m' = m → (p.move s m).move s m' = p.move s m)) ∧
    (∀ event, let listeners := p.world.host.matching event
      (p.move s (.choose (.ask (.dispatch event)))).world =
        p.world.start (.fire event listeners listeners.length) []) ∧
    ∀ id base event listeners total w' ms,
      ⟨id, .fire event listeners total, base⟩ ∈ p.world.tasks →
      World.Stint s id base p.world w' ms →
      ∃ heard waiting, World.Heard s id base event listeners heard waiting ms ∧
        ownTurns ms ≤ 2 * listeners.length + 1 ∧ (∃ t ∈ w'.tasks, t.id = id) ∧
        ∀ o, ⟨id, .ended o, base⟩ ∈ w'.tasks →
          (o = .counted total ∧ waiting = []) ∨
          ∃ c, o = .crashed c ∧ ∃ m ∈ ms, m.above = [.fired event waiting total] ∧
            m.job = .ended (.crashed c) := by
  intro p
  obtain ⟨hshared, htimed⟩ := shared_run s moves
  refine ⟨hshared, fun k rs setting hlive => ?_, fun k m hm => ?_, fun event => rfl, ?_⟩
  · obtain ⟨new, hlisteners, hbecomes, hown⟩ := listeners_bind s rs setting hlive
    exact ⟨new, hlisteners, hbecomes, hown, spares_bind hshared hlive⟩
  · refine ⟨by rw [host_ends hm, Host.detach], own_ends hm, spares_ends hshared hm, fun m' hm' => ?_⟩
    have hempty : ((p.move s m).engines k).rig = {} := by cases hm <;> simp [move]
    have hworld : ((p.move s m).move s m').world = (p.move s m).world := by
      rw [world_ends hm', hempty, takeDown_empty]
    refine ⟨hworld, ?_⟩
    rintro rfl
    refine congrArg₂ Premises.mk hworld ?_
    cases hm <;> simp [move]
  · intro id base event listeners total w' ms hmem hstint
    obtain ⟨hw', job, above, hmem', hrounds⟩ := hstint.rounds htimed hmem
    have hended : ∀ o, ⟨id, .ended o, base⟩ ∈ w'.tasks → job = .ended o ∧ above = [] := fun o ho =>
      hw'.ended_unique hmem' ho
    cases hrounds with
    | @next heard waiting hheard hown =>
        have hlength := congrArg List.length hheard.split
        rw [List.length_append] at hlength
        refine ⟨heard, waiting, hheard, by omega, ⟨_, hmem', rfl⟩, fun o ho => ?_⟩
        cases (hended o ho).1
    | @within heard waiting l job top hheard hown =>
        have hlength := congrArg List.length hheard.split
        rw [List.length_append, List.length_append, List.length_singleton] at hlength
        refine ⟨_, waiting, hheard, by omega, ⟨_, hmem', rfl⟩, fun o ho => ?_⟩
        simpa using (hended o ho).2
    | whole hheard hown =>
        refine ⟨listeners, [], hheard, hown, ⟨_, hmem', rfl⟩, fun o ho => .inl ⟨?_, rfl⟩⟩
        cases (hended o ho).1
        rfl
    | @broken heard waiting c hheard hown hbroken =>
        have hlength := congrArg List.length hheard.split
        rw [List.length_append] at hlength
        refine ⟨heard, waiting, hheard, by omega, ⟨_, hmem', rfl⟩, fun o ho => .inr ⟨c, ?_, hbroken⟩⟩
        cases (hended o ho).1
        rfl

end Premises

/-- A stage on which one kind of action succeeds. -/
def Stage.square : Stage where
  document := ⟨[], [], none, []⟩
  handlers := ⟨[("ok", fun _ => .succeed)]⟩

namespace Premises

/-- A rule that succeeds upon a click anywhere. -/
def applause : Reaction :=
  ⟨.click, none, none, none, none, [⟨"ok", none⟩]⟩

/-- The circumstances in which the rules of the engines hold. -/
def squareSetting : Setting :=
  ⟨-1, none, .continueOnError, .record⟩

/-- A click on the element that holds all others. -/
def squareClick : HostEvent :=
  ⟨"click", .element Elements.root, 0, none, none, none⟩

/-- Three engines put up a rule each, the first one takes its own down, and there is a click. -/
def crowd : List PremisesMove :=
  [.bind 0 [applause] squareSetting, .bind 1 [applause] squareSetting, .destroy 0,
    .bind 2 [applause] squareSetting, .choose (.ask (.dispatch squareClick))]

/-- The world of the three engines. -/
def crowded : Premises :=
  run .square {} crowd

/-- Of the three engines two have a listener left, which both hear the click; a timer and a rule without
an event name add none, and dropping an engine leaves the other one its listener. -/
theorem crowded_own_their_listeners :
    (∃ new : List Listener, new.length = 1 ∧
      (crowded.move .square (.bind 1 [⟨.timer, none, none, none, none, []⟩, applause,
        ⟨.custom, none, none, none, none, []⟩] squareSetting)).own (.inr 1) =
          crowded.own (.inr 1) ++ new.map Listener.id) ∧
    ((crowded.move .square (.drop 1)).own (.inr 1) = [] ∧
      (crowded.move .square (.drop 1)).own (.inr 2) = [2]) ∧
    ∃ heard : List Listener, heard.map Listener.id = [1, 2] ∧
      ∃ ms, World.Heard .square 0 [] squareClick heard heard [] ms := by
  obtain ⟨-, hbind, hends, -, hdispatch⟩ := engines_own_their_listeners .square crowd
  refine ⟨?_, ?_, ?_⟩
  · obtain ⟨new, -, hbecomes, hown, -⟩ := hbind 1 [⟨.timer, none, none, none, none, []⟩, applause,
      ⟨.custom, none, none, none, none, []⟩] squareSetting rfl
    exact ⟨new, hbecomes.length_eq.symm, hown⟩
  · obtain ⟨-, hnone, hothers, -⟩ := hends 1 _ .drop
    exact ⟨hnone, (hothers (.inr 2) (by simp)).1.trans rfl⟩
  · have hstint : World.Stint .square 0 [] crowded.world _ _ :=
      .follow (List.replicate 15 (.turn 0)) (by decide)
    obtain ⟨heard, waiting, hheard, -, -, hover⟩ :=
      hdispatch 0 [] squareClick _ _ _ _ List.mem_cons_self hstint
    rcases hover (.counted 2) List.mem_cons_self with ⟨-, rfl⟩ | ⟨c, hc, -⟩
    · have hall := hheard.split
      rw [List.append_nil] at hall
      subst hall
      exact ⟨_, rfl, _, hheard⟩
    · cases hc

end Premises

end DiagramTour
