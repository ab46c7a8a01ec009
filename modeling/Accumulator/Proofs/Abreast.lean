import Accumulator.Proofs.Informing
import Mathlib.Data.List.Basic

/-! Who stays abreast of a source. Everyone who is told of a change is shown the state that the
source had when the telling began. Whoever calls on being told may change the source before the
others have heard, so that they hear of the later state first and of the earlier one last. A
subscriber is safe from that if all those who are told before it only take note. -/

namespace Accumulator

/-- A notice of the kind that the source gives. -/
def Notice.Of : Source → Notice → Prop
  | .memory, .memory _ => True
  | .machine, .machine _ => True
  | .program _, .program _ => True
  | _, _ => False

/-- Of what a source tells, the subscriber only takes note. -/
def Conduct.Notes (source : Source) (react : Conduct) : Prop :=
  ∀ state notice, notice.Of source → (react state notice).2 = .done

/-- The subscriber does not fail, and does not register the given one with the source. If that is
the memory, it only takes note of what the machine tells. -/
def Conduct.Sparing (source : Source) (k : Nat) (react : Conduct) : Prop :=
  Conduct.Unfailing (· ≠ .observe source k) react ∧
    (source = .memory → Conduct.Notes .machine react)

/-- A subscriber was shown a source. -/
def Event.To (e : Event) (k : Nat) (source : Source) : Prop := e.subscriber = k ∧ e.source = source

/-- What is shown of the machine, or of its memory, is their state at that moment. -/
def Event.Current (e : Event) : Prop :=
  match e.source with
  | .memory => e.notice = .memory e.moment.memory
  | .machine => e.notice = .machine e.moment
  | .program _ => True

/-- Among events, the latest first, a subscriber is shown a source as it is at each moment, and
never an older program after a newer one. -/
structure Timely (k : Nat) (source : Source) (es : List Event) : Prop where
  current : ∀ e ∈ es, e.To k source → e.Current
  ordered : es.Pairwise fun later earlier => later.To k source → earlier.To k source →
    earlier.notice.age ≤ later.notice.age

namespace Computer

/-- Everyone who is registered with a source ahead of a subscriber only takes note of it. -/
def Fronts (c : Computer) (source : Source) (k : Nat) : Prop :=
  ∀ j s, [j, k].Sublist (c.audience source) → c.subscribers[j]? = some s →
    Conduct.Notes source s.react

/-- Since `start`, a subscriber has been shown a source in time, and if it is registered it has been
shown the state that the source is in, unless that is still owed. A program is left out if it has
gone on where nothing was executed. -/
structure Abreast (w n : Nat) (t : Dispatch) (B : Conduct → Prop) (c start : Computer)
    (source : Source) (k : Nat) (owed : Prop) : Prop where
  sound : c.Sound w n t B
  registered : c.Registered
  fronts : c.Fronts source k
  since : start.idleEntries source ≤ c.idleEntries source
  told : ∃ es, c.events = es ++ start.events ∧ Timely k source es ∧
    ∀ e ∈ es, e.To k source → e.notice.age ≤ c.age source
  last : ¬ owed → k ∈ c.audience source → c.idleEntries source = start.idleEntries source →
    (c.received k source).getLast? = c.shown? source

variable {w n : Nat} {t : Dispatch} {B : Conduct → Prop} {start c d : Computer} {source : Source}
  {k : Nat} {owed : Prop} {notice : Notice}

theorem of_shown (hs : c.shown? source = some notice) : notice.Of source := by
  cases source with
  | program j =>
    obtain ⟨p, -, rfl⟩ := Option.map_eq_some_iff.mp hs
    trivial
  | _ => exact Option.some.inj hs ▸ trivial

theorem shown_of_audience (hk : k ∈ c.audience source) :
    ∃ notice, c.shown? source = some notice := by
  cases source with
  | program j =>
    cases hp : c.programs[j]? with
    | none => simp [audience, hp] at hk
    | some p => exact ⟨_, by rw [shown?, hp]; rfl⟩
  | _ => exact ⟨_, rfl⟩

theorem age_shown (hs : c.shown? source = some notice) : c.age source = notice.age := by
  rw [age, hs]
  rfl

theorem current_shown (hs : c.shown? source = some notice) :
    Event.Current ⟨k, source, notice, c.machine⟩ := by
  cases source with
  | program j => trivial
  | _ => exact (Option.some.inj hs).symm

/-- Who registers comes last. -/
theorem Fronts.register {s : Source} {j : Nat} (h : c.Fronts source k)
    (hs : (c.shown? s).isSome = true) (hother : ¬ (j = k ∧ s = source)) :
    (c.register s j).Fronts source k := by
  intro i r hi hr
  rw [(Unheard.registered c s j).subscribers] at hr
  rw [audience_register hs] at hi
  split at hi
  · rename_i hsource
    have hne : k ≠ j := fun h => hother ⟨h.symm, hsource⟩
    have hreverse := List.reverse_sublist.mpr hi
    rw [List.reverse_concat] at hreverse
    exact h i r (List.reverse_sublist.mp (hreverse.of_cons_of_ne hne)) hr
  · exact h i r hi hr

theorem fronts_register (hs : (c.shown? source).isSome = true)
    (hnotes : ∀ j ∈ c.audience source, ∀ s, c.subscribers[j]? = some s →
      Conduct.Notes source s.react) : (c.register source k).Fronts source k := by
  intro i r hi hr
  rw [(Unheard.registered c source k).subscribers] at hr
  rw [audience_register hs, if_pos rfl] at hi
  have hreverse := List.reverse_sublist.mpr hi
  rw [List.reverse_concat] at hreverse
  have hmem : i ∈ (c.audience source).reverse :=
    List.singleton_sublist.mp (List.cons_sublist_cons.mp hreverse)
  exact hnotes i (List.mem_reverse.mp hmem) r hr

theorem react_note {ss : List Subscriber} {i j state : Nat} {s : Subscriber}
    (hs : (ss.modify i fun s => { s with state })[j]? = some s) :
    ∃ r, ss[j]? = some r ∧ r.react = s.react := by
  have hreact := congrArg (Option.map Subscriber.react) hs
  rw [← List.getElem?_map, react_modify, List.getElem?_map] at hreact
  exact Option.map_eq_some_iff.mp hreact

namespace Abreast

theorem absent (hs : c.Sound w n t B) (hr : c.Registered) (hk : k ∉ c.audience source) :
    c.Abreast w n t B c source k owed where
  sound := hs
  registered := hr
  fronts j _ hj := absurd (hj.subset (List.mem_cons_of_mem j List.mem_cons_self)) hk
  since := Nat.le_refl _
  told := ⟨[], rfl, ⟨List.forall_mem_nil _, .nil⟩, List.forall_mem_nil _⟩
  last _ hmem := absurd hmem hk

theorem imp {owed' : Prop} (h : c.Abreast w n t B start source k owed)
    (howed : k ∈ c.audience source → owed → owed') : c.Abreast w n t B start source k owed' :=
  ⟨h.sound, h.registered, h.fronts, h.since, h.told,
    fun hpaid hk => h.last (fun ho => hpaid (howed hk ho)) hk⟩

theorem unheard {X : Source → Prop} {N : Prop} (h : c.Abreast w n t B start source k owed)
    (hu : c.Unheard X d) (hs : d.Sound w n t B) (hr : d.Registered) (hfronts : d.Fronts source k)
    (hk : k ∈ d.audience source → k ∈ c.audience source ∨ N) :
    d.Abreast w n t B start source k (X source ∨ N ∨ owed) := by
  refine ⟨hs, hr, hfronts, h.since.trans (hu.idle source), ?_, fun howed hd hidle => ?_⟩
  · obtain ⟨es, hes, htimely, hage⟩ := h.told
    exact ⟨es, hu.events.trans hes, htimely,
      fun e he hto => (hage e he hto).trans (hu.age source)⟩
  · have hsame : c.idleEntries source = start.idleEntries source :=
      Nat.le_antisymm ((hu.idle source).trans_eq hidle) h.since
    rw [received, hu.events, hu.shown source fun hX => howed (.inl hX)]
    have hstill := (hk hd).resolve_right fun hN => howed (.inr (.inl hN))
    exact h.last (fun ho => howed (.inr (.inr ho))) hstill hsame

theorem untold {X : Source → Prop} (h : c.Abreast w n t B start source k owed)
    (hu : c.Untold X d) (hs : d.Sound w n t B) :
    d.Abreast w n t B start source k (X source ∨ owed) := by
  obtain ⟨ks, hks⟩ := h.registered
  refine (h.unheard (N := False) hu.toUnheard hs ⟨ks, hu.watchers.trans hks⟩ (fun j s hj hsub => ?_)
    fun hk => .inl ?_).imp fun _ ho => ho.imp_right fun ho => ho.resolve_left id
  · rw [hu.audience source] at hj
    exact h.fronts j s hj (hu.subscribers ▸ hsub)
  · rwa [hu.audience source] at hk

/-- Someone is shown a source. If it is the subscriber that is shown the source, and as it is now,
then nothing is owed any more. -/
theorem give (h : c.Abreast w n t B start source k owed) {j : Nat} {s : Source}
    (hN : notice.Sound w n t)
    (hnow : j = k ∧ s = source → c.shown? source = some notice) :
    Abreast w n t B { c with events := ⟨j, s, notice, c.machine⟩ :: c.events } start source k
      (owed ∧ ¬ (j = k ∧ s = source)) := by
  let e : Event := ⟨j, s, notice, c.machine⟩
  refine ⟨Sound.invariant.change h.sound (.give j s notice hN), h.registered, h.fronts, h.since, ?_,
    fun howed hk hidle => ?_⟩
  · obtain ⟨es, hes, htimely, hage⟩ := h.told
    have hself (hto : e.To k source) : notice.age = c.age source := (age_shown (hnow hto)).symm
    refine ⟨e :: es, congrArg (e :: ·) hes, ⟨?_, ?_⟩, ?_⟩
    · refine List.forall_mem_cons.mpr ⟨?_, htimely.current⟩
      rintro ⟨rfl, rfl⟩
      exact current_shown (hnow ⟨rfl, rfl⟩)
    · refine List.pairwise_cons.mpr ⟨fun earlier hmem hto hearlier => ?_, htimely.ordered⟩
      exact (hage earlier hmem hearlier).trans_eq (hself hto).symm
    · exact List.forall_mem_cons.mpr ⟨fun hto => (hself hto).le, hage⟩
  · have hreceived := received_give c e c.subscribers k source
    refine (congrArg List.getLast? hreceived).trans (show _ = c.shown? source from ?_)
    by_cases hself : j = k ∧ s = source
    · rw [hnow hself]
      obtain ⟨rfl, rfl⟩ := hself
      rw [noticesTo_self, List.getLast?_concat]
    · rw [noticesTo_other hself, List.append_nil]
      exact h.last (fun ho => howed ⟨ho, hself⟩) hk hidle

theorem note (h : c.Abreast w n t B start source k owed) (i state : Nat) :
    Abreast w n t B
      { c with subscribers := c.subscribers.modify i fun s => { s with state } } start source k
      owed := by
  refine ⟨Sound.invariant.change h.sound (.note i state), h.registered, fun j s hj hs => ?_,
    h.since, h.told, h.last⟩
  obtain ⟨r, hr, hreact⟩ := react_note hs
  exact hreact ▸ h.fronts j r hj hr

end Abreast

end Computer

namespace Routine

open Computer

variable {w n : Nat} {t : Dispatch} {B : Conduct → Prop} {start : Computer} {source : Source}
  {k : Nat} {call : Caller}

theorem abreast_unobserve (s : Source) (j : Nat) :
    Keeps (fun c => c.Abreast w n t B start source k False) (unobserve s j) := by
  intro c hc
  have hr := registered_invariant.keeps_unobserve s j c ⟨hc.sound.watched, hc.registered⟩
  have hfewer : (((unobserve s j).on c).2.audience source).Sublist (c.audience source) := by
    rw [audience_unobserve]
    split
    · exact List.filter_sublist
    · exact List.Sublist.refl _
  have hu : c.Unheard (fun _ => False) ((unobserve s j).on c).2 := .removed c s j
  refine (hc.unheard (N := False) hu (Sound.invariant.keeps_unobserve s j c hc.sound) hr.2
    (fun i r hi hsub => ?_) fun hk => .inl (hfewer.subset hk)).imp
      fun _ h => (h.resolve_left id).resolve_left id
  exact hc.fronts i r (hi.trans hfewer) (hu.subscribers ▸ hsub)

/-- The subscriber has not been told yet, but everyone who is told before it. -/
structure Due (w n : Nat) (t : Dispatch) (B : Conduct → Prop) (start : Computer) (source : Source)
    (k : Nat) (notice : Notice) (ks : List Nat) (c : Computer) : Prop where
  abreast : c.Abreast w n t B start source k True
  shown : c.shown? source = some notice
  audience : c.audience source = ks

/-- Who only takes note changes nothing about what a source shows. -/
theorem due_deliver {notice told : Notice} {ks : List Nat} {s : Source} {j : Nat}
    (hN : told.Sound w n t) (htold : j = k ∧ s = source → told = notice)
    (hnotes : ∀ c, Due w n t B start source k notice ks c → ∀ r, c.subscribers[j]? = some r →
      ∀ state, (r.react state told).2 = .done) :
    Meets (Due w n t B start source k notice ks) (Due w n t B start source k notice ks)
      (fun _ => False) (deliver call s told j) := by
  intro c hc
  have hgiven := (hc.abreast.give (j := j) (s := s) hN fun h => by
    rw [htold h]
    exact hc.shown).imp fun _ _ => trivial
  rw [on_deliver]
  cases hr : c.subscribers[j]? with
  | none => exact ⟨hgiven, hc.shown, hc.audience⟩
  | some r =>
    simp only [hnotes c hc r hr r.state]
    exact ⟨hgiven.note j _, hc.shown, hc.audience⟩

section
variable (hB : ∀ react, B react → Conduct.Unfailing (· ≠ .observe source k) react)
  (hcall : ∀ command, command ≠ .observe source k →
    Keeps (fun c => c.Abreast w n t B start source k False) (call command))
include hB hcall

/-- Nothing is owed to the subscriber once it has been shown the source as it is, or while others
are told. -/
theorem abreast_deliver {notice : Notice} {s : Source} (hN : notice.Sound w n t) (j : Nat) :
    Meets (fun c => c.Abreast w n t B start source k (j = k ∧ s = source) ∧
        (j = k ∧ s = source → c.shown? source = some notice))
      (fun c => c.Abreast w n t B start source k False) (fun _ => False)
      (deliver call s notice j) := by
  rintro c ⟨hc, hnow⟩
  have hgiven := (hc.give hN hnow).imp fun _ h => h.2 h.1
  rw [on_deliver]
  cases hs : c.subscribers[j]? with
  | none => exact hgiven
  | some r =>
    have hunfailing := hB _ (hc.sound.conduct r (List.mem_of_getElem? hs)) r.state notice
    exact meets_react hcall hunfailing _ (hgiven.note j _)

theorem abreast_others {notice : Notice} {s : Source} (hN : notice.Sound w n t) {ks : List Nat}
    (hothers : s = source → k ∉ ks) :
    Meets (fun c => c.Abreast w n t B start source k False)
      (fun c => c.Abreast w n t B start source k False) (fun _ => False)
      (ks.forM (deliver call s notice)) := by
  refine Meets.forM fun j hj => (abreast_deliver hB hcall hN j).strengthen fun c hc => ?_
  have hother : ¬ (j = k ∧ s = source) := fun h => hothers h.2 (h.1 ▸ hj)
  exact ⟨hc.imp fun _ h => h.elim, fun h => absurd h hother⟩

/-- A source that has changed tells those who are registered, and the subscriber is one of them. -/
theorem due_delivers {notice : Notice} (hN : notice.Sound w n t) {ks : List Nat} (rest : List Nat)
    (hrest : rest.Sublist ks) (hk : k ∈ rest) :
    Meets (Due w n t B start source k notice ks)
      (fun c => c.Abreast w n t B start source k False) (fun _ => False)
      (rest.forM (deliver call source notice)) := by
  -- The induction is on those who are still to be told; it ends with the subscriber's last turn.
  induction rest with
  | nil => cases hk
  | cons j rest ih =>
    by_cases hlater : k ∈ rest
    · -- Someone ahead of it takes note, so that the source is unchanged when its turn comes.
      refine Meets.bind (due_deliver hN (fun _ => rfl) fun c hc r hr state => ?_) fun _ =>
        ih ((List.sublist_cons_self j rest).trans hrest) hlater
      have hahead : [j, k].Sublist (j :: rest) := (List.singleton_sublist.mpr hlater).cons_cons j
      exact hc.abreast.fronts j r (hc.audience ▸ hahead.trans hrest) hr state notice
        (of_shown hc.shown)
    · -- From here on it hears of every further change.
      obtain rfl : k = j := (List.mem_cons.mp hk).resolve_right hlater
      refine Meets.bind ((abreast_deliver hB hcall hN k).strengthen fun c hc => ?_) fun _ =>
        abreast_others hB hcall hN fun _ => hlater
      exact ⟨hc.abreast.imp fun _ _ => ⟨rfl, rfl⟩, fun _ => hc.shown⟩

theorem due_audience {notice : Notice} (hN : notice.Sound w n t) (ks : List Nat) :
    Meets (Due w n t B start source k notice ks)
      (fun c => c.Abreast w n t B start source k False) (fun _ => False)
      (ks.forM (deliver call source notice)) := by
  by_cases hk : k ∈ ks
  · exact due_delivers hB hcall hN ks (List.Sublist.refl _) hk
  · refine (abreast_others hB hcall hN fun _ => hk).strengthen fun c hc => ?_
    exact hc.abreast.imp fun hmem _ => hk (hc.audience ▸ hmem)

theorem abreast_audience {c : Computer} {s : Source} {notice : Notice}
    (hc : c.Abreast w n t B start source k (s = source)) (hshown : c.shown? s = some notice) :
    Meets (· = c) (fun c => c.Abreast w n t B start source k False) (fun _ => False)
      ((c.audience s).forM (deliver call s notice)) := by
  have hN := hc.sound.shown hshown
  by_cases hs : s = source
  · subst hs
    exact (due_audience hB hcall hN _).of_eq ⟨hc.imp fun _ _ => trivial, hshown, rfl⟩
  · exact (abreast_others hB hcall hN fun h => absurd h hs).of_eq (hc.imp fun _ => hs)

/-- A machine that has changed its memory tells first. If it is the memory that the subscriber is to
stay abreast of, those whom the machine tells only take note. -/
theorem abreast_stored (hM : source = .memory → ∀ react, B react → Conduct.Notes .machine react)
    {c d : Computer} (hc : c.Abreast w n t B start source k (.machine = source))
    (hu : c.Untold (fun s => s = .machine ∨ s = .memory) d) (hd : d.Sound w n t B) :
    Meets (· = d) (fun c => c.Abreast w n t B start source k False) (fun _ => False) (do
      notifyMachine call
      (d.audience .memory).forM (deliver call .memory (.memory d.machine.memory))) := by
  have h := hc.untold hu hd
  have hN : Notice.Sound w n t (.memory d.machine.memory) := hd.machine.memory
  by_cases hmemory : source = .memory
  · subst hmemory
    let owed := Due w n t B start .memory k (.memory d.machine.memory) (d.audience .memory)
    have hdue : owed d := ⟨h.imp fun _ _ => trivial, rfl, rfl⟩
    have hmachine : Meets owed owed (fun _ => False)
        (d.machineWatchers.forM (deliver call .machine (.machine d.machine))) :=
      Meets.forM fun j _ => due_deliver hd.machine (fun h => nomatch h.2) fun c hc r hr state =>
        hM rfl _ (hc.abreast.sound.conduct r (List.mem_of_getElem? hr)) state _ trivial
    exact Meets.bind (.here (hmachine d hdue)) fun _ => due_audience hB hcall hN _
  · have hother : d.Abreast w n t B start source k (.machine = source) := h.imp fun _ ho => by
      rcases ho with (h | h) | h
      · exact h.symm
      · exact absurd h hmemory
      · exact h
    have hmachine := abreast_audience hB hcall hother rfl
    exact Meets.bind (.here (hmachine d rfl)) fun _ =>
      abreast_others hB hcall hN fun h => absurd h.symm hmemory

theorem abreast_register {c : Computer} {s : Source} {j : Nat} {notice : Notice}
    (hc : c.Abreast w n t B start source k False) (hshown : c.shown? s = some notice)
    (hfronts : (c.register s j).Fronts source k) : Meets (· = c.register s j)
      (fun c => c.Abreast w n t B start source k False) (fun _ => False)
      (deliver call s notice j) := by
  have hu : c.Unheard (fun _ => False) (c.register s j) := .registered c s j
  have hnew := hc.unheard (N := j = k ∧ s = source) hu (hc.sound.register s j)
    (hc.registered.register hc.sound.watched s j) hfronts fun hk => by
      rw [audience_register (by rw [hshown]; rfl)] at hk
      split at hk
      · rename_i hs
        rcases List.mem_append.mp hk with hk | hk
        · exact .inl hk
        · exact .inr ⟨(List.mem_singleton.mp hk).symm, hs⟩
      · exact .inl hk
  refine (abreast_deliver hB hcall (hc.sound.shown hshown) j).of_eq ⟨hnew.imp fun _ h => ?_, ?_⟩
  · exact (h.resolve_left id).resolve_right id
  · rintro ⟨-, rfl⟩
    exact (hu.shown s nofun).trans hshown

theorem abreast_tidings (hM : source = .memory → ∀ react, B react → Conduct.Notes .machine react) :
    Tidings w n t B (· ≠ .observe source k) call
      (fun c => c.Abreast w n t B start source k False)
      fun s c => c.Abreast w n t B start source k (s = source) ∧ (c.shown? s).isSome where
  sound h := h.sound
  soundly h := h.1.sound
  registered h := h.1.registered
  shown h := h.2
  aside h hu hs := (h.untold hu hs).imp fun _ h => h.elim id id
  change h hu hs hshown := ⟨(h.untold hu hs).imp fun _ h => (h.resolve_right id).symm, hshown⟩
  further h hu hs hshown := ⟨(h.1.untold hu hs).imp fun _ h => h.elim Eq.symm id, hshown⟩
  idle {j c d} h hu hs hidle := by
    have hd := h.untold hu hs
    refine ⟨hd.sound, hd.registered, hd.fronts, hd.since, hd.told, fun _ hk hsame => ?_⟩
    refine hd.last (fun ho => ?_) hk hsame
    obtain rfl := ho.resolve_right id
    exact absurd hsame (Nat.ne_of_gt (h.since.trans_lt hidle))
  audience h hshown := abreast_audience hB hcall h.1 hshown
  stored h hu hs := abreast_stored hB hcall hM h.1 hu hs
  register {s j c notice} hC h hshown := by
    have hother : ¬ (j = k ∧ s = source) := by
      rintro ⟨rfl, rfl⟩
      exact hC rfl
    exact abreast_register hB hcall h hshown
      (h.fronts.register (by rw [hshown]; rfl) hother)
  unobserve s j := abreast_unobserve s j

end

theorem abreast_performWithin
    (hB : ∀ react, B react → Conduct.Unfailing (· ≠ .observe source k) react)
    (hM : source = .memory → ∀ react, B react → Conduct.Notes .machine react) (depth : Nat) :
    ∀ command, command ≠ .observe source k →
      Keeps (fun c => c.Abreast w n t B start source k False) (performWithin depth command) := by
  induction depth with
  | zero => exact fun _ _ => Keeps.throw _
  | succ depth ih => exact fun _ h => (abreast_tidings hB ih hM).keeps_perform h

end Routine

namespace Computer

open Routine

variable {w n : Nat} {t : Dispatch} {source : Source} {k : Nat} {c : Computer}

theorem perform_informed (hs : c.Sound w n t (Conduct.Unfailing fun _ => True)) (hr : c.Registered)
    (command : Command) : (c.perform command).2.Informed w n t (Conduct.Unfailing fun _ => True) c
      (fun _ => False) fun _ _ _ => False :=
  (informed_tidings (fun _ h => h)
    (informed_performWithin (fun _ h => h) c.bound) _ _).keeps_perform trivial c
      (Informed.refl hs hr)

theorem perform_abreast {start : Computer}
    (h : c.Abreast w n t (Conduct.Sparing source k) start source k False) {command : Command}
    (hcommand : command ≠ .observe source k) :
    (c.perform command).2.Abreast w n t (Conduct.Sparing source k) start source k False :=
  (abreast_tidings (fun _ h => h.1) (abreast_performWithin (fun _ h => h.1) (fun hm _ h => h.2 hm)
    c.bound) fun hm _ h => h.2 hm).keeps_perform hcommand c h

theorem performAll_abreast {start : Computer}
    (h : c.Abreast w n t (Conduct.Sparing source k) start source k False) (commands : List Command)
    (hcommands : ∀ command ∈ commands, command ≠ .observe source k) :
    (c.performAll commands).Abreast w n t (Conduct.Sparing source k) start source k False := by
  induction commands generalizing c with
  | nil => exact h
  | cons command commands ih =>
    have hthis := perform_abreast h (hcommands command List.mem_cons_self)
    exact ih hthis fun command hmem => hcommands command (List.mem_cons_of_mem _ hmem)

/-- Who registers when all others only take note stays abreast. -/
theorem observe_abreast (hs : c.Sound w n t (Conduct.Sparing source k)) (hr : c.Registered)
    (hshown : (c.shown? source).isSome = true) (hk : k ∉ c.audience source)
    (hnotes : ∀ j ∈ c.audience source, ∀ s, c.subscribers[j]? = some s →
      Conduct.Notes source s.react) :
    (c.perform (.observe source k)).2.Abreast w n t (Conduct.Sparing source k) c source k
      False := by
  obtain ⟨notice, hnotice⟩ := Option.isSome_iff_exists.mp hshown
  rw [perform_observe_snd, on_observe hnotice]
  exact (abreast_register (fun _ h => h.1)
    (abreast_performWithin (fun _ h => h.1) (fun hm _ h => h.2 hm) c.bound) (.absent hs hr hk)
    hnotice (fronts_register hshown hnotes)).unrefused.after rfl

/-- What subscribers that do not fail but call in turn are shown, whatever they call. In the course
of a call everyone who is registered after it is shown the state that the source is in then, or
nothing if the source is as it was. And a subscriber is shown that state last, and never an older
one after a newer one, if those who were registered before it only take note. A program is left out
if it has gone on where nothing was executed. -/
theorem shown_what_is_current (hn : 0 < n) :
    (∀ c, Reachable w n t (Conduct.Unfailing fun _ => True) c → ∀ command source k,
      let d := (c.perform command).2
      k ∈ d.audience source → d.idleEntries source = c.idleEntries source →
        ∃ heard, d.received k source = c.received k source ++ heard ∧
          ((∃ notice ∈ heard, d.shown? source = some notice) ∨
            heard = [] ∧ d.shown? source = c.shown? source)) ∧
    ∀ source k c, Reachable w n t (Conduct.Sparing source k) c → (c.shown? source).isSome = true →
      k ∉ c.audience source →
      (∀ j ∈ c.audience source, ∀ s, c.subscribers[j]? = some s →
        Conduct.Notes source s.react) →
      ∀ commands, (∀ command ∈ commands, command ≠ .observe source k) →
        let d := (c.perform (.observe source k)).2.performAll commands
        (∃ es, d.events = es ++ c.events ∧ Timely k source es) ∧
          (k ∈ d.audience source → d.idleEntries source = c.idleEntries source →
            (d.received k source).getLast? = d.shown? source) := by
  constructor
  · intro c hc command source k d hk hidle
    have hd := perform_informed (hc.sound hn) (hc.registered hn) command
    obtain ⟨heard, hheard, hnews⟩ := hd.news source k
    refine ⟨heard, hheard, ?_⟩
    obtain ⟨notice, hshown⟩ := shown_of_audience hk
    rcases hnews hk hidle notice hshown with h | hmem | ⟨-, hnone, hstart⟩
    · exact h.elim
    · exact .inl ⟨notice, hmem, hshown⟩
    · exact .inr ⟨hnone, hshown.trans hstart.symm⟩
  · intro source k c hc hshown hk hnotes commands hcommands d
    have hregistered := observe_abreast (hc.sound hn) (hc.registered hn) hshown hk hnotes
    have hd := performAll_abreast hregistered commands hcommands
    obtain ⟨es, hes, htimely, -⟩ := hd.told
    exact ⟨⟨es, hes, htimely⟩, hd.last id⟩

/-- The subscriber that executes what the machine has decoded as soon as it is told of it. -/
def executor : Subscriber where
  react state notice :=
    match notice with
    | .machine m => (state, if m.isDecoded then .call .execute fun _ => .done else .done)
    | _ => (state, .done)

theorem executor_unfailing {C : Command → Prop} (h : C .execute) :
    Conduct.Unfailing C executor.react := by
  intro state notice
  cases notice with
  | machine m =>
    simp only [executor]
    split
    · exact ⟨h, fun _ => trivial⟩
    · trivial
  | _ => trivial

/-- Who registers with the machine before the executor is shown the executed machine last. Who
registers after it is shown that, too. -/
theorem shown_what_is_current_executed :
    let c := { idle (.zeros 4 2) .standard with
      subscribers := [executor, .recorder], bound := 2 }
    let decode : Command := .decode (.instruction ⟨.not, none⟩)
    let first := (c.perform (.observe .machine 1)).2.performAll [.observe .machine 0, decode]
    let second := c.performAll [.observe .machine 0, .observe .machine 1]
    (first.received 1 .machine).getLast? = some (.machine first.machine) ∧
      first.machine.registers.accumulator = 15 ∧
      ∃ heard,
        (second.perform decode).2.received 1 .machine = second.received 1 .machine ++ heard ∧
          .machine (second.perform decode).2.machine ∈ heard := by
  intro c decode first second
  have hfirst : c.Reachable 4 2 .standard (Conduct.Sparing .machine 1) := by
    refine .idle _ 2 (List.forall_mem_cons.mpr ⟨⟨executor_unfailing nofun, nofun⟩, ?_⟩)
    exact List.forall_mem_singleton.mpr ⟨fun _ _ => trivial, nofun⟩
  have hsecond : second.Reachable 4 2 .standard (Conduct.Unfailing fun _ => True) := by
    refine .performAll (.idle _ 2 (List.forall_mem_cons.mpr ⟨executor_unfailing trivial, ?_⟩)) _
    exact List.forall_mem_singleton.mpr fun _ _ => trivial
  have hlast := (shown_what_is_current (by decide)).2 .machine 1 c hfirst rfl (by decide)
    (fun _ h => nomatch h) [.observe .machine 0, decode]
    (List.forall_mem_cons.mpr ⟨nofun, List.forall_mem_singleton.mpr nofun⟩)
  obtain ⟨heard, hheard, hnews⟩ := (shown_what_is_current (by decide)).1 second hsecond decode
    .machine 1 (by decide +kernel) rfl
  refine ⟨hlast.2 (by decide +kernel) rfl, by decide +kernel, heard, hheard, ?_⟩
  rcases hnews with ⟨notice, hmem, hshown⟩ | ⟨-, hsame⟩
  · exact Option.some.inj hshown ▸ hmem
  · exact absurd hsame (by decide +kernel)

/-- Of two who register with the machine the first executes what has been decoded as soon as it is
told. The second is shown the executed machine, and last the decoded one that it was before. -/
theorem shown_stale_after_executed :
    let c := ({ idle (.zeros 4 2) .standard with
      subscribers := [executor, .recorder], bound := 2 }).performAll
        [.observe .machine 0, .observe .machine 1]
    let d := (c.perform (.decode (.instruction ⟨.not, none⟩))).2
    c.Reachable 4 2 .standard (Conduct.Unfailing fun _ => True) ∧ 1 ∈ d.audience .machine ∧
      d.received 1 .machine = c.received 1 .machine ++
        [.machine d.machine, .machine (c.machine.decoded ⟨.not, none⟩)] ∧
      (d.received 1 .machine).getLast? ≠ d.shown? .machine := by
  refine ⟨.performAll (.idle _ 2 (List.forall_mem_cons.mpr ⟨executor_unfailing trivial, ?_⟩)) _,
    by decide +kernel⟩
  exact List.forall_mem_singleton.mpr fun _ _ => trivial

end Computer

end Accumulator
