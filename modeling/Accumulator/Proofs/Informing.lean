import Accumulator.Proofs.Tidings

/-! What subscribers that call in turn are shown. A source that has changed owes its state to
everyone who is registered, until it has told them or has changed once more. Whoever is told calls
while others are still owed; a change made there is told to all of them before anything else is
done, so that at the end of a call everyone has been shown the state that the source is in. -/

namespace Accumulator

/-- The states that sources owe to subscribers. -/
abbrev Debts := Source → Nat → Notice → Prop

/-- The debts, and that of a state of a source to subscribers. -/
def Debts.owing (D : Debts) (source : Source) (notice : Notice) (K : Nat → Prop) : Debts :=
  fun s k state => (s = source ∧ state = notice ∧ K k) ∨ D s k state

namespace Computer

theorem received_give (c : Computer) (e : Event) (subscribers : List Subscriber) (k : Nat)
    (source : Source) : received { c with events := e :: c.events, subscribers } k source =
      c.received k source ++ noticesTo k source [e] := by
  show noticesTo k source (e :: c.events).reverse = _
  rw [List.reverse_cons, noticesTo_append]
  rfl

theorem noticesTo_self (k : Nat) (source : Source) (notice : Notice) (moment : Machine) :
    noticesTo k source [⟨k, source, notice, moment⟩] = [notice] := by
  simp [noticesTo]

theorem noticesTo_other {k : Nat} {source : Source} {e : Event}
    (h : ¬ (e.subscriber = k ∧ e.source = source)) : noticesTo k source [e] = [] := by
  simp [noticesTo, h]

/-- Since `start`, everyone who is registered with a source has been shown the state that it is in,
except for what is owed; or the source is not among those that have changed, and has told nothing. A
program is left out if it has gone on where nothing was executed. -/
structure Informed (w n : Nat) (t : Dispatch) (B : Conduct → Prop) (c start : Computer)
    (changed : Source → Prop) (D : Debts) : Prop where
  sound : c.Sound w n t B
  registered : c.Registered
  since : ∀ source, start.idleEntries source ≤ c.idleEntries source
  news : ∀ source k, ∃ heard, c.received k source = start.received k source ++ heard ∧
    (k ∈ c.audience source → c.idleEntries source = start.idleEntries source →
      ∀ notice, c.shown? source = some notice → D source k notice ∨ notice ∈ heard ∨
        (¬ changed source ∧ heard = [] ∧ start.shown? source = some notice))

variable {w n : Nat} {t : Dispatch} {B : Conduct → Prop} {start c d : Computer}
  {changed : Source → Prop} {D : Debts}

theorem Informed.refl (hs : c.Sound w n t B) (hr : c.Registered) :
    c.Informed w n t B c (fun _ => False) fun _ _ _ => False :=
  ⟨hs, hr, fun _ => Nat.le_refl _, fun _ _ => ⟨[], (List.append_nil _).symm, fun _ _ _ h =>
    .inr (.inr ⟨nofun, rfl, h⟩)⟩⟩

namespace Informed

theorem imp {changed' : Source → Prop} {D' : Debts} (h : c.Informed w n t B start changed D)
    (hchanged : ∀ source, changed' source → changed source)
    (hD : ∀ source k notice, k ∈ c.audience source → c.shown? source = some notice →
      D source k notice → D' source k notice) : c.Informed w n t B start changed' D' := by
  refine ⟨h.sound, h.registered, h.since, fun source k => ?_⟩
  obtain ⟨heard, hheard, hnews⟩ := h.news source k
  refine ⟨heard, hheard, fun hk hidle notice hshown => ?_⟩
  rcases hnews hk hidle notice hshown with hd | hmem | ⟨hnot, hnone⟩
  · exact .inl (hD source k notice hk hshown hd)
  · exact .inr (.inl hmem)
  · exact .inr (.inr ⟨fun hc => hnot (hchanged source hc), hnone⟩)

/-- Sources that have changed owe their state to everyone, and a source to whoever is new to it. -/
theorem unheard {X : Source → Prop} {N : Source → Nat → Prop}
    (h : c.Informed w n t B start changed D) (hu : c.Unheard X d) (hs : d.Sound w n t B)
    (hr : d.Registered)
    (haudience : ∀ source k, k ∈ d.audience source → k ∈ c.audience source ∨ N source k) :
    d.Informed w n t B start (fun source => X source ∨ changed source)
      fun source k notice => X source ∨ N source k ∨ D source k notice := by
  refine ⟨hs, hr, fun source => (h.since source).trans (hu.idle source), fun source k => ?_⟩
  obtain ⟨heard, hheard, hnews⟩ := h.news source k
  refine ⟨heard, by rw [received, hu.events]; exact hheard, fun hk hidle notice hshown => ?_⟩
  by_cases hX : X source
  · exact .inl (.inl hX)
  rcases haudience source k hk with hk | hk
  · have hsame : c.idleEntries source = start.idleEntries source :=
      Nat.le_antisymm ((hu.idle source).trans_eq hidle) (h.since source)
    rcases hnews hk hsame notice (hu.shown source hX ▸ hshown) with hd | hmem | ⟨hnot, hnone⟩
    · exact .inl (.inr (.inr hd))
    · exact .inr (.inl hmem)
    · exact .inr (.inr ⟨fun hc => hnot (hc.resolve_left hX), hnone⟩)
  · exact .inl (.inr (.inl hk))

theorem untold {X : Source → Prop} (h : c.Informed w n t B start changed D) (hu : c.Untold X d)
    (hs : d.Sound w n t B) : d.Informed w n t B start (fun source => X source ∨ changed source)
      fun source k notice => X source ∨ D source k notice := by
  obtain ⟨ks, hks⟩ := h.registered
  have hd := h.unheard (N := fun _ _ => False) hu.toUnheard hs ⟨ks, hu.watchers.trans hks⟩
    fun source k hk => .inl (hu.audience source ▸ hk)
  exact hd.imp (fun _ hc => hc) fun _ _ _ _ _ hD => hD.imp_right fun h => h.resolve_left id

/-- What a source owes to one subscriber it pays by showing it, whether it is still in that state or
has changed in the meantime. -/
theorem give {source : Source} {k : Nat} {notice : Notice}
    (h : c.Informed w n t B start changed (D.owing source notice (· = k)))
    (hN : notice.Sound w n t) (hnow : changed source ∨ c.shown? source = some notice) :
    Informed w n t B { c with events := ⟨k, source, notice, c.machine⟩ :: c.events } start
      changed D := by
  refine ⟨Sound.invariant.change h.sound (.give k source notice hN), h.registered, h.since,
    fun s j => ?_⟩
  obtain ⟨heard, hheard, hnews⟩ := h.news s j
  let e : Event := ⟨k, source, notice, c.machine⟩
  refine ⟨heard ++ noticesTo j s [e], ?_, fun hj hidle state hshown => ?_⟩
  · rw [← List.append_assoc, ← hheard]
    exact c.received_give e c.subscribers j s
  · by_cases hself : k = j ∧ source = s
    · obtain ⟨rfl, rfl⟩ := hself
      rw [noticesTo_self]
      by_cases hstate : state = notice
      · exact .inr (.inl (by simp [hstate]))
      · -- The source has changed since, and has told of that.
        have hchanged : changed source := hnow.resolve_right fun hs =>
          hstate (Option.some.inj (hshown.symm.trans hs))
        rcases hnews hj hidle state hshown with (⟨-, rfl, -⟩ | hd) | hmem | ⟨hnot, -⟩
        · exact absurd rfl hstate
        · exact .inl hd
        · exact .inr (.inl (List.mem_append_left _ hmem))
        · exact absurd hchanged hnot
    · rw [noticesTo_other hself, List.append_nil]
      rcases hnews hj hidle state hshown with (⟨rfl, -, rfl⟩ | hd) | hrest
      · exact absurd ⟨rfl, rfl⟩ hself
      · exact .inl hd
      · exact .inr hrest

theorem note (h : c.Informed w n t B start changed D) (k state : Nat) :
    Informed w n t B
      { c with subscribers := c.subscribers.modify k fun s => { s with state } } start changed D :=
  ⟨Sound.invariant.change h.sound (.note k state), h.registered, h.since, h.news⟩

end Informed

end Computer

namespace Routine

open Computer

variable {w n : Nat} {t : Dispatch} {B : Conduct → Prop} {C : Command → Prop} {start : Computer}
  {call : Caller} {changed : Source → Prop} {D : Debts}

theorem informed_unobserve (source : Source) (k : Nat) :
    Keeps (fun c => c.Informed w n t B start changed D) (unobserve source k) := by
  intro c hc
  have hr := registered_invariant.keeps_unobserve source k c ⟨hc.sound.watched, hc.registered⟩
  refine (hc.unheard (N := fun _ _ => False) (.removed c source k)
    (Sound.invariant.keeps_unobserve source k c hc.sound) hr.2 fun s j hj => ?_).imp
      (fun _ h => .inr h) fun _ _ _ _ _ h => (h.resolve_left id).resolve_left id
  rw [audience_unobserve] at hj
  split at hj
  · exact .inl ((List.mem_filter.mp hj).1)
  · exact .inl hj

section
variable (hB : ∀ react, B react → Conduct.Unfailing C react)
  (hcall : ∀ changed D command, C command →
    Keeps (fun c => c.Informed w n t B start changed D) (call command))
include hB hcall

theorem informed_deliver {source : Source} {notice : Notice} (hN : notice.Sound w n t) (k : Nat) :
    Meets
      (fun c => c.Informed w n t B start changed (D.owing source notice (· = k)) ∧
        (changed source ∨ c.shown? source = some notice))
      (fun c => c.Informed w n t B start changed D) (fun _ => False)
      (deliver call source notice k) := by
  rintro c ⟨hc, hnow⟩
  have hgiven := hc.give hN hnow
  rw [on_deliver]
  cases hs : c.subscribers[k]? with
  | none => exact hgiven
  | some s =>
    have hunfailing := hB _ (hc.sound.conduct s (List.mem_of_getElem? hs)) s.state notice
    exact meets_react (hcall changed D) hunfailing _ (hgiven.note k _)

/-- A source that has changed pays what it owes, to one after the other. -/
theorem informed_delivers {source : Source} {notice : Notice} (hN : notice.Sound w n t)
    (ks : List Nat) : Meets
      (fun c => c.Informed w n t B start (fun s => s = source ∨ changed s)
        (D.owing source notice (· ∈ ks)))
      (fun c => c.Informed w n t B start changed D) (fun _ => False)
      (ks.forM (deliver call source notice)) := by
  induction ks with
  | nil =>
    intro c hc
    exact hc.imp (fun _ h => .inr h) fun _ _ _ _ _ h => h.resolve_left fun h => nomatch h.2.2
  | cons k ks ih =>
    -- What is owed to the others is owed to them while this one calls.
    refine Meets.bind ((informed_deliver hB hcall hN k).strengthen fun c hc =>
      ⟨?_, .inl (.inl rfl)⟩) fun _ => ih
    refine hc.imp (fun _ h => h) fun s j state _ _ h => ?_
    rcases h with ⟨rfl, rfl, hmem⟩ | h
    · rcases List.mem_cons.mp hmem with rfl | hmem
      · exact .inl ⟨rfl, rfl, rfl⟩
      · exact .inr (.inl ⟨rfl, rfl, hmem⟩)
    · exact .inr (.inr h)

theorem informed_audience {source : Source} {c : Computer}
    (hc : c.Informed w n t B start (fun s => s = source ∨ changed s)
      fun s k state => s = source ∨ D s k state)
    {notice : Notice} (hshown : c.shown? source = some notice) :
    Meets (· = c) (fun c => c.Informed w n t B start changed D) (fun _ => False)
      ((c.audience source).forM (deliver call source notice)) := by
  refine (informed_delivers hB hcall (hc.sound.shown hshown) _).of_eq ?_
  refine hc.imp (fun _ h => h) fun s k state hk hstate h => ?_
  rcases h with rfl | h
  · exact .inl ⟨rfl, Option.some.inj (hstate.symm.trans hshown), hk⟩
  · exact .inr h

/-- A machine that has changed its memory tells before the memory does. Whoever is told calls while
those who are registered with the memory are still owed what is then, perhaps, its state no more. -/
theorem informed_stored {c d : Computer}
    (hc : c.Informed w n t B start (fun s => s = .machine ∨ changed s)
      fun s k state => s = .machine ∨ D s k state)
    (hu : c.Untold (fun s => s = .machine ∨ s = .memory) d)
    (hd : d.Sound w n t B) : Meets (· = d)
      (fun c => c.Informed w n t B start changed D) (fun _ => False) (do
        notifyMachine call
        (d.audience .memory).forM (deliver call .memory (.memory d.machine.memory))) := by
  let owed := D.owing .memory (.memory d.machine.memory) (· ∈ d.audience .memory)
  have hboth : d.Informed w n t B start (fun s => s = .machine ∨ s = .memory ∨ changed s)
      fun s k state => s = .machine ∨ owed s k state := by
    refine (hc.untold hu hd).imp (fun s h => ?_) fun s k state hk hstate h => ?_
    · rcases h with h | h | h
      · exact .inl (.inl h)
      · exact .inl (.inr h)
      · exact .inr (.inr h)
    · rcases h with (rfl | rfl) | rfl | h
      · exact .inl rfl
      · exact .inr (.inl ⟨rfl, (Option.some.inj hstate).symm, hk⟩)
      · exact .inl rfl
      · exact .inr (.inr h)
  have hmachine := informed_audience hB hcall hboth rfl
  have hN : Notice.Sound w n t (.memory d.machine.memory) := hd.machine.memory
  exact Meets.bind (.here (hmachine d rfl)) fun _ => informed_delivers hB hcall hN _

theorem informed_register {c : Computer} {source : Source} {notice : Notice}
    (hc : c.Informed w n t B start changed D) (hshown : c.shown? source = some notice) (k : Nat) :
    Meets (· = c.register source k)
      (fun c => c.Informed w n t B start changed D) (fun _ => False)
      (deliver call source notice k) := by
  have hu : c.Unheard (fun _ => False) (c.register source k) := .registered c source k
  have hstill (s : Source) : (c.register source k).shown? s = c.shown? s := hu.shown s nofun
  have hnew := hc.unheard (N := fun s j => s = source ∧ j = k) hu (hc.sound.register source k)
    (hc.registered.register hc.sound.watched source k) fun s j hj => by
      rw [audience_register (by rw [hshown]; rfl)] at hj
      split at hj
      · rename_i hs
        rcases List.mem_append.mp hj with hj | hj
        · exact .inl hj
        · exact .inr ⟨hs.symm, List.mem_singleton.mp hj⟩
      · exact .inl hj
  refine (informed_deliver hB hcall (hc.sound.shown hshown) k).of_eq
    ⟨?_, .inr ((hstill _).trans hshown)⟩
  refine hnew.imp (fun _ h => .inr h) fun s j state _ hstate h => ?_
  rcases h with h | ⟨rfl, rfl⟩ | h
  · exact h.elim
  · rw [hstill, hshown] at hstate
    exact .inl ⟨rfl, (Option.some.inj hstate).symm, rfl⟩
  · exact .inr h

theorem informed_tidings (changed : Source → Prop) (D : Debts) :
    Tidings w n t B C call
      (fun c => c.Informed w n t B start changed D)
      fun source c => c.Informed w n t B start (fun s => s = source ∨ changed s)
        (fun s k state => s = source ∨ D s k state) ∧ (c.shown? source).isSome where
  sound h := h.sound
  soundly h := h.1.sound
  registered h := h.1.registered
  shown h := h.2
  aside h hu hs := (h.untold hu hs).imp (fun _ h => .inr h) fun _ _ _ _ _ h => h.resolve_left id
  change h hu hs hshown := ⟨h.untold hu hs, hshown⟩
  further h hu hs hshown := ⟨(h.1.untold hu hs).imp (fun _ h => .inr h) fun _ _ _ _ _ h =>
    h.elim .inl id, hshown⟩
  idle {j c d} h hu hs hidle := by
    have hd := h.untold hu hs
    refine ⟨hd.sound, hd.registered, hd.since, fun source k => ?_⟩
    obtain ⟨heard, hheard, hnews⟩ := hd.news source k
    refine ⟨heard, hheard, fun hk hsame notice hshown => ?_⟩
    have hsource : source ≠ .program j := by
      rintro rfl
      exact absurd hsame (Nat.ne_of_gt ((h.since _).trans_lt hidle))
    rcases hnews hk hsame notice hshown with hD | hmem | ⟨hnot, hnone⟩
    · exact .inl (hD.resolve_left hsource)
    · exact .inr (.inl hmem)
    · exact .inr (.inr ⟨fun h => hnot (.inr h), hnone⟩)
  audience h hshown := informed_audience hB hcall h.1 hshown
  stored h hu hs := informed_stored hB hcall h.1 hu hs
  register _ h hshown := informed_register hB hcall h hshown _
  unobserve source k := informed_unobserve source k

end

/-- However deep a call: whoever was owed nothing is owed nothing after it. -/
theorem informed_performWithin (hB : ∀ react, B react → Conduct.Unfailing C react) (depth : Nat) :
    ∀ changed D command, C command →
      Keeps (fun c => c.Informed w n t B start changed D) (performWithin depth command) := by
  induction depth with
  | zero => exact fun _ _ _ _ => Keeps.throw _
  | succ depth ih =>
    exact fun changed D _ h => (informed_tidings hB ih changed D).keeps_perform h

end Routine

end Accumulator
