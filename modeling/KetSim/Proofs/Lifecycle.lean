import KetSim.Channel
import Mathlib.Logic.Basic
import Mathlib.Logic.Relation
import Mathlib.Tactic.ByContra
/-!
# Engine lifecycles

Many parties use one channel at the same time: the provider, who settles it and then goes away, and
the holders of handles, who clone them, look through them and wait. Each party acts in small steps,
and the steps of all are interleaved in any way (`Lifecycle.Run`). The channel keeps its status when
the provider is gone, and whoever waits looks at the status before listening for a change; whoever
hears that no change can come looks once more, since an engine may have been published in between.

What a channel has to say to those who wait is the outcome of the one step that settles or drops it
(`Lifecycle.Run.outcomes_eq`), nobody is told anything else (`Lifecycle.Run.agrees`), and once there
is something to say, everybody who waits is told it (`Lifecycle.exists_ends`).
-/
namespace KetSim

variable {R : Type}

/-! ## Waiting -/

/-- How far somebody who waits has come. -/
inductive Wait (R : Type) where
  /-- Has yet to look. -/
  | asking
  /-- Has found nothing and listens for a change. -/
  | listening
  /-- Has heard that the provider is gone. -/
  | leaving
  | told (answer : Except (Error R) (Backend R))

namespace Wait

/-- Look at the status. Where nothing is there yet, go on as given. -/
def look (c : Channel R) (pending : Wait R) : Wait R :=
  match c.status with
  | .pending => pending
  | _ => told c.current

/-- One step of somebody who waits. A change that is heard of may have been none. -/
inductive Step (c : Channel R) : Wait R → Wait R → Prop where
  | first : Step c asking (look c listening)
  | again : Step c listening (look c listening)
  | hear : c.provider = .gone → Step c listening leaving
  | last : Step c leaving (look c (told (.error (.engineFailed .abandoned))))

/-- Whoever has been told something was told what the channel has to say, and whoever heard that the
provider is gone heard the truth. -/
def Agrees (c : Channel R) : Wait R → Prop
  | asking => True
  | listening => True
  | leaving => c.provider = .gone
  | told answer => c.awaited? = some answer

end Wait

namespace Channel

/-- What is awaited of a channel that shows something is what it shows. -/
theorem awaited?_of_settled {c : Channel R} (hc : c.status ≠ .pending) :
    c.awaited? = some c.current := by
  obtain ⟨status, provider⟩ := c
  cases status with
  | pending => exact absurd rfl hc
  | ready b => rfl
  | failed reason => rfl

theorem awaited?_of_abandoned {c : Channel R} (hs : c.status = .pending)
    (hp : c.provider = .gone) : c.awaited? = some (.error (.engineFailed .abandoned)) := by
  simp only [awaited?, hs, hp]

/-- The two reasons for which a channel has something to say. -/
theorem awaited?_cases {c : Channel R} {answer : Except (Error R) (Backend R)}
    (h : c.awaited? = some answer) :
    (c.status ≠ .pending ∧ answer = c.current) ∨
      (c.status = .pending ∧ c.provider = .gone ∧
        answer = .error (.engineFailed .abandoned)) := by
  by_cases hs : c.status = .pending
  · have hp : c.provider = .gone := by
      cases hp : c.provider with
      | gone => rfl
      | _ => simp [awaited?, hs, hp] at h
    rw [awaited?_of_abandoned hs hp] at h
    exact .inr ⟨hs, hp, (Option.some.inj h).symm⟩
  · rw [awaited?_of_settled hs] at h
    exact .inl ⟨hs, (Option.some.inj h).symm⟩

theorem awaited?_ne_none_of_gone {c : Channel R} (hp : c.provider = .gone) :
    c.awaited? ≠ none := by
  by_cases hs : c.status = .pending
  · simp [awaited?_of_abandoned hs hp]
  · simp [awaited?_of_settled hs]

theorem pending_of_awaited? {c : Channel R} (h : c.awaited? = none) : c.status = .pending := by
  by_contra hs
  rw [awaited?_of_settled hs] at h
  cases h

/-- Nobody who waits is told that nothing is there. -/
theorem awaited?_ne_engineNotReady (c : Channel R) :
    c.awaited? ≠ some (.error .engineNotReady) := by
  obtain ⟨status, provider⟩ := c
  cases status <;> cases provider <;> simp [awaited?, current, Status.current]

/-- Only who looks without waiting is, and only while nothing is there. -/
theorem current_eq_engineNotReady_iff {c : Channel R} :
    c.current = .error .engineNotReady ↔ c.status = .pending := by
  obtain ⟨status, provider⟩ := c
  cases status <;> simp [current, Status.current]

end Channel

namespace Wait
variable {c : Channel R} {w w' : Wait R}

theorem look_of_settled (hc : c.status ≠ .pending) (pending : Wait R) :
    look c pending = told c.current := by
  cases hs : c.status with
  | pending => exact absurd hs hc
  | ready b => simp [look, hs]
  | failed reason => simp [look, hs]

theorem look_of_pending (hc : c.status = .pending) (pending : Wait R) :
    look c pending = pending := by
  simp [look, hc]

theorem Agrees.look {pending : Wait R} (h : c.status = .pending → pending.Agrees c) :
    (look c pending).Agrees c := by
  by_cases hc : c.status = .pending
  · rw [look_of_pending hc]
    exact h hc
  · rw [look_of_settled hc]
    exact Channel.awaited?_of_settled hc

theorem Agrees.step (hw : w.Agrees c) (h : Step c w w') : w'.Agrees c := by
  cases h with
  | first => exact Agrees.look fun _ => trivial
  | again => exact Agrees.look fun _ => trivial
  | hear hgone => exact hgone
  | last => exact Agrees.look fun hs => Channel.awaited?_of_abandoned hs hw

/-- Whoever waits, undisturbed, is told what the channel has to say, and nothing else. -/
theorem told_iff {answer : Except (Error R) (Backend R)} :
    Relation.ReflTransGen (Step c) asking (told answer) ↔ c.awaited? = some answer := by
  constructor
  · intro h
    have hagrees : ∀ w, Relation.ReflTransGen (Step c) asking w → w.Agrees c := by
      intro w hw
      induction hw with
      | refl => trivial
      | tail _ hstep ih => exact ih.step hstep
    exact hagrees _ h
  · intro h
    rcases Channel.awaited?_cases h with ⟨hs, rfl⟩ | ⟨hs, hgone, rfl⟩
    · have hfirst := Step.first (c := c)
      rw [look_of_settled hs] at hfirst
      exact .single hfirst
    · have hfirst := Step.first (c := c)
      have hlast := Step.last (c := c)
      rw [look_of_pending hs] at hfirst hlast
      exact .tail (.tail (.single hfirst) (.hear hgone)) hlast

end Wait

/-! ## Providing -/

/-- What a provider does, in steps: it settles the channel or drops it, and it is gone. -/
inductive Provision (R : Type) where
  | publish (backend : Backend R)
  | fail (reason : String)
  | bootstrap (settings : Settings R)
  | drop
  /-- Be gone after the channel was settled. -/
  | leave

namespace Provision
variable [Scalar R]

/-- The channel after a step of its provider. What settles it stores a status; that the provider is
gone shows only later. -/
def apply (c : Channel R) : Provision R → Channel R
  | publish backend => { c with status := (c.publish backend).value.status }
  | fail reason => { c with status := (c.fail (.stated reason)).status }
  | bootstrap settings => { c with status := (c.bootstrap settings).value.1.status }
  | drop => c.abandon
  | leave => c.abandon

/-- What those who wait are told because of this step, if it is one that settles the channel or
drops it. -/
def outcome? : Provision R → Option (Except (Error R) (Backend R))
  | publish backend => some (.ok backend)
  | fail reason => some (.error (.engineFailed (.stated reason)))
  | bootstrap settings =>
    match Engine.create settings with
    | .ok engine => some (.ok engine.backend)
    | .error problem => some (.error (.engineFailed (.settings problem)))
  | drop => some (.error (.engineFailed .abandoned))
  | leave => none

/-- A channel is settled or dropped while those who wait for it still have to, and left after
that. -/
def Allowed (c : Channel R) (act : Provision R) : Prop :=
  act.outcome?.isSome = true ↔ c.awaited? = none

theorem awaited?_apply {c : Channel R} {act : Provision R} (h : act.Allowed c) :
    (act.apply c).awaited? = act.outcome?.or c.awaited? := by
  cases act with
  | publish backend => rfl
  | fail reason => rfl
  | bootstrap settings =>
    simp only [apply, outcome?, Channel.bootstrap]
    cases Engine.create settings with
    | ok engine => rfl
    | error problem => rfl
  | drop =>
    have hs : c.status = .pending := Channel.pending_of_awaited? (h.1 rfl)
    exact Channel.awaited?_of_abandoned hs rfl
  | leave =>
    obtain ⟨status, provider⟩ := c
    cases status with
    | ready backend => rfl
    | failed reason => rfl
    | pending =>
      cases provider with
      | gone => rfl
      | _ => simp [Allowed, outcome?, Channel.awaited?] at h

/-- All that can happen to a channel that was settled or dropped is that its provider is gone. -/
theorem eq_leave_of_awaited? {c : Channel R} {act : Provision R} (h : act.Allowed c)
    {answer : Except (Error R) (Backend R)} (hc : c.awaited? = some answer) : act = .leave := by
  have hout : act.outcome? = none := by
    by_contra hne
    rw [h.1 (Option.isSome_iff_ne_none.2 hne)] at hc
    cases hc
  cases act with
  | bootstrap settings =>
    simp only [outcome?] at hout
    split at hout <;> cases hout
  | leave => rfl
  | _ => cases hout

/-- What is awaited does not change any more once it is there. -/
theorem awaited?_apply_of_some {c : Channel R} {act : Provision R} (h : act.Allowed c)
    {answer : Except (Error R) (Backend R)} (hc : c.awaited? = some answer) :
    (act.apply c).awaited? = some answer := by
  obtain rfl := eq_leave_of_awaited? h hc
  rw [awaited?_apply h]
  exact hc

/-- A status that shows something stays. -/
theorem status_apply_of_settled {c : Channel R} {act : Provision R} (h : act.Allowed c)
    (hc : c.status ≠ .pending) : (act.apply c).status = c.status := by
  obtain rfl := eq_leave_of_awaited? h (Channel.awaited?_of_settled hc)
  rfl

/-- Only a drop tells those who wait that the provider is gone. -/
theorem eq_drop_of_abandoned {act : Provision R}
    (hout : act.outcome? = some (.error (.engineFailed .abandoned))) : act = .drop := by
  cases act with
  | bootstrap settings =>
    simp only [outcome?] at hout
    split at hout <;> cases hout
  | drop => rfl
  | _ => cases hout

theorem exists_outcome_bootstrap (settings : Settings R) :
    ∃ answer, (bootstrap settings).outcome? = some answer := by
  rw [outcome?]
  cases Engine.create settings with
  | ok engine => exact ⟨_, rfl⟩
  | error problem => exact ⟨_, rfl⟩

theorem abandon_apply_bootstrap (c : Channel R) (settings : Settings R) :
    (apply c (.bootstrap settings)).abandon = (c.bootstrap settings).value.1 := by
  simp only [apply, Channel.bootstrap]
  cases Engine.create settings with
  | ok engine => rfl
  | error problem => rfl

theorem provider_apply_of_gone {c : Channel R} (act : Provision R) (hc : c.provider = .gone) :
    (act.apply c).provider = .gone := by
  cases act <;> first | exact hc | rfl

end Provision

/-! ## Everybody -/

/-- A channel with all who use it. -/
structure Lifecycle (R : Type) where
  channel : Channel R
  /-- How many handles there are. They are numbered in the order of their making. -/
  handles : Nat
  waits : List (Wait R)

/-- A step of somebody. To look through a handle without waiting changes nothing, so it is none. -/
inductive Move (R : Type) where
  | provide (act : Provision R)
  | clone (handle : Nat)
  /-- Start to wait. -/
  | wait (handle : Nat)
  /-- Go on waiting. -/
  | look (n : Nat)

def Move.outcome? [Scalar R] : Move R → Option (Except (Error R) (Backend R))
  | provide act => act.outcome?
  | _ => none

theorem Move.exists_act_of_outcome [Scalar R] {m : Move R} {answer : Except (Error R) (Backend R)}
    (h : m.outcome? = some answer) :
    ∃ act : Provision R, m = .provide act ∧ act.outcome? = some answer := by
  cases m with
  | provide act => exact ⟨act, rfl, h⟩
  | _ => cases h

namespace Lifecycle

/-- A channel that nobody has used yet, with one handle. -/
def start : Lifecycle R := ⟨.fresh, 1, []⟩

/-- What a handle leads to. -/
def through (s : Lifecycle R) (handle : Nat) : Option (Channel R) :=
  if handle < s.handles then some s.channel else none

theorem eq_of_through {s : Lifecycle R} {handle : Nat} {c : Channel R}
    (h : s.through handle = some c) : c = s.channel := by
  rw [through] at h
  split at h
  · exact (Option.some.inj h).symm
  · cases h

variable [Scalar R]

inductive Step : Lifecycle R → Move R → Lifecycle R → Prop where
  | provide {s : Lifecycle R} {act : Provision R} : act.Allowed s.channel →
      Step s (.provide act) { s with channel := act.apply s.channel }
  | clone {s : Lifecycle R} {handle : Nat} {c : Channel R} : s.through handle = some c →
      Step s (.clone handle) { s with handles := s.handles + 1 }
  | wait {s : Lifecycle R} {handle : Nat} {c : Channel R} : s.through handle = some c →
      Step s (.wait handle) { s with waits := s.waits ++ [.asking] }
  | look {s : Lifecycle R} {n : Nat} {w w' : Wait R} : s.waits[n]? = some w →
      Wait.Step s.channel w w' → Step s (.look n) { s with waits := s.waits.set n w' }

/-- Steps of anybody, in any order. -/
inductive Run : Lifecycle R → List (Move R) → Lifecycle R → Prop where
  | nil {s : Lifecycle R} : Run s [] s
  | cons {s s' s'' : Lifecycle R} {m : Move R} {ms : List (Move R)} :
      Step s m s' → Run s' ms s'' → Run s (m :: ms) s''

/-! ### What one step keeps -/

section
variable {s s' : Lifecycle R} {m : Move R}

theorem Step.awaited?_eq (h : Step s m s') :
    s'.channel.awaited? = m.outcome?.or s.channel.awaited? := by
  cases h with
  | provide ha => exact Provision.awaited?_apply ha
  | _ => rfl

theorem Step.allowed (h : Step s m s') (hm : m.outcome?.isSome = true) :
    s.channel.awaited? = none := by
  cases h with
  | provide ha => exact ha.1 hm
  | _ => cases hm

theorem Step.status_eq (h : Step s m s') (hs : s.channel.status ≠ .pending) :
    s'.channel.status = s.channel.status := by
  cases h with
  | provide ha => exact Provision.status_apply_of_settled ha hs
  | _ => rfl

theorem Step.drop (h : Step s (.provide .drop) s') :
    s'.channel.status = .pending ∧ s'.channel.provider = .gone := by
  cases h with
  | provide ha =>
    have hs : s.channel.status = .pending := Channel.pending_of_awaited? (ha.1 rfl)
    exact ⟨hs, rfl⟩

/-- A channel that was dropped stays as it is. -/
theorem Step.dropped (h : Step s m s')
    (hs : s.channel.status = .pending ∧ s.channel.provider = .gone) :
    s'.channel.status = .pending ∧ s'.channel.provider = .gone := by
  cases h with
  | @provide act ha =>
    refine ⟨?_, Provision.provider_apply_of_gone act hs.2⟩
    obtain rfl := Provision.eq_leave_of_awaited? ha (Channel.awaited?_of_abandoned hs.1 hs.2)
    exact hs.1
  | _ => exact hs

theorem Step.agrees (h : Step s m s') (hw : ∀ w ∈ s.waits, w.Agrees s.channel) :
    ∀ w ∈ s'.waits, w.Agrees s'.channel := by
  cases h with
  | @provide act ha =>
    intro w hmem
    have := hw w hmem
    cases w with
    | asking => trivial
    | listening => trivial
    | leaving => exact Provision.provider_apply_of_gone act this
    | told answer => exact Provision.awaited?_apply_of_some ha this
  | clone => exact hw
  | wait =>
    intro w hmem
    rcases List.mem_append.1 hmem with hmem | hmem
    · exact hw w hmem
    · rw [List.mem_singleton.1 hmem]
      trivial
  | look hn hstep =>
    intro w hmem
    rcases List.mem_or_eq_of_mem_set hmem with hmem | rfl
    · exact hw w hmem
    · exact (hw _ (List.mem_of_getElem? hn)).step hstep

end

/-! ### What a run keeps -/

namespace Run
variable {s s' : Lifecycle R} {moves : List (Move R)}

theorem snoc {s'' : Lifecycle R} {m : Move R} (h : Run s moves s') (hstep : Step s' m s'') :
    Run s (moves ++ [m]) s'' := by
  induction h with
  | nil => exact .cons hstep .nil
  | cons hfirst _ ih => exact .cons hfirst (ih hstep)

/-- What is awaited of a channel is the outcome of the one step that settled or dropped it. -/
theorem outcomes_eq (h : Run s moves s') :
    s'.channel.awaited?.toList = s.channel.awaited?.toList ++ moves.filterMap Move.outcome? := by
  induction h with
  | nil => simp
  | @cons s s₁ s' m ms hstep _ ih =>
    rw [ih, hstep.awaited?_eq]
    cases hm : m.outcome? with
    | none => simp [hm]
    | some answer => simp [hm, hstep.allowed (by rw [hm]; rfl)]

theorem status_eq (h : Run s moves s') (hs : s.channel.status ≠ .pending) :
    s'.channel.status = s.channel.status := by
  induction h with
  | nil => rfl
  | cons hstep _ ih => rw [ih (by rwa [hstep.status_eq hs]), hstep.status_eq hs]

theorem dropped_of_dropped (h : Run s moves s')
    (hs : s.channel.status = .pending ∧ s.channel.provider = .gone) :
    s'.channel.status = .pending ∧ s'.channel.provider = .gone := by
  induction h with
  | nil => exact hs
  | cons hstep _ ih => exact ih (hstep.dropped hs)

theorem dropped (h : Run s moves s') (hm : .provide .drop ∈ moves) :
    s'.channel.status = .pending ∧ s'.channel.provider = .gone := by
  induction h with
  | nil => cases hm
  | cons hstep hrun ih =>
    rcases List.mem_cons.1 hm with rfl | hm
    · exact hrun.dropped_of_dropped hstep.drop
    · exact ih hm

theorem agrees (h : Run s moves s') (hw : ∀ w ∈ s.waits, w.Agrees s.channel) :
    ∀ w ∈ s'.waits, w.Agrees s'.channel := by
  induction h with
  | nil => exact hw
  | cons hstep _ ih => exact ih (hstep.agrees hw)

end Run

/-! ### Waits come to an end -/

/-- Somebody who waits and whom nobody disturbs is told the answer after so many looks. -/
def Ends (s : Lifecycle R) (n looks : Nat) (answer : Except (Error R) (Backend R)) : Prop :=
  ∃ s', Run s (List.replicate looks (.look n)) s' ∧ s'.waits[n]? = some (.told answer)

section
variable {s : Lifecycle R} {n looks : Nat} {answer : Except (Error R) (Backend R)}

theorem Ends.zero (hn : s.waits[n]? = some (.told answer)) : s.Ends n 0 answer := ⟨s, .nil, hn⟩

theorem Ends.succ {w w' : Wait R} (hn : s.waits[n]? = some w) (hstep : w.Step s.channel w')
    (h : Ends { s with waits := s.waits.set n w' } n looks answer) :
    s.Ends n (looks + 1) answer := by
  obtain ⟨s', hrun, htold⟩ := h
  exact ⟨s', .cons (.look hn hstep) hrun, htold⟩

/-- A wait that is one step before its end. -/
theorem Ends.one {w : Wait R} (hn : s.waits[n]? = some w)
    (hstep : w.Step s.channel (.told answer)) : s.Ends n 1 answer := by
  have hlt : n < s.waits.length := (List.getElem?_eq_some_iff.1 hn).1
  exact .succ hn hstep (.zero (by simp [hlt]))

theorem ends_of_leaving (hc : s.channel.awaited? = some answer)
    (hn : s.waits[n]? = some .leaving) : s.Ends n 1 answer := by
  have hstep := Wait.Step.last (c := s.channel)
  rcases Channel.awaited?_cases hc with ⟨hs, rfl⟩ | ⟨hs, -, rfl⟩
  · rw [Wait.look_of_settled hs] at hstep
    exact .one hn hstep
  · rw [Wait.look_of_pending hs] at hstep
    exact .one hn hstep

theorem ends_of_listening (hc : s.channel.awaited? = some answer)
    (hn : s.waits[n]? = some .listening) : ∃ looks ≤ 2, s.Ends n looks answer := by
  have hlt : n < s.waits.length := (List.getElem?_eq_some_iff.1 hn).1
  rcases Channel.awaited?_cases hc with ⟨hs, rfl⟩ | ⟨-, hgone, -⟩
  · have hstep := Wait.Step.again (c := s.channel)
    rw [Wait.look_of_settled hs] at hstep
    exact ⟨1, by decide, .one hn hstep⟩
  · exact ⟨2, Nat.le_refl 2, .succ hn (.hear hgone) (ends_of_leaving hc (by simp [hlt]))⟩

theorem ends_of_asking (hc : s.channel.awaited? = some answer)
    (hn : s.waits[n]? = some .asking) : ∃ looks ≤ 3, s.Ends n looks answer := by
  have hlt : n < s.waits.length := (List.getElem?_eq_some_iff.1 hn).1
  have hstep := Wait.Step.first (c := s.channel)
  rcases Channel.awaited?_cases hc with ⟨hs, rfl⟩ | ⟨hs, -, -⟩
  · rw [Wait.look_of_settled hs] at hstep
    exact ⟨1, by decide, .one hn hstep⟩
  · rw [Wait.look_of_pending hs] at hstep
    obtain ⟨looks, hle, hends⟩ := ends_of_listening
      (s := { s with waits := s.waits.set n .listening }) (n := n) hc (by simp [hlt])
    exact ⟨looks + 1, by omega, .succ hn hstep hends⟩

/-- Once a channel has something to say, whoever waits is told it within three looks. -/
theorem exists_ends (hc : s.channel.awaited? = some answer) {w : Wait R}
    (hn : s.waits[n]? = some w) (hw : w.Agrees s.channel) :
    ∃ looks ≤ 3, s.Ends n looks answer := by
  cases w with
  | asking => exact ends_of_asking hc hn
  | listening =>
    obtain ⟨looks, hle, hends⟩ := ends_of_listening hc hn
    exact ⟨looks, by omega, hends⟩
  | leaving => exact ⟨1, by decide, ends_of_leaving hc hn⟩
  | told said =>
    obtain rfl := Option.some.inj (hw.symm.trans hc)
    exact ⟨0, by decide, .zero hn⟩

end

end Lifecycle

end KetSim
