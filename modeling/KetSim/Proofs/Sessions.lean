import KetSim.Proofs.Requests
import Mathlib.Logic.Relation
import Mathlib.Order.Basic
import Mathlib.Order.Nat
/-!
# The channels of a session

A client of channels is one of the parties that use them: it is the provider of one channel at most,
and lets the tasks run that provide others. Whatever it asks for, each of its channels goes on by
steps that a provider may take (`Session.follows_next`), so all that holds of such steps holds of
sessions (`Session.follows_after`), and each channel is that of a lifecycle (`Channel.Lives`).
-/
namespace KetSim

variable {R : Type}

/-! ## Steps of providers -/

namespace Channel
variable [Scalar R]

/-- A channel after one step of its provider. -/
def Turn (c c' : Channel R) : Prop := ∃ act : Provision R, act.Allowed c ∧ c' = act.apply c

abbrev Turns : Channel R → Channel R → Prop := Relation.ReflTransGen Turn

/-- The channel shows and says what that of a lifecycle does. -/
def Lives (c : Channel R) : Prop :=
  ∃ moves l, Lifecycle.Run Lifecycle.start moves l ∧
    l.channel.status = c.status ∧ l.channel.awaited? = c.awaited?

theorem Lives.turn {c c' : Channel R} (h : c.Lives) (hturn : Turn c c') : c'.Lives := by
  obtain ⟨moves, l, hrun, hstatus, hawaited⟩ := h
  obtain ⟨act, hact, rfl⟩ := hturn
  have hact' : act.Allowed l.channel := by rwa [Provision.Allowed, hawaited]
  refine ⟨_, _, hrun.snoc (.provide hact'), ?_, ?_⟩
  · cases act with
    | drop => exact hstatus
    | leave => exact hstatus
    | bootstrap settings =>
      simp only [Provision.apply, bootstrap]
      cases Engine.create settings with
      | ok engine => rfl
      | error problem => rfl
    | _ => rfl
  · rw [Provision.awaited?_apply hact', Provision.awaited?_apply hact, hawaited]

theorem Lives.turns {c c' : Channel R} (h : c.Lives) (hturns : Turns c c') : c'.Lives := by
  induction hturns with
  | refl => exact h
  | tail _ hturn ih => exact ih.turn hturn

/-- What is awaited stays once it is there, and so does a status that shows something. -/
theorem Turns.awaited?_eq {c c' : Channel R} (h : Turns c c')
    {answer : Except (Error R) (Backend R)} (hc : c.awaited? = some answer) :
    c'.awaited? = some answer := by
  induction h with
  | refl => exact hc
  | tail _ hturn ih =>
    obtain ⟨act, hact, rfl⟩ := hturn
    exact Provision.awaited?_apply_of_some hact ih

theorem Turns.status_eq {c c' : Channel R} (h : Turns c c') (hc : c.status ≠ .pending) :
    c'.status = c.status := by
  induction h with
  | refl => rfl
  | tail _ hturn ih =>
    obtain ⟨act, hact, rfl⟩ := hturn
    rw [Provision.status_apply_of_settled hact (ih.symm ▸ hc), ih]

theorem lives_fresh : (fresh : Channel R).Lives := ⟨[], _, .nil, rfl, rfl⟩

theorem lives_scheduled (settings : Settings R) : (scheduled settings).Lives :=
  ⟨[], _, .nil, rfl, rfl⟩

section
variable {c : Channel R} (hc : c.awaited? = none)
include hc

section
variable {act : Provision R} {answer : Except (Error R) (Backend R)}
  (hact : act.outcome? = some answer)
include hact

theorem allowed_of_outcome : act.Allowed c := by simp [Provision.Allowed, hact, hc]

theorem awaited?_apply : (act.apply c).awaited? = some answer := by
  rw [Provision.awaited?_apply (allowed_of_outcome hc hact), hact, Option.some_or]

theorem leave_allowed : (Provision.leave : Provision R).Allowed (act.apply c) := by
  simp [Provision.Allowed, awaited?_apply hc hact, Provision.outcome?]

variable (act) in
/-- A provider that settles a channel is gone in the next step. -/
theorem turns_leave : Turns c (act.apply c).abandon :=
  .tail (.single ⟨act, allowed_of_outcome hc hact, rfl⟩) ⟨.leave, leave_allowed hc hact, rfl⟩

theorem awaited?_abandon_apply : (act.apply c).abandon.awaited? = some answer :=
  Provision.awaited?_apply_of_some (leave_allowed hc hact) (awaited?_apply hc hact)

end

theorem turns_publish (b : Backend R) : Turns c (c.publish b).value :=
  turns_leave hc (.publish b) rfl

theorem turns_abandon : Turns c c.abandon :=
  .single ⟨.drop, by simp [Provision.Allowed, Provision.outcome?, hc], rfl⟩

theorem turns_bootstrap (settings : Settings R) : Turns c (c.bootstrap settings).value.1 := by
  obtain ⟨answer, hout⟩ := Provision.exists_outcome_bootstrap settings
  rw [← Provision.abandon_apply_bootstrap]
  exact turns_leave hc _ hout

end

theorem provider_bootstrap (c : Channel R) (settings : Settings R) :
    (c.bootstrap settings).value.1.provider = .gone := by
  rw [← Provision.abandon_apply_bootstrap]
  rfl

theorem settle_of_scheduled {c : Channel R} {settings : Settings R}
    (hc : c.provider = .scheduled settings) : c.settle.value = (c.bootstrap settings).value.1 := by
  rw [settle, hc]
  rfl

/-- A task that is let run settles its channel, and nothing else does. -/
theorem settle_cases (c : Channel R) :
    c.settle.value = c ∨ ∃ settings, c.provider = .scheduled settings ∧
      c.settle.value = (c.bootstrap settings).value.1 := by
  cases hc : c.provider with
  | scheduled settings => exact .inr ⟨settings, rfl, settle_of_scheduled hc⟩
  | _ =>
    rw [settle, hc]
    exact .inl rfl

/-- Unless somebody else provides it, a channel says something once its task was let run. -/
theorem awaited?_settle {c : Channel R} (hc : c.provider ≠ .present) :
    c.settle.value.awaited? ≠ none := by
  cases hp : c.provider with
  | present => exact absurd hp hc
  | scheduled settings =>
    rw [settle_of_scheduled hp]
    exact awaited?_ne_none_of_gone (provider_bootstrap c settings)
  | gone =>
    rw [settle, hp]
    exact awaited?_ne_none_of_gone hp

end Channel

/-! ## Sessions -/

namespace Session
variable [Scalar R]

/-- Channels are those of lifecycles, whoever may still settle one has something left to settle, and
waiting lets a task run only where the client is no provider and the task has all that is left to
settle. -/
structure Orderly (s : Session R) : Prop where
  lives : ∀ n < s.channels.size, (s.channel n).Lives
  provides : ∀ n, s.provides = some n → n < s.channels.size ∧ (s.channel n).awaited? = none
  handle : s.handle < s.channels.size
  tasks : ∀ n settings, (s.channel n).provider = .scheduled settings →
    (s.channel n).awaited? = none
  runsTask : s.runsTask = true → s.provides = none ∧ (s.channel s.handle).provider ≠ .present

/-- The session is a later one: channels were added, and the others went on by steps of their
providers. -/
structure Follows (s s' : Session R) : Prop where
  orderly : s'.Orderly
  size_le : s.channels.size ≤ s'.channels.size
  turns : ∀ n < s.channels.size, Channel.Turns (s.channel n) (s'.channel n)

theorem orderly_start : (start : Session R).Orderly where
  lives n hn := by
    obtain rfl : n = 0 := Nat.lt_one_iff.1 hn
    exact Channel.lives_fresh
  provides n hn := by
    obtain rfl := Option.some.inj hn
    exact ⟨Nat.one_pos, rfl⟩
  handle := Nat.one_pos
  tasks n settings hn := by
    cases n <;> cases hn
  runsTask h := by cases h

theorem Follows.refl {s : Session R} (hs : s.Orderly) : s.Follows s :=
  ⟨hs, le_rfl, fun _ _ => .refl⟩

theorem Follows.trans {s s' s'' : Session R} (h : s.Follows s') (h' : s'.Follows s'') :
    s.Follows s'' :=
  ⟨h'.orderly, h.size_le.trans h'.size_le, fun n hn =>
    (h.turns n hn).trans (h'.turns n (hn.trans_le h.size_le))⟩

theorem follows_of_same {s s' : Session R} (hs : s.Orderly) (hc : s'.channels = s.channels)
    (hp : s'.provides = s.provides) (hh : s'.handle = s.handle)
    (ht : s'.runsTask = s.runsTask) : s.Follows s' := by
  have hchannel : s'.channel = s.channel := by
    funext n
    rw [channel, channel, hc]
  refine ⟨⟨?_, ?_, ?_, ?_, ?_⟩, by rw [hc], fun n _ => by rw [hchannel]⟩
  · rw [hchannel, hc]
    exact hs.lives
  · rw [hchannel, hp, hc]
    exact hs.provides
  · rw [hh, hc]
    exact hs.handle
  · rw [hchannel]
    exact hs.tasks
  · rw [hp, ht, hh, hchannel]
    exact hs.runsTask

omit [Scalar R] in
theorem channel_of_set {s s' : Session R} {n : Nat} {c : Channel R}
    (h : s'.channels = s.channels.setIfInBounds n c) (k : Nat) :
    s'.channel k = if n = k ∧ k < s.channels.size then c else s.channel k := by
  rw [channel, channel, h, Array.getElem?_setIfInBounds]
  by_cases hk : n = k
  · subst hk
    by_cases hlt : n < s.channels.size <;> simp [hlt]
  · simp [hk]

omit [Scalar R] in
theorem channel_of_push {s s' : Session R} {c : Channel R} (h : s'.channels = s.channels.push c)
    (k : Nat) : s'.channel k = if k = s.channels.size then c else s.channel k := by
  rw [channel, channel, h, Array.getElem?_push]
  split <;> rfl

/-- A client that settles or drops a channel is not its provider any more. -/
theorem follows_of_turns {s s' : Session R} (hs : s.Orderly) {n : Nat} {c : Channel R}
    (h : s'.channels = s.channels.setIfInBounds n c)
    (hturns : Channel.Turns (s.channel n) c) (hgone : c.provider = .gone)
    (hp : s'.provides = none) (hh : s'.handle = s.handle) (ht : s'.runsTask = s.runsTask) :
    s.Follows s' := by
  have hturns' (k : Nat) : Channel.Turns (s.channel k) (s'.channel k) := by
    rw [channel_of_set h]
    split
    · rename_i hkn
      exact hkn.1 ▸ hturns
    · exact .refl
  refine ⟨⟨fun k hk => ?_, fun k hk => ?_, ?_, fun k settings hk => ?_, fun htask => ⟨hp, ?_⟩⟩,
    by simp [h], fun k _ => hturns' k⟩
  · exact (hs.lives k (by simpa [h] using hk)).turns (hturns' k)
  · rw [hp] at hk
    cases hk
  · simpa [h, hh] using hs.handle
  · rw [channel_of_set h] at hk ⊢
    split at hk
    · rw [hgone] at hk
      cases hk
    · rename_i hkn
      rw [if_neg hkn]
      exact hs.tasks k settings hk
  · rw [channel_of_set h, hh]
    split
    · rw [hgone]
      rintro ⟨⟩
    · exact (hs.runsTask (ht ▸ htask)).2

omit [Scalar R] in
theorem modify_abandon (s : Session R) (n : Nat) :
    s.channels.modify n Channel.abandon =
      s.channels.setIfInBounds n (s.channel n).abandon := by
  apply Array.ext_getElem?
  intro k
  rw [Array.getElem?_modify, Array.getElem?_setIfInBounds, channel]
  by_cases hk : n = k
  · by_cases hlt : k < s.channels.size <;> simp [hk, hlt]
  · simp [hk]

theorem follows_stopProviding {s : Session R} (hs : s.Orderly) : s.Follows s.stopProviding := by
  rw [stopProviding]
  cases hp : s.provides with
  | none => exact .refl hs
  | some n =>
    exact follows_of_turns hs (s.modify_abandon n)
      (Channel.turns_abandon (hs.provides n hp).2) rfl rfl rfl rfl

/-- A client that has turned to a new channel is its provider, or of none. -/
theorem follows_of_push {s s' : Session R} (hs : s.Orderly) {c : Channel R}
    (h : s'.channels = s.channels.push c) (hh : s'.handle = s.channels.size) (hl : c.Lives)
    (hc : c.provider = .gone ∨ c.awaited? = none)
    (hp : s'.provides = none ∨ s'.provides = some s.channels.size ∧ c.awaited? = none)
    (ht : s'.runsTask = true → s'.provides = none ∧ c.provider ≠ .present) : s.Follows s' := by
  have hnew : s'.channel s.channels.size = c := by rw [channel_of_push h, if_pos rfl]
  have hold (n : Nat) (hn : n < s.channels.size) : s'.channel n = s.channel n := by
    rw [channel_of_push h, if_neg hn.ne]
  refine ⟨⟨fun n hn => ?_, fun n hn => ?_, by simp [h, hh], fun n settings hn => ?_, ?_⟩,
    by simp [h], fun n hn => by rw [hold n hn]⟩
  · rw [h, Array.size_push, Nat.lt_succ_iff] at hn
    rcases hn.eq_or_lt with rfl | hn
    · rwa [hnew]
    · rw [hold n hn]
      exact hs.lives n hn
  · rcases hp with hp | ⟨hp, hopen⟩
    · rw [hp] at hn
      cases hn
    · rw [hp] at hn
      obtain rfl := Option.some.inj hn
      exact ⟨by simp [h], by rwa [hnew]⟩
  · rw [channel_of_push h] at hn ⊢
    split at hn
    · rename_i hk
      rw [if_pos hk]
      exact hc.resolve_left fun hgone => by rw [hgone] at hn; cases hn
    · rename_i hk
      rw [if_neg hk]
      exact hs.tasks n settings hn
  · rwa [hh, hnew]

theorem follows_turnTo {s : Session R} (hs : s.Orderly) {c : Channel R} {provides runsTask : Bool}
    (hc : Opened c provides runsTask) : s.Follows (s.turnTo c provides runsTask) := by
  have h := follows_stopProviding hs
  cases hc with
  | fresh =>
    exact h.trans (follows_of_push h.orderly rfl rfl Channel.lives_fresh (.inr rfl)
      (.inr ⟨rfl, rfl⟩) fun h => by cases h)
  | scheduled settings =>
    exact h.trans (follows_of_push h.orderly rfl rfl (Channel.lives_scheduled settings) (.inr rfl)
      (.inl rfl) fun _ => ⟨rfl, by rintro ⟨⟩⟩)
  | published b =>
    have hlives := Channel.lives_fresh.turns (Channel.turns_publish rfl b)
    exact h.trans (follows_of_push h.orderly rfl rfl hlives (.inl rfl) (.inl rfl)
      fun h => by cases h)

omit [Scalar R] in
theorem setIfInBounds_channel (s : Session R) (n : Nat) :
    s.channels.setIfInBounds n (s.channel n) = s.channels := by
  apply Array.ext_getElem?
  intro k
  rw [Array.getElem?_setIfInBounds, channel]
  by_cases hk : n = k
  · by_cases hlt : k < s.channels.size <;> simp [hk, hlt]
  · simp [hk]

theorem follows_settle {s : Session R} (hs : s.Orderly) : s.Follows s.settle.value := by
  rw [settle]
  split
  · rename_i ht
    have hp := (hs.runsTask ht).1
    rcases (s.channel s.handle).settle_cases with hsame | ⟨settings, hprovider, hboot⟩
    · refine follows_of_same hs ?_ rfl rfl rfl
      show s.channels.setIfInBounds s.handle (s.channel s.handle).settle.value = s.channels
      rw [hsame, setIfInBounds_channel]
    · refine follows_of_turns hs (c := (s.channel s.handle).settle.value) rfl ?_ ?_ hp rfl rfl
      · rw [hboot]
        exact Channel.turns_bootstrap (hs.tasks _ _ hprovider) settings
      · rw [hboot]
        exact Channel.provider_bootstrap _ settings
  · exact .refl hs

theorem follows_pollWaiter {s : Session R} (hs : s.Orderly) (n : Nat) :
    s.Follows (s.pollWaiter n).value.1 := by
  rw [pollWaiter]
  split
  · exact .refl hs
  · split
    · exact .refl hs
    · split
      · exact .refl hs
      · exact follows_of_same hs rfl rfl rfl rfl

/-- Whatever a client asks for, its channels go on by steps of their providers. -/
theorem follows_next {s : Session R} (hs : s.Orderly) (r : Request R) : s.Follows (s.next r) := by
  have heffect := s.effect_next r
  generalize s.next r = s' at heffect ⊢
  cases heffect with
  | idle tolerance _ => exact follows_of_same hs rfl rfl rfl rfl
  | @provide n act hp hr =>
    obtain ⟨answer, hact⟩ := Request.exists_outcome_of_provision hr
    exact follows_of_turns hs rfl (Channel.turns_leave (hs.provides n hp).2 act hact) rfl rfl rfl rfl
  | turn hopened _ => exact follows_turnTo hs hopened
  | task _ => exact follows_settle hs
  | wait program _ _ =>
    have henrolled : s.Follows (s.enrol program) := follows_of_same hs rfl rfl rfl rfl
    exact henrolled.trans (follows_pollWaiter henrolled.orderly _)
  | poll n _ => exact follows_pollWaiter hs n

def after (s : Session R) (requests : List (Request R)) : Session R :=
  requests.foldl (fun s r => (s.step r).value.1) s

theorem follows_after {s : Session R} (hs : s.Orderly) (requests : List (Request R)) :
    s.Follows (s.after requests) := by
  induction requests generalizing s with
  | nil => exact .refl hs
  | cons r requests ih => exact (follows_next hs r).trans (ih (follows_next hs r).orderly)

end Session

end KetSim
