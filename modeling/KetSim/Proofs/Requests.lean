import KetSim.Proofs.Lifecycle
import KetSim.Session
/-!
# What a request does

A request that settles or drops a channel is a step of its provider, one that waits may let a task
run, and the others leave the channels as they are. All that a request can do to a session is listed
once (`Session.Effect`, `Session.effect_next`); what sessions keep is shown by the cases of this
list.
-/
namespace KetSim

variable {R : Type}

namespace Request

/-- What the client does by a request to the channel of which it is the provider. Who turns to
another channel drops the one before. -/
def provision? [Scalar R] : Request R → Option (Provision R)
  | publish spec => spec.build.toOption.map .publish
  | fail reason => some (.fail reason)
  | bootstrap settings => some (.bootstrap settings)
  | abandon => some .drop
  | openChannel => some .drop
  | spawn _ => some .drop
  | adopt spec => spec.build.toOption.map fun _ => .drop
  | _ => none

/-- Requests that wait, and so let the task behind the handle run. -/
def waits : Request R → Bool
  | ready => true
  | executeWhenReady _ => true
  | _ => false

section
variable [Scalar R] {r : Request R}

theorem provision?_of_waits (hr : r.waits = true) : r.provision? = none := by
  cases r <;> first | rfl | cases hr

theorem exists_outcome_of_provision {act : Provision R} (hr : r.provision? = some act) :
    ∃ answer, act.outcome? = some answer := by
  cases act with
  | bootstrap settings => exact Provision.exists_outcome_bootstrap settings
  | leave => cases r <;> simp [provision?] at hr
  | _ => exact ⟨_, rfl⟩

end

end Request

variable [Scalar R]

/-- What somebody who waits with a program is told: nothing while the channel may still be
settled. -/
def Channel.answer (c : Channel R) (tolerance : Option R) (program : List Statement) : Reply R :=
  c.awaited?.elim .pending fun engine => (Session.executeOn engine tolerance program).value

namespace Session

def next (s : Session R) (r : Request R) : Session R := (s.step r).value.1

def reply (s : Session R) (r : Request R) : Reply R := (s.step r).value.2

omit [Scalar R] in
theorem value_provide_of_some {s : Session R} {n : Nat} (hp : s.provides = some n)
    (act : Channel R → Logged R (Channel R × Reply R)) :
    (s.provide act).value.1 = { s with
      channels := s.channels.setIfInBounds n (act (s.channel n)).value.1, provides := none } := by
  rw [provide, hp]
  rfl

theorem value_settle (s : Session R) :
    s.settle.value = { s with
      channels := if s.runsTask then
        s.channels.setIfInBounds s.handle (s.channel s.handle).settle.value else s.channels } := by
  rw [settle]
  split <;> rfl

theorem next_ready (s : Session R) : s.next .ready = s.settle.value := by
  rw [next, step, Logged.value_bind]
  split <;> rfl

/-- The session with an execution that waits. -/
def enrol (s : Session R) (program : List Statement) : Session R :=
  { s with waiters := s.waiters.push ⟨s.handle, s.tolerance, program, false⟩ }

omit [Scalar R] in
theorem getElem?_waiters_enrol (s : Session R) (program : List Statement) :
    (s.enrol program).waiters[s.waiters.size]? =
      some ⟨s.handle, s.tolerance, program, false⟩ := by
  simp [enrol]

/-- A new channel to which a client turns, whether the client is its provider, and whether waiting
lets a task run. -/
inductive Opened : Channel R → Bool → Bool → Prop where
  | fresh : Opened .fresh true false
  | scheduled (settings : Settings R) : Opened (.scheduled settings) false true
  | published (b : Backend R) : Opened (Channel.fresh.publish b).value false false

/-- The sessions to which a request can lead. -/
inductive Effect (s : Session R) (r : Request R) : Session R → Prop where
  | idle (tolerance : Option R) : (∀ n, s.provides = some n → r.provision? = none) →
      Effect s r { s with tolerance := tolerance }
  | provide {n : Nat} {act : Provision R} : s.provides = some n → r.provision? = some act →
      Effect s r { s with
        channels := s.channels.setIfInBounds n (act.apply (s.channel n)).abandon
        provides := none }
  | turn {c : Channel R} {provides runsTask : Bool} : Opened c provides runsTask →
      r.provision? = some .drop → Effect s r (s.turnTo c provides runsTask)
  | task : r.waits = true → Effect s r s.settle.value
  | wait (program : List Statement) : r = .executeWhenReady program → s.runsTask = false →
      Effect s r ((s.enrol program).pollWaiter s.waiters.size).value.1
  | poll (n : Nat) : r = .poll n → Effect s r (s.pollWaiter n).value.1

/-- What a provider does ends its part. -/
theorem effect_provide {s : Session R} {r : Request R} {act : Provision R}
    (hr : r.provision? = some act) {f : Channel R → Logged R (Channel R × Reply R)}
    (hf : ∀ c, (f c).value.1 = (act.apply c).abandon) : s.Effect r (s.provide f).value.1 := by
  cases hp : s.provides with
  | none =>
    rw [provide, hp]
    exact .idle s.tolerance (by simp [hp])
  | some n =>
    rw [value_provide_of_some hp, hf]
    exact .provide hp hr

/-- On a channel with a task an execution that waits is no waiter. -/
theorem value_step_executeWhenReady_of_task {s : Session R} (ht : s.runsTask = true)
    (program : List Statement) : (s.step (.executeWhenReady program)).value =
      (s.settle.value, (s.settle.value.channel s.handle).answer s.tolerance program) := by
  have hs : s.settle.value.runsTask = true := by rw [value_settle, ht]
  have hhandle : s.settle.value.handle = s.handle := by rw [value_settle]
  have htolerance : s.settle.value.tolerance = s.tolerance := by rw [value_settle]
  rw [step, Logged.value_bind, if_pos hs, hhandle, htolerance, Channel.answer]
  cases (s.settle.value.channel s.handle).awaited? <;> rfl

theorem value_step_executeWhenReady {s : Session R} (ht : s.runsTask = false)
    (program : List Statement) : (s.step (.executeWhenReady program)).value =
      ((s.enrol program).pollWaiter s.waiters.size).value := by
  have hs : s.settle.value = s := by simp [settle, ht]
  rw [step, Logged.value_bind, hs, if_neg (by simp [ht])]
  rfl

theorem effect_next (s : Session R) (r : Request R) : s.Effect r (s.next r) := by
  cases r with
  | openChannel => exact .turn .fresh rfl
  | publish spec =>
    rw [next, step]
    cases hp : s.provides with
    | none => exact .idle s.tolerance (by simp [hp])
    | some n =>
      simp only [Option.isNone_some, Bool.false_eq_true, if_false]
      cases hb : spec.build with
      | error e =>
        exact .idle s.tolerance fun _ _ => by rw [Request.provision?, hb]; rfl
      | ok b =>
        exact effect_provide (by rw [Request.provision?, hb]; rfl) fun c => rfl
  | fail reason => exact effect_provide rfl fun c => rfl
  | bootstrap settings =>
    refine effect_provide rfl fun c => ?_
    rw [Provision.abandon_apply_bootstrap, Logged.value_bind]
    split <;> simp_all
  | abandon => exact effect_provide rfl fun c => rfl
  | spawn settings => exact .turn (.scheduled settings) rfl
  | adopt spec =>
    rw [next, step]
    cases hb : spec.build with
    | error e => exact .idle s.tolerance fun _ _ => by rw [Request.provision?, hb]; rfl
    | ok b => exact .turn (.published b) (by rw [Request.provision?, hb]; rfl)
  | status => exact .idle s.tolerance fun _ _ => rfl
  | current =>
    rw [next, step]
    split <;> exact .idle s.tolerance fun _ _ => rfl
  | setTolerance value => exact .idle value fun _ _ => rfl
  | ready =>
    rw [next_ready]
    exact .task rfl
  | execute program => exact .idle s.tolerance fun _ _ => rfl
  | executeWhenReady program =>
    cases ht : s.runsTask with
    | true =>
      rw [next, value_step_executeWhenReady_of_task ht]
      exact .task rfl
    | false =>
      rw [next, value_step_executeWhenReady ht]
      exact .wait program rfl ht
  | poll n => exact .poll n rfl

end Session

end KetSim
