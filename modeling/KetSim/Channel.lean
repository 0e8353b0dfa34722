import KetSim.Engine
/-!
# Engine channels

An engine is reached through a channel that tells whether it is there yet. One party, the provider,
settles the channel once, with an engine or with a reason why there is none; any number of others
look at it or wait for it. A provider may go away without settling; who waits is then told so, while
who only looks still sees that nothing is there.
-/
namespace KetSim

/-- What a channel shows. -/
inductive Status (R : Type) where
  | pending
  | ready (backend : Backend R)
  | failed (reason : FailureReason R)

/-- Who may still settle a channel. -/
inductive Provider (R : Type) where
  /-- Someone who has not yet done so. -/
  | present
  /-- A task that builds the engine with these settings as soon as somebody waits. -/
  | scheduled (settings : Settings R)
  | gone

/-- The way to an engine. -/
structure Channel (R : Type) where
  status : Status R
  provider : Provider R

namespace Status
variable {R : Type}

/-- The engine, or why there is none now. -/
def current : Status R → Except (Error R) (Backend R)
  | pending => .error .engineNotReady
  | ready backend => .ok backend
  | failed reason => .error (.engineFailed reason)

def isReady : Status R → Bool
  | ready _ => true
  | _ => false

end Status

namespace Channel
variable {R : Type}

/-- A channel whose provider has yet to act. -/
def fresh : Channel R := ⟨.pending, .present⟩

/-- A channel that a task will settle. -/
def scheduled (s : Settings R) : Channel R := ⟨.pending, .scheduled s⟩

def publish (_ : Channel R) (backend : Backend R) : Logged R (Channel R) := do
  Logged.note (.enginePublished backend.name)
  return ⟨.ready backend, .gone⟩

def fail (_ : Channel R) (reason : FailureReason R) : Channel R := ⟨.failed reason, .gone⟩

/-- The provider goes away. -/
def abandon (c : Channel R) : Channel R := { c with provider := .gone }

/-- The engine, without waiting. -/
def current (c : Channel R) : Except (Error R) (Backend R) := c.status.current

/-- What somebody who waits is told: nothing while the channel may still be settled. -/
def awaited? (c : Channel R) : Option (Except (Error R) (Backend R)) :=
  match c.status, c.provider with
  | .pending, .gone => some (.error (.engineFailed .abandoned))
  | .pending, _ => none
  | _, _ => some c.current

variable [Scalar R]

/-- Settle with the built-in engine, or with the reason why the settings do not allow one. -/
def bootstrap (c : Channel R) (s : Settings R) :
    Logged R (Channel R × Except (Error R) Unit) := do
  match Engine.create s with
  | .ok engine =>
    Logged.note (.engineReady engine.settings.maxQubits)
    return (← c.publish engine.backend, .ok ())
  | .error problem =>
    Logged.note (.bootstrapFailed (.settings problem))
    return (c.fail (.settings problem), .error (.settings problem))

/-- Let a scheduled task run. -/
def settle (c : Channel R) : Logged R (Channel R) :=
  match c.provider with
  | .scheduled s => do return (← c.bootstrap s).1
  | _ => pure c

end Channel

end KetSim
