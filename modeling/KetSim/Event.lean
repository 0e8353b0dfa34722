import KetSim.Error
import KetSim.Statement
/-!
# Events and reports

Work is reported by events: which statements were ignored, how large the circuit is, whether the
norm drifted. `Logged` is a value with the events that led to it, and `Report` a result or an error
with the events reported up to there. How an event is worded is in `KetSim.Event.Wording`.
-/
namespace KetSim

/-- Something worth noting that happened on the way to a result. -/
inductive Event (R : Type) where
  | registerDeclared (position : Nat) (register : String) (size : Int)
  | declarationIgnored (position : Nat) (size : Int) (firstPosition : Nat)
  | gateSkipped (position : Nat) (gate : String)
  | statementSkipped (position : Nat) (kind : Statement.Kind)
  | circuitBuilt (width operations : Nat)
  | normDrifted (error : Error R)
  | statePrepared (dim : Nat)
  | distributionBuilt (numQubits : Nat) (scale scaledNorm : R)
  | executing (width operations : Nat)
  | engineReady (maxQubits : Nat)
  | bootstrapFailed (error : Error R)
  | enginePublished (backend : String)
  deriving Repr

/-- A value together with the events reported on the way to it, oldest first. -/
structure Logged (R α : Type) where
  events : List (Event R)
  value : α
  deriving Repr

namespace Logged
variable {R : Type}

instance : Monad (Logged R) where
  pure a := ⟨[], a⟩
  bind x f := ⟨x.events ++ (f x.value).events, (f x.value).value⟩

instance : LawfulMonad (Logged R) where
  map_const := rfl
  id_map x := by simp [Functor.map]
  seqLeft_eq x y := by simp [SeqLeft.seqLeft, Seq.seq, Functor.map]
  seqRight_eq x y := by simp [SeqRight.seqRight, Seq.seq, Functor.map]
  pure_seq f x := by simp [Seq.seq, Functor.map, pure]
  bind_pure_comp f x := rfl
  bind_map f x := rfl
  pure_bind x f := by simp [bind, pure]
  bind_assoc x f g := by simp [bind]

def note (e : Event R) : Logged R Unit := ⟨[e], ()⟩

@[simp] theorem value_pure {α : Type} (a : α) : (pure a : Logged R α).value = a := rfl

@[simp] theorem events_pure {α : Type} (a : α) : (pure a : Logged R α).events = [] := rfl

@[simp] theorem value_bind {α β : Type} (x : Logged R α) (f : α → Logged R β) :
    (x >>= f).value = (f x.value).value := rfl

@[simp] theorem events_bind {α β : Type} (x : Logged R α) (f : α → Logged R β) :
    (x >>= f).events = x.events ++ (f x.value).events := rfl

@[simp] theorem events_note (e : Event R) : (note e).events = [e] := rfl

end Logged

/-- A result or an error, with the events reported up to there. -/
abbrev Report (R : Type) := ExceptT (Error R) (Logged R)

namespace Report
variable {R α : Type}

def note (e : Event R) : Report R Unit := ExceptT.lift (Logged.note e)

def result (x : Report R α) : Except (Error R) α := x.run.value

def events (x : Report R α) : List (Event R) := x.run.events

/-- A result that reports nothing. -/
def ofExcept (x : Except (Error R) α) : Report R α := ExceptT.mk (pure x)

/-- A computation that may leave its domain, as part of a report. -/
def ofChecked (x : Except Fault α) : Report R α := ofExcept (x.mapError Error.fault)

@[simp] theorem ofExcept_ok (a : α) : (ofExcept (.ok a) : Report R α) = pure a := rfl

@[simp] theorem ofExcept_error (e : Error R) : (ofExcept (.error e) : Report R α) = throw e := rfl

@[simp] theorem ofChecked_ok (a : α) : (ofChecked (.ok a) : Report R α) = pure a := rfl

@[simp] theorem ofChecked_error (f : Fault) :
    (ofChecked (.error f) : Report R α) = throw (.fault f) := rfl

/-- After an error nothing more happens. -/
@[simp] theorem throw_bind {β : Type} (e : Error R) (f : α → Report R β) :
    (throw e : Report R α) >>= f = throw e := rfl

@[simp] theorem result_pure (a : α) : (pure a : Report R α).result = .ok a := rfl

@[simp] theorem result_throw (e : Error R) : (throw e : Report R α).result = .error e := rfl

@[simp] theorem result_note (e : Event R) : (note e).result = .ok () := rfl

@[simp] theorem result_lift (x : Logged R α) :
    result (ExceptT.lift x : Report R α) = .ok x.value := rfl

@[simp] theorem result_ofExcept (x : Except (Error R) α) : (ofExcept x).result = x := rfl

/-- Results follow each other as if nothing were reported. -/
@[simp] theorem result_bind {β : Type} (x : Report R α) (f : α → Report R β) :
    (x >>= f).result = x.result >>= fun a => (f a).result := by
  show (ExceptT.bindCont f x.run.value).value = _
  cases h : x.run.value <;> simp only [result, h] <;> rfl

@[simp] theorem events_throw (e : Error R) : (throw e : Report R α).events = [] := rfl

end Report

end KetSim
