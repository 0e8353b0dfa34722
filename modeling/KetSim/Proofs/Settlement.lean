import KetSim.Proofs.Preparation
import KetSim.Proofs.Replies
/-!
# One answer for everybody

However the steps of all who use a channel are interleaved, the channel is settled or dropped at
most once, and from this step on all are told the same: those who wait at any time, those who look
through any handle, and those who execute (`Lifecycle.lawful_of_run`). Only looking at a channel that
shows nothing says that nothing is there; waiting never does. A client of channels is told just this
(`Session.tells_after`). Executing is another matter: an engine that is there may itself say that it
is not ready (`Lifecycle.settles_once_unready`).
-/
namespace KetSim

variable {R : Type} [Scalar R]

/-- Of all outcomes only a backend that was published can itself say that it is not ready. -/
theorem Provision.exists_publish_of_notReady {act : Provision R}
    {answer : Except (Error R) (Backend R)} (hout : act.outcome? = some answer)
    {tolerance : Option R} {program : List Statement}
    (hnot : (answer >>= fun b => (b.execute tolerance program).result) = .error .engineNotReady) :
    ∃ b, act = .publish b ∧ (b.execute tolerance program).result = .error .engineNotReady := by
  cases act with
  | publish b =>
    obtain rfl := Option.some.inj hout
    exact ⟨b, rfl, hnot⟩
  | bootstrap settings =>
    simp only [Provision.outcome?] at hout
    cases he : Engine.create settings with
    | ok e =>
      rw [he] at hout
      obtain rfl := Option.some.inj hout
      exact absurd hnot
        (Engine.execute_ne_engineNotReady (Engine.maxQubits_of_create he) tolerance program)
    | error problem =>
      rw [he] at hout
      obtain rfl := Option.some.inj hout
      cases hnot
  | leave => cases hout
  | _ =>
    obtain rfl := Option.some.inj hout
    cases hnot

namespace Lifecycle

/-- What holds of a channel and all who use it, however their steps were interleaved. -/
structure Lawful (moves : List (Move R)) (s : Lifecycle R) : Prop where
  /-- At most one step settles or drops the channel, and its outcome is what the channel has to say
  to those who wait. -/
  outcomes : moves.filterMap Move.outcome? = s.channel.awaited?.toList
  /-- Before that step nothing is there. -/
  pending : (∀ m ∈ moves, m.outcome? = none) → s.channel.status = .pending
  /-- What one handle shows, once it shows something, every handle shows from then on. -/
  status_eq : ∀ handle c, s.through handle = some c → c.status ≠ .pending →
    ∀ later s', Run s later s' → ∀ handle' c', s'.through handle' = some c' → c'.status = c.status
  /-- Who waited was told the outcome of that step, and never that nothing is there. -/
  told : ∀ answer, .told answer ∈ s.waits →
    moves.filterMap Move.outcome? = [answer] ∧ answer ≠ .error .engineNotReady
  /-- Who still waits after that step is told its outcome within three looks. -/
  ends : ∀ m ∈ moves, ∀ answer, m.outcome? = some answer → ∀ n < s.waits.length,
    ∃ looks ≤ 3, s.Ends n looks answer
  /-- Who looks without waiting finds nothing exactly while the channel shows nothing. -/
  current : ∀ handle c, s.through handle = some c →
    (c.current = .error .engineNotReady ↔ c.status = .pending)
  /-- Of a channel that was dropped that is so for ever. -/
  dropped : .provide .drop ∈ moves → s.channel.status = .pending
  /-- Of a channel that was settled, looking shows what those who wait are told. -/
  settled : ∀ m ∈ moves, m ≠ .provide .drop → ∀ answer, m.outcome? = some answer →
    ∀ handle c, s.through handle = some c → c.current = answer
  /-- Executing through a handle finds nothing as long as looking does, unless a published backend
  itself says that it is not ready. -/
  execute : ∀ handle c, s.through handle = some c → ∀ tolerance program,
    ((Session.executeOn c.current tolerance program).value = .refused .engineNotReady ↔
      c.status = .pending ∨ ∃ b, .provide (.publish b) ∈ moves ∧
        (b.execute tolerance program).result = .error .engineNotReady)
  /-- Waiting and then executing finds nothing only if a published backend itself says so. -/
  executeWhenReady : ∀ answer, .told answer ∈ s.waits → ∀ tolerance program,
    ((Session.executeOn answer tolerance program).value = .refused .engineNotReady ↔
      ∃ b, .provide (.publish b) ∈ moves ∧
        (b.execute tolerance program).result = .error .engineNotReady)

section
variable {s : Lifecycle R} {moves : List (Move R)} (h : Run start moves s)
include h

theorem outcomes_eq : moves.filterMap Move.outcome? = s.channel.awaited?.toList :=
  h.outcomes_eq.symm

/-- Whoever was told something was told what the channel has to say. -/
theorem awaited?_of_told {answer : Except (Error R) (Backend R)} (htold : .told answer ∈ s.waits) :
    s.channel.awaited? = some answer :=
  h.agrees (by simp [start]) _ htold

/-- A channel has something to say for the reason of one of the moves. -/
theorem exists_outcome_iff {answer : Except (Error R) (Backend R)} :
    (∃ m ∈ moves, m.outcome? = some answer) ↔ s.channel.awaited? = some answer := by
  rw [← Option.mem_toList, ← outcomes_eq h, List.mem_filterMap]

/-- Executing on what was told says that nothing is ready only where a published backend does. -/
theorem execute_notReady_iff {answer : Except (Error R) (Backend R)}
    (hanswer : s.channel.awaited? = some answer) (tolerance : Option R)
    (program : List Statement) :
    (Session.executeOn answer tolerance program).value = .refused .engineNotReady ↔
      ∃ b, .provide (.publish b) ∈ moves ∧
        (b.execute tolerance program).result = .error .engineNotReady := by
  rw [Session.value_executeOn, Reply.ofAnswer_eq_refused_iff]
  constructor
  · intro hnot
    obtain ⟨m, hm, hout⟩ := (exists_outcome_iff h).2 hanswer
    obtain ⟨act, rfl, hact⟩ := Move.exists_act_of_outcome hout
    obtain ⟨b, rfl, hb⟩ := Provision.exists_publish_of_notReady hact hnot
    exact ⟨b, hm, hb⟩
  · rintro ⟨b, hm, hb⟩
    have hb' := (exists_outcome_iff h).1 ⟨_, hm, rfl⟩
    obtain rfl := Option.some.inj (hanswer.symm.trans hb')
    exact hb

/-- What was settled shows, and nothing else does. -/
theorem current_of_outcome {m : Move R} (hm : m ∈ moves) (hne : m ≠ .provide .drop)
    {answer : Except (Error R) (Backend R)} (hout : m.outcome? = some answer) :
    s.channel.status ≠ .pending ∧ s.channel.current = answer := by
  have hanswer := (exists_outcome_iff h).1 ⟨m, hm, hout⟩
  rcases Channel.awaited?_cases hanswer with ⟨hs, rfl⟩ | ⟨-, -, rfl⟩
  · exact ⟨hs, rfl⟩
  · obtain ⟨act, rfl, hact⟩ := Move.exists_act_of_outcome hout
    exact absurd (congrArg Move.provide (Provision.eq_drop_of_abandoned hact)) hne

theorem lawful_of_run : s.Lawful moves where
  outcomes := outcomes_eq h
  pending hnone := by
    refine Channel.pending_of_awaited? ?_
    refine Option.eq_none_iff_forall_ne_some.2 fun answer hanswer => ?_
    obtain ⟨m, hm, hout⟩ := (exists_outcome_iff h).2 hanswer
    rw [hnone m hm] at hout
    cases hout
  status_eq handle c hc hs later s' hrun handle' c' hc' := by
    obtain rfl := eq_of_through hc
    obtain rfl := eq_of_through hc'
    exact hrun.status_eq hs
  told answer htold := by
    have hanswer := awaited?_of_told h htold
    refine ⟨by rw [outcomes_eq h, hanswer]; rfl, ?_⟩
    rintro rfl
    exact Channel.awaited?_ne_engineNotReady _ hanswer
  ends m hm answer hout n hn := by
    have hanswer := (exists_outcome_iff h).1 ⟨m, hm, hout⟩
    refine exists_ends hanswer (List.getElem?_eq_getElem hn) ?_
    exact h.agrees (by simp [start]) _ (List.getElem_mem hn)
  current handle c hc := Channel.current_eq_engineNotReady_iff
  dropped hm := (h.dropped hm).1
  settled m hm hne answer hout handle c hc := by
    obtain rfl := eq_of_through hc
    exact (current_of_outcome h hm hne hout).2
  execute handle c hc tolerance program := by
    obtain rfl := eq_of_through hc
    by_cases hs : s.channel.status = .pending
    · rw [Channel.current_eq_engineNotReady_iff.2 hs]
      simp [hs, Session.executeOn]
    · rw [execute_notReady_iff h (Channel.awaited?_of_settled hs)]
      simp [hs]
  executeWhenReady answer htold := execute_notReady_iff h (awaited?_of_told h htold)

end

omit [Scalar R]

/-- **A channel is settled once, for everybody.** However the steps of a provider, of the holders of
handles and of those who wait are interleaved, the channel says one thing from the step on that
settles or drops it, and before that nobody who waits is told anything. The channels of a session
never take other steps than these, and a client is told what they show and have to say. -/
theorem settles_once :
    (∀ {R : Type} [Scalar R] {moves : List (Move R)} {s : Lifecycle R},
      Run start moves s → s.Lawful moves) ∧
    (∀ {R : Type} [Scalar R] (requests later : List (Request R)) (n : Nat),
      n < (Session.start.after requests).channels.size →
        Channel.Turns ((Session.start.after requests).channel n)
          ((Session.start.after (requests ++ later)).channel n)) ∧
    (∀ {R : Type} [Scalar R] (requests : List (Request R)),
      (Session.start.after requests).Tells) := by
  refine ⟨lawful_of_run, fun requests later n hn => ?_, Session.tells_after⟩
  have hs := (Session.follows_after Session.orderly_start requests).orderly
  rw [Session.after, Session.after, List.foldl_append]
  exact (Session.follows_after hs later).turns n hn

/-- The engine is published, and its provider gone, between the look of somebody who found nothing
and the news that the provider is gone; a second one has not yet looked. A client publishes an
engine after it has looked, and another one starts an execution before it gives a reason why there
is no engine. -/
theorem settles_once_race :
    let b : Backend Float := Engine.standard.backend
    let moves : List (Move Float) := [.clone 0, .wait 0, .look 0, .provide (.publish b),
      .provide .leave, .look 0, .wait 1, .look 0]
    let s : Lifecycle Float := ⟨⟨.ready b, .gone⟩, 2, [.told (.ok b), .asking]⟩
    let waiting : Session Float := (Session.start.after []).next (.executeWhenReady [.declare 1])
    (Run start moves s ∧ s.Lawful moves ∧ ∃ looks ≤ 3, s.Ends 1 looks (.ok b)) ∧
    (0 < (Session.start.after [.current] : Session Float).channels.size ∧
      Channel.Turns ((Session.start.after [.current] : Session Float).channel 0)
        ((Session.start.after ([.current] ++ [.publish (.engine Settings.standard)])).channel 0)) ∧
    (waiting.after [.fail "cold"]).reply (.poll 0) = .refused (.engineFailed (.stated "cold")) ∧
    (waiting.after [.fail "cold", .poll 0]).reply (.poll 0) = .finished := by
  intro b moves s waiting
  have hpublish : (Provision.publish b).Allowed Channel.fresh := ⟨fun _ => rfl, fun _ => rfl⟩
  have hleave : (Provision.leave : Provision Float).Allowed ⟨.ready b, .present⟩ := by
    simp [Provision.Allowed, Provision.outcome?, Channel.awaited?]
  have hrun : Run start moves s :=
    .cons (.clone rfl) <| .cons (.wait rfl) <| .cons (.look rfl .first) <|
    .cons (.provide hpublish) <| .cons (.provide hleave) <| .cons (.look rfl (.hear rfl)) <|
    .cons (.wait rfl) <| .cons (.look rfl .last) .nil
  have hlawful := settles_once.1 hrun
  have hends := hlawful.ends (.provide (.publish b)) (by simp [moves]) _ rfl 1 (by decide)
  have hturns := settles_once.2.1 (R := Float) [.current]
    [.publish (.engine Settings.standard)] 0 Nat.one_pos
  have htells := (settles_once.2.2 (R := Float) []).poll rfl [.declare 1]
  have hunasked : ¬waiting.Answered 0 [.fail "cold"] := by
    rw [Session.answered_cons]
    exact not_or.2 ⟨by simp, Session.not_answered_nil⟩
  have hrefused : (waiting.after [.fail "cold"]).reply (.poll 0) =
      .refused (.engineFailed (.stated "cold")) :=
    (htells [.fail "cold"]).1 (not_or.2 ⟨not_not.2 rfl, hunasked⟩)
  have hanswered : waiting.Answered 0 [.fail "cold", .poll 0] :=
    ⟨[.fail "cold"], [], rfl, by simp [hrefused]⟩
  exact ⟨⟨hrun, hlawful, hends⟩, ⟨Nat.one_pos, hturns⟩, hrefused,
    (htells [.fail "cold", .poll 0]).2 (.inr hanswered)⟩

/-- An engine that is there and itself says that it is not ready: it is passed on by those who
execute, and so is any other refusal of an engine that was published. -/
theorem settles_once_unready :
    let unready : Session Float :=
      Session.start.after [.publish (.failing "cold" .engineNotReady none)]
    let refusing : Session Float :=
      Session.start.after [.publish (.failing "cold" (.serialization "lost") none)]
    ¬(unready.reply (.execute [.declare 1]) = .refused .engineNotReady ↔
      (unready.channel unready.handle).status = .pending) ∧
    unready.reply (.executeWhenReady [.declare 1]) = .refused .engineNotReady ∧
    refusing.reply .ready = .backend "cold" ∧
    refusing.reply (.executeWhenReady [.declare 1]) = .refused (.serialization "lost") := by
  intro unready refusing
  refine ⟨fun h => ?_, rfl, rfl, rfl⟩
  cases h.1 rfl

end Lifecycle

end KetSim
