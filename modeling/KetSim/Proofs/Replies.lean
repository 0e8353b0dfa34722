import KetSim.Proofs.Execution
import KetSim.Proofs.Sessions
/-!
# What a client is told

A client is told what the channel of its handle shows, and one that waits what the channel has to
say. An execution that has to wait keeps its channel, its tolerance and its program; it is answered
at the first poll after the channel has something to say, and only then
(`Session.exists_waiter_after`). What the channel has to say is what the client did as its provider
(`Session.channel_next_of_provision`), or what came of the task that was let run.
-/
namespace KetSim

variable {R : Type}

/-! ## Replies -/

/-- The reply to a client that asks for an engine and not for an execution. -/
def Reply.ofEngine : Except (Error R) (Backend R) → Reply R
  | .ok b => .backend b.name
  | .error e => .refused e

theorem Reply.ofEngine_eq_refused_iff {engine : Except (Error R) (Backend R)}
    {problem : Error R} : Reply.ofEngine engine = .refused problem ↔ engine = .error problem := by
  cases engine <;> simp [ofEngine]

variable [Scalar R]

namespace Channel
variable {c : Channel R} {tolerance : Option R} {program : List Statement}

/-- Executing on what a channel shows finds nothing while it shows nothing, or else the backend
itself says so. -/
theorem execute_current_eq_notReady_iff :
    (Session.executeOn c.current tolerance program).value = .refused .engineNotReady ↔
      c.status = .pending ∨ ∃ b, c.status = .ready b ∧
        (b.execute tolerance program).result = .error .engineNotReady := by
  rw [Session.value_executeOn, Reply.ofAnswer_eq_refused_iff, current]
  cases c.status <;> simp [Status.current, bind, Except.bind]

/-- Who waited and executes finds nothing only where the backend itself says so. -/
theorem answer_eq_notReady_iff :
    c.answer tolerance program = .refused .engineNotReady ↔
      ∃ b, c.status = .ready b ∧
        (b.execute tolerance program).result = .error .engineNotReady := by
  cases hc : c.awaited? with
  | none =>
    have hs := pending_of_awaited? hc
    simp [answer, hc, hs]
  | some engine =>
    rw [answer, hc, Option.elim_some]
    rcases awaited?_cases hc with ⟨hs, rfl⟩ | ⟨hs, -, rfl⟩
    · rw [execute_current_eq_notReady_iff, or_iff_right hs]
    · simp [hs, Session.executeOn]

end Channel

namespace Session

theorem executeOn_ne_pending (engine : Except (Error R) (Backend R)) (tolerance : Option R)
    (program : List Statement) : (executeOn engine tolerance program).value ≠ .pending := by
  rw [value_executeOn]
  cases engine >>= fun b => (b.execute tolerance program).result <;> simp [Reply.ofAnswer]

theorem reply_current (s : Session R) :
    s.reply .current = .ofEngine (s.channel s.handle).current := by
  rw [reply, step]
  cases (s.channel s.handle).current <;> rfl

theorem reply_ready (s : Session R) :
    s.reply .ready = ((s.next .ready).channel s.handle).awaited?.elim .pending .ofEngine := by
  have hhandle : s.settle.value.handle = s.handle := by rw [value_settle]
  rw [next_ready, reply, step, Logged.value_bind, hhandle]
  cases (s.settle.value.channel s.handle).awaited? with
  | none => rfl
  | some engine => cases engine <;> rfl

/-! ## Waiters -/

section
variable {s : Session R} {n : Nat} {w : Waiter R}

/-- A look at a waiter: once it can be answered it is, and then never again. -/
theorem value_pollWaiter (hw : s.waiters[n]? = some w) :
    (s.pollWaiter n).value =
      if w.answered then (s, .finished)
      else match (s.channel w.channel).awaited? with
        | none => (s, .pending)
        | some engine =>
          ({ s with waiters := s.waiters.modify n ({ · with answered := true }) },
            (executeOn engine w.tolerance w.statements).value) := by
  simp only [pollWaiter, hw]
  split
  · rfl
  · cases (s.channel w.channel).awaited? <;> rfl

theorem reply_pollWaiter (hw : s.waiters[n]? = some w) :
    (s.pollWaiter n).value.2 =
      if w.answered then .finished
      else (s.channel w.channel).answer w.tolerance w.statements := by
  rw [value_pollWaiter hw, Channel.answer]
  split
  · rfl
  · cases (s.channel w.channel).awaited? <;> rfl

/-- A look at a waiter leaves the others as they are. -/
theorem getElem?_waiters_pollWaiter_of_ne {k : Nat} (hk : k ≠ n) :
    (s.pollWaiter k).value.1.waiters[n]? = s.waiters[n]? := by
  cases hv : s.waiters[k]? with
  | none => simp [pollWaiter, hv]
  | some v =>
    rw [value_pollWaiter hv]
    split
    · rfl
    · split <;> simp [Array.getElem?_modify, hk]

/-- A look at a waiter changes nothing of it but that it is answered, if it is. -/
theorem exists_waiter_pollWaiter (hw : s.waiters[n]? = some w) (k : Nat) :
    ∃ answered, (s.pollWaiter k).value.1.waiters[n]? = some { w with answered := answered } ∧
      (answered = true ↔ w.answered = true ∨ k = n ∧ (s.pollWaiter k).value.2 ≠ .pending) := by
  by_cases hk : k = n
  · subst hk
    rw [value_pollWaiter hw]
    obtain ⟨channel, tolerance, program, answered⟩ := w
    cases answered with
    | true => exact ⟨true, hw, by simp⟩
    | false =>
      simp only [Bool.false_eq_true, if_false]
      cases (s.channel channel).awaited? with
      | none => exact ⟨false, hw, by simp⟩
      | some engine =>
        exact ⟨true, by simp [Array.getElem?_modify, hw], by simp [executeOn_ne_pending]⟩
  · exact ⟨w.answered, by rw [getElem?_waiters_pollWaiter_of_ne hk, hw], by simp [hk]⟩

omit [Scalar R] in
theorem waiters_stopProviding : s.stopProviding.waiters = s.waiters := by
  rw [stopProviding]
  split <;> rfl

/-- Only a poll answers a waiter. -/
theorem getElem?_waiters_next (hw : s.waiters[n]? = some w) {r : Request R}
    (hr : ∀ k, r ≠ .poll k) : (s.next r).waiters[n]? = some w := by
  have heffect := s.effect_next r
  generalize s.next r = s' at heffect ⊢
  cases heffect with
  | idle tolerance _ => exact hw
  | provide _ _ => exact hw
  | turn _ _ =>
    show s.stopProviding.waiters[n]? = some w
    rw [waiters_stopProviding, hw]
  | task _ => rw [value_settle]; exact hw
  | wait program _ _ =>
    have hn : n < s.waiters.size := (Array.getElem?_eq_some_iff.1 hw).1
    rw [getElem?_waiters_pollWaiter_of_ne hn.ne', enrol, Array.getElem?_push, if_neg hn.ne, hw]
  | poll k hk => exact absurd hk (hr k)

/-- A request keeps the channel, the tolerance and the program of a waiter. -/
theorem exists_waiter_next (hw : s.waiters[n]? = some w) (r : Request R) :
    ∃ answered, (s.next r).waiters[n]? = some { w with answered := answered } ∧
      (answered = true ↔ w.answered = true ∨ r = .poll n ∧ s.reply r ≠ .pending) := by
  by_cases hr : ∃ k, r = .poll k
  · obtain ⟨k, rfl⟩ := hr
    obtain ⟨answered, hnext, hiff⟩ := exists_waiter_pollWaiter hw k
    exact ⟨answered, hnext, by simpa [reply, step] using hiff⟩
  · have hr' := not_exists.1 hr
    exact ⟨w.answered, getElem?_waiters_next hw hr', by simp [hr']⟩

/-- The client asked for a waiter in the course of these requests, and was answered. -/
def Answered (s : Session R) (n : Nat) (requests : List (Request R)) : Prop :=
  ∃ earlier later, requests = earlier ++ .poll n :: later ∧
    (s.after earlier).reply (.poll n) ≠ .pending

theorem not_answered_nil : ¬s.Answered n [] := by simp [Answered]

theorem answered_cons {r : Request R} {requests : List (Request R)} :
    s.Answered n (r :: requests) ↔
      r = .poll n ∧ s.reply r ≠ .pending ∨ (s.next r).Answered n requests := by
  constructor
  · rintro ⟨earlier, later, heq, hne⟩
    cases earlier with
    | nil =>
      obtain ⟨rfl, rfl⟩ := List.cons.inj heq
      exact .inl ⟨rfl, hne⟩
    | cons r' earlier =>
      obtain ⟨rfl, rfl⟩ := List.cons.inj heq
      exact .inr ⟨earlier, later, rfl, hne⟩
  · rintro (⟨rfl, hne⟩ | ⟨earlier, later, rfl, hne⟩)
    · exact ⟨[], requests, rfl, hne⟩
    · exact ⟨r :: earlier, later, rfl, hne⟩

/-- Whatever is asked for, a waiter keeps its channel, its tolerance and its program, and is
answered once. -/
theorem exists_waiter_after (hw : s.waiters[n]? = some w) (requests : List (Request R)) :
    ∃ answered, (s.after requests).waiters[n]? = some { w with answered := answered } ∧
      (answered = true ↔ w.answered = true ∨ s.Answered n requests) := by
  induction requests generalizing s w with
  | nil => exact ⟨w.answered, hw, by simp [not_answered_nil]⟩
  | cons r requests ih =>
    obtain ⟨answered, hnext, hiff⟩ := exists_waiter_next hw r
    obtain ⟨answered', hafter, hiff'⟩ := ih hnext
    refine ⟨answered', hafter, ?_⟩
    rw [hiff', answered_cons, hiff, or_assoc]

theorem reply_poll (hw : s.waiters[n]? = some w) :
    s.reply (.poll n) =
      if w.answered then .finished
      else (s.channel w.channel).answer w.tolerance w.statements :=
  reply_pollWaiter hw

/-- An execution that waits, later on: it is pending until the channel has something to say, is
answered then, and once. -/
theorem reply_poll_after (ht : s.runsTask = false) (program : List Statement)
    (later : List (Request R)) :
    let started := s.next (.executeWhenReady program)
    let answered := s.reply (.executeWhenReady program) ≠ .pending ∨
      started.Answered s.waiters.size later
    (¬answered → (started.after later).reply (.poll s.waiters.size) =
      ((started.after later).channel s.handle).answer s.tolerance program) ∧
    (answered → (started.after later).reply (.poll s.waiters.size) = .finished) := by
  intro started answered
  obtain ⟨a, hstarted, hiff⟩ :=
    exists_waiter_pollWaiter (s.getElem?_waiters_enrol program) s.waiters.size
  rw [← value_step_executeWhenReady ht] at hstarted hiff
  obtain ⟨a', hafter, hiff'⟩ := exists_waiter_after (s := started) hstarted later
  have hanswered : a' = true ↔ answered := by
    rw [hiff', hiff]
    simp [answered, reply]
  rw [reply_poll hafter]
  constructor
  · intro hnot
    exact if_neg (mt hanswered.1 hnot)
  · intro h
    exact if_pos (hanswered.2 h)

end

/-! ## Channels -/

section
variable {s : Session R} {n : Nat}

omit [Scalar R] in
/-- Who turns to another channel drops the one before. -/
theorem channel_turnTo {c : Channel R} {provides runsTask : Bool} (hn : n < s.channels.size) :
    (s.turnTo c provides runsTask).channel n =
      if s.provides = some n then (s.channel n).abandon else s.channel n := by
  have hsize : s.stopProviding.channels.size = s.channels.size := by
    rw [stopProviding]
    split <;> simp
  rw [channel_of_push (s := s.stopProviding) rfl, if_neg (hsize.symm ▸ hn.ne), stopProviding]
  split
  · rename_i k hk
    rw [channel_of_set (s.modify_abandon k), hk]
    by_cases hkn : k = n <;> simp [hkn, hn]
  · rename_i hnone
    simp [hnone]

theorem channel_pollWaiter (k : Nat) :
    (s.pollWaiter n).value.1.channel k = s.channel k := by
  cases hw : s.waiters[n]? with
  | none => simp [pollWaiter, hw]
  | some w =>
    rw [value_pollWaiter hw]
    split
    · rfl
    · split <;> rfl

/-- What the client does as a provider, it does to the channel of which it is the provider. -/
theorem channel_next_of_provision (hs : s.Orderly) (hp : s.provides = some n) {r : Request R}
    {act : Provision R} (hr : r.provision? = some act) :
    (s.next r).channel n = (act.apply (s.channel n)).abandon := by
  have hn := (hs.provides n hp).1
  have heffect := s.effect_next r
  generalize s.next r = s' at heffect ⊢
  cases heffect with
  | idle tolerance hnone =>
    rw [hnone n hp] at hr
    cases hr
  | provide hp' hr' =>
    obtain rfl := Option.some.inj (hp.symm.trans hp')
    obtain rfl := Option.some.inj (hr.symm.trans hr')
    rw [channel_of_set rfl, if_pos ⟨rfl, hn⟩]
  | turn _ hr' =>
    obtain rfl := Option.some.inj (hr.symm.trans hr')
    rw [channel_turnTo hn, if_pos hp]
    rfl
  | task hw =>
    rw [Request.provision?_of_waits hw] at hr
    cases hr
  | wait program hw _ =>
    subst hw
    cases hr
  | poll k hk =>
    subst hk
    cases hr

/-- Nobody else changes a channel, but the task that is let run. -/
theorem channel_next_of_kept (hn : n < s.channels.size) {r : Request R}
    (hr : s.provides = some n → r.provision? = none)
    (ht : r.waits = true → s.runsTask = true → n ≠ s.handle) :
    (s.next r).channel n = s.channel n := by
  have heffect := s.effect_next r
  generalize s.next r = s' at heffect ⊢
  cases heffect with
  | idle tolerance _ => rfl
  | @provide k act hp hact =>
    rw [channel_of_set rfl, if_neg]
    rintro ⟨rfl, -⟩
    rw [hr hp] at hact
    cases hact
  | turn _ hact =>
    rw [channel_turnTo hn, if_neg]
    intro hp
    rw [hr hp] at hact
    cases hact
  | task hw =>
    rw [value_settle]
    split
    · rename_i htask
      rw [channel_of_set rfl, if_neg fun h => ht hw htask h.1.symm]
    · rfl
  | wait program _ _ => exact channel_pollWaiter n
  | poll k _ => exact channel_pollWaiter n

/-- What those who wait are told after the client has acted as their provider. Unless it dropped the
channel, looking shows the same. -/
theorem awaited?_next_of_provision (hs : s.Orderly) (hp : s.provides = some n) {r : Request R}
    {act : Provision R} (hr : r.provision? = some act) :
    ∃ answer, act.outcome? = some answer ∧ ((s.next r).channel n).awaited? = some answer ∧
      (act ≠ .drop → ((s.next r).channel n).current = answer) := by
  obtain ⟨answer, hact⟩ := Request.exists_outcome_of_provision hr
  have hawaited : ((s.next r).channel n).awaited? = some answer := by
    rw [channel_next_of_provision hs hp hr]
    exact Channel.awaited?_abandon_apply (hs.provides n hp).2 hact
  refine ⟨answer, hact, hawaited, fun hne => ?_⟩
  rcases Channel.awaited?_cases hawaited with ⟨-, heq⟩ | ⟨-, -, rfl⟩
  · exact heq.symm
  · exact absurd (Provision.eq_drop_of_abandoned hact) hne

/-- Where a task is let run, waiting comes to an end. -/
theorem awaited?_next_of_task (hs : s.Orderly) (ht : s.runsTask = true) {r : Request R}
    (hr : r.waits = true) :
    ((s.next r).channel s.handle).awaited? ≠ none ∧
      ∀ settings, (s.channel s.handle).provider = .scheduled settings →
        ((s.next r).channel s.handle).awaited? =
          (Provision.bootstrap settings : Provision R).outcome? := by
  have hnext : s.next r = s.settle.value := by
    cases r with
    | ready => exact next_ready s
    | executeWhenReady program => rw [next, value_step_executeWhenReady_of_task ht]
    | _ => cases hr
  have hchannel : (s.next r).channel s.handle = (s.channel s.handle).settle.value := by
    rw [hnext, value_settle, ht, channel_of_set rfl, if_pos ⟨rfl, hs.handle⟩]
  rw [hchannel]
  refine ⟨Channel.awaited?_settle (hs.runsTask ht).2, fun settings hprovider => ?_⟩
  obtain ⟨answer, hout⟩ := Provision.exists_outcome_bootstrap settings
  rw [Channel.settle_of_scheduled hprovider, ← Provision.abandon_apply_bootstrap, hout]
  exact Channel.awaited?_abandon_apply (hs.tasks _ settings hprovider) hout

/-- A channel changes only by what its provider does, or when its task is let run. -/
theorem changes_of_ne (hn : n < s.channels.size) {r : Request R}
    (hne : (s.next r).channel n ≠ s.channel n) :
    (s.provides = some n ∧ ∃ act, r.provision? = some act) ∨
      (r.waits = true ∧ s.runsTask = true ∧ n = s.handle) := by
  by_contra hnot
  obtain ⟨hprovides, htask⟩ := not_or.1 hnot
  refine hne (channel_next_of_kept hn (fun hp => ?_) fun hw ht hh => htask ⟨hw, ht, hh⟩)
  exact Option.eq_none_iff_forall_ne_some.2 fun act hact => hprovides ⟨hp, act, hact⟩

end

/-! ## All that a client is told -/

theorem reply_executeWhenReady (s : Session R) (program : List Statement) :
    s.reply (.executeWhenReady program) =
      ((s.next (.executeWhenReady program)).channel s.handle).answer s.tolerance program := by
  cases ht : s.runsTask with
  | true => rw [reply, next, value_step_executeWhenReady_of_task ht]
  | false =>
    rw [reply, next, value_step_executeWhenReady ht, channel_pollWaiter,
      reply_pollWaiter (s.getElem?_waiters_enrol program)]
    rfl

theorem reply_ready_ne_notReady (s : Session R) : s.reply .ready ≠ .refused .engineNotReady := by
  rw [reply_ready]
  cases hc : ((s.next .ready).channel s.handle).awaited? with
  | none => simp
  | some engine =>
    rw [Option.elim_some, Ne, Reply.ofEngine_eq_refused_iff]
    rintro rfl
    exact Channel.awaited?_ne_engineNotReady _ hc

/-- What a client can rely on. -/
structure Tells (s : Session R) : Prop where
  /-- Without waiting it is told what its channel shows. -/
  status : s.reply .status = .status (s.channel s.handle).status
  current : s.reply .current = .ofEngine (s.channel s.handle).current
  execute : ∀ program, s.reply (.execute program) =
    (executeOn (s.channel s.handle).current s.tolerance program).value
  /-- It finds nothing exactly while its channel shows nothing. -/
  current_notReady : s.reply .current = .refused .engineNotReady ↔
    (s.channel s.handle).status = .pending
  /-- An execution finds nothing then as well, or else the backend itself says so. -/
  execute_notReady : ∀ program, (s.reply (.execute program) = .refused .engineNotReady ↔
    (s.channel s.handle).status = .pending ∨ ∃ b, (s.channel s.handle).status = .ready b ∧
      (b.execute s.tolerance program).result = .error .engineNotReady)
  /-- If it waits it is told what its channel has to say, once that is there. -/
  ready : s.reply .ready =
    ((s.next .ready).channel s.handle).awaited?.elim .pending .ofEngine
  ready_ne_notReady : s.reply .ready ≠ .refused .engineNotReady
  executeWhenReady : ∀ program, s.reply (.executeWhenReady program) =
    ((s.next (.executeWhenReady program)).channel s.handle).answer s.tolerance program
  /-- An execution that waits is executed with the tolerance it was started with, on the channel on
  which it was started, at the first poll after that channel has something to say, and once. -/
  poll : s.runsTask = false → ∀ program later,
    let started := s.next (.executeWhenReady program)
    let answered := s.reply (.executeWhenReady program) ≠ .pending ∨
      started.Answered s.waiters.size later
    (¬answered → (started.after later).reply (.poll s.waiters.size) =
      ((started.after later).channel s.handle).answer s.tolerance program) ∧
    (answered → (started.after later).reply (.poll s.waiters.size) = .finished)
  /-- Who waited and executes finds nothing only where the backend itself says so. -/
  answer_notReady : ∀ n tolerance program,
    ((s.channel n).answer tolerance program = .refused .engineNotReady ↔
      ∃ b, (s.channel n).status = .ready b ∧
        (b.execute tolerance program).result = .error .engineNotReady)
  /-- What a channel has to say is what those are told who wait for it step by step. -/
  told_iff : ∀ n answer, Relation.ReflTransGen (Wait.Step (s.channel n)) .asking (.told answer) ↔
    (s.channel n).awaited? = some answer
  handle : s.handle < s.channels.size
  /-- Each channel is that of a lifecycle. -/
  lives : ∀ n < s.channels.size, (s.channel n).Lives
  /-- What the client does as a provider is what those who wait are told, and not before. -/
  provided : ∀ n, s.provides = some n → (s.channel n).awaited? = none ∧
    ∀ r act, r.provision? = some act →
      ∃ answer, act.outcome? = some answer ∧ ((s.next r).channel n).awaited? = some answer ∧
        (act ≠ .drop → ((s.next r).channel n).current = answer)
  /-- Where waiting lets a task run, it ends with what comes of the task. -/
  task : s.runsTask = true → ∀ r, r.waits = true →
    ((s.next r).channel s.handle).awaited? ≠ none ∧
      ∀ settings, (s.channel s.handle).provider = .scheduled settings →
        ((s.next r).channel s.handle).awaited? =
          (Provision.bootstrap settings : Provision R).outcome?
  /-- Nothing else changes a channel. -/
  changes : ∀ n < s.channels.size, ∀ r, (s.next r).channel n ≠ s.channel n →
    (s.provides = some n ∧ ∃ act, r.provision? = some act) ∨
      (r.waits = true ∧ s.runsTask = true ∧ n = s.handle)
  /-- What a channel has said or shown, it says and shows for ever. -/
  settled : ∀ n < s.channels.size, ∀ later,
    (∀ answer, (s.channel n).awaited? = some answer →
      ((s.after later).channel n).awaited? = some answer) ∧
    ((s.channel n).status ≠ .pending →
      ((s.after later).channel n).status = (s.channel n).status)

theorem tells_of_orderly {s : Session R} (hs : s.Orderly) : s.Tells where
  status := rfl
  current := reply_current s
  execute _ := rfl
  current_notReady := by
    rw [reply_current, Reply.ofEngine_eq_refused_iff]
    exact Channel.current_eq_engineNotReady_iff
  execute_notReady _ := Channel.execute_current_eq_notReady_iff
  ready := reply_ready s
  ready_ne_notReady := reply_ready_ne_notReady s
  executeWhenReady := reply_executeWhenReady s
  poll ht := reply_poll_after ht
  answer_notReady _ _ _ := Channel.answer_eq_notReady_iff
  told_iff _ _ := Wait.told_iff
  handle := hs.handle
  lives := hs.lives
  provided n hp := ⟨(hs.provides n hp).2, fun _ _ hr => awaited?_next_of_provision hs hp hr⟩
  task ht _ hr := awaited?_next_of_task hs ht hr
  changes _ hn _ hne := changes_of_ne hn hne
  settled n hn later :=
    have hturns := (follows_after hs later).turns n hn
    ⟨fun _ hc => hturns.awaited?_eq hc, hturns.status_eq⟩

/-- A client is told what its channels have to say, whatever it asked for before. -/
theorem tells_after (requests : List (Request R)) : (start.after requests).Tells :=
  tells_of_orderly (follows_after orderly_start requests).orderly

end Session

end KetSim
