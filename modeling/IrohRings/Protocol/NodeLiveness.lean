import IrohRings.Protocol.NodeSafety

/-!
# IrohRings.Protocol.NodeLiveness

What a node does in the end. A schedule is fair to a stream if its task gets turns again
and again; nothing is asked of the others. Even so a task may be held up for good: by a
peer that does not take what is written, or by a transfer whose own requests are left
without an answer (`HeldUp`). If it is not, a request that has come in is answered,
whether or not the peer ever finishes the stream, and whatever the other peers, the
operator and the network do (`node_serves`). How a task ends, if it does, is how it has
answered (`task_outcome`).

Two ways of waiting are kept apart here. A task that waits for bytes is waiting for its
own peer to go on with the request, and the gate can say how many bytes it still needs.
A task that is held up waits for something it has no say in; the source sets no time
limit on either.
-/

namespace IrohRings

open Foundation

variable [EndpointKeys] {σ : Type} [Backend σ] {B : Backing}

/-! ### Fair schedules

A schedule is any sequence of occurrences. Fairness alone is that of the executor, which
polls the task again and again (`FairTo`); that the peer takes what it is sent and that
the backing answers is more (`Attended`), and what goes wrong without it is `HeldUp`. -/

/-- The task of the `i`-th stream gets turns again and again. -/
def FairTo (i : Nat) (schedule : Nat → NodeEvent B) : Prop :=
  ∀ n, ∃ m, n ≤ m ∧ ∃ env, schedule m = .turn i env

section Fairness

variable (T : TransferCode B) (s : Tasks σ B) (i : Nat) (schedule : Nat → NodeEvent B)

/-- The task gets turns again and again at which nothing holds it up: the peer has taken
what was written, and what the transfer asks has an answer. -/
def Attended : Prop :=
  ∀ n, ∃ m, n ≤ m ∧ ∃ env, schedule m = .turn i env ∧ ∀ op next desk,
    ((T.node σ).run s (System.upTo schedule m)).jobs[i]? = some ⟨.ask op next, desk⟩ →
      ¬ desk.Held op

/-- The task gets turns again and again, but from the `m`-th step on it stays at one
request, which is held up each time. -/
def HeldUp (m : Nat) : Prop :=
  FairTo i schedule ∧ ∃ op next, ∀ k, m ≤ k → ∃ desk,
    ((T.node σ).run s (System.upTo schedule k)).jobs[i]? = some ⟨.ask op next, desk⟩ ∧
      ∀ env, schedule k = .turn i env → desk.Held op

variable {T s i schedule}

theorem Attended.fairTo (h : Attended T s i schedule) : FairTo i schedule := by
  intro n
  obtain ⟨m, hm, env, hturn, -⟩ := h n
  exact ⟨m, hm, env, hturn⟩

/-- A task that is attended to is not held up for good. -/
theorem Attended.not_heldUp (h : Attended T s i schedule) (m : Nat) :
    ¬ HeldUp T s i schedule m := by
  intro hheld
  rcases hheld with ⟨-, op, next, hstuck⟩
  obtain ⟨k, hk, env, hturn, hfree⟩ := h m
  obtain ⟨desk, hjob, hheld⟩ := hstuck k hk
  exact hfree op next desk hjob (hheld env hturn)

/-- Nothing on the stream will be waited for but bytes. -/
def Desk.Free (desk : Desk) : Prop := desk.window = none ∧ desk.stalled = false

theorem Desk.Free.not_held {desk : Desk} (h : desk.Free) (op : TaskOp B) : ¬ desk.Held op := by
  intro hheld
  obtain ⟨hwindow, hstalled⟩ := h
  rcases hheld with hfull | ⟨hstuck, -⟩
  · refine hfull fun n hn => ?_
    rw [hwindow] at hn
    cases hn
  · rw [hstalled] at hstuck
    cases hstuck

/-- A stream stays free unless its transfer is left without an answer. -/
theorem step_free {e : NodeEvent B} (he : e ≠ .outside (.stall i true))
    {job : Job (Asks B) GateFault Unit Desk} (hjob : s.jobs[i]? = some job)
    (hfree : job.locals.Free) :
    ∃ job', ((T.node σ).step s e).jobs[i]? = some job' ∧ job'.locals.Free := by
  obtain ⟨job', hjob', hstep⟩ := (T.node σ).step_job hjob e
  refine ⟨job', hjob', ?_⟩
  cases hstep with
  | idle hcode hdrift hturn hwaits =>
      cases e with
      | turn j env => rwa [hwaits j env rfl]
      | outside x =>
          obtain hsame | ⟨f, htouches, hthere⟩ := Tasks.outside_job T x hjob
          · rwa [Option.some.inj (hjob'.symm.trans hsame)]
          · rw [Option.some.inj (hjob'.symm.trans hthere)]
            obtain ⟨hwindow, hstalled⟩ := hfree
            cases htouches with
            | deliver data =>
                simp only [Desk.deliver]
                split <;> exact ⟨hwindow, hstalled⟩
            | reset kept =>
                simp only [Desk.reset]
                split <;> exact ⟨hwindow, hstalled⟩
            | finish => exact ⟨hwindow, hstalled⟩
            | widen room =>
                refine ⟨?_, hstalled⟩
                simp only [Desk.widen, hwindow]
                cases room <;> rfl
            | stall stalled =>
                cases stalled with
                | true => exact absurd rfl he
                | false => exact ⟨hwindow, rfl⟩
  | turn heq hcode hexec hturn hafter hshared =>
      obtain ⟨-, -, -, -, hwindow, hstalled, -⟩ := Host.exec_keeps hexec
      rw [hafter]
      exact ⟨hwindow.trans hfree.1, hstalled.trans hfree.2⟩

/-- So the task of a free stream is attended to if it gets turns again and again. -/
theorem attended_of_free (hfair : FairTo i schedule)
    (hsteady : ∀ m, schedule m ≠ .outside (.stall i true)) {n : Nat}
    {job : Job (Asks B) GateFault Unit Desk}
    (hjob : ((T.node σ).run s (System.upTo schedule n)).jobs[i]? = some job)
    (hfree : job.locals.Free) : Attended T s i schedule := by
  have hlater : ∀ d, ∃ job', ((T.node σ).run s (System.upTo schedule (n + d))).jobs[i]? =
      some job' ∧ job'.locals.Free := by
    intro d
    induction d with
    | zero => exact ⟨job, hjob, hfree⟩
    | succ d ih =>
        obtain ⟨job', hjob', hfree'⟩ := ih
        rw [← Nat.add_assoc, System.upTo_succ, System.run_append, System.run_singleton]
        exact step_free (hsteady (n + d)) hjob' hfree'
  intro k
  obtain ⟨m, hm, env, hturn⟩ := hfair (n + k)
  obtain ⟨d, rfl⟩ := Nat.exists_eq_add_of_le (show n ≤ m by omega)
  refine ⟨n + d, by omega, env, hturn, fun op next desk hthere => ?_⟩
  obtain ⟨job', hjob', hfree'⟩ := hlater d
  obtain rfl := Option.some.inj (hjob'.symm.trans hthere)
  exact hfree'.not_held op

/-- Waiting is being held up, or waiting for bytes. -/
theorem exec_eq_none {env : Env} {op : TaskOp B} {host : Host σ B} {desk : Desk}
    (h : host.exec env op desk = none) :
    desk.Held op ∨
      ∃ k, ¬ desk.Ready k ∧ (op = .readExact k ∨ ∃ limit, op = .readToEnd limit) := by
  by_cases hheld : desk.Held op
  · exact .inl hheld
  rw [Host.exec, if_neg hheld] at h
  refine .inr ?_
  cases op with
  | readExact k =>
      simp only [Host.answer] at h
      split at h
      · cases h
      · rename_i hready
        exact ⟨k, hready, .inl rfl⟩
  | readToEnd limit =>
      simp only [Host.answer] at h
      split at h
      · cases h
      · rename_i hready
        exact ⟨_, hready, .inr ⟨limit, rfl⟩⟩
  | writeAll | finish | invoke | hasPermission | removeRingFromResource | own => cases h

/-- **In the end**: a task that gets turns again and again comes to its end, or is held up
for good, or waits at some moment for bytes that it then does not have. -/
theorem ends_heldUp_or_short (hfair : FairTo i schedule) {n : Nat}
    {job : Job (Asks B) GateFault Unit Desk}
    (hjob : ((T.node σ).run s (System.upTo schedule n)).jobs[i]? = some job) :
    (∃ m job', n ≤ m ∧ ((T.node σ).run s (System.upTo schedule m)).jobs[i]? = some job' ∧
      job'.code.result.isSome) ∨
    (∃ m, n ≤ m ∧ HeldUp T s i schedule m) ∨
    ∃ m op next desk k, n ≤ m ∧
      ((T.node σ).run s (System.upTo schedule m)).jobs[i]? = some ⟨.ask op next, desk⟩ ∧
      ¬ desk.Ready k ∧ (op = .readExact k ∨ ∃ limit, op = .readToEnd limit) := by
  obtain hend | ⟨m, op, next, hm, hwaits⟩ := System.ends_or_waits hjob
  · exact .inl hend
  -- it waits for good at one request; either each of its turns there is held up
  by_cases hheld : ∀ d env desk, schedule (m + d) = .turn i env →
      ((T.node σ).run s (System.upTo schedule (m + d))).jobs[i]? = some ⟨.ask op next, desk⟩ →
        desk.Held op
  · refine .inr (.inl ⟨m, hm, hfair, op, next, fun k hk => ?_⟩)
    obtain ⟨d, rfl⟩ := Nat.exists_eq_add_of_le hk
    obtain ⟨desk, hthere, -⟩ := hwaits d
    exact ⟨desk, hthere, fun env hturn => hheld d env desk hturn hthere⟩
  · -- or one is not, and then what it lacked at that turn was bytes
    push Not at hheld
    obtain ⟨d, env, desk, hturn, hthere, hfree⟩ := hheld
    obtain ⟨desk', hthere', hnone⟩ := hwaits d
    obtain rfl : desk = desk' := by
      rw [hthere] at hthere'
      exact congrArg Job.locals (Option.some.inj hthere')
    rw [hturn] at hnone
    obtain ⟨k, hready, hop⟩ := (exec_eq_none (System.exec_eq_none hthere hnone)).resolve_left hfree
    exact .inr (.inr ⟨m + d, op, next, desk, k, by omega, hthere, hready, hop⟩)

/-- Once a stream has ended, nothing else keeps its task. -/
theorem ends_or_heldUp (hfair : FairTo i schedule) {n : Nat}
    {job : Job (Asks B) GateFault Unit Desk}
    (hjob : ((T.node σ).run s (System.upTo schedule n)).jobs[i]? = some job)
    (hended : job.locals.ended = true) :
    (∃ m job', n ≤ m ∧ ((T.node σ).run s (System.upTo schedule m)).jobs[i]? = some job' ∧
      job'.code.result.isSome) ∨ ∃ m, n ≤ m ∧ HeldUp T s i schedule m := by
  obtain hend | hheld | ⟨m, op, next, desk, k, hm, hjob', hready, -⟩ :=
    ends_heldUp_or_short hfair hjob
  · exact .inl hend
  · exact .inr hheld
  · obtain ⟨more, hmore⟩ := System.upTo_prefix schedule hm
    exact absurd (.inl ((desk_later hjob (hmore ▸ hjob')).ended hended).1) hready

end Fairness

/-! ### Being answered

What is written is not yet sent: the peer has it only when it has made room for it. The
status byte is the first byte, so it is on its way as soon as there is room for one; and
a task that went on after writing has waited for that. -/

/-- The peer has been sent a status byte. The transfer is not called before `Allowed` has
been sent, since its call is a request like any other. -/
def Desk.Answered (desk : Desk) : Prop :=
  desk.sent = [Status.denied.toByte] ∨ desk.sent = [Status.allowed.toByte] ∨
    desk.exchange.transfers ≠ []

section Answers

variable {T : TransferCode B} {registry : History × σ} {world : B.World}
  {es : List (NodeEvent B)} {i : Nat} {job : Job (Asks B) GateFault Unit Desk}

/-- Whoever has called the transfer has answered. -/
theorem Shows.transfers_of_invoked {peer : EndpointId} {tr : List (Turn (Asks B))} {desk : Desk}
    (h : Shows T peer tr desk) (hinvoked : Invoked tr) : desk.exchange.transfers ≠ [] := by
  cases h with
  | silent hw ht hi | denied hw ht hi | allowed hw ht hi => exact absurd hinvoked hi
  | served ht => simp [ht]

/-- So has whoever has written. -/
theorem Shows.written {peer : EndpointId} {tr : List (Turn (Asks B))} {desk : Desk}
    (h : Shows T peer tr desk) (hdata : dataWritten tr ≠ []) :
    desk.exchange.send.written = [Status.denied.toByte] ∨
      desk.exchange.send.written = [Status.allowed.toByte] ∨ desk.exchange.transfers ≠ [] := by
  cases h with
  | silent hw ht hi hd => exact absurd hd hdata
  | denied hw => exact .inl hw
  | allowed hw => exact .inr (.inl hw)
  | served ht => exact .inr (.inr (by simp [ht]))

/-- With room for one byte, a single byte that was written has been sent. -/
theorem Desk.sent_singleton {desk : Desk} {b : UInt8} (hroom : desk.window ≠ some 0)
    (h : desk.exchange.send.written = [b]) : desk.sent = [b] := by
  rw [sent_of_flushed, h]
  intro n hn
  rw [h, List.length_singleton]
  refine Nat.one_le_iff_ne_zero.mpr fun hzero => hroom ?_
  rw [Option.mem_def.mp hn, hzero]

/-- A status byte that the peer has room for is sent. -/
theorem Shows.answered {peer : EndpointId} {tr : List (Turn (Asks B))} {desk : Desk}
    (h : Shows T peer tr desk) (hdata : dataWritten tr ≠ []) (hroom : desk.window ≠ some 0) :
    desk.Answered :=
  (h.written hdata).imp (Desk.sent_singleton hroom)
    (Or.imp_left (Desk.sent_singleton hroom))

/-- What was written before the last turn has been sent. -/
theorem answered_of_turn {t : Turn (Asks B)} {old : List (Turn (Asks B))}
    (hjob : ((T.node σ).run (Tasks.start registry world) es).jobs[i]? = some job)
    (hturns : (T.node σ).turns i (Tasks.start registry world) es = t :: old)
    (hdata : dataWritten old ≠ []) (hmore : dataWritten (t :: old) ≠ []) :
    job.locals.Answered := by
  obtain ⟨before, env, after, hmoment, rfl⟩ := System.exists_last_moment es hturns
  obtain ⟨asked, host, desk, hasked, hexec⟩ := hmoment.exec
  have hflushed : asked.locals.Flushed := by
    by_contra hnot
    exact Host.not_held_of_exec hexec (.inl hnot)
  have hlater := desk_later hasked (hmoment.split ▸ hjob)
  obtain ⟨-, -, -, hasksShows⟩ := task_life hasked
  obtain ⟨-, -, -, hshows⟩ := task_life hjob
  have hroom : ∀ b : UInt8, asked.locals.exchange.send.written = [b] →
      job.locals.window ≠ some 0 := by
    intro b hwritten
    refine hlater.room fun hzero => ?_
    have hle := hflushed 0 hzero
    rw [hwritten] at hle
    exact absurd hle (by simp)
  rw [hturns] at hshows
  obtain hwritten | hwritten | hcalled := hasksShows.written hdata
  · exact hshows.answered hmore (hroom _ hwritten)
  · exact hshows.answered hmore (hroom _ hwritten)
  · refine .inr (.inr fun hnone => hcalled ?_)
    exact List.prefix_nil.mp (hnone ▸ hlater.transfers)

/-- A reading task that has the whole frame is not cut short by its reads. -/
theorem not_readBroken {peer : EndpointId} {capacity : Option Nat}
    {tr : List (Turn (Asks B))} {desk : Desk} (htells : desk.Tells peer capacity tr)
    (hwhole : desk.exchange.recv.reset = false) {id rest : Bytes} {op : UInt8}
    (hframe : Frame desk.arrived id op rest) : ¬ ReadBroken tr := by
  intro hbroken
  cases hbroken with
  | short hneeds =>
      obtain ⟨-, more, hlt, harrived⟩ := htells.short [] _ _ _ rfl hneeds.unbroken hwhole
      exact absurd (hneeds.missing more id op rest (harrived ▸ hframe)) (Nat.not_le.mpr hlt)
  | overLong hunbroken hnone =>
      exact hnone _ id op rest (htells.whole hunbroken hwhole ▸ hframe)

/-- A stream is not reset unless it is reset. -/
theorem recv_reset_of_run (hstays : ∀ e ∈ es, ∀ kept, e ≠ .outside (.reset i kept))
    (hjob : ((T.node σ).run (Tasks.start registry world) es).jobs[i]? = some job) :
    job.locals.exchange.recv.reset = false := by
  refine invariant_along (fun s : Tasks σ B => ∀ job, s.jobs[i]? = some job →
    job.locals.exchange.recv.reset = false) ?_ (by nofun) (along_of_forall hstays _) job hjob
  intro s e hinv he job' hafter
  cases hbefore : s.jobs[i]? with
  | none =>
      obtain ⟨⟨peer, capacity, hfresh⟩, -⟩ := System.step_spawn hbefore hafter
      rw [hfresh]
      rfl
  | some job =>
      refine Eq.trans ?_ (hinv job hbefore)
      obtain ⟨job'', hjob'', hstep⟩ := (T.node σ).step_job hbefore e
      obtain rfl := Option.some.inj (hjob''.symm.trans hafter)
      cases hstep with
      | idle hcode hdrift hturn hwaits =>
          cases e with
          | turn j env => rw [hwaits j env rfl]
          | outside x =>
              exact Tasks.outside_reset T hbefore hafter fun kept heq => he kept (heq ▸ rfl)
      | turn heq hcode hexec hturn hjob hshared =>
          rw [hjob]
          exact (Host.exec_keeps hexec).2.2.2.1

/-- A task that has ended, on a stream with a whole frame, has answered, or was cut short
before it could. -/
theorem answered_or_broken
    (hjob : ((T.node σ).run (Tasks.start registry world) es).jobs[i]? = some job)
    (hwhole : job.locals.exchange.recv.reset = false) {id rest : Bytes} {op : UInt8}
    (hframe : Frame job.locals.arrived id op rest) (hend : job.code.result.isSome) :
    job.locals.Answered ∨ ∃ e, job.code = .fail e ∧ Broken T job.locals.peer
      ((T.node σ).turns i (Tasks.start registry world) es) e := by
  obtain ⟨out, hout⟩ := Option.isSome_iff_exists.mp hend
  obtain ⟨capacity, hreach, htells, hshows⟩ := task_life hjob
  have hends := Program.wp_result (TransferCode.handleRequest_wp T job.locals.peer) hreach hout
  generalize hturns : (T.node σ).turns i (Tasks.start registry world) es = tr
    at hends htells hshows ⊢
  cases hends with
  | unread hquiet hbroken => exact absurd hbroken (not_readBroken htells hwhole hframe)
  | broken hbroken => exact .inr ⟨_, Program.result_eq_error.mp hout, hbroken⟩
  | denied hrefused out =>
      exact .inl (answered_of_turn hjob hturns (by simp [dataWritten]) (by simp [dataWritten]))
  | @served _ _ called q hgranted hreach out =>
      refine .inl (.inr (.inr (hshows.transfers_of_invoked
        ⟨⟨.invoke called, ()⟩, ?_, called, rfl⟩)))
      exact List.mem_cons_of_mem _ (List.mem_append_right _ List.mem_cons_self)
  | @failed _ _ called q e hgranted hreach =>
      refine .inl (.inr (.inr (hshows.transfers_of_invoked
        ⟨⟨.invoke called, ()⟩, ?_, called, rfl⟩)))
      exact List.mem_append_right _ List.mem_cons_self

/-- A task that waits for bytes, on a stream with a whole frame, has called the transfer:
the gate itself needs no more than the frame has. -/
theorem transfers_of_short {asks : TaskOp B} {next : asks.Res → TaskM B Unit} {desk : Desk}
    (hjob : ((T.node σ).run (Tasks.start registry world) es).jobs[i]? =
      some ⟨.ask asks next, desk⟩)
    (hwhole : desk.exchange.recv.reset = false) {id rest : Bytes} {op : UInt8}
    (hframe : Frame desk.arrived id op rest) {k : Nat} (hready : ¬ desk.Ready k)
    (hasks : asks = .readExact k ∨ ∃ limit, asks = .readToEnd limit) :
    desk.exchange.transfers ≠ [] := by
  obtain ⟨capacity, hreach, htells, hshows⟩ := task_life hjob
  obtain ⟨hwp, -⟩ := Program.wp_reaches (TransferCode.handleRequest_wp T desk.peer) hreach
  rw [List.append_nil] at hwp
  obtain rfl | ⟨limit, rfl⟩ := hasks
  · obtain hserves | hneeds := (hwp (.error .reset)).1
    · exact hshows.transfers_of_invoked hserves.invoked
    · have hleft := htells.whole hneeds.unbroken hwhole
      have hle := hneeds.missing _ id op rest (hleft ▸ hframe)
      exact absurd (.inr hle) hready
  · exact hshows.transfers_of_invoked (hwp (.error (.read .reset))).1.invoked

variable {schedule : Nat → NodeEvent B} {n : Nat}

/-- **Everyone is answered**: in every schedule that is fair to its task, a stream that a
whole frame has come in on, and that is not reset, is answered. Otherwise its task ends
because the status byte was not taken, the registry panicked or asking the transfer for
access failed; or it is held up for good before that, by a peer that has no room for the
status byte or by a request of the transfer that is left without an answer. -/
theorem node_serves (hfair : FairTo i schedule)
    (hjob : ((T.node σ).run (Tasks.start registry world)
      (System.upTo schedule n)).jobs[i]? = some job)
    {id rest : Bytes} {op : UInt8} (hframe : Frame job.locals.arrived id op rest)
    (hstays : ∀ m kept, schedule m ≠ .outside (.reset i kept)) :
    ∃ m job', n ≤ m ∧ ((T.node σ).run (Tasks.start registry world)
        (System.upTo schedule m)).jobs[i]? = some job' ∧
      (job'.locals.Answered ∨
        (∃ e, job'.code = .fail e ∧ Broken T job'.locals.peer
          ((T.node σ).turns i (Tasks.start registry world) (System.upTo schedule m)) e) ∨
        HeldUp T (Tasks.start registry world) i schedule m ∧ ∀ k job', m ≤ k →
          ((T.node σ).run (Tasks.start registry world) (System.upTo schedule k)).jobs[i]? =
            some job' → ¬ job'.locals.Answered) := by
  by_cases hnever : ∃ m job', n ≤ m ∧ ((T.node σ).run (Tasks.start registry world)
      (System.upTo schedule m)).jobs[i]? = some job' ∧ job'.locals.Answered
  · obtain ⟨m, job', hm, hjob', hanswered⟩ := hnever
    exact ⟨m, job', hm, hjob', .inl hanswered⟩
  have hwhole : ∀ {m job'}, ((T.node σ).run (Tasks.start registry world)
      (System.upTo schedule m)).jobs[i]? = some job' →
      job'.locals.exchange.recv.reset = false := by
    intro m job' hjob'
    refine recv_reset_of_run (fun e he kept heq => ?_) hjob'
    obtain ⟨k, -, rfl⟩ := List.mem_map.mp he
    exact hstays k kept heq
  -- the frame is still there at any later moment
  have hlater : ∀ {m job'}, n ≤ m → ((T.node σ).run (Tasks.start registry world)
      (System.upTo schedule m)).jobs[i]? = some job' →
      ∃ rest, Frame job'.locals.arrived id op rest := by
    intro m job' hm hjob'
    obtain ⟨more, hmore⟩ := System.upTo_prefix schedule hm
    rw [← hmore] at hjob'
    obtain ⟨data, harrived⟩ := (desk_later hjob hjob').arrived
    exact ⟨_, harrived ▸ hframe.append data⟩
  obtain ⟨m, job', hm, hjob', hend⟩ | ⟨m, hm, hheld⟩ |
      ⟨m, asks, next, desk, k, hm, hjob', hready, hasks⟩ := ends_heldUp_or_short hfair hjob
  · obtain ⟨rest', hframe'⟩ := hlater hm hjob'
    exact ⟨m, job', hm, hjob',
      (answered_or_broken hjob' (hwhole hjob') hframe' hend).imp_right .inl⟩
  · obtain ⟨desk, hjob', -⟩ := hheld.2.choose_spec.choose_spec m le_rfl
    refine ⟨m, _, hm, hjob', .inr (.inr ⟨hheld, fun k job' hk hthere hanswered => ?_⟩)⟩
    exact hnever ⟨k, job', hm.trans hk, hthere, hanswered⟩
  · obtain ⟨rest', hframe'⟩ := hlater hm hjob'
    exact ⟨m, _, hm, hjob',
      .inl (.inr (.inr (transfers_of_short hjob' (hwhole hjob') hframe' hready hasks)))⟩

end Answers

theorem fairTo_sampleSchedule (peer : EndpointId) (data : Bytes) :
    FairTo 0 (sampleSchedule (B := B) peer data) :=
  fun n => ⟨n + 5, Nat.le_add_right n 5, Env.atEpoch, rfl⟩

theorem attended_sampleSchedule (T : TransferCode B) (registry : History × σ) (world : B.World)
    (peer : EndpointId) (data : Bytes) :
    Attended T (Tasks.start registry world) 0 (sampleSchedule peer data) := by
  refine attended_of_free (n := 5) (fairTo_sampleSchedule peer data) (fun m heq => ?_)
    (sampleSchedule_five T registry world peer data) ⟨rfl, rfl⟩
  match m with
  | 0 | 1 | 2 | 3 | 4 => cases heq
  | m + 5 => cases heq

omit [EndpointKeys] in
theorem node_serves_sample :
    letI := EndpointKeys.basePoint
    let start := Tasks.start
      (Backend.run Inner (sampleEvents [0x61] "readers" [.read] EndpointId.basePoint)) ()
    let schedule : Nat → NodeEvent .nothing :=
      sampleSchedule EndpointId.basePoint [0x01, 0x00, 0x61, 0x01]
    ∃ m job', 5 ≤ m ∧
      ((staticTransfer.node Inner).run start (System.upTo schedule m)).jobs[0]? = some job' ∧
      (job'.locals.Answered ∨ ∃ e, job'.code = .fail e ∧ Broken staticTransfer job'.locals.peer
        ((staticTransfer.node Inner).turns 0 start (System.upTo schedule m)) e) := by
  intro start schedule
  let inst := EndpointKeys.basePoint
  obtain ⟨m, job', hm, hjob', hend⟩ := node_serves (n := 5) (fairTo_sampleSchedule _ _)
    (sampleSchedule_five staticTransfer
      (Backend.run Inner (sampleEvents [0x61] "readers" [.read] EndpointId.basePoint)) ()
      EndpointId.basePoint [0x01, 0x00, 0x61, 0x01])
    (show Frame [0x01, 0x00, 0x61, 0x01] [0x61] 0x01 [] from ⟨by decide, rfl⟩)
    fun m kept h => by
      match m with
      | 0 | 1 | 2 | 3 | 4 => cases h
      | m + 5 => cases h
  refine ⟨m, job', hm, hjob', hend.imp_right fun hbroken => hbroken.resolve_right fun hheld => ?_⟩
  exact (attended_sampleSchedule staticTransfer _ () _ _).not_heldUp m hheld.1

/-! ### How a task ends

A task that comes to `Ok` has finished its stream, as its last turn, and it did not come
to that before its writes had returned. So here, unlike above, nothing is assumed of the
peer: if the task has ended well, the peer had room for the whole answer. -/

section Outcome

variable {T : TransferCode B} {registry : History × σ} {world : B.World}
  {es : List (NodeEvent B)} {i : Nat} {job : Job (Asks B) GateFault Unit Desk}

/-- Nothing was done that may finish the stream. -/
def Unfinished (tr : List (Turn (Asks B))) : Prop :=
  ∀ t ∈ tr, t.op.IsRead ∨ t.op.OffStream ∨ ∃ data, t.op = .writeAll data

theorem Quiet.unfinished {tr : List (Turn (Asks B))} (h : Quiet tr) : Unfinished tr :=
  fun t ht => (h t ht).imp_right .inl

/-- A stream is finished once it was finished, and not before the peer has taken what was
written on it. -/
structure Finishing (tr : List (Turn (Asks B))) (desk : Desk) : Prop where
  done : ∀ old, tr = ⟨.finish, .ok ()⟩ :: old →
    desk.exchange.send.finished = true ∧ desk.Flushed
  unfinished : Unfinished tr → desk.exchange.send.finished = false

theorem finishing_opened (peer : EndpointId) (capacity : Option Nat) :
    Finishing (B := B) [] (.opened peer capacity) where
  done old h := by cases h
  unfinished _ := rfl

theorem Finishing.drift {tr : List (Turn (Asks B))} {desk desk' : Desk} (h : Finishing tr desk)
    (hdrift : desk.Drift desk') : Finishing tr desk' where
  done old htr := by
    obtain ⟨hdone, hflushed⟩ := h.done old htr
    exact ⟨hdrift.send ▸ hdone, hdrift.flushed hflushed⟩
  unfinished htr := by
    rw [hdrift.send]
    exact h.unfinished htr

/-- Of the turns that are not off the stream, only a finish, and the requests of the
transfer, can finish it. -/
theorem Finishing.exec {tr : List (Turn (Asks B))} {desk desk' : Desk} (h : Finishing tr desk)
    {env : Env} {op : TaskOp B} {r : op.Res} {host host' : Host σ B}
    (hexec : host.exec env op desk = some (r, host', desk')) : Finishing (⟨op, r⟩ :: tr) desk' := by
  have hfree := Host.not_held_of_exec hexec
  replace hexec := Host.answer_of_exec hexec
  have hearlier : Unfinished (⟨op, r⟩ :: tr) → desk.exchange.send.finished = false :=
    fun h' => h.unfinished (List.forall_mem_cons.mp h').2
  have hmay : Unfinished (⟨op, r⟩ :: tr) →
      op.IsRead ∨ op.OffStream ∨ ∃ data, op = .writeAll data :=
    fun h => (List.forall_mem_cons.mp h).1
  cases op with
  | readExact | readToEnd =>
      simp only [Host.answer] at hexec
      split at hexec
      · obtain ⟨-, -, rfl⟩ := hexec
        exact ⟨fun old htr => (by cases htr), hearlier⟩
      · cases hexec
  | writeAll data =>
      obtain ⟨-, -, rfl⟩ := Host.answer_writeAll_eq.mp hexec
      refine ⟨fun old htr => (by cases htr), fun htr => ?_⟩
      refine Eq.trans ?_ (hearlier htr)
      simp only [Desk.setSend, SendStream.writeAll]
      split
      · rfl
      · split <;> rfl
  | finish =>
      obtain ⟨hout, -, rfl⟩ := Host.answer_finish_eq.mp hexec
      refine ⟨fun old htr => ⟨?_, fun n hn => ?_⟩, fun htr => ?_⟩
      · simp only [Desk.setSend, SendStream.finish]
        split
        · assumption
        · rfl
      · refine (congrArg List.length ?_).trans_le (not_not.mp (not_or.mp hfree).1 n hn)
        simp only [Desk.setSend, SendStream.finish]
        split <;> rfl
      · obtain hread | hoff | ⟨data, hwrite⟩ := hmay htr
        · exact hread.elim
        · exact hoff.elim
        · cases hwrite
  | own op =>
      obtain ⟨-, -, rfl⟩ := Host.answer_own_eq.mp hexec
      refine ⟨fun old htr => (by cases htr), fun htr => ?_⟩
      obtain hread | hoff | ⟨data, hwrite⟩ := hmay htr
      · exact hread.elim
      · exact (congrArg SendStream.finished (B.offStream_keeps op _ _ hoff)).trans (hearlier htr)
      · cases hwrite
  | invoke | hasPermission | removeRingFromResource =>
      obtain ⟨-, -, rfl⟩ := hexec
      exact ⟨fun old htr => (by cases htr), hearlier⟩

/-- Once a task has ended well, the peer has taken all that was written. -/
theorem sent_of_ok {s : Tasks σ B} {peer : EndpointId} {capacity : Option Nat}
    (hstart : s.jobs[i]? = some ⟨T.handleRequest peer, .opened peer capacity⟩)
    (hjob : ((T.node σ).run s es).jobs[i]? = some job)
    (hok : job.code.result = some (.ok ())) :
    job.locals.sent = job.locals.exchange.send.written := by
  obtain ⟨job', hjob', hreach, hinv⟩ := (T.node σ).exists_later Finishing
    (fun tr desk desk' hinv hdrift => hinv.drift hdrift)
    (fun tr env op host host' desk desk' r hinv hexec => hinv.exec hexec)
    hstart (finishing_opened peer capacity) es
  obtain rfl := Option.some.inj (hjob.symm.trans hjob')
  have hends := Program.wp_result (TransferCode.handleRequest_wp T peer) hreach hok
  refine Desk.sent_of_flushed ?_
  generalize (T.node σ).turns i s es = tr at hends hinv
  generalize hout : (Except.ok () : Except GateFault Unit) = res at hends
  cases hends with
  | unread | broken | failed => cases hout
  | denied hrefused out | served hgranted hreach out =>
      cases out with
      | error e => cases hout
      | ok u => exact (hinv.done _ rfl).2

end Outcome

end IrohRings
