import IrohRings.Backends.Histories
import IrohRings.Examples.Read
import IrohRings.Protocol.NodeStreams

/-!
# IrohRings.Protocol.NodeSafety

**What the gate answers, in every run of a node.** Whatever the peers send and in
whatever order the tasks, the operator and the network take their steps, a stream shows
a status byte only for a ruling: a moment of that run, with the request already there,
at which the registry was asked about exactly what was requested, and after which the
transfer was asked for access if need be (`node_answers`). The state of the registry at
that moment is the one its history leads to, so with either backend and a transfer that
leaves it at the registry, the ruling is what the history says (`node_follows_history`).
-/

namespace IrohRings

open Foundation

variable [EndpointKeys] {σ : Type} [Backend σ] {B : Backing}

/-! ### Rulings

A ruling is told by the run, not by the task: it names the moment at which the registry
was asked, what was there of the request by then, and what the transfer was asked for
after it. Between that moment and the status byte anything may happen, and a revocation
that comes in between comes too late. -/

/-- Whether a host grants a peer a permission on a resource, at a moment. -/
abbrev Grants (σ : Type) (B : Backing) : Type _ :=
  Host σ B → Env → EndpointId → Bytes → Permission → Prop

/-- What the registry of the host answers. -/
def registryGrants : Grants σ B := fun host env peer id q =>
  Registry.hasPermission env host.registry.2 peer id q = .ok true

/-- What the calls that were made to the registry say. -/
def historyGrants : Grants σ B := fun host env peer id q =>
  Allowed host.registry.1 peer id q env.now

section Rulings

variable (T : TransferCode B) (grants : Grants σ B) (s : Tasks σ B) (i : Nat)

/-- **A ruling** on a request of the `i`-th stream, at the moment between `before` and
`after`: the request was there, the registry was asked about it, and either it is granted
at that moment, or it is not, and then the transfer was asked for access. -/
structure Ruling (peer : EndpointId) (id : Bytes) (q : Permission) (granted : Bool)
    (before : List (NodeEvent B)) (env : Env) (after : List (NodeEvent B)) : Prop where
  request : ∃ job rest, ((T.node σ).run s before).jobs[i]? = some job ∧
    Requests job.locals.arrived id q rest
  asked : ∃ out, (T.node σ).Moment i s (before ++ .turn i env :: after)
    ⟨.hasPermission peer id q, out⟩ before env after
  verdict : grants ((T.node σ).run s before).shared env peer id q ∧ granted = true ∨
    ¬ grants ((T.node σ).run s before).shared env peer id q ∧
      ∃ out acc later, (T.canAccess peer id).Reaches acc (.ret granted) ∧
        (T.node σ).turns i s (before ++ .turn i env :: after) =
          later ++ (acc ++ ⟨.hasPermission peer id q, out⟩ :: (T.node σ).turns i s before)

/-- A ruling was given in the course of the run. -/
def Ruled (es : List (NodeEvent B)) (peer : EndpointId) (id : Bytes) (q : Permission)
    (granted : Bool) : Prop :=
  ∃ before env after, es = before ++ .turn i env :: after ∧
    Ruling T grants s i peer id q granted before env after

end Rulings

/-- What a stream may show, with the rulings that were given on it. -/
inductive Answers (ruled : EndpointId → Bytes → Permission → Bool → Prop) (desk : Desk) : Prop
  | silent (hwritten : desk.exchange.send.written = []) (htransfers : desk.exchange.transfers = [])
  | denied (hwritten : desk.exchange.send.written = [Status.denied.toByte])
    (htransfers : desk.exchange.transfers = [])
    (hruled : (∃ id op rest e, Frame desk.arrived id op rest ∧ parseOperation op = .error e) ∨
      ∃ id q, ruled desk.peer id q false)
  | allowed {id : Bytes} {q : Permission}
    (hwritten : desk.exchange.send.written = [Status.allowed.toByte])
    (htransfers : desk.exchange.transfers = []) (hruled : ruled desk.peer id q true)
  /-- The transfer was called, for what was requested, and with what follows. -/
  | served {id arrived : Bytes} {q : Permission} {streams : Streams}
    (htransfers : desk.exchange.transfers = [(id, streams)])
    (hwritten : streams.send.written = [Status.allowed.toByte])
    (hrequest : Requests arrived id q streams.recv.bytes) (harrived : arrived <+: desk.arrived)
    (hruled : ruled desk.peer id q true)

/-- Answers with fewer rulings are answers with more. -/
theorem Answers.mono {ruled ruled' : EndpointId → Bytes → Permission → Bool → Prop} {desk : Desk}
    (h : Answers ruled desk)
    (himp : ∀ id q granted, ruled desk.peer id q granted → ruled' desk.peer id q granted) :
    Answers ruled' desk := by
  cases h with
  | silent hw ht => exact .silent hw ht
  | denied hw ht hr =>
      refine .denied hw ht (hr.imp_right fun hruled => ?_)
      obtain ⟨id, q, hruled⟩ := hruled
      exact ⟨id, q, himp id q false hruled⟩
  | allowed hw ht hr => exact .allowed hw ht (himp _ _ _ hr)
  | served ht hw hreq ha hr => exact .served ht hw hreq ha (himp _ _ _ hr)

/-! ### The life of a task

Whatever the other tasks do, what one task did is a trace of its own code, and its stream
has drifted and been used as that trace says. Everything about the answers follows from
this one fact, together with what is known of the traces of the code. -/

section Life

variable {T : TransferCode B} {registry : History × σ} {world : B.World}
  {es : List (NodeEvent B)} {i : Nat} {job : Job (Asks B) GateFault Unit Desk}

/-- **The life of a task**, at any moment of a run: its turns are a trace of
`handleRequest`, and its stream is as they made it. -/
theorem task_life (hjob : ((T.node σ).run (Tasks.start registry world) es).jobs[i]? = some job) :
    ∃ capacity, (T.handleRequest job.locals.peer).Reaches
        ((T.node σ).turns i (Tasks.start registry world) es) job.code ∧
      job.locals.Tells job.locals.peer capacity
        ((T.node σ).turns i (Tasks.start registry world) es) ∧
      Shows T job.locals.peer ((T.node σ).turns i (Tasks.start registry world) es) job.locals := by
  obtain ⟨desk₀, -, hreach, peer, capacity, rfl, htells, hshows⟩ := (T.node σ).exists_life
    (s := Tasks.start registry world) rfl
    (fun desk₀ tr desk => ∃ peer capacity, desk₀ = .opened peer capacity ∧
      desk.Tells peer capacity tr ∧
        (Program.Guarded (Justified T peer) tr → Shows T peer tr desk))
    (fun desk hfresh => by
      obtain ⟨peer, capacity, rfl⟩ := hfresh
      exact ⟨peer, capacity, rfl, Desk.tells_opened, fun _ => .opened⟩)
    (fun desk₀ tr desk desk' hinv hdrift => by
      obtain ⟨peer, capacity, rfl, htells, hshows⟩ := hinv
      obtain ⟨data, harrived, -⟩ := hdrift.arrived
      exact ⟨peer, capacity, rfl, htells.drift hdrift, fun hguarded =>
        (hshows hguarded).of_arrived hdrift.send hdrift.transfers ⟨data, harrived.symm⟩⟩)
    (fun desk₀ tr env op host host' desk desk' r hinv hexec => by
      obtain ⟨peer, capacity, rfl, htells, hshows⟩ := hinv
      exact ⟨peer, capacity, rfl, htells.exec hexec, fun hguarded =>
        (hshows hguarded.2).exec htells hexec hguarded.1⟩)
    es hjob
  obtain rfl := htells.peer
  have hguarded := Program.guarded_reaches (TransferCode.handleRequest_wp T job.locals.peer) hreach
  exact ⟨capacity, hreach, htells, hshows hguarded⟩

/-- What a task has read was there by then. -/
theorem exists_moment_arrived {new old : List (Turn (Asks B))} {t : Turn (Asks B)}
    (hturns : (T.node σ).turns i (Tasks.start registry world) es = new ++ t :: old)
    (hold : Unbroken old) :
    ∃ before env after, (T.node σ).Moment i (Tasks.start registry world) es t before env after ∧
      (T.node σ).turns i (Tasks.start registry world) before = old ∧
      ∃ asked rest, ((T.node σ).run (Tasks.start registry world) before).jobs[i]? = some asked ∧
        bytesRead old ++ rest <+: asked.locals.arrived := by
  obtain ⟨before, env, after, hmoment, rfl⟩ := System.exists_moment es hturns
  obtain ⟨asked, host, desk, hasked, hexec⟩ := hmoment.exec
  obtain ⟨capacity, -, htells, -⟩ := task_life hasked
  exact ⟨before, env, after, hmoment, rfl, asked, _, hasked, htells.front hold⟩

/-- A moment of the run at which the `i`-th task can take a turn, no earlier than
`from_`. -/
def Since (i : Nat) (es from_ before : List (NodeEvent B)) (env : Env) : Prop :=
  from_ <+: before ∧ ∃ after, es = before ++ .turn i env :: after

/-- A turn after those up to some moment was taken since. -/
theorem exists_since {s : Tasks σ B} {from_ : List (NodeEvent B)}
    {new old : List (Turn (Asks B))} {t : Turn (Asks B)}
    (hturns : (T.node σ).turns i s es = new ++ t :: old) (hfrom : from_ <+: es)
    (hold : (T.node σ).turns i s from_ <:+ old) :
    ∃ before env after, (T.node σ).Moment i s es t before env after ∧
      (T.node σ).turns i s before = old ∧ Since i es from_ before env := by
  obtain ⟨before, env, after, hmoment, rfl⟩ := System.exists_moment es hturns
  obtain ⟨rest, hes⟩ := hfrom
  exact ⟨before, env, after, hmoment, rfl, hmoment.prefix_of_turns hes.symm hold, after,
    hmoment.split⟩

/-- A turn of a task was justified. -/
theorem justified_of_moment {t : Turn (Asks B)} {before after : List (NodeEvent B)} {env : Env}
    (h : (T.node σ).Moment i (Tasks.start registry world) es t before env after) :
    ∃ job, ((T.node σ).run (Tasks.start registry world) before).jobs[i]? = some job ∧
      Justified T job.locals.peer t ((T.node σ).turns i (Tasks.start registry world) before) := by
  obtain ⟨job, host, desk, hjob, -⟩ := h.exec
  obtain ⟨job', hjob', -⟩ := (T.node σ).step_job hjob (.turn i env)
  rw [← System.run_singleton, ← System.run_append] at hjob'
  obtain ⟨capacity, hreach, -, -⟩ := task_life hjob'
  have hpeer : job'.locals.peer = job.locals.peer := (desk_later hjob hjob').peer
  rw [h.turns, hpeer] at hreach
  exact ⟨job, hjob, (Program.guarded_reaches (TransferCode.handleRequest_wp T _) hreach).1⟩

/-- The registry of the host answered at that moment. -/
theorem hasPermission_of_moment {s : Tasks σ B} {peer : EndpointId} {id : Bytes} {q : Permission}
    {out : Outcome Bool} {before after : List (NodeEvent B)} {env : Env}
    (h : (T.node σ).Moment i s es ⟨.hasPermission peer id q, out⟩ before env after) :
    Registry.hasPermission env ((T.node σ).run s before).shared.registry.2 peer id q = out := by
  obtain ⟨asked, host, desk, -, hexec⟩ := h.exec
  exact (Prod.mk.inj (Option.some.inj (Host.answer_of_exec hexec))).1

/-- So did the state behind the transfer. -/
theorem own_of_moment {s : Tasks σ B} {op : B.Op} {r : B.Res op}
    {before after : List (NodeEvent B)} {env : Env}
    (h : (T.node σ).Moment i s es ⟨.own op, r⟩ before env after) :
    ∃ send, (B.exec op ((T.node σ).run s before).shared.world send).1 = r := by
  obtain ⟨asked, host, desk, -, hexec⟩ := h.exec
  exact ⟨asked.locals.exchange.send,
    (Prod.mk.inj (Option.some.inj (Host.answer_of_exec hexec))).1⟩

/-- What was read to the end is all there is, and all there will be. -/
theorem readToEnd_of_moment {s : Tasks σ B} {sizeLimit : Nat} {data : Bytes}
    {before after : List (NodeEvent B)} {env : Env}
    (h : (T.node σ).Moment i s es ⟨.readToEnd sizeLimit, .ok data⟩ before env after) :
    ∃ job, ((T.node σ).run s before).jobs[i]? = some job ∧ job.locals.ended = true ∧
      job.locals.exchange.recv.reset = false ∧ job.locals.exchange.recv.bytes = data ∧
      data.length ≤ sizeLimit := by
  obtain ⟨reader, host, desk, hreader, hexec⟩ := h.exec
  exact ⟨reader, hreader, @Host.exec_readToEnd_ok _ _ _ _ env _ _ _ _ _ _ hexec⟩

/-- The state behind the transfer is only changed by tasks. -/
def NodeEvent.Untouched : NodeEvent B → Prop
  | .outside (.world _) => False
  | _ => True

/-- A step leaves the state behind the transfer alone, or is a request to it. -/
theorem step_world {s : Tasks σ B} {e : NodeEvent B} (he : e.Untouched) :
    ((T.node σ).step s e).shared.world = s.shared.world ∨
      ∃ j env op next desk out, e = .turn j env ∧ s.jobs[j]? = some ⟨.ask (.own op) next, desk⟩ ∧
        s.shared.exec env (.own op) desk = some out ∧ ((T.node σ).step s e).shared.world =
          (B.exec op s.shared.world desk.exchange.send).2.1 := by
  cases e with
  | outside x =>
      cases x with
      | world w => exact he.elim
      | acceptBi conn capacity =>
          simp only [System.step, TransferCode.node, Tasks.outside]
          split
          · exact .inl rfl
          · exact .inl rfl
      | call | connect | close | deliver | finish | reset | widen | stall => exact .inl rfl
  | turn j env =>
      simp only [System.step]
      split
      · rename_i op next desk hjob
        split
        · rename_i r host desk' hexec
          obtain hsame | ⟨own, rfl, hworld⟩ := Host.exec_world hexec
          · exact .inl hsame
          · exact .inr ⟨j, env, own, next, desk, _, rfl, hjob, hexec, hworld⟩
        · exact .inl rfl
      · exact .inl rfl

omit [EndpointKeys] in
/-- A request is still one when more comes in after it. -/
theorem Requests.extend {bytes bytes' id rest : Bytes} {q : Permission}
    (h : Requests bytes id q rest) (hle : bytes <+: bytes') :
    ∃ rest', Requests bytes' id q rest' := by
  obtain ⟨more, rfl⟩ := hle
  obtain ⟨request, hok, rfl⟩ := h
  exact ⟨rest ++ more, request, hok, List.append_assoc ..⟩

/-- The registry was asked about a request that was read. -/
theorem ruled_of_turns {acc old : List (Turn (Asks B))} {peer : EndpointId} {id : Bytes}
    {q : Permission} {out : Outcome Bool} {granted : Bool}
    (hturns : acc ++ ⟨.hasPermission peer id q, out⟩ :: old <:+
      (T.node σ).turns i (Tasks.start registry world) es)
    (hread : RequestRead old id (encodeOperation q))
    (hverdict : out = .ok true ∧ granted = true ∨
      out ≠ .ok true ∧ (T.canAccess peer id).Reaches acc (.ret granted)) :
    Ruled T registryGrants (Tasks.start registry world) i es peer id q granted := by
  obtain ⟨later, hturns⟩ := hturns
  obtain ⟨before, env, after, hmoment, hbefore, asked, rest, hasked, hfront⟩ :=
    exists_moment_arrived (by rw [← hturns, ← List.append_assoc]) hread.unbroken
  obtain ⟨rest', hrequest⟩ := (hread.requests rest).extend hfront
  have hout := hasPermission_of_moment hmoment
  refine ⟨before, env, after, hmoment.split, ⟨asked, rest', hasked, hrequest⟩,
    ⟨out, hmoment.split ▸ hmoment⟩, ?_⟩
  obtain ⟨hok, hgranted⟩ | ⟨hnot, hacc⟩ := hverdict
  · exact .inl ⟨hout.trans hok, hgranted⟩
  · exact .inr ⟨fun hok => hnot (hout.symm.trans hok), out, acc, later, hacc,
      by rw [← hmoment.split, ← hturns, hbefore]⟩

/-- So what was granted was ruled to be. -/
theorem ruled_of_granted {decided : List (Turn (Asks B))} {peer : EndpointId} {id : Bytes}
    {q : Permission} (hgranted : Granted T peer id q decided)
    (hdecided : decided <:+ (T.node σ).turns i (Tasks.start registry world) es) :
    Ruled T registryGrants (Tasks.start registry world) i es peer id q true := by
  cases hgranted with
  | registry hread =>
      exact ruled_of_turns (show [] ++ _ :: _ <:+ _ from hdecided) hread (.inl ⟨rfl, rfl⟩)
  | transfer hread hout hacc => exact ruled_of_turns hdecided hread (.inr ⟨hout, hacc⟩)

/-- **What the gate answers**, in every run of a node: a stream shows a status byte only
for a ruling of that run on what was requested on it. -/
theorem node_answers (T : TransferCode B) (registry : History × σ) (world : B.World)
    (es : List (NodeEvent B)) {i : Nat} {job : Job (Asks B) GateFault Unit Desk}
    (hjob : ((T.node σ).run (Tasks.start registry world) es).jobs[i]? = some job) :
    Answers (Ruled T registryGrants (Tasks.start registry world) i es) job.locals := by
  obtain ⟨capacity, -, -, hshows⟩ := task_life hjob
  cases hshows with
  | silent hw ht hi hd => exact .silent hw ht
  | denied hw ht hi hd hr =>
      refine .denied hw ht ?_
      cases hr with
      | unknown hread hop =>
          -- an unknown operation is refused without asking anyone
          obtain ⟨later, hturns⟩ := hd
          obtain ⟨before, env, after, hmoment, -, asked, rest, hasked, hfront⟩ :=
            exists_moment_arrived hturns.symm hread.unbroken
          obtain ⟨more, harrived⟩ :=
            hfront.trans (desk_later hasked (hmoment.split ▸ hjob)).arrived
          rw [List.append_assoc] at harrived
          exact .inl ⟨_, _, _, _, harrived ▸ hread.frame_rest (rest ++ more), hop⟩
      | denied hread hout hacc =>
          exact .inr ⟨_, _, ruled_of_turns ((List.suffix_cons ..).trans hd) hread
            (.inr ⟨hout, hacc⟩)⟩
  | allowed hw ht hi hd hg =>
      exact .allowed hw ht (ruled_of_granted hg ((List.suffix_cons ..).trans hd))
  | served ht hw hreq ha hi hd hg =>
      exact .served ht hw hreq ha (ruled_of_granted hg ((List.suffix_cons ..).trans hd))

set_option maxRecDepth 10000 in
omit [EndpointKeys] in
theorem node_answers_sample :
    letI := EndpointKeys.basePoint
    let start := Tasks.start
      (Backend.run Inner (sampleEvents [0x61] "readers" [.read] EndpointId.basePoint)) ()
    let es : List (NodeEvent .nothing) :=
      System.upTo (sampleSchedule EndpointId.basePoint [0x01, 0x00, 0x61, 0x01]) 10
    ∃ job, ((staticTransfer.node Inner).run start es).jobs[0]? = some job ∧
      job.locals.exchange.send.written = [Status.allowed.toByte] ∧
      Answers (Ruled staticTransfer registryGrants start 0 es) job.locals := by
  let inst := EndpointKeys.basePoint
  have hallowed : (((staticTransfer.node Inner).run (Tasks.start
      (Backend.run Inner (sampleEvents [0x61] "readers" [.read] EndpointId.basePoint)) ())
      (System.upTo (sampleSchedule EndpointId.basePoint [0x01, 0x00, 0x61, 0x01])
        10)).jobs[0]?).any fun job =>
      job.locals.exchange.send.written = [Status.allowed.toByte] := by
    decide +kernel
  obtain ⟨job, hjob, hwritten⟩ := (Option.any_eq_true _ _).mp hallowed
  exact ⟨job, hjob, of_decide_eq_true hwritten, node_answers staticTransfer _ () _ hjob⟩

end Life

/-! ### The registry of a node and its history

A node calls its registry in two ways, through a task and through the operator, and each
call is recorded. So at any moment the registry is one that was run through some calls,
and what is known of either backend along its runs holds in the middle of a node's. -/

section Histories

/-- What the occurrence may do to the registry is as it should be. -/
def NodeEvent.Calls (P : Event → Prop) : NodeEvent B → Prop
  | .turn _ env => (∀ peer id q, P (.call env (.hasPermission peer id q))) ∧
      ∀ id, P (.call env (.removeRingFromResource id))
  | .outside (.call env c) => P (.call env c)
  | .outside _ => True

variable {T : TransferCode B}

/-- A task does nothing to the registry, or makes a call of its own. -/
theorem exec_registry {env : Env} {op : TaskOp B} {r : op.Res} {host host' : Host σ B}
    {desk desk' : Desk} (h : host.exec env op desk = some (r, host', desk')) :
    host'.registry = host.registry ∨
      ∃ c, ((∃ peer id q, op = .hasPermission peer id q ∧ c = .hasPermission peer id q) ∨
          ∃ id, op = .removeRingFromResource id ∧ c = .removeRingFromResource id) ∧
        host'.registry = Backend.record host.registry (.call env c) := by
  replace h := Host.answer_of_exec h
  cases op with
  | readExact | readToEnd =>
      simp only [Host.answer] at h
      split at h
      · obtain ⟨-, rfl, -⟩ := h
        exact .inl rfl
      · cases h
  | writeAll | finish | invoke | own =>
      obtain ⟨-, rfl, -⟩ := h
      exact .inl rfl
  | hasPermission peer id q =>
      obtain ⟨-, rfl, -⟩ := h
      exact .inr ⟨_, .inl ⟨peer, id, q, rfl, rfl⟩, rfl⟩
  | removeRingFromResource id =>
      obtain ⟨-, rfl, -⟩ := h
      exact .inr ⟨_, .inr ⟨id, rfl, rfl⟩, rfl⟩

/-- The registry of a node is always one that was run through the events so far. -/
theorem node_registry {P : Event → Prop} {events : List Event} (hevents : ∀ e ∈ events, P e)
    {world : B.World} {es : List (NodeEvent B)} (hes : ∀ e ∈ es, NodeEvent.Calls P e) :
    ∃ events', (∀ e ∈ events', P e) ∧
      ((T.node σ).run (Tasks.start (Backend.run σ events) world) es).shared.registry =
        Backend.run σ events' := by
  have hmore : ∀ {events' : List Event} {e : Event}, (∀ e ∈ events', P e) → P e →
      ∃ events'', (∀ e ∈ events'', P e) ∧
        Backend.record (Backend.run σ events') e = Backend.run σ events'' := by
    intro events' e hevents' he
    refine ⟨events' ++ [e], List.forall_mem_append.mpr ⟨hevents', by simpa using he⟩, ?_⟩
    rw [Backend.run, Backend.run, List.foldl_append]
    rfl
  refine invariant_along (fun s : Tasks σ B =>
    ∃ events', (∀ e ∈ events', P e) ∧ s.shared.registry = Backend.run σ events') ?_
    ⟨events, hevents, rfl⟩ (along_of_forall hes _)
  intro s e hinv he
  rcases hinv with ⟨events', hevents', hregistry⟩
  cases e with
  | outside x =>
      cases x with
      | call env c =>
          obtain ⟨events'', hevents'', heq⟩ := hmore hevents' he
          exact ⟨events'', hevents'', by rw [← heq, ← hregistry]; rfl⟩
      | acceptBi conn capacity =>
          refine ⟨events', hevents', ?_⟩
          rw [← hregistry]
          simp only [System.step, TransferCode.node, Tasks.outside]
          split <;> rfl
      | world | connect | close | deliver | finish | reset | widen | stall =>
          exact ⟨events', hevents', hregistry⟩
  | turn j env =>
      simp only [System.step]
      split
      · split
        · rename_i hexec
          obtain heq | ⟨c, hc, heq⟩ := exec_registry hexec
          · exact ⟨events', hevents', heq.trans hregistry⟩
          · have hcall : P (.call env c) := by
              obtain ⟨peer, id, q, -, rfl⟩ | ⟨id, -, rfl⟩ := hc
              · exact he.1 peer id q
              · exact he.2 id
            obtain ⟨events'', hevents'', hrun⟩ := hmore hevents' hcall
            exact ⟨events'', hevents'', by rw [heq, hregistry, hrun]⟩
        · exact ⟨events', hevents', hregistry⟩
      · exact ⟨events', hevents', hregistry⟩

variable {grants grants' : Grants σ B} {s : Tasks σ B} {i : Nat} {es : List (NodeEvent B)}

/-- Rulings only look at what is granted at their moment. -/
theorem Ruled.mono {peer : EndpointId} {id : Bytes} {q : Permission} {granted : Bool}
    (h : Ruled T grants s i es peer id q granted)
    (hgrants : ∀ before env after, es = before ++ .turn i env :: after → ∀ peer id q,
      grants ((T.node σ).run s before).shared env peer id q ↔
        grants' ((T.node σ).run s before).shared env peer id q) :
    Ruled T grants' s i es peer id q granted := by
  obtain ⟨before, env, after, hes, hrequest, hasked, hverdict⟩ := h
  refine ⟨before, env, after, hes, hrequest, hasked, ?_⟩
  rwa [← hgrants before env after hes]

/-- The peer was let in by a moment of the run: the `i`-th task asked the registry while
the permission was granted. -/
def LetIn (T : TransferCode B) (grants : Grants σ B) (s : Tasks σ B) (i : Nat)
    (es : List (NodeEvent B)) (peer : EndpointId) (id : Bytes) (q : Permission) : Prop :=
  ∃ before env after out,
    (T.node σ).Moment i s es ⟨.hasPermission peer id q, out⟩ before env after ∧
      grants ((T.node σ).run s before).shared env peer id q

theorem LetIn.mono {peer : EndpointId} {id : Bytes} {q : Permission}
    (h : LetIn T grants s i es peer id q)
    (hgrants : ∀ before env after, es = before ++ .turn i env :: after → ∀ peer id q,
      grants ((T.node σ).run s before).shared env peer id q ↔
        grants' ((T.node σ).run s before).shared env peer id q) :
    LetIn T grants' s i es peer id q := by
  obtain ⟨before, env, after, out, hmoment, hin⟩ := h
  exact ⟨before, env, after, out, hmoment,
    (hgrants before env after hmoment.split peer id q).mp hin⟩

/-- The transfer leaves it at the registry. -/
def TransferCode.OnlyRegistry (T : TransferCode B) : Prop :=
  ∀ peer id, T.canAccess peer id = .ret false

/-- Such a transfer asks for nothing when it is asked for access. -/
theorem TransferCode.OnlyRegistry.not_accesses (h : T.OnlyRegistry) {peer : EndpointId}
    {op : TaskOp B} {tr : List (Turn (Asks B))} : ¬ Accesses T peer op tr := by
  intro haccesses
  obtain ⟨id, new, old, next, -, hreach⟩ := haccesses
  rw [h peer id] at hreach
  cases (Program.reaches_ret hreach).2

/-- Then only what is granted gets in. -/
theorem Ruled.letIn (h : T.OnlyRegistry) {peer : EndpointId} {id : Bytes} {q : Permission}
    (hruled : Ruled T grants s i es peer id q true) : LetIn T grants s i es peer id q := by
  obtain ⟨before, env, after, rfl, -, ⟨out, hmoment⟩, hverdict⟩ := hruled
  refine ⟨before, env, after, out, hmoment, ?_⟩
  obtain ⟨hgrants, -⟩ | ⟨-, out, acc, later, hreach, -⟩ := hverdict
  · exact hgrants
  · rw [h peer id] at hreach
    cases (Program.reaches_ret hreach).2

/-- The occurrence brings nothing to a redb registry that its history does not show. -/
abbrev NodeEvent.Recorded (e : NodeEvent B) : Prop :=
  e.Calls fun e => e.AfterEpoch ∧ e.ShortId

/-- The in-memory registry of a node answers what its history says. -/
theorem memory_grants (T : TransferCode B) (events : List Event) (world : B.World)
    (es : List (NodeEvent B)) (env : Env) (peer : EndpointId) (id : Bytes) (q : Permission) :
    registryGrants ((T.node Inner).run (Tasks.start (Backend.run Inner events) world) es).shared
        env peer id q ↔
      historyGrants ((T.node Inner).run (Tasks.start (Backend.run Inner events) world) es).shared
        env peer id q := by
  have hany : ∀ e : NodeEvent B, e.Calls fun _ => True := by
    intro e
    cases e with
    | turn i env => exact ⟨fun _ _ _ => trivial, fun _ => trivial⟩
    | outside x => cases x <;> trivial
  obtain ⟨events', -, hregistry⟩ : ∃ events', (∀ e ∈ events', True) ∧
      ((T.node Inner).run (Tasks.start (Backend.run Inner events) world)
        es).shared.registry = Backend.run Inner events' :=
    node_registry (fun _ _ => trivial) fun e _ => hany e
  unfold registryGrants historyGrants
  rw [hregistry]
  exact (hasPermission_eq_history events').1 env peer id q

/-- So does a redb registry, if its tables can hold what happens. -/
theorem redb_grants (T : TransferCode B) {events : List Event}
    (hevents : ∀ e ∈ events, e.AfterEpoch ∧ e.ShortId) (world : B.World)
    {es : List (NodeEvent B)} (hes : ∀ e ∈ es, NodeEvent.Recorded e) {env : Env}
    (hnow : unixEpoch ≤ env.now) (peer : EndpointId) (id : Bytes) (q : Permission) :
    registryGrants ((T.node RedbRegistry).run
        (Tasks.start (Backend.run RedbRegistry events) world) es).shared env peer id q ↔
      historyGrants ((T.node RedbRegistry).run
        (Tasks.start (Backend.run RedbRegistry events) world) es).shared env peer id q := by
  obtain ⟨events', hevents', hregistry⟩ := node_registry (T := T) (B := B) (σ := RedbRegistry)
    hevents hes
  unfold registryGrants historyGrants
  rw [hregistry]
  exact (hasPermission_eq_history events').2 hevents' env peer id q hnow

/-- Whenever the `i`-th task can take a turn, the registry grants what its history says. -/
def FollowsHistory (T : TransferCode B) (s : Tasks σ B) (i : Nat) (es : List (NodeEvent B)) :
    Prop :=
  ∀ before env after, es = before ++ .turn i env :: after → ∀ peer id q,
    registryGrants ((T.node σ).run s before).shared env peer id q ↔
      historyGrants ((T.node σ).run s before).shared env peer id q

theorem FollowsHistory.earlier {before after : List (NodeEvent B)}
    (h : FollowsHistory T s i (before ++ after)) : FollowsHistory T s i before := by
  intro earlier env between heq
  exact h earlier env (between ++ after) (by rw [heq, List.append_assoc, List.cons_append])

theorem memory_follows (T : TransferCode B) (events : List Event) (world : B.World) (i : Nat)
    (es : List (NodeEvent B)) :
    FollowsHistory T (Tasks.start (Backend.run Inner events) world) i es :=
  fun before env _ _ => memory_grants T events world before env

theorem redb_follows (T : TransferCode B) {events : List Event}
    (hevents : ∀ e ∈ events, e.AfterEpoch ∧ e.ShortId) (world : B.World) (i : Nat)
    {es : List (NodeEvent B)} (hes : ∀ e ∈ es, NodeEvent.Recorded e) :
    FollowsHistory T (Tasks.start (Backend.run RedbRegistry events) world) i es := by
  intro before env after heq
  subst heq
  have hnow := ((hes (.turn i env) (by simp)).2 []).1
  exact redb_grants T hevents world (fun e he => hes e (List.mem_append_left _ he)) hnow

/-- **The gate follows the history**: with either backend, and whatever was done to it
before the node was started, what a stream shows is what the calls made so far say at a
moment of the run with the request there, unless the transfer gives access. -/
theorem node_follows_history (T : TransferCode B) (events : List Event) (world : B.World)
    (es : List (NodeEvent B)) (i : Nat) :
    (∀ job, ((T.node Inner).run (Tasks.start (Backend.run Inner events) world) es).jobs[i]? =
        some job →
      Answers (Ruled T historyGrants (Tasks.start (Backend.run Inner events) world) i es)
        job.locals) ∧
    ((∀ e ∈ events, e.AfterEpoch ∧ e.ShortId) → (∀ e ∈ es, NodeEvent.Recorded e) →
      ∀ job, ((T.node RedbRegistry).run
          (Tasks.start (Backend.run RedbRegistry events) world) es).jobs[i]? = some job →
        Answers (Ruled T historyGrants (Tasks.start (Backend.run RedbRegistry events) world) i es)
          job.locals) := by
  constructor
  · intro job hjob
    exact (node_answers T _ world es hjob).mono fun id q granted hruled =>
      hruled.mono (memory_follows T events world i es)
  · intro hevents hes job hjob
    exact (node_answers T _ world es hjob).mono fun id q granted hruled =>
      hruled.mono (redb_follows T hevents world i hes)

theorem recorded_sampleSchedule {peer : EndpointId} {data : Bytes} {n : Nat} :
    ∀ e ∈ System.upTo (sampleSchedule (B := B) peer data) n, NodeEvent.Recorded e := by
  intro e he
  obtain ⟨m, -, rfl⟩ := List.mem_map.mp he
  match m with
  | 0 | 1 | 2 | 3 | 4 => trivial
  | m + 5 => exact ⟨fun _ _ _ => ⟨le_rfl, trivial⟩, fun _ => ⟨le_rfl, trivial⟩⟩

theorem recorded_sampleEvents {resourceId : Bytes} {ringName : String}
    {permissions : List Permission} {peer : EndpointId} (h : resourceId.length < 2 ^ 16) :
    ∀ e ∈ sampleEvents resourceId ringName permissions peer, e.AfterEpoch ∧ e.ShortId := by
  simp only [sampleEvents, List.forall_mem_cons]
  exact ⟨⟨le_rfl, trivial⟩, ⟨le_rfl, h⟩, ⟨le_rfl, trivial⟩,
    fun _ he => absurd he List.not_mem_nil⟩

set_option maxRecDepth 10000 in
omit [EndpointKeys] in
theorem node_follows_history_sample :
    letI := EndpointKeys.basePoint
    let start := Tasks.start
      (Backend.run RedbRegistry (sampleEvents [0x61] "readers" [.read] EndpointId.basePoint)) ()
    let es : List (NodeEvent .nothing) :=
      System.upTo (sampleSchedule EndpointId.basePoint [0x01, 0x00, 0x61, 0x01]) 10
    ∃ job, ((staticTransfer.node RedbRegistry).run start es).jobs[0]? = some job ∧
      job.locals.exchange.send.written = [Status.allowed.toByte] ∧
      Answers (Ruled staticTransfer historyGrants start 0 es) job.locals := by
  let inst := EndpointKeys.basePoint
  have hallowed : (((staticTransfer.node RedbRegistry).run (Tasks.start
      (Backend.run RedbRegistry (sampleEvents [0x61] "readers" [.read] EndpointId.basePoint)) ())
      (System.upTo (sampleSchedule EndpointId.basePoint [0x01, 0x00, 0x61, 0x01])
        10)).jobs[0]?).any fun job =>
      job.locals.exchange.send.written = [Status.allowed.toByte] := by
    decide +kernel
  obtain ⟨job, hjob, hwritten⟩ := (Option.any_eq_true _ _).mp hallowed
  exact ⟨job, hjob, of_decide_eq_true hwritten, (node_follows_history staticTransfer _ () _ 0).2
    (recorded_sampleEvents (by decide)) recorded_sampleSchedule job hjob⟩

end Histories

end IrohRings
