import IrohRings.Protocol.NodeWrites

/-!
# IrohRings.Examples.Write

`WriteTransfer` (`examples/write.rs`): what a peer pushes is kept in a map, which all
tasks share. Nothing gets into the map but what was pushed by somebody who was let in
(`stored_was_pushed`): all that came in on the stream after the request, whole, and
under the id that was requested.
-/

namespace IrohRings

open Foundation

/-- `store.lock().unwrap().insert(resource_id, content)` -/
structure Insertion where
  resourceId : Bytes
  content : Bytes

/-- The shared map of contents. -/
abbrev contents : Backing where
  Op := Insertion
  Res _ := Unit
  World := Table Bytes Bytes
  exec op store send := ((), store.insert op.resourceId op.content, send)
  OffStream _ := True
  offStream_keeps _ _ _ _ := rfl

/-- The most that is read of a stream. -/
def maxContent : Nat := 1024 * 1024

variable [EndpointKeys]

/-- `WriteTransfer`. -/
def writeTransfer : TransferCode contents where
  canAccess _ _ := .ret false
  transfer resourceId := do
    let content ← TaskM.readToEnd maxContent
    TaskM.ask (B := contents) (.own ⟨resourceId, content⟩)
    .writeAll (asBytes "ok")
  canAccess_offStream _ _ := trivial
  transfer_serving _ := by
    refine Program.Uses.bind ((Program.uses_request trivial).bind fun _ =>
      Program.uses_ofExcept) fun content => ?_
    exact (Program.uses_request trivial).bind fun _ =>
      (Program.uses_request trivial).bind fun _ => Program.uses_ofExcept

/-- An insertion is of what was read to the end just before, and only then is it
acknowledged. -/
def Pushing (id : Bytes) (t : Turn (Asks contents)) (tr : List (Turn (Asks contents))) : Prop :=
  match t.op with
  | .own op => op.resourceId = id ∧ tr = [⟨.readToEnd maxContent, .ok op.content⟩]
  | .writeAll _ => ∃ content,
    tr = [⟨.own ⟨id, content⟩, ()⟩, ⟨.readToEnd maxContent, .ok content⟩]
  | _ => True

/-- The three lines of the transfer come in this order, and each only if the one before
went well. -/
theorem pushing_of_reaches {id : Bytes} {new : List (Turn (Asks contents))} {op : TaskOp contents}
    {next : op.Res → TaskM contents Unit} (r : op.Res)
    (h : (writeTransfer.transfer id).Reaches new (.ask op next)) : Pushing id ⟨op, r⟩ new := by
  have hwp : Program.wp (Pushing id) (fun _ _ => True) (writeTransfer.transfer id) [] := by
    refine Program.wp_bind.mpr (TaskM.wp_readToEnd.mpr fun out => ⟨trivial, ?_⟩)
    cases out with
    | error e => trivial
    | ok content =>
        refine Program.wp_bind.mpr (TaskM.wp_ask.mpr fun r => ⟨⟨rfl, rfl⟩, ?_⟩)
        exact TaskM.wp_writeAll.mpr fun out => ⟨⟨content, rfl⟩, trivial⟩
  obtain ⟨hask, -⟩ := Program.wp_reaches hwp h
  rw [List.append_nil] at hask
  exact (hask r).1

/-! ### Where the contents come from

The map is shared by all tasks, and a later push replaces an earlier one. So what is in
it under an id is what the last insertion put there; that insertion is a moment of the
run, and what the task read before it is what came in on its stream. -/

section Contents

variable {σ : Type} [Backend σ] {registry : History × σ} {store : Table Bytes Bytes}
  {es first more : List (NodeEvent contents)} {i : Nat}

variable (registry store) in
/-- A task inserted the content under the id since some moment. -/
def InsertedSince (first es : List (NodeEvent contents)) (id content : Bytes) : Prop :=
  ∃ i before env after, first <+: before ∧
    (writeTransfer.node σ).Moment i (Tasks.start registry store) es
      ⟨.own ⟨id, content⟩, ()⟩ before env after

theorem InsertedSince.append {id content : Bytes}
    (h : InsertedSince registry store first es id content) (later : List (NodeEvent contents)) :
    InsertedSince registry store first (es ++ later) id content := by
  obtain ⟨i, before, env, after, hle, hmoment⟩ := h
  exact ⟨i, before, env, after ++ later, hle, hmoment.append later⟩

/-- What is in the map was there at an earlier moment, or was inserted since. -/
theorem inserted_of_get (first : List (NodeEvent contents))
    (hmore : ∀ e ∈ more, NodeEvent.Untouched e) {id content : Bytes}
    (h : ((writeTransfer.node σ).run (Tasks.start registry store)
      (first ++ more)).shared.world[id]? = some content) :
    ((writeTransfer.node σ).run (Tasks.start registry store) first).shared.world[id]? =
        some content ∨ InsertedSince registry store first (first ++ more) id content := by
  induction more using List.reverseRecOn with
  | nil => exact .inl (by rwa [List.append_nil] at h)
  | append_singleton more e ih =>
      obtain ⟨hearlier, he⟩ := List.forall_mem_append.mp hmore
      rw [← List.append_assoc] at h ⊢
      rw [System.run_append, System.run_singleton] at h
      obtain hsame | ⟨j, env, op, next, desk, out, rfl, hjob, hexec, hworld⟩ := step_world
        (s := (writeTransfer.node σ).run (Tasks.start registry store) (first ++ more))
        (he e List.mem_cons_self)
      · exact (ih hearlier (hsame ▸ h)).imp_right fun hinserted => hinserted.append [e]
      · -- the insertion is this one, or it leaves the entry alone
        obtain ⟨id', content'⟩ := op
        rw [hworld, Table.get_insert] at h
        split at h
        · rename_i heq
          subst heq
          obtain rfl := Option.some.inj h
          exact .inr ⟨j, _, env, [], List.prefix_append .., System.moment_of_exec hjob hexec⟩
        · exact (ih hearlier h).imp_right fun hinserted => hinserted.append _

/-- Nothing is ever taken out of the map. -/
theorem isSome_run (first : List (NodeEvent contents))
    (hmore : ∀ e ∈ more, NodeEvent.Untouched e) {id : Bytes}
    (h : (((writeTransfer.node σ).run (Tasks.start registry store)
      first).shared.world[id]?).isSome) :
    (((writeTransfer.node σ).run (Tasks.start registry store)
      (first ++ more)).shared.world[id]?).isSome := by
  induction more using List.reverseRecOn with
  | nil => rwa [List.append_nil]
  | append_singleton more e ih =>
      obtain ⟨hearlier, he⟩ := List.forall_mem_append.mp hmore
      have hbefore := ih hearlier
      rw [← List.append_assoc, System.run_append, System.run_singleton]
      generalize (writeTransfer.node σ).run _ (first ++ more) = s at hbefore ⊢
      obtain hsame | ⟨j, env, op, next, desk, out, -, -, -, hworld⟩ :=
        step_world (T := writeTransfer) (s := s) (he e List.mem_cons_self)
      · rwa [hsame]
      · rw [hworld, Table.get_insert]
        split
        · rfl
        · exact hbefore

variable (grants : Grants σ contents) (s : Tasks σ contents)

/-- The content was pushed under the id, on the `i`-th stream: it is all that came in
after a request for that id, the stream has come to its end, and its peer was let in. -/
structure Pushed (i : Nat) (es : List (NodeEvent contents)) (id content : Bytes) : Prop where
  short : content.length ≤ maxContent
  whole : ∃ job q, ((writeTransfer.node σ).run s es).jobs[i]? = some job ∧
    Requests job.locals.arrived id q content ∧ job.locals.ended = true ∧
    job.locals.exchange.recv.reset = false ∧
    LetIn writeTransfer grants s i es job.locals.peer id q

variable {grants s}

theorem onlyRegistry_writeTransfer : writeTransfer.OnlyRegistry := fun _ _ => rfl

/-- An insertion is of what was pushed. -/
theorem pushed_of_moment {id content : Bytes} {before after : List (NodeEvent contents)} {env : Env}
    (h : (writeTransfer.node σ).Moment i (Tasks.start registry store) es
      ⟨.own ⟨id, content⟩, ()⟩ before env after) :
    Pushed registryGrants (Tasks.start registry store) i before id content := by
  obtain ⟨job, hjob, hjustified⟩ := justified_of_moment h
  obtain ⟨id', q, new, decided, next, hturns, hgranted, hreach⟩ :=
    hjustified.resolve_right onlyRegistry_writeTransfer.not_accesses
  obtain ⟨rfl, rfl⟩ := pushing_of_reaches () hreach
  -- the moment at which the content was read
  obtain ⟨reading, env', between, hread, hold⟩ := System.exists_last_moment before hturns
  obtain ⟨reader, hreader, hended, hreset, rfl, hle⟩ := readToEnd_of_moment hread
  obtain ⟨capacity, -, htells, -⟩ := task_life hreader
  obtain ⟨hunbroken, hrequests⟩ := hgranted.requests
  have hwhole := htells.whole (by rw [hold]; exact hunbroken) hreset
  rw [hold] at hwhole
  -- nothing more has come in since
  have hlater := desk_later hreader (hread.split ▸ hjob)
  obtain ⟨hended', harrived, hreset'⟩ := hlater.ended hended
  refine ⟨hle, job, q, hjob, ?_, hended', hreset'.trans hreset, ?_⟩
  · rw [harrived, ← hwhole]
    exact hrequests _
  · refine (ruled_of_granted hgranted ?_).letIn onlyRegistry_writeTransfer
    rw [hturns]
    exact ⟨[_, _, _], rfl⟩

/-- Once inserted, it is there. -/
theorem get_of_moment {id content : Bytes} {before after : List (NodeEvent contents)} {env : Env}
    (h : (writeTransfer.node σ).Moment i (Tasks.start registry store) es
      ⟨.own ⟨id, content⟩, ()⟩ before env after) :
    ((writeTransfer.node σ).run (Tasks.start registry store)
      (before ++ [.turn i env])).shared.world[id]? = some content := by
  obtain ⟨job, host, job', -, hexec, -, hshared⟩ := h.result
  obtain ⟨-, hhost, -⟩ := Host.answer_own_eq.mp (Host.answer_of_exec hexec)
  rw [hshared, ← hhost, Table.get_insert, if_pos rfl]

/-- **A push takes effect**, at the moment between `before` and `after`: the `i`-th task
inserts the content, which was pushed on its stream, and the map holds it then. -/
structure Stores (grants : Grants σ contents) (s : Tasks σ contents) (i : Nat)
    (es : List (NodeEvent contents)) (id content : Bytes) (before : List (NodeEvent contents))
    (env : Env) (after : List (NodeEvent contents)) : Prop where
  moment : (writeTransfer.node σ).Moment i s es ⟨.own ⟨id, content⟩, ()⟩ before env after
  pushed : Pushed grants s i before id content
  stored : ((writeTransfer.node σ).run s (before ++ [.turn i env])).shared.world[id]? = some content

theorem stores_of_moment {id content : Bytes} {before after : List (NodeEvent contents)} {env : Env}
    (h : (writeTransfer.node σ).Moment i (Tasks.start registry store) es
      ⟨.own ⟨id, content⟩, ()⟩ before env after) :
    Stores registryGrants (Tasks.start registry store) i es id content before env after :=
  ⟨h, pushed_of_moment h, get_of_moment h⟩

/-- What the registry granted, its history does. -/
theorem Stores.follows {id content : Bytes} {before after : List (NodeEvent contents)} {env : Env}
    (h : Stores registryGrants s i es id content before env after)
    (hfollows : FollowsHistory writeTransfer s i es) :
    Stores historyGrants s i es id content before env after := by
  obtain ⟨hmoment, ⟨hshort, job, q, hjob, hrequest, hended, hreset, hin⟩, hstored⟩ := h
  rw [hmoment.split] at hfollows
  exact ⟨hmoment, ⟨hshort, job, q, hjob, hrequest, hended, hreset, hin.mono hfollows.earlier⟩,
    hstored⟩

variable (grants s) in
/-- Some task stored the content under the id since some moment, and it was pushed. -/
def PushedSince (first es : List (NodeEvent contents)) (id content : Bytes) : Prop :=
  ∃ i before env after, first <+: before ∧ Stores grants s i es id content before env after

theorem pushedSince_of_inserted {id content : Bytes}
    (h : InsertedSince registry store first es id content) :
    PushedSince registryGrants (Tasks.start registry store) first es id content := by
  obtain ⟨i, before, env, after, hle, hmoment⟩ := h
  exact ⟨i, before, env, after, hle, stores_of_moment hmoment⟩

theorem PushedSince.follows {id content : Bytes}
    (h : PushedSince registryGrants s first es id content)
    (hfollows : ∀ i, FollowsHistory writeTransfer s i es) :
    PushedSince historyGrants s first es id content := by
  obtain ⟨i, before, env, after, hle, hstores⟩ := h
  exact ⟨i, before, env, after, hle, hstores.follows (hfollows i)⟩

/-- **What is stored was pushed**: with either backend (redb if its tables can hold what
happens), and however the tasks, the operator and the peers take turns, what is in the
map was there at the start, or was pushed in the course of the run by a peer that the
history of the registry lets in. Nobody but the tasks has the map. -/
theorem stored_was_pushed (events : List Event) (store : Table Bytes Bytes)
    {es : List (NodeEvent contents)} (hes : ∀ e ∈ es, NodeEvent.Untouched e) :
    (∀ id content : Bytes,
      ((writeTransfer.node Inner).run
          (Tasks.start (Backend.run Inner events) store) es).shared.world[id]? = some content →
      store[id]? = some content ∨
        PushedSince historyGrants (Tasks.start (Backend.run Inner events) store) [] es id
          content) ∧
    ((∀ e ∈ events, e.AfterEpoch ∧ e.ShortId) → (∀ e ∈ es, NodeEvent.Recorded e) →
      ∀ id content : Bytes,
        ((writeTransfer.node RedbRegistry).run
            (Tasks.start (Backend.run RedbRegistry events) store) es).shared.world[id]? =
          some content →
        store[id]? = some content ∨
          PushedSince historyGrants (Tasks.start (Backend.run RedbRegistry events) store) [] es id
            content) := by
  constructor
  · intro id content h
    refine (inserted_of_get [] hes h).imp_right fun hinserted => ?_
    exact (pushedSince_of_inserted hinserted).follows fun i =>
      memory_follows writeTransfer events store i es
  · intro hevents hrecorded id content h
    refine (inserted_of_get [] hes h).imp_right fun hinserted => ?_
    exact (pushedSince_of_inserted hinserted).follows fun i =>
      redb_follows writeTransfer hevents store i hrecorded

/-! ### What an acknowledgment is worth

The peer sees `ok` only after its content was inserted. A peer that sees nothing more
than the status byte does not know: the content may have been too long, in which case
nothing was stored, or the acknowledgment may have been lost on its way. -/

/-- More than the status byte is only seen after an insertion. -/
theorem exists_insertion_of_long {job : Job (Asks contents) GateFault Unit Desk}
    (hjob : ((writeTransfer.node σ).run (Tasks.start registry store) es).jobs[i]? = some job)
    (hlong : 1 < job.locals.exchange.send.written.length) :
    ∃ id content before env after, (writeTransfer.node σ).Moment i (Tasks.start registry store) es
      ⟨.own ⟨id, content⟩, ()⟩ before env after := by
  obtain ⟨data, out, writing, env', rest, hwrite, id, q, new, decided, next, hturns, -, hreach⟩ :=
    exists_write_of_long (fun _ _ _ => rfl) hjob hlong
  obtain ⟨content, rfl⟩ := pushing_of_reaches out hreach
  obtain ⟨before, env, between, hmoment, -⟩ := System.exists_last_moment writing hturns
  exact ⟨id, content, before, env, _, hwrite.split ▸ hmoment.append (.turn i env' :: rest)⟩

variable (grants s) in
/-- What was pushed on the `i`-th stream was stored at some moment, and the map holds it,
or what was pushed and stored under the same id since. -/
def PushKept (i : Nat) (es : List (NodeEvent contents)) : Prop :=
  ∃ id content before env after, Stores grants s i es id content before env after ∧
    ∃ kept, ((writeTransfer.node σ).run s es).shared.world[id]? = some kept ∧
      (kept = content ∨ PushedSince grants s (before ++ [.turn i env]) es id kept)

/-- **A push that is acknowledged is not lost**: if a stream shows more than the status
byte, what was pushed on it has been stored, and only a later push takes its place. -/
theorem acknowledged_was_stored (registry : History × σ) (store : Table Bytes Bytes)
    (hes : ∀ e ∈ es, NodeEvent.Untouched e) {job : Job (Asks contents) GateFault Unit Desk}
    (hjob : ((writeTransfer.node σ).run (Tasks.start registry store) es).jobs[i]? = some job)
    (hlong : 1 < job.locals.exchange.send.written.length) :
    PushKept registryGrants (Tasks.start registry store) i es := by
  obtain ⟨id, content, before, env, after, hmoment⟩ := exists_insertion_of_long hjob hlong
  refine ⟨id, content, before, env, after, stores_of_moment hmoment, ?_⟩
  have hthen : es = (before ++ [.turn i env]) ++ after := by
    rw [hmoment.split, List.append_assoc]
    rfl
  have hafter : ∀ e ∈ after, NodeEvent.Untouched e := fun e he =>
    hes e (hthen ▸ List.mem_append_right _ he)
  have hthere := get_of_moment hmoment
  obtain ⟨kept, hkept⟩ := Option.isSome_iff_exists.mp
    (isSome_run (before ++ [.turn i env]) hafter (by rw [hthere]; rfl))
  refine ⟨kept, hthen ▸ hkept, ?_⟩
  obtain hsame | hinserted := inserted_of_get _ hafter hkept
  · exact .inl (Option.some.inj (hsame.symm.trans hthere))
  · exact .inr (pushedSince_of_inserted (hthen ▸ hinserted))

theorem untouched_sampleSchedule {peer : EndpointId} {data : Bytes} {n : Nat} :
    ∀ e ∈ System.upTo (sampleSchedule (B := contents) peer data) n, NodeEvent.Untouched e := by
  intro e he
  obtain ⟨m, -, rfl⟩ := List.mem_map.mp he
  match m with
  | 0 | 1 | 2 | 3 | 4 => trivial
  | m + 5 => trivial

end Contents

/-- A registry that lets a peer write, and what a writer sends. -/
def writerEvents (peer : EndpointId) : List Event := sampleEvents [0x61] "writers" [.write] peer

def writerRequest : Bytes := [0x01, 0x00, 0x61, 0x02, 0x68, 0x69]

set_option maxRecDepth 10000 in
omit [EndpointKeys] in
theorem stored_was_pushed_sample :
    letI := EndpointKeys.basePoint
    PushedSince historyGrants
      (Tasks.start (Backend.run Inner (writerEvents EndpointId.basePoint)) ∅) []
      (System.upTo (sampleSchedule EndpointId.basePoint writerRequest) 13)
      [0x61] [0x68, 0x69] :=
  letI := EndpointKeys.basePoint
  ((stored_was_pushed (writerEvents EndpointId.basePoint) ∅ untouched_sampleSchedule).1 [0x61]
    [0x68, 0x69] (by decide +kernel)).resolve_left (by decide +kernel)

set_option maxRecDepth 10000 in
omit [EndpointKeys] in
theorem acknowledged_was_stored_sample :
    letI := EndpointKeys.basePoint
    PushKept registryGrants
      (Tasks.start (Backend.run Inner (writerEvents EndpointId.basePoint)) ∅) 0
      (System.upTo (sampleSchedule EndpointId.basePoint writerRequest)
        14) := by
  let inst := EndpointKeys.basePoint
  have hlong : (((writeTransfer.node Inner).run
      (Tasks.start (Backend.run Inner (writerEvents EndpointId.basePoint)) ∅)
      (System.upTo (sampleSchedule EndpointId.basePoint writerRequest)
        14)).jobs[0]?).any fun job => 1 < job.locals.exchange.send.written.length := by
    decide +kernel
  obtain ⟨job, hjob, hlong⟩ := (Option.any_eq_true _ _).mp hlong
  exact acknowledged_was_stored _ _ untouched_sampleSchedule hjob (by simpa using hlong)

end IrohRings
