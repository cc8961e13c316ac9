import IrohRings.Protocol.NodeWrites

/-!
# IrohRings.Protocol.Initiator

The other end of a stream: the peer that opened it sends its request, finishes its half,
and reads what comes back (`fetch`, `push` and `delete` in `examples/`). What it makes of
that is what the gate has decided (`verdict_is_ruling`), however much of it has arrived,
and on just what it asked for (`initiators_learn_ruling`).
-/

namespace IrohRings

open Foundation

/-- Read the status byte: `recv.read_exact(&mut status).await?`, and then
`Status::try_from(status[0])?`. -/
def readStatus (recv : RecvStream) : Except AnyError Status × RecvStream :=
  let out := recv.readExact 1
  let status := do
    let buf ← out.1.mapError .read
    (Status.tryFrom (buf.get ⟨0, Nat.one_pos⟩)).mapError fun e => .msg e.text
  (status, out.2)

/-- Read the response, and what the transfer sends if there is access:
`recv.read_to_end(size_limit).await?`. -/
def readResponse (sizeLimit : Nat) (recv : RecvStream) : Except AnyError (Option Bytes) := do
  match ← (readStatus recv).1 with
  | .allowed => return some (← (readToEnd (readStatus recv).2 sizeLimit).1)
  | .denied => return none

/-! ### The initiators of the examples -/

/-- The resource that `fetch` asks for. -/
def exampleDocument : Bytes := asBytes "example-document-v1"

/-- What `fetch` sends (`examples/read.rs`). -/
def fetchRequest : Except Error Bytes := encodeRequest exampleDocument .read

/-- `fetch`: the payload, or nothing if access was denied. -/
def fetch (recv : RecvStream) : Except AnyError (Option Bytes) := readResponse (64 * 1024) recv

/-- What `push` sends (`examples/write.rs`). -/
def pushRequest (resourceId content : Bytes) : Except Error Bytes :=
  (encodeRequest resourceId .write).map (· ++ content)

/-- `push`: whether access was granted. -/
def push (recv : RecvStream) : Except AnyError Bool := (readResponse 16 recv).map Option.isSome

/-- What `delete` sends (`examples/delete.rs`). -/
def deleteRequest (resourceId : Bytes) : Except Error Bytes := encodeRequest resourceId .delete

/-- `delete`: whether access was granted. -/
def delete (recv : RecvStream) : Except AnyError Bool := (readResponse 16 recv).map Option.isSome

/-! ### What a response is read as -/

section Response

variable (sizeLimit : Nat) (reset : Bool)

theorem readStatus_nil : ∃ e, readStatus ⟨[], reset⟩ = (.error (.read e), ⟨[], reset⟩) := by
  cases reset with
  | false => exact ⟨_, rfl⟩
  | true => exact ⟨_, rfl⟩

theorem readResponse_nil : ∃ e, readResponse sizeLimit ⟨[], reset⟩ = .error (.read e) := by
  obtain ⟨e, he⟩ := readStatus_nil reset
  exact ⟨e, by rw [readResponse, he]; rfl⟩

variable {sizeLimit reset}

theorem readStatus_cons (status : Status) (more : Bytes) :
    readStatus ⟨status.toByte :: more, reset⟩ = (.ok status, ⟨more, reset⟩) := by
  have hread : (⟨status.toByte :: more, reset⟩ : RecvStream).readExact 1 =
      (.ok #v[status.toByte], ⟨more, reset⟩) :=
    RecvStream.readExact_append #v[status.toByte] more reset
  unfold readStatus
  rw [hread]
  cases status <;> rfl

@[simp] theorem readResponse_denied (more : Bytes) :
    readResponse sizeLimit ⟨Status.denied.toByte :: more, reset⟩ = .ok none := by
  rw [readResponse, readStatus_cons]
  rfl

@[simp] theorem readResponse_allowed (more : Bytes) :
    readResponse sizeLimit ⟨Status.allowed.toByte :: more, reset⟩ =
      (readToEnd ⟨more, reset⟩ sizeLimit).1.map some := by
  rw [readResponse, readStatus_cons]
  cases (readToEnd ⟨more, reset⟩ sizeLimit).1 <;> rfl

end Response

/-! ### What it says -/

section Verdict

variable [EndpointKeys] {σ : Type} [Backend σ] {B : Backing}

/-- **The verdict is a ruling**: whatever part of the answer has arrived at the peer, and
however its stream ends, it only reads that access was granted after a ruling for it, and
only that access was denied after a ruling against it, or for an operation byte that is
none. It cannot read a status only if nothing has arrived. -/
theorem verdict_is_ruling {T : TransferCode B} (happends : B.Appends) (registry : History × σ)
    (world : B.World) {es : List (NodeEvent B)} {i : Nat} {job : Job (Asks B) GateFault Unit Desk}
    (hjob : ((T.node σ).run (Tasks.start registry world) es).jobs[i]? = some job) {seen : Bytes}
    (hseen : seen <+: job.locals.exchange.send.written) (reset : Bool) (sizeLimit : Nat) :
    (∀ data, readResponse sizeLimit ⟨seen, reset⟩ = .ok (some data) →
      ∃ id q, Ruled T registryGrants (Tasks.start registry world) i es job.locals.peer id q true) ∧
    (readResponse sizeLimit ⟨seen, reset⟩ = .ok none →
      job.locals.Unknown ∨ ∃ id q,
        Ruled T registryGrants (Tasks.start registry world) i es job.locals.peer id q false) ∧
    (∀ e, (readStatus ⟨seen, reset⟩).1 = .error e → seen = []) := by
  cases seen with
  | nil =>
      obtain ⟨e, he⟩ := readResponse_nil sizeLimit reset
      rw [he]
      exact ⟨fun data h => (by cases h), fun h => (by cases h), fun _ _ => rfl⟩
  | cons b seen =>
      obtain ⟨more, hmore⟩ := hseen
      obtain hw | ⟨hw, hruled⟩ | ⟨⟨rest, hw⟩, hruled⟩ :=
        first_byte_is_ruling happends registry world hjob
      · cases hmore.trans hw
      · obtain ⟨rfl, -⟩ := List.cons.inj (hmore.trans hw)
        rw [readResponse_denied, readStatus_cons]
        exact ⟨fun data h => (by cases h), fun _ => hruled, fun e h => (by cases h)⟩
      · obtain ⟨rfl, -⟩ := List.cons.inj (hmore.trans hw)
        rw [readResponse_allowed, readStatus_cons]
        refine ⟨fun _ _ => hruled, fun h => ?_, fun e h => (by cases h)⟩
        cases hread : (readToEnd ⟨seen, reset⟩ sizeLimit).1 with
        | ok data => rw [hread] at h; cases h
        | error e => rw [hread] at h; cases h

set_option maxRecDepth 10000 in
omit [EndpointKeys] in
theorem verdict_is_ruling_sample :
    letI := EndpointKeys.basePoint
    let es : List (NodeEvent .nothing) :=
      System.upTo (sampleSchedule EndpointId.basePoint [0x01, 0x00, 0x61, 0x01]) 10
    ∃ job, ((staticTransfer.node Inner).run (Tasks.start (Backend.run Inner []) ()) es).jobs[0]? =
        some job ∧
      (job.locals.Unknown ∨ ∃ id q, Ruled staticTransfer registryGrants
        (Tasks.start (Backend.run Inner []) ()) 0 es job.locals.peer id q false) := by
  let inst := EndpointKeys.basePoint
  have hdenied : (((staticTransfer.node Inner).run (Tasks.start (Backend.run Inner []) ())
      (System.upTo (sampleSchedule EndpointId.basePoint [0x01, 0x00, 0x61, 0x01])
        10)).jobs[0]?).any fun job =>
      job.locals.exchange.send.written = [Status.denied.toByte] := by
    decide +kernel
  obtain ⟨job, hjob, hwritten⟩ := (Option.any_eq_true _ _).mp hdenied
  have hverdict := verdict_is_ruling (fun op => Empty.elim op) _ _ hjob List.prefix_rfl false 16
  rw [of_decide_eq_true hwritten] at hverdict
  exact ⟨job, hjob, hverdict.2.1 (readResponse_denied _)⟩

/-- A ruling on a stream is on the request that its peer sends on it. -/
theorem Ruled.of_sent {T : TransferCode B} {registry : History × σ} {world : B.World}
    {es : List (NodeEvent B)} {i : Nat} {job : Job (Asks B) GateFault Unit Desk}
    (hjob : ((T.node σ).run (Tasks.start registry world) es).jobs[i]? = some job)
    {sent id rest : Bytes} {q : Permission} (hreq : Requests sent id q rest)
    (harrived : job.locals.arrived <+: sent) {id' : Bytes} {q' : Permission} {granted : Bool}
    (h : Ruled T registryGrants (Tasks.start registry world) i es job.locals.peer id' q' granted) :
    Ruled T registryGrants (Tasks.start registry world) i es job.locals.peer id q granted := by
  have hruled := h
  obtain ⟨before, env, after, rfl, ⟨asked, rest', hasked, hrequest⟩, -, -⟩ := hruled
  obtain ⟨rest'', hsent⟩ := hrequest.extend ((desk_later hasked hjob).arrived.trans harrived)
  obtain ⟨rfl, rfl, -⟩ := hsent.unique hreq
  exact h

/-- The operation byte of a request stands for something. -/
theorem Desk.Unknown.not_sent {desk : Desk} (h : desk.Unknown) {sent id rest : Bytes}
    {q : Permission} (harrived : desk.arrived <+: sent) : ¬ Requests sent id q rest := by
  intro hreq
  obtain ⟨id', op, rest', e, hframe, hop⟩ := h
  obtain ⟨more, rfl⟩ := harrived
  obtain ⟨op', hframe', hop'⟩ := requests_iff_frame.mp hreq
  obtain ⟨-, rfl, -⟩ := (hframe.append more).unique hframe'
  cases hop.symm.trans hop'

/-- An initiator that has read a status learns the ruling on its request. -/
theorem ruled_of_response {T : TransferCode B} (happends : B.Appends) (registry : History × σ)
    (world : B.World) {es : List (NodeEvent B)} {i : Nat} {job : Job (Asks B) GateFault Unit Desk}
    (hjob : ((T.node σ).run (Tasks.start registry world) es).jobs[i]? = some job)
    {sent id rest : Bytes} {q : Permission} (hreq : Requests sent id q rest)
    (harrived : job.locals.arrived <+: sent) {seen : Bytes}
    (hseen : seen <+: job.locals.exchange.send.written) {reset : Bool} {sizeLimit : Nat}
    {out : Option Bytes} (hout : readResponse sizeLimit ⟨seen, reset⟩ = .ok out) :
    Ruled T registryGrants (Tasks.start registry world) i es job.locals.peer id q out.isSome := by
  obtain ⟨hallowed, hdenied, -⟩ :=
    verdict_is_ruling happends registry world hjob hseen reset sizeLimit
  cases out with
  | some data =>
      obtain ⟨id', q', hruled⟩ := hallowed data hout
      exact hruled.of_sent hjob hreq harrived
  | none =>
      obtain hunknown | ⟨id', q', hruled⟩ := hdenied hout
      · exact absurd hreq (hunknown.not_sent harrived)
      · exact hruled.of_sent hjob hreq harrived

omit [EndpointKeys] in
/-- What `push` sends is a request to write, and the content. -/
theorem requests_pushRequest {resourceId content sent : Bytes}
    (h : pushRequest resourceId content = .ok sent) :
    Requests sent resourceId .write content := by
  unfold pushRequest at h
  cases hrequest : encodeRequest resourceId .write with
  | error e =>
      rw [hrequest] at h
      cases h
  | ok request =>
      rw [hrequest] at h
      exact ⟨request, hrequest, (Except.ok.inj h).symm⟩

omit [EndpointKeys] in
theorem requests_deleteRequest {resourceId sent : Bytes} (h : deleteRequest resourceId = .ok sent) :
    Requests sent resourceId .delete [] :=
  ⟨sent, h, (List.append_nil sent).symm⟩

/-- **The initiators learn the ruling on what they asked for**: whatever part of what one
of them sends has come in, in any run of the node, and whatever part of the answer it has
read, the result that it returns is a ruling that the gate has given on its stream, for
the resource that it named, and to read, write or delete it. -/
theorem initiators_learn_ruling {T : TransferCode B} (happends : B.Appends)
    (registry : History × σ) (world : B.World) {es : List (NodeEvent B)} {i : Nat}
    {job : Job (Asks B) GateFault Unit Desk}
    (hjob : ((T.node σ).run (Tasks.start registry world) es).jobs[i]? = some job)
    {sent : Bytes} (harrived : job.locals.arrived <+: sent) {seen : Bytes}
    (hseen : seen <+: job.locals.exchange.send.written) (reset : Bool) :
    let ruled := Ruled T registryGrants (Tasks.start registry world) i es job.locals.peer
    (fetchRequest = .ok sent → ∀ out, fetch ⟨seen, reset⟩ = .ok out →
      ruled exampleDocument .read out.isSome) ∧
    (∀ id content granted, pushRequest id content = .ok sent → push ⟨seen, reset⟩ = .ok granted →
      ruled id .write granted) ∧
    ∀ id granted, deleteRequest id = .ok sent → delete ⟨seen, reset⟩ = .ok granted →
      ruled id .delete granted := by
  -- a result that is a flag is that of the response
  have hflag : ∀ {granted : Bool}, (readResponse 16 ⟨seen, reset⟩).map Option.isSome = .ok granted →
      ∃ out, readResponse 16 ⟨seen, reset⟩ = .ok out ∧ out.isSome = granted := by
    intro granted h
    cases hout : readResponse 16 ⟨seen, reset⟩ with
    | error e =>
        rw [hout] at h
        cases h
    | ok out =>
        rw [hout] at h
        exact ⟨out, rfl, Except.ok.inj h⟩
  refine ⟨fun hsent out hout => ?_, fun id content granted hsent h => ?_,
    fun id granted hsent h => ?_⟩
  · exact ruled_of_response happends registry world hjob
      ⟨sent, hsent, (List.append_nil sent).symm⟩ harrived hseen hout
  · obtain ⟨out, hout, rfl⟩ := hflag h
    exact ruled_of_response happends registry world hjob (requests_pushRequest hsent) harrived
      hseen hout
  · obtain ⟨out, hout, rfl⟩ := hflag h
    exact ruled_of_response happends registry world hjob (requests_deleteRequest hsent) harrived
      hseen hout

/-- What a reader of the document sends, and a registry that lets it. -/
def readerRequest : Bytes := toLe 2 19 ++ exampleDocument ++ [0x01]

def readerEvents (peer : EndpointId) : List Event :=
  sampleEvents exampleDocument "readers" [.read] peer

set_option maxRecDepth 10000 in
omit [EndpointKeys] in
theorem initiators_learn_ruling_sample :
    letI := EndpointKeys.basePoint
    let start := Tasks.start (Backend.run Inner (readerEvents EndpointId.basePoint)) ()
    let es : List (NodeEvent .nothing) :=
      System.upTo (sampleSchedule EndpointId.basePoint readerRequest) 13
    ∃ job, ((staticTransfer.node Inner).run start es).jobs[0]? = some job ∧
      Ruled staticTransfer registryGrants start 0 es job.locals.peer exampleDocument .read
        true := by
  let inst := EndpointKeys.basePoint
  have hanswered : (((staticTransfer.node Inner).run (Tasks.start
      (Backend.run Inner (readerEvents EndpointId.basePoint)) ())
      (System.upTo (sampleSchedule EndpointId.basePoint readerRequest) 13)).jobs[0]?).any
        fun job => job.locals.arrived = readerRequest ∧
          job.locals.exchange.send.written = Status.allowed.toByte :: staticContent := by
    decide +kernel
  obtain ⟨job, hjob, hanswered⟩ := (Option.any_eq_true _ _).mp hanswered
  obtain ⟨harrived, hwritten⟩ := of_decide_eq_true hanswered
  have hlearn := (initiators_learn_ruling (fun op => Empty.elim op) _ _ hjob
    (show _ <+: readerRequest from harrived ▸ List.prefix_rfl) List.prefix_rfl false).1
  rw [hwritten] at hlearn
  exact ⟨job, hjob, hlearn (by decide) (some staticContent)
    ((readResponse_allowed _).trans (by decide))⟩

end Verdict

end IrohRings
