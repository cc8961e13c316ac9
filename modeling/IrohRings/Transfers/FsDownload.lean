import IrohRings.Transfers.FsReads
import IrohRings.Transfers.FsTasks
import IrohRings.Transfers.Negotiation

/-!
# IrohRings.Transfers.FsDownload

A download from a node with an `FsTransfer`. Its code does what the transfer does when
nothing interferes (`fsCode_codes`), so a peer that may read a blob, says which chunks
it has, finishes its stream and takes what it is sent gets the others, in every schedule
that attends to its task and does not disturb it (`fs_node_downloads`).

Three results come together here. `node_refines_serve` brings the node down to a gate
that serves one request, `serve_download` says what that gate does with a download, and
`negotiation_keeps_chunks` what the ranges of the peer come to on the wire.
-/

namespace IrohRings

open Foundation

variable [EndpointKeys] {σ : Type} [Backend σ]

/-! ### The code and the transfer

`FsTransfer` is modelled twice: as a function of the registry and the store
(`Transfers/Fs.lean`), and as the code of a task, which asks for each of its answers
(`Transfers/FsTasks.lean`). With answers that stay the same, the second is the first;
so the cases below follow the definitions, line by line. -/

namespace FsCode

variable {env : Env} {t : FsTransfer σ} {peer : EndpointId}

/-- `unwrap_or(false)` would not catch a panic, so the registry must not panic. -/
theorem performs_mayRead (hanswer : ∀ peer id m,
      Registry.hasPermission env t.registry peer id .read ≠ .error (.panic m)) (id : Bytes) :
    Performs env t.registry t.store (mayRead peer id) (pure (t.mayRead env peer id)) := by
  intro x
  show (TaskM.hasPermission peer id .read).handle _ x = _
  rw [performs_hasPermission peer id .read x, FsTransfer.mayRead]
  cases hout : Registry.hasPermission env t.registry peer id .read with
  | ok b => rfl
  | error e =>
      cases e with
      | err e => rfl
      | panic m => exact absurd hout (hanswer peer id m)

theorem performs_listTags :
    Performs env t.registry t.store listTags (pure t.store.listTags) := fun _ => rfl

theorem performs_getBytes (hash : Hash) :
    Performs env t.registry t.store (getBytes hash) (pure (t.store.getBytes hash)) := fun _ => rfl

/-- The loop over the tags. -/
theorem performs_scanTags (hanswer : ∀ peer id m,
      Registry.hasPermission env t.registry peer id .read ≠ .error (.panic m)) (hash : Hash)
    (items : List (Except AnyError TagInfo)) :
    Performs env t.registry t.store (scanTags t.store.hashSeq peer hash items)
      (pure (t.scanTags env peer hash items)) := by
  induction items with
  | nil => exact performs_pure false
  | cons item items ih =>
      cases item with
      | error e => exact performs_pure false
      | ok info =>
          unfold scanTags FsTransfer.scanTags
          split
          · exact ih
          · refine Performs.pure_bind (performs_mayRead hanswer _) ?_
            split
            · exact ih
            · refine Performs.pure_bind (performs_getBytes info.hash) ?_
              cases t.store.getBytes info.hash with
              | error e => exact ih
              | ok bytes =>
                  dsimp only
                  cases t.store.hashSeq bytes with
                  | error e => exact ih
                  | ok seq =>
                      dsimp only
                      split
                      · exact performs_pure true
                      · exact ih

/-- Asking for access. -/
theorem performs_canAccess (hanswer : ∀ peer id m,
      Registry.hasPermission env t.registry peer id .read ≠ .error (.panic m)) (id : Bytes) :
    Performs env t.registry t.store (canAccess t.store.hashSeq peer id)
      (pure (t.canAccess env peer id)) := by
  unfold canAccess FsTransfer.canAccess
  refine Performs.pure_bind (performs_mayRead hanswer _) ?_
  split
  · exact performs_pure true
  · cases hashOfId id with
    | none => exact performs_pure false
    | some hash =>
        dsimp only
        unfold isMemberOfAllowedCollection FsTransfer.isMemberOfAllowedCollection
        refine Performs.pure_bind performs_listTags ?_
        cases t.store.listTags with
        | error e => exact performs_pure false
        | ok items => exact performs_scanTags hanswer hash items

/-- The export of a blob, with its error under the transfer's context. -/
theorem performs_exportTo (hash : Hash) (missing : ChunkRanges) :
    Performs env t.registry t.store (exportTo hash missing)
      (.ofStream (FsTransfer.exportTo t.store hash missing)) := by
  intro x
  show (Program.ofExcept _).handle _ _ = _
  rw [Program.handle_ofExcept]
  show _ = (((t.store.exportBao hash missing x.send).1.mapError _).mapError GateFault.err, _)
  cases hout : t.store.exportBao hash missing x.send with
  | mk out send =>
      obtain e | u := out
      · simp [aloneWith, fsBacking, FsOp.exec, hout, Except.mapError]
      · simp [aloneWith, fsBacking, FsOp.exec, hout, Except.mapError]

omit [EndpointKeys] in
/-- An outcome is the same on the streams as in the exchange. -/
theorem ofStream_ofExcept {α : Type} (out : Except AnyError α) :
    GateM.ofStream (FsTransfer.ofExcept out) = GateM.ofExcept out := by
  funext x
  cases out <;> rfl

/-- What follows the reading of the ranges. -/
theorem performs_sendMissing (id : Bytes) (count : Nat) (data : Bytes) :
    Performs env t.registry t.store (sendMissing id count data) (.ofStream (do
      let alreadyHave ← FsTransfer.ofExcept (decodeRangesWire count data)
      let missing := Ranges.all.diff alreadyHave
      match hashOfId id with
      | none =>
        throw (.context "resource_id must be 32 bytes" (.msg "could not convert slice to array"))
      | some hash => FsTransfer.exportTo t.store hash missing)) := by
  rw [GateM.ofStream_bind, ofStream_ofExcept]
  refine (performs_ofExcept _).bind fun alreadyHave => ?_
  dsimp only
  cases hashOfId id with
  | none => exact fun x => rfl
  | some hash => exact performs_exportTo hash _

/-- **The transfer**: the number of ranges, the ranges if there are any, the export. -/
theorem performs_transfer (id : Bytes) :
    Performs env t.registry t.store (transfer id) (.ofStream (t.transfer id)) := by
  unfold transfer FsTransfer.transfer
  rw [GateM.ofStream_bind]
  refine (performs_readExact _ 4).bind fun countBuf => ?_
  dsimp only
  split
  · rw [GateM.ofStream_bind]
    refine (performs_readExact _ _).bind fun buf => ?_
    exact performs_sendMissing id _ buf.toList
  · exact performs_sendMissing id _ []

end FsCode

/-- The code of `FsTransfer` does what `FsTransfer` does, with a registry that does not
panic. -/
theorem fsCode_codes {env : Env} {registry : σ} {store : FsStore} (hanswer : ∀ peer id m,
      Registry.hasPermission env registry peer id .read ≠ .error (.panic m)) :
    (fsCode store.hashSeq).Codes env (RingGate.fs registry store) store where
  canAccess _ id := FsCode.performs_canAccess (t := ⟨store, registry⟩) hanswer id
  transfer id := FsCode.performs_transfer (t := ⟨store, registry⟩) id

/-! ### A download

The peer asks for a blob and says which of its chunks it has. It need not have said it
in one piece: only what is on the stream in the end matters. What the export writes is
up to the store, as `exportBao`; it gets exactly the chunks that are missing, and the
stream right behind the status byte. -/

section Download

variable {env : Env} {registry : σ} {store : FsStore} {peer : EndpointId} {capacity : Option Nat}

/-- **A download of one request at a time**: the status byte, then the chunks that the
peer does not have. -/
theorem serve_download {hash : Hash} {held : ChunkRanges} {bytes : Bytes}
    (hreq : Requests bytes hash.toList .read (encodeRangesWire held))
    (hcap : capacity ≠ some 0)
    (hanswer : ∀ m, Registry.hasPermission env registry peer hash.toList .read ≠ .error (.panic m))
    (hauth : (RingGate.fs registry store).Authorized env peer hash.toList .read) :
    let sent := store.exportBao hash (Ranges.all.diff (wireRanges held))
      ((SendStream.fresh capacity).push [Status.allowed.toByte])
    let out := (RingGate.fs registry store).serve env peer ⟨bytes, false⟩ capacity
    out.2.send.written = sent.2.written ∧
      (∀ e, sent.1 = .error e → out.1 =
        .error (.err (.context "transfer failed" (.context "bao streaming failed" e)))) ∧
      (sent.1 = .ok () → sent.2.finished = false →
        out.1 = .ok () ∧ out.2.send.finished = true) := by
  intro sent out
  obtain ⟨op, hframe, hop⟩ := requests_iff_frame.mp hreq
  let handed : Exchange :=
    ⟨⟨(SendStream.fresh capacity).push [Status.allowed.toByte], ⟨encodeRangesWire held, false⟩⟩, []⟩
  -- the gate allows it and hands the streams over
  have hout : out = (RingGate.fs registry store).handOver hash.toList handed :=
    RingGate.serve_of_authorized hframe hop hanswer hauth (SendStream.fresh_accepts_one.mpr hcap)
  -- the transfer exports what is missing
  obtain ⟨unread, htransfer⟩ : ∃ unread, Transfer.transfer (RingGate.fs registry store).transfer
      hash.toList handed.toStreams =
        (sent.1.mapError (.context "bao streaming failed"), ⟨sent.2, ⟨unread, false⟩⟩) := by
    have hexport : (RingGate.fs registry store).transfer.transfer hash.toList
        ⟨handed.send, ⟨encodeRangesWire held ++ [], false⟩⟩ = _ :=
      FsTransfer.transfer_of_encodeRangesWire held []
    rw [List.append_nil] at hexport
    exact ⟨_, hexport⟩
  -- an error is passed on under `transfer failed`; otherwise the stream is finished
  cases hsent : sent.1 with
  | error e =>
      rw [hsent] at htransfer
      rw [hout, RingGate.handOver_of_error htransfer]
      exact ⟨rfl, fun e' he => by cases he; rfl, fun h => by cases h⟩
  | ok u =>
      rw [hsent] at htransfer
      rw [hout, RingGate.handOver_of_ok htransfer]
      refine ⟨?_, fun e h => (by cases h), fun _ hopen => ?_⟩
      · rw [GateM.finish_apply, SendStream.finish]
        split <;> rfl
      · rw [GateM.finish_of_open hopen]
        exact ⟨rfl, rfl⟩

/-- **Downloads get through**: a peer that may read a blob, has said which chunks it has
and finished its stream is sent the others, however its bytes came in, in every schedule
that attends to its task and does not disturb it. No chunk it lacks is left out. That the
task is attended to takes a peer that takes what it is sent, and a store that answers. -/
theorem fs_node_downloads {schedule : Nat → NodeEvent fsBacking} {s : Tasks σ fsBacking}
    {i n : Nat} {job : Job (Asks fsBacking) GateFault Unit Desk} {hash : Hash}
    {held : ChunkRanges}
    (hstart : s.jobs[i]? = some ⟨(fsCode store.hashSeq).handleRequest peer, .opened peer capacity⟩)
    (hattended : Attended (fsCode store.hashSeq) s i schedule)
    (hundisturbed : ∀ n, Undisturbed env registry store i
      (((fsCode store.hashSeq).node σ).run s (System.upTo schedule n)) (schedule n))
    (hjob : (((fsCode store.hashSeq).node σ).run s (System.upTo schedule n)).jobs[i]? = some job)
    (hended : job.locals.ended = true) (hwhole : job.locals.exchange.recv.reset = false)
    (hreq : Requests job.locals.arrived hash.toList .read (encodeRangesWire held))
    (hcap : capacity ≠ some 0)
    (hanswer : ∀ peer id m,
      Registry.hasPermission env registry peer id .read ≠ .error (.panic m))
    (hauth : Registry.hasPermission env registry peer hash.toList .read = .ok true ∨
      (RingGate.fs registry store).transfer.InAllowedCollection env peer hash.toList) :
    ∃ missing : ChunkRanges, (∀ c, held.contains c = false → missing.contains c = true) ∧
      (held.Bounded → (pairUp held.boundaries).length < 2 ^ 32 →
        ∀ c, held.contains c = true → missing.contains c = false) ∧
      let sent := store.exportBao hash missing
        ((SendStream.fresh capacity).push [Status.allowed.toByte])
      ∃ m job', n ≤ m ∧
        (((fsCode store.hashSeq).node σ).run s (System.upTo schedule m)).jobs[i]? = some job' ∧
        job'.locals.exchange.send.written = sent.2.written ∧
        (∀ e, sent.1 = .error e → job'.code.result = some
          (.error (.err (.context "transfer failed" (.context "bao streaming failed" e))))) ∧
        (sent.1 = .ok () → sent.2.finished = false → job'.code.result = some (.ok ()) ∧
          job'.locals.exchange.send.finished = true ∧ job'.locals.sent = sent.2.written) := by
  -- which chunks are missing
  obtain ⟨decoded, hdecoded, -, hcover, hexact, -⟩ := negotiation_keeps_chunks (σ := σ) held
  obtain rfl := Except.ok.inj ((readRangesWire_encodeRangesWire held).symm.trans hdecoded)
  refine ⟨Ranges.all.diff (wireRanges held), hcover,
    fun hbounded hfew => (hexact hbounded hfew).2, ?_⟩
  -- the peer is let in, also if it is the transfer that lets it in
  have hallowed : (RingGate.fs registry store).Authorized env peer hash.toList .read :=
    .inr (FsTransfer.canAccess_iff.mpr hauth)
  obtain ⟨hwritten, herror, hok⟩ := serve_download hreq hcap (hanswer peer hash.toList) hallowed
  obtain ⟨m, job', hm, hjob', hresult, hsame⟩ := node_refines_serve (fsCode_codes hanswer) hstart
    hattended hundisturbed hjob hended hwhole
  have hsend : job'.locals.exchange.send = _ := congrArg Streams.send hsame.streams
  refine ⟨m, job', hm, hjob', by rw [hsend]; exact hwritten, fun e he => ?_, fun hsent hopen => ?_⟩
  · rw [hresult]
    exact congrArg some (herror e he)
  · obtain ⟨hdone, hfinished⟩ := hok hsent hopen
    rw [hdone] at hresult
    refine ⟨hresult, hsend ▸ hfinished, (sent_of_ok hstart hjob' hresult).trans ?_⟩
    rw [hsend]
    exact hwritten

end Download

/-- Tasks with an `FsTransfer` read the registry and the store and change neither. -/
theorem fsCode_still (hashSeq : Bytes → Except AnyError (List Hash)) (peer : EndpointId) :
    ((fsCode hashSeq).handleRequest peer).Uses TaskOp.Still :=
  TransferCode.uses_still (T := fsCode hashSeq)
    (FsCode.uses_canAccess _ (fun _ _ => trivial) (fun _ _ => rfl) fun _ _ _ => rfl)
    (FsCode.uses_transfer (fun _ => trivial) fun _ _ _ _ => rfl) peer

/-- A request for the photo by a peer that has nothing of it. -/
def photoDownload : Bytes := photoRequest ++ encodeRangesWire Ranges.empty

omit [EndpointKeys] in
theorem requests_photoDownload :
    Requests photoDownload photoHash.toList .read (encodeRangesWire Ranges.empty) :=
  requests_iff.mpr ⟨by decide, rfl⟩

omit [EndpointKeys] in
/-- A member of the team, which may read the album, gets the photo. -/
theorem fs_node_downloads_album :
    letI := EndpointKeys.basePoint
    ∃ m job', 3 ≤ m ∧ (((fsCode albumStore.hashSeq).node Inner).run
        (sampleNode (fsCode albumStore.hashSeq)
          (Backend.run Inner (albumEvents EndpointId.basePoint)) albumStore EndpointId.basePoint)
        (System.upTo (sampleRest EndpointId.basePoint photoDownload) m)).jobs[0]? = some job' ∧
      job'.code.result = some (.ok ()) ∧ job'.locals.exchange.send.finished = true ∧
      job'.locals.sent = [Status.allowed.toByte, 0x2a] := by
  let inst := EndpointKeys.basePoint
  obtain ⟨missing, -, -, m, job', hm, hjob', -, -, hok⟩ := @fs_node_downloads inst Inner _
    Env.atEpoch albumRegistry albumStore EndpointId.basePoint none _ _ 0 3 _ photoHash
    Ranges.empty rfl
    (attended_sampleRest _ (Backend.run Inner (albumEvents EndpointId.basePoint)) albumStore
      EndpointId.basePoint photoDownload)
    (sampleNode_undisturbed (fsCode_still _) _ _ _ _) rfl rfl rfl requests_photoDownload nofun
    (fun peer id m h => by
      obtain ⟨b, hb⟩ := albumRegistry.hasPermission_ok Env.atEpoch peer id .read
      cases hb.symm.trans h)
    (.inr inAllowedCollection_album)
  obtain ⟨hresult, hfinished, hsent⟩ := hok rfl rfl
  exact ⟨m, job', hm, hjob', hresult, hfinished, hsent⟩

end IrohRings
