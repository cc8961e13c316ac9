import IrohRings.Protocol.NodeAlone
import IrohRings.Transfers.FsAccess

/-!
# IrohRings.Transfers.FsTasks

`FsTransfer` as the code of tasks (`src/transfers/fs.rs`). Its walk over the tags asks
the store and the registry again and again, and in between the tags, the blobs and the
memberships may all change. So who gets in through a collection is not said of one
state: the tag was listed, **then** the registry let the peer read the collection,
**then** the store had the collection with the blob in it.

Here that order is read off the code, as the turns of a task (`Access`, `Walk`).
`Transfers/FsNode.lean` turns them into moments of a run.
-/

namespace IrohRings

open Foundation

/-! ### The store of a node

The transfer asks its store for three things. The list of tags is one request: the
source streams the tags, and what is modelled is the list of items that the stream
yields. An export writes to the stream, so a task may be held up in it. -/

/-- What the transfer asks of its store. -/
inductive FsOp
  | listTags
  | getBytes (hash : Hash)
  | exportBao (hash : Hash) (ranges : ChunkRanges)

namespace FsOp

abbrev Res : FsOp → Type
  | listTags => Except AnyError (List (Except AnyError TagInfo))
  | getBytes _ => Except AnyError Bytes
  | exportBao _ _ => Except AnyError Unit

/-- Only an export writes to the stream. -/
def OffStream : FsOp → Prop
  | exportBao _ _ => False
  | _ => True

def exec : (op : FsOp) → FsStore → SendStream → op.Res × FsStore × SendStream
  | listTags, store, send => (store.listTags, store, send)
  | getBytes hash, store, send => (store.getBytes hash, store, send)
  | exportBao hash ranges, store, send =>
    let (out, send) := store.exportBao hash ranges send
    (out, store, send)

end FsOp

/-- An `FsStore` behind the tasks of a node. -/
abbrev fsBacking : Backing where
  Op := FsOp
  Res := FsOp.Res
  World := FsStore
  exec := FsOp.exec
  OffStream := FsOp.OffStream
  offStream_keeps op w send h := by
    cases op with
    | listTags | getBytes => rfl
    | exportBao => exact h.elim

variable [EndpointKeys]

/-! ### The transfer as code -/

namespace FsCode

/-- `registry.has_permission(peer, id, Permission::Read).unwrap_or(false)` -/
def mayRead (peer : EndpointId) (resourceId : Bytes) : TaskM fsBacking Bool :=
  .hasPermission peer resourceId .read

/-- `store.tags().list().await` -/
def listTags : TaskM fsBacking (Except AnyError (List (Except AnyError TagInfo))) :=
  TaskM.ask (B := fsBacking) (.own .listTags)

/-- `store.blobs().get_bytes(hash).await` -/
def getBytes (hash : Hash) : TaskM fsBacking (Except AnyError Bytes) :=
  TaskM.ask (B := fsBacking) (.own (.getBytes hash))

variable (hashSeq : Bytes → Except AnyError (List Hash))

/-- The loop over the stream of tags, which ends at the first error item. -/
def scanTags (peer : EndpointId) (hash : Hash) :
    List (Except AnyError TagInfo) → TaskM fsBacking Bool
  | .ok info :: rest =>
    if info.format ≠ .hashSeq then scanTags peer hash rest
    else do
      let granted ← mayRead peer info.hash.toList
      if ¬ granted then scanTags peer hash rest
      else
        match ← getBytes info.hash with
        | .error _ => scanTags peer hash rest
        | .ok bytes =>
          match hashSeq bytes with
          | .error _ => scanTags peer hash rest
          | .ok seq => if seq.any (· = hash) then pure true else scanTags peer hash rest
  | _ => pure false

/-- Is `hash` referenced by any collection the peer may access? -/
def isMemberOfAllowedCollection (peer : EndpointId) (hash : Hash) : TaskM fsBacking Bool := do
  match ← listTags with
  | .error _ => pure false
  | .ok items => scanTags hashSeq peer hash items

/-- `FsTransfer::can_access`. -/
def canAccess (peer : EndpointId) (resourceId : Bytes) : TaskM fsBacking Bool := do
  let granted ← mayRead peer resourceId
  if granted then pure true
  else
    match hashOfId resourceId with
    | none => pure false
    | some hash => isMemberOfAllowedCollection hashSeq peer hash

/-- `export_bao(hash, missing).write(send).await.context("bao streaming failed")` -/
def exportTo (hash : Hash) (missing : ChunkRanges) : TaskM fsBacking Unit := do
  let out ← TaskM.ask (B := fsBacking) (.own (.exportBao hash missing))
  .ofExcept (out.mapError fun e => .err (.context "bao streaming failed" e))

/-- The end of `transfer`, when it has read which chunks the peer has: send the others. -/
def sendMissing (resourceId : Bytes) (rangeCount : Nat) (rangeData : Bytes) :
    TaskM fsBacking Unit := do
  let alreadyHave ← .ofExcept ((decodeRangesWire rangeCount rangeData).mapError .err)
  let missing := Ranges.all.diff alreadyHave
  match hashOfId resourceId with
  | none =>
    .fail (.err (.context "resource_id must be 32 bytes" (.msg "could not convert slice to array")))
  | some hash => exportTo hash missing

/-- `FsTransfer::transfer`. -/
def transfer (resourceId : Bytes) : TaskM fsBacking Unit := do
  let countBuf ← TaskM.readExact "reading range count" 4
  let rangeCount := ofLe countBuf.toList
  let rangeDataLen := rangeCount * rangeEntryBytes
  if rangeDataLen > 0 then do
    let buf ← TaskM.readExact "reading ranges" rangeDataLen
    sendMissing resourceId rangeCount buf.toList
  else sendMissing resourceId rangeCount []

/-! ### What the code asks for

Asking for access writes nothing to the stream, and a transfer neither changes the
registry nor calls another transfer. That is what the gate relies on
(`TransferCode`). -/

theorem uses_mayRead {P : TaskOp fsBacking → Prop} {peer : EndpointId} {id : Bytes}
    (h : P (.hasPermission peer id .read)) : (mayRead peer id).Uses P := by
  refine (Program.uses_request h).bind fun out => ?_
  obtain (e | m) | b := out <;> trivial

/-- Asking for access asks the registry, and the store for tags and blobs. -/
theorem uses_canAccess {P : TaskOp fsBacking → Prop}
    (hask : ∀ peer id, P (.hasPermission peer id .read)) (hlist : P (.own .listTags))
    (hget : ∀ hash, P (.own (.getBytes hash))) (peer : EndpointId) (id : Bytes) :
    (canAccess hashSeq peer id).Uses P := by
  have hscan : ∀ (hash : Hash) (items : List (Except AnyError TagInfo)),
      (scanTags hashSeq peer hash items).Uses P := by
    intro hash items
    induction items with
    | nil => trivial
    | cons item items ih =>
        cases item with
        | error e => trivial
        | ok info =>
            unfold scanTags
            split
            · exact ih
            · refine Program.Uses.bind (uses_mayRead (hask _ _)) fun granted => ?_
              split
              · exact ih
              · refine Program.Uses.bind (Program.uses_request (hget _)) fun out => ?_
                obtain e | bytes := out
                · exact ih
                · dsimp only
                  split
                  · exact ih
                  · split
                    · trivial
                    · exact ih
  refine Program.Uses.bind (uses_mayRead (hask _ _)) fun granted => ?_
  split
  · trivial
  · split
    · trivial
    · refine Program.Uses.bind (Program.uses_request hlist) fun out => ?_
      obtain e | items := out
      · trivial
      · exact hscan _ items

/-- A transfer reads buffers and exports a blob. -/
theorem uses_transfer {P : TaskOp fsBacking → Prop} (hread : ∀ n, P (.readExact n))
    (hexport : ∀ hash ranges, P (.own (.exportBao hash ranges))) (id : Bytes) :
    (transfer id).Uses P := by
  have hbuffer : ∀ context n, (TaskM.readExact (B := fsBacking) context n).Uses P :=
    fun context n => (Program.uses_request (hread n)).bind fun _ => Program.uses_ofExcept
  have hrest : ∀ count data, (sendMissing id count data).Uses P := by
    refine fun count data => Program.uses_ofExcept.bind fun alreadyHave => ?_
    split
    · trivial
    · exact (Program.uses_request (hexport _ _)).bind fun _ => Program.uses_ofExcept
  refine (hbuffer _ 4).bind fun countBuf => ?_
  dsimp only
  split
  · exact (hbuffer _ _).bind fun buf => hrest _ _
  · exact hrest _ []

end FsCode

/-- The code of `FsTransfer`. How a blob is read as a list of hashes is a parameter. -/
def fsCode (hashSeq : Bytes → Except AnyError (List Hash)) : TransferCode fsBacking where
  canAccess := FsCode.canAccess hashSeq
  transfer := FsCode.transfer
  canAccess_offStream := FsCode.uses_canAccess hashSeq (fun _ _ => trivial) trivial
    fun _ => trivial
  transfer_serving := FsCode.uses_transfer (fun _ => trivial) fun _ _ => trivial

/-! ### The walk over the tags

What the loop did is in its turns: which collections it asked the registry about, and
which of them it had the store load. Each tag in front of the first error item is
passed over because it is no collection, because the peer may not read it, or because
what the store has under its hash is no collection with the blob in it; or else it is
the one that gives access, and the walk ends there. -/

namespace FsCode

variable (hashSeq : Bytes → Except AnyError (List Hash)) (peer : EndpointId)

/-- What the store has under a hash is a collection with the blob in it. -/
def Holds (hash : Hash) (out : Except AnyError Bytes) : Prop :=
  ∃ bytes seq, out = .ok bytes ∧ hashSeq bytes = .ok seq ∧ hash ∈ seq

/-- The turns of a walk over tags, **latest first**, and what it comes to. -/
inductive Walk (hash : Hash) :
    List (Except AnyError TagInfo) → Bool → List (Turn (Asks fsBacking)) → Prop
  | finished {items : List (Except AnyError TagInfo)} (hend : okPrefix items = []) :
    Walk hash items false []
  | raw {info : TagInfo} {items : List (Except AnyError TagInfo)} {found : Bool}
    {w : List (Turn (Asks fsBacking))} (hformat : info.format ≠ .hashSeq)
    (h : Walk hash items found w) : Walk hash (.ok info :: items) found w
  | denied {info : TagInfo} {items : List (Except AnyError TagInfo)} {found : Bool}
    {w : List (Turn (Asks fsBacking))} {out : Outcome Bool} (hout : out ≠ .ok true)
    (h : Walk hash items found w) :
    Walk hash (.ok info :: items) found (w ++ [⟨.hasPermission peer info.hash.toList .read, out⟩])
  | lacking {info : TagInfo} {items : List (Except AnyError TagInfo)} {found : Bool}
    {w : List (Turn (Asks fsBacking))} {out : Except AnyError Bytes}
    (hout : ¬ Holds hashSeq hash out) (h : Walk hash items found w) :
    Walk hash (.ok info :: items) found
      (w ++ [⟨.own (.getBytes info.hash), out⟩,
        ⟨.hasPermission peer info.hash.toList .read, .ok true⟩])
  | found {info : TagInfo} {items : List (Except AnyError TagInfo)} {out : Except AnyError Bytes}
    (hformat : info.format = .hashSeq) (hout : Holds hashSeq hash out) :
    Walk hash (.ok info :: items) true
      [⟨.own (.getBytes info.hash), out⟩, ⟨.hasPermission peer info.hash.toList .read, .ok true⟩]

/-- The turns of asking for access. -/
inductive Access (id : Bytes) : Bool → List (Turn (Asks fsBacking)) → Prop
  | read : Access id true [⟨.hasPermission peer id .read, .ok true⟩]
  | noHash {out : Outcome Bool} (hout : out ≠ .ok true) (hid : hashOfId id = none) :
    Access id false [⟨.hasPermission peer id .read, out⟩]
  | noTags {out : Outcome Bool} {e : AnyError} (hout : out ≠ .ok true) :
    Access id false [⟨.own .listTags, .error e⟩, ⟨.hasPermission peer id .read, out⟩]
  | walk {out : Outcome Bool} {hash : Hash} {items : List (Except AnyError TagInfo)}
    {granted : Bool} {w : List (Turn (Asks fsBacking))} (hout : out ≠ .ok true)
    (hid : hashOfId id = some hash) (hwalk : Walk hashSeq peer hash items granted w) :
    Access id granted
      (w ++ [⟨.own .listTags, .ok items⟩, ⟨.hasPermission peer id .read, out⟩])

variable {hashSeq peer}

/-- Only `Ok(true)` counts as a yes; a panic ends the task. -/
theorem wp_mayRead {id : Bytes} {tr : List (Turn (Asks fsBacking))}
    {post : List (Turn (Asks fsBacking)) → Except GateFault Bool → Prop}
    (hyes : post (⟨.hasPermission peer id .read, .ok true⟩ :: tr) (.ok true))
    (hno : ∀ out, out ≠ .ok true → post (⟨.hasPermission peer id .read, out⟩ :: tr) (.ok false))
    (hfail : ∀ tr e, post tr (.error e)) :
    Program.wp (fun _ _ => True) post (mayRead peer id) tr := by
  refine TaskM.wp_hasPermission.mpr fun out => ⟨trivial, ?_⟩
  obtain (e | m) | _ | _ := out
  · exact hno _ nofun
  · exact hfail _ _
  · exact hno _ nofun
  · exact hyes

theorem wp_listTags {tr : List (Turn (Asks fsBacking))} {post : List (Turn (Asks fsBacking)) →
      Except GateFault (Except AnyError (List (Except AnyError TagInfo))) → Prop}
    (h : ∀ out, post (⟨.own .listTags, out⟩ :: tr) (.ok out)) :
    Program.wp (fun _ _ => True) post listTags tr :=
  fun out => ⟨trivial, h out⟩

theorem wp_getBytes {hash : Hash} {tr : List (Turn (Asks fsBacking))}
    {post : List (Turn (Asks fsBacking)) → Except GateFault (Except AnyError Bytes) → Prop}
    (h : ∀ out, post (⟨.own (.getBytes hash), out⟩ :: tr) (.ok out)) :
    Program.wp (fun _ _ => True) post (getBytes hash) tr :=
  fun out => ⟨trivial, h out⟩

/-- **A walk over tags** does what `Walk` says. -/
theorem scanTags_wp {hash : Hash} (items : List (Except AnyError TagInfo))
    (tr : List (Turn (Asks fsBacking))) :
    Program.wp (fun _ _ => True)
      (fun tr' out => ∀ found, out = .ok found →
        ∃ w, tr' = w ++ tr ∧ Walk hashSeq peer hash items found w)
      (scanTags hashSeq peer hash items) tr := by
  induction items generalizing tr with
  | nil =>
      intro found hfound
      obtain rfl := Except.ok.inj hfound
      exact ⟨[], rfl, .finished rfl⟩
  | cons item items ih =>
      cases item with
      | error e =>
          intro found hfound
          obtain rfl := Except.ok.inj hfound
          exact ⟨[], rfl, .finished rfl⟩
      | ok info =>
          unfold scanTags
          split
          · rename_i hformat
            refine Program.wp_mono (ih tr) fun tr' out h found hfound => ?_
            obtain ⟨w, rfl, hwalk⟩ := h found hfound
            exact ⟨w, rfl, .raw hformat hwalk⟩
          · rename_i hformat
            refine Program.wp_bind.mpr (wp_mayRead ?_ (fun out hout => ?_) fun _ _ _ => nofun)
            · -- the peer may read the collection, which is loaded and looked through
              refine Program.wp_bind.mpr (wp_getBytes fun out => ?_)
              -- in every way to miss the blob, the walk goes on with the next tag
              have hlacking : ¬ Holds hashSeq hash out →
                  Program.wp (fun _ _ => True)
                    (fun tr' out => ∀ found, out = .ok found →
                      ∃ w, tr' = w ++ tr ∧ Walk hashSeq peer hash (.ok info :: items) found w)
                    (scanTags hashSeq peer hash items)
                    (⟨.own (.getBytes info.hash), out⟩ ::
                      ⟨.hasPermission peer info.hash.toList .read, .ok true⟩ :: tr) := by
                intro hout
                refine Program.wp_mono (ih _) fun tr' out h found hfound => ?_
                obtain ⟨w, rfl, hwalk⟩ := h found hfound
                exact ⟨_, by simp, .lacking hout hwalk⟩
              obtain e | bytes := out
              · exact hlacking fun ⟨_, _, hok, _⟩ => nomatch hok
              · show Program.wp _ _ (match hashSeq bytes with | .error _ => _ | .ok seq => _) _
                cases hseq : hashSeq bytes with
                | error e =>
                    refine hlacking fun ⟨bytes', seq, hok, hseq', _⟩ => ?_
                    obtain rfl := Except.ok.inj hok
                    cases hseq.symm.trans hseq'
                | ok seq =>
                    dsimp only
                    split
                    · rename_i hany
                      intro found hfound
                      obtain rfl := Except.ok.inj hfound
                      refine ⟨[_, _], rfl, .found (not_not.mp hformat) ⟨bytes, seq, rfl, hseq, ?_⟩⟩
                      simpa using hany
                    · rename_i hany
                      refine hlacking fun ⟨bytes', seq', hok, hseq', hmem⟩ => hany ?_
                      obtain rfl := Except.ok.inj hok
                      obtain rfl := Except.ok.inj (hseq.symm.trans hseq')
                      simpa using hmem
            · -- it may not
              refine Program.wp_mono (ih _) fun tr' out' h found hfound => ?_
              obtain ⟨w, rfl, hwalk⟩ := h found hfound
              exact ⟨_, by simp, .denied hout hwalk⟩

/-- **Asking for access** does what `Access` says. -/
theorem access_of_reaches {id : Bytes} {granted : Bool} {acc : List (Turn (Asks fsBacking))}
    (h : (canAccess hashSeq peer id).Reaches acc (.ret granted)) :
    Access hashSeq peer id granted acc := by
  have hwp : Program.wp (fun _ _ => True)
      (fun tr out => ∀ granted, out = .ok granted → Access hashSeq peer id granted tr)
      (canAccess hashSeq peer id) [] := by
    refine Program.wp_bind.mpr (wp_mayRead ?_ (fun out hout => ?_) fun _ _ _ => nofun)
    · intro granted hgranted
      obtain rfl := Except.ok.inj hgranted
      exact .read
    · show Program.wp _ _ (match hashOfId id with | none => _ | some hash => _) _
      cases hid : hashOfId id with
      | none =>
          intro granted hgranted
          obtain rfl := Except.ok.inj hgranted
          exact .noHash hout hid
      | some hash =>
          refine Program.wp_bind.mpr (wp_listTags fun items => ?_)
          obtain e | items := items
          · intro granted hgranted
            obtain rfl := Except.ok.inj hgranted
            exact .noTags hout
          · refine Program.wp_mono (scanTags_wp items _) fun tr out' h granted hgranted => ?_
            obtain ⟨w, rfl, hwalk⟩ := h granted hgranted
            exact .walk hout hid hwalk
  exact Program.wp_result hwp h rfl granted rfl

end FsCode

end IrohRings
