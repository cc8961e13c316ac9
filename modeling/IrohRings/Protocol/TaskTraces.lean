import IrohRings.Protocol.GateTrace
import IrohRings.Protocol.Tasks

/-!
# IrohRings.Protocol.TaskTraces

What a task that serves a request does, whatever it is answered (`handleRequest_wp`):
the request is read before anything is asked, the registry is asked about the
permission that was requested, the status byte says what the answers said, and the
transfer is called right after `Allowed`. A task that ends has answered and finished its
stream, or its transfer has failed, or it was cut short (`Ends`).
-/

namespace IrohRings

open Foundation

variable [EndpointKeys]

/-! ### What a trace shows -/

section Traces

variable {B : Backing}

/-- The bytes that were read, in the order they came in. -/
def bytesRead : List (Turn (Asks B)) → Bytes
  | [] => []
  | ⟨.readExact _, .ok v⟩ :: tr => bytesRead tr ++ v.toList
  | ⟨.readToEnd _, .ok data⟩ :: tr => bytesRead tr ++ data
  | _ :: tr => bytesRead tr

/-- The data of the writes that succeeded. -/
def dataWritten : List (Turn (Asks B)) → Bytes
  | [] => []
  | ⟨.writeAll data, .ok ()⟩ :: tr => dataWritten tr ++ data
  | _ :: tr => dataWritten tr

/-- Every read succeeded. -/
def Unbroken : List (Turn (Asks B)) → Prop
  | [] => True
  | ⟨.readExact _, .error _⟩ :: _ => False
  | ⟨.readToEnd _, .error _⟩ :: _ => False
  | _ :: tr => Unbroken tr

/-- The sending half was left alone, and no transfer called. -/
def Quiet (tr : List (Turn (Asks B))) : Prop := ∀ t ∈ tr, t.op.IsRead ∨ t.op.OffStream

/-- The transfer was called. -/
def Invoked (tr : List (Turn (Asks B))) : Prop := ∃ t ∈ tr, ∃ id, t.op = .invoke id

/-- What was read is a resource id and the operation byte, and nothing else was done. -/
structure RequestRead (tr : List (Turn (Asks B))) (id : Bytes) (op : UInt8) : Prop where
  frame : Frame (bytesRead tr) id op []
  unbroken : Unbroken tr
  reads : ∀ t ∈ tr, t.op.IsRead

/-- Nothing has failed, and the next `n` bytes are part of any frame that starts with
what was read. -/
structure Needs (tr : List (Turn (Asks B))) (n : Nat) : Prop where
  unbroken : Unbroken tr
  missing : ∀ more id op rest, Frame (bytesRead tr ++ more) id op rest → n ≤ more.length

/-- The request was read, and the registry granted it, or else the transfer gave
access. -/
inductive Granted (T : TransferCode B) (peer : EndpointId) (id : Bytes) (q : Permission) :
    List (Turn (Asks B)) → Prop
  | registry {tr : List (Turn (Asks B))} (hread : RequestRead tr id (encodeOperation q)) :
    Granted T peer id q (⟨.hasPermission peer id q, .ok true⟩ :: tr)
  | transfer {tr acc : List (Turn (Asks B))} {out : Outcome Bool}
    (hread : RequestRead tr id (encodeOperation q)) (hout : out ≠ .ok true)
    (hacc : (T.canAccess peer id).Reaches acc (.ret true)) :
    Granted T peer id q (acc ++ ⟨.hasPermission peer id q, out⟩ :: tr)

/-- What was read is no request, or neither did the registry grant it nor did the
transfer give access. -/
inductive Refused (T : TransferCode B) (peer : EndpointId) : List (Turn (Asks B)) → Prop
  | unknown {tr : List (Turn (Asks B))} {id : Bytes} {op : UInt8} {e : Error}
    (hread : RequestRead tr id op) (hop : parseOperation op = .error e) : Refused T peer tr
  | denied {tr acc : List (Turn (Asks B))} {id : Bytes} {q : Permission} {out : Outcome Bool}
    (hread : RequestRead tr id (encodeOperation q)) (hout : out ≠ .ok true)
    (hacc : (T.canAccess peer id).Reaches acc (.ret false)) :
    Refused T peer (acc ++ ⟨.hasPermission peer id q, out⟩ :: tr)

/-- The transfer was called for what was granted, right after `Allowed`, and this is where
it may make the request. -/
def Serves (T : TransferCode B) (peer : EndpointId) (op : TaskOp B)
    (tr : List (Turn (Asks B))) : Prop :=
  ∃ id q new decided next,
    tr = new ++ ⟨.invoke id, ()⟩ :: ⟨.writeAll [Status.allowed.toByte], .ok ()⟩ :: decided ∧
      Granted T peer id q decided ∧ (T.transfer id).Reaches new (.ask op next)

/-- The transfer was asked for access, and this is where it may make the request. -/
def Accesses (T : TransferCode B) (peer : EndpointId) (op : TaskOp B)
    (tr : List (Turn (Asks B))) : Prop :=
  ∃ id new old next, tr = new ++ old ∧ (T.canAccess peer id).Reaches new (.ask op next)

/-- When a task may do what it does: it reads no further than the request, answers with
the status byte that the answers it got call for, and calls the transfer right after
`Allowed`; everything else that touches the stream, and all that changes the registry or
what the transfer is backed by, is what the transfer does. -/
def Justified (T : TransferCode B) (peer : EndpointId) (t : Turn (Asks B))
    (tr : List (Turn (Asks B))) : Prop :=
  match t.op with
  | .readExact n => Serves T peer t.op tr ∨ Needs tr n
  | .readToEnd _ => Serves T peer t.op tr
  | .writeAll data =>
    Serves T peer t.op tr ∨ (data = [Status.denied.toByte] ∧ Refused T peer tr) ∨
      (data = [Status.allowed.toByte] ∧ ∃ id q, Granted T peer id q tr)
  | .invoke id =>
    ∃ q decided, tr = ⟨.writeAll [Status.allowed.toByte], .ok ()⟩ :: decided ∧
      Granted T peer id q decided
  | .removeRingFromResource _ | .own _ => Serves T peer t.op tr ∨ Accesses T peer t.op tr
  | _ => True

variable {T : TransferCode B} {peer : EndpointId} {id : Bytes} {q : Permission}
  {tr acc : List (Turn (Asks B))}

theorem Accesses.offStream {op : TaskOp B} (h : Accesses T peer op tr) : op.OffStream := by
  obtain ⟨id, new, old, next, -, hreach⟩ := h
  exact ((T.canAccess_offStream peer id).reaches hreach).1.1

/-- What the transfer does to give access needs no more justification. -/
theorem justified_of_accesses {t : Turn (Asks B)} (h : Accesses T peer t.op tr) :
    Justified T peer t tr := by
  obtain ⟨op, r⟩ := t
  cases op with
  | own | removeRingFromResource => exact .inr h
  | hasPermission => trivial
  | readExact | readToEnd | writeAll | finish | invoke => exact h.offStream.elim

/-- Nor does what it does once it was called. -/
theorem justified_of_serves {t : Turn (Asks B)} (h : Serves T peer t.op tr) :
    Justified T peer t tr := by
  obtain ⟨op, r⟩ := t
  have hserving : op.Serving := by
    obtain ⟨id, q, new, decided, next, -, -, hreach⟩ := h
    exact ((T.transfer_serving id).reaches hreach).1.1
  cases op with
  | readExact | writeAll | own | removeRingFromResource => exact .inl h
  | readToEnd => exact h
  | invoke id => exact hserving.elim
  | finish | hasPermission => trivial

theorem Serves.invoked {op : TaskOp B} (h : Serves T peer op tr) : Invoked tr := by
  obtain ⟨id, q, new, decided, next, rfl, -, -⟩ := h
  exact ⟨_, List.mem_append_right _ List.mem_cons_self, id, rfl⟩

theorem Invoked.append (h : Invoked tr) (new : List (Turn (Asks B))) : Invoked (new ++ tr) := by
  obtain ⟨t, ht, hop⟩ := h
  exact ⟨t, List.mem_append_right _ ht, hop⟩

/-- Reading failed, and what arrived so far will never be a frame: the bytes that were
missing were part of any, or the length announced is too much. -/
inductive ReadBroken : List (Turn (Asks B)) → Prop
  | short {n : Nat} {e : ReadFault} {tr : List (Turn (Asks B))} (hneeds : Needs tr n) :
    ReadBroken (⟨.readExact n, .error e⟩ :: tr)
  | overLong {tr : List (Turn (Asks B))} (hunbroken : Unbroken tr)
    (hnone : ∀ more id op rest, ¬ Frame (bytesRead tr ++ more) id op rest) : ReadBroken tr

/-- A task that has the request ends with an error before it has answered: the status
byte was not taken, the registry panicked, or asking the transfer for access failed. -/
inductive Broken (T : TransferCode B) (peer : EndpointId) :
    List (Turn (Asks B)) → GateFault → Prop
  | write {tr : List (Turn (Asks B))} {data : Bytes} {e : WriteFault} (hquiet : Quiet tr) :
    Broken T peer (⟨.writeAll data, .error e⟩ :: tr) (.err (.write e))
  | panic {tr : List (Turn (Asks B))} {id : Bytes} {q : Permission} {m : String}
    (hquiet : Quiet tr) :
    Broken T peer (⟨.hasPermission peer id q, .error (.panic m)⟩ :: tr) (.panic m)
  | access {tr acc : List (Turn (Asks B))} {id : Bytes} {e : GateFault} (hquiet : Quiet tr)
    (h : (T.canAccess peer id).Reaches acc (.fail e)) : Broken T peer (acc ++ tr) e

/-- What becomes of an error of the transfer. -/
def GateFault.ofTransfer : GateFault → GateFault
  | .err e => .err (.context "transfer failed" e)
  | .panic message => .panic message

/-- How a task may end: it could not read a request, or was cut short; or it refused, and
finished its stream; or it called the transfer, which returned, so that it finished its
stream, or failed. -/
inductive Ends (T : TransferCode B) (peer : EndpointId) :
    List (Turn (Asks B)) → Except GateFault Unit → Prop
  | unread {tr : List (Turn (Asks B))} {e : GateFault} (hquiet : Quiet tr)
    (hbroken : ReadBroken tr) : Ends T peer tr (.error e)
  | broken {tr : List (Turn (Asks B))} {e : GateFault} (hbroken : Broken T peer tr e) :
    Ends T peer tr (.error e)
  | denied {decided : List (Turn (Asks B))} (hrefused : Refused T peer decided)
    (out : Except WriteFault Unit) :
    Ends T peer (⟨.finish, out⟩ :: ⟨.writeAll [Status.denied.toByte], .ok ()⟩ :: decided)
      (out.mapError fun e => .err (.write e))
  | served {new decided : List (Turn (Asks B))} {id : Bytes} {q : Permission}
    (hgranted : Granted T peer id q decided) (hreach : (T.transfer id).Reaches new (.ret ()))
    (out : Except WriteFault Unit) :
    Ends T peer (⟨.finish, out⟩ ::
        (new ++ ⟨.invoke id, ()⟩ :: ⟨.writeAll [Status.allowed.toByte], .ok ()⟩ :: decided))
      (out.mapError fun e => .err (.write e))
  | failed {new decided : List (Turn (Asks B))} {id : Bytes} {q : Permission} {e : GateFault}
    (hgranted : Granted T peer id q decided) (hreach : (T.transfer id).Reaches new (.fail e)) :
    Ends T peer
      (new ++ ⟨.invoke id, ()⟩ :: ⟨.writeAll [Status.allowed.toByte], .ok ()⟩ :: decided)
      (.error e.ofTransfer)

/-! ### What was decided

Of what a task has decided, its turns know everything: the request was read from the
stream, the registry answered, and the transfer was asked or not. Until it is written,
nothing of it shows. -/

/-- Off the stream, nothing is read. -/
theorem bytesRead_offStream {new : List (Turn (Asks B))} (h : ∀ t ∈ new, t.op.OffStream) :
    bytesRead (new ++ tr) = bytesRead tr ∧ (Unbroken tr → Unbroken (new ++ tr)) := by
  induction new with
  | nil => exact ⟨rfl, id⟩
  | cons t new ih =>
      obtain ⟨hoff, hnew⟩ := List.forall_mem_cons.mp h
      obtain ⟨hbytes, hunbroken⟩ := ih hnew
      obtain ⟨op, r⟩ := t
      cases op with
      | own | hasPermission | removeRingFromResource => exact ⟨hbytes, hunbroken⟩
      | readExact | readToEnd | writeAll | finish | invoke => exact absurd hoff fun h => h

theorem RequestRead.quiet {op : UInt8} (h : RequestRead tr id op) : Quiet tr :=
  fun t ht => .inl (h.reads t ht)

/-- The transfer was asked for access, after the registry. -/
theorem quiet_access {b : Bool} {out : Outcome Bool} (htr : Quiet tr)
    (hacc : (T.canAccess peer id).Reaches acc (.ret b)) :
    Quiet (acc ++ ⟨.hasPermission peer id q, out⟩ :: tr) := by
  obtain ⟨-, hoff⟩ := (T.canAccess_offStream peer id).reaches hacc
  refine List.forall_mem_append.mpr ⟨fun t ht => .inr (hoff t ht), ?_⟩
  exact List.forall_mem_cons.mpr ⟨.inr trivial, htr⟩

theorem Granted.quiet (h : Granted T peer id q tr) : Quiet tr := by
  cases h with
  | registry hread => exact List.forall_mem_cons.mpr ⟨.inr trivial, hread.quiet⟩
  | transfer hread hout hacc => exact quiet_access hread.quiet hacc

theorem Refused.quiet (h : Refused T peer tr) : Quiet tr := by
  cases h with
  | unknown hread hop => exact hread.quiet
  | denied hread hout hacc => exact quiet_access hread.quiet hacc

omit [EndpointKeys] in
/-- A frame stays one when more comes in. -/
theorem Frame.append {bytes rest : Bytes} {op : UInt8} (h : Frame bytes id op rest)
    (more : Bytes) : Frame (bytes ++ more) id op (rest ++ more) := by
  obtain ⟨hle, rfl⟩ := h
  exact ⟨hle, by simp⟩

/-- What was read is a frame, whatever follows it. -/
theorem RequestRead.frame_rest {op : UInt8} (h : RequestRead tr id op) (rest : Bytes) :
    Frame (bytesRead tr ++ rest) id op rest :=
  h.frame.append rest

theorem RequestRead.requests (h : RequestRead tr id (encodeOperation q)) (rest : Bytes) :
    Requests (bytesRead tr ++ rest) id q rest :=
  requests_iff_frame.mpr ⟨_, h.frame_rest rest, parseOperation_encodeOperation q⟩

/-- What was granted is what was read, and nothing else was read. -/
theorem Granted.requests (h : Granted T peer id q tr) :
    Unbroken tr ∧ ∀ rest, Requests (bytesRead tr ++ rest) id q rest := by
  cases h with
  | registry hread => exact ⟨hread.unbroken, hread.requests⟩
  | transfer hread hout hacc =>
      obtain ⟨-, hoff⟩ := (T.canAccess_offStream peer id).reaches hacc
      obtain ⟨hbytes, hunbroken⟩ := bytesRead_offStream hoff
      exact ⟨hunbroken hread.unbroken, fun rest => by rw [hbytes]; exact hread.requests rest⟩

/-- A trace with a write is not quiet. -/
theorem not_quiet_of_write {data : Bytes} {out : Except WriteFault Unit}
    (h : ⟨.writeAll data, out⟩ ∈ tr) : ¬ Quiet tr := by
  intro hquiet
  obtain hread | hoff := hquiet _ h
  · exact hread
  · exact hoff

end Traces

/-! ### The steps of a task -/

section Steps

variable {B : Backing} {T : TransferCode B} {peer : EndpointId}
  {guard : Turn (Asks B) → List (Turn (Asks B)) → Prop} {tr : List (Turn (Asks B))}

namespace TaskM

theorem wp_ask {op : TaskOp B} {post : List (Turn (Asks B)) → Except GateFault op.Res → Prop} :
    Program.wp guard post (ask op) tr ↔
      ∀ r : op.Res, guard ⟨op, r⟩ tr ∧ post (⟨op, r⟩ :: tr) (.ok r) :=
  Program.wp_request

theorem wp_readExact {context : String} {n : Nat}
    {post : List (Turn (Asks B)) → Except GateFault (Vector UInt8 n) → Prop} :
    Program.wp guard post (readExact context n) tr ↔
      ∀ out : Except ReadFault (Vector UInt8 n), guard ⟨.readExact n, out⟩ tr ∧
        post (⟨.readExact n, out⟩ :: tr)
          (out.mapError fun e => .err (.context context (.read e))) := by
  unfold readExact
  rw [Program.wp_bind, wp_ask]
  exact forall_congr' fun out => and_congr_right fun _ => Program.wp_ofExcept

theorem wp_readToEnd {sizeLimit : Nat}
    {post : List (Turn (Asks B)) → Except GateFault Bytes → Prop} :
    Program.wp guard post (readToEnd sizeLimit) tr ↔
      ∀ out : Except AnyError Bytes, guard ⟨.readToEnd sizeLimit, out⟩ tr ∧
        post (⟨.readToEnd sizeLimit, out⟩ :: tr) (out.mapError .err) := by
  unfold readToEnd
  rw [Program.wp_bind, wp_ask]
  exact forall_congr' fun out => and_congr_right fun _ => Program.wp_ofExcept

theorem wp_writeAll {data : Bytes} {post : List (Turn (Asks B)) → Except GateFault Unit → Prop} :
    Program.wp guard post (writeAll data) tr ↔
      ∀ out : Except WriteFault Unit, guard ⟨.writeAll data, out⟩ tr ∧
        post (⟨.writeAll data, out⟩ :: tr) (out.mapError fun e => .err (.write e)) := by
  unfold writeAll
  rw [Program.wp_bind, wp_ask]
  exact forall_congr' fun out => and_congr_right fun _ => Program.wp_ofExcept

theorem wp_finish {post : List (Turn (Asks B)) → Except GateFault Unit → Prop} :
    Program.wp guard post finish tr ↔
      ∀ out : Except WriteFault Unit, guard ⟨.finish, out⟩ tr ∧
        post (⟨.finish, out⟩ :: tr) (out.mapError fun e => .err (.write e)) := by
  unfold finish
  rw [Program.wp_bind, wp_ask]
  exact forall_congr' fun out => and_congr_right fun _ => Program.wp_ofExcept

theorem wp_hasPermission {id : Bytes} {q : Permission}
    {post : List (Turn (Asks B)) → Except GateFault Bool → Prop} :
    Program.wp guard post (hasPermission peer id q) tr ↔
      ∀ out : Outcome Bool, guard ⟨.hasPermission peer id q, out⟩ tr ∧
        post (⟨.hasPermission peer id q, out⟩ :: tr) (match out with
          | .ok b => .ok b
          | .error (.err _) => .ok false
          | .error (.panic m) => .error (.panic m)) := by
  unfold hasPermission
  rw [Program.wp_bind, wp_ask]
  refine forall_congr' fun out => and_congr_right fun _ => ?_
  obtain (e | m) | b := out
  · rfl
  · rfl
  · rfl

end TaskM

omit [EndpointKeys] in
/-- What a frame is behind its length field. -/
theorem frame_append {lenBuf : Vector UInt8 2} {more id rest : Bytes} {op : UInt8} :
    Frame (lenBuf.toList ++ more) id op rest ↔
      ofLe lenBuf.toList ≤ maxResourceIdBytes ∧ id.length = ofLe lenBuf.toList ∧
        more = id ++ op :: rest := by
  have hround := toLe_ofLe lenBuf.toList
  rw [Vector.length_toList] at hround
  refine ⟨fun h => ?_, fun hand => ?_⟩
  · obtain ⟨hle, heq⟩ := h
    obtain ⟨hlen, hmore⟩ := List.append_inj heq (by simp)
    have hid : ofLe lenBuf.toList = id.length := by
      rw [hlen, ofLe_toLe (lt_of_le_of_lt hle (by decide))]
    exact ⟨hid ▸ hle, hid.symm, hmore⟩
  · obtain ⟨hle, hid, rfl⟩ := hand
    exact ⟨hid ▸ hle, by rw [hid, hround]⟩

namespace TransferCode

/-- **Reading a request**: the bytes read are a frame, or no frame will come. -/
theorem readRequest_wp {post : List (Turn (Asks B)) → Except GateFault (Bytes × UInt8) → Prop}
    (hread : ∀ tr id op, RequestRead tr id op → post tr (.ok (id, op)))
    (hbroken : ∀ tr e, Quiet tr → ReadBroken tr → post tr (.error e)) :
    Program.wp (Justified T peer) post readRequest [] := by
  unfold readRequest
  -- the length field
  have hneedsLen : Needs ([] : List (Turn (Asks B))) 2 := by
    refine ⟨trivial, fun more id op rest h => ?_⟩
    have hlen := congrArg List.length h.2
    simp only [bytesRead, List.nil_append, List.length_append, length_toLe] at hlen
    omega
  refine Program.wp_bind.mpr (TaskM.wp_readExact.mpr fun out => ⟨.inr hneedsLen, ?_⟩)
  cases out with
  | error e => exact hbroken _ _ (by simp [Quiet, TaskOp.IsRead]) (.short hneedsLen)
  | ok lenBuf =>
      refine Program.wp_bind.mpr (Program.wp_ofExcept.mpr ?_)
      by_cases hle : ofLe lenBuf.toList ≤ maxResourceIdBytes
      · have hparse : parseResourceIdLen lenBuf = .ok (ofLe lenBuf.toList) := if_pos hle
        rw [hparse]
        -- the resource id
        have hneedsId : Needs ([⟨.readExact 2, .ok lenBuf⟩] : List (Turn (Asks B)))
            (ofLe lenBuf.toList) := by
          refine ⟨trivial, fun more id op rest h => ?_⟩
          obtain ⟨-, hid, rfl⟩ := frame_append.mp h
          rw [List.length_append, hid]
          exact Nat.le_add_right _ _
        refine Program.wp_bind.mpr (TaskM.wp_readExact.mpr fun out => ⟨.inr hneedsId, ?_⟩)
        cases out with
        | error e => exact hbroken _ _ (by simp [Quiet, TaskOp.IsRead]) (.short hneedsId)
        | ok idBuf =>
            -- the operation byte
            have hidBuf : idBuf.toList.length = ofLe lenBuf.toList := by simp
            have hneedsOp : Needs ([⟨.readExact _, .ok idBuf⟩, ⟨.readExact 2, .ok lenBuf⟩] :
                List (Turn (Asks B))) 1 := by
              refine ⟨trivial, fun more id op rest h => ?_⟩
              simp only [bytesRead, List.nil_append, List.append_assoc] at h
              obtain ⟨-, hid, heq⟩ := frame_append.mp h
              obtain ⟨-, rfl⟩ := List.append_inj heq (hidBuf.trans hid.symm)
              exact Nat.le_add_left _ _
            refine Program.wp_bind.mpr (TaskM.wp_readExact.mpr fun out => ⟨.inr hneedsOp, ?_⟩)
            cases out with
            | error e => exact hbroken _ _ (by simp [Quiet, TaskOp.IsRead]) (.short hneedsOp)
            | ok opBuf =>
                refine hread _ _ _ ⟨?_, trivial, by simp [TaskOp.IsRead]⟩
                have hone : opBuf.toList = [opBuf[0]] := by
                  refine List.ext_getElem (by simp) fun i hi _ => ?_
                  obtain rfl : i = 0 := by simpa using hi
                  simp
                simp only [bytesRead, List.nil_append, List.append_assoc, hone]
                exact frame_append.mpr ⟨hle, hidBuf, rfl⟩
      · have hparse : parseResourceIdLen lenBuf =
            .error (RingGate.overLongError (ofLe lenBuf.toList)) := if_neg hle
        rw [hparse]
        exact hbroken _ _ (by simp [Quiet, TaskOp.IsRead]) (.overLong trivial
          fun more id op rest h => hle (frame_append.mp h).1)

/-- **Deciding**: the answer is yes if the registry granted what was requested, or the
transfer gave access. -/
theorem authorize_wp {id : Bytes} {q : Permission} (hread : RequestRead tr id (encodeOperation q))
    {post : List (Turn (Asks B)) → Except GateFault Bool → Prop}
    (hgranted : ∀ tr, Granted T peer id q tr → post tr (.ok true))
    (hrefused : ∀ tr, Refused T peer tr → post tr (.ok false))
    (hbroken : ∀ tr e, Broken T peer tr e → post tr (.error e)) :
    Program.wp (Justified T peer) post (T.authorize peer id q) tr := by
  have haccess : ∀ out : Outcome Bool, out ≠ .ok true →
      Program.wp (Justified T peer) post (T.canAccess peer id)
        (⟨.hasPermission peer id q, out⟩ :: tr) := by
    intro out hout
    refine Program.wp_of_reaches
      (fun op next r new hreach => justified_of_accesses ⟨id, new, _, next, rfl, hreach⟩)
      fun new p' res hreach hres => ?_
    cases p' with
    | ret b =>
        obtain rfl := Option.some.inj hres
        cases b with
        | true => exact hgranted _ (.transfer hread hout hreach)
        | false => exact hrefused _ (.denied hread hout hreach)
    | fail e =>
        obtain rfl := Option.some.inj hres
        exact hbroken _ _ (.access (List.forall_mem_cons.mpr ⟨.inr trivial, hread.quiet⟩) hreach)
    | ask op next => cases hres
  unfold authorize
  refine Program.wp_bind.mpr (TaskM.wp_hasPermission.mpr fun out => ⟨trivial, ?_⟩)
  obtain (e | m) | _ | _ := out
  · exact haccess _ nofun
  · exact hbroken _ _ (.panic hread.quiet)
  · exact haccess _ nofun
  · exact hgranted _ (.registry hread)

/-- **Handing over**: whatever the transfer does is justified once it was called, and the
stream is finished once it has returned. -/
theorem handOver_wp {id : Bytes} {q : Permission} (hgranted : Granted T peer id q tr) :
    Program.wp (Justified T peer) (Ends T peer) (T.handOver id)
      (⟨.writeAll [Status.allowed.toByte], .ok ()⟩ :: tr) := by
  unfold handOver
  refine Program.wp_bind.mpr (TaskM.wp_ask.mpr fun r => ⟨⟨q, tr, rfl, hgranted⟩, ?_⟩)
  refine Program.wp_bind.mpr (Program.wp_attempt.mpr ?_)
  refine Program.wp_of_reaches
    (fun op next r new hreach => justified_of_serves ⟨id, q, new, tr, next, rfl, hgranted, hreach⟩)
    fun new p' res hreach hres => ?_
  cases p' with
  | ret u =>
      obtain rfl := Option.some.inj hres
      exact TaskM.wp_finish.mpr fun out => ⟨trivial, .served hgranted hreach out⟩
  | fail e =>
      obtain rfl := Option.some.inj hres
      cases e with
      | err e => exact Ends.failed hgranted hreach
      | panic m => exact Ends.failed hgranted hreach
  | ask op next => cases hres

/-- **What a task does**, whatever it is answered: each of its turns is justified by
those before it, and it ends as a task may. -/
theorem handleRequest_wp (T : TransferCode B) (peer : EndpointId) :
    Program.wp (Justified T peer) (Ends T peer) (T.handleRequest peer) [] := by
  have hdeny : ∀ tr, Refused T peer tr →
      Program.wp (Justified T peer) (Ends T peer) deny tr := by
    intro tr hrefused
    refine Program.wp_bind.mpr (TaskM.wp_writeAll.mpr fun out =>
      ⟨.inr (.inl ⟨rfl, hrefused⟩), ?_⟩)
    cases out with
    | error e => exact Ends.broken (.write hrefused.quiet)
    | ok u => exact TaskM.wp_finish.mpr fun out => ⟨trivial, .denied hrefused out⟩
  unfold handleRequest
  refine Program.wp_bind.mpr (readRequest_wp (fun tr id op hread => ?_)
    fun tr e hquiet hbroken => Ends.unread hquiet hbroken)
  unfold Program.thenPost
  dsimp only
  cases hop : parseOperation op with
  | error e => exact hdeny tr (.unknown hread hop)
  | ok q =>
      obtain rfl := parseOperation_eq_ok.mp hop
      refine Program.wp_bind.mpr (authorize_wp hread (fun tr hgranted => ?_)
        (fun tr hrefused => hdeny tr hrefused) fun tr e hbroken => Ends.broken hbroken)
      refine Program.wp_bind.mpr (TaskM.wp_writeAll.mpr fun out =>
        ⟨.inr (.inr ⟨rfl, id, q, hgranted⟩), ?_⟩)
      cases out with
      | error e => exact Ends.broken (.write hgranted.quiet)
      | ok u => exact handOver_wp hgranted

end TransferCode

end Steps

end IrohRings
