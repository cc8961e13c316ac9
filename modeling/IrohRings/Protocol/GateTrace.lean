import IrohRings.Protocol.Gate
import IrohRings.Backends.MemoryReads

/-!
# IrohRings.Protocol.GateTrace

What the gate does with a stream, whatever comes in on it, whatever the registry
and the transfer answer, and wherever a write fails (`gate_decisionTrace`).

The reading half is settled first: a stream either starts with a frame — a length
of at most 256, as many bytes, an operation byte — and is left right behind it,
or reading fails and nothing was written (`readRequest_of_frame`,
`readRequest_of_no_frame`).
-/

namespace IrohRings

open Foundation

/-- The stream starts with a resource id of admissible length and a byte where
the operation is expected. -/
def Frame (bytes id : Bytes) (op : UInt8) (rest : Bytes) : Prop :=
  id.length ≤ maxResourceIdBytes ∧ bytes = toLe 2 id.length ++ (id ++ op :: rest)

/-- A request is a frame whose operation byte stands for a permission. -/
theorem requests_iff_frame {bytes id rest : Bytes} {q : Permission} :
    Requests bytes id q rest ↔ ∃ op, Frame bytes id op rest ∧ parseOperation op = .ok q := by
  rw [requests_iff]
  constructor
  · exact fun h => ⟨_, h, parseOperation_encodeOperation q⟩
  · intro hex
    rcases hex with ⟨op, h, hop⟩
    rw [parseOperation_eq_ok.mp hop] at h
    exact h

/-- A stream starts with one frame at most. -/
theorem Frame.unique {bytes id id' rest rest' : Bytes} {op op' : UInt8}
    (h : Frame bytes id op rest) (h' : Frame bytes id' op' rest') :
    id = id' ∧ op = op' ∧ rest = rest' := by
  obtain ⟨hle, rfl⟩ := h
  obtain ⟨hle', heq⟩ := h'
  obtain ⟨hlen, htail⟩ := List.append_inj heq (by simp)
  have hbound : ∀ {n}, n ≤ maxResourceIdBytes → n < 256 ^ 2 := fun h =>
    lt_of_le_of_lt h (by decide)
  have hsame : id.length = id'.length := by
    rw [← ofLe_toLe (hbound hle), hlen, ofLe_toLe (hbound hle')]
  obtain ⟨rfl, hrest⟩ := List.append_inj htail hsame
  exact ⟨rfl, List.cons.inj hrest⟩

/-- A stream starts with one request at most. -/
theorem Requests.unique {bytes id id' rest rest' : Bytes} {q q' : Permission}
    (h : Requests bytes id q rest) (h' : Requests bytes id' q' rest') :
    id = id' ∧ q = q' ∧ rest = rest' := by
  obtain ⟨op, hframe, hop⟩ := requests_iff_frame.mp h
  obtain ⟨op', hframe', hop'⟩ := requests_iff_frame.mp h'
  obtain ⟨rfl, rfl, rfl⟩ := hframe.unique hframe'
  exact ⟨rfl, Except.ok.inj (hop.symm.trans hop'), rfl⟩

/-- The exchange with other bytes left to read. -/
def Exchange.unread (x : Exchange) (bytes : Bytes) : Exchange :=
  { x with recv := { x.recv with bytes } }

/-! ### Running computations

One lemma for each effect and each way it can go, so that a run of the gate is a chain
of rewrites: a read that has its bytes or is short of them, a write that is taken or is
not. -/

namespace GateM

variable {s : Exchange}

theorem readExact_apply (context : String) (n : Nat) (s : Exchange) :
    ofStream (.readExact context n) s =
      (((s.recv.readExact n).1.mapError fun e => .context context (.read e)).mapError .err,
        { s with recv := (s.recv.readExact n).2 }) := rfl

theorem writeAll_apply (data : Bytes) (s : Exchange) :
    ofStream (.writeAll data) s =
      (((s.send.writeAll data).1.mapError .write).mapError .err,
        { s with send := (s.send.writeAll data).2 }) := rfl

theorem finish_apply (s : Exchange) :
    ofStream .finish s =
      ((s.send.finish.1.mapError .write).mapError .err,
        { s with send := s.send.finish.2 }) := rfl

theorem invoke_apply [EndpointKeys] {τ : Type} [Transfer τ] (transfer : τ) (id : Bytes)
    (s : Exchange) :
    invoke transfer id s = (.ok (Transfer.transfer transfer id s.toStreams).1,
      ⟨(Transfer.transfer transfer id s.toStreams).2,
        s.transfers ++ [(id, s.toStreams)]⟩) := rfl

theorem readExact_of {context : String} {n : Nat} {v : Vector UInt8 n} {rest : Bytes}
    (h : s.recv.bytes = v.toList ++ rest) :
    ofStream (.readExact context n) s = (.ok v, s.unread rest) := by
  have hread : s.recv.readExact n = (.ok v, { s.recv with bytes := rest }) := by
    have := RecvStream.readExact_append v rest s.recv.reset
    rwa [← h] at this
  rw [readExact_apply, hread]
  rfl

theorem readExact_cases (context : String) (n : Nat) (s : Exchange) :
    (∃ (v : Vector UInt8 n) (rest : Bytes), s.recv.bytes = v.toList ++ rest) ∨
    (s.recv.bytes.length < n ∧ ∃ fault, ofStream (.readExact context n) s =
      (.error (.err (.context context (.read fault))), s.unread [])) := by
  obtain ⟨v, rest, h, -⟩ | ⟨hshort, fault, h⟩ := s.recv.readExact_cases n
  · exact .inl ⟨v, rest, h⟩
  · refine .inr ⟨hshort, fault, ?_⟩
    rw [readExact_apply, h]
    rfl

/-- Writing a byte that is taken. -/
theorem writeAll_of_accepts {b : UInt8} (h : s.send.Accepts 1) :
    ofStream (.writeAll [b]) s = (.ok (), { s with send := s.send.push [b] }) := by
  rw [writeAll_apply, SendStream.writeAll_of_accepts (by simpa using h)]
  rfl

/-- Writing a byte that is not taken. -/
theorem writeAll_of_not_accepts {b : UInt8} (h : ¬ s.send.Accepts 1) :
    ∃ e send, ofStream (.writeAll [b]) s = (.error (.err e), { s with send }) ∧
      send.written = s.send.written := by
  obtain ⟨e, send, heq, hwritten⟩ := SendStream.writeAll_singleton_of_not_accepts (b := b) h
  refine ⟨.write e, send, ?_, hwritten⟩
  rw [writeAll_apply, heq]
  rfl

theorem finish_of_open (h : s.send.finished = false) :
    ofStream .finish s = (.ok (), { s with send := { s.send with finished := true } }) := by
  rw [finish_apply, SendStream.finish_of_open h]
  rfl

/-- What `unwrap_or(false)` makes of an answer that is no panic. -/
theorem unwrapOrFalse_of_answer {out : Outcome Bool} (h : ∀ m, out ≠ .error (.panic m)) :
    ∃ b, unwrapOrFalse out = pure b ∧ (b = true ↔ out = .ok true) := by
  obtain (e | m) | b := out
  · exact ⟨false, rfl, by simp⟩
  · exact absurd rfl (h m)
  · exact ⟨b, rfl, by simp⟩

end GateM

/-! ### Reading a request

The three reads either get a whole frame, and then the stream is right behind it, or one
of them fails. In the second case no extension of what was read matters: the stream is
short, or its length field is out of range. -/

namespace RingGate

/-- A frame is read, and the stream is left right behind it. -/
theorem readRequest_of_frame {s : Exchange} {id rest : Bytes} {op : UInt8}
    (h : Frame s.recv.bytes id op rest) :
    readRequest s = (.ok (id, op), s.unread rest) := by
  obtain ⟨hle, hbytes⟩ := h
  obtain ⟨lenBuf, hlen⟩ := exists_vector (length_toLe 2 id.length)
  have hparse : parseResourceIdLen lenBuf = .ok id.length := by
    rw [parseResourceIdLen, hlen, ofLe_toLe (lt_of_le_of_lt hle (by decide)), if_pos hle]
  obtain ⟨idBuf, hid⟩ := exists_vector (n := id.length) (l := id) rfl
  let opBuf : Vector UInt8 1 := ⟨#[op], rfl⟩
  unfold readRequest
  rw [bind_of_ok (GateM.readExact_of (v := lenBuf) (by rw [hlen, ← hbytes]))]
  rw [bind_of_ok (a := id.length) (by rw [hparse]; rfl)]
  rw [bind_of_ok (GateM.readExact_of (v := idBuf) (by rw [hid]; rfl))]
  rw [bind_of_ok (GateM.readExact_of (show _ = opBuf.toList ++ rest from rfl))]
  rw [hid]
  rfl

/-- The stream ends within the length field, or before the resource id and the
operation byte that an admissible length announces. -/
def Truncated (bytes : Bytes) : Prop :=
  bytes.length < 2 ∨
    (ofLe (bytes.take 2) ≤ maxResourceIdBytes ∧ bytes.length < 2 + ofLe (bytes.take 2) + 1)

/-- The length field announces a resource id that is too long. -/
def OverLong (bytes : Bytes) : Prop :=
  2 ≤ bytes.length ∧ maxResourceIdBytes < ofLe (bytes.take 2)

/-- The error of `parseResourceIdLen`. -/
def overLongError (len : Nat) : AnyError :=
  .msg s!"resource id length {len} exceeds maximum {maxResourceIdBytes}"

/-- What the length field announces is there, or it is not, or it is too much. -/
theorem readRequest_cases (s : Exchange) :
    (∃ id op rest, Frame s.recv.bytes id op rest) ∨
    (Truncated s.recv.bytes ∧ ∃ context fault,
      readRequest s = (.error (.err (.context context (.read fault))), s.unread [])) ∨
    (OverLong s.recv.bytes ∧ readRequest s =
      (.error (.err (overLongError (ofLe (s.recv.bytes.take 2)))),
        s.unread (s.recv.bytes.drop 2))) := by
  unfold readRequest
  obtain ⟨lenBuf, tail, hlen⟩ | ⟨hshort, fault, he⟩ :=
    GateM.readExact_cases "reading resource_id length" 2 s
  · rw [bind_of_ok (GateM.readExact_of hlen)]
    have hwidth : lenBuf.toList.length = 2 := Vector.length_toList
    have htake : s.recv.bytes.take 2 = lenBuf.toList := by rw [hlen, List.take_left' hwidth]
    have hdrop : s.recv.bytes.drop 2 = tail := by rw [hlen, List.drop_left' hwidth]
    have hlength : s.recv.bytes.length = 2 + tail.length := by
      rw [hlen, List.length_append, hwidth]
    by_cases hle : ofLe lenBuf.toList ≤ maxResourceIdBytes
    · have hparse : parseResourceIdLen lenBuf = .ok (ofLe lenBuf.toList) := if_pos hle
      rw [bind_of_ok (a := ofLe lenBuf.toList) (by rw [hparse]; rfl)]
      obtain ⟨idBuf, tail', hid⟩ | ⟨hshort, fault, he⟩ :=
        GateM.readExact_cases "reading resource_id" (ofLe lenBuf.toList) (s.unread tail)
      · change tail = _ at hid
        rw [bind_of_ok (GateM.readExact_of hid)]
        obtain ⟨opBuf, rest, hop⟩ | ⟨hshort, fault, he⟩ := GateM.readExact_cases
          "reading operation byte" 1 ((s.unread tail).unread tail')
        · -- all three reads succeed on a frame only
          refine .inl ⟨idBuf.toList, opBuf[0], rest, by simpa using hle, ?_⟩
          have hone : opBuf.toList = [opBuf[0]] := by
            refine List.ext_getElem (by simp) fun i hi _ => ?_
            obtain rfl : i = 0 := by simpa using hi
            simp
          have hround := toLe_ofLe lenBuf.toList
          rw [hwidth] at hround
          change tail' = _ at hop
          rw [hlen, Vector.length_toList, hround, hid, hop, hone]
          rfl
        · refine .inr (.inl ⟨.inr ⟨htake ▸ hle, ?_⟩, _, fault, by rw [bind_of_error he]; rfl⟩)
          change tail'.length < 1 at hshort
          rw [hlength, htake, hid, List.length_append, Vector.length_toList]
          omega
      · refine .inr (.inl ⟨.inr ⟨htake ▸ hle, ?_⟩, _, fault, by rw [bind_of_error he]; rfl⟩)
        change tail.length < _ at hshort
        rw [hlength, htake]
        omega
    · refine .inr (.inr ⟨⟨by omega, by rw [htake]; exact not_le.mp hle⟩, ?_⟩)
      have hparse : parseResourceIdLen lenBuf = .error (overLongError (ofLe lenBuf.toList)) :=
        if_neg hle
      rw [htake, hdrop, hparse]
      rfl
  · exact .inr (.inl ⟨.inl hshort, _, fault, by rw [bind_of_error he]⟩)

/-- Without a frame reading fails, and nothing was written. -/
theorem readRequest_of_no_frame {s : Exchange}
    (h : ∀ id op rest, ¬ Frame s.recv.bytes id op rest) :
    ∃ e bytes, readRequest s = (.error (.err e), s.unread bytes) := by
  obtain ⟨id, op, rest, hframe⟩ | ⟨-, context, fault, heq⟩ | ⟨-, heq⟩ := readRequest_cases s
  · exact absurd hframe (h id op rest)
  · exact ⟨_, [], heq⟩
  · exact ⟨_, _, heq⟩

/-! ### Deciding

Between the frame and the transfer the gate does three things: it reads the operation
byte, it asks the registry and, if need be, the transfer, and it writes the status byte.
A write of one byte is taken, or nothing of it is. -/

/-- The denied byte is sent and the stream finished. -/
theorem deny_of_accepts {s : Exchange} (h : s.send.Accepts 1) :
    deny s = (.ok (), { s with
      send := { s.send.push [Status.denied.toByte] with finished := true } }) := by
  unfold deny
  rw [bind_of_ok (GateM.writeAll_of_accepts h), GateM.finish_of_open (by simpa using h.1)]

/-- The denied byte is not taken: nothing is written. -/
theorem deny_of_not_accepts {s : Exchange} (h : ¬ s.send.Accepts 1) :
    ∃ e send, deny s = (.error (.err e), { s with send }) ∧ send.written = s.send.written := by
  obtain ⟨e, send, heq, hwritten⟩ :=
    GateM.writeAll_of_not_accepts (b := Status.denied.toByte) h
  exact ⟨e, send, bind_of_error heq, hwritten⟩

variable [EndpointKeys] {σ τ : Type} [Registry σ] [Transfer τ] {env : Env}
  {gate : RingGate σ τ} {peer : EndpointId} {s : Exchange} {id rest : Bytes} {op : UInt8}
  {q : Permission}

/-- Either way to get access: the registry grants the permission, or the
transfer vouches for the peer. -/
def Authorized (env : Env) (gate : RingGate σ τ) (peer : EndpointId) (id : Bytes)
    (q : Permission) : Prop :=
  Registry.hasPermission env gate.registry peer id q = .ok true ∨
    Transfer.canAccess env gate.transfer peer id = true

theorem handleRequest_of_no_frame (env : Env) (gate : RingGate σ τ) (peer : EndpointId)
    (h : ∀ id op rest, ¬ Frame s.recv.bytes id op rest) :
    ∃ e bytes, gate.handleRequest env peer s = (.error (.err e), s.unread bytes) := by
  obtain ⟨e, bytes, heq⟩ := readRequest_of_no_frame h
  exact ⟨e, bytes, bind_of_error heq⟩

theorem handleRequest_of_unknown (h : Frame s.recv.bytes id op rest) {e : Error}
    (hop : parseOperation op = .error e) :
    gate.handleRequest env peer s = deny (s.unread rest) := by
  unfold handleRequest
  rw [bind_of_ok (readRequest_of_frame h)]
  simp only [hop]

theorem handleRequest_of_unauthorized (h : Frame s.recv.bytes id op rest)
    (hop : parseOperation op = .ok q)
    (hanswer : ∀ m, Registry.hasPermission env gate.registry peer id q ≠ .error (.panic m))
    (hauth : ¬ gate.Authorized env peer id q) :
    gate.handleRequest env peer s = deny (s.unread rest) := by
  obtain ⟨b, hb, hiff⟩ := GateM.unwrapOrFalse_of_answer hanswer
  have hallowed : (b || Transfer.canAccess env gate.transfer peer id) = false := by
    rw [← Bool.not_eq_true, Bool.or_eq_true, hiff]
    exact hauth
  unfold handleRequest
  rw [bind_of_ok (readRequest_of_frame h)]
  simp only [hop]
  rw [bind_of_ok (a := b) (by rw [hb]; rfl), if_pos (by simp [hallowed])]

/-- Hand the streams to the transfer, and report what it reports. -/
def handOver (gate : RingGate σ τ) (id : Bytes) : GateM Unit := do
  match ← GateM.invoke gate.transfer id with
  | .ok () => .ofStream .finish
  | .error e => throw (.err (.context "transfer failed" e))

theorem handleRequest_of_authorized (h : Frame s.recv.bytes id op rest)
    (hop : parseOperation op = .ok q)
    (hanswer : ∀ m, Registry.hasPermission env gate.registry peer id q ≠ .error (.panic m))
    (hauth : gate.Authorized env peer id q) :
    gate.handleRequest env peer s =
      (GateM.ofStream (.writeAll [Status.allowed.toByte]) >>= fun _ => gate.handOver id)
        (s.unread rest) := by
  obtain ⟨b, hb, hiff⟩ := GateM.unwrapOrFalse_of_answer hanswer
  have hallowed : (b || Transfer.canAccess env gate.transfer peer id) = true := by
    rw [Bool.or_eq_true, hiff]
    exact hauth
  unfold handleRequest
  rw [bind_of_ok (readRequest_of_frame h)]
  simp only [hop]
  rw [bind_of_ok (a := b) (by rw [hb]; rfl), if_neg (by simp [hallowed])]
  rfl

/-- Served on a stream that takes the status byte, the transfer gets it right behind it. -/
theorem serve_of_authorized {bytes : Bytes} {reset : Bool} {capacity : Option Nat}
    (h : Frame bytes id op rest) (hop : parseOperation op = .ok q)
    (hanswer : ∀ m, Registry.hasPermission env gate.registry peer id q ≠ .error (.panic m))
    (hauth : gate.Authorized env peer id q) (hone : (SendStream.fresh capacity).Accepts 1) :
    gate.serve env peer ⟨bytes, reset⟩ capacity = gate.handOver id
      ⟨⟨(SendStream.fresh capacity).push [Status.allowed.toByte], ⟨rest, reset⟩⟩, []⟩ := by
  unfold serve
  rw [handleRequest_of_authorized h hop hanswer hauth]
  exact bind_of_ok (GateM.writeAll_of_accepts hone)

section HandOver

omit [Registry σ]

variable {streams : Streams}

/-- A transfer that returns has its stream finished. -/
theorem handOver_of_ok (h : Transfer.transfer gate.transfer id s.toStreams = (.ok (), streams)) :
    gate.handOver id s = GateM.ofStream .finish ⟨streams, s.transfers ++ [(id, s.toStreams)]⟩ := by
  have hinvoke : GateM.invoke gate.transfer id s =
      (.ok (.ok ()), ⟨streams, s.transfers ++ [(id, s.toStreams)]⟩) := by
    rw [GateM.invoke_apply, h]
  unfold handOver
  rw [bind_of_ok hinvoke]

/-- A transfer that fails has its failure reported. -/
theorem handOver_of_error {e : AnyError}
    (h : Transfer.transfer gate.transfer id s.toStreams = (.error e, streams)) :
    gate.handOver id s = (.error (.err (.context "transfer failed" e)),
      ⟨streams, s.transfers ++ [(id, s.toStreams)]⟩) := by
  have hinvoke : GateM.invoke gate.transfer id s =
      (.ok (.error e), ⟨streams, s.transfers ++ [(id, s.toStreams)]⟩) := by
    rw [GateM.invoke_apply, h]
  unfold handOver
  rw [bind_of_ok hinvoke]
  rfl

/-- The transfer is invoked once, and the gate writes nothing after it. -/
theorem handOver_spec (gate : RingGate σ τ) (id : Bytes) (s : Exchange) :
    let out := gate.handOver id s
    let inner := Transfer.transfer gate.transfer id s.toStreams
    out.2.transfers = s.transfers ++ [(id, s.toStreams)] ∧
      out.2.send.written = inner.2.send.written ∧
      ∀ e, inner.1 = .error e → out.1 = .error (.err (.context "transfer failed" e)) := by
  intro out inner
  cases hinner : Transfer.transfer gate.transfer id s.toStreams with
  | mk res streams =>
      cases res with
      | error e =>
          rw [show out = _ from handOver_of_error hinner, show inner = _ from hinner]
          exact ⟨rfl, rfl, fun e' he => by cases he; rfl⟩
      | ok u =>
          rw [show out = _ from handOver_of_ok hinner, show inner = _ from hinner,
            GateM.finish_apply, SendStream.finish]
          split <;> exact ⟨rfl, rfl, fun e he => by cases he⟩

end HandOver

/-! ### The trace of a request -/

/-- What the gate may do with the stream `recv`, sending into a stream that takes
`capacity` bytes. -/
structure DecisionTrace (env : Env) (gate : RingGate σ τ) (peer : EndpointId)
    (recv : RecvStream) (capacity : Option Nat) (out : Except GateFault Unit × Exchange) :
    Prop where
  once : out.2.transfers.length ≤ 1
  /-- The transfer is invoked for an authorized request only, after the allowed
  byte and nothing else. -/
  invoked : ∀ id streams, (id, streams) ∈ out.2.transfers →
    ∃ q rest, Requests recv.bytes id q rest ∧ gate.Authorized env peer id q ∧
      streams.send.written = [Status.allowed.toByte]
  /-- An authorized request gets there, with the stream right behind it. -/
  authorized : ∀ id q rest, Requests recv.bytes id q rest → gate.Authorized env peer id q →
    capacity ≠ some 0 →
    ∃ streams, out.2.transfers = [(id, streams)] ∧ streams.recv = { recv with bytes := rest }
  /-- Anything else is not handed over, and sees the denied byte at most. -/
  refused : (∀ id q rest, Requests recv.bytes id q rest → ¬ gate.Authorized env peer id q) →
    out.2.transfers = [] ∧
      (out.2.send.written = [] ∨ out.2.send.written = [Status.denied.toByte])
  /-- A request that is not authorized is told so, and the stream is finished. -/
  denied : ∀ id q rest, Requests recv.bytes id q rest → ¬ gate.Authorized env peer id q →
    capacity ≠ some 0 →
    out.1 = .ok () ∧ out.2.send.written = [Status.denied.toByte] ∧
      out.2.send.finished = true
  /-- Where not even the status byte is taken, nothing is handed over. -/
  writeFails : capacity = some 0 → out.2.transfers = [] ∧ out.2.send.written = []
  /-- The gate writes nothing after the transfer, and reports its failure. -/
  reported : ∀ id streams, (id, streams) ∈ out.2.transfers →
    out.2.send.written = (Transfer.transfer gate.transfer id streams).2.send.written ∧
      ∀ e, (Transfer.transfer gate.transfer id streams).1 = .error e →
        out.1 = .error (.err (.context "transfer failed" e))

variable {recv : RecvStream} {capacity : Option Nat} {out : Except GateFault Unit × Exchange}

/-- A course without a transfer. -/
theorem DecisionTrace.of_quiet (hlog : out.2.transfers = [])
    (hauth : ∀ id q rest, Requests recv.bytes id q rest → ¬ gate.Authorized env peer id q)
    (hwritten : out.2.send.written = [] ∨
      capacity ≠ some 0 ∧ out.2.send.written = [Status.denied.toByte])
    (hdenied : ∀ id q rest, Requests recv.bytes id q rest → capacity ≠ some 0 →
      out.1 = .ok () ∧ out.2.send.written = [Status.denied.toByte] ∧
        out.2.send.finished = true) :
    DecisionTrace env gate peer recv capacity out where
  once := by simp [hlog]
  invoked id streams h := by simp [hlog] at h
  authorized id q rest hreq ha := absurd ha (hauth id q rest hreq)
  refused _ := ⟨hlog, hwritten.imp_right And.right⟩
  denied id q rest hreq _ := hdenied id q rest hreq
  writeFails hzero := ⟨hlog, hwritten.resolve_right fun h => h.1 hzero⟩
  reported id streams h := by simp [hlog] at h

/-- A refused request. -/
theorem DecisionTrace.of_deny {rest : Bytes}
    (hout : out = deny ⟨⟨.fresh capacity, { recv with bytes := rest }⟩, []⟩)
    (hauth : ∀ id q rest, Requests recv.bytes id q rest → ¬ gate.Authorized env peer id q) :
    DecisionTrace env gate peer recv capacity out := by
  by_cases hcap : capacity = some 0
  · obtain ⟨e, send, heq, hwritten⟩ := deny_of_not_accepts
      (s := ⟨⟨.fresh capacity, { recv with bytes := rest }⟩, []⟩)
      (mt SendStream.fresh_accepts_one.mp (not_not.mpr hcap))
    rw [heq] at hout
    subst hout
    exact .of_quiet rfl hauth (.inl hwritten) fun _ _ _ _ hne => absurd hcap hne
  · rw [deny_of_accepts (SendStream.fresh_accepts_one.mpr hcap)] at hout
    subst hout
    exact .of_quiet rfl hauth (.inr ⟨hcap, rfl⟩) fun _ _ _ _ _ => ⟨rfl, rfl, rfl⟩

/-- A granted request: the allowed byte, then the transfer. -/
theorem DecisionTrace.of_handOver (hreq : Requests recv.bytes id q rest)
    (hauth : gate.Authorized env peer id q)
    (hout : out = (GateM.ofStream (.writeAll [Status.allowed.toByte]) >>= fun _ => gate.handOver id)
      ⟨⟨.fresh capacity, { recv with bytes := rest }⟩, []⟩) :
    DecisionTrace env gate peer recv capacity out := by
  by_cases hcap : capacity = some 0
  · obtain ⟨e, send, heq, hwritten⟩ := GateM.writeAll_of_not_accepts
      (s := ⟨⟨.fresh capacity, { recv with bytes := rest }⟩, []⟩) (b := Status.allowed.toByte)
      (mt SendStream.fresh_accepts_one.mp (not_not.mpr hcap))
    rw [bind_of_error heq] at hout
    subst hout
    exact {
      once := Nat.zero_le _
      invoked := nofun
      authorized := fun _ _ _ _ _ hne => absurd hcap hne
      refused := fun hnone => absurd hauth (hnone id q rest hreq)
      denied := fun _ _ _ _ _ hne => absurd hcap hne
      writeFails := fun _ => ⟨rfl, hwritten⟩
      reported := nofun }
  · rw [bind_of_ok
      (GateM.writeAll_of_accepts (SendStream.fresh_accepts_one.mpr hcap))] at hout
    -- the status byte is out, and the transfer runs on what follows the request
    obtain ⟨hlog, hwritten, hfailed⟩ := gate.handOver_spec id
      ⟨⟨(SendStream.fresh capacity).push [Status.allowed.toByte], { recv with bytes := rest }⟩,
        []⟩
    rw [← hout] at hlog hwritten hfailed
    exact {
      once := by rw [hlog]; rfl
      invoked := fun id' streams h => by
        rw [hlog] at h
        obtain ⟨rfl, rfl⟩ := Prod.mk.inj (List.mem_singleton.mp h)
        exact ⟨q, rest, hreq, hauth, rfl⟩
      authorized := fun id' q' rest' hreq' _ _ => by
        obtain ⟨rfl, rfl, rfl⟩ := hreq.unique hreq'
        exact ⟨_, hlog, rfl⟩
      refused := fun hnone => absurd hauth (hnone id q rest hreq)
      denied := fun id' q' rest' hreq' hnot => by
        obtain ⟨rfl, rfl, rfl⟩ := hreq.unique hreq'
        exact absurd hauth hnot
      writeFails := fun hzero => absurd hzero hcap
      reported := fun id' streams h => by
        rw [hlog] at h
        obtain ⟨rfl, rfl⟩ := Prod.mk.inj (List.mem_singleton.mp h)
        exact ⟨hwritten, hfailed⟩ }

/-- A stream that starts with a request. -/
theorem decisionTrace_of_request (hreq : Requests recv.bytes id q rest)
    (hanswer : ∀ m, Registry.hasPermission env gate.registry peer id q ≠ .error (.panic m)) :
    DecisionTrace env gate peer recv capacity (gate.serve env peer recv capacity) := by
  obtain ⟨op, hframe, hop⟩ := requests_iff_frame.mp hreq
  by_cases hauth : gate.Authorized env peer id q
  · exact .of_handOver hreq hauth (handleRequest_of_authorized hframe hop hanswer hauth)
  · refine .of_deny (handleRequest_of_unauthorized hframe hop hanswer hauth)
      fun id' q' rest' hreq' => ?_
    obtain ⟨rfl, rfl, rfl⟩ := hreq.unique hreq'
    exact hauth

/-- A stream that does not. -/
theorem decisionTrace_of_malformed (hnone : ∀ id q rest, ¬ Requests recv.bytes id q rest) :
    DecisionTrace env gate peer recv capacity (gate.serve env peer recv capacity) := by
  have hrefuse : ∀ id q rest, Requests recv.bytes id q rest →
      ¬ gate.Authorized env peer id q := fun id q rest hreq => absurd hreq (hnone id q rest)
  by_cases hframe : ∃ id op rest, Frame recv.bytes id op rest
  · -- a frame that is no request has an unknown operation byte
    obtain ⟨id, op, rest, hframe⟩ := hframe
    cases hop : parseOperation op with
    | error e => exact .of_deny (handleRequest_of_unknown hframe hop) hrefuse
    | ok q => exact absurd (requests_iff_frame.mpr ⟨op, hframe, hop⟩) (hnone id q rest)
  · obtain ⟨e, bytes, heq⟩ := handleRequest_of_no_frame env gate peer
      (s := ⟨⟨.fresh capacity, recv⟩, []⟩) fun id op rest h => hframe ⟨id, op, rest, h⟩
    rw [serve, heq]
    exact .of_quiet rfl hrefuse (.inl rfl)
      fun id q rest hreq => absurd hreq (hnone id q rest)

/-- A request gets a transfer exactly if it is authorized and told so. -/
theorem transfers_ne_nil_iff (hreq : Requests recv.bytes id q rest)
    (hanswer : ∀ m, Registry.hasPermission env gate.registry peer id q ≠ .error (.panic m)) :
    (gate.serve env peer recv capacity).2.transfers ≠ [] ↔
      gate.Authorized env peer id q ∧ capacity ≠ some 0 := by
  have htrace : DecisionTrace env gate peer recv capacity _ :=
    decisionTrace_of_request hreq hanswer
  constructor
  · intro hne
    obtain ⟨⟨id', streams⟩, hmem⟩ := List.exists_mem_of_ne_nil _ hne
    obtain ⟨q', rest', hreq', hauth, -⟩ := htrace.invoked id' streams hmem
    obtain ⟨rfl, rfl, rfl⟩ := hreq.unique hreq'
    exact ⟨hauth, fun hzero => hne (htrace.writeFails hzero).1⟩
  · intro hand
    rcases hand with ⟨hauth, hcap⟩
    obtain ⟨streams, hlog, -⟩ := htrace.authorized id q rest hreq hauth hcap
    simp [hlog]

/-- **The decision trace of the gate**, for every stream, every answer of the
registry and the transfer, and every point a write can fail at. -/
theorem gate_decisionTrace (env : Env) (gate : RingGate σ τ) (peer : EndpointId)
    (recv : RecvStream) (capacity : Option Nat)
    (hanswer : ∀ id q m,
      Registry.hasPermission env gate.registry peer id q ≠ .error (.panic m)) :
    DecisionTrace env gate peer recv capacity (gate.serve env peer recv capacity) := by
  by_cases hreq : ∃ id q rest, Requests recv.bytes id q rest
  · obtain ⟨id, q, rest, hreq⟩ := hreq
    exact decisionTrace_of_request hreq (hanswer id q)
  · exact decisionTrace_of_malformed fun id q rest h => hreq ⟨id, q, rest, h⟩

end RingGate

/-- The transfer of the integration tests: a fixed verdict, and a fixed reply. -/
structure FixedTransfer where
  verdict : Bool

instance [EndpointKeys] : Transfer FixedTransfer where
  canAccess _ transfer _ _ := transfer.verdict
  transfer _ _ := .writeAll (asBytes "ok")

theorem gate_decisionTrace_fixedTransfer :
    @RingGate.DecisionTrace EndpointKeys.basePoint Inner FixedTransfer _ _ Env.atEpoch
      ⟨Inner.new, ⟨true⟩⟩ EndpointId.basePoint ⟨[0x01, 0x00, 0x61, 0x02, 0xff], false⟩ none
      (@RingGate.serve EndpointKeys.basePoint Inner FixedTransfer _ _ Env.atEpoch
        ⟨Inner.new, ⟨true⟩⟩ EndpointId.basePoint ⟨[0x01, 0x00, 0x61, 0x02, 0xff], false⟩ none) :=
  @RingGate.gate_decisionTrace EndpointKeys.basePoint Inner FixedTransfer _ _ Env.atEpoch
    ⟨Inner.new, ⟨true⟩⟩ EndpointId.basePoint ⟨[0x01, 0x00, 0x61, 0x02, 0xff], false⟩ none
    fun id q m h => by
      obtain ⟨b, hb⟩ := @Inner.hasPermission_ok EndpointKeys.basePoint Inner.new Env.atEpoch
        EndpointId.basePoint id q
      exact absurd (hb.symm.trans h) nofun

end IrohRings
