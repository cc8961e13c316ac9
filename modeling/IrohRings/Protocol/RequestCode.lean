import IrohRings.Protocol.GateTrace

/-!
# IrohRings.Protocol.RequestCode

The request format as a code: what `encodeRequest` writes is what the gate reads,
and the gate reads nothing else (`request_prefixCode`). No encoded request is the
beginning of another one, so a stream starts with one at most, and the bytes that
follow it, which belong to the transfer, are left alone.
-/

namespace IrohRings

open Foundation

/-- The gate reads the request of `q` on `id`, and leaves the streams as in `s'`. -/
def RingGate.Reads (s : Exchange) (id : Bytes) (q : Permission) (s' : Exchange) : Prop :=
  ∃ op, RingGate.readRequest s = (.ok (id, op), s') ∧ parseOperation op = .ok q

/-- **Requests are encoded** exactly for ids of at most 256 bytes. -/
theorem encodeRequest_isOk_iff {id : Bytes} {q : Permission} :
    (∃ request, encodeRequest id q = .ok request) ↔ id.length ≤ maxResourceIdBytes := by
  unfold encodeRequest
  split
  · rename_i hlong
    simp [not_le.mpr hlong]
  · rename_i hshort
    simp [not_lt.mp hshort]

/-- **The gate reads what was encoded**, and no more than that. -/
theorem RingGate.reads_iff {s s' : Exchange} {id : Bytes} {q : Permission} :
    RingGate.Reads s id q s' ↔ ∃ rest, Requests s.recv.bytes id q rest ∧ s' = s.unread rest := by
  refine ⟨fun hreads => ?_, fun hex => ?_⟩
  · rcases hreads with ⟨op, hread, hop⟩
    obtain ⟨id', op', rest, hframe⟩ | ⟨-, context, fault, heq⟩ | ⟨-, heq⟩ :=
      RingGate.readRequest_cases s
    · rw [RingGate.readRequest_of_frame hframe] at hread
      obtain ⟨hok, rfl⟩ := Prod.mk.inj hread
      obtain ⟨rfl, rfl⟩ := Prod.mk.inj (Except.ok.inj hok)
      exact ⟨rest, requests_iff_frame.mpr ⟨_, hframe, hop⟩, rfl⟩
    · cases (Prod.mk.inj (heq.symm.trans hread)).1
    · cases (Prod.mk.inj (heq.symm.trans hread)).1
  · rcases hex with ⟨rest, hreq, rfl⟩
    obtain ⟨op, hframe, hop⟩ := requests_iff_frame.mp hreq
    exact ⟨op, RingGate.readRequest_of_frame hframe, hop⟩

/-- No encoded request is the beginning of another. -/
theorem encodeRequest_prefixFree {id id' request request' : Bytes} {q q' : Permission}
    (h : encodeRequest id q = .ok request) (h' : encodeRequest id' q' = .ok request')
    (hhead : request <+: request') : id = id' ∧ q = q' ∧ request = request' := by
  obtain ⟨rest, rfl⟩ := hhead
  have hreq : Requests (request ++ rest) id q rest := ⟨request, h, rfl⟩
  obtain ⟨rfl, rfl, rfl⟩ := hreq.unique ⟨request ++ rest, h', (List.append_nil _).symm⟩
  exact ⟨rfl, rfl, (List.append_nil _).symm⟩

section Gate

variable [EndpointKeys] {σ τ : Type} [Registry σ] [Transfer τ]

/-- The gate rejects the stream: it is truncated, its resource id is too long, or its
operation is unknown. Reading fails in the first two cases; in the last the request is
denied. -/
inductive RingGate.Rejects (env : Env) (gate : RingGate σ τ) (peer : EndpointId) (s : Exchange) :
    Prop
  | truncated (h : Truncated s.recv.bytes) (context : String) (fault : ReadFault)
      (out : gate.handleRequest env peer s =
        (.error (.err (.context context (.read fault))), s.unread []))
  | overLong (h : OverLong s.recv.bytes)
      (out : gate.handleRequest env peer s =
        (.error (.err (overLongError (ofLe (s.recv.bytes.take 2)))),
          s.unread (s.recv.bytes.drop 2)))
  | unknown (id : Bytes) (op : UInt8) (rest : Bytes) (h : Frame s.recv.bytes id op rest)
      (hop : parseOperation op = .error (.unknownOperationByte op))
      (out : gate.handleRequest env peer s = RingGate.deny (s.unread rest))

/-- A stream that does not start with a request is rejected. -/
theorem RingGate.rejects_of_not_requests (env : Env) (gate : RingGate σ τ) (peer : EndpointId)
    {s : Exchange} (h : ∀ id q rest, ¬ Requests s.recv.bytes id q rest) :
    gate.Rejects env peer s := by
  obtain ⟨id, op, rest, hframe⟩ | ⟨hshort, context, fault, heq⟩ | ⟨hlong, heq⟩ :=
    RingGate.readRequest_cases s
  · cases hop : parseOperation op with
    | ok q => exact absurd (requests_iff_frame.mpr ⟨op, hframe, hop⟩) (h id q rest)
    | error e =>
        obtain rfl := parseOperation_eq_error hop
        exact .unknown id op rest hframe hop (handleRequest_of_unknown hframe hop)
  · exact .truncated hshort context fault (bind_of_error heq)
  · exact .overLong hlong (bind_of_error heq)

/-- **The request format is a prefix code** that the encoder and the gate share. -/
theorem request_prefixCode (env : Env) (gate : RingGate σ τ) (peer : EndpointId) :
    (∀ id q, (∃ request, encodeRequest id q = .ok request) ↔ id.length ≤ 256) ∧
    (∀ id q request rest (s : Exchange), encodeRequest id q = .ok request →
      s.recv.bytes = request ++ rest → RingGate.Reads s id q (s.unread rest)) ∧
    (∀ id q (s s' : Exchange), RingGate.Reads s id q s' →
      ∃ request rest, encodeRequest id q = .ok request ∧ s.recv.bytes = request ++ rest ∧
        s' = s.unread rest) ∧
    (∀ id id' q q' request request' rest rest', encodeRequest id q = .ok request →
      encodeRequest id' q' = .ok request' → request ++ rest = request' ++ rest' →
      id = id' ∧ q = q' ∧ rest = rest') ∧
    (∀ id id' q q' request request', encodeRequest id q = .ok request →
      encodeRequest id' q' = .ok request' → request <+: request' → request = request') ∧
    ∀ s : Exchange, (∀ id q s', ¬ RingGate.Reads s id q s') → gate.Rejects env peer s := by
  refine ⟨fun id q => encodeRequest_isOk_iff, ?_, ?_, ?_, ?_, ?_⟩
  · intro id q request rest s hok hbytes
    exact RingGate.reads_iff.mpr ⟨rest, ⟨request, hok, hbytes⟩, rfl⟩
  · intro id q s s' hreads
    obtain ⟨rest, ⟨request, hok, hbytes⟩, hs'⟩ := RingGate.reads_iff.mp hreads
    exact ⟨request, rest, hok, hbytes, hs'⟩
  · intro id id' q q' request request' rest rest' hok hok' heq
    have hreq : Requests (request ++ rest) id q rest := ⟨request, hok, rfl⟩
    exact hreq.unique ⟨request', hok', heq⟩
  · intro id id' q q' request request' hok hok' hhead
    exact (encodeRequest_prefixFree hok hok' hhead).2.2
  · intro s hnot
    refine gate.rejects_of_not_requests env peer fun id q rest hreq => ?_
    exact hnot id q (s.unread rest) (RingGate.reads_iff.mpr ⟨rest, hreq, rfl⟩)

end Gate

end IrohRings
