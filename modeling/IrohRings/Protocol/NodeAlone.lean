import IrohRings.Protocol.NodeLiveness

/-!
# IrohRings.Protocol.NodeAlone

A task that nothing interferes with. If the registry answers it as it did at the start
and the state behind its transfer stays, it ends as `RingGate.serve` computes, however
its turns are spread over the run (`node_refines_serve`). So what is known of a gate
that serves one request at a time holds of a node.

The two are compared command by command: a program `Performs` a computation if, run on
its own, it has its outcome and its effect on the exchange. The task need not have read
its request in one go, nor need its answers have been taken at once: what it is worth is
told by the stream as it is in the end (`Desk.AmountsTo`), and however long the task was
held up, it ends the same.
-/

namespace IrohRings

open Foundation

/-! ### Reading a stream that more comes in on

A task that reads is made to wait until its bytes are there or the stream has ended.
So a read never meets the end of what has come in by accident, and its answer is the
one it would get with the whole stream before it. -/

/-- Reading what is there leaves what is missing. -/
theorem readExact_rest {bytes rest : Bytes} {n : Nat} (h : n ≤ bytes.length ∨ rest = []) :
    (⟨bytes ++ rest, false⟩ : RecvStream).readExact n =
      (((⟨bytes, false⟩ : RecvStream).readExact n).1,
        ⟨((⟨bytes, false⟩ : RecvStream).readExact n).2.bytes ++ rest, false⟩) := by
  obtain ⟨v, left, hbytes, hread⟩ | ⟨hshort, e, hread⟩ :=
    (⟨bytes, false⟩ : RecvStream).readExact_cases n
  · rw [hread]
    dsimp only at hbytes ⊢
    rw [hbytes, List.append_assoc]
    exact RecvStream.readExact_append v (left ++ rest) false
  · obtain rfl := h.resolve_left (Nat.not_le.mpr hshort)
    rw [hread, List.append_nil, hread]
    rfl

/-- Reading to the end, of a stream that is all there or too long. -/
theorem readToEnd_rest {bytes rest : Bytes} {n : Nat} (h : n + 1 ≤ bytes.length ∨ rest = []) :
    readToEnd ⟨bytes ++ rest, false⟩ n =
      ((readToEnd ⟨bytes, false⟩ n).1, ⟨(readToEnd ⟨bytes, false⟩ n).2.bytes ++ rest, false⟩) := by
  unfold readToEnd
  dsimp only
  by_cases hlong : n < bytes.length
  · rw [if_pos hlong, if_pos (by rw [List.length_append]; omega)]
  · obtain rfl := h.resolve_left (by omega)
    rw [List.append_nil, if_neg hlong]
    simp

/-! ### Streams in an exchange

`ofStream` lets a computation on the two streams run inside the exchange, which also
records the transfers that were called. -/

namespace GateM

theorem ofStream_apply {α : Type} (m : StreamM α) (x : Exchange) :
    ofStream m x = ((m x.toStreams).1.mapError .err,
      { x with toStreams := (m x.toStreams).2 }) := rfl

/-- Computations on streams in sequence. -/
theorem ofStream_bind {α β : Type} (m : StreamM α) (f : α → StreamM β) :
    ofStream (m >>= f) = ofStream m >>= fun a => ofStream (f a) := by
  funext x
  cases hm : m x.toStreams with
  | mk out streams =>
      cases out with
      | error e =>
          have hfirst : ofStream m x =
              (.error (.err e), ({ x with toStreams := streams } : Exchange)) := by
            rw [ofStream_apply, hm]
            rfl
          rw [bind_of_error hfirst, ofStream_apply, bind_of_error hm]
          rfl
      | ok a =>
          have hfirst : ofStream m x =
              (.ok a, ({ x with toStreams := streams } : Exchange)) := by
            rw [ofStream_apply, hm]
            rfl
          rw [bind_of_ok hfirst, ofStream_apply, bind_of_ok hm, ofStream_apply]

end GateM

variable [EndpointKeys] {σ τ : Type} [Backend σ] [Transfer τ] {B : Backing}

/-! ### Running a task on its own

`aloneWith` gives the answers of the host without the host: reads, writes and requests
to the backing act on the exchange alone, and a removal is answered but not made. With
these answers a program is a function of the exchange (`Program.handle`), which can be
compared with the gate's own. -/

/-- The answers a task gets that is alone with a registry and the state behind its
transfer, once its stream has ended. -/
def aloneWith (env : Env) (registry : σ) (world : B.World) :
    (op : TaskOp B) → Exchange → op.Res × Exchange
  | .readExact n, x =>
    let (out, recv) := x.recv.readExact n
    (out, { x with recv })
  | .readToEnd sizeLimit, x =>
    let (out, recv) := readToEnd x.recv sizeLimit
    (out, { x with recv })
  | .writeAll data, x =>
    let (out, send) := x.send.writeAll data
    (out, { x with send })
  | .finish, x =>
    let (out, send) := x.send.finish
    (out, { x with send })
  | .invoke resourceId, x =>
    ((), { x with transfers := x.transfers ++ [(resourceId, x.toStreams)] })
  | .hasPermission peer resourceId permission, x =>
    (Registry.hasPermission env registry peer resourceId permission, x)
  | .removeRingFromResource resourceId, x =>
    ((Registry.removeRingFromResource registry resourceId).1, x)
  | .own op, x =>
    let (r, _, send) := B.exec op world x.send
    (r, { x with send })

section Performs

variable (env : Env) (registry : σ) (world : B.World)

/-- Run on its own, the program does what the computation does. -/
def Performs {α : Type} (p : TaskM B α) (m : GateM α) : Prop :=
  ∀ x : Exchange, p.handle (aloneWith env registry world) x = m x

variable {env registry world} {α β : Type}

/-- Programs and computations in sequence. -/
theorem Performs.bind {p : TaskM B α} {m : GateM α} {f : α → TaskM B β} {g : α → GateM β}
    (h : Performs env registry world p m) (hf : ∀ a, Performs env registry world (f a) (g a)) :
    Performs env registry world (p >>= f) (m >>= g) := by
  intro x
  have hp := h x
  cases hm : m x with
  | mk out x' =>
      rw [hm] at hp
      cases out with
      | error e => rw [bind_of_error hm, Program.handle_bind_of_error hp]
      | ok a => rw [bind_of_ok hm, Program.handle_bind_of_ok hp, hf a]

/-- A program that only comes to a result, and another. -/
theorem Performs.pure_bind {p : TaskM B α} {a : α} {f : α → TaskM B β} {m : GateM β}
    (h : Performs env registry world p (pure a)) (hf : Performs env registry world (f a) m) :
    Performs env registry world (p >>= f) m := by
  intro x
  rw [Program.handle_bind_of_ok (h x), hf]

theorem performs_pure (a : α) : Performs env registry world (.ret a) (pure a) := fun _ => rfl

theorem performs_ofExcept (out : Except AnyError α) :
    Performs env registry world (.ofExcept (out.mapError .err)) (GateM.ofExcept out) := by
  intro x
  cases out <;> rfl

theorem performs_readExact (context : String) (n : Nat) :
    Performs env registry world (TaskM.readExact context n)
      (GateM.ofStream (.readExact context n)) := by
  intro x
  rw [GateM.readExact_apply]
  show (Program.ofExcept _).handle _ _ = _
  rw [Program.handle_ofExcept]
  simp only [aloneWith]
  cases (x.recv.readExact n).1 <;> rfl

theorem performs_writeAll (data : Bytes) :
    Performs env registry world (TaskM.writeAll data) (GateM.ofStream (.writeAll data)) := by
  intro x
  rw [GateM.writeAll_apply]
  show (Program.ofExcept _).handle _ _ = _
  rw [Program.handle_ofExcept]
  simp only [aloneWith]
  cases (x.send.writeAll data).1 <;> rfl

theorem performs_finish :
    Performs env registry world TaskM.finish (GateM.ofStream .finish) := by
  intro x
  rw [GateM.finish_apply]
  show (Program.ofExcept _).handle _ _ = _
  rw [Program.handle_ofExcept]
  simp only [aloneWith]
  cases x.send.finish.1 <;> rfl

theorem performs_hasPermission (peer : EndpointId) (id : Bytes) (q : Permission) :
    Performs env registry world (TaskM.hasPermission peer id q)
      (GateM.unwrapOrFalse (Registry.hasPermission env registry peer id q)) := by
  intro x
  have hask : (TaskM.ask (.hasPermission peer id q)).handle (aloneWith env registry world) x =
      (.ok (Registry.hasPermission env registry peer id q), x) := rfl
  unfold TaskM.hasPermission
  rw [Program.handle_bind_of_ok hask]
  obtain (e | m) | b := Registry.hasPermission env registry peer id q
  · rfl
  · rfl
  · rfl

/-- The code of a transfer does what the transfer does. -/
structure TransferCode.Codes (T : TransferCode B) (env : Env) (gate : RingGate σ τ)
    (world : B.World) : Prop where
  canAccess : ∀ peer id, Performs env gate.registry world (T.canAccess peer id)
    (pure (Transfer.canAccess env gate.transfer peer id))
  transfer : ∀ id, Performs env gate.registry world (T.transfer id)
    (.ofStream (Transfer.transfer gate.transfer id))

variable {T : TransferCode B} {gate : RingGate σ τ}

/-- The length, the resource id, the operation byte. -/
theorem performs_readRequest :
    Performs env registry world TransferCode.readRequest RingGate.readRequest := by
  unfold TransferCode.readRequest RingGate.readRequest
  refine (performs_readExact _ 2).bind fun lenBuf => ?_
  refine (performs_ofExcept _).bind fun len => ?_
  refine (performs_readExact _ len).bind fun idBuf => ?_
  exact (performs_readExact _ 1).bind fun opBuf => performs_pure _

/-- `DENIED`, and the end of the stream. -/
theorem performs_deny : Performs env registry world TransferCode.deny RingGate.deny :=
  (performs_writeAll _).bind fun _ => performs_finish

/-- `||` asks the transfer only if it has to. -/
theorem performs_authorize (hcodes : T.Codes env gate world) (peer : EndpointId) (id : Bytes)
    (q : Permission) :
    Performs env gate.registry world (T.authorize peer id q) (do
      let granted ← GateM.unwrapOrFalse (Registry.hasPermission env gate.registry peer id q)
      pure (granted || Transfer.canAccess env gate.transfer peer id)) := by
  refine (performs_hasPermission peer id q).bind fun granted => ?_
  cases granted with
  | true => exact performs_pure true
  | false => exact hcodes.canAccess peer id

/-- **The hand-over**: the transfer runs on the streams as they are, and its error gets
the gate's context. -/
theorem performs_handOver (hcodes : T.Codes env gate world) (id : Bytes) :
    Performs env gate.registry world (T.handOver id) (gate.handOver id) := by
  intro x
  let called : Exchange := { x with transfers := x.transfers ++ [(id, x.toStreams)] }
  cases htransfer : Transfer.transfer gate.transfer id x.toStreams with
  | mk out streams =>
      let x' : Exchange := ⟨streams, called.transfers⟩
      have hrun : (T.transfer id).handle (aloneWith env gate.registry world) called =
          (out.mapError .err, x') := by
        rw [hcodes.transfer id called, GateM.ofStream_apply]
        show ((Transfer.transfer gate.transfer id x.toStreams).1.mapError GateFault.err,
          (⟨(Transfer.transfer gate.transfer id x.toStreams).2, called.transfers⟩ : Exchange)) = _
        rw [htransfer]
      unfold TransferCode.handOver
      show (Program.attempt (T.transfer id) >>= _).handle _ called = _
      rw [Program.handle_bind_of_ok (Program.handle_attempt hrun)]
      cases out with
      | error e => exact (RingGate.handOver_of_error htransfer).symm
      | ok u => exact (performs_finish x').trans (RingGate.handOver_of_ok htransfer).symm

/-- **A task on its own** does what the gate does. -/
theorem performs_handleRequest (hcodes : T.Codes env gate world) (peer : EndpointId) :
    Performs env gate.registry world (T.handleRequest peer) (gate.handleRequest env peer) := by
  unfold TransferCode.handleRequest RingGate.handleRequest
  refine performs_readRequest.bind fun request => ?_
  obtain ⟨id, opByte⟩ := request
  dsimp only
  cases parseOperation opByte with
  | error e => exact performs_deny
  | ok q =>
      dsimp only
      have hallowed : ∀ (f : Bool → GateM Unit), (do
          let granted ← GateM.unwrapOrFalse (Registry.hasPermission env gate.registry peer id q)
          f (granted || Transfer.canAccess env gate.transfer peer id)) = (do
            let granted ← GateM.unwrapOrFalse (Registry.hasPermission env gate.registry peer id q)
            pure (granted || Transfer.canAccess env gate.transfer peer id)) >>= f := by
        intro f
        rw [bind_assoc]
        simp only [pure_bind]
      rw [hallowed fun allowed => if ¬ allowed then RingGate.deny else _]
      refine (performs_authorize hcodes peer id q).bind fun allowed => ?_
      cases allowed with
      | false => exact performs_deny
      | true => exact (performs_writeAll _).bind fun _ => performs_handOver hcodes id

end Performs

/-! ### A task among others

What the other tasks do to the registry and to the state behind the transfer matters
only when this task has its turn. Two things may change what it is answered: time, which
lets memberships expire, and the calls and transfers of others. -/

/-- If it is the `i`-th task's turn, the registry answers as the one at the start, and
the state behind the transfer is as it was. -/
def Undisturbed (env : Env) (registry : σ) (world : B.World) (i : Nat) (s : Tasks σ B)
    (e : NodeEvent B) : Prop :=
  ∀ env', e = .turn i env' →
    (∀ peer id q, Registry.hasPermission env' s.shared.registry.2 peer id q =
      Registry.hasPermission env registry peer id q) ∧
    (∀ id, (Registry.removeRingFromResource s.shared.registry.2 id).1 =
      (Registry.removeRingFromResource registry id).1) ∧ s.shared.world = world

/-- The request changes neither the registry nor the state behind the transfer. -/
def TaskOp.Still : TaskOp B → Prop
  | removeRingFromResource _ => False
  | own op => ∀ w send, (B.exec op w send).2.1 = w
  | _ => True

/-- Nor does the operator, or whoever else changes what the transfer is backed by. -/
def NodeEvent.Still : NodeEvent B → Prop
  | .outside (.call _ _) | .outside (.world _) => False
  | _ => True

/-- A transfer that changes nothing makes for tasks that change nothing. -/
theorem TransferCode.uses_still {T : TransferCode B} (haccess : ∀ peer id,
      (T.canAccess peer id).Uses TaskOp.Still) (htransfer : ∀ id, (T.transfer id).Uses TaskOp.Still)
    (peer : EndpointId) : (T.handleRequest peer).Uses TaskOp.Still := by
  have hread : ∀ (context : String) (n : Nat), (TaskM.readExact (B := B) context n).Uses
      TaskOp.Still := fun context n =>
    (Program.uses_request trivial).bind fun _ => Program.uses_ofExcept
  have hwrite : ∀ data : Bytes, (TaskM.writeAll (B := B) data).Uses TaskOp.Still := fun data =>
    (Program.uses_request trivial).bind fun _ => Program.uses_ofExcept
  have hfinish : (TaskM.finish (B := B)).Uses TaskOp.Still :=
    (Program.uses_request trivial).bind fun _ => Program.uses_ofExcept
  have hdeny : (TransferCode.deny (B := B)).Uses TaskOp.Still := (hwrite _).bind fun _ => hfinish
  have hrequest : (TransferCode.readRequest (B := B)).Uses TaskOp.Still := by
    refine (hread _ 2).bind fun lenBuf => Program.uses_ofExcept.bind fun len => ?_
    exact (hread _ len).bind fun idBuf => (hread _ 1).bind fun opBuf => trivial
  refine hrequest.bind fun request => ?_
  obtain ⟨id, opByte⟩ := request
  dsimp only
  split
  · exact hdeny
  · refine Program.Uses.bind ?_ fun allowed => ?_
    · refine Program.Uses.bind (Program.Uses.bind (Program.uses_request trivial) fun out => ?_)
        fun granted => ?_
      · obtain (e | m) | b := out <;> trivial
      · split
        · trivial
        · exact haccess peer id
    · split
      · exact hdeny
      · refine (hwrite _).bind fun _ => (Program.uses_request trivial).bind fun _ => ?_
        refine (htransfer id).attempt.bind fun out => ?_
        obtain (e | m) | u := out
        · trivial
        · trivial
        · exact hfinish

/-- **A node that is left alone**: with such a transfer, and an operator that does
nothing, the registry and the state behind the transfer stay as they are. -/
theorem node_still {T : TransferCode B} (hT : ∀ peer, (T.handleRequest peer).Uses TaskOp.Still)
    {s : Tasks σ B} (hs : ∀ (i : Nat) (job : Job (Asks B) GateFault Unit Desk),
      s.jobs[i]? = some job → job.code.Uses TaskOp.Still)
    {es : List (NodeEvent B)} (hes : ∀ e ∈ es, NodeEvent.Still e) :
    ((T.node σ).run s es).shared.registry.2 = s.shared.registry.2 ∧
      ((T.node σ).run s es).shared.world = s.shared.world := by
  -- along the run, what every task has left to do changes nothing either
  refine (invariant_along (fun s' : Tasks σ B =>
    (s'.shared.registry.2 = s.shared.registry.2 ∧ s'.shared.world = s.shared.world) ∧
      ∀ (i : Nat) (job : Job (Asks B) GateFault Unit Desk), s'.jobs[i]? = some job →
        job.code.Uses TaskOp.Still) ?_ ⟨⟨rfl, rfl⟩, hs⟩ (along_of_forall hes _)).1
  intro s' e hinv he
  rcases hinv with ⟨⟨hregistry, hworld⟩, hcodes⟩
  refine ⟨?_, fun i job hjob => ?_⟩
  · cases e with
    | outside x =>
        cases x with
        | call | world => exact he.elim
        | acceptBi conn capacity =>
            simp only [System.step, TransferCode.node, Tasks.outside]
            split <;> exact ⟨hregistry, hworld⟩
        | connect | close | deliver | finish | reset | widen | stall => exact ⟨hregistry, hworld⟩
    | turn j env =>
        simp only [System.step]
        split
        · rename_i op next desk hjob
          have hstill := (hcodes j _ hjob).1
          split
          · rename_i r host desk' hexec
            constructor
            · obtain hsame | ⟨c, hc, hrecord⟩ := exec_registry hexec
              · rw [hsame, hregistry]
              · obtain ⟨peer, id, q, -, rfl⟩ | ⟨id, rfl, -⟩ := hc
                · rw [hrecord, ← hregistry]
                  rfl
                · exact hstill.elim
            · obtain hsame | ⟨own, rfl, hrequest⟩ := Host.exec_world hexec
              · rw [hsame, hworld]
              · exact hrequest.trans ((hstill _ _).trans hworld)
          · exact ⟨hregistry, hworld⟩
        · exact ⟨hregistry, hworld⟩
  · cases hbefore : s'.jobs[i]? with
    | none =>
        -- the task was spawned by this very event
        obtain ⟨-, hcode⟩ := System.step_spawn hbefore hjob
        rw [hcode]
        exact hT _
    | some before =>
        obtain ⟨job', hjob', hstep⟩ := (T.node σ).step_job hbefore e
        obtain rfl := Option.some.inj (hjob.symm.trans hjob')
        have hused := hcodes i before hbefore
        cases hstep with
        | idle hcode hdrift hturn hwaits => rwa [hcode]
        | turn heq hcode hexec hturn hjob'' hshared =>
            rw [hcode] at hused
            rw [hjob'']
            exact hused.2 _

/-- Nobody is disturbed in such a node while the clock stands still. -/
theorem undisturbed_of_still {T : TransferCode B}
    (hT : ∀ peer, (T.handleRequest peer).Uses TaskOp.Still) {s : Tasks σ B}
    (hs : ∀ (i : Nat) (job : Job (Asks B) GateFault Unit Desk),
      s.jobs[i]? = some job → job.code.Uses TaskOp.Still)
    {es : List (NodeEvent B)} (hes : ∀ e ∈ es, NodeEvent.Still e) {env : Env} {i : Nat}
    {e : NodeEvent B} (he : ∀ env', e = .turn i env' → env' = env) :
    Undisturbed env s.shared.registry.2 s.shared.world i ((T.node σ).run s es) e := by
  obtain ⟨hregistry, hworld⟩ := node_still hT hs hes
  intro env' heq
  rw [he env' heq, hregistry]
  exact ⟨fun _ _ _ => rfl, fun _ => rfl, hworld⟩

/-! ### What a stream amounts to

The invariant of the comparison. While the stream is open, the task has read only part
of what there will be; the exchange it is compared with has all of it from the start,
`total`, less what the task has read. When the stream has ended the two are the same. -/

/-- The same streams, and the same transfers called, with the same in their sending
halves. What had come in when a transfer was called may differ. -/
structure Exchange.Same (x y : Exchange) : Prop where
  streams : x.toStreams = y.toStreams
  transfers : (x.transfers.map fun t => (t.1, t.2.send)) = y.transfers.map fun t => (t.1, t.2.send)

/-- What a stream amounts to if, in the end, `total` has come in on it: the exchange
with all that is still missing. -/
structure Desk.AmountsTo (total : Bytes) (desk : Desk) (x : Exchange) : Prop where
  missing : ∃ rest, desk.arrived ++ rest = total ∧ (desk.ended = true → rest = []) ∧
    x.recv = ⟨desk.exchange.recv.bytes ++ rest, false⟩
  whole : desk.exchange.recv.reset = false
  send : x.send = desk.exchange.send
  transfers : (x.transfers.map fun t => (t.1, t.2.send)) =
    desk.exchange.transfers.map fun t => (t.1, t.2.send)

namespace Desk

variable {total : Bytes} {desk desk' : Desk} {x : Exchange}

/-- At the start everything is still missing. -/
theorem amountsTo_opened (peer : EndpointId) (capacity : Option Nat) (total : Bytes) :
    AmountsTo total (opened peer capacity) ⟨⟨.fresh capacity, ⟨total, false⟩⟩, []⟩ where
  missing := ⟨total, rfl, nofun, rfl⟩
  whole := rfl
  send := rfl
  transfers := rfl

/-- More of it comes in: what was missing is now there, and the exchange stays. -/
theorem AmountsTo.drift (h : desk.AmountsTo total x) (hdrift : desk.Drift desk')
    (harrived : desk'.arrived <+: total) (hwhole : desk'.exchange.recv.reset = false)
    (hended : desk'.ended = true → desk'.arrived = total) : desk'.AmountsTo total x := by
  obtain ⟨rest, htotal, hrest, hrecv⟩ := h.missing
  obtain ⟨data, hdata, -, hbytes⟩ := hdrift.arrived
  obtain ⟨rest', hrest'⟩ := harrived
  have hsplit : rest = data ++ rest' := by
    rw [hdata, ← htotal, List.append_assoc] at hrest'
    exact (List.append_cancel_left hrest').symm
  exact {
    missing := ⟨rest', hrest', fun h => by
      rw [hended h] at hrest'
      exact List.append_right_eq_self.mp hrest',
      by rw [hrecv, (hbytes hwhole).2, hsplit, List.append_assoc]⟩
    whole := hwhole
    send := h.send.trans hdrift.send.symm
    transfers := h.transfers.trans (by rw [hdrift.transfers]) }

/-- A turn that is answered as it would be alone. -/
theorem AmountsTo.exec (h : desk.AmountsTo total x) {env env' : Env} {registry : σ}
    {world : B.World} {host host' : Host σ B} {op : TaskOp B} {r : op.Res}
    (hexec : host.exec env' op desk = some (r, host', desk'))
    (hanswers : ∀ peer id q, Registry.hasPermission env' host.registry.2 peer id q =
      Registry.hasPermission env registry peer id q)
    (hremoves : ∀ id, (Registry.removeRingFromResource host.registry.2 id).1 =
      (Registry.removeRingFromResource registry id).1) (hworld : host.world = world) :
    (aloneWith env registry world op x).1 = r ∧
      desk'.AmountsTo total (aloneWith env registry world op x).2 := by
  obtain ⟨rest, htotal, hrest, hrecv⟩ := h.missing
  obtain ⟨⟨send, recv⟩, transfers⟩ := x
  obtain rfl : send = desk.exchange.send := h.send
  obtain rfl : recv = _ := hrecv
  have hall : ∀ n, desk.Ready n → n ≤ desk.exchange.recv.bytes.length ∨ rest = [] :=
    fun n hready => hready.symm.imp_right hrest
  have hopen : desk.exchange.recv = ⟨desk.exchange.recv.bytes, false⟩ := by rw [← h.whole]
  have hwhole : desk'.exchange.recv.reset = false := (Host.exec_keeps hexec).2.2.2.1.trans h.whole
  replace hexec := Host.answer_of_exec hexec
  cases op with
  | readExact n =>
      simp only [Host.answer] at hexec
      split at hexec
      · rename_i hready
        obtain ⟨rfl, -, rfl⟩ := hexec
        have hread := readExact_rest (hall n hready)
        rw [← hopen] at hread
        exact ⟨congrArg Prod.fst hread, ⟨rest, htotal, hrest, congrArg Prod.snd hread⟩, hwhole,
          rfl, h.transfers⟩
      · cases hexec
  | readToEnd sizeLimit =>
      simp only [Host.answer] at hexec
      split at hexec
      · rename_i hready
        obtain ⟨rfl, -, rfl⟩ := hexec
        have hread := readToEnd_rest (hall _ hready)
        rw [← hopen] at hread
        exact ⟨congrArg Prod.fst hread, ⟨rest, htotal, hrest, congrArg Prod.snd hread⟩, hwhole,
          rfl, h.transfers⟩
      · cases hexec
  | writeAll data =>
      obtain ⟨rfl, -, rfl⟩ := Host.answer_writeAll_eq.mp hexec
      exact ⟨rfl, ⟨rest, htotal, hrest, rfl⟩, h.whole, rfl, h.transfers⟩
  | finish =>
      obtain ⟨rfl, -, rfl⟩ := Host.answer_finish_eq.mp hexec
      exact ⟨rfl, ⟨rest, htotal, hrest, rfl⟩, h.whole, rfl, h.transfers⟩
  | invoke resourceId =>
      obtain ⟨-, -, rfl⟩ := hexec
      refine ⟨rfl, ⟨rest, htotal, hrest, rfl⟩, h.whole, rfl, ?_⟩
      show List.map _ (transfers ++ [_]) = List.map _ (desk.exchange.transfers ++ [_])
      rw [List.map_append, List.map_append]
      exact congrArg (· ++ _) h.transfers
  | hasPermission p resourceId q =>
      obtain ⟨rfl, -, rfl⟩ := hexec
      exact ⟨(hanswers p resourceId q).symm, ⟨rest, htotal, hrest, rfl⟩, h.whole, rfl, h.transfers⟩
  | removeRingFromResource resourceId =>
      obtain ⟨rfl, -, rfl⟩ := hexec
      exact ⟨(hremoves resourceId).symm, ⟨rest, htotal, hrest, rfl⟩, h.whole, rfl, h.transfers⟩
  | own op =>
      obtain ⟨rfl, -, rfl⟩ := Host.answer_own_eq.mp hexec
      subst hworld
      exact ⟨rfl, ⟨rest, htotal, hrest, rfl⟩, h.whole, rfl, h.transfers⟩

end Desk

/-! ### The node and the gate -/

section Refinement

variable {T : TransferCode B} {env : Env} {gate : RingGate σ τ} {world : B.World} {s : Tasks σ B}
  {i : Nat} {peer : EndpointId} {capacity : Option Nat}
  {job : Job (Asks B) GateFault Unit Desk}

/-- A task that nothing interfered with ends as the gate serves the request, if its
stream has ended and everything on it came in. -/
theorem ends_as_serve (hcodes : T.Codes env gate world) {es : List (NodeEvent B)}
    (hstart : s.jobs[i]? = some ⟨T.handleRequest peer, .opened peer capacity⟩)
    (halong : Along (T.node σ).step (Undisturbed env gate.registry world i) s es)
    (hend : ((T.node σ).run s es).jobs[i]? = some job) (hended : job.locals.ended = true)
    (hwhole : job.locals.exchange.recv.reset = false) {out : Except GateFault Unit}
    (hout : job.code.result = some out) :
    out = (gate.serve env peer ⟨job.locals.arrived, false⟩ capacity).1 ∧
      job.locals.exchange.Same
        (gate.serve env peer ⟨job.locals.arrived, false⟩ capacity).2 := by
  obtain ⟨job', x, hjob', hamounts, hhandle⟩ := (T.node σ).handle_along
    (aloneWith env gate.registry world) (Desk.AmountsTo job.locals.arrived)
    (fun desk => desk.Later job.locals)
    (fun desk desk' x hlater hdrift hamounts => hamounts.drift hdrift hlater.arrived
      (hlater.whole hwhole) fun h => (hlater.ended h).2.1.symm)
    (fun s env' op host desk desk' r x hguard hexec hamounts => by
      obtain ⟨hanswers, hremoves, hworld⟩ := hguard env' rfl
      exact hamounts.exec hexec hanswers hremoves hworld)
    halong (fun before after asked heq hasked => desk_later hasked (heq ▸ hend)) hstart
    (Desk.amountsTo_opened peer capacity job.locals.arrived)
  obtain rfl := Option.some.inj (hjob'.symm.trans hend)
  -- a task that has ended has nothing left to run: `x` is the exchange the gate leaves
  rw [Program.handle_of_result hout, performs_handleRequest hcodes peer] at hhandle
  obtain ⟨rest, -, hrest, hrecv⟩ := hamounts.missing
  have hx : gate.serve env peer ⟨job'.locals.arrived, false⟩ capacity = (out, x) := hhandle.symm
  rw [hx]
  refine ⟨rfl, ?_, hamounts.transfers.symm⟩
  obtain ⟨⟨send, recv⟩, transfers⟩ := x
  obtain rfl : send = _ := hamounts.send
  obtain rfl : recv = _ := hrecv
  rw [hrest hended, List.append_nil, ← hwhole]

/-- **The node refines the gate**: in every schedule that attends to a task and does not
disturb it, the task ends as the gate serves a request, on what has come in when the
stream ends, however it came in. -/
theorem node_refines_serve (hcodes : T.Codes env gate world) {schedule : Nat → NodeEvent B}
    (hstart : s.jobs[i]? = some ⟨T.handleRequest peer, .opened peer capacity⟩)
    (hattended : Attended T s i schedule)
    (hundisturbed : ∀ n, Undisturbed env gate.registry world i
      ((T.node σ).run s (System.upTo schedule n)) (schedule n)) {n : Nat}
    (hjob : ((T.node σ).run s (System.upTo schedule n)).jobs[i]? = some job)
    (hended : job.locals.ended = true) (hwhole : job.locals.exchange.recv.reset = false) :
    ∃ m job', n ≤ m ∧ ((T.node σ).run s (System.upTo schedule m)).jobs[i]? = some job' ∧
      job'.code.result = some (gate.serve env peer ⟨job.locals.arrived, false⟩ capacity).1 ∧
      job'.locals.exchange.Same
        (gate.serve env peer ⟨job.locals.arrived, false⟩ capacity).2 := by
  -- it ends, since it is attended to and so not held up for good
  obtain ⟨m, job', hm, hjob', hend⟩ := (ends_or_heldUp hattended.fairTo hjob hended).resolve_right
    fun hheld => hattended.not_heldUp _ hheld.choose_spec.2
  obtain ⟨out, hout⟩ := Option.isSome_iff_exists.mp hend
  obtain ⟨more, hmore⟩ := System.upTo_prefix schedule hm
  have hlater : job.locals.Later job'.locals := desk_later hjob (hmore ▸ hjob')
  obtain ⟨hended', harrived, hreset⟩ := hlater.ended hended
  obtain ⟨hresult, hsame⟩ := ends_as_serve hcodes hstart (System.along_upTo hundisturbed m) hjob'
    hended' (hreset.trans hwhole) hout
  rw [harrived] at hresult hsame
  exact ⟨m, job', hm, hjob', hresult ▸ hout, hsame⟩

/-! ### The transfer of the read example -/

theorem staticTransfer_still (peer : EndpointId) :
    (staticTransfer.handleRequest peer).Uses TaskOp.Still :=
  TransferCode.uses_still (T := staticTransfer) (fun _ _ => trivial)
    (fun _ => (Program.uses_request trivial).bind fun _ => Program.uses_ofExcept) peer

theorem staticTransfer_codes (env : Env) (registry : σ) :
    staticTransfer.Codes env ⟨registry, StaticTransfer.mk⟩ () where
  canAccess _ _ := performs_pure false
  transfer _ := performs_writeAll staticContent

/-- A node whose first peer just opened a stream. -/
def sampleNode (T : TransferCode B) (registry : History × σ) (world : B.World)
    (peer : EndpointId) : Tasks σ B :=
  (T.node σ).run (Tasks.start registry world) (System.upTo (sampleSchedule peer []) 2)

/-- What happens then: the peer sends the data, finishes the stream and takes whatever
comes, and its task gets every turn. -/
def sampleRest (peer : EndpointId) (data : Bytes) (n : Nat) : NodeEvent B :=
  sampleSchedule peer data (n + 2)

theorem sampleNode_jobs (T : TransferCode B) (registry : History × σ) (world : B.World)
    (peer : EndpointId) :
    (sampleNode T registry world peer).jobs = [⟨T.handleRequest peer, .opened peer none⟩] := rfl

theorem attended_sampleRest (T : TransferCode B) (registry : History × σ) (world : B.World)
    (peer : EndpointId) (data : Bytes) :
    Attended T (sampleNode T registry world peer) 0 (sampleRest peer data) := by
  refine attended_of_free (n := 3) (fun n => ⟨n + 3, Nat.le_add_right n 3, Env.atEpoch, rfl⟩)
    (fun m heq => ?_) rfl ⟨rfl, rfl⟩
  match m with
  | 0 | 1 | 2 => cases heq
  | m + 3 => cases heq

/-- Nobody disturbs the task: there is no other, and the clock stands still. -/
theorem sampleNode_undisturbed {T : TransferCode B}
    (hT : ∀ peer, (T.handleRequest peer).Uses TaskOp.Still) (registry : History × σ)
    (world : B.World) (peer : EndpointId) (data : Bytes) (n : Nat) :
    Undisturbed Env.atEpoch registry.2 world 0 ((T.node σ).run (sampleNode T registry world peer)
      (System.upTo (sampleRest peer data) n)) (sampleRest peer data n) := by
  refine undisturbed_of_still hT (s := sampleNode T registry world peer) (fun i job hjob => ?_)
    (fun e he => ?_) fun env' heq => ?_
  · rw [sampleNode_jobs, List.getElem?_singleton] at hjob
    split at hjob
    · obtain rfl := Option.some.inj hjob
      exact hT peer
    · cases hjob
  · obtain ⟨m, -, rfl⟩ := List.mem_map.mp he
    match m with
    | 0 | 1 | 2 | m + 3 => trivial
  · match n with
    | 0 | 1 | 2 => cases heq
    | n + 3 => exact (Occurrence.turn.inj heq).2.symm

omit [EndpointKeys] in
theorem node_refines_serve_sample :
    letI := EndpointKeys.basePoint
    let gate : RingGate Inner StaticTransfer := ⟨(Backend.run Inner []).2, StaticTransfer.mk⟩
    let served := gate.serve Env.atEpoch EndpointId.basePoint ⟨[0x01, 0x00, 0x61, 0x01], false⟩ none
    ∃ m job', 2 ≤ m ∧ ((staticTransfer.node Inner).run
        (sampleNode staticTransfer (Backend.run Inner []) () EndpointId.basePoint)
        (System.upTo (sampleRest EndpointId.basePoint [0x01, 0x00, 0x61, 0x01]) m)).jobs[0]? =
          some job' ∧
      job'.code.result = some served.1 ∧ job'.locals.exchange.Same served.2 :=
  letI := EndpointKeys.basePoint
  node_refines_serve (n := 2) (staticTransfer_codes Env.atEpoch _) rfl
    (attended_sampleRest _ _ _ _ _) (sampleNode_undisturbed staticTransfer_still _ _ _ _)
    rfl rfl rfl

end Refinement

end IrohRings
