import IrohRings.Protocol.Node

/-!
# IrohRings.Protocol.NodeStreams

How the stream of a task goes with the turns the task has taken. What it read is the
front of what came in, and its sending half is untouched as long as it was quiet
(`Desk.Tells`); this holds whatever the task does. If every turn is justified, what was
written is nothing, or the status byte that its answers called for, until the transfer
takes over (`Shows`).

Both are invariants of one task: `Tells.drift` and `Shows.of_arrived` are for what
happens while another task has its turn, `Tells.exec` and `Shows.exec` for a turn of its
own. `Protocol/NodeSafety.lean` carries the two along the runs of a node.
-/

namespace IrohRings

open Foundation

variable [EndpointKeys] {σ : Type} [Backend σ] {B : Backing}

/-! ### Reading and writing

A stream can be reset by its peer in the middle of a request. What was read before is
then still the front of what came in, but what had come in and was not read is lost, so
`whole` and `short` are about streams that were not reset. -/

/-- How a stream, opened by `peer` and taking `capacity` bytes, goes with the turns its
task has taken. -/
structure Desk.Tells (peer : EndpointId) (capacity : Option Nat)
    (tr : List (Turn (Asks B))) (desk : Desk) : Prop where
  peer : desk.peer = peer
  live : desk.ended = false → desk.exchange.recv.reset = false
  /-- What was read is the front of what came in, and what follows is left. -/
  front : Unbroken tr → bytesRead tr ++ desk.exchange.recv.bytes <+: desk.arrived
  whole : Unbroken tr → desk.exchange.recv.reset = false →
    bytesRead tr ++ desk.exchange.recv.bytes = desk.arrived
  /-- The first read that failed was short of bytes that never came. -/
  short : ∀ new n e old, tr = new ++ ⟨.readExact n, .error e⟩ :: old → Unbroken old →
    desk.exchange.recv.reset = false →
      desk.ended = true ∧ ∃ more, more.length < n ∧ bytesRead old ++ more = desk.arrived
  untouched : Quiet tr → desk.exchange.send = .fresh capacity

namespace Desk

variable {peer : EndpointId} {capacity : Option Nat} {tr : List (Turn (Asks B))}
  {desk desk' : Desk}

/-- A stream that was just opened: nothing came in, nothing was read. -/
theorem tells_opened : Tells (B := B) peer capacity [] (opened peer capacity) where
  peer := rfl
  live _ := rfl
  front _ := List.prefix_rfl
  whole _ _ := rfl
  short new n e old h := by cases new <;> cases h
  untouched _ := rfl

/-- What happens besides the task: more comes in, the stream ends, or the peer makes
room for more. Once it has ended nothing more comes in, so a read that was short of
bytes stays so. -/
theorem Tells.drift (h : Tells peer capacity tr desk) (hdrift : desk.Drift desk') :
    Tells peer capacity tr desk' := by
  cases hended : desk.ended with
  | true =>
      obtain ⟨hended', harrived, hrecv⟩ := hdrift.ended hended
      exact {
        peer := hdrift.peer.trans h.peer
        live := fun hopen => absurd (hended'.symm.trans hopen) Bool.noConfusion
        front := by
          rw [harrived, hrecv]
          exact h.front
        whole := by
          rw [harrived, hrecv]
          exact h.whole
        short := fun new n e old htr hold hreset => by
          obtain ⟨-, hmore⟩ := h.short new n e old htr hold (hrecv ▸ hreset)
          exact ⟨hended', harrived ▸ hmore⟩
        untouched := fun hquiet => hdrift.send.trans (h.untouched hquiet) }
  | false =>
      have hlive := h.live hended
      obtain ⟨data, harrived, hbytes, hwhole⟩ := hdrift.arrived
      have hfront : Unbroken tr →
          bytesRead tr ++ (desk.exchange.recv.bytes ++ data) = desk'.arrived := fun hunbroken => by
        rw [harrived, ← h.whole hunbroken hlive, List.append_assoc]
      exact {
        peer := hdrift.peer.trans h.peer
        live := fun hended' => (hdrift.live hended').trans hlive
        front := fun hunbroken => by
          rw [← hfront hunbroken]
          exact (List.prefix_append_right_inj _).mpr hbytes
        whole := fun hunbroken hreset => by
          rw [← hfront hunbroken, (hwhole hreset).2]
        short := fun new n e old htr hold _ => by
          cases hended.symm.trans (h.short new n e old htr hold hlive).1
        untouched := fun hquiet => hdrift.send.trans (h.untouched hquiet) }

/-- A turn that reads, or fails to. The bytes it takes go from what is left to what was
read, and their concatenation stays. -/
theorem Tells.setRecv (h : Tells peer capacity tr desk) {t : Turn (Asks B)} {rest : Bytes}
    (hfront : Unbroken (t :: tr) →
      Unbroken tr ∧ bytesRead (t :: tr) ++ rest = bytesRead tr ++ desk.exchange.recv.bytes)
    (hshort : ∀ n e, t = ⟨.readExact n, .error e⟩ →
      desk.ended = true ∧ desk.exchange.recv.bytes.length < n) :
    Tells peer capacity (t :: tr) (desk.setRecv { desk.exchange.recv with bytes := rest }) where
  peer := h.peer
  live := h.live
  front hu := by
    obtain ⟨hunbroken, heq⟩ := hfront hu
    exact heq ▸ h.front hunbroken
  whole hu hreset := by
    obtain ⟨hunbroken, heq⟩ := hfront hu
    exact heq.trans (h.whole hunbroken hreset)
  short new n e old htr hold hreset := by
    cases new with
    | nil =>
        obtain ⟨rfl, rfl⟩ := List.cons.inj htr
        obtain ⟨hended, hlt⟩ := hshort n e rfl
        exact ⟨hended, _, hlt, h.whole hold hreset⟩
    | cons t' new => exact h.short new n e old (List.cons.inj htr).2 hold hreset
  untouched hquiet := h.untouched (List.forall_mem_cons.mp hquiet).2

/-- A turn that does not read. It may write only if it is not quiet. -/
theorem Tells.setSend (h : Tells peer capacity tr desk) {t : Turn (Asks B)}
    {send : SendStream} {transfers : List (Bytes × Streams)}
    (hbytes : bytesRead (t :: tr) = bytesRead tr) (hunbroken : Unbroken (t :: tr) → Unbroken tr)
    (hread : ¬ t.op.IsRead)
    (huntouched : t.op.IsRead ∨ t.op.OffStream → send = desk.exchange.send) :
    Tells peer capacity (t :: tr)
      { desk with exchange := { desk.exchange with send, transfers } } where
  peer := h.peer
  live := h.live
  front hu := hbytes ▸ h.front (hunbroken hu)
  whole hu hreset := hbytes ▸ h.whole (hunbroken hu) hreset
  short new n e old htr hold hreset := by
    cases new with
    | nil =>
        obtain ⟨rfl, -⟩ := List.cons.inj htr
        exact absurd trivial hread
    | cons t' new => exact h.short new n e old (List.cons.inj htr).2 hold hreset
  untouched hquiet := by
    obtain ⟨ht, htr⟩ := List.forall_mem_cons.mp hquiet
    exact (huntouched ht).trans (h.untouched htr)

/-- **A turn of the task**, whatever it asks for. -/
theorem Tells.exec (h : Tells peer capacity tr desk) {env : Env} {op : TaskOp B} {r : op.Res}
    {host host' : Host σ B} (hexec : host.exec env op desk = some (r, host', desk')) :
    Tells peer capacity (⟨op, r⟩ :: tr) desk' := by
  replace hexec := Host.answer_of_exec hexec
  cases op with
  | readExact n =>
      simp only [Host.answer] at hexec
      split at hexec
      · rename_i hready
        obtain ⟨rfl, -, rfl⟩ := hexec
        obtain ⟨v, rest, hbytes, hread⟩ | ⟨hshort, e, hread⟩ := desk.exchange.recv.readExact_cases n
        · rw [hread]
          refine h.setRecv (fun hu => ⟨hu, ?_⟩) fun m e' heq => by cases heq
          rw [hbytes, bytesRead, List.append_assoc]
        · -- a task is made to wait for bytes, unless the stream has ended
          rw [hread]
          refine h.setRecv (fun hu => hu.elim) fun m e' heq => ?_
          cases heq
          exact ⟨hready.resolve_right (Nat.not_le.mpr hshort), hshort⟩
      · cases hexec
  | readToEnd sizeLimit =>
      simp only [Host.answer] at hexec
      split at hexec
      · obtain ⟨rfl, -, rfl⟩ := hexec
        unfold readToEnd
        split
        · exact h.setRecv (fun hu => hu.elim) fun m e' heq => by cases heq
        · split
          · exact h.setRecv (fun hu => hu.elim) fun m e' heq => by cases heq
          · refine h.setRecv (fun hu => ⟨hu, ?_⟩) fun m e' heq => by cases heq
            rw [bytesRead, List.append_nil]
      · cases hexec
  | writeAll data =>
      obtain ⟨-, -, rfl⟩ := Host.answer_writeAll_eq.mp hexec
      exact h.setSend rfl (fun hu => hu) id fun hq => (hq.elim id id).elim
  | finish =>
      obtain ⟨-, -, rfl⟩ := Host.answer_finish_eq.mp hexec
      exact h.setSend rfl (fun hu => hu) id fun hq => (hq.elim id id).elim
  | invoke resourceId =>
      obtain ⟨-, -, rfl⟩ := hexec
      exact h.setSend rfl (fun hu => hu) id fun hq => (hq.elim id id).elim
  | hasPermission p resourceId q =>
      obtain ⟨rfl, -, rfl⟩ := hexec
      exact h.setSend rfl (fun hu => hu) id fun _ => rfl
  | removeRingFromResource resourceId =>
      obtain ⟨rfl, -, rfl⟩ := hexec
      exact h.setSend rfl (fun hu => hu) id fun _ => rfl
  | own op =>
      obtain ⟨-, -, rfl⟩ := Host.answer_own_eq.mp hexec
      exact h.setSend rfl (fun hu => hu) id
        fun hq => B.offStream_keeps _ _ _ (hq.resolve_left fun h => h)

end Desk

/-! ### What a stream shows

The gate writes one byte and, if that is `ALLOWED`, hands the stream over. The last
case keeps the streams as they were handed over, since from then on the transfer may
write what it likes. In each case with a status byte, `decided` are the turns that led
to the decision: the byte was written right after them. -/

/-- What the stream of a task shows, all of whose turns are justified: nothing, or a
status byte for the answers the task got, or that the transfer was called, once, with
the status byte out and the rest of the request to come. -/
inductive Shows (T : TransferCode B) (peer : EndpointId) (tr : List (Turn (Asks B)))
    (desk : Desk) : Prop
  | silent (hwritten : desk.exchange.send.written = []) (htransfers : desk.exchange.transfers = [])
    (hinvoked : ¬ Invoked tr) (hdata : dataWritten tr = [])
  | denied {decided : List (Turn (Asks B))}
    (hwritten : desk.exchange.send.written = [Status.denied.toByte])
    (htransfers : desk.exchange.transfers = []) (hinvoked : ¬ Invoked tr)
    (hdecided : ⟨.writeAll [Status.denied.toByte], .ok ()⟩ :: decided <:+ tr)
    (hrefused : Refused T peer decided)
  | allowed {decided : List (Turn (Asks B))} {id : Bytes} {q : Permission}
    (hwritten : desk.exchange.send.written = [Status.allowed.toByte])
    (htransfers : desk.exchange.transfers = []) (hinvoked : ¬ Invoked tr)
    (hdecided : ⟨.writeAll [Status.allowed.toByte], .ok ()⟩ :: decided <:+ tr)
    (hgranted : Granted T peer id q decided)
  | served {decided : List (Turn (Asks B))} {id arrived : Bytes} {q : Permission}
    {streams : Streams} (htransfers : desk.exchange.transfers = [(id, streams)])
    (hwritten : streams.send.written = [Status.allowed.toByte])
    (hrequest : Requests arrived id q streams.recv.bytes) (harrived : arrived <+: desk.arrived)
    (hinvoked : Invoked tr)
    (hdecided : ⟨.writeAll [Status.allowed.toByte], .ok ()⟩ :: decided <:+ tr)
    (hgranted : Granted T peer id q decided)

namespace Shows

variable {T : TransferCode B} {peer : EndpointId} {capacity : Option Nat}
  {tr : List (Turn (Asks B))} {t : Turn (Asks B)} {desk desk' : Desk}

/-- Nothing was written on a stream that was just opened. -/
theorem opened : Shows T peer [] (.opened peer capacity) := by
  refine .silent rfl rfl ?_ rfl
  intro hinvoked
  rcases hinvoked with ⟨t, ht, -⟩
  cases ht

/-- More of the stream came in. -/
theorem of_arrived (h : Shows T peer tr desk) (hsend : desk'.exchange.send = desk.exchange.send)
    (htransfers : desk'.exchange.transfers = desk.exchange.transfers)
    (harrived : desk.arrived <+: desk'.arrived) : Shows T peer tr desk' := by
  cases h with
  | silent hw ht hi hd => exact .silent (hsend ▸ hw) (htransfers ▸ ht) hi hd
  | denied hw ht hi hd hr => exact .denied (hsend ▸ hw) (htransfers ▸ ht) hi hd hr
  | allowed hw ht hi hd hg => exact .allowed (hsend ▸ hw) (htransfers ▸ ht) hi hd hg
  | served ht hw hreq ha hi hd hg =>
      exact .served (htransfers ▸ ht) hw hreq (ha.trans harrived) hi hd hg

/-- A turn that sends nothing of its own before the transfer was called. -/
theorem frame (h : Shows T peer tr desk) (harrived : desk'.arrived = desk.arrived)
    (htransfers : desk'.exchange.transfers = desk.exchange.transfers)
    (hop : t.op.Serving)
    (hsend : Invoked tr ∨ desk'.exchange.send.written = desk.exchange.send.written ∧
      dataWritten (t :: tr) = dataWritten tr) : Shows T peer (t :: tr) desk' := by
  have hstill : ¬ Invoked tr → ¬ Invoked (t :: tr) := by
    intro hnot hinvoked
    rcases hinvoked with ⟨t', ht', id, heq⟩
    obtain rfl | hmem := List.mem_cons.mp ht'
    · rw [heq] at hop
      exact hop
    · exact hnot ⟨t', hmem, id, heq⟩
  cases h with
  | silent hw ht hi hd =>
      obtain ⟨hwritten, hdata⟩ := hsend.resolve_left hi
      exact .silent (hwritten.trans hw) (htransfers ▸ ht) (hstill hi) (hdata.trans hd)
  | denied hw ht hi hd hr =>
      obtain ⟨hwritten, -⟩ := hsend.resolve_left hi
      exact .denied (hwritten.trans hw) (htransfers ▸ ht) (hstill hi)
        (hd.trans (List.suffix_cons ..)) hr
  | allowed hw ht hi hd hg =>
      obtain ⟨hwritten, -⟩ := hsend.resolve_left hi
      exact .allowed (hwritten.trans hw) (htransfers ▸ ht) (hstill hi)
        (hd.trans (List.suffix_cons ..)) hg
  | served ht hw hreq ha hi hd hg =>
      exact .served (htransfers ▸ ht) hw hreq (harrived ▸ ha) (hi.append [t])
        (hd.trans (List.suffix_cons ..)) hg

/-- As long as the task was quiet, nothing is shown. -/
theorem of_quiet (h : Shows T peer tr desk) (hquiet : Quiet tr) :
    desk.exchange.transfers = [] ∧ ¬ Invoked tr ∧ dataWritten tr = [] := by
  have hnot : ∀ {data out decided},
      ¬ (⟨.writeAll data, out⟩ :: decided : List (Turn (Asks B))) <:+ tr := fun hsuffix =>
    not_quiet_of_write (hsuffix.subset List.mem_cons_self) hquiet
  cases h with
  | silent hw ht hi hd => exact ⟨ht, hi, hd⟩
  | denied hw ht hi hd hr => exact absurd hd hnot
  | allowed hw ht hi hd hg => exact absurd hd hnot
  | served ht hw hreq ha hi hd hg => exact absurd hd hnot

/-- The status byte is sent, or it is not taken and nothing is. -/
theorem status (h : Shows T peer tr desk) (htells : desk.Tells peer capacity tr)
    {data : Bytes} {out : Except WriteFault Unit}
    (hout : (desk.exchange.send.writeAll data).1 = out)
    (hdecided : (data = [Status.denied.toByte] ∧ Refused T peer tr) ∨
      (data = [Status.allowed.toByte] ∧ ∃ id q, Granted T peer id q tr)) :
    Shows T peer (⟨.writeAll data, out⟩ :: tr)
      (desk.setSend (desk.exchange.send.writeAll data).2) := by
  -- nothing was written before a decision, so the sending half is as it was opened
  have hquiet : Quiet tr := by
    obtain ⟨-, hrefused⟩ | ⟨-, id, q, hgranted⟩ := hdecided
    · exact hrefused.quiet
    · exact hgranted.quiet
  obtain ⟨htransfers, hinvoked, hdata⟩ := h.of_quiet hquiet
  have hstill : ¬ Invoked (⟨.writeAll data, out⟩ :: tr : List (Turn (Asks B))) := by
    intro hinvoked'
    rcases hinvoked' with ⟨t, ht, id, heq⟩
    obtain rfl | hmem := List.mem_cons.mp ht
    · cases heq
    · exact hinvoked ⟨t, hmem, id, heq⟩
  have hbyte : ∃ b, data = [b] := by
    obtain ⟨rfl, -⟩ | ⟨rfl, -⟩ := hdecided
    · exact ⟨_, rfl⟩
    · exact ⟨_, rfl⟩
  obtain ⟨b, rfl⟩ := hbyte
  rw [htells.untouched hquiet] at hout ⊢
  by_cases hcap : (SendStream.fresh capacity).Accepts [b].length
  · rw [SendStream.writeAll_of_accepts hcap] at hout ⊢
    obtain rfl := hout
    obtain ⟨heq, hrefused⟩ | ⟨heq, id, q, hgranted⟩ := hdecided
    · rw [heq]
      exact .denied rfl htransfers (heq ▸ hstill) List.suffix_rfl hrefused
    · rw [heq]
      exact .allowed rfl htransfers (heq ▸ hstill) List.suffix_rfl hgranted
  · obtain ⟨e, send, heq, hwritten⟩ := SendStream.writeAll_singleton_of_not_accepts (b := b) hcap
    rw [heq] at hout ⊢
    obtain rfl := hout
    exact .silent hwritten htransfers hstill hdata

/-- The transfer is called, right after `ALLOWED` was written. That write is the only one
so far, so the stream shows `ALLOWED`, and no transfer was called before. -/
theorem invoke (h : Shows T peer tr desk) (htells : desk.Tells peer capacity tr) {id : Bytes}
    {q : Permission} {decided : List (Turn (Asks B))}
    (htr : tr = ⟨.writeAll [Status.allowed.toByte], .ok ()⟩ :: decided)
    (hgranted : Granted T peer id q decided) :
    Shows T peer (⟨.invoke id, ()⟩ :: tr) { desk with
      exchange.transfers := desk.exchange.transfers ++ [(id, desk.exchange.toStreams)] } := by
  subst htr
  -- a write that went well is the last turn: those before it were quiet
  have hearlier : ∀ {data decided'},
      (⟨.writeAll data, .ok ()⟩ :: decided' : List (Turn (Asks B))) <:+
        ⟨.writeAll [Status.allowed.toByte], .ok ()⟩ :: decided →
      data = [Status.allowed.toByte] := by
    intro data decided' hsuffix
    obtain heq | hsuffix := List.suffix_cons_iff.mp hsuffix
    · obtain ⟨heq, -⟩ := List.cons.inj heq
      exact TaskOp.writeAll.inj (Turn.mk.inj heq).1
    · exact absurd hgranted.quiet (not_quiet_of_write (hsuffix.subset List.mem_cons_self))
  cases h with
  | silent hw ht hi hd => simp [dataWritten] at hd
  | denied hw ht hi hd hr => cases hearlier hd
  | allowed hw ht hi hd hg =>
      obtain ⟨hunbroken, hrequests⟩ := hgranted.requests
      have hfront := htells.front hunbroken
      exact .served (show _ = [(id, desk.exchange.toStreams)] by rw [ht, List.nil_append]) hw
        (hrequests _) hfront ⟨_, List.mem_cons_self, id, rfl⟩ (List.suffix_cons ..) hgranted
  | served ht hw hreq ha hi hd hg =>
      obtain ⟨t, hmem, id', heq⟩ := hi
      obtain rfl | hmem := List.mem_cons.mp hmem
      · cases heq
      · obtain ⟨op, r⟩ := t
        obtain rfl := heq
        obtain hread | hoff := hgranted.quiet _ hmem
        · exact False.elim hread
        · exact False.elim hoff

/-- **A justified turn of the task.** Before the transfer is called, only the status byte
is written; every other write is the transfer's. -/
theorem exec (h : Shows T peer tr desk) (htells : desk.Tells peer capacity tr) {env : Env}
    {op : TaskOp B} {r : op.Res} {host host' : Host σ B}
    (hexec : host.exec env op desk = some (r, host', desk'))
    (hjustified : Justified T peer ⟨op, r⟩ tr) : Shows T peer (⟨op, r⟩ :: tr) desk' := by
  replace hexec := Host.answer_of_exec hexec
  cases op with
  | readExact n =>
      simp only [Host.answer] at hexec
      split at hexec
      · obtain ⟨-, -, rfl⟩ := hexec
        exact h.frame rfl rfl trivial (.inr ⟨rfl, rfl⟩)
      · cases hexec
  | readToEnd sizeLimit =>
      simp only [Host.answer] at hexec
      split at hexec
      · obtain ⟨-, -, rfl⟩ := hexec
        exact h.frame rfl rfl trivial (.inl hjustified.invoked)
      · cases hexec
  | writeAll data =>
      obtain ⟨hout, -, rfl⟩ := Host.answer_writeAll_eq.mp hexec
      obtain hserves | hdecided := hjustified
      · exact h.frame rfl rfl trivial (.inl hserves.invoked)
      · exact h.status htells hout hdecided
  | finish =>
      obtain ⟨-, -, rfl⟩ := Host.answer_finish_eq.mp hexec
      refine h.frame rfl rfl trivial (.inr ⟨?_, rfl⟩)
      simp only [Desk.setSend, SendStream.finish]
      split <;> rfl
  | invoke id =>
      obtain ⟨-, -, rfl⟩ := hexec
      obtain ⟨q, decided, htr, hgranted⟩ := hjustified
      exact h.invoke htells htr hgranted
  | hasPermission p id q =>
      obtain ⟨-, -, rfl⟩ := hexec
      exact h.frame rfl rfl trivial (.inr ⟨rfl, rfl⟩)
  | removeRingFromResource id =>
      obtain ⟨-, -, rfl⟩ := hexec
      exact h.frame rfl rfl trivial (.inr ⟨rfl, rfl⟩)
  | own op =>
      obtain ⟨-, -, rfl⟩ := Host.answer_own_eq.mp hexec
      obtain hserves | haccesses := hjustified
      · exact h.frame rfl rfl trivial (.inl hserves.invoked)
      · exact h.frame rfl rfl trivial
          (.inr ⟨congrArg SendStream.written (B.offStream_keeps op _ _ haccesses.offStream), rfl⟩)

end Shows

end IrohRings
