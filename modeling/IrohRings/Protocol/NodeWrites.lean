import IrohRings.Protocol.NodeSafety

/-!
# IrohRings.Protocol.NodeWrites

What is on a stream, from the peer's side. The first byte is the gate's, and it is a
ruling (`first_byte_is_ruling`). What is beyond it was written by the transfer: a peer that
sees more than one byte can tell from it how far the transfer has got
(`exists_write_of_long`), and that is what an acknowledgment is worth.
-/

namespace IrohRings

open Foundation

variable [EndpointKeys] {σ : Type} [Backend σ] {B : Backing}

/-- The requests to the backing leave the stream alone. -/
def Backing.Silent (B : Backing) : Prop :=
  ∀ op world send, (B.exec op world send).2.2 = send

/-! ### How much was written -/

/-- How much the writes would have written, had they all succeeded. -/
def lengthTried : List (Turn (Asks B)) → Nat
  | [] => 0
  | ⟨.writeAll data, _⟩ :: tr => lengthTried tr + data.length
  | _ :: tr => lengthTried tr

theorem lengthTried_of_quiet {tr : List (Turn (Asks B))} (h : Quiet tr) : lengthTried tr = 0 := by
  induction tr with
  | nil => rfl
  | cons t tr ih =>
      obtain ⟨ht, htr⟩ := List.forall_mem_cons.mp h
      obtain ⟨op, r⟩ := t
      cases op with
      | writeAll data => exact absurd ht (by simp [TaskOp.IsRead, TaskOp.OffStream])
      | readExact | readToEnd | finish | invoke | hasPermission | removeRingFromResource | own =>
          exact ih htr

omit [EndpointKeys] in
/-- A write adds no more than its data. -/
theorem length_writeAll_le (send : SendStream) (data : Bytes) :
    (send.writeAll data).2.written.length ≤ send.written.length + data.length := by
  unfold SendStream.writeAll
  split
  · exact Nat.le_add_right _ _
  · split
    · simp
    · simp only [List.length_append, List.length_take]
      omega

omit [EndpointKeys] in
theorem written_finish (send : SendStream) : send.finish.2.written = send.written := by
  unfold SendStream.finish
  split <;> rfl

/-- Nothing gets onto a stream but what the task writes. -/
theorem length_written_le {T : TransferCode B} (hsilent : B.Silent) {registry : History × σ}
    {world : B.World} {es : List (NodeEvent B)} {i : Nat} {job : Job (Asks B) GateFault Unit Desk}
    (hjob : ((T.node σ).run (Tasks.start registry world) es).jobs[i]? = some job) :
    job.locals.exchange.send.written.length ≤
      lengthTried ((T.node σ).turns i (Tasks.start registry world) es) := by
  obtain ⟨desk₀, -, -, hle⟩ := (T.node σ).exists_life
    (s := Tasks.start registry world) rfl
    (fun _ tr desk => desk.exchange.send.written.length ≤ lengthTried tr)
    (fun desk hfresh => by
      obtain ⟨peer, capacity, rfl⟩ := hfresh
      exact Nat.le_refl 0)
    (fun desk₀ tr desk desk' hle hdrift => by rwa [hdrift.send])
    (fun desk₀ tr env op host host' desk desk' r hle hexec => by
      replace hexec := Host.answer_of_exec hexec
      cases op with
      | readExact | readToEnd =>
          simp only [Host.answer] at hexec
          split at hexec
          · obtain ⟨-, -, rfl⟩ := hexec
            exact hle
          · cases hexec
      | writeAll data =>
          obtain ⟨-, -, rfl⟩ := hexec
          exact (length_writeAll_le _ _).trans (Nat.add_le_add_right hle _)
      | finish =>
          obtain ⟨-, -, rfl⟩ := hexec
          exact (congrArg List.length (written_finish _)).trans_le hle
      | own op =>
          obtain ⟨-, -, rfl⟩ := hexec
          exact (congrArg (·.written.length) (hsilent op host.world _)).trans_le hle
      | invoke | hasPermission | removeRingFromResource =>
          obtain ⟨-, -, rfl⟩ := hexec
          exact hle)
    es hjob
  exact hle

/-! ### Who wrote it -/

/-- The gate writes a single byte; whatever else is written, the transfer wrote. -/
theorem exists_serves_of_tried {T : TransferCode B} {peer : EndpointId}
    {tr : List (Turn (Asks B))} (hguarded : Program.Guarded (Justified T peer) tr)
    (hlong : 1 < lengthTried tr) :
    ∃ new data out old, tr = new ++ ⟨.writeAll data, out⟩ :: old ∧
      Serves T peer (.writeAll data) old := by
  induction tr with
  | nil => cases hlong
  | cons t tr ih =>
      obtain ⟨hjustified, hrest⟩ := hguarded
      have hearlier : 1 < lengthTried tr → ∃ new data out old,
          t :: tr = new ++ ⟨.writeAll data, out⟩ :: old ∧ Serves T peer (.writeAll data) old := by
        intro hlong
        obtain ⟨new, data, out, old, rfl, hserves⟩ := ih hrest hlong
        exact ⟨t :: new, data, out, old, rfl, hserves⟩
      obtain ⟨op, r⟩ := t
      cases op with
      | writeAll data =>
          -- the status byte is written when nothing was written before
          have hstatus : ∀ b : UInt8, data = [b] → Quiet tr →
              ¬ 1 < lengthTried tr + data.length := by
            intro b hdata hquiet
            simp [hdata, lengthTried_of_quiet hquiet]
          obtain hserves | ⟨hdata, hrefused⟩ | ⟨hdata, id, q, hgranted⟩ := hjustified
          · exact ⟨[], data, r, tr, rfl, hserves⟩
          · exact absurd hlong (hstatus _ hdata hrefused.quiet)
          · exact absurd hlong (hstatus _ hdata hgranted.quiet)
      | readExact | readToEnd | finish | invoke | hasPermission | removeRingFromResource | own =>
          exact hearlier hlong

/-- **Beyond the status byte**: if a stream shows more than one byte, the transfer was
called for what was granted on it, and has got to a moment of the run at which it
writes. -/
theorem exists_write_of_long {T : TransferCode B} (hsilent : B.Silent) {registry : History × σ}
    {world : B.World} {es : List (NodeEvent B)} {i : Nat} {job : Job (Asks B) GateFault Unit Desk}
    (hjob : ((T.node σ).run (Tasks.start registry world) es).jobs[i]? = some job)
    (hlong : 1 < job.locals.exchange.send.written.length) :
    ∃ data out before env after,
      (T.node σ).Moment i (Tasks.start registry world) es ⟨.writeAll data, out⟩ before env after ∧
        Serves T job.locals.peer (.writeAll data)
          ((T.node σ).turns i (Tasks.start registry world) before) := by
  obtain ⟨capacity, hreach, -, -⟩ := task_life hjob
  have hguarded := Program.guarded_reaches (TransferCode.handleRequest_wp T job.locals.peer) hreach
  obtain ⟨new, data, out, old, hturns, hserves⟩ := exists_serves_of_tried hguarded
    (hlong.trans_le (length_written_le hsilent hjob))
  obtain ⟨before, env, after, hmoment, rfl⟩ := System.exists_moment es hturns
  exact ⟨data, out, before, env, after, hmoment, hserves⟩

/-! ### What comes first -/

/-- The requests to the backing only ever add to the stream. -/
def Backing.Appends (B : Backing) : Prop :=
  ∀ op world send, send.written <+: (B.exec op world send).2.2.written

omit [EndpointKeys] in
theorem prefix_writeAll (send : SendStream) (data : Bytes) :
    send.written <+: (send.writeAll data).2.written := by
  unfold SendStream.writeAll
  split
  · exact List.prefix_rfl
  · split
    · exact List.prefix_append ..
    · exact List.prefix_append ..

/-- A turn only ever adds to the stream. -/
theorem Host.prefix_exec (happends : B.Appends) {env : Env} {op : TaskOp B} {r : op.Res}
    {host host' : Host σ B} {desk desk' : Desk}
    (h : host.exec env op desk = some (r, host', desk')) :
    desk.exchange.send.written <+: desk'.exchange.send.written := by
  replace h := answer_of_exec h
  cases op with
  | readExact | readToEnd =>
      simp only [answer] at h
      split at h
      · obtain ⟨-, -, rfl⟩ := h
        exact List.prefix_rfl
      · cases h
  | writeAll data =>
      obtain ⟨-, -, rfl⟩ := h
      exact prefix_writeAll _ _
  | finish =>
      obtain ⟨-, -, rfl⟩ := h
      exact (written_finish _).symm ▸ List.prefix_rfl
  | own op =>
      obtain ⟨-, -, rfl⟩ := h
      exact happends op _ _
  | invoke | hasPermission | removeRingFromResource =>
      obtain ⟨-, -, rfl⟩ := h
      exact List.prefix_rfl

/-- What was on the stream when the transfer was called is still there. -/
theorem written_of_transfers {T : TransferCode B} (happends : B.Appends) {registry : History × σ}
    {world : B.World} {es : List (NodeEvent B)} {i : Nat} {job : Job (Asks B) GateFault Unit Desk}
    (hjob : ((T.node σ).run (Tasks.start registry world) es).jobs[i]? = some job) :
    ∀ x ∈ job.locals.exchange.transfers,
      x.2.send.written <+: job.locals.exchange.send.written := by
  obtain ⟨desk₀, -, -, hinv⟩ := (T.node σ).exists_life
    (s := Tasks.start registry world) rfl
    (fun _ _ desk => ∀ x ∈ desk.exchange.transfers,
      x.2.send.written <+: desk.exchange.send.written)
    (fun desk hfresh => by
      obtain ⟨peer, capacity, rfl⟩ := hfresh
      exact fun x hx => absurd hx List.not_mem_nil)
    (fun desk₀ tr desk desk' hinv hdrift => by rwa [hdrift.send, hdrift.transfers])
    (fun desk₀ tr env op host host' desk desk' r hinv hexec => by
      have hprefix : desk.exchange.send.written <+: desk'.exchange.send.written :=
        Host.prefix_exec happends hexec
      have hstill : ∀ x ∈ desk.exchange.transfers,
          x.2.send.written <+: desk'.exchange.send.written :=
        fun x hx => (hinv x hx).trans hprefix
      replace hexec := Host.answer_of_exec hexec
      cases op with
      | readExact | readToEnd =>
          simp only [Host.answer] at hexec
          split at hexec
          · obtain ⟨-, -, rfl⟩ := hexec
            exact hstill
          · cases hexec
      | invoke id =>
          obtain ⟨-, -, rfl⟩ := hexec
          refine List.forall_mem_append.mpr ⟨hstill, List.forall_mem_singleton.mpr ?_⟩
          exact List.prefix_rfl
      | writeAll | finish | hasPermission | removeRingFromResource | own =>
          obtain ⟨-, -, rfl⟩ := hexec
          exact hstill)
    es hjob
  exact hinv

/-- What the operation byte on a stream stands for, if it is there, is nothing. -/
def Desk.Unknown (desk : Desk) : Prop :=
  ∃ id op rest e, Frame desk.arrived id op rest ∧ parseOperation op = .error e

/-- **The first byte is a ruling**: on any stream, in any run, there is nothing yet; or
`Denied` and nothing else, after a ruling against its peer or for an operation byte that
is none; or `Allowed` and what the transfer has written since, after a ruling for it. -/
theorem first_byte_is_ruling {T : TransferCode B} (happends : B.Appends)
    (registry : History × σ) (world : B.World) {es : List (NodeEvent B)} {i : Nat}
    {job : Job (Asks B) GateFault Unit Desk}
    (hjob : ((T.node σ).run (Tasks.start registry world) es).jobs[i]? = some job) :
    job.locals.exchange.send.written = [] ∨
      job.locals.exchange.send.written = [Status.denied.toByte] ∧
        (job.locals.Unknown ∨ ∃ id q, Ruled T registryGrants (Tasks.start registry world) i es
          job.locals.peer id q false) ∨
      (∃ more, job.locals.exchange.send.written = Status.allowed.toByte :: more) ∧
        ∃ id q, Ruled T registryGrants (Tasks.start registry world) i es job.locals.peer id q
          true := by
  cases node_answers T registry world es hjob with
  | silent hw ht => exact .inl hw
  | denied hw ht hruled => exact .inr (.inl ⟨hw, hruled⟩)
  | allowed hw ht hruled => exact .inr (.inr ⟨⟨[], hw⟩, _, _, hruled⟩)
  | served ht hw hreq ha hruled =>
      obtain ⟨more, hmore⟩ := written_of_transfers happends hjob _ (ht ▸ List.mem_singleton_self _)
      exact .inr (.inr ⟨⟨more, by rw [← hmore, hw]; rfl⟩, _, _, hruled⟩)

end IrohRings
