import IrohRings.Foundation.Pools
import IrohRings.Protocol.TaskTraces

/-!
# IrohRings.Protocol.Node

A node with a gate, as it runs (`RingGate::handle`, `src/protocol/gate.rs`): peers
connect, each stream that a peer opens is served by a task of its own, and in between
the operator calls the registry and the state behind the transfer changes. It is a
`System`, so its runs are all orders of these.

A task holds its stream (`Desk`) and shares the `Host` with the others. It waits where
the code awaits: reading waits for more bytes, a write until the peer has taken what was
written (`Desk.Flushed`), and a request of the transfer until what it asks has an answer
(`Desk.stalled`). The calls to the registry do not wait. The host counts what is done to
the registry as `Backend.run` does, so that a run of the node can be compared with the
history its registry has.
-/

namespace IrohRings

open Foundation

/-- `recv.read_to_end(size_limit)`, once the stream has ended or is too long. A stream
that is too long is left as it is: what reads it gives up on it. -/
def readToEnd (recv : RecvStream) (sizeLimit : Nat) : Except AnyError Bytes × RecvStream :=
  if sizeLimit < recv.bytes.length then (.error (.msg "stream too long"), recv)
  else if recv.reset then (.error (.read .reset), { recv with bytes := [] })
  else (.ok recv.bytes, { recv with bytes := [] })

variable [EndpointKeys]

/-! ### A stream and its task -/

/-- A stream that a peer opened, as the task that serves it has it: both halves and the
transfers that were called, all that has come in on it, and whether anything more can;
how many of the bytes written the peer has room for (`none`: any number), and whether
what the transfer asks is left without an answer. -/
structure Desk where
  peer : EndpointId
  exchange : Exchange
  arrived : Bytes
  ended : Bool
  window : Option Nat
  stalled : Bool

namespace Desk

/-- A stream that was just opened. The peer has no room yet. -/
def opened (peer : EndpointId) (capacity : Option Nat) : Desk where
  peer
  exchange := ⟨⟨.fresh capacity, ⟨[], false⟩⟩, []⟩
  arrived := []
  ended := false
  window := some 0
  stalled := false

def setRecv (desk : Desk) (recv : RecvStream) : Desk :=
  { desk with exchange := { desk.exchange with recv } }

def setSend (desk : Desk) (send : SendStream) : Desk :=
  { desk with exchange := { desk.exchange with send } }

/-- More bytes come in. -/
def deliver (desk : Desk) (data : Bytes) : Desk :=
  if desk.ended then desk
  else
    { desk.setRecv { desk.exchange.recv with bytes := desk.exchange.recv.bytes ++ data } with
      arrived := desk.arrived ++ data }

/-- The peer finishes the stream. -/
def close (desk : Desk) : Desk := { desk with ended := true }

/-- The peer resets the stream, or is gone; of what was not read, some bytes are kept. -/
def reset (desk : Desk) (kept : Nat) : Desk :=
  if desk.ended then desk
  else { desk.setRecv ⟨desk.exchange.recv.bytes.take kept, true⟩ with ended := true }

/-- The peer makes room for `room` more bytes, or for all that may come. -/
def widen (desk : Desk) (room : Option Nat) : Desk :=
  { desk with window := room.elim none fun n => desk.window.map (· + n) }

/-- Reading `n` bytes need not wait. -/
def Ready (desk : Desk) (n : Nat) : Prop :=
  desk.ended = true ∨ n ≤ desk.exchange.recv.bytes.length

instance (desk : Desk) (n : Nat) : Decidable (desk.Ready n) :=
  inferInstanceAs (Decidable (_ ∨ _))

/-- What the peer has taken of the bytes written. -/
def sent (desk : Desk) : Bytes :=
  desk.window.elim desk.exchange.send.written desk.exchange.send.written.take

/-- The peer has taken all that was written. -/
def Flushed (desk : Desk) : Prop := ∀ n ∈ desk.window, desk.exchange.send.written.length ≤ n

instance (desk : Desk) : Decidable desk.Flushed :=
  inferInstanceAs (Decidable (∀ n ∈ desk.window, _))

theorem sent_of_flushed {desk : Desk} (h : desk.Flushed) :
    desk.sent = desk.exchange.send.written := by
  unfold sent
  cases hwindow : desk.window with
  | none => rfl
  | some n => exact List.take_of_length_le (h n hwindow)

variable {B : Backing}

/-- The task cannot go on with a request: what it wrote before was not taken yet, or what
its transfer asks is left without an answer. -/
def Held (desk : Desk) (op : TaskOp B) : Prop :=
  ¬ desk.Flushed ∨ desk.stalled = true ∧ op.IsOwn

instance (desk : Desk) (op : TaskOp B) : Decidable (desk.Held op) :=
  inferInstanceAs (Decidable (_ ∨ _))

end Desk

/-! ### The host -/

/-- A connection, and whether the gate still accepts streams on it. -/
structure Conn where
  peer : EndpointId
  accepting : Bool

/-- What the tasks of a node share: the registry and its history, the state behind the
transfer, and the connections. -/
structure Host (σ : Type) (B : Backing) where
  registry : History × σ
  world : B.World
  conns : List Conn

namespace Host

variable {σ : Type} [Backend σ] {B : Backing}

/-- A call is made to the registry. -/
def call (host : Host σ B) (env : Env) (c : Call) : Host σ B :=
  { host with registry := Backend.record host.registry (.call env c) }

/-- The answer to a request of a task that is not held up, at a moment with the given
clock and hash order, unless reading has to wait. -/
def answer (env : Env) :
    (op : TaskOp B) → Host σ B → Desk → Option (op.Res × Host σ B × Desk)
  | .readExact n, host, desk =>
    if desk.Ready n then
      let (out, recv) := desk.exchange.recv.readExact n
      some (out, host, desk.setRecv recv)
    else none
  | .readToEnd sizeLimit, host, desk =>
    if desk.Ready (sizeLimit + 1) then
      let (out, recv) := readToEnd desk.exchange.recv sizeLimit
      some (out, host, desk.setRecv recv)
    else none
  | .writeAll data, host, desk =>
    let (out, send) := desk.exchange.send.writeAll data
    some (out, host, desk.setSend send)
  | .finish, host, desk =>
    let (out, send) := desk.exchange.send.finish
    some (out, host, desk.setSend send)
  | .invoke resourceId, host, desk =>
    some ((), host, { desk with
      exchange.transfers := desk.exchange.transfers ++ [(resourceId, desk.exchange.toStreams)] })
  | .hasPermission peer resourceId permission, host, desk =>
    some (Registry.hasPermission env host.registry.2 peer resourceId permission,
      host.call env (.hasPermission peer resourceId permission), desk)
  | .removeRingFromResource resourceId, host, desk =>
    some ((Registry.removeRingFromResource host.registry.2 resourceId).1,
      host.call env (.removeRingFromResource resourceId), desk)
  | .own op, host, desk =>
    let (r, world, send) := B.exec op host.world desk.exchange.send
    some (r, { host with world }, desk.setSend send)

/-- Answer a request of a task, unless the task has to wait. A task does nothing between a
write and its next request, so `write_all(..).await` is to hand the data over, and not to
make that request before the peer has taken it. -/
def exec (env : Env) (op : TaskOp B) (host : Host σ B) (desk : Desk) :
    Option (op.Res × Host σ B × Desk) :=
  if desk.Held op then none else host.answer env op desk

section Equations

variable {env : Env} {host host' : Host σ B} {desk desk' : Desk}

/-- Who is answered is not held up. -/
theorem not_held_of_exec {op : TaskOp B} {out : op.Res × Host σ B × Desk}
    (h : host.exec env op desk = some out) : ¬ desk.Held op := by
  intro hheld
  rw [exec, if_pos hheld] at h
  cases h

theorem answer_of_exec {op : TaskOp B} {out : op.Res × Host σ B × Desk}
    (h : host.exec env op desk = some out) : host.answer env op desk = some out := by
  rw [← h, exec, if_neg (not_held_of_exec h)]

theorem answer_writeAll_eq {data : Bytes} {out : Except WriteFault Unit} :
    host.answer env (.writeAll data) desk = some (out, host', desk') ↔
      (desk.exchange.send.writeAll data).1 = out ∧ host = host' ∧
        desk.setSend (desk.exchange.send.writeAll data).2 = desk' := by
  simp [answer]

theorem answer_finish_eq {out : Except WriteFault Unit} :
    host.answer env .finish desk = some (out, host', desk') ↔
      desk.exchange.send.finish.1 = out ∧ host = host' ∧
        desk.setSend desk.exchange.send.finish.2 = desk' := by
  simp [answer]

theorem answer_own_eq {op : B.Op} {r : B.Res op} :
    host.answer env (.own op) desk = some (r, host', desk') ↔
      (B.exec op host.world desk.exchange.send).1 = r ∧
        { host with world := (B.exec op host.world desk.exchange.send).2.1 } = host' ∧
        desk.setSend (B.exec op host.world desk.exchange.send).2.2 = desk' := by
  simp [answer]

/-- What is read to the end is all there is, and all there will be. -/
theorem exec_readToEnd_ok {sizeLimit : Nat} {data : Bytes}
    (h : host.exec env (.readToEnd sizeLimit) desk = some (.ok data, host', desk')) :
    desk.ended = true ∧ desk.exchange.recv.reset = false ∧ desk.exchange.recv.bytes = data ∧
      data.length ≤ sizeLimit := by
  replace h := answer_of_exec h
  simp only [answer] at h
  split at h
  · rename_i hready
    have hread : (readToEnd desk.exchange.recv sizeLimit).1 = .ok data :=
      (Prod.mk.inj (Option.some.inj h)).1
    unfold readToEnd at hread
    split at hread
    · cases hread
    · rename_i hshort
      have hle := Nat.le_of_not_lt hshort
      split at hread
      · cases hread
      · rename_i hreset
        obtain rfl := Except.ok.inj hread
        exact ⟨hready.resolve_right (Nat.not_le.mpr (Nat.lt_succ_of_le hle)), by simpa using hreset,
          rfl, hle⟩
  · cases h

/-- A task leaves the state behind the transfer alone, or makes a request to it. -/
theorem exec_world {op : TaskOp B} {r : op.Res}
    (h : host.exec env op desk = some (r, host', desk')) :
    host'.world = host.world ∨
      ∃ own, op = .own own ∧ host'.world = (B.exec own host.world desk.exchange.send).2.1 := by
  replace h := answer_of_exec h
  cases op with
  | readExact | readToEnd =>
      simp only [answer] at h
      split at h
      · obtain ⟨-, rfl, -⟩ := h
        exact .inl rfl
      · cases h
  | own own =>
      obtain ⟨-, rfl, -⟩ := h
      exact .inr ⟨own, rfl, rfl⟩
  | writeAll | finish | invoke | hasPermission | removeRingFromResource =>
      obtain ⟨-, rfl, -⟩ := h
      exact .inl rfl

/-- A task does not change who it serves, what has come in, how the stream ends, what
room the peer has made or whether it is stalled; transfers that were called stay. -/
theorem exec_keeps {op : TaskOp B} {r : op.Res}
    (h : host.exec env op desk = some (r, host', desk')) :
    desk'.peer = desk.peer ∧ desk'.arrived = desk.arrived ∧ desk'.ended = desk.ended ∧
      desk'.exchange.recv.reset = desk.exchange.recv.reset ∧ desk'.window = desk.window ∧
      desk'.stalled = desk.stalled ∧ desk.exchange.transfers <+: desk'.exchange.transfers := by
  replace h := answer_of_exec h
  cases op with
  | readExact n =>
      simp only [answer] at h
      split at h
      · obtain ⟨-, -, rfl⟩ := h
        refine ⟨rfl, rfl, rfl, ?_, rfl, rfl, List.prefix_rfl⟩
        simp only [Desk.setRecv, RecvStream.readExact]
        split <;> rfl
      · cases h
  | readToEnd sizeLimit =>
      simp only [answer] at h
      split at h
      · obtain ⟨-, -, rfl⟩ := h
        refine ⟨rfl, rfl, rfl, ?_, rfl, rfl, List.prefix_rfl⟩
        simp only [Desk.setRecv, readToEnd]
        split
        · rfl
        · split <;> rfl
      · cases h
  | invoke =>
      obtain ⟨-, -, rfl⟩ := h
      exact ⟨rfl, rfl, rfl, rfl, rfl, rfl, List.prefix_append ..⟩
  | writeAll | finish | hasPermission | removeRingFromResource | own =>
      obtain ⟨-, -, rfl⟩ := h
      exact ⟨rfl, rfl, rfl, rfl, rfl, rfl, List.prefix_rfl⟩

end Equations

end Host

/-! ### The node -/

/-- What happens at a node besides its tasks. -/
inductive Outside (B : Backing)
  /-- The operator calls the registry. -/
  | call (env : Env) (c : Call)
  /-- The state behind the transfer changes. -/
  | world (world : B.World)
  /-- A peer connects, and `handle` starts to accept streams from it. -/
  | connect (peer : EndpointId)
  /-- `conn.accept_bi()` fails, and `handle` returns. -/
  | close (conn : Nat)
  /-- `conn.accept_bi()`: the peer opened a stream, which a task is spawned for. -/
  | acceptBi (conn : Nat) (capacity : Option Nat)
  /-- On the `i`-th stream, data comes in, or the stream ends. -/
  | deliver (i : Nat) (data : Bytes)
  | finish (i : Nat)
  | reset (i : Nat) (kept : Nat)
  /-- The peer of the `i`-th stream makes room for more of what is written on it. -/
  | widen (i : Nat) (room : Option Nat)
  /-- What the transfer asks for the `i`-th stream is left without an answer, or no longer. -/
  | stall (i : Nat) (stalled : Bool)

/-- The tasks of a node. -/
abbrev Tasks (σ : Type) (B : Backing) : Type _ :=
  Pool (Asks B) GateFault Unit (Host σ B) Desk

namespace Tasks

variable {σ : Type} [Backend σ] {B : Backing}

/-- Something happens to the `i`-th stream. -/
def onDesk (s : Tasks σ B) (i : Nat) (f : Desk → Desk) : Tasks σ B :=
  { s with jobs := s.jobs.modify i fun job => { job with locals := f job.locals } }

/-- What may happen to the `i`-th stream besides its task. -/
inductive Touches (i : Nat) : Outside B → (Desk → Desk) → Prop
  | deliver (data : Bytes) : Touches i (.deliver i data) (·.deliver data)
  | finish : Touches i (.finish i) Desk.close
  | reset (kept : Nat) : Touches i (.reset i kept) (·.reset kept)
  | widen (room : Option Nat) : Touches i (.widen i room) (·.widen room)
  | stall (stalled : Bool) : Touches i (.stall i stalled) fun desk => { desk with stalled }

/-- Something happens besides the tasks. -/
def outside (T : TransferCode B) : Outside B → Tasks σ B → Tasks σ B
  | .call env c, s => { s with shared := s.shared.call env c }
  | .world world, s => { s with shared := { s.shared with world } }
  | .connect peer, s =>
    { s with shared := { s.shared with conns := s.shared.conns ++ [⟨peer, true⟩] } }
  | .close conn, s =>
    { s with shared := { s.shared with
        conns := s.shared.conns.modify conn fun c => { c with accepting := false } } }
  | .acceptBi conn capacity, s =>
    match s.shared.conns[conn]? with
    | some ⟨peer, true⟩ =>
      { s with jobs := s.jobs ++ [⟨T.handleRequest peer, .opened peer capacity⟩] }
    | _ => s
  | .deliver i data, s => s.onDesk i (·.deliver data)
  | .finish i, s => s.onDesk i Desk.close
  | .reset i kept, s => s.onDesk i (·.reset kept)
  | .widen i room, s => s.onDesk i (·.widen room)
  | .stall i stalled, s => s.onDesk i fun desk => { desk with stalled }

end Tasks

/-! ### What happens to a stream besides its task -/

/-- Data comes in until the stream ends; a reset may drop some of it. Room that was made
stays. -/
structure Desk.Drift (desk desk' : Desk) : Prop where
  peer : desk'.peer = desk.peer
  send : desk'.exchange.send = desk.exchange.send
  transfers : desk'.exchange.transfers = desk.exchange.transfers
  window : ∀ n ∈ desk'.window, ∃ k ∈ desk.window, k ≤ n
  ended : desk.ended = true → desk'.ended = true ∧ desk'.arrived = desk.arrived ∧
    desk'.exchange.recv = desk.exchange.recv
  live : desk'.ended = false → desk'.exchange.recv.reset = desk.exchange.recv.reset
  arrived : ∃ data, desk'.arrived = desk.arrived ++ data ∧
    desk'.exchange.recv.bytes <+: desk.exchange.recv.bytes ++ data ∧
    (desk'.exchange.recv.reset = false → desk.exchange.recv.reset = false ∧
      desk'.exchange.recv.bytes = desk.exchange.recv.bytes ++ data)

namespace Desk

variable {desk : Desk}

/-- Nothing comes in, and the stream goes on or ends. -/
theorem drift_of_recv {desk' : Desk} (hpeer : desk'.peer = desk.peer)
    (hexchange : desk'.exchange = desk.exchange) (harrived : desk'.arrived = desk.arrived)
    (hended : desk.ended = true → desk'.ended = true)
    (hwindow : ∀ n ∈ desk'.window, ∃ k ∈ desk.window, k ≤ n) : desk.Drift desk' where
  peer := hpeer
  send := by rw [hexchange]
  transfers := by rw [hexchange]
  window := hwindow
  ended h := ⟨hended h, harrived, by rw [hexchange]⟩
  live _ := by rw [hexchange]
  arrived := ⟨[], by simp [harrived], by simp [hexchange],
    fun h => ⟨hexchange ▸ h, by simp [hexchange]⟩⟩

theorem Drift.refl (desk : Desk) : desk.Drift desk :=
  drift_of_recv rfl rfl rfl id fun n hn => ⟨n, hn, le_rfl⟩

/-- What the peer has taken it has taken. -/
theorem Drift.flushed {desk' : Desk} (h : desk.Drift desk') (hflushed : desk.Flushed) :
    desk'.Flushed := by
  intro n hn
  obtain ⟨k, hk, hle⟩ := h.window n hn
  rw [h.send]
  exact (hflushed k hk).trans hle

theorem Drift.room {desk' : Desk} (h : desk.Drift desk') (hroom : desk.window ≠ some 0) :
    desk'.window ≠ some 0 := by
  intro hzero
  obtain ⟨k, hk, hle⟩ := h.window 0 hzero
  obtain rfl := Nat.le_zero.mp hle
  exact hroom hk

theorem drift_deliver (data : Bytes) : desk.Drift (desk.deliver data) := by
  unfold deliver
  split
  · exact .refl desk
  · rename_i hopen
    exact {
      peer := rfl
      send := rfl
      transfers := rfl
      window := fun n hn => ⟨n, hn, le_rfl⟩
      ended := fun h => absurd h hopen
      live := fun _ => rfl
      arrived := ⟨data, rfl, List.prefix_rfl, fun h => ⟨h, rfl⟩⟩ }

theorem drift_close : desk.Drift desk.close :=
  drift_of_recv rfl rfl rfl (fun _ => rfl) fun n hn => ⟨n, hn, le_rfl⟩

theorem drift_widen (room : Option Nat) : desk.Drift (desk.widen room) := by
  refine drift_of_recv rfl rfl rfl id fun n hn => ?_
  unfold widen at hn
  cases room with
  | none => cases hn
  | some more =>
      obtain ⟨k, hk, rfl⟩ := Option.mem_map.mp hn
      exact ⟨k, hk, Nat.le_add_right k more⟩

theorem drift_stall (stalled : Bool) : desk.Drift { desk with stalled } :=
  drift_of_recv rfl rfl rfl id fun n hn => ⟨n, hn, le_rfl⟩

theorem drift_reset (kept : Nat) : desk.Drift (desk.reset kept) := by
  unfold reset
  split
  · exact .refl desk
  · rename_i hopen
    exact {
      peer := rfl
      send := rfl
      transfers := rfl
      window := fun n hn => ⟨n, hn, le_rfl⟩
      ended := fun h => absurd h hopen
      live := nofun
      arrived := ⟨[], by simp [setRecv], by simp [setRecv, List.take_prefix], nofun⟩ }

end Desk

/-! ### The node as a system -/

section System

variable {σ : Type} [Backend σ] {B : Backing} (T : TransferCode B)

namespace Tasks

variable {x : Outside B} {s : Tasks σ B} {i : Nat} {job : Job (Asks B) GateFault Unit Desk}

variable (x) in
/-- What happens besides the tasks leaves their code alone. It leaves the `i`-th stream as
it was, unless it is something that happens to it. -/
theorem outside_job (h : s.jobs[i]? = some job) :
    (outside T x s).jobs[i]? = some job ∨ ∃ f, Touches i x f ∧
      (outside T x s).jobs[i]? = some { job with locals := f job.locals } := by
  have hdesk : ∀ {j : Nat} {f : Desk → Desk}, Touches j x f →
      (s.onDesk j f).jobs[i]? = some job ∨ ∃ f', Touches i x f' ∧
        (s.onDesk j f).jobs[i]? = some { job with locals := f' job.locals } := by
    intro j f htouches
    by_cases hij : j = i
    · subst hij
      exact .inr ⟨f, htouches, by simp [onDesk, h]⟩
    · exact .inl (by simp [onDesk, hij, h])
  cases x with
  | call | world | connect | close => exact .inl h
  | acceptBi conn capacity =>
      have hlt : i < s.jobs.length := (List.getElem?_eq_some_iff.mp h).1
      simp only [outside]
      split
      · exact .inl (by rw [List.getElem?_append_left hlt, h])
      · exact .inl h
  | deliver j data => exact hdesk (.deliver data)
  | finish j => exact hdesk .finish
  | reset j kept => exact hdesk (.reset kept)
  | widen j room => exact hdesk (.widen room)
  | stall j stalled => exact hdesk (.stall stalled)

/-- Streams stay as they were or get more data, room or answers. -/
theorem keeps_jobs (h : s.jobs[i]? = some job) :
    ∃ desk, job.locals.Drift desk ∧
      (outside T x s).jobs[i]? = some { job with locals := desk } := by
  obtain hsame | ⟨f, htouches, hjob⟩ := outside_job T x h
  · exact ⟨_, .refl _, hsame⟩
  · refine ⟨_, ?_, hjob⟩
    cases htouches with
    | deliver data => exact job.locals.drift_deliver data
    | finish => exact job.locals.drift_close
    | reset kept => exact job.locals.drift_reset kept
    | widen room => exact job.locals.drift_widen room
    | stall stalled => exact job.locals.drift_stall stalled

/-- Only a reset resets a stream. -/
theorem outside_reset (h : s.jobs[i]? = some job) {job' : Job (Asks B) GateFault Unit Desk}
    (h' : (outside T x s).jobs[i]? = some job') (hx : ∀ kept, x ≠ .reset i kept) :
    job'.locals.exchange.recv.reset = job.locals.exchange.recv.reset := by
  obtain hsame | ⟨f, htouches, hjob⟩ := outside_job T x h
  · rw [Option.some.inj (h'.symm.trans hsame)]
  · rw [Option.some.inj (h'.symm.trans hjob)]
    cases htouches with
    | deliver data =>
        simp only [Desk.deliver]
        split <;> rfl
    | finish | widen | stall => rfl
    | reset kept => exact absurd rfl (hx kept)

/-- A task starts with a stream that was just opened. -/
theorem spawns_opened (hnone : s.jobs[i]? = none) (h : (outside T x s).jobs[i]? = some job) :
    (∃ peer capacity, job.locals = .opened peer capacity) ∧
      job.code = T.handleRequest job.locals.peer := by
  have hold : s.jobs[i]? ≠ some job := by simp [hnone]
  have hdesk : ∀ (j : Nat) (f : Desk → Desk), (s.onDesk j f).jobs[i]? ≠ some job := by
    intro j f
    simp only [onDesk, List.getElem?_modify, hnone]
    split <;> nofun
  cases x with
  | call | world | connect | close => exact absurd h hold
  | acceptBi conn capacity =>
      simp only [outside] at h
      split at h
      · rename_i peer _
        rw [List.getElem?_append_right (List.getElem?_eq_none_iff.mp hnone)] at h
        obtain ⟨-, rfl⟩ := List.getElem?_eq_some_iff.mp h
        simp only [List.getElem_singleton]
        exact ⟨⟨peer, capacity, rfl⟩, rfl⟩
      · exact absurd h hold
  | deliver | finish | reset | widen | stall => exact absurd h (hdesk _ _)

end Tasks

variable (σ) in
/-- The node: its tasks, and what happens besides. -/
def TransferCode.node : System (Asks B) GateFault Unit (Host σ B) Desk Env (Outside B) where
  exec := Host.exec
  outside := Tasks.outside T
  main desk := T.handleRequest desk.peer
  fresh desk := ∃ peer capacity, desk = .opened peer capacity
  drift := Desk.Drift
  drift_refl := Desk.Drift.refl
  keeps _ _ _ _ := Tasks.keeps_jobs T
  spawns _ _ _ _ := Tasks.spawns_opened T

/-- What happens in a run of a node. -/
abbrev NodeEvent (B : Backing) : Type _ := Occurrence Env (Outside B)

/-- A node that was just started. -/
def Tasks.start (registry : History × σ) (world : B.World) : Tasks σ B :=
  ⟨⟨registry, world, []⟩, []⟩

/-- A schedule to look at: a peer connects, opens a stream, sends the data, finishes the
stream and takes whatever comes; from then on its task gets every turn. -/
def sampleSchedule (peer : EndpointId) (data : Bytes) : Nat → NodeEvent B
  | 0 => .outside (.connect peer)
  | 1 => .outside (.acceptBi 0 none)
  | 2 => .outside (.deliver 0 data)
  | 3 => .outside (.finish 0)
  | 4 => .outside (.widen 0 none)
  | _ => .turn 0 Env.atEpoch

/-- A registry to look at: a ring with one member, and what it may do with a resource. -/
def sampleEvents (resourceId : Bytes) (ringName : String) (permissions : List Permission)
    (peer : EndpointId) : List Event :=
  [.call Env.atEpoch (.createRing ringName),
    .call Env.atEpoch (.addRingToResource resourceId ringName permissions),
    .call Env.atEpoch (.addPeerToRing ringName peer (some "alice") none)]

theorem sampleSchedule_five (registry : History × σ) (world : B.World) (peer : EndpointId)
    (data : Bytes) :
    ((T.node σ).run (Tasks.start registry world)
        (System.upTo (sampleSchedule peer data) 5)).jobs[0]? =
      some ⟨T.handleRequest peer,
        (((Desk.opened peer none).deliver data).close).widen none⟩ := rfl

/-! ### A stream over time -/

/-- How a stream may differ from what it was at an earlier moment. -/
structure Desk.Later (desk desk' : Desk) : Prop where
  peer : desk'.peer = desk.peer
  arrived : desk.arrived <+: desk'.arrived
  ended : desk.ended = true → desk'.ended = true ∧ desk'.arrived = desk.arrived ∧
    desk'.exchange.recv.reset = desk.exchange.recv.reset
  whole : desk'.exchange.recv.reset = false → desk.exchange.recv.reset = false
  room : desk.window ≠ some 0 → desk'.window ≠ some 0
  transfers : desk.exchange.transfers <+: desk'.exchange.transfers

theorem Desk.Later.drift {desk desk' desk'' : Desk} (h : desk.Later desk')
    (hdrift : desk'.Drift desk'') : desk.Later desk'' := by
  obtain ⟨data, harrived, -, hwhole⟩ := hdrift.arrived
  exact {
    peer := hdrift.peer.trans h.peer
    arrived := h.arrived.trans ⟨data, harrived.symm⟩
    ended := fun hended => by
      obtain ⟨hstill, harrived', hreset⟩ := h.ended hended
      obtain ⟨hstill', harrived'', hrecv⟩ := hdrift.ended hstill
      exact ⟨hstill', harrived''.trans harrived', by rw [hrecv, hreset]⟩
    whole := fun hreset => h.whole (hwhole hreset).1
    room := fun hroom => hdrift.room (h.room hroom)
    transfers := hdrift.transfers ▸ h.transfers }

variable {T} in
/-- **A stream over time**: it stays with its peer, what has come in stays, an end is an
end, and so do the room that was made and the transfers that were called. -/
theorem desk_later {s : Tasks σ B} {before after : List (NodeEvent B)} {i : Nat}
    {job job' : Job (Asks B) GateFault Unit Desk}
    (hjob : ((T.node σ).run s before).jobs[i]? = some job)
    (hjob' : ((T.node σ).run s (before ++ after)).jobs[i]? = some job') :
    job.locals.Later job'.locals := by
  obtain ⟨later, hlater, -, hrel⟩ := (T.node σ).exists_later
    (fun _ desk => job.locals.Later desk)
    (fun tr desk desk' hrel hdrift => hrel.drift hdrift)
    (fun tr env op host host' desk desk' r hrel hexec => by
      obtain ⟨hpeer, harrived, hended, hreset, hwindow, -, htransfers⟩ := Host.exec_keeps hexec
      exact ⟨hpeer.trans hrel.peer, harrived ▸ hrel.arrived,
        fun h => by rw [hended, harrived, hreset]; exact hrel.ended h,
        fun h => hrel.whole (hreset.symm.trans h), fun h => hwindow ▸ hrel.room h,
        hrel.transfers.trans htransfers⟩)
    hjob ⟨rfl, List.prefix_rfl, fun h => ⟨h, rfl, rfl⟩, fun h => h, fun h => h, List.prefix_rfl⟩
    after
  rw [System.run_append] at hjob'
  obtain rfl := Option.some.inj (hlater.symm.trans hjob')
  exact hrel

end System

end IrohRings
