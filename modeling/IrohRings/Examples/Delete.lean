import IrohRings.Examples.Write

/-!
# IrohRings.Examples.Delete

`DeleteTransfer` (`examples/delete.rs`): a peer that is let in takes all rings off the
resource it requested. They are all taken off at once, and only on behalf of a peer that
was let in (`associations_stay_or_go`); a peer that got an acknowledgment knows that
nobody gets at the resource before the operator associates it again
(`acknowledged_is_gone`).
-/

namespace IrohRings

open Foundation

variable [EndpointKeys]

/-- `registry.remove_ring_from_resource(resource_id.to_vec())?` -/
def TaskM.removeRingFromResource {B : Backing} (resourceId : Bytes) : TaskM B Unit := do
  match ← TaskM.ask (.removeRingFromResource resourceId) with
  | .ok () => pure ()
  | .error (.err e) => .fail (.err (.msg e.text))
  | .error (.panic message) => .fail (.panic message)

theorem TaskM.wp_removeRingFromResource {B : Backing} {id : Bytes}
    {guard : Turn (Asks B) → List (Turn (Asks B)) → Prop} {tr : List (Turn (Asks B))}
    {post : List (Turn (Asks B)) → Except GateFault Unit → Prop} :
    Program.wp guard post (removeRingFromResource id) tr ↔
      ∀ out : Outcome Unit, guard ⟨.removeRingFromResource id, out⟩ tr ∧
        post (⟨.removeRingFromResource id, out⟩ :: tr) (match out with
          | .ok () => .ok ()
          | .error (.err e) => .error (.err (.msg e.text))
          | .error (.panic m) => .error (.panic m)) := by
  unfold removeRingFromResource
  rw [Program.wp_bind, wp_ask]
  refine forall_congr' fun out => and_congr_right fun _ => ?_
  obtain (e | m) | b := out
  · rfl
  · rfl
  · rfl

/-- `DeleteTransfer`. -/
def deleteTransfer : TransferCode .nothing where
  canAccess _ _ := .ret false
  transfer resourceId := do
    TaskM.removeRingFromResource resourceId
    .writeAll (asBytes "ok")
  canAccess_offStream _ _ := trivial
  transfer_serving _ := by
    refine Program.Uses.bind ((Program.uses_request trivial).bind fun out => ?_) fun _ =>
      (Program.uses_request trivial).bind fun _ => Program.uses_ofExcept
    obtain (e | m) | b := out <;> trivial

/-- Its `can_access` is always `false`. -/
theorem onlyRegistry_deleteTransfer : deleteTransfer.OnlyRegistry := fun _ _ => rfl

/-- The rings are taken off first, and this is acknowledged if it went well. -/
def Deleting (id : Bytes) (t : Turn (Asks .nothing)) (tr : List (Turn (Asks .nothing))) : Prop :=
  match t.op with
  | .removeRingFromResource id' => id' = id ∧ tr = []
  | .writeAll _ => tr = [⟨.removeRingFromResource id, .ok ()⟩]
  | _ => True

/-- The transfer asks for the removal first, and writes only after it went well. -/
theorem deleting_of_reaches {id : Bytes} {new : List (Turn (Asks .nothing))}
    {op : TaskOp .nothing} {next : op.Res → TaskM .nothing Unit} (r : op.Res)
    (h : (deleteTransfer.transfer id).Reaches new (.ask op next)) : Deleting id ⟨op, r⟩ new := by
  have hwp : Program.wp (Deleting id) (fun _ _ => True) (deleteTransfer.transfer id) [] := by
    refine Program.wp_bind.mpr (TaskM.wp_removeRingFromResource.mpr fun out => ⟨⟨rfl, rfl⟩, ?_⟩)
    obtain (e | m) | b := out
    · trivial
    · trivial
    · exact TaskM.wp_writeAll.mpr fun out => ⟨rfl, trivial⟩
  obtain ⟨hask, -⟩ := Program.wp_reaches hwp h
  rw [List.append_nil] at hask
  exact (hask r).1

/-! ### What is granted on a resource

A resource has its rings taken off by a task or by the operator, and gets them from the
operator only. What both results rest on is one step: it leaves what is granted on a
resource as it is, or is a removal and leaves nothing. -/

section Registry

variable {σ : Type} [Backend σ] (registry : History × σ) (env : Env) {id : Bytes} (r : String)

/-- A removal takes all rings off the resource, or fails. -/
theorem granted_removed :
    granted id r (Backend.record registry (.call env (.removeRingFromResource id))).1 =
      if (Registry.removeRingFromResource registry.2 id).1.isOk then none
      else granted id r registry.1 := by
  obtain ⟨hist, s⟩ := registry
  let last : Record :=
    ⟨env, .removeRingFromResource id, .unit (Registry.removeRingFromResource s id).1⟩
  show granted id r (last :: hist) = _
  by_cases hok : (Registry.removeRingFromResource s id).1.isOk = true
  · have heffect : last.effect = .dissociated id := if_pos hok
    rw [granted, heffect, if_pos hok]
    exact if_pos rfl
  · have heffect : last.effect = .nothing := if_neg hok
    rw [granted, heffect, if_neg hok]

end Registry

/-- The operator leaves the associations of the resource alone. -/
def NodeEvent.Spares {B : Backing} (id : Bytes) : NodeEvent B → Prop
  | .outside (.call _ c) => c.Spares id
  | _ => True

/-- A step leaves what is granted on a resource as it is, or it is a removal by a task,
and then nothing is. -/
theorem step_granted {σ : Type} [Backend σ] {B : Backing} {T : TransferCode B} {s : Tasks σ B}
    {e : NodeEvent B} {id : Bytes} (he : e.Spares id) :
    (∀ r, granted id r ((T.node σ).step s e).shared.registry.1 =
        granted id r s.shared.registry.1) ∨
      (∀ r, granted id r ((T.node σ).step s e).shared.registry.1 = none) ∧
        ∃ j env next desk out, e = .turn j env ∧
          s.jobs[j]? = some ⟨.ask (.removeRingFromResource id) next, desk⟩ ∧
          s.shared.exec env (.removeRingFromResource id) desk = some out := by
  cases e with
  | outside x =>
      cases x with
      | call env c => exact .inl fun r => granted_of_spares (Record.mk env c _) he _ r
      | acceptBi conn capacity =>
          simp only [System.step, TransferCode.node, Tasks.outside]
          split
          · exact .inl fun _ => rfl
          · exact .inl fun _ => rfl
      | world | connect | close | deliver | finish | reset | widen | stall =>
          exact .inl fun _ => rfl
  | turn j env =>
      simp only [System.step]
      split
      · rename_i op next desk hjob
        split
        · rename_i r host desk' hexec
          obtain hsame | ⟨c, hc, hrecord⟩ := exec_registry hexec
          · exact .inl fun r => by rw [hsame]
          · obtain ⟨peer, id', q, -, rfl⟩ | ⟨id', rfl, rfl⟩ := hc
            · exact .inl fun r => by
                rw [hrecord]
                exact granted_of_spares (Record.mk env (.hasPermission peer id' q) _) trivial _ r
            · by_cases hid : id' = id
              · subst hid
                rw [hrecord]
                by_cases hok : (Registry.removeRingFromResource s.shared.registry.2 id').1.isOk
                · exact .inr ⟨fun r => by rw [granted_removed, if_pos hok],
                    j, env, next, desk, _, rfl, hjob, hexec⟩
                · exact .inl fun r => by rw [granted_removed, if_neg hok]
              · exact .inl fun r => by
                  rw [hrecord]
                  exact granted_of_spares (Record.mk env (.removeRingFromResource id') _) hid _ r
        · exact .inl fun _ => rfl
      · exact .inl fun _ => rfl

/-- The operator does not associate the resource. -/
def NodeEvent.LeavesOff {B : Backing} (id : Bytes) : NodeEvent B → Prop
  | .outside (.call _ c) => c.LeavesOff id
  | _ => True

theorem NodeEvent.Spares.leavesOff {B : Backing} {id : Bytes} {e : NodeEvent B}
    (h : e.Spares id) : e.LeavesOff id := by
  cases e with
  | turn j env => trivial
  | outside x =>
      cases x with
      | call env c => cases c <;> first | exact h | trivial
      | _ => trivial

/-- What is granted to no ring stays so: no task associates a resource. -/
theorem step_gone {σ : Type} [Backend σ] {B : Backing} {T : TransferCode B} {s : Tasks σ B}
    {e : NodeEvent B} {id : Bytes} (he : e.LeavesOff id) {r : String}
    (hnone : granted id r s.shared.registry.1 = none) :
    granted id r ((T.node σ).step s e).shared.registry.1 = none := by
  cases e with
  | outside x =>
      cases x with
      | call env c => exact granted_of_leavesOff (Record.mk env c _) he hnone
      | acceptBi conn capacity =>
          simp only [System.step, TransferCode.node, Tasks.outside]
          split <;> exact hnone
      | world | connect | close | deliver | finish | reset | widen | stall => exact hnone
  | turn j env =>
      simp only [System.step]
      split
      · split
        · rename_i hexec
          obtain hsame | ⟨c, hc, hrecord⟩ := exec_registry hexec
          · rwa [hsame]
          · rw [hrecord]
            refine granted_of_leavesOff (Record.mk env c _) ?_ hnone
            obtain ⟨peer, id', q, -, rfl⟩ | ⟨id', -, rfl⟩ := hc <;> trivial
        · exact hnone
      · exact hnone

/-! ### Who takes the rings off

Back from the step to the request it was made for: the task that made it was spawned for
a stream, whose peer had asked for exactly this resource and was let in. Which of the
three permissions the peer asked for is not looked at by the transfer. -/

section Removals

variable {σ : Type} [Backend σ] {registry : History × σ} {es : List (NodeEvent .nothing)} {i : Nat}

variable (grants : Grants σ .nothing) (s : Tasks σ .nothing) in
/-- The peer of the `i`-th stream has requested the resource, and was let in. -/
def DeletionGranted (i : Nat) (es : List (NodeEvent .nothing)) (id : Bytes) : Prop :=
  ∃ job q rest, ((deleteTransfer.node σ).run s es).jobs[i]? = some job ∧
    Requests job.locals.arrived id q rest ∧
    LetIn deleteTransfer grants s i es job.locals.peer id q

/-- A task only removes what was requested on its stream. -/
theorem deletionGranted_of_moment {id : Bytes} {out : Outcome Unit}
    {before after : List (NodeEvent .nothing)} {env : Env}
    (h : (deleteTransfer.node σ).Moment i (Tasks.start registry ()) es
      ⟨.removeRingFromResource id, out⟩ before env after) :
    DeletionGranted registryGrants (Tasks.start registry ()) i before id := by
  obtain ⟨job, hjob, hjustified⟩ := justified_of_moment h
  obtain ⟨id', q, new, decided, next, hturns, hgranted, hreach⟩ :=
    hjustified.resolve_right onlyRegistry_deleteTransfer.not_accesses
  obtain ⟨rfl, rfl⟩ := deleting_of_reaches out hreach
  obtain ⟨capacity, -, htells, -⟩ := task_life hjob
  obtain ⟨hunbroken, hrequests⟩ := hgranted.requests
  have hfront := htells.front (by rw [hturns]; exact hunbroken)
  rw [hturns] at hfront
  obtain ⟨rest, hrequest⟩ := (hrequests _).extend hfront
  have hdecided : decided <:+ (deleteTransfer.node σ).turns i (Tasks.start registry ()) before :=
    hturns ▸ ⟨[_, _], rfl⟩
  exact ⟨job, q, rest, hjob, hrequest,
    (ruled_of_granted hgranted hdecided).letIn onlyRegistry_deleteTransfer⟩

/-- **The rings of a resource stay, or are all taken off**: as long as the operator leaves
the resource alone, what every ring is granted on it stays as it was, or nothing is
granted to any ring any more, and then a peer that was let in has asked for that. -/
theorem associations_stay_or_go (registry : History × σ) (id : Bytes)
    (hes : ∀ e ∈ es, NodeEvent.Spares id e) :
    (∀ r, granted id r
        ((deleteTransfer.node σ).run (Tasks.start registry ()) es).shared.registry.1 =
          granted id r registry.1) ∨
      (∀ r, granted id r
          ((deleteTransfer.node σ).run (Tasks.start registry ()) es).shared.registry.1 = none) ∧
        ∃ i before env after, es = before ++ .turn i env :: after ∧
          DeletionGranted registryGrants (Tasks.start registry ()) i before id := by
  induction es using List.reverseRecOn with
  | nil => exact .inl fun _ => rfl
  | append_singleton es e ih =>
      obtain ⟨hearlier, he⟩ := List.forall_mem_append.mp hes
      have hbefore := ih hearlier
      rw [System.run_append, System.run_singleton]
      obtain hsame | ⟨hgone, j, env, next, desk, ⟨out, host, desk'⟩, rfl, hjob, hexec⟩ :=
        step_granted (s := (deleteTransfer.node σ).run (Tasks.start registry ()) es)
          (he e List.mem_cons_self)
      · obtain hstay | ⟨hgone, i, before, env, after, rfl, hasked⟩ := hbefore
        · exact .inl fun r => (hsame r).trans (hstay r)
        · exact .inr ⟨fun r => (hsame r).trans (hgone r), i, before, env, after ++ [e], by simp,
            hasked⟩
      · have hmoment : (deleteTransfer.node σ).Moment j (Tasks.start registry ())
            (es ++ [.turn j env]) ⟨.removeRingFromResource id, out⟩ es env [] :=
          System.moment_of_exec hjob hexec
        exact .inr ⟨hgone, j, es, env, [], rfl, deletionGranted_of_moment hmoment⟩

/-- Once there are none, there are none until the operator associates some. The operator
may well take rings off in the meantime. -/
theorem gone_stays {first more : List (NodeEvent .nothing)} {id : Bytes}
    (hmore : ∀ e ∈ more, NodeEvent.LeavesOff id e) {r : String}
    (h : granted id r
      ((deleteTransfer.node σ).run (Tasks.start registry ()) first).shared.registry.1 = none) :
    granted id r
      ((deleteTransfer.node σ).run (Tasks.start registry ()) (first ++ more)).shared.registry.1 =
        none := by
  rw [System.run_append]
  exact invariant_along (fun s : Tasks σ .nothing => granted id r s.shared.registry.1 = none)
    (fun s e hnone he => step_gone he hnone) h (along_of_forall hmore _)

/-- More than the status byte is only seen after a removal that went well. -/
theorem exists_removal_of_long {job : Job (Asks .nothing) GateFault Unit Desk}
    (hjob : ((deleteTransfer.node σ).run (Tasks.start registry ()) es).jobs[i]? = some job)
    (hlong : 1 < job.locals.exchange.send.written.length) :
    ∃ id before env after, (deleteTransfer.node σ).Moment i (Tasks.start registry ()) es
      ⟨.removeRingFromResource id, .ok ()⟩ before env after := by
  obtain ⟨data, out, writing, env', rest, hwrite, id, q, new, decided, next, hturns, -, hreach⟩ :=
    exists_write_of_long (fun op => Empty.elim op) hjob hlong
  obtain rfl := deleting_of_reaches out hreach
  obtain ⟨before, env, between, hmoment, -⟩ := System.exists_last_moment writing hturns
  exact ⟨id, before, env, _, hwrite.split ▸ hmoment.append (.turn i env' :: rest)⟩

/-- **A deletion that is acknowledged is one**: if a stream shows more than the status
byte, its peer was let in, and from some moment on nobody is allowed anything on the
resource it requested, until the operator associates it again. -/
theorem acknowledged_is_gone (registry : History × σ)
    {job : Job (Asks .nothing) GateFault Unit Desk}
    (hjob : ((deleteTransfer.node σ).run (Tasks.start registry ()) es).jobs[i]? = some job)
    (hlong : 1 < job.locals.exchange.send.written.length) :
    ∃ id before env after, es = before ++ .turn i env :: after ∧
      DeletionGranted registryGrants (Tasks.start registry ()) i before id ∧
      ∀ more rest, after = more ++ rest → (∀ e ∈ more, NodeEvent.LeavesOff id e) →
        ∀ env' peer q, ¬ historyGrants ((deleteTransfer.node σ).run (Tasks.start registry ())
          (before ++ .turn i env :: more)).shared env' peer id q := by
  obtain ⟨id, before, env, after, hmoment⟩ := exists_removal_of_long hjob hlong
  refine ⟨id, before, env, after, hmoment.split, deletionGranted_of_moment hmoment, ?_⟩
  intro more rest _ hmore env' peer q hallowed
  obtain ⟨r, ⟨perms, hperms, -⟩, -⟩ := hallowed
  obtain ⟨asked, host, after', -, hexec, -, hshared⟩ := hmoment.result
  obtain ⟨hok, hhost⟩ := Prod.mk.inj (Option.some.inj (Host.answer_of_exec hexec))
  obtain ⟨rfl, -⟩ := Prod.mk.inj hhost
  have hgone : ∀ r, granted id r ((deleteTransfer.node σ).run (Tasks.start registry ())
      (before ++ [.turn i env])).shared.registry.1 = none := by
    intro r
    rw [hshared]
    exact (granted_removed _ env r).trans (if_pos (by rw [hok]; rfl))
  have hstill := gone_stays hmore (hgone r)
  rw [List.append_assoc] at hstill
  cases hstill.symm.trans hperms

theorem spares_sampleSchedule (peer : EndpointId) (data id : Bytes) (n : Nat) :
    ∀ e ∈ System.upTo (sampleSchedule (B := .nothing) peer data) n, NodeEvent.Spares id e := by
  intro e he
  obtain ⟨m, -, rfl⟩ := List.mem_map.mp he
  match m with
  | 0 | 1 | 2 | 3 | 4 => trivial
  | m + 5 => trivial

end Removals

/-- A registry that lets a peer delete, and what a curator sends. -/
def curatorEvents (peer : EndpointId) : List Event :=
  sampleEvents [0x61] "curators" [.delete] peer

def curatorRequest : Bytes := [0x01, 0x00, 0x61, 0x03]

set_option maxRecDepth 10000 in
omit [EndpointKeys] in
theorem associations_stay_or_go_sample :
    letI := EndpointKeys.basePoint
    ∃ i before env after,
      System.upTo (sampleSchedule EndpointId.basePoint curatorRequest) 12 =
        before ++ .turn i env :: after ∧
      DeletionGranted registryGrants (Tasks.start
        (Backend.run Inner (curatorEvents EndpointId.basePoint)) ())
        i before [0x61] := by
  let inst := EndpointKeys.basePoint
  obtain hstay | ⟨-, hasked⟩ := associations_stay_or_go
    (Backend.run Inner (curatorEvents EndpointId.basePoint)) [0x61]
    (spares_sampleSchedule EndpointId.basePoint curatorRequest _ 12)
  · exact absurd (hstay "curators") (by decide +kernel)
  · exact hasked

set_option maxRecDepth 10000 in
omit [EndpointKeys] in
theorem acknowledged_is_gone_sample :
    letI := EndpointKeys.basePoint
    let start := Tasks.start (Backend.run Inner (curatorEvents EndpointId.basePoint)) ()
    let es : List (NodeEvent .nothing) :=
      System.upTo (sampleSchedule EndpointId.basePoint curatorRequest) 13
    ∃ id before env after, es = before ++ .turn 0 env :: after ∧
      DeletionGranted registryGrants start 0 before id ∧
      ∀ more rest, after = more ++ rest → ∀ env' peer q,
        ¬ historyGrants ((deleteTransfer.node Inner).run start
          (before ++ .turn 0 env :: more)).shared env' peer id q := by
  let inst := EndpointKeys.basePoint
  have hlong : (((deleteTransfer.node Inner).run (Tasks.start
      (Backend.run Inner (curatorEvents EndpointId.basePoint)) ())
      (System.upTo (sampleSchedule EndpointId.basePoint curatorRequest)
        13)).jobs[0]?).any fun job => 1 < job.locals.exchange.send.written.length := by
    decide +kernel
  obtain ⟨job, hjob, hlong⟩ := (Option.any_eq_true _ _).mp hlong
  obtain ⟨id, before, env, after, hsplit, hasked, hgone⟩ :=
    acknowledged_is_gone _ hjob (by simpa using hlong)
  refine ⟨id, before, env, after, hsplit, hasked, fun more rest hafter => hgone more rest hafter ?_⟩
  intro e he
  refine (spares_sampleSchedule EndpointId.basePoint curatorRequest id 13 e ?_).leavesOff
  rw [hsplit, hafter]
  simp [he]

end IrohRings
