import IrohRings.Protocol.GateTrace
import IrohRings.Transfers.Fs

/-!
# IrohRings.Transfers.FsAccess

Who gets to the transfer through a gate with `FsTransfer`. The gate asks the
registry about the permission that was requested; `canAccess`, the alternative
way in, is not told which one it was and asks about `Read`. So the requested
permission is enforced for `Read`, and for the others as long as the peer may
not read (`fs_enforces_iff`); a peer that may only read is let through with
`Write` (`not_enforces_openDoor`).
-/

namespace IrohRings

open Foundation

/-- Nothing stored. -/
def FsStore.empty : FsStore where
  listTags := .ok []
  getBytes _ := .error (.msg "not found")
  hashSeq _ := .ok []
  exportBao _ _ send := (.error (.msg "not found"), send)

/-- A request to write to a resource. -/
def writeRequest : RecvStream := ⟨[0x01, 0x00, 0x61, 0x02], false⟩

theorem requests_writeRequest : Requests writeRequest.bytes [0x61] .write [] :=
  ⟨[0x01, 0x00, 0x61, 0x02], by decide, rfl⟩

variable [EndpointKeys] {σ : Type} [Registry σ]

namespace FsTransfer

variable {env : Env} {t : FsTransfer σ} {peer : EndpointId} {hash : Hash} {id : Bytes}

theorem mayRead_iff :
    t.mayRead env peer id = true ↔
      Registry.hasPermission env t.registry peer id .read = .ok true := by
  unfold mayRead
  cases Registry.hasPermission env t.registry peer id .read <;> simp

/-- The tag names a collection that contains `hash` and that the peer may read. -/
def Collects (env : Env) (t : FsTransfer σ) (peer : EndpointId) (hash : Hash)
    (info : TagInfo) : Prop :=
  info.format = .hashSeq ∧
    Registry.hasPermission env t.registry peer info.hash.toList .read = .ok true ∧
    ∃ bytes seq, t.store.getBytes info.hash = .ok bytes ∧ t.store.hashSeq bytes = .ok seq ∧
      hash ∈ seq

/-- The resource is a hash in a tagged collection that the peer may read. -/
def InAllowedCollection (env : Env) (t : FsTransfer σ) (peer : EndpointId) (id : Bytes) :
    Prop :=
  ∃ hash : Hash, id = hash.toList ∧ ∃ info ∈ t.store.tags, t.Collects env peer hash info

/-- The loop finds a collection among the tags before the first error, if there
is one. -/
theorem scanTags_iff {items : List (Except AnyError TagInfo)} :
    t.scanTags env peer hash items = true ↔
      ∃ info ∈ okPrefix items, t.Collects env peer hash info := by
  induction items with
  | nil => simp [scanTags, okPrefix]
  | cons item items ih =>
      cases item with
      | error e => simp [scanTags, okPrefix]
      | ok info =>
          rw [scanTags, okPrefix]
          simp only [List.mem_cons, exists_eq_or_imp]
          -- a tag that does not collect the hash is skipped
          have hskip : ¬ t.Collects env peer hash info →
              (t.scanTags env peer hash items = true ↔ t.Collects env peer hash info ∨
                ∃ info ∈ okPrefix items, t.Collects env peer hash info) := fun hnot => by
            rw [ih, or_iff_right hnot]
          split
          · rename_i hformat
            exact hskip fun h => hformat h.1
          · rename_i hformat
            split
            · rename_i hread
              exact hskip fun h => hread (mayRead_iff.mpr h.2.1)
            · rename_i hread
              cases hbytes : t.store.getBytes info.hash with
              | error e =>
                  refine hskip fun ⟨_, _, bytes, _, hok, _⟩ => ?_
                  rw [hbytes] at hok
                  cases hok
              | ok bytes =>
                  dsimp only
                  cases hseq : t.store.hashSeq bytes with
                  | error e =>
                      refine hskip fun ⟨_, _, bytes', _, hok, hok', _⟩ => ?_
                      rw [hbytes] at hok
                      cases hok
                      rw [hseq] at hok'
                      cases hok'
                  | ok seq =>
                      dsimp only
                      split
                      · rename_i hany
                        refine iff_of_true rfl (.inl ⟨not_not.mp hformat,
                          mayRead_iff.mp (not_not.mp hread), bytes, seq, hbytes, hseq, ?_⟩)
                        simpa using hany
                      · rename_i hany
                        refine hskip fun ⟨_, _, bytes', seq', hok, hok', hmem⟩ => hany ?_
                        rw [hbytes] at hok
                        cases hok
                        rw [hseq] at hok'
                        cases hok'
                        simpa using hmem

/-- `canAccess` is about reading: directly, or as part of a collection. -/
theorem canAccess_iff :
    t.canAccess env peer id = true ↔
      Registry.hasPermission env t.registry peer id .read = .ok true ∨
        t.InAllowedCollection env peer id := by
  unfold canAccess
  split
  · rename_i hread
    exact iff_of_true rfl (.inl (mayRead_iff.mp hread))
  · rename_i hread
    rw [or_iff_right (mt mayRead_iff.mpr hread)]
    cases hhash : hashOfId id with
    | none =>
        refine iff_of_false nofun ?_
        intro hcollected
        rcases hcollected with ⟨hash, hid, -⟩
        rw [hashOfId_eq_some.mpr hid] at hhash
        cases hhash
    | some hash =>
        have hid := hashOfId_eq_some.mp hhash
        have hscan : t.isMemberOfAllowedCollection env peer hash = true ↔
            ∃ info ∈ t.store.tags, t.Collects env peer hash info := by
          unfold isMemberOfAllowedCollection FsStore.tags
          cases t.store.listTags with
          | error e => simp
          | ok items => exact scanTags_iff
        rw [hscan]
        refine ⟨fun h => ⟨hash, hid, h⟩, ?_⟩
        intro hcollected
        rcases hcollected with ⟨hash', hid', h⟩
        obtain rfl : hash = hash' := Vector.toList_inj.mp (hid.symm.trans hid')
        exact h

end FsTransfer

/-- The gate with an `FsTransfer` on the same registry. -/
def RingGate.fs (registry : σ) (store : FsStore) : RingGate σ (FsTransfer σ) :=
  ⟨registry, ⟨store, registry⟩⟩

/-- If the request of `q` on `id` got to the transfer, the registry grants `q`
itself, or the request is to read a part of a collection the peer may read. -/
def Enforced (env : Env) (registry : σ) (store : FsStore) (peer : EndpointId) (id : Bytes)
    (q : Permission) (out : Except GateFault Unit × Exchange) : Prop :=
  out.2.transfers ≠ [] →
    Registry.hasPermission env registry peer id q = .ok true ∨
      (q = .read ∧ (RingGate.fs registry store).transfer.InAllowedCollection env peer id)

/-- **When the requested permission is enforced**, with a registry that answers
and does not panic: for `Read`; where the registry grants what was requested; and
where the peer may not read either, directly or through a collection. -/
theorem fs_enforces_iff (env : Env) (registry : σ) (store : FsStore) (peer : EndpointId)
    (recv : RecvStream) (capacity : Option Nat) (id rest : Bytes) (q : Permission)
    (hreq : Requests recv.bytes id q rest)
    (hanswer : ∀ id q m, Registry.hasPermission env registry peer id q ≠ .error (.panic m)) :
    Enforced env registry store peer id q
        ((RingGate.fs registry store).serve env peer recv capacity) ↔
      capacity = some 0 ∨ q = .read ∨
        Registry.hasPermission env registry peer id q = .ok true ∨
        (Registry.hasPermission env registry peer id .read ≠ .ok true ∧
          ¬ (RingGate.fs registry store).transfer.InAllowedCollection env peer id) := by
  have hserve : (RingGate.serve env (RingGate.fs registry store) peer recv capacity).2.transfers
      ≠ [] ↔ _ := RingGate.transfers_ne_nil_iff hreq (hanswer id q)
  have haccess : Transfer.canAccess env (RingGate.fs registry store).transfer peer id = true ↔ _ :=
    FsTransfer.canAccess_iff
  unfold Enforced
  rw [hserve, RingGate.Authorized, haccess]
  dsimp only [RingGate.fs]
  by_cases hq : q = .read
  · subst hq
    -- a request to read: each of the three ways in is a way to read
    refine iff_of_true ?_ (.inr (.inl rfl))
    intro hallowed
    rcases hallowed with ⟨hgranted | hgranted | hcollected, -⟩
    · exact .inl hgranted
    · exact .inl hgranted
    · exact .inr ⟨rfl, hcollected⟩
  · simp only [hq, false_and, or_false, false_or]
    constructor
    · intro h
      by_cases hcap : capacity = some 0
      · exact .inl hcap
      by_cases hgranted : Registry.hasPermission env registry peer id q = .ok true
      · exact .inr (.inl hgranted)
      exact .inr (.inr ⟨fun hread => hgranted (h ⟨.inr (.inl hread), hcap⟩),
        fun hcollected => hgranted (h ⟨.inr (.inr hcollected), hcap⟩)⟩)
    · intro hcond hallowed
      rcases hallowed with ⟨hauth, hcap⟩
      rcases hcond with hzero | hgranted | ⟨hread, hcollected⟩
      · exact absurd hzero hcap
      · exact hgranted
      · exact hauth.resolve_right fun h => h.elim hread hcollected

/-- A registry with one ring, whose member may read and write a resource. -/
def teamRegistry : Inner :=
  letI := EndpointKeys.basePoint
  (Backend.run Inner sampleRun).2

omit [EndpointKeys] in
set_option maxRecDepth 10000 in
theorem hasPermission_teamRegistry :
    letI := EndpointKeys.basePoint
    Registry.hasPermission Env.atEpoch teamRegistry EndpointId.basePoint [0x61] .write =
      .ok true := by
  decide +kernel

omit [EndpointKeys] in
/-- The member's request to write gets to the transfer, as it should. -/
theorem fs_enforces_iff_member :
    letI := EndpointKeys.basePoint
    ((RingGate.fs teamRegistry .empty).serve Env.atEpoch EndpointId.basePoint writeRequest
        none).2.transfers ≠ [] ∧
      Enforced Env.atEpoch teamRegistry .empty EndpointId.basePoint [0x61] .write
        ((RingGate.fs teamRegistry .empty).serve Env.atEpoch EndpointId.basePoint writeRequest
          none) := by
  let inst := EndpointKeys.basePoint
  have hanswer : ∀ id q m, Registry.hasPermission Env.atEpoch teamRegistry EndpointId.basePoint id
      q ≠ .error (.panic m) := by
    intro id q m h
    obtain ⟨b, hb⟩ := teamRegistry.hasPermission_ok Env.atEpoch EndpointId.basePoint id q
    cases hb.symm.trans h
  refine ⟨?_, (fs_enforces_iff Env.atEpoch teamRegistry .empty EndpointId.basePoint writeRequest
    none [0x61] [] .write requests_writeRequest hanswer).mpr
      (.inr (.inr (.inl hasPermission_teamRegistry)))⟩
  exact (RingGate.transfers_ne_nil_iff requests_writeRequest (hanswer [0x61] .write)).mpr
    ⟨.inl hasPermission_teamRegistry, nofun⟩

/-! ### A door that is open for reading -/

/-- A registry with one resource, which is open to everyone for reading. -/
def openDoor : Inner := (Inner.new.addRingToResource [0x61] openRingName [.read]).2

/-- Everyone may read the resource, and nobody may do anything else with it. -/
theorem hasPermission_openDoor (env : Env) (p : EndpointId) (q : Permission) :
    Registry.hasPermission env openDoor p [0x61] q = .ok (decide (q = .read)) := by
  have hval : validateRingPermissions openRingName [.read] = .ok () := by decide
  have hdoor : openDoor.resourceRings[([0x61] : Bytes)]? = some [(openRingName, [.read])] := by
    simp [openDoor, Inner.addRingToResource, hval, Inner.new, computeResourceRings]
  show openDoor.hasPermission env p [0x61] q = _
  unfold Inner.hasPermission
  rw [hdoor]
  cases q <;> simp [Inner.scanEntries]

/-- A request to write gets to the transfer all the same. -/
theorem not_enforced_write (env : Env) (p : EndpointId) :
    ¬ Enforced env openDoor .empty p [0x61] .write
      ((RingGate.fs openDoor .empty).serve env p writeRequest none) := by
  have hwrite : Registry.hasPermission env openDoor p [0x61] .write = .ok false :=
    hasPermission_openDoor env p .write
  have haccess : Transfer.canAccess env (RingGate.fs openDoor .empty).transfer p [0x61] = true :=
    FsTransfer.canAccess_iff.mpr (.inl (hasPermission_openDoor env p .read))
  have hserve : (RingGate.serve env (RingGate.fs openDoor .empty) p writeRequest
      none).2.transfers ≠ [] :=
    (RingGate.transfers_ne_nil_iff requests_writeRequest fun m h => by
      cases hwrite.symm.trans h).mpr ⟨.inr haccess, nofun⟩
  intro henforced
  obtain hgranted | ⟨hread, -⟩ := henforced hserve
  · cases hwrite.symm.trans hgranted
  · cases hread

omit [EndpointKeys] in
/-- **A peer that may only read gets to the transfer with `Write`.** -/
theorem not_enforces_openDoor :
    ¬ @Enforced EndpointKeys.basePoint Inner _ Env.atEpoch openDoor .empty EndpointId.basePoint
      [0x61] .write
      (@RingGate.serve EndpointKeys.basePoint Inner (FsTransfer Inner) _ _ Env.atEpoch
        (RingGate.fs openDoor .empty) EndpointId.basePoint writeRequest none) :=
  @not_enforced_write EndpointKeys.basePoint Env.atEpoch EndpointId.basePoint

end IrohRings
