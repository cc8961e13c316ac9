import IrohRings.Transfers.FsAccess

/-!
# IrohRings.Transfers.FsReads

Exactly when a gate with `FsTransfer` allows a request to read
(`fs_allows_read_iff`): the registry grants `Read`, or the resource is a hash in a
tagged collection on which it does. Tags are looked at up to the first error item of
the stream; one that does not collect the hash, for whatever reason, is passed over.
-/

namespace IrohRings

open Foundation

/-- An item precedes the first error if everything before it is an item too. -/
theorem mem_okPrefix {ε α : Type} {items : List (Except ε α)} {a : α} :
    a ∈ okPrefix items ↔
      ∃ before after, items = before ++ .ok a :: after ∧ ∀ i ∈ before, i.isOk = true := by
  induction items with
  | nil => simp [okPrefix]
  | cons item items ih =>
      cases item with
      | error e =>
          refine iff_of_false (by simp [okPrefix]) ?_
          intro hex
          rcases hex with ⟨before, after, heq, hok⟩
          cases before with
          | nil => cases heq
          | cons i before =>
              obtain ⟨rfl, -⟩ := List.cons.inj heq
              cases hok _ List.mem_cons_self
      | ok b =>
          rw [okPrefix, List.mem_cons, ih]
          refine ⟨fun hor => ?_, fun hex => ?_⟩
          · rcases hor with rfl | ⟨before, after, rfl, hok⟩
            · exact ⟨[], items, rfl, by simp⟩
            · exact ⟨.ok b :: before, after, rfl, List.forall_mem_cons.mpr ⟨rfl, hok⟩⟩
          · rcases hex with ⟨before, after, heq, hok⟩
            cases before with
            | nil =>
                obtain ⟨heq, -⟩ := List.cons.inj heq
                exact .inl (Except.ok.inj heq).symm
            | cons i before =>
                obtain ⟨-, rfl⟩ := List.cons.inj heq
                exact .inr ⟨before, after, rfl, (List.forall_mem_cons.mp hok).2⟩

theorem okPrefix_map_ok {ε α : Type} (as : List α) :
    okPrefix (as.map (.ok : α → Except ε α)) = as := by
  induction as with
  | nil => rfl
  | cons a as ih => rw [List.map_cons, okPrefix, ih]

/-- What follows an item list counts if there is no error in the list. -/
theorem mem_okPrefix_append {ε α : Type} {before rest : List (Except ε α)} {a : α} :
    a ∈ okPrefix (before ++ rest) ↔
      a ∈ okPrefix before ∨ (∀ i ∈ before, i.isOk = true) ∧ a ∈ okPrefix rest := by
  induction before with
  | nil => simp [okPrefix]
  | cons item before ih =>
      cases item with
      | error e =>
          have herror : ¬ (Except.error e : Except ε α).isOk = true := Bool.false_ne_true
          simp [okPrefix, herror]
      | ok b =>
          have hok : (Except.ok b : Except ε α).isOk = true := rfl
          rw [List.cons_append, okPrefix, okPrefix, List.mem_cons, List.mem_cons, ih, or_assoc,
            List.forall_mem_cons, and_iff_right hok]

/-- The tags of a store are items of the stream that lists them. -/
theorem FsStore.mem_tags {store : FsStore} {info : TagInfo} :
    info ∈ store.tags ↔ ∃ items, store.listTags = .ok items ∧ info ∈ okPrefix items := by
  unfold FsStore.tags
  cases store.listTags with
  | error e => simp
  | ok items => simp

/-- The store with other tags. -/
def FsStore.withTags (store : FsStore) (items : List (Except AnyError TagInfo)) : FsStore :=
  { store with listTags := .ok items }

/-- The request was allowed: the streams were handed over for the resource, with the
allowed byte and nothing else written. -/
def Exchange.Allows (x : Exchange) (id : Bytes) : Prop :=
  ∃ streams, x.transfers = [(id, streams)] ∧ streams.send.written = [Status.allowed.toByte]

variable [EndpointKeys] {σ : Type} [Registry σ]

namespace RingGate

variable {τ : Type} [Transfer τ] {env : Env} {gate : RingGate σ τ} {peer : EndpointId}
  {recv : RecvStream} {capacity : Option Nat} {id rest : Bytes} {q : Permission}

/-- A request is allowed exactly if it is authorized and can be told so. -/
theorem serve_allows_iff (hreq : Requests recv.bytes id q rest)
    (hanswer : ∀ m, Registry.hasPermission env gate.registry peer id q ≠ .error (.panic m)) :
    (gate.serve env peer recv capacity).2.Allows id ↔
      gate.Authorized env peer id q ∧ capacity ≠ some 0 := by
  have htrace : DecisionTrace env gate peer recv capacity _ :=
    decisionTrace_of_request hreq hanswer
  rw [← transfers_ne_nil_iff hreq hanswer]
  refine ⟨fun hallows => ?_, fun hne => ?_⟩
  · rcases hallows with ⟨streams, hlog, -⟩
    rw [hlog]
    exact List.cons_ne_nil _ _
  · obtain ⟨⟨id', streams⟩, hlog⟩ : ∃ entry, (gate.serve env peer recv capacity).2.transfers =
        [entry] := by
      rw [← List.length_eq_one_iff]
      exact le_antisymm htrace.once (List.length_pos_iff.mpr hne)
    have hmem : (id', streams) ∈ (gate.serve env peer recv capacity).2.transfers := by
      rw [hlog]
      exact List.mem_singleton_self _
    obtain ⟨q', rest', hreq', -, hwritten⟩ := htrace.invoked id' streams hmem
    obtain ⟨rfl, -, -⟩ := hreq.unique hreq'
    exact ⟨streams, hlog, hwritten⟩

end RingGate

/-- A gate with `FsTransfer` allows the request on the stream. -/
def FsAllows (env : Env) (registry : σ) (store : FsStore) (peer : EndpointId) (recv : RecvStream)
    (capacity : Option Nat) (id : Bytes) : Prop :=
  ((RingGate.fs registry store).serve env peer recv capacity).2.Allows id

/-- **Exact authorization of `Read`**, by a registry that answers with `Ok` or `Err`.
A tag that does not collect the resource is as good as not there, and without an
error item the order of the tags does not matter. -/
theorem fs_allows_read_iff (env : Env) (registry : σ) (store : FsStore) (peer : EndpointId)
    (recv : RecvStream) (capacity : Option Nat) (id rest : Bytes)
    (hreq : Requests recv.bytes id .read rest) (hcap : capacity ≠ some 0)
    (hanswer : ∀ id m, Registry.hasPermission env registry peer id .read ≠ .error (.panic m)) :
    (FsAllows env registry store peer recv capacity id ↔
      Registry.hasPermission env registry peer id .read = .ok true ∨
        ∃ hash : Hash, id = hash.toList ∧ ∃ before info after,
          store.listTags = .ok (before ++ .ok info :: after) ∧ (∀ i ∈ before, i.isOk = true) ∧
          FsTransfer.Collects env ⟨store, registry⟩ peer hash info) ∧
    (∀ before info after,
      (∀ hash : Hash, id = hash.toList →
        ¬ FsTransfer.Collects env ⟨store, registry⟩ peer hash info) →
      (FsAllows env registry (store.withTags (before ++ .ok info :: after)) peer recv capacity id ↔
        FsAllows env registry (store.withTags (before ++ after)) peer recv capacity id)) ∧
    ∀ infos infos' : List TagInfo, infos.Perm infos' →
      (FsAllows env registry (store.withTags (infos.map .ok)) peer recv capacity id ↔
        FsAllows env registry (store.withTags (infos'.map .ok)) peer recv capacity id) := by
  have hallows : ∀ store : FsStore, FsAllows env registry store peer recv capacity id ↔
      Registry.hasPermission env registry peer id .read = .ok true ∨
        ∃ hash : Hash, id = hash.toList ∧ ∃ info ∈ store.tags,
          FsTransfer.Collects env ⟨store, registry⟩ peer hash info := by
    intro store
    have haccess :
        Transfer.canAccess env (RingGate.fs registry store).transfer peer id = true ↔ _ :=
      FsTransfer.canAccess_iff
    rw [FsAllows, RingGate.serve_allows_iff hreq (hanswer id), RingGate.Authorized, haccess,
      and_iff_left hcap, ← or_assoc]
    exact or_congr_left (or_self_iff)
  refine ⟨?_, fun before info after hnot => ?_, fun infos infos' hperm => ?_⟩
  · rw [hallows]
    refine or_congr_right (exists_congr fun hash => and_congr_right fun _ => ?_)
    simp only [FsStore.mem_tags, mem_okPrefix]
    refine ⟨fun hex => ?_, fun hex => ?_⟩
    · rcases hex with ⟨info, ⟨items, hitems, before, after, rfl, hok⟩, hcollects⟩
      exact ⟨before, info, after, hitems, hok, hcollects⟩
    · rcases hex with ⟨before, info, after, hitems, hok, hcollects⟩
      exact ⟨info, ⟨_, hitems, before, after, rfl, hok⟩, hcollects⟩
  · rw [hallows, hallows]
    refine or_congr_right (exists_congr fun hash => and_congr_right fun hid => ?_)
    -- a tag that is left out is none of those that collect the resource
    refine exists_congr fun info' => and_congr_left fun hcollects => ?_
    have hne : info' ≠ info := fun heq => hnot hash hid (heq ▸ hcollects)
    show info' ∈ okPrefix (before ++ .ok info :: after) ↔ info' ∈ okPrefix (before ++ after)
    rw [mem_okPrefix_append, mem_okPrefix_append, okPrefix, List.mem_cons, or_iff_right hne]
  · rw [hallows, hallows]
    refine or_congr_right (exists_congr fun hash => and_congr_right fun _ => ?_)
    refine exists_congr fun info => and_congr_left fun _ => ?_
    show info ∈ okPrefix (infos.map .ok) ↔ info ∈ okPrefix (infos'.map .ok)
    rw [okPrefix_map_ok, okPrefix_map_ok, hperm.mem_iff]

/-! ### An album -/

/-- A photo, the album it is in, and a diary. -/
def photoHash : Hash := Vector.replicate 32 0x0a

def albumHash : Hash := Vector.replicate 32 0x0b

def diaryHash : Hash := Vector.replicate 32 0x0c

/-- A store with a tag on a photo, one on a diary, and one on an album with the photo. -/
def albumStore : FsStore where
  listTags := .ok [.ok ⟨.raw, photoHash⟩, .ok ⟨.hashSeq, diaryHash⟩, .ok ⟨.hashSeq, albumHash⟩]
  getBytes hash := if hash = albumHash then .ok photoHash.toList else .error (.msg "not found")
  hashSeq bytes :=
    if bytes = photoHash.toList then .ok [photoHash] else .error (.msg "invalid hash seq")
  exportBao hash _ send :=
    if hash = photoHash then
      let (out, send) := send.writeAll [0x2a]
      (out.mapError .write, send)
    else (.error (.msg "not found"), send)

/-- A ring, whose member may read the album. -/
def albumEvents (peer : EndpointId) : List Event :=
  [.call Env.atEpoch (.createRing "team"),
    .call Env.atEpoch (.addRingToResource albumHash.toList "team" [.read]),
    .call Env.atEpoch (.addPeerToRing "team" peer none none)]

def albumRegistry : Inner :=
  letI := EndpointKeys.basePoint
  (Backend.run Inner (albumEvents EndpointId.basePoint)).2

omit [EndpointKeys] in
set_option maxRecDepth 10000 in
theorem hasPermission_albumRegistry :
    letI := EndpointKeys.basePoint
    Registry.hasPermission Env.atEpoch albumRegistry EndpointId.basePoint albumHash.toList .read =
        .ok true ∧
      Registry.hasPermission Env.atEpoch albumRegistry EndpointId.basePoint photoHash.toList .read =
        .ok false := by
  decide +kernel

/-- A request to read the photo. -/
def photoRequest : Bytes :=
  toLe 2 photoHash.toList.length ++ (photoHash.toList ++ [encodeOperation .read])

omit [EndpointKeys] in
theorem requests_photoRequest : Requests photoRequest photoHash.toList .read [] :=
  requests_iff.mpr ⟨by decide, rfl⟩

omit [EndpointKeys] in
/-- The photo is in the album, past the tags that say nothing about it. -/
theorem inAllowedCollection_album :
    letI := EndpointKeys.basePoint
    (RingGate.fs albumRegistry albumStore).transfer.InAllowedCollection Env.atEpoch
      EndpointId.basePoint photoHash.toList :=
  ⟨photoHash, rfl, ⟨.hashSeq, albumHash⟩, .tail _ (.tail _ (.head _)), rfl,
    hasPermission_albumRegistry.1, photoHash.toList, [photoHash], rfl, rfl,
    List.mem_singleton_self _⟩

omit [EndpointKeys] in
/-- The photo may be read as part of the album. -/
theorem fs_allows_read_iff_album :
    letI := EndpointKeys.basePoint
    Registry.hasPermission Env.atEpoch albumRegistry EndpointId.basePoint photoHash.toList .read =
        .ok false ∧
      FsAllows Env.atEpoch albumRegistry albumStore EndpointId.basePoint ⟨photoRequest, false⟩ none
        photoHash.toList := by
  let inst := EndpointKeys.basePoint
  refine ⟨hasPermission_albumRegistry.2, (fs_allows_read_iff Env.atEpoch albumRegistry albumStore
    EndpointId.basePoint ⟨photoRequest, false⟩ none photoHash.toList [] requests_photoRequest nofun
    fun id m h => ?_).1.mpr (.inr ?_)⟩
  · obtain ⟨b, hb⟩ := albumRegistry.hasPermission_ok Env.atEpoch EndpointId.basePoint id .read
    cases hb.symm.trans h
  · refine ⟨photoHash, rfl, [.ok ⟨.raw, photoHash⟩, .ok ⟨.hashSeq, diaryHash⟩],
      ⟨.hashSeq, albumHash⟩, [], rfl, by decide, ?_⟩
    exact ⟨rfl, hasPermission_albumRegistry.1, photoHash.toList, [photoHash], rfl, rfl,
      List.mem_singleton_self _⟩

end IrohRings
