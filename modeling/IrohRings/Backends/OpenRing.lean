import Mathlib.Data.List.Induction
import IrohRings.Backends.Redb.TableInvariant

/-!
# IrohRings.Backends.OpenRing

The open ring never gives more than `Read`: `Write` and `Delete` are only ever
granted through some other ring, to a peer that is listed as its member
(`WritesNeedMember`).

The in-memory registry keeps this unconditionally. The redb registry keeps it as
long as no `addRingToResource` writes `Write` or `Delete` into the permission row
of another current association (`Event.KeepsRows`): the row is found by
`permKey`, whose length prefix is the length of the resource id modulo 65536, so
associations of longer ids can share one. `clobberRun` is a run in which a peer
that belongs to no ring is let write.
-/

namespace IrohRings

open Foundation

section Keys

variable [EndpointKeys]

/-- Whoever has a permission other than `Read` has it through a ring other than
the open one, which was associated with the resource with that permission and
lists the peer as its member. -/
def WritesNeedMember {σ : Type} [Backend σ] (d : History × σ) : Prop :=
  ∀ env p res q, q ≠ .read → Registry.hasPermission env d.2 p res q = .ok true →
    ∃ r, r ≠ openRingName ∧ (∃ perms, granted res r d.1 = some perms ∧ q ∈ perms) ∧
      ∃ listed, Registry.listRingPeers env d.2 r = .ok listed ∧
        p ∈ listed.map RingMember.peer

/-- The event does not write `Write` or `Delete` into the permission row of
another current association. -/
def Event.KeepsRows (db : RedbRegistry) : Event → Prop
  | .call _ (.addRingToResource res r perms) =>
    validateRingPermissions r perms = .ok () → r ∈ db.rings → (∃ q ∈ perms, q ≠ .read) →
      ∀ res' r', r' ∈ db.ringNames res' → permKey res' r' = permKey res r → res' = res ∧ r' = r
  | _ => True

/-! ### What a grant and a live lease give -/

namespace Inner

variable {inner : Inner}

/-- The open ring grants nothing but `Read`. -/
theorem WellFormed.ne_open_of_grants (hwf : inner.WellFormed) {res : Bytes} {r : String}
    {ps : List Permission} (hps : inner.grants res r = some ps) {q : Permission} (hq : q ∈ ps)
    (hread : q ≠ .read) : r ≠ openRingName := by
  obtain ⟨-, hopen⟩ := validateRingPermissions_eq_ok.mp (Shadowed.validate_of_grants hwf hps)
  exact fun hr => hread (hopen hr q hq)

/-- A live member is listed. -/
theorem WellFormed.exists_listed (hwf : inner.WellFormed) (env : Env) {r : String}
    {p : EndpointId} (hlive : (inner.leases.live env.now (r, p.asBytes)).isSome) :
    ∃ listed, inner.listRingPeers env r = .ok listed ∧ p ∈ listed.map RingMember.peer := by
  obtain ⟨l, hl⟩ := Option.isSome_iff_exists.mp hlive
  obtain ⟨hmem, -⟩ := leases_eq_some.mp (Ledger.live_eq_some.mp hl).1
  obtain ⟨ms, hms, -⟩ := exists_of_mem_members hmem
  obtain ⟨listed, hok, hlisted⟩ := hwf.peer_listed_iff env (Table.mem_iff.mpr ⟨ms, hms⟩)
  exact ⟨listed, hok, (hlisted p).mpr hlive⟩

end Inner

/-! ### The rows cover no more than the grants -/

/-- What the permission rows give of `Write` and `Delete`, the grants give. -/
def Covered (grants : Bytes → String → Option (List Permission)) (rows : Table Bytes UInt8) :
    Prop :=
  ∀ (res : Bytes) (r : String) (ps : List Permission) (bits : UInt8),
    grants res r = some ps → rows[permKey res r]? = some bits →
      ∀ q, q ≠ .read → bits &&& permissionBit q ≠ 0 → q ∈ ps

/-- An effect that does not write `Write` or `Delete` into the row of another
association keeps the rows covered. -/
theorem Covered.step {grants : Bytes → String → Option (List Permission)}
    {rows : Table Bytes UInt8} (h : Covered grants rows) (names : Bytes → List String)
    {e : Effect}
    (he : ∀ res r ps, e = .associated res r ps → (∃ q ∈ ps, q ≠ .read) → ∀ res' r' ps',
      grants res' r' = some ps' → permKey res' r' = permKey res r → res' = res ∧ r' = r) :
    Covered (e.onGrants grants) (e.onRows names rows) := by
  cases e with
  | associated res r ps =>
      intro res' r' ps' bits hps' hbits q hread hq
      rw [Effect.onGrants, update_grants] at hps'
      rw [Effect.onRows, Table.get_insert] at hbits
      -- the row written is looked at from every association that has that key
      by_cases hkey : permKey res' r' = permKey res r
      · rw [if_pos hkey, Option.some.injEq] at hbits
        subst hbits
        have hmem : q ∈ ps := not_not.mp (mt permsToByte_and_eq_zero.mpr hq)
        split at hps'
        · exact Option.some.inj hps' ▸ hmem
        · rename_i hne
          exact absurd (he res r ps rfl ⟨q, hmem, hread⟩ res' r' ps' hps' hkey) hne
      · rw [if_neg hkey] at hbits
        rw [if_neg (by rintro ⟨rfl, rfl⟩; exact hkey rfl)] at hps'
        exact h res' r' ps' bits hps' hbits q hread hq
  | dissociated res =>
      intro res' r' ps' bits hps' hbits q hread hq
      rw [Effect.onGrants, update_grants_none] at hps'
      rw [Effect.onRows, Table.get_foldl_erase] at hbits
      split at hps'
      · cases hps'
      · split at hbits
        · cases hbits
        · exact h res' r' ps' bits hps' hbits q hread hq
  | created | admitted | removed | evicted | nothing => exact h

omit [EndpointKeys] in
/-- Which associations `addRingToResource` makes. -/
theorem RedbRegistry.addRingToResource_eq_ok {db : RedbRegistry} {res : Bytes} {r : String}
    {ps : List Permission} :
    (db.addRingToResource res r ps).1 = .ok () ↔
      validateRingPermissions r ps = .ok () ∧ r ∈ db.rings := by
  rw [Std.ExtTreeMap.mem_iff_isSome_getElem?]
  unfold addRingToResource
  cases validateRingPermissions r ps with
  | error e => simp [Outcome.err]
  | ok u => cases db.rings[r]? <;> simp [commit, Outcome.err]

/-- An association that was made passed the validation, for an existing ring. -/
theorem addRingToResource_of_effect {db : RedbRegistry} {env : Env} {c : Call} {res : Bytes}
    {r : String} {ps : List Permission}
    (he : Record.effect ⟨env, c, (Registry.perform env db c).1⟩ = .associated res r ps) :
    c = .addRingToResource res r ps ∧ validateRingPermissions r ps = .ok () ∧ r ∈ db.rings := by
  obtain ⟨hok, rfl⟩ := Record.of_associated he
  change Except.isOk (db.addRingToResource res r ps).1 = true at hok
  have hunit : (db.addRingToResource res r ps).1 = .ok () := by
    cases hout : (db.addRingToResource res r ps).1 with
    | error e => simp [hout, Except.isOk, Except.toBool] at hok
    | ok u => rfl
  exact ⟨rfl, RedbRegistry.addRingToResource_eq_ok.mp hunit⟩

/-- Along a run that keeps the rows, they stay covered. -/
theorem shadow_run_covered (events : List Event)
    (hkeep : Along Backend.record (fun d e => e.KeepsRows d.2) (Backend.start RedbRegistry)
      events) :
    ∃ inner, Shadowed (Backend.run RedbRegistry events) inner ∧
      Covered inner.grants (Backend.run RedbRegistry events).2.resourceRingPerms := by
  refine invariant_along (fun d : History × RedbRegistry =>
      ∃ inner, Shadowed d inner ∧ Covered inner.grants d.2.resourceRingPerms) ?_
    ⟨Inner.new, Shadowed.start, ?_⟩ hkeep
  · intro d e hinv hkeep
    rcases hinv with ⟨inner, h, hcov⟩
    cases e with
    | reopen => exact ⟨inner, by rw [h.reopen]; exact ⟨h, hcov⟩⟩
    | call env c =>
        have hstep := h.shadows.step env c
        refine ⟨_, h.call env c, ?_⟩
        show Covered _ (Registry.perform env d.2 c).2.resourceRingPerms
        rw [hstep.shadow.grants, hstep.rows, Record.effect_clamp, Effect.clamp_onGrants]
        refine hcov.step _ fun res r ps he hwide res' r' ps' hps' hkey => ?_
        obtain ⟨rfl, hval, hring⟩ := addRingToResource_of_effect he
        refine hkeep hval hring hwide res' r' ?_ hkey
        rw [h.shadows.rep.ringNames h.shadows.wellFormed]
        exact Inner.mem_ringNames.mpr ⟨ps', hps'⟩
  · rw [Inner.grants_new]
    exact fun _ _ _ _ hps => by cases hps

/-! ### Whole runs -/

/-- **The open ring never gives more than `Read`**: in every state the in-memory
registry reaches, and in every state redb reaches by a run that keeps the
permission rows of other associations. -/
theorem writes_need_member (events : List Event) :
    WritesNeedMember (Backend.run Inner events) ∧
    (Along Backend.record (fun d e => e.KeepsRows d.2) (Backend.start RedbRegistry) events →
      WritesNeedMember (Backend.run RedbRegistry events)) := by
  constructor
  · intro env p res q hread hperm
    have ht := Inner.traces_run events
    obtain ⟨r, ps, hps, hq, hmem⟩ := (ht.wellFormed.hasPermission_iff env p res q).mp hperm
    have hne := ht.wellFormed.ne_open_of_grants hps hq hread
    refine ⟨r, hne, ⟨ps, by rw [← hps, ht.grants], hq⟩, ?_⟩
    exact ht.wellFormed.exists_listed env (hmem.resolve_left hne)
  · intro hkeep env p res q hread hperm
    obtain ⟨inner, h, hcov⟩ := shadow_run_covered events hkeep
    have hwf := h.shadows.wellFormed
    obtain ⟨b, hok, hb⟩ :=
      h.shadows.rep.hasPermission hwf (h.shadows.comparable env.now) p res q
    obtain rfl : b = true := Except.ok.inj (hok.symm.trans hperm)
    obtain ⟨r, hr, hbits, hmem⟩ := hb.mp rfl
    obtain ⟨ps, hps⟩ := Inner.mem_ringNames.mp hr
    -- the bit in the row is covered by the grant
    have hq : q ∈ ps := by
      unfold RedbRegistry.permBits at hbits
      cases hrow : (Backend.run RedbRegistry events).2.resourceRingPerms[permKey res r]? with
      | none => simp [hrow] at hbits
      | some bits => exact hcov res r ps bits hps hrow q hread (by simpa [hrow] using hbits)
    have hne := hwf.ne_open_of_grants hps hq hread
    refine ⟨r, hne, ⟨ps, by rw [← hps, h.grants], hq⟩, ?_⟩
    obtain ⟨listed, hlist, hlisted⟩ := hwf.exists_listed env (hmem.resolve_left hne)
    refine ⟨listed, ?_, hlisted⟩
    show (Backend.run RedbRegistry events).2.listRingPeers env r = _
    rw [h.shadows.rep.listRingPeers hwf (h.shadows.comparable env.now), hlist]

/-- A run with short resource ids keeps the rows of other associations: they are other
rows. -/
theorem keepsRows_of_shortId (events : List Event) (hid : ∀ e ∈ events, e.ShortId) :
    Along Backend.record (fun d e => e.KeepsRows d.2) (Backend.start RedbRegistry) events := by
  induction events using List.reverseRecOn with
  | nil => trivial
  | append_singleton events e ih =>
      obtain ⟨hevents, hlast⟩ := List.forall_mem_append.mp hid
      have he : e.ShortId := hlast e (List.mem_singleton_self e)
      refine along_append.mpr ⟨ih hevents, ?_, trivial⟩
      show e.KeepsRows (Backend.run RedbRegistry events).2
      obtain ⟨inner, h, hperms⟩ := shadow_run_perms events hevents
      cases e with
      | reopen => trivial
      | call env c =>
          cases c with
          | addRingToResource res r perms =>
              intro _ _ _ res' r' hr' hkey
              rw [h.shadows.rep.ringNames h.shadows.wellFormed] at hr'
              obtain ⟨perms', hperms'⟩ := Inner.mem_ringNames.mp hr'
              exact permKey_injective (hperms.short _ _ _ hperms') he hkey
          | _ => trivial

end Keys

/-- A run in which a resource is open to everyone for reading, and a ring with a member
may write to it. -/
def openRun : List (@Event EndpointKeys.basePoint) :=
  letI := EndpointKeys.basePoint
  [.call Env.atEpoch (.createRing "team"),
    .call Env.atEpoch (.addRingToResource [0x61] openRingName [.read]),
    .call Env.atEpoch (.addRingToResource [0x61] "team" [.read, .write]),
    .call Env.atEpoch (.addPeerToRing "team" EndpointId.basePoint none none)]

set_option maxRecDepth 10000 in
theorem writes_need_member_openRun :
    letI := EndpointKeys.basePoint
    Registry.hasPermission Env.atEpoch (Backend.run RedbRegistry openRun).2 EndpointId.basePoint
        [0x61] .write = .ok true ∧
      WritesNeedMember (Backend.run RedbRegistry openRun) :=
  letI := EndpointKeys.basePoint
  ⟨by decide +kernel, (writes_need_member openRun).2 (keepsRows_of_shortId openRun
    (by simp [openRun, Event.ShortId, Call.ShortId]))⟩

/-! ### A key collision -/

/-- A resource id of `n` bytes. -/
def longId (n : Nat) : Bytes := List.replicate n 0x61

theorem longId_ne_nil {n : Nat} (hn : n ≠ 0) : longId n ≠ [] := by
  simpa [longId] using hn

/-- The ring name that spells the id and then the name of the open ring. -/
def longName (n : Nat) : String := String.ofList (List.replicate n 'a' ++ openRingName.toList)

theorem asBytes_longName (n : Nat) : asBytes (longName n) = longId n ++ asBytes openRingName := by
  have hchar : String.utf8EncodeChar 'a' = [0x61] := by decide
  rw [longName, asBytes_ofList, List.flatMap_append, List.flatMap_replicate, hchar,
    List.flatten_replicate_singleton, asBytes_eq_flatMap]
  rfl

/-- The key of the open ring on an id of a multiple of 65536 bytes is the key of
another ring on the empty id. -/
theorem permKey_longId {n : Nat} (hn : n % 65536 = 0) :
    permKey (longId n) openRingName = permKey [] (longName n) := by
  have hlen : (UInt16.ofNat (longId n).length).toNat = 0 := by
    rw [longId, List.length_replicate, UInt16.toNat_ofNat']
    exact hn
  unfold permKey
  simp only [hlen]
  rw [asBytes_longName]
  rfl

theorem validName_longName (n : Nat) : ValidName (longName n) := by
  have hlist : (longName n).toList = List.replicate n 'a' ++ openRingName.toList :=
    String.toList_ofList
  constructor
  · intro h
    rw [h] at hlist
    have := congrArg List.length hlist
    simp [openRingName] at this
  · have hopen : openRingName.toList.any isInvalidChar = false := by decide
    rw [hlist, List.any_append, hopen, Bool.or_false, List.any_eq_false]
    intro c hc
    rw [List.eq_of_mem_replicate hc]
    decide

theorem longName_ne_open {n : Nat} (hn : n ≠ 0) : longName n ≠ openRingName := by
  intro h
  have := congrArg (fun s => s.toList.length) h
  simp [longName] at this
  exact hn this

/-- A successful `addRingToResource`. -/
theorem RedbRegistry.addRingToResource_of {db : RedbRegistry} {res : Bytes} {r : String}
    {ps : List Permission} (hval : validateRingPermissions r ps = .ok ()) (hr : r ∈ db.rings) :
    db.addRingToResource res r ps =
      (.ok (), { db with
        resourceRings := db.resourceRings.insert res (encodeRingNames
          ((computeResourceRings ((db.ringNames res).map fun name =>
            (name, db.storedPerms res name)) r ps).map Prod.fst))
        resourceRingPerms := db.resourceRingPerms.insert (permKey res r) (permsToByte ps) }) := by
  obtain ⟨raw, hraw⟩ := Table.mem_iff.mp hr
  simp [addRingToResource, hval, hraw, commit]

section Keys

variable [EndpointKeys]

/-- A resource whose only ring is the open one, when the row says `Write`. -/
theorem hasPermission_of_row {db : RedbRegistry} {env : Env} {p : EndpointId} {res : Bytes}
    (hnames : db.ringNames res = [openRingName])
    (hrow : db.resourceRingPerms[permKey res openRingName]? = some (permsToByte [.write])) :
    db.hasPermission env p res .write = .ok true := by
  have hbits : ¬ permsToByte [.write] &&& permissionBit .write = 0 := by decide
  rw [Rep.hasPermission_eq_scanNames, hnames, RedbRegistry.scanNames, RedbRegistry.permBits, hrow,
    Option.getD_some, if_neg hbits, if_pos rfl]

/-- Create the ring with the long name, and associate the open ring with the long id
for reading. -/
def openedRun (n : Nat) : List Event :=
  [.call Env.atEpoch (.createRing (longName n)),
    .call Env.atEpoch (.addRingToResource (longId n) openRingName [.read])]

/-- Create the ring with the long name, associate the open ring with the long id
for reading, and the new ring with the empty id for writing. -/
def clobberRun (n : Nat) : List Event :=
  [.call Env.atEpoch (.createRing (longName n)),
    .call Env.atEpoch (.addRingToResource (longId n) openRingName [.read]),
    .call Env.atEpoch (.addRingToResource [] (longName n) [.write])]

/-- After the first two calls the ring exists, and the open ring may read. -/
theorem run_openedRun {n : Nat} (hpos : n ≠ 0) :
    longName n ∈ (Backend.run RedbRegistry (openedRun n)).2.rings ∧
      (Backend.run RedbRegistry (openedRun n)).2.ringNames (longId n) = [openRingName] ∧
      (Backend.run RedbRegistry (openedRun n)).2.storedPerms (longId n) openRingName =
        [.read] := by
  have hne : longName n ≠ openRingName := longName_ne_open hpos
  have hopen : validateRingPermissions openRingName [.read] = .ok () := by decide
  let db := RedbRegistry.openDatabase Database.empty
  have hrings : ∀ r, r ∈ db.rings ↔ r = openRingName := by
    intro r
    show r ∈ (∅ : Table String Bytes).insert openRingName _ ↔ _
    rw [Table.mem_insert_iff]
    simp
  have hcreate : db.createRing (longName n) =
      (.ok (), { db with rings := db.rings.insert (longName n) (encodePeerIds []) }) := by
    have hnone : db.rings[longName n]? = none := Table.get_eq_none.mpr (mt (hrings _).mp hne)
    simp [RedbRegistry.createRing, validName_longName, Ring.isOpen, hne, hnone,
      RedbRegistry.commit]
  have hrun : (Backend.run RedbRegistry (openedRun n)).2 =
      ((db.createRing (longName n)).2.addRingToResource (longId n) openRingName [.read]).2 := rfl
  rw [hrun, hcreate, RedbRegistry.addRingToResource_of hopen (Table.mem_insert_iff.mpr
    (.inr ((hrings _).mpr rfl)))]
  refine ⟨Table.mem_insert_iff.mpr (.inl rfl), ?_, ?_⟩
  · simp only [RedbRegistry.ringNames, Table.get_insert, if_true]
    exact decodeRingNames_encodeRingNames (List.forall_mem_singleton.mpr validName_open)
  · simp only [RedbRegistry.storedPerms, Table.get_insert, if_true]
    decide

/-- After the run, whoever asks may write to the long id. -/
theorem hasPermission_clobberRun {n : Nat} (hn : n % 65536 = 0) (hpos : n ≠ 0) (env : Env)
    (p : EndpointId) :
    Registry.hasPermission env (Backend.run RedbRegistry (clobberRun n)).2 p (longId n) .write =
      .ok true := by
  have hid := longId_ne_nil hpos
  have hval : validateRingPermissions (longName n) [.write] = .ok () :=
    validateRingPermissions_eq_ok.mpr
      ⟨by simp, fun h => absurd h (longName_ne_open hpos)⟩
  obtain ⟨hring, hnames, -⟩ := run_openedRun hpos
  show ((Backend.run RedbRegistry (openedRun n)).2.addRingToResource [] (longName n)
    [.write]).2.hasPermission env p (longId n) .write = .ok true
  rw [RedbRegistry.addRingToResource_of hval hring]
  refine hasPermission_of_row ?_ ?_
  · rw [← hnames]
    simp only [RedbRegistry.ringNames, Table.get_insert, if_neg hid]
  · simp only [permKey_longId hn, Table.get_insert, if_true]

/-- No ring but the open one was ever associated with the long id. -/
theorem granted_clobberRun {n : Nat} (hpos : n ≠ 0) {r : String} {ps : List Permission}
    (h : granted (longId n) r (Backend.run RedbRegistry (clobberRun n)).1 = some ps) :
    r = openRingName := by
  obtain ⟨rec, hrec, hcall⟩ := exists_of_granted h
  have hmem := call_of_record (clobberRun n) rec hrec
  rw [hcall] at hmem
  simp only [clobberRun, List.mem_cons, Event.call.injEq, reduceCtorEq, and_false,
    Call.addRingToResource.injEq, false_or, List.not_mem_nil, or_false] at hmem
  obtain ⟨-, -, hr, -⟩ | ⟨-, hid, -⟩ := hmem
  · exact hr
  · exact absurd hid (longId_ne_nil hpos)

end Keys

/-- **The open ring gives `Write` in redb**: a key collision lets a peer that
belongs to no ring write. -/
theorem not_writesNeedMember_clobberRun :
    ¬ @WritesNeedMember EndpointKeys.basePoint RedbRegistry _
      (@Backend.run EndpointKeys.basePoint RedbRegistry _
        (@clobberRun EndpointKeys.basePoint 65536)) := by
  intro h
  obtain ⟨r, hr, ⟨perms, hperms, -⟩, -⟩ := h Env.atEpoch EndpointId.basePoint (longId 65536)
    .write nofun (@hasPermission_clobberRun EndpointKeys.basePoint 65536 rfl (by decide) _ _)
  exact hr (@granted_clobberRun EndpointKeys.basePoint 65536 (by decide) r perms hperms)

end IrohRings
