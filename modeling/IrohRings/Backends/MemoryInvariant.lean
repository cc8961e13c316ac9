import IrohRings.Backends.MemorySound
import IrohRings.History

/-!
# IrohRings.Backends.MemoryInvariant

Every in-memory operation preserves `Inner.WellFormed`, and acts on the ledger
of leases and on the granted permissions as its effect says
(`Effect.onLedger`, `Effect.onGrants`).

`WellFormed.step` is the one lemma about all ten calls (`StepOk`); what holds along
whole runs is read off it, in `Backends/Histories.lean` and after. Its cases are the
operations that `Backends/MemorySound.lean` has brought to a closed form: `enroll` and
`annotate` for adding a peer, `evictAll` for removing and for evicting, one insertion
or erasure for the tables of rings and of resources.
-/

namespace IrohRings

open Foundation

namespace Inner

variable {inner : Inner}

/-! ### Who is a member after `enroll`

`enroll` is what `add_peer_to_ring` does before it looks at the new label and the new
expiry: a newcomer is appended, a member that has expired by `now` loses its label and
its expiry, any other member stays as it is. No other membership is touched. -/

/-- The rings stay: `enroll` is called with the members of a ring that is there. -/
theorem enroll_rings_mem (inner : Inner) {r r' : String} {ms : List PeerBytes} {p : PeerBytes}
    {now : SystemTime} (h : inner.rings[r]? = some ms) :
    r' ∈ (inner.enroll r ms p now).rings ↔ r' ∈ inner.rings := by
  unfold enroll
  split
  · rw [Table.mem_insert_iff, or_iff_right_of_imp]
    intro heq
    subst heq
    exact Table.mem_iff.mpr ⟨ms, h⟩
  · split <;> rfl

@[simp] theorem enroll_resourceRings (inner : Inner) (r : String) (ms : List PeerBytes)
    (p : PeerBytes) (now : SystemTime) :
    (inner.enroll r ms p now).resourceRings = inner.resourceRings := by
  unfold enroll
  split
  · rfl
  · split <;> rfl

/-- Only a newcomer changes the list of members, of that one ring. -/
theorem enroll_members (inner : Inner) (r : String) (ms : List PeerBytes) (p : PeerBytes)
    (now : SystemTime) (r' : String) :
    (inner.enroll r ms p now).members r' =
      if r' = r ∧ p ∉ ms then ms ++ [p] else inner.members r' := by
  unfold enroll
  by_cases hp : p ∈ ms
  · rw [if_neg (not_not.mpr hp), if_neg (c := r' = r ∧ p ∉ ms) fun h' => h'.2 hp]
    split <;> rfl
  · rw [if_pos hp, members_insert]
    simp [hp]

/-- The labels of the other memberships stay. -/
theorem enroll_labels_ne (inner : Inner) {r : String} {ms : List PeerBytes} {p : PeerBytes}
    {now : SystemTime} {id : MemberId} (h : id ≠ (r, p)) :
    (inner.enroll r ms p now).labels[id]? = inner.labels[id]? := by
  unfold enroll
  split
  · rfl
  · split
    · rw [clear_labels, if_neg h]
    · rfl

/-- And so do their expiries. -/
theorem enroll_expiries_ne (inner : Inner) {r : String} {ms : List PeerBytes} {p : PeerBytes}
    {now : SystemTime} {id : MemberId} (h : id ≠ (r, p)) :
    (inner.enroll r ms p now).expiries[id]? = inner.expiries[id]? := by
  unfold enroll
  split
  · rfl
  · split
    · rw [clear_expiries, if_neg h]
    · rfl

/-- Afterwards the members are those of before and the peer. -/
theorem mem_enroll_members (inner : Inner) {r : String} {ms : List PeerBytes} {p : PeerBytes}
    {now : SystemTime} (h : inner.rings[r]? = some ms) (id : MemberId) :
    id.2 ∈ (inner.enroll r ms p now).members id.1 ↔
      id = (r, p) ∨ id.2 ∈ inner.members id.1 := by
  obtain ⟨r', p'⟩ := id
  rw [enroll_members]
  by_cases hr : r' = r
  · subst hr
    rw [members_of_get h]
    by_cases hp : p ∈ ms
    · rw [if_neg (by tauto), Prod.mk.injEq]
      refine ⟨Or.inr, ?_⟩
      intro hor
      rcases hor with ⟨-, rfl⟩ | hmem
      · exact hp
      · exact hmem
    · rw [if_pos ⟨rfl, hp⟩]
      simp [or_comm]
  · rw [if_neg (by tauto)]
    simp [hr]

/-! ### Forgetting memberships

Removing one peer and evicting all expired ones forget a list of memberships, with
their labels and expiries. On the ledger they differ: the first revokes a lease, the
second keeps those that are live, because the list is that of the expired ones. -/

/-- A forgotten membership has no lease, and no other lease changes. -/
theorem leases_evictAll (inner : Inner) (keys : List MemberId) :
    (inner.evictAll keys).leases = fun id => if id ∈ keys then none else inner.leases id := by
  funext id
  have hmem : id.2 ∈ (inner.evictAll keys).members id.1 ↔
      id ∉ keys ∧ id.2 ∈ inner.members id.1 := by
    rw [evictAll_members, List.mem_filter, decide_eq_true_eq, and_comm]
  by_cases hk : id ∈ keys
  · rw [if_pos hk, leases_of_notMem fun h => (hmem.mp h).1 hk]
  · rw [if_neg hk]
    by_cases hm : id.2 ∈ inner.members id.1
    · rw [leases_of_mem (hmem.mpr ⟨hk, hm⟩), leases_of_mem hm, evictAll_labels,
        evictAll_expiries, if_neg hk, if_neg hk]
    · rw [leases_of_notMem fun h => hm (hmem.mp h).2, leases_of_notMem hm]

/-- **Removing a peer revokes its lease.** -/
theorem leases_removePeer (inner : Inner) (key : MemberId) :
    (inner.evictAll [key]).leases = inner.leases.revoke key := by
  rw [leases_evictAll]
  funext id
  by_cases h : id = key <;> simp [h, Ledger.revoke]

/-- **Evicting keeps what is live.** -/
theorem leases_evictExpired (env : Env) (inner : Inner) (n : SystemTime) :
    (inner.evictAll (inner.expiredKeys env n)).leases = inner.leases.live n := by
  rw [leases_evictAll]
  funext id
  refine Option.ext fun l => ?_
  rw [Ledger.live_eq_some]
  by_cases hk : id ∈ inner.expiredKeys env n
  · obtain ⟨t, ht, hle⟩ := mem_expiredKeys.mp hk
    simp only [hk, if_true, reduceCtorEq, false_iff, not_and, not_not]
    intro hl
    obtain ⟨-, rfl⟩ := leases_eq_some.mp hl
    exact ⟨t, ht, hle⟩
  · simp only [hk, if_false, iff_self_and]
    intro hl
    obtain ⟨-, rfl⟩ := leases_eq_some.mp hl
    intro hex
    rcases hex with ⟨t, ht, hle⟩
    exact hk (mem_expiredKeys.mpr ⟨t, ht, hle⟩)

/-! ### Entries of a resource

The entries of a resource are a list of rings with their permissions. The source
replaces the entry of a ring in place, or appends one, so that a ring has one entry. -/

/-- Entries stay in order while rings are only added. -/
theorem EntriesOk.mono {inner inner' : Inner} {es : List (String × List Permission)}
    (h : inner.EntriesOk es) (hrings : ∀ r ∈ inner.rings, r ∈ inner'.rings) :
    inner'.EntriesOk es :=
  ⟨h.ne_nil, h.nodup, fun e he => hrings _ (h.exists_ring e he), h.perms⟩

/-- Replacing or appending one entry keeps a resource's entries in order. -/
theorem entriesOk_compute {es : List (String × List Permission)} {r : String}
    {ps : List Permission} (hes : es = [] ∨ inner.EntriesOk es) (hr : r ∈ inner.rings)
    (hps : validateRingPermissions r ps = .ok ()) :
    inner.EntriesOk (computeResourceRings es r ps) := by
  have hnodup : (es.map Prod.fst).Nodup := by
    rcases hes with rfl | hes
    · exact List.nodup_nil
    · exact hes.nodup
  have hall : ∀ e ∈ es, e.1 ∈ inner.rings ∧ validateRingPermissions e.1 e.2 = .ok () := by
    rcases hes with rfl | hes
    · simp
    · exact fun e he => ⟨hes.exists_ring e he, hes.perms e he⟩
  have hall' : ∀ e ∈ computeResourceRings es r ps,
      e.1 ∈ inner.rings ∧ validateRingPermissions e.1 e.2 = .ok () := by
    -- the induction is on the entries, whose keys need not be distinct here
    clear hes hnodup
    induction es with
    | nil => simpa [computeResourceRings] using ⟨hr, hps⟩
    | cons e es ih =>
        rw [computeResourceRings]
        split
        · rename_i he
          intro e' hmem
          rcases hmem with _ | ⟨_, hmem⟩
          · exact ⟨he ▸ hr, he ▸ hps⟩
          · exact hall e' (List.mem_cons_of_mem _ hmem)
        · intro e' hmem
          rcases hmem with _ | ⟨_, hmem⟩
          · exact hall e (by simp)
          · exact ih (fun e he => hall e (by simp [he])) e' hmem
  refine ⟨?_, ?_, fun e he => (hall' e he).1, fun e he => (hall' e he).2⟩
  · cases es with
    | nil => simp [computeResourceRings]
    | cons e es => rw [computeResourceRings]; split <;> simp
  · rw [map_fst_computeResourceRings]
    split
    · exact hnodup
    · rename_i hnot
      exact List.nodup_append.mpr ⟨hnodup, by simp, by
        intro a ha b hb heq
        subst heq
        exact hnot (List.mem_singleton.mp hb ▸ ha)⟩

/-- `addRingToResource` fails and changes nothing, or updates the entries of one
resource. -/
theorem addRingToResource_cases (inner : Inner) (res : Bytes) (r : String)
    (ps : List Permission) :
    (∃ e, inner.addRingToResource res r ps = (.err e, inner)) ∨
      (validateRingPermissions r ps = .ok () ∧ r ∈ inner.rings ∧
        inner.addRingToResource res r ps = (.ok (), { inner with
          resourceRings := inner.resourceRings.insert res
            (computeResourceRings (inner.resourceRings[res]?.getD []) r ps) })) := by
  unfold addRingToResource
  cases hval : validateRingPermissions r ps with
  | error e => exact .inl ⟨e, rfl⟩
  | ok u =>
      by_cases hr : r ∈ inner.rings
      · refine .inr ⟨rfl, hr, ?_⟩
        simp [hr]
      · refine .inl ⟨.ringNotFound r, ?_⟩
        simp [hr]

/-! ### Granted permissions

What the entries mean is a function from resources and rings to the permissions that
were granted last; the two writers update it at one resource. -/

theorem grants_insertEntries (inner : Inner) (res : Bytes) (r : String)
    (ps : List Permission) :
    ({ inner with
        resourceRings := inner.resourceRings.insert res
          (computeResourceRings (inner.resourceRings[res]?.getD []) r ps) } : Inner).grants =
      Function.update inner.grants res (Function.update (inner.grants res) r (some ps)) := by
  funext res' r'
  rw [update_grants]
  unfold grants
  dsimp only
  rw [Table.get_insert]
  by_cases hres : res' = res
  · subst hres
    simp [lookup_computeResourceRings]
  · simp [hres]

theorem grants_eraseEntries (inner : Inner) (res : Bytes) :
    ({ inner with resourceRings := inner.resourceRings.erase res } : Inner).grants =
      Function.update inner.grants res fun _ => none := by
  funext res' r'
  rw [update_grants_none]
  unfold grants
  dsimp only
  rw [Table.get_erase]
  by_cases hres : res' = res <;> simp [hres]

/-! ### The fresh registry -/

theorem leases_new : Inner.new.leases = fun _ => none := by
  funext id
  refine leases_of_notMem ?_
  rw [members, Inner.new, Table.get_insert]
  split <;> simp

theorem grants_new : Inner.new.grants = fun _ _ => none := by
  funext res r
  simp [Inner.grants, Inner.new]

end Inner

variable [EndpointKeys]

/-- The effect on the stored entries of the resources. -/
def Effect.onEntries (e : Effect) (entries : HashMap Bytes (List (String × List Permission))) :
    HashMap Bytes (List (String × List Permission)) :=
  match e with
  | .associated res r permissions =>
    entries.insert res (computeResourceRings (entries[res]?.getD []) r permissions)
  | .dissociated res => entries.erase res
  | _ => entries

namespace Inner

variable {inner : Inner}

/-! ### Adding a peer -/

/-- After `enroll`, the label and the expiry of the membership are those of its
live lease, if it had one. -/
theorem enroll_lease (hwf : inner.WellFormed) {r : String} {ms : List PeerBytes}
    {p : PeerBytes} {now : SystemTime} (h : inner.rings[r]? = some ms) :
    (⟨(inner.enroll r ms p now).labels[(r, p)]?, (inner.enroll r ms p now).expiries[(r, p)]?⟩ :
        Lease String SystemTime) =
      (inner.leases.live now (r, p)).getD Lease.bare := by
  have hms : inner.members r = ms := members_of_get h
  rw [live_leases, hms]
  unfold enroll
  by_cases hp : p ∈ ms
  · rw [if_neg (not_not.mpr hp)]
    cases he : inner.isExpired r p now with
    | true => simp [clear_labels, clear_expiries, Lease.bare]
    | false => simp [hp]
  · -- a peer that is no member has no stale label or expiry
    rw [if_pos hp, if_neg (by tauto), Option.getD_none]
    have hlabel : inner.labels[(r, p)]? = none :=
      Table.get_eq_none.mpr fun hmem => hp (hms ▸ hwf.labels _ hmem)
    have hexpiry : inner.expiries[(r, p)]? = none :=
      Table.get_eq_none.mpr fun hmem => hp (hms ▸ hwf.expiries _ hmem)
    simp only [hlabel, hexpiry, Lease.bare]

/-- **Adding a peer renews its lease.** -/
theorem leases_addPeer (hwf : inner.WellFormed) {r : String} {ms : List PeerBytes}
    (p : PeerBytes) (now : SystemTime) (label : Option String)
    (expiresAt : Option SystemTime) (h : inner.rings[r]? = some ms) :
    ((inner.enroll r ms p now).annotate (r, p) label expiresAt).leases =
      inner.leases.renew now (r, p) label expiresAt := by
  funext id
  have hmem : id.2 ∈ ((inner.enroll r ms p now).annotate (r, p) label expiresAt).members id.1 ↔
      id = (r, p) ∨ id.2 ∈ inner.members id.1 := by
    rw [← mem_enroll_members inner h id, members, annotate_rings, members]
  by_cases hid : id = (r, p)
  · subst hid
    rw [leases_of_mem (hmem.mpr (.inl rfl)), Ledger.renew_self, ← enroll_lease hwf h,
      annotate_labels, annotate_expiries, if_pos rfl, if_pos rfl]
    rfl
  · rw [Ledger.renew_ne hid]
    by_cases hm : id.2 ∈ inner.members id.1
    · rw [leases_of_mem (hmem.mpr (.inr hm)), leases_of_mem hm, annotate_labels,
        annotate_expiries, if_neg hid, if_neg hid, enroll_labels_ne inner hid,
        enroll_expiries_ne inner hid]
    · rw [leases_of_notMem (fun hm' => ?_), leases_of_notMem hm]
      rcases hmem.mp hm' with h' | h'
      · exact hid h'
      · exact hm h'

/-! ### The invariant is preserved

Operations on memberships keep the rings and the associations, so for them only the
four clauses about members, labels and expiries are left to prove (`of_memberships`).
The others keep the memberships, and prove only the clause they touch. -/

namespace WellFormed

/-- The invariant after an operation on memberships only: the rings and the
associations are the same. -/
theorem of_memberships {inner' : Inner} (h : inner.WellFormed)
    (hrings : ∀ r, r ∈ inner'.rings ↔ r ∈ inner.rings)
    (hres : inner'.resourceRings = inner.resourceRings)
    (nodup : ∀ r, (inner'.members r).Nodup)
    (keys : ∀ r, ∀ b ∈ inner'.members r, EndpointKeys.isKey b = true)
    (labels : ∀ id, id ∈ inner'.labels → id.2 ∈ inner'.members id.1)
    (expiries : ∀ id, id ∈ inner'.expiries → id.2 ∈ inner'.members id.1) :
    inner'.WellFormed where
  openRing := (hrings _).mpr h.openRing
  names r hr := h.names r ((hrings r).mp hr)
  nodup := nodup
  keys := keys
  labels := labels
  expiries := expiries
  entries resourceId es hes :=
    (h.entries resourceId es (hres ▸ hes)).mono fun r hr => (hrings r).mpr hr

/-- Adding a peer: only the membership that was added can be new, and a label or an
expiry is either the one of that membership or was there before. -/
theorem addPeer (h : inner.WellFormed) {r : String} {ms : List PeerBytes} (p : EndpointId)
    (now : SystemTime) (label : Option String) (expiresAt : Option SystemTime)
    (hr : inner.rings[r]? = some ms) :
    ((inner.enroll r ms p.asBytes now).annotate (r, p.asBytes) label expiresAt).WellFormed := by
  have hmembers : ∀ r', ((inner.enroll r ms p.asBytes now).annotate (r, p.asBytes) label
      expiresAt).members r' = (inner.enroll r ms p.asBytes now).members r' := by
    intro r'
    rw [members, annotate_rings, members]
  refine h.of_memberships (fun r' => ?_) (by simp) (fun r' => ?_) (fun r' b hb => ?_)
    (fun id hid => ?_) (fun id hid => ?_)
  · rw [annotate_rings, enroll_rings_mem inner hr]
  · rw [hmembers, enroll_members]
    split
    · rename_i hnew
      rw [← members_of_get hr] at hnew ⊢
      exact List.nodup_append.mpr ⟨h.nodup r, by simp, by
        intro a ha b hb heq
        subst heq
        exact hnew.2 (List.mem_singleton.mp hb ▸ ha)⟩
    · exact h.nodup r'
  · rw [hmembers] at hb
    rcases (mem_enroll_members inner hr (r', b)).mp hb with hid | hmem
    · exact (Prod.mk.inj hid).2 ▸ p.isKey
    · exact h.keys r' b hmem
  · rw [hmembers]
    refine (mem_enroll_members inner hr id).mpr ?_
    by_cases hkey : id = (r, p.asBytes)
    · exact .inl hkey
    · -- a label of another membership was there before
      obtain ⟨v, hv⟩ := Table.mem_iff.mp hid
      rw [annotate_labels, if_neg hkey, enroll_labels_ne inner hkey] at hv
      exact .inr (h.labels id (Table.mem_iff.mpr ⟨v, hv⟩))
  · rw [hmembers]
    refine (mem_enroll_members inner hr id).mpr ?_
    by_cases hkey : id = (r, p.asBytes)
    · exact .inl hkey
    · -- and so was its expiry
      obtain ⟨v, hv⟩ := Table.mem_iff.mp hid
      rw [annotate_expiries, if_neg hkey, enroll_expiries_ne inner hkey] at hv
      exact .inr (h.expiries id (Table.mem_iff.mpr ⟨v, hv⟩))

/-- Forgetting memberships: what is left was there before, and its membership is left. -/
theorem evictAll (h : inner.WellFormed) (keys : List MemberId) :
    (inner.evictAll keys).WellFormed := by
  have hmem : ∀ id, id ∉ keys → id.2 ∈ inner.members id.1 →
      id.2 ∈ (inner.evictAll keys).members id.1 := by
    intro id hid hm
    rw [evictAll_members]
    exact List.mem_filter.mpr ⟨hm, decide_eq_true hid⟩
  refine h.of_memberships (fun r => ?_) (by simp) (fun r => ?_) (fun r b hb => ?_)
    (fun id hid => ?_) (fun id hid => ?_)
  · exact mem_evictAll_rings
  · rw [evictAll_members]
    exact (h.nodup r).filter _
  · rw [evictAll_members] at hb
    exact h.keys r b ((List.mem_filter.mp hb).1)
  · -- a label that is left was not erased, so its membership is left too
    obtain ⟨v, hv⟩ := Table.mem_iff.mp hid
    rw [evictAll_labels] at hv
    split at hv
    · cases hv
    · exact hmem id ‹_› (h.labels id (Table.mem_iff.mpr ⟨v, hv⟩))
  · obtain ⟨v, hv⟩ := Table.mem_iff.mp hid
    rw [evictAll_expiries] at hv
    split at hv
    · cases hv
    · exact hmem id ‹_› (h.expiries id (Table.mem_iff.mpr ⟨v, hv⟩))

/-- A new ring is empty, so every membership stays what it was. -/
theorem insertRing (h : inner.WellFormed) {r : String} (hv : ValidName r)
    (hnew : r ∉ inner.rings) :
    ({ inner with rings := inner.rings.insert r [] } : Inner).WellFormed := by
  have hmembers := members_insert_new hnew
  constructor
  · exact Table.mem_insert_iff.mpr (.inr h.openRing)
  · intro r' hr'
    rcases Table.mem_insert_iff.mp hr' with rfl | hr'
    · exact hv
    · exact h.names r' hr'
  · exact fun r' => hmembers ▸ h.nodup r'
  · exact fun r' => hmembers ▸ h.keys r'
  · exact fun id hid => hmembers ▸ h.labels id hid
  · exact fun id hid => hmembers ▸ h.expiries id hid
  · exact fun resourceId es hes =>
      (h.entries resourceId es hes).mono fun r' hr' => Table.mem_insert_iff.mpr (.inr hr')

end WellFormed

/-- Associating a resource changes its entries, and those of no other resource. -/
theorem WellFormed.insertEntries (h : inner.WellFormed) {res : Bytes} {r : String}
    {ps : List Permission} (hr : r ∈ inner.rings)
    (hps : validateRingPermissions r ps = .ok ()) :
    ({ inner with
        resourceRings := inner.resourceRings.insert res
          (computeResourceRings (inner.resourceRings[res]?.getD []) r ps) } :
      Inner).WellFormed := by
  refine ⟨h.openRing, h.names, h.nodup, h.keys, h.labels, h.expiries, ?_⟩
  intro resourceId es hes
  rw [Table.get_insert] at hes
  split at hes
  · obtain rfl := Option.some.inj hes
    have hold : inner.resourceRings[res]?.getD [] = [] ∨
        inner.EntriesOk (inner.resourceRings[res]?.getD []) := by
      cases hget : inner.resourceRings[res]? with
      | none => exact .inl rfl
      | some es => exact .inr (h.entries res es hget)
    have := entriesOk_compute hold hr hps
    exact ⟨this.ne_nil, this.nodup, this.exists_ring, this.perms⟩
  · have := h.entries resourceId es hes
    exact ⟨this.ne_nil, this.nodup, this.exists_ring, this.perms⟩

/-- Dissociating a resource leaves the entries of the others. -/
theorem WellFormed.eraseEntries (h : inner.WellFormed) (res : Bytes) :
    ({ inner with resourceRings := inner.resourceRings.erase res } : Inner).WellFormed := by
  refine ⟨h.openRing, h.names, h.nodup, h.keys, h.labels, h.expiries, ?_⟩
  intro resourceId es hes
  rw [Table.get_erase] at hes
  split at hes
  · cases hes
  · have := h.entries resourceId es hes
    exact ⟨this.ne_nil, this.nodup, this.exists_ring, this.perms⟩

/-! ### One call -/

/-- What one call does to a well-formed registry: the invariant holds again, and
the memberships, the entries and the rings change as the effect of the call says. -/
structure StepOk (inner : Inner) (rec : Record) (inner' : Inner) : Prop where
  wellFormed : inner'.WellFormed
  leases : inner'.leases = rec.effect.onLedger inner.leases
  entries : inner'.resourceRings = rec.effect.onEntries inner.resourceRings
  rings : ∀ r, r ∈ inner'.rings ↔ r ∈ inner.rings ∨ rec.effect = .created r

/-- A call that changes nothing and is recorded as doing nothing. -/
theorem WellFormed.stepOk_self (h : inner.WellFormed) {rec : Record}
    (hrec : rec.effect = .nothing) : StepOk inner rec inner := by
  refine ⟨h, ?_, ?_, fun r => ?_⟩
  · rw [hrec]
    rfl
  · rw [hrec]
    rfl
  · simp [hrec]

/-- The grants follow from the entries. -/
theorem StepOk.grants {inner inner' : Inner} {rec : Record} (h : StepOk inner rec inner') :
    inner'.grants = rec.effect.onGrants inner.grants := by
  funext res r
  rw [Inner.grants, h.entries]
  cases rec.effect with
  | associated res' r' ps =>
      exact congrFun (congrFun (grants_insertEntries inner res' r' ps) res) r
  | dissociated res' => exact congrFun (congrFun (grants_eraseEntries inner res') res) r
  | created | admitted | removed | evicted | nothing => rfl

/-- **The step lemma of the in-memory registry.** The four calls that only read are
recorded as doing nothing; a call that fails changes nothing; each of the others has
the closed form of its own case lemma. -/
theorem WellFormed.step (h : inner.WellFormed) (env : Env) (c : Call) :
    StepOk inner ⟨env, c, (Registry.perform env inner c).1⟩
      (Registry.perform env inner c).2 := by
  cases c with
  | createRing r =>
      show StepOk inner ⟨env, _, .unit (inner.createRing r).1⟩ (inner.createRing r).2
      rcases createRing_cases inner r with ⟨e, he⟩ | ⟨hv, hnew, hok⟩
      · rw [he]
        exact h.stepOk_self rfl
      · rw [hok]
        refine ⟨h.insertRing hv hnew, ?_, rfl, fun r' => ?_⟩
        · funext id
          unfold Inner.leases
          rw [members_insert_new hnew]
          rfl
        · have hcreated : Effect.created r = .created r' ↔ r' = r := by
            rw [Effect.created.injEq, eq_comm]
          exact Table.mem_insert_iff.trans (or_comm.trans (or_congr_right hcreated.symm))
  | addPeerToRing r p label expiresAt =>
      show StepOk inner ⟨env, _, .unit (inner.addPeerToRing env r p label expiresAt).1⟩
        (inner.addPeerToRing env r p label expiresAt).2
      cases hr : inner.rings[r]? with
      | none =>
          -- `RingNotFound`: nothing was written
          simp only [addPeerToRing, hr]
          exact h.stepOk_self rfl
      | some ms =>
          rw [addPeerToRing_of_ring hr]
          refine ⟨h.addPeer p env.now label expiresAt hr,
            leases_addPeer h p.asBytes env.now label expiresAt hr, ?_, fun r' => ?_⟩
          · rw [annotate_resourceRings, enroll_resourceRings]
            rfl
          · rw [annotate_rings, enroll_rings_mem inner hr]
            exact (or_iff_left (by intro h; cases h)).symm
  | removePeerFromRing r p =>
      show StepOk inner ⟨env, _, .unit (inner.removePeerFromRing r p).1⟩
        (inner.removePeerFromRing r p).2
      cases hr : inner.rings[r]? with
      | none =>
          simp only [removePeerFromRing, hr]
          exact h.stepOk_self rfl
      | some ms =>
          rw [removePeerFromRing_of_ring hr]
          refine ⟨h.evictAll _, leases_removePeer inner _, ?_, fun r' => ?_⟩
          · rw [evictAll_resourceRings]
            rfl
          · rw [mem_evictAll_rings]
            exact (or_iff_left (by intro h; cases h)).symm
  | listRingPeers r => exact h.stepOk_self (Record.effect_eq_nothing rfl)
  | listRings => exact h.stepOk_self (Record.effect_eq_nothing rfl)
  | removeRingFromResource res =>
      exact ⟨h.eraseEntries res, rfl, rfl, fun r =>
        (or_iff_left (by intro h; cases h)).symm⟩
  | listResourceRings res => exact h.stepOk_self (Record.effect_eq_nothing rfl)
  | addRingToResource res r ps =>
      show StepOk inner ⟨env, _, .unit (inner.addRingToResource res r ps).1⟩
        (inner.addRingToResource res r ps).2
      rcases addRingToResource_cases inner res r ps with ⟨e, he⟩ | ⟨hps, hr, hok⟩
      · rw [he]
        exact h.stepOk_self rfl
      · rw [hok]
        exact ⟨h.insertEntries hr hps, rfl, rfl, fun r =>
          (or_iff_left (by intro h; cases h)).symm⟩
  | hasPermission p res q => exact h.stepOk_self (Record.effect_eq_nothing rfl)
  | evictExpired n =>
      show StepOk inner ⟨env, _, .evicted (inner.evictExpired env n).1⟩
        (inner.evictExpired env n).2
      -- in a well-formed registry no stored peer id fails to parse
      obtain ⟨evicted, -, heq⟩ := h.evictExpired_eq env n
      rw [heq]
      refine ⟨h.evictAll _, leases_evictExpired env inner n, ?_, fun r' => ?_⟩
      · rw [evictAll_resourceRings]
        rfl
      · rw [mem_evictAll_rings]
        exact (or_iff_left (by intro h; cases h)).symm

/-- The registry starts with the open ring, which has no members. -/
theorem wellFormed_new : Inner.new.WellFormed := by
  have hrings : ∀ r, Inner.new.members r = [] := by
    intro r
    rw [members, Inner.new, Table.get_insert]
    split <;> simp
  have hnone : ∀ (ν : Type) (k : MemberId), k ∉ (∅ : HashMap MemberId ν) := by simp
  refine ⟨?_, ?_, ?_, ?_, ?_, ?_, ?_⟩
  · exact Table.mem_insert_iff.mpr (.inl rfl)
  · intro r hr
    rcases Table.mem_insert_iff.mp hr with rfl | hr
    · exact validName_open
    · simp at hr
  · simp [hrings]
  · simp [hrings]
  · exact fun id hid => absurd hid (hnone _ id)
  · exact fun id hid => absurd hid (hnone _ id)
  · intro res es hes
    simp [Inner.new] at hes

end Inner

end IrohRings
