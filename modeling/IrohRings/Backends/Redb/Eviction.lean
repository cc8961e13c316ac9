import IrohRings.Backends.Redb.Rep

/-!
# IrohRings.Backends.Redb.Eviction

The two backends evict in different ways: the in-memory one forgets membership
after membership, the redb one collects expired rows, splits their keys, groups
the peers by ring, rewrites each of these rings once, and then deletes the rows.
This module reads off what each of the redb stages does to one key, and puts
them together as `Rep.evictExpired`.
-/

namespace IrohRings

open Foundation

namespace RedbRegistry

/-! ### Deleting rows -/

theorem foldl_clear {ι : Type} (key : ι → Bytes) (is : List ι) (db : RedbRegistry) :
    is.foldl (fun db i => db.clear (key i)) db =
      { db with
        labels := is.foldl (fun rows i => rows.erase (key i)) db.labels
        expiries := is.foldl (fun rows i => rows.erase (key i)) db.expiries } := by
  induction is generalizing db with
  | nil => rfl
  | cons i is ih => rw [List.foldl_cons, ih]; rfl

/-! ### Rewriting rings

The source groups the expired peers by ring and rewrites each ring once. The groups come
in no particular order, so what is said of the result must not depend on it. -/

/-- Rewriting rings one group after the other: a member stays unless some group
of its ring names it. -/
theorem get_foldl_rewriteRing (groups : List (String × List PeerBytes))
    (rings : Table String Bytes) {r : String} {o : Option (List PeerBytes)}
    (hr : rings[r]? = o.map encodePeerIds) :
    (groups.foldl rewriteRing rings)[r]? =
      (o.map fun ms => ms.filter fun b => ∀ g ∈ groups, g.1 = r → b ∉ g.2).map
        encodePeerIds := by
  induction groups generalizing rings o with
  | nil => simpa using hr
  | cons g groups ih =>
      rw [List.foldl_cons]
      -- one group: its own ring loses the peers it names, any other ring is untouched
      have hstep : (rewriteRing rings g)[r]? =
          (o.map fun ms => ms.filter fun b => g.1 = r → b ∉ g.2).map encodePeerIds := by
        unfold rewriteRing
        by_cases hg : g.1 = r
        · subst hg
          cases o with
          | none => simp [hr]
          | some ms => simp [hr]
        · have hid : (o.map fun ms => ms.filter fun b => g.1 = r → b ∉ g.2) = o := by
            simp [hg]
          rw [hid]
          cases rings[g.1]? with
          | none => exact hr
          | some raw =>
              rw [Table.get_insert, if_neg fun h => hg h.symm]
              exact hr
      rw [ih _ hstep]
      congr 1
      cases o with
      | none => rfl
      | some ms =>
          simp only [Option.map_some, List.filter_filter, List.forall_mem_cons,
            Bool.decide_and, Bool.and_comm]

variable [EndpointKeys]

/-- The group of a ring has the peers that were collected for it. -/
theorem mem_groupByRing (expired : List (Bytes × String × EndpointId)) (r : String)
    (b : PeerBytes) :
    b ∈ (groupByRing expired)[r]?.getD [] ↔ ∃ e ∈ expired, e.2.1 = r ∧ e.2.2.asBytes = b := by
  -- generalized over the groups built so far, for the induction
  have hfold : ∀ byRing : HashMap String (List PeerBytes),
      b ∈ ((expired.foldl
        (fun (byRing : HashMap String (List PeerBytes)) (e : Bytes × String × EndpointId) =>
          byRing.insert e.2.1 (byRing[e.2.1]?.getD [] ++ [e.2.2.asBytes])) byRing)[r]?.getD []) ↔
        b ∈ byRing[r]?.getD [] ∨ ∃ e ∈ expired, e.2.1 = r ∧ e.2.2.asBytes = b := by
    induction expired with
    | nil => simp
    | cons e expired ih =>
        intro byRing
        rw [List.foldl_cons, ih, Table.get_insert]
        by_cases hr : r = e.2.1
        · subst hr
          simp [or_assoc, eq_comm]
        · have hr' : ¬ e.2.1 = r := fun h => hr h.symm
          simp [hr, hr']
  have := hfold ∅
  simpa [groupByRing] using this

/-- No group of a ring names a peer that was not collected for it. -/
theorem forall_groupByRing (order : HashOrder) (expired : List (Bytes × String × EndpointId))
    (r : String) (b : PeerBytes) :
    (∀ g ∈ order.iter (groupByRing expired).toList, g.1 = r → b ∉ g.2) ↔
      ¬ ∃ e ∈ expired, e.2.1 = r ∧ e.2.2.asBytes = b := by
  rw [← mem_groupByRing]
  constructor
  · intro hall hmem
    cases hget : (groupByRing expired)[r]? with
    | none => simp [hget] at hmem
    | some gone =>
        rw [hget, Option.getD_some] at hmem
        refine hall (r, gone) ?_ rfl hmem
        rw [(order.perm _).mem_iff]
        exact Std.ExtTreeMap.mem_toList_iff_getElem?_eq_some.mpr hget
  · rintro hnot ⟨_, gone⟩ hg rfl hmem
    rw [(order.perm _).mem_iff, Std.ExtTreeMap.mem_toList_iff_getElem?_eq_some] at hg
    exact hnot (by rw [hg]; exact hmem)

/-! ### Collecting rows

The first stage goes through all expiry rows. Rows that were written by the registry
decode, and their keys split into the ring and the peer they were made of. -/

/-- Rows that all were written by `annotate` collect without error: the keys of
those that decode to an instant that has passed, in order. -/
theorem collectExpired_eq (n : SystemTime) (rows : List (Bytes × ExpiryRow))
    (hrows : ∀ row ∈ rows, ∃ r p t, row = (memberKey r p, encodeExpiry t)) :
    ∃ expired, collectExpired n rows = .ok expired ∧
      (∀ e ∈ expired, e.1 = memberKey e.2.1 e.2.2) ∧
      (expired.map Prod.fst).Sublist (rows.map Prod.fst) ∧
      ∀ key, key ∈ expired.map Prod.fst ↔
        ∃ row, (key, row) ∈ rows ∧ ∃ u, decodeExpiry row = .ok u ∧ u ≤ n := by
  induction rows with
  | nil => exact ⟨[], rfl, by simp, by simp, by simp⟩
  | cons row rows ih =>
      obtain ⟨expired, hok, hkeys, hsub, hmem⟩ := ih fun row h => hrows row (by simp [h])
      obtain ⟨r, p, t, rfl⟩ := hrows row (by simp)
      simp only [collectExpired, decodeExpiry_encodeExpiry, bind, Except.bind]
      -- the row is collected if what is stored, the clamped expiry, has passed
      by_cases ht : clamp t ≤ n
      · refine ⟨(memberKey r p, r, p) :: expired, ?_, ?_, hsub.cons_cons _, fun key => ?_⟩
        · simp only [if_pos ht, splitMemberKey_memberKey, hok]
          rfl
        · intro e hmem
          rcases hmem with _ | ⟨_, he⟩
          · rfl
          · exact hkeys e he
        · rw [List.map_cons, List.mem_cons, hmem]
          refine ⟨fun hor => ?_, fun hex => ?_⟩
          · rcases hor with rfl | ⟨row, hrow, hu⟩
            · exact ⟨_, .head _, clamp t, decodeExpiry_encodeExpiry t, ht⟩
            · exact ⟨row, .tail _ hrow, hu⟩
          · rcases hex with ⟨row, _ | ⟨_, hrow⟩, hu⟩
            · exact .inl rfl
            · exact .inr ⟨row, hrow, hu⟩
      · refine ⟨expired, by rw [if_neg ht, hok], hkeys, hsub.cons _, fun key => ?_⟩
        rw [hmem]
        refine ⟨fun hex => ?_, fun hex => ?_⟩
        · rcases hex with ⟨row, hrow, hu⟩
          exact ⟨row, .tail _ hrow, hu⟩
        · rcases hex with ⟨row, _ | ⟨_, hrow⟩, hu⟩
          · obtain ⟨u, hdec, hle⟩ := hu
            rw [decodeExpiry_encodeExpiry] at hdec
            exact absurd (Except.ok.inj hdec ▸ hle) ht
          · exact ⟨row, hrow, hu⟩

end RedbRegistry

namespace Rep

variable {inner : Inner} {db : RedbRegistry} [EndpointKeys]

/-- The rows of `EXPIRIES` collect to the memberships the in-memory registry
evicts. -/
theorem collectExpired (h : Rep inner db) (hwf : inner.WellFormed) (env : Env)
    {n : SystemTime} (hcmp : Comparable inner n) :
    ∃ expired, RedbRegistry.collectExpired n db.expiries.toList = .ok expired ∧
      (expired.map fun e => (e.2.1, e.2.2.asBytes)).Perm (inner.expiredKeys env n) ∧
      expired.map Prod.fst =
        (expired.map fun e => (e.2.1, e.2.2.asBytes)).map memberKeyOfId := by
  have hrow : ∀ key row, (key, row) ∈ db.expiries.toList ↔
      ∃ id t, inner.expiries[id]? = some t ∧ memberKeyOfId id = key ∧ encodeExpiry t = row :=
    fun key row => Std.ExtTreeMap.mem_toList_iff_getElem?_eq_some.trans (h.expiries key row)
  obtain ⟨expired, hok, hkeys, hsub, hmem⟩ :=
    RedbRegistry.collectExpired_eq n db.expiries.toList (by
      rintro ⟨key, row⟩ hrow'
      obtain ⟨id, t, ht, rfl, rfl⟩ := (hrow key row).mp hrow'
      have hkey := hwf.keys id.1 id.2 (hwf.expiries id (Table.mem_iff.mpr ⟨t, ht⟩))
      exact ⟨id.1, ⟨id.2, hkey⟩, t, rfl⟩)
  have hids : expired.map Prod.fst =
      (expired.map fun e => (e.2.1, e.2.2.asBytes)).map memberKeyOfId := by
    rw [List.map_map]
    exact List.map_congr_left hkeys
  refine ⟨expired, hok, ?_, hids⟩
  -- both lists are without duplicates, so it is enough to compare their members
  have hnodup : (expired.map fun e => (e.2.1, e.2.2.asBytes)).Nodup := by
    refine List.Nodup.of_map memberKeyOfId ?_
    rw [← hids]
    exact (Table.nodup_map_fst_toList db.expiries).sublist hsub
  rw [List.perm_ext_iff_of_nodup hnodup (Inner.nodup_expiredKeys env inner n)]
  intro id
  rw [Inner.mem_expiredKeys, ← List.mem_map_of_injective memberKeyOfId_injective, ← hids, hmem]
  refine ⟨fun hex => ?_, fun hex => ?_⟩
  · rcases hex with ⟨row, hrow', u, hu, hle⟩
    obtain ⟨id', t, ht, hid, rfl⟩ := (hrow _ _).mp hrow'
    obtain rfl := memberKeyOfId_injective hid
    rw [decodeExpiry_encodeExpiry] at hu
    obtain rfl := Except.ok.inj hu
    exact ⟨t, ht, (hcmp.clamp_le_iff ht).mp hle⟩
  · rcases hex with ⟨t, ht, hle⟩
    exact ⟨encodeExpiry t, (hrow _ _).mpr ⟨id, t, ht, rfl, rfl⟩, clamp t,
      decodeExpiry_encodeExpiry t, (hcmp.clamp_le_iff ht).mpr hle⟩

/-- **Eviction in redb** reports and forgets the memberships the in-memory one
does; the order of the report is that of the keys. -/
theorem evictExpired (h : Rep inner db) (hwf : inner.WellFormed) (env : Env)
    {n : SystemTime} (hcmp : Comparable inner n) :
    ∃ evicted evicted' : List EvictedMembership,
      inner.evictExpired env n = (.ok evicted, inner.evictAll (inner.expiredKeys env n)) ∧
      (db.evictExpired env n).1 = .ok evicted' ∧ evicted.Perm evicted' ∧
      Rep (inner.evictAll (inner.expiredKeys env n)) (db.evictExpired env n).2 ∧
      (db.evictExpired env n).2.resourceRingPerms = db.resourceRingPerms := by
  obtain ⟨evicted, hmap, heq⟩ := hwf.evictExpired_eq env n
  obtain ⟨expired, hok, hperm, hkeys⟩ := h.collectExpired hwf env hcmp
  have hevict : db.evictExpired env n =
      (.ok (expired.map fun e => ⟨e.2.1, e.2.2⟩),
        { db with
          rings := (env.order.iter (RedbRegistry.groupByRing expired).toList).foldl
            RedbRegistry.rewriteRing db.rings
          labels := expired.foldl (fun rows e => rows.erase e.1) db.labels
          expiries := expired.foldl (fun rows e => rows.erase e.1) db.expiries }) := by
    simp only [RedbRegistry.evictExpired, hok, bind, Except.bind, RedbRegistry.foldl_clear]
    rfl
  rw [hevict]
  refine ⟨evicted, _, heq, rfl, ?_, ?_, rfl⟩
  · refine (List.map_perm_map_iff EvictedMembership.id_injective).mp ?_
    rw [hmap, List.map_map]
    exact hperm.symm
  · have hmem : ∀ id, memberKeyOfId id ∈ expired.map Prod.fst ↔ id ∈ inner.expiredKeys env n := by
      intro id
      rw [hkeys, List.mem_map_of_injective memberKeyOfId_injective, hperm.mem_iff]
    refine ⟨Table.Image.of_get (fun r => ?_) fun r _ => ⟨r, rfl⟩,
      h.labels.foldl_erase memberKeyOfId_injective _ _ fun id => ?_,
      h.expiries.foldl_erase memberKeyOfId_injective _ _ fun id => ?_, ?_, h.version⟩
    · -- a member stays in its ring unless its key was collected
      rw [id, RedbRegistry.get_foldl_rewriteRing _ _ (h.get_ring r), Inner.evictAll_rings]
      congr 2
      funext ms
      congr 1
      funext b
      rw [decide_eq_decide, RedbRegistry.forall_groupByRing, ← hperm.mem_iff, not_iff_not,
        List.mem_map]
      exact exists_congr fun e => and_congr_right fun _ => Prod.mk_inj.symm
    · rw [Inner.evictAll_labels]
      simp only [hmem]
    · rw [Inner.evictAll_expiries]
      simp only [hmem]
    · rw [Inner.evictAll_resourceRings]
      exact h.entries

end Rep

end IrohRings
