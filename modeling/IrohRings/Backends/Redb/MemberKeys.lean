import IrohRings.Backends.Redb.Eviction

/-!
# IrohRings.Backends.Redb.MemberKeys

Which byte strings `splitMemberKey` accepts, whether or not `memberKey` wrote them.

It never looks at the byte between the ring name and the peer id. A key with another
byte there is accepted along with the one that has a NUL, as the same membership
(`splitMemberKey_eq_ok`), and is not reported as malformed (`not_splitsExactly_strayKey`).
Apart from those, `splitMemberKey` is the inverse of `memberKey`
(`splitMemberKey_exact_iff`), and an eviction rewrites the rings that the expired keys
name, no others.
-/

namespace IrohRings

open Foundation

variable [EndpointKeys]

/-! ### What is accepted -/

/-- **The accepted keys**: a ring name, any byte, a peer id. -/
theorem splitMemberKey_eq_ok {key : Bytes} {r : String} {p : EndpointId} :
    splitMemberKey key = .ok (r, p) ↔ ∃ sep, key = asBytes r ++ [sep] ++ p.asBytes.toList := by
  refine ⟨fun h => ?_, fun hex => ?_⟩
  · unfold splitMemberKey at h
    split at h
    · cases h
    · rename_i hge
      dsimp only at h
      -- the key falls apart where `split_at` cuts it
      have hsplit := List.take_append_drop (key.length - 32) key
      generalize key.take (key.length - 32) = ringAndSep at h hsplit
      generalize key.drop (key.length - 32) = peerBytes at h hsplit
      split at h
      · cases h
      · rename_i name hname
        split at h
        · rename_i hsize
          split at h
          · rename_i peer hpeer
            obtain ⟨rfl, rfl⟩ := Prod.mk.inj (Except.ok.inj h)
            have hne : ringAndSep ≠ [] := by
              intro hnil
              have := congrArg List.length hsplit
              simp only [hnil, List.nil_append, List.size_toArray] at this hsize
              omega
            refine ⟨ringAndSep.getLast hne, ?_⟩
            rw [fromUtf8_eq_some, ← List.dropLast_eq_take] at hname
            have hbytes := congrArg Vector.toList (EndpointId.fromBytes_eq_ok.mp hpeer)
            rw [← hname, List.dropLast_append_getLast, ← hbytes, ← hsplit]
            rfl
          · cases h
        · cases h
  · rcases hex with ⟨sep, rfl⟩
    exact splitMemberKey_append r sep p

/-- Whatever is not accepted is reported as malformed. -/
theorem splitMemberKey_eq_error {key : Bytes} {f : Fault} (h : splitMemberKey key = .error f) :
    f = malformedKey key := by
  unfold splitMemberKey at h
  split at h
  · exact (Except.error.inj h).symm
  · dsimp only at h
    split at h
    · exact (Except.error.inj h).symm
    · split at h
      · split at h
        · cases h
        · exact (Except.error.inj h).symm
      · exact (Except.error.inj h).symm

/-- The key splits into what `memberKey` made it from, or is reported as malformed. -/
def SplitsExactly (key : Bytes) : Prop :=
  (∀ r p, splitMemberKey key = .ok (r, p) → key = memberKey r p) ∧
    ((∀ r p, key ≠ memberKey r p) → splitMemberKey key = .error (malformedKey key))

/-- The byte before the last 32 is a NUL, or the key is refused without looking at it:
it is too short, what comes before that byte is not UTF-8, or the last 32 bytes are no
peer id. -/
def NulOrRefused (key : Bytes) : Prop :=
  key.length < 33 ∨ key[key.length - 33]? = some 0 ∨
    fromUtf8 (key.take (key.length - 33)) = none ∨
    ∀ p : EndpointId, p.asBytes.toList ≠ key.drop (key.length - 32)

/-- Of the keys that are accepted, those with a NUL are split as they should be. -/
theorem splitsExactly_append (r : String) (sep : UInt8) (p : EndpointId) :
    SplitsExactly (asBytes r ++ [sep] ++ p.asBytes.toList) ↔ sep = 0 := by
  have hok := splitMemberKey_append r sep p
  refine ⟨fun h => ?_, fun hsep => ?_⟩
  · obtain ⟨hring, -⟩ := List.append_inj' (h.1 r p hok) (by simp)
    obtain ⟨-, hsep⟩ := List.append_inj' hring rfl
    exact (List.cons.inj hsep).1
  · subst hsep
    refine ⟨fun r' p' hok' => ?_, fun hnone => absurd rfl (hnone r p)⟩
    obtain ⟨rfl, rfl⟩ := Prod.mk.inj (Except.ok.inj (hok.symm.trans hok'))
    rfl

theorem nulOrRefused_append (r : String) (sep : UInt8) (p : EndpointId) :
    NulOrRefused (asBytes r ++ [sep] ++ p.asBytes.toList) ↔ sep = 0 := by
  have hlen : p.asBytes.toList.length = 32 := by simp
  generalize hkey : asBytes r ++ [sep] ++ p.asBytes.toList = key
  have hlength : key.length = (asBytes r).length + 33 := by
    rw [← hkey, List.length_append, List.length_append, hlen, List.length_singleton]
  have hcut : key.length - 33 = (asBytes r).length := by omega
  have hsep : key[key.length - 33]? = some sep := by
    rw [hcut, ← hkey, List.append_assoc, List.getElem?_append_right le_rfl, Nat.sub_self]
    rfl
  have hname : fromUtf8 (key.take (key.length - 33)) = some r := by
    rw [hcut, ← hkey, List.append_assoc, List.take_left, fromUtf8_asBytes]
  have hpeer : p.asBytes.toList = key.drop (key.length - 32) := by
    have hbefore : (asBytes r ++ [sep]).length = key.length - 32 := by
      rw [List.length_append, List.length_singleton]
      omega
    rw [← hkey, List.drop_left' (by rw [hkey]; exact hbefore)]
  refine ⟨fun h => ?_, fun hzero => ?_⟩
  · rcases h with hshort | hnul | hnone | hpeers
    · omega
    · exact Option.some.inj (hsep.symm.trans hnul)
    · cases hname.symm.trans hnone
    · exact absurd hpeer (hpeers p)
  · exact .inr (.inl (hzero ▸ hsep))

/-- A key is accepted, or refused without looking at the separator. -/
theorem accepted_or_refused (key : Bytes) :
    (∃ r sep, ∃ p : EndpointId, key = asBytes r ++ [sep] ++ p.asBytes.toList) ∨
      (NulOrRefused key ∧ splitMemberKey key = .error (malformedKey key)) := by
  cases hsplit : splitMemberKey key with
  | ok a =>
      obtain ⟨sep, hkey⟩ := splitMemberKey_eq_ok.mp hsplit
      exact .inl ⟨a.1, sep, a.2, hkey⟩
  | error f =>
      refine .inr ⟨?_, by rw [splitMemberKey_eq_error hsplit]⟩
      by_contra hnot
      simp only [NulOrRefused, not_or, not_lt, not_forall, not_not, ← ne_eq,
        Option.ne_none_iff_exists'] at hnot
      obtain ⟨hlen, -, ⟨r, hname⟩, p, hpeer⟩ := hnot
      -- the parts of the key are accepted, whatever byte stands between them
      have hlt : key.length - 33 < key.length := by omega
      have hkey : key = asBytes r ++ [key[key.length - 33]] ++ p.asBytes.toList := by
        rw [← fromUtf8_eq_some.mp hname, hpeer, List.append_assoc, List.singleton_append,
          show key.length - 32 = key.length - 33 + 1 by omega, ← List.drop_eq_getElem_cons hlt,
          List.take_append_drop]
      cases hsplit.symm.trans (splitMemberKey_eq_ok.mpr ⟨_, hkey⟩)

theorem splitsExactly_iff (key : Bytes) : SplitsExactly key ↔ NulOrRefused key := by
  obtain ⟨r, sep, p, rfl⟩ | ⟨hrefused, herror⟩ := accepted_or_refused key
  · rw [splitsExactly_append, nulOrRefused_append]
  · refine iff_of_true ⟨fun r p hok => ?_, fun _ => herror⟩ hrefused
    cases hok.symm.trans herror

/-! ### Evictions -/

namespace RedbRegistry

omit [EndpointKeys] in
/-- A ring that no group is for is not rewritten. -/
theorem foldl_rewriteRing_of_ne {r : String} {groups : List (String × List PeerBytes)}
    (rings : Table String Bytes) (h : ∀ g ∈ groups, g.1 ≠ r) :
    (groups.foldl rewriteRing rings)[r]? = rings[r]? := by
  induction groups generalizing rings with
  | nil => rfl
  | cons g groups ih =>
      obtain ⟨hg, hgroups⟩ := List.forall_mem_cons.mp h
      rw [List.foldl_cons, ih _ hgroups, rewriteRing]
      split
      · rfl
      · rw [Table.get_insert, if_neg (Ne.symm hg)]

/-- A group is made for a ring that a collected row names. -/
theorem exists_of_mem_groupByRing {expired : List (Bytes × String × EndpointId)} {r : String}
    (h : r ∈ groupByRing expired) : ∃ e ∈ expired, e.2.1 = r := by
  have hfold : ∀ byRing : HashMap String (List PeerBytes),
      r ∈ expired.foldl
        (fun (byRing : HashMap String (List PeerBytes)) (e : Bytes × String × EndpointId) =>
          byRing.insert e.2.1 (byRing[e.2.1]?.getD [] ++ [e.2.2.asBytes])) byRing →
      r ∈ byRing ∨ ∃ e ∈ expired, e.2.1 = r := by
    clear h
    induction expired with
    | nil => exact fun byRing h => .inl h
    | cons e expired ih =>
        intro byRing h
        rcases ih _ h with h | ⟨e', he', hr⟩
        · rcases Table.mem_insert_iff.mp h with hr | h
          · exact .inr ⟨e, List.mem_cons_self, hr.symm⟩
          · exact .inl h
        · exact .inr ⟨e', List.mem_cons_of_mem _ he', hr⟩
  exact (hfold ∅ h).resolve_left (by simp)

/-- What is collected are rows whose expiry has passed, with what their keys split
into. -/
theorem collectExpired_sound {now : SystemTime} {rows : List (Bytes × ExpiryRow)}
    {expired : List (Bytes × String × EndpointId)} (h : collectExpired now rows = .ok expired) :
    ∀ e ∈ expired, splitMemberKey e.1 = .ok e.2 ∧
      ∃ row t, (e.1, row) ∈ rows ∧ decodeExpiry row = .ok t ∧ t ≤ now := by
  induction rows generalizing expired with
  | nil =>
      obtain rfl := Except.ok.inj h
      simp
  | cons row rows ih =>
      obtain ⟨key, row⟩ := row
      rw [collectExpired] at h
      cases hdec : decodeExpiry row with
      | error f =>
          rw [hdec] at h
          cases h
      | ok t =>
          rw [hdec] at h
          simp only [bind, Except.bind] at h
          by_cases hle : t ≤ now
          · rw [if_pos hle] at h
            cases hsplit : splitMemberKey key with
            | error f =>
                rw [hsplit] at h
                cases h
            | ok a =>
                cases hrest : collectExpired now rows with
                | error f =>
                    rw [hsplit, hrest] at h
                    cases h
                | ok rest =>
                    rw [hsplit, hrest] at h
                    obtain rfl := Except.ok.inj h
                    refine List.forall_mem_cons.mpr
                      ⟨⟨hsplit, row, t, List.mem_cons_self, hdec, hle⟩, fun e he => ?_⟩
                    obtain ⟨hkey, row', t', hmem, hpassed⟩ := ih hrest e he
                    exact ⟨hkey, row', t', List.mem_cons_of_mem _ hmem, hpassed⟩
          · rw [if_neg hle] at h
            intro e he
            obtain ⟨hkey, row', t', hmem, hpassed⟩ := ih h e he
            exact ⟨hkey, row', t', List.mem_cons_of_mem _ hmem, hpassed⟩

/-- An eviction rewrites a ring only if a row says so: one that has expired, and whose
key splits into that ring and some peer. -/
theorem exists_of_evictExpired_rings {env : Env} {db : RedbRegistry} {now : SystemTime}
    {r : String} (h : (db.evictExpired env now).2.rings[r]? ≠ db.rings[r]?) :
    ∃ key row t, ∃ p : EndpointId, db.expiries[key]? = some row ∧ decodeExpiry row = .ok t ∧
      t ≤ now ∧ splitMemberKey key = .ok (r, p) := by
  unfold evictExpired at h
  cases hcollect : collectExpired now db.expiries.toList with
  | error f =>
      -- the transaction is aborted
      rw [hcollect] at h
      exact absurd rfl h
  | ok expired =>
      simp only [hcollect, bind, Except.bind, foldl_clear] at h
      have hgroup : ∃ g ∈ env.order.iter (groupByRing expired).toList, g.1 = r := by
        by_contra hnone
        refine h (foldl_rewriteRing_of_ne db.rings fun g hg hr => hnone ⟨g, hg, hr⟩)
      obtain ⟨g, hg, rfl⟩ := hgroup
      rw [(env.order.perm _).mem_iff] at hg
      have hmem : g.1 ∈ groupByRing expired :=
        Table.mem_iff.mpr ⟨g.2, Std.ExtTreeMap.mem_toList_iff_getElem?_eq_some.mp hg⟩
      obtain ⟨e, he, hr⟩ := exists_of_mem_groupByRing hmem
      obtain ⟨hsplit, row, t, hrow, hdec, hle⟩ := collectExpired_sound hcollect e he
      exact ⟨e.1, row, t, e.2.2, Std.ExtTreeMap.mem_toList_iff_getElem?_eq_some.mp hrow, hdec, hle,
        by rw [hsplit, ← hr]⟩

end RedbRegistry

/-- **`splitMemberKey` inverts `memberKey`**, and it accepts or reports a key as it
should exactly if the separator is a NUL or the key is refused anyway. An eviction of a
database all of whose expiry keys are like that edits no ring but those they name. -/
theorem splitMemberKey_exact_iff :
    (∀ (r : String) (p : EndpointId), splitMemberKey (memberKey r p) = .ok (r, p)) ∧
    (∀ (r r' : String) (p p' : EndpointId), memberKey r p = memberKey r' p' → r = r' ∧ p = p') ∧
    (∀ key, SplitsExactly key ↔ NulOrRefused key) ∧
    ∀ (env : Env) (db : RedbRegistry) (now : SystemTime) (r : String),
      (∀ key ∈ db.expiries, NulOrRefused key) →
      (db.evictExpired env now).2.rings[r]? ≠ db.rings[r]? →
      ∃ (p : EndpointId) (row : ExpiryRow) (t : SystemTime),
        db.expiries[memberKey r p]? = some row ∧ decodeExpiry row = .ok t ∧ t ≤ now := by
  refine ⟨splitMemberKey_memberKey, fun r r' p p' h => ?_, splitsExactly_iff,
    fun env db now r hkeys hchanged => ?_⟩
  · obtain ⟨hr, hp⟩ := memberKeyOf_inj.mp h
    exact ⟨hr, EndpointId.ext hp⟩
  · obtain ⟨key, row, t, p, hrow, hdec, hle, hsplit⟩ :=
      RedbRegistry.exists_of_evictExpired_rings hchanged
    have hexact := (splitsExactly_iff key).mpr (hkeys key (Table.mem_iff.mpr ⟨row, hrow⟩))
    obtain rfl := hexact.1 r p hsplit
    exact ⟨p, row, t, hrow, hdec, hle⟩

omit [EndpointKeys] in
/-- **A key with another separator is accepted.** -/
theorem not_splitsExactly_strayKey :
    ¬ @SplitsExactly EndpointKeys.basePoint
      (asBytes "team" ++ [0x2f] ++ basePointBytes.toList) := by
  intro h
  have hsep := (@splitsExactly_append EndpointKeys.basePoint "team" 0x2f
    EndpointId.basePoint).mp h
  cases hsep

end IrohRings
