import IrohRings.Backends.Redb.Shadow
import IrohRings.Backends.Histories

/-!
# IrohRings.Backends.EvictionUnseen

Eviction is unobservable. A run with `evictExpired` calls inserted, each for an
instant that has passed, is compared with the run without them: the other calls
are answered the same (`eviction_unobservable`).

The two registries hold different members, labels and expiries all along. What
relates them is `Ledger.Trims`: one ledger of leases is the other after some
evictions, and what is missing is dead by now.
-/

namespace IrohRings

open Foundation

variable [EndpointKeys]

/-! ### Runs with evictions inserted -/

/-- An event of a run, or an eviction inserted into it at the clock of `env`. -/
inductive Mark
  | own (e : Event)
  | inserted (env : Env) (now : SystemTime)

/-- The run without the insertions. -/
def Mark.base : Mark → Option Event
  | .own e => some e
  | .inserted _ _ => none

/-- The clock at the point of the mark. -/
def Mark.clock : Mark → Option SystemTime
  | .own (.call env _) => some env.now
  | .own .reopen => none
  | .inserted env _ => some env.now

/-- Let one mark happen. An inserted eviction is not recorded. -/
def Backend.recordMark {σ : Type} [Backend σ] : History × σ → Mark → History × σ
  | d, .own e => Backend.record d e
  | (h, s), .inserted env now => (h, (Registry.evictExpired env s now).2)

/-- The run with the insertions; its history has the other calls only. -/
def Backend.runMarks (σ : Type) [Backend σ] (marks : List Mark) : History × σ :=
  marks.foldl Backend.recordMark (Backend.start σ)

/-- The two runs answer a call the same: rings and members in any order. An
eviction of the run itself succeeds or fails alike, and has nothing more to
report than without the insertions. -/
inductive Answer.SameResult : Answer → Answer → Prop
  | unit {out out' : Outcome Unit} (h : out = out') : SameResult (.unit out) (.unit out')
  | members {out out' : Outcome (List RingMember)} (h : Outcome.Rel List.Perm out out') :
      SameResult (.members out) (.members out')
  | rings {out out' : Outcome (List Ring)} (h : Outcome.Rel List.Perm out out') :
      SameResult (.rings out) (.rings out')
  | resourceRings {out out' : Outcome (List (Ring × List Permission))} (h : out = out') :
      SameResult (.resourceRings out) (.resourceRings out')
  | granted {out out' : Outcome Bool} (h : out = out') :
      SameResult (.granted out) (.granted out')
  | evicted {out out' : Outcome (List EvictedMembership)}
      (h : Outcome.Rel List.Subset out out') : SameResult (.evicted out) (.evicted out')

/-- The same call in the same environment, with the same result. -/
structure Record.SameResult (rec rec' : Record) : Prop where
  env : rec.env = rec'.env
  call : rec.call = rec'.call
  answer : rec.answer.SameResult rec'.answer

/-- The same result is the same success. -/
theorem Answer.SameResult.isOk_eq {a a' : Answer} (h : a.SameResult a') : a.isOk = a'.isOk := by
  cases h with
  | unit h | resourceRings h | granted h => rw [h]
  | members h | rings h | evicted h => exact h.isOk_eq

/-! ### The ledgers of the two runs

What is missing in the evicted ledger is dead, so what is live is the same in both. An
admission renews a lease from what is live of it, and so makes the two agree at its key;
this is why the clock may not run backwards. -/

/-- An effect keeps one ledger trimmed from the other. -/
theorem Effect.trims {c : SystemTime} {s s' : Memberships} (h : Ledger.Trims c s s')
    {e : Effect} (he : ∀ r p add now, e = .admitted r p add now → c ≤ now) :
    Ledger.Trims c (e.onLedger s) (e.onLedger s') := by
  cases e with
  | admitted r p add now => exact h.renew (he r p add now rfl) _ _ _
  | removed r p => exact h.revoke _
  | evicted n => exact h.evict n
  | created | associated | dissociated | nothing => exact h

/-- A call admits at its own clock. -/
theorem Record.clock_of_admitted {rec : Record} {r : String} {p : EndpointId} {add : Admission}
    {now : SystemTime} (h : rec.effect = .admitted r p add now) : now = rec.env.now := by
  obtain ⟨env, c, a⟩ := rec
  unfold Record.effect at h
  split at h
  · cases c <;> cases h
    rfl
  · cases h

/-! ### The two in-memory registries

The rings and the associations are the same, the ledgers are trimmed. The evicted
registry may list members in another order after they are added again, and an eviction
that both make finds fewer to evict in it; the answers are the same up to that
(`SameResult`). -/

/-- The registries of the two runs at clock `c`: the evicted one, and the other. -/
structure Twins (c : SystemTime) (inner inner' : Inner) : Prop where
  wellFormed : inner.WellFormed
  wellFormed' : inner'.WellFormed
  trims : Ledger.Trims c inner.leases inner'.leases
  rings : ∀ r, r ∈ inner.rings ↔ r ∈ inner'.rings
  entries : inner.resourceRings = inner'.resourceRings

namespace Twins

variable {c : SystemTime} {inner inner' : Inner}

theorem start (c : SystemTime) : Twins c Inner.new Inner.new :=
  ⟨Inner.wellFormed_new, Inner.wellFormed_new, .refl c _, fun _ => Iff.rfl, rfl⟩

theorem mono {c' : SystemTime} (h : Twins c inner inner') (hc : c ≤ c') : Twins c' inner inner' :=
  ⟨h.wellFormed, h.wellFormed', h.trims.mono hc, h.rings, h.entries⟩

theorem grants (h : Twins c inner inner') : inner.grants = inner'.grants := by
  funext res r
  rw [Inner.grants, Inner.grants, h.entries]

theorem ringNames (h : Twins c inner inner') : inner.ringNames = inner'.ringNames := by
  funext res
  rw [Inner.ringNames, Inner.ringNames, h.entries]

/-- The two registries list the same entries. -/
theorem listRingPeers (h : Twins c inner inner') {env : Env} (hnow : c ≤ env.now) (r : String) :
    Outcome.Rel List.Perm (inner.listRingPeers env r) (inner'.listRingPeers env r) := by
  by_cases hr : r ∈ inner.rings
  · obtain ⟨listed, hok, hnodup, hmem⟩ := h.wellFormed.listRingPeers_spec env hr
    obtain ⟨listed', hok', hnodup', hmem'⟩ :=
      h.wellFormed'.listRingPeers_spec env ((h.rings r).mp hr)
    rw [hok, hok']
    refine .ok ((List.perm_ext_iff_of_nodup hnodup.of_map hnodup'.of_map).mpr fun m => ?_)
    rw [hmem, hmem', h.trims.agree env.now hnow]
  · have hnone : inner.rings[r]? = none := Table.get_eq_none.mpr hr
    have hnone' : inner'.rings[r]? = none := Table.get_eq_none.mpr (mt (h.rings r).mpr hr)
    simp only [Inner.listRingPeers, hnone, hnone']
    exact .error _

theorem listRings (h : Twins c inner inner') (env : Env) :
    Outcome.Rel List.Perm (inner.listRings env) (inner'.listRings env) := by
  obtain ⟨listed, hok, hnodup, hmem⟩ := h.wellFormed.listRings_spec env
  obtain ⟨listed', hok', hnodup', hmem'⟩ := h.wellFormed'.listRings_spec env
  rw [hok, hok']
  refine .ok ((List.perm_ext_iff_of_nodup hnodup hnodup').mpr fun ring => ?_)
  rw [hmem, hmem', h.rings]

theorem hasPermission (h : Twins c inner inner') {env : Env} (hnow : c ≤ env.now)
    (p : EndpointId) (res : Bytes) (q : Permission) :
    inner.hasPermission env p res q = inner'.hasPermission env p res q := by
  obtain ⟨b, hb⟩ := inner.hasPermission_ok env p res q
  obtain ⟨b', hb'⟩ := inner'.hasPermission_ok env p res q
  have hiff := h.wellFormed.hasPermission_iff env p res q
  have hiff' := h.wellFormed'.hasPermission_iff env p res q
  rw [hb, Except.ok.injEq, h.grants, h.trims.agree env.now hnow] at hiff
  rw [hb', Except.ok.injEq] at hiff'
  rw [hb, hb', Except.ok.injEq, Bool.eq_iff_iff, hiff, hiff']

/-- What the evicted registry has to evict, the other has too. -/
theorem evictExpired (h : Twins c inner inner') (env : Env) (n : SystemTime) :
    Outcome.Rel List.Subset (inner.evictExpired env n).1 (inner'.evictExpired env n).1 := by
  obtain ⟨evicted, hmap, heq⟩ := h.wellFormed.evictExpired_eq env n
  obtain ⟨evicted', hmap', heq'⟩ := h.wellFormed'.evictExpired_eq env n
  rw [heq, heq']
  refine .ok fun m hm => ?_
  have hkey := List.mem_map_of_mem (f := fun m : EvictedMembership =>
    (m.ringName, m.peer.asBytes)) hm
  rw [hmap, Inner.mem_expiredKeys] at hkey
  obtain ⟨t, ht, hle⟩ := hkey
  have hmem := h.wellFormed.expiries _ (Table.mem_iff.mpr ⟨t, ht⟩)
  -- what the evicted registry still holds, the other holds as well
  have hlease := h.trims.within _ _ (Inner.leases_of_mem hmem)
  obtain ⟨-, hsame⟩ := Inner.leases_eq_some.mp hlease
  have hexpired : (m.ringName, m.peer.asBytes) ∈ inner'.expiredKeys env n :=
    Inner.mem_expiredKeys.mpr ⟨t, (congrArg Lease.expiry hsame).symm.trans ht, hle⟩
  rw [← hmap', List.mem_map_of_injective EvictedMembership.id_injective] at hexpired
  exact hexpired

theorem listResourceRings (h : Twins c inner inner') (res : Bytes) :
    inner.listResourceRings res = inner'.listResourceRings res := by
  rw [Inner.listResourceRings, Inner.listResourceRings, h.entries]

/-- A call that writes answers the same, because the rings and the validation
of its arguments are the same. -/
theorem unit_eq (h : Twins c inner inner') (env : Env) :
    (∀ r, (inner.createRing r).1 = (inner'.createRing r).1) ∧
    (∀ r p label expiresAt, (inner.addPeerToRing env r p label expiresAt).1 =
      (inner'.addPeerToRing env r p label expiresAt).1) ∧
    (∀ r p, (inner.removePeerFromRing r p).1 = (inner'.removePeerFromRing r p).1) ∧
    ∀ res r ps, (inner.addRingToResource res r ps).1 = (inner'.addRingToResource res r ps).1 := by
  have hcontains : ∀ r, inner.rings.contains r = inner'.rings.contains r := fun r =>
    Bool.eq_iff_iff.mpr (h.rings r)
  have hget : ∀ r, inner.rings[r]?.isSome = inner'.rings[r]?.isSome := fun r => by
    rw [Std.ExtTreeMap.isSome_getElem?_eq_contains, hcontains,
      Std.ExtTreeMap.isSome_getElem?_eq_contains]
  refine ⟨fun r => ?_, fun r p label expiresAt => ?_, fun r p => ?_, fun res r ps => ?_⟩
  · unfold Inner.createRing
    rw [hcontains]
    cases Ring.new r with
    | error e => rfl
    | ok ring =>
      dsimp only
      cases ring.isOpen <;> cases inner'.rings.contains r <;> rfl
  · have hr := hget r
    unfold Inner.addPeerToRing
    cases hms : inner.rings[r]? <;> cases hms' : inner'.rings[r]? <;> simp_all
  · have hr := hget r
    unfold Inner.removePeerFromRing
    cases hms : inner.rings[r]? <;> cases hms' : inner'.rings[r]? <;> simp_all
  · unfold Inner.addRingToResource
    rw [hcontains]
    cases validateRingPermissions r ps with
    | error e => rfl
    | ok u =>
      dsimp only
      cases inner'.rings.contains r <;> rfl

/-- One call, made by both. -/
theorem call (h : Twins c inner inner') {env : Env} (hnow : c ≤ env.now) (call : Call) :
    (Registry.perform env inner call).1.SameResult (Registry.perform env inner' call).1 ∧
      Twins env.now (Registry.perform env inner call).2 (Registry.perform env inner' call).2 := by
  have hsame : (Registry.perform env inner call).1.SameResult
      (Registry.perform env inner' call).1 := by
    obtain ⟨hcreate, hadd, hremove, hassoc⟩ := h.unit_eq env
    cases call with
    | createRing r => exact .unit (hcreate r)
    | addPeerToRing r p label expiresAt => exact .unit (hadd r p label expiresAt)
    | removePeerFromRing r p => exact .unit (hremove r p)
    | listRingPeers r => exact .members (h.listRingPeers hnow r)
    | listRings => exact .rings (h.listRings env)
    | removeRingFromResource res => exact .unit rfl
    | listResourceRings res => exact .resourceRings (h.listResourceRings res)
    | addRingToResource res r ps => exact .unit (hassoc res r ps)
    | hasPermission p res q => exact .granted (h.hasPermission hnow p res q)
    | evictExpired n => exact .evicted (h.evictExpired env n)
  refine ⟨hsame, ?_⟩
  have hstep := h.wellFormed.step env call
  have hstep' := h.wellFormed'.step env call
  have heffect : Record.effect ⟨env, call, (Registry.perform env inner' call).1⟩ =
      Record.effect ⟨env, call, (Registry.perform env inner call).1⟩ := by
    simp only [Record.effect, hsame.isOk_eq]
  refine ⟨hstep.wellFormed, hstep'.wellFormed, ?_, fun r => ?_, ?_⟩
  · rw [hstep.leases, hstep'.leases, heffect]
    exact Effect.trims (h.trims.mono hnow) fun r p add now he =>
      (Record.clock_of_admitted he).symm.le
  · rw [hstep.rings, hstep'.rings, heffect, h.rings]
  · rw [hstep.entries, hstep'.entries, heffect, h.entries]

/-- An eviction inserted into the first run. -/
theorem inserted (h : Twins c inner inner') {env : Env} {n : SystemTime} (hn : n ≤ c) :
    Twins c (inner.evictExpired env n).2 inner' := by
  obtain ⟨evicted, -, heq⟩ := h.wellFormed.evictExpired_eq env n
  rw [heq]
  refine ⟨h.wellFormed.evictAll _, h.wellFormed', ?_, fun r => ?_, ?_⟩
  · rw [Inner.leases_evictExpired]
    exact h.trims.evict_left hn
  · rw [Inner.mem_evictAll_rings, h.rings]
  · rw [Inner.evictAll_resourceRings, h.entries]

end Twins

/-! ### The two redb registries

Each has an in-memory registry as its shadow, and these are twins. The permission rows
are outside of the shadow, since two associations may share one; but evictions do not
touch them. -/

/-- The tables of the two runs at clock `c`: their shadows are twins, and they
have the same permission rows. -/
def TwinTables (c : SystemTime) (db db' : RedbRegistry) : Prop :=
  db.resourceRingPerms = db'.resourceRingPerms ∧
    ∃ inner inner', Shadows inner db ∧ Shadows inner' db' ∧ Twins c inner inner'

/-- Only a call that reads permissions lists the rings of a resource. -/
theorem readsPermissions_of_perform {σ : Type} [Registry σ] {env : Env} {s : σ} {call : Call}
    {out : Outcome (List (Ring × List Permission))}
    (h : (Registry.perform env s call).1 = .resourceRings out) : call.readsPermissions = true := by
  cases call with
  | listResourceRings res => rfl
  | _ => simp [Registry.perform] at h

/-- redb answers the same wherever the shadows do; their answers about
associations say nothing about permission rows. -/
theorem Answer.SameResult.of_agree {a a' b b' : Answer} (h : a.SameResult a') (ha : a.Agree b)
    (hb : a'.Agree b') (hrows : ∀ out, a ≠ .resourceRings out) : b.SameResult b' := by
  cases h with
  | unit h =>
      cases ha with
      | unit ha =>
          cases hb with
          | unit hb => exact .unit (ha.symm.trans (h.trans hb))
  | members h =>
      cases ha with
      | members ha =>
          cases hb with
          | members hb => exact .members (ha ▸ hb ▸ h)
  | rings h =>
      cases ha with
      | rings ha =>
          cases hb with
          | rings hb =>
              refine .rings ?_
              cases h with
              | error e =>
                  cases ha
                  cases hb
                  exact .error e
              | ok h =>
                  cases ha with
                  | ok ha =>
                      cases hb with
                      | ok hb => exact .ok (ha.symm.trans (h.trans hb))
  | resourceRings h => exact absurd rfl (hrows _)
  | granted h =>
      cases ha with
      | granted ha =>
          cases hb with
          | granted hb => exact .granted (ha.symm.trans (h.trans hb))
  | evicted h =>
      cases ha with
      | evicted ha =>
          cases hb with
          | evicted hb =>
              refine .evicted ?_
              cases h with
              | error e =>
                  cases ha
                  cases hb
                  exact .error e
              | ok h =>
                  cases ha with
                  | ok ha =>
                      cases hb with
                      | ok hb => exact .ok fun m hm => hb.subset (h (ha.symm.subset hm))

namespace TwinTables

variable {c : SystemTime} {db db' : RedbRegistry}

theorem start (c : SystemTime) : TwinTables c (RedbRegistry.openDatabase Database.empty)
    (RedbRegistry.openDatabase Database.empty) :=
  ⟨rfl, _, _, Shadows.fresh, Shadows.fresh, .start c⟩

theorem mono {c' : SystemTime} (h : TwinTables c db db') (hc : c ≤ c') :
    TwinTables c' db db' := by
  obtain ⟨hrows, inner, inner', hs, hs', htwins⟩ := h
  exact ⟨hrows, inner, inner', hs, hs', htwins.mono hc⟩

/-- The same rings are associated, their rows are the same, and the same members
are live. -/
theorem hasPermission (h : TwinTables c db db') {env : Env} (hnow : c ≤ env.now)
    (p : EndpointId) (res : Bytes) (q : Permission) :
    db.hasPermission env p res q = db'.hasPermission env p res q := by
  obtain ⟨hrows, inner, inner', hs, hs', htwins⟩ := h
  obtain ⟨b, hb, hiff⟩ := hs.rep.hasPermission hs.wellFormed (hs.comparable env.now) p res q
  obtain ⟨b', hb', hiff'⟩ :=
    hs'.rep.hasPermission hs'.wellFormed (hs'.comparable env.now) p res q
  have hbits : db.permBits = db'.permBits := by
    funext res r
    rw [RedbRegistry.permBits, RedbRegistry.permBits, hrows]
  rw [htwins.ringNames, hbits, htwins.trims.agree env.now hnow] at hiff
  rw [hb, hb', Except.ok.injEq, Bool.eq_iff_iff, hiff, hiff']

theorem listResourceRings (h : TwinTables c db db') (res : Bytes) :
    db.listResourceRings res = db'.listResourceRings res := by
  obtain ⟨hrows, inner, inner', hs, hs', htwins⟩ := h
  have hperms : db.storedPerms = db'.storedPerms := by
    funext res r
    rw [RedbRegistry.storedPerms, RedbRegistry.storedPerms, hrows]
  rw [RedbRegistry.listResourceRings, RedbRegistry.listResourceRings, hperms,
    hs.rep.ringNames hs.wellFormed, hs'.rep.ringNames hs'.wellFormed, htwins.ringNames]

/-- Where no permission row is read, redb answers as its shadow does. -/
theorem sameResult (h : TwinTables c db db') {env : Env} (hnow : c ≤ env.now) (call : Call) :
    (Registry.perform env db call).1.SameResult (Registry.perform env db' call).1 := by
  have hshadow : call.readsPermissions = false →
      (Registry.perform env db call).1.SameResult (Registry.perform env db' call).1 := by
    intro hreads
    obtain ⟨-, inner, inner', hs, hs', htwins⟩ := h
    -- the shadows take the clamped call
    have hreads' : call.clamp.readsPermissions = false := by
      cases call <;> first | rfl | cases hreads
    have htime : ∀ {inner db}, Shadows inner db → TimeOk inner env call.clamp :=
      fun hs => ⟨hs.comparable _, fun n _ => hs.comparable n⟩
    have ha := (hs.rep.step hs.wellFormed (htime hs)).answer hreads'
    have hb := (hs'.rep.step hs'.wellFormed (htime hs')).answer hreads'
    rw [perform_clamp] at ha hb
    refine (htwins.call hnow call.clamp).1.of_agree ha hb fun out hout => ?_
    rw [readsPermissions_of_perform hout] at hreads'
    cases hreads'
  cases call with
  | hasPermission p res q => exact .granted (h.hasPermission hnow p res q)
  | listResourceRings res => exact .resourceRings (h.listResourceRings res)
  | _ => exact hshadow rfl

/-- One call, made by both. -/
theorem call (h : TwinTables c db db') {env : Env} (hnow : c ≤ env.now) (call : Call) :
    (Registry.perform env db call).1.SameResult (Registry.perform env db' call).1 ∧
      TwinTables env.now (Registry.perform env db call).2
        (Registry.perform env db' call).2 := by
  have hsame := h.sameResult hnow call
  obtain ⟨hrows, inner, inner', hs, hs', htwins⟩ := h
  have hstep := hs.step env call
  have hstep' := hs'.step env call
  refine ⟨hsame, ?_, _, _, hstep.shadows, hstep'.shadows, (htwins.call hnow call.clamp).2⟩
  rw [hstep.rows, hstep'.rows, hrows, htwins.ringNames]
  simp only [Record.effect, hsame.isOk_eq]

/-- An eviction inserted into the first run. -/
theorem inserted (h : TwinTables c db db') {env : Env} {n : SystemTime} (hn : n ≤ c) :
    TwinTables c (db.evictExpired env n).2 db' := by
  obtain ⟨hrows, inner, inner', hs, hs', htwins⟩ := h
  have hstep := hs.step env (.evictExpired n)
  refine ⟨?_, _, _, hstep.shadows, hs', htwins.inserted hn⟩
  refine Eq.trans hstep.rows ?_
  rw [Record.onRows_eq (.evictExpired n) nofun nofun, hrows]

/-- Closing and opening both databases changes neither. -/
theorem reopen (h : TwinTables c db db') : TwinTables c (RedbRegistry.openDatabase db.close)
    (RedbRegistry.openDatabase db'.close) := by
  obtain ⟨-, inner, inner', hs, hs', -⟩ := id h
  rw [hs.reopen, hs'.reopen]
  exact h

end TwinTables

/-! ### The two runs

Both backends bring a relation that calls, insertions and reopening keep; the induction
over the marks is done once, for any such relation. -/

/-- A relation between the states of the two runs, at a clock, that calls,
insertions and reopening keep. -/
structure TwinRelation (σ : Type) [Backend σ] where
  rel : SystemTime → σ → σ → Prop
  start : ∀ c, rel c Backend.fresh Backend.fresh
  mono : ∀ {c c' s s'}, rel c s s' → c ≤ c' → rel c' s s'
  call : ∀ {c s s'} {env : Env} (call : Call), rel c s s' → c ≤ env.now →
    (Registry.perform env s call).1.SameResult (Registry.perform env s' call).1 ∧
      rel env.now (Registry.perform env s call).2 (Registry.perform env s' call).2
  inserted : ∀ {c s s'} {env : Env} {n : SystemTime}, rel c s s' → n ≤ c →
    rel c (Registry.evictExpired env s n).2 s'
  reopen : ∀ {c s s'}, rel c s s' → rel c (Backend.reopen s) (Backend.reopen s')

/-- The in-memory registries of the two runs. -/
def TwinRelation.memory : TwinRelation Inner where
  rel := Twins
  start := .start
  mono h hc := h.mono hc
  call call h hnow := h.call hnow call
  inserted h hn := h.inserted hn
  reopen h := h

/-- The redb registries of the two runs. -/
def TwinRelation.redb : TwinRelation RedbRegistry where
  rel := TwinTables
  start := .start
  mono h hc := h.mono hc
  call call h hnow := h.call hnow call
  inserted h hn := h.inserted hn
  reopen h := h.reopen

/-- The clock never goes back, and an inserted eviction is for an instant the
clock has reached. -/
structure Timely (c : SystemTime) (marks : List Mark) : Prop where
  clocks : (c :: marks.filterMap Mark.clock).Pairwise (· ≤ ·)
  inserted : ∀ env n, .inserted env n ∈ marks → n ≤ env.now

/-- The rest of a timely run is timely, from the clock the first mark shows. -/
theorem Timely.tail {c : SystemTime} {mark : Mark} {marks : List Mark}
    (h : Timely c (mark :: marks)) :
    c ≤ mark.clock.getD c ∧ Timely (mark.clock.getD c) marks := by
  have hclocks := h.clocks
  have hrest : ∀ env n, .inserted env n ∈ marks → n ≤ env.now := fun env n hn =>
    h.inserted env n (List.mem_cons_of_mem _ hn)
  cases hclock : mark.clock with
  | none =>
      rw [List.filterMap_cons_none hclock] at hclocks
      exact ⟨le_rfl, hclocks, hrest⟩
  | some c' =>
      rw [List.filterMap_cons_some hclock] at hclocks
      obtain ⟨hle, htail⟩ := List.pairwise_cons.mp hclocks
      exact ⟨hle c' List.mem_cons_self, htail, hrest⟩

namespace TwinRelation

variable {σ : Type} [Backend σ] (twin : TwinRelation σ)

/-- One mark: it takes place in the first run, and in the second one unless it
is an insertion. -/
theorem mark {c : SystemTime} {d d' : History × σ} {mark : Mark} {marks : List Mark}
    (h : twin.rel c d.2 d'.2) (hhist : List.Forall₂ Record.SameResult d.1 d'.1)
    (ht : Timely c (mark :: marks)) :
    twin.rel (mark.clock.getD c) (Backend.recordMark d mark).2
        (mark.base.toList.foldl Backend.record d').2 ∧
      List.Forall₂ Record.SameResult (Backend.recordMark d mark).1
        (mark.base.toList.foldl Backend.record d').1 := by
  have hle := ht.tail.1
  cases mark with
  | own e =>
      cases e with
      | reopen => exact ⟨twin.reopen h, hhist⟩
      | call env call =>
          obtain ⟨hsame, hrel⟩ := twin.call call h hle
          exact ⟨hrel, .cons ⟨rfl, rfl, hsame⟩ hhist⟩
  | inserted env n =>
      exact ⟨twin.inserted (twin.mono h hle) (ht.inserted env n List.mem_cons_self), hhist⟩

/-- The whole run, from related states. -/
theorem run {c : SystemTime} {d d' : History × σ} {marks : List Mark}
    (h : twin.rel c d.2 d'.2) (hhist : List.Forall₂ Record.SameResult d.1 d'.1)
    (ht : Timely c marks) :
    List.Forall₂ Record.SameResult (marks.foldl Backend.recordMark d).1
      ((marks.filterMap Mark.base).foldl Backend.record d').1 := by
  induction marks generalizing c d d' with
  | nil => exact hhist
  | cons mark marks ih =>
      obtain ⟨hrel, hhist'⟩ := twin.mark h hhist ht
      have hsplit : (mark :: marks).filterMap Mark.base =
          mark.base.toList ++ marks.filterMap Mark.base := by
        cases mark <;> rfl
      rw [List.foldl_cons, hsplit, List.foldl_append]
      exact ih hrel hhist' ht.tail.2

end TwinRelation

/-- **Eviction is unobservable**: in a run whose clock never goes back, evictions
inserted anywhere, for instants the clock has reached, change no result of the
other calls. -/
theorem eviction_unobservable (marks : List Mark)
    (hclock : (marks.filterMap Mark.clock).Pairwise (· ≤ ·))
    (hinserted : ∀ env n, .inserted env n ∈ marks → n ≤ env.now) :
    List.Forall₂ Record.SameResult (Backend.runMarks Inner marks).1
        (Backend.run Inner (marks.filterMap Mark.base)).1 ∧
      List.Forall₂ Record.SameResult (Backend.runMarks RedbRegistry marks).1
        (Backend.run RedbRegistry (marks.filterMap Mark.base)).1 := by
  have ht : Timely SystemTime.earliest marks :=
    ⟨List.pairwise_cons.mpr ⟨fun c _ => SystemTime.earliest_le c, hclock⟩, hinserted⟩
  exact ⟨TwinRelation.memory.run (TwinRelation.memory.start _) .nil ht,
    TwinRelation.redb.run (TwinRelation.redb.start _) .nil ht⟩

/-- A membership lapses and is evicted, by an insertion; then the peer is added again,
and the registry is asked. -/
def lapsedMarks : List (@Mark EndpointKeys.basePoint) :=
  letI := EndpointKeys.basePoint
  [.own (.call (.after 0) (.createRing "team")),
    .own (.call (.after 0) (.addRingToResource [0x61] "team" [.read])),
    .own (.call (.after 1) (.addPeerToRing "team" .basePoint (some "laptop")
      (some (.afterEpoch 10)))),
    .inserted (.after 20) (.afterEpoch 15),
    .own (.call (.after 21) (.addPeerToRing "team" .basePoint none (some (.afterEpoch 40)))),
    .own (.call (.after 30) (.listRingPeers "team")),
    .own (.call (.after 30) (.hasPermission .basePoint [0x61] .read))]

omit [EndpointKeys] in
set_option maxRecDepth 10000 in
/-- The insertion evicts the peer, and nobody can tell. -/
theorem eviction_unobservable_lapsedMarks :
    letI := EndpointKeys.basePoint
    (Registry.evictExpired (.after 20) (Backend.runMarks RedbRegistry (lapsedMarks.take 3)).2
        (.afterEpoch 15)).1 = .ok [⟨"team", .basePoint⟩] ∧
      List.Forall₂ Record.SameResult (Backend.runMarks RedbRegistry lapsedMarks).1
        (Backend.run RedbRegistry (lapsedMarks.filterMap Mark.base)).1 := by
  let inst := EndpointKeys.basePoint
  refine ⟨rfl, (eviction_unobservable lapsedMarks ?_ ?_).2⟩
  · decide +kernel
  · intro env n hmark
    simp only [lapsedMarks, List.mem_cons, reduceCtorEq, Mark.inserted.injEq, false_or,
      List.not_mem_nil, or_false] at hmark
    obtain ⟨rfl, rfl⟩ := hmark
    decide +kernel

end IrohRings
