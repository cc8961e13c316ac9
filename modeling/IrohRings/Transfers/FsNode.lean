import IrohRings.Transfers.FsReads
import IrohRings.Transfers.FsTasks

/-!
# IrohRings.Transfers.FsNode

Who a node with an `FsTransfer` lets in. The walk over the tags takes its time, and
what it meets is what there is when it gets there; so it is told by moments of the run,
each no earlier than the one before.

A stream of such a node shows a status byte only for a ruling so told
(`fs_node_answers`), and with either backend each answer of the registry in it is the
one that the history of the registry gives (`fs_node_follows_history`). A peer that was
a member when the tag was listed, and no longer is when its collection is asked about,
does not get in through it; nor does a collection count that was deleted in between.
-/

namespace IrohRings

open Foundation

theorem FsStore.tags_of_ok {store : FsStore} {items : List (Except AnyError TagInfo)}
    (h : store.listTags = .ok items) : store.tags = okPrefix items := by
  rw [tags, h]

theorem FsStore.tags_of_error {store : FsStore} {e : AnyError} (h : store.listTags = .error e) :
    store.tags = [] := by
  rw [tags, h]

variable [EndpointKeys] {σ : Type} [Backend σ]

/-! ### Rulings

`Since i es from_ before env` says that the `i`-th task had a turn after the events
`before`, which come after `from_`. What is granted is a parameter: the registry's own
answer (`registryGrants`), or what the history says (`historyGrants`). -/

section Rulings

variable (hashSeq : Bytes → Except AnyError (List Hash)) (grants : Grants σ fsBacking)
  (s : Tasks σ fsBacking) (i : Nat) (es : List (NodeEvent fsBacking))

/-- What the tasks share, at a moment of a run. -/
def fsHost (before : List (NodeEvent fsBacking)) : Host σ fsBacking :=
  (((fsCode hashSeq).node σ).run s before).shared

/-- The store has a collection under the hash, with the blob in it. -/
def FsStore.Holds (store : FsStore) (hash collection : Hash) : Prop :=
  FsCode.Holds hashSeq hash (store.getBytes collection)

/-- The tag is one of a collection that the peer could read, at a moment since `from_`,
and that had the blob in it, at a moment since then. -/
def CollectsSince (from_ : List (NodeEvent fsBacking)) (peer : EndpointId) (hash : Hash)
    (info : TagInfo) : Prop :=
  info.format = .hashSeq ∧
    ∃ asked env, Since i es from_ asked env ∧
      grants (fsHost hashSeq s asked) env peer info.hash.toList .read ∧
      ∃ loaded env', Since i es asked loaded env' ∧
        (fsHost hashSeq s loaded).world.Holds hashSeq hash info.hash

/-- At some moment since `from_` it was not: the tag is no collection, or the peer could
not read it, or the store had no collection with the blob in it. -/
def LacksSince (from_ : List (NodeEvent fsBacking)) (peer : EndpointId) (hash : Hash)
    (info : TagInfo) : Prop :=
  info.format = .hashSeq → ∃ moment env, Since i es from_ moment env ∧
    (¬ grants (fsHost hashSeq s moment) env peer info.hash.toList .read ∨
      ¬ (fsHost hashSeq s moment).world.Holds hashSeq hash info.hash)

/-- **How `FsTransfer` decides**, since the gate asked it: it gives access to who can
read the resource, or a collection with it that had a tag. A refusal takes that the
peer could not read the resource, and that every tag listed then lacked something. -/
inductive FsDecides (from_ : List (NodeEvent fsBacking)) (peer : EndpointId) (id : Bytes) :
    Bool → Prop
  | read {asked : List (NodeEvent fsBacking)} {env : Env} (hasked : Since i es from_ asked env)
    (hgrants : grants (fsHost hashSeq s asked) env peer id .read) : FsDecides from_ peer id true
  | collection {asked listed : List (NodeEvent fsBacking)} {env env' : Env} {hash : Hash}
    {info : TagInfo} (hasked : Since i es from_ asked env)
    (hgrants : ¬ grants (fsHost hashSeq s asked) env peer id .read) (hid : id = hash.toList)
    (hlisted : Since i es asked listed env') (htag : info ∈ (fsHost hashSeq s listed).world.tags)
    (hcollects : CollectsSince hashSeq grants s i es listed peer hash info) :
    FsDecides from_ peer id true
  | refuse {asked : List (NodeEvent fsBacking)} {env : Env} (hasked : Since i es from_ asked env)
    (hgrants : ¬ grants (fsHost hashSeq s asked) env peer id .read)
    (hlacks : ∀ hash : Hash, id = hash.toList → ∃ listed env', Since i es asked listed env' ∧
      ∀ info ∈ (fsHost hashSeq s listed).world.tags,
        LacksSince hashSeq grants s i es listed peer hash info) : FsDecides from_ peer id false

/-- A ruling of a gate with an `FsTransfer`: the request was there, the registry was asked
about it, and either it is granted at that moment, or it is not and the transfer
decides. -/
def FsRuled (peer : EndpointId) (id : Bytes) (q : Permission) (granted : Bool) : Prop :=
  ∃ before env after out, ((fsCode hashSeq).node σ).Moment i s es
      ⟨.hasPermission peer id q, out⟩ before env after ∧
    (∃ job rest, (((fsCode hashSeq).node σ).run s before).jobs[i]? = some job ∧
      Requests job.locals.arrived id q rest) ∧
    (grants (fsHost hashSeq s before) env peer id q ∧ granted = true ∨
      ¬ grants (fsHost hashSeq s before) env peer id q ∧
        FsDecides hashSeq grants s i es before peer id granted)

end Rulings

/-! ### From turns to moments

What a task did is a list of turns, latest first, and each turn is a moment of the run
(`exists_since`). Going through the turns of a walk from the oldest on, the
moments follow each other as the turns do: `old` are the turns so far, and `from_` a
moment at which the task had taken no more than them. -/

section Moments

variable {hashSeq : Bytes → Except AnyError (List Hash)} {s : Tasks σ fsBacking} {i : Nat}
  {es from_ : List (NodeEvent fsBacking)} {peer : EndpointId}
  {later old : List (Turn (Asks fsBacking))}

/-- The registry was asked at some moment, and its answer was its answer then. -/
theorem exists_asked {id : Bytes} {q : Permission} {out : Outcome Bool}
    (hturns : ((fsCode hashSeq).node σ).turns i s es =
      later ++ ⟨.hasPermission peer id q, out⟩ :: old)
    (hfrom : from_ <+: es) (hold : ((fsCode hashSeq).node σ).turns i s from_ <:+ old) :
    ∃ asked env, Since i es from_ asked env ∧ ((fsCode hashSeq).node σ).turns i s asked = old ∧
      (registryGrants (fsHost hashSeq s asked) env peer id q ↔ out = .ok true) := by
  obtain ⟨asked, env, after, hmoment, hthen, hsince⟩ := exists_since hturns hfrom hold
  refine ⟨asked, env, hsince, hthen, ?_⟩
  unfold registryGrants
  rw [show Registry.hasPermission env (fsHost hashSeq s asked).registry.2 peer id q = out from
    hasPermission_of_moment hmoment]

/-- So was the store, for a blob, and it gave what it had then. -/
theorem exists_loaded {hash : Hash} {out : Except AnyError Bytes}
    (hturns : ((fsCode hashSeq).node σ).turns i s es = later ++ ⟨.own (.getBytes hash), out⟩ :: old)
    (hfrom : from_ <+: es) (hold : ((fsCode hashSeq).node σ).turns i s from_ <:+ old) :
    ∃ loaded env, Since i es from_ loaded env ∧
      ∀ blob, (fsHost hashSeq s loaded).world.Holds hashSeq blob hash ↔
        FsCode.Holds hashSeq blob out := by
  obtain ⟨loaded, env, after, hmoment, -, hsince⟩ := exists_since hturns hfrom hold
  obtain ⟨send, rfl⟩ := own_of_moment hmoment
  exact ⟨loaded, env, hsince, fun _ => Iff.rfl⟩

/-- And for its tags. -/
theorem exists_listed {out : Except AnyError (List (Except AnyError TagInfo))}
    (hturns : ((fsCode hashSeq).node σ).turns i s es = later ++ ⟨.own .listTags, out⟩ :: old)
    (hfrom : from_ <+: es) (hold : ((fsCode hashSeq).node σ).turns i s from_ <:+ old) :
    ∃ listed env, Since i es from_ listed env ∧ ((fsCode hashSeq).node σ).turns i s listed = old ∧
      (fsHost hashSeq s listed).world.listTags = out := by
  obtain ⟨listed, env, after, hmoment, hthen, hsince⟩ := exists_since hturns hfrom hold
  obtain ⟨send, rfl⟩ := own_of_moment hmoment
  exact ⟨listed, env, hsince, hthen, rfl⟩

/-- A moment since another is one of the run. -/
theorem Since.within {before : List (NodeEvent fsBacking)} {env : Env}
    (h : Since i es from_ before env) : before <+: es := by
  obtain ⟨-, after, rfl⟩ := h
  exact List.prefix_append ..

/-- A walk over tags finds a collection, or each tag lacked something on the way. -/
theorem since_of_walk {hash : Hash} {items : List (Except AnyError TagInfo)} {found : Bool}
    {w : List (Turn (Asks fsBacking))} (hwalk : FsCode.Walk hashSeq peer hash items found w)
    (hturns : ((fsCode hashSeq).node σ).turns i s es = later ++ (w ++ old))
    (hfrom : from_ <+: es) (hold : ((fsCode hashSeq).node σ).turns i s from_ <:+ old) :
    (found = true → ∃ info ∈ okPrefix items,
      CollectsSince hashSeq registryGrants s i es from_ peer hash info) ∧
    (found = false → ∀ info ∈ okPrefix items,
      LacksSince hashSeq registryGrants s i es from_ peer hash info) := by
  -- the induction is on the walk; each step moves `old` past the turns about one tag
  induction hwalk generalizing old with
  | finished hend =>
      rw [hend]
      exact ⟨fun hfound => absurd hfound Bool.false_ne_true,
        fun _ _ hinfo => absurd hinfo List.not_mem_nil⟩
  | raw hformat h ih =>
      obtain ⟨hcollects, hlacks⟩ := ih hturns hold
      refine ⟨fun hfound => ?_, fun hfound => ?_⟩
      · obtain ⟨info, hinfo, hsince⟩ := hcollects hfound
        exact ⟨info, List.mem_cons_of_mem _ hinfo, hsince⟩
      · exact List.forall_mem_cons.mpr ⟨fun h => absurd h hformat, hlacks hfound⟩
  | denied hout h ih =>
      rw [List.append_assoc] at hturns
      obtain ⟨hcollects, hlacks⟩ := ih hturns (hold.trans (List.suffix_cons ..))
      refine ⟨fun hfound => ?_, fun hfound => ?_⟩
      · obtain ⟨info, hinfo, hsince⟩ := hcollects hfound
        exact ⟨info, List.mem_cons_of_mem _ hinfo, hsince⟩
      · refine List.forall_mem_cons.mpr ⟨fun _ => ?_, hlacks hfound⟩
        rw [List.singleton_append, ← List.append_assoc] at hturns
        obtain ⟨asked, env, hasked, -, hgrants⟩ := exists_asked hturns hfrom hold
        exact ⟨asked, env, hasked, .inl (mt hgrants.mp hout)⟩
  | lacking hout h ih =>
      rw [List.append_assoc] at hturns
      obtain ⟨hcollects, hlacks⟩ := ih hturns
        ((hold.trans (List.suffix_cons ..)).trans (List.suffix_cons ..))
      refine ⟨fun hfound => ?_, fun hfound => ?_⟩
      · obtain ⟨info, hinfo, hsince⟩ := hcollects hfound
        exact ⟨info, List.mem_cons_of_mem _ hinfo, hsince⟩
      · refine List.forall_mem_cons.mpr ⟨fun _ => ?_, hlacks hfound⟩
        rw [List.cons_append, List.singleton_append, ← List.append_assoc] at hturns
        obtain ⟨loaded, env, hloaded, hholds⟩ := exists_loaded hturns hfrom
          (hold.trans (List.suffix_cons ..))
        exact ⟨loaded, env, hloaded, .inr (mt (hholds hash).mp hout)⟩
  | @found info items out hformat hout =>
      -- two turns, the second no earlier than the first
      refine ⟨fun _ => ⟨info, List.mem_cons_self, hformat, ?_⟩,
        fun hfound => absurd hfound.symm Bool.false_ne_true⟩
      have hread : ((fsCode hashSeq).node σ).turns i s es =
          (later ++ [⟨.own (.getBytes info.hash), out⟩]) ++
            ⟨.hasPermission peer info.hash.toList .read, .ok true⟩ :: old := by
        rw [hturns]
        simp
      obtain ⟨asked, env, hasked, hthen, hgrants⟩ := exists_asked hread hfrom hold
      obtain ⟨loaded, env', hloaded, hholds⟩ := exists_loaded hturns hasked.within
        (hthen ▸ List.suffix_cons ..)
      exact ⟨asked, env, hasked, hgrants.mpr rfl, loaded, env', hloaded, (hholds hash).mpr hout⟩

/-- **From the turns of `canAccess` to moments of the run.** -/
theorem decides_of_access {id : Bytes} {granted : Bool} {acc : List (Turn (Asks fsBacking))}
    (haccess : FsCode.Access hashSeq peer id granted acc)
    (hturns : ((fsCode hashSeq).node σ).turns i s es = later ++ (acc ++ old))
    (hfrom : from_ <+: es) (hold : ((fsCode hashSeq).node σ).turns i s from_ <:+ old) :
    FsDecides hashSeq registryGrants s i es from_ peer id granted := by
  cases haccess with
  | read =>
      obtain ⟨asked, env, hasked, -, hgrants⟩ := exists_asked hturns hfrom hold
      exact .read hasked (hgrants.mpr rfl)
  | noHash hout hid =>
      -- an id that is no hash is in no collection
      obtain ⟨asked, env, hasked, -, hgrants⟩ := exists_asked hturns hfrom hold
      refine .refuse hasked (mt hgrants.mp hout) fun hash hhash => ?_
      cases hid.symm.trans (hashOfId_eq_some.mpr hhash)
  | @noTags out e hout =>
      -- a store that cannot list its tags has none to go through
      have hread : ((fsCode hashSeq).node σ).turns i s es =
          (later ++ [⟨.own .listTags, .error e⟩]) ++
            ⟨.hasPermission peer id .read, out⟩ :: old := by
        rw [hturns]
        simp
      obtain ⟨asked, env, hasked, hthen, hgrants⟩ := exists_asked hread hfrom hold
      obtain ⟨listed, env', hlisted, -, htags⟩ := exists_listed hturns hasked.within
        (hthen ▸ List.suffix_cons ..)
      refine .refuse hasked (mt hgrants.mp hout) fun hash hhash => ⟨listed, env', hlisted, ?_⟩
      rw [FsStore.tags_of_error htags]
      nofun
  | @walk out hash items granted w hout hid hwalk =>
      -- the turns split at the registry's answer, at the list of tags, and before the walk
      have hread : ((fsCode hashSeq).node σ).turns i s es =
          (later ++ (w ++ [⟨.own .listTags, .ok items⟩])) ++
            ⟨.hasPermission peer id .read, out⟩ :: old := by
        rw [hturns]
        simp
      have hlist : ((fsCode hashSeq).node σ).turns i s es =
          (later ++ w) ++ ⟨.own .listTags, .ok items⟩ ::
            ⟨.hasPermission peer id .read, out⟩ :: old := by
        rw [hturns]
        simp
      have hwalked : ((fsCode hashSeq).node σ).turns i s es =
          later ++ (w ++ ⟨.own .listTags, .ok items⟩ ::
            ⟨.hasPermission peer id .read, out⟩ :: old) := by
        rw [hturns]
        simp
      obtain ⟨asked, env, hasked, hthen, hgrants⟩ := exists_asked hread hfrom hold
      obtain ⟨listed, env', hlisted, hthen', htags⟩ := exists_listed hlist hasked.within
        (hthen ▸ List.suffix_cons ..)
      obtain ⟨hcollects, hlacks⟩ := since_of_walk hwalk hwalked hlisted.within
        (hthen' ▸ List.suffix_cons ..)
      have htagged := FsStore.tags_of_ok htags
      have hnot := mt hgrants.mp hout
      have hidHash := hashOfId_eq_some.mp hid
      cases granted with
      | true =>
          obtain ⟨info, hinfo, hsince⟩ := hcollects rfl
          exact .collection hasked hnot hidHash hlisted (htagged ▸ hinfo) hsince
      | false =>
          refine .refuse hasked hnot fun hash' hhash' => ⟨listed, env', hlisted, ?_⟩
          obtain rfl : hash = hash' := Vector.toList_inj.mp (hidHash.symm.trans hhash')
          exact htagged ▸ hlacks rfl

/-- **What a node with an `FsTransfer` answers**: a stream shows a status byte only for
a ruling of the run on what was requested on it. -/
theorem fs_node_answers (registry : History × σ) (store : FsStore)
    (es : List (NodeEvent fsBacking)) {i : Nat} {job : Job (Asks fsBacking) GateFault Unit Desk}
    (hjob : (((fsCode hashSeq).node σ).run (Tasks.start registry store) es).jobs[i]? = some job) :
    Answers (FsRuled hashSeq registryGrants (Tasks.start registry store) i es) job.locals := by
  refine (node_answers (fsCode hashSeq) registry store es hjob).mono fun id q granted hruled => ?_
  obtain ⟨before, env, after, hes, hrequest, ⟨out, hmoment⟩, hverdict⟩ := hruled
  refine ⟨before, env, after, out, hes ▸ hmoment, hrequest, hverdict.imp_right fun hasked => ?_⟩
  obtain ⟨hnot, out, acc, later, hacc, hturns⟩ := hasked
  exact ⟨hnot, decides_of_access (FsCode.access_of_reaches hacc) (hes ▸ hturns)
    (hes ▸ List.prefix_append ..) (List.suffix_cons ..)⟩

end Moments

/-! ### The history of the registry

Where the registry and its history agree about every peer at every moment of a task, a
ruling told by the one is a ruling told by the other. With memory they agree in every
run; with redb, if the clocks are past the epoch and the ids are short. -/

section Histories

variable {hashSeq : Bytes → Except AnyError (List Hash)} {grants grants' : Grants σ fsBacking}
  {s : Tasks σ fsBacking} {i : Nat} {es from_ : List (NodeEvent fsBacking)} {peer : EndpointId}

/-- Two views of what is granted agree whenever a task asks. -/
def Agree (hashSeq : Bytes → Except AnyError (List Hash)) (grants grants' : Grants σ fsBacking)
    (s : Tasks σ fsBacking) (i : Nat) (es : List (NodeEvent fsBacking)) : Prop :=
  ∀ from_ before env, Since i es from_ before env → ∀ peer id q,
    grants (fsHost hashSeq s before) env peer id q ↔
      grants' (fsHost hashSeq s before) env peer id q

/-- A collection that counted in the one view counts in the other. -/
theorem CollectsSince.mono (hagree : Agree hashSeq grants grants' s i es) {hash : Hash}
    {info : TagInfo} (h : CollectsSince hashSeq grants s i es from_ peer hash info) :
    CollectsSince hashSeq grants' s i es from_ peer hash info := by
  obtain ⟨hformat, asked, env, hasked, hgrants, hloaded⟩ := h
  exact ⟨hformat, asked, env, hasked, (hagree _ _ _ hasked _ _ _).mp hgrants, hloaded⟩

theorem LacksSince.mono (hagree : Agree hashSeq grants grants' s i es) {hash : Hash}
    {info : TagInfo} (h : LacksSince hashSeq grants s i es from_ peer hash info) :
    LacksSince hashSeq grants' s i es from_ peer hash info := by
  intro hformat
  obtain ⟨moment, env, hmoment, hlacks⟩ := h hformat
  exact ⟨moment, env, hmoment, hlacks.imp_left (mt (hagree _ _ _ hmoment _ _ _).mpr)⟩

/-- The transfer decides the same, by the same tags. -/
theorem FsDecides.mono (hagree : Agree hashSeq grants grants' s i es) {id : Bytes}
    {granted : Bool} (h : FsDecides hashSeq grants s i es from_ peer id granted) :
    FsDecides hashSeq grants' s i es from_ peer id granted := by
  cases h with
  | read hasked hgrants => exact .read hasked ((hagree _ _ _ hasked _ _ _).mp hgrants)
  | collection hasked hgrants hid hlisted htag hcollects =>
      exact .collection hasked (mt (hagree _ _ _ hasked _ _ _).mpr hgrants) hid hlisted htag
        (hcollects.mono hagree)
  | refuse hasked hgrants hlacks =>
      refine .refuse hasked (mt (hagree _ _ _ hasked _ _ _).mpr hgrants) fun hash hhash => ?_
      obtain ⟨listed, env, hlisted, htags⟩ := hlacks hash hhash
      exact ⟨listed, env, hlisted, fun info hinfo => (htags info hinfo).mono hagree⟩

theorem FsRuled.mono (hagree : Agree hashSeq grants grants' s i es) {id : Bytes} {q : Permission}
    {granted : Bool} (h : FsRuled hashSeq grants s i es peer id q granted) :
    FsRuled hashSeq grants' s i es peer id q granted := by
  obtain ⟨before, env, after, out, hmoment, hrequest, hverdict⟩ := h
  refine ⟨before, env, after, out, hmoment, hrequest, ?_⟩
  rw [← hagree [] _ _ ⟨List.nil_prefix, after, hmoment.split⟩]
  exact hverdict.imp_right fun ⟨hnot, hdecides⟩ => ⟨hnot, hdecides.mono hagree⟩

/-- **`FsTransfer` follows the history**: with either backend, and whatever was done to it
before the node was started, a stream shows a status byte only for a ruling in which each
answer about the peer is what the calls made by then say. -/
theorem fs_node_follows_history (hashSeq : Bytes → Except AnyError (List Hash))
    (events : List Event) (store : FsStore) (es : List (NodeEvent fsBacking)) (i : Nat) :
    (∀ job, (((fsCode hashSeq).node Inner).run
        (Tasks.start (Backend.run Inner events) store) es).jobs[i]? = some job →
      Answers (FsRuled hashSeq historyGrants (Tasks.start (Backend.run Inner events) store) i es)
        job.locals) ∧
    ((∀ e ∈ events, e.AfterEpoch ∧ e.ShortId) → (∀ e ∈ es, NodeEvent.Recorded e) →
      ∀ job, (((fsCode hashSeq).node RedbRegistry).run
          (Tasks.start (Backend.run RedbRegistry events) store) es).jobs[i]? = some job →
        Answers (FsRuled hashSeq historyGrants
          (Tasks.start (Backend.run RedbRegistry events) store) i es) job.locals) := by
  constructor
  · intro job hjob
    refine (fs_node_answers _ store es hjob).mono fun id q granted hruled => hruled.mono ?_
    exact fun from_ before env _ => memory_grants (fsCode hashSeq) events store before env
  · intro hevents hes job hjob
    refine (fs_node_answers _ store es hjob).mono fun id q granted hruled => hruled.mono ?_
    intro from_ before env hsince
    obtain ⟨-, after, rfl⟩ := hsince
    exact redb_grants (fsCode hashSeq) hevents store (fun e he => hes e (List.mem_append_left _ he))
      ((hes (.turn i env) (by simp)).2 []).1

theorem recorded_albumEvents (peer : EndpointId) :
    ∀ e ∈ albumEvents peer, e.AfterEpoch ∧ e.ShortId := by
  simp only [albumEvents, List.forall_mem_cons]
  exact ⟨⟨le_rfl, trivial⟩, ⟨le_rfl, (by decide : albumHash.toList.length < 2 ^ 16)⟩,
    ⟨le_rfl, trivial⟩, fun _ he => absurd he List.not_mem_nil⟩

set_option maxRecDepth 10000 in
omit [EndpointKeys] in
/-- The photo is let out through the album, which the team may read. -/
theorem fs_node_follows_history_album :
    letI := EndpointKeys.basePoint
    let start :=
      Tasks.start (Backend.run RedbRegistry (albumEvents EndpointId.basePoint)) albumStore
    let es : List (NodeEvent fsBacking) :=
      System.upTo (sampleSchedule EndpointId.basePoint photoRequest) 15
    ∃ job, (((fsCode albumStore.hashSeq).node RedbRegistry).run start es).jobs[0]? = some job ∧
      job.locals.exchange.send.written = [Status.allowed.toByte] ∧
      Answers (FsRuled albumStore.hashSeq historyGrants start 0 es) job.locals := by
  let inst := EndpointKeys.basePoint
  have hallowed : ((((fsCode albumStore.hashSeq).node RedbRegistry).run (Tasks.start
      (Backend.run RedbRegistry (albumEvents EndpointId.basePoint)) albumStore)
      (System.upTo (sampleSchedule EndpointId.basePoint photoRequest) 15)).jobs[0]?).any
        fun job => job.locals.exchange.send.written = [Status.allowed.toByte] := by
    decide +kernel
  obtain ⟨job, hjob, hwritten⟩ := (Option.any_eq_true _ _).mp hallowed
  exact ⟨job, hjob, of_decide_eq_true hwritten, (fs_node_follows_history albumStore.hashSeq
    (albumEvents EndpointId.basePoint) albumStore _ 0).2 (recorded_albumEvents _)
    recorded_sampleSchedule job hjob⟩

end Histories

end IrohRings
