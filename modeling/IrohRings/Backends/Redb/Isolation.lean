import IrohRings.Backends.OpenRing

/-!
# IrohRings.Backends.Redb.Isolation

Associations share one flat table of permission rows, so whether they are isolated
from each other is a question about `permKey`. Its length prefix is the length of the
resource id modulo 65536: two associations have one row exactly when these lengths
agree modulo 65536 and the ids followed by the names spell the same bytes
(`permKey_eq_iff`).

`AddIsolated` and `RemoveIsolated` are what the two writers should leave alone, and
`associations_isolated_iff` says exactly when they do: when the rows they write and
delete are not those of an association that stores something else.
-/

namespace IrohRings

open Foundation

namespace RedbRegistry

/-! ### What the listing and the decision read -/

/-- The resource's listing answers, and has the entry. -/
def Reports (db : RedbRegistry) (res : Bytes) (e : Ring × List Permission) : Prop :=
  ∃ listed, db.listResourceRings res = .ok listed ∧ e ∈ listed

theorem storedPerms_eq (db : RedbRegistry) (res : Bytes) (r : String) :
    db.storedPerms res r = byteToPerms (db.permBits res r) := by
  unfold storedPerms permBits
  cases db.resourceRingPerms[permKey res r]? with
  | none => rfl
  | some bits => rfl

/-- The listing reads the names and the rows of the resource. -/
theorem listResourceRings_of_stored {db db' : RedbRegistry} {res : Bytes}
    (hnames : db'.ringNames res = db.ringNames res)
    (hperms : ∀ r ∈ db.ringNames res, db'.storedPerms res r = db.storedPerms res r) :
    db'.listResourceRings res = db.listResourceRings res := by
  unfold listResourceRings
  rw [hnames]
  generalize db.ringNames res = names at hperms
  induction names with
  | nil => rfl
  | cons r names ih =>
      rw [List.mapM_cons, List.mapM_cons, hperms r (by simp),
        ih fun r' hr' => hperms r' (by simp [hr'])]

variable [EndpointKeys]

/-- The decision reads the names and the rows of the resource too, besides members
and expiries. -/
theorem hasPermission_of_stored {db db' : RedbRegistry} {res : Bytes}
    (hrings : db'.rings = db.rings) (hexpiries : db'.expiries = db.expiries)
    (hnames : db'.ringNames res = db.ringNames res)
    (hperms : ∀ r ∈ db.ringNames res, db'.storedPerms res r = db.storedPerms res r)
    (env : Env) (p : EndpointId) (q : Permission) :
    db'.hasPermission env p res q = db.hasPermission env p res q := by
  rw [Rep.hasPermission_eq_scanNames, Rep.hasPermission_eq_scanNames, hnames]
  generalize db.ringNames res = names at hperms
  induction names with
  | nil => rfl
  | cons r names ih =>
      have hbit : db'.permBits res r &&& permissionBit q = 0 ↔
          db.permBits res r &&& permissionBit q = 0 := by
        rw [← not_iff_not, ← ne_eq, ← ne_eq, ← mem_storedPerms_iff, ← mem_storedPerms_iff,
          hperms r (by simp)]
      rw [scanNames, scanNames, hrings, hexpiries, ih fun r' hr' => hperms r' (by simp [hr'])]
      simp only [hbit]

/-! ### Isolation -/

/-- A successful `addRingToResource` leaves what is reported of every other
association, and every decision about another resource. -/
def AddIsolated (db : RedbRegistry) (res : Bytes) (r : String) (perms : List Permission) :
    Prop :=
  (db.addRingToResource res r perms).1 = .ok () →
    (∀ a e, ¬ (a = res ∧ e.1.name = r) →
      ((db.addRingToResource res r perms).2.Reports a e ↔ db.Reports a e)) ∧
    ∀ a, a ≠ res → ∀ env p q,
      (db.addRingToResource res r perms).2.hasPermission env p a q = db.hasPermission env p a q

/-- `removeRingFromResource` leaves the listing of every other resource, and every
decision about it. -/
def RemoveIsolated (db : RedbRegistry) (res : Bytes) : Prop :=
  ∀ a, a ≠ res →
    (db.removeRingFromResource res).2.listResourceRings a = db.listResourceRings a ∧
    ∀ env p q,
      (db.removeRingFromResource res).2.hasPermission env p a q = db.hasPermission env p a q

/-- No association but the added one has its row, unless the row already says what is
written: the condition under which `addRingToResource` is isolated. -/
def AddKeepsOthers (db : RedbRegistry) (res : Bytes) (r : String) (perms : List Permission) :
    Prop :=
  validateRingPermissions r perms = .ok () → r ∈ db.rings →
    ∀ a s, s ∈ db.ringNames a → permKey a s = permKey res r → ¬ (a = res ∧ s = r) →
      ∀ q, q ∈ db.storedPerms a s ↔ q ∈ perms

/-- No association of another resource has a row of the removed ones, unless the row
says nothing: the condition under which `removeRingFromResource` is isolated. -/
def RemoveKeepsOthers (db : RedbRegistry) (res : Bytes) : Prop :=
  ∀ a s r, a ≠ res → s ∈ db.ringNames a → r ∈ db.ringNames res → permKey a s = permKey res r →
    db.storedPerms a s = []

/-! ### What the writers do to names and rows -/

variable {db : RedbRegistry}

omit [EndpointKeys] in
theorem storedPerms_add {res : Bytes} {r : String} {ps : List Permission}
    (hval : validateRingPermissions r ps = .ok ()) (hr : r ∈ db.rings) (a : Bytes)
    (s : String) :
    (db.addRingToResource res r ps).2.storedPerms a s =
      if permKey a s = permKey res r then byteToPerms (permsToByte ps)
      else db.storedPerms a s := by
  rw [addRingToResource_of hval hr]
  simp only [storedPerms, Table.get_insert]
  split
  · rfl
  · rfl

omit [EndpointKeys] in
theorem ringNames_add_ne {res : Bytes} {r : String} {ps : List Permission}
    (hval : validateRingPermissions r ps = .ok ()) (hr : r ∈ db.rings) {a : Bytes}
    (ha : a ≠ res) : (db.addRingToResource res r ps).2.ringNames a = db.ringNames a := by
  rw [addRingToResource_of hval hr]
  simp only [ringNames, Table.get_insert, if_neg ha]

omit [EndpointKeys] in
theorem storedPerms_remove (db : RedbRegistry) (res a : Bytes) (s : String) :
    (db.removeRingFromResource res).2.storedPerms a s =
      if permKey a s ∈ (db.ringNames res).map (permKey res) then [] else db.storedPerms a s := by
  simp only [removeRingFromResource, commit, storedPerms, Table.get_foldl_erase]
  split
  · rfl
  · rfl

omit [EndpointKeys] in
theorem ringNames_remove_ne (db : RedbRegistry) {res a : Bytes} (ha : a ≠ res) :
    (db.removeRingFromResource res).2.ringNames a = db.ringNames a := by
  simp only [removeRingFromResource, commit, ringNames, Table.get_erase, if_neg ha]

end RedbRegistry

namespace Shadows

open RedbRegistry

variable [EndpointKeys] {inner : Inner} {db : RedbRegistry}

/-- What is reported of a resource: its names, with the permissions of their rows. -/
theorem reports_iff (h : Shadows inner db) {res : Bytes} {e : Ring × List Permission} :
    db.Reports res e ↔
      e.1.name ∈ db.ringNames res ∧ e.2 = db.storedPerms res e.1.name := by
  obtain ⟨listed, hok, hmap⟩ := h.rep.listResourceRings h.wellFormed res
  have hinj : Function.Injective fun e : Ring × List Permission => (e.1.name, e.2) := by
    intro e e' heq
    obtain ⟨hname, hperms⟩ := Prod.mk.inj heq
    exact Prod.ext (Ring.ext hname) hperms
  have hlisted : db.Reports res e ↔ e ∈ listed := by
    constructor
    · intro hex
      obtain ⟨listed', hok', he⟩ := hex
      obtain rfl := Except.ok.inj (hok.symm.trans hok')
      exact he
    · exact fun he => ⟨listed, hok, he⟩
  rw [hlisted, ← List.mem_map_of_injective hinj, hmap, h.rep.ringNames h.wellFormed, List.mem_map]
  refine ⟨fun hex => ?_, fun hand => ?_⟩
  · obtain ⟨r, hr, heq⟩ := hex
    obtain ⟨rfl, hperms⟩ := Prod.mk.inj heq
    exact ⟨hr, hperms.symm⟩
  · exact ⟨e.1.name, hand.1, Prod.ext rfl hand.2.symm⟩

/-- A ring that a resource is associated with is reported. -/
theorem exists_reports (h : Shadows inner db) {res : Bytes} {r : String}
    (hr : r ∈ db.ringNames res) :
    ∃ ring : Ring, ring.name = r ∧ db.Reports res (ring, db.storedPerms res r) := by
  have hvalid : ValidName r :=
    h.wellFormed.validName_ringNames (h.rep.ringNames h.wellFormed res ▸ hr)
  exact ⟨⟨r, hvalid⟩, rfl, h.reports_iff.mpr ⟨hr, rfl⟩⟩

/-- `addRingToResource` associates the ring with the resource, and no other pair. -/
theorem mem_ringNames_add (h : Shadows inner db) {res : Bytes} {r : String}
    {ps : List Permission} (hval : validateRingPermissions r ps = .ok ()) (hr : r ∈ db.rings)
    {a : Bytes} {s : String} :
    s ∈ (db.addRingToResource res r ps).2.ringNames a ↔
      (a = res ∧ s = r) ∨ s ∈ db.ringNames a := by
  have hok : (db.addRingToResource res r ps).1 = .ok () :=
    addRingToResource_eq_ok.mpr ⟨hval, hr⟩
  have hstep := h.step Env.atEpoch (.addRingToResource res r ps)
  have heffect : (Record.clamp ⟨Env.atEpoch, .addRingToResource res r ps,
      (Registry.perform Env.atEpoch db (.addRingToResource res r ps)).1⟩).effect =
      .associated res r ps := by
    rw [Record.effect_clamp]
    show (Record.effect ⟨_, _, .unit (db.addRingToResource res r ps).1⟩).clamp = _
    rw [hok]
    rfl
  -- the shadow's grants gain the one association
  have hgrants := hstep.shadow.grants
  rw [heffect, Effect.onGrants] at hgrants
  have hnames : (db.addRingToResource res r ps).2.ringNames a = _ :=
    hstep.shadows.rep.ringNames hstep.shadows.wellFormed a
  rw [hnames, Inner.mem_ringNames, hgrants, h.rep.ringNames h.wellFormed, Inner.mem_ringNames,
    update_grants]
  split
  · rename_i hand
    exact iff_of_true ⟨ps, rfl⟩ (.inl hand)
  · rename_i hand
    exact (or_iff_right hand).symm

/-- The database after a call has a shadow too. -/
theorem exists_shadow (h : Shadows inner db) (c : Call) :
    ∃ inner', Shadows inner' (Registry.perform Env.atEpoch db c).2 :=
  ⟨_, (h.step Env.atEpoch c).shadows⟩

/-! ### When the writers are isolated -/

/-- **Adding is isolated exactly when the row it writes is no other association's**, or
says the same already. -/
theorem addIsolated_iff (h : Shadows inner db) (res : Bytes) (r : String)
    (ps : List Permission) : db.AddIsolated res r ps ↔ db.AddKeepsOthers res r ps := by
  obtain ⟨inner', hafter⟩ := h.exists_shadow (.addRingToResource res r ps)
  change Shadows inner' (db.addRingToResource res r ps).2 at hafter
  refine ⟨fun hiso hval hr a s hs hkey hne q => ?_, fun hkeep hok => ?_⟩
  · obtain ⟨hreports, -⟩ := hiso (addRingToResource_eq_ok.mpr ⟨hval, hr⟩)
    obtain ⟨ring, rfl, hreport⟩ := h.exists_reports hs
    obtain ⟨-, hsame⟩ := hafter.reports_iff.mp ((hreports a _ hne).mpr hreport)
    dsimp only at hsame
    rw [storedPerms_add hval hr, if_pos hkey] at hsame
    rw [hsame, mem_byteToPerms_permsToByte]
  · obtain ⟨hval, hr⟩ := addRingToResource_eq_ok.mp hok
    have hperms : ∀ a s, s ∈ db.ringNames a → ¬ (a = res ∧ s = r) →
        (db.addRingToResource res r ps).2.storedPerms a s = db.storedPerms a s := by
      intro a s hs hne
      rw [storedPerms_add hval hr]
      split
      · rename_i hkey
        rw [storedPerms_eq]
        refine byteToPerms_congr fun q => ?_
        rw [mem_byteToPerms_permsToByte, ← storedPerms_eq]
        exact (hkeep hval hr a s hs hkey hne q).symm
      · rfl
    refine ⟨fun a e hne => ?_, fun a ha env p q => ?_⟩
    · rw [hafter.reports_iff, h.reports_iff, h.mem_ringNames_add hval hr, or_iff_right hne]
      exact and_congr_right fun hs => by rw [hperms a _ hs hne]
    · refine hasPermission_of_stored ?_ ?_ (ringNames_add_ne hval hr ha)
        (fun s hs => hperms a s hs fun hand => ha hand.1) env p q
      · rw [addRingToResource_of hval hr]
      · rw [addRingToResource_of hval hr]

/-- **Removing is isolated exactly when it deletes no row that another resource's
association still has.** -/
theorem removeIsolated_iff (h : Shadows inner db) (res : Bytes) :
    db.RemoveIsolated res ↔ db.RemoveKeepsOthers res := by
  obtain ⟨inner', hafter⟩ := h.exists_shadow (.removeRingFromResource res)
  change Shadows inner' (db.removeRingFromResource res).2 at hafter
  refine ⟨fun hiso a s r ha hs hr hkey => ?_, fun hkeep a ha => ?_⟩
  · obtain ⟨hlisting, -⟩ := hiso a ha
    obtain ⟨ring, rfl, listed, hok, hmem⟩ := h.exists_reports hs
    obtain ⟨-, hsame⟩ := hafter.reports_iff.mp ⟨listed, hlisting.trans hok, hmem⟩
    dsimp only at hsame
    rw [storedPerms_remove, if_pos (List.mem_map.mpr ⟨r, hr, hkey.symm⟩)] at hsame
    exact hsame
  · have hperms : ∀ s ∈ db.ringNames a,
        (db.removeRingFromResource res).2.storedPerms a s = db.storedPerms a s := by
      intro s hs
      rw [storedPerms_remove]
      split
      · rename_i hkey
        obtain ⟨r, hr, hsame⟩ := List.mem_map.mp hkey
        exact (hkeep a s r ha hs hr hsame.symm).symm
      · rfl
    have hnames := ringNames_remove_ne db ha
    have hrings : (db.removeRingFromResource res).2.rings = db.rings := rfl
    have hexpiries : (db.removeRingFromResource res).2.expiries = db.expiries := rfl
    exact ⟨listResourceRings_of_stored hnames hperms,
      hasPermission_of_stored hrings hexpiries hnames hperms⟩

end Shadows

/-- **Isolation of associations in redb**, in every state a run reaches: the two writers
leave every other association alone exactly when the rows they write and delete are
not the rows of associations that store something else. -/
theorem associations_isolated_iff [EndpointKeys] (events : List Event) :
    (∀ res r perms, (Backend.run RedbRegistry events).2.AddIsolated res r perms ↔
      (Backend.run RedbRegistry events).2.AddKeepsOthers res r perms) ∧
    ∀ res, (Backend.run RedbRegistry events).2.RemoveIsolated res ↔
      (Backend.run RedbRegistry events).2.RemoveKeepsOthers res := by
  obtain ⟨inner, h⟩ := shadow_run events
  exact ⟨h.shadows.addIsolated_iff, h.shadows.removeIsolated_iff⟩

/-- With ids that a `u16` can count, associations are isolated. -/
theorem isolated_of_short [EndpointKeys] (events : List Event) (hid : ∀ e ∈ events, e.ShortId) :
    (∀ res r perms, res.length < 65536 →
      (Backend.run RedbRegistry events).2.AddIsolated res r perms) ∧
    ∀ res, (Backend.run RedbRegistry events).2.RemoveIsolated res := by
  obtain ⟨inner, h, hperms⟩ := shadow_run_perms events hid
  have hrep := h.shadows.rep
  have hwf := h.shadows.wellFormed
  have hshort : ∀ res r, r ∈ (Backend.run RedbRegistry events).2.ringNames res →
      res.length < 65536 := by
    intro res r hr
    rw [hrep.ringNames hwf, Inner.mem_ringNames] at hr
    obtain ⟨ps, hps⟩ := hr
    exact hperms.short res r ps hps
  refine ⟨fun res r perms hres => ?_, fun res => ?_⟩
  · refine (h.shadows.addIsolated_iff res r perms).mpr fun _ _ a s hs hkey hne => ?_
    exact absurd (permKey_injective (hshort a s hs) hres hkey) hne
  · refine (h.shadows.removeIsolated_iff res).mpr fun a s r ha hs hr hkey => ?_
    exact absurd (permKey_injective (hshort a s hs) (hshort res r hr) hkey).1 ha

/-- **An association overwrites another one's permissions**: with the open ring
associated with the long id for reading, adding the long name to the empty id for
writing makes the listing of the long id say `Write`. -/
theorem not_addIsolated_openedRun :
    ¬ @RedbRegistry.AddIsolated EndpointKeys.basePoint
      (@Backend.run EndpointKeys.basePoint RedbRegistry _
        (@openedRun EndpointKeys.basePoint 65536)).2 [] (longName 65536) [.write] := by
  let _ := EndpointKeys.basePoint
  obtain ⟨hring, hnames, hperms⟩ := run_openedRun (n := 65536) (by decide)
  obtain ⟨inner, h⟩ := shadow_run (openedRun 65536)
  have hval : validateRingPermissions (longName 65536) [.write] = .ok () :=
    validateRingPermissions_eq_ok.mpr
      ⟨by simp, fun heq => absurd heq (longName_ne_open (by decide))⟩
  intro hiso
  have hsame := (h.shadows.addIsolated_iff [] _ _).mp hiso hval hring (longId 65536) openRingName
    (by rw [hnames]; exact List.mem_singleton_self _) (permKey_longId rfl)
    (fun hand => longId_ne_nil (by decide) hand.1) .write
  rw [hperms] at hsame
  exact absurd (hsame.mpr (by decide)) (by decide)

end IrohRings
