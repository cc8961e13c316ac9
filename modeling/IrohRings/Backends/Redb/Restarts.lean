import IrohRings.Foundation.Restart
import IrohRings.Backends.Redb.Opening

/-!
# IrohRings.Backends.Redb.Restarts

`RedbRegistry::open` as a program that can be cut off: the bootstrap transaction,
reading the version, and the migration steps, each of which commits by itself.
The rows that `v1ToV2` copies are read in a transaction of their own, before the
one that writes them and deletes the table they came from.

Attempts that are cut off do not matter (`opening_restartable`): whatever content
one leaves behind, opening it gives what opening the file would have given.
-/

namespace IrohRings

open Foundation

/-! ### The program -/

/-- What `open` does next, and what it remembers of its reads. -/
inductive OpenPc
  | bootstrap
  | readVersion
  | v0ToV1 (version : UInt32)
  | readNicknames (version : UInt32)
  | copyNicknames (version : UInt32) (rows : List (Bytes × String))
  | v2ToV3 (version : UInt32)
  | done

/-- One transaction, or one branch. -/
def openStep : OpenPc × Database → OpenPc × Database
  | (.bootstrap, file) => (.readVersion, file.bootstrap)
  | (.readVersion, file) =>
    if currentVersion ≤ file.readVersion then (.done, file)
    else (.v0ToV1 file.readVersion, file)
  | (.v0ToV1 version, file) =>
    (.readNicknames version, if version < 1 then file.v0ToV1 else file)
  | (.readNicknames version, file) =>
    if version < 2 then (.copyNicknames version file.nicknameRows, file)
    else (.v2ToV3 version, file)
  | (.copyNicknames version rows, file) => (.v2ToV3 version, file.copyNicknames rows)
  | (.v2ToV3 version, file) => (.done, if version < 3 then file.v2ToV3 else file)
  | (.done, file) => (.done, file)

/-- `RedbRegistry::open` on the file. -/
def opening : Restartable OpenPc Database := ⟨.bootstrap, openStep⟩

/-! ### Attempts -/

/-- Where an attempt to open `file` can be. -/
inductive OpenAt (file : Database) : OpenPc × Database → Prop
  | bootstrap : OpenAt file (.bootstrap, file)
  | readVersion : OpenAt file (.readVersion, file.bootstrap)
  | v0ToV1 (h : ¬ currentVersion ≤ file.readVersion) :
      OpenAt file (.v0ToV1 file.readVersion, file.bootstrap)
  | readNicknames (h : ¬ currentVersion ≤ file.readVersion) :
      OpenAt file (.readNicknames file.readVersion, file.backfilled)
  | copyNicknames (h : file.readVersion < 2) :
      OpenAt file (.copyNicknames file.readVersion file.backfilled.nicknameRows,
        file.backfilled)
  | v2ToV3 (h : ¬ currentVersion ≤ file.readVersion) :
      OpenAt file (.v2ToV3 file.readVersion, file.renamed)
  | done : OpenAt file (.done, file.opened)

/-- Each step goes from one of these places to the next. -/
theorem OpenAt.step {file : Database} {s : OpenPc × Database} (h : OpenAt file s) :
    OpenAt file (openStep s) := by
  have hpending : ∀ {v : UInt32}, ¬ currentVersion ≤ v ↔ v < 3 := fun {v} => UInt32.not_le
  cases h with
  | bootstrap => exact .readVersion
  | readVersion =>
      rw [openStep, Database.readVersion_bootstrap]
      split
      · rename_i h
        have := @OpenAt.done file
        rwa [Database.opened_eq, if_pos h] at this
      · rename_i h
        exact .v0ToV1 h
  | v0ToV1 h => exact .readNicknames h
  | readNicknames h =>
      rw [openStep]
      split
      · rename_i hlow
        exact .copyNicknames hlow
      · rename_i hhigh
        have := OpenAt.v2ToV3 h
        rwa [Database.renamed, if_neg hhigh] at this
  | copyNicknames h =>
      have := OpenAt.v2ToV3 (not_current_of_lt_two h)
      rwa [Database.renamed, if_pos h] at this
  | v2ToV3 h =>
      rw [openStep, if_pos (hpending.mp h)]
      have := @OpenAt.done file
      rwa [Database.opened_eq, if_neg h] at this
  | done => exact .done

theorem openAt_after (file : Database) (n : Nat) : OpenAt file (opening.after file n) :=
  opening.invariant_after (OpenAt file) (fun _ h => h.step) .bootstrap n

/-- Opening what an attempt left behind gives what opening the file gives. -/
theorem OpenAt.opened_eq {file : Database} {s : OpenPc × Database} (h : OpenAt file s) :
    s.2.opened = file.opened := by
  cases h with
  | bootstrap => rfl
  | readVersion | v0ToV1 => exact file.opened_bootstrap
  | readNicknames h => exact Database.opened_backfilled h
  | copyNicknames h => exact Database.opened_backfilled (not_current_of_lt_two h)
  | v2ToV3 h => exact Database.opened_renamed h
  | done => exact file.opened_opened

/-- The version only grows during an attempt. -/
theorem OpenAt.version_le {file : Database} {s : OpenPc × Database} (h : OpenAt file s) :
    file.readVersion ≤ s.2.readVersion := by
  have hbackfilled : file.readVersion ≤ file.backfilled.readVersion := by
    rw [Database.readVersion_backfilled]
    split
    · rename_i h
      exact UInt32.le_of_lt h
    · exact UInt32.le_refl _
  cases h with
  | bootstrap | readVersion | v0ToV1 => exact UInt32.le_refl _
  | readNicknames | copyNicknames => exact hbackfilled
  | v2ToV3 =>
      rw [Database.readVersion_renamed]
      split
      · rename_i h
        exact UInt32.le_of_lt h
      · exact UInt32.le_refl _
  | done =>
      rw [Database.readVersion_opened]
      split
      · exact UInt32.le_refl _
      · rename_i h
        exact UInt32.le_of_lt (UInt32.not_le.mp h)

/-- At the current version an attempt does no more than bootstrap the file. -/
theorem OpenAt.eq_of_current {file : Database} {s : OpenPc × Database} (h : OpenAt file s)
    (hversion : currentVersion ≤ file.readVersion) : s.2 = file ∨ s.2 = file.bootstrap := by
  cases h with
  | bootstrap => exact .inl rfl
  | readVersion => exact .inr rfl
  | v0ToV1 h | readNicknames h | v2ToV3 h => exact absurd hversion h
  | copyNicknames h => exact absurd hversion (not_current_of_lt_two h)
  | done => exact .inr (by rw [Database.opened_eq, if_pos hversion])

/-- The nicknames of `file` are still where they were, or the labels hold them
and the step that writes labels is over. -/
def KeepsNicknames (file file' : Database) : Prop :=
  file'.nicknames = file.nicknames ∨
    (¬ file'.readVersion < 2 ∧ ∀ (key : Bytes) (value : String),
      (openTable file.nicknames)[key]? = some value →
        (openTable file'.labels)[key]? = some value)

/-- An attempt loses no nickname. -/
theorem OpenAt.keepsNicknames {file file' : Database} {s : OpenPc × Database}
    (h : OpenAt file' s) (hkeeps : KeepsNicknames file file') : KeepsNicknames file s.2 := by
  have hlow : ∀ {v : UInt32}, file'.readVersion ≤ v → ¬ file'.readVersion < 2 → ¬ v < 2 := by
    intro v
    simp only [UInt32.lt_iff_toNat_lt, UInt32.le_iff_toNat_le, UInt32.toNat_ofNat]
    omega
  have hversion := hlow h.version_le
  -- the labels change only if the version was low, which is before the copy
  have hsame : s.2.nicknames = file'.nicknames →
      (∀ key : Bytes, (openTable s.2.labels)[key]? = (openTable file'.labels)[key]?) →
      KeepsNicknames file s.2 := by
    intro hnick hlabels
    rcases hkeeps with hkeeps | ⟨hhigh, hkeeps⟩
    · exact .inl (hnick.trans hkeeps)
    · exact .inr ⟨hversion hhigh, fun key value hrow => by rw [hlabels, hkeeps key value hrow]⟩
  have hrenamed : s.2.nicknames = file'.renamed.nicknames →
      (∀ key : Bytes, (openTable s.2.labels)[key]? = (openTable file'.renamed.labels)[key]?) →
      (file'.readVersion < 2 → ¬ s.2.readVersion < 2) → KeepsNicknames file s.2 := by
    intro hnick hlabels hcopied
    by_cases hcopy : file'.readVersion < 2
    · rcases hkeeps with hkeeps | ⟨hhigh, -⟩
      · refine .inr ⟨hcopied hcopy, fun key value hrow => ?_⟩
        rw [hlabels, Database.labels_renamed, if_pos hcopy, hkeeps, hrow]
        rfl
      · exact absurd hcopy hhigh
    · refine hsame (hnick.trans ?_) fun key => (hlabels key).trans ?_
      · rw [Database.nicknames_renamed, if_neg hcopy]
      · rw [Database.labels_renamed, if_neg hcopy]
  cases h with
  | bootstrap | readVersion | v0ToV1 => exact hsame rfl fun _ => rfl
  | readNicknames | copyNicknames =>
      exact hsame file'.nicknames_backfilled fun key => by rw [file'.labels_backfilled]
  | v2ToV3 =>
      refine hrenamed rfl (fun _ => rfl) fun hcopy => ?_
      rw [Database.readVersion_renamed, if_pos hcopy]
      decide
  | done =>
      by_cases hcurrent : currentVersion ≤ file'.readVersion
      · have hopened : file'.opened = file'.bootstrap := by
          rw [Database.opened_eq, if_pos hcurrent]
        exact hsame (by rw [hopened]; rfl) fun _ => by rw [hopened]; rfl
      · have hopened : file'.opened = file'.renamed.v2ToV3 := by
          rw [Database.opened_eq, if_neg hcurrent]
        refine hrenamed (by rw [hopened]; rfl) (fun _ => by rw [hopened]; rfl) fun _ => ?_
        rw [Database.readVersion_opened, if_neg hcurrent]
        decide

/-! ### Attempts, one after the other -/

/-- The attempt gets to its end. -/
def Completes (file : Database) (n : Nat) : Prop := (opening.after file n).1 = .done

theorem attempt_of_completes {file : Database} {n : Nat} (h : Completes file n) :
    opening.attempt file n = file.opened := by
  have hat := openAt_after file n
  unfold Completes at h
  unfold Restartable.attempt
  generalize opening.after file n = s at h hat
  cases hat with
  | done => rfl
  | _ => cases h

/-- An attempt is never further from its end than this. -/
def OpenPc.left : OpenPc → Nat
  | .bootstrap => 6
  | .readVersion => 5
  | .v0ToV1 _ => 4
  | .readNicknames _ => 3
  | .copyNicknames _ _ => 2
  | .v2ToV3 _ => 1
  | .done => 0

theorem left_openStep (s : OpenPc × Database) : (openStep s).1.left ≤ s.1.left - 1 := by
  obtain ⟨pc, file⟩ := s
  cases pc with
  | readVersion | readNicknames => rw [openStep]; split <;> simp [OpenPc.left]
  | _ => exact Nat.le_refl _

theorem left_after (file : Database) (n : Nat) : (opening.after file n).1.left ≤ 6 - n := by
  induction n with
  | zero => exact Nat.le_refl _
  | succ n ih =>
      rw [opening.after_succ]
      exact (left_openStep _).trans (by omega)

/-- Six steps are enough. -/
theorem completes_of_le {file : Database} {n : Nat} (h : 6 ≤ n) : Completes file n := by
  have hleft := left_after file n
  unfold Completes
  generalize (opening.after file n).1 = pc at hleft
  cases pc with
  | done => rfl
  | _ => simp only [OpenPc.left] at hleft; omega

/-- At the current version attempts do no more than bootstrap the file. -/
theorem attempts_of_current {file : Database} (hversion : currentVersion ≤ file.readVersion)
    (cuts : List Nat) :
    opening.attempts file cuts = file ∨ opening.attempts file cuts = file.bootstrap := by
  refine opening.invariant_attempts (fun file' => file' = file ∨ file' = file.bootstrap) ?_
    (.inl rfl) cuts
  intro file' n heq
  rcases heq with rfl | rfl
  · exact (openAt_after _ n).eq_of_current hversion
  · -- a file that was bootstrapped before stays as it is
    rw [← file.readVersion_bootstrap] at hversion
    obtain heq | heq := (openAt_after _ n).eq_of_current hversion
    · exact .inr heq
    · exact .inr (heq.trans file.bootstrapped_bootstrap.bootstrap_eq)

theorem attempts_of_bootstrapped {file : Database} (hboot : file.Bootstrapped)
    (hversion : currentVersion ≤ file.readVersion) (cuts : List Nat) :
    opening.attempts file cuts = file :=
  (attempts_of_current hversion cuts).elim id fun heq => heq.trans hboot.bootstrap_eq

/-- **Opening can be cut off anywhere, any number of times.** The attempt that
completes leaves what an uninterrupted one would have, and no later attempt
changes that; on the way the version only grows and no nickname is lost; and at
the current version nothing changes, but that the tables are created that the file
does not have. -/
theorem opening_restartable (file : Database) (cuts : List Nat) :
    (∀ n, Completes (opening.attempts file cuts) n →
      opening.attempt (opening.attempts file cuts) n =
        (RedbRegistry.openDatabase file).close) ∧
    (∀ n, 6 ≤ n → Completes (opening.attempts file cuts) n) ∧
    (∀ n cuts', Completes (opening.attempts file cuts) n →
      opening.attempts (opening.attempt (opening.attempts file cuts) n) cuts' =
        opening.attempt (opening.attempts file cuts) n) ∧
    (∀ cuts', (opening.attempts file cuts).readVersion ≤
      (opening.attempts file (cuts ++ cuts')).readVersion) ∧
    (∀ (key : Bytes) (value : String), (openTable file.nicknames)[key]? = some value →
      (openTable (opening.attempts file cuts).nicknames)[key]? = some value ∨
        (openTable (opening.attempts file cuts).labels)[key]? = some value) ∧
    (currentVersion ≤ file.readVersion →
      opening.attempts file cuts = file ∨ opening.attempts file cuts = file.bootstrap) ∧
    (file.Bootstrapped → currentVersion ≤ file.readVersion →
      opening.attempts file cuts = file) := by
  refine ⟨fun n hn => ?_, fun n => completes_of_le, fun n cuts' hn => ?_, fun cuts' => ?_,
    fun key value hrow => ?_, fun hversion => attempts_of_current hversion cuts,
    fun hboot hversion => attempts_of_bootstrapped hboot hversion cuts⟩
  · rw [attempt_of_completes hn, close_openDatabase]
    exact opening.invariant_attempts (fun file' => file'.opened = file.opened)
      (fun file' n h => (openAt_after file' n).opened_eq.trans h) rfl cuts
  · rw [attempt_of_completes hn]
    exact attempts_of_bootstrapped (Database.bootstrapped _).2.2 (Database.current_opened _) cuts'
  · rw [opening.attempts_append]
    exact opening.invariant_attempts
      (fun file' => (opening.attempts file cuts).readVersion ≤ file'.readVersion)
      (fun file' n h => UInt32.le_trans h (openAt_after file' n).version_le)
      (UInt32.le_refl _) cuts'
  · have hkeeps := opening.invariant_attempts (KeepsNicknames file)
      (fun file' n h => (openAt_after file' n).keepsNicknames h) (.inl rfl) cuts
    rcases hkeeps with hkeeps | ⟨-, hkeeps⟩
    · exact .inl (hkeeps ▸ hrow)
    · exact .inr (hkeeps key value hrow)

/-- **A file can be at the current version and be changed all the same**: one that was only
migrated, and never bootstrapped, has no `RINGS` yet. -/
theorem opening_changes_migrated :
    currentVersion ≤ Database.empty.migrate.readVersion ∧
      Completes Database.empty.migrate 6 ∧
      opening.attempt Database.empty.migrate 6 ≠ Database.empty.migrate := by
  have hversion : Database.empty.migrate.readVersion = currentVersion := by decide +kernel
  refine ⟨hversion ▸ UInt32.le_refl _, completes_of_le le_rfl, ?_⟩
  intro heq
  rw [attempt_of_completes (completes_of_le le_rfl), Database.opened_eq,
    if_pos (hversion ▸ UInt32.le_refl _)] at heq
  have hrings : Database.empty.migrate.rings = none := rfl
  have hboot : Database.empty.migrate.bootstrap.rings = none := heq ▸ hrings
  cases hboot

end IrohRings
