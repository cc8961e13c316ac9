import Mathlib.Data.List.Induction
import IrohRings.Foundation.Runs

/-!
# IrohRings.Foundation.Transactions

**An object that many users share.** Each operation is one transaction: it is called, a
moment is read off a clock, the transaction begins on the state committed by then, and
when it is through its answer is returned. In between, others may do the same, or all of
it may crash. How transactions wait for each other is a parameter (`Locking`); all that is
asked of it is that writers exclude writers.

Every operation takes effect at one moment, between its call and its return: a write when
it commits, a read when it begins. The `log` lists the operations in that order. At every
moment the object is what the log leads to (`Consistent`), and an operation that came back
has been logged exactly once since its call (`Since`).
-/

namespace Foundation

/-- What an operation does to an object: it may be decided by its arguments alone. -/
inductive Access
  | free
  | read
  | write
  deriving DecidableEq

/-- An object: what its operations answer and leave behind at a moment. A write may be
given up, depending on its answer. -/
structure Service (K σ Op Res : Type*) where
  perform : K → σ → Op → Res × σ
  access : Op → Access
  aborts : Res → Bool
  recover : σ → σ
  reads_keep : ∀ k s op, access op ≠ .write → (perform k s op).2 = s
  aborts_keep : ∀ k s op, aborts (perform k s op).1 = true → (perform k s op).2 = s

/-- Whether a transaction waits for one that is under way. -/
structure Locking where
  waits : Access → Access → Bool
  writers : waits .write .write = true

namespace Locking

/-- A lock that readers share. -/
def shared : Locking where
  waits
    | .read, .write | .write, .read | .write, .write => true
    | _, _ => false
  writers := rfl

/-- Readers work on a snapshot; only writers wait for writers. -/
def snapshots : Locking where
  waits
    | .write, .write => true
    | _, _ => false
  writers := rfl

end Locking

/-- How far a user is with an operation. -/
inductive Phase (K σ Op Res : Type*)
  | idle
  | called (op : Op)
  | clocked (op : Op) (k : K)
  /-- The transaction is under way, on a copy of what was committed when it began. -/
  | inside (op : Op) (k : K) (copy : σ)
  | done (op : Op) (res : Res)

/-- What a user can do next. -/
inductive Move (K Op : Type*)
  | call (op : Op)
  | clock (k : K)
  | start
  | finish
  | respond

/-- An operation that has taken effect, or a crash. -/
inductive Entry (K Op Res : Type*)
  | op (user : Nat) (k : K) (op : Op) (res : Res)
  | crash

/-- The object, what has happened to it, **latest first**, and its users. -/
structure Shared (K σ Op Res : Type*) where
  committed : σ
  log : List (Entry K Op Res)
  users : List (Phase K σ Op Res)

/-- What can happen. -/
inductive Action (K Op : Type*)
  | user (i : Nat) (m : Move K Op)
  | crash

variable {K σ Op Res : Type*}

/-- The operation was the user's. -/
def Entry.isBy (i : Nat) : Entry K Op Res → Bool
  | op user _ _ _ => user = i
  | crash => false

namespace Service

variable (svc : Service K σ Op Res) (lock : Locking)

/-- A transaction under way keeps the operation from starting. -/
def blocks (op : Op) : Phase K σ Op Res → Bool
  | .inside op' _ _ => lock.waits (svc.access op) (svc.access op')
  | _ => false

/-- How far a move takes the user, what is committed then, and what is logged of it. -/
def move (busy : Op → Bool) (i : Nat) (s : σ) : Phase K σ Op Res → Move K Op →
    Option (Phase K σ Op Res × σ × List (Entry K Op Res))
  | .idle, .call op => some (.called op, s, [])
  | .called op, .clock k => some (.clocked op k, s, [])
  | .clocked op k, .start =>
    if busy op then none
    else if svc.access op = .write then some (.inside op k s, s, [])
    else some (.inside op k s, s, [.op i k op (svc.perform k s op).1])
  | .inside op k copy, .finish =>
    let (res, after) := svc.perform k copy op
    if svc.access op = .write then
      some (.done op res, if svc.aborts res then s else after, [.op i k op res])
    else some (.done op res, s, [])
  | .done _ _, .respond => some (.idle, s, [])
  | _, _ => none

/-- Let one thing happen, if it can. -/
def step (s : Shared K σ Op Res) : Action K Op → Shared K σ Op Res
  | .user i m =>
    match s.users[i]? with
    | some phase =>
      match svc.move (fun op => s.users.any (svc.blocks lock op)) i s.committed phase m with
      | some (phase', committed, logged) =>
        ⟨committed, logged ++ s.log, s.users.set i phase'⟩
      | none => s
    | none => s
  | .crash => ⟨svc.recover s.committed, .crash :: s.log, s.users.map fun _ => .idle⟩

/-- The object with `n` users who have not called anything. -/
def start (init : σ) (n : Nat) : Shared K σ Op Res := ⟨init, [], List.replicate n .idle⟩

def run (s : Shared K σ Op Res) (as : List (Action K Op)) : Shared K σ Op Res :=
  as.foldl (svc.step lock) s

/-- Where a log leads. -/
def replay (init : σ) : List (Entry K Op Res) → σ
  | [] => init
  | .op _ k op _ :: log => (svc.perform k (replay init log) op).2
  | .crash :: log => svc.recover (replay init log)

/-- Each operation was answered as the log before it leads to. -/
def Answered (init : σ) : List (Entry K Op Res) → Prop
  | [] => True
  | .op _ k op res :: log => (svc.perform k (svc.replay init log) op).1 = res ∧ Answered init log
  | .crash :: log => Answered init log

variable {svc lock} {s : Shared K σ Op Res} {busy : Op → Bool} {i : Nat}

@[simp] theorem run_nil : svc.run lock s [] = s := rfl

@[simp] theorem run_append (as as' : List (Action K Op)) :
    svc.run lock s (as ++ as') = svc.run lock (svc.run lock s as) as' := List.foldl_append

@[simp] theorem run_singleton (a : Action K Op) : svc.run lock s [a] = svc.step lock s a := rfl

/-! ### What a move does -/

/-- The moves there are. -/
inductive Moved (svc : Service K σ Op Res) (busy : Op → Bool) (i : Nat) (s : σ) :
    Phase K σ Op Res → Move K Op → Phase K σ Op Res → σ → List (Entry K Op Res) → Prop
  | call (op : Op) : Moved svc busy i s .idle (.call op) (.called op) s []
  | clock (op : Op) (k : K) : Moved svc busy i s (.called op) (.clock k) (.clocked op k) s []
  | begin (op : Op) (k : K) (hwrites : svc.access op = .write) (hfree : busy op = false) :
      Moved svc busy i s (.clocked op k) .start (.inside op k s) s []
  | look (op : Op) (k : K) (hreads : svc.access op ≠ .write) :
      Moved svc busy i s (.clocked op k) .start (.inside op k s) s
        [.op i k op (svc.perform k s op).1]
  | commit (op : Op) (k : K) (copy : σ) (hwrites : svc.access op = .write) :
      Moved svc busy i s (.inside op k copy) .finish (.done op (svc.perform k copy op).1)
        (if svc.aborts (svc.perform k copy op).1 then s else (svc.perform k copy op).2)
        [.op i k op (svc.perform k copy op).1]
  | leave (op : Op) (k : K) (copy : σ) (hreads : svc.access op ≠ .write) :
      Moved svc busy i s (.inside op k copy) .finish (.done op (svc.perform k copy op).1) s []
  | respond (op : Op) (res : Res) : Moved svc busy i s (.done op res) .respond .idle s []

theorem moved_of_move {c c' : σ} {phase phase' : Phase K σ Op Res} {m : Move K Op}
    {logged : List (Entry K Op Res)}
    (h : svc.move busy i c phase m = some (phase', c', logged)) :
    Moved svc busy i c phase m phase' c' logged := by
  unfold move at h
  split at h
  · cases h
    exact .call _
  · cases h
    exact .clock _ _
  · split at h
    · cases h
    · rename_i op k hfree
      split at h
      · rename_i hwrites
        cases h
        exact .begin op k hwrites (by simpa using hfree)
      · rename_i hreads
        cases h
        exact .look op k hreads
  · dsimp only at h
    split at h
    · rename_i hwrites
      cases h
      exact .commit _ _ _ hwrites
    · rename_i hreads
      cases h
      exact .leave _ _ _ hreads
  · cases h
    exact .respond _ _
  · cases h

/-- Either nothing happens, or a user moves, or all of it crashes. -/
inductive Stepped (svc : Service K σ Op Res) (lock : Locking) (s : Shared K σ Op Res) :
    Action K Op → Shared K σ Op Res → Prop
  | stuck (a : Action K Op) : Stepped svc lock s a s
  | moved {i : Nat} {m : Move K Op} {phase phase' : Phase K σ Op Res} {c : σ}
      {logged : List (Entry K Op Res)} (hphase : s.users[i]? = some phase)
      (hmoved : Moved svc (fun op => s.users.any (svc.blocks lock op)) i s.committed phase m
        phase' c logged) :
      Stepped svc lock s (.user i m) ⟨c, logged ++ s.log, s.users.set i phase'⟩
  | crash : Stepped svc lock s .crash
      ⟨svc.recover s.committed, .crash :: s.log, s.users.map fun _ => .idle⟩

variable (svc lock) in
theorem stepped (s : Shared K σ Op Res) (a : Action K Op) :
    Stepped svc lock s a (svc.step lock s a) := by
  cases a with
  | crash => exact .crash
  | user i m =>
      unfold step
      dsimp only
      split
      · rename_i phase hphase
        split
        · rename_i phase' c logged hmove
          exact .moved hphase (moved_of_move hmove)
        · exact .stuck _
      · exact .stuck _

/-- Where a user is after a user moved. -/
theorem users_set {phase phase' : Phase K σ Op Res} {j : Nat}
    (h : (s.users.set i phase')[j]? = some phase) :
    j = i ∧ phase = phase' ∨ j ≠ i ∧ s.users[j]? = some phase := by
  by_cases hj : j = i
  · subst hj
    rw [List.getElem?_set_self'] at h
    obtain ⟨_, _, heq⟩ := Option.map_eq_some_iff.mp h
    exact .inl ⟨rfl, heq.symm⟩
  · rw [List.getElem?_set_ne (Ne.symm hj)] at h
    exact .inr ⟨hj, h⟩

/-! ### The object is what its log leads to -/

/-- The object is what its log leads to, and whoever is about to write it has a copy of
it, and is alone. -/
structure Consistent (svc : Service K σ Op Res) (init : σ) (s : Shared K σ Op Res) : Prop where
  committed : s.committed = svc.replay init s.log
  answered : svc.Answered init s.log
  copy : ∀ {i : Nat} {op : Op} {k : K} {copy : σ}, svc.access op = .write →
    s.users[i]? = some (Phase.inside op k copy) → copy = s.committed
  alone : ∀ {i j : Nat} {op op' : Op} {k k' : K} {copy copy' : σ},
    svc.access op = .write → svc.access op' = .write →
    s.users[i]? = some (Phase.inside op k copy) →
    s.users[j]? = some (Phase.inside op' k' copy') → i = j

variable {init : σ}

theorem consistent_of_nobody (hcommitted : s.committed = svc.replay init s.log)
    (hanswered : svc.Answered init s.log)
    (hnobody : ∀ (j : Nat) (op : Op) (k : K) (copy : σ), svc.access op = .write →
      s.users[j]? ≠ some (Phase.inside op k copy)) : svc.Consistent init s where
  committed := hcommitted
  answered := hanswered
  copy hwrites hj := absurd hj (hnobody _ _ _ _ hwrites)
  alone hwrites _ hj _ := absurd hj (hnobody _ _ _ _ hwrites)

theorem consistent_start (init : σ) (n : Nat) : svc.Consistent init (start init n) :=
  consistent_of_nobody rfl trivial fun _ _ _ _ _ hj =>
    nomatch List.eq_of_mem_replicate (List.mem_of_getElem? hj)

/-- A user that is not about to write is of no concern to the writers. -/
theorem Consistent.of_reader (h : svc.Consistent init s) {phase : Phase K σ Op Res}
    {log : List (Entry K Op Res)}
    (hreader : ∀ op k copy, phase = .inside op k copy → svc.access op ≠ .write)
    (hlog : svc.replay init log = svc.replay init s.log) (hanswered : svc.Answered init log) :
    svc.Consistent init ⟨s.committed, log, s.users.set i phase⟩ := by
  have hother : ∀ {j : Nat} {op : Op} {k : K} {copy : σ}, svc.access op = .write →
      (s.users.set i phase)[j]? = some (Phase.inside op k copy) →
        s.users[j]? = some (Phase.inside op k copy) := by
    intro j op k copy hwrites hj
    obtain ⟨-, heq⟩ | ⟨-, hj⟩ := users_set hj
    · exact absurd hwrites (hreader op k copy heq.symm)
    · exact hj
  exact
    { committed := h.committed.trans hlog.symm
      answered := hanswered
      copy := fun hw hj => h.copy hw (hother hw hj)
      alone := fun hw hw' hi hj => h.alone hw hw' (hother hw hi) (hother hw' hj) }

/-- A writer that begins is the only one. -/
theorem Consistent.begin (h : svc.Consistent init s) {op : Op} {k : K}
    (hwrites : svc.access op = .write) (hfree : s.users.any (svc.blocks lock op) = false) :
    svc.Consistent init ⟨s.committed, s.log, s.users.set i (.inside op k s.committed)⟩ := by
  have hnobody : ∀ {j : Nat} {op' : Op} {k' : K} {copy : σ}, svc.access op' = .write →
      s.users[j]? ≠ some (Phase.inside op' k' copy) := by
    intro j op' k' copy hwrites' hj
    have hblocks := (List.any_eq_false.mp hfree) _ (List.mem_of_getElem? hj)
    exact hblocks (by rw [blocks, hwrites, hwrites', lock.writers])
  have hmine : ∀ {j : Nat} {op' : Op} {k' : K} {copy : σ}, svc.access op' = .write →
      (s.users.set i (.inside op k s.committed))[j]? = some (Phase.inside op' k' copy) →
        j = i ∧ copy = s.committed := by
    intro j op' k' copy hwrites' hj
    obtain ⟨hji, heq⟩ | ⟨-, hj⟩ := users_set hj
    · cases heq
      exact ⟨hji, rfl⟩
    · exact absurd hj (hnobody hwrites')
  exact
    { committed := h.committed
      answered := h.answered
      copy := fun hw hj => (hmine hw hj).2
      alone := fun hw hw' hi hj => (hmine hw hi).1.trans (hmine hw' hj).1.symm }

theorem Answered.suffix {log log' : List (Entry K Op Res)}
    (h : svc.Answered init (log' ++ log)) : svc.Answered init log := by
  induction log' with
  | nil => exact h
  | cons e log' ih =>
      cases e with
      | op => exact ih h.2
      | crash => exact ih h

/-- When the writer commits, nobody else is about to write. -/
theorem Consistent.commit (h : svc.Consistent init s) {op : Op} {k : K} {copy : σ} {res : Res}
    {c : σ} (hwrites : svc.access op = .write) (hi : s.users[i]? = some (.inside op k copy))
    (hres : (svc.perform k s.committed op).1 = res)
    (hc : c = (svc.perform k s.committed op).2) :
    svc.Consistent init
      ⟨c, .op i k op res :: s.log, s.users.set i (.done op res)⟩ := by
  refine consistent_of_nobody ?_ ⟨by rw [← h.committed, hres], h.answered⟩ ?_
  · rw [hc, replay, h.committed]
  · intro j op' k' copy' hwrites' hj
    obtain ⟨-, heq⟩ | ⟨hne, hj⟩ := users_set hj
    · cases heq
    · exact hne (h.alone hwrites' hwrites hj hi)

theorem Consistent.crash (h : svc.Consistent init s) :
    svc.Consistent init
      ⟨svc.recover s.committed, .crash :: s.log, s.users.map fun _ => .idle⟩ := by
  refine consistent_of_nobody (congrArg svc.recover h.committed) h.answered ?_
  intro j op k copy _ hj
  obtain ⟨_, -, heq⟩ := Option.map_eq_some_iff.mp (List.getElem?_map.symm.trans hj)
  cases heq

theorem Consistent.step (h : svc.Consistent init s) (a : Action K Op) :
    svc.Consistent init (svc.step lock s a) := by
  have hstep := svc.stepped lock s a
  generalize svc.step lock s a = s' at hstep ⊢
  cases hstep with
  | stuck => exact h
  | crash => exact h.crash
  | moved hphase hmoved =>
      cases hmoved with
      | call | clock | respond => exact h.of_reader nofun rfl h.answered
      | leave => exact h.of_reader nofun rfl h.answered
      | begin op k hwrites hfree => exact h.begin hwrites hfree
      | look op k hreads =>
          have hres := congrArg (fun c => (svc.perform k c op).1) h.committed.symm
          refine h.of_reader ?_ ?_ ⟨hres, h.answered⟩
          · rintro _ _ _ ⟨⟩
            exact hreads
          · exact svc.reads_keep _ _ _ hreads
      | commit op k copy hwrites =>
          obtain rfl := h.copy hwrites hphase
          refine h.commit hwrites hphase rfl ?_
          split
          · rename_i haborts
            exact (svc.aborts_keep _ _ _ haborts).symm
          · rfl

variable (svc lock) in
/-- **At every moment the object is what its log leads to.** -/
theorem consistent_run (init : σ) (n : Nat) (as : List (Action K Op)) :
    svc.Consistent init (svc.run lock (start init n) as) :=
  invariant_foldl _ (fun _ a h => h.step a) as (consistent_start init n)

/-! ### Whoever came back has been logged, once, since the call -/

/-- The run so far called the operation for `i` at some moment, when nothing was open for
`i`; since then the clock was read, if `k?` says so, and what was logged of `i` is `mine`. -/
structure Since (svc : Service K σ Op Res) (lock : Locking) (s₀ : Shared K σ Op Res)
    (as : List (Action K Op)) (i : Nat) (op : Op) (k? : Option K)
    (mine : List (Entry K Op Res)) : Prop where
  exists_call : ∃ earlier later grown, as = earlier ++ .user i (.call op) :: later ∧
    (svc.run lock s₀ earlier).users[i]? = some .idle ∧
    (∀ k, k? = some k → .user i (.clock k) ∈ later) ∧
    (svc.run lock s₀ as).log = grown ++ (svc.run lock s₀ earlier).log ∧
    grown.filter (·.isBy i) = mine

/-- What has been logged of the operation a user is at. -/
def Tracked (svc : Service K σ Op Res) (lock : Locking) (s₀ : Shared K σ Op Res)
    (as : List (Action K Op)) (i : Nat) : Phase K σ Op Res → Prop
  | .idle => True
  | .called op => svc.Since lock s₀ as i op none []
  | .clocked op k => svc.Since lock s₀ as i op (some k) []
  | .inside op k copy => svc.Since lock s₀ as i op (some k)
      (if svc.access op = .write then [] else [.op i k op (svc.perform k copy op).1])
  | .done op res => ∃ k, svc.Since lock s₀ as i op (some k) [.op i k op res]

variable {s₀ : Shared K σ Op Res} {as : List (Action K Op)} {op : Op} {k? : Option K}
  {mine : List (Entry K Op Res)}

/-- One more thing that happens, and what it logs. -/
theorem Since.snoc (h : svc.Since lock s₀ as i op k? mine) (a : Action K Op)
    (logged : List (Entry K Op Res))
    (hlog : (svc.step lock (svc.run lock s₀ as) a).log = logged ++ (svc.run lock s₀ as).log) :
    svc.Since lock s₀ (as ++ [a]) i op k? (logged.filter (·.isBy i) ++ mine) := by
  obtain ⟨earlier, later, grown, has, hidle, hclock, hgrown, hmine⟩ := h.exists_call
  refine ⟨earlier, later ++ [a], logged ++ grown, ?_, hidle, ?_, ?_, ?_⟩
  · rw [has, List.append_assoc, List.cons_append]
  · intro k hk
    exact List.mem_append_left _ (hclock k hk)
  · rw [run_append, run_singleton, hlog, hgrown, List.append_assoc]
  · rw [List.filter_append, hmine]

/-- The clock is read. -/
theorem Since.clock (h : svc.Since lock s₀ as i op k? mine) {k : K}
    (hlog : (svc.step lock (svc.run lock s₀ as) (.user i (.clock k))).log =
      (svc.run lock s₀ as).log) :
    svc.Since lock s₀ (as ++ [.user i (.clock k)]) i op (some k) mine := by
  obtain ⟨earlier, later, grown, has, hidle, -, hgrown, hmine⟩ := h.exists_call
  refine ⟨earlier, later ++ [.user i (.clock k)], grown, ?_, hidle, ?_, ?_, hmine⟩
  · rw [has, List.append_assoc, List.cons_append]
  · rintro _ ⟨⟩
    simp
  · rw [run_append, run_singleton, hlog, hgrown]

theorem since_call (hidle : (svc.run lock s₀ as).users[i]? = some .idle)
    (hlog : (svc.step lock (svc.run lock s₀ as) (.user i (.call op))).log =
      (svc.run lock s₀ as).log) :
    svc.Since lock s₀ (as ++ [.user i (.call op)]) i op none [] :=
  ⟨as, [], [], rfl, hidle, nofun, by rw [run_append, run_singleton, hlog]; rfl, rfl⟩

/-- What others do, and what is logged of them, keeps a user's track. -/
theorem Tracked.snoc {phase : Phase K σ Op Res} (h : svc.Tracked lock s₀ as i phase)
    (a : Action K Op) (logged : List (Entry K Op Res))
    (hlog : (svc.step lock (svc.run lock s₀ as) a).log = logged ++ (svc.run lock s₀ as).log)
    (hothers : logged.filter (·.isBy i) = []) : svc.Tracked lock s₀ (as ++ [a]) i phase := by
  have hsince : ∀ {op k? mine}, svc.Since lock s₀ as i op k? mine →
      svc.Since lock s₀ (as ++ [a]) i op k? mine := by
    intro op k? mine hs
    simpa only [hothers, List.nil_append] using hs.snoc a logged hlog
  cases phase with
  | idle => trivial
  | called | clocked | inside => exact hsince h
  | done =>
      obtain ⟨k, hs⟩ := h
      exact ⟨k, hsince hs⟩

/-- A user's own move. -/
theorem Tracked.moved {phase phase' : Phase K σ Op Res} (h : svc.Tracked lock s₀ as i phase)
    {m : Move K Op} {c c' : σ} {logged : List (Entry K Op Res)}
    (hphase : (svc.run lock s₀ as).users[i]? = some phase)
    (hmoved : Moved svc busy i c phase m phase' c' logged)
    (hlog : (svc.step lock (svc.run lock s₀ as) (.user i m)).log =
      logged ++ (svc.run lock s₀ as).log) :
    svc.Tracked lock s₀ (as ++ [.user i m]) i phase' := by
  cases hmoved with
  | call op => exact since_call hphase hlog
  | clock op k => exact Since.clock h hlog
  | begin op k hwrites =>
      rw [Tracked, if_pos hwrites]
      exact Since.snoc h _ _ hlog
  | look op k hreads =>
      rw [Tracked, if_neg hreads]
      simpa [Entry.isBy] using Since.snoc h _ _ hlog
  | commit op k copy hwrites =>
      rw [Tracked, if_pos hwrites] at h
      exact ⟨k, by simpa [Entry.isBy] using h.snoc _ _ hlog⟩
  | leave op k copy hreads =>
      rw [Tracked, if_neg hreads] at h
      exact ⟨k, h.snoc _ _ hlog⟩
  | respond => trivial

/-- **Every user's operation is logged at most once since its call**, and once if it came
back. -/
theorem tracked_run (init : σ) (n : Nat) (as : List (Action K Op)) (i : Nat)
    {phase : Phase K σ Op Res}
    (hphase : (svc.run lock (start init n) as).users[i]? = some phase) :
    svc.Tracked lock (start init n) as i phase := by
  induction as using List.reverseRecOn generalizing i phase with
  | nil =>
      obtain rfl := List.eq_of_mem_replicate (List.mem_of_getElem? hphase)
      trivial
  | append_singleton as a ih =>
      rw [run_append, run_singleton] at hphase
      have hstep := svc.stepped lock (svc.run lock (start init n) as) a
      generalize hs' : svc.step lock (svc.run lock (start init n) as) a = s' at hstep hphase
      cases hstep with
      | stuck => exact (ih i hphase).snoc a [] (by rw [hs']; rfl) rfl
      | crash =>
          obtain ⟨_, -, rfl⟩ := Option.map_eq_some_iff.mp (List.getElem?_map.symm.trans hphase)
          trivial
      | moved hbefore hmoved =>
          rename_i j m before after c logged
          have hlog := congrArg Shared.log hs'
          obtain ⟨rfl, rfl⟩ | ⟨hne, hi⟩ := users_set hphase
          · exact (ih _ hbefore).moved hbefore hmoved hlog
          · refine (ih i hi).snoc _ _ hlog ?_
            cases hmoved <;> simp [Entry.isBy, Ne.symm hne]

/-- Where in the log an operation is that came back. -/
theorem Since.split {k : K} {res : Res}
    (h : svc.Since lock s₀ as i op (some k) [.op i k op res]) :
    ∃ earlier later after between, as = earlier ++ .user i (.call op) :: later ∧
      .user i (.clock k) ∈ later ∧
      (svc.run lock s₀ as).log =
        after ++ .op i k op res :: (between ++ (svc.run lock s₀ earlier).log) ∧
      ∀ e ∈ after ++ between, e.isBy i = false := by
  obtain ⟨earlier, later, grown, has, -, hclock, hgrown, hmine⟩ := h.exists_call
  obtain ⟨after, between, rfl, hafter, -, hbetween⟩ := List.filter_eq_cons_iff.mp hmine
  refine ⟨earlier, later, after, between, has, hclock k rfl, ?_, ?_⟩
  · rw [hgrown, List.append_assoc, List.cons_append]
  · intro e he
    rcases List.mem_append.mp he with he | he
    · exact Bool.eq_false_iff.mpr (hafter e he)
    · exact Bool.eq_false_iff.mpr (List.filter_eq_nil_iff.mp hbetween e he)

/-- What is logged was called, and at its moment the clock was read. -/
theorem mem_of_logged (init : σ) (n : Nat) (as : List (Action K Op)) {i : Nat} {k : K} {op : Op}
    {res : Res} (h : .op i k op res ∈ (svc.run lock (start init n) as).log) :
    .user i (.call op) ∈ as ∧ .user i (.clock k) ∈ as := by
  induction as using List.reverseRecOn with
  | nil => cases h
  | append_singleton as a ih =>
      have hmore : .user i (.call op) ∈ as ∧ .user i (.clock k) ∈ as →
          .user i (.call op) ∈ as ++ [a] ∧ .user i (.clock k) ∈ as ++ [a] :=
        And.imp (List.mem_append_left _) (List.mem_append_left _)
      have hof : ∀ {mine}, svc.Since lock (start init n) as i op (some k) mine →
          .user i (.call op) ∈ as ∧ .user i (.clock k) ∈ as := by
        intro mine hs
        obtain ⟨earlier, later, _, has, -, hclock, -, -⟩ := hs.exists_call
        rw [has]
        exact ⟨by simp, by simp [hclock k rfl]⟩
      rw [run_append, run_singleton] at h
      have hstep := svc.stepped lock (svc.run lock (start init n) as) a
      generalize svc.step lock (svc.run lock (start init n) as) a = s' at hstep h
      cases hstep with
      | stuck => exact hmore (ih h)
      | crash => exact hmore (ih ((List.mem_cons.mp h).resolve_left nofun))
      | moved hbefore hmoved =>
          rcases List.mem_append.mp h with hnew | hold
          · have htracked := tracked_run init n as _ hbefore
            cases hmoved with
            | look | commit =>
                cases List.mem_singleton.mp hnew
                exact hmore (hof htracked)
            | _ => cases hnew
          · exact hmore (ih hold)

end Service

end Foundation
