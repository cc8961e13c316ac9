import Mathlib.Data.List.Induction
import Mathlib.Data.Nat.Find
import IrohRings.Foundation.Programs
import IrohRings.Foundation.Runs

/-!
# IrohRings.Foundation.Pools

**Programs that run side by side.** A pool is a list of jobs, each with a program and
a state of its own, on a state that all of them share. One request at a time is made
and answered, of whichever job it is; in between, things happen outside the jobs.
Every order of these is a run.

A job only ever sees answers. So what is known of its program's traces (`Program.wp`)
holds of every job in every run (`exists_life`), and each answer is the one the shared
state gave at some moment of the run (`exists_moment`). In every schedule a job ends or
waits for good (`ends_or_waits`), and one that nothing interferes with ends as it does on
its own (`handle_along`).
-/

namespace Foundation

/-- A program that is being run, and its own part of the state. -/
structure Job (I : Interface) (ε α : Type) (L : Type*) where
  code : Program I ε α
  locals : L

/-- The jobs, in the order they were started, and what they share. -/
structure Pool (I : Interface) (ε α : Type) (S L : Type*) where
  shared : S
  jobs : List (Job I ε α L)

/-- How jobs run and what else happens. `exec` answers a request at a moment, or not
yet; `outside` is what happens outside the jobs. That may change the state of a job
(`drift`) and start jobs, but never touches the program of one. -/
structure System (I : Interface) (ε α : Type) (S L K X : Type*) where
  exec : K → (op : I.Op) → S → L → Option (I.Res op × S × L)
  outside : X → Pool I ε α S L → Pool I ε α S L
  main : L → Program I ε α
  fresh : L → Prop
  drift : L → L → Prop
  drift_refl : ∀ l, drift l l
  keeps : ∀ x (s : Pool I ε α S L) (i : Nat) (job : Job I ε α L), s.jobs[i]? = some job →
    ∃ l, drift job.locals l ∧ (outside x s).jobs[i]? = some { job with locals := l }
  spawns : ∀ x (s : Pool I ε α S L) (i : Nat) (job : Job I ε α L), s.jobs[i]? = none →
    (outside x s).jobs[i]? = some job → fresh job.locals ∧ job.code = main job.locals

/-- What can happen to a pool: a job takes a turn at a moment, or something outside
the jobs. -/
inductive Occurrence (K X : Type*)
  | turn (i : Nat) (k : K)
  | outside (x : X)

namespace System

variable {I : Interface} {ε α : Type} {S L K X : Type*} (sys : System I ε α S L K X)

/-- Let one thing happen. A job that has ended, or has to wait, does nothing. -/
def step (s : Pool I ε α S L) : Occurrence K X → Pool I ε α S L
  | .turn i k =>
    match s.jobs[i]? with
    | some ⟨.ask op next, l⟩ =>
      match sys.exec k op s.shared l with
      | some (r, shared, l') => ⟨shared, s.jobs.set i ⟨next r, l'⟩⟩
      | none => s
    | _ => s
  | .outside x => sys.outside x s

/-- The request of the `i`-th job that is answered, if one is. -/
def turnOf (i : Nat) (s : Pool I ε α S L) : Occurrence K X → Option (Turn I)
  | .turn j k =>
    if j = i then
      match s.jobs[i]? with
      | some ⟨.ask op _, l⟩ => (sys.exec k op s.shared l).map fun out => ⟨op, out.1⟩
      | _ => none
    else none
  | .outside _ => none

/-- The pool after what happened. -/
def run (s : Pool I ε α S L) (es : List (Occurrence K X)) : Pool I ε α S L :=
  es.foldl sys.step s

/-- The turns of the `i`-th job along the way, **latest first**. -/
def turns (i : Nat) (s : Pool I ε α S L) (es : List (Occurrence K X)) : List (Turn I) :=
  (es.foldl (fun d e => ((sys.turnOf i d.2 e).toList ++ d.1, sys.step d.2 e)) ([], s)).1

variable {sys} {s : Pool I ε α S L} {i : Nat} {job : Job I ε α L} {e : Occurrence K X}

@[simp] theorem run_nil : sys.run s [] = s := rfl

@[simp] theorem run_append (es es' : List (Occurrence K X)) :
    sys.run s (es ++ es') = sys.run (sys.run s es) es' := List.foldl_append

@[simp] theorem run_singleton : sys.run s [e] = sys.step s e := rfl

@[simp] theorem turns_nil : sys.turns i s [] = [] := rfl

theorem turns_snoc (es : List (Occurrence K X)) :
    sys.turns i s (es ++ [e]) = (sys.turnOf i (sys.run s es) e).toList ++ sys.turns i s es := by
  have hrun : ∀ (es : List (Occurrence K X)) (d : List (Turn I) × Pool I ε α S L),
      (es.foldl (fun d e => ((sys.turnOf i d.2 e).toList ++ d.1, sys.step d.2 e)) d).2 =
        sys.run d.2 es := by
    intro es
    induction es with
    | nil => exact fun d => rfl
    | cons e es ih => exact fun d => ih _
  rw [turns, List.foldl_append, List.foldl_cons, List.foldl_nil, hrun]
  rfl

/-! ### What a step does to a job -/

/-- Either the job makes a request and goes on with its answer, or its program stays. -/
inductive JobStep (sys : System I ε α S L K X) (i : Nat) (s : Pool I ε α S L)
    (e : Occurrence K X) (job job' : Job I ε α L) : Prop
  | idle (hcode : job'.code = job.code) (hdrift : sys.drift job.locals job'.locals)
      (hturn : sys.turnOf i s e = none) (hwaits : ∀ j k, e = .turn j k → job' = job)
  | turn {k : K} {op : I.Op} {next : I.Res op → Program I ε α} {r : I.Res op} {shared : S} {l : L}
      (he : e = .turn i k) (hcode : job.code = .ask op next)
      (hexec : sys.exec k op s.shared job.locals = some (r, shared, l))
      (hturn : sys.turnOf i s e = some ⟨op, r⟩) (hjob : job' = ⟨next r, l⟩)
      (hshared : (sys.step s e).shared = shared)

variable (sys) in
theorem step_job (h : s.jobs[i]? = some job) (e : Occurrence K X) :
    ∃ job', (sys.step s e).jobs[i]? = some job' ∧ JobStep sys i s e job job' := by
  have hstays : (sys.step s e).jobs[i]? = some job → sys.turnOf i s e = none →
      ∃ job', (sys.step s e).jobs[i]? = some job' ∧ JobStep sys i s e job job' :=
    fun hsame hturn => ⟨job, hsame, .idle rfl (sys.drift_refl _) hturn fun _ _ _ => rfl⟩
  obtain ⟨code, l⟩ := job
  cases e with
  | outside x =>
      obtain ⟨l', hdrift, hjob⟩ := sys.keeps x s i _ h
      exact ⟨_, hjob, .idle rfl hdrift rfl nofun⟩
  | turn j k =>
      by_cases hj : j = i
      · subst hj
        cases code with
        | ret a => exact hstays (by simp [step, h]) (by simp [turnOf, h])
        | fail err => exact hstays (by simp [step, h]) (by simp [turnOf, h])
        | ask op next =>
            cases hexec : sys.exec k op s.shared l with
            | none => exact hstays (by simp [step, h, hexec]) (by simp [turnOf, h, hexec])
            | some out =>
                obtain ⟨r, shared, l'⟩ := out
                have hlt : j < s.jobs.length := (List.getElem?_eq_some_iff.mp h).1
                refine ⟨⟨next r, l'⟩, ?_, .turn rfl rfl hexec ?_ rfl ?_⟩
                · simp only [step, h, hexec]
                  exact List.getElem?_set_self hlt
                · simp [turnOf, h, hexec]
                · simp [step, h, hexec]
      · -- another job's turn
        refine hstays ?_ (by simp [turnOf, hj])
        rw [← h]
        simp only [step]
        split
        · split
          · exact List.getElem?_set_ne hj
          · rfl
        · rfl

/-- Jobs start fresh, at the beginning of their program. -/
theorem step_spawn {job : Job I ε α L} (hnone : s.jobs[i]? = none)
    (h : (sys.step s e).jobs[i]? = some job) :
    sys.fresh job.locals ∧ job.code = sys.main job.locals := by
  cases e with
  | outside x => exact sys.spawns x s i job hnone h
  | turn j k =>
      have hsame : (sys.step s (.turn j k)).jobs.length = s.jobs.length := by
        simp only [step]
        split
        · split <;> simp
        · rfl
      rw [List.getElem?_eq_none_iff, ← hsame, ← List.getElem?_eq_none_iff, h] at hnone
      cases hnone

theorem turnOf_of_none (h : s.jobs[i]? = none) (e : Occurrence K X) : sys.turnOf i s e = none := by
  cases e with
  | outside x => rfl
  | turn j k => simp [turnOf, h]

/-- A job that makes no turn when it is its turn has to wait. -/
theorem exec_eq_none {k : K} {op : I.Op} {next : I.Res op → Program I ε α} {l : L}
    (h : s.jobs[i]? = some ⟨.ask op next, l⟩) (hturn : sys.turnOf i s (.turn i k) = none) :
    sys.exec k op s.shared l = none := by
  simpa [turnOf, h] using hturn

/-! ### The life of a job -/

variable (sys) in
/-- **The life of a job from some moment on**: its turns since then are a trace of what
was left of its program, and what its own steps and what happens outside preserve holds
of its state along with these turns. -/
theorem exists_later (inv : List (Turn I) → L → Prop)
    (hdrift : ∀ tr l l', inv tr l → sys.drift l l' → inv tr l')
    (hexec : ∀ tr k op shared shared' l l' r, inv tr l →
      sys.exec k op shared l = some (r, shared', l') → inv (⟨op, r⟩ :: tr) l')
    (h : s.jobs[i]? = some job) (hstart : inv [] job.locals) (es : List (Occurrence K X)) :
    ∃ job', (sys.run s es).jobs[i]? = some job' ∧
      job.code.Reaches (sys.turns i s es) job'.code ∧ inv (sys.turns i s es) job'.locals := by
  induction es using List.reverseRecOn with
  | nil => exact ⟨job, h, .start, hstart⟩
  | append_singleton es e ih =>
      obtain ⟨before, hbefore, hreach, hinv⟩ := ih
      obtain ⟨after, hafter, hstep⟩ := sys.step_job hbefore e
      rw [run_append, run_singleton, turns_snoc]
      refine ⟨after, hafter, ?_⟩
      cases hstep with
      | idle hcode hdr hturn =>
          rw [hturn, hcode]
          exact ⟨hreach, hdrift _ _ _ hinv hdr⟩
      | turn he hcode hex hturn hjob hshared =>
          rw [hturn, hjob]
          rw [hcode] at hreach
          exact ⟨hreach.turn _, hexec _ _ _ _ _ _ _ _ hinv hex⟩

variable (sys) in
/-- **The life of a job**, in a pool that started empty: it started fresh, its turns
are a trace of its program, and what its own steps and what happens outside preserve
holds of its state along with these turns. -/
theorem exists_life (hempty : s.jobs = []) (inv : L → List (Turn I) → L → Prop)
    (hfresh : ∀ l, sys.fresh l → inv l [] l)
    (hdrift : ∀ l₀ tr l l', inv l₀ tr l → sys.drift l l' → inv l₀ tr l')
    (hexec : ∀ l₀ tr k op shared shared' l l' r, inv l₀ tr l →
      sys.exec k op shared l = some (r, shared', l') → inv l₀ (⟨op, r⟩ :: tr) l')
    (es : List (Occurrence K X)) {job : Job I ε α L} (h : (sys.run s es).jobs[i]? = some job) :
    ∃ l₀, sys.fresh l₀ ∧ (sys.main l₀).Reaches (sys.turns i s es) job.code ∧
      inv l₀ (sys.turns i s es) job.locals := by
  -- a job that is not there yet has taken no turn
  have hnone : ∀ es : List (Occurrence K X), (sys.run s es).jobs[i]? = none →
      sys.turns i s es = [] := by
    intro es
    induction es using List.reverseRecOn with
    | nil => exact fun _ => rfl
    | append_singleton es e ih =>
        intro hes
        rw [run_append, run_singleton] at hes
        have hbefore : (sys.run s es).jobs[i]? = none := by
          cases hjob : (sys.run s es).jobs[i]? with
          | none => rfl
          | some job =>
              obtain ⟨job', hjob', -⟩ := sys.step_job hjob e
              cases hes.symm.trans hjob'
        rw [turns_snoc, turnOf_of_none hbefore, ih hbefore]
        rfl
  induction es using List.reverseRecOn generalizing job with
  | nil =>
      rw [run_nil, hempty] at h
      cases h
  | append_singleton es e ih =>
      rw [run_append, run_singleton] at h
      rw [turns_snoc]
      cases hbefore : (sys.run s es).jobs[i]? with
      | none =>
          obtain ⟨hstart, hcode⟩ := step_spawn hbefore h
          rw [turnOf_of_none hbefore, hnone es hbefore, hcode]
          exact ⟨job.locals, hstart, .start, hfresh _ hstart⟩
      | some before =>
          obtain ⟨l₀, hstart, hreach, hinv⟩ := ih hbefore
          obtain ⟨job', hjob', hstep⟩ := sys.step_job hbefore e
          obtain rfl := Option.some.inj (h.symm.trans hjob')
          refine ⟨l₀, hstart, ?_⟩
          cases hstep with
          | idle hcode hdr hturn =>
              rw [hturn, hcode]
              exact ⟨hreach, hdrift _ _ _ _ hinv hdr⟩
          | turn he hcode hex hturn hjob hshared =>
              rw [hturn, hjob]
              rw [hcode] at hreach
              exact ⟨hreach.turn _, hexec _ _ _ _ _ _ _ _ _ hinv hex⟩

variable (sys) in
/-- The moment of a run at which the `i`-th job took the turn: its answer is the one the
shared state gave then. -/
structure Moment (i : Nat) (s : Pool I ε α S L) (es : List (Occurrence K X)) (t : Turn I)
    (before : List (Occurrence K X)) (k : K) (after : List (Occurrence K X)) : Prop where
  split : es = before ++ .turn i k :: after
  turns : sys.turns i s (before ++ [.turn i k]) = t :: sys.turns i s before
  exec : ∃ job shared l, (sys.run s before).jobs[i]? = some job ∧
    sys.exec k t.op (sys.run s before).shared job.locals = some (t.res, shared, l)

/-- Later on, it is still a moment of the run. -/
theorem Moment.append {es before after : List (Occurrence K X)} {t : Turn I} {k : K}
    (h : sys.Moment i s es t before k after) (more : List (Occurrence K X)) :
    sys.Moment i s (es ++ more) t before k (after ++ more) :=
  ⟨by simp [h.split], h.turns, h.exec⟩

/-- What the moment leads to. -/
theorem Moment.result {es before after : List (Occurrence K X)} {t : Turn I} {k : K}
    (h : sys.Moment i s es t before k after) :
    ∃ job shared job', (sys.run s before).jobs[i]? = some job ∧
      sys.exec k t.op (sys.run s before).shared job.locals = some (t.res, shared, job'.locals) ∧
      (sys.run s (before ++ [.turn i k])).jobs[i]? = some job' ∧
      (sys.run s (before ++ [.turn i k])).shared = shared := by
  obtain ⟨job, -, -, hjob, -⟩ := h.exec
  obtain ⟨job', hjob', hstep⟩ := sys.step_job hjob (.turn i k)
  have hturns := h.turns
  rw [turns_snoc] at hturns
  cases hstep with
  | idle hcode hdr hturn =>
      rw [hturn] at hturns
      exact absurd hturns List.ne_cons_self
  | @turn k' op next r shared l he hcode hex hturn hafter hshared =>
      cases he
      rw [hturn] at hturns
      obtain rfl := (List.cons.inj hturns).1
      rw [run_append, run_singleton]
      exact ⟨job, shared, job', hjob, by rw [hafter]; exact hex, hjob', hshared⟩

/-- **Each turn was taken at some moment of the run**, right after the turns before
it. -/
theorem exists_moment {new old : List (Turn I)} {t : Turn I} (es : List (Occurrence K X))
    (h : sys.turns i s es = new ++ t :: old) :
    ∃ before k after, sys.Moment i s es t before k after ∧ sys.turns i s before = old := by
  induction es using List.reverseRecOn generalizing new with
  | nil => cases new <;> cases h
  | append_singleton es e ih =>
      have hearlier : ∀ {new}, sys.turns i s es = new ++ t :: old →
          ∃ before k after, sys.Moment i s (es ++ [e]) t before k after ∧
            sys.turns i s before = old := by
        intro new heq
        obtain ⟨before, k, after, hmoment, hold⟩ := ih heq
        exact ⟨before, k, after ++ [e], hmoment.append [e], hold⟩
      cases hjob : (sys.run s es).jobs[i]? with
      | none =>
          rw [turns_snoc, turnOf_of_none hjob] at h
          exact hearlier h
      | some job =>
          obtain ⟨job', -, hstep⟩ := sys.step_job hjob e
          cases hstep with
          | idle hcode hdr hturn =>
              rw [turns_snoc, hturn] at h
              exact hearlier h
          | @turn k op next r shared l he hcode hex hturn hjob' hshared =>
              subst he
              have hturns : sys.turns i s (es ++ [.turn i k]) = ⟨op, r⟩ :: sys.turns i s es := by
                rw [turns_snoc, hturn]
                rfl
              rw [hturns] at h
              cases new with
              | nil =>
                  obtain ⟨rfl, rfl⟩ := List.cons.inj h
                  exact ⟨es, _, [], ⟨rfl, hturns, job, _, _, hjob, hex⟩, rfl⟩
              | cons t' new => exact hearlier (List.cons.inj h).2

/-- A request that is answered now is one. -/
theorem moment_of_exec {es : List (Occurrence K X)} {k : K} {op : I.Op}
    {next : I.Res op → Program I ε α} {l l' : L} {r : I.Res op} {shared : S}
    (hjob : (sys.run s es).jobs[i]? = some ⟨.ask op next, l⟩)
    (hexec : sys.exec k op (sys.run s es).shared l = some (r, shared, l')) :
    sys.Moment i s (es ++ [.turn i k]) ⟨op, r⟩ es k [] where
  split := rfl
  turns := by
    rw [turns_snoc]
    simp [turnOf, hjob, hexec]
  exec := ⟨_, _, _, hjob, hexec⟩

theorem exists_last_moment {old : List (Turn I)} {t : Turn I} (es : List (Occurrence K X))
    (h : sys.turns i s es = t :: old) :
    ∃ before k after, sys.Moment i s es t before k after ∧ sys.turns i s before = old :=
  exists_moment es (show _ = [] ++ t :: old from h)

theorem turns_append (es es' : List (Occurrence K X)) :
    sys.turns i s es <:+ sys.turns i s (es ++ es') := by
  induction es' using List.reverseRecOn with
  | nil => rw [List.append_nil]
  | append_singleton es' e ih =>
      rw [← List.append_assoc, turns_snoc]
      exact ih.trans (List.suffix_append ..)

/-- A turn after those up to some moment was taken after that moment. -/
theorem Moment.prefix_of_turns {es from_ rest before after : List (Occurrence K X)} {t : Turn I}
    {k : K} (h : sys.Moment i s es t before k after) (hes : es = from_ ++ rest)
    (hold : sys.turns i s from_ <:+ sys.turns i s before) : from_ <+: before := by
  refine List.prefix_of_prefix_length_le (hes ▸ List.prefix_append ..)
    (h.split ▸ List.prefix_append ..) (Nat.not_lt.mp fun hlt => ?_)
  -- otherwise this turn would be one of those up to then
  have hearlier : before ++ [.turn i k] <+: from_ := by
    refine List.prefix_of_prefix_length_le ?_ (hes ▸ List.prefix_append ..)
      (by rw [List.length_append]; exact hlt)
    exact ⟨after, by rw [h.split, List.append_assoc]; rfl⟩
  obtain ⟨more, rfl⟩ := hearlier
  have hlen := ((turns_append (before ++ [.turn i k]) more).trans hold).length_le
  rw [h.turns, List.length_cons] at hlen
  exact Nat.not_succ_le_self _ hlen

/-! ### Endless schedules -/

/-- The first `n` things of an endless schedule. -/
def upTo (schedule : Nat → Occurrence K X) (n : Nat) : List (Occurrence K X) :=
  (List.range n).map schedule

omit sys in
theorem upTo_succ (schedule : Nat → Occurrence K X) (n : Nat) :
    upTo schedule (n + 1) = upTo schedule n ++ [schedule n] := by
  simp [upTo, List.range_succ]

omit sys in
theorem upTo_prefix (schedule : Nat → Occurrence K X) {n m : Nat} (h : n ≤ m) :
    upTo schedule n <+: upTo schedule m := by
  induction h with
  | refl => exact List.prefix_rfl
  | step h ih =>
      rw [upTo_succ]
      exact ih.trans (List.prefix_append ..)

omit sys in
/-- What holds at every moment of a schedule holds along its beginnings. -/
theorem along_upTo {sys : System I ε α S L K X} {guard : Pool I ε α S L → Occurrence K X → Prop}
    {schedule : Nat → Occurrence K X}
    (h : ∀ n, guard (sys.run s (upTo schedule n)) (schedule n)) (n : Nat) :
    Along sys.step guard s (upTo schedule n) := by
  induction n with
  | zero => trivial
  | succ n ih =>
      rw [upTo_succ]
      exact along_append.mpr ⟨ih, h n, trivial⟩

/-- **A job ends, or waits for good**: in every schedule it comes to its end, or to a
request that is never answered from some point on. -/
theorem ends_or_waits {schedule : Nat → Occurrence K X} {n : Nat}
    (hjob : (sys.run s (upTo schedule n)).jobs[i]? = some job) :
    (∃ m job', n ≤ m ∧ (sys.run s (upTo schedule m)).jobs[i]? = some job' ∧
      job'.code.result.isSome) ∨
    ∃ m op next, n ≤ m ∧ ∀ d, ∃ l,
      (sys.run s (upTo schedule (m + d))).jobs[i]? = some ⟨.ask op next, l⟩ ∧
      sys.turnOf i (sys.run s (upTo schedule (m + d))) (schedule (m + d)) = none := by
  obtain ⟨code, l⟩ := job
  induction code generalizing n l with
  | ret a => exact .inl ⟨n, _, le_rfl, hjob, rfl⟩
  | fail err => exact .inl ⟨n, _, le_rfl, hjob, rfl⟩
  | ask op next ih =>
      -- as long as the job makes no turn, its program stays
      have hstays : ∀ d, (∀ c < d, sys.turnOf i (sys.run s (upTo schedule (n + c)))
          (schedule (n + c)) = none) →
          ∃ l, (sys.run s (upTo schedule (n + d))).jobs[i]? = some ⟨.ask op next, l⟩ := by
        intro d
        induction d with
        | zero => exact fun _ => ⟨l, hjob⟩
        | succ d ihd =>
            intro hnone
            obtain ⟨l', hbefore⟩ := ihd fun c hc => hnone c (by omega)
            obtain ⟨job', hafter, hstep⟩ := sys.step_job hbefore (schedule (n + d))
            rw [← Nat.add_assoc, upTo_succ, run_append, run_singleton, hafter]
            cases hstep with
            | idle hcode hdr hturn =>
                obtain ⟨code', l''⟩ := job'
                cases hcode
                exact ⟨l'', rfl⟩
            | turn he hcode hex hturn hj hshared =>
                cases (hnone d (by omega)).symm.trans hturn
      by_cases hturns : ∃ d, sys.turnOf i (sys.run s (upTo schedule (n + d)))
          (schedule (n + d)) ≠ none
      · -- the first turn it makes
        classical
        have hfirst : ∀ c < Nat.find hturns, sys.turnOf i (sys.run s (upTo schedule (n + c)))
            (schedule (n + c)) = none := fun c hc => not_not.mp (Nat.find_min hturns hc)
        obtain ⟨l', hbefore⟩ := hstays _ hfirst
        obtain ⟨job', hafter, hstep⟩ := sys.step_job hbefore (schedule (n + Nat.find hturns))
        cases hstep with
        | idle hcode hdr hturn => exact absurd hturn (Nat.find_spec hturns)
        | @turn k op' next' r shared l'' he hcode hex hturn hj hshared =>
            obtain ⟨rfl, hnexts⟩ := Program.ask.inj hcode
            obtain rfl := eq_of_heq hnexts
            subst hj
            have hthen : (sys.run s (upTo schedule (n + Nat.find hturns + 1))).jobs[i]? =
                some ⟨next r, l''⟩ := by
              rw [upTo_succ, run_append, run_singleton, hafter]
            obtain ⟨m, job', hm, hend⟩ | ⟨m, op', next', hm, hwait⟩ := ih _ _ hthen
            · exact .inl ⟨m, job', by omega, hend⟩
            · exact .inr ⟨m, op', next', by omega, hwait⟩
      · have hnever : ∀ d, sys.turnOf i (sys.run s (upTo schedule (n + d)))
            (schedule (n + d)) = none := fun d => by
          by_contra h
          exact hturns ⟨d, h⟩
        refine .inr ⟨n, op, next, le_rfl, fun d => ?_⟩
        obtain ⟨l', hl'⟩ := hstays d fun c _ => hnever c
        exact ⟨l', hl', hnever d⟩

/-! ### Nothing in between -/

variable (sys) in
/-- **A job that nothing interferes with ends as its program does on its own.** `rel`
says what the state of a job amounts to for a handler. If what happens outside leaves
that as it is, and each turn is answered as the handler answers it, what is left of the
program comes to the same. -/
theorem handle_along {τ : Type*} (handler : (op : I.Op) → τ → I.Res op × τ)
    (rel : L → τ → Prop) (ok : L → Prop) {guard : Pool I ε α S L → Occurrence K X → Prop}
    (hdrift : ∀ l l' t, ok l' → sys.drift l l' → rel l t → rel l' t)
    (hexec : ∀ (s : Pool I ε α S L) k op shared l l' (r : I.Res op) t, guard s (.turn i k) →
      sys.exec k op s.shared l = some (r, shared, l') → rel l t →
      (handler op t).1 = r ∧ rel l' (handler op t).2)
    {es : List (Occurrence K X)} (halong : Along sys.step guard s es)
    (hok : ∀ before after job, es = before ++ after →
      (sys.run s before).jobs[i]? = some job → ok job.locals)
    (h : s.jobs[i]? = some job) {t : τ} (hrel : rel job.locals t) :
    ∃ job' t', (sys.run s es).jobs[i]? = some job' ∧ rel job'.locals t' ∧
      job'.code.handle handler t' = job.code.handle handler t := by
  induction es generalizing s job t with
  | nil => exact ⟨job, t, h, hrel, rfl⟩
  | cons e es ih =>
      obtain ⟨hguard, hrest⟩ := halong
      obtain ⟨after, hafter, hstep⟩ := sys.step_job h e
      have hthen : ∀ before rest job, es = before ++ rest →
          (sys.run (sys.step s e) before).jobs[i]? = some job → ok job.locals :=
        fun before rest job heq => hok (e :: before) rest job (by rw [heq]; rfl)
      cases hstep with
      | idle hcode hdr hturn =>
          have hstill := hdrift _ _ t (hthen [] es after rfl hafter) hdr hrel
          rw [← hcode]
          exact ih hrest hthen hafter hstill
      | @turn k op next r shared l he hcode hex hturn hjob hshared =>
          subst he hjob
          obtain ⟨hanswer, hthere⟩ := hexec _ _ _ _ _ _ _ _ hguard hex hrel
          obtain ⟨job', t', hend, hrel', hhandle⟩ := ih hrest hthen hafter hthere
          refine ⟨job', t', hend, hrel', ?_⟩
          rw [hhandle, hcode, Program.handle_ask, hanswer]

end System

end Foundation
