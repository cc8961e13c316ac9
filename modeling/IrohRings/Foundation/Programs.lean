import Mathlib.Data.List.Infix

/-!
# IrohRings.Foundation.Programs

**Programs that ask their host for things.** A program is a tree: it returns, it
fails, or it makes a request and goes on as the answer says. What a request does is
not its business, so one program can be run in several ways — on its own, by a
handler of its requests (`Program.handle`), or a request at a time, while others
change the host in between.

What holds of a program however it is answered is a fact about its **traces**: the
requests made so far, each with its answer, **latest first**. `Program.wp` computes
it by recursion on the program, and `wp_reaches` is what it means.
-/

namespace Foundation

/-- What a program may ask, and what each request can be answered with. -/
structure Interface where
  Op : Type
  Res : Op → Type

/-- A program that returns an `α` or fails with an `ε`. -/
inductive Program (I : Interface) (ε α : Type)
  | ret (a : α)
  | fail (e : ε)
  | ask (op : I.Op) (next : I.Res op → Program I ε α)

/-- A request and its answer. -/
structure Turn (I : Interface) where
  op : I.Op
  res : I.Res op

variable {I : Interface} {ε ε' α β : Type}

namespace Program

/-! ### Programs in sequence -/

def bind : Program I ε α → (α → Program I ε β) → Program I ε β
  | ret a, f => f a
  | fail e, _ => fail e
  | ask op next, f => ask op fun r => (next r).bind f

instance : Monad (Program I ε) where
  pure := ret
  bind := bind

/-- Make one request. -/
def request (op : I.Op) : Program I ε (I.Res op) := ask op ret

/-- `?`: go on with a result, or fail with its error. -/
def ofExcept : Except ε α → Program I ε α
  | .ok a => ret a
  | .error e => fail e

/-- Run a program for its result, which is then looked at. -/
def attempt : Program I ε α → Program I ε' (Except ε α)
  | ret a => ret (.ok a)
  | fail e => ret (.error e)
  | ask op next => ask op fun r => (next r).attempt

/-- How the program ended, if it has. -/
def result : Program I ε α → Option (Except ε α)
  | ret a => some (.ok a)
  | fail e => some (.error e)
  | ask _ _ => none

theorem result_eq_error {p : Program I ε α} {e : ε} : p.result = some (.error e) ↔ p = fail e := by
  cases p <;> simp [result]

@[simp] theorem pure_eq (a : α) : (pure a : Program I ε α) = ret a := rfl

@[simp] theorem ret_bind (a : α) (f : α → Program I ε β) : (ret a : Program I ε α) >>= f = f a :=
  rfl

@[simp] theorem fail_bind (e : ε) (f : α → Program I ε β) :
    (fail e : Program I ε α) >>= f = fail e := rfl

@[simp] theorem ask_bind (op : I.Op) (next : I.Res op → Program I ε α)
    (f : α → Program I ε β) : ask op next >>= f = ask op fun r => next r >>= f := rfl

/-! ### Traces -/

/-- `p` gets to the residual program by the turns, listed latest first. -/
inductive Reaches (p : Program I ε α) : List (Turn I) → Program I ε α → Prop
  | start : Reaches p [] p
  | turn {tr : List (Turn I)} {op : I.Op} {next : I.Res op → Program I ε α}
      (h : Reaches p tr (ask op next)) (r : I.Res op) : Reaches p (⟨op, r⟩ :: tr) (next r)

/-- There is nothing to get to after the end. -/
theorem reaches_ret {a : α} {tr : List (Turn I)} {p' : Program I ε α}
    (h : (ret a : Program I ε α).Reaches tr p') : tr = [] ∧ p' = ret a := by
  induction h with
  | start => exact ⟨rfl, rfl⟩
  | turn _ r ih => cases ih.2

/-- Each turn of the trace is one that the turns before it justify. -/
def Guarded (guard : Turn I → List (Turn I) → Prop) : List (Turn I) → Prop
  | [] => True
  | t :: tr => guard t tr ∧ Guarded guard tr

/-- However the program is answered from here on, each of its turns is justified by
those before it, and what it ends with satisfies `post`. -/
def wp (guard : Turn I → List (Turn I) → Prop) (post : List (Turn I) → Except ε α → Prop) :
    Program I ε α → List (Turn I) → Prop
  | ret a, tr => post tr (.ok a)
  | fail e, tr => post tr (.error e)
  | ask op next, tr => ∀ r, guard ⟨op, r⟩ tr ∧ wp guard post (next r) (⟨op, r⟩ :: tr)

section Rules

variable {guard : Turn I → List (Turn I) → Prop} {post post' : List (Turn I) → Except ε α → Prop}
  {p p' : Program I ε α} {tr tr' : List (Turn I)}

@[simp] theorem wp_ret {a : α} : wp guard post (ret a) tr ↔ post tr (.ok a) := Iff.rfl

@[simp] theorem wp_fail {e : ε} : wp guard post (fail e) tr ↔ post tr (.error e) := Iff.rfl

theorem wp_ask {op : I.Op} {next : I.Res op → Program I ε α} :
    wp guard post (ask op next) tr ↔
      ∀ r, guard ⟨op, r⟩ tr ∧ wp guard post (next r) (⟨op, r⟩ :: tr) := Iff.rfl

/-- What a first program has to establish for a second. -/
def thenPost (guard : Turn I → List (Turn I) → Prop)
    (post : List (Turn I) → Except ε β → Prop) (f : α → Program I ε β)
    (tr : List (Turn I)) : Except ε α → Prop
  | .ok a => wp guard post (f a) tr
  | .error e => post tr (.error e)

/-- **Sequencing.** -/
theorem wp_bind {post : List (Turn I) → Except ε β → Prop} {f : α → Program I ε β} :
    wp guard post (p >>= f) tr ↔ wp guard (thenPost guard post f) p tr := by
  induction p generalizing tr with
  | ret a => rfl
  | fail e => rfl
  | ask op next ih => exact forall_congr' fun r => and_congr_right fun _ => ih r

theorem wp_request {op : I.Op} {post : List (Turn I) → Except ε (I.Res op) → Prop} :
    wp guard post (request op) tr ↔ ∀ r, guard ⟨op, r⟩ tr ∧ post (⟨op, r⟩ :: tr) (.ok r) :=
  Iff.rfl

theorem wp_ofExcept {out : Except ε α} : wp guard post (ofExcept out) tr ↔ post tr out := by
  cases out <;> rfl

theorem wp_attempt {post : List (Turn I) → Except ε' (Except ε α) → Prop} :
    wp guard post p.attempt tr ↔ wp guard (fun tr out => post tr (.ok out)) p tr := by
  induction p generalizing tr with
  | ret a => rfl
  | fail e => rfl
  | ask op next ih => exact forall_congr' fun r => and_congr_right fun _ => ih r

/-- **Consequence.** -/
theorem wp_mono (h : wp guard post p tr) (hpost : ∀ tr out, post tr out → post' tr out) :
    wp guard post' p tr := by
  induction p generalizing tr with
  | ret a => exact hpost _ _ h
  | fail e => exact hpost _ _ h
  | ask op next ih => exact fun r => ⟨(h r).1, ih r (h r).2⟩

/-- **What the logic means**: the turns made are justified, and what is left of the
program is still as it should be. -/
theorem wp_reaches (h : wp guard post p tr) (hreach : p.Reaches tr' p') :
    wp guard post p' (tr' ++ tr) ∧ (Guarded guard tr → Guarded guard (tr' ++ tr)) := by
  induction hreach with
  | start => exact ⟨h, id⟩
  | turn _ r ih =>
      obtain ⟨hask, hguarded⟩ := ih
      obtain ⟨hturn, hnext⟩ := hask r
      exact ⟨hnext, fun htr => ⟨hturn, hguarded htr⟩⟩

/-- A trace of a program that has run to its end. -/
theorem wp_result (h : wp guard post p []) (hreach : p.Reaches tr p') {out : Except ε α}
    (hout : p'.result = some out) : post tr out := by
  obtain ⟨hwp, -⟩ := wp_reaches h hreach
  rw [List.append_nil] at hwp
  cases p' with
  | ret a =>
      obtain rfl := Option.some.inj hout
      exact hwp
  | fail e =>
      obtain rfl := Option.some.inj hout
      exact hwp
  | ask op next => cases hout

theorem guarded_reaches (h : wp guard post p []) (hreach : p.Reaches tr p') :
    Guarded guard tr := by
  obtain ⟨-, hguarded⟩ := wp_reaches h hreach
  rw [List.append_nil] at hguarded
  exact hguarded trivial

/-- The logic, for a program that is only known by its traces: its turns are justified
if they are where the program may take them, after what came before it. -/
theorem wp_of_reaches
    (hguard : ∀ op next r new, p.Reaches new (ask op next) → guard ⟨op, r⟩ (new ++ tr))
    (hpost : ∀ new p' out, p.Reaches new p' → p'.result = some out → post (new ++ tr) out) :
    wp guard post p tr := by
  -- the part of `p` that is left, by induction on it
  have hrest : ∀ (p' : Program I ε α) (new : List (Turn I)), p.Reaches new p' →
      wp guard post p' (new ++ tr) := by
    intro p' new hreach
    induction p' generalizing new with
    | ret a => exact hpost new _ _ hreach rfl
    | fail e => exact hpost new _ _ hreach rfl
    | ask op next ih =>
        intro r
        exact ⟨hguard op next r new hreach, ih r (⟨op, r⟩ :: new) (hreach.turn r)⟩
  exact hrest p [] .start

end Rules

/-- Every request the program can make satisfies `P`. -/
def Uses (P : I.Op → Prop) : Program I ε α → Prop
  | ret _ | fail _ => True
  | ask op next => P op ∧ ∀ r, Uses P (next r)

section Uses

variable {P : I.Op → Prop} {p : Program I ε α}

@[simp] theorem uses_ret {a : α} : Uses P (ret a : Program I ε α) := trivial

@[simp] theorem uses_fail {e : ε} : Uses P (fail e : Program I ε α) := trivial

theorem uses_request {op : I.Op} (h : P op) : Uses P (request op : Program I ε (I.Res op)) :=
  ⟨h, fun _ => trivial⟩

theorem Uses.bind {f : α → Program I ε β} (h : Uses P p) (hf : ∀ a, Uses P (f a)) :
    Uses P (p >>= f) := by
  induction p with
  | ret a => exact hf a
  | fail e => trivial
  | ask op next ih => exact ⟨h.1, fun r => ih r (h.2 r)⟩

theorem Uses.attempt (h : Uses P p) : Uses P (p.attempt : Program I ε' (Except ε α)) := by
  induction p with
  | ret a => trivial
  | fail e => trivial
  | ask op next ih => exact ⟨h.1, fun r => ih r (h.2 r)⟩

theorem uses_ofExcept {out : Except ε α} : Uses P (ofExcept out : Program I ε α) := by
  cases out <;> trivial

/-- A program only makes requests of its kind. -/
theorem Uses.reaches {tr : List (Turn I)} {p' : Program I ε α} (h : Uses P p)
    (hreach : p.Reaches tr p') : Uses P p' ∧ ∀ t ∈ tr, P t.op := by
  induction hreach with
  | start => exact ⟨h, nofun⟩
  | turn _ r ih =>
      obtain ⟨hask, htr⟩ := ih
      exact ⟨hask.2 r, List.forall_mem_cons.mpr ⟨hask.1, htr⟩⟩

end Uses

/-! ### Running a program on its own -/

/-- Run the program on a state, with a handler that answers its requests. -/
def handle {τ : Type*} (handler : (op : I.Op) → τ → I.Res op × τ) :
    Program I ε α → τ → Except ε α × τ
  | ret a, s => (.ok a, s)
  | fail e, s => (.error e, s)
  | ask op next, s => (next (handler op s).1).handle handler (handler op s).2

section Handle

variable {τ : Type*} {handler : (op : I.Op) → τ → I.Res op × τ} {p : Program I ε α} {s s' : τ}

@[simp] theorem handle_ret {a : α} : (ret a : Program I ε α).handle handler s = (.ok a, s) := rfl

@[simp] theorem handle_fail {e : ε} :
    (fail e : Program I ε α).handle handler s = (.error e, s) := rfl

theorem handle_ask {op : I.Op} {next : I.Res op → Program I ε α} :
    (ask op next).handle handler s = (next (handler op s).1).handle handler (handler op s).2 := rfl

theorem handle_ofExcept {out : Except ε α} : (ofExcept out).handle handler s = (out, s) := by
  cases out <;> rfl

theorem handle_bind_of_ok {f : α → Program I ε β} {a : α} (h : p.handle handler s = (.ok a, s')) :
    (p >>= f).handle handler s = (f a).handle handler s' := by
  induction p generalizing s with
  | ret b =>
      obtain ⟨hb, rfl⟩ := Prod.mk.inj h
      obtain rfl := Except.ok.inj hb
      rfl
  | fail e => cases congrArg Prod.fst h
  | ask op next ih => exact ih _ h

theorem handle_bind_of_error {f : α → Program I ε β} {e : ε}
    (h : p.handle handler s = (.error e, s')) : (p >>= f).handle handler s = (.error e, s') := by
  induction p generalizing s with
  | ret b => cases congrArg Prod.fst h
  | fail e' =>
      obtain ⟨he, rfl⟩ := Prod.mk.inj h
      obtain rfl := Except.error.inj he
      rfl
  | ask op next ih => exact ih _ h

theorem handle_attempt {out : Except ε α} (h : p.handle handler s = (out, s')) :
    (p.attempt : Program I ε' _).handle handler s = (.ok out, s') := by
  induction p generalizing s with
  | ret a =>
      obtain ⟨rfl, rfl⟩ := Prod.mk.inj h
      rfl
  | fail e =>
      obtain ⟨rfl, rfl⟩ := Prod.mk.inj h
      rfl
  | ask op next ih => exact ih _ h

/-- A program that has ended stays as it is. -/
theorem handle_of_result {out : Except ε α} (h : p.result = some out) :
    p.handle handler s = (out, s) := by
  cases p with
  | ret a =>
      obtain rfl := Option.some.inj h
      rfl
  | fail e =>
      obtain rfl := Option.some.inj h
      rfl
  | ask op next => cases h

end Handle

end Program

end Foundation
