import IrohRings.Foundation.Bytes

/-!
# IrohRings.Foundation.Streams

The two halves of a **byte stream** between peers. The receiving half is what
is still to come and how the stream ends; the sending half is what was written
so far and how much more the other side takes before a write fails. Reading
fills a buffer or fails, writing sends all of the data or fails.

Computations on streams are state-passing functions that may end early;
`bind_of_ok` and `bind_of_error` run them step by step.
-/

namespace Foundation

/-- The receiving half: the bytes not read yet, after which the stream ends,
cleanly or by a reset. -/
structure RecvStream where
  bytes : Bytes
  reset : Bool
  deriving DecidableEq, Repr

/-- Why a buffer could not be filled. -/
inductive ReadFault
  | finishedEarly (read : Nat)
  | reset
  deriving DecidableEq, Repr

/-- The sending half: the bytes written, how many more are taken before a write
fails (`none`: any number), and whether it was finished. -/
structure SendStream where
  written : Bytes
  capacity : Option Nat
  finished : Bool
  deriving DecidableEq, Repr

/-- Why a write, or finishing the stream, failed. -/
inductive WriteFault
  | failed
  | closed
  deriving DecidableEq, Repr

namespace RecvStream

/-- `read_exact`: fill a buffer of `n` bytes. -/
def readExact (s : RecvStream) (n : Nat) : Except ReadFault (Vector UInt8 n) × RecvStream :=
  if h : (s.bytes.take n).length = n then
    (.ok ⟨(s.bytes.take n).toArray, by simpa using h⟩, { s with bytes := s.bytes.drop n })
  else
    (.error (if s.reset then .reset else .finishedEarly s.bytes.length), { s with bytes := [] })

/-- A buffer's worth of bytes is read, and what follows is left. -/
theorem readExact_append {n : Nat} (v : Vector UInt8 n) (rest : Bytes) (reset : Bool) :
    (⟨v.toList ++ rest, reset⟩ : RecvStream).readExact n = (.ok v, ⟨rest, reset⟩) := by
  have hlen : v.toList.length = n := by simp
  have htake : (v.toList ++ rest).take n = v.toList := List.take_left' hlen
  have hdrop : (v.toList ++ rest).drop n = rest := List.drop_left' hlen
  rw [readExact, dif_pos (by rw [htake, hlen])]
  simp only [htake, hdrop, Prod.mk.injEq, Except.ok.injEq, and_true]
  exact Vector.toList_inj.mp (by simp)

/-- Reading either fills the buffer from the front of the stream, or fails with
the stream exhausted, because it was too short. -/
theorem readExact_cases (s : RecvStream) (n : Nat) :
    (∃ (v : Vector UInt8 n) (rest : Bytes), s.bytes = v.toList ++ rest ∧
      s.readExact n = (.ok v, { s with bytes := rest })) ∨
    (s.bytes.length < n ∧ ∃ e, s.readExact n = (.error e, { s with bytes := [] })) := by
  by_cases h : (s.bytes.take n).length = n
  · let v : Vector UInt8 n := ⟨(s.bytes.take n).toArray, by simpa using h⟩
    have hs : s.bytes = v.toList ++ s.bytes.drop n := by
      simp [v, Vector.toList]
    refine .inl ⟨v, s.bytes.drop n, hs, ?_⟩
    rw [readExact, dif_pos h]
  · refine .inr ⟨?_, ⟨_, by rw [readExact, dif_neg h]⟩⟩
    rw [List.length_take] at h
    omega

end RecvStream

namespace SendStream

/-- A stream nothing was written to. -/
def fresh (capacity : Option Nat) : SendStream := ⟨[], capacity, false⟩

/-- The stream takes `n` more bytes. -/
def Accepts (s : SendStream) (n : Nat) : Prop :=
  s.finished = false ∧ ∀ c ∈ s.capacity, n ≤ c

instance (s : SendStream) (n : Nat) : Decidable (s.Accepts n) :=
  inferInstanceAs (Decidable (_ ∧ _))

/-- `write_all`: send the data; a failing write sends what is still taken. -/
def writeAll (s : SendStream) (data : Bytes) : Except WriteFault Unit × SendStream :=
  if s.finished then (.error .closed, s)
  else if s.Accepts data.length then
    (.ok (), { s with
      written := s.written ++ data
      capacity := s.capacity.map (· - data.length) })
  else
    (.error .failed, { s with
      written := s.written ++ data.take (s.capacity.getD 0)
      capacity := some 0 })

/-- `finish`: no more data will be written. -/
def finish (s : SendStream) : Except WriteFault Unit × SendStream :=
  if s.finished then (.error .closed, s) else (.ok (), { s with finished := true })

/-- The stream after data that it took. -/
def push (s : SendStream) (data : Bytes) : SendStream :=
  { s with
    written := s.written ++ data
    capacity := s.capacity.map (· - data.length) }

@[simp] theorem push_finished (s : SendStream) (data : Bytes) :
    (s.push data).finished = s.finished := rfl

/-- A fresh stream takes a byte unless it takes nothing. -/
theorem fresh_accepts_one {capacity : Option Nat} :
    (fresh capacity).Accepts 1 ↔ capacity ≠ some 0 := by
  unfold Accepts fresh
  cases capacity with
  | none => simp
  | some c => simp [Nat.one_le_iff_ne_zero]

theorem writeAll_of_accepts {s : SendStream} {data : Bytes} (h : s.Accepts data.length) :
    s.writeAll data = (.ok (), s.push data) := by
  rw [writeAll, if_neg (by simp [h.1]), if_pos h]
  rfl

/-- A write of one byte that fails writes nothing. -/
theorem writeAll_singleton_of_not_accepts {s : SendStream} {b : UInt8} (h : ¬ s.Accepts 1) :
    ∃ e s', s.writeAll [b] = (.error e, s') ∧ s'.written = s.written := by
  rw [writeAll]
  split
  · exact ⟨_, s, rfl, rfl⟩
  · rename_i hopen
    rw [if_neg (by simpa using h)]
    refine ⟨_, _, rfl, ?_⟩
    have hzero : s.capacity.getD 0 = 0 := by
      cases hc : s.capacity with
      | none => exact absurd ⟨by simpa using hopen, by simp [hc]⟩ h
      | some c =>
          rcases Nat.eq_zero_or_pos c with rfl | hpos
          · rfl
          · exact absurd ⟨by simpa using hopen, by simpa [hc]⟩ h
    simp [hzero]

theorem finish_of_open {s : SendStream} (h : s.finished = false) :
    s.finish = (.ok (), { s with finished := true }) := by
  rw [finish, if_neg (by simp [h])]

end SendStream

/-! ### Running computations -/

section Run

variable {ε σ α β : Type} {x : ExceptT ε (StateM σ) α} {f : α → ExceptT ε (StateM σ) β} {s s' : σ}

theorem bind_of_ok {a : α} (h : x s = (.ok a, s')) : (x >>= f) s = f a s' := by
  show (match x s with | (r, s₁) => ExceptT.bindCont f r s₁) = f a s'
  rw [h]
  rfl

theorem bind_of_error {e : ε} (h : x s = (.error e, s')) : (x >>= f) s = (.error e, s') := by
  show (match x s with | (r, s₁) => ExceptT.bindCont f r s₁) = _
  rw [h]
  rfl

end Run

end Foundation
