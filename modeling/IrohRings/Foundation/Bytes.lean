import Mathlib.Algebra.Order.Group.Nat
import Mathlib.Data.List.Flatten
import Mathlib.Tactic.Ring

/-!
# IrohRings.Foundation.Bytes

Byte strings and the three ways a flat byte string is cut back into parts:

* at a **fixed width** (`asChunks`), which inverts concatenation of vectors;
* at a **separator byte** (`List.splitOn`), which inverts joining as long as no
  part contains the separator — for text, as long as the text is NUL-free
  (`zero_notMem_asBytes`);
* as a **little-endian integer** of a fixed width (`toLe`/`ofLe`).

Text is Lean's `String`, which carries its UTF-8 encoding; `asBytes` reads it
off and `fromUtf8` is its partial inverse.
-/

namespace Foundation

/-- A byte string. -/
abbrev Bytes : Type := List UInt8

/-! ### Fixed-width chunks -/

section Chunks

variable {α : Type} {n : Nat}

/-- Cut `k` chunks of width `n` off the front, stopping early when the list
runs short. -/
def takeChunks (n : Nat) : Nat → List α → List (Vector α n)
  | 0, _ => []
  | k + 1, l =>
    if h : (l.take n).length = n then
      ⟨(l.take n).toArray, by simpa using h⟩ :: takeChunks n k (l.drop n)
    else []

/-- All the whole chunks of width `n`; a shorter remainder is dropped. -/
def asChunks (n : Nat) (l : List α) : List (Vector α n) :=
  takeChunks n (l.length / n) l

/-- The concatenation of the chunks. -/
def concatChunks (vs : List (Vector α n)) : List α := vs.flatMap Vector.toList

@[simp] theorem concatChunks_nil : concatChunks ([] : List (Vector α n)) = [] := rfl

@[simp] theorem concatChunks_cons (v : Vector α n) (vs : List (Vector α n)) :
    concatChunks (v :: vs) = v.toList ++ concatChunks vs := by
  simp [concatChunks]

@[simp] theorem length_concatChunks (vs : List (Vector α n)) :
    (concatChunks vs).length = vs.length * n := by
  induction vs with
  | nil => simp
  | cons v vs ih => simp [ih]; ring

theorem takeChunks_append (v : Vector α n) (k : Nat) (l : List α) :
    takeChunks n (k + 1) (v.toList ++ l) = v :: takeChunks n k l := by
  have hlen : v.toList.length = n := by simp
  have htake : (v.toList ++ l).take n = v.toList := by
    rw [List.take_append_of_le_length hlen.ge, List.take_of_length_le hlen.le]
  have hdrop : (v.toList ++ l).drop n = l := by
    rw [List.drop_append_of_le_length hlen.ge, List.drop_of_length_le hlen.le,
      List.nil_append]
  rw [takeChunks, dif_pos (by rw [htake]; exact hlen), hdrop]
  congr 1
  rw [← Vector.toList_inj]
  simp [htake]

theorem takeChunks_concatChunks (vs : List (Vector α n)) :
    takeChunks n vs.length (concatChunks vs) = vs := by
  induction vs with
  | nil => rfl
  | cons v vs ih => rw [concatChunks_cons, List.length_cons, takeChunks_append, ih]

/-- Cutting a concatenation at the width of its chunks gives the chunks back. -/
@[simp] theorem asChunks_concatChunks (hn : 0 < n) (vs : List (Vector α n)) :
    asChunks n (concatChunks vs) = vs := by
  rw [asChunks, length_concatChunks, Nat.mul_div_cancel _ hn, takeChunks_concatChunks]

end Chunks

/-- A list of `n` bytes is a buffer. -/
theorem exists_vector {n : Nat} {l : Bytes} (h : l.length = n) :
    ∃ v : Vector UInt8 n, v.toList = l :=
  ⟨⟨l.toArray, by simpa using h⟩, rfl⟩

/-! ### Little-endian integers -/

/-- The `w` low bytes of `n`, least significant first. -/
def toLe : Nat → Nat → Bytes
  | 0, _ => []
  | w + 1, n => UInt8.ofNat (n % 256) :: toLe w (n / 256)

/-- The integer a little-endian byte string denotes. -/
def ofLe : Bytes → Nat
  | [] => 0
  | b :: bs => b.toNat + 256 * ofLe bs

@[simp] theorem length_toLe (w n : Nat) : (toLe w n).length = w := by
  induction w generalizing n with
  | zero => rfl
  | succ w ih => simp [toLe, ih]

theorem ofLe_toLe {w n : Nat} (h : n < 256 ^ w) : ofLe (toLe w n) = n := by
  induction w generalizing n with
  | zero => simp only [pow_zero, Nat.lt_one_iff] at h; simp [toLe, ofLe, h]
  | succ w ih =>
      have hdiv : n / 256 < 256 ^ w := by
        rw [Nat.div_lt_iff_lt_mul (by norm_num)]; rwa [pow_succ] at h
      rw [toLe, ofLe, ih hdiv, UInt8.toNat_ofNat']
      -- the low byte goes to the head, the rest is divided by 256
      omega

theorem toLe_ofLe (bs : Bytes) : toLe bs.length (ofLe bs) = bs := by
  induction bs with
  | nil => rfl
  | cons b bs ih =>
      have hb : b.toNat < 256 := b.toNat_lt
      have hlow : (b.toNat + 256 * ofLe bs) % 256 = b.toNat := by omega
      have hhigh : (b.toNat + 256 * ofLe bs) / 256 = ofLe bs := by omega
      rw [List.length_cons, toLe, ofLe, hlow, hhigh, ih, UInt8.ofNat_toNat]

theorem ofLe_lt (bs : Bytes) : ofLe bs < 256 ^ bs.length := by
  induction bs with
  | nil => simp [ofLe]
  | cons b bs ih =>
      have hb : b.toNat < 256 := b.toNat_lt
      rw [ofLe, List.length_cons, pow_succ]
      omega

/-! ### Text -/

/-- The UTF-8 bytes of a string. -/
def asBytes (s : String) : Bytes := s.toUTF8.data.toList

/-- The string a byte string is the UTF-8 encoding of, if any. -/
def fromUtf8 (bs : Bytes) : Option String := String.fromUTF8? bs.toByteArray

theorem toByteArray_asBytes (s : String) : (asBytes s).toByteArray = s.toByteArray := by
  apply ByteArray.ext
  simp [asBytes]

theorem asBytes_injective : Function.Injective asBytes := by
  intro s t h
  rw [← String.toByteArray_inj, ← toByteArray_asBytes, h, toByteArray_asBytes]

@[simp] theorem asBytes_inj {s t : String} : asBytes s = asBytes t ↔ s = t :=
  asBytes_injective.eq_iff

theorem asBytes_ofList (cs : List Char) :
    asBytes (String.ofList cs) = cs.flatMap String.utf8EncodeChar := by
  simp [asBytes, List.utf8Encode]

theorem asBytes_eq_flatMap (s : String) :
    asBytes s = s.toList.flatMap String.utf8EncodeChar := by
  rw [← asBytes_ofList, String.ofList_toList]

@[simp] theorem asBytes_eq_nil {s : String} : asBytes s = [] ↔ s = "" := by
  rw [show ([] : Bytes) = asBytes "" from rfl, asBytes_inj]

@[simp] theorem fromUtf8_asBytes (s : String) : fromUtf8 (asBytes s) = some s := by
  rw [fromUtf8, toByteArray_asBytes, String.fromUTF8?, dif_pos s.isValidUTF8]
  rfl

theorem fromUtf8_eq_some {bs : Bytes} {s : String} : fromUtf8 bs = some s ↔ bs = asBytes s := by
  refine ⟨fun h => ?_, fun heq => ?_⟩
  · rw [fromUtf8, String.fromUTF8?] at h
    split at h
    · obtain rfl := Option.some.inj h
      simp [asBytes, String.fromUTF8]
    · cases h
  · subst heq
    exact fromUtf8_asBytes s

/-- Only the NUL character encodes to a byte string with a zero byte. -/
theorem eq_nul_of_zero_mem {c : Char} (h : 0 ∈ String.utf8EncodeChar c) : c = '\x00' := by
  suffices hv : c.val.toNat = 0 by
    exact Char.ext (UInt32.toNat_inj.mp hv)
  -- a number that is not 0 mod 256 is not stored as the zero byte
  have key : ∀ m, m % 256 ≠ 0 → (0 : UInt8) ≠ UInt8.ofNat m := by
    intro m hm h0
    have := congrArg UInt8.toNat h0
    rw [UInt8.toNat_ofNat'] at this
    exact hm (by simpa using this.symm)
  unfold String.utf8EncodeChar at h
  extract_lets v at h
  by_cases h1 : v ≤ 0x7f
  · rw [if_pos h1, List.mem_singleton] at h
    by_contra hne
    exact key v (by omega) h
  · exfalso
    rw [if_neg h1] at h
    split at h
    · simp only [List.mem_cons, List.not_mem_nil, or_false] at h
      rcases h with h | h <;> exact key _ (by omega) h
    · split at h <;> simp only [List.mem_cons, List.not_mem_nil, or_false] at h
      · rcases h with h | h | h <;> exact key _ (by omega) h
      · rcases h with h | h | h | h <;> exact key _ (by omega) h

/-- NUL-free text has no zero byte, so a zero byte separates such texts. -/
theorem zero_notMem_asBytes {s : String} (h : '\x00' ∉ s.toList) : 0 ∉ asBytes s := by
  rw [asBytes_eq_flatMap, List.mem_flatMap]
  intro hmem
  rcases hmem with ⟨c, hc, hzero⟩
  exact h (eq_nul_of_zero_mem hzero ▸ hc)

end Foundation
