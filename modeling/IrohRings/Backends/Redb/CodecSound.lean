import Mathlib.Tactic.NormNum
import IrohRings.Backends.Redb.Codec

/-!
# IrohRings.Backends.Redb.CodecSound

The decoders of the redb backend invert its encoders:

* member lists and member keys, unconditionally — a member key ends in a fixed
  33 bytes, so it splits whatever the ring name is (`splitMemberKey_memberKey`);
* expiries, up to the clamp at the UNIX epoch (`decodeExpiry_encodeExpiry`);
* ring name lists, when every name is valid (`decodeRingNames_encodeRingNames`);
* permission sets, as sets (`mem_byteToPerms_permsToByte`);
* association keys, **only** below the 65536 bytes a `u16` length can tell apart
  (`permKey_eq_iff`, `permKey_injective`).
-/

namespace IrohRings

open Foundation

/-! ### Member lists and member keys -/

@[simp] theorem decodePeerIds_encodePeerIds (ids : List PeerBytes) :
    decodePeerIds (encodePeerIds ids) = ids :=
  asChunks_concatChunks (by norm_num) ids

theorem length_encodePeerIds (ids : List PeerBytes) :
    (encodePeerIds ids).length = ids.length * 32 :=
  length_concatChunks ids

/-- Equal member keys name the same ring and peer. -/
theorem memberKeyOf_inj {r r' : String} {p p' : PeerBytes} :
    memberKeyOf r p = memberKeyOf r' p' ↔ r = r' ∧ p = p' := by
  refine ⟨fun h => ?_, fun hand => ?_⟩
  · obtain ⟨hring, hpeer⟩ := List.append_inj' h (by simp)
    obtain ⟨hname, -⟩ := List.append_inj' hring rfl
    exact ⟨asBytes_injective hname, Vector.toList_inj.mp hpeer⟩
  · rcases hand with ⟨rfl, rfl⟩
    rfl

section

variable [EndpointKeys]

theorem memberKey_eq (r : String) (p : EndpointId) :
    memberKey r p = memberKeyOf r p.asBytes := rfl

/-- A name, a byte and a peer id split into the name and the peer, whatever the byte
is. -/
theorem splitMemberKey_append (r : String) (sep : UInt8) (p : EndpointId) :
    splitMemberKey (asBytes r ++ [sep] ++ p.asBytes.toList) = .ok (r, p) := by
  have hlen : p.asBytes.toList.length = 32 := by simp
  generalize hkey : asBytes r ++ [sep] ++ p.asBytes.toList = key
  have hcut : key.length - 32 = (asBytes r ++ [sep]).length := by
    rw [← hkey, List.length_append, hlen, Nat.add_sub_cancel]
  have hge : ¬ key.length < 33 := by
    rw [← hkey, List.length_append, hlen, List.length_append, List.length_singleton]
    omega
  have htake : key.take (key.length - 32) = asBytes r ++ [sep] := by
    rw [hcut, ← hkey, List.take_left]
  have hdrop : key.drop (key.length - 32) = p.asBytes.toList := by
    rw [hcut, ← hkey, List.drop_left]
  have hname : (asBytes r ++ [sep]).take ((asBytes r ++ [sep]).length - 1) = asBytes r := by
    rw [List.length_append, List.length_singleton, Nat.add_sub_cancel, List.take_left]
  have hpeer : (⟨p.asBytes.toList.toArray, by simp⟩ : PeerBytes) = p.asBytes :=
    Vector.toList_inj.mp (by simp)
  rw [splitMemberKey, if_neg hge]
  simp only [htake, hdrop, hname, fromUtf8_asBytes]
  rw [dif_pos (by simp), hpeer, EndpointId.fromBytes_asBytes]

/-- Splitting a stored key gives back the ring and the peer it was made from. -/
@[simp] theorem splitMemberKey_memberKey (r : String) (p : EndpointId) :
    splitMemberKey (memberKey r p) = .ok (r, p) :=
  splitMemberKey_append r 0 p

end

/-! ### Expiries -/

/-- The instant a stored expiry stands for: times before the epoch are clamped
to it. -/
def clamp (t : SystemTime) : SystemTime := max unixEpoch t

theorem clamp_of_le {t : SystemTime} (h : unixEpoch ≤ t) : clamp t = t := max_eq_right h

theorem unixEpoch_le_clamp (t : SystemTime) : unixEpoch ≤ clamp t := le_max_left _ _

/-- Clamping an expiry decides no comparison with an instant from the epoch on. -/
theorem clamp_le_iff {t now : SystemTime} (h : unixEpoch ≤ now) : clamp t ≤ now ↔ t ≤ now := by
  rw [clamp, max_le_iff]
  exact ⟨And.right, fun ht => ⟨h, ht⟩⟩

theorem toNat_sinceEpoch (t : SystemTime) :
    ((t.sinceEpoch.toNat : Nat) : Int) = (clamp t).sinceEpoch := by
  rcases le_total unixEpoch t with h | h
  · rw [clamp_of_le h]
    exact Int.toNat_of_nonneg h
  · rw [clamp, max_eq_left h]
    exact congrArg Int.ofNat (Int.toNat_of_nonpos h)

/-- A stored expiry reads back as the clamped instant, and never fails to. -/
@[simp] theorem decodeExpiry_encodeExpiry (t : SystemTime) :
    decodeExpiry (encodeExpiry t) = .ok (clamp t) := by
  have hclamp := toNat_sinceEpoch t
  have hupper := (clamp t).upper
  generalize hd : t.sinceEpoch.toNat = d at hclamp
  have hlt : d < 2 ^ 63 * nanosPerSec := by
    rw [← hclamp] at hupper; exact_mod_cast hupper
  unfold nanosPerSec at hlt
  have hsecs : (UInt64.ofNat (d / nanosPerSec)).toNat = d / nanosPerSec := by
    rw [UInt64.toNat_ofNat']
    exact Nat.mod_eq_of_lt (by unfold nanosPerSec; omega)
  have hnanos : (UInt32.ofNat (d % nanosPerSec)).toNat = d % nanosPerSec := by
    rw [UInt32.toNat_ofNat']
    exact Nat.mod_eq_of_lt (by unfold nanosPerSec; omega)
  have htotal : d / nanosPerSec * nanosPerSec + d % nanosPerSec = d :=
    Nat.div_add_mod' d nanosPerSec
  -- `Duration::new` has nothing to carry
  have hcarry : ¬ 2 ^ 64 ≤ d / nanosPerSec + d % nanosPerSec / nanosPerSec := by
    unfold nanosPerSec; omega
  unfold decodeExpiry encodeExpiry
  simp only [hd, hsecs, hnanos, htotal]
  rw [if_neg hcarry, dif_pos (by unfold nanosPerSec; exact hlt)]
  exact congrArg Except.ok (SystemTime.ext hclamp)

/-! ### Permissions -/

theorem permissionBit_ne_zero (q : Permission) : permissionBit q ≠ 0 := by
  cases q <;> decide

/-- Bits of different permissions do not overlap. -/
theorem permissionBit_and (p q : Permission) :
    permissionBit p &&& permissionBit q = if p = q then permissionBit q else 0 := by
  cases p <;> cases q <;> decide

theorem uint8_or_and_eq_zero (a b m : UInt8) :
    (a ||| b) &&& m = 0 ↔ a &&& m = 0 ∧ b &&& m = 0 := by
  rw [← UInt8.toBitVec_inj, ← UInt8.toBitVec_inj, ← UInt8.toBitVec_inj]
  simp only [UInt8.toBitVec_and, UInt8.toBitVec_or, UInt8.toBitVec_zero]
  rw [BitVec.eq_of_getLsbD_eq_iff, BitVec.eq_of_getLsbD_eq_iff, BitVec.eq_of_getLsbD_eq_iff,
    ← forall_and]
  refine forall_congr' fun i => ?_
  simp only [BitVec.getLsbD_and, BitVec.getLsbD_or, BitVec.getLsbD_zero]
  cases a.toBitVec.getLsbD i <;> cases b.toBitVec.getLsbD i <;>
    cases m.toBitVec.getLsbD i <;> simp

/-- The bits the fold of `permsToByte` sets, on top of those it started with. -/
theorem foldl_permissionBit_and (ps : List Permission) (q : Permission) (bits : UInt8) :
    ps.foldl (fun bits p => bits ||| permissionBit p) bits &&& permissionBit q = 0 ↔
      bits &&& permissionBit q = 0 ∧ q ∉ ps := by
  induction ps generalizing bits with
  | nil => simp
  | cons p ps ih =>
      have hp : permissionBit p &&& permissionBit q = 0 ↔ q ≠ p := by
        rw [permissionBit_and]
        by_cases h : p = q
        · simp [h, permissionBit_ne_zero]
        · simpa [h] using fun h' : q = p => h h'.symm
      rw [List.foldl_cons, ih, uint8_or_and_eq_zero, hp, List.mem_cons, not_or, and_assoc]

/-- A permission's bit is set exactly when the permission is in the set. -/
theorem permsToByte_and_eq_zero {ps : List Permission} {q : Permission} :
    permsToByte ps &&& permissionBit q = 0 ↔ q ∉ ps := by
  rw [permsToByte, foldl_permissionBit_and]
  simp

/-- Reading a bitfield back lists the permissions whose bit is set. -/
theorem mem_byteToPerms {bits : UInt8} {q : Permission} :
    q ∈ byteToPerms bits ↔ bits &&& permissionBit q ≠ 0 := by
  have hlit : (0b001 : UInt8) = permissionBit .read ∧ (0b010 : UInt8) = permissionBit .write ∧
      (0b100 : UInt8) = permissionBit .delete := ⟨rfl, rfl, rfl⟩
  unfold byteToPerms
  rw [hlit.1, hlit.2.1, hlit.2.2]
  by_cases hr : bits &&& permissionBit .read = 0 <;>
    by_cases hw : bits &&& permissionBit .write = 0 <;>
      by_cases hd : bits &&& permissionBit .delete = 0 <;>
        cases q <;> simp [hr, hw, hd]

/-- Bitfields that read back as the same set read back as the same list. -/
theorem byteToPerms_congr {bits bits' : UInt8}
    (h : ∀ q, q ∈ byteToPerms bits ↔ q ∈ byteToPerms bits') :
    byteToPerms bits = byteToPerms bits' := by
  have hbit : ∀ q, bits &&& permissionBit q ≠ 0 ↔ bits' &&& permissionBit q ≠ 0 := fun q => by
    rw [← mem_byteToPerms, ← mem_byteToPerms, h q]
  have hr := hbit .read
  have hw := hbit .write
  have hd := hbit .delete
  simp only [permissionBit] at hr hw hd
  simp only [byteToPerms, hr, hw, hd]

/-- The permissions read back from a stored set are those of the set. -/
theorem mem_byteToPerms_permsToByte {ps : List Permission} {q : Permission} :
    q ∈ byteToPerms (permsToByte ps) ↔ q ∈ ps := by
  rw [mem_byteToPerms, ne_eq, permsToByte_and_eq_zero, not_not]

/-- The fold of `permsToByte` only touches bits 0 to 2. -/
theorem foldl_permissionBit_le (ps : List Permission) (bits : UInt8) (h : bits ≤ 7) :
    ps.foldl (fun bits p => bits ||| permissionBit p) bits ≤ 7 := by
  have hor : ∀ b : UInt8, b ≤ 7 → ∀ p, b ||| permissionBit p ≤ 7 := by
    intro b hb p
    have hb' : b.toNat < 2 ^ 3 := Nat.lt_succ_of_le hb
    have hp : (permissionBit p).toNat < 2 ^ 3 := by cases p <;> decide
    exact Nat.le_of_lt_succ (by simpa using Nat.or_lt_two_pow hb' hp)
  induction ps generalizing bits with
  | nil => exact h
  | cons p ps ih => exact ih _ (hor bits h p)

theorem permsToByte_le (ps : List Permission) : permsToByte ps ≤ 7 :=
  foldl_permissionBit_le ps 0 (by decide)

theorem permsToByte_ne_zero {ps : List Permission} (h : ps ≠ []) : permsToByte ps ≠ 0 := by
  obtain ⟨q, hq⟩ := List.exists_mem_of_ne_nil ps h
  intro hzero
  refine permsToByte_and_eq_zero.mp ?_ hq
  rw [hzero, UInt8.zero_and]

/-- A non-empty set of `Read` alone is stored as the `Read` bit. -/
theorem permsToByte_read {ps : List Permission} (hne : ps ≠ []) (h : ∀ q ∈ ps, q = .read) :
    permsToByte ps = permissionBit .read := by
  have hfold : ∀ (ps : List Permission), (∀ q ∈ ps, q = .read) →
      ps.foldl (fun bits p => bits ||| permissionBit p) (permissionBit .read) =
        permissionBit .read := by
    intro ps
    induction ps with
    | nil => intro _; rfl
    | cons p ps ih =>
        intro hall
        rw [List.foldl_cons, hall p (by simp), UInt8.or_self]
        exact ih fun q hq => hall q (by simp [hq])
  cases ps with
  | nil => exact absurd rfl hne
  | cons p ps =>
      rw [permsToByte, List.foldl_cons, h p (by simp), UInt8.zero_or]
      exact hfold ps fun q hq => h q (by simp [hq])

/-- Two associations have the same key exactly when their ids are equally long modulo
65536 and, followed by the names, spell the same bytes. -/
theorem permKey_eq_iff {a b : Bytes} {r s : String} :
    permKey a r = permKey b s ↔
      a.length % 65536 = b.length % 65536 ∧ a ++ asBytes r = b ++ asBytes s := by
  have hlen : ∀ id : Bytes, (UInt16.ofNat id.length).toNat = id.length % 65536 := fun id =>
    UInt16.toNat_ofNat'
  have hlt : ∀ id : Bytes, id.length % 65536 < 256 ^ 2 := fun id => Nat.mod_lt _ (by decide)
  unfold permKey
  simp only [hlen, List.append_assoc]
  refine ⟨fun h => ?_, fun hand => ?_⟩
  · obtain ⟨hlead, hrest⟩ := List.append_inj h (by simp)
    have hsame := congrArg ofLe hlead
    rw [ofLe_toLe (hlt a), ofLe_toLe (hlt b)] at hsame
    exact ⟨hsame, hrest⟩
  · rw [hand.1, hand.2]

/-- **Isolation of associations**: below 65536 bytes, equal association keys
name the same resource and ring. -/
theorem permKey_injective {a b : Bytes} {r s : String} (ha : a.length < 65536)
    (hb : b.length < 65536) (h : permKey a r = permKey b s) : a = b ∧ r = s := by
  obtain ⟨hmod, hspell⟩ := permKey_eq_iff.mp h
  rw [Nat.mod_eq_of_lt ha, Nat.mod_eq_of_lt hb] at hmod
  obtain ⟨hid, hname⟩ := List.append_inj hspell hmod
  exact ⟨hid, asBytes_injective hname⟩

/-! ### Ring name lists -/

/-- The encoding loop, once something was written: a NUL before every name. -/
theorem foldl_encodeRingNamesStep (names : List String) (buf : Bytes) :
    names.foldl encodeRingNamesStep (buf, false) =
      (buf ++ names.flatMap fun name => 0 :: asBytes name, false) := by
  induction names generalizing buf with
  | nil => simp
  | cons name names ih => simp [encodeRingNamesStep, ih]

/-- The encoding loop joins the names with a NUL. -/
theorem encodeRingNames_eq (names : List String) :
    encodeRingNames names = [(0 : UInt8)].intercalate (names.map asBytes) := by
  cases names with
  | nil => rfl
  | cons name names =>
      rw [encodeRingNames, List.foldl_cons]
      simp only [encodeRingNamesStep, if_true, List.nil_append]
      rw [foldl_encodeRingNamesStep]
      induction names generalizing name with
      | nil => simp
      | cons name' names ih =>
          rw [List.map_cons, List.map_cons, List.intercalate_cons_cons, ← List.map_cons, ← ih name']
          simp

@[simp] theorem fromUtf8Lossy_asBytes (s : String) : fromUtf8Lossy (asBytes s) = s := by
  simp [fromUtf8Lossy]

/-- Valid names survive being stored as one NUL-separated byte string. -/
theorem decodeRingNames_encodeRingNames {names : List String}
    (h : ∀ name ∈ names, ValidName name) : decodeRingNames (encodeRingNames names) = names := by
  cases names with
  | nil => rfl
  | cons name names =>
      have hsplit : (encodeRingNames (name :: names)).splitOn 0 =
          (name :: names).map asBytes := by
        rw [encodeRingNames_eq]
        -- no name has the separator in it
        refine List.splitOn_intercalate 0 (fun l hl => ?_) (by simp)
        obtain ⟨n, hn, rfl⟩ := List.mem_map.mp hl
        exact zero_notMem_asBytes (h n hn).nul_notMem
      have hne : (encodeRingNames (name :: names)).isEmpty = false := by
        have hname : asBytes name ≠ [] := fun h' => (h name (by simp)).1 (asBytes_eq_nil.mp h')
        rw [Bool.eq_false_iff, ne_eq, List.isEmpty_iff]
        intro hnil
        rw [hnil, List.splitOn_nil, List.map_cons] at hsplit
        exact hname (List.cons.inj hsplit).1.symm
      have hid : fromUtf8Lossy ∘ asBytes = id := funext fromUtf8Lossy_asBytes
      rw [decodeRingNames, hne, if_neg (by simp), hsplit, List.map_map, hid, List.map_id]

end IrohRings
