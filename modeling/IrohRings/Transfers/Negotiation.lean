import IrohRings.Transfers.Fs

/-!
# IrohRings.Transfers.Negotiation

Which chunks a transfer sends: the receiving peer writes the ranges it has
(`encodeRangesWire`), the sender reads them (`decodeRangesWire`) and exports the
others.

Decoding is the union of the entries, whatever bytes they are read from, and
fails exactly when there are too few of them (`decodeRangesWire_spec`). Encoding
may lose ranges, an unbounded last one and those a `u32` cannot count, but it
makes none up: what the sender takes to be there is part of what the peer has,
and so every chunk the peer lacks is sent (`negotiation_keeps_chunks`).
-/

namespace IrohRings

open Foundation

/-! ### Entries -/

/-- The `i`-th entry of the range data: a start and an end. -/
def entryAt (raw : Bytes) (i : Nat) : ChunkNum × ChunkNum :=
  (chunkNumAt raw (i * rangeEntryBytes), chunkNumAt raw (i * rangeEntryBytes + 8))

/-- The first `count` entries. -/
def entries (count : Nat) (raw : Bytes) : List (ChunkNum × ChunkNum) :=
  (List.range count).map (entryAt raw)

/-- The bytes of an entry. -/
def entryBytes (p : ChunkNum × ChunkNum) : Bytes := toLe 8 p.1.toNat ++ toLe 8 p.2.toNat

@[simp] theorem length_entryBytes (p : ChunkNum × ChunkNum) :
    (entryBytes p).length = rangeEntryBytes := by
  simp [entryBytes, rangeEntryBytes]

theorem length_flatMap_entryBytes (ps : List (ChunkNum × ChunkNum)) :
    (ps.flatMap entryBytes).length = ps.length * rangeEntryBytes := by
  induction ps with
  | nil => simp
  | cons p ps ih =>
      rw [List.flatMap_cons, List.length_append, length_entryBytes, ih, List.length_cons,
        Nat.succ_mul, Nat.add_comm]

@[simp] theorem length_entries (count : Nat) (raw : Bytes) :
    (entries count raw).length = count := by
  simp [entries]

theorem mem_entries {count : Nat} {raw : Bytes} {p : ChunkNum × ChunkNum} :
    p ∈ entries count raw ↔ ∃ i < count, entryAt raw i = p := by
  simp [entries]

/-- A chunk number is read where it was written. -/
theorem chunkNumAt_append (before : Bytes) (c : ChunkNum) (rest : Bytes) :
    chunkNumAt (before ++ (toLe 8 c.toNat ++ rest)) before.length = c := by
  have htake : ((before ++ (toLe 8 c.toNat ++ rest)).drop before.length).take 8 =
      toLe 8 c.toNat := by
    rw [List.drop_left, List.take_left' (length_toLe 8 _)]
  apply Fin.ext
  show ofLe _ = c.toNat
  rw [htake]
  exact ofLe_toLe (Fin.isLt c)

theorem chunkNumAt_append_right (before raw : Bytes) (offset : Nat) :
    chunkNumAt (before ++ raw) (before.length + offset) = chunkNumAt raw offset := by
  apply Fin.ext
  show ofLe _ = ofLe _
  rw [List.drop_length_add_append]

theorem entryAt_zero (p : ChunkNum × ChunkNum) (raw : Bytes) :
    entryAt (entryBytes p ++ raw) 0 = p := by
  have hstart := chunkNumAt_append [] p.1 (toLe 8 p.2.toNat ++ raw)
  have hstop := chunkNumAt_append (toLe 8 p.1.toNat) p.2 raw
  rw [length_toLe] at hstop
  rw [entryAt, entryBytes, List.append_assoc, Nat.zero_mul, Nat.zero_add]
  exact Prod.ext hstart hstop

theorem entryAt_succ (p : ChunkNum × ChunkNum) (raw : Bytes) (i : Nat) :
    entryAt (entryBytes p ++ raw) (i + 1) = entryAt raw i := by
  have hoffset : (i + 1) * rangeEntryBytes = (entryBytes p).length + i * rangeEntryBytes := by
    rw [length_entryBytes, Nat.succ_mul, Nat.add_comm]
  rw [entryAt, hoffset, Nat.add_assoc, chunkNumAt_append_right, chunkNumAt_append_right, entryAt]

/-- Entries read back as they were written, up to the number asked for. -/
theorem entries_flatMap (ps : List (ChunkNum × ChunkNum)) (rest : Bytes) {n : Nat}
    (hn : n ≤ ps.length) : entries n (ps.flatMap entryBytes ++ rest) = ps.take n := by
  induction ps generalizing n with
  | nil =>
      obtain rfl : n = 0 := Nat.le_zero.mp hn
      rfl
  | cons p ps ih =>
      cases n with
      | zero => rfl
      | succ n =>
          have htail : (entryAt ((p :: ps).flatMap entryBytes ++ rest)) ∘ Nat.succ =
              entryAt (ps.flatMap entryBytes ++ rest) := by
            funext i
            rw [List.flatMap_cons, List.append_assoc]
            exact entryAt_succ p _ i
          rw [entries, List.range_succ_eq_map, List.map_cons, List.map_map, htail,
            List.take_succ_cons, ← ih (Nat.le_of_succ_le_succ hn), entries, List.flatMap_cons,
            List.append_assoc, entryAt_zero]

/-! ### Decoding -/

/-- The loop of `decodeRangesWire`: the entries are united one by one, and the
first one that is not there ends it. -/
theorem decodeRangesLoop_eq (raw : Bytes) {ranges : ChunkRanges} {i n : Nat}
    (hi : i * rangeEntryBytes ≤ raw.length) :
    decodeRangesLoop raw ranges i n =
      if (i + n) * rangeEntryBytes ≤ raw.length then
        .ok (((List.range' i n).map (entryAt raw)).foldl
          (fun r p => r.union (.ofRange p.1 p.2)) ranges)
      else .error (.msg s!"range data truncated at index {raw.length / rangeEntryBytes}") := by
  induction n generalizing ranges i with
  | zero => rw [Nat.add_zero, if_pos hi]; rfl
  | succ n ih =>
      have hnext : (i + 1) * rangeEntryBytes = i * rangeEntryBytes + rangeEntryBytes :=
        Nat.succ_mul _ _
      rw [decodeRangesLoop]
      by_cases hfit : i * rangeEntryBytes + rangeEntryBytes > raw.length
      · -- the entry at `i` is the first that is cut off
        have hindex : raw.length / rangeEntryBytes = i :=
          Nat.div_eq_of_lt_le hi (by rw [hnext]; exact hfit)
        have hshort : ¬ (i + (n + 1)) * rangeEntryBytes ≤ raw.length := by
          refine not_le.mpr (hfit.trans_le ?_)
          rw [← hnext]
          exact Nat.mul_le_mul_right _ (by omega)
        rw [if_pos hfit, if_neg hshort, hindex]
      · rw [if_neg hfit, ih (by rw [hnext]; exact not_lt.mp hfit),
          show i + 1 + n = i + (n + 1) by omega, List.range'_succ, List.map_cons, List.foldl_cons]
        rfl

/-- **Decoding** is the union of the entries, if they all are there. -/
theorem decodeRangesWire_eq (count : Nat) (raw : Bytes) :
    decodeRangesWire count raw =
      if count * rangeEntryBytes ≤ raw.length then .ok (Ranges.ofPairs (entries count raw))
      else .error (.msg s!"range data truncated at index {raw.length / rangeEntryBytes}") := by
  rw [decodeRangesWire, decodeRangesLoop_eq raw (by simp), Nat.zero_add, entries,
    List.range_eq_range', Ranges.ofPairs]

/-- A slice that is looked at is there. -/
theorem u64Slice_eq {raw : Bytes} {start stop : Nat} (hstop : stop ≤ raw.length)
    (hlen : start + 8 = stop) : u64Slice raw start stop = some (chunkNumAt raw start) := by
  rw [u64Slice, if_pos ⟨by omega, hstop, by omega⟩]

/-- **Decoding does not panic**: no index overflows, and every slice is there. -/
theorem decodeRangesSliced_eq (raw : Bytes) {ranges : ChunkRanges} {i n : Nat}
    (hcount : i + n ≤ 2 ^ 32) :
    decodeRangesSliced raw ranges i n = some (decodeRangesLoop raw ranges i n) := by
  induction n generalizing ranges i with
  | zero => rfl
  | succ n ih =>
      have hsmall : ¬ 2 ^ 64 ≤ i * rangeEntryBytes + rangeEntryBytes := by
        unfold rangeEntryBytes
        omega
      rw [decodeRangesSliced, decodeRangesLoop]
      simp only [if_neg hsmall]
      by_cases hfit : i * rangeEntryBytes + rangeEntryBytes > raw.length
      · rw [if_pos hfit, if_pos hfit]
      · rw [if_neg hfit, if_neg hfit, u64Slice_eq (by unfold rangeEntryBytes at hfit ⊢; omega) rfl,
          u64Slice_eq (not_lt.mp hfit) (by unfold rangeEntryBytes; omega)]
        exact ih (by omega)

/-! ### Encoding -/

/-- The loop of `encodeRangesWire` writes the pairs that are left. -/
theorem encodeRangesLoop_eq (boundaries : List ChunkNum) (out : Bytes) (i : Nat) :
    encodeRangesLoop boundaries out i =
      out ++ (pairUp (boundaries.drop i)).flatMap entryBytes := by
  induction out, i using encodeRangesLoop.induct boundaries with
  | case1 out i h out₁ out₂ ih =>
      have hdrop : boundaries.drop i =
          boundaries[i] :: boundaries[i + 1] :: boundaries.drop (i + 2) := by
        rw [List.drop_eq_getElem_cons (Nat.lt_of_succ_lt h), List.drop_eq_getElem_cons h]
      rw [encodeRangesLoop, dif_pos h, ih, hdrop, pairUp, List.flatMap_cons]
      simp only [out₂, out₁, entryBytes, List.append_assoc]
  | case2 out i h =>
      -- at most one boundary is left
      have hlen : (boundaries.drop i).length ≤ 1 := by
        rw [List.length_drop]
        omega
      have hnone : pairUp (boundaries.drop i) = [] := by
        rw [← List.length_eq_zero_iff, length_pairUp]
        omega
      rw [encodeRangesLoop, dif_neg h, hnone, List.flatMap_nil, List.append_nil]

/-- How many ranges the count field says there are. -/
def wireCount (ranges : ChunkRanges) : Nat := ranges.boundaries.length / 2 % 2 ^ 32

/-- **The encoding**: the count, then every range that has an end. -/
theorem encodeRangesWire_eq (ranges : ChunkRanges) :
    encodeRangesWire ranges =
      toLe 4 (wireCount ranges) ++ (pairUp ranges.boundaries).flatMap entryBytes := by
  rw [encodeRangesWire, encodeRangesLoop_eq, UInt32.toNat_ofNat', List.drop_zero]
  rfl

theorem wireCount_lt (ranges : ChunkRanges) : wireCount ranges < 2 ^ 32 :=
  Nat.mod_lt _ (by decide)

/-- No more ranges are counted than are written. -/
theorem wireCount_le (ranges : ChunkRanges) :
    wireCount ranges ≤ (pairUp ranges.boundaries).length := by
  rw [length_pairUp]
  exact Nat.mod_le _ _

/-- A `u32` counts them all if there are few enough. -/
theorem wireCount_eq {ranges : ChunkRanges} (h : (pairUp ranges.boundaries).length < 2 ^ 32) :
    wireCount ranges = (pairUp ranges.boundaries).length := by
  rw [length_pairUp] at h ⊢
  exact Nat.mod_eq_of_lt h

/-- What a reader of the encoding takes the ranges to be. -/
def wireRanges (ranges : ChunkRanges) : ChunkRanges :=
  .ofPairs ((pairUp ranges.boundaries).take (wireCount ranges))

/-- **Nothing is made up**: what is read is part of what was written. -/
theorem contains_of_wireRanges {ranges : ChunkRanges} {c : ChunkNum}
    (h : (wireRanges ranges).contains c = true) : ranges.contains c = true := by
  obtain ⟨p, hp, hc⟩ := Ranges.contains_ofPairs.mp h
  exact Ranges.contains_iff_within.mpr (.inl ⟨p, List.mem_of_mem_take hp, hc⟩)

/-- **Nothing is lost** of ranges that all have an end and that a `u32` counts. -/
theorem wireRanges_eq {ranges : ChunkRanges} (hbounded : ranges.Bounded)
    (hfew : (pairUp ranges.boundaries).length < 2 ^ 32) : wireRanges ranges = ranges := by
  rw [wireRanges, wireCount_eq hfew, List.take_length, hbounded.ofPairs_pairUp]

/-- The count field and the entries of an encoding, decoded. -/
def readRangesWire (wire : Bytes) : Except AnyError ChunkRanges :=
  decodeRangesWire (ofLe (wire.take 4)) (wire.drop 4)

theorem readRangesWire_encodeRangesWire (ranges : ChunkRanges) :
    readRangesWire (encodeRangesWire ranges) = .ok (wireRanges ranges) := by
  have hfit : wireCount ranges * rangeEntryBytes ≤
      ((pairUp ranges.boundaries).flatMap entryBytes).length := by
    rw [length_flatMap_entryBytes]
    exact Nat.mul_le_mul_right _ (wireCount_le ranges)
  have hentries := entries_flatMap (pairUp ranges.boundaries) [] (wireCount_le ranges)
  rw [List.append_nil] at hentries
  rw [readRangesWire, encodeRangesWire_eq, List.take_left' (length_toLe 4 _),
    List.drop_left' (length_toLe 4 _), ofLe_toLe (wireCount_lt ranges), decodeRangesWire_eq,
    if_pos hfit, hentries, wireRanges]

/-! ### Untrusted bytes -/

/-- A decoded set comes back from its own encoding: it has an end, and no more
ranges than entries were read. -/
theorem wireRanges_ofPairs {ps : List (ChunkNum × ChunkNum)} (h : ps.length < 2 ^ 32) :
    wireRanges (.ofPairs ps) = .ofPairs ps := by
  refine wireRanges_eq (Ranges.bounded_ofPairs ps) ?_
  have := Ranges.length_boundaries_ofPairs_le ps
  rw [length_pairUp]
  omega

/-- **Decoding whatever a peer sends.** No slice and no index is out of range; the
bytes are refused exactly if they are too few; otherwise the result is what is
within one of the entries, in whatever order these come, and it comes back from its
own encoding. -/
theorem decodeRangesWire_spec (count : UInt32) (raw : Bytes) :
    decodeRangesSliced raw .empty 0 count.toNat = some (decodeRangesWire count.toNat raw) ∧
    ((∃ e, decodeRangesWire count.toNat raw = .error e) ↔ raw.length < 16 * count.toNat) ∧
    (∀ ranges, decodeRangesWire count.toNat raw = .ok ranges →
      (∀ c, ranges.contains c = true ↔
        ∃ i < count.toNat, chunkNumAt raw (16 * i) ≤ c ∧ c < chunkNumAt raw (16 * i + 8)) ∧
      readRangesWire (encodeRangesWire ranges) = .ok ranges) ∧
    ∀ raw' : Bytes, 16 * count.toNat ≤ raw.length → 16 * count.toNat ≤ raw'.length →
      (entries count.toNat raw).Perm (entries count.toNat raw') →
      decodeRangesWire count.toNat raw = decodeRangesWire count.toNat raw' := by
  have hwidth : ∀ i, i * rangeEntryBytes = 16 * i := fun i => Nat.mul_comm _ _
  refine ⟨decodeRangesSliced_eq raw (by have := count.toNat_lt; omega), ?_, fun ranges hok => ?_,
    fun raw' hraw hraw' hperm => ?_⟩
  · rw [decodeRangesWire_eq, hwidth]
    split
    · rename_i hfit
      simp [not_lt.mpr hfit]
    · rename_i hshort
      simp [not_le.mp hshort]
  · rw [decodeRangesWire_eq] at hok
    split at hok
    · obtain rfl := Except.ok.inj hok
      constructor
      · intro c
        simp only [Ranges.contains_ofPairs, mem_entries, exists_exists_and_eq_and, Within, entryAt,
          hwidth]
      · rw [readRangesWire_encodeRangesWire, wireRanges_ofPairs]
        rw [length_entries]
        exact count.toNat_lt
    · cases hok
  · rw [decodeRangesWire_eq, decodeRangesWire_eq, hwidth, if_pos hraw, if_pos hraw',
      Ranges.ofPairs_perm hperm]

/-! ### The transfer -/

namespace StreamM

variable {context : String} {n : Nat} {s : Streams}

theorem readExact_of {v : Vector UInt8 n} {rest : Bytes} (h : s.recv.bytes = v.toList ++ rest) :
    readExact context n s = (.ok v, { s with recv := { s.recv with bytes := rest } }) := by
  have hread : s.recv.readExact n = (.ok v, { s.recv with bytes := rest }) := by
    have := RecvStream.readExact_append v rest s.recv.reset
    rwa [← h] at this
  show ((s.recv.readExact n).1.mapError _, { s with recv := (s.recv.readExact n).2 }) = _
  rw [hread]
  rfl

end StreamM

namespace FsTransfer

variable {σ : Type} {t : FsTransfer σ} {hash : Hash} {send : SendStream} {reset : Bool}

/-- **The transfer**: it reads a count and as many entries, and exports every chunk
that is in none of them. -/
theorem transfer_of_entries {count : Nat} (hcount : count < 2 ^ 32) {data : Bytes}
    (hdata : data.length = count * rangeEntryBytes) (rest : Bytes) :
    t.transfer hash.toList ⟨send, ⟨toLe 4 count ++ (data ++ rest), reset⟩⟩ =
      exportTo t.store hash (Ranges.all.diff (.ofPairs (entries count data)))
        ⟨send, ⟨rest, reset⟩⟩ := by
  obtain ⟨countBuf, hbuf⟩ := exists_vector (length_toLe 4 count)
  have hread : ofLe countBuf.toList = count := by
    rw [hbuf, ofLe_toLe hcount]
  have hdecode : decodeRangesWire count data = .ok (.ofPairs (entries count data)) := by
    rw [decodeRangesWire_eq, if_pos hdata.ge]
  have hhash : hashOfId hash.toList = some hash := hashOfId_eq_some.mpr rfl
  unfold transfer
  rw [bind_of_ok (StreamM.readExact_of (v := countBuf) (by rw [hbuf]))]
  dsimp only
  split
  · obtain ⟨buf, hbuf⟩ := exists_vector (n := ofLe countBuf.toList * rangeEntryBytes) (l := data)
      (by rw [hread, hdata])
    rw [bind_of_ok (StreamM.readExact_of (v := buf) (by rw [hbuf])),
      bind_of_ok (a := data) (by rw [hbuf]; rfl),
      bind_of_ok (a := Ranges.ofPairs (entries count data)) (by rw [hread, hdecode]; rfl)]
    simp only [hhash]
  · -- nothing is read if there are no entries
    rename_i hzero
    have hnil : data = [] := by
      rw [← List.length_eq_zero_iff, hdata]
      rw [hread] at hzero
      omega
    rw [bind_of_ok (a := data) (by rw [hnil]; rfl),
      bind_of_ok (a := Ranges.ofPairs (entries count data)) (by rw [hread, hdecode]; rfl)]
    simp only [hhash]
    rw [hnil, List.nil_append]

/-- The transfer to a peer that holds `held`. -/
theorem transfer_of_encodeRangesWire (held : ChunkRanges) (rest : Bytes) :
    t.transfer hash.toList ⟨send, ⟨encodeRangesWire held ++ rest, reset⟩⟩ =
      exportTo t.store hash (Ranges.all.diff (wireRanges held))
        ⟨send, ⟨((pairUp held.boundaries).drop (wireCount held)).flatMap entryBytes ++ rest,
          reset⟩⟩ := by
  let counted := (pairUp held.boundaries).take (wireCount held)
  have hlen : counted.length = wireCount held := List.length_take_of_le (wireCount_le held)
  -- the pairs that are not counted stay in the stream
  have hwire : encodeRangesWire held ++ rest = toLe 4 (wireCount held) ++
      (counted.flatMap entryBytes ++
        (((pairUp held.boundaries).drop (wireCount held)).flatMap entryBytes ++ rest)) := by
    rw [encodeRangesWire_eq, List.append_assoc, ← List.append_assoc (counted.flatMap entryBytes),
      ← List.flatMap_append, List.take_append_drop]
  have hentries : entries (wireCount held) (counted.flatMap entryBytes) = counted := by
    have := entries_flatMap counted [] hlen.ge
    rwa [List.append_nil, ← hlen, List.take_length, hlen] at this
  rw [hwire, transfer_of_entries (wireCount_lt held) (by rw [length_flatMap_entryBytes, hlen]),
    hentries]
  rfl

end FsTransfer

/-- **Range negotiation never loses a chunk.** Whatever the peer holds, its encoding
decodes to a part of it, and the transfer exports everything else: every chunk the
peer lacks, and no other if its ranges are bounded and fewer than a `u32` counts. -/
theorem negotiation_keeps_chunks {σ : Type} (held : ChunkRanges) :
    ∃ decoded, readRangesWire (encodeRangesWire held) = .ok decoded ∧
      (∀ c, decoded.contains c = true → held.contains c = true) ∧
      (∀ c, held.contains c = false → (Ranges.all.diff decoded).contains c = true) ∧
      (held.Bounded → (pairUp held.boundaries).length < 2 ^ 32 →
        decoded = held ∧
          ∀ c, held.contains c = true → (Ranges.all.diff decoded).contains c = false) ∧
      ∀ (t : FsTransfer σ) (hash : Hash) (send : SendStream) (rest : Bytes) (reset : Bool),
        ∃ unread, t.transfer hash.toList ⟨send, ⟨encodeRangesWire held ++ rest, reset⟩⟩ =
          FsTransfer.exportTo t.store hash (Ranges.all.diff decoded) ⟨send, ⟨unread, reset⟩⟩ := by
  refine ⟨wireRanges held, readRangesWire_encodeRangesWire held, fun c => contains_of_wireRanges,
    fun c hc => ?_, fun hbounded hfew => ?_, fun t hash send rest reset =>
      ⟨_, t.transfer_of_encodeRangesWire held rest⟩⟩
  · rw [Ranges.contains_diff, Ranges.contains_all, Bool.true_and, Bool.not_eq_true',
      Bool.eq_false_iff]
    intro hdecoded
    rw [contains_of_wireRanges hdecoded] at hc
    cases hc
  · rw [wireRanges_eq hbounded hfew]
    exact ⟨rfl, fun c hc => by rw [Ranges.contains_diff, hc, Bool.not_true, Bool.and_false]⟩

end IrohRings
