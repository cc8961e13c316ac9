import Std.Data.ExtTreeMap.Lemmas

/-!
# IrohRings.Foundation.Tables

Finite maps iterated in key order, over `Std.ExtTreeMap`. The library states its
lookup lemmas through `compare`; here they are stated through equality of keys,
with their consequences for loops that insert or erase key after key.

`Table.Image f g t t'` says that `t'` is `t` with every key encoded by `f` and
every value by `g`. With an injective `f` it is preserved by parallel updates,
which is how a table of encoded rows is proved to follow the map it encodes.
-/

namespace Foundation

/-- A finite map whose entries are listed in the order of their keys. -/
abbrev Table (κ ν : Type) [Ord κ] : Type := Std.ExtTreeMap κ ν compare

namespace Table

section Lookup

variable {κ ν : Type} [Ord κ] [Std.TransOrd κ]

/-- No two entries of the list of entries have the same key. -/
theorem nodup_map_fst_toList (t : Table κ ν) : (t.toList.map Prod.fst).Nodup := by
  rw [Std.ExtTreeMap.map_fst_toList_eq_keys]
  exact Std.ExtTreeMap.nodup_keys

theorem mem_iff {t : Table κ ν} {k : κ} : k ∈ t ↔ ∃ v, t[k]? = some v := by
  rw [Std.ExtTreeMap.mem_iff_isSome_getElem?, Option.isSome_iff_exists]

theorem get_eq_none {t : Table κ ν} {k : κ} : t[k]? = none ↔ k ∉ t := by
  rw [mem_iff, Option.eq_none_iff_forall_ne_some, not_exists]

variable [Std.LawfulEqOrd κ]

theorem mem_insert_iff {t : Table κ ν} {k k' : κ} {v : ν} :
    k' ∈ t.insert k v ↔ k' = k ∨ k' ∈ t := by
  rw [Std.ExtTreeMap.mem_insert, Std.compare_eq_iff_eq, eq_comm]

variable [DecidableEq κ]

theorem get_insert (t : Table κ ν) (k k' : κ) (v : ν) :
    (t.insert k v)[k']? = if k' = k then some v else t[k']? := by
  rw [Std.ExtTreeMap.getElem?_insert]
  by_cases h : k = k'
  · simp [h]
  · rw [if_neg (by simpa using h), if_neg (Ne.symm h)]

theorem get_erase (t : Table κ ν) (k k' : κ) :
    (t.erase k)[k']? = if k' = k then none else t[k']? := by
  rw [Std.ExtTreeMap.getElem?_erase]
  by_cases h : k = k'
  · simp [h]
  · rw [if_neg (by simpa using h), if_neg (Ne.symm h)]

/-- Erasing the keys of a list, one after the other. -/
theorem get_foldl_erase {ι : Type} (f : ι → κ) (is : List ι) (t : Table κ ν) (k : κ) :
    (is.foldl (fun t i => t.erase (f i)) t)[k]? =
      if k ∈ is.map f then none else t[k]? := by
  induction is generalizing t with
  | nil => simp
  | cons i is ih =>
      rw [List.foldl_cons, ih, get_erase, List.map_cons]
      by_cases h : k = f i <;> by_cases h' : k ∈ is.map f <;> simp [h, h']

/-- Giving the keys of a list the same value, one after the other, unless they
have one. -/
theorem get_foldl_insertIfNew (v : ν) (ks : List κ) (t : Table κ ν) (k : κ) :
    (ks.foldl (fun t k => if t[k]?.isNone then t.insert k v else t) t)[k]? =
      t[k]?.or (if k ∈ ks then some v else none) := by
  induction ks generalizing t with
  | nil => simp
  | cons k' ks ih =>
      rw [List.foldl_cons, ih]
      by_cases hk : k = k'
      · subst hk
        -- from this round on `k` has a value, and keeps it
        cases ht : t[k]? with
        | none => simp
        | some v' => simp [ht]
      · have hget : (if t[k']?.isNone then t.insert k' v else t)[k]? = t[k]? := by
          split
          · rw [get_insert, if_neg hk]
          · rfl
        rw [hget]
        simp [hk]

/-- Looking a key up in a list of rows whose keys are distinct. -/
theorem lookup_eq_some_iff {rows : List (κ × ν)} (hnd : (rows.map Prod.fst).Nodup) {k : κ}
    {v : ν} : rows.lookup k = some v ↔ (k, v) ∈ rows := by
  induction rows with
  | nil => simp
  | cons row rows ih =>
      obtain ⟨k', v'⟩ := row
      obtain ⟨hrow, hnd⟩ := List.nodup_cons.mp hnd
      rw [List.lookup_cons, List.mem_cons]
      by_cases h : k = k'
      · subst h
        have hnot : (k, v) ∉ rows := fun hmem => hrow (List.mem_map.mpr ⟨_, hmem, rfl⟩)
        simp [hnot, eq_comm]
      · simp [h, beq_eq_false_iff_ne.mpr h, ih hnd]

/-- Inserting the rows of one table into another: the new rows win. -/
theorem get_foldl_insert (s t : Table κ ν) (k : κ) :
    (s.toList.foldl (fun t row => t.insert row.1 row.2) t)[k]? = s[k]?.or t[k]? := by
  -- the rows come one by one: by induction on any list of rows with distinct keys
  have hlookup : ∀ rows : List (κ × ν), (rows.map Prod.fst).Nodup → ∀ t : Table κ ν,
      (rows.foldl (fun t row => t.insert row.1 row.2) t)[k]? = (rows.lookup k).or t[k]? := by
    intro rows
    induction rows with
    | nil => simp
    | cons row rows ih =>
        intro hnd t
        obtain ⟨hrow, hnd⟩ := List.nodup_cons.mp hnd
        rw [List.foldl_cons, ih hnd, get_insert, List.lookup_cons]
        by_cases h : k = row.1
        · subst h
          have hnone : rows.lookup row.1 = none := by
            rw [Option.eq_none_iff_forall_ne_some]
            intro v hv
            exact hrow (List.mem_map.mpr ⟨_, (lookup_eq_some_iff hnd).mp hv, rfl⟩)
          simp [hnone]
        · simp [h, beq_eq_false_iff_ne.mpr h]
  rw [hlookup _ (nodup_map_fst_toList s)]
  congr 1
  refine Option.ext fun v => ?_
  rw [lookup_eq_some_iff (nodup_map_fst_toList s),
    Std.ExtTreeMap.mem_toList_iff_getElem?_eq_some]

end Lookup

/-! ### Encoded copies of a table -/

section Image

variable {κ κ' ν ν' : Type} [Ord κ] [Std.TransOrd κ] [Ord κ'] [Std.TransOrd κ']

/-- `t'` holds exactly the rows of `t`, keys encoded by `f` and values by `g`. -/
def Image (f : κ → κ') (g : ν → ν') (t : Table κ ν) (t' : Table κ' ν') : Prop :=
  ∀ k' v', t'[k']? = some v' ↔ ∃ k v, t[k]? = some v ∧ f k = k' ∧ g v = v'

namespace Image

variable {f : κ → κ'} {g : ν → ν'} {t : Table κ ν} {t' : Table κ' ν'}

/-- Looking an encoded key up in the copy. -/
theorem get (h : Image f g t t') (hf : Function.Injective f) (k : κ) :
    t'[f k]? = t[k]?.map g := by
  refine Option.ext fun v' => ?_
  rw [h, Option.map_eq_some_iff]
  refine ⟨fun hex => ?_, fun hex => ?_⟩
  · rcases hex with ⟨k₁, v, hv, hk, rfl⟩
    exact ⟨v, hf hk ▸ hv, rfl⟩
  · rcases hex with ⟨v, hv, rfl⟩
    exact ⟨k, v, hv, rfl, rfl⟩

theorem mem (h : Image f g t t') (hf : Function.Injective f) {k : κ} : f k ∈ t' ↔ k ∈ t := by
  rw [Std.ExtTreeMap.mem_iff_isSome_getElem?, Std.ExtTreeMap.mem_iff_isSome_getElem?, h.get hf,
    Option.isSome_map]

theorem empty : Image f g (∅ : Table κ ν) (∅ : Table κ' ν') := by
  intro k' v'
  simp

theorem exists_key (h : Image f g t t') {k' : κ'} (hk : k' ∈ t') : ∃ k, f k = k' := by
  obtain ⟨v', hv'⟩ := mem_iff.mp hk
  obtain ⟨k, v, -, hk, -⟩ := (h k' v').mp hv'
  exact ⟨k, hk⟩

/-- A table whose keys are all encoded, and that agrees on them, is an image. -/
theorem of_get (hget : ∀ k, t'[f k]? = t[k]?.map g) (hkeys : ∀ k' ∈ t', ∃ k, f k = k') :
    Image f g t t' := by
  intro k' v'
  refine ⟨fun hv' => ?_, fun hex => ?_⟩
  · obtain ⟨k, rfl⟩ := hkeys k' (mem_iff.mpr ⟨v', hv'⟩)
    rw [hget, Option.map_eq_some_iff] at hv'
    obtain ⟨v, hv, hg⟩ := hv'
    exact ⟨k, v, hv, rfl, hg⟩
  · rcases hex with ⟨k, v, hv, rfl, rfl⟩
    rw [hget, hv, Option.map_some]

variable [Std.LawfulEqOrd κ] [DecidableEq κ] [Std.LawfulEqOrd κ'] [DecidableEq κ']

theorem insert (h : Image f g t t') (hf : Function.Injective f) (k : κ) (v : ν) :
    Image f g (t.insert k v) (t'.insert (f k) (g v)) := by
  refine of_get (fun k₁ => ?_) fun k' hk' => ?_
  · rw [get_insert, get_insert, h.get hf]
    by_cases hk : k₁ = k
    · simp [hk]
    · rw [if_neg hk, if_neg (hf.ne hk)]
  · rcases mem_insert_iff.mp hk' with rfl | hk'
    · exact ⟨k, rfl⟩
    · exact h.exists_key hk'

theorem erase (h : Image f g t t') (hf : Function.Injective f) (k : κ) :
    Image f g (t.erase k) (t'.erase (f k)) := by
  refine of_get (fun k₁ => ?_) fun k' hk' => ?_
  · rw [get_erase, get_erase, h.get hf]
    by_cases hk : k₁ = k
    · simp [hk]
    · rw [if_neg hk, if_neg (hf.ne hk)]
  · exact h.exists_key (Std.ExtTreeMap.mem_of_mem_erase hk')

omit [Std.LawfulEqOrd κ] [DecidableEq κ] in
/-- Erasing many rows: one after the other in the copy, by whatever means in the
table itself. -/
theorem foldl_erase (h : Image f g t t') (hf : Function.Injective f) {ι : Type} (key : ι → κ')
    (is : List ι) {t₁ : Table κ ν}
    (hget : ∀ k, t₁[k]? = if f k ∈ is.map key then none else t[k]?) :
    Image f g t₁ (is.foldl (fun rows i => rows.erase (key i)) t') := by
  refine of_get (fun k => ?_) fun k' hk' => ?_
  · rw [get_foldl_erase, hget, h.get hf]
    split
    · rfl
    · rfl
  · obtain ⟨v', hv'⟩ := mem_iff.mp hk'
    rw [get_foldl_erase] at hv'
    split at hv'
    · cases hv'
    · exact h.exists_key (mem_iff.mpr ⟨v', hv'⟩)

end Image

end Image

end Table

end Foundation
