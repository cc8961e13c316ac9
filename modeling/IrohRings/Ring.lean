import Mathlib.Data.List.Nodup
import IrohRings.Foundation.Bytes

/-!
# IrohRings.Ring

Errors and ring names (`src/error.rs`, `src/ring.rs`).

A `Ring` here carries the proof that its name passed `Ring.new`'s checks, so a
ring with an invalid name cannot be built. The creation timestamp of the source
is left out: equality and hashing of rings ignore it.
-/

namespace IrohRings

/-- The errors of the public API. -/
inductive Error
  | ringNameEmpty
  | ringNameInvalidChars
  | ringNameReserved (name : String)
  | ringAlreadyExists (name : String)
  | ringNotFound (name : String)
  | resourceIdTooLong (len : Nat)
  | unknownStatusByte (byte : UInt8)
  | unknownOperationByte (byte : UInt8)
  | openRingReadOnly
  | emptyPermissionSet
  /-- A storage error, with the text of the error it wraps. -/
  | storage (message : String)
  deriving DecidableEq, Repr

/-- A byte as `{:#04x}` shows it. -/
def hexByte (byte : UInt8) : String :=
  String.ofList ['0', 'x', Nat.digitChar (byte.toNat / 16), Nat.digitChar (byte.toNat % 16)]

/-- What an error says. -/
def Error.text : Error → String
  | ringNameEmpty => "ring name must not be empty"
  | ringNameInvalidChars => "ring name must not contain whitespace or NUL bytes"
  | ringNameReserved name => s!"'{name}' is a reserved ring name"
  | ringAlreadyExists name => s!"ring '{name}' already exists"
  | ringNotFound name => s!"ring '{name}' not found"
  | resourceIdTooLong len => s!"resource id length {len} exceeds maximum"
  | unknownStatusByte byte => "unexpected status byte: " ++ hexByte byte
  | unknownOperationByte byte => "unknown operation byte: " ++ hexByte byte
  | openRingReadOnly => "the open ring may only be associated with Read permission"
  | emptyPermissionSet => "permission set must not be empty"
  | storage message => s!"storage error: {message}"

/-- How a call can fail to return a value: an `Err`, or a panic such as a failed
`expect`. -/
inductive Fault
  | err (e : Error)
  | panic (message : String)
  deriving DecidableEq, Repr

/-- What a fallible call yields. -/
abbrev Outcome (α : Type) : Type := Except Fault α

/-- `Err(e)`. -/
abbrev Outcome.err {α : Type} (e : Error) : Outcome α := .error (.err e)

/-- A traversal all of whose steps succeed: what a `view` of the results shows. -/
theorem Outcome.mapM_eq_ok {α β γ : Type} {f : α → Outcome β} (view : β → γ) {g : α → γ}
    {l : List α} (h : ∀ a ∈ l, ∃ b, f a = .ok b ∧ view b = g a) :
    ∃ bs : List β, l.mapM f = .ok bs ∧ bs.map view = l.map g := by
  induction l with
  | nil => exact ⟨[], rfl, rfl⟩
  | cons a l ih =>
      obtain ⟨b, hb, hview⟩ := h a (by simp)
      obtain ⟨bs, hbs, hmap⟩ := ih fun a ha => h a (by simp [ha])
      refine ⟨b :: bs, ?_, by rw [List.map_cons, hview, hmap, List.map_cons]⟩
      rw [List.mapM_cons, hb, hbs]
      rfl

/-- Reserved name of the built-in open ring. -/
def openRingName : String := "open"

/-- `char::is_whitespace`: the Unicode `White_Space` property. -/
def isWhitespace (c : Char) : Bool :=
  let v := c.val.toNat
  (0x09 ≤ v && v ≤ 0x0D) || v == 0x20 || v == 0x85 || v == 0xA0 || v == 0x1680 ||
    (0x2000 ≤ v && v ≤ 0x200A) || v == 0x2028 || v == 0x2029 || v == 0x202F ||
    v == 0x205F || v == 0x3000

/-- The characters `Ring.new` rejects. -/
def isInvalidChar (c : Char) : Bool := isWhitespace c || c == '\x00'

/-- The names `Ring.new` accepts. -/
def ValidName (name : String) : Prop :=
  name ≠ "" ∧ name.toList.any isInvalidChar = false

instance (name : String) : Decidable (ValidName name) :=
  inferInstanceAs (Decidable (_ ∧ _))

/-- A named group of peers. -/
structure Ring where
  name : String
  valid : ValidName name
  deriving DecidableEq

namespace Ring

/-- Create a ring with the given name. -/
def new (name : String) : Except Error Ring :=
  if hempty : name = "" then .error .ringNameEmpty
  else if hchars : name.toList.any isInvalidChar = true then .error .ringNameInvalidChars
  else .ok ⟨name, hempty, by simpa using hchars⟩

/-- The built-in open ring. -/
def newOpen : Ring := ⟨openRingName, by decide⟩

/-- Is this the built-in open ring? -/
def isOpen (r : Ring) : Bool := r.name == openRingName

/-- `Ring::new(name).expect(message)`. -/
def newExpect (message name : String) : Outcome Ring :=
  match Ring.new name with
  | .ok ring => .ok ring
  | .error _ => .error (.panic message)

@[ext] theorem ext {r r' : Ring} (h : r.name = r'.name) : r = r' := by
  cases r; cases r'; cases h; rfl

@[simp] theorem new_of_valid {name : String} (h : ValidName name) :
    Ring.new name = .ok ⟨name, h⟩ := by
  rw [Ring.new, dif_neg h.1, dif_neg (by rw [h.2]; exact Bool.false_ne_true)]

/-- `Ring.new` accepts exactly the valid names. -/
theorem new_eq_ok {name : String} {r : Ring} :
    Ring.new name = .ok r ↔ ValidName name ∧ r.name = name := by
  constructor
  · intro h
    by_cases hv : ValidName name
    · rw [new_of_valid hv] at h
      exact ⟨hv, by rw [← Except.ok.inj h]⟩
    · unfold Ring.new at h
      split at h
      · cases h
      · split at h
        · cases h
        · rename_i h1 h2
          exact absurd ⟨h1, by simpa using h2⟩ hv
  · intro hand
    rcases hand with ⟨hv, rfl⟩
    rw [new_of_valid hv]

@[simp] theorem newExpect_of_valid {message name : String} (h : ValidName name) :
    Ring.newExpect message name = .ok ⟨name, h⟩ := by
  simp [Ring.newExpect, h]

/-- Wrapping stored names: every one of them is valid, so no `expect` fails. -/
theorem mapM_newExpect (message : String) {names : List String}
    (h : ∀ name ∈ names, ValidName name) :
    ∃ rings : List Ring, names.mapM (Ring.newExpect message) = .ok rings ∧
      rings.map Ring.name = names := by
  obtain ⟨rings, hok, hmap⟩ := Outcome.mapM_eq_ok Ring.name (f := Ring.newExpect message)
    (g := fun name => name) (l := names) fun name hname =>
      ⟨⟨name, h name hname⟩, newExpect_of_valid (h name hname), rfl⟩
  exact ⟨rings, hok, by rw [hmap, List.map_id']⟩

/-- Why `Ring.new` rejects a name. -/
theorem new_of_invalid {name : String} (h : ¬ ValidName name) :
    Ring.new name = .error (if name = "" then .ringNameEmpty else .ringNameInvalidChars) := by
  unfold Ring.new
  by_cases hempty : name = ""
  · rw [dif_pos hempty, if_pos hempty]
  · rw [dif_neg hempty, if_neg hempty, dif_pos]
    by_contra hchars
    exact h ⟨hempty, by simpa using hchars⟩

end Ring

theorem validName_open : ValidName openRingName := Ring.newOpen.valid

/-- Listing stored names: the open ring first, then the others. Each ring is
listed once, and those listed are those stored. -/
theorem Ring.mapM_newExpect_filter (message : String) {names : List String}
    (hnodup : names.Nodup) (hvalid : ∀ name ∈ names, ValidName name)
    (hopen : openRingName ∈ names) :
    ∃ rings : List Ring,
      (names.filter (· ≠ openRingName)).mapM (Ring.newExpect message) = .ok rings ∧
        (Ring.newOpen :: rings).Nodup ∧
          ∀ ring, ring ∈ Ring.newOpen :: rings ↔ ring.name ∈ names := by
  have hvalid' : ∀ name ∈ names.filter (· ≠ openRingName), ValidName name :=
    fun name hname => hvalid name (List.mem_filter.mp hname).1
  obtain ⟨rings, hok, hmap⟩ := Ring.mapM_newExpect message hvalid'
  have hmem : ∀ ring, ring ∈ rings ↔ ring.name ∈ names ∧ ring.name ≠ openRingName := by
    intro ring
    rw [← List.mem_map_of_injective (fun _ _ => Ring.ext), hmap, List.mem_filter]
    simp
  refine ⟨rings, hok, List.nodup_cons.mpr ⟨fun h => ((hmem _).mp h).2 rfl, ?_⟩, fun ring => ?_⟩
  · refine List.Nodup.of_map Ring.name ?_
    rw [hmap]
    exact hnodup.filter _
  · rw [List.mem_cons, hmem]
    by_cases hname : ring.name = openRingName
    · rw [hname]
      exact iff_of_true (.inl (Ring.ext hname)) hopen
    · have : ring ≠ Ring.newOpen := fun h => hname (congrArg Ring.name h)
      simp [hname, this]

/-- A valid name has no NUL, the separator of the stored keys. -/
theorem ValidName.nul_notMem {name : String} (h : ValidName name) : '\x00' ∉ name.toList := by
  intro hmem
  have := List.any_eq_false.mp h.2 _ hmem
  simp [isInvalidChar] at this

end IrohRings
