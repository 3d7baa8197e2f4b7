import Mathlib.Algebra.Group.Int.Defs
import Mathlib.Data.Int.Order.Basic
import Mathlib.Data.List.TakeWhile
import Mathlib.Data.Rat.Defs

/-!
# JSON values

JSON values as a library keeps them, and the typed getters through which a program reads them.

## Values

A number without a fraction is an integer of any size.  A library has its own bounds, commonly from
`-2^63` to `2^64 - 1`, so there are integers that a signed getter of 64 bits does not hold.  Other
numbers are exact.  A string is any bytes, a NUL included: JSON writes it as an escape.  An object
is a finite map, of several members with one name the first; a member that is added replaces one of
its name.

## Getters

What a getter returns for a value of another type is the business of the library, so the getters are
parameters.  Two structures say what is documented of them.  `JsonLib.Exact` is about values that
fit: a getter returns what a value of its own type holds.  `JsonLib.OutOfRange` is about values that
do not: an integer is clamped, and a string comes back as a `char *`, which ends at its first NUL.

* `Json.get_add`: what an object holds after a member is added.
* `JsonLib.Exact`, `JsonLib.OutOfRange`: what a library documents of its getters.
* `JsonLib.getString_eq_iff`: **a string comes back whole exactly when it holds no NUL.**
-/

namespace LibSigma.Library

/-- A JSON value. -/
inductive Json where
  | null
  | bool (b : Bool)
  | int (i : ℤ)
  | double (q : ℚ)
  | str (s : List UInt8)
  | arr (elems : List Json)
  | obj (members : List (List UInt8 × Json))

namespace Json

/-- The members of an object; of several with one name the first counts. -/
def members : Json → List (List UInt8 × Json)
  | .obj ms => ms
  | _ => []

/-- The member of a name. -/
def get (j : Json) (name : List UInt8) : Option Json := j.members.lookup name

/-- An object with one more member, in place of one of its name. -/
def add (j : Json) (name : List UInt8) (value : Json) : Json := .obj ((name, value) :: j.members)

/-- A member that may be missing. -/
def addSome (j : Json) (name : List UInt8) : Option Json → Json
  | some value => j.add name value
  | none => j

@[simp] theorem get_add (j : Json) (name name' : List UInt8) (value : Json) :
    (j.add name value).get name' = if name' = name then some value else j.get name' := by
  rw [get, add, members, List.lookup_cons]
  by_cases h : name' = name
  · rw [if_pos h, beq_iff_eq.mpr h]
  · rw [if_neg h, beq_eq_false_iff_ne.mpr h]
    rfl

@[simp] theorem get_add_self (j : Json) (name : List UInt8) (value : Json) :
    (j.add name value).get name = some value := by rw [get_add, if_pos rfl]

theorem get_add_ne {j : Json} {name name' : List UInt8} {value : Json} (h : name' ≠ name) :
    (j.add name value).get name' = j.get name' := by rw [get_add, if_neg h]

theorem get_addSome_ne {j : Json} {name name' : List UInt8} {value : Option Json}
    (h : name' ≠ name) : (j.addSome name value).get name' = j.get name' := by
  cases value with
  | none => rfl
  | some v => exact get_add_ne h

theorem get_addSome_self {j : Json} {name : List UInt8} {value : Option Json}
    (h : j.get name = none) : (j.addSome name value).get name = value := by
  cases value with
  | none => exact h
  | some v => exact get_add_self j name v

end Json

/-- The typed getters of a library. -/
structure JsonLib where
  getInt : Json → Int32
  getInt64 : Json → Int64
  getDouble : Json → ℚ
  getString : Json → List UInt8

/-- The getters are exact on the values that their types hold. -/
structure JsonLib.Exact (lib : JsonLib) : Prop where
  int : ∀ i : Int32, lib.getInt (.int i.toInt) = i
  int64 : ∀ i : Int64, lib.getInt64 (.int i.toInt) = i
  double : ∀ q : ℚ, lib.getDouble (.double q) = q
  string : ∀ s : List UInt8, 0 ∉ s → lib.getString (.str s) = s

/-- What the getters do with values that their types do not hold. -/
structure JsonLib.OutOfRange (lib : JsonLib) : Prop where
  above : ∀ i : ℤ, 2 ^ 63 ≤ i → lib.getInt64 (.int i) = Int64.maxValue
  below : ∀ i : ℤ, i < -2 ^ 63 → lib.getInt64 (.int i) = Int64.minValue
  nul : ∀ j : Json, 0 ∉ lib.getString j

/-- **A string comes back whole exactly when it holds no NUL.** -/
theorem JsonLib.getString_eq_iff {lib : JsonLib} (h : lib.Exact) (hrange : lib.OutOfRange)
    {s : List UInt8} : lib.getString (.str s) = s ↔ 0 ∉ s := by
  refine ⟨fun heq hmem => hrange.nul (.str s) ?_, h.string s⟩
  rwa [heq]

/-- Getters that clamp integers, end strings at a NUL, and return nothing of a value of another
type. -/
def JsonLib.strict : JsonLib where
  getInt
    | .int i => Int32.ofInt (max (-2 ^ 31) (min i (2 ^ 31 - 1)))
    | _ => 0
  getInt64
    | .int i => Int64.ofInt (max (-2 ^ 63) (min i (2 ^ 63 - 1)))
    | _ => 0
  getDouble
    | .double q => q
    | _ => 0
  getString
    | .str s => s.takeWhile (· ≠ 0)
    | _ => []

theorem JsonLib.strict_exact : JsonLib.strict.Exact where
  int i := by
    have hlo := Int32.le_toInt i
    have hhi := Int32.toInt_lt i
    show Int32.ofInt (max (-2 ^ 31) (min i.toInt (2 ^ 31 - 1))) = i
    rw [min_eq_left (by omega), max_eq_right (by omega), Int32.ofInt_toInt]
  int64 i := by
    have hlo := Int64.le_toInt i
    have hhi := Int64.toInt_lt i
    show Int64.ofInt (max (-2 ^ 63) (min i.toInt (2 ^ 63 - 1))) = i
    rw [min_eq_left (by omega), max_eq_right (by omega), Int64.ofInt_toInt]
  double _ := rfl
  string s hs := by
    refine List.takeWhile_eq_self_iff.mpr fun b hb => decide_eq_true ?_
    rintro rfl
    exact hs hb

theorem JsonLib.strict_outOfRange : JsonLib.strict.OutOfRange where
  above i h := by
    show Int64.ofInt (max (-2 ^ 63) (min i (2 ^ 63 - 1))) = _
    rw [min_eq_right (by omega), max_eq_right (by omega)]
    rfl
  below i h := by
    show Int64.ofInt (max (-2 ^ 63) (min i (2 ^ 63 - 1))) = _
    rw [min_eq_left (by omega), max_eq_left (by omega)]
    rfl
  nul j hmem := by
    cases j with
    | str s =>
      have hcut : (0 : UInt8) ∈ s.takeWhile (· ≠ 0) := hmem
      have hne : (0 : UInt8) ≠ 0 := by simpa using List.mem_takeWhile_imp hcut
      exact hne rfl
    | _ => cases hmem

/-- A signed number of 64 bits narrowed to 32 is the number if it fits. -/
theorem toUInt32_of_range {i : Int64} (hlo : 0 ≤ i.toInt) (hhi : i.toInt ≤ 2 ^ 32 - 1) :
    (i.toUInt64.toUInt32.toNat : ℤ) = i.toInt := by
  have hnonneg : 0 ≤ i := Int64.le_iff_toInt_le.mpr hlo
  have hnat : (i.toUInt64.toNat : ℤ) = i.toInt := by
    rw [Int64.toNat_toUInt64_of_le hnonneg]
    exact Int64.cast_toNatClampNeg i hnonneg
  rw [UInt64.toNat_toUInt32]
  omega

end LibSigma.Library
