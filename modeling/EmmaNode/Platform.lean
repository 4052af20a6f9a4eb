import Mathlib.Algebra.Group.Int.Defs
import Mathlib.Algebra.GroupWithZero.Nat
import Mathlib.Data.List.Basic
import Mathlib.Data.Int.DivMod

/-! Bytes, C strings and what the program takes from the machine it runs on.
A C string is the list of the bytes before its terminator. -/

namespace EmmaNode

abbrev Text := List UInt8

def chars (cs : List Char) : Text := cs.map Char.toUInt8

/-- The string a buffer holds: its bytes up to the first zero. -/
def cString (buffer : Text) : Text := buffer.takeWhile (· ≠ 0)

/-- What `snprintf` leaves in a buffer of `size` bytes, terminator excluded. -/
def snprintf (size : Nat) (s : Text) : Text := s.take (size - 1)

def decimal (n : Nat) : Text := chars (Nat.toDigits 10 n)

def hexadecimal (n : Nat) : Text := chars (Nat.toDigits 16 n)

/-- `%d` -/
def formatInt : Int → Text
  | .ofNat n => decimal n
  | .negSucc n => chars ['-'] ++ decimal (n + 1)

/-- The table `resources_roots`, in its order. -/
inductive Root where
  | agent
  | resource
  | system
  deriving DecidableEq

namespace Root

def all : List Root := [agent, resource, system]

/-- Position in `resources_roots`; root ids count from one. -/
def index : Root → Nat
  | agent => 0
  | resource => 1
  | system => 2

def name : Root → Text
  | agent => chars ['A']
  | resource => chars ['L']
  | system => chars ['S']

end Root

/-- How a `cfs_open`, `cfs_seek`, `cfs_write` sequence ends: without a byte written
when the file cannot be opened or sought, else with the value `cfs_write` returns
and what the file then holds. -/
inductive CfsOutcome where
  | refused
  | wrote (returned : Int) (file : Text)

/-- What C and the libraries leave open. `pointerBytes` are the bytes `strlen` meets
after a name that fills its sixteen: those of the data pointer behind it, up to its
first zero. `patternTail` is the memory behind the terminator of an agent pattern,
`front` and `behind` the stack around the buffer of `root_system_read`: the byte so
many places in front of it, and the bytes `strlen` meets when a name fills it. -/
structure Platform where
  intBits : Nat
  intBits_ge : 16 ≤ intBits
  pointerBytes : Root → Nat → Text
  patternTail : Nat → Nat → UInt8
  front : Nat → UInt8
  behind : Nat → Text
  moduloByZero : Int → Int
  cfsWrite : Option Text → Int → Text → CfsOutcome
  /-- `random_rand`, by seed and number of earlier draws -/
  random : Nat → Nat → UInt16
  nodeId : UInt16

/-- Files are arrays of bytes; a write goes where it is told, or nowhere. -/
def storeBytes (file : Option Text) (offset : Int) (bytes : Text) : CfsOutcome :=
  let old := file.getD []
  if 0 ≤ offset ∧ offset ≤ old.length then
    .wrote bytes.length
      (old.take offset.toNat ++ bytes ++ old.drop (offset.toNat + bytes.length))
  else .refused

/-- A machine with integers of 32 bits, and zeros in all the memory that was not written. -/
def Platform.plain : Platform where
  intBits := 32
  intBits_ge := by decide
  pointerBytes _ _ := []
  patternTail _ _ := 0
  front _ := 0
  behind _ := []
  moduloByZero _ := 0
  cfsWrite := storeBytes
  random _ _ := 0
  nodeId := 1

/-- The value an `int` keeps of `x`. -/
def Platform.int (P : Platform) (x : Int) : Int := x.bmod (2 ^ P.intBits)

/-- The value an `unsigned int` keeps of `x`. -/
def Platform.unsigned (P : Platform) (x : Int) : Nat := (x % 2 ^ P.intBits).toNat

theorem Platform.int_eq (P : Platform) {x : Int} (low : -32768 ≤ x) (high : x < 32768) :
    P.int x = x := by
  have pow : (2 : Int) ^ 16 ≤ ((2 ^ P.intBits : Nat) : Int) := by
    exact_mod_cast Nat.pow_le_pow_right (by decide) P.intBits_ge
  refine Int.bmod_eq_of_le ?_ ?_ <;> omega

theorem Platform.pow_intBits (P : Platform) :
    2 ^ 15 ≤ 2 ^ (P.intBits - 1) ∧ 2 ^ P.intBits = 2 * 2 ^ (P.intBits - 1) := by
  have wide := P.intBits_ge
  refine ⟨Nat.pow_le_pow_right (by decide) (by omega), ?_⟩
  rw [← Nat.pow_succ', Nat.succ_eq_add_one, Nat.sub_add_cancel (by omega)]

theorem Platform.int_lt (P : Platform) (x : Int) : P.int x < (2 ^ (P.intBits - 1) : Nat) := by
  have upper := Int.bmod_lt (x := x) (m := 2 ^ P.intBits) (Nat.two_pow_pos _)
  rw [Platform.int]
  have := P.pow_intBits.2
  omega

theorem Platform.int_index (P : Platform) {n : Nat} (h : n < 2 ^ (P.intBits - 1)) : P.int n = n := by
  have := P.pow_intBits.2
  refine Int.bmod_eq_of_le ?_ ?_ <;> omega

theorem Platform.int_or_negative (P : Platform) {n : Nat} (h : n < 2 ^ P.intBits) :
    P.int n = n ∨ P.int n < 0 := by
  have kept : (n : Int) % ((2 ^ P.intBits : Nat) : Int) = n := Int.emod_eq_of_lt (by omega) (by omega)
  rw [Platform.int, Int.bmod_def, kept]
  split
  · exact .inl rfl
  · exact .inr (by omega)

theorem Platform.int_nat (P : Platform) {n : Nat} (h : n < 65536) : P.int n = n ∨ P.int n < 0 := by
  have := P.pow_intBits
  exact P.int_or_negative (by omega)

theorem Platform.ofInt_int (P : Platform) (x : Int) : UInt16.ofInt (P.int x) = UInt16.ofInt x := by
  have wrapped : P.int x % 2 ^ 16 = x % 2 ^ 16 := by
    have divides : (2 : Int) ^ 16 ∣ ((2 ^ P.intBits : Nat) : Int) := by
      exact_mod_cast Nat.pow_dvd_pow 2 P.intBits_ge
    rw [Platform.int, ← Int.emod_emod_of_dvd _ divides, Int.bmod_emod,
      Int.emod_emod_of_dvd _ divides]
  rw [UInt16.ofInt, UInt16.ofInt, wrapped]

theorem ofInt_nat {n : Nat} (small : n < 65536) : UInt16.ofInt n = UInt16.ofNat n := by
  rw [UInt16.ofInt, Int.emod_eq_of_lt (by omega) (by omega)]
  rfl

end EmmaNode
