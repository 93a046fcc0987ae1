import Mathlib.Algebra.Ring.Int.Defs
import Mathlib.Algebra.Ring.Nat
import Mathlib.Order.Defs.LinearOrder
import Mathlib.Order.Lattice
import Mathlib.Data.Nat.Notation
/-!
# Kconfig: symbols and their values

`expr.h`, `symbol.c` and the first half of `expr_calc_value`: the tristate
values, what the symbol table says of a symbol, and the values the symbols
have in a configuration once `sym_calc_value` has been run on all of them.
Pointers to symbols are compared by identity, so the three static symbols are
distinct from every entry of the table.
-/

namespace BlocTest

namespace Kconfig

/-! ## Tristates -/

/-- `tristate`. -/
inductive Tristate where
  | no
  | mod
  | yes
  deriving DecidableEq, Repr

namespace Tristate

/-- The number C gives the constant. -/
def rank : Tristate → ℕ
  | no => 0
  | mod => 1
  | yes => 2

theorem rank_injective : Function.Injective rank := by
  intro a b h
  cases a <;> cases b <;> first | rfl | cases h

/-- The constants in the order of their numbers. -/
instance linearOrder : LinearOrder Tristate := LinearOrder.lift' rank rank_injective

theorem le_iff {a b : Tristate} : a ≤ b ↔ a.rank ≤ b.rank := Iff.rfl

end Tristate

/-- `EXPR_OR`. -/
def exprOr (dep1 dep2 : Tristate) : Tristate := if dep1 > dep2 then dep1 else dep2

/-- `EXPR_AND`. -/
def exprAnd (dep1 dep2 : Tristate) : Tristate := if dep1 < dep2 then dep1 else dep2

/-- `EXPR_NOT`. -/
def exprNot : Tristate → Tristate
  | .no => .yes
  | .mod => .mod
  | .yes => .no

/-! ## The symbol table -/

/-- The text of a C string. -/
abbrev Text := List Char

/-- `enum symbol_type`. -/
inductive SymbolType where
  | unknown
  | boolean
  | tristate
  | int
  | hex
  | string
  deriving DecidableEq, Repr

/-- `struct symbol *`: one of the three static symbols, or an entry of the
table. -/
inductive SymPtr where
  | yes
  | mod
  | no
  | entry (i : ℕ)
  deriving DecidableEq, Repr

/-- What is fixed of a symbol once the Kconfig files are read. -/
structure Entry where
  name : Text
  type : SymbolType
  /-- `flags & SYMBOL_CONST`. -/
  const : Bool

/-- **A symbol table.** A quoted word is entered with no type, and
`sym_lookup` enters each text once and never the names of the three static
symbols. -/
structure SymbolTable where
  entry : ℕ → Entry
  const_unknown : ∀ i, (entry i).const = true → (entry i).type = .unknown
  const_unique : ∀ i j, (entry i).const = true → (entry j).const = true →
    (entry i).name = (entry j).name → i = j
  const_fresh : ∀ i, (entry i).const = true →
    (entry i).name ≠ ['y'] ∧ (entry i).name ≠ ['m'] ∧ (entry i).name ≠ ['n']

namespace SymbolTable

variable (tab : SymbolTable)

/-- `sym->name`. -/
def name : SymPtr → Text
  | .yes => ['y']
  | .mod => ['m']
  | .no => ['n']
  | .entry i => (tab.entry i).name

/-- `sym->type`; the static symbols leave it zero. -/
def type : SymPtr → SymbolType
  | .entry i => (tab.entry i).type
  | _ => .unknown

/-- `sym->flags & SYMBOL_CONST`. -/
def isConst : SymPtr → Bool
  | .entry i => (tab.entry i).const
  | _ => true

end SymbolTable

/-! ## Configurations -/

/-- `sym->curr.tri`, of any symbol. -/
def currTri (tri : ℕ → Tristate) : SymPtr → Tristate
  | .yes => .yes
  | .mod => .mod
  | .no => .no
  | .entry i => tri i

/-- **The values `sym_calc_value` leaves.** A boolean is never `m`, a
tristate is `m` only with modules enabled, and a symbol of no type has its
name for value. -/
structure Config (tab : SymbolTable) where
  /-- `sym->curr.tri`. -/
  tri : ℕ → Tristate
  /-- `sym->curr.val`, of a symbol that is not boolean or tristate. -/
  val : ℕ → Text
  /-- `modules_sym`. -/
  modules : SymPtr
  bool_ne_mod : ∀ i, (tab.entry i).type = .boolean → tri i ≠ .mod
  modules_of_mod : ∀ i, (tab.entry i).type = .tristate → tri i = .mod →
    currTri tri modules ≠ .no
  unknown_val : ∀ i, (tab.entry i).type = .unknown → val i = (tab.entry i).name

namespace Config

variable {tab : SymbolTable} (cfg : Config tab)

/-- `sym_get_tristate_value`. -/
def symGetTristateValue : SymPtr → Tristate := currTri cfg.tri

/-- `sym_get_string_value`. -/
def symGetStringValue : SymPtr → Text
  | .yes => ['y']
  | .mod => ['m']
  | .no => ['n']
  | .entry i =>
      match (tab.entry i).type with
      | .boolean | .tristate =>
          match cfg.tri i with
          | .no => ['n']
          | .mod => if cfg.symGetTristateValue cfg.modules = .no then ['n'] else ['m']
          | .yes => ['y']
      | _ => cfg.val i

end Config

/-! ## Reading a value as a number

`strtoll` and `strtoull` in the C locale: white space, a sign, the prefix the
base allows, digits. -/

/-- `strcmp`, by the sign of its result. -/
def strcmp : Text → Text → Ordering
  | [], [] => .eq
  | [], _ :: _ => .lt
  | _ :: _, [] => .gt
  | a :: s, b :: t => if a < b then .lt else if b < a then .gt else strcmp s t

/-- `isspace`. -/
def isspace (c : Char) : Bool :=
  c = ' ' || c = '\t' || c = '\n' || c = '\x0b' || c = '\x0c' || c = '\r'

/-- The value of a digit, letters standing for ten and more. -/
def digitValue (c : Char) : Option ℕ :=
  if '0' ≤ c ∧ c ≤ '9' then some (c.toNat - '0'.toNat)
  else if 'a' ≤ c ∧ c ≤ 'z' then some (c.toNat - 'a'.toNat + 10)
  else if 'A' ≤ c ∧ c ≤ 'Z' then some (c.toNat - 'A'.toNat + 10)
  else none

/-- `isxdigit`. -/
def isxdigit (c : Char) : Bool :=
  match digitValue c with
  | some d => d < 16
  | none => false

/-- The digits at the front of a text, read in a base: the number so far and
what is left of the text. -/
def readDigits (base acc : ℕ) : Text → ℕ × Text
  | [] => (acc, [])
  | c :: s =>
      match digitValue c with
      | some d => if d < base then readDigits base (acc * base + d) s else (acc, c :: s)
      | none => (acc, c :: s)

/-- Whether the text starts with a digit of the base. -/
def startsDigit (base : ℕ) : Text → Bool
  | [] => false
  | c :: _ =>
      match digitValue c with
      | some d => d < base
      | none => false

/-- The base the number is read in and where its digits start. -/
def chooseBase (base : ℕ) (s : Text) : ℕ × Text :=
  match s with
  | '0' :: x :: rest =>
      if (x = 'x' ∨ x = 'X') ∧ (base = 16 ∨ base = 0) ∧ startsDigit 16 rest then (16, rest)
      else (if base = 0 then 8 else base, s)
  | '0' :: [] => (if base = 0 then 8 else base, s)
  | _ => (if base = 0 then 10 else base, s)

/-- What the two functions share: the sign, the magnitude and the rest of the
text, or nothing if no number is there. -/
def scanNumber (base : ℕ) (str : Text) : Option (Bool × ℕ × Text) :=
  let s := str.dropWhile isspace
  let (negative, s) := match s with
    | '-' :: rest => (true, rest)
    | '+' :: rest => (false, rest)
    | _ => (false, s)
  let (base, s) := chooseBase base s
  if startsDigit base s then
    let (magnitude, tail) := readDigits base 0 s
    some (negative, magnitude, tail)
  else
    none

/-- `enum string_value_kind`. -/
inductive StringValueKind where
  | string
  | signed
  | unsigned
  deriving DecidableEq, Repr

/-- What `expr_parse_string` finds: the kind, and `union string_value`. -/
structure StringValue where
  kind : StringValueKind
  val : BitVec 64
  deriving DecidableEq

/-- `!errno && !*tail && tail > str && isxdigit(tail[-1]) ? kind : k_string`:
the whole text is a number, and it fits. -/
def wholeNumber (kind : StringValueKind) (str tail : Text) (fits : Bool) (val : BitVec 64) :
    StringValue :=
  if fits ∧ tail = [] ∧ (str.getLast?.map isxdigit).getD false then ⟨kind, val⟩ else ⟨.string, val⟩

/-- `strtoll`, and whether the whole text is a number it can hold. -/
def parseSigned (base : ℕ) (str : Text) : StringValue :=
  match scanNumber base str with
  | none => ⟨.string, 0⟩
  | some (negative, magnitude, tail) =>
      let n : ℤ := if negative then -magnitude else magnitude
      wholeNumber .signed str tail (decide (-2 ^ 63 ≤ n ∧ n < 2 ^ 63)) (BitVec.ofInt 64 n)

/-- `strtoull`, and whether the whole text is a number it can hold. -/
def parseUnsigned (base : ℕ) (str : Text) : StringValue :=
  match scanNumber base str with
  | none => ⟨.string, 0⟩
  | some (negative, magnitude, tail) =>
      let n : ℤ := if negative then -magnitude else magnitude
      wholeNumber .unsigned str tail (decide (magnitude < 2 ^ 64)) (BitVec.ofInt 64 n)

/-- `expr_parse_string`. -/
def exprParseString (str : Text) : SymbolType → StringValue
  | .boolean | .tristate =>
      ⟨.signed, if str = ['n'] then 0 else if str = ['m'] then 1 else if str = ['y'] then 2 else -1⟩
  | .int => parseSigned 10 str
  | .hex => parseUnsigned 16 str
  | _ => parseSigned 0 str

end Kconfig

end BlocTest
