import BlocTest.Kallsyms.Model.Tokens
/-!
# `kallsyms.c`: the output

What `write_src` has the assembler lay out, and `main`. A table of words or
bytes is a list; the directives and labels around them are left out.
-/

namespace BlocTest

namespace Kallsyms

open Prog

/-- A word of the table of addresses: an offset, or an expression for the
assembler. -/
inductive AddrWord where
  | offset (v : Int32)
  | textPlus (d : UInt64)
  | textMinus (d : UInt64)
  | absolute (addr : UInt64)
  deriving DecidableEq, Repr

/-- The offset `write_src` computes in relative mode, a `long long`, and
whether it overflows. -/
def relativeOffset (g : Globals) (s : SymEntry) : ℤ × Bool :=
  if !g.absolutePercpu then
    let offset := (s.addr - g.relativeBase).toInt64.toInt
    (offset, offset < 0 || offset > 2 ^ 32 - 1)
  else if s.percpuAbsolute then
    let offset := s.addr.toInt64.toInt
    (offset, offset < 0 || offset > 2 ^ 31 - 1)
  else
    let offset := (g.relativeBase - s.addr - 1).toInt64.toInt
    (offset, offset < -2 ^ 31 || offset ≥ 0)

/-- The word for a symbol; nothing where `write_src` exits. -/
def addrWord (g : Globals) (s : SymEntry) : Option AddrWord :=
  if g.baseRelative then
    let r := relativeOffset g s
    if r.2 then none else some (.offset (Int32.ofInt r.1))
  else if !s.percpuAbsolute then
    if g.text ≤ s.addr then some (.textPlus (s.addr - g.text))
    else some (.textMinus (g.text - s.addr))
  else some (.absolute s.addr)

/-- `kallsyms_names`: for each symbol its length and its codes. -/
def namesOf (table : List SymEntry) : List UInt8 :=
  table.flatMap fun s => UInt8.ofNat s.len :: s.codes

/-- The loop that writes `kallsyms_names`, for `markers`: the offset of every
256th symbol. -/
def markersFrom : ℕ → UInt32 → List SymEntry → List UInt32
  | _, _, [] => []
  | i, off, s :: table =>
      let rest := markersFrom (i + 1) (off + UInt32.ofNat (s.len + 1)) table
      if i % 256 = 0 then off :: rest else rest

/-- `expand_symbol(best_table[i], best_table_len[i], buf)`: the string in
`buf`, which has room for `KSYM_NAME_LEN` bytes with the NUL. -/
def expandInBuf (k : Tables) (i : UInt8) : Prog Unit (List UInt8) :=
  let token := [(k.bestTable i).1, (k.bestTable i).2]
  match expandSymbol k 257 (token.take (k.bestTableLen i).toNat) with
  | none => Prog.fault .outOfFuel
  | some buf => if buf.length < ksymNameLen then pure (cstrAt buf 0) else Prog.fault .outOfRange

/-- The loop that writes `kallsyms_token_table`: what it prints between the
quotes of each `.asciz`, and `best_idx`. -/
def tokenTableFrom (k : Tables) (off : ℕ) :
    List UInt8 → Prog Unit (List (List UInt8) × List UInt16)
  | [] => pure ([], [])
  | i :: rest => do
      let buf ← expandInBuf k i
      let r ← tokenTableFrom k (off + buf.length + 1) rest
      return (buf :: r.1, UInt16.ofNat off :: r.2)

/-- The bytes in order. -/
def allBytes : List UInt8 := (List.range 256).map UInt8.ofNat

/-- The tables of the output. -/
structure Output where
  addresses : List AddrWord
  /-- What is taken off `_text` for `kallsyms_relative_base`, in relative
  mode. -/
  relativeBase : Option UInt64
  numSyms : UInt32
  names : List UInt8
  markers : List UInt32
  /-- What stands between the quotes of each `.asciz`. -/
  tokenTable : List (List UInt8)
  tokenIndex : List UInt16
  deriving DecidableEq, Repr

/-- `write_src`; nothing where it exits. -/
def writeSrc (g : Globals) (k : Tables) : Prog Unit (Option Output) := do
  match k.table.mapM (addrWord g) with
  | none => return none
  | some addresses =>
      let tokens ← tokenTableFrom k 0 allBytes
      return some {
        addresses
        relativeBase := if g.baseRelative then some (g.text - g.relativeBase) else none
        numSyms := UInt32.ofNat k.table.length
        names := namesOf k.table
        markers := markersFrom 0 0 k.table
        tokenTable := tokens.1
        tokenIndex := tokens.2 }

/-- The table as `sort_symbols` leaves it, and the globals. -/
def sortedTable (g : Globals) (lines : List Line) : List SymEntry × Globals :=
  let r := readMap lines g []
  let g := r.2
  let table := if g.absolutePercpu then makePercpusAbsolute g r.1 else r.1
  let g := if g.baseRelative then { g with relativeBase := recordRelativeBase table } else g
  (sortSymbols table, g)

/-- `main`, on the lines of the listing that scan; nothing where it exits with
a failure. -/
def main (fuel : ℕ) (g : Globals) (lines : List Line) : Prog Unit (Option Output) :=
  let r := sortedTable g lines
  match optimizeTokenTable fuel r.2 (freshTables r.1) with
  | .error e => Prog.fault e
  | .ok (false, _) => pure none
  | .ok (true, k) => writeSrc r.2 k

/-! ## What the tables are for

Their reader is not part of the program, nor are the assembler and the linker
before it. The assembler makes bytes of the strings, and the linker settles
where `_text` is. The reader takes a code to the string at its index, a symbol
to the strings of its codes, and a word to an address. -/

/-- A byte that stands for itself between the quotes of an `.asciz`: not a
NUL, a newline, a quote or a backslash. -/
def IsPlain (c : UInt8) : Prop := c ≠ 0 ∧ c ≠ 10 ∧ c ≠ 34 ∧ c ≠ 92

instance : DecidablePred IsPlain := fun c =>
  inferInstanceAs (Decidable (c ≠ 0 ∧ c ≠ 10 ∧ c ≠ 34 ∧ c ≠ 92))

/-- The bytes of the token table, a NUL after each string; nothing where a
byte does not stand for itself, since `write_src` prints it as it is. -/
def Output.assembled (out : Output) : Option (List UInt8) :=
  if out.tokenTable.all fun s => s.all fun c => IsPlain c then
    some (out.tokenTable.flatMap (· ++ [0]))
  else none

/-- The string of a code, in the bytes of the token table. -/
def Output.token (out : Output) (tokens : List UInt8) (c : UInt8) : List UInt8 :=
  cstrAt tokens (out.tokenIndex[c.toNat]?.getD 0).toNat

/-- The first symbols of a stream of names. -/
def Output.read (out : Output) (tokens : List UInt8) :
    ℕ → List UInt8 → Option (List (List UInt8))
  | 0, _ => some []
  | _ + 1, [] => none
  | n + 1, len :: rest =>
      if rest.length < len.toNat then none
      else
        let name := (rest.take len.toNat).flatMap (out.token tokens)
        (out.read tokens n (rest.drop len.toNat)).map (name :: ·)

/-- `kallsyms_relative_base`, with `_text` at `text`. -/
def Output.base (out : Output) (text : UInt64) : UInt64 := text - out.relativeBase.getD 0

/-- The address a word stands for, with `_text` at `text` and
`kallsyms_relative_base` at `base`. -/
def AddrWord.read (absolutePercpu : Bool) (text base : UInt64) : AddrWord → UInt64
  | .offset v =>
      if !absolutePercpu then base + v.toUInt32.toUInt64
      else if 0 ≤ v then v.toInt64.toUInt64
      else base - 1 - v.toInt64.toUInt64
  | .textPlus d => text + d
  | .textMinus d => text - d
  | .absolute addr => addr

end Kallsyms

end BlocTest
