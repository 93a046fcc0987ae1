import BlocTest.Common.CInt
/-!
# `kallsyms.c`: the symbols

The table the program reads from a listing of the kernel's symbols: which
symbols get into it, which stay, and in what order. A C string is the bytes
before its NUL; the memory `read_symbol` allocates for a name holds the type
character, the name and the NUL.
-/

namespace BlocTest

namespace Kallsyms

/-- `KSYM_NAME_LEN`. -/
def ksymNameLen : ℕ := 128

/-- `struct sym_entry`. -/
structure SymEntry where
  addr : UInt64
  len : ℕ
  startPos : UInt32
  /-- The memory `sym` points to. -/
  sym : List UInt8
  percpuAbsolute : Bool
  deriving DecidableEq, Repr

/-- The bytes of a string constant. -/
def bytes (s : String) : List UInt8 := s.toList.map fun c => UInt8.ofNat c.toNat

/-- The C string at an offset into memory. -/
def cstrAt (mem : List UInt8) (i : ℕ) : List UInt8 := (mem.drop i).takeWhile (· ≠ 0)

/-- `(char *)s->sym + 1`. -/
def SymEntry.symName (s : SymEntry) : List UInt8 := cstrAt s.sym 1

/-- `struct addr_range`. -/
structure AddrRange where
  startSym : List UInt8
  endSym : List UInt8
  start : UInt64
  end_ : UInt64
  deriving DecidableEq, Repr

/-- The program's options and the addresses it collects. -/
structure Globals where
  allSymbols : Bool
  absolutePercpu : Bool
  baseRelative : Bool
  text : UInt64
  relativeBase : UInt64
  textRangeText : AddrRange
  textRangeInittext : AddrRange
  percpuRange : AddrRange
  deriving DecidableEq, Repr

/-- `text_ranges`. -/
def Globals.textRanges (g : Globals) : List AddrRange := [g.textRangeText, g.textRangeInittext]

/-- What the static initialisers and the options set. -/
def initGlobals (allSymbols absolutePercpu baseRelative : Bool) : Globals where
  allSymbols
  absolutePercpu
  baseRelative
  text := 0
  relativeBase := 0
  textRangeText := ⟨bytes "_stext", bytes "_etext", 0, 0⟩
  textRangeInittext := ⟨bytes "_sinittext", bytes "_einittext", 0, 0⟩
  percpuRange := ⟨bytes "__per_cpu_start", bytes "__per_cpu_end", -1, 0⟩

/-! ## Reading -/

/-- What `fscanf` reads of a line of the listing. -/
structure Line where
  addr : UInt64
  stype : UInt8
  sym : List UInt8
  deriving DecidableEq, Repr

/-- `is_arm_mapping_symbol`. For a lone `$` the source reads past the NUL;
such a name is dropped either way. -/
def isArmMappingSymbol (str : List UInt8) : Bool :=
  str[0]? = some 36 && (bytes "axtd" ++ [0]).contains (str[1]?.getD 0) &&
    (str[2]?.getD 0 = 0 || str[2]? = some 46)

/-- One round of `check_symbol_range`: the range with the address noted, if
the symbol bounds it. -/
def AddrRange.check (sym : List UInt8) (addr : UInt64) (ar : AddrRange) : Option AddrRange :=
  if sym = ar.startSym then some { ar with start := addr }
  else if sym = ar.endSym then some { ar with end_ := addr }
  else none

/-- `check_symbol_range` on `text_ranges`; nothing where it answers `1`. -/
def checkTextRanges (sym : List UInt8) (addr : UInt64) (g : Globals) : Option Globals :=
  match g.textRangeText.check sym addr with
  | some ar => some { g with textRangeText := ar }
  | none =>
      match g.textRangeInittext.check sym addr with
      | some ar => some { g with textRangeInittext := ar }
      | none => none

/-- `check_symbol_range` on `percpu_range`, its answer dropped. -/
def checkPercpuRange (sym : List UInt8) (addr : UInt64) (g : Globals) : Globals :=
  match g.percpuRange.check sym addr with
  | some ar => { g with percpuRange := ar }
  | none => g

/-- `toupper`, in the C locale. -/
def toupper (c : UInt8) : UInt8 := if 97 ≤ c ∧ c ≤ 122 then c - 32 else c

/-- The symbols `read_symbol` keeps though they are absolute. -/
def usefulAbsolute : List (List UInt8) :=
  [bytes "__kernel_syscall_via_break", bytes "__kernel_syscall_via_epc",
    bytes "__kernel_sigtramp", bytes "__gp"]

/-- What `read_symbol` decides from the type and the name: the globals it goes
on with, or nothing if it ignores the symbol. -/
def classify (line : Line) (g : Globals) : Option Globals :=
  if line.sym = bytes "_text" then some { g with text := line.addr }
  else
    match checkTextRanges line.sym line.addr g with
    | some g => some g
    | none =>
        if toupper line.stype = 65 then
          if usefulAbsolute.contains line.sym then some g else none
        else if toupper line.stype = 85 || isArmMappingSymbol line.sym then none
        else if line.sym[0]? = some 36 then none
        else if line.stype = 78 || line.stype = 110 then none
        else some g

/-- `read_symbol`, on a line that scans: the entry and the globals, or nothing
where it answers `-1`, which it does before it has changed any of them. -/
def readSymbol (line : Line) (g : Globals) : Option (SymEntry × Globals) :=
  if ksymNameLen ≤ line.sym.length then none
  else
    match classify line g with
    | none => none
    | some g =>
        some ({ addr := line.addr, len := line.sym.length + 1, startPos := 0,
                sym := line.stype :: (line.sym ++ [0]), percpuAbsolute := false },
          checkPercpuRange line.sym line.addr g)

/-- `read_map`. -/
def readMap : List Line → Globals → List SymEntry → List SymEntry × Globals
  | [], g, table => (table, g)
  | line :: lines, g, table =>
      match readSymbol line g with
      | none => readMap lines g table
      | some (s, g) =>
          readMap lines g (table ++ [{ s with startPos := UInt32.ofNat table.length }])

/-! ## Choosing -/

/-- `symbol_in_range`. -/
def symbolInRange (s : SymEntry) (ranges : List AddrRange) : Bool :=
  ranges.any fun ar => s.addr ≥ ar.start && s.addr ≤ ar.end_

def specialSymbols : List (List UInt8) :=
  [bytes "kallsyms_addresses", bytes "kallsyms_offsets", bytes "kallsyms_relative_base",
    bytes "kallsyms_num_syms", bytes "kallsyms_names", bytes "kallsyms_markers",
    bytes "kallsyms_token_table", bytes "kallsyms_token_index", bytes "_SDA_BASE_",
    bytes "_SDA2_BASE_"]

def specialPrefixes : List (List UInt8) := [bytes "__crc_", bytes "__efistub_"]

def specialSuffixes : List (List UInt8) :=
  [bytes "_veneer", bytes "_from_arm", bytes "_from_thumb"]

/-- `symbol_valid`. -/
def symbolValid (g : Globals) (s : SymEntry) : Bool :=
  (g.allSymbols ||
    symbolInRange s g.textRanges &&
      !(s.addr = g.textRangeText.end_ && s.symName ≠ g.textRangeText.endSym ||
        s.addr = g.textRangeInittext.end_ && s.symName ≠ g.textRangeInittext.endSym)) &&
  !specialSymbols.contains s.symName &&
  !(specialPrefixes.any fun p => p.isPrefixOf s.symName) &&
  !(specialSuffixes.any fun p => p.isSuffixOf s.symName)

/-- `make_percpus_absolute`. -/
def makePercpusAbsolute (g : Globals) (table : List SymEntry) : List SymEntry :=
  table.map fun s =>
    if symbolInRange s [g.percpuRange] then
      { s with sym := s.sym.set 0 65, percpuAbsolute := true }
    else s

/-- `record_relative_base`: the value of `relative_base`. -/
def recordRelativeBase (table : List SymEntry) : UInt64 :=
  table.foldl (fun base s =>
    if !s.percpuAbsolute && s.addr < base then s.addr else base) (-1)

/-! ## Sorting -/

/-- `memcmp(symbol + i, s, n) == 0` where the bytes are there. -/
def bytesAt (symbol : List UInt8) (i : ℕ) (s : List UInt8) : Bool :=
  (symbol.drop i).take s.length = s

/-- `may_be_linker_script_provide_symbol`. -/
def mayBeLinkerScriptProvideSymbol (se : SymEntry) : Bool :=
  let symbol := se.sym.drop 1
  let len := se.len - 1
  if len < 8 then false
  else if symbol[0]? ≠ some 95 || symbol[1]? ≠ some 95 then false
  else
    bytesAt symbol 2 (bytes "start_") || bytesAt symbol 2 (bytes "stop_") ||
    bytesAt symbol 2 (bytes "end_") || bytesAt symbol (len - 6) (bytes "_start") ||
    bytesAt symbol (len - 4) (bytes "_end")

/-- `prefix_underscores_count`. -/
def prefixUnderscoresCount (str : List UInt8) : ℕ := (str.takeWhile (· = 95)).length

/-- A truth value as the `int` it is in C. -/
def flag (b : Bool) : ℤ := if b then 1 else 0

/-- The first byte of a symbol says that it is weak. -/
def SymEntry.isWeak (s : SymEntry) : Bool := s.sym[0]? = some 119 || s.sym[0]? = some 87

/-- `compare_symbols`. -/
def compareSymbols (sa sb : SymEntry) : ℤ :=
  if sa.addr > sb.addr then 1
  else if sa.addr < sb.addr then -1
  else if flag sa.isWeak ≠ flag sb.isWeak then flag sa.isWeak - flag sb.isWeak
  else if flag (mayBeLinkerScriptProvideSymbol sa) ≠ flag (mayBeLinkerScriptProvideSymbol sb) then
    flag (mayBeLinkerScriptProvideSymbol sa) - flag (mayBeLinkerScriptProvideSymbol sb)
  else if prefixUnderscoresCount sa.symName ≠ prefixUnderscoresCount sb.symName then
    prefixUnderscoresCount sa.symName - prefixUnderscoresCount sb.symName
  else (sa.startPos - sb.startPos).toInt32.toInt

/-- `sort_symbols`: `qsort` with `compare_symbols`. -/
def sortSymbols (table : List SymEntry) : List SymEntry :=
  table.mergeSort fun sa sb => compareSymbols sa sb ≤ 0

end Kallsyms

end BlocTest
