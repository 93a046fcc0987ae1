import BlocTest.Common.Prog
import BlocTest.Kconfig.Model.Symbol
import Mathlib.Logic.Function.Basic
/-!
# The configuration file

`conf_write` and `conf_read_simple` of `confdata.c`, the latter as `conf_read`
calls it, for the values the user has set. What is written is a walk over the
menu tree; what is read goes line by line.
-/

namespace BlocTest

namespace Kconfig

/-- `CONFIG_`. -/
def configPrefix : Text := ['C', 'O', 'N', 'F', 'I', 'G', '_']

def isNotSet : Text := ['i', 's', ' ', 'n', 'o', 't', ' ', 's', 'e', 't']

/-- The double quote. -/
def dquote : Char := Char.ofNat 34

def backslash : Char := Char.ofNat 92

/-! ## Writing -/

/-- `sym_escape_string_value`. -/
def symEscapeStringValue (value : Text) : Text :=
  dquote :: (value.flatMap fun c => if c = dquote ∨ c = backslash then [backslash, c] else [c]) ++
    [dquote]

/-- What a menu node stands for: a symbol, or a prompt of its own. -/
inductive MenuEntry where
  | sym (i : ℕ)
  | prompt (text : Text) (visible : Bool)

/-- `struct menu *`: a node with its `list` and its `next`. -/
inductive Menu where
  | null
  | node (entry : MenuEntry) (list next : Menu)

/-- The choices: which symbols are one, and which are a value of one. -/
structure Choices where
  /-- `flags & SYMBOL_CHOICE`. -/
  isChoice : ℕ → Bool
  /-- The choice a `SYMBOL_CHOICEVAL` belongs to. -/
  choiceOf : ℕ → Option ℕ
  /-- `name` is null, as it is for most choices. -/
  unnamed : ℕ → Bool

/-- The state of `conf_write`. -/
structure Writer where
  /-- The lines printed, without their newlines. -/
  out : List Text
  /-- `flags & SYMBOL_WRITE`. -/
  write : ℕ → Bool
  needNewline : Bool

/-- The pieces of a text between its newlines. -/
def pieces : Text → List Text
  | [] => [[]]
  | c :: s =>
      if c = '\n' then [] :: pieces s
      else
        match pieces s with
        | [] => [[c]]
        | l :: ls => (c :: l) :: ls

/-- `kconfig_print_comment`. -/
def kconfigPrintComment (value : Text) : List Text :=
  (pieces value).map fun l => if l = [] then ['#'] else '#' :: ' ' :: l

/-- `kconfig_print_symbol`, asked to print symbols that are not set. -/
def kconfigPrintSymbol (tab : SymbolTable) (i : ℕ) (value : Text) : Text :=
  match (tab.entry i).type with
  | .boolean | .tristate =>
      if value[0]? = some 'n' then
        '#' :: ' ' :: (configPrefix ++ (tab.entry i).name ++ ' ' :: isNotSet)
      else configPrefix ++ (tab.entry i).name ++ '=' :: value
  | _ => configPrefix ++ (tab.entry i).name ++ '=' :: value

section Write

variable {tab : SymbolTable} (cfg : Config tab) (choices : Choices)

/-- `conf_write_symbol`. -/
def confWriteSymbol (i : ℕ) : List Text :=
  match (tab.entry i).type with
  | .unknown => []
  | .string =>
      [kconfigPrintSymbol tab i (symEscapeStringValue (cfg.symGetStringValue (.entry i)))]
  | _ => [kconfigPrintSymbol tab i (cfg.symGetStringValue (.entry i))]

/-- What `conf_write` does where it comes to a node. -/
def enterMenu (entry : MenuEntry) (st : Writer) : Writer :=
  match entry with
  | .prompt text visible =>
      if visible then
        { st with out := st.out ++ [[], ['#'], '#' :: ' ' :: text, ['#']], needNewline := false }
      else st
  | .sym i =>
      if choices.isChoice i then st
      else if st.write i then
        { out := st.out ++ (if st.needNewline then [[]] else []) ++ confWriteSymbol cfg i
          write := Function.update st.write i false
          needNewline := false }
      else st

/-- What it does where it has been through the `list` of a node. -/
def leaveMenu (entry : MenuEntry) (st : Writer) : Writer :=
  match entry with
  | .prompt text true =>
      { st with
        out := st.out ++ ['#' :: ' ' :: (['e', 'n', 'd', ' ', 'o', 'f', ' '] ++ text)]
        needNewline := true }
  | _ => st

/-- The walk of `conf_write`. -/
def walkMenu : Menu → Writer → Writer
  | .null, st => st
  | .node entry .null next, st => walkMenu next (enterMenu cfg choices entry st)
  | .node entry list next, st =>
      walkMenu next (leaveMenu entry (walkMenu list (enterMenu cfg choices entry st)))

/-- The lines, each with its newline. -/
def unlines (ls : List Text) : Text := ls.flatMap (· ++ ['\n'])

/-- The file `conf_write` leaves. `heading` is the buffer of
`conf_write_heading`, `write` says for which symbols `sym_calc_value` sets
`SYMBOL_WRITE`. -/
def confWrite (heading : Text) (write : ℕ → Bool) (menu : Menu) : Text :=
  unlines (walkMenu cfg choices menu ⟨kconfigPrintComment heading, write, false⟩).out

end Write

/-! ## Reading -/

/-- `sym->def[def]`, and `flags` as to that definition. -/
structure Def where
  tri : Tristate
  /-- `val`, of an `int`, a `hex` or a string. -/
  val : Option Text
  /-- `val`, of a choice: the symbol that is selected. -/
  chosen : Option ℕ
  /-- `flags & def_flags`. -/
  isSet : Bool

/-- What reading changes. -/
structure Reader where
  defs : ℕ → Def
  /-- The calls of `sym_add_change_count`. -/
  changes : ℕ
  /-- `conf_warnings`. -/
  warnings : ℕ

namespace Reader

variable (rd : Reader)

def put (i : ℕ) (d : Def) : Reader := { rd with defs := Function.update rd.defs i d }

def warn : Reader := { rd with warnings := rd.warnings + 1 }

/-- The warning where a symbol has been set before. -/
def warnSet (i : ℕ) : Reader := if (rd.defs i).isSet then rd.warn else rd

end Reader

/-- `compat_getline` until it answers `-1`, on a file without a NUL. -/
def getLines : Text → List Text
  | [] => []
  | c :: s =>
      if c = '\n' then [c] :: getLines s
      else
        match getLines s with
        | [] => [[c]]
        | l :: ls => (c :: l) :: ls

/-- What has been written of the memory `line` points to; `none` is a NUL, of
which there is none in a text. -/
abbrev Memory := List (Option Char)

/-- The C string at the beginning of memory. -/
def cstr : Memory → Text
  | some c :: mem => c :: cstr mem
  | _ => []

/-- What `compat_getline` leaves in memory: the line and a NUL, written over
what was there before. -/
def setLine (l : Text) (mem : Memory) : Memory := l.map some ++ none :: mem.drop (l.length + 1)

/-- What `strchr` divides a text into, where it finds the character: what is
before it and what is behind. -/
def strchr (c : Char) : Text → Option (Text × Text)
  | [] => none
  | d :: s => if d = c then some ([], s) else (strchr c s).map fun r => (d :: r.1, r.2)

/-- The loop of `conf_set_sym_val` over a string, from behind the quote: what
is before the closing one, if there is one. A backslash at the end of the text
is followed by the NUL that was there before the text was moved. -/
def readQuoted : Text → Option Text
  | [] => none
  | c :: s =>
      if c = dquote then some []
      else if c = backslash then
        match s with
        | [] => none
        | d :: s => (readQuoted s).map (d :: ·)
      else (readQuoted s).map (c :: ·)

/-- What the loop leaves in memory: of the closing quote a NUL, and behind a
backslash everything up to the NUL moved down over it. -/
def editQuoted : Text → Memory
  | [] => [none]
  | c :: s =>
      if c = dquote then none :: (s.map some ++ [none])
      else if c = backslash then
        match s with
        | [] => [none, none]
        | d :: s => some d :: (editQuoted s ++ [none])
      else some c :: editQuoted s

/-- `isdigit`. -/
def isdigit (c : Char) : Bool := '0' ≤ c ∧ c ≤ '9'

/-- `sym_string_valid`, of a symbol of a type. -/
def symStringValid (str : Text) : SymbolType → Bool
  | .string => true
  | .int =>
      let s := if str[0]? = some '-' then str.drop 1 else str
      match s with
      | [] => false
      | c :: s => isdigit c && !(c = '0' && s ≠ []) && s.all isdigit
  | .hex =>
      let s := if str[0]? = some '0' ∧ (str[1]? = some 'x' ∨ str[1]? = some 'X') then str.drop 2
        else str
      s ≠ [] && s.all isxdigit
  | .boolean | .tristate =>
      match str[0]? with
      | some c => ['y', 'Y', 'm', 'M', 'n', 'N'].contains c
      | none => false
  | .unknown => false

section Read

variable (tab : SymbolTable) (count : ℕ) (choices : Choices)

/-- `sym_find`, among the first `count` entries of the table. -/
def symFind (name : Text) : Option SymPtr :=
  if name = ['y'] then some .yes
  else if name = ['m'] then some .mod
  else if name = ['n'] then some .no
  else
    ((List.range count).find? fun i =>
      !choices.unnamed i && (tab.entry i).name = name && !(tab.entry i).const).map .entry

/-- `conf_set_sym_val`: whether it fails, and what it has changed. -/
def confSetSymVal (i : ℕ) (p : Text) (rd : Reader) : Bool × Reader :=
  let d := rd.defs i
  let setTri (tri : Tristate) : Bool × Reader := (false, rd.put i { d with tri, isSet := true })
  let setVal (val : Text) : Bool × Reader :=
    if symStringValid val (tab.entry i).type then
      (false, rd.put i { d with val := some val, isSet := true })
    else (true, rd.warn)
  match (tab.entry i).type with
  | .boolean | .tristate =>
      if (tab.entry i).type = .tristate ∧ p[0]? = some 'm' then setTri .mod
      else if p[0]? = some 'y' then setTri .yes
      else if p[0]? = some 'n' then setTri .no
      else (true, rd.warn)
  | .string =>
      match p with
      | [] => (false, rd)
      | c :: p =>
          if c ≠ dquote then (false, rd)
          else
            match readQuoted p with
            | none => (true, rd.warn)
            | some val => setVal val
  | .int | .hex => setVal p
  | .unknown => (false, rd)

/-- The end of the loop of `conf_read_simple`: the choice a symbol is a value
of takes note of it. -/
def noteChoice (i : ℕ) (rd : Reader) : Reader :=
  match choices.choiceOf i with
  | none => rd
  | some c =>
      let tri := (rd.defs i).tri
      let cs := rd.defs c
      let rd := match tri with
        | .no => rd
        | .mod =>
            if cs.tri = Tristate.yes then (rd.put c { cs with isSet := false }).warn else rd
        | .yes =>
            let rd := if cs.tri ≠ Tristate.no then rd.warn else rd
            rd.put c { cs with chosen := some i }
      rd.put c { rd.defs c with tri := exprOr cs.tri tri }

/-- A comment that the symbol of a name is not set. -/
def readUnset (name : Text) (rd : Reader) : Reader :=
  match symFind tab count choices name with
  | none => { rd with changes := rd.changes + 1 }
  | some (.entry i) =>
      let rd := rd.warnSet i
      let rd := match (tab.entry i).type with
        | .boolean | .tristate => rd.put i { rd.defs i with tri := .no, isSet := true }
        | _ => rd
      noteChoice choices i rd
  | some _ => rd

/-- A line that begins with `#`. If it ends there the source reads on behind
the NUL: what a line before has left, or memory that was never written. -/
def readComment (line : Memory) (rd : Reader) : Except Fault (Reader × Memory) :=
  if line.length ≤ 2 then .error .outOfRange
  else
    let s := cstr (line.drop 2)
    if configPrefix.isPrefixOf s then
      match strchr ' ' (s.drop configPrefix.length) with
      | none => .ok (rd, line)
      | some (name, p) =>
          .ok (if isNotSet.isPrefixOf p then readUnset tab count choices name rd else rd,
            line.set (2 + configPrefix.length + name.length) none)
    else .ok (rd, line)

/-- The value behind the `=` of a line, without the end of the line. -/
def lineValue (p : Text) : Text :=
  match strchr '\n' p with
  | none => p
  | some (v, _) => if v.getLast? = some '\r' then v.dropLast else v

/-- What is left of the value in memory: NULs for the end of the line. -/
def endValue (p : Text) : Memory :=
  match strchr '\n' p with
  | none => p.map some ++ [none]
  | some (v, rest) =>
      (if v.getLast? = some '\r' then v.dropLast.map some ++ [none] else v.map some) ++
        none :: (rest.map some ++ [none])

/-- What `conf_set_sym_val` leaves of the value. -/
def editValue (type : SymbolType) (p : Text) : Memory :=
  match type, lineValue p with
  | .string, c :: q =>
      if c = dquote then some c :: (editQuoted q ++ (endValue p).drop (q.length + 2))
      else endValue p
  | _, _ => endValue p

/-- A value for the symbol of a name. -/
def readValue (name p : Text) (rd : Reader) : Reader × Memory :=
  match symFind tab count choices name with
  | none => ({ rd with changes := rd.changes + 1 }, endValue p)
  | some (.entry i) =>
      let r := confSetSymVal tab i (lineValue p) (rd.warnSet i)
      (if r.1 then r.2 else noteChoice choices i r.2, editValue (tab.entry i).type p)
  | some _ => (rd, endValue p)

/-- A line that begins with `CONFIG_`. -/
def readAssignment (line : Memory) (rd : Reader) : Reader × Memory :=
  match strchr '=' ((cstr line).drop configPrefix.length) with
  | none => (rd, line)
  | some (name, p) =>
      let r := readValue tab count choices name p rd
      let behind := configPrefix.length + name.length + 1 + p.length + 1
      (r.1, (configPrefix ++ name).map some ++ none :: (r.2 ++ line.drop behind))

/-- The body of the loop of `conf_read_simple`. A line for one of the static
symbols changes nothing, since these have no type. -/
def readLine (st : Reader × Memory) (l : Text) : Except Fault (Reader × Memory) :=
  let line := setLine l st.2
  if l.head? = some '#' then readComment tab count choices line st.1
  else if configPrefix.isPrefixOf l then .ok (readAssignment tab count choices line st.1)
  else if l.head? = some '\r' ∨ l.head? = some '\n' then .ok (st.1, line)
  else .ok (st.1.warn, line)

/-- What the definitions are set to before the first line. -/
def clearedDef (i : ℕ) : Def := ⟨.no, none, none, choices.isChoice i⟩

/-- `conf_read_simple`, on the text of the file. -/
def confReadSimple (file : Text) : Except Fault Reader := do
  let st ← (getLines file).foldlM (readLine tab count choices) (⟨clearedDef choices, 0, 0⟩, [])
  return st.1

end Read

end Kconfig

end BlocTest
