import BlocTest.Common.Digram
import BlocTest.Kallsyms.Model.Symbols
/-!
# `kallsyms.c`: the token table

The compression: byte codes that no symbol uses are made to stand for the
commonest pair of neighbouring bytes, again and again, and the pair is
replaced in every symbol. The names are rewritten in the memory they were
read into, so positions in it are offsets and every access is checked.
-/

namespace BlocTest

namespace Kallsyms

open Prog

variable {σ : Type}

/-! ## The memory of a name -/

/-- The bytes of the name, as far as `len` counts them. -/
def SymEntry.codes (s : SymEntry) : List UInt8 := s.sym.take s.len

/-- A byte, read. -/
def byteAt (sym : List UInt8) (i : ℕ) : Prog σ UInt8 :=
  match sym[i]? with
  | some c => pure c
  | none => Prog.fault .outOfRange

/-- A byte, written. -/
def setByte (sym : List UInt8) (i : ℕ) (c : UInt8) : Prog σ (List UInt8) :=
  if i < sym.length then pure (sym.set i c) else Prog.fault .outOfRange

/-- `memmove` within one memory. -/
def memmove (sym : List UInt8) (dst src n : ℕ) : Prog σ (List UInt8) :=
  if dst + n ≤ sym.length ∧ src + n ≤ sym.length then
    pure (sym.take dst ++ ((sym.drop src).take n ++ sym.drop (dst + n)))
  else Prog.fault .outOfRange

/-! ## Counting -/

/-- `token_profit`. -/
abbrev Profit := ℕ → Int32

/-- `symbol[i] + (symbol[i + 1] << 8)`. -/
def tokenAt (a b : UInt8) : ℕ := a.toNat + b.toNat * 256

/-- `token_profit[t]++`, or `--`. -/
def bump (d : ℤ) (t : ℕ) : Prog Profit Unit := do
  let profit ← get
  let n ← Prog.signed ((profit t).toInt + d)
  set (Function.update profit t n)

/-- The loop of `learn_symbol` and `forget_symbol`. -/
def countSymbol (d : ℤ) (symbol : List UInt8) (len : ℕ) : Prog Profit Unit :=
  (List.range (len - 1)).forM fun i => do
    let a ← byteAt symbol i
    let b ← byteAt symbol (i + 1)
    bump d (tokenAt a b)

/-- `learn_symbol`. -/
def learnSymbol (symbol : List UInt8) (len : ℕ) : Prog Profit Unit := countSymbol 1 symbol len

/-- `forget_symbol`. -/
def forgetSymbol (symbol : List UInt8) (len : ℕ) : Prog Profit Unit := countSymbol (-1) symbol len

/-! ## Replacing a token -/

/-- `find_token` among the `len` bytes from `str` on. -/
def findToken (sym : List UInt8) (str len : ℕ) (token : UInt8 × UInt8) : Prog σ (Option ℕ) :=
  Prog.forReturn (fun i => do
    let a ← byteAt sym (str + i)
    let b ← byteAt sym (str + i + 1)
    return if a = token.1 ∧ b = token.2 then some (str + i) else none) (List.range (len - 1))

/-- The variables of the inner loop of `compress_symbols`, with the memory
`p1` and `p2` point into. -/
structure Scan where
  sym : List UInt8
  p1 : ℕ
  p2 : ℕ
  size : ℕ
  len : ℕ

/-- One round of that loop. From its second round on `size` counts bytes
behind the name too. -/
def replaceRound (str : UInt8 × UInt8) (idx : UInt8) (v : Scan) :
    Prog σ (Scan ⊕ (List UInt8 × ℕ)) := do
  let sym ← setByte v.sym v.p2 idx
  let p2 := v.p2 + 1
  let size := v.size - (p2 - v.p1)
  let sym ← memmove sym p2 (p2 + 1) size
  let p1 := p2
  let len := v.len - 1
  if size < 2 then return .inr (sym, len)
  else
    match ← findToken sym p1 size str with
    | some p2 => return .inl ⟨sym, p1, p2, size, len⟩
    | none => return .inr (sym, len)

/-- The body of `compress_symbols`, for one symbol. -/
def compressSymbol (fuel : ℕ) (str : UInt8 × UInt8) (idx : UInt8) (s : SymEntry) :
    Prog Profit SymEntry := do
  match ← findToken s.sym 0 s.len str with
  | none => return s
  | some p2 =>
      forgetSymbol s.sym s.len
      let r ← Prog.loop (replaceRound str idx) fuel ⟨s.sym, 0, p2, s.len, s.len⟩
      let s := { s with sym := r.1, len := r.2 }
      learnSymbol s.sym s.len
      return s

/-- `compress_symbols`. -/
def compressSymbols (fuel : ℕ) (str : UInt8 × UInt8) (idx : UInt8) :
    List SymEntry → Prog Profit (List SymEntry)
  | [] => pure []
  | s :: table => do
      let s ← compressSymbol fuel str idx s
      let table ← compressSymbols fuel str idx table
      return s :: table

/-! ## The tables -/

/-- The tables of the compression. -/
structure Tables where
  table : List SymEntry
  tokenProfit : Profit
  bestTable : UInt8 → UInt8 × UInt8
  bestTableLen : UInt8 → UInt8

/-- The tables as they are before the compression. -/
def freshTables (table : List SymEntry) : Tables where
  table
  tokenProfit := fun _ => 0
  bestTable := fun _ => (0, 0)
  bestTableLen := fun _ => 0

/-- A program over the counts alone. -/
def onProfit {α : Type} (m : Prog Profit α) : Prog Tables α :=
  Prog.zoom Tables.tokenProfit (fun k p => { k with tokenProfit := p }) m

/-- The loop of `find_best_token` over the tokens below `n`: `best` and
`bestprofit`. -/
def findBest (profit : Profit) : ℕ → ℕ × Int32
  | 0 => (0, -10000)
  | n + 1 =>
      let r := findBest profit n
      if profit n > r.2 then (n, profit n) else r

/-- `find_best_token`. -/
def findBestToken (profit : Profit) : ℕ := (findBest profit 0x10000).1

/-- The loop of `optimize_result` over the codes below `n`, downwards. -/
def optimizeResult (fuel : ℕ) : ℕ → Prog Tables Unit
  | 0 => pure ()
  | n + 1 => do
      let k ← get
      let i := UInt8.ofNat n
      if k.bestTableLen i = 0 then
        let best := findBestToken k.tokenProfit
        if k.tokenProfit best = 0 then return
        else
          let token := (UInt8.ofNat (best % 256), UInt8.ofNat (best / 256 % 256))
          set { k with
            bestTable := Function.update k.bestTable i token
            bestTableLen := Function.update k.bestTableLen i 2 }
          let table ← onProfit (compressSymbols fuel token i k.table)
          modify fun k => { k with table := table }
          optimizeResult fuel n
      else optimizeResult fuel n

/-- The symbols `build_initial_tok_table` keeps, learnt. -/
def learnValid (g : Globals) : List SymEntry → Prog Profit (List SymEntry)
  | [] => pure []
  | s :: table => do
      if symbolValid g s then
        learnSymbol s.sym s.len
        let table ← learnValid g table
        return s :: table
      else learnValid g table

/-- `build_initial_tok_table`. -/
def buildInitialTokTable (g : Globals) : Prog Tables Unit := do
  let k ← get
  let table ← onProfit (learnValid g k.table)
  modify fun k => { k with table := table }

/-- `insert_real_symbols_in_table`. -/
def insertRealSymbolsInTable : Prog Tables Unit :=
  modify fun k =>
    let real := fun c => k.table.any fun s => s.codes.contains c
    { k with
      bestTable := fun c => if real c then (c, (k.bestTable c).2) else k.bestTable c
      bestTableLen := fun c => if real c then 1 else k.bestTableLen c }

/-- `optimize_token_table`: whether it gets past the exit for a table without
a valid symbol. -/
def optimizeTokenTable (fuel : ℕ) (g : Globals) : Prog Tables Bool := do
  buildInitialTokTable g
  insertRealSymbolsInTable
  let k ← get
  if k.table = [] then return false
  else
    optimizeResult fuel 256
    return true

/-! ## Expanding -/

/-- `expand_symbol`, within a depth of recursion. -/
def expandSymbol (k : Tables) : ℕ → List UInt8 → Option (List UInt8)
  | 0, _ => none
  | depth + 1, data =>
      (data.mapM fun c =>
        if (k.bestTable c).1 = c ∧ k.bestTableLen c = 1 then some [c]
        else
          let token := [(k.bestTable c).1, (k.bestTable c).2]
          expandSymbol k depth (token.take (k.bestTableLen c).toNat)).map List.flatten

end Kallsyms

end BlocTest
