import BlocTest.Kallsyms.Compress
import BlocTest.Kallsyms.Model.Output
/-!
# Reading the tables back

One lemma for each of the tables `write_src` lays out: what stands where, and
that the reader gets from it what was put in.
-/

namespace BlocTest

namespace Kallsyms

open Prog

variable {g : Globals} {table : List SymEntry} {k : Tables} {c : UInt8} {s : SymEntry}
variable {names codes : List (List UInt8)} {e : UInt8 → List UInt8} {out : Output}

/-! ## The stream of names -/

@[simp] theorem namesOf_nil : namesOf [] = [] := rfl

/-- A name is its length and its codes. -/
theorem namesOf_cons : namesOf (s :: table) = UInt8.ofNat s.len :: (s.codes ++ namesOf table) := rfl

theorem namesOf_append (t₁ t₂ : List SymEntry) : namesOf (t₁ ++ t₂) = namesOf t₁ ++ namesOf t₂ :=
  List.flatMap_append

/-- A symbol whose codes have the strings that make the name. -/
def Tells (out : Output) (tokens : List UInt8) (s s' : SymEntry) : Prop :=
  s'.len = s'.codes.length ∧ s'.len < 256 ∧ s'.codes.flatMap (out.token tokens) = s.codes

/-- **The stream reads back symbol by symbol.** -/
theorem read_namesOf {tokens : List UInt8} {table' : List SymEntry}
    (h : List.Forall₂ (Tells out tokens) table table') :
    out.read tokens table.length (namesOf table') = some (table.map SymEntry.codes) := by
  induction h with
  | nil => rfl
  | @cons s s' table table' hs _ ih =>
      obtain ⟨hlen, hsmall, htoken⟩ := hs
      have hbyte : (UInt8.ofNat s'.len).toNat = s'.codes.length := by
        rw [UInt8.toNat_ofNat', ← hlen]
        omega
      have hroom : ¬ (s'.codes ++ namesOf table').length < s'.codes.length := by
        rw [List.length_append]
        omega
      rw [namesOf_cons, List.length_cons, Output.read, hbyte, if_neg hroom, List.take_left' rfl,
        List.drop_left' rfl, ih, htoken]
      rfl

/-! ## The markers -/

/-- The size of the names of a table, as the `unsigned int` that counts it. -/
def sizeOf32 (table : List SymEntry) : UInt32 := UInt32.ofNat (namesOf table).length

/-- A name takes its length and one byte more. -/
theorem sizeOf32_cons (hs : s.len = s.codes.length) :
    sizeOf32 (s :: table) = UInt32.ofNat (s.len + 1) + sizeOf32 table := by
  rw [sizeOf32, sizeOf32, ← UInt32.ofNat_add, namesOf_cons, List.length_cons, List.length_append,
    hs]
  congr 1
  omega

/-- Only the place in a run of 256 counts. -/
theorem markersFrom_add (i : ℕ) (off : UInt32) (table : List SymEntry) :
    markersFrom (i + 256) off table = markersFrom i off table := by
  induction table generalizing i off with
  | nil => rfl
  | cons s table ih =>
      have hmod : (i + 256) % 256 = i % 256 := Nat.add_mod_right i 256
      rw [markersFrom, markersFrom, hmod, Nat.add_right_comm, ih]

/-- Up to the next multiple of 256 there is no marker. -/
theorem markersFrom_skip (d : ℕ) :
    ∀ {i : ℕ} {off : UInt32} {table : List SymEntry}, i + d = 256 → 0 < i →
      (∀ s ∈ table, s.len = s.codes.length) →
      markersFrom i off table = markersFrom 0 (off + sizeOf32 (table.take d)) (table.drop d) := by
  induction d with
  | zero =>
      intro i off table hi _ _
      obtain rfl : i = 256 := hi
      have := markersFrom_add 0 off table
      rw [Nat.zero_add] at this
      simp [this, sizeOf32]
  | succ d ih =>
      intro i off table hi hpos hlen
      cases table with
      | nil => simp [markersFrom]
      | cons s table =>
          obtain ⟨hs, htable⟩ := List.forall_mem_cons.1 hlen
          have hmod : ¬ i % 256 = 0 := by omega
          rw [markersFrom, if_neg hmod, ih (by omega) (by omega) htable, List.take_succ_cons,
            List.drop_succ_cons, sizeOf32_cons hs, UInt32.add_assoc]

/-- **The markers are the offsets of every 256th symbol.** -/
theorem markers_get (j : ℕ) :
    ∀ {off m : UInt32} {table : List SymEntry}, (∀ s ∈ table, s.len = s.codes.length) →
      (markersFrom 0 off table)[j]? = some m → m = off + sizeOf32 (table.take (256 * j)) := by
  induction j with
  | zero =>
      intro off m table _ hm
      cases table with
      | nil => cases hm
      | cons s table =>
          rw [markersFrom] at hm
          simpa [sizeOf32] using hm.symm
  | succ j ih =>
      intro off m table hlen hm
      cases table with
      | nil => cases hm
      | cons s table =>
          obtain ⟨hs, htable⟩ := List.forall_mem_cons.1 hlen
          rw [markersFrom] at hm
          simp only [Nat.zero_mod, if_true, List.getElem?_cons_succ] at hm
          rw [markersFrom_skip 255 (by omega) (by omega) htable] at hm
          have hm' := ih (fun s hs => htable s (List.mem_of_mem_drop hs)) hm
          have htake : (s :: table).take (256 * (j + 1)) =
              s :: (table.take 255 ++ (table.drop 255).take (256 * j)) := by
            rw [show 256 * (j + 1) = 255 + 256 * j + 1 by omega, List.take_succ_cons, List.take_add]
          rw [hm', htake, sizeOf32_cons hs]
          simp only [sizeOf32, namesOf_append, List.length_append, UInt32.ofNat_add,
            UInt32.add_assoc]

/-! ## The token table -/

/-- The string of a code: what it spells, and nothing where it is not in
use. -/
def stringOf (k : Tables) (e : UInt8 → List UInt8) (c : UInt8) : List UInt8 :=
  if k.bestTableLen c = 0 then [] else e c

/-- The string at an offset ends at the first NUL behind it. -/
theorem cstrAt_append {pre w post : List UInt8} (h : 0 ∉ w) :
    cstrAt (pre ++ (w ++ 0 :: post)) pre.length = w := by
  have hall : ∀ a ∈ w, (decide (a ≠ 0)) = true := fun a ha =>
    decide_eq_true (ne_of_mem_of_not_mem ha h)
  rw [cstrAt, List.drop_left' rfl, List.takeWhile_append_of_pos hall]
  simp

/-- Without a NUL in it the string is all there is. -/
theorem cstrAt_zero {w : List UInt8} (h : 0 ∉ w) : cstrAt w 0 = w := by
  have hall : ∀ a ∈ w, (decide (a ≠ 0)) = true := fun a ha =>
    decide_eq_true (ne_of_mem_of_not_mem ha h)
  rw [cstrAt, List.drop_zero, ← List.append_nil w, List.takeWhile_append_of_pos hall,
    List.takeWhile_nil]

/-- A code in use spells a part of some name. -/
theorem Optimized.stringOf_infix (hO : Optimized names k codes e) (c : UInt8) :
    stringOf k e c = [] ∨ ∃ w ∈ names, stringOf k e c <:+: w := by
  unfold stringOf
  split
  · exact .inl rfl
  · next h => exact .inr (hO.within c h)

/-- What `expand_symbol` yields for an entry of the table. -/
theorem Optimized.expand_entry (hO : Optimized names k codes e) (c : UInt8) :
    expandSymbol k 257
      ([(k.bestTable c).1, (k.bestTable c).2].take (k.bestTableLen c).toNat) =
        some (stringOf k e c) := by
  have hdepth : ∀ b, depth k b < 257 := fun b => by
    unfold depth
    split <;> omega
  rcases hO.entries c with h0 | ⟨h1, hself⟩ | h2
  · rw [h0, stringOf, if_pos h0]
    rfl
  · have hmean : meaning k c = .itself := by simp [meaning, h1]
    have hne : k.bestTableLen c ≠ 0 := by rw [h1]; decide
    have hone := hO.expandSymbol_eq 257 [c] (by simpa using ⟨hne, hdepth c⟩) (by decide)
    rw [h1, hself, stringOf, if_neg hne]
    simpa using hone
  · have hmean : meaning k c = .pair (k.bestTable c).1 (k.bestTable c).2 := by simp [meaning, h2]
    have hne : k.bestTableLen c ≠ 0 := by rw [h2]; decide
    have hboth := hO.spells.used hmean
    rw [Ne, Ne, meaning_unused, meaning_unused] at hboth
    have htwo := hO.expandSymbol_eq 257 [(k.bestTable c).1, (k.bestTable c).2] (by
      simp only [List.forall_mem_cons]
      exact ⟨⟨hboth.1, hdepth _⟩, ⟨hboth.2, hdepth _⟩, by simp⟩) (by decide)
    rw [h2, stringOf, if_neg hne, hO.spells.pair hmean]
    simpa using htwo

/-- What is in every name is in every string. -/
theorem Optimized.stringOf_of_names (hO : Optimized names k codes e) {n : ℕ} (hn : 0 < n)
    (hnames : ∀ w ∈ names, w.length < n ∧ (0 : UInt8) ∉ w) (c : UInt8) :
    (stringOf k e c).length < n ∧ (0 : UInt8) ∉ stringOf k e c := by
  rcases hO.stringOf_infix c with h | ⟨w, hw, hin⟩
  · rw [h]
    exact ⟨hn, List.not_mem_nil⟩
  · exact ⟨hin.length_le.trans_lt (hnames w hw).1, fun h => (hnames w hw).2 (hin.subset h)⟩

/-- **A string that fits in the buffer** comes out of it. -/
theorem wp_expandInBuf (hO : Optimized names k codes e)
    (hfits : (stringOf k e c).length < ksymNameLen) (h0 : (0 : UInt8) ∉ stringOf k e c) :
    wp (expandInBuf k c) (fun buf _ => buf = stringOf k e c) () := by
  rw [expandInBuf, hO.expand_entry]
  simp only [if_pos hfits, wp_pure]
  exact cstrAt_zero h0

/-- The bytes of the token table for some codes. -/
def tokenBytes (k : Tables) (e : UInt8 → List UInt8) (cs : List UInt8) : List UInt8 :=
  cs.flatMap fun c => stringOf k e c ++ [0]

/-- **The loop over the codes** collects their strings, and as the index of
each the size of those before it, as a `short`. -/
theorem wp_tokenTableFrom (hbuf : ∀ c, wp (expandInBuf k c) (fun buf _ => buf = stringOf k e c) ())
    (cs : List UInt8) :
    ∀ off, wp (tokenTableFrom k off cs) (fun r _ => r.1 = cs.map (stringOf k e) ∧
      ∀ p : ℕ, p < cs.length →
        r.2[p]? = some (UInt16.ofNat (off + (tokenBytes k e (cs.take p)).length))) () := by
  induction cs with
  | nil => exact fun off => wp_pure.2 ⟨rfl, fun p hp => absurd hp (Nat.not_lt_zero p)⟩
  | cons c cs ih =>
      intro off
      rw [tokenTableFrom, wp_bind]
      refine wp_mono (hbuf c) ?_
      rintro _ _ rfl
      rw [wp_bind]
      refine wp_mono (ih _) ?_
      rintro ⟨strings, idx⟩ _ ⟨rfl, hidx⟩
      refine wp_pure.2 ⟨rfl, fun p hp => ?_⟩
      cases p with
      | zero => simp [tokenBytes]
      | succ p =>
          rw [List.length_cons] at hp
          have hsum : off + (stringOf k e c).length + 1 + (tokenBytes k e (cs.take p)).length =
              off + (tokenBytes k e ((c :: cs).take (p + 1))).length := by
            simp only [tokenBytes, List.take_succ_cons, List.flatMap_cons, List.length_append,
              List.length_singleton]
            omega
          rw [List.getElem?_cons_succ, hidx p (by omega), hsum]

/-- Each string takes the size of the buffer at most. -/
theorem length_tokenBytes_le (hfits : ∀ c, (stringOf k e c).length < ksymNameLen)
    (cs : List UInt8) : (tokenBytes k e cs).length ≤ 128 * cs.length := by
  induction cs with
  | nil => exact Nat.le_refl _
  | cons c cs ih =>
      have hc := hfits c
      simp only [ksymNameLen] at hc
      unfold tokenBytes at ih ⊢
      rw [List.flatMap_cons, List.length_append, List.length_append, List.length_singleton,
        List.length_cons]
      omega

theorem mem_allBytes (c : UInt8) : c ∈ allBytes :=
  List.mem_map.2 ⟨c.toNat, List.mem_range.2 c.toNat_lt, UInt8.ofNat_toNat⟩

/-- The assembler makes the bytes of the strings, if it takes each of them for
itself. -/
theorem assembled_spec (hstrings : out.tokenTable = allBytes.map (stringOf k e)) :
    (out.assembled = none ↔ ∃ c, ∃ b ∈ stringOf k e c, ¬ IsPlain b) ∧
      ∀ tokens, out.assembled = some tokens → tokens = tokenBytes k e allBytes := by
  have hall : (out.tokenTable.all fun s => s.all fun b => IsPlain b) = true ↔
      ∀ c, ∀ b ∈ stringOf k e c, IsPlain b := by
    simp only [hstrings, List.all_eq_true, List.forall_mem_map, decide_eq_true_eq]
    exact ⟨fun h c => h c (mem_allBytes c), fun h c _ => h c⟩
  rw [Output.assembled]
  split
  · next h =>
    refine ⟨⟨fun hnone => absurd hnone (Option.some_ne_none _), fun hex => ?_⟩, fun tokens ht => ?_⟩
    · obtain ⟨c, b, hb, hnot⟩ := hex
      exact absurd (hall.1 h c b hb) hnot
    · rw [← Option.some.inj ht, hstrings, List.flatMap_map, tokenBytes]
  · next h =>
    refine ⟨⟨fun _ => ?_, fun _ => rfl⟩, fun tokens ht => absurd ht.symm (Option.some_ne_none _)⟩
    rw [hall] at h
    push Not at h
    exact h

/-- What some name has, some string has, and the other way round. -/
theorem Optimized.exists_mem_stringOf (hO : Optimized names k codes e) (P : UInt8 → Prop) :
    (∃ c, ∃ b ∈ stringOf k e c, P b) ↔ ∃ w ∈ names, ∃ b ∈ w, P b := by
  constructor
  · rintro ⟨c, b, hb, hP⟩
    rcases hO.stringOf_infix c with h | ⟨w, hw, hin⟩
    · rw [h] at hb
      exact absurd hb List.not_mem_nil
    · exact ⟨w, hw, b, hin.subset hb, hP⟩
  · rintro ⟨w, hw, b, hb, hP⟩
    rw [← hO.spelled] at hw
    obtain ⟨v, hv, rfl⟩ := List.mem_map.1 hw
    obtain ⟨c, hc, hbc⟩ := List.mem_flatMap.1 hb
    refine ⟨c, b, ?_, hP⟩
    rwa [stringOf, if_neg (hO.used v hv c hc)]

/-- **The index leads to the string of every code.** -/
theorem token_eq (hfits : ∀ c, (stringOf k e c).length < ksymNameLen)
    (h0 : ∀ c, (0 : UInt8) ∉ stringOf k e c)
    (hidx : ∀ p : ℕ, p < 256 →
      out.tokenIndex[p]? = some (UInt16.ofNat (tokenBytes k e (allBytes.take p)).length))
    (c : UInt8) : out.token (tokenBytes k e allBytes) c = stringOf k e c := by
  have hlen : allBytes.length = 256 := by simp [allBytes]
  have hc : allBytes[c.toNat]? = some c := by
    have := c.toNat_lt
    rw [allBytes, List.getElem?_map, List.getElem?_range (by omega), Option.map_some,
      UInt8.ofNat_toNat]
  obtain ⟨hlt, hget⟩ := List.getElem?_eq_some_iff.1 hc
  have hdrop : c :: allBytes.drop (c.toNat + 1) = allBytes.drop c.toNat := by
    rw [List.drop_eq_getElem_cons hlt, hget]
  have hsplit : tokenBytes k e allBytes = tokenBytes k e (allBytes.take c.toNat) ++
      (stringOf k e c ++ 0 :: tokenBytes k e (allBytes.drop (c.toNat + 1))) := by
    conv_lhs => rw [← List.take_append_drop c.toNat allBytes, ← hdrop]
    simp [tokenBytes]
  have hsmall := length_tokenBytes_le hfits (allBytes.take c.toNat)
  rw [List.length_take, hlen] at hsmall
  rw [Output.token, hidx c.toNat (by omega), Option.getD_some, UInt16.toNat_ofNat',
    Nat.mod_eq_of_lt (by omega), hsplit, cstrAt_append (h0 c)]

/-! ## The addresses -/

/-- A 64-bit word as a `long long`. -/
theorem toInt_toInt64_u64 (x : UInt64) :
    x.toInt64.toInt = if x.toNat < 2 ^ 63 then (x.toNat : ℤ) else x.toNat - 2 ^ 64 := by
  have hbits : x.toInt64.toInt = x.toBitVec.toInt := rfl
  have hnat : x.toBitVec.toNat = x.toNat := rfl
  have hlt := x.toNat_lt
  rw [hbits, BitVec.toInt_eq_toNat_cond, hnat]
  split <;> split <;> omega

/-- A word that fits an `int` comes back from one. -/
theorem word_signed {x : UInt64} (h : FitsInt x.toInt64.toInt) :
    (Int32.ofInt x.toInt64.toInt).toInt64.toUInt64 = x := by
  have heq : (Int32.ofInt x.toInt64.toInt).toInt64 = x.toInt64 :=
    Int64.toInt_inj.1 (by rw [Int32.toInt_toInt64, toInt_ofInt_of_fits h])
  rw [heq, UInt64.toUInt64_toInt64]

/-- A word that fits an `unsigned int` comes back from an `int`. -/
theorem word_unsigned {x : UInt64} (h : x.toNat < 2 ^ 32) :
    (Int32.ofInt x.toInt64.toInt).toUInt32.toUInt64 = x := by
  have hx : x.toInt64.toInt = (x.toNat : ℤ) := by rw [toInt_toInt64_u64, if_pos (by omega)]
  rw [hx, Int32.ofInt_eq_ofNat, Int32.toUInt32_ofNat', ← UInt64.toNat_inj, UInt32.toNat_toUInt64,
    UInt32.toNat_ofNat', Nat.mod_eq_of_lt h]

variable {x : UInt64}

/-- Without percpu symbols an offset has 32 bits. -/
theorem unsigned_in_range :
    (decide (x.toInt64.toInt < 0) || decide (x.toInt64.toInt > 2 ^ 32 - 1)) = false ↔
      x.toNat < 2 ^ 32 := by
  have hlt := x.toNat_lt
  rw [Bool.or_eq_false_iff, decide_eq_false_iff_not, decide_eq_false_iff_not, toInt_toInt64_u64]
  split <;> omega

/-- With them, that of a percpu symbol has 31. -/
theorem positive_in_range :
    (decide (x.toInt64.toInt < 0) || decide (x.toInt64.toInt > 2 ^ 31 - 1)) = false ↔
      x.toNat < 2 ^ 31 := by
  have hlt := x.toNat_lt
  rw [Bool.or_eq_false_iff, decide_eq_false_iff_not, decide_eq_false_iff_not, toInt_toInt64_u64]
  split <;> omega

/-- And any other is negative, of 32. -/
theorem negative_in_range :
    (decide (x.toInt64.toInt < -2 ^ 31) || decide (x.toInt64.toInt ≥ 0)) = false ↔
      2 ^ 64 - 2 ^ 31 ≤ x.toNat := by
  have hlt := x.toNat_lt
  rw [Bool.or_eq_false_iff, decide_eq_false_iff_not, decide_eq_false_iff_not, toInt_toInt64_u64]
  split <;> omega

/-- The address of a symbol lies where an offset reaches it. -/
def InReach (g : Globals) (s : SymEntry) : Prop :=
  g.baseRelative = false ∨
    if g.absolutePercpu = false then s.addr.toNat < g.relativeBase.toNat + 2 ^ 32
    else if s.percpuAbsolute = true then s.addr.toNat < 2 ^ 31
    else s.addr.toNat < g.relativeBase.toNat + 2 ^ 31

/-- Where a symbol is when `_text` is at `text`: as far from its address as
`_text` is from its own, unless it is a percpu symbol made absolute. -/
def SymEntry.addrAt (g : Globals) (text : UInt64) (s : SymEntry) : UInt64 :=
  if s.percpuAbsolute then s.addr else s.addr + (text - g.text)

/-- What the word for a symbol is for: it reads back as the address, wherever
`_text` is, and there is one if an offset reaches it. -/
def WordOk (g : Globals) (s : SymEntry) : Prop :=
  (∀ word text base, addrWord g s = some word →
    (g.baseRelative = true → base = text - (g.text - g.relativeBase)) →
      word.read g.absolutePercpu text base = s.addrAt g text) ∧
    (addrWord g s = none ↔ ¬ InReach g s)

/-- A word that reads back, of a symbol in reach. -/
theorem wordOk_of_word {w : AddrWord} (hword : addrWord g s = some w) (hreach : InReach g s)
    (hread : ∀ text base, w.read g.absolutePercpu text base = s.addrAt g text) : WordOk g s := by
  refine ⟨fun word text base h _ => ?_, ?_⟩
  · rw [hword] at h
    rw [← Option.some.inj h, hread]
  · rw [hword]
    exact ⟨fun h => absurd h (Option.some_ne_none _), fun h => absurd hreach h⟩

/-- In relative mode the word is the offset, if that does not overflow. -/
theorem wordOk_of_offset {o : ℤ} {overflow : Bool} (hrel : g.baseRelative = true)
    (ho : relativeOffset g s = (o, overflow)) (hreach : overflow = false ↔ InReach g s)
    (hread : overflow = false → ∀ text,
      (AddrWord.offset (Int32.ofInt o)).read g.absolutePercpu text
        (text - (g.text - g.relativeBase)) = s.addrAt g text) :
    WordOk g s := by
  have hword : addrWord g s = if overflow then none else some (.offset (Int32.ofInt o)) := by
    rw [addrWord, if_pos hrel, ho]
  rw [WordOk, hword, ← hreach]
  cases overflow with
  | true => simp
  | false =>
      refine ⟨fun word text base h hbase => ?_, by simp⟩
      cases h
      rw [hbase hrel]
      exact hread rfl text

/-- Offsets from the base, upwards. -/
theorem wordOk_upwards (hrel : g.baseRelative = true) (habs : g.absolutePercpu = false)
    (hs : s.percpuAbsolute = false) (hbase : g.relativeBase ≤ s.addr) : WordOk g s := by
  have hdiff := UInt64.toNat_sub_of_le _ _ hbase
  have hle := UInt64.le_iff_toNat_le.1 hbase
  have hreach : InReach g s ↔ s.addr.toNat < g.relativeBase.toNat + 2 ^ 32 := by
    simp [InReach, hrel, habs]
  have ho : relativeOffset g s = ((s.addr - g.relativeBase).toInt64.toInt,
      decide ((s.addr - g.relativeBase).toInt64.toInt < 0) ||
        decide ((s.addr - g.relativeBase).toInt64.toInt > 2 ^ 32 - 1)) := by
    simp [relativeOffset, habs]
  refine wordOk_of_offset hrel ho ?_ fun hok text => ?_
  · rw [unsigned_in_range, hdiff, hreach]
    omega
  · rw [unsigned_in_range] at hok
    rw [AddrWord.read, habs, word_unsigned hok, SymEntry.addrAt, hs]
    show text - (g.text - g.relativeBase) + (s.addr - g.relativeBase) = s.addr + (text - g.text)
    grind

/-- The addresses of the percpu symbols themselves. -/
theorem wordOk_percpu (hrel : g.baseRelative = true) (habs : g.absolutePercpu = true)
    (hs : s.percpuAbsolute = true) : WordOk g s := by
  have hreach : InReach g s ↔ s.addr.toNat < 2 ^ 31 := by
    simp [InReach, hrel, habs, hs]
  have ho : relativeOffset g s = (s.addr.toInt64.toInt,
      decide (s.addr.toInt64.toInt < 0) || decide (s.addr.toInt64.toInt > 2 ^ 31 - 1)) := by
    simp [relativeOffset, habs, hs]
  refine wordOk_of_offset hrel ho ?_ fun hok text => ?_
  · rw [positive_in_range, hreach]
  · rw [positive_in_range] at hok
    have hint : s.addr.toInt64.toInt = s.addr.toNat := by
      rw [toInt_toInt64_u64, if_pos (by omega)]
    have hfit : FitsInt s.addr.toInt64.toInt := by
      rw [hint, FitsInt]
      omega
    have hpos : (0 : Int32) ≤ Int32.ofInt s.addr.toInt64.toInt := by
      rw [Int32.le_iff_toInt_le, toInt_ofInt_of_fits hfit, hint]
      exact Int.natCast_nonneg _
    rw [AddrWord.read, habs, SymEntry.addrAt, if_pos hs]
    simp only [Bool.not_true, Bool.false_eq_true, if_false, if_pos hpos]
    exact word_signed hfit

/-- Offsets from the base, counted downwards from `-1`. -/
theorem wordOk_downwards (hrel : g.baseRelative = true) (habs : g.absolutePercpu = true)
    (hs : s.percpuAbsolute = false) (hbase : g.relativeBase ≤ s.addr) : WordOk g s := by
  have hle := UInt64.le_iff_toNat_le.1 hbase
  have hlt := s.addr.toNat_lt
  have hdiff : (g.relativeBase - s.addr - 1).toNat =
      2 ^ 64 - 1 - (s.addr.toNat - g.relativeBase.toNat) := by
    have hone : (1 : UInt64).toNat = 1 := rfl
    rw [UInt64.toNat_sub, UInt64.toNat_sub, hone]
    omega
  have hreach : InReach g s ↔ s.addr.toNat < g.relativeBase.toNat + 2 ^ 31 := by
    simp [InReach, hrel, habs, hs]
  have ho : relativeOffset g s = ((g.relativeBase - s.addr - 1).toInt64.toInt,
      decide ((g.relativeBase - s.addr - 1).toInt64.toInt < -2 ^ 31) ||
        decide ((g.relativeBase - s.addr - 1).toInt64.toInt ≥ 0)) := by
    simp [relativeOffset, habs, hs]
  refine wordOk_of_offset hrel ho ?_ fun hok text => ?_
  · rw [negative_in_range, hdiff, hreach]
    omega
  · rw [negative_in_range] at hok
    have hint : (g.relativeBase - s.addr - 1).toInt64.toInt =
        (g.relativeBase - s.addr - 1).toNat - 2 ^ 64 := by
      rw [toInt_toInt64_u64, if_neg (by omega)]
    have hsmall := (g.relativeBase - s.addr - 1).toNat_lt
    have hfit : FitsInt (g.relativeBase - s.addr - 1).toInt64.toInt := by
      rw [hint, FitsInt]
      omega
    have hneg : ¬ (0 : Int32) ≤ Int32.ofInt (g.relativeBase - s.addr - 1).toInt64.toInt := by
      have hzero : (0 : Int32).toInt = 0 := rfl
      rw [Int32.le_iff_toInt_le, toInt_ofInt_of_fits hfit, hint, hzero]
      omega
    rw [AddrWord.read, habs, SymEntry.addrAt, hs]
    simp only [Bool.not_true, Bool.false_eq_true, if_false, if_neg hneg]
    rw [word_signed hfit]
    grind

/-- **A word reads back as the address**, and there is one for every symbol an
offset reaches. -/
theorem addrWord_reads (hpercpu : s.percpuAbsolute = true → g.absolutePercpu = true)
    (hbase : g.baseRelative = true →
      g.absolutePercpu = true ∧ s.percpuAbsolute = true ∨ g.relativeBase ≤ s.addr) :
    WordOk g s := by
  by_cases hrel : g.baseRelative = true
  · rcases hbase hrel with ⟨habs, hs⟩ | hbase
    · exact wordOk_percpu hrel habs hs
    · by_cases hs : s.percpuAbsolute = true
      · exact wordOk_percpu hrel (hpercpu hs) hs
      · by_cases habs : g.absolutePercpu = true
        · exact wordOk_downwards hrel habs (by simpa using hs) hbase
        · exact wordOk_upwards hrel (by simpa using habs) (by simpa using hs) hbase
  · have hreach : InReach g s := .inl (by simpa using hrel)
    have hword : addrWord g s = _ := if_neg hrel
    by_cases hs : s.percpuAbsolute = true
    · rw [if_neg (by simpa using hs)] at hword
      exact wordOk_of_word hword hreach fun text base => (if_pos hs).symm
    · rw [if_pos (by simpa using hs)] at hword
      have hat : ∀ text, s.addrAt g text = s.addr + (text - g.text) := fun _ => if_neg hs
      by_cases htext : g.text ≤ s.addr
      · rw [if_pos htext] at hword
        refine wordOk_of_word hword hreach fun text base => ?_
        rw [AddrWord.read, hat]
        grind
      · rw [if_neg htext] at hword
        refine wordOk_of_word hword hreach fun text base => ?_
        rw [AddrWord.read, hat]
        grind

/-- A map over a list fails at some element, or has a word for each. -/
theorem mapM_cases {α β : Type} (f : α → Option β) (l : List α) :
    (l.mapM f = none ∧ ∃ a ∈ l, f a = none) ∨
      ∃ ws, l.mapM f = some ws ∧ List.Forall₂ (fun a w => f a = some w) l ws ∧
        ∀ a ∈ l, f a ≠ none := by
  induction l with
  | nil => exact .inr ⟨[], rfl, .nil, fun a ha => absurd ha List.not_mem_nil⟩
  | cons a l ih =>
      rw [List.mapM_cons]
      cases ha : f a with
      | none => exact .inl ⟨rfl, a, List.mem_cons_self, ha⟩
      | some w =>
          rcases ih with ⟨hnone, b, hb, hb'⟩ | ⟨ws, hws, hall, hne⟩
          · rw [hnone]
            exact .inl ⟨rfl, b, List.mem_cons_of_mem a hb, hb'⟩
          · rw [hws]
            refine .inr ⟨w :: ws, rfl, .cons ha hall, List.forall_mem_cons.2 ⟨?_, hne⟩⟩
            rw [ha]
            exact Option.some_ne_none w

/-- The word is of the address alone, and of whether it is absolute. -/
theorem addrWord_congr {s' : SymEntry} (h : s'.header = s.header) :
    addrWord g s' = addrWord g s := by
  simp only [SymEntry.header, Prod.mk.injEq] at h
  obtain ⟨haddr, -, habs⟩ := h
  simp only [addrWord, relativeOffset, haddr, habs]

/-- The words are those of the entries before the compression. -/
theorem mapM_addrWord_congr {table' : List SymEntry}
    (h : table'.map SymEntry.header = table.map SymEntry.header) :
    table'.mapM (addrWord g) = table.mapM (addrWord g) := by
  replace h := List.forall₂_eq_eq_eq ▸ h
  rw [List.forall₂_map_left_iff, List.forall₂_map_right_iff] at h
  induction h with
  | nil => rfl
  | cons h _ ih => rw [List.mapM_cons, List.mapM_cons, addrWord_congr h, ih]

end Kallsyms

end BlocTest
