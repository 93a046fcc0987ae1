import BlocTest.Common.Sorting
import BlocTest.Kallsyms.Output
import Mathlib.Data.Prod.Lex
/-!
# The order of the symbols

`compare_symbols` compares five things one after the other, the last of them
by a difference of unsigned numbers that is read as an `int`. On the symbols
of a listing of up to `2 ^ 31` lines this is the order of a key, and no two
symbols have the same key. So `sort_symbols` leaves one arrangement, whatever
`qsort` does.
-/

namespace BlocTest

namespace Kallsyms

open Sorting

variable {g : Globals} {table : List SymEntry} {lines : List Line} {sa sb : SymEntry}

/-- What a symbol is sorted by: its address, whether it is weak, whether a
linker script may provide it, its underscores, its place in the listing. -/
def SymEntry.key (s : SymEntry) : ℕ ×ₗ ℤ ×ₗ ℤ ×ₗ ℕ ×ₗ ℕ :=
  toLex (s.addr.toNat, toLex (flag s.isWeak, toLex (flag (mayBeLinkerScriptProvideSymbol s),
    toLex (prefixUnderscoresCount s.symName, s.startPos.toNat))))

/-! ## The comparison -/

/-- A comparison that goes on where two numbers are the same. -/
theorem ite_ne_sub_le_zero_iff {x y r : ℤ} :
    (if x ≠ y then x - y else r) ≤ 0 ↔ x < y ∨ x = y ∧ r ≤ 0 := by
  split <;> omega

/-- A comparison of addresses that goes on where they are the same. -/
theorem ite_gt_lt_le_zero_iff {x y : UInt64} {r : ℤ} :
    (if x > y then 1 else if x < y then -1 else r) ≤ 0 ↔
      x.toNat < y.toNat ∨ x.toNat = y.toNat ∧ r ≤ 0 := by
  by_cases hgt : y < x
  · rw [if_pos hgt]
    rw [UInt64.lt_iff_toNat_lt] at hgt
    omega
  · rw [if_neg hgt]
    by_cases hlt : x < y
    · rw [if_pos hlt]
      rw [UInt64.lt_iff_toNat_lt] at hlt
      omega
    · rw [if_neg hlt]
      rw [UInt64.lt_iff_toNat_lt] at hgt hlt
      omega

/-- The difference of two positions below `2 ^ 31`, as an `int`, has its
sign. -/
theorem toInt_sub_le_zero_iff {x y : UInt32} (hx : x.toNat < 2 ^ 31) (hy : y.toNat < 2 ^ 31) :
    (x - y).toInt32.toInt ≤ 0 ↔ x.toNat ≤ y.toNat := by
  have hsub : (x - y).toNat = (2 ^ 32 - y.toNat + x.toNat) % 2 ^ 32 := UInt32.toNat_sub x y
  have hint : (x - y).toInt32.toInt = ((x - y).toNat : ℤ).bmod (2 ^ 32) := by
    show (x - y).toBitVec.toInt = _
    rw [BitVec.toInt_eq_toNat_bmod]
    rfl
  rw [hint, hsub, Int.bmod_def]
  split <;> omega

/-- **`compare_symbols` compares the keys.** -/
theorem compareSymbols_le_zero_iff (ha : sa.startPos.toNat < 2 ^ 31)
    (hb : sb.startPos.toNat < 2 ^ 31) : compareSymbols sa sb ≤ 0 ↔ sa.key ≤ sb.key := by
  have hcount : ∀ m n : ℕ, m ≠ n ↔ (m : ℤ) ≠ n := fun m n => by omega
  rw [compareSymbols, ite_gt_lt_le_zero_iff, ite_ne_sub_le_zero_iff, ite_ne_sub_le_zero_iff]
  simp only [hcount]
  rw [ite_ne_sub_le_zero_iff, toInt_sub_le_zero_iff ha hb]
  simp only [SymEntry.key, Prod.Lex.toLex_le_toLex, Int.ofNat_lt, Int.natCast_inj]

/-! ## The positions -/

/-- `read_map` numbers the symbols it keeps. -/
theorem readMap_startPos (lines : List Line) : ∀ (g : Globals) (table : List SymEntry),
    table.map SymEntry.startPos = (List.range table.length).map UInt32.ofNat →
    (readMap lines g table).1.map SymEntry.startPos =
        (List.range (readMap lines g table).1.length).map UInt32.ofNat ∧
      (readMap lines g table).1.length ≤ table.length + lines.length := by
  induction lines with
  | nil => exact fun _ _ htable => ⟨htable, Nat.le_add_right _ _⟩
  | cons line lines ih =>
      intro g table htable
      rw [readMap, List.length_cons]
      split
      · obtain ⟨hpos, hle⟩ := ih g table htable
        exact ⟨hpos, by omega⟩
      · next s g' _ =>
        have hnew : (table ++ [{ s with startPos := UInt32.ofNat table.length }]).map
            SymEntry.startPos =
            (List.range (table ++ [{ s with startPos := UInt32.ofNat table.length }]).length).map
              UInt32.ofNat := by
          rw [List.map_append, htable, List.length_append, List.length_singleton, List.range_succ,
            List.map_append]
          rfl
        obtain ⟨hpos, hle⟩ := ih g' _ hnew
        rw [List.length_append, List.length_singleton] at hle
        exact ⟨hpos, by omega⟩

/-- Places in the listing stay. -/
theorem makePercpusAbsolute_startPos :
    (makePercpusAbsolute g table).map SymEntry.startPos = table.map SymEntry.startPos := by
  rw [makePercpusAbsolute, List.map_map]
  refine List.map_congr_left fun s _ => ?_
  rw [Function.comp_apply]
  split <;> rfl

/-- The symbols as `sort_symbols` gets them. -/
def unsortedTable (g : Globals) (lines : List Line) : List SymEntry :=
  if (readMap lines g []).2.absolutePercpu then
    makePercpusAbsolute (readMap lines g []).2 (readMap lines g []).1
  else (readMap lines g []).1

/-- The table is the sorted one. -/
theorem sortedTable_fst : (sortedTable g lines).1 = sortSymbols (unsortedTable g lines) := rfl

/-- Before the sort each symbol holds its place. -/
theorem unsortedTable_startPos :
    (unsortedTable g lines).map SymEntry.startPos =
        (List.range (unsortedTable g lines).length).map UInt32.ofNat ∧
      (unsortedTable g lines).length ≤ lines.length := by
  obtain ⟨hpos, hle⟩ := readMap_startPos lines g [] rfl
  rw [List.length_nil, Nat.zero_add] at hle
  unfold unsortedTable
  split
  · rw [makePercpusAbsolute_startPos, makePercpusAbsolute, List.length_map]
    exact ⟨hpos, hle⟩
  · exact ⟨hpos, hle⟩

/-- So no place reaches the sign bit. -/
theorem startPos_lt (hlines : lines.length ≤ 2 ^ 31) {s : SymEntry}
    (hs : s ∈ unsortedTable g lines) : s.startPos.toNat < 2 ^ 31 := by
  obtain ⟨hpos, hle⟩ := @unsortedTable_startPos g lines
  have hmem : s.startPos ∈ (List.range (unsortedTable g lines).length).map UInt32.ofNat := by
    rw [← hpos]
    exact List.mem_map_of_mem hs
  obtain ⟨i, hi, heq⟩ := List.mem_map.1 hmem
  rw [List.mem_range] at hi
  have htoNat : (UInt32.ofNat i).toNat = i % 2 ^ 32 := UInt32.toNat_ofNat'
  rw [← heq, htoNat]
  omega

/-- **No two symbols have the same key.** -/
theorem nodup_keys (hlines : lines.length ≤ 2 ^ 31) :
    ((unsortedTable g lines).map SymEntry.key).Nodup := by
  obtain ⟨hpos, hle⟩ := @unsortedTable_startPos g lines
  have hnodup : ((unsortedTable g lines).map SymEntry.startPos).Nodup := by
    rw [hpos]
    refine List.Nodup.map_on ?_ List.nodup_range
    intro i hi j hj hij
    rw [List.mem_range] at hi hj
    have htoNat : i % 2 ^ 32 = j % 2 ^ 32 := by
      rw [← UInt32.toNat_ofNat', ← UInt32.toNat_ofNat', hij]
    omega
  refine List.Nodup.map_on ?_ (List.Nodup.of_map _ hnodup)
  intro sa ha sb hb hab
  refine List.inj_on_of_nodup_map hnodup ha hb ?_
  simp only [SymEntry.key, toLex_inj, Prod.mk.injEq] at hab
  exact UInt32.toNat_inj.1 hab.2.2.2.2

/-- **The order of the table.** From a listing of up to `2 ^ 31` lines, the
table is the symbols read, in strictly increasing order of their keys; and
whatever arrangement of the symbols read leaves no two neighbours out of order
for `compare_symbols` is the table. -/
theorem sortedTable_sorted (g : Globals) (lines : List Line) (hlines : lines.length ≤ 2 ^ 31) :
    (sortedTable g lines).1.Perm (unsortedTable g lines) ∧
      (sortedTable g lines).1.Pairwise (fun sa sb => sa.key < sb.key) ∧
      ∀ table : List SymEntry, table.Perm (unsortedTable g lines) →
        table.IsChain (fun sa sb => compareSymbols sa sb ≤ 0) →
        table = (sortedTable g lines).1 := by
  have hcmp : ComparesBy compareSymbols SymEntry.key (unsortedTable g lines) :=
    fun sa ha sb hb => compareSymbols_le_zero_iff (startPos_lt hlines ha) (startPos_lt hlines hb)
  have hnodup := nodup_keys (g := g) hlines
  rw [sortedTable_fst]
  have hperm : (sortSymbols (unsortedTable g lines)).Perm (unsortedTable g lines) :=
    List.mergeSort_perm _ _
  refine ⟨hperm, ?_, ?_⟩
  · have hne := List.pairwise_map.1 ((hperm.map SymEntry.key).nodup_iff.2 hnodup)
    exact (hcmp.pairwise.and hne).imp fun h => lt_of_le_of_ne h.1 h.2
  · intro table htable hchain
    refine hcmp.eq_mergeSort ?_ htable hchain
    intro sa ha sb hb
    exact List.inj_on_of_nodup_map hnodup ha hb

/-- Names of one address: a weak one, and two that a linker script may provide
or not. -/
def aliasLines : List Line :=
  [⟨0x1000, 87, bytes "weak"⟩, ⟨0x1000, 84, bytes "__start_one"⟩, ⟨0x1000, 84, bytes "__one"⟩]

/-- The weak name comes last, and before it the one a linker script may
provide. -/
theorem sortedTable_sorted_alias :
    (sortedTable (initGlobals true false false) aliasLines).1.Perm
        (unsortedTable (initGlobals true false false) aliasLines) ∧
      (sortedTable (initGlobals true false false) aliasLines).1.Pairwise
        (fun sa sb => sa.key < sb.key) ∧
      ∀ table : List SymEntry,
        table.Perm (unsortedTable (initGlobals true false false) aliasLines) →
        table.IsChain (fun sa sb => compareSymbols sa sb ≤ 0) →
        table = (sortedTable (initGlobals true false false) aliasLines).1 :=
  sortedTable_sorted (initGlobals true false false) aliasLines (by decide)

end Kallsyms

end BlocTest
