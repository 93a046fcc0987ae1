import BlocTest.Kallsyms.Helpers.Optimize
import Mathlib.Data.List.Flatten
/-!
# The compression loses nothing

Whatever the table of symbols, `optimize_token_table` returns a table of the
valid ones, none longer than it was, from which `expand_symbol` yields every
name; and what it does to the names is the greedy replacement of pairs, with
the spare codes taken from the top, because the counts it keeps are exact.
-/

namespace BlocTest

namespace Kallsyms

open Prog

variable {g : Globals} {table : List SymEntry} {k : Tables} {fuel : ℕ} {c : UInt8}

/-- The entry is as `read_symbol` leaves it: the name, which has no NUL, and
one behind it. -/
def Fresh (s : SymEntry) : Prop := s.sym = s.codes ++ [0] ∧ s.len = s.codes.length ∧ 0 ∉ s.codes

instance decidableFresh (s : SymEntry) : Decidable (Fresh s) :=
  inferInstanceAs (Decidable (_ ∧ _ ∧ _))

/-- Such an entry holds its name, with the NUL behind it. -/
theorem Fresh.holds {s : SymEntry} (h : Fresh s) : Holds s s.codes := ⟨h.2.1, 0, h.1⟩

/-- The names of the valid symbols. -/
def validNames (g : Globals) (table : List SymEntry) : List (List UInt8) :=
  (table.filter (symbolValid g)).map SymEntry.codes

/-- The bytes in no name, the last one first. -/
def spareCodes (names : List (List UInt8)) : List UInt8 :=
  ((List.range 256).reverse.map UInt8.ofNat).filter fun c => !names.any fun w => w.contains c

/-- Before the first round the free codes are the spare bytes. -/
theorem freeCodes_realTables {p : Profit} (n : ℕ) :
    freeCodes (realTables table p) n = ((List.range n).reverse.map UInt8.ofNat).filter fun c =>
      !(table.map SymEntry.codes).any fun w => w.contains c := by
  induction n with
  | zero => rfl
  | succ n ih =>
      rw [freeCodes, List.range_succ, List.reverse_append, List.reverse_singleton,
        List.singleton_append, List.map_cons, List.filter_cons, ih, List.any_map]
      simp only [realTables, Function.comp_def]
      simp

/-- What `optimize_token_table` leaves. -/
structure Compressed (g : Globals) (table : List SymEntry) (r : Bool) (k : Tables)
    (codes : List (List UInt8)) (e : UInt8 → List UInt8) : Prop where
  passed : r = true ↔ table.filter (symbolValid g) ≠ []
  optimized : Optimized (validNames g table) k codes e
  greedy : Greedy (spareCodes (validNames g table)) (validNames g table) codes
  header : k.table.map SymEntry.header = (table.filter (symbolValid g)).map SymEntry.header

/-- **A run of `optimize_token_table`.** -/
theorem wp_optimizeTokenTable (hfresh : ∀ s ∈ table, Fresh s)
    (hsmall : ((table.map SymEntry.codes).flatMap tokens).length < 2 ^ 31)
    (hf : ∀ s ∈ table, s.len < fuel) :
    wp (optimizeTokenTable fuel g) (fun r k => ∃ codes e, Compressed g table r k codes e)
      (freshTables table) := by
  have hstart : Counts (freshTables table).tokenProfit [] := fun t => rfl
  have hlearn := wp_learnValid (g := g) (fun s hs => (hfresh s hs).holds) hstart
    (by simpa using hsmall)
  simp only [optimizeTokenTable, buildInitialTokTable, insertRealSymbolsInTable, onProfit, wp_bind,
    wp_get, wp_zoom, wp_modify]
  refine wp_mono hlearn ?_
  rintro _ p ⟨rfl, hp⟩
  rw [List.append_nil] at hp
  have hkept : ∀ s ∈ table.filter (symbolValid g), Fresh s := fun s hs =>
    hfresh s (List.mem_of_mem_filter hs)
  have hO := optimized_realTables (fun s hs => (hkept s hs).holds) hp
  have hR : Remaining (realTables (table.filter (symbolValid g)) p) (validNames g table) 256 :=
    remaining_realTables fun s hs => (hkept s hs).2.2
  -- the tables are those where every byte in use stands for itself
  show wp (if table.filter (symbolValid g) = [] then _ else _) _
    (realTables (table.filter (symbolValid g)) p)
  rw [wp_ite]
  refine ⟨fun hnone => wp_pure.2 ⟨_, _, ⟨by simp [hnone], hO, ?_, rfl⟩⟩, fun hsome => ?_⟩
  · rw [validNames, hnone]
    exact .noPair fun w hw => absurd hw List.not_mem_nil
  · have hsub : (validNames g table).Sublist (table.map SymEntry.codes) :=
      List.filter_sublist.map _
    have hfew : ((validNames g table).flatMap tokens).length < 2 ^ 31 :=
      (hsub.flatMap tokens).length_le.trans_lt hsmall
    have hshort : ∀ w ∈ validNames g table, w.length < fuel := by
      intro w hw
      obtain ⟨s, hs, rfl⟩ := List.mem_map.1 hw
      rw [← (hkept s hs).2.1]
      exact hf s (List.mem_of_mem_filter hs)
    rw [wp_bind]
    refine wp_mono (wp_optimizeResult (Nat.le_refl 256) hO hR hfew hshort) ?_
    rintro _ k ⟨codes, e, hO', hG, hheader⟩
    rw [freeCodes_realTables] at hG
    exact wp_pure.2 ⟨codes, e, ⟨by simp [hsome], hO', hG, hheader⟩⟩

/-- Every code of the compressed names is expanded within the depth. -/
theorem Optimized.expandSymbol_codes {names codes : List (List UInt8)} {e : UInt8 → List UInt8}
    (hO : Optimized names k codes e) {w : List UInt8} (hw : w ∈ codes) :
    expandSymbol k 257 w = some (w.flatMap e) := by
  refine hO.expandSymbol_eq 257 w (fun c hc => ⟨hO.used w hw c hc, ?_⟩) (by decide)
  unfold depth
  split <;> omega

/-- Every symbol of the table holds a name no longer than it was, which its
codes, all of them of the table, spell. -/
theorem Compressed.forall₂ {r : Bool} {codes : List (List UInt8)} {e : UInt8 → List UInt8}
    (hC : Compressed g table r k codes e) (hlen : ∀ s ∈ table, s.len = s.codes.length) :
    List.Forall₂ (fun s s' => s'.len = s'.codes.length ∧ s'.len ≤ s.len ∧ s'.codes ∈ codes ∧
        s'.codes.flatMap e = s.codes) (table.filter (symbolValid g)) k.table := by
  have hcodes := forall₂_holds_map hC.optimized.holds
  have hspelled := hC.optimized.spelled
  have hshort := hC.greedy.length_le
  rw [← hcodes, validNames, List.forall₂_map_left_iff, List.forall₂_map_right_iff] at hshort
  rw [← hcodes, List.map_map, validNames] at hspelled
  replace hspelled := List.forall₂_eq_eq_eq ▸ hspelled.symm
  rw [List.forall₂_map_left_iff, List.forall₂_map_right_iff] at hspelled
  rw [List.forall₂_iff_zip] at hshort hspelled ⊢
  refine ⟨hshort.1, fun {s s'} hmem => ?_⟩
  obtain ⟨hs, hs'⟩ := List.of_mem_zip hmem
  have hle : s'.codes.length ≤ s.codes.length := hshort.2 hmem
  have hheld := (holds_of_mem hC.optimized.holds hs').1
  refine ⟨hheld, ?_, ?_, (hspelled.2 hmem).symm⟩
  · rw [hlen s (List.mem_of_mem_filter hs), hheld]
    exact hle
  · rw [← hcodes]
    exact List.mem_map_of_mem hs'

/-- **The compression loses nothing.** Run on any table as it was read,
`optimize_token_table` returns, and fails only if no symbol is valid. The
table it leaves is that of the valid symbols, in order: none is longer than
it was, and `expand_symbol` yields its name. -/
theorem optimizeTokenTable_expands (g : Globals) (table : List SymEntry) (fuel : ℕ)
    (hfresh : ∀ s ∈ table, Fresh s)
    (hsmall : ((table.map SymEntry.codes).flatMap tokens).length < 2 ^ 31)
    (hf : ∀ s ∈ table, s.len < fuel) :
    ∃ r k, optimizeTokenTable fuel g (freshTables table) = .ok (r, k) ∧
      (r = true ↔ table.filter (symbolValid g) ≠ []) ∧
      k.table.map SymEntry.header = (table.filter (symbolValid g)).map SymEntry.header ∧
      List.Forall₂ (fun s s' => s'.len ≤ s.len ∧ expandSymbol k 257 s'.codes = some s.codes)
        (table.filter (symbolValid g)) k.table := by
  obtain ⟨r, k, hrun, codes, e, hC⟩ := wp_optimizeTokenTable hfresh hsmall hf (g := g)
  refine ⟨r, k, hrun, hC.passed, hC.header, ?_⟩
  refine (hC.forall₂ fun s hs => (hfresh s hs).2.1).imp fun s s' h => ?_
  obtain ⟨-, hlen, hmem, hspell⟩ := h
  exact ⟨hlen, by rw [hC.optimized.expandSymbol_codes hmem, hspell]⟩

/-- Two symbols that share most of their names. -/
def twoSymbols : List SymEntry :=
  [⟨0x1000, 4, 0, [84, 97, 98, 97, 0], false⟩, ⟨0x2000, 5, 1, [116, 97, 98, 97, 98, 0], false⟩]

/-- Two names that share a pair more often than any other. -/
theorem optimizeTokenTable_expands_two :
    ∃ r k, optimizeTokenTable 6 (initGlobals true false false) (freshTables twoSymbols) =
        .ok (r, k) ∧
      (r = true ↔ twoSymbols.filter (symbolValid (initGlobals true false false)) ≠ []) ∧
      k.table.map SymEntry.header =
        (twoSymbols.filter (symbolValid (initGlobals true false false))).map SymEntry.header ∧
      List.Forall₂ (fun s s' => s'.len ≤ s.len ∧ expandSymbol k 257 s'.codes = some s.codes)
        (twoSymbols.filter (symbolValid (initGlobals true false false))) k.table :=
  optimizeTokenTable_expands (initGlobals true false false) twoSymbols 6 (by decide) (by decide)
    (by decide)

/-- **The compression is greedy.** The names it leaves are the ones the greedy
replacement makes of the valid ones with the spare bytes, and the counts it
keeps are exact to the end, which is why the pair it replaces is each time
the commonest of those there are. -/
theorem optimizeTokenTable_greedy (g : Globals) (table : List SymEntry) (fuel : ℕ)
    (hfresh : ∀ s ∈ table, Fresh s)
    (hsmall : ((table.map SymEntry.codes).flatMap tokens).length < 2 ^ 31)
    (hf : ∀ s ∈ table, s.len < fuel) :
    ∃ r k, optimizeTokenTable fuel g (freshTables table) = .ok (r, k) ∧
      (∀ codes, Greedy (spareCodes (validNames g table)) (validNames g table) codes ↔
        codes = k.table.map SymEntry.codes) ∧
      ∀ x y, (k.tokenProfit (tokenAt x y)).toInt =
        occurrences (k.table.map SymEntry.codes) x y := by
  obtain ⟨r, k, hrun, codes, e, hC⟩ := wp_optimizeTokenTable hfresh hsmall hf (g := g)
  have hcodes := forall₂_holds_map hC.optimized.holds
  refine ⟨r, k, hrun, fun codes' => ?_, fun x y => ?_⟩
  · rw [hcodes]
    constructor
    · exact fun h => h.unique hC.greedy
    · rintro rfl
      exact hC.greedy
  · rw [hcodes]
    exact hC.optimized.counts (tokenAt x y)

/-- The same two names. -/
theorem optimizeTokenTable_greedy_two :
    ∃ r k, optimizeTokenTable 6 (initGlobals true false false) (freshTables twoSymbols) =
        .ok (r, k) ∧
      (∀ codes, Greedy (spareCodes (validNames (initGlobals true false false) twoSymbols))
          (validNames (initGlobals true false false) twoSymbols) codes ↔
        codes = k.table.map SymEntry.codes) ∧
      ∀ x y, (k.tokenProfit (tokenAt x y)).toInt =
        occurrences (k.table.map SymEntry.codes) x y :=
  optimizeTokenTable_greedy (initGlobals true false false) twoSymbols 6 (by decide) (by decide)
    (by decide)

end Kallsyms

end BlocTest
