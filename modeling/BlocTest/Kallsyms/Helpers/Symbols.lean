import BlocTest.Kallsyms.Compress
import BlocTest.Kallsyms.Model.Output
import Mathlib.Data.List.Flatten
/-!
# The table that is compressed

What holds of the entries from `read_symbol` on, through
`make_percpus_absolute` and the sort: each is as it was read, no larger
together than the listing, and none lies below `relative_base` except the
percpu symbols, whose addresses are their own.
-/

namespace BlocTest

namespace Kallsyms

variable {g g' : Globals} {table : List SymEntry} {lines : List Line} {line : Line} {s : SymEntry}

/-- A line whose entry, if it is read, has no more than `n` bytes. -/
def Line.AtMost (n : ℕ) (line : Line) : Prop :=
  line.sym.length < ksymNameLen → line.sym.length + 1 ≤ n

/-- A line of text: neither the type nor the name has a NUL. -/
def Line.IsText (line : Line) : Prop := line.stype ≠ 0 ∧ 0 ∉ line.sym

instance decidableIsText (line : Line) : Decidable line.IsText :=
  inferInstanceAs (Decidable (_ ∧ _))

/-- What a listing takes, with the type and a byte for the length or the NUL
of each line. -/
def listingSize (lines : List Line) : ℕ := (lines.map fun line => line.sym.length + 2).sum

/-- What a table of names takes, with the lengths. -/
def tableSize (table : List SymEntry) : ℕ := (table.map fun s => s.len + 1).sum

/-- Some of the symbols take no more than all. -/
theorem tableSize_filter_le (f : SymEntry → Bool) (table : List SymEntry) :
    tableSize (table.filter f) ≤ tableSize table := by
  induction table with
  | nil => exact Nat.le_refl _
  | cons s table ih =>
      rw [List.filter_cons, tableSize, tableSize] at *
      split <;> simp only [List.map_cons, List.sum_cons] <;> omega

/-- Shorter names take no more. -/
theorem tableSize_le {table' : List SymEntry}
    (h : List.Forall₂ (fun s s' : SymEntry => s'.len ≤ s.len) table table') :
    tableSize table' ≤ tableSize table := by
  induction h with
  | nil => exact Nat.le_refl _
  | cons hs _ ih =>
      simp only [tableSize, List.map_cons, List.sum_cons] at ih ⊢
      omega

/-- **What `read_symbol` makes of a line it keeps**: the type and the name
with a NUL, the name being shorter than the buffer. -/
theorem readSymbol_eq (h : readSymbol line g = some (s, g')) :
    line.sym.length < ksymNameLen ∧
      s = ⟨line.addr, line.sym.length + 1, 0, line.stype :: (line.sym ++ [0]), false⟩ := by
  unfold readSymbol at h
  split at h
  · cases h
  · next hlen =>
    cases hc : classify line g with
    | none => rw [hc] at h; cases h
    | some g₁ =>
        rw [hc] at h
        simp only [Option.some.injEq, Prod.mk.injEq] at h
        exact ⟨by omega, h.1.symm⟩

/-- What every entry of a table satisfies. -/
structure EntryFresh (n : ℕ) (s : SymEntry) : Prop where
  fresh : Fresh s
  len_pos : 0 < s.len
  len_le : s.len ≤ n

/-- A line of text makes an entry as it should be. -/
theorem EntryFresh.of_line {n : ℕ} {pos : UInt32} (hline : line.IsText)
    (hn : line.sym.length + 1 ≤ n) :
    EntryFresh n ⟨line.addr, line.sym.length + 1, pos, line.stype :: (line.sym ++ [0]), false⟩ := by
  have hcodes : (⟨line.addr, line.sym.length + 1, pos, line.stype :: (line.sym ++ [0]), false⟩ :
      SymEntry).codes = line.stype :: line.sym := by
    simp [SymEntry.codes]
  refine ⟨⟨?_, ?_, ?_⟩, Nat.succ_pos _, hn⟩
  · rw [hcodes, List.cons_append]
  · rw [hcodes, List.length_cons]
  · rw [hcodes, List.mem_cons, not_or]
    exact ⟨fun h => hline.1 h.symm, hline.2⟩

/-- `read_map` adds entries that are as they were read. -/
theorem readMap_spec {n : ℕ} (hlines : ∀ line ∈ lines, line.IsText ∧ line.AtMost n) :
    ∀ (g : Globals) (table : List SymEntry),
      (∀ s ∈ table, EntryFresh n s ∧ s.percpuAbsolute = false) →
      (∀ s ∈ (readMap lines g table).1, EntryFresh n s ∧ s.percpuAbsolute = false) ∧
        tableSize (readMap lines g table).1 ≤ tableSize table + listingSize lines := by
  induction lines with
  | nil => exact fun _ _ htable => ⟨htable, Nat.le_add_right _ _⟩
  | cons line lines ih =>
      intro g table htable
      obtain ⟨⟨hline, hn⟩, hrest⟩ := List.forall_mem_cons.1 hlines
      have hsize : listingSize (line :: lines) = line.sym.length + 2 + listingSize lines := rfl
      rw [readMap]
      cases hread : readSymbol line g with
      | none =>
          obtain ⟨hall, hle⟩ := ih hrest g table htable
          exact ⟨hall, hle.trans (by rw [hsize]; omega)⟩
      | some r =>
          obtain ⟨s, g'⟩ := r
          obtain ⟨hshort, rfl⟩ := readSymbol_eq hread
          have hnew : ∀ s ∈ table ++ [⟨line.addr, line.sym.length + 1, UInt32.ofNat table.length,
              line.stype :: (line.sym ++ [0]), false⟩],
              EntryFresh n s ∧ s.percpuAbsolute = false := by
            intro s hs
            rcases List.mem_append.1 hs with hs | hs
            · exact htable s hs
            · rw [List.mem_singleton.1 hs]
              exact ⟨.of_line hline (hn hshort), rfl⟩
          obtain ⟨hall, hle⟩ := ih hrest g' _ hnew
          refine ⟨hall, hle.trans ?_⟩
          rw [hsize, tableSize, tableSize, List.map_append, List.sum_append]
          simp only [List.map_cons, List.map_nil, List.sum_cons, List.sum_nil]
          omega

/-! ## The percpu symbols -/

/-- With an `A` for its type the entry still is. -/
theorem EntryFresh.percpu {n : ℕ} (h : EntryFresh n s) :
    EntryFresh n { s with sym := s.sym.set 0 65, percpuAbsolute := true } := by
  obtain ⟨⟨hsym, hlen, h0⟩, hpos, hle⟩ := h
  obtain ⟨a, w, hw⟩ : ∃ a w, s.codes = a :: w := by
    cases hc : s.codes with
    | nil => rw [hc, List.length_nil] at hlen; omega
    | cons a w => exact ⟨a, w, rfl⟩
  have hset : s.sym.set 0 65 = 65 :: (w ++ [0]) := by
    rw [hsym, hw]
    rfl
  have hcodes : ({ s with sym := s.sym.set 0 65, percpuAbsolute := true } : SymEntry).codes =
      65 :: w := by
    rw [hw, List.length_cons] at hlen
    simp only [SymEntry.codes, hset, hlen, List.take_succ_cons, List.take_left' rfl]
  rw [hw, List.mem_cons, not_or] at h0
  refine ⟨⟨?_, ?_, ?_⟩, hpos, hle⟩
  · rw [hcodes]
    exact hset
  · rw [hcodes, List.length_cons]
    rw [hw, List.length_cons] at hlen
    exact hlen
  · rw [hcodes, List.mem_cons, not_or]
    exact ⟨by decide, h0.2⟩

/-- So are all entries after `make_percpus_absolute`, which changes no length.
-/
theorem makePercpusAbsolute_spec {n : ℕ} (htable : ∀ s ∈ table, EntryFresh n s) :
    (∀ s ∈ makePercpusAbsolute g table, EntryFresh n s) ∧
      tableSize (makePercpusAbsolute g table) = tableSize table := by
  constructor
  · intro s' hs'
    obtain ⟨s, hs, rfl⟩ := List.mem_map.1 hs'
    split
    · exact (htable s hs).percpu
    · exact htable s hs
  · rw [tableSize, tableSize, makePercpusAbsolute, List.map_map]
    refine congrArg List.sum (List.map_congr_left fun s _ => ?_)
    rw [Function.comp_apply]
    split <;> rfl

/-! ## The base -/

/-- **No symbol the base is taken over lies below it.** -/
theorem recordRelativeBase_le (hs : s ∈ table) (habs : s.percpuAbsolute = false) :
    recordRelativeBase table ≤ s.addr := by
  have hfold : ∀ (table : List SymEntry) (base : UInt64),
      let r := table.foldl (fun base s =>
        if !s.percpuAbsolute && s.addr < base then s.addr else base) base
      r ≤ base ∧ ∀ s ∈ table, s.percpuAbsolute = false → r ≤ s.addr := by
    intro table
    induction table with
    | nil => exact fun base => ⟨UInt64.le_refl _, fun s hs => absurd hs List.not_mem_nil⟩
    | cons s table ih =>
        intro base
        obtain ⟨hle, hall⟩ := ih (if !s.percpuAbsolute && s.addr < base then s.addr else base)
        have hstep : (if !s.percpuAbsolute && s.addr < base then s.addr else base) ≤ base := by
          split
          · next h =>
            rw [Bool.and_eq_true, decide_eq_true_iff] at h
            exact UInt64.le_of_lt h.2
          · exact UInt64.le_refl _
        refine ⟨UInt64.le_trans hle hstep, fun s' hs' habs' => ?_⟩
        rcases List.mem_cons.1 hs' with rfl | hs'
        · refine UInt64.le_trans hle ?_
          by_cases hlt : s'.addr < base
          · rw [if_pos (by simp [habs', hlt])]
            exact UInt64.le_refl _
          · rw [if_neg (by simp [hlt])]
            exact UInt64.not_lt.1 hlt
        · exact hall s' hs' habs'
  exact (hfold table (-1)).2 s hs habs

end Kallsyms

end BlocTest
