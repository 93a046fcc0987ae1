import BlocTest.Kallsyms.Helpers.Output
import BlocTest.Kallsyms.Helpers.Symbols
/-!
# The output reads back

From a listing of symbols to the tables of the output and back: the reader
gets the type and the name of every symbol that is kept, and its address, in
the order of the sort; and it may start at any marker.
-/

namespace BlocTest

namespace Kallsyms

open Prog

variable {g : Globals} {table : List SymEntry} {lines : List Line} {k : Tables} {fuel n : ℕ}
variable {codes : List (List UInt8)} {e : UInt8 → List UInt8} {r : Bool}

/-- The symbols the output lists, and the globals it is written with. -/
def kept (g : Globals) (lines : List Line) : List SymEntry :=
  (sortedTable g lines).1.filter (symbolValid (sortedTable g lines).2)

/-- What holds of the table that is compressed. -/
structure Sorted (n : ℕ) (g : Globals) (table : List SymEntry) : Prop where
  entry : ∀ s ∈ table, EntryFresh n s
  percpu : ∀ s ∈ table, s.percpuAbsolute = true → g.absolutePercpu = true
  base : ∀ s ∈ table, g.baseRelative = true →
    g.absolutePercpu = true ∧ s.percpuAbsolute = true ∨ g.relativeBase ≤ s.addr

/-- **The table before the compression**: its entries are as they were read,
only percpu symbols lie below the base, and it takes no more than the
listing. -/
theorem sortedTable_spec (hlines : ∀ line ∈ lines, line.IsText ∧ line.AtMost n) :
    Sorted n (sortedTable g lines).2 (sortedTable g lines).1 ∧
      tableSize (sortedTable g lines).1 ≤ listingSize lines := by
  obtain ⟨hread, hle⟩ := readMap_spec hlines g []
    (fun s hs => absurd hs List.not_mem_nil)
  -- the table before the sort
  let g₁ := (readMap lines g []).2
  let t₁ := if g₁.absolutePercpu then makePercpusAbsolute g₁ (readMap lines g []).1
    else (readMap lines g []).1
  have ht₁ : (∀ s ∈ t₁, EntryFresh n s) ∧ tableSize t₁ = tableSize (readMap lines g []).1 := by
    by_cases habs : g₁.absolutePercpu = true
    · simp only [t₁, if_pos habs]
      exact makePercpusAbsolute_spec fun s hs => (hread s hs).1
    · simp only [t₁, if_neg habs]
      exact ⟨fun s hs => (hread s hs).1, trivial⟩
  have hpercpu : ∀ s ∈ t₁, s.percpuAbsolute = true → g₁.absolutePercpu = true := by
    intro s hs hs'
    by_contra habs
    simp only [t₁, if_neg habs] at hs
    rw [(hread s hs).2] at hs'
    cases hs'
  have hperm : (sortedTable g lines).1.Perm t₁ := List.mergeSort_perm _ _
  have hglobals : (sortedTable g lines).2 =
      if g₁.baseRelative then { g₁ with relativeBase := recordRelativeBase t₁ } else g₁ := rfl
  refine ⟨⟨fun s hs => ht₁.1 s (hperm.mem_iff.1 hs), fun s hs habs => ?_, fun s hs hrel => ?_⟩, ?_⟩
  · have habs₁ := hpercpu s (hperm.mem_iff.1 hs) habs
    rw [hglobals]
    split <;> exact habs₁
  · have hs₁ := hperm.mem_iff.1 hs
    have hrel₁ : g₁.baseRelative = true := by
      rw [hglobals] at hrel
      split at hrel
      · assumption
      · exact hrel
    rw [hglobals, if_pos hrel₁]
    by_cases habs : s.percpuAbsolute = true
    · exact .inl ⟨hpercpu s hs₁ habs, habs⟩
    · exact .inr (recordRelativeBase_le hs₁ (by simpa using habs))
  · have hsum : tableSize (sortedTable g lines).1 = tableSize t₁ :=
      (hperm.map _).sum_nat
    rw [hsum, ht₁.2]
    simpa [tableSize] using hle

/-- The globals after the listing is read: the options are as they were. -/
theorem readSymbol_absolutePercpu {line : Line} {s : SymEntry} {g' : Globals}
    (h : readSymbol line g = some (s, g')) : g'.absolutePercpu = g.absolutePercpu := by
  have hclass : ∀ g₁, classify line g = some g₁ → g₁.absolutePercpu = g.absolutePercpu := by
    intro g₁ h₁
    unfold classify checkTextRanges at h₁
    grind
  unfold readSymbol checkPercpuRange at h
  grind

/-- The options are what they were. -/
theorem readMap_absolutePercpu (lines : List Line) : ∀ (g : Globals) (table : List SymEntry),
    (readMap lines g table).2.absolutePercpu = g.absolutePercpu := by
  induction lines with
  | nil => exact fun _ _ => rfl
  | cons line lines ih =>
      intro g table
      rw [readMap]
      split
      · exact ih g table
      · next h => rw [ih, readSymbol_absolutePercpu h]

/-- The same of the whole of the reading and sorting. -/
theorem sortedTable_absolutePercpu :
    (sortedTable g lines).2.absolutePercpu = g.absolutePercpu := by
  have hread := readMap_absolutePercpu lines g []
  unfold sortedTable
  by_cases hrel : (readMap lines g []).2.baseRelative = true
  · simpa only [if_pos hrel] using hread
  · simpa only [if_neg hrel] using hread

/-! ## Reading the compressed table -/

/-- The stream of names takes what the table takes. -/
theorem length_namesOf (hlen : ∀ s ∈ table, s.len = s.codes.length) :
    (namesOf table).length = tableSize table := by
  induction table with
  | nil => rfl
  | cons s table ih =>
      obtain ⟨hs, htable⟩ := List.forall_mem_cons.1 hlen
      rw [namesOf_cons, List.length_cons, List.length_append, ih htable, tableSize, tableSize,
        List.map_cons, List.sum_cons, hs]
      omega

variable {out : Output}

/-- **From any symbol on, the stream yields the names.** -/
theorem Compressed.read (hC : Compressed g table r k codes e)
    (hentry : ∀ s ∈ table, EntryFresh 255 s) {tokens : List UInt8}
    (htoken : ∀ c, out.token tokens c = stringOf k e c) (d : ℕ) :
    out.read tokens ((table.filter (symbolValid g)).length - d) (namesOf (k.table.drop d)) =
      some (((table.filter (symbolValid g)).drop d).map SymEntry.codes) := by
  have hshort : ∀ s ∈ table.filter (symbolValid g), s.len ≤ 255 := fun s hs =>
    (hentry s (List.mem_of_mem_filter hs)).len_le
  have hall := (List.forall₂_and_left _ _).2
    ⟨hshort, hC.forall₂ fun s hs => (hentry s hs).fresh.2.1⟩
  have htells : List.Forall₂ (Tells out tokens) (table.filter (symbolValid g)) k.table := by
    refine hall.imp fun s s' h => ?_
    obtain ⟨hs, hlen, hle, hmem, hspell⟩ := h
    refine ⟨hlen, by omega, ?_⟩
    rw [← hspell]
    refine List.flatMap_congr fun c hc => ?_
    rw [htoken, stringOf, if_neg (hC.optimized.used _ hmem c hc)]
  rw [← List.length_drop]
  exact read_namesOf (List.forall₂_drop d htells)

/-- There are fewer pairs than bytes. -/
theorem length_tokens_le_tableSize (hlen : ∀ s ∈ table, s.len = s.codes.length) :
    ((table.map SymEntry.codes).flatMap tokens).length ≤ tableSize table := by
  induction table with
  | nil => exact Nat.le_refl _
  | cons s table ih =>
      obtain ⟨hs, htable⟩ := List.forall_mem_cons.1 hlen
      have := ih htable
      rw [List.map_cons, List.flatMap_cons, List.length_append, length_tokens, tableSize,
        List.map_cons, List.sum_cons, ← hs]
      rw [tableSize] at this
      omega

/-- The output of a compressed table: what each of its tables is, and that the
token table leads from the codes to their strings. -/
structure LaidOut (g : Globals) (table : List SymEntry) (k : Tables) (e : UInt8 → List UInt8)
    (out : Output) : Prop where
  numSyms : out.numSyms = UInt32.ofNat k.table.length
  names : out.names = namesOf k.table
  markers : out.markers = markersFrom 0 0 k.table
  relativeBase : out.relativeBase = if g.baseRelative then some (g.text - g.relativeBase) else none
  addresses : List.Forall₂ (fun s w => addrWord g s = some w) (table.filter (symbolValid g))
    out.addresses
  assembled : out.assembled = none ↔
    ∃ s ∈ table.filter (symbolValid g), ∃ b ∈ s.codes, ¬ IsPlain b
  token : ∀ tokens, out.assembled = some tokens → ∀ c, out.token tokens c = stringOf k e c

/-- **What `write_src` lays out of a compressed table.** -/
theorem Compressed.wp_writeSrc (hC : Compressed g table r k codes e)
    (hentry : ∀ s ∈ table, EntryFresh 127 s) :
    wp (writeSrc g k) (fun res _ =>
      (res = none ↔ ∃ s ∈ table.filter (symbolValid g), addrWord g s = none) ∧
      ∀ out, res = some out → LaidOut g table k e out) () := by
  have hnames : ∀ w ∈ validNames g table, w.length < ksymNameLen ∧ (0 : UInt8) ∉ w := by
    intro w hw
    obtain ⟨s, hs, rfl⟩ := List.mem_map.1 hw
    have hs' := hentry s (List.mem_of_mem_filter hs)
    have := hs'.len_le
    refine ⟨?_, hs'.fresh.2.2⟩
    rw [← hs'.fresh.2.1, ksymNameLen]
    omega
  have hfits := hC.optimized.stringOf_of_names (by decide) hnames
  rw [writeSrc, mapM_addrWord_congr hC.header]
  rcases mapM_cases (addrWord g) (table.filter (symbolValid g)) with
    ⟨hnone, hex⟩ | ⟨ws, hws, hall, hne⟩
  · rw [hnone]
    exact wp_pure.2 ⟨⟨fun _ => hex, fun _ => rfl⟩,
      fun out h => absurd h.symm (Option.some_ne_none out)⟩
  · rw [hws]
    simp only [wp_bind]
    refine wp_mono (wp_tokenTableFrom (fun c => wp_expandInBuf hC.optimized (hfits c).1 (hfits c).2)
      allBytes 0) ?_
    rintro ⟨strings, idx⟩ _ ⟨rfl, hidx⟩
    refine wp_pure.2 ⟨⟨fun h => absurd h (Option.some_ne_none _), fun h => ?_⟩, fun out h => ?_⟩
    · obtain ⟨s, hs, hnone⟩ := h
      exact absurd hnone (hne s hs)
    · have hstrings : out.tokenTable = allBytes.map (stringOf k e) := by cases h; rfl
      obtain ⟨hassembled, htokens⟩ := assembled_spec hstrings
      have hindex : ∀ p : ℕ, p < 256 → out.tokenIndex[p]? =
          some (UInt16.ofNat (tokenBytes k e (allBytes.take p)).length) := by
        intro p hp
        cases h
        rw [hidx p (by simpa [allBytes] using hp), Nat.zero_add]
      have hsome : ∀ P : UInt8 → Prop, (∃ w ∈ validNames g table, ∃ b ∈ w, P b) ↔
          ∃ s ∈ table.filter (symbolValid g), ∃ b ∈ s.codes, P b := fun P => by
        simp [validNames]
      refine ⟨by cases h; rfl, by cases h; rfl, by cases h; rfl, by cases h; rfl,
        by cases h; exact hall, ?_, fun tokens ht c => ?_⟩
      · rw [hassembled, hC.optimized.exists_mem_stringOf, hsome]
      · rw [htokens tokens ht]
        exact token_eq (fun c => (hfits c).1) (fun c => (hfits c).2) hindex c

/-- **Every marker leads to its symbol.** -/
theorem drop_marker (hlen : ∀ s ∈ table, s.len = s.codes.length) (hsize : tableSize table < 2 ^ 32)
    {j : ℕ} {m : UInt32} (hm : (markersFrom 0 0 table)[j]? = some m) :
    (namesOf table).drop m.toNat = namesOf (table.drop (256 * j)) := by
  have hsplit : namesOf table =
      namesOf (table.take (256 * j)) ++ namesOf (table.drop (256 * j)) := by
    rw [← namesOf_append, List.take_append_drop]
  have hsmall : (namesOf (table.take (256 * j))).length < 2 ^ 32 := by
    have := congrArg List.length hsplit
    rw [length_namesOf hlen, List.length_append] at this
    omega
  have hnat : m.toNat = (namesOf (table.take (256 * j))).length := by
    rw [markers_get j hlen hm, UInt32.zero_add, sizeOf32, UInt32.toNat_ofNat',
      Nat.mod_eq_of_lt hsmall]
  rw [hsplit, hnat, List.drop_left' rfl]

/-- **The output reads back.** Whatever the options and the listing, if it is
text and no name with its type fills the buffer, the program ends, with a
failure only if no symbol is kept or one lies out of reach of an offset.
Otherwise the words yield the addresses of the symbols kept, wherever the
linker puts `_text`; the token table assembles if the bytes of their types and
names stand for themselves between quotes; and the stream of names then yields
the type and the name of each, from the start or from any marker. -/
theorem main_reads (g : Globals) (lines : List Line) (fuel : ℕ)
    (hlines : ∀ line ∈ lines, line.IsText ∧ line.sym.length + 1 ≠ ksymNameLen)
    (hsize : listingSize lines < 2 ^ 31) (hf : ksymNameLen ≤ fuel) :
    ∃ res, main fuel g lines () = .ok (res, ()) ∧
      (res = none ↔ kept g lines = [] ∨ ∃ s ∈ kept g lines, ¬ InReach (sortedTable g lines).2 s) ∧
      ∀ out, res = some out →
        out.numSyms = UInt32.ofNat (kept g lines).length ∧
        (∀ text, out.addresses.map (AddrWord.read g.absolutePercpu text (out.base text)) =
          (kept g lines).map (SymEntry.addrAt (sortedTable g lines).2 text)) ∧
        (out.assembled = none ↔ ∃ s ∈ kept g lines, ∃ b ∈ s.codes, ¬ IsPlain b) ∧
        ∀ tokens, out.assembled = some tokens →
          out.read tokens (kept g lines).length out.names =
            some ((kept g lines).map SymEntry.codes) ∧
          ∀ (j : ℕ) (m : UInt32), out.markers[j]? = some m →
            out.read tokens ((kept g lines).length - 256 * j) (out.names.drop m.toNat) =
              some (((kept g lines).drop (256 * j)).map SymEntry.codes) := by
  have hshort : ∀ line ∈ lines, line.IsText ∧ line.AtMost 127 := by
    intro line hline
    obtain ⟨htext, hne⟩ := hlines line hline
    refine ⟨htext, fun hlt => ?_⟩
    rw [ksymNameLen] at hlt hne
    omega
  obtain ⟨hS, hle⟩ := sortedTable_spec hshort (g := g)
  obtain ⟨hentry, hpercpu, hbase⟩ := hS
  rw [main, kept, ← @sortedTable_absolutePercpu g lines]
  generalize (sortedTable g lines).2 = g' at *
  generalize (sortedTable g lines).1 = table at *
  have hlen : ∀ s ∈ table, s.len = s.codes.length := fun s hs => (hentry s hs).fresh.2.1
  have htokens := length_tokens_le_tableSize hlen
  have hfuel : ∀ s ∈ table, s.len < fuel := fun s hs => by
    have := (hentry s hs).len_le
    rw [ksymNameLen] at hf
    omega
  obtain ⟨r, k, hrun, codes, e, hC⟩ := wp_optimizeTokenTable (g := g')
    (fun s hs => (hentry s hs).fresh) (by omega) hfuel
  rw [hrun]
  cases r with
  | false =>
      have hnone : table.filter (symbolValid g') = [] := by
        by_contra hne
        exact Bool.false_ne_true (hC.passed.2 hne)
      exact ⟨none, rfl, ⟨fun _ => .inl hnone, fun _ => rfl⟩, fun out h => by cases h⟩
  | true =>
      have hsome : table.filter (symbolValid g') ≠ [] := hC.passed.1 rfl
      obtain ⟨res, _, hwrite, hfail, hout⟩ := hC.wp_writeSrc hentry
      have hword : ∀ s ∈ table, WordOk g' s := fun s hs =>
        addrWord_reads (hpercpu s hs) (hbase s hs)
      refine ⟨res, hwrite, ?_, fun out h => ?_⟩
      · rw [hfail, or_iff_right hsome]
        refine exists_congr fun s => and_congr_right fun hs => ?_
        exact (hword s (List.mem_of_mem_filter hs)).2
      · have hL := hout out h
        have hentry' : ∀ s ∈ table, EntryFresh 255 s := fun s hs =>
          ⟨(hentry s hs).fresh, (hentry s hs).len_pos, (hentry s hs).len_le.trans (by decide)⟩
        have hall := hC.forall₂ hlen
        refine ⟨by rw [hL.numSyms, hall.length_eq], fun text => ?_, hL.assembled,
          fun tokens ht => ⟨?_, fun j m hm => ?_⟩⟩
        · have hvalid : ∀ s ∈ table.filter (symbolValid g'), WordOk g' s := fun s hs =>
            hword s (List.mem_of_mem_filter hs)
          have hbase' : g'.baseRelative = true →
              out.base text = text - (g'.text - g'.relativeBase) := fun hrel => by
            rw [Output.base, hL.relativeBase, if_pos hrel, Option.getD_some]
          have heq : List.Forall₂ (· = ·)
              ((table.filter (symbolValid g')).map (SymEntry.addrAt g' text))
              (out.addresses.map (AddrWord.read g'.absolutePercpu text (out.base text))) := by
            rw [List.forall₂_map_left_iff, List.forall₂_map_right_iff]
            refine ((List.forall₂_and_left _ _).2 ⟨hvalid, hL.addresses⟩).imp fun s w h => ?_
            exact (h.1.1 w text (out.base text) h.2 hbase').symm
          rw [List.forall₂_eq_eq_eq] at heq
          exact heq.symm
        · rw [hL.names]
          exact hC.read hentry' (hL.token tokens ht) 0
        · have hlen' : ∀ s ∈ k.table, s.len = s.codes.length := fun s hs =>
            (holds_of_mem hC.optimized.holds hs).1
          have hsmall : tableSize k.table < 2 ^ 32 := by
            have h₁ := tableSize_le (hall.imp fun s s' h => h.2.1)
            have h₂ := tableSize_filter_le (symbolValid g') table
            omega
          rw [hL.markers] at hm
          rw [hL.names, drop_marker hlen' hsmall hm]
          exact hC.read hentry' (hL.token tokens ht) (256 * j)

/-- Two symbols of a listing, at addresses 16 bytes apart. -/
def twoLines : List Line := [⟨0x1000, 84, [97, 98, 97]⟩, ⟨0x1010, 116, [97, 98, 97, 98]⟩]

/-- Two functions, in relative mode. -/
theorem main_reads_two :
    ∃ res, main 128 (initGlobals true false true) twoLines () = .ok (res, ()) ∧
      (res = none ↔ kept (initGlobals true false true) twoLines = [] ∨
        ∃ s ∈ kept (initGlobals true false true) twoLines,
          ¬ InReach (sortedTable (initGlobals true false true) twoLines).2 s) ∧
      ∀ out, res = some out →
        out.numSyms = UInt32.ofNat (kept (initGlobals true false true) twoLines).length ∧
        (∀ text, out.addresses.map (AddrWord.read false text (out.base text)) =
          (kept (initGlobals true false true) twoLines).map
            (SymEntry.addrAt (sortedTable (initGlobals true false true) twoLines).2 text)) ∧
        (out.assembled = none ↔
          ∃ s ∈ kept (initGlobals true false true) twoLines, ∃ b ∈ s.codes, ¬ IsPlain b) ∧
        ∀ tokens, out.assembled = some tokens →
          out.read tokens (kept (initGlobals true false true) twoLines).length out.names =
            some ((kept (initGlobals true false true) twoLines).map SymEntry.codes) ∧
          ∀ (j : ℕ) (m : UInt32), out.markers[j]? = some m →
            out.read tokens ((kept (initGlobals true false true) twoLines).length - 256 * j)
                (out.names.drop m.toNat) =
              some (((kept (initGlobals true false true) twoLines).drop (256 * j)).map
                SymEntry.codes) :=
  main_reads (initGlobals true false true) twoLines 128 (by decide) (by decide) (by decide)

end Kallsyms

end BlocTest
