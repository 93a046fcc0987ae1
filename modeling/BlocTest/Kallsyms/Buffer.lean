import BlocTest.Kallsyms.Output
/-!
# The buffer of `write_src`

`buf` has room for a name of `KSYM_NAME_LEN - 1` bytes and its NUL, and
`read_symbol` admits names of as many bytes, to which it adds the type. So
one byte is missing where the compression ends with a code for the whole of
such a name.
-/

namespace BlocTest

namespace Kallsyms

open Prog

variable {g : Globals} {table : List SymEntry} {k : Tables} {c : UInt8} {r : Bool}
variable {codes names : List (List UInt8)} {e : UInt8 → List UInt8}

/-- The string of a code has no room in the buffer if it fills it. -/
theorem expandInBuf_overruns (hO : Optimized names k codes e)
    (hlong : ksymNameLen ≤ (stringOf k e c).length) : expandInBuf k c () = .error .outOfRange := by
  rw [expandInBuf, hO.expand_entry]
  simp only [if_neg (Nat.not_lt.2 hlong)]
  rfl

/-- **A string that is too long stops the loop over the codes.** -/
theorem tokenTableFrom_overruns (hO : Optimized names k codes e)
    (hbuf : ∀ c, (stringOf k e c).length < ksymNameLen →
      wp (expandInBuf k c) (fun buf _ => buf = stringOf k e c) ())
    {cs : List UInt8} (hlong : ∃ c ∈ cs, ksymNameLen ≤ (stringOf k e c).length) :
    ∀ off, tokenTableFrom k off cs () = .error .outOfRange := by
  induction cs with
  | nil =>
      obtain ⟨c, hc, -⟩ := hlong
      exact absurd hc List.not_mem_nil
  | cons c cs ih =>
      intro off
      rw [tokenTableFrom]
      rcases Nat.lt_or_ge (stringOf k e c).length ksymNameLen with hlt | hge
      · obtain ⟨buf, _, hrun, rfl⟩ := hbuf c hlt
        rw [bind_ok hrun]
        refine bind_error (ih ?_ _)
        obtain ⟨c', hc', hlong'⟩ := hlong
        rcases List.mem_cons.1 hc' with rfl | hc'
        · omega
        · exact ⟨c', hc', hlong'⟩
      · exact bind_error (expandInBuf_overruns hO hge)

/-- A code in use that spells as much as a name can hold spells a whole
name. -/
theorem Compressed.whole_name (hC : Compressed g table r k codes e)
    (hentry : ∀ s ∈ table, EntryFresh 128 s) (hlong : ksymNameLen ≤ (stringOf k e c).length) :
    k.bestTableLen c ≠ 0 ∧ ∃ s ∈ table.filter (symbolValid g),
      s.codes.length = ksymNameLen ∧ stringOf k e c = s.codes := by
  have hused : k.bestTableLen c ≠ 0 := by
    intro h0
    rw [stringOf, if_pos h0] at hlong
    exact absurd hlong (by decide)
  obtain ⟨w, hw, hin⟩ := (hC.optimized.stringOf_infix c).resolve_left fun h => by
    rw [h] at hlong
    exact absurd hlong (by decide)
  obtain ⟨s, hs, rfl⟩ := List.mem_map.1 hw
  have hs' := hentry s (List.mem_of_mem_filter hs)
  have hle : s.codes.length ≤ ksymNameLen := by
    rw [← hs'.fresh.2.1]
    exact hs'.len_le
  have hlen : (stringOf k e c).length = s.codes.length :=
    Nat.le_antisymm hin.length_le (hle.trans hlong)
  exact ⟨hused, s, hs, by omega, hin.eq_of_length hlen⟩

/-- A code in use, alone, expands to its string. -/
theorem Optimized.expandSymbol_single (hO : Optimized names k codes e)
    (hused : k.bestTableLen c ≠ 0) : expandSymbol k 257 [c] = some (stringOf k e c) := by
  have hdepth : depth k c < 257 := by
    unfold depth
    split <;> omega
  rw [hO.expandSymbol_eq 257 [c] (by simpa using ⟨hused, hdepth⟩) (by decide), stringOf,
    if_neg hused]
  simp

/-- **When `write_src` overruns its buffer.** Exactly when every symbol that
is kept is in reach of its offset and the compression has ended with a code
for the whole of a name that, with its type, has `KSYM_NAME_LEN` bytes. -/
theorem main_overruns_iff (g : Globals) (lines : List Line) (fuel : ℕ)
    (hlines : ∀ line ∈ lines, line.IsText) (hsize : listingSize lines < 2 ^ 31)
    (hf : ksymNameLen < fuel) :
    main fuel g lines () = .error .outOfRange ↔
      (∀ s ∈ kept g lines, InReach (sortedTable g lines).2 s) ∧
      ∃ k c, optimizeTokenTable fuel (sortedTable g lines).2
          (freshTables (sortedTable g lines).1) = .ok (true, k) ∧
        k.bestTableLen c ≠ 0 ∧ ∃ s ∈ kept g lines, s.codes.length = ksymNameLen ∧
          expandSymbol k 257 [c] = some s.codes := by
  have hshort : ∀ line ∈ lines, line.IsText ∧ line.AtMost 128 := fun line hline =>
    ⟨hlines line hline, fun hlt => hlt⟩
  obtain ⟨⟨hentry, hpercpu, hbase⟩, hle⟩ := sortedTable_spec hshort (g := g)
  rw [main, kept]
  generalize (sortedTable g lines).2 = g' at *
  generalize (sortedTable g lines).1 = table at *
  have hlen : ∀ s ∈ table, s.len = s.codes.length := fun s hs => (hentry s hs).fresh.2.1
  have htokens := length_tokens_le_tableSize hlen
  have hfuel : ∀ s ∈ table, s.len < fuel := fun s hs =>
    (hentry s hs).len_le.trans_lt hf
  obtain ⟨r, k, hrun, codes, e, hC⟩ := wp_optimizeTokenTable (g := g')
    (fun s hs => (hentry s hs).fresh) (by omega) hfuel
  have hO := hC.optimized
  rw [hrun]
  cases r with
  | false =>
      refine ⟨fun h => (by cases h), fun h => ?_⟩
      obtain ⟨-, k', c, hok, -⟩ := h
      cases hok
  | true =>
      have hword : ∀ s ∈ table.filter (symbolValid g'), WordOk g' s := fun s hs =>
        addrWord_reads (hpercpu s (List.mem_of_mem_filter hs)) (hbase s (List.mem_of_mem_filter hs))
      have hbuf : ∀ c, (stringOf k e c).length < ksymNameLen →
          wp (expandInBuf k c) (fun buf _ => buf = stringOf k e c) () := by
        intro c hc
        refine wp_expandInBuf hO hc (hO.stringOf_of_names (Nat.succ_pos 128) ?_ c).2
        intro w hw
        obtain ⟨s, hs, rfl⟩ := List.mem_map.1 hw
        have hs' := hentry s (List.mem_of_mem_filter hs)
        refine ⟨?_, hs'.fresh.2.2⟩
        rw [← hs'.fresh.2.1]
        exact Nat.lt_succ_of_le hs'.len_le
      show writeSrc g' k () = .error .outOfRange ↔ _
      rw [writeSrc, mapM_addrWord_congr hC.header]
      rcases mapM_cases (addrWord g') (table.filter (symbolValid g')) with
        ⟨hnone, s, hs, hfail⟩ | ⟨ws, hws, -, hne⟩
      · rw [hnone]
        refine ⟨fun h => (by cases h), fun h => ?_⟩
        exact absurd (h.1 s hs) ((hword s hs).2.1 hfail)
      · rw [hws]
        have hreach : ∀ s ∈ table.filter (symbolValid g'), InReach g' s := fun s hs =>
          not_not.1 (mt (hword s hs).2.2 (hne s hs))
        by_cases hlong : ∃ c ∈ allBytes, ksymNameLen ≤ (stringOf k e c).length
        · refine ⟨fun _ => ⟨hreach, ?_⟩, fun _ =>
            bind_error (tokenTableFrom_overruns hO hbuf hlong 0)⟩
          obtain ⟨c, -, hc⟩ := hlong
          obtain ⟨hused, s, hs, hfull, heq⟩ := hC.whole_name hentry hc
          exact ⟨k, c, rfl, hused, s, hs, hfull, by rw [hO.expandSymbol_single hused, heq]⟩
        · -- every string fits, so the loop ends
          have hfits : ∀ c, (stringOf k e c).length < ksymNameLen := by
            intro c
            exact Nat.lt_of_not_le fun h => hlong ⟨c, mem_allBytes c, h⟩
          constructor
          · intro h
            obtain ⟨tokens, _, htok, -⟩ :=
              wp_tokenTableFrom (fun c => hbuf c (hfits c)) allBytes 0
            simp only at h
            rw [bind_ok htok] at h
            cases h
          · rintro ⟨-, k', c, hok, hused, s, hs, hfull, heq⟩
            cases hok
            rw [hO.expandSymbol_single hused] at heq
            have hc := hfits c
            rw [Option.some.inj heq, hfull] at hc
            exact absurd hc (Nat.lt_irrefl _)

/-! ## A name that is compressed to one code -/

/-- Only the pair of the byte with itself occurs in a run of it. -/
theorem occurrences_replicate (x a b : UInt8) (n : ℕ) :
    occurrences [List.replicate (n + 1) x] a b = if x = a ∧ x = b then n else 0 := by
  have htokens : tokens (List.replicate (n + 1) x) = List.replicate n (tokenAt x x) := by
    rw [tokens, digrams_replicate, List.map_replicate]
  have hindex : (tokenAt x x == tokenAt a b) = true ↔ x = a ∧ x = b := by
    rw [beq_iff_eq]
    exact ⟨tokenAt_inj, fun h => by rw [← h.1, ← h.2]⟩
  rw [occurrences, List.flatMap_singleton, htokens, List.count_replicate]
  simp only [hindex]

/-- In a run of one byte there is one pair. -/
theorem commonest_replicate (x : UInt8) (n : ℕ) :
    Commonest [List.replicate (n + 2) x] x x := by
  have hself : occurrences [List.replicate (n + 2) x] x x = n + 1 := by
    rw [occurrences_replicate, if_pos ⟨rfl, rfl⟩]
  refine ⟨by omega, fun a b => ?_, fun a b hab => ?_⟩
  · rw [hself, occurrences_replicate]
    split <;> omega
  · rw [hself, occurrences_replicate] at hab
    split at hab
    · next h => rw [← h.1, ← h.2]
    · omega

/-- **A run of one byte ends as one code**, after as many rounds as it can be
halved. -/
theorem greedy_replicate (n : ℕ) : ∀ {x : UInt8} {free : List UInt8}, n ≤ free.length →
    ∃ c, Greedy free [List.replicate (2 ^ n) x] [[c]] := by
  induction n with
  | zero =>
      intro x free _
      exact ⟨x, .noPair fun w hw => by rw [List.mem_singleton.1 hw]; rfl⟩
  | succ n ih =>
      intro x free hfree
      cases free with
      | nil => exact absurd hfree (Nat.not_succ_le_zero n)
      | cons z free =>
          obtain ⟨c, hc⟩ := ih (x := z) (Nat.le_of_succ_le_succ hfree)
          have hpos := Nat.two_pow_pos n
          obtain ⟨m, hm⟩ : ∃ m, 2 ^ (n + 1) = m + 2 := ⟨2 ^ (n + 1) - 2, by rw [Nat.pow_succ]; omega⟩
          refine ⟨c, .replace (x := x) (y := x) (by rw [hm]; exact commonest_replicate x m) ?_⟩
          rw [List.map_singleton, Nat.pow_succ', replacePair_replicate]
          exact hc

/-- One symbol of the longest name that is read, all of it the letter of its
type. -/
def longLines : List Line := [⟨0x1000, 116, List.replicate 127 116⟩]

/-- The entry it makes. -/
def longEntry : SymEntry where
  addr := 0x1000
  len := 128
  startPos := 0
  sym := 116 :: (List.replicate 127 116 ++ [0])
  percpuAbsolute := false

/-- There is nothing to sort. -/
theorem sortedTable_longLines :
    (sortedTable (initGlobals true false true) longLines).1 = [longEntry] := by
  have hread : (readMap longLines (initGlobals true false true) []).1 = [longEntry] := by
    decide +kernel
  have habs := readMap_absolutePercpu longLines (initGlobals true false true) []
  rw [sortedTable, habs, hread]
  exact List.mergeSort_singleton _

/-- The symbol is kept, whatever its address. -/
theorem kept_longLines : kept (initGlobals true false true) longLines = [longEntry] := by
  rw [kept, sortedTable_longLines]
  decide +kernel

/-- The compression ends with a code for all of it. -/
theorem optimizeTokenTable_longEntry {g : Globals} (hvalid : symbolValid g longEntry = true) :
    ∃ k c, optimizeTokenTable 129 g (freshTables [longEntry]) = .ok (true, k) ∧
      k.bestTableLen c ≠ 0 ∧ expandSymbol k 257 [c] = some longEntry.codes := by
  have hfresh : ∀ s ∈ [longEntry], Fresh s := by decide +kernel
  have hfuel : ∀ s ∈ [longEntry], s.len < 129 := by decide
  obtain ⟨r, k, hrun, codes, e, hC⟩ :=
    wp_optimizeTokenTable (g := g) hfresh (by decide +kernel) hfuel
  have hfilter : [longEntry].filter (symbolValid g) = [longEntry] := by
    rw [List.filter_cons_of_pos hvalid, List.filter_nil]
  have hcodes : longEntry.codes = List.replicate (2 ^ 7) 116 := by decide +kernel
  have hnames : validNames g [longEntry] = [List.replicate (2 ^ 7) 116] := by
    rw [validNames, hfilter, List.map_singleton, hcodes]
  have hgreedy := hC.greedy
  have hO := hC.optimized
  rw [hnames] at hgreedy hO
  have hspare : 7 ≤ (spareCodes [List.replicate (2 ^ 7) 116]).length := by decide +kernel
  obtain ⟨c, hc⟩ := greedy_replicate 7 (x := 116) hspare
  obtain rfl := hc.unique hgreedy
  obtain rfl : r = true := hC.passed.2 (by rw [hfilter]; exact List.cons_ne_nil _ _)
  have hspelled : [c].flatMap e = List.replicate (2 ^ 7) 116 := by
    simpa using hO.spelled
  refine ⟨k, c, hrun, hO.used [c] List.mem_cons_self c List.mem_cons_self, ?_⟩
  rw [hO.expandSymbol_codes List.mem_cons_self, hspelled, hcodes]

/-- Seven rounds halve the name to one code, whose string fills the buffer. -/
theorem main_overruns_iff_longLines :
    main 129 (initGlobals true false true) longLines () = .error .outOfRange := by
  refine (main_overruns_iff (initGlobals true false true) longLines 129 (by decide +kernel)
    (by decide +kernel) (by decide)).2 ⟨?_, ?_⟩
  · rw [kept_longLines]
    exact List.forall_mem_singleton.2 (Or.inr (by decide +kernel))
  · have hvalid : symbolValid (sortedTable (initGlobals true false true) longLines).2 longEntry =
        true := by
      decide +kernel
    obtain ⟨k, c, hrun, hused, hexpand⟩ := optimizeTokenTable_longEntry hvalid
    rw [kept_longLines, sortedTable_longLines]
    exact ⟨k, c, hrun, hused, longEntry, List.mem_singleton_self _, by decide +kernel, hexpand⟩

end Kallsyms

end BlocTest
