import BlocTest.Kconfig.Model.Confdata
import Mathlib.Tactic.Common
/-!
# Lines of the configuration file

What reading makes of each kind of line that is written: a heading, a prompt
or an empty line changes nothing, and the line of a symbol gives the symbol
its value back.
-/

namespace BlocTest

namespace Kconfig

variable {tab : SymbolTable} {cfg : Config tab} {count : ℕ} {choices : Choices}
variable {rd : Reader} {i : ℕ} {l p s : Text} {c : Char}

/-! ## Text -/

/-- The first place of a character is behind a text that does not have it. -/
theorem strchr_append (h : c ∉ l) (s : Text) : strchr c (l ++ c :: s) = some (l, s) := by
  induction l with
  | nil => rw [List.nil_append, strchr, if_pos rfl]
  | cons d l ih =>
      rw [List.mem_cons, not_or] at h
      rw [List.cons_append, strchr, if_neg fun hd => h.1 hd.symm, ih h.2]
      rfl

/-- A line ends at the first newline. -/
theorem getLines_line (h : '\n' ∉ l) (s : Text) :
    getLines (l ++ '\n' :: s) = (l ++ ['\n']) :: getLines s := by
  induction l with
  | nil => rw [List.nil_append, getLines, if_pos rfl, List.nil_append]
  | cons d l ih =>
      rw [List.mem_cons, not_or] at h
      rw [List.cons_append, getLines, if_neg fun hd => h.1 hd.symm, ih h.2]
      rfl

/-- The lines that are read are the lines that were written. -/
theorem getLines_unlines {ls : List Text} (h : ∀ l ∈ ls, '\n' ∉ l) :
    getLines (unlines ls) = ls.map (· ++ ['\n']) := by
  induction ls with
  | nil => rfl
  | cons l ls ih =>
      obtain ⟨hl, hls⟩ := List.forall_mem_cons.1 h
      have hsplit : unlines (l :: ls) = l ++ '\n' :: unlines ls := by
        simp only [unlines, List.flatMap_cons, List.append_assoc, List.singleton_append]
      rw [hsplit, getLines_line hl, ih hls, List.map_cons]

/-- No newline is left in the pieces of a heading. -/
theorem newline_notMem_pieces (s : Text) : ∀ l ∈ pieces s, '\n' ∉ l := by
  induction s with
  | nil =>
      intro l hl
      rw [List.mem_singleton.1 hl]
      exact List.not_mem_nil
  | cons c s ih =>
      rw [pieces]
      split
      · intro l hl
        rcases List.mem_cons.1 hl with rfl | hl
        · exact List.not_mem_nil
        · exact ih l hl
      · next hc =>
        split
        · intro l hl
          rw [List.mem_singleton.1 hl, List.mem_singleton]
          exact fun h => hc h.symm
        · next l ls hpieces =>
          rw [hpieces] at ih
          obtain ⟨hl, hls⟩ := List.forall_mem_cons.1 ih
          refine List.forall_mem_cons.2 ⟨?_, hls⟩
          rw [List.mem_cons, not_or]
          exact ⟨fun h => hc h.symm, hl⟩

/-- The quoted string character by character, two of them where one is
escaped. -/
theorem readQuoted_cons (c : Char) (s : Text) :
    readQuoted (c :: s) =
      if c = dquote then some []
      else if c = backslash then
        match s with
        | [] => none
        | d :: s => (readQuoted s).map (d :: ·)
      else (readQuoted s).map (c :: ·) := by
  cases s <;> rfl

/-- **A string is read as it was before it was escaped.** -/
theorem readQuoted_escape (value : Text) :
    readQuoted (value.flatMap (fun c =>
      if c = dquote ∨ c = backslash then [backslash, c] else [c]) ++ [dquote]) =
      some value := by
  have hne : backslash ≠ dquote := by decide
  induction value with
  | nil => rw [List.flatMap_nil, List.nil_append, readQuoted_cons, if_pos rfl]
  | cons c value ih =>
      rw [List.flatMap_cons, List.append_assoc]
      split
      · rw [List.cons_append, List.singleton_append, readQuoted_cons, if_neg hne, if_pos rfl]
        simp only [ih]
        rfl
      · next hc =>
        rw [not_or] at hc
        rw [List.singleton_append, readQuoted_cons, if_neg hc.1, if_neg hc.2, ih]
        rfl

/-! ## The line in memory -/

/-- Behind its first character a line in memory is a line in memory too. -/
theorem setLine_cons (c : Char) (l : Text) (mem : Memory) :
    setLine (c :: l) mem = some c :: setLine l mem.tail := by
  rw [setLine, setLine, List.drop_tail]
  rfl

/-- The line is the C string at the beginning of memory, whatever was there. -/
theorem cstr_setLine (l : Text) (mem : Memory) : cstr (setLine l mem) = l := by
  induction l generalizing mem with
  | nil => rfl
  | cons c l ih => rw [setLine_cons, cstr, ih]

/-- The NUL is behind the line. -/
theorem length_setLine (l : Text) (mem : Memory) : l.length < (setLine l mem).length := by
  rw [setLine, List.length_append, List.length_map, List.length_cons]
  omega

/-- **What reading a line does**, whatever the memory holds before. -/
def Does (tab : SymbolTable) (count : ℕ) (choices : Choices) (l : Text) (f : Reader → Reader) :
    Prop :=
  ∀ rd mem, ∃ mem', readLine tab count choices (rd, mem) l = .ok (f rd, mem')

/-- A comment of more than the `#` is read from what the line has there. -/
theorem readLine_comment (tab : SymbolTable) (count : ℕ) (choices : Choices) (c : Char)
    (s : Text) (rd : Reader) (mem : Memory) :
    ∃ mem', readLine tab count choices (rd, mem) ('#' :: c :: s) = .ok (
      if configPrefix.isPrefixOf s then
        match strchr ' ' (s.drop configPrefix.length) with
        | none => rd
        | some (name, p) =>
            if isNotSet.isPrefixOf p then readUnset tab count choices name rd else rd
      else rd, mem') := by
  have hlong : ¬ (setLine ('#' :: c :: s) mem).length ≤ 2 := by
    have := length_setLine ('#' :: c :: s) mem
    rw [List.length_cons, List.length_cons] at this
    omega
  have hbehind : cstr ((setLine ('#' :: c :: s) mem).drop 2) = s := by
    rw [setLine_cons, setLine_cons, List.drop_succ_cons, List.drop_succ_cons, List.drop_zero,
      cstr_setLine]
  have hhead : ('#' :: c :: s).head? = some '#' := rfl
  rw [readLine, if_pos hhead, readComment, if_neg hlong, hbehind]
  by_cases hprefix : configPrefix.isPrefixOf s = true
  · simp only [if_pos hprefix]
    cases strchr ' ' (s.drop configPrefix.length) with
    | none => exact ⟨_, rfl⟩
    | some r => exact ⟨_, rfl⟩
  · simp only [if_neg hprefix]
    exact ⟨_, rfl⟩

/-- An assignment is read from the line. -/
theorem readLine_assignment (tab : SymbolTable) (count : ℕ) (choices : Choices) (s : Text)
    (rd : Reader) (mem : Memory) :
    ∃ mem', readLine tab count choices (rd, mem) (configPrefix ++ s) = .ok (
      match strchr '=' s with
      | none => rd
      | some (name, p) => (readValue tab count choices name p rd).1, mem') := by
  have hprefix : configPrefix.isPrefixOf (configPrefix ++ s) = true := by
    rw [List.isPrefixOf_iff_prefix]
    exact List.prefix_append _ _
  have hhead : ¬ (configPrefix ++ s).head? = some '#' := fun hhash =>
    absurd hhash (by decide : ¬ some 'C' = some '#')
  rw [readLine, if_neg hhead, if_pos hprefix, readAssignment, cstr_setLine, List.drop_left' rfl]
  cases strchr '=' s with
  | none => exact ⟨_, rfl⟩
  | some r => exact ⟨_, rfl⟩

/-! ## Lines that say nothing -/

/-- A line that `conf_read_simple` passes over. -/
def Quiet (l : Text) : Prop :=
  '\n' ∉ l ∧ (l = [] ∨ ∃ r, l = '#' :: r ∧ ¬ configPrefix.isPrefixOf (r.drop 1))

/-- The newline that ends a line is no part of a prefix. -/
theorem configPrefix_line (l : Text) :
    configPrefix.isPrefixOf (l ++ ['\n']) = configPrefix.isPrefixOf l := by
  rw [Bool.eq_iff_iff, List.isPrefixOf_iff_prefix, List.isPrefixOf_iff_prefix,
    List.prefix_concat_iff]
  refine or_iff_right fun h => ?_
  have hlast := congrArg List.getLast? h
  rw [List.getLast?_concat] at hlast
  exact absurd hlast (by decide)

/-- Such a line changes nothing but the memory. -/
theorem Quiet.does (h : Quiet l) : Does tab count choices (l ++ ['\n']) id := by
  intro rd mem
  obtain ⟨-, rfl | ⟨r, rfl, hr⟩⟩ := h
  · exact ⟨_, rfl⟩
  · cases r with
    | nil =>
        obtain ⟨mem', hrun⟩ := readLine_comment tab count choices '\n' [] rd mem
        exact ⟨mem', hrun⟩
    | cons d r =>
        obtain ⟨mem', hrun⟩ := readLine_comment tab count choices d (r ++ ['\n']) rd mem
        rw [if_neg (by rwa [configPrefix_line])] at hrun
        exact ⟨mem', hrun⟩

/-- An empty line says nothing. -/
theorem quiet_nil : Quiet [] := ⟨List.not_mem_nil, Or.inl rfl⟩

/-- Nor does a `#` with its newline behind it. -/
theorem quiet_hash : Quiet ['#'] := ⟨by decide, Or.inr ⟨[], rfl, by decide⟩⟩

/-- Nor does a remark that is not taken for the line of a symbol. -/
theorem quiet_remark (hl : '\n' ∉ l) (h : ¬ configPrefix.isPrefixOf l) :
    Quiet ('#' :: ' ' :: l) := by
  refine ⟨?_, Or.inr ⟨' ' :: l, rfl, h⟩⟩
  rw [List.mem_cons, List.mem_cons, not_or, not_or]
  exact ⟨by decide, by decide, hl⟩

/-- A heading is such remarks. -/
theorem quiet_kconfigPrintComment {value : Text}
    (h : ∀ l ∈ pieces value, ¬ configPrefix.isPrefixOf l) :
    ∀ l ∈ kconfigPrintComment value, Quiet l := by
  intro l hl
  obtain ⟨piece, hpiece, rfl⟩ := List.mem_map.1 hl
  split
  · exact quiet_hash
  · exact quiet_remark (newline_notMem_pieces value piece hpiece) (h piece hpiece)

/-! ## Lines of symbols -/

/-- **What a line of a symbol takes to be read.** Its name is a word that
`sym_lookup` gave to no other symbol, and its value, if it is a number, passes
for one and, if it is a string, is on one line. -/
structure Readable (tab : SymbolTable) (count : ℕ) (choices : Choices) (cfg : Config tab) (i : ℕ) :
    Prop where
  lt : i < count
  named : choices.unnamed i = false
  nonconst : (tab.entry i).const = false
  not_static : (tab.entry i).name ≠ ['y'] ∧ (tab.entry i).name ≠ ['m'] ∧ (tab.entry i).name ≠ ['n']
  word : ' ' ∉ (tab.entry i).name ∧ '=' ∉ (tab.entry i).name ∧ '\n' ∉ (tab.entry i).name
  unique : ∀ j < count, choices.unnamed j = false → (tab.entry j).const = false →
    (tab.entry j).name = (tab.entry i).name → j = i
  typed : (tab.entry i).type ≠ .unknown
  valid : (tab.entry i).type = .int ∨ (tab.entry i).type = .hex →
    symStringValid (cfg.val i) (tab.entry i).type
  oneLine : (tab.entry i).type = .string → '\n' ∉ cfg.val i

/-- `sym_find` finds the symbol under its name. -/
theorem Readable.symFind (h : Readable tab count choices cfg i) :
    symFind tab count choices (tab.entry i).name = some (.entry i) := by
  obtain ⟨hy, hm, hn⟩ := h.not_static
  rw [Kconfig.symFind, if_neg hy, if_neg hm, if_neg hn]
  have hfind : (List.range count).find? (fun j => !choices.unnamed j &&
      (tab.entry j).name = (tab.entry i).name && !(tab.entry j).const) = some i := by
    cases hres : (List.range count).find? (fun j => !choices.unnamed j &&
        (tab.entry j).name = (tab.entry i).name && !(tab.entry j).const) with
    | none =>
        have := List.find?_eq_none.1 hres i (List.mem_range.2 h.lt)
        simp [h.named, h.nonconst] at this
    | some j =>
        have hj := List.find?_some hres
        have hlt := List.mem_range.1 (List.mem_of_find?_eq_some hres)
        simp only [Bool.and_eq_true, Bool.not_eq_true', decide_eq_true_eq] at hj
        rw [h.unique j hlt hj.1.1 hj.2 hj.1.2]
  rw [hfind]
  rfl

/-- What reading gives a symbol that was written. -/
def restore (cfg : Config tab) (i : ℕ) (d : Def) : Def :=
  match (tab.entry i).type with
  | .boolean | .tristate => { d with tri := cfg.tri i, isSet := true }
  | _ => { d with val := some (cfg.val i), isSet := true }

/-- What reading the line of a symbol does. -/
def readBack (cfg : Config tab) (choices : Choices) (i : ℕ) (rd : Reader) : Reader :=
  noteChoice choices i ((rd.warnSet i).put i (restore cfg i ((rd.warnSet i).defs i)))

/-- The value as it stands in the line. -/
def writtenText (cfg : Config tab) (i : ℕ) : Text :=
  match (tab.entry i).type with
  | .string => symEscapeStringValue (cfg.symGetStringValue (.entry i))
  | _ => cfg.symGetStringValue (.entry i)

/-- A symbol with a type is one line. -/
theorem confWriteSymbol_eq (h : (tab.entry i).type ≠ .unknown) :
    confWriteSymbol cfg i = [kconfigPrintSymbol tab i (writtenText cfg i)] := by
  unfold confWriteSymbol writtenText
  cases htype : (tab.entry i).type <;> first | rfl | exact absurd htype h

/-- The value stands between the `=` and the newline. -/
theorem lineValue_line (hp : '\n' ∉ p) (hr : p.getLast? ≠ some '\r') :
    lineValue (p ++ ['\n']) = p := by
  rw [lineValue, strchr_append hp []]
  simp only [if_neg hr]

/-- A line with a value is read as its value is. -/
theorem Readable.does_assign (h : Readable tab count choices cfg i) (hp : '\n' ∉ p)
    (hr : p.getLast? ≠ some '\r') :
    Does tab count choices (configPrefix ++ (tab.entry i).name ++ '=' :: p ++ ['\n']) fun rd =>
      if (confSetSymVal tab i p (rd.warnSet i)).1 then (confSetSymVal tab i p (rd.warnSet i)).2
      else noteChoice choices i (confSetSymVal tab i p (rd.warnSet i)).2 := by
  intro rd mem
  have hline : configPrefix ++ (tab.entry i).name ++ '=' :: p ++ ['\n'] =
      configPrefix ++ ((tab.entry i).name ++ '=' :: (p ++ ['\n'])) := by simp
  obtain ⟨mem', hrun⟩ := readLine_assignment tab count choices
    ((tab.entry i).name ++ '=' :: (p ++ ['\n'])) rd mem
  rw [strchr_append h.word.2.1] at hrun
  simp only [readValue, h.symFind, lineValue_line hp hr] at hrun
  rw [hline]
  exact ⟨mem', hrun⟩

/-- A line that a symbol is not set. -/
theorem Readable.does_unset (h : Readable tab count choices cfg i)
    (htype : (tab.entry i).type = .boolean ∨ (tab.entry i).type = .tristate) :
    Does tab count choices
      ('#' :: ' ' :: (configPrefix ++ (tab.entry i).name ++ ' ' :: isNotSet) ++ ['\n']) fun rd =>
        noteChoice choices i ((rd.warnSet i).put i
          { (rd.warnSet i).defs i with tri := .no, isSet := true }) := by
  intro rd mem
  have hline : '#' :: ' ' :: (configPrefix ++ (tab.entry i).name ++ ' ' :: isNotSet) ++ ['\n'] =
      '#' :: ' ' :: (configPrefix ++ ((tab.entry i).name ++ ' ' :: (isNotSet ++ ['\n']))) := by
    simp
  have hprefix : configPrefix.isPrefixOf
      (configPrefix ++ ((tab.entry i).name ++ ' ' :: (isNotSet ++ ['\n']))) = true := by
    rw [List.isPrefixOf_iff_prefix]
    exact List.prefix_append _ _
  have hset : isNotSet.isPrefixOf (isNotSet ++ ['\n']) = true := by decide
  obtain ⟨mem', hrun⟩ := readLine_comment tab count choices ' '
    (configPrefix ++ ((tab.entry i).name ++ ' ' :: (isNotSet ++ ['\n']))) rd mem
  rw [if_pos hprefix, List.drop_left' rfl, strchr_append h.word.1] at hrun
  simp only [if_pos hset, readUnset, h.symFind] at hrun
  rw [hline]
  refine ⟨mem', hrun.trans ?_⟩
  obtain htype | htype := htype
  · simp only [htype]
  · simp only [htype]

/-! ## Values -/

/-- A digit ends no line. -/
theorem isdigit_ne (h : isdigit c) : c ≠ '\n' ∧ c ≠ '\r' := by
  constructor
  · rintro rfl
    exact absurd h (by decide)
  · rintro rfl
    exact absurd h (by decide)

/-- Nor does a hexadecimal one. -/
theorem isxdigit_ne (h : isxdigit c) : c ≠ '\n' ∧ c ≠ '\r' := by
  constructor
  · rintro rfl
    exact absurd h (by decide)
  · rintro rfl
    exact absurd h (by decide)

/-- What passes for a number has nothing in it that ends a line. -/
theorem symStringValid_line {type : SymbolType} (htype : type = .int ∨ type = .hex)
    (h : symStringValid p type) : ∀ c ∈ p, c ≠ '\n' ∧ c ≠ '\r' := by
  -- a text of digits, behind what was dropped
  have hdrop : ∀ (n : ℕ) (digit : Char → Bool), (∀ c, digit c → c ≠ '\n' ∧ c ≠ '\r') →
      (∀ c ∈ p.take n, c ≠ '\n' ∧ c ≠ '\r') → (p.drop n).all digit →
      ∀ c ∈ p, c ≠ '\n' ∧ c ≠ '\r' := by
    intro n digit hdigit htake hall c hc
    rw [← List.take_append_drop n p, List.mem_append] at hc
    rcases hc with hc | hc
    · exact htake c hc
    · exact hdigit c (List.all_eq_true.1 hall c hc)
  obtain rfl | rfl := htype
  · have hall : ∀ s : Text, (match s with
        | [] => false
        | c :: s => isdigit c && !(c = '0' && s ≠ []) && s.all isdigit) = true →
        s.all isdigit := by
      intro s hs
      cases s with
      | nil => rfl
      | cons d s =>
          simp only [Bool.and_eq_true] at hs
          rw [List.all_cons, hs.1.1, hs.2, Bool.and_self]
    rw [symStringValid] at h
    by_cases hminus : p[0]? = some '-'
    · rw [if_pos hminus] at h
      refine hdrop 1 isdigit (fun c => isdigit_ne) ?_ (hall _ h)
      cases p with
      | nil => exact fun c hc => absurd hc List.not_mem_nil
      | cons d p =>
          intro c hc
          rw [List.take_succ_cons, List.take_zero, List.mem_singleton] at hc
          rw [hc, Option.some.inj hminus]
          decide
    · rw [if_neg hminus] at h
      exact hdrop 0 isdigit (fun c => isdigit_ne) (fun c hc => absurd hc List.not_mem_nil)
        (hall _ h)
  · rw [symStringValid] at h
    simp only [Bool.and_eq_true] at h
    obtain ⟨-, hall⟩ := h
    split at hall
    · next hx =>
      refine hdrop 2 isxdigit (fun c => isxdigit_ne) ?_ hall
      obtain ⟨d, e, s, rfl⟩ : ∃ d e s, p = d :: e :: s := by
        rcases p with _ | ⟨d, _ | ⟨e, s⟩⟩
        · exact absurd hx.1 (by decide)
        · rcases hx.2 with h | h <;> exact absurd h (by simp)
        · exact ⟨d, e, s, rfl⟩
      intro c hc
      simp only [List.take_succ_cons, List.take_zero, List.mem_cons, List.not_mem_nil,
        or_false] at hc
      have hd : d = '0' := Option.some.inj hx.1
      have he : e = 'x' ∨ e = 'X' := hx.2.imp Option.some.inj Option.some.inj
      rcases hc with rfl | rfl
      · rw [hd]
        decide
      · rcases he with rfl | rfl <;> decide
    · exact hdrop 0 isxdigit (fun c => isxdigit_ne) (fun c hc => absurd hc List.not_mem_nil) hall

/-- A string is written on one line that does not end in a carriage return. -/
theorem escape_line (hp : '\n' ∉ p) :
    '\n' ∉ symEscapeStringValue p ∧ (symEscapeStringValue p).getLast? ≠ some '\r' := by
  constructor
  · rw [symEscapeStringValue, List.cons_append, List.mem_cons, List.mem_append, List.mem_flatMap,
      List.mem_singleton]
    rintro (h | ⟨c, hc, hmem⟩ | h)
    · exact absurd h (by decide)
    · split at hmem
      · rw [List.mem_cons, List.mem_singleton] at hmem
        rcases hmem with h | rfl
        · exact absurd h (by decide)
        · exact hp hc
      · rw [List.mem_singleton] at hmem
        exact hp (hmem ▸ hc)
    · exact absurd h (by decide)
  · rw [symEscapeStringValue, List.getLast?_concat]
    decide

/-- The line of a symbol is one line, and reading it gives the symbol its
value. -/
def ReadsBack (tab : SymbolTable) (count : ℕ) (choices : Choices) (cfg : Config tab) (i : ℕ) :
    Prop :=
  '\n' ∉ kconfigPrintSymbol tab i (writtenText cfg i) ∧
    Does tab count choices (kconfigPrintSymbol tab i (writtenText cfg i) ++ ['\n'])
      (readBack cfg choices i)

/-- A boolean or tristate that is `n` is written as not set, and read as `n`.
-/
theorem Readable.readsBack_unset (h : Readable tab count choices cfg i)
    (htype : (tab.entry i).type = .boolean ∨ (tab.entry i).type = .tristate)
    (htri : cfg.tri i = .no) : ReadsBack tab count choices cfg i := by
  have hline : kconfigPrintSymbol tab i (writtenText cfg i) =
      '#' :: ' ' :: (configPrefix ++ (tab.entry i).name ++ ' ' :: isNotSet) := by
    obtain htype | htype := htype
    · simp [kconfigPrintSymbol, writtenText, Config.symGetStringValue, htype, htri]
    · simp [kconfigPrintSymbol, writtenText, Config.symGetStringValue, htype, htri]
  rw [ReadsBack, hline]
  constructor
  · rw [List.mem_cons, List.mem_cons, List.mem_append, List.mem_append, List.mem_cons, not_or,
      not_or, not_or, not_or, not_or]
    exact ⟨by decide, by decide, ⟨by decide, h.word.2.2⟩, by decide, by decide⟩
  · intro rd mem
    obtain ⟨mem', hrun⟩ := h.does_unset htype rd mem
    refine ⟨mem', hrun.trans ?_⟩
    rw [readBack, restore]
    obtain htype | htype := htype
    · simp only [htype, htri]
    · simp only [htype, htri]

/-- An assignment reads back if `conf_set_sym_val` takes its text for the
value. -/
theorem Readable.readsBack_assign (h : Readable tab count choices cfg i)
    (hline : kconfigPrintSymbol tab i (writtenText cfg i) =
      configPrefix ++ (tab.entry i).name ++ '=' :: p)
    (hp : '\n' ∉ p) (hr : p.getLast? ≠ some '\r')
    (hset : ∀ rd : Reader, confSetSymVal tab i p rd =
      (false, rd.put i (restore cfg i (rd.defs i)))) :
    ReadsBack tab count choices cfg i := by
  rw [ReadsBack, hline]
  constructor
  · rw [List.mem_append, List.mem_append, List.mem_cons, not_or, not_or, not_or]
    exact ⟨⟨by decide, h.word.2.2⟩, by decide, hp⟩
  · intro rd mem
    obtain ⟨mem', hrun⟩ := h.does_assign hp hr rd mem
    simp only [hset, Bool.false_eq_true, if_false] at hrun
    exact ⟨mem', hrun⟩

/-- A number reads back. -/
theorem Readable.readsBack_number (h : Readable tab count choices cfg i)
    (htype : (tab.entry i).type = .int ∨ (tab.entry i).type = .hex) :
    ReadsBack tab count choices cfg i := by
  have hvalid := h.valid htype
  have hchars := symStringValid_line htype hvalid
  have hline : kconfigPrintSymbol tab i (writtenText cfg i) =
      configPrefix ++ (tab.entry i).name ++ '=' :: cfg.val i := by
    obtain htype | htype := htype
    · simp [kconfigPrintSymbol, writtenText, Config.symGetStringValue, htype]
    · simp [kconfigPrintSymbol, writtenText, Config.symGetStringValue, htype]
  refine h.readsBack_assign hline (fun hmem => (hchars _ hmem).1 rfl)
    (fun hlast => (hchars _ (List.mem_of_getLast? hlast)).2 rfl) fun rd => ?_
  unfold confSetSymVal restore
  obtain htype | htype := htype
  · rw [htype] at hvalid
    simp only [htype, hvalid, if_true]
  · rw [htype] at hvalid
    simp only [htype, hvalid, if_true]

/-- **The line of a symbol gives it its value back.** -/
theorem Readable.readsBack (h : Readable tab count choices cfg i) :
    ReadsBack tab count choices cfg i := by
  cases htype : (tab.entry i).type with
  | unknown => exact absurd htype h.typed
  | boolean =>
      cases htri : cfg.tri i with
      | mod => exact absurd htri (cfg.bool_ne_mod i htype)
      | no => exact h.readsBack_unset (Or.inl htype) htri
      | yes =>
          have hline : kconfigPrintSymbol tab i (writtenText cfg i) =
              configPrefix ++ (tab.entry i).name ++ '=' :: ['y'] := by
            simp [kconfigPrintSymbol, writtenText, Config.symGetStringValue, htype, htri]
          refine h.readsBack_assign hline (by decide) (by decide) fun rd => ?_
          unfold confSetSymVal restore
          simp only [htype, htri]
          rfl
  | tristate =>
      cases htri : cfg.tri i with
      | mod =>
          have hmod := cfg.modules_of_mod i htype htri
          have hline : kconfigPrintSymbol tab i (writtenText cfg i) =
              configPrefix ++ (tab.entry i).name ++ '=' :: ['m'] := by
            simp [kconfigPrintSymbol, writtenText, Config.symGetStringValue, htype, htri,
              Config.symGetTristateValue, hmod]
          refine h.readsBack_assign hline (by decide) (by decide) fun rd => ?_
          unfold confSetSymVal restore
          simp only [htype, htri]
          rfl
      | no => exact h.readsBack_unset (Or.inr htype) htri
      | yes =>
          have hline : kconfigPrintSymbol tab i (writtenText cfg i) =
              configPrefix ++ (tab.entry i).name ++ '=' :: ['y'] := by
            simp [kconfigPrintSymbol, writtenText, Config.symGetStringValue, htype, htri]
          refine h.readsBack_assign hline (by decide) (by decide) fun rd => ?_
          unfold confSetSymVal restore
          simp only [htype, htri]
          rfl
  | string =>
      have hline : kconfigPrintSymbol tab i (writtenText cfg i) =
          configPrefix ++ (tab.entry i).name ++ '=' :: symEscapeStringValue (cfg.val i) := by
        simp [kconfigPrintSymbol, writtenText, Config.symGetStringValue, htype]
      obtain ⟨hp, hr⟩ := escape_line (h.oneLine htype)
      refine h.readsBack_assign hline hp hr fun rd => ?_
      unfold confSetSymVal restore symEscapeStringValue
      simp only [htype, List.cons_append, ne_eq, not_true_eq_false, if_false, readQuoted_escape,
        symStringValid, if_true]
  | int => exact h.readsBack_number (Or.inl htype)
  | hex => exact h.readsBack_number (Or.inr htype)

end Kconfig

end BlocTest
