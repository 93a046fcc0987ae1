import BlocTest.Kconfig.Confdata
import Mathlib.Data.List.Induction
/-!
# What a configuration file says

Any text may be read. A symbol that is no choice ends with what the last line
that gives it a value says, and a line gives a value only if the value fits the
type of the symbol.
-/

namespace BlocTest

namespace Kconfig

variable {tab : SymbolTable} {count : ℕ} {choices : Choices} {rd : Reader} {i j : ℕ}
variable {line name s p v : Text} {type : SymbolType} {c : Char}

/-- What a line can say of a symbol. -/
inductive Given where
  | tri (t : Tristate)
  | val (v : Text)

/-- A number of type `int`: digits, no zero before others, and perhaps a minus
before them. -/
def IsInt (v : Text) : Prop :=
  ∃ ds, (v = ds ∨ v = '-' :: ds) ∧ ds ≠ [] ∧ (∀ c ∈ ds, isdigit c) ∧
    (ds.head? = some '0' → ds = ['0'])

/-- A number of type `hex`: hexadecimal digits, with `0x` before them or
without. -/
def IsHex (v : Text) : Prop :=
  ∃ ds, (v = ds ∨ v = '0' :: 'x' :: ds ∨ v = '0' :: 'X' :: ds) ∧ ds ≠ [] ∧ ∀ c ∈ ds, isxdigit c

/-- What may stand behind an opening quote, and the string it is: up to the
closing one each character stands for itself, and a backslash for nothing but
that the next one does. -/
inductive Quoted : Text → Text → Prop
  | close {rest : Text} : Quoted (dquote :: rest) []
  | char {c : Char} {q v : Text} :
      c ≠ dquote → c ≠ backslash → Quoted q v → Quoted (c :: q) (c :: v)
  | escaped {c : Char} {q v : Text} : Quoted q v → Quoted (backslash :: c :: q) (c :: v)

/-- A value, with the end of its line or of the file. -/
inductive Ended : Text → Text → Prop
  | eof {v : Text} : '\n' ∉ v → Ended v v
  | newline {v rest : Text} :
      '\n' ∉ v → v.getLast? ≠ some '\r' → Ended (v ++ '\n' :: rest) v
  | crlf {v rest : Text} : '\n' ∉ v → Ended (v ++ '\r' :: '\n' :: rest) v

/-- An entry that has a name, and is no quoted word. -/
def HasName (tab : SymbolTable) (count : ℕ) (choices : Choices) (name : Text) (i : ℕ) : Prop :=
  i < count ∧ choices.unnamed i = false ∧ (tab.entry i).const = false ∧ (tab.entry i).name = name

/-- The symbol of a name: the first entry that has it. The static symbols are
no entries. -/
structure Called (tab : SymbolTable) (count : ℕ) (choices : Choices) (name : Text) (i : ℕ) :
    Prop where
  not_static : name ≠ ['y'] ∧ name ≠ ['m'] ∧ name ≠ ['n']
  named : HasName tab count choices name i
  first : ∀ j < i, ¬ HasName tab count choices name j

/-- The value is one for the type. -/
def Given.Fits : Given → SymbolType → Prop
  | .tri t, .boolean => t ≠ .mod
  | .tri _, .tristate => True
  | .val _, .string => True
  | .val v, .int => IsInt v
  | .val v, .hex => IsHex v
  | _, _ => False

/-- The definition of a symbol of which this is said. -/
def Given.toDef : Given → Def
  | .tri t => ⟨t, none, none, true⟩
  | .val v => ⟨.no, some v, none, true⟩

/-- What is said, put over a definition. -/
def Given.over : Given → Def → Def
  | .tri t, d => { d with tri := t, isSet := true }
  | .val v, d => { d with val := some v, isSet := true }

/-- **The format of a value.** -/
inductive ValueGives : SymbolType → Text → Given → Prop
  | bool {v : Text} : v[0]? = some 'y' → ValueGives .boolean v (.tri .yes)
  | boolNo {v : Text} : v[0]? = some 'n' → ValueGives .boolean v (.tri .no)
  | tri {v : Text} : v[0]? = some 'y' → ValueGives .tristate v (.tri .yes)
  | triNo {v : Text} : v[0]? = some 'n' → ValueGives .tristate v (.tri .no)
  | triMod {v : Text} : v[0]? = some 'm' → ValueGives .tristate v (.tri .mod)
  | string {q t : Text} : Quoted q t → ValueGives .string (dquote :: q) (.val t)
  | int {v : Text} : IsInt v → ValueGives .int v (.val v)
  | hex {v : Text} : IsHex v → ValueGives .hex v (.val v)

/-- **The format of a line.** -/
inductive LineGives (tab : SymbolTable) (count : ℕ) (choices : Choices) (i : ℕ) :
    Text → Given → Prop
  | unset {c : Char} {name rest : Text} : ' ' ∉ name → Called tab count choices name i →
      (tab.entry i).type = .boolean ∨ (tab.entry i).type = .tristate →
      LineGives tab count choices i
        ('#' :: c :: (configPrefix ++ (name ++ ' ' :: (isNotSet ++ rest)))) (.tri .no)
  | assign {name p v : Text} {g : Given} : '=' ∉ name → Called tab count choices name i →
      Ended p v → ValueGives (tab.entry i).type v g →
      LineGives tab count choices i (configPrefix ++ (name ++ '=' :: p)) g

/-- What a value gives is one for its type. -/
theorem ValueGives.fits {g : Given} (h : ValueGives type v g) : g.Fits type := by
  cases h with
  | bool => exact fun h => by cases h
  | boolNo => exact fun h => by cases h
  | tri => trivial
  | triNo => trivial
  | triMod => trivial
  | string => trivial
  | int h => exact h
  | hex h => exact h

/-- What a line gives a symbol is of its type. -/
theorem LineGives.fits {g : Given} (h : LineGives tab count choices i line g) :
    g.Fits (tab.entry i).type := by
  cases h with
  | unset _ _ htype =>
      rcases htype with htype | htype
      · rw [htype]
        exact fun h => by cases h
      · rw [htype]
        trivial
  | assign _ _ _ hvalue => exact hvalue.fits

/-! ## The reader and the format -/

/-- What `strchr` finds is the first of its kind. -/
theorem strchr_eq_some {a b : Text} (h : strchr c s = some (a, b)) :
    s = a ++ c :: b ∧ c ∉ a := by
  induction s generalizing a with
  | nil => cases h
  | cons d s ih =>
      rw [strchr] at h
      split at h
      · next hd =>
        simp only [Option.some.injEq, Prod.mk.injEq] at h
        rw [← h.1, ← h.2, hd]
        exact ⟨rfl, List.not_mem_nil⟩
      · next hd =>
        obtain ⟨⟨a', b'⟩, hs, heq⟩ := Option.map_eq_some_iff.1 h
        simp only [Prod.mk.injEq] at heq
        obtain ⟨rfl, rfl⟩ := heq
        obtain ⟨rfl, hc⟩ := ih hs
        refine ⟨rfl, ?_⟩
        rw [List.mem_cons, not_or]
        exact ⟨fun h => hd h.symm, hc⟩

/-- What `strchr` does not find is not there. -/
theorem strchr_eq_none (h : strchr c s = none) : c ∉ s := by
  intro hc
  obtain ⟨a, b, rfl, hca⟩ := List.eq_append_cons_of_mem hc
  rw [strchr_append hca] at h
  cases h

/-- **The loop over a string** reads what is quoted. -/
theorem readQuoted_eq_some {q t : Text} : readQuoted q = some t ↔ Quoted q t := by
  have hne : backslash ≠ dquote := by decide
  constructor
  · intro h
    fun_induction readQuoted q generalizing t with
    | case1 => cases h
    | case2 s =>
        rw [← Option.some.inj h]
        exact .close
    | case3 => cases h
    | case4 d s _ ih =>
        obtain ⟨t', ht', rfl⟩ := Option.map_eq_some_iff.1 h
        exact .escaped (ih ht')
    | case5 c s hq hb ih =>
        obtain ⟨t', ht', rfl⟩ := Option.map_eq_some_iff.1 h
        exact .char hq hb (ih ht')
  · intro h
    induction h with
    | close => rw [readQuoted_cons, if_pos rfl]
    | char hq hb _ ih => rw [readQuoted_cons, if_neg hq, if_neg hb, ih, Option.map_some]
    | escaped _ ih =>
        rw [readQuoted_cons, if_neg hne, if_pos rfl]
        simp only [ih, Option.map_some]

/-- **What is taken off a value** is the end of its line. -/
theorem lineValue_eq : lineValue p = v ↔ Ended p v := by
  constructor
  · rintro rfl
    unfold lineValue
    cases hchr : strchr '\n' p with
    | none => exact .eof (strchr_eq_none hchr)
    | some r =>
        obtain ⟨v, rest⟩ := r
        obtain ⟨rfl, hv⟩ := strchr_eq_some hchr
        by_cases hr : v.getLast? = some '\r'
        · simp only [if_pos hr]
          obtain ⟨v', rfl⟩ := List.getLast?_eq_some_iff.1 hr
          rw [List.dropLast_concat, List.append_assoc]
          exact .crlf fun hmem => hv (List.mem_append_left _ hmem)
        · simp only [if_neg hr]
          exact .newline hv hr
  · intro h
    cases h with
    | eof hv =>
        unfold lineValue
        cases hchr : strchr '\n' p with
        | none => rfl
        | some r =>
            obtain ⟨a, b⟩ := r
            rw [(strchr_eq_some hchr).1] at hv
            exact absurd (List.mem_append_right a List.mem_cons_self) hv
    | newline hv hr => simp only [lineValue, strchr_append hv, if_neg hr]
    | @crlf _ rest hv =>
        have hv' : '\n' ∉ v ++ ['\r'] := by
          rw [List.mem_append, not_or]
          exact ⟨hv, by decide⟩
        have hsplit : v ++ '\r' :: '\n' :: rest = (v ++ ['\r']) ++ '\n' :: rest := by simp
        rw [hsplit, lineValue, strchr_append hv']
        simp only [List.getLast?_concat, if_true, List.dropLast_concat]

/-- What `sym_string_valid` asks of the digits of a number. -/
theorem digits_iff {s : Text} :
    (isdigit c && !(decide (c = '0') && decide (s ≠ [])) && s.all isdigit) = true ↔
      c :: s ≠ [] ∧ (∀ d ∈ c :: s, isdigit d) ∧ ((c :: s).head? = some '0' → c :: s = ['0']) := by
  have hhead : ((c :: s).head? = some '0' → c :: s = ['0']) ↔ ¬ (c = '0' ∧ s ≠ []) := by
    rw [List.head?_cons, Option.some.injEq, List.cons.injEq]
    tauto
  have hcons : c :: s ≠ [] := List.cons_ne_nil c s
  rw [List.forall_mem_cons, hhead, and_iff_right hcons]
  simp only [Bool.and_eq_true, Bool.not_eq_true', ← Bool.not_eq_true, decide_eq_true_eq,
    List.all_eq_true]
  tauto

/-- **What passes for an `int`** is one. -/
theorem symStringValid_int : symStringValid v .int = true ↔ IsInt v := by
  have hminus : ¬ isdigit '-' := by decide
  cases v with
  | nil =>
      refine ⟨fun h => (by cases h), fun h => ?_⟩
      obtain ⟨ds, hds | hds, hne, -⟩ := h
      · exact absurd hds.symm hne
      · cases hds
  | cons c s =>
      by_cases hc : c = '-'
      · subst hc
        constructor
        · intro h
          cases s with
          | nil => cases h
          | cons d s => exact ⟨d :: s, Or.inr rfl, digits_iff.1 h⟩
        · rintro ⟨ds, hds | hds, hne, hall, hzero⟩
          · rw [← hds] at hall
            exact absurd (hall '-' List.mem_cons_self) hminus
          · obtain rfl := (List.cons.inj hds).2
            cases s with
            | nil => exact absurd rfl hne
            | cons d s => exact digits_iff.2 ⟨hne, hall, hzero⟩
      · have hvalid : symStringValid (c :: s) .int =
            (isdigit c && !(decide (c = '0') && decide (s ≠ [])) && s.all isdigit) := by
          simp [symStringValid, hc]
        rw [hvalid, digits_iff]
        constructor
        · exact fun h => ⟨c :: s, Or.inl rfl, h⟩
        · rintro ⟨ds, rfl | hds, h⟩
          · exact h
          · exact absurd (List.cons.inj hds).1 hc

/-- **What passes for a `hex`** is one. -/
theorem symStringValid_hex : symStringValid v .hex = true ↔ IsHex v := by
  have hx : ¬ isxdigit 'x' ∧ ¬ isxdigit 'X' := by decide
  have hdigits : ∀ ds : Text, (decide (ds ≠ []) && ds.all isxdigit) = true ↔
      ds ≠ [] ∧ ∀ c ∈ ds, isxdigit c := by
    intro ds
    rw [Bool.and_eq_true, decide_eq_true_eq, List.all_eq_true]
  by_cases hpre : v[0]? = some '0' ∧ (v[1]? = some 'x' ∨ v[1]? = some 'X')
  · have hvalid : symStringValid v .hex =
        (decide (v.drop 2 ≠ []) && (v.drop 2).all isxdigit) := by
      simp only [symStringValid, if_pos hpre]
    rw [hvalid, hdigits]
    constructor
    · intro h
      refine ⟨v.drop 2, Or.inr ?_, h⟩
      rcases v with _ | ⟨c, _ | ⟨d, s⟩⟩
      · exact absurd hpre.1 (by simp)
      · exact absurd hpre.2 (by simp)
      · rw [List.drop_succ_cons, List.drop_succ_cons, List.drop_zero]
        have hd : (d = 'x' ∨ d = 'X') := hpre.2.imp Option.some.inj Option.some.inj
        rw [Option.some.inj hpre.1]
        rcases hd with rfl | rfl
        · exact Or.inl rfl
        · exact Or.inr rfl
    · rintro ⟨ds, rfl | rfl | rfl, h⟩
      · rcases hpre.2 with h1 | h1
        · exact absurd (h.2 'x' (List.mem_of_getElem? h1)) hx.1
        · exact absurd (h.2 'X' (List.mem_of_getElem? h1)) hx.2
      · exact h
      · exact h
  · have hvalid : symStringValid v .hex = (decide (v ≠ []) && v.all isxdigit) := by
      simp only [symStringValid, if_neg hpre]
    rw [hvalid, hdigits]
    constructor
    · exact fun h => ⟨v, Or.inl rfl, h⟩
    · rintro ⟨ds, rfl | rfl | rfl, h⟩
      · exact h
      · exact absurd ⟨rfl, Or.inl rfl⟩ hpre
      · exact absurd ⟨rfl, Or.inr rfl⟩ hpre

/-- **What `sym_find` finds** is the symbol of the name. -/
theorem symFind_eq_some :
    symFind tab count choices name = some (.entry i) ↔ Called tab count choices name i := by
  have hname : ∀ j, (!choices.unnamed j && decide ((tab.entry j).name = name) &&
      !(tab.entry j).const) = true ↔
        choices.unnamed j = false ∧ (tab.entry j).const = false ∧ (tab.entry j).name = name := by
    intro j
    simp only [Bool.and_eq_true, Bool.not_eq_true', decide_eq_true_eq]
    tauto
  have hentry : ∀ o : Option ℕ, o.map SymPtr.entry = some (.entry i) ↔ o = some i := by
    intro o
    cases o <;> simp
  unfold symFind
  by_cases hstatic : name ≠ ['y'] ∧ name ≠ ['m'] ∧ name ≠ ['n']
  · rw [if_neg hstatic.1, if_neg hstatic.2.1, if_neg hstatic.2.2, hentry,
      List.find?_range_eq_some, hname, List.mem_range]
    constructor
    · rintro ⟨hi, hlt, hfirst⟩
      refine ⟨hstatic, ⟨hlt, hi⟩, fun j hj hnamed => ?_⟩
      have hnone := hfirst j hj
      rw [(hname j).2 hnamed.2] at hnone
      cases hnone
    · rintro ⟨-, ⟨hlt, hi⟩, hfirst⟩
      refine ⟨hi, hlt, fun j hj => ?_⟩
      rw [Bool.not_eq_true', ← Bool.not_eq_true, hname]
      exact fun h => hfirst j hj ⟨hj.trans hlt, h⟩
  · refine ⟨fun h => ?_, fun h => absurd h.not_static hstatic⟩
    split_ifs at h with hy hm hn
    · cases h
    · cases h
    · cases h
    · exact absurd ⟨hy, hm, hn⟩ hstatic

/-! ## One line -/

/-- Only the choice of the symbol is touched. -/
theorem noteChoice_other (hj : choices.choiceOf i ≠ some j) (rd : Reader) :
    (noteChoice choices i rd).defs j = rd.defs j := by
  unfold noteChoice
  split
  · rfl
  · next c hc =>
    have hne : j ≠ c := by
      rintro rfl
      exact hj hc
    simp only
    rw [Reader.defs_put_of_ne _ _ hne]
    split
    · rfl
    · split
      · exact Reader.defs_put_of_ne _ _ hne
      · rfl
    · rw [Reader.defs_put_of_ne _ _ hne]
      split <;> rfl

/-- A warning changes no definition. -/
theorem warnSet_defs (rd : Reader) (i : ℕ) : (rd.warnSet i).defs = rd.defs := by
  unfold Reader.warnSet
  split <;> rfl

/-- `conf_set_sym_val` takes what the format gives, and nothing else. -/
theorem confSetSymVal_cases (tab : SymbolTable) (i : ℕ) (v : Text) (rd : Reader) :
    (∃ g, ValueGives (tab.entry i).type v g ∧
      confSetSymVal tab i v rd = (false, rd.put i (g.over (rd.defs i)))) ∨
    (∀ g, ¬ ValueGives (tab.entry i).type v g) ∧ (confSetSymVal tab i v rd).2.defs = rd.defs := by
  unfold confSetSymVal
  cases htype : (tab.entry i).type with
  | unknown => exact Or.inr ⟨fun g hg => (nomatch hg), rfl⟩
  | boolean =>
      by_cases hy : v[0]? = some 'y'
      · exact Or.inl ⟨_, .bool hy, by simp [hy, Given.over]⟩
      · by_cases hn : v[0]? = some 'n'
        · exact Or.inl ⟨_, .boolNo hn, by simp [hn, Given.over]⟩
        · refine Or.inr ⟨fun g hg => ?_, by simp [hy, hn, Reader.warn]⟩
          cases hg with
          | bool h => exact hy h
          | boolNo h => exact hn h
  | tristate =>
      by_cases hm : v[0]? = some 'm'
      · exact Or.inl ⟨_, .triMod hm, by simp [hm, Given.over]⟩
      · by_cases hy : v[0]? = some 'y'
        · exact Or.inl ⟨_, .tri hy, by simp [hy, Given.over]⟩
        · by_cases hn : v[0]? = some 'n'
          · exact Or.inl ⟨_, .triNo hn, by simp [hn, Given.over]⟩
          · refine Or.inr ⟨fun g hg => ?_, by simp [hm, hy, hn, Reader.warn]⟩
            cases hg with
            | tri h => exact hy h
            | triNo h => exact hn h
            | triMod h => exact hm h
  | int =>
      by_cases hvalid : symStringValid v .int = true
      · exact Or.inl ⟨_, .int (symStringValid_int.1 hvalid), by simp [hvalid, Given.over]⟩
      · refine Or.inr ⟨fun g hg => ?_, by simp [hvalid, Reader.warn]⟩
        cases hg with
        | int h => exact hvalid (symStringValid_int.2 h)
  | hex =>
      by_cases hvalid : symStringValid v .hex = true
      · exact Or.inl ⟨_, .hex (symStringValid_hex.1 hvalid), by simp [hvalid, Given.over]⟩
      · refine Or.inr ⟨fun g hg => ?_, by simp [hvalid, Reader.warn]⟩
        cases hg with
        | hex h => exact hvalid (symStringValid_hex.2 h)
  | string =>
      cases v with
      | nil => exact Or.inr ⟨fun g hg => (nomatch hg), rfl⟩
      | cons d q =>
          by_cases hd : d = dquote
          · subst hd
            cases hq : readQuoted q with
            | none =>
                refine Or.inr ⟨fun g hg => ?_, by simp [hq, Reader.warn]⟩
                cases hg with
                | string h => cases hq.symm.trans (readQuoted_eq_some.2 h)
            | some t =>
                exact Or.inl ⟨_, .string (readQuoted_eq_some.1 hq),
                  by simp [hq, symStringValid, Given.over]⟩
          · refine Or.inr ⟨fun g hg => ?_, by simp [hd]⟩
            cases hg with
            | string => exact hd rfl

/-- What a line does to the definition of a symbol: it puts what it gives over
it, or leaves it. -/
def Tells (tab : SymbolTable) (count : ℕ) (choices : Choices) (j : ℕ) (line : Text) (d d' : Def) :
    Prop :=
  (∃ g, LineGives tab count choices j line g ∧ d' = g.over d) ∨
    (∀ g, ¬ LineGives tab count choices j line g) ∧ d' = d

/-- A line that is read as an assignment has this form and no other. -/
theorem LineGives.of_prefix {g : Given}
    (h : LineGives tab count choices j (configPrefix ++ s) g) :
    ∃ name p, s = name ++ '=' :: p ∧ '=' ∉ name ∧
      symFind tab count choices name = some (.entry j) ∧
      ValueGives (tab.entry j).type (lineValue p) g := by
  generalize hline : configPrefix ++ s = line at h
  cases h with
  | unset =>
      have hhead := congrArg List.head? hline
      exact absurd hhead (by decide : ¬ some 'C' = some '#')
  | assign hname hcalled hended hvalue =>
      refine ⟨_, _, List.append_cancel_left hline, hname, symFind_eq_some.2 hcalled, ?_⟩
      rwa [lineValue_eq.2 hended]

/-- A line that begins with `#` has this form and no other. -/
theorem LineGives.of_hash {g : Given}
    (h : LineGives tab count choices j ('#' :: c :: s) g) :
    ∃ name rest, s = configPrefix ++ (name ++ ' ' :: (isNotSet ++ rest)) ∧ ' ' ∉ name ∧
      symFind tab count choices name = some (.entry j) ∧
      ((tab.entry j).type = .boolean ∨ (tab.entry j).type = .tristate) ∧ g = .tri .no := by
  generalize hline : '#' :: c :: s = line at h
  cases h with
  | unset hname hcalled htype =>
      have htail := (List.cons.inj (List.cons.inj hline).2).2
      exact ⟨_, _, htail, hname, symFind_eq_some.2 hcalled, htype, rfl⟩
  | assign =>
      have hhead := congrArg List.head? hline
      exact absurd hhead (by decide : ¬ some '#' = some 'C')

/-- What `strchr` finds in a line decides what the line gives. -/
theorem LineGives.of_strchr_hash {g : Given} (hs : strchr ' ' s = some (name, p))
    (h : LineGives tab count choices j ('#' :: c :: (configPrefix ++ s)) g) :
    symFind tab count choices name = some (.entry j) ∧ isNotSet.isPrefixOf p ∧
      ((tab.entry j).type = .boolean ∨ (tab.entry j).type = .tristate) ∧ g = .tri .no := by
  obtain ⟨name', rest, htail, hname, hfind, htype, hg⟩ := h.of_hash
  obtain rfl := List.append_cancel_left htail
  rw [strchr_append hname] at hs
  simp only [Option.some.injEq, Prod.mk.injEq] at hs
  obtain ⟨rfl, rfl⟩ := hs
  refine ⟨hfind, ?_, htype, hg⟩
  rw [List.isPrefixOf_iff_prefix]
  exact List.prefix_append _ _

/-- The same for an assignment. -/
theorem LineGives.of_strchr_prefix {g : Given} (hs : strchr '=' s = some (name, p))
    (h : LineGives tab count choices j (configPrefix ++ s) g) :
    symFind tab count choices name = some (.entry j) ∧
      ValueGives (tab.entry j).type (lineValue p) g := by
  obtain ⟨name', p', rfl, hname, hfind, hvalue⟩ := h.of_prefix
  rw [strchr_append hname] at hs
  simp only [Option.some.injEq, Prod.mk.injEq] at hs
  obtain ⟨rfl, rfl⟩ := hs
  exact ⟨hfind, hvalue⟩

/-- A name has one symbol. -/
theorem entry_unique (hi : symFind tab count choices name = some (.entry i))
    (hj : symFind tab count choices name = some (.entry j)) : i = j :=
  SymPtr.entry.inj (Option.some.inj (hi.symm.trans hj))

/-- The choices of the values are choices. -/
def Choices.Proper (choices : Choices) : Prop :=
  ∀ i c, choices.choiceOf i = some c → choices.isChoice c = true

/-- A symbol that is no choice has no values. -/
theorem Choices.Proper.ne (h : choices.Proper) (hj : choices.isChoice j = false) (i : ℕ) :
    choices.choiceOf i ≠ some j := fun hof =>
  absurd ((h i j hof).symm.trans hj) (by decide)

/-- The comment that a symbol is not set. -/
theorem readUnset_tells {rest : Text} (hchoices : choices.Proper) (hj : choices.isChoice j = false)
    (hname : ' ' ∉ name) (rd : Reader) :
    Tells tab count choices j ('#' :: c :: (configPrefix ++ (name ++ ' ' :: (isNotSet ++ rest))))
      (rd.defs j) ((readUnset tab count choices name rd).defs j) := by
  have hchr := strchr_append hname (isNotSet ++ rest)
  unfold readUnset
  cases hfind : symFind tab count choices name with
  | none =>
      refine Or.inr ⟨fun g hg => ?_, rfl⟩
      cases hfind.symm.trans (hg.of_strchr_hash hchr).1
  | some sym =>
      cases sym with
      | entry i =>
          simp only
          rw [noteChoice_other (hchoices.ne hj i)]
          by_cases hij : j = i
          · subst hij
            by_cases htype : (tab.entry j).type = .boolean ∨ (tab.entry j).type = .tristate
            · refine Or.inl ⟨.tri .no, .unset hname (symFind_eq_some.1 hfind) htype, ?_⟩
              rcases htype with htype | htype
              · simp only [htype, Reader.defs_put_self, warnSet_defs]
                rfl
              · simp only [htype, Reader.defs_put_self, warnSet_defs]
                rfl
            · refine Or.inr ⟨fun g hg => htype (hg.of_strchr_hash hchr).2.2.1, ?_⟩
              rw [not_or] at htype
              split
              · exact absurd ‹_› htype.1
              · exact absurd ‹_› htype.2
              · rw [warnSet_defs]
          · refine Or.inr ⟨fun g hg => hij (entry_unique (hg.of_strchr_hash hchr).1 hfind), ?_⟩
            split
            · rw [Reader.defs_put_of_ne _ _ hij, warnSet_defs]
            · rw [Reader.defs_put_of_ne _ _ hij, warnSet_defs]
            · rw [warnSet_defs]
      | _ =>
          refine Or.inr ⟨fun g hg => ?_, rfl⟩
          cases hfind.symm.trans (hg.of_strchr_hash hchr).1

/-- What stands behind the `#` and a character decides. -/
theorem comment_tells (hchoices : choices.Proper) (hj : choices.isChoice j = false) (c : Char)
    (s : Text) (rd : Reader) :
    Tells tab count choices j ('#' :: c :: s) (rd.defs j) (Reader.defs (
      if configPrefix.isPrefixOf s then
        match strchr ' ' (s.drop configPrefix.length) with
        | none => rd
        | some (name, p) =>
            if isNotSet.isPrefixOf p then readUnset tab count choices name rd else rd
      else rd) j) := by
  by_cases hprefix : configPrefix.isPrefixOf s = true
  · obtain ⟨s, rfl⟩ := List.isPrefixOf_iff_prefix.1 hprefix
    rw [if_pos hprefix, List.drop_left' rfl]
    cases hchr : strchr ' ' s with
    | none =>
        refine Or.inr ⟨fun g hg => ?_, rfl⟩
        obtain ⟨name, rest, htail, -⟩ := hg.of_hash
        obtain rfl := List.append_cancel_left htail
        exact strchr_eq_none hchr (by simp)
    | some r =>
        obtain ⟨name, p⟩ := r
        obtain ⟨rfl, hname⟩ := strchr_eq_some hchr
        simp only
        by_cases hset : isNotSet.isPrefixOf p = true
        · rw [if_pos hset]
          obtain ⟨rest, rfl⟩ := List.isPrefixOf_iff_prefix.1 hset
          exact readUnset_tells hchoices hj hname rd
        · rw [if_neg hset]
          exact Or.inr ⟨fun g hg => hset (hg.of_strchr_hash hchr).2.1, rfl⟩
  · rw [if_neg hprefix]
    refine Or.inr ⟨fun g hg => ?_, rfl⟩
    obtain ⟨name, rest, rfl, -⟩ := hg.of_hash
    exact hprefix (List.isPrefixOf_iff_prefix.2 (List.prefix_append _ _))

/-- A value for a symbol that is not this one, or one that does not fit, leaves
it alone. -/
theorem readValue_tells (hchoices : choices.Proper) (hj : choices.isChoice j = false)
    (hname : '=' ∉ name) (rd : Reader) :
    Tells tab count choices j (configPrefix ++ (name ++ '=' :: p)) (rd.defs j)
      ((readValue tab count choices name p rd).1.defs j) := by
  have hchr := strchr_append hname p
  unfold readValue
  cases hfind : symFind tab count choices name with
  | none =>
      refine Or.inr ⟨fun g hg => ?_, rfl⟩
      cases hfind.symm.trans (hg.of_strchr_prefix hchr).1
  | some sym =>
      cases sym with
      | entry i =>
          simp only
          have hdefs : (if (confSetSymVal tab i (lineValue p) (rd.warnSet i)).1 then
              (confSetSymVal tab i (lineValue p) (rd.warnSet i)).2
            else noteChoice choices i
              (confSetSymVal tab i (lineValue p) (rd.warnSet i)).2).defs j =
              (confSetSymVal tab i (lineValue p) (rd.warnSet i)).2.defs j := by
            split
            · rfl
            · exact noteChoice_other (hchoices.ne hj i) _
          rw [hdefs]
          rcases confSetSymVal_cases tab i (lineValue p) (rd.warnSet i) with
            ⟨g, hg, hrun⟩ | ⟨hnone, hrun⟩
          · rw [hrun]
            by_cases hij : j = i
            · subst hij
              have hcalled := symFind_eq_some.1 hfind
              refine Or.inl ⟨g, .assign hname hcalled (lineValue_eq.1 rfl) hg, ?_⟩
              rw [Reader.defs_put_self, warnSet_defs]
            · refine Or.inr ⟨fun g hg => ?_, ?_⟩
              · exact hij (entry_unique (hg.of_strchr_prefix hchr).1 hfind)
              · rw [Reader.defs_put_of_ne _ _ hij, warnSet_defs]
          · refine Or.inr ⟨fun g hg => ?_, by rw [hrun, warnSet_defs]⟩
            obtain ⟨hfind', hvalue⟩ := hg.of_strchr_prefix hchr
            rw [entry_unique hfind hfind'] at hnone
            exact hnone g hvalue
      | _ =>
          refine Or.inr ⟨fun g hg => ?_, rfl⟩
          cases hfind.symm.trans (hg.of_strchr_prefix hchr).1

/-- **A line does what it says**, unless it is a lone `#` at the end of the
file. -/
theorem readLine_tells (hchoices : choices.Proper) (hj : choices.isChoice j = false)
    (hline : line ≠ ['#']) (rd : Reader) (mem : Memory) :
    ∃ rd' mem', readLine tab count choices (rd, mem) line = .ok (rd', mem') ∧
      Tells tab count choices j line (rd.defs j) (rd'.defs j) := by
  by_cases hhead : line.head? = some '#'
  · obtain ⟨c, s, rfl⟩ : ∃ c s, line = '#' :: c :: s := by
      rcases line with _ | ⟨d, _ | ⟨c, s⟩⟩
      · cases hhead
      · exact absurd (by rw [Option.some.inj hhead]) hline
      · exact ⟨c, s, by rw [Option.some.inj hhead]⟩
    obtain ⟨mem', hrun⟩ := readLine_comment tab count choices c s rd mem
    exact ⟨_, mem', hrun, comment_tells hchoices hj c s rd⟩
  · by_cases hprefix : configPrefix.isPrefixOf line = true
    · obtain ⟨s, rfl⟩ := List.isPrefixOf_iff_prefix.1 hprefix
      obtain ⟨mem', hrun⟩ := readLine_assignment tab count choices s rd mem
      refine ⟨_, mem', hrun, ?_⟩
      cases hchr : strchr '=' s with
      | none =>
          refine Or.inr ⟨fun g hg => ?_, rfl⟩
          obtain ⟨name, p, rfl, -⟩ := hg.of_prefix
          exact strchr_eq_none hchr (by simp)
      | some r =>
          obtain ⟨name, p⟩ := r
          obtain ⟨rfl, hname⟩ := strchr_eq_some hchr
          exact readValue_tells hchoices hj hname rd
    · have hnone : ∀ g, ¬ LineGives tab count choices j line g := by
        intro g hg
        cases hg with
        | unset => exact hhead rfl
        | assign => exact hprefix (List.isPrefixOf_iff_prefix.2 (List.prefix_append _ _))
      rw [readLine, if_neg hhead, if_neg hprefix]
      split
      · exact ⟨_, _, rfl, Or.inr ⟨hnone, rfl⟩⟩
      · exact ⟨_, _, rfl, Or.inr ⟨hnone, rfl⟩⟩

/-! ## All lines -/

/-- What the lines give a symbol: the last word there is on it. -/
def LastWord (tab : SymbolTable) (count : ℕ) (choices : Choices) (i : ℕ) (lines : List Text)
    (d : Def) : Prop :=
  (∃ before line after g, lines = before ++ line :: after ∧
    LineGives tab count choices i line g ∧
    (∀ l ∈ after, ∀ g', ¬ LineGives tab count choices i l g') ∧
    g.Fits (tab.entry i).type ∧ d = g.toDef) ∨
  (∀ l ∈ lines, ∀ g, ¬ LineGives tab count choices i l g) ∧ d = ⟨.no, none, none, false⟩

/-- A value goes where another of the type was, or none. -/
theorem Given.over_eq {g : Given} (hg : g.Fits type) {d : Def}
    (hd : d = ⟨.no, none, none, false⟩ ∨ ∃ g' : Given, g'.Fits type ∧ d = g'.toDef) :
    g.over d = g.toDef := by
  rcases hd with rfl | ⟨g', hg', rfl⟩
  · cases g <;> rfl
  · cases g with
    | tri t =>
        cases g' with
        | tri t' => rfl
        | val v =>
            exfalso
            cases type <;> first | exact hg | exact hg'
    | val v =>
        cases g' with
        | val v' => rfl
        | tri t =>
            exfalso
            cases type <;> first | exact hg | exact hg'

/-- **One more line** has the last word, or leaves it to those before. -/
theorem LastWord.step {lines : List Text} {d d' : Def}
    (h : LastWord tab count choices i lines d) (htells : Tells tab count choices i line d d') :
    LastWord tab count choices i (lines ++ [line]) d' := by
  rcases htells with ⟨g, hg, rfl⟩ | ⟨hnone, rfl⟩
  · have hd : d = ⟨.no, none, none, false⟩ ∨
        ∃ g' : Given, g'.Fits (tab.entry i).type ∧ d = g'.toDef := by
      rcases h with ⟨-, -, -, g', -, -, -, hfits, hd⟩ | ⟨-, hd⟩
      · exact Or.inr ⟨g', hfits, hd⟩
      · exact Or.inl hd
    exact Or.inl ⟨lines, line, [], g, rfl, hg, fun l hl => absurd hl List.not_mem_nil, hg.fits,
      Given.over_eq hg.fits hd⟩
  · rcases h with ⟨before, last, after, g, rfl, hg, hafter, hfits, hd⟩ | ⟨hall, hd⟩
    · refine Or.inl ⟨before, last, after ++ [line], g, by simp, hg, ?_, hfits, hd⟩
      intro l hl
      rcases List.mem_append.1 hl with hl | hl
      · exact hafter l hl
      · rw [List.mem_singleton.1 hl]
        exact hnone
    · refine Or.inr ⟨?_, hd⟩
      intro l hl
      rcases List.mem_append.1 hl with hl | hl
      · exact hall l hl
      · rw [List.mem_singleton.1 hl]
        exact hnone

/-- Every line but the last ends with a newline. -/
theorem getLines_newline (file : Text) :
    ∀ l ∈ (getLines file).dropLast, l.getLast? = some '\n' := by
  induction file with
  | nil => exact fun l hl => absurd hl List.not_mem_nil
  | cons c s ih =>
      rw [getLines]
      split
      · next hc =>
        cases hrest : getLines s with
        | nil => exact fun l hl => absurd hl List.not_mem_nil
        | cons l' ls =>
            rw [hrest] at ih
            rw [List.dropLast_cons_of_ne_nil (List.cons_ne_nil l' ls), List.forall_mem_cons]
            exact ⟨by rw [hc]; rfl, ih⟩
      · cases hrest : getLines s with
        | nil => exact fun l hl => absurd hl List.not_mem_nil
        | cons l' ls =>
            rw [hrest] at ih
            cases ls with
            | nil => exact fun l hl => absurd hl List.not_mem_nil
            | cons l'' ls =>
                rw [List.dropLast_cons_of_ne_nil (List.cons_ne_nil l'' ls),
                  List.forall_mem_cons] at ih
                simp only
                rw [List.dropLast_cons_of_ne_nil (List.cons_ne_nil l'' ls), List.forall_mem_cons]
                refine ⟨?_, ih.2⟩
                rw [List.getLast?_cons, ih.1]
                rfl

/-- A lone `#` is the last line. -/
theorem ne_hash_of_last {file : Text} (hlast : (getLines file).getLast? ≠ some ['#']) :
    ∀ l ∈ getLines file, l ≠ ['#'] := by
  rintro l hl rfl
  have hnewline := getLines_newline file
  obtain hnil | ⟨ls, last, hls⟩ := List.eq_nil_or_concat (getLines file)
  · rw [hnil] at hl
    exact absurd hl List.not_mem_nil
  · rw [List.concat_eq_append] at hls
    rw [hls, List.dropLast_concat] at hnewline
    rw [hls, List.getLast?_concat] at hlast
    rw [hls, List.mem_append, List.mem_singleton] at hl
    rcases hl with hl | hl
    · exact absurd (hnewline _ hl) (by decide)
    · exact hlast (by rw [hl])

/-- **The last word counts.** Whatever the text of the file, if its last line
is no lone `#` the reading comes to an end, and a symbol that is no choice is
left with the value the last line that gives it one says, which fits its type,
and without a value if no line gives it one. -/
theorem confReadSimple_lastWord (tab : SymbolTable) (count : ℕ) (choices : Choices) (file : Text)
    (i : ℕ) (hlast : (getLines file).getLast? ≠ some ['#']) (hchoices : choices.Proper)
    (hi : choices.isChoice i = false) :
    ∃ rd, confReadSimple tab count choices file = .ok rd ∧
      LastWord tab count choices i (getLines file) (rd.defs i) := by
  have hlines := ne_hash_of_last hlast
  have hrun : ∃ rd mem, (getLines file).foldlM (readLine tab count choices)
      (⟨clearedDef choices, 0, 0⟩, []) = .ok (rd, mem) ∧
        LastWord tab count choices i (getLines file) (rd.defs i) := by
    clear hlast
    generalize getLines file = lines at hlines ⊢
    induction lines using List.reverseRecOn with
    | nil =>
        refine ⟨_, _, rfl, Or.inr ⟨fun l hl => absurd hl List.not_mem_nil, ?_⟩⟩
        show clearedDef choices i = _
        rw [clearedDef, hi]
    | append_singleton lines line ih =>
        rw [List.forall_mem_append, List.forall_mem_singleton] at hlines
        obtain ⟨rd, mem, hrun, hword⟩ := ih hlines.1
        obtain ⟨rd', mem', hline, htells⟩ := readLine_tells hchoices hi hlines.2 rd mem
        refine ⟨rd', mem', ?_, hword.step htells⟩
        rw [List.foldlM_append, hrun]
        show [line].foldlM (readLine tab count choices) (rd, mem) = _
        rw [List.foldlM_cons, hline]
        rfl
  obtain ⟨rd, mem, hrun, hword⟩ := hrun
  refine ⟨rd, ?_, hword⟩
  rw [confReadSimple, hrun]
  rfl

/-- The two symbols belong to a choice. -/
theorem pairChoices_proper : pairChoices.Proper := by
  intro i c h
  by_cases hi : i = 2 ∨ i = 3
  · simp only [pairChoices, if_pos hi, Option.some.injEq] at h
    rw [← h]
    decide
  · simp only [pairChoices, if_neg hi] at h
    cases h

/-- A file of one line, without its newline. -/
theorem confReadSimple_lastWord_pair :
    ∃ rd, confReadSimple pairTable 4 pairChoices
        (configPrefix ++ ['S', '=', dquote, 'a', dquote]) = .ok rd ∧
      LastWord pairTable 4 pairChoices 0
        (getLines (configPrefix ++ ['S', '=', dquote, 'a', dquote])) (rd.defs 0) :=
  confReadSimple_lastWord pairTable 4 pairChoices (configPrefix ++ ['S', '=', dquote, 'a', dquote])
    0 (by decide) pairChoices_proper (by decide)

/-- A lone `#` at the end is taken for the beginning of what the line before
left in memory: here it unsets a symbol that the first line sets. -/
example : (confReadSimple pairTable 4 pairChoices
    (configPrefix ++ ['P', '=', 'y', '\n', 'x', 'y'] ++ configPrefix ++ ['P', ' '] ++ isNotSet ++
      ['\n', '#'])).map (fun rd => (rd.defs 2).tri) = .ok .no := rfl

end Kconfig

end BlocTest
