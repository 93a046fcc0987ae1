import BlocTest.Kconfig.Helpers.Confdata
/-!
# The configuration file reads back

What `conf_write` writes for a menu tree, `conf_read_simple` reads without a
warning, and every symbol that was written has its value again. A symbol is
written once though it may be in several menus, because `SYMBOL_WRITE` is taken
off it; and the choices, of which nothing is written, get their mode and the
symbol that is selected from their values.
-/

namespace BlocTest

namespace Kconfig

variable {tab : SymbolTable} {cfg : Config tab} {count : ℕ} {choices : Choices}
variable {rd : Reader} {st st' st'' : Writer} {i j c : ℕ} {M M' : ℕ → Prop}

/-! ## What is written -/

/-- The symbol a node stands for, if its value is to be written. -/
def MenuEntry.Names (choices : Choices) (i : ℕ) : MenuEntry → Prop
  | .sym j => j = i ∧ choices.isChoice i = false
  | .prompt _ _ => False

/-- A symbol is in a menu, and no choice. -/
def Menu.Names (choices : Choices) (i : ℕ) : Menu → Prop
  | .null => False
  | .node entry list next => entry.Names choices i ∨ list.Names choices i ∨ next.Names choices i

/-- A prompt that is one line and not taken for the line of a symbol. -/
def MenuEntry.Quiet : MenuEntry → Prop
  | .sym _ => True
  | .prompt text _ => '\n' ∉ text ∧ ¬ configPrefix.isPrefixOf text

/-- All prompts of a menu are such. -/
def Menu.Quiet : Menu → Prop
  | .null => True
  | .node entry list next => entry.Quiet ∧ list.Quiet ∧ next.Quiet

/-- Reading the lines of some symbols, one after the other. -/
def readBackAll (cfg : Config tab) (choices : Choices) (ws : List ℕ) (rd : Reader) : Reader :=
  ws.foldl (fun rd i => readBack cfg choices i rd) rd

/-- **What reading some lines does**, whatever the memory holds before. -/
def DoesAll (tab : SymbolTable) (count : ℕ) (choices : Choices) (ls : List Text)
    (f : Reader → Reader) : Prop :=
  ∀ rd mem, ∃ mem', ls.foldlM (readLine tab count choices) (rd, mem) = .ok (f rd, mem')

/-- No lines do nothing. -/
theorem doesAll_nil : DoesAll tab count choices [] id := fun _ mem => ⟨mem, rfl⟩

/-- Lines do what the first of them do and then what the others do. -/
theorem DoesAll.append {ls ls' : List Text} {f g : Reader → Reader}
    (h : DoesAll tab count choices ls f) (h' : DoesAll tab count choices ls' g) :
    DoesAll tab count choices (ls ++ ls') (g ∘ f) := by
  intro rd mem
  obtain ⟨mem₁, hrun⟩ := h rd mem
  obtain ⟨mem₂, hrun'⟩ := h' (f rd) mem₁
  refine ⟨mem₂, ?_⟩
  rw [List.foldlM_append, hrun]
  exact hrun'

/-- A single line. -/
theorem Does.doesAll {l : Text} {f : Reader → Reader} (h : Does tab count choices l f) :
    DoesAll tab count choices [l] f := by
  intro rd mem
  obtain ⟨mem', hrun⟩ := h rd mem
  refine ⟨mem', ?_⟩
  rw [List.foldlM_cons, hrun]
  rfl

/-- **From one state of `conf_write` to a later one** the lines of some symbols
have been written, once each: of those of `M` that were to be written and have
a type. -/
structure Wrote (tab : SymbolTable) (count : ℕ) (choices : Choices) (cfg : Config tab)
    (M : ℕ → Prop) (st st' : Writer) (ls : List Text) (ws : List ℕ) : Prop where
  out : st'.out = st.out ++ ls
  newline : ∀ l ∈ ls, '\n' ∉ l
  read : DoesAll tab count choices (ls.map (· ++ ['\n'])) (readBackAll cfg choices ws)
  nodup : ws.Nodup
  mem : ∀ i, i ∈ ws ↔ M i ∧ st.write i = true ∧ (tab.entry i).type ≠ .unknown
  write : ∀ i, st'.write i = true ↔ st.write i = true ∧ ¬ M i

namespace Wrote

variable {ls ls' : List Text} {ws ws' : List ℕ}

/-- Nothing has been written. -/
theorem refl (st : Writer) : Wrote tab count choices cfg (fun _ => False) st st [] [] where
  out := (List.append_nil _).symm
  newline := fun _ hl => absurd hl List.not_mem_nil
  read := doesAll_nil
  nodup := List.nodup_nil
  mem := by simp
  write := by simp

/-- One piece after another: a symbol the first has written is no longer to be
written. -/
theorem trans (h : Wrote tab count choices cfg M st st' ls ws)
    (h' : Wrote tab count choices cfg M' st' st'' ls' ws') :
    Wrote tab count choices cfg (fun i => M i ∨ M' i) st st'' (ls ++ ls') (ws ++ ws') where
  out := by rw [h'.out, h.out, List.append_assoc]
  newline := by
    intro l hl
    rcases List.mem_append.1 hl with hl | hl
    · exact h.newline l hl
    · exact h'.newline l hl
  read := by
    have hall : readBackAll cfg choices (ws ++ ws') =
        readBackAll cfg choices ws' ∘ readBackAll cfg choices ws := by
      funext rd
      exact List.foldl_append
    rw [List.map_append, hall]
    exact h.read.append h'.read
  nodup := by
    refine List.nodup_append.2 ⟨h.nodup, h'.nodup, fun i hi j hj hij => ?_⟩
    rw [← hij] at hj
    -- what is written later was still to be written
    exact ((h.write i).1 ((h'.mem i).1 hj).2.1).2 ((h.mem i).1 hi).1
  mem := by
    intro i
    rw [List.mem_append, h.mem, h'.mem, h.write]
    by_cases hM : M i
    · simp [hM]
    · simp [hM]
  write := by
    intro i
    rw [h'.write, h.write]
    tauto

/-- Only which symbols the piece speaks of counts. -/
theorem congr (h : Wrote tab count choices cfg M st st' ls ws) (hM : ∀ i, M i ↔ M' i) :
    Wrote tab count choices cfg M' st st' ls ws := by
  rwa [funext fun i => propext (hM i)] at h

/-- Lines that say nothing. -/
theorem of_quiet (hls : ∀ l ∈ ls, Quiet l) (needNewline : Bool) :
    Wrote tab count choices cfg (fun _ => False) st
      { st with out := st.out ++ ls, needNewline } ls [] where
  out := rfl
  newline := fun l hl => (hls l hl).1
  read := by
    induction ls with
    | nil => exact doesAll_nil
    | cons l ls ih =>
        obtain ⟨hl, hrest⟩ := List.forall_mem_cons.1 hls
        exact hl.does.doesAll.append (ih hrest)
  nodup := List.nodup_nil
  mem := by simp
  write := by simp

/-- The line of a symbol. -/
theorem of_symbol (st : Writer) (hi : choices.isChoice i = false) (hwrite : st.write i = true)
    (h : (tab.entry i).type ≠ .unknown → Readable tab count choices cfg i) :
    ∃ ws, Wrote tab count choices cfg (MenuEntry.Names choices · (.sym i)) st
      { out := st.out ++ confWriteSymbol cfg i
        write := Function.update st.write i false
        needNewline := false } (confWriteSymbol cfg i) ws := by
  have hupdate : ∀ j, Function.update st.write i false j = true ↔
      st.write j = true ∧ ¬ MenuEntry.Names choices j (.sym i) := by
    intro j
    by_cases hij : j = i
    · subst hij
      simp [MenuEntry.Names, hi]
    · rw [Function.update_of_ne hij]
      refine ⟨fun h => ⟨h, fun hn => hij hn.1.symm⟩, fun h => h.1⟩
  by_cases htype : (tab.entry i).type = .unknown
  · have hnone : confWriteSymbol cfg i = [] := by
      unfold confWriteSymbol
      rw [htype]
    rw [hnone]
    refine ⟨[], rfl, fun _ hl => absurd hl List.not_mem_nil, doesAll_nil, List.nodup_nil, ?_,
      hupdate⟩
    intro j
    refine ⟨fun h => absurd h List.not_mem_nil, fun ⟨hn, _, hne⟩ => ?_⟩
    exact absurd (hn.1 ▸ htype) hne
  · have hread := h htype
    rw [confWriteSymbol_eq htype]
    obtain ⟨hline, hdoes⟩ := hread.readsBack
    refine ⟨[i], rfl, ?_, hdoes.doesAll, List.pairwise_singleton _ i, ?_, hupdate⟩
    · intro l hl
      rwa [List.mem_singleton.1 hl]
    · intro j
      rw [List.mem_singleton]
      constructor
      · rintro rfl
        exact ⟨⟨rfl, hi⟩, hwrite, htype⟩
      · exact fun hj => hj.1.1.symm

end Wrote

/-- What a piece of the walk does. -/
def Walks (tab : SymbolTable) (count : ℕ) (choices : Choices) (cfg : Config tab) (M : ℕ → Prop)
    (st st' : Writer) : Prop := ∃ ls ws, Wrote tab count choices cfg M st st' ls ws

/-- One piece of the walk after another. -/
theorem Walks.trans (h : Walks tab count choices cfg M st st')
    (h' : Walks tab count choices cfg M' st' st'') :
    Walks tab count choices cfg (fun i => M i ∨ M' i) st st'' := by
  obtain ⟨ls, ws, h⟩ := h
  obtain ⟨ls', ws', h'⟩ := h'
  exact ⟨ls ++ ls', ws ++ ws', h.trans h'⟩

/-- Only which symbols the piece speaks of counts. -/
theorem Walks.congr (h : Walks tab count choices cfg M st st') (hM : ∀ i, M i ↔ M' i) :
    Walks tab count choices cfg M' st st' := by
  obtain ⟨ls, ws, h⟩ := h
  exact ⟨ls, ws, h.congr hM⟩

/-- A symbol that has no reading is not to be written. -/
def AllReadable (tab : SymbolTable) (count : ℕ) (choices : Choices) (cfg : Config tab)
    (write : ℕ → Bool) : Prop :=
  ∀ i, write i = true → choices.isChoice i = false → (tab.entry i).type ≠ .unknown →
    Readable tab count choices cfg i

/-- What is still to be written was to be written before. -/
theorem Walks.readable (h : Walks tab count choices cfg M st st')
    (hst : AllReadable tab count choices cfg st.write) :
    AllReadable tab count choices cfg st'.write := by
  obtain ⟨ls, ws, h⟩ := h
  exact fun i hi => hst i ((h.write i).1 hi).1

/-- **What `conf_write` does on coming to a node**: the heading of a menu, or
the line of a symbol that is still to be written. -/
theorem enterMenu_walks {entry : MenuEntry} (hentry : entry.Quiet)
    (hst : AllReadable tab count choices cfg st.write) :
    Walks tab count choices cfg (entry.Names choices ·) st (enterMenu cfg choices entry st) := by
  cases entry with
  | prompt text visible =>
      cases visible with
      | false => exact ⟨_, _, Wrote.refl st⟩
      | true =>
          refine ⟨_, _, Wrote.of_quiet ?_ false⟩
          intro l hl
          simp only [List.mem_cons, List.not_mem_nil, or_false] at hl
          rcases hl with rfl | rfl | rfl | rfl
          · exact quiet_nil
          · exact quiet_hash
          · exact quiet_remark hentry.1 hentry.2
          · exact quiet_hash
  | sym i =>
      rw [enterMenu]
      by_cases hi : choices.isChoice i = true
      · rw [if_pos hi]
        refine Walks.congr ⟨_, _, Wrote.refl st⟩ fun j => ⟨fun h => h.elim, fun h => ?_⟩
        obtain ⟨rfl, hj⟩ := h
        exact absurd (hi.symm.trans hj) (by decide)
      · rw [if_neg hi]
        rw [Bool.not_eq_true] at hi
        by_cases hwrite : st.write i = true
        · rw [if_pos hwrite]
          have hblank : ∀ l ∈ (if st.needNewline then [[]] else [] : List Text), Quiet l := by
            intro l hl
            split at hl
            · rw [List.mem_singleton.1 hl]
              exact quiet_nil
            · exact absurd hl List.not_mem_nil
          obtain ⟨ws, hsym⟩ := Wrote.of_symbol
            { st with out := st.out ++ (if st.needNewline then [[]] else []) } hi hwrite
            (hst i hwrite hi)
          refine (Walks.trans ⟨_, _, Wrote.of_quiet hblank st.needNewline⟩ ⟨_, _, hsym⟩).congr ?_
          exact fun j => or_iff_right id
        · rw [if_neg hwrite]
          have hrefl : Wrote tab count choices cfg (fun _ => False) st st [] [] := Wrote.refl st
          obtain ⟨hout, hnewline, hread, hnodup, -, -⟩ := hrefl
          refine ⟨_, _, hout, hnewline, hread, hnodup, fun j => ?_, fun j => ?_⟩
          · refine ⟨fun h => absurd h List.not_mem_nil, fun ⟨hn, hj, _⟩ => ?_⟩
            exact absurd (hn.1 ▸ hj) hwrite
          · refine ⟨fun h => ⟨h, fun hn => hwrite (hn.1 ▸ h)⟩, fun h => h.1⟩

/-- What it does on leaving one: the comment that ends a menu. -/
theorem leaveMenu_walks {entry : MenuEntry} (hentry : entry.Quiet) :
    Walks tab count choices cfg (fun _ => False) st (leaveMenu entry st) := by
  cases entry with
  | sym i => exact ⟨_, _, Wrote.refl st⟩
  | prompt text visible =>
      cases visible with
      | false => exact ⟨_, _, Wrote.refl st⟩
      | true =>
          refine ⟨_, _, Wrote.of_quiet ?_ true⟩
          intro l hl
          rw [List.mem_singleton.1 hl]
          refine quiet_remark ?_ ?_
          · rw [List.mem_append, not_or]
            exact ⟨by decide, hentry.1⟩
          · simp [configPrefix]

/-- **The walk writes each symbol of the menu once.** -/
theorem walkMenu_walks (menu : Menu) : ∀ st : Writer, menu.Quiet →
    AllReadable tab count choices cfg st.write →
    Walks tab count choices cfg (menu.Names choices ·) st (walkMenu cfg choices menu st) := by
  induction menu with
  | null => exact fun st _ _ => ⟨_, _, Wrote.refl st⟩
  | node entry list next ihlist ihnext =>
      intro st hmenu hst
      obtain ⟨hentry, hlist, hnext⟩ := hmenu
      have henter := enterMenu_walks hentry hst
      have hst₁ := henter.readable hst
      cases list with
      | null =>
          rw [walkMenu]
          refine (henter.trans (ihnext _ hnext hst₁)).congr fun i => ?_
          simp only [Menu.Names, false_or]
      | node entry' list' next' =>
          rw [walkMenu]
          · have hinner := ihlist _ hlist hst₁
            have hst₂ := hinner.readable hst₁
            set st₂ := walkMenu cfg choices (.node entry' list' next')
              (enterMenu cfg choices entry st)
            have hleave : Walks tab count choices cfg (fun _ => False) st₂ (leaveMenu entry st₂) :=
              leaveMenu_walks hentry
            have hst₃ := hleave.readable hst₂
            refine (((henter.trans hinner).trans hleave).trans (ihnext _ hnext hst₃)).congr ?_
            intro i
            simp only [Menu.Names, or_false, or_assoc]
          · exact fun h => nomatch h

/-! ## What is read -/

/-- The definition of a symbol whose line was read once. -/
def restoredDef (cfg : Config tab) (i : ℕ) : Def := restore cfg i ⟨.no, none, none, false⟩

/-- **The symbols in `ws` have their values and their choices know it.** -/
structure Restored (cfg : Config tab) (choices : Choices) (ws : List ℕ) (rd : Reader) : Prop where
  changes : rd.changes = 0
  warnings : rd.warnings = 0
  read : ∀ i ∈ ws, rd.defs i = restoredDef cfg i
  other : ∀ i, choices.isChoice i = false → i ∉ ws → rd.defs i = ⟨.no, none, none, false⟩
  isSet : ∀ c, choices.isChoice c = true → (rd.defs c).isSet = true
  upper : ∀ c, ∀ i ∈ ws, choices.choiceOf i = some c → (restoredDef cfg i).tri ≤ (rd.defs c).tri
  attained : ∀ c, choices.isChoice c = true → (rd.defs c).tri = .no ∨
    ∃ i ∈ ws, choices.choiceOf i = some c ∧ (restoredDef cfg i).tri = (rd.defs c).tri
  chosen : ∀ c, ∀ i ∈ ws, choices.choiceOf i = some c → (restoredDef cfg i).tri = .yes →
    (rd.defs c).chosen = some i

/-- The values of the choices agree: beside one that is `y` the others are
`n`; and what they belong to is a choice. -/
structure Choices.Agree (choices : Choices) (cfg : Config tab) (W : ℕ → Prop) : Prop where
  isChoice : ∀ i c, W i → choices.choiceOf i = some c → choices.isChoice c = true
  single : ∀ i j c, W i → W j → i ≠ j → choices.choiceOf i = some c →
    choices.choiceOf j = some c → (restoredDef cfg i).tri = .yes → (restoredDef cfg j).tri = .no

/-- Before the first line nothing is set but the choices. -/
theorem restored_start : Restored cfg choices [] ⟨clearedDef choices, 0, 0⟩ where
  changes := rfl
  warnings := rfl
  read := fun _ hi => absurd hi List.not_mem_nil
  other := by
    intro i hi _
    show clearedDef choices i = _
    rw [clearedDef, hi]
  isSet := fun _ hc => hc
  upper := fun _ _ hi => absurd hi List.not_mem_nil
  attained := fun _ _ => Or.inl rfl
  chosen := fun _ _ hi => absurd hi List.not_mem_nil

/-- The greatest of two values is not less than the first. -/
theorem le_exprOr_left (a b : Tristate) : a ≤ exprOr a b := by
  cases a <;> cases b <;> decide

/-- Nor than the second. -/
theorem le_exprOr_right (a b : Tristate) : b ≤ exprOr a b := by
  cases a <;> cases b <;> decide

/-- And it is one of them. -/
theorem exprOr_cases (a b : Tristate) : exprOr a b = a ∨ exprOr a b = b := by
  cases a <;> cases b <;> decide

/-- A definition that was put is there. -/
theorem Reader.defs_put_self (rd : Reader) (i : ℕ) (d : Def) : (rd.put i d).defs i = d := by
  simp [Reader.put]

/-- The other definitions are as they were. -/
theorem Reader.defs_put_of_ne (rd : Reader) (d : Def) (h : j ≠ i) :
    (rd.put i d).defs j = rd.defs j := by
  simp [Reader.put, h]

/-- What a choice makes of a value that agrees with those before. -/
theorem noteChoice_eq {d : Def} (hc : choices.choiceOf i = some c)
    (hd : rd.defs i = d) (hmod : d.tri = .mod → (rd.defs c).tri ≠ .yes)
    (hyes : d.tri = .yes → (rd.defs c).tri = .no) :
    noteChoice choices i rd = rd.put c { rd.defs c with
      tri := exprOr (rd.defs c).tri d.tri
      chosen := if d.tri = .yes then some i else (rd.defs c).chosen } := by
  unfold noteChoice
  rw [hc, hd]
  have hput : ∀ (rd : Reader) (d d' : Def), (rd.put c d).put c d' = rd.put c d' := by
    intro rd d d'
    simp only [Reader.put, Function.update_idem]
  cases htri : d.tri with
  | no => rfl
  | mod =>
      simp only [if_neg (hmod htri)]
      rfl
  | yes =>
      simp only [hyes htri, ne_eq, not_true_eq_false, if_false, hput]
      simp [Reader.put]

/-- **What the line of a symbol does**, the symbol not being set before. -/
structure Joined (cfg : Config tab) (choices : Choices) (i : ℕ) (rd rd' : Reader) : Prop where
  changes : rd'.changes = rd.changes
  warnings : rd'.warnings = rd.warnings
  self : rd'.defs i = restoredDef cfg i
  other : ∀ j, j ≠ i → choices.choiceOf i ≠ some j → rd'.defs j = rd.defs j
  choice : ∀ c, choices.choiceOf i = some c → rd'.defs c = { rd.defs c with
    tri := exprOr (rd.defs c).tri (restoredDef cfg i).tri
    chosen := if (restoredDef cfg i).tri = .yes then some i else (rd.defs c).chosen }

/-- The line of a symbol that was not set yet sets it, and its choice takes
the value in. -/
theorem readBack_joined (hold : rd.defs i = ⟨.no, none, none, false⟩)
    (hself : choices.choiceOf i ≠ some i)
    (hmod : ∀ c, choices.choiceOf i = some c → (restoredDef cfg i).tri = .mod →
      (rd.defs c).tri ≠ .yes)
    (hyes : ∀ c, choices.choiceOf i = some c → (restoredDef cfg i).tri = .yes →
      (rd.defs c).tri = .no) :
    Joined cfg choices i rd (readBack cfg choices i rd) := by
  have hwarn : rd.warnSet i = rd := by
    unfold Reader.warnSet
    rw [hold]
    rfl
  have hput : readBack cfg choices i rd = noteChoice choices i (rd.put i (restoredDef cfg i)) := by
    rw [readBack, hwarn, hold]
    rfl
  rw [hput]
  cases hof : choices.choiceOf i with
  | none =>
      have hnote : noteChoice choices i (rd.put i (restoredDef cfg i)) =
          rd.put i (restoredDef cfg i) := by
        unfold noteChoice
        rw [hof]
      rw [hnote]
      refine ⟨rfl, rfl, rd.defs_put_self i _, fun j hj _ => rd.defs_put_of_ne _ hj, ?_⟩
      intro c hc
      rw [hof] at hc
      cases hc
  | some c =>
      have hci : c ≠ i := by
        rintro rfl
        exact hself hof
      have hcs : (rd.put i (restoredDef cfg i)).defs c = rd.defs c := rd.defs_put_of_ne _ hci
      rw [noteChoice_eq hof (rd.defs_put_self i _) (by rw [hcs]; exact hmod c hof)
        (by rw [hcs]; exact hyes c hof), hcs]
      refine ⟨rfl, rfl, ?_, ?_, ?_⟩
      · rw [Reader.defs_put_of_ne _ _ hci.symm, rd.defs_put_self]
      · intro j hj hjc
        have hne : j ≠ c := by
          rintro rfl
          exact hjc hof
        rw [Reader.defs_put_of_ne _ _ hne, rd.defs_put_of_ne _ hj]
      · intro c' hc'
        rw [← Option.some.inj (hof.symm.trans hc'), Reader.defs_put_self]

/-- **One more line.** -/
theorem Restored.step {ws : List ℕ} {W : ℕ → Prop} (h : Restored cfg choices ws rd)
    (hagree : choices.Agree cfg W) (hws : ∀ j ∈ ws, W j ∧ choices.isChoice j = false) (hi : W i)
    (hchoice : choices.isChoice i = false) (hnew : i ∉ ws) :
    Restored cfg choices (ws ++ [i]) (readBack cfg choices i rd) := by
  have hmem : ∀ j, j ∈ ws ++ [i] ↔ j ∈ ws ∨ j = i := fun j => by
    rw [List.mem_append, List.mem_singleton]
  have hne : ∀ {j c}, choices.isChoice j = false → choices.isChoice c = true → j ≠ c := by
    rintro j c hj hc rfl
    exact absurd (hc.symm.trans hj) (by decide)
  have hof : ∀ c, choices.choiceOf i = some c → choices.isChoice c = true := fun c hc =>
    hagree.isChoice i c hi hc
  -- a value before this one that is the mode of the choice
  have hbefore : ∀ c, choices.choiceOf i = some c → (rd.defs c).tri ≠ .no → ∃ j ∈ ws, j ≠ i ∧
      W j ∧ choices.choiceOf j = some c ∧ (restoredDef cfg j).tri = (rd.defs c).tri := by
    intro c hc hno
    obtain ⟨j, hj, hjc, htri⟩ := (h.attained c (hof c hc)).resolve_left hno
    exact ⟨j, hj, fun hij => hnew (hij ▸ hj), (hws j hj).1, hjc, htri⟩
  have hjoined : Joined cfg choices i rd (readBack cfg choices i rd) := by
    refine readBack_joined (h.other i hchoice hnew)
      (fun hself => hne hchoice (hof i hself) rfl) ?_ ?_
    · intro c hc htri hyes
      obtain ⟨j, -, hji, hj, hjc, hjtri⟩ := hbefore c hc (by rw [hyes]; decide)
      have hno := hagree.single j i c hj hi hji hjc hc (hjtri.trans hyes)
      exact absurd (htri.symm.trans hno) (by decide)
    · intro c hc htri
      by_contra hno
      obtain ⟨j, -, hji, hj, hjc, hjtri⟩ := hbefore c hc hno
      exact hno (hjtri ▸ hagree.single i j c hi hj hji.symm hc hjc htri)
  generalize readBack cfg choices i rd = rd' at hjoined
  refine ⟨hjoined.changes.trans h.changes, hjoined.warnings.trans h.warnings, ?_, ?_, ?_, ?_, ?_,
    ?_⟩
  · intro j hj
    rcases (hmem j).1 hj with hj | rfl
    · have hfar : choices.choiceOf i ≠ some j := fun hc => hne (hws j hj).2 (hof j hc) rfl
      rw [hjoined.other j (fun hij => hnew (hij ▸ hj)) hfar, h.read j hj]
    · exact hjoined.self
  · intro j hj hjws
    rw [hmem, not_or] at hjws
    rw [hjoined.other j hjws.2 fun hc => hne hj (hof j hc) rfl, h.other j hj hjws.1]
  · intro c hc
    by_cases hic : choices.choiceOf i = some c
    · rw [hjoined.choice c hic]
      exact h.isSet c hc
    · rw [hjoined.other c (hne hchoice hc).symm hic]
      exact h.isSet c hc
  · intro c j hj hjc
    by_cases hic : choices.choiceOf i = some c
    · rw [hjoined.choice c hic]
      rcases (hmem j).1 hj with hj | rfl
      · exact le_trans (h.upper c j hj hjc) (le_exprOr_left _ _)
      · exact le_exprOr_right _ _
    · rcases (hmem j).1 hj with hj | rfl
      · have hc := hagree.isChoice j c (hws j hj).1 hjc
        rw [hjoined.other c (hne hchoice hc).symm hic]
        exact h.upper c j hj hjc
      · exact absurd hjc hic
  · intro c hc
    by_cases hic : choices.choiceOf i = some c
    · rw [hjoined.choice c hic]
      rcases exprOr_cases (rd.defs c).tri (restoredDef cfg i).tri with heq | heq
      · refine (h.attained c hc).imp (fun hno => heq.trans hno) ?_
        rintro ⟨j, hj, hjc, htri⟩
        exact ⟨j, (hmem j).2 (Or.inl hj), hjc, htri.trans heq.symm⟩
      · exact Or.inr ⟨i, (hmem i).2 (Or.inr rfl), hic, heq.symm⟩
    · rw [hjoined.other c (hne hchoice hc).symm hic]
      refine (h.attained c hc).imp_right ?_
      rintro ⟨j, hj, hjc⟩
      exact ⟨j, (hmem j).2 (Or.inl hj), hjc⟩
  · intro c j hj hjc hjyes
    by_cases hic : choices.choiceOf i = some c
    · rw [hjoined.choice c hic]
      rcases (hmem j).1 hj with hj | rfl
      · -- beside it the new value is `n`
        have hno := hagree.single j i c (hws j hj).1 hi (fun hij => hnew (hij ▸ hj)) hjc hic hjyes
        simp only [hno]
        exact h.chosen c j hj hjc hjyes
      · simp only [hjyes, if_true]
    · rcases (hmem j).1 hj with hj | rfl
      · have hc := hagree.isChoice j c (hws j hj).1 hjc
        rw [hjoined.other c (hne hchoice hc).symm hic]
        exact h.chosen c j hj hjc hjyes
      · exact absurd hjc hic

/-- **All the lines**, each symbol having one. -/
theorem Restored.run {ws' : List ℕ} {W : ℕ → Prop} (hagree : choices.Agree cfg W)
    (hws' : ∀ j ∈ ws', W j ∧ choices.isChoice j = false) : ∀ {ws : List ℕ} {rd : Reader},
    Restored cfg choices ws rd → (∀ j ∈ ws, W j ∧ choices.isChoice j = false) →
    (ws ++ ws').Nodup → Restored cfg choices (ws ++ ws') (readBackAll cfg choices ws' rd) := by
  induction ws' with
  | nil =>
      intro ws rd h _ _
      rwa [List.append_nil]
  | cons i ws' ih =>
      intro ws rd h hws hnodup
      obtain ⟨⟨hi, hchoice⟩, hrest⟩ := List.forall_mem_cons.1 hws'
      have hnew : i ∉ ws := fun hmem =>
        (List.nodup_append.1 hnodup).2.2 i hmem i List.mem_cons_self rfl
      have hsplit : ws ++ i :: ws' = ws ++ [i] ++ ws' := by
        rw [List.append_assoc, List.singleton_append]
      rw [hsplit] at hnodup ⊢
      refine ih hrest (h.step hagree hws hi hchoice hnew) ?_ hnodup
      intro j hj
      rcases List.mem_append.1 hj with hj | hj
      · exact hws j hj
      · rw [List.mem_singleton.1 hj]
        exact ⟨hi, hchoice⟩

/-- The symbols whose values are in the file. -/
def InFile (tab : SymbolTable) (choices : Choices) (write : ℕ → Bool) (menu : Menu) (i : ℕ) :
    Prop :=
  menu.Names choices i ∧ write i = true ∧ (tab.entry i).type ≠ .unknown

/-- A symbol that is to be written is no choice. -/
theorem MenuEntry.Names.not_choice {entry : MenuEntry} (h : entry.Names choices i) :
    choices.isChoice i = false := by
  cases entry with
  | sym j => exact h.2
  | prompt text visible => exact h.elim

/-- Wherever in the menu it is. -/
theorem Menu.Names.not_choice {menu : Menu} (h : menu.Names choices i) :
    choices.isChoice i = false := by
  induction menu with
  | null => exact h.elim
  | node entry list next ihlist ihnext =>
      rcases h with h | h | h
      · exact h.not_choice
      · exact ihlist h
      · exact ihnext h

/-- **What reading the file is to leave.** No warning; every symbol in the
file has the value it had, and no other symbol has one; each choice is set, its
mode is the greatest of its values, and it selects the one that is `y`. -/
structure FileRead (cfg : Config tab) (choices : Choices) (write : ℕ → Bool) (menu : Menu)
    (rd : Reader) : Prop where
  changes : rd.changes = 0
  warnings : rd.warnings = 0
  value : ∀ i, InFile tab choices write menu i → rd.defs i = restoredDef cfg i
  other : ∀ i, choices.isChoice i = false → ¬ InFile tab choices write menu i →
    rd.defs i = clearedDef choices i
  isSet : ∀ c, choices.isChoice c = true → (rd.defs c).isSet = true
  upper : ∀ c i, InFile tab choices write menu i → choices.choiceOf i = some c →
    (restoredDef cfg i).tri ≤ (rd.defs c).tri
  attained : ∀ c, choices.isChoice c = true → (rd.defs c).tri = .no ∨
    ∃ i, InFile tab choices write menu i ∧ choices.choiceOf i = some c ∧
      (restoredDef cfg i).tri = (rd.defs c).tri
  chosen : ∀ c i, InFile tab choices write menu i → choices.choiceOf i = some c →
    (restoredDef cfg i).tri = .yes → (rd.defs c).chosen = some i

/-- **The file reads back.** Whatever the menu tree and the configuration, if
no prompt passes for the line of a symbol, the symbols to be written are
readable and the values of the choices agree, reading what was written comes to
an end and leaves what it is to leave. -/
theorem confReadSimple_confWrite (tab : SymbolTable) (cfg : Config tab) (choices : Choices)
    (count : ℕ) (heading : Text) (write : ℕ → Bool) (menu : Menu)
    (hheading : ∀ l ∈ pieces heading, ¬ configPrefix.isPrefixOf l) (hmenu : menu.Quiet)
    (hwrite : AllReadable tab count choices cfg write)
    (hagree : choices.Agree cfg (InFile tab choices write menu)) :
    ∃ rd, confReadSimple tab count choices (confWrite cfg choices heading write menu) = .ok rd ∧
      FileRead cfg choices write menu rd := by
  obtain ⟨ls, ws, hwrote⟩ := walkMenu_walks menu
    ⟨kconfigPrintComment heading, write, false⟩ hmenu hwrite
  have hquiet := quiet_kconfigPrintComment hheading
  have hstart : Wrote tab count choices cfg (fun _ => False) ⟨[], write, false⟩ _
      (kconfigPrintComment heading) [] := Wrote.of_quiet hquiet false
  have hmem : ∀ i, i ∈ ws ↔ InFile tab choices write menu i := hwrote.mem
  have hlines : ∀ l ∈ kconfigPrintComment heading ++ ls, '\n' ∉ l := by
    intro l hl
    rcases List.mem_append.1 hl with hl | hl
    · exact (hquiet l hl).1
    · exact hwrote.newline l hl
  have hrun : confReadSimple tab count choices (confWrite cfg choices heading write menu) =
      .ok (readBackAll cfg choices ws ⟨clearedDef choices, 0, 0⟩) := by
    obtain ⟨mem', hread⟩ := hstart.read.append hwrote.read ⟨clearedDef choices, 0, 0⟩ []
    rw [confReadSimple, confWrite, hwrote.out, getLines_unlines hlines, List.map_append, hread]
    rfl
  refine ⟨_, hrun, ?_⟩
  have hall : Restored cfg choices ([] ++ ws)
      (readBackAll cfg choices ws ⟨clearedDef choices, 0, 0⟩) := by
    refine Restored.run hagree ?_ restored_start (fun j hj => absurd hj List.not_mem_nil)
      hwrote.nodup
    intro j hj
    exact ⟨(hmem j).1 hj, ((hmem j).1 hj).1.not_choice⟩
  rw [List.nil_append] at hall
  refine ⟨hall.changes, hall.warnings, ?_, ?_, hall.isSet, ?_, ?_, ?_⟩
  · exact fun i hi => hall.read i ((hmem i).2 hi)
  · intro i hi hout
    rw [hall.other i hi (mt (hmem i).1 hout), clearedDef, hi]
  · exact fun c i hi hof => hall.upper c i ((hmem i).2 hi) hof
  · intro c hc
    refine (hall.attained c hc).imp_right ?_
    rintro ⟨i, hi, hof, htri⟩
    exact ⟨i, (hmem i).1 hi, hof, htri⟩
  · exact fun c i hi hof => hall.chosen c i ((hmem i).2 hi) hof

/-- A string and a choice of two. -/
def pairTable : SymbolTable where
  entry
    | 0 => ⟨['S'], .string, false⟩
    | 1 => ⟨[], .boolean, false⟩
    | 2 => ⟨['P'], .boolean, false⟩
    | 3 => ⟨['Q'], .boolean, false⟩
    | _ => ⟨[], .unknown, false⟩
  const_unknown := by
    intro i h
    exfalso
    split at h <;> exact absurd h (by decide)
  const_unique := by
    intro i j h
    exfalso
    split at h <;> exact absurd h (by decide)
  const_fresh := by
    intro i h
    exfalso
    split at h <;> exact absurd h (by decide)

/-- The string has a quote in it, and the first of the two is selected. -/
def pairConfig : Config pairTable where
  tri i := if i = 2 then .yes else .no
  val i := if i = 0 then ['a', dquote, backslash] else []
  modules := .yes
  bool_ne_mod := by
    intro i _
    split <;> decide
  modules_of_mod := by
    intro i _ h
    split at h <;> exact absurd h (by decide)
  unknown_val := by
    intro i h
    match i with
    | 0 => exact absurd h (by decide)
    | 1 => rfl
    | 2 => exact absurd h (by decide)
    | 3 => exact absurd h (by decide)
    | _ + 4 => rfl

def pairChoices : Choices where
  isChoice i := i = 1
  choiceOf i := if i = 2 ∨ i = 3 then some 1 else none
  unnamed i := i = 1

/-- The string is in the menu twice. -/
def pairMenu : Menu :=
  .node (.prompt ['M'] true)
    (.node (.sym 0) .null (.node (.sym 1) (.node (.sym 2) .null (.node (.sym 3) .null .null))
      (.node (.sym 0) .null .null))) .null

/-- Its one prompt is a line that says nothing. -/
theorem pairMenu_quiet : pairMenu.Quiet := by
  simp [pairMenu, Menu.Quiet, MenuEntry.Quiet, configPrefix]

/-- Its symbols are words of their own, and the string is on one line. -/
theorem pair_readable : AllReadable pairTable 4 pairChoices pairConfig (· < 4) := by
  intro i hi hchoice _
  match i with
  | 0 => exact ⟨by decide, by decide, by decide, by decide, by decide, by decide, by decide,
      by decide, by decide⟩
  | 1 => exact absurd hchoice (by decide)
  | 2 => exact ⟨by decide, by decide, by decide, by decide, by decide, by decide, by decide,
      by decide, by decide⟩
  | 3 => exact ⟨by decide, by decide, by decide, by decide, by decide, by decide, by decide,
      by decide, by decide⟩
  | n + 4 =>
      have := of_decide_eq_true hi
      omega

/-- The other value of the choice is `n`. -/
theorem pair_agree :
    pairChoices.Agree pairConfig (InFile pairTable pairChoices (· < 4) pairMenu) := by
  have hvalue : ∀ i c, pairChoices.choiceOf i = some c → (i = 2 ∨ i = 3) ∧ c = 1 := by
    intro i c h
    by_cases hi : i = 2 ∨ i = 3
    · refine ⟨hi, ?_⟩
      simp only [pairChoices, if_pos hi, Option.some.injEq] at h
      exact h.symm
    · simp only [pairChoices, if_neg hi] at h
      cases h
  constructor
  · intro i c _ h
    rw [(hvalue i c h).2]
    decide
  · intro i j c _ _ hij hic hjc hyes
    rcases (hvalue i c hic).1 with rfl | rfl
    · rcases (hvalue j c hjc).1 with rfl | rfl
      · exact absurd rfl hij
      · decide
    · exact absurd hyes (by decide)

/-- The file of this menu, with the quoted string and the choice, reads back.
-/
theorem confReadSimple_confWrite_pair :
    ∃ rd, confReadSimple pairTable 4 pairChoices
        (confWrite pairConfig pairChoices ['H'] (· < 4) pairMenu) = .ok rd ∧
      FileRead pairConfig pairChoices (· < 4) pairMenu rd :=
  confReadSimple_confWrite pairTable pairConfig pairChoices 4 ['H'] (· < 4) pairMenu (by decide)
    pairMenu_quiet pair_readable pair_agree

end Kconfig

end BlocTest
