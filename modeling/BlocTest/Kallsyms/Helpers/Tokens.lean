import BlocTest.Kallsyms.Model.Tokens
/-!
# One token, through one symbol

A name in memory is its codes and NULs behind them, one more for each code
the compression has saved. The searches that read past the codes read NULs,
which are in no token, so what `compress_symbols` leaves of a name is what
replacing the pair leaves of its codes. The counts are those of the tokens of
the names that are learnt and not forgotten.
-/

namespace BlocTest

namespace Kallsyms

open Prog

variable {σ : Type} {s : σ}
variable {sym w done tail codes : List UInt8} {names others : List (List UInt8)}
variable {x y z c : UInt8} {i m n fuel : ℕ} {p p' : Profit}

/-! ## Running the memory operations -/

@[simp] theorem wp_byteAt {Q : UInt8 → σ → Prop} (h : sym[i]? = some c) :
    wp (byteAt sym i) Q s ↔ Q c s := by
  rw [byteAt, h, wp_pure]

theorem wp_setByte {Q : List UInt8 → σ → Prop} (h : i < sym.length) :
    wp (setByte sym i c) Q s ↔ Q (sym.set i c) s := by
  rw [setByte, if_pos h, wp_pure]

/-- Closing a gap of one byte. -/
theorem wp_memmove_gap {Q : List UInt8 → σ → Prop} {a : UInt8} {rest : List UInt8} :
    wp (memmove (done ++ a :: (w ++ rest)) done.length (done.length + 1) w.length) Q s ↔
      Q (done ++ (w ++ (a :: (w ++ rest)).drop w.length)) s := by
  have hlen : done.length + w.length ≤ (done ++ a :: (w ++ rest)).length ∧
      done.length + 1 + w.length ≤ (done ++ a :: (w ++ rest)).length := by
    simp only [List.length_append, List.length_cons]
    omega
  have hpast : done.drop (done.length + 1) = [] := List.drop_eq_nil_of_le (by omega)
  have hpast' : done.drop (done.length + w.length) = [] := List.drop_eq_nil_of_le (by omega)
  rw [memmove, if_pos hlen, wp_pure, List.take_left' rfl, List.drop_append, List.drop_append,
    hpast, hpast']
  simp

/-! ## Searching -/

/-- The pairs of the first bytes are the first pairs. -/
theorem digrams_take (w : List UInt8) (k : ℕ) : digrams (w.take (k + 1)) = (digrams w).take k := by
  induction w generalizing k with
  | nil => simp
  | cons a w ih =>
      cases w with
      | nil => simp
      | cons b w =>
          cases k with
          | zero => simp
          | succ k =>
              rw [digrams_cons_cons, List.take_succ_cons, List.take_succ_cons,
                List.take_succ_cons, digrams_cons_cons, ← List.take_succ_cons, ih]

/-- What a search for `x y` answers: the first occurrence in the stretch, if
there is one. -/
def Searched (start : ℕ) (w : List UInt8) (x y : UInt8) : Option ℕ → Prop
  | none => (x, y) ∉ digrams w
  | some p => ∃ pre post, w = pre ++ x :: y :: post ∧ (x, y) ∉ digrams (pre ++ [x]) ∧
      p = start + pre.length

/-- **`find_token` finds the first occurrence.** -/
theorem wp_findToken :
    wp (findToken (done ++ (w ++ tail)) done.length w.length (x, y))
      (fun r t => t = s ∧ Searched done.length w x y r) s := by
  refine wp_forReturn_range (fun k t => t = s ∧ (x, y) ∉ (digrams w).take k) ?_ ?_ ⟨rfl, by simp⟩
  · rintro k _ hk ⟨rfl, hno⟩
    obtain ⟨a, ha⟩ : ∃ a, w[k]? = some a := ⟨_, List.getElem?_eq_getElem (by omega)⟩
    obtain ⟨b, hb⟩ : ∃ b, w[k + 1]? = some b := ⟨_, List.getElem?_eq_getElem (by omega)⟩
    have hread : ∀ {j c}, w[j]? = some c → (done ++ (w ++ tail))[done.length + j]? = some c := by
      intro j c hj
      obtain ⟨hlt, -⟩ := List.getElem?_eq_some_iff.1 hj
      rw [List.getElem?_append_right (by omega), Nat.add_sub_cancel_left,
        List.getElem?_append_left hlt, hj]
    rw [wp_bind, wp_byteAt (hread ha), wp_bind, Nat.add_assoc, wp_byteAt (hread hb), wp_pure]
    split
    · next h =>
      have hax : a = x := h.1
      have hby : b = y := h.2
      rw [hax] at ha
      rw [hby] at hb
      have hpre : w.take k ++ [x] = w.take (k + 1) := by
        rw [List.take_add_one, ha, Option.toList_some]
      refine ⟨rfl, w.take k, w.drop (k + 2), ?_, ?_, ?_⟩
      · obtain ⟨hlt, hx⟩ := List.getElem?_eq_some_iff.1 ha
        obtain ⟨hlt', hy⟩ := List.getElem?_eq_some_iff.1 hb
        rw [← hy, ← List.drop_eq_getElem_cons hlt', ← hx, ← List.drop_eq_getElem_cons hlt,
          List.take_append_drop]
      · rwa [hpre, digrams_take]
      · rw [List.length_take, Nat.min_eq_left (by omega)]
    · next h =>
      refine ⟨rfl, ?_⟩
      rw [List.take_add_one, getElem?_digrams ha hb, Option.toList_some, List.mem_append,
        List.mem_singleton, not_or]
      exact ⟨hno, fun heq => h ⟨(Prod.mk.inj heq).1.symm, (Prod.mk.inj heq).2.symm⟩⟩
  · rintro _ ⟨rfl, hno⟩
    refine ⟨rfl, ?_⟩
    rwa [List.take_of_length_le (Nat.le_of_eq length_digrams)] at hno

/-! ## Replacing -/

/-- An occurrence that does not end at a NUL lies before the NULs. -/
theorem occurrence_before_nuls {pre post rest : List UInt8} (hy : y ≠ 0)
    (h : rest ++ List.replicate n 0 = pre ++ x :: y :: post) :
    ∃ post', rest = pre ++ x :: y :: post' := by
  have happ : rest ++ List.replicate n 0 = (pre ++ [x, y]) ++ post := by simpa using h
  rcases List.append_eq_append_iff.1 happ with ⟨gap, hgap, hnul⟩ | ⟨rest', hrest, -⟩
  · rcases List.eq_nil_or_concat' gap with rfl | ⟨gap, c, rfl⟩
    · exact ⟨[], by rw [List.append_nil] at hgap; rw [← hgap]⟩
    · -- the gap ends with `y`, among NULs
      have hc : c = y := by
        have hlast := congrArg List.getLast? hgap
        simpa using hlast.symm
      have hmem : c ∈ List.replicate n 0 := by rw [hnul]; simp
      exact absurd (hc ▸ List.eq_of_mem_replicate hmem) hy
  · exact ⟨rest', by rw [hrest]; simp⟩

/-- The inner loop of `compress_symbols` at an occurrence: `done` is
rewritten, `pre` is before the occurrence and `post` behind it, and `e` of
the `m` NULs are counted in `size`. -/
structure Replacing (x y z : UInt8) (target : List UInt8) (v : Scan)
    (done pre post : List UInt8) (m e : ℕ) : Prop where
  sym : v.sym = done ++ ((pre ++ x :: y :: post) ++ List.replicate m 0)
  p1 : v.p1 = done.length
  p2 : v.p2 = done.length + pre.length
  size : v.size = pre.length + 2 + post.length + e
  len : v.len = done.length + (pre.length + 2 + post.length)
  nuls : e < m
  first : (x, y) ∉ digrams (pre ++ [x])
  target_eq : target = done ++ (pre ++ z :: replacePair x y z post)

/-- What the loop leaves: the codes with the pair replaced, and more NULs. -/
def Replaced (target : List UInt8) (r : List UInt8 × ℕ) : Prop :=
  r.2 = target.length ∧ ∃ m, r.1 = target ++ List.replicate (m + 1) 0

/-- **One round replaces one occurrence**, and goes on at the next one if
there is one. -/
theorem wp_replaceRound {v : Scan} {target pre post : List UInt8} {m e : ℕ} (hy : y ≠ 0)
    (hv : Replacing x y z target v done pre post m e) :
    wp (replaceRound (x, y) z v) (fun r t => t = s ∧ match r with
      | .inl v' => ∃ pre' post', post'.length < post.length ∧
          Replacing x y z target v' (done ++ (pre ++ [z])) pre' post' (m + 1) (e + 1)
      | .inr r => Replaced target r) s := by
  obtain ⟨hsym, hp1, hp2, hsize, hlen, hnuls, hfirst, htarget⟩ := hv
  -- the name once the code is written and the gap behind it closed
  have hset : v.sym.set v.p2 z = (done ++ (pre ++ [z])) ++
      y :: ((post ++ List.replicate (e + 1) 0) ++ List.replicate (m - (e + 1)) 0) := by
    have hzeros : List.replicate m (0 : UInt8) =
        List.replicate (e + 1) 0 ++ List.replicate (m - (e + 1)) 0 := by
      rw [List.replicate_append_replicate, Nat.add_sub_cancel' hnuls]
    rw [hsym, hp2, List.set_append_right _ _ (by omega), Nat.add_sub_cancel_left, hzeros]
    simp
  have hin : v.p2 < v.sym.length := by
    rw [hsym, hp2]
    simp only [List.length_append, List.length_cons]
    omega
  have hdone : v.p2 + 1 = (done ++ (pre ++ [z])).length := by
    rw [hp2]
    simp only [List.length_append, List.length_cons, List.length_nil]
    omega
  have hleft : v.size - (v.p2 + 1 - v.p1) =
      (post ++ List.replicate (e + 1) (0 : UInt8)).length := by
    rw [hsize, hp1, hp2, List.length_append, List.length_replicate]
    omega
  have hclosed : (post ++ List.replicate (e + 1) 0) ++
      (y :: ((post ++ List.replicate (e + 1) 0) ++ List.replicate (m - (e + 1)) 0)).drop
        (post ++ List.replicate (e + 1) (0 : UInt8)).length =
      post ++ List.replicate (m + 1) 0 := by
    have hcount : (post ++ List.replicate (e + 1) (0 : UInt8)).length = post.length + e + 1 := by
      rw [List.length_append, List.length_replicate, Nat.add_assoc]
    have hpost : (post ++ List.replicate m (0 : UInt8)).drop (post.length + e) =
        List.replicate (m - e) 0 := by
      rw [List.drop_append, List.drop_eq_nil_of_le (by omega), List.nil_append,
        Nat.add_sub_cancel_left, List.drop_replicate]
    have hmerge : (post ++ List.replicate (e + 1) (0 : UInt8)) ++ List.replicate (m - (e + 1)) 0 =
        post ++ List.replicate m 0 := by
      rw [List.append_assoc, List.replicate_append_replicate, Nat.add_sub_cancel' hnuls]
    rw [hcount, List.drop_succ_cons, hmerge, hpost, List.append_assoc,
      List.replicate_append_replicate]
    congr 2
    omega
  have htarget' : target = (done ++ (pre ++ [z])) ++ replacePair x y z post := by
    rw [htarget]
    simp
  rw [replaceRound, wp_bind, wp_setByte hin, hset]
  simp only [wp_bind, hleft]
  rw [hdone, wp_memmove_gap, hclosed]
  have hend : ∀ {t : σ}, (x, y) ∉ digrams post → t = s → t = s ∧ Replaced target
      ((done ++ (pre ++ [z])) ++ (post ++ List.replicate (m + 1) 0), v.len - 1) := by
    intro t hno ht
    rw [replacePair_of_not_mem hno] at htarget'
    refine ⟨ht, ?_, m, by rw [htarget']; simp⟩
    rw [htarget', hlen]
    simp only [List.length_append, List.length_cons, List.length_nil]
    omega
  rw [wp_ite]
  refine ⟨fun hlt => wp_pure.2 (hend ?_ rfl), fun _ => ?_⟩
  · -- too short for another pair
    rw [List.length_append, List.length_replicate] at hlt
    obtain rfl : post = [] := List.length_eq_zero_iff.1 (by omega)
    exact List.not_mem_nil
  · have hspace : post ++ List.replicate (m + 1) (0 : UInt8) =
        (post ++ List.replicate (e + 1) 0) ++ List.replicate (m - e) 0 := by
      rw [List.append_assoc, List.replicate_append_replicate]
      congr 2
      omega
    rw [wp_bind]
    rw [hspace] at hend ⊢
    refine wp_mono wp_findToken ?_
    rintro r t ⟨rfl, hr⟩
    cases r with
    | none => exact wp_pure.2 (hend (fun h => hr (digrams_append_left h)) rfl)
    | some p =>
        obtain ⟨pre', post', hsplit, hfirst', rfl⟩ := hr
        obtain ⟨post'', rfl⟩ := occurrence_before_nuls hy hsplit
        refine wp_pure.2 ⟨rfl, pre', post'', ?_, ?_⟩
        · simp only [List.length_append, List.length_cons]
          omega
        · refine ⟨by rw [hspace], rfl, rfl, ?_, ?_, by omega, hfirst', ?_⟩
          · simp only [List.length_append, List.length_cons, List.length_replicate]
            omega
          · rw [hlen]
            simp only [List.length_append, List.length_cons, List.length_nil]
            omega
          · rw [htarget', replacePair_first hfirst']

/-- **The inner loop replaces every occurrence.** -/
theorem wp_replaceLoop {v : Scan} {target pre post : List UInt8} {m e : ℕ} (hy : y ≠ 0)
    (hv : Replacing x y z target v done pre post m e) (hf : post.length < fuel) :
    wp (Prog.loop (replaceRound (x, y) z) fuel v) (fun r t => t = s ∧ Replaced target r) s := by
  refine wp_loop (fun k v t => t = s ∧ ∃ done pre post m e, post.length = k ∧
    Replacing x y z target v done pre post m e) ?_ fuel post.length v s hf
    ⟨rfl, done, pre, post, m, e, rfl, hv⟩
  rintro k v _ ⟨rfl, done, pre, post, m, e, rfl, hv⟩
  refine wp_mono (wp_replaceRound hy hv) ?_
  rintro r t ⟨rfl, hr⟩
  cases r with
  | inl v' =>
      obtain ⟨pre', post', hlt, hv'⟩ := hr
      exact ⟨post'.length, hlt, rfl, _, pre', post', _, _, rfl, hv'⟩
  | inr r => exact ⟨rfl, hr⟩

/-! ## Counting -/

/-- The tokens of a name, as indices into the counts. -/
def tokens (codes : List UInt8) : List ℕ := (digrams codes).map fun d => tokenAt d.1 d.2

/-- The counts are those of the tokens of the names. -/
def Counts (p : Profit) (names : List (List UInt8)) : Prop :=
  ∀ t, (p t).toInt = (names.flatMap tokens).count t

/-- A name has one token less than bytes. -/
theorem length_tokens : (tokens codes).length = codes.length - 1 := by
  rw [tokens, List.length_map, length_digrams]

/-- **The counts move by the tokens of the name.** -/
theorem wp_countSymbol {d : ℤ}
    (hfit : ∀ t k, FitsInt ((p t).toInt + d * ((tokens codes).take k).count t)) :
    wp (countSymbol d (codes ++ tail) codes.length) (fun _ p' =>
      ∀ t, (p' t).toInt = (p t).toInt + d * (tokens codes).count t) p := by
  refine wp_forM (fun k p' => ∀ t, (p' t).toInt = (p t).toInt + d * ((tokens codes).take k).count t)
    ?_ ?_ (by simp)
  · intro k i p' hi hp'
    obtain ⟨hk, rfl⟩ := List.getElem?_eq_some_iff.1 hi
    rw [List.length_range] at hk
    rw [List.getElem_range]
    obtain ⟨a, ha⟩ : ∃ a, codes[k]? = some a := ⟨_, List.getElem?_eq_getElem (by omega)⟩
    obtain ⟨b, hb⟩ : ∃ b, codes[k + 1]? = some b := ⟨_, List.getElem?_eq_getElem (by omega)⟩
    have hread : ∀ {j : ℕ} {c : UInt8}, codes[j]? = some c → (codes ++ tail)[j]? = some c := by
      intro j c hj
      obtain ⟨hlt, -⟩ := List.getElem?_eq_some_iff.1 hj
      rw [List.getElem?_append_left hlt, hj]
    have htake : (tokens codes).take (k + 1) = (tokens codes).take k ++ [tokenAt a b] := by
      rw [List.take_add_one, tokens, List.getElem?_map, getElem?_digrams ha hb]
      rfl
    have hcount := hfit (tokenAt a b) (k + 1)
    rw [htake, List.count_append, List.count_singleton_self, Nat.cast_add, Nat.cast_one,
      mul_add, mul_one, ← add_assoc, ← hp'] at hcount
    rw [wp_bind, wp_byteAt (hread ha), wp_bind, wp_byteAt (hread hb)]
    simp only [bump, wp_bind, wp_get, wp_signed, wp_set]
    refine ⟨hcount, fun t => ?_⟩
    rw [htake, List.count_append]
    by_cases ht : t = tokenAt a b
    · rw [ht, Function.update_self, toInt_ofInt_of_fits hcount, hp', List.count_singleton_self]
      push_cast
      rw [mul_add, mul_one, add_assoc]
    · rw [Function.update_of_ne ht, hp', List.count_singleton, if_neg (by simpa using Ne.symm ht),
        Nat.add_zero]
  · intro p' hp' t
    rw [hp' t, List.length_range, List.take_of_length_le (Nat.le_of_eq length_tokens)]

/-- The counts of two tables add up. -/
theorem count_flatMap_tokens_cons (t : ℕ) :
    ((codes :: names).flatMap tokens).count t =
      (tokens codes).count t + (names.flatMap tokens).count t := by
  rw [List.flatMap_cons, List.count_append]

/-- **Learning a name.** -/
theorem wp_learnSymbol (hp : Counts p names)
    (hsmall : ((codes :: names).flatMap tokens).length < 2 ^ 31) :
    wp (learnSymbol (codes ++ tail) codes.length) (fun _ p' => Counts p' (codes :: names)) p := by
  refine wp_mono (wp_countSymbol fun t k => ?_) fun _ p' hp' t => ?_
  · have hle := ((List.take_sublist k (tokens codes)).count_le t)
    have hmax := List.count_le_length (a := t) (l := (codes :: names).flatMap tokens)
    rw [count_flatMap_tokens_cons] at hmax
    unfold FitsInt
    rw [hp t]
    omega
  · rw [hp' t, hp t, count_flatMap_tokens_cons]
    push_cast
    omega

/-- **Forgetting a name.** -/
theorem wp_forgetSymbol (hp : Counts p (codes :: names))
    (hsmall : ((codes :: names).flatMap tokens).length < 2 ^ 31) :
    wp (forgetSymbol (codes ++ tail) codes.length) (fun _ p' => Counts p' names) p := by
  refine wp_mono (wp_countSymbol fun t k => ?_) fun _ p' hp' t => ?_
  · have hle := ((List.take_sublist k (tokens codes)).count_le t)
    have hmax := List.count_le_length (a := t) (l := (codes :: names).flatMap tokens)
    unfold FitsInt
    rw [hp t]
    rw [count_flatMap_tokens_cons] at hmax ⊢
    omega
  · rw [hp' t, hp t, count_flatMap_tokens_cons]
    push_cast
    omega

/-! ## A symbol -/

/-- The entry holds the codes, and NULs behind them. -/
def Holds (s : SymEntry) (codes : List UInt8) : Prop :=
  s.len = codes.length ∧ ∃ m, s.sym = codes ++ List.replicate (m + 1) 0

/-- What the compression keeps of an entry. -/
def SymEntry.header (s : SymEntry) : UInt64 × UInt32 × Bool :=
  (s.addr, s.startPos, s.percpuAbsolute)

/-- Replacing a pair makes no more tokens. -/
theorem length_tokens_replacePair (codes : List UInt8) :
    (tokens (replacePair x y z codes)).length ≤ (tokens codes).length := by
  have := length_replacePair_le (x := x) (y := y) (z := z) codes
  rw [length_tokens, length_tokens]
  omega

/-- **`compress_symbols` replaces the pair in a symbol** and keeps the
counts. -/
theorem wp_compressSymbol {e : SymEntry} (hy : y ≠ 0) (he : Holds e codes)
    (hp : Counts p (codes :: others)) (hsmall : ((codes :: others).flatMap tokens).length < 2 ^ 31)
    (hf : codes.length < fuel) :
    wp (compressSymbol fuel (x, y) z e) (fun e' p' => e'.header = e.header ∧
      Holds e' (replacePair x y z codes) ∧
      Counts p' (replacePair x y z codes :: others)) p := by
  obtain ⟨hlen, m, hsym⟩ := he
  have hfind : wp (findToken ([] ++ (codes ++ List.replicate (m + 1) 0)) ([] : List UInt8).length
      codes.length (x, y)) (fun r t => t = p ∧ Searched 0 codes x y r) p := wp_findToken
  rw [List.nil_append, ← hsym, ← hlen, List.length_nil] at hfind
  rw [compressSymbol, wp_bind]
  refine wp_mono hfind ?_
  rintro r p ⟨rfl, hr⟩
  cases r with
  | none =>
      rw [replacePair_of_not_mem hr]
      exact wp_pure.2 ⟨rfl, ⟨hlen, m, hsym⟩, hp⟩
  | some p2 =>
      obtain ⟨pre, post, rfl, hfirst, rfl⟩ := hr
      have hforget : wp (forgetSymbol e.sym e.len) (fun _ p' => Counts p' others) p := by
        rw [hsym, hlen]
        exact wp_forgetSymbol hp hsmall
      rw [wp_bind]
      refine wp_mono hforget fun _ p' hp' => ?_
      -- the loop starts at the occurrence with nothing done and no NUL counted
      have hstart : Replacing x y z (replacePair x y z (pre ++ x :: y :: post))
          ⟨e.sym, 0, 0 + pre.length, e.len, e.len⟩ [] pre post (m + 1) 0 := by
        refine ⟨hsym, rfl, rfl, ?_, ?_, Nat.succ_pos m, hfirst, replacePair_first hfirst⟩
        · simp only [hlen, List.length_append, List.length_cons]
          omega
        · simp only [hlen, List.length_append, List.length_cons, List.length_nil]
          omega
      have hlong : post.length < fuel := by
        simp only [List.length_append, List.length_cons] at hf
        omega
      rw [wp_bind]
      refine wp_mono (wp_replaceLoop hy hstart hlong) ?_
      rintro ⟨sym', len'⟩ _ ⟨rfl, rfl, m', rfl⟩
      have hsmall' : ((replacePair x y z (pre ++ x :: y :: post) :: others).flatMap
          tokens).length < 2 ^ 31 := by
        have := length_tokens_replacePair (pre ++ x :: y :: post) (x := x) (y := y) (z := z)
        rw [List.flatMap_cons, List.length_append] at hsmall ⊢
        omega
      rw [wp_bind]
      refine wp_mono (wp_learnSymbol hp' hsmall') fun _ p'' hp'' => ?_
      exact wp_pure.2 ⟨rfl, ⟨rfl, m', rfl⟩, hp''⟩

/-! ## The table -/

/-- The counts do not see the order of the names. -/
theorem Counts.perm (hp : Counts p names) (h : names.Perm others) : Counts p others :=
  fun t => by rw [hp t, (h.flatMap_right tokens).count_eq]

/-- The tokens of a table are no more once a pair is replaced in it. -/
theorem length_flatMap_tokens_replacePair (names : List (List UInt8)) :
    ((names.map (replacePair x y z)).flatMap tokens).length ≤ (names.flatMap tokens).length := by
  induction names with
  | nil => exact Nat.le_refl _
  | cons codes names ih =>
      have := length_tokens_replacePair codes (x := x) (y := y) (z := z)
      rw [List.map_cons, List.flatMap_cons, List.flatMap_cons, List.length_append,
        List.length_append]
      omega

/-- **`compress_symbols` replaces the pair in every symbol** and keeps the
counts. -/
theorem wp_compressSymbols {table : List SymEntry} (hy : y ≠ 0)
    (hh : List.Forall₂ Holds table names) :
    ∀ {p : Profit} {others : List (List UInt8)}, Counts p (names ++ others) →
      ((names ++ others).flatMap tokens).length < 2 ^ 31 → (∀ w ∈ names, w.length < fuel) →
      wp (compressSymbols fuel (x, y) z table) (fun table' p' =>
        table'.map SymEntry.header = table.map SymEntry.header ∧
        List.Forall₂ Holds table' (names.map (replacePair x y z)) ∧
        Counts p' (names.map (replacePair x y z) ++ others)) p := by
  induction hh with
  | nil => exact fun hp _ _ => wp_pure.2 ⟨rfl, .nil, hp⟩
  | @cons e codes table names he _ ih =>
      intro p others hp hsmall hf
      obtain ⟨hf₁, hf₂⟩ := List.forall_mem_cons.1 hf
      rw [compressSymbols, wp_bind]
      refine wp_mono (wp_compressSymbol hy he hp hsmall hf₁) ?_
      rintro e' p' ⟨hheader, he', hp'⟩
      have hsmall' : ((names ++ replacePair x y z codes :: others).flatMap tokens).length <
          2 ^ 31 := by
        have := length_tokens_replacePair codes (x := x) (y := y) (z := z)
        simp only [List.flatMap_cons, List.flatMap_append, List.length_append,
          List.cons_append] at hsmall ⊢
        omega
      rw [wp_bind]
      refine wp_mono (ih (hp'.perm List.perm_middle.symm) hsmall' hf₂) ?_
      rintro table' p'' ⟨hheaders, hh', hp''⟩
      refine wp_pure.2 ⟨?_, .cons he' hh', hp''.perm List.perm_middle⟩
      rw [List.map_cons, List.map_cons, hheader, hheaders]

end Kallsyms

end BlocTest
