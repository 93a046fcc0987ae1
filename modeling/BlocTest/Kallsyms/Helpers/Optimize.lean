import BlocTest.Kallsyms.Helpers.Tokens
import Mathlib.Data.List.Forall2
/-!
# The rounds of `optimize_result`

`Optimized` is what holds of the tables after any number of rounds: the
entries hold codes that spell the names they started as, every code in them
is in the table, the counts are exact, and a code for two lies above the
codes it stands for. `Greedy` is the algorithm without the machinery: as long
as a code is free and a pair is left, the commonest pair is replaced.
-/

namespace BlocTest

namespace Kallsyms

open Prog

variable {k : Tables} {p : Profit} {n fuel : ℕ} {x y z c : UInt8} {e : UInt8 → List UInt8}
variable {codes codes' names free : List (List UInt8)}

/-! ## Tokens and their indices -/

/-- The index of a token is one of `token_profit`. -/
theorem tokenAt_lt (x y : UInt8) : tokenAt x y < 0x10000 := by
  have hx := x.toNat_lt
  have hy := y.toNat_lt
  unfold tokenAt
  omega

/-- Two tokens have two indices. -/
theorem tokenAt_inj {a b : UInt8} (h : tokenAt x y = tokenAt a b) : x = a ∧ y = b := by
  have hx := x.toNat_lt
  have ha := a.toNat_lt
  unfold tokenAt at h
  exact ⟨UInt8.toNat_inj.1 (by omega), UInt8.toNat_inj.1 (by omega)⟩

/-- The two bytes of an index. -/
theorem tokenAt_bytes {best : ℕ} (h : best < 0x10000) :
    tokenAt (UInt8.ofNat (best % 256)) (UInt8.ofNat (best / 256 % 256)) = best := by
  simp only [tokenAt, UInt8.toNat_ofNat']
  omega

/-- The tokens of a name are the indices of its pairs. -/
theorem mem_tokens {codes : List UInt8} : tokenAt x y ∈ tokens codes ↔ (x, y) ∈ digrams codes := by
  rw [tokens, List.mem_map]
  constructor
  · rintro ⟨⟨a, b⟩, hab, h⟩
    obtain ⟨rfl, rfl⟩ := tokenAt_inj h
    exact hab
  · exact fun h => ⟨(x, y), h, rfl⟩

/-! ## The best token -/

/-- The token that has been found is counted, and is the first of those that
are counted most among the tokens below `n`. -/
def Best (p : Profit) (n best : ℕ) : Prop :=
  best < n ∧ ∀ t, t < n → (p t).toInt ≤ (p best).toInt ∧ ((p t).toInt = (p best).toInt → best ≤ t)

/-- The search from the front keeps the first of the best so far. -/
theorem findBest_spec (hp : ∀ t, 0 ≤ (p t).toInt) :
    ∀ n, (findBest p (n + 1)).2 = p (findBest p (n + 1)).1 ∧
      Best p (n + 1) (findBest p (n + 1)).1 := by
  intro n
  induction n with
  | zero =>
      have hfirst : p 0 > (findBest p 0).2 := by
        have hstart : (findBest p 0).2.toInt = -10000 := rfl
        have := hp 0
        rw [gt_iff_lt, Int32.lt_iff_toInt_lt]
        omega
      rw [findBest, if_pos hfirst]
      refine ⟨rfl, Nat.lt_succ_self 0, fun t ht => ?_⟩
      obtain rfl : t = 0 := by omega
      exact ⟨Int.le_refl _, fun _ => Nat.le_refl _⟩
  | succ n ih =>
      obtain ⟨hprofit, hlt, hmost⟩ := ih
      rw [findBest, hprofit]
      split
      · next hgt =>
        rw [gt_iff_lt, Int32.lt_iff_toInt_lt] at hgt
        refine ⟨rfl, Nat.lt_succ_self _, fun t ht => ?_⟩
        rcases Nat.lt_succ_iff_lt_or_eq.1 ht with ht | rfl
        · have := (hmost t ht).1
          show (p t).toInt ≤ (p (n + 1)).toInt ∧ ((p t).toInt = (p (n + 1)).toInt → n + 1 ≤ t)
          exact ⟨by omega, fun h => by omega⟩
        · exact ⟨Int.le_refl _, fun _ => Nat.le_refl _⟩
      · next hle =>
        rw [gt_iff_lt, Int32.lt_iff_toInt_lt] at hle
        refine ⟨hprofit, Nat.lt_succ_of_lt hlt, fun t ht => ?_⟩
        rcases Nat.lt_succ_iff_lt_or_eq.1 ht with ht | rfl
        · exact hmost t ht
        · exact ⟨by omega, fun _ => by omega⟩

/-- **`find_best_token` finds the first of the tokens counted most.** -/
theorem findBestToken_best (hp : ∀ t, 0 ≤ (p t).toInt) : Best p 0x10000 (findBestToken p) := by
  rw [findBestToken]
  exact (findBest_spec hp 0xffff).2

/-! ## The algorithm -/

/-- How often a token occurs in the names. -/
def occurrences (names : List (List UInt8)) (x y : UInt8) : ℕ :=
  (names.flatMap tokens).count (tokenAt x y)

/-- The pair `x y` occurs, no pair occurs more often, and among those that
occur as often it has the least index. -/
structure Commonest (names : List (List UInt8)) (x y : UInt8) : Prop where
  occurs : 0 < occurrences names x y
  most : ∀ a b, occurrences names a b ≤ occurrences names x y
  least : ∀ a b, occurrences names a b = occurrences names x y → tokenAt x y ≤ tokenAt a b

/-- **The greedy algorithm.** With codes free in the given order, the
commonest pair is replaced by the next one, until no code or no pair is
left. -/
inductive Greedy : List UInt8 → List (List UInt8) → List (List UInt8) → Prop
  | noPair {free : List UInt8} {names : List (List UInt8)} :
      (∀ w ∈ names, digrams w = []) → Greedy free names names
  | noCode {names : List (List UInt8)} : Greedy [] names names
  | replace {z x y : UInt8} {free : List UInt8} {names names' : List (List UInt8)} :
      Commonest names x y → Greedy free (names.map (replacePair x y z)) names' →
      Greedy (z :: free) names names'

/-- An exact count is not negative. -/
theorem Counts.nonneg (hp : Counts p names) (t : ℕ) : 0 ≤ (p t).toInt := by
  rw [hp t]
  exact Int.natCast_nonneg _

/-- **The token the program chooses is the commonest pair.** -/
theorem findBestToken_commonest (hp : Counts p names) (hne : p (findBestToken p) ≠ 0)
    (hx : x = UInt8.ofNat (findBestToken p % 256))
    (hy : y = UInt8.ofNat (findBestToken p / 256 % 256)) : Commonest names x y := by
  obtain ⟨hlt, hmost⟩ := findBestToken_best hp.nonneg
  have hxy : tokenAt x y = findBestToken p := by rw [hx, hy, tokenAt_bytes hlt]
  have hcount : ∀ a b, ((occurrences names a b : ℕ) : ℤ) = (p (tokenAt a b)).toInt :=
    fun a b => (hp _).symm
  refine ⟨?_, fun a b => ?_, fun a b h => ?_⟩
  · have hpos := hp.nonneg (findBestToken p)
    have hnz : (p (findBestToken p)).toInt ≠ 0 := fun h => hne (Int32.toInt_inj.1 h)
    have := hcount x y
    rw [hxy] at this
    omega
  · have := (hmost (tokenAt a b) (tokenAt_lt a b)).1
    have hab := hcount a b
    have hxy' := hcount x y
    rw [hxy] at hxy'
    omega
  · rw [hxy]
    refine (hmost (tokenAt a b) (tokenAt_lt a b)).2 ?_
    rw [← hcount, h, hcount, hxy]

/-- **Where the best count is zero no pair is left.** -/
theorem digrams_eq_nil_of_best (hp : Counts p names) (hzero : p (findBestToken p) = 0) :
    ∀ w ∈ names, digrams w = [] := by
  intro w hw
  obtain ⟨-, hmost⟩ := findBestToken_best hp.nonneg
  refine List.eq_nil_iff_forall_not_mem.2 fun d hd => ?_
  obtain ⟨a, b⟩ := d
  have hmem : tokenAt a b ∈ names.flatMap tokens :=
    List.mem_flatMap.2 ⟨w, hw, mem_tokens.2 hd⟩
  have hpos := List.count_pos_iff.2 hmem
  have hle := (hmost (tokenAt a b) (tokenAt_lt a b)).1
  rw [hzero, hp] at hle
  have : (0 : Int32).toInt = 0 := rfl
  omega

/-- The commonest pair stands somewhere in a name. -/
theorem Commonest.exists_split (h : Commonest names x y) :
    ∃ w ∈ names, ∃ pre post, w = pre ++ x :: y :: post := by
  obtain ⟨w, hw, hmem⟩ := List.mem_flatMap.1 (List.count_pos_iff.1 h.occurs)
  exact ⟨w, hw, mem_digrams.1 (mem_tokens.1 hmem)⟩

/-- There is one commonest pair. -/
theorem Commonest.unique {a b : UInt8} (h : Commonest names x y) (h' : Commonest names a b) :
    x = a ∧ y = b := by
  have heq : occurrences names x y = occurrences names a b :=
    Nat.le_antisymm (h'.most x y) (h.most a b)
  exact tokenAt_inj (Nat.le_antisymm (h.least a b heq.symm) (h'.least x y heq))

/-- So where there is a commonest pair there is a pair. -/
theorem Commonest.not_noPair (h : Commonest names x y) : ¬ ∀ w ∈ names, digrams w = [] := by
  intro hno
  obtain ⟨w, hw, hsplit⟩ := h.exists_split
  have hmem := mem_digrams.2 hsplit
  rw [hno w hw] at hmem
  exact List.not_mem_nil hmem

/-- The algorithm leaves the choice of nothing. -/
theorem Greedy.unique {free : List UInt8} (h : Greedy free names codes) :
    ∀ {codes' : List (List UInt8)}, Greedy free names codes' → codes = codes' := by
  induction h with
  | noPair hno =>
      intro codes' h'
      cases h' with
      | noPair _ => rfl
      | noCode => rfl
      | replace hxy _ => exact absurd hno hxy.not_noPair
  | noCode =>
      intro codes' h'
      cases h' with
      | noPair _ => rfl
      | noCode => rfl
  | replace hxy _ ih =>
      intro codes' h'
      cases h' with
      | noPair hno => exact absurd hno hxy.not_noPair
      | replace hxy' h' =>
          obtain ⟨rfl, rfl⟩ := hxy.unique hxy'
          exact ih h'

/-! ## What holds after each round -/

/-- What the table says of a code. -/
def meaning (k : Tables) (c : UInt8) : Meaning UInt8 :=
  if k.bestTableLen c = 0 then .unused
  else if k.bestTableLen c = 1 then .itself
  else .pair (k.bestTable c).1 (k.bestTable c).2

/-- A code for two stands only for codes above it, so there is an end to
expanding it. -/
def depth (k : Tables) (c : UInt8) : ℕ := if k.bestTableLen c = 1 then 0 else 256 - c.toNat

/-- The entries of the table are empty, a byte for itself, or two codes. -/
def EntryOk (k : Tables) (c : UInt8) : Prop :=
  k.bestTableLen c = 0 ∨ k.bestTableLen c = 1 ∧ (k.bestTable c).1 = c ∨ k.bestTableLen c = 2

/-- The tables hold the names `names`, compressed to `codes`, and `e` is what
the codes spell. -/
structure Optimized (names : List (List UInt8)) (k : Tables) (codes : List (List UInt8))
    (e : UInt8 → List UInt8) : Prop where
  holds : List.Forall₂ Holds k.table codes
  counts : Counts k.tokenProfit codes
  entries : ∀ c, EntryOk k c
  spells : Spells (meaning k) (depth k) e
  spelled : codes.map (List.flatMap e) = names
  used : ∀ w ∈ codes, ∀ c ∈ w, k.bestTableLen c ≠ 0
  within : ∀ c, k.bestTableLen c ≠ 0 → ∃ w ∈ names, e c <:+: w

/-- The codes from `n` up have been gone through: no code below stands for
two, and the NUL, which is the last, is in no name. -/
structure Remaining (k : Tables) (codes : List (List UInt8)) (n : ℕ) : Prop where
  below : ∀ c : UInt8, c.toNat < n → k.bestTableLen c ≠ 2
  noNul : 0 < n → ∀ w ∈ codes, (0 : UInt8) ∉ w

/-- A code without an entry means nothing. -/
theorem meaning_unused : meaning k c = .unused ↔ k.bestTableLen c = 0 := by
  unfold meaning
  split
  · next h => simp [h]
  · next h => split <;> simp [h]

/-- The tables with a code made to stand for two. -/
def withToken (k : Tables) (z x y : UInt8) (table : List SymEntry) (p : Profit) : Tables where
  table
  tokenProfit := p
  bestTable := Function.update k.bestTable z (x, y)
  bestTableLen := Function.update k.bestTableLen z 2

variable {table : List SymEntry}

/-- The new code means the pair, and the others what they meant. -/
theorem meaning_withToken :
    meaning (withToken k z x y table p) = Function.update (meaning k) z (.pair x y) := by
  funext c
  by_cases hc : c = z
  · rw [hc, Function.update_self]
    simp [meaning, withToken]
  · rw [Function.update_of_ne hc]
    simp [meaning, withToken, Function.update_of_ne hc]

/-- The new code lies as deep as its place, and the others where they lay. -/
theorem depth_withToken (hz : k.bestTableLen z = 0) :
    depth (withToken k z x y table p) = depth k := by
  funext c
  by_cases hc : c = z
  · subst hc
    simp [depth, withToken, hz]
  · simp [depth, withToken, Function.update_of_ne hc]

/-- A used code from the part that has been gone through lies less deep than
a free code below it. -/
theorem Optimized.depth_lt (hO : Optimized names k codes e) (hR : Remaining k codes (n + 1))
    (hn : n < 256) (hz : z = UInt8.ofNat n) (hfree : k.bestTableLen z = 0)
    (hc : k.bestTableLen c ≠ 0) : depth k c < depth k z := by
  have hzn : z.toNat = n := by
    rw [hz, UInt8.toNat_ofNat']
    omega
  have hz1 : ¬ k.bestTableLen z = 1 := by
    rw [hfree]
    decide
  rw [depth, depth, if_neg hz1]
  split
  · omega
  · next hc1 =>
    rcases hO.entries c with h | ⟨h, -⟩ | h
    · exact absurd h hc
    · exact absurd h hc1
    · have := mt (hR.below c) (not_not.2 h)
      have := c.toNat_lt
      omega

theorem withToken_len_ne (hc : c ≠ z) :
    (withToken k z x y table p).bestTableLen c = k.bestTableLen c :=
  Function.update_of_ne hc _ _

theorem withToken_len_self : (withToken k z x y table p).bestTableLen z = 2 :=
  Function.update_self _ _ _

/-- The entries are still empty, a byte for itself, or a pair. -/
theorem EntryOk.withToken (h : ∀ c, EntryOk k c) (c : UInt8) :
    EntryOk (withToken k z x y table p) c := by
  by_cases hc : c = z
  · exact .inr (.inr (hc ▸ withToken_len_self))
  · have hpair : (Kallsyms.withToken k z x y table p).bestTable c = k.bestTable c :=
      Function.update_of_ne hc _ _
    rw [EntryOk, withToken_len_ne hc, hpair]
    exact h c

/-- **One round keeps what the tables hold.** -/
theorem Optimized.round (hO : Optimized names k codes e) (hR : Remaining k codes (n + 1))
    (hn : n < 256) (hz : z = UInt8.ofNat n) (hfree : k.bestTableLen z = 0)
    (hxy : Commonest codes x y)
    (hh : List.Forall₂ Holds table (codes.map (replacePair x y z)))
    (hp : Counts p (codes.map (replacePair x y z))) :
    Optimized names (withToken k z x y table p) (codes.map (replacePair x y z))
        (Function.update e z (e x ++ e y)) ∧
      Remaining (withToken k z x y table p) (codes.map (replacePair x y z)) n := by
  have hunused : ∀ w ∈ codes, z ∉ w := fun w hw hmem => hO.used w hw z hmem hfree
  obtain ⟨w, hw, pre, post, hsplit⟩ := hxy.exists_split
  have hxu : k.bestTableLen x ≠ 0 := hO.used w hw x (by simp [hsplit])
  have hyu : k.bestTableLen y ≠ 0 := hO.used w hw y (by simp [hsplit])
  have hne : ∀ {c}, k.bestTableLen c ≠ 0 → c ≠ z := fun hc h => hc (h ▸ hfree)
  have hnew : Function.update e z (e x ++ e y) z =
      Function.update e z (e x ++ e y) x ++ Function.update e z (e x ++ e y) y := by
    rw [Function.update_self, Function.update_of_ne (hne hxu), Function.update_of_ne (hne hyu)]
  constructor
  · refine ⟨hh, hp, EntryOk.withToken hO.entries, ?_, ?_, ?_, ?_⟩
    · rw [meaning_withToken, depth_withToken hfree]
      exact hO.spells.add (meaning_unused.2 hfree) (mt meaning_unused.1 hxu)
        (mt meaning_unused.1 hyu) (hO.depth_lt hR hn hz hfree hxu) (hO.depth_lt hR hn hz hfree hyu)
    · rw [List.map_map, ← hO.spelled]
      refine List.map_congr_left fun w hw => ?_
      rw [Function.comp_apply, flatMap_replacePair hnew, flatMap_update_of_not_mem (hunused w hw)]
    · intro w' hw' c hc
      obtain ⟨w, hw, rfl⟩ := List.mem_map.1 hw'
      by_cases hcz : c = z
      · rw [hcz, withToken_len_self]
        decide
      · rw [withToken_len_ne hcz]
        exact hO.used w hw c ((mem_replacePair hc).resolve_left hcz)
    · intro c hc
      by_cases hcz : c = z
      · -- the pair stands in some name, and so does what it spells
        refine ⟨w.flatMap e, ?_, ?_⟩
        · rw [← hO.spelled]
          exact List.mem_map_of_mem hw
        · rw [hcz, Function.update_self, hsplit]
          exact ⟨pre.flatMap e, post.flatMap e, by simp⟩
      · rw [withToken_len_ne hcz] at hc
        rw [Function.update_of_ne hcz]
        exact hO.within c hc
  · have hzn : z.toNat = n := by
      rw [hz, UInt8.toNat_ofNat']
      omega
    refine ⟨fun c hc => ?_, fun hpos w' hw' hmem => ?_⟩
    · have hcz : c ≠ z := by
        rintro rfl
        omega
      rw [withToken_len_ne hcz]
      exact hR.below c (by omega)
    · obtain ⟨w, hw, rfl⟩ := List.mem_map.1 hw'
      rcases mem_replacePair hmem with h0 | h0
      · rw [← h0] at hzn
        have : (0 : UInt8).toNat = 0 := rfl
        omega
      · exact hR.noNul (Nat.succ_pos n) w hw h0

/-! ## The run -/

/-- The codes below `n` that are free, the last one first. -/
def freeCodes (k : Tables) : ℕ → List UInt8
  | 0 => []
  | n + 1 =>
      if k.bestTableLen (UInt8.ofNat n) = 0 then UInt8.ofNat n :: freeCodes k n
      else freeCodes k n

/-- Taking a code frees and takes none below it. -/
theorem freeCodes_withToken {m : ℕ} (hz : z = UInt8.ofNat n) (hn : n < 256) (hm : m ≤ n) :
    freeCodes (withToken k z x y table p) m = freeCodes k m := by
  induction m with
  | zero => rfl
  | succ m ih =>
      have hne : UInt8.ofNat m ≠ z := by
        rw [hz, Ne, ← UInt8.toNat_inj, UInt8.toNat_ofNat', UInt8.toNat_ofNat']
        omega
      rw [freeCodes, freeCodes, withToken_len_ne hne, ih (by omega)]

/-- Replacing a pair throughout lengthens no name. -/
theorem Greedy.length_le {free : List UInt8} (h : Greedy free names codes) :
    List.Forall₂ (fun w w' => w'.length ≤ w.length) names codes := by
  induction h with
  | noPair _ => exact List.forall₂_same.2 fun w _ => Nat.le_refl _
  | noCode => exact List.forall₂_same.2 fun w _ => Nat.le_refl _
  | replace _ _ ih =>
      rw [List.forall₂_map_left_iff] at ih
      exact ih.imp fun w w' hw => hw.trans (length_replacePair_le w)

/-- **`optimize_result` is the greedy algorithm**, and what it leaves spells
the names. -/
theorem wp_optimizeResult {n : ℕ} :
    ∀ {k : Tables} {codes : List (List UInt8)} {e : UInt8 → List UInt8}, n ≤ 256 →
      Optimized names k codes e → Remaining k codes n →
      (codes.flatMap tokens).length < 2 ^ 31 → (∀ w ∈ codes, w.length < fuel) →
      wp (optimizeResult fuel n) (fun _ k' => ∃ codes' e', Optimized names k' codes' e' ∧
        Greedy (freeCodes k n) codes codes' ∧
        k'.table.map SymEntry.header = k.table.map SymEntry.header) k := by
  induction n with
  | zero =>
      intro k codes e _ hO _ _ _
      exact wp_pure.2 ⟨codes, e, hO, .noCode, rfl⟩
  | succ n ih =>
      intro k codes e hn hO hR hsmall hf
      simp only [optimizeResult, wp_bind, wp_get]
      rw [wp_ite]
      refine ⟨fun hfree => ?_, fun hused => ?_⟩
      · rw [wp_ite]
        refine ⟨fun hzero => ?_, fun hne => ?_⟩
        · exact wp_pure.2 ⟨codes, e, hO, .noPair (digrams_eq_nil_of_best hO.counts hzero), rfl⟩
        · -- the commonest pair is replaced by the code
          obtain ⟨x, hx⟩ : ∃ x, x = UInt8.ofNat (findBestToken k.tokenProfit % 256) := ⟨_, rfl⟩
          obtain ⟨y, hy⟩ : ∃ y, y = UInt8.ofNat (findBestToken k.tokenProfit / 256 % 256) :=
            ⟨_, rfl⟩
          have hxy := findBestToken_commonest hO.counts hne hx hy
          obtain ⟨w, hw, pre, post, hsplit⟩ := hxy.exists_split
          have hy0 : y ≠ 0 := by
            intro h0
            refine hR.noNul (Nat.succ_pos n) w hw ?_
            rw [hsplit, ← h0]
            simp
          simp only [onProfit, wp_bind, wp_set, wp_zoom, ← hx, ← hy]
          have hC : Counts k.tokenProfit (codes ++ []) := by
            rw [List.append_nil]
            exact hO.counts
          refine wp_mono (wp_compressSymbols hy0 hO.holds hC (by simpa using hsmall) hf) ?_
          rintro table' p' ⟨hheader, hh', hp'⟩
          rw [List.append_nil] at hp'
          rw [wp_modify]
          obtain ⟨hO', hR'⟩ := hO.round hR (by omega) rfl hfree hxy hh' hp'
          have hsmall' : ((codes.map (replacePair x y (UInt8.ofNat n))).flatMap tokens).length <
              2 ^ 31 := (length_flatMap_tokens_replacePair codes).trans_lt hsmall
          have hf' : ∀ w ∈ codes.map (replacePair x y (UInt8.ofNat n)), w.length < fuel := by
            intro w' hw'
            obtain ⟨w, hw, rfl⟩ := List.mem_map.1 hw'
            exact (length_replacePair_le w).trans_lt (hf w hw)
          show wp (optimizeResult fuel n) _ (withToken k (UInt8.ofNat n) x y table' p')
          refine wp_mono (ih (by omega) hO' hR' hsmall' hf') ?_
          rintro _ k' ⟨codes', e', hO'', hG, hheader'⟩
          refine ⟨codes', e', hO'', ?_, hheader'.trans hheader⟩
          rw [freeCodes_withToken rfl (by omega) (Nat.le_refl n)] at hG
          rw [freeCodes, if_pos hfree]
          exact .replace hxy hG
      · have hR' : Remaining k codes n :=
          ⟨fun c hc => hR.below c (by omega), fun _ => hR.noNul (Nat.succ_pos n)⟩
        rw [freeCodes, if_neg hused]
        exact ih (by omega) hO hR' hsmall hf

/-! ## The start -/

/-- The codes of an entry are what it holds. -/
theorem Holds.codes_eq {s : SymEntry} {w : List UInt8} (h : Holds s w) : s.codes = w := by
  obtain ⟨hlen, m, hsym⟩ := h
  rw [SymEntry.codes, hlen, hsym, List.take_left' rfl]

/-- The names a table of entries holds. -/
theorem forall₂_holds_map (hh : List.Forall₂ Holds table codes) :
    table.map SymEntry.codes = codes := by
  induction hh with
  | nil => rfl
  | cons h _ ih => rw [List.map_cons, h.codes_eq, ih]

/-- Each entry holds one of the names. -/
theorem holds_of_mem {s : SymEntry} (hh : List.Forall₂ Holds table codes) (hs : s ∈ table) :
    Holds s s.codes := by
  induction hh with
  | nil => exact absurd hs List.not_mem_nil
  | cons h _ ih =>
      rcases List.mem_cons.1 hs with rfl | hs
      · rw [h.codes_eq]
        exact h
      · exact ih hs

/-- Entries that hold their own codes hold them one by one. -/
theorem forall₂_holds (hh : ∀ s ∈ table, Holds s s.codes) :
    List.Forall₂ Holds table (table.map SymEntry.codes) :=
  List.forall₂_map_right_iff.2 (List.forall₂_same.2 hh)

/-- **`build_initial_tok_table` keeps the valid symbols and learns them.** -/
theorem wp_learnValid {g : Globals} (hh : ∀ s ∈ table, Holds s s.codes) :
    ∀ {p : Profit} {others : List (List UInt8)}, Counts p others →
      ((table.map SymEntry.codes ++ others).flatMap tokens).length < 2 ^ 31 →
      wp (learnValid g table) (fun table' p' => table' = table.filter (symbolValid g) ∧
        Counts p' (table'.map SymEntry.codes ++ others)) p := by
  induction table with
  | nil => exact fun hp _ => wp_pure.2 ⟨rfl, hp⟩
  | cons s table ih =>
      intro p others hp hsmall
      obtain ⟨⟨hlen, m, hsym⟩, hh'⟩ := List.forall_mem_cons.1 hh
      have hparts : (((s.codes :: (table.map SymEntry.codes ++ others)).flatMap
          tokens)).length < 2 ^ 31 := hsmall
      simp only [List.flatMap_cons, List.flatMap_append, List.length_append] at hparts
      rw [learnValid, wp_ite]
      refine ⟨fun hvalid => ?_, fun hinvalid => ?_⟩
      · have hlearn : wp (learnSymbol s.sym s.len)
            (fun _ p' => Counts p' (s.codes :: others)) p := by
          rw [hlen]
          nth_rewrite 1 [hsym]
          refine wp_learnSymbol hp ?_
          rw [List.flatMap_cons, List.length_append]
          omega
        rw [wp_bind]
        refine wp_mono hlearn fun _ p' hp' => ?_
        rw [wp_bind]
        refine wp_mono (ih hh' hp' ?_) ?_
        · simp only [List.flatMap_cons, List.flatMap_append, List.length_append]
          omega
        · rintro table' p'' ⟨rfl, hp''⟩
          rw [List.filter_cons_of_pos hvalid]
          exact wp_pure.2 ⟨rfl, hp''.perm List.perm_middle⟩
      · rw [List.filter_cons_of_neg hinvalid]
        refine ih hh' hp ?_
        rw [List.flatMap_append, List.length_append]
        omega

/-- The tables once the bytes in use stand for themselves. -/
def realTables (table : List SymEntry) (p : Profit) : Tables where
  table
  tokenProfit := p
  bestTable := fun c => if table.any fun s => s.codes.contains c then (c, 0) else (0, 0)
  bestTableLen := fun c => if table.any fun s => s.codes.contains c then 1 else 0

/-- A byte is in use if it is in one of the names. -/
theorem real_iff : (table.any fun s => s.codes.contains c) = true ↔
    ∃ w ∈ table.map SymEntry.codes, c ∈ w := by
  simp

/-- **At the start every name spells itself.** -/
theorem optimized_realTables (hh : ∀ s ∈ table, Holds s s.codes)
    (hp : Counts p (table.map SymEntry.codes)) :
    Optimized (table.map SymEntry.codes) (realTables table p) (table.map SymEntry.codes)
      (fun c => [c]) := by
  have hpair : ∀ {c a b}, meaning (realTables table p) c ≠ .pair a b := by
    intro c a b
    simp only [meaning, realTables]
    split <;> simp_all
  refine ⟨forall₂_holds hh, hp, fun c => ?_, ⟨fun _ => rfl, fun h => absurd h hpair,
    fun h => absurd h hpair, fun h => absurd h hpair⟩, by simp, fun w hw c hc => ?_, fun c hc => ?_⟩
  · simp only [EntryOk, realTables]
    split <;> simp
  · simp only [realTables, if_pos (real_iff.2 ⟨w, hw, hc⟩)]
    decide
  · simp only [realTables] at hc
    split at hc
    · next hreal =>
      obtain ⟨w, hw, hmem⟩ := real_iff.1 hreal
      obtain ⟨pre, post, rfl⟩ := List.append_of_mem hmem
      exact ⟨_, hw, pre, post, by simp⟩
    · exact absurd rfl hc

/-- Before the first round all codes remain: none stands for two yet. -/
theorem remaining_realTables (h0 : ∀ s ∈ table, (0 : UInt8) ∉ s.codes) :
    Remaining (realTables table p) (table.map SymEntry.codes) 256 := by
  refine ⟨fun c _ => ?_, fun _ w hw => ?_⟩
  · simp only [realTables]
    split <;> decide
  · obtain ⟨s, hs, rfl⟩ := List.mem_map.1 hw
    exact h0 s hs

/-! ## Expanding -/

/-- A map that may fail does not where it has a value at every element. -/
theorem mapM_eq_some {α β : Type} {f : α → Option β} {g : α → β} {l : List α}
    (h : ∀ a ∈ l, f a = some (g a)) : l.mapM f = some (l.map g) := by
  induction l with
  | nil => rfl
  | cons a l ih =>
      obtain ⟨ha, hl⟩ := List.forall_mem_cons.1 h
      rw [List.mapM_cons, ha, ih hl]
      rfl

/-- **`expand_symbol` yields what the codes spell**, within a depth above
that of every code. -/
theorem Optimized.expandSymbol_eq (hO : Optimized names k codes e) :
    ∀ (d : ℕ) (data : List UInt8), (∀ c ∈ data, k.bestTableLen c ≠ 0 ∧ depth k c < d) → 0 < d →
      expandSymbol k d data = some (data.flatMap e) := by
  intro d
  induction d with
  | zero => exact fun _ _ h => absurd h (Nat.lt_irrefl 0)
  | succ d ih =>
      intro data hdata _
      rw [expandSymbol, mapM_eq_some (g := e)]
      · rfl
      · intro c hc
        obtain ⟨hused, hdepth⟩ := hdata c hc
        rcases hO.entries c with h | ⟨h1, hself⟩ | h2
        · exact absurd h hused
        · have hmean : meaning k c = .itself := by simp [meaning, h1]
          rw [if_pos ⟨hself, h1⟩, hO.spells.itself hmean]
        · have hne : ¬ ((k.bestTable c).1 = c ∧ k.bestTableLen c = 1) := by
            rw [h2]
            exact fun h => absurd h.2 (by decide)
          have hmean : meaning k c = .pair (k.bestTable c).1 (k.bestTable c).2 := by
            simp [meaning, h2]
          have hbelow := hO.spells.deeper hmean
          have hboth := hO.spells.used hmean
          rw [Ne, Ne, meaning_unused, meaning_unused] at hboth
          rw [if_neg hne, h2, hO.spells.pair hmean]
          have hrec := ih [(k.bestTable c).1, (k.bestTable c).2] (by
            simp only [List.forall_mem_cons]
            exact ⟨⟨hboth.1, by omega⟩, ⟨hboth.2, by omega⟩, by simp⟩) (by omega)
          simpa using hrec

end Kallsyms

end BlocTest
