import Mathlib.Data.List.Infix
import Mathlib.Data.Nat.Notation
import Mathlib.Tactic.Common
/-!
# Codes that stand for pairs of codes

A digram of a sequence is two neighbours of it. Replacing every occurrence of
one, from the left and without overlap, by a code that stands for it shortens
the sequence and changes nothing of what it spells, and a code that stands
for nothing yet may be made to stand for any two that do without changing
what any sequence free of it spells.
-/

namespace BlocTest

variable {α β : Type} {l l₁ l₂ pre post : List α} {x y z a b : α}

/-- The neighbours in a sequence, in order. -/
def digrams (l : List α) : List (α × α) := l.zip l.tail

@[simp] theorem digrams_nil : digrams ([] : List α) = [] := rfl

@[simp] theorem digrams_singleton : digrams [a] = [] := rfl

@[simp] theorem digrams_cons_cons : digrams (a :: b :: l) = (a, b) :: digrams (b :: l) := rfl

theorem length_digrams : (digrams l).length = l.length - 1 := by
  rw [digrams, List.length_zip, List.length_tail]
  omega

/-- The pair at a place is of the elements there and next to it. -/
theorem getElem?_digrams {i : ℕ} (hx : l[i]? = some x) (hy : l[i + 1]? = some y) :
    (digrams l)[i]? = some (x, y) := by
  rw [digrams, List.getElem?_zip_eq_some]
  exact ⟨hx, by rw [List.getElem?_tail, hy]⟩

/-- The pairs are those of neighbours. -/
theorem mem_digrams : (x, y) ∈ digrams l ↔ ∃ pre post, l = pre ++ x :: y :: post := by
  induction l with
  | nil => simp
  | cons a l ih =>
      cases l with
      | nil =>
          constructor
          · intro h
            rw [digrams_singleton] at h
            cases h
          · rintro ⟨pre, post, h⟩
            have hlen := congrArg List.length h
            simp only [List.length_append, List.length_cons, List.length_nil] at hlen
            omega
      | cons b l =>
          rw [digrams_cons_cons, List.mem_cons, ih]
          constructor
          · rintro (h | ⟨pre, post, h⟩)
            · obtain ⟨rfl, rfl⟩ := Prod.mk.inj h
              exact ⟨[], l, rfl⟩
            · exact ⟨a :: pre, post, by rw [h, List.cons_append]⟩
          · rintro ⟨pre, post, h⟩
            cases pre with
            | nil =>
                simp only [List.nil_append, List.cons.injEq] at h
                exact .inl (by rw [h.1, h.2.1])
            | cons c pre =>
                rw [List.cons_append, List.cons.injEq] at h
                exact .inr ⟨pre, post, h.2⟩

/-- A list has the pairs of what it begins with. -/
theorem digrams_append_left (h : (x, y) ∈ digrams l₁) : (x, y) ∈ digrams (l₁ ++ l₂) := by
  obtain ⟨pre, post, rfl⟩ := mem_digrams.1 h
  exact mem_digrams.2 ⟨pre, post ++ l₂, by simp⟩

/-- The neighbours in a run of one symbol. -/
theorem digrams_replicate (n : ℕ) :
    digrams (List.replicate (n + 1) x) = List.replicate n (x, x) := by
  induction n with
  | zero => rfl
  | succ n ih =>
      rw [List.replicate_succ] at ih
      rw [List.replicate_succ, List.replicate_succ, digrams_cons_cons, ih, List.replicate_succ]

/-! ## Replacing a digram -/

variable [DecidableEq α]

/-- Every occurrence of `x y`, from the left and without overlap, replaced by
`z`. -/
def replacePair (x y z : α) : List α → List α
  | a :: b :: l =>
      if a = x ∧ b = y then z :: replacePair x y z l else a :: replacePair x y z (b :: l)
  | l => l

/-- **A sequence without the digram stays as it is.** -/
theorem replacePair_of_not_mem (h : (x, y) ∉ digrams l) : replacePair x y z l = l := by
  induction l with
  | nil => rfl
  | cons a l ih =>
      cases l with
      | nil => rfl
      | cons b l =>
          rw [digrams_cons_cons, List.mem_cons, not_or] at h
          have hab : ¬ (a = x ∧ b = y) := fun hab => h.1 (by rw [hab.1, hab.2])
          rw [replacePair, if_neg hab, ih h.2]

/-- **A run of one symbol** is halved. -/
theorem replacePair_replicate (n : ℕ) :
    replacePair x x z (List.replicate (2 * n) x) = List.replicate n z := by
  induction n with
  | zero => rfl
  | succ n ih =>
      have hlen : 2 * (n + 1) = 2 * n + 1 + 1 := by omega
      rw [hlen, List.replicate_succ, List.replicate_succ, replacePair, if_pos ⟨rfl, rfl⟩, ih,
        List.replicate_succ]

/-- **The first occurrence is replaced, and then those behind it.** -/
theorem replacePair_first (h : (x, y) ∉ digrams (pre ++ [x])) :
    replacePair x y z (pre ++ x :: y :: post) = pre ++ z :: replacePair x y z post := by
  induction pre with
  | nil => rw [List.nil_append, replacePair, if_pos ⟨rfl, rfl⟩, List.nil_append]
  | cons a pre ih =>
      obtain ⟨b, tail, hb, hb'⟩ : ∃ b tail, pre ++ [x] = b :: tail ∧
          pre ++ x :: y :: post = b :: (tail ++ y :: post) := by
        cases pre with
        | nil => exact ⟨x, [], rfl, rfl⟩
        | cons b pre => exact ⟨b, pre ++ [x], rfl, by simp⟩
      rw [List.cons_append, hb, digrams_cons_cons, ← hb, List.mem_cons, not_or] at h
      have hab : ¬ (a = x ∧ b = y) := fun hab => h.1 (by rw [hab.1, hab.2])
      rw [List.cons_append, hb', replacePair, if_neg hab, ← hb', ih h.2, List.cons_append]

/-- Replacing pairs lengthens nothing. -/
theorem length_replacePair_le (l : List α) : (replacePair x y z l).length ≤ l.length := by
  induction l using replacePair.induct x y with
  | case1 a b l hab ih =>
      rw [replacePair, if_pos hab, List.length_cons, List.length_cons, List.length_cons]
      omega
  | case2 a b l hab ih =>
      rw [replacePair, if_neg hab, List.length_cons, List.length_cons]
      omega
  | case3 l hl => rw [replacePair]; exact hl

/-- Only the new element comes in. -/
theorem mem_replacePair {c : α} (h : c ∈ replacePair x y z l) : c = z ∨ c ∈ l := by
  induction l using replacePair.induct x y with
  | case1 a b l hab ih =>
      rw [replacePair, if_pos hab, List.mem_cons] at h
      rcases h with h | h
      · exact .inl h
      · exact (ih h).imp_right fun h => by simp [h]
  | case2 a b l hab ih =>
      rw [replacePair, if_neg hab, List.mem_cons] at h
      rcases h with rfl | h
      · exact .inr List.mem_cons_self
      · exact (ih h).imp_right fun h => List.mem_cons_of_mem a h
  | case3 l hl =>
      rw [replacePair] at h
      · exact .inr h
      · exact hl

/-- **Replacing changes nothing of what is spelled**, if the code spells what
the two spell. -/
theorem flatMap_replacePair {e : α → List β} (he : e z = e x ++ e y) (l : List α) :
    (replacePair x y z l).flatMap e = l.flatMap e := by
  induction l using replacePair.induct x y with
  | case1 a b l hab ih =>
      obtain ⟨rfl, rfl⟩ := hab
      rw [replacePair, if_pos ⟨rfl, rfl⟩, List.flatMap_cons, List.flatMap_cons, List.flatMap_cons,
        ih, he, List.append_assoc]
  | case2 a b l hab ih =>
      rw [replacePair, if_neg hab, List.flatMap_cons, List.flatMap_cons, ih]
  | case3 l hl => rw [replacePair]; exact hl

/-! ## What a code stands for -/

/-- What a code stands for: nothing yet, itself, or two codes. -/
inductive Meaning (α : Type) where
  | unused
  | itself
  | pair (a b : α)

/-- `e` is what the codes spell: a code for itself spells itself, and a code
for two spells what they spell, both of which lie deeper. -/
structure Spells (means : α → Meaning α) (depth : α → ℕ) (e : α → List α) : Prop where
  itself : ∀ {c}, means c = .itself → e c = [c]
  pair : ∀ {c a b}, means c = .pair a b → e c = e a ++ e b
  used : ∀ {c a b}, means c = .pair a b → means a ≠ .unused ∧ means b ≠ .unused
  deeper : ∀ {c a b}, means c = .pair a b → depth a < depth c ∧ depth b < depth c

variable {means : α → Meaning α} {depth : α → ℕ} {e : α → List α}

/-- A sequence free of a code spells the same whatever the code spells. -/
theorem flatMap_update_of_not_mem {w : List β} {e : α → List β} (h : z ∉ l) :
    l.flatMap (Function.update e z w) = l.flatMap e :=
  List.flatMap_congr fun _ hc => Function.update_of_ne (ne_of_mem_of_not_mem hc h) _ _

/-- **An unused code may be made to stand for two that are used.** -/
theorem Spells.add (hs : Spells means depth e) (hz : means z = .unused) (hx : means x ≠ .unused)
    (hy : means y ≠ .unused) (hdx : depth x < depth z) (hdy : depth y < depth z) :
    Spells (Function.update means z (.pair x y)) depth (Function.update e z (e x ++ e y)) := by
  have hxz : x ≠ z := fun h => hx (h ▸ hz)
  have hyz : y ≠ z := fun h => hy (h ▸ hz)
  have hkept : ∀ {c}, means c ≠ .unused →
      Function.update means z (.pair x y) c ≠ .unused := by
    intro c hc
    by_cases hcz : c = z
    · exact absurd (hcz ▸ hz) hc
    · rwa [Function.update_of_ne hcz]
  -- a code for two is the new one, or stood for them before
  have hcases : ∀ {c a b}, Function.update means z (.pair x y) c = .pair a b →
      c = z ∧ a = x ∧ b = y ∨ c ≠ z ∧ means c = .pair a b := by
    intro c a b h
    by_cases hcz : c = z
    · rw [hcz, Function.update_self] at h
      cases h
      exact .inl ⟨hcz, rfl, rfl⟩
    · exact .inr ⟨hcz, by rwa [Function.update_of_ne hcz] at h⟩
  refine ⟨fun {c} h => ?_, fun {c a b} h => ?_, fun h => ?_, fun h => ?_⟩
  · by_cases hcz : c = z
    · rw [hcz, Function.update_self] at h
      cases h
    · rw [Function.update_of_ne hcz] at h ⊢
      exact hs.itself h
  · rcases hcases h with ⟨rfl, rfl, rfl⟩ | ⟨hcz, h⟩
    · rw [Function.update_self, Function.update_of_ne hxz, Function.update_of_ne hyz]
    · obtain ⟨ha, hb⟩ := hs.used h
      have haz : a ≠ z := fun h => ha (h ▸ hz)
      have hbz : b ≠ z := fun h => hb (h ▸ hz)
      rw [Function.update_of_ne hcz, Function.update_of_ne haz, Function.update_of_ne hbz,
        hs.pair h]
  · rcases hcases h with ⟨rfl, rfl, rfl⟩ | ⟨hcz, h⟩
    · exact ⟨hkept hx, hkept hy⟩
    · exact (hs.used h).imp hkept hkept
  · rcases hcases h with ⟨rfl, rfl, rfl⟩ | ⟨hcz, h⟩
    · exact ⟨hdx, hdy⟩
    · exact hs.deeper h

end BlocTest
