import BlocTest.Permutation.Generators
import BlocTest.Permutation.Model.CombinePy
/-!
# The two combination generators agree

The Python recursion takes or skips one element, the C++ one loops over the
heads. Both spell the same enumeration: its tuples with a given first
element come before those without.
-/

namespace BlocTest

namespace Permutation

open Prog IntType

variable {α : Type} {data : List α} {s : Selection α} {x : α} {k step fuel : ℕ} {targetNum : ℤ}

theorem wp_append {Q : Unit → Selection α → Prop} :
    wp (append x) Q s ↔ Q () { s with selectData := s.selectData ++ [x] } := by
  rw [append, wp_modify]

theorem wp_pop {Q : Unit → Selection α → Prop} :
    wp pop Q s ↔ s.selectData ≠ [] ∧ Q () { s with selectData := s.selectData.dropLast } := by
  simp only [pop, wp_bind, wp_get, wp_ite, List.isEmpty_iff, wp_fault, wp_set]
  exact ⟨fun h => ⟨h.1, h.2 h.1⟩, fun h => ⟨h.1, fun _ => h.2⟩⟩

/-- **The Python generator prints the combinations of what is left**, each
after what is selected, and leaves the selection as it was. -/
theorem wp_combinePy (hk : targetNum = s.selectData.length + k)
    (hf : data.length - step < fuel) :
    wp (combinePy data targetNum fuel step) (fun _ s' => s' = { s with
      printed := s.printed ++
        (enumerate following k (data.drop step)).map (s.selectData ++ ·) }) s := by
  induction fuel generalizing s k step with
  | zero => omega
  | succ fuel ih =>
      rw [combinePy, wp_bind, wp_get, wp_ite, wp_set]
      constructor
      · intro hlen
        obtain rfl : k = 0 := by omega
        rw [enumerate_zero, List.map_singleton, List.append_nil]
      · intro hlen
        obtain ⟨k, rfl⟩ := Nat.exists_eq_succ_of_ne_zero (by omega : k ≠ 0)
        cases hx : data[step]? with
        | none =>
            have hnil := List.drop_eq_nil_of_le (List.getElem?_eq_none_iff.1 hx)
            rw [hnil, enumerate_following_nil, List.map_nil, List.append_nil]
            exact wp_pure.2 rfl
        | some x =>
            obtain ⟨hlt, hget⟩ := List.getElem?_eq_some_iff.1 hx
            have hrest : data.length - (step + 1) < fuel := by omega
            simp only [wp_bind, wp_append]
            -- with `x`: one element less to select
            have htake : targetNum = (s.selectData ++ [x]).length + k := by
              rw [List.length_append, List.length_singleton]
              omega
            refine wp_mono (ih (s := { s with selectData := s.selectData ++ [x] }) htake hrest) ?_
            rintro _ _ rfl
            rw [wp_pop]
            simp only [List.dropLast_concat]
            refine ⟨by simp, ?_⟩
            -- without `x`: the rest of the enumeration
            refine wp_mono (ih (k := k + 1) hk hrest) ?_
            rintro _ _ rfl
            rw [List.drop_eq_getElem_cons hlt, hget, enumerate_following_cons, List.map_append,
              List.map_map, List.append_assoc]
            simp only [Function.comp_def, List.append_assoc, List.singleton_append]

/-- A call with nothing selected and nothing printed. -/
theorem combinePy_eq (hk : targetNum = k) (hf : data.length < fuel) :
    combinePy data targetNum fuel 0 { selectData := [], printed := [] } =
      .ok ((), { selectData := [], printed := enumerate following k data }) := by
  have hk' : targetNum = ([] : List α).length + k := by rw [hk, List.length_nil, Nat.cast_zero,
    zero_add]
  have hrun := wp_combinePy (s := { selectData := [], printed := [] }) hk' (Nat.lt_of_le_of_lt
    (Nat.sub_le data.length 0) hf)
  refine eq_of_wp (wp_mono hrun fun _ t ht => ⟨rfl, ?_⟩)
  rw [ht]
  simp only [List.drop_zero, List.nil_append, List.map_id_fun', id_eq]

/-- **The two generators agree exactly when** `n` is zero or there are fewer
than `2 ^ 31` values: they then print the same selections in the same order,
and both leave their accumulator empty. -/
theorem combine_agree_iff (data : List α) (n : Int32) (fuel : ℕ) (hn : 0 ≤ n.toInt)
    (hf : data.length < fuel) :
    (∃ p s', combinePy data n.toInt fuel 0 { selectData := [], printed := [] } = .ok ((), p) ∧
      combine fuel n { a := data, dst := [], cout := [], pushes := 0 } = .ok ((), s') ∧
      s'.cout = p.printed.flatMap line ∧ p.selectData = [] ∧ s'.dst = []) ↔
    n = 0 ∨ data.length < 2 ^ 31 := by
  obtain ⟨k, hk⟩ := Int.eq_ofNat_of_zero_le hn
  rw [← counter_iff hk]
  constructor
  · intro h
    obtain ⟨-, s', -, hrun, -⟩ := h
    exact counter_of_run erases_eraseUpTo hk hrun
  · intro hfit
    obtain ⟨_, s', hrun, hg⟩ := wp_generate erases_eraseUpTo
      (s := { a := data, dst := [], cout := [], pushes := 0 }) hk hfit hf
    refine ⟨_, s', combinePy_eq hk hf, hrun, ?_, rfl, hg.dst⟩
    rw [hg.cout]
    rfl

theorem combine_agree_iff_three :
    (∃ p s', combinePy [1, 2, 3] (2 : Int32).toInt 4 0 { selectData := [], printed := [] } =
        .ok ((), p) ∧
      combine 4 (2 : Int32) { a := [1, 2, 3], dst := [], cout := [], pushes := 0 } =
        .ok ((), s') ∧
      s'.cout = p.printed.flatMap line ∧ p.selectData = [] ∧ s'.dst = []) ↔
    (2 : Int32) = 0 ∨ ([1, 2, 3] : List ℕ).length < 2 ^ 31 :=
  combine_agree_iff [1, 2, 3] 2 4 (by decide) (by decide)

/-- On `2 ^ 31 + 1` values the Python generator returns and the C++ one does
not. -/
theorem combine_disagree :
    (∃ fuel p, combinePy (List.replicate (2 ^ 31 + 1) (7 : Int32)) 1 fuel 0
      { selectData := [], printed := [] } = .ok ((), p)) ∧
    ¬ ∃ fuel s', combine fuel (1 : Int32)
      { a := List.replicate (2 ^ 31 + 1) (7 : Int32), dst := [], cout := [], pushes := 0 } =
        .ok ((), s') := by
  constructor
  · exact ⟨_, _, combinePy_eq (k := 1) rfl (Nat.lt_succ_self _)⟩
  · intro h
    obtain ⟨fuel, s', hrun⟩ := h
    refine not_run_of_long erases_eraseUpTo (k := 1) (by decide) (by decide) ?_ hrun
    rw [List.length_replicate]
    omega

end Permutation

end BlocTest
