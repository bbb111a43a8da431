import Mathlib.Data.List.Nodup
import Mathlib.Order.Basic
import Mathlib.Tactic.Tauto
import CircuitStages.Ascending

namespace CircuitStages

theorem mem_ascending {α : Type} {before : α → α → Bool} (total : ∀ a b, before a b ∨ a = b ∨ before b a)
    {x : α} {xs : List α} : x ∈ ascending before xs ↔ x ∈ xs := by
  have loop (found : List α) :
      x ∈ xs.foldl (fun found y => insertBy before y found) found ↔ x ∈ found ∨ x ∈ xs := by
    induction xs generalizing found with
    | nil => simp
    | cons y xs ih =>
      rw [List.foldl_cons, ih, mem_insertBy, List.mem_cons]
      have := total x y
      tauto
  simpa [ascending] using loop []

theorem mem_ascendingNats {x : Nat} {xs : List Nat} : x ∈ ascendingNats xs ↔ x ∈ xs := by
  refine mem_ascending fun a b => ?_
  simp only [decide_eq_true_eq]
  omega

theorem pairwise_ascendingNats (xs : List Nat) : (ascendingNats xs).Pairwise (· < ·) := by
  have trans (a b c : Nat) : decide (a < b) → decide (b < c) → decide (a < c) := by
    simp only [decide_eq_true_eq]
    omega
  exact (pairwise_ascending trans xs).imp of_decide_eq_true

theorem nodup_ascendingNats (xs : List Nat) : (ascendingNats xs).Nodup := (pairwise_ascendingNats xs).imp Nat.ne_of_lt

/-- Ascending lists depend on their members only. -/
theorem eq_of_ascending {xs ys : List Nat} (hx : xs.Pairwise (· < ·)) (hy : ys.Pairwise (· < ·))
    (h : ∀ x, x ∈ xs ↔ x ∈ ys) : xs = ys :=
  @eq_of_pairwise_lt Nat id xs ys hx hy h

theorem ascendingNats_congr {xs ys : List Nat} (h : ∀ x, x ∈ xs ↔ x ∈ ys) : ascendingNats xs = ascendingNats ys := by
  refine eq_of_ascending (pairwise_ascendingNats xs) (pairwise_ascendingNats ys) fun x => ?_
  rw [mem_ascendingNats, mem_ascendingNats, h]

theorem mem_ascendingTexts {x : String} {xs : List String} : x ∈ ascendingTexts xs ↔ x ∈ xs := by
  refine mem_ascending fun a b => ?_
  simp only [textBefore, decide_eq_true_eq]
  by_cases hab : a < b
  · exact .inl hab
  · by_cases hba : b < a
    · exact .inr (.inr hba)
    · exact .inr (.inl (String.le_antisymm (String.not_lt.mp hba) (String.not_lt.mp hab)))

theorem nodup_eraseDups {α : Type} [BEq α] [LawfulBEq α] (xs : List α) : xs.eraseDups.Nodup := by
  induction hlength : xs.length using Nat.strongRecOn generalizing xs with
  | ind n ih =>
    cases xs with
    | nil => exact List.nodup_nil
    | cons x xs =>
      have hshorter : (xs.filter fun y => !y == x).length < n :=
        Nat.lt_of_le_of_lt (List.length_filter_le _ _) (hlength ▸ Nat.lt_succ_self xs.length)
      rw [List.eraseDups_cons, List.nodup_cons, List.mem_eraseDups]
      exact ⟨by simp, ih _ hshorter _ rfl⟩

end CircuitStages
