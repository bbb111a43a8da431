import CircuitStages.Rewrite.Translation
import Mathlib.Data.List.Basic

namespace CircuitStages

/-! The rules go round in circles: `cx` and `cz` are written in each other. But a gate gets a level only after all gates
of some rule for it, so levels are a rank by which every expansion ends. -/

/-- The gates that rules derive from a basis, in any number of steps. -/
inductive Derivable (basis : List String) : String → Prop
  | basis {name : String} : basis.contains name → Derivable basis name
  | rule {r : Rule} : r ∈ rules → (∀ name ∈ r.uses, Derivable basis name) → Derivable basis r.source

variable {basis : List String} {levels : Levels} {name : String} {k round fuel : Nat}

theorem derivable_iff : Derivable basis name ↔
    basis.contains name ∨ ∃ r ∈ rules, r.source = name ∧ ∀ u ∈ r.uses, Derivable basis u := by
  constructor
  · intro h
    cases h with
    | basis hb => exact .inl hb
    | rule hr huses => exact .inr ⟨_, hr, rfl, huses⟩
  · rintro (hb | ⟨r, hr, rfl, huses⟩)
    · exact .basis hb
    · exact .rule hr huses

theorem level?_of_basis (h : basis.contains name) : level? basis levels name = some 0 := if_pos h

theorem level?_of_not_basis (h : ¬ basis.contains name) : level? basis levels name = levels.lookup name := if_neg h

theorem isExpressible_iff : isExpressible basis levels name ↔ ∃ k, level? basis levels name = some k :=
  Option.isSome_iff_exists

theorem level?_append (h : level? basis levels name = some k) (more : Levels) :
    level? basis (levels ++ more) name = some k := by
  by_cases hb : basis.contains name
  · rw [level?_of_basis hb] at h ⊢
    exact h
  · rw [level?_of_not_basis hb] at h ⊢
    rw [List.lookup_append, h]
    rfl

theorem mem_newlyExpressible : name ∈ newlyExpressible basis levels ↔
    ∃ r ∈ rules, r.source = name ∧ ¬ isExpressible basis levels name ∧
      ∀ u ∈ r.uses, isExpressible basis levels u := by
  simp only [newlyExpressible, List.mem_map, List.mem_filter, Bool.and_eq_true, List.all_eq_true,
    Bool.not_eq_true', Bool.not_eq_true]
  constructor
  · rintro ⟨r, ⟨hr, hnew, huses⟩, rfl⟩
    exact ⟨r, hr, rfl, hnew, huses⟩
  · rintro ⟨r, hr, rfl, hnew, huses⟩
    exact ⟨r, ⟨hr, hnew, huses⟩, rfl⟩

/-- What the rounds before `round` have found: each gate outside the basis is the source of a rule that uses gates of
lower levels only. -/
def Ranked (basis : List String) (round : Nat) (levels : Levels) : Prop :=
  ∀ name k, levels.lookup name = some k →
    0 < k ∧ k < round ∧ ∃ r ∈ rules, r.source = name ∧ ∀ u ∈ r.uses, ∃ l < k, level? basis levels u = some l

theorem Ranked.level_lt (h : Ranked basis round levels) (hround : 0 < round)
    (hlevel : level? basis levels name = some k) : k < round := by
  by_cases hb : basis.contains name
  · rw [level?_of_basis hb] at hlevel
    cases hlevel
    exact hround
  · rw [level?_of_not_basis hb] at hlevel
    exact (h name k hlevel).2.1

theorem lookup_map_pair {found : List String} (h : (found.map fun name => (name, round)).lookup name = some k) :
    name ∈ found ∧ k = round := by
  induction found with
  | nil => cases h
  | cons first found ih =>
    rw [List.map_cons, List.lookup_cons] at h
    split at h
    next heq =>
      cases h
      exact ⟨by rw [eq_of_beq heq]; exact List.mem_cons_self, rfl⟩
    next => exact (ih h).imp_left (List.mem_cons_of_mem first)

/-- A round gives its number to gates whose rules use gates of earlier rounds. -/
theorem Ranked.next (h : Ranked basis round levels) (hround : 0 < round) :
    Ranked basis (round + 1) (levels ++ (newlyExpressible basis levels).map fun name => (name, round)) := by
  intro name k hk
  rw [List.lookup_append] at hk
  cases hold : levels.lookup name with
  | some l =>
    rw [hold, Option.some_or] at hk
    obtain rfl := Option.some.inj hk
    obtain ⟨hpos, hlt, r, hr, hsource, huses⟩ := h name l hold
    refine ⟨hpos, Nat.lt_succ_of_lt hlt, r, hr, hsource, fun u hu => ?_⟩
    obtain ⟨j, hj, hlevel⟩ := huses u hu
    exact ⟨j, hj, level?_append hlevel _⟩
  | none =>
    rw [hold, Option.none_or] at hk
    obtain ⟨hfound, rfl⟩ := lookup_map_pair hk
    obtain ⟨r, hr, hsource, -, huses⟩ := mem_newlyExpressible.mp hfound
    refine ⟨hround, Nat.lt_succ_self _, r, hr, hsource, fun u hu => ?_⟩
    obtain ⟨j, hlevel⟩ := isExpressible_iff.mp (huses u hu)
    exact ⟨j, h.level_lt hround hlevel, level?_append hlevel _⟩

theorem ranked_searchLevels (h : Ranked basis round levels) (hround : 0 < round) (fuel : Nat) :
    ∃ last, Ranked basis last (searchLevels basis fuel round levels) := by
  induction fuel generalizing round levels with
  | zero => exact ⟨round, h⟩
  | succ fuel ih =>
    simp only [searchLevels]
    split
    · exact ⟨round, h⟩
    · exact ih (h.next hround) (Nat.succ_pos round)

/-- A gate outside the basis that has a level has a rule that leads to lower levels only. -/
theorem exists_rule_of_level (hb : ¬ basis.contains name) (h : level? basis (gateLevels basis) name = some k) :
    0 < k ∧ ∃ r ∈ rules, r.source = name ∧ ∀ u ∈ r.uses, ∃ l < k, level? basis (gateLevels basis) u = some l := by
  have hstart : Ranked basis 1 [] := fun _ _ hnone => nomatch hnone
  obtain ⟨last, hranked⟩ := ranked_searchLevels hstart Nat.one_pos rules.length
  rw [level?_of_not_basis hb] at h
  obtain ⟨hpos, -, hrule⟩ := hranked name k h
  exact ⟨hpos, hrule⟩

/-- The rules for gates without a level. -/
def unfound (basis : List String) (levels : Levels) : List Rule :=
  rules.filter fun r => !isExpressible basis levels r.source

theorem isExpressible_append (h : isExpressible basis levels name) (more : Levels) :
    isExpressible basis (levels ++ more) name := by
  obtain ⟨k, hk⟩ := isExpressible_iff.mp h
  exact isExpressible_iff.mpr ⟨k, level?_append hk more⟩

theorem lookup_map_pair_of_mem {found : List String} (h : name ∈ found) :
    (found.map fun name => (name, round)).lookup name = some round := by
  induction found with
  | nil => cases h
  | cons first found ih =>
    rw [List.map_cons, List.lookup_cons]
    split
    next => rfl
    next hne =>
      rcases List.mem_cons.mp h with rfl | h
      · simp at hne
      · exact ih h

theorem isExpressible_next (h : name ∈ newlyExpressible basis levels) :
    isExpressible basis (levels ++ (newlyExpressible basis levels).map fun name => (name, round)) name := by
  obtain ⟨r, -, -, hnew, -⟩ := mem_newlyExpressible.mp h
  by_cases hb : basis.contains name
  · exact isExpressible_iff.mpr ⟨0, level?_of_basis hb⟩
  · have hnone : levels.lookup name = none := by
      rw [isExpressible, level?_of_not_basis hb, Option.not_isSome_iff_eq_none] at hnew
      exact hnew
    refine isExpressible_iff.mpr ⟨round, ?_⟩
    rw [level?_of_not_basis hb, List.lookup_append, hnone, lookup_map_pair_of_mem h]
    rfl

/-- Every round but the last gives a level to the source of some rule. -/
theorem length_unfound_next_lt (round : Nat) (h : newlyExpressible basis levels ≠ []) :
    (unfound basis (levels ++ (newlyExpressible basis levels).map fun name => (name, round))).length <
      (unfound basis levels).length := by
  have hshrink : unfound basis (levels ++ (newlyExpressible basis levels).map fun name => (name, round)) =
      (unfound basis levels).filter fun r => !isExpressible basis
        (levels ++ (newlyExpressible basis levels).map fun name => (name, round)) r.source := by
    rw [unfound, unfound, List.filter_filter]
    refine List.filter_congr fun r _ => ?_
    cases hold : isExpressible basis levels r.source with
    | false => simp
    | true => simp [isExpressible_append hold]
  obtain ⟨name, hname⟩ := List.exists_mem_of_ne_nil _ h
  obtain ⟨r, hr, rfl, hnew, -⟩ := mem_newlyExpressible.mp hname
  rw [hshrink]
  refine List.length_filter_lt_length_iff_exists.mpr ⟨r, List.mem_filter.mpr ⟨hr, by simpa using hnew⟩, ?_⟩
  simp [isExpressible_next hname]

/-- The search has stopped by itself once there have been as many rounds as there are rules. -/
theorem newlyExpressible_searchLevels (h : (unfound basis levels).length ≤ fuel) :
    newlyExpressible basis (searchLevels basis fuel round levels) = [] := by
  -- every round but the last takes a rule from the list of those without a level
  induction fuel generalizing round levels with
  | zero =>
    rw [searchLevels]
    refine List.eq_nil_iff_forall_not_mem.mpr fun name hname => ?_
    obtain ⟨r, hr, rfl, hnew, -⟩ := mem_newlyExpressible.mp hname
    have hmem : r ∈ unfound basis levels := List.mem_filter.mpr ⟨hr, by simpa using hnew⟩
    rw [List.length_eq_zero_iff.mp (Nat.le_zero.mp h)] at hmem
    cases hmem
  | succ fuel ih =>
    simp only [searchLevels]
    split
    next hempty => exact List.isEmpty_iff.mp hempty
    next hsome =>
      have hless := length_unfound_next_lt round (by simpa using hsome)
      exact ih (Nat.le_of_lt_succ (Nat.lt_of_lt_of_le hless h))

theorem newlyExpressible_gateLevels (basis : List String) : newlyExpressible basis (gateLevels basis) = [] :=
  newlyExpressible_searchLevels (List.length_filter_le _ _)

theorem isExpressible_gateLevels_iff : isExpressible basis (gateLevels basis) name ↔ Derivable basis name := by
  constructor
  · intro h
    obtain ⟨k, hk⟩ := isExpressible_iff.mp h
    clear h
    induction k using Nat.strongRecOn generalizing name with
    | ind k ih =>
      by_cases hb : basis.contains name
      · exact .basis hb
      · obtain ⟨-, r, hr, rfl, huses⟩ := exists_rule_of_level hb hk
        refine .rule hr fun u hu => ?_
        obtain ⟨l, hl, hlevel⟩ := huses u hu
        exact ih l hl hlevel
  · intro h
    induction h with
    | basis hb => exact isExpressible_iff.mpr ⟨0, level?_of_basis hb⟩
    | @rule r hr _ ih =>
      by_contra hnew
      have hmem := mem_newlyExpressible.mpr ⟨r, hr, rfl, hnew, ih⟩
      rw [newlyExpressible_gateLevels] at hmem
      cases hmem

end CircuitStages
