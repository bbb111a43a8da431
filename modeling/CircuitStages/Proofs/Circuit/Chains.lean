import CircuitStages.Proofs.Tables.Clocks
import Mathlib.Order.Bounds.Basic

namespace CircuitStages

variable {α : Type} {is js chain : List (Instruction α)} {i j : Instruction α}

/-- Whether two instructions act on a common qubit. -/
def SharesQubit (i j : Instruction α) : Prop := ∃ q ∈ i.qubits, q ∈ j.qubits

theorem SharesQubit.symm (h : SharesQubit i j) : SharesQubit j i := by
  obtain ⟨q, hi, hj⟩ := h
  exact ⟨q, hj, hi⟩

/-- Instructions of a list in their order, each on some qubit, and each with a qubit in common with the next. -/
structure IsDependencyChain (is chain : List (Instruction α)) : Prop where
  sublist : chain.Sublist is
  acts : ∀ i ∈ chain, i.qubits ≠ []
  linked : chain.IsChain SharesQubit

namespace IsDependencyChain

theorem nil (is : List (Instruction α)) : IsDependencyChain is [] := ⟨is.nil_sublist, nofun, .nil⟩

theorem of_sublist (h : IsDependencyChain is chain) (hsub : is.Sublist js) : IsDependencyChain js chain :=
  ⟨h.sublist.trans hsub, h.acts, h.linked⟩

/-- One more instruction at the end takes part in a chain as its last member only. -/
theorem concat_iff : IsDependencyChain (is ++ [i]) chain ↔ IsDependencyChain is chain ∨
    ∃ earlier, chain = earlier ++ [i] ∧ IsDependencyChain is earlier ∧ i.qubits ≠ [] ∧
      ∀ l ∈ earlier.getLast?, SharesQubit l i := by
  constructor
  · intro h
    obtain ⟨earlier, last, rfl, hearlier, hlast⟩ := List.sublist_append_iff.mp h.sublist
    rcases List.sublist_singleton.mp hlast with rfl | rfl
    · rw [List.append_nil] at h ⊢
      exact .inl ⟨hearlier, h.acts, h.linked⟩
    · obtain ⟨hlinked, -, hshare⟩ := List.isChain_append.mp h.linked
      obtain ⟨hacts, hi⟩ := List.forall_mem_append.mp h.acts
      exact .inr ⟨earlier, rfl, ⟨hearlier, hacts, hlinked⟩, hi i (List.mem_singleton_self i),
        fun l hl => hshare l hl i rfl⟩
  · rintro (h | ⟨earlier, rfl, h, hi, hshare⟩)
    · exact h.of_sublist (List.sublist_append_left is [i])
    · refine ⟨h.sublist.append_right [i], List.forall_mem_append.mpr ⟨h.acts, by simpa using hi⟩, ?_⟩
      refine List.isChain_append.mpr ⟨h.linked, List.isChain_singleton i, fun l hl x hx => ?_⟩
      cases hx
      exact hshare l hl

/-- Of two neighbours without a common qubit a chain has at most one, so it is a chain after their exchange. -/
theorem exchange (h : IsDependencyChain (is ++ j :: i :: js) chain) (hij : ¬ SharesQubit i j) :
    IsDependencyChain (is ++ i :: j :: js) chain := by
  refine ⟨?_, h.acts, h.linked⟩
  obtain ⟨before, rest, rfl, hbefore, hrest⟩ := List.sublist_append_iff.mp h.sublist
  refine hbefore.append ?_
  rcases List.sublist_cons_iff.mp hrest with hrest | ⟨later, rfl, hlater⟩
  · exact hrest.trans ((List.sublist_cons_self j js).cons_cons i)
  · rcases List.sublist_cons_iff.mp hlater with hlater | ⟨latest, rfl, -⟩
    · exact (hlater.cons_cons j).cons i
    · obtain ⟨-, hlinked, -⟩ := List.isChain_append.mp h.linked
      exact absurd (List.isChain_cons_cons.mp hlinked).1.symm hij

end IsDependencyChain

theorem exists_mem_eq_foldl_max {xs : List Nat} (h : xs ≠ []) : ∃ x ∈ xs, xs.foldl max 0 = x := by
  by_contra hnone
  obtain ⟨x, hx⟩ := List.exists_mem_of_ne_nil xs h
  have hbelow : ∀ y ∈ xs, y < xs.foldl max 0 := fun y hy =>
    Nat.lt_of_le_of_ne (le_foldl_max hy) fun heq => hnone ⟨y, hy, heq.symm⟩
  have hpos := hbelow x hx
  have hle : xs.foldl max 0 ≤ xs.foldl max 0 - 1 :=
    foldl_max_le_iff.mpr ⟨Nat.zero_le _, fun y hy => Nat.le_sub_one_of_lt (hbelow y hy)⟩
  omega

theorem lt_nextLayer {reached : Nat → Nat} {qs : List Nat} {q : Nat} (hq : q ∈ qs) :
    reached q < nextLayer reached qs := by
  rw [nextLayer, if_neg (by simpa using List.ne_nil_of_mem hq)]
  exact Nat.succ_le_succ (le_foldl_max (List.mem_map_of_mem hq))

/-- The layer of an instruction lies just past the last one on some qubit of it. -/
theorem exists_nextLayer_eq (reached : Nat → Nat) {qs : List Nat} (h : qs ≠ []) :
    ∃ q ∈ qs, nextLayer reached qs = reached q + 1 := by
  have hne : qs.map reached ≠ [] := by simpa using h
  obtain ⟨x, hx, hmax⟩ := exists_mem_eq_foldl_max hne
  obtain ⟨q, hq, rfl⟩ := List.mem_map.mp hx
  exact ⟨q, hq, by rw [nextLayer, if_neg (by simpa using h), hmax]⟩

/-- The last layer on each qubit behind some instructions. -/
def reachedBy (is : List (Instruction α)) : Nat → Nat :=
  is.foldl (fun reached i => layersAfter reached i.qubits) fun _ => 0

theorem reachedBy_concat (is : List (Instruction α)) (i : Instruction α) :
    reachedBy (is ++ [i]) = layersAfter (reachedBy is) i.qubits := by
  simp [reachedBy]

theorem layersFrom_concat (is : List (Instruction α)) (i : Instruction α) :
    layersFrom (fun _ => 0) (is ++ [i]) = layersFrom (fun _ => 0) is ++ [nextLayer (reachedBy is) i.qubits] := by
  have hfrom (reached : Nat → Nat) : layersFrom reached (is ++ [i]) = layersFrom reached is ++
      [nextLayer (is.foldl (fun reached i => layersAfter reached i.qubits) reached) i.qubits] := by
    induction is generalizing reached with
    | nil => rfl
    | cons j is ih => rw [List.cons_append, layersFrom_cons, layersFrom_cons, ih, List.foldl_cons, List.cons_append]
  exact hfrom _

/-- Whether a chain ends with an instruction on a qubit, if it is not empty. -/
def EndsOn (chain : List (Instruction α)) (q : Nat) : Prop := ∀ l ∈ chain.getLast?, q ∈ l.qubits

/-- A chain that ends on a qubit of the next instruction goes on with it. -/
theorem IsDependencyChain.concat {q : Nat} (h : IsDependencyChain is chain) (hend : EndsOn chain q)
    (hq : q ∈ i.qubits) : IsDependencyChain (is ++ [i]) (chain ++ [i]) :=
  concat_iff.mpr (.inr ⟨chain, rfl, h, List.ne_nil_of_mem hq, fun l hl => ⟨q, hend l hl, hq⟩⟩)

/-- A chain that goes on with an instruction is no longer than the layer of this instruction says. -/
theorem length_concat_le {earlier : List (Instruction α)} {reached : Nat → Nat} (hi : i.qubits ≠ [])
    (hle : ∀ q, EndsOn earlier q → earlier.length ≤ reached q) (hshare : ∀ l ∈ earlier.getLast?, SharesQubit l i) :
    (earlier ++ [i]).length ≤ nextLayer reached i.qubits := by
  rw [List.length_append, List.length_singleton]
  rcases List.eq_nil_or_concat earlier with rfl | ⟨before, l, rfl⟩
  · obtain ⟨q, hq⟩ := List.exists_mem_of_ne_nil _ hi
    exact Nat.le_trans (Nat.le_add_left 1 (reached q)) (lt_nextLayer hq)
  · obtain ⟨q, hl, hq⟩ := hshare l (by simp)
    have hlength := hle q (by simpa [EndsOn] using hl)
    exact Nat.le_trans (Nat.succ_le_succ hlength) (lt_nextLayer hq)

/-- The last layer on a qubit is the length of the longest chain that ends on it. -/
theorem isGreatest_reachedBy (is : List (Instruction α)) (q : Nat) :
    IsGreatest {k | ∃ chain, IsDependencyChain is chain ∧ EndsOn chain q ∧ chain.length = k} (reachedBy is q) := by
  induction is using List.reverseRecOn generalizing q with
  | nil =>
    refine ⟨⟨[], .nil _, nofun, rfl⟩, ?_⟩
    rintro k ⟨chain, hchain, -, rfl⟩
    rw [List.eq_nil_of_sublist_nil hchain.sublist]
    exact Nat.zero_le _
  | append_singleton is i ih =>
    rw [reachedBy_concat]
    constructor
    · by_cases hq : q ∈ i.qubits
      · obtain ⟨p, hp, hlayer⟩ := exists_nextLayer_eq (reachedBy is) (List.ne_nil_of_mem hq)
        obtain ⟨chain, hchain, hend, hlength⟩ := (ih p).1
        refine ⟨chain ++ [i], hchain.concat hend hp, by simpa [EndsOn] using hq, ?_⟩
        rw [List.length_append, hlength, layersAfter, if_pos (List.contains_iff_mem.mpr hq), hlayer]
        rfl
      · obtain ⟨chain, hchain, hend, hlength⟩ := (ih q).1
        refine ⟨chain, hchain.of_sublist (List.sublist_append_left is [i]), hend, ?_⟩
        rw [hlength, layersAfter, if_neg (by simpa using hq)]
    · rintro k ⟨chain, hchain, hend, rfl⟩
      rcases IsDependencyChain.concat_iff.mp hchain with hchain | ⟨earlier, rfl, hearlier, hi, hshare⟩
      · exact Nat.le_trans ((ih q).2 ⟨chain, hchain, hend, rfl⟩) (le_layersAfter _ _ q)
      · have hq : q ∈ i.qubits := hend i (by simp)
        rw [layersAfter, if_pos (List.contains_iff_mem.mpr hq)]
        exact length_concat_le hi (fun p hp => (ih p).2 ⟨earlier, hearlier, hp, rfl⟩) hshare

/-- Every layer is the length of a chain. -/
theorem exists_chain_of_mem_layersFrom {layer : Nat} (h : layer ∈ layersFrom (fun _ => 0) is) :
    ∃ chain, IsDependencyChain is chain ∧ chain.length = layer := by
  induction is using List.reverseRecOn with
  | nil => cases h
  | append_singleton is i ih =>
    rw [layersFrom_concat, List.mem_append, List.mem_singleton] at h
    rcases h with h | rfl
    · obtain ⟨chain, hchain, hlength⟩ := ih h
      exact ⟨chain, hchain.of_sublist (List.sublist_append_left is [i]), hlength⟩
    · by_cases hi : i.qubits = []
      · exact ⟨[], .nil _, by simp [nextLayer, hi]⟩
      · obtain ⟨q, hq, hlayer⟩ := exists_nextLayer_eq (reachedBy is) hi
        obtain ⟨chain, hchain, hend, hlength⟩ := (isGreatest_reachedBy is q).1
        exact ⟨chain ++ [i], hchain.concat hend hq, by rw [List.length_append, hlength, hlayer]; rfl⟩

theorem reachedBy_le (is : List (Instruction α)) (q : Nat) :
    reachedBy is q ≤ (layersFrom (fun _ => 0) is).foldl max 0 := by
  induction is using List.reverseRecOn with
  | nil => exact Nat.zero_le _
  | append_singleton is i ih =>
    rw [reachedBy_concat, layersFrom_concat, List.foldl_append, layersAfter]
    split
    · exact Nat.le_max_right _ _
    · exact ih.trans (Nat.le_max_left _ _)

namespace Circuit

variable {c : Circuit α}

/-- The depth is the length of the longest chain. -/
theorem depth_spec (c : Circuit α) :
    IsGreatest {k | ∃ chain, IsDependencyChain c.instructions chain ∧ chain.length = k} c.depth := by
  constructor
  · by_cases hnone : layersFrom (fun _ => 0) c.instructions = []
    · exact ⟨[], .nil _, by rw [depth, hnone]; rfl⟩
    · obtain ⟨layer, hlayer, hmax⟩ := exists_mem_eq_foldl_max hnone
      obtain ⟨chain, hchain, hlength⟩ := exists_chain_of_mem_layersFrom hlayer
      exact ⟨chain, hchain, hlength.trans hmax.symm⟩
  · rintro k ⟨chain, hchain, rfl⟩
    rcases List.eq_nil_or_concat chain with rfl | ⟨before, l, rfl⟩
    · exact Nat.zero_le _
    · obtain ⟨q, hq⟩ := List.exists_mem_of_ne_nil _ (hchain.acts l (by simp))
      have hend : EndsOn (before.concat l) q := by simpa [EndsOn] using hq
      exact ((isGreatest_reachedBy c.instructions q).2 ⟨_, hchain, hend, rfl⟩).trans (reachedBy_le _ q)

/-- A circuit is no deeper than another one that has all its chains. -/
theorem depth_le_of_chains {c d : Circuit α}
    (h : ∀ chain, IsDependencyChain c.instructions chain → IsDependencyChain d.instructions chain) :
    c.depth ≤ d.depth := by
  obtain ⟨chain, hchain, hlength⟩ := c.depth_spec.1
  exact d.depth_spec.2 ⟨chain, h chain hchain, hlength⟩

theorem WellFormed.withInstructions_of_subset (hc : c.WellFormed) (h : is ⊆ c.instructions) :
    (c.withInstructions is).WellFormed :=
  hc.withInstructions fun _ hi => hc.fits (h hi)

/-- On a well-formed circuit the table of layers is kept without a fault, and the depth that is read off it is the
largest number of instructions in program order that each act on some qubit and have a qubit in common with the next
one; it is zero if no instruction acts on a qubit. So neither the exchange of two neighbours without a common qubit nor
leaving instructions out makes a circuit deeper. -/
theorem isGreatest_depth (hc : c.WellFormed) :
    c.depthOnTable? = some c.depth ∧
    IsGreatest {k | ∃ chain, IsDependencyChain c.instructions chain ∧ chain.length = k} c.depth ∧
    (∀ is i j js, c.instructions = is ++ i :: j :: js → ¬ SharesQubit i j →
      (c.withInstructions (is ++ j :: i :: js)).WellFormed ∧
      (c.withInstructions (is ++ j :: i :: js)).depth ≤ c.depth) ∧
    ∀ is, is.Sublist c.instructions →
      (c.withInstructions is).WellFormed ∧ (c.withInstructions is).depth ≤ c.depth := by
  refine ⟨hc.depthOnTable?_eq, c.depth_spec, fun is i j js heq hij => ?_, fun is hsub => ?_⟩
  · have hperm : (is ++ j :: i :: js).Perm c.instructions := heq ▸ (List.Perm.swap i j js).append_left is
    refine ⟨hc.withInstructions_of_subset hperm.subset, depth_le_of_chains fun chain hchain => ?_⟩
    rw [heq]
    exact hchain.exchange hij
  · exact ⟨hc.withInstructions_of_subset hsub.subset, depth_le_of_chains fun chain hchain => hchain.of_sublist hsub⟩

/-- Instructions on no qubit, on one, on two and on three. -/
def woven : Circuit Nat :=
  (empty "woven" 4 1).withInstructions [.barrier [], .ccx 0 1 2, .h 3, .cx 2 3, .barrier [], .x 1, .measure 0 0]

/-- The gates on three qubits and on two are one of the longest chains. The circuit gets no deeper if the gate on qubit
`3` comes first, nor if it is left with operations on one qubit only. -/
theorem isGreatest_depth_woven : woven.WellFormed ∧ woven.depthOnTable? = some 2 ∧
    IsGreatest {k | ∃ chain, IsDependencyChain woven.instructions chain ∧ chain.length = k} 2 ∧
    ¬ SharesQubit (.ccx 0 1 2 : Instruction Nat) (.h 3) ∧
    (woven.withInstructions [.barrier [], .h 3, .ccx 0 1 2, .cx 2 3, .barrier [], .x 1, .measure 0 0]).depth ≤ 2 ∧
    (woven.withInstructions [.h 3, .x 1, .measure 0 0]).depth ≤ 2 := by
  have hc : woven.WellFormed := ⟨by decide, by decide, by decide, by decide, nofun, nofun, nofun⟩
  have hapart : ¬ SharesQubit (.ccx 0 1 2 : Instruction Nat) (.h 3) := by
    simp [SharesQubit, Instruction.ccx, Instruction.h, Instruction.gate]
  obtain ⟨htable, hgreatest, hexchange, hdelete⟩ := isGreatest_depth hc
  exact ⟨hc, htable, hgreatest, hapart, (hexchange [.barrier []] _ _ _ rfl hapart).2, (hdelete _ (by decide)).2⟩

end Circuit

end CircuitStages
