import CircuitStages.Proofs.Device.Distance
import CircuitStages.Proofs.Mapping.Relabelling
import Mathlib.Logic.Relation

namespace CircuitStages

variable {m : CouplingMap} {n q size start : Nat} {s t : Trail} {before after : List Trail}

section Search

variable {trails : List Trail} {seen : Array Bool}

/-- A search that starts with trails of one length finds no shorter trails, and longer ones later. -/
theorem pairwise_length_spread {k : Nat} (rounds : Nat) (hs : seen.size = m.numQubits)
    (hk : ∀ t ∈ trails, t.length = k) :
    (spread m.neighbors rounds trails seen).Pairwise (fun t u => t.length ≤ u.length) ∧
      ∀ t ∈ spread m.neighbors rounds trails seen, k ≤ t.length := by
  have hlevel : trails.Pairwise fun t u => t.length ≤ u.length :=
    List.pairwise_of_forall_mem_list fun t ht u hu => by rw [hk t ht, hk u hu]
  have hleast : ∀ t ∈ trails, k ≤ t.length := fun t ht => (hk t ht).ge
  induction rounds generalizing trails seen k with
  | zero => exact ⟨hlevel, hleast⟩
  | succ rounds ih =>
    simp only [spread]
    split
    next => exact ⟨hlevel, hleast⟩
    next =>
      have hsize : (nextTrails m.neighbors trails seen).2.size = m.numQubits := (size_nextTrails _ _ _).trans hs
      have hnext := length_of_mem_nextTrails hs hk
      obtain ⟨hlater, hlong⟩ := ih hsize hnext
        (List.pairwise_of_forall_mem_list fun t ht u hu => by rw [hnext t ht, hnext u hu])
        fun t ht => (hnext t ht).ge
      refine ⟨List.pairwise_append.mpr ⟨hlevel, hlater, fun t ht u hu => ?_⟩, fun t ht => ?_⟩
      · have hle := hlong u hu
        rw [hk t ht]
        omega
      · rcases List.mem_append.mp ht with ht | ht
        · exact hleast t ht
        · exact Nat.le_of_succ_le (hlong t ht)

theorem prefix_spread (rounds : Nat) : trails <+: spread m.neighbors rounds trails seen := by
  cases rounds with
  | zero => exact List.prefix_rfl
  | succ rounds =>
    simp only [spread]
    split
    · exact List.prefix_rfl
    · exact List.prefix_append _ _

end Search

namespace CouplingMap

theorem pairwise_length_trails (m : CouplingMap) (start : Nat) :
    (m.trails start).Pairwise fun t u => t.length ≤ u.length := by
  rw [trails_eq, trailsAlong]
  split
  next => exact (pairwise_length_spread (k := 0) _ (size_marks _ _) (by simp [Trail.length])).1
  next => exact List.Pairwise.nil

theorem exists_trails_eq_cons (h : start < m.numQubits) : ∃ rest, m.trails start = ⟨start, []⟩ :: rest := by
  rw [trails_eq_spread h]
  have hprefix : [⟨start, []⟩] <+: spread m.neighbors m.numQubits [⟨start, []⟩] (marks m.numQubits [start]) :=
    prefix_spread m.numQubits
  obtain ⟨rest, hrest⟩ := hprefix
  exact ⟨rest, hrest.symm⟩

/-- A trail comes after the one it leads on from, which is shorter. -/
theorem exists_mem_before (h : m.trails start = before ++ t :: after) :
    t = ⟨start, []⟩ ∨ ∃ s ∈ before, s.extend t.last = t := by
  have ht : t ∈ m.trails start := h ▸ List.mem_append_right _ List.mem_cons_self
  have hlater : ∀ u ∈ after, t.length ≤ u.length := by
    have hpairwise := m.pairwise_length_trails start
    rw [h] at hpairwise
    exact (List.pairwise_cons.mp (List.pairwise_append.mp hpairwise).2.1).1
  refine ((m.trails_spec start).2 t ht).imp_right ?_
  rintro ⟨s, hs, hext⟩
  have hlength : t.length = s.length + 1 := congrArg Trail.length hext.symm
  rw [h, List.mem_append, List.mem_cons] at hs
  rcases hs with hs | rfl | hs
  · exact ⟨s, hs, hext⟩
  · omega
  · have hle := hlater s hs
    omega

theorem isLinked_of_extend (ht : t ∈ m.trails start) (hext : s.extend t.last = t) : m.isLinked s.last t.last := by
  have hchain := (isWalk_of_mem_trails ht).linked
  rw [← hext, Trail.path, List.isChain_reverse] at hchain
  exact (List.isChain_cons_cons.mp hchain).1

/-- Whether two of the given qubits are linked. -/
structure LinkedOn (m : CouplingMap) (qs : List Nat) (a b : Nat) : Prop where
  left : a ∈ qs
  right : b ∈ qs
  isLinked : m.isLinked a b

theorem LinkedOn.symm {qs : List Nat} {a b : Nat} (h : m.LinkedOn qs a b) : m.LinkedOn qs b a :=
  ⟨h.right, h.left, m.isLinked_comm a b ▸ h.isLinked⟩

/-- Whether any two of the qubits are joined by links between the qubits. -/
def ConnectedOn (m : CouplingMap) (qs : List Nat) : Prop :=
  ∀ p ∈ qs, ∀ q ∈ qs, Relation.ReflTransGen (m.LinkedOn qs) p q

/-- Qubits that are all joined to one are connected. -/
theorem connectedOn_of_center {qs : List Nat} {a : Nat} (h : ∀ q ∈ qs, Relation.ReflTransGen (m.LinkedOn qs) a q) :
    m.ConnectedOn qs := by
  have hsymm : Std.Symm (m.LinkedOn qs) := ⟨fun _ _ => LinkedOn.symm⟩
  intro p hp q hq
  have hback : Relation.ReflTransGen (m.LinkedOn qs) p a := Relation.ReflTransGen.stdSymm.symm _ _ (h p hp)
  exact hback.trans (h q hq)

/-- The trails that a search has found at any time lead through qubits it has found. -/
theorem reflTransGen_of_prefix {found : List Trail} (h : found <+: m.trails start) (ht : t ∈ found) :
    Relation.ReflTransGen (m.LinkedOn (found.map (·.last))) start t.last := by
  induction found using List.reverseRecOn generalizing t with
  | nil => cases ht
  | append_singleton found u ih =>
    have hprefix : found <+: m.trails start := (List.prefix_append found [u]).trans h
    have hmore : m.LinkedOn (found.map (·.last)) ≤ m.LinkedOn ((found ++ [u]).map (·.last)) := by
      rintro a b ⟨ha, hb, hlink⟩
      rw [List.map_append]
      exact ⟨List.mem_append_left _ ha, List.mem_append_left _ hb, hlink⟩
    have hearlier {t : Trail} (ht : t ∈ found) :
        Relation.ReflTransGen (m.LinkedOn ((found ++ [u]).map (·.last))) start t.last :=
      Relation.ReflTransGen.mono hmore _ _ (ih hprefix ht)
    rcases List.mem_append.mp ht with ht | ht
    · exact hearlier ht
    · obtain rfl := List.mem_singleton.mp ht
      have hlink {s : Trail} (hext : s.extend t.last = t) : m.isLinked s.last t.last :=
        isLinked_of_extend (h.subset (List.mem_append_right _ ht)) hext
      obtain ⟨after, hafter⟩ := h
      rw [List.append_assoc, List.singleton_append] at hafter
      rcases exists_mem_before hafter.symm with hstart | ⟨s, hs, hext⟩
      · rw [hstart]
      · exact (hearlier hs).tail ⟨List.mem_map_of_mem (List.mem_append_left _ hs),
          List.mem_map_of_mem (List.mem_append_right _ ht), hlink hext⟩

/-- The qubits in reach of a qubit, nearest first. -/
def reached (m : CouplingMap) (start : Nat) : List Nat := (m.trails start).map (·.last)

theorem head?_reached (h : start < m.numQubits) : (m.reached start).head? = some start := by
  obtain ⟨rest, hrest⟩ := exists_trails_eq_cons h
  rw [reached, hrest]
  rfl

theorem nodup_reached (m : CouplingMap) (start : Nat) : (m.reached start).Nodup := (m.trails_spec start).1

/-- The qubits in reach are those of the same part of the map. -/
theorem mem_reached (h : start < m.numQubits) : q ∈ m.reached start ↔ q < m.numQubits ∧ m.Joined start q := by
  have hfound : q ∈ m.reached start ↔ (m.distance? start q).isSome := by
    rw [Option.isSome_iff_exists, reached, List.mem_map]
    simp only [distance?_eq_some]
    constructor
    · rintro ⟨t, ht, hlast⟩
      exact ⟨_, t, ht, hlast, rfl⟩
    · rintro ⟨-, t, ht, hlast, -⟩
      exact ⟨t, ht, hlast⟩
  rw [hfound, isSome_distance?_iff, and_iff_right h]

theorem pairwise_nearest (m : CouplingMap) (start : Nat) : (m.reached start).Pairwise fun p q =>
    ∃ d e, m.distance? start p = some d ∧ m.distance? start q = some e ∧ d ≤ e := by
  refine List.pairwise_map.mpr ((m.pairwise_length_trails start).imp_of_mem fun {t u} ht hu hle => ?_)
  exact ⟨_, _, distance?_eq_some.mpr ⟨t, ht, rfl, rfl⟩, distance?_eq_some.mpr ⟨u, hu, rfl, rfl⟩, hle⟩

/-- The qubits that a search has found at any time are connected. -/
theorem connectedOn_take_reached (m : CouplingMap) (start k : Nat) : m.ConnectedOn ((m.reached start).take k) := by
  rw [reached, ← List.map_take]
  refine connectedOn_of_center (a := start) fun q hq => ?_
  obtain ⟨t, ht, rfl⟩ := List.mem_map.mp hq
  exact reflTransGen_of_prefix (List.take_prefix k _) ht

/-- Whether a qubit is the first of those below `n` that have most neighbours. -/
structure BestLinked (m : CouplingMap) (n start : Nat) : Prop where
  lt : start < n
  most : ∀ q < n, (m.neighbors q).length ≤ (m.neighbors start).length
  first : ∀ q < n, (m.neighbors q).length = (m.neighbors start).length → start ≤ q

theorem BestLinked.zero (m : CouplingMap) : m.BestLinked 1 0 := by
  refine ⟨Nat.one_pos, fun q hq => ?_, fun q _ _ => Nat.zero_le q⟩
  rw [Nat.lt_one_iff.mp hq]

/-- One more qubit is best linked only if it has more neighbours than the best one so far. -/
theorem BestLinked.step {b : Nat} (h : m.BestLinked n b) :
    m.BestLinked (n + 1) (if (m.neighbors b).length < (m.neighbors n).length then n else b) := by
  have hlt := h.lt
  split
  next hmore =>
    refine ⟨Nat.lt_succ_self n, fun q hq => ?_, fun q hq heq => ?_⟩
    · rcases Nat.lt_succ_iff_lt_or_eq.mp hq with hq | rfl
      · exact (h.most q hq).trans hmore.le
      · exact Nat.le_refl _
    · rcases Nat.lt_succ_iff_lt_or_eq.mp hq with hq | rfl
      · have hle := h.most q hq
        omega
      · exact Nat.le_refl _
  next hmore =>
    refine ⟨Nat.lt_succ_of_lt hlt, fun q hq => ?_, fun q hq heq => ?_⟩
    · rcases Nat.lt_succ_iff_lt_or_eq.mp hq with hq | rfl
      · exact h.most q hq
      · exact Nat.le_of_not_lt hmore
    · rcases Nat.lt_succ_iff_lt_or_eq.mp hq with hq | rfl
      · exact h.first q hq heq
      · exact hlt.le

theorem getD_degrees (m : CouplingMap) (q : Nat) :
    (m.neighborTable.map (·.length)).getD q 0 = (m.neighbors q).length := by
  rw [← getD_neighborTable, Array.getD_eq_getD_getElem?, Array.getD_eq_getD_getElem?, Array.getElem?_map]
  cases m.neighborTable[q]? <;> rfl

/-- Placement starts at the best linked qubit of the device. -/
theorem exists_bestLinked (h : 0 < m.numQubits) : ∃ start, m.hub? = some start ∧ m.BestLinked m.numQubits start := by
  simp only [hub?, getD_degrees]
  generalize m.numQubits = n at h
  induction n, h using Nat.le_induction with
  | base => exact ⟨0, rfl, .zero m⟩
  | succ n _ ih =>
    obtain ⟨b, hb, hbest⟩ := ih
    rw [List.range_succ, List.foldl_concat, hb]
    exact ⟨_, (apply_ite some _ _ _).symm, hbest.step⟩

/-- Whether placement that starts at a qubit fills two lists of qubits in turn: the part of the map with the start,
nearest qubits first, and the other qubits by number. -/
structure FillsFrom (m : CouplingMap) (start : Nat) (component others : List Nat) : Prop where
  bestLinked : m.BestLinked m.numQubits start
  nodup : component.Nodup
  mem_component : ∀ q, q ∈ component ↔ q < m.numQubits ∧ m.Joined start q
  nearest : component.Pairwise fun p q =>
    ∃ d e, m.distance? start p = some d ∧ m.distance? start q = some e ∧ d ≤ e
  ascending : others.Pairwise (· < ·)
  mem_others : ∀ q, q ∈ others ↔ q < m.numQubits ∧ ¬ m.Joined start q

theorem BestLinked.fillsFrom (h : m.BestLinked m.numQubits start) :
    m.FillsFrom start (m.reached start) (absentBelow m.numQubits (m.reached start)) where
  bestLinked := h
  nodup := m.nodup_reached start
  mem_component _ := mem_reached h.lt
  nearest := m.pairwise_nearest start
  ascending := pairwise_absentBelow _ _
  mem_others q := by
    rw [mem_absentBelow, mem_reached h.lt]
    exact and_congr_right fun hq => not_congr (and_iff_right hq)

/-- Placement fills what is in reach of the best linked qubit, then the rest of the device by number. -/
theorem exists_fillOrder_eq (h : 0 < m.numQubits) : ∃ start, m.BestLinked m.numQubits start ∧
    m.fillOrder = m.reached start ++ absentBelow m.numQubits (m.reached start) := by
  obtain ⟨start, hhub, hbest⟩ := exists_bestLinked h
  refine ⟨start, hbest, ?_⟩
  rw [fillOrder, hhub]
  rfl

/-- The order of placement is one of all qubits. -/
theorem take_fillOrder_spec (h : size ≤ m.numQubits) : (m.fillOrder.take size).length = size ∧
    (m.fillOrder.take size).Nodup ∧ ∀ q ∈ m.fillOrder.take size, q < m.numQubits := by
  have hperm := m.perm_fillOrder
  refine ⟨?_, ?_, fun q hq => ?_⟩
  · rw [List.length_take, hperm.length_eq, List.length_range, Nat.min_eq_left h]
  · exact (hperm.nodup_iff.mpr List.nodup_range).sublist (List.take_sublist _ _)
  · exact List.mem_range.mp (hperm.mem_iff.mp (List.mem_of_mem_take hq))

end CouplingMap

end CircuitStages
