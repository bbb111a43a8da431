import CircuitStages.Proofs.Tables.Stored

namespace CircuitStages

variable {m : CouplingMap} {n : Nat}

namespace CouplingMap

section Gauge

variable {a b : Nat} {gauge : Nat → Nat}

/-- A path is at least as long as the gauge has grown along it. -/
theorem gauge_le_of_leads (step : ∀ p q, m.isLinked p q → gauge q ≤ gauge p + 1) {path : List Nat}
    (h : Leads m a b path) : gauge b + 1 ≤ gauge a + path.length := by
  induction path using List.reverseRecOn generalizing b with
  | nil => cases h.first
  | append_singleton path q ih =>
    rw [List.length_append, List.length_singleton]
    by_cases hne : path = []
    · subst hne
      obtain rfl : q = a := by simpa using h.first
      obtain rfl : q = b := by simpa using h.last
      simp
    · obtain ⟨rfl, p, hp, hlink⟩ := h.exists_of_concat hne
      have hpath := ih hp
      have hlast := step p q hlink
      omega

/-- Where some link always leads one nearer, a path leads from the start to every qubit. -/
theorem exists_leads_of_gauge (start : gauge a = 0)
    (nearer : ∀ q < n, q ≠ a → ∃ p < n, m.isLinked p q ∧ gauge p + 1 = gauge q) (hb : b < n) :
    ∃ path, Leads m a b path ∧ path.length = gauge b + 1 := by
  induction hg : gauge b generalizing b with
  | zero =>
    by_cases hne : b = a
    · exact ⟨[a], hne ▸ .single m a, rfl⟩
    · obtain ⟨p, -, -, hp⟩ := nearer b hb hne
      omega
  | succ k ih =>
    have hne : b ≠ a := by
      rintro rfl
      omega
    obtain ⟨p, hlt, hlink, hp⟩ := nearer b hb hne
    obtain ⟨path, hpath, hlength⟩ := ih hlt (by omega)
    exact ⟨path ++ [b], hpath.concat hlink, by rw [List.length_append, hlength, List.length_singleton]⟩

/-- Distances from a qubit are what is zero there, changes by at most one along every link, and is one less at some
neighbour of every other qubit. -/
theorem distance?_eq_of_gauge (hsize : m.numQubits = n) (ha : a < n) (start : gauge a = 0)
    (step : ∀ p q, m.isLinked p q → gauge q ≤ gauge p + 1)
    (nearer : ∀ q < n, q ≠ a → ∃ p < n, m.isLinked p q ∧ gauge p + 1 = gauge q) (hb : b < n) :
    m.distance? a b = some (gauge b) := by
  obtain ⟨path, hpath, hlength⟩ := exists_leads_of_gauge start nearer hb
  refine distance?_eq_some_iff.mpr ⟨hsize ▸ ha, hsize ▸ hb, ⟨path, hpath, hlength⟩, ?_⟩
  rintro k ⟨other, hother, hk⟩
  have hle := gauge_le_of_leads step hother
  omega

end Gauge

theorem numQubits_addEdges {edges : List (Nat × Nat)} (h : ∀ e ∈ edges, e.1 < n ∧ e.2 < n) (hsize : m.numQubits = n) :
    (m.addEdges edges).numQubits = n :=
  Nat.le_antisymm (numQubits_addEdges_le hsize.le h) (hsize ▸ m.le_numQubits_addEdges edges)

theorem numQubits_linear (n : Nat) : (linear n).numQubits = n := by
  refine numQubits_addEdges ?_ rfl
  simp only [List.mem_flatMap, List.mem_range, List.mem_cons, List.not_mem_nil, or_false]
  rintro e ⟨i, hi, rfl | rfl⟩
  · exact ⟨by omega, by omega⟩
  · exact ⟨by omega, by omega⟩

/-- A chain links each qubit to the next one, both ways. -/
theorem mem_linear {e : Nat × Nat} :
    e ∈ (linear n).edges ↔ (e.2 = e.1 + 1 ∧ e.2 < n) ∨ (e.1 = e.2 + 1 ∧ e.1 < n) := by
  obtain ⟨p, q⟩ := e
  rw [linear, mem_addEdges]
  simp only [isolated, List.not_mem_nil, false_or, List.mem_flatMap, List.mem_range, List.mem_cons, or_false,
    Prod.mk.injEq]
  constructor
  · rintro ⟨i, hi, ⟨rfl, rfl⟩ | ⟨rfl, rfl⟩⟩
    · exact .inl ⟨rfl, by omega⟩
    · exact .inr ⟨rfl, by omega⟩
  · rintro (⟨rfl, hq⟩ | ⟨rfl, hp⟩)
    · exact ⟨p, by omega, .inl ⟨rfl, rfl⟩⟩
    · exact ⟨q, by omega, .inr ⟨rfl, rfl⟩⟩

theorem numQubits_ring (n : Nat) : (ring n).numQubits = n := by
  rw [ring]
  split
  · refine numQubits_addEdges ?_ (numQubits_linear n)
    simp only [List.mem_cons, List.not_mem_nil, or_false]
    rintro e (rfl | rfl)
    · exact ⟨by omega, by omega⟩
    · exact ⟨by omega, by omega⟩
  · exact numQubits_linear n

/-- A ring has the links of a chain, and from three qubits on those between its ends. -/
theorem mem_ring {e : Nat × Nat} : e ∈ (ring n).edges ↔
    e ∈ (linear n).edges ∨ (2 < n ∧ ((e.1 = n - 1 ∧ e.2 = 0) ∨ (e.1 = 0 ∧ e.2 = n - 1))) := by
  rw [ring]
  split
  next h =>
    rw [mem_addEdges, List.mem_cons, List.mem_singleton, Prod.ext_iff, Prod.ext_iff, and_iff_right h]
  next h => rw [or_iff_left (fun hends => h hends.1)]

theorem mem_full {e : Nat × Nat} : e ∈ (full n).edges ↔ e.1 ≠ e.2 ∧ e.1 < n ∧ e.2 < n := by
  obtain ⟨p, q⟩ := e
  simp only [full, List.mem_flatMap, List.mem_map, List.mem_filter, List.mem_range, bne_iff_ne, Prod.mk.injEq]
  constructor
  · rintro ⟨a, ha, b, ⟨hb, hne⟩, rfl, rfl⟩
    exact ⟨Ne.symm hne, ha, hb⟩
  · rintro ⟨hne, hp, hq⟩
    exact ⟨p, hp, q, ⟨hq, Ne.symm hne⟩, rfl, rfl⟩

theorem numQubits_star (n : Nat) : (star n).numQubits = n := by
  refine numQubits_addEdges ?_ rfl
  simp only [List.mem_flatMap, List.mem_range, List.mem_cons, List.not_mem_nil, or_false]
  rintro e ⟨i, hi, rfl | rfl⟩
  · exact ⟨by omega, by omega⟩
  · exact ⟨by omega, by omega⟩

/-- A star links qubit `0` to every other qubit, both ways. -/
theorem mem_star {e : Nat × Nat} :
    e ∈ (star n).edges ↔ e.1 ≠ e.2 ∧ (e.1 = 0 ∨ e.2 = 0) ∧ e.1 < n ∧ e.2 < n := by
  obtain ⟨p, q⟩ := e
  rw [star, mem_addEdges]
  simp only [isolated, List.not_mem_nil, false_or, List.mem_flatMap, List.mem_range, List.mem_cons, or_false,
    Prod.mk.injEq]
  constructor
  · rintro ⟨i, hi, ⟨rfl, rfl⟩ | ⟨rfl, rfl⟩⟩
    · exact ⟨by omega, .inl rfl, by omega, by omega⟩
    · exact ⟨by omega, .inr rfl, by omega, by omega⟩
  · rintro ⟨hne, rfl | rfl, hp, hq⟩
    · exact ⟨q - 1, by omega, .inl ⟨rfl, by omega⟩⟩
    · exact ⟨p - 1, by omega, .inr ⟨by omega, rfl⟩⟩

end CouplingMap

namespace StoredMap

/-- A map of `n` qubits, none of them linked to itself, whose links all go both ways, and whose table gives the
distances `d`. -/
structure HasMetric (x : StoredMap) (n : Nat) (d : Nat → Nat → Nat) : Prop where
  numQubits_eq : x.map.numQubits = n
  isSymmetric : x.map.isSymmetric
  selfLoops_eq : x.map.selfLoops = []
  distance?_eq : ∀ i < n, ∀ j < n, x.distance? i j = some (d i j)

/-- What has to be known of the links of a map for its metric, where a relation says which qubits are linked. -/
theorem hasMetric_of_links {d : Nat → Nat → Nat} (linked : Nat → Nat → Prop) (hsize : m.numQubits = n)
    (hlinks : ∀ e, e ∈ m.edges ↔ linked e.1 e.2) (symm : ∀ p q, linked p q → linked q p) (irrefl : ∀ p, ¬ linked p p)
    (self : ∀ i < n, d i i = 0) (step : ∀ i < n, ∀ p q, linked p q → d i q ≤ d i p + 1)
    (nearer : ∀ i < n, ∀ q < n, q ≠ i → ∃ p, linked p q ∧ d i p + 1 = d i q) : m.stored.HasMetric n d := by
  have hlinked (p q : Nat) : m.isLinked p q ↔ linked p q := by
    rw [CouplingMap.isLinked_iff, hlinks, hlinks]
    exact or_iff_left_of_imp (symm q p)
  have hsymm : m.isSymmetric := by
    refine List.all_eq_true.mpr fun e he => ?_
    rw [CouplingMap.hasEdge_iff, hlinks]
    exact symm _ _ ((hlinks e).mp he)
  have hloops : m.selfLoops = [] := by
    refine List.map_eq_nil_iff.mpr (List.filter_eq_nil_iff.mpr fun e he hloop => ?_)
    have hself := (hlinks e).mp he
    rw [beq_iff_eq.mp hloop] at hself
    exact irrefl _ hself
  refine ⟨hsize, hsymm, hloops, fun i hi j hj => ?_⟩
  rw [distance?_stored]
  refine CouplingMap.distance?_eq_of_gauge hsize hi (self i hi) (fun p q h => step i hi p q ((hlinked p q).mp h)) ?_ hj
  intro q hq hne
  obtain ⟨p, hlink, hp⟩ := nearer i hi q hq hne
  have hlink := (hlinked p q).mpr hlink
  exact ⟨p, hsize ▸ (CouplingMap.lt_of_isLinked hlink).1, hlink, hp⟩

theorem hasMetric_linear (n : Nat) :
    (CouplingMap.linear n).stored.HasMetric n fun i j => ((i : Int) - j).natAbs := by
  refine hasMetric_of_links (fun p q => (q = p + 1 ∧ q < n) ∨ (p = q + 1 ∧ p < n)) (CouplingMap.numQubits_linear n)
    (fun e => CouplingMap.mem_linear) ?_ ?_ ?_ ?_ ?_
  · intro p q h
    exact h.symm
  · intro p h
    omega
  · intro i hi
    omega
  · intro i hi p q h
    omega
  · intro i hi q hq hne
    rcases Nat.lt_or_gt_of_ne hne with hlt | hgt
    · exact ⟨q + 1, .inr ⟨rfl, by omega⟩, by omega⟩
    · exact ⟨q - 1, .inl ⟨by omega, hq⟩, by omega⟩

/-- The way round a ring is the shorter one. -/
theorem hasMetric_ring (n : Nat) :
    (CouplingMap.ring n).stored.HasMetric n fun i j =>
      min ((i : Int) - j).natAbs (n - ((i : Int) - j).natAbs) := by
  refine hasMetric_of_links (fun p q => ((q = p + 1 ∧ q < n) ∨ (p = q + 1 ∧ p < n)) ∨
    (2 < n ∧ ((p = n - 1 ∧ q = 0) ∨ (p = 0 ∧ q = n - 1)))) (CouplingMap.numQubits_ring n)
    (fun e => CouplingMap.mem_ring.trans (or_congr_left CouplingMap.mem_linear)) ?_ ?_ ?_ ?_ ?_
  · intro p q h
    omega
  · intro p h
    omega
  · intro i hi
    omega
  · intro i hi p q h
    omega
  · intro i hi q hq hne
    -- From `q` the shorter way goes down or up, and perhaps over the link between the ends.
    by_cases hdown : i < q ↔ 2 * ((i : Int) - q).natAbs ≤ n
    · by_cases hzero : q = 0
      · exact ⟨n - 1, by omega, by omega⟩
      · exact ⟨q - 1, by omega, by omega⟩
    · by_cases hlast : q = n - 1
      · exact ⟨0, by omega, by omega⟩
      · exact ⟨q + 1, by omega, by omega⟩

theorem hasMetric_full (n : Nat) :
    (CouplingMap.full n).stored.HasMetric n fun i j => if i = j then 0 else 1 := by
  refine hasMetric_of_links (fun p q => p ≠ q ∧ p < n ∧ q < n) rfl (fun e => CouplingMap.mem_full) ?_ ?_ ?_ ?_ ?_
  · intro p q h
    exact ⟨h.1.symm, h.2.2, h.2.1⟩
  · intro p h
    exact h.1 rfl
  · intro i hi
    exact if_pos rfl
  · intro i hi p q h
    split <;> omega
  · intro i hi q hq hne
    exact ⟨i, ⟨hne.symm, hi, hq⟩, by rw [if_pos rfl, if_neg hne.symm]⟩

theorem hasMetric_star (n : Nat) :
    (CouplingMap.star n).stored.HasMetric n fun i j => if i = j then 0 else if i = 0 ∨ j = 0 then 1 else 2 := by
  refine hasMetric_of_links (fun p q => p ≠ q ∧ (p = 0 ∨ q = 0) ∧ p < n ∧ q < n) (CouplingMap.numQubits_star n)
    (fun e => CouplingMap.mem_star) ?_ ?_ ?_ ?_ ?_
  · intro p q h
    exact ⟨h.1.symm, h.2.1.symm, h.2.2.2, h.2.2.1⟩
  · intro p h
    exact h.1 rfl
  · intro i hi
    exact if_pos rfl
  · intro i hi p q h
    split_ifs <;> omega
  · intro i hi q hq hne
    by_cases hcenter : i = 0 ∨ q = 0
    · refine ⟨i, ⟨hne.symm, hcenter, hi, hq⟩, ?_⟩
      rw [if_pos rfl, if_neg hne.symm, if_pos hcenter]
    · -- Both are rays, so the way leads over the center.
      refine ⟨0, ⟨by omega, .inl rfl, by omega, hq⟩, ?_⟩
      rw [if_neg (by omega), if_pos (.inr rfl), if_neg hne.symm, if_neg hcenter]

/-- For every size the four topologies are built without a fault. They have exactly the qubits asked for, all links go
both ways and none leads from a qubit to itself, and the tables of distances hold the difference of the numbers for a
chain, the shorter way round for a ring, one link between any two qubits of a complete map, and in a star one link from
or to qubit `0` and two otherwise. -/
theorem standard_metrics (n : Nat) :
    (∃ x, linear? n = some x ∧ x.map = .linear n ∧ x.HasMetric n fun i j => ((i : Int) - j).natAbs) ∧
    (∃ x, ring? n = some x ∧ x.map = .ring n ∧
      x.HasMetric n fun i j => min ((i : Int) - j).natAbs (n - ((i : Int) - j).natAbs)) ∧
    (∃ x, full? n = some x ∧ x.map = .full n ∧ x.HasMetric n fun i j => if i = j then 0 else 1) ∧
    (∃ x, star? n = some x ∧ x.map = .star n ∧
      x.HasMetric n fun i j => if i = j then 0 else if i = 0 ∨ j = 0 then 1 else 2) :=
  ⟨⟨_, linear?_eq n, rfl, hasMetric_linear n⟩, ⟨_, ring?_eq n, rfl, hasMetric_ring n⟩,
    ⟨_, full?_eq n, rfl, hasMetric_full n⟩, ⟨_, star?_eq n, rfl, hasMetric_star n⟩⟩

end StoredMap

end CircuitStages
