import CircuitStages.Proofs.Ascending
import CircuitStages.Proofs.Stage.Assembly
import Mathlib.Data.Finset.Card

namespace CircuitStages

/-- A call that registers a builder: under a given method, or as a plugin under its own name. -/
inductive Registration where
  | builder (kind : StageKind) (method : String) (build : StageBuilder)
  | plugin (kind : StageKind) (added : StagePlugin)

/-- The kind, the method and the builder that a call places. -/
def Registration.entry : Registration → StageKind × String × StageBuilder
  | .builder kind method build => (kind, method, build)
  | .plugin kind added => (kind, added.name, added.build)

/-- The pairs that a history uses. -/
def usedPairs (placed : List (StageKind × String × StageBuilder)) : List (StageKind × String) :=
  placed.map fun e => (e.1, e.2.1)

/-- The builder placed last under a kind and method. -/
def latest? (placed : List (StageKind × String × StageBuilder)) (kind : StageKind) (method : String) :
    Option StageBuilder :=
  (placed.reverse.find? fun e => (e.1, e.2.1) = (kind, method)).map (·.2.2)

section Latest

variable {placed before after : List (StageKind × String × StageBuilder)} {kind : StageKind} {method : String}
  {build : StageBuilder}

theorem latest?_concat (placed : List (StageKind × String × StageBuilder)) (e : StageKind × String × StageBuilder)
    (kind : StageKind) (method : String) : latest? (placed ++ [e]) kind method =
      if (kind, method) = (e.1, e.2.1) then some e.2.2 else latest? placed kind method := by
  rw [latest?, List.reverse_concat, List.find?_cons]
  by_cases h : (e.1, e.2.1) = (kind, method)
  · rw [decide_eq_true h, if_pos h.symm]
    rfl
  · rw [decide_eq_false h, if_neg (Ne.symm h)]
    rfl

theorem isSome_latest? : (latest? placed kind method).isSome ↔ (kind, method) ∈ usedPairs placed := by
  simp [latest?, usedPairs, List.find?_isSome]

theorem latest?_of_last (h : (kind, method) ∉ usedPairs after) :
    latest? (before ++ (kind, method, build) :: after) kind method = some build := by
  have hafter : (after.reverse.find? fun e => (e.1, e.2.1) = (kind, method)) = none := by
    refine List.find?_eq_none.mpr fun e he heq => h (List.mem_map.mpr ⟨e, List.mem_reverse.mp he, ?_⟩)
    exact of_decide_eq_true heq
  rw [latest?, List.reverse_append, List.reverse_cons, List.append_assoc, List.find?_append, hafter]
  simp

end Latest

namespace Registry

variable {r : Registry} {kind : StageKind} {method : String} {placed : List (StageKind × String × StageBuilder)}

/-- The registry after a call, which may be of either form. -/
def call (r : Registry) : Registration → Registry
  | .builder kind method build => (r.register kind method build).1
  | .plugin kind added => (r.registerPlugin kind added).1

/-- The registry after calls in turn. -/
def after (r : Registry) (calls : List Registration) : Registry := calls.foldl call r

/-- The registry that holds the given stages, later ones in place of earlier ones. -/
def ofStages (placed : List (StageKind × String × StageBuilder)) : Registry :=
  placed.foldl (fun r e => r.insert e.1 e.2.1 e.2.2) .empty

theorem call_eq_insert (r : Registry) (c : Registration) : r.call c = r.insert c.entry.1 c.entry.2.1 c.entry.2.2 := by
  cases c <;> rfl

theorem after_ofStages (placed : List (StageKind × String × StageBuilder)) (calls : List Registration) :
    (ofStages placed).after calls = ofStages (placed ++ calls.map (·.entry)) := by
  rw [after, ofStages, ofStages, List.foldl_append, List.foldl_map]
  congr 1
  funext r c
  exact call_eq_insert r c

/-- What a history leaves behind under a pair is the builder that it places there last. -/
theorem builder?_ofStages (placed : List (StageKind × String × StageBuilder)) (kind : StageKind) (method : String) :
    (ofStages placed).builder? kind method = latest? placed kind method := by
  induction placed using List.reverseRecOn with
  | nil => rfl
  | append_singleton placed e ih =>
    rw [latest?_concat, ← ih, ← builder?_insert, ofStages, List.foldl_concat]
    rfl

theorem contains_iff_mem_entries : r.contains kind method ↔ (kind, method) ∈ r.entries.map (·.1) := by
  rw [contains, builder?, List.lookup_isSome_iff]
  constructor
  · rintro ⟨e, he, hkey⟩
    exact List.mem_map.mpr ⟨e, he, (eq_of_beq hkey).symm⟩
  · intro h
    obtain ⟨e, he, hkey⟩ := List.mem_map.mp h
    exact ⟨e, he, beq_iff_eq.mpr hkey.symm⟩

theorem contains_ofStages : (ofStages placed).contains kind method ↔ (kind, method) ∈ usedPairs placed := by
  rw [contains, builder?_ofStages, isSome_latest?]

theorem mem_methods : method ∈ r.methods kind ↔ r.contains kind method := by
  rw [contains_iff_mem_entries, methods, mem_ascendingTexts]
  simp only [List.mem_map, List.mem_filter, beq_iff_eq]
  constructor
  · rintro ⟨e, ⟨he, rfl⟩, rfl⟩
    exact ⟨e, he, rfl⟩
  · rintro ⟨e, he, hkey⟩
    exact ⟨e, ⟨he, congrArg Prod.fst hkey⟩, congrArg Prod.snd hkey⟩

theorem pairwise_methods (r : Registry) (kind : StageKind) : (r.methods kind).Pairwise (· < ·) :=
  (pairwise_ascending textBefore_trans _).imp of_decide_eq_true

/-- However the entries are listed, sorting the method names of a kind gives its methods: none occurs twice. -/
theorem methods_eq_mergeSort {listing : List ((StageKind × String) × StageBuilder)} (h : listing.Perm r.entries)
    (kind : StageKind) : r.methods kind = ((listing.filter (·.1.1 == kind)).map (·.1.2)).mergeSort := by
  have hkeys : ((listing.filter (·.1.1 == kind)).map (·.1)).Nodup :=
    (List.filter_sublist.map _).nodup ((h.map (·.1)).nodup_iff.mpr r.distinct)
  have hkind : ∀ key ∈ (listing.filter (·.1.1 == kind)).map (·.1), key.1 = kind := by
    intro key hkey
    obtain ⟨e, he, rfl⟩ := List.mem_map.mp hkey
    exact eq_of_beq (List.mem_filter.mp he).2
  have hnodup : ((listing.filter (·.1.1 == kind)).map (·.1.2)).Nodup := by
    have := hkeys.map_on (f := Prod.snd) fun a ha b hb hab => Prod.ext ((hkind a ha).trans (hkind b hb).symm) hab
    rwa [List.map_map] at this
  have hmem (m : String) : m ∈ (listing.filter (·.1.1 == kind)).map (·.1.2) ↔ m ∈ r.methods kind := by
    rw [methods, mem_ascendingTexts]
    exact ((h.filter _).map _).mem_iff
  refine List.Perm.eq_of_pairwise (fun a b _ _ hab hba => String.le_antisymm hab hba)
    ((pairwise_methods r kind).imp fun hab => String.not_lt.mp (String.lt_asymm hab)) ?_ ?_
  · refine (List.pairwise_mergeSort (fun a b c => ?_) (fun a b => ?_) _).imp of_decide_eq_true
    · simpa only [decide_eq_true_eq] using String.le_trans
    · simpa only [Bool.or_eq_true, decide_eq_true_eq] using String.le_total a b
  · exact ((List.perm_ext_iff_of_nodup ((pairwise_methods r kind).imp String.ne_of_lt) hnodup).mpr
      fun m => (hmem m).symm).trans (List.mergeSort_perm _ _).symm

/-- A lookup fails to resolve where there is no builder, and tells the methods of the kind. -/
theorem lookup_eq_resolution_iff {c : Config} {level : Nat} {e : ResolutionError} :
    r.lookup kind method c level = .error (.resolution e) ↔
      ¬ r.contains kind method ∧ e = ⟨kind, method, r.methods kind⟩ := by
  rw [lookup, contains]
  cases r.builder? kind method with
  | none => simp [eq_comm]
  | some build =>
    refine iff_of_false (fun h => ?_) (fun h => h.1 rfl)
    dsimp only at h
    cases hbuild : build c level <;> rw [hbuild] at h <;> cases h

theorem lookup_eq_of_builder? {build : StageBuilder} (h : r.builder? kind method = some build) (c : Config)
    (level : Nat) : r.lookup kind method c level = (build c level).mapError .config := by
  rw [lookup, h]

/-- Two registries with the same builder under a pair give the same stage for it, or none at all. -/
theorem lookup_congr {r' : Registry} (h : r.builder? kind method = r'.builder? kind method) (c : Config)
    (level : Nat) : (r.lookup kind method c level).toOption = (r'.lookup kind method c level).toOption ∧
      (r.contains kind method → r.lookup kind method c level = r'.lookup kind method c level) := by
  rw [lookup, lookup, contains, ← h]
  cases r.builder? kind method with
  | none => exact ⟨rfl, fun hcontains => absurd hcontains Bool.false_ne_true⟩
  | some build => exact ⟨rfl, fun _ => rfl⟩

theorem builder?_after (r : Registry) {calls : List Registration}
    (h : ∀ c ∈ calls, (c.entry.1, c.entry.2.1) ≠ (kind, method)) :
    (r.after calls).builder? kind method = r.builder? kind method := by
  rw [after]
  induction calls generalizing r with
  | nil => rfl
  | cons c calls ih =>
    obtain ⟨hc, hcalls⟩ := List.forall_mem_cons.mp h
    rw [List.foldl_cons, ih _ hcalls, call_eq_insert, builder?_insert, if_neg hc.symm]

theorem size_ofStages (placed : List (StageKind × String × StageBuilder)) :
    (ofStages placed).size = (usedPairs placed).toFinset.card := by
  have hkeys : ((ofStages placed).entries.map (·.1)).toFinset = (usedPairs placed).toFinset := by
    ext ⟨kind, method⟩
    rw [List.mem_toFinset, List.mem_toFinset, ← contains_iff_mem_entries, contains_ofStages]
  rw [← hkeys, List.toFinset_card_of_nodup (ofStages placed).distinct, List.length_map, size]

/-- A registry answers every query, and every further call, from the builders that a history has placed. -/
structure Reflects (r : Registry) (placed : List (StageKind × String × StageBuilder)) : Prop where
  /-- Nothing is found exactly under the pairs that were never used; then the methods of the kind are told. -/
  lookup_eq_resolution_iff : ∀ kind method c level e, r.lookup kind method c level = .error (.resolution e) ↔
    (kind, method) ∉ usedPairs placed ∧ e = ⟨kind, method, r.methods kind⟩
  /-- Under any other pair the last builder gives the stage, or its own error. -/
  lookup_eq_latest : ∀ before kind method build after, placed = before ++ (kind, method, build) :: after →
    (kind, method) ∉ usedPairs after → ∀ c level, r.lookup kind method c level = (build c level).mapError .config
  contains_iff : ∀ kind method, r.contains kind method ↔ (kind, method) ∈ usedPairs placed
  size_eq : r.size = (usedPairs placed).toFinset.card
  isEmpty_iff : r.isEmpty ↔ (usedPairs placed).toFinset = ∅
  register_replaces : ∀ kind method build,
    (r.register kind method build).2 = decide ((kind, method) ∈ usedPairs placed)
  registerPlugin_replaces : ∀ kind added,
    (r.registerPlugin kind added).2 = if (kind, added.name) ∈ usedPairs placed then some added.name else none
  methods_ascend : ∀ kind, (r.methods kind).Pairwise (· < ·)
  mem_methods_iff : ∀ kind method, method ∈ r.methods kind ↔ (kind, method) ∈ usedPairs placed
  /-- The methods are the names of the kind's entries, sorted, in whatever order the entries are listed. -/
  methods_eq_mergeSort : ∀ (listing : List ((StageKind × String) × StageBuilder)) kind, listing.Perm r.entries →
    r.methods kind = ((listing.filter (·.1.1 == kind)).map (·.1.2)).mergeSort
  /-- Calls under other pairs leave the stage of a pair as it is, or absent. -/
  lookup_after : ∀ calls kind method c level, (∀ d ∈ calls, (d.entry.1, d.entry.2.1) ≠ (kind, method)) →
    ((r.after calls).lookup kind method c level).toOption = (r.lookup kind method c level).toOption ∧
    (r.contains kind method → (r.after calls).lookup kind method c level = r.lookup kind method c level)

theorem reflects_ofStages (placed : List (StageKind × String × StageBuilder)) : (ofStages placed).Reflects placed where
  lookup_eq_resolution_iff kind method c level e := by rw [lookup_eq_resolution_iff, contains_ofStages]
  lookup_eq_latest before kind method build after hplaced hafter c level := by
    subst hplaced
    exact lookup_eq_of_builder? ((builder?_ofStages _ kind method).trans (latest?_of_last hafter)) c level
  contains_iff kind method := contains_ofStages
  size_eq := size_ofStages placed
  isEmpty_iff := by
    rw [← Finset.card_eq_zero, ← size_ofStages, size, isEmpty, List.isEmpty_iff, List.length_eq_zero_iff]
  register_replaces kind method build := Bool.eq_iff_iff.mpr (contains_ofStages.trans decide_eq_true_iff.symm)
  registerPlugin_replaces kind added := if_congr contains_ofStages rfl rfl
  methods_ascend kind := pairwise_methods _ kind
  mem_methods_iff kind method := mem_methods.trans contains_ofStages
  methods_eq_mergeSort listing kind h := methods_eq_mergeSort h kind
  lookup_after calls kind method c level h := by
    have := lookup_congr (builder?_after (ofStages placed) h).symm c level
    exact ⟨this.1.symm, fun hcontains => (this.2 hcontains).symm⟩

/-- After any calls, on an empty registry or on the built-in one, the registry answers from the builders placed so far:
the last one under a pair gives its stage, and the pairs used determine the rest. -/
theorem last_registration_wins (calls : List Registration) :
    (empty.after calls).Reflects (calls.map (·.entry)) ∧
    (builtin.after calls).Reflects (builtinStages ++ calls.map (·.entry)) := by
  have hempty : empty.after calls = ofStages (calls.map (·.entry)) := after_ofStages [] calls
  have hbuiltin : builtin.after calls = ofStages (builtinStages ++ calls.map (·.entry)) :=
    after_ofStages builtinStages calls
  rw [hempty, hbuiltin]
  exact ⟨reflects_ofStages _, reflects_ofStages _⟩

/-- The name of a method of another kind is free, and registering it leaves that other method alone. -/
example (build : StageBuilder) :
    (builtin.register .init "trivial" build).2 = false ∧ (builtin.register .layout "trivial" build).2 = true ∧
      (builtin.insert .init "trivial" build).builder? .layout "trivial" = builtin.builder? .layout "trivial" :=
  ⟨rfl, rfl, rfl⟩

end Registry

end CircuitStages
