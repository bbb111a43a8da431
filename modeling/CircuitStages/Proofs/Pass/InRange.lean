import CircuitStages.Data.Node
import CircuitStages.Proofs.Pass.WellFormed

namespace CircuitStages

/-- Whether the sizes of a circuit are numbers that a size can be. -/
structure Circuit.InRange {α : Type} (c : Circuit α) : Prop where
  numQubits_le : c.numQubits ≤ Node.maxIndex
  numClbits_le : c.numClbits ≤ Node.maxIndex

theorem placedSize_le {l : Layout} {n numPhysical bound : Nat} (hn : n ≤ bound) (hphysical : numPhysical ≤ bound)
    (hl : ∀ e ∈ l.pairs, e.2 + 1 ≤ bound) : placedSize l n numPhysical ≤ bound := by
  refine Nat.max_le.mpr ⟨Nat.max_le.mpr ⟨hphysical, hn⟩, ?_⟩
  cases hp : l.maxPhysical? with
  | none => exact Nat.zero_le _
  | some p =>
    obtain ⟨e, he, rfl⟩ := List.mem_map.mp (List.max?_mem hp)
    exact hl e he

namespace Circuit

variable {c : Circuit Float} {l : Layout} {numPhysical : Nat}

theorem InRange.place (hc : c.InRange) (hphysical : numPhysical ≤ Node.maxIndex)
    (hl : ∀ e ∈ l.pairs, e.2 + 1 ≤ Node.maxIndex) :
    (Outcome.ofCircuit c (c.place l numPhysical)).circuit.InRange := by
  rw [Circuit.place]
  split
  · exact hc
  · exact ⟨placedSize_le hc.numQubits_le hphysical hl, hc.numClbits_le⟩

theorem InRange.route {router : CouplingMap → Nat → List (Instruction Float) → Except CircuitError (RouteState Float)}
    {map : Option CouplingMap} (hc : c.InRange) (hmap : ∀ m ∈ map, m.numQubits ≤ Node.maxIndex) :
    (routeOn router map c).circuit.InRange := by
  cases map with
  | none => exact ⟨hc.numQubits_le, hc.numClbits_le⟩
  | some m =>
    have hwide : (c.widen m).InRange := ⟨Nat.max_le.mpr ⟨hc.numQubits_le, hmap m rfl⟩, hc.numClbits_le⟩
    rw [routeOn]
    cases router m (c.widen m).numQubits (c.widen m).instructions with
    | error e => exact ⟨hwide.numQubits_le, hwide.numClbits_le⟩
    | ok s => exact ⟨hwide.numQubits_le, hwide.numClbits_le⟩

theorem InRange.ofInstructions (hc : c.InRange) (r : Except CircuitError (List (Instruction Float))) :
    (Outcome.ofInstructions c r).circuit.InRange := by
  cases r with
  | error e => exact ⟨hc.numQubits_le, hc.numClbits_le⟩
  | ok is => exact ⟨hc.numQubits_le, hc.numClbits_le⟩

end Circuit

namespace Pass

mutual

/-- The sizes that a pass asks for: those of devices, and one past each position of a layout. -/
def sizes : Pass → List Nat
  | optimizationLoop body _ => sizesAll body
  | setLayout layout numPhysical => numPhysical.toList ++ layout.pairs.map (·.2 + 1)
  | trivialLayout numPhysical => numPhysical.toList
  | denseLayout map => [map.numQubits]
  | basicRouting map | lookaheadRouting map => (map.map (·.numQubits)).toList
  | _ => []

def sizesAll : List Pass → List Nat
  | [] => []
  | p :: rest => p.sizes ++ sizesAll rest

end

/-- Whether all sizes that a pass asks for are numbers that a size can be. -/
def InRange (p : Pass) : Prop := ∀ n ∈ p.sizes, n ≤ Node.maxIndex

instance (p : Pass) : Decidable p.InRange := inferInstanceAs (Decidable (∀ n ∈ p.sizes, n ≤ Node.maxIndex))

variable {p : Pass} {ps body : List Pass} {rounds : Nat} {c : Circuit Float}

theorem inRange_optimizationLoop : (optimizationLoop body rounds).InRange ↔ ∀ p ∈ body, p.InRange := by
  have hall : sizesAll body = body.flatMap sizes := by
    induction body with
    | nil => rfl
    | cons p body ih => rw [sizesAll, ih, List.flatMap_cons]
  simp only [InRange, sizes, hall, List.mem_flatMap]
  exact ⟨fun h p hp n hn => h n ⟨p, hp, hn⟩, fun h n ⟨p, hp, hn⟩ => h p hp n hn⟩

theorem InRange.succ_le_of_setLayout {l : Layout} {numPhysical : Option Nat} (hp : (setLayout l numPhysical).InRange)
    {e : Nat × Nat} (he : e ∈ l.pairs) : e.2 + 1 ≤ Node.maxIndex :=
  hp (e.2 + 1) (List.mem_append_right _ (List.mem_map_of_mem he))

theorem inRange_run (hp : p.InRange) (hc : c.InRange) : (p.run c).circuit.InRange := by
  induction p using induction_on_loops generalizing c with
  | step p ih =>
    have hplace (l : Layout) (numPhysical : Option Nat) (hphysical : ∀ n ∈ numPhysical, n ≤ Node.maxIndex)
        (hl : ∀ e ∈ l.pairs, e.2 + 1 ≤ Node.maxIndex) :
        (Outcome.ofCircuit c (c.place l (numPhysical.getD c.numQubits))).circuit.InRange := by
      refine hc.place ?_ hl
      cases numPhysical with
      | none => exact hc.numQubits_le
      | some n => exact hphysical n rfl
    cases p with
    | cancelInverses | mergeRotations | removeResets | schedule =>
      rw [run]
      exact ⟨hc.numQubits_le, hc.numClbits_le⟩
    | marker label =>
      rw [run]
      exact hc
    | optimizationLoop body rounds =>
      rw [run]
      refine invariant_repeatShrinking (fun d hd => ?_) hc
      exact invariant_runAll (fun q hq e he => ih body rounds rfl q hq (inRange_optimizationLoop.mp hp q hq) he) hd
    | controlFlowCheck check =>
      rw [run]
      split
      · exact hc
      · exact hc
    | checkRouting map =>
      rw [run, Circuit.checkRouted]
      split
      · exact hc
      · exact ⟨hc.numQubits_le, hc.numClbits_le⟩
    | setLayout layout numPhysical =>
      rw [run]
      refine hplace layout numPhysical (fun n hn => hp n ?_) fun e he => hp.succ_le_of_setLayout he
      exact List.mem_append_left _ (Option.mem_toList.mpr hn)
    | trivialLayout numPhysical =>
      rw [run]
      refine hplace (.trivial c.numQubits) numPhysical (fun n hn => hp n (Option.mem_toList.mpr hn)) fun e he => ?_
      exact (Layout.lt_of_mem_trivial he).2.trans_le hc.numQubits_le
    | denseLayout map =>
      have hmap : map.numQubits ≤ Node.maxIndex := hp _ List.mem_cons_self
      rw [run]
      exact hc.place hmap fun e he => (Circuit.lt_of_mem_region he).trans_le hmap
    | basicRouting map | lookaheadRouting map =>
      rw [run]
      refine hc.route fun m hm => hp m.numQubits (Option.mem_toList.mpr ?_)
      rw [hm]
      rfl
    | basisTranslation basis =>
      cases basis with
      | none =>
        rw [run]
        exact hc
      | some names =>
        rw [run]
        exact hc.ofInstructions _
    | gateDirection | reduceWide =>
      rw [run]
      exact hc.ofInstructions _

/-- Runs passes one after the other, each on what the one before has left behind, even if it has failed. -/
def runEach (ps : List Pass) (c : Circuit Float) : Circuit Float := ps.foldl (fun d p => (p.run d).circuit) c

theorem invariant_runEach {P : Circuit Float → Prop} (hps : ∀ p ∈ ps, ∀ c, P c → P (p.run c).circuit) (hc : P c) :
    P (runEach ps c) := by
  induction ps generalizing c with
  | nil => exact hc
  | cons p ps ih =>
    obtain ⟨hp, hrest⟩ := List.forall_mem_cons.mp hps
    exact ih hrest (hp c hc)

end Pass

end CircuitStages
