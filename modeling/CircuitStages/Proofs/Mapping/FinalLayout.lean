import CircuitStages.Proofs.Mapping.InPlace

namespace CircuitStages

namespace Layout

/-- A layout is fixed by the positions that it gives. -/
theorem eq_of_physical?_eq {l k : Layout} (h : ∀ v, l.physical? v = k.physical? v) : l = k := by
  apply eq_of_mem_iff
  rintro ⟨v, p⟩
  rw [← physical?_eq_some_iff, ← physical?_eq_some_iff, h]

end Layout

/-- Steps that insert nothing leave all wires where they are. -/
theorem wiresAfter_map_routed {α : Type} (w : Equiv.Perm Nat) (is : List (Instruction α)) :
    wiresAfter w (is.map .routed) = w := by
  induction is with
  | nil => rfl
  | cons i is ih => exact ih

/-- Both routers know where the wires are in the end. -/
theorem Router.tracks_of_route {α : Type} {m : CouplingMap} {n : Nat} {is : List (Instruction α)} {s : RouteState α}
    {r : Router} (h : r.route m n is = .ok s) (hlt : ∀ i ∈ is, ∀ q ∈ i.qubits, q < n)
    (hnd : ∀ i ∈ is, i.qubits.Nodup) : s.Tracks n := by
  cases r with
  | basic => exact (RouteState.blocks_of_foldlM_routeNext h (RouteState.tracks_start n) hlt hnd).1
  | lookahead =>
    obtain ⟨order, waiting, hreaches, -⟩ := reaches_of_routeLookahead hlt hnd h
    exact hreaches.tracks

/-- The passes that make up the routing stages. -/
inductive RoutingPass where
  | route (r : Router) (map : Option CouplingMap)
  | check (map : Option CouplingMap)

namespace RoutingPass

def pass : RoutingPass → Pass
  | route .basic map => .basicRouting map
  | route .lookahead map => .lookaheadRouting map
  | check map => .checkRouting map

/-- Whether a pass may insert swaps: only a router on a coupling map does. -/
def MayMove : RoutingPass → Prop
  | route _ (some _) => True
  | _ => False

/-- Whether these are the steps that a pass takes on a circuit. -/
def Takes (c : Circuit Float) (steps : List (RouteStep Float)) : RoutingPass → Prop
  | route r (some m) => ∃ s, r.route m (c.widen m).numQubits c.instructions = .ok s ∧ steps = s.steps.reverse
  | _ => steps = c.instructions.map .routed

end RoutingPass

/-- Whether the result has a final placement, and this is the initial one followed by the way of each wire. Without an
initial one, every qubit starts at its own number. -/
def RecordsWay (c out : Circuit Float) (steps : List (RouteStep Float)) : Prop :=
  ∃ l, out.finalLayout = some l ∧
    ∀ v, l.physical? v = ((c.layout.getD (.trivial out.numQubits)).physical? v).map (wiresAfter 1 steps)

/-- Keeping the placement records it if there is one. -/
theorem recordsWay_keepPlacement_iff {c : Circuit Float} : RecordsWay c c.keepPlacement (c.instructions.map .routed) ↔
    c.layout.isSome ∨ c.finalLayout = some (.trivial c.numQubits) := by
  have hway (l : Layout) : (∀ v, l.physical? v = (c.initialLayout.physical? v).map
      (wiresAfter 1 (c.instructions.map .routed))) ↔ l = c.initialLayout := by
    rw [wiresAfter_map_routed]
    constructor
    · intro h
      apply Layout.eq_of_physical?_eq
      intro v
      simpa using h v
    · rintro rfl v
      simp
  have hrecords : RecordsWay c c.keepPlacement (c.instructions.map .routed) ↔
      (c.layout <|> c.finalLayout) = some c.initialLayout := by
    constructor
    · rintro ⟨l, hl, h⟩
      rw [← (hway l).mp h]
      exact hl
    · intro h
      exact ⟨_, h, (hway _).mpr rfl⟩
  rw [hrecords, Circuit.initialLayout]
  cases c.layout with
  | none => simp
  | some l => simp

namespace RoutingPass

theorem takes_iff {c : Circuit Float} {p : RoutingPass} (hp : ¬ p.MayMove) {steps : List (RouteStep Float)} :
    p.Takes c steps ↔ steps = c.instructions.map .routed := by
  match p, hp with
  | route _ none, _ => exact Iff.rfl
  | route _ (some _), hp => exact absurd trivial hp
  | check _, _ => exact Iff.rfl

/-- A pass that moves nothing keeps the circuit and its placement. -/
theorem keepPlacement_of_run {c out : Circuit Float} {p : RoutingPass} (hp : ¬ p.MayMove)
    (h : p.pass.run c = .success out) : c.keepPlacement = out := by
  match p, hp with
  | route .basic none, _ | route .lookahead none, _ | check none, _ =>
    rw [pass, Pass.run] at h
    cases h
    rfl
  | route _ (some _), hp => exact absurd trivial hp
  | check (some m), _ => exact (Pass.checkRouting_eq_success_iff.mp h).2

/-- A router on a coupling map records where its swaps lead. -/
theorem recordsWay_of_route {c out : Circuit Float} (hc : c.WellFormed) {r : Router} {m : CouplingMap}
    (h : (r.pass m).run c = .success out) : ∃ s, r.route m (c.widen m).numQubits c.instructions = .ok s ∧
      out.instructions = s.steps.reverse.map RouteStep.toInstruction ∧ RecordsWay c out s.steps.reverse := by
  rw [r.run_pass, Outcome.ofRoute_eq_success] at h
  obtain ⟨s, hs, rfl⟩ := h
  have htracks := Router.tracks_of_route hs (hc.qubits_lt_widen m) hc.qubits_nodup
  exact ⟨s, hs, rfl, hc.physical?_finishRoute htracks⟩

/-- Whenever a routing pass succeeds, its result consists of the steps it has taken. It records where they lead, from
the initial placement on, exactly if it is a router on a coupling map or the circuit has been placed, or if the circuit
happened to carry the right final placement before. Otherwise whatever final placement the circuit carried stays. -/
theorem recordsWay_iff {c out : Circuit Float} (hc : c.WellFormed) (p : RoutingPass) (h : p.pass.run c = .success out) :
    ∃ steps, p.Takes c steps ∧ out.instructions = steps.map RouteStep.toInstruction ∧
      (RecordsWay c out steps ↔ p.MayMove ∨ c.layout.isSome ∨ c.finalLayout = some (.trivial c.numQubits)) ∧
      (¬ p.MayMove → c.layout = none → out.finalLayout = c.finalLayout) := by
  by_cases hp : p.MayMove
  · obtain ⟨r, m, rfl⟩ : ∃ r m, p = route r (some m) := by
      match p, hp with
      | route r (some m), _ => exact ⟨r, m, rfl⟩
    have hpass : (route r (some m)).pass = r.pass m := by cases r <;> rfl
    rw [hpass] at h
    obtain ⟨s, hs, hinstructions, hrecords⟩ := recordsWay_of_route hc h
    exact ⟨_, ⟨s, hs, rfl⟩, hinstructions, iff_of_true hrecords (.inl hp), fun hno => absurd hp hno⟩
  · obtain rfl := keepPlacement_of_run hp h
    refine ⟨_, (takes_iff hp).mpr rfl, ?_, ?_, ?_⟩
    · rw [List.map_map]
      exact (List.map_id c.instructions).symm
    · rw [recordsWay_keepPlacement_iff, or_iff_right hp]
    · intro _ hlayout
      rw [Circuit.keepPlacement, hlayout]
      rfl

end RoutingPass

/-- A circuit that has not been placed, with the final placement of an earlier run or none. -/
def Circuit.unplaced (final : Option Layout) : Circuit Float :=
  { (Circuit.empty "unplaced" 2 0).withInstructions [.cx 0 1] with finalLayout := final }

/-- The two qubits have changed places. -/
def Layout.crossed : Layout := (trivial 2).swap 0 1

theorem Circuit.wellFormed_unplaced {final : Option Layout} (h : final ∈ [none, some Layout.crossed]) :
    (unplaced final).WellFormed := by
  have hbelow : ∀ final ∈ [none, some Layout.crossed], ∀ l ∈ final, ∀ e ∈ l.pairs, e.1 < 2 ∧ e.2 < 2 := by decide
  constructor
  case finalLayout_lt => exact hbelow final h
  all_goals simp [unplaced, withInstructions, Circuit.empty, Instruction.cx, Instruction.gate, singleQubitNames]

namespace RoutingPass

theorem recordsWay_iff_unplaced : (Circuit.unplaced (some .crossed)).WellFormed ∧
    ∃ out, (route .lookahead (some (.linear 3))).pass.run (.unplaced (some .crossed)) = .success out ∧
      ∃ steps, (route .lookahead (some (.linear 3))).Takes (.unplaced (some .crossed)) steps ∧
        RecordsWay (.unplaced (some .crossed)) out steps := by
  have hwf : (Circuit.unplaced (some .crossed)).WellFormed := Circuit.wellFormed_unplaced (by simp)
  have hok : ((route .lookahead (some (.linear 3))).pass.run (.unplaced (some .crossed))).isFailure = false := by
    decide +kernel
  have hrun := Outcome.eq_success_of_not_isFailure hok
  obtain ⟨steps, htakes, -, hrecords, -⟩ := recordsWay_iff hwf _ hrun
  exact ⟨hwf, _, hrun, steps, htakes, hrecords.mpr (.inl trivial)⟩

/-- Whether a pass succeeds on a well-formed circuit and does not record where its steps lead. -/
def Forgets (c : Circuit Float) (p : RoutingPass) : Prop :=
  c.WellFormed ∧ ∃ out, p.pass.run c = .success out ∧ ∀ steps, p.Takes c steps → ¬ RecordsWay c out steps

theorem forgets_of_run {c out : Circuit Float} {p : RoutingPass} (hc : c.WellFormed) (hp : ¬ p.MayMove)
    (h : p.pass.run c = .success out) (hlayout : c.layout = none)
    (hfinal : c.finalLayout ≠ some (.trivial c.numQubits)) : p.Forgets c := by
  refine ⟨hc, out, h, ?_⟩
  intro steps htakes
  rw [(takes_iff hp).mp htakes, ← keepPlacement_of_run hp h, recordsWay_keepPlacement_iff, hlayout]
  rintro (hplaced | hright)
  · cases hplaced
  · exact hfinal hright

/-- Without a coupling map, or under the check, a circuit that has not been placed keeps the final placement that it
came with, if any. -/
theorem forgets_unplaced : (check none).Forgets (.unplaced none) ∧
    (check (some (.linear 2))).Forgets (.unplaced (some .crossed)) ∧
    (route .basic none).Forgets (.unplaced (some .crossed)) ∧ (route .lookahead none).Forgets (.unplaced none) := by
  have hnone : (Circuit.unplaced none).WellFormed := Circuit.wellFormed_unplaced (by simp)
  have hcrossed : (Circuit.unplaced (some .crossed)).WellFormed := Circuit.wellFormed_unplaced (by simp)
  have hcheck : ((check (some (.linear 2))).pass.run (.unplaced (some .crossed))).isFailure = false := by
    decide +kernel
  refine ⟨?_, ?_, ?_, ?_⟩
  · exact forgets_of_run hnone not_false (by rw [pass, Pass.run]; rfl) rfl (by decide)
  · exact forgets_of_run hcrossed not_false (Outcome.eq_success_of_not_isFailure hcheck) rfl (by decide)
  · exact forgets_of_run hcrossed not_false (by rw [pass, Pass.run]; rfl) rfl (by decide)
  · exact forgets_of_run hnone not_false (by rw [pass, Pass.run]; rfl) rfl (by decide)

end RoutingPass

end CircuitStages
