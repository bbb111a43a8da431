import CircuitStages.Circuit.Data
import CircuitStages.Proofs.Except
import Mathlib.Data.List.Nodup

namespace CircuitStages

variable {α : Type}

theorem checkQubits_eq_ok_iff {gate : String} {size : Nat} {given qs : List Nat} :
    checkQubits gate size given qs = .ok () ↔ (∀ q ∈ qs, q < size ∧ q ∉ given) ∧ qs.Nodup := by
  induction qs generalizing given with
  | nil => simp [checkQubits]
  | cons q qs ih =>
    rw [checkQubits]
    split
    next hout => simp [Nat.not_lt.mpr hout]
    next hin =>
      split
      next hgiven => simp [List.contains_iff_mem.mp hgiven]
      next hnew =>
        have hlt : q < size := Nat.lt_of_not_le hin
        have hnew : q ∉ given := by simpa using hnew
        rw [ih]
        simp only [List.mem_cons, not_or, List.nodup_cons, forall_eq_or_imp]
        constructor
        · rintro ⟨hrest, hnd⟩
          exact ⟨⟨⟨hlt, hnew⟩, fun p hp => ⟨(hrest p hp).1, (hrest p hp).2.2⟩⟩, fun hq => (hrest q hq).2.1 rfl, hnd⟩
        · rintro ⟨⟨-, hrest⟩, hq, hnd⟩
          exact ⟨fun p hp => ⟨(hrest p hp).1, fun he => hq (he ▸ hp), (hrest p hp).2⟩, hnd⟩

namespace Circuit

variable {c d : Circuit α}

/-- Whether an instruction can stand in a circuit. -/
structure Fits (c : Circuit α) (i : Instruction α) : Prop where
  qubits_lt : ∀ q ∈ i.qubits, q < c.numQubits
  clbits_lt : ∀ b ∈ i.clbits, b < c.numClbits
  qubits_nodup : i.qubits.Nodup
  width_eq_one : i.name ∈ singleQubitNames → i.width = 1

theorem Fits.congr {i : Instruction α} (h : c.Fits i) (hqubits : c.numQubits = d.numQubits)
    (hclbits : c.numClbits = d.numClbits) : d.Fits i :=
  ⟨hqubits ▸ h.qubits_lt, hclbits ▸ h.clbits_lt, h.qubits_nodup, h.width_eq_one⟩

theorem WellFormed.fits (hc : c.WellFormed) {i : Instruction α} (hi : i ∈ c.instructions) : c.Fits i :=
  ⟨hc.qubits_lt i hi, hc.clbits_lt i hi, hc.qubits_nodup i hi, hc.width_eq_one i hi⟩

/-- Instructions that fit a well-formed circuit can take the place of its own. -/
theorem WellFormed.withInstructions (hc : c.WellFormed) {is : List (Instruction α)} (h : ∀ i ∈ is, c.Fits i) :
    (c.withInstructions is).WellFormed :=
  ⟨fun i hi => (h i hi).qubits_lt, fun i hi => (h i hi).clbits_lt, fun i hi => (h i hi).qubits_nodup,
    fun i hi => (h i hi).width_eq_one, hc.layout_lt, hc.finalLayout_lt, nofun⟩

theorem fits_gate_one {name : String} {q : Nat} {params : List α} (hq : q < c.numQubits) :
    c.Fits (.gate name [q] params) :=
  ⟨by simpa [Instruction.gate] using hq, nofun, List.nodup_singleton q, fun _ => rfl⟩

theorem fits_gate_two {name : String} {a b : Nat} {params : List α} (ha : a < c.numQubits) (hb : b < c.numQubits)
    (hab : a ≠ b) (hname : name ∉ singleQubitNames) : c.Fits (.gate name [a, b] params) :=
  ⟨by simp [Instruction.gate, ha, hb], nofun, by simpa [Instruction.gate] using hab, fun h => absurd h hname⟩

theorem check_eq_ok_iff {i : Instruction α} : c.check i = .ok () ↔ c.Fits i := by
  simp only [check, List.contains_iff_mem]
  split
  next harity =>
    exact iff_of_false nofun fun h => harity.2 (h.width_eq_one harity.1)
  next harity =>
    have hwidth : i.name ∈ singleQubitNames → i.width = 1 := fun hname => by_contra fun hne => harity ⟨hname, hne⟩
    rw [bind_eq_ok]
    constructor
    · rintro ⟨⟨⟩, hqubits, hclbits⟩
      obtain ⟨hlt, hnd⟩ := checkQubits_eq_ok_iff.mp hqubits
      refine ⟨fun q hq => (hlt q hq).1, ?_, hnd, hwidth⟩
      split at hclbits
      next => cases hclbits
      next hnone => simpa using hnone
    · intro h
      refine ⟨(), checkQubits_eq_ok_iff.mpr ⟨fun q hq => ⟨h.qubits_lt q hq, List.not_mem_nil⟩, h.qubits_nodup⟩, ?_⟩
      split
      next b hb => simpa [Nat.not_le.mpr (h.clbits_lt b (List.mem_of_find?_eq_some hb))] using List.find?_some hb
      next => rfl

theorem setInstructions_eq_ok_iff {is : List (Instruction α)} :
    c.setInstructions is = .ok d ↔ (∀ i ∈ is, c.Fits i) ∧ c.withInstructions is = d := by
  have hchecks : is.forM c.check = .ok () ↔ ∀ i ∈ is, c.Fits i := by
    induction is with
    | nil => exact iff_of_true rfl (by simp)
    | cons i is ih =>
      change (c.check i >>= fun _ => is.forM c.check) = .ok () ↔ _
      rw [bind_eq_ok, List.forall_mem_cons, ← check_eq_ok_iff, ← ih]
      constructor
      · rintro ⟨⟨⟩, hi, hrest⟩
        exact ⟨hi, hrest⟩
      · rintro ⟨hi, hrest⟩
        exact ⟨(), hi, hrest⟩
  rw [setInstructions, bind_eq_ok, ← hchecks]
  simp only [pure_eq_ok]
  constructor
  · rintro ⟨⟨⟩, h, hd⟩
    exact ⟨h, hd⟩
  · rintro ⟨h, hd⟩
    exact ⟨(), h, hd⟩

theorem expandQubits_eq_ok {n : Nat} (h : c.numQubits ≤ n) : c.expandQubits n = .ok { c with numQubits := n } :=
  if_neg (Nat.not_lt.mpr h)

theorem checkLayout_eq_ok_iff {l : Layout} :
    c.checkLayout l = .ok () ↔ ∀ e ∈ l.pairs, e.1 < c.numQubits ∧ e.2 < c.numQubits := by
  rw [checkLayout]
  split
  next v p h =>
    refine iff_of_false nofun fun hin => ?_
    have := List.find?_some h
    have := hin _ (List.mem_of_find?_eq_some h)
    simp_all
    omega
  next h => simpa using h

theorem forM_checkLayout_eq_ok_iff {l : Option Layout} :
    l.forM c.checkLayout = .ok () ↔ ∀ k ∈ l, ∀ e ∈ k.pairs, e.1 < c.numQubits ∧ e.2 < c.numQubits := by
  cases l with
  | none => simp [pure, Except.pure]
  | some k => simpa using checkLayout_eq_ok_iff

theorem push_eq_ok_iff {i : Instruction α} :
    c.push i = .ok d ↔ c.Fits i ∧ c.withInstructions (c.instructions ++ [i]) = d := by
  rw [push, bind_eq_ok, ← check_eq_ok_iff]
  simp only [pure_eq_ok]
  constructor
  · rintro ⟨⟨⟩, hcheck, heq⟩
    exact ⟨hcheck, heq⟩
  · rintro ⟨hcheck, heq⟩
    exact ⟨(), hcheck, heq⟩

theorem pushAll_eq_ok_iff {is : List (Instruction α)} (hc : c.startTimes = none) :
    c.pushAll is = .ok d ↔ (∀ i ∈ is, c.Fits i) ∧ c.withInstructions (c.instructions ++ is) = d := by
  induction is generalizing c with
  | nil =>
    have hsame : c.withInstructions (c.instructions ++ []) = c := by
      rw [List.append_nil, withInstructions, ← hc]
    rw [hsame, pushAll, List.foldlM_nil, pure_eq_ok]
    simp
  | cons i is ih =>
    have hfits (j : Instruction α) : (c.withInstructions (c.instructions ++ [i])).Fits j ↔ c.Fits j :=
      ⟨fun h => h.congr rfl rfl, fun h => h.congr rfl rfl⟩
    have hall : (c.withInstructions (c.instructions ++ [i])).withInstructions (c.instructions ++ [i] ++ is) =
        c.withInstructions (c.instructions ++ i :: is) := by
      rw [List.append_assoc]
      rfl
    have hrest := ih (c := c.withInstructions (c.instructions ++ [i])) rfl
    simp only [hfits] at hrest
    rw [pushAll, List.foldlM_cons, bind_eq_ok]
    simp only [push_eq_ok_iff, List.mem_cons, forall_eq_or_imp]
    constructor
    · rintro ⟨_, ⟨hi, rfl⟩, h⟩
      obtain ⟨his, rfl⟩ := hrest.mp h
      exact ⟨⟨hi, his⟩, hall.symm⟩
    · rintro ⟨⟨hi, his⟩, rfl⟩
      exact ⟨_, ⟨hi, rfl⟩, hrest.mpr ⟨his, hall⟩⟩

/-- Circuits are accepted exactly if they are well-formed, and then they are what they were put together from. -/
theorem ofParts_eq_ok_iff {name : String} {numQubits numClbits : Nat} {is : List (Instruction α)}
    {layout finalLayout : Option Layout} {times : Option (List α)} :
    ofParts name numQubits numClbits is layout finalLayout times = .ok c ↔
      c = ⟨name, numQubits, numClbits, is, layout, finalLayout, times⟩ ∧ c.WellFormed := by
  have hempty (d : Circuit α) : (empty name numQubits numClbits).pushAll is = .ok d ↔
      (∀ i ∈ is, (empty name numQubits numClbits : Circuit α).Fits i) ∧
        ⟨name, numQubits, numClbits, is, none, none, none⟩ = d := pushAll_eq_ok_iff rfl
  simp only [ofParts, bind_eq_ok, hempty]
  constructor
  · rintro ⟨_, ⟨his, rfl⟩, ⟨⟩, hlayout, ⟨⟩, hfinal, htimes⟩
    have hlayout := forM_checkLayout_eq_ok_iff.mp hlayout
    have hfinal := forM_checkLayout_eq_ok_iff.mp hfinal
    have wellFormed (times : Option (List α)) (hlen : ∀ ts ∈ times, ts.length = is.length) :
        WellFormed ⟨name, numQubits, numClbits, is, layout, finalLayout, times⟩ :=
      ⟨fun i hi => (his i hi).qubits_lt, fun i hi => (his i hi).clbits_lt, fun i hi => (his i hi).qubits_nodup,
        fun i hi => (his i hi).width_eq_one, hlayout, hfinal, hlen⟩
    cases times with
    | none =>
      cases pure_eq_ok.mp htimes
      exact ⟨rfl, wellFormed none nofun⟩
    | some ts =>
      simp only [setStartTimes] at htimes
      split at htimes
      next hlen =>
        cases htimes
        exact ⟨rfl, wellFormed (some ts) fun us hus => Option.some.inj hus ▸ hlen⟩
      next => cases htimes
  · rintro ⟨rfl, h⟩
    have hfits (i : Instruction α) (hi : i ∈ is) : (empty name numQubits numClbits : Circuit α).Fits i :=
      ⟨h.qubits_lt i hi, h.clbits_lt i hi, h.qubits_nodup i hi, h.width_eq_one i hi⟩
    refine ⟨_, ⟨hfits, rfl⟩, (), forM_checkLayout_eq_ok_iff.mpr h.layout_lt, (),
      forM_checkLayout_eq_ok_iff.mpr h.finalLayout_lt, ?_⟩
    cases times with
    | none => rfl
    | some ts => exact if_pos (h.startTimes_length ts rfl)

theorem mem_ghz {n : Nat} {i : Instruction α} : i ∈ (ghz n : Circuit α).instructions ↔
    (0 < n ∧ i = .h 0) ∨ (∃ q, q + 1 < n ∧ i = .cx q (q + 1)) ∨ ∃ q < n, i = .measure q q := by
  have hcx (q : Nat) : q < n - 1 ↔ q + 1 < n := by omega
  by_cases hn : n = 0 <;> simp [ghz, withInstructions, hcx, hn, Nat.pos_iff_ne_zero, eq_comm]

/-- The instructions of a circuit that prepares a GHZ state fit it. -/
theorem fits_of_mem_ghz {n : Nat} {i : Instruction α} (hi : i ∈ (ghz n : Circuit α).instructions) :
    (ghz n : Circuit α).Fits i := by
  have hqubits : (ghz n : Circuit α).numQubits = n := rfl
  have hclbits : (ghz n : Circuit α).numClbits = n := rfl
  rcases mem_ghz.mp hi with ⟨hn, rfl⟩ | ⟨q, hq, rfl⟩ | ⟨q, hq, rfl⟩
  · constructor <;> simp [Instruction.h, Instruction.gate, hqubits, hn, singleQubitNames]
  · constructor <;> simp [Instruction.cx, Instruction.gate, hqubits, hq, Nat.lt_of_succ_lt hq, singleQubitNames]
  · constructor <;> simp [Instruction.measure, Instruction.width, hqubits, hclbits, hq]

theorem wellFormed_ghz (n : Nat) : (ghz n : Circuit α).WellFormed where
  qubits_lt _ hi := (fits_of_mem_ghz hi).qubits_lt
  clbits_lt _ hi := (fits_of_mem_ghz hi).clbits_lt
  qubits_nodup _ hi := (fits_of_mem_ghz hi).qubits_nodup
  width_eq_one _ hi := (fits_of_mem_ghz hi).width_eq_one
  layout_lt := nofun
  finalLayout_lt := nofun
  startTimes_length := nofun

end Circuit

end CircuitStages
