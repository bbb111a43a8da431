import CircuitStages.Text.Decimal
import Mathlib.Algebra.Order.Field.Power
import Mathlib.Algebra.Order.Ring.Rat
import Mathlib.Data.Nat.Cast.Order.Field
import Mathlib.Tactic.FieldSimp
import Mathlib.Tactic.Linarith
import Mathlib.Tactic.Positivity
import Mathlib.Tactic.Ring

namespace CircuitStages

theorem zpow_eq_div_toNat (b : Nat) (hb : 0 < b) (z : Int) : (b : Rat) ^ z = b ^ z.toNat / b ^ (-z).toNat := by
  have hne : (b : Rat) ≠ 0 := by positivity
  rw [← zpow_natCast, ← zpow_natCast, ← zpow_sub₀ hne, Int.toNat_sub_toNat_neg]

namespace Decimal

/-- The number that a decimal stands for. -/
def value (d : Decimal) : Rat := d.digits * 10 ^ d.exponent

theorem value_trim (fuel : Nat) (d : Decimal) : (d.trim fuel).value = d.value := by
  induction fuel generalizing d with
  | zero => rfl
  | succ fuel ih =>
    rw [trim]
    split
    next hzero =>
      have hdigits : d.digits = 10 * (d.digits / 10) := by omega
      rw [ih, value, value, zpow_add_one₀ (by norm_num)]
      conv_rhs => rw [hdigits]
      push_cast
      ring
    next => rfl

end Decimal

namespace RoundingRange

variable {r : RoundingRange}

def lowEnd (r : RoundingRange) : Rat := r.low * 2 ^ r.unit

def highEnd (r : RoundingRange) : Rat := r.high * 2 ^ r.unit

/-- The numbers of the range; the ends belong to it if it is closed. -/
def Contains (r : RoundingRange) (q : Rat) : Prop :=
  if r.closed then r.lowEnd ≤ q ∧ q ≤ r.highEnd else r.lowEnd < q ∧ q < r.highEnd

/-- The unit of the range, on the scale on which it and the step of the grid are whole numbers. -/
def unitOnGrid (r : RoundingRange) (exponent : Int) : Nat := Nat.pow 2 r.unit.toNat * Nat.pow 10 (-exponent).toNat

/-- The step of the grid on the same scale. -/
def stepOnGrid (r : RoundingRange) (exponent : Int) : Nat := Nat.pow 2 (-r.unit).toNat * Nat.pow 10 exponent.toNat

/-- Whether a multiple of the step is in the range. -/
def inside (r : RoundingRange) (exponent : Int) (c : Nat) : Bool :=
  let num := r.unitOnGrid exponent
  let den := r.stepOnGrid exponent
  if r.closed then r.low * num ≤ c * den && c * den ≤ r.high * num
  else r.low * num < c * den && c * den < r.high * num

theorem stepOnGrid_pos (r : RoundingRange) (exponent : Int) : 0 < r.stepOnGrid exponent :=
  Nat.mul_pos (Nat.pow_pos (by decide)) (Nat.pow_pos (by decide))

theorem unitOnGrid_pos (r : RoundingRange) (exponent : Int) : 0 < r.unitOnGrid exponent :=
  Nat.mul_pos (Nat.pow_pos (by decide)) (Nat.pow_pos (by decide))

theorem unit_eq (r : RoundingRange) (exponent : Int) :
    (2 : Rat) ^ r.unit = 10 ^ exponent / r.stepOnGrid exponent * r.unitOnGrid exponent := by
  have h2 := zpow_eq_div_toNat 2 (by decide) r.unit
  have h10 := zpow_eq_div_toNat 10 (by decide) exponent
  push_cast at h2 h10
  rw [h2, h10, unitOnGrid, stepOnGrid]
  simp only [Nat.pow_eq]
  push_cast
  field_simp

theorem inside_iff {exponent : Int} {c : Nat} : r.inside exponent c ↔ r.Contains (Decimal.mk c exponent).value := by
  have hstep : (0 : Rat) < 10 ^ exponent / r.stepOnGrid exponent := by
    have := r.stepOnGrid_pos exponent
    positivity
  have hvalue : (Decimal.mk c exponent).value =
      10 ^ exponent / r.stepOnGrid exponent * (c * r.stepOnGrid exponent : Nat) := by
    have := r.stepOnGrid_pos exponent
    rw [Decimal.value]
    push_cast
    field_simp
  have hend (n : Nat) : (n : Rat) * 2 ^ r.unit =
      10 ^ exponent / r.stepOnGrid exponent * (n * r.unitOnGrid exponent : Nat) := by
    rw [unit_eq r exponent]
    push_cast
    ring
  rw [inside, Contains, lowEnd, highEnd, hvalue, hend, hend]
  split
  · simp only [Bool.and_eq_true, decide_eq_true_eq, mul_le_mul_iff_right₀ hstep, Nat.cast_le]
  · simp only [Bool.and_eq_true, decide_eq_true_eq, mul_lt_mul_iff_right₀ hstep, Nat.cast_lt]

/-- The candidates are the two multiples of the step on either side of the value. -/
theorem onGrid?_eq (r : RoundingRange) (tiesUp : Bool) (exponent : Int) : ∃ nearer even : Bool,
    r.onGrid? tiesUp exponent =
      let lower := r.mid * r.unitOnGrid exponent / r.stepOnGrid exponent
      if r.inside exponent lower && (!r.inside exponent (lower + 1) || nearer || even) then some lower
      else if r.inside exponent (lower + 1) then some (lower + 1)
      else none :=
  ⟨_, _, rfl⟩

theorem inside_of_onGrid? {tiesUp : Bool} {exponent : Int} {c : Nat} (h : r.onGrid? tiesUp exponent = some c) :
    r.inside exponent c := by
  obtain ⟨nearer, even, heq⟩ := r.onGrid?_eq tiesUp exponent
  rw [heq] at h
  dsimp only at h
  split at h
  next hlower =>
    cases h
    rw [Bool.and_eq_true] at hlower
    exact hlower.1
  next =>
    split at h
    next hupper =>
      cases h
      exact hupper
    next => cases h

/-- A grid whose step is shorter than the range has a multiple in it. -/
theorem exists_onGrid? (hlow : r.low < r.mid) (hhigh : r.mid < r.high) {exponent : Int}
    (h : r.stepOnGrid exponent < (r.high - r.low) * r.unitOnGrid exponent) (tiesUp : Bool) :
    ∃ c, r.onGrid? tiesUp exponent = some c := by
  have hunit := r.unitOnGrid_pos exponent
  have hdown := Nat.div_mul_le_self (r.mid * r.unitOnGrid exponent) (r.stepOnGrid exponent)
  have hup := Nat.lt_div_mul_add (a := r.mid * r.unitOnGrid exponent) (r.stepOnGrid_pos exponent)
  have hbelow := Nat.mul_lt_mul_of_pos_right hlow hunit
  have habove := Nat.mul_lt_mul_of_pos_right hhigh hunit
  rw [Nat.sub_mul] at h
  obtain ⟨nearer, even, heq⟩ := r.onGrid?_eq tiesUp exponent
  rw [heq]
  dsimp only
  generalize r.mid * r.unitOnGrid exponent / r.stepOnGrid exponent = lower at hdown hup ⊢
  have hone : r.inside exponent lower = false → r.inside exponent (lower + 1) = true := by
    rw [inside, inside, Nat.add_mul, Nat.one_mul]
    split <;> simp <;> omega
  cases hin : r.inside exponent lower
  · rw [hone hin]
    exact ⟨lower + 1, rfl⟩
  · cases r.inside exponent (lower + 1)
    · exact ⟨lower, rfl⟩
    · split
      · exact ⟨lower, rfl⟩
      · exact ⟨lower + 1, rfl⟩

theorem exists_onGrid?_of_lt (hlow : r.low < r.mid) (hhigh : r.mid < r.high) {exponent : Int}
    (h : (10 : Rat) ^ exponent < (r.high - r.low : Nat) * 2 ^ r.unit) (tiesUp : Bool) :
    ∃ c, r.onGrid? tiesUp exponent = some c := by
  refine exists_onGrid? hlow hhigh ?_ tiesUp
  have hstep : (0 : Rat) < r.stepOnGrid exponent := by exact_mod_cast r.stepOnGrid_pos exponent
  have hten : (0 : Rat) < 10 ^ exponent := by positivity
  rw [unit_eq r exponent, ← mul_assoc, mul_comm, ← mul_assoc, mul_div_assoc', lt_div_iff₀ hstep, mul_comm,
    mul_lt_mul_iff_left₀ hten] at h
  rw [mul_comm]
  exact_mod_cast h

theorem pow_digitCount_le {n : Nat} (hn : 0 < n) : 10 ^ (digitCount n - 1) ≤ n := by
  by_contra hlt
  rcases Nat.eq_zero_or_pos (digitCount n - 1) with hzero | hpos
  · rw [hzero] at hlt
    omega
  · have hlength := (Nat.length_toDigits_le_iff (by decide) hpos).mpr (Nat.lt_of_not_le hlt)
    rw [digitCount] at hlength hpos
    omega

/-- The magnitude, with its shift kept symbolic: as a literal it would be evaluated. -/
theorem magnitude_eq (r : RoundingRange) {shift : Nat} (hshift : shift = 400) : r.magnitude =
    (digitCount (r.mid * 2 ^ r.unit.toNat * 10 ^ shift / 2 ^ (-r.unit).toNat) : Int) - shift := by
  unfold magnitude
  extract_lets s
  have hs : s = shift := hshift.symm
  clear_value s
  subst hs
  simp only [Nat.pow_eq]

/-- The value is not below a tenth of the power of ten that its magnitude tells. -/
theorem pow_magnitude_le (hmid : 0 < r.mid) (hunit : -1076 ≤ r.unit) :
    (10 : Rat) ^ (r.magnitude - 1) ≤ r.mid * 2 ^ r.unit := by
  obtain ⟨shift, hshift⟩ : ∃ shift : Nat, shift = 400 := ⟨400, rfl⟩
  have hfits : 2 ^ (-r.unit).toNat ≤ r.mid * 2 ^ r.unit.toNat * 10 ^ shift :=
    calc 2 ^ (-r.unit).toNat ≤ 2 ^ (12 * (shift / 4)) := Nat.pow_le_pow_right (by decide) (by omega)
      _ ≤ 10 ^ (4 * (shift / 4)) := by
        rw [pow_mul, pow_mul]
        exact Nat.pow_le_pow_left (by decide) (shift / 4)
      _ = 10 ^ shift := by rw [Nat.mul_div_cancel' (by omega)]
      _ ≤ _ := Nat.le_mul_of_pos_left _ (Nat.mul_pos hmid (Nat.pow_pos (by decide)))
  have hden : 0 < 2 ^ (-r.unit).toNat := Nat.pow_pos (by decide)
  have hpos : 0 < r.mid * 2 ^ r.unit.toNat * 10 ^ shift / 2 ^ (-r.unit).toNat := Nat.div_pos hfits hden
  have hdigits := pow_digitCount_le hpos
  have hmagnitude := r.magnitude_eq hshift
  have hcount : 0 < digitCount (r.mid * 2 ^ r.unit.toNat * 10 ^ shift / 2 ^ (-r.unit).toNat) :=
    Nat.length_toDigits_pos
  generalize digitCount (r.mid * 2 ^ r.unit.toNat * 10 ^ shift / 2 ^ (-r.unit).toNat) = count at *
  have hexponent : r.magnitude - 1 = ((count - 1 : Nat) : Int) - (shift : Nat) := by omega
  have hvalue : (r.mid * 2 ^ r.unit * 10 ^ shift : Rat) =
      (r.mid * 2 ^ r.unit.toNat * 10 ^ shift : Nat) / (2 ^ (-r.unit).toNat : Nat) := by
    have hunit := zpow_eq_div_toNat 2 (by decide) r.unit
    push_cast at hunit ⊢
    rw [hunit]
    ring
  rw [hexponent, zpow_sub₀ (by norm_num), zpow_natCast, zpow_natCast, div_le_iff₀ (by positivity), hvalue]
  calc (10 : Rat) ^ (count - 1) = ((10 ^ (count - 1) : Nat) : Rat) := by push_cast; rfl
    _ ≤ ((r.mid * 2 ^ r.unit.toNat * 10 ^ shift / 2 ^ (-r.unit).toNat : Nat) : Rat) := by exact_mod_cast hdigits
    _ ≤ _ := Nat.cast_div_le

section OfBits

/-- The value with these bits, as a multiple of its own unit. -/
def mantissa (bits : Nat) : Nat :=
  if bits / 2 ^ 52 % 2 ^ 11 = 0 then bits % 2 ^ 52 else 2 ^ 52 + bits % 2 ^ 52

theorem ofBits_mid (bits : Nat) : (ofBits bits).mid = 4 * mantissa bits := rfl

theorem ofBits_high (bits : Nat) : (ofBits bits).high = 4 * mantissa bits + 2 := rfl

theorem ofBits_low (bits : Nat) : (ofBits bits).low =
    4 * mantissa bits - if bits % 2 ^ 52 = 0 ∧ 1 < bits / 2 ^ 52 % 2 ^ 11 then 1 else 2 := rfl

theorem ofBits_unit (bits : Nat) : (ofBits bits).unit =
    (if bits / 2 ^ 52 % 2 ^ 11 = 0 then -1074 else ((bits / 2 ^ 52 % 2 ^ 11 : Nat) : Int) - 1075) - 2 := rfl

theorem ofBits_closed (bits : Nat) : (ofBits bits).closed = decide (bits % 2 = 0) := by
  have : mantissa bits % 2 = bits % 2 := by
    rw [mantissa]
    split <;> omega
  show decide (mantissa bits % 2 = 0) = _
  rw [this]

theorem mantissa_pos {bits : Nat} (h : 0 < bits) (hbits : bits < 2 ^ 63) : 0 < mantissa bits := by
  rw [mantissa]
  split <;> omega

/-- Seventeen digits tell neighbours apart: the range is longer than any step that leaves so many digits. -/
theorem ofBits_mid_lt (bits : Nat) : (ofBits bits).mid < ((ofBits bits).high - (ofBits bits).low) * 10 ^ 16 := by
  rw [ofBits_mid, ofBits_high, ofBits_low, mantissa]
  split <;> split <;> omega

theorem ofBits_unit_ge (bits : Nat) : -1076 ≤ (ofBits bits).unit := by
  rw [ofBits_unit]
  split <;> omega

/-- The upper end of a range is the lower end of the next one. -/
theorem highEnd_ofBits {bits : Nat} (h : bits + 1 < 2 ^ 63) : (ofBits bits).highEnd = (ofBits (bits + 1)).lowEnd := by
  rw [highEnd, lowEnd, ofBits_high, ofBits_low, ofBits_unit, ofBits_unit]
  by_cases hcarry : bits % 2 ^ 52 = 2 ^ 52 - 1
  · have hfraction : (bits + 1) % 2 ^ 52 = 0 := by omega
    have hscale : (bits + 1) / 2 ^ 52 % 2 ^ 11 = bits / 2 ^ 52 % 2 ^ 11 + 1 := by omega
    rw [mantissa, mantissa, hfraction, hscale, hcarry, if_neg (Nat.succ_ne_zero _), if_neg (Nat.succ_ne_zero _)]
    by_cases hzero : bits / 2 ^ 52 % 2 ^ 11 = 0
    · rw [if_pos hzero, if_pos hzero, if_neg (by omega), hzero]
      norm_num
    · rw [if_neg hzero, if_neg hzero, if_pos ⟨rfl, by omega⟩]
      have hunit : ((bits / 2 ^ 52 % 2 ^ 11 + 1 : Nat) : Int) - 1075 - 2 =
          (bits / 2 ^ 52 % 2 ^ 11 : Nat) - 1075 - 2 + 1 := by omega
      rw [hunit, zpow_add_one₀ (by norm_num)]
      norm_num
      ring
  · have hfraction : (bits + 1) % 2 ^ 52 = bits % 2 ^ 52 + 1 := by omega
    have hscale : (bits + 1) / 2 ^ 52 % 2 ^ 11 = bits / 2 ^ 52 % 2 ^ 11 := by omega
    have hbelow : ¬ (bits % 2 ^ 52 + 1 = 0 ∧ 1 < bits / 2 ^ 52 % 2 ^ 11) := fun h => Nat.succ_ne_zero _ h.1
    rw [mantissa, mantissa, hfraction, hscale, if_neg hbelow]
    congr 2
    split <;> omega

theorem lowEnd_lt_highEnd (bits : Nat) : (ofBits bits).lowEnd < (ofBits bits).highEnd := by
  have hlow : (ofBits bits).low < (ofBits bits).high := by
    rw [ofBits_low, ofBits_high]
    omega
  have hunit : (0 : Rat) < 2 ^ (ofBits bits).unit := by positivity
  exact mul_lt_mul_of_pos_right (by exact_mod_cast hlow) hunit

theorem highEnd_le_lowEnd {bits later : Nat} (h : bits < later) (hlater : later < 2 ^ 63) :
    (ofBits bits).highEnd ≤ (ofBits later).lowEnd := by
  induction later, h using Nat.le_induction with
  | base => exact (highEnd_ofBits hlater).le
  | succ later _ ih =>
    rw [← highEnd_ofBits hlater]
    exact (ih (Nat.lt_of_succ_lt hlater)).trans (lowEnd_lt_highEnd later).le

theorem Contains.le_and_le {q : Rat} (h : r.Contains q) : r.lowEnd ≤ q ∧ q ≤ r.highEnd := by
  rw [Contains] at h
  split at h
  · exact h
  · exact ⟨h.1.le, h.2.le⟩

theorem Contains.lt_and_lt {bits : Nat} {q : Rat} (h : (ofBits bits).Contains q) (hodd : bits % 2 = 1) :
    (ofBits bits).lowEnd < q ∧ q < (ofBits bits).highEnd := by
  rwa [Contains, ofBits_closed, if_neg (by simpa using hodd)] at h

/-- No number is in the ranges of two values. -/
theorem not_contains_of_lt {bits later : Nat} (h : bits < later) (hlater : later < 2 ^ 63) {q : Rat}
    (hq : (ofBits bits).Contains q) : ¬ (ofBits later).Contains q := by
  intro hq'
  rcases Nat.lt_or_eq_of_le (Nat.succ_le_of_lt h) with hgap | rfl
  · have hnext := highEnd_le_lowEnd hgap hlater
    have hmeet := highEnd_ofBits (Nat.lt_trans hgap hlater)
    have hlt := lowEnd_lt_highEnd (bits + 1)
    linarith only [hq.le_and_le.2, hq'.le_and_le.1, hnext, hmeet, hlt]
  · have hmeet := highEnd_ofBits hlater
    rcases Nat.mod_two_eq_zero_or_one bits with heven | hodd
    · linarith only [hmeet, hq.le_and_le.2, (hq'.lt_and_lt (by omega)).1]
    · linarith only [hmeet, (hq.lt_and_lt hodd).2, hq'.le_and_le.1]

theorem eq_of_contains {bits bits' : Nat} (h : bits < 2 ^ 63) (h' : bits' < 2 ^ 63) {q : Rat}
    (hq : (ofBits bits).Contains q) (hq' : (ofBits bits').Contains q) : bits = bits' := by
  rcases Nat.lt_trichotomy bits bits' with hlt | heq | hgt
  · exact absurd hq' (not_contains_of_lt hlt h' hq)
  · exact heq
  · exact absurd hq (not_contains_of_lt hgt h hq')

/-- Among the grids of one to seventeen digits there is one with a decimal in the range. -/
theorem exists_hit (tiesUp : Bool) {bits : Nat} (h : 0 < bits) (hbits : bits < 2 ^ 63) :
    ∃ c, (ofBits bits).onGrid? tiesUp ((ofBits bits).magnitude - (16 : Nat) - 1) = some c := by
  have hmantissa := mantissa_pos h hbits
  have hmid : 0 < (ofBits bits).mid := by rw [ofBits_mid]; omega
  have hlow : (ofBits bits).low < (ofBits bits).mid := by
    rw [ofBits_low, ofBits_mid]
    split <;> omega
  have hhigh : (ofBits bits).mid < (ofBits bits).high := by rw [ofBits_mid, ofBits_high]; omega
  have hunit : (0 : Rat) < 2 ^ (ofBits bits).unit := by positivity
  have hseventeen : ((ofBits bits).mid : Rat) < ((ofBits bits).high - (ofBits bits).low : Nat) * 10 ^ 16 := by
    exact_mod_cast ofBits_mid_lt bits
  refine exists_onGrid?_of_lt hlow hhigh ?_ tiesUp
  rw [sub_right_comm, zpow_sub₀ (by norm_num), zpow_natCast, div_lt_iff₀ (by positivity)]
  calc (10 : Rat) ^ ((ofBits bits).magnitude - 1) ≤ (ofBits bits).mid * 2 ^ (ofBits bits).unit :=
        pow_magnitude_le hmid (ofBits_unit_ge bits)
    _ < ((ofBits bits).high - (ofBits bits).low : Nat) * 10 ^ 16 * 2 ^ (ofBits bits).unit :=
        mul_lt_mul_of_pos_right hseventeen hunit
    _ = _ := by ring

end OfBits

end RoundingRange

/-- The shortest decimal of a value rounds to this value. -/
theorem Decimal.contains_shortest (tiesUp : Bool) {bits : Nat} (h : 0 < bits) (hbits : bits < 2 ^ 63) :
    (RoundingRange.ofBits bits).Contains (shortest tiesUp bits).value := by
  rw [shortest, value_trim]
  obtain ⟨c, hc⟩ := RoundingRange.exists_hit tiesUp h hbits
  generalize hhit : List.findSome? _ _ = hit
  cases hit with
  | none =>
    rw [List.findSome?_eq_none_iff] at hhit
    have := hhit _ (List.mem_map.mpr ⟨16, by decide, rfl⟩)
    rw [hc] at this
    cases this
  | some d =>
    obtain ⟨exponent, -, hd⟩ := List.exists_of_findSome?_eq_some hhit
    obtain ⟨c, hc, rfl⟩ := Option.map_eq_some_iff.mp hd
    exact RoundingRange.inside_iff.mp (RoundingRange.inside_of_onGrid? hc)

end CircuitStages
