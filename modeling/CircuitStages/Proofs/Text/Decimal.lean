import CircuitStages.Proofs.Text.Rounding
import Mathlib.Data.List.TakeWhile

namespace CircuitStages

def IsDigits (cs : List Char) : Prop := ∀ c ∈ cs, c.isDigit

section Digits

variable {cs ds : List Char}

theorem isDigits_toDigits (n : Nat) : IsDigits (Nat.toDigits 10 n) := fun _ hc =>
  Nat.isDigit_of_mem_toDigits (by decide) (by decide) hc

theorem isDigits_zeros (n : Nat) : IsDigits (List.replicate n '0') := by
  intro c hc
  rw [List.eq_of_mem_replicate hc]
  rfl

theorem IsDigits.notMem (h : IsDigits cs) {c : Char} (hc : c.isDigit = false) : c ∉ cs := by
  intro hmem
  rw [h c hmem] at hc
  cases hc

theorem IsDigits.append (hcs : IsDigits cs) (hds : IsDigits ds) : IsDigits (cs ++ ds) :=
  List.forall_mem_append.mpr ⟨hcs, hds⟩

theorem IsDigits.take (h : IsDigits cs) (n : Nat) : IsDigits (cs.take n) := fun c hc => h c (List.mem_of_mem_take hc)

theorem IsDigits.drop (h : IsDigits cs) (n : Nat) : IsDigits (cs.drop n) := fun c hc => h c (List.mem_of_mem_drop hc)

end Digits

/-- What stands before the first such character, and what stands after it. -/
def splitMark (mark : Char) (cs : List Char) : List Char × List Char :=
  (cs.takeWhile (· != mark), (cs.dropWhile (· != mark)).drop 1)

theorem splitMark_append {mark : Char} {cs : List Char} (h : mark ∉ cs) (rest : List Char) :
    splitMark mark (cs ++ mark :: rest) = (cs, rest) := by
  have hpos : ∀ c ∈ cs, (c != mark) = true := fun c hc => bne_iff_ne.mpr fun heq => h (heq ▸ hc)
  rw [splitMark, List.takeWhile_append_of_pos hpos, List.dropWhile_append_of_pos hpos]
  simp

theorem splitMark_of_notMem {mark : Char} {cs : List Char} (h : mark ∉ cs) : splitMark mark cs = (cs, []) := by
  have hpos : ∀ c ∈ cs, (c != mark) = true := fun c hc => bne_iff_ne.mpr fun heq => h (heq ▸ hc)
  rw [splitMark, List.takeWhile_eq_self_iff.mpr hpos, List.dropWhile_eq_nil_iff.mpr hpos]
  rfl

/-- The number that digits stand for, with a point among them or none. -/
def positionalValue (cs : List Char) : Rat :=
  let parts := splitMark '.' cs
  Nat.ofDigitChars 10 (parts.1 ++ parts.2) 0 / 10 ^ parts.2.length

/-- The number that digits stand for, with a sign or none. -/
def exponentValue (cs : List Char) : Int :=
  match cs with
  | '-' :: ds => -(Nat.ofDigitChars 10 ds 0 : Nat)
  | '+' :: ds => (Nat.ofDigitChars 10 ds 0 : Nat)
  | ds => (Nat.ofDigitChars 10 ds 0 : Nat)

/-- The number that a numeral stands for, perhaps with a power of ten after it. -/
def numeralValue (cs : List Char) : Rat :=
  let parts := splitMark 'e' cs
  positionalValue parts.1 * 10 ^ exponentValue parts.2

section Exponents

theorem toList_toString_natCast (n : Nat) : (toString (n : Int)).toList = Nat.toDigits 10 n := Nat.toList_repr

theorem toList_toString_negSucc (n : Nat) : (toString (Int.negSucc n)).toList = '-' :: Nat.toDigits 10 (n + 1) := by
  show ("-" ++ Nat.repr (n + 1)).toList = _
  rw [String.toList_append, Nat.toList_repr]
  rfl

theorem isDigit_or_eq_of_mem_toString {z : Int} {c : Char} (hc : c ∈ (toString z).toList) : c.isDigit ∨ c = '-' := by
  cases z with
  | ofNat n =>
    rw [Int.ofNat_eq_natCast, toList_toString_natCast] at hc
    exact .inl (isDigits_toDigits n c hc)
  | negSucc n =>
    rw [toList_toString_negSucc] at hc
    rcases List.mem_cons.mp hc with hminus | hdigit
    · exact .inr hminus
    · exact .inl (isDigits_toDigits (n + 1) c hdigit)

theorem exponentValue_of_isDigits {cs : List Char} (h : IsDigits cs) :
    exponentValue cs = (Nat.ofDigitChars 10 cs 0 : Nat) := by
  unfold exponentValue
  split
  next => exact absurd List.mem_cons_self (h.notMem (c := '-') rfl)
  next => exact absurd List.mem_cons_self (h.notMem (c := '+') rfl)
  next => rfl

theorem exponentValue_toString (z : Int) : exponentValue (toString z).toList = z := by
  cases z with
  | ofNat n =>
    rw [Int.ofNat_eq_natCast, toList_toString_natCast, exponentValue_of_isDigits (isDigits_toDigits n),
      Nat.ofDigitChars_ten_toDigits]
  | negSucc n =>
    rw [toList_toString_negSucc, exponentValue, Nat.ofDigitChars_ten_toDigits]
    rfl

theorem exponentValue_signed {z : Int} {plus : Bool} (hz : plus → 0 ≤ z) :
    exponentValue ((if plus then ['+'] else []) ++ (toString z).toList) = z := by
  cases plus with
  | false => exact exponentValue_toString z
  | true =>
    obtain ⟨n, rfl⟩ := Int.eq_ofNat_of_zero_le (hz rfl)
    rw [toList_toString_natCast]
    exact congrArg Nat.cast Nat.ofDigitChars_ten_toDigits

end Exponents

/-- The texts of numbers without sign, each with its number. Where the style has a point in every number, there is no
numeral of digits alone. -/
inductive IsNumeral (pointed : Bool) : List Char → Rat → Prop where
  | whole {digits : List Char} (hdigits : IsDigits digits) (hne : digits ≠ []) (hpointed : pointed = false) :
    IsNumeral pointed digits (Nat.ofDigitChars 10 digits 0)
  | point {digits fraction : List Char} (hdigits : IsDigits digits) (hne : digits ≠ [])
    (hfraction : IsDigits fraction) :
    IsNumeral pointed (digits ++ '.' :: fraction) (Nat.ofDigitChars 10 (digits ++ fraction) 0 / 10 ^ fraction.length)
  | scientific {digits fraction : List Char} {plus : Bool} {exponent : Int} (hdigits : IsDigits digits)
    (hne : digits ≠ []) (hfraction : IsDigits fraction) (hplus : plus → 0 ≤ exponent) :
    IsNumeral pointed (digits ++ (if fraction.isEmpty then [] else '.' :: fraction) ++
        'e' :: ((if plus then ['+'] else []) ++ (toString exponent).toList))
      (Nat.ofDigitChars 10 (digits ++ fraction) 0 / 10 ^ fraction.length * 10 ^ exponent)

namespace IsNumeral

variable {pointed : Bool} {cs : List Char} {q : Rat}

theorem notMem_positional {digits fraction : List Char} (hdigits : IsDigits digits) (hfraction : IsDigits fraction) :
    'e' ∉ digits ++ '.' :: fraction := by
  simp [hdigits.notMem (c := 'e') rfl, hfraction.notMem (c := 'e') rfl]

theorem congr {q' : Rat} (h : IsNumeral pointed cs q) (hq : q = q') : IsNumeral pointed cs q' := hq ▸ h

/-- A numeral stands for one number only. -/
theorem eq_numeralValue (h : IsNumeral pointed cs q) : q = numeralValue cs := by
  cases h with
  | whole hdigits =>
    rw [numeralValue, splitMark_of_notMem (hdigits.notMem rfl), positionalValue,
      splitMark_of_notMem (hdigits.notMem rfl)]
    simp [exponentValue]
  | point hdigits hne hfraction =>
    rw [numeralValue, splitMark_of_notMem (notMem_positional hdigits hfraction), positionalValue,
      splitMark_append (hdigits.notMem rfl)]
    simp [exponentValue]
  | @scientific digits fraction plus exponent hdigits hne hfraction hplus =>
    cases fraction with
    | nil =>
      have hmark : 'e' ∉ digits := hdigits.notMem rfl
      rw [List.isEmpty_nil, if_pos rfl, List.append_nil, numeralValue, splitMark_append hmark, positionalValue,
        splitMark_of_notMem (hdigits.notMem rfl), exponentValue_signed hplus, List.append_nil]
    | cons c fraction =>
      have hmark := notMem_positional hdigits hfraction
      rw [List.isEmpty_cons, if_neg Bool.false_ne_true, numeralValue, splitMark_append hmark, positionalValue,
        splitMark_append (hdigits.notMem rfl), exponentValue_signed hplus]

theorem exists_cons (h : IsNumeral pointed cs q) : ∃ c rest, cs = c :: rest ∧ c.isDigit := by
  have front {digits : List Char} (rest : List Char) (hdigits : IsDigits digits) (hne : digits ≠ []) :
      ∃ c rest', digits ++ rest = c :: rest' ∧ c.isDigit := by
    cases digits with
    | nil => exact absurd rfl hne
    | cons c digits => exact ⟨c, digits ++ rest, rfl, hdigits c List.mem_cons_self⟩
  cases h with
  | whole hdigits hne => simpa using front [] hdigits hne
  | point hdigits hne => exact front _ hdigits hne
  | scientific hdigits hne =>
    rw [List.append_assoc]
    exact front _ hdigits hne

theorem isDigit_or_mem (h : IsNumeral pointed cs q) : ∀ c ∈ cs, c.isDigit ∨ c ∈ ['.', 'e', '+', '-'] := by
  have digit {ds : List Char} (hds : IsDigits ds) : ∀ c ∈ ds, c.isDigit ∨ c ∈ ['.', 'e', '+', '-'] :=
    fun c hc => .inl (hds c hc)
  cases h with
  | whole hdigits => exact digit hdigits
  | point hdigits hne hfraction =>
    exact List.forall_mem_append.mpr ⟨digit hdigits, List.forall_mem_cons.mpr ⟨.inr (by simp), digit hfraction⟩⟩
  | @scientific digits fraction plus exponent hdigits hne hfraction hplus =>
    refine List.forall_mem_append.mpr ⟨List.forall_mem_append.mpr ⟨digit hdigits, ?_⟩,
      List.forall_mem_cons.mpr ⟨.inr (by simp), List.forall_mem_append.mpr ⟨?_, ?_⟩⟩⟩
    · split
      · exact nofun
      · exact List.forall_mem_cons.mpr ⟨.inr (by simp), digit hfraction⟩
    · split
      · simp
      · exact nofun
    · intro c hc
      rcases isDigit_or_eq_of_mem_toString hc with hdigit | rfl
      · exact .inl hdigit
      · exact .inr (by simp)

/-- In a style with a point in every number, no numeral is made of digits alone. -/
theorem exists_mark (h : IsNumeral true cs q) : '.' ∈ cs ∨ 'e' ∈ cs := by
  cases h with
  | whole _ _ hpointed => cases hpointed
  | point => exact .inl (by simp)
  | scientific => exact .inr (by simp)

end IsNumeral

section LayOut

variable {pointed : Bool} {digits : List Char}

/-- The first digit, the others after a point, and the place of the point as a power of ten. -/
theorem isNumeral_exponent (hdigits : IsDigits digits) (hne : digits ≠ []) {plus : Bool} {exponent : Int}
    (hplus : plus → 0 ≤ exponent) :
    IsNumeral pointed (digits.take 1 ++ (if (digits.drop 1).isEmpty then [] else '.' :: digits.drop 1) ++
        'e' :: ((if plus then ['+'] else []) ++ (toString exponent).toList))
      (Nat.ofDigitChars 10 digits 0 * 10 ^ (exponent - (digits.drop 1).length)) := by
  refine (IsNumeral.scientific (hdigits.take 1) (by simpa using hne) (hdigits.drop 1) hplus).congr ?_
  rw [List.take_append_drop, zpow_sub₀ (by norm_num), zpow_natCast, div_mul_eq_mul_div, mul_div_assoc]

/-- A whole number, with zeros in place of the power of ten. -/
theorem isNumeral_zeros (hdigits : IsDigits digits) (hne : digits ≠ []) (n : Nat) :
    IsNumeral pointed (digits ++ List.replicate n '0' ++ if pointed then ['.', '0'] else [])
      (Nat.ofDigitChars 10 digits 0 * 10 ^ n) := by
  have hdigits' := hdigits.append (isDigits_zeros n)
  have hne' : digits ++ List.replicate n '0' ≠ [] := List.append_ne_nil_of_left_ne_nil hne _
  cases pointed with
  | false =>
    rw [if_neg Bool.false_ne_true, List.append_nil]
    refine (IsNumeral.whole hdigits' hne' rfl).congr ?_
    rw [Nat.ofDigitChars_append, Nat.ofDigitChars_replicate_zero]
    push_cast
    ring
  | true =>
    rw [if_pos rfl]
    refine (IsNumeral.point hdigits' hne' (isDigits_zeros 1)).congr ?_
    rw [Nat.ofDigitChars_append, Nat.ofDigitChars_append, Nat.ofDigitChars_replicate_zero,
      Nat.ofDigitChars_replicate_zero, List.length_replicate]
    push_cast
    field_simp

/-- A point among the digits. -/
theorem isNumeral_split (hdigits : IsDigits digits) (hne : digits ≠ []) {n : Nat} (hn : 0 < n) :
    IsNumeral pointed (digits.take n ++ '.' :: digits.drop n)
      (Nat.ofDigitChars 10 digits 0 / 10 ^ (digits.drop n).length) := by
  have hne' : digits.take n ≠ [] := by
    rw [Ne, List.take_eq_nil_iff]
    exact not_or_intro hn.ne' hne
  refine (IsNumeral.point (hdigits.take n) hne' (hdigits.drop n)).congr ?_
  rw [List.take_append_drop]

/-- A point in front of the digits, and zeros between them. -/
theorem isNumeral_fraction (hdigits : IsDigits digits) (n : Nat) :
    IsNumeral pointed ('0' :: '.' :: List.replicate n '0' ++ digits)
      (Nat.ofDigitChars 10 digits 0 / 10 ^ (n + digits.length)) := by
  have hfraction := (isDigits_zeros n).append hdigits
  refine (IsNumeral.point (isDigits_zeros 1) (List.cons_ne_nil _ _) hfraction).congr ?_
  simp only [Nat.ofDigitChars_append, Nat.ofDigitChars_replicate_zero, Nat.mul_zero, List.length_append,
    List.length_replicate]

theorem isNumeral_layOut (style : DecimalStyle) (d : Decimal) :
    IsNumeral style.pointed (d.layOut style).toList d.value := by
  have hdigits := isDigits_toDigits d.digits
  have hvalue : Nat.ofDigitChars 10 (Nat.toDigits 10 d.digits) 0 = d.digits := Nat.ofDigitChars_ten_toDigits
  have hlength : 0 < (Nat.toDigits 10 d.digits).length := Nat.length_toDigits_pos
  rw [Decimal.layOut, String.toList_ofList, Decimal.value]
  generalize Nat.toDigits 10 d.digits = digits at *
  have hne : digits ≠ [] := List.ne_nil_of_length_pos hlength
  dsimp only
  generalize hpoint : (digits.length : Int) + d.exponent = point
  have hlow {n : Nat} (hn : (n : Int) = -d.exponent) : (10 : Rat) ^ d.exponent = (10 ^ n)⁻¹ := by
    rw [← zpow_natCast, hn, zpow_neg, inv_inv]
  split
  next =>
    have hplus : (style.signed && decide (0 < point)) = true → 0 ≤ point - 1 := by
      simp only [Bool.and_eq_true, decide_eq_true_eq]
      omega
    have hshift : point - 1 - (digits.drop 1).length = d.exponent := by
      rw [List.length_drop]
      omega
    rw [List.append_assoc, List.cons_append]
    exact (isNumeral_exponent hdigits hne hplus).congr (by rw [hshift, hvalue])
  next =>
    split
    next hwhole =>
      have hhigh : (10 : Rat) ^ d.exponent = 10 ^ d.exponent.toNat := by
        rw [← zpow_natCast, Int.toNat_of_nonneg hwhole]
      exact (isNumeral_zeros hdigits hne d.exponent.toNat).congr (by rw [hhigh, hvalue])
    next =>
      split
      next hpositive =>
        have hrest : ((digits.drop point.toNat).length : Int) = -d.exponent := by
          rw [List.length_drop]
          omega
        exact (isNumeral_split hdigits hne (by omega)).congr (by rw [hvalue, hlow hrest, div_eq_mul_inv])
      next =>
        have hrest : (((-point).toNat + digits.length : Nat) : Int) = -d.exponent := by omega
        exact (isNumeral_fraction hdigits _).congr (by rw [hvalue, hlow hrest, div_eq_mul_inv])

end LayOut

section Bits

open Float.Model

theorem eq_of_toBits {x y : Float} (h : x.toBits = y.toBits) : x = y := by
  obtain ⟨⟨a, ha⟩⟩ := x
  obtain ⟨⟨b, hb⟩⟩ := y
  cases h
  rfl

theorem toNat_unpackExponent (b : BitVec 64) :
    (@UnpackedFloat.unpackExponent Format.binary64 b).toNat = b.toNat / 2 ^ 52 % 2 ^ 11 := by
  rw [UnpackedFloat.unpackExponent, BitVec.toNat_cast, BitVec.extractLsb_toNat, Nat.shiftRight_eq_div_pow]
  rfl

theorem toNat_unpackMantissa (b : BitVec 64) :
    (@UnpackedFloat.unpackMantissa Format.binary64 b).toNat = b.toNat % 2 ^ 52 := by
  rw [UnpackedFloat.unpackMantissa, BitVec.toNat_cast, BitVec.extractLsb_toNat, Nat.shiftRight_zero]
  rfl

/-- The largest exponent is that of the infinite values and of what is not a number. -/
theorem unpack_cases (b : BitVec 64) :
    (@UnpackedFloat.unpackExponent Format.binary64 b = -1#_ ∧ @UnpackedFloat.unpackMantissa Format.binary64 b = 0#_ ∧
      ∃ s, UnpackedFloat.unpack Format.binary64 b = .infinity s) ∨
    (@UnpackedFloat.unpackExponent Format.binary64 b = -1#_ ∧ @UnpackedFloat.unpackMantissa Format.binary64 b ≠ 0#_ ∧
      UnpackedFloat.unpack Format.binary64 b = .notANumber) ∨
    (∃ s, UnpackedFloat.unpack Format.binary64 b = .zero s) ∨
    ∃ s m e h, UnpackedFloat.unpack Format.binary64 b = .finite s m e h := by
  by_cases hmantissa : @UnpackedFloat.unpackMantissa Format.binary64 b = 0#_
  all_goals by_cases hexponent : @UnpackedFloat.unpackExponent Format.binary64 b = -1#_
  · exact .inl ⟨hexponent, hmantissa, _, (if_pos hexponent).trans (if_pos hmantissa)⟩
  · by_cases hzero : @UnpackedFloat.unpackExponent Format.binary64 b = 0#_
    · exact .inr (.inr (.inl ⟨_, (if_neg hexponent).trans ((if_pos hzero).trans (dif_pos hmantissa))⟩))
    · exact .inr (.inr (.inr ⟨_, _, _, _, (if_neg hexponent).trans (if_neg hzero)⟩))
  · exact .inr (.inl ⟨hexponent, hmantissa, (if_pos hexponent).trans (if_neg hmantissa)⟩)
  · by_cases hzero : @UnpackedFloat.unpackExponent Format.binary64 b = 0#_
    · exact .inr (.inr (.inr ⟨_, _, _, _, (if_neg hexponent).trans ((if_pos hzero).trans (dif_neg hmantissa))⟩))
    · exact .inr (.inr (.inr ⟨_, _, _, _, (if_neg hexponent).trans (if_neg hzero)⟩))

/-- There is one value that is not a number. -/
theorem eq_of_isNaN {x y : Float} (hx : x.isNaN) (hy : y.isNaN) : x = y := by
  have packed {x : Float} (h : x.isNaN) : x.toBits.toBitVec = UnpackedFloat.packedNaN Format.binary64 := by
    obtain ⟨⟨a, ha⟩⟩ := x
    change (UnpackedFloat.unpack Format.binary64 a.toBitVec).isNaN = true at h
    rcases unpack_cases a.toBitVec with ⟨-, -, _, heq⟩ | ⟨hexponent, hmantissa, -⟩ | ⟨_, heq⟩ | ⟨_, _, _, _, heq⟩
    · rw [heq] at h
      cases h
    · exact ha.eq_packedNaN hexponent hmantissa
    all_goals
      rw [heq] at h
      cases h
  exact eq_of_toBits (UInt64.toBitVec_inj.mp ((packed hx).trans (packed hy).symm))

/-- Apart from the sign there is one infinite value. -/
theorem toNat_of_isInf {x : Float} (h : x.isInf) : x.toBits.toNat % 2 ^ 63 = 2047 * 2 ^ 52 := by
  obtain ⟨⟨a, ha⟩⟩ := x
  change (UnpackedFloat.unpack Format.binary64 a.toBitVec).isInf = true at h
  show a.toNat % _ = _
  rcases unpack_cases a.toBitVec with ⟨hexponent, hmantissa, -⟩ | ⟨-, -, heq⟩ | ⟨_, heq⟩ | ⟨_, _, _, _, heq⟩
  · have hhigh := congrArg BitVec.toNat hexponent
    have hlow := congrArg BitVec.toNat hmantissa
    rw [toNat_unpackExponent] at hhigh
    rw [toNat_unpackMantissa] at hlow
    simp at hhigh hlow
    omega
  all_goals
    rw [heq] at h
    cases h

end Bits

namespace DecimalStyle

variable {style : DecimalStyle} {x y : Float}

/-- What the sign of a number with these bits is written as. -/
def signText (bits : Nat) : List Char := if 2 ^ 63 ≤ bits then ['-'] else []

/-- The text of a number, without its sign, tells the size of the number. -/
inductive TellsSize (style : DecimalStyle) (size : Nat) : List Char → Prop where
  | infinite (hsize : size = 2047 * 2 ^ 52) : TellsSize style size ['i', 'n', 'f']
  | finite {cs : List Char} {q : Rat} (hnumeral : IsNumeral style.pointed cs q)
    (hrange : (RoundingRange.ofBits size).Contains q) : TellsSize style size cs

theorem contains_zero : (RoundingRange.ofBits 0).Contains 0 := by
  rw [RoundingRange.Contains, RoundingRange.ofBits_closed, if_pos (by decide), RoundingRange.lowEnd,
    RoundingRange.highEnd]
  constructor
  · rw [RoundingRange.ofBits_low]
    simp [RoundingRange.mantissa]
  · positivity

theorem TellsSize.exists_cons {size : Nat} {cs : List Char} (h : style.TellsSize size cs) :
    ∃ c rest, cs = c :: rest ∧ (c.isDigit ∨ c = 'i') := by
  cases h with
  | infinite => exact ⟨_, _, rfl, .inr rfl⟩
  | finite hnumeral =>
    obtain ⟨c, rest, rfl, hc⟩ := hnumeral.exists_cons
    exact ⟨c, rest, rfl, .inl hc⟩

theorem TellsSize.size_eq {size size' : Nat} {cs : List Char} (h : style.TellsSize size cs)
    (h' : style.TellsSize size' cs) (hsize : size < 2 ^ 63) (hsize' : size' < 2 ^ 63) : size = size' := by
  cases h with
  | infinite heq =>
    cases h' with
    | infinite heq' => rw [heq, heq']
    | finite hnumeral' =>
      obtain ⟨c, rest, hcs, hc⟩ := hnumeral'.exists_cons
      cases hcs
      cases hc
  | finite hnumeral hrange =>
    cases h' with
    | infinite =>
      obtain ⟨c, rest, hcs, hc⟩ := hnumeral.exists_cons
      cases hcs
      cases hc
    | finite hnumeral' hrange' =>
      rw [hnumeral.eq_numeralValue] at hrange
      rw [hnumeral'.eq_numeralValue] at hrange'
      exact RoundingRange.eq_of_contains hsize hsize' hrange hrange'

theorem toList_write (style : DecimalStyle) (hx : x.isNaN = false) : ∃ cs,
    (style.write x).toList = signText x.toBits.toNat ++ cs ∧ style.TellsSize (x.toBits.toNat % 2 ^ 63) cs := by
  rw [write, hx, if_neg Bool.false_ne_true]
  have hsign : (if Nat.pow 2 63 ≤ x.toBits.toNat then "-" else "").toList = signText x.toBits.toNat := by
    rw [apply_ite String.toList]
    rfl
  split
  next hinf =>
    rw [String.toList_append, hsign]
    exact ⟨_, rfl, .infinite (toNat_of_isInf hinf)⟩
  next =>
    split
    next hzero =>
      have hsize : x.toBits.toNat % 2 ^ 63 = 0 := hzero
      rw [String.toList_append, hsign, hsize]
      refine ⟨_, rfl, .finite (q := 0) ?_ contains_zero⟩
      cases hpointed : style.pointed with
      | false =>
        exact (IsNumeral.whole (isDigits_zeros 1) (List.cons_ne_nil _ _) rfl).congr
          (by simp [Nat.ofDigitChars_cons])
      | true =>
        exact (IsNumeral.point (isDigits_zeros 1) (List.cons_ne_nil _ _) (isDigits_zeros 1)).congr
          (by simp [Nat.ofDigitChars_cons])
    next hzero =>
      rw [String.toList_append, hsign]
      refine ⟨_, rfl, .finite (isNumeral_layOut style _) ?_⟩
      exact Decimal.contains_shortest _ (Nat.pos_of_ne_zero hzero) (Nat.mod_lt _ (by decide))

theorem sign_append_inj {bits bits' size size' : Nat} {cs ds : List Char} (hcs : style.TellsSize size cs)
    (hds : style.TellsSize size' ds) (h : signText bits ++ cs = signText bits' ++ ds) :
    (2 ^ 63 ≤ bits ↔ 2 ^ 63 ≤ bits') ∧ cs = ds := by
  obtain ⟨c, cs, rfl, hc⟩ := hcs.exists_cons
  obtain ⟨d, ds, rfl, hd⟩ := hds.exists_cons
  have sign {c : Char} (hc : c.isDigit ∨ c = 'i') : c ≠ '-' := by
    rintro rfl
    rcases hc with hc | hc <;> cases hc
  rw [signText, signText] at h
  split at h <;> split at h
  next hbits hbits' => exact ⟨iff_of_true hbits hbits', (List.cons.inj h).2⟩
  next => exact absurd (List.cons.inj h).1.symm (sign hd)
  next => exact absurd (List.cons.inj h).1 (sign hc)
  next hbits hbits' => exact ⟨iff_of_false hbits hbits', h⟩

/-- Numbers with the same text are equal. -/
theorem write_injective (style : DecimalStyle) : Function.Injective style.write := by
  have named {x y : Float} (hx : x.isNaN) (hy : y.isNaN = false) : style.write x ≠ style.write y := by
    intro h
    obtain ⟨cs, htext, hcs⟩ := toList_write style hy
    obtain ⟨c, rest, rfl, hc⟩ := hcs.exists_cons
    rw [← h, write, hx, if_pos rfl, signText] at htext
    split at htext
    · cases htext
    · cases htext
      rcases hc with hc | hc <;> cases hc
  intro x y h
  cases hx : x.isNaN with
  | true =>
    cases hy : y.isNaN with
    | true => exact eq_of_isNaN hx hy
    | false => exact absurd h (named hx hy)
  | false =>
    cases hy : y.isNaN with
    | true => exact absurd h.symm (named hy hx)
    | false =>
      obtain ⟨cs, htext, hcs⟩ := toList_write style hx
      obtain ⟨ds, htext', hds⟩ := toList_write style hy
      rw [h, htext'] at htext
      obtain ⟨hsign, rfl⟩ := sign_append_inj hds hcs htext
      have hsize := hcs.size_eq hds (Nat.mod_lt _ (by decide)) (Nat.mod_lt _ (by decide))
      have hx64 := x.toBits.toNat_lt
      have hy64 := y.toBits.toNat_lt
      exact eq_of_toBits (UInt64.toNat_inj.mp (by omega))

theorem isDigit_or_mem_write (style : DecimalStyle) (x : Float) :
    ∀ c ∈ (style.write x).toList, c.isDigit ∨ c ∈ "-inf.e+NaN".toList := by
  cases hx : x.isNaN with
  | true =>
    rw [write, hx, if_pos rfl]
    simp
  | false =>
    obtain ⟨cs, htext, hcs⟩ := toList_write style hx
    rw [htext, signText]
    refine List.forall_mem_append.mpr ⟨?_, ?_⟩
    · split <;> simp
    · cases hcs with
      | infinite => simp
      | finite hnumeral =>
        intro c hc
        rcases hnumeral.isDigit_or_mem c hc with hdigit | hmark
        · exact .inl hdigit
        · right
          simp at hmark ⊢
          tauto

/-- Where whole numbers have a point, no text is that of an integer. -/
theorem write_ne_toString {style : DecimalStyle} (hpointed : style.pointed = true) (x : Float) (z : Int) :
    style.write x ≠ toString z := by
  intro h
  have hmark : ∃ c ∈ (style.write x).toList, c ∈ ['.', 'e', 'i', 'N'] := by
    cases hx : x.isNaN with
    | true =>
      rw [write, hx, if_pos rfl]
      simp
    | false =>
      obtain ⟨cs, htext, hcs⟩ := toList_write style hx
      simp only [htext, List.mem_append]
      cases hcs with
      | infinite => exact ⟨'i', by simp⟩
      | finite hnumeral =>
        rw [hpointed] at hnumeral
        rcases hnumeral.exists_mark with hpoint | hexponent
        · exact ⟨'.', .inr hpoint, by simp⟩
        · exact ⟨'e', .inr hexponent, by simp⟩
  have hother : ∀ c ∈ ['.', 'e', 'i', 'N'], ¬ (c.isDigit ∨ c = '-') := by simp
  obtain ⟨c, hc, hmem⟩ := hmark
  exact hother c hmem (isDigit_or_eq_of_mem_toString (h ▸ hc))

end DecimalStyle

end CircuitStages
