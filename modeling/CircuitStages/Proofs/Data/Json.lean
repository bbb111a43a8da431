import Mathlib.Data.List.TakeWhile
import CircuitStages.Data.Json
import CircuitStages.Proofs.Data.Encoding
import CircuitStages.Proofs.Text.Decimal

namespace CircuitStages

section Spans

variable {α : Type} {p : α → Bool} {xs r : List α}

theorem takeWhile_append_of_head (hr : ∀ x ∈ r.head?, p x = false) : (xs ++ r).takeWhile p = xs.takeWhile p := by
  have hstop : r.takeWhile p = [] := by
    cases r with
    | nil => rfl
    | cons x r => exact List.takeWhile_cons_of_neg (by simp [hr x rfl])
  rw [List.takeWhile_append, hstop, List.append_nil]
  split
  next hall => exact ((List.takeWhile_prefix p).eq_of_length hall).symm
  next => rfl

theorem dropWhile_append_of_head (hr : ∀ x ∈ r.head?, p x = false) :
    (xs ++ r).dropWhile p = xs.dropWhile p ++ r := by
  have hstop : r.dropWhile p = r := by
    cases r with
    | nil => rfl
    | cons x r => exact List.dropWhile_cons_of_neg (by simp [hr x rfl])
  rw [List.dropWhile_append, hstop]
  split
  next hnone => rw [List.isEmpty_iff.mp hnone, List.nil_append]
  next => rfl

end Spans

/-- The number that the text of a number is read as, if it is read as one. -/
def NumberText.readBack? (numbers : NumberText) (x : Float) : Option Float :=
  match Json.number numbers (numbers.write x).toList with
  | some (some (.float y), []) => some y
  | _ => none

/-- Whether a number comes back from its text. A reader that does not round to the nearest number loses some. -/
def NumberText.Survives (numbers : NumberText) (x : Float) : Prop := numbers.readBack? x = some x

instance (numbers : NumberText) (x : Float) : Decidable (numbers.Survives x) :=
  inferInstanceAs (Decidable (numbers.readBack? x = some x))

theorem NumberText.Survives.number {numbers : NumberText} {x : Float} (h : numbers.Survives x) :
    Json.number numbers (numbers.write x).toList = some (some (.float x), []) := by
  rw [Survives, readBack?] at h
  split at h
  next heq =>
    cases h
    exact heq
  next => cases h

namespace Json

variable {numbers : NumberText} {cs r rest : List Char}

/-- Whether a number in front of this text ends there. -/
def EndsNumber (r : List Char) : Prop := ∀ c ∈ r.head?, c.isDigit = false ∧ c ≠ '.' ∧ c ≠ 'e' ∧ c ≠ 'E'

theorem endsNumber_cons {c : Char} (hc : c.isDigit = false ∧ c ≠ '.' ∧ c ≠ 'e' ∧ c ≠ 'E') : EndsNumber (c :: r) := by
  intro d hd
  obtain rfl : c = d := Option.some.inj hd
  exact hc

theorem EndsNumber.takeWhile (hr : EndsNumber r) : (cs ++ r).takeWhile Char.isDigit = cs.takeWhile Char.isDigit :=
  takeWhile_append_of_head fun c hc => (hr c hc).1

theorem EndsNumber.dropWhile (hr : EndsNumber r) :
    (cs ++ r).dropWhile Char.isDigit = cs.dropWhile Char.isDigit ++ r :=
  dropWhile_append_of_head fun c hc => (hr c hc).1

theorem splitSign_append (hcs : cs ≠ []) :
    Numeral.splitSign (cs ++ r) = ((Numeral.splitSign cs).1, (Numeral.splitSign cs).2 ++ r) := by
  cases cs with
  | nil => exact absurd rfl hcs
  | cons c cs =>
    by_cases hminus : c = '-'
    · subst hminus
      rfl
    · by_cases hplus : c = '+'
      · subst hplus
        rfl
      · simp [Numeral.splitSign, hminus, hplus]

theorem fractionPart_append (hr : EndsNumber r) :
    fractionPart (cs ++ r) = ((fractionPart cs).1, (fractionPart cs).2 ++ r) := by
  cases cs with
  | nil =>
    cases r with
    | nil => rfl
    | cons c r =>
      obtain ⟨-, hpoint, -, -⟩ := hr c rfl
      simp [fractionPart, hpoint]
  | cons c cs =>
    by_cases hpoint : c = '.'
    · subst hpoint
      simp [fractionPart, hr.takeWhile, hr.dropWhile]
    · simp [fractionPart, hpoint]

theorem exponentPart_append {e : Option Int} (hr : EndsNumber r) (h : Numeral.exponentPart cs = some (e, rest)) :
    Numeral.exponentPart (cs ++ r) = some (e, rest ++ r) := by
  cases cs with
  | nil =>
    obtain ⟨rfl, rfl⟩ : none = e ∧ [] = rest := by simpa [Numeral.exponentPart] using h
    cases r with
    | nil => rfl
    | cons c r =>
      obtain ⟨-, -, hlower, hupper⟩ := hr c rfl
      simp [Numeral.exponentPart, hlower, hupper]
  | cons c cs =>
    simp only [List.cons_append, Numeral.exponentPart] at h ⊢
    split
    next hc =>
      rw [if_pos hc] at h
      -- an exponent has digits, so its sign cannot come from what follows it
      have hcs : cs ≠ [] := by
        rintro rfl
        simp [Numeral.splitSign] at h
      simp only [splitSign_append hcs, hr.takeWhile, hr.dropWhile]
      split at h
      next => cases h
      next hdigits =>
        rw [if_neg hdigits]
        cases h
        rfl
    next hc =>
      rw [if_neg hc] at h
      cases h
      rfl

theorem unsigned_append {negative : Bool} {v : Option Value} (hr : EndsNumber r)
    (h : unsigned numbers negative cs = some (v, rest)) :
    unsigned numbers negative (cs ++ r) = some (v, rest ++ r) := by
  simp only [unsigned, hr.takeWhile, hr.dropWhile, fractionPart_append hr] at h ⊢
  split at h
  next => cases h
  next hwhole =>
    rw [if_neg hwhole]
    split at h
    next => cases h
    next hfraction =>
      rw [if_neg hfraction]
      obtain ⟨⟨exponent, after⟩, hexponent, heq⟩ := Option.bind_eq_some_iff.mp h
      cases heq
      rw [exponentPart_append hr hexponent]
      rfl

theorem number_cons {c : Char} (hminus : c ≠ '-') : number numbers (c :: cs) = unsigned numbers false (c :: cs) := by
  simp [number, hminus]

theorem number_append {v : Option Value} (hr : EndsNumber r) (h : number numbers cs = some (v, rest)) :
    number numbers (cs ++ r) = some (v, rest ++ r) := by
  cases cs with
  | nil => simp [number, unsigned] at h
  | cons c cs =>
    by_cases hminus : c = '-'
    · subst hminus
      exact unsigned_append hr h
    · rw [number_cons hminus] at h
      rw [List.cons_append, number_cons hminus]
      exact unsigned_append hr h

/-- Whether a number can begin with this character. -/
def BeginsNumber (c : Char) : Prop := c.isDigit ∨ c = '-'

theorem BeginsNumber.ne {c d : Char} (hc : BeginsNumber c) (hdigit : d.isDigit = false) (hminus : d ≠ '-') : c ≠ d := by
  rintro rfl
  simp [BeginsNumber, hdigit, hminus] at hc

theorem exists_cons_of_number {v : Option Value} (h : number numbers cs = some (v, rest)) :
    ∃ c tail, cs = c :: tail ∧ BeginsNumber c := by
  cases cs with
  | nil => simp [number, unsigned] at h
  | cons c cs =>
    by_cases hminus : c = '-'
    · exact ⟨c, cs, rfl, .inr hminus⟩
    · refine ⟨c, cs, rfl, .inl ?_⟩
      by_contra hdigit
      simp [number_cons hminus, unsigned, hdigit] at h

theorem head?_toDigits_ne {n : Nat} (hn : n ≠ 0) : (Nat.toDigits 10 n).head? ≠ some '0' := by
  have hdigit : ∀ k < 10, k ≠ 0 → Nat.digitChar k ≠ '0' := by decide
  induction n using Nat.strongRecOn with
  | ind n ih =>
    rw [Nat.toDigits_eq_if (by decide)]
    split
    next hlt => simpa using hdigit n hlt hn
    next hge =>
      rw [List.head?_append_of_ne_nil _ Nat.toDigits_ne_nil]
      exact ih (n / 10) (by omega) (by omega)

theorem unsigned_toDigits {negative : Bool} {n : Nat} :
    unsigned numbers negative (Nat.toDigits 10 n) =
      some (numberValue? numbers negative (Nat.toDigits 10 n) [] none, []) := by
  have hzero : 1 < (Nat.toDigits 10 n).length → (Nat.toDigits 10 n).head? ≠ some '0' := by
    intro hlength
    refine head?_toDigits_ne ?_
    rintro rfl
    simp at hlength
  have hwhole : ¬((Nat.toDigits 10 n).isEmpty ||
      (1 < (Nat.toDigits 10 n).length && (Nat.toDigits 10 n).head? = some '0')) := by
    simpa using hzero
  simp only [unsigned, List.takeWhile_eq_self_iff.mpr (isDigits_toDigits n),
    List.dropWhile_eq_nil_iff.mpr (isDigits_toDigits n)]
  rw [if_neg hwhole]
  rfl

theorem digitsValue_toDigits (n : Nat) : Numeral.digitsValue (Nat.toDigits 10 n) = n := Nat.ofDigitChars_ten_toDigits

theorem numberValue?_neg {m : Nat} (hpos : 0 < m) (hm : m ≤ Nat.pow 2 63) :
    numberValue? numbers true (Nat.toDigits 10 m) [] none = some (.int (-(m : Int))) := by
  have hrange : (decide (0 < m) && decide (m ≤ Nat.pow 2 63)) = true :=
    Bool.and_eq_true_iff.mpr ⟨decide_eq_true hpos, decide_eq_true hm⟩
  simp only [numberValue?, digitsValue_toDigits]
  exact if_pos hrange

theorem numberValue?_natCast {m : Nat} (hm : m < Nat.pow 2 64) :
    numberValue? numbers false (Nat.toDigits 10 m) [] none = some (.int m) := by
  simp only [numberValue?, digitsValue_toDigits]
  exact if_pos (decide_eq_true hm)

theorem number_intText {n : Int} (hlow : -(Nat.pow 2 63 : Nat) ≤ n) (hhigh : n < Nat.pow 2 64) :
    number numbers (intText n) = some (some (.int n), []) := by
  rw [intText]
  split
  next hneg =>
    obtain ⟨m, rfl⟩ : ∃ m : Nat, n = -(m : Int) := ⟨n.natAbs, by omega⟩
    rw [Int.natAbs_neg, Int.natAbs_natCast, ← numberValue?_neg (by omega) (by omega)]
    exact unsigned_toDigits
  next hnonneg =>
    obtain ⟨m, rfl⟩ := Int.eq_ofNat_of_zero_le (Int.not_lt.mp hnonneg)
    obtain ⟨c, cs, hcons⟩ := List.exists_cons_of_ne_nil (Nat.toDigits_ne_nil (n := m) (b := 10))
    have hminus : c ≠ '-' := by
      rintro rfl
      exact (isDigits_toDigits m).notMem (c := '-') rfl (hcons ▸ List.mem_cons_self)
    rw [Int.natAbs_natCast, List.nil_append, hcons, number_cons hminus, ← hcons, unsigned_toDigits,
      numberValue?_natCast (by omega)]

section Strings

/-- The character is written so that it is read as one unit of UTF-16, or as itself. -/
theorem stringRest_escape (read : List Nat) (c : Char) (rest : List Char) :
    stringRest read (escape c ++ rest) = stringRest (c.toNat :: read) rest := by
  have hunit : ∀ k < 0x20, unit? '0' '0' (Nat.digitChar (k / 16)) (Nat.digitChar (k % 16)) = some k := by decide
  rw [escape.eq_def]
  split
  next => rfl
  next => rfl
  next => rfl
  next => rfl
  next => rfl
  next => rfl
  next => rfl
  next hquote hbackslash _ _ _ _ _ =>
    split
    next hcontrol =>
      simp [stringRest, hunit c.toNat hcontrol]
    next hshown =>
      rw [List.singleton_append, stringRest, if_neg hshown]
      · exact hquote
      · exact fun _ _ _ _ _ heq _ => hbackslash heq
      · exact fun _ _ heq _ => hbackslash heq

theorem stringRest_flatMap_escape (read : List Nat) (cs rest : List Char) :
    stringRest read (cs.flatMap escape ++ '"' :: rest) = some (read.reverse ++ cs.map Char.toNat, rest) := by
  induction cs generalizing read with
  | nil => simp [stringRest]
  | cons c cs ih => simp [stringRest_escape, ih]

theorem charsOfUnits?_map_toNat (cs : List Char) : charsOfUnits? (cs.map Char.toNat) = some cs := by
  have hsurrogate (c : Char) : isSurrogate c.toNat = false := by
    have hvalid : c.toNat < 0xd800 ∨ 0xdfff < c.toNat ∧ c.toNat < 0x110000 := c.valid
    simp only [isSurrogate, Bool.and_eq_false_iff, decide_eq_false_iff_not]
    omega
  induction cs with
  | nil => rfl
  | cons c cs ih =>
    cases cs with
    | nil => simp [charsOfUnits?, hsurrogate]
    | cons d cs =>
      simp only [List.map_cons] at ih ⊢
      rw [charsOfUnits?, if_pos (by simp [hsurrogate]), ih, Char.ofNat_toNat]
      rfl

theorem string_stringText (s : String) (rest : List Char) :
    string (s.toList.flatMap escape ++ '"' :: rest) = some (some s, rest) := by
  rw [string, stringRest_flatMap_escape, List.reverse_nil, List.nil_append]
  simp [charsOfUnits?_map_toNat]

end Strings

/-- Data that comes back from its text: whole numbers fit 64 bits, other numbers survive, and collections are nested at
most so many levels deep. -/
inductive Readable (numbers : NumberText) : Nat → Value → Prop where
  | null {levels : Nat} : Readable numbers levels .null
  | bool {levels : Nat} {b : Bool} : Readable numbers levels (.bool b)
  | int {levels : Nat} {n : Int} (hlow : -(Nat.pow 2 63 : Nat) ≤ n) (hhigh : n < Nat.pow 2 64) :
    Readable numbers levels (.int n)
  | float {levels : Nat} {x : Float} (h : numbers.Survives x) : Readable numbers levels (.float x)
  | string {levels : Nat} {s : String} : Readable numbers levels (.string s)
  | array {levels : Nat} {items : List Value} (h : ∀ v ∈ items, Readable numbers levels v) :
    Readable numbers (levels + 1) (.array items)
  | object {levels : Nat} {fields : List (String × Value)} (h : ∀ f ∈ fields, Readable numbers levels f.2) :
    Readable numbers (levels + 1) (.object fields)

section Values

variable {levels fuel : Nat} {v : Value}

theorem skipBlanks_cons {c : Char} (hc : isSpace c = false) : skipBlanks (c :: cs) = c :: cs :=
  List.dropWhile_cons_of_neg (by simp [hc])

theorem BeginsNumber.isSpace_eq_false {c : Char} (hc : BeginsNumber c) : isSpace c = false := by
  simp [isSpace, hc.ne]

theorem skipBlanks_mark {c : Char} (hc : c ∈ ['"', '[', '\x7b', ':', ',', ']', '\x7d']) :
    skipBlanks (c :: cs) = c :: cs := by
  have hmarks : ∀ d ∈ ['"', '[', '\x7b', ':', ',', ']', '\x7d'], isSpace d = false := by simp [isSpace]
  exact skipBlanks_cons (hmarks c hc)

/-- What begins like a number is read as one. -/
theorem value_number {depth : Nat} {n : Option Value} (h : number numbers cs = some (n, [])) (hr : EndsNumber r) :
    value numbers (fuel + 1) depth (cs ++ r) = some (n.elim .unreadable fun v => .scalar v none, r) := by
  obtain ⟨c, tail, rfl, hc⟩ := exists_cons_of_number h
  have hskip : skipBlanks (c :: tail ++ r) = c :: tail ++ r := skipBlanks_cons hc.isSpace_eq_false
  rw [value, hskip]
  split
  case h_7 => rw [number_append hr h]; rfl
  all_goals
    next heq => exact absurd (List.cons.inj heq).1 (hc.ne rfl (by decide))

/-- Whether a value is read back as its document, whatever closes or goes on with the collection that it is in. -/
def ReadsBack (numbers : NumberText) (depth : Nat) (v : Value) : Prop :=
  ∀ fuel r, (valueText numbers v).length < fuel → EndsNumber r →
    value numbers fuel depth (valueText numbers v ++ r) = some (v.toNode, r)

/-- The text of readable data begins neither with a blank nor like the end of a collection. -/
theorem Readable.exists_cons (h : Readable numbers levels v) :
    ∃ c tail, valueText numbers v = c :: tail ∧ isSpace c = false ∧ c ≠ ']' := by
  have hnumber {n : Option Value} (h : number numbers (valueText numbers v) = some (n, [])) :
      ∃ c tail, valueText numbers v = c :: tail ∧ isSpace c = false ∧ c ≠ ']' := by
    obtain ⟨c, tail, hcons, hc⟩ := exists_cons_of_number h
    exact ⟨c, tail, hcons, hc.isSpace_eq_false, hc.ne rfl (by decide)⟩
  cases h with
  | null => exact ⟨_, _, rfl, rfl, by decide⟩
  | @bool _ b => cases b <;> exact ⟨_, _, rfl, rfl, by decide⟩
  | int hlow hhigh => exact hnumber (number_intText hlow hhigh)
  | float h => exact hnumber h.number
  | string => exact ⟨_, _, rfl, rfl, by decide⟩
  | array => exact ⟨_, _, rfl, rfl, by decide⟩
  | object => exact ⟨_, _, rfl, rfl, by decide⟩

theorem endsNumber_closing {c : Char} (hc : c = ',' ∨ c = ']' ∨ c = '\x7d') : EndsNumber (c :: r) := by
  rcases hc with rfl | rfl | rfl <;> exact endsNumber_cons (by decide)

theorem intercalate_itemTexts (v w : Value) (vs : List Value) :
    [','].intercalate (itemTexts numbers (v :: w :: vs)) =
      valueText numbers v ++ ',' :: [','].intercalate (itemTexts numbers (w :: vs)) := by
  rw [itemTexts, itemTexts, List.intercalate_cons_cons, List.append_assoc, List.singleton_append]

/-- Items between commas are read one by one up to the closing bracket. -/
theorem items_readBack {depth : Nat} {vs : List Value} (h : ∀ w ∈ v :: vs, ReadsBack numbers depth w) (fuel : Nat)
    (r : List Char) (hfuel : ([','].intercalate (itemTexts numbers (v :: vs))).length + 1 < fuel) :
    items numbers fuel depth ([','].intercalate (itemTexts numbers (v :: vs)) ++ ']' :: r) =
      some (itemsToNodes (v :: vs), r) := by
  induction vs generalizing v fuel with
  | nil =>
    obtain ⟨fuel, rfl⟩ := Nat.exists_eq_succ_of_ne_zero (Nat.ne_zero_of_lt hfuel)
    rw [itemTexts, itemTexts, List.intercalate_singleton] at hfuel ⊢
    rw [items, h v List.mem_cons_self fuel _ (by omega) (endsNumber_closing (by simp))]
    rfl
  | cons w vs ih =>
    obtain ⟨fuel, rfl⟩ := Nat.exists_eq_succ_of_ne_zero (Nat.ne_zero_of_lt hfuel)
    obtain ⟨hv, hvs⟩ := List.forall_mem_cons.mp h
    rw [intercalate_itemTexts] at hfuel ⊢
    rw [List.length_append, List.length_cons] at hfuel
    have hmore := ih hvs fuel (by omega)
    rw [List.append_assoc, List.cons_append, items, hv fuel _ (by omega) (endsNumber_closing (by simp))]
    simp [skipBlanks_mark, hmore, itemsToNodes]

theorem intercalate_fieldTexts (f g : String × Value) (fields : List (String × Value)) :
    [','].intercalate (fieldTexts numbers (f :: g :: fields)) =
      stringText f.1 ++ ':' :: valueText numbers f.2 ++
        ',' :: [','].intercalate (fieldTexts numbers (g :: fields)) := by
  rw [fieldTexts, fieldTexts, List.intercalate_cons_cons, List.append_assoc, List.singleton_append]

/-- Fields between commas are read one by one up to the closing brace. -/
theorem entries_readBack {depth : Nat} {f : String × Value} {fields : List (String × Value)}
    (h : ∀ g ∈ f :: fields, ReadsBack numbers depth g.2) (fuel : Nat) (r : List Char)
    (hfuel : ([','].intercalate (fieldTexts numbers (f :: fields))).length + 1 < fuel) :
    entries numbers fuel depth ([','].intercalate (fieldTexts numbers (f :: fields)) ++ '\x7d' :: r) =
      some ((fieldsToNodes (f :: fields)).map fun g => (some g.1, g.2), r) := by
  induction fields generalizing f fuel with
  | nil =>
    obtain ⟨fuel, rfl⟩ := Nat.exists_eq_succ_of_ne_zero (Nat.ne_zero_of_lt hfuel)
    rw [fieldTexts, fieldTexts, List.intercalate_singleton] at hfuel ⊢
    rw [List.length_append, List.length_cons] at hfuel
    have hvalue := h f List.mem_cons_self fuel ('\x7d' :: r) (by omega) (endsNumber_closing (by simp))
    simp [entries, stringText, skipBlanks_mark, string_stringText, hvalue, fieldsToNodes]
  | cons g fields ih =>
    obtain ⟨fuel, rfl⟩ := Nat.exists_eq_succ_of_ne_zero (Nat.ne_zero_of_lt hfuel)
    obtain ⟨hf, hfields⟩ := List.forall_mem_cons.mp h
    rw [intercalate_fieldTexts] at hfuel ⊢
    rw [List.length_append, List.length_append, List.length_cons, List.length_cons] at hfuel
    have hvalue := hf fuel (',' :: ([','].intercalate (fieldTexts numbers (g :: fields)) ++ '\x7d' :: r)) (by omega)
      (endsNumber_closing (by simp))
    have hmore := ih hfields fuel (by omega)
    simp [entries, stringText, skipBlanks_mark, string_stringText, hvalue, hmore, fieldsToNodes]

theorem ofEntries_map_some (fields : List (String × Node)) :
    Node.ofEntries (fields.map fun f => (some f.1, f.2)) = .mapping fields := by
  have hsome : (fields.map fun f => (some f.1, f.2)).mapM (fun f => f.1.map fun name => (name, f.2)) = some fields := by
    induction fields with
    | nil => rfl
    | cons f fields ih => simp [ih]
  rw [Node.ofEntries, hsome]

/-- A text is never empty, so there is fuel for its first character. -/
theorem ReadsBack.of_succ {depth : Nat} (h : ∀ fuel r, (valueText numbers v).length < fuel + 1 → EndsNumber r →
    value numbers (fuel + 1) depth (valueText numbers v ++ r) = some (v.toNode, r)) : ReadsBack numbers depth v := by
  rintro (- | fuel) r hfuel hr
  · exact absurd hfuel (Nat.not_lt_zero _)
  · exact h fuel r hfuel hr

theorem readsBack_array {vs : List Value} (h : ∀ v ∈ vs, Readable numbers levels v)
    (hread : ∀ v ∈ vs, ReadsBack numbers levels v) : ReadsBack numbers (levels + 1) (.array vs) := by
  refine .of_succ fun fuel r hfuel _ => ?_
  cases vs with
  | nil => rfl
  | cons v vs =>
    -- what comes first is an item, since no item begins like the end
    obtain ⟨c, tail, hcons, hspace, hclosing⟩ :
        ∃ c tail, [','].intercalate (itemTexts numbers (v :: vs)) = c :: tail ∧ isSpace c = false ∧ c ≠ ']' := by
      obtain ⟨c, tail, hcons, hc⟩ := (h v List.mem_cons_self).exists_cons
      cases vs with
      | nil => exact ⟨c, tail, by simpa [itemTexts] using hcons, hc⟩
      | cons w vs => exact ⟨c, _, by rw [intercalate_itemTexts, hcons, List.cons_append], hc⟩
    have hitems := items_readBack hread fuel r (by simpa [valueText] using hfuel)
    rw [hcons, List.cons_append] at hitems
    have htext : valueText numbers (.array (v :: vs)) ++ r = '[' :: c :: (tail ++ ']' :: r) := by
      simp [valueText, hcons]
    simp [htext, value, skipBlanks_mark, skipBlanks_cons hspace, hclosing, hitems, Node.within, Value.toNode]

theorem readsBack_object {fields : List (String × Value)} (hread : ∀ f ∈ fields, ReadsBack numbers levels f.2) :
    ReadsBack numbers (levels + 1) (.object fields) := by
  refine .of_succ fun fuel r hfuel _ => ?_
  cases fields with
  | nil => rfl
  | cons f fields =>
    obtain ⟨tail, hcons⟩ : ∃ tail, [','].intercalate (fieldTexts numbers (f :: fields)) = '"' :: tail := by
      cases fields with
      | nil => exact ⟨_, by rw [fieldTexts, fieldTexts, List.intercalate_singleton]; rfl⟩
      | cons g fields => exact ⟨_, by rw [intercalate_fieldTexts]; rfl⟩
    have hentries := entries_readBack hread fuel r (by simpa [valueText] using hfuel)
    rw [hcons, List.cons_append] at hentries
    have htext : valueText numbers (.object (f :: fields)) ++ r = '\x7b' :: '"' :: (tail ++ '\x7d' :: r) := by
      simp [valueText, hcons]
    simp [htext, value, skipBlanks_mark, hentries, ofEntries_map_some, Node.within, Value.toNode]

theorem readsBack_string (s : String) : ReadsBack numbers levels (.string s) := by
  refine .of_succ fun fuel r _ _ => ?_
  simp [valueText, stringText, value, skipBlanks_mark, string_stringText, Value.toNode]

theorem Readable.readsBack (h : Readable numbers levels v) : ReadsBack numbers levels v := by
  induction h with
  | null => exact .of_succ fun _ _ _ _ => rfl
  | @bool _ b => cases b <;> exact .of_succ fun _ _ _ _ => rfl
  | int hlow hhigh => exact .of_succ fun _ _ _ hr => value_number (number_intText hlow hhigh) hr
  | float h => exact .of_succ fun _ _ _ hr => value_number h.number hr
  | string => exact readsBack_string _
  | array h ih => exact readsBack_array h ih
  | object h ih => exact readsBack_object ih

/-- Readable data comes back from its text. -/
theorem read_write (h : Readable numbers maxDepth v) : read numbers (write numbers v) = .ok v.toNode := by
  have hread := h.readsBack ((valueText numbers v).length + 1) [] (by omega) (by simp [EndsNumber])
  rw [List.append_nil] at hread
  rw [read, write, String.toList_ofList]
  simp only [hread]
  rfl

end Values

section Typed

variable {α : Type} {levels : Nat}

theorem readable_ofNat {k : Nat} (hk : k ≤ Node.maxIndex) : Readable numbers levels (.ofNat k) := by
  have hlimit : Node.maxIndex < Nat.pow 2 64 := by decide
  exact .int (by omega) (by omega)

theorem readable_list {write : α → Value} {xs : List α} (h : ∀ x ∈ xs, Readable numbers levels (write x)) :
    Readable numbers (levels + 1) (.array (xs.map write)) :=
  .array (List.forall_mem_map.mpr h)

theorem readable_ofNats {ks : List Nat} (h : ∀ k ∈ ks, k ≤ Node.maxIndex) :
    Readable numbers (levels + 1) (.ofNats ks) :=
  readable_list fun k hk => readable_ofNat (h k hk)

theorem readable_ofPairs {pairs : List (Nat × Nat)} (h : ∀ e ∈ pairs, e.1 ≤ Node.maxIndex ∧ e.2 ≤ Node.maxIndex) :
    Readable numbers (levels + 2) (.ofPairs pairs) := by
  refine readable_list fun e he => readable_ofNats ?_
  simpa using h e he

theorem readable_ofFloat {x : Float} (hx : x.isFinite) (h : numbers.Survives x) :
    Readable numbers levels (.ofFloat x) := by
  rw [Value.ofFloat, if_pos hx]
  exact .float h

theorem readable_ofOption {write : α → Value} {o : Option α} (h : ∀ x ∈ o, Readable numbers levels (write x)) :
    Readable numbers levels (.ofOption write o) := by
  cases o with
  | none => exact .null
  | some x => exact h x rfl

end Typed

end Json

end CircuitStages
