import Mathlib.Data.List.Basic
import CircuitStages.Text.Description

namespace CircuitStages

/-- What a list begins with up to the first member of a kind can be told from the rest. -/
theorem append_inj_of_span {α : Type} {p : α → Bool} {xs ys r r' : List α} (hxs : ∀ x ∈ xs, p x) (hys : ∀ y ∈ ys, p y)
    (hr : ∀ x ∈ r.head?, p x = false) (hr' : ∀ x ∈ r'.head?, p x = false) (h : xs ++ r = ys ++ r') :
    xs = ys ∧ r = r' := by
  have outside {x : α} {xs : List α} (hxs : ∀ y ∈ x :: xs, p y) (hx : p x = false) : False := by
    rw [hxs x List.mem_cons_self] at hx
    cases hx
  induction xs generalizing ys with
  | nil =>
    cases ys with
    | nil => exact ⟨rfl, h⟩
    | cons y ys => exact (outside hys (hr y (by rw [← List.nil_append r, h]; rfl))).elim
  | cons x xs ih =>
    cases ys with
    | nil => exact (outside hxs (hr' x (by rw [← List.nil_append r', ← h]; rfl))).elim
    | cons y ys =>
      obtain ⟨rfl, htail⟩ := List.cons.inj h
      obtain ⟨rfl, hrest⟩ := ih (List.forall_mem_cons.mp hxs).2 (List.forall_mem_cons.mp hys).2 htail
      exact ⟨rfl, hrest⟩

section Digits

variable {b n : Nat}

theorem exists_digitChar (hb : 1 < b) : ∀ c ∈ Nat.toDigits b n, ∃ k < b, c = Nat.digitChar k := by
  induction n using Nat.strongRecOn with
  | ind n ih =>
    rw [Nat.toDigits_eq_if hb]
    split
    next hn => simpa using ⟨n, hn, rfl⟩
    next hn =>
      refine List.forall_mem_append.mpr ⟨ih (n / b) (Nat.div_lt_self (by omega) hb), ?_⟩
      simpa using ⟨n % b, Nat.mod_lt n (by omega), rfl⟩

/-- Digits tell the number wherever different digits have different characters. -/
theorem toDigits_injective (hb : 1 < b) (hchar : ∀ k < b, ∀ l < b, Nat.digitChar k = Nat.digitChar l → k = l) :
    Function.Injective (Nat.toDigits b) := by
  intro n m h
  induction n using Nat.strongRecOn generalizing m with
  | ind n ih =>
    rw [Nat.toDigits_eq_if hb, Nat.toDigits_eq_if hb (n := m)] at h
    split at h <;> split at h
    next hn hm => exact hchar n hn m hm (List.cons.inj h).1
    next => simpa using congrArg List.length h
    next => simpa using congrArg List.length h
    next hn hm =>
      obtain ⟨hhigh, hlow⟩ := List.append_inj' h rfl
      have hdiv := ih (n / b) (Nat.div_lt_self (by omega) hb) hhigh
      have hmod := hchar _ (Nat.mod_lt n (by omega)) _ (Nat.mod_lt m (by omega)) (List.cons.inj hlow).1
      rw [← Nat.div_add_mod n b, ← Nat.div_add_mod m b, hdiv, hmod]

theorem toDigits_sixteen_injective : Function.Injective (Nat.toDigits 16) :=
  toDigits_injective (by decide) (by decide)

end Digits

/-- The character that a backslash and this letter stand for. -/
def unescape : Char → Char
  | '0' => '\x00'
  | 't' => '\t'
  | 'r' => '\r'
  | 'n' => '\n'
  | e => e

/-- The ways in which a character is written: as itself, by a letter after a backslash, or by its number. -/
inductive Quotes (c : Char) : List Char → Prop where
  | plain (hslash : c ≠ '\\') (hquote : c ≠ '"') : Quotes c [c]
  | escaped {e : Char} (he : e ≠ 'u') (hc : unescape e = c) : Quotes c ['\\', e]
  | hidden : Quotes c (['\\', 'u', '\x7b'] ++ Nat.toDigits 16 c.toNat ++ ['\x7d'])

theorem quotes_quoteChar (c : Char) : Quotes c (quoteChar c) := by
  unfold quoteChar
  split
  next => exact .escaped (by decide) rfl
  next => exact .escaped (by decide) rfl
  next => exact .escaped (by decide) rfl
  next => exact .escaped (by decide) rfl
  next => exact .escaped (by decide) rfl
  next => exact .escaped (by decide) rfl
  next hslash hquote =>
    split
    · exact .hidden
    · exact .plain hslash hquote

/-- What is written for a character is not the beginning of what is written for another one. -/
theorem Quotes.eq_and_eq {c d : Char} {cs ds r r' : List Char} (hc : Quotes c cs) (hd : Quotes d ds)
    (h : cs ++ r = ds ++ r') : c = d ∧ r = r' := by
  have hdigit : ∀ k < 16, (Nat.digitChar k != '\x7d') = true := by decide
  have hbrace (n : Nat) : ∀ c ∈ Nat.toDigits 16 n, (c != '\x7d') = true := by
    intro c hc
    obtain ⟨k, hk, rfl⟩ := exists_digitChar (by decide) c hc
    exact hdigit k hk
  cases hc with
  | plain hslash =>
    cases hd with
    | plain => exact ⟨(List.cons.inj h).1, (List.cons.inj h).2⟩
    | escaped => exact absurd (List.cons.inj h).1 hslash
    | hidden => exact absurd (List.cons.inj h).1 hslash
  | escaped he hc =>
    cases hd with
    | plain hslash => exact absurd (List.cons.inj h).1.symm hslash
    | escaped he' hd =>
      obtain ⟨rfl, hrest⟩ := List.cons.inj (List.cons.inj h).2
      exact ⟨hc.symm.trans hd, hrest⟩
    | hidden => exact absurd (List.cons.inj (List.cons.inj h).2).1 he
  | hidden =>
    cases hd with
    | plain hslash => exact absurd (List.cons.inj h).1.symm hslash
    | escaped he => exact absurd (List.cons.inj (List.cons.inj h).2).1.symm he
    | hidden =>
      simp only [List.append_assoc, List.append_cancel_left_eq] at h
      obtain ⟨hdigits, hrest⟩ := append_inj_of_span (hbrace c.toNat) (hbrace d.toNat) (by simp) (by simp) h
      exact ⟨Char.toNat_inj.mp (toDigits_sixteen_injective hdigits), List.append_cancel_left hrest⟩

theorem Quotes.exists_cons {c : Char} {cs : List Char} (h : Quotes c cs) : ∃ d rest, cs = d :: rest ∧ d ≠ '"' := by
  cases h with
  | plain _ hquote => exact ⟨_, _, rfl, hquote⟩
  | escaped => exact ⟨_, _, rfl, by decide⟩
  | hidden => exact ⟨_, _, rfl, by decide⟩

theorem flatMap_quoteChar_inj {cs ds r r' : List Char}
    (h : cs.flatMap quoteChar ++ '"' :: r = ds.flatMap quoteChar ++ '"' :: r') : cs = ds ∧ r = r' := by
  induction cs generalizing ds with
  | nil =>
    cases ds with
    | nil => exact ⟨rfl, (List.cons.inj h).2⟩
    | cons d ds =>
      obtain ⟨e, rest, heq, hne⟩ := (quotes_quoteChar d).exists_cons
      rw [List.flatMap_cons, heq] at h
      exact absurd (List.cons.inj h).1.symm hne
  | cons c cs ih =>
    cases ds with
    | nil =>
      obtain ⟨e, rest, heq, hne⟩ := (quotes_quoteChar c).exists_cons
      rw [List.flatMap_cons, heq] at h
      exact absurd (List.cons.inj h).1 hne
    | cons d ds =>
      rw [List.flatMap_cons, List.flatMap_cons, List.append_assoc, List.append_assoc] at h
      obtain ⟨rfl, hrest⟩ := (quotes_quoteChar c).eq_and_eq (quotes_quoteChar d) h
      obtain ⟨rfl, hr⟩ := ih hrest
      exact ⟨rfl, hr⟩

/-- A text can be read back from between its quotes. -/
theorem quoted_append_inj {s t : String} {r r' : List Char} (h : (quoted s).toList ++ r = (quoted t).toList ++ r') :
    s = t ∧ r = r' := by
  simp only [quoted, String.toList_ofList, List.append_assoc, List.cons_append, List.nil_append] at h
  obtain ⟨heq, hr⟩ := flatMap_quoteChar_inj (List.cons.inj h).2
  exact ⟨String.toList_inj.mp heq, hr⟩

end CircuitStages
