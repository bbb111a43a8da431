import CircuitStages.Proofs.Text.Quoted
import CircuitStages.Text.Description

namespace CircuitStages

namespace Description

/-- The characters that surround names and words. -/
def isDelimiter (c : Char) : Bool := [' ', ',', ':', '(', ')', '[', ']', '\x7b', '\x7d', '"'].contains c

/-- A text that is shown without quotes, and needs none. -/
structure IsName (s : String) : Prop where
  nonempty : s.toList ≠ []
  plain : ∀ c ∈ s.toList, isDelimiter c = false

instance (s : String) : Decidable (IsName s) :=
  decidable_of_iff (s.toList ≠ [] ∧ s.toList.any isDelimiter = false) <| by
    rw [List.any_eq_false]
    simp only [Bool.not_eq_true]
    exact ⟨fun h => ⟨h.1, h.2⟩, fun h => ⟨h.1, h.2⟩⟩

/-- Descriptions whose words and names need no quotes. A tuple may be without a name. -/
inductive Plain : Description → Prop where
  | word {w : String} (hw : IsName w) : Plain (word w)
  | text (s : String) : Plain (text s)
  | tuple {name : String} {args : List Description} (hname : name = "" ∨ IsName name) (hargs : ∀ d ∈ args, Plain d) :
    Plain (tuple name args)
  | record {name : String} {fields : List (String × Description)} (hname : IsName name)
    (hnames : ∀ f ∈ fields, IsName f.1) (hfields : ∀ f ∈ fields, Plain f.2) : Plain (record name fields)
  | list {items : List Description} (hitems : ∀ d ∈ items, Plain d) : Plain (list items)
  | set {items : List Description} (hitems : ∀ d ∈ items, Plain d) : Plain (set items)
  | map {entries : List (Description × Description)} (hkeys : ∀ e ∈ entries, Plain e.1)
    (hentries : ∀ e ∈ entries, Plain e.2) : Plain (map entries)
  | labelled {name : String} {content : Description} (hname : IsName name) (hcontent : Plain content) :
    Plain (labelled name content)

mutual

/-- The description as far as its text tells it: an empty set looks like an empty map. -/
def shown : Description → Description
  | word w => word w
  | text s => text s
  | tuple name args => tuple name (shownAll args)
  | record name fields => record name (shownFields fields)
  | list items => list (shownAll items)
  | set items => if items.isEmpty then map [] else set (shownAll items)
  | map entries => map (shownEntries entries)
  | labelled name content => labelled name content.shown

def shownAll : List Description → List Description
  | [] => []
  | d :: rest => d.shown :: shownAll rest

def shownFields : List (String × Description) → List (String × Description)
  | [] => []
  | (name, d) :: rest => (name, d.shown) :: shownFields rest

def shownEntries : List (Description × Description) → List (Description × Description)
  | [] => []
  | (key, d) :: rest => (key.shown, d.shown) :: shownEntries rest

end

theorem shownAll_eq_map (ds : List Description) : shownAll ds = ds.map shown := by
  induction ds with
  | nil => rfl
  | cons d ds ih => rw [shownAll, ih, List.map_cons]

theorem shownFields_eq_map (fields : List (String × Description)) :
    shownFields fields = fields.map fun f => (f.1, f.2.shown) := by
  induction fields with
  | nil => rfl
  | cons f fields ih => rw [shownFields, ih, List.map_cons]

theorem shownEntries_eq_map (entries : List (Description × Description)) :
    shownEntries entries = entries.map fun e => (e.1.shown, e.2.shown) := by
  induction entries with
  | nil => rfl
  | cons e entries ih => rw [shownEntries, ih, List.map_cons]

/-- The characters of a description's text. -/
def chars (d : Description) : List Char := d.render.toList

/-- Texts that each stand behind a comma. -/
def others : List (List Char) → List Char
  | [] => []
  | cs :: rest => ',' :: ' ' :: (cs ++ others rest)

/-- Texts with commas between them. -/
def joined : List (List Char) → List Char
  | [] => []
  | cs :: rest => cs ++ others rest

theorem toList_separated (items : List String) : (separated items).toList = joined (items.map String.toList) := by
  rw [separated, String.toList_intercalate]
  induction items with
  | nil => rfl
  | cons s items ih =>
    cases items with
    | nil => simp [joined, others]
    | cons t items =>
      rw [List.map_cons, List.map_cons, List.intercalate_cons_cons, ← List.map_cons, ih]
      simp [joined, others]

/-- A field's name and content. -/
def fieldChars (f : String × Description) : List Char := f.1.toList ++ ':' :: ' ' :: f.2.chars

/-- An entry's key and content. -/
def entryChars (e : Description × Description) : List Char := e.1.chars ++ ':' :: ' ' :: e.2.chars

theorem map_toList_renderAll (ds : List Description) : (renderAll ds).map String.toList = ds.map chars := by
  induction ds with
  | nil => rfl
  | cons d ds ih =>
    rw [renderAll, List.map_cons, ih]
    rfl

theorem map_toList_renderFields (fields : List (String × Description)) :
    (renderFields fields).map String.toList = fields.map fieldChars := by
  induction fields with
  | nil => rfl
  | cons f fields ih =>
    rw [renderFields, List.map_cons, ih]
    simp [fieldChars, chars]

theorem map_toList_renderEntries (entries : List (Description × Description)) :
    (renderEntries entries).map String.toList = entries.map entryChars := by
  induction entries with
  | nil => rfl
  | cons e entries ih =>
    rw [renderEntries, List.map_cons, ih]
    simp [entryChars, chars]

/-- The word or name that a description's text begins with. -/
def front : Description → String
  | word w => w
  | tuple name _ | record name _ | labelled name _ => name
  | text _ | list _ | set _ | map _ => ""

/-- The characters after the word or name. -/
def body : Description → List Char
  | word _ => []
  | text s => (quoted s).toList
  | tuple _ args => '(' :: (joined (args.map chars) ++ [')'])
  | record _ fields => ' ' :: '\x7b' :: ' ' :: (joined (fields.map fieldChars) ++ [' ', '\x7d'])
  | list items => '[' :: (joined (items.map chars) ++ [']'])
  | set items => '\x7b' :: (joined (items.map chars) ++ ['\x7d'])
  | map entries => '\x7b' :: (joined (entries.map entryChars) ++ ['\x7d'])
  | labelled _ content => ' ' :: content.chars

theorem chars_eq (d : Description) : d.chars = d.front.toList ++ d.body := by
  cases d <;> simp [chars, front, body, render, toList_separated, map_toList_renderAll, map_toList_renderFields,
    map_toList_renderEntries]

/-- What may follow a description's text: nothing, or what closes or separates. -/
inductive Ends : List Char → Prop where
  | nil : Ends []
  | mark {c : Char} {r : List Char} (hc : c ∈ [',', ':', ')', ']', '\x7d']) : Ends (c :: r)
  | brace {r : List Char} : Ends (' ' :: '\x7d' :: r)

/-- What can be told of a description from the text after its name. -/
inductive Shape where
  | word
  | text
  | tuple
  | record
  | list
  | braces
  | labelled

def Shape.afterSpace : List Char → Shape
  | '\x7d' :: _ => word
  | '\x7b' :: ' ' :: _ => record
  | _ => labelled

def Shape.ofRest : List Char → Shape
  | '"' :: _ => text
  | '(' :: _ => tuple
  | '[' :: _ => list
  | '\x7b' :: _ => braces
  | ' ' :: rest => afterSpace rest
  | _ => word

def shape : Description → Shape
  | word _ => .word
  | text _ => .text
  | tuple _ _ => .tuple
  | record _ _ => .record
  | list _ => .list
  | set _ | map _ => .braces
  | labelled _ _ => .labelled

/-- How a description's text begins: not like what follows one, and a brace without a space after it. -/
def Opens (cs : List Char) : Prop :=
  ∃ c rest, cs = c :: rest ∧ c ∉ [' ', ',', ':', ')', ']', '\x7d'] ∧
    (c = '\x7b' → ∃ e rest', rest = e :: rest' ∧ e ≠ ' ')

theorem Opens.append {cs : List Char} (h : Opens cs) (r : List Char) : Opens (cs ++ r) := by
  obtain ⟨c, rest, rfl, hc, hbrace⟩ := h
  refine ⟨c, rest ++ r, rfl, hc, fun heq => ?_⟩
  obtain ⟨e, rest', rfl, he⟩ := hbrace heq
  exact ⟨e, rest' ++ r, rfl, he⟩

theorem Opens.ne_append {cs : List Char} (h : Opens cs) {c : Char} (hc : c ∈ [' ', ',', ':', ')', ']', '\x7d'])
    (r r' : List Char) : c :: r ≠ cs ++ r' := by
  obtain ⟨d, rest, rfl, hd, -⟩ := h
  intro heq
  exact hd ((List.cons.inj heq).1 ▸ hc)

theorem Opens.afterSpace {cs : List Char} (h : Opens cs) : Shape.afterSpace cs = .labelled := by
  obtain ⟨c, rest, rfl, hc, hbrace⟩ := h
  unfold Shape.afterSpace
  split
  next heq =>
    cases heq
    simp at hc
  next heq =>
    cases heq
    obtain ⟨e, rest', heq', he⟩ := hbrace rfl
    cases heq'
    exact absurd rfl he
  next => rfl

theorem IsName.opens {s : String} (h : IsName s) (r : List Char) : Opens (s.toList ++ r) := by
  cases hs : s.toList with
  | nil => exact absurd hs h.nonempty
  | cons c rest =>
    have hdelimiter : ∀ c ∈ ['\x7b', ' ', ',', ':', ')', ']', '\x7d'], isDelimiter c = true := by simp [isDelimiter]
    have hplain : ¬ isDelimiter c = true := by
      rw [h.plain c (by rw [hs]; exact List.mem_cons_self)]
      exact Bool.false_ne_true
    refine ⟨c, rest ++ r, rfl, fun hmem => ?_, fun heq => ?_⟩
    · exact absurd (hdelimiter c (List.mem_cons_of_mem _ hmem)) hplain
    · exact absurd (hdelimiter c (heq ▸ List.mem_cons_self)) hplain

theorem opens_of_ne {c : Char} {r : List Char} (hc : c ∉ [' ', ',', ':', ')', ']', '\x7d']) (hbrace : c ≠ '\x7b') :
    Opens (c :: r) :=
  ⟨c, r, rfl, hc, fun heq => absurd heq hbrace⟩

theorem opens_braces {cells : List (List Char)} {r : List Char} (h : ∀ cs ∈ cells, Opens cs) :
    Opens ('\x7b' :: (joined cells ++ '\x7d' :: r)) := by
  refine ⟨_, _, rfl, by decide, fun _ => ?_⟩
  cases cells with
  | nil => exact ⟨'\x7d', r, rfl, by decide⟩
  | cons cs cells =>
    obtain ⟨c, rest, rfl, hc, -⟩ := h _ List.mem_cons_self
    refine ⟨c, _, rfl, ?_⟩
    rintro rfl
    simp at hc

theorem toList_quoted (s : String) : ∃ rest, (quoted s).toList = '"' :: rest :=
  ⟨_, by rw [quoted, String.toList_ofList, List.cons_append]⟩

theorem Plain.opens {d : Description} (hd : Plain d) : Opens d.chars := by
  rw [chars_eq]
  induction hd with
  | word hw => exact hw.opens _
  | text s =>
    obtain ⟨rest, hrest⟩ := toList_quoted s
    rw [body, hrest]
    exact opens_of_ne (by decide) (by decide)
  | @tuple name args hname =>
    rcases hname with rfl | hname
    · exact opens_of_ne (by decide) (by decide)
    · exact hname.opens _
  | record hname => exact hname.opens _
  | list => exact opens_of_ne (by decide) (by decide)
  | set hitems ih =>
    refine opens_braces fun cs hcs => ?_
    obtain ⟨d, hd, rfl⟩ := List.mem_map.mp hcs
    rw [chars_eq]
    exact ih d hd
  | map hkeys hentries ih =>
    refine opens_braces fun cs hcs => ?_
    obtain ⟨e, he, rfl⟩ := List.mem_map.mp hcs
    rw [entryChars, chars_eq]
    exact (ih e he).append _
  | labelled hname => exact hname.opens _

theorem Plain.shape_eq {d : Description} (hd : Plain d) {r : List Char} (hr : Ends r) :
    Shape.ofRest (d.body ++ r) = d.shape := by
  cases hd with
  | word =>
    cases hr with
    | nil => rfl
    | mark hc =>
      simp only [List.mem_cons, List.not_mem_nil, or_false] at hc
      rcases hc with rfl | rfl | rfl | rfl | rfl <;> rfl
    | brace => rfl
  | text s =>
    obtain ⟨rest, hrest⟩ := toList_quoted s
    rw [body, hrest]
    rfl
  | labelled hname hcontent =>
    exact (hcontent.opens.append r).afterSpace
  | tuple | record | list | set | map => rfl

section Joined

variable {α β : Type} {cell : α → List Char} {key : α → β}

/-- Whether equal texts of two things, whatever ends them, tell that the things are equal. -/
def Told (cell : α → List Char) (key : α → β) (x y : α) : Prop :=
  ∀ {r r' : List Char}, Ends r → Ends r' → cell x ++ r = cell y ++ r' → key x = key y ∧ r = r'

theorem Told.symm {x y : α} (h : Told cell key x y) : Told cell key y x := by
  intro r r' hr hr' heq
  obtain ⟨hkey, hrest⟩ := h hr' hr heq.symm
  exact ⟨hkey.symm, hrest.symm⟩

/-- What can stand after the last of several items. -/
def closings : List (List Char) := [[')'], [']'], ['\x7d'], [' ', '\x7d']]

variable {close : List Char}

theorem ends_closing (h : close ∈ closings) (r : List Char) : Ends (close ++ r) := by
  simp only [closings, List.mem_cons, List.not_mem_nil, or_false] at h
  rcases h with rfl | rfl | rfl | rfl
  · exact .mark (by simp)
  · exact .mark (by simp)
  · exact .mark (by simp)
  · exact .brace

theorem exists_closing (h : close ∈ closings) :
    ∃ c rest, close = c :: rest ∧ c ∈ [' ', ',', ':', ')', ']', '\x7d'] ∧ c ≠ ',' := by
  simp only [closings, List.mem_cons, List.not_mem_nil, or_false] at h
  rcases h with rfl | rfl | rfl | rfl <;> exact ⟨_, _, rfl, by simp, by decide⟩

theorem ends_others (hclose : close ∈ closings) (css : List (List Char)) (r : List Char) :
    Ends (others css ++ (close ++ r)) := by
  cases css with
  | nil => exact ends_closing hclose r
  | cons cs css => exact .mark (by simp)

theorem others_append_inj (hclose : close ∈ closings) {xs ys : List α} (h : ∀ x ∈ xs, ∀ y ∈ ys, Told cell key x y)
    {r r' : List Char} (heq : others (xs.map cell) ++ (close ++ r) = others (ys.map cell) ++ (close ++ r')) :
    xs.map key = ys.map key ∧ r = r' := by
  obtain ⟨c, rest, rfl, -, hcomma⟩ := exists_closing hclose
  induction xs generalizing ys with
  | nil =>
    cases ys with
    | nil => exact ⟨rfl, List.append_cancel_left heq⟩
    | cons y ys => exact absurd (List.cons.inj heq).1 hcomma
  | cons x xs ih =>
    cases ys with
    | nil => exact absurd (List.cons.inj heq).1.symm hcomma
    | cons y ys =>
      obtain ⟨hx, hxs⟩ := List.forall_mem_cons.mp h
      have htail := (List.cons.inj (List.cons.inj heq).2).2
      rw [List.append_eq, List.append_eq, List.append_assoc, List.append_assoc] at htail
      obtain ⟨hkey, hrest⟩ := hx y List.mem_cons_self (ends_others hclose _ r) (ends_others hclose _ r') htail
      obtain ⟨hkeys, hr⟩ := ih (fun x hx y hy => hxs x hx y (List.mem_cons_of_mem _ hy)) hrest
      exact ⟨by rw [List.map_cons, List.map_cons, hkey, hkeys], hr⟩

/-- Items between brackets can be told apart if each of them can. -/
theorem joined_append_inj (hclose : close ∈ closings) {xs ys : List α} (hxs : ∀ x ∈ xs, Opens (cell x))
    (hys : ∀ y ∈ ys, Opens (cell y)) (h : ∀ x ∈ xs, ∀ y ∈ ys, Told cell key x y) {r r' : List Char}
    (heq : joined (xs.map cell) ++ (close ++ r) = joined (ys.map cell) ++ (close ++ r')) :
    xs.map key = ys.map key ∧ r = r' := by
  obtain ⟨c, rest, rfl, hc, -⟩ := exists_closing hclose
  cases xs with
  | nil =>
    cases ys with
    | nil => exact ⟨rfl, List.append_cancel_left heq⟩
    | cons y ys =>
      rw [List.map_cons, joined, List.append_assoc] at heq
      exact absurd heq ((hys y List.mem_cons_self).ne_append hc _ _)
  | cons x xs =>
    cases ys with
    | nil =>
      rw [List.map_cons, joined, List.append_assoc] at heq
      exact absurd heq.symm ((hxs x List.mem_cons_self).ne_append hc _ _)
    | cons y ys =>
      obtain ⟨hx, hrest⟩ := List.forall_mem_cons.mp h
      rw [List.map_cons, List.map_cons, joined, joined, List.append_assoc, List.append_assoc] at heq
      obtain ⟨hkey, htail⟩ := hx y List.mem_cons_self (ends_others hclose _ r) (ends_others hclose _ r') heq
      obtain ⟨hkeys, hr⟩ := others_append_inj hclose (fun x hx y hy => hrest x hx y (List.mem_cons_of_mem _ hy)) htail
      exact ⟨by rw [List.map_cons, List.map_cons, hkey, hkeys], hr⟩

theorem bracketed_append_inj (lead : List Char) (hclose : close ∈ closings) {xs ys : List α}
    (hxs : ∀ x ∈ xs, Opens (cell x)) (hys : ∀ y ∈ ys, Opens (cell y)) (h : ∀ x ∈ xs, ∀ y ∈ ys, Told cell key x y)
    {r r' : List Char}
    (heq : lead ++ (joined (xs.map cell) ++ close) ++ r = lead ++ (joined (ys.map cell) ++ close) ++ r') :
    xs.map key = ys.map key ∧ r = r' := by
  simp only [List.append_assoc, List.append_cancel_left_eq] at heq
  exact joined_append_inj hclose hxs hys h heq

end Joined

/-- The items of a set are told from the entries of a map by what stands after the first item or key. -/
theorem eq_nil_of_body_eq {items : List Description} {entries : List (Description × Description)}
    (hitems : ∀ d ∈ items, Plain d) (hkeys : ∀ e ∈ entries, Plain e.1)
    (h : ∀ d ∈ items, ∀ e ∈ entries, Told chars shown d e.1) {r r' : List Char}
    (heq : (set items).body ++ r = (map entries).body ++ r') : items = [] ∧ entries = [] ∧ r = r' := by
  simp only [body, List.cons_append, List.append_assoc, List.nil_append, List.cons.injEq, true_and] at heq
  cases items with
  | nil =>
    cases entries with
    | nil => exact ⟨rfl, rfl, (List.cons.inj heq).2⟩
    | cons e entries =>
      rw [List.map_cons, joined, entryChars, List.append_assoc, List.append_assoc] at heq
      exact absurd heq ((hkeys e List.mem_cons_self).opens.ne_append (by simp) _ _)
  | cons d items =>
    cases entries with
    | nil =>
      rw [List.map_cons, joined, List.append_assoc] at heq
      exact absurd heq.symm ((hitems d List.mem_cons_self).opens.ne_append (by simp) _ _)
    | cons e entries =>
      rw [List.map_cons, List.map_cons, joined, joined, entryChars, List.append_assoc, List.append_assoc,
        List.append_assoc] at heq
      have hclose : ['\x7d'] ∈ closings := by simp [closings]
      obtain ⟨-, hrest⟩ := h d List.mem_cons_self e List.mem_cons_self (ends_others hclose _ r) (.mark (by simp)) heq
      cases items with
      | nil => cases hrest
      | cons => cases hrest

theorem Plain.front_plain {d : Description} (hd : Plain d) : ∀ c ∈ d.front.toList, isDelimiter c = false := by
  cases hd with
  | word hw => exact hw.plain
  | tuple hname =>
    rcases hname with rfl | hname
    · exact nofun
    · exact hname.plain
  | record hname => exact hname.plain
  | labelled hname => exact hname.plain
  | text | list | set | map => exact nofun

theorem Plain.body_head {d : Description} (hd : Plain d) {r : List Char} (hr : Ends r) :
    ∀ c ∈ (d.body ++ r).head?, isDelimiter c = true := by
  cases hd with
  | word =>
    cases hr with
    | nil => exact nofun
    | mark hc =>
      have hmark : ∀ c ∈ [',', ':', ')', ']', '\x7d'], isDelimiter c = true := by simp [isDelimiter]
      intro c hc'
      cases hc'
      exact hmark _ hc
    | brace => exact fun c hc => by cases hc; rfl
  | text s =>
    obtain ⟨rest, hrest⟩ := toList_quoted s
    rw [body, hrest]
    exact fun c hc => by cases hc; rfl
  | tuple | record | list | set | map | labelled => exact fun c hc => by cases hc; rfl

/-- A name is told from what stands after it. -/
theorem name_append_inj {s t : String} (hs : ∀ c ∈ s.toList, isDelimiter c = false)
    (ht : ∀ c ∈ t.toList, isDelimiter c = false) {r r' : List Char} (hr : ∀ c ∈ r.head?, isDelimiter c = true)
    (hr' : ∀ c ∈ r'.head?, isDelimiter c = true) (h : s.toList ++ r = t.toList ++ r') : s = t ∧ r = r' := by
  obtain ⟨hname, hrest⟩ := append_inj_of_span (p := fun c => !isDelimiter c) (fun c hc => by rw [hs c hc]; rfl)
    (fun c hc => by rw [ht c hc]; rfl) (fun c hc => by rw [hr c hc]; rfl) (fun c hc => by rw [hr' c hc]; rfl) h
  exact ⟨String.toList_inj.mp hname, hrest⟩

/-- Equal texts tell that the names are equal, and what the descriptions are apart from them. -/
theorem Plain.front_and_body {d d' : Description} (hd : Plain d) (hd' : Plain d') {r r' : List Char} (hr : Ends r)
    (hr' : Ends r') (h : d.chars ++ r = d'.chars ++ r') :
    d.front = d'.front ∧ d.body ++ r = d'.body ++ r' ∧ d.shape = d'.shape := by
  rw [chars_eq, chars_eq, List.append_assoc, List.append_assoc] at h
  obtain ⟨hfront, hbody⟩ := name_append_inj hd.front_plain hd'.front_plain (hd.body_head hr) (hd'.body_head hr') h
  refine ⟨hfront, hbody, ?_⟩
  rw [← hd.shape_eq hr, ← hd'.shape_eq hr', hbody]

theorem told_of_body {d d' : Description} (hd : Plain d) (hd' : Plain d')
    (h : ∀ {r r' : List Char}, Ends r → Ends r' → d.front = d'.front → d.shape = d'.shape →
      d.body ++ r = d'.body ++ r' → d.shown = d'.shown ∧ r = r') : Told chars shown d d' := by
  intro r r' hr hr' heq
  obtain ⟨hfront, hbody, hshape⟩ := hd.front_and_body hd' hr hr' heq
  exact h hr hr' hfront hshape hbody

theorem told_field {f f' : String × Description} (hname : IsName f.1) (hname' : IsName f'.1)
    (h : Told chars shown f.2 f'.2) : Told fieldChars (fun f => (f.1, f.2.shown)) f f' := by
  intro r r' hr hr' heq
  rw [fieldChars, fieldChars, List.append_assoc, List.append_assoc] at heq
  obtain ⟨hfirst, hrest⟩ := name_append_inj hname.plain hname'.plain (fun c hc => by cases hc; rfl)
    (fun c hc => by cases hc; rfl) heq
  obtain ⟨hcontent, hr⟩ := h hr hr' (List.cons.inj (List.cons.inj hrest).2).2
  exact ⟨Prod.ext hfirst hcontent, hr⟩

theorem told_entry {e e' : Description × Description} (hkey : Told chars shown e.1 e'.1)
    (h : Told chars shown e.2 e'.2) : Told entryChars (fun e => (e.1.shown, e.2.shown)) e e' := by
  intro r r' hr hr' heq
  rw [entryChars, entryChars, List.append_assoc, List.append_assoc] at heq
  obtain ⟨hfirst, hrest⟩ := hkey (.mark (by simp)) (.mark (by simp)) heq
  obtain ⟨hcontent, hr⟩ := h hr hr' (List.cons.inj (List.cons.inj hrest).2).2
  exact ⟨Prod.ext hfirst hcontent, hr⟩

/-- The text of a description tells the description, whatever ends it. -/
theorem Plain.told {d d' : Description} (hd : Plain d) (hd' : Plain d') : Told chars shown d d' := by
  induction hd generalizing d' with
  | word hw =>
    refine told_of_body (.word hw) hd' fun _ _ hfront hshape hbody => ?_
    cases hd' with
    | word => exact ⟨congrArg (fun w => (Description.word w).shown) hfront, hbody⟩
    | _ => cases hshape
  | text s =>
    refine told_of_body (.text s) hd' fun _ _ _ hshape hbody => ?_
    cases hd' with
    | text =>
      obtain ⟨rfl, hr⟩ := quoted_append_inj hbody
      exact ⟨rfl, hr⟩
    | _ => cases hshape
  | tuple hname hargs ih =>
    refine told_of_body (.tuple hname hargs) hd' fun _ _ hfront hshape hbody => ?_
    cases hd' with
    | tuple _ hargs' =>
      obtain ⟨hshown, hr⟩ := bracketed_append_inj ['('] (by simp [closings]) (fun d hd => (hargs d hd).opens)
        (fun d hd => (hargs' d hd).opens) (fun d hd d' hd' => ih d hd (hargs' d' hd')) hbody
      cases hfront
      exact ⟨by rw [shown, shown, shownAll_eq_map, shownAll_eq_map, hshown], hr⟩
    | _ => cases hshape
  | record hname hnames hfields ih =>
    refine told_of_body (.record hname hnames hfields) hd' fun _ _ hfront hshape hbody => ?_
    cases hd' with
    | record _ hnames' hfields' =>
      obtain ⟨hshown, hr⟩ := bracketed_append_inj [' ', '\x7b', ' '] (by simp [closings])
        (fun f hf => (hnames f hf).opens _) (fun f hf => (hnames' f hf).opens _)
        (fun f hf f' hf' => told_field (hnames f hf) (hnames' f' hf') (ih f hf (hfields' f' hf'))) hbody
      cases hfront
      exact ⟨by rw [shown, shown, shownFields_eq_map, shownFields_eq_map, hshown], hr⟩
    | _ => cases hshape
  | list hitems ih =>
    refine told_of_body (.list hitems) hd' fun _ _ _ hshape hbody => ?_
    cases hd' with
    | list hitems' =>
      obtain ⟨hshown, hr⟩ := bracketed_append_inj ['['] (by simp [closings]) (fun d hd => (hitems d hd).opens)
        (fun d hd => (hitems' d hd).opens) (fun d hd d' hd' => ih d hd (hitems' d' hd')) hbody
      exact ⟨by rw [shown, shown, shownAll_eq_map, shownAll_eq_map, hshown], hr⟩
    | _ => cases hshape
  | set hitems ih =>
    refine told_of_body (.set hitems) hd' fun _ _ _ hshape hbody => ?_
    cases hd' with
    | set hitems' =>
      obtain ⟨hshown, hr⟩ := bracketed_append_inj ['\x7b'] (by simp [closings]) (fun d hd => (hitems d hd).opens)
        (fun d hd => (hitems' d hd).opens) (fun d hd d' hd' => ih d hd (hitems' d' hd')) hbody
      have hempty := congrArg List.isEmpty hshown
      rw [List.isEmpty_map, List.isEmpty_map] at hempty
      exact ⟨by rw [shown, shown, shownAll_eq_map, shownAll_eq_map, hshown, hempty], hr⟩
    | map hkeys' =>
      obtain ⟨rfl, rfl, hr⟩ := eq_nil_of_body_eq hitems hkeys' (fun d hd e he => ih d hd (hkeys' e he)) hbody
      exact ⟨rfl, hr⟩
    | _ => cases hshape
  | map hkeys hentries ihkeys ih =>
    refine told_of_body (.map hkeys hentries) hd' fun _ _ _ hshape hbody => ?_
    cases hd' with
    | map hkeys' hentries' =>
      obtain ⟨hshown, hr⟩ := bracketed_append_inj ['\x7b'] (by simp [closings])
        (fun e he => (hkeys e he).opens.append _) (fun e he => (hkeys' e he).opens.append _)
        (fun e he e' he' => told_entry (ihkeys e he (hkeys' e' he')) (ih e he (hentries' e' he'))) hbody
      exact ⟨by rw [shown, shown, shownEntries_eq_map, shownEntries_eq_map, hshown], hr⟩
    | set hitems' =>
      obtain ⟨rfl, rfl, hr⟩ := eq_nil_of_body_eq hitems' hkeys (fun d hd e he => Told.symm (ihkeys e he (hitems' d hd)))
        hbody.symm
      exact ⟨rfl, hr.symm⟩
    | _ => cases hshape
  | labelled hname hcontent ih =>
    refine told_of_body (.labelled hname hcontent) hd' fun hr hr' hfront hshape hbody => ?_
    cases hd' with
    | labelled _ hcontent' =>
      obtain ⟨hshown, hr⟩ := ih hcontent' hr hr' (List.cons.inj hbody).2
      cases hfront
      exact ⟨by rw [shown, shown, hshown], hr⟩
    | _ => cases hshape

theorem Plain.shown_eq {d d' : Description} (hd : Plain d) (hd' : Plain d') (h : d.render = d'.render) :
    d.shown = d'.shown :=
  (hd.told hd' .nil .nil (congrArg (·.toList ++ []) h)).1

end Description

end CircuitStages
