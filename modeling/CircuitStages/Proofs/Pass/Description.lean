import CircuitStages.Pass.Description
import CircuitStages.Proofs.Text.Decimal
import CircuitStages.Proofs.Text.Description

namespace CircuitStages

namespace Description

theorem isDelimiter_of_isDigit {c : Char} (h : c.isDigit) : isDelimiter c = false := by
  have hdigit : ∀ c ∈ [' ', ',', ':', '(', ')', '[', ']', '\x7b', '\x7d', '"'], c.isDigit = false := by simp
  rw [isDelimiter, List.contains_eq_mem, decide_eq_false_iff_not]
  intro hmem
  rw [hdigit c hmem] at h
  cases h

theorem isName_toString_nat (n : Nat) : IsName (toString n) := by
  have hchars : (toString n).toList = Nat.toDigits 10 n := Nat.toList_repr
  constructor
  · rw [hchars]
    exact Nat.toDigits_ne_nil
  · rw [hchars]
    exact fun c hc => isDelimiter_of_isDigit (isDigits_toDigits n c hc)

theorem isName_toString_int (z : Int) : IsName (toString z) := by
  constructor
  · cases z with
    | ofNat n => exact (isName_toString_nat n).nonempty
    | negSucc n =>
      rw [toList_toString_negSucc]
      exact List.cons_ne_nil _ _
  · intro c hc
    rcases isDigit_or_eq_of_mem_toString hc with hdigit | rfl
    · exact isDelimiter_of_isDigit hdigit
    · decide

theorem isName_write (style : DecimalStyle) (x : Float) : IsName (style.write x) := by
  constructor
  · cases hx : x.isNaN with
    | true =>
      rw [DecimalStyle.write, hx, if_pos rfl]
      decide
    | false =>
      obtain ⟨cs, htext, hcs⟩ := DecimalStyle.toList_write style hx
      obtain ⟨c, rest, rfl, -⟩ := hcs.exists_cons
      rw [htext]
      exact List.append_ne_nil_of_right_ne_nil _ (List.cons_ne_nil _ _)
  · intro c hc
    have hmark : ∀ c ∈ "-inf.e+NaN".toList, isDelimiter c = false := by simp [isDelimiter]
    rcases DecimalStyle.isDigit_or_mem_write style x c hc with hdigit | hmem
    · exact isDelimiter_of_isDigit hdigit
    · exact hmark c hmem

theorem toString_int_injective : Function.Injective fun z : Int => toString z := by
  intro z z' h
  rw [← exponentValue_toString z, ← exponentValue_toString z']
  exact congrArg (fun s : String => exponentValue s.toList) h

theorem toString_nat_injective : Function.Injective fun n : Nat => toString n := by
  intro n m h
  have hint : toString (n : Int) = toString (m : Int) := h
  exact Int.ofNat_inj.mp (toString_int_injective hint)

theorem shown_arg_inj {name name' : String} {d d' : Description}
    (h : (tuple name [d]).shown = (tuple name' [d']).shown) : d.shown = d'.shown :=
  (List.cons.inj (Description.tuple.inj h).2).1

/-- Whether descriptions are plain, and tell apart all that they can be of. -/
structure Shows {α : Type} (f : α → Description) : Prop where
  plain : ∀ x, Plain (f x)
  injective : Function.Injective fun x => (f x).shown

variable {α : Type} {f : α → Description}

theorem shows_ofNat : Shows ofNat where
  plain n := .word (isName_toString_nat n)
  injective _ _ h := toString_nat_injective (Description.word.inj h)

theorem shows_ofFloat : Shows ofFloat where
  plain x := .word (isName_write _ x)
  injective _ _ h := DecimalStyle.write_injective _ (Description.word.inj h)

theorem shows_text : Shows text where
  plain s := .text s
  injective _ _ h := Description.text.inj h

theorem shows_ofBool : Shows ofBool where
  plain b := by cases b <;> exact .word (by decide)
  injective b c h := by
    have hwords : ∀ b c : Bool, (if b then "true" else "false") = (if c then "true" else "false") → b = c := by decide
    exact hwords b c (Description.word.inj h)

theorem Shows.ofOption (h : Shows f) : Shows (ofOption f) where
  plain x := by
    cases x with
    | none => exact .word (by decide)
    | some x => exact .tuple (.inr (by decide)) (List.forall_mem_singleton.mpr (h.plain x))
  injective x y hxy := by
    cases x with
    | none =>
      cases y with
      | none => rfl
      | some y => cases hxy
    | some x =>
      cases y with
      | none => cases hxy
      | some y => exact congrArg some (h.injective (shown_arg_inj hxy))

theorem Shows.ofList (h : Shows f) : Shows (ofList f) where
  plain xs := .list (List.forall_mem_map.mpr fun x _ => h.plain x)
  injective xs ys hxy := by
    have hitems := Description.list.inj hxy
    rw [shownAll_eq_map, shownAll_eq_map, List.map_map, List.map_map] at hitems
    exact List.map_injective_iff.mpr h.injective hitems

theorem plain_record {name : String} {fields : List (String × Description)} (hname : IsName name)
    (h : ∀ f ∈ fields, IsName f.1 ∧ Plain f.2) : Plain (record name fields) :=
  .record hname (fun f hf => (h f hf).1) (fun f hf => (h f hf).2)

theorem plain_field {name : String} {d : Description} {fields : List (String × Description)} (hname : IsName name)
    (hd : Plain d) (h : ∀ f ∈ fields, IsName f.1 ∧ Plain f.2) : ∀ f ∈ (name, d) :: fields, IsName f.1 ∧ Plain f.2 :=
  List.forall_mem_cons.mpr ⟨⟨hname, hd⟩, h⟩

theorem shown_record_inj {name name' : String} {fields fields' : List (String × Description)}
    (h : (record name fields).shown = (record name' fields').shown) : shownFields fields = shownFields fields' :=
  (Description.record.inj h).2

theorem shown_field_inj {name name' : String} {d d' : Description} {fields fields' : List (String × Description)}
    (h : shownFields ((name, d) :: fields) = shownFields ((name', d') :: fields')) :
    d.shown = d'.shown ∧ shownFields fields = shownFields fields' := by
  obtain ⟨hfirst, hrest⟩ := List.cons.inj h
  exact ⟨(Prod.mk.inj hfirst).2, hrest⟩

theorem Shows.pair {β : Type} {g : β → Description} (hf : Shows f) (hg : Shows g) :
    Shows fun p : α × β => tuple "" [f p.1, g p.2] where
  plain p := .tuple (.inl rfl) (List.forall_mem_cons.mpr ⟨hf.plain p.1, List.forall_mem_singleton.mpr (hg.plain p.2)⟩)
  injective p q h := by
    obtain ⟨hfirst, hrest⟩ := List.cons.inj (Description.tuple.inj h).2
    exact Prod.ext (hf.injective hfirst) (hg.injective (List.cons.inj hrest).1)

theorem Shows.ofMap {β : Type} {g : β → Description} (hf : Shows f) (hg : Shows g) :
    Shows fun entries : List (α × β) => map (entries.map fun e => (f e.1, g e.2)) where
  plain entries :=
    .map (List.forall_mem_map.mpr fun e _ => hf.plain e.1) (List.forall_mem_map.mpr fun e _ => hg.plain e.2)
  injective xs ys h := by
    have hentries := Description.map.inj h
    rw [shownEntries_eq_map, shownEntries_eq_map, List.map_map, List.map_map] at hentries
    refine List.map_injective_iff.mpr (fun e e' he => ?_) hentries
    exact Prod.ext (hf.injective (Prod.mk.inj he).1) (hg.injective (Prod.mk.inj he).2)

theorem shows_ofLinks : Shows ofLinks := (shows_ofNat.pair shows_ofNat).ofList

end Description

open Description

theorem CouplingMap.shows : Shows CouplingMap.description where
  plain m := plain_record (by decide) <| plain_field (by decide) (shows_ofNat.plain _) <|
    plain_field (by decide) (shows_ofLinks.plain _) nofun
  injective m m' h := by
    obtain ⟨hqubits, hrest⟩ := shown_field_inj (shown_record_inj h)
    obtain ⟨hedges, -⟩ := shown_field_inj hrest
    cases m
    cases m'
    cases shows_ofNat.injective hqubits
    cases shows_ofLinks.injective hedges
    rfl

theorem BasisGates.shows : Shows BasisGates.description where
  plain b := plain_record (by decide) <| plain_field (by decide) (shows_text.ofList.plain _) nofun
  injective b b' h := by
    obtain ⟨hgates, -⟩ := shown_field_inj (shown_record_inj h)
    exact congrArg BasisGates.mk (shows_text.ofList.injective hgates)

theorem OperationProperties.shows : Shows OperationProperties.description where
  plain p := plain_record (by decide) <| plain_field (by decide) (shows_ofNat.ofList.plain _) <|
    plain_field (by decide) (shows_ofFloat.ofOption.plain _) <|
    plain_field (by decide) (shows_ofFloat.ofOption.plain _) nofun
  injective p p' h := by
    obtain ⟨hqubits, hrest⟩ := shown_field_inj (shown_record_inj h)
    obtain ⟨hduration, hrest⟩ := shown_field_inj hrest
    obtain ⟨herror, -⟩ := shown_field_inj hrest
    cases p
    cases p'
    cases shows_ofNat.ofList.injective hqubits
    cases shows_ofFloat.ofOption.injective hduration
    cases shows_ofFloat.ofOption.injective herror
    rfl

theorem Target.shows : Shows Target.description where
  plain t := plain_record (by decide) <| plain_field (by decide) (shows_ofNat.plain _) <|
    plain_field (by decide) ((shows_text.ofMap OperationProperties.shows.ofList.ofOption).plain _) nofun
  injective t t' h := by
    obtain ⟨hqubits, hrest⟩ := shown_field_inj (shown_record_inj h)
    obtain ⟨hoperations, -⟩ := shown_field_inj hrest
    cases t
    cases t'
    cases shows_ofNat.injective hqubits
    cases (shows_text.ofMap OperationProperties.shows.ofList.ofOption).injective hoperations
    rfl

mutual

theorem Value.plain_description : ∀ v : Value, Plain v.description
  | .null => .word (by decide)
  | .bool b => .tuple (.inr (by decide)) (List.forall_mem_singleton.mpr (shows_ofBool.plain b))
  | .int n => .tuple (.inr (by decide)) (List.forall_mem_singleton.mpr (.word (isName_toString_int n)))
  | .float x => .tuple (.inr (by decide)) (List.forall_mem_singleton.mpr (.word (isName_write _ x)))
  | .string s => .tuple (.inr (by decide)) (List.forall_mem_singleton.mpr (.text s))
  | .array items => .labelled (by decide) (.list (plain_itemDescriptions items))
  | .object fields => .labelled (by decide)
    (.map (fun e he => (plain_fieldDescriptions fields e he).1) (fun e he => (plain_fieldDescriptions fields e he).2))

theorem plain_itemDescriptions : ∀ items : List Value, ∀ d ∈ itemDescriptions items, Plain d
  | [] => nofun
  | item :: rest => List.forall_mem_cons.mpr ⟨item.plain_description, plain_itemDescriptions rest⟩

theorem plain_fieldDescriptions :
    ∀ fields : List (String × Value), ∀ e ∈ fieldDescriptions fields, Plain e.1 ∧ Plain e.2
  | [] => nofun
  | (name, value) :: rest =>
    List.forall_mem_cons.mpr ⟨⟨.text name, value.plain_description⟩, plain_fieldDescriptions rest⟩

end

mutual

theorem Value.eq_of_shown : ∀ v w : Value, v.description.shown = w.description.shown → v = w
  | .null, w, h => by
    cases w with
    | null => rfl
    | _ => cases h
  | .bool b, w, h => by
    cases w with
    | bool b' => exact congrArg Value.bool (shows_ofBool.injective (shown_arg_inj h))
    | _ => simp [Value.description, shown] at h
  | .int n, w, h => by
    cases w with
    | int n' => exact congrArg Value.int (toString_int_injective (Description.word.inj (shown_arg_inj h)))
    | float x => exact absurd (Description.word.inj (shown_arg_inj h)).symm (DecimalStyle.write_ne_toString rfl x n)
    | _ => simp [Value.description, shown] at h
  | .float x, w, h => by
    cases w with
    | int n => exact absurd (Description.word.inj (shown_arg_inj h)) (DecimalStyle.write_ne_toString rfl x n)
    | float y => exact congrArg Value.float (DecimalStyle.write_injective _ (Description.word.inj (shown_arg_inj h)))
    | _ => simp [Value.description, shown] at h
  | .string s, w, h => by
    cases w with
    | string t => exact congrArg Value.string (shows_text.injective (shown_arg_inj h))
    | _ => simp [Value.description, shown] at h
  | .array items, w, h => by
    cases w with
    | array items' =>
      have hitems := Description.list.inj (Description.labelled.inj h).2
      exact congrArg Value.array (eq_of_shown_itemDescriptions items items' hitems)
    | _ => simp [Value.description, shown] at h
  | .object fields, w, h => by
    cases w with
    | object fields' =>
      have hfields := Description.map.inj (Description.labelled.inj h).2
      exact congrArg Value.object (eq_of_shown_fieldDescriptions fields fields' hfields)
    | _ => simp [Value.description, shown] at h

theorem eq_of_shown_itemDescriptions :
    ∀ vs ws : List Value, shownAll (itemDescriptions vs) = shownAll (itemDescriptions ws) → vs = ws
  | [], [], _ => rfl
  | [], _ :: _, h => nomatch h
  | _ :: _, [], h => nomatch h
  | v :: vs, w :: ws, h => by
    obtain ⟨hfirst, hrest⟩ := List.cons.inj h
    rw [v.eq_of_shown w hfirst, eq_of_shown_itemDescriptions vs ws hrest]

theorem eq_of_shown_fieldDescriptions : ∀ fields fields' : List (String × Value),
    shownEntries (fieldDescriptions fields) = shownEntries (fieldDescriptions fields') → fields = fields'
  | [], [], _ => rfl
  | [], _ :: _, h => nomatch h
  | _ :: _, [], h => nomatch h
  | (name, v) :: fields, (name', w) :: fields', h => by
    obtain ⟨hfirst, hrest⟩ := List.cons.inj h
    obtain ⟨hname, hvalue⟩ := Prod.mk.inj hfirst
    rw [shows_text.injective hname, v.eq_of_shown w hvalue, eq_of_shown_fieldDescriptions fields fields' hrest]

end

theorem Value.shows : Shows Value.description where
  plain := plain_description
  injective v w h := v.eq_of_shown w h

theorem SynthesisSettings.shows : Shows SynthesisSettings.description where
  plain s := plain_record (by decide) <| plain_field (by decide) (shows_ofFloat.ofOption.plain _) <|
    plain_field (by decide) (shows_text.plain _) <| plain_field (by decide) (Value.shows.plain _) <|
    plain_field (by decide) (Value.shows.plain _) nofun
  injective s s' h := by
    obtain ⟨hdegree, hrest⟩ := shown_field_inj (shown_record_inj h)
    obtain ⟨hmethod, hrest⟩ := shown_field_inj hrest
    obtain ⟨hplugin, hrest⟩ := shown_field_inj hrest
    obtain ⟨hlevel, -⟩ := shown_field_inj hrest
    cases s
    cases s'
    cases shows_ofFloat.ofOption.injective hdegree
    cases shows_text.injective hmethod
    cases Value.shows.injective hplugin
    cases Value.shows.injective hlevel
    rfl

theorem shows_qubit : Shows fun v : Nat => tuple "QubitId" [ofNat v] where
  plain v := .tuple (.inr (by decide)) (List.forall_mem_singleton.mpr (shows_ofNat.plain v))
  injective _ _ h := shows_ofNat.injective (shown_arg_inj h)

/-- One direction of a layout tells the other. -/
theorem Layout.shows : Shows Layout.description where
  plain l := plain_record (by decide) <| plain_field (by decide) ((shows_qubit.ofMap shows_ofNat).plain _) <|
    plain_field (by decide) (.map (List.forall_mem_map.mpr fun e _ => shows_ofNat.plain e.2)
      (List.forall_mem_map.mpr fun e _ => shows_qubit.plain e.1)) nofun
  injective l l' h := by
    obtain ⟨hpairs, -⟩ := shown_field_inj (shown_record_inj h)
    cases l
    cases l'
    cases (shows_qubit.ofMap shows_ofNat).injective hpairs
    rfl

theorem ControlFlowCheck.shows : Shows ControlFlowCheck.description where
  plain k := plain_record (by decide) <| plain_field (by decide) ((shows_text.pair shows_text).ofList.plain _) <|
    plain_field (by decide) (shows_text.ofList.plain _) nofun
  injective k k' h := by
    obtain ⟨hmethods, hrest⟩ := shown_field_inj (shown_record_inj h)
    obtain ⟨hoperations, -⟩ := shown_field_inj hrest
    cases k
    cases k'
    cases (shows_text.pair shows_text).ofList.injective hmethods
    cases shows_text.ofList.injective hoperations
    rfl

theorem SchedulingPolicy.shows : Shows SchedulingPolicy.description where
  plain p := by cases p <;> exact .word (by decide)
  injective p q h := by
    cases p with
    | asap =>
      cases q with
      | asap => rfl
      | alap => exact absurd (Description.word.inj h) (by decide)
    | alap =>
      cases q with
      | asap => exact absurd (Description.word.inj h) (by decide)
      | alap => rfl

theorem plain_mappedDescription {name : String} (hname : IsName name) (links : Option CouplingMap) :
    Plain (mappedDescription name links) :=
  plain_record hname <| plain_field (by decide) (CouplingMap.shows.ofOption.plain _) nofun

theorem mappedDescription_inj {name name' : String} {links links' : Option CouplingMap}
    (h : (mappedDescription name links).shown = (mappedDescription name' links').shown) : links = links' :=
  CouplingMap.shows.ofOption.injective (shown_field_inj (shown_record_inj h)).1

/-- The names of a basis, in braces also where there are none. -/
theorem shows_names : Shows fun names : List String => set (names.map text) where
  plain names := .set (List.forall_mem_map.mpr fun s _ => .text s)
  injective names names' h := by
    cases names with
    | nil =>
      cases names' with
      | nil => rfl
      | cons => cases h
    | cons s names =>
      cases names' with
      | nil => cases h
      | cons t names' => exact shows_text.ofList.injective (congrArg Description.list (Description.set.inj h))

namespace Pass

mutual

theorem plain_description : ∀ p : Pass, Plain p.description
  | cancelInverses => .word (by decide)
  | mergeRotations => .word (by decide)
  | optimizationLoop body maxRounds =>
    plain_record (by decide) <| plain_field (by decide)
      (plain_record (by decide) <| plain_field (by decide) (.list (plain_descriptions body)) nofun) <|
    plain_field (by decide) (shows_ofNat.plain maxRounds) nofun
  | controlFlowCheck check => ControlFlowCheck.shows.plain check
  | removeResets => .word (by decide)
  | setLayout layout numPhysical =>
    plain_record (by decide) <| plain_field (by decide) (Layout.shows.plain layout) <|
    plain_field (by decide) (shows_ofNat.ofOption.plain numPhysical) nofun
  | trivialLayout numPhysical =>
    plain_record (by decide) <| plain_field (by decide) (shows_ofNat.ofOption.plain numPhysical) nofun
  | denseLayout links => plain_record (by decide) <| plain_field (by decide) (CouplingMap.shows.plain links) nofun
  | basicRouting links => plain_mappedDescription (by decide) links
  | lookaheadRouting links => plain_mappedDescription (by decide) links
  | checkRouting links => plain_mappedDescription (by decide) links
  | basisTranslation basis =>
    plain_record (by decide) <| plain_field (by decide) (shows_names.ofOption.plain basis) nofun
  | gateDirection target links =>
    plain_record (by decide) <| plain_field (by decide) (Target.shows.ofOption.plain target) <|
    plain_field (by decide) (CouplingMap.shows.ofOption.plain links) nofun
  | schedule policy target =>
    plain_record (by decide) <| plain_field (by decide) (SchedulingPolicy.shows.plain policy) <|
    plain_field (by decide) (Target.shows.ofOption.plain target) nofun
  | reduceWide target basis settings =>
    plain_record (by decide) <| plain_field (by decide) (Target.shows.ofOption.plain target) <|
    plain_field (by decide) (BasisGates.shows.ofOption.plain basis) <|
    plain_field (by decide) (SynthesisSettings.shows.plain settings) nofun
  | marker label => .tuple (.inr (by decide)) (List.forall_mem_singleton.mpr (.text label))

theorem plain_descriptions : ∀ ps : List Pass, ∀ d ∈ descriptions ps, Plain d
  | [] => nofun
  | p :: rest => List.forall_mem_cons.mpr ⟨p.plain_description, plain_descriptions rest⟩

end

mutual

/-- The name in front tells the kind of pass, and each field one parameter. -/
theorem eq_of_shown : ∀ p q : Pass, p.description.shown = q.description.shown → p = q
  | cancelInverses, q, h => by
    cases q with
    | cancelInverses => rfl
    | _ => simp [description, mappedDescription, ControlFlowCheck.description, shown] at h
  | mergeRotations, q, h => by
    cases q with
    | mergeRotations => rfl
    | _ => simp [description, mappedDescription, ControlFlowCheck.description, shown] at h
  | optimizationLoop body maxRounds, q, h => by
    cases q with
    | optimizationLoop body' maxRounds' =>
      obtain ⟨hpipeline, hrest⟩ := shown_field_inj (shown_record_inj h)
      obtain ⟨hbody, -⟩ := shown_field_inj (shown_record_inj hpipeline)
      obtain ⟨hrounds, -⟩ := shown_field_inj hrest
      rw [eq_of_shown_descriptions body body' (Description.list.inj hbody), shows_ofNat.injective hrounds]
    | _ => simp [description, mappedDescription, ControlFlowCheck.description, shown] at h
  | controlFlowCheck check, q, h => by
    cases q with
    | controlFlowCheck check' => exact congrArg controlFlowCheck (ControlFlowCheck.shows.injective h)
    | _ => simp [description, mappedDescription, ControlFlowCheck.description, shown] at h
  | removeResets, q, h => by
    cases q with
    | removeResets => rfl
    | _ => simp [description, mappedDescription, ControlFlowCheck.description, shown] at h
  | setLayout layout numPhysical, q, h => by
    cases q with
    | setLayout layout' numPhysical' =>
      obtain ⟨hlayout, hrest⟩ := shown_field_inj (shown_record_inj h)
      obtain ⟨hsize, -⟩ := shown_field_inj hrest
      rw [Layout.shows.injective hlayout, shows_ofNat.ofOption.injective hsize]
    | _ => simp [description, mappedDescription, ControlFlowCheck.description, shown] at h
  | trivialLayout numPhysical, q, h => by
    cases q with
    | trivialLayout numPhysical' =>
      obtain ⟨hsize, -⟩ := shown_field_inj (shown_record_inj h)
      rw [shows_ofNat.ofOption.injective hsize]
    | _ => simp [description, mappedDescription, ControlFlowCheck.description, shown] at h
  | denseLayout links, q, h => by
    cases q with
    | denseLayout links' =>
      obtain ⟨hlinks, -⟩ := shown_field_inj (shown_record_inj h)
      rw [CouplingMap.shows.injective hlinks]
    | _ => simp [description, mappedDescription, ControlFlowCheck.description, shown] at h
  | basicRouting links, q, h => by
    cases q with
    | basicRouting links' => exact congrArg basicRouting (mappedDescription_inj h)
    | _ => simp [description, mappedDescription, ControlFlowCheck.description, shown] at h
  | lookaheadRouting links, q, h => by
    cases q with
    | lookaheadRouting links' => exact congrArg lookaheadRouting (mappedDescription_inj h)
    | _ => simp [description, mappedDescription, ControlFlowCheck.description, shown] at h
  | checkRouting links, q, h => by
    cases q with
    | checkRouting links' => exact congrArg checkRouting (mappedDescription_inj h)
    | _ => simp [description, mappedDescription, ControlFlowCheck.description, shown] at h
  | basisTranslation basis, q, h => by
    cases q with
    | basisTranslation basis' =>
      obtain ⟨hbasis, -⟩ := shown_field_inj (shown_record_inj h)
      rw [shows_names.ofOption.injective hbasis]
    | _ => simp [description, mappedDescription, ControlFlowCheck.description, shown] at h
  | gateDirection target links, q, h => by
    cases q with
    | gateDirection target' links' =>
      obtain ⟨htarget, hrest⟩ := shown_field_inj (shown_record_inj h)
      obtain ⟨hlinks, -⟩ := shown_field_inj hrest
      rw [Target.shows.ofOption.injective htarget, CouplingMap.shows.ofOption.injective hlinks]
    | _ => simp [description, mappedDescription, ControlFlowCheck.description, shown] at h
  | schedule policy target, q, h => by
    cases q with
    | schedule policy' target' =>
      obtain ⟨hpolicy, hrest⟩ := shown_field_inj (shown_record_inj h)
      obtain ⟨htarget, -⟩ := shown_field_inj hrest
      rw [SchedulingPolicy.shows.injective hpolicy, Target.shows.ofOption.injective htarget]
    | _ => simp [description, mappedDescription, ControlFlowCheck.description, shown] at h
  | reduceWide target basis settings, q, h => by
    cases q with
    | reduceWide target' basis' settings' =>
      obtain ⟨htarget, hrest⟩ := shown_field_inj (shown_record_inj h)
      obtain ⟨hbasis, hrest⟩ := shown_field_inj hrest
      obtain ⟨hsettings, -⟩ := shown_field_inj hrest
      rw [Target.shows.ofOption.injective htarget, BasisGates.shows.ofOption.injective hbasis,
        SynthesisSettings.shows.injective hsettings]
    | _ => simp [description, mappedDescription, ControlFlowCheck.description, shown] at h
  | marker label, q, h => by
    cases q with
    | marker label' => exact congrArg marker (shows_text.injective (shown_arg_inj h))
    | _ => simp [description, mappedDescription, ControlFlowCheck.description, shown] at h

theorem eq_of_shown_descriptions :
    ∀ ps qs : List Pass, shownAll (descriptions ps) = shownAll (descriptions qs) → ps = qs
  | [], [], _ => rfl
  | [], _ :: _, h => nomatch h
  | _ :: _, [], h => nomatch h
  | p :: ps, q :: qs, h => by
    obtain ⟨hfirst, hrest⟩ := List.cons.inj h
    rw [p.eq_of_shown q hfirst, eq_of_shown_descriptions ps qs hrest]

end

theorem shows : Shows description where
  plain := plain_description
  injective p q h := p.eq_of_shown q h

theorem render_description_injective : Function.Injective fun p : Pass => p.description.render := by
  intro p q h
  exact shows.injective (Plain.shown_eq (shows.plain p) (shows.plain q) h)

end Pass

namespace Pipeline

/-- A pipeline can be read back from its description. -/
theorem describe_injective : Function.Injective describe :=
  List.map_injective_iff.mpr Pass.render_description_injective

/-- Pipelines with equal descriptions do the same on every circuit. -/
theorem alike_of_describe_eq {ps qs : Pipeline} (h : ps.describe = qs.describe) (c : Circuit Float) :
    ps.run c = qs.run c ∧ ps.apply c = qs.apply c := by
  cases describe_injective h
  exact ⟨rfl, rfl⟩

/-- The same links and the same basis in different orders. -/
theorem alike_of_describe_eq_reordered :
    let ps : Pipeline := [.lookaheadRouting (some (.linear 3)),
      .optimizationLoop [.translateTo ["rz", "cx", "rz"], .cancelInverses] 2]
    let qs : Pipeline := [.lookaheadRouting (some (.ofEdges [(2, 1), (0, 1), (1, 0), (1, 2)])),
      .optimizationLoop [.translateTo ["cx", "rz"], .cancelInverses] 2]
    ps.describe = qs.describe ∧ ps.run (.ghz 3) = qs.run (.ghz 3) ∧ ps.apply (.ghz 3) = qs.apply (.ghz 3) := by
  intro ps qs
  have h : ps.describe = qs.describe := by decide +kernel
  exact ⟨h, alike_of_describe_eq h (.ghz 3)⟩

end Pipeline

end CircuitStages
