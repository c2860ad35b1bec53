import Stencil.Proofs.Keyed
import Stencil.Proofs.Template.Replaced
import Stencil.Proofs.Template.Stages

/-!
# What filling a template comes to

`Filled` says how a template is filled without saying how it is computed: which defect decides,
what the text is when there is none, and what is added to the warnings. `filled_iff` proves that
this is what the stages of filling come to.
-/

namespace Stencil.Template

open Placeholder (Leftmost Matches Occurrence Replaces place)

/-! ## Field tags -/

/-- The field tag stands for the field `name`, which has the given value: that of the usage, or
else the default of the tag. -/
def HasValue (fields : Fields) (tag : List Char) (name value : String) : Prop :=
  ∃ pairs, Matches fieldTag tag pairs ∧ Keyed.latest nameAttribute pairs = some name ∧
    (fields[name]?).or (Keyed.latest defaultAttribute pairs) = some value

/-- The field tag does not say which field it stands for. -/
def Unnamed (tag : List Char) : Prop :=
  ∃ pairs, Matches fieldTag tag pairs ∧ Keyed.latest nameAttribute pairs = none

/-- The field tag stands for the field `name`, which has no value and no default. -/
def Unset (fields : Fields) (tag : List Char) (name : String) : Prop :=
  ∃ pairs, Matches fieldTag tag pairs ∧ Keyed.latest nameAttribute pairs = some name ∧
    fields[name]? = none ∧ Keyed.latest defaultAttribute pairs = none

/-- The field tag has a value. -/
def Valued (fields : Fields) (o : Occurrence) : Prop :=
  ∃ name value, HasValue fields o.tag name value

/-! ## Filling -/

/-- How a template is filled when the warnings are `warnings`: the text or the defect, and the
warnings afterwards. -/
inductive Filled (t : Template) (fields : Fields) (inner : List Char) (warnings : List String) :
    Except Defect (List Char) → List String → Prop
  /-- The first field tag without a value has no name either. -/
  | unnamed {before o behind}
      (tags : Leftmost fieldTag 0 t.content.toList (before ++ o :: behind))
      (valued : ∀ o' ∈ before, Valued fields o') (isUnnamed : Unnamed o.tag) :
      Filled t fields inner warnings (.error (.fieldMissingName t.rel.text)) warnings
  /-- The first field tag without a value names its field. -/
  | unset {before o behind name}
      (tags : Leftmost fieldTag 0 t.content.toList (before ++ o :: behind))
      (valued : ∀ o' ∈ before, Valued fields o') (isUnset : Unset fields o.tag name) :
      Filled t fields inner warnings (.error (.fieldRequired t.rel.text name)) warnings
  /-- There are several content slots. -/
  | slots {tags slots} (isTags : Leftmost fieldTag 0 t.content.toList tags)
      (valued : ∀ o ∈ tags, Valued fields o)
      (isSlots : Leftmost contentTag 0 t.content.toList slots) (several : 2 ≤ slots.length) :
      Filled t fields inner warnings (.error (.multipleContentSlots t.rel.text)) warnings
  /-- The content slot shares text with a field tag. -/
  | overlap {tags slot o} (isTags : Leftmost fieldTag 0 t.content.toList tags)
      (valued : ∀ o ∈ tags, Valued fields o)
      (isSlot : Leftmost contentTag 0 t.content.toList [slot]) (mem : o ∈ tags)
      (meets : slot.Meets o) :
      Filled t fields inner warnings (.error (.overlappingTags t.rel.text)) warnings
  /-- All field tags, given with the names and the values of their fields, and the slot are
  replaced at once, and each field that no tag names is noted. -/
  | done {found : List (Occurrence × String × String)} {slots pieces out}
      (isTags : Leftmost fieldTag 0 t.content.toList (found.map Prod.fst))
      (valued : ∀ f ∈ found, HasValue fields f.1.tag f.2.1 f.2.2)
      (isSlots : Leftmost contentTag 0 t.content.toList slots) (single : slots.length ≤ 1)
      (apart : ∀ slot ∈ slots, ∀ f ∈ found, ¬ slot.Meets f.1)
      (isPieces : pieces.Perm
        ((slots.map fun slot => (slot, inner)) ++ found.map fun f => (f.1, f.2.2.toList)))
      (replaces : Replaces 0 t.content.toList pieces out) :
      Filled t fields inner warnings (.ok out) (warnings ++ (fields.keys.filter fun field =>
        !(found.map fun f => f.2.1).contains field).map t.unusedWarning)

/-- What filling a template leaves of the warnings that there were: the notes come behind them,
and a defect adds none. -/
def noting (warnings : List String) :
    Except Defect Filling → Except Defect (List Char) × List String
  | .ok filling => (.ok filling.text, warnings ++ filling.warnings)
  | .error defect => (.error defect, warnings)

variable {t : Template} {fields : Fields} {inner : List Char} {warnings : List String}

/-! ## Resolving field tags -/

theorem inTagName_fieldTag : ∀ c ∈ fieldTag, Tag.inTagName c = true :=
  List.all_eq_true.1 (by decide)

/-- The attributes of a field tag are those it assigns. -/
theorem ofTag_of_matches {tag : List Char} {pairs : List (String × String)}
    (h : Matches fieldTag tag pairs) :
    Tag.Attributes.ofTag tag = .ok (Tag.Attributes.ofList pairs) :=
  Tag.Attributes.ofTag_eq_ok.2 (h.ofTag? (by decide) inTagName_fieldTag)

/-- A field tag is resolved to the field that it stands for and its value. -/
theorem resolveField_eq_ok_iff {tag : List Char} {pairs : List (String × String)}
    {name value : String} (h : Matches fieldTag tag pairs) :
    t.resolveField fields tag = .ok (name, value) ↔ Keyed.latest nameAttribute pairs = some name ∧
      (fields[name]?).or (Keyed.latest defaultAttribute pairs) = some value := by
  rw [resolveField_eq_ok, h.ofTag? (by decide) inTagName_fieldTag]
  simp [Tag.Attributes.get?_ofList]

theorem resolveField_of_hasValue {tag : List Char} {name value : String}
    (h : HasValue fields tag name value) : t.resolveField fields tag = .ok (name, value) := by
  obtain ⟨pairs, hmatches, hvalue⟩ := h
  exact (resolveField_eq_ok_iff hmatches).2 hvalue

theorem resolveField_of_unnamed {tag : List Char} (h : Unnamed tag) :
    t.resolveField fields tag = .error (.fieldMissingName t.rel.text) := by
  obtain ⟨pairs, hmatches, hname⟩ := h
  simp [resolveField, ofTag_of_matches hmatches, Tag.Attributes.get?_ofList, hname]

theorem resolveField_of_unset {tag : List Char} {name : String} (h : Unset fields tag name) :
    t.resolveField fields tag = .error (.fieldRequired t.rel.text name) := by
  obtain ⟨pairs, hmatches, hname, hfield, hdefault⟩ := h
  simp [resolveField, ofTag_of_matches hmatches, Tag.Attributes.get?_ofList, hname, hfield,
    hdefault]

/-- A field tag has a value, or no name, or neither value nor default. -/
theorem hasValue_or_unnamed_or_unset (fields : Fields) {tag : List Char}
    {pairs : List (String × String)} (h : Matches fieldTag tag pairs) :
    (∃ name value, HasValue fields tag name value) ∨ Unnamed tag ∨
      ∃ name, Unset fields tag name := by
  cases hname : Keyed.latest nameAttribute pairs with
  | none => exact .inr (.inl ⟨pairs, h, hname⟩)
  | some name =>
    cases hvalue : (fields[name]?).or (Keyed.latest defaultAttribute pairs) with
    | some value => exact .inl ⟨name, value, pairs, h, hname, hvalue⟩
    | none =>
      obtain ⟨hfield, hdefault⟩ := Option.or_eq_none_iff.1 hvalue
      exact .inr (.inr ⟨name, pairs, h, hname, hfield, hdefault⟩)

theorem hasValue_of_resolveField {tag : List Char} {pairs : List (String × String)}
    {name value : String} (hmatches : Matches fieldTag tag pairs)
    (h : t.resolveField fields tag = .ok (name, value)) : HasValue fields tag name value :=
  ⟨pairs, hmatches, (resolveField_eq_ok_iff hmatches).1 h⟩

theorem tags_eq {tags : List Occurrence} (h : Leftmost fieldTag 0 t.content.toList tags) :
    Placeholder.occurrences fieldTag t.content.toList = tags :=
  (Placeholder.leftmost_iff.1 h).symm

theorem slots_eq {slots : List Occurrence} (h : Leftmost contentTag 0 t.content.toList slots) :
    Placeholder.occurrences contentTag t.content.toList = slots :=
  (Placeholder.leftmost_iff.1 h).symm

/-- The first field tag that cannot be resolved decides. -/
theorem fill_of_first {before behind : List Occurrence} {o : Occurrence} {defect : Defect}
    (htags : Leftmost fieldTag 0 t.content.toList (before ++ o :: behind))
    (hvalued : ∀ o' ∈ before, Valued fields o')
    (ho : t.resolveField fields o.tag = .error defect) : t.fill fields inner = .error defect := by
  have hresolved : t.resolveFields fields = .error defect := by
    refine Stages.mapM_eq_error.2 ⟨before, o, behind, tags_eq htags, ho, fun o' ho' => ?_⟩
    obtain ⟨name, value, hvalue⟩ := hvalued o' ho'
    exact ⟨(name, value), resolveField_of_hasValue hvalue⟩
  rw [fill_eq, hresolved]
  rfl

/-- Field tags that have values are resolved to these. -/
theorem resolveFields_of_found {found : List (Occurrence × String × String)}
    (htags : Leftmost fieldTag 0 t.content.toList (found.map Prod.fst))
    (hvalued : ∀ f ∈ found, HasValue fields f.1.tag f.2.1 f.2.2) :
    t.resolveFields fields = .ok (found.map Prod.snd) := by
  rw [resolveFields, tags_eq htags]
  exact Stages.mapM_map_fst fun f hf => resolveField_of_hasValue (hvalued f hf)

/-- Field tags that are resolved have the values they are resolved to. -/
theorem exists_found_of_resolveFields {resolved : List (String × String)}
    (h : t.resolveFields fields = .ok resolved) :
    ∃ found : List (Occurrence × String × String),
      Leftmost fieldTag 0 t.content.toList (found.map Prod.fst) ∧
      (∀ f ∈ found, HasValue fields f.1.tag f.2.1 f.2.2) ∧ found.map Prod.snd = resolved := by
  have hlength := Stages.length_of_mapM h
  have htags := Placeholder.leftmost_occurrencesFrom fieldTag t.content.toList 0
  refine ⟨(Placeholder.occurrences fieldTag t.content.toList).zip resolved, ?_, fun f hf => ?_, ?_⟩
  · rw [List.map_fst_zip (Nat.le_of_eq hlength.symm)]
    exact htags
  · obtain ⟨pairs, hmatches⟩ := htags.exists_matches (List.of_mem_zip hf).1
    exact hasValue_of_resolveField hmatches (Stages.eq_ok_of_mem_zip h hf)
  · rw [List.map_snd_zip (Nat.le_of_eq hlength)]

/-! ## The places -/

/-- The field tags with the values that go in their places. -/
def fieldPieces (found : List (Occurrence × String × String)) : List (Occurrence × List Char) :=
  found.map fun f => (f.1, f.2.2.toList)

/-- The content slots and the field tags with what goes in their places. -/
def allPieces (inner : List Char) (slots : List Occurrence)
    (found : List (Occurrence × String × String)) : List (Occurrence × List Char) :=
  slots.map (fun slot => (slot, inner)) ++ fieldPieces found

section

variable {found : List (Occurrence × String × String)} {slots : List Occurrence}
  (htags : Leftmost fieldTag 0 t.content.toList (found.map Prod.fst))
  (hslots : Leftmost contentTag 0 t.content.toList slots)
include htags

theorem fieldPlaces_eq : t.fieldPlaces (found.map Prod.snd) = (fieldPieces found).map place := by
  have hzip : (found.map Prod.fst).zip (found.map Prod.snd) = found := by
    rw [List.zip_map']
    simp
  rw [fieldPlaces, tags_eq htags, hzip, fieldPieces, List.map_map]
  rfl

/-- The field tags are in order. -/
theorem pairwise_fieldPieces :
    (fieldPieces found).Pairwise fun p q => p.1.Before q.1 := by
  have hpairwise := htags.pairwise
  rw [List.pairwise_map] at hpairwise
  rw [fieldPieces, List.pairwise_map]
  exact hpairwise

include hslots

theorem within_of_mem_allPieces {p : Occurrence × List Char} (hp : p ∈ allPieces inner slots found) :
    p.1.Within 0 t.content.toList ∧ p.1.start < p.1.stop := by
  rcases List.mem_append.1 hp with hp | hp
  · obtain ⟨slot, hslot, rfl⟩ := List.mem_map.1 hp
    exact ⟨hslots.within hslot, hslots.start_lt_stop hslot⟩
  · obtain ⟨f, hf, rfl⟩ := List.mem_map.1 hp
    have hf : f.1 ∈ found.map Prod.fst := List.mem_map_of_mem hf
    exact ⟨htags.within hf, htags.start_lt_stop hf⟩

/-- The places to fill are those of all placeholders, and they are in order when the content
slot shares text with no field tag. -/
theorem exists_pieces (hsingle : slots.length ≤ 1) (inner : List Char) :
    ∃ pieces : List (Occurrence × List Char),
      t.places inner (found.map Prod.snd) = .ok (pieces.map place) ∧
      pieces.Perm (allPieces inner slots found) ∧
      ((∀ slot ∈ slots, ∀ f ∈ found, ¬ slot.Meets f.1) →
        pieces.Pairwise fun p q => p.1.Before q.1) := by
  rw [Template.places, slots_eq hslots, fieldPlaces_eq htags]
  have hfields := pairwise_fieldPieces htags
  rcases slots with _ | ⟨slot, _ | ⟨slot', slots⟩⟩
  · exact ⟨fieldPieces found, rfl, .refl _, fun _ => hfields⟩
  · obtain ⟨pieces, hpieces, hperm⟩ :=
      Placeholder.exists_insert_place (slot, inner) (fieldPieces found)
    refine ⟨pieces, by rw [← hpieces]; rfl, hperm, fun hapart => ?_⟩
    have hspan : (place (slot, inner)).start < (place (slot, inner)).stop :=
      hslots.start_lt_stop List.mem_cons_self
    have hspans : ∀ s ∈ (fieldPieces found).map place, s.start < s.stop := by
      intro s hs
      obtain ⟨p, hp, rfl⟩ := List.mem_map.1 hs
      have hmem : p ∈ allPieces inner [slot] found := List.mem_append_right _ hp
      exact (within_of_mem_allPieces htags hslots hmem).2
    have hfree : ∀ s ∈ (fieldPieces found).map place,
        ¬ ((place (slot, inner)).start < s.stop ∧ s.start < (place (slot, inner)).stop) := by
      intro s hs
      obtain ⟨p, hp, rfl⟩ := List.mem_map.1 hs
      obtain ⟨f, hf, rfl⟩ := List.mem_map.1 hp
      exact hapart slot List.mem_cons_self f hf
    have hinsert := Substitution.pairwise_insert hspan hspans hfree (List.pairwise_map.2 hfields)
    rw [hpieces, List.pairwise_map] at hinsert
    exact hinsert
  · simp at hsingle

/-- Where the content slot shares text with a field tag the places cannot be filled. -/
theorem fill_of_overlap (hsingle : slots.length ≤ 1)
    (hvalued : ∀ f ∈ found, HasValue fields f.1.tag f.2.1 f.2.2) {slot : Occurrence}
    {f : Occurrence × String × String} (hslot : slot ∈ slots) (hf : f ∈ found)
    (hmeets : slot.Meets f.1) :
    t.fill fields inner = .error (.overlappingTags t.rel.text) := by
  obtain ⟨pieces, hplaces, hperm, -⟩ := exists_pieces htags hslots hsingle inner
  rw [fill_eq, resolveFields_of_found htags hvalued, Stages.ok_bind, hplaces, Stages.ok_bind,
    assemble]
  cases hfilled : Substitution.substitute? 0 t.content.toList (pieces.map place) with
  | none => rfl
  | some out =>
    have hapart : pieces.Pairwise fun p q => ¬ p.1.Meets q.1 := by
      refine (Placeholder.pairwise_of_substitute? hfilled).imp fun hbefore hpq => ?_
      have hle : _ ≤ _ := hbefore
      have hlt := hpq.2
      omega
    rw [hperm.pairwise_iff fun hpq hqp => hpq ⟨hqp.2, hqp.1⟩] at hapart
    have hboth := (List.pairwise_append.1 hapart).2.2 (slot, inner)
      (List.mem_map.2 ⟨slot, hslot, rfl⟩) (f.1, f.2.2.toList) (List.mem_map.2 ⟨f, hf, rfl⟩)
    exact absurd hmeets hboth

/-- Pieces that can be put in place of the placeholders are what the template is filled with. -/
theorem fill_of_replaces (hsingle : slots.length ≤ 1)
    (hvalued : ∀ f ∈ found, HasValue fields f.1.tag f.2.1 f.2.2)
    (hapart : ∀ slot ∈ slots, ∀ f ∈ found, ¬ slot.Meets f.1)
    {pieces : List (Occurrence × List Char)} {out : List Char}
    (hpieces : pieces.Perm (allPieces inner slots found))
    (hreplaces : Replaces 0 t.content.toList pieces out) :
    t.fill fields inner = .ok ⟨out, (fields.keys.filter fun field =>
      !(found.map fun f => f.2.1).contains field).map t.unusedWarning⟩ := by
  obtain ⟨places, hplaces, hperm, hbefore⟩ := exists_pieces htags hslots hsingle inner
  have hfilled := Placeholder.substitute?_of_replaces hreplaces
  have hsame : pieces = places := by
    refine Placeholder.eq_of_perm (hpieces.trans hperm.symm) (fun p hp => ?_)
      (Placeholder.pairwise_of_substitute? hfilled) (hbefore hapart)
    exact (within_of_mem_allPieces htags hslots (hpieces.mem_iff.1 hp)).2
  have hnames : (found.map Prod.snd).map Prod.fst = found.map fun f => f.2.1 := by
    rw [List.map_map]
    rfl
  rw [fill_eq, resolveFields_of_found htags hvalued, Stages.ok_bind, hplaces, Stages.ok_bind,
    assemble, ← hsame, hfilled, hnames]

end

/-- Values for all field tags, each with its tag. -/
theorem exists_found {tags : List Occurrence} (h : ∀ o ∈ tags, Valued fields o) :
    ∃ found : List (Occurrence × String × String), found.map Prod.fst = tags ∧
      ∀ f ∈ found, HasValue fields f.1.tag f.2.1 f.2.2 := by
  induction tags with
  | nil => exact ⟨[], rfl, by simp⟩
  | cons o tags ih =>
    obtain ⟨found, hfound, hvalued⟩ := ih fun o' ho' => h o' (List.mem_cons_of_mem o ho')
    obtain ⟨name, value, hvalue⟩ := h o List.mem_cons_self
    exact ⟨(o, name, value) :: found, by rw [List.map_cons, hfound],
      List.forall_mem_cons.2 ⟨hvalue, hvalued⟩⟩

/-! ## All that can happen -/

/-- What `Filled` says is what filling comes to. -/
theorem Filled.noting_fill {result : Except Defect (List Char)} {after : List String}
    (h : Filled t fields inner warnings result after) :
    noting warnings (t.fill fields inner) = (result, after) := by
  cases h with
  | unnamed tags valued isUnnamed =>
    rw [fill_of_first tags valued (resolveField_of_unnamed isUnnamed)]
    rfl
  | unset tags valued isUnset =>
    rw [fill_of_first tags valued (resolveField_of_unset isUnset)]
    rfl
  | @slots tags slots isTags valued isSlots several =>
    obtain ⟨found, rfl, hvalued⟩ := exists_found valued
    have hplaces : t.places inner (found.map Prod.snd) =
        .error (.multipleContentSlots t.rel.text) := by
      rw [Template.places, slots_eq isSlots]
      rcases slots with _ | ⟨slot, _ | ⟨slot', slots⟩⟩
      · simp at several
      · simp at several
      · rfl
    rw [fill_eq, resolveFields_of_found isTags hvalued, Stages.ok_bind, hplaces]
    rfl
  | overlap isTags valued isSlot mem meets =>
    obtain ⟨found, rfl, hvalued⟩ := exists_found valued
    obtain ⟨f, hf, rfl⟩ := List.mem_map.1 mem
    rw [fill_of_overlap isTags isSlot (Nat.le_refl 1) hvalued List.mem_cons_self hf meets]
    rfl
  | done isTags valued isSlots single apart isPieces replaces =>
    rw [fill_of_replaces isTags isSlots single valued apart isPieces replaces]
    rfl

/-- A field tag that cannot be resolved is the first one of its kind somewhere, and then it
decides. -/
theorem exists_filled_of_error {defect : Defect} (h : t.resolveFields fields = .error defect) :
    ∃ result, Filled t fields inner warnings result warnings := by
  have htags := Placeholder.leftmost_occurrencesFrom fieldTag t.content.toList 0
  obtain ⟨before, o, behind, hsplit, ho, hbefore⟩ := Stages.mapM_eq_error.1 h
  rw [Placeholder.occurrences] at hsplit
  have hmatches : ∀ o' ∈ before ++ o :: behind, ∃ pairs, Matches fieldTag o'.tag pairs :=
    fun o' ho' => htags.exists_matches (hsplit ▸ ho')
  rw [hsplit] at htags
  have hvalued : ∀ o' ∈ before, Valued fields o' := by
    intro o' ho'
    obtain ⟨⟨name, value⟩, hresolved⟩ := hbefore o' ho'
    obtain ⟨pairs, hpairs⟩ := hmatches o' (List.mem_append_left _ ho')
    exact ⟨name, value, hasValue_of_resolveField hpairs hresolved⟩
  obtain ⟨pairs, hpairs⟩ := hmatches o (by simp)
  rcases hasValue_or_unnamed_or_unset fields hpairs with
    ⟨name, value, hvalue⟩ | hunnamed | ⟨name, hunset⟩
  · rw [resolveField_of_hasValue hvalue] at ho
    cases ho
  · exact ⟨_, .unnamed htags hvalued hunnamed⟩
  · exact ⟨_, .unset htags hvalued hunset⟩

/-- Every template is filled in one of these ways. -/
theorem exists_filled (t : Template) (fields : Fields) (inner : List Char)
    (warnings : List String) :
    ∃ result after, Filled t fields inner warnings result after := by
  cases hresolved : t.resolveFields fields with
  | error defect =>
    obtain ⟨result, h⟩ := exists_filled_of_error hresolved
    exact ⟨result, warnings, h⟩
  | ok resolved =>
    obtain ⟨found, htags, hvalued, -⟩ := exists_found_of_resolveFields hresolved
    have hslots := Placeholder.leftmost_occurrencesFrom contentTag t.content.toList 0
    have hall : ∀ o ∈ found.map Prod.fst, Valued fields o := by
      intro o ho
      obtain ⟨f, hf, rfl⟩ := List.mem_map.1 ho
      exact ⟨f.2.1, f.2.2, hvalued f hf⟩
    generalize hlist : Placeholder.occurrencesFrom contentTag 0 0 t.content.toList = slots at hslots
    by_cases hsingle : slots.length ≤ 1
    · by_cases hmeets : ∃ slot ∈ slots, ∃ f ∈ found, slot.Meets f.1
      · obtain ⟨slot, hslot, f, hf, hmeets⟩ := hmeets
        have hone : slots = [slot] := by
          have hpos : 0 < slots.length := List.length_pos_of_mem hslot
          obtain ⟨only, rfl⟩ := List.length_eq_one_iff.1 (Nat.le_antisymm hsingle hpos)
          rw [List.mem_singleton.1 hslot]
        rw [hone] at hslots
        exact ⟨_, _, .overlap htags hall hslots (List.mem_map_of_mem hf) hmeets⟩
      · have hapart : ∀ slot ∈ slots, ∀ f ∈ found, ¬ slot.Meets f.1 := by
          intro slot hslot f hf h
          exact hmeets ⟨slot, hslot, f, hf, h⟩
        obtain ⟨pieces, -, hperm, hbefore⟩ := exists_pieces htags hslots hsingle inner
        obtain ⟨out, hout⟩ := Placeholder.exists_replaces
          (fun p hp => (within_of_mem_allPieces htags hslots (hperm.mem_iff.1 hp)).1)
          (hbefore hapart)
        exact ⟨_, _, .done htags hvalued hslots hsingle hapart hperm hout⟩
    · exact ⟨_, _, .slots htags hall hslots (by omega)⟩

/-- Filling a template, seen from the list of warnings that it is given, comes to exactly what
`Filled` says. -/
theorem filled_iff (t : Template) (fields : Fields) (inner : List Char) (warnings : List String)
    (result : Except Defect (List Char)) (after : List String) :
    Filled t fields inner warnings result after ↔
      noting warnings (t.fill fields inner) = (result, after) := by
  constructor
  · intro h
    exact h.noting_fill
  · intro h
    obtain ⟨result', after', hfilled⟩ := exists_filled t fields inner warnings
    have hsame := hfilled.noting_fill.symm.trans h
    cases hsame
    exact hfilled

end Stencil.Template
