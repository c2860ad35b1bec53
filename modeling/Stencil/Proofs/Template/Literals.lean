import Stencil.Proofs.Keyed
import Stencil.Proofs.Template.Stages
import Stencil.Proofs.Usage.TagSafe

/-!
# The parts of a template

A filled template is made of the text between its placeholders, of values and of the
content of the usage (`exists_parts_of_fill`). When all these are tag-safe, so is the whole
(`tagSafe_of_fill`).
-/

namespace Stencil

namespace Substitution

def span (s : Substitution) : Nat × Nat := (s.start, s.stop)

/-- Puts a span in front of the first that starts later. -/
def insertSpan (s : Nat × Nat) : List (Nat × Nat) → List (Nat × Nat)
  | [] => [s]
  | t :: ts => if s.1 < t.1 then s :: t :: ts else t :: insertSpan s ts

/-- The parts of the text from character `position` on that lie outside the spans. -/
def between (position : Nat) (text : List Char) : List (Nat × Nat) → List (List Char)
  | [] => [text]
  | s :: rest =>
    text.take (s.1 - position) ::
      between (max position s.2) (text.drop (s.2 - position)) rest

/-- A part between the spans stands in the text and meets none of them. -/
theorem exists_of_mem_between {position : Nat} {text part : List Char} {spans : List (Nat × Nat)}
    (hspan : ∀ s ∈ spans, position ≤ s.1 ∧ s.1 ≤ s.2 ∧ s.2 ≤ position + text.length)
    (hpairwise : spans.Pairwise fun s s' => s.2 ≤ s'.1) (h : part ∈ between position text spans) :
    ∃ lead rest, text = lead ++ (part ++ rest) ∧ ∀ s ∈ spans,
      s.2 ≤ position + lead.length ∨ position + lead.length + part.length ≤ s.1 := by
  induction spans generalizing position text with
  | nil =>
    obtain rfl := List.mem_singleton.1 h
    exact ⟨[], [], by simp, by simp⟩
  | cons s spans ih =>
    obtain ⟨hfirst, hpairwise⟩ := List.pairwise_cons.1 hpairwise
    obtain ⟨hs, hspan⟩ := List.forall_mem_cons.1 hspan
    rw [between, List.mem_cons, Nat.max_eq_right (by omega)] at h
    rcases h with rfl | h
    · refine ⟨[], text.drop (s.1 - position), by simp, fun s' hs' => .inr ?_⟩
      have hle : s.1 ≤ s'.1 := by
        rcases List.mem_cons.1 hs' with rfl | hs'
        · exact Nat.le_refl _
        · have hbehind := hfirst s' hs'
          omega
      simp only [List.length_nil, List.length_take]
      omega
    · have hlength : (text.take (s.2 - position)).length = s.2 - position := by
        rw [List.length_take]
        omega
      have hbehind : ∀ s' ∈ spans, s.2 ≤ s'.1 ∧ s'.1 ≤ s'.2 ∧
          s'.2 ≤ s.2 + (text.drop (s.2 - position)).length := by
        intro s' hs'
        have hle := hspan s' hs'
        refine ⟨hfirst s' hs', hle.2.1, ?_⟩
        rw [List.length_drop]
        omega
      obtain ⟨lead, rest, htext, havoids⟩ := ih hbehind hpairwise h
      refine ⟨text.take (s.2 - position) ++ lead, rest, ?_, ?_⟩
      · rw [List.append_assoc, ← htext, List.take_append_drop]
      · have hposition : position + (text.take (s.2 - position) ++ lead).length =
            s.2 + lead.length := by
          rw [List.length_append, hlength]
          omega
        rw [hposition]
        exact List.forall_mem_cons.2 ⟨.inl (Nat.le_add_right _ _), havoids⟩

/-- Literal parts with a filler behind each but the last. -/
def weave : List (List Char) → List (List Char) → List (List Char)
  | literal :: literals, filler :: fillers => literal :: filler :: weave literals fillers
  | literals, _ => literals

theorem length_between (position : Nat) (text : List Char) (spans : List (Nat × Nat)) :
    (between position text spans).length = spans.length + 1 := by
  induction spans generalizing position text with
  | nil => rfl
  | cons s spans ih => rw [between, List.length_cons, ih, List.length_cons]

theorem mem_weave {literals fillers : List (List Char)} (h : fillers.length ≤ literals.length)
    {part : List Char} : part ∈ weave literals fillers ↔ part ∈ literals ∨ part ∈ fillers := by
  fun_induction weave literals fillers with
  | case1 literal literals filler fillers ih =>
    rw [List.mem_cons, List.mem_cons, List.mem_cons, List.mem_cons,
      ih (Nat.le_of_succ_le_succ h)]
    grind
  | case2 literals fillers hno =>
    have hnil : fillers = [] := by
      rcases fillers with _ | ⟨filler, fillers⟩
      · rfl
      rcases literals with _ | ⟨literal, literals⟩
      · simp at h
      · exact (hno literal literals filler fillers rfl rfl).elim
    simp [hnil]

theorem map_span_insert (s : Substitution) (places : List Substitution) :
    (Substitution.insert s places).map span = insertSpan s.span (places.map span) := by
  induction places with
  | nil => rfl
  | cons t places ih =>
    rw [Substitution.insert, List.map_cons, insertSpan]
    by_cases h : s.start < t.start
    · rw [if_pos h, if_pos (show s.span.1 < t.span.1 from h)]
      rfl
    · rw [if_neg h, if_neg (show ¬ s.span.1 < t.span.1 from h), List.map_cons, ih]

theorem mem_insert {s t : Substitution} {places : List Substitution} :
    t ∈ Substitution.insert s places ↔ t = s ∨ t ∈ places := by
  induction places with
  | nil => simp [Substitution.insert]
  | cons p places ih =>
    rw [Substitution.insert]
    by_cases h : s.start < p.start
    · rw [if_pos h, List.mem_cons]
    · rw [if_neg h, List.mem_cons, List.mem_cons, ih]
      constructor
      · rintro (h | h | h) <;> simp [h]
      · rintro (h | h | h) <;> simp [h]

/-- A text with its places filled is its literal parts with the fillers between them. -/
theorem eq_flatten_of_substitute? {position : Nat} {text filled : List Char}
    {places : List Substitution} (h : substitute? position text places = some filled)
    (hspan : ∀ s ∈ places, s.start ≤ s.stop) :
    filled = (weave (between position text (places.map span))
      (places.map Substitution.filler)).flatten := by
  induction places generalizing position text filled with
  | nil =>
    rw [substitute?, Option.some.injEq] at h
    simp [between, weave, h]
  | cons s places ih =>
    rw [substitute?] at h
    split at h
    · cases h
    next hstart =>
    obtain ⟨tail, htail, rfl⟩ := Option.map_eq_some_iff.1 h
    have hstop : max position s.span.2 = s.stop := by
      have hs := hspan s List.mem_cons_self
      have hle : position ≤ s.stop := by omega
      exact Nat.max_eq_right hle
    have htail := ih htail fun t ht => hspan t (List.mem_cons_of_mem _ ht)
    rw [List.map_cons, List.map_cons, between, weave, hstop, htail]
    simp [span]

end Substitution

namespace Template

def spanOf (o : Placeholder.Occurrence) : Nat × Nat := (o.start, o.stop)

/-- The places of all field tags and content slots in the order of their starts. -/
def spans (t : Template) : List (Nat × Nat) :=
  (Placeholder.occurrences contentTag t.content.toList).foldl
    (fun spans slot => Substitution.insertSpan (spanOf slot) spans)
    ((Placeholder.occurrences fieldTag t.content.toList).map spanOf)

/-- The literal parts of the template: the text between its placeholders. -/
def literals (t : Template) : List (List Char) :=
  Substitution.between 0 t.content.toList t.spans

/-- The default values that field tags of the template give. -/
def defaults (t : Template) : List String :=
  (Placeholder.occurrences fieldTag t.content.toList).filterMap fun o =>
    (Tag.Attributes.ofTag? o.tag).bind fun a => a.get? defaultAttribute

/-- All text that the template itself puts into a document is tag-safe. -/
structure TagSafe (t : Template) : Prop where
  literals : ∀ part ∈ t.literals, Usage.TagSafe part
  defaults : ∀ value ∈ t.defaults, Usage.TagSafe value.toList

/-- What a field tag stands for: the field that it names, with the value of the usage or else the
default of the tag. -/
theorem resolveField_eq_ok {t : Template} {fields : Fields} {tag : List Char}
    {name value : String} :
    t.resolveField fields tag = .ok (name, value) ↔
      ∃ a, Tag.Attributes.ofTag? tag = some a ∧ a.get? nameAttribute = some name ∧
        (fields[name]?).or (a.get? defaultAttribute) = some value := by
  rw [resolveField, Stages.bind_eq_ok]
  simp only [Tag.Attributes.ofTag_eq_ok]
  refine exists_congr fun a => and_congr_right fun _ => ?_
  cases hname : a.get? nameAttribute with
  | none => simp
  | some named =>
    -- the value of the usage goes before the default
    cases hvalue : fields[named]? <;> cases hdefault : a.get? defaultAttribute <;> grind

/-- The value of a field comes from the usage or is a default of the template. -/
theorem value_of_resolveField {t : Template} {fields : Fields} {o : Placeholder.Occurrence}
    {name value : String}
    (ho : o ∈ Placeholder.occurrences fieldTag t.content.toList)
    (h : t.resolveField fields o.tag = .ok (name, value)) :
    fields[name]? = some value ∨ value ∈ t.defaults := by
  obtain ⟨a, ha, -, hvalue⟩ := resolveField_eq_ok.1 h
  rcases Option.or_eq_some_iff.1 hvalue with hfield | ⟨-, hdefault⟩
  · exact .inl hfield
  · exact .inr (List.mem_filterMap.2 ⟨o, ho, by rw [ha]; exact hdefault⟩)

/-- Where the fillers go does not depend on what they are. -/
theorem span_of_places {t : Template} {fields : Fields} {inner : List Char}
    {resolved : List (String × String)} {places : List Substitution}
    (hresolved : t.resolveFields fields = .ok resolved)
    (hplaces : t.places inner resolved = .ok places) :
    places.map Substitution.span = t.spans := by
  have hspans : (t.fieldPlaces resolved).map Substitution.span =
      (Placeholder.occurrences fieldTag t.content.toList).map spanOf := by
    have hlen := Stages.length_of_mapM hresolved
    rw [fieldPlaces, List.map_map]
    conv => rhs; rw [← List.map_fst_zip (Nat.le_of_eq hlen.symm), List.map_map]
    rfl
  -- the places are those of the field tags, with the content slot put among them
  rcases places_eq_ok hplaces with ⟨hslots, rfl⟩ | ⟨slot, hslots, rfl⟩
  · rw [spans, hslots]
    exact hspans
  · rw [spans, hslots, List.foldl_cons, List.foldl_nil, ← hspans]
    exact Substitution.map_span_insert _ _

/-- The places are filled with the content of the usage and with the values of the field tags, and
every value fills one. -/
theorem filler_of_places {t : Template} {fields : Fields} {inner : List Char}
    {resolved : List (String × String)} {places : List Substitution}
    (hresolved : t.resolveFields fields = .ok resolved)
    (hplaces : t.places inner resolved = .ok places) :
    (∀ s ∈ places, s.start ≤ s.stop ∧
      (s.filler = inner ∨ ∃ p ∈ resolved, s.filler = p.2.toList)) ∧
    ∀ p ∈ resolved, ∃ s ∈ places, s.filler = p.2.toList := by
  have hfilled : ∀ s ∈ t.fieldPlaces resolved, s.start ≤ s.stop ∧
      (s.filler = inner ∨ ∃ p ∈ resolved, s.filler = p.2.toList) := by
    intro s hs
    obtain ⟨p, hp, rfl⟩ := List.mem_map.1 hs
    exact ⟨Nat.le_add_right .., .inr ⟨p.2, (List.of_mem_zip hp).2, rfl⟩⟩
  have hall : ∀ p ∈ resolved, ∃ s ∈ t.fieldPlaces resolved, s.filler = p.2.toList := by
    intro p hp
    have hlength := Stages.length_of_mapM hresolved
    rw [← List.map_snd_zip (Nat.le_of_eq hlength)] at hp
    obtain ⟨q, hq, rfl⟩ := List.mem_map.1 hp
    exact ⟨_, List.mem_map_of_mem hq, rfl⟩
  rcases places_eq_ok hplaces with ⟨-, rfl⟩ | ⟨slot, -, rfl⟩
  · exact ⟨hfilled, hall⟩
  · refine ⟨fun s hs => ?_, fun p hp => ?_⟩
    · rcases Substitution.mem_insert.1 hs with rfl | hs
      · exact ⟨Nat.le_add_right .., .inl rfl⟩
      · exact hfilled s hs
    · obtain ⟨s, hs, hfill⟩ := hall p hp
      exact ⟨s, Substitution.mem_insert.2 (.inr hs), hfill⟩

/-- The parts that the filled template is put together from: its literal parts with the fillers
between them. -/
def parts (t : Template) (fields : Fields) (inner : List Char) :
    Except Defect (List (List Char)) := do
  let resolved ← t.resolveFields fields
  let places ← t.places inner resolved
  return Substitution.weave t.literals (places.map Substitution.filler)

/-- A template that can be filled is put together from its literal parts, the content of the usage
and the values of its field tags. -/
theorem exists_parts_of_fill {t : Template} {fields : Fields} {inner : List Char}
    {filling : Filling} (h : t.fill fields inner = .ok filling) :
    ∃ resolved parts, t.resolveFields fields = .ok resolved ∧ t.parts fields inner = .ok parts ∧
      filling.text = parts.flatten ∧ (∀ p ∈ resolved, p.2.toList ∈ parts) ∧
      ∀ part ∈ parts, part ∈ t.literals ∨ part = inner ∨ ∃ p ∈ resolved, part = p.2.toList := by
  obtain ⟨resolved, places, hresolved, hplaces, hout⟩ := fill_eq_ok.1 h
  obtain ⟨hfill, hall⟩ := filler_of_places hresolved hplaces
  have hspans := span_of_places hresolved hplaces
  have hlength : (places.map Substitution.filler).length ≤ t.literals.length := by
    rw [literals, Substitution.length_between, ← hspans, List.length_map, List.length_map]
    exact Nat.le_succ _
  refine ⟨resolved, Substitution.weave t.literals (places.map Substitution.filler), hresolved,
    ?_, ?_, fun p hp => ?_, fun part hpart => ?_⟩
  · rw [parts, hresolved, Stages.ok_bind, hplaces]
    rfl
  · rw [literals, ← hspans]
    exact Substitution.eq_flatten_of_substitute? (substitute?_of_assemble hout)
      fun s hs => (hfill s hs).1
  · obtain ⟨s, hs, heq⟩ := hall p hp
    exact (Substitution.mem_weave hlength).2 (.inr (heq ▸ List.mem_map_of_mem hs))
  · rcases (Substitution.mem_weave hlength).1 hpart with hpart | hpart
    · exact .inl hpart
    · obtain ⟨s, hs, rfl⟩ := List.mem_map.1 hpart
      exact .inr (hfill s hs).2

/-- Filling a tag-safe template with tag-safe values and content gives a tag-safe text. -/
theorem tagSafe_of_fill {t : Template} {fields : Fields} {inner : List Char}
    {filling : Filling} (h : t.fill fields inner = .ok filling) (ht : t.TagSafe)
    (hfields : ∀ (name value : String), fields[name]? = some value → Usage.TagSafe value.toList)
    (hinner : Usage.TagSafe inner) : Usage.TagSafe filling.text := by
  obtain ⟨resolved, parts, hresolved, -, htext, -, hparts⟩ := exists_parts_of_fill h
  rw [htext]
  refine Usage.TagSafe.flatten fun part hpart => ?_
  rcases hparts part hpart with hpart | rfl | ⟨⟨name, value⟩, hp, rfl⟩
  · exact ht.literals part hpart
  · exact hinner
  · obtain ⟨o, ho, hvalue⟩ := (Stages.mem_of_mapM hresolved).1 hp
    rcases value_of_resolveField ho hvalue with hvalue | hvalue
    · exact hfields name value hvalue
    · exact ht.defaults value hvalue

end Template

/-- With only one template all are tag-safe when it is. -/
theorem Templates.tagSafe_of_getElem?_insert {template t : Template} {name key : String}
    (hsafe : template.TagSafe) (h : ((∅ : Templates).insert name template)[key]? = some t) :
    t.TagSafe := by
  rw [Std.ExtTreeMap.getElem?_insert] at h
  split at h
  · cases h
    exact hsafe
  · simp at h

end Stencil
