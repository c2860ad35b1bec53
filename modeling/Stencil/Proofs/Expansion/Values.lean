import Stencil.Proofs.Expansion.Revalued

/-!
# Values as data

Where neither the templates nor the values of a document hold tags of usages, all that is put
in the place of a usage is free of tags (`tagSafe_of_mem_filledTexts`). So values are data
there, as they are wherever the texts put in the places of usages have the same tags: another
value for a field changes neither whether the document expands nor the number of usages
resolved (`expand_revalued`).
-/

namespace Stencil

namespace Usage

/-- No value that the tag gives to a field holds a tag of a usage. -/
def SafeValues (tag : List Char) : Prop :=
  ∀ usage, ofTag tag = .ok usage →
    ∀ field value : String, usage.fields[field]? = some value → TagSafe value.toList

/-- No text in front of a tag and no value of a field is read as a tag. -/
inductive Clean : List Char → Prop
  | last {s} (tagless : Tagless s) : Clean s
  | tag {s tag rest closing} (safe : TagSafe s) (isTag : IsTag closing tag)
      (values : closing = false → SafeValues tag) (next : Clean rest) : Clean (s ++ (tag ++ rest))

/-- A written tag has the values that are written into it. -/
theorem safeValues_openTag {name : String} {fields : List (String × String)}
    (hname : '"' ∉ name.toList) (hfields : ∀ f ∈ fields, FieldWritable f)
    (hsafe : ∀ f ∈ fields, TagSafe f.2.toList) : SafeValues (openTag name fields) := by
  intro usage husage
  rw [ofTag_openTag hname fun f hf => (hfields f hf).writable] at husage
  cases husage
  exact tagSafe_of_insertMany hsafe

end Usage

namespace Expansion

open Usage (tagName TagSafe IsTag Alike SafeValues Clean)

variable {templates : Templates} {left : Nat} {text current rest : List Char}
  {w : Waiting} {ws outer : List Waiting}

theorem filledTexts_eq_nil (h : ∀ p, Tag.Pair.find? tagName text ≠ .ok (some p)) :
    filledTexts templates left text = [] := by
  cases left with
  | zero => rfl
  | succ left =>
    rw [filledTexts]
    split
    · next p hfind => exact absurd hfind (h p)
    · rfl

/-- A waiting tag with safe values behind a safe text. -/
structure Waiting.Safe (w : Waiting) : Prop where
  lead : TagSafe w.lead
  isTag : IsTag false w.tag
  values : SafeValues w.tag

theorem Waiting.Safe.valid (h : w.Safe) : w.Valid := ⟨h.lead.inert, h.isTag⟩

/-- Behind the closing tag of a usage the expansion goes on with a safe text in its place. -/
theorem mem_filledTexts_closing
    (ht : ∀ (name : String) (t : Template), templates[name]? = some t → t.TagSafe)
    (hws : ∀ v ∈ w :: outer, v.Safe) (hcurrent : TagSafe current) {tag : List Char}
    (htag : IsTag true tag) {f : List Char}
    (hf : f ∈ filledTexts templates left (behind (w :: outer) (current ++ (tag ++ rest)))) :
    ∃ before filled, TagSafe filled ∧
      (f = filled ∨ f ∈ filledTexts templates before (behind outer (w.lead ++ filled ++ rest))) := by
  obtain ⟨p, hfind, hopening, hinner, hsplice⟩ :=
    exists_pair_behind (fun v hv => (hws v hv).valid) hcurrent.inert htag rest
  cases left with
  | zero => cases hf
  | succ left =>
    cases hfill : fillUsage templates p with
    | error d =>
      rw [filledTexts, hfind] at hf
      simp only [hfill] at hf
      cases hf
    | ok filling =>
      obtain ⟨usage, template, husage, htemplate, hfilling⟩ := exists_of_fillUsage hfill
      rw [hopening] at husage
      rw [hinner] at hfilling
      have hsafe : TagSafe filling.text :=
        Template.tagSafe_of_fill hfilling (ht _ _ htemplate)
          ((hws w List.mem_cons_self).values usage husage) hcurrent
      rw [filledTexts_succ hfind hfill, hsplice, ← List.append_assoc, List.mem_cons] at hf
      exact ⟨left, filling.text, hsafe, hf⟩

/-- All texts that are put in the places of usages are free of tags. -/
theorem tagSafe_of_mem_filledTexts
    (ht : ∀ (name : String) (t : Template), templates[name]? = some t → t.TagSafe)
    (hrest : Clean rest) (hws : ∀ v ∈ ws, v.Safe) (hcurrent : TagSafe current) {f : List Char}
    (hf : f ∈ filledTexts templates left (behind ws (current ++ rest))) : TagSafe f := by
  induction hrest generalizing ws current left with
  | @last s tagless =>
    have hnone : ∀ p, Tag.Pair.find? tagName (behind ws (current ++ s)) ≠ .ok (some p) := by
      intro p
      rw [find?_behind fun v hv => (hws v hv).valid,
        Tag.Pair.findFrom_congr (hcurrent.inert.nextMark?_append s)]
      rcases tagless.findFrom (innermost ws (current ++ s)) with ⟨d, h⟩ | ⟨-, h⟩ <;> rw [h] <;> simp
    rw [filledTexts_eq_nil hnone] at hf
    cases hf
  | @tag s tag r closing safe isTag values next ih =>
    cases closing with
    | false =>
      -- the tag waits for its closing tag
      have htext : behind ws (current ++ (s ++ (tag ++ r))) =
          behind (⟨current ++ s, tag⟩ :: ws) ([] ++ r) := by
        show _ = behind ws (current ++ s ++ (tag ++ ([] ++ r)))
        simp
      rw [htext] at hf
      exact ih (List.forall_mem_cons.2 ⟨⟨hcurrent.append safe, isTag, values rfl⟩, hws⟩) .nil hf
    | true =>
      rw [← List.append_assoc current] at hf
      cases ws with
      | nil =>
        have hnone : ∀ p, Tag.Pair.find? tagName (behind [] (current ++ s ++ (tag ++ r))) ≠
            .ok (some p) := by
          intro p
          have hmark : Tag.nextMark? tagName (current ++ s ++ (tag ++ r)) = some (true, tag ++ r) := by
            rw [(hcurrent.append safe).inert.nextMark?_append, isTag.mark]
          rw [behind, Tag.Pair.find?, Tag.Pair.findFrom_close_none hmark (isTag.ended r)]
          simp
        rw [filledTexts_eq_nil hnone] at hf
        cases hf
      | cons w outer =>
        obtain ⟨before, filled, hfilled, rfl | hf⟩ :=
          mem_filledTexts_closing ht hws (hcurrent.append safe) isTag hf
        · exact hfilled
        · obtain ⟨hw, houter⟩ := List.forall_mem_cons.1 hws
          exact ih houter (hw.lead.append hfilled) hf

/-- Clean documents of which one has another value for a field have tag-safe texts put in the
places of their usages, so these are alike. -/
theorem alike_filledTexts_of_clean {document document' : List Char}
    (ht : ∀ (name : String) (t : Template), templates[name]? = some t → t.TagSafe)
    (hclean : Clean document) (hclean' : Clean document') :
    ∀ f ∈ (filledTexts templates left document).zip (filledTexts templates left document'),
      Alike f.1 f.2 := by
  have hsafe : ∀ {d : List Char}, Clean d → ∀ f ∈ filledTexts templates left d, TagSafe f :=
    fun hd f hf => tagSafe_of_mem_filledTexts ht hd (List.forall_mem_nil _) .nil hf
  intro f hf
  obtain ⟨hleft, hright⟩ := List.of_mem_zip hf
  exact .last (hsafe hclean _ hleft).inert (hsafe hclean' _ hright).inert

end Expansion

open Usage (Revalued Alike Clean openTag closeTag)

/-- Another value for a field of a usage changes neither whether a document expands nor the
number of usages resolved, as long as the texts put in the places of usages have the same tags
up to the values of fields. So they do when no template and no value holds a tag of a usage. -/
theorem expand_revalued {templates : Templates} {limit : Nat} {document document' : String}
    (h : Revalued document.toList document'.toList) :
    ((∀ f ∈ (Expansion.filledTexts templates limit document.toList).zip
        (Expansion.filledTexts templates limit document'.toList), Alike f.1 f.2) →
      (expand templates limit document).toOption.map Expansion.resolved =
        (expand templates limit document').toOption.map Expansion.resolved) ∧
    ((∀ (name : String) (t : Template), templates[name]? = some t → t.TagSafe) →
      Clean document.toList → Clean document'.toList →
      (expand templates limit document).toOption.map Expansion.resolved =
        (expand templates limit document').toOption.map Expansion.resolved) := by
  refine ⟨Expansion.resolved_of_revalued h, fun ht hclean hclean' => ?_⟩
  exact Expansion.resolved_of_revalued h (Expansion.alike_filledTexts_of_clean ht hclean hclean')

/-- A page with one usage, which gives a title to a card. -/
def titledPage (value : String) : String :=
  String.ofList (openTag "card" [("title", value)] ++ closeTag)

section Titled

variable {name value value' : String}

theorem fieldWritable_title (h : '"' ∉ value.toList) : Usage.FieldWritable ("title", value) := by
  have hname : "title".toList ≠ [] := by decide
  have hchars : "title".toList.all Tag.inTagName = true := by decide
  exact ⟨hname, List.all_eq_true.1 hchars, h⟩

theorem isTag_titled (hname : '"' ∉ name.toList) (hvalue : '"' ∉ value.toList) :
    Usage.IsTag false (openTag name [("title", value)]) :=
  Usage.isTag_openTag hname (List.forall_mem_singleton.2 (fieldWritable_title hvalue).writable)

theorem tagRevalued_titled (hname : '"' ∉ name.toList) (hvalue : '"' ∉ value.toList)
    (hvalue' : '"' ∉ value'.toList) :
    Usage.TagRevalued (openTag name [("title", value)]) (openTag name [("title", value')]) :=
  Usage.tagRevalued_openTag hname (List.forall_mem_nil _) (fieldWritable_title hvalue) hvalue'

theorem tagless_nil : Usage.Tagless [] := by
  rintro closing mark ⟨⟩

theorem revalued_titledPage (hvalue : '"' ∉ value.toList) (hvalue' : '"' ∉ value'.toList) :
    Revalued (titledPage value).toList (titledPage value').toList := by
  have hcard : '"' ∉ "card".toList := by decide
  have h := Revalued.intro (.last .nil) (isTag_titled hcard hvalue)
    (tagRevalued_titled hcard hvalue hvalue') Usage.delimited_closeTag tagless_nil
  simpa [titledPage] using h

theorem clean_titledPage (hvalue : '"' ∉ value.toList) (hsafe : Usage.TagSafe value.toList) :
    Clean (titledPage value).toList := by
  have hcard : '"' ∉ "card".toList := by decide
  have hvalues : Usage.SafeValues (openTag "card" [("title", value)]) :=
    Usage.safeValues_openTag hcard (List.forall_mem_singleton.2 (fieldWritable_title hvalue))
      (List.forall_mem_singleton.2 hsafe)
  have hclose : Clean ([] ++ (closeTag ++ [])) :=
    .tag .nil Usage.isTag_closeTag nofun (.last tagless_nil)
  have h : Clean ([] ++ (openTag "card" [("title", value)] ++ ([] ++ (closeTag ++ [])))) :=
    .tag .nil (isTag_titled hcard hvalue) (fun _ => hvalues) hclose
  simpa [titledPage] using h

end Titled

/-- A card that passes its title on to a usage of another template. -/
def cardTemplates : Templates :=
  ((∅ : Templates).insert "card" (Template.ofFile ⟨"t/card.html"⟩ ⟨"card.html"⟩
    "<--template --name=\"b\" $title=\"<--field --name=\"title\">\"></--template>")).insert "b"
    (Template.ofFile ⟨"t/b.html"⟩ ⟨"b.html"⟩ "<b><--field --name=\"title\"></b>")

/-- A card that shows its title. -/
def plainCard : Template :=
  Template.ofFile ⟨"t/card.html"⟩ ⟨"card.html"⟩ "<h1><--field --name=\"title\"></h1>"

def plainTemplates : Templates := (∅ : Templates).insert "card" plainCard

theorem tagSafe_plainCard : plainCard.TagSafe := by
  have hliterals : plainCard.literals = ["<h1>".toList, "</h1>".toList] := by decide +kernel
  have hdefaults : plainCard.defaults = [] := by decide +kernel
  refine ⟨?_, ?_⟩
  · rw [hliterals]
    intro part hpart
    simp only [List.mem_cons, List.not_mem_nil, or_false] at hpart
    rcases hpart with rfl | rfl <;> exact ⟨by decide +kernel, by decide +kernel⟩
  · rw [hdefaults]
    exact List.forall_mem_nil _

/-- The title of a card is data, even where the template puts it into a tag. -/
theorem expand_revalued_titledPage :
    Revalued (titledPage "Hi").toList (titledPage "<i>").toList ∧
    (∀ f ∈ (Expansion.filledTexts cardTemplates 2 (titledPage "Hi").toList).zip
      (Expansion.filledTexts cardTemplates 2 (titledPage "<i>").toList), Alike f.1 f.2) ∧
    expand cardTemplates 2 (titledPage "Hi") = .ok ⟨"<b>Hi</b>", [], 2⟩ ∧
    (expand cardTemplates 2 (titledPage "Hi")).toOption.map Expansion.resolved =
      (expand cardTemplates 2 (titledPage "<i>")).toOption.map Expansion.resolved ∧
    Clean (titledPage "Hi").toList ∧ Clean (titledPage "<i>").toList ∧
    (expand plainTemplates 2 (titledPage "Hi")).toOption.map Expansion.resolved =
      (expand plainTemplates 2 (titledPage "<i>")).toOption.map Expansion.resolved := by
  have hHi : '"' ∉ "Hi".toList := by decide
  have hi : '"' ∉ "<i>".toList := by decide
  have hb : '"' ∉ "b".toList := by decide
  have hrevalued : Revalued (titledPage "Hi").toList (titledPage "<i>").toList :=
    revalued_titledPage hHi hi
  have hfilled : ∀ f ∈ (Expansion.filledTexts cardTemplates 2 (titledPage "Hi").toList).zip
      (Expansion.filledTexts cardTemplates 2 (titledPage "<i>").toList), Alike f.1 f.2 := by
    have htexts : ∀ v ∈ ["Hi", "<i>"],
        Expansion.filledTexts cardTemplates 2 (titledPage v).toList =
          [openTag "b" [("title", v)] ++ closeTag, ("<b>" ++ v ++ "</b>").toList] := by
      decide +kernel
    have hinert : ∀ v ∈ ["Hi", "<i>"], Usage.Inert ("<b>" ++ v ++ "</b>").toList := by
      intro v hv
      simp only [List.mem_cons, List.not_mem_nil, or_false] at hv
      refine Usage.TagSafe.inert ?_
      rcases hv with rfl | rfl <;> exact ⟨by decide +kernel, by decide +kernel⟩
    rw [htexts "Hi" (by decide), htexts "<i>" (by decide)]
    -- the first text holds a usage with the title in its tag, the second no tag
    have hfirst : Alike (openTag "b" [("title", "Hi")] ++ closeTag)
        (openTag "b" [("title", "<i>")] ++ closeTag) :=
      (tagRevalued_titled hb hHi hi).alike (isTag_titled hb hHi) Usage.delimited_closeTag
    have hsecond : Alike ("<b>" ++ "Hi" ++ "</b>").toList ("<b>" ++ "<i>" ++ "</b>").toList :=
      .last (hinert _ (by decide)) (hinert _ (by decide))
    exact List.forall_mem_cons.2 ⟨hfirst, List.forall_mem_singleton.2 hsecond⟩
  have htemplates : ∀ (name : String) (t : Template), plainTemplates[name]? = some t → t.TagSafe :=
    fun _ _ => Templates.tagSafe_of_getElem?_insert tagSafe_plainCard
  have hclean : Clean (titledPage "Hi").toList :=
    clean_titledPage hHi ⟨by decide +kernel, by decide +kernel⟩
  have hclean' : Clean (titledPage "<i>").toList :=
    clean_titledPage hi ⟨by decide +kernel, by decide +kernel⟩
  exact ⟨hrevalued, hfilled, by decide +kernel, (expand_revalued hrevalued).1 hfilled, hclean,
    hclean', (expand_revalued hrevalued).2 htemplates hclean hclean'⟩

/-- A value that looks like a tag is read as one once it has been put in place. -/
theorem exists_value_read_as_tag :
    ∃ value, '"' ∉ value.toList ∧
      Revalued (titledPage "Hi").toList (titledPage value).toList ∧
      expand plainTemplates 10000 (titledPage "Hi") = .ok ⟨"<h1>Hi</h1>", [], 1⟩ ∧
      expand plainTemplates 10000 (titledPage value) = .error .unmatchedOpen := by
  have hvalue : '"' ∉ "<--template>".toList := by decide
  exact ⟨"<--template>", hvalue, revalued_titledPage (by decide) hvalue, by decide +kernel,
    by decide +kernel⟩

end Stencil
