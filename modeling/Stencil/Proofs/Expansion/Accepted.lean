import Mathlib.Data.List.Forall2
import Stencil.Proofs.Expansion.Steps
import Stencil.Proofs.Usage.Inert

/-!
# What expansion accepts and planning accepts

Expansion and the search for template names take the same usages of a document in the same
order, as long as no tag is born where pieces of text meet. Then a document that expands is
one whose names can be found, and its templates exist (`templateNames_of_expand`).
-/

namespace Stencil

namespace Expansion

open Usage (tagName Inert IsTag Separated Balanced)

variable {templates : Templates} {limit left : Nat} {text rest current current' : List Char}
  {p : Tag.Pair} {sofar : Std.ExtTreeSet String} {e : Expansion}

/-- The texts that `resolve` puts in the place of usages while `left` more may be resolved,
in their order. -/
def filledTexts (templates : Templates) : (left : Nat) → (text : List Char) → List (List Char)
  | 0, _ => []
  | left + 1, text =>
    match Tag.Pair.find? tagName text with
    | .ok (some p) =>
      match fillUsage templates p with
      | .error _ => []
      | .ok filling => filling.text :: filledTexts templates left (p.splice text filling.text)
    | _ => []

theorem filledTexts_succ {filling : Template.Filling}
    (hfind : Tag.Pair.find? tagName text = .ok (some p))
    (hfill : fillUsage templates p = .ok filling) :
    filledTexts templates (left + 1) text =
      filling.text :: filledTexts templates left (p.splice text filling.text) := by
  rw [filledTexts, hfind]
  simp only [hfill]

/-- An expansion that comes to its end fills the first usage and goes on with the rest. -/
theorem exists_filling_of_resolve (hfind : Tag.Pair.find? tagName text = .ok (some p))
    (h : resolve templates limit left text = .ok e) :
    ∃ before filling e', left = before + 1 ∧ fillUsage templates p = .ok filling ∧
      resolve templates limit before (p.splice text filling.text) = .ok e' := by
  cases left with
  | zero =>
    rw [resolve_zero hfind] at h
    cases h
  | succ before =>
    rw [resolve_succ hfind] at h
    obtain ⟨filling, hfilling, h⟩ := Stages.bind_eq_ok.1 h
    obtain ⟨e', he', -⟩ := Stages.bind_eq_ok.1 h
    exact ⟨before, filling, e', rfl, hfilling, he'⟩

/-! ## The search for names, step by step -/

theorem templateNamesFrom_of_none (h : Tag.Pair.find? tagName text = .ok none) :
    templateNamesFrom sofar text = .ok sofar := by
  rw [templateNamesFrom]
  split
  · next hfind => rw [h] at hfind; cases hfind
  · rfl
  · next hfind => rw [h] at hfind; cases hfind

theorem templateNamesFrom_of_some {usage : Usage}
    (h : Tag.Pair.find? tagName text = .ok (some p))
    (husage : Usage.ofTag p.openingTag = .ok usage) :
    templateNamesFrom sofar text =
      templateNamesFrom (sofar.insert usage.name) (p.unwrap text) := by
  rw [templateNamesFrom]
  split
  · next hfind => rw [h] at hfind; cases hfind
  · next hfind => rw [h] at hfind; cases hfind
  · next q hfind =>
    rw [h] at hfind
    cases hfind
    rw [husage]

/-! ## Tags that wait to be closed -/

/-- An opening tag whose closing tag has not come yet, with the text in front of it. -/
structure Waiting where
  lead : List Char
  tag : List Char

/-- No tag but this one starts in its text. -/
structure Waiting.Valid (w : Waiting) : Prop where
  lead : Inert w.lead
  tag : IsTag false w.tag

variable {w : Waiting} {ws outer : List Waiting}

/-- The text `s` behind waiting tags, of which the innermost is given first. -/
def behind : List Waiting → List Char → List Char
  | [], s => s
  | w :: outer, s => behind outer (w.lead ++ (w.tag ++ s))

theorem behind_eq_append (ws : List Waiting) (s : List Char) : behind ws s = behind ws [] ++ s := by
  induction ws generalizing s with
  | nil => rfl
  | cons w ws ih =>
    rw [behind, ih, behind, ih (w.lead ++ (w.tag ++ []))]
    simp

/-- The innermost waiting tag, as the search for a pair remembers it. -/
def innermost : List Waiting → List Char → Option (List Char × List Char)
  | [], _ => none
  | w :: _, s => some (w.tag ++ s, s)

/-- Behind waiting tags the search for a pair goes on with the innermost of them. -/
theorem find?_behind (hws : ∀ w ∈ ws, w.Valid) (s : List Char) :
    Tag.Pair.find? tagName (behind ws s) =
      Tag.Pair.findFrom tagName (innermost ws s) s := by
  induction ws generalizing s with
  | nil => rfl
  | cons w ws ih =>
    have hw := hws w List.mem_cons_self
    have hrest := ih fun v hv => hws v (List.mem_cons_of_mem _ hv)
    have hmark := hw.lead.nextMark?_append (w.tag ++ s)
    rw [hw.tag.mark] at hmark
    rw [behind, hrest]
    exact Tag.Pair.findFrom_open hmark (hw.tag.ended s)

/-- A closing tag behind waiting tags is paired with the innermost. -/
theorem exists_pair_behind (hws : ∀ v ∈ w :: outer, v.Valid) (hcurrent : Inert current)
    {tag : List Char} (htag : IsTag true tag) (rest : List Char) :
    let text := behind (w :: outer) (current ++ (tag ++ rest))
    ∃ p, Tag.Pair.find? tagName text = .ok (some p) ∧ p.openingTag = w.tag ∧
      p.inner = current ∧
      ∀ filled, p.splice text filled = behind outer (w.lead ++ (filled ++ rest)) := by
  intro text
  let content := current ++ (tag ++ rest)
  have hmark : Tag.nextMark? tagName content = some (true, tag ++ rest) := by
    rw [hcurrent.nextMark?_append, htag.mark]
  refine ⟨⟨w.tag ++ content, content, tag ++ rest, rest⟩, ?_, ?_, ?_, ?_⟩
  · rw [find?_behind hws]
    exact Tag.Pair.findFrom_close hmark (htag.ended rest)
  · exact Text.before_append_left _ _
  · exact Text.before_append_left _ _
  · intro filled
    have htext : text = (behind outer [] ++ w.lead) ++ (w.tag ++ content) := by
      show behind outer (w.lead ++ (w.tag ++ content)) = _
      rw [behind_eq_append, List.append_assoc]
    rw [Tag.Pair.splice, htext, Text.before_append_left,
      behind_eq_append outer (w.lead ++ (filled ++ rest)), List.append_assoc]

/-- An expansion that comes to its end fills a usage whose closing tag it has come to. -/
theorem exists_filled_behind (hws : ∀ v ∈ w :: outer, v.Valid) (hcurrent : Inert current)
    {tag : List Char} (htag : IsTag true tag)
    (h : resolve templates limit left (behind (w :: outer) (current ++ (tag ++ rest))) = .ok e) :
    ∃ before usage template filled e', left = before + 1 ∧ Usage.ofTag w.tag = .ok usage ∧
      templates[usage.name]? = some template ∧
      filledTexts templates left (behind (w :: outer) (current ++ (tag ++ rest))) =
        filled :: filledTexts templates before (behind outer (w.lead ++ (filled ++ rest))) ∧
      resolve templates limit before (behind outer (w.lead ++ (filled ++ rest))) = .ok e' := by
  obtain ⟨p, hfind, hopening, -, hsplice⟩ := exists_pair_behind hws hcurrent htag rest
  obtain ⟨before, filling, e', rfl, hfilling, hresolve⟩ := exists_filling_of_resolve hfind h
  obtain ⟨usage, template, husage, htemplate, -⟩ := exists_of_fillUsage hfilling
  rw [hopening] at husage
  rw [filledTexts_succ hfind hfilling, hsplice]
  rw [hsplice] at hresolve
  exact ⟨before, usage, template, filling.text, e', rfl, husage, htemplate, rfl, hresolve⟩

/-- The search for names notes the name of a usage whose closing tag it has come to, and takes
its tags away. -/
theorem templateNamesFrom_behind (hws : ∀ v ∈ w :: outer, v.Valid) (hcurrent : Inert current)
    {tag : List Char} (htag : IsTag true tag) {usage : Usage}
    (husage : Usage.ofTag w.tag = .ok usage) :
    templateNamesFrom sofar (behind (w :: outer) (current ++ (tag ++ rest))) =
      templateNamesFrom (sofar.insert usage.name)
        (behind outer (w.lead ++ current ++ rest)) := by
  obtain ⟨p, hfind, hopening, hinner, hsplice⟩ := exists_pair_behind hws hcurrent htag rest
  rw [← hopening] at husage
  rw [templateNamesFrom_of_some hfind husage, Tag.Pair.unwrap, hinner, hsplice,
    List.append_assoc]

/-- A text whose end is behind waiting tags is not expanded. -/
theorem resolve_ne_ok_of_waiting (hws : ∀ v ∈ w :: outer, v.Valid)
    (hmark : Tag.nextMark? tagName current = none) :
    resolve templates limit left (behind (w :: outer) current) ≠ .ok e := by
  have hdefect : Tag.Pair.find? tagName (behind (w :: outer) current) = .error .unmatchedOpen :=
    (find?_behind hws current).trans (Tag.Pair.findFrom_of_none hmark)
  rw [resolve_of_error hdefect]
  simp

/-- A text with a closing tag behind no waiting tag is not expanded. -/
theorem resolve_ne_ok_of_closing (hcurrent : Inert current) {tag : List Char}
    (htag : IsTag true tag) :
    resolve templates limit left (current ++ (tag ++ rest)) ≠ .ok e := by
  have hmark : Tag.nextMark? tagName (current ++ (tag ++ rest)) = some (true, tag ++ rest) := by
    rw [hcurrent.nextMark?_append, htag.mark]
  have hdefect : Tag.Pair.find? tagName (current ++ (tag ++ rest)) = .error .unmatchedClose :=
    Tag.Pair.findFrom_close_none hmark (htag.ended rest)
  rw [resolve_of_error hdefect]
  simp

/-! ## Filled text with usages of its own -/

/-- Balanced text behind waiting tags comes to inert text in their place, once the tags that
it closes are filled. -/
theorem exists_resolve_behind {depth : Nat} {x : List Char} (inner : List Waiting)
    {outer : List Waiting} (hx : Balanced depth x) (hdepth : inner.length = depth)
    (hws : ∀ w ∈ inner ++ outer, w.Valid) (hcurrent : Inert current)
    (hfilled : ∀ s ∈ filledTexts templates left (behind (inner ++ outer) (current ++ (x ++ rest))),
      Balanced 0 s)
    (h : resolve templates limit left (behind (inner ++ outer) (current ++ (x ++ rest))) = .ok e) :
    ∃ left' current' e', Inert current' ∧
      resolve templates limit left' (behind outer (current' ++ rest)) = .ok e' ∧
      filledTexts templates left' (behind outer (current' ++ rest)) ⊆
        filledTexts templates left (behind (inner ++ outer) (current ++ (x ++ rest))) := by
  -- every closing tag costs one usage, and between two of them the text gets shorter
  induction left using Nat.strongRecOn generalizing depth x inner current e with
  | _ left ihLeft =>
  induction hx generalizing inner current with
  | @last s inert =>
    obtain rfl := List.length_eq_zero_iff.1 hdepth
    have htext : behind ([] ++ outer) (current ++ (s ++ rest)) =
        behind outer (current ++ s ++ rest) := by
      rw [List.nil_append, List.append_assoc]
    rw [htext] at h ⊢
    exact ⟨left, current ++ s, e, hcurrent.append inert, h, fun _ hs => hs⟩
  | @opening depth s tag r inert isTag next ih =>
    have htext : behind (inner ++ outer) (current ++ (s ++ (tag ++ r) ++ rest)) =
        behind (⟨current ++ s, tag⟩ :: inner ++ outer) ([] ++ (r ++ rest)) := by
      show _ = behind (inner ++ outer) (current ++ s ++ (tag ++ ([] ++ (r ++ rest))))
      simp
    rw [htext] at h hfilled ⊢
    refine ih _ (congrArg (· + 1) hdepth) ?_ .nil hfilled h
    intro v hv
    rcases List.mem_cons.1 hv with rfl | hv
    · exact ⟨hcurrent.append inert, isTag⟩
    · exact hws v hv
  | @closing depth s tag r inert isTag next ih =>
    cases inner with
    | nil => cases hdepth
    | cons w inner =>
      have htext : behind (w :: inner ++ outer) (current ++ (s ++ (tag ++ r) ++ rest)) =
          behind (w :: (inner ++ outer)) (current ++ s ++ (tag ++ (r ++ rest))) := by
        simp
      rw [htext] at h hfilled ⊢
      rw [List.cons_append] at hws
      obtain ⟨before, -, -, filled, e', rfl, -, -, htexts, hrest⟩ :=
        exists_filled_behind hws (hcurrent.append inert) isTag h
      rw [htexts] at hfilled ⊢
      obtain ⟨hfirst, hlater⟩ := List.forall_mem_cons.1 hfilled
      -- what is put in place closes the tags it opens, so the depth is that of the rest
      have hbalanced : Balanced depth (filled ++ r) := by
        have happend := hfirst.append next
        rwa [Nat.zero_add] at happend
      rw [← List.append_assoc filled] at hrest hlater ⊢
      obtain ⟨left', current', e'', hinert, hresolve, hsub⟩ :=
        ihLeft before (Nat.lt_succ_self before) inner hbalanced (Nat.succ.inj hdepth)
          (fun v hv => hws v (List.mem_cons_of_mem _ hv)) (hws w List.mem_cons_self).lead
          hlater hrest
      exact ⟨left', current', e'', hinert, hresolve, fun v hv => List.mem_cons_of_mem _ (hsub hv)⟩

/-! ## Two texts side by side -/

/-- The same tag waits in both texts. -/
structure Alongside (v w : Waiting) : Prop where
  tag : w.tag = v.tag
  left : v.Valid
  right : w.Valid

theorem valid_of_forall₂ {vs ws : List Waiting} (h : List.Forall₂ Alongside vs ws) :
    (∀ v ∈ vs, v.Valid) ∧ ∀ w ∈ ws, w.Valid := by
  induction h with
  | nil => simp
  | cons hab _ ih =>
    exact ⟨List.forall_mem_cons.2 ⟨hab.left, ih.1⟩, List.forall_mem_cons.2 ⟨hab.right, ih.2⟩⟩

/-- Where the expansion of what is left of a document comes to its end, the names of its
usages can be found, and their templates exist. The two texts differ in what stands for
usages that are done. -/
theorem exists_names_of_resolve {vs ws : List Waiting} (hrest : Separated rest)
    (hws : List.Forall₂ Alongside vs ws) (hcurrent : Inert current) (hcurrent' : Inert current')
    (hfilled : ∀ s ∈ filledTexts templates left (behind vs (current ++ rest)), Balanced 0 s)
    (h : resolve templates limit left (behind vs (current ++ rest)) = .ok e) :
    ∃ names, templateNamesFrom sofar (behind ws (current' ++ rest)) = .ok names ∧
      ∀ name ∈ names, name ∈ sofar ∨ name ∈ templates := by
  induction hrest generalizing vs ws current current' left e sofar with
  | @last s clean =>
    have hmark : Tag.nextMark? tagName (current ++ s) = none := by
      rw [hcurrent.nextMark?_append, clean]
    cases hws with
    | cons hab hrest =>
      -- a tag that still waits would be a defect
      exact absurd h (resolve_ne_ok_of_waiting (valid_of_forall₂ (.cons hab hrest)).1 hmark)
    | nil =>
      have hclean : Tag.nextMark? tagName (current' ++ s) = none := by
        rw [hcurrent'.nextMark?_append, clean]
      have hnone : Tag.Pair.find? tagName (behind [] (current' ++ s)) = .ok none :=
        Tag.Pair.findFrom_of_none hclean
      exact ⟨sofar, templateNamesFrom_of_none hnone, fun name hname => .inl hname⟩
  | @tag s tag r closing inert isTag next ih =>
    cases closing with
    | false =>
      -- the tag waits in both texts
      have htext : ∀ (us : List Waiting) (front : List Char),
          behind us (front ++ (s ++ (tag ++ r))) = behind (⟨front ++ s, tag⟩ :: us) ([] ++ r) := by
        intro us front
        show _ = behind us (front ++ s ++ (tag ++ ([] ++ r)))
        simp
      have hwaits : List.Forall₂ Alongside (⟨current ++ s, tag⟩ :: vs) (⟨current' ++ s, tag⟩ :: ws) :=
        .cons ⟨rfl, ⟨hcurrent.append inert, isTag⟩, ⟨hcurrent'.append inert, isTag⟩⟩ hws
      rw [htext] at h hfilled
      rw [htext]
      exact ih hwaits .nil .nil hfilled h
    | true =>
      cases hws with
      | nil =>
        rw [behind, ← List.append_assoc] at h
        exact absurd h (resolve_ne_ok_of_closing (hcurrent.append inert) isTag)
      | @cons v w vs ws hab hrest =>
        obtain ⟨hvs, hws⟩ := valid_of_forall₂ (.cons hab hrest)
        have htext : ∀ (us : List Waiting) (front : List Char),
            behind us (front ++ (s ++ (tag ++ r))) = behind us (front ++ s ++ (tag ++ r)) := by
          simp
        rw [htext] at h hfilled
        rw [htext]
        -- in the expansion the usage is filled, in the other text its tags are taken away
        obtain ⟨before, usage, template, filled, e', rfl, husage, htemplate, htexts, hresolve⟩ :=
          exists_filled_behind hvs (hcurrent.append inert) isTag h
        rw [← hab.tag] at husage
        rw [htexts] at hfilled
        obtain ⟨hfirst, hlater⟩ := List.forall_mem_cons.1 hfilled
        obtain ⟨left', front, e'', hfront, hresolve', hsub⟩ :=
          exists_resolve_behind [] hfirst rfl (fun u hu => hvs u (List.mem_cons_of_mem _ hu))
            hab.left.lead hlater hresolve
        obtain ⟨names, hnames, hknown⟩ := ih hrest hfront
          (hab.right.lead.append (hcurrent'.append inert))
          (fun u hu => hlater u (hsub hu)) hresolve'
        rw [templateNamesFrom_behind hws (hcurrent'.append inert) isTag husage]
        refine ⟨names, hnames, fun name hname => ?_⟩
        rcases hknown name hname with hmem | hmem
        · rcases Std.ExtTreeSet.mem_insert.1 hmem with heq | hmem
          · obtain rfl := Std.LawfulEqCmp.eq_of_compare heq
            exact .inr (Std.ExtTreeMap.mem_iff_isSome_getElem?.2 (by rw [htemplate]; rfl))
          · exact .inl hmem
        · exact .inr hmem

end Expansion

open Usage (Separated Balanced)

/-- A document whose usages are filled with balanced text and that has no tag born where they
stood is accepted by the planner when it can be expanded. -/
theorem templateNames_of_expand {templates : Templates} {limit : Nat} {document : String}
    {e : Expansion} (hdocument : Separated document.toList)
    (hfilled : ∀ s ∈ Expansion.filledTexts templates limit document.toList, Balanced 0 s)
    (h : expand templates limit document = .ok e) :
    ∃ names, templateNames document = .ok names ∧ ∀ name ∈ names, name ∈ templates := by
  obtain ⟨names, hnames, hknown⟩ :=
    Expansion.exists_names_of_resolve hdocument .nil .nil .nil hfilled h
  refine ⟨names, hnames, fun name hname => ?_⟩
  rcases hknown name hname with hmem | hmem
  · simp at hmem
  · exact hmem

/-- A page with one usage, whose template puts the content into a usage of another. -/
def wrappedPage : String := "<--template --name=\"a\">-</--template>"

def wrappingTemplates : Templates :=
  ((∅ : Templates).insert "a" (Template.ofFile ⟨"t/a.html"⟩ ⟨"a.html"⟩
    "<--template --name=\"b\"><--inner-html></--template>")).insert "b"
    (Template.ofFile ⟨"t/b.html"⟩ ⟨"b.html"⟩ "B")

/-- The planner accepts the page, though a template uses a template. -/
theorem templateNames_of_expand_wrapped :
    Separated wrappedPage.toList ∧
    (∀ s ∈ Expansion.filledTexts wrappingTemplates 2 wrappedPage.toList, Balanced 0 s) ∧
    expand wrappingTemplates 2 wrappedPage = .ok ⟨"B", [], 2⟩ ∧
    ∃ names, templateNames wrappedPage = .ok names ∧ ∀ name ∈ names, name ∈ wrappingTemplates := by
  have hinert : ∀ s ∈ ["-", "B"], Usage.Inert s.toList := by
    intro s hs
    refine Usage.TagSafe.inert ?_
    simp only [List.mem_cons, List.not_mem_nil, or_false] at hs
    rcases hs with rfl | rfl <;> exact ⟨by decide +kernel, by decide +kernel⟩
  have hopen : ∀ name ∈ ["a", "b"],
      Usage.IsTag false ("<--template --name=\"" ++ name ++ "\">").toList := by
    intro name hname
    have htag : Tag.markHere? Usage.tagName
          (("<--template --name=\"" ++ name ++ "\">").toList ++ []) = some false ∧
        Tag.afterEnd (.outside false)
          (("<--template --name=\"" ++ name ++ "\">").toList ++ []) = some [] := by
      simp only [List.mem_cons, List.not_mem_nil, or_false] at hname
      rcases hname with rfl | rfl <;> decide +kernel
    exact Usage.isTag_of_afterEnd htag.1 htag.2
  have hclose : Usage.IsTag true "</--template>".toList := by
    have htag : Tag.markHere? Usage.tagName ("</--template>".toList ++ []) = some true ∧
        Tag.afterEnd (.outside false) ("</--template>".toList ++ []) = some [] := by
      decide +kernel
    exact Usage.isTag_of_afterEnd htag.1 htag.2
  have hseparated : Separated wrappedPage.toList :=
    .tag .nil (hopen "a" (by decide))
      (.tag (hinert "-" (by decide)) hclose (.last rfl : Separated []))
  have hfilled : ∀ s ∈ Expansion.filledTexts wrappingTemplates 2 wrappedPage.toList,
      Balanced 0 s := by
    have htexts : Expansion.filledTexts wrappingTemplates 2 wrappedPage.toList =
        ["<--template --name=\"b\">-</--template>".toList, "B".toList] := by
      decide +kernel
    rw [htexts]
    intro s hs
    simp only [List.mem_cons, List.not_mem_nil, or_false] at hs
    rcases hs with rfl | rfl
    · exact .opening .nil (hopen "b" (by decide))
        (.closing (hinert "-" (by decide)) hclose (.last .nil : Balanced 0 []))
    · exact .last (hinert "B" (by decide))
  have hexpand : expand wrappingTemplates 2 wrappedPage = .ok ⟨"B", [], 2⟩ := by decide +kernel
  exact ⟨hseparated, hfilled, hexpand, templateNames_of_expand hseparated hfilled hexpand⟩

/-- Documents that expand and are rejected all the same: one where taking tags away makes a
tag of the text around them, and one where a template opens the tag that the document
closes. -/
theorem exists_rejected_document :
    let plain := (∅ : Templates).insert "a" (Template.ofFile ⟨"t/a.html"⟩ ⟨"a.html"⟩ "X")
    let opening := ((∅ : Templates).insert "a" (Template.ofFile ⟨"t/a.html"⟩ ⟨"a.html"⟩
      "<--template --name=\"b\">")).insert "b" (Template.ofFile ⟨"t/b.html"⟩ ⟨"b.html"⟩ "")
    (∃ document, expand plain 10000 document = .ok ⟨"<X/--template>", [], 1⟩ ∧
      templateNames document = .error .unmatchedClose) ∧
    ∃ document, expand opening 10000 document = .ok ⟨"", [], 2⟩ ∧
      templateNames document = .error .unmatchedClose := by
  intro plain opening
  have hrejected : ∀ document, (templateNames document).map (fun names => names.toList) =
      .error .unmatchedClose → templateNames document = .error .unmatchedClose := by
    intro document h
    cases hnames : templateNames document with
    | error d =>
      rw [hnames] at h
      cases h
      rfl
    | ok names =>
      rw [hnames] at h
      cases h
  exact ⟨⟨"<<--template --name=\"a\"></--template>/--template>", by decide +kernel,
    hrejected _ (by decide +kernel)⟩, ⟨"<--template --name=\"a\"></--template></--template>",
    by decide +kernel, hrejected _ (by decide +kernel)⟩⟩

end Stencil
