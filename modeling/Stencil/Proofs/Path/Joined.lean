import Stencil.Proofs.Path.Place

/-!
# Paths put together from names

A path that is made of names is known by its names joined with slashes
(`Normal.same_of_joined_eq`). Whether it names a markup file is a matter of its last name, and
since the markup endings hold no slash it can be read off the joined names as well
(`Normal.ofPath_eq_markup_iff`): what stands in front of the ending is the name that
`dropMarkupEnding` leaves (`dropMarkupEnding_append`).
-/

namespace Stencil

namespace Path

/-- All components of the path are names. -/
def Normal (p : Path) : Prop := ∀ c ∈ p.components, ∃ n, c = .name n

variable {p q : Path} {names : List String}

/-- The path is made of names that can be written. -/
theorem Normal.exists_names (h : p.Normal) :
    ∃ names : List String, p.components = names.map .name ∧
      ∀ n ∈ names, isFileName n = true := by
  have hnames : ∀ cs : List Component, (∀ c ∈ cs, ∃ n, c = .name n) →
      ∃ names : List String, cs = names.map .name := by
    intro cs hcs
    induction cs with
    | nil => exact ⟨[], rfl⟩
    | cons c cs ih =>
      obtain ⟨n, rfl⟩ := hcs c List.mem_cons_self
      obtain ⟨names, rfl⟩ := ih fun d hd => hcs d (List.mem_cons_of_mem _ hd)
      exact ⟨n :: names, rfl⟩
  obtain ⟨names, hcomponents⟩ := hnames _ h
  refine ⟨names, hcomponents, fun n hn => ?_⟩
  apply isFileName_of_mem_components (p := p)
  rw [hcomponents]
  exact List.mem_map_of_mem hn

theorem joined_of_components (h : p.components = names.map .name) :
    p.joined = (ofNames names).text := by
  have htext : Component.text ∘ .name = id := rfl
  rw [joined, h, List.map_map, htext, List.map_id]
  rfl

/-- Paths made of names are the same when their names, joined with slashes, are. -/
theorem Normal.same_of_joined_eq (hp : p.Normal) (hq : q.Normal) (h : p.joined = q.joined) :
    p.Same q := by
  obtain ⟨names, hcomponents, hnames⟩ := hp.exists_names
  obtain ⟨others, hcomponents', hothers⟩ := hq.exists_names
  rw [joined_of_components hcomponents, joined_of_components hcomponents'] at h
  have hpaths : ofNames names = ofNames others := congrArg Path.mk h
  have hparts := parts_ofNames hnames
  rw [hpaths, parts_ofNames hothers] at hparts
  rw [Same, hcomponents, hcomponents', hparts]

/-- In front of its last name a path made of names has nothing or ends in a slash. -/
theorem exists_lead_ofNames (front : List String) (n : String) :
    ∃ lead, (ofNames (front ++ [n])).text.toList = lead ++ n.toList ∧
      (lead = [] ∨ lead.getLast? = some '/') := by
  induction front with
  | nil => exact ⟨[], by simp [ofNames], .inl rfl⟩
  | cons m front ih =>
    obtain ⟨lead, htext, hlead⟩ := ih
    refine ⟨m.toList ++ '/' :: lead, ?_, .inr ?_⟩
    · rw [List.cons_append, toList_ofNames_cons, if_neg (by simp), htext]
      simp
    · rw [List.getLast?_append_of_ne_nil _ (List.cons_ne_nil _ _)]
      rcases hlead with rfl | hlead
      · rfl
      · rw [List.getLast?_cons, hlead]
        rfl

/-- The joined names end in the last name. -/
theorem Normal.exists_lead_joined (h : p.Normal) :
    ∃ lead, p.joined.toList = lead ++ (p.fileName?.getD "").toList ∧
      (lead = [] ∨ lead.getLast? = some '/') := by
  obtain ⟨names, hcomponents, -⟩ := h.exists_names
  rw [joined_of_components hcomponents, fileName?, hcomponents]
  rcases List.eq_nil_or_concat names with rfl | ⟨front, n, rfl⟩
  · exact ⟨[], rfl, .inl rfl⟩
  · rw [List.concat_eq_append]
    have hlast : ((front ++ [n]).map Component.name).getLast? = some (.name n) := by simp
    rw [hlast]
    exact exists_lead_ofNames front n

/-- An ending without a slash does not reach behind one. -/
theorem suffix_append_iff {lead s ending : List Char}
    (hlead : lead = [] ∨ lead.getLast? = some '/') (hslash : '/' ∉ ending) :
    ending <:+ lead ++ s ↔ ending <:+ s := by
  refine ⟨fun h => ?_, fun h => h.trans (List.suffix_append lead s)⟩
  rcases List.suffix_or_suffix_of_suffix h (List.suffix_append lead s) with hs | hs
  · exact hs
  · -- the ending starts in what leads the text, so it would hold the slash there
    obtain ⟨reach, rfl⟩ := hs
    have hreach : reach <:+ lead := List.suffix_append_self_iff.1 h
    rcases List.eq_nil_or_concat reach with rfl | ⟨front, c, rfl⟩
    · exact List.suffix_rfl
    · obtain ⟨before, rfl⟩ := hreach
      rcases hlead with hlead | hlead
      · simp at hlead
      · have hc : c = '/' := by simpa [← List.append_assoc] using hlead
        exact absurd (by simp [hc]) hslash

end Path

/-! ## Markup endings -/

theorem slash_not_mem_markupEndings {ending : String} (h : ending ∈ markupEndings) :
    '/' ∉ ending.toList := by
  have hall : ∀ ending ∈ markupEndings, '/' ∉ ending.toList := by decide
  exact hall ending h

/-- A path made of names is that of a markup file when its joined names are a name with a markup
ending. -/
theorem Path.Normal.ofPath_eq_markup_iff {p : Path} (h : p.Normal) :
    FileKind.ofPath p = .markup ↔ ∃ name, ∃ ending ∈ markupEndings, p.joined = name ++ ending := by
  obtain ⟨lead, hjoined, hlead⟩ := h.exists_lead_joined
  have hends : ∀ ending ∈ markupEndings,
      ending.toList.isSuffixOf (p.fileName?.getD "").toList = true ↔
        ∃ name, p.joined = name ++ ending := by
    intro ending hending
    rw [List.isSuffixOf_iff_suffix,
      ← Path.suffix_append_iff hlead (slash_not_mem_markupEndings hending), ← hjoined]
    constructor
    · rintro ⟨front, hfront⟩
      refine ⟨String.ofList front, String.toList_inj.1 ?_⟩
      rw [String.toList_append, String.toList_ofList, hfront]
    · rintro ⟨name, hname⟩
      exact ⟨name.toList, by rw [hname, String.toList_append]⟩
  have hany : FileKind.ofPath p = .markup ↔ (markupEndings.any fun ending =>
      ending.toList.isSuffixOf (p.fileName?.getD "").toList) = true := by
    rw [FileKind.ofPath]
    split
    · next hmarkup => exact ⟨fun _ => hmarkup, fun _ => rfl⟩
    · next hasset => exact ⟨nofun, fun hmarkup => absurd hmarkup hasset⟩
  rw [hany, List.any_eq_true]
  constructor
  · rintro ⟨ending, hending, hsuffix⟩
    obtain ⟨name, hname⟩ := (hends ending hending).1 hsuffix
    exact ⟨name, ending, hending, hname⟩
  · rintro ⟨name, ending, hending, hname⟩
    exact ⟨ending, hending, (hends ending hending).2 ⟨name, hname⟩⟩

/-- A text ends as its endings do. -/
theorem getLast?_of_suffix {ending s : List Char} (hne : ending ≠ []) (h : ending <:+ s) :
    ending.getLast? = s.getLast? := by
  obtain ⟨front, rfl⟩ := h
  rw [List.getLast?_append_of_ne_nil _ hne]

/-- Taking the ending off leaves what stands in front of it. -/
theorem dropMarkupEnding_append (name : String) {ending : String} (h : ending ∈ markupEndings) :
    dropMarkupEnding (name ++ ending) = name := by
  -- the endings differ in their last letters, so a text has one of them at most
  have hapart : ∀ ending ∈ markupEndings, ∀ other ∈ markupEndings,
      ending.toList.getLast? = other.toList.getLast? → ending = other := by decide
  have hne : ∀ ending ∈ markupEndings, ending.toList ≠ [] := by decide
  have hown : ending.toList <:+ (name ++ ending).toList := by
    rw [String.toList_append]
    exact List.suffix_append ..
  have hfind : (markupEndings.find? fun other =>
      other.toList.isSuffixOf (name ++ ending).toList) = some ending := by
    generalize name ++ ending = text at hown
    cases hfind : markupEndings.find? fun other => other.toList.isSuffixOf text.toList with
    | none =>
      exact absurd (List.isSuffixOf_iff_suffix.2 hown) (List.find?_eq_none.1 hfind ending h)
    | some other =>
      have hother := List.mem_of_find?_eq_some hfind
      have hends : other.toList.isSuffixOf text.toList = true := by
        simpa using List.find?_some hfind
      rw [List.isSuffixOf_iff_suffix] at hends
      rw [hapart other hother ending h ((getLast?_of_suffix (hne _ hother) hends).trans
        (getLast?_of_suffix (hne _ h) hown).symm)]
  rw [dropMarkupEnding, hfind]
  show String.ofList (Text.before (name ++ ending).toList ending.toList) = name
  rw [String.toList_append, Text.before_append_left, String.ofList_toList]

end Stencil
