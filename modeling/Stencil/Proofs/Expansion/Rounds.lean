import Stencil.Proofs.Expansion.Accepted
import Stencil.Proofs.Tag.Ending
import Stencil.Proofs.Tag.Located
import Stencil.Proofs.Text.Ranges

/-!
# The rounds of the search for names

The search for template names has no limit: it goes on with ever shorter texts until no pair of
tags is left or one of them is a defect. `NameSearch` is a run of it that takes its two tags out
of the bytes of the text, and cannot go on where a range of bytes is not one of whole characters.
Every text has one run, which ends as the search does (`exists_nameSearch_iff`), and each round
takes two `<` out of the text, which bounds the rounds (`NameSearch.length_le`).
-/

namespace Stencil

open Text (IsRange IsSlice IsCut IsBoundary)

/-! ## The pieces of a text with a pair -/

/-- A pair that is found divides the text: what stands in front, the opening tag, the content, the
closing tag and the rest. Both tags start with `<`. -/
theorem Tag.Pair.exists_pieces_of_find? {name text : List Char} {p : Pair}
    (h : find? name text = .ok (some p)) :
    ∃ lead tag inner mark, text = lead ++ (('<' :: tag) ++ (inner ++ (('<' :: mark) ++ p.after))) ∧
      p.openingTag = '<' :: tag ∧ p.unwrap text = lead ++ (inner ++ p.after) ∧
      p.span text = ⟨Text.size lead, Text.size lead + Text.size ('<' :: tag),
        Text.size (lead ++ (('<' :: tag) ++ inner)),
        Text.size (lead ++ (('<' :: tag) ++ inner)) + Text.size ('<' :: mark)⟩ := by
  obtain ⟨hopening, hcontent, hclosing, hafter, htag, hmark⟩ := within_of_find? h
  have hmarked := marked_of_find? h
  obtain ⟨s, hs⟩ := eq_cons_of_markHere? hmarked.opening
  obtain ⟨t, ht⟩ := eq_cons_of_markHere? (nextMark?_eq_some_iff.1 hmarked.closing).2.1
  obtain ⟨opening, content, closing, after⟩ := p
  obtain ⟨mark, rfl⟩ : after <:+ closing := hafter
  obtain ⟨inner, rfl⟩ : mark ++ after <:+ content := hclosing
  obtain ⟨tag, rfl⟩ : inner ++ (mark ++ after) <:+ opening := hcontent
  obtain ⟨lead, rfl⟩ : tag ++ (inner ++ (mark ++ after)) <:+ text := hopening
  cases tag with
  | nil => exact absurd htag (by simp)
  | cons c tag =>
    cases mark with
    | nil => exact absurd hmark (by simp)
    | cons d mark =>
      obtain rfl : c = '<' := (List.cons.inj hs).1
      obtain rfl : d = '<' := (List.cons.inj ht).1
      refine ⟨lead, tag, inner, mark, rfl, ?_, ?_, ?_⟩
      · rw [openingTag, Text.before_append_left]
      · rw [unwrap, splice, Pair.inner, Text.before_append_left, Text.before_append_left]
      · simp only [span, Text.offset, Text.size_append, Span.mk.injEq]
        omega

/-! ## Runs -/

/-- A round of the search: the text it looks at and the pair of tags that it finds there. -/
structure NameRound where
  text : List Char
  span : Tag.Span

/-- A run of the search from the names found so far. -/
inductive NameSearch : (names : Std.ExtTreeSet String) → (text : List Char) → List NameRound →
    Except Defect (Std.ExtTreeSet String) → Prop
  | clear {names text} (find : Tag.Pair.find? Usage.tagName text = .ok none) :
      NameSearch names text [] (.ok names)
  | unpaired {names text d} (find : Tag.Pair.find? Usage.tagName text = .error d) :
      NameSearch names text [] (.error d)
  | unread {names text p tag d} (find : Tag.Pair.find? Usage.tagName text = .ok (some p))
      (slice : IsSlice text (p.span text).start (p.span text).contentStart tag)
      (read : Usage.ofTag tag = .error d) :
      NameSearch names text [⟨text, p.span text⟩] (.error d)
  /-- The name is noted, then the closing tag is taken out and after it the opening tag. -/
  | round {names text p tag usage middle next rounds result}
      (find : Tag.Pair.find? Usage.tagName text = .ok (some p))
      (slice : IsSlice text (p.span text).start (p.span text).contentStart tag)
      (read : Usage.ofTag tag = .ok usage)
      (closing : IsCut text (p.span text).contentEnd (p.span text).stop middle)
      (opening : IsCut middle (p.span text).start (p.span text).contentStart next)
      (rest : NameSearch (names.insert usage.name) next rounds result) :
      NameSearch names text (⟨text, p.span text⟩ :: rounds) result

variable {names : Std.ExtTreeSet String} {text : List Char} {p : Tag.Pair}
  {rounds : List NameRound} {result : Except Defect (Std.ExtTreeSet String)}

/-- The opening tag can be read off the bytes. -/
theorem isSlice_openingTag (h : Tag.Pair.find? Usage.tagName text = .ok (some p)) :
    IsSlice text (p.span text).start (p.span text).contentStart p.openingTag := by
  obtain ⟨lead, tag, inner, mark, htext, htag, -, hspan⟩ := Tag.Pair.exists_pieces_of_find? h
  rw [hspan, htag]
  conv => arg 1; rw [htext]
  exact Text.isSlice_append lead ('<' :: tag) _

/-- The two tags can be taken out one after the other, which leaves the text without them. -/
theorem exists_isCut (h : Tag.Pair.find? Usage.tagName text = .ok (some p)) :
    ∃ middle, IsCut text (p.span text).contentEnd (p.span text).stop middle ∧
      IsCut middle (p.span text).start (p.span text).contentStart (p.unwrap text) := by
  obtain ⟨lead, tag, inner, mark, htext, -, hunwrap, hspan⟩ := Tag.Pair.exists_pieces_of_find? h
  refine ⟨lead ++ (('<' :: tag) ++ (inner ++ p.after)), ?_, ?_⟩
  · rw [hspan]
    conv => arg 1; rw [htext]
    have hcut := Text.isCut_append (lead ++ (('<' :: tag) ++ inner)) ('<' :: mark) p.after
    simpa only [List.append_assoc] using hcut
  · rw [hspan, hunwrap]
    exact Text.isCut_append lead ('<' :: tag) (inner ++ p.after)

/-- Cuts at the two tags leave the text without them. -/
theorem eq_unwrap_of_isCut {middle next : List Char}
    (h : Tag.Pair.find? Usage.tagName text = .ok (some p))
    (closing : IsCut text (p.span text).contentEnd (p.span text).stop middle)
    (opening : IsCut middle (p.span text).start (p.span text).contentStart next) :
    next = p.unwrap text := by
  obtain ⟨middle', closing', opening'⟩ := exists_isCut h
  obtain rfl := closing.unique closing'
  exact opening.unique opening'

/-! How the run of a text goes on is decided by what is found in it. -/

theorem nameSearch_iff_of_none (find : Tag.Pair.find? Usage.tagName text = .ok none) :
    NameSearch names text rounds result ↔ rounds = [] ∧ result = .ok names := by
  constructor
  · intro h
    cases h with
    | clear => exact ⟨rfl, rfl⟩
    | unpaired find' | unread find' | round find' =>
      rw [find] at find'
      cases find'
  · rintro ⟨rfl, rfl⟩
    exact .clear find

theorem nameSearch_iff_of_error {d : Defect}
    (find : Tag.Pair.find? Usage.tagName text = .error d) :
    NameSearch names text rounds result ↔ rounds = [] ∧ result = .error d := by
  constructor
  · intro h
    cases h with
    | unpaired find' =>
      rw [find] at find'
      cases find'
      exact ⟨rfl, rfl⟩
    | clear find' | unread find' | round find' =>
      rw [find] at find'
      cases find'
  · rintro ⟨rfl, rfl⟩
    exact .unpaired find

theorem nameSearch_iff_of_unread {d : Defect}
    (find : Tag.Pair.find? Usage.tagName text = .ok (some p))
    (read : Usage.ofTag p.openingTag = .error d) :
    NameSearch names text rounds result ↔ rounds = [⟨text, p.span text⟩] ∧ result = .error d := by
  constructor
  · intro h
    cases h with
    | unread find' slice read' =>
      rw [find] at find'
      cases find'
      rw [slice.unique (isSlice_openingTag find), read] at read'
      cases read'
      exact ⟨rfl, rfl⟩
    | round find' slice read' =>
      rw [find] at find'
      cases find'
      rw [slice.unique (isSlice_openingTag find), read] at read'
      cases read'
    | clear find' | unpaired find' =>
      rw [find] at find'
      cases find'
  · rintro ⟨rfl, rfl⟩
    exact .unread find (isSlice_openingTag find) read

theorem nameSearch_iff_of_usage {usage : Usage}
    (find : Tag.Pair.find? Usage.tagName text = .ok (some p))
    (read : Usage.ofTag p.openingTag = .ok usage) :
    NameSearch names text rounds result ↔ ∃ later, rounds = ⟨text, p.span text⟩ :: later ∧
      NameSearch (names.insert usage.name) (p.unwrap text) later result := by
  constructor
  · intro h
    cases h with
    | round find' slice read' closing opening rest =>
      rw [find] at find'
      cases find'
      rw [slice.unique (isSlice_openingTag find), read] at read'
      cases read'
      rw [eq_unwrap_of_isCut find closing opening] at rest
      exact ⟨_, rfl, rest⟩
    | unread find' slice read' =>
      rw [find] at find'
      cases find'
      rw [slice.unique (isSlice_openingTag find), read] at read'
      cases read'
    | clear find' | unpaired find' =>
      rw [find] at find'
      cases find'
  · rintro ⟨later, rfl, rest⟩
    obtain ⟨middle, closing, opening⟩ := exists_isCut find
    exact .round find (isSlice_openingTag find) read closing opening rest

/-- Every text has one run, and it ends as the search for names does. -/
theorem exists_nameSearch_iff (names : Std.ExtTreeSet String) (text : List Char) :
    ∃ rounds, ∀ others result, NameSearch names text others result ↔
      others = rounds ∧ result = templateNamesFrom names text := by
  fun_induction templateNamesFrom names text with
  | case1 names text d find => exact ⟨[], fun _ _ => nameSearch_iff_of_error find⟩
  | case2 names text find => exact ⟨[], fun _ _ => nameSearch_iff_of_none find⟩
  | case3 names text p find d read => exact ⟨_, fun _ _ => nameSearch_iff_of_unread find read⟩
  | case4 names text p find usage read ih =>
    obtain ⟨rounds, hrest⟩ := ih
    refine ⟨⟨text, p.span text⟩ :: rounds, fun others result => ?_⟩
    rw [nameSearch_iff_of_usage find read]
    constructor
    · rintro ⟨later, rfl, hlater⟩
      obtain ⟨rfl, hresult⟩ := (hrest later result).1 hlater
      exact ⟨rfl, hresult⟩
    · rintro ⟨rfl, hresult⟩
      exact ⟨rounds, rfl, (hrest rounds result).2 ⟨rfl, hresult⟩⟩

/-! ## The number of rounds -/

/-- With its two tags a text loses two characters `<`. -/
theorem count_unwrap (h : Tag.Pair.find? Usage.tagName text = .ok (some p)) :
    (p.unwrap text).count '<' + 2 ≤ text.count '<' := by
  obtain ⟨lead, tag, inner, mark, htext, -, hunwrap, -⟩ := Tag.Pair.exists_pieces_of_find? h
  rw [hunwrap, htext]
  simp only [List.count_append, List.count_cons_self]
  omega

/-- Every round has two characters `<` of the text to itself. -/
theorem NameSearch.length_le (h : NameSearch names text rounds result) :
    2 * rounds.length ≤ text.count '<' := by
  induction h with
  | clear | unpaired => exact Nat.zero_le _
  | unread find =>
    have hcount := count_unwrap find
    rw [List.length_singleton]
    omega
  | round find _ _ closing opening _ ih =>
    have hcount := count_unwrap find
    rw [eq_unwrap_of_isCut find closing opening] at ih
    rw [List.length_cons]
    omega

/-- A round adds one name at most. -/
theorem NameSearch.size_le {found : Std.ExtTreeSet String}
    (h : NameSearch names text rounds (.ok found)) : found.size ≤ names.size + rounds.length := by
  generalize hresult : (Except.ok found : Except Defect (Std.ExtTreeSet String)) = result at h
  induction h with
  | clear =>
    cases hresult
    exact Nat.le_add_right _ _
  | unpaired | unread => cases hresult
  | @round names _ _ _ usage _ _ _ _ _ _ _ _ _ _ ih =>
    have hstep := ih hresult
    have hinsert := Std.ExtTreeSet.size_insert_le (t := names) (k := usage.name)
    rw [List.length_cons]
    omega

/-! ## The rounds one by one -/

/-- The ranges of a round are ranges of whole characters and lie apart, and taking them out, the
later one first, leaves shorter and shorter texts. -/
structure NameRound.Sound (r : NameRound) : Prop where
  opening : IsRange r.text r.span.start r.span.contentStart
  closing : IsRange r.text r.span.contentEnd r.span.stop
  apart : r.span.contentStart ≤ r.span.contentEnd
  exists_isCut : ∃ middle next, IsCut r.text r.span.contentEnd r.span.stop middle ∧
    IsCut middle r.span.start r.span.contentStart next ∧
    Text.size middle < Text.size r.text ∧ Text.size next < Text.size middle
  /-- The search for the next mark goes on in front of a character. -/
  resumes : ∀ start stop, Tag.endOffset? r.text start = some stop → IsBoundary r.text stop

theorem sound_of_find? (h : Tag.Pair.find? Usage.tagName text = .ok (some p)) :
    NameRound.Sound ⟨text, p.span text⟩ := by
  obtain ⟨middle, closing, opening⟩ := exists_isCut h
  have hlocated := Tag.Pair.located_of_find? Usage.isName_tagName h
  have hstart := hlocated.start_lt
  have hend := hlocated.contentEnd_lt
  have hmiddle := closing.size_add
  have hnext := opening.size_add
  have hshorter : Text.size middle < Text.size text := by omega
  exact ⟨(isSlice_openingTag h).toIsRange, closing.toIsRange, hlocated.contentStart_le,
    ⟨middle, _, closing, opening, hshorter, by omega⟩, fun _ _ => Tag.isBoundary_of_endOffset?⟩

theorem NameSearch.sound (h : NameSearch names text rounds result) : ∀ r ∈ rounds, r.Sound := by
  induction h with
  | clear | unpaired => simp
  | unread find => simpa using sound_of_find? find
  | round find _ _ _ _ _ ih => exact List.forall_mem_cons.2 ⟨sound_of_find? find, ih⟩

/-- The texts of the rounds get shorter. -/
theorem NameSearch.pairwise (h : NameSearch names text rounds result) :
    (∀ r ∈ rounds, Text.size r.text ≤ Text.size text) ∧
      rounds.Pairwise fun r r' => Text.size r'.text < Text.size r.text := by
  induction h with
  | clear | unpaired => exact ⟨by simp, .nil⟩
  | unread => exact ⟨by simp, List.pairwise_singleton _ _⟩
  | @round _ text p _ _ middle next rounds _ find _ _ closing opening _ ih =>
    have hlocated := Tag.Pair.located_of_find? Usage.isName_tagName find
    have hstart := hlocated.start_lt
    have hmiddle := closing.size_add
    have hnext := opening.size_add
    have hshorter : ∀ r ∈ rounds, Text.size r.text < Text.size text := by
      intro r hr
      have hle := ih.1 r hr
      omega
    refine ⟨List.forall_mem_cons.2 ⟨Nat.le_refl _, fun r hr => Nat.le_of_lt (hshorter r hr)⟩, ?_⟩
    exact List.pairwise_cons.2 ⟨hshorter, ih.2⟩

/-- The search for names of a document is one run of at most half as many rounds as the document
has characters `<`. Every round can be carried out on the bytes and leaves a shorter text, and no
more names are found than there are rounds. -/
theorem templateNames_rounds (document : String) :
    ∃ rounds, (∀ others result, NameSearch ∅ document.toList others result ↔
        others = rounds ∧ result = templateNames document) ∧
      2 * rounds.length ≤ document.toList.count '<' ∧
      (∀ r ∈ rounds, r.Sound) ∧
      (rounds.Pairwise fun r r' => Text.size r'.text < Text.size r.text) ∧
      ∀ names, templateNames document = .ok names → names.size ≤ rounds.length := by
  obtain ⟨rounds, hunique⟩ := exists_nameSearch_iff ∅ document.toList
  have hrun : NameSearch ∅ document.toList rounds (templateNames document) :=
    (hunique _ _).2 ⟨rfl, rfl⟩
  refine ⟨rounds, hunique, hrun.length_le, hrun.sound, hrun.pairwise.2, fun names hnames => ?_⟩
  rw [hnames] at hrun
  have hsize := hrun.size_le
  rwa [Std.ExtTreeSet.size_empty, Nat.zero_add] at hsize

end Stencil
