import Stencil.Defect
import Stencil.Tag.Ending
import Stencil.Text.Blank
import Stencil.Text.Suffix

/-!
# Paired tags

`Pair.find?` looks for the first closing tag of a name and pairs it with the opening
tag in front of it. That pair is innermost: no tag of the name starts between the
two, so usages inside a usage come first. The four places of a pair are kept as
suffixes of the text, and `Pair.Within` says how they lie in it.
-/

namespace Stencil.Tag

/-- Whether a tag name may end in front of this text. -/
def endsName : List Char → Bool
  | [] => true
  | c :: _ => Text.isBlank c || c == '>' || c == '/'

/-- Whether an opening or a closing tag of `name` starts here; `true` for a closing
one. -/
def markHere? (name : List Char) : List Char → Option Bool
  | '<' :: '/' :: s => closes true (Text.afterLead? name s)
  | '<' :: s => closes false (Text.afterLead? name s)
  | _ => none
where
  /-- The mark counts when its name ends where the name we look for does. -/
  closes (closing : Bool) : Option (List Char) → Option Bool
    | some rest => if endsName rest then some closing else none
    | none => none

/-- The text from the first tag of `name` on, and whether that tag is a closing one. -/
def nextMark? (name : List Char) : List Char → Option (Bool × List Char)
  | [] => none
  | c :: s =>
    match markHere? name (c :: s) with
    | some closing => some (closing, c :: s)
    | none => nextMark? name s

theorem nextMark?_suffix {name s mark : List Char} {closing : Bool}
    (h : nextMark? name s = some (closing, mark)) : mark <:+ s := by
  induction s with
  | nil => simp [nextMark?] at h
  | cons c s ih =>
    rw [nextMark?] at h
    split at h
    · simp only [Option.some.injEq, Prod.mk.injEq] at h
      exact h.2 ▸ List.suffix_rfl
    · exact (ih h).trans (List.suffix_cons ..)

/-- An opening tag, its content and the closing tag, given by what is left of the
text at the start of each and after the last. -/
structure Pair where
  /-- The text from the opening tag on. -/
  opening : List Char
  /-- The text from the content on. -/
  content : List Char
  /-- The text from the closing tag on. -/
  closing : List Char
  /-- The text after the closing tag. -/
  after : List Char
  deriving DecidableEq, Repr

namespace Pair

/-- The opening tag. -/
def openingTag (p : Pair) : List Char := Text.before p.opening p.content

/-- What stands between the two tags. -/
def inner (p : Pair) : List Char := Text.before p.content p.closing

/-- The places of the pair follow each other in `text`, and neither tag is empty. -/
structure Within (p : Pair) (text : List Char) : Prop where
  opening : p.opening <:+ text
  content : p.content <:+ p.opening
  closing : p.closing <:+ p.content
  after : p.after <:+ p.closing
  openingTag : p.content.length < p.opening.length
  closingTag : p.after.length < p.closing.length

/-- The search behind `find?`, in the text that is left. `opened` is the last opening
tag met: the text from that tag on and the text after it. -/
def findFrom (name : List Char) (opened : Option (List Char × List Char))
    (s : List Char) : Except Defect (Option Pair) :=
  match _mark : nextMark? name s with
  | none => if opened.isSome then .error .unmatchedOpen else .ok none
  | some (closes, mark) =>
    match _rest : afterEnd (.outside false) mark with
    | none => .error .missingBracket
    | some rest =>
      if closes then
        match opened with
        | none => .error .unmatchedClose
        | some (opening, content) => .ok (some ⟨opening, content, mark, rest⟩)
      else findFrom name (some (mark, rest)) rest
termination_by s.length
decreasing_by exact Nat.lt_of_lt_of_le (afterEnd_length _rest) (nextMark?_suffix _mark).length_le

/-- The innermost first pair of tags of `name`; none when the text has no tag of that
name at all. -/
def find? (name text : List Char) : Except Defect (Option Pair) := findFrom name none text

/-- A search that starts behind the last opening tag stays within the text. -/
theorem findFrom_within {name text s : List Char} {opened : Option (List Char × List Char)}
    {p : Pair} (hs : s <:+ text)
    (ho : ∀ o ∈ opened, o.1 <:+ text ∧ o.2 <:+ o.1 ∧ o.2.length < o.1.length ∧ s <:+ o.2)
    (h : findFrom name opened s = .ok (some p)) : p.Within text := by
  fun_induction findFrom name opened s with
  | case1 | case2 | case3 | case4 => simp at h
  | case5 s mark rest ha opening content hm =>
    have hp : Pair.mk opening content mark rest = p := by simpa using h
    subst hp
    obtain ⟨h1, h2, h3, h4⟩ := ho (opening, content) (by simp)
    exact ⟨h1, h2, (nextMark?_suffix hm).trans h4, afterEnd_suffix ha, h3, afterEnd_length ha⟩
  | case6 opened s closes mark hm rest ha hc ih =>
    have hmark := (nextMark?_suffix hm).trans hs
    have hrest := (afterEnd_suffix ha).trans hmark
    refine ih hrest ?_ h
    rintro o ⟨⟩
    exact ⟨hmark, afterEnd_suffix ha, afterEnd_length ha, List.suffix_rfl⟩

/-- What `find?` finds lies in the text. -/
theorem within_of_find? {name text : List Char} {p : Pair} (h : find? name text = .ok (some p)) :
    p.Within text :=
  findFrom_within List.suffix_rfl (by simp) h

/-- The text with the pair, tags and content, replaced by `filled`. -/
def splice (p : Pair) (text filled : List Char) : List Char :=
  Text.before text p.opening ++ (filled ++ p.after)

/-- The text with the two tags taken away and the content kept. -/
def unwrap (p : Pair) (text : List Char) : List Char := p.splice text p.inner

theorem Within.length_unwrap {p : Pair} {text : List Char} (h : p.Within text) :
    (p.unwrap text).length < text.length := by
  have h1 := h.opening.length_le
  have h2 := h.content.length_le
  have h3 := h.closing.length_le
  have h4 := h.openingTag
  have h5 := h.closingTag
  simp only [unwrap, splice, inner, List.length_append, Text.length_before]
  omega

end Pair

end Stencil.Tag
