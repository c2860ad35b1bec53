import Stencil.Tag.Pair

/-!
# The search for a pair, step by step

What `Pair.findFrom` does at the next mark of the text: nothing left, an opening tag to
remember, or a closing tag that ends the search. Only the next mark matters, so text
without one can be put in front (`findFrom_congr`).
-/

namespace Stencil.Tag.Pair

variable {name s t mark rest : List Char} {opened : Option (List Char × List Char)}

theorem findFrom_of_none (h : nextMark? name s = none) :
    findFrom name opened s =
      if opened.isSome then .error .unmatchedOpen else .ok none := by
  rw [findFrom]
  split
  · rfl
  next hm => rw [h] at hm; cases hm

theorem findFrom_open (h : nextMark? name s = some (false, mark))
    (he : afterEnd (.outside false) mark = some rest) :
    findFrom name opened s = findFrom name (some (mark, rest)) rest := by
  rw [findFrom]
  split
  next hm => rw [h] at hm; cases hm
  next hm =>
    rw [h] at hm
    cases hm
    split
    next hr => rw [he] at hr; cases hr
    next hr =>
      rw [he] at hr
      cases hr
      rfl

/-- A closing tag is paired with the last opening tag. -/
theorem findFrom_close {o : List Char × List Char} (h : nextMark? name s = some (true, mark))
    (he : afterEnd (.outside false) mark = some rest) :
    findFrom name (some o) s = .ok (some ⟨o.1, o.2, mark, rest⟩) := by
  rw [findFrom]
  split
  next hm => rw [h] at hm; cases hm
  next hm =>
    rw [h] at hm
    cases hm
    split
    next hr => rw [he] at hr; cases hr
    next hr =>
      rw [he] at hr
      cases hr
      rfl

/-- A closing tag without an opening tag in front of it is a defect. -/
theorem findFrom_close_none (h : nextMark? name s = some (true, mark))
    (he : afterEnd (.outside false) mark = some rest) :
    findFrom name none s = .error .unmatchedClose := by
  rw [findFrom]
  split
  next hm => rw [h] at hm; cases hm
  next hm =>
    rw [h] at hm
    cases hm
    split
    next hr => rw [he] at hr; cases hr
    next hr => rfl

/-- A tag without an end is a defect, wherever the search meets it. -/
theorem findFrom_of_unended {closing : Bool} (h : nextMark? name s = some (closing, mark))
    (he : afterEnd (.outside false) mark = none) :
    findFrom name opened s = .error .missingBracket := by
  rw [findFrom]
  split
  next hm => rw [h] at hm; cases hm
  next hm =>
    rw [h] at hm
    cases hm
    split
    next hr => rfl
    next hr => rw [he] at hr; cases hr

/-- The search depends on the text only through its next mark. -/
theorem findFrom_congr (h : nextMark? name s = nextMark? name t) :
    findFrom name opened s = findFrom name opened t := by
  conv => lhs; rw [findFrom]
  conv => rhs; rw [findFrom]
  rw [h]

end Stencil.Tag.Pair
