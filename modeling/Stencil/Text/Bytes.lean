/-!
# Byte offsets

Offsets into a text count the bytes of its UTF-8 form. `size` measures a text that
way and `cutAt` goes to an offset, to the next character when the offset lies
inside one.
-/

namespace Stencil.Text

/-- The number of bytes of the UTF-8 form. -/
def size : List Char → Nat
  | [] => 0
  | c :: s => c.utf8Size + size s

@[simp] theorem size_append (s t : List Char) : size (s ++ t) = size s + size t := by
  induction s with
  | nil => simp [size]
  | cons c s ih => simp [size, ih, Nat.add_assoc]

/-- The text from byte `offset` on, with the character in front of it. An offset
inside a character stands for the end of that character; past the end of the text
there is nothing. -/
def cutAt (offset : Nat) (previous : Option Char) :
    List Char → Option (Option Char × List Char)
  | [] => if offset = 0 then some (previous, []) else none
  | c :: s =>
    if offset = 0 then some (previous, c :: s) else cutAt (offset - c.utf8Size) (some c) s

/-- At the length of a part that comes first, the text is cut after that part. -/
theorem cutAt_size (s t : List Char) (previous : Option Char) :
    cutAt (size s) previous (s ++ t) = some (s.getLast?.or previous, t) := by
  induction s generalizing previous with
  | nil => cases t <;> simp [cutAt, size]
  | cons c s ih =>
    have hc : 0 < c.utf8Size := c.utf8Size_pos
    have hne : ¬ size (c :: s) = 0 := by simp only [size]; omega
    have hsub : size (c :: s) - c.utf8Size = size s := by simp only [size]; omega
    rw [List.cons_append, cutAt, if_neg hne, hsub, ih]
    cases s with
    | nil => simp
    | cons d s => simp [List.getLast?_cons]

end Stencil.Text
