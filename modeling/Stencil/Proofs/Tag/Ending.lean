import Stencil.Proofs.Text.Encoding
import Stencil.Tag.Ending

/-!
# Where a tag ends

A tag ends at the first `>` in front of which there are nothing but single bytes and whole quoted
runs (`Passed`, `EndsAt`). The scan of the characters finds this place in the bytes of the text,
from whatever offset it starts (`endOffset?_eq_some_iff`). What the place depends on is read off
the bytes: the byte in front of the tag and those of the tag (`endOffset?_exact`).
-/

namespace Stencil.Tag

open Text (bytes IsAscii IsHigh)

/-- The byte of a double or a single quote. -/
def IsQuoteByte (b : UInt8) : Prop := b = '"'.toUInt8 ∨ b = '\''.toUInt8

/-- Bytes in front of the `>` that ends a tag: single bytes, which are no `>` and open no quoted
run, and whole runs, which end at the very next quote of their kind. A quote opens a run unless it
is `escaped`, that is, a backslash stands in front of it. -/
inductive Passed : (escaped : Bool) → List UInt8 → Prop
  | nil {escaped} : Passed escaped []
  | byte {escaped b bs} (ne_bracket : b ≠ '>'.toUInt8)
      (opens_none : ¬ (IsQuoteByte b ∧ escaped = false))
      (rest : Passed (b == '\\'.toUInt8) bs) : Passed escaped (b :: bs)
  | run {quote inner bs} (opens : IsQuoteByte quote) (whole : quote ∉ inner)
      (rest : Passed false bs) : Passed false (quote :: (inner ++ quote :: bs))

/-- The byte in front of an offset. -/
def byteBefore? (bs : List UInt8) (start : Nat) : Option UInt8 :=
  if start = 0 then none else bs[start - 1]?

/-- The tag that starts at byte `start` ends with the `>` in front of byte `stop`. -/
structure EndsAt (bs : List UInt8) (start stop : Nat) : Prop where
  lt : start < stop
  bracket : bs[stop - 1]? = some '>'.toUInt8
  passed : Passed (byteBefore? bs start == some '\\'.toUInt8) ((bs.take (stop - 1)).drop start)

/-! ## Bytes that are passed -/

section Passed

variable {escaped : Bool} {b : UInt8} {bs : List UInt8}

theorem isAscii_backslash : IsAscii '\\' := by decide

theorem isAscii_bracket : IsAscii '>' := by decide

theorem isAscii_of_isQuote {c : Char} (h : isQuote c = true) : IsAscii c := by
  simp only [isQuote, Bool.or_eq_true, beq_iff_eq] at h
  rcases h with rfl | rfl <;> decide

theorem isQuoteByte_toUInt8_iff {c : Char} (hc : IsAscii c) :
    IsQuoteByte c.toUInt8 ↔ isQuote c = true := by
  have hdouble : IsAscii '"' := by decide
  have hsingle : IsAscii '\'' := by decide
  rw [IsQuoteByte, hc.toUInt8_inj hdouble, hc.toUInt8_inj hsingle]
  simp [isQuote]

theorem IsQuoteByte.ne_bracket (h : IsQuoteByte b) : b ≠ '>'.toUInt8 := by
  rcases h with rfl | rfl <;> decide

theorem not_isQuoteByte_of_isHigh (h : IsHigh b) : ¬ IsQuoteByte b := by
  rintro (rfl | rfl)
  all_goals exact absurd h (by decide)

theorem not_passed_bracket : ¬ Passed escaped ('>'.toUInt8 :: bs) := by
  intro h
  cases h with
  | byte ne_bracket => exact ne_bracket rfl
  | run opens => exact opens.ne_bracket rfl

theorem passed_byte_iff (ne_bracket : b ≠ '>'.toUInt8)
    (opens_none : ¬ (IsQuoteByte b ∧ escaped = false)) :
    Passed escaped (b :: bs) ↔ Passed (b == '\\'.toUInt8) bs := by
  constructor
  · intro h
    cases h with
    | byte _ _ rest => exact rest
    | run opens => exact absurd ⟨opens, rfl⟩ opens_none
  · exact .byte ne_bracket opens_none

theorem passed_quote_iff (opens : IsQuoteByte b) :
    Passed false (b :: bs) ↔
      ∃ inner rest, bs = inner ++ b :: rest ∧ b ∉ inner ∧ Passed false rest := by
  constructor
  · intro h
    cases h with
    | byte _ opens_none => exact absurd ⟨opens, rfl⟩ opens_none
    | run _ whole rest => exact ⟨_, _, rfl, whole, rest⟩
  · rintro ⟨inner, rest, rfl, whole, hrest⟩
    exact .run opens whole hrest

/-- Bytes of characters of several bytes are passed, and no backslash is among them. -/
theorem passed_high_append_iff {inside : List UInt8} (hinside : ∀ b ∈ inside, IsHigh b)
    (hne : inside ≠ []) : Passed escaped (inside ++ bs) ↔ Passed false bs := by
  induction inside generalizing escaped with
  | nil => exact absurd rfl hne
  | cons b inside ih =>
    have hb : IsHigh b := hinside b List.mem_cons_self
    have hbracket : b ≠ '>'.toUInt8 := by
      rintro rfl
      exact isAscii_bracket.not_isHigh hb
    have hbackslash : (b == '\\'.toUInt8) = false := by
      rw [beq_eq_false_iff_ne]
      rintro rfl
      exact isAscii_backslash.not_isHigh hb
    rw [List.cons_append,
      passed_byte_iff hbracket fun h => not_isQuoteByte_of_isHigh hb h.1, hbackslash]
    cases inside with
    | nil => rfl
    | cons b' inside => exact ih (fun b hb => hinside b (List.mem_cons_of_mem _ hb)) nofun

/-! The characters of a text are passed with all their bytes. -/

variable {c : Char} {s : List Char}

theorem not_passed_cons_bracket : ¬ Passed escaped (bytes ('>' :: s)) := by
  rw [Text.bytes_cons, Text.utf8EncodeChar_of_isAscii isAscii_bracket]
  exact not_passed_bracket

theorem passed_cons_quote_iff (hquote : isQuote c = true) :
    Passed false (bytes (c :: s)) ↔
      ∃ inner rest, s = inner ++ c :: rest ∧ c ∉ inner ∧ Passed false (bytes rest) := by
  have hc := isAscii_of_isQuote hquote
  rw [Text.bytes_cons, Text.utf8EncodeChar_of_isAscii hc, List.singleton_append,
    passed_quote_iff ((isQuoteByte_toUInt8_iff hc).2 hquote)]
  constructor
  · rintro ⟨inner, rest, hbytes, hinner, h⟩
    obtain ⟨inner, rest, rfl, rfl, rfl⟩ := hc.bytes_eq_append_cons_iff.1 hbytes
    exact ⟨inner, rest, rfl, fun hmem => hinner (hc.mem_bytes_iff.2 hmem), h⟩
  · rintro ⟨inner, rest, rfl, hinner, h⟩
    exact ⟨bytes inner, bytes rest, hc.bytes_eq_append_cons_iff.2 ⟨inner, rest, rfl, rfl, rfl⟩,
      fun hmem => hinner (hc.mem_bytes_iff.1 hmem), h⟩

/-- A character that neither ends the tag nor opens a run is passed. -/
theorem passed_cons_iff (ne_bracket : c ≠ '>')
    (opens_none : ¬ (isQuote c = true ∧ escaped = false)) :
    Passed escaped (bytes (c :: s)) ↔ Passed (c == '\\') (bytes s) := by
  rw [Text.bytes_cons]
  by_cases hc : IsAscii c
  · have hbracket : c.toUInt8 ≠ '>'.toUInt8 := by
      rw [Ne, hc.toUInt8_inj isAscii_bracket]
      exact ne_bracket
    have hbackslash : (c.toUInt8 == '\\'.toUInt8) = (c == '\\') := by
      rw [Bool.eq_iff_iff, beq_iff_eq, beq_iff_eq, hc.toUInt8_inj isAscii_backslash]
    rw [Text.utf8EncodeChar_of_isAscii hc, List.singleton_append,
      passed_byte_iff hbracket (by rwa [isQuoteByte_toUInt8_iff hc]), hbackslash]
  · have hbackslash : (c == '\\') = false := by
      rw [beq_eq_false_iff_ne]
      rintro rfl
      exact hc isAscii_backslash
    rw [passed_high_append_iff (fun b => Text.isHigh_of_mem_utf8EncodeChar hc)
      String.utf8EncodeChar_ne_nil, hbackslash]

/-- Where nothing in front can be a quote it does not matter whether a backslash escapes it. -/
theorem passed_congr (h : ∀ b ∈ bs.head?, ¬ IsQuoteByte b) (escaped escaped' : Bool) :
    Passed escaped bs ↔ Passed escaped' bs := by
  cases bs with
  | nil => exact ⟨fun _ => .nil, fun _ => .nil⟩
  | cons b bs =>
    have hb : ¬ IsQuoteByte b := h b rfl
    by_cases hbracket : b = '>'.toUInt8
    · subst hbracket
      exact ⟨fun h => absurd h not_passed_bracket, fun h => absurd h not_passed_bracket⟩
    · rw [passed_byte_iff hbracket fun h => hb h.1, passed_byte_iff hbracket fun h => hb h.1]

end Passed

/-! ## The scan of the characters -/

/-- A scan inside a run goes to the next quote of its kind. -/
theorem afterEnd_inside_iff {quote : Char} {s rest : List Char} :
    afterEnd (.inside quote) s = some rest ↔
      ∃ inner t, s = inner ++ quote :: t ∧ quote ∉ inner ∧
        afterEnd (.outside false) t = some rest := by
  induction s with
  | nil => simp [afterEnd]
  | cons c s ih =>
    rw [afterEnd]
    by_cases hc : c = quote
    · subst hc
      rw [if_pos rfl]
      constructor
      · intro h
        exact ⟨[], s, rfl, by simp, h⟩
      · rintro ⟨inner, t, hs, hinner, h⟩
        cases inner with
        | nil =>
          cases hs
          exact h
        | cons d inner =>
          rw [List.cons_append, List.cons.injEq] at hs
          exact absurd (hs.1 ▸ List.mem_cons_self) hinner
    · rw [if_neg hc, ih]
      constructor
      · rintro ⟨inner, t, rfl, hinner, h⟩
        exact ⟨c :: inner, t, rfl, by simp [Ne.symm hc, hinner], h⟩
      · rintro ⟨inner, t, hs, hinner, h⟩
        cases inner with
        | nil =>
          cases hs
          exact absurd rfl hc
        | cons d inner =>
          rw [List.cons_append, List.cons.injEq] at hs
          exact ⟨inner, t, hs.2, fun hmem => hinner (List.mem_cons_of_mem _ hmem), h⟩

/-- What stands in front of the bracket starts with the first character. -/
theorem exists_lead_cons_iff {c : Char} {s rest : List Char} (hc : c ≠ '>')
    (p : List Char → Prop) :
    (∃ lead, c :: s = lead ++ '>' :: rest ∧ p lead) ↔
      ∃ lead, s = lead ++ '>' :: rest ∧ p (c :: lead) := by
  constructor
  · rintro ⟨lead, hs, hp⟩
    cases lead with
    | nil =>
      cases hs
      exact absurd rfl hc
    | cons d lead =>
      rw [List.cons_append, List.cons.injEq] at hs
      obtain ⟨rfl, hs⟩ := hs
      exact ⟨lead, hs, hp⟩
  · rintro ⟨lead, rfl, hp⟩
    exact ⟨c :: lead, rfl, hp⟩

/-- A scan outside quotes stops behind the first `>` with bytes in front of it that are passed. -/
theorem afterEnd_outside_iff {escaped : Bool} {s rest : List Char} :
    afterEnd (.outside escaped) s = some rest ↔
      ∃ lead, s = lead ++ '>' :: rest ∧ Passed escaped (bytes lead) := by
  -- a run takes several characters, so the induction is on the length of the text
  induction hlength : s.length using Nat.strongRecOn generalizing s escaped with
  | ind n ih =>
  cases s with
  | nil => simp [afterEnd]
  | cons c s =>
    rw [List.length_cons] at hlength
    rw [afterEnd]
    split
    · next hopens =>
      rw [Bool.and_eq_true, Bool.not_eq_true'] at hopens
      obtain ⟨hquote, rfl⟩ := hopens
      have hne : c ≠ '>' := by
        rintro rfl
        exact absurd hquote (by decide)
      rw [afterEnd_inside_iff, exists_lead_cons_iff hne]
      simp only [passed_cons_quote_iff hquote]
      constructor
      · rintro ⟨inner, t, rfl, hinner, h⟩
        rw [List.length_append, List.length_cons] at hlength
        obtain ⟨lead, rfl, hpassed⟩ := (ih t.length (by omega) rfl).1 h
        exact ⟨inner ++ c :: lead, by simp, inner, lead, rfl, hinner, hpassed⟩
      · rintro ⟨whole, rfl, inner, lead, rfl, hinner, hpassed⟩
        refine ⟨inner, lead ++ '>' :: rest, by simp, hinner, ?_⟩
        have hshorter : (lead ++ '>' :: rest).length < n := by
          simp only [List.length_append, List.length_cons] at hlength ⊢
          omega
        exact (ih _ hshorter rfl).2 ⟨lead, rfl, hpassed⟩
    · next hopens =>
      split
      · next hc =>
        subst hc
        constructor
        · intro h
          cases h
          exact ⟨[], rfl, .nil⟩
        · rintro ⟨lead, hs, hpassed⟩
          cases lead with
          | nil =>
            cases hs
            rfl
          | cons d lead =>
            rw [List.cons_append, List.cons.injEq] at hs
            exact absurd (hs.1 ▸ hpassed) not_passed_cons_bracket
      · next hc =>
        have hopens_none : ¬ (isQuote c = true ∧ escaped = false) := by
          rintro ⟨hquote, rfl⟩
          exact hopens (by simp [hquote])
        rw [ih s.length (by omega) rfl, exists_lead_cons_iff hc]
        simp only [passed_cons_iff hc hopens_none]

/-! ## The end as an offset -/

theorem byteBefore?_append (lead rest : List UInt8) :
    byteBefore? (lead ++ rest) lead.length = lead.getLast? := by
  rw [byteBefore?, List.getLast?_eq_getElem?]
  cases lead with
  | nil => rfl
  | cons b lead =>
    rw [if_neg (by simp), List.getElem?_append_left (by simp)]

/-- The end of a tag, seen from where the tag starts. -/
theorem endsAt_append_iff {lead bs : List UInt8} {stop : Nat} :
    EndsAt (lead ++ bs) lead.length stop ↔
      ∃ front rest, bs = front ++ '>'.toUInt8 :: rest ∧ lead.length + front.length + 1 = stop ∧
        Passed (lead.getLast? == some '\\'.toUInt8) front := by
  constructor
  · rintro ⟨hlt, hbracket, hpassed⟩
    obtain ⟨n, rfl⟩ : ∃ n, stop = lead.length + n + 1 := ⟨stop - lead.length - 1, by omega⟩
    rw [Nat.add_sub_cancel, List.getElem?_append_right (by omega), Nat.add_sub_cancel_left]
      at hbracket
    rw [byteBefore?_append, Nat.add_sub_cancel, List.take_length_add_append,
      List.drop_left] at hpassed
    obtain ⟨hn, hget⟩ := List.getElem?_eq_some_iff.1 hbracket
    refine ⟨bs.take n, bs.drop (n + 1), ?_, ?_, hpassed⟩
    · rw [← hget, ← List.drop_eq_getElem_cons hn, List.take_append_drop]
    · rw [List.length_take, Nat.min_eq_left (Nat.le_of_lt hn)]
  · rintro ⟨front, rest, rfl, rfl, hpassed⟩
    refine ⟨by omega, ?_, ?_⟩
    · rw [Nat.add_sub_cancel, List.getElem?_append_right (by omega), Nat.add_sub_cancel_left,
        List.getElem?_append_right (Nat.le_refl _), Nat.sub_self]
      rfl
    · rw [byteBefore?_append, Nat.add_sub_cancel, List.take_length_add_append, List.take_left,
        List.drop_left]
      exact hpassed

/-- A cut inside a character leaves the same to be passed as one behind it. -/
theorem passed_inside_append_iff {front : List Char} {lead inside bs : List UInt8}
    (hfront : bytes front = lead ++ inside) (hinside : ∀ b ∈ inside, IsHigh b)
    (hlast : inside ≠ [] → ∃ c, front.getLast? = some c ∧ ¬ IsAscii c) :
    Passed (lead.getLast? == some '\\'.toUInt8) (inside ++ bs) ↔
      Passed (front.getLast? == some '\\') bs := by
  by_cases hne : inside = []
  · subst hne
    rw [List.append_nil] at hfront
    have hbackslash : (lead.getLast? == some '\\'.toUInt8) = (front.getLast? == some '\\') := by
      rw [Bool.eq_iff_iff, beq_iff_eq, beq_iff_eq, ← hfront,
        isAscii_backslash.getLast?_bytes_iff]
    rw [List.nil_append, hbackslash]
  · obtain ⟨c, hc, hascii⟩ := hlast hne
    have hbackslash : (front.getLast? == some '\\') = false := by
      rw [hc, beq_eq_false_iff_ne, Ne, Option.some.injEq]
      rintro rfl
      exact hascii isAscii_backslash
    rw [passed_high_append_iff hinside hne, hbackslash]

/-- The scan finds the end of a tag in the bytes, from any offset. -/
theorem endOffset?_eq_some_iff {text : List Char} {start stop : Nat} :
    endOffset? text start = some stop ↔ EndsAt (bytes text) start stop := by
  unfold endOffset?
  cases hcut : Text.cutAt start none text with
  | none =>
    have hsize := Text.cutAt_eq_none_iff.1 hcut
    simp only [Option.bind_eq_bind, Option.bind_none, reduceCtorEq, false_iff]
    rintro ⟨hlt, hbracket, -⟩
    obtain ⟨hstop, -⟩ := List.getElem?_eq_some_iff.1 hbracket
    rw [Text.length_bytes] at hstop
    omega
  | some found =>
    obtain ⟨previous, s⟩ := found
    obtain ⟨front, lead, inside, rfl, rfl, hfront, rfl, hinside, hlast⟩ := Text.exists_of_cutAt hcut
    rw [Option.or_none] at hlast ⊢
    have hsize : Text.size front = lead.length + inside.length := by
      rw [← Text.length_bytes, hfront, List.length_append]
    rw [Text.bytes_append, hfront, List.append_assoc, endsAt_append_iff]
    simp only [Option.bind_eq_bind, Option.bind_some, Option.bind_eq_some_iff, Option.pure_def,
      Option.some.injEq, Quoting.start, afterEnd_outside_iff, Text.size_append]
    constructor
    · rintro ⟨rest, ⟨passed, rfl, h⟩, rfl⟩
      refine ⟨inside ++ bytes passed, bytes rest, ?_, ?_,
        (passed_inside_append_iff hfront hinside hlast).2 h⟩
      · rw [List.append_assoc,
          isAscii_bracket.bytes_eq_append_cons_iff.2 ⟨passed, rest, rfl, rfl, rfl⟩]
      · rw [List.length_append, Text.length_bytes, Text.size_append, isAscii_bracket.size_cons]
        omega
    · rintro ⟨whole, more, hbytes, rfl, h⟩
      obtain ⟨passed, rfl, hrest⟩ := isAscii_bracket.exists_append_of_isHigh hinside hbytes
      obtain ⟨passed, rest, rfl, rfl, rfl⟩ := isAscii_bracket.bytes_eq_append_cons_iff.1 hrest
      refine ⟨rest, ⟨passed, rfl, (passed_inside_append_iff hfront hinside hlast).1 h⟩, ?_⟩
      rw [List.length_append, Text.length_bytes, Text.size_append, isAscii_bracket.size_cons]
      omega

/-- A tag ends where a character ends. -/
theorem isBoundary_of_endOffset? {text : List Char} {start stop : Nat}
    (h : endOffset? text start = some stop) : Text.IsBoundary text stop := by
  obtain ⟨hlt, hbracket, -⟩ := endOffset?_eq_some_iff.1 h
  obtain ⟨hstop, hget⟩ := List.getElem?_eq_some_iff.1 hbracket
  have hbytes : bytes text =
      (bytes text).take (stop - 1) ++ '>'.toUInt8 :: (bytes text).drop (stop - 1 + 1) := by
    rw [← hget, ← List.drop_eq_getElem_cons hstop, List.take_append_drop]
  obtain ⟨lead, behind, rfl, hlead, -⟩ := isAscii_bracket.bytes_eq_append_cons_iff.1 hbytes
  refine ⟨lead ++ ['>'], ⟨behind, by simp⟩, ?_⟩
  rw [Text.size_append, isAscii_bracket.size_cons, ← Text.length_bytes lead, hlead,
    List.length_take, Nat.min_eq_left (Nat.le_of_lt hstop)]
  show stop - 1 + (0 + 1) = stop
  omega

/-! ## What the end depends on -/

variable {bs bs' : List UInt8} {start stop : Nat}

/-- The end depends on the byte in front of the tag and on the bytes of the tag. -/
theorem EndsAt.congr (h : EndsAt bs start stop)
    (hagree : ∀ i, start ≤ i + 1 → i < stop → bs'[i]? = bs[i]?) : EndsAt bs' start stop := by
  obtain ⟨hlt, hbracket, hpassed⟩ := h
  have hbefore : byteBefore? bs' start = byteBefore? bs start := by
    unfold byteBefore?
    split
    · rfl
    · exact hagree _ (by omega) (by omega)
  have htag : (bs'.take (stop - 1)).drop start = (bs.take (stop - 1)).drop start := by
    apply List.ext_getElem?
    intro i
    rw [List.getElem?_drop, List.getElem?_drop, List.getElem?_take, List.getElem?_take]
    split
    · exact hagree _ (by omega) (by omega)
    · rfl
  refine ⟨hlt, ?_, ?_⟩
  · rw [hagree _ (by omega) (by omega), hbracket]
  · rw [hbefore, htag]
    exact hpassed

theorem byteBefore?_append_add (front : List UInt8) (hpos : 0 < start) :
    byteBefore? (front ++ bs) (front.length + start) = byteBefore? bs start := by
  rw [byteBefore?, byteBefore?, if_neg (by omega), if_neg (by omega),
    List.getElem?_append_right (by omega)]
  congr 1
  omega

/-- Bytes in front of a text change what is passed only when they end in a backslash and the tag
starts the text with a quote. -/
theorem passed_append_add_iff (front : List UInt8) {n : Nat}
    (h : 0 < start ∨ front.getLast? ≠ some '\\'.toUInt8 ∨
      ∀ b ∈ bs[start]?, ¬ IsQuoteByte b) :
    Passed (byteBefore? (front ++ bs) (front.length + start) == some '\\'.toUInt8)
        ((bs.take n).drop start) ↔
      Passed (byteBefore? bs start == some '\\'.toUInt8) ((bs.take n).drop start) := by
  rcases Nat.eq_zero_or_pos start with rfl | hpos
  · rw [Nat.add_zero, byteBefore?_append]
    rcases h with h | h | h
    · exact absurd h (Nat.lt_irrefl 0)
    · rw [beq_eq_false_iff_ne.2 h]
      rfl
    · apply passed_congr
      intro b hb
      rw [List.drop_zero, List.head?_take] at hb
      split at hb
      · cases hb
      · exact h b (by rwa [← List.head?_eq_getElem?])
  · rw [byteBefore?_append_add front hpos]

/-- Bytes in front of a text move the end, unless they end in a backslash and the tag starts the
text with a quote. -/
theorem endsAt_add_iff (front : List UInt8)
    (h : 0 < start ∨ front.getLast? ≠ some '\\'.toUInt8 ∨
      ∀ b ∈ bs[start]?, ¬ IsQuoteByte b) :
    EndsAt (front ++ bs) (front.length + start) (front.length + stop) ↔ EndsAt bs start stop := by
  have hlt : front.length + start < front.length + stop ↔ start < stop := Nat.add_lt_add_iff_left
  by_cases hstop : start < stop
  · have hsub : front.length + stop - 1 = front.length + (stop - 1) := by omega
    have hbracket : (front ++ bs)[front.length + stop - 1]? = bs[stop - 1]? := by
      rw [hsub, List.getElem?_append_right (by omega), Nat.add_sub_cancel_left]
    have htag : ((front ++ bs).take (front.length + stop - 1)).drop (front.length + start) =
        (bs.take (stop - 1)).drop start := by
      rw [hsub, List.take_length_add_append, List.drop_length_add_append]
    constructor
    · rintro ⟨-, hb, hp⟩
      rw [htag] at hp
      exact ⟨hstop, hbracket ▸ hb, (passed_append_add_iff front h).1 hp⟩
    · rintro ⟨-, hb, hp⟩
      refine ⟨hlt.2 hstop, hbracket ▸ hb, ?_⟩
      rw [htag]
      exact (passed_append_add_iff front h).2 hp
  · exact ⟨fun h => absurd (hlt.1 h.lt) hstop, fun h => absurd h.lt hstop⟩

/-- Where the tag that starts at an offset ends, and what that depends on. -/
structure EndRule (text : List Char) (start : Nat) : Prop where
  eq_some_iff : ∀ stop, endOffset? text start = some stop ↔ EndsAt (bytes text) start stop
  unique : ∀ stop stop', EndsAt (bytes text) start stop → EndsAt (bytes text) start stop' →
    stop = stop'
  eq_none_iff : endOffset? text start = none ↔ ∀ stop, ¬ EndsAt (bytes text) start stop
  /-- The byte in front of the tag and the bytes of the tag decide. -/
  congr : ∀ stop other, endOffset? text start = some stop →
    (∀ i, start ≤ i + 1 → i < stop → (bytes other)[i]? = (bytes text)[i]?) →
    endOffset? other start = some stop
  /-- What stands behind the tag can be any text. -/
  behind : ∀ stop kept rest other, endOffset? text start = some stop → text = kept ++ rest →
    Text.size kept = stop → endOffset? (kept ++ other) start = some stop
  /-- What stands in front moves the end, but for a backslash that escapes the first quote. -/
  before : ∀ front : List Char, 0 < start ∨ front.getLast? ≠ some '\\' ∨
      (∀ b ∈ (bytes text)[start]?, ¬ IsQuoteByte b) →
    endOffset? (front ++ text) (Text.size front + start) =
      (endOffset? text start).map (Text.size front + ·)

theorem endOffset?_append {text : List Char} (front : List Char)
    (h : 0 < start ∨ front.getLast? ≠ some '\\' ∨
      ∀ b ∈ (bytes text)[start]?, ¬ IsQuoteByte b) :
    endOffset? (front ++ text) (Text.size front + start) =
      (endOffset? text start).map (Text.size front + ·) := by
  rw [Ne, ← isAscii_backslash.getLast?_bytes_iff] at h
  have hshift : ∀ {stop}, EndsAt (bytes front ++ bytes text) (Text.size front + start)
      (Text.size front + stop) ↔ EndsAt (bytes text) start stop := by
    intro stop
    rw [← Text.length_bytes]
    exact endsAt_add_iff (bytes front) h
  apply Option.ext
  intro stop
  rw [endOffset?_eq_some_iff, Text.bytes_append, Option.map_eq_some_iff]
  constructor
  · intro hend
    obtain ⟨stop, rfl⟩ : ∃ n, stop = Text.size front + n :=
      ⟨stop - Text.size front, by have hlt := hend.lt; omega⟩
    exact ⟨stop, endOffset?_eq_some_iff.2 (hshift.1 hend), rfl⟩
  · rintro ⟨stop, hend, rfl⟩
    exact hshift.2 (endOffset?_eq_some_iff.1 hend)

/-- The scan for the end of a tag answers by the bytes of the tag and the one in front of it. -/
theorem endOffset?_exact (text : List Char) (start : Nat) : EndRule text start := by
  have hcongr : ∀ stop other, endOffset? text start = some stop →
      (∀ i, start ≤ i + 1 → i < stop → (bytes other)[i]? = (bytes text)[i]?) →
      endOffset? other start = some stop := by
    intro stop other h hagree
    exact endOffset?_eq_some_iff.2 ((endOffset?_eq_some_iff.1 h).congr hagree)
  refine ⟨fun _ => endOffset?_eq_some_iff, ?_, ?_, hcongr, ?_, fun front => endOffset?_append front⟩
  · intro stop stop' h h'
    rw [← endOffset?_eq_some_iff] at h h'
    exact Option.some.inj (h.symm.trans h')
  · simp only [← endOffset?_eq_some_iff, Option.eq_none_iff_forall_not_mem, Option.mem_def]
  · rintro stop kept rest other h rfl rfl
    apply hcongr _ _ h
    intro i _ hi
    rw [← Text.length_bytes] at hi
    rw [Text.bytes_append, Text.bytes_append, List.getElem?_append_left hi,
      List.getElem?_append_left hi]

/-- A backslash in front escapes the quote that the tag starts with. -/
example : endOffset? "\">".toList 0 = none ∧ endOffset? "\\\">".toList 1 = some 3 := by decide

end Stencil.Tag
