import Stencil.Proofs.Tag.Spelled

/-!
# Written tags

`written name attributes` is the plainest spelling of an opening tag: one space in front
of each attribute and nothing that could be left out. The two readers of a tag agree on
it. The scan for its end stops right behind it (`afterEnd_written`), and reading it gives
the attributes back (`ofTag_written`).
-/

namespace Stencil.Tag

/-- An attribute as it is written: the name, the sign and the quoted value. -/
def writtenAttribute (a : String × String) : List Char :=
  a.1.toList ++ '=' :: '"' :: (a.2.toList ++ ['"'])

/-- Attributes with a space in front of each. -/
def writtenAttributes (attributes : List (String × String)) : List Char :=
  attributes.flatMap fun a => ' ' :: writtenAttribute a

def written (name : List Char) (attributes : List (String × String)) : List Char :=
  '<' :: (name ++ (writtenAttributes attributes ++ ['>']))

/-- An attribute that can be written: its name is made of the characters of names, and its
value does not hold the quote that ends it. -/
structure Writable (a : String × String) : Prop where
  name_ne_nil : a.1.toList ≠ []
  inName : ∀ c ∈ a.1.toList, attributeForm.inName c = true
  quote_not_mem : '"' ∉ a.2.toList

theorem writtenAttributes_cons (a : String × String) (attributes : List (String × String)) :
    writtenAttributes (a :: attributes) =
      ' ' :: (writtenAttribute a ++ writtenAttributes attributes) := by
  simp [writtenAttributes]

/-- A written attribute is spelled without white space. -/
def spelling (a : String × String) : Spelling := ⟨a.1.toList, [], [], a.2.toList⟩

theorem text_spelling (a : String × String) : (spelling a).text = writtenAttribute a := rfl

theorem Writable.valid_spelling {a : String × String} (h : Writable a) : (spelling a).Valid :=
  ⟨h.name_ne_nil, h.inName, by simp [spelling], by simp [spelling], h.quote_not_mem⟩

/-! ## The end of a written tag -/

theorem afterEnd_writtenAttribute {a : String × String} (h : Writable a) (t : List Char) :
    afterEnd (.outside false) (writtenAttribute a ++ t) = afterEnd (.outside false) t := by
  rw [← text_spelling]
  exact Spelling.afterEnd_text h.valid_spelling t

theorem afterEnd_writtenAttributes {attributes : List (String × String)}
    (h : ∀ a ∈ attributes, Writable a) (t : List Char) :
    afterEnd (.outside false) (writtenAttributes attributes ++ t) =
      afterEnd (.outside false) t := by
  induction attributes with
  | nil => rfl
  | cons a attributes ih =>
    rw [writtenAttributes_cons, List.cons_append, List.append_assoc]
    calc afterEnd (.outside false) (' ' :: (writtenAttribute a ++
            (writtenAttributes attributes ++ t)))
        = afterEnd (.outside false) (writtenAttribute a ++ (writtenAttributes attributes ++ t)) :=
          afterEnd_plain (s := [' ']) (by simp [Plain, isQuote])
      _ = afterEnd (.outside false) (writtenAttributes attributes ++ t) :=
          afterEnd_writtenAttribute (h a (by simp)) _
      _ = afterEnd (.outside false) t := ih fun b hb => h b (List.mem_cons_of_mem _ hb)

/-- A written tag ends where it was made to end. -/
theorem afterEnd_written {name : List Char} {attributes : List (String × String)}
    (hname : ∀ c ∈ name, inTagName c = true) (h : ∀ a ∈ attributes, Writable a)
    (t : List Char) : afterEnd (.outside false) (written name attributes ++ t) = some t := by
  have hlead : ∀ c ∈ '<' :: name, Plain c := by
    intro c hc
    rcases List.mem_cons.1 hc with rfl | hc
    · exact ⟨by decide, by decide, by decide⟩
    · exact plain_of_inName (inName_of_inTagName (hname c hc))
  have hshape : written name attributes ++ t =
      ('<' :: name) ++ (writtenAttributes attributes ++ '>' :: t) := by
    simp [written]
  rw [hshape, afterEnd_plain hlead, afterEnd_writtenAttributes h]
  simp [afterEnd, isQuote]

/-! ## Reading a written tag -/

namespace Attributes

/-- The attributes that a list of pairs makes when they are inserted in order. -/
def ofList (pairs : List (String × String)) : Attributes :=
  pairs.foldl (fun attributes a => attributes.insert a.1 a.2) empty

theorem readAll?_written {attributes : List (String × String)}
    (h : ∀ a ∈ attributes, Writable a) (sofar : Attributes) :
    readAll? sofar (Text.trimStart (writtenAttributes attributes ++ ['>'])) =
      some (attributes.foldl (fun attributes a => attributes.insert a.1 a.2) sofar) := by
  induction attributes generalizing sofar with
  | nil =>
    have hend : Text.trimStart (writtenAttributes [] ++ ['>']) = ['>'] := by decide
    rw [hend, readAll?, if_pos (.inl rfl), List.foldl_nil]
  | cons a attributes ih =>
    have ha : (spelling a).Valid := (h a (by simp)).valid_spelling
    have hspace : ∀ c ∈ [' '], Text.isBlank c = true := List.forall_mem_singleton.2 (by decide)
    have hshape : writtenAttributes (a :: attributes) ++ ['>'] =
        [' '] ++ ((spelling a).text ++ (writtenAttributes attributes ++ ['>'])) := by
      rw [writtenAttributes_cons, text_spelling]
      simp
    rw [hshape, Text.trimStart_append hspace, Spelling.trimStart_text ha, readAll?_text ha]
    simp only [spelling, String.ofList_toList]
    exact ih (fun b hb => h b (List.mem_cons_of_mem _ hb)) _

/-- Reading a written tag gives its attributes, each name at its first place with its last
value. -/
theorem ofTag_written {name : List Char} {attributes : List (String × String)}
    (hne : name ≠ []) (hname : ∀ c ∈ name, inTagName c = true)
    (h : ∀ a ∈ attributes, Writable a) :
    ofTag (written name attributes) = .ok (ofList attributes) := by
  have hstop : ∀ d ∈ (writtenAttributes attributes ++ ['>']).head?, inTagName d = false := by
    intro d hd
    cases attributes with
    | nil => have hd : d = '>' := by simpa [writtenAttributes] using hd.symm
             subst hd; decide
    | cons a attributes =>
      have hd : d = ' ' := by simpa [writtenAttributes_cons] using hd.symm
      subst hd
      decide
  have hread : ofTag? (written name attributes) = some (ofList attributes) := by
    rw [written, ofTag?_of_name hne hname hstop]
    exact readAll?_written h empty
  rw [ofTag, hread]

end Attributes

end Stencil.Tag
