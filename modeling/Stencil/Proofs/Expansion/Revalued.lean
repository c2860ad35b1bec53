import Stencil.Proofs.Expansion.Accepted
import Stencil.Proofs.Template.Fillable
import Stencil.Proofs.Usage.Revalued

/-!
# Values of fields in an expansion

Two texts with the same tags up to the values of fields are expanded side by side: the search
finds pairs that ask alike (`foundAlike_find?`), both usages can be filled or neither can
(`isOk_fillUsage_of_asksAlike`), and as long as what is put in their places has the same tags as
well, so have the new texts (`resolved_of_alike`). So another value for a field changes the
text of a document and not whether it expands (`resolved_of_revalued`), until a value that was
put in place is read as a tag.
-/

namespace Stencil

namespace Expansion

open Usage (tagName Inert IsTag AsksAlike TagsAlike Alike Tagless Revalued)

variable {templates : Templates} {limit left : Nat} {tail : List Char}

/-! ## The search in two texts -/

/-- The search comes to the same end in both texts: a defect, no pair, or pairs whose tags ask
alike and that leave alike texts in front of `tail` when they are filled alike. -/
inductive FoundAlike (text text' tail : List Char) :
    Except Defect (Option Tag.Pair) → Except Defect (Option Tag.Pair) → Prop
  | defect (d d' : Defect) : FoundAlike text text' tail (.error d) (.error d')
  | none : FoundAlike text text' tail (.ok none) (.ok none)
  | pair {p p' : Tag.Pair} (asks : AsksAlike p.openingTag p'.openingTag)
      (splice : ∀ f f', Alike f f' →
        ∃ y y', Alike y y' ∧ p.splice text f = y ++ tail ∧ p'.splice text' f' = y' ++ tail) :
      FoundAlike text text' tail (.ok (some p)) (.ok (some p'))

/-- Behind an inert text the search meets the closing tag of the opening tag in front of it. -/
theorem findFrom_closing {s tag rest : List Char} (hs : Inert s) (htag : IsTag true tag)
    (opening content : List Char) :
    Tag.Pair.findFrom tagName (some (opening, content)) (s ++ (tag ++ rest)) =
      .ok (some ⟨opening, content, tag ++ rest, rest⟩) :=
  Tag.Pair.findFrom_close (by rw [hs.nextMark?_append, htag.mark]) (htag.ended rest)

/-- Behind an inert text the search meets an opening tag and goes on behind it. -/
theorem findFrom_opening {s tag rest : List Char} (hs : Inert s) (htag : IsTag false tag)
    (opened : Option (List Char × List Char)) :
    Tag.Pair.findFrom tagName opened (s ++ (tag ++ rest)) =
      Tag.Pair.findFrom tagName (some (tag ++ rest, rest)) rest :=
  Tag.Pair.findFrom_open (by rw [hs.nextMark?_append, htag.mark]) (htag.ended rest)

/-- Behind opening tags that ask alike the search comes to the same end in texts that are
alike. -/
theorem foundAlike_findFrom {lead lead' tag tag' x x' : List Char} (htail : Tagless tail)
    (hx : Alike x x') (hlead : Alike lead lead') (htags : TagsAlike false tag tag') :
    FoundAlike (lead ++ (tag ++ (x ++ tail))) (lead' ++ (tag' ++ (x' ++ tail))) tail
      (Tag.Pair.findFrom tagName (some (tag ++ (x ++ tail), x ++ tail)) (x ++ tail))
      (Tag.Pair.findFrom tagName (some (tag' ++ (x' ++ tail), x' ++ tail)) (x' ++ tail)) := by
  induction hx generalizing lead lead' tag tag' with
  | @last s s' inert inert' =>
    have hdefect : ∀ (o : List Char × List Char) {u : List Char}, Inert u →
        ∃ d, Tag.Pair.findFrom tagName (some o) (u ++ tail) = .error d := by
      intro o u hu
      rw [Tag.Pair.findFrom_congr (hu.nextMark?_append tail)]
      rcases htail.findFrom (some o) with h | ⟨h, -⟩
      · exact h
      · cases h
    obtain ⟨d, hd⟩ := hdefect _ inert
    obtain ⟨d', hd'⟩ := hdefect _ inert'
    rw [hd, hd']
    exact .defect d d'
  | @tag s s' closing close close' rest rest' inert inert' tags next ih =>
    simp only [List.append_assoc]
    cases closing with
    | true =>
      rw [findFrom_closing inert tags.left, findFrom_closing inert' tags.right]
      refine .pair ?_ fun f f' hf => ⟨lead ++ (f ++ rest), lead' ++ (f' ++ rest'),
        hlead.append (hf.append next), ?_, ?_⟩
      · rw [Tag.Pair.openingTag, Tag.Pair.openingTag, Text.before_append_left,
          Text.before_append_left]
        exact htags.asks rfl
      · rw [Tag.Pair.splice, Text.before_append_left]
        simp
      · rw [Tag.Pair.splice, Text.before_append_left]
        simp
    | false =>
      -- the new opening tag is the innermost, and the old one belongs to what is in front of it
      rw [findFrom_opening inert tags.left, findFrom_opening inert' tags.right]
      have hopened : Alike (lead ++ (tag ++ s)) (lead' ++ (tag' ++ s')) := by
        have htag : Alike ([] ++ (tag ++ s)) ([] ++ (tag' ++ s')) :=
          .tag .nil .nil htags (.last inert inert')
        exact hlead.append htag
      have hfound := ih hopened tags
      simpa only [List.append_assoc] using hfound

/-- The search for a pair comes to the same end in texts that are alike. -/
theorem foundAlike_find? {x x' : List Char} (htail : Tagless tail) (hx : Alike x x') :
    FoundAlike (x ++ tail) (x' ++ tail) tail (Tag.Pair.find? tagName (x ++ tail))
      (Tag.Pair.find? tagName (x' ++ tail)) := by
  rw [Tag.Pair.find?, Tag.Pair.find?]
  cases hx with
  | last inert inert' =>
    rw [Tag.Pair.findFrom_congr (inert.nextMark?_append tail),
      Tag.Pair.findFrom_congr (inert'.nextMark?_append tail)]
    rcases htail.findFrom none with ⟨d, hd⟩ | ⟨-, hnone⟩
    · rw [hd]
      exact .defect d d
    · rw [hnone]
      exact .none
  | @tag s s' closing tag tag' rest rest' inert inert' tags next =>
    simp only [List.append_assoc]
    cases closing with
    | true =>
      have hdefect : ∀ {u close more : List Char}, Inert u → IsTag true close →
          Tag.Pair.findFrom tagName none (u ++ (close ++ more)) = .error .unmatchedClose := by
        intro u close more hu hclose
        exact Tag.Pair.findFrom_close_none (by rw [hu.nextMark?_append, hclose.mark])
          (hclose.ended more)
      rw [hdefect inert tags.left, hdefect inert' tags.right]
      exact .defect _ _
    | false =>
      rw [findFrom_opening inert tags.left, findFrom_opening inert' tags.right]
      exact foundAlike_findFrom htail next (.last inert inert') tags

/-! ## The expansion of two texts -/

/-- Usages whose tags ask alike are both filled or both not, whatever their content is. -/
theorem isOk_fillUsage_of_asksAlike {p p' : Tag.Pair}
    (h : AsksAlike p.openingTag p'.openingTag) :
    (fillUsage templates p).isOk = (fillUsage templates p').isOk := by
  rw [AsksAlike] at h
  rw [fillUsage, fillUsage]
  cases husage : Usage.ofTag p.openingTag <;> cases husage' : Usage.ofTag p'.openingTag <;>
    rw [husage, husage'] at h <;> cases h
  case error.error => rfl
  case ok.ok usage usage' h =>
    rw [Stages.ok_bind, Stages.ok_bind, ← h.1]
    cases templates[usage.name]? with
    | none => rfl
    | some template => exact Template.isOk_fill_congr h.2 p.inner p'.inner

/-- Behind a usage that is filled the others are counted. -/
theorem resolved_resolve_succ {text : List Char} {p : Tag.Pair} {filling : Template.Filling}
    (hfind : Tag.Pair.find? tagName text = .ok (some p))
    (hfill : fillUsage templates p = .ok filling) :
    (resolve templates limit (left + 1) text).toOption.map resolved =
      ((resolve templates limit left (p.splice text filling.text)).toOption.map resolved).map
        (· + 1) := by
  rw [resolve_succ hfind, hfill, Stages.ok_bind]
  cases resolve templates limit left (p.splice text filling.text) <;> rfl

/-- A usage that cannot be filled ends the expansion. -/
theorem resolved_resolve_of_error {text : List Char} {p : Tag.Pair} {d : Defect}
    (hfind : Tag.Pair.find? tagName text = .ok (some p))
    (hfill : fillUsage templates p = .error d) :
    (resolve templates limit left text).toOption.map resolved = none := by
  cases left with
  | zero => rw [resolve_zero hfind]; rfl
  | succ left => rw [resolve_succ hfind, hfill]; rfl

/-- Alike texts are both expanded, with the same number of usages resolved, or both not. -/
theorem resolved_of_alike {x x' : List Char} (htail : Tagless tail) (hx : Alike x x')
    (hfilled : ∀ f ∈ (filledTexts templates left (x ++ tail)).zip
      (filledTexts templates left (x' ++ tail)), Alike f.1 f.2) :
    (resolve templates limit left (x ++ tail)).toOption.map resolved =
      (resolve templates limit left (x' ++ tail)).toOption.map resolved := by
  -- each usage that is resolved uses up one of those that are left
  induction left using Nat.strongRecOn generalizing x x' with
  | _ left ih =>
  have hfound := foundAlike_find? htail hx
  generalize hfind : Tag.Pair.find? tagName (x ++ tail) = found at hfound
  generalize hfind' : Tag.Pair.find? tagName (x' ++ tail) = found' at hfound
  cases hfound with
  | defect d d' => rw [resolve_of_error hfind, resolve_of_error hfind']; rfl
  | none => rw [resolve_of_none hfind, resolve_of_none hfind']; rfl
  | @pair p p' asks splice =>
    have hboth : (fillUsage templates p).isOk = (fillUsage templates p').isOk :=
      isOk_fillUsage_of_asksAlike asks
    cases hfill : fillUsage templates p <;> cases hfill' : fillUsage templates p' <;>
      rw [hfill, hfill'] at hboth
    case error.error d d' =>
      rw [resolved_resolve_of_error hfind hfill, resolved_resolve_of_error hfind' hfill']
    case error.ok => cases hboth
    case ok.error => cases hboth
    case ok.ok filling filling' =>
      cases left with
      | zero => rw [resolve_zero hfind, resolve_zero hfind']
      | succ left =>
        rw [filledTexts_succ hfind hfill, filledTexts_succ hfind' hfill', List.zip_cons_cons,
          List.forall_mem_cons] at hfilled
        obtain ⟨hfirst, hlater⟩ := hfilled
        obtain ⟨y, y', hy, hsplice, hsplice'⟩ := splice _ _ hfirst
        rw [hsplice, hsplice'] at hlater
        rw [resolved_resolve_succ hfind hfill, resolved_resolve_succ hfind' hfill', hsplice,
          hsplice', ih left (Nat.lt_succ_self left) hy hlater]

/-- A document with another value for a field is expanded along with the first as long as the
texts put in the places of usages are alike. -/
theorem resolved_of_revalued {s s' : List Char} (h : Revalued s s')
    (hfilled : ∀ f ∈ (filledTexts templates left s).zip (filledTexts templates left s'),
      Alike f.1 f.2) :
    (resolve templates limit left s).toOption.map resolved =
      (resolve templates limit left s').toOption.map resolved := by
  obtain ⟨x, x', tail, rfl, rfl, halike, htail⟩ := h.exists_alike
  exact resolved_of_alike htail halike hfilled

end Expansion

end Stencil
