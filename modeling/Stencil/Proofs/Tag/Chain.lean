import Stencil.Proofs.Tag.Marks
import Stencil.Proofs.Tag.Pair

/-!
# The chain of marks

A search for a pair goes from mark to mark: to the first mark of the text, and from behind each
opening tag to the next one (`Chain`). There is one chain (`Chain.unique`), and the search
decides by it alone (`exists_chain`): `verdict` says whether it finds nothing, fails, or pairs
the first closing mark with the mark before it.
-/

namespace Stencil.Tag

/-! ## Marks by their offsets -/

/-- The place of a mark in a text, in bytes. -/
structure Mark where
  closing : Bool
  start : Nat
  deriving DecidableEq, Repr

namespace Mark

/-- The mark stands in the text: `<name` or `</name` starts there, and the name ends behind. -/
def In (w : Mark) (name text : List Char) : Prop :=
  ∃ lead rest, text = lead ++ (markText name w.closing ++ rest) ∧ Text.size lead = w.start ∧
    endsName rest = true

/-- Where the tag of the mark ends, if it has an end. -/
def end? (w : Mark) (text : List Char) : Option Nat := endOffset? text w.start

/-- The mark is the first one that starts at `offset` or behind it. -/
structure FirstFrom (w : Mark) (name text : List Char) (offset : Nat) : Prop where
  isIn : w.In name text
  le : offset ≤ w.start
  first : ∀ v : Mark, v.In name text → offset ≤ v.start → w.start ≤ v.start

end Mark

/-- The marks that a search from `offset` on meets: the first mark, and as long as that is an
opening one with an end, those from its end on. -/
inductive Chain (name text : List Char) : (offset : Nat) → List Mark → Prop
  | done {offset} (clear : ∀ w, Mark.In w name text → w.start < offset) : Chain name text offset []
  | last {offset w} (first : w.FirstFrom name text offset)
      (stops : w.closing = true ∨ w.end? text = none) : Chain name text offset [w]
  | opening {offset w stop ws} (first : w.FirstFrom name text offset) (isOpening : w.closing = false)
      (ended : w.end? text = some stop) (next : Chain name text stop ws) :
      Chain name text offset (w :: ws)

/-- A pair in a text, by the offsets of its two tags. -/
structure Span where
  start : Nat
  contentStart : Nat
  contentEnd : Nat
  stop : Nat
  deriving DecidableEq, Repr

/-- Where a pair stands in a text. -/
def Pair.span (p : Pair) (text : List Char) : Span :=
  ⟨Text.offset text p.opening, Text.offset text p.content, Text.offset text p.closing,
    Text.offset text p.after⟩

namespace Span

/-- The span reaches from one mark to the end of the other. -/
structure Pairs (s : Span) (text : List Char) (opening closing : Mark) : Prop where
  start : opening.start = s.start
  contentStart : opening.end? text = some s.contentStart
  contentEnd : closing.start = s.contentEnd
  stop : closing.end? text = some s.stop

end Span

variable {name text : List Char}

namespace IsName

variable (hname : IsName name)
include hname

theorem in_iff {w : Mark} :
    w.In name text ↔
      ∃ s, s <:+ text ∧ Text.offset text s = w.start ∧ markHere? name s = some w.closing := by
  constructor
  · intro ⟨lead, rest, htext, hsize, hends⟩
    subst htext
    exact ⟨_, List.suffix_append lead _, by simp [hsize],
      hname.markHere?_eq_some_iff.2 ⟨rest, rfl, hends⟩⟩
  · intro ⟨s, ⟨lead, hlead⟩, hoffset, hmark⟩
    subst hlead
    obtain ⟨rest, hrest, hends⟩ := hname.markHere?_eq_some_iff.1 hmark
    exact ⟨lead, rest, by rw [hrest], by simpa using hoffset, hends⟩

theorem in_offset {s : List Char} {closing : Bool} (hs : s <:+ text)
    (hmark : markHere? name s = some closing) :
    Mark.In ⟨closing, Text.offset text s⟩ name text :=
  hname.in_iff.2 ⟨s, hs, rfl, hmark⟩

/-- Only one mark stands at a place. -/
theorem eq_of_in {v w : Mark} (hv : v.In name text) (hw : w.In name text)
    (h : v.start = w.start) : v = w := by
  obtain ⟨s, hs, hsv, hsmark⟩ := hname.in_iff.1 hv
  obtain ⟨t, ht, htw, htmark⟩ := hname.in_iff.1 hw
  have hst : s = t := Text.eq_of_offset_eq hs ht (by omega)
  subst hst
  rw [hsmark] at htmark
  cases v
  cases w
  simp_all

theorem eq_of_firstFrom {v w : Mark} {offset : Nat} (hv : v.FirstFrom name text offset)
    (hw : w.FirstFrom name text offset) : v = w := by
  apply hname.eq_of_in hv.isIn hw.isIn
  have hle := hv.first w hw.isIn hw.le
  have hge := hw.first v hv.isIn hv.le
  omega

/-- The next mark of a search is the first one from its place on. -/
theorem firstFrom_of_nextMark? {s mark : List Char} {closing : Bool} (hs : s <:+ text)
    (h : nextMark? name s = some (closing, mark)) :
    Mark.FirstFrom ⟨closing, Text.offset text mark⟩ name text (Text.offset text s) := by
  obtain ⟨hmark, hhere, hfirst⟩ := nextMark?_eq_some_iff.1 h
  have hmarktext := hmark.trans hs
  refine ⟨hname.in_offset hmarktext hhere, Text.offset_le_offset hmark hs, fun v hv hle => ?_⟩
  obtain ⟨t, ht, hoffset, htmark⟩ := hname.in_iff.1 hv
  rw [← hoffset] at hle ⊢
  have hts : t <:+ s := (Text.offset_le_offset_iff ht hs).1 hle
  rcases List.suffix_or_suffix_of_suffix hts hmark with htm | hmt
  · exact Text.offset_le_offset htm hmarktext
  · by_cases heq : t = mark
    · subst heq
      exact Nat.le_refl _
    · rw [hfirst t hts hmt heq] at htmark
      cases htmark

theorem lt_offset_of_nextMark?_eq_none {s : List Char} (hs : s <:+ text)
    (h : nextMark? name s = none) {w : Mark} (hw : w.In name text) :
    w.start < Text.offset text s := by
  obtain ⟨t, ht, hoffset, hmark⟩ := hname.in_iff.1 hw
  rw [← hoffset, ← Nat.not_le]
  intro hle
  rw [nextMark?_eq_none_iff.1 h t ((Text.offset_le_offset_iff ht hs).1 hle)] at hmark
  cases hmark

end IsName

/-- Where a mark is the first one, the text is not clear of marks. -/
theorem Mark.FirstFrom.not_clear {w : Mark} {offset : Nat} (h : w.FirstFrom name text offset) :
    ¬ ∀ v, Mark.In v name text → v.start < offset := by
  intro clear
  have hlt := clear w h.isIn
  have hle := h.le
  omega

/-- A search goes on behind an opening tag that has an end. -/
theorem Mark.not_stops {w : Mark} {stop : Nat} (isOpening : w.closing = false)
    (ended : w.end? text = some stop) : ¬ (w.closing = true ∨ w.end? text = none) := by
  simp [isOpening, ended]

/-- The end of what starts with `<`, as an offset. What stands in front of it plays no part, since
it does not start with a quote. -/
theorem endOffset?_offset {s t : List Char} (hs : s <:+ text) (ht : s = '<' :: t) :
    endOffset? text (Text.offset text s) =
      (afterEnd (.outside false) s).map (Text.offset text) := by
  obtain ⟨lead, hlead⟩ := hs
  have hstart : ∀ escaped, afterEnd (.outside escaped) s = afterEnd (.outside false) s := by
    intro escaped
    have hquote : isQuote '<' = false := by decide
    rw [ht, afterEnd, afterEnd, hquote]
    rfl
  unfold endOffset?
  subst hlead
  rw [Text.offset_append, Text.cutAt_size]
  simp only [Option.bind_eq_bind, Option.bind_some, Quoting.start, hstart]
  cases afterEnd (.outside false) s <;> rfl

/-- The end of the tag of a mark. -/
theorem end?_offset {s : List Char} {closing : Bool} (hs : s <:+ text)
    (hmark : markHere? name s = some closing) :
    Mark.end? ⟨closing, Text.offset text s⟩ text =
      (afterEnd (.outside false) s).map (Text.offset text) := by
  obtain ⟨t, ht⟩ := eq_cons_of_markHere? hmark
  exact endOffset?_offset hs ht

/-! ## What a chain decides -/

/-- What a search makes of its chain, when `opened` is the last opening tag in front of it. -/
def verdict (text : List Char) :
    (opened : Option (Nat × Nat)) → List Mark → Except Defect (Option Span)
  | opened, [] => if opened.isSome then .error .unmatchedOpen else .ok none
  | opened, w :: ws =>
    match w.end? text with
    | none => .error .missingBracket
    | some stop =>
      if w.closing then
        match opened with
        | none => .error .unmatchedClose
        | some (start, contentStart) => .ok (some ⟨start, contentStart, w.start, stop⟩)
      else verdict text (some (w.start, stop)) ws

/-- A search meets a chain of marks and decides by it. -/
theorem exists_chain (hname : IsName name) {s : List Char}
    (opened : Option (List Char × List Char)) (hs : s <:+ text) :
    ∃ ws, Chain name text (Text.offset text s) ws ∧
      verdict text (opened.map fun o => (Text.offset text o.1, Text.offset text o.2)) ws =
        (Pair.findFrom name opened s).map (·.map (·.span text)) := by
  induction hlength : s.length using Nat.strongRecOn generalizing s opened with
  | ind n ih =>
  cases hmark : nextMark? name s with
  | none =>
    refine ⟨[], .done fun w => hname.lt_offset_of_nextMark?_eq_none hs hmark, ?_⟩
    rw [Pair.findFrom_of_none hmark]
    cases opened <;> rfl
  | some next =>
    obtain ⟨closing, mark⟩ := next
    obtain ⟨hsuffix, hhere, -⟩ := nextMark?_eq_some_iff.1 hmark
    have hfirst := hname.firstFrom_of_nextMark? hs hmark
    have hend := end?_offset (hsuffix.trans hs) hhere
    cases hafter : afterEnd (.outside false) mark with
    | none =>
      rw [hafter] at hend
      refine ⟨[⟨closing, Text.offset text mark⟩], .last hfirst (.inr hend), ?_⟩
      rw [Pair.findFrom_of_unended hmark hafter, verdict, hend]
      rfl
    | some rest =>
      rw [hafter] at hend
      cases closing with
      | true =>
        refine ⟨[⟨true, Text.offset text mark⟩], .last hfirst (.inl rfl), ?_⟩
        rw [verdict, hend]
        cases opened with
        | none =>
          rw [Pair.findFrom_close_none hmark hafter]
          rfl
        | some o =>
          rw [Pair.findFrom_close hmark hafter]
          rfl
      | false =>
        have hshorter : rest.length < n := by
          have hmarklength := hsuffix.length_le
          have hrestlength := afterEnd_length hafter
          omega
        have hrest : rest <:+ text := (afterEnd_suffix hafter).trans (hsuffix.trans hs)
        obtain ⟨ws, hchain, hverdict⟩ := ih _ hshorter (some (mark, rest)) hrest rfl
        refine ⟨⟨false, Text.offset text mark⟩ :: ws, .opening hfirst rfl hend hchain, ?_⟩
        rw [Pair.findFrom_open hmark hafter, verdict, hend]
        exact hverdict

namespace Chain

variable {offset : Nat} {ws ws' : List Mark}

/-- A place starts one chain only. -/
theorem unique (hname : IsName name) (h : Chain name text offset ws)
    (h' : Chain name text offset ws') : ws = ws' := by
  induction h generalizing ws' with
  | done clear =>
    cases h' with
    | done => rfl
    | last first | opening first => exact absurd clear first.not_clear
  | last first stops =>
    cases h' with
    | done clear => exact absurd clear first.not_clear
    | last first' => rw [hname.eq_of_firstFrom first first']
    | opening first' isOpening ended =>
      rw [hname.eq_of_firstFrom first first'] at stops
      exact absurd stops (Mark.not_stops isOpening ended)
  | opening first isOpening ended next ih =>
    cases h' with
    | done clear => exact absurd clear first.not_clear
    | last first' stops =>
      rw [hname.eq_of_firstFrom first' first] at stops
      exact absurd stops (Mark.not_stops isOpening ended)
    | opening first' isOpening' ended' next' =>
      cases hname.eq_of_firstFrom first first'
      rw [ended] at ended'
      cases ended'
      rw [ih next']

/-- Without a chain the text has no mark at all. -/
theorem eq_nil_iff (h : Chain name text 0 ws) : ws = [] ↔ ∀ w, ¬ Mark.In w name text := by
  cases h with
  | done clear =>
    refine ⟨fun _ w hw => ?_, fun _ => rfl⟩
    have hlt := clear w hw
    omega
  | last first | opening first =>
    refine ⟨fun h => ?_, fun h => absurd first.isIn (h _)⟩
    cases h

theorem verdict_eq_missingBracket_iff {opened : Option (Nat × Nat)}
    (h : Chain name text offset ws) :
    verdict text opened ws = .error .missingBracket ↔ ∃ w ∈ ws, w.end? text = none := by
  induction h generalizing opened with
  | done => cases opened <;> simp [verdict]
  | @last offset w first stops =>
    rw [verdict]
    cases hend : w.end? text with
    | none => simp [hend]
    | some stop =>
      have hclosing : w.closing = true := by simpa [hend] using stops
      cases opened <;> simp [hend, hclosing]
  | @opening offset w stop ws first isOpening ended next ih =>
    rw [verdict, ended]
    simp [isOpening, ended, ih]

end Chain

section

variable {ws : List Mark}

theorem verdict_ne_unmatchedClose {opened : Nat × Nat} :
    verdict text (some opened) ws ≠ .error .unmatchedClose := by
  induction ws generalizing opened with
  | nil => simp [verdict]
  | cons w ws ih =>
    rw [verdict]
    cases w.end? text with
    | none => simp
    | some stop => cases w.closing <;> simp [ih]

theorem verdict_ne_none {opened : Nat × Nat} : verdict text (some opened) ws ≠ .ok none := by
  induction ws generalizing opened with
  | nil => simp [verdict]
  | cons w ws ih =>
    rw [verdict]
    cases w.end? text with
    | none => simp
    | some stop => cases w.closing <;> simp [ih]

theorem verdict_eq_none_iff : verdict text none ws = .ok none ↔ ws = [] := by
  cases ws with
  | nil => simp [verdict]
  | cons w ws =>
    rw [verdict]
    cases w.end? text with
    | none => simp
    | some stop => cases w.closing <;> simp [verdict_ne_none]

theorem verdict_eq_unmatchedClose_iff (hended : ∀ w ∈ ws, w.end? text ≠ none) :
    verdict text none ws = .error .unmatchedClose ↔ ∃ w, ws.head? = some w ∧ w.closing = true := by
  cases ws with
  | nil => simp [verdict]
  | cons w ws =>
    obtain ⟨stop, hstop⟩ := Option.ne_none_iff_exists'.1 (hended w List.mem_cons_self)
    rw [verdict, hstop]
    cases hclosing : w.closing <;> simp [hclosing, verdict_ne_unmatchedClose]

theorem verdict_eq_unmatchedOpen_iff {opened : Option (Nat × Nat)}
    (hended : ∀ w ∈ ws, w.end? text ≠ none) :
    verdict text opened ws = .error .unmatchedOpen ↔
      (opened.isSome ∨ ws ≠ []) ∧ ∀ w ∈ ws, w.closing = false := by
  induction ws generalizing opened with
  | nil => cases opened <;> simp [verdict]
  | cons w ws ih =>
    obtain ⟨stop, hstop⟩ := Option.ne_none_iff_exists'.1 (hended w List.mem_cons_self)
    rw [verdict, hstop]
    cases hclosing : w.closing with
    | true => cases opened <;> simp [hclosing]
    | false =>
      simp [hclosing, ih fun v hv => hended v (List.mem_cons_of_mem w hv)]

/-- The first closing mark is paired with the mark before it. -/
theorem exists_verdict_pairs (opened : Option (Nat × Nat)) {front later : List Mark}
    {u w : Mark} (hended : ∀ v ∈ front ++ u :: w :: later, v.end? text ≠ none)
    (hopening : ∀ v ∈ front ++ [u], v.closing = false) (hclosing : w.closing = true) :
    ∃ s, verdict text opened (front ++ u :: w :: later) = .ok (some s) ∧ s.Pairs text u w := by
  induction front generalizing opened with
  | nil =>
    obtain ⟨contentStart, hcontent⟩ := Option.ne_none_iff_exists'.1 (hended u (by simp))
    obtain ⟨stop, hstop⟩ := Option.ne_none_iff_exists'.1 (hended w (by simp))
    have hu : u.closing = false := hopening u (by simp)
    refine ⟨⟨u.start, contentStart, w.start, stop⟩, ?_, ⟨rfl, hcontent, rfl, hstop⟩⟩
    simp [verdict, hcontent, hstop, hu, hclosing]
  | cons v front ih =>
    obtain ⟨stop, hstop⟩ := Option.ne_none_iff_exists'.1 (hended v (by simp))
    have hv : v.closing = false := hopening v (by simp)
    rw [List.cons_append, verdict, hstop]
    simp only [hv, Bool.false_eq_true, if_false]
    exact ih _ (fun x hx => hended x (List.mem_cons_of_mem v hx))
      fun x hx => hopening x (List.mem_cons_of_mem v hx)

/-- A list of marks that starts with an opening one and is not all opening has a first closing
mark with an opening one before it. -/
theorem exists_first_closing (hhead : ¬ ∃ w, ws.head? = some w ∧ w.closing = true)
    (hsome : ¬ ∀ w ∈ ws, w.closing = false) :
    ∃ front u w later, ws = front ++ u :: w :: later ∧
      (∀ v ∈ front ++ [u], v.closing = false) ∧ w.closing = true := by
  induction ws with
  | nil => exact absurd (by simp) hsome
  | cons v ws ih =>
    have hv : v.closing = false := by simpa using hhead
    by_cases hnext : ∃ w, ws.head? = some w ∧ w.closing = true
    · obtain ⟨w, hw, hclosing⟩ := hnext
      obtain ⟨later, rfl⟩ := List.head?_eq_some_iff.1 hw
      exact ⟨[], v, w, later, rfl, by simpa using hv, hclosing⟩
    · obtain ⟨front, u, w, later, rfl, hopening, hclosing⟩ := ih hnext (by simpa [hv] using hsome)
      exact ⟨v :: front, u, w, later, rfl, by simpa [hv] using hopening, hclosing⟩

end

end Stencil.Tag
