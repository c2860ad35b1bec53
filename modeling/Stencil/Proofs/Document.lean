import Stencil.Proofs.Expansion.Steps
import Stencil.Proofs.Tag.Pair
import Stencil.Proofs.Template.Literals
import Stencil.Proofs.Usage.TagSafe

/-!
# Documents as trees

A document written as a tree of texts and usages can be evaluated along the tree: the
content of a usage first, then the usage, then what stands behind it. The main result is
`expand_render`: expansion of the written tree, which only ever sees one flat text, gives
what the tree evaluates to, defects and limits included.
-/

namespace Stencil

/-- A document as a forest: every text and every usage is followed by the rest. -/
inductive Document
  | empty
  | text (s : String) (next : Document)
  | usage (name : String) (fields : List (String × String)) (content next : Document)
  deriving DecidableEq, Repr

namespace Document

/-- The document as it is written. -/
def render : Document → List Char
  | empty => []
  | text s next => s.toList ++ next.render
  | usage name fields content next =>
    Usage.openTag name fields ++ (content.render ++ (Usage.closeTag ++ next.render))

/-- Texts and values are tag-safe and everything in a tag can be written in it. -/
def Valid : Document → Prop
  | empty => True
  | text s next => Usage.TagSafe s.toList ∧ next.Valid
  | usage name fields content next =>
    '"' ∉ name.toList ∧
    (∀ f ∈ fields, Usage.FieldWritable f ∧ Usage.TagSafe f.2.toList) ∧
    content.Valid ∧ next.Valid

/-- What the document comes to when `resolved` usages have been resolved before it: of each
usage the content first, then its template, then what follows it. -/
def evaluate (templates : Templates) (limit : Nat) :
    Document → (resolved : Nat) → Except Defect Expansion
  | empty, _ => .ok ⟨"", [], 0⟩
  | text s next, resolved => do
    let rest ← next.evaluate templates limit resolved
    return { rest with text := s ++ rest.text }
  | usage name fields content next, resolved => do
    let inner ← content.evaluate templates limit resolved
    if limit ≤ resolved + inner.resolved then
      .error (.expansionLimit limit)
    else
      match templates[name]? with
      | none => .error (.unknownTemplate name)
      | some template =>
        let filling ← template.fill ((∅ : Fields).insertMany fields) inner.text.toList
        let rest ← next.evaluate templates limit (resolved + inner.resolved + 1)
        return {
          text := String.ofList filling.text ++ rest.text
          warnings := inner.warnings ++ filling.warnings ++ rest.warnings
          resolved := inner.resolved + 1 + rest.resolved }

variable {templates : Templates} {limit : Nat}

/-- A document does not resolve more usages than the limit allows, and no tag is left in
what it comes to. -/
theorem of_evaluate {d : Document} (hd : d.Valid)
    (ht : ∀ (name : String) (t : Template), templates[name]? = some t → t.TagSafe)
    {n : Nat} (hn : n ≤ limit) {e : Expansion} (h : d.evaluate templates limit n = .ok e) :
    n + e.resolved ≤ limit ∧ Usage.TagSafe e.text.toList := by
  induction d generalizing n e with
  | empty =>
    cases h
    exact ⟨hn, .nil⟩
  | text s next ih =>
    obtain ⟨rest, hrest, h⟩ := Stages.bind_eq_ok.1 h
    cases h
    obtain ⟨hcount, hsafe⟩ := ih hd.2 hn hrest
    refine ⟨hcount, ?_⟩
    show Usage.TagSafe (s ++ rest.text).toList
    rw [String.toList_append]
    exact hd.1.append hsafe
  | usage name fields content next ihContent ihNext =>
    obtain ⟨hname, hfields, hcontent, hnext⟩ := hd
    obtain ⟨inner, hinner, h⟩ := Stages.bind_eq_ok.1 h
    obtain ⟨-, hinnerSafe⟩ := ihContent hcontent hn hinner
    by_cases hlimit : limit ≤ n + inner.resolved
    · rw [if_pos hlimit] at h
      cases h
    rw [if_neg hlimit] at h
    split at h
    · cases h
    next t hlookup =>
    obtain ⟨filling, hfilling, h⟩ := Stages.bind_eq_ok.1 h
    obtain ⟨rest, hrest, h⟩ := Stages.bind_eq_ok.1 h
    cases h
    obtain ⟨hcount, hrestSafe⟩ := ihNext hnext (by omega) hrest
    -- the usage is one more, and it is replaced by tag-safe text
    have hfilled := Template.tagSafe_of_fill hfilling (ht name t hlookup)
      (Usage.tagSafe_of_insertMany fun f hf => (hfields f hf).2) hinnerSafe
    refine ⟨?_, ?_⟩
    · show n + (inner.resolved + 1 + rest.resolved) ≤ limit
      omega
    · show Usage.TagSafe (String.ofList filling.text ++ rest.text).toList
      rw [String.toList_append, String.toList_ofList]
      exact hfilled.append hrestSafe

/-! ## The written document -/

/-- A text in front of which no pair of tags is closed: behind it the search for a pair
goes on, with or without an open tag. -/
def Leads (lead : List Char) : Prop :=
  ∀ s, ∃ opened, Tag.Pair.find? Usage.tagName (lead ++ s) =
    Tag.Pair.findFrom Usage.tagName opened s

theorem Leads.nil : Leads [] := fun _ => ⟨none, rfl⟩

theorem Leads.append_text {lead s : List Char} (h : Leads lead) (hs : Usage.TagSafe s) :
    Leads (lead ++ s) := by
  intro rest
  obtain ⟨opened, hopened⟩ := h (s ++ rest)
  refine ⟨opened, ?_⟩
  rw [List.append_assoc, hopened]
  exact Tag.Pair.findFrom_congr (hs.nextMark?_append rest)

theorem Leads.find?_openTag {lead : List Char} (h : Leads lead) {name : String}
    {fields : List (String × String)} (hname : '"' ∉ name.toList)
    (hfields : ∀ f ∈ fields, Usage.FieldWritable f) (s : List Char) :
    Tag.Pair.find? Usage.tagName (lead ++ (Usage.openTag name fields ++ s)) =
      Tag.Pair.findFrom Usage.tagName (some (Usage.openTag name fields ++ s, s)) s := by
  obtain ⟨opened, hopened⟩ := h (Usage.openTag name fields ++ s)
  rw [hopened]
  exact Tag.Pair.findFrom_open (Usage.nextMark?_openTag name fields s)
    (Usage.afterEnd_openTag hname (fun f hf => (hfields f hf).writable) s)

theorem Leads.append_openTag {lead : List Char} (h : Leads lead) {name : String}
    {fields : List (String × String)} (hname : '"' ∉ name.toList)
    (hfields : ∀ f ∈ fields, Usage.FieldWritable f) :
    Leads (lead ++ Usage.openTag name fields) := by
  intro s
  refine ⟨some (Usage.openTag name fields ++ s, s), ?_⟩
  rw [List.append_assoc]
  exact h.find?_openTag hname hfields s

/-- A usage whose content is tag-safe is the first pair of tags. -/
theorem Leads.find?_usage {lead : List Char} (h : Leads lead) {name : String}
    {fields : List (String × String)} (hname : '"' ∉ name.toList)
    (hfields : ∀ f ∈ fields, Usage.FieldWritable f) {inner : List Char}
    (hinner : Usage.TagSafe inner) (tail : List Char) :
    let content := inner ++ (Usage.closeTag ++ tail)
    Tag.Pair.find? Usage.tagName (lead ++ (Usage.openTag name fields ++ content)) =
      .ok (some ⟨Usage.openTag name fields ++ content, content, Usage.closeTag ++ tail, tail⟩) := by
  intro content
  rw [h.find?_openTag hname hfields]
  have hmark : Tag.nextMark? Usage.tagName content = some (true, Usage.closeTag ++ tail) := by
    rw [hinner.nextMark?_append, Usage.nextMark?_closeTag]
  rw [Tag.Pair.findFrom_close hmark (Usage.afterEnd_closeTag tail)]

/-- A usage with tag-safe content is replaced by its filled template. -/
theorem Leads.resolve_usage_succ {lead : List Char} (h : Leads lead) {name : String}
    {fields : List (String × String)} (hname : '"' ∉ name.toList)
    (hfields : ∀ f ∈ fields, Usage.FieldWritable f) {inner : List Char}
    (hinner : Usage.TagSafe inner) (tail : List Char) (left : Nat) :
    Expansion.resolve templates limit (left + 1)
      (lead ++ (Usage.openTag name fields ++ (inner ++ (Usage.closeTag ++ tail)))) =
        match templates[name]? with
        | none => .error (.unknownTemplate name)
        | some template => do
          let filling ← template.fill ((∅ : Fields).insertMany fields) inner
          let rest ← Expansion.resolve templates limit left (lead ++ (filling.text ++ tail))
          return ⟨rest.text, filling.warnings ++ rest.warnings, rest.resolved + 1⟩ := by
  let content := inner ++ (Usage.closeTag ++ tail)
  let p : Tag.Pair :=
    ⟨Usage.openTag name fields ++ content, content, Usage.closeTag ++ tail, tail⟩
  have htag : p.openingTag = Usage.openTag name fields := Text.before_append_left _ _
  have hcontent : p.inner = inner := Text.before_append_left _ _
  have hsplice : ∀ filled, p.splice (lead ++ p.opening) filled = lead ++ (filled ++ tail) := by
    intro filled
    rw [Tag.Pair.splice, Text.before_append_left]
  have husage : Usage.ofTag p.openingTag = .ok ⟨name, (∅ : Fields).insertMany fields⟩ :=
    htag ▸ Usage.ofTag_openTag hname fun f hf => (hfields f hf).writable
  rw [Expansion.resolve_succ (h.find?_usage hname hfields hinner tail),
    Expansion.fillUsage_of_ofTag husage]
  cases templates[name]? with
  | none => rfl
  | some template =>
    show (do
      let filling ← template.fill ((∅ : Fields).insertMany fields) p.inner
      let rest ← Expansion.resolve templates limit left (p.splice (lead ++ p.opening) filling.text)
      return Expansion.mk rest.text (filling.warnings ++ rest.warnings) (rest.resolved + 1)) = _
    simp only [hcontent, hsplice]

/-- A usage with tag-safe content is resolved as long as the limit has not been reached. -/
theorem Leads.resolve_usage {lead : List Char} (h : Leads lead) {name : String}
    {fields : List (String × String)} (hname : '"' ∉ name.toList)
    (hfields : ∀ f ∈ fields, Usage.FieldWritable f) {inner : List Char}
    (hinner : Usage.TagSafe inner) (tail : List Char) (n : Nat) :
    Expansion.resolve templates limit (limit - n)
      (lead ++ (Usage.openTag name fields ++ (inner ++ (Usage.closeTag ++ tail)))) =
        if limit ≤ n then
          .error (.expansionLimit limit)
        else
          match templates[name]? with
          | none => .error (.unknownTemplate name)
          | some template => do
            let filling ← template.fill ((∅ : Fields).insertMany fields) inner
            let rest ← Expansion.resolve templates limit (limit - (n + 1))
              (lead ++ (filling.text ++ tail))
            return ⟨rest.text, filling.warnings ++ rest.warnings, rest.resolved + 1⟩ := by
  by_cases hlimit : limit ≤ n
  · rw [if_pos hlimit, Nat.sub_eq_zero_of_le hlimit]
    exact Expansion.resolve_zero (h.find?_usage hname hfields hinner tail)
  · have hleft : limit - n = limit - (n + 1) + 1 := by omega
    rw [if_neg hlimit, hleft, h.resolve_usage_succ hname hfields hinner]

/-- Expansion of a text that starts with a written document evaluates the document and goes
on with what it came to. -/
theorem resolve_render {d : Document} (hd : d.Valid)
    (ht : ∀ (name : String) (t : Template), templates[name]? = some t → t.TagSafe)
    {lead : List Char} (hlead : Leads lead) {n : Nat} (hn : n ≤ limit) (rest : List Char) :
    Expansion.resolve templates limit (limit - n) (lead ++ (d.render ++ rest)) = (do
      let e ← d.evaluate templates limit n
      let r ← Expansion.resolve templates limit (limit - (n + e.resolved))
        (lead ++ (e.text.toList ++ rest))
      return ⟨r.text, e.warnings ++ r.warnings, e.resolved + r.resolved⟩) := by
  induction d generalizing lead n rest with
  | empty =>
    show Expansion.resolve templates limit (limit - n) (lead ++ rest) = (do
      let r ← Expansion.resolve templates limit (limit - n) (lead ++ rest)
      return ⟨r.text, r.warnings, 0 + r.resolved⟩)
    simp
  | text s next ih =>
    -- the text joins what leads the document
    have hstep := ih hd.2 (hlead.append_text hd.1) hn rest
    rw [render, List.append_assoc, ← List.append_assoc lead, hstep, evaluate, bind_assoc]
    refine bind_congr fun e => ?_
    simp only [pure_bind, String.toList_append, List.append_assoc]
  | usage name fields content next ihContent ihNext =>
    obtain ⟨hname, hfields, hcontent, hnext⟩ := hd
    have hwritable := fun f hf => (hfields f hf).1
    -- the content is evaluated behind the opening tag
    have hstep := ihContent hcontent (hlead.append_openTag hname hwritable) hn
      (Usage.closeTag ++ (next.render ++ rest))
    have hshape : lead ++ ((usage name fields content next).render ++ rest) =
        (lead ++ Usage.openTag name fields) ++
          (content.render ++ (Usage.closeTag ++ (next.render ++ rest))) := by
      simp [render]
    rw [hshape, hstep, evaluate, bind_assoc]
    cases hinner : content.evaluate templates limit n with
    | error d => rfl
    | ok inner =>
    obtain ⟨hcount, hsafe⟩ := of_evaluate hcontent ht hn hinner
    -- then the usage is resolved, as far as the limit and the templates allow
    rw [Stages.ok_bind, Stages.ok_bind, List.append_assoc,
      hlead.resolve_usage hname hwritable hsafe]
    by_cases hlimit : limit ≤ n + inner.resolved
    · rw [if_pos hlimit, if_pos hlimit]
      rfl
    rw [if_neg hlimit, if_neg hlimit]
    cases hlookup : templates[name]? with
    | none => rfl
    | some template =>
    simp only
    cases hfilling : template.fill ((∅ : Fields).insertMany fields) inner.text.toList with
    | error d => rfl
    | ok filling =>
    -- and the filled template joins what leads the rest of the document
    have hfilled := Template.tagSafe_of_fill hfilling (ht name template hlookup)
      (Usage.tagSafe_of_insertMany fun f hf => (hfields f hf).2) hsafe
    have hmore := ihNext hnext (hlead.append_text hfilled)
      (show n + inner.resolved + 1 ≤ limit by omega) rest
    rw [List.append_assoc] at hmore
    simp only [Stages.ok_bind, hmore, bind_assoc]
    refine bind_congr fun e => ?_
    have hcount : n + inner.resolved + 1 + e.resolved =
        n + (inner.resolved + 1 + e.resolved) := by omega
    simp only [pure_bind, String.toList_append, String.toList_ofList, List.append_assoc, hcount]
    refine bind_congr fun r => ?_
    have hsum : inner.resolved + (e.resolved + r.resolved + 1) =
        inner.resolved + 1 + e.resolved + r.resolved := by omega
    rw [hsum]

/-- Expansion of a written document gives what the document evaluates to. -/
theorem expand_render {d : Document} (hd : d.Valid)
    (ht : ∀ (name : String) (t : Template), templates[name]? = some t → t.TagSafe) :
    expand templates limit (String.ofList d.render) = d.evaluate templates limit 0 := by
  have hmain := resolve_render hd ht Leads.nil (Nat.zero_le limit) []
  rw [List.nil_append, List.append_nil, Nat.sub_zero] at hmain
  rw [expand, String.toList_ofList, hmain]
  cases h : d.evaluate templates limit 0 with
  | error defect => rfl
  | ok e =>
    -- no usage is left in the value, so the rest of the expansion ends at once
    obtain ⟨-, hsafe⟩ := of_evaluate hd ht (Nat.zero_le limit) h
    have hnone : Tag.Pair.find? Usage.tagName e.text.toList = .ok none :=
      Tag.Pair.findFrom_of_none hsafe.nextMark?
    rw [Stages.ok_bind, List.nil_append, List.append_nil, Expansion.resolve_of_none hnone,
      Stages.ok_bind, String.ofList_toList, List.append_nil, Nat.add_zero]
    rfl

/-- A template that puts its content into a box with a label. -/
def box : Template :=
  Template.ofFile ⟨"t/box.html"⟩ ⟨"box.html"⟩
    "<b><--field --name=\"label\" --default=\"-\" /></b>[<--inner-html />]"

/-- A box in a box, between texts. -/
def nestedBoxes : Document :=
  .text "A " (.usage "box" [("label", "<i>")]
    (.text "x" (.usage "box" [] (.text "y" .empty) .empty)) (.text " Z" .empty))

theorem tagSafe_box : box.TagSafe := by
  have hliterals : box.literals = ["<b>".toList, "</b>[".toList, "]".toList] := by
    decide +kernel
  have hdefaults : box.defaults = ["-"] := by decide +kernel
  refine ⟨?_, ?_⟩
  · rw [hliterals]
    intro part hpart
    simp only [List.mem_cons, List.not_mem_nil, or_false] at hpart
    rcases hpart with rfl | rfl | rfl <;> exact ⟨by decide +kernel, by decide +kernel⟩
  · rw [hdefaults]
    intro value hvalue
    obtain rfl := List.mem_singleton.1 hvalue
    exact ⟨by decide +kernel, by decide +kernel⟩

/-- Nested boxes are filled from the inside out. -/
theorem expand_nestedBoxes :
    nestedBoxes.Valid ∧
    expand ((∅ : Templates).insert "box" box) 2 (String.ofList nestedBoxes.render) =
      .ok ⟨"A <b><i></b>[x<b>-</b>[y]] Z", [], 2⟩ := by
  have htext : ∀ s ∈ ["A ", "x", "y", " Z", "<i>"], Usage.TagSafe s.toList := by
    intro s hs
    simp only [List.mem_cons, List.not_mem_nil, or_false] at hs
    rcases hs with rfl | rfl | rfl | rfl | rfl <;> exact ⟨by decide +kernel, by decide +kernel⟩
  have hlabel : Usage.FieldWritable ("label", "<i>") :=
    ⟨by decide, List.all_eq_true.1 (by decide), by decide⟩
  have hvalid : nestedBoxes.Valid := by
    refine ⟨htext _ (by decide), by decide, ?_, ⟨htext _ (by decide), by decide, ?_,
      ⟨htext _ (by decide), trivial⟩, trivial⟩, htext _ (by decide), trivial⟩
    · intro f hf
      obtain rfl := List.mem_singleton.1 hf
      exact ⟨hlabel, htext _ (by decide)⟩
    · intro f hf
      exact absurd hf List.not_mem_nil
  have hsafe : ∀ (name : String) (t : Template),
      ((∅ : Templates).insert "box" box)[name]? = some t → t.TagSafe :=
    fun _ _ => Templates.tagSafe_of_getElem?_insert tagSafe_box
  refine ⟨hvalid, ?_⟩
  rw [expand_render hvalid hsafe]
  decide +kernel

end Document

end Stencil
