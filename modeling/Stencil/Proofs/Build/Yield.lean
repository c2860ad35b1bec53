import Stencil.Build.Output
import Stencil.Proofs.FileTree.Walk
import Stencil.Proofs.Plan.Units

/-!
# What a document yields

`yieldOf` processes a document as a run does and gives the bytes that belong into its
output. They depend on the path of the document, on its bytes and on the templates that
its expansion asks for, and on nothing else (`yieldOf_eq_ok_iff`, `yieldBytes_congr`).
-/

namespace Stencil

/-- The bytes of an output, given those of the source. -/
def Output.bytes (source : ByteArray) : Output → ByteArray
  | text content => content.toUTF8
  | copy => source

/-- The bytes that belong into the output of a document. -/
def yieldOf (t : FileTree) (templates : Templates) (limit : Nat) (doc : Source) :
    Except PlanFailure ByteArray := do
  let (source, names) ← Plan.templatesUsed t templates doc
  let (output, _) ← PlannedUnit.process ⟨source, none, names⟩ t templates limit
  match output with
  | .text content => return content.toUTF8
  | .copy => (t.readBytes source.path).mapError fun cause => .ofRead ⟨source.path, cause⟩

/-- The bytes that belong into the output of a document with this path and these bytes. -/
def yieldBytes (templates : Templates) (limit : Nat) (rel : Path) (content : ByteArray) :
    Option ByteArray :=
  if FileKind.ofPath rel == .markup then do
    let text ← String.fromUTF8? content
    let names ← (templateNames text).toOption
    if names.isEmpty then return content
    else (expand templates limit text).toOption.map fun e => e.text.toUTF8
  else some content

variable {t : FileTree} {templates : Templates} {limit : Nat} {doc source : Source}
  {names : Std.ExtTreeSet String} {content : ByteArray}

/-- The text of a document that has not been read is that of its bytes. -/
theorem text_of_readBytes (hcontent : t.readBytes doc.path = .ok content)
    (hunread : doc.text? = none) {text : String} (h : doc.text t = .ok text) :
    String.fromUTF8? content = some text := by
  rw [Source.text, hunread] at h
  obtain ⟨content', hcontent', h⟩ := Stages.bind_eq_ok.1 (Stages.mapError_eq_ok.1 h)
  obtain rfl := Except.ok.inj (hcontent.symm.trans hcontent')
  split at h
  · next found hfound =>
    cases h
    exact hfound
  · cases h

/-- Processing a planned document gives the bytes that belong into its output. -/
theorem process_toOption (h : Plan.templatesUsed t templates doc = .ok (source, names))
    (hcontent : t.readBytes doc.path = .ok content) (hunread : doc.text? = none)
    (existing : Option Source) :
    (PlannedUnit.process ⟨source, existing, names⟩ t templates limit).toOption.map
      (fun result => result.1.bytes content) = yieldBytes templates limit doc.rel content := by
  cases hdoc : doc.isMarkup with
  | false =>
    obtain ⟨rfl, rfl⟩ := Plan.templatesUsed_asset h hdoc
    have hkind : (FileKind.ofPath source.rel == .markup) = false := hdoc
    rw [yieldBytes, hkind, PlannedUnit.process, PlannedUnit.needsExpansion, hdoc]
    rfl
  | true =>
    obtain ⟨text, htext, rfl, hnames, -⟩ := Plan.templatesUsed_markup h hdoc
    have hkind : (FileKind.ofPath doc.rel == .markup) = true := hdoc
    have hmarkup : Source.isMarkup { doc with text? := some text } = true := hdoc
    rw [yieldBytes, hkind, text_of_readBytes hcontent hunread htext, if_pos rfl]
    simp only [Option.bind_eq_bind, Option.bind_some, hnames, Except.toOption,
      PlannedUnit.process, PlannedUnit.needsExpansion, hmarkup, Bool.true_and]
    cases names.isEmpty with
    | true => rfl
    | false =>
      cases hexpansion : expand templates limit text with
      | error d => simp [Source.text, bind, Except.bind, hexpansion]
      | ok e =>
        simp [Source.text, bind, Except.bind, hexpansion, Output.bytes, pure, Except.pure]

/-- A document whose templates are known yields the bytes that its path and its bytes do. -/
theorem yieldOf_eq_ok_iff (h : Plan.templatesUsed t templates doc = .ok (source, names))
    (hcontent : t.readBytes doc.path = .ok content) (hunread : doc.text? = none)
    {bytes : ByteArray} :
    yieldOf t templates limit doc = .ok bytes ↔
      yieldBytes templates limit doc.rel content = some bytes := by
  -- processing reads the path that was planned, which is the path of the document
  have hpath := (Plan.path_of_templatesUsed h).1
  rw [← process_toOption h hcontent hunread none, yieldOf, h]
  show ((PlannedUnit.process ⟨source, none, names⟩ t templates limit) >>= fun result => _) =
    .ok bytes ↔ _
  cases PlannedUnit.process ⟨source, none, names⟩ t templates limit with
  | error failure => simp [bind, Except.bind, Except.toOption]
  | ok result =>
    obtain ⟨output, warnings⟩ := result
    cases output with
    | text text => simp [bind, Except.bind, Except.toOption, Output.bytes, pure, Except.pure]
    | copy =>
      simp [bind, Except.bind, Except.toOption, Output.bytes, hpath, hcontent]

/-- Maps that agree on what the expansion of a document asks for make it yield the same. -/
theorem yieldBytes_congr {others : Templates} {rel : Path}
    (h : ∀ text names, FileKind.ofPath rel = .markup → String.fromUTF8? content = some text →
      templateNames text = .ok names →
      ∀ name ∈ consultedNames templates limit text, others[name]? = templates[name]?) :
    yieldBytes others limit rel content = yieldBytes templates limit rel content := by
  rw [yieldBytes, yieldBytes]
  by_cases hmarkup : FileKind.ofPath rel = .markup
  · have hkind : (FileKind.ofPath rel == .markup) = true := beq_iff_eq.2 hmarkup
    rw [if_pos hkind, if_pos hkind]
    cases htext : String.fromUTF8? content with
    | none => rfl
    | some text =>
      cases hnames : templateNames text with
      | error d =>
        simp only [Option.bind_eq_bind, Option.bind_some, hnames, Except.toOption,
          Option.bind_none]
      | ok names =>
        have hsame : expand others limit text = expand templates limit text :=
          Expansion.resolve_congr (h text names hmarkup htext hnames)
        simp only [Option.bind_eq_bind, Option.bind_some, Except.toOption, hsame]
  · have hkind : ¬ (FileKind.ofPath rel == .markup) = true := fun h => hmarkup (beq_iff_eq.1 h)
    rw [if_neg hkind, if_neg hkind]

end Stencil
