import Stencil.Proofs.Expansion.Steps

/-!
# The limit of an expansion

The limit says whether an expansion comes to its end and has no other part in it. `Settles` says
how a text ends where no limit stops it and how many usages have to be allowed for that. With
fewer the expansion gives up, and with that many or more it ends so (`Settles.resolve`). An
expansion that does not give up has ended in this way (`exists_settles`), and what it leaves has
no usage (`Settles.find?_text`), so the limit is exact and the output is not expanded again
(`expand_limit_exact`).
-/

namespace Stencil

namespace Expansion

/-- The expansion of a text in which one usage was resolved before. -/
def afterUsage (warnings : List String) (e : Expansion) : Expansion :=
  { e with warnings := warnings ++ e.warnings, resolved := e.resolved + 1 }

/-- `Settles templates text need result`: where no limit stops it the expansion of `text` ends in
`result`, and it takes an allowance of `need` usages to get there. A usage that cannot be filled
counts, since the limit is looked at before it is read. -/
inductive Settles (templates : Templates) :
    (text : List Char) → (need : Nat) → (result : Except Defect Expansion) → Prop
  | done {text} (noUsage : Tag.Pair.find? Usage.tagName text = .ok none) :
      Settles templates text 0 (.ok ⟨String.ofList text, [], 0⟩)
  | unpaired {text d} (fails : Tag.Pair.find? Usage.tagName text = .error d) :
      Settles templates text 0 (.error d)
  | unfilled {text p d} (found : Tag.Pair.find? Usage.tagName text = .ok (some p))
      (fails : fillUsage templates p = .error d) : Settles templates text 1 (.error d)
  | filled {text p filling need result}
      (found : Tag.Pair.find? Usage.tagName text = .ok (some p))
      (fills : fillUsage templates p = .ok filling)
      (next : Settles templates (p.splice text filling.text) need result) :
      Settles templates text (need + 1) (result.map (afterUsage filling.warnings))

variable {templates : Templates} {limit left need : Nat} {text : List Char}
  {result : Except Defect Expansion} {e : Expansion}

/-- An expansion that settles ends so with every limit that allows what it takes, and gives up
with every smaller one. -/
theorem Settles.resolve (h : Settles templates text need result) (limit left : Nat) :
    resolve templates limit left text =
      if left < need then .error (.expansionLimit limit) else result := by
  induction h generalizing left with
  | done noUsage => rw [resolve_of_none noUsage, if_neg (Nat.not_lt_zero left)]
  | unpaired fails => rw [resolve_of_error fails, if_neg (Nat.not_lt_zero left)]
  | unfilled found fails =>
    cases left with
    | zero => rw [resolve_zero found, if_pos Nat.zero_lt_one]
    | succ left =>
      rw [resolve_succ found, fails, if_neg (by omega)]
      rfl
  | @filled text p filling need result found fills next ih =>
    cases left with
    | zero => rw [resolve_zero found, if_pos (Nat.succ_pos need)]
    | succ left =>
      rw [resolve_succ found, fills, Stages.ok_bind, ih left]
      by_cases hlt : left < need
      · rw [if_pos hlt, if_pos (by omega)]
        rfl
      · rw [if_neg hlt, if_neg (by omega)]
        cases result <;> rfl

/-- An expansion that does not give up settles within what it is allowed. -/
theorem exists_settles (h : resolve templates limit left text ≠ .error (.expansionLimit limit)) :
    ∃ need, need ≤ left ∧ Settles templates text need (resolve templates limit left text) := by
  induction left generalizing text with
  | zero =>
    rcases find?_cases text with ⟨d, hfind⟩ | hfind | ⟨p, hfind⟩
    · exact ⟨0, Nat.le_refl 0, resolve_of_error hfind ▸ .unpaired hfind⟩
    · exact ⟨0, Nat.le_refl 0, resolve_of_none hfind ▸ .done hfind⟩
    · exact absurd (resolve_zero hfind) h
  | succ left ih =>
    rcases find?_cases text with ⟨d, hfind⟩ | hfind | ⟨p, hfind⟩
    · exact ⟨0, Nat.zero_le _, resolve_of_error hfind ▸ .unpaired hfind⟩
    · exact ⟨0, Nat.zero_le _, resolve_of_none hfind ▸ .done hfind⟩
    · rw [resolve_succ hfind] at h ⊢
      cases hfill : fillUsage templates p with
      | error d => exact ⟨1, by omega, .unfilled hfind hfill⟩
      | ok filling =>
        rw [hfill] at h
        rw [Stages.ok_bind] at h ⊢
        have hnext : Expansion.resolve templates limit left (p.splice text filling.text) ≠
            .error (.expansionLimit limit) := by
          intro hlimit
          rw [hlimit] at h
          exact h rfl
        obtain ⟨need, hneed, hsettles⟩ := ih hnext
        have hfilled := hsettles.filled hfind hfill
        refine ⟨need + 1, by omega, ?_⟩
        cases hresult : Expansion.resolve templates limit left (p.splice text filling.text) <;>
          exact hresult ▸ hfilled

/-- A usage is counted for each that has to be allowed. -/
theorem Settles.resolved_eq (h : Settles templates text need (.ok e)) : e.resolved = need := by
  generalize hresult : Except.ok e = result at h
  induction h generalizing e with
  | done =>
    cases hresult
    rfl
  | unpaired | unfilled => cases hresult
  | filled found fills next ih =>
    obtain ⟨rest, hrest, rfl⟩ := Stages.map_eq_ok.1 hresult.symm
    exact congrArg (· + 1) (ih hrest.symm)

/-- No usage is left in the text of an expansion. -/
theorem Settles.find?_text (h : Settles templates text need (.ok e)) :
    Tag.Pair.find? Usage.tagName e.text.toList = .ok none := by
  generalize hresult : Except.ok e = result at h
  induction h generalizing e with
  | done noUsage =>
    cases hresult
    rw [String.toList_ofList]
    exact noUsage
  | unpaired | unfilled => cases hresult
  | filled found fills next ih =>
    obtain ⟨rest, hrest, rfl⟩ := Stages.map_eq_ok.1 hresult.symm
    show Tag.Pair.find? Usage.tagName rest.text.toList = .ok none
    exact ih hrest.symm

end Expansion

open Expansion (exists_settles resolve_of_none)

/-- With a greater limit an expansion that did not give up ends as before. One that succeeds does
so with exactly the limits that allow the usages it resolves, and its text is its own expansion,
whatever templates there are. -/
theorem expand_limit_exact (templates : Templates) (document : String) {limit larger : Nat}
    (hle : limit ≤ larger) :
    (expand templates limit document ≠ .error (.expansionLimit limit) →
      expand templates larger document = expand templates limit document) ∧
    ∀ e, expand templates limit document = .ok e →
      e.resolved ≤ limit ∧
      (∀ enough, e.resolved ≤ enough → expand templates enough document = .ok e) ∧
      (∀ less, less < e.resolved →
        expand templates less document = .error (.expansionLimit less)) ∧
      ∀ (others : Templates) (any : Nat), expand others any e.text = .ok ⟨e.text, [], 0⟩ := by
  constructor
  · intro hresult
    obtain ⟨need, hneed, hsettles⟩ := exists_settles hresult
    rw [expand, hsettles.resolve, if_neg (by omega)]
    rfl
  · intro e he
    have hresult : expand templates limit document ≠ .error (.expansionLimit limit) := by
      rw [he]
      nofun
    obtain ⟨need, hneed, hsettles⟩ := exists_settles hresult
    have hends : Expansion.Settles templates document.toList need (.ok e) := he ▸ hsettles
    obtain rfl := hends.resolved_eq
    refine ⟨hneed, fun enough henough => ?_, fun less hless => ?_, fun others any => ?_⟩
    · rw [expand, hends.resolve, if_neg (Nat.not_lt.2 henough)]
    · rw [expand, hends.resolve, if_pos hless]
    · rw [expand, resolve_of_none hends.find?_text, String.ofList_toList]

/-- A template that uses another around its content. -/
def listTemplates : Templates :=
  ((∅ : Templates).insert "list" (Template.ofFile ⟨"t/list.html"⟩ ⟨"list.html"⟩
    "<ul><--template --name=\"item\"><--inner-html></--template></ul>")).insert "item"
    (Template.ofFile ⟨"t/item.html"⟩ ⟨"item.html"⟩ "<li><--inner-html></li>")

/-- The list takes two usages, its own and the one in its template. -/
theorem expand_limit_exact_list :
    expand listTemplates 3 "<--template --name=\"list\">x</--template>" =
      .ok ⟨"<ul><li>x</li></ul>", [], 2⟩ ∧
    expand listTemplates 10 "<--template --name=\"list\">x</--template>" =
      .ok ⟨"<ul><li>x</li></ul>", [], 2⟩ ∧
    expand listTemplates 2 "<--template --name=\"list\">x</--template>" =
      .ok ⟨"<ul><li>x</li></ul>", [], 2⟩ ∧
    expand listTemplates 1 "<--template --name=\"list\">x</--template>" =
      .error (.expansionLimit 1) ∧
    expand listTemplates 0 "<ul><li>x</li></ul>" = .ok ⟨"<ul><li>x</li></ul>", [], 0⟩ := by
  have hlist : expand listTemplates 3 "<--template --name=\"list\">x</--template>" =
      .ok ⟨"<ul><li>x</li></ul>", [], 2⟩ := by decide +kernel
  obtain ⟨hlarger, hends⟩ := expand_limit_exact listTemplates
    "<--template --name=\"list\">x</--template>" (show 3 ≤ 10 by decide)
  obtain ⟨-, henough, hless, hagain⟩ := hends _ hlist
  refine ⟨hlist, ?_, henough 2 (by decide), hless 1 (by decide), hagain _ 0⟩
  rw [hlarger (by rw [hlist]; nofun), hlist]

end Stencil
