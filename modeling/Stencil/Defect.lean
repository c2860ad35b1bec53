/-!
# Defects

What can be wrong with a document or a template. A defect names its cause; the
wording shown to a reader is `Defect.message` and nowhere else.
-/

namespace Stencil

/-- What is wrong with a document or with a template it uses. -/
inductive Defect
  /-- A closing tag comes first. -/
  | unmatchedClose
  /-- An opening tag is never closed. -/
  | unmatchedOpen
  /-- A tag has no end. -/
  | missingBracket
  /-- A tag is not of the form name and attributes. -/
  | invalidTag (tag : String)
  /-- A usage does not say which template it uses. -/
  | missingTemplateName
  /-- A part of a bulk list is not of the form name, colon, value. -/
  | invalidField (part : String)
  /-- A field tag of the template does not say which field it stands for. -/
  | fieldMissingName (template : String)
  /-- A field of the template has neither a value nor a default. -/
  | fieldRequired (template field : String)
  /-- Two tags of the template share text. -/
  | overlappingTags (template : String)
  /-- The template has several places for the content. -/
  | multipleContentSlots (template : String)
  /-- No template has this name. -/
  | unknownTemplate (name : String)
  /-- More usages were met than may be resolved. -/
  | expansionLimit (limit : Nat)
  deriving DecidableEq, Repr

/-- The wording of a defect. -/
def Defect.message : Defect → String
  | unmatchedClose => "closing tag with no matching open"
  | unmatchedOpen => "opening tag with no matching close"
  | missingBracket => "missing `>`"
  | invalidTag tag => "invalid tag `" ++ tag ++ "`"
  | missingTemplateName => "template name required"
  | invalidField part => "couldn't parse field `" ++ part ++ "`"
  | fieldMissingName template =>
    "template " ++ template ++ ": a field tag is missing the attribute `--name`"
  | fieldRequired template field =>
    "template " ++ template ++ ": field `" ++ field ++ "` required"
  | overlappingTags template => "template " ++ template ++ ": overlapping tags"
  | multipleContentSlots template =>
    "template " ++ template ++ ": more than one `--inner-html` tag"
  | unknownTemplate name => "`" ++ name ++ "` template doesn't exist"
  | expansionLimit limit => "gave up after resolving " ++ toString limit ++ " template usages"

end Stencil
