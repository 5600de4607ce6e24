/-
The normal form of a line, in which spacing carries no meaning.

Tabs count as spaces, white space at the ends is dropped, and a run of spaces counts
as one.  Other white space inside the text stays.

Main definitions:
* `expandTabs` — every tab becomes one space, so that columns keep their place;
* `normalize` — the normal form;
* `tokens` — the parts of a normal form between its spaces.
-/
import AsmCatalog.Text.Basic

namespace AsmCatalog.Text

/-- Every tab becomes one space. -/
def expandTabs (text : Text) : Text := text.map fun c => if c = '\t' then ' ' else c

/-- Every run of spaces becomes one space. -/
def collapseSpaces : Text → Text
  | [] => []
  | c :: rest =>
    if c = ' ' ∧ rest.head? = some ' ' then collapseSpaces rest
    else c :: collapseSpaces rest

/-- The normal form of a line. -/
def normalize (text : Text) : Text := collapseSpaces (trim (expandTabs text))

/-- The tokens of a text in normal form.  A blank line has one empty token. -/
def tokens (text : Text) : List Text := text.splitOn ' '

@[simp] theorem expandTabs_nil : expandTabs [] = [] := rfl

@[simp] theorem expandTabs_append (a b : Text) :
    expandTabs (a ++ b) = expandTabs a ++ expandTabs b := by
  simp [expandTabs]

/-- No tab is left. -/
theorem tab_notMem_expandTabs (text : Text) : '\t' ∉ expandTabs text := by
  simp only [expandTabs, List.mem_map, not_exists, not_and]
  intro c _
  split
  · decide
  · assumption

end AsmCatalog.Text
