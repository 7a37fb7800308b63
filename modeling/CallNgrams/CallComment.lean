import CallNgrams.Signature
import CallNgrams.Text.Blank

/-!
# Comments that name a called method

A call instruction carries a comment such as `// Method a/B.run:()V`. The comment may say
`InterfaceMethod`, and white space is free around the slashes and the name.
-/

namespace CallNgrams

/-- The method name of a comment, trimmed and nonempty. -/
def calledName? (comment : List Char) : Option (List Char) := do
  let rest ← ['/', '/'].isPrefixOf? (Text.trimStart comment)
  let rest := Text.trimStart rest
  let rest := ("Interface".toList.isPrefixOf? rest).getD rest
  let name ← "Method".toList.isPrefixOf? rest
  if name.head?.any Text.isBlank then
    let name := Text.trim name
    if name.isEmpty then none else some name
  else
    none

/-- The target that a comment names. A name without an owner belongs to the `context` class if it
is a constructor, and has no known class otherwise. -/
def callTarget? (context : String) (comment : String) : Option CallTarget := do
  let name ← calledName? comment.toList
  match Signature.splitOwner name with
  | some key => some ⟨some key.owner, key.signature⟩
  | none =>
    let owner := if Signature.constructorMark.isPrefixOf name then some context else none
    some ⟨owner, String.ofList name⟩

end CallNgrams
