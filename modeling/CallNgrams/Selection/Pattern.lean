import CallNgrams.Text.Cut

/-!
# Class patterns

A pattern is the name of a class, or `package/*` for every class directly in a package. The package
of a class is what precedes its last slash.
-/

namespace CallNgrams

/-- A pattern of class names. -/
inductive ClassPattern where
  | named (name : String)
  | inPackage (package : String)
deriving DecidableEq, Repr

namespace ClassPattern

/-- The pattern that a text stands for. -/
def ofText (text : String) : ClassPattern :=
  match ['/', '*'].isSuffixOf? text.toList with
  | some package => .inPackage (String.ofList package)
  | none => .named text

/-- Whether a class has the pattern. -/
def isMatch (name : String) : ClassPattern → Bool
  | .named expected => name == expected
  | .inPackage package =>
    match Text.cutLast '/' name.toList with
    | some (before, _) => before == package.toList
    | none => false

end ClassPattern

/-- A class matches a list of patterns if it has one of them. -/
def isMatched (patterns : List ClassPattern) (name : String) : Bool :=
  patterns.any (ClassPattern.isMatch name)

end CallNgrams
