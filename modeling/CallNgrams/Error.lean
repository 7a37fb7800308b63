import CallNgrams.Location
import CallNgrams.Text.Quoted

/-!
# Errors

The causes for which compiling a method, searching a program or asking for a trace can fail, and
their messages. Configuration errors concern one request and do not stop a batch of them.
-/

namespace CallNgrams

/-- Why an instruction cannot be decoded. -/
inductive DecodeFault where
  | targetCount (opcode : String) (operands : List String)
  | badTarget (text : String)
  | targetPastEnd (target : Nat)
  | undecodableCall (comment : String)
  | badSignature (signature : String) (fault : Signature.Fault)
deriving DecidableEq, Repr

/-- The message of a decoding fault. -/
def DecodeFault.message : DecodeFault → String
  | .targetCount opcode operands =>
    opcode ++ " expects one target, got " ++ Text.quoteList operands
  | .badTarget text => "invalid jump target " ++ Text.quote text
  | .targetPastEnd target =>
    "jump target " ++ toString target ++ " is past the end of the method"
  | .undecodableCall comment => "cannot decode call target " ++ Text.quote comment
  | .badSignature signature fault => fault.message signature

/-- How the control flow of a method can be broken at a program point. -/
inductive FlowFault where
  | noCommandAtOrAfter
  | branchWithoutFallthrough
  | reachableWithoutCommand
  | missingFallthrough
  | unlinkedCommand
  | fallsOff
  | callSiteWithoutNode
  | callSiteWithoutFallthrough
deriving DecidableEq, Repr

/-- The message of a control-flow fault. -/
def FlowFault.message : FlowFault → String
  | .noCommandAtOrAfter => "no command cell at or after"
  | .branchWithoutFallthrough => "branch without fallthrough"
  | .reachableWithoutCommand => "reachable cell without command"
  | .missingFallthrough => "missing fallthrough"
  | .unlinkedCommand => "unlinked command cell"
  | .fallsOff => "control falls off the method"
  | .callSiteWithoutNode => "call site has no node"
  | .callSiteWithoutFallthrough => "call site has no fallthrough"

/-- Why a method cannot be compiled or a request cannot be answered. -/
inductive Error where
  /-- An instruction cannot be decoded. -/
  | malformed (point : ProgramPoint) (fault : DecodeFault)
  /-- The control flow of a method is broken. -/
  | invariant (point : ProgramPoint) (fault : FlowFault)
  /-- A call sequence without calls. -/
  | emptySequence
  /-- A call sequence whose length is not the requested n-gram size. -/
  | lengthMismatch (expected actual : Nat)
  /-- An n-gram size that is not positive. -/
  | invalidSize (size : Int)
  /-- A method without a compiled graph. -/
  | unknownMethod (method : MethodKey)
  /-- A starting index at which the method has no program point. -/
  | unknownStart (point : ProgramPoint)
  /-- A text that is not a location. -/
  | invalidLocation (text : String)
  /-- A search that does not end within its depth limit, because a loop is not cut. -/
  | unboundedSearch (method : MethodKey)
deriving DecidableEq, Repr

namespace Error

/-- The message of an error. -/
def message : Error → String
  | .malformed point fault => point.text ++ ": malformed instruction: " ++ fault.message
  | .invariant point fault =>
    "control flow invariant violated at " ++ point.text ++ ": " ++ fault.message
  | .emptySequence => "empty call sequence"
  | .lengthMismatch expected actual =>
    "length of call sequence (" ++ toString actual ++ ") doesn't match n-gram size (" ++
      toString expected ++ ")"
  | .invalidSize size => "invalid n-gram size: " ++ toString size
  | .unknownMethod method => "no compiled method for " ++ method.text
  | .unknownStart point =>
    point.method.text ++ " has no program point at index " ++ toString point.index
  | .invalidLocation text => "invalid location: " ++ text
  | .unboundedSearch method => "search from " ++ method.text ++ " does not end"

/-- Errors of one request, which do not stop a batch of requests. -/
def isConfiguration : Error → Bool
  | .malformed .. | .invariant .. | .unboundedSearch .. => false
  | _ => true

end Error

end CallNgrams
