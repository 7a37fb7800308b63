import CallNgrams.Flow.Graph
import CallNgrams.Proofs.Path

/-!
# Steps of bodies, cells and graphs

The same kind of transition relation is read off a method at each stage of its compilation: off the
instructions of its body, off its cells and off its graph. A call is made where control leaves the
call site.
-/

namespace CallNgrams

/-- Where an instruction at an offset sends control. -/
inductive Flow.Moves (index : Nat) : Flow → Option CallSite → Nat → Prop where
  | pass : Moves index .pass none (index + 1)
  | jump {target : Nat} : Moves index (.jump target) none target
  | choose {target : Nat} {targets : List Nat} :
      target ∈ targets → Moves index (.choice targets) none target
  | decline {targets : List Nat} : Moves index (.choice targets) none (index + 1)
  | call {target : CallTarget} :
      Moves index (.call target) (some ⟨index, target⟩) (index + 1)

namespace Body

/-- The meaning of an offset; one at which no instruction starts passes control on. -/
def flowAt (hierarchy : Option ClassHierarchy) (context : String) (body : Body) (index : Nat) :
    Except DecodeFault Flow :=
  match body.get? index with
  | some instruction => Flow.ofInstruction hierarchy context body index instruction
  | none => .ok .pass

/-- One step over the instructions of a body. The end behind the last offset has none. -/
def Step (hierarchy : Option ClassHierarchy) (context : String) (body : Body) : Transition :=
  fun index site dest => index < body.size ∧
    ∃ flow, body.flowAt hierarchy context index = .ok flow ∧ flow.Moves index site dest

/-- Some path from the first offset of a body makes exactly these calls. -/
def Makes (hierarchy : Option ClassHierarchy) (context : String) (body : Body)
    (calls : List CallSite) : Prop :=
  Emits (body.Step hierarchy context) 0 calls

/-- Some path from the first offset makes exactly these calls and ends where control stops. -/
def Completes (hierarchy : Option ClassHierarchy) (context : String) (body : Body)
    (calls : List CallSite) : Prop :=
  Finishes (body.Step hierarchy context) 0 calls

end Body

/-- Where a command at an index sends control, given its fallthrough. -/
inductive Command.Moves (index : Nat) (next : Option Nat) :
    Command → Option CallSite → Nat → Prop where
  | jump {target : Nat} : Moves index next (.jump target) none target
  | choose {target : Nat} {targets : List Nat} :
      target ∈ targets → Moves index next (.branch targets) none target
  | decline {dest : Nat} {targets : List Nat} :
      next = some dest → Moves index next (.branch targets) none dest
  | call {dest : Nat} {target : CallTarget} :
      next = some dest → Moves index next (.call target) (some ⟨index, target⟩) dest

namespace CellArray

/-- One step over the cells of a method. -/
def Step (array : CellArray) : Transition :=
  fun index site dest =>
    ∃ command, array.command? index = some command ∧
      command.Moves index (array.next? index) site dest

/-- Some path from the entrance makes exactly these calls. -/
def Makes (array : CellArray) (calls : List CallSite) : Prop :=
  Emits array.Step array.entrance calls

/-- Some path from the entrance makes exactly these calls and ends where control stops. -/
def Completes (array : CellArray) (calls : List CallSite) : Prop :=
  Finishes array.Step array.entrance calls

end CellArray

/-- One step over the nodes of a linked method, from handle to handle. -/
def LinkedGraph.Step (graph : LinkedGraph) : Transition :=
  fun handle site dest =>
    ∃ node, graph.node? handle = some node ∧ node.command.Moves node.index node.next site dest

namespace MethodGraph

/-- One step over the nodes of a graph. -/
def Step (graph : MethodGraph) : Transition :=
  fun index site dest =>
    ∃ node, graph.node? index = some node ∧ node.command.Moves index node.next site dest

/-- Some path from the start makes exactly these calls. -/
def Makes (graph : MethodGraph) (calls : List CallSite) : Prop :=
  Emits graph.Step graph.start calls

section Steps

variable {graph : MethodGraph} {i dest : Nat} {node : Node} (h : graph.node? i = some node)

include h

/-- A jump leads to its destination and makes no call. -/
theorem step_jump (hc : node.command = .jump dest) : graph.Step i none dest := by
  refine ⟨node, h, ?_⟩
  rw [hc]
  exact .jump

/-- A branch can lead to each of its targets. -/
theorem step_choose {targets : List Nat} (hc : node.command = .branch targets)
    (hdest : dest ∈ targets) : graph.Step i none dest := by
  refine ⟨node, h, ?_⟩
  rw [hc]
  exact .choose hdest

/-- A branch can fall through. -/
theorem step_decline {targets : List Nat} (hc : node.command = .branch targets)
    (hnext : node.next = some dest) : graph.Step i none dest := by
  refine ⟨node, h, ?_⟩
  rw [hc]
  exact .decline hnext

/-- A call is made when control falls through behind it. -/
theorem step_call {target : CallTarget} (hc : node.command = .call target)
    (hnext : node.next = some dest) : graph.Step i (some ⟨i, target⟩) dest := by
  refine ⟨node, h, ?_⟩
  rw [hc]
  exact .call hnext

end Steps

end MethodGraph

end CallNgrams
