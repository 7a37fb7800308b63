import CallNgrams.Flow.Program
import CallNgrams.Policy
import CallNgrams.Search.NgramSet
import CallNgrams.Search.Options

/-!
# Searching n-grams

The search walks the graph of a method from a program point, enters called methods and continues in
their callers when they return. It follows a tree of tasks: each task leads to further tasks, which
are followed in order and to their ends, and all share the set of n-grams found so far.

Three rules bound a path. An activation of a method enters a merge point only once. Calls, and merge
points below the starting method, are paid from a budget. And a signature is not entered while it is
running. A path also ends when it meets an n-gram that is already in the set, or one whose first
call is not made in the starting method.
-/

namespace CallNgrams

/-- A running method and the merge points that it has entered. -/
structure Activation where
  method : MethodKey
  graph : MethodGraph
  marks : List Nat
deriving DecidableEq, Repr

/-- A caller that waits for the method called at an index. -/
structure Suspended where
  activation : Activation
  site : Nat
deriving DecidableEq, Repr

/-- The program point of the waiting call. -/
def Suspended.point (caller : Suspended) : ProgramPoint :=
  ⟨caller.activation.method, caller.site⟩

/-- The state of a path. -/
structure Walk where
  /-- The program point that is visited. -/
  index : Nat
  /-- The running method. -/
  activation : Activation
  /-- The waiting callers, innermost first. -/
  callers : List Suspended
  /-- The calls and merge points that may still be entered. -/
  budget : Nat
  /-- The calls made so far. -/
  gram : Gram
deriving DecidableEq, Repr

namespace Walk

/-- The visited program point. -/
def point (walk : Walk) : ProgramPoint :=
  ⟨walk.activation.method, walk.index⟩

/-- The visited program point with the call sites of the callers. -/
def frame (walk : Walk) : Frame :=
  ⟨walk.point, walk.callers.map Suspended.point⟩

/-- Whether a method of the signature is running or waiting. -/
def isRunning (walk : Walk) (signature : String) : Bool :=
  walk.activation.method.signature == signature ||
    walk.callers.any fun caller => caller.activation.method.signature == signature

/-- The path goes on at an index, if there is one. -/
def goTo (walk : Walk) (next : Option Nat) : Except Error Walk :=
  match next with
  | some index => .ok { walk with index := index }
  | none => .error (.invariant walk.point .fallsOff)

end Walk

/-- A task of the search. -/
inductive Task where
  /-- A path arrives at a program point. -/
  | arrive (walk : Walk)
  /-- A path makes a call, after its callees have been followed, and falls through. -/
  | emit (walk : Walk) (target : CallTarget) (next : Option Nat)
deriving DecidableEq, Repr

/-- Follows a task and all that it leads to, in order, down to a depth. The last of the tasks that
a task leads to takes its place, so that a long path needs no more room than a short one. -/
def follow {σ τ : Type} (perform : τ → σ → Except Error (σ × List τ)) (unbounded : Error) :
    Nat → τ → σ → Except Error σ
  | 0, _, _ => .error unbounded
  | depth + 1, task, state =>
    match perform task state with
    | .error e => .error e
    | .ok (state, tasks) =>
      match tasks.getLast? with
      | none => .ok state
      | some last =>
        match tasks.dropLast.foldlM
            (fun state task => follow perform unbounded depth task state) state with
        | .error e => .error e
        | .ok state => follow perform unbounded depth last state

/-- What stays the same throughout a search. -/
structure Search where
  graphs : GraphTable
  policy : DigPolicy
  options : SearchOptions
  /-- The method that the search starts in. -/
  root : MethodKey
  /-- The index that n-grams have to start at, if one is required. -/
  start : Option Nat

namespace Search

/-- Enters the visited program point: a merge point is marked and paid for. There is no walk if it
is marked already, or if the budget is used up. -/
def enter? (search : Search) (walk : Walk) : Option Walk :=
  if !walk.activation.graph.isMergePoint walk.index then some walk
  else if walk.activation.marks.contains walk.index then none
  else
    let activation := { walk.activation with marks := walk.index :: walk.activation.marks }
    if search.options.countSurface || !walk.callers.isEmpty then
      if walk.budget = 0 then none
      else some { walk with activation := activation, budget := walk.budget - 1 }
    else some { walk with activation := activation }

/-- Whether the callees of a target are followed: it is not undigged, not an unresolved call
without arguments and result, and its signature does not occur among the last calls that would make
an n-gram with it. -/
def isDug {φ : Type} (search : Search) (target : CallTarget) (gram : Gram φ) : Bool :=
  !(search.options.useUndigged && search.policy.isUndigged target.signature) &&
    !(target.owner.isNone && ":()V".toList.isSuffixOf target.signature.toList) &&
    gram.isRecentlyFree (search.options.size - 1) target.signature

/-- The classes that a call can lead to: the resolved one, or all that define the signature. -/
def candidates (search : Search) (target : CallTarget) : List String :=
  let definers := search.graphs.definers target.signature
  match target.owner with
  | some owner => definers.filter (· == owner)
  | none => definers

/-- The walk that enters a method called at the visited program point. -/
def callee (search : Search) (walk : Walk) (method : MethodKey) (graph : MethodGraph) : Walk where
  index := graph.start
  activation := ⟨method, graph, []⟩
  callers := ⟨walk.activation, walk.index⟩ :: walk.callers
  budget := walk.budget - 1
  gram := walk.gram.keepLast search.options.size

/-- The walks that enter the methods that a call can lead to. A call is only followed behind an
earlier one, so that an n-gram starts in the starting method. -/
def callees (search : Search) (walk : Walk) (target : CallTarget) : List Walk :=
  if walk.gram.count == 0 || walk.budget == 0 || !search.isDug target walk.gram ||
      walk.isRunning target.signature then []
  else
    (search.candidates target).filterMap fun owner =>
      let method : MethodKey := ⟨owner, target.signature⟩
      (search.graphs.get? method).map (search.callee walk method)

/-- The walk that continues behind the call of a waiting caller. -/
def continueIn (walk : Walk) (caller : Suspended) (callers : List Suspended) :
    Except Error Walk :=
  match caller.activation.graph.node? caller.site with
  | none => .error (.invariant caller.point .callSiteWithoutNode)
  | some node =>
    match node.next with
    | none => .error (.invariant caller.point .callSiteWithoutFallthrough)
    | some next => .ok ⟨next, caller.activation, callers, walk.budget, walk.gram⟩

/-- The walks behind a return: one in the innermost caller, if there is any. -/
def returns (search : Search) (walk : Walk) : Except Error (List Walk) :=
  if search.options.noReturning then .ok []
  else
    match walk.callers with
    | [] => .ok []
    | caller :: callers => (continueIn walk caller callers).map ([·])

/-- The walks behind a branch: the fallthrough first, then the targets from the last to the first,
which only keep the calls that an n-gram can still need. -/
def choices (search : Search) (walk : Walk) (targets : List Nat) (next : Option Nat) :
    Except Error (List Walk) := do
  let straight ← walk.goTo next
  let taken :=
    if search.options.noBranch then []
    else targets.reverse.map fun target =>
      { walk with index := target, gram := walk.gram.keepLast search.options.size }
  .ok (straight :: taken)

/-- The tasks behind the arrival at a program point. -/
def expand (search : Search) (walk : Walk) : Except Error (List Task) :=
  match walk.activation.graph.node? walk.index with
  | none => .error (.invariant walk.point .fallsOff)
  | some node =>
    match search.enter? walk with
    | none => .ok []
    | some walk =>
      match node.command with
      | .ret => (search.returns walk).map (·.map .arrive)
      | .raise => .ok []
      | .jump target => .ok [.arrive { walk with index := target }]
      | .branch targets => (search.choices walk targets node.next).map (·.map .arrive)
      | .call target =>
        .ok ((search.callees walk target).map .arrive ++ [.emit walk target node.next])

/-- Whether an n-gram belongs to another search if its first call is made at this program point and
so deep: it is not made in the starting method, or not at the required index. -/
def isForeignAt (search : Search) (point : ProgramPoint) (depth : Nat) : Bool :=
  (match search.start with
    | some index => point.method == search.root && point.index != index
    | none => false) || depth != 0

/-- Whether an n-gram that starts with this call belongs to another search. -/
def isForeign (search : Search) (item : GramItem) : Bool :=
  search.isForeignAt item.frame.point item.frame.depth

/-- A path makes a call. A repetition that the call completes is dropped, and no n-gram is stored
then. The path ends at an n-gram that is foreign or already found. -/
def emit (search : Search) (walk : Walk) (target : CallTarget) (next : Option Nat)
    (found : NgramSet) : Except Error (NgramSet × List Task) :=
  let gram := walk.gram.push ⟨target, walk.frame⟩
  let period? :=
    if search.options.allowRepetitive then none else gram.shortestRepeat? search.options.size
  match period? with
  | some period => do
    let walk ← { walk with gram := gram.dropLast period }.goTo next
    .ok (found, [.arrive walk])
  | none =>
    match gram.window? search.options.size with
    | none => do
      let walk ← { walk with gram := gram }.goTo next
      .ok (found, [.arrive walk])
    | some ngram =>
      if search.isForeign ngram.head || found.contains ngram then .ok (found, [])
      else do
        let walk ← { walk with gram := gram }.goTo next
        .ok (found.insert ngram, [.arrive walk])

/-- Performs a task: the n-grams found then, and the tasks behind it. -/
def perform (search : Search) (task : Task) (found : NgramSet) :
    Except Error (NgramSet × List Task) :=
  match task with
  | .arrive walk => (search.expand walk).map fun tasks => (found, tasks)
  | .emit walk target next => search.emit walk target next found

/-- Follows a task and all that it leads to, in order, down to a depth. -/
def explore (search : Search) : Nat → Task → NgramSet → Except Error NgramSet :=
  follow search.perform (.unboundedSearch search.root)

/-- Follows all paths that start at an index of the starting method, down to a depth. -/
def exploreFrom (search : Search) (depth : Nat) (graph : MethodGraph) (index : Nat)
    (found : NgramSet) : Except Error NgramSet :=
  search.explore depth
    (.arrive ⟨index, ⟨search.root, graph, []⟩, [], search.options.budget, .empty⟩) found

end Search

/-- The number of program points of a program. -/
def pointCount (graphs : GraphTable) : Nat :=
  (graphs.toList.map fun entry => entry.2.nodes.size).foldl (· + ·) 0

/-- The depth to which tasks are followed. An activation visits each program point at most once
between two merge points and makes at most two tasks of a visit, and a path has no more activations
than the budget pays for. The constant leaves room for graphs with loops that no merge point cuts,
which end only by meeting an n-gram again. -/
def depthLimit (graphs : GraphTable) (options : SearchOptions) : Nat :=
  let points := pointCount graphs + 1
  (options.budget + 1) * (2 * points * points) + Nat.pow 2 32

/-- The graph of the method that a search starts in; the n-gram size has to be positive. -/
def startingGraph (graphs : GraphTable) (options : SearchOptions) (root : MethodKey) :
    Except Error MethodGraph :=
  if options.size = 0 then .error (.invalidSize 0)
  else
    match graphs.get? root with
    | none => .error (.unknownMethod root)
    | some graph => .ok graph

/-- The n-grams of all paths from the start of a method, down to a depth. -/
def ngramsWithin (depth : Nat) (graphs : GraphTable) (policy : DigPolicy)
    (options : SearchOptions) (root : MethodKey) : Except Error NgramSet := do
  let graph ← startingGraph graphs options root
  let search : Search := ⟨graphs, policy, options, root, none⟩
  search.exploreFrom depth graph graph.start .empty

/-- The n-grams of all paths from the start of a method. -/
def ngrams (graphs : GraphTable) (policy : DigPolicy) (options : SearchOptions)
    (root : MethodKey) : Except Error NgramSet :=
  ngramsWithin (depthLimit graphs options) graphs policy options root

/-- Adds the n-grams that start at an index of a method. -/
def addNgramsFrom (depth : Nat) (graphs : GraphTable) (policy : DigPolicy)
    (options : SearchOptions) (root : MethodKey) (graph : MethodGraph) (found : NgramSet)
    (index : Nat) : Except Error NgramSet :=
  match graph.node? index with
  | none => .error (.unknownStart ⟨root, index⟩)
  | some _ =>
    let search : Search := ⟨graphs, policy, options, root, some index⟩
    search.exploreFrom depth graph index found

/-- The n-grams that start at the given indices of a method, down to a depth. -/
def ngramsFromWithin (depth : Nat) (graphs : GraphTable) (policy : DigPolicy)
    (options : SearchOptions) (root : MethodKey) (indices : List Nat) :
    Except Error NgramSet := do
  let graph ← startingGraph graphs options root
  indices.foldlM (addNgramsFrom depth graphs policy options root graph) .empty

/-- The n-grams that start at the given indices of a method. -/
def ngramsFrom (graphs : GraphTable) (policy : DigPolicy) (options : SearchOptions)
    (root : MethodKey) (indices : List Nat) : Except Error NgramSet :=
  ngramsFromWithin (depthLimit graphs options) graphs policy options root indices

end CallNgrams
