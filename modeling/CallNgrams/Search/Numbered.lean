import CallNgrams.Search.FrameTable
import CallNgrams.Search.Walk

/-!
# Searching with numbered frames

The search keeps its frames in a table, and a path holds only the number of the frame that runs. The
callers are read off the table, and the graph of a method is looked up by its name when the method
is called and when control returns to it. The n-grams that are found are kept by first call.
-/

namespace CallNgrams

/-- Where a frame is and how deep. -/
structure FramePlace where
  point : ProgramPoint
  depth : Nat

/-- Where a numbered frame is and how deep. -/
def NumberedFrame.place (frame : NumberedFrame) : FramePlace :=
  ⟨frame.point, frame.depth⟩

/-- Places are ordered by program point, then by depth. -/
instance : Ord FramePlace where
  compare := compareLex (compareOn FramePlace.point) (compareOn FramePlace.depth)

/-- What first calls are sorted by: the target and the places of the call stack. -/
structure HeadKey where
  target : CallTarget
  places : List FramePlace

instance : Ord HeadKey where
  compare := compareLex (compareOn HeadKey.target) (compareOn HeadKey.places)

/-- A table of frames, and the n-grams found so far: for each first call, the further calls. -/
structure NumberedSet where
  table : FrameTable
  grams : Std.TreeMap (GramItem Nat) (Std.TreeSet (List (GramItem Nat)))

namespace NumberedSet

/-- The set without frames and n-grams. -/
def empty : NumberedSet :=
  ⟨.empty, ∅⟩

/-- The further calls of the n-grams with the given first call. -/
def tails (set : NumberedSet) (head : GramItem Nat) : Std.TreeSet (List (GramItem Nat)) :=
  set.grams[head]?.getD ∅

/-- Whether an n-gram is in the set. -/
def contains (set : NumberedSet) (ngram : Ngram Nat) : Bool :=
  (set.tails ngram.head).contains ngram.tail

/-- Adds an n-gram. -/
def insert (set : NumberedSet) (ngram : Ngram Nat) : NumberedSet :=
  { set with grams := set.grams.insert ngram.head ((set.tails ngram.head).insert ngram.tail) }

/-- The number of n-grams. -/
def size (set : NumberedSet) : Nat :=
  (set.grams.toList.map fun entry => entry.2.size).foldl (· + ·) 0

/-- The rendered form of a call. -/
def step (set : NumberedSet) (item : GramItem Nat) : GramStep :=
  let frame := set.table.frame item.frame
  ⟨item.target.label, frame.point.text, frame.depth⟩

/-- The target of a call and the places of its frame and callers. -/
def headKey (set : NumberedSet) (head : GramItem Nat) : HeadKey :=
  ⟨head.target, (set.table.chain head.frame).map NumberedFrame.place⟩

/-- The rendered n-grams with the given first call, in ascending order and each once. -/
def renderTails (set : NumberedSet) (head : GramItem Nat) (tails : List (List (GramItem Nat))) :
    List RenderedNgram :=
  ((tails.map fun tail => (head :: tail).map set.step).mergeSort
    fun a b => (compare a b).isLE).eraseReps

/-- The rendered n-grams by first call, sorted by target and call stack. -/
def render (set : NumberedSet) : List (List RenderedNgram) :=
  (set.grams.toList.mergeSort fun a b =>
    (compare (set.headKey a.1) (set.headKey b.1)).isLE).map fun entry =>
      set.renderTails entry.1 entry.2.toList

end NumberedSet

/-- The state of a path whose frames are numbered. -/
structure NumberedWalk where
  /-- The program point that is visited. -/
  index : Nat
  /-- The graph of the running method. -/
  graph : MethodGraph
  /-- The number of a frame of the running method, at any of its program points. -/
  frame : Nat
  /-- The merge points that the running method has entered. -/
  marks : List Nat
  /-- The merge points that the waiting callers have entered, innermost first. -/
  outer : List (List Nat)
  /-- The calls and merge points that may still be entered. -/
  budget : Nat
  /-- The calls made so far. -/
  gram : Gram Nat

/-- A method that is about to be entered. -/
structure Entrance where
  method : MethodKey
  /-- The number of the frame that calls it, if one does. -/
  caller : Option Nat
  /-- The merge points that the waiting callers have entered, innermost first. -/
  outer : List (List Nat)
  /-- The program point to begin at, unless it is the start of the method. -/
  start : Option Nat
  budget : Nat
  gram : Gram Nat

/-- A task of the search with numbered frames. -/
inductive NumberedTask where
  /-- A path enters a method. -/
  | enter (entrance : Entrance)
  /-- A path arrives at a program point. -/
  | arrive (walk : NumberedWalk)
  /-- A path makes a call in a frame, after its callees have been followed, and falls through. -/
  | emit (walk : NumberedWalk) (target : CallTarget) (site : Nat) (next : Option Nat)

/-- The path goes on at an index, if there is one. -/
def NumberedWalk.goTo (table : FrameTable) (walk : NumberedWalk) (next : Option Nat) :
    Except Error NumberedWalk :=
  match next with
  | some index => .ok { walk with index := index }
  | none => .error (.invariant ⟨(table.frame walk.frame).point.method, walk.index⟩ .fallsOff)

namespace Search.Numbered

/-- The graph of a method. -/
def graphOf (search : Search) (method : MethodKey) : Except Error MethodGraph :=
  match search.graphs.get? method with
  | none => .error (.unknownMethod method)
  | some graph => .ok graph

/-- The walk that begins in a method that is entered, in a new frame. -/
def enterMethod (search : Search) (entrance : Entrance) (table : FrameTable) :
    Except Error (NumberedWalk × FrameTable) := do
  let graph ← graphOf search entrance.method
  let index := entrance.start.getD graph.start
  let (frame, table) := table.intern entrance.caller ⟨entrance.method, index⟩
  .ok (⟨index, graph, frame, [], entrance.outer, entrance.budget, entrance.gram⟩, table)

/-- Enters the visited program point: a merge point is marked and paid for. There is no walk if it
is marked already, or if the budget is used up. -/
def enter? (search : Search) (table : FrameTable) (walk : NumberedWalk) : Option NumberedWalk :=
  if !walk.graph.isMergePoint walk.index then some walk
  else if walk.marks.contains walk.index then none
  else
    let walk := { walk with marks := walk.index :: walk.marks }
    if search.options.countSurface || (table.frame walk.frame).depth != 0 then
      if walk.budget = 0 then none else some { walk with budget := walk.budget - 1 }
    else some walk

/-- Whether a method of the signature is running or waiting. -/
def isRunning (table : FrameTable) (walk : NumberedWalk) (signature : String) : Bool :=
  (table.chain walk.frame).any fun frame => frame.point.method.signature == signature

/-- The methods that a call made in a frame can lead to. -/
def callees (search : Search) (table : FrameTable) (walk : NumberedWalk) (site : Nat)
    (target : CallTarget) : List Entrance :=
  if walk.gram.count == 0 || walk.budget == 0 || !search.isDug target walk.gram ||
      isRunning table walk target.signature then []
  else
    (search.candidates target).map fun owner =>
      { method := ⟨owner, target.signature⟩
        caller := some site
        outer := walk.marks :: walk.outer
        start := none
        budget := walk.budget - 1
        gram := walk.gram.keepLast search.options.size }

/-- The walk that continues in a waiting caller behind its call. -/
def continueIn (search : Search) (table : FrameTable) (walk : NumberedWalk) (caller : Nat)
    (marks : List Nat) (outer : List (List Nat)) : Except Error NumberedWalk := do
  let site := (table.frame caller).point
  let graph ← graphOf search site.method
  match graph.node? site.index with
  | none => .error (.invariant site .callSiteWithoutNode)
  | some node =>
    match node.next with
    | none => .error (.invariant site .callSiteWithoutFallthrough)
    | some next => .ok ⟨next, graph, caller, marks, outer, walk.budget, walk.gram⟩

/-- The walks behind a return: one in the innermost caller, if there is any. -/
def returns (search : Search) (table : FrameTable) (walk : NumberedWalk) :
    Except Error (List NumberedWalk) :=
  if search.options.noReturning then .ok []
  else
    match (table.frame walk.frame).caller, walk.outer with
    | some caller, marks :: outer => (continueIn search table walk caller marks outer).map ([·])
    | _, _ => .ok []

/-- The walks behind a branch: the fallthrough first, then the targets from the last to the first,
which only keep the calls that an n-gram can still need. -/
def choices (search : Search) (table : FrameTable) (walk : NumberedWalk) (targets : List Nat)
    (next : Option Nat) : Except Error (List NumberedWalk) := do
  let straight ← walk.goTo table next
  let taken :=
    if search.options.noBranch then []
    else targets.reverse.map fun target =>
      { walk with index := target, gram := walk.gram.keepLast search.options.size }
  .ok (straight :: taken)

/-- The tasks behind the arrival at a program point. A call is made in a frame of its own. -/
def expand (search : Search) (walk : NumberedWalk) (table : FrameTable) :
    Except Error (FrameTable × List NumberedTask) :=
  match walk.graph.node? walk.index with
  | none =>
    .error (.invariant ⟨(table.frame walk.frame).point.method, walk.index⟩ .fallsOff)
  | some node =>
    match enter? search table walk with
    | none => .ok (table, [])
    | some walk =>
      match node.command with
      | .ret => (returns search table walk).map fun walks => (table, walks.map .arrive)
      | .raise => .ok (table, [])
      | .jump target => .ok (table, [.arrive { walk with index := target }])
      | .branch targets =>
        (choices search table walk targets node.next).map fun walks => (table, walks.map .arrive)
      | .call target =>
        let (site, table) := table.withIndex walk.frame walk.index
        .ok (table, (callees search table walk site target).map .enter ++
          [.emit walk target site node.next])

/-- A path makes a call. A repetition that the call completes is dropped, and no n-gram is stored
then. The path ends at an n-gram that is foreign or already found. -/
def emit (search : Search) (walk : NumberedWalk) (target : CallTarget) (site : Nat)
    (next : Option Nat) (found : NumberedSet) :
    Except Error (NumberedSet × List NumberedTask) :=
  let gram := walk.gram.push ⟨target, site⟩
  let period? :=
    if search.options.allowRepetitive then none else gram.shortestRepeat? search.options.size
  match period? with
  | some period => do
    let walk ← { walk with gram := gram.dropLast period }.goTo found.table next
    .ok (found, [.arrive walk])
  | none =>
    match gram.window? search.options.size with
    | none => do
      let walk ← { walk with gram := gram }.goTo found.table next
      .ok (found, [.arrive walk])
    | some ngram =>
      let head := found.table.frame ngram.head.frame
      if search.isForeignAt head.point head.depth || found.contains ngram then .ok (found, [])
      else do
        let walk ← { walk with gram := gram }.goTo found.table next
        .ok (found.insert ngram, [.arrive walk])

/-- Performs a task: the frames and n-grams then, and the tasks behind it. -/
def perform (search : Search) (task : NumberedTask) (found : NumberedSet) :
    Except Error (NumberedSet × List NumberedTask) :=
  match task with
  | .enter entrance => do
    let (walk, table) ← enterMethod search entrance found.table
    let (table, tasks) ← expand search walk table
    .ok ({ found with table := table }, tasks)
  | .arrive walk => do
    let (table, tasks) ← expand search walk found.table
    .ok ({ found with table := table }, tasks)
  | .emit walk target site next => emit search walk target site next found

/-- Follows a task and all that it leads to, in order, down to a depth. -/
def explore (search : Search) : Nat → NumberedTask → NumberedSet → Except Error NumberedSet :=
  follow (perform search) (.unboundedSearch search.root)

/-- Follows all paths that start at an index of the starting method, down to a depth. -/
def exploreFrom (search : Search) (depth index : Nat) (found : NumberedSet) :
    Except Error NumberedSet :=
  explore search depth
    (.enter ⟨search.root, none, [], some index, search.options.budget, .empty⟩) found

/-- The n-grams of all paths from the start of a method, down to a depth. -/
def ngramsWithin (depth : Nat) (graphs : GraphTable) (policy : DigPolicy)
    (options : SearchOptions) (root : MethodKey) : Except Error NumberedSet := do
  let graph ← startingGraph graphs options root
  exploreFrom ⟨graphs, policy, options, root, none⟩ depth graph.start .empty

/-- Adds the n-grams that start at an index of a method. -/
def addNgramsFrom (depth : Nat) (graphs : GraphTable) (policy : DigPolicy)
    (options : SearchOptions) (root : MethodKey) (graph : MethodGraph) (found : NumberedSet)
    (index : Nat) : Except Error NumberedSet :=
  match graph.node? index with
  | none => .error (.unknownStart ⟨root, index⟩)
  | some _ => exploreFrom ⟨graphs, policy, options, root, some index⟩ depth index found

/-- The n-grams that start at the given indices of a method, down to a depth. -/
def ngramsFromWithin (depth : Nat) (graphs : GraphTable) (policy : DigPolicy)
    (options : SearchOptions) (root : MethodKey) (indices : List Nat) :
    Except Error NumberedSet := do
  let graph ← startingGraph graphs options root
  indices.foldlM (addNgramsFrom depth graphs policy options root graph) .empty

end Search.Numbered

end CallNgrams
