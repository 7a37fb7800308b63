import CallNgrams.Proofs.Flow.Collapse

/-!
# Decoding keeps the calls

The cells of a body hold a command exactly where an instruction does more than pass control on, and
each command falls through to the next one. So a step over the cells is a step over the
instructions, followed by those that only pass control on.
-/

namespace CallNgrams

namespace Destinations

/-- Sorting destinations leaves none only if there are none. -/
theorem ofList_eq_nil {indices : List Nat} : ofList indices = [] ↔ indices = [] := by
  simp only [List.eq_nil_iff_forall_not_mem, mem_ofList]

end Destinations

namespace Flow

variable {flow : Flow} {index : Nat}

/-- An instruction without a command only passes control on to the next offset. -/
theorem moves_of_command?_none (h : flow.command? index = none) {site : Option CallSite}
    {dest : Nat} : flow.Moves index site dest ↔ site = none ∧ dest = index + 1 := by
  cases flow with
  | pass =>
    constructor
    · rintro ⟨⟩
      exact ⟨rfl, rfl⟩
    · rintro ⟨rfl, rfl⟩
      exact .pass
  | jump target =>
    obtain rfl : target = index + 1 := by simpa [command?] using h
    constructor
    · rintro ⟨⟩
      exact ⟨rfl, rfl⟩
    · rintro ⟨rfl, rfl⟩
      exact .jump
  | choice targets =>
    have hall : ∀ target ∈ targets, target = index + 1 := by
      simpa [command?, Destinations.ofList_eq_nil] using h
    constructor
    · rintro (_ | _ | ht)
      · exact ⟨rfl, hall dest ht⟩
      · exact ⟨rfl, rfl⟩
    · rintro ⟨rfl, rfl⟩
      exact .decline
  | call target => cases h
  | ret => cases h
  | raise => cases h

/-- A jump decodes to a jump. -/
theorem command?_jump {target : Nat} {command : Command}
    (h : (Flow.jump target).command? index = some command) : command = .jump target := by
  obtain ⟨-, hc⟩ := Option.ite_none_left_eq_some.mp h
  exact (Option.some.inj hc).symm

/-- The command of a choice keeps the targets other than the next offset. -/
theorem command?_choice {targets : List Nat} {command : Command}
    (h : (Flow.choice targets).command? index = some command) :
    ∃ dests, command = .branch dests ∧
      ∀ dest, dest ∈ dests ↔ dest ∈ targets ∧ dest ≠ index + 1 := by
  obtain ⟨-, hc⟩ := Option.ite_none_left_eq_some.mp h
  exact ⟨_, (Option.some.inj hc).symm, fun dest => by simp⟩

/-- An instruction with a command moves control as the command does, except that it falls through to
the next offset. -/
theorem moves_of_command {command : Command} (h : flow.command? index = some command)
    {next dest : Nat} {site : Option CallSite} (hm : command.Moves index (some next) site dest) :
    flow.Moves index site dest ∨ (flow.Moves index site (index + 1) ∧ dest = next) := by
  cases flow with
  | pass => cases h
  | jump target =>
    obtain rfl := command?_jump h
    cases hm
    exact .inl .jump
  | choice targets =>
    obtain ⟨dests, rfl, hdests⟩ := command?_choice h
    rcases hm with _ | ht | hn
    · exact .inl (.choose ((hdests dest).mp ht).1)
    · exact .inr ⟨.decline, (Option.some.inj hn).symm⟩
  | call target =>
    obtain rfl := Option.some.inj h
    cases hm with
    | call hn => exact .inr ⟨.call, (Option.some.inj hn).symm⟩
  | ret =>
    obtain rfl := Option.some.inj h
    cases hm
  | raise =>
    obtain rfl := Option.some.inj h
    cases hm

/-- The command of an instruction moves control as the instruction does, except that it falls
through to the next command. -/
theorem command_moves_of {command : Command} (h : flow.command? index = some command)
    (next : Nat) {dest : Nat} {site : Option CallSite} (hm : flow.Moves index site dest) :
    command.Moves index (some next) site dest ∨
      (command.Moves index (some next) site next ∧ dest = index + 1) := by
  cases hm with
  | pass => cases h
  | jump =>
    obtain rfl := command?_jump h
    exact .inl .jump
  | choose ht =>
    obtain ⟨dests, rfl, hdests⟩ := command?_choice h
    by_cases he : dest = index + 1
    · exact .inr ⟨.decline rfl, he⟩
    · exact .inl (.choose ((hdests dest).mpr ⟨ht, he⟩))
  | decline =>
    obtain ⟨dests, rfl, -⟩ := command?_choice h
    exact .inr ⟨.decline rfl, rfl⟩
  | call =>
    obtain rfl := Option.some.inj h
    exact .inr ⟨.call rfl, rfl⟩

/-! ## Targets lie within the method -/

/-- The targets that an instruction names. -/
def targets : Flow → List Nat
  | .jump target => [target]
  | .choice targets => targets
  | _ => []

/-- A command has no destinations but the targets of its instruction. -/
theorem mem_targets_of_command {command : Command} (h : flow.command? index = some command)
    {dest : Nat} (hd : dest ∈ command.destinations) : dest ∈ flow.targets := by
  cases flow with
  | jump target =>
    obtain rfl := command?_jump h
    exact hd
  | choice targets =>
    obtain ⟨dests, rfl, hdests⟩ := command?_choice h
    exact ((hdests dest).mp hd).1
  | pass => cases h
  | call target =>
    obtain rfl := Option.some.inj h
    cases hd
  | ret =>
    obtain rfl := Option.some.inj h
    cases hd
  | raise =>
    obtain rfl := Option.some.inj h
    cases hd

/-- A target that is read lies inside the body or at its end. -/
theorem target_le {size found : Nat} {text : String} (h : target size text = .ok found) :
    found ≤ size := by
  unfold target at h
  split at h
  · cases h
  · split at h
    · cases h
    · obtain rfl := Except.ok.inj h
      omega

theorem onlyTarget_le {size found : Nat} {instruction : Instruction}
    (h : onlyTarget size instruction = .ok found) : found ≤ size := by
  unfold onlyTarget at h
  split at h
  · exact target_le h
  · cases h

theorem caseTargets_le {size : Nat} {found : List Nat} {instruction : Instruction}
    (h : caseTargets size instruction = .ok found) : ∀ target ∈ found, target ≤ size := by
  intro target ht
  obtain ⟨operand, -, hop⟩ := exists_of_mem_mapM h target ht
  exact target_le hop

/-- A call names no target of control. -/
theorem ofCall_targets {hierarchy : Option ClassHierarchy} {context comment : String}
    {body : Body} {kind : CallKind}
    (h : ofCall hierarchy context body index kind comment = .ok flow) : flow.targets = [] := by
  unfold ofCall at h
  split at h
  · cases h
  case h_2 annotated _ =>
    cases hk : keptTarget hierarchy body index kind annotated with
    | error fault =>
      rw [hk] at h
      cases h
    | ok kept =>
      rw [hk] at h
      cases kept <;> exact Except.ok.inj h ▸ rfl

/-- No instruction names a target behind the end of its method. -/
theorem ofInstruction_targets_le {hierarchy : Option ClassHierarchy} {context : String}
    {body : Body} {instruction : Instruction}
    (h : ofInstruction hierarchy context body index instruction = .ok flow) :
    ∀ target ∈ flow.targets, target ≤ body.size := by
  unfold ofInstruction at h
  split at h
  case h_3 =>
    obtain ⟨found, hfound, rfl⟩ := exists_of_map_eq_ok h
    simpa [targets] using onlyTarget_le hfound
  case h_4 =>
    obtain ⟨found, hfound, rfl⟩ := exists_of_map_eq_ok h
    simpa [targets] using onlyTarget_le hfound
  case h_5 =>
    obtain ⟨found, hfound, rfl⟩ := exists_of_map_eq_ok h
    exact caseTargets_le hfound
  case h_6 kind _ =>
    rw [ofCall_targets h]
    simp
  all_goals
    obtain rfl := Except.ok.inj h
    simp [targets]

end Flow

namespace CellArray

/-! ## Placed commands -/

theorem size_place (commands : List (Nat × Command)) (cells : Array Cell) :
    (place commands cells).size = cells.size := by
  induction commands generalizing cells with
  | nil => rfl
  | cons entry rest ih => rw [place, ih, Array.size_setIfInBounds]

/-- Placing commands leaves the other cells. -/
theorem getElem?_place_of_not_mem {commands : List (Nat × Command)} {cells : Array Cell} {i : Nat}
    (h : ∀ entry ∈ commands, entry.1 ≠ i) : (place commands cells)[i]? = cells[i]? := by
  induction commands generalizing cells with
  | nil => rfl
  | cons entry rest ih =>
    rw [place, ih fun e he => h e (List.mem_cons_of_mem _ he),
      Array.getElem?_setIfInBounds_ne (h entry (by simp))]

/-- A placed command falls through to the next one. -/
theorem getElem?_place {before rest : List (Nat × Command)} {cells : Array Cell} {i : Nat}
    {command : Command} (hi : i < cells.size)
    (hsorted : (before ++ (i, command) :: rest).Pairwise fun a b => a.1 < b.1) :
    (place (before ++ (i, command) :: rest) cells)[i]? =
      some ⟨rest.head?.map Prod.fst, some command⟩ := by
  induction before generalizing cells with
  | nil =>
    have hrest : ∀ entry ∈ rest, entry.1 ≠ i := by
      intro entry he
      exact Nat.ne_of_gt ((List.pairwise_cons.mp hsorted).1 entry he)
    rw [List.nil_append, place, getElem?_place_of_not_mem hrest,
      Array.getElem?_setIfInBounds_self_of_lt hi]
  | cons entry before ih =>
    rw [List.cons_append, place]
    exact ih (by rwa [Array.size_setIfInBounds]) (List.pairwise_cons.mp hsorted).2

/-- The cells hold exactly the commands of a list, and each falls through to the one listed after
it. -/
structure Lists (array : CellArray) (commands : List (Nat × Command)) : Prop where
  sorted : commands.Pairwise fun a b => a.1 < b.1
  empty {i : Nat} : (∀ entry ∈ commands, entry.1 ≠ i) →
    array.command? i = none ∧ array.next? i = none
  cell {before rest : List (Nat × Command)} {i : Nat} {command : Command} :
    commands = before ++ (i, command) :: rest →
      array.command? i = some command ∧ array.next? i = rest.head?.map Prod.fst
  entrance : commands.head?.map Prod.fst = some array.entrance

namespace Lists

variable {array : CellArray} {commands : List (Nat × Command)} {i : Nat}

/-- The listed commands are those of the cells. -/
theorem mem_iff (h : array.Lists commands) {command : Command} :
    (i, command) ∈ commands ↔ array.command? i = some command := by
  constructor
  · intro hmem
    obtain ⟨before, rest, hsplit⟩ := List.append_of_mem hmem
    exact (h.cell hsplit).1
  · intro hc
    by_cases hout : ∀ entry ∈ commands, entry.1 ≠ i
    · rw [(h.empty hout).1] at hc
      cases hc
    · push Not at hout
      obtain ⟨⟨_, command'⟩, hmem, rfl⟩ := hout
      obtain ⟨before, rest, hsplit⟩ := List.append_of_mem hmem
      rw [(h.cell hsplit).1] at hc
      exact Option.some.inj hc ▸ hmem

/-- The head of a sorted rest of the list is the first command behind what precedes it. -/
theorem firstCommand (h : array.Lists commands) {before rest : List (Nat × Command)}
    {found : Nat} {command : Command} (hsplit : commands = before ++ (found, command) :: rest)
    (hle : i ≤ found) (hbefore : ∀ entry ∈ before, entry.1 < i) :
    array.FirstCommand i found where
  le := hle
  isSome := by simp [(h.cell hsplit).1]
  empty k hk hlt := by
    refine (h.empty fun entry hmem he => ?_).1
    have hsorted := h.sorted
    rw [hsplit] at hmem hsorted
    rcases List.mem_append.mp hmem with hb | hr
    · have := hbefore entry hb
      omega
    · rcases List.mem_cons.mp hr with rfl | hr
      · omega
      · have := (List.pairwise_cons.mp (List.pairwise_append.mp hsorted).2.1).1 entry hr
        omega

/-- A cell falls through to the next command. -/
theorem firstCommand_next (h : array.Lists commands) {dest : Nat}
    (hn : array.next? i = some dest) : array.FirstCommand (i + 1) dest := by
  by_cases hout : ∀ entry ∈ commands, entry.1 ≠ i
  · rw [(h.empty hout).2] at hn
    cases hn
  · push Not at hout
    obtain ⟨⟨j, command⟩, hmem, hj⟩ := hout
    obtain rfl : j = i := hj
    obtain ⟨before, rest, hsplit⟩ := List.append_of_mem hmem
    rw [(h.cell hsplit).2] at hn
    cases rest with
    | nil => cases hn
    | cons next rest =>
      obtain ⟨d, command'⟩ := next
      obtain rfl : d = dest := Option.some.inj hn
      have hsorted := h.sorted
      rw [hsplit] at hsorted
      obtain ⟨-, htail, hcross⟩ := List.pairwise_append.mp hsorted
      have hlt := (List.pairwise_cons.mp htail).1 _ (List.mem_cons_self ..)
      have hsplit' : commands = (before ++ [(j, command)]) ++ (d, command') :: rest := by
        simpa using hsplit
      refine h.firstCommand hsplit' hlt fun entry he => ?_
      rcases List.mem_append.mp he with he | he
      · exact Nat.lt_succ_of_lt (hcross entry he _ (List.mem_cons_self ..))
      · obtain rfl := List.mem_singleton.mp he
        exact Nat.lt_succ_self _

/-- The entrance is the first command. -/
theorem firstCommand_entrance (h : array.Lists commands) :
    array.FirstCommand 0 array.entrance := by
  have hhead := h.entrance
  cases commands with
  | nil => cases hhead
  | cons first rest =>
    obtain ⟨_, command⟩ := first
    obtain rfl := Option.some.inj hhead
    exact h.firstCommand (List.nil_append _).symm (Nat.zero_le _) (by simp)

end Lists

/-! ## The cells of a body -/

variable {hierarchy : Option ClassHierarchy} {context : String} {method : MethodKey} {body : Body}
  {array : CellArray}

/-- The command at an offset of a body, if it decodes to one. -/
def decoded (hierarchy : Option ClassHierarchy) (context : String) (body : Body) (index : Nat) :
    Option (Nat × Command) :=
  match body.flowAt hierarchy context index with
  | .ok flow => (flow.command? index).map fun command => (index, command)
  | .error _ => none

/-- An offset that is decoded has a flow, and its command is that of the flow. -/
theorem decodeAt_eq_ok {i : Nat} {entry : Option (Nat × Command)}
    (h : decodeAt hierarchy method body i = .ok entry) :
    (∃ flow, body.flowAt hierarchy method.owner i = .ok flow) ∧
      entry = decoded hierarchy method.owner body i := by
  unfold decodeAt at h
  unfold decoded Body.flowAt
  split at h
  case h_1 hget =>
    obtain rfl := Except.ok.inj h
    exact ⟨⟨.pass, by rw [hget]⟩, by rw [hget]; rfl⟩
  case h_2 instruction hget =>
    split at h
    case h_1 => cases h
    case h_2 flow hflow =>
      obtain rfl := Except.ok.inj h
      exact ⟨⟨flow, by rw [hget]; exact hflow⟩, by rw [hget]; simp only [hflow]⟩

theorem decoded_eq_some {i : Nat} {entry : Nat × Command}
    (h : decoded hierarchy context body i = some entry) :
    entry.1 = i ∧ ∃ flow, body.flowAt hierarchy context i = .ok flow ∧
      flow.command? i = some entry.2 := by
  unfold decoded at h
  split at h
  case h_1 flow hflow =>
    obtain ⟨command, hc, rfl⟩ := Option.map_eq_some_iff.mp h
    exact ⟨rfl, flow, hflow, hc⟩
  case h_2 => cases h

/-- The commands of a body in ascending order, and a return behind its last offset. -/
def listing (hierarchy : Option ClassHierarchy) (context : String) (body : Body) :
    List (Nat × Command) :=
  (List.range body.size).filterMap (decoded hierarchy context body) ++ [(body.size, .ret)]

/-- All decoded commands stand inside the body. -/
theorem mem_decoded_range {entry : Nat × Command}
    (h : entry ∈ (List.range body.size).filterMap (decoded hierarchy context body)) :
    entry.1 < body.size ∧ ∃ flow, body.flowAt hierarchy context entry.1 = .ok flow ∧
      flow.command? entry.1 = some entry.2 := by
  obtain ⟨i, hi, hentry⟩ := List.mem_filterMap.mp h
  obtain ⟨rfl, hflow⟩ := decoded_eq_some hentry
  exact ⟨List.mem_range.mp hi, hflow⟩

/-- Commands are listed in the order of their offsets. -/
theorem listing_sorted (hierarchy : Option ClassHierarchy) (context : String) (body : Body) :
    (listing hierarchy context body).Pairwise fun a b => a.1 < b.1 := by
  refine List.pairwise_append.mpr ⟨?_, List.pairwise_singleton _ _, ?_⟩
  · refine List.Pairwise.filterMap _ ?_ List.pairwise_lt_range
    intro i j hlt a ha b hb
    rw [(decoded_eq_some ha).1, (decoded_eq_some hb).1]
    exact hlt
  · intro a ha b hb
    obtain rfl := List.mem_singleton.mp hb
    exact (mem_decoded_range ha).1

theorem listing_lt {entry : Nat × Command} (h : entry ∈ listing hierarchy context body) :
    entry.1 < body.size + 1 := by
  rcases List.mem_append.mp h with h | h
  · exact Nat.lt_succ_of_lt (mem_decoded_range h).1
  · obtain rfl := List.mem_singleton.mp h
    exact Nat.lt_succ_self _

/-- Placing a sorted list of commands into empty cells gives cells that hold exactly the list. -/
theorem lists_place {commands : List (Nat × Command)} {size : Nat}
    (hsorted : commands.Pairwise fun a b => a.1 < b.1) (hlt : ∀ entry ∈ commands, entry.1 < size)
    (hcells : array.cells = place commands (Array.replicate size .empty))
    (hentrance : commands.head?.map Prod.fst = some array.entrance) : array.Lists commands where
  sorted := hsorted
  empty {i} hout := by
    have hread : (place commands (Array.replicate size .empty))[i]? =
        (Array.replicate size Cell.empty)[i]? := getElem?_place_of_not_mem hout
    rw [command?, next?, hcells, hread, Array.getElem?_replicate]
    split <;> exact ⟨rfl, rfl⟩
  cell {before rest i command} hsplit := by
    have hi : i < (Array.replicate size Cell.empty).size := by
      rw [Array.size_replicate]
      exact hlt (i, command) (by simp [hsplit])
    have hread := getElem?_place hi (hsplit ▸ hsorted)
    rw [← hsplit, ← hcells] at hread
    simp [command?, next?, hread]
  entrance := hentrance

/-- The cells of a body list its commands, and every instruction decodes. -/
theorem ofBody_lists (h : ofBody hierarchy method body = .ok array) :
    array.size = body.size + 1 ∧
      (∀ i < body.size, ∃ flow, body.flowAt hierarchy method.owner i = .ok flow) ∧
      array.Lists (listing hierarchy method.owner body) := by
  unfold ofBody at h
  cases hm : (List.range body.size).mapM (decodeAt hierarchy method body) with
  | error e =>
    rw [hm] at h
    cases h
  | ok found =>
    rw [hm] at h
    have hfound : found = (List.range body.size).map (decoded hierarchy method.owner body) :=
      eq_map_of_mapM hm fun i _ entry hentry => (decodeAt_eq_ok hentry).2
    have hlisting : found.filterMap id ++ [(body.size, .ret)] =
        listing hierarchy method.owner body := by
      rw [hfound, List.filterMap_map]
      rfl
    obtain rfl := Except.ok.inj h
    refine ⟨?_, fun i hi => ?_, ?_⟩
    · simp [size, size_place]
    · obtain ⟨entry, hentry⟩ := exists_ok_of_mapM hm i (List.mem_range.mpr hi)
      exact (decodeAt_eq_ok hentry).1
    · refine lists_place (listing_sorted hierarchy method.owner body) (fun _ => listing_lt) ?_ ?_
      · rw [← hlisting]
      · rw [← hlisting]
        cases found.filterMap id <;> rfl

/-- What the cells of a body are, cell by cell. -/
structure CellsOf (hierarchy : Option ClassHierarchy) (context : String) (body : Body)
    (array : CellArray) : Prop where
  size : array.size = body.size + 1
  flow {i : Nat} : i < body.size → ∃ flow, body.flowAt hierarchy context i = .ok flow ∧
    array.command? i = flow.command? i
  last : array.command? body.size = some .ret
  next {i dest : Nat} : array.next? i = some dest → array.FirstCommand (i + 1) dest
  falls {i : Nat} : i < body.size → (array.command? i).isSome → (array.next? i).isSome
  entrance : array.FirstCommand 0 array.entrance

/-- The cells of a body are what its instructions say. -/
theorem ofBody_cellsOf (h : ofBody hierarchy method body = .ok array) :
    CellsOf hierarchy method.owner body array := by
  obtain ⟨hsize, hflow, hlists⟩ := ofBody_lists h
  refine ⟨hsize, fun {i} hi => ?_, ?_, hlists.firstCommand_next, fun {i} hi hsome => ?_,
    hlists.firstCommand_entrance⟩
  · obtain ⟨flow, hf⟩ := hflow i hi
    refine ⟨flow, hf, Option.ext fun command => ?_⟩
    rw [← hlists.mem_iff]
    constructor
    · intro hmem
      rcases List.mem_append.mp hmem with hmem | hmem
      · obtain ⟨-, flow', hf', hc⟩ := mem_decoded_range hmem
        obtain rfl := Except.ok.inj (hf.symm.trans hf')
        exact hc
      · have := congrArg Prod.fst (List.mem_singleton.mp hmem)
        exact absurd hi (by simp_all)
    · intro hc
      refine List.mem_append_left _ (List.mem_filterMap.mpr ⟨i, List.mem_range.mpr hi, ?_⟩)
      simp [decoded, hf, hc]
  · exact hlists.mem_iff.mp (List.mem_append_right _ (List.mem_singleton.mpr rfl))
  · obtain ⟨command, hc⟩ := Option.isSome_iff_exists.mp hsome
    obtain ⟨before, rest, hsplit⟩ := List.append_of_mem (hlists.mem_iff.mpr hc)
    rw [(hlists.cell hsplit).2]
    cases rest with
    | cons next rest => rfl
    | nil =>
      have hlast := (List.append_inj' hsplit rfl).2
      have : body.size = i := congrArg Prod.fst (List.head_eq_of_cons_eq hlast)
      omega

/-- The cells of a body are laid out. -/
theorem CellsOf.laidOut (h : CellsOf hierarchy context body array) : array.LaidOut where
  last := by
    rw [h.size, Nat.add_sub_cancel, h.last]
    rfl
  entrance_lt := h.entrance.lt_size
  next_lt hn := (h.next hn).lt_size
  destination_lt {i dest command} hc hd := by
    have hlt := lt_size_of_command? hc
    rw [h.size] at hlt ⊢
    by_cases hi : i < body.size
    · obtain ⟨flow, hf, hflow⟩ := h.flow hi
      have hmem := Flow.mem_targets_of_command (hflow.symm.trans hc) hd
      unfold Body.flowAt at hf
      split at hf
      case h_1 => exact Nat.lt_succ_of_le (Flow.ofInstruction_targets_le hf dest hmem)
      case h_2 =>
        obtain rfl := Except.ok.inj hf
        cases hmem
    · obtain rfl : i = body.size := by omega
      obtain rfl := Option.some.inj (h.last.symm.trans hc)
      cases hd
  falls {i command} hc hf := by
    have hlt := lt_size_of_command? hc
    rw [h.size] at hlt
    by_cases hi : i < body.size
    · exact h.falls hi (by simp [hc])
    · obtain rfl : i = body.size := by omega
      obtain rfl := Option.some.inj (h.last.symm.trans hc)
      cases hf
  straight hn hc _ := (h.next hn).unique (.self (by simp [hc]))

/-- Over the instructions control slides along the offsets without a command. -/
theorem CellsOf.slide (h : CellsOf hierarchy context body array) {i found : Nat}
    (hfirst : array.FirstCommand i found) : Slide (body.Step hierarchy context) i found := by
  obtain ⟨count, rfl⟩ := Nat.exists_eq_add_of_le hfirst.le
  induction count generalizing i with
  | zero => exact .refl i
  | succ count ih =>
    have hlt := hfirst.lt_size
    rw [h.size] at hlt
    have hi : i < body.size := by omega
    obtain ⟨flow, hf, hflow⟩ := h.flow hi
    have hempty := hflow.symm.trans (hfirst.empty i (Nat.le_refl i) (by omega))
    have hmoves (site : Option CallSite) (dest : Nat) :
        flow.Moves i site dest ↔ site = none ∧ dest = i + 1 :=
      Flow.moves_of_command?_none hempty
    have hshift : i + (count + 1) = i + 1 + count := by omega
    rw [hshift] at hfirst ⊢
    refine .step ⟨hi, flow, hf, (hmoves _ _).mpr ⟨rfl, rfl⟩⟩ ?_ (ih ?_)
    · rintro site q ⟨-, flow', hf', hm⟩
      obtain rfl := Except.ok.inj (hf.symm.trans hf')
      exact (hmoves site q).mp hm
    · exact ⟨by omega, hfirst.isSome, fun k hk => hfirst.empty k (by omega)⟩

/-- A step over the cells of a body is a step over its instructions and a slide. -/
theorem CellsOf.shortcut (h : CellsOf hierarchy context body array) :
    Shortcut (body.Step hierarchy context) array.Drift := by
  have hcell {p : Nat} {command : Command} (hp : p < body.size)
      (hc : array.command? p = some command) :
      ∃ next, array.next? p = some next ∧ Slide (body.Step hierarchy context) (p + 1) next := by
    obtain ⟨next, hn⟩ := Option.isSome_iff_exists.mp (h.falls hp (by simp [hc]))
    exact ⟨next, hn, h.slide (h.next hn)⟩
  constructor
  · intro p r site hs
    have hp : p < body.size := by
      rcases hs with ⟨command, hc, hm⟩ | ⟨hlt, hnone, -⟩
      · have hlt := lt_size_of_command? hc
        rw [h.size] at hlt
        refine Nat.lt_of_le_of_ne (Nat.le_of_lt_succ hlt) ?_
        rintro rfl
        obtain rfl := Option.some.inj (h.last.symm.trans hc)
        cases hm
      · rw [h.size] at hlt
        refine Nat.lt_of_le_of_ne (Nat.le_of_lt_succ hlt) ?_
        rintro rfl
        rw [h.last] at hnone
        cases hnone
    obtain ⟨flow, hf, hflow⟩ := h.flow hp
    cases hc : array.command? p with
    | none =>
      have hm := (drift_of_empty hc (by rw [h.size]; omega)).mp hs
      have hmoves := (Flow.moves_of_command?_none (hflow.symm.trans hc)).mpr hm
      exact ⟨r, ⟨hp, flow, hf, hmoves⟩, .refl r⟩
    | some command =>
      obtain ⟨next, hn, hslide⟩ := hcell hp hc
      rw [drift_of_command hc, hn] at hs
      rcases Flow.moves_of_command (hflow.symm.trans hc) hs with hm | ⟨hm, rfl⟩
      · exact ⟨r, ⟨hp, flow, hf, hm⟩, .refl r⟩
      · exact ⟨p + 1, ⟨hp, flow, hf, hm⟩, hslide⟩
  · rintro p q site ⟨hp, flow, hf, hm⟩
    obtain ⟨flow', hf', hflow⟩ := h.flow hp
    obtain rfl := Except.ok.inj (hf.symm.trans hf')
    refine .inl ?_
    cases hc : array.command? p with
    | none =>
      rw [Flow.moves_of_command?_none (hflow.symm.trans hc)] at hm
      exact ⟨q, (drift_of_empty hc (by rw [h.size]; omega)).mpr hm, .refl q⟩
    | some command =>
      obtain ⟨next, hn, hslide⟩ := hcell hp hc
      rcases Flow.command_moves_of (hflow.symm.trans hc) next hm with hstay | ⟨hnext, rfl⟩
      · exact ⟨q, (drift_of_command hc).mpr (hn ▸ hstay), .refl q⟩
      · exact ⟨next, (drift_of_command hc).mpr (hn ▸ hnext), hslide⟩

/-- The cells of a body have the call sequences of its instructions. -/
theorem CellsOf.sameCalls (h : CellsOf hierarchy context body array) :
    SameCalls (body.Step hierarchy context) 0 array.Drift array.entrance :=
  (SameCalls.of_slide (h.slide h.entrance)).trans (h.shortcut.sameCalls array.entrance)

/-- Decoding a body and collapsing its jumps resolves all destinations and keeps the call
sequences. -/
theorem exists_collapseJumps_of_ofBody (h : ofBody hierarchy method body = .ok array) :
    ∃ collapsed, array.collapseJumps = .ok collapsed ∧ collapsed.Resolved ∧
      SameCalls (body.Step hierarchy method.owner) 0 collapsed.Step collapsed.entrance := by
  have hcells := ofBody_cellsOf h
  obtain ⟨collapsed, hrun, hresolved, hsame⟩ := hcells.laidOut.collapseJumps
  exact ⟨collapsed, hrun, hresolved, hcells.sameCalls.trans hsame⟩

/-- Whenever a body can be decoded its jumps can be collapsed, and the cells then make exactly the
call sequences of the instructions. The same holds of the paths that end where control stops. -/
theorem collapseJumps_makes_iff (h : ofBody hierarchy method body = .ok array) :
    ∃ collapsed, array.collapseJumps = .ok collapsed ∧
      (∀ calls, collapsed.Makes calls ↔ body.Makes hierarchy method.owner calls) ∧
      ∀ calls, collapsed.Completes calls ↔ body.Completes hierarchy method.owner calls := by
  obtain ⟨collapsed, hrun, -, hsame⟩ := exists_collapseJumps_of_ofBody h
  exact ⟨collapsed, hrun, fun calls => (hsame.emits calls).symm,
    fun calls => (hsame.finishes calls).symm⟩

/-- A branch over a call that control never comes back from: three jumps lead in a circle. -/
def circlingBody : Body :=
  ⟨#[some ⟨"ifeq", ["5"], none⟩, some ⟨"invokestatic", [], some "// Method t/A.a:()V"⟩,
    some ⟨"goto", ["4"], none⟩, some ⟨"goto", ["2"], none⟩, some ⟨"goto", ["3"], none⟩,
    some ⟨"invokestatic", [], some "// Method t/A.b:()V"⟩]⟩

/-- The cells of `circlingBody`. -/
def circlingCells : CellArray where
  method := ⟨"t/A", "m:()V"⟩
  cells := #[⟨some 1, some (.branch [5])⟩, ⟨some 2, some (.call ⟨some "t/A", "a:()V"⟩)⟩,
    ⟨some 3, some (.jump 4)⟩, ⟨some 4, some (.jump 2)⟩, ⟨some 5, some (.jump 3)⟩,
    ⟨some 6, some (.call ⟨some "t/A", "b:()V"⟩)⟩, ⟨none, some .ret⟩]
  entrance := 0

/-- Jumps that lead in a circle are collapsed without a loss of call sequences. -/
theorem collapseJumps_makes_iff_circling :
    ofBody none ⟨"t/A", "m:()V"⟩ circlingBody = .ok circlingCells ∧
      ∃ collapsed, circlingCells.collapseJumps = .ok collapsed ∧
        (∀ calls, collapsed.Makes calls ↔ circlingBody.Makes none "t/A" calls) ∧
        ∀ calls, collapsed.Completes calls ↔ circlingBody.Completes none "t/A" calls := by
  have hcells : ofBody none ⟨"t/A", "m:()V"⟩ circlingBody = .ok circlingCells := by rfl
  exact ⟨hcells, collapseJumps_makes_iff hcells⟩

end CellArray

end CallNgrams
