import Mathlib.Tactic
import Sdrmm.Lib.Outcome
import Sdrmm.Wire.Patch

/-!
# What a checked patch graph guarantees

`checkAcyclic` decides whether a cycle of wires can be reached from a node of the graph, and a
graph that passes `check` is wired soundly: no cycle, no wire twice, no second wire on a port that
takes one, and every wire from an output to an input of the same type on another node.
-/

namespace Sdrmm.Patch

open Relation
open Sdrmm.Lib.Outcome

/-! ## Refusals -/

@[simp] theorem refuseIf_eq_ok {bad : Bool} {error : PatchError} {u : Unit} :
    refuseIf bad error = .ok u ↔ bad = false := by
  cases bad <;> simp [refuseIf]

namespace PatchGraph

/-- There is a wire from node `a` to node `b`. -/
def Wired (graph : PatchGraph) (a b : String) : Prop :=
  ∃ edge ∈ graph.edges, edge.fromPort.node = a ∧ edge.toPort.node = b

theorem edge_targets (graph : PatchGraph) : Dfs.Edge graph.targets = graph.Wired := by
  funext a b
  simp only [Dfs.Edge, targets, Wired, List.mem_map, List.mem_filter, decide_eq_true_eq, and_assoc]

theorem node_mem {graph : PatchGraph} {id : String} {node : PatchNode}
    (hnode : graph.node id = some node) : node ∈ graph.nodes ∧ node.id = id := by
  unfold PatchGraph.node at hnode
  exact ⟨List.mem_of_find?_eq_some hnode, by simpa using List.find?_some hnode⟩

/-- A port that is found is one of its node's own, on the side asked for. -/
theorem port_eq_ok {graph : PatchGraph} {reference : PortRef} {direction : PortDirection}
    {channels : Option (List ChannelDescriptor)} {spec : PortSpec}
    (hport : graph.port reference direction channels = .ok spec) :
    ∃ node ∈ graph.nodes, node.id = reference.node ∧ spec ∈ node.body.ports ∧
      spec.direction = direction ∧ portMatches reference spec = true := by
  unfold PatchGraph.port at hport
  cases hnode : graph.node reference.node with
  | none => simp [hnode] at hport
  | some node =>
    rw [hnode] at hport
    obtain ⟨hmem, hid⟩ := node_mem hnode
    cases hfind : node.body.ports.find? fun port ↦
        port.direction = direction && portMatches reference port with
    | none =>
      simp only [hfind] at hport
      split at hport <;> cases hport
    | some found =>
      simp only [hfind] at hport
      obtain ⟨_, -, hspec⟩ := bind_eq_ok.mp hport
      obtain rfl : found = spec := by simpa [pure, Except.pure] using hspec
      have hholds := List.find?_some hfind
      simp only [Bool.and_eq_true, decide_eq_true_eq] at hholds
      exact ⟨node, hmem, hid, List.mem_of_find?_eq_some hfind, hholds.1, hholds.2⟩

/-! ## Edges -/

/-- What one wire has passed when the loop goes on to the next. -/
structure EdgeChecked (graph : PatchGraph) (channels : Option (List ChannelDescriptor))
    (edge : PatchEdge) (landed left : List PortRef) (out input : PortSpec) : Prop where
  apart : edge.fromPort.node ≠ edge.toPort.node
  out_port : graph.port edge.fromPort .output channels = .ok out
  in_port : graph.port edge.toPort .input channels = .ok input
  types : out.portType = input.portType
  landed : edge.toPort ∈ landed → input.multi = true
  left : edge.fromPort ∈ left → out.multi = true
  once : (graph.edges.filter fun other ↦
    other.fromPort = edge.fromPort ∧ other.toPort = edge.toPort).length ≤ 1

theorem checkEdge_eq_ok {graph : PatchGraph} {channels : Option (List ChannelDescriptor)}
    {index : ℕ} {edge : PatchEdge} {landed left : List PortRef} {u : Unit}
    (hcheck : graph.checkEdge channels index edge landed left = .ok u) :
    ∃ out input, EdgeChecked graph channels edge landed left out input := by
  unfold checkEdge at hcheck
  obtain ⟨_, hself, hcheck⟩ := bind_eq_ok.mp hcheck
  obtain ⟨out, hout, hcheck⟩ := bind_eq_ok.mp hcheck
  obtain ⟨input, hin, hcheck⟩ := bind_eq_ok.mp hcheck
  obtain ⟨_, htypes, hcheck⟩ := bind_eq_ok.mp hcheck
  obtain ⟨_, -, hcheck⟩ := bind_eq_ok.mp hcheck
  obtain ⟨_, -, hcheck⟩ := bind_eq_ok.mp hcheck
  obtain ⟨_, hlanded, hcheck⟩ := bind_eq_ok.mp hcheck
  obtain ⟨_, hleft, hcount⟩ := bind_eq_ok.mp hcheck
  refine ⟨out, input, ?_, hout, hin, ?_, ?_, ?_, ?_⟩
  · simpa using hself
  · simpa using htypes
  · intro hmem
    simpa [hmem] using hlanded
  · intro hmem
    simpa [hmem] using hleft
  · simpa using hcount

/-- The loop passes when every wire passes against the wires before it. -/
theorem checkEdgesFrom_eq_ok {graph : PatchGraph} {channels : Option (List ChannelDescriptor)}
    {index : ℕ} {edges : List PatchEdge} {landed left : List PortRef} {u : Unit}
    (hcheck : graph.checkEdgesFrom channels index edges landed left = .ok u)
    {before after : List PatchEdge} {edge : PatchEdge} (hsplit : edges = before ++ edge :: after) :
    graph.checkEdge channels (index + before.length) edge (landed ++ before.map (·.toPort))
      (left ++ before.map (·.fromPort)) = .ok () := by
  induction edges generalizing index landed left before with
  | nil => simp at hsplit
  | cons first edges ih =>
    rw [checkEdgesFrom] at hcheck
    obtain ⟨_, hfirst, hrest⟩ := bind_eq_ok.mp hcheck
    cases before with
    | nil =>
      obtain ⟨rfl, rfl⟩ : first = edge ∧ edges = after := by simpa using hsplit
      simpa using hfirst
    | cons head before =>
      obtain ⟨rfl, hedges⟩ : first = head ∧ edges = before ++ edge :: after := by
        simpa using hsplit
      have hlater := ih hrest hedges
      rw [Nat.add_right_comm, Nat.add_assoc] at hlater
      simpa [List.append_assoc] using hlater

theorem checkEdges_eq_ok {graph : PatchGraph} {channels : Option (List ChannelDescriptor)}
    (hcheck : graph.checkEdges channels = .ok ()) {before after : List PatchEdge}
    {edge : PatchEdge} (hsplit : graph.edges = before ++ edge :: after) :
    ∃ out input, EdgeChecked graph channels edge (before.map (·.toPort))
      (before.map (·.fromPort)) out input := by
  have hedge := checkEdgesFrom_eq_ok hcheck hsplit
  simp only [List.nil_append] at hedge
  exact checkEdge_eq_ok hedge

/-- An element that never follows itself occurs at most once. -/
theorem count_le_one_of_split {α : Type} [DecidableEq α] {list : List α} {a : α}
    (hsplit : ∀ before after, list = before ++ a :: after → a ∉ before) : list.count a ≤ 1 := by
  induction list using List.reverseRecOn with
  | nil => simp
  | append_singleton list b ih =>
    rw [List.count_append]
    by_cases hb : b = a
    · subst hb
      have hout : b ∉ list := hsplit list [] rfl
      simp [List.count_eq_zero_of_not_mem hout]
    · have hle := ih fun before after heq ↦
        hsplit before (after ++ [b]) (by rw [heq, List.append_assoc, List.cons_append])
      simpa [hb] using hle

theorem length_filter_eq_count {α : Type} [DecidableEq α] (edges : List PatchEdge)
    (key : PatchEdge → α) (a : α) :
    (edges.filter (key · = a)).length = (edges.map key).count a := by
  rw [List.count, List.countP_map, List.countP_eq_length_filter]
  congr 2

/-- A split of the keys of the wires is a split of the wires. -/
theorem exists_split_of_map {α : Type} {edges : List PatchEdge} {key : PatchEdge → α}
    {before after : List α} {a : α} (heq : edges.map key = before ++ a :: after) :
    ∃ early edge late, edges = early ++ edge :: late ∧ early.map key = before ∧ key edge = a := by
  obtain ⟨early, rest, rfl, hearly, hrest⟩ := List.map_eq_append_iff.mp heq
  obtain ⟨edge, late, rfl, hkey, -⟩ := List.map_eq_cons_iff.mp hrest
  exact ⟨early, edge, late, rfl, hearly, hkey⟩

/-! ## Cycles -/

theorem acyclic_of_checkAcyclic {graph : PatchGraph} {fuel : ℕ}
    (hcheck : graph.checkAcyclic fuel = some (.ok ())) :
    ∀ node ∈ graph.nodes, ∀ c,
      ReflTransGen graph.Wired node.id c → ¬ TransGen graph.Wired c c := by
  intro node hnode c hreach hcycle
  unfold checkAcyclic walk at hcheck
  cases hwalk : Dfs.visitAll (Dfs.walk graph.targets fuel) (graph.nodes.map (·.id)) ⟨[], []⟩ with
  | none => simp [hwalk] at hcheck
  | some answer =>
    cases answer with
    | error d => simp [hwalk] at hcheck
    | ok marks =>
      refine Dfs.not_reachesCycle_of_visitAll hwalk node.id (List.mem_map_of_mem hnode) ⟨c, ?_⟩
      rw [edge_targets]
      exact ⟨hreach, hcycle⟩

/-- With enough fuel the walk answers: it succeeds when no cycle can be reached from a node, and
otherwise names a node on one. -/
theorem checkAcyclic_answers (graph : PatchGraph) {fuel : ℕ}
    (hfuel : graph.nodes.length + graph.edges.length < fuel) :
    (graph.checkAcyclic fuel = some (.ok ()) ∧ ∀ node ∈ graph.nodes, ∀ c,
      ReflTransGen graph.Wired node.id c → ¬ TransGen graph.Wired c c) ∨
    (∃ c, graph.checkAcyclic fuel = some (.error (.cycle c)) ∧ TransGen graph.Wired c c ∧
      ∃ node ∈ graph.nodes, ReflTransGen graph.Wired node.id c) := by
  have hclosed : ∀ a ∈ graph.nodes.map (·.id) ++ graph.edges.map (·.toPort.node),
      ∀ b ∈ graph.targets a, b ∈ graph.nodes.map (·.id) ++ graph.edges.map (·.toPort.node) := by
    intro a _ b hb
    obtain ⟨edge, hedge, rfl⟩ := List.mem_map.mp hb
    exact List.mem_append_right _ (List.mem_map_of_mem (List.mem_filter.mp hedge).1)
  have hroots : ∀ root ∈ graph.nodes.map (·.id),
      root ∈ graph.nodes.map (·.id) ++ graph.edges.map (·.toPort.node) :=
    fun root hroot ↦ List.mem_append_left _ hroot
  rcases Dfs.visitAll_walk hclosed hroots fuel (by simpa using hfuel) with
    ⟨marks, hwalk, -⟩ | ⟨c, hwalk, hcycle, root, hroot, hreach⟩
  · left
    have hcheck : graph.checkAcyclic fuel = some (.ok ()) := by
      unfold checkAcyclic walk
      rw [hwalk]
      rfl
    exact ⟨hcheck, acyclic_of_checkAcyclic hcheck⟩
  · right
    rw [edge_targets] at hcycle hreach
    obtain ⟨node, hnode, rfl⟩ := List.mem_map.mp hroot
    refine ⟨c, ?_, hcycle, node, hnode, hreach⟩
    unfold checkAcyclic walk
    rw [hwalk]
    rfl

/-! ## The whole check -/

/-- A graph that is wired soundly, with `channels` known or not. -/
structure WellWired (graph : PatchGraph) (channels : Option (List ChannelDescriptor)) : Prop where
  acyclic : ∀ c, ¬ TransGen graph.Wired c c
  input_single : ∀ reference input, graph.port reference .input channels = .ok input →
    input.multi = false → (graph.edges.filter (·.toPort = reference)).length ≤ 1
  output_single : ∀ reference out, graph.port reference .output channels = .ok out →
    out.multi = false → (graph.edges.filter (·.fromPort = reference)).length ≤ 1
  nodup : graph.edges.Nodup
  joins : ∀ edge ∈ graph.edges, ∃ source ∈ graph.nodes, ∃ target ∈ graph.nodes,
    source.id = edge.fromPort.node ∧ target.id = edge.toPort.node ∧ source.id ≠ target.id ∧
    ∃ out ∈ source.body.ports, ∃ input ∈ target.body.ports,
      portMatches edge.fromPort out = true ∧ out.direction = .output ∧
      portMatches edge.toPort input = true ∧ input.direction = .input ∧
      out.portType = input.portType

theorem wellWired_of_checkEdges {graph : PatchGraph}
    {channels : Option (List ChannelDescriptor)} (hedges : graph.checkEdges channels = .ok ())
    (hacyclic : ∀ node ∈ graph.nodes, ∀ c,
      ReflTransGen graph.Wired node.id c → ¬ TransGen graph.Wired c c) :
    WellWired graph channels := by
  have hjoins : ∀ edge ∈ graph.edges, ∃ out input,
      EdgeChecked graph channels edge [] [] out input := by
    intro edge hedge
    obtain ⟨before, after, hsplit⟩ := List.append_of_mem hedge
    obtain ⟨out, input, hchecked⟩ := checkEdges_eq_ok hedges hsplit
    exact ⟨out, input, hchecked.apart, hchecked.out_port, hchecked.in_port, hchecked.types,
      by simp, by simp, hchecked.once⟩
  refine ⟨?_, ?_, ?_, ?_, ?_⟩
  · -- the first wire of a cycle leaves an existing node
    intro c hcycle
    obtain ⟨b, ⟨edge, hedge, hfrom, -⟩, -⟩ := TransGen.head'_iff.mp hcycle
    obtain ⟨out, input, hchecked⟩ := hjoins edge hedge
    obtain ⟨node, hnode, hid, -⟩ := port_eq_ok hchecked.out_port
    refine hacyclic node hnode c ?_ hcycle
    rw [hid, hfrom]
  · intro reference input hport hsingle
    rw [length_filter_eq_count]
    apply count_le_one_of_split
    intro before after heq hmem
    obtain ⟨early, edge, late, hsplit, hearly, rfl⟩ := exists_split_of_map heq
    obtain ⟨out, found, hchecked⟩ := checkEdges_eq_ok hedges hsplit
    obtain rfl : found = input := by
      have hsame := hchecked.in_port.symm.trans hport
      simpa using hsame
    rw [hchecked.landed (hearly ▸ hmem)] at hsingle
    cases hsingle
  · intro reference out hport hsingle
    rw [length_filter_eq_count]
    apply count_le_one_of_split
    intro before after heq hmem
    obtain ⟨early, edge, late, hsplit, hearly, rfl⟩ := exists_split_of_map heq
    obtain ⟨found, input, hchecked⟩ := checkEdges_eq_ok hedges hsplit
    obtain rfl : found = out := by
      have hsame := hchecked.out_port.symm.trans hport
      simpa using hsame
    rw [hchecked.left (hearly ▸ hmem)] at hsingle
    cases hsingle
  · rw [List.nodup_iff_count_le_one]
    intro edge
    by_cases hedge : edge ∈ graph.edges
    · obtain ⟨out, input, hchecked⟩ := hjoins edge hedge
      have hcount : graph.edges.count edge = (graph.edges.filter fun other ↦
          other.fromPort = edge.fromPort ∧ other.toPort = edge.toPort).length := by
        rw [List.count, List.countP_eq_length_filter]
        congr 2
        funext other
        rw [Bool.eq_iff_iff]
        cases other
        cases edge
        simp
      rw [hcount]
      exact hchecked.once
    · rw [List.count_eq_zero_of_not_mem hedge]
      exact Nat.zero_le 1
  · intro edge hedge
    obtain ⟨out, input, hchecked⟩ := hjoins edge hedge
    obtain ⟨source, hsource, hsourceId, hout, houtDirection, houtName⟩ :=
      port_eq_ok hchecked.out_port
    obtain ⟨target, htarget, htargetId, hin, hinDirection, hinName⟩ :=
      port_eq_ok hchecked.in_port
    refine ⟨source, hsource, target, htarget, hsourceId, htargetId, ?_, out, hout, input, hin,
      houtName, houtDirection, hinName, hinDirection, hchecked.types⟩
    rw [hsourceId, htargetId]
    exact hchecked.apart

theorem checkEdges_of_check {graph : PatchGraph} {channels : Option (List ChannelDescriptor)}
    {fuel : ℕ} (hcheck : graph.check channels fuel = some (.ok ())) :
    graph.checkEdges channels = .ok () ∧ graph.checkAcyclic fuel = some (.ok ()) := by
  unfold check at hcheck
  cases hearly : (do
      refuseIf (128 < graph.nodes.length) .tooManyNodes
      refuseIf (256 < graph.edges.length) .tooManyEdges
      graph.checkNodes channels graph.nodes []
      graph.checkEdges channels : Except PatchError Unit) with
  | error refusal => simp [hearly] at hcheck
  | ok u =>
    simp only [hearly] at hcheck
    obtain ⟨_, -, hearly⟩ := bind_eq_ok.mp hearly
    obtain ⟨_, -, hearly⟩ := bind_eq_ok.mp hearly
    obtain ⟨_, -, hedges⟩ := bind_eq_ok.mp hearly
    exact ⟨hedges, hcheck⟩

theorem check_ne_none {graph : PatchGraph} {channels : Option (List ChannelDescriptor)} {fuel : ℕ}
    (hacyclic : graph.checkAcyclic fuel ≠ none) : graph.check channels fuel ≠ none := by
  simp only [check]
  split
  · simp
  · exact hacyclic

theorem wellWired_of_check {graph : PatchGraph} {channels : Option (List ChannelDescriptor)}
    {fuel : ℕ} (hcheck : graph.check channels fuel = some (.ok ())) :
    WellWired graph channels := by
  obtain ⟨hedges, hacyclic⟩ := checkEdges_of_check hcheck
  exact wellWired_of_checkEdges hedges (acyclic_of_checkAcyclic hacyclic)

/-- The walk comes to an end on every graph and succeeds exactly when no cycle can be reached from
a node; the node it names otherwise lies on one.  A graph that passes the check, with the channel
types known or not, is wired soundly. -/
theorem check_exact (graph : PatchGraph) :
    (∀ fuel, graph.nodes.length + graph.edges.length < fuel →
      (graph.checkAcyclic fuel = some (.ok ()) ∨ ∃ c, graph.checkAcyclic fuel =
        some (.error (.cycle c)) ∧ TransGen graph.Wired c c) ∧
      (graph.checkAcyclic fuel = some (.ok ()) ↔ ∀ node ∈ graph.nodes, ∀ c,
        ReflTransGen graph.Wired node.id c → ¬ TransGen graph.Wired c c) ∧
      graph.validate fuel ≠ none) ∧
    (∀ fuel, graph.validate fuel = some (.ok ()) → WellWired graph none) ∧
    (∀ channels fuel, graph.validateAgainst channels fuel = some (.ok ()) →
      WellWired graph (some channels)) := by
  refine ⟨?_, fun _ ↦ wellWired_of_check, fun _ _ ↦ wellWired_of_check⟩
  intro fuel hfuel
  rcases graph.checkAcyclic_answers hfuel with ⟨hok, hnone⟩ | ⟨c, herror, hcycle, node, hnode, hreach⟩
  · exact ⟨Or.inl hok, ⟨fun _ ↦ hnone, fun _ ↦ hok⟩, check_ne_none (by simp [hok])⟩
  · refine ⟨Or.inr ⟨c, herror, hcycle⟩, ⟨acyclic_of_checkAcyclic, ?_⟩,
      check_ne_none (by simp [herror])⟩
    intro hnone
    exact absurd hcycle (hnone node hnode c hreach)

example :
    let place : Position := ⟨some 0, some 0⟩
    let graph : PatchGraph :=
      { nodes := [⟨"radio", .device none, place, none, none⟩,
          ⟨"nfm", .channel "nfm", place, none, none⟩, ⟨"out", .speaker, place, none, none⟩]
        edges := [⟨⟨"radio", "iq2"⟩, ⟨"nfm", "iq"⟩⟩, ⟨⟨"nfm", "audio"⟩, ⟨"out", "audio"⟩⟩] }
    graph.validate 6 = some (.ok ()) := by
  decide

end PatchGraph

end Sdrmm.Patch
